import Noeta.Lib.Interner

/-!
# Shape interning

The process-wide table of shapes in `noeta-object`, as an interner whose key is `ShapeKey::of`, and the table of packed
schemas, whose key is `SchemaKey::of`. A handle is the place of a leaked entry.
-/

namespace Noeta.Object

open Lib.Interner (Table Faithful faithful_iff)

inductive ShapeKind where
  | structObject | classObject | opaqueObject | enumValue
  deriving DecidableEq, Repr

/-- The layout of one kind of aggregate. -/
structure Shape where
  kind : ShapeKind
  name : String
  fields : List String
  variant : Option String
  builtinResultOption : Bool
  variantIndex : Option UInt32
  structuralEq : Bool
  keyCapable : Bool
  transientSlots : List UInt32
  unsignedSlots : List UInt32
  deriving DecidableEq, Repr

namespace Shape

/-- Equality of shapes leaves the metadata of the type out. -/
instance : BEq Shape where
  beq a b := a.kind = b.kind && a.name = b.name && a.fields = b.fields && a.variant = b.variant &&
    a.builtinResultOption = b.builtinResultOption

theorem beq_iff {a b : Shape} :
    (a == b) = true ↔ a.kind = b.kind ∧ a.name = b.name ∧ a.fields = b.fields ∧ a.variant = b.variant ∧
      a.builtinResultOption = b.builtinResultOption := by
  change (a.kind = b.kind && a.name = b.name && a.fields = b.fields && a.variant = b.variant &&
    a.builtinResultOption = b.builtinResultOption : Bool) = true ↔ _
  simp only [Bool.and_eq_true, decide_eq_true_eq, and_assoc]

def objectEquatable (kind : ShapeKind) (name : String) (fields : List String) (structuralEq : Bool) : Shape where
  kind := kind
  name := name
  fields := fields
  variant := none
  builtinResultOption := false
  variantIndex := none
  structuralEq := structuralEq
  keyCapable := false
  transientSlots := []
  unsignedSlots := []

/-- The shape reflection builds for an object. -/
def object (kind : ShapeKind) (name : String) (fields : List String) : Shape :=
  objectEquatable kind name fields (kind ≠ .classObject)

def withTransientSlots (shape : Shape) (transientSlots : List UInt32) : Shape := { shape with transientSlots }

end Shape

/-! ## Shapes -/

structure ShapeKey where
  kind : ShapeKind
  name : String
  fields : List String
  variant : Option String
  builtinResultOption : Bool
  structuralEq : Bool
  deriving DecidableEq, Repr

def ShapeKey.of (shape : Shape) : ShapeKey where
  kind := shape.kind
  name := shape.name
  fields := shape.fields
  variant := shape.variant
  builtinResultOption := shape.builtinResultOption
  structuralEq := shape.structuralEq

theorem ShapeKey.of_eq_iff {a b : Shape} :
    ShapeKey.of a = ShapeKey.of b ↔ (a == b) = true ∧ a.structuralEq = b.structuralEq := by
  rw [Shape.beq_iff, ShapeKey.of, ShapeKey.of, ShapeKey.mk.injEq]
  simp only [and_assoc]

/-- `intern_shape`, for one request after the other from the start of the process. -/
def internShapes (requests : List Shape) : Table ShapeKey.of × List (Shape × Nat) := (Table.empty _).internAll requests

/-- The metadata that the key of a shape leaves out. -/
structure Shape.SameMetadata (a b : Shape) : Prop where
  variantIndex : a.variantIndex = b.variantIndex
  keyCapable : a.keyCapable = b.keyCapable
  transientSlots : a.transientSlots = b.transientSlots
  unsignedSlots : a.unsignedSlots = b.unsignedSlots

theorem Shape.eq_of_sameMetadata {a b : Shape} (hkey : ShapeKey.of a = ShapeKey.of b) (h : a.SameMetadata b) : a = b := by
  obtain ⟨hvariant, hcapable, htransient, hunsigned⟩ := h
  rw [ShapeKey.of, ShapeKey.of, ShapeKey.mk.injEq] at hkey
  obtain ⟨hkind, hname, hfields, hcase, hbuiltin, hstructural⟩ := hkey
  cases a
  cases b
  rw [Shape.mk.injEq]
  exact ⟨hkind, hname, hfields, hcase, hbuiltin, hvariant, hstructural, hcapable, htransient, hunsigned⟩

/-- Requests get the shapes they ask for, and share a handle only with requests for the same shape, exactly if equal shapes
with one structural equality come with one metadata throughout. -/
theorem internShapes_faithful_iff (requests : List Shape) :
    Faithful (internShapes requests) ↔
      ∀ a ∈ requests, ∀ b ∈ requests, (a == b) = true → a.structuralEq = b.structuralEq → a.SameMetadata b := by
  rw [internShapes, faithful_iff]
  constructor
  · intro h a ha b hb hsame hstructural
    obtain rfl := h a ha b hb (ShapeKey.of_eq_iff.mpr ⟨hsame, hstructural⟩)
    exact ⟨rfl, rfl, rfl, rfl⟩
  · intro h a ha b hb hkey
    obtain ⟨hsame, hstructural⟩ := ShapeKey.of_eq_iff.mp hkey
    exact Shape.eq_of_sameMetadata hkey (h a ha b hb hsame hstructural)

/-- A shape built by reflection, requested first, hides the transient field of the shape the compiler builds. -/
theorem internShapes_unfaithful : ¬∀ requests : List Shape, Faithful (internShapes requests) := by
  intro h
  let reflected := Shape.object .structObject "User" ["name", "token"]
  have hsame : reflected = reflected.withTransientSlots [1] :=
    (faithful_iff _).mp (h [reflected, reflected.withTransientSlots [1]]) _ List.mem_cons_self _
      (List.mem_cons_of_mem _ List.mem_cons_self) rfl
  exact absurd (congrArg Shape.transientSlots hsame) (by decide)

/-! ## Packed schemas -/

/-- The kind of a packed field. A nested schema is named by its handle. -/
inductive PackedKind where
  | int | float | f32 | f64
  | intN (bits : UInt8) (signed : Bool)
  | bool
  | struct (inner : Nat)
  deriving DecidableEq, Repr

/-- A packed schema, with its shape by handle. -/
structure PackedSchema where
  shape : Option Nat
  fields : List PackedKind
  byteSize : Nat
  column : Bool
  deriving DecidableEq, Repr

/-- `SchemaKey::of` copies a schema field by field. -/
def SchemaKey.of (schema : PackedSchema) : Option Nat × List PackedKind × Nat × Bool :=
  (schema.shape, schema.fields, schema.byteSize, schema.column)

theorem SchemaKey.of_injective {a b : PackedSchema} (h : SchemaKey.of a = SchemaKey.of b) : a = b := by
  cases a
  cases b
  rw [SchemaKey.of, SchemaKey.of, Prod.mk.injEq, Prod.mk.injEq, Prod.mk.injEq] at h
  rw [PackedSchema.mk.injEq]
  exact h

/-- `intern_schema`, for one request after the other. -/
def internSchemas (requests : List PackedSchema) : Table SchemaKey.of × List (PackedSchema × Nat) :=
  (Table.empty _).internAll requests

end Noeta.Object
