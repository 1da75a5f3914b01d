import Noeta.Json.Hint
import Mathlib.Data.List.Nodup

/-!
# Values at their types

A static type, its values, the hint the checker builds for it (`render_hint` and `named_render_hint`
of `noeta-check/src/packed.rs`, for a JSON door) and the tree the backends marshal a value into
(`to_native_deep`). `written` is the same tree with every unsigned 64-bit integer as the number it
stands for: what `stringify` makes of it is what the value's text should be.
-/

namespace Noeta.Json

/-! ### Types -/

mutual

/-- A key-capable `@packed` struct. -/
inductive PackedTy where
  | struct (typeName : List Char) (fields : PackedFields)

inductive PackedFields where
  | nil
  | int (rest : PackedFields)
  | u64 (rest : PackedFields)
  | bool (rest : PackedFields)
  | nested (ty : PackedTy) (rest : PackedFields)

end

inductive KeyTy where
  /-- A string, or an extern value as its canonical display form. -/
  | str
  /-- `int` and every fixed-width integer but `u64`. -/
  | int
  | u64
  | packed (ty : PackedTy)

/-- A field name: an identifier, which is never an integer's text. -/
def FieldName := { name : List Char // parseI64 name = none }

mutual

inductive Ty where
  | u64
  /-- `int` and every fixed-width integer but `u64`: the word is the number. -/
  | int
  | bool
  | float
  | f32
  | str
  | bytes
  | unit
  | externValue
  | list (elem : Ty)
  | set (elem : Ty)
  | map (key : KeyTy) (value : Ty)
  | tuple (elems : Tys)
  | record (fields : Fields)
  | enum (name : List Char) (cases : Cases)
  | result (ok err : Ty)
  | option (inner : Ty)

inductive Tys where
  | nil
  | cons (ty : Ty) (rest : Tys)

/-- The fields of a struct or class that are not transient. -/
inductive Fields where
  | nil
  | cons (name : FieldName) (ty : Ty) (rest : Fields)

inductive Cases where
  | nil
  | cons (name : List Char) (payload : Tys) (rest : Cases)

end

/-! ### Values -/

mutual

def PackedTy.Value : PackedTy → Type
  | .struct _ fields => fields.Value

def PackedFields.Value : PackedFields → Type
  | .nil => Unit
  | .int rest => BitVec 64 × rest.Value
  | .u64 rest => BitVec 64 × rest.Value
  | .bool rest => Bool × rest.Value
  | .nested ty rest => ty.Value × rest.Value

end

def KeyTy.Value : KeyTy → Type
  | .str => List Char
  | .int => BitVec 64
  | .u64 => BitVec 64
  | .packed ty => ty.Value

/-- A map's placement order: an integer key's is that of the signed word; of the other kinds all
that matters here is that no key stands twice. -/
def KeyTy.Before : (k : KeyTy) → k.Value → k.Value → Prop
  | .str, a, b => a ≠ b
  | .int, a, b => a.toInt < b.toInt
  | .u64, a, b => a.toInt < b.toInt
  | .packed _, a, b => a ≠ b

mutual

def Ty.Value (fl : FloatFormat) : Ty → Type
  | .u64 => BitVec 64
  | .int => BitVec 64
  | .bool => Bool
  | .float => fl.F64
  | .f32 => fl.F32
  | .str => List Char
  | .bytes => List UInt8
  | .unit => Unit
  | .externValue => List Char
  | .list elem => List (elem.Value fl)
  | .set elem => List (elem.Value fl)
  | .map key value =>
    { entries : List (key.Value × value.Value fl) //
      (entries.map Prod.fst).Pairwise key.Before }
  | .tuple elems => elems.Value fl
  | .record fields => fields.Value fl
  | .enum _ cases => cases.Value fl
  | .result ok err => ok.Value fl ⊕ err.Value fl
  | .option inner => Option (inner.Value fl)

def Tys.Value (fl : FloatFormat) : Tys → Type
  | .nil => Unit
  | .cons ty rest => ty.Value fl × rest.Value fl

def Fields.Value (fl : FloatFormat) : Fields → Type
  | .nil => Unit
  | .cons _ ty rest => ty.Value fl × rest.Value fl

def Cases.Value (fl : FloatFormat) : Cases → Type
  | .nil => Empty
  | .cons _ payload rest => payload.Value fl ⊕ rest.Value fl

end

/-! ### The hint of a type -/

mutual

def PackedTy.hint : PackedTy → Option RenderHint
  | .struct _ fields => RenderHint.ofSlots fields.hints

def PackedFields.hints : PackedFields → List (Option RenderHint)
  | .nil => []
  | .int rest => none :: rest.hints
  | .u64 rest => some .unsigned :: rest.hints
  | .bool rest => none :: rest.hints
  | .nested ty rest => ty.hint :: rest.hints

end

def KeyTy.hint : KeyTy → Option RenderHint
  | .str => none
  | .int => none
  | .u64 => some .unsigned
  | .packed ty => ty.hint

def ofVariants (variants : List (List Char × List (Nat × RenderHint))) : Option RenderHint :=
  let vs := variants.filter fun v => !v.2.isEmpty
  if vs.isEmpty then none else some (.variants vs)

mutual

def Ty.hint : Ty → Option RenderHint
  | .u64 => some .unsigned
  | .list elem => elem.hint.map .elements
  | .set elem => elem.hint.map .elements
  | .map key value =>
    if key.hint.isSome || value.hint.isSome then some (.entries key.hint value.hint) else none
  | .tuple elems => RenderHint.ofSlots elems.hints
  | .record fields => RenderHint.ofSlots fields.hints
  | .enum _ cases => ofVariants cases.hints
  | .result ok err =>
    ofVariants [("Ok".toList, RenderHint.sparse [ok.hint]), ("Err".toList, RenderHint.sparse [err.hint])]
  | .option inner => inner.hint.map fun h => .variants [("some".toList, [(0, h)])]
  | _ => none

def Tys.hints : Tys → List (Option RenderHint)
  | .nil => []
  | .cons ty rest => ty.hint :: rest.hints

def Fields.hints : Fields → List (Option RenderHint)
  | .nil => []
  | .cons _ ty rest => ty.hint :: rest.hints

def Cases.hints : Cases → List (List Char × List (Nat × RenderHint))
  | .nil => []
  | .cons name payload rest => (name, RenderHint.sparse payload.hints) :: rest.hints

end

/-! ### Trees -/

/-- How a word of a `u64` is read. -/
abbrev Reading := BitVec 64 → Int

section

variable {fl : FloatFormat} (names : List Char → Option (List (List Char))) (read : Reading)

mutual

/-- `write_struct`: a packed key's display form, with the registered field names. -/
def PackedTy.display : (ty : PackedTy) → ty.Value → List Char
  | .struct typeName fields, v =>
    typeName ++ " \x7b".toList ++ fields.display (names typeName) 0 v ++ ['}']

def PackedFields.display (fieldNames : Option (List (List Char))) (i : Nat) :
    (fields : PackedFields) → fields.Value → List Char
  | .nil, _ => []
  | .int rest, v =>
    fieldLabel fieldNames i ++ intText v.1.toInt ++ rest.display fieldNames (i + 1) v.2
  | .u64 rest, v =>
    fieldLabel fieldNames i ++ intText (read v.1) ++ rest.display fieldNames (i + 1) v.2
  | .bool rest, v => fieldLabel fieldNames i ++ boolText v.1 ++ rest.display fieldNames (i + 1) v.2
  | .nested ty rest, v =>
    fieldLabel fieldNames i ++ ty.display v.1 ++ rest.display fieldNames (i + 1) v.2
where
  /-- The separator and the name before a field. -/
  fieldLabel (fieldNames : Option (List (List Char))) (i : Nat) : List Char :=
    (if i > 0 then ", ".toList else []) ++
      ((fieldNames.bind fun ns => ns[i]?).elim [] (· ++ ": ".toList))

end

def KeyTy.asNativeStr : (k : KeyTy) → k.Value → List Char
  | .str, s => s
  | .int, w => intText (BitVec.toInt w)
  | .u64, w => intText (read w)
  | .packed ty, v => ty.display names read v

/-- The entries of a map in the order of its keys. -/
def KeyTy.order {β : Type} (k : KeyTy) (entries : List (k.Value × β)) : List (k.Value × β) :=
  match k with
  | .u64 => entries.mergeSort fun a b => read a.1 ≤ read b.1
  | _ => entries

mutual

/-- The tree of a value: an `Option` is its payload, or unit. -/
def Ty.tree : (ty : Ty) → ty.Value fl → NativeValue fl
  | .u64, w => .int (read w)
  | .int, w => .int (BitVec.toInt w)
  | .bool, b => .bool b
  | .float, f => .float f
  | .f32, f => .f32 f
  | .str, s => .str s
  | .bytes, b => .bytes b
  | .unit, _ => .unit
  | .externValue, d => .externValue d
  | .list elem, xs => .list (xs.map fun x => elem.tree x)
  | .set elem, xs => .list (xs.map fun x => elem.tree x)
  | .map key value, m =>
    .map ((key.order read m.1).map fun e => (key.asNativeStr names read e.1, value.tree e.2))
  | .tuple elems, xs => .list (elems.trees xs)
  | .record fields, xs => .map (fields.trees xs)
  | .enum name cases, x => cases.tree name 0 x
  | .result ok err, x =>
    match x with
    | .inl x => .variant "Result".toList "Ok".toList 0 [ok.tree x]
    | .inr x => .variant "Result".toList "Err".toList 1 [err.tree x]
  | .option inner, x =>
    match x with
    | none => .unit
    | some x => inner.tree x

def Tys.trees : (tys : Tys) → tys.Value fl → List (NativeValue fl)
  | .nil, _ => []
  | .cons ty rest, xs => ty.tree xs.1 :: rest.trees xs.2

def Fields.trees : (fields : Fields) → fields.Value fl → List (List Char × NativeValue fl)
  | .nil, _ => []
  | .cons name ty rest, xs => (name.1, ty.tree xs.1) :: rest.trees xs.2

def Cases.tree (enumName : List Char) (index : Nat) :
    (cases : Cases) → cases.Value fl → NativeValue fl
  | .nil, x => nomatch x
  | .cons name payload rest, x =>
    match x with
    | .inl x => .variant enumName name index (payload.trees x)
    | .inr x => rest.tree enumName (index + 1) x

end

end

/-- `to_native_deep`: words as they are. -/
def Ty.marshal {fl : FloatFormat} (names : List Char → Option (List (List Char))) (ty : Ty)
    (v : ty.Value fl) : NativeValue fl :=
  ty.tree names BitVec.toInt v

/-- The value with every unsigned integer as the number it stands for. -/
def Ty.written {fl : FloatFormat} (names : List Char → Option (List (List Char))) (ty : Ty)
    (v : ty.Value fl) : NativeValue fl :=
  ty.tree names (fun w : BitVec 64 => w.toNat) v

end Noeta.Json
