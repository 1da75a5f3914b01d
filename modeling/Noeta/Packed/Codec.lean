import Noeta.Packed.Schema

/-!
# The element codec

A block of an element's size decodes to one value wherever it stands in a buffer, an element of the
schema's type packs into such a block, and a slot of the element is the decoding of the part of the
block that stands at the slot. The three inductions follow the nesting of schemas.
-/

namespace Noeta.Packed

open Lib

/-! ### Reading an element is local -/

/-- The block `c` holds the value `v` of a kind, wherever it stands in a buffer. -/
def Reads (kind : PackedKind) (c : List UInt8) (v : Value) : Prop :=
  ∀ before after, unpackKind kind (before ++ c ++ after) before.length =
    some (v, before.length + c.length)

/-- The block `c` holds an element. -/
def ReadsElement (schema : PackedSchema) (c : List UInt8) (v : Value) : Prop :=
  ∀ before after, unpackElement schema (before ++ c ++ after) before.length =
    some (v, before.length + c.length)

/-- The block `c` holds the values of a list of kinds. -/
def ReadsFields (kinds : List PackedKind) (c : List UInt8) (vs : List Value) : Prop :=
  ∀ before after, unpackFields kinds (before ++ c ++ after) before.length =
    some (vs, before.length + c.length)

/-- What a block of the width of a primitive kind holds. -/
def primitiveOf (kind : PackedKind) (c : List UInt8) : Value :=
  match kind with
  | .int => .int (.ofNat 64 (readLoop c 8))
  | .float => .ofFloat (.ofNat 64 (readLoop c 8))
  | .f64 => .ofFloat (.ofNat 64 (readLoop c 8))
  | .f32 => .f32 (.ofNat 32 (readLoop c 4))
  | .intN bits signed => .int (.ofNat 64 (extend (readLoop c (bits / 8)) bits signed))
  | .bool => .bool (c.getD 0 0 != 0)
  | .struct _ => .other 0

theorem decodePrimitive_block (kind : PackedKind) (hkind : kind.Primitive) (c : List UInt8)
    (hc : c.length = kind.byteWidth) (before after : List UInt8) :
    decodePrimitive kind (before ++ c ++ after) before.length = some (primitiveOf kind c) := by
  have hslice : ∀ n, c.length = n →
      slice? (before ++ c ++ after) before.length (before.length + n) = some c := by
    intro n hn
    exact slice?_block before c after _ _ rfl (by rw [hn])
  cases kind with
  | struct inner => exact hkind.elim
  | int => rw [decodePrimitive, hslice 8 hc]; rfl
  | float => rw [decodePrimitive, hslice 8 hc]; rfl
  | f64 => rw [decodePrimitive, hslice 8 hc]; rfl
  | f32 => rw [decodePrimitive, hslice 4 hc]; rfl
  | intN bits signed => rw [decodePrimitive, hslice (bits / 8) hc]; rfl
  | bool => rw [decodePrimitive, hslice 1 hc]; rfl

theorem unpackKind_primitive (kind : PackedKind) (hkind : kind.Primitive) (bytes : List UInt8)
    (offset : Nat) :
    unpackKind kind bytes offset =
      (decodePrimitive kind bytes offset).map fun v => (v, offset + kind.byteWidth) := by
  cases kind with
  | struct inner => exact hkind.elim
  | _ => simp only [unpackKind]

theorem decodePackedField_eq (kind : PackedKind) (bytes : List UInt8) (offset : Nat) :
    decodePackedField kind bytes offset = (unpackKind kind bytes offset).map Prod.fst := by
  cases kind with
  | struct inner => simp only [decodePackedField, unpackKind]
  | _ => simp [decodePackedField, unpackKind, Function.comp_def]

theorem reads_primitive (kind : PackedKind) (hkind : kind.Primitive) (c : List UInt8)
    (hc : c.length = kind.byteWidth) : Reads kind c (primitiveOf kind c) := by
  intro before after
  rw [unpackKind_primitive kind hkind, decodePrimitive_block kind hkind c hc, ← hc]
  rfl

theorem ReadsFields.nil : ReadsFields [] [] [] := by
  intro before after
  simp [unpackFields]

theorem ReadsFields.cons {kind : PackedKind} {kinds : List PackedKind} {c cs : List UInt8}
    {v : Value} {vs : List Value} (h : Reads kind c v) (hs : ReadsFields kinds cs vs) :
    ReadsFields (kind :: kinds) (c ++ cs) (v :: vs) := by
  intro before after
  have hhead : unpackKind kind (before ++ (c ++ cs) ++ after) before.length =
      some (v, before.length + c.length) := by
    have := h before (cs ++ after)
    simpa [List.append_assoc] using this
  have htail : unpackFields kinds (before ++ (c ++ cs) ++ after) (before.length + c.length) =
      some (vs, before.length + (c ++ cs).length) := by
    have := hs (before ++ c) after
    simpa [List.append_assoc, Nat.add_assoc] using this
  simp only [unpackFields, hhead, htail, Option.map_some]

theorem ReadsElement.of_fields {shape : Shape} {fields : List PackedKind} {byteSize : Nat}
    {column : Bool} {c : List UInt8} {vs : List Value} (h : ReadsFields fields c vs) :
    ReadsElement (.mk (some shape) fields byteSize column) c (.object shape vs) := by
  intro before after
  simp only [unpackElement, h before after, Option.map_some]

theorem ReadsElement.of_scalar {kind : PackedKind} {byteSize : Nat} {column : Bool}
    {c : List UInt8} {v : Value} (h : Reads kind c v) (hc : c.length = kind.byteWidth) :
    ReadsElement (.mk none [kind] byteSize column) c v := by
  intro before after
  simp only [unpackElement, decodePackedField_eq, h before after, Option.map_some, hc]

theorem reads_struct {inner : PackedSchema} {c : List UInt8} {v : Value} :
    Reads (.struct inner) c v ↔ ReadsElement inner c v := by
  simp only [Reads, ReadsElement, unpackKind]

mutual

theorem readsElement_total : ∀ (schema : PackedSchema), schema.Wf → ∀ c : List UInt8,
    c.length = schema.byteSize → ∃ v, ReadsElement schema c v
  | .mk none fields byteSize column, hwf, c, hc => by
    rw [PackedSchema.Wf] at hwf
    obtain ⟨⟨kind, rfl, hkind, rfl⟩, -⟩ := hwf
    exact ⟨_, .of_scalar (reads_primitive kind hkind c hc) hc⟩
  | .mk (some shape) fields byteSize column, hwf, c, hc => by
    rw [PackedSchema.Wf] at hwf
    obtain ⟨-, rfl, hkinds⟩ := hwf
    obtain ⟨vs, hvs⟩ := readsFields_total fields hkinds c hc
    exact ⟨_, .of_fields hvs⟩

theorem readsFields_total : ∀ (kinds : List PackedKind), KindsWf kinds → ∀ c : List UInt8,
    c.length = (kinds.map PackedKind.byteWidth).sum → ∃ vs, ReadsFields kinds c vs
  | [], _, c, hc => by
    obtain rfl : c = [] := List.length_eq_zero_iff.1 (by simpa using hc)
    exact ⟨[], .nil⟩
  | kind :: kinds, hwf, c, hc => by
    rw [KindsWf] at hwf
    rw [List.map_cons, List.sum_cons] at hc
    obtain ⟨v, hv⟩ := reads_total kind hwf.1 (c.take kind.byteWidth) (by
      rw [List.length_take]
      omega)
    obtain ⟨vs, hvs⟩ := readsFields_total kinds hwf.2 (c.drop kind.byteWidth) (by
      rw [List.length_drop]
      omega)
    refine ⟨v :: vs, ?_⟩
    rw [← List.take_append_drop kind.byteWidth c]
    exact ReadsFields.cons hv hvs

theorem reads_total : ∀ (kind : PackedKind), kind.Wf → ∀ c : List UInt8,
    c.length = kind.byteWidth → ∃ v, Reads kind c v
  | .struct inner, hwf, c, hc => by
    rw [PackedKind.Wf] at hwf
    obtain ⟨v, hv⟩ := readsElement_total inner hwf c hc
    exact ⟨v, reads_struct.2 hv⟩
  | .int, _, c, hc => ⟨_, reads_primitive .int trivial c hc⟩
  | .float, _, c, hc => ⟨_, reads_primitive .float trivial c hc⟩
  | .f32, _, c, hc => ⟨_, reads_primitive .f32 trivial c hc⟩
  | .f64, _, c, hc => ⟨_, reads_primitive .f64 trivial c hc⟩
  | .intN bits signed, _, c, hc => ⟨_, reads_primitive (.intN bits signed) trivial c hc⟩
  | .bool, _, c, hc => ⟨_, reads_primitive .bool trivial c hc⟩

end

/-! ### What is packed reads back -/

/-- A value of a primitive kind packs into a block of the kind's width that holds it. -/
theorem packPrimitive_reads (kind : PackedKind) (hwf : kind.Wf) (v : Value)
    (hv : HasPrimitive kind v) :
    ∃ c, packPrimitive kind v = some c ∧ c.length = kind.byteWidth ∧ kind.Primitive ∧
      primitiveOf kind c = v := by
  cases kind <;> cases v <;> simp only [HasPrimitive] at hv
  case int.int word =>
    refine ⟨_, rfl, length_leBytes _ _, trivial, ?_⟩
    simp [primitiveOf, readLoop_full _ 8 word.isLt]
  case float.float bits =>
    refine ⟨_, rfl, length_leBytes _ _, trivial, ?_⟩
    simpa [primitiveOf, readLoop_full _ 8 bits.isLt] using hv
  case f32.f32 bits =>
    refine ⟨_, rfl, length_leBytes _ _, trivial, ?_⟩
    simp [primitiveOf, readLoop_full _ 4 bits.isLt]
  case f64.float bits =>
    refine ⟨_, rfl, length_leBytes _ _, trivial, ?_⟩
    simpa [primitiveOf, readLoop_full _ 8 bits.isLt] using hv
  case intN.int bits signed word =>
    refine ⟨_, rfl, length_leBytes _ _, trivial, ?_⟩
    rw [PackedKind.Wf] at hwf
    have hwidth : 8 * (bits / 8) = bits := by omega
    have hread := readLoop_leBytes word.toNat (bits / 8) (bits / 8) (Nat.le_refl _)
    rw [hwidth] at hread
    have hextend : extend (word.toNat % 2 ^ bits) bits signed = word.toNat := by
      cases signed with
      | true => exact extend_signed word bits hwf hv.1 hv.2
      | false => rw [extend_unsigned, Nat.mod_eq_of_lt hv]
    simp [primitiveOf, hread, hextend]
  case bool.bool b =>
    refine ⟨_, rfl, rfl, trivial, ?_⟩
    cases b <;> rfl

theorem packKind_primitive (kind : PackedKind) (hkind : kind.Primitive) (v : Value) :
    packKind kind v = packPrimitive kind v := by
  cases kind with
  | struct inner => exact hkind.elim
  | _ => simp only [packKind]

theorem packKind_reads_primitive (kind : PackedKind) (hwf : kind.Wf) (v : Value)
    (hv : HasPrimitive kind v) :
    ∃ c, packKind kind v = some c ∧ c.length = kind.byteWidth ∧ Reads kind c v := by
  obtain ⟨c, hc, hlen, hkind, rfl⟩ := packPrimitive_reads kind hwf v hv
  exact ⟨c, by rw [packKind_primitive kind hkind, hc], hlen, reads_primitive kind hkind c hlen⟩

theorem HaveTypes.length_eq : ∀ {kinds : List PackedKind} {vs : List Value},
    HaveTypes kinds vs → vs.length = kinds.length
  | [], [], _ => rfl
  | _ :: kinds, _ :: vs, h => by
    rw [HaveTypes] at h
    rw [List.length_cons, List.length_cons, h.2.length_eq]

mutual

theorem packElement_reads : ∀ (schema : PackedSchema), schema.Wf → ∀ v : Value, HasType schema v →
    ∃ c, packElement schema v = some c ∧ c.length = schema.byteSize ∧ ReadsElement schema c v
  | .mk none fields byteSize column, hwf, v, hv => by
    rw [PackedSchema.Wf, KindsWf.eq_def] at hwf
    rw [HasType] at hv
    obtain ⟨⟨kind, rfl, -, rfl⟩, hkind, -⟩ := hwf
    obtain ⟨kind', hfields, hprim⟩ := hv
    obtain rfl : kind = kind' := by simpa using hfields
    obtain ⟨c, hc, hlen, hprimitive, rfl⟩ := packPrimitive_reads kind hkind v hprim
    refine ⟨c, by rw [packElement, hc], hlen, ?_⟩
    exact .of_scalar (reads_primitive kind hprimitive c hlen) hlen
  | .mk (some shape) fields byteSize column, hwf, v, hv => by
    rw [PackedSchema.Wf] at hwf
    obtain ⟨-, rfl, hkinds⟩ := hwf
    cases v with
    | object s slots =>
      rw [HasType] at hv
      obtain ⟨rfl, htypes⟩ := hv
      obtain ⟨c, hc, hlen, hreads⟩ := packFields_reads fields hkinds slots htypes
      refine ⟨c, ?_, hlen, .of_fields hreads⟩
      rw [packElement, if_pos htypes.length_eq, hc]
    | _ => simp [HasType] at hv

theorem packFields_reads : ∀ (kinds : List PackedKind), KindsWf kinds → ∀ vs : List Value,
    HaveTypes kinds vs → ∃ c, packFields kinds vs = some c ∧
      c.length = (kinds.map PackedKind.byteWidth).sum ∧ ReadsFields kinds c vs
  | [], _, vs, hvs => by
    cases vs with
    | nil => exact ⟨[], by simp [packFields], rfl, .nil⟩
    | cons v vs => simp [HaveTypes] at hvs
  | kind :: kinds, hwf, vs, hvs => by
    cases vs with
    | nil => simp [HaveTypes] at hvs
    | cons v vs =>
      rw [KindsWf] at hwf
      rw [HaveTypes] at hvs
      obtain ⟨c, hc, hlen, hreads⟩ := packKind_reads kind hwf.1 v hvs.1
      obtain ⟨cs, hcs, hlens, hreadss⟩ := packFields_reads kinds hwf.2 vs hvs.2
      refine ⟨c ++ cs, by rw [packFields, hc, hcs], ?_, ReadsFields.cons hreads hreadss⟩
      rw [List.length_append, hlen, hlens, List.map_cons, List.sum_cons]

theorem packKind_reads : ∀ (kind : PackedKind), kind.Wf → ∀ v : Value, HasKind kind v →
    ∃ c, packKind kind v = some c ∧ c.length = kind.byteWidth ∧ Reads kind c v
  | .struct inner, hwf, v, hv => by
    rw [PackedKind.Wf] at hwf
    rw [HasKind] at hv
    obtain ⟨c, hc, hlen, hreads⟩ := packElement_reads inner hwf v hv
    exact ⟨c, by rw [packKind, hc], hlen, reads_struct.2 hreads⟩
  | .int, hwf, v, hv => packKind_reads_primitive .int hwf v (by simpa only [HasKind] using hv)
  | .float, hwf, v, hv => packKind_reads_primitive .float hwf v (by simpa only [HasKind] using hv)
  | .f32, hwf, v, hv => packKind_reads_primitive .f32 hwf v (by simpa only [HasKind] using hv)
  | .f64, hwf, v, hv => packKind_reads_primitive .f64 hwf v (by simpa only [HasKind] using hv)
  | .intN bits signed, hwf, v, hv =>
    packKind_reads_primitive (.intN bits signed) hwf v (by simpa only [HasKind] using hv)
  | .bool, hwf, v, hv => packKind_reads_primitive .bool hwf v (by simpa only [HasKind] using hv)

end

/-! ### One field of an element -/

theorem ReadsFields.slot : ∀ {kinds : List PackedKind} {c : List UInt8} {vs : List Value},
    KindsWf kinds → ReadsFields kinds c vs → c.length = (kinds.map PackedKind.byteWidth).sum →
    ∀ (slot : Nat) (kind : PackedKind), kinds[slot]? = some kind →
      ∃ v, vs[slot]? = some v ∧
        Reads kind ((c.drop ((kinds.take slot).map PackedKind.byteWidth).sum).take kind.byteWidth) v
  | [], _, _, _, _, _, slot, kind, hslot => by simp at hslot
  | kind :: kinds, c, vs, hwf, hreads, hlen, slot, kind', hslot => by
    rw [KindsWf] at hwf
    rw [List.map_cons, List.sum_cons] at hlen
    obtain ⟨v, hv⟩ := reads_total kind hwf.1 (c.take kind.byteWidth) (by
      rw [List.length_take]
      omega)
    obtain ⟨ws, hws⟩ := readsFields_total kinds hwf.2 (c.drop kind.byteWidth) (by
      rw [List.length_drop]
      omega)
    have hboth := (hreads [] []).symm.trans
      ((List.take_append_drop kind.byteWidth c ▸ ReadsFields.cons hv hws) [] [])
    obtain rfl : vs = v :: ws := by
      simpa using hboth
    cases slot with
    | zero =>
      obtain rfl : kind = kind' := by simpa using hslot
      exact ⟨v, rfl, by simpa using hv⟩
    | succ slot =>
      obtain ⟨u, hu, hread⟩ := ReadsFields.slot hwf.2 hws (by rw [List.length_drop]; omega) slot
        kind' (by simpa using hslot)
      refine ⟨u, by simpa using hu, ?_⟩
      rw [List.take_succ_cons, List.map_cons, List.sum_cons, ← List.drop_drop]
      exact hread

end Noeta.Packed
