import Noeta.Packed.List

/-!
# What an accepted element reads back as

`pack_element` accepts a value whose runtime kinds agree with the schema, slot by slot; it compares
neither the shapes of the objects it meets nor the words of the fixed-width integers with their
range. `unpack_element` only ever builds values of the schema's type. So what was accepted is read
back as it was exactly when it was of that type.
-/

namespace Noeta.Packed

/-! ### The pushing caller -/

/-- A list as the interpreter holds it. -/
inductive RuntimeList where
  | packed (l : PackedList)
  | boxed (items : List Value)

/-- `Op::PackedListPush`: the accumulator afterwards. An element that does not pack demotes it. -/
def packedListPush (acc : RuntimeList) (element : Value) : Option RuntimeList :=
  match acc with
  | .packed l =>
    match packedPush l element with
    | none => none
    | some (true, l) => some (.packed l)
    | some (false, l) => (packedItems l).map fun items => .boxed (items ++ [element])
  | .boxed items => some (.boxed (items ++ [element]))

/-- The list is as it was after every method refused the element, and the accumulator of the pushing
caller has the elements the list had, and the new one. -/
structure LeftAsItWas (l : PackedList) (v : Value) : Prop where
  push : packedPush l v = some (false, l)
  setInPlace : ∀ i, packedSetInPlace l i v = some (false, l)
  set : ∀ i, packedSet l i v = some none
  caller : ∀ items, packedItems l = some items →
    packedListPush (.packed l) v = some (.boxed (items ++ [v]))

/-- Packing is exact or refused. -/
structure PacksExactly (schema : PackedSchema) (v : Value) : Prop where
  accepted : ∀ c, packElement schema v = some c → unpackElement schema c 0 = some (v, c.length)
  refused : packElement schema v = none → ∀ l : PackedList, l.schema = schema → LeftAsItWas l v

theorem leftAsItWas_of_refused {schema : PackedSchema} {v : Value}
    (hnone : packElement schema v = none) (l : PackedList) (hl : l.schema = schema) :
    LeftAsItWas l v := by
  subst hl
  have hpush : packedPush l v = some (false, l) := by
    unfold packedPush
    rw [hnone]
  refine ⟨hpush, fun i => ?_, fun i => ?_, fun items hitems => ?_⟩
  · unfold packedSetInPlace
    rw [hnone]
  · unfold packedSet
    rw [hnone]
  · unfold packedListPush
    simp only [hpush, hitems, Option.map_some]

/-! ### What is accepted -/

/-- A value of the runtime kind a primitive kind is stored from. -/
def AgreesPrimitive : PackedKind → Value → Prop
  | .int, .int _ => True
  | .float, .float _ => True
  | .f64, .float _ => True
  | .f32, .f32 _ => True
  | .intN _ _, .int _ => True
  | .bool, .bool _ => True
  | _, _ => False

mutual

/-- The runtime kinds of a value, and the slot counts of the objects in it, are the schema's. -/
def Agrees : PackedSchema → Value → Prop
  | .mk none (kind :: _) _ _, v => AgreesPrimitive kind v
  | .mk none [] _ _, _ => False
  | .mk (some _) fields _ _, .object _ slots =>
    slots.length = fields.length ∧ AgreeFields fields slots
  | .mk (some _) _ _ _, _ => False

def AgreeFields : List PackedKind → List Value → Prop
  | kind :: kinds, v :: vs => AgreesKind kind v ∧ AgreeFields kinds vs
  | _, _ => True

def AgreesKind : PackedKind → Value → Prop
  | .struct inner, v => Agrees inner v
  | kind, v => AgreesPrimitive kind v

end

theorem packPrimitive_isSome (kind : PackedKind) (v : Value) :
    (packPrimitive kind v).isSome = true ↔ AgreesPrimitive kind v := by
  cases kind <;> cases v <;> simp [packPrimitive, AgreesPrimitive]

theorem packKind_isSome_primitive (kind : PackedKind) (hkind : kind.Primitive) (v : Value) :
    (packKind kind v).isSome = true ↔ AgreesKind kind v := by
  rw [packKind_primitive kind hkind, packPrimitive_isSome]
  cases kind with
  | struct inner => exact hkind.elim
  | _ => simp only [AgreesKind]

mutual

theorem packElement_isSome : ∀ (schema : PackedSchema) (v : Value),
    (packElement schema v).isSome = true ↔ Agrees schema v
  | .mk none (kind :: _) _ _, v => by
    rw [packElement, Agrees]
    exact packPrimitive_isSome kind v
  | .mk none [] _ _, v => by simp [packElement, Agrees]
  | .mk (some _) fields _ _, v => by
    cases v with
    | object s slots =>
      rw [packElement, Agrees, ← packFields_isSome fields slots]
      by_cases hlen : slots.length = fields.length
      · simp [hlen]
      · simp [hlen]
    | _ => simp [packElement, Agrees]

theorem packFields_isSome : ∀ (kinds : List PackedKind) (vs : List Value),
    (packFields kinds vs).isSome = true ↔ AgreeFields kinds vs
  | [], vs => by simp [packFields, AgreeFields]
  | kind :: kinds, [] => by simp [packFields, AgreeFields]
  | kind :: kinds, v :: vs => by
    rw [packFields, AgreeFields, ← packKind_isSome kind v, ← packFields_isSome kinds vs]
    cases packKind kind v <;> cases packFields kinds vs <;> simp

theorem packKind_isSome : ∀ (kind : PackedKind) (v : Value),
    (packKind kind v).isSome = true ↔ AgreesKind kind v
  | .struct inner, v => by
    rw [packKind, AgreesKind]
    exact packElement_isSome inner v
  | .int, v => packKind_isSome_primitive .int trivial v
  | .float, v => packKind_isSome_primitive .float trivial v
  | .f32, v => packKind_isSome_primitive .f32 trivial v
  | .f64, v => packKind_isSome_primitive .f64 trivial v
  | .intN bits signed, v => packKind_isSome_primitive (.intN bits signed) trivial v
  | .bool, v => packKind_isSome_primitive .bool trivial v

end

/-! ### What is read -/

theorem extend_signed_range (raw bits : Nat)
    (hbits : bits = 8 ∨ bits = 16 ∨ bits = 32 ∨ bits = 64) (h : raw < 2 ^ bits) :
    -2 ^ (bits - 1) ≤ (BitVec.ofNat 64 (extend raw bits true)).toInt ∧
      (BitVec.ofNat 64 (extend raw bits true)).toInt < 2 ^ (bits - 1) := by
  have hsign := and_sign_ne_zero raw (bits - 1)
    (by rw [show bits - 1 + 1 = bits by omega]; exact h)
  have hor := or_mask raw bits hbits h
  rw [BitVec.toInt_eq_toNat_cond, BitVec.toNat_ofNat]
  unfold extend
  simp only [hsign, true_and]
  obtain rfl | rfl | rfl | rfl := hbits
  all_goals
    rw [hor]
    constructor <;> split <;> split <;> omega

theorem ofFloat_eq (bits : BitVec 64) :
    ∃ stored, Value.ofFloat bits = .float stored ∧ Value.ofFloat stored = .float stored := by
  unfold Value.ofFloat
  by_cases hnan : isNan bits = true
  · refine ⟨canonicalNan, by rw [if_pos hnan], ?_⟩
    rw [ite_self]
  · exact ⟨bits, by rw [if_neg hnan], by rw [if_neg hnan]⟩

/-- A primitive is read as a value of its kind. -/
theorem hasPrimitive_of_decode {kind : PackedKind} (hwf : kind.Wf) {bytes : List UInt8}
    {offset : Nat} {v : Value} (h : decodePrimitive kind bytes offset = some v) :
    HasPrimitive kind v := by
  cases kind with
  | struct inner => simp [decodePrimitive] at h
  | intN bits signed =>
    rw [decodePrimitive] at h
    obtain ⟨b, -, rfl⟩ := Option.map_eq_some_iff.1 h
    rw [PackedKind.Wf] at hwf
    have hread := readLoop_lt b (bits / 8)
    rw [show 8 * (bits / 8) = bits by omega] at hread
    cases signed with
    | true =>
      rw [HasPrimitive]
      exact extend_signed_range _ bits hwf hread
    | false =>
      rw [HasPrimitive, extend_unsigned, BitVec.toNat_ofNat]
      exact Nat.lt_of_le_of_lt (Nat.mod_le _ _) hread
  | float | f64 =>
    rw [decodePrimitive] at h
    obtain ⟨b, -, rfl⟩ := Option.map_eq_some_iff.1 h
    obtain ⟨stored, heq, hstored⟩ := ofFloat_eq (.ofNat 64 (readLoop b 8))
    rw [heq]
    exact hstored
  | _ =>
    rw [decodePrimitive] at h
    obtain ⟨b, -, rfl⟩ := Option.map_eq_some_iff.1 h
    trivial

theorem hasKind_of_unpack_primitive (kind : PackedKind) (hkind : kind.Primitive) (hwf : kind.Wf)
    {bytes : List UInt8} {offset next : Nat} {v : Value}
    (h : unpackKind kind bytes offset = some (v, next)) : HasKind kind v := by
  rw [unpackKind_primitive kind hkind] at h
  obtain ⟨w, hw, heq⟩ := Option.map_eq_some_iff.1 h
  obtain rfl : w = v := congrArg Prod.fst heq
  have hprim := hasPrimitive_of_decode hwf hw
  cases kind with
  | struct inner => exact hkind.elim
  | _ => simpa only [HasKind] using hprim

mutual

theorem hasType_of_unpack : ∀ (schema : PackedSchema), schema.Wf →
    ∀ {bytes : List UInt8} {offset next : Nat} {v : Value},
      unpackElement schema bytes offset = some (v, next) → HasType schema v
  | .mk none fields byteSize column, hwf, bytes, offset, next, v, h => by
    rw [PackedSchema.Wf, KindsWf.eq_def] at hwf
    obtain ⟨⟨kind, rfl, hprimitive, rfl⟩, hkind, -⟩ := hwf
    rw [unpackElement, decodePackedField_eq] at h
    obtain ⟨w, hw, heq⟩ := Option.map_eq_some_iff.1 h
    obtain rfl : w = v := congrArg Prod.fst heq
    rw [unpackKind_primitive kind hprimitive, Option.map_map] at hw
    obtain ⟨u, hu, rfl⟩ := Option.map_eq_some_iff.1 hw
    rw [HasType]
    exact ⟨kind, rfl, hasPrimitive_of_decode hkind hu⟩
  | .mk (some shape) fields byteSize column, hwf, bytes, offset, next, v, h => by
    rw [PackedSchema.Wf] at hwf
    rw [unpackElement] at h
    obtain ⟨r, hr, heq⟩ := Option.map_eq_some_iff.1 h
    obtain rfl : Value.object shape r.1 = v := congrArg Prod.fst heq
    rw [HasType]
    exact ⟨rfl, haveTypes_of_unpack fields hwf.2.2 hr⟩

theorem haveTypes_of_unpack : ∀ (kinds : List PackedKind), KindsWf kinds →
    ∀ {bytes : List UInt8} {offset : Nat} {r : List Value × Nat},
      unpackFields kinds bytes offset = some r → HaveTypes kinds r.1
  | [], _, bytes, offset, r, h => by
    rw [unpackFields] at h
    obtain rfl := Option.some.inj h
    rw [HaveTypes]
    trivial
  | kind :: kinds, hwf, bytes, offset, r, h => by
    rw [KindsWf] at hwf
    rw [unpackFields] at h
    cases hhead : unpackKind kind bytes offset with
    | none => simp [hhead] at h
    | some head =>
      obtain ⟨v, next⟩ := head
      simp only [hhead] at h
      obtain ⟨rest, hrest, rfl⟩ := Option.map_eq_some_iff.1 h
      rw [HaveTypes]
      exact ⟨hasKind_of_unpack kind hwf.1 hhead, haveTypes_of_unpack kinds hwf.2 hrest⟩

theorem hasKind_of_unpack : ∀ (kind : PackedKind), kind.Wf →
    ∀ {bytes : List UInt8} {offset next : Nat} {v : Value},
      unpackKind kind bytes offset = some (v, next) → HasKind kind v
  | .struct inner, hwf, bytes, offset, next, v, h => by
    rw [PackedKind.Wf] at hwf
    rw [unpackKind] at h
    rw [HasKind]
    exact hasType_of_unpack inner hwf h
  | .int, hwf, _, _, _, _, h => hasKind_of_unpack_primitive .int trivial hwf h
  | .float, hwf, _, _, _, _, h => hasKind_of_unpack_primitive .float trivial hwf h
  | .f32, hwf, _, _, _, _, h => hasKind_of_unpack_primitive .f32 trivial hwf h
  | .f64, hwf, _, _, _, _, h => hasKind_of_unpack_primitive .f64 trivial hwf h
  | .intN bits signed, hwf, _, _, _, _, h =>
    hasKind_of_unpack_primitive (.intN bits signed) trivial hwf h
  | .bool, hwf, _, _, _, _, h => hasKind_of_unpack_primitive .bool trivial hwf h

end

/-! ### Exact or refused -/

theorem unpack_of_hasType {schema : PackedSchema} (hwf : schema.Wf) {v : Value}
    (hv : HasType schema v) {c : List UInt8} (hc : packElement schema v = some c) :
    unpackElement schema c 0 = some (v, c.length) := by
  obtain ⟨c', hc', -, hreads⟩ := packElement_reads schema hwf v hv
  obtain rfl : c' = c := Option.some.inj (hc'.symm.trans hc)
  simpa using hreads [] []

/-- A struct of one `i8`. -/
def levelSchema : PackedSchema := .mk (some ⟨"Level", ["level"]⟩) [.intN 8 true] 1 false

theorem levelSchema_wf : levelSchema.Wf := by
  simp [levelSchema, PackedSchema.Wf, KindsWf, PackedKind.Wf, PackedKind.byteWidth]

end Noeta.Packed
