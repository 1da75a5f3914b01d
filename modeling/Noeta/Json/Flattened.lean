import Noeta.Json.Unsigned

/-!
# The payload of an option

What `Reads` comes to under the hint of the type itself. Every part is reached by its own hint, with
two exceptions: a packed map key is text already, and an enum case inside an `Option` is reached by
the hint of the `Option`, which knows of no case but `some`. There only integers that an `i64` holds
too are written right.
-/

namespace Noeta.Json

open RenderHint (slotAt variantAt sparse)

variable {fl : FloatFormat}

/-! ### Conditions on the value -/

/-- Whether a value marshals as an enum case. -/
def Ty.isCase : (ty : Ty) → ty.Value fl → Bool
  | .enum _ _, _ => true
  | .result _ _, _ => true
  | .option inner, x =>
    match x with
    | none => false
    | some x => inner.isCase x
  | _, _ => false

def KeyTy.Small : (k : KeyTy) → List k.Value → Prop
  | .u64, keys => ∀ w ∈ keys, 0 ≤ BitVec.toInt w
  | .packed ty, keys => ∀ v ∈ keys, ty.Small v
  | _, _ => True

def KeyTy.Sound : (k : KeyTy) → List k.Value → Prop
  | .packed ty, keys => ∀ v ∈ keys, ty.Small v
  | _, _ => True

mutual

/-- No `u64` under the value is `2 ^ 63` or more. -/
def Ty.Small : (ty : Ty) → ty.Value fl → Prop
  | .u64, w => 0 ≤ BitVec.toInt w
  | .list elem, xs => AllAt (fun _ x => elem.Small x) xs
  | .set elem, xs => AllAt (fun _ x => elem.Small x) xs
  | .map key value, m => key.Small (m.1.map Prod.fst) ∧ AllAt (fun _ e => value.Small e.2) m.1
  | .tuple elems, xs => elems.Small xs
  | .record fields, xs => fields.Small xs
  | .enum _ cases, x => cases.Small x
  | .result ok err, x =>
    match x with
    | .inl x => ok.Small x
    | .inr x => err.Small x
  | .option inner, x =>
    match x with
    | none => True
    | some x => inner.Small x
  | _, _ => True

def Tys.Small : (tys : Tys) → tys.Value fl → Prop
  | .nil, _ => True
  | .cons ty rest, xs => ty.Small xs.1 ∧ rest.Small xs.2

def Fields.Small : (fields : Fields) → fields.Value fl → Prop
  | .nil, _ => True
  | .cons _ ty rest, xs => ty.Small xs.1 ∧ rest.Small xs.2

def Cases.Small : (cases : Cases) → cases.Value fl → Prop
  | .nil, _ => True
  | .cons _ payload rest, x =>
    match x with
    | .inl x => payload.Small x
    | .inr x => rest.Small x

end

mutual

/-- No packed key, and no enum case that is the payload of an `Option`, has a `u64` of `2 ^ 63` or
more in it. -/
def Ty.Sound : (ty : Ty) → ty.Value fl → Prop
  | .list elem, xs => AllAt (fun _ x => elem.Sound x) xs
  | .set elem, xs => AllAt (fun _ x => elem.Sound x) xs
  | .map key value, m => key.Sound (m.1.map Prod.fst) ∧ AllAt (fun _ e => value.Sound e.2) m.1
  | .tuple elems, xs => elems.Sound xs
  | .record fields, xs => fields.Sound xs
  | .enum _ cases, x => cases.Sound x
  | .result ok err, x =>
    match x with
    | .inl x => ok.Sound x
    | .inr x => err.Sound x
  | .option inner, x =>
    match x with
    | none => True
    | some x => if inner.isCase x then inner.Small x else inner.Sound x
  | _, _ => True

def Tys.Sound : (tys : Tys) → tys.Value fl → Prop
  | .nil, _ => True
  | .cons ty rest, xs => ty.Sound xs.1 ∧ rest.Sound xs.2

def Fields.Sound : (fields : Fields) → fields.Value fl → Prop
  | .nil, _ => True
  | .cons _ ty rest, xs => ty.Sound xs.1 ∧ rest.Sound xs.2

def Cases.Sound : (cases : Cases) → cases.Value fl → Prop
  | .nil, _ => True
  | .cons _ payload rest, x =>
    match x with
    | .inl x => payload.Sound x
    | .inr x => rest.Sound x

end

def Cases.names : Cases → List (List Char)
  | .nil => []
  | .cons name _ rest => name :: rest.names

mutual

/-- The cases of an enum have names of their own, and none is called as the `Option`'s is. -/
def Ty.Ordinary : Ty → Prop
  | .list elem => elem.Ordinary
  | .set elem => elem.Ordinary
  | .map _ value => value.Ordinary
  | .tuple elems => elems.Ordinary
  | .record fields => fields.Ordinary
  | .enum _ cases => cases.names.Nodup ∧ "some".toList ∉ cases.names ∧ cases.Ordinary
  | .result ok err => ok.Ordinary ∧ err.Ordinary
  | .option inner => inner.Ordinary
  | _ => True

def Tys.Ordinary : Tys → Prop
  | .nil => True
  | .cons ty rest => ty.Ordinary ∧ rest.Ordinary

def Fields.Ordinary : Fields → Prop
  | .nil => True
  | .cons _ ty rest => ty.Ordinary ∧ rest.Ordinary

def Cases.Ordinary : Cases → Prop
  | .nil => True
  | .cons _ payload rest => payload.Ordinary ∧ rest.Ordinary

end

/-! ### Without a hint -/

theorem KeyTy.reads_none (k : KeyTy) (keys : List k.Value) : k.Reads none keys ↔ k.Small keys := by
  cases k with
  | str => exact iff_of_true (fun h => absurd h (by simp [isUnsigned])) trivial
  | int => exact iff_of_true (fun h => absurd h (by simp [isUnsigned])) trivial
  | u64 => exact ⟨fun h => h rfl, fun h _ => h⟩
  | packed ty => exact Iff.rfl

mutual

theorem Ty.reads_none : ∀ (ty : Ty) (v : ty.Value fl), ty.Reads none v ↔ ty.Small v
  | .u64, w => ⟨fun h => h rfl, fun h _ => h⟩
  | .int, w => iff_of_true (fun h => absurd h (by simp [settled, isUnsigned])) trivial
  | .bool, _ => Iff.rfl
  | .float, _ => Iff.rfl
  | .f32, _ => Iff.rfl
  | .str, _ => Iff.rfl
  | .bytes, _ => Iff.rfl
  | .unit, _ => Iff.rfl
  | .externValue, _ => Iff.rfl
  | .list elem, xs => allAt_congr fun i x _ => elem.reads_none x
  | .set elem, xs => allAt_congr fun i x _ => elem.reads_none x
  | .map key value, m =>
    and_congr (key.reads_none _) (allAt_congr fun i e _ => value.reads_none e.2)
  | .tuple elems, xs => elems.reads_none (fun _ => rfl) 0 xs
  | .record fields, xs => fields.reads_none (fun _ => rfl) 0 xs
  | .enum _ cases, x => cases.reads_none (fun _ _ _ => rfl) x
  | .result ok err, .inl x => ok.reads_none x
  | .result ok err, .inr x => err.reads_none x
  | .option inner, none => Iff.rfl
  | .option inner, some x => inner.reads_none x

theorem Tys.reads_none {hints : Nat → Option RenderHint} (h : ∀ i, hints i = none) :
    ∀ (tys : Tys) (i : Nat) (xs : tys.Value fl), tys.Reads hints i xs ↔ tys.Small xs
  | .nil, _, _ => Iff.rfl
  | .cons ty rest, i, xs => by
    rw [Tys.Reads, Tys.Small, h i]
    exact and_congr (ty.reads_none xs.1) (Tys.reads_none h rest (i + 1) xs.2)

theorem Fields.reads_none {hints : Nat → Option RenderHint} (h : ∀ i, hints i = none) :
    ∀ (fields : Fields) (i : Nat) (xs : fields.Value fl), fields.Reads hints i xs ↔ fields.Small xs
  | .nil, _, _ => Iff.rfl
  | .cons _ ty rest, i, xs => by
    rw [Fields.Reads, Fields.Small, h i]
    exact and_congr (ty.reads_none xs.1) (Fields.reads_none h rest (i + 1) xs.2)

theorem Cases.reads_none {hint : Option RenderHint} : ∀ (cases : Cases)
    (_ : ∀ name ∈ cases.names, ∀ i, payloadHint hint name i = none) (x : cases.Value fl),
    cases.Reads hint x ↔ cases.Small x
  | .nil, _, x => nomatch x
  | .cons name payload _, h, .inl x =>
    payload.reads_none (h name List.mem_cons_self) 0 x
  | .cons _ _ rest, h, .inr x =>
    Cases.reads_none rest (fun n hn => h n (List.mem_cons_of_mem _ hn)) x

end

/-! ### Under the hint of the type -/

/-- The slots that have a hint are found under their numbers. -/
theorem slotAt_sparse (hints : List (Option RenderHint)) (index : Nat) :
    slotAt (sparse hints) index = hints[index]?.join := by
  have hfrom : ∀ (hints : List (Option RenderHint)) (start index : Nat),
      slotAt ((hints.zipIdx start).filterMap fun h => h.1.map (h.2, ·)) (start + index) =
        hints[index]?.join ∧
      ∀ i < start, slotAt ((hints.zipIdx start).filterMap fun h => h.1.map (h.2, ·)) i = none := by
    intro hints
    induction hints with
    | nil => exact fun start index => ⟨rfl, fun i _ => rfl⟩
    | cons hint hints ih =>
      intro start index
      have hbelow := (ih (start + 1) 0).2
      have hlater : ∀ j, slotAt ((hints.zipIdx (start + 1)).filterMap fun h => h.1.map (h.2, ·))
          (start + (j + 1)) = hints[j]?.join := by
        intro j
        have hj := (ih (start + 1) j).1
        rwa [show start + 1 + j = start + (j + 1) by omega] at hj
      cases hint with
      | none =>
        rw [List.zipIdx_cons, List.filterMap_cons_none (by rfl)]
        refine ⟨?_, fun i hi => hbelow i (by omega)⟩
        cases index with
        | zero => simpa using hbelow start (by omega)
        | succ j => exact hlater j
      | some hint =>
        rw [List.zipIdx_cons, List.filterMap_cons_some (by rfl)]
        refine ⟨?_, fun i hi => ?_⟩
        · rw [slotAt]
          cases index with
          | zero => simp
          | succ j =>
            rw [if_neg (by omega)]
            exact hlater j
        · rw [slotAt, if_neg (by omega)]
          exact hbelow i (by omega)
  have hzero := (hfrom hints 0 index).1
  rwa [Nat.zero_add] at hzero

theorem itemHint_ofSlots (hints : List (Option RenderHint)) (i : Nat) :
    itemHint (settled (RenderHint.ofSlots hints)) i = hints[i]?.join := by
  rw [← slotAt_sparse, RenderHint.ofSlots]
  cases hs : sparse hints with
  | nil => rfl
  | cons h hs => rfl

theorem fieldHint_ofSlots (hints : List (Option RenderHint)) (i : Nat) :
    fieldHint (settled (RenderHint.ofSlots hints)) i = hints[i]?.join := by
  rw [← slotAt_sparse, RenderHint.ofSlots]
  cases hs : sparse hints with
  | nil => rfl
  | cons h hs => rfl

theorem itemHint_elements (inner : Option RenderHint) (i : Nat) :
    itemHint (settled (inner.map .elements)) i = inner := by
  cases inner <;> rfl

theorem keyHint_map (key : KeyTy) (value : Ty) :
    keyHint (settled (Ty.map key value).hint) = key.hint := by
  rw [Ty.hint]
  cases key.hint <;> cases value.hint <;> rfl

theorem fieldHint_map (key : KeyTy) (value : Ty) (i : Nat) :
    fieldHint (settled (Ty.map key value).hint) i = value.hint := by
  rw [Ty.hint]
  cases key.hint <;> cases value.hint <;> rfl

theorem variantAt_eq_nil {vs : List (List Char × List (Nat × RenderHint))} {name : List Char}
    (h : name ∉ vs.map Prod.fst) : variantAt vs name = [] := by
  induction vs with
  | nil => rfl
  | cons v vs ih =>
    obtain ⟨variant, hs⟩ := v
    rw [List.map_cons, List.mem_cons, not_or] at h
    rw [variantAt, if_neg (Ne.symm h.1)]
    exact ih h.2

theorem variantAt_filter {vs : List (List Char × List (Nat × RenderHint))}
    (hnodup : (vs.map Prod.fst).Nodup) {v : List Char × List (Nat × RenderHint)} (hv : v ∈ vs) :
    variantAt (vs.filter fun v => !v.2.isEmpty) v.1 = v.2 := by
  induction vs with
  | nil => exact absurd hv List.not_mem_nil
  | cons w vs ih =>
    obtain ⟨name, hs⟩ := w
    rw [List.map_cons, List.nodup_cons] at hnodup
    obtain rfl | htail := List.mem_cons.1 hv
    · cases hempty : hs.isEmpty with
      | true =>
        rw [List.filter_cons_of_neg (by simp [hempty]), List.isEmpty_iff.1 hempty]
        refine variantAt_eq_nil (fun h => hnodup.1 ?_)
        obtain ⟨w, hw, heq⟩ := List.mem_map.1 h
        exact List.mem_map.2 ⟨w, (List.mem_filter.1 hw).1, heq⟩
      | false => rw [List.filter_cons_of_pos (by simp [hempty]), variantAt, if_pos rfl]
    · have hne : name ≠ v.1 := by
        intro h
        exact hnodup.1 (List.mem_map.2 ⟨v, htail, h.symm⟩)
      cases hempty : hs.isEmpty with
      | true =>
        rw [List.filter_cons_of_neg (by simp [hempty])]
        exact ih hnodup.2 htail
      | false =>
        rw [List.filter_cons_of_pos (by simp [hempty]), variantAt, if_neg hne]
        exact ih hnodup.2 htail

theorem payloadHint_ofVariants {variants : List (List Char × List (Nat × RenderHint))}
    (hnodup : (variants.map Prod.fst).Nodup) {v : List Char × List (Nat × RenderHint)}
    (hv : v ∈ variants) (i : Nat) :
    payloadHint (ofVariants variants) v.1 i = slotAt v.2 i := by
  rw [payloadHint, ← variantAt_filter hnodup hv, ofVariants]
  cases hvs : variants.filter fun v => !v.2.isEmpty with
  | nil => rfl
  | cons w ws => rfl

theorem settled_option (inner : Ty) : settled (Ty.option inner).hint = settled inner.hint := by
  rw [Ty.hint]
  cases inner.hint <;> rfl

theorem payloadHint_option (inner : Ty) {variant : List Char} (h : "some".toList ≠ variant)
    (i : Nat) : payloadHint (Ty.option inner).hint variant i = none := by
  rw [Ty.hint]
  cases inner.hint with
  | none => rfl
  | some hint =>
    rw [Option.map_some, payloadHint, RenderHint.variant, variantAt, if_neg h]
    rfl

theorem Ty.reads_settled {hint hint' : Option RenderHint} (h : settled hint = settled hint') :
    ∀ (ty : Ty) (v : ty.Value fl), ty.isCase v = false → (ty.Reads hint v ↔ ty.Reads hint' v)
  | .u64, w, _ => by rw [Ty.Reads, Ty.Reads, h]
  | .int, w, _ => by rw [Ty.Reads, Ty.Reads, h]
  | .bool, _, _ => Iff.rfl
  | .float, _, _ => Iff.rfl
  | .f32, _, _ => Iff.rfl
  | .str, _, _ => Iff.rfl
  | .bytes, _, _ => Iff.rfl
  | .unit, _, _ => Iff.rfl
  | .externValue, _, _ => Iff.rfl
  | .list elem, xs, _ => by rw [Ty.Reads, Ty.Reads, h]
  | .set elem, xs, _ => by rw [Ty.Reads, Ty.Reads, h]
  | .map key value, m, _ => by rw [Ty.Reads, Ty.Reads, h]
  | .tuple elems, xs, _ => by rw [Ty.Reads, Ty.Reads, h]
  | .record fields, xs, _ => by rw [Ty.Reads, Ty.Reads, h]
  | .enum _ _, _, hcase => by simp [Ty.isCase] at hcase
  | .result _ _, _, hcase => by simp [Ty.isCase] at hcase
  | .option inner, none, _ => Iff.rfl
  | .option inner, some x, hcase => inner.reads_settled h x hcase

theorem Ty.reads_case {hint : Option RenderHint}
    (h : ∀ variant, "some".toList ≠ variant → ∀ i, payloadHint hint variant i = none) :
    ∀ (ty : Ty) (v : ty.Value fl), ty.Ordinary → ty.isCase v = true →
      (ty.Reads hint v ↔ ty.Small v)
  | .enum _ cases, x, hord, _ =>
    cases.reads_none (fun name hname => h name fun heq => hord.2.1 (heq ▸ hname)) x
  | .result ok err, .inl x, _, _ => by
    rw [Ty.Reads, h "Ok".toList (by decide)]
    exact ok.reads_none x
  | .result ok err, .inr x, _, _ => by
    rw [Ty.Reads, h "Err".toList (by decide)]
    exact err.reads_none x
  | .option inner, some x, hord, hcase => inner.reads_case h x hord hcase
  | .option inner, none, _, hcase => by simp [Ty.isCase] at hcase
  | .u64, _, _, hcase => by simp [Ty.isCase] at hcase
  | .int, _, _, hcase => by simp [Ty.isCase] at hcase
  | .bool, _, _, hcase => by simp [Ty.isCase] at hcase
  | .float, _, _, hcase => by simp [Ty.isCase] at hcase
  | .f32, _, _, hcase => by simp [Ty.isCase] at hcase
  | .str, _, _, hcase => by simp [Ty.isCase] at hcase
  | .bytes, _, _, hcase => by simp [Ty.isCase] at hcase
  | .unit, _, _, hcase => by simp [Ty.isCase] at hcase
  | .externValue, _, _, hcase => by simp [Ty.isCase] at hcase
  | .list _, _, _, hcase => by simp [Ty.isCase] at hcase
  | .set _, _, _, hcase => by simp [Ty.isCase] at hcase
  | .map _ _, _, _, hcase => by simp [Ty.isCase] at hcase
  | .tuple _, _, _, hcase => by simp [Ty.isCase] at hcase
  | .record _, _, _, hcase => by simp [Ty.isCase] at hcase

theorem KeyTy.reads_own (k : KeyTy) (keys : List k.Value) :
    k.Reads k.hint keys ↔ k.Sound keys := by
  cases k with
  | str => exact iff_of_true (fun h => absurd h (by simp [KeyTy.hint, isUnsigned])) trivial
  | int => exact iff_of_true (fun h => absurd h (by simp [KeyTy.hint, isUnsigned])) trivial
  | u64 => exact iff_of_true (fun h => absurd h (by simp [KeyTy.hint, isUnsigned])) trivial
  | packed ty => exact Iff.rfl

theorem Cases.hints_fst : ∀ cases : Cases, cases.hints.map Prod.fst = cases.names
  | .nil => rfl
  | .cons name payload rest => by
    rw [Cases.hints, Cases.names, List.map_cons, rest.hints_fst]

mutual

/-- Under its own hint a value is read right exactly when it is `Sound`: by induction on the type,
the hint of each part being the one that reaches it. -/
theorem Ty.reads_own : ∀ (ty : Ty) (v : ty.Value fl), ty.Ordinary →
    (ty.Reads ty.hint v ↔ ty.Sound v)
  | .u64, w, _ => by
    refine iff_of_true (fun h => absurd h ?_) trivial
    simp [Ty.hint, settled, RenderHint.settle, isUnsigned]
  | .int, w, _ => iff_of_true (fun h => absurd h (by simp [Ty.hint, settled, isUnsigned])) trivial
  | .bool, _, _ => Iff.rfl
  | .float, _, _ => Iff.rfl
  | .f32, _, _ => Iff.rfl
  | .str, _, _ => Iff.rfl
  | .bytes, _, _ => Iff.rfl
  | .unit, _, _ => Iff.rfl
  | .externValue, _, _ => Iff.rfl
  | .list elem, xs, hord => allAt_congr fun i x _ => by
    rw [Ty.hint, itemHint_elements]
    exact elem.reads_own x hord
  | .set elem, xs, hord => allAt_congr fun i x _ => by
    rw [Ty.hint, itemHint_elements]
    exact elem.reads_own x hord
  | .map key value, m, hord => by
    rw [Ty.Reads, keyHint_map]
    refine and_congr (key.reads_own _) (allAt_congr fun i e _ => ?_)
    rw [fieldHint_map]
    exact value.reads_own e.2 hord
  | .tuple elems, xs, hord =>
    elems.reads_own (fun i => by rw [Nat.zero_add]; exact itemHint_ofSlots _ i) xs hord
  | .record fields, xs, hord =>
    fields.reads_own (fun i => by rw [Nat.zero_add]; exact fieldHint_ofSlots _ i) xs hord
  | .enum name cases, x, hord => by
    refine cases.reads_own (fun v hv i => ?_) x hord.2.2
    refine payloadHint_ofVariants ?_ hv i
    rw [cases.hints_fst]
    exact hord.1
  | .result ok err, .inl x, hord => by
    have hslot : payloadHint (Ty.result ok err).hint "Ok".toList 0 = ok.hint := by
      refine (payloadHint_ofVariants (by simp) List.mem_cons_self 0).trans ?_
      rw [slotAt_sparse]
      rfl
    rw [Ty.Reads, hslot]
    exact ok.reads_own x hord.1
  | .result ok err, .inr x, hord => by
    have hslot : payloadHint (Ty.result ok err).hint "Err".toList 0 = err.hint := by
      refine (payloadHint_ofVariants (by simp)
        (List.mem_cons_of_mem _ List.mem_cons_self) 0).trans ?_
      rw [slotAt_sparse]
      rfl
    rw [Ty.Reads, hslot]
    exact err.reads_own x hord.2
  | .option inner, none, _ => Iff.rfl
  | .option inner, some x, hord => by
    rw [Ty.Reads, Ty.Sound]
    cases hcase : inner.isCase x with
    | true =>
      rw [if_pos rfl]
      exact inner.reads_case (fun variant h i => payloadHint_option inner h i) x hord hcase
    | false =>
      rw [if_neg (by simp), inner.reads_settled (settled_option inner) x hcase]
      exact inner.reads_own x hord

theorem Tys.reads_own {hints : Nat → Option RenderHint} : ∀ {i : Nat} (tys : Tys)
    (_ : ∀ j, hints (i + j) = tys.hints[j]?.join) (xs : tys.Value fl), tys.Ordinary →
    (tys.Reads hints i xs ↔ tys.Sound xs)
  | _, .nil, _, _, _ => Iff.rfl
  | i, .cons ty rest, h, xs, hord => by
    have hfirst : hints i = ty.hint := h 0
    rw [Tys.Reads, hfirst]
    refine and_congr (ty.reads_own xs.1 hord.1) (rest.reads_own (fun j => ?_) xs.2 hord.2)
    rw [Nat.add_assoc, Nat.add_comm 1]
    exact h (j + 1)

theorem Fields.reads_own {hints : Nat → Option RenderHint} : ∀ {i : Nat} (fields : Fields)
    (_ : ∀ j, hints (i + j) = fields.hints[j]?.join) (xs : fields.Value fl), fields.Ordinary →
    (fields.Reads hints i xs ↔ fields.Sound xs)
  | _, .nil, _, _, _ => Iff.rfl
  | i, .cons name ty rest, h, xs, hord => by
    have hfirst : hints i = ty.hint := h 0
    rw [Fields.Reads, hfirst]
    refine and_congr (ty.reads_own xs.1 hord.1) (rest.reads_own (fun j => ?_) xs.2 hord.2)
    rw [Nat.add_assoc, Nat.add_comm 1]
    exact h (j + 1)

theorem Cases.reads_own {hint : Option RenderHint} : ∀ (cases : Cases)
    (_ : ∀ v ∈ cases.hints, ∀ i, payloadHint hint v.1 i = slotAt v.2 i) (x : cases.Value fl),
    cases.Ordinary → (cases.Reads hint x ↔ cases.Sound x)
  | .nil, _, x, _ => nomatch x
  | .cons name payload rest, h, .inl x, hord => by
    refine payload.reads_own (fun j => ?_) x hord.1
    rw [Nat.zero_add, ← slotAt_sparse]
    exact h (name, sparse payload.hints) List.mem_cons_self j
  | .cons name payload rest, h, .inr x, hord =>
    rest.reads_own (fun v hv => h v (List.mem_cons_of_mem _ hv)) x hord.2

end

/-- The text of a marshalled value is the value's own exactly when every reading is right; without a
case that is called `some`, that is when no large `u64` is under a packed key or under an enum case
inside an `Option`. -/
theorem jsonStringify_marshal_iff (names : List Char → Option (List (List Char))) (ty : Ty)
    (v : ty.Value fl) :
    (jsonStringify (ty.marshal names v) ty.hint = stringify (ty.written names v) ↔
        ty.Reads ty.hint v) ∧
      (ty.Ordinary →
        (jsonStringify (ty.marshal names v) ty.hint = stringify (ty.written names v) ↔
          ty.Sound v)) := by
  have hwalk := ty.stringify_iff names ty.hint v
  exact ⟨hwalk, fun hord => hwalk.trans (ty.reads_own v hord)⟩

/-- A format of no floats at all. -/
def noFloats : FloatFormat where
  F64 := Empty
  F32 := Empty
  formatFloat f := nomatch f
  formatF32 f := nomatch f
  formatFloat_bare f := nomatch f
  formatF32_bare f := nomatch f

/-- `some(Ok(2 ^ 63))` as an `Option<Result<u64, string>>`: the case is looked up in the `Option`'s
hint. -/
theorem jsonStringify_marshal_fails :
    jsonStringify (@Ty.marshal noFloats (fun _ => none) (.option (.result .u64 .str))
        (some (.inl (BitVec.ofNat 64 (2 ^ 63)))))
        (Ty.option (.result .u64 .str)).hint =
      "\x7b\"Ok\":[-9223372036854775808]\x7d".toList ∧
    stringify (@Ty.written noFloats (fun _ => none) (.option (.result .u64 .str))
        (some (.inl (BitVec.ofNat 64 (2 ^ 63))))) =
      "\x7b\"Ok\":[9223372036854775808]\x7d".toList ∧
    "\x7b\"Ok\":[-9223372036854775808]\x7d".toList ≠
      "\x7b\"Ok\":[9223372036854775808]\x7d".toList := by
  refine ⟨?_, ?_, by decide⟩
  · decide +kernel
  · decide +kernel

end Noeta.Json
