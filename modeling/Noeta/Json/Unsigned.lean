import Noeta.Json.Typed
import Mathlib.Data.List.Perm.Basic

/-!
# Where a hinted text is right

The walk of `json_stringify` reads every integer of a marshalled value signed or, where the hint that
reaches it says so, unsigned. `Reads` says of a type, a value and a hint that each reading is the one
the type asks for, or makes no difference; the text is the value's own exactly then.
-/

namespace Noeta.Json

open RenderHint (slotAt variantAt)

/-! ### The text of a number -/

theorem unsignedDigits_toInt (w : BitVec 64) : unsignedDigits w.toInt = intText w.toNat := by
  have hread : (w.toInt % 2 ^ 64).toNat = w.toNat := by
    have := w.isLt
    rw [BitVec.toInt_eq_toNat_cond]
    split <;> omega
  rw [unsignedDigits, hread, intText_natCast]

theorem toInt_eq_toNat_iff (w : BitVec 64) : w.toInt = (w.toNat : Int) ↔ 0 ≤ w.toInt := by
  have := w.isLt
  rw [BitVec.toInt_eq_toNat_cond]
  split <;> omega

theorem intText_toInt_eq_iff (w : BitVec 64) : intText w.toInt = intText w.toNat ↔ 0 ≤ w.toInt := by
  rw [← toInt_eq_toNat_iff]
  exact ⟨intText_injective, congrArg intText⟩

theorem nonneg_of_intText {w x : BitVec 64} (h : intText w.toInt = intText x.toNat) :
    0 ≤ w.toInt := by
  have := intText_injective h
  omega

theorem parseI64_toInt (w : BitVec 64) : parseI64 (intText w.toInt) = some w.toInt := by
  have hlo := BitVec.le_toInt (x := w)
  have hhi := BitVec.toInt_lt (x := w)
  exact parseI64_intText (by omega) (by omega)

theorem readKey_idem (key : List Char) :
    readKey (readKey key (some .unsigned)) (some .unsigned) = readKey key (some .unsigned) := by
  cases hparse : parseI64 key with
  | none => simp [readKey, hparse]
  | some n =>
    simp only [readKey, hparse, Option.elim_some, unsignedDigits, parseI64_toDigits]
    split
    · rename_i hlt
      simp only [Option.elim_some, unsignedDigits]
      congr 2
      omega
    · rfl

/-! ### Reading right -/

mutual

/-- Every `u64` under a packed key is one that an `i64` holds too. -/
def PackedTy.Small : (ty : PackedTy) → ty.Value → Prop
  | .struct _ fields, v => fields.Small v

def PackedFields.Small : (fields : PackedFields) → fields.Value → Prop
  | .nil, _ => True
  | .int rest, v => rest.Small v.2
  | .u64 rest, v => 0 ≤ BitVec.toInt v.1 ∧ rest.Small v.2
  | .bool rest, v => rest.Small v.2
  | .nested ty rest, v => ty.Small v.1 ∧ rest.Small v.2

end

/-- String keys that a numeric reading leaves as and where they are. -/
def KeysFixed (keys : List (List Char)) : Prop :=
  (∀ key ∈ keys, readKey key (some .unsigned) = key) ∧ keys.mergeSort keyLe = keys

/-- The keys of a map under the hint that reaches them. A packed key's text is never reread. -/
def KeyTy.Reads : (k : KeyTy) → Option RenderHint → List k.Value → Prop
  | .str, hint, keys => isUnsigned hint = true → KeysFixed keys
  | .int, hint, keys => isUnsigned hint = true → ∀ w ∈ keys, 0 ≤ BitVec.toInt w
  | .u64, hint, keys => isUnsigned hint = false → ∀ w ∈ keys, 0 ≤ BitVec.toInt w
  | .packed ty, _, keys => ∀ v ∈ keys, ty.Small v

/-- Every element of a list has what its place asks for. -/
def AllAt {α : Type} (P : Nat → α → Prop) (xs : List α) : Prop := ∀ i x, xs[i]? = some x → P i x

mutual

/-- Every integer under the value is read as its type says by the hint that reaches it, or is the
same number in both readings. The payload of an `Option` is reached by the `Option`'s own hint. -/
def Ty.Reads {fl : FloatFormat} : (ty : Ty) → Option RenderHint → ty.Value fl → Prop
  | .u64, hint, w => isUnsigned (settled hint) = false → 0 ≤ BitVec.toInt w
  | .int, hint, w => isUnsigned (settled hint) = true → 0 ≤ BitVec.toInt w
  | .list elem, hint, xs => AllAt (fun i x => elem.Reads (itemHint (settled hint) i) x) xs
  | .set elem, hint, xs => AllAt (fun i x => elem.Reads (itemHint (settled hint) i) x) xs
  | .map key value, hint, m =>
    key.Reads (keyHint (settled hint)) (m.1.map Prod.fst) ∧
      AllAt (fun i e => value.Reads (fieldHint (settled hint) i) e.2) m.1
  | .tuple elems, hint, xs => elems.Reads (itemHint (settled hint)) 0 xs
  | .record fields, hint, xs => fields.Reads (fieldHint (settled hint)) 0 xs
  | .enum _ cases, hint, x => cases.Reads hint x
  | .result ok err, hint, x =>
    match x with
    | .inl x => ok.Reads (payloadHint hint "Ok".toList 0) x
    | .inr x => err.Reads (payloadHint hint "Err".toList 0) x
  | .option inner, hint, x =>
    match x with
    | none => True
    | some x => inner.Reads hint x
  | _, _, _ => True

def Tys.Reads {fl : FloatFormat} (hints : Nat → Option RenderHint) (i : Nat) :
    (tys : Tys) → tys.Value fl → Prop
  | .nil, _ => True
  | .cons ty rest, xs => ty.Reads (hints i) xs.1 ∧ rest.Reads hints (i + 1) xs.2

def Fields.Reads {fl : FloatFormat} (hints : Nat → Option RenderHint) (i : Nat) :
    (fields : Fields) → fields.Value fl → Prop
  | .nil, _ => True
  | .cons _ ty rest, xs => ty.Reads (hints i) xs.1 ∧ rest.Reads hints (i + 1) xs.2

def Cases.Reads {fl : FloatFormat} (hint : Option RenderHint) :
    (cases : Cases) → cases.Value fl → Prop
  | .nil, _ => True
  | .cons name payload rest, x =>
    match x with
    | .inl x => payload.Reads (payloadHint hint name) 0 x
    | .inr x => rest.Reads hint x

end

/-! ### Keys -/

variable {α β : Type} {l : List α} {hint : Option RenderHint}

theorem mapIdx_eq_map_iff {f : Nat → α → β} {g : α → β} :
    l.mapIdx f = l.map g ↔ AllAt (fun i x => f i x = g x) l := by
  rw [List.mapIdx_eq_iff]
  constructor
  · intro h i x hx
    have hi := h i
    rw [List.getElem?_map, hx, Option.map_some, Option.map_some, Option.some.injEq] at hi
    exact hi.symm
  · intro h i
    rw [List.getElem?_map]
    cases hx : l[i]? with
    | none => rfl
    | some x => rw [Option.map_some, Option.map_some, h i x hx]

theorem eq_of_perm_of_map_fst {l l' : List (α × β)} (hperm : l'.Perm l)
    (hkeys : l'.map Prod.fst = l.map Prod.fst) (hnodup : (l.map Prod.fst).Nodup) : l' = l := by
  refine List.ext_getElem hperm.length_eq ?_
  intro i h h'
  have hfst : l'[i].1 = l[i].1 := by
    have hi := congrArg (fun ks => ks[i]?) hkeys
    simpa [h, h'] using hi
  exact List.inj_on_of_nodup_map hnodup (hperm.mem_iff.1 (List.getElem_mem h))
    (List.getElem_mem h') hfst

theorem readKey_of_not_unsigned (h : isUnsigned hint = false)
    (key : List Char) : readKey key hint = key := by
  unfold readKey
  split
  · simp [isUnsigned] at h
  · rfl

theorem orderedEntries_of_not_unsigned (h : isUnsigned hint = false) (entries : List (List Char × α)) :
    orderedEntries entries hint = entries := by
  unfold orderedEntries
  split
  · simp [isUnsigned] at h
  · rfl

theorem eq_unsigned (h : isUnsigned hint = true) : hint = some .unsigned := by
  unfold isUnsigned at h
  split at h
  · rfl
  · simp at h

theorem orderedEntries_of_parse_none {entries : List (List Char × α)}
    (h : ∀ e ∈ entries, parseI64 e.1 = none) (hint : Option RenderHint) :
    orderedEntries entries hint = entries := by
  unfold orderedEntries
  split
  · refine List.mergeSort_of_pairwise (List.pairwise_of_forall_mem_list ?_)
    intro a ha b _
    simp [keyLe, h a ha]
  · rfl

theorem readKey_of_parse_none {key : List Char} (h : parseI64 key = none)
    (hint : Option RenderHint) : readKey key hint = key := by
  unfold readKey
  split
  · rw [h, Option.elim_none]
  · rfl

theorem mergeSort_of_nonneg {m : List (BitVec 64 × β)}
    (hsorted : (m.map Prod.fst).Pairwise fun a b => a.toInt < b.toInt)
    (h : ∀ w ∈ m.map Prod.fst, 0 ≤ w.toInt) :
    m.mergeSort (fun a b => ((a.1.toNat : Int) ≤ b.1.toNat : Bool)) = m := by
  refine List.mergeSort_of_pairwise ?_
  rw [List.pairwise_map] at hsorted
  refine hsorted.imp_of_mem ?_
  intro a b ha hb hlt
  have hnat := (toInt_eq_toNat_iff a.1).2 (h a.1 (List.mem_map_of_mem ha))
  have hnat' := (toInt_eq_toNat_iff b.1).2 (h b.1 (List.mem_map_of_mem hb))
  simp only [decide_eq_true_eq]
  omega

theorem mergeSort_of_sorted {m : List (BitVec 64 × β)}
    (hsorted : (m.map Prod.fst).Pairwise fun a b => a.toInt < b.toInt) :
    m.mergeSort (fun a b => (a.1.toInt ≤ b.1.toInt : Bool)) = m := by
  refine List.mergeSort_of_pairwise ?_
  rw [List.pairwise_map] at hsorted
  refine hsorted.imp ?_
  intro a b hlt
  simp only [decide_eq_true_eq]
  omega

/-! ### Packed keys -/

theorem intText_bare (n : Int) : ∀ c ∈ intText n, isBare c = true := by
  unfold intText
  intro c hc
  split at hc
  · obtain rfl | hc := List.mem_cons.1 hc
    · decide
    · exact digit_bare hc
  · exact digit_bare hc

theorem packed_rest_delimited (names : List Char → Option (List (List Char))) (read : Reading)
    (fieldNames : Option (List (List Char))) (i : Nat) (fields : PackedFields) (v : fields.Value)
    (s : List Char) :
    Delimited (fields.display names read fieldNames (i + 1) v ++ '}' :: s) := by
  have hlabel : ∀ more : List Char,
      Delimited (PackedFields.display.fieldLabel fieldNames (i + 1) ++ more) := by
    intro more
    rw [PackedFields.display.fieldLabel, if_pos (by omega)]
    exact .inl rfl
  cases fields <;> simp only [PackedFields.display, List.append_assoc]
  · exact .inr (.inr rfl)
  all_goals exact hlabel _

mutual

theorem PackedTy.display_iff (names : List Char → Option (List (List Char))) :
    ∀ (ty : PackedTy) (v : ty.Value) (r r' : List Char),
      ty.display names BitVec.toInt v ++ r =
          ty.display names (fun w : BitVec 64 => w.toNat) v ++ r' ↔ ty.Small v ∧ r = r'
  | .struct typeName fields, v, r, r' => by
    have hfields := PackedFields.display_iff names (names typeName) 0 fields v r r'
    simp only [PackedTy.display, PackedTy.Small, List.append_assoc, List.append_cancel_left_eq,
      List.singleton_append]
    exact hfields

theorem PackedFields.display_iff (names : List Char → Option (List (List Char)))
    (fieldNames : Option (List (List Char))) (i : Nat) :
    ∀ (fields : PackedFields) (v : fields.Value) (s s' : List Char),
      fields.display names BitVec.toInt fieldNames i v ++ '}' :: s =
          fields.display names (fun w : BitVec 64 => w.toNat) fieldNames i v ++ '}' :: s' ↔
        fields.Small v ∧ s = s'
  | .nil, v, s, s' => by simp [PackedFields.display, PackedFields.Small]
  | .int rest, v, s, s' | .bool rest, v, s, s' => by
    simp only [PackedFields.display, PackedFields.Small, List.append_assoc,
      List.append_cancel_left_eq]
    exact PackedFields.display_iff names fieldNames (i + 1) rest v.2 s s'
  | .u64 rest, v, s, s' => by
    simp only [PackedFields.display, PackedFields.Small, List.append_assoc,
      List.append_cancel_left_eq]
    have hrest := PackedFields.display_iff names fieldNames (i + 1) rest v.2 s s'
    rw [and_assoc, ← hrest, ← intText_toInt_eq_iff]
    constructor
    · intro h
      exact bare_told (intText_bare _) (intText_bare _) (packed_rest_delimited ..)
        (packed_rest_delimited ..) h
    · rintro ⟨hword, hmore⟩
      rw [hword, hmore]
  | .nested ty rest, v, s, s' => by
    simp only [PackedFields.display, PackedFields.Small, List.append_assoc,
      List.append_cancel_left_eq]
    rw [PackedTy.display_iff names ty v.1, PackedFields.display_iff names fieldNames (i + 1) rest,
      and_assoc]

end

theorem parseI64_none {text : List Char} {c : Char} (hc : c ∈ text) (hdigit : c.isDigit = false)
    (hminus : c ≠ '-') (hplus : c ≠ '+') : parseI64 text = none := by
  have hall : ∀ digits : List Char, c ∈ digits → digits.all Char.isDigit = false := by
    intro digits hmem
    rw [List.all_eq_false]
    exact ⟨c, hmem, by simp [hdigit]⟩
  unfold parseI64
  split
  · rename_i digits
    have hmem : c ∈ digits := (List.mem_cons.1 hc).resolve_left hminus
    simp [hall digits hmem]
  · rename_i digits
    have hmem : c ∈ digits := (List.mem_cons.1 hc).resolve_left hplus
    simp [hall digits hmem]
  · simp [hall text hc]

theorem parseI64_packed (names : List Char → Option (List (List Char))) (read : Reading)
    (ty : PackedTy) (v : ty.Value) : parseI64 (ty.display names read v) = none := by
  cases ty with
  | struct typeName fields =>
    have hbrace : '{' ∈ (PackedTy.struct typeName fields).display names read v := by
      simp [PackedTy.display]
    exact parseI64_none hbrace (by decide) (by decide) (by decide)

/-! ### Maps -/

theorem allAt_const {P : α → Prop} : AllAt (fun _ x => P x) l ↔ ∀ x ∈ l, P x := by
  constructor
  · intro h x hx
    obtain ⟨i, hi⟩ := List.mem_iff_getElem?.1 hx
    exact h i x hi
  · intro h i x hi
    exact h x (List.mem_of_getElem? hi)

theorem allAt_and {P Q : Nat → α → Prop} :
    AllAt (fun i x => P i x ∧ Q i x) l ↔ AllAt P l ∧ AllAt Q l := by
  constructor
  · intro h
    exact ⟨fun i x hx => (h i x hx).1, fun i x hx => (h i x hx).2⟩
  · rintro ⟨hP, hQ⟩ i x hx
    exact ⟨hP i x hx, hQ i x hx⟩

theorem allAt_congr {P Q : Nat → α → Prop}
    (h : ∀ i x, l[i]? = some x → (P i x ↔ Q i x)) : AllAt P l ↔ AllAt Q l :=
  forall_congr' fun i => forall_congr' fun x => imp_congr_right (h i x)

section Entries

variable {α β : Type} (g : α → β) (V : Nat → β → List Char) (V' : α → List Char)

/-- Words in their own order and read as they are, against the unsigned order and reading: the first
text says that no word is negative, so the two orders are one. -/
theorem words_iff {m : List (BitVec 64 × α)}
    (hsorted : (m.map Prod.fst).Pairwise fun a b => a.toInt < b.toInt) (U : Nat → α → List Char)
    (U' : α → List Char) :
    m.mapIdx (fun i e => (intText e.1.toInt, U i e.2)) =
        (m.mergeSort fun a b => ((a.1.toNat : Int) ≤ b.1.toNat : Bool)).map
          (fun e => (intText e.1.toNat, U' e.2)) ↔
      (∀ w ∈ m.map Prod.fst, 0 ≤ w.toInt) ∧ AllAt (fun i e => U i e.2 = U' e.2) m := by
  have hsame : (∀ w ∈ m.map Prod.fst, 0 ≤ w.toInt) →
      (m.mapIdx (fun i e => (intText e.1.toInt, U i e.2)) =
          (m.mergeSort fun a b => ((a.1.toNat : Int) ≤ b.1.toNat : Bool)).map
            (fun e => (intText e.1.toNat, U' e.2)) ↔ AllAt (fun i e => U i e.2 = U' e.2) m) := by
    intro hnonneg
    rw [mergeSort_of_nonneg hsorted hnonneg, mapIdx_eq_map_iff]
    refine allAt_congr ?_
    intro i e he
    have hmem : e.1 ∈ m.map Prod.fst := List.mem_map_of_mem (List.mem_of_getElem? he)
    rw [Prod.mk.injEq, and_iff_right ((intText_toInt_eq_iff e.1).2 (hnonneg e.1 hmem))]
  constructor
  · intro h
    have hnonneg : ∀ w ∈ m.map Prod.fst, 0 ≤ w.toInt := by
      intro w hw
      obtain ⟨e, he, rfl⟩ := List.mem_map.1 hw
      obtain ⟨i, hi⟩ := List.mem_iff_getElem?.1 he
      have hlist := congrArg (fun l => l[i]?) h
      simp only [List.getElem?_mapIdx, hi, Option.map_some, List.getElem?_map] at hlist
      obtain ⟨x, -, hx⟩ := Option.map_eq_some_iff.1 hlist.symm
      rw [Prod.mk.injEq] at hx
      exact nonneg_of_intText hx.1.symm
    exact ⟨hnonneg, (hsame hnonneg).1 h⟩
  · rintro ⟨hnonneg, hall⟩
    exact (hsame hnonneg).2 hall

theorem words_iff' {m : List (BitVec 64 × α)}
    (hsorted : (m.map Prod.fst).Pairwise fun a b => a.toInt < b.toInt)
    (U U' : α → List Char) :
    (m.mergeSort fun a b => ((a.1.toNat : Int) ≤ b.1.toNat : Bool)).map
          (fun e => (intText e.1.toNat, U e.2)) =
        m.map (fun e => (intText e.1.toInt, U' e.2)) ↔
      (∀ w ∈ m.map Prod.fst, 0 ≤ w.toInt) ∧ AllAt (fun _ e => U e.2 = U' e.2) m := by
  have hwords := words_iff hsorted (fun _ => U') U
  rw [mapIdx_const] at hwords
  rw [eq_comm, hwords]
  simp only [eq_comm]

theorem reordered_iff (m : List (BitVec 64 × α)) (U U' : α → List Char) :
    (m.mergeSort fun a b => ((a.1.toNat : Int) ≤ b.1.toNat : Bool)).map
          (fun e => (intText e.1.toNat, U e.2)) =
        (m.mergeSort fun a b => ((a.1.toNat : Int) ≤ b.1.toNat : Bool)).map
          (fun e => (intText e.1.toNat, U' e.2)) ↔
      AllAt (fun _ e => U e.2 = U' e.2) m := by
  rw [allAt_const, List.map_inj_left]
  simp only [List.mem_mergeSort, Prod.mk.injEq, true_and]

theorem orderedEntries_words (m : List (BitVec 64 × α)) (U : β → List Char) :
    (orderedEntries (m.map fun e => (intText e.1.toInt, g e.2)) (some .unsigned)).map
        (fun e => (readKey e.1 (some .unsigned), U e.2)) =
      (m.mergeSort fun a b => ((a.1.toNat : Int) ≤ b.1.toNat : Bool)).map
        fun e => (intText e.1.toNat, U (g e.2)) := by
  have hread : ∀ w : BitVec 64, w.toInt % 2 ^ 64 = w.toNat := by
    intro w
    have := w.isLt
    rw [BitVec.toInt_eq_toNat_cond]
    split <;> omega
  have hordered : orderedEntries (m.map fun e => (intText e.1.toInt, g e.2)) (some .unsigned) =
      (m.mergeSort fun a b => ((a.1.toNat : Int) ≤ b.1.toNat : Bool)).map
        fun e => (intText e.1.toInt, g e.2) := by
    refine (List.map_mergeSort ?_).symm
    intro a _ b _
    simp only [keyLe, parseI64_toInt, hread]
  rw [hordered, List.map_map]
  refine List.map_congr_left ?_
  intro e _
  simp only [Function.comp_apply, readKey, parseI64_toInt, Option.elim_some,
    unsignedDigits_toInt]

theorem plain_iff {κ : Type} {m : List (κ × α)} (T W : κ → List Char) {hint : Option RenderHint}
    (hordered : orderedEntries (m.map fun e => (T e.1, g e.2)) hint = m.map fun e => (T e.1, g e.2))
    (hread : ∀ key ∈ m.map Prod.fst, readKey (T key) hint = T key) :
    (orderedEntries (m.map fun e => (T e.1, g e.2)) hint).mapIdx
          (fun i e => (readKey e.1 hint, V i e.2)) =
        m.map (fun e => (W e.1, V' e.2)) ↔
      (∀ key ∈ m.map Prod.fst, T key = W key) ∧ AllAt (fun i e => V i (g e.2) = V' e.2) m := by
  have hkeys : (∀ key ∈ m.map Prod.fst, T key = W key) ↔ AllAt (fun _ e => T e.1 = W e.1) m := by
    rw [allAt_const]
    simp
  rw [hordered, mapIdx_map, mapIdx_eq_map_iff, hkeys, ← allAt_and]
  refine allAt_congr ?_
  intro i e he
  rw [Prod.mk.injEq, hread e.1 (List.mem_map_of_mem (List.mem_of_getElem? he))]

/-- String keys under an unsigned hint: the texts are the keys in their places only when no key is
reread and none is moved. -/
theorem fixed_iff {m : List (List Char × α)} (hnodup : (m.map Prod.fst).Nodup)
    (U : β → List Char) :
    (orderedEntries (m.map fun e => (e.1, g e.2)) (some .unsigned)).map
          (fun e => (readKey e.1 (some .unsigned), U e.2)) =
        m.map (fun e => (e.1, V' e.2)) ↔
      KeysFixed (m.map Prod.fst) ∧ AllAt (fun _ e => U (g e.2) = V' e.2) m := by
  have hentries : (orderedEntries (m.map fun e => (e.1, g e.2)) (some .unsigned)).map Prod.fst =
      (m.map Prod.fst).mergeSort keyLe := by
    have hmap : ((m.map fun e => (e.1, g e.2)).mergeSort fun a b => keyLe a.1 b.1).map Prod.fst =
        ((m.map fun e => (e.1, g e.2)).map Prod.fst).mergeSort keyLe :=
      List.map_mergeSort fun a _ b _ => rfl
    rw [List.map_map] at hmap
    exact hmap
  have hperm : (orderedEntries (m.map fun e => (e.1, g e.2)) (some .unsigned)).Perm
      (m.map fun e => (e.1, g e.2)) := List.mergeSort_perm _ _
  have hfst : (m.map fun e => (e.1, g e.2)).map Prod.fst = m.map Prod.fst := by
    rw [List.map_map]
    rfl
  have hstay : KeysFixed (m.map Prod.fst) →
      orderedEntries (m.map fun e => (e.1, g e.2)) (some .unsigned) =
        m.map fun e => (e.1, g e.2) := by
    intro hfixed
    refine eq_of_perm_of_map_fst hperm ?_ (hfst ▸ hnodup)
    rw [hentries, hfixed.2, hfst]
  have hvalues : KeysFixed (m.map Prod.fst) →
      ((orderedEntries (m.map fun e => (e.1, g e.2)) (some .unsigned)).map
          (fun e => (readKey e.1 (some .unsigned), U e.2)) = m.map (fun e => (e.1, V' e.2)) ↔
        AllAt (fun _ e => U (g e.2) = V' e.2) m) := by
    intro hfixed
    rw [hstay hfixed, List.map_map, List.map_inj_left, allAt_const]
    refine forall_congr' fun e => imp_congr_right fun he => ?_
    simp only [Function.comp_apply, Prod.mk.injEq,
      hfixed.1 e.1 (List.mem_map_of_mem he), true_and]
  constructor
  · intro h
    have hkeys : ((m.map Prod.fst).mergeSort keyLe).map (readKey · (some .unsigned)) =
        m.map Prod.fst := by
      have hmap := congrArg (List.map Prod.fst) h
      rw [List.map_map, List.map_map] at hmap
      rw [← hentries, List.map_map]
      exact hmap
    -- every key is one that was read, and reading twice changes nothing
    have hread : ∀ key ∈ m.map Prod.fst, readKey key (some .unsigned) = key := by
      intro key hkey
      rw [← hkeys] at hkey
      obtain ⟨key', -, rfl⟩ := List.mem_map.1 hkey
      exact readKey_idem key'
    have hfixed : KeysFixed (m.map Prod.fst) := by
      refine ⟨hread, ?_⟩
      have hid : ((m.map Prod.fst).mergeSort keyLe).map (readKey · (some .unsigned)) =
          (m.map Prod.fst).mergeSort keyLe :=
        (List.map_congr_left fun key hkey => hread key (List.mem_mergeSort.1 hkey)).trans
          (List.map_id' _)
      rw [← hid, hkeys]
    exact ⟨hfixed, (hvalues hfixed).1 h⟩
  · rintro ⟨hfixed, hall⟩
    exact (hvalues hfixed).2 hall

end Entries

/-- The texts of a map's entries, as the walk orders and reads them and as they should be. -/
theorem KeyTy.entries_iff (names : List Char → Option (List (List Char))) (k : KeyTy)
    (hint : Option RenderHint) {m : List (k.Value × α)}
    (hsorted : (m.map Prod.fst).Pairwise k.Before) (g : α → β) (V : Nat → β → List Char)
    (hV : isUnsigned hint = true → ∀ i, V i = V 0) (V' : α → List Char) :
    (orderedEntries ((k.order BitVec.toInt m).map fun e =>
          (k.asNativeStr names BitVec.toInt e.1, g e.2)) hint).mapIdx
          (fun i e => (readKey e.1 hint, V i e.2)) =
        (k.order (fun w : BitVec 64 => w.toNat) m).map (fun e =>
          (k.asNativeStr names (fun w : BitVec 64 => w.toNat) e.1, V' e.2)) ↔
      k.Reads hint (m.map Prod.fst) ∧ AllAt (fun i e => V i (g e.2) = V' e.2) m := by
  have hplain := fun (T W : k.Value → List Char) =>
    @plain_iff _ _ g V V' _ m T W hint
  cases k with
  | packed ty =>
    have hparse : ∀ e ∈ m.map (fun e => (ty.display names BitVec.toInt e.1, g e.2)),
        parseI64 e.1 = none := by
      intro e he
      obtain ⟨e, -, rfl⟩ := List.mem_map.1 he
      exact parseI64_packed ..
    have hsmall : ∀ v : ty.Value, ty.display names BitVec.toInt v =
        ty.display names (fun w : BitVec 64 => w.toNat) v ↔ ty.Small v := by
      intro v
      have hiff := PackedTy.display_iff names ty v [] []
      simpa using hiff
    refine Iff.trans (hplain (ty.display names BitVec.toInt)
      (ty.display names fun w : BitVec 64 => w.toNat) (orderedEntries_of_parse_none hparse hint)
      (fun key _ => readKey_of_parse_none (parseI64_packed ..) hint)) (and_congr_left' ?_)
    exact forall_congr' fun key => imp_congr_right fun _ => hsmall key
  | str =>
    cases hu : isUnsigned hint with
    | false =>
      refine Iff.trans (hplain id id (orderedEntries_of_not_unsigned hu _)
        (fun key _ => readKey_of_not_unsigned hu _)) (and_congr_left' ?_)
      exact iff_of_true (fun key _ => rfl) fun h => absurd h (by simp [hu])
    | true =>
      have hconst : V = fun _ => V 0 := funext (hV hu)
      rw [eq_unsigned hu, hconst, mapIdx_const]
      have hnodup : (m.map Prod.fst).Nodup := hsorted
      refine Iff.trans (fixed_iff g V' hnodup (V 0)) (and_congr_left' ?_)
      exact ⟨fun h _ => h, fun h => h rfl⟩
  | int =>
    have hwords : (m.map Prod.fst).Pairwise fun a b : BitVec 64 => a.toInt < b.toInt := hsorted
    cases hu : isUnsigned hint with
    | false =>
      refine Iff.trans (hplain (fun w : BitVec 64 => intText w.toInt)
        (fun w : BitVec 64 => intText w.toInt) (orderedEntries_of_not_unsigned hu _)
        (fun key _ => readKey_of_not_unsigned hu _)) (and_congr_left' ?_)
      exact iff_of_true (fun key _ => rfl) fun h => absurd h (by simp [hu])
    | true =>
      have hconst : V = fun _ => V 0 := funext (hV hu)
      rw [eq_unsigned hu, hconst, mapIdx_const]
      have hwalk := Eq.congr_left (z := m.map fun e => (intText e.1.toInt, V' e.2))
        (orderedEntries_words g m (V 0))
      refine Iff.trans hwalk ((words_iff' hwords (fun x => V 0 (g x)) V').trans
        (and_congr_left' ?_))
      exact ⟨fun h _ => h, fun h => h rfl⟩
  | u64 =>
    have hwords : (m.map Prod.fst).Pairwise fun a b : BitVec 64 => a.toInt < b.toInt := hsorted
    have hplace : KeyTy.order BitVec.toInt .u64 m = m := mergeSort_of_sorted hwords
    rw [hplace]
    cases hu : isUnsigned hint with
    | false =>
      rw [orderedEntries_of_not_unsigned hu, mapIdx_map]
      simp only [readKey_of_not_unsigned hu]
      refine Iff.trans (words_iff hwords (fun i x => V i (g x)) V') (and_congr_left' ?_)
      exact ⟨fun h _ => h, fun h => h hu⟩
    | true =>
      have hconst : V = fun _ => V 0 := funext (hV hu)
      rw [eq_unsigned hu, hconst, mapIdx_const]
      have hwalk := Eq.congr_left
        (z := (KeyTy.order (fun w : BitVec 64 => w.toNat) .u64 m).map fun e =>
          (intText e.1.toNat, V' e.2)) (orderedEntries_words g m (V 0))
      have hreads : KeyTy.Reads .u64 (some .unsigned) (m.map Prod.fst) := by
        intro h
        simp [isUnsigned] at h
      rw [and_iff_right hreads]
      exact Iff.trans hwalk (reordered_iff m (fun x => V 0 (g x)) V')

/-! ### The walk -/

section Parts

variable {fl : FloatFormat}

theorem stringify_parts (items : List (NativeValue fl)) :
    ∀ part ∈ items.map stringify, Text part := by
  intro part hpart
  obtain ⟨item, -, rfl⟩ := List.mem_map.1 hpart
  exact text_stringify item

theorem jsonStringify_parts (items : List (NativeValue fl)) (hints : Nat → Option RenderHint) :
    ∀ part ∈ items.mapIdx fun i item => jsonStringify item (hints i), Text part := by
  intro part hpart
  obtain ⟨i, hi, rfl⟩ := List.mem_mapIdx.1 hpart
  exact text_jsonStringify _ _

theorem array_iff (items items' : List (NativeValue fl)) (hints : Nat → Option RenderHint) :
    jsonArray (items.mapIdx fun i item => jsonStringify item (hints i)) =
        jsonArray (stringifyAll items') ↔
      items.mapIdx (fun i item => jsonStringify item (hints i)) = items'.map stringify := by
  rw [stringifyAll_eq, jsonArray_eq_iff (jsonStringify_parts items hints) (stringify_parts items')]

theorem items_iff {α : Type} (f f' : α → NativeValue fl) (xs : List α) (hint : Option RenderHint) :
    jsonStringify (.list (xs.map f)) hint = stringify (.list (xs.map f')) ↔
      AllAt (fun i x => jsonStringify (f x) (itemHint (settled hint) i) = stringify (f' x)) xs := by
  rw [jsonStringify_list, stringify, array_iff, mapIdx_map, List.map_map, mapIdx_eq_map_iff]
  rfl

theorem object_iff (entries entries' : List (List Char × NativeValue fl))
    (hint : Option RenderHint) :
    jsonStringify (.map entries) hint = stringify (.map entries') ↔
      (orderedEntries entries (keyHint (settled hint))).mapIdx (fun i e =>
          (readKey e.1 (keyHint (settled hint)),
            jsonStringify e.2 (fieldHint (settled hint) i))) =
        entries'.map fun e => (e.1, stringify e.2) := by
  have hleft : ∀ e ∈ (orderedEntries entries (keyHint (settled hint))).mapIdx (fun i e =>
      (readKey e.1 (keyHint (settled hint)), jsonStringify e.2 (fieldHint (settled hint) i))),
      Text e.2 := by
    intro e he
    obtain ⟨i, hi, rfl⟩ := List.mem_mapIdx.1 he
    exact text_jsonStringify _ _
  have hright : ∀ e ∈ entries'.map (fun e => (e.1, stringify e.2)), Text e.2 := by
    intro e he
    obtain ⟨e, -, rfl⟩ := List.mem_map.1 he
    exact text_stringify _
  rw [jsonStringify_map, stringify, stringifyEntries_eq, ← jsonObject_eq_iff hleft hright,
    map_mapIdx, List.map_map]
  rfl

theorem payload_iff (enumName variant : List Char) (index : Nat) (fields fields' : List (NativeValue fl))
    (hempty : fields.isEmpty = fields'.isEmpty) (hint : Option RenderHint) :
    jsonStringify (.variant enumName variant index fields) hint =
        stringify (.variant enumName variant index fields') ↔
      fields.mapIdx (fun i field => jsonStringify field (payloadHint hint variant i)) =
        fields'.map stringify := by
  rw [jsonStringify_variant, stringify, ← hempty]
  cases hfields : fields.isEmpty with
  | true =>
    have hfields' : fields' = [] := List.isEmpty_iff.1 (hempty ▸ hfields)
    rw [List.isEmpty_iff.1 hfields, hfields']
    simp
  | false =>
    have hobject := @jsonObject_eq_iff
      [(variant, jsonArray (fields.mapIdx fun i field =>
        jsonStringify field (payloadHint hint variant i)))]
      [(variant, jsonArray (stringifyAll fields'))]
      (by
        intro e he
        rw [List.mem_singleton.1 he]
        exact .array (jsonStringify_parts fields _))
      (by
        intro e he
        rw [List.mem_singleton.1 he]
        exact .array (stringifyAll_eq fields' ▸ stringify_parts fields'))
    simp only [Bool.false_eq_true, if_false]
    refine Iff.trans hobject ?_
    simp only [List.cons.injEq, Prod.mk.injEq, true_and, and_true]
    exact array_iff fields fields' _

theorem u64_iff (w : BitVec 64) (hint : Option RenderHint) :
    jsonStringify (.int w.toInt : NativeValue fl) hint =
        stringify (.int w.toNat : NativeValue fl) ↔
      (isUnsigned (settled hint) = false → 0 ≤ w.toInt) := by
  rw [jsonStringify_int, stringify, unsignedDigits_toInt]
  cases isUnsigned (settled hint) with
  | false => simpa using intText_toInt_eq_iff w
  | true => simp

theorem int_iff (w : BitVec 64) (hint : Option RenderHint) :
    jsonStringify (.int w.toInt : NativeValue fl) hint =
        stringify (.int w.toInt : NativeValue fl) ↔
      (isUnsigned (settled hint) = true → 0 ≤ w.toInt) := by
  rw [jsonStringify_int, stringify, unsignedDigits_toInt]
  cases isUnsigned (settled hint) with
  | false => simp
  | true => simpa using eq_comm.trans (intText_toInt_eq_iff w)

theorem single_iff {α β : Type} {f : Nat → α → β} {g : α → β} {x y : α} :
    [x].mapIdx f = [y].map g ↔ f 0 x = g y := by
  simp

end Parts

section Walk

variable {fl : FloatFormat} (names : List Char → Option (List (List Char)))

theorem trees_isEmpty (read read' : Reading) (tys : Tys) (xs : tys.Value fl) :
    (tys.trees names read xs).isEmpty = (tys.trees names read' xs).isEmpty := by
  cases tys <;> rfl

theorem fields_parse_none (read : Reading) :
    ∀ (fields : Fields) (xs : fields.Value fl), ∀ e ∈ fields.trees names read xs,
      parseI64 e.1 = none
  | .nil, _ => fun e h => absurd h List.not_mem_nil
  | .cons name ty rest, xs => fun e h => by
    obtain heq | h := List.mem_cons.1 h
    · rw [heq]
      exact name.2
    · exact fields_parse_none read rest xs.2 e h

mutual

/-- Under any hint the text of a value is its own exactly when every integer is read right: by
induction on the type, along the hint that reaches each part. -/
theorem Ty.stringify_iff : ∀ (ty : Ty) (hint : Option RenderHint) (v : ty.Value fl),
    jsonStringify (ty.marshal names v) hint = stringify (ty.written names v) ↔ ty.Reads hint v
  | .u64, hint, w => u64_iff w hint
  | .int, hint, w => int_iff w hint
  | .bool, hint, b => iff_of_true (jsonStringify_leaf rfl hint) trivial
  | .float, hint, f | .f32, hint, f | .str, hint, s | .bytes, hint, b | .unit, hint, _ | .externValue, hint, d =>
    iff_of_true (jsonStringify_leaf rfl hint) trivial
  | .list elem, hint, xs | .set elem, hint, xs =>
    (items_iff _ _ xs hint).trans (allAt_congr fun i x _ => elem.stringify_iff _ x)
  | .map key value, hint, m => by
    have hconst : isUnsigned (keyHint (settled hint)) = true →
        ∀ i, fieldHint (settled hint) i = fieldHint (settled hint) 0 := by
      intro hu i
      generalize settled hint = hint at hu ⊢
      unfold keyHint at hu
      split at hu
      · rfl
      · simp [isUnsigned] at hu
    refine (object_iff _ _ hint).trans ?_
    rw [List.map_map]
    refine (KeyTy.entries_iff names key _ m.2 (fun x => value.marshal names x)
      (fun i x => jsonStringify x (fieldHint (settled hint) i)) (fun hu i => ?_)
      (fun x => stringify (value.written names x))).trans ?_
    · rw [hconst hu i]
    · exact and_congr_right' (allAt_congr fun i e _ => value.stringify_iff _ e.2)
  | .tuple elems, hint, xs => by
    have helems := Tys.stringify_iff (itemHint (settled hint)) elems 0 xs
    simp only [Nat.zero_add] at helems
    refine Iff.trans ?_ helems
    have harray := array_iff (elems.trees names BitVec.toInt xs)
      (elems.trees names (fun w : BitVec 64 => w.toNat) xs) (itemHint (settled hint))
    rw [← harray, ← jsonStringify_list]
    rfl
  | .record fields, hint, xs => by
    have hfields := Fields.stringify_iff (fieldHint (settled hint)) fields 0 xs
    simp only [Nat.zero_add] at hfields
    refine Iff.trans ?_ hfields
    have hnames := fields_parse_none names BitVec.toInt fields xs
    refine (object_iff _ _ hint).trans ?_
    rw [orderedEntries_of_parse_none hnames]
    have hread : (fields.trees names BitVec.toInt xs).mapIdx (fun i e =>
        (readKey e.1 (keyHint (settled hint)), jsonStringify e.2 (fieldHint (settled hint) i))) =
        (fields.trees names BitVec.toInt xs).mapIdx (fun i e =>
          (e.1, jsonStringify e.2 (fieldHint (settled hint) i))) := by
      rw [List.mapIdx_eq_mapIdx_iff]
      intro i hi
      rw [readKey_of_parse_none (hnames _ (List.getElem_mem hi))]
    rw [hread]
  | .enum name cases, hint, x => cases.stringify_iff name 0 hint x
  | .result ok err, hint, .inl x =>
    (payload_iff "Result".toList "Ok".toList 0 [ok.marshal names x] [ok.written names x] rfl
      hint).trans (single_iff.trans (ok.stringify_iff (payloadHint hint "Ok".toList 0) x))
  | .result ok err, hint, .inr x =>
    (payload_iff "Result".toList "Err".toList 1 [err.marshal names x] [err.written names x] rfl
      hint).trans (single_iff.trans (err.stringify_iff (payloadHint hint "Err".toList 0) x))
  | .option inner, hint, none => iff_of_true (jsonStringify_leaf rfl hint) trivial
  | .option inner, hint, some x => inner.stringify_iff hint x

theorem Tys.stringify_iff (hints : Nat → Option RenderHint) : ∀ (tys : Tys) (i : Nat)
    (xs : tys.Value fl),
    (tys.trees names BitVec.toInt xs).mapIdx (fun j x => jsonStringify x (hints (i + j))) =
        (tys.trees names (fun w : BitVec 64 => w.toNat) xs).map stringify ↔
      tys.Reads hints i xs
  | .nil, i, xs => iff_of_true rfl trivial
  | .cons ty rest, i, xs => by
    have hfirst := ty.stringify_iff (hints i) xs.1
    have hrest := Tys.stringify_iff hints rest (i + 1) xs.2
    simp only [Tys.trees, List.mapIdx_cons, List.map_cons, List.cons.injEq, Nat.add_zero]
    refine and_congr hfirst ?_
    simpa only [Nat.add_assoc, Nat.add_comm 1] using hrest

theorem Fields.stringify_iff (hints : Nat → Option RenderHint) : ∀ (fields : Fields) (i : Nat)
    (xs : fields.Value fl),
    (fields.trees names BitVec.toInt xs).mapIdx
          (fun j e => (e.1, jsonStringify e.2 (hints (i + j)))) =
        (fields.trees names (fun w : BitVec 64 => w.toNat) xs).map
          (fun e => (e.1, stringify e.2)) ↔
      fields.Reads hints i xs
  | .nil, i, xs => iff_of_true rfl trivial
  | .cons name ty rest, i, xs => by
    have hfirst := ty.stringify_iff (hints i) xs.1
    have hrest := Fields.stringify_iff hints rest (i + 1) xs.2
    simp only [Fields.trees, List.mapIdx_cons, List.map_cons, List.cons.injEq, Nat.add_zero,
      Prod.mk.injEq, true_and]
    refine and_congr hfirst ?_
    simpa only [Nat.add_assoc, Nat.add_comm 1] using hrest

theorem Cases.stringify_iff (enumName : List Char) : ∀ (cases : Cases) (index : Nat)
    (hint : Option RenderHint) (x : cases.Value fl),
    jsonStringify (cases.tree names BitVec.toInt enumName index x) hint =
        stringify (cases.tree names (fun w : BitVec 64 => w.toNat) enumName index x) ↔
      cases.Reads hint x
  | .nil, index, hint, x => nomatch x
  | .cons name payload rest, index, hint, .inl x => by
    have hpayload := Tys.stringify_iff (payloadHint hint name) payload 0 x
    simp only [Nat.zero_add] at hpayload
    exact (payload_iff enumName name index _ _ (trees_isEmpty names _ _ payload x) hint).trans
      hpayload
  | .cons name payload rest, index, hint, .inr x => rest.stringify_iff enumName (index + 1) hint x

end

end Walk

end Noeta.Json
