import Mathlib.Data.List.Destutter
import Mathlib.Data.List.Dedup

/-!
# Texts put together from pieces that can be cut off again

A code is self-delimiting when its words can be cut off the front of any text: then two texts made of such words in a fixed order are equal only if their words are. Next to it the canonical forms that are put into such a text in place of a collection: a sorted list stands for a multiset, a sorted list without neighbouring repeats for a set.
-/

namespace Noeta.Lib.Framing

variable {α β γ : Type*}

/-! ### Self-delimiting codes -/

/-- The words of the code can be cut off the front of any text. -/
def SelfDelimiting (enc : α → List γ) : Prop :=
  ∀ ⦃a a' : α⦄ ⦃s s' : List γ⦄, enc a ++ s = enc a' ++ s' → a = a' ∧ s = s'

theorem selfDelimiting_of_length {enc : α → List γ} (n : Nat) (hlen : ∀ a, (enc a).length = n)
    (hinj : Function.Injective enc) : SelfDelimiting enc := by
  intro a a' s s' heq
  have hsame : (enc a).length = (enc a').length := by rw [hlen, hlen]
  obtain ⟨hword, hrest⟩ := List.append_inj heq hsame
  exact ⟨hinj hword, hrest⟩

theorem SelfDelimiting.pair {enc : α → List γ} {enc' : β → List γ} (h : SelfDelimiting enc)
    (h' : SelfDelimiting enc') : SelfDelimiting fun p : α × β => enc p.1 ++ enc' p.2 := by
  rintro ⟨a, b⟩ ⟨a', b'⟩ s s' heq
  simp only [List.append_assoc] at heq
  obtain ⟨rfl, hrest⟩ := h heq
  obtain ⟨rfl, hend⟩ := h' hrest
  exact ⟨rfl, hend⟩

theorem SelfDelimiting.rows {enc : α → List γ} (h : SelfDelimiting enc) {l l' : List α} {s s' : List γ}
    (hlen : l.length = l'.length) (heq : l.flatMap enc ++ s = l'.flatMap enc ++ s') :
    l = l' ∧ s = s' := by
  induction l generalizing l' with
  | nil =>
    cases l' with
    | nil => exact ⟨rfl, heq⟩
    | cons b l' => simp at hlen
  | cons a l ih =>
    cases l' with
    | nil => simp at hlen
    | cons b l' =>
      simp only [List.flatMap_cons, List.append_assoc] at heq
      obtain ⟨rfl, hrest⟩ := h heq
      obtain ⟨rfl, hend⟩ := ih (by simpa using hlen) hrest
      exact ⟨rfl, hend⟩

theorem SelfDelimiting.counted {enc : α → List γ} (h : SelfDelimiting enc) {count : Nat → List γ} {bound : Nat}
    (hcount : ∀ ⦃m n : Nat⦄ ⦃s s' : List γ⦄, m < bound → n < bound → count m ++ s = count n ++ s' → m = n ∧ s = s')
    {l l' : List α} {s s' : List γ} (hl : l.length < bound) (hl' : l'.length < bound)
    (heq : count l.length ++ (l.flatMap enc ++ s) = count l'.length ++ (l'.flatMap enc ++ s')) :
    l = l' ∧ s = s' := by
  obtain ⟨hlen, hrest⟩ := hcount hl hl' heq
  exact h.rows hlen hrest

/-! ### Collections in a canonical order -/

section Sorted

variable (cmp : α → α → Ordering)

/-- The list in the order of a comparison. -/
def sortBy (l : List α) : List α := l.mergeSort fun a b => (cmp a b).isLE

theorem sortBy_perm (l : List α) : List.Perm (sortBy cmp l) l := List.mergeSort_perm l _

@[simp] theorem length_sortBy (l : List α) : (sortBy cmp l).length = l.length := List.length_mergeSort l

@[simp] theorem mem_sortBy {a : α} {l : List α} : a ∈ sortBy cmp l ↔ a ∈ l := List.mem_mergeSort

variable [Std.TransCmp cmp] [Std.LawfulEqCmp cmp]

omit [Std.LawfulEqCmp cmp] in
theorem pairwise_sortBy (l : List α) : (sortBy cmp l).Pairwise fun a b => (cmp a b).isLE := by
  apply List.pairwise_mergeSort
  · intro a b c hab hbc
    exact Std.TransCmp.isLE_trans hab hbc
  · intro a b
    rw [Bool.or_eq_true]
    by_cases h : (cmp a b).isLE
    · exact Or.inl h
    · refine Or.inr ?_
      have hgt := Std.OrientedCmp.lt_of_not_isLE h
      rw [hgt]
      rfl

theorem eq_of_isLE {a b : α} (hab : (cmp a b).isLE) (hba : (cmp b a).isLE) : a = b :=
  Std.LawfulEqCmp.eq_of_compare (Std.OrientedCmp.isLE_antisymm hab hba)

theorem sortBy_eq_iff {l l' : List α} : sortBy cmp l = sortBy cmp l' ↔ List.Perm l l' := by
  constructor
  · intro heq
    have hmid : List.Perm (sortBy cmp l) (sortBy cmp l') := by rw [heq]
    exact ((sortBy_perm cmp l).symm.trans hmid).trans (sortBy_perm cmp l')
  · intro hperm
    refine List.Perm.eq_of_pairwise ?_ (pairwise_sortBy cmp l) (pairwise_sortBy cmp l')
      (((sortBy_perm cmp l).trans hperm).trans (sortBy_perm cmp l').symm)
    intro a b _ _ hab hba
    exact eq_of_isLE cmp hab hba

variable [DecidableEq α]

/-- The list in order, a run of equal neighbours kept once. -/
def sortDedup (l : List α) : List α := (sortBy cmp l).destutter (· ≠ ·)

theorem sortDedup_eq_dedup (l : List α) : sortDedup cmp l = (sortBy cmp l).dedup := by
  have hanti : Std.Antisymm fun a b => ((cmp a b).isLE : Prop) := ⟨fun a b => eq_of_isLE cmp⟩
  exact List.Pairwise.destutter_eq_dedup (pairwise_sortBy cmp l)

theorem mem_sortDedup {a : α} {l : List α} : a ∈ sortDedup cmp l ↔ a ∈ l := by
  rw [sortDedup_eq_dedup, List.mem_dedup, mem_sortBy]

omit [Std.TransCmp cmp] [Std.LawfulEqCmp cmp] in
theorem length_sortDedup_le (l : List α) : (sortDedup cmp l).length ≤ l.length := by
  have hsub := (List.destutter_sublist (· ≠ ·) (sortBy cmp l)).length_le
  rwa [length_sortBy] at hsub

theorem sortDedup_eq_iff {l l' : List α} : sortDedup cmp l = sortDedup cmp l' ↔ ∀ a, a ∈ l ↔ a ∈ l' := by
  constructor
  · intro heq a
    rw [← mem_sortDedup cmp, heq, mem_sortDedup]
  · intro hmem
    have hsorted : ∀ l : List α, (sortDedup cmp l).Pairwise fun a b => (cmp a b).isLE := fun l =>
      (pairwise_sortBy cmp l).sublist (List.destutter_sublist _ _)
    have hnodup : ∀ l : List α, (sortDedup cmp l).Nodup := fun l => by
      rw [sortDedup_eq_dedup]
      exact List.nodup_dedup _
    have hperm : List.Perm (sortDedup cmp l) (sortDedup cmp l') := by
      rw [List.perm_ext_iff_of_nodup (hnodup l) (hnodup l')]
      intro a
      rw [mem_sortDedup, mem_sortDedup, hmem]
    refine List.Perm.eq_of_pairwise ?_ (hsorted l) (hsorted l') hperm
    intro a b _ _ hab hba
    exact eq_of_isLE cmp hab hba

end Sorted

end Noeta.Lib.Framing
