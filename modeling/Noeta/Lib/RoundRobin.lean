import Mathlib

/-!
# Round-robin iteration

Sets at keys, each recomputed from the others by a monotone rule. A loop visits a list of keys over and over and stops after a round in which no set changed. Started from empty sets the sets only grow, so the loop ends where the rule holds at each key.
-/

namespace Noeta.Lib.RoundRobin

variable {κ α : Type} [DecidableEq κ] [DecidableEq α] (F : (κ → Finset α) → κ → Finset α)

/-- One visit, with the flag that says whether a set changed in this round. -/
def visit (state : (κ → Finset α) × Bool) (k : κ) : (κ → Finset α) × Bool :=
  if F state.1 k = state.1 k then state else (Function.update state.1 k (F state.1 k), true)

/-- One round. -/
def round (l : List κ) (s : κ → Finset α) : (κ → Finset α) × Bool := l.foldl (visit F) (s, false)

/-- Rounds until one changes nothing. -/
def settle (l : List κ) : Nat → (κ → Finset α) → κ → Finset α
  | 0, s => s
  | n + 1, s => if (round F l s).2 then settle l n (round F l s).1 else (round F l s).1

variable {F} {l : List κ} {s : κ → Finset α}

/-- Every set is below what the rule makes of the sets. -/
def Inflating (F : (κ → Finset α) → κ → Finset α) (s : κ → Finset α) : Prop := ∀ k, s k ⊆ F s k

/-- The size of the sets at the keys of a list. -/
def size (l : List κ) (s : κ → Finset α) : Nat := ∑ k ∈ l.toFinset, (s k).card

section Visit

variable {state : (κ → Finset α) × Bool} {k : κ}

theorem visit_fst (j : κ) : (visit F state k).1 j = if j = k then F state.1 k else state.1 j := by
  unfold visit
  split
  · rename_i heq
    split
    · rename_i hj
      rw [heq, hj]
    · rfl
  · exact Function.update_apply _ _ _ _

theorem le_visit (h : Inflating F state.1) (j : κ) : state.1 j ⊆ (visit F state k).1 j := by
  rw [visit_fst]
  split
  · rename_i hj
    exact hj ▸ h j
  · exact subset_rfl

theorem Inflating.visit (hF : ∀ s t, (∀ k, s k ⊆ t k) → ∀ k, F s k ⊆ F t k) (h : Inflating F state.1) :
    Inflating F (visit F state k).1 := by
  intro j
  apply subset_trans _ (hF _ _ (le_visit h (k := k)) j)
  rw [visit_fst]
  split
  · rename_i hj
    rw [hj]
  · exact h j

theorem visit_fst_of_not (h : (visit F state k).2 = false) : visit F state k = state ∧ F state.1 k = state.1 k := by
  unfold visit at h ⊢
  split
  · rename_i heq
    exact ⟨rfl, heq⟩
  · rename_i hne
    rw [if_neg hne] at h
    cases h

theorem size_visit (hF : Inflating F state.1) (hk : k ∈ l) (hflag : state.2 = false) :
    size l state.1 + (visit F state k).2.toNat ≤ size l (visit F state k).1 := by
  unfold visit
  split
  · rw [hflag]
    exact le_rfl
  · rename_i hne
    apply Nat.succ_le_of_lt
    apply Finset.sum_lt_sum
    · intro j _
      have hle := le_visit hF (k := k) j
      rw [visit, if_neg hne] at hle
      exact Finset.card_le_card hle
    · refine ⟨k, List.mem_toFinset.mpr hk, ?_⟩
      simp only [Function.update_self]
      exact Finset.card_lt_card (ssubset_of_subset_of_ne (hF k) (Ne.symm hne))

end Visit

theorem foldl_visit (hF : ∀ s t, (∀ k, s k ⊆ t k) → ∀ k, F s k ⊆ F t k) {ks : List κ} (hks : ∀ k ∈ ks, k ∈ l)
    (state : (κ → Finset α) × Bool) (h : Inflating F state.1) :
    Inflating F (ks.foldl (visit F) state).1 ∧ (∀ j, state.1 j ⊆ (ks.foldl (visit F) state).1 j) ∧
      (state.2 = false → (ks.foldl (visit F) state).2 = true → size l state.1 < size l (ks.foldl (visit F) state).1) := by
  induction ks generalizing state with
  | nil => exact ⟨h, fun _ => subset_rfl, fun hflag hflag' => by rw [List.foldl_nil, hflag] at hflag'; cases hflag'⟩
  | cons k ks ih =>
    rw [List.forall_mem_cons] at hks
    obtain ⟨hinf, hle, hsize⟩ := ih hks.2 (visit F state k) (h.visit hF)
    refine ⟨hinf, fun j => (le_visit h j).trans (hle j), ?_⟩
    intro hflag hflag'
    have hfirst := size_visit h hks.1 hflag
    have hrest : size l (visit F state k).1 ≤ size l (ks.foldl (visit F) (visit F state k)).1 :=
      Finset.sum_le_sum fun j _ => Finset.card_le_card (hle j)
    rw [List.foldl_cons] at hflag' ⊢
    cases hv : (visit F state k).2 with
    | false =>
      have hlt := hsize hv hflag'
      omega
    | true =>
      rw [hv, Bool.toNat_true] at hfirst
      omega

theorem foldl_flag {ks : List κ} {state : (κ → Finset α) × Bool} (h : (ks.foldl (visit F) state).2 = false) :
    state.2 = false := by
  induction ks generalizing state with
  | nil => exact h
  | cons k ks ih =>
    have hv := ih h
    rwa [← (visit_fst_of_not hv).1]

theorem stable_of_foldl {ks : List κ} {state : (κ → Finset α) × Bool} (h : (ks.foldl (visit F) state).2 = false) :
    ks.foldl (visit F) state = state ∧ ∀ k ∈ ks, F state.1 k = state.1 k := by
  induction ks generalizing state with
  | nil => exact ⟨rfl, by simp⟩
  | cons k ks ih =>
    obtain ⟨heq, hk⟩ := visit_fst_of_not (foldl_flag h)
    rw [List.foldl_cons, heq] at h ⊢
    obtain ⟨hrest, hks⟩ := ih h
    exact ⟨hrest, List.forall_mem_cons.mpr ⟨hk, hks⟩⟩

/-- With sets that stay inside `U`, as many rounds as the sets have room to grow are enough. -/
theorem settle_stable (hF : ∀ s t, (∀ k, s k ⊆ t k) → ∀ k, F s k ⊆ F t k) {U : Finset α}
    (hU : ∀ s, (∀ k, s k ⊆ U) → ∀ k, F s k ⊆ U) (n : Nat) (s : κ → Finset α) (hs : Inflating F s) (hsU : ∀ k, s k ⊆ U)
    (hn : l.toFinset.card * U.card < size l s + n) : ∀ k ∈ l, F (settle F l n s) k = settle F l n s k := by
  have hbound : ∀ t : κ → Finset α, (∀ k, t k ⊆ U) → size l t ≤ l.toFinset.card * U.card := fun t ht => by
    rw [← smul_eq_mul]
    exact Finset.sum_le_card_nsmul _ _ _ fun k _ => Finset.card_le_card (ht k)
  have hinside : ∀ (ks : List κ) (state : (κ → Finset α) × Bool), (∀ k, state.1 k ⊆ U) →
      ∀ k, (ks.foldl (visit F) state).1 k ⊆ U := by
    intro ks
    induction ks with
    | nil => exact fun _ h => h
    | cons k ks ih =>
      intro state h
      apply ih
      intro j
      rw [visit_fst]
      split
      · exact hU _ h k
      · exact h j
  induction n generalizing s with
  | zero =>
    have hle := hbound s hsU
    omega
  | succ n ih =>
    obtain ⟨hinf, -, hsize⟩ := foldl_visit hF (fun _ hk => hk) (s, false) hs (l := l)
    rw [settle]
    split
    · rename_i hflag
      apply ih _ hinf (hinside l _ hsU)
      have hlt : size l s < size l (l.foldl (visit F) (s, false)).1 := hsize rfl hflag
      omega
    · rename_i hflag
      obtain ⟨heq, hstable⟩ := stable_of_foldl (Bool.eq_false_iff.mpr hflag)
      rw [round, heq]
      exact hstable

end Noeta.Lib.RoundRobin
