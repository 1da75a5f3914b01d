import Mathlib.Data.List.Basic

/-!
# Striking marks until nothing changes

A state carries marks on keys. A loop visits a list of items over and over, strikes the mark of an
item that a rule refuses, and stops after a round that struck nothing. When the rule refuses more the
fewer marks there are, the marks left are the greatest ones the rule accepts, whatever the order of
the visits.
-/

namespace Noeta.Lib

/-- What the loop works with: the marks of a state, the key of an item, the rule, and the strike. -/
structure Striker (σ α κ : Type) [DecidableEq κ] where
  marks : σ → κ → Bool
  key : α → κ
  refuses : σ → α → Bool
  strike : σ → α → σ
  strike_marks : ∀ s x k, refuses s x = true → marks s (key x) = true →
    marks (strike s x) k = (marks s k && decide (k ≠ key x))
  refuses_mono : ∀ s u x, (∀ k, marks u k = true → marks s k = true) → refuses s x = true →
    refuses u x = true

namespace Striker

variable {σ α κ : Type} [DecidableEq κ] (S : Striker σ α κ)

/-- One visit, with the flag that says whether a mark was struck in this round. -/
def visit (state : σ × Bool) (x : α) : σ × Bool :=
  if S.marks state.1 (S.key x) && S.refuses state.1 x then (S.strike state.1 x, true) else state

/-- One round. -/
def round (l : List α) (s : σ) : σ × Bool :=
  l.foldl S.visit (s, false)

/-- Rounds until one strikes nothing. -/
def settle (l : List α) : Nat → σ → σ
  | 0, s => s
  | n + 1, s => if (S.round l s).2 then settle l n (S.round l s).1 else (S.round l s).1

/-- The rule accepts every mark on an item of the list. -/
def Accepted (l : List α) (s : σ) : Prop :=
  ∀ x ∈ l, S.marks s (S.key x) = true → S.refuses s x = false

/-- The marks of one state are among those of another. -/
def Le (u s : σ) : Prop := ∀ k, S.marks u k = true → S.marks s k = true

/-- The marks on the items of a list. -/
def marked (l : List α) (s : σ) : Nat := (l.filter fun x => S.marks s (S.key x)).length

variable {S} {l : List α} {s u : σ}

theorem Le.refl (s : σ) : S.Le s s := fun _ h => h

theorem Le.trans {t : σ} (h : S.Le u s) (h' : S.Le s t) : S.Le u t := fun k hk => h' k (h k hk)

theorem visit_le (state : σ × Bool) (x : α) : S.Le (S.visit state x).1 state.1 := by
  intro k hk
  unfold visit at hk
  split at hk
  · rename_i hstrike
    rw [Bool.and_eq_true] at hstrike
    rw [S.strike_marks _ _ _ hstrike.2 hstrike.1, Bool.and_eq_true] at hk
    exact hk.1
  · exact hk

theorem le_visit (hu : S.Accepted l u) {state : σ × Bool} (h : S.Le u state.1) {x : α} (hx : x ∈ l) :
    S.Le u (S.visit state x).1 := by
  intro k hk
  unfold visit
  split
  · rename_i hstrike
    rw [Bool.and_eq_true] at hstrike
    rw [S.strike_marks _ _ _ hstrike.2 hstrike.1, h k hk, Bool.true_and, decide_eq_true_eq]
    intro heq
    subst heq
    have hrefused := S.refuses_mono _ _ _ h hstrike.2
    rw [hu x hx hk] at hrefused
    exact Bool.noConfusion hrefused
  · exact h k hk

theorem foldl_visit_le (l : List α) : ∀ state : σ × Bool, S.Le (l.foldl S.visit state).1 state.1 := by
  induction l with
  | nil => exact fun state => Le.refl _
  | cons x l ih => exact fun state => (ih (S.visit state x)).trans (visit_le state x)

theorem le_foldl_visit (hu : S.Accepted l u) : ∀ (items : List α), (∀ x ∈ items, x ∈ l) →
    ∀ state : σ × Bool, S.Le u state.1 → S.Le u (items.foldl S.visit state).1 := by
  intro items
  induction items with
  | nil => exact fun _ state h => h
  | cons x items ih =>
    intro hitems state h
    exact ih (fun y hy => hitems y (by simp [hy])) _ (le_visit hu h (hitems x (by simp)))

theorem foldl_visit_flag (l : List α) : ∀ s : σ, (l.foldl S.visit (s, true)).2 = true := by
  induction l with
  | nil => exact fun s => rfl
  | cons x l ih =>
    intro s
    rw [List.foldl_cons]
    by_cases hstrike : (S.marks s (S.key x) && S.refuses s x) = true
    · rw [visit, if_pos hstrike]
      exact ih _
    · rw [visit, if_neg hstrike]
      exact ih s

theorem round_quiet (l : List α) : ∀ s : σ, (l.foldl S.visit (s, false)).2 = false →
    (l.foldl S.visit (s, false)).1 = s ∧ S.Accepted l s := by
  induction l with
  | nil => exact fun s _ => ⟨rfl, fun x hx => absurd hx (by simp)⟩
  | cons x l ih =>
    intro s hquiet
    rw [List.foldl_cons] at hquiet ⊢
    by_cases hstrike : (S.marks s (S.key x) && S.refuses s x) = true
    · rw [visit, if_pos hstrike, foldl_visit_flag] at hquiet
      exact Bool.noConfusion hquiet
    · rw [visit, if_neg hstrike] at hquiet ⊢
      obtain ⟨hsame, haccepted⟩ := ih s hquiet
      refine ⟨hsame, fun y hy hmark => ?_⟩
      obtain rfl | hy := List.mem_cons.1 hy
      · simpa [hmark] using hstrike
      · exact haccepted y hy hmark

theorem marked_lt (hle : S.Le u s) {x : α} (hx : x ∈ l) (hs : S.marks s (S.key x) = true)
    (hu : S.marks u (S.key x) = false) : S.marked l u < S.marked l s := by
  have hsub : l.filter (fun y => S.marks u (S.key y)) =
      (l.filter fun y => S.marks s (S.key y)).filter fun y => S.marks u (S.key y) := by
    rw [List.filter_filter]
    apply List.filter_congr
    intro y _
    cases hmark : S.marks u (S.key y) with
    | false => rfl
    | true => simp [hle _ hmark]
  unfold marked
  rw [hsub]
  apply List.length_filter_lt_length_iff_exists.2
  exact ⟨x, List.mem_filter.2 ⟨hx, hs⟩, by simp [hu]⟩

theorem round_busy : ∀ (items : List α), (∀ x ∈ items, x ∈ l) → ∀ s : σ,
    (items.foldl S.visit (s, false)).2 = true →
      S.marked l (items.foldl S.visit (s, false)).1 < S.marked l s := by
  intro items
  induction items with
  | nil =>
    intro _ s hbusy
    exact Bool.noConfusion hbusy
  | cons x items ih =>
    intro hitems s hbusy
    rw [List.foldl_cons] at hbusy ⊢
    by_cases hstrike : (S.marks s (S.key x) && S.refuses s x) = true
    · rw [visit, if_pos hstrike]
      rw [Bool.and_eq_true] at hstrike
      have hgone : S.marks (items.foldl S.visit (S.strike s x, true)).1 (S.key x) = false := by
        by_contra hmark
        have hmark := foldl_visit_le items (S.strike s x, true) _ (by simpa using hmark)
        simp [S.strike_marks _ _ _ hstrike.2 hstrike.1] at hmark
      have hle : S.Le (items.foldl S.visit (S.strike s x, true)).1 s := by
        have h : S.Le (S.visit (s, false) x).1 s := visit_le (s, false) x
        rw [visit, if_pos (by simpa using hstrike)] at h
        exact (foldl_visit_le items _).trans h
      exact marked_lt hle (hitems x (by simp)) hstrike.1 hgone
    · rw [visit, if_neg hstrike] at hbusy ⊢
      exact ih (fun y hy => hitems y (by simp [hy])) s hbusy

theorem settle_invariant {I : σ → Prop} (hvisit : ∀ (state : σ × Bool), ∀ x ∈ l, I state.1 →
    I (S.visit state x).1) : ∀ (n : Nat) (s : σ), I s → I (S.settle l n s) := by
  have hfold : ∀ items : List α, (∀ x ∈ items, x ∈ l) → ∀ state : σ × Bool, I state.1 →
      I (items.foldl S.visit state).1 := by
    intro items
    induction items with
    | nil => exact fun _ state h => h
    | cons x items ih =>
      intro hitems state h
      exact ih (fun y hy => hitems y (by simp [hy])) _ (hvisit state x (hitems x (by simp)) h)
  have hround : ∀ s : σ, I s → I (S.round l s).1 := fun s h => hfold l (fun _ h => h) (s, false) h
  intro n
  induction n with
  | zero => exact fun s h => h
  | succ n ih =>
    intro s h
    rw [settle]
    split
    · exact ih _ (hround s h)
    · exact hround s h

theorem settle_spec (l : List α) : ∀ (n : Nat) (s : σ), S.marked l s < n →
    S.Accepted l (S.settle l n s) ∧ S.Le (S.settle l n s) s ∧
      ∀ u, S.Accepted l u → S.Le u s → S.Le u (S.settle l n s) := by
  intro n
  induction n with
  | zero => exact fun s h => absurd h (Nat.not_lt_zero _)
  | succ n ih =>
    intro s hfuel
    have hround : S.Le (S.round l s).1 s := foldl_visit_le l (s, false)
    have hgreatest : ∀ u, S.Accepted l u → S.Le u s → S.Le u (S.round l s).1 := fun u hu hle =>
      le_foldl_visit hu l (fun _ h => h) (s, false) hle
    rw [settle]
    cases hflag : (S.round l s).2 with
    | true =>
      have hless := round_busy l (fun _ h => h) s hflag
      obtain ⟨haccepted, hle, hgreatest'⟩ := ih (S.round l s).1 (by unfold round; omega)
      exact ⟨haccepted, hle.trans hround, fun u hu h => hgreatest' u hu (hgreatest u hu h)⟩
    | false =>
      obtain ⟨hsame, haccepted⟩ := round_quiet l s hflag
      refine ⟨?_, hround, hgreatest⟩
      rw [if_neg (by simp), round, hsame]
      exact haccepted

end Striker

end Noeta.Lib
