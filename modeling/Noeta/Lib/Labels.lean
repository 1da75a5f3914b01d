import Mathlib.Logic.Relation
import Mathlib.Data.List.Basic

/-!
# Labels given group by group

Groups of elements are taken one after another. A group takes the label of one of its members that has
one, or else a label nothing has yet, and gives it to the members without one. Elements with one label are
related (`Run.related`) by any equivalence that relates the members of each group; conversely related
elements end with one label exactly if no class has two beginnings (`Run.agreement_iff`).
-/

namespace Labels

variable {α β : Type} [DecidableEq α] {l l' : α → Option β} {g : List α} {gs : List (List α)} {b : β}
  {R : α → α → Prop}

/-- The members of `g` without a label take `b`. -/
def spread (l : α → Option β) (g : List α) (b : β) : α → Option β :=
  fun a => (l a).or (if a ∈ g then some b else none)

inductive Takes (l : α → Option β) (g : List α) (b : β) : Prop
  | shared {a : α} (ha : a ∈ g) (hl : l a = some b)
  | fresh (hnone : ∀ a ∈ g, l a = none) (hnew : ∀ a, l a ≠ some b)

inductive Run : (α → Option β) → List (List α) → (α → Option β) → Prop
  | nil (l : α → Option β) : Run l [] l
  | cons {l l' : α → Option β} {g : List α} {gs : List (List α)} {b : β} (htakes : Takes l g b)
      (hrun : Run (spread l g b) gs l') : Run l (g :: gs) l'

/-- Elements that are related have one label, where both have one. -/
def Agrees (R : α → α → Prop) (l : α → Option β) : Prop :=
  ∀ a a' x y, R a a' → l a = some x → l a' = some y → x = y

/-- The members of each group are related. -/
def Within (R : α → α → Prop) (gs : List (List α)) : Prop := ∀ g ∈ gs, ∀ a ∈ g, ∀ a' ∈ g, R a a'

/-- An element that has a label from the start or is in one of the groups. -/
def Reached (l : α → Option β) (gs : List (List α)) (a : α) : Prop := l a ≠ none ∨ ∃ g ∈ gs, a ∈ g

/-- A group whose members are all new is related to nothing that was reached before it. -/
def Starts (R : α → α → Prop) (l : α → Option β) (gs : List (List α)) : Prop :=
  ∀ before g after, gs = before ++ g :: after → (∀ a ∈ g, ¬ Reached l before a) →
    ∀ a ∈ g, ∀ a', R a a' → ¬ Reached l before a'

theorem spread_of_some {a : α} {x : β} (h : l a = some x) : spread l g b a = some x := by
  rw [spread, h]
  rfl

theorem spread_of_none {a : α} (h : l a = none) : spread l g b a = if a ∈ g then some b else none := by
  rw [spread, h]
  rfl

theorem spread_eq_some {a : α} {x : β} (h : spread l g b a = some x) : l a = some x ∨ a ∈ g ∧ x = b := by
  cases hl : l a with
  | some y =>
    rw [spread_of_some hl] at h
    exact Or.inl h
  | none =>
    rw [spread_of_none hl] at h
    split at h
    · rename_i hmem
      exact Or.inr ⟨hmem, (Option.some.inj h).symm⟩
    · cases h

theorem reached_spread {a : α} {before : List (List α)} :
    Reached (spread l g b) before a ↔ Reached l (g :: before) a := by
  have hlabel : spread l g b a ≠ none ↔ l a ≠ none ∨ a ∈ g := by
    cases hl : l a with
    | some y => simp [spread_of_some hl]
    | none => simp [spread_of_none hl]
  simp only [Reached, hlabel, List.mem_cons, exists_eq_or_imp, or_assoc]

theorem Starts.tail (h : Starts R l (g :: gs)) : Starts R (spread l g b) gs := by
  intro before g' after hgs hnew a ha a' hR
  rw [reached_spread]
  apply h (g :: before) g' after (by rw [hgs]; rfl) _ a ha a' hR
  intro c hc hreached
  exact hnew c hc (reached_spread.mpr hreached)

namespace Run

theorem grows (h : Run l gs l') {a : α} {x : β} (hl : l a = some x) : l' a = some x := by
  induction h with
  | nil l => exact hl
  | cons htakes hrun ih => exact ih (spread_of_some hl)

theorem split {before after : List (List α)} (h : Run l (before ++ after) l') :
    ∃ m, Run l before m ∧ Run m after l' := by
  induction before generalizing l with
  | nil => exact ⟨l, .nil l, h⟩
  | cons g before ih =>
    cases h with
    | cons htakes hrun =>
      obtain ⟨m, hbefore, hafter⟩ := ih hrun
      exact ⟨m, .cons htakes hbefore, hafter⟩

theorem append {m : α → Option β} {hs : List (List α)} (h : Run l gs m) (h' : Run m hs l') :
    Run l (gs ++ hs) l' := by
  induction h with
  | nil l => exact h'
  | cons htakes hrun ih => exact .cons htakes (ih h')

theorem labelled_iff (h : Run l gs l') (a : α) : l' a ≠ none ↔ Reached l gs a := by
  induction h with
  | nil l => simp [Reached]
  | cons htakes hrun ih => rw [ih, reached_spread]

theorem related (h : Run l gs l') (hR : Equivalence R) (hwithin : Within R gs)
    (hl : ∀ a a' x, l a = some x → l a' = some x → R a a') {a a' : α} {x : β} (ha : l' a = some x)
    (ha' : l' a' = some x) : R a a' := by
  induction h with
  | nil l => exact hl a a' x ha ha'
  | @cons l l' g gs b htakes hrun ih =>
    apply ih (fun g' hg' => hwithin g' (List.mem_cons_of_mem _ hg')) _ ha ha'
    -- a member of the group is related to whatever had the label it takes
    have hgroup : ∀ c c', c ∈ g → l c' = some b → R c c' := by
      intro c c' hc hc'
      cases htakes with
      | @shared d hd hld => exact hR.trans (hwithin g (by simp) c hc d hd) (hl d c' b hld hc')
      | fresh hnone hnew => exact absurd hc' (hnew c')
    intro c c' y hc hc'
    obtain hold | ⟨hmem, hy⟩ := spread_eq_some hc
    · obtain hold' | ⟨hmem', rfl⟩ := spread_eq_some hc'
      · exact hl c c' y hold hold'
      · exact hR.symm (hgroup c' c hmem' hold)
    · obtain hold' | ⟨hmem', _⟩ := spread_eq_some hc'
      · rw [hy] at hold'
        exact hgroup c c' hmem hold'
      · exact hwithin g (by simp) c hmem c' hmem'

theorem agrees (h : Run l gs l') (hR : Equivalence R) (hwithin : Within R gs) (hl : Agrees R l)
    (hstarts : Starts R l gs) : Agrees R l' := by
  induction h with
  | nil l => exact hl
  | @cons l l' g gs b htakes hrun ih =>
    apply ih (fun g' hg' => hwithin g' (List.mem_cons_of_mem _ hg')) _ hstarts.tail
    -- a labelled element that is related to a member has the label the group takes
    have hgroup : ∀ c c' y, c ∈ g → l c' = some y → R c c' → y = b := by
      intro c c' y hc hc' hcc'
      cases htakes with
      | @shared d hd hld =>
        exact (hl d c' b y (hR.trans (hwithin g (by simp) d hd c hc) hcc') hld hc').symm
      | fresh hnone hnew =>
        have hnot := hstarts [] g gs rfl (fun d hd => by simp [Reached, hnone d hd]) c hc c' hcc'
        simp [Reached, hc'] at hnot
    intro c c' x y hcc' hc hc'
    obtain hold | ⟨hmem, rfl⟩ := spread_eq_some hc
    · obtain hold' | ⟨hmem', rfl⟩ := spread_eq_some hc'
      · exact hl c c' x y hcc' hold hold'
      · exact hgroup c' c x hmem' hold (hR.symm hcc')
    · obtain hold' | ⟨hmem', rfl⟩ := spread_eq_some hc'
      · exact (hgroup c c' y hmem hold' hcc').symm
      · rfl

theorem starts (h : Run l gs l') (hagrees : Agrees R l') : Starts R l gs := by
  intro before g after hgs hnew a ha a' hR hreached
  rw [hgs] at h
  obtain ⟨m, hbefore, hrest⟩ := h.split
  cases hrest with
  | @cons _ _ _ _ b htakes hafter =>
    have hnone : ∀ c ∈ g, m c = none := by
      intro c hc
      by_contra hlabel
      exact hnew c hc ((hbefore.labelled_iff c).mp hlabel)
    obtain ⟨y, hy⟩ := Option.ne_none_iff_exists'.mp ((hbefore.labelled_iff a').mpr hreached)
    cases htakes with
    | @shared d hd hld =>
      rw [hnone d hd] at hld
      cases hld
    | fresh _ hfresh =>
      have hlabel : spread m g b a = some b := by
        rw [spread_of_none (hnone a ha), if_pos ha]
      have heq := hagrees a a' b y hR (hafter.grows hlabel) (hafter.grows (spread_of_some hy))
      rw [heq] at hfresh
      exact hfresh a' hy

theorem agreement_iff (h : Run l gs l') (hR : Equivalence R) (hwithin : Within R gs) :
    Agrees R l' ↔ Agrees R l ∧ Starts R l gs := by
  constructor
  · intro hagrees
    refine ⟨?_, h.starts hagrees⟩
    intro a a' x y hcc' hx hy
    exact hagrees a a' x y hcc' (h.grows hx) (h.grows hy)
  · rintro ⟨hl, hstarts⟩
    exact h.agrees hR hwithin hl hstarts

end Run

end Labels
