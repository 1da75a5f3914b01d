import Mathlib.Data.List.Basic

/-!
# Joining a list pairwise

A pairwise join answers the upper one of two elements, a common wide element where both are of the
narrow kind, and otherwise nothing. Folded over a list it goes through upper bounds of what it has
seen. Every order of a list succeeds when every two of its elements join; some order succeeds when
one of its elements is above the others; and any two orders that succeed end at the same height.
-/

namespace Noeta.Lib

/-- What a pairwise join asks: the order, which elements are of the narrow kind, and what two of
these widen to. -/
structure Joiner (α : Type) where
  below : α → α → Bool
  narrow : α → Bool
  wide : α

namespace Joiner

variable {α : Type} (J : Joiner α)

def join (a b : α) : Option α :=
  if J.below b a then some a
  else if J.below a b then some b
  else if J.narrow a && J.narrow b then some J.wide
  else none

/-- The two elements have a join. -/
def Comparable (a b : α) : Prop :=
  J.below b a = true ∨ J.below a b = true ∨ (J.narrow a = true ∧ J.narrow b = true)

/-- In a list with these elements, `a` reaches `b`: from below, or by widening. -/
def Under (l : List α) (a b : α) : Prop :=
  J.below a b = true ∨ (J.narrow a = true ∧ J.wide ∈ l ∧ J.below J.wide b = true)

/-- An element every other one reaches. -/
def HasTop (l : List α) : Prop :=
  ∃ t ∈ l, ∀ e ∈ l, J.Under l e t

/-- The order is one on the elements of the list, and the narrow kind sits at its bottom. -/
structure Lawful (l : List α) : Prop where
  refl : ∀ a, J.below a a = true
  trans : ∀ a ∈ l, ∀ b ∈ l, ∀ c ∈ l, J.below a b = true → J.below b c = true → J.below a c = true
  narrow_wide : J.narrow J.wide = true
  /-- Two elements of the narrow kind that differ are the wide one and another. -/
  widens : ∀ a ∈ l, ∀ b ∈ l, J.narrow a = true → J.narrow b = true →
    J.below a b = true ∨ a = J.wide ∨ b = J.wide
  /-- Only the wide element is above the wide element within the narrow kind. -/
  highest : ∀ a ∈ l, J.narrow a = true → J.below J.wide a = true → J.below a J.wide = true
  under_narrow : ∀ a ∈ l, ∀ b ∈ l, J.narrow b = true → J.below a b = true →
    J.narrow a = true ∨ J.below a J.wide = true

variable {J}

theorem join_isSome {a b : α} : (J.join a b).isSome ↔ J.Comparable a b := by
  simp only [join, Comparable]
  split
  · simp [*]
  · split
    · simp [*]
    · split <;> simp_all

variable {l l' seen rest : List α} {acc j : α}

theorem Lawful.mono (h : J.Lawful l) (hl : ∀ x ∈ l', x ∈ l) : J.Lawful l' := by
  refine ⟨h.refl, ?_, h.narrow_wide, ?_, ?_, ?_⟩
  · intro a ha b hb c hc
    exact h.trans a (hl a ha) b (hl b hb) c (hl c hc)
  · intro a ha b hb
    exact h.widens a (hl a ha) b (hl b hb)
  · intro a ha
    exact h.highest a (hl a ha)
  · intro a ha b hb
    exact h.under_narrow a (hl a ha) b (hl b hb)

theorem Under.mono {a b : α} (h : J.Under l a b) (hl : ∀ x ∈ l, x ∈ l') : J.Under l' a b := by
  rcases h with h | ⟨hn, hw, hb⟩
  · exact .inl h
  · exact .inr ⟨hn, hl _ hw, hb⟩

theorem Under.trans_below {a b c : α} (hl : J.Lawful l) (ha : a ∈ l) (hb : b ∈ l)
    (hc : c ∈ l) (h : J.Under l a b) (hbc : J.below b c = true) : J.Under l a c := by
  rcases h with h | ⟨hn, hw, h⟩
  · exact .inl (hl.trans a ha b hb c hc h hbc)
  · exact .inr ⟨hn, hw, hl.trans _ hw b hb c hc h hbc⟩

theorem Under.to_wide {a b : α} (hl : J.Lawful l) (ha : a ∈ l) (hb : b ∈ l)
    (hw : J.wide ∈ l) (hn : J.narrow b = true) (h : J.Under l a b) : J.Under l a J.wide := by
  have hrefl : J.below J.wide J.wide = true := hl.refl _
  rcases h with h | ⟨hna, -, -⟩
  · rcases hl.under_narrow a ha b hb hn h with hna | hbelow
    · exact .inr ⟨hna, hw, hrefl⟩
    · exact .inl hbelow
  · exact .inr ⟨hna, hw, hrefl⟩

/-! ## One step of the fold -/

/-- The running element was met already, and all that was met reaches it. -/
structure Collected (J : Joiner α) (seen : List α) (acc : α) : Prop where
  mem : acc ∈ seen
  under : ∀ e ∈ seen, J.Under seen e acc

theorem Collected.single {a : α} (h : J.below a a = true) : Collected J [a] a := by
  refine ⟨by simp, ?_⟩
  intro e he
  rw [List.mem_singleton] at he
  subst he
  exact .inl h

theorem Collected.join {acc next acc' : α} (hl : J.Lawful (seen ++ [next]))
    (h : Collected J seen acc) (hj : J.join acc next = some acc') :
    Collected J (seen ++ [next]) acc' := by
  have hold : ∀ e ∈ seen, e ∈ seen ++ [next] := fun e he => List.mem_append_left _ he
  have hnext : next ∈ seen ++ [next] := by simp
  have hacc := hold acc h.mem
  have hunder : ∀ e ∈ seen, J.Under (seen ++ [next]) e acc := fun e he => (h.under e he).mono hold
  -- an answer that everything met so far reaches, and the new element too
  have hcollect : ∀ j, j ∈ seen ++ [next] → (∀ e ∈ seen, J.Under (seen ++ [next]) e j) →
      J.Under (seen ++ [next]) next j → Collected J (seen ++ [next]) j := by
    intro j hj hseen hn
    refine ⟨hj, ?_⟩
    intro e he
    rcases List.mem_append.1 he with he | he
    · exact hseen e he
    · rw [List.mem_singleton] at he
      exact he ▸ hn
  unfold Joiner.join at hj
  split at hj
  · rename_i hbelow
    obtain rfl := Option.some.inj hj
    exact hcollect acc hacc hunder (.inl hbelow)
  · rename_i hnot
    split at hj
    · rename_i hbelow
      obtain rfl := Option.some.inj hj
      refine hcollect next hnext ?_ (.inl (hl.refl _))
      intro e he
      exact (hunder e he).trans_below hl (hold e he) hacc hnext hbelow
    · rename_i hnot'
      split at hj
      · rename_i hn
        obtain rfl := Option.some.inj hj
        rw [Bool.and_eq_true] at hn
        have hwide : J.wide ∈ seen ++ [next] := by
          rcases hl.widens acc hacc next hnext hn.1 hn.2 with hb | hw | hw
          · exact absurd hb hnot'
          · exact hw ▸ hacc
          · exact hw ▸ hnext
        refine hcollect J.wide hwide ?_ (.inr ⟨hn.2, hwide, hl.refl _⟩)
        intro e he
        exact (hunder e he).to_wide hl (hold e he) hacc hwide hn.1
      · cases hj

/-! ## The whole fold -/

/-- Fold the join from a first element. -/
def joinFrom (J : Joiner α) (acc : α) (rest : List α) : Option α :=
  rest.foldlM J.join acc

theorem joinFrom_cons {acc next : α} :
    J.joinFrom acc (next :: rest) = (J.join acc next).bind fun acc' => J.joinFrom acc' rest := by
  simp [joinFrom]

theorem joinFrom_append {l r : List α} :
    J.joinFrom acc (l ++ r) = (J.joinFrom acc l).bind fun acc' => J.joinFrom acc' r := by
  simp [joinFrom]

theorem Collected.joinFrom (hl : J.Lawful (seen ++ rest))
    (h : Collected J seen acc) (hj : J.joinFrom acc rest = some j) :
    Collected J (seen ++ rest) j := by
  induction rest generalizing seen acc with
  | nil =>
    obtain rfl := Option.some.inj hj
    simpa using h
  | cons next rest ih =>
    rw [joinFrom_cons] at hj
    obtain ⟨acc', hstep, hrest⟩ := Option.bind_eq_some_iff.1 hj
    have hsplit : seen ++ next :: rest = (seen ++ [next]) ++ rest := by simp
    rw [hsplit] at hl ⊢
    have hpart : J.Lawful (seen ++ [next]) := hl.mono fun x hx => List.mem_append_left _ hx
    exact ih hl (h.join hpart hstep) hrest

/-- The join of a list, `none` where two elements on the way have none. -/
def joinAll (J : Joiner α) : List α → Option α
  | [] => none
  | first :: rest => J.joinFrom first rest

theorem joinAll_collected (hl : J.Lawful l) (hj : J.joinAll l = some j) : Collected J l j := by
  cases l with
  | nil => cases hj
  | cons first rest => exact Collected.joinFrom hl (Collected.single (hl.refl first)) hj

theorem below_of_tops {j j' : α} (hl : J.Lawful l) (h : Collected J l j)
    (h' : Collected J l j') : J.below j j' = true := by
  rcases h'.under j h.mem with hb | ⟨hn, hw, hwide⟩
  · exact hb
  · have hback : J.below J.wide j = true := by
      rcases h.under J.wide hw with hb | ⟨-, -, hb⟩
      · exact hb
      · exact hb
    exact hl.trans j h.mem _ hw j' h'.mem (hl.highest j h.mem hn hback) hwide

theorem Collected.of_perm (h : Collected J l' j) (hp : l'.Perm l) : Collected J l j :=
  ⟨hp.mem_iff.1 h.mem, fun e he => (h.under e (hp.mem_iff.2 he)).mono fun _ hx => hp.mem_iff.1 hx⟩

theorem below_of_perm {j j' : α} (hl : J.Lawful l) (hp : l'.Perm l)
    (hj : J.joinAll l = some j) (hj' : J.joinAll l' = some j') :
    J.below j j' = true ∧ J.below j' j = true := by
  have h := joinAll_collected hl hj
  have h' := (joinAll_collected (hl.mono fun _ hx => hp.mem_iff.1 hx) hj').of_perm hp
  exact ⟨below_of_tops hl h h', below_of_tops hl h' h⟩

/-! ## Which orders succeed -/

theorem joinFrom_isSome (hl : J.Lawful (seen ++ rest)) (h : Collected J seen acc)
    (hpairs : ∀ a ∈ seen ++ rest, ∀ b ∈ seen ++ rest, J.Comparable a b) :
    (J.joinFrom acc rest).isSome := by
  induction rest generalizing seen acc with
  | nil => rfl
  | cons next rest ih =>
    have hstep : (J.join acc next).isSome :=
      join_isSome.2 (hpairs acc (List.mem_append_left _ h.mem) next (by simp))
    obtain ⟨acc', hacc'⟩ := Option.isSome_iff_exists.1 hstep
    have hsplit : seen ++ next :: rest = (seen ++ [next]) ++ rest := by simp
    rw [hsplit] at hl hpairs
    rw [joinFrom_cons, hacc']
    exact ih hl (h.join (hl.mono fun x hx => List.mem_append_left _ hx) hacc') hpairs

theorem joinAll_isSome (hl : J.Lawful l) (hne : l ≠ [])
    (hpairs : ∀ a ∈ l, ∀ b ∈ l, J.Comparable a b) : (J.joinAll l).isSome := by
  cases l with
  | nil => exact absurd rfl hne
  | cons first rest => exact joinFrom_isSome hl (Collected.single (hl.refl first)) hpairs

theorem joinAll_eq_none {a b : α} (h : ¬ J.Comparable a b) : J.joinAll (a :: b :: rest) = none := by
  have hnone : J.join a b = none := by
    rw [← Option.not_isSome_iff_eq_none, join_isSome]
    exact h
  simp [joinAll, joinFrom_cons, hnone]

theorem joinFrom_absorb (h : ∀ e ∈ rest, J.below e acc = true) :
    J.joinFrom acc rest = some acc := by
  induction rest with
  | nil => rfl
  | cons next rest ih =>
    have hstep : J.join acc next = some acc := if_pos (h next (by simp))
    rw [joinFrom_cons, hstep]
    exact ih fun e he => h e (by simp [he])

theorem joinFrom_narrow (hl : J.Lawful l) (hrest : ∀ e ∈ rest, e ∈ l)
    (hn : ∀ e ∈ rest, J.narrow e = true) : J.joinFrom J.wide rest = some J.wide := by
  induction rest with
  | nil => rfl
  | cons next rest ih =>
    have hnext := hn next (by simp)
    have hstep : J.join J.wide next = some J.wide := by
      unfold join
      split
      · rfl
      · rename_i hnot
        split
        · rename_i hup
          exact absurd (hl.highest next (hrest next (by simp)) hnext hup) hnot
        · rw [hl.narrow_wide, hnext]
          rfl
    rw [joinFrom_cons, hstep]
    exact ih (fun e he => hrest e (by simp [he])) fun e he => hn e (by simp [he])

/-- The wide element first, then the narrow kind, then the top, then the rest. -/
theorem exists_order_widening [DecidableEq α] {t : α} (hl : J.Lawful l) (ht : t ∈ l)
    (htop : ∀ e ∈ l, J.Under l e t) (hw : J.wide ∈ l) (hwt : J.below J.wide t = true) :
    ∃ l' j, l'.Perm l ∧ J.joinAll l' = some j := by
  have hsplit := List.filter_append_perm J.narrow (l.erase J.wide)
  set narrows := (l.erase J.wide).filter J.narrow with hnarrows
  set others := (l.erase J.wide).filter fun e => !J.narrow e with hothers
  have hwhole : (J.wide :: (narrows ++ others)).Perm l :=
    (List.Perm.cons J.wide hsplit).trans (List.perm_cons_erase hw).symm
  have hmem : ∀ e ∈ narrows ++ others, e ∈ l := fun e he =>
    hwhole.mem_iff.1 (List.mem_cons_of_mem _ he)
  have hbelow : ∀ e ∈ others, J.below e t = true := by
    intro e he
    have hnot : J.narrow e = false := by simpa using (List.mem_filter.1 he).2
    rcases htop e (hmem e (List.mem_append_right _ he)) with hb | ⟨hn, -⟩
    · exact hb
    · rw [hn] at hnot
      cases hnot
  have hfirst : J.joinFrom J.wide narrows = some J.wide :=
    joinFrom_narrow hl (fun e he => hmem e (List.mem_append_left _ he))
      fun e he => (List.mem_filter.1 he).2
  by_cases hback : J.below t J.wide = true
  · refine ⟨J.wide :: (narrows ++ others), J.wide, hwhole, ?_⟩
    rw [joinAll, joinFrom_append, hfirst]
    apply joinFrom_absorb
    intro e he
    exact hl.trans e (hmem e (List.mem_append_right _ he)) t ht _ hw (hbelow e he) hback
  · -- the top is not of the narrow kind, so it is among the others
    have hnarrow : J.narrow t = false := by
      by_contra hn
      exact hback (hl.highest t ht (by simpa using hn) hwt)
    have hother : t ∈ others := by
      refine List.mem_filter.2 ⟨?_, by simp [hnarrow]⟩
      refine (List.mem_erase_of_ne ?_).2 ht
      rintro rfl
      exact hback (hl.refl _)
    have hperm := (List.perm_cons_erase hother).symm
    refine ⟨J.wide :: (narrows ++ t :: others.erase t), t,
      ((hperm.append_left narrows).cons J.wide).trans hwhole, ?_⟩
    have hup : J.join J.wide t = some t := by
      unfold join
      rw [if_neg hback, if_pos hwt]
    rw [joinAll, joinFrom_append, hfirst, Option.bind_some, joinFrom_cons, hup]
    exact joinFrom_absorb fun e he => hbelow e (List.mem_of_mem_erase he)

theorem exists_order_of_top [DecidableEq α] (hl : J.Lawful l) (h : J.HasTop l) :
    ∃ l' j, l'.Perm l ∧ J.joinAll l' = some j := by
  obtain ⟨t, ht, htop⟩ := h
  by_cases hall : ∀ e ∈ l, J.below e t = true
  · refine ⟨t :: l.erase t, t, (List.perm_cons_erase ht).symm, ?_⟩
    exact joinFrom_absorb fun e he => hall e (List.mem_of_mem_erase he)
  · push Not at hall
    obtain ⟨e, he, hnot⟩ := hall
    rcases htop e he with hb | ⟨-, hw, hwt⟩
    · exact absurd hb hnot
    · exact exists_order_widening hl ht htop hw hwt

theorem hasTop_of_joinAll (hl : J.Lawful l) (hp : l'.Perm l)
    (hj : J.joinAll l' = some j) : J.HasTop l := by
  have h := (joinAll_collected (hl.mono fun _ hx => hp.mem_iff.1 hx) hj).of_perm hp
  exact ⟨j, h.mem, h.under⟩

/-- **Every order of a list succeeds or none does** exactly when every two elements join or none is
reached by all the others. -/
theorem orders_agree_iff [DecidableEq α] (hl : J.Lawful l) :
    (∀ l', l'.Perm l → ((J.joinAll l').isSome ↔ (J.joinAll l).isSome)) ↔
      (∀ a ∈ l, ∀ b ∈ l, J.Comparable a b) ∨ ¬ J.HasTop l := by
  constructor
  · intro h
    by_contra hnot
    push Not at hnot
    obtain ⟨⟨a, ha, b, hb, hab⟩, htop⟩ := hnot
    obtain ⟨good, j, hgood, hj⟩ := exists_order_of_top hl htop
    have hne : b ≠ a := by
      rintro rfl
      exact hab (.inl (hl.refl _))
    have hbad : (a :: b :: (l.erase a).erase b).Perm l :=
      ((List.perm_cons_erase ((List.mem_erase_of_ne hne).2 hb)).symm.cons a).trans
        (List.perm_cons_erase ha).symm
    have hsome : (J.joinAll (a :: b :: (l.erase a).erase b)).isSome :=
      (h _ hbad).2 ((h good hgood).1 (by rw [hj]; rfl))
    rw [joinAll_eq_none hab] at hsome
    cases hsome
  · rintro (hpairs | hnone) l' hp
    · by_cases hnil : l = []
      · subst hnil
        rw [List.perm_nil.1 hp]
      · have hnil' : l' ≠ [] := by
          rintro rfl
          exact hnil (List.nil_perm.1 hp)
        have hpairs' : ∀ a ∈ l', ∀ b ∈ l', J.Comparable a b := fun a ha b hb =>
          hpairs a (hp.mem_iff.1 ha) b (hp.mem_iff.1 hb)
        have hl' : J.Lawful l' := hl.mono fun _ hx => hp.mem_iff.1 hx
        exact iff_of_true (joinAll_isSome hl' hnil' hpairs') (joinAll_isSome hl hnil hpairs)
    · have hstuck : ∀ l'', l''.Perm l → ¬ (J.joinAll l'').isSome := by
        intro l'' hp'' hsome
        obtain ⟨j, hj⟩ := Option.isSome_iff_exists.1 hsome
        exact hnone (hasTop_of_joinAll hl hp'' hj)
      exact iff_of_false (hstuck l' hp) (hstuck l (List.Perm.refl l))

end Joiner

end Noeta.Lib
