import Noeta.Lib.Dfs
import Noeta.Gc.Graph

/-!
# Trial deletion: the mark phase

`markGray` is a `Dfs.Walk` over the counted references that paints gray and decrements across every edge.
The loop over the candidate buffer leaves exactly the objects reachable from a purple candidate gray, each
count down by the edges from those objects (`MarkLoop`), and puts aside as deferred every candidate that
was not purple when its turn came: the released ones, and also each purple candidate that an earlier
purple candidate reaches (`Stale`).
-/

namespace Noeta

open Relation Dfs

namespace Heap

/-! ### `markGray` as a walk -/

/-- The walk behind `markGray`, over the references of `h₀`. -/
def markWalk (h₀ : Heap) : Walk Heap Addr where
  kids := h₀.kids
  pending h a := decide (h.Allocated a) && h.color a != .gray
  enter h a := h.setColor a .gray
  cross h c := h.rcDec c

theorem markGray_eq_run (h₀ : Heap) (n : Nat) (h : Heap) (s : Addr) (hs : SameGraph h₀ h) :
    markGray n h s = h₀.markWalk.run n h s ∧ SameGraph h₀ (markGray n h s) := by
  induction n generalizing h s with
  | zero => exact ⟨rfl, hs⟩
  | succ n ih =>
    rw [markGray, Walk.run]
    by_cases hgray : h.color s = .gray
    · simp [markWalk, hgray, hs]
    rw [if_neg hgray]
    by_cases ha : h.Allocated s
    · rw [if_pos (by simp [markWalk, ha, hgray]), hs.children_eq]
      refine Walk.foldl_filter_eq (fun h c hs hc => ?_) (fun h c hs hc => ?_) _ _ (hs.trans (.setColor h s _))
      · rw [hs.isShared_eq, if_pos (by simpa using hc)]
      · rw [hs.isShared_eq, if_neg (by simpa using hc)]
        exact ih (h.rcDec c) c (hs.trans (.rcDec h c))
    · -- an empty slot has no children and keeps its colour
      have hnp : h₀.markWalk.pending h s = false := by simp [markWalk, ha]
      rw [if_neg (by simp [hnp]), children_of_not_allocated ha, List.foldl_nil, setColor, modifyHeader,
        modify_of_not_allocated ha]
      exact ⟨rfl, hs⟩

/-- The account of the mark phase: gray on the entered objects, one decrement for each crossed edge. -/
structure MarkAcc (h₀ : Heap) (buf : Addr → Bool) (h : Heap) (E : Finset Addr) (C : Multiset Addr) :
    Prop where
  same : SameGraph h₀ h
  candidates : h.candidates = []
  entered : E ⊆ h₀.dom
  color : ∀ a, h.color a = if a ∈ E then .gray else h₀.color a
  refcount : ∀ a, h.refcount a = h₀.refcount a - C.count a
  buffered : ∀ a, h.buffered a = buf a

theorem markWalk_account {h₀ : Heap} (hrest : ∀ a, h₀.color a ≠ .gray) (buf : Addr → Bool) :
    Walk.Account h₀.markWalk h₀.Allocated (MarkAcc h₀ buf) := by
  refine ⟨fun {h E C v} hR => ?_, fun {h E C v} hR hp => ?_, fun {h E C c} hR => ?_⟩
  · have hcol := hR.color v
    by_cases hv : v ∈ E
    · simp [markWalk, hcol, hv]
    · simp [markWalk, hcol, hv, hR.same.allocated_iff, hrest v]
  · have hal : h₀.Allocated v := by
      simp only [markWalk, Bool.and_eq_true, decide_eq_true_eq] at hp
      exact (hR.same.allocated_iff v).mp hp.1
    refine ⟨hR.same.trans (.setColor h v _), hR.candidates, ?_, fun a => ?_, fun a => ?_, fun a => ?_⟩
    · exact Finset.insert_subset (mem_dom.mpr hal) hR.entered
    · show (h.setColor v .gray).color a = _
      have hal' : h.Allocated v := (hR.same.allocated_iff v).mpr hal
      rw [color_setColor, hR.color a]
      by_cases hav : v = a
      · subst hav
        simp [hal']
      · simp [hav, Ne.symm hav]
    · exact (refcount_setColor h v a _).trans (hR.refcount a)
    · exact (buffered_setColor h v a _).trans (hR.buffered a)
  · refine ⟨hR.same.trans (.rcDec h c), hR.candidates, hR.entered, fun a => ?_, fun a => ?_, fun a => ?_⟩
    · exact (color_rcDec h c a).trans (hR.color a)
    · show (h.rcDec c).refcount a = _
      rw [refcount_rcDec, hR.refcount a, Multiset.count_cons]
      by_cases hca : c = a
      · subst hca
        simp only [if_true]
        omega
      · simp [hca, Ne.symm hca]
    · exact (buffered_rcDec h c a).trans (hR.buffered a)

variable {h : Heap} {pre l : List Addr} {s : Addr} {E : Finset Addr} {m : Marked}

theorem MarkAcc.unbuffer {h₀ h : Heap} {C : Multiset Addr}
    (hR : MarkAcc h₀ (fun a => h₀.buffered a && decide (a ∉ pre)) h E C) (hs : h₀.Allocated s) :
    MarkAcc h₀ (fun a => h₀.buffered a && decide (a ∉ pre ++ [s])) (h.setBuffered s false) E C := by
  refine ⟨hR.same.trans (.setBuffered _ _ _), hR.candidates, hR.entered, fun a => ?_, fun a => ?_, fun a => ?_⟩
  · exact (color_setBuffered _ _ _ _).trans (hR.color a)
  · exact (refcount_setBuffered _ _ _ _).trans (hR.refcount a)
  · have hs' : h.Allocated s := (hR.same.allocated_iff s).mpr hs
    rw [buffered_setBuffered, hR.buffered]
    by_cases has : s = a
    · subst has
      simp [hs']
    · simp [has, Ne.symm has]

/-! ### The loop over the candidates -/

/-- Reachable from a purple candidate of `l`. -/
def PurpleReach (h : Heap) (l : List Addr) (x : Addr) : Prop := ∃ p ∈ l, h.color p = .purple ∧ h.Reaches p x

/-- A purple candidate that an earlier purple candidate of `l` reaches. -/
def StaleIn (h : Heap) (l : List Addr) (x : Addr) : Prop :=
  h.color x = .purple ∧ ∃ l₁ l₂, l = l₁ ++ x :: l₂ ∧ h.PurpleReach l₁ x

theorem PurpleReach.kid {x c : Addr} (hx : h.PurpleReach l x) (hc : c ∈ h.kids x) : h.PurpleReach l c := by
  obtain ⟨p, hp, hpur, hpx⟩ := hx
  exact ⟨p, hp, hpur, hpx.tail hc⟩

theorem purpleReach_append {s x : Addr} :
    h.PurpleReach (l ++ [s]) x ↔ h.PurpleReach l x ∨ (h.color s = .purple ∧ h.Reaches s x) := by
  simp only [PurpleReach, List.mem_append, List.mem_singleton]
  constructor
  · rintro ⟨p, hp | rfl, hpur, hpx⟩
    · exact .inl ⟨p, hp, hpur, hpx⟩
    · exact .inr ⟨hpur, hpx⟩
  · rintro (⟨p, hp, hpur, hpx⟩ | ⟨hpur, hpx⟩)
    · exact ⟨p, .inl hp, hpur, hpx⟩
    · exact ⟨s, .inr rfl, hpur, hpx⟩

/-- The state of the mark phase after the candidates `pre`, with `E` gray. -/
structure MarkLoop (h : Heap) (pre : List Addr) (m : Marked) (E : Finset Addr) : Prop where
  acc : MarkAcc h (fun a => h.buffered a && decide (a ∉ pre)) m.heap E (h.markWalk.ends E)
  entered : ∀ x, x ∈ E ↔ h.PurpleReach pre x
  grayRoots : ∀ p ∈ m.grayRoots, p ∈ pre ∧ h.color p = .purple
  covered : ∀ x ∈ E, ∃ p ∈ m.grayRoots, h.Reaches p x
  deferred_sublist : m.deferred.Sublist pre
  deferred : ∀ x, x ∈ m.deferred ↔ (x ∈ pre ∧ h.color x ≠ .purple) ∨ h.StaleIn pre x

theorem staleIn_append {s x : Addr} :
    h.StaleIn (pre ++ [s]) x ↔ h.StaleIn pre x ∨ (x = s ∧ h.color s = .purple ∧ h.PurpleReach pre s) := by
  constructor
  · rintro ⟨hpur, l₁, l₂, heq, hreach⟩
    rcases List.eq_nil_or_concat l₂ with rfl | ⟨l₃, b, rfl⟩
    · obtain ⟨rfl, hxs⟩ := List.append_inj' heq rfl
      obtain rfl : s = x := by simpa using hxs
      exact .inr ⟨rfl, hpur, hreach⟩
    · rw [List.concat_eq_append, ← List.cons_append, ← List.append_assoc] at heq
      obtain ⟨rfl, -⟩ := List.append_inj' heq rfl
      exact .inl ⟨hpur, l₁, l₃, rfl, hreach⟩
  · rintro (⟨hpur, l₁, l₂, rfl, hreach⟩ | ⟨rfl, hpur, hreach⟩)
    · exact ⟨hpur, l₁, l₂ ++ [s], by simp, hreach⟩
    · exact ⟨hpur, pre, [], rfl, hreach⟩

variable {h : Heap} {ext : Addr → Nat}

theorem mem_owners_of_purple {p : Addr} (hp : h.color p = .purple) : p ∈ h.owners := by
  refine mem_owners.mpr ⟨?_, fun hrel => by simp [hrel.2] at hp⟩
  by_contra hn
  simp [color_of_not_allocated hn] at hp

theorem PurpleReach.mem_owners (hc : Counted h ext) {x : Addr} (hx : h.PurpleReach l x) : x ∈ h.owners := by
  obtain ⟨p, -, hpur, hpx⟩ := hx
  exact hc.mem_owners_of_reaches (mem_owners_of_purple hpur) hpx

/-- The number of counted references to `x` from the objects of `S`. -/
def kidEdges (h : Heap) (S : Finset Addr) (x : Addr) : Nat := ∑ y ∈ S, (h.kids y).count x

/-- What a trial deletion needs of a heap: whatever a purple object reaches is allocated, and its count
covers the references from such objects. Counts need not be exact. -/
structure Trialable (h : Heap) : Prop where
  allocated : ∀ {p x}, h.color p = .purple → h.Reaches p x → h.Allocated x
  unshared : ∀ {p}, h.color p = .purple → h.isShared p = false
  kidEdges_le : ∀ {S : Finset Addr}, (∀ x ∈ S, ∃ p, h.color p = .purple ∧ h.Reaches p x) →
    ∀ {a}, h.Allocated a → h.kidEdges S a ≤ h.refcount a

/-- A candidate that is purple at its turn: everything it reaches joins the gray objects. -/
theorem markLoop_purple (ht : Trialable h) (hrest : ∀ a, h.color a ≠ .gray)
    (hm : MarkLoop h pre m E) (hpur : h.color s = .purple) (hsE : s ∉ E) :
    ∃ E', MarkLoop h (pre ++ [s])
      ⟨markGray (m.heap.setBuffered s false).depth (m.heap.setBuffered s false) s,
        m.grayRoots ++ [s], m.deferred⟩ E' := by
  have hsal : h.Allocated s := ht.allocated hpur ReflTransGen.refl
  have hacc := hm.acc.unbuffer hsal
  obtain ⟨hrun, -⟩ := markGray_eq_run h (m.heap.setBuffered s false).depth _ s hacc.same
  have hfuel : (h.dom.filter (· ∉ E)).card < (m.heap.setBuffered s false).depth := by
    rw [hacc.same.depth_eq]
    exact lt_of_le_of_lt (Finset.card_filter_le _ _) h.card_dom_lt_depth
  obtain ⟨E', C', hR, hreach⟩ := Walk.run_account (markWalk_account hrest _) (fun v hv => mem_dom.mpr hv)
    _ _ E _ s hacc hfuel
  rw [← hrun] at hR
  have hcross : C' = h.markWalk.ends E' := by
    have := hreach.crossed
    rw [add_comm (h.markWalk.ends E)] at this
    exact add_right_cancel this
  -- the gray set is closed, so it holds everything `s` reaches
  have hclosed : ∀ x, h.Reaches s x → x ∈ E' := by
    intro x hx
    induction hx with
    | refl => exact hreach.entered s (by simp) hsal
    | @tail b c hsb hbc ih =>
      by_cases hbE : b ∈ E
      · exact hreach.mono ((hm.entered c).mpr (((hm.entered b).mp hbE).kid hbc))
      · exact hreach.closed b ih hbE c hbc (ht.allocated hpur (hsb.tail hbc))
  have hmem : ∀ x, x ∈ E' ↔ x ∈ E ∨ h.Reaches s x := by
    refine fun x => ⟨fun hx => ?_, fun hx => hx.elim (fun hx => hreach.mono hx) (hclosed x)⟩
    by_cases hxE : x ∈ E
    · exact .inl hxE
    · obtain ⟨v, hv, hvx⟩ := hreach.reach x hx hxE
      rw [List.mem_singleton] at hv
      subst hv
      exact .inr hvx
  refine ⟨E', by rw [← hcross]; exact hR, fun x => ?_, fun p hp => ?_, fun x hx => ?_, ?_, fun x => ?_⟩
  · rw [hmem, hm.entered, purpleReach_append]
    simp [hpur]
  · rcases List.mem_append.mp hp with hp | hp
    · exact ⟨List.mem_append_left _ (hm.grayRoots p hp).1, (hm.grayRoots p hp).2⟩
    · rw [List.mem_singleton] at hp
      subst hp
      exact ⟨by simp, hpur⟩
  · rcases (hmem x).mp hx with hx | hx
    · obtain ⟨p, hp, hpx⟩ := hm.covered x hx
      exact ⟨p, List.mem_append_left _ hp, hpx⟩
    · exact ⟨s, by simp, hx⟩
  · exact hm.deferred_sublist.trans (List.sublist_append_left _ _)
  · rw [staleIn_append, hm.deferred]
    have hnot : ¬ h.PurpleReach pre s := fun hr => hsE ((hm.entered s).mpr hr)
    constructor
    · rintro (⟨hx, hcol⟩ | hst)
      · exact .inl ⟨List.mem_append_left _ hx, hcol⟩
      · exact .inr (.inl hst)
    · rintro (⟨hx, hcol⟩ | hst | ⟨rfl, -, hr⟩)
      · rcases List.mem_append.mp hx with hx | hx
        · exact .inl ⟨hx, hcol⟩
        · rw [List.mem_singleton] at hx
          exact absurd (hx ▸ hpur) hcol
      · exact .inr hst
      · exact absurd hr hnot

theorem markLoop_deferred (hm : MarkLoop h pre m E)
    (hbuf : h.buffered s = true) (hs : h.color s = .purple → s ∈ E) :
    MarkLoop h (pre ++ [s]) ⟨m.heap.setBuffered s false, m.grayRoots, m.deferred ++ [s]⟩ E := by
  refine ⟨hm.acc.unbuffer (allocated_of_buffered hbuf), fun x => ?_, fun p hp => ?_, hm.covered, ?_, fun x => ?_⟩
  · rw [hm.entered, purpleReach_append]
    refine ⟨.inl, fun hx => hx.elim id fun ⟨hpur, hsx⟩ => ?_⟩
    obtain ⟨p, hp, hppur, hps⟩ := (hm.entered s).mp (hs hpur)
    exact ⟨p, hp, hppur, hps.trans hsx⟩
  · exact ⟨List.mem_append_left _ (hm.grayRoots p hp).1, (hm.grayRoots p hp).2⟩
  · exact hm.deferred_sublist.append (List.Sublist.refl _)
  · rw [staleIn_append, List.mem_append, List.mem_singleton, hm.deferred]
    constructor
    · rintro ((⟨hx, hcol⟩ | hst) | rfl)
      · exact .inl ⟨List.mem_append_left _ hx, hcol⟩
      · exact .inr (.inl hst)
      · by_cases hpur : h.color x = .purple
        · exact .inr (.inr ⟨rfl, hpur, (hm.entered x).mp (hs hpur)⟩)
        · exact .inl ⟨by simp, hpur⟩
    · rintro (⟨hx, hcol⟩ | hst | ⟨rfl, -, -⟩)
      · rcases List.mem_append.mp hx with hx | hx
        · exact .inl (.inl ⟨hx, hcol⟩)
        · exact .inr (List.mem_singleton.mp hx)
      · exact .inl (.inr hst)
      · exact .inr rfl

theorem markCandidate_loop (ht : Trialable h) (hrest : ∀ a, h.color a ≠ .gray)
    (hm : MarkLoop h pre m E) (hbuf : h.buffered s = true) :
    ∃ E', MarkLoop h (pre ++ [s]) (markCandidate m s) E' := by
  have hcol : (m.heap.setBuffered s false).color s = if s ∈ E then .gray else h.color s :=
    (color_setBuffered _ _ _ _).trans (hm.acc.color s)
  by_cases hpur : h.color s = .purple ∧ s ∉ E
  · rw [if_neg hpur.2, hpur.1] at hcol
    simp only [markCandidate, hcol]
    exact markLoop_purple ht hrest hm hpur.1 hpur.2
  · have hs : h.color s = .purple → s ∈ E := fun hp => by
      by_contra hsE
      exact hpur ⟨hp, hsE⟩
    have hne : (m.heap.setBuffered s false).color s ≠ .purple := by
      rw [hcol]
      split
      · simp
      · rename_i hsE
        exact fun hp => hsE (hs hp)
    refine ⟨E, ?_⟩
    have heq : markCandidate m s = ⟨m.heap.setBuffered s false, m.grayRoots, m.deferred ++ [s]⟩ := by
      rw [markCandidate]
      split
      · rename_i heq
        exact absurd heq hne
      · rfl
    rw [heq]
    exact markLoop_deferred hm hbuf hs

/-- **The mark phase.** -/
theorem markCandidates_loop (ht : Trialable h) (hbuf : ∀ x ∈ h.candidates, h.buffered x = true)
    (hrest : ∀ a, h.color a ≠ .gray) :
    ∃ E, MarkLoop h h.candidates (h.candidates.foldl markCandidate ⟨{ h with candidates := [] }, [], []⟩) E := by
  have hinit : MarkLoop h [] ⟨{ h with candidates := [] }, [], []⟩ ∅ := by
    refine ⟨⟨⟨fun _ => rfl, rfl, rfl, rfl, rfl, rfl⟩, rfl, by simp, fun a => ?_, fun a => ?_, fun a => ?_⟩,
      fun x => ?_, by simp, by simp, List.Sublist.refl _, fun x => ?_⟩
    · rfl
    · simp [Walk.ends]
      rfl
    · simp
      rfl
    · simp [PurpleReach]
    · simp [StaleIn]
  have hloop : ∀ (rest pre : List Addr) (m : Marked) (E : Finset Addr), MarkLoop h pre m E →
      (∀ x ∈ rest, h.buffered x = true) →
      ∃ E', MarkLoop h (pre ++ rest) (rest.foldl markCandidate m) E' := by
    intro rest
    induction rest with
    | nil => exact fun pre m E hm _ => ⟨E, by simpa using hm⟩
    | cons s rest ih =>
      intro pre m E hm hb
      obtain ⟨E₁, hm₁⟩ := markCandidate_loop ht hrest hm (hb s (by simp))
      obtain ⟨E₂, hm₂⟩ := ih (pre ++ [s]) _ E₁ hm₁ fun x hx => hb x (by simp [hx])
      exact ⟨E₂, by simpa using hm₂⟩
  exact hloop h.candidates [] _ ∅ hinit hbuf

end Heap

end Noeta
