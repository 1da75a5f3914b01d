import Noeta.Gc.Trial.Restore
import Noeta.Vm.ReleaseValue

/-!
# Reclaiming what a collection returned

The reclaim pins every member, runs the destructors of the fresh ones and frees all of them shallowly, in
trace mode, so that nothing is buffered again. After a trial deletion nothing else is released: the trial
decrements have already taken the members' references out of the counts. `Collected.owned_reclaim` puts the
two together: a collection followed by its reclaim keeps the ownership invariant, unless a stale candidate
survived.
-/

namespace Noeta

open Relation Dfs

namespace Heap

/-! ### Pinning and destructors -/

/-- The heap `h'` of a reclaim whose members `M` are pinned. -/
structure Pinned (h h' : Heap) (M : List Addr) : Prop extends HeaderOnly {x | x ∈ M} h h' where
  pinned : ∀ a ∈ M, 0 < h'.refcount a
  candidates : h'.candidates = h.candidates

theorem sameGraph_incRef (h : Heap) (a : Addr) : SameGraph h (h.incRef a) := by
  rw [incRef]
  split
  · exact SameGraph.refl h
  · exact .rcInc h a

theorem foldl_incRef_pinned (h : Heap) (M : List Addr) (hM : ∀ a ∈ M, h.Allocated a ∧ h.isShared a = false) :
    Pinned h (M.foldl incRef h) M := by
  have hgen : ∀ (l : List Addr) (h' : Heap), (∀ a ∈ l, h'.Allocated a ∧ h'.isShared a = false) →
      HeaderOnly {x | x ∈ l} h' (l.foldl incRef h') ∧ (∀ a, h'.refcount a ≤ (l.foldl incRef h').refcount a) ∧
      (∀ a ∈ l, 0 < (l.foldl incRef h').refcount a) ∧ (l.foldl incRef h').candidates = h'.candidates := by
    intro l
    induction l with
    | nil => exact fun h' _ => ⟨.refl _ h', fun _ => le_rfl, by simp, rfl⟩
    | cons m l ih =>
      intro h' hl
      obtain ⟨hmal, hmns⟩ := hl m (by simp)
      have hs := HeaderOnly.incRef h' m
      have hrc : ∀ a, (h'.incRef m).refcount a = if m = a then h'.refcount a + 1 else h'.refcount a := by
        intro a
        rw [incRef, if_neg (by simp [hmns]), refcount_rcInc]
        by_cases hma : m = a
        · subst hma
          simp [hmal]
        · simp [hma]
      obtain ⟨h1, h2, h3, h4⟩ := ih (h'.incRef m) fun a ha => by
        obtain ⟨haal, hans⟩ := hl a (by simp [ha])
        exact ⟨(hs.allocated_iff a).mpr haal, (hs.isShared_eq a).trans hans⟩
      rw [List.foldl_cons]
      refine ⟨(hs.mono ?_).trans (h1.mono ?_), fun a => ?_, fun a ha => ?_, h4.trans ?_⟩
      · rintro x rfl
        exact List.mem_cons_self
      · exact fun x hx => List.mem_cons_of_mem m hx
      · have := h2 a
        rw [hrc] at this
        split at this <;> omega
      · rcases List.mem_cons.mp ha with rfl | ha
        · have := h2 a
          rw [hrc, if_pos rfl] at this
          omega
        · exact h3 a ha
      · rw [incRef]
        split <;> rfl
  obtain ⟨h1, -, h3, h4⟩ := hgen M h hM
  exact ⟨h1, h3, h4⟩

theorem foldl_destructors_pinned (t : Tables) {h h' : Heap} {M l : List Addr} (hp : Pinned h h' M)
    (hm : h.mode = .trace) (hM : ∀ a ∈ M, h.Allocated a ∧ h.isShared a = false) (hl : ∀ a ∈ l, a ∈ M) :
    Pinned h (l.foldl (fun h a => if t.ownDestructor h a then h.runDestructor a else h) h') M := by
  induction l generalizing h' with
  | nil => exact hp
  | cons a l ih =>
    rw [List.foldl_cons]
    refine ih ?_ fun b hb => hl b (by simp [hb])
    split
    · have haM := hl a (by simp)
      obtain ⟨hal, hns⟩ := hM a haM
      rw [runDestructor_trace (hp.mode.trans hm) ((hp.allocated_iff a).mpr hal)
        ((hp.isShared_eq a).trans hns) (hp.pinned a haM)]
      exact ⟨hp.toHeaderOnly.trans (.destruct _ h' a), hp.pinned, hp.candidates⟩
    · exact hp

/-! ### Freeing the members -/

/-- `h'` is `h` without the objects `M`. -/
structure Without (h h' : Heap) (M : List Addr) : Prop where
  obj : ∀ a, h'.obj? a = if a ∈ M then none else h.obj? a
  candidates : h'.candidates = h.candidates
  mode : h'.mode = h.mode

theorem foldl_freeShallow_without {h : Heap} (hm : h.mode = .trace) (M : List Addr) (hnd : M.Nodup)
    (hM : ∀ a ∈ M, h.Allocated a) : Without h (M.foldl freeShallow h) M := by
  induction M generalizing h with
  | nil => exact ⟨by simp, rfl, rfl⟩
  | cons m M ih =>
    obtain ⟨hmM, hnd⟩ := List.nodup_cons.mp hnd
    have hfree := freeShallow_eq_dealloc hm (hM m (by simp))
    have hrest := ih (h := h.dealloc m) hm hnd fun a ha => by
      refine (allocated_dealloc h m a).mpr ⟨?_, hM a (by simp [ha])⟩
      rintro rfl
      exact hmM ha
    rw [List.foldl_cons, hfree]
    refine ⟨fun a => ?_, hrest.candidates, hrest.mode⟩
    rw [hrest.obj, obj?_dealloc]
    by_cases hma : m = a
    · subst hma
      simp
    · simp [hma, Ne.symm hma]

/-- **The reclaim after a trial deletion** removes the members and nothing else. -/
theorem reclaimCycleGarbage_without (t : Tables) {h : Heap} {g : Garbage} (hext : g.releaseExternal = false)
    (hnd : g.members.Nodup) (hM : ∀ a ∈ g.members, h.Allocated a ∧ h.isShared a = false) :
    Without h (reclaimCycleGarbage t h g) g.members := by
  rw [reclaimCycleGarbage, hext]
  simp only [Bool.false_eq_true, if_false]
  have hp₀ := foldl_incRef_pinned { h with mode := .trace } g.members hM
  generalize g.members.foldl incRef { h with mode := .trace } = h₁ at hp₀ ⊢
  have hp := foldl_destructors_pinned t hp₀ rfl hM (l := h₁.sortNewestFirst g.fresh) fun a ha => by
    rw [sortNewestFirst, List.mem_insertionSort] at ha
    exact List.mem_append_left _ ha
  generalize (h₁.sortNewestFirst g.fresh).foldl
    (fun h a => if t.ownDestructor h a then h.runDestructor a else h) h₁ = h₂ at hp ⊢
  have hw := foldl_freeShallow_without hp.mode g.members hnd fun a ha => (hp.allocated_iff a).mpr (hM a ha).1
  refine ⟨fun a => ?_, hw.candidates.trans hp.candidates, rfl⟩
  show (g.members.foldl freeShallow h₂).obj? a = _
  rw [hw.obj]
  split
  · rfl
  · rename_i haM
    exact hp.frame a haM

/-! ### The ownership invariant across a collection -/

theorem Without.allocated_iff {h h' : Heap} {M : List Addr} (hw : Without h h' M) (a : Addr) :
    h'.Allocated a ↔ a ∉ M ∧ h.Allocated a := by
  rw [Allocated, Allocated, hw.obj]
  by_cases ha : a ∈ M <;> simp [ha]

theorem Without.elim {α : Type} {h h' : Heap} {M : List Addr} (hw : Without h h' M) {a : Addr} (ha : a ∉ M)
    (d : α) (g : Obj → α) : (h'.obj? a).elim d g = (h.obj? a).elim d g := by
  rw [hw.obj, if_neg ha]

variable {h : Heap} {ext : Addr → Nat} {G W K : Finset Addr} {h₁ : Heap} {g : Garbage}

theorem Collected.mem_members (hcol : Collected h W K h₁ g) (hr : TrialResult h G W h.trialDelete)
    (hc : Counted h ext) (hb : Buffer h) (hstale : ∀ x, h.StaleIn h.candidates x → ¬ h.HeldOutside ext x)
    (x : Addr) : x ∈ g.members ↔ x ∈ W \ K ∨ h.Released x := by
  rw [Garbage.members, List.mem_append, hcol.fresh, hcol.already, hr.mem_deferred]
  constructor
  · rintro (hx | ⟨⟨hmem, hpur⟩ | hst, hxW⟩)
    · exact .inl hx
    · exact .inr (hb.released_of_not_purple hmem hpur)
    · refine absurd ((hr.white_iff_not_held hc x).mpr ⟨?_, hstale x hst⟩) hxW
      obtain ⟨-, l₁, l₂, hl, p, hp, hppur, hpx⟩ := hst
      refine (hr.gray_iff x).mpr ⟨p, ?_, hppur, hpx⟩
      rw [hl]
      exact List.mem_append_left _ hp
  · rintro (hx | hrel)
    · exact .inl hx
    · refine .inr ⟨.inl ⟨(hb.mem_iff x).mpr hrel.1, by simp [hrel.2]⟩, fun hxW => ?_⟩
      exact (mem_owners.mp ((hr.white_sub.trans (hr.gray_owners hc)) hxW)).2 hrel

/-- **A collection and its reclaim keep the invariant**, unless a stale candidate survived. -/
theorem Collected.owned_reclaim (t : Tables) (ho : Owned h ext ∅) (hmode : h.mode = .trialDeletion)
    (hr : TrialResult h G W h.trialDelete) (hcol : Collected h W K h₁ g)
    (hstale : ∀ x, h.StaleIn h.candidates x → ¬ h.HeldOutside ext x) :
    Owned (reclaimCycleGarbage t h₁ g) ext ∅ := by
  have hc := ho.counted
  have hmem := hcol.mem_members hr hc (ho.buffer hmode) hstale
  have hWow : W ⊆ h.owners := hr.white_sub.trans (hr.gray_owners hc)
  have hFow : W \ K ⊆ h.owners := Finset.sdiff_subset.trans hWow
  have hunsh : ∀ x ∈ W, h.isShared x = false := fun x hx => hr.gray_unshared hc (hr.white_sub hx)
  -- no outside owner refers to a freed white object
  obtain ⟨hextW, hinW⟩ := hc.held_inside_of_balanced hWow hunsh fun x hx => hr.white_balanced hc hx
  have hin : ∀ y ∈ h.owners, ∀ x ∈ W \ K, x ∈ h.children y → y ∈ W \ K := by
    intro y hy x hx hyx
    obtain ⟨hxW, hxK⟩ := Finset.mem_sdiff.mp hx
    have hyW := hinW y hy x hxW hyx
    exact Finset.mem_sdiff.mpr ⟨hyW, fun hyK => hxK ((hcol.apart y hyW x hxW (.inl hyx)).mp hyK)⟩
  have hMal : ∀ x ∈ g.members, h.Allocated x ∧ h.isShared x = false := by
    intro x hx
    rcases (hmem x).mp hx with hxF | hrel
    · exact ⟨(mem_owners.mp (hFow hxF)).1, hunsh x (Finset.mem_sdiff.mp hxF).1⟩
    · refine ⟨allocated_of_buffered hrel.1, ?_⟩
      by_contra hs
      rw [Bool.not_eq_false] at hs
      have := (ho.shared_rest x hs).2
      simp [hrel.1] at this
  have hext0 : ∀ x ∈ g.members, ext x = 0 := by
    intro x hx
    rcases (hmem x).mp hx with hxF | hrel
    · exact hextW x (Finset.mem_sdiff.mp hxF).1
    · exact (hc.orphan x hrel).1
  have hw := reclaimCycleGarbage_without t hcol.external hcol.nodup fun x hx => by
    rw [hcol.same.allocated_iff, hcol.same.isShared_eq]
    exact hMal x hx
  generalize reclaimCycleGarbage t h₁ g = h₂ at hw
  have hal : ∀ x, h₂.Allocated x ↔ x ∉ g.members ∧ h.Allocated x := fun x => by
    rw [hw.allocated_iff, hcol.same.allocated_iff]
  have hchild : ∀ {x}, x ∉ g.members → h₂.children x = h.children x := fun {x} hx =>
    (hw.elim hx [] _).trans (hcol.same.children_eq x)
  have hshared : ∀ x, h₂.isShared x = h.isShared x := by
    intro x
    by_cases hx : x ∈ g.members
    · have hn : ¬ h₂.Allocated x := fun ha => ((hal x).mp ha).1 hx
      rw [isShared_of_not_allocated hn, (hMal x hx).2]
    · exact (hw.elim hx false _).trans (hcol.same.isShared_eq x)
  have hnotM : ∀ x ∈ K, x ∉ g.members := by
    intro x hxK hx
    rcases (hmem x).mp hx with hxF | hrel
    · exact (Finset.mem_sdiff.mp hxF).2 hxK
    · exact (mem_owners.mp (hWow (hcol.kept hxK))).2 hrel
  have hcolor : ∀ x, h₂.color x = if x ∈ K then .purple else .black := by
    intro x
    by_cases hx : x ∈ g.members
    · have hn : ¬ h₂.Allocated x := fun ha => ((hal x).mp ha).1 hx
      have hxK : x ∉ K := fun hxK => hnotM x hxK hx
      rw [color_of_not_allocated hn, if_neg hxK]
    · exact (hw.elim hx Color.black _).trans (hcol.color x)
  have hbuf : ∀ x, h₂.buffered x = decide (x ∈ K) := by
    intro x
    by_cases hx : x ∈ g.members
    · have hxK : x ∉ K := fun hxK => hnotM x hxK hx
      by_contra hb
      have hb' : h₂.buffered x = true := by
        cases hbx : h₂.buffered x
        · simp [hbx, hxK] at hb
        · rfl
      exact ((hal x).mp (allocated_of_buffered hb')).1 hx
    · exact (hw.elim hx false _).trans (hcol.buffered x)
  have hnrel : ∀ x, ¬ h₂.Released x := by
    rintro x ⟨hb, hcx⟩
    rw [hbuf, decide_eq_true_eq] at hb
    simp [hcolor, hb] at hcx
  have how : h₂.owners = h.owners \ (W \ K) := by
    ext x
    rw [Finset.mem_sdiff, mem_owners, mem_owners, hal, hmem]
    have := hnrel x
    tauto
  have hnM : ∀ {x}, x ∈ h.owners \ (W \ K) → x ∉ g.members := by
    intro x hx hxM
    obtain ⟨hxow, hxF⟩ := Finset.mem_sdiff.mp hx
    exact ((hmem x).mp hxM).elim hxF (mem_owners.mp hxow).2
  have hedges : ∀ x, h₂.edges (h.owners \ (W \ K)) x = h.edges (h.owners \ (W \ K)) x := fun x =>
    Finset.sum_congr rfl fun y hy => by rw [hchild (hnM hy)]
  refine ⟨fun x hx hxs => ?_, fun x hx => ?_, Finset.empty_subset _, by simp, fun y hy c hcy => ?_,
    fun x hx => ?_, fun x hx => ?_, fun y hy c hcy => ?_, fun x hx => ?_,
    fun _ => ⟨hw.candidates ▸ hcol.candidates_nodup, fun x => ?_, fun x hx => ?_, fun x => ?_⟩, fun hm => ?_⟩
  · rw [Finset.sdiff_empty, how] at hx ⊢
    rw [hshared] at hxs
    have hxow := (Finset.mem_sdiff.mp hx).1
    have hrc : h₂.refcount x = h.refcount x - h.edges (W \ K) x := by
      rw [← kidEdges_of_not_shared hxs]
      exact (hw.elim (hnM hx) 0 _).trans (hcol.refcount x (mem_owners.mp hxow).1)
    have hcount := hc.count x hxow hxs
    have hsum := h.edges_sdiff hFow x
    rw [hrc, hedges]
    omega
  · rcases hx with hx | hx
    · exact absurd hx (hnrel x)
    · exact absurd hx (Finset.notMem_empty x)
  · rw [Finset.sdiff_empty, how] at hy
    rw [hchild (hnM hy)] at hcy
    have hyow := (Finset.mem_sdiff.mp hy).1
    refine (hal c).mpr ⟨fun hcM => ?_, hc.closed y hyow c hcy⟩
    rcases (hmem c).mp hcM with hcF | hrel
    · exact (Finset.mem_sdiff.mp hy).2 (hin y hyow c hcF hcy)
    · exact hc.not_released_of_points hyow hcy hrel
  · refine (hal x).mpr ⟨fun hxM => ?_, ho.ext_alloc x hx⟩
    have := hext0 x hxM
    omega
  · exact ho.shared_owned x (hshared x ▸ hx)
  · rw [hshared] at hy ⊢
    have hyM : y ∉ g.members := fun hyM => by simp [(hMal y hyM).2] at hy
    rw [hchild hyM] at hcy
    exact ho.shared_children y hy c hcy
  · rw [hshared] at hx
    have hxK : x ∉ K := fun hxK => by simp [hunsh x (hcol.kept hxK)] at hx
    rw [hcolor, hbuf]
    simp [hxK]
  · rw [hw.candidates, hcol.mem_candidates, hbuf, decide_eq_true_eq]
  · rw [hcolor] at hx
    rw [hbuf, decide_eq_true_eq]
    by_contra hxK
    simp [hxK] at hx
  · rw [hcolor]
    split
    · exact .inr rfl
    · exact .inl rfl
  · rw [hw.mode, hcol.same.mode, hmode] at hm
    exact absurd hm (by decide)

end Heap

end Noeta
