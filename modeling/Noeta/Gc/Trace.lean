import Noeta.Lib.Dfs
import Noeta.Gc.Components

/-!
# The backup mark-sweep

`markRoots` paints gray what the given roots reach; the registered objects that stay unmarked are the
garbage. A root the caller forgot makes live objects look unmarked, so the safepoint variant compares each
unmarked object's count with its in-edges inside the unmarked set and gives up on any difference. With
exact counts that comparison alone makes the result safe (`Counted.not_live_of_balanced`): no assumption on
the roots is needed.
-/

namespace Noeta

open Relation Dfs

namespace Heap

/-- The registry and the headers of a heap that runs in trace mode, between two collections. An acyclic
leaf is not registered, and nothing repaints one that a mark has painted gray. -/
structure TraceOk (h : Heap) : Prop where
  nodup : h.registry.Nodup
  mem_iff : ∀ x, x ∈ h.registry ↔ h.isRegistered x = true
  unshared : ∀ x, h.isRegistered x = true → h.isShared x = false
  black : ∀ x, h.isRegistered x = true → h.color x = .black
  unbuffered : ∀ x, h.buffered x = false

theorem traceOk_of_dom {h : Heap} (hnodup : h.registry.Nodup) (hreg : ∀ x ∈ h.registry, h.isRegistered x = true)
    (hobj : ∀ x ∈ h.dom, h.buffered x = false ∧
      (h.isRegistered x = true → x ∈ h.registry ∧ h.isShared x = false ∧ h.color x = .black)) : TraceOk h := by
  have hreg' : ∀ x, h.isRegistered x = true → x ∈ h.registry ∧ h.isShared x = false ∧ h.color x = .black :=
    fun x hx => (hobj x (mem_dom.mpr (allocated_of_registered hx))).2 hx
  refine ⟨hnodup, fun x => ⟨hreg x, fun hx => (hreg' x hx).1⟩, fun x hx => (hreg' x hx).2.1,
    fun x hx => (hreg' x hx).2.2, fun x => ?_⟩
  by_contra hb
  rw [Bool.not_eq_false] at hb
  simp [(hobj x (mem_dom.mpr (allocated_of_buffered hb))).1] at hb

/-! ### `mark` as a walk -/

/-- The walk behind `mark`, over the references of `h₀`. -/
def traceWalk (h₀ : Heap) : Walk Heap Addr where
  kids := h₀.children
  pending h a := decide (h.Allocated a) && !h.isShared a && h.color a != .gray
  enter h a := h.setColor a .gray
  cross h _ := h

theorem mark_eq_run (h₀ : Heap) (n : Nat) (h : Heap) (s : Addr) (hs : SameGraph h₀ h) :
    mark n h s = h₀.traceWalk.run n h s ∧ SameGraph h₀ (mark n h s) := by
  induction n generalizing h s with
  | zero => exact ⟨rfl, hs⟩
  | succ n ih =>
    rw [mark, Walk.run]
    by_cases hstop : (h.isShared s || h.color s == .gray) = true
    · rw [if_pos hstop, if_neg]
      · exact ⟨rfl, hs⟩
      · simp only [Bool.or_eq_true, beq_iff_eq] at hstop
        rcases hstop with hsh | hgray
        · simp [traceWalk, hsh]
        · simp [traceWalk, hgray]
    rw [if_neg hstop]
    simp only [Bool.or_eq_true, beq_iff_eq, not_or, Bool.not_eq_true] at hstop
    by_cases ha : h.Allocated s
    · rw [if_pos (by simp [traceWalk, ha, hstop.1, hstop.2]), hs.children_eq]
      exact Walk.foldl_eq (fun h c hs => ih h c hs) _ _ (hs.trans (.setColor h s _))
    · -- an empty slot has no children and keeps its colour
      rw [if_neg (by simp [traceWalk, ha]), children_of_not_allocated ha, List.foldl_nil, setColor,
        modifyHeader, modify_of_not_allocated ha]
      exact ⟨rfl, hs⟩

/-- The account of a mark: gray on the entered objects, nothing else changed. -/
structure TraceAcc (h₀ h : Heap) (E : Finset Addr) (_C : Multiset Addr) : Prop where
  same : SameGraph h₀ h
  candidates : h.candidates = h₀.candidates
  anomalies : h.anomalies = h₀.anomalies
  color : ∀ a, h.color a = if a ∈ E then .gray else h₀.color a
  refcount : ∀ a, h.refcount a = h₀.refcount a
  buffered : ∀ a, h.buffered a = h₀.buffered a

/-- The objects a mark may enter. -/
def Markable (h : Heap) (a : Addr) : Prop := h.Allocated a ∧ h.isShared a = false ∧ h.color a ≠ .gray

theorem traceWalk_account (h₀ : Heap) : Walk.Account h₀.traceWalk h₀.Markable (TraceAcc h₀) := by
  refine ⟨fun {h E C v} hR => ?_, fun {h E C v} hR hp => ?_, fun {h E C c} hR => ?_⟩
  · have hcol := hR.color v
    have hiff := hR.same.allocated_iff v
    by_cases hv : v ∈ E
    · simp [traceWalk, hcol, hv]
    · simp [traceWalk, hcol, hv, hiff, hR.same.isShared_eq, Markable, and_assoc]
  · have hal : h.Allocated v := by
      simp only [traceWalk, Bool.and_eq_true, decide_eq_true_eq] at hp
      exact hp.1.1
    refine ⟨hR.same.trans (.setColor h v _), hR.candidates, hR.anomalies, fun a => ?_, fun a => ?_, fun a => ?_⟩
    · show (h.setColor v .gray).color a = _
      rw [color_setColor, hR.color a]
      by_cases hav : v = a
      · subst hav
        simp [hal]
      · simp [hav, Ne.symm hav]
    · exact (refcount_setColor h v a _).trans (hR.refcount a)
    · exact (buffered_setColor h v a _).trans (hR.buffered a)
  · exact ⟨hR.same, hR.candidates, hR.anomalies, hR.color, hR.refcount, hR.buffered⟩

/-- **The mark phase**, from any list of roots. -/
theorem markRoots_account (h : Heap) (roots : List Value) :
    ∃ E C, TraceAcc h (h.markRoots roots) E C ∧
      Walk.Reached h.traceWalk h.Markable (roots.filterMap Value.addr?) ∅ 0 E C := by
  have hdepth : ∀ (l : List Addr) (h' : Heap), SameGraph h h' →
      l.foldl (fun h root => mark h.depth h root) h' = l.foldl (fun s v => h.traceWalk.run h.depth s v) h' := by
    intro l
    induction l with
    | nil => exact fun _ _ => rfl
    | cons r l ih =>
      intro h' hs
      obtain ⟨hrun, hsame⟩ := mark_eq_run h h'.depth h' r hs
      rw [List.foldl_cons, List.foldl_cons, ih _ hsame, hrun, hs.depth_eq]
  rw [markRoots, hdepth _ h (SameGraph.refl h)]
  exact Walk.foldl_run_account (traceWalk_account h) (fun v hv => mem_dom.mpr hv.1) _ h ∅ 0
    ⟨SameGraph.refl h, rfl, rfl, by simp, fun _ => rfl, fun _ => rfl⟩ h.card_dom_lt_depth

/-! ### Repainting the survivors -/

/-- What repainting changes: gray registered objects are black again. -/
structure Repainted (h h' : Heap) (l : List Addr) : Prop where
  same : SameGraph h h'
  candidates : h'.candidates = h.candidates
  anomalies : h'.anomalies = h.anomalies
  color : ∀ a, h'.color a = if a ∈ l ∧ h.color a = .gray then .black else h.color a
  refcount : ∀ a, h'.refcount a = h.refcount a
  buffered : ∀ a, h'.buffered a = h.buffered a

theorem foldl_repaint (h : Heap) (l : List Addr) :
    Repainted h (l.foldl (fun h v => if h.color v = .gray then h.setColor v .black else h) h) l := by
  induction l generalizing h with
  | nil => exact ⟨SameGraph.refl h, rfl, rfl, by simp, fun _ => rfl, fun _ => rfl⟩
  | cons v l ih =>
    rw [List.foldl_cons]
    by_cases hgray : h.color v = .gray
    · rw [if_pos hgray]
      have hal : h.Allocated v := by
        by_contra hn
        simp [color_of_not_allocated hn] at hgray
      have hr := ih (h.setColor v .black)
      refine ⟨(SameGraph.setColor h v _).trans hr.same, hr.candidates, hr.anomalies, fun a => ?_, fun a => ?_,
        fun a => ?_⟩
      · rw [hr.color, color_setColor]
        by_cases hav : v = a
        · subst hav
          simp [hal, hgray]
        · simp [hav, Ne.symm hav]
      · exact (hr.refcount a).trans (refcount_setColor _ _ _ _)
      · exact (hr.buffered a).trans (buffered_setColor _ _ _ _)
    · rw [if_neg hgray]
      have hr := ih h
      refine ⟨hr.same, hr.candidates, hr.anomalies, fun a => ?_, hr.refcount, hr.buffered⟩
      rw [hr.color]
      by_cases hav : a = v
      · subst hav
        simp [hgray]
      · simp [hav]

theorem resetSurvivors_repainted (h : Heap) : Repainted h h.resetSurvivors h.registry := foldl_repaint h h.registry

/-! ### The in-degree check -/

theorem inEdges_eq_edges {h : Heap} {garbage : List Addr} (hnd : garbage.Nodup) {x : Addr} (hx : x ∈ garbage) :
    h.inEdges garbage x = h.edges garbage.toFinset x := by
  rw [inEdges, List.count_filter (by simpa using hx), edges, List.count_flatMap,
    List.sum_toFinset _ hnd]
  rfl

theorem countRefcountAnomalies_eq_zero {h : Heap} {garbage : List Addr}
    (hzero : h.countRefcountAnomalies garbage = 0) {x : Addr} (hx : x ∈ garbage) :
    h.refcount x = h.inEdges garbage x := by
  rw [countRefcountAnomalies, List.length_eq_zero_iff, List.filter_eq_nil_iff] at hzero
  simpa using hzero x hx

theorem trace_unmarked {h : Heap} (ht : TraceOk h) (roots : List Value) :
    (h.markRoots roots).unmarked.Nodup ∧ (∀ x ∈ (h.markRoots roots).unmarked, h.isRegistered x = true) ∧
      SameGraph h (h.markRoots roots).resetSurvivors ∧
      (∀ x, (h.markRoots roots).resetSurvivors.refcount x = h.refcount x) ∧
      ∀ x, h.isRegistered x = true → (h.markRoots roots).resetSurvivors.color x = .black := by
  obtain ⟨E, C, hacc, -⟩ := markRoots_account h roots
  have hrep := resetSurvivors_repainted (h.markRoots roots)
  have hreg := hacc.same.registry
  refine ⟨?_, fun x hx => ?_, hacc.same.trans hrep.same, fun x => ?_, fun x hx => ?_⟩
  · exact List.Nodup.filter _ (hreg ▸ ht.nodup)
  · rw [unmarked, List.mem_filter, hreg] at hx
    exact (ht.mem_iff x).mp hx.1
  · exact (hrep.refcount x).trans (hacc.refcount x)
  · rw [hrep.color, hreg]
    have hmem : x ∈ h.registry := (ht.mem_iff x).mpr hx
    by_cases hxE : x ∈ E
    · simp [hmem, hacc.color x, hxE]
    · simp [hacc.color x, hxE, ht.black x hx]

/-- **A safepoint trace never frees a live object**, whatever roots it is given; it writes no count and
leaves every registered object black. -/
theorem collectTraceSafepoint_safe {h : Heap} {ext : Addr → Nat} (hex : Exact h ext) (ht : TraceOk h)
    (roots : List Value) (defer : Addr → Bool) :
    (∀ x ∈ (collectTraceSafepoint h roots defer).2.fresh, ¬ h.Live ext x) ∧
      (∀ x, (collectTraceSafepoint h roots defer).1.refcount x = h.refcount x) ∧
      ∀ x, h.isRegistered x = true → (collectTraceSafepoint h roots defer).1.color x = .black := by
  obtain ⟨hnd, hregd, hsame, hrc, hblack⟩ := trace_unmarked ht roots
  have hrel : ∀ x, ¬ h.Released x := fun x hx => by
    have := hx.1
    simp [ht.unbuffered x] at this
  have hc : Counted h ext := ⟨fun x hx => hex.count x (mem_owners.mp hx).1, fun x hx => absurd hx (hrel x),
    hex.closed, hex.shared_owned, hex.shared_children, hex.shared_rest⟩
  rw [collectTraceSafepoint]
  dsimp only
  split
  · exact ⟨by simp [Garbage.empty], hrc, hblack⟩
  · rename_i hok
    refine ⟨fun x hx => ?_, hrc, hblack⟩
    simp only [Bool.or_eq_true, decide_eq_true_eq, not_or, ne_eq, not_not] at hok
    have hbal : ∀ y ∈ (h.markRoots roots).unmarked.toFinset,
        h.refcount y ≤ h.edges (h.markRoots roots).unmarked.toFinset y := by
      intro y hy
      rw [List.mem_toFinset] at hy
      have heq := countRefcountAnomalies_eq_zero hok.2 hy
      rw [hrc, inEdges_eq_edges hnd hy, hsame.edges_eq] at heq
      exact heq.le
    have hxg : x ∈ (h.markRoots roots).unmarked := by
      rw [sortNewestFirst, List.mem_insertionSort, List.mem_flatten] at hx
      obtain ⟨c, hcmem, hxc⟩ := hx
      exact mem_of_mem_component hnd (List.mem_of_mem_filter hcmem) hxc
    refine hc.not_live_of_balanced (fun y hy => ?_) (fun y hy => ?_) hbal (List.mem_toFinset.mpr hxg)
    · exact mem_owners.mpr ⟨allocated_of_registered (hregd y (List.mem_toFinset.mp hy)), hrel y⟩
    · exact ht.unshared y (hregd y (List.mem_toFinset.mp hy))

/-- A self-referential list that is garbage, and a list that is held from outside. -/
def cycleAndRootHeap : Heap where
  objs := [some ⟨⟨1, 0, .black, false, false, true⟩, .list [.ptr 0]⟩,
    some ⟨⟨1, 1, .black, false, false, true⟩, .list []⟩]
  candidates := []
  registry := [0, 1]
  mode := .trace
  nextSeq := 2
  anomalies := 0
  log := []

/-- With the root given, the cycle is freed and dead; with the root forgotten, nothing is. -/
theorem cycleAndRootHeap_safe :
    (collectTraceSafepoint cycleAndRootHeap [.ptr 1] fun _ => false).2.fresh = [0] ∧
      ¬ cycleAndRootHeap.Live (fun a => if a = 1 then 1 else 0) 0 ∧
      (collectTraceSafepoint cycleAndRootHeap [] fun _ => false).2.fresh = [] := by
  have hfresh : (collectTraceSafepoint cycleAndRootHeap [.ptr 1] fun _ => false).2.fresh = [0] := by decide
  have hex : Exact cycleAndRootHeap (fun a => if a = 1 then 1 else 0) :=
    exact_of_dom (by decide) (by decide) (by decide)
  obtain ⟨hdead, -⟩ := collectTraceSafepoint_safe hex (traceOk_of_dom (by decide) (by decide) (by decide))
    [.ptr 1] fun _ => false
  exact ⟨hfresh, hdead 0 (by rw [hfresh]; decide), by decide⟩

end Heap

end Noeta
