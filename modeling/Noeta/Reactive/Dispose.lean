import Noeta.Reactive.Graph

/-!
# Disposal

What unhooking one node and tearing down a whole owner subtree do to the graph. Both are instances of one relation:
`Torn g T g'` says that the nodes of `T` were freed in that order and every other node only lost its edges to them.
-/

namespace Noeta.Reactive

open Relation

/-! ### `swap_remove` -/

theorem swapRemove_perm (l : List NodeId) (x : NodeId) : (swapRemove l x).Perm (l.erase x) := by
  induction l with
  | nil => exact List.Perm.refl _
  | cons y ys ih =>
    rw [swapRemove]
    by_cases h : y = x
    · rw [if_pos h, h, List.erase_cons_head]
      cases hl : ys.getLast? with
      | none =>
        rw [List.getLast?_eq_none_iff] at hl
        rw [hl]
      | some z =>
        have hys : ys = ys.dropLast ++ [z] := (List.dropLast_append_getLast? z hl).symm
        conv_rhs => rw [hys]
        exact (List.perm_append_singleton z ys.dropLast).symm
    · rw [if_neg h, List.erase_cons_tail (by simpa using h)]
      exact ih.cons y

theorem swapRemove_of_notMem {l : List NodeId} {x : NodeId} (h : x ∉ l) : swapRemove l x = l := by
  induction l with
  | nil => rfl
  | cons y ys ih =>
    rw [List.mem_cons, not_or] at h
    rw [swapRemove, if_neg (Ne.symm h.1), ih h.2]

theorem swapRemove_perm_filter {l : List NodeId} (hl : l.Nodup) (x : NodeId) :
    (swapRemove l x).Perm (l.filter (· ∉ [x])) := by
  have h : l.erase x = l.filter (· ∉ [x]) := by
    rw [hl.erase_eq_filter]
    refine List.filter_congr fun y _ => Bool.eq_iff_iff.mpr ?_
    simp
  rw [← h]
  exact swapRemove_perm l x

namespace Inner

variable {V : Type}

/-! ### Writing one node -/

section modify

variable (g : Inner V) (n : NodeId) (f : Node V → Node V)

@[simp] theorem modify_nodes_self : (g.modify n f).nodes n = f (g.nodes n) := Function.update_self ..

@[simp] theorem modify_nodes_ne {i : NodeId} (h : i ≠ n) : (g.modify n f).nodes i = g.nodes i :=
  Function.update_of_ne h ..

@[simp] theorem modify_size : (g.modify n f).size = g.size := rfl
@[simp] theorem modify_free : (g.modify n f).free = g.free := rfl
@[simp] theorem modify_computing : (g.modify n f).computing = g.computing := rfl
@[simp] theorem modify_dirtyComputeds : (g.modify n f).dirtyComputeds = g.dirtyComputeds := rfl
@[simp] theorem modify_queue : (g.modify n f).queue = g.queue := rfl
@[simp] theorem modify_flushing : (g.modify n f).flushing = g.flushing := rfl
@[simp] theorem modify_observed : (g.modify n f).observed = g.observed := rfl

theorem modify_nodes (i : NodeId) : (g.modify n f).nodes i = if i = n then f (g.nodes n) else g.nodes i := by
  by_cases h : i = n
  · rw [if_pos h, h, modify_nodes_self]
  · rw [if_neg h, modify_nodes_ne _ _ _ h]

end modify

theorem foldl_modify_nodes (f : Node V → Node V) (l : List NodeId) (hl : l.Nodup) (g : Inner V) (i : NodeId) :
    (l.foldl (fun g n => g.modify n f) g).nodes i = if i ∈ l then f (g.nodes i) else g.nodes i := by
  induction l generalizing g with
  | nil => simp
  | cons n l ih =>
    rw [List.nodup_cons] at hl
    rw [List.foldl_cons, ih hl.2, modify_nodes]
    by_cases hi : i = n
    · subst hi
      simp [hl.1]
    · simp [hi]

theorem foldl_modify_rest (f : Node V → Node V) (l : List NodeId) (g : Inner V) :
    l.foldl (fun g n => g.modify n f) g = { g with nodes := (l.foldl (fun g n => g.modify n f) g).nodes } := by
  induction l generalizing g with
  | nil => rfl
  | cons n l ih => rw [List.foldl_cons, ih]; rfl

/-! ### The invariants of edges and slots -/

/-- The two directions of the dependency edges agree, without duplicates, between live nodes only. -/
structure Edges (g : Inner V) : Prop where
  edge : ∀ s n, s ∈ (g.nodes n).sources ↔ n ∈ (g.nodes s).subscribers
  nodup_sources : ∀ n, (g.nodes n).sources.Nodup
  nodup_subscribers : ∀ n, (g.nodes n).subscribers.Nodup
  irrefl : ∀ n, n ∉ (g.nodes n).sources
  live : ∀ {s n}, s ∈ (g.nodes n).sources → (g.nodes s).live ∧ (g.nodes n).live

/-- The free list holds each dead slot once; a dead node owns nothing. -/
structure Slots (g : Inner V) : Prop where
  free_nodup : g.free.Nodup
  mem_free : ∀ n, n ∈ g.free ↔ n < g.size ∧ ¬ (g.nodes n).live
  in_range : ∀ {n}, (g.nodes n).live → n < g.size
  dead_owned : ∀ {n}, ¬ (g.nodes n).live → (g.nodes n).owned = []

/-- The live dirty computeds. -/
def dirtySet (g : Inner V) : Finset NodeId :=
  (Finset.range g.size).filter fun n => (g.nodes n).live ∧ (g.nodes n).kind = .computed ∧ (g.nodes n).dirty

def DirtyCount (g : Inner V) : Prop := g.dirtyComputeds = g.dirtySet.card

theorem Edges.congr {g g' : Inner V} (h : g.Edges) (hsources : ∀ i, (g'.nodes i).sources = (g.nodes i).sources)
    (hsubscribers : ∀ i, (g'.nodes i).subscribers = (g.nodes i).subscribers)
    (hlive : ∀ i, (g'.nodes i).live = (g.nodes i).live) : g'.Edges where
  edge s n := by rw [hsources, hsubscribers]; exact h.edge s n
  nodup_sources n := by rw [hsources]; exact h.nodup_sources n
  nodup_subscribers n := by rw [hsubscribers]; exact h.nodup_subscribers n
  irrefl n := by rw [hsources]; exact h.irrefl n
  live {s n} hs := by
    rw [hsources] at hs
    rw [hlive, hlive]
    exact h.live hs

theorem Slots.congr {g g' : Inner V} (h : g.Slots) (hsize : g'.size = g.size) (hfree : g'.free = g.free)
    (hlive : ∀ i, (g'.nodes i).live = (g.nodes i).live)
    (howned : ∀ i, ¬ (g.nodes i).live → (g'.nodes i).owned = (g.nodes i).owned ∨ (g'.nodes i).owned = []) :
    g'.Slots where
  free_nodup := by rw [hfree]; exact h.free_nodup
  mem_free n := by rw [hfree, hsize, hlive]; exact h.mem_free n
  in_range {n} hn := by
    rw [hlive] at hn
    rw [hsize]
    exact h.in_range hn
  dead_owned {n} hn := by
    rw [hlive] at hn
    rcases howned n hn with ho | ho
    · rw [ho]; exact h.dead_owned hn
    · exact ho

variable {g : Inner V} {n : NodeId} {T : List NodeId}

theorem Edges.notMem_subscribers (h : g.Edges) (n : NodeId) : n ∉ (g.nodes n).subscribers :=
  fun hn => h.irrefl n ((h.edge n n).mpr hn)

theorem Slots.live_of_owned (h : g.Slots) {n c : NodeId} (hc : c ∈ (g.nodes n).owned) : (g.nodes n).live := by
  by_contra hn
  rw [h.dead_owned hn] at hc
  exact absurd hc List.not_mem_nil

/-! ### Detaching a node -/

theorem detachSources_eq (g : Inner V) (h : g.Edges) (n : NodeId) :
    g.detachSources n = { g with nodes := fun i =>
      if i = n then { g.nodes n with sources := [] }
      else { g.nodes i with subscribers := swapRemove (g.nodes i).subscribers n } } := by
  rw [detachSources]
  unfold unsubscribe
  rw [foldl_modify_rest]
  simp only [mk.injEq, modify_size, modify_free, modify_computing, modify_dirtyComputeds, modify_queue,
    modify_flushing, modify_observed, true_and]
  refine ⟨?_, rfl, rfl⟩
  funext i
  rw [foldl_modify_nodes _ _ (h.nodup_sources n)]
  by_cases hi : i = n
  · subst hi
    rw [if_neg (h.irrefl i), if_pos rfl, modify_nodes_self]
  · rw [modify_nodes_ne _ _ _ hi, if_neg hi]
    by_cases hs : i ∈ (g.nodes n).sources
    · rw [if_pos hs]
    · have hn : n ∉ (g.nodes i).subscribers := fun hn => hs ((h.edge i n).mpr hn)
      rw [if_neg hs, swapRemove_of_notMem hn]

theorem detachSubscribers_eq (g : Inner V) (n : NodeId) (hn : (g.nodes n).subscribers.Nodup)
    (hself : n ∉ (g.nodes n).subscribers) (hsub : ∀ i ≠ n, n ∈ (g.nodes i).sources → i ∈ (g.nodes n).subscribers) :
    g.detachSubscribers n = { g with nodes := fun i =>
      if i = n then { g.nodes n with subscribers := [] }
      else { g.nodes i with sources := swapRemove (g.nodes i).sources n } } := by
  rw [detachSubscribers]
  unfold unsource
  rw [foldl_modify_rest]
  simp only [mk.injEq, modify_size, modify_free, modify_computing, modify_dirtyComputeds, modify_queue,
    modify_flushing, modify_observed, true_and]
  refine ⟨?_, rfl, rfl⟩
  funext i
  rw [foldl_modify_nodes _ _ hn]
  by_cases hi : i = n
  · subst hi
    rw [if_neg hself, if_pos rfl, modify_nodes_self]
  · rw [modify_nodes_ne _ _ _ hi, if_neg hi]
    by_cases hs : i ∈ (g.nodes n).subscribers
    · rw [if_pos hs]
    · have hm : n ∉ (g.nodes i).sources := fun hm => hs (hsub i hi hm)
      rw [if_neg hs, swapRemove_of_notMem hm]

/-- A node that was taken out of the graph. -/
def freed (m : Node V) : Node V :=
  { m with
    live := false, dirty := false, queued := false, sources := [], subscribers := [], content := none, body := none
    owner := none }

/-- A node without its edges to `n`. -/
def without (n : NodeId) (m : Node V) : Node V :=
  { m with sources := swapRemove m.sources n, subscribers := swapRemove m.subscribers n }

theorem unhookAndFree_eq (g : Inner V) (h : g.Edges) (n : NodeId) :
    g.unhookAndFree n = { g with
      nodes := fun i => if i = n then freed (g.nodes n) else without n (g.nodes i)
      dirtyComputeds :=
        if (g.nodes n).kind = .computed ∧ (g.nodes n).dirty then g.dirtyComputeds - 1 else g.dirtyComputeds
      free := n :: g.free } := by
  have hnodup : ((g.detachSources n).nodes n).subscribers.Nodup := by
    rw [detachSources_eq g h]
    simpa using h.nodup_subscribers n
  have hself : n ∉ ((g.detachSources n).nodes n).subscribers := by
    rw [detachSources_eq g h]
    simpa using h.notMem_subscribers n
  have hsub : ∀ i ≠ n, n ∈ ((g.detachSources n).nodes i).sources → i ∈ ((g.detachSources n).nodes n).subscribers := by
    intro i hi hm
    rw [detachSources_eq g h] at hm ⊢
    simp only [if_neg hi, if_true] at hm ⊢
    exact (h.edge n i).mp hm
  rw [unhookAndFree, detachSubscribers_eq _ n hnodup hself hsub, detachSources_eq g h, settleDirty]
  simp only [if_true]
  split_ifs with hd
  all_goals
    simp only [modify, mk.injEq, and_true, true_and]
    funext i
    by_cases hi : i = n
    · subst hi
      simp [freed]
    · simp [hi, without]

/-! ### Torn-down nodes -/

/-- The nodes of `T` were freed, in this order; the others lost their edges to them. -/
structure Torn (g : Inner V) (T : List NodeId) (g' : Inner V) : Prop where
  size : g'.size = g.size
  computing : g'.computing = g.computing
  queue : g'.queue = g.queue
  flushing : g'.flushing = g.flushing
  free : g'.free = T.reverse ++ g.free
  nodup : T.Nodup
  was_live : ∀ i ∈ T, (g.nodes i).live
  dead : ∀ i ∈ T, (g'.nodes i).live = false ∧ (g'.nodes i).queued = false ∧ (g'.nodes i).sources = [] ∧
    (g'.nodes i).subscribers = [] ∧ (g'.nodes i).owner = none ∧ (g'.nodes i).owned = []
  kept : ∀ i ∉ T, g'.nodes i =
    { g.nodes i with sources := (g'.nodes i).sources, subscribers := (g'.nodes i).subscribers }
  sources : ∀ i ∉ T, (g'.nodes i).sources.Perm ((g.nodes i).sources.filter (· ∉ T))
  subscribers : ∀ i ∉ T, (g'.nodes i).subscribers.Perm ((g.nodes i).subscribers.filter (· ∉ T))
  dirty : g.DirtyCount → g'.DirtyCount

namespace Torn

variable {g g₁ g₂ : Inner V} {T T₁ T₂ : List NodeId}

theorem refl (g : Inner V) : Torn g [] g where
  size := rfl
  computing := rfl
  queue := rfl
  flushing := rfl
  free := rfl
  nodup := List.nodup_nil
  was_live := by simp
  dead := by simp
  kept := fun _ _ => rfl
  sources := by simp
  subscribers := by simp
  dirty := fun h => h

variable {i : NodeId}

theorem live_of_notMem (h : Torn g T g₁) (hi : i ∉ T) : (g₁.nodes i).live = (g.nodes i).live := by
  rw [h.kept i hi]

theorem owned_of_notMem (h : Torn g T g₁) (hi : i ∉ T) : (g₁.nodes i).owned = (g.nodes i).owned := by
  rw [h.kept i hi]

theorem live (h : Torn g T g₁) (hi : (g₁.nodes i).live) : i ∉ T ∧ (g.nodes i).live := by
  have hT : i ∉ T := fun hT => by simp [(h.dead i hT).1] at hi
  exact ⟨hT, by rw [← h.live_of_notMem hT]; exact hi⟩

theorem mem_sources (h : Torn g T g₁) {i s : NodeId} (hi : i ∉ T) :
    s ∈ (g₁.nodes i).sources ↔ s ∈ (g.nodes i).sources ∧ s ∉ T := by
  rw [(h.sources i hi).mem_iff, List.mem_filter, decide_eq_true_eq]

theorem mem_subscribers (h : Torn g T g₁) {i s : NodeId} (hi : i ∉ T) :
    s ∈ (g₁.nodes i).subscribers ↔ s ∈ (g.nodes i).subscribers ∧ s ∉ T := by
  rw [(h.subscribers i hi).mem_iff, List.mem_filter, decide_eq_true_eq]

theorem owned_subset (h : Torn g T g₁) {i c : NodeId} (hc : c ∈ (g₁.nodes i).owned) : c ∈ (g.nodes i).owned := by
  by_cases hi : i ∈ T
  · rw [(h.dead i hi).2.2.2.2.2] at hc
    exact absurd hc List.not_mem_nil
  · rwa [← h.owned_of_notMem hi]

theorem edges (h : Torn g T g₁) (he : g.Edges) : g₁.Edges where
  edge s n := by
    by_cases hn : n ∈ T
    · rw [(h.dead n hn).2.2.1]
      by_cases hs : s ∈ T
      · rw [(h.dead s hs).2.2.2.1]; simp
      · rw [h.mem_subscribers hs]; simp [hn]
    · rw [h.mem_sources hn]
      by_cases hs : s ∈ T
      · rw [(h.dead s hs).2.2.2.1]; simp [hs]
      · rw [h.mem_subscribers hs, he.edge]
        tauto
  nodup_sources n := by
    by_cases hn : n ∈ T
    · rw [(h.dead n hn).2.2.1]; exact List.nodup_nil
    · exact (h.sources n hn).nodup_iff.mpr ((he.nodup_sources n).filter _)
  nodup_subscribers n := by
    by_cases hn : n ∈ T
    · rw [(h.dead n hn).2.2.2.1]; exact List.nodup_nil
    · exact (h.subscribers n hn).nodup_iff.mpr ((he.nodup_subscribers n).filter _)
  irrefl n := by
    by_cases hn : n ∈ T
    · rw [(h.dead n hn).2.2.1]; simp
    · rw [h.mem_sources hn]
      exact fun hs => he.irrefl n hs.1
  live {s n} hs := by
    have hn : n ∉ T := fun hn => by rw [(h.dead n hn).2.2.1] at hs; simp at hs
    obtain ⟨hs, hsT⟩ := (h.mem_sources hn).mp hs
    rw [h.live_of_notMem hn, h.live_of_notMem hsT]
    exact he.live hs

theorem slots (h : Torn g T g₁) (hs : g.Slots) : g₁.Slots where
  free_nodup := by
    rw [h.free, List.nodup_append]
    refine ⟨List.nodup_reverse.mpr h.nodup, hs.free_nodup, ?_⟩
    rintro a ha b hb rfl
    exact ((hs.mem_free a).mp hb).2 (h.was_live a (List.mem_reverse.mp ha))
  mem_free n := by
    rw [h.free, List.mem_append, List.mem_reverse, hs.mem_free, h.size]
    by_cases hn : n ∈ T
    · have hlt := hs.in_range (h.was_live n hn)
      simp [hn, hlt, (h.dead n hn).1]
    · rw [h.live_of_notMem hn]
      simp [hn]
  in_range {n} hn := by
    rw [h.size]
    exact hs.in_range (h.live hn).2
  dead_owned {n} hn := by
    by_cases hT : n ∈ T
    · exact (h.dead n hT).2.2.2.2.2
    · rw [h.owned_of_notMem hT]
      rw [h.live_of_notMem hT] at hn
      exact hs.dead_owned hn

theorem trans (h₁ : Torn g T₁ g₁) (h₂ : Torn g₁ T₂ g₂) : Torn g (T₁ ++ T₂) g₂ where
  size := h₂.size.trans h₁.size
  computing := h₂.computing.trans h₁.computing
  queue := h₂.queue.trans h₁.queue
  flushing := h₂.flushing.trans h₁.flushing
  free := by rw [h₂.free, h₁.free, List.reverse_append, List.append_assoc]
  nodup := by
    refine List.nodup_append.mpr ⟨h₁.nodup, h₂.nodup, ?_⟩
    rintro a ha b hb rfl
    exact (h₁.live (h₂.was_live a hb)).1 ha
  was_live i hi := by
    rcases List.mem_append.mp hi with hi | hi
    · exact h₁.was_live i hi
    · exact (h₁.live (h₂.was_live i hi)).2
  dead i hi := by
    by_cases h2 : i ∈ T₂
    · exact h₂.dead i h2
    · obtain ⟨hl, hq, hs, hb, ho, hw⟩ := h₁.dead i ((List.mem_append.mp hi).resolve_right h2)
      have hk := h₂.kept i h2
      have hsrc : (g₂.nodes i).sources = [] := by
        have := h₂.sources i h2
        rwa [hs, List.filter_nil, List.perm_nil] at this
      have hsub : (g₂.nodes i).subscribers = [] := by
        have := h₂.subscribers i h2
        rwa [hb, List.filter_nil, List.perm_nil] at this
      refine ⟨?_, ?_, hsrc, hsub, ?_, ?_⟩ <;> rw [hk] <;> assumption
  kept i hi := by
    rw [List.mem_append, not_or] at hi
    rw [h₂.kept i hi.2, h₁.kept i hi.1]
  sources i hi := by
    rw [List.mem_append, not_or] at hi
    refine (h₂.sources i hi.2).trans (((h₁.sources i hi.1).filter _).trans (List.Perm.of_eq ?_))
    rw [List.filter_filter]
    refine List.filter_congr fun x _ => ?_
    simp [List.mem_append, not_or, Bool.and_comm]
  subscribers i hi := by
    rw [List.mem_append, not_or] at hi
    refine (h₂.subscribers i hi.2).trans (((h₁.subscribers i hi.1).filter _).trans (List.Perm.of_eq ?_))
    rw [List.filter_filter]
    refine List.filter_congr fun x _ => ?_
    simp [List.mem_append, not_or, Bool.and_comm]
  dirty := fun hd => h₂.dirty (h₁.dirty hd)

theorem congr_left {g₀ : Inner V} (h : Torn g₀ T g₁) (hn : ∀ i ∉ T, g₀.nodes i = g.nodes i)
    (hl : ∀ i ∈ T, (g.nodes i).live) (hsize : g₀.size = g.size) (hfree : g₀.free = g.free)
    (hcomputing : g₀.computing = g.computing) (hqueue : g₀.queue = g.queue) (hflushing : g₀.flushing = g.flushing)
    (hd : g.DirtyCount → g₀.DirtyCount) : Torn g T g₁ where
  size := h.size.trans hsize
  computing := h.computing.trans hcomputing
  queue := h.queue.trans hqueue
  flushing := h.flushing.trans hflushing
  free := by rw [h.free, hfree]
  nodup := h.nodup
  was_live := hl
  dead := h.dead
  kept i hi := by rw [← hn i hi]; exact h.kept i hi
  sources i hi := by rw [← hn i hi]; exact h.sources i hi
  subscribers i hi := by rw [← hn i hi]; exact h.subscribers i hi
  dirty := fun hd' => h.dirty (hd hd')

end Torn

theorem DirtyCount.congr {g g' : Inner V} (hsize : g'.size = g.size) (hcount : g'.dirtyComputeds = g.dirtyComputeds)
    (hn : ∀ i, (g'.nodes i).live = (g.nodes i).live ∧ (g'.nodes i).kind = (g.nodes i).kind ∧
      (g'.nodes i).dirty = (g.nodes i).dirty) (h : g.DirtyCount) : g'.DirtyCount := by
  unfold DirtyCount dirtySet at *
  rw [hcount, h, hsize]
  congr 1
  refine Finset.filter_congr fun i _ => ?_
  rw [(hn i).1, (hn i).2.1, (hn i).2.2]

theorem mem_dirtySet :
    n ∈ g.dirtySet ↔ n < g.size ∧ (g.nodes n).live ∧ (g.nodes n).kind = .computed ∧ (g.nodes n).dirty := by
  unfold dirtySet
  rw [Finset.mem_filter, Finset.mem_range]

theorem unhookAndFree_dirtyCount (he : g.Edges) (hs : g.Slots) (hn : (g.nodes n).live)
    (h : g.DirtyCount) : (g.unhookAndFree n).DirtyCount := by
  have hset : (g.unhookAndFree n).dirtySet = g.dirtySet.erase n := by
    ext i
    rw [Finset.mem_erase, mem_dirtySet, mem_dirtySet, unhookAndFree_eq g he]
    by_cases hi : i = n
    · simp [hi, freed]
    · simp [hi, without]
  unfold DirtyCount at *
  rw [hset, unhookAndFree_eq g he]
  by_cases hd : (g.nodes n).kind = .computed ∧ (g.nodes n).dirty
  · rw [Finset.card_erase_of_mem (mem_dirtySet.mpr ⟨hs.in_range hn, hn, hd⟩), ← h]
    simp only [if_pos hd]
  · rw [Finset.erase_eq_of_notMem (fun hmem => hd (mem_dirtySet.mp hmem).2.2), ← h]
    simp only [if_neg hd]

theorem torn_unhookAndFree (he : g.Edges) (hs : g.Slots) (hn : (g.nodes n).live)
    (ho : (g.nodes n).owned = []) : Torn g [n] (g.unhookAndFree n) where
  size := by rw [unhookAndFree_eq g he]
  computing := by rw [unhookAndFree_eq g he]
  queue := by rw [unhookAndFree_eq g he]
  flushing := by rw [unhookAndFree_eq g he]
  free := by rw [unhookAndFree_eq g he]; rfl
  nodup := List.nodup_singleton n
  was_live i hi := by rw [List.mem_singleton.mp hi]; exact hn
  dead i hi := by
    rw [List.mem_singleton.mp hi, unhookAndFree_eq g he]
    simp [freed, ho]
  kept i hi := by
    rw [List.mem_singleton] at hi
    rw [unhookAndFree_eq g he]
    simp [hi, without]
  sources i hi := by
    rw [List.mem_singleton] at hi
    rw [unhookAndFree_eq g he]
    simp only [if_neg hi, without]
    exact swapRemove_perm_filter (he.nodup_sources i) n
  subscribers i hi := by
    rw [List.mem_singleton] at hi
    rw [unhookAndFree_eq g he]
    simp only [if_neg hi, without]
    exact swapRemove_perm_filter (he.nodup_subscribers i) n
  dirty := unhookAndFree_dirtyCount he hs hn

/-! ### Teardown of a subtree -/

/-- `c` is a child of `o` in the owner tree. -/
def Owns (g : Inner V) (o c : NodeId) : Prop := c ∈ (g.nodes o).owned

def Acyclic (g : Inner V) : Prop := ∀ n, ¬ TransGen g.Owns n n

/-- The nodes that own others. -/
def owners (g : Inner V) : Finset NodeId := (Finset.range g.size).filter fun n => (g.nodes n).owned ≠ []

/-- `T` is everything live below `roots` in the owner tree. -/
structure Subtree (g : Inner V) (roots T : List NodeId) : Prop where
  closed : ∀ x ∈ T, ∀ c ∈ (g.nodes x).owned, (g.nodes c).live → c ∈ T
  rooted : ∀ x ∈ T, x ∈ roots ∨ ∃ o ∈ T, x ∈ (g.nodes o).owned
  below : ∀ x ∈ T, ∃ r ∈ roots, ReflTransGen g.Owns r x
  roots : ∀ r ∈ roots, (g.nodes r).live → r ∈ T

theorem Subtree.nil (g : Inner V) : Subtree g [] [] := ⟨by simp, by simp, by simp, by simp⟩

/-- What tearing down needs of the graph. -/
structure Tearable (g : Inner V) : Prop where
  edges : g.Edges
  slots : g.Slots
  acyclic : g.Acyclic

theorem Torn.tearable {g g' : Inner V} (h : Torn g T g') (ht : g.Tearable) : g'.Tearable where
  edges := h.edges ht.edges
  slots := h.slots ht.slots
  acyclic n hn := ht.acyclic n (TransGen.mono (fun _ _ hc => h.owned_subset hc) _ _ hn)

theorem Torn.owners_subset {g g' : Inner V} (h : Torn g T g') : g'.owners ⊆ g.owners := by
  intro n hn
  unfold owners at *
  rw [Finset.mem_filter] at *
  rw [h.size] at hn
  refine ⟨hn.1, fun h0 => hn.2 ?_⟩
  exact List.eq_nil_iff_forall_not_mem.mpr fun c hc => by simpa [h0] using h.owned_subset hc

theorem Subtree.cons {g g₁ : Inner V} {l T₁ T₂ : List NodeId} (h : Torn g T₁ g₁)
    (h₁ : Subtree g [n] T₁) (h₂ : Subtree g₁ l T₂) (hT₂ : ∀ x ∈ T₂, x ∉ T₁) : Subtree g (n :: l) (T₁ ++ T₂) where
  closed x hx c hc hl := by
    rw [List.mem_append] at hx ⊢
    by_cases hcT : c ∈ T₁
    · exact Or.inl hcT
    · rcases hx with hx | hx
      · exact Or.inl (h₁.closed x hx c hc hl)
      · rw [← h.owned_of_notMem (hT₂ x hx)] at hc
        rw [← h.live_of_notMem hcT] at hl
        exact Or.inr (h₂.closed x hx c hc hl)
  rooted x hx := by
    rcases List.mem_append.mp hx with hx | hx
    · rcases h₁.rooted x hx with hr | ⟨o, ho, hxo⟩
      · exact Or.inl (by simp [List.mem_singleton.mp hr])
      · exact Or.inr ⟨o, List.mem_append_left _ ho, hxo⟩
    · rcases h₂.rooted x hx with hr | ⟨o, ho, hxo⟩
      · exact Or.inl (List.mem_cons_of_mem _ hr)
      · exact Or.inr ⟨o, List.mem_append_right _ ho, h.owned_subset hxo⟩
  below x hx := by
    rcases List.mem_append.mp hx with hx | hx
    · obtain ⟨r, hr, hrx⟩ := h₁.below x hx
      exact ⟨r, by simp [List.mem_singleton.mp hr], hrx⟩
    · obtain ⟨r, hr, hrx⟩ := h₂.below x hx
      exact ⟨r, List.mem_cons_of_mem _ hr, ReflTransGen.mono (fun _ _ hc => h.owned_subset hc) _ _ hrx⟩
  roots r hr hl := by
    rw [List.mem_append]
    by_cases hrT : r ∈ T₁
    · exact Or.inl hrT
    · rcases List.mem_cons.mp hr with rfl | hr
      · exact Or.inl (h₁.roots r (List.mem_singleton_self r) hl)
      · rw [← h.live_of_notMem hrT] at hl
        exact Or.inr (h₂.roots r hr hl)

/-- What `disposeSubtree` does at one depth, for every graph and node. -/
def TearsAt (V : Type) (depth : Nat) : Prop :=
  ∀ (g : Inner V) (n : NodeId), g.Tearable → g.owners.card < depth →
    ∃ T, Torn g T (disposeSubtree depth g n) ∧ Subtree g [n] T

theorem foldl_disposeSubtree {depth : Nat} (hdepth : TearsAt V depth) (l : List NodeId) (g : Inner V)
    (ht : g.Tearable) (hd : g.owners.card < depth) :
    ∃ T, Torn g T (l.foldl (disposeSubtree depth) g) ∧ Subtree g l T := by
  induction l generalizing g with
  | nil => exact ⟨[], Torn.refl g, Subtree.nil g⟩
  | cons n l ih =>
    obtain ⟨T₁, h₁, hs₁⟩ := hdepth g n ht hd
    have hd₁ : (disposeSubtree depth g n).owners.card < depth :=
      lt_of_le_of_lt (Finset.card_le_card h₁.owners_subset) hd
    obtain ⟨T₂, h₂, hs₂⟩ := ih (disposeSubtree depth g n) (h₁.tearable ht) hd₁
    exact ⟨T₁ ++ T₂, h₁.trans h₂, Subtree.cons h₁ hs₁ hs₂ fun x hx => (h₁.live (h₂.was_live x hx)).1⟩

theorem owns_clearOwned (g : Inner V) (n o c : NodeId) (h : (g.modify n fun m => { m with owned := [] }).Owns o c) :
    g.Owns o c := by
  unfold Owns at *
  rw [modify_nodes] at h
  by_cases ho : o = n
  · simp [ho] at h
  · simpa [ho] using h

theorem Tearable.clearOwned (ht : g.Tearable) (n : NodeId) : (g.modify n fun m => { m with owned := [] }).Tearable := by
  refine ⟨ht.edges.congr ?_ ?_ ?_, ht.slots.congr rfl rfl ?_ ?_, ?_⟩
  · intro i; rw [modify_nodes]; split_ifs with hi <;> simp [hi]
  · intro i; rw [modify_nodes]; split_ifs with hi <;> simp [hi]
  · intro i; rw [modify_nodes]; split_ifs with hi <;> simp [hi]
  · intro i; rw [modify_nodes]; split_ifs with hi <;> simp [hi]
  · intro i _; rw [modify_nodes]; split_ifs with hi <;> simp
  · exact fun m hm => ht.acyclic m (TransGen.mono (owns_clearOwned g n) _ _ hm)

theorem owners_clearOwned (n : NodeId) : (g.modify n fun m => { m with owned := [] }).owners = g.owners.erase n := by
  ext i
  unfold owners
  rw [Finset.mem_erase, Finset.mem_filter, Finset.mem_filter, modify_nodes]
  by_cases hi : i = n
  · simp [hi]
  · simp [hi]

theorem reclaimCells_nodes_ne (g : Inner V) {n i : NodeId} (h : i ≠ n) : (g.reclaimCells n).nodes i = g.nodes i := by
  unfold reclaimCells
  exact modify_nodes_ne g n (fun m => { m with content := none, body := none }) h

theorem reclaimCells_nodes_self (g : Inner V) (n : NodeId) :
    (g.reclaimCells n).nodes n = { g.nodes n with content := none, body := none } := by
  unfold reclaimCells
  exact modify_nodes_self g n (fun m => { m with content := none, body := none })

theorem torn_reclaim (he : g.Edges) (hs : g.Slots) (hn : (g.nodes n).live)
    (ho : (g.nodes n).owned = []) : Torn g [n] ((g.reclaimCells n).unhookAndFree n) := by
  have hnode : ∀ i, (g.reclaimCells n).nodes i =
      { g.nodes i with
        content := ((g.reclaimCells n).nodes i).content, body := ((g.reclaimCells n).nodes i).body } := by
    intro i
    by_cases hi : i = n
    · rw [hi, reclaimCells_nodes_self]
    · rw [reclaimCells_nodes_ne g hi]
  have he' : (g.reclaimCells n).Edges :=
    he.congr (fun i => by rw [hnode]) (fun i => by rw [hnode]) (fun i => by rw [hnode])
  have hs' : (g.reclaimCells n).Slots :=
    hs.congr rfl rfl (fun i => by rw [hnode]) (fun i _ => Or.inl (by rw [hnode]))
  have hn' : ((g.reclaimCells n).nodes n).live := by rw [hnode]; exact hn
  have ho' : ((g.reclaimCells n).nodes n).owned = [] := by rw [hnode]; exact ho
  refine (torn_unhookAndFree he' hs' hn' ho').congr_left ?_ ?_ rfl rfl rfl rfl rfl ?_
  · intro i hi
    exact reclaimCells_nodes_ne g (by simpa using hi)
  · intro i hi
    rw [List.mem_singleton.mp hi]
    exact hn
  · refine DirtyCount.congr rfl rfl fun i => ?_
    rw [hnode]
    exact ⟨rfl, rfl, rfl⟩

theorem Subtree.notMem_root (ha : g.Acyclic)
    (h : Subtree (g.modify n fun m => { m with owned := [] }) (g.nodes n).owned.reverse T) : n ∉ T := by
  intro hn
  obtain ⟨r, hr, hrn⟩ := h.below n hn
  exact ha n (TransGen.head' (List.mem_reverse.mp hr) (ReflTransGen.mono (owns_clearOwned g n) _ _ hrn))

/-- A live node goes down after its subtree. -/
theorem Subtree.root
    (h : Subtree (g.modify n fun m => { m with owned := [] }) (g.nodes n).owned.reverse T) (hn : n ∉ T) :
    Subtree g [n] (T ++ [n]) := by
  have hlive : ∀ i, ((g.modify n fun m => { m with owned := [] }).nodes i).live = (g.nodes i).live := by
    intro i
    rw [modify_nodes]
    split_ifs with hi <;> simp [hi]
  have hne : ∀ {x}, x ∈ T → x ≠ n := fun hx heq => hn (heq ▸ hx)
  refine ⟨?_, ?_, ?_, ?_⟩
  · intro x hx c hc hl
    rw [List.mem_append]
    rcases List.mem_append.mp hx with hx | hx
    · refine Or.inl (h.closed x hx c ?_ (by rw [hlive]; exact hl))
      rw [modify_nodes_ne _ _ _ (hne hx)]
      exact hc
    · rw [List.mem_singleton.mp hx] at hc
      exact Or.inl (h.roots c (List.mem_reverse.mpr hc) (by rw [hlive]; exact hl))
  · intro x hx
    rcases List.mem_append.mp hx with hx | hx
    · rcases h.rooted x hx with hr | ⟨o, ho, hxo⟩
      · exact Or.inr ⟨n, by simp, List.mem_reverse.mp hr⟩
      · exact Or.inr ⟨o, List.mem_append_left _ ho, owns_clearOwned g n o x hxo⟩
    · exact Or.inl hx
  · intro x hx
    refine ⟨n, List.mem_singleton_self n, ?_⟩
    rcases List.mem_append.mp hx with hx | hx
    · obtain ⟨r, hr, hrx⟩ := h.below x hx
      exact ReflTransGen.head (List.mem_reverse.mp hr) (ReflTransGen.mono (owns_clearOwned g n) _ _ hrx)
    · rw [List.mem_singleton.mp hx]
  · intro r hr _
    rw [List.mem_singleton.mp hr]
    simp

theorem foldl_owned_tears {depth : Nat} (hdepth : TearsAt V depth) (ht : g.Tearable)
    (hn : (g.nodes n).live) (hd : g.owners.card < depth + 1) :
    ∃ T, Torn (g.modify n fun m => { m with owned := [] }) T
        ((g.nodes n).owned.reverse.foldl (disposeSubtree depth) (g.modify n fun m => { m with owned := [] })) ∧
      Subtree (g.modify n fun m => { m with owned := [] }) (g.nodes n).owned.reverse T := by
  by_cases ho : (g.nodes n).owned = []
  · rw [ho]
    exact ⟨[], Torn.refl _, Subtree.nil _⟩
  · refine foldl_disposeSubtree hdepth _ _ (ht.clearOwned n) ?_
    have hmem : n ∈ g.owners :=
      Finset.mem_filter.mpr ⟨Finset.mem_range.mpr (ht.slots.in_range hn), ho⟩
    rw [owners_clearOwned, Finset.card_erase_of_mem hmem]
    have := Finset.card_pos.mpr ⟨n, hmem⟩
    omega

theorem disposeSubtree_tears (V : Type) (depth : Nat) : TearsAt V depth := by
  induction depth with
  | zero => exact fun g n _ hd => absurd hd (Nat.not_lt_zero _)
  | succ depth ih =>
    intro g n ht hd
    rw [disposeSubtree]
    by_cases hn : (g.nodes n).live
    · simp only [if_pos hn]
      obtain ⟨T, hT, hsub⟩ := foldl_owned_tears ih ht hn hd
      have hnT : n ∉ T := hsub.notMem_root ht.acyclic
      have ht' := hT.tearable (ht.clearOwned n)
      have hlive : ((List.foldl (disposeSubtree depth) (g.modify n fun m => { m with owned := [] })
          (g.nodes n).owned.reverse).nodes n).live := by
        rw [hT.live_of_notMem hnT, modify_nodes_self]
        exact hn
      have howned : ((List.foldl (disposeSubtree depth) (g.modify n fun m => { m with owned := [] })
          (g.nodes n).owned.reverse).nodes n).owned = [] := by
        rw [hT.owned_of_notMem hnT, modify_nodes_self]
      refine ⟨T ++ [n], (hT.trans (torn_reclaim ht'.edges ht'.slots hlive howned)).congr_left ?_ ?_ rfl rfl rfl rfl rfl ?_,
        hsub.root hnT⟩
      · intro i hi
        exact modify_nodes_ne _ _ _ (by simp only [List.mem_append, List.mem_singleton, not_or] at hi; exact hi.2)
      · intro i hi
        rcases List.mem_append.mp hi with hi | hi
        · have := hT.was_live i hi
          rw [modify_nodes_ne _ _ _ (fun h : i = n => hnT (h ▸ hi))] at this
          exact this
        · rw [List.mem_singleton.mp hi]
          exact hn
      · refine DirtyCount.congr rfl rfl fun i => ?_
        rw [modify_nodes]
        split_ifs with hi <;> simp [hi]
    · simp only [if_neg hn]
      refine ⟨[], Torn.refl g, ⟨by simp, by simp, by simp, ?_⟩⟩
      intro r hr hl
      rw [List.mem_singleton.mp hr] at hl
      exact absurd hl hn

theorem disposeOwned_tears (ht : g.Tearable) (n : NodeId) :
    ∃ T, Torn (g.modify n fun m => { m with owned := [] }) T (g.disposeOwned n) ∧
      Subtree (g.modify n fun m => { m with owned := [] }) (g.nodes n).owned.reverse T := by
  refine foldl_disposeSubtree (disposeSubtree_tears V _) _ _ (ht.clearOwned n) ?_
  have : g.owners.card ≤ g.size := by
    unfold owners
    simpa using Finset.card_filter_le (Finset.range g.size) fun n => (g.nodes n).owned ≠ []
  have := Finset.card_erase_le (s := g.owners) (a := n)
  rw [owners_clearOwned]
  omega

end Inner

end Noeta.Reactive
