import Noeta.Reactive.Invariant

/-!
# Running bodies and propagating changes

What `begin_compute`, `end_compute` and the dirty walk do to the graph.
-/

namespace Noeta.Reactive

open Relation

namespace Inner

variable {V : Type}

/-! ### Starting a body -/

/-- `g'` is `g` after the body of `n` was started: the nodes of `T` are torn down, `n` has no sources and no children,
and every other node lost its edges to `T` and its subscriber `n`. -/
structure Began (g : Inner V) (n : NodeId) (T : List NodeId) (g' : Inner V) : Prop where
  mem : ∀ x, x ∈ T ↔ TransGen g.Owns n x
  self : n ∉ T
  size : g'.size = g.size
  computing : g'.computing = n :: g.computing
  queue : g'.queue = g.queue
  flushing : g'.flushing = g.flushing
  dead : ∀ i ∈ T, (g'.nodes i).live = false
  kept : ∀ i ∉ T, g'.nodes i =
    { g.nodes i with
      sources := (g'.nodes i).sources, subscribers := (g'.nodes i).subscribers, owned := (g'.nodes i).owned }
  sources_self : (g'.nodes n).sources = []
  sources : ∀ i ∉ T, i ≠ n → ∀ s, s ∈ (g'.nodes i).sources ↔ s ∈ (g.nodes i).sources ∧ s ∉ T
  subscribers : ∀ i ∉ T, ∀ s, s ∈ (g'.nodes i).subscribers ↔ s ∈ (g.nodes i).subscribers ∧ s ∉ T ∧ s ≠ n
  owned : ∀ i ∉ T, i ≠ n → (g'.nodes i).owned = (g.nodes i).owned

variable {g : Inner V} {n : NodeId}

theorem Shape.detachSources (h : g.Shape) (n : NodeId) : (g.detachSources n).Shape := by
  have he := h.edges
  rw [detachSources_eq g he]
  have hmem : ∀ i s, s ∈ swapRemove (g.nodes i).subscribers n ↔ s ∈ (g.nodes i).subscribers ∧ s ≠ n := by
    intro i s
    rw [(swapRemove_perm _ _).mem_iff, (he.nodup_subscribers i).mem_erase_iff, and_comm]
  refine ⟨⟨?_, ?_, ?_, ?_, ?_⟩, h.slots.congr rfl rfl ?_ ?_, ⟨?_, ?_, ?_⟩, ?_, ?_⟩
  · intro s m
    have hsm := he.edge s m
    have hnn := he.notMem_subscribers n
    by_cases hm : m = n
    · by_cases hs : s = n
      · simp [hm, hs, hnn]
      · simp [hm, hs, hmem]
    · by_cases hs : s = n
      · rw [hs] at hsm
        simp [hm, hs, hsm]
      · simp [hm, hs, hmem, hsm]
  · intro m
    by_cases hm : m = n
    · simp [hm]
    · simpa [hm] using he.nodup_sources m
  · intro m
    by_cases hm : m = n
    · simpa [hm] using he.nodup_subscribers n
    · simpa [hm] using (swapRemove_perm _ _).nodup_iff.mpr ((he.nodup_subscribers m).erase n)
  · intro m
    by_cases hm : m = n
    · simp [hm]
    · simpa [hm] using he.irrefl m
  · intro s m hs
    by_cases hm : m = n
    · simp [hm] at hs
    · simp only [if_neg hm] at hs
      have hl := he.live hs
      by_cases hsn : s = n
      · simpa [hm, hsn] using hsn ▸ hl
      · simpa [hm, hsn] using hl
  · intro i
    by_cases hi : i = n <;> simp [hi]
  · intro i _
    by_cases hi : i = n <;> simp [hi]
  · intro c o
    have ht := h.tree.mem_owned c o
    by_cases hc : c = n <;> by_cases ho : o = n <;> simp [hc, ho] at * <;> exact ht
  · intro o
    have ht := h.tree.nodup_owned o
    by_cases ho : o = n
    · simpa [ho] using ho ▸ ht
    · simpa [ho] using ht
  · intro a ha
    refine h.tree.acyclic a (TransGen.mono ?_ _ _ ha)
    intro o c hc
    unfold Owns at *
    by_cases ho : o = n
    · simpa [ho] using hc
    · simpa [ho] using hc
  · intro i hi
    have hc := h.computing i hi
    by_cases hin : i = n
    · simpa [hin] using hin ▸ hc
    · simpa [hin] using hc
  · intro s m hs
    by_cases hm : m = n
    · simp [hm] at hs
    · simp only [if_neg hm] at hs ⊢
      exact h.subscriber_kind hs

theorem detachSources_dirtyCount (h : g.Edges) (hd : g.DirtyCount) (n : NodeId) : (g.detachSources n).DirtyCount := by
  rw [detachSources_eq g h]
  refine DirtyCount.congr (g := g) rfl rfl (fun i => ?_) hd
  by_cases hi : i = n <;> simp [hi]

theorem beginCompute_eq (g : Inner V) (n : NodeId) :
    g.beginCompute n =
      { (g.disposeOwned n).detachSources n with computing := n :: ((g.disposeOwned n).detachSources n).computing } := rfl

theorem Shape.beginCompute (h : g.Shape) (hn : (g.nodes n).live)
    (hk : (g.nodes n).kind ≠ .signal) (hrun : ∀ x ∈ g.computing, ¬ TransGen g.Owns n x) :
    (g.beginCompute n).Shape := by
  obtain ⟨T, hT, _, hnT, _, _⟩ := disposeOwned_spec h n
  have h₁ := h.disposeOwned hrun
  have h₂ := h₁.detachSources n
  have hnode : (g.disposeOwned n).nodes n =
      { (g.modify n fun m => { m with owned := [] }).nodes n with
        sources := ((g.disposeOwned n).nodes n).sources, subscribers := ((g.disposeOwned n).nodes n).subscribers } :=
    hT.kept n hnT
  rw [beginCompute_eq]
  refine ⟨h₂.edges.congr (fun _ => rfl) (fun _ => rfl) (fun _ => rfl),
    h₂.slots.congr rfl rfl (fun _ => rfl) (fun _ _ => Or.inl rfl), ⟨h₂.tree.mem_owned, h₂.tree.nodup_owned,
      h₂.tree.acyclic⟩, ?_, h₂.subscriber_kind⟩
  intro x hx
  rcases List.mem_cons.mp hx with rfl | hx
  · rw [detachSources_eq _ h₁.edges]
    simp only [if_true]
    rw [hnode, modify_nodes_self]
    exact ⟨hn, hk⟩
  · exact h₂.computing x hx

theorem beginCompute_dirtyCount (h : g.Shape) (hd : g.DirtyCount) (n : NodeId)
    (hrun : ∀ x ∈ g.computing, ¬ TransGen g.Owns n x) : (g.beginCompute n).DirtyCount := by
  have h₁ := disposeOwned_dirtyCount h hd n
  exact detachSources_dirtyCount (h.disposeOwned hrun).edges h₁ n

theorem beginCompute_began (h : g.Shape) (hn : (g.nodes n).live) : ∃ T, Began g n T (g.beginCompute n) := by
  obtain ⟨T, hT, _, hnT, hbelow, hmem⟩ := disposeOwned_spec h n
  have he : (g.disposeOwned n).Edges :=
    hT.edges (h.edges.congr (fun i => by rw [clearOwned_node]) (fun i => by rw [clearOwned_node])
      (fun i => by rw [clearOwned_node]))
  have hnode : ∀ i ∉ T, (g.disposeOwned n).nodes i =
      { g.nodes i with
        sources := ((g.disposeOwned n).nodes i).sources, subscribers := ((g.disposeOwned n).nodes i).subscribers
        owned := ((g.disposeOwned n).nodes i).owned } := by
    intro i hi
    rw [hT.kept i hi, clearOwned_node]
  refine ⟨T, fun x => ⟨hbelow x, hmem x⟩, hnT, ?_, ?_, ?_, ?_, ?_, ?_, ?_, ?_, ?_, ?_⟩
  · rw [beginCompute_eq, detachSources_eq _ he]
    exact hT.size
  · rw [beginCompute_eq, detachSources_eq _ he]
    simp only [hT.computing, modify_computing]
  · rw [beginCompute_eq, detachSources_eq _ he]
    exact hT.queue
  · rw [beginCompute_eq, detachSources_eq _ he]
    exact hT.flushing
  · intro i hi
    have hin : i ≠ n := fun heq => hnT (heq ▸ hi)
    rw [beginCompute_eq, detachSources_eq _ he]
    simp only [if_neg hin]
    exact (hT.dead i hi).1
  · intro i hi
    rw [beginCompute_eq, detachSources_eq _ he]
    by_cases hin : i = n
    · subst hin
      simp only [if_true]
      rw [hnode i hi]
    · simp only [if_neg hin]
      rw [hnode i hi]
  · rw [beginCompute_eq, detachSources_eq _ he]
    simp
  · intro i hi hin s
    rw [beginCompute_eq, detachSources_eq _ he]
    simp only [if_neg hin]
    rw [hT.mem_sources hi, clearOwned_node]
  · intro i hi s
    have hs := hT.mem_subscribers (s := s) hi
    rw [clearOwned_node] at hs
    rw [beginCompute_eq, detachSources_eq _ he]
    by_cases hin : i = n
    · subst hin
      simp only [if_true]
      rw [hs]
      constructor
      · rintro ⟨h1, h2⟩
        exact ⟨h1, h2, fun heq => h.edges.notMem_subscribers i (heq ▸ h1)⟩
      · exact fun ⟨h1, h2, _⟩ => ⟨h1, h2⟩
    · simp only [if_neg hin]
      rw [(swapRemove_perm _ _).mem_iff, (he.nodup_subscribers i).mem_erase_iff, hs]
      tauto
  · intro i hi hin
    rw [beginCompute_eq, detachSources_eq _ he]
    simp only [if_neg hin]
    rw [hT.owned_of_notMem hi, modify_nodes_ne _ _ _ hin]

/-! ### Finishing a body -/

theorem settleDirty_nodes (g : Inner V) (n i : NodeId) : (g.settleDirty n).nodes i = g.nodes i := by
  unfold settleDirty
  split_ifs <;> rfl

@[simp] theorem settleDirty_size (g : Inner V) (n : NodeId) : (g.settleDirty n).size = g.size := by
  unfold settleDirty
  split_ifs <;> rfl

@[simp] theorem settleDirty_free (g : Inner V) (n : NodeId) : (g.settleDirty n).free = g.free := by
  unfold settleDirty
  split_ifs <;> rfl

@[simp] theorem settleDirty_computing (g : Inner V) (n : NodeId) : (g.settleDirty n).computing = g.computing := by
  unfold settleDirty
  split_ifs <;> rfl

@[simp] theorem settleDirty_queue (g : Inner V) (n : NodeId) : (g.settleDirty n).queue = g.queue := by
  unfold settleDirty
  split_ifs <;> rfl

@[simp] theorem settleDirty_flushing (g : Inner V) (n : NodeId) : (g.settleDirty n).flushing = g.flushing := by
  unfold settleDirty
  split_ifs <;> rfl

theorem endCompute_node (g : Inner V) (n : NodeId) (result : Option V) (i : NodeId) :
    (g.endCompute n result).nodes i =
      if i = n then
        { g.nodes n with
          content := if (g.nodes n).kind = .computed then result else (g.nodes n).content, dirty := false }
      else g.nodes i := by
  unfold endCompute
  simp only [modify_nodes, settleDirty_nodes]

theorem endCompute_computing (g : Inner V) (n : NodeId) (result : Option V) :
    (g.endCompute n result).computing = g.computing.tail := by
  unfold endCompute
  simp

theorem endCompute_queue (g : Inner V) (n : NodeId) (result : Option V) : (g.endCompute n result).queue = g.queue := by
  unfold endCompute
  simp

theorem endCompute_flushing (g : Inner V) (n : NodeId) (result : Option V) :
    (g.endCompute n result).flushing = g.flushing := by
  unfold endCompute
  simp

theorem endCompute_sameShape (g : Inner V) (n : NodeId) (result : Option V) :
    SameShape g (g.endCompute n result) where
  size := by
    unfold endCompute
    simp
  free := by
    unfold endCompute
    simp
  node i := by
    rw [endCompute_node]
    by_cases hi : i = n
    · rw [if_pos hi, hi]
    · rw [if_neg hi]

theorem Shape.endCompute (h : g.Shape) (n : NodeId) (result : Option V) : (g.endCompute n result).Shape := by
  refine (endCompute_sameShape g n result).shape (fun x hx => ?_) h
  rw [endCompute_computing] at hx
  exact List.mem_of_mem_tail hx

theorem endCompute_dirtyCount (hs : g.Slots) (hd : g.DirtyCount) (hn : (g.nodes n).live)
    (result : Option V) : (g.endCompute n result).DirtyCount := by
  have hset : (g.endCompute n result).dirtySet = g.dirtySet.erase n := by
    ext i
    rw [Finset.mem_erase, mem_dirtySet, mem_dirtySet, (endCompute_sameShape g n result).size, endCompute_node]
    by_cases hi : i = n
    · simp [hi]
    · simp [hi]
  unfold DirtyCount at *
  rw [hset]
  by_cases hdn : (g.nodes n).kind = .computed ∧ (g.nodes n).dirty
  · rw [Finset.card_erase_of_mem (mem_dirtySet.mpr ⟨hs.in_range hn, hn, hdn⟩), ← hd]
    unfold endCompute settleDirty
    simp only [modify_dirtyComputeds]
    rw [if_pos hdn]
  · rw [Finset.erase_eq_of_notMem (fun hmem => hdn (mem_dirtySet.mp hmem).2.2), ← hd]
    unfold endCompute settleDirty
    simp only [modify_dirtyComputeds]
    rw [if_neg hdn]

/-! ### The dirty walk -/

/-- The walk has nothing left to do at `i`. -/
def Marked (g : Inner V) (i : NodeId) : Prop :=
  ((g.nodes i).kind = .computed → (g.nodes i).dirty) ∧ ((g.nodes i).kind = .effect → (g.nodes i).queued)

/-- `g'` is `g` after part of a dirty walk: flags were set on computeds and effects, and exactly the newly flagged
effects were queued. -/
structure Walked (g g' : Inner V) : Prop where
  same : SameShape g g'
  computing : g'.computing = g.computing
  flushing : g'.flushing = g.flushing
  content : ∀ i, (g'.nodes i).content = (g.nodes i).content
  dirty_mono : ∀ i, (g.nodes i).dirty → (g'.nodes i).dirty
  queued_mono : ∀ i, (g.nodes i).queued → (g'.nodes i).queued
  queued_effect : ∀ i, (g'.nodes i).queued → (g.nodes i).queued ∨ (g.nodes i).kind = .effect
  queue : ∃ new : List NodeId, g'.queue = g.queue ++ new ∧ new.Nodup ∧
    ∀ e, e ∈ new ↔ ¬ (g.nodes e).queued ∧ (g'.nodes e).queued

namespace Walked

variable {g g₁ g₂ : Inner V}

theorem refl (g : Inner V) : Walked g g where
  same := SameShape.refl g
  computing := rfl
  flushing := rfl
  content := fun _ => rfl
  dirty_mono := fun _ h => h
  queued_mono := fun _ h => h
  queued_effect := fun _ h => Or.inl h
  queue := ⟨[], by simp, List.nodup_nil, by simp⟩

theorem trans (h₁ : Walked g g₁) (h₂ : Walked g₁ g₂) : Walked g g₂ where
  same := h₁.same.trans h₂.same
  computing := h₂.computing.trans h₁.computing
  flushing := h₂.flushing.trans h₁.flushing
  content i := (h₂.content i).trans (h₁.content i)
  dirty_mono i hi := h₂.dirty_mono i (h₁.dirty_mono i hi)
  queued_mono i hi := h₂.queued_mono i (h₁.queued_mono i hi)
  queued_effect i hi := by
    rcases h₂.queued_effect i hi with hq | hk
    · exact h₁.queued_effect i hq
    · rw [h₁.same.kind] at hk
      exact Or.inr hk
  queue := by
    obtain ⟨new₁, hq₁, hn₁, hm₁⟩ := h₁.queue
    obtain ⟨new₂, hq₂, hn₂, hm₂⟩ := h₂.queue
    refine ⟨new₁ ++ new₂, by rw [hq₂, hq₁, List.append_assoc], ?_, ?_⟩
    · refine List.nodup_append.mpr ⟨hn₁, hn₂, ?_⟩
      rintro a ha b hb rfl
      exact ((hm₂ a).mp hb).1 ((hm₁ a).mp ha).2
    · intro e
      rw [List.mem_append, hm₁, hm₂]
      have h1 := h₁.queued_mono e
      have h2 := h₂.queued_mono e
      tauto

theorem marked (h : Walked g g₁) {i : NodeId} (hi : g.Marked i) : g₁.Marked i := by
  unfold Marked at *
  rw [h.same.kind]
  exact ⟨fun hk => h.dirty_mono i (hi.1 hk), fun hk => h.queued_mono i (hi.2 hk)⟩

end Walked

/-- The computeds the walk can still reach. -/
def cleanSet (g : Inner V) : Finset NodeId :=
  (Finset.range g.size).filter fun n => (g.nodes n).kind = .computed ∧ ¬ (g.nodes n).dirty

theorem markSubscriber_cases (g : Inner V) (work : List NodeId) (sub : NodeId) :
    (g.Marked sub ∧ markSubscriber (g, work) sub = (g, work)) ∨
    ((g.nodes sub).kind = .computed ∧ ¬ (g.nodes sub).dirty ∧
      markSubscriber (g, work) sub = ({ g.modify sub fun m => { m with dirty := true } with
        dirtyComputeds := g.dirtyComputeds + 1
        changed := if g.observed then g.changed ++ [sub] else g.changed }, sub :: work)) ∨
    ((g.nodes sub).kind = .effect ∧ ¬ (g.nodes sub).queued ∧
      markSubscriber (g, work) sub = ({ g.modify sub fun m => { m with queued := true, dirty := true } with
        queue := g.queue ++ [sub] }, work)) := by
  cases hk : (g.nodes sub).kind with
  | signal =>
    refine Or.inl ⟨⟨by simp [hk], by simp [hk]⟩, ?_⟩
    simp only [markSubscriber, hk]
  | computed =>
    by_cases hd : (g.nodes sub).dirty
    · refine Or.inl ⟨⟨fun _ => hd, by simp [hk]⟩, ?_⟩
      simp only [markSubscriber, hk, hd, if_true]
    · refine Or.inr (Or.inl ⟨rfl, hd, ?_⟩)
      simp only [markSubscriber, hk, if_neg hd]
      rfl
  | effect =>
    by_cases hq : (g.nodes sub).queued
    · refine Or.inl ⟨⟨by simp [hk], fun _ => hq⟩, ?_⟩
      simp only [markSubscriber, hk, hq, if_true]
    · refine Or.inr (Or.inr ⟨rfl, hq, ?_⟩)
      simp only [markSubscriber, hk, if_neg hq]
      rfl

theorem walked_markSubscriber (g : Inner V) (work : List NodeId) (sub : NodeId) :
    Walked g (markSubscriber (g, work) sub).1 := by
  rcases markSubscriber_cases g work sub with ⟨_, heq⟩ | ⟨hk, hd, heq⟩ | ⟨hk, hq, heq⟩
  · rw [heq]
    exact Walked.refl g
  · rw [heq]
    have hnode := modify_nodes g sub fun m => { m with dirty := true }
    have hsame := SameShape.modify g sub (fun m => { m with dirty := true }) fun _ => rfl
    refine ⟨⟨rfl, rfl, hsame.node⟩, rfl, rfl, ?_, ?_, ?_, ?_, ⟨[], by simp, List.nodup_nil, ?_⟩⟩
    · intro i
      rw [hnode]
      split_ifs with hi <;> simp [hi]
    · intro i hi
      rw [hnode]
      split_ifs
      · rfl
      · exact hi
    · intro i hi
      rw [hnode]
      split_ifs with h
      · exact h ▸ hi
      · exact hi
    · intro i hi
      rw [hnode] at hi
      split_ifs at hi with h
      · exact Or.inl (h ▸ hi)
      · exact Or.inl hi
    · intro e
      rw [hnode]
      by_cases he : e = sub
      · simp [he]
      · simp [he]
  · rw [heq]
    have hnode := modify_nodes g sub fun m => { m with queued := true, dirty := true }
    have hsame := SameShape.modify g sub (fun m => { m with queued := true, dirty := true }) fun _ => rfl
    refine ⟨⟨rfl, rfl, hsame.node⟩, rfl, rfl, ?_, ?_, ?_, ?_, ⟨[sub], rfl, List.nodup_singleton _, ?_⟩⟩
    · intro i
      rw [hnode]
      split_ifs with hi <;> simp [hi]
    · intro i hi
      rw [hnode]
      split_ifs
      · rfl
      · exact hi
    · intro i hi
      rw [hnode]
      split_ifs
      · rfl
      · exact hi
    · intro i hi
      rw [hnode] at hi
      split_ifs at hi with h
      · exact Or.inr (h ▸ hk)
      · exact Or.inl hi
    · intro e
      rw [hnode, List.mem_singleton]
      by_cases he : e = sub
      · simp [he, hq]
      · simp [he]

/-- The count of dirty computeds follows the walk, which only meets live nodes. -/
theorem markSubscriber_dirtyCount (hs : g.Slots) (hd : g.DirtyCount) (work : List NodeId) {sub : NodeId}
    (hl : (g.nodes sub).live) : (markSubscriber (g, work) sub).1.DirtyCount := by
  rcases markSubscriber_cases g work sub with ⟨_, heq⟩ | ⟨hk, hdirty, heq⟩ | ⟨hk, _, heq⟩
  · rw [heq]
    exact hd
  · rw [heq]
    have hset : dirtySet { g.modify sub fun m => { m with dirty := true } with
        dirtyComputeds := g.dirtyComputeds + 1
        changed := if g.observed then g.changed ++ [sub] else g.changed } = insert sub g.dirtySet := by
      ext i
      rw [Finset.mem_insert, mem_dirtySet, mem_dirtySet]
      show i < g.size ∧ ((g.modify sub fun m => { m with dirty := true }).nodes i).live ∧
        ((g.modify sub fun m => { m with dirty := true }).nodes i).kind = .computed ∧
        ((g.modify sub fun m => { m with dirty := true }).nodes i).dirty ↔ _
      rw [modify_nodes]
      by_cases hi : i = sub
      · simp [hi, hs.in_range hl, hl, hk]
      · simp [hi]
    have hnot : sub ∉ g.dirtySet := fun hm => hdirty (mem_dirtySet.mp hm).2.2.2
    unfold DirtyCount at *
    rw [hset, Finset.card_insert_of_notMem hnot, ← hd]
  · rw [heq]
    have hset : dirtySet { g.modify sub fun m => { m with queued := true, dirty := true } with
        queue := g.queue ++ [sub] } = g.dirtySet := by
      ext i
      rw [mem_dirtySet, mem_dirtySet]
      show i < g.size ∧ ((g.modify sub fun m => { m with queued := true, dirty := true }).nodes i).live ∧
        ((g.modify sub fun m => { m with queued := true, dirty := true }).nodes i).kind = .computed ∧
        ((g.modify sub fun m => { m with queued := true, dirty := true }).nodes i).dirty ↔ _
      rw [modify_nodes]
      by_cases hi : i = sub
      · simp [hi, hk]
      · simp [hi]
    unfold DirtyCount at *
    rw [hset, ← hd]
    rfl

/-- `b` subscribes to `a`. -/
def Feeds (g : Inner V) (a b : NodeId) : Prop := b ∈ (g.nodes a).subscribers

/-- `x` was flagged between the two graphs. -/
def Flagged (g g' : Inner V) (x : NodeId) : Prop :=
  ¬ (g.nodes x).dirty ∧ (g'.nodes x).dirty ∨ ¬ (g.nodes x).queued ∧ (g'.nodes x).queued

/-- `x` is a computed that turned dirty between the two graphs. -/
def Dirtied (g g' : Inner V) (x : NodeId) : Prop :=
  (g.nodes x).kind = .computed ∧ ¬ (g.nodes x).dirty ∧ (g'.nodes x).dirty

/-- What the walk does with the subscribers `l` of one node, from a graph and a worklist to the next ones. -/
structure Visited (l : List NodeId) (g : Inner V) (work : List NodeId) (g' : Inner V) (work' : List NodeId) :
    Prop where
  walked : Walked g g'
  count : g'.DirtyCount
  marked : ∀ i ∈ l, g'.Marked i
  kept : ∀ x ∈ work, x ∈ work'
  pushed : ∀ x, Dirtied g g' x → x ∈ work'
  origin : ∀ x ∈ work', x ∈ work ∨ x ∈ l
  flagged : ∀ x, Flagged g g' x → x ∈ l
  potential : g'.cleanSet.card + work'.length = g.cleanSet.card + work.length

theorem Visited.nil (hd : g.DirtyCount) (work : List NodeId) : Visited [] g work g work where
  walked := Walked.refl g
  count := hd
  marked := by simp
  kept := fun _ h => h
  pushed := fun x hx => absurd hx.2.2 hx.2.1
  origin := fun _ h => Or.inl h
  flagged := fun x hx => by
    rcases hx with hx | hx
    · exact absurd hx.2 hx.1
    · exact absurd hx.2 hx.1
  potential := rfl

theorem Visited.cons {a : NodeId} {l work work₁ work₂ : List NodeId} {g g₁ g₂ : Inner V}
    (h₁ : Visited [a] g work g₁ work₁) (h₂ : Visited l g₁ work₁ g₂ work₂) : Visited (a :: l) g work g₂ work₂ where
  walked := h₁.walked.trans h₂.walked
  count := h₂.count
  marked i hi := by
    rcases List.mem_cons.mp hi with rfl | hi
    · exact h₂.walked.marked (h₁.marked i (List.mem_singleton_self i))
    · exact h₂.marked i hi
  kept x hx := h₂.kept x (h₁.kept x hx)
  pushed x hx := by
    by_cases hd : (g₁.nodes x).dirty
    · exact h₂.kept x (h₁.pushed x ⟨hx.1, hx.2.1, hd⟩)
    · exact h₂.pushed x ⟨by rw [h₁.walked.same.kind]; exact hx.1, hd, hx.2.2⟩
  origin x hx := by
    rcases h₂.origin x hx with hx | hx
    · rcases h₁.origin x hx with hx | hx
      · exact Or.inl hx
      · exact Or.inr (by simp [List.mem_singleton.mp hx])
    · exact Or.inr (List.mem_cons_of_mem _ hx)
  flagged x hx := by
    have h1 := h₁.flagged x
    have h2 := h₂.flagged x
    unfold Flagged at *
    rw [List.mem_singleton] at h1
    rw [List.mem_cons]
    by_cases hd : (g₁.nodes x).dirty <;> by_cases hq : (g₁.nodes x).queued <;> simp only [hd, hq] at * <;> tauto
  potential := h₂.potential.trans h₁.potential

theorem mem_cleanSet : n ∈ g.cleanSet ↔ n < g.size ∧ (g.nodes n).kind = .computed ∧ ¬ (g.nodes n).dirty := by
  unfold cleanSet
  rw [Finset.mem_filter, Finset.mem_range]

theorem visited_markSubscriber (hs : g.Slots) (hd : g.DirtyCount) (work : List NodeId) {sub : NodeId}
    (hl : (g.nodes sub).live) :
    Visited [sub] g work (markSubscriber (g, work) sub).1 (markSubscriber (g, work) sub).2 := by
  have hw := walked_markSubscriber g work sub
  have hc := markSubscriber_dirtyCount hs hd work hl
  rcases markSubscriber_cases g work sub with ⟨hm, heq⟩ | ⟨hk, hdirty, heq⟩ | ⟨hk, hq, heq⟩
  · rw [heq]
    exact { Visited.nil hd work with
      marked := fun i hi => by rw [List.mem_singleton.mp hi]; exact hm
      origin := fun x hx => Or.inl hx
      flagged := fun x hx => absurd ((Visited.nil hd work).flagged x hx) List.not_mem_nil }
  · rw [heq] at hw hc ⊢
    have hnode := modify_nodes g sub fun m => { m with dirty := true }
    refine ⟨hw, hc, ?_, ?_, ?_, ?_, ?_, ?_⟩
    · intro i hi
      rw [List.mem_singleton.mp hi]
      refine ⟨fun _ => ?_, fun he => ?_⟩
      · show ((g.modify sub fun m => { m with dirty := true }).nodes sub).dirty
        rw [modify_nodes_self]
      · rw [hw.same.kind, hk] at he
        exact absurd he (by simp)
    · exact fun x hx => List.mem_cons_of_mem _ hx
    · rintro x ⟨_, hx, hx'⟩
      by_cases hxs : x = sub
      · rw [hxs]
        exact List.mem_cons_self
      · change ((g.modify sub fun m => { m with dirty := true }).nodes x).dirty = true at hx'
        rw [modify_nodes_ne _ _ _ hxs] at hx'
        exact absurd hx' hx
    · intro x hx
      rcases List.mem_cons.mp hx with rfl | hx
      · exact Or.inr (List.mem_singleton_self _)
      · exact Or.inl hx
    · intro x hx
      rw [List.mem_singleton]
      by_contra hxs
      unfold Flagged at hx
      change _ ∧ ((g.modify sub fun m => { m with dirty := true }).nodes x).dirty = true ∨
        _ ∧ ((g.modify sub fun m => { m with dirty := true }).nodes x).queued = true at hx
      rw [modify_nodes_ne _ _ _ hxs] at hx
      tauto
    · have hset : cleanSet { g.modify sub fun m => { m with dirty := true } with
          dirtyComputeds := g.dirtyComputeds + 1
          changed := if g.observed then g.changed ++ [sub] else g.changed } = g.cleanSet.erase sub := by
        ext i
        rw [Finset.mem_erase, mem_cleanSet, mem_cleanSet]
        show i < g.size ∧ ((g.modify sub fun m => { m with dirty := true }).nodes i).kind = .computed ∧
          ¬ ((g.modify sub fun m => { m with dirty := true }).nodes i).dirty ↔ _
        rw [hnode]
        by_cases hi : i = sub
        · simp [hi]
        · simp [hi]
      have hmem : sub ∈ g.cleanSet := mem_cleanSet.mpr ⟨hs.in_range hl, hk, hdirty⟩
      have hpos := Finset.card_pos.mpr ⟨sub, hmem⟩
      rw [hset, Finset.card_erase_of_mem hmem, List.length_cons]
      omega
  · rw [heq] at hw hc ⊢
    have hnode := modify_nodes g sub fun m => { m with queued := true, dirty := true }
    refine ⟨hw, hc, ?_, fun x hx => hx, ?_, fun x hx => Or.inl hx, ?_, ?_⟩
    · intro i hi
      rw [List.mem_singleton.mp hi]
      refine ⟨fun he => ?_, fun _ => ?_⟩
      · rw [hw.same.kind, hk] at he
        exact absurd he (by simp)
      · show ((g.modify sub fun m => { m with queued := true, dirty := true }).nodes sub).queued
        rw [modify_nodes_self]
    · rintro x ⟨hxk, hx, hx'⟩
      by_cases hxs : x = sub
      · rw [hxs, hk] at hxk
        exact absurd hxk (by simp)
      · change ((g.modify sub fun m => { m with queued := true, dirty := true }).nodes x).dirty = true at hx'
        rw [modify_nodes_ne _ _ _ hxs] at hx'
        exact absurd hx' hx
    · intro x hx
      rw [List.mem_singleton]
      by_contra hxs
      unfold Flagged at hx
      change _ ∧ ((g.modify sub fun m => { m with queued := true, dirty := true }).nodes x).dirty = true ∨
        _ ∧ ((g.modify sub fun m => { m with queued := true, dirty := true }).nodes x).queued = true at hx
      rw [modify_nodes_ne _ _ _ hxs] at hx
      tauto
    · have hset : cleanSet { g.modify sub fun m => { m with queued := true, dirty := true } with
          queue := g.queue ++ [sub] } = g.cleanSet := by
        ext i
        rw [mem_cleanSet, mem_cleanSet]
        show i < g.size ∧ ((g.modify sub fun m => { m with queued := true, dirty := true }).nodes i).kind = .computed ∧
          ¬ ((g.modify sub fun m => { m with queued := true, dirty := true }).nodes i).dirty ↔ _
        rw [hnode]
        by_cases hi : i = sub
        · simp [hi, hk]
        · simp [hi]
      rw [hset]

theorem visited_foldl (l : List NodeId) (g : Inner V) (work : List NodeId) (h : g.Shape) (hd : g.DirtyCount)
    (hl : ∀ s ∈ l, (g.nodes s).live) :
    Visited l g work (l.foldl markSubscriber (g, work)).1 (l.foldl markSubscriber (g, work)).2 := by
  induction l generalizing g work with
  | nil => exact Visited.nil hd work
  | cons a l ih =>
    have ha := visited_markSubscriber h.slots hd work (hl a List.mem_cons_self)
    have h₁ : (markSubscriber (g, work) a).1.Shape :=
      ha.walked.same.shape (fun x hx => by rwa [ha.walked.computing] at hx) h
    rw [List.foldl_cons]
    refine ha.cons (ih _ _ h₁ ha.count fun s hs => ?_)
    rw [ha.walked.same.live]
    exact hl s (List.mem_cons_of_mem _ hs)

/-- The whole walk from `n`: the subscribers of `n` and of every computed that turned dirty are marked, and everything
that was flagged is fed by `n`. -/
structure Propagated (g : Inner V) (n : NodeId) (g' : Inner V) : Prop where
  walked : Walked g g'
  count : g'.DirtyCount
  closed : ∀ x, x = n ∨ Dirtied g g' x → ∀ s ∈ (g.nodes x).subscribers, g'.Marked s
  reached : ∀ x, Flagged g g' x → TransGen g.Feeds n x

/-- The state of the walk before a round: what turned dirty is on the worklist or has its subscribers marked. -/
structure Walking (base : Inner V) (n : NodeId) (g : Inner V) (work : List NodeId) : Prop where
  walked : Walked base g
  shape : g.Shape
  count : g.DirtyCount
  pending : ∀ x, x = n ∨ Dirtied base g x → x ∈ work ∨ ∀ s ∈ (base.nodes x).subscribers, g.Marked s
  origin : ∀ x ∈ work, ReflTransGen base.Feeds n x
  reached : ∀ x, Flagged base g x → TransGen base.Feeds n x

theorem Walking.round {base g : Inner V} {n current : NodeId} {work : List NodeId}
    (h : Walking base n g (current :: work)) :
    Walking base n ((g.nodes current).subscribers.foldl markSubscriber (g, work)).1
      ((g.nodes current).subscribers.foldl markSubscriber (g, work)).2 := by
  have hlive : ∀ s ∈ (g.nodes current).subscribers, (g.nodes s).live :=
    fun s hs => (h.shape.edges.live ((h.shape.edges.edge current s).mpr hs)).2
  have hv := visited_foldl (g.nodes current).subscribers g work h.shape h.count hlive
  have hsub : (g.nodes current).subscribers = (base.nodes current).subscribers := h.walked.same.subscribers current
  have hcur := h.origin current List.mem_cons_self
  refine ⟨h.walked.trans hv.walked, ?_, hv.count, ?_, ?_, ?_⟩
  · exact hv.walked.same.shape (fun x hx => by rwa [hv.walked.computing] at hx) h.shape
  · intro x hx
    by_cases hxc : x = current
    · refine Or.inr fun s hs => hv.marked s ?_
      rw [hsub, ← hxc]
      exact hs
    by_cases hold : x = n ∨ Dirtied base g x
    · rcases h.pending x hold with hw | hm
      · exact Or.inl (hv.kept x ((List.mem_cons.mp hw).resolve_left hxc))
      · exact Or.inr fun s hs => hv.walked.marked (hm s hs)
    · rw [not_or] at hold
      obtain ⟨hk, hb, hd⟩ := hx.resolve_left hold.1
      refine Or.inl (hv.pushed x ⟨by rw [h.walked.same.kind]; exact hk, ?_, hd⟩)
      exact fun hg => hold.2 ⟨hk, hb, hg⟩
  · intro x hx
    rcases hv.origin x hx with hx | hx
    · exact h.origin x (List.mem_cons_of_mem _ hx)
    · rw [hsub] at hx
      exact ReflTransGen.tail hcur hx
  · intro x hx
    by_cases hnew : Flagged g ((g.nodes current).subscribers.foldl markSubscriber (g, work)).1 x
    · have hx' := hv.flagged x hnew
      rw [hsub] at hx'
      exact TransGen.tail' hcur hx'
    · refine h.reached x ?_
      unfold Flagged at *
      tauto

theorem markLoop_propagates (base : Inner V) (n : NodeId) (rounds : Nat) (g : Inner V) (work : List NodeId)
    (h : Walking base n g work) (hr : g.cleanSet.card + work.length ≤ rounds) :
    Propagated base n (markLoop rounds g work) := by
  have hdone : ∀ {g : Inner V}, Walking base n g [] → Propagated base n g := fun h =>
    ⟨h.walked, h.count, fun x hx => (h.pending x hx).resolve_left List.not_mem_nil, h.reached⟩
  induction rounds generalizing g work with
  | zero =>
    have hw : work = [] := List.length_eq_zero_iff.mp (by omega)
    rw [hw] at h
    exact hdone h
  | succ rounds ih =>
    cases work with
    | nil => exact hdone h
    | cons current work =>
      rw [markLoop]
      have hlive : ∀ s ∈ (g.nodes current).subscribers, (g.nodes s).live :=
        fun s hs => (h.shape.edges.live ((h.shape.edges.edge current s).mpr hs)).2
      have hv := visited_foldl (g.nodes current).subscribers g work h.shape h.count hlive
      refine ih _ _ h.round ?_
      have hp := hv.potential
      rw [List.length_cons] at hr
      omega

/-- **The dirty walk is complete and sound.** -/
theorem markDirtySubscribers_propagates (h : g.Shape) (hd : g.DirtyCount) (n : NodeId) :
    Propagated g n (g.markDirtySubscribers n) := by
  refine markLoop_propagates g n _ g [n] ?_ ?_
  · refine ⟨Walked.refl g, h, hd, ?_, ?_, ?_⟩
    · rintro x (rfl | hx)
      · exact Or.inl (List.mem_singleton_self x)
      · exact absurd hx.2.2 hx.2.1
    · intro x hx
      rw [List.mem_singleton.mp hx]
    · intro x hx
      unfold Flagged at hx
      tauto
  · have : g.cleanSet.card ≤ g.size := by
      unfold cleanSet
      simpa using Finset.card_filter_le (Finset.range g.size) fun n => (g.nodes n).kind = .computed ∧ ¬ (g.nodes n).dirty
    simpa using this

/-! ### Changing a value -/

theorem Shape.modifyContent (h : g.Shape) (n : NodeId) (v : V) :
    ((g.modify n fun m => { m with content := some v }).recordChange n).Shape := by
  have hsame := SameShape.modify g n (fun m => { m with content := some v }) fun _ => rfl
  have hsame' : SameShape g ((g.modify n fun m => { m with content := some v }).recordChange n) :=
    ⟨rfl, rfl, hsame.node⟩
  exact hsame'.shape (fun x hx => hx) h

theorem modifyContent_dirtyCount (hd : g.DirtyCount) (n : NodeId) (v : V) :
    ((g.modify n fun m => { m with content := some v }).recordChange n).DirtyCount := by
  refine DirtyCount.congr (g := g) rfl rfl (fun i => ?_) hd
  show ((g.modify n fun m => { m with content := some v }).nodes i).live = _ ∧
    ((g.modify n fun m => { m with content := some v }).nodes i).kind = _ ∧
    ((g.modify n fun m => { m with content := some v }).nodes i).dirty = _
  rw [modify_nodes]
  split_ifs with hi <;> simp [hi]

theorem set_propagates (h : g.Shape) (hd : g.DirtyCount) (n : NodeId) (v : V) :
    Propagated ((g.modify n fun m => { m with content := some v }).recordChange n) n (g.set n v) :=
  markDirtySubscribers_propagates (h.modifyContent n v) (modifyContent_dirtyCount hd n v) n

theorem touch_propagates (h : g.Shape) (hd : g.DirtyCount) (n : NodeId) :
    Propagated (g.recordChange n) n (g.touch n) := by
  have hshape : (g.recordChange n).Shape := h.of_nodes rfl rfl rfl rfl
  exact markDirtySubscribers_propagates hshape hd n

theorem Propagated.shape {g g' : Inner V} (h : Propagated g n g') (hs : g.Shape) : g'.Shape :=
  h.walked.same.shape (fun x hx => by rwa [h.walked.computing] at hx) hs

end Inner

end Noeta.Reactive
