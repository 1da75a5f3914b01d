import Noeta.Reactive.Dispose

/-!
# Edges, ownership and slots under every operation

`Shape` is what holds of the edges, the owner tree and the slots between two operations, and `DirtyCount` of the count of
dirty computeds. Every operation keeps both, provided it does not tear down a node whose body is running.
-/

namespace Noeta.Reactive

open Relation

namespace Inner

variable {V : Type}

/-- `owned` and `owner` agree and form a forest. -/
structure Tree (g : Inner V) : Prop where
  mem_owned : ∀ c o, c ∈ (g.nodes o).owned ↔ (g.nodes c).live ∧ (g.nodes c).owner = some o
  nodup_owned : ∀ o, (g.nodes o).owned.Nodup
  acyclic : g.Acyclic

/-- The representation invariant without the flags: only live computeds and effects run and have sources. -/
structure Shape (g : Inner V) : Prop where
  edges : g.Edges
  slots : g.Slots
  tree : g.Tree
  computing : ∀ n ∈ g.computing, (g.nodes n).live ∧ (g.nodes n).kind ≠ .signal
  subscriber_kind : ∀ {s n}, s ∈ (g.nodes n).sources → (g.nodes n).kind ≠ .signal

variable {g : Inner V} {n : NodeId} {m : Node V}

theorem Shape.tearable (h : g.Shape) : g.Tearable := ⟨h.edges, h.slots, h.tree.acyclic⟩

/-! ### Steps that change only flags and values -/

/-- The two graphs differ in the flags and contents of their nodes at most. -/
structure SameShape (g g' : Inner V) : Prop where
  size : g'.size = g.size
  free : g'.free = g.free
  node : ∀ i, g'.nodes i =
    { g.nodes i with
      dirty := (g'.nodes i).dirty, queued := (g'.nodes i).queued, content := (g'.nodes i).content }

namespace SameShape

variable {g g₁ g₂ : Inner V}

theorem refl (g : Inner V) : SameShape g g := ⟨rfl, rfl, fun _ => rfl⟩

theorem trans (h₁ : SameShape g g₁) (h₂ : SameShape g₁ g₂) : SameShape g g₂ where
  size := h₂.size.trans h₁.size
  free := h₂.free.trans h₁.free
  node i := by rw [h₂.node i, h₁.node i]

theorem modify (g : Inner V) (n : NodeId) (f : Node V → Node V)
    (hf : ∀ m, f m = { m with dirty := (f m).dirty, queued := (f m).queued, content := (f m).content }) :
    SameShape g (g.modify n f) where
  size := rfl
  free := rfl
  node i := by
    rw [modify_nodes]
    split_ifs with hi
    · rw [hi]
      exact hf _
    · rfl

theorem kind (h : SameShape g g₁) (i : NodeId) : (g₁.nodes i).kind = (g.nodes i).kind := by rw [h.node]
theorem live (h : SameShape g g₁) (i : NodeId) : (g₁.nodes i).live = (g.nodes i).live := by rw [h.node]
theorem sources (h : SameShape g g₁) (i : NodeId) : (g₁.nodes i).sources = (g.nodes i).sources := by rw [h.node]
theorem subscribers (h : SameShape g g₁) (i : NodeId) : (g₁.nodes i).subscribers = (g.nodes i).subscribers := by
  rw [h.node]
theorem owner (h : SameShape g g₁) (i : NodeId) : (g₁.nodes i).owner = (g.nodes i).owner := by rw [h.node]
theorem owned (h : SameShape g g₁) (i : NodeId) : (g₁.nodes i).owned = (g.nodes i).owned := by rw [h.node]
theorem body (h : SameShape g g₁) (i : NodeId) : (g₁.nodes i).body = (g.nodes i).body := by rw [h.node]

theorem owns (h : SameShape g g₁) : g₁.Owns = g.Owns := by
  funext o c
  unfold Owns
  rw [h.owned]

theorem shape (h : SameShape g g₁) (hc : ∀ n ∈ g₁.computing, n ∈ g.computing) (hs : g.Shape) : g₁.Shape where
  edges := hs.edges.congr h.sources h.subscribers h.live
  slots := hs.slots.congr h.size h.free h.live fun i _ => Or.inl (h.owned i)
  tree :=
    { mem_owned := fun c o => by rw [h.owned, h.live, h.owner]; exact hs.tree.mem_owned c o
      nodup_owned := fun o => by rw [h.owned]; exact hs.tree.nodup_owned o
      acyclic := fun n hn => hs.tree.acyclic n (by rwa [h.owns] at hn) }
  computing n hn := by
    rw [h.live, h.kind]
    exact hs.computing n (hc n hn)
  subscriber_kind {s n} hn := by
    rw [h.sources] at hn
    rw [h.kind]
    exact hs.subscriber_kind hn

end SameShape

theorem Shape.of_nodes {g g' : Inner V} (h : g.Shape) (hnodes : g'.nodes = g.nodes) (hsize : g'.size = g.size)
    (hfree : g'.free = g.free) (hc : g'.computing = g.computing) : g'.Shape :=
  (SameShape.mk hsize hfree fun i => by rw [hnodes]).shape (fun x hx => by rwa [hc] at hx) h

/-! ### Recording a dependency -/

theorem recordDependency_cases (g : Inner V) (source : NodeId) :
    g.recordDependency source = g ∨
      ∃ sub rest, g.computing = sub :: rest ∧ sub ≠ source ∧ source ∉ (g.nodes sub).sources ∧
        g.recordDependency source = { g with nodes := fun i =>
          { g.nodes i with
            sources := if i = sub then (g.nodes i).sources ++ [source] else (g.nodes i).sources
            subscribers := if i = source then (g.nodes i).subscribers ++ [sub] else (g.nodes i).subscribers } } := by
  unfold recordDependency
  cases hc : g.computing with
  | nil => exact Or.inl rfl
  | cons sub rest =>
    by_cases hs : sub = source
    · exact Or.inl (by simp [hs])
    · by_cases hm : source ∈ (g.nodes sub).sources
      · exact Or.inl (by simp [hs, hm])
      · refine Or.inr ⟨sub, rest, rfl, hs, hm, ?_⟩
        simp only [if_neg hs, if_neg hm]
        unfold modify
        simp only [mk.injEq, true_and, and_true]
        refine ⟨?_, hc⟩
        funext i
        by_cases hi : i = source
        · subst hi
          simp [Ne.symm hs]
        · by_cases hi' : i = sub
          · subst hi'
            simp [hs]
          · simp [hi, hi']

theorem recordDependency_edges (h : g.Shape) {source : NodeId} (hl : (g.nodes source).live) :
    (g.recordDependency source).Edges := by
  rcases recordDependency_cases g source with heq | ⟨sub, rest, hc, hne, hm, heq⟩
  · rw [heq]; exact h.edges
  · have hsub : (g.nodes sub).live := (h.computing sub (by rw [hc]; simp)).1
    have hm' : sub ∉ (g.nodes source).subscribers := fun hx => hm ((h.edges.edge source sub).mpr hx)
    rw [heq]
    refine ⟨?_, ?_, ?_, ?_, ?_⟩
    · intro s n
      have he := h.edges.edge s n
      by_cases hn : n = sub
      · by_cases hs : s = source
        · simp [hn, hs]
        · rw [hn] at he
          simp [hn, hs, he]
      · by_cases hs : s = source
        · simp only [hn, hs, if_false, if_true, List.mem_append, List.mem_singleton, or_false]
          rw [← hs]
          exact he
        · simp [hn, hs, he]
    · intro n
      by_cases hn : n = sub
      · subst hn
        simpa using List.nodup_append.mpr ⟨h.edges.nodup_sources n, List.nodup_singleton _, by
          rintro a ha b hb rfl; exact hm (by rwa [List.mem_singleton.mp hb] at ha)⟩
      · simpa [hn] using h.edges.nodup_sources n
    · intro n
      by_cases hn : n = source
      · subst hn
        simpa using List.nodup_append.mpr ⟨h.edges.nodup_subscribers n, List.nodup_singleton _, by
          rintro a ha b hb rfl; exact hm' (by rwa [List.mem_singleton.mp hb] at ha)⟩
      · simpa [hn] using h.edges.nodup_subscribers n
    · intro n
      have hi := h.edges.irrefl n
      by_cases hn : n = sub
      · subst hn
        simpa [hne] using hi
      · simpa [hn] using hi
    · intro s n hs
      by_cases hn : n = sub
      · subst hn
        simp only [if_true, List.mem_append, List.mem_singleton] at hs
        rcases hs with hs | rfl
        · exact h.edges.live hs
        · exact ⟨hl, hsub⟩
      · simp only [if_neg hn] at hs
        exact h.edges.live hs

theorem recordDependency_node (g : Inner V) (source i : NodeId) :
    (g.recordDependency source).nodes i =
      { g.nodes i with
        sources := ((g.recordDependency source).nodes i).sources
        subscribers := ((g.recordDependency source).nodes i).subscribers } := by
  rcases recordDependency_cases g source with heq | ⟨sub, rest, _, _, _, heq⟩
  · rw [heq]
  · rw [heq]

theorem recordDependency_rest (g : Inner V) (source : NodeId) :
    g.recordDependency source = { g with nodes := (g.recordDependency source).nodes } := by
  rcases recordDependency_cases g source with heq | ⟨sub, rest, _, _, _, heq⟩
  · rw [heq]
  · rw [heq]

theorem recordDependency_owns (g : Inner V) (source : NodeId) : (g.recordDependency source).Owns = g.Owns := by
  funext o c
  unfold Owns
  rw [recordDependency_node]

theorem Shape.recordDependency (h : g.Shape) {source : NodeId} (hl : (g.nodes source).live) :
    (g.recordDependency source).Shape where
  edges := recordDependency_edges h hl
  slots := by
    refine h.slots.congr ?_ ?_ (fun i => ?_) (fun i _ => Or.inl ?_)
    · rw [recordDependency_rest]
    · rw [recordDependency_rest]
    · rw [recordDependency_node]
    · rw [recordDependency_node]
  tree :=
    { mem_owned := fun c o => by
        rw [recordDependency_node g source o, recordDependency_node g source c]
        exact h.tree.mem_owned c o
      nodup_owned := fun o => by
        rw [recordDependency_node]
        exact h.tree.nodup_owned o
      acyclic := fun n hn => h.tree.acyclic n (by rwa [recordDependency_owns] at hn) }
  computing n hn := by
    rw [recordDependency_rest] at hn
    rw [recordDependency_node]
    exact h.computing n hn
  subscriber_kind {s n} hs := by
    rw [recordDependency_node]
    show (g.nodes n).kind ≠ .signal
    rcases recordDependency_cases g source with heq | ⟨sub, rest, hc, _, _, heq⟩
    · rw [heq] at hs
      exact h.subscriber_kind hs
    · by_cases hn : n = sub
      · rw [hn]
        exact (h.computing sub (by rw [hc]; simp)).2
      · rw [heq] at hs
        simp only [if_neg hn] at hs
        exact h.subscriber_kind hs

theorem recordDependency_dirtyCount (h : g.DirtyCount) (source : NodeId) : (g.recordDependency source).DirtyCount := by
  refine h.congr ?_ ?_ fun i => ?_
  · rw [recordDependency_rest]
  · rw [recordDependency_rest]
  · rw [recordDependency_node]
    exact ⟨rfl, rfl, rfl⟩

/-! ### New nodes -/

theorem Edges.dead_sources (h : g.Edges) (hn : ¬ (g.nodes n).live) : (g.nodes n).sources = [] :=
  List.eq_nil_iff_forall_not_mem.mpr fun _ hs => hn (h.live hs).2

theorem Edges.dead_subscribers (h : g.Edges) (hn : ¬ (g.nodes n).live) : (g.nodes n).subscribers = [] :=
  List.eq_nil_iff_forall_not_mem.mpr fun s hs => hn (h.live ((h.edge n s).mpr hs)).1

theorem Slots.nextSlot_dead (h : g.Slots) : ¬ (g.nodes g.nextSlot).live := by
  unfold nextSlot
  cases hf : g.free with
  | nil => exact fun hl => absurd (h.in_range hl) (Nat.lt_irrefl _)
  | cons f free => exact ((h.mem_free f).mp (by rw [hf]; simp)).2

theorem alloc_nodes (g : Inner V) (m : Node V) (i : NodeId) :
    (g.alloc m).nodes i = if i = g.nextSlot then m else g.nodes i := by
  unfold alloc
  cases g.free <;> exact modify_nodes g g.nextSlot (fun _ => m) i

theorem alloc_computing (g : Inner V) (m : Node V) : (g.alloc m).computing = g.computing := by
  unfold alloc
  cases g.free <;> rfl

theorem alloc_queue (g : Inner V) (m : Node V) : (g.alloc m).queue = g.queue := by
  unfold alloc
  cases g.free <;> rfl

theorem alloc_flushing (g : Inner V) (m : Node V) : (g.alloc m).flushing = g.flushing := by
  unfold alloc
  cases g.free <;> rfl

theorem alloc_dirtyComputeds (g : Inner V) (m : Node V) : (g.alloc m).dirtyComputeds = g.dirtyComputeds := by
  unfold alloc
  cases g.free <;> rfl

theorem Slots.alloc (h : g.Slots) (hm : m.live) : (g.alloc m).Slots := by
  have hdead := h.nextSlot_dead
  have hnode := alloc_nodes g m
  have howned : ∀ {n}, ¬ ((g.alloc m).nodes n).live → ((g.alloc m).nodes n).owned = [] := by
    intro n hn
    rw [hnode] at hn ⊢
    by_cases hi : n = g.nextSlot
    · rw [if_pos hi] at hn
      exact absurd hm hn
    · rw [if_neg hi] at hn ⊢
      exact h.dead_owned hn
  have hf := h.mem_free
  cases hfree : g.free with
  | nil =>
    have hslot : g.nextSlot = g.size := by unfold nextSlot; rw [hfree]; rfl
    have hsize : (g.alloc m).size = g.size + 1 := by unfold Inner.alloc; rw [hfree]
    have hfree' : (g.alloc m).free = [] := by unfold Inner.alloc; rw [hfree]; exact hfree
    simp only [hfree, List.not_mem_nil, false_iff, not_and, not_not] at hf
    refine ⟨by rw [hfree']; exact List.nodup_nil, ?_, ?_, howned⟩
    · intro n
      rw [hfree', hsize, hnode]
      simp only [List.not_mem_nil, false_iff, not_and, not_not]
      intro hn
      by_cases hi : n = g.nextSlot
      · rw [if_pos hi]; exact hm
      · rw [if_neg hi]
        rw [hslot] at hi
        exact hf n (Nat.lt_of_le_of_ne (Nat.le_of_lt_succ hn) hi)
    · intro n hn
      rw [hsize]
      rw [hnode] at hn
      by_cases hi : n = g.nextSlot
      · rw [hi, hslot]
        exact Nat.lt_succ_self _
      · rw [if_neg hi] at hn
        exact Nat.lt_succ_of_lt (h.in_range hn)
  | cons f free =>
    have hslot : g.nextSlot = f := by unfold nextSlot; rw [hfree]; rfl
    have hsize : (g.alloc m).size = g.size := by unfold Inner.alloc; rw [hfree]; rfl
    have hfree' : (g.alloc m).free = free := by unfold Inner.alloc; rw [hfree]
    have hnodup := h.free_nodup
    rw [hfree, List.nodup_cons] at hnodup
    have hlt : f < g.size := ((hf f).mp (by rw [hfree]; simp)).1
    refine ⟨by rw [hfree']; exact hnodup.2, ?_, ?_, howned⟩
    · intro n
      rw [hfree', hsize, hnode, hslot]
      by_cases hi : n = f
      · simp [hi, hnodup.1, hm]
      · rw [if_neg hi, ← hf n, hfree]
        simp [hi]
    · intro n hn
      rw [hsize]
      rw [hnode, hslot] at hn
      by_cases hi : n = f
      · rw [hi]
        exact hlt
      · rw [if_neg hi] at hn
        exact h.in_range hn

/-- A node without edges, owner or children is put into a free slot. -/
theorem Shape.alloc (h : g.Shape) (hm : m.live) (hsrc : m.sources = [])
    (hsub : m.subscribers = []) (howner : m.owner = none) (howned : m.owned = []) : (g.alloc m).Shape := by
  have hdead := h.slots.nextSlot_dead
  have hsrc0 := h.edges.dead_sources hdead
  have hsub0 := h.edges.dead_subscribers hdead
  have hown0 := h.slots.dead_owned hdead
  have hsources : ∀ i, ((g.alloc m).nodes i).sources = (g.nodes i).sources := by
    intro i
    rw [alloc_nodes]
    split_ifs with hi
    · rw [hsrc, hi, hsrc0]
    · rfl
  have hsubscribers : ∀ i, ((g.alloc m).nodes i).subscribers = (g.nodes i).subscribers := by
    intro i
    rw [alloc_nodes]
    split_ifs with hi
    · rw [hsub, hi, hsub0]
    · rfl
  have howned' : ∀ i, ((g.alloc m).nodes i).owned = (g.nodes i).owned := by
    intro i
    rw [alloc_nodes]
    split_ifs with hi
    · rw [howned, hi, hown0]
    · rfl
  have hlive : ∀ {i}, (g.nodes i).live → ((g.alloc m).nodes i).live := by
    intro i hi
    rw [alloc_nodes]
    split_ifs
    · exact hm
    · exact hi
  have hne : ∀ {i}, (g.nodes i).live → i ≠ g.nextSlot := fun hi heq => hdead (heq ▸ hi)
  refine ⟨⟨?_, ?_, ?_, ?_, ?_⟩, h.slots.alloc hm, ⟨?_, ?_, ?_⟩, ?_, ?_⟩
  · intro s n
    rw [hsources, hsubscribers]
    exact h.edges.edge s n
  · intro n
    rw [hsources]
    exact h.edges.nodup_sources n
  · intro n
    rw [hsubscribers]
    exact h.edges.nodup_subscribers n
  · intro n
    rw [hsources]
    exact h.edges.irrefl n
  · intro s n hs
    rw [hsources] at hs
    exact ⟨hlive (h.edges.live hs).1, hlive (h.edges.live hs).2⟩
  · intro c o
    rw [howned', h.tree.mem_owned, alloc_nodes]
    by_cases hc : c = g.nextSlot
    · rw [if_pos hc, howner]
      have : ¬ (g.nodes c).live := by rw [hc]; exact hdead
      simp [this]
    · rw [if_neg hc]
  · intro o
    rw [howned']
    exact h.tree.nodup_owned o
  · intro n hn
    refine h.tree.acyclic n (TransGen.mono ?_ _ _ hn)
    intro o c hc
    unfold Owns at *
    rwa [howned'] at hc
  · intro n hn
    rw [alloc_computing] at hn
    have hc := h.computing n hn
    rw [alloc_nodes, if_neg (hne hc.1)]
    exact hc
  · intro s n hs
    rw [hsources] at hs
    rw [alloc_nodes, if_neg (hne (h.edges.live hs).2)]
    exact h.subscriber_kind hs

theorem adopt_nil (hc : g.computing = []) (n : NodeId) : g.adopt n = g := by
  unfold adopt
  rw [hc]

theorem adopt_cons {o : NodeId} {rest : List NodeId} (hc : g.computing = o :: rest) (hne : o ≠ n) :
    g.adopt n = { g with nodes := fun i =>
      { g.nodes i with
        owner := if i = n then some o else (g.nodes i).owner
        owned := if i = o then (g.nodes i).owned ++ [n] else (g.nodes i).owned } } := by
  unfold adopt
  rw [hc]
  unfold modify
  simp only [mk.injEq, true_and, and_true]
  refine ⟨?_, hc⟩
  funext i
  by_cases hi : i = o
  · subst hi
    simp [hne]
  · by_cases hi' : i = n
    · subst hi'
      simp [hi]
    · simp [hi, hi']

theorem adopt_node (g : Inner V) (n i : NodeId) :
    (g.adopt n).nodes i =
      { g.nodes i with owner := ((g.adopt n).nodes i).owner, owned := ((g.adopt n).nodes i).owned } := by
  unfold adopt
  cases g.computing with
  | nil => rfl
  | cons o rest =>
    simp only [modify_nodes]
    by_cases hi : i = o
    · by_cases hi' : o = n
      · simp [hi, hi']
      · simp [hi, hi']
    · by_cases hi' : i = n
      · subst hi'
        simp [hi]
      · simp [hi, hi']

theorem adopt_rest (g : Inner V) (n : NodeId) : g.adopt n = { g with nodes := (g.adopt n).nodes } := by
  obtain hc | ⟨o, rest, hc⟩ : g.computing = [] ∨ ∃ o rest, g.computing = o :: rest := by
    cases g.computing <;> simp
  · rw [adopt_nil hc]
  · have heq : g.adopt n = (g.modify n fun m => { m with owner := some o }).modify o
        fun m => { m with owned := m.owned ++ [n] } := by
      unfold adopt
      rw [hc]
    rw [heq]
    rfl

/-- A new root becomes a child of the running node. -/
theorem Shape.adopt (h : g.Shape) (hn : (g.nodes n).live)
    (howner : (g.nodes n).owner = none) (howned : (g.nodes n).owned = []) (hnew : n ∉ g.computing) :
    (g.adopt n).Shape := by
  cases hc : g.computing with
  | nil => rw [adopt_nil hc]; exact h
  | cons o rest =>
    have hne : o ≠ n := fun heq => hnew (by rw [hc, heq]; simp)
    have hol : (g.nodes o).live := (h.computing o (by rw [hc]; simp)).1
    rw [adopt_cons hc hne]
    refine ⟨h.edges.congr (fun _ => rfl) (fun _ => rfl) (fun _ => rfl),
      h.slots.congr rfl rfl (fun _ => rfl) ?_, ⟨?_, ?_, ?_⟩, fun i hi => h.computing i hi, h.subscriber_kind⟩
    · intro i hi
      have hio : i ≠ o := fun heq => hi (heq ▸ hol)
      exact Or.inl (by simp [hio])
    · intro c p
      have ht := h.tree.mem_owned c p
      by_cases hcn : c = n
      · subst hcn
        have hnot : c ∉ (g.nodes p).owned := by
          rw [ht, howner]
          simp
        by_cases hp : p = o
        · simp [hp, hn]
        · have : ¬ o = p := fun heq => hp heq.symm
          simp [hp, hnot, this]
      · by_cases hp : p = o
        · subst hp
          simp [hcn, ht]
        · simp [hp, hcn, ht]
    · intro p
      by_cases hp : p = o
      · subst hp
        have hnot : n ∉ (g.nodes p).owned := by
          rw [h.tree.mem_owned, howner]
          simp
        simpa using List.nodup_append.mpr ⟨h.tree.nodup_owned p, List.nodup_singleton _, by
          rintro a ha b hb rfl; exact hnot (by rwa [List.mem_singleton.mp hb] at ha)⟩
      · simpa [hp] using h.tree.nodup_owned p
    · -- A cycle cannot pass through `n`, which owns nothing.
      have hstep : ∀ a b, Owns { g with nodes := fun i =>
          { g.nodes i with
            owner := if i = n then some o else (g.nodes i).owner
            owned := if i = o then (g.nodes i).owned ++ [n] else (g.nodes i).owned } } a b →
          g.Owns a b ∨ a = o ∧ b = n := by
        intro a b hab
        unfold Owns at *
        by_cases ha : a = o
        · simp only [ha, if_true, List.mem_append, List.mem_singleton] at hab
          rcases hab with hab | hab
          · exact Or.inl (by rw [ha]; exact hab)
          · exact Or.inr ⟨ha, hab⟩
        · simp only [if_neg ha] at hab
          exact Or.inl hab
      have hpath : ∀ a b, TransGen (Owns { g with nodes := fun i =>
          { g.nodes i with
            owner := if i = n then some o else (g.nodes i).owner
            owned := if i = o then (g.nodes i).owned ++ [n] else (g.nodes i).owned } }) a b →
          TransGen g.Owns a b ∨ b = n := by
        intro a b hab
        induction hab with
        | single hab =>
          rcases hstep _ _ hab with hab | ⟨_, hb⟩
          · exact Or.inl (TransGen.single hab)
          · exact Or.inr hb
        | tail _ hbc ih =>
          rcases hstep _ _ hbc with hbc' | ⟨_, hc⟩
          · rcases ih with ih | rfl
            · exact Or.inl (TransGen.tail ih hbc')
            · unfold Owns at hbc'
              rw [howned] at hbc'
              exact absurd hbc' List.not_mem_nil
          · exact Or.inr hc
      intro a ha
      rcases hpath a a ha with ha' | rfl
      · exact h.tree.acyclic a ha'
      · obtain ⟨b, hab, _⟩ := TransGen.head'_iff.mp ha
        rcases hstep a b hab with hab | ⟨hao, _⟩
        · unfold Owns at hab
          rw [howned] at hab
          exact absurd hab List.not_mem_nil
        · exact hne hao.symm

theorem Shape.create (h : g.Shape) (hm : m.live) (hsrc : m.sources = [])
    (hsub : m.subscribers = []) (howner : m.owner = none) (howned : m.owned = []) :
    ((g.alloc m).adopt g.nextSlot).Shape := by
  have hself : (g.alloc m).nodes g.nextSlot = m := by rw [alloc_nodes, if_pos rfl]
  refine (h.alloc hm hsrc hsub howner howned).adopt ?_ ?_ ?_ ?_
  · rw [hself]; exact hm
  · rw [hself]; exact howner
  · rw [hself]; exact howned
  · rw [alloc_computing]
    exact fun hc => h.slots.nextSlot_dead (h.computing _ hc).1

/-! ### Teardown -/

/-- Tearing down the nodes of `T` leaves a forest. `g₀` is the graph after the lists of children were adjusted: it keeps
every surviving child of a surviving node, and no surviving node has a child in `T`. -/
theorem Tree.of_torn {g g₀ g₁ : Inner V} {T : List NodeId} (ht : g.Tree) (h : Torn g₀ T g₁)
    (hnode : ∀ i, g₀.nodes i = { g.nodes i with owned := (g₀.nodes i).owned })
    (hnodup : ∀ o, (g₀.nodes o).owned.Nodup) (hsub : ∀ o c, g₀.Owns o c → g.Owns o c)
    (hkeep : ∀ o ∉ T, ∀ c ∉ T, g.Owns o c → g₀.Owns o c) (hout : ∀ o ∉ T, ∀ c, g₀.Owns o c → c ∉ T)
    (hclosed : ∀ o ∈ T, ∀ c, g.Owns o c → c ∈ T) : g₁.Tree where
  mem_owned c o := by
    have howner : c ∉ T → (g₁.nodes c).owner = (g.nodes c).owner := fun hc => by rw [h.kept c hc, hnode]
    have hlive : c ∉ T → (g₁.nodes c).live = (g.nodes c).live := fun hc => by rw [h.kept c hc, hnode]
    by_cases ho : o ∈ T
    · rw [(h.dead o ho).2.2.2.2.2]
      simp only [List.not_mem_nil, false_iff, not_and]
      intro hcl hco
      have hc := (h.live hcl).1
      rw [hlive hc] at hcl
      rw [howner hc] at hco
      exact hc (hclosed o ho c ((ht.mem_owned c o).mpr ⟨hcl, hco⟩))
    · rw [h.owned_of_notMem ho]
      constructor
      · intro hco
        have hc := hout o ho c hco
        rw [hlive hc, howner hc]
        exact (ht.mem_owned c o).mp (hsub o c hco)
      · rintro ⟨hcl, hco⟩
        have hc := (h.live hcl).1
        rw [hlive hc] at hcl
        rw [howner hc] at hco
        exact hkeep o ho c hc ((ht.mem_owned c o).mpr ⟨hcl, hco⟩)
  nodup_owned o := by
    by_cases ho : o ∈ T
    · rw [(h.dead o ho).2.2.2.2.2]
      exact List.nodup_nil
    · rw [h.owned_of_notMem ho]
      exact hnodup o
  acyclic n hn := by
    refine ht.acyclic n (TransGen.mono ?_ _ _ hn)
    exact fun o c hc => hsub o c (h.owned_subset hc)

theorem Subtree.notMem_of_owns (ht : g.Tree) {g₀ : Inner V} {roots T : List NodeId}
    (h : Subtree g₀ roots T) (hsub : ∀ o c, g₀.Owns o c → g.Owns o c) (hroots : ∀ r ∈ roots, g.Owns n r)
    {o c : NodeId} (ho : o ∉ T) (hon : o ≠ n) (hc : g₀.Owns o c) : c ∉ T := by
  have hown := ((ht.mem_owned c o).mp (hsub o c hc)).2
  intro hcT
  rcases h.rooted c hcT with hr | ⟨p, hp, hcp⟩
  · have := ((ht.mem_owned c n).mp (hroots c hr)).2
    rw [hown] at this
    exact hon (Option.some.inj this)
  · have := ((ht.mem_owned c p).mp (hsub p c hcp)).2
    rw [hown] at this
    exact ho (Option.some.inj this ▸ hp)

theorem clearOwned_node (g : Inner V) (n i : NodeId) :
    (g.modify n fun m => { m with owned := [] }).nodes i =
      { g.nodes i with owned := ((g.modify n fun m => { m with owned := [] }).nodes i).owned } := by
  rw [modify_nodes]
  split_ifs with hi
  · rw [hi]
  · rfl

/-- Everything below `n` is torn down and nothing else. -/
theorem disposeOwned_spec (h : g.Shape) (n : NodeId) :
    ∃ T, Torn (g.modify n fun m => { m with owned := [] }) T (g.disposeOwned n) ∧ (g.disposeOwned n).Tree ∧
      n ∉ T ∧ (∀ x ∈ T, TransGen g.Owns n x) ∧ ∀ x, TransGen g.Owns n x → x ∈ T := by
  obtain ⟨T, hT, hsub⟩ := disposeOwned_tears h.tearable n
  have hnT : n ∉ T := hsub.notMem_root h.tree.acyclic
  have hroots : ∀ r ∈ (g.nodes n).owned.reverse, g.Owns n r := fun r hr => List.mem_reverse.mp hr
  have hclosed : ∀ o ∈ T, ∀ c, g.Owns o c → c ∈ T := by
    intro o ho c hc
    have hon : o ≠ n := fun heq => hnT (heq ▸ ho)
    refine hsub.closed o ho c ?_ ?_
    · rw [modify_nodes_ne _ _ _ hon]
      exact hc
    · rw [clearOwned_node]
      exact ((h.tree.mem_owned c o).mp hc).1
  have hchild : ∀ c, g.Owns n c → c ∈ T := by
    intro c hc
    refine hsub.roots c (List.mem_reverse.mpr hc) ?_
    rw [clearOwned_node]
    exact ((h.tree.mem_owned c n).mp hc).1
  refine ⟨T, hT, ?_, hnT, ?_, ?_⟩
  · refine h.tree.of_torn hT (clearOwned_node g n) ?_ (owns_clearOwned g n) ?_ ?_ hclosed
    · intro o
      rw [modify_nodes]
      split_ifs
      · exact List.nodup_nil
      · exact h.tree.nodup_owned o
    · intro o ho c hc hoc
      by_cases hon : o = n
      · rw [hon] at hoc
        exact absurd (hchild c hoc) hc
      · unfold Owns
        rw [modify_nodes_ne _ _ _ hon]
        exact hoc
    · intro o ho c hoc
      by_cases hon : o = n
      · unfold Owns at hoc
        rw [hon, modify_nodes_self] at hoc
        exact absurd hoc List.not_mem_nil
      · exact hsub.notMem_of_owns h.tree (owns_clearOwned g n) hroots ho hon hoc
  · intro x hx
    obtain ⟨r, hr, hrx⟩ := hsub.below x hx
    exact TransGen.head' (hroots r hr) (ReflTransGen.mono (owns_clearOwned g n) _ _ hrx)
  · intro x hx
    induction hx with
    | single hx => exact hchild _ hx
    | tail _ hbc ih => exact hclosed _ ih _ hbc

theorem Torn.shape {g g₀ g₁ : Inner V} {T : List NodeId} (h : Torn g₀ T g₁) (hs : g.Shape)
    (hnode : ∀ i, g₀.nodes i = { g.nodes i with owned := (g₀.nodes i).owned }) (hsize : g₀.size = g.size)
    (hfree : g₀.free = g.free) (hcomputing : g₀.computing = g.computing) (hdead : ∀ i, ¬ (g.nodes i).live →
      (g₀.nodes i).owned = []) (ht : g₁.Tree) (hrun : ∀ x ∈ g.computing, x ∉ T) : g₁.Shape where
  edges := by
    refine h.edges (hs.edges.congr (fun i => ?_) (fun i => ?_) (fun i => ?_)) <;> rw [hnode]
  slots := by
    refine h.slots (hs.slots.congr hsize hfree (fun i => ?_) (fun i hi => Or.inr (hdead i hi)))
    rw [hnode]
  tree := ht
  computing n hn := by
    rw [h.computing, hcomputing] at hn
    rw [h.kept n (hrun n hn), hnode]
    exact hs.computing n hn
  subscriber_kind {s n} hn := by
    have hT : n ∉ T := fun hT => by rw [(h.dead n hT).2.2.1] at hn; simp at hn
    have hn' := ((h.mem_sources hT).mp hn).1
    rw [hnode] at hn'
    rw [h.kept n hT, hnode]
    exact hs.subscriber_kind hn'

theorem Shape.disposeOwned (h : g.Shape)
    (hrun : ∀ x ∈ g.computing, ¬ TransGen g.Owns n x) : (g.disposeOwned n).Shape := by
  obtain ⟨T, hT, htree, _, hbelow, _⟩ := disposeOwned_spec h n
  refine hT.shape h (clearOwned_node g n) rfl rfl rfl ?_ htree fun x hx hxT => hrun x hx (hbelow x hxT)
  intro i hi
  rw [modify_nodes]
  split_ifs
  · rfl
  · exact h.slots.dead_owned hi

theorem disposeOwned_dirtyCount (h : g.Shape) (hd : g.DirtyCount) (n : NodeId) : (g.disposeOwned n).DirtyCount := by
  obtain ⟨T, hT, _⟩ := disposeOwned_spec h n
  refine hT.dirty (DirtyCount.congr (g := g) rfl rfl (fun i => ?_) hd)
  rw [clearOwned_node]
  exact ⟨rfl, rfl, rfl⟩

theorem disown_eq (h : g.Shape) (hn : (g.nodes n).live) : g.disown n = { g with nodes := fun i =>
      { g.nodes i with
        owned := if (g.nodes n).owner = some i then swapRemove (g.nodes i).owned n else (g.nodes i).owned } } := by
  unfold disown
  cases ho : (g.nodes n).owner with
  | none => simp
  | some o =>
    have hol : (g.nodes o).live := h.slots.live_of_owned ((h.tree.mem_owned n o).mpr ⟨hn, ho⟩)
    simp only [hol, if_true]
    unfold modify
    simp only [mk.injEq, true_and, and_true]
    funext i
    by_cases hi : i = o
    · subst hi
      simp
    · have : ¬ o = i := fun heq => hi heq.symm
      simp [hi, this]

theorem disown_owns (h : g.Shape) (hn : (g.nodes n).live) (o c : NodeId) :
    (g.disown n).Owns o c ↔ g.Owns o c ∧ c ≠ n := by
  unfold Owns
  rw [disown_eq h hn]
  by_cases ho : (g.nodes n).owner = some o
  · simp only [ho, if_true]
    rw [(swapRemove_perm _ _).mem_iff, (h.tree.nodup_owned o).mem_erase_iff]
    tauto
  · simp only [if_neg ho]
    constructor
    · intro hc
      refine ⟨hc, fun heq => ho ?_⟩
      rw [heq] at hc
      exact ((h.tree.mem_owned n o).mp hc).2
    · exact fun hc => hc.1

theorem disown_node (h : g.Shape) (hn : (g.nodes n).live) (i : NodeId) :
    (g.disown n).nodes i = { g.nodes i with owned := ((g.disown n).nodes i).owned } := by
  rw [disown_eq h hn]

theorem disown_rest (h : g.Shape) (hn : (g.nodes n).live) : g.disown n = { g with nodes := (g.disown n).nodes } := by
  rw [disown_eq h hn]

theorem Tearable.disown (h : g.Shape) (hn : (g.nodes n).live) : (g.disown n).Tearable where
  edges := by
    refine h.edges.congr (fun i => ?_) (fun i => ?_) (fun i => ?_) <;> rw [disown_node h hn]
  slots := by
    refine h.slots.congr ?_ ?_ (fun i => ?_) (fun i hi => Or.inr ?_)
    · rw [disown_rest h hn]
    · rw [disown_rest h hn]
    · rw [disown_node h hn]
    · refine List.eq_nil_iff_forall_not_mem.mpr fun c hc => ?_
      have hc' := ((disown_owns h hn i c).mp hc).1
      unfold Owns at hc'
      rw [h.slots.dead_owned hi] at hc'
      exact List.not_mem_nil hc'
  acyclic a ha := h.tree.acyclic a (TransGen.mono (fun o c hc => ((disown_owns h hn o c).mp hc).1) _ _ ha)

/-- The graph in which only the lists of children were adjusted for the disposal of `n`. -/
def preDispose (g : Inner V) (n : NodeId) : Inner V := (g.disown n).modify n fun m => { m with owned := [] }

theorem preDispose_owns (h : g.Shape) (hn : (g.nodes n).live) (o c : NodeId) :
    (g.preDispose n).Owns o c ↔ g.Owns o c ∧ c ≠ n ∧ o ≠ n := by
  unfold preDispose Owns
  rw [modify_nodes]
  by_cases ho : o = n
  · simp [ho]
  · rw [if_neg ho]
    have := disown_owns h hn o c
    unfold Owns at this
    rw [this]
    tauto

theorem preDispose_node (h : g.Shape) (hn : (g.nodes n).live) (i : NodeId) :
    (g.preDispose n).nodes i = { g.nodes i with owned := ((g.preDispose n).nodes i).owned } := by
  unfold preDispose
  rw [clearOwned_node, disown_node h hn]

/-- `dispose`: the node and everything below it are torn down, and nothing else. -/
theorem dispose_spec (h : g.Shape) (hn : (g.nodes n).live) :
    ∃ T, Torn (g.preDispose n) T (g.dispose n) ∧ (g.dispose n).Tree ∧ ∀ x, x ∈ T ↔ ReflTransGen g.Owns n x := by
  have htear := Tearable.disown h hn
  obtain ⟨T, hT, hsub⟩ := disposeOwned_tears htear n
  have hnT : n ∉ T := hsub.notMem_root htear.acyclic
  have howned : ((g.disown n).nodes n).owned = (g.nodes n).owned := by
    have hno : (g.nodes n).owner ≠ some n := by
      intro ho
      exact h.tree.acyclic n (TransGen.single ((h.tree.mem_owned n n).mpr ⟨hn, ho⟩))
    rw [disown_eq h hn]
    simp [hno]
  rw [howned] at hsub
  have ht' := hT.tearable (htear.clearOwned n)
  have hlive : (((g.disown n).disposeOwned n).nodes n).live := by
    rw [hT.live_of_notMem hnT, modify_nodes_self]
    show ((g.disown n).nodes n).live
    rw [disown_node h hn]
    exact hn
  have hempty : (((g.disown n).disposeOwned n).nodes n).owned = [] := by
    rw [hT.owned_of_notMem hnT, modify_nodes_self]
  have hall : Torn (g.preDispose n) (T ++ [n]) (g.dispose n) := by
    unfold dispose preDispose
    rw [if_pos hn]
    exact hT.trans (torn_unhookAndFree ht'.edges ht'.slots hlive hempty)
  have hsubO : ∀ o c, (g.preDispose n).Owns o c → g.Owns o c := fun o c hc => ((preDispose_owns h hn o c).mp hc).1
  have hroots : ∀ r ∈ (g.nodes n).owned.reverse, g.Owns n r := fun r hr => List.mem_reverse.mp hr
  have hclive : ∀ {o c}, g.Owns o c → ((g.preDispose n).nodes c).live := by
    intro o c hc
    rw [preDispose_node h hn]
    exact ((h.tree.mem_owned c o).mp hc).1
  have hchild : ∀ c, g.Owns n c → c ∈ T := fun c hc => hsub.roots c (List.mem_reverse.mpr hc) (hclive hc)
  have hne : ∀ {o c}, ReflTransGen g.Owns n o → g.Owns o c → c ≠ n := by
    intro o c ho hc heq
    rw [heq] at hc
    exact h.tree.acyclic n (TransGen.tail' ho hc)
  have hbelow : ∀ x ∈ T, ReflTransGen g.Owns n x := by
    intro x hx
    obtain ⟨r, hr, hrx⟩ := hsub.below x hx
    exact ReflTransGen.head (hroots r hr) (ReflTransGen.mono hsubO _ _ hrx)
  have hclosed : ∀ o ∈ T ++ [n], ∀ c, g.Owns o c → c ∈ T := by
    intro o ho c hc
    rcases List.mem_append.mp ho with ho | ho
    · have hon : o ≠ n := fun heq => hnT (heq ▸ ho)
      exact hsub.closed o ho c ((preDispose_owns h hn o c).mpr ⟨hc, hne (hbelow o ho) hc, hon⟩) (hclive hc)
    · rw [List.mem_singleton.mp ho] at hc
      exact hchild c hc
  refine ⟨T ++ [n], hall, ?_, ?_⟩
  · refine h.tree.of_torn hall (preDispose_node h hn) ?_ hsubO ?_ ?_
      fun o ho c hc => List.mem_append_left _ (hclosed o ho c hc)
    · intro o
      unfold preDispose
      rw [modify_nodes]
      split_ifs
      · exact List.nodup_nil
      · rw [disown_eq h hn]
        show (if (g.nodes n).owner = some o then swapRemove (g.nodes o).owned n else (g.nodes o).owned).Nodup
        split_ifs
        · exact (swapRemove_perm _ _).nodup_iff.mpr ((h.tree.nodup_owned o).erase _)
        · exact h.tree.nodup_owned o
    · intro o ho c hc hoc
      rw [List.mem_append, not_or] at ho hc
      exact (preDispose_owns h hn o c).mpr ⟨hoc, by simpa using hc.2, by simpa using ho.2⟩
    · intro o ho c hoc
      rw [List.mem_append, not_or] at ho ⊢
      refine ⟨hsub.notMem_of_owns h.tree hsubO hroots ho.1 (by simpa using ho.2) hoc, ?_⟩
      simpa using ((preDispose_owns h hn o c).mp hoc).2.1
  · intro x
    constructor
    · intro hx
      rcases List.mem_append.mp hx with hx | hx
      · exact hbelow x hx
      · rw [List.mem_singleton.mp hx]
    · intro hx
      induction hx with
      | refl => simp
      | tail _ hbc ih => exact List.mem_append_left _ (hclosed _ ih _ hbc)

theorem Shape.dispose (h : g.Shape) (hn : (g.nodes n).live)
    (hrun : ∀ x ∈ g.computing, ¬ ReflTransGen g.Owns n x) : (g.dispose n).Shape := by
  obtain ⟨T, hT, htree, hmem⟩ := dispose_spec h hn
  refine hT.shape h (preDispose_node h hn) ?_ ?_ ?_ ?_ htree fun x hx hxT => hrun x hx ((hmem x).mp hxT)
  · unfold preDispose
    rw [modify_size, disown_rest h hn]
  · unfold preDispose
    rw [modify_free, disown_rest h hn]
  · unfold preDispose
    rw [modify_computing, disown_rest h hn]
  · intro i hi
    refine List.eq_nil_iff_forall_not_mem.mpr fun c hc => ?_
    have hc' := ((preDispose_owns h hn i c).mp hc).1
    unfold Owns at hc'
    rw [h.slots.dead_owned hi] at hc'
    exact List.not_mem_nil hc'

theorem dispose_dirtyCount (h : g.Shape) (hd : g.DirtyCount) (hn : (g.nodes n).live) : (g.dispose n).DirtyCount := by
  obtain ⟨T, hT, _⟩ := dispose_spec h hn
  refine hT.dirty (DirtyCount.congr (g := g) ?_ ?_ (fun i => ?_) hd)
  · unfold preDispose
    rw [modify_size, disown_rest h hn]
  · unfold preDispose
    rw [modify_dirtyComputeds, disown_rest h hn]
  · rw [preDispose_node h hn]
    exact ⟨rfl, rfl, rfl⟩

end Inner

end Noeta.Reactive
