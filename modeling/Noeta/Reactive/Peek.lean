import Noeta.Reactive.Effects

/-!
# Untracked reads

`peek` returns what `read` returns. It is meant to leave the caller unsubscribed, but for a dirty computed it is the
read, made while the caller's frame is still on top of the stack, so the caller subscribes. What a step does to the
edges of a node is said once, for every operation, and from it when a call leaves the edges of the nodes that were
running before it.
-/

namespace Noeta.Reactive

open Relation

variable {V : Type}

namespace Inner

theorem mem_recordDependency_sources (g : Inner V) (n c s : NodeId) :
    s ∈ ((g.recordDependency n).nodes c).sources ↔
      s ∈ (g.nodes c).sources ∨ s = n ∧ g.computing.head? = some c ∧ c ≠ n := by
  cases hc : g.computing with
  | nil => simp [Inner.recordDependency, hc]
  | cons sub rest =>
    have hhead : (sub :: rest).head? = some c ↔ c = sub := by simp [eq_comm]
    rw [hhead]
    by_cases hsn : sub = n
    · have heq : g.recordDependency n = g := by simp [Inner.recordDependency, hc, hsn]
      rw [heq]
      constructor
      · exact Or.inl
      · rintro (h | ⟨_, rfl, hne⟩)
        · exact h
        · exact absurd hsn hne
    · by_cases hmem : n ∈ (g.nodes sub).sources
      · have heq : g.recordDependency n = g := by simp [Inner.recordDependency, hc, hmem]
        rw [heq]
        constructor
        · exact Or.inl
        · rintro (h | ⟨rfl, rfl, _⟩)
          · exact h
          · exact hmem
      · have heq : g.recordDependency n =
            (g.modify sub fun m => { m with sources := m.sources ++ [n] }).modify n fun m =>
              { m with subscribers := m.subscribers ++ [sub] } := by
          simp [Inner.recordDependency, hc, hsn, hmem]
        have hsrc : ((g.recordDependency n).nodes c).sources =
            if c = sub then (g.nodes c).sources ++ [n] else (g.nodes c).sources := by
          rw [heq, modify_nodes]
          by_cases hcn : c = n
          · rw [if_pos hcn, hcn, modify_nodes, if_neg (Ne.symm hsn), if_neg (Ne.symm hsn)]
          · rw [if_neg hcn, modify_nodes]
            split_ifs with hcs
            · rw [hcs]
            · rfl
        rw [hsrc]
        split_ifs with hcs
        · rw [List.mem_append, List.mem_singleton]
          constructor
          · rintro (h | h)
            · exact Or.inl h
            · exact Or.inr ⟨h, hcs, fun hcn => hsn (hcs.symm.trans hcn)⟩
          · rintro (h | ⟨h, _, _⟩)
            · exact Or.inl h
            · exact Or.inr h
        · simp [hcs]

theorem Began.mem_sources {g g' : Inner V} {n : NodeId} {T : List NodeId} (h : Began g n T g') (he : g'.Edges)
    (c s : NodeId) : s ∈ (g'.nodes c).sources ↔
      s ∈ (g.nodes c).sources ∧ ¬ TransGen g.Owns n c ∧ ¬ TransGen g.Owns n s ∧ n ≠ c := by
  rw [← h.mem c, ← h.mem s]
  by_cases hcT : c ∈ T
  · have hdead : ¬ (g'.nodes c).live := by rw [h.dead c hcT]; simp
    rw [he.dead_sources hdead]
    simp [hcT]
  · by_cases hcn : n = c
    · subst hcn
      rw [h.sources_self]
      simp
    · rw [h.sources c hcT (Ne.symm hcn)]
      simp [hcT, hcn]

theorem create_sources {g : Inner V} (hs : g.Shape) (m : Node V) (hm : m.sources = []) (c : NodeId) :
    (((g.alloc m).adopt g.nextSlot).nodes c).sources = (g.nodes c).sources := by
  rw [adopt_node, alloc_nodes]
  by_cases hc : c = g.nextSlot
  · rw [if_pos hc, hc, hs.edges.dead_sources hs.slots.nextSlot_dead]
    exact hm
  · rw [if_neg hc]

end Inner

namespace Machine

open Noeta.Reactive.Inner

/-! ### The edges under a step -/

/-- A step reads `s` on behalf of the running node `c`. A peek of a dirty computed is such a read. -/
def Subscribes (m : Machine V) (op : Op V) (c s : NodeId) : Prop :=
  (op = .read s ∨ op = .peek s ∧ (m.graph.nodes s).kind = .computed ∧ (m.graph.nodes s).dirty) ∧
    m.graph.computing.head? = some c ∧ c ≠ s

/-- A step takes the edge from `c` to `s`: it tears down one of the two, or starts the body of `c` again. -/
def Severs (m : Machine V) (op : Op V) (c s : NodeId) : Prop :=
  m.TearsDown op c ∨ m.TearsDown op s ∨ m.starts op = some c

/-- What is recorded is read, and what is taken is severed. -/
def EdgesAfter (m : Machine V) (op : Op V) (c s : NodeId) : Prop :=
  (s ∈ (m.graph.nodes c).sources ∨ m.Subscribes op c s) ∧ ¬ m.Severs op c s

variable {m : Machine V} {op : Op V} {n : NodeId} {S : List NodeId}

theorem not_severs (hd : ∀ n, op ≠ .dispose n) (hn : m.starts op = none) (c s : NodeId) : ¬ m.Severs op c s := by
  have htears : ∀ x, ¬ m.TearsDown op x := by
    rintro x (⟨n, hop, _⟩ | ⟨n, hs, _⟩)
    · exact hd n hop
    · rw [hn] at hs
      exact absurd hs (by simp)
  rintro (h | h | h)
  · exact htears c h
  · exact htears s h
  · rw [hn] at h
    exact absurd h (by simp)

theorem not_subscribes (hr : ∀ n, op ≠ .read n) (hp : ∀ n, op ≠ .peek n) (c s : NodeId) : ¬ m.Subscribes op c s := by
  rintro ⟨hop | ⟨hop, _⟩, _⟩
  · exact hr s hop
  · exact hp s hop

theorem edgesAfter_of_quiet (hr : ∀ n, op ≠ .read n) (hp : ∀ n, op ≠ .peek n)
    (hd : ∀ n, op ≠ .dispose n) (hn : m.starts op = none) (c s : NodeId) :
    m.EdgesAfter op c s ↔ s ∈ (m.graph.nodes c).sources := by
  unfold EdgesAfter
  simp only [not_subscribes hr hp, not_severs hd hn, or_false, not_false_eq_true, and_true]

theorem edgesAfter_of_began {g g' : Inner V} {T : List NodeId}
    (hd : ∀ x, op ≠ .dispose x) (hn : m.starts op = some n) (hb : Began g n T g') (he : g'.Edges)
    (ho : g.Owns = m.graph.Owns) (c s : NodeId)
    (hsrc : s ∈ (g.nodes c).sources ↔ s ∈ (m.graph.nodes c).sources ∨ m.Subscribes op c s) :
    s ∈ (g'.nodes c).sources ↔ m.EdgesAfter op c s := by
  have htears : ∀ x, m.TearsDown op x ↔ TransGen m.graph.Owns n x := by
    intro x
    constructor
    · rintro (⟨x', hop, _⟩ | ⟨n', hs, hx⟩)
      · exact absurd hop (hd x')
      · rw [hn, Option.some.injEq] at hs
        rwa [hs]
    · exact fun hx => Or.inr ⟨n, hn, hx⟩
  rw [hb.mem_sources he, hsrc, ho]
  unfold EdgesAfter Severs
  rw [htears, htears, hn, Option.some.injEq]
  tauto

theorem mem_sources_readNode (hs : Sound m) (hn : (m.graph.nodes n).live) (hd : ∀ x, op ≠ .dispose x)
    (hst : m.starts op = if (m.graph.nodes n).kind = .computed ∧ (m.graph.nodes n).dirty then some n else none)
    (hsub : ∀ c s, m.Subscribes op c s ↔ s = n ∧ m.graph.computing.head? = some c ∧ c ≠ n)
    (hnext : (readNode (m.graph.recordDependency n) n m.stack).graph.Edges) (c s : NodeId) :
    s ∈ ((readNode (m.graph.recordDependency n) n m.stack).graph.nodes c).sources ↔ m.EdgesAfter op c s := by
  have hrec := mem_recordDependency_sources m.graph n c s
  rw [← hsub] at hrec
  have hnode := recordDependency_node m.graph n n
  unfold Machine.readNode at hnext ⊢
  by_cases hdirty : (m.graph.nodes n).kind = .computed ∧ (m.graph.nodes n).dirty
  · have hdirty' : ((m.graph.recordDependency n).nodes n).kind = .computed ∧
        ((m.graph.recordDependency n).nodes n).dirty := by
      rw [hnode]
      exact hdirty
    rw [if_pos hdirty'] at hnext ⊢
    rw [if_pos hdirty] at hst
    obtain ⟨T, hT⟩ := beginCompute_began (hs.shape.recordDependency hn) (n := n) (by rw [hnode]; exact hn)
    exact edgesAfter_of_began hd hst hT hnext (recordDependency_owns m.graph n) c s hrec
  · have hdirty' : ¬ (((m.graph.recordDependency n).nodes n).kind = .computed ∧
        ((m.graph.recordDependency n).nodes n).dirty) := by
      rw [hnode]
      exact hdirty
    rw [if_neg hdirty'] at hnext ⊢
    rw [if_neg hdirty] at hst
    rw [hrec]
    unfold EdgesAfter
    simp only [not_severs hd hst, not_false_eq_true, and_true]

theorem mem_sources_flushLoop {g : Inner V} {round : List NodeId} {steps : Nat}
    {stack : List Frame} (hr : ∀ n, op ≠ .read n) (hp : ∀ n, op ≠ .peek n) (hd : ∀ n, op ≠ .dispose n) (hg : g.Shape)
    (hst : m.starts op = (g.nextEffect round).2.map Prod.fst) (ho : g.Owns = m.graph.Owns)
    (hsrc : ∀ c, (g.nodes c).sources = (m.graph.nodes c).sources)
    (hnext : (flushLoop g round steps stack).graph.Edges) (c s : NodeId) :
    s ∈ ((flushLoop g round steps stack).graph.nodes c).sources ↔ m.EdgesAfter op c s := by
  rcases flushLoop_cases g round steps stack with ⟨hn, -, hflush⟩ | ⟨queue, e, rest, hn, hruns, -, hflush⟩
  · rw [hn] at hst
    rw [hflush, edgesAfter_of_quiet hr hp hd hst, ← hsrc]
  · rw [hn] at hst
    rw [hflush] at hnext ⊢
    have hsame := sameShape_taken g queue e
    obtain ⟨T, hT⟩ := beginCompute_began (hsame.shape (fun _ hx => hx) hg) ((hsame.live e).trans hruns.1)
    refine edgesAfter_of_began hd hst hT hnext (hsame.owns.trans ho) c s ?_
    rw [hsame.sources, hsrc]
    simp only [not_subscribes hr hp, or_false]

/-- **What a step does to the edges**, of whatever operation, unless it clears the graph. -/
theorem mem_sources_step (hs : Sound m) (he : m.Enabled op) (hsp : m.SparesRunning op)
    (hclear : op ≠ .clear) (c s : NodeId) :
    s ∈ ((m.step op).graph.nodes c).sources ↔ m.EdgesAfter op c s := by
  have hnext := (hs.step he hsp).shape.edges
  cases op with
  | signal v =>
    rw [edgesAfter_of_quiet (by simp) (by simp) (by simp) rfl]
    show s ∈ ((((m.graph.alloc _).adopt _).nodes c)).sources ↔ _
    rw [create_sources hs.shape _ rfl]
  | signalRoot v =>
    rw [edgesAfter_of_quiet (by simp) (by simp) (by simp) rfl]
    show s ∈ ((m.graph.alloc _).nodes c).sources ↔ _
    have hadopt := create_sources hs.shape { kind := .signal, live := true, content := some v } rfl c
    rw [adopt_node] at hadopt
    exact iff_of_eq (congrArg (s ∈ ·) hadopt)
  | computed body memo =>
    rw [edgesAfter_of_quiet (by simp) (by simp) (by simp) rfl]
    have hshape : ({ m.graph with dirtyComputeds := m.graph.dirtyComputeds + 1 } : Inner V).Shape :=
      hs.shape.of_nodes rfl rfl rfl rfl
    show s ∈ ((((({ m.graph with dirtyComputeds := m.graph.dirtyComputeds + 1 } : Inner V).alloc _).adopt _).nodes c)).sources ↔ _
    exact iff_of_eq (congrArg (s ∈ ·) (create_sources hshape _ rfl c))
  | effect body =>
    rw [edgesAfter_of_quiet (by simp) (by simp) (by simp) rfl]
    show s ∈ ((((m.graph.alloc _).adopt _).nodes c)).sources ↔ _
    rw [create_sources hs.shape _ rfl]
  | read n =>
    refine mem_sources_readNode hs he.1 (by simp) rfl (fun c s => ?_) hnext c s
    unfold Subscribes
    constructor
    · rintro ⟨hop | ⟨hop, _⟩, hhead, hcs⟩
      · cases hop
        exact ⟨rfl, hhead, hcs⟩
      · exact absurd hop (by simp)
    · rintro ⟨rfl, hhead, hcs⟩
      exact ⟨Or.inl rfl, hhead, hcs⟩
  | peek n =>
    by_cases hd : (m.graph.nodes n).kind = .computed ∧ (m.graph.nodes n).dirty
    · rw [Machine.step, if_pos hd] at hnext ⊢
      refine mem_sources_readNode hs he.1 (by simp) rfl (fun c s => ?_) hnext c s
      unfold Subscribes
      constructor
      · rintro ⟨hop | ⟨hop, _⟩, hhead, hcs⟩
        · exact absurd hop (by simp)
        · cases hop
          exact ⟨rfl, hhead, hcs⟩
      · rintro ⟨rfl, hhead, hcs⟩
        exact ⟨Or.inr ⟨rfl, hd⟩, hhead, hcs⟩
    · rw [Machine.step, if_neg hd] at hnext ⊢
      have hst : m.starts (.peek n) = none := by rw [starts, if_neg hd]
      have hsub : ¬ m.Subscribes (.peek n) c s := by
        rintro ⟨hop | ⟨hop, hdirty⟩, _⟩
        · exact absurd hop (by simp)
        · cases hop
          exact hd hdirty
      unfold EdgesAfter
      simp only [hsub, not_severs (by simp) hst, or_false, not_false_eq_true, and_true]
  | set n v =>
    rw [edgesAfter_of_quiet (by simp) (by simp) (by simp) rfl]
    have hsame := (set_propagates hs.shape hs.count n v).walked.same
    rw [Machine.step, hsame.sources, (modifyContent_same m.graph n v).1.sources]
  | touch n =>
    rw [edgesAfter_of_quiet (by simp) (by simp) (by simp) rfl]
    rw [Machine.step, (touch_propagates hs.shape hs.count n).walked.same.sources]
    rfl
  | flush =>
    refine mem_sources_flushLoop (m := m) (g := { m.graph with flushing := true }) (by simp) (by simp) (by simp)
      (hs.shape.of_nodes rfl rfl rfl rfl) ?_ rfl (fun _ => rfl) hnext c s
    exact congrArg (Option.map Prod.fst) (nextEffect_congr { m.graph with flushing := true } m.graph (fun _ => rfl)
      (fun _ => rfl) rfl [])
  | dispose n =>
    obtain ⟨T, hT, _, hmem⟩ := dispose_spec hs.shape he
    have hnode := preDispose_node hs.shape he
    have htears : ∀ x, m.TearsDown (.dispose n) x ↔ x ∈ T := by
      intro x
      rw [hmem]
      constructor
      · rintro (⟨n', hop, hx⟩ | ⟨_, hst, _⟩)
        · cases hop
          exact hx
        · exact absurd hst (by simp [starts])
      · exact fun hx => Or.inl ⟨n, rfl, hx⟩
    have hsub := @not_subscribes V m (.dispose n) (by simp) (by simp) c s
    unfold EdgesAfter Severs
    rw [htears, htears]
    simp only [hsub, or_false, starts]
    rw [Machine.step]
    by_cases hc : c ∈ T
    · have hdead : s ∉ ((m.graph.dispose n).nodes c).sources := by
        rw [(hT.dead c hc).2.2.1]
        exact List.not_mem_nil
      simp [hc, hdead]
    · rw [hT.mem_sources hc, hnode]
      simp [hc]
  | clear => exact absurd rfl hclear
  | setObserved on | drainReclaimed | drainChanged =>
    exact (edgesAfter_of_quiet (by simp) (by simp) (by simp) rfl c s).symm
  | done result =>
    rw [Machine.step] at hnext ⊢
    cases hstack : m.stack with
    | nil => exact absurd hstack he
    | cons f stack =>
      rw [hstack] at hnext
      cases f with
      | read n =>
        have hst : m.starts (.done result) = none := by simp only [starts, hstack]
        rw [edgesAfter_of_quiet (by simp) (by simp) (by simp) hst]
        show s ∈ ((m.graph.endCompute n (some result)).nodes c).sources ↔ _
        rw [(endCompute_sameShape m.graph n (some result)).sources]
      | flush e round steps =>
        have hsame := endCompute_sameShape m.graph e none
        simp only at hnext ⊢
        by_cases hmax : maxFlushSteps < steps + 1
        · have hst : m.starts (.done result) = none := by simp only [starts, hstack, if_pos hmax]
          rw [edgesAfter_of_quiet (by simp) (by simp) (by simp) hst, if_pos hmax]
          show s ∈ ((m.graph.endCompute e none).nodes c).sources ↔ _
          rw [hsame.sources]
        · rw [if_neg hmax] at hnext ⊢
          refine mem_sources_flushLoop (by simp) (by simp) (by simp) (hs.shape.endCompute e none) ?_ hsame.owns
            hsame.sources hnext c s
          simp only [starts, hstack, if_neg hmax]
          rw [nextEffect_congr _ _ hsame.live hsame.kind (endCompute_queue _ _ _)]

/-! ### The edges under a call -/

/-- A step changes no edge of a node of `S`: it severs none of them, and what it reads for a node of `S` is a source of
that node already. -/
def LeavesEdges (m : Machine V) (S : List NodeId) (op : Op V) : Prop :=
  ∀ c ∈ S, ∀ s, (s ∈ (m.graph.nodes c).sources → ¬ m.Severs op c s) ∧
    (m.Subscribes op c s → s ∈ (m.graph.nodes c).sources ∨ m.Severs op c s)

/-- The nodes of `S` depend on the same nodes in `m` and in `m'`. -/
def EdgesKept (S : List NodeId) (m m' : Machine V) : Prop :=
  ∀ c ∈ S, ∀ s, s ∈ (m'.graph.nodes c).sources ↔ s ∈ (m.graph.nodes c).sources

/-- The states of a call that was made with `base` calls waiting: it starts the body that it waits for, or returns at
once, and as long as it has not returned, whatever runs on top goes on. -/
inductive Call (P : Machine V → Op V → Prop) (base : Nat) (m : Machine V) : Machine V → Prop
  | start : Call P base m m
  | step {m' : Machine V} {op : Op V} :
      Call P base m m' → base < m'.stack.length → m'.Enabled op → P m' op → Call P base m (m'.step op)

theorem edgesKept_step_iff (hs : Sound m) (he : m.Enabled op) (hsp : m.SparesRunning op)
    (hclear : op ≠ .clear) (S : List NodeId) : EdgesKept S m (m.step op) ↔ m.LeavesEdges S op := by
  unfold EdgesKept LeavesEdges
  refine forall_congr' fun c => forall_congr' fun _ => forall_congr' fun s => ?_
  rw [mem_sources_step hs he hsp hclear]
  unfold EdgesAfter
  by_cases hsrc : s ∈ (m.graph.nodes c).sources
  · simp [hsrc]
  · by_cases hsub : m.Subscribes op c s
    · simp [hsrc, hsub]
    · simp [hsrc, hsub]

theorem EdgesKept.trans {m₁ m₂ m₃ : Machine V} (h₁ : EdgesKept S m₁ m₂) (h₂ : EdgesKept S m₂ m₃) :
    EdgesKept S m₁ m₃ := fun c hc s => (h₂ c hc s).trans (h₁ c hc s)

theorem EdgesKept.symm {m₁ m₂ : Machine V} (h : EdgesKept S m₁ m₂) : EdgesKept S m₂ m₁ :=
  fun c hc s => (h c hc s).symm

theorem Call.edgesKept {base : Nat} {m m' : Machine V} (hs : Sound m)
    (h : Call (fun m op => m.SparesRunning op ∧ m.LeavesEdges S op) base m m') : Sound m' ∧ EdgesKept S m m' := by
  induction h with
  | start => exact ⟨hs, fun _ _ _ => Iff.rfl⟩
  | @step m' op _ hlen he hp ih =>
    obtain ⟨hs', hkept⟩ := ih
    have hclear : op ≠ .clear := by
      rintro rfl
      rw [show m'.stack = [] from he] at hlen
      exact absurd hlen (by simp)
    exact ⟨hs'.step he hp.1, hkept.trans ((edgesKept_step_iff hs' he hp.1 hclear S).mpr hp.2)⟩

theorem peek_as_read (m : Machine V) (n : NodeId) :
    m.output (.peek n) = m.output (.read n) ∧
      ((m.graph.nodes n).kind = .computed ∧ (m.graph.nodes n).dirty → m.step (.peek n) = m.step (.read n)) := by
  refine ⟨rfl, fun hd => ?_⟩
  simp only [Machine.step, if_pos hd]

theorem leavesEdges_peek_clean
    (hd : ¬ ((m.graph.nodes n).kind = .computed ∧ (m.graph.nodes n).dirty)) (S : List NodeId) :
    m.LeavesEdges S (.peek n) := by
  intro c _ s
  have hst : m.starts (.peek n) = none := by rw [starts, if_neg hd]
  refine ⟨fun _ => not_severs (by simp) hst c s, ?_⟩
  rintro ⟨hop | ⟨hop, hdirty⟩, _⟩
  · exact absurd hop (by simp)
  · cases hop
    exact absurd hdirty hd

/-- **A peek returns what a read returns, and it leaves the edges of the running nodes exactly if its first step does**,
provided that the steps of the body it waits for leave them. -/
theorem peek_untracked_iff (m : Machine V) (n : NodeId) (h : Reachable SparesRunning m) (he : m.Enabled (.peek n))
    (hsp : m.SparesRunning (.peek n)) :
    m.output (.peek n) = m.output (.read n) ∧
    ((m.graph.nodes n).kind = .computed ∧ (m.graph.nodes n).dirty → m.step (.peek n) = m.step (.read n)) ∧
    ∀ m', Call (fun m' op => m'.SparesRunning op ∧ m'.LeavesEdges m.graph.computing op) m.stack.length
        (m.step (.peek n)) m' →
      (EdgesKept m.graph.computing m m' ↔ m.LeavesEdges m.graph.computing (.peek n)) := by
  have hs := h.sound fun _ _ hp => hp
  have hfirst := edgesKept_step_iff hs he hsp (by simp) m.graph.computing
  refine ⟨(peek_as_read m n).1, (peek_as_read m n).2, fun m' hcall => ?_⟩
  have hkept := (hcall.edgesKept (hs.step he hsp)).2
  rw [← hfirst]
  exact ⟨fun hm => hm.trans hkept.symm, fun hm => hm.trans hkept⟩

/-- A computed that peeks at another one while its body runs; both are dirty. -/
def peekingRun : List (Op Nat) := [.signal 0, .computed 10 0, .computed 20 0, .read 2]

theorem peekingRun_reachable : Reachable SparesRunning (peekingRun.foldl Machine.step {}) := by
  have signal : Reachable SparesRunning (({} : Machine Nat).step (.signal 0)) :=
    .step .init trivial (.of_none (by simp) rfl)
  have inner : Reachable SparesRunning ((({} : Machine Nat).step (.signal 0)).step (.computed 10 0)) :=
    .step signal trivial (.of_none (by simp) rfl)
  have outer : Reachable SparesRunning
      (((({} : Machine Nat).step (.signal 0)).step (.computed 10 0)).step (.computed 20 0)) :=
    .step inner trivial (.of_none (by simp) rfl)
  exact .step outer (show Enabled _ (.read 2) from ⟨by decide, by decide⟩) fun x _ hx => absurd hx List.not_mem_nil

/-- The outer computed peeks at the signal: no call is made, and its edges stay. -/
theorem peekingRun_clean : EdgesKept [2] (peekingRun.foldl Machine.step {})
    ((peekingRun.foldl Machine.step {}).step (.peek 0)) := by
  have hsp : (peekingRun.foldl Machine.step {}).SparesRunning (.peek 0) := .of_none (by simp) rfl
  have hleaves := leavesEdges_peek_clean (m := peekingRun.foldl Machine.step {}) (n := 0) (by decide) [2]
  exact ((peek_untracked_iff _ 0 peekingRun_reachable ⟨by decide, by decide⟩ hsp).2.2 _ .start).mpr hleaves

/-- The outer computed depends on the inner one after the peek has returned, and did not before. -/
theorem peek_subscribes_caller : ∃ (m m' : Machine Nat) (n : NodeId), Reachable SparesRunning m ∧ m.Enabled (.peek n) ∧
    Call SparesRunning m.stack.length (m.step (.peek n)) m' ∧ m'.stack = m.stack ∧
    ¬ EdgesKept m.graph.computing m m' := by
  refine ⟨peekingRun.foldl Machine.step {}, ((peekingRun.foldl Machine.step {}).step (.peek 1)).step (.done 5), 1,
    peekingRun_reachable, ⟨by decide, by decide⟩, ?_, rfl, fun hkept => ?_⟩
  · exact .step .start (by decide) (List.cons_ne_nil _ _) (.of_none (by simp) rfl)
  · exact absurd ((hkept 2 (by decide) 1).mp (by decide)) (by decide)

end Machine

end Noeta.Reactive
