import Noeta.Reactive.Representation

/-!
# Effects run when they are due

An effect is due from its creation, and from every change that reaches it through the nodes its last run has read, until
a flush runs it. The due effects are kept beside the machine, as a ledger that no operation reads, and compared with the
queued flags. Besides the steps that break the representation, one more kind of step loses a cause: the body of a
computed that changes what it has read. The computed is dirty until its body returns, so the walk stops there.
-/

namespace Noeta.Reactive

open Relation

variable {V : Type}

namespace Inner

/-- `n` is a computed whose memo is out of date. -/
def Stale (g : Inner V) (n : NodeId) : Prop := (g.nodes n).kind = .computed ∧ (g.nodes n).dirty

/-- What makes the walk complete although it stops at dirty nodes: the subscribers of a stale computed are marked
already, unless its body is running, and what a running computed has read is not stale, unless it is running too. -/
structure Tracked (g : Inner V) : Prop where
  marked : ∀ c s, g.Stale c → c ∉ g.computing → s ∈ (g.nodes c).subscribers → g.Marked s
  running : ∀ n c, n ∈ g.computing → (g.nodes n).kind = .computed → c ∈ (g.nodes n).sources → g.Stale c →
    c ∈ g.computing
  source_kind : ∀ n s, s ∈ (g.nodes n).sources → (g.nodes s).kind ≠ .effect

variable {g g' : Inner V} {T : List NodeId} {n : NodeId}

theorem Tracked.congr (h : g.Tracked) (hc : g'.computing = g.computing)
    (hn : ∀ i, (g'.nodes i).kind = (g.nodes i).kind ∧ (g'.nodes i).dirty = (g.nodes i).dirty ∧
      (g'.nodes i).queued = (g.nodes i).queued ∧ (g'.nodes i).sources = (g.nodes i).sources ∧
      (g'.nodes i).subscribers = (g.nodes i).subscribers) : g'.Tracked := by
  refine ⟨?_, ?_, ?_⟩
  · intro c s
    unfold Stale Marked
    rw [hc, (hn c).1, (hn c).2.1, (hn c).2.2.2.2, (hn s).1, (hn s).2.1, (hn s).2.2.1]
    exact h.marked c s
  · intro n c
    unfold Stale
    rw [hc, (hn n).1, (hn n).2.2.2.1, (hn c).1, (hn c).2.1]
    exact h.running n c
  · intro n s
    rw [(hn n).2.2.2.1, (hn s).1]
    exact h.source_kind n s

/-- The live nodes of `g'` are nodes of `g` that may have lost edges, and with all its sources a node may have lost its
queued flag. -/
structure Pruned (g g' : Inner V) : Prop where
  edges : g'.Edges
  kind : ∀ i, (g'.nodes i).live → (g'.nodes i).kind = (g.nodes i).kind
  dirty : ∀ i, (g'.nodes i).live → (g'.nodes i).dirty = (g.nodes i).dirty
  queued : ∀ i, (g'.nodes i).sources ≠ [] → (g'.nodes i).queued = (g.nodes i).queued
  sources : ∀ i s, s ∈ (g'.nodes i).sources → s ∈ (g.nodes i).sources

namespace Pruned

variable {g g' : Inner V}

theorem stale (h : Pruned g g') {i : NodeId} (hi : (g'.nodes i).live) : g'.Stale i ↔ g.Stale i := by
  unfold Stale
  rw [h.kind i hi, h.dirty i hi]

theorem tracked (h : Pruned g g')
    (hm : ∀ c s, g.Stale c → c ∉ g'.computing → c ∈ (g'.nodes s).sources → g.Marked s)
    (hr : ∀ x c, x ∈ g'.computing → (g.nodes x).kind = .computed → c ∈ (g'.nodes x).sources → g.Stale c →
      c ∈ g'.computing)
    (hk : ∀ i s, s ∈ (g.nodes i).sources → (g.nodes s).kind ≠ .effect) : g'.Tracked := by
  refine ⟨?_, ?_, ?_⟩
  · intro c s hstale hc hs
    have hsrc := (h.edges.edge c s).mpr hs
    obtain ⟨hlc, hls⟩ := h.edges.live hsrc
    have hmark := hm c s ((h.stale hlc).mp hstale) hc hsrc
    unfold Marked at *
    rw [h.kind s hls, h.dirty s hls, h.queued s (List.ne_nil_of_mem hsrc)]
    exact hmark
  · intro x c hx hxk hc hstale
    obtain ⟨hlc, hlx⟩ := h.edges.live hc
    rw [h.kind x hlx] at hxk
    exact hr x c hx hxk hc ((h.stale hlc).mp hstale)
  · intro i s hs
    rw [h.kind s (h.edges.live hs).1]
    exact hk i s (h.sources i s hs)

end Pruned

theorem Torn.pruned (h : Torn g T g') (he : g.Edges) : Pruned g g' := by
  have hT : ∀ i, (g'.nodes i).live → i ∉ T := fun i hi => (h.live hi).1
  refine ⟨h.edges he, fun i hi => ?_, fun i hi => ?_, fun i hi => ?_, fun i s hs => ?_⟩
  · rw [h.kept i (hT i hi)]
  · rw [h.kept i (hT i hi)]
  · have hi' : i ∉ T := fun hmem => hi (h.dead i hmem).2.2.1
    rw [h.kept i hi']
  · have hi' : i ∉ T := by
      intro hmem
      rw [(h.dead i hmem).2.2.1] at hs
      exact absurd hs List.not_mem_nil
    exact ((h.mem_sources hi').mp hs).1

theorem Began.pruned (h : Began g n T g') (he : g'.Edges) : Pruned g g' := by
  have hT : ∀ i, (g'.nodes i).live → i ∉ T := by
    intro i hi hmem
    rw [h.dead i hmem] at hi
    exact absurd hi (by simp)
  have hsrc : ∀ i s, s ∈ (g'.nodes i).sources → i ∉ T ∧ i ≠ n := by
    intro i s hs
    refine ⟨hT i (he.live hs).2, ?_⟩
    rintro rfl
    rw [h.sources_self] at hs
    exact absurd hs List.not_mem_nil
  refine ⟨he, fun i hi => ?_, fun i hi => ?_, fun i hi => ?_, fun i s hs => ?_⟩
  · rw [h.kept i (hT i hi)]
  · rw [h.kept i (hT i hi)]
  · obtain ⟨s, hs⟩ := List.exists_mem_of_ne_nil _ hi
    rw [h.kept i (hsrc i s hs).1]
  · obtain ⟨hiT, hin⟩ := hsrc i s hs
    exact ((h.sources i hiT hin s).mp hs).1

theorem Began.tracked (h : Began g n T g') (he : g'.Edges)
    (hm : ∀ c s, g.Stale c → c ∉ g.computing → c ≠ n → c ∈ (g.nodes s).sources → s ≠ n → g.Marked s)
    (hr : ∀ x c, x ∈ g.computing → (g.nodes x).kind = .computed → c ∈ (g.nodes x).sources → g.Stale c →
      c ∈ g.computing ∨ c = n)
    (hk : ∀ i s, s ∈ (g.nodes i).sources → (g.nodes s).kind ≠ .effect) : g'.Tracked := by
  have hp := h.pruned he
  have hself : ∀ c x, c ∈ (g'.nodes x).sources → x ≠ n := by
    rintro c x hc rfl
    rw [h.sources_self] at hc
    exact absurd hc List.not_mem_nil
  refine hp.tracked ?_ ?_ hk
  · intro c s hstale hc hs
    rw [h.computing, List.mem_cons, not_or] at hc
    exact hm c s hstale hc.2 hc.1 (hp.sources s c hs) (hself c s hs)
  · intro x c hx hxk hc hstale
    rw [h.computing, List.mem_cons] at hx ⊢
    have hx' := hx.resolve_left (hself c x hc)
    exact (hr x c hx' hxk (hp.sources x c hc) hstale).symm

/-- A body returns with its node up to date. -/
theorem Tracked.endCompute (h : g.Tracked) (he : g.Edges) {rest : List NodeId}
    (hc : g.computing = n :: rest) (result : Option V) : (g.endCompute n result).Tracked := by
  have hsame := endCompute_sameShape g n result
  have hcomp : (g.endCompute n result).computing = rest := by rw [endCompute_computing, hc]; rfl
  have hstale : ∀ i, (g.endCompute n result).Stale i → i ≠ n ∧ g.Stale i := by
    intro i hi
    unfold Stale at *
    rw [endCompute_node] at hi
    by_cases hin : i = n
    · rw [if_pos hin] at hi
      exact absurd hi.2 (by simp)
    · rw [if_neg hin] at hi
      exact ⟨hin, hi⟩
  have hout : ∀ c, c ≠ n → c ∉ rest → c ∉ g.computing := by
    intro c hcn hcr
    rw [hc, List.mem_cons, not_or]
    exact ⟨hcn, hcr⟩
  refine ⟨?_, ?_, ?_⟩
  · intro c s hs hcr hsub
    rw [hcomp] at hcr
    rw [hsame.subscribers] at hsub
    obtain ⟨hcn, hs⟩ := hstale c hs
    have hmark := h.marked c s hs (hout c hcn hcr) hsub
    unfold Marked at *
    rw [endCompute_node]
    by_cases hsn : s = n
    · -- a computed that returns has no stale source that is not running itself
      rw [if_pos hsn]
      rw [hsn] at hmark hsub
      refine ⟨fun hk => ?_, hmark.2⟩
      have hrun := h.running n c (by rw [hc]; exact List.mem_cons_self) hk ((he.edge c n).mpr hsub) hs
      exact absurd hrun (hout c hcn hcr)
    · rw [if_neg hsn]
      exact hmark
  · intro x c hx hxk hxc hs
    rw [hcomp] at hx ⊢
    rw [hsame.kind] at hxk
    rw [hsame.sources] at hxc
    obtain ⟨hcn, hs⟩ := hstale c hs
    have hrun := h.running x c (by rw [hc]; exact List.mem_cons_of_mem _ hx) hxk hxc hs
    rw [hc] at hrun
    exact (List.mem_cons.mp hrun).resolve_left hcn
  · intro i s hs
    rw [hsame.sources] at hs
    rw [hsame.kind]
    exact h.source_kind i s hs

/-! ### Changes -/

/-- A change of `n` reaches no computed whose body is running. -/
def Quiet (g : Inner V) (n : NodeId) : Prop :=
  ∀ c ∈ g.computing, (g.nodes c).kind = .computed → ¬ TransGen g.Feeds n c

theorem SameShape.feeds (h : SameShape g g') : g'.Feeds = g.Feeds := by
  funext a b
  unfold Feeds
  rw [h.subscribers]

theorem modifyContent_same (g : Inner V) (n : NodeId) (v : V) :
    SameShape g ((g.modify n fun m => { m with content := some v }).recordChange n) ∧
    ∀ i, (((g.modify n fun m => { m with content := some v }).recordChange n).nodes i).dirty = (g.nodes i).dirty ∧
      (((g.modify n fun m => { m with content := some v }).recordChange n).nodes i).queued = (g.nodes i).queued := by
  have hsame := SameShape.modify g n (fun m => { m with content := some v }) fun _ => rfl
  refine ⟨⟨rfl, rfl, hsame.node⟩, fun i => ?_⟩
  show ((g.modify n fun m => { m with content := some v }).nodes i).dirty = _ ∧
    ((g.modify n fun m => { m with content := some v }).nodes i).queued = _
  rw [modify_nodes]
  split_ifs with hi <;> simp [hi]

/-- **A change marks everything it reaches.** -/
theorem Propagated.marks (h : Propagated g n g') (hs : g.Shape) (ht : g.Tracked)
    (hq : g.Quiet n) {x : NodeId} (hx : TransGen g.Feeds n x) : g'.Marked x := by
  induction hx with
  | single hx => exact h.closed n (Or.inl rfl) _ hx
  | @tail x y hx hy ih =>
    have hkind : (g.nodes x).kind = .computed := by
      have h₁ := ht.source_kind y x ((hs.edges.edge x y).mpr hy)
      obtain ⟨w, _, hw⟩ := TransGen.tail'_iff.mp hx
      have h₂ := hs.subscriber_kind ((hs.edges.edge w x).mpr hw)
      cases hk : (g.nodes x).kind with
      | signal => exact absurd hk h₂
      | computed => rfl
      | effect => exact absurd hk h₁
    by_cases hd : (g.nodes x).dirty
    · have hrun : x ∉ g.computing := fun hmem => hq x hmem hkind hx
      exact h.walked.marked (ht.marked x y ⟨hkind, hd⟩ hrun hy)
    · have hd' := ih.1 (by rw [h.walked.same.kind]; exact hkind)
      exact h.closed x (Or.inr ⟨hkind, hd, hd'⟩) y hy

theorem Tracked.propagated (ht : g.Tracked) (h : Propagated g n g') (hs : g.Shape) (hq : g.Quiet n) : g'.Tracked := by
  have hsame := h.walked.same
  have hstale : ∀ c, g'.Stale c → (g.nodes c).kind = .computed ∧ (g'.nodes c).dirty := by
    intro c hc
    unfold Stale at hc
    rwa [hsame.kind] at hc
  refine ⟨?_, ?_, ?_⟩
  · intro c s hc hrun hsub
    rw [h.walked.computing] at hrun
    rw [hsame.subscribers] at hsub
    obtain ⟨hk, hd'⟩ := hstale c hc
    by_cases hd : (g.nodes c).dirty
    · exact h.walked.marked (ht.marked c s ⟨hk, hd⟩ hrun hsub)
    · exact h.closed c (Or.inr ⟨hk, hd, hd'⟩) s hsub
  · intro x c hx hxk hxc hc
    rw [h.walked.computing] at hx ⊢
    rw [hsame.kind] at hxk
    rw [hsame.sources] at hxc
    obtain ⟨hk, hd'⟩ := hstale c hc
    by_cases hd : (g.nodes c).dirty
    · exact ht.running x c hx hxk hxc ⟨hk, hd⟩
    · have hreach := h.reached c (Or.inl ⟨hd, hd'⟩)
      exact absurd (hreach.tail ((hs.edges.edge c x).mp hxc)) (hq x hx hxk)
  · intro i s hs'
    rw [hsame.sources] at hs'
    rw [hsame.kind]
    exact ht.source_kind i s hs'

/-! ### New nodes -/

/-- A new node has no edges. -/
theorem Tracked.create (h : g.Tracked) (hs : g.Shape) {m : Node V} (hsrc : m.sources = [])
    (hsub : m.subscribers = []) (hc : g'.computing = g.computing)
    (hn : ∀ i, g'.nodes i = { (if i = g.nextSlot then m else g.nodes i) with
      owner := (g'.nodes i).owner, owned := (g'.nodes i).owned }) : g'.Tracked := by
  have hdead := hs.slots.nextSlot_dead
  have hne : ∀ {a b}, a ∈ (g.nodes b).sources → a ≠ g.nextSlot ∧ b ≠ g.nextSlot := by
    intro a b hab
    obtain ⟨h₁, h₂⟩ := hs.edges.live hab
    exact ⟨fun heq => hdead (heq ▸ h₁), fun heq => hdead (heq ▸ h₂)⟩
  have hold : ∀ i, i ≠ g.nextSlot → (g'.nodes i).kind = (g.nodes i).kind ∧ (g'.nodes i).dirty = (g.nodes i).dirty ∧
      (g'.nodes i).queued = (g.nodes i).queued := by
    intro i hi
    rw [hn i, if_neg hi]
    exact ⟨rfl, rfl, rfl⟩
  have hsources : ∀ i, (g'.nodes i).sources = (g.nodes i).sources := by
    intro i
    rw [hn i]
    by_cases hi : i = g.nextSlot
    · rw [if_pos hi, hi, hs.edges.dead_sources hdead]
      exact hsrc
    · rw [if_neg hi]
  have hsubs : ∀ i, (g'.nodes i).subscribers = (g.nodes i).subscribers := by
    intro i
    rw [hn i]
    by_cases hi : i = g.nextSlot
    · rw [if_pos hi, hi, hs.edges.dead_subscribers hdead]
      exact hsub
    · rw [if_neg hi]
  refine ⟨?_, ?_, ?_⟩
  · intro c s hstale hrun hsc
    rw [hsubs] at hsc
    obtain ⟨hc₀, hs₀⟩ := hne ((hs.edges.edge c s).mpr hsc)
    unfold Stale at hstale
    unfold Marked
    rw [(hold c hc₀).1, (hold c hc₀).2.1] at hstale
    rw [(hold s hs₀).1, (hold s hs₀).2.1, (hold s hs₀).2.2]
    rw [hc] at hrun
    exact h.marked c s hstale hrun hsc
  · intro x c hx hxk hxc hstale
    rw [hsources] at hxc
    obtain ⟨hc₀, hx₀⟩ := hne hxc
    unfold Stale at hstale
    rw [(hold c hc₀).1, (hold c hc₀).2.1] at hstale
    rw [(hold x hx₀).1] at hxk
    rw [hc] at hx ⊢
    exact h.running x c hx hxk hxc hstale
  · intro i s hsi
    rw [hsources] at hsi
    rw [(hold s (hne hsi).1).1]
    exact h.source_kind i s hsi

/-! ### Reads -/

theorem mem_recordDependency {n c x : NodeId} (h : c ∈ ((g.recordDependency n).nodes x).sources) :
    c ∈ (g.nodes x).sources ∨ c = n := by
  rcases recordDependency_cases g n with heq | ⟨sub, rest, _, _, _, heq⟩
  · rw [heq] at h
    exact Or.inl h
  · rw [heq] at h
    simp only at h
    split_ifs at h
    · simpa using h
    · exact Or.inl h

theorem recordDependency_stale (g : Inner V) (n c : NodeId) : (g.recordDependency n).Stale c ↔ g.Stale c := by
  unfold Stale
  rw [recordDependency_node]

theorem recordDependency_marked (g : Inner V) (n c : NodeId) : (g.recordDependency n).Marked c ↔ g.Marked c := by
  unfold Marked
  rw [recordDependency_node]

/-- The new edge of a read starts at a node that is up to date or starts its body at once. -/
theorem Tracked.readNode {m : Machine V} (h : m.graph.Tracked) (hs : m.graph.Shape)
    (hn : (m.graph.nodes n).live) (hk : (m.graph.nodes n).kind ≠ .effect)
    (hshape : (Machine.readNode (m.graph.recordDependency n) n m.stack).graph.Shape) :
    (Machine.readNode (m.graph.recordDependency n) n m.stack).graph.Tracked := by
  have hcomp : (m.graph.recordDependency n).computing = m.graph.computing := by rw [recordDependency_rest]
  have hs' := hs.recordDependency hn
  have hkind : ∀ i s, s ∈ ((m.graph.recordDependency n).nodes i).sources →
      ((m.graph.recordDependency n).nodes s).kind ≠ .effect := by
    intro i s hsi
    rw [recordDependency_node]
    rcases mem_recordDependency hsi with hsi | rfl
    · exact h.source_kind i s hsi
    · exact hk
  have hm : ∀ c s, (m.graph.recordDependency n).Stale c → c ∉ (m.graph.recordDependency n).computing → c ≠ n →
      c ∈ ((m.graph.recordDependency n).nodes s).sources → (m.graph.recordDependency n).Marked s := by
    intro c s hc hrun hcn hsrc
    rw [recordDependency_stale] at hc
    rw [hcomp] at hrun
    rw [recordDependency_marked]
    have hold := (mem_recordDependency hsrc).resolve_right hcn
    exact h.marked c s hc hrun ((hs.edges.edge c s).mp hold)
  have hr : ∀ x c, x ∈ (m.graph.recordDependency n).computing →
      ((m.graph.recordDependency n).nodes x).kind = .computed → c ∈ ((m.graph.recordDependency n).nodes x).sources →
      (m.graph.recordDependency n).Stale c → c ∈ (m.graph.recordDependency n).computing ∨ c = n := by
    intro x c hx hxk hxc hc
    rw [recordDependency_stale] at hc
    rw [recordDependency_node] at hxk
    rw [hcomp] at hx ⊢
    rcases mem_recordDependency hxc with hxc | rfl
    · exact Or.inl (h.running x c hx hxk hxc hc)
    · exact Or.inr rfl
  unfold Machine.readNode at hshape ⊢
  split_ifs at hshape ⊢ with hd
  · obtain ⟨T, hT⟩ := beginCompute_began hs' (n := n) (by rw [recordDependency_node]; exact hn)
    exact hT.tracked hshape.edges (fun c s hc hrun hcn hsrc _ => hm c s hc hrun hcn hsrc) hr hkind
  · -- a clean node: the stale ones are others
    have hne : ∀ c, (m.graph.recordDependency n).Stale c → c ≠ n := fun c hc heq => hd (heq ▸ hc)
    refine ⟨fun c s hc hrun hsub => ?_, fun x c hx hxk hxc hc => ?_, hkind⟩
    · exact hm c s hc hrun (hne c hc) ((hs'.edges.edge c s).mpr hsub)
    · exact (hr x c hx hxk hxc hc).resolve_right (hne c hc)

end Inner

def Frame.isFlush : Frame → Bool
  | .read _ => false
  | .flush _ _ _ => true

namespace Machine

open Noeta.Reactive.Inner

/-! ### The ledger -/

/-- The effects that a step gives a cause to run: the one it creates, or the live ones that its change reaches. -/
def Causes (m : Machine V) (op : Op V) (e : NodeId) : Prop :=
  match op with
  | .effect _ => e = m.graph.nextSlot
  | .set n _ | .touch n => m.graph.Runs e ∧ TransGen m.graph.Feeds n e
  | _ => False

/-- The effect whose body a flush invokes in a step. -/
def invokes (m : Machine V) (op : Op V) : Option NodeId :=
  match op with
  | .flush | .done _ => m.starts op
  | _ => none

/-- The due effects after a step: an invocation uses up the cause, and a disposed effect has none. -/
def owed (m : Machine V) (op : Op V) (due : NodeId → Prop) (e : NodeId) : Prop :=
  due e ∧ m.invokes op ≠ some e ∧ (m.step op).graph.Runs e ∨ m.Causes op e

/-- The runs whose steps all meet `P`, with the due effects. -/
inductive Owes (P : Machine V → Op V → Prop) : Machine V → (NodeId → Prop) → Prop
  | init : Owes P {} fun _ => False
  | step {m : Machine V} {op : Op V} {due : NodeId → Prop} :
      Owes P m due → m.Enabled op → P m op → Owes P (m.step op) (m.owed op due)

/-- A step in which the flush returns `Ok`: nothing is left to run. -/
def ReturnsOk (m : Machine V) (op : Op V) : Prop :=
  match op with
  | .flush => m.starts op = none
  | .done _ => ∃ e round steps stack, m.stack = .flush e round steps :: stack ∧ ¬ maxFlushSteps < steps + 1 ∧
      m.starts op = none
  | _ => False

/-- A change reaches no computed whose body is running. -/
def LeavesRunning (m : Machine V) (op : Op V) : Prop :=
  match op with
  | .set n _ | .touch n => m.graph.Quiet n
  | _ => True

/-- A careful step that changes nothing a running computed has read. -/
def Attentive (m : Machine V) (op : Op V) : Prop := m.Careful op ∧ m.LeavesRunning op

/-! ### The marks under a step -/

variable {g : Inner V} {round : List NodeId} {stack : List Frame} {m : Machine V} {op : Op V} {e : NodeId}

/-- The effect that a flush starts loses its flag together with its sources. -/
theorem tracked_flushLoop {steps : Nat} (h : g.Tracked)
    (hs : g.Shape) (hshape : (flushLoop g round steps stack).graph.Shape) :
    (flushLoop g round steps stack).graph.Tracked := by
  rcases flushLoop_cases g round steps stack with ⟨-, -, hflush⟩ | ⟨queue, e, rest, -, hruns, -, hflush⟩
  · rw [hflush]
    exact h.congr rfl fun i => ⟨rfl, rfl, rfl, rfl, rfl⟩
  · rw [hflush] at hshape ⊢
    have hsame := sameShape_taken g queue e
    have hs' := hsame.shape (fun _ hx => hx) hs
    have hstale : ∀ c, (g.taken queue e).Stale c ↔ g.Stale c := by
      intro c
      unfold Stale
      rw [taken_nodes]
      split_ifs with hc <;> simp [hc]
    obtain ⟨T, hT⟩ := beginCompute_began hs' ((hsame.live e).trans hruns.1)
    refine hT.tracked hshape.edges ?_ ?_ ?_
    · intro c s hc hrun _ hsrc hse
      rw [hsame.sources] at hsrc
      have hmark := h.marked c s ((hstale c).mp hc) hrun ((hs.edges.edge c s).mp hsrc)
      unfold Marked at *
      rw [taken_nodes, if_neg hse]
      exact hmark
    · intro x c hx hxk hxc hc
      rw [hsame.kind] at hxk
      rw [hsame.sources] at hxc
      exact Or.inl (h.running x c hx hxk hxc ((hstale c).mp hc))
    · intro i s hsi
      rw [hsame.sources] at hsi
      rw [hsame.kind]
      exact h.source_kind i s hsi

theorem tracked_step (h : m.graph.Tracked) (hs : Sound m) (he : m.Enabled op)
    (hsp : m.SparesRunning op) (hq : m.LeavesRunning op) : (m.step op).graph.Tracked := by
  have hnext := (hs.step he hsp).shape
  cases op with
  | signal v =>
    refine h.create (m := { kind := .signal, live := true, content := some v }) hs.shape rfl rfl (create_computing _ _)
      fun i => ?_
    show (((m.graph.alloc _).adopt _).nodes i) = _
    rw [adopt_node, alloc_nodes]
    rfl
  | signalRoot v =>
    refine h.create (m := { kind := .signal, live := true, content := some v }) hs.shape rfl rfl (alloc_computing _ _)
      fun i => ?_
    have hi : (m.step (.signalRoot v)).graph.nodes i = _ := alloc_nodes m.graph _ i
    rw [hi]
  | computed body memo =>
    refine h.create (m := { kind := .computed, live := true, dirty := true, body := some body, content := some memo })
      hs.shape rfl rfl (create_computing { m.graph with dirtyComputeds := m.graph.dirtyComputeds + 1 } _) fun i => ?_
    show (((({ m.graph with dirtyComputeds := m.graph.dirtyComputeds + 1 } : Inner V).alloc _).adopt _).nodes i) = _
    rw [adopt_node, alloc_nodes]
    rfl
  | effect body =>
    refine h.create (m := { kind := .effect, live := true, dirty := true, queued := true, body := some body })
      hs.shape rfl rfl (create_computing _ _) fun i => ?_
    show (((m.graph.alloc _).adopt _).nodes i) = _
    rw [adopt_node, alloc_nodes]
    rfl
  | read n => exact h.readNode hs.shape he.1 he.2 hnext
  | peek n =>
    rw [Machine.step] at hnext ⊢
    split_ifs at hnext ⊢
    · exact h.readNode hs.shape he.1 he.2 hnext
    · exact h
  | set n v =>
    obtain ⟨hsame, hflags⟩ := modifyContent_same m.graph n v
    have ht : ((m.graph.modify n fun m => { m with content := some v }).recordChange n).Tracked := h.congr rfl fun i =>
      ⟨hsame.kind i, (hflags i).1, (hflags i).2, hsame.sources i, hsame.subscribers i⟩
    refine ht.propagated (set_propagates hs.shape hs.count n v) (hs.shape.modifyContent n v) fun c hc hk => ?_
    rw [hsame.kind] at hk
    rw [hsame.feeds]
    exact hq c hc hk
  | touch n =>
    have ht : (m.graph.recordChange n).Tracked := h.congr rfl fun i => ⟨rfl, rfl, rfl, rfl, rfl⟩
    exact ht.propagated (touch_propagates hs.shape hs.count n) (hs.shape.of_nodes rfl rfl rfl rfl) hq
  | flush =>
    refine tracked_flushLoop (h.congr rfl fun i => ⟨rfl, rfl, rfl, rfl, rfl⟩) (hs.shape.of_nodes rfl rfl rfl rfl) hnext
  | dispose n =>
    obtain ⟨T, hT, _⟩ := dispose_spec hs.shape he
    have hnode := preDispose_node hs.shape he
    have hcomp : (m.graph.preDispose n).computing = m.graph.computing := by
      rw [preDispose, modify_computing, disown_rest hs.shape he]
    have hpre : (m.graph.preDispose n).Tracked := h.congr hcomp fun i => by
      rw [hnode]
      exact ⟨rfl, rfl, rfl, rfl, rfl⟩
    have hedges : (m.graph.preDispose n).Edges :=
      hs.shape.edges.congr (fun i => by rw [hnode]) (fun i => by rw [hnode]) (fun i => by rw [hnode])
    have hp := hT.pruned hedges
    refine hp.tracked (fun c s hc hrun hsrc => ?_) (fun x c hx hxk hxc hc => ?_) hpre.source_kind
    · rw [hT.computing] at hrun
      exact hpre.marked c s hc hrun ((hedges.edge c s).mp (hp.sources s c hsrc))
    · rw [hT.computing] at hx ⊢
      exact hpre.running x c hx hxk (hp.sources x c hxc) hc
  | clear => exact ⟨fun c s hc => absurd hc.2 (by simp [Machine.step, Inner.clear]),
      fun n c hn => absurd hn (by simp [Machine.step, Inner.clear]), fun n s hs => absurd hs (by simp [Machine.step, Inner.clear])⟩
  | setObserved on => exact h.congr rfl fun i => ⟨rfl, rfl, rfl, rfl, rfl⟩
  | drainReclaimed => exact h.congr rfl fun i => ⟨rfl, rfl, rfl, rfl, rfl⟩
  | drainChanged => exact h.congr rfl fun i => ⟨rfl, rfl, rfl, rfl, rfl⟩
  | done result =>
    rw [Machine.step] at hnext ⊢
    cases hstack : m.stack with
    | nil => exact absurd hstack he
    | cons f stack =>
      have hc : m.graph.computing = f.node :: stack.map Frame.node := by rw [hs.computing, hstack]; rfl
      rw [hstack] at hnext
      cases f with
      | read n => exact h.endCompute hs.shape.edges hc (some result)
      | flush e round steps =>
        have ht := h.endCompute hs.shape.edges hc none
        simp only at hnext ⊢
        split_ifs at hnext ⊢
        · exact ht.congr rfl fun i => ⟨rfl, rfl, rfl, rfl, rfl⟩
        · exact tracked_flushLoop ht (hs.shape.endCompute e none) hnext

/-! ### The queued flags under a step -/

theorem readNode_runs {n e : NodeId} (hs : g.Shape) (hn : (g.nodes n).live) (he : (readNode g n stack).graph.Runs e) :
    g.Runs e ∧ ((readNode g n stack).graph.nodes e).queued = (g.nodes e).queued := by
  unfold Machine.readNode at *
  split_ifs at he ⊢
  · obtain ⟨T, hT⟩ := beginCompute_began hs hn
    exact hT.runs he
  · exact ⟨he, rfl⟩

theorem flushLoop_runs {steps : Nat} (hs : g.Shape) (he : (flushLoop g round steps stack).graph.Runs e) :
    g.Runs e ∧ (((flushLoop g round steps stack).graph.nodes e).queued ↔
      (g.nodes e).queued ∧ (g.nextEffect round).2.map Prod.fst ≠ some e) := by
  rcases flushLoop_cases g round steps stack with ⟨hn, -, hflush⟩ | ⟨queue, e', rest, hn, hruns', -, hflush⟩
  · rw [hflush] at he ⊢
    refine ⟨he, ?_⟩
    show (g.nodes e).queued ↔ _
    simp [hn]
  · rw [hflush] at he ⊢
    rw [hn]
    have hsame := sameShape_taken g queue e'
    obtain ⟨T, hT⟩ := beginCompute_began (hsame.shape (fun _ hx => hx) hs) ((hsame.live e').trans hruns'.1)
    obtain ⟨hruns, hqueued⟩ := hT.runs he
    refine ⟨?_, ?_⟩
    · unfold Runs at *
      rwa [hsame.live, hsame.kind] at hruns
    · show ((beginCompute _ e').nodes e).queued ↔ _
      rw [hqueued, taken_nodes]
      by_cases hee : e = e'
      · simp [hee]
      · simp [hee, Ne.symm hee]

theorem propagated_queued {g g' : Inner V} {n e : NodeId} (h : Propagated g n g') (hs : g.Shape) (ht : g.Tracked)
    (hq : g.Quiet n) (hk : (g.nodes e).kind = .effect) :
    (g'.nodes e).queued ↔ (g.nodes e).queued ∨ TransGen g.Feeds n e := by
  constructor
  · intro hafter
    by_cases hbefore : (g.nodes e).queued
    · exact Or.inl hbefore
    · exact Or.inr (h.reached e (Or.inr ⟨hbefore, hafter⟩))
  · rintro (hbefore | hreach)
    · exact h.walked.queued_mono e hbefore
    · exact (h.marks hs ht hq hreach).2 (by rw [h.walked.same.kind]; exact hk)

/-- What a step does to the flag of an effect that is live after it. -/
theorem queued_step (h : m.graph.Tracked) (hs : Sound m) (he : m.Enabled op)
    (hq : m.LeavesRunning op) (hr : (m.step op).graph.Runs e) :
    ((m.step op).graph.nodes e).queued ↔
      m.graph.Runs e ∧ (m.graph.nodes e).queued ∧ m.invokes op ≠ some e ∨ m.Causes op e := by
  -- the operations that neither give a cause nor invoke an effect
  have same : m.invokes op = none → ¬ m.Causes op e →
      (m.graph.Runs e ∧ ((m.step op).graph.nodes e).queued = (m.graph.nodes e).queued) →
      (((m.step op).graph.nodes e).queued ↔
        m.graph.Runs e ∧ (m.graph.nodes e).queued ∧ m.invokes op ≠ some e ∨ m.Causes op e) := by
    intro hi hc hold
    rw [hi, hold.2]
    simp [hc, hold.1]
  have created : ∀ {g : Inner V} {c : Node V}, c.kind ≠ .effect → (m.step op).graph = g →
      ((g.nodes e).live = (if e = m.graph.nextSlot then c else m.graph.nodes e).live ∧
      (g.nodes e).kind = (if e = m.graph.nextSlot then c else m.graph.nodes e).kind ∧
      (g.nodes e).queued = (if e = m.graph.nextSlot then c else m.graph.nodes e).queued) →
      m.graph.Runs e ∧ ((m.step op).graph.nodes e).queued = (m.graph.nodes e).queued := by
    rintro g c hc rfl ⟨h1, h2, h3⟩
    have hne : e ≠ m.graph.nextSlot := by
      intro heq
      rw [if_pos heq] at h2
      exact hc (h2.symm.trans hr.2)
    rw [if_neg hne] at h1 h2 h3
    exact ⟨⟨h1.symm.trans hr.1, h2.symm.trans hr.2⟩, h3⟩
  have hread : ∀ n, (m.graph.nodes n).live → (readNode (m.graph.recordDependency n) n m.stack).graph.Runs e →
      m.graph.Runs e ∧ ((readNode (m.graph.recordDependency n) n m.stack).graph.nodes e).queued =
        (m.graph.nodes e).queued := by
    intro n hn hr
    obtain ⟨h1, h2⟩ := readNode_runs (hs.shape.recordDependency hn) (by rw [recordDependency_node]; exact hn) hr
    unfold Runs at *
    rw [h2]
    rw [recordDependency_node] at h1 ⊢
    exact ⟨h1, rfl⟩
  cases op with
  | signal v =>
    exact same rfl id (created (c := { kind := .signal, live := true, content := some v }) (by simp) rfl
      (create_node _ _ e))
  | signalRoot v =>
    refine same rfl id (created (c := { kind := .signal, live := true, content := some v }) (by simp) rfl ?_)
    have hi : (m.step (.signalRoot v)).graph.nodes e = _ := alloc_nodes m.graph _ e
    rw [hi]
    exact ⟨rfl, rfl, rfl⟩
  | computed body memo =>
    exact same rfl id (created
      (c := { kind := .computed, live := true, dirty := true, body := some body, content := some memo }) (by simp) rfl
      (create_node { m.graph with dirtyComputeds := m.graph.dirtyComputeds + 1 } _ e))
  | effect body =>
    obtain ⟨h1, h2, h3⟩ := create_node m.graph
      { kind := .effect, live := true, dirty := true, queued := true, body := some body } e
    change (((m.graph.alloc _).adopt m.graph.nextSlot).nodes e).live ∧
      (((m.graph.alloc _).adopt m.graph.nextSlot).nodes e).kind = .effect at hr
    show (((m.graph.alloc _).adopt m.graph.nextSlot).nodes e).queued ↔ _
    rw [h1, h2] at hr
    rw [h3]
    by_cases hslot : e = m.graph.nextSlot
    · simp [hslot, Causes]
    · rw [if_neg hslot] at hr ⊢
      simp [hslot, Causes, invokes, Runs, hr]
  | read n => exact same rfl id (hread n he.1 hr)
  | peek n =>
    refine same rfl id ?_
    rw [Machine.step] at hr ⊢
    split_ifs at hr ⊢
    · exact hread n he.1 hr
    · exact ⟨hr, rfl⟩
  | set n v =>
    obtain ⟨hsame, hflags⟩ := modifyContent_same m.graph n v
    have ht : ((m.graph.modify n fun m => { m with content := some v }).recordChange n).Tracked := h.congr rfl fun i =>
      ⟨hsame.kind i, (hflags i).1, (hflags i).2, hsame.sources i, hsame.subscribers i⟩
    have hp := set_propagates hs.shape hs.count n v
    have hr' : m.graph.Runs e := by
      unfold Runs at *
      rw [← hsame.live, ← hsame.kind, ← hp.walked.same.live, ← hp.walked.same.kind]
      exact hr
    have hquiet : ((m.graph.modify n fun m => { m with content := some v }).recordChange n).Quiet n := by
      intro c hc hk
      rw [hsame.kind] at hk
      rw [hsame.feeds]
      exact hq c hc hk
    have hiff := propagated_queued hp (hs.shape.modifyContent n v) ht hquiet (e := e) (by rw [hsame.kind]; exact hr'.2)
    rw [(hflags e).2, hsame.feeds] at hiff
    simp only [invokes, Causes, hr', true_and, ne_eq, reduceCtorEq, not_false_eq_true, and_true]
    exact hiff
  | touch n =>
    have ht : (m.graph.recordChange n).Tracked := h.congr rfl fun i => ⟨rfl, rfl, rfl, rfl, rfl⟩
    have hp := touch_propagates hs.shape hs.count n
    have hr' : m.graph.Runs e := by
      have h1 := hp.walked.same.live e
      have h2 := hp.walked.same.kind e
      exact ⟨h1.symm.trans hr.1, h2.symm.trans hr.2⟩
    have hiff := propagated_queued hp (hs.shape.of_nodes rfl rfl rfl rfl) ht hq (e := e) hr'.2
    simp only [invokes, Causes, hr', true_and, ne_eq, reduceCtorEq, not_false_eq_true, and_true]
    exact hiff
  | flush =>
    obtain ⟨h1, h2⟩ := flushLoop_runs (g := { m.graph with flushing := true }) (hs.shape.of_nodes rfl rfl rfl rfl) hr
    have hnext := nextEffect_congr m.graph { m.graph with flushing := true } (fun _ => rfl) (fun _ => rfl) rfl []
    rw [hnext] at h2
    simp only [invokes, starts, Causes, or_false]
    exact h2.trans (and_iff_right h1).symm
  | dispose n =>
    obtain ⟨T, hT, _⟩ := dispose_spec hs.shape he
    have hnode := preDispose_node hs.shape he e
    refine same rfl id ?_
    have hTe := (hT.live hr.1).1
    change (m.graph.dispose n).Runs e at hr
    show _ ∧ ((m.graph.dispose n).nodes e).queued = _
    unfold Runs at *
    rw [hT.kept e hTe, hnode] at hr ⊢
    exact ⟨hr, rfl⟩
  | clear => exact absurd hr.1 (by simp [Machine.step, Inner.clear])
  | setObserved on => exact same rfl id ⟨hr, rfl⟩
  | drainReclaimed => exact same rfl id ⟨hr, rfl⟩
  | drainChanged => exact same rfl id ⟨hr, rfl⟩
  | done result =>
    have hret : ∀ n r, (m.graph.endCompute n r).Runs e →
        m.graph.Runs e ∧ ((m.graph.endCompute n r).nodes e).queued = (m.graph.nodes e).queued := by
      intro n r hr
      have hsame := endCompute_sameShape m.graph n r
      unfold Runs at *
      rw [hsame.live, hsame.kind] at hr
      refine ⟨hr, ?_⟩
      rw [endCompute_node]
      split_ifs with hi <;> simp [hi]
    rw [Machine.step] at hr ⊢
    cases hstack : m.stack with
    | nil => exact absurd hstack he
    | cons f stack =>
      rw [hstack] at hr
      cases f with
      | read n =>
        obtain ⟨h1, h2⟩ := hret n (some result) hr
        simp only [invokes, starts, Causes, hstack, or_false, h1, true_and, ne_eq, reduceCtorEq, not_false_eq_true,
          and_true]
        rw [h2]
      | flush x round steps =>
        simp only [invokes, starts, Causes, hstack, or_false] at hr ⊢
        split_ifs at hr ⊢ with hmax
        · obtain ⟨h1, h2⟩ := hret x none hr
          change ((m.graph.endCompute x none).nodes e).queued ↔ _
          simp [h1, h2]
        · obtain ⟨h1, h2⟩ := flushLoop_runs (hs.shape.endCompute x none) hr
          obtain ⟨h3, h4⟩ := hret x none h1
          have hsame := endCompute_sameShape m.graph x none
          rw [nextEffect_congr _ _ hsame.live hsame.kind (endCompute_queue _ _ _), h4] at h2
          exact h2.trans (and_iff_right h3).symm

/-! ### One flush at a time -/

/-- There is one flush on the stack if the graph is flushing, and none otherwise. -/
def OneFlush (m : Machine V) : Prop := m.stack.countP Frame.isFlush = if m.graph.flushing then 1 else 0

theorem OneFlush.flushLoop (steps : Nat) (hs : g.Shape)
    (hg : g.flushing) (hstack : stack.countP Frame.isFlush = 0) : OneFlush (Machine.flushLoop g round steps stack) := by
  rcases flushLoop_cases g round steps stack with ⟨-, -, hflush⟩ | ⟨queue, e, rest, -, hruns, -, hflush⟩
  · rw [hflush]
    exact hstack
  · rw [hflush]
    have hsame := sameShape_taken g queue e
    obtain ⟨T, hT⟩ := beginCompute_began (hsame.shape (fun _ hx => hx) hs) ((hsame.live e).trans hruns.1)
    unfold OneFlush
    show List.countP Frame.isFlush (.flush e rest steps :: stack) = if (beginCompute _ e).flushing then 1 else 0
    rw [hT.flushing, taken, modify_flushing]
    simp [List.countP_cons, Frame.isFlush, hstack, hg]

theorem OneFlush.readNode (h : OneFlush m) {n : NodeId} (hs : m.graph.Shape)
    (hn : (m.graph.nodes n).live) : OneFlush (Machine.readNode (m.graph.recordDependency n) n m.stack) := by
  have hf : (m.graph.recordDependency n).flushing = m.graph.flushing := by rw [recordDependency_rest]
  unfold Machine.readNode
  split_ifs
  · obtain ⟨T, hT⟩ := beginCompute_began (hs.recordDependency hn) (n := n) (by rw [recordDependency_node]; exact hn)
    unfold OneFlush at *
    rw [hT.flushing, hf]
    simpa [List.countP_cons, Frame.isFlush] using h
  · unfold OneFlush at *
    rw [hf]
    exact h

theorem OneFlush.step (h : OneFlush m) (hs : Sound m) (he : m.Enabled op) : OneFlush (m.step op) := by
  have graph : ∀ {g : Inner V}, g.flushing = m.graph.flushing → OneFlush { m with graph := g } := by
    intro g hg
    unfold OneFlush at *
    rw [hg]
    exact h
  have created : ∀ (g : Inner V) (c : Node V), ((g.alloc c).adopt g.nextSlot).flushing = g.flushing := by
    intro g c
    rw [adopt_rest]
    exact alloc_flushing g c
  cases op with
  | signal v => exact graph (created _ _)
  | signalRoot v => exact graph (alloc_flushing _ _)
  | computed body memo => exact graph (created { m.graph with dirtyComputeds := m.graph.dirtyComputeds + 1 } _)
  | effect body => exact graph (created _ _)
  | read n => exact h.readNode hs.shape he.1
  | peek n =>
    rw [Machine.step]
    split_ifs
    · exact h.readNode hs.shape he.1
    · exact h
  | set n v => exact graph (set_propagates hs.shape hs.count n v).walked.flushing
  | touch n => exact graph (touch_propagates hs.shape hs.count n).walked.flushing
  | flush =>
    refine OneFlush.flushLoop 0 (hs.shape.of_nodes rfl rfl rfl rfl) rfl ?_
    unfold OneFlush at h
    rw [h, if_neg he]
  | dispose n =>
    obtain ⟨T, hT, _⟩ := dispose_spec hs.shape he
    refine graph (hT.flushing.trans ?_)
    rw [preDispose, modify_flushing, disown_rest hs.shape he]
  | clear => exact graph rfl
  | setObserved on => exact graph rfl
  | drainReclaimed => exact graph rfl
  | drainChanged => exact graph rfl
  | done result =>
    rw [Machine.step]
    unfold OneFlush at h
    cases hstack : m.stack with
    | nil => exact absurd hstack he
    | cons f stack =>
      rw [hstack, List.countP_cons] at h
      cases f with
      | read n =>
        unfold OneFlush
        rw [endCompute_flushing]
        simpa [Frame.isFlush] using h
      | flush e round steps =>
        have hcount : stack.countP Frame.isFlush = 0 ∧ m.graph.flushing := by
          simp only [Frame.isFlush, if_true] at h
          split_ifs at h with hf
          exact ⟨by omega, hf⟩
        simp only
        split_ifs
        · exact hcount.1
        · refine OneFlush.flushLoop (steps + 1) (hs.shape.endCompute e none) ?_ hcount.1
          rw [endCompute_flushing]
          exact hcount.2

/-- A flush that returns `Ok` leaves nothing that waits. -/
theorem waiting_of_returnsOk (h : OneFlush m) (he : m.Enabled op) (hr : m.ReturnsOk op) : (m.step op).waiting = [] := by
  have returned : ∀ {g : Inner V} {round : List NodeId} {steps : Nat} {stack : List Frame},
      (g.nextEffect round).2 = none → stack.countP Frame.isFlush = 0 →
      (Machine.flushLoop g round steps stack).waiting = [] := by
    intro g round steps stack hn hstack
    rcases flushLoop_cases g round steps stack with ⟨-, -, hflush⟩ | ⟨queue, e, rest, hn', -⟩
    case inr => simp [hn] at hn'
    rw [hflush]
    unfold waiting
    show [] ++ stack.flatMap Frame.round = []
    rw [List.nil_append, List.flatMap_eq_nil_iff]
    intro f hf
    have := List.countP_eq_zero.mp hstack f hf
    cases f with
    | read n => rfl
    | flush e round steps => exact absurd rfl this
  unfold OneFlush at h
  cases op with
  | flush =>
    refine returned ?_ ?_
    · have hs : m.starts .flush = none := hr
      rw [starts, Option.map_eq_none_iff] at hs
      rw [← hs]
      exact nextEffect_congr m.graph { m.graph with flushing := true } (fun _ => rfl) (fun _ => rfl) rfl []
    · rw [h, if_neg he]
  | done result =>
    obtain ⟨e, round, steps, stack, hstack, hmax, hs⟩ := hr
    have hsame := endCompute_sameShape m.graph e none
    simp only [starts, hstack, if_neg hmax, Option.map_eq_none_iff] at hs
    rw [hstack, List.countP_cons] at h
    simp only [Machine.step, hstack, if_neg hmax]
    refine returned ?_ ?_
    · rw [nextEffect_congr _ _ hsame.live hsame.kind (endCompute_queue _ _ _)]
      exact hs
    · simp only [Frame.isFlush, if_true] at h
      split_ifs at h
      omega
  | _ => exact absurd hr id

/-! ### The law -/

theorem causes_runs (hs : Sound m) (h : m.Causes op e) : (m.step op).graph.Runs e := by
  cases op with
  | effect body =>
    have he : e = m.graph.nextSlot := h
    obtain ⟨h1, h2, _⟩ := create_node m.graph
      { kind := .effect, live := true, dirty := true, queued := true, body := some body } e
    rw [if_pos he] at h1 h2
    exact ⟨h1, h2⟩
  | set n v =>
    obtain ⟨hsame, _⟩ := modifyContent_same m.graph n v
    have hw := (set_propagates hs.shape hs.count n v).walked.same
    exact ⟨(hw.live e).trans ((hsame.live e).trans h.1.1), (hw.kind e).trans ((hsame.kind e).trans h.1.2)⟩
  | touch n =>
    have hw := (touch_propagates hs.shape hs.count n).walked.same
    exact ⟨(hw.live e).trans h.1.1, (hw.kind e).trans h.1.2⟩
  | _ => exact absurd h id

/-- What a flush invokes was waiting. -/
theorem invokes_waiting (h : QueueOk m) (hi : m.invokes op = some e) : m.graph.Runs e ∧ m.waiting.count e = 1 := by
  have next : ∀ {round : List NodeId}, (m.graph.nextEffect round).2.map Prod.fst = some e →
      m.graph.Runs e ∧ 1 ≤ (m.graph.queue ++ round).count e := by
    intro round hn
    obtain ⟨queue, _, hspec⟩ := nextEffect_spec m.graph round
    obtain ⟨⟨e', rest⟩, hsome, rfl⟩ := Option.map_eq_some_iff.mp hn
    rw [hsome] at hspec
    have hcount := hspec.2 e' hspec.1
    rw [if_pos rfl] at hcount
    refine ⟨hspec.1, ?_⟩
    rw [← hcount]
    exact Nat.le_add_left 1 _
  have once : m.graph.Runs e ∧ 1 ≤ m.waiting.count e → m.graph.Runs e ∧ m.waiting.count e = 1 := by
    rintro ⟨hr, hc⟩
    have := h e hr
    split_ifs at this <;> exact ⟨hr, by omega⟩
  refine once ?_
  unfold waiting
  cases op with
  | flush =>
    obtain ⟨hr, hc⟩ := next hi
    rw [List.append_nil] at hc
    rw [List.count_append]
    exact ⟨hr, by omega⟩
  | done result =>
    cases hstack : m.stack with
    | nil => simp [invokes, starts, hstack] at hi
    | cons f stack =>
      cases f with
      | read n => simp [invokes, starts, hstack] at hi
      | flush x round steps =>
        simp only [invokes, starts, hstack] at hi
        split_ifs at hi
        obtain ⟨hr, hc⟩ := next hi
        rw [List.flatMap_cons]
        simp only [Frame.round, List.count_append] at hc ⊢
        exact ⟨hr, by omega⟩
  | _ => simp [invokes] at hi

/-- The state of a run in which all steps were attentive, with its ledger. -/
structure Fair (m : Machine V) (due : NodeId → Prop) : Prop where
  sound : Sound m
  queue : QueueOk m
  tracked : m.graph.Tracked
  oneFlush : OneFlush m
  due : ∀ e, due e ↔ m.graph.Runs e ∧ (m.graph.nodes e).queued

theorem Fair.init : Fair ({} : Machine V) fun _ => False where
  sound := Sound.init
  queue := QueueOk.init
  tracked := ⟨fun c s hc => absurd hc.2 (by simp), fun n c hn => absurd hn (by simp), fun n s hs => absurd hs (by simp)⟩
  oneFlush := rfl
  due e := by simp [Runs]

theorem Fair.step {due : NodeId → Prop} (h : Fair m due) (he : m.Enabled op)
    (ha : m.Attentive op) : Fair (m.step op) (m.owed op due) := by
  obtain ⟨⟨hsp, hfresh, hround⟩, hq⟩ := ha
  refine ⟨h.sound.step he hsp, h.queue.step h.sound he hfresh hround, tracked_step h.tracked h.sound he hsp hq,
    h.oneFlush.step h.sound he, fun e => ?_⟩
  unfold owed
  rw [h.due]
  by_cases hr : (m.step op).graph.Runs e
  · have hiff := queued_step h.tracked h.sound he hq hr
    rw [hiff]
    tauto
  · have hcause : ¬ m.Causes op e := fun hc => hr (causes_runs h.sound hc)
    tauto

theorem Owes.fair {due : NodeId → Prop} (h : Owes Attentive m due) : Fair m due := by
  induction h with
  | init => exact Fair.init
  | step _ he ha ih => exact ih.step he ha

/-- **Effects run exactly when they are due.** Along a run of attentive steps the due effects are the live ones that
wait, each once; a flush invokes only due effects; and when it returns `Ok` none is due. -/
theorem effects_run_when_due (m : Machine V) (due : NodeId → Prop) (h : Owes Attentive m due) :
    (∀ e, due e ↔ m.graph.Runs e ∧ m.waiting.count e = 1) ∧
    (∀ op, m.Enabled op → m.Attentive op →
      (∀ e, m.invokes op = some e → due e) ∧
      (m.ReturnsOk op → ∀ e, ¬ m.owed op due e)) := by
  have hf := h.fair
  have hdue : ∀ e, due e ↔ m.graph.Runs e ∧ m.waiting.count e = 1 := by
    intro e
    rw [hf.due]
    refine and_congr_right fun hr => ?_
    rw [hf.queue e hr]
    split_ifs with hq <;> simp [hq]
  refine ⟨hdue, fun op he ha => ⟨fun e hi => ?_, fun hr e ho => ?_⟩⟩
  · exact (hdue e).mpr (invokes_waiting hf.queue hi)
  · have hnext := hf.step he ha
    obtain ⟨hruns, hq⟩ := (hnext.due e).mp ho
    have hcount := hnext.queue e hruns
    rw [if_pos hq, waiting_of_returnsOk hf.oneFlush he hr] at hcount
    exact absurd hcount (by simp)

/-- A flush has run the effect, which has read the signal, and the signal has changed. -/
def changedRun : List (Op Nat) := [.signal 7, .effect 1, .flush, .read 0, .done 0, .set 0 8]

/-- The effect is due again, and the next flush invokes it. -/
theorem changedRun_due : ∃ due, Owes Attentive (changedRun.foldl Machine.step {}) due ∧
    (changedRun.foldl Machine.step {}).invokes .flush = some 1 ∧ due 1 := by
  have noEffect : ∀ {m : Machine Nat} {op : Op Nat}, (∀ body, op ≠ .effect body) → m.FreshSlot op :=
    fun hop body h => absurd h (hop body)
  have noDone : ∀ {m : Machine Nat} {op : Op Nat}, (∀ r, op ≠ .done r) → m.FinishesRound op :=
    fun hop r e round steps stack h => absurd h (hop r)
  have signal : Owes Attentive (({} : Machine Nat).step (.signal 7)) _ := .step .init trivial
    ⟨⟨.of_none (by simp) rfl, noEffect (by simp), noDone (by simp)⟩, trivial⟩
  have effect := Owes.step signal (show Enabled _ (.effect 1) from trivial)
    ⟨⟨.of_none (by simp) rfl, fun body _ => by decide, noDone (by simp)⟩, trivial⟩
  have flush := Owes.step effect (show Enabled _ .flush from Bool.false_ne_true)
    ⟨⟨fun x _ hx => absurd hx List.not_mem_nil, noEffect (by simp), noDone (by simp)⟩, trivial⟩
  have read := Owes.step flush (show Enabled _ (.read 0) from ⟨by decide, by decide⟩)
    ⟨⟨.of_none (by simp) rfl, noEffect (by simp), noDone (by simp)⟩, trivial⟩
  have done := Owes.step read (show Enabled _ (.done 0) from List.cons_ne_nil _ _)
    ⟨⟨.of_none (by simp) rfl, noEffect (by simp), fun r e round steps stack _ hs hmax => by
      have hs' : [Frame.flush 1 [] 0] = .flush e round steps :: stack := hs
      cases hs'
      exact absurd hmax (by decide)⟩, trivial⟩
  have set := Owes.step done (show Enabled _ (.set 0 8) from ⟨by decide, by decide⟩)
    ⟨⟨.of_none (by simp) rfl, noEffect (by simp), noDone (by simp)⟩, fun c hc => absurd hc List.not_mem_nil⟩
  refine ⟨_, set, by decide, ?_⟩
  exact ((effects_run_when_due _ _ set).2 .flush (show Enabled _ .flush from Bool.false_ne_true)
    ⟨⟨fun x _ hx => absurd hx List.not_mem_nil, noEffect (by simp), noDone (by simp)⟩, trivial⟩).1 1 (by decide)

/-- One cause, two invocations: the recycled effect is run a second time in the same round. -/
theorem recycled_effect_runs_twice : ∃ (m : Machine Nat) (due : NodeId → Prop) (op : Op Nat) (e : NodeId),
    Owes (fun _ _ => True) m due ∧ m.Enabled op ∧ m.invokes op = some e ∧ ¬ due e := by
  have effect := Owes.step (V := Nat) (P := fun _ _ => True) .init (show Enabled _ (.effect 0) from trivial) trivial
  have dispose := Owes.step effect (show Enabled _ (.dispose 0) from rfl) trivial
  have recycled := Owes.step dispose (show Enabled _ (.effect 1) from trivial) trivial
  have flush := Owes.step recycled (show Enabled _ .flush from Bool.false_ne_true) trivial
  refine ⟨_, _, .done 0, 0, flush, List.cons_ne_nil _ _, by decide, ?_⟩
  rintro (⟨_, hne, _⟩ | hc)
  · exact hne (by decide)
  · exact hc

end Machine

end Noeta.Reactive
