import Noeta.Reactive.Compute

/-!
# The representation invariant over whole runs

Edges, ownership, free slots, the count of dirty computeds and the queue, for every run of operations, those of running
bodies included. Three kinds of steps break it. Disposal may tear down a node whose body is running: its slot is
recycled while the stack still names it. Disposal of a queued effect leaves its id in the queue, so an effect created in
that slot is there twice. And a flush that gives up forgets the rest of its round.
-/

namespace Noeta.Reactive

open Relation

variable {V : Type}

namespace Machine

/-- The effects that wait for a run: in the queue or in the unprocessed part of a flush round. -/
def waiting (m : Machine V) : List NodeId := m.graph.queue ++ m.stack.flatMap Frame.round

/-- The representation invariant. -/
structure Represents (m : Machine V) : Prop where
  edge : ∀ s n, s ∈ (m.graph.nodes n).sources ↔ n ∈ (m.graph.nodes s).subscribers
  nodup : ∀ n, (m.graph.nodes n).sources.Nodup ∧ (m.graph.nodes n).subscribers.Nodup
  owned : ∀ c o, c ∈ (m.graph.nodes o).owned ↔ (m.graph.nodes c).live ∧ (m.graph.nodes c).owner = some o
  acyclic : ∀ n, ¬ TransGen m.graph.Owns n n
  free_nodup : m.graph.free.Nodup
  free : ∀ n, n ∈ m.graph.free ↔ n < m.graph.size ∧ ¬ (m.graph.nodes n).live
  dirty : m.graph.dirtyComputeds = m.graph.dirtySet.card
  queued : ∀ e, (m.graph.nodes e).live → (m.graph.nodes e).kind = .effect →
    ((m.graph.nodes e).queued ↔ m.waiting.count e = 1)

/-! ### The steps that keep it -/

/-- The node whose body a step starts. -/
def starts (m : Machine V) : Op V → Option NodeId
  | .read n | .peek n => if (m.graph.nodes n).kind = .computed ∧ (m.graph.nodes n).dirty then some n else none
  | .flush => (m.graph.nextEffect []).2.map Prod.fst
  | .done _ =>
    match m.stack with
    | .flush _ round steps :: _ =>
      if maxFlushSteps < steps + 1 then none else (m.graph.nextEffect round).2.map Prod.fst
    | _ => none
  | _ => none

/-- The nodes whose bodies are running during a step. -/
def running (m : Machine V) : Op V → List NodeId
  | .done _ => m.graph.computing.tail
  | _ => m.graph.computing

/-- A step tears down what it disposes and what the body it starts had created. -/
def TearsDown (m : Machine V) (op : Op V) (x : NodeId) : Prop :=
  (∃ n, op = .dispose n ∧ ReflTransGen m.graph.Owns n x) ∨ ∃ n, m.starts op = some n ∧ TransGen m.graph.Owns n x

/-- No node whose body is running is torn down. -/
def SparesRunning (m : Machine V) (op : Op V) : Prop := ∀ x, m.TearsDown op x → x ∉ m.running op

/-- An effect is not created in a slot whose id still waits in the queue or in a round. -/
def FreshSlot (m : Machine V) (op : Op V) : Prop := ∀ body, op = .effect body → m.graph.nextSlot ∉ m.waiting

/-- A flush does not give up with effects left in its round. -/
def FinishesRound (m : Machine V) (op : Op V) : Prop :=
  ∀ r e round steps stack, op = .done r → m.stack = .flush e round steps :: stack → maxFlushSteps < steps + 1 →
    ∀ x ∈ round, ¬ ((m.graph.nodes x).live ∧ (m.graph.nodes x).kind = .effect)

/-- The states of the runs whose steps all meet `P`. -/
inductive Reachable (P : Machine V → Op V → Prop) : Machine V → Prop
  | init : Reachable P {}
  | step {m : Machine V} {op : Op V} : Reachable P m → m.Enabled op → P m op → Reachable P (m.step op)

/-- The part of the invariant that does not concern the queue, and the stack of running bodies. -/
structure Sound (m : Machine V) : Prop where
  shape : m.graph.Shape
  count : m.graph.DirtyCount
  computing : m.graph.computing = m.stack.map Frame.node

end Machine

namespace Inner

/-! ### The next effect of a flush -/

/-- The flush loop skips what is not a live effect any more. -/
def Runs (g : Inner V) (e : NodeId) : Prop := (g.nodes e).live ∧ (g.nodes e).kind = .effect

theorem firstEffect_some {g : Inner V} {round rest : List NodeId} {e : NodeId}
    (h : g.firstEffect round = some (e, rest)) :
    g.Runs e ∧ ∃ skipped, round = skipped ++ e :: rest ∧ ∀ x ∈ skipped, ¬ g.Runs x := by
  induction round with
  | nil => simp [firstEffect] at h
  | cons a round ih =>
    rw [firstEffect] at h
    by_cases ha : (g.nodes a).live ∧ (g.nodes a).kind = .effect
    · rw [if_pos ha, Option.some.injEq, Prod.mk.injEq] at h
      obtain ⟨rfl, rfl⟩ := h
      exact ⟨ha, [], rfl, by simp⟩
    · rw [if_neg ha] at h
      obtain ⟨he, skipped, hround, hskip⟩ := ih h
      refine ⟨he, a :: skipped, by rw [hround]; rfl, ?_⟩
      intro x hx
      rcases List.mem_cons.mp hx with rfl | hx
      · exact ha
      · exact hskip x hx

theorem firstEffect_none {g : Inner V} {round : List NodeId} (h : g.firstEffect round = none) :
    ∀ x ∈ round, ¬ g.Runs x := by
  induction round with
  | nil => simp
  | cons a round ih =>
    rw [firstEffect] at h
    by_cases ha : (g.nodes a).live ∧ (g.nodes a).kind = .effect
    · rw [if_pos ha] at h
      exact absurd h (by simp)
    · rw [if_neg ha] at h
      intro x hx
      rcases List.mem_cons.mp hx with rfl | hx
      · exact ha
      · exact ih h x hx

theorem firstEffect_congr (g g' : Inner V) (hlive : ∀ i, (g'.nodes i).live = (g.nodes i).live)
    (hkind : ∀ i, (g'.nodes i).kind = (g.nodes i).kind) (round : List NodeId) :
    g'.firstEffect round = g.firstEffect round := by
  induction round with
  | nil => rfl
  | cons a round ih => rw [firstEffect, firstEffect, hlive, hkind, ih]

theorem nextEffect_congr (g g' : Inner V) (hlive : ∀ i, (g'.nodes i).live = (g.nodes i).live)
    (hkind : ∀ i, (g'.nodes i).kind = (g.nodes i).kind) (hqueue : g'.queue = g.queue) (round : List NodeId) :
    (g'.nextEffect round).2 = (g.nextEffect round).2 := by
  unfold nextEffect
  rw [firstEffect_congr g g' hlive hkind]
  cases g.firstEffect round with
  | some next => rfl
  | none =>
    unfold takeRound
    simp only [hqueue]
    exact firstEffect_congr { g with queue := [] } { g' with queue := [] } hlive hkind _

/-- The next effect, if there is one, is a live effect, and every other live effect waits as often as before. -/
theorem nextEffect_spec (g : Inner V) (round : List NodeId) :
    ∃ queue, (g.nextEffect round).1 = { g with queue } ∧
      match (g.nextEffect round).2 with
      | some (e, rest) => g.Runs e ∧ ∀ x, g.Runs x →
          (queue ++ rest).count x + (if x = e then 1 else 0) = (g.queue ++ round).count x
      | none => queue = [] ∧ ∀ x, g.Runs x → (g.queue ++ round).count x = 0 := by
  have hskip : ∀ (l : List NodeId), (∀ x ∈ l, ¬ g.Runs x) → ∀ x, g.Runs x → l.count x = 0 :=
    fun l hl x hx => List.count_eq_zero.mpr fun hmem => hl x hmem hx
  unfold nextEffect
  cases hf : g.firstEffect round with
  | some next =>
    obtain ⟨e, rest⟩ := next
    obtain ⟨he, skipped, hround, hs⟩ := firstEffect_some hf
    refine ⟨g.queue, rfl, he, fun x hx => ?_⟩
    rw [hround]
    simp only [List.count_append, List.count_cons, hskip skipped hs x hx, beq_iff_eq]
    by_cases hxe : e = x
    · rw [if_pos hxe, if_pos hxe.symm]
      omega
    · rw [if_neg hxe, if_neg (Ne.symm hxe)]
      omega
  | none =>
    have hround := firstEffect_none hf
    have hperm : (g.queue.insertionSort (· ≤ ·)).Perm g.queue := List.perm_insertionSort _ _
    refine ⟨[], rfl, ?_⟩
    unfold takeRound
    simp only
    have hcongr : ({ g with queue := [] } : Inner V).firstEffect (g.queue.insertionSort (· ≤ ·)) =
        g.firstEffect (g.queue.insertionSort (· ≤ ·)) := firstEffect_congr g { g with queue := [] } (fun _ => rfl) (fun _ => rfl) _
    rw [hcongr]
    cases hf' : g.firstEffect (g.queue.insertionSort (· ≤ ·)) with
    | some next =>
      obtain ⟨e, rest⟩ := next
      obtain ⟨he, skipped, hsorted, hs⟩ := firstEffect_some hf'
      refine ⟨he, fun x hx => ?_⟩
      have hcount := hperm.count_eq x
      rw [hsorted] at hcount
      simp only [List.count_append, List.count_cons, hskip skipped hs x hx, hskip round hround x hx, beq_iff_eq,
        List.nil_append] at hcount ⊢
      by_cases hxe : e = x
      · rw [if_pos hxe] at hcount
        rw [if_pos hxe.symm]
        omega
      · rw [if_neg hxe] at hcount
        rw [if_neg (Ne.symm hxe)]
        omega
    | none =>
      refine ⟨trivial, fun x hx => ?_⟩
      have hsorted := firstEffect_none hf'
      have hq : g.queue.count x = 0 := by
        rw [← hperm.count_eq x]
        exact hskip _ hsorted x hx
      rw [List.count_append, hq, hskip round hround x hx]

theorem Began.runs {g g' : Inner V} {n : NodeId} {T : List NodeId} (h : Began g n T g') {e : NodeId} (he : g'.Runs e) :
    g.Runs e ∧ (g'.nodes e).queued = (g.nodes e).queued := by
  have hT : e ∉ T := fun hT => by
    have := he.1
    rw [h.dead e hT] at this
    exact absurd this (by simp)
  unfold Runs at *
  rw [h.kept e hT] at he ⊢
  exact ⟨he, rfl⟩

/-- The graph after a flush took `e` out of the queue and cleared its flag. -/
def taken (g : Inner V) (queue : List NodeId) (e : NodeId) : Inner V :=
  ({ g with queue } : Inner V).modify e fun m => { m with queued := false }

theorem taken_nodes (g : Inner V) (queue : List NodeId) (e i : NodeId) : (g.taken queue e).nodes i =
    if i = e then { g.nodes e with queued := false } else g.nodes i := modify_nodes ..

theorem sameShape_taken (g : Inner V) (queue : List NodeId) (e : NodeId) : SameShape g (g.taken queue e) :=
  ⟨rfl, rfl, (SameShape.modify ({ g with queue } : Inner V) e _ fun _ => rfl).node⟩

end Inner

namespace Machine

open Noeta.Reactive.Inner

/-! ### Edges, ownership and counts under a step -/

theorem Sound.init : Sound ({} : Machine V) where
  shape :=
    { edges := ⟨by simp, by simp, by simp, by simp, by simp⟩
      slots := ⟨List.nodup_nil, by simp, by simp, by simp⟩
      tree := ⟨by simp, by simp, fun n hn => by
        obtain ⟨c, hc, _⟩ := TransGen.head'_iff.mp hn
        simp [Owns] at hc⟩
      computing := by simp
      subscriber_kind := by simp }
  count := by simp [DirtyCount, dirtySet]
  computing := rfl

/-- A flush loop returns with no effect left, or starts the body of a live effect after clearing its flag. -/
theorem flushLoop_cases (g : Inner V) (round : List NodeId) (steps : Nat) (stack : List Frame) :
    ((g.nextEffect round).2 = none ∧ (∀ x, g.Runs x → (g.queue ++ round).count x = 0) ∧
      Machine.flushLoop g round steps stack = ⟨{ g with queue := [], flushing := false }, stack⟩) ∨
    ∃ queue e rest, (g.nextEffect round).2 = some (e, rest) ∧ g.Runs e ∧
      (∀ x, g.Runs x → (queue ++ rest).count x + (if x = e then 1 else 0) = (g.queue ++ round).count x) ∧
      Machine.flushLoop g round steps stack = ⟨(g.taken queue e).beginCompute e, .flush e rest steps :: stack⟩ := by
  obtain ⟨queue, hg, hspec⟩ := nextEffect_spec g round
  unfold Machine.flushLoop
  cases hn : (g.nextEffect round).2 with
  | none =>
    rw [hn] at hspec
    obtain ⟨rfl, hcount⟩ := hspec
    rw [show g.nextEffect round = ({ g with queue := [] }, none) from Prod.ext hg hn]
    exact .inl ⟨rfl, hcount, rfl⟩
  | some next =>
    obtain ⟨e, rest⟩ := next
    rw [hn] at hspec
    rw [show g.nextEffect round = ({ g with queue }, some (e, rest)) from Prod.ext hg hn]
    exact .inr ⟨queue, e, rest, rfl, hspec.1, hspec.2, rfl⟩

/-- The flush loop starts the body of a live effect or returns. -/
theorem Sound.flushLoop {g : Inner V} {round : List NodeId} {stack : List Frame} (steps : Nat) (h : g.Shape)
    (hd : g.DirtyCount) (hc : g.computing = stack.map Frame.node)
    (hrun : ∀ e, (g.nextEffect round).2.map Prod.fst = some e → ∀ x ∈ g.computing, ¬ TransGen g.Owns e x) :
    Sound (flushLoop g round steps stack) := by
  rcases flushLoop_cases g round steps stack with ⟨-, -, hflush⟩ | ⟨queue, e, rest, hn, ⟨hlive, hkind⟩, -, hflush⟩
  · rw [hflush]
    exact ⟨h.of_nodes rfl rfl rfl rfl, hd, hc⟩
  · rw [hn] at hrun
    rw [hflush]
    have hsame := sameShape_taken g queue e
    have hshape := hsame.shape (fun _ hx => hx) h
    have hcount : (g.taken queue e).DirtyCount := by
      refine DirtyCount.congr (g := g) rfl rfl (fun i => ?_) hd
      rw [taken_nodes]
      split_ifs with hi <;> simp [hi]
    have hrun' : ∀ x ∈ (g.taken queue e).computing, ¬ TransGen (g.taken queue e).Owns e x := by
      rw [hsame.owns]
      exact hrun e rfl
    have hlive' := (hsame.live e).trans hlive
    obtain ⟨T, hT⟩ := beginCompute_began hshape hlive'
    refine ⟨hshape.beginCompute hlive' ?_ hrun', beginCompute_dirtyCount hshape hcount e hrun', ?_⟩
    · rw [hsame.kind, hkind]
      simp
    · show (beginCompute _ e).computing = e :: _
      rw [hT.computing, taken, modify_computing]
      rw [hc]

theorem Sound.readNode {g : Inner V} {n : NodeId} {stack : List Frame} (h : g.Shape) (hd : g.DirtyCount)
    (hc : g.computing = stack.map Frame.node) (hn : (g.nodes n).live)
    (hrun : (g.nodes n).kind = .computed ∧ (g.nodes n).dirty → ∀ x ∈ g.computing, ¬ TransGen g.Owns n x) :
    Sound (readNode g n stack) := by
  unfold Machine.readNode
  split_ifs with hdirty
  · have hrun' := hrun hdirty
    obtain ⟨T, hT⟩ := beginCompute_began h hn
    refine ⟨h.beginCompute hn (by rw [hdirty.1]; simp) hrun', beginCompute_dirtyCount h hd n hrun', ?_⟩
    show (g.beginCompute n).computing = n :: _
    rw [hT.computing, hc]
  · exact ⟨h, hd, hc⟩

variable {m : Machine V} {n : NodeId} {g : Inner V} {op : Op V}

theorem Sound.read (h : Sound m) (hn : (m.graph.nodes n).live)
    (hrun : (m.graph.nodes n).kind = .computed ∧ (m.graph.nodes n).dirty →
      ∀ x ∈ m.graph.computing, ¬ TransGen m.graph.Owns n x) :
    Sound (Machine.readNode (m.graph.recordDependency n) n m.stack) := by
  refine Sound.readNode (h.shape.recordDependency hn) (recordDependency_dirtyCount h.count n) ?_ ?_ ?_
  · rw [recordDependency_rest]
    exact h.computing
  · rw [recordDependency_node]
    exact hn
  · rw [recordDependency_node, recordDependency_owns, recordDependency_rest]
    exact hrun

/-- A new node at the next slot. -/
theorem create_dirtyCount (h : g.Shape) (hd : g.DirtyCount) {m : Node V} (hm : m.live) (count : Nat)
    (hcount : count = g.dirtyComputeds + if m.kind = .computed ∧ m.dirty then 1 else 0) :
    ((({ g with dirtyComputeds := count } : Inner V).alloc m).adopt g.nextSlot).DirtyCount := by
  have hslots := h.slots.alloc hm
  have hdead := h.slots.nextSlot_dead
  have hlt : g.nextSlot < (g.alloc m).size := hslots.in_range (by rw [alloc_nodes, if_pos rfl]; exact hm)
  have hset : ((({ g with dirtyComputeds := count } : Inner V).alloc m).adopt g.nextSlot).dirtySet =
      if m.kind = .computed ∧ m.dirty then insert g.nextSlot g.dirtySet else g.dirtySet := by
    ext i
    rw [mem_dirtySet, adopt_node, adopt_rest, alloc_nodes]
    show i < (({ g with dirtyComputeds := count } : Inner V).alloc m).size ∧
      (if i = g.nextSlot then m else g.nodes i).live ∧ (if i = g.nextSlot then m else g.nodes i).kind = .computed ∧
      (if i = g.nextSlot then m else g.nodes i).dirty ↔ _
    have hsize : (({ g with dirtyComputeds := count } : Inner V).alloc m).size = (g.alloc m).size := by
      unfold alloc
      cases g.free <;> rfl
    rw [hsize]
    by_cases hi : i = g.nextSlot
    · subst hi
      have hnot : g.nextSlot ∉ g.dirtySet := fun hmem => hdead (mem_dirtySet.mp hmem).2.1
      by_cases hc : m.kind = .computed ∧ m.dirty
      · simp [hc, hm, hlt]
      · simp only [if_true, if_neg hc]
        exact ⟨fun hx => absurd hx.2.2 hc, fun hx => absurd hx hnot⟩
    · have hiff : (i < (g.alloc m).size ∧ (g.nodes i).live ∧ (g.nodes i).kind = .computed ∧ (g.nodes i).dirty) ↔
          i ∈ g.dirtySet := by
        rw [mem_dirtySet]
        constructor
        · exact fun hx => ⟨h.slots.in_range hx.2.1, hx.2⟩
        · refine fun hx => ⟨hslots.in_range ?_, hx.2⟩
          rw [alloc_nodes, if_neg hi]
          exact hx.2.1
      simp only [if_neg hi]
      rw [hiff]
      split_ifs
      · simp [hi]
      · rfl
  have hnot : g.nextSlot ∉ g.dirtySet := fun hmem => hdead (mem_dirtySet.mp hmem).2.1
  unfold DirtyCount at *
  rw [hset, adopt_rest]
  show (({ g with dirtyComputeds := count } : Inner V).alloc m).dirtyComputeds = _
  rw [alloc_dirtyComputeds]
  show count = _
  rw [hcount]
  split_ifs
  · rw [Finset.card_insert_of_notMem hnot, hd]
  · rw [hd, Nat.add_zero]

theorem create_computing (g : Inner V) (m : Node V) :
    ((g.alloc m).adopt g.nextSlot).computing = g.computing := by
  rw [adopt_rest]
  exact alloc_computing g m

theorem Sound.of_graph (h : Sound m) (hshape : g.Shape) (hcount : g.DirtyCount)
    (hc : g.computing = m.graph.computing) : Sound { m with graph := g } :=
  ⟨hshape, hcount, hc.trans h.computing⟩

theorem Sound.signal (h : Sound m) (v : V) : Sound { m with graph := m.graph.signal v } := by
  refine h.of_graph (h.shape.create rfl rfl rfl rfl rfl) ?_ (create_computing _ _)
  exact create_dirtyCount h.shape h.count rfl m.graph.dirtyComputeds (by simp)

theorem Sound.signalRoot (h : Sound m) (v : V) : Sound { m with graph := m.graph.signalRoot v } := by
  refine h.of_graph (h.shape.alloc rfl rfl rfl rfl rfl) ?_ (alloc_computing _ _)
  have hc := create_dirtyCount h.shape h.count (m := { kind := .signal, live := true, content := some v }) rfl
    m.graph.dirtyComputeds (by simp)
  refine DirtyCount.congr ?_ ?_ (fun i => ?_) hc
  · rw [adopt_rest]
    rfl
  · rw [adopt_rest]
    rfl
  · rw [adopt_node]
    exact ⟨rfl, rfl, rfl⟩

theorem Sound.computed (h : Sound m) (body memo : V) : Sound { m with graph := m.graph.computed body memo } := by
  have hshape : ({ m.graph with dirtyComputeds := m.graph.dirtyComputeds + 1 } : Inner V).Shape :=
    h.shape.of_nodes rfl rfl rfl rfl
  refine h.of_graph (hshape.create rfl rfl rfl rfl rfl) ?_ (create_computing _ _)
  exact create_dirtyCount h.shape h.count rfl _ (by simp)

theorem Sound.effect (h : Sound m) (body : V) : Sound { m with graph := m.graph.effect body } := by
  have hshape := h.shape.create (m := { kind := .effect, live := true, dirty := true, queued := true, body := some body })
    rfl rfl rfl rfl rfl
  have hcount := create_dirtyCount h.shape h.count
    (m := { kind := .effect, live := true, dirty := true, queued := true, body := some body }) rfl
    m.graph.dirtyComputeds (by simp)
  have hc := create_computing m.graph
    { kind := .effect, live := true, dirty := true, queued := true, body := some body }
  refine h.of_graph ?_ hcount hc
  exact hshape.of_nodes rfl rfl rfl rfl

theorem Sound.clear (hs : m.stack = []) : Sound { m with graph := m.graph.clear } := by
  obtain ⟨hshape, hcount, _⟩ := Sound.init (V := V)
  refine ⟨hshape.of_nodes rfl rfl rfl rfl, hcount, ?_⟩
  show [] = m.stack.map Frame.node
  rw [hs]
  rfl

theorem Sound.of_sameNodes (h : Sound m) (hnodes : g.nodes = m.graph.nodes)
    (hsize : g.size = m.graph.size) (hfree : g.free = m.graph.free) (hcount : g.dirtyComputeds = m.graph.dirtyComputeds)
    (hc : g.computing = m.graph.computing) : Sound { m with graph := g } := by
  refine h.of_graph (h.shape.of_nodes hnodes hsize hfree hc) ?_ hc
  exact DirtyCount.congr hsize hcount (fun i => by rw [hnodes]; exact ⟨rfl, rfl, rfl⟩) h.count

theorem Sound.pop (h : Sound m) {f : Frame} {stack : List Frame} (hs : m.stack = f :: stack) (result : Option V) :
    (m.graph.endCompute f.node result).Shape ∧ (m.graph.endCompute f.node result).DirtyCount ∧
      (m.graph.endCompute f.node result).computing = stack.map Frame.node := by
  have hc : m.graph.computing = f.node :: stack.map Frame.node := by rw [h.computing, hs]; rfl
  refine ⟨h.shape.endCompute _ _, endCompute_dirtyCount h.shape.slots h.count (h.shape.computing _ ?_).1 _, ?_⟩
  · rw [hc]
    exact List.mem_cons_self
  · rw [endCompute_computing, hc]
    rfl

theorem Sound.step (h : Sound m) (he : m.Enabled op) (hs : m.SparesRunning op) : Sound (m.step op) := by
  have hstart : ∀ {n}, m.starts op = some n → ∀ x ∈ m.running op, ¬ TransGen m.graph.Owns n x :=
    fun hn x hx hnx => hs x (Or.inr ⟨_, hn, hnx⟩) hx
  cases op with
  | signal v => exact h.signal v
  | signalRoot v => exact h.signalRoot v
  | computed body memo => exact h.computed body memo
  | effect body => exact h.effect body
  | read n => exact h.read he.1 fun hd => hstart (by simp only [starts, if_pos hd])
  | peek n =>
    rw [Machine.step]
    split_ifs with hd
    · exact h.read he.1 fun _ => hstart (by simp only [starts, if_pos hd])
    · exact h
  | set n v =>
    have hp := set_propagates h.shape h.count n v
    exact h.of_graph (hp.shape (h.shape.modifyContent n v)) hp.count hp.walked.computing
  | touch n =>
    have hp := touch_propagates h.shape h.count n
    exact h.of_graph (hp.shape (h.shape.of_nodes rfl rfl rfl rfl)) hp.count hp.walked.computing
  | flush =>
    refine Sound.flushLoop 0 (h.shape.of_nodes rfl rfl rfl rfl) h.count h.computing fun e hn => ?_
    refine hstart ?_
    rw [starts, ← hn]
    exact congrArg (Option.map Prod.fst) (nextEffect_congr { m.graph with flushing := true } m.graph (fun _ => rfl)
      (fun _ => rfl) rfl [])
  | dispose n =>
    have hrun : ∀ x ∈ m.graph.computing, ¬ ReflTransGen m.graph.Owns n x :=
      fun x hx hnx => hs x (Or.inl ⟨n, rfl, hnx⟩) hx
    obtain ⟨T, hT, _⟩ := dispose_spec h.shape he
    refine h.of_graph (h.shape.dispose he hrun) (dispose_dirtyCount h.shape h.count he) ?_
    rw [hT.computing, preDispose, modify_computing, disown_rest h.shape he]
  | clear => exact Sound.clear he
  | setObserved on => exact h.of_sameNodes rfl rfl rfl rfl rfl
  | drainReclaimed => exact h.of_sameNodes rfl rfl rfl rfl rfl
  | drainChanged => exact h.of_sameNodes rfl rfl rfl rfl rfl
  | done result =>
    rw [Machine.step]
    cases hstack : m.stack with
    | nil => exact absurd hstack he
    | cons f stack =>
      cases f with
      | read n =>
        obtain ⟨hshape, hcount, hc⟩ := h.pop hstack (some result)
        exact ⟨hshape, hcount, hc⟩
      | flush e round steps =>
        obtain ⟨hshape, hcount, hc⟩ := h.pop hstack none
        simp only
        split_ifs with hmax
        · exact ⟨hshape.of_nodes rfl rfl rfl rfl, hcount, hc⟩
        · refine Sound.flushLoop (steps + 1) hshape hcount hc fun e' hn => ?_
          have hsame := endCompute_sameShape m.graph e none
          rw [nextEffect_congr _ _ hsame.live hsame.kind (endCompute_queue _ _ _)] at hn
          have hst : m.starts (.done result) = some e' := by
            simp only [starts, hstack, if_neg hmax]
            exact hn
          intro x hx
          rw [hsame.owns]
          refine hstart hst x ?_
          show x ∈ m.graph.computing.tail
          rw [h.computing, hstack]
          rw [show (m.graph.endCompute e none).computing = _ from hc] at hx
          exact hx

/-! ### The queue under a step -/

/-- A live effect waits once if it is queued and not at all otherwise. -/
def QueueOk (m : Machine V) : Prop :=
  ∀ e, m.graph.Runs e → m.waiting.count e = if (m.graph.nodes e).queued then 1 else 0

theorem QueueOk.congr {m m' : Machine V} (h : QueueOk m) (hw : ∀ e, m'.graph.Runs e → m'.waiting.count e = m.waiting.count e)
    (hn : ∀ e, m'.graph.Runs e → m.graph.Runs e ∧ (m'.graph.nodes e).queued = (m.graph.nodes e).queued) :
    QueueOk m' := by
  intro e he
  rw [hw e he, (hn e he).2]
  exact h e (hn e he).1

theorem create_node (g : Inner V) (m : Node V) (i : NodeId) :
    (((g.alloc m).adopt g.nextSlot).nodes i).live = (if i = g.nextSlot then m else g.nodes i).live ∧
    (((g.alloc m).adopt g.nextSlot).nodes i).kind = (if i = g.nextSlot then m else g.nodes i).kind ∧
    (((g.alloc m).adopt g.nextSlot).nodes i).queued = (if i = g.nextSlot then m else g.nodes i).queued := by
  rw [adopt_node, alloc_nodes]
  exact ⟨rfl, rfl, rfl⟩

theorem create_queue (g : Inner V) (m : Node V) : ((g.alloc m).adopt g.nextSlot).queue = g.queue := by
  rw [adopt_rest]
  exact alloc_queue g m

theorem QueueOk.create (h : QueueOk m) {c : Node V} (hc : c.kind ≠ .effect)
    (hg : ∀ i, (g.nodes i).live = (if i = m.graph.nextSlot then c else m.graph.nodes i).live ∧
      (g.nodes i).kind = (if i = m.graph.nextSlot then c else m.graph.nodes i).kind ∧
      (g.nodes i).queued = (if i = m.graph.nextSlot then c else m.graph.nodes i).queued)
    (hq : g.queue = m.graph.queue) : QueueOk { m with graph := g } := by
  refine h.congr (fun e _ => ?_) fun e he => ?_
  · unfold waiting
    rw [hq]
  · obtain ⟨h1, h2, h3⟩ := hg e
    unfold Runs at *
    have hne : e ≠ m.graph.nextSlot := by
      intro heq
      rw [h2, if_pos heq] at he
      exact hc he.2
    rw [if_neg hne] at h1 h2 h3
    rw [← h1, ← h2]
    exact ⟨he, h3⟩

theorem QueueOk.effect (h : QueueOk m) (body : V) (hfresh : m.graph.nextSlot ∉ m.waiting) :
    QueueOk { m with graph := m.graph.effect body } := by
  intro e he
  have hn := create_node m.graph
    { kind := .effect, live := true, dirty := true, queued := true, body := some body } e
  have hq := create_queue m.graph
    { kind := .effect, live := true, dirty := true, queued := true, body := some body }
  have hw : ({ m with graph := m.graph.effect body } : Machine V).waiting.count e =
      m.waiting.count e + if e = m.graph.nextSlot then 1 else 0 := by
    unfold waiting
    show List.count e (((m.graph.alloc _).adopt m.graph.nextSlot).queue ++ [m.graph.nextSlot] ++
      m.stack.flatMap Frame.round) = _
    rw [hq]
    simp only [List.count_append, List.count_singleton, beq_iff_eq, eq_comm (a := m.graph.nextSlot)]
    omega
  unfold Runs at he
  change (((m.graph.alloc _).adopt m.graph.nextSlot).nodes e).live ∧
    (((m.graph.alloc _).adopt m.graph.nextSlot).nodes e).kind = .effect at he
  show _ = if (((m.graph.alloc _).adopt m.graph.nextSlot).nodes e).queued then 1 else 0
  rw [hn.1, hn.2.1] at he
  rw [hw, hn.2.2]
  by_cases hslot : e = m.graph.nextSlot
  · rw [if_pos hslot, if_pos hslot, hslot, List.count_eq_zero.mpr hfresh]
    rfl
  · rw [if_neg hslot] at he ⊢
    rw [if_neg hslot]
    exact h e he

theorem QueueOk.readNode (h : QueueOk m) (hs : g.Shape)
    (hn : (g.nodes n).live) (hg : ∀ i, (g.nodes i).live = (m.graph.nodes i).live ∧
      (g.nodes i).kind = (m.graph.nodes i).kind ∧ (g.nodes i).queued = (m.graph.nodes i).queued)
    (hq : g.queue = m.graph.queue) : QueueOk (Machine.readNode g n m.stack) := by
  have hruns : ∀ e, g.Runs e → m.graph.Runs e ∧ (g.nodes e).queued = (m.graph.nodes e).queued := by
    intro e he
    unfold Runs at *
    rw [(hg e).1, (hg e).2.1] at he
    exact ⟨he, (hg e).2.2⟩
  unfold Machine.readNode
  split_ifs
  · obtain ⟨T, hT⟩ := beginCompute_began hs hn
    refine h.congr (fun e _ => ?_) fun e he => ?_
    · unfold waiting
      simp only [List.flatMap_cons, Frame.round, List.nil_append]
      rw [hT.queue, hq]
    · have h1 := hT.runs he
      have h2 := hruns e h1.1
      exact ⟨h2.1, h1.2.trans h2.2⟩
  · refine h.congr (fun e _ => ?_) hruns
    unfold waiting
    rw [hq]

theorem QueueOk.propagated (h : QueueOk m) {g g' : Inner V} (hp : Propagated g n g')
    (hg : ∀ i, (g.nodes i).live = (m.graph.nodes i).live ∧ (g.nodes i).kind = (m.graph.nodes i).kind ∧
      (g.nodes i).queued = (m.graph.nodes i).queued) (hq : g.queue = m.graph.queue) :
    QueueOk { m with graph := g' } := by
  obtain ⟨new, hnew, hnodup, hmem⟩ := hp.walked.queue
  intro e he
  have hmemE := hmem e
  have hmono := hp.walked.queued_mono e
  have he' : m.graph.Runs e := by
    unfold Runs at *
    rw [← (hg e).1, ← (hg e).2.1, ← hp.walked.same.live, ← hp.walked.same.kind]
    exact he
  have hw : ({ m with graph := g' } : Machine V).waiting.count e = m.waiting.count e + new.count e := by
    unfold waiting
    show List.count e (g'.queue ++ _) = _
    rw [hnew, hq]
    simp only [List.count_append]
    omega
  rw [hw, h e he', ← (hg e).2.2]
  show _ = if (g'.nodes e).queued then 1 else 0
  by_cases hbefore : (g.nodes e).queued
  · have hnot : e ∉ new := fun hx => (hmemE.mp hx).1 hbefore
    rw [if_pos hbefore, if_pos (hmono hbefore), List.count_eq_zero.mpr hnot]
  · rw [if_neg hbefore, Nat.zero_add]
    by_cases hafter : (g'.nodes e).queued
    · rw [if_pos hafter, List.count_eq_one_of_mem hnodup (hmemE.mpr ⟨hbefore, hafter⟩)]
    · rw [if_neg hafter, List.count_eq_zero.mpr fun hx => hafter (hmemE.mp hx).2]

/-- The flush loop takes the effect it runs out of the round and clears its flag. -/
theorem QueueOk.flushLoop {round : List NodeId} {stack : List Frame} (steps : Nat) (hs : g.Shape)
    (h : ∀ e, g.Runs e → (g.queue ++ round ++ stack.flatMap Frame.round).count e = if (g.nodes e).queued then 1 else 0) :
    QueueOk (Machine.flushLoop g round steps stack) := by
  rcases flushLoop_cases g round steps stack with ⟨-, hzero, hflush⟩ | ⟨queue, e, rest, -, hruns, hcounts, hflush⟩
  · rw [hflush]
    intro e he
    have hcount := h e he
    rw [List.count_append, hzero e he, Nat.zero_add] at hcount
    exact hcount
  · rw [hflush]
    have hsame := sameShape_taken g queue e
    have hshape := hsame.shape (fun _ hx => hx) hs
    obtain ⟨T, hT⟩ := beginCompute_began hshape ((hsame.live e).trans hruns.1)
    intro x hx
    obtain ⟨hx₁, hqueued⟩ := hT.runs hx
    have hx₀ : g.Runs x := by
      unfold Runs at *
      rw [hsame.live, hsame.kind] at hx₁
      exact hx₁
    have hcount := h x hx₀
    have hc := hcounts x hx₀
    have hw : List.count x (queue ++ (rest ++ stack.flatMap Frame.round)) + (if x = e then 1 else 0) =
        if (g.nodes x).queued then 1 else 0 := by
      rw [← hcount]
      simp only [List.count_append] at hc ⊢
      omega
    show List.count x ((beginCompute _ e).queue ++ _) = if ((beginCompute _ e).nodes x).queued then 1 else 0
    rw [hT.queue, hqueued, taken_nodes]
    simp only [taken, modify_queue, List.flatMap_cons, Frame.round]
    by_cases hxe : x = e
    · rw [if_pos hxe] at hw ⊢
      simp only [Bool.false_eq_true, if_false]
      split_ifs at hw
      omega
    · rw [if_neg hxe] at hw ⊢
      rw [← hw, Nat.add_zero]

theorem QueueOk.init : QueueOk ({} : Machine V) := fun e he => absurd he.1 (by simp)

theorem QueueOk.step (h : QueueOk m) (hs : Sound m) (he : m.Enabled op)
    (hfresh : m.FreshSlot op) (hround : m.FinishesRound op) : QueueOk (m.step op) := by
  have hdep : ∀ n i, ((m.graph.recordDependency n).nodes i).live = (m.graph.nodes i).live ∧
      ((m.graph.recordDependency n).nodes i).kind = (m.graph.nodes i).kind ∧
      ((m.graph.recordDependency n).nodes i).queued = (m.graph.nodes i).queued := by
    intro n i
    rw [recordDependency_node]
    exact ⟨rfl, rfl, rfl⟩
  have hread : ∀ n, (m.graph.nodes n).live →
      QueueOk (Machine.readNode (m.graph.recordDependency n) n m.stack) := by
    intro n hn
    refine h.readNode (hs.shape.recordDependency hn) ?_ (hdep n) ?_
    · rw [(hdep n n).1]
      exact hn
    · rw [recordDependency_rest]
  cases op with
  | signal v =>
    exact h.create (c := { kind := .signal, live := true, content := some v }) (by simp) (create_node _ _)
      (create_queue _ _)
  | signalRoot v =>
    refine h.create (c := { kind := .signal, live := true, content := some v }) (by simp) (fun i => ?_)
      (alloc_queue _ _)
    show ((m.graph.alloc _).nodes i).live = _ ∧ ((m.graph.alloc _).nodes i).kind = _ ∧
      ((m.graph.alloc _).nodes i).queued = _
    rw [alloc_nodes]
    exact ⟨rfl, rfl, rfl⟩
  | computed body memo =>
    exact h.create (c := { kind := .computed, live := true, dirty := true, body := some body, content := some memo })
      (by simp) (create_node { m.graph with dirtyComputeds := m.graph.dirtyComputeds + 1 } _) (create_queue _ _)
  | effect body => exact h.effect body (hfresh body rfl)
  | read n => exact hread n he.1
  | peek n =>
    rw [Machine.step]
    split_ifs
    · exact hread n he.1
    · exact h
  | set n v =>
    refine h.propagated (set_propagates hs.shape hs.count n v) (fun i => ?_) rfl
    show ((m.graph.modify n fun m => { m with content := some v }).nodes i).live = _ ∧
      ((m.graph.modify n fun m => { m with content := some v }).nodes i).kind = _ ∧
      ((m.graph.modify n fun m => { m with content := some v }).nodes i).queued = _
    rw [modify_nodes]
    split_ifs with hi <;> simp [hi]
  | touch n => exact h.propagated (touch_propagates hs.shape hs.count n) (fun i => ⟨rfl, rfl, rfl⟩) rfl
  | flush =>
    refine QueueOk.flushLoop 0 (hs.shape.of_nodes rfl rfl rfl rfl) fun e hr => ?_
    rw [List.append_nil]
    exact h e hr
  | dispose n =>
    obtain ⟨T, hT, _⟩ := dispose_spec hs.shape he
    have hnode := preDispose_node hs.shape he
    refine h.congr (fun e _ => ?_) fun e hr => ?_
    · unfold waiting
      show List.count e ((m.graph.dispose n).queue ++ _) = _
      rw [hT.queue, preDispose, modify_queue, disown_rest hs.shape he]
      rfl
    · change (m.graph.dispose n).Runs e at hr
      have hTe := (hT.live hr.1).1
      unfold Runs at *
      show _ ∧ ((m.graph.dispose n).nodes e).queued = _
      rw [hT.kept e hTe, hnode] at hr ⊢
      exact ⟨hr, rfl⟩
  | clear => exact fun e hr => absurd hr.1 (by simp [Machine.step, Inner.clear])
  | setObserved on => exact h
  | drainReclaimed => exact h
  | drainChanged => exact h
  | done result =>
    rw [Machine.step]
    cases hstack : m.stack with
    | nil => exact absurd hstack he
    | cons f stack =>
      have hsame : ∀ n r, SameShape m.graph (m.graph.endCompute n r) := endCompute_sameShape m.graph
      have hqueued : ∀ n r i, ((m.graph.endCompute n r).nodes i).queued = (m.graph.nodes i).queued := by
        intro n r i
        rw [endCompute_node]
        by_cases hi : i = n
        · rw [if_pos hi, hi]
        · rw [if_neg hi]
      have hruns : ∀ n r e, (m.graph.endCompute n r).Runs e → m.graph.Runs e := by
        intro n r e hr
        unfold Runs at *
        rwa [(hsame n r).live, (hsame n r).kind] at hr
      have hcount : ∀ n r e, (m.graph.endCompute n r).Runs e →
          (m.graph.queue ++ (f.round ++ stack.flatMap Frame.round)).count e =
            if ((m.graph.endCompute n r).nodes e).queued then 1 else 0 := by
        intro n r e hr
        have hc := h e (hruns n r e hr)
        unfold waiting at hc
        rw [hstack, List.flatMap_cons] at hc
        rw [hc, hqueued]
      cases f with
      | read n =>
        intro e hr
        unfold waiting
        show List.count e ((m.graph.endCompute n (some result)).queue ++ _) = _
        rw [endCompute_queue]
        exact hcount n (some result) e hr
      | flush e round steps =>
        simp only
        split_ifs with hmax
        · intro x hr
          have hc := hcount e none x hr
          have hnot : round.count x = 0 := List.count_eq_zero.mpr fun hx =>
            hround result e round steps stack rfl hstack hmax x hx (hruns e none x hr)
          unfold waiting
          show List.count x ((m.graph.endCompute e none).queue ++ _) = _
          rw [endCompute_queue]
          simp only [Frame.round, List.count_append, hnot, Nat.zero_add] at hc ⊢
          exact hc
        · refine QueueOk.flushLoop (steps + 1) (hs.shape.endCompute e none) fun x hr => ?_
          rw [endCompute_queue, List.append_assoc]
          exact hcount e none x hr

/-! ### Runs -/

/-- A step that spares the running bodies, creates effects in fresh slots only and finishes the round of its flush. -/
def Careful (m : Machine V) (op : Op V) : Prop := m.SparesRunning op ∧ m.FreshSlot op ∧ m.FinishesRound op

theorem Reachable.sound {P : Machine V → Op V → Prop} (hP : ∀ m op, P m op → m.SparesRunning op)
    (h : Reachable P m) : Sound m := by
  induction h with
  | init => exact Sound.init
  | step _ he hp ih => exact ih.step he (hP _ _ hp)

theorem Reachable.queueOk (h : Reachable Careful m) : QueueOk m := by
  induction h with
  | init => exact QueueOk.init
  | step hm he hp ih => exact ih.step (hm.sound fun _ _ hc => hc.1) he hp.2.1 hp.2.2

/-- **The representation invariant holds in every state of a run whose steps are careful.** -/
theorem reachable_represents (m : Machine V) (h : Reachable Careful m) : m.Represents := by
  have hs := h.sound fun _ _ hc => hc.1
  have hq := h.queueOk
  refine ⟨hs.shape.edges.edge, fun n => ⟨hs.shape.edges.nodup_sources n, hs.shape.edges.nodup_subscribers n⟩,
    hs.shape.tree.mem_owned, hs.shape.tree.acyclic, hs.shape.slots.free_nodup, hs.shape.slots.mem_free, hs.count, ?_⟩
  intro e hl hk
  rw [hq e ⟨hl, hk⟩]
  split_ifs with hf
  · simp [hf]
  · simp [hf]

theorem SparesRunning.of_none (hd : ∀ n, op ≠ .dispose n) (hn : m.starts op = none) : m.SparesRunning op := by
  rintro x (⟨n, rfl, _⟩ | ⟨n, hs, _⟩)
  · exact absurd rfl (hd n)
  · rw [hn] at hs
    exact absurd hs (by simp)

/-- A signal and an effect that reads it while a flush runs its body. -/
def readingRun : List (Op Nat) := [.signal 7, .effect 1, .flush, .read 0]

theorem readingRun_represents : (readingRun.foldl Machine.step {}).Represents ∧
    ((readingRun.foldl Machine.step {}).graph.nodes 1).sources = [0] := by
  have signal : Reachable Careful (({} : Machine Nat).step (.signal 7)) := .step .init trivial
    ⟨.of_none (by simp) rfl, fun body h => absurd h (by simp), fun r e round steps stack h => absurd h (by simp)⟩
  have effect : Reachable Careful ((({} : Machine Nat).step (.signal 7)).step (.effect 1)) := .step signal trivial
    ⟨.of_none (by simp) rfl, fun body _ => by decide, fun r e round steps stack h => absurd h (by simp)⟩
  have flush : Reachable Careful (((({} : Machine Nat).step (.signal 7)).step (.effect 1)).step .flush) :=
    .step effect Bool.false_ne_true ⟨fun x _ hx => absurd hx List.not_mem_nil, fun body h => absurd h (by simp),
      fun r e round steps stack h => absurd h (by simp)⟩
  have read : Reachable Careful (readingRun.foldl Machine.step {}) :=
    .step flush (show Enabled _ (.read 0) from ⟨by decide, by decide⟩)
      ⟨.of_none (by simp) rfl, fun body h => absurd h (by simp), fun r e round steps stack h => absurd h (by simp)⟩
  exact ⟨reachable_represents _ read, by decide⟩

/-- An effect is created and disposed before it ran, and another one takes its slot. -/
def recycledRun : List (Op Nat) := [.effect 0, .dispose 0, .effect 1]

/-- The live effect in slot 0 is queued and waits twice. -/
theorem recycled_effect_waits_twice :
    ∃ m : Machine Nat, Reachable (fun _ _ => True) m ∧ ¬ m.Represents := by
  have effect : Reachable (fun _ _ => True) (({} : Machine Nat).step (.effect 0)) := .step .init trivial trivial
  have dispose : Reachable (fun _ _ => True) ((({} : Machine Nat).step (.effect 0)).step (.dispose 0)) :=
    .step effect (show Enabled _ (.dispose 0) from rfl) trivial
  have recycled : Reachable (fun _ _ => True) (recycledRun.foldl Machine.step {}) :=
    .step dispose (show Enabled _ (.effect 1) from trivial) trivial
  refine ⟨recycledRun.foldl Machine.step {}, recycled, fun h => ?_⟩
  have hq := h.queued 0 (by decide) (by decide)
  exact absurd (hq.mp (by decide)) (by decide)

end Machine

end Noeta.Reactive
