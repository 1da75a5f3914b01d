import Noeta.Reactive.Effects

/-!
# A flush that gives up

A flush returns `FlushOverflow` in the middle of a round that it has taken out of the queue. What is left of the round
is forgotten, and its effects keep their queued flags, so no change queues them again. The work is kept exactly if
nothing alive is left in the round.
-/

namespace Noeta.Reactive

open Relation

variable {V : Type}

namespace Machine

open Noeta.Reactive.Inner

/-- A later flush takes `x` into its first round. -/
def TakesUp (m : Machine V) (x : NodeId) : Prop :=
  ∃ first round, (m.step .flush).stack = .flush first round 0 :: m.stack ∧ (x = first ∨ x ∈ round)

/-- After a flush has given up: the live effects that are due are in the queue, no body is running and no flush either,
the next flush takes each of them up, and so does the one after a change. -/
structure KeepsWork (m : Machine V) (due : NodeId → Prop) : Prop where
  queued : ∀ x, due x → x ∈ m.graph.queue
  computing : m.graph.computing = []
  flushing : m.graph.flushing = false
  flush : ∀ x, due x → m.TakesUp x
  set : ∀ x n v, due x → m.Enabled (.set n v) → (m.step (.set n v)).TakesUp x

variable {m : Machine V} {e : NodeId} {round : List NodeId} {steps : Nat}

theorem takesUp_of_mem {x : NodeId} (hx : m.graph.Runs x) (hq : x ∈ m.graph.queue) : m.TakesUp x := by
  have hsort : x ∈ m.graph.queue.insertionSort (· ≤ ·) := (List.perm_insertionSort _ _).mem_iff.mpr hq
  have hnext : ({ m.graph with flushing := true } : Inner V).nextEffect [] =
      ({ m.graph with flushing := true, queue := [] },
        ({ m.graph with flushing := true, queue := [] } : Inner V).firstEffect
          (m.graph.queue.insertionSort (· ≤ ·))) := rfl
  unfold TakesUp
  rw [Machine.step]
  unfold Machine.flushLoop
  rw [hnext]
  cases hf : ({ m.graph with flushing := true, queue := [] } : Inner V).firstEffect
      (m.graph.queue.insertionSort (· ≤ ·)) with
  | none => exact absurd hx (firstEffect_none hf x hsort)
  | some next =>
    obtain ⟨first, round⟩ := next
    obtain ⟨_, skipped, hsorted, hskip⟩ := firstEffect_some hf
    refine ⟨first, round, rfl, ?_⟩
    rw [hsorted, List.mem_append, List.mem_cons] at hsort
    rcases hsort with hmem | hmem
    · exact absurd hx (hskip x hmem)
    · exact hmem

theorem runs_set (hs : Sound m) {n x : NodeId} {v : V} (hx : m.graph.Runs x)
    (hq : x ∈ m.graph.queue) : (m.step (.set n v)).graph.Runs x ∧ x ∈ (m.step (.set n v)).graph.queue := by
  have hp := set_propagates hs.shape hs.count n v
  have hsame := (modifyContent_same m.graph n v).1.trans hp.walked.same
  obtain ⟨new, hqueue, _⟩ := hp.walked.queue
  rw [Machine.step]
  refine ⟨⟨(hsame.live x).trans hx.1, (hsame.kind x).trans hx.2⟩, ?_⟩
  rw [hqueue]
  exact List.mem_append_left _ hq

theorem step_overflow {r : V} {stack : List Frame}
    (hstack : m.stack = .flush e round steps :: stack) (hmax : maxFlushSteps < steps + 1) :
    m.step (.done r) = ⟨{ m.graph.endCompute e none with flushing := false }, stack⟩ := by
  simp only [Machine.step, hstack, if_pos hmax]

theorem owed_overflow {due : NodeId → Prop} (h : Fair m due) {r : V}
    {stack : List Frame} (hstack : m.stack = .flush e round steps :: stack)
    (hmax : maxFlushSteps < steps + 1) (x : NodeId) : m.owed (.done r) due x ↔ due x := by
  have hsame := endCompute_sameShape m.graph e none
  have hst : m.invokes (.done r) = none := by simp only [invokes, starts, hstack, if_pos hmax]
  have hruns : (m.step (.done r)).graph.Runs x ↔ m.graph.Runs x := by
    rw [step_overflow hstack hmax]
    unfold Runs
    show ((m.graph.endCompute e none).nodes x).live ∧ ((m.graph.endCompute e none).nodes x).kind = _ ↔ _
    rw [hsame.live, hsame.kind]
  unfold owed
  rw [hst, hruns]
  constructor
  · rintro (⟨hd, _, _⟩ | hc)
    · exact hd
    · exact hc.elim
  · exact fun hd => Or.inl ⟨hd, by simp, ((h.due x).mp hd).1⟩

/-- **A flush that gives up keeps its work exactly if no live effect is left in its round and it was not called by a
running body.** -/
theorem overflow_keeps_work_iff (m : Machine V) (due : NodeId → Prop) (h : Owes Attentive m due) (r : V) (e : NodeId)
    (round : List NodeId) (steps : Nat) (stack : List Frame) (hstack : m.stack = .flush e round steps :: stack)
    (hmax : maxFlushSteps < steps + 1) :
    (m.step (.done r)).KeepsWork (m.owed (.done r) due) ↔ (∀ x ∈ round, ¬ m.graph.Runs x) ∧ stack = [] := by
  have hf := h.fair
  have howed := owed_overflow hf (r := r) hstack hmax
  have hstep := step_overflow (r := r) hstack hmax
  have hqueue : (m.step (.done r)).graph.queue = m.graph.queue := by
    rw [hstep]
    exact endCompute_queue m.graph e none
  have hcomp : (m.step (.done r)).graph.computing = stack.map Frame.node := by
    rw [hstep]
    exact (hf.sound.pop hstack none).2.2
  have hwait : m.waiting = m.graph.queue ++ (round ++ stack.flatMap Frame.round) := by
    unfold waiting
    rw [hstack, List.flatMap_cons]
    rfl
  constructor
  · intro hk
    refine ⟨fun x hx hruns => ?_, ?_⟩
    · -- an effect of the round waits there, and so not in the queue
      have hcount := hf.queue x hruns
      rw [hwait, List.count_append, List.count_append] at hcount
      have hround : 0 < round.count x := List.count_pos_iff.mpr hx
      have hflag : (m.graph.nodes x).queued := by
        by_contra hq
        rw [if_neg hq] at hcount
        omega
      have hdue := (howed x).mpr ((hf.due x).mpr ⟨hruns, hflag⟩)
      have hmem := hk.queued x hdue
      rw [hqueue] at hmem
      have hpos : 0 < m.graph.queue.count x := List.count_pos_iff.mpr hmem
      rw [if_pos hflag] at hcount
      omega
    · have hempty := hk.computing
      rw [hcomp] at hempty
      exact List.map_eq_nil_iff.mp hempty
  · rintro ⟨hround, rfl⟩
    have hmem : ∀ x, m.owed (.done r) due x →
        (m.step (.done r)).graph.Runs x ∧ x ∈ (m.step (.done r)).graph.queue := by
      intro x hx
      obtain ⟨hruns, hflag⟩ := (hf.due x).mp ((howed x).mp hx)
      have hcount := hf.queue x hruns
      rw [if_pos hflag, hwait, List.count_append, List.count_append, List.flatMap_nil, List.count_nil,
        List.count_eq_zero.mpr fun hx => hround x hx hruns] at hcount
      have hsame := endCompute_sameShape m.graph e none
      refine ⟨?_, ?_⟩
      · rw [hstep]
        exact ⟨(hsame.live x).trans hruns.1, (hsame.kind x).trans hruns.2⟩
      · rw [hqueue]
        exact List.count_pos_iff.mp (by omega)
    have hsound : Sound (m.step (.done r)) := by
      refine hf.sound.step (show m.stack ≠ [] from hstack ▸ List.cons_ne_nil _ _) (.of_none (by simp) ?_)
      simp only [starts, hstack, if_pos hmax]
    refine ⟨fun x hx => (hmem x hx).2, hcomp, ?_, fun x hx => takesUp_of_mem (hmem x hx).1 (hmem x hx).2, ?_⟩
    · rw [hstep]
    · intro x n v hx _
      obtain ⟨hruns, hq⟩ := runs_set hsound (n := n) (v := v) (hmem x hx).1 (hmem x hx).2
      exact takesUp_of_mem hruns hq

/-! ### Two effects that never settle -/

/-- A signal in slot 0 and an effect in slots 1 and 2 each, while a flush runs the body of `running`. -/
def spinGraph (running : NodeId) (queue subscribers : List NodeId) (first second : Node Nat) : Inner Nat where
  size := 3
  nodes
    | 0 => { kind := .signal, live := true, content := some 7, subscribers }
    | 1 => first
    | 2 => second
    | _ => {}
  computing := [running]
  queue := queue
  flushing := true

def spinEffect (body : Nat) (dirty queued : Bool) (sources : List NodeId) : Node Nat :=
  { kind := .effect, live := true, dirty, queued, sources, body := some body }

theorem eq_of_nodes {g g' : Inner V} (hr : g = { g' with nodes := g.nodes }) (hn : ∀ i, g.nodes i = g'.nodes i) :
    g = g' := by
  rw [hr, funext hn]

/-- The body of the first effect runs, the second waits in the round. -/
def spinning (steps : Nat) : Machine Nat :=
  ⟨spinGraph 1 [] [2] (spinEffect 1 false false []) (spinEffect 2 false true [0]), [.flush 1 [2] steps]⟩

theorem spin_read_first (d q : Bool) (subscribers sources : List NodeId) :
    (spinGraph 1 [] subscribers (spinEffect 1 d false []) (spinEffect 2 d q sources)).recordDependency 0 =
      spinGraph 1 [] (subscribers ++ [1]) (spinEffect 1 d false [0]) (spinEffect 2 d q sources) :=
  eq_of_nodes rfl fun
    | 0 => rfl
    | 1 => rfl
    | 2 => rfl
    | _ + 3 => rfl

theorem spin_read_second (d : Bool) :
    (spinGraph 2 [1] [1] (spinEffect 1 false true [0]) (spinEffect 2 d false [])).recordDependency 0 =
      spinGraph 2 [1] [1, 2] (spinEffect 1 false true [0]) (spinEffect 2 d false [0]) :=
  eq_of_nodes rfl fun
    | 0 => rfl
    | 1 => rfl
    | 2 => rfl
    | _ + 3 => rfl

theorem spin_set_first (subscribers sources : List NodeId) (d : Bool) (hs : subscribers = [] ∨ subscribers = [2]) :
    (spinGraph 1 [] (subscribers ++ [1]) (spinEffect 1 d false [0]) (spinEffect 2 d true sources)).set 0 7 =
      spinGraph 1 [1] (subscribers ++ [1]) (spinEffect 1 true true [0]) (spinEffect 2 d true sources) := by
  rcases hs with rfl | rfl
  all_goals exact eq_of_nodes rfl fun
    | 0 => rfl
    | 1 => rfl
    | 2 => rfl
    | _ + 3 => rfl

theorem spin_set_second (d : Bool) :
    (spinGraph 2 [1] [1, 2] (spinEffect 1 false true [0]) (spinEffect 2 d false [0])).set 0 7 =
      spinGraph 2 [1, 2] [1, 2] (spinEffect 1 false true [0]) (spinEffect 2 true true [0]) :=
  eq_of_nodes rfl fun
    | 0 => rfl
    | 1 => rfl
    | 2 => rfl
    | _ + 3 => rfl

theorem spin_done_first (steps : Nat) (d : Bool) (subscribers sources : List NodeId)
    (hs : subscribers = [] ∧ sources = [] ∨ subscribers = [2] ∧ sources = [0]) :
    flushLoop ((spinGraph 1 [1] (subscribers ++ [1]) (spinEffect 1 true true [0])
        (spinEffect 2 d true sources)).endCompute 1 none) [2] steps [] =
      ⟨spinGraph 2 [1] [1] (spinEffect 1 false true [0]) (spinEffect 2 d false []), [.flush 2 [] steps]⟩ := by
  rcases hs with ⟨rfl, rfl⟩ | ⟨rfl, rfl⟩
  all_goals exact congrArg (Machine.mk · _) (eq_of_nodes rfl fun
    | 0 => rfl
    | 1 => rfl
    | 2 => rfl
    | _ + 3 => rfl)

theorem spin_done_second (steps : Nat) :
    flushLoop ((spinGraph 2 [1, 2] [1, 2] (spinEffect 1 false true [0]) (spinEffect 2 true true [0])).endCompute 2 none)
      [] steps [] = spinning steps :=
  congrArg (Machine.mk · _) (eq_of_nodes rfl fun
    | 0 => rfl
    | 1 => rfl
    | 2 => rfl
    | _ + 3 => rfl)

/-- One run of an effect that reads the signal and sets it. -/
theorem owes_effectRun {g g₁ g₂ : Inner Nat} {m : Machine Nat}
    (h : ∃ due, Owes Attentive ⟨g, [.flush e round steps]⟩ due) (hsteps : steps + 1 ≤ maxFlushSteps)
    (hsig : (g.nodes 0).live ∧ (g.nodes 0).kind = .signal) (hsig₁ : (g₁.nodes 0).live ∧ (g₁.nodes 0).kind = .signal)
    (hrun₁ : ∀ c ∈ g₁.computing, (g₁.nodes c).kind ≠ .computed) (hcomp₂ : g₂.computing = [e])
    (hread : g.recordDependency 0 = g₁) (hset : g₁.set 0 7 = g₂)
    (hdone : flushLoop (g₂.endCompute e none) round (steps + 1) [] = m) : ∃ due, Owes Attentive m due := by
  obtain ⟨due, h⟩ := h
  have noEffect : ∀ {m : Machine Nat} {op : Op Nat}, (∀ body, op ≠ .effect body) → m.FreshSlot op :=
    fun hop body h => absurd h (hop body)
  have noDone : ∀ {m : Machine Nat} {op : Op Nat}, (∀ r, op ≠ .done r) → m.FinishesRound op :=
    fun hop r e round steps stack h => absurd h (hop r)
  have hmax : ¬ maxFlushSteps < steps + 1 := by omega
  have hsignal : ∀ {g : Inner Nat}, (g.nodes 0).kind = .signal → ¬ ((g.nodes 0).kind = .computed ∧ (g.nodes 0).dirty) := by
    intro g hg hd
    rw [hg] at hd
    exact absurd hd.1 (by simp)
  have hstart : (⟨g, [.flush e round steps]⟩ : Machine Nat).starts (.read 0) = none := if_neg (hsignal hsig.2)
  have read := Owes.step h (show Enabled _ (.read 0) from ⟨hsig.1, by rw [hsig.2]; simp⟩)
    ⟨⟨.of_none (by simp) hstart, noEffect (by simp), noDone (by simp)⟩, trivial⟩
  have hr : (⟨g, [.flush e round steps]⟩ : Machine Nat).step (.read 0) = ⟨g₁, [.flush e round steps]⟩ := by
    rw [Machine.step, hread]
    exact if_neg (hsignal hsig₁.2)
  rw [hr] at read
  have set := Owes.step read (show Enabled _ (.set 0 7) from hsig₁)
    ⟨⟨.of_none (by simp) rfl, noEffect (by simp), noDone (by simp)⟩, fun c hc hk => absurd hk (hrun₁ c hc)⟩
  have hs : (⟨g₁, [.flush e round steps]⟩ : Machine Nat).step (.set 0 7) = ⟨g₂, [.flush e round steps]⟩ := by
    rw [← hset]
    rfl
  rw [hs] at set
  have done := Owes.step set (show Enabled _ (.done 0) from List.cons_ne_nil _ _)
    ⟨⟨fun x _ hx => ?_, noEffect (by simp), ?_⟩, trivial⟩
  · rw [show (⟨g₂, [.flush e round steps]⟩ : Machine Nat).step (.done 0) = m by
      simp only [Machine.step, if_neg hmax]
      exact hdone] at done
    exact ⟨_, done⟩
  · have hx' : x ∈ g₂.computing.tail := hx
    rw [hcomp₂] at hx'
    exact absurd hx' List.not_mem_nil
  · intro r e' round' steps' stack' _ hstack hmax'
    have hstack' : [Frame.flush e round steps] = .flush e' round' steps' :: stack' := hstack
    cases hstack'
    exact absurd hmax' hmax

/-- The runs go round until the flush gives up. -/
theorem spinning_owes (laps : Nat) (h : 2 * laps + 2 ≤ maxFlushSteps) :
    ∃ due, Owes Attentive (spinning (2 * laps + 2)) due := by
  have second : ∀ (d : Bool) (steps : Nat), steps + 1 ≤ maxFlushSteps →
      (∃ due, Owes Attentive ⟨spinGraph 2 [1] [1] (spinEffect 1 false true [0]) (spinEffect 2 d false []),
        [.flush 2 [] steps]⟩ due) → ∃ due, Owes Attentive (spinning (steps + 1)) due := by
    intro d steps hsteps h
    refine owes_effectRun h hsteps ⟨rfl, rfl⟩ ⟨rfl, rfl⟩ ?_ rfl (spin_read_second d) (spin_set_second d)
      (spin_done_second (steps + 1))
    intro c hc
    rw [List.mem_singleton.mp hc]
    exact fun hk => absurd hk (by simp [spinGraph, spinEffect])
  have first : ∀ (d : Bool) (steps : Nat) (subscribers sources : List NodeId), steps + 1 ≤ maxFlushSteps →
      (subscribers = [] ∧ sources = [] ∨ subscribers = [2] ∧ sources = [0]) →
      (∃ due, Owes Attentive ⟨spinGraph 1 [] subscribers (spinEffect 1 d false []) (spinEffect 2 d true sources),
        [.flush 1 [2] steps]⟩ due) →
      ∃ due, Owes Attentive ⟨spinGraph 2 [1] [1] (spinEffect 1 false true [0]) (spinEffect 2 d false []),
        [.flush 2 [] (steps + 1)]⟩ due := by
    intro d steps subscribers sources hsteps hs h
    refine owes_effectRun h hsteps ⟨rfl, rfl⟩ ⟨rfl, rfl⟩ ?_ rfl (spin_read_first d true subscribers sources)
      (spin_set_first subscribers sources d (hs.imp And.left And.left)) (spin_done_first (steps + 1) d subscribers sources hs)
    intro c hc
    rw [List.mem_singleton.mp hc]
    exact fun hk => absurd hk (by simp [spinGraph, spinEffect])
  induction laps with
  | zero =>
    refine second true 1 (by omega) (first true 0 [] [] (by omega) (Or.inl ⟨rfl, rfl⟩) ?_)
    have noDone : ∀ {m : Machine Nat} {op : Op Nat}, (∀ r, op ≠ .done r) → m.FinishesRound op :=
      fun hop r e round steps stack h => absurd h (hop r)
    have signal := Owes.step (V := Nat) (P := Attentive) .init (show Enabled _ (.signal 7) from trivial)
      ⟨⟨.of_none (by simp) rfl, fun body h => absurd h (by simp), noDone (by simp)⟩, trivial⟩
    have one := Owes.step signal (show Enabled _ (.effect 1) from trivial)
      ⟨⟨.of_none (by simp) rfl, fun body _ => by decide, noDone (by simp)⟩, trivial⟩
    have two := Owes.step one (show Enabled _ (.effect 2) from trivial)
      ⟨⟨.of_none (by simp) rfl, fun body _ => by decide, noDone (by simp)⟩, trivial⟩
    have flush := Owes.step two (show Enabled _ .flush from Bool.false_ne_true)
      ⟨⟨fun x _ hx => absurd hx List.not_mem_nil, fun body h => absurd h (by simp), noDone (by simp)⟩, trivial⟩
    have hstart : (((({} : Machine Nat).step (.signal 7)).step (.effect 1)).step (.effect 2)).step .flush =
        ⟨spinGraph 1 [] [] (spinEffect 1 true false []) (spinEffect 2 true true []), [.flush 1 [2] 0]⟩ :=
      congrArg (Machine.mk · _) (eq_of_nodes rfl fun
        | 0 => rfl
        | 1 => rfl
        | 2 => rfl
        | _ + 3 => rfl)
    rw [hstart] at flush
    exact ⟨_, flush⟩
  | succ laps ih =>
    have hlap := first false (2 * laps + 2) [2] [0] (by omega) (Or.inr ⟨rfl, rfl⟩) (ih (by omega))
    exact second false (2 * laps + 3) (by omega) hlap

/-- The first effect disposes the second, so nothing is left in the round when the flush gives up. -/
theorem spinning_keeps_work : ∃ due : NodeId → Prop,
    (((spinning 10000).step (.dispose 2)).step (.done 0)).KeepsWork due := by
  obtain ⟨due, h⟩ := spinning_owes 4999 (by decide)
  have hsp : (spinning 10000).SparesRunning (.dispose 2) := by
    rintro x (⟨n, hop, hx⟩ | ⟨n, hst, _⟩)
    · cases hop
      rcases ReflTransGen.cases_head hx with rfl | ⟨c, hc, _⟩
      · show 2 ∉ [1]
        decide
      · exact absurd hc List.not_mem_nil
    · exact absurd hst (by simp [starts])
  have dispose := Owes.step h (show Enabled _ (.dispose 2) from rfl)
    ⟨⟨hsp, fun body h => absurd h (by simp), fun r e round steps stack h => absurd h (by simp)⟩, trivial⟩
  refine ⟨_, (overflow_keeps_work_iff _ _ dispose 0 1 [2] 10000 [] rfl (by decide)).mpr ⟨fun x hx hruns => ?_, rfl⟩⟩
  rw [List.mem_singleton.mp hx] at hruns
  exact absurd hruns.1 Bool.false_ne_true

/-- The flush gives up after the first effect, and the second one, which is due, is not in the queue. -/
theorem overflow_loses_effect : ∃ (m : Machine Nat) (due : NodeId → Prop) (round : List NodeId) (steps : Nat) (x : NodeId),
    Owes Attentive m due ∧ m.stack = [.flush 1 round steps] ∧ maxFlushSteps < steps + 1 ∧ m.owed (.done 0) due x ∧
    (m.step (.done 0)).graph.Runs x ∧ x ∉ (m.step (.done 0)).graph.queue := by
  obtain ⟨due, h⟩ := spinning_owes 4999 (by decide)
  have hstack : (spinning 10000).stack = [.flush 1 [2] 10000] := rfl
  have hstep := step_overflow (r := 0) hstack (by decide)
  refine ⟨spinning 10000, due, [2], 10000, 2, h, hstack, by decide, ?_, ?_, ?_⟩
  · rw [owed_overflow h.fair hstack (by decide)]
    exact (h.fair.due 2).mpr ⟨⟨rfl, rfl⟩, rfl⟩
  · rw [hstep]
    exact ⟨rfl, rfl⟩
  · rw [hstep]
    exact List.not_mem_nil

end Machine

end Noeta.Reactive
