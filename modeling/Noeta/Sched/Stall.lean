import Noeta.Sched.Channel

/-!
# The stall registry

Every registered scheduler loops: it takes a snapshot of the wake generation, polls its tasks, and if the round made no
progress it parks in `isolate_in_flight_wait`, waits until the generation moves or the wait times out, and checks whether
all registered schedulers are parked. The steps below are the atomic ones, by any scheduler in any order: the counters,
the generation and the flag are read and written one at a time, and between a change of a channel and the `notify` that
announces it other schedulers may run.
-/

namespace Noeta.Sched

/-- What a task of a scheduler waits for. A task that has not started, or was woken by a timer, waits for nothing. -/
inductive Wait where
  | now
  | recv (channel : Nat)
  | send (channel : Nat) (phase : SendPhase)
  | result (worker : Nat)
deriving DecidableEq, Repr

/-- Where a scheduler is in its loop. -/
inductive Phase where
  | start
  /-- In a round: whether it has made progress, and whether a task is running. -/
  | polling (progressed running : Bool)
  /-- In a round, between `send_action` and `try_push`. -/
  | pushing (channel : Nat) (phase : SendPhase) (progressed : Bool)
  /-- The round made no progress. -/
  | stalled
  /-- Cross-thread work is outstanding. -/
  | outstanding
  /-- The deadlock was not latched yet. -/
  | clear
  /-- In `park`, between the increment of `parked` and the read of `active`. -/
  | parking (parked : Nat)
  /-- Parked; `all` is what `park` returned. -/
  | waiting (all : Bool)
  | checking (all : Bool)
  | judging (all progressed : Bool)
  | voting
  | counting (active : Nat)
  | leaving (verdict : Bool)
  /-- Unparked, about to latch the deadlock. -/
  | latching
  /-- The run is over, or unwinds. -/
  | ending
  | stopped
deriving DecidableEq, Repr

/-- Whether `parked` counts the scheduler. -/
def Phase.isParked : Phase → Bool
  | .parking _ | .waiting _ | .checking _ | .judging _ _ | .voting | .counting _ | .leaving _ => true
  | _ => false

/-- A scheduler: the waits of its tasks and those this round found not ready, its channel table and its workers in
flight; `owes` is set between a change that it made and the `notify`. `since` counts the changes before its snapshot. -/
structure Scheduler where
  phase : Phase := .stopped
  seen : Nat := 0
  waits : List Wait := []
  tested : List Wait := []
  table : List Nat := []
  inflight : Nat := 0
  owes : Bool := false
  landed : Bool := false
  registered : Bool := false
  since : Nat := 0

/-- The process: the channels, `WAKE`, `STALL` and the schedulers. `events` counts the changes of channels and results. -/
structure Process (M : Type) where
  channels : Nat → Channel M
  size : Nat
  schedulers : Nat → Scheduler
  active : Nat
  generation : Nat := 0
  parked : Nat := 0
  deadlocked : Bool := false
  events : Nat := 0

namespace Process

variable {M : Type}

/-- A poll of the task would go on. -/
def ready (p : Process M) : Wait → Bool
  | .now => true
  | .recv c => !(p.channels c).buffer.isEmpty || (p.channels c).closed
  | .send c phase => (p.channels c).sendAction phase != .park
  | .result j => (p.schedulers j).landed

def isPending (p : Process M) (c : Nat) : Bool := !(p.channels c).closed || !(p.channels c).buffer.isEmpty

/-- `cross_thread_pending`. -/
def pending (p : Process M) (i : Nat) : Bool :=
  decide (0 < (p.schedulers i).inflight) || (p.schedulers i).table.any p.isPending

def modify (p : Process M) (i : Nat) (f : Scheduler → Scheduler) : Process M :=
  { p with schedulers := Function.update p.schedulers i (f (p.schedulers i)) }

def goto (p : Process M) (i : Nat) (phase : Phase) : Process M := p.modify i fun s => { s with phase }

/-- Scheduler `i` changed channel `c`, and owes a `notify`. -/
def change (p : Process M) (i c : Nat) (channel : Channel M) : Process M :=
  ({ p with channels := Function.update p.channels c channel, events := p.events + 1 } : Process M).modify i
    fun s => { s with owes := true }

/-- A task goes on: its wait is over. -/
def resume (p : Process M) (i : Nat) (w : Wait) (progressed : Bool) : Process M :=
  p.modify i fun s => { s with waits := s.waits.erase w, phase := .polling progressed true }

/-- The poll of a task found its wait not ready. -/
def note (p : Process M) (i : Nat) (w : Wait) (progressed : Bool) : Process M :=
  p.modify i fun s => { s with tested := w :: s.tested, phase := .polling progressed false }

/-- The poll of a task that waits for `w`. -/
def test (p : Process M) (i : Nat) (w : Wait) (progressed : Bool) : Process M :=
  match w with
  | .now => p.resume i w progressed
  | .recv c =>
    match (p.channels c).tryRecv with
    | (channel, .got _) => (p.change i c channel).resume i w true
    | (_, .closedEmpty) => p.resume i w progressed
    | (_, .empty) => p.note i w progressed
  | .send c phase =>
    match (p.channels c).sendAction phase with
    | .closed => p.resume i w progressed
    | .complete => p.resume i w true
    | .park => p.note i w progressed
    | .deposit | .deliverBuffered => p.goto i (.pushing c phase progressed)
  | .result j =>
    if (p.schedulers j).landed then
      -- the harvest joins the worker's thread
      if (p.schedulers j).phase = .stopped ∧ (p.schedulers j).owes = false then
        (p.modify i fun s => { s with inflight := s.inflight - 1 }).resume i w true
      else p
    else p.note i w progressed

/-- `try_push` for a send in phase `phase`. -/
def tryPush (p : Process M) (i c : Nat) (phase : SendPhase) (progressed : Bool) (message : M) : Process M :=
  if (p.channels c).accepts then
    let q := p.change i c { p.channels c with buffer := (p.channels c).buffer ++ [message] }
    if (p.channels c).capacity = 0 then
      q.modify i fun s =>
        { s with waits := s.waits.erase (.send c phase) ++ [.send c .deposited], phase := .polling true false }
    else q.resume i (.send c phase) true
  else p.note i (.send c phase) progressed

/-- The atomic steps of scheduler `i`. -/
inductive Op (M : Type) where
  | snapshot (i : Nat)
  | test (i : Nat) (w : Wait)
  | push (i : Nat) (message : M)
  | unshippable (i : Nat)
  | notify (i : Nat)
  | close (i c : Nat)
  | add (i : Nat) (w : Wait)
  | spawn (i : Nat) (waits : List Wait) (table : List Nat)
  | rest (i : Nat)
  | finish (i : Nat)
  | endRound (i : Nat)
  | again (i : Nat)
  | assess (i : Nat)
  | heed (i : Nat)
  | park (i : Nat)
  | compare (i : Nat)
  | wake (i : Nat)
  | check (i : Nat)
  | judge (i : Nat)
  | vote (i : Nat)
  | count (i : Nat)
  | unpark (i : Nat)
  | latch (i : Nat)
  | reap (i : Nat)

/-- A step; one that the scheduler is not at does nothing. -/
def step (p : Process M) (op : Op M) : Process M :=
  match op with
  | .snapshot i =>
    match (p.schedulers i).phase with
    | .start => p.modify i fun s =>
      { s with phase := .polling false false, seen := p.generation, since := p.events, tested := [] }
    | _ => p
  | .test i w =>
    match (p.schedulers i).phase with
    | .polling progressed false =>
      if (p.schedulers i).owes = false ∧ w ∈ (p.schedulers i).waits then p.test i w progressed else p
    | _ => p
  | .push i message =>
    match (p.schedulers i).phase with
    | .pushing c phase progressed => p.tryPush i c phase progressed message
    | _ => p
  | .unshippable i =>
    match (p.schedulers i).phase with
    | .pushing c phase progressed => p.resume i (.send c phase) progressed
    | _ => p
  | .notify i =>
    if (p.schedulers i).owes then
      { p.modify i fun s => { s with owes := false } with generation := p.generation + 1 }
    else p
  | .close i c =>
    match (p.schedulers i).phase with
    | .polling _ true =>
      if (p.schedulers i).owes then p else p.change i c { p.channels c with closed := true }
    | _ => p
  | .add i w =>
    match (p.schedulers i).phase with
    | .polling _ true => p.modify i fun s => { s with waits := s.waits ++ [w] }
    | _ => p
  | .spawn i waits table =>
    match (p.schedulers i).phase with
    | .polling _ true =>
      let p := p.modify i fun s => { s with inflight := s.inflight + 1 }
      { p with
        schedulers := Function.update p.schedulers p.size { phase := .start, waits, table, registered := true }
        size := p.size + 1
        active := p.active + 1 }
    | _ => p
  | .rest i =>
    match (p.schedulers i).phase with
    | .polling progressed true => p.goto i (.polling progressed false)
    | _ => p
  | .finish i =>
    if ((p.schedulers i).phase = .ending ∨ ∃ progressed, (p.schedulers i).phase = .polling progressed true) ∧
        (p.schedulers i).owes = false then
      { p.modify i fun s => { s with phase := .stopped, landed := true, owes := true, waits := [] } with
        events := p.events + 1 }
    else p
  | .endRound i =>
    match (p.schedulers i).phase with
    | .polling progressed false =>
      if (p.schedulers i).owes then p
      else if progressed then p.goto i .start
      else if ∀ w ∈ (p.schedulers i).waits, w ∈ (p.schedulers i).tested then p.goto i .stalled
      else p
    | _ => p
  | .again i =>
    match (p.schedulers i).phase with
    | .stalled => p.goto i .start
    | _ => p
  | .assess i =>
    match (p.schedulers i).phase with
    | .stalled => p.goto i (if p.pending i then .outstanding else .ending)
    | _ => p
  | .heed i =>
    match (p.schedulers i).phase with
    | .outstanding => p.goto i (if p.deadlocked then .ending else .clear)
    | _ => p
  | .park i =>
    match (p.schedulers i).phase with
    | .clear => { p.goto i (.parking (p.parked + 1)) with parked := p.parked + 1 }
    | _ => p
  | .compare i =>
    match (p.schedulers i).phase with
    | .parking parked => p.goto i (.waiting (decide (p.active ≤ parked)))
    | _ => p
  | .wake i =>
    match (p.schedulers i).phase with
    | .waiting all => p.goto i (.checking all)
    | _ => p
  | .check i =>
    match (p.schedulers i).phase with
    | .checking all => p.goto i (.judging all (p.generation != (p.schedulers i).seen))
    | _ => p
  | .judge i =>
    match (p.schedulers i).phase with
    | .judging all progressed =>
      p.goto i (if p.deadlocked then .leaving true else if all && !progressed then .voting else .leaving false)
    | _ => p
  | .vote i =>
    match (p.schedulers i).phase with
    | .voting => p.goto i (.counting p.active)
    | _ => p
  | .count i =>
    match (p.schedulers i).phase with
    | .counting active => p.goto i (.leaving (decide (0 < active) && decide (active ≤ p.parked)))
    | _ => p
  | .unpark i =>
    match (p.schedulers i).phase with
    | .leaving verdict => { p.goto i (if verdict then .latching else .start) with parked := p.parked - 1 }
    | _ => p
  | .latch i =>
    match (p.schedulers i).phase with
    | .latching => { p.modify i fun s => { s with phase := .ending, owes := true } with deadlocked := true }
    | _ => p
  | .reap i =>
    if (p.schedulers i).phase = .stopped ∧ (p.schedulers i).owes = false ∧ (p.schedulers i).registered then
      { p.modify i fun s => { s with registered := false } with
        active := p.active - 1
        deadlocked := if p.active = 1 then false else p.deadlocked }
    else p

/-- Registered schedulers that are about to start, over any channels. -/
def initial (channels : Nat → Channel M) (schedulers : List (List Wait × List Nat)) : Process M where
  channels
  size := schedulers.length
  active := schedulers.length
  schedulers := fun i =>
    match schedulers[i]? with
    | some (waits, table) => { phase := .start, waits, table, registered := true }
    | none => {}

end Process

end Noeta.Sched
