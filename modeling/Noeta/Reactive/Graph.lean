import Mathlib

/-!
# The reactive graph

`noeta_reactive`: signals, computeds and effects in a node table with recycled slots, dependency edges kept in both
directions, an owner tree, a stack of the nodes whose bodies are running and a queue of effects. The graph never runs a
body itself: it hands the body to a callback, and the callback comes back with further operations. A `Machine` makes
that explicit. Its stack holds the calls that wait for a body, and a step is one operation of whatever runs on top, or
the return of the running body.
-/

namespace Noeta.Reactive

abbrev NodeId := Nat

inductive NodeKind where
  | signal
  | computed
  | effect
deriving DecidableEq, Repr

structure Node (V : Type) where
  kind : NodeKind := .signal
  live : Bool := false
  dirty : Bool := false
  queued : Bool := false
  sources : List NodeId := []
  subscribers : List NodeId := []
  content : Option V := none
  body : Option V := none
  owner : Option NodeId := none
  owned : List NodeId := []

/-- `Inner`. `nodes` is the node table with `size` slots; `free` and `computing` are stacks, their tops first. -/
structure Inner (V : Type) where
  size : Nat := 0
  nodes : NodeId → Node V := fun _ => {}
  free : List NodeId := []
  computing : List NodeId := []
  dirtyComputeds : Nat := 0
  queue : List NodeId := []
  reclaimed : List V := []
  flushing : Bool := false
  observed : Bool := false
  changed : List NodeId := []

/-- `Vec::swap_remove` at the first position of `x`: the last element takes its place. -/
def swapRemove : List NodeId → NodeId → List NodeId
  | [], _ => []
  | y :: ys, x =>
    if y = x then
      match ys.getLast? with
      | none => []
      | some z => z :: ys.dropLast
    else y :: swapRemove ys x

def maxFlushSteps : Nat := 10000

namespace Inner

variable {V : Type}

def modify (g : Inner V) (n : NodeId) (f : Node V → Node V) : Inner V :=
  { g with nodes := Function.update g.nodes n (f (g.nodes n)) }

/-! ### Edges and ownership -/

/-- `record_dependency`: the node whose body is running subscribes to `source`. -/
def recordDependency (g : Inner V) (source : NodeId) : Inner V :=
  match g.computing with
  | [] => g
  | subscriber :: _ =>
    if subscriber = source then g
    else if source ∈ (g.nodes subscriber).sources then g
    else
      let g := g.modify subscriber fun m => { m with sources := m.sources ++ [source] }
      g.modify source fun m => { m with subscribers := m.subscribers ++ [subscriber] }

def adopt (g : Inner V) (n : NodeId) : Inner V :=
  match g.computing with
  | [] => g
  | owner :: _ =>
    let g := g.modify n fun m => { m with owner := some owner }
    g.modify owner fun m => { m with owned := m.owned ++ [n] }

/-- Remove `n` from the subscribers of `src`. -/
def unsubscribe (n : NodeId) (g : Inner V) (src : NodeId) : Inner V :=
  g.modify src fun m => { m with subscribers := swapRemove m.subscribers n }

/-- Remove `n` from the sources of `sub`. -/
def unsource (n : NodeId) (g : Inner V) (sub : NodeId) : Inner V :=
  g.modify sub fun m => { m with sources := swapRemove m.sources n }

/-- Take the sources of `n` and unsubscribe it from each of them. -/
def detachSources (g : Inner V) (n : NodeId) : Inner V :=
  (g.nodes n).sources.foldl (unsubscribe n) (g.modify n fun m => { m with sources := [] })

/-- Take the subscribers of `n` and drop their edges to it. -/
def detachSubscribers (g : Inner V) (n : NodeId) : Inner V :=
  (g.nodes n).subscribers.foldl (unsource n) (g.modify n fun m => { m with subscribers := [] })

/-- One dirty computed less, if `n` is one. -/
def settleDirty (g : Inner V) (n : NodeId) : Inner V :=
  if (g.nodes n).kind = .computed ∧ (g.nodes n).dirty then { g with dirtyComputeds := g.dirtyComputeds - 1 } else g

def unhookAndFree (g : Inner V) (n : NodeId) : Inner V :=
  let g := (g.detachSources n).detachSubscribers n
  let g := g.settleDirty n
  let g := g.modify n fun m =>
    { m with live := false, dirty := false, queued := false, content := none, body := none, owner := none }
  { g with free := n :: g.free }

/-- The cells of `n` move to the reclaimed ones. -/
def reclaimCells (g : Inner V) (n : NodeId) : Inner V :=
  let m := g.nodes n
  let g := g.modify n fun m => { m with content := none, body := none }
  { g with reclaimed := g.reclaimed ++ (m.content.toList ++ m.body.toList) }

/-- `dispose_subtree`. Each level of the recursion empties one `owned` list, so its depth is at most the number of
nodes plus one. -/
def disposeSubtree : Nat → Inner V → NodeId → Inner V
  | 0, g, _ => g
  | depth + 1, g, n =>
    if (g.nodes n).live then
      let owned := (g.nodes n).owned
      let g := g.modify n fun m => { m with owned := [] }
      let g := owned.reverse.foldl (disposeSubtree depth) g
      (g.reclaimCells n).unhookAndFree n
    else g

def disposeOwned (g : Inner V) (n : NodeId) : Inner V :=
  (g.nodes n).owned.reverse.foldl (disposeSubtree (g.size + 1)) (g.modify n fun m => { m with owned := [] })

/-- `begin_compute`, up to the body that it returns. -/
def beginCompute (g : Inner V) (n : NodeId) : Inner V :=
  let g := (g.disposeOwned n).detachSources n
  { g with computing := n :: g.computing }

def endCompute (g : Inner V) (n : NodeId) (result : Option V) : Inner V :=
  let g := { g with computing := g.computing.tail }
  let g := g.settleDirty n
  g.modify n fun m => { m with content := if m.kind = .computed then result else m.content, dirty := false }

/-! ### Propagation -/

/-- What the walk does to one subscriber; `work` is the worklist, its top first. -/
def markSubscriber (s : Inner V × List NodeId) (sub : NodeId) : Inner V × List NodeId :=
  let (g, work) := s
  match (g.nodes sub).kind with
  | .computed =>
    if (g.nodes sub).dirty then (g, work)
    else
      let g := g.modify sub fun m => { m with dirty := true }
      ({ g with
          dirtyComputeds := g.dirtyComputeds + 1
          changed := if g.observed then g.changed ++ [sub] else g.changed }, sub :: work)
  | .effect =>
    if (g.nodes sub).queued then (g, work)
    else
      let g := g.modify sub fun m => { m with queued := true, dirty := true }
      ({ g with queue := g.queue ++ [sub] }, work)
  | .signal => (g, work)

def markLoop : Nat → Inner V → List NodeId → Inner V
  | 0, g, _ => g
  | _ + 1, g, [] => g
  | rounds + 1, g, current :: work =>
    let (g, work) := (g.nodes current).subscribers.foldl markSubscriber (g, work)
    markLoop rounds g work

/-- `mark_dirty_subscribers`. A node enters the worklist when it turns dirty, so at most once. -/
def markDirtySubscribers (g : Inner V) (n : NodeId) : Inner V := markLoop (g.size + 1) g [n]

/-- A change of `n` is recorded for the observers. -/
def recordChange (g : Inner V) (n : NodeId) : Inner V :=
  { g with changed := if g.observed then g.changed ++ [n] else g.changed }

/-! ### Operations that run no body -/

/-- The slot the next node gets. -/
def nextSlot (g : Inner V) : NodeId := g.free.headD g.size

def alloc (g : Inner V) (m : Node V) : Inner V :=
  let g' := g.modify g.nextSlot fun _ => m
  match g.free with
  | [] => { g' with size := g.size + 1 }
  | _ :: free => { g' with free }

def signalRoot (g : Inner V) (initial : V) : Inner V :=
  g.alloc { kind := .signal, live := true, content := some initial }

def signal (g : Inner V) (initial : V) : Inner V := (g.signalRoot initial).adopt g.nextSlot

def computed (g : Inner V) (body memo : V) : Inner V :=
  let g' := { g with dirtyComputeds := g.dirtyComputeds + 1 }
  (g'.alloc { kind := .computed, live := true, dirty := true, body := some body, content := some memo }).adopt
    g.nextSlot

def effect (g : Inner V) (body : V) : Inner V :=
  let id := g.nextSlot
  let g := g.alloc { kind := .effect, live := true, dirty := true, queued := true, body := some body }
  let g := g.adopt id
  { g with queue := g.queue ++ [id] }

def set (g : Inner V) (n : NodeId) (value : V) : Inner V :=
  ((g.modify n fun m => { m with content := some value }).recordChange n).markDirtySubscribers n

def touch (g : Inner V) (n : NodeId) : Inner V := (g.recordChange n).markDirtySubscribers n

/-- Take `n` out of its owner's list of children, if it has an owner and that is live. -/
def disown (g : Inner V) (n : NodeId) : Inner V :=
  match (g.nodes n).owner with
  | none => g
  | some owner =>
    if (g.nodes owner).live then g.modify owner fun m => { m with owned := swapRemove m.owned n } else g

def dispose (g : Inner V) (n : NodeId) : Inner V :=
  if (g.nodes n).live then ((g.disown n).disposeOwned n).unhookAndFree n else g

def clear (g : Inner V) : Inner V := { flushing := g.flushing, observed := g.observed }

def setObserved (g : Inner V) (on : Bool) : Inner V :=
  { g with observed := on, changed := if on then g.changed else [] }

/-! ### The flush loop between two bodies -/

/-- The first effect of a round that is still one, with the rest of the round. -/
def firstEffect (g : Inner V) : List NodeId → Option (NodeId × List NodeId)
  | [] => none
  | e :: round => if (g.nodes e).live ∧ (g.nodes e).kind = .effect then some (e, round) else g.firstEffect round

/-- Take the queue as the next round. -/
def takeRound (g : Inner V) : Inner V × List NodeId := ({ g with queue := [] }, g.queue.insertionSort (· ≤ ·))

/-- The effect that the flush runs next, from the rest of its round or else from the queue. -/
def nextEffect (g : Inner V) (round : List NodeId) : Inner V × Option (NodeId × List NodeId) :=
  match g.firstEffect round with
  | some next => (g, some next)
  | none =>
    let (g, round) := g.takeRound
    (g, g.firstEffect round)

/-- Start the run of an effect. -/
def beginEffect (g : Inner V) (e : NodeId) : Inner V := (g.modify e fun m => { m with queued := false }).beginCompute e

end Inner

/-! ### The machine -/

/-- A call that waits for a body: a read of a dirty computed, or a flush that runs `effect`, has `round` still to process
and has run `steps` effects. -/
inductive Frame where
  | read (node : NodeId)
  | flush (effect : NodeId) (round : List NodeId) (steps : Nat)

def Frame.node : Frame → NodeId
  | .read node => node
  | .flush effect _ _ => effect

/-- The part of a flush round that is not processed yet. -/
def Frame.round : Frame → List NodeId
  | .read _ => []
  | .flush _ round _ => round

structure Machine (V : Type) where
  graph : Inner V := {}
  stack : List Frame := []

/-- The public operations, and the return of the running body. -/
inductive Op (V : Type) where
  | signal (initial : V)
  | signalRoot (initial : V)
  | computed (body memo : V)
  | effect (body : V)
  | read (node : NodeId)
  | peek (node : NodeId)
  | set (node : NodeId) (value : V)
  | touch (node : NodeId)
  | flush
  | dispose (node : NodeId)
  | clear
  | setObserved (on : Bool)
  | drainReclaimed
  | drainChanged
  | done (result : V)

namespace Machine

variable {V : Type}

/-- The flush loop goes on until it has to run a body or returns. -/
def flushLoop (g : Inner V) (round : List NodeId) (steps : Nat) (stack : List Frame) : Machine V :=
  match g.nextEffect round with
  | (g, some (e, round)) => ⟨g.beginEffect e, .flush e round steps :: stack⟩
  | (g, none) => ⟨{ g with flushing := false }, stack⟩

/-- A read after its dependency is recorded: it returns at once or waits for the body of `n`. -/
def readNode (g : Inner V) (n : NodeId) (stack : List Frame) : Machine V :=
  if (g.nodes n).kind = .computed ∧ (g.nodes n).dirty then ⟨g.beginCompute n, .read n :: stack⟩ else ⟨g, stack⟩

def step (m : Machine V) : Op V → Machine V
  | .signal initial => { m with graph := m.graph.signal initial }
  | .signalRoot initial => { m with graph := m.graph.signalRoot initial }
  | .computed body memo => { m with graph := m.graph.computed body memo }
  | .effect body => { m with graph := m.graph.effect body }
  | .read n => readNode (m.graph.recordDependency n) n m.stack
  | .peek n =>
    if (m.graph.nodes n).kind = .computed ∧ (m.graph.nodes n).dirty then
      readNode (m.graph.recordDependency n) n m.stack
    else m
  | .set n value => { m with graph := m.graph.set n value }
  | .touch n => { m with graph := m.graph.touch n }
  | .flush => flushLoop { m.graph with flushing := true } [] 0 m.stack
  | .dispose n => { m with graph := m.graph.dispose n }
  | .clear => { m with graph := m.graph.clear }
  | .setObserved on => { m with graph := m.graph.setObserved on }
  | .drainReclaimed => { m with graph := { m.graph with reclaimed := [] } }
  | .drainChanged => { m with graph := { m.graph with changed := [] } }
  | .done result =>
    match m.stack with
    | [] => m
    | .read n :: stack => ⟨m.graph.endCompute n (some result), stack⟩
    | .flush e round steps :: stack =>
      let g := m.graph.endCompute e none
      if maxFlushSteps < steps + 1 then ⟨{ g with flushing := false }, stack⟩
      else flushLoop g round (steps + 1) stack

/-- What the caller of an operation gets: the value of a read, at once or when the body returns. -/
def output (m : Machine V) : Op V → Option V
  | .read n | .peek n =>
    if (m.graph.nodes n).kind = .computed ∧ (m.graph.nodes n).dirty then none else (m.graph.nodes n).content
  | .done result =>
    match m.stack with
    | .read _ :: _ => some result
    | _ => none
  | _ => none

/-- Operations are on live nodes of the right kind, a body returns only if one runs, a flush is not nested in another
(`is_flushing`) and the graph is cleared only when no call is in progress. -/
def Enabled (m : Machine V) : Op V → Prop
  | .read n | .peek n => (m.graph.nodes n).live ∧ (m.graph.nodes n).kind ≠ .effect
  | .set n _ => (m.graph.nodes n).live ∧ (m.graph.nodes n).kind = .signal
  | .touch n => (m.graph.nodes n).live
  | .dispose n => (m.graph.nodes n).live
  | .flush => ¬ m.graph.flushing
  | .clear => m.stack = []
  | .done _ => m.stack ≠ []
  | _ => True

end Machine

end Noeta.Reactive
