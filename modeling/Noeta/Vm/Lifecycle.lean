import Noeta.Heap.Release

/-!
# The VM's side of destruction: destructor-aware release, reclaim and teardown

`noeta-vm/src/lifecycle.rs`. The VM releases a value through `release_value` wherever its last reference
may be the last one to something with a destructor, reclaims what a collector identified through
`reclaim_cycle_garbage`, and empties itself at exit in `teardown`.

A destructor body is user code. Here it keeps its references to itself: running it pins the instance,
records the run in the log and unpins the instance.
-/

namespace Noeta

/-- The two destructor tables of a compiled program, both keyed by type name: the types with a `destruct`
block, and the types whose fields can hold a value of such a type. -/
structure Tables where
  destructors : List String
  destructReachable : List String
deriving DecidableEq, Repr

namespace Tables

/-- The type of the object at `a` has a destructor of its own. -/
def ownDestructor (t : Tables) (h : Heap) (a : Addr) : Bool :=
  match h.shape? a with
  | some shape => t.destructors.contains shape.name
  | none => false

/-- The gate of the field walk. -/
def subtreeOwnsDestructor (t : Tables) (h : Heap) (a : Addr) : Bool :=
  match h.payload? a with
  | none => false
  | some p =>
    match p.shape? with
    | some shape => t.destructReachable.contains shape.name
    | none =>
      p.isList || p.isMap || p.isSet ||
        (!t.destructReachable.isEmpty && (p.isClosure || p.isCell || p.isFuture || p.isIter))

end Tables

namespace Heap

/-- `run_destructor`, for a body that leaves all references alone. -/
def runDestructor (h : Heap) (a : Addr) : Heap := release h.depth ((h.incRef a).record (.destruct a)) a

/-- The children in destruction order: a closure gives up its captures last to first. -/
def destructionOrder (h : Heap) (a : Addr) : List Addr :=
  if (h.payload? a).any Payload.isClosure then (h.children a).reverse else h.children a

/-- `Vm::release_value` of a pointer. -/
def releaseValue (t : Tables) : Nat → Heap → Addr → Heap
  | 0, h, _ => h
  | fuel + 1, h, a =>
    if ¬ h.Allocated a then h.record (.fault a)
    else if 1 < h.refcount a then release h.depth h a
    else
      let own := t.ownDestructor h a
      if !own && !t.subtreeOwnsDestructor h a then release h.depth h a
      else
        let h := if own then h.runDestructor a else h
        ((h.destructionOrder a).foldl (releaseValue t fuel) h).freeShallow a

def reclaimCycleGarbage (t : Tables) (h : Heap) (g : Garbage) : Heap :=
  let saved := h.mode
  let h := { h with mode := .trace }
  let h := g.members.foldl incRef h
  let h := (h.sortNewestFirst g.fresh).foldl
    (fun h a => if t.ownDestructor h a then h.runDestructor a else h) h
  let h :=
    if g.releaseExternal then
      g.fresh.foldl (fun h a => (h.children a).foldl
        (fun h c => if c ∈ g.members then h else releaseValue t h.depth h c) h) h
    else h
  let h := g.members.foldl freeShallow h
  { h with mode := saved }

/-- `Vm::release_value` of any value: an immediate has nothing to release. -/
def releaseAny (t : Tables) (h : Heap) : Value → Heap
  | .ptr a => releaseValue t h.depth h a
  | _ => h

/-- A backup collection from `roots` and its reclaim. -/
def sweep (t : Tables) (h : Heap) (roots : List Value) : Heap :=
  let (h, garbage) := h.collectTrace roots
  reclaimCycleGarbage t h garbage

end Heap

/-! ### Teardown -/

/-- A channel: a queue of values of this thread, or the shared core of an isolate channel, whose queue
holds copies. -/
inductive Channel where
  | ofLocal (buffer : List Value)
  | ofShared
deriving DecidableEq, Repr

/-- The heap values a channel owns. -/
def Channel.messages : Channel → List Value
  | ofLocal buffer => buffer
  | ofShared => []

/-- The VM state at program exit: the frame stack is unwound, and what is left holds the program's values.
A global slot that was never bound is `unbound`; `globalOrder` lists the slots in the order they were bound. -/
structure Vm where
  heap : Heap
  globals : List Value
  globalOrder : List Nat
  channels : List Channel
  extArena : List (Option Value)
  embedHandles : List (Option Value)
  tracedFutures : List Value
deriving DecidableEq, Repr

namespace Vm

/-- The roots of the sweep before teardown. -/
def sweepRoots (vm : Vm) : List Value :=
  vm.globals.filter (!·.isUnbound) ++ vm.extArena.reduceOption ++ vm.embedHandles.reduceOption ++ vm.tracedFutures

/-- Empty one global slot and release what it held. -/
def releaseGlobal (t : Tables) (s : List Value × Heap) (slot : Nat) : List Value × Heap :=
  let v := s.1.getD slot .unbound
  (s.1.set slot .unbound, if v.isUnbound then s.2 else s.2.releaseAny t v)

/-- `Vm::teardown`. `lastHeapOwner` says that no other session shares the heap of this thread. -/
def teardown (t : Tables) (lastHeapOwner : Bool) (vm : Vm) : Vm :=
  let mode := vm.heap.mode
  let h := if lastHeapOwner && mode == .trace then vm.heap.sweep t vm.sweepRoots else vm.heap
  let h := vm.channels.foldl (fun h chan => chan.messages.foldl (Heap.releaseAny t) h) h
  let h := vm.extArena.reduceOption.foldl (Heap.releaseAny t) h
  let h := vm.embedHandles.reduceOption.foldl (Heap.releaseAny t) h
  let h := vm.tracedFutures.foldl (Heap.releaseAny t) h
  let (globals, h) := vm.globalOrder.reverse.foldl (releaseGlobal t) (vm.globals, h)
  let h := if lastHeapOwner && mode == .trace then h.sweep t [] else h
  let h :=
    if lastHeapOwner && mode == .trialDeletion then
      let (h, garbage) := h.collectTrialDeletion
      h.reclaimCycleGarbage t garbage
    else h
  { vm with
    heap := h, globals := globals, channels := [], extArena := [], embedHandles := [], tracedFutures := [] }

end Vm

end Noeta
