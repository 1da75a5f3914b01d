import Noeta.Sched.Channel
import Noeta.Heap.Drops

/-!
# The references of a send

A poll of a channel-send future takes a reference to the message before it looks at the channel. Every exit has to hand
it on to a buffer or give it back; two of those of a shared channel do neither.
-/

namespace Noeta.Sched

variable {W C : Type}

/-- `Channel` of the VM: a `Local` one queues values, a `Shared` one the wire form of them, each with the trace context
of its sender. -/
inductive VmChannel (W C : Type) where
  | local (channel : Channel (Value × Option C))
  | shared (core : Channel (W × Option C))

/-- What a send poll reads and writes of the VM. -/
structure SendVm (W C : Type) where
  heap : Heap
  channels : List (VmChannel W C)
  channelProgress : Nat := 0

inductive Polled where
  | pending
  | ready
  | panic (message : String)
deriving DecidableEq, Repr

/-- The phase that a send future carries. -/
def sendPhase : Nat → SendPhase
  | 0 => .fresh
  | _ => .deposited

namespace SendVm

/-- `release` of the message. -/
def release (vm : SendVm W C) (msg : Value) : SendVm W C := { vm with heap := vm.heap.dropValue msg }

def progress (vm : SendVm W C) : SendVm W C := { vm with channelProgress := vm.channelProgress + 1 }

def setChannel (vm : SendVm W C) (id : Nat) (channel : VmChannel W C) : SendVm W C :=
  { vm with channels := vm.channels.set id channel }

/-- After a push: a deposit parks in its new phase, a buffered send is done. -/
def pushed (vm : SendVm W C) (f : Addr) (id : Nat) (msg : Value) (action : SendAction) : SendVm W C × Polled :=
  if action = .deposit then ({ vm with heap := vm.heap.setPayload f (.channelSend id msg 1) }, .pending)
  else (vm, .ready)

variable (marshal : Heap → Value → Except String W)

/-- The poll on a `Local` channel, with the reference taken. -/
def pollLocal (vm : SendVm W C) (context : Option C) (f : Addr) (id : Nat) (msg : Value)
    (channel : Channel (Value × Option C)) (phase : SendPhase) : SendVm W C × Polled :=
  match channel.sendAction phase with
  | .closed => (vm.release msg, .panic "cannot send on a closed channel")
  | .complete => ((vm.release msg).progress, .ready)
  | .park => (vm.release msg, .pending)
  | action =>
    (((vm.setChannel id (.local { channel with buffer := channel.buffer ++ [(msg, context)] })).progress).pushed f id
      msg action)

/-- Marshal the message and push it if the channel still accepts it. Since the decision the other threads did `race`. -/
def ship (vm : SendVm W C) (context : Option C) (race : Channel (W × Option C) → Channel (W × Option C)) (f : Addr)
    (id : Nat) (msg : Value) (core : Channel (W × Option C)) (action : SendAction) : SendVm W C × Polled :=
  match marshal vm.heap msg with
  | .error e => (vm.release msg, .panic ("channel message is not shippable: " ++ e))
  | .ok wire =>
    let core := race core
    if core.accepts then
      ((((vm.setChannel id (.shared { core with buffer := core.buffer ++ [(wire, context)] })).release msg).progress).pushed
        f id msg action)
    else (vm.setChannel id (.shared core), .pending)

/-- The poll on a `Shared` channel, with the reference taken. -/
def pollShared (vm : SendVm W C) (context : Option C) (race : Channel (W × Option C) → Channel (W × Option C))
    (f : Addr) (id : Nat) (msg : Value) (core : Channel (W × Option C)) (phase : SendPhase) : SendVm W C × Polled :=
  match core.sendAction phase with
  | .closed => (vm.release msg, .panic "cannot send on a closed channel")
  | .complete => ((vm.release msg).progress, .ready)
  | .park => (vm, .pending)
  | action => vm.ship marshal context race f id msg core action

/-- The channel-send arm of `poll_once_inner`. -/
def pollSendFuture (vm : SendVm W C) (context : Option C) (race : Channel (W × Option C) → Channel (W × Option C))
    (f : Addr) : Option (SendVm W C × Polled) :=
  match vm.heap.payload? f with
  | some (.channelSend id msg phase) =>
    let vm : SendVm W C := { vm with heap := vm.heap.incRefValue msg }
    match vm.channels[id]? with
    | some (.local channel) => some (vm.pollLocal context f id msg channel (sendPhase phase))
    | some (.shared core) => some (vm.pollShared marshal context race f id msg core (sendPhase phase))
    | none => none
  | _ => none

/-- How often a value is in the buffer of a `Local` channel. -/
def localCount (vm : SendVm W C) (id : Nat) (msg : Value) : Nat :=
  match vm.channels[id]? with
  | some (.local channel) => (channel.buffer.map Prod.fst).count msg
  | _ => 0

/-- The exits that keep the reference: the send parks on a shared channel, or it loses the race for the slot. -/
def Leaks (vm : SendVm W C) (race : Channel (W × Option C) → Channel (W × Option C)) (id : Nat) (msg : Value)
    (phase : Nat) : Prop :=
  ∃ core, vm.channels[id]? = some (.shared core) ∧
    (core.sendAction (sendPhase phase) = .park ∨
      (core.sendAction (sendPhase phase) = .deposit ∨ core.sendAction (sendPhase phase) = .deliverBuffered) ∧
      (∃ wire, marshal (vm.heap.incRefValue msg) msg = .ok wire) ∧ (race core).accepts = false)

/-- The references to the message are the ones from before, and one more for each time it entered the buffer. -/
def Conserves (vm vm' : SendVm W C) (id : Nat) (a : Addr) : Prop :=
  vm'.heap.refcount a + vm.localCount id (.ptr a) = vm.heap.refcount a + vm'.localCount id (.ptr a)

end SendVm

/-! ### Counting -/

theorem refcount_setPayload (h : Heap) (f a : Addr) (p : Payload) : (h.setPayload f p).refcount a = h.refcount a :=
  h.elim_setPayload f a p 0 ObjHeader.refcount

theorem refcount_retain {h : Heap} {a : Addr} (ha : h.Allocated a) (hs : h.isShared a = false) :
    (h.incRefValue (.ptr a)).refcount a = h.refcount a + 1 := by
  show (h.incRef a).refcount a = _
  unfold Heap.incRef
  rw [hs, if_neg Bool.false_ne_true, Heap.refcount_rcInc, if_pos ⟨rfl, ha⟩]

theorem refcount_release {h : Heap} {a : Addr} (ha : h.Allocated a) (hs : h.isShared a = false)
    (hpos : 2 ≤ h.refcount a) : (h.dropValue (.ptr a)).refcount a + 1 = h.refcount a := by
  have hdec : (h.rcDec a).refcount a = h.refcount a - 1 := by rw [Heap.refcount_rcDec, if_pos rfl]
  have hlast : ((h.rcDec a).refcount a == 0) = false := by
    rw [hdec, beq_eq_false_iff_ne]
    omega
  show (Heap.release h.depth h a).refcount a + 1 = h.refcount a
  unfold Heap.depth
  rw [Heap.release, if_neg (not_not.mpr ha), hs, if_neg Bool.false_ne_true]
  unfold Heap.decRef
  rw [hs, if_neg Bool.false_ne_true]
  simp only [hlast]
  cases (h.rcDec a).mode with
  | trace =>
    simp only [Bool.false_eq_true, if_false]
    omega
  | trialDeletion =>
    simp only [Bool.false_eq_true, if_false]
    split_ifs
    · rw [Heap.HeaderOnly.refcount_possibleRoot, hdec]
      omega
    · omega

namespace SendVm

variable (marshal : Heap → Value → Except String W)

@[simp] theorem progress_heap (vm : SendVm W C) : vm.progress.heap = vm.heap := rfl
@[simp] theorem progress_channels (vm : SendVm W C) : vm.progress.channels = vm.channels := rfl
@[simp] theorem setChannel_heap (vm : SendVm W C) (id : Nat) (c : VmChannel W C) : (vm.setChannel id c).heap = vm.heap := rfl
@[simp] theorem release_channels (vm : SendVm W C) (msg : Value) : (vm.release msg).channels = vm.channels := rfl

theorem pushed_channels (vm : SendVm W C) (f : Addr) (id : Nat) (msg : Value) (action : SendAction) :
    (vm.pushed f id msg action).1.channels = vm.channels := by
  unfold pushed
  split_ifs <;> rfl

theorem pushed_refcount (vm : SendVm W C) (f : Addr) (id : Nat) (msg : Value) (action : SendAction) (a : Addr) :
    (vm.pushed f id msg action).1.heap.refcount a = vm.heap.refcount a := by
  unfold pushed
  split_ifs
  · exact refcount_setPayload vm.heap f a _
  · rfl

theorem localCount_congr {vm vm' : SendVm W C} (h : vm'.channels = vm.channels) (id : Nat) (msg : Value) :
    vm'.localCount id msg = vm.localCount id msg := by
  unfold localCount
  rw [h]

variable {vm : SendVm W C} {id : Nat} {context : Option C}

theorem release_retained {a : Addr} (ha : vm.heap.Allocated a) (hs : vm.heap.isShared a = false)
    (hpos : 1 ≤ vm.heap.refcount a) :
    ((vm.heap.incRefValue (.ptr a)).dropValue (.ptr a)).refcount a = vm.heap.refcount a := by
  have hinc := refcount_retain ha hs
  have hal : (vm.heap.incRefValue (.ptr a)).Allocated a := by
    show (vm.heap.incRef a).Allocated a
    unfold Heap.incRef
    split_ifs
    · exact ha
    · exact (Heap.allocated_modifyHeader _ _ _ _).mpr ha
  have hns : (vm.heap.incRefValue (.ptr a)).isShared a = false := by
    show (vm.heap.incRef a).isShared a = false
    unfold Heap.incRef
    rw [hs, if_neg Bool.false_ne_true, Heap.isShared_rcInc]
    exact hs
  have hrel := refcount_release hal hns (by omega)
  omega

theorem localCount_set {v : SendVm W C} {c c' : VmChannel W C} (hc : v.channels[id]? = some c) (msg : Value) :
    (v.setChannel id c').localCount id msg =
      match c' with
      | .local channel => (channel.buffer.map Prod.fst).count msg
      | .shared _ => 0 := by
  have hlt : id < v.channels.length := (List.getElem?_eq_some_iff.mp hc).1
  unfold localCount setChannel
  rw [List.getElem?_set_self hlt]
  cases c' <;> rfl

/-- Every exit of a poll on a `Local` channel hands the reference on or gives it back. -/
theorem pollLocal_conserves {f a : Addr}
    {channel : Channel (Value × Option C)} {phase : SendPhase} (hc : vm.channels[id]? = some (.local channel))
    (ha : vm.heap.Allocated a) (hs : vm.heap.isShared a = false) (hpos : 1 ≤ vm.heap.refcount a) :
    vm.Conserves (({ vm with heap := vm.heap.incRefValue (.ptr a) } : SendVm W C).pollLocal context f id (.ptr a) channel
      phase).1 id a := by
  have hinc := refcount_retain ha hs
  have hrel := release_retained ha hs hpos
  have hcount : vm.localCount id (.ptr a) = (channel.buffer.map Prod.fst).count (.ptr a) := by
    unfold localCount
    rw [hc]
  have push : ∀ action, vm.Conserves ((((({ vm with heap := vm.heap.incRefValue (.ptr a) } : SendVm W C).setChannel id
      (.local { channel with buffer := channel.buffer ++ [(.ptr a, context)] })).progress).pushed f id (.ptr a)
        action).1) id a := by
    intro action
    unfold Conserves
    rw [pushed_refcount, localCount_congr (pushed_channels _ _ _ _ _), localCount_congr (progress_channels _),
      localCount_set (v := { vm with heap := vm.heap.incRefValue (.ptr a) }) hc, hcount]
    simp only [progress_heap, setChannel_heap, List.map_append, List.count_append, List.map_cons, List.map_nil,
      List.count_singleton, beq_self_eq_true, if_true]
    omega
  have back : ∀ vm' : SendVm W C, vm'.heap = (vm.heap.incRefValue (.ptr a)).dropValue (.ptr a) →
      vm'.channels = vm.channels → vm.Conserves vm' id a := by
    intro vm' hheap hch
    unfold Conserves
    rw [hheap, hrel, localCount_congr hch]
  unfold pollLocal
  cases channel.sendAction phase with
  | closed => exact back _ rfl rfl
  | deliverBuffered => exact push .deliverBuffered
  | deposit => exact push .deposit
  | complete => exact back _ rfl rfl
  | park => exact back _ rfl rfl

theorem conserves_back {vm vm' : SendVm W C} {a : Addr}
    (hheap : vm'.heap.refcount a = vm.heap.refcount a) (hcount : vm'.localCount id (.ptr a) = vm.localCount id (.ptr a)) :
    vm.Conserves vm' id a := by
  unfold Conserves
  rw [hheap, hcount]

/-- A message that is shipped leaves its reference only if it loses the race. -/
theorem ship_conserves {race : Channel (W × Option C) → Channel (W × Option C)}
    {f a : Addr} {core : Channel (W × Option C)} {action : SendAction}
    (hc : vm.channels[id]? = some (.shared core)) (ha : vm.heap.Allocated a) (hs : vm.heap.isShared a = false)
    (hpos : 1 ≤ vm.heap.refcount a) :
    vm.Conserves (({ vm with heap := vm.heap.incRefValue (.ptr a) } : SendVm W C).ship marshal context race f id (.ptr a)
        core action).1 id a ↔
      ¬ ((∃ wire, marshal (vm.heap.incRefValue (.ptr a)) (.ptr a) = .ok wire) ∧ (race core).accepts = false) := by
  have hinc := refcount_retain ha hs
  have hrel := release_retained ha hs hpos
  have hzero : vm.localCount id (.ptr a) = 0 := by
    unfold localCount
    rw [hc]
  have hset : ∀ (heap : Heap) (core' : Channel (W × Option C)),
      (({ vm with heap } : SendVm W C).setChannel id (.shared core')).localCount id (.ptr a) = 0 :=
    fun heap core' => localCount_set (v := { vm with heap }) hc _
  unfold ship
  cases hm : marshal (vm.heap.incRefValue (.ptr a)) (.ptr a) with
  | error e =>
    simp only [reduceCtorEq, exists_false, false_and, not_false_eq_true, iff_true]
    exact conserves_back hrel rfl
  | ok wire =>
    simp only [Except.ok.injEq, exists_eq', true_and]
    cases hacc : (race core).accepts with
    | true =>
      simp only [Bool.true_eq_false, not_false_eq_true, iff_true, if_true]
      refine conserves_back ?_ ?_
      · rw [pushed_refcount, progress_heap]
        exact hrel
      · rw [localCount_congr (pushed_channels _ _ _ _ _), localCount_congr (progress_channels _),
          localCount_congr (release_channels _ _), hset, hzero]
    | false =>
      simp only [not_true_eq_false, iff_false, Bool.false_eq_true, if_false]
      intro hcons
      unfold Conserves at hcons
      rw [hset, hzero, setChannel_heap, hinc] at hcons
      omega

/-- On a `Shared` channel the reference is given back, except where the send parks and where it loses the race. -/
theorem pollShared_conserves
    {race : Channel (W × Option C) → Channel (W × Option C)} {f a : Addr} {core : Channel (W × Option C)}
    {phase : Nat} (hc : vm.channels[id]? = some (.shared core)) (ha : vm.heap.Allocated a)
    (hs : vm.heap.isShared a = false) (hpos : 1 ≤ vm.heap.refcount a) :
    vm.Conserves (({ vm with heap := vm.heap.incRefValue (.ptr a) } : SendVm W C).pollShared marshal context race f id
      (.ptr a) core (sendPhase phase)).1 id a ↔ ¬ vm.Leaks marshal race id (.ptr a) phase := by
  have hinc := refcount_retain ha hs
  have hrel := release_retained ha hs hpos
  have leaks : vm.Leaks marshal race id (.ptr a) phase ↔ core.sendAction (sendPhase phase) = .park ∨
      (core.sendAction (sendPhase phase) = .deposit ∨ core.sendAction (sendPhase phase) = .deliverBuffered) ∧
      (∃ wire, marshal (vm.heap.incRefValue (.ptr a)) (.ptr a) = .ok wire) ∧ (race core).accepts = false := by
    unfold Leaks
    constructor
    · rintro ⟨core', hc', h⟩
      rw [hc, Option.some.injEq, VmChannel.shared.injEq] at hc'
      rwa [hc']
    · exact fun h => ⟨core, hc, h⟩
  rw [leaks]
  unfold pollShared
  cases hact : core.sendAction (sendPhase phase) with
  | closed =>
    simp only [reduceCtorEq, false_and, not_false_eq_true, iff_true, or_self]
    exact conserves_back hrel rfl
  | complete =>
    simp only [reduceCtorEq, false_and, not_false_eq_true, iff_true, or_self]
    exact conserves_back hrel rfl
  | park =>
    -- the reference that was taken is still there
    simp only [true_or, not_true_eq_false, iff_false]
    intro hcons
    have hcons' : (vm.heap.incRefValue (.ptr a)).refcount a + vm.localCount id (.ptr a) =
        vm.heap.refcount a + vm.localCount id (.ptr a) := hcons
    omega
  | deposit =>
    simp only [reduceCtorEq, false_or, or_false, true_and]
    exact ship_conserves marshal hc ha hs hpos
  | deliverBuffered =>
    simp only [reduceCtorEq, false_or, or_true, true_and]
    exact ship_conserves marshal hc ha hs hpos

/-- **A poll of a send keeps the count of its message**, with one more reference exactly if the message entered a local
buffer, unless it parks on a shared channel or loses the race for the slot of one. -/
theorem send_conserves_iff (vm vm' : SendVm W C) (context : Option C)
    (race : Channel (W × Option C) → Channel (W × Option C)) (f a : Addr) (id phase : Nat) (result : Polled)
    (hf : vm.heap.payload? f = some (.channelSend id (.ptr a) phase)) (ha : vm.heap.Allocated a)
    (hs : vm.heap.isShared a = false) (hpos : 1 ≤ vm.heap.refcount a)
    (hpoll : vm.pollSendFuture marshal context race f = some (vm', result)) :
    vm.Conserves vm' id a ↔ ¬ vm.Leaks marshal race id (.ptr a) phase := by
  unfold pollSendFuture at hpoll
  rw [hf] at hpoll
  simp only at hpoll
  cases hc : vm.channels[id]? with
  | none =>
    rw [hc] at hpoll
    exact absurd hpoll (by simp)
  | some c =>
    rw [hc] at hpoll
    cases c with
    | «local» channel =>
      simp only [Option.some.injEq] at hpoll
      have hcons : vm.Conserves (({ vm with heap := vm.heap.incRefValue (.ptr a) } : SendVm W C).pollLocal context f id
          (.ptr a) channel (sendPhase phase)).1 id a := pollLocal_conserves hc ha hs hpos
      rw [hpoll] at hcons
      refine ⟨fun _ hleak => ?_, fun _ => hcons⟩
      obtain ⟨core, hcore, _⟩ := hleak
      rw [hc] at hcore
      exact absurd hcore (by simp)
    | shared core =>
      simp only [Option.some.injEq] at hpoll
      have hiff : vm.Conserves (({ vm with heap := vm.heap.incRefValue (.ptr a) } : SendVm W C).pollShared marshal context
          race f id (.ptr a) core (sendPhase phase)).1 id a ↔ _ := pollShared_conserves marshal hc ha hs hpos
      rwa [hpoll] at hiff

/-- A message in slot 0 and a fresh send of it in slot 1. -/
def sendingHeap : Heap where
  objs := [some ⟨⟨1, 0, .black, false, false, false⟩, .str "m"⟩,
    some ⟨⟨1, 1, .black, false, false, true⟩, .channelSend 0 (.ptr 0) 0⟩]
  candidates := []
  registry := [1]
  mode := .trace
  nextSeq := 2
  anomalies := 0
  log := []

def localVm : SendVm Unit Unit := ⟨sendingHeap, [.local ⟨.local, 1, [], false⟩], 0⟩

/-- A shared channel that is full. -/
def fullVm : SendVm Unit Unit := ⟨sendingHeap, [.shared ⟨.shared, 1, [((), none)], false⟩], 0⟩

theorem localVm_conserves : ∃ vm' result,
    localVm.pollSendFuture (fun _ _ => .ok ()) none (fun core => core) 1 = some (vm', result) ∧
    localVm.Conserves vm' 0 0 := by
  refine ⟨_, .ready, rfl, (send_conserves_iff (fun _ _ => .ok ()) localVm _ none (fun core => core) 1 0 0 0 .ready rfl
    (by decide) (by decide) (by decide) rfl).mpr ?_⟩
  rintro ⟨core, hcore, _⟩
  exact absurd hcore (by simp [localVm])

/-- The send parks, and the message has two references where it had one. -/
theorem parked_send_leaks : ∃ (vm vm' : SendVm Unit Unit),
    vm.pollSendFuture (fun _ _ => .ok ()) none (fun core => core) 1 = some (vm', .pending) ∧
    vm.heap.payload? 1 = some (.channelSend 0 (.ptr 0) 0) ∧ vm.heap.refcount 0 = 1 ∧ vm.heap.isShared 0 = false ∧
    ¬ vm.Conserves vm' 0 0 := by
  refine ⟨fullVm, _, rfl, rfl, rfl, rfl, ?_⟩
  unfold Conserves
  decide

end SendVm

end Noeta.Sched
