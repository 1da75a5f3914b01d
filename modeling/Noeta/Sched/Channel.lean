import Mathlib

/-!
# Channels

`noeta_ext_abi::channel` decides what a poll of a send or of a receive does, from the channel's capacity, length and
closed flag and from the phase that a send future carries. `poll_once_inner` carries the decision out: at once on a
`Local` channel, and on a `Shared` one in two critical sections, so that other threads may come between the decision and
the push. A `Traffic` is a channel with its send futures and the history of what was pushed and received.
-/

namespace Noeta.Sched

inductive SendPhase where
  | fresh
  | deposited
deriving DecidableEq, Repr

inductive SendAction where
  | closed
  | deliverBuffered
  | deposit
  | complete
  | park
deriving DecidableEq, Repr

def pollSend (capacity bufferLen : Nat) (closed : Bool) (phase : SendPhase) : SendAction :=
  if capacity = 0 then
    match phase with
    | .fresh => if closed then .closed else if bufferLen = 0 then .deposit else .park
    | .deposited => if bufferLen = 0 then .complete else .park
  else if closed then .closed
  else if bufferLen < capacity then .deliverBuffered
  else .park

inductive RecvAction where
  | deliver
  | closedEmpty
  | park
deriving DecidableEq, Repr

def pollRecv (bufferLen : Nat) (closed : Bool) : RecvAction :=
  if 0 < bufferLen then .deliver else if closed then .closedEmpty else .park

/-- Whether the channel is one thread's own or shared between threads. -/
inductive Backing where
  | local
  | shared
deriving DecidableEq, Repr

structure Channel (M : Type) where
  backing : Backing
  capacity : Nat
  buffer : List M := []
  closed : Bool := false

namespace Channel

variable {M : Type}

def sendAction (c : Channel M) (phase : SendPhase) : SendAction :=
  pollSend c.capacity c.buffer.length c.closed phase

/-- The test of `try_push`, made under the lock. -/
def accepts (c : Channel M) : Bool :=
  !c.closed && (if c.capacity = 0 then c.buffer.isEmpty else decide (c.buffer.length < c.capacity))

/-- What a receive poll hands out, `some` for a message and `none` for a drained closed channel; a poll that parks hands
out nothing. -/
inductive Received (M : Type) where
  | got (message : M)
  | closedEmpty
  | empty
deriving DecidableEq

/-- A receive poll on a `Local` channel. -/
def recvLocal (c : Channel M) : Channel M × Received M :=
  match pollRecv c.buffer.length c.closed with
  | .deliver =>
    match c.buffer with
    | [] => (c, .empty)
    | message :: buffer => ({ c with buffer }, .got message)
  | .closedEmpty => (c, .closedEmpty)
  | .park => (c, .empty)

def tryRecv (c : Channel M) : Channel M × Received M :=
  match c.buffer with
  | message :: buffer => ({ c with buffer }, .got message)
  | [] => (c, if c.closed then .closedEmpty else .empty)

def recv (c : Channel M) : Channel M × Received M :=
  match c.backing with
  | .local => c.recvLocal
  | .shared => c.tryRecv

theorem recvLocal_eq_tryRecv (c : Channel M) : c.recvLocal = c.tryRecv := by
  unfold recvLocal tryRecv pollRecv
  cases c.buffer with
  | nil => cases c.closed <;> rfl
  | cons message buffer => simp

theorem recv_eq_tryRecv (c : Channel M) : c.recv = c.tryRecv := by
  unfold recv
  cases c.backing with
  | «local» => exact c.recvLocal_eq_tryRecv
  | shared => rfl

theorem sendAction_complete {c : Channel M} {phase : SendPhase} (h : c.sendAction phase = .complete) :
    c.capacity = 0 ∧ phase = .deposited ∧ c.buffer = [] := by
  unfold sendAction pollSend at h
  cases phase with
  | fresh =>
    simp only at h
    split_ifs at h
  | deposited =>
    simp only at h
    split_ifs at h with hcap hlen
    exact ⟨hcap, rfl, List.length_eq_zero_iff.mp hlen⟩

theorem sendAction_push {c : Channel M} {phase : SendPhase} {a : SendAction} (h : c.sendAction phase = a)
    (ha : a = .deposit ∨ a = .deliverBuffered) :
    c.accepts ∧ (c.capacity = 0 → a = .deposit ∧ phase = .fresh) ∧ (c.capacity ≠ 0 → a = .deliverBuffered) := by
  have hne : a ≠ .closed ∧ a ≠ .complete ∧ a ≠ .park := by
    rcases ha with rfl | rfl <;> simp
  unfold sendAction pollSend at h
  unfold accepts
  by_cases hcap : c.capacity = 0
  · rw [if_pos hcap] at h
    cases phase with
    | fresh =>
      simp only at h
      split_ifs at h with hclosed hlen
      · exact absurd h.symm hne.1
      · refine ⟨?_, fun _ => ⟨h.symm, rfl⟩, fun hn => absurd hcap hn⟩
        simp [hclosed, hcap, List.length_eq_zero_iff.mp hlen]
      · exact absurd h.symm hne.2.2
    | deposited =>
      simp only at h
      split_ifs at h
      · exact absurd h.symm hne.2.1
      · exact absurd h.symm hne.2.2
  · rw [if_neg hcap] at h
    split_ifs at h with hclosed hlen
    · exact absurd h.symm hne.1
    · refine ⟨?_, fun h0 => absurd h0 hcap, fun _ => h.symm⟩
      simp [hclosed, hcap, hlen]
    · exact absurd h.symm hne.2.2

end Channel

/-- A send future. `deciding` is set while its poll on a shared channel is between the decision and the push; `done` once
a poll returned ready, `cancelled` once its task was cancelled. -/
structure Send (M : Type) where
  message : M
  phase : SendPhase := .fresh
  deciding : Option SendAction := none
  done : Bool := false
  cancelled : Bool := false

/-- What a poll of a send returns. -/
inductive Poll where
  | pending
  | ready
  | error
deriving DecidableEq, Repr

/-- A channel, its sends, and the pushes (with the send they came from) and receipts so far. -/
structure Traffic (M : Type) where
  channel : Channel M
  sends : List (Send M) := []
  pushed : List (Nat × M) := []
  received : List M := []

namespace Traffic

variable {M : Type}

def modify (t : Traffic M) (i : Nat) (f : Send M → Send M) : Traffic M := { t with sends := t.sends.modify i f }

/-- Send `i` puts its message into the buffer: a deposit parks until the message is taken, a buffered send is done. -/
def push (t : Traffic M) (i : Nat) (s : Send M) (action : SendAction) : Traffic M × Option Poll :=
  let t := { t with
    channel := { t.channel with buffer := t.channel.buffer ++ [s.message] }
    pushed := t.pushed ++ [(i, s.message)] }
  if action = .deposit then (t.modify i fun s => { s with phase := .deposited, deciding := none }, some .pending)
  else (t.modify i fun s => { s with done := true, deciding := none }, some .ready)

/-- A poll of send `i`, on a shared channel up to its decision to push. -/
def poll (t : Traffic M) (i : Nat) : Traffic M × Option Poll :=
  match t.sends[i]? with
  | none => (t, none)
  | some s =>
    match t.channel.sendAction s.phase with
    | .closed => (t, some .error)
    | .complete => (t.modify i fun s => { s with done := true }, some .ready)
    | .park => (t, some .pending)
    | action =>
      match t.channel.backing with
      | .local => t.push i s action
      | .shared => (t.modify i fun s => { s with deciding := some action }, none)

variable (shippable : M → Bool)

/-- The rest of the poll on a shared channel: the message is marshalled and pushed if the channel still accepts it. -/
def tryPush (t : Traffic M) (i : Nat) : Traffic M × Option Poll :=
  match t.sends[i]? with
  | none => (t, none)
  | some s =>
    match s.deciding with
    | none => (t, none)
    | some action =>
      if shippable s.message then
        if t.channel.accepts then t.push i s action
        else (t.modify i fun s => { s with deciding := none }, some .pending)
      else (t.modify i fun s => { s with deciding := none }, some .error)

/-- A receive poll by any receiver. -/
def recv (t : Traffic M) : Traffic M :=
  let (channel, result) := t.channel.recv
  match result with
  | .got message => { t with channel, received := t.received ++ [message] }
  | _ => { t with channel }

/-- The steps of senders, receivers and whoever closes the channel. -/
inductive Op (M : Type) where
  | send (message : M)
  | poll (send : Nat)
  | push (send : Nat)
  | recv
  | close
  | cancel (send : Nat)

def step (t : Traffic M) : Op M → Traffic M
  | .send message => { t with sends := t.sends ++ [{ message }] }
  | .poll i => (t.poll i).1
  | .push i => (t.tryPush shippable i).1
  | .recv => t.recv
  | .close => { t with channel := { t.channel with closed := true } }
  | .cancel i => t.modify i fun s => { s with cancelled := true }

/-- A send is polled, and cancelled, between its polls; a push ends the poll that decided on it. -/
def Enabled (t : Traffic M) : Op M → Prop
  | .poll i | .cancel i => ∃ s, t.sends[i]? = some s ∧ s.deciding = none ∧ s.cancelled = false
  | .push i => ∃ s action, t.sends[i]? = some s ∧ s.deciding = some action
  | _ => True

end Traffic

end Noeta.Sched
