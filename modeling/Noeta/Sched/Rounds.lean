import Noeta.Sched.Tasks

/-!
# Polling rounds that nest

A round polls the tasks of all scopes by their two indices, and a body that joins or drives inside its own poll runs a
round of its own. What each `poll_once` in progress will write back to is on a stack, with the context and the strand it
saved: the innermost first, between the futures that are driven without a task and the scopes whose futures are being
released. The `id` of a task is its own, as in `Table`; a task also has the future it polls, which two tasks can share.
-/

namespace Noeta.Sched.Rounds

structure Task (V : Type) where
  id : Nat
  future : Nat
  isolate : Bool := false
  result : Option V := none
  cancelled : Bool := false
  polling : Bool := false
  context : List Nat := []
  strand : Nat := 1
deriving DecidableEq, Repr

/-- The join counts the task as done. -/
def Task.done {V : Type} (t : Task V) : Bool := t.result.isSome || t.cancelled

/-- What a round writes into the slot before it polls. -/
def Task.start {V : Type} (t : Task V) : Task V := { t with polling := true, context := [] }

/-- What a cancellation writes. -/
def Task.cancel {V : Type} (t : Task V) : Task V := { t with cancelled := true }

/-- A call of `poll_once` by a round: the indices it was made at, the task and the future that stood there, and what the
round has saved. -/
structure Poll where
  scope : Nat
  task : Nat
  id : Nat
  future : Nat
  saved : List Nat
  savedStrand : Nat
deriving DecidableEq, Repr

/-- What is on the stack: a task's poll, a future polled directly by an `.await` or a drive, or the `close_scope` that
is releasing the futures of a scope, whose destructors run in it. -/
inductive Frame where
  | task (p : Poll)
  | direct (future : Nat)
  | closing (scope : Nat)
deriving DecidableEq, Repr

/-- The future whose step is executing in the frame. -/
def Frame.future? : Frame → Option Nat
  | .task p => some p.future
  | .direct f => some f
  | .closing _ => none

/-- The place a frame writes back to. -/
def Frame.place? : Frame → Option (Nat × Nat)
  | .task p => some (p.scope, p.task)
  | _ => none

/-- `SchedState`, the stack, and the tasks whose future `close_scope` has released. -/
structure Vm (V : Type) where
  scopes : List (List (Task V)) := []
  closed : List Bool := []
  ctxCurrent : List Nat := []
  currentStrand : Nat := 1
  frames : List Frame := []
  released : List Nat := []
  next : Nat := 0
deriving Repr

/-- What `poll_once` returns. -/
inductive Polled (V : Type) where
  | ready (value : V)
  | pending
  | cancelled
  | abort

/-- What a round writes into the slot once `poll_once` has returned. -/
def Polled.write {V : Type} (outcome : Polled V) (context : List Nat) (t : Task V) : Task V :=
  match outcome with
  | .ready value => { t with context, polling := false, result := some value }
  | .cancelled => { t with context, polling := false, cancelled := true }
  | .pending | .abort => { t with context, polling := false }

namespace Vm

variable {V : Type}

/-- `scopes.get(si).and_then(|s| s.get(ti))`. -/
def task? (w : Vm V) (si ti : Nat) : Option (Task V) := w.scopes[si]?.bind (·[ti]?)

def modifyTask (w : Vm V) (si ti : Nat) (f : Task V → Task V) : Vm V :=
  { w with scopes := w.scopes.modify si (·.modify ti f) }

/-- The futures whose steps are executing. -/
def executing (w : Vm V) : List Nat := w.frames.filterMap Frame.future?

def openScope (w : Vm V) : Vm V :=
  { w with scopes := w.scopes ++ [[]], closed := w.closed ++ [false] }

def innermostOpen (w : Vm V) : Option Nat := rposition (!·) w.closed

/-- `register_task`: the task inherits the context of its spawner, and the strand unless it is the root of a worker. With
no scope there is no task. -/
def spawn (w : Vm V) (future : Nat) (isolate : Bool) (strand : Option Nat) : Vm V :=
  match w.innermostOpen with
  | none => w
  | some si =>
    let t : Task V := ⟨w.next, future, isolate, none, false, false, w.ctxCurrent, strand.getD w.currentStrand⟩
    { w with scopes := w.scopes.modify si (· ++ [t]), next := w.next + 1 }

/-- The task at the indices, unless the round skips it. -/
def pollable (w : Vm V) (si ti : Nat) : Option (Task V) :=
  (w.task? si ti).filter fun t => t.result.isNone && !t.cancelled && !t.polling

/-- `poll_all_scopes_round` up to its call of `poll_once`. -/
def beginPoll (w : Vm V) (si ti : Nat) : Vm V :=
  match w.pollable si ti with
  | none => w
  | some t =>
    { w.modifyTask si ti Task.start with
      ctxCurrent := t.context
      currentStrand := t.strand
      frames := .task ⟨si, ti, t.id, t.future, w.ctxCurrent, w.currentStrand⟩ :: w.frames }

/-- `poll_all_scopes_round` from the return of `poll_once` on. -/
def endPoll (w : Vm V) (outcome : Polled V) : Vm V :=
  match w.frames with
  | .task p :: frames =>
    { w.modifyTask p.scope p.task (outcome.write w.ctxCurrent) with
      ctxCurrent := p.saved
      currentStrand := p.savedStrand
      frames }
  | _ => w

/-- `cancel_task`; a real isolate is only asked to stop. -/
def cancelTask (w : Vm V) (si ti : Nat) : Vm V :=
  match w.task? si ti with
  | none => w
  | some t =>
    if t.result.isSome || t.isolate then w
    else w.modifyTask si ti Task.cancel

/-- `close_scope` up to the release of the futures it took. -/
def takeScope (w : Vm V) (si : Nat) : Vm V :=
  { w with
    scopes := w.scopes.set si []
    released := (w.scopes[si]?.getD []).map Task.id ++ w.released
    frames := .closing si :: w.frames }

/-- `close_scope` after it: the tombstone, and the trailing tombstones popped. -/
def buryScope (w : Vm V) : Vm V :=
  match w.frames with
  | .closing si :: frames =>
    let closed := (w.closed.set si true).rdropWhile id
    { w with scopes := w.scopes.take closed.length, closed, frames }
  | _ => w

/-- `ScopeReady`. -/
def ready (w : Vm V) (si : Nat) : Bool := (w.scopes[si]?.getD []).all Task.done

/-- What the bodies and the rounds do. `scopeEnd` is the closing brace that has joined a scope and closes the innermost
one that is open now; `scopeEndAt` closes the scope of a captured index. -/
inductive Op (V : Type) where
  | open
  | spawn (future : Nat) (isolate : Bool) (strand : Option Nat)
  | setContext (context : List Nat)
  | beginPoll (si ti : Nat)
  | endPoll (outcome : Polled V)
  | enter (future : Nat)
  | leave
  | cancel (si ti : Nat)
  | scopeEndAt (si : Nat)
  | scopeEnd (joined : Nat)
  | bury

def step (w : Vm V) : Op V → Vm V
  | .open => w.openScope
  | .spawn future isolate strand => w.spawn future isolate strand
  | .setContext context => { w with ctxCurrent := context }
  | .beginPoll si ti => w.beginPoll si ti
  | .endPoll outcome => w.endPoll outcome
  | .enter future => { w with frames := .direct future :: w.frames }
  | .leave => { w with frames := w.frames.tail }
  | .cancel si ti => w.cancelTask si ti
  | .scopeEndAt si => w.takeScope si
  | .scopeEnd _ => match w.innermostOpen with
    | none => w
    | some si => w.takeScope si
  | .bury => w.buryScope

/-- The step can be taken, and no index it uses is out of bounds. -/
def enabled (w : Vm V) : Op V → Bool
  | .open | .setContext _ | .enter _ | .cancel _ _ => true
  | .spawn _ _ _ => w.scopes.isEmpty || w.innermostOpen.isSome
  | .beginPoll si ti => (w.pollable si ti).isSome
  | .endPoll _ => match w.frames with
    | .task p :: _ => (w.task? p.scope p.task).isSome
    | _ => false
  | .leave => match w.frames with
    | .direct _ :: _ => true
    | _ => false
  | .scopeEndAt si => decide (si < w.scopes.length) && w.ready si
  | .scopeEnd joined => decide (joined < w.scopes.length) && w.ready joined && w.innermostOpen.isSome
  | .bury => match w.frames with
    | .closing si :: _ => decide (si < w.closed.length)
    | _ => false

/-- No task of the scope is being polled. -/
def Quiet (w : Vm V) (si : Nat) : Prop := ∀ ti t, w.task? si ti = some t → t.polling = false

/-- No scope is closed while a task in it is being polled, and no future has two owners: one that is spawned is neither a
task's nor polled directly, and one that is polled directly is not a task's. -/
def Orderly (w : Vm V) : Op V → Prop
  | .spawn future _ _ => (∀ si ti t, w.task? si ti = some t → t.future ≠ future) ∧ .direct future ∉ w.frames
  | .enter future => ∀ si ti t, w.task? si ti = some t → t.future ≠ future
  | .scopeEndAt si => w.Quiet si
  | .scopeEnd _ => ∀ si, w.innermostOpen = some si → w.Quiet si
  | .bury => ∀ si, w.buryScope.scopes.length ≤ si → w.Quiet si
  | _ => True

/-- From `w`, by steps that can be taken and meet `P`, with the frames of `base` left on the stack. -/
inductive Nested (P : Vm V → Op V → Prop) (base : List Frame) (w : Vm V) : Vm V → Prop
  | refl : Nested P base w w
  | step {u : Vm V} (op : Op V) : Nested P base w u → u.enabled op → P u op →
    base <:+ (u.step op).frames → Nested P base w (u.step op)

/-- Reached from the start. -/
abbrev Reachable (P : Vm V → Op V → Prop) (w : Vm V) : Prop := Nested P [] {} w

/-! ### Where tasks stand after a step -/

theorem task?_modifyTask (w : Vm V) (si ti : Nat) (f : Task V → Task V) (sj tj : Nat) :
    (w.modifyTask si ti f).task? sj tj =
      if sj = si ∧ tj = ti then (w.task? si ti).map f else w.task? sj tj :=
  nth_modify ..

theorem task?_openScope (w : Vm V) (si ti : Nat) : w.openScope.task? si ti = w.task? si ti :=
  nth_concat ..

theorem task?_takeScope (w : Vm V) (si sj tj : Nat) :
    (w.takeScope si).task? sj tj = if sj = si then none else w.task? sj tj := by
  unfold takeScope task?
  by_cases hsj : sj = si
  · subst hsj
    rw [if_pos rfl, List.getElem?_set]
    by_cases hlt : sj < w.scopes.length
    · simp [hlt]
    · simp [hlt]
  · rw [if_neg hsj, List.getElem?_set_ne (Ne.symm hsj)]

variable {w : Vm V} {future si ti : Nat} {isolate : Bool} {strand : Option Nat} {t : Task V}

theorem task?_eq_none_of_le {sj : Nat} (h : w.scopes.length ≤ sj) (tj : Nat) : w.task? sj tj = none := by
  unfold task?
  rw [List.getElem?_eq_none h]
  rfl

theorem task?_buryScope (w : Vm V) (sj tj : Nat) :
    w.buryScope.task? sj tj = if sj < w.buryScope.scopes.length then w.task? sj tj else none := by
  have hsame : w.buryScope = w →
      w.buryScope.task? sj tj = if sj < w.buryScope.scopes.length then w.task? sj tj else none := by
    intro h
    rw [h]
    split_ifs with hlt
    · rfl
    · exact task?_eq_none_of_le (Nat.le_of_not_lt hlt) tj
  cases hf : w.frames with
  | nil => exact hsame (by rw [buryScope, hf])
  | cons f frames =>
    cases f with
    | task p => exact hsame (by rw [buryScope, hf])
    | direct f => exact hsame (by rw [buryScope, hf])
    | closing si =>
      unfold buryScope task?
      rw [hf]
      simp only
      rw [List.getElem?_take, List.length_take]
      by_cases hlt : sj < w.scopes.length
      · simp only [lt_min_iff, hlt, and_true]
        split_ifs <;> rfl
      · rw [List.getElem?_eq_none (Nat.le_of_not_lt hlt)]
        split_ifs <;> rfl

theorem task?_spawn {si tj sj : Nat}
    (hi : w.innermostOpen = some si) (h : (w.spawn future isolate strand).task? sj tj = some t) :
    w.task? sj tj = some t ∨
      (t.id = w.next ∧ t.future = future ∧ sj = si ∧ tj = (w.scopes[si]?.getD []).length) := by
  unfold spawn task? at h
  simp only [hi, List.getElem?_modify, Option.map_eq_map] at h
  unfold task?
  cases hs : w.scopes[sj]? with
  | none => simp [hs] at h
  | some scope =>
    rw [hs, Option.map_some, Option.bind_some] at h
    by_cases hsj : si = sj
    · subst hsj
      simp only [if_pos] at h
      rcases Nat.lt_trichotomy tj scope.length with ht | ht | ht
      · rw [List.getElem?_append_left ht] at h
        exact Or.inl h
      · subst ht
        rw [List.getElem?_concat_length] at h
        obtain rfl := Option.some.inj h
        exact Or.inr ⟨rfl, rfl, rfl, by rw [hs, Option.getD_some]⟩
      · rw [List.getElem?_append_right ht.le, List.getElem?_eq_none (by simp; omega)] at h
        simp at h
    · rw [if_neg hsj] at h
      exact Or.inl h

theorem task?_spawn_of_some {sj tj : Nat}
    (h : w.task? sj tj = some t) : (w.spawn future isolate strand).task? sj tj = some t := by
  cases hi : w.innermostOpen with
  | none =>
    unfold spawn
    rw [hi]
    exact h
  | some si =>
    unfold spawn task?
    unfold task? at h
    simp only [hi, List.getElem?_modify]
    cases hs : w.scopes[sj]? with
    | none => simp [hs] at h
    | some scope =>
      rw [hs, Option.bind_some] at h
      have hlt : tj < scope.length := (List.getElem?_eq_some_iff.1 h).1
      by_cases hsj : si = sj
      · simp [hsj, List.getElem?_append_left hlt, h]
      · simp [hsj, h]

/-! ### What the rounds rely on -/

/-- The task of a poll in progress stands where the poll began. -/
def Stands (w : Vm V) (p : Poll) : Prop :=
  ∃ t, w.task? p.scope p.task = some t ∧ t.id = p.id ∧ t.future = p.future ∧ t.polling = true

/-- Every poll in progress finds its task, no two are at one place, no task in the table has had its future released, and
no two tasks, nor a task and a direct poll, share a future. -/
structure Intact (w : Vm V) : Prop where
  length : w.closed.length = w.scopes.length
  stands : ∀ p, .task p ∈ w.frames → w.Stands p
  once : (w.frames.filterMap Frame.place?).Nodup
  held : ∀ si ti t, w.task? si ti = some t → t.id ∉ w.released ∧ t.id < w.next
  old : ∀ id ∈ w.released, id < w.next
  sole : ∀ si ti t sj tj u, w.task? si ti = some t → w.task? sj tj = some u → t.id = u.id ∨ t.future = u.future →
    si = sj ∧ ti = tj
  direct : ∀ f, .direct f ∈ w.frames → ∀ si ti t, w.task? si ti = some t → t.future ≠ f

theorem intact_init : ({} : Vm V).Intact where
  length := rfl
  stands p hp := absurd hp List.not_mem_nil
  once := List.nodup_nil
  held si ti t h := absurd h (by simp [task?])
  old id h := absurd h List.not_mem_nil
  sole si ti t sj tj u h := absurd h (by simp [task?])
  direct f hf := absurd hf List.not_mem_nil

theorem Intact.of_subset {w u : Vm V} (h : w.Intact) (hlength : u.closed.length = u.scopes.length)
    (htask : ∀ si ti t, u.task? si ti = some t →
      ∃ t₀, w.task? si ti = some t₀ ∧ t₀.id = t.id ∧ t₀.future = t.future)
    (hstands : ∀ p, .task p ∈ u.frames → u.Stands p) (honce : (u.frames.filterMap Frame.place?).Nodup)
    (hdirect : ∀ f, .direct f ∈ u.frames → .direct f ∈ w.frames) (hnext : u.next = w.next)
    (hreleased : ∀ id ∈ u.released, id ∈ w.released ∨
      (id < w.next ∧ ∀ si ti t, u.task? si ti = some t → t.id ≠ id)) : u.Intact := by
  refine ⟨hlength, hstands, honce, fun si ti t ht => ?_, fun id hid => ?_, fun si ti t sj tj v ht hv htv => ?_,
    fun f hf si ti t ht => ?_⟩
  · obtain ⟨t₀, ht₀, hid, -⟩ := htask si ti t ht
    have hheld := h.held si ti t₀ ht₀
    rw [hid, ← hnext] at hheld
    refine ⟨fun hmem => ?_, hheld.2⟩
    rcases hreleased t.id hmem with hmem | ⟨-, hgone⟩
    · exact hheld.1 hmem
    · exact hgone si ti t ht rfl
  · rw [hnext]
    rcases hreleased id hid with hmem | ⟨hlt, -⟩
    · exact h.old id hmem
    · exact hlt
  · obtain ⟨t₀, ht₀, hid, hfut⟩ := htask si ti t ht
    obtain ⟨v₀, hv₀, hid', hfut'⟩ := htask sj tj v hv
    rw [← hid, ← hfut, ← hid', ← hfut'] at htv
    exact h.sole si ti t₀ sj tj v₀ ht₀ hv₀ htv
  · obtain ⟨t₀, ht₀, -, hfut⟩ := htask si ti t ht
    rw [← hfut]
    exact h.direct f (hdirect f hf) si ti t₀ ht₀

theorem task?_modifyTask_some {f : Task V → Task V} (hid : ∀ t, (f t).id = t.id)
    (hfut : ∀ t, (f t).future = t.future) {sj tj : Nat} (h : (w.modifyTask si ti f).task? sj tj = some t) :
    ∃ t₀, w.task? sj tj = some t₀ ∧ t₀.id = t.id ∧ t₀.future = t.future := by
  rw [task?_modifyTask] at h
  split_ifs at h with hplace
  · obtain ⟨rfl, rfl⟩ := hplace
    obtain ⟨t₀, ht₀, rfl⟩ := Option.map_eq_some_iff.1 h
    exact ⟨t₀, ht₀, (hid t₀).symm, (hfut t₀).symm⟩
  · exact ⟨t, h, rfl, rfl⟩

theorem Stands.modifyTask {p : Poll} (h : w.Stands p) {f : Task V → Task V}
    (hid : ∀ t, (f t).id = t.id) (hfut : ∀ t, (f t).future = t.future)
    (hpoll : (p.scope, p.task) = (si, ti) → ∀ t, (f t).polling = t.polling) : (w.modifyTask si ti f).Stands p := by
  obtain ⟨t, ht, htid, htfut, htpoll⟩ := h
  unfold Stands
  rw [task?_modifyTask]
  split_ifs with hplace
  · refine ⟨f t, ?_, by rw [hid, htid], by rw [hfut, htfut], ?_⟩
    · rw [← hplace.1, ← hplace.2, ht]
      rfl
    · rw [hpoll (Prod.ext hplace.1 hplace.2), htpoll]
  · exact ⟨t, ht, htid, htfut, htpoll⟩

/-! ### Steps -/

theorem Intact.openScope (h : w.Intact) : w.openScope.Intact := by
  apply h.of_subset
  · simp [Vm.openScope, h.length]
  · intro si ti t ht
    rw [task?_openScope] at ht
    exact ⟨t, ht, rfl, rfl⟩
  · intro p hp
    obtain ⟨t, ht, hrest⟩ := h.stands p hp
    exact ⟨t, by rw [task?_openScope, ht], hrest⟩
  · exact h.once
  · exact fun f hf => hf
  · rfl
  · exact fun id hid => Or.inl hid

theorem Intact.spawn (h : w.Intact)
    (ho : w.Orderly (.spawn future isolate strand)) : (w.spawn future isolate strand).Intact := by
  cases hi : w.innermostOpen with
  | none =>
    have hsame : w.spawn future isolate strand = w := by
      unfold Vm.spawn
      rw [hi]
    rw [hsame]
    exact h
  | some si =>
    have hframes : (w.spawn future isolate strand).frames = w.frames := by simp [Vm.spawn, hi]
    have hreleased : (w.spawn future isolate strand).released = w.released := by simp [Vm.spawn, hi]
    have hnext : (w.spawn future isolate strand).next = w.next + 1 := by simp [Vm.spawn, hi]
    refine ⟨?_, fun p hp => ?_, ?_, fun sj tj t ht => ?_, fun id hid => ?_, fun sj tj t sk tk u ht hu htu => ?_,
      fun f hf sj tj t ht => ?_⟩
    · simp [Vm.spawn, hi, h.length]
    · rw [hframes] at hp
      obtain ⟨t, ht, hrest⟩ := h.stands p hp
      exact ⟨t, task?_spawn_of_some ht, hrest⟩
    · rw [hframes]
      exact h.once
    · rw [hreleased, hnext]
      rcases task?_spawn hi ht with ht | ⟨hid, -, -⟩
      · have hheld := h.held sj tj t ht
        exact ⟨hheld.1, Nat.lt_succ_of_lt hheld.2⟩
      · rw [hid]
        exact ⟨fun hmem => absurd (h.old _ hmem) (Nat.lt_irrefl _), Nat.lt_succ_self _⟩
    · rw [hreleased] at hid
      rw [hnext]
      exact Nat.lt_succ_of_lt (h.old id hid)
    · rcases task?_spawn hi ht with ht | ⟨hid, hfut, hsj, htj⟩ <;>
        rcases task?_spawn hi hu with hu | ⟨hid', hfut', hsk, htk⟩
      · exact h.sole sj tj t sk tk u ht hu htu
      · rcases htu with htu | htu
        · have hlt := (h.held sj tj t ht).2
          omega
        · exact absurd (htu.trans hfut') (ho.1 sj tj t ht)
      · rcases htu with htu | htu
        · have hlt := (h.held sk tk u hu).2
          omega
        · exact absurd (htu.symm.trans hfut) (ho.1 sk tk u hu)
      · exact ⟨hsj.trans hsk.symm, htj.trans htk.symm⟩
    · rw [hframes] at hf
      rcases task?_spawn hi ht with ht | ⟨-, hfut, -⟩
      · exact h.direct f hf sj tj t ht
      · rw [hfut]
        rintro rfl
        exact ho.2 hf

theorem pollable_eq_some (h : w.pollable si ti = some t) : w.task? si ti = some t ∧ t.polling = false := by
  obtain ⟨ht, hguard⟩ := Option.filter_eq_some_iff.1 h
  refine ⟨ht, ?_⟩
  simp only [Bool.and_eq_true, Bool.not_eq_true'] at hguard
  exact hguard.2

theorem Intact.not_mem_places (h : w.Intact) (hp : w.pollable si ti = some t) :
    (si, ti) ∉ w.frames.filterMap Frame.place? := by
  obtain ⟨ht, hpoll⟩ := pollable_eq_some hp
  intro hmem
  obtain ⟨f, hf, hplace⟩ := List.mem_filterMap.1 hmem
  cases f with
  | task p =>
    obtain ⟨rfl, rfl⟩ := Prod.mk.inj (Option.some.inj hplace)
    obtain ⟨u, hu, -, -, hupoll⟩ := h.stands p hf
    rw [ht] at hu
    obtain rfl := Option.some.inj hu
    rw [hpoll] at hupoll
    exact absurd hupoll (by simp)
  | direct f => exact absurd hplace (by simp [Frame.place?])
  | closing si => exact absurd hplace (by simp [Frame.place?])

theorem beginPoll_of_none (hp : w.pollable si ti = none) : w.beginPoll si ti = w := by
  unfold beginPoll
  rw [hp]

theorem beginPoll_of_some (hp : w.pollable si ti = some t) : w.beginPoll si ti = { w.modifyTask si ti Task.start with
        ctxCurrent := t.context
        currentStrand := t.strand
        frames := .task ⟨si, ti, t.id, t.future, w.ctxCurrent, w.currentStrand⟩ :: w.frames } := by
  unfold beginPoll
  rw [hp]

theorem Intact.beginPoll (h : w.Intact) (si ti : Nat) : (w.beginPoll si ti).Intact := by
  cases hp : w.pollable si ti with
  | none =>
    rw [beginPoll_of_none hp]
    exact h
  | some t =>
    have hplaces := h.not_mem_places hp
    obtain ⟨ht, -⟩ := pollable_eq_some hp
    rw [beginPoll_of_some hp]
    apply h.of_subset
    · simp [Vm.modifyTask, h.length]
    · intro sj tj u hu
      exact task?_modifyTask_some (f := Task.start) (fun _ => rfl) (fun _ => rfl) hu
    · intro p hmem
      rcases List.mem_cons.1 hmem with hnew | hmem
      · obtain rfl := Frame.task.inj hnew
        refine ⟨t.start, ?_, rfl, rfl, rfl⟩
        change (w.modifyTask si ti Task.start).task? si ti = some t.start
        rw [task?_modifyTask, if_pos ⟨rfl, rfl⟩, ht]
        rfl
      · refine (h.stands p hmem).modifyTask (f := Task.start) (fun _ => rfl) (fun _ => rfl) fun hplace => ?_
        rw [← hplace] at hplaces
        have hin : (p.scope, p.task) ∈ w.frames.filterMap Frame.place? :=
          List.mem_filterMap.2 ⟨.task p, hmem, rfl⟩
        exact absurd hin hplaces
    · change ((si, ti) :: w.frames.filterMap Frame.place?).Nodup
      exact List.nodup_cons.2 ⟨hplaces, h.once⟩
    · intro f hf
      rcases List.mem_cons.1 hf with hf | hf
      · exact absurd hf (by simp)
      · exact hf
    · rfl
    · exact fun id hid => Or.inl hid

theorem Intact.endPoll (h : w.Intact) (outcome : Polled V) : (w.endPoll outcome).Intact := by
  have hsame : w.endPoll outcome = w → (w.endPoll outcome).Intact := fun hs => by rw [hs]; exact h
  cases hf : w.frames with
  | nil => exact hsame (by rw [Vm.endPoll, hf])
  | cons f frames =>
    cases f with
    | direct f => exact hsame (by rw [Vm.endPoll, hf])
    | closing si => exact hsame (by rw [Vm.endPoll, hf])
    | task p =>
      have hid : ∀ t : Task V, (outcome.write w.ctxCurrent t).id = t.id := by
        intro t
        cases outcome <;> rfl
      have hfut : ∀ t : Task V, (outcome.write w.ctxCurrent t).future = t.future := by
        intro t
        cases outcome <;> rfl
      have hend : w.endPoll outcome = { w.modifyTask p.scope p.task (outcome.write w.ctxCurrent) with
          ctxCurrent := p.saved, currentStrand := p.savedStrand, frames } := by
        rw [Vm.endPoll, hf]
      have honce := h.once
      rw [hf] at honce
      change ((p.scope, p.task) :: frames.filterMap Frame.place?).Nodup at honce
      have hplaces := List.nodup_cons.1 honce
      rw [hend]
      apply h.of_subset
      · simp [Vm.modifyTask, h.length]
      · intro si ti t ht
        exact task?_modifyTask_some (f := outcome.write w.ctxCurrent) hid hfut ht
      · intro q hq
        have hstands := h.stands q (by rw [hf]; exact List.mem_cons_of_mem _ hq)
        refine hstands.modifyTask (f := outcome.write w.ctxCurrent) hid hfut fun hplace => ?_
        have hin : (q.scope, q.task) ∈ frames.filterMap Frame.place? :=
          List.mem_filterMap.2 ⟨.task q, hq, rfl⟩
        rw [hplace] at hin
        exact absurd hin hplaces.1
      · exact hplaces.2
      · intro f hfr
        rw [hf]
        exact List.mem_cons_of_mem _ hfr
      · rfl
      · exact fun id hid => Or.inl hid

theorem Intact.cancelTask (h : w.Intact) (si ti : Nat) : (w.cancelTask si ti).Intact := by
  unfold Vm.cancelTask
  split
  · exact h
  · split_ifs
    · exact h
    · apply h.of_subset
      · simp [modifyTask, h.length]
      · intro sj tj t ht
        exact task?_modifyTask_some (f := Task.cancel) (fun _ => rfl) (fun _ => rfl) ht
      · exact fun p hp => (h.stands p hp).modifyTask (f := Task.cancel) (fun _ => rfl) (fun _ => rfl) fun _ _ => rfl
      · exact h.once
      · exact fun f hf => hf
      · rfl
      · exact fun id hid => Or.inl hid

/-- Taking a scope whose tasks are not being polled. -/
theorem Intact.takeScope (h : w.Intact) (hquiet : w.Quiet si) : (w.takeScope si).Intact := by
  apply h.of_subset
  · simp [Vm.takeScope, h.length]
  · intro sj tj t ht
    rw [task?_takeScope] at ht
    split_ifs at ht
    exact ⟨t, ht, rfl, rfl⟩
  · intro p hp
    obtain hp | hp := List.mem_cons.1 hp
    · exact absurd hp (by simp)
    · obtain ⟨t, ht, hid, hfut, hpoll⟩ := h.stands p hp
      refine ⟨t, ?_, hid, hfut, hpoll⟩
      rw [task?_takeScope, if_neg, ht]
      rintro rfl
      rw [hquiet _ _ ht] at hpoll
      exact absurd hpoll (by simp)
  · exact h.once
  · intro f hf
    obtain hf | hf := List.mem_cons.1 hf
    · exact absurd hf (by simp)
    · exact hf
  · rfl
  · intro id hid
    rcases List.mem_append.1 hid with hid | hid
    · -- a task of the scope that was taken
      obtain ⟨t, ht, rfl⟩ := List.mem_map.1 hid
      obtain ⟨ti, hti⟩ := List.mem_iff_getElem?.1 ht
      have htask : w.task? si ti = some t := by
        unfold task?
        cases hs : w.scopes[si]? with
        | none => simp [hs] at hti
        | some scope => simpa [hs] using hti
      refine Or.inr ⟨(h.held si ti t htask).2, fun sj tj u hu heq => ?_⟩
      rw [task?_takeScope] at hu
      split_ifs at hu with hne
      exact hne (h.sole sj tj u si ti t hu htask (Or.inl heq)).1
    · exact Or.inl hid

theorem length_buryScope (h : w.closed.length = w.scopes.length) :
    w.buryScope.closed.length = w.buryScope.scopes.length := by
  unfold buryScope
  split
  · rename_i si frames _
    have hle := (List.rdropWhile_prefix id (w.closed.set si true)).length_le
    rw [List.length_set] at hle
    simp only [List.length_take]
    omega
  · exact h

/-- Popping the trailing tombstones, none of which holds a task being polled. -/
theorem Intact.buryScope (h : w.Intact) (ho : w.Orderly .bury) : w.buryScope.Intact := by
  have hframes : ∀ f ∈ w.buryScope.frames, f ∈ w.frames := by
    unfold Vm.buryScope
    split
    · rename_i heq
      intro f hf
      rw [heq]
      exact List.mem_cons_of_mem _ hf
    · exact fun f hf => hf
  apply h.of_subset
  · exact length_buryScope h.length
  · intro si ti t ht
    rw [task?_buryScope] at ht
    split_ifs at ht
    exact ⟨t, ht, rfl, rfl⟩
  · intro p hp
    obtain ⟨t, ht, hid, hfut, hpoll⟩ := h.stands p (hframes _ hp)
    refine ⟨t, ?_, hid, hfut, hpoll⟩
    rw [task?_buryScope, if_pos, ht]
    by_contra hlt
    rw [ho _ (Nat.le_of_not_lt hlt) _ _ ht] at hpoll
    exact absurd hpoll (by simp)
  · have honce := h.once
    unfold Vm.buryScope
    split
    · rename_i heq
      rw [heq] at honce
      exact honce
    · exact honce
  · exact fun f hf => hframes _ hf
  · unfold Vm.buryScope
    split <;> rfl
  · intro id hid
    left
    unfold Vm.buryScope at hid
    split at hid <;> exact hid

/-- One step that meets the condition keeps what the rounds rely on. -/
theorem Intact.step (h : w.Intact) {op : Op V} (he : w.enabled op) (ho : w.Orderly op) : (w.step op).Intact := by
  cases op with
  | «open» => exact h.openScope
  | spawn future isolate strand => exact h.spawn ho
  | setContext context =>
    exact ⟨h.length, h.stands, h.once, h.held, h.old, h.sole, h.direct⟩
  | beginPoll si ti => exact h.beginPoll si ti
  | endPoll outcome => exact h.endPoll outcome
  | enter future =>
    refine ⟨h.length, fun p hp => ?_, h.once, h.held, h.old, h.sole, fun f hf si ti t ht => ?_⟩
    · obtain hp | hp := List.mem_cons.1 hp
      · exact absurd hp (by simp)
      · exact h.stands p hp
    · obtain hf | hf := List.mem_cons.1 hf
      · obtain rfl := Frame.direct.inj hf
        exact ho si ti t ht
      · exact h.direct f hf si ti t ht
  | leave =>
    have hsub : List.Sublist w.frames.tail w.frames := List.tail_sublist _
    exact ⟨h.length, fun p hp => h.stands p (hsub.mem hp), h.once.sublist (hsub.filterMap _), h.held, h.old, h.sole,
      fun f hf => h.direct f (hsub.mem hf)⟩
  | cancel si ti => exact h.cancelTask si ti
  | scopeEndAt si => exact h.takeScope ho
  | scopeEnd joined =>
    unfold Vm.step
    simp only
    split
    · exact h
    · rename_i si hsi
      exact h.takeScope (ho si hsi)
  | bury => exact h.buryScope ho

theorem Nested.intact {base : List Frame} {w u : Vm V} (h : Nested Orderly base w u) (hw : w.Intact) : u.Intact := by
  induction h with
  | refl => exact hw
  | step op _ he ho _ ih => exact ih.step he ho

/-- A run of given steps, each of which can be taken and leaves the frames of `base`. -/
def run (base : List Frame) : Vm V → List (Op V) → Option (Vm V)
  | w, [] => some w
  | w, op :: ops => if w.enabled op ∧ base <:+ (w.step op).frames then run base (w.step op) ops else none

theorem Nested.run {base : List Frame} {v w u : Vm V} (h : Nested (fun _ _ => True) base v w) {ops : List (Op V)}
    (hr : w.run base ops = some u) : Nested (fun _ _ => True) base v u := by
  induction ops generalizing w with
  | nil =>
    obtain rfl := Option.some.inj hr
    exact h
  | cons op ops ih =>
    unfold Vm.run at hr
    split_ifs at hr with hop
    exact ih (.step op h hop.1 trivial hop.2) hr

/-! ### What a round finds when a poll returns -/

/-- No task's step is executing twice: two frames on the stack have different futures when one of them is a task's. -/
def Exclusive (w : Vm V) : Prop :=
  w.frames.Pairwise fun a b => (∃ p, a = .task p ∨ b = .task p) → ∀ f, a.future? = some f → b.future? ≠ some f

theorem Intact.exclusive (h : w.Intact) : w.Exclusive := by
  have honce := List.pairwise_filterMap.1 h.once
  refine honce.imp_of_mem fun {a b} ha hb hne hone f hfa hfb => ?_
  have hdirect : ∀ p, .task p ∈ w.frames → .direct p.future ∉ w.frames := by
    intro p hp hd
    obtain ⟨t, ht, -, hfut, -⟩ := h.stands p hp
    exact h.direct _ hd _ _ t ht hfut
  cases a with
  | task p =>
    obtain rfl := Option.some.inj hfa
    cases b with
    | task q =>
      obtain ⟨t, ht, -, hfut, -⟩ := h.stands p ha
      obtain ⟨u, hu, -, hfut', -⟩ := h.stands q hb
      have hsame : t.future = u.future := by rw [hfut, hfut', Option.some.inj hfb]
      obtain ⟨hs, ht⟩ := h.sole _ _ t _ _ u ht hu (Or.inr hsame)
      exact hne _ rfl _ rfl (Prod.ext hs ht)
    | direct g =>
      obtain rfl := Option.some.inj hfb
      exact hdirect p ha hb
    | closing si => exact absurd hfb (by simp [Frame.future?])
  | direct g =>
    obtain rfl := Option.some.inj hfa
    cases b with
    | task q =>
      obtain rfl := Option.some.inj hfb
      exact hdirect q hb ha
    | direct g => exact absurd hone (by simp)
    | closing si => exact absurd hfb (by simp [Frame.future?])
  | closing si => exact absurd hfa (by simp [Frame.future?])

theorem endPoll_of_frames {p : Poll} {frames : List Frame} (hf : w.frames = .task p :: frames) (outcome : Polled V) :
    w.endPoll outcome =
      { w.modifyTask p.scope p.task (outcome.write w.ctxCurrent) with
        ctxCurrent := p.saved
        currentStrand := p.savedStrand
        frames } := by
  unfold endPoll
  rw [hf]

/-- Where the poll that a round began on task `t` in state `w` has come to in state `u`, which is just before the round
goes on: `t` is in its slot, its future is not released, and for whatever the poll returns the round can go on, puts its
own context and strand back and leaves the rest of the stack. -/
def Returned (w u : Vm V) (si ti : Nat) (t : Task V) : Prop :=
  ∃ t', u.task? si ti = some t' ∧ t'.id = t.id ∧ t'.future = t.future ∧ t'.polling = true ∧ t.id ∉ u.released ∧
    ∀ outcome, u.enabled (.endPoll outcome) ∧
      (u.endPoll outcome).task? si ti = some (outcome.write u.ctxCurrent t') ∧
      (u.endPoll outcome).ctxCurrent = w.ctxCurrent ∧
      (u.endPoll outcome).currentStrand = w.currentStrand ∧
      (u.endPoll outcome).frames = w.frames

theorem Intact.returned {w u : Vm V} (hu : u.Intact) (hp : w.pollable si ti = some t)
    (hf : u.frames = (w.beginPoll si ti).frames) : Returned w u si ti t := by
  rw [beginPoll_of_some hp] at hf
  have htop : .task ⟨si, ti, t.id, t.future, w.ctxCurrent, w.currentStrand⟩ ∈ u.frames := by
    rw [hf]
    exact List.mem_cons_self
  obtain ⟨t', ht', hid, hfut, hpoll⟩ := hu.stands _ htop
  have hheld := (hu.held _ _ t' ht').1
  rw [hid] at hheld
  refine ⟨t', ht', hid, hfut, hpoll, hheld, fun outcome => ?_⟩
  have henabled : u.enabled (.endPoll outcome) := by
    unfold enabled
    simp only [hf]
    rw [ht']
    rfl
  rw [endPoll_of_frames hf]
  refine ⟨henabled, ?_, rfl, rfl, rfl⟩
  change (u.modifyTask si ti (outcome.write u.ctxCurrent)).task? si ti = _
  rw [task?_modifyTask, if_pos ⟨rfl, rfl⟩, ht']
  rfl

/-- In a run that closes no scope with a task being polled and gives no future two owners, no step is entered while it
is executing, and every poll a round begins, whatever its body does before it returns, returns to the task it polled. -/
theorem poll_returns {w : Vm V} (hw : Reachable Orderly w) :
    w.Exclusive ∧
      ∀ si ti t, w.pollable si ti = some t →
        t.future ∉ w.executing ∧
          ∀ u, Nested Orderly (w.beginPoll si ti).frames (w.beginPoll si ti) u →
            u.frames = (w.beginPoll si ti).frames → Returned w u si ti t := by
  have hintact := Nested.intact hw intact_init
  refine ⟨hintact.exclusive, fun si ti t hp => ⟨?_, fun u hu hf => ?_⟩⟩
  · have hbegun := (hintact.beginPoll si ti).exclusive
    unfold Exclusive at hbegun
    rw [beginPoll_of_some hp] at hbegun
    intro hmem
    obtain ⟨f, hf, hfut⟩ := List.mem_filterMap.1 hmem
    exact (List.pairwise_cons.1 hbegun).1 f hf ⟨_, Or.inl rfl⟩ _ rfl hfut
  · have hbegun := hintact.beginPoll si ti
    exact (hu.intact hbegun).returned hp hf

/-- One task, whose body opens a scope, joins it and returns. -/
def joining : Vm Unit := openScope {} |>.spawn 0 false none

/-- The body of the one task, up to its return. -/
def joined : Vm Unit := ((joining.beginPoll 0 0).openScope.takeScope 1).buryScope

theorem joining_reachable : Reachable Orderly joining := by
  have hopen : Reachable Orderly (openScope {} : Vm Unit) :=
    .step .open .refl rfl trivial List.nil_suffix
  refine .step (.spawn 0 false none) hopen rfl ⟨fun si ti t ht => ?_, List.not_mem_nil⟩ List.nil_suffix
  rw [task?_openScope] at ht
  exact absurd ht (by simp [task?])

theorem poll_returns_joined :
    (0 : Nat) ∉ joining.executing ∧ Returned joining joined 0 0 ⟨0, 0, false, none, false, false, [], 1⟩ := by
  have hreturns := (poll_returns joining_reachable).2 0 0 ⟨0, 0, false, none, false, false, [], 1⟩ rfl
  refine ⟨hreturns.1, hreturns.2 joined ?_ rfl⟩
  have hopen : Nested Orderly (joining.beginPoll 0 0).frames (joining.beginPoll 0 0)
      (joining.beginPoll 0 0).openScope := .step .open .refl rfl trivial List.suffix_rfl
  have htake : Nested Orderly (joining.beginPoll 0 0).frames (joining.beginPoll 0 0)
      ((joining.beginPoll 0 0).openScope.takeScope 1) := by
    refine .step (.scopeEnd 1) hopen rfl (fun si hsi ti t ht => ?_) (List.suffix_cons _ _)
    obtain rfl := Option.some.inj hsi
    change ([] : List (Task Unit))[ti]? = some t at ht
    exact absurd ht (by simp)
  refine .step .bury htake rfl (fun si hsi ti t ht => ?_) List.suffix_rfl
  rw [task?_takeScope] at ht
  split_ifs at ht with hsi₁
  have hle : (joining.beginPoll 0 0).openScope.scopes.length ≤ si := by
    change 2 ≤ si
    change 1 ≤ si at hsi
    omega
  rw [task?_eq_none_of_le hle] at ht
  exact absurd ht (by simp)

/-- An owner that has spawned one task into a scope of its own and is parked at the end of it. -/
def parked : List (Op Unit) :=
  [.open, .spawn 0 false none, .beginPoll 0 0, .open, .spawn 1 false none, .endPoll .pending]

/-- The body of that task: it joins a scope, the round of the join polls the owner, and the owner cancels the task and
closes their scope. -/
def overtaken : List (Op Unit) :=
  [.open, .spawn 2 false none, .beginPoll 0 0, .cancel 1 0, .scopeEndAt 1, .bury, .endPoll (.ready ()),
    .beginPoll 2 0, .endPoll (.ready ()), .scopeEnd 2, .bury]

/-- The poll returns to a slot that is gone, and the future it polled is released. -/
theorem poll_lost :
    ∃ (w u : Vm Unit) (t : Task Unit), Reachable (fun _ _ => True) w ∧ w.pollable 1 0 = some t ∧
      Nested (fun _ _ => True) (w.beginPoll 1 0).frames (w.beginPoll 1 0) u ∧
      u.frames = (w.beginPoll 1 0).frames ∧
      u.task? 1 0 = none ∧ t.id ∈ u.released ∧ ∀ outcome, ¬u.enabled (.endPoll outcome) := by
  have hparked : run [] {} parked = some (parked.foldl step {}) := rfl
  have hovertaken : ((parked.foldl step {}).beginPoll 1 0).run ((parked.foldl step {}).beginPoll 1 0).frames overtaken =
      some (overtaken.foldl step ((parked.foldl step {}).beginPoll 1 0)) := rfl
  refine ⟨_, _, ⟨1, 1, false, none, false, false, [], 1⟩, Nested.run .refl hparked, rfl, Nested.run .refl hovertaken,
    rfl, rfl, by decide, fun outcome => ?_⟩
  exact Bool.false_ne_true

end Vm

end Noeta.Sched.Rounds
