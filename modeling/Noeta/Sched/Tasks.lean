import Mathlib

/-!
# Scopes and task handles

A scheduler keeps the tasks of its open `concurrent` scopes in a vector of vectors. A scope that closes leaves a
tombstone, and trailing tombstones are popped, so the same index is given out again. A handle is a pair of bare indices.
Every task has an `id` of its own, which no function of the source reads: it says which task an index was meant for.
-/

namespace Noeta.Sched

/-- `Poll`: what one poll of a future reports. -/
inductive Outcome (V : Type) where
  | ready (value : V)
  | pending
  | cancelled
deriving DecidableEq, Repr

/-- A stored result, and the task whose poll produced it. -/
structure Answer (V : Type) where
  value : V
  producer : Nat
deriving DecidableEq, Repr

/-- `Task`; `isolate` is the `isolate_future_id` of its future, if that is a real isolate's. -/
structure Task (V : Type) where
  id : Nat
  isolate : Option Nat := none
  result : Option (Answer V) := none
  cancelled : Bool := false
  polling : Bool := false
deriving DecidableEq, Repr

/-- The join counts the task as done. -/
def Task.done {V : Type} (t : Task V) : Bool := t.result.isSome || t.cancelled

/-- `make_handle`, and the task it was made for. -/
structure Handle where
  scope : Nat
  task : Nat
  id : Nat
deriving DecidableEq, Repr

/-- `scopes` and `scope_closed`, the isolates whose signal is set, the polls in progress (innermost first), and the
handles given out so far. -/
structure Table (V : Type) where
  scopes : List (List (Task V)) := []
  closed : List Bool := []
  requested : List Nat := []
  polls : List Handle := []
  handles : List Handle := []
  isolates : Nat := 0
  next : Nat := 0
deriving Repr

def rposition {α : Type} (p : α → Bool) : List α → Option Nat
  | [] => none
  | a :: l =>
    match rposition p l with
    | some i => some (i + 1)
    | none => if p a then some 0 else none

theorem nth_modify {α : Type} (l : List (List α)) (i k : Nat) (f : α → α) (j n : Nat) :
    (l.modify i (·.modify k f))[j]?.bind (·[n]?) =
      if j = i ∧ n = k then (l[i]?.bind (·[k]?)).map f else l[j]?.bind (·[n]?) := by
  rw [List.getElem?_modify]
  by_cases hs : j = i
  · subst hs
    cases h : l[j]? with
    | none => simp
    | some scope =>
      by_cases ht : n = k
      · simp [ht]
      · simp [ht, Ne.symm ht]
  · cases h : l[j]? with
    | none => simp [hs]
    | some scope => simp [hs, Ne.symm hs]

theorem nth_concat {α : Type} (l : List (List α)) (i k : Nat) : (l ++ [[]])[i]?.bind (·[k]?) = l[i]?.bind (·[k]?) := by
  rcases Nat.lt_trichotomy i l.length with h | h | h
  · rw [List.getElem?_append_left h]
  · rw [h, List.getElem?_append_right le_rfl, List.getElem?_eq_none le_rfl]
    simp
  · rw [List.getElem?_append_right h.le, List.getElem?_eq_none h.le, List.getElem?_eq_none (by simp; omega)]

namespace Table

variable {V : Type}

/-- `scopes.get(si).and_then(|s| s.get(ti))`. -/
def task? (w : Table V) (si ti : Nat) : Option (Task V) := w.scopes[si]?.bind (·[ti]?)

def modifyTask (w : Table V) (si ti : Nat) (f : Task V → Task V) : Table V :=
  { w with scopes := w.scopes.modify si (·.modify ti f) }

def openScope (w : Table V) : Table V :=
  { w with scopes := w.scopes ++ [[]], closed := w.closed ++ [false] }

def innermostOpen (w : Table V) : Option Nat := rposition (!·) w.closed

/-- `register_task`, for a cooperative task or a real isolate. With no scope there is no task and no handle. -/
def registerTask (w : Table V) (real : Bool) : Table V :=
  match w.innermostOpen with
  | none => w
  | some si =>
    let ti := (w.scopes[si]?.getD []).length
    { w with
      scopes := w.scopes.modify si (· ++ [{ id := w.next, isolate := if real then some w.isolates else none }])
      isolates := if real then w.isolates + 1 else w.isolates
      handles := w.handles ++ [⟨si, ti, w.next⟩]
      next := w.next + 1 }

/-- `poll_all_scopes_round` starts a poll of the task at `si`, `ti`. -/
def beginPoll (w : Table V) (si ti : Nat) : Table V :=
  match w.task? si ti with
  | none => w
  | some t =>
    if t.result.isNone && !t.cancelled && !t.polling then
      { w.modifyTask si ti fun t => { t with polling := true } with polls := ⟨si, ti, t.id⟩ :: w.polls }
    else w

/-- The innermost poll comes back, to the indices it started with. -/
def endPoll (w : Table V) (outcome : Outcome V) : Table V :=
  match w.polls with
  | [] => w
  | p :: polls =>
    { w.modifyTask p.scope p.task fun t =>
        match outcome with
        | .pending => { t with polling := false }
        | .ready value => { t with polling := false, result := some ⟨value, p.id⟩ }
        | .cancelled => { t with polling := false, cancelled := true } with
      polls }

def cancelTask (w : Table V) (h : Handle) : Table V :=
  match w.task? h.scope h.task with
  | none => w
  | some t =>
    if t.result.isSome then w
    else
      match t.isolate with
      | some n => { w with requested := n :: w.requested }
      | none => w.modifyTask h.scope h.task fun t => { t with cancelled := true }

/-- `close_scope`: the slot becomes a tombstone, and trailing tombstones are popped. -/
def closeScope (w : Table V) (si : Nat) : Table V :=
  let closed := (w.closed.set si true).rdropWhile id
  { w with scopes := (w.scopes.set si []).take closed.length, closed }

/-- `poll_once_inner` on a handle. -/
def pollHandle (w : Table V) (unit : V) (h : Handle) : Outcome V :=
  match w.task? h.scope h.task with
  | some t =>
    match t.result with
    | some a => .ready a.value
    | none => .pending
  | none => .ready unit

def handleCancelled (w : Table V) (h : Handle) : Bool :=
  match w.task? h.scope h.task with
  | some t => t.result.isNone && t.cancelled
  | none => false

/-- One turn of the loop of `drive_future_outcome` on a handle: the outcome of `join`, or `none` if it drives on. -/
def joinTask (w : Table V) (unit : V) (h : Handle) : Option (Option V) :=
  match w.pollHandle unit h with
  | .ready v => some (some v)
  | .cancelled => some none
  | .pending => if w.handleCancelled h then some none else none

/-- What changes the table. Rounds poll tasks by their indices, and polls nest. -/
inductive Op (V : Type) where
  | open
  | register (real : Bool)
  | beginPoll (si ti : Nat)
  | endPoll (outcome : Outcome V)
  | cancel (h : Handle)
  | close (si : Nat)

def step (w : Table V) : Op V → Table V
  | .open => w.openScope
  | .register real => w.registerTask real
  | .beginPoll si ti => w.beginPoll si ti
  | .endPoll outcome => w.endPoll outcome
  | .cancel h => w.cancelTask h
  | .close si => w.closeScope si

/-- A handle is used only once it was made, and a scope is closed by an index in range. -/
def Enabled (w : Table V) : Op V → Prop
  | .cancel h => h ∈ w.handles
  | .close si => si < w.scopes.length
  -- otherwise the write panics
  | .endPoll _ => ∀ p ∈ w.polls.head?, (w.task? p.scope p.task).isSome
  | _ => True

/-- The two vectors go together: a tombstone has no tasks, and there is none at the end. -/
structure WellFormed (w : Table V) : Prop where
  length : w.closed.length = w.scopes.length
  buried : ∀ si : Nat, w.closed[si]? = some true → w.scopes[si]? = some []
  last : w.closed.getLast? ≠ some true

theorem task?_modifyTask (w : Table V) (si ti : Nat) (f : Task V → Task V) (sj tj : Nat) :
    (w.modifyTask si ti f).task? sj tj = if sj = si ∧ tj = ti then (w.task? si ti).map f else w.task? sj tj :=
  nth_modify ..

theorem task?_openScope (w : Table V) (si ti : Nat) : w.openScope.task? si ti = w.task? si ti :=
  nth_concat ..

theorem rposition_spec {α : Type} {p : α → Bool} {l : List α} {i : Nat} (h : rposition p l = some i) :
    ∃ a, l[i]? = some a ∧ p a := by
  induction l generalizing i with
  | nil => exact absurd h (by simp [rposition])
  | cons a l ih =>
    unfold rposition at h
    cases hr : rposition p l with
    | some j =>
      rw [hr] at h
      obtain rfl := Option.some.inj h
      rw [List.getElem?_cons_succ]
      exact ih hr
    | none =>
      rw [hr] at h
      by_cases ha : p a
      · rw [if_pos ha] at h
        obtain rfl := Option.some.inj h
        exact ⟨a, rfl, ha⟩
      · rw [if_neg ha] at h
        exact absurd h (by simp)

variable {w : Table V}

theorem WellFormed.innermostOpen (h : w.WellFormed) {si : Nat} (hi : w.innermostOpen = some si) :
    w.closed[si]? = some false ∧ ∃ scope, w.scopes[si]? = some scope := by
  obtain ⟨b, hb, hp⟩ := rposition_spec hi
  have hlt : si < w.scopes.length := by
    rw [← h.length]
    exact (List.getElem?_eq_some_iff.mp hb).1
  refine ⟨?_, w.scopes[si], List.getElem?_eq_getElem hlt⟩
  rw [hb]
  simpa using hp

theorem task?_registerTask (real : Bool) {si : Nat} {scope : List (Task V)}
    (hi : w.innermostOpen = some si) (hs : w.scopes[si]? = some scope) (sj tj : Nat) :
    (w.registerTask real).task? sj tj =
      if sj = si ∧ tj = scope.length then
        some { id := w.next, isolate := if real then some w.isolates else none }
      else w.task? sj tj := by
  unfold registerTask task?
  simp only [hi]
  rw [List.getElem?_modify]
  by_cases hsj : sj = si
  · rw [hsj, hs]
    rcases Nat.lt_trichotomy tj scope.length with ht | ht | ht
    · simp [List.getElem?_append_left ht, ht.ne]
    · simp [ht]
    · have hnew : (scope ++ [({ id := w.next, isolate := if real then some w.isolates else none } : Task V)])[tj]? =
          none := List.getElem?_eq_none (by rw [List.length_append]; exact ht)
      simp [hnew, List.getElem?_eq_none ht.le, ht.ne']
  · cases h : w.scopes[sj]? with
    | none => simp [hsj]
    | some s => simp [hsj, Ne.symm hsj]

theorem getElem?_of_rdropWhile_length_le {α : Type} {p : α → Bool} {l : List α} {i : Nat} {a : α}
    (hle : (l.rdropWhile p).length ≤ i) (h : l[i]? = some a) : p a := by
  have happ : l.rdropWhile p ++ l.rtakeWhile p = l := List.rdropWhile_append_rtakeWhile
  rw [← happ, List.getElem?_append_right hle] at h
  exact List.mem_rtakeWhile_imp (List.mem_of_getElem? h)

theorem WellFormed.task?_closeScope (h : w.WellFormed) (si sj tj : Nat) :
    (w.closeScope si).task? sj tj = if sj = si then none else w.task? sj tj := by
  unfold closeScope task?
  simp only
  rw [List.getElem?_take]
  by_cases hsj : sj = si
  · subst hsj
    rw [if_pos rfl]
    split_ifs
    · rw [List.getElem?_set]
      by_cases hlt : sj < w.scopes.length
      · simp [hlt]
      · simp [hlt]
    · rfl
  · rw [if_neg hsj]
    split_ifs with hlt
    · rw [List.getElem?_set_ne (Ne.symm hsj)]
    · -- the slot was popped, so it is a tombstone
      cases hc : w.closed[sj]? with
      | none =>
        have hlen : w.scopes.length ≤ sj := by
          rw [← h.length]
          exact List.getElem?_eq_none_iff.mp hc
        rw [List.getElem?_eq_none hlen]
      | some b =>
        have hset : (w.closed.set si true)[sj]? = some b := by rw [List.getElem?_set_ne (Ne.symm hsj), hc]
        have hb : b = true := getElem?_of_rdropWhile_length_le (Nat.le_of_not_lt hlt) hset
        rw [hb] at hc
        rw [h.buried sj hc]
        rfl

/-! ### The vectors stay together -/

theorem WellFormed.modify (h : w.WellFormed) (si : Nat) {f : List (Task V) → List (Task V)}
    (hf : f [] = [] ∨ w.closed[si]? = some false) {scopes : List (List (Task V))}
    (hs : scopes = w.scopes.modify si f) {u : Table V} (hu : u.scopes = scopes) (hc : u.closed = w.closed) :
    u.WellFormed := by
  refine ⟨?_, fun sj hj => ?_, ?_⟩
  · rw [hc, hu, hs, List.length_modify, h.length]
  · rw [hc] at hj
    have hnil := h.buried sj hj
    rw [hu, hs, List.getElem?_modify, hnil]
    by_cases hsj : si = sj
    · rcases hf with hf | hf
      · simp [hf]
      · rw [hsj, hj] at hf
        exact absurd hf (by simp)
    · simp [hsj]
  · rw [hc]
    exact h.last

theorem WellFormed.congr {w u : Table V} (h : w.WellFormed) (hs : u.scopes = w.scopes) (hc : u.closed = w.closed) :
    u.WellFormed := by
  refine ⟨?_, ?_, ?_⟩
  · rw [hs, hc]
    exact h.length
  · rw [hs, hc]
    exact h.buried
  · rw [hc]
    exact h.last

theorem WellFormed.modifyTask (h : w.WellFormed) (si ti : Nat) (f : Task V → Task V) :
    (w.modifyTask si ti f).WellFormed :=
  h.modify si (f := (·.modify ti f)) (Or.inl (by cases ti <;> rfl)) rfl rfl rfl

theorem WellFormed.openScope (h : w.WellFormed) : w.openScope.WellFormed := by
  refine ⟨by simp [Table.openScope, h.length], fun si hsi => ?_, by simp [Table.openScope]⟩
  unfold Table.openScope at hsi ⊢
  simp only at hsi ⊢
  rcases Nat.lt_or_ge si w.closed.length with hlt | hge
  · rw [List.getElem?_append_left hlt] at hsi
    rw [List.getElem?_append_left (by rw [← h.length]; exact hlt)]
    exact h.buried si hsi
  · rw [List.getElem?_append_right hge] at hsi
    exact absurd (List.mem_of_getElem? hsi) (by simp)

theorem WellFormed.registerTask (h : w.WellFormed) (real : Bool) : (w.registerTask real).WellFormed := by
  unfold Table.registerTask
  cases hi : w.innermostOpen with
  | none => exact h
  | some si => exact h.modify si (Or.inr (h.innermostOpen hi).1) rfl rfl rfl

theorem WellFormed.closeScope (h : w.WellFormed) (si : Nat) : (w.closeScope si).WellFormed := by
  have hpre : (w.closed.set si true).rdropWhile id <+: w.closed.set si true := List.rdropWhile_prefix id _
  have hle : ((w.closed.set si true).rdropWhile id).length ≤ w.scopes.length := by
    have := hpre.length_le
    rw [List.length_set, h.length] at this
    exact this
  refine ⟨?_, fun sj hj => ?_, fun hlast => ?_⟩
  · simp only [Table.closeScope, List.length_take, List.length_set]
    omega
  · simp only [Table.closeScope] at hj ⊢
    have hlt : sj < ((w.closed.set si true).rdropWhile id).length := (List.getElem?_eq_some_iff.mp hj).1
    have hset : (w.closed.set si true)[sj]? = some true := by
      obtain ⟨rest, hrest⟩ := hpre
      rw [← hrest, List.getElem?_append_left hlt, hj]
    rw [List.getElem?_take, if_pos hlt]
    by_cases hsj : si = sj
    · rw [hsj, List.getElem?_set_self (by omega)]
    · rw [List.getElem?_set_ne hsj] at hset ⊢
      exact h.buried sj hset
  · simp only [Table.closeScope] at hlast
    have hne : (w.closed.set si true).rdropWhile id ≠ [] := by
      intro hnil
      rw [hnil] at hlast
      exact absurd hlast (by simp)
    have hnot := List.rdropWhile_last_not id (w.closed.set si true) hne
    rw [List.getLast?_eq_some_getLast hne] at hlast
    exact hnot (Option.some.inj hlast)

theorem WellFormed.step (h : w.WellFormed) (op : Op V) : (w.step op).WellFormed := by
  cases op with
  | «open» => exact h.openScope
  | register real => exact h.registerTask real
  | beginPoll si ti =>
    unfold Table.step Table.beginPoll
    simp only
    split
    · exact h
    · split_ifs
      · exact (h.modifyTask si ti _).congr rfl rfl
      · exact h
  | endPoll outcome =>
    unfold Table.step Table.endPoll
    simp only
    split
    · exact h
    · rename_i p polls _
      exact (h.modifyTask p.scope p.task _).congr rfl rfl
  | cancel handle =>
    unfold Table.step Table.cancelTask
    simp only
    split
    · exact h
    · split_ifs
      · exact h
      · split
        · exact h.congr rfl rfl
        · exact h.modifyTask _ _ _
  | close si => exact h.closeScope si

end Table

end Noeta.Sched
