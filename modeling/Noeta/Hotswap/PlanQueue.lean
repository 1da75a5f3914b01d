import Mathlib.Data.List.Basic
import Mathlib.Data.List.Range

/-!
# The hot-swap broadcast queue

`PlanQueue` / `HotChannel` of `noeta-vm/src/hotswap.rs`: a watcher deposits plans, every VM of a
fleet drains them through its own cursor, and a drain reclaims the payload of the generations the
whole fleet has passed. Every operation runs under the queue's lock, so a run is a list of
operations. A slice bound or an `expect` that fails is the result `none`.

The model is the release build: `register` beyond the declared count goes past its
`debug_assert!` and starts the surplus consumer at the frontier.
-/

namespace Noeta.Hotswap

variable {P : Type}

/-- The queue behind a channel. A cursor `none` is `RETIRED` (`usize::MAX`), which lies above every
generation. -/
structure PlanQueue (P : Type) where
  /-- Generation → the plan, or `none` once it is tombstoned. -/
  plans : List (Option P)
  /-- One cursor per consumer: the generation it drains from next. -/
  cursors : List (Option Nat)
  /-- How many cursors `register` has handed out. -/
  claimed : Nat
  /-- Generations below this are tombstoned. -/
  reclaimed : Nat
deriving DecidableEq, Repr

namespace PlanQueue

def new (consumers : Nat) : PlanQueue P :=
  { plans := [], cursors := List.replicate (max consumers 1) (some 0), claimed := 0, reclaimed := 0 }

def deposit (q : PlanQueue P) (plan : P) : PlanQueue P :=
  { q with plans := q.plans ++ [some plan] }

/-- `register`: the next declared cursor, or a new one at the frontier. -/
def register (q : PlanQueue P) : PlanQueue P × Nat :=
  if q.claimed < q.cursors.length then
    ({ q with claimed := q.claimed + 1 }, q.claimed)
  else
    ({ q with cursors := q.cursors ++ [some q.reclaimed], claimed := q.claimed + 1 },
      q.cursors.length)

def retire (q : PlanQueue P) (slot : Nat) : PlanQueue P :=
  { q with cursors := q.cursors.set slot none }

/-- The least cursor, capped at the queue's length: under the cap a retired cursor counts as the
length. -/
def frontier (q : PlanQueue P) : Nat :=
  if q.cursors.isEmpty then 0
  else q.cursors.foldr (fun c m => min (c.getD q.plans.length) m) q.plans.length

/-- `collect`: tombstone `plans[reclaimed..frontier]` and hand back what the slots held. -/
def collect (q : PlanQueue P) : Option (PlanQueue P × List P) :=
  let frontier := q.frontier
  -- a slice whose start lies past its end panics
  if frontier < q.reclaimed then none
  else
    let passed := (q.plans.drop q.reclaimed).take (frontier - q.reclaimed)
    some ({ q with
        plans := q.plans.take q.reclaimed ++ passed.map (fun _ => none) ++ q.plans.drop frontier
        reclaimed := max q.reclaimed frontier },
      passed.filterMap id)

/-- `drain`: everything the consumer has not drained yet, or `none` inside when nothing is
pending. The outer `none` is a panic. -/
def drain (q : PlanQueue P) (slot : Nat) : Option (PlanQueue P × Option (List P)) :=
  match q.cursors[slot]? with
  | none => some (q, none)
  | some none => some (q, none)
  | some (some start) =>
    if q.plans.length ≤ start then some (q, none)
    else
      -- the `expect`: a tombstoned generation in the pending range panics
      match (q.plans.drop start).mapM id with
      | none => none
      | some pending =>
        match collect { q with cursors := q.cursors.set slot (some q.plans.length) } with
        | none => none
        | some (q', _) => some (q', some pending)

end PlanQueue

/-- One call on the channel. -/
inductive Op (P : Type) where
  | deposit (plan : P)
  | register
  | drain (slot : Nat)
  | retire (slot : Nat)

/-- What a call did and returned. -/
inductive Event (P : Type) where
  | deposited (plan : P)
  | registered (slot : Nat)
  | drained (slot : Nat) (pending : Option (List P))
  | retired (slot : Nat)
deriving DecidableEq, Repr

def PlanQueue.step (q : PlanQueue P) : Op P → Option (PlanQueue P × Event P)
  | .deposit plan => some (q.deposit plan, .deposited plan)
  | .register => some (q.register.1, .registered q.register.2)
  | .drain slot => (q.drain slot).map fun r => (r.1, .drained slot r.2)
  | .retire slot => some (q.retire slot, .retired slot)

/-- A run of a channel declared for `n` consumers, with what its calls did. -/
inductive Run (n : Nat) : List (Event P) → PlanQueue P → Prop
  | new : Run n [] (PlanQueue.new n)
  | step {evs q op q' e} : Run n evs q → q.step op = some (q', e) → Run n (evs ++ [e]) q'

/-- The plans deposited so far, in order: a plan's place is its generation. -/
def deposits (evs : List (Event P)) : List P :=
  evs.filterMap fun
    | .deposited plan => some plan
    | _ => none

/-- The cursors handed out so far. -/
def registrations (evs : List (Event P)) : List Nat :=
  evs.filterMap fun
    | .registered slot => some slot
    | _ => none

/-- What one drain gave the consumer `slot`. -/
def Event.given (slot : Nat) : Event P → List P
  | .drained s pending => if s = slot then pending.getD [] else []
  | _ => []

/-- Everything the consumer `slot` has been given, in order. -/
def received (slot : Nat) (evs : List (Event P)) : List P :=
  evs.flatMap (Event.given slot)

section Events

@[simp]
theorem deposits_append (evs : List (Event P)) (e : Event P) :
    deposits (evs ++ [e]) = deposits evs ++ deposits [e] :=
  List.filterMap_append

@[simp]
theorem deposits_deposited (plan : P) : deposits [Event.deposited plan] = [plan] := rfl

@[simp]
theorem deposits_registered (slot : Nat) : deposits [(Event.registered slot : Event P)] = [] := rfl

@[simp]
theorem deposits_drained (slot : Nat) (pending : Option (List P)) :
    deposits [Event.drained slot pending] = [] := rfl

@[simp]
theorem deposits_retired (slot : Nat) : deposits [(Event.retired slot : Event P)] = [] := rfl

@[simp]
theorem registrations_append (evs : List (Event P)) (e : Event P) :
    registrations (evs ++ [e]) = registrations evs ++ registrations [e] :=
  List.filterMap_append

@[simp]
theorem registrations_deposited (plan : P) : registrations [Event.deposited plan] = [] := rfl

@[simp]
theorem registrations_registered (slot : Nat) :
    registrations [(Event.registered slot : Event P)] = [slot] := rfl

@[simp]
theorem registrations_drained (slot : Nat) (pending : Option (List P)) :
    registrations [Event.drained slot pending] = [] := rfl

@[simp]
theorem registrations_retired (slot : Nat) :
    registrations [(Event.retired slot : Event P)] = [] := rfl

@[simp]
theorem received_append (slot : Nat) (evs : List (Event P)) (e : Event P) :
    received slot (evs ++ [e]) = received slot evs ++ e.given slot := by
  simp [received]

end Events

/-! ### The frontier -/

theorem foldr_min_le (l : List (Option Nat)) (len : Nat) :
    l.foldr (fun c m => min (c.getD len) m) len ≤ len := by
  induction l with
  | nil => exact Nat.le_refl _
  | cons c l ih => exact Nat.le_trans (Nat.min_le_right _ _) ih

theorem foldr_min_le_cursor (l : List (Option Nat)) (len slot c : Nat)
    (h : l[slot]? = some (some c)) : l.foldr (fun c m => min (c.getD len) m) len ≤ c := by
  induction l generalizing slot with
  | nil => simp at h
  | cons d l ih =>
    cases slot with
    | zero =>
      simp only [List.getElem?_cons_zero, Option.some.injEq] at h
      subst h
      exact Nat.min_le_left _ _
    | succ slot =>
      rw [List.getElem?_cons_succ] at h
      exact Nat.le_trans (Nat.min_le_right _ _) (ih slot h)

theorem le_foldr_min (l : List (Option Nat)) (len b : Nat) (hlen : b ≤ len)
    (h : ∀ (slot c : Nat), l[slot]? = some (some c) → b ≤ c) :
    b ≤ l.foldr (fun c m => min (c.getD len) m) len := by
  induction l with
  | nil => exact hlen
  | cons d l ih =>
    simp only [List.foldr_cons]
    refine Nat.le_min.2 ⟨?_, ih fun slot c hc => h (slot + 1) c (by simpa using hc)⟩
    cases d with
    | none => exact hlen
    | some c => exact h 0 c rfl

namespace PlanQueue

theorem frontier_le_length (q : PlanQueue P) : q.frontier ≤ q.plans.length := by
  unfold frontier
  split
  · exact Nat.zero_le _
  · exact foldr_min_le _ _

theorem frontier_le_cursor (q : PlanQueue P) (slot c : Nat)
    (h : q.cursors[slot]? = some (some c)) : q.frontier ≤ c := by
  unfold frontier
  split
  · exact Nat.zero_le _
  · exact foldr_min_le_cursor _ _ slot c h

theorem le_frontier (q : PlanQueue P) (b : Nat) (hne : q.cursors ≠ []) (hlen : b ≤ q.plans.length)
    (h : ∀ (slot c : Nat), q.cursors[slot]? = some (some c) → b ≤ c) : b ≤ q.frontier := by
  unfold frontier
  rw [if_neg (by simpa using hne)]
  exact le_foldr_min _ _ _ hlen h

end PlanQueue

/-! ### The invariant of a run -/

/-- What generation `g` holds of its plan when the frontier is `reclaimed`. -/
def held (reclaimed g : Nat) (plan : P) : Option P :=
  if g < reclaimed then none else some plan

/-- What a queue keeps through every run: the slots below the frontier are empty and the others
hold what was deposited, no live cursor lies behind the frontier, and a declared consumer has been
given exactly the generations before its cursor. -/
structure Inv (n : Nat) (evs : List (Event P)) (q : PlanQueue P) : Prop where
  plans_eq : ∀ g : Nat, q.plans[g]? = (deposits evs)[g]?.map (held q.reclaimed g)
  reclaimed_le : q.reclaimed ≤ q.plans.length
  cursor_bounds : ∀ slot c : Nat, q.cursors[slot]? = some (some c) →
    q.reclaimed ≤ c ∧ c ≤ q.plans.length
  declared : max n 1 ≤ q.cursors.length
  claimed_le : q.claimed ≤ q.cursors.length
  registrations_eq : registrations evs = List.range q.claimed
  delivered : ∀ slot : Nat, slot < max n 1 → ∃ m, received slot evs = (deposits evs).take m ∧
    ∀ c, q.cursors[slot]? = some (some c) → m = c

namespace Inv

variable {n : Nat} {evs : List (Event P)} {q : PlanQueue P}

theorem length_eq (h : Inv n evs q) : q.plans.length = (deposits evs).length := by
  apply Nat.le_antisymm
  · by_contra hlt
    have hg := h.plans_eq (deposits evs).length
    rw [List.getElem?_eq_getElem (by omega)] at hg
    simp at hg
  · by_contra hlt
    have hg := h.plans_eq q.plans.length
    rw [List.getElem?_eq_none (Nat.le_refl _), List.getElem?_eq_getElem (by omega)] at hg
    simp at hg

theorem new (n : Nat) : Inv n ([] : List (Event P)) (PlanQueue.new n) where
  plans_eq g := by simp [PlanQueue.new, deposits]
  reclaimed_le := Nat.zero_le _
  cursor_bounds slot c hc := by
    simp only [PlanQueue.new, List.getElem?_replicate] at hc
    split at hc
    · simp only [Option.some.injEq] at hc
      subst hc
      exact ⟨Nat.le_refl _, Nat.le_refl _⟩
    · simp at hc
  declared := by simp [PlanQueue.new]
  claimed_le := Nat.zero_le _
  registrations_eq := rfl
  delivered slot hslot := by
    refine ⟨0, rfl, ?_⟩
    intro c hc
    simp only [PlanQueue.new, List.getElem?_replicate, if_pos hslot, Option.some.injEq] at hc
    exact hc

theorem deposit (h : Inv n evs q) (plan : P) :
    Inv n (evs ++ [.deposited plan]) (q.deposit plan) where
  plans_eq g := by
    have hlen := h.length_eq
    have hrec := h.reclaimed_le
    simp only [PlanQueue.deposit, deposits_append, deposits_deposited]
    rcases Nat.lt_or_ge g q.plans.length with hg | hg
    · rw [List.getElem?_append_left hg, List.getElem?_append_left (by omega), h.plans_eq g]
    · rw [List.getElem?_append_right hg, List.getElem?_append_right (by omega), hlen]
      rcases Nat.eq_zero_or_pos (g - (deposits evs).length) with h0 | h0
      · rw [h0]
        simp only [List.getElem?_cons_zero, Option.map_some, held]
        rw [if_neg (by omega)]
      · rw [List.getElem?_eq_none (by simp; omega), List.getElem?_eq_none (by simp; omega)]
        rfl
  reclaimed_le := by
    have := h.reclaimed_le
    simp only [PlanQueue.deposit, List.length_append]
    omega
  cursor_bounds slot c hc := by
    have hb := h.cursor_bounds slot c hc
    refine ⟨hb.1, ?_⟩
    simp only [PlanQueue.deposit, List.length_append]
    omega
  declared := h.declared
  claimed_le := h.claimed_le
  registrations_eq := by simpa [PlanQueue.deposit] using h.registrations_eq
  delivered slot hslot := by
    -- a retired consumer keeps the generations it had passed, whatever is deposited after it
    obtain ⟨m, hm, hc⟩ := h.delivered slot hslot
    have hlen := h.length_eq
    refine ⟨min m (deposits evs).length, ?_, ?_⟩
    · simp only [received_append, deposits_append, deposits_deposited, Event.given,
        List.append_nil, hm]
      rw [List.take_append_of_le_length (Nat.min_le_right _ _)]
      rcases Nat.le_total m (deposits evs).length with hle | hle
      · rw [Nat.min_eq_left hle]
      · rw [Nat.min_eq_right hle, List.take_of_length_le hle, List.take_length]
    · intro c hcur
      have hb := h.cursor_bounds slot c hcur
      have := hc c hcur
      omega

theorem register (h : Inv n evs q) :
    Inv n (evs ++ [.registered q.register.2]) q.register.1 := by
  by_cases hc : q.claimed < q.cursors.length
  · simp only [PlanQueue.register, if_pos hc]
    exact
      { plans_eq := by simpa using h.plans_eq
        reclaimed_le := h.reclaimed_le
        cursor_bounds := h.cursor_bounds
        declared := h.declared
        claimed_le := hc
        registrations_eq := by simp [h.registrations_eq, List.range_succ]
        delivered := by simpa [Event.given] using h.delivered }
  · simp only [PlanQueue.register, if_neg hc]
    have hclaimed : q.claimed = q.cursors.length := by have := h.claimed_le; omega
    refine
      { plans_eq := by simpa using h.plans_eq
        reclaimed_le := h.reclaimed_le
        cursor_bounds := ?_
        declared := ?_
        claimed_le := ?_
        registrations_eq := by simp [h.registrations_eq, List.range_succ, hclaimed]
        delivered := ?_ }
    · intro slot c hcur
      rcases Nat.lt_or_ge slot q.cursors.length with hs | hs
      · rw [List.getElem?_append_left hs] at hcur
        exact h.cursor_bounds slot c hcur
      · -- the surplus consumer starts at the frontier itself
        rw [List.getElem?_append_right hs] at hcur
        have : c = q.reclaimed := by
          rcases Nat.eq_zero_or_pos (slot - q.cursors.length) with h0 | h0
          · rw [h0] at hcur
            simp only [List.getElem?_cons_zero, Option.some.injEq] at hcur
            exact hcur.symm
          · rw [List.getElem?_eq_none (by simp; omega)] at hcur
            simp at hcur
        subst this
        exact ⟨Nat.le_refl _, h.reclaimed_le⟩
    · have := h.declared
      simp only [List.length_append]
      omega
    · simp only [List.length_append, List.length_cons, List.length_nil]
      omega
    · intro slot hslot
      obtain ⟨m, hm, hcur⟩ := h.delivered slot hslot
      have hs : slot < q.cursors.length := by have := h.declared; omega
      refine ⟨m, by simpa [Event.given] using hm, ?_⟩
      intro c hcc
      rw [List.getElem?_append_left hs] at hcc
      exact hcur c hcc

theorem retire (h : Inv n evs q) (slot : Nat) : Inv n (evs ++ [.retired slot]) (q.retire slot) where
  plans_eq := by simpa [PlanQueue.retire] using h.plans_eq
  reclaimed_le := h.reclaimed_le
  cursor_bounds s c hc := by
    simp only [PlanQueue.retire, List.getElem?_set] at hc
    split at hc
    · split at hc <;> simp at hc
    · exact h.cursor_bounds s c hc
  declared := by simpa [PlanQueue.retire] using h.declared
  claimed_le := by simpa [PlanQueue.retire] using h.claimed_le
  registrations_eq := by simpa [PlanQueue.retire] using h.registrations_eq
  delivered s hs := by
    obtain ⟨m, hm, hcur⟩ := h.delivered s hs
    refine ⟨m, by simpa [Event.given] using hm, ?_⟩
    intro c hc
    simp only [PlanQueue.retire, List.getElem?_set] at hc
    split at hc
    · split at hc <;> simp at hc
    · exact hcur c hc

end Inv

/-! ### One drain -/

/-- The consumer has something to drain. -/
def Pending (q : PlanQueue P) (slot : Nat) : Prop :=
  ∃ start, q.cursors[slot]? = some (some start) ∧ start < q.plans.length

theorem mapM_id_map_some (l : List P) : (l.map some).mapM id = some l := by
  induction l with
  | nil => rfl
  | cons p l ih =>
    rw [List.map_cons, List.mapM_cons, ih]
    rfl

namespace PlanQueue

theorem drain_idle (q : PlanQueue P) (slot : Nat) (h : ¬ Pending q slot) :
    q.drain slot = some (q, none) := by
  unfold drain
  split
  · rfl
  · rfl
  · rename_i start hc
    rw [if_pos]
    by_contra hlt
    exact h ⟨start, hc, by omega⟩

/-- The generations a collection leaves: those between the old and the new frontier are emptied. -/
theorem collect_spec (q : PlanQueue P) (h : q.reclaimed ≤ q.frontier) :
    ∃ q' freed, q.collect = some (q', freed) ∧ q'.cursors = q.cursors ∧ q'.claimed = q.claimed ∧
      q'.reclaimed = q.frontier ∧ q'.plans.length = q.plans.length ∧
      ∀ g, q'.plans[g]? =
        if q.reclaimed ≤ g ∧ g < q.frontier then q.plans[g]?.map (fun _ => none)
        else q.plans[g]? := by
  have hlen := q.frontier_le_length
  obtain ⟨q', freed, hcol, rfl⟩ : ∃ q' freed, q.collect = some (q', freed) ∧ q' =
      { q with
        plans := q.plans.take q.reclaimed ++
          ((q.plans.drop q.reclaimed).take (q.frontier - q.reclaimed)).map (fun _ => none) ++
          q.plans.drop q.frontier
        reclaimed := max q.reclaimed q.frontier } :=
    ⟨_, _, if_neg (by omega), rfl⟩
  refine ⟨_, _, hcol, rfl, rfl, Nat.max_eq_right h, ?_, ?_⟩
  · simp only [List.length_append, List.length_map, List.length_take, List.length_drop]
    omega
  · intro g
    simp only [List.append_assoc]
    rcases Nat.lt_or_ge g q.reclaimed with hlow | hlow
    · rw [List.getElem?_append_left (by simp; omega), List.getElem?_take_of_lt hlow,
        if_neg (by omega)]
    · rw [List.getElem?_append_right (by simp; omega)]
      have htake : (q.plans.take q.reclaimed).length = q.reclaimed := by simp; omega
      rw [htake]
      rcases Nat.lt_or_ge g q.frontier with hmid | hmid
      · rw [List.getElem?_append_left (by simp; omega), if_pos ⟨hlow, hmid⟩, List.getElem?_map,
          List.getElem?_take_of_lt (by omega), List.getElem?_drop,
          show q.reclaimed + (g - q.reclaimed) = g by omega]
      · rw [List.getElem?_append_right (by simp; omega), List.getElem?_drop, if_neg (by omega)]
        congr 1
        simp only [List.length_map, List.length_take, List.length_drop]
        omega

end PlanQueue

namespace Inv

variable {n : Nat} {evs : List (Event P)} {q : PlanQueue P}

theorem pending_eq (h : Inv n evs q) (start : Nat) (hs : q.reclaimed ≤ start) :
    (q.plans.drop start).mapM id = some ((deposits evs).drop start) := by
  have : q.plans.drop start = ((deposits evs).drop start).map some := by
    apply List.ext_getElem?
    intro i
    rw [List.getElem?_drop, h.plans_eq, List.getElem?_map, List.getElem?_drop]
    cases (deposits evs)[start + i]? with
    | none => rfl
    | some plan =>
      simp only [Option.map_some, held]
      rw [if_neg (by omega)]
  rw [this]
  exact mapM_id_map_some _

theorem frontier_ge (h : Inv n evs q) (slot : Nat) :
    q.reclaimed ≤ ({ q with cursors := q.cursors.set slot (some q.plans.length) } :
      PlanQueue P).frontier := by
  apply PlanQueue.le_frontier
  · have := h.declared
    intro hnil
    have hz : (q.cursors.set slot (some q.plans.length)).length = 0 := by
      simp only at hnil
      rw [hnil]
      rfl
    rw [List.length_set] at hz
    omega
  · exact h.reclaimed_le
  · intro s c hc
    simp only [List.getElem?_set] at hc
    split at hc
    · split at hc
      · simp only [Option.some.injEq] at hc
        have := h.reclaimed_le
        omega
      · simp at hc
    · exact (h.cursor_bounds s c hc).1

/-- A drain that finds something pending: it hands over all of it, moves the cursor to the end and
reclaims up to the least cursor. -/
theorem drain_pending (h : Inv n evs q) (slot start : Nat)
    (hcur : q.cursors[slot]? = some (some start)) (hlt : start < q.plans.length) :
    ∃ q', q.drain slot = some (q', some ((deposits evs).drop start)) ∧
      q'.cursors = q.cursors.set slot (some q.plans.length) ∧ q'.claimed = q.claimed ∧
      q'.plans.length = q.plans.length ∧ q.reclaimed ≤ q'.reclaimed ∧
      q'.reclaimed = q'.frontier ∧
      ∀ g : Nat, q'.plans[g]? = (deposits evs)[g]?.map (held q'.reclaimed g) := by
  have hb := h.cursor_bounds slot start hcur
  have hge := h.frontier_ge slot
  obtain ⟨q', freed, hcol, hcs, hcl, hrec, hlen, hplans⟩ := PlanQueue.collect_spec
    ({ q with cursors := q.cursors.set slot (some q.plans.length) } : PlanQueue P) hge
  refine ⟨q', ?_, hcs, hcl, hlen, by omega, ?_, ?_⟩
  · simp only [PlanQueue.drain, hcur]
    rw [if_neg (by omega), h.pending_eq start hb.1]
    simp only [hcol]
  · rw [hrec]
    simp only [PlanQueue.frontier, hcs, hlen]
  · intro g
    rw [hplans g]
    simp only
    have hq := h.plans_eq g
    rw [← hrec]
    cases hd : (deposits evs)[g]? with
    | none =>
      rw [hd] at hq
      rw [hq]
      simp
    | some plan =>
      rw [hd] at hq
      rw [hq]
      simp only [Option.map_some, held]
      split_ifs <;> first | rfl | omega

theorem drain (h : Inv n evs q) (slot : Nat) {q' : PlanQueue P} {pending : Option (List P)}
    (hd : q.drain slot = some (q', pending)) : Inv n (evs ++ [.drained slot pending]) q' := by
  by_cases hp : Pending q slot
  · obtain ⟨start, hcur, hlt⟩ := hp
    obtain ⟨q₁, hd₁, hcs, hcl, hlen, hmono, hfront, hplans⟩ := h.drain_pending slot start hcur hlt
    rw [hd₁] at hd
    simp only [Option.some.injEq, Prod.mk.injEq] at hd
    obtain ⟨rfl, rfl⟩ := hd
    have hb := h.cursor_bounds slot start hcur
    have hslot : slot < q.cursors.length := (List.getElem?_eq_some_iff.1 hcur).1
    refine
      { plans_eq := by simpa using hplans
        reclaimed_le := by rw [hfront]; exact q₁.frontier_le_length
        cursor_bounds := ?_
        declared := by rw [hcs, List.length_set]; exact h.declared
        claimed_le := by rw [hcs, hcl, List.length_set]; exact h.claimed_le
        registrations_eq := by simpa [hcl] using h.registrations_eq
        delivered := ?_ }
    · intro s c hc
      refine ⟨by rw [hfront]; exact q₁.frontier_le_cursor s c hc, ?_⟩
      rw [hcs, List.getElem?_set, if_pos hslot] at hc
      rw [hlen]
      split at hc
      · simp only [Option.some.injEq] at hc
        omega
      · exact (h.cursor_bounds s c hc).2
    · intro s hs
      obtain ⟨m, hm, hc⟩ := h.delivered s hs
      have hdep : deposits (evs ++ [Event.drained slot (some ((deposits evs).drop start))]) =
          deposits evs := by simp
      rw [hdep, received_append, hcs]
      by_cases hss : slot = s
      · subst hss
        refine ⟨(deposits evs).length, ?_, ?_⟩
        · simp only [Event.given, if_true, Option.getD_some, List.take_length]
          rw [hm, hc start hcur, List.take_append_drop]
        · intro c hcc
          rw [List.getElem?_set_self hslot] at hcc
          simp only [Option.some.injEq] at hcc
          rw [← hcc, h.length_eq]
      · refine ⟨m, ?_, ?_⟩
        · simp [Event.given, hss, hm]
        · intro c hcc
          rw [List.getElem?_set_ne hss] at hcc
          exact hc c hcc
  · rw [q.drain_idle slot hp] at hd
    simp only [Option.some.injEq, Prod.mk.injEq] at hd
    obtain ⟨rfl, rfl⟩ := hd
    exact
      { plans_eq := by simpa using h.plans_eq
        reclaimed_le := h.reclaimed_le
        cursor_bounds := h.cursor_bounds
        declared := h.declared
        claimed_le := h.claimed_le
        registrations_eq := by simpa using h.registrations_eq
        delivered := by simpa [Event.given] using h.delivered }

theorem step_total (h : Inv n evs q) (op : Op P) : ∃ q' e, q.step op = some (q', e) := by
  cases op with
  | deposit plan => exact ⟨_, _, rfl⟩
  | register => exact ⟨_, _, rfl⟩
  | retire slot => exact ⟨_, _, rfl⟩
  | drain slot =>
    by_cases hp : Pending q slot
    · obtain ⟨start, hcur, hlt⟩ := hp
      obtain ⟨q', hd, -⟩ := h.drain_pending slot start hcur hlt
      exact ⟨_, _, by simp only [PlanQueue.step, hd]; rfl⟩
    · exact ⟨_, _, by simp only [PlanQueue.step, q.drain_idle slot hp]; rfl⟩

theorem step (h : Inv n evs q) {op : Op P} {q' : PlanQueue P} {e : Event P}
    (hs : q.step op = some (q', e)) : Inv n (evs ++ [e]) q' := by
  cases op with
  | deposit plan =>
    simp only [PlanQueue.step, Option.some.injEq, Prod.mk.injEq] at hs
    obtain ⟨rfl, rfl⟩ := hs
    exact h.deposit plan
  | register =>
    simp only [PlanQueue.step, Option.some.injEq, Prod.mk.injEq] at hs
    obtain ⟨rfl, rfl⟩ := hs
    exact h.register
  | retire slot =>
    simp only [PlanQueue.step, Option.some.injEq, Prod.mk.injEq] at hs
    obtain ⟨rfl, rfl⟩ := hs
    exact h.retire slot
  | drain slot =>
    simp only [PlanQueue.step, Option.map_eq_some_iff, Prod.mk.injEq] at hs
    obtain ⟨⟨q₁, pending⟩, hd, rfl, rfl⟩ := hs
    exact h.drain slot hd

theorem reclaimed_mono (h : Inv n evs q) {op : Op P} {q' : PlanQueue P} {e : Event P}
    (hs : q.step op = some (q', e)) : q.reclaimed ≤ q'.reclaimed := by
  cases op with
  | deposit plan =>
    simp only [PlanQueue.step, Option.some.injEq, Prod.mk.injEq] at hs
    obtain ⟨rfl, -⟩ := hs
    exact Nat.le_refl _
  | register =>
    simp only [PlanQueue.step, Option.some.injEq, Prod.mk.injEq] at hs
    obtain ⟨rfl, -⟩ := hs
    unfold PlanQueue.register
    split <;> exact Nat.le_refl _
  | retire slot =>
    simp only [PlanQueue.step, Option.some.injEq, Prod.mk.injEq] at hs
    obtain ⟨rfl, -⟩ := hs
    exact Nat.le_refl _
  | drain slot =>
    simp only [PlanQueue.step, Option.map_eq_some_iff, Prod.mk.injEq] at hs
    obtain ⟨⟨q₁, pending⟩, hd, rfl, -⟩ := hs
    by_cases hp : Pending q slot
    · obtain ⟨start, hcur, hlt⟩ := hp
      obtain ⟨q₂, hd₂, -, -, -, hmono, -⟩ := h.drain_pending slot start hcur hlt
      rw [hd₂] at hd
      simp only [Option.some.injEq, Prod.mk.injEq] at hd
      obtain ⟨rfl, -⟩ := hd
      exact hmono
    · rw [q.drain_idle slot hp] at hd
      simp only [Option.some.injEq, Prod.mk.injEq] at hd
      obtain ⟨rfl, -⟩ := hd
      exact Nat.le_refl _

end Inv

theorem Run.inv {n : Nat} {evs : List (Event P)} {q : PlanQueue P} (h : Run n evs q) :
    Inv n evs q := by
  induction h with
  | new => exact Inv.new n
  | step _ hs ih => exact ih.step hs

/-! ### What a run of the channel promises -/

/-- The broadcast, as seen from one state of a run. -/
structure Broadcasts (n : Nat) (evs : List (Event P)) (q : PlanQueue P) : Prop where
  /-- No call panics: a drain never meets a reclaimed generation. -/
  returns : ∀ op, ∃ q' e, q.step op = some (q', e)
  /-- A generation is the index of its deposit, tombstoned or not. -/
  generations : q.plans.length = (deposits evs).length ∧
    ∀ (g : Nat) (plan : P), q.plans[g]? = some (some plan) → (deposits evs)[g]? = some plan
  /-- No cursor is handed out twice. -/
  registered_once : (registrations evs).Nodup
  /-- A declared consumer has been given the first plans, each once and in order. -/
  in_order : ∀ slot, slot < max n 1 → received slot evs <+: deposits evs
  /-- A declared consumer that drains has been given every plan. -/
  caught_up : ∀ slot start : Nat, slot < max n 1 → q.cursors[slot]? = some (some start) →
    ∀ q' pending, q.drain slot = some (q', pending) →
      received slot (evs ++ [.drained slot pending]) = deposits evs
  /-- The frontier lies at or below every live cursor. -/
  frontier_le : ∀ slot start : Nat, q.cursors[slot]? = some (some start) → q.reclaimed ≤ start
  /-- The frontier never moves back. -/
  frontier_mono : ∀ op q' e, q.step op = some (q', e) → q.reclaimed ≤ q'.reclaimed

/-- Every plan that all live consumers have passed holds no payload. -/
def PassedReclaimed (q : PlanQueue P) : Prop :=
  ∀ g : Nat, g < q.plans.length →
    (∀ slot start : Nat, q.cursors[slot]? = some (some start) → g < start) →
    q.plans[g]? = some none

/-- Nothing waits to be reclaimed: some live consumer stands at the frontier, or the frontier is
the end of the queue. -/
def AtFrontier (q : PlanQueue P) : Prop :=
  q.reclaimed = q.plans.length ∨ ∃ slot : Nat, q.cursors[slot]? = some (some q.reclaimed)

namespace Inv

variable {n : Nat} {evs : List (Event P)} {q : PlanQueue P}

theorem generations (h : Inv n evs q) (g : Nat) (plan : P)
    (hg : q.plans[g]? = some (some plan)) : (deposits evs)[g]? = some plan := by
  rw [h.plans_eq g, Option.map_eq_some_iff] at hg
  obtain ⟨p, hp, hheld⟩ := hg
  unfold held at hheld
  split at hheld
  · simp at hheld
  · rw [hp, hheld]

theorem empty_iff (h : Inv n evs q) (g : Nat) (hg : g < q.plans.length) :
    q.plans[g]? = some none ↔ g < q.reclaimed := by
  have hlen := h.length_eq
  have hplan : (deposits evs)[g]? = some ((deposits evs).get ⟨g, by omega⟩) :=
    List.getElem?_eq_getElem (by omega)
  rw [h.plans_eq g, hplan, Option.map_some]
  unfold held
  split
  · rename_i hlt
    exact ⟨fun _ => hlt, fun _ => rfl⟩
  · rename_i hlt
    exact ⟨fun hc => by simp at hc, fun hc => absurd hc hlt⟩

theorem caught_up (h : Inv n evs q) (slot start : Nat) (hslot : slot < max n 1)
    (hcur : q.cursors[slot]? = some (some start)) {q' : PlanQueue P} {pending : Option (List P)}
    (hd : q.drain slot = some (q', pending)) :
    received slot (evs ++ [.drained slot pending]) = deposits evs := by
  obtain ⟨m, hm, hc⟩ := h.delivered slot hslot
  have hstart := hc start hcur
  have hb := h.cursor_bounds slot start hcur
  rw [received_append, hm, hstart]
  by_cases hlt : start < q.plans.length
  · obtain ⟨q₁, hd₁, -⟩ := h.drain_pending slot start hcur hlt
    rw [hd₁] at hd
    simp only [Option.some.injEq, Prod.mk.injEq] at hd
    obtain ⟨-, rfl⟩ := hd
    simp only [Event.given, if_true, Option.getD_some]
    exact List.take_append_drop _ _
  · have hidle : ¬ Pending q slot := by
      rintro ⟨c, hcc, hclt⟩
      rw [hcur] at hcc
      simp only [Option.some.injEq] at hcc
      omega
    rw [q.drain_idle slot hidle] at hd
    simp only [Option.some.injEq, Prod.mk.injEq] at hd
    obtain ⟨-, rfl⟩ := hd
    have hlen := h.length_eq
    simp only [Event.given, if_true, Option.getD_none, List.append_nil]
    exact List.take_of_length_le (by omega)

theorem broadcasts (h : Inv n evs q) : Broadcasts n evs q where
  returns := h.step_total
  generations := ⟨h.length_eq, h.generations⟩
  registered_once := by
    rw [h.registrations_eq]
    exact List.nodup_range
  in_order slot hslot := by
    obtain ⟨m, hm, -⟩ := h.delivered slot hslot
    rw [hm]
    exact List.take_prefix _ _
  caught_up slot start hslot hcur _ _ hd := h.caught_up slot start hslot hcur hd
  frontier_le slot start hcur := (h.cursor_bounds slot start hcur).1
  frontier_mono _ _ _ hs := h.reclaimed_mono hs

theorem passedReclaimed_of_frontier (h : Inv n evs q) (hfront : q.reclaimed = q.frontier) :
    PassedReclaimed q := by
  intro g hg hpassed
  rw [h.empty_iff g hg, hfront]
  apply PlanQueue.le_frontier q (g + 1)
  · intro hnil
    have := h.declared
    rw [hnil] at this
    simp at this
  · exact hg
  · exact hpassed

theorem passedReclaimed_iff (h : Inv n evs q) : PassedReclaimed q ↔ AtFrontier q := by
  constructor
  · intro hp
    by_contra hnot
    unfold AtFrontier at hnot
    push Not at hnot
    obtain ⟨hne, hcur⟩ := hnot
    have hle := h.reclaimed_le
    -- the first generation above the frontier is passed by everyone and still held
    have hheld := hp q.reclaimed (by omega) (by
      intro slot start hs
      have hb := h.cursor_bounds slot start hs
      rcases Nat.lt_or_ge q.reclaimed start with hlt | hge
      · exact hlt
      · have heq : start = q.reclaimed := by omega
        exact absurd (heq ▸ hs) (hcur slot))
    rw [h.empty_iff q.reclaimed (by omega)] at hheld
    exact Nat.lt_irrefl _ hheld
  · rintro (hend | ⟨slot, hs⟩) g hg hpassed
    · rw [h.empty_iff g hg]
      omega
    · rw [h.empty_iff g hg]
      exact hpassed slot _ hs

end Inv

/-- **The hot-swap broadcast**: in every run of a channel, whatever the order of its calls and
however many consumers register, no call panics, generations never shift, every declared consumer
gets every plan once and in order, and the frontier stays behind every live cursor; and a drain
leaves no payload that everyone has passed exactly when it found something pending or nothing
waited to be reclaimed before it. A consumer that finds nothing pending returns before `collect`,
so what a retirement released stays. -/
theorem run_broadcasts (n : Nat) (evs : List (Event P)) (q : PlanQueue P) (h : Run n evs q) :
    Broadcasts n evs q ∧ ∀ (slot : Nat) (q' : PlanQueue P) (pending : Option (List P)),
      q.drain slot = some (q', pending) →
        (PassedReclaimed q' ↔ Pending q slot ∨ AtFrontier q) := by
  have hinv := h.inv
  refine ⟨hinv.broadcasts, ?_⟩
  intro slot q' pending hd
  by_cases hp : Pending q slot
  · obtain ⟨start, hcur, hlt⟩ := hp
    have hinv' := hinv.drain slot hd
    obtain ⟨q₁, hd₁, -, -, -, -, hfront, -⟩ := hinv.drain_pending slot start hcur hlt
    rw [hd₁] at hd
    simp only [Option.some.injEq, Prod.mk.injEq] at hd
    obtain ⟨rfl, rfl⟩ := hd
    exact ⟨fun _ => .inl ⟨start, hcur, hlt⟩, fun _ => hinv'.passedReclaimed_of_frontier hfront⟩
  · rw [q.drain_idle slot hp] at hd
    simp only [Option.some.injEq, Prod.mk.injEq] at hd
    obtain ⟨rfl, -⟩ := hd
    rw [hinv.passedReclaimed_iff]
    simp only [hp, false_or]

/-- Two consumers, one plan: consumer `0` drains it, consumer `1` retires. -/
def retiredRun : List (Event Nat) :=
  [.registered 0, .registered 1, .deposited 7, .drained 0 (some [7]), .retired 1]

def retiredQueue : PlanQueue Nat :=
  { plans := [some 7], cursors := [some 1, none], claimed := 2, reclaimed := 0 }

theorem retiredRun_run : Run 2 retiredRun retiredQueue := by
  have h₁ : Run 2 [.registered 0] ((PlanQueue.new 2 : PlanQueue Nat).register.1) :=
    .step .new (show PlanQueue.step _ .register = _ from rfl)
  have h₂ := Run.step h₁ (show PlanQueue.step _ .register = _ from rfl)
  have h₃ := Run.step h₂ (show PlanQueue.step _ (.deposit 7) = _ from rfl)
  have h₄ := Run.step h₃ (show PlanQueue.step _ (.drain 0) = _ from rfl)
  exact Run.step h₄ (show PlanQueue.step _ (.retire 1) = _ from rfl)

theorem run_broadcasts_retired :
    Run 2 retiredRun retiredQueue ∧ Broadcasts 2 retiredRun retiredQueue :=
  ⟨retiredRun_run, (run_broadcasts 2 retiredRun retiredQueue retiredRun_run).1⟩

/-- After the retirement the next live consumer's drain does not pick the released plan up. -/
theorem drain_keeps_released_plan :
    ¬ ∀ (n : Nat) (evs : List (Event Nat)) (q : PlanQueue Nat), Run n evs q →
      ∀ (slot : Nat) (q' : PlanQueue Nat) (pending : Option (List Nat)),
        q.drain slot = some (q', pending) → PassedReclaimed q' := by
  intro hall
  have h := hall 2 retiredRun retiredQueue retiredRun_run 0 retiredQueue none rfl 0 (by decide)
  have hkept : retiredQueue.plans[0]? = some (some 7) := rfl
  rw [hkept] at h
  refine absurd (h ?_) (by decide)
  intro slot start hs
  match slot with
  | 0 =>
    simp only [retiredQueue, List.getElem?_cons_zero, Option.some.injEq] at hs
    omega
  | 1 => simp [retiredQueue] at hs
  | k + 2 => simp [retiredQueue] at hs

end Noeta.Hotswap
