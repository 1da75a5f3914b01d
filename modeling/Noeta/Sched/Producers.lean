import Noeta.Sched.Channel

/-!
# Producer holds

A task that captures a `Sender` counts as a producer of its channel, and the channel closes by itself when the last
producer ends. The holds of a task are the channels of the senders that `collect_producer_channels` finds in its
captures. They are counted one at a time when the task is registered: for a cooperative task before it can run, for a
real isolate after its thread was started. They are ended one at a time when the task completes, or when its scope
closes. On a `Shared` channel the decrement and the close are two steps, and other threads may come between.
-/

namespace Noeta.Sched

/-- A value, as far as the walk over the captures looks at it. -/
inductive Ref where
  | imm
  | ptr (address : Nat)
deriving DecidableEq, Repr

/-- A heap object: a `Sender` of a channel, or anything else with its `gc_children`. -/
inductive Object where
  | sender (channel : Nat)
  | other (children : List Ref)
deriving DecidableEq, Repr

def Object.children : Object → List Ref
  | .sender _ => []
  | .other children => children

/-- The loop of `collect_producer_channels`; the top of the stack comes first. -/
def collectLoop (heap : List Object) : Nat → List Ref → List Nat → List Nat → List Nat
  | 0, _, _, out => out
  | _, [], _, out => out
  | n + 1, .imm :: stack, seen, out => collectLoop heap n stack seen out
  | n + 1, .ptr a :: stack, seen, out =>
    if a ∈ seen then collectLoop heap n stack seen out
    else
      match heap[a]? with
      | some (.sender c) => collectLoop heap n stack (a :: seen) (out ++ [c])
      | some (.other children) => collectLoop heap n (children.reverse ++ stack) (a :: seen) out
      | none => collectLoop heap n stack (a :: seen) out

/-- `collect_producer_channels`. Every object is expanded once, so as many rounds as there are children are enough. -/
def collectProducerChannels (heap : List Object) (root : Ref) : List Nat :=
  collectLoop heap (1 + (heap.map (·.children.length)).sum) [root] [] []

/-- A `Sender` of channel `c` is reachable from the value. -/
inductive Reaches (heap : List Object) (c : Nat) : Ref → Prop
  | sender {a : Nat} : heap[a]? = some (.sender c) → Reaches heap c (.ptr a)
  | child {a : Nat} {children : List Ref} {v : Ref} : heap[a]? = some (.other children) → v ∈ children →
    Reaches heap c v → Reaches heap c (.ptr a)

/-- The producer side of a channel. -/
structure Producers where
  backing : Backing
  producers : Nat := 0
  closed : Bool := false
deriving Repr

inductive Stage where
  /-- In `register_task`, or before it. -/
  | registering
  | running
  | completed
  | cancelled
deriving DecidableEq, Repr

/-- A spawned task or isolate: the heap and the values it captures, the holds that are not counted yet, those that are,
those that are being released, and the channel it is about to close. -/
structure Party where
  real : Bool
  heap : List Object
  roots : List Ref
  todo : List Nat
  holds : List Nat := []
  dropping : List Nat := []
  closing : Option Nat := none
  stage : Stage := .registering
deriving Repr

namespace Party

/-- The task captured a `Sender` of the channel. -/
def Captures (t : Party) (c : Nat) : Prop := ∃ v ∈ t.roots, Reaches t.heap c v

/-- `flat_map` of `collect_producer_channels` over the captured values. -/
def captured (t : Party) : List Nat := t.roots.flatMap (collectProducerChannels t.heap)

def ended (t : Party) : Bool := t.stage = .completed || t.stage = .cancelled

/-- A cooperative task can run once it is registered, an isolate once its thread was started. -/
def live (t : Party) : Bool := !t.ended && (t.real || t.stage = .running)

end Party

/-- The channels and the tasks of all threads. -/
structure Holds where
  channels : Nat → Producers
  parties : List Party := []

namespace Holds

def modify (w : Holds) (i : Nat) (f : Party → Party) : Holds := { w with parties := w.parties.modify i f }

def setChannel (w : Holds) (c : Nat) (channel : Producers) : Holds :=
  { w with channels := Function.update w.channels c channel }

def addProducerHold (w : Holds) (c : Nat) : Holds :=
  w.setChannel c { w.channels c with producers := (w.channels c).producers + 1 }

/-- `end_producer_hold`, by the release of task `i`: a `Local` channel closes at once, a `Shared` one when `drop_producer`
goes on to `close`. -/
def endProducerHold (w : Holds) (i c : Nat) : Holds :=
  let producers := (w.channels c).producers - 1
  match (w.channels c).backing with
  | .local => w.setChannel c { w.channels c with producers, closed := (w.channels c).closed || producers == 0 }
  | .shared =>
    let w' := w.setChannel c { w.channels c with producers }
    if (w.channels c).producers = 1 then w'.modify i fun t => { t with closing := some c } else w'

/-- The steps. -/
inductive Op where
  /-- Holds are collected; the thread of a real isolate starts. -/
  | spawn (real : Bool) (heap : List Object) (roots : List Ref)
  /-- `register_task` counts the next hold. -/
  | hold (i : Nat)
  | register (i : Nat)
  /-- A round stores the result. -/
  | complete (i : Nat)
  /-- A round finds that the isolate honored its cancellation. -/
  | honor (i : Nat)
  /-- `cancel_task` on a cooperative task. -/
  | cancel (i : Nat)
  /-- `close_scope` takes what is left. -/
  | reclaim (i : Nat)
  /-- The release ends the next hold. -/
  | drop (i : Nat)
  | close (i : Nat)
  /-- The thread that owns the task unwinds. -/
  | abandon (i : Nat)

def step (w : Holds) (op : Op) : Holds :=
  match op with
  | .spawn real heap roots =>
    { w with parties := w.parties ++
      [{ real, heap, roots, todo := roots.flatMap (collectProducerChannels heap) }] }
  | .hold i =>
    match w.parties[i]? with
    | some t =>
      match t.todo with
      | c :: todo => (w.addProducerHold c).modify i fun t => { t with todo, holds := t.holds ++ [c] }
      | [] => w
    | none => w
  | .register i => w.modify i fun t => { t with stage := .running }
  | .complete i => w.modify i fun t => { t with stage := .completed, dropping := t.holds, holds := [] }
  | .honor i => w.modify i fun t => { t with stage := .cancelled, dropping := t.holds, holds := [] }
  | .cancel i => w.modify i fun t => { t with stage := .cancelled }
  | .reclaim i => w.modify i fun t => { t with dropping := t.holds, holds := [] }
  | .drop i =>
    match w.parties[i]? with
    | some t =>
      match t.dropping with
      | c :: dropping => (w.modify i fun t => { t with dropping }).endProducerHold i c
      | [] => w
    | none => w
  | .close i =>
    match w.parties[i]? with
    | some t =>
      match t.closing with
      | some c =>
        (w.setChannel c { w.channels c with closed := true }).modify i fun t => { t with closing := none }
      | none => w
    | none => w
  | .abandon i => w.modify i fun t =>
    { t with todo := [], holds := [], dropping := [], closing := none, stage := if t.ended then t.stage else .cancelled }

/-- When a step can be taken. -/
def Enabled (w : Holds) : Op → Prop
  | .spawn _ _ _ => True
  | .hold i => ∃ t, w.parties[i]? = some t ∧ t.stage = .registering
  | .register i => ∃ t, w.parties[i]? = some t ∧ t.stage = .registering ∧ t.todo = []
  | .complete i => ∃ t, w.parties[i]? = some t ∧ t.stage = .running
  | .honor i => ∃ t, w.parties[i]? = some t ∧ t.stage = .running ∧ t.real
  | .cancel i => ∃ t, w.parties[i]? = some t ∧ t.stage = .running ∧ t.real = false
  | .reclaim i => ∃ t, w.parties[i]? = some t ∧ t.ended ∧ t.dropping = [] ∧ t.closing = none
  | .drop i => ∃ t, w.parties[i]? = some t ∧ t.closing = none
  | .close _ => True
  | .abandon _ => True

end Holds

/-! ### The walk over the captures -/

/-- Children of objects that the walk has not seen. -/
def unseen (heap : List Object) (seen : List Nat) : Nat :=
  ∑ a ∈ (Finset.range heap.length).filter (· ∉ seen), (heap[a]?.elim 0 (·.children.length))

theorem unseen_nil (heap : List Object) : unseen heap [] = (heap.map (·.children.length)).sum := by
  unfold unseen
  rw [Finset.filter_true_of_mem fun a _ => List.not_mem_nil, Finset.sum_range, ← List.sum_ofFn]
  congr 1
  apply List.ext_getElem
  · simp
  · intro i _ hi
    simp

variable {heap : List Object} {root : Ref}

theorem unseen_cons {seen : List Nat} {a : Nat} {o : Object} (ha : a ∉ seen)
    (ho : heap[a]? = some o) : unseen heap seen = o.children.length + unseen heap (a :: seen) := by
  unfold unseen
  have hlt : a < heap.length := (List.getElem?_eq_some_iff.mp ho).1
  have hmem : a ∈ (Finset.range heap.length).filter (· ∉ seen) :=
    Finset.mem_filter.mpr ⟨Finset.mem_range.mpr hlt, ha⟩
  have herase : (Finset.range heap.length).filter (· ∉ a :: seen) =
      ((Finset.range heap.length).filter (· ∉ seen)).erase a := by
    apply Finset.ext
    intro b
    simp only [Finset.mem_filter, Finset.mem_erase, List.mem_cons, not_or]
    constructor
    · exact fun ⟨h1, h2, h3⟩ => ⟨h2, h1, h3⟩
    · exact fun ⟨h1, h2, h3⟩ => ⟨h2, h1, h3⟩
  rw [herase, ← Finset.add_sum_erase _ _ hmem, ho]
  rfl

theorem unseen_cons_le (heap : List Object) (seen : List Nat) (a : Nat) : unseen heap (a :: seen) ≤ unseen heap seen := by
  refine Finset.sum_le_sum_of_subset fun b hb => ?_
  rw [Finset.mem_filter] at hb ⊢
  exact ⟨hb.1, fun hs => hb.2 (List.mem_cons_of_mem _ hs)⟩

/-- What the walk knows: senders it has seen are out, and the children of what it has seen are seen or on the stack. -/
structure Collected (heap : List Object) (root : Ref) (stack : List Ref) (seen out : List Nat) : Prop where
  start : root ∈ stack ∨ root = .imm ∨ ∃ a ∈ seen, root = .ptr a
  senders : ∀ a ∈ seen, ∀ c, heap[a]? = some (.sender c) → c ∈ out
  children : ∀ a ∈ seen, ∀ l, heap[a]? = some (.other l) → ∀ v ∈ l, v ∈ stack ∨ v = .imm ∨ ∃ b ∈ seen, v = .ptr b
  sound : ∀ c ∈ out, Reaches heap c root
  reach : ∀ v ∈ stack, ∀ c, Reaches heap c v → Reaches heap c root

theorem mem_or_of_cons {v w : Ref} {stack : List Ref} {seen seen' : List Nat}
    (h : v ∈ w :: stack ∨ v = .imm ∨ ∃ a ∈ seen, v = .ptr a) (hsub : ∀ a ∈ seen, a ∈ seen')
    (hw : w = .imm ∨ ∃ a ∈ seen', w = .ptr a) (stack' : List Ref) (hstack : ∀ u ∈ stack, u ∈ stack') :
    v ∈ stack' ∨ v = .imm ∨ ∃ a ∈ seen', v = .ptr a := by
  rcases h with h | h | ⟨a, ha, h⟩
  · rcases List.mem_cons.mp h with rfl | h
    · exact Or.inr hw
    · exact Or.inl (hstack v h)
  · exact Or.inr (Or.inl h)
  · exact Or.inr (Or.inr ⟨a, hsub a ha, h⟩)

theorem Collected.pop {root v : Ref} {stack : List Ref} {seen out : List Nat}
    (h : Collected heap root (v :: stack) seen out) (hv : v = .imm ∨ ∃ a ∈ seen, v = .ptr a) :
    Collected heap root stack seen out := by
  refine ⟨?_, h.senders, fun a ha l hl u hu => ?_, h.sound, fun u hu => h.reach u (List.mem_cons_of_mem _ hu)⟩
  · exact mem_or_of_cons h.start (fun _ h => h) hv stack fun _ h => h
  · exact mem_or_of_cons (h.children a ha l hl u hu) (fun _ h => h) hv stack fun _ h => h

theorem Collected.expand {a : Nat} {stack stack' : List Ref}
    {seen out out' : List Nat} (h : Collected heap root (.ptr a :: stack) seen out) (hstack : ∀ u ∈ stack, u ∈ stack')
    (hout : ∀ c ∈ out, c ∈ out') (hsender : ∀ c, heap[a]? = some (.sender c) → c ∈ out')
    (hchildren : ∀ l, heap[a]? = some (.other l) → ∀ v ∈ l, v ∈ stack')
    (hsound : ∀ c ∈ out', c ∈ out ∨ Reaches heap c (.ptr a))
    (hreach : ∀ v ∈ stack', v ∈ stack ∨ ∀ c, Reaches heap c v → Reaches heap c (.ptr a)) :
    Collected heap root stack' (a :: seen) out' := by
  have hself : (Ref.ptr a = .imm ∨ ∃ b ∈ a :: seen, Ref.ptr a = .ptr b) :=
    Or.inr ⟨a, List.mem_cons_self, rfl⟩
  have hsub : ∀ b ∈ seen, b ∈ a :: seen := fun b hb => List.mem_cons_of_mem _ hb
  have htop := h.reach (.ptr a) List.mem_cons_self
  refine ⟨?_, fun b hb c hc => ?_, fun b hb l hl u hu => ?_, fun c hc => ?_, fun v hv c hc => ?_⟩
  · exact mem_or_of_cons h.start hsub hself stack' hstack
  · rcases List.mem_cons.mp hb with rfl | hb
    · exact hsender c hc
    · exact hout c (h.senders b hb c hc)
  · rcases List.mem_cons.mp hb with rfl | hb
    · exact Or.inl (hchildren l hl u hu)
    · exact mem_or_of_cons (h.children b hb l hl u hu) hsub hself stack' hstack
  · rcases hsound c hc with hc | hc
    · exact h.sound c hc
    · exact htop c hc
  · rcases hreach v hv with hv | hv
    · exact h.reach v (List.mem_cons_of_mem _ hv) c hc
    · exact htop c (hv c hc)

theorem Collected.done {seen out : List Nat}
    (h : Collected heap root [] seen out) (c : Nat) : c ∈ out ↔ Reaches heap c root := by
  refine ⟨h.sound c, fun hr => ?_⟩
  have hall : ∀ v, Reaches heap c v → (v = .imm ∨ ∃ a ∈ seen, v = .ptr a) → c ∈ out := by
    intro v hv
    induction hv with
    | sender ha =>
      rintro (h' | ⟨b, hb, h'⟩)
      · exact absurd h' (by simp)
      · obtain rfl := Ref.ptr.inj h'
        exact h.senders _ hb c ha
    | child ha hmem _ ih =>
      rintro (h' | ⟨b, hb, h'⟩)
      · exact absurd h' (by simp)
      · obtain rfl := Ref.ptr.inj h'
        exact ih ((h.children _ hb _ ha _ hmem).resolve_left List.not_mem_nil)
  exact hall root hr (h.start.resolve_left List.not_mem_nil)

theorem mem_collectLoop (c : Nat) :
    ∀ (n : Nat) (stack : List Ref) (seen out : List Nat), stack.length + unseen heap seen ≤ n →
      Collected heap root stack seen out → (c ∈ collectLoop heap n stack seen out ↔ Reaches heap c root) := by
  intro n
  induction n with
  | zero =>
    intro stack seen out hn h
    obtain rfl : stack = [] := List.length_eq_zero_iff.mp (by omega)
    exact h.done c
  | succ n ih =>
    intro stack seen out hn h
    match stack with
    | [] => exact h.done c
    | .imm :: stack =>
      simp only [List.length_cons] at hn
      exact ih stack seen out (by omega) (h.pop (Or.inl rfl))
    | .ptr a :: stack =>
      simp only [List.length_cons] at hn
      simp only [collectLoop]
      split_ifs with hseen
      · exact ih stack seen out (by omega) (h.pop (Or.inr ⟨a, hseen, rfl⟩))
      · have hle := unseen_cons_le heap seen a
        split
        · rename_i d ho
          refine ih stack (a :: seen) (out ++ [d]) (by omega) (h.expand (fun _ h => h)
            (fun x hx => List.mem_append_left _ hx) (fun x hx => ?_) (fun l hl => ?_) (fun x hx => ?_)
            (fun v hv => Or.inl hv))
          · obtain rfl := Object.sender.inj (Option.some.inj (ho.symm.trans hx))
            exact List.mem_append_right _ List.mem_cons_self
          · exact absurd (ho.symm.trans hl) (by simp)
          · rcases List.mem_append.mp hx with hx | hx
            · exact Or.inl hx
            · obtain rfl := List.mem_singleton.mp hx
              exact Or.inr (.sender ho)
        · rename_i children ho
          have hsum := unseen_cons hseen ho
          simp only [Object.children] at hsum
          refine ih _ (a :: seen) out ?_ (h.expand (fun u hu => List.mem_append_right _ hu) (fun _ h => h)
            (fun x hx => ?_) (fun l hl v hv => ?_) (fun x hx => Or.inl hx) (fun v hv => ?_))
          · rw [List.length_append, List.length_reverse]
            omega
          · exact absurd (ho.symm.trans hx) (by simp)
          · obtain rfl := Object.other.inj (Option.some.inj (ho.symm.trans hl))
            exact List.mem_append_left _ (List.mem_reverse.mpr hv)
          · rcases List.mem_append.mp hv with hv | hv
            · exact Or.inr fun c hc => .child ho (List.mem_reverse.mp hv) hc
            · exact Or.inl hv
        · rename_i ho
          refine ih stack (a :: seen) out (by omega) (h.expand (fun _ h => h) (fun _ h => h) (fun x hx => ?_)
            (fun l hl => ?_) (fun x hx => Or.inl hx) (fun v hv => Or.inl hv))
          · exact absurd (ho.symm.trans hx) (by simp)
          · exact absurd (ho.symm.trans hl) (by simp)

theorem mem_collectProducerChannels (heap : List Object) (root : Ref) (c : Nat) :
    c ∈ collectProducerChannels heap root ↔ Reaches heap c root := by
  refine mem_collectLoop c _ [root] [] [] ?_ ⟨Or.inl List.mem_cons_self, ?_, ?_, ?_, ?_⟩
  · rw [unseen_nil]
    exact le_rfl
  · exact fun a ha => absurd ha List.not_mem_nil
  · exact fun a ha => absurd ha List.not_mem_nil
  · exact fun a ha => absurd ha List.not_mem_nil
  · intro v hv c hc
    rw [List.mem_singleton.mp hv] at hc
    exact hc

theorem Party.mem_captured (t : Party) (c : Nat) : c ∈ t.captured ↔ t.Captures c := by
  unfold Party.captured Party.Captures
  simp only [List.mem_flatMap, mem_collectProducerChannels]

end Noeta.Sched
