import Noeta.Gc.Collector

/-!
# Allocation, reference counting and the mutation primitives

`alloc_with`, `inc_ref`, `dec_ref`, `release`, `free`, `free_shallow`, `cell_set`, `set_slot` and
`replace_slot` of `noeta-value/src/heap.rs`. An allocation is given the free address the allocator chose,
which may be one that was freed before. Releasing a value whose last reference dies recurses into its
children; the recursion takes a depth, and `Heap.depth` is enough for every heap with exact counts.

Where the source dereferences an address that is not allocated, the model records a `fault` and leaves
the heap alone.
-/

namespace Noeta

namespace Heap

/-! ### Allocation -/

/-- Put `o` at the address `a`. -/
def place (h : Heap) (a : Addr) (o : Obj) : Heap :=
  { h with objs := (h.objs ++ List.replicate (a + 1 - h.objs.length) none).set a (some o) }

/-- Allocate a box at the free address `a`. Only a cyclic payload in trace mode is registered. -/
def allocWith (h : Heap) (a : Addr) (payload : Payload) (shared : Bool) : Heap :=
  let registered := payload.canBeCyclic && !shared && h.mode == .trace
  let h := h.place a ⟨⟨1, h.nextSeq, .black, false, shared, registered⟩, payload⟩
  { h with
    nextSeq := h.nextSeq + 1
    registry := if registered then h.registry ++ [a] else h.registry }

def alloc (h : Heap) (a : Addr) (payload : Payload) : Heap := h.allocWith a payload false

/-! ### Counting -/

/-- Take a reference; a borrow-shared object is not counted. -/
def incRef (h : Heap) (a : Addr) : Heap := if h.isShared a then h else h.rcInc a

/-- Drop a reference; the flag says whether it was the last. -/
def decRef (h : Heap) (a : Addr) : Heap × Bool :=
  if h.isShared a then (h, false)
  else
    let h := h.rcDec a
    (h, h.refcount a == 0)

/-- Free the box at `a` without touching its children. A buffered object in trial-deletion mode is only
painted black: the buffer still refers to it. -/
def freeShallow (h : Heap) (a : Addr) : Heap :=
  if ¬ h.Allocated a then h.record (.fault a)
  else if h.mode = .trialDeletion ∧ h.buffered a = true then h.setColor a .black
  else h.dealloc a

/-- `release` of a pointer. In both modes the children of a last reference go first. -/
def release : Nat → Heap → Addr → Heap
  | 0, h, _ => h
  | fuel + 1, h, a =>
    if ¬ h.Allocated a then h.record (.fault a)
    else if h.isShared a then h
    else
      let (h, last) := h.decRef a
      match h.mode with
      | .trace => if last then ((h.children a).foldl (release fuel) h).dealloc a else h
      | .trialDeletion =>
        if last then ((h.children a).foldl (release fuel) h).freeShallow a
        else if h.canBeCyclic a then h.possibleRoot a else h

/-- Free a box whose count reached zero, dropping the references it holds. The box itself goes last. -/
def free (h : Heap) (a : Addr) : Heap := ((h.children a).foldl (release h.depth) h).dealloc a

/-! ### On values: immediates are not counted -/

def incRefValue (h : Heap) : Value → Heap
  | .ptr a => h.incRef a
  | _ => h

def dropValue (h : Heap) : Value → Heap
  | .ptr a => release h.depth h a
  | _ => h

/-- `if old.dec_ref() { old.free() }`. -/
def decRefAndFree (h : Heap) : Value → Heap
  | .ptr a =>
    let (h, last) := h.decRef a
    if last then h.free a else h
  | _ => h

/-! ### Mutation -/

/-- Overwrite a cell's contents: retain the new occupant, then drop the old one directly. -/
def cellSet (h : Heap) (cell : Addr) (value : Value) : Heap :=
  match h.payload? cell with
  | some (.cell old) => ((h.incRefValue value).setPayload cell (.cell value)).decRefAndFree old
  | _ => h.record (.fault cell)

/-- Overwrite an object slot: retain the new occupant, then drop the old one directly. -/
def setSlot (h : Heap) (object : Addr) (index : Nat) (value : Value) : Heap :=
  match h.payload? object with
  | some (.object shape slots) =>
    match slots[index]? with
    | some old =>
      ((h.incRefValue value).setPayload object (.object shape (slots.set index value))).decRefAndFree old
    | none => h.record (.fault object)
  | _ => h.record (.fault object)

/-- Overwrite an object slot and hand the old occupant, with its reference, to the caller. -/
def replaceSlot (h : Heap) (object : Addr) (index : Nat) (value : Value) : Heap × Value :=
  match h.payload? object with
  | some (.object shape slots) =>
    match slots[index]? with
    | some old => ((h.incRefValue value).setPayload object (.object shape (slots.set index value)), old)
    | none => (h.record (.fault object), .unit)
  | _ => (h.record (.fault object), .unit)

/-! ### Counting references in a list of values -/

/-- The reference a value is. -/
def refs (v : Value) : List Addr := v.addr?.toList

theorem count_refs_cons (v : Value) (l : List Value) (x : Addr) :
    ((v :: l).filterMap Value.addr?).count x = (refs v).count x + (l.filterMap Value.addr?).count x := by
  rcases hv : v.addr? with _ | a
  · rw [List.filterMap_cons_none hv, refs, hv]
    simp
  · rw [List.filterMap_cons_some hv, refs, hv, Option.toList_some, ← List.singleton_append, List.count_append]

theorem count_refs_set {slots : List Value} {index : Nat} {old v : Value} (hold : slots[index]? = some old)
    (x : Addr) : ((slots.set index v).filterMap Value.addr?).count x + (refs old).count x =
      (slots.filterMap Value.addr?).count x + (refs v).count x := by
  obtain ⟨hlt, hget⟩ := List.getElem?_eq_some_iff.mp hold
  have hsplit : slots = slots.take index ++ old :: slots.drop (index + 1) := by
    rw [← hget, List.cons_getElem_drop_succ, List.take_append_drop]
  have hset : slots.set index v = slots.take index ++ v :: slots.drop (index + 1) :=
    List.set_eq_take_append_cons_drop.trans (if_pos hlt)
  rw [hset]
  conv_rhs => rw [hsplit]
  rw [List.filterMap_append, List.filterMap_append, List.count_append, List.count_append, count_refs_cons,
    count_refs_cons]
  omega

/-! ### Reading back -/

theorem obj?_place (h : Heap) (a b : Addr) (o : Obj) :
    (h.place a o).obj? b = if a = b then some o else h.obj? b := by
  simp only [obj?, place, List.getElem?_set]
  by_cases hab : a = b
  · subst hab
    have hlt : a < (h.objs ++ List.replicate (a + 1 - h.objs.length) none).length := by
      rw [List.length_append, List.length_replicate]
      exact Nat.lt_of_lt_of_le (Nat.lt_succ_self a) le_add_tsub
    rw [if_pos rfl, if_pos hlt, if_pos rfl]
    rfl
  · rw [if_neg hab, if_neg hab, List.getElem?_append]
    split
    · rfl
    · rename_i hlen
      rw [List.getElem?_replicate, List.getElem?_eq_none (Nat.le_of_not_lt hlen)]
      split <;> rfl

theorem elim_setPayload {α : Type} (h : Heap) (a b : Addr) (p : Payload) (d : α) (g : ObjHeader → α) :
    ((h.setPayload a p).obj? b).elim d (fun o => g o.header) = (h.obj? b).elim d fun o => g o.header := by
  rw [setPayload, obj?_modify]
  split
  · cases h.obj? b <;> rfl
  · rfl

theorem children_setPayload (h : Heap) (a b : Addr) (p : Payload) :
    (h.setPayload a p).children b = if a = b ∧ h.Allocated b then p.children else h.children b := by
  simp only [children, setPayload, obj?_modify, Allocated]
  by_cases hab : a = b
  · subst hab
    rcases Option.eq_none_or_eq_some (h.obj? a) with ho | ⟨o, ho⟩ <;> simp [ho]
  · simp [hab]

theorem elim_place {α : Type} (h : Heap) (a b : Addr) (o : Obj) (d : α) (g : Obj → α) :
    ((h.place a o).obj? b).elim d g = if a = b then g o else (h.obj? b).elim d g := by
  rw [obj?_place]
  split <;> rfl

end Heap

end Noeta
