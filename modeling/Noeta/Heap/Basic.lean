import Mathlib

/-!
# The heap: boxes, headers and the primitive reads and writes

The data model of `noeta-value/src/heap.rs`. A `Value` is a NaN-boxed word: an immediate, or a pointer
to a box (`Obj`) with a header (refcount, creation sequence, collector colour, buffered, borrow-shared
and registered bits) and a payload. The thread-local state of the source (registry, candidate buffer,
collector mode, sequence counter, anomaly counter) is the rest of `Heap`.

The arena is a list of slots, an address being an index; a freed box is an empty slot. A dereference of
an empty slot is undefined behaviour in the source. Here it reads as a black unbuffered object without
children and a write to it does nothing; the paths that release or free an address also append
`Event.fault` to the ghost `log`, next to the `free` and `destruct` events.
-/

namespace Noeta

abbrev Addr := Nat

/-- A NaN-boxed word. Every immediate but `unbound` (the empty global slot) is only ever compared. -/
inductive Value where
  | unit
  | unbound
  | word (w : Nat)
  | ptr (a : Addr)
deriving DecidableEq, Repr

namespace Value

def isPointer : Value → Bool
  | ptr _ => true
  | _ => false

def isUnbound : Value → Bool
  | unbound => true
  | _ => false

def addr? : Value → Option Addr
  | ptr a => some a
  | _ => none

end Value

/-- The collector's object colours. -/
inductive Color where
  | black
  | gray
  | white
  | purple
deriving DecidableEq, Repr

inductive CollectorMode where
  | trace
  | trialDeletion
deriving DecidableEq, Repr

/-- The part of a shape that the destructor tables are keyed on. -/
structure Shape where
  name : String
deriving DecidableEq, Repr

/-- The state behind a lazy iterator. -/
inductive IterState where
  | list (list : Value) (cursor : Nat)
  | take (source : Value) (remaining : Nat)
  | drop (source : Value) (pending : Nat)
  | chain (first second : Value)
  | enumerate (source : Value) (index : Nat)
  | zip (a b : Value)
  | map (source func : Value)
  | filter (source pred : Value)
  | gen (step : Value)
deriving DecidableEq, Repr

def IterState.children : IterState → List Value
  | .list backing _ => [backing]
  | .take source _ | .drop source _ | .enumerate source _ => [source]
  | .chain first second => [first, second]
  | .zip a b => [a, b]
  | .map source f => [source, f]
  | .filter source pred => [source, pred]
  | .gen step => [step]

/-- The heap payloads. A map keeps its entries in key order, the order `children` sorts them into. -/
inductive Payload where
  | str (s : String)
  | bytes (b : List Nat)
  | externVal (tag : Nat)
  | int (i : Int)
  | closure (proto : Nat) (upvalues : List Value)
  | cell (inner : Value)
  | list (items : List Value)
  | tuple (items : List Value)
  | set (items : List Value)
  | map (entries : List (String × Value))
  | packedList (schema : Nat) (bytes : List Nat)
  | object (shape : Shape) (slots : List Value)
  | enum (shape : Shape) (data : List Value)
  | nativeModule (name : String)
  | nativeFn (builtin : Nat)
  | moduleFn (module func : String)
  | methodHandle (ty method : String) (associated : Bool)
  | boundMethod (recv : Value) (method : String)
  | iter (state : IterState)
  | future (step : Value)
  | timer (deadline : Nat)
  | handle (scope task : Nat)
  | asyncIo (id : Nat)
  | sender (chan : Nat)
  | receiver (chan : Nat)
  | channelSend (chan : Nat) (msg : Value) (phase : Nat)
  | channelRecv (chan : Nat)
  | isolateFuture (id : Nat)
deriving DecidableEq, Repr

namespace Payload

/-- The values a payload owns one reference to each of, immediates included. -/
def slots : Payload → List Value
  | list items | tuple items | set items | object _ items | enum _ items => items
  | map entries => entries.map (·.2)
  | closure _ upvalues => upvalues
  | cell inner => [inner]
  | iter state => state.children
  | future step => [step]
  | channelSend _ msg _ => [msg]
  | boundMethod recv _ => [recv]
  | _ => []

/-- The pointer-valued children (`children` in the source). -/
def children (p : Payload) : List Addr := p.slots.filterMap Value.addr?

/-- The cycle-participation predicate: the payloads that own a child value. -/
def canBeCyclic : Payload → Bool
  | list _ | tuple _ | set _ | map _ | object _ _ | enum _ _ | closure _ _ | cell _ | iter _
  | future _ | channelSend _ _ _ | boundMethod _ _ => true
  | _ => false

def isList : Payload → Bool
  | list _ | packedList _ _ => true
  | _ => false

def isMap : Payload → Bool
  | map _ => true
  | _ => false

def isSet : Payload → Bool
  | set _ => true
  | _ => false

def isClosure : Payload → Bool
  | closure _ _ => true
  | _ => false

def isCell : Payload → Bool
  | cell _ => true
  | _ => false

def isIter : Payload → Bool
  | iter _ => true
  | _ => false

/-- Everything that can be awaited. -/
def isFuture : Payload → Bool
  | future _ | timer _ | handle _ _ | asyncIo _ | channelSend _ _ _ | channelRecv _ | isolateFuture _ => true
  | _ => false

def shape? : Payload → Option Shape
  | object shape _ | enum shape _ => some shape
  | _ => none

theorem canBeCyclic_of_mem_children {p : Payload} {c : Addr} (h : c ∈ p.children) :
    p.canBeCyclic = true := by
  cases p <;> first | rfl | simp [children, slots] at h

end Payload

structure ObjHeader where
  refcount : Nat
  seq : Nat
  color : Color
  buffered : Bool
  shared : Bool
  registered : Bool
deriving DecidableEq, Repr

structure Obj where
  header : ObjHeader
  payload : Payload
deriving DecidableEq, Repr

/-- What the ghost log records. -/
inductive Event where
  | free (a : Addr)
  | destruct (a : Addr)
  | fault (a : Addr)
deriving DecidableEq, Repr

structure Heap where
  objs : List (Option Obj)
  candidates : List Addr
  registry : List Addr
  mode : CollectorMode
  nextSeq : Nat
  anomalies : Nat
  log : List Event
deriving DecidableEq, Repr

namespace Heap

def obj? (h : Heap) (a : Addr) : Option Obj := (h.objs[a]?).join

def Allocated (h : Heap) (a : Addr) : Prop := (h.obj? a).isSome = true

instance (h : Heap) (a : Addr) : Decidable (h.Allocated a) :=
  inferInstanceAs (Decidable (_ = true))

/-- The allocated addresses. -/
def dom (h : Heap) : Finset Addr := (Finset.range h.objs.length).filter h.Allocated

variable {h : Heap} {a : Addr} {α : Type}

@[simp] theorem mem_dom : a ∈ h.dom ↔ h.Allocated a := by
  simp only [dom, Finset.mem_filter, Finset.mem_range, and_iff_right_iff_imp]
  intro ha
  by_contra hlen
  simp [Allocated, obj?, List.getElem?_eq_none (Nat.le_of_not_lt hlen)] at ha

theorem allocated_iff : h.Allocated a ↔ ∃ o, h.obj? a = some o := by
  simp [Allocated, Option.isSome_iff_exists]

/-! ### Header and payload reads -/

def refcount (h : Heap) (a : Addr) : Nat := (h.obj? a).elim 0 (·.header.refcount)
def seq (h : Heap) (a : Addr) : Nat := (h.obj? a).elim 0 (·.header.seq)
def color (h : Heap) (a : Addr) : Color := (h.obj? a).elim .black (·.header.color)
def buffered (h : Heap) (a : Addr) : Bool := (h.obj? a).elim false (·.header.buffered)
def isShared (h : Heap) (a : Addr) : Bool := (h.obj? a).elim false (·.header.shared)
def isRegistered (h : Heap) (a : Addr) : Bool := (h.obj? a).elim false (·.header.registered)
def payload? (h : Heap) (a : Addr) : Option Payload := (h.obj? a).map (·.payload)
def children (h : Heap) (a : Addr) : List Addr := (h.obj? a).elim [] (·.payload.children)
def canBeCyclic (h : Heap) (a : Addr) : Bool := (h.obj? a).elim false (·.payload.canBeCyclic)
def shape? (h : Heap) (a : Addr) : Option Shape := (h.obj? a).bind (·.payload.shape?)

/-! ### Writes -/

/-- Rewrite the box at `a` in place. -/
def modify (h : Heap) (a : Addr) (f : Obj → Obj) : Heap :=
  { h with objs := h.objs.modify a (Option.map f) }

def modifyHeader (h : Heap) (a : Addr) (f : ObjHeader → ObjHeader) : Heap :=
  h.modify a fun o => { o with header := f o.header }

abbrev setColor (h : Heap) (a : Addr) (c : Color) : Heap :=
  h.modifyHeader a fun o => { o with color := c }

abbrev setBuffered (h : Heap) (a : Addr) (b : Bool) : Heap :=
  h.modifyHeader a fun o => { o with buffered := b }

abbrev rcInc (h : Heap) (a : Addr) : Heap :=
  h.modifyHeader a fun o => { o with refcount := o.refcount + 1 }

abbrev rcDec (h : Heap) (a : Addr) : Heap :=
  h.modifyHeader a fun o => { o with refcount := o.refcount - 1 }

def setPayload (h : Heap) (a : Addr) (p : Payload) : Heap :=
  h.modify a fun o => { o with payload := p }

def record (h : Heap) (e : Event) : Heap := { h with log := h.log ++ [e] }

/-- Drop the box at `a`: the common end of `free` and `free_shallow`. -/
def dealloc (h : Heap) (a : Addr) : Heap :=
  { h with
    objs := h.objs.set a none
    registry := if h.isRegistered a then h.registry.erase a else h.registry
    log := h.log ++ [.free a] }

/-! ### Reading back a write -/

theorem obj?_modify (h : Heap) (a b : Addr) (f : Obj → Obj) :
    (h.modify a f).obj? b = if a = b then (h.obj? b).map f else h.obj? b := by
  simp only [obj?, modify, List.getElem?_modify]
  split
  · rcases h.objs[b]? with _ | o <;> simp
  · rcases h.objs[b]? with _ | o <;> simp

theorem obj?_dealloc (h : Heap) (a b : Addr) :
    (h.dealloc a).obj? b = if a = b then none else h.obj? b := by
  simp only [obj?, dealloc, List.getElem?_set]
  split
  · split <;> rfl
  · rfl

theorem modify_of_not_allocated (ha : ¬ h.Allocated a) (f : Obj → Obj) : h.modify a f = h := by
  have hobjs : h.objs.modify a (Option.map f) = h.objs := by
    apply List.ext_getElem?
    intro i
    rw [List.getElem?_modify]
    split
    · rename_i hi
      subst hi
      rcases hslot : h.objs[a]? with _ | _ | o
      · rfl
      · rfl
      · simp [Allocated, obj?, hslot] at ha
    · simp
  rw [modify, hobjs]

theorem elim_modifyHeader (h : Heap) (a b : Addr) (f : ObjHeader → ObjHeader) (d : α) (g : Obj → α) :
    ((h.modifyHeader a f).obj? b).elim d g =
      if a = b then (h.obj? b).elim d (fun o => g { o with header := f o.header })
      else (h.obj? b).elim d g := by
  rw [modifyHeader, obj?_modify]
  split
  · cases h.obj? b <;> rfl
  · rfl

theorem elim_modifyHeader_of_eq {a b : Addr} {f : ObjHeader → ObjHeader} {d : α}
    {g : Obj → α} (hg : ∀ o : Obj, g { o with header := f o.header } = g o) :
    ((h.modifyHeader a f).obj? b).elim d g = (h.obj? b).elim d g := by
  rw [elim_modifyHeader]
  split
  · cases h.obj? b
    · rfl
    · exact hg _
  · rfl

theorem elim_dealloc (h : Heap) (a b : Addr) (d : α) (g : Obj → α) :
    ((h.dealloc a).obj? b).elim d g = if a = b then d else (h.obj? b).elim d g := by
  rw [obj?_dealloc]
  split <;> rfl

theorem allocated_dealloc (h : Heap) (a b : Addr) : (h.dealloc a).Allocated b ↔ a ≠ b ∧ h.Allocated b := by
  simp only [Allocated, obj?_dealloc]
  split
  · rename_i hab
    simp [hab]
  · rename_i hab
    simp [hab]

@[simp] theorem allocated_modify (h : Heap) (a b : Addr) (f : Obj → Obj) :
    (h.modify a f).Allocated b ↔ h.Allocated b := by
  simp only [Allocated, obj?_modify]
  split <;> simp

@[simp] theorem allocated_modifyHeader (h : Heap) (a b : Addr) (f : ObjHeader → ObjHeader) :
    (h.modifyHeader a f).Allocated b ↔ h.Allocated b :=
  allocated_modify h a b _

@[simp] theorem children_modifyHeader (h : Heap) (a b : Addr) (f : ObjHeader → ObjHeader) :
    (h.modifyHeader a f).children b = h.children b :=
  elim_modifyHeader_of_eq fun _ => rfl

section Fields
variable (h : Heap) (a b : Addr) (c : Color) (v : Bool)

theorem color_setColor :
    (h.setColor a c).color b = if a = b ∧ h.Allocated b then c else h.color b := by
  simp only [color, setColor, elim_modifyHeader, Allocated]
  rcases Option.eq_none_or_eq_some (h.obj? b) with hb | ⟨o, hb⟩ <;> simp [hb]

theorem buffered_setBuffered :
    (h.setBuffered a v).buffered b = if a = b ∧ h.Allocated b then v else h.buffered b := by
  simp only [buffered, setBuffered, elim_modifyHeader, Allocated]
  rcases Option.eq_none_or_eq_some (h.obj? b) with hb | ⟨o, hb⟩ <;> simp [hb]

theorem refcount_rcInc :
    (h.rcInc a).refcount b = if a = b ∧ h.Allocated b then h.refcount b + 1 else h.refcount b := by
  simp only [refcount, rcInc, elim_modifyHeader, Allocated]
  rcases Option.eq_none_or_eq_some (h.obj? b) with hb | ⟨o, hb⟩ <;> simp [hb]

theorem refcount_rcDec :
    (h.rcDec a).refcount b = if a = b then h.refcount b - 1 else h.refcount b := by
  simp only [refcount, rcDec, elim_modifyHeader]
  rcases Option.eq_none_or_eq_some (h.obj? b) with hb | ⟨o, hb⟩ <;> simp [hb]

@[simp] theorem refcount_setColor : (h.setColor a c).refcount b = h.refcount b :=
  elim_modifyHeader_of_eq fun _ => rfl
@[simp] theorem refcount_setBuffered : (h.setBuffered a v).refcount b = h.refcount b :=
  elim_modifyHeader_of_eq fun _ => rfl

@[simp] theorem color_setBuffered : (h.setBuffered a v).color b = h.color b :=
  elim_modifyHeader_of_eq fun _ => rfl
@[simp] theorem color_rcInc : (h.rcInc a).color b = h.color b :=
  elim_modifyHeader_of_eq fun _ => rfl
@[simp] theorem color_rcDec : (h.rcDec a).color b = h.color b :=
  elim_modifyHeader_of_eq fun _ => rfl

@[simp] theorem buffered_setColor : (h.setColor a c).buffered b = h.buffered b :=
  elim_modifyHeader_of_eq fun _ => rfl
@[simp] theorem buffered_rcInc : (h.rcInc a).buffered b = h.buffered b :=
  elim_modifyHeader_of_eq fun _ => rfl
@[simp] theorem buffered_rcDec : (h.rcDec a).buffered b = h.buffered b :=
  elim_modifyHeader_of_eq fun _ => rfl

@[simp] theorem isShared_rcInc : (h.rcInc a).isShared b = h.isShared b :=
  elim_modifyHeader_of_eq fun _ => rfl
@[simp] theorem isShared_rcDec : (h.rcDec a).isShared b = h.isShared b :=
  elim_modifyHeader_of_eq fun _ => rfl

end Fields

theorem children_of_not_allocated (ha : ¬ h.Allocated a) : h.children a = [] := by
  simp only [Allocated, Option.not_isSome_iff_eq_none] at ha
  simp [children, ha]

theorem color_of_not_allocated (ha : ¬ h.Allocated a) : h.color a = .black := by
  simp only [Allocated, Option.not_isSome_iff_eq_none] at ha
  simp [color, ha]

end Heap

end Noeta
