import Mathlib.Algebra.Group.Int.Defs
import Mathlib.Data.String.Basic
import Noeta.Lib.Binary64
import Noeta.Lib.SortedTable

/-!
# Value graphs

A runtime value as the equality, the order and the isolate boundary read it: `Payload` with its children in place of
pointers to them. A graph has cycles only through class instances and captured cells, and the boundary looks into neither,
so a tree is the whole of what it reads. An object keeps its address, which is what `==` on a plain class compares.
-/

namespace Noeta.Isolate

open Lib (F32 F64 collect lastAt)

/-- The contract of a registered extern type. -/
class ExternValue (X : Type) where
  displayString : X → String
  typeDisplayName : X → String
  eqValue : X → X → Bool
  cmpValue : X → X → Option Ordering

inductive ShapeKind where
  | struct
  | «class»
  | opaqueStub
  | enum
deriving DecidableEq, Repr

/-- `Shape`. Shapes are interned by their content, so that two handles are one pointer when they are equal here. Only a
plain class compares by identity. -/
structure Shape where
  kind : ShapeKind
  name : String
  fields : List String
  variant : Option String
  builtinResultOption : Bool
  variantIndex : Option Nat
  structuralEq : Bool
  keyCapable : Bool
  transientSlots : List Nat
  unsignedSlots : List Nat
  structural_of_value : kind ≠ .«class» → structuralEq = true
deriving DecidableEq

def Shape.isUnsignedSlot (s : Shape) (i : Nat) : Bool := s.unsignedSlots.contains i

inductive PackedKeyField where
  | int (i : Int)
  | bool (b : Bool)
  | struct (typeName : String) (fields : List PackedKeyField)

inductive MapKey (X : Type) where
  | str (s : String)
  | int (i : Int)
  | external (x : X)
  | packed (typeName : String) (fields : List PackedKeyField)

/-- The payloads that no boundary accepts and no equality compares, by what `type_name` makes of them. -/
inductive OtherKind where
  | cell
  | iter
  | future
  | immediate
deriving DecidableEq, Repr

/-- A value with what it holds. A float is canonical, as every constructor of a float leaves it; a packed list is its
elements as `realize_list` makes them; a map lists its entries as the table iterates over them. -/
inductive Value (X B : Type) where
  | unit
  | bool (b : Bool)
  | int (i : Int)
  | float (f : {f : F64 // f.canonical = f})
  | f32 (f : F32)
  | str (s : String)
  | bytes (data : List UInt8)
  | list (items : List (Value X B))
  | packedList (items : List (Value X B))
  | tuple (items : List (Value X B))
  | set (items : List (Value X B))
  | map (entries : List (MapKey X × Value X B))
  | object (address : Nat) (shape : Shape) (slots : List (Value X B))
  | enum (shape : Shape) (data : List (Value X B))
  | closure (proto : Nat) (upvalues : List (Value X B))
  | nativeFn (func : B)
  | nativeModule (name : String)
  | moduleFn (modName func : String)
  | methodHandle (ty method : String) (associated : Bool)
  | boundMethod (recv : Value X B) (method : String)
  | sender (id : Nat)
  | receiver (id : Nat)
  | external (x : X)
  | other (kind : OtherKind) (held : List (Value X B))

/-! ### Map keys as text -/

mutual

/-- `packed_names::display`, over the registered field names; an unregistered type shows its fields by position. -/
def display (names : String → Option (List String)) (typeName : String) :
    List PackedKeyField → String
  | fields => typeName ++ " \x7b" ++ writeFields names (names typeName) 0 fields ++ "\x7d"

def writeFields (names : String → Option (List String)) (labels : Option (List String)) (i : Nat) :
    List PackedKeyField → String
  | [] => ""
  | f :: fields =>
    (if i = 0 then "" else ", ") ++ (match labels.bind (·[i]?) with
      | some label => label ++ ": "
      | none => "") ++ writeField names f ++ writeFields names labels (i + 1) fields

def writeField (names : String → Option (List String)) : PackedKeyField → String
  | .int i => toString i
  | .bool b => toString b
  | .struct typeName fields => display names typeName fields

end

variable {X B : Type} [ExternValue X] [DecidableEq B] (names : String → Option (List String))

def MapKey.asNativeStr : MapKey X → String
  | .str s => s
  | .int i => toString i
  | .external x => ExternValue.displayString x
  | .packed typeName fields => display names typeName fields

/-- `map_entries`: the string view of a map. -/
def mapEntries {α : Type} (entries : List (MapKey X × α)) : List (String × α) :=
  collect (entries.map fun e => (e.1.asNativeStr names, e.2))

namespace Value

/-! ### Accessors -/

def asInt : Value X B → Option Int
  | .int i => some i
  | _ => none

def asBool : Value X B → Option Bool
  | .bool b => some b
  | _ => none

def asString : Value X B → Option String
  | .str s => some s
  | _ => none

/-- The value `with_extern` hands out. -/
def asExternal : Value X B → Option X
  | .external x => some x
  | _ => none

def bytesData : Value X B → Option (List UInt8)
  | .bytes data => some data
  | _ => none

def shape : Value X B → Option Shape
  | .object _ s _ => some s
  | .enum s _ => some s
  | _ => none

def slots : Value X B → Option (List (Value X B))
  | .object _ _ slots => some slots
  | _ => none

/-- The elements of either list. -/
def realizeList : Value X B → Option (List (Value X B))
  | .list items => some items
  | .packedList items => some items
  | _ => none

/-- `as_f64` of `ops`. -/
def asF64 : Value X B → Option F64
  | .float f => some f.1
  | .f32 f => some (F64.ofF32 f)
  | .int i => some (F64.ofInt i)
  | _ => none

/-- What the value holds directly. -/
def children : Value X B → List (Value X B)
  | .list items | .packedList items | .tuple items | .set items => items
  | .map entries => entries.map Prod.snd
  | .object _ _ slots => slots
  | .enum _ data => data
  | .closure _ upvalues => upvalues
  | .boundMethod recv _ => [recv]
  | .other _ held => held
  | _ => []

def typeName : Value X B → String
  | .bool _ => "bool"
  | .int _ => "int"
  | .float _ => "float"
  | .f32 _ => "f32"
  | .closure _ _ | .nativeFn _ | .moduleFn _ _ | .methodHandle _ _ _ | .boundMethod _ _ => "function"
  | .list _ | .packedList _ => "list"
  | .tuple _ => "tuple"
  | .set _ => "set"
  | .map _ => "map"
  | .object _ _ _ => "object"
  | .enum _ _ => "enum"
  | .nativeModule _ => "module"
  | .other .iter _ => "iterator"
  | .other .future _ => "future"
  | .sender _ => "sender"
  | .receiver _ => "receiver"
  | .bytes _ => "bytes"
  | .external x => ExternValue.typeDisplayName x
  | .str _ | .other .cell _ => "string"
  | .unit | .other .immediate _ => "unit"

end Value

/-! ### Equality -/

/-- Two numbers of different kinds, compared as `f64`. -/
def numbersEqual (l r : Value X B) : Bool :=
  match l.asF64, r.asF64 with
  | some a, some b => F64.eq a b
  | _, _ => false

mutual

def valuesEqual : Value X B → Value X B → Bool
  | .int a, r => match r.asInt with
    | some b => a == b
    | none => numbersEqual (.int a : Value X B) r
  | .float a, r => numbersEqual (.float a : Value X B) r
  | .f32 a, r => numbersEqual (.f32 a : Value X B) r
  | .str a, r => r.asString == some a
  | .bytes a, r => r.bytesData == some a
  | .bool a, r => r.asBool == some a
  | .unit, r => match r with
    | .unit => true
    | _ => false
  | .object address s slots, r => match r with
    | .object address' s' slots' =>
      if s.structuralEq then s.name == s'.name && s.fields == s'.fields && slicesEqual slots slots'
      else address == address'
    | _ => false
  | .enum s data, r => match r with
    | .enum s' data' => s.name == s'.name && s.variant == s'.variant && slicesEqual data data'
    | _ => false
  | .list items, r | .packedList items, r => match r.realizeList with
    | some items' => slicesEqual items items'
    | none => false
  | .tuple items, r => match r with
    | .tuple items' => slicesEqual items items'
    | _ => false
  | .set items, r => match r with
    | .set items' => slicesEqual items items'
    | _ => false
  | .map entries, r => match r with
    | .map entries' =>
      -- the comparison with each value of the left map goes through the string view with its key
      let a := mapEntries names (comparisons entries)
      let b := mapEntries names entries'
      a.length == b.length && a.all fun e => (lastAt e.1 b).any e.2
    | _ => false
  | .nativeModule a, r => match r with
    | .nativeModule b => a == b
    | _ => false
  | .nativeFn a, r => match r with
    | .nativeFn b => a == b
    | _ => false
  | .moduleFn a f, r => match r with
    | .moduleFn b g => a == b && f == g
    | _ => false
  | .methodHandle ty method associated, r => match r with
    | .methodHandle ty' method' associated' =>
      ty == ty' && method == method' && associated == associated'
    | _ => false
  | .boundMethod recv method, r => match r with
    | .boundMethod recv' method' => method == method' && valuesEqual recv recv'
    | _ => false
  | .external x, r => match r with
    | .external y => ExternValue.eqValue x y
    | _ => false
  -- no rung compares a function, an endpoint, an iterator or a future
  | .closure _ _, _ | .sender _, _ | .receiver _, _ | .other _ _, _ => false

def slicesEqual : List (Value X B) → List (Value X B) → Bool
  | [], [] => true
  | x :: xs, y :: ys => valuesEqual x y && slicesEqual xs ys
  | _, _ => false

def comparisons : List (MapKey X × Value X B) → List (MapKey X × (Value X B → Bool))
  | [] => []
  | (k, v) :: entries => (k, valuesEqual v) :: comparisons entries

end

def valueEq (l r : Value X B) : Bool := valuesEqual names l r

/-! ### Order -/

def intSlotOrder (a b : Int) (unsigned : Bool) : Ordering :=
  if unsigned then compare (a % 2 ^ 64) (b % 2 ^ 64) else compare a b

mutual

def packedPrimitiveCmp : Value X B → Value X B → Option Ordering
  | .object _ s slots, r => r.shape.bind fun s' =>
    if !s.keyCapable || !s'.keyCapable then none
    else if compare s.name s'.name ≠ .eq then some (compare s.name s'.name)
    else r.slots.bind fun slots' => slotsCmp s 0 slots slots'
  | .enum s _, r => r.shape.bind fun s' =>
    if !s.keyCapable || !s'.keyCapable then none
    else if compare s.name s'.name ≠ .eq then some (compare s.name s'.name)
    else none
  | _, _ => none

/-- The slots from the `i`-th on, as far as both go. -/
def slotsCmp (s : Shape) (i : Nat) : List (Value X B) → List (Value X B) → Option Ordering
  | x :: xs, y :: ys =>
    (match x.asBool, y.asBool with
      | some p, some q => some (compare p q)
      | _, _ => match x.asInt, y.asInt with
        | some p, some q => some (intSlotOrder p q (s.isUnsignedSlot i))
        | _, _ => packedPrimitiveCmp x y).bind fun o =>
    if o ≠ Ordering.eq then some o else slotsCmp s (i + 1) xs ys
  | _, _ => some .eq

end

def comparePrimitive (l r : Value X B) : Option Ordering :=
  match l.asInt, r.asInt with
  | some a, some b => some (compare a b)
  | _, _ => match l.asString, r.asString with
  | some a, some b => some (compare a b)
  | _, _ => match l.asBool, r.asBool with
  | some a, some b => some (compare a b)
  | _, _ => match l.asExternal, r.asExternal with
  | some x, some y => ExternValue.cmpValue x y
  | _, _ => (packedPrimitiveCmp l r).orElse fun _ =>
    l.asF64.bind fun a => r.asF64.bind fun b => F64.partialCmp a b

end Noeta.Isolate
