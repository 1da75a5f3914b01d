import Noeta.Isolate.Graph

/-!
# Crossing an isolate boundary by copy

`marshal` turns a value graph into a `Wire` that holds no heap pointer, and `rebuild` makes fresh objects of it on the
other thread. Shapes travel as their index in the table of the module both sides share, channel endpoints as the shared
core they name. The receiver is its channel table and the count of the objects it has allocated, the count standing for
the address of the next one.
-/

namespace Noeta.Isolate

/-- A channel of a VM's table: `Local`, or the `ChannelCore` that a `Shared` one names. -/
inductive Channel (C : Type) where
  | «local»
  | shared (core : C)
deriving DecidableEq, Repr

/-- `Module.shapes`, whose ids are 32-bit. -/
structure ShapeTable where
  shapes : List Shape
  small : shapes.length ≤ 2 ^ 32

inductive Wire (B C : Type) where
  | unit
  | bool (b : Bool)
  | int (i : Int)
  | float (f : Lib.F64)
  | f32 (f : Lib.F32)
  | str (s : String)
  | bytes (data : List UInt8)
  | list (items : List (Wire B C))
  | tuple (items : List (Wire B C))
  | set (items : List (Wire B C))
  | map (entries : List (String × Wire B C))
  | object (shape : Nat) (fields : List (Wire B C))
  | enum (shape : Nat) (data : List (Wire B C))
  | function (proto : Nat)
  | nativeFn (func : B)
  | nativeModule (name : String)
  | moduleFn (modName func : String)
  | methodHandle (ty method : String) (associated : Bool)
  | boundMethod (recv : Wire B C) (method : String)
  | sender (core : C)
  | receiver (core : C)

/-- The receiving VM. -/
structure Receiver (C : Type) where
  channels : List (Channel C)
  allocated : Nat

variable {X B C : Type} [ExternValue X] [DecidableEq B]

def ShapeTable.shapeIndex (table : ShapeTable) (s : Shape) : Option Nat :=
  (table.shapes.findIdx? (· == s)).map (· % 2 ^ 32)

/-- The core that an endpoint id names, if its channel can cross. -/
def sharedCore (channels : List (Channel C)) (id : Nat) : Except String C :=
  match channels[id]? with
  | some (.shared core) => .ok core
  | _ => .error "channel"

/-- The results of a walk in its order, or its first error. -/
def sequence {α : Type} : List (String × Except String α) → Except String (List (String × α))
  | [] => .ok []
  | (k, r) :: rest => r.bind fun a => (sequence rest).map ((k, a) :: ·)

section Marshal

variable (names : String → Option (List String)) (table : ShapeTable) (channels : List (Channel C))

mutual

def marshal : Value X B → Except String (Wire B C)
  | .sender id => (sharedCore channels id).map .sender
  | .receiver id => (sharedCore channels id).map .receiver
  | .unit => .ok .unit
  | .bool b => .ok (.bool b)
  | .int i => .ok (.int i)
  | .f32 f => .ok (.f32 f)
  | .float f => .ok (.float f.1)
  | .str s => .ok (.str s)
  | .bytes data => .ok (.bytes data)
  | .list items => (marshalEach items).map .list
  | .tuple items => (marshalEach items).map .tuple
  | .set items => (marshalEach items).map .set
  | .map entries => (sequence (mapEntries names (marshalEntries entries))).map .map
  | .object _ s slots =>
    -- a reference class has an identity, which no copy keeps
    if s.kind = .«class» then .error "class"
    else match table.shapeIndex s with
      | none => .error "unknown object shape"
      | some shape => (marshalEach slots).map (.object shape)
  | .enum s data => match table.shapeIndex s with
    | none => .error "unknown enum shape"
    | some shape => (marshalEach data).map (.enum shape)
  | .closure proto upvalues =>
    if upvalues.length = 0 then .ok (.function proto) else .error "closure with captures"
  | .nativeFn func => .ok (.nativeFn func)
  | .nativeModule name => .ok (.nativeModule name)
  | .moduleFn modName func => .ok (.moduleFn modName func)
  | .methodHandle ty method associated => .ok (.methodHandle ty method associated)
  | .boundMethod recv method => (marshal recv).map (.boundMethod · method)
  | .packedList items =>
    .error ("value of type `" ++ (Value.packedList items : Value X B).typeName ++ "` is not shippable")
  | .external x =>
    .error ("value of type `" ++ (Value.external x : Value X B).typeName ++ "` is not shippable")
  | .other kind held =>
    .error ("value of type `" ++ (Value.other kind held : Value X B).typeName ++ "` is not shippable")

def marshalEach : List (Value X B) → Except String (List (Wire B C))
  | [] => .ok []
  | v :: vs => (marshal v).bind fun w => (marshalEach vs).map (w :: ·)

def marshalEntries : List (MapKey X × Value X B) → List (MapKey X × Except String (Wire B C))
  | [] => []
  | (k, v) :: entries => (k, marshal v) :: marshalEntries entries

end

end Marshal

section Rebuild

variable (table : ShapeTable)

/-- A shared core entered in the receiver's table, with the id of its place. -/
def Receiver.register (st : Receiver C) (core : C) : Nat × Receiver C :=
  (st.channels.length, { st with channels := st.channels ++ [.shared core] })

/-- `Value::map` of the collected entries. -/
def keyed {α : Type} (entries : List (String × α)) : List (MapKey X × α) :=
  (Lib.collect entries).map fun e => (.str e.1, e.2)

mutual

/-- `rebuild`; none where it panics. -/
def rebuild : Wire B C → Receiver C → Option (Value X B × Receiver C)
  | .unit, st => some (.unit, st)
  | .bool b, st => some (.bool b, st)
  | .int i, st => some (.int i, st)
  | .float f, st => some (.float ⟨f.canonical, f.canonical_canonical⟩, st)
  | .f32 f, st => some (.f32 f, st)
  | .str s, st => some (.str s, st)
  | .bytes data, st => some (.bytes data, st)
  | .list items, st => (rebuildEach items st).map fun r => (.list r.1, r.2)
  | .tuple items, st => (rebuildEach items st).map fun r => (.tuple r.1, r.2)
  | .set items, st => (rebuildEach items st).map fun r => (.set r.1, r.2)
  | .map entries, st => (rebuildEntries entries st).map fun r => (.map (keyed r.1), r.2)
  | .object shape fields, st => table.shapes[shape]?.bind fun s =>
    (rebuildEach fields st).map fun r =>
      (.object r.2.allocated s r.1, { r.2 with allocated := r.2.allocated + 1 })
  | .enum shape data, st => table.shapes[shape]?.bind fun s =>
    (rebuildEach data st).map fun r => (.enum s r.1, r.2)
  | .function proto, st => some (.closure proto [], st)
  | .nativeFn func, st => some (.nativeFn func, st)
  | .nativeModule name, st => some (.nativeModule name, st)
  | .moduleFn modName func, st => some (.moduleFn modName func, st)
  | .methodHandle ty method associated, st => some (.methodHandle ty method associated, st)
  | .boundMethod recv method, st =>
    (rebuild recv st).map fun r => (.boundMethod r.1 method, r.2)
  | .sender core, st => some (.sender (st.register core).1, (st.register core).2)
  | .receiver core, st => some (.receiver (st.register core).1, (st.register core).2)

def rebuildEach : List (Wire B C) → Receiver C → Option (List (Value X B) × Receiver C)
  | [], st => some ([], st)
  | w :: ws, st => (rebuild w st).bind fun r =>
    (rebuildEach ws r.2).map fun rs => (r.1 :: rs.1, rs.2)

def rebuildEntries :
    List (String × Wire B C) → Receiver C → Option (List (String × Value X B) × Receiver C)
  | [], st => some ([], st)
  | (k, w) :: entries, st => (rebuild w st).bind fun r =>
    (rebuildEntries entries r.2).map fun rs => ((k, r.1) :: rs.1, rs.2)

end

end Rebuild

end Noeta.Isolate
