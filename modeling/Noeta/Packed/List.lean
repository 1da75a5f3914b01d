import Noeta.Packed.Codec

/-!
# Packed lists

The `Value` methods of `noeta-value/src/packed.rs` on a flat list, with the helpers that rebuild a
column-major buffer. A result `none` is a panic (an index out of range); the answers a method
itself gives (`false`, `None`) stand inside the result.

The sequences of operations of the second half run on a store of lists, once packed and once as
ordinary lists of elements.
-/

namespace Noeta.Packed

open Lib

/-- `Payload::PackedList`: `handle` is the address of the interned schema, which is what
`std::ptr::eq` compares. -/
structure PackedList where
  handle : Nat
  schema : PackedSchema
  bytes : List UInt8

/-! ### Column-major buffers -/

/-- One round of `gather_row`, for the field in a slot. -/
def gatherField (schema : PackedSchema) (bytes : List UInt8) (index count : Nat) (row : List UInt8)
    (field : PackedKind × Nat) : Option (List UInt8) :=
  let off := schema.fieldOffset index field.2 count
  (slice? bytes off (off + field.1.byteWidth)).map fun part => row ++ part

def gatherRow (schema : PackedSchema) (bytes : List UInt8) (index count : Nat) :
    Option (List UInt8) :=
  schema.fields.zipIdx.foldlM (gatherField schema bytes index count) []

/-- One round of `column_append`; the state is `out` and `row_at`. -/
def appendField (schema : PackedSchema) (buf row : List UInt8) (n : Nat) (state : List UInt8 × Nat)
    (field : PackedKind × Nat) : Option (List UInt8 × Nat) :=
  let w := field.1.byteWidth
  let base := n * schema.fieldPrefix field.2
  match slice? buf base (base + n * w), slice? row state.2 (state.2 + w) with
  | some column, some part => some (state.1 ++ column ++ part, state.2 + w)
  | _, _ => none

def columnAppend (schema : PackedSchema) (buf row : List UInt8) : Option (List UInt8) :=
  (schema.fields.zipIdx.foldlM (appendField schema buf row (schema.count buf.length))
    ([], 0)).map Prod.fst

/-- One round of the inner loop of `column_select`. -/
def selectPart (schema : PackedSchema) (buf : List UInt8) (count w slot newBase : Nat)
    (out : List UInt8) (index : Nat × Nat) : Option (List UInt8) :=
  let src := schema.fieldOffset index.1 slot count
  match slice? buf src (src + w) with
  | some part => write? out (newBase + index.2 * w) (newBase + index.2 * w + w) part
  | none => none

/-- One round of `column_select`. -/
def selectField (schema : PackedSchema) (buf : List UInt8) (indices : List Nat) (count : Nat)
    (out : List UInt8) (field : PackedKind × Nat) : Option (List UInt8) :=
  indices.zipIdx.foldlM (selectPart schema buf count field.1.byteWidth field.2
    (indices.length * schema.fieldPrefix field.2)) out

def columnSelect (schema : PackedSchema) (buf : List UInt8) (indices : List Nat) (count : Nat) :
    Option (List UInt8) :=
  schema.fields.zipIdx.foldlM (selectField schema buf indices count)
    (List.replicate (indices.length * schema.byteSize) 0)

/-- One round of `column_set`; the state is `buf` and `row_at`. -/
def setField (schema : PackedSchema) (index count : Nat) (row : List UInt8)
    (state : List UInt8 × Nat) (field : PackedKind × Nat) : Option (List UInt8 × Nat) :=
  let w := field.1.byteWidth
  let dst := schema.fieldOffset index field.2 count
  match slice? row state.2 (state.2 + w) with
  | some part => (write? state.1 dst (dst + w) part).map fun buf => (buf, state.2 + w)
  | none => none

def columnSet (schema : PackedSchema) (buf : List UInt8) (index count : Nat) (row : List UInt8) :
    Option (List UInt8) :=
  (schema.fields.zipIdx.foldlM (setField schema index count row) (buf, 0)).map Prod.fst

/-- One round of `column_concat`. -/
def concatField (schema : PackedSchema) (a b : List UInt8) (na nb : Nat) (out : List UInt8)
    (field : PackedKind × Nat) : Option (List UInt8) :=
  let w := field.1.byteWidth
  let start := schema.fieldPrefix field.2
  let aBase := na * start
  let bBase := nb * start
  let outBase := (na + nb) * start
  match slice? a aBase (aBase + na * w), slice? b bBase (bBase + nb * w) with
  | some fromA, some fromB =>
    (write? out outBase (outBase + na * w) fromA).bind fun out =>
      write? out (outBase + na * w) (outBase + (na + nb) * w) fromB
  | _, _ => none

def columnConcat (schema : PackedSchema) (a b : List UInt8) : Option (List UInt8) :=
  let na := schema.count a.length
  let nb := schema.count b.length
  schema.fields.zipIdx.foldlM (concatField schema a b na nb)
    (List.replicate ((na + nb) * schema.byteSize) 0)

/-! ### The methods -/

/-- `packed_push`: whether the element packed, and the list afterwards. -/
def packedPush (l : PackedList) (element : Value) : Option (Bool × PackedList) :=
  match packElement l.schema element with
  | none => some (false, l)
  | some staged =>
    if l.schema.column then
      (columnAppend l.schema l.bytes staged).map fun bytes => (true, { l with bytes })
    else some (true, { l with bytes := l.bytes ++ staged })

/-- The loop of `packed_items` over a row-major buffer. -/
def unpackRows (schema : PackedSchema) (bytes : List UInt8) : Nat → Nat → Option (List Value)
  | 0, _ => some []
  | n + 1, offset =>
    match unpackElement schema bytes offset with
    | none => none
    | some (value, next) => (unpackRows schema bytes n next).map fun rest => value :: rest

/-- One element of a column-major buffer, gathered and read. -/
def unpackGathered (schema : PackedSchema) (bytes : List UInt8) (count i : Nat) : Option Value :=
  (gatherRow schema bytes i count).bind fun row => (unpackElement schema row 0).map Prod.fst

/-- `packed_items`, which is all `realize_list` puts into the boxed list it returns. -/
def packedItems (l : PackedList) : Option (List Value) :=
  let count := l.schema.count l.bytes.length
  if l.schema.column then (List.range count).mapM (unpackGathered l.schema l.bytes count)
  else unpackRows l.schema l.bytes count 0

def packedGet (l : PackedList) (index : Nat) : Option Value :=
  let stride := l.schema.byteSize
  let elem :=
    if l.schema.column then gatherRow l.schema l.bytes index (l.schema.count l.bytes.length)
    else slice? l.bytes (index * stride) (index * stride + stride)
  elem.bind fun elem => (unpackElement l.schema elem 0).map Prod.fst

def packedField (l : PackedList) (index : Nat) (field : String) : Option (Option Value) :=
  let count := l.schema.count l.bytes.length
  if index ≥ count then some none
  else
    match l.schema.shape.bind (·.slotOf field) with
    | none => some none
    | some slot =>
      let start := l.schema.fieldOffset index slot count
      match l.schema.fields[slot]? with
      | none => none
      | some kind =>
        (slice? l.bytes start (start + kind.byteWidth)).bind fun slice =>
          (decodePackedField kind slice 0).map some

/-- One round of the loop of `packed_select` over a row-major buffer. -/
def selectRow (bytes : List UInt8) (stride : Nat) (out : List UInt8) (i : Nat) :
    Option (List UInt8) :=
  (slice? bytes (i * stride) (i * stride + stride)).map fun element => out ++ element

def packedSelect (l : PackedList) (indices : List Nat) : Option PackedList :=
  let buf :=
    if l.schema.column then
      columnSelect l.schema l.bytes indices (l.schema.count l.bytes.length)
    else indices.foldlM (selectRow l.bytes l.schema.byteSize) []
  buf.map fun bytes => { l with bytes }

/-- The write both `packed_set` and `packed_set_in_place` do. -/
def setBytes (schema : PackedSchema) (bytes : List UInt8) (index : Nat) (staged : List UInt8) :
    Option (List UInt8) :=
  let stride := schema.byteSize
  if schema.column then columnSet schema bytes index (schema.count bytes.length) staged
  else write? bytes (index * stride) (index * stride + stride) staged

def packedSet (l : PackedList) (index : Nat) (element : Value) : Option (Option PackedList) :=
  match packElement l.schema element with
  | none => some none
  | some staged => (setBytes l.schema l.bytes index staged).map fun bytes => some { l with bytes }

def packedSetInPlace (l : PackedList) (index : Nat) (element : Value) :
    Option (Bool × PackedList) :=
  match packElement l.schema element with
  | none => some (false, l)
  | some staged => (setBytes l.schema l.bytes index staged).map fun bytes => (true, { l with bytes })

/-- The append both `packed_concat` and `packed_extend_in_place` do. -/
def concatBytes (schema : PackedSchema) (a b : List UInt8) : Option (List UInt8) :=
  if schema.column then columnConcat schema a b else some (a ++ b)

def packedConcat (l other : PackedList) : Option (Option PackedList) :=
  if l.handle = other.handle then
    (concatBytes l.schema l.bytes other.bytes).map fun bytes => some { l with bytes }
  else some none

def packedExtendInPlace (l other : PackedList) : Option (Bool × PackedList) :=
  if l.handle = other.handle then
    (concatBytes l.schema l.bytes other.bytes).map fun bytes => (true, { l with bytes })
  else some (false, l)

/-! ### Runs -/

/-- `v.field` of an element in an ordinary list. -/
def Value.field : Value → String → Option Value
  | .object shape slots, field => (shape.slotOf field).bind fun slot => slots[slot]?
  | _, _ => none

/-- An operation on a store of lists, which names them by position. `new` carries the content of the
new list, bytes for a packed one and elements for an ordinary one. -/
inductive Op (content : Type) where
  | new (c : content)
  | push (target : Nat) (element : Value)
  | set (source index : Nat) (element : Value)
  | setInPlace (target index : Nat) (element : Value)
  | concat (left right : Nat)
  | extendInPlace (target other : Nat)
  | select (source : Nat) (indices : List Nat)

/-- The answer of a method that mutates in place, where it says it did. -/
def answered (r : Option (Bool × PackedList)) : Option PackedList :=
  match r with
  | some (true, l) => some l
  | _ => none

/-- One operation on packed lists of an interned schema: `none` when it panics, when it hands the
work back to its caller, or when the store has no such list. -/
def packedStep (handle : Nat) (schema : PackedSchema) (store : List PackedList) :
    Op (List UInt8) → Option (List PackedList)
  | .new bytes => some (store ++ [⟨handle, schema, bytes⟩])
  | .push target element =>
    store[target]?.bind fun l => (answered (packedPush l element)).map (store.set target)
  | .set source index element =>
    store[source]?.bind fun l => (packedSet l index element).join.map fun r => store ++ [r]
  | .setInPlace target index element =>
    store[target]?.bind fun l => (answered (packedSetInPlace l index element)).map (store.set target)
  | .concat left right =>
    store[left]?.bind fun l => store[right]?.bind fun r =>
      (packedConcat l r).join.map fun s => store ++ [s]
  | .extendInPlace target other =>
    store[target]?.bind fun l => store[other]?.bind fun r =>
      (answered (packedExtendInPlace l r)).map (store.set target)
  | .select source indices =>
    store[source]?.bind fun l => (packedSelect l indices).map fun r => store ++ [r]

/-- The same operation on ordinary lists: `none` when an index is out of range. -/
def boxedStep (store : List (List Value)) : Op (List Value) → Option (List (List Value))
  | .new elements => some (store ++ [elements])
  | .push target element => store[target]?.map fun l => store.set target (l ++ [element])
  | .set source index element =>
    store[source]?.bind fun l =>
      if index < l.length then some (store ++ [l.set index element]) else none
  | .setInPlace target index element =>
    store[target]?.bind fun l =>
      if index < l.length then some (store.set target (l.set index element)) else none
  | .concat left right =>
    store[left]?.bind fun l => store[right]?.map fun r => store ++ [l ++ r]
  | .extendInPlace target other =>
    store[target]?.bind fun l => store[other]?.map fun r => store.set target (l ++ r)
  | .select source indices =>
    store[source]?.bind fun l => (indices.mapM fun i => l[i]?).map fun r => store ++ [r]

/-- A sequence of operations, from an empty store. -/
def packedRun (handle : Nat) (schema : PackedSchema) (ops : List (Op (List UInt8))) :
    Option (List PackedList) :=
  ops.foldlM (packedStep handle schema) []

def boxedRun (ops : List (Op (List Value))) : Option (List (List Value)) :=
  ops.foldlM boxedStep []

end Noeta.Packed
