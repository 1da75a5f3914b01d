import Noeta.Lib.Slices
import Mathlib.Data.Nat.Bitwise

/-!
# Packed elements

`PackedKind` and `PackedSchema` of `noeta-object`, and the element codec of
`noeta-value/src/packed.rs`: `pack_element` writes a value's primitive fields as little-endian
bytes, `unpack_element` reads them back. An index out of range is the result `none`.

An `int` is the 64-bit word it is stored in, a float its bit pattern. The only thing a float loses
on the way into a value is the payload of a NaN, which `Value::float` makes canonical.
-/

namespace Noeta.Packed

open Lib

/-- The part of a shape an element needs: its identity and its field names in slot order. -/
structure Shape where
  name : String
  fields : List String
deriving DecidableEq, Repr

def Shape.slotOf (s : Shape) (field : String) : Option Nat :=
  s.fields.findIdx? (· == field)

/-- The values an element is made of; `other` is any other heap value. -/
inductive Value where
  | int (word : BitVec 64)
  | float (bits : BitVec 64)
  | f32 (bits : BitVec 32)
  | bool (b : Bool)
  | object (shape : Shape) (slots : List Value)
  | other (id : Nat)

mutual

/-- A packed field's storage. -/
inductive PackedKind where
  | int
  | float
  | f32
  | f64
  | intN (bits : Nat) (signed : Bool)
  | bool
  | struct (inner : PackedSchema)

/-- The layout of a packed element: the shape (`none` for a bare scalar), the kinds of its fields in
slot order, the bytes an element takes, and whether the list is stored column by column. -/
inductive PackedSchema where
  | mk (shape : Option Shape) (fields : List PackedKind) (byteSize : Nat) (column : Bool)

end

namespace PackedSchema

def shape : PackedSchema → Option Shape
  | .mk shape _ _ _ => shape

def fields : PackedSchema → List PackedKind
  | .mk _ fields _ _ => fields

def byteSize : PackedSchema → Nat
  | .mk _ _ byteSize _ => byteSize

def column : PackedSchema → Bool
  | .mk _ _ _ column => column

end PackedSchema

def PackedKind.byteWidth : PackedKind → Nat
  | .bool => 1
  | .f32 => 4
  | .int => 8
  | .float => 8
  | .f64 => 8
  | .intN bits _ => bits / 8
  | .struct inner => inner.byteSize

namespace PackedSchema

/-- `field_prefix`: the offset of a field in a row. -/
def fieldPrefix (schema : PackedSchema) (slot : Nat) : Nat :=
  ((schema.fields.take slot).map PackedKind.byteWidth).sum

/-- The width of the field in a slot. -/
def widthAt (schema : PackedSchema) (slot : Nat) : Nat :=
  (schema.fields[slot]?.map PackedKind.byteWidth).getD 0

/-- `count`: the elements a buffer of `len` bytes holds. -/
def count (schema : PackedSchema) (len : Nat) : Nat := len / schema.byteSize

/-- `field_offset`: the one place the layout is interpreted for per-field access. -/
def fieldOffset (schema : PackedSchema) (i slot count : Nat) : Nat :=
  if schema.column then count * schema.fieldPrefix slot + i * schema.widthAt slot
  else i * schema.byteSize + schema.fieldPrefix slot

end PackedSchema

/-! ### Words and bytes -/

/-- The low `n` bytes of a word, least significant first: `to_le_bytes` and the loop of
`write_intn`. -/
def leBytes (n raw : Nat) : List UInt8 :=
  (List.range n).map fun i => UInt8.ofNat (raw >>> (8 * i))

/-- The word of `n` bytes, as the loop of `read_intn` puts it together. -/
def readLoop (bytes : List UInt8) : Nat → Nat
  | 0 => 0
  | n + 1 => readLoop bytes n ||| ((bytes.getD n 0).toNat <<< (8 * n))

/-- `read_intn` after its loop: a signed slot narrower than a word extends its top bit. -/
def extend (raw bits : Nat) (signed : Bool) : Nat :=
  if signed ∧ bits < 64 ∧ raw &&& (1 <<< (bits - 1)) ≠ 0 then
    raw ||| ((2 ^ 64 - 1) ^^^ (2 ^ bits - 1))
  else raw

/-- `Value::float`: a NaN is stored as the canonical one. -/
def canonicalNan : BitVec 64 := 0x7ff8000000000000#64

def isNan (bits : BitVec 64) : Bool := 0x7ff0000000000000 < bits.toNat % 2 ^ 63

def Value.ofFloat (bits : BitVec 64) : Value :=
  if isNan bits then .float canonicalNan else .float bits

/-! ### The codec -/

/-- `pack_scalar`, and the arms of `pack_element` for primitives: the bytes of one primitive, `none`
when the value is not of the kind. -/
def packPrimitive (kind : PackedKind) (v : Value) : Option (List UInt8) :=
  match kind, v with
  | .int, .int word => some (leBytes 8 word.toNat)
  | .float, .float bits => some (leBytes 8 bits.toNat)
  | .f64, .float bits => some (leBytes 8 bits.toNat)
  | .f32, .f32 bits => some (leBytes 4 bits.toNat)
  | .intN bits _, .int word => some (leBytes (bits / 8) word.toNat)
  | .bool, .bool b => some [if b then 1 else 0]
  | _, _ => none

mutual

def packElement : PackedSchema → Value → Option (List UInt8)
  | .mk none (kind :: _) _ _, v => packPrimitive kind v
  | .mk none [] _ _, _ => none
  | .mk (some _) fields _ _, .object _ slots =>
    if slots.length = fields.length then packFields fields slots else none
  | .mk (some _) _ _ _, _ => none

def packFields : List PackedKind → List Value → Option (List UInt8)
  | kind :: kinds, slot :: slots =>
    match packKind kind slot, packFields kinds slots with
    | some a, some b => some (a ++ b)
    | _, _ => none
  | _, _ => some []

def packKind : PackedKind → Value → Option (List UInt8)
  | .struct inner, v => packElement inner v
  | kind, v => packPrimitive kind v

end

/-- The arms of `decode_packed_field` for primitives. -/
def decodePrimitive (kind : PackedKind) (bytes : List UInt8) (offset : Nat) : Option Value :=
  match kind with
  | .int => (slice? bytes offset (offset + 8)).map fun b => .int (.ofNat 64 (readLoop b 8))
  | .float => (slice? bytes offset (offset + 8)).map fun b => .ofFloat (.ofNat 64 (readLoop b 8))
  | .f64 => (slice? bytes offset (offset + 8)).map fun b => .ofFloat (.ofNat 64 (readLoop b 8))
  | .f32 => (slice? bytes offset (offset + 4)).map fun b => .f32 (.ofNat 32 (readLoop b 4))
  | .intN bits signed =>
    (slice? bytes offset (offset + bits / 8)).map fun b =>
      .int (.ofNat 64 (extend (readLoop b (bits / 8)) bits signed))
  | .bool => (slice? bytes offset (offset + 1)).map fun b => .bool (b.getD 0 0 != 0)
  | .struct _ => none

mutual

/-- `unpack_element`: the value at `offset` and the offset just past it. -/
def unpackElement : PackedSchema → List UInt8 → Nat → Option (Value × Nat)
  | .mk none (kind :: _) _ _, bytes, offset =>
    (decodePackedField kind bytes offset).map fun v => (v, offset + kind.byteWidth)
  | .mk none [] _ _, _, _ => none
  | .mk (some shape) fields _ _, bytes, offset =>
    (unpackFields fields bytes offset).map fun r => (.object shape r.1, r.2)

/-- The loop of `unpack_element` over the fields. -/
def unpackFields : List PackedKind → List UInt8 → Nat → Option (List Value × Nat)
  | [], _, offset => some ([], offset)
  | kind :: kinds, bytes, offset =>
    match unpackKind kind bytes offset with
    | none => none
    | some (v, next) => (unpackFields kinds bytes next).map fun r => (v :: r.1, r.2)

/-- One round of that loop. -/
def unpackKind : PackedKind → List UInt8 → Nat → Option (Value × Nat)
  | .struct inner, bytes, offset => unpackElement inner bytes offset
  | kind, bytes, offset => (decodePrimitive kind bytes offset).map fun v => (v, offset + kind.byteWidth)

def decodePackedField : PackedKind → List UInt8 → Nat → Option Value
  | .struct inner, bytes, offset => (unpackElement inner bytes offset).map Prod.fst
  | kind, bytes, offset => decodePrimitive kind bytes offset

end

/-! ### Schemas and elements of their type -/

/-- A kind with no schema inside it. -/
def PackedKind.Primitive : PackedKind → Prop
  | .struct _ => False
  | _ => True

mutual

/-- A schema as the compiler builds it: a bare scalar has one primitive field, a struct one kind for
each field of its shape, and the byte size is the sum of the widths. -/
def PackedSchema.Wf : PackedSchema → Prop
  | .mk none fields byteSize _ =>
    (∃ kind, fields = [kind] ∧ kind.Primitive ∧ byteSize = kind.byteWidth) ∧ KindsWf fields
  | .mk (some shape) fields byteSize _ =>
    shape.fields.length = fields.length ∧ byteSize = (fields.map PackedKind.byteWidth).sum ∧
      KindsWf fields

def KindsWf : List PackedKind → Prop
  | [] => True
  | kind :: kinds => PackedKind.Wf kind ∧ KindsWf kinds

def PackedKind.Wf : PackedKind → Prop
  | .intN bits _ => bits = 8 ∨ bits = 16 ∨ bits = 32 ∨ bits = 64
  | .struct inner => PackedSchema.Wf inner
  | _ => True

end

/-- A value of a primitive kind: a fixed-width integer lies in its range, and a float is as
`Value::float` makes it. -/
def HasPrimitive : PackedKind → Value → Prop
  | .int, .int _ => True
  | .float, .float bits => Value.ofFloat bits = .float bits
  | .f64, .float bits => Value.ofFloat bits = .float bits
  | .f32, .f32 _ => True
  | .intN bits true, .int word => -2 ^ (bits - 1) ≤ word.toInt ∧ word.toInt < 2 ^ (bits - 1)
  | .intN bits false, .int word => word.toNat < 2 ^ bits
  | .bool, .bool _ => True
  | _, _ => False

mutual

/-- A value of the schema's type. -/
def HasType : PackedSchema → Value → Prop
  | .mk none fields _ _, v => ∃ kind, fields = [kind] ∧ HasPrimitive kind v
  | .mk (some shape) fields _ _, .object s slots => s = shape ∧ HaveTypes fields slots
  | .mk (some _) _ _ _, _ => False

def HaveTypes : List PackedKind → List Value → Prop
  | [], [] => True
  | kind :: kinds, v :: vs => HasKind kind v ∧ HaveTypes kinds vs
  | _, _ => False

def HasKind : PackedKind → Value → Prop
  | .struct inner, v => HasType inner v
  | kind, v => HasPrimitive kind v

end

/-! ### Words survive the way through bytes -/

theorem length_leBytes (n raw : Nat) : (leBytes n raw).length = n := by
  simp [leBytes]

theorem readLoop_lt (bytes : List UInt8) (n : Nat) : readLoop bytes n < 2 ^ (8 * n) := by
  induction n with
  | zero => simp [readLoop]
  | succ n ih =>
    have hbyte : (bytes.getD n 0).toNat < 2 ^ 8 := (bytes.getD n 0).toNat_lt
    have hhigh : (bytes.getD n 0).toNat <<< (8 * n) < 2 ^ (8 * (n + 1)) := by
      rw [Nat.shiftLeft_eq, show 8 * (n + 1) = 8 + 8 * n by omega, Nat.pow_add]
      exact Nat.mul_lt_mul_of_pos_right hbyte (Nat.two_pow_pos _)
    have hlow : readLoop bytes n < 2 ^ (8 * (n + 1)) :=
      Nat.lt_of_lt_of_le ih (Nat.pow_le_pow_right (by decide) (by omega))
    exact Nat.or_lt_two_pow hlow hhigh

theorem readLoop_leBytes (raw n : Nat) : ∀ k, k ≤ n → readLoop (leBytes n raw) k = raw % 2 ^ (8 * k) := by
  intro k
  induction k with
  | zero =>
    intro _
    simp [readLoop, Nat.mod_one]
  | succ k ih =>
    intro hk
    have hget : (leBytes n raw).getD k 0 = UInt8.ofNat (raw >>> (8 * k)) := by
      simp [leBytes, List.getD_eq_getElem?_getD, List.getElem?_range (show k < n by omega)]
    rw [readLoop, ih (by omega), hget]
    have hbyte : (UInt8.ofNat (raw >>> (8 * k))).toNat = raw / 2 ^ (8 * k) % 2 ^ 8 := by
      rw [UInt8.toNat_ofNat', Nat.shiftRight_eq_div_pow]
    rw [hbyte, Nat.shiftLeft_eq, Nat.lor_comm]
    have hor := Nat.two_pow_add_eq_or_of_lt (Nat.mod_lt raw (Nat.two_pow_pos (8 * k)))
      (raw / 2 ^ (8 * k) % 2 ^ 8)
    rw [Nat.mul_comm] at hor
    rw [← hor, show 8 * (k + 1) = 8 * k + 8 by omega, Nat.pow_add, Nat.mod_mul]
    rw [Nat.mul_comm]
    omega

theorem readLoop_full (raw n : Nat) (h : raw < 2 ^ (8 * n)) :
    readLoop (leBytes n raw) n = raw := by
  rw [readLoop_leBytes raw n n (Nat.le_refl n), Nat.mod_eq_of_lt h]

theorem and_sign_ne_zero (raw k : Nat) (h : raw < 2 ^ (k + 1)) :
    raw &&& (1 <<< k) ≠ 0 ↔ 2 ^ k ≤ raw := by
  rw [Nat.one_shiftLeft, Nat.and_two_pow, Nat.testBit_eq_decide_div_mod_eq]
  have hpos : 0 < 2 ^ k := Nat.two_pow_pos k
  have hdouble : 2 ^ (k + 1) = 2 * 2 ^ k := by rw [Nat.pow_succ, Nat.mul_comm]
  by_cases hle : 2 ^ k ≤ raw
  · have hdiv : raw / 2 ^ k = 1 := by
      rw [Nat.div_eq_iff hpos]
      omega
    simp [hdiv, hle]
  · have hdiv : raw / 2 ^ k = 0 := Nat.div_eq_of_lt (by omega)
    simp [hdiv, hle]

theorem or_mask (raw bits : Nat) (hbits : bits = 8 ∨ bits = 16 ∨ bits = 32 ∨ bits = 64)
    (h : raw < 2 ^ bits) :
    raw ||| ((2 ^ 64 - 1) ^^^ (2 ^ bits - 1)) = raw + (2 ^ 64 - 2 ^ bits) := by
  have hmask : (2 ^ 64 - 1) ^^^ (2 ^ bits - 1) = 2 ^ bits * (2 ^ (64 - bits) - 1) := by
    obtain rfl | rfl | rfl | rfl := hbits <;> decide
  have hsum : 2 ^ bits * (2 ^ (64 - bits) - 1) = 2 ^ 64 - 2 ^ bits := by
    obtain rfl | rfl | rfl | rfl := hbits <;> decide
  rw [hmask, Nat.lor_comm, ← Nat.two_pow_add_eq_or_of_lt h, hsum, Nat.add_comm]

theorem extend_signed (word : BitVec 64) (bits : Nat)
    (hbits : bits = 8 ∨ bits = 16 ∨ bits = 32 ∨ bits = 64)
    (hlow : -2 ^ (bits - 1) ≤ word.toInt) (hhigh : word.toInt < 2 ^ (bits - 1)) :
    extend (word.toNat % 2 ^ bits) bits true = word.toNat := by
  have hword : word.toNat < 2 ^ 64 := word.isLt
  have hraw : word.toNat % 2 ^ bits < 2 ^ bits := Nat.mod_lt _ (Nat.two_pow_pos bits)
  have hsign := and_sign_ne_zero (word.toNat % 2 ^ bits) (bits - 1)
    (by rw [show bits - 1 + 1 = bits by omega]; exact hraw)
  have hor := or_mask (word.toNat % 2 ^ bits) bits hbits hraw
  rw [BitVec.toInt_eq_toNat_cond] at hlow hhigh
  unfold extend
  simp only [hsign, true_and]
  obtain rfl | rfl | rfl | rfl := hbits
  all_goals
    rw [hor]
    split at hlow <;> split <;> omega

theorem extend_unsigned (raw bits : Nat) : extend raw bits false = raw := by
  simp [extend]

end Noeta.Packed
