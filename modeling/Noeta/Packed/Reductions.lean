import Noeta.Lib.Widening
import Noeta.Packed.Schema

/-!
# Reductions of scalar lists

The folds of `noeta-stdlib/src/reductions.rs` over the buffer of a packed list and over the elements of a boxed one. The
first fold integers of the element's own width, the second fold the erased 64-bit words and are told the width. Floats
are whatever `Floats` says.
-/

namespace Noeta.Packed

open Lib.Widening

inductive NumReduce where
  | sum | product | min | max
  deriving DecidableEq, Repr

inductive BoolReduce where
  | any | all | countTrue
  deriving DecidableEq, Repr

def NumReduce.label : NumReduce → String
  | sum => "sum"
  | product => "product"
  | min => "min"
  | max => "max"

def BoolReduce.label : BoolReduce → String
  | any => "any"
  | all => "all"
  | countTrue => "count_true"

inductive ErrorKind where
  | argType
  deriving DecidableEq, Repr

structure StdError where
  kind : ErrorKind
  message : String
  deriving DecidableEq, Repr

def nonNumeric (op : NumReduce) (found : String) : StdError where
  kind := .argType
  message := s!"`{op.label}` expects a list of numbers, found a list of {found}"

def nonBool (op : BoolReduce) : StdError where
  kind := .argType
  message := s!"`{op.label}` expects a list of bools"

/-! ## Elements -/

/-- The part of the trait `scalar::Scalar` that the folds use. -/
structure Elem (S : Type) where
  bytes : Nat
  zero : S
  one : S
  readLe : List UInt8 → S
  add : S → S → S
  mul : S → S → S
  checkedAdd : S → S → Option S
  min : S → S → S
  max : S → S → S

/-- The implementations for the integer types: `i8` to `i64` and `u8` to `u64`. -/
def Elem.int (signed : Bool) (bits : Nat) : Elem (BitVec bits) where
  bytes := bits / 8
  zero := 0
  one := 1
  readLe chunk := .ofNat bits (readLoop chunk (bits / 8))
  add := (· + ·)
  mul := (· * ·)
  checkedAdd := Lib.Widening.checkedAdd signed
  min x y := if le signed x y then x else y
  max x y := if le signed y x then x else y

/-- The floats, with the implementations for `f64` and `f32` and the conversions to `f64`. -/
structure Floats (F64 F32 : Type) where
  f64 : Elem F64
  f32 : Elem F32
  ofF32 : F32 → F64
  ofWord : BitVec 64 → F64

variable {F64 F32 : Type}

/-- The result of a numeric reduction. -/
inductive RedNum (F64 F32 : Type) where
  | int (word : BitVec 64)
  | float (f : F64)
  | f32 (f : F32)

inductive RedBool where
  | bool (b : Bool)
  | int (word : BitVec 64)
  deriving DecidableEq, Repr

/-! ## Packed lists -/

/-- `chunks_exact`: the bytes in pieces of one length, without a remainder. -/
def chunksExact (n : Nat) (bytes : List UInt8) : List (List UInt8) :=
  (List.range (bytes.length / n)).map fun i => (bytes.drop (i * n)).take n

def reduce {S : Type} (f : S → S → S) : List S → Option S
  | [] => none
  | x :: xs => some (xs.foldl f x)

/-- The elements of a buffer. -/
def elems {S : Type} (E : Elem S) (bytes : List UInt8) : List S := (chunksExact E.bytes bytes).map E.readLe

def reduceElems {S : Type} (E : Elem S) (op : NumReduce) (xs : List S) : Option S :=
  match op with
  | .sum => some (xs.foldl E.add E.zero)
  | .product => some (xs.foldl E.mul E.one)
  | .min => reduce E.min xs
  | .max => reduce E.max xs

def reduceBuf {S : Type} (E : Elem S) (op : NumReduce) (bytes : List UInt8) : Option S := reduceElems E op (elems E bytes)

/-- One of the integer arms of `reduce_num_packed`: the result as its erased word. -/
def reduceInt (signed : Bool) (bits : Nat) (op : NumReduce) (bytes : List UInt8) : Option (RedNum F64 F32) :=
  (reduceBuf (Elem.int signed bits) op bytes).map fun v => .int (widen signed 64 v)

def reduceNumPacked (fl : Floats F64 F32) (op : NumReduce) (field : PackedKind) (bytes : List UInt8) :
    Except StdError (Option (RedNum F64 F32)) :=
  match field with
  | .int => .ok (reduceInt true 64 op bytes)
  | .intN 8 signed => .ok (reduceInt signed 8 op bytes)
  | .intN 16 signed => .ok (reduceInt signed 16 op bytes)
  | .intN 32 signed => .ok (reduceInt signed 32 op bytes)
  | .intN 64 signed => .ok (reduceInt signed 64 op bytes)
  | .float => .ok ((reduceBuf fl.f64 op bytes).map .float)
  | .f64 => .ok ((reduceBuf fl.f64 op bytes).map .float)
  | .f32 => .ok ((reduceBuf fl.f32 op bytes).map .f32)
  | .bool => .error (nonNumeric op "bool")
  | .intN _ _ => .error (nonNumeric op "int")
  | .struct _ => .error (nonNumeric op "structs")

def checkedSumBuf {S : Type} (E : Elem S) (bytes : List UInt8) : Option S :=
  (elems E bytes).foldlM E.checkedAdd E.zero

/-- One of the integer arms of `checked_sum_packed`. -/
def checkedSumInt (signed : Bool) (bits : Nat) (bytes : List UInt8) : Option (RedNum F64 F32) :=
  (checkedSumBuf (Elem.int signed bits) bytes).map fun v => .int (widen signed 64 v)

def checkedSumPacked (fl : Floats F64 F32) (field : PackedKind) (bytes : List UInt8) :
    Except StdError (Option (RedNum F64 F32)) :=
  match field with
  | .int => .ok (checkedSumInt true 64 bytes)
  | .intN 8 signed => .ok (checkedSumInt signed 8 bytes)
  | .intN 16 signed => .ok (checkedSumInt signed 16 bytes)
  | .intN 32 signed => .ok (checkedSumInt signed 32 bytes)
  | .intN 64 signed => .ok (checkedSumInt signed 64 bytes)
  | .float => .ok ((checkedSumBuf fl.f64 bytes).map .float)
  | .f64 => .ok ((checkedSumBuf fl.f64 bytes).map .float)
  | .f32 => .ok ((checkedSumBuf fl.f32 bytes).map .f32)
  | .bool => .error (nonNumeric .sum "bool")
  | .intN _ _ => .error (nonNumeric .sum "int")
  | .struct _ => .error (nonNumeric .sum "structs")

def reduceBoolPacked (op : BoolReduce) (bytes : List UInt8) : RedBool :=
  match op with
  | .any => .bool (bytes.any (· != 0))
  | .all => .bool (bytes.all (· != 0))
  | .countTrue => .int (.ofNat 64 (bytes.countP (· != 0)))

/-! ## Boxed lists -/

/-- A boxed element. -/
inductive Scalar (F64 F32 : Type) where
  | int (word : BitVec 64)
  | float (f : F64)
  | f32 (f : F32)
  | bool (b : Bool)

structure ElemWidth where
  signed : Bool
  bits : Nat
  deriving DecidableEq, Repr

namespace ElemWidth

def word : ElemWidth where
  signed := true
  bits := 64

end ElemWidth

def maskToWidth (value : BitVec 64) (signed : Bool) (bits : Nat) : BitVec 64 :=
  if 64 ≤ bits then value
  else if signed then (value <<< (64 - bits)).sshiftRight (64 - bits)
  else value &&& .ofNat 64 (2 ^ bits - 1)

namespace ElemWidth

def wrap (width : ElemWidth) (value : BitVec 64) : BitVec 64 := maskToWidth value width.signed width.bits

def checkedAdd (width : ElemWidth) (acc x : BitVec 64) : Option (BitVec 64) :=
  if 64 ≤ width.bits then Lib.Widening.checkedAdd width.signed acc x
  else
    let sum := acc + x
    if width.wrap sum = sum then some sum else none

end ElemWidth

inductive Num (F64 : Type) where
  | int (word : BitVec 64)
  | float (f : F64)

def Num.asF64 (fl : Floats F64 F32) : Num F64 → F64
  | int word => fl.ofWord word
  | float f => f

/-- `unsigned_pick` for the smaller word. -/
def unsignedMin (x y : BitVec 64) : BitVec 64 := if x.ult y then x else y

/-- `unsigned_pick` for the greater word. -/
def unsignedMax (x y : BitVec 64) : BitVec 64 := if y.ult x then x else y

/-- `Ord::min` of two words. -/
def wordMin (x y : BitVec 64) : BitVec 64 := if y.slt x then y else x

/-- `Ord::max` of two words: of equal ones the second. -/
def wordMax (x y : BitVec 64) : BitVec 64 := if y.slt x then x else y

/-- The integer arm of `combine`. -/
def combineInt (op : NumReduce) (width : ElemWidth) (x y : BitVec 64) : BitVec 64 :=
  match op with
  | .sum => x + y
  | .product => x * y
  | .min => if width.signed then wordMin x y else unsignedMin x y
  | .max => if width.signed then wordMax x y else unsignedMax x y

def combine (fl : Floats F64 F32) (op : NumReduce) (a b : Num F64) (width : ElemWidth) : Num F64 :=
  match a, b with
  | .int x, .int y => .int (combineInt op width x y)
  | a, b =>
    let x := a.asF64 fl
    let y := b.asF64 fl
    match op with
    | .sum => .float (fl.f64.add x y)
    | .product => .float (fl.f64.mul x y)
    | .min => .float (fl.f64.min x y)
    | .max => .float (fl.f64.max x y)

def numOf (fl : Floats F64 F32) (op : NumReduce) : Scalar F64 F32 → Except StdError (Num F64)
  | .int word => .ok (.int word)
  | .float f => .ok (.float f)
  | .f32 f => .ok (.float (fl.ofF32 f))
  | .bool _ => .error (nonNumeric op "bool")

def toRedNum : Num F64 → RedNum F64 F32
  | .int word => .int word
  | .float f => .float f

/-- The loop of `reduce_num_scalars`. -/
def reduceLoop (fl : Floats F64 F32) (op : NumReduce) (width : ElemWidth) :
    Option (Num F64) → List (Scalar F64 F32) → Except StdError (Option (Num F64))
  | acc, [] => .ok acc
  | acc, s :: scalars =>
    match numOf fl op s with
    | .error e => .error e
    | .ok v =>
      match acc with
      | none => reduceLoop fl op width (some v) scalars
      | some a => reduceLoop fl op width (some (combine fl op a v width)) scalars

/-- A sum or product falls back into the element's width. -/
def wrapped (width : ElemWidth) : Num F64 → RedNum F64 F32
  | .int word => .int (width.wrap word)
  | .float f => .float f

def reduceNumScalars (fl : Floats F64 F32) (op : NumReduce) (scalars : List (Scalar F64 F32)) (width : ElemWidth) :
    Except StdError (Option (RedNum F64 F32)) :=
  match reduceLoop fl op width none scalars with
  | .error e => .error e
  | .ok acc =>
    match op with
    | .sum => .ok (some ((acc.map (wrapped width)).getD (.int 0)))
    | .product => .ok (some ((acc.map (wrapped width)).getD (.int 1)))
    | .min => .ok (acc.map toRedNum)
    | .max => .ok (acc.map toRedNum)

/-- The accumulators of `checked_sum_scalars`. -/
structure CheckedAcc (F64 : Type) where
  int : BitVec 64
  float : F64
  anyFloat : Bool

/-- The loop of `checked_sum_scalars`: no accumulators once the integers have overflowed. -/
def checkedLoop (fl : Floats F64 F32) (width : ElemWidth) :
    CheckedAcc F64 → List (Scalar F64 F32) → Except StdError (Option (CheckedAcc F64))
  | acc, [] => .ok (some acc)
  | acc, .int word :: scalars =>
    match width.checkedAdd acc.int word with
    | some sum => checkedLoop fl width { acc with int := sum } scalars
    | none => .ok none
  | acc, .float f :: scalars => checkedLoop fl width { acc with float := fl.f64.add acc.float f, anyFloat := true } scalars
  | acc, .f32 f :: scalars =>
    checkedLoop fl width { acc with float := fl.f64.add acc.float (fl.ofF32 f), anyFloat := true } scalars
  | _, .bool _ :: _ => .error (nonNumeric .sum "bool")

def checkedSumScalars (fl : Floats F64 F32) (scalars : List (Scalar F64 F32)) (width : ElemWidth) :
    Except StdError (Option (RedNum F64 F32)) :=
  match checkedLoop fl width { int := 0, float := fl.f64.zero, anyFloat := false } scalars with
  | .error e => .error e
  | .ok acc =>
    .ok (acc.map fun acc =>
      if acc.anyFloat then .float (fl.f64.add acc.float (fl.ofWord acc.int)) else .int acc.int)

/-- The loop of `reduce_bool_scalars`, over `any`, `all` and `count`. -/
def boolLoop (op : BoolReduce) : Bool × Bool × BitVec 64 → List (Scalar F64 F32) → Except StdError (Bool × Bool × BitVec 64)
  | acc, [] => .ok acc
  | (any, all, count), .bool b :: scalars =>
    boolLoop op (any || b, all && b, if b then count + 1 else count) scalars
  | _, _ :: _ => .error (nonBool op)

def reduceBoolScalars (op : BoolReduce) (scalars : List (Scalar F64 F32)) : Except StdError RedBool :=
  match boolLoop op (false, true, 0) scalars with
  | .error e => .error e
  | .ok (any, all, count) =>
    match op with
    | .any => .ok (.bool any)
    | .all => .ok (.bool all)
    | .countTrue => .ok (.int count)

/-! ## The elements of a buffer -/

/-- The buffer of a scalar list. -/
def buffer (field : PackedKind) (values : List Value) : List UInt8 :=
  values.flatMap fun v => (packPrimitive field v).getD []

theorem chunksExact_append {n : Nat} (hn : 0 < n) {chunk : List UInt8} (hchunk : chunk.length = n) (rest : List UInt8) :
    chunksExact n (chunk ++ rest) = chunk :: chunksExact n rest := by
  have hcount : (chunk ++ rest).length / n = rest.length / n + 1 := by
    rw [List.length_append, hchunk, Nat.add_comm, Nat.add_div_right _ hn]
  rw [chunksExact, chunksExact, hcount, List.range_succ_eq_map, List.map_cons, List.map_map]
  congr 1
  · rw [Nat.zero_mul, List.drop_zero, ← hchunk, List.take_left]
  · apply List.map_congr_left
    intro i _
    rw [Function.comp_apply, Nat.succ_mul, Nat.add_comm, ← hchunk, List.drop_length_add_append]

theorem chunksExact_flatMap {β : Type} {n : Nat} (hn : 0 < n) (f : β → List UInt8) (hf : ∀ x, (f x).length = n)
    (l : List β) : chunksExact n (l.flatMap f) = l.map f := by
  induction l with
  | nil =>
    rw [List.flatMap_nil, chunksExact, List.length_nil, Nat.zero_div]
    rfl
  | cons x l ih => rw [List.flatMap_cons, chunksExact_append hn (hf x), ih, List.map_cons]

/-- The widths there are. -/
def ElemWidth.Valid (width : ElemWidth) : Prop :=
  width.bits = 8 ∨ width.bits = 16 ∨ width.bits = 32 ∨ width.bits = 64

/-- The width of the elements of a list of integers. -/
def PackedKind.elemWidth : PackedKind → Option ElemWidth
  | .int => some .word
  | .intN 8 signed => some { signed := signed, bits := 8 }
  | .intN 16 signed => some { signed := signed, bits := 16 }
  | .intN 32 signed => some { signed := signed, bits := 32 }
  | .intN 64 signed => some { signed := signed, bits := 64 }
  | _ => none

/-- What a field of a width packs and how its list folds. -/
structure Folds (fl : Floats F64 F32) (field : PackedKind) (width : ElemWidth) : Prop where
  valid : width.Valid
  pack : ∀ v, packPrimitive field (.int v) = some (leBytes (width.bits / 8) v.toNat)
  num : ∀ op bytes, reduceNumPacked fl op field bytes = .ok (reduceInt width.signed width.bits op bytes)
  checked : ∀ bytes, checkedSumPacked fl field bytes = .ok (checkedSumInt width.signed width.bits bytes)

variable {width : ElemWidth}

theorem folds_of_elemWidth (fl : Floats F64 F32) {field : PackedKind}
    (h : field.elemWidth = some width) : Folds fl field width := by
  unfold PackedKind.elemWidth at h
  split at h <;> cases h
  · exact ⟨Or.inr (Or.inr (Or.inr rfl)), fun _ => rfl, fun _ _ => rfl, fun _ => rfl⟩
  · exact ⟨Or.inl rfl, fun _ => rfl, fun _ _ => rfl, fun _ => rfl⟩
  · exact ⟨Or.inr (Or.inl rfl), fun _ => rfl, fun _ _ => rfl, fun _ => rfl⟩
  · exact ⟨Or.inr (Or.inr (Or.inl rfl)), fun _ => rfl, fun _ _ => rfl, fun _ => rfl⟩
  · exact ⟨Or.inr (Or.inr (Or.inr rfl)), fun _ => rfl, fun _ _ => rfl, fun _ => rfl⟩

theorem ElemWidth.Valid.bounds (h : width.Valid) :
    8 ≤ width.bits ∧ width.bits ≤ 64 ∧ 8 * (width.bits / 8) = width.bits := by
  unfold ElemWidth.Valid at h
  omega

theorem readLe_leBytes (h : width.Valid) (v : BitVec 64) :
    (Elem.int width.signed width.bits).readLe (leBytes (width.bits / 8) v.toNat) = v.setWidth width.bits := by
  obtain ⟨-, -, hbits⟩ := h.bounds
  apply BitVec.eq_of_toNat_eq
  change (BitVec.ofNat width.bits (readLoop (leBytes (width.bits / 8) v.toNat) (width.bits / 8))).toNat = _
  rw [readLoop_leBytes _ _ _ (Nat.le_refl _), hbits, BitVec.toNat_ofNat, Nat.mod_mod, BitVec.toNat_setWidth]

theorem elems_buffer {fl : Floats F64 F32} {field : PackedKind} (h : Folds fl field width) (words : List (BitVec 64)) :
    elems (Elem.int width.signed width.bits) (buffer field (words.map .int)) = words.map (·.setWidth width.bits) := by
  obtain ⟨hlow, -, -⟩ := h.valid.bounds
  have hbuffer : buffer field (words.map .int) = words.flatMap fun v => leBytes (width.bits / 8) v.toNat := by
    rw [buffer, List.flatMap_map]
    congr 1
    funext v
    rw [h.pack, Option.getD_some]
  have hchunks : chunksExact (width.bits / 8) (words.flatMap fun v => leBytes (width.bits / 8) v.toNat) =
      words.map fun v => leBytes (width.bits / 8) v.toNat :=
    chunksExact_flatMap (by omega) _ (fun v => length_leBytes _ _) words
  rw [hbuffer, elems]
  change (chunksExact (width.bits / 8) _).map _ = _
  rw [hchunks, List.map_map]
  apply List.map_congr_left
  intro v _
  exact readLe_leBytes h.valid v

/-! ## One step -/

theorem wrap_eq (h : width.Valid) (v : BitVec 64) : width.wrap v = widen width.signed 64 (v.setWidth width.bits) := by
  obtain ⟨hlow, hhigh, -⟩ := h.bounds
  obtain ⟨signed, bits⟩ := width
  unfold ElemWidth.wrap maskToWidth
  split_ifs with hwide hsigned
  · obtain rfl : bits = 64 := Nat.le_antisymm hhigh hwide
    rw [BitVec.setWidth_eq, widen_self]
  · obtain rfl : signed = true := hsigned
    exact sshiftRight_shiftLeft (Nat.lt_of_lt_of_le (by decide) hlow) hhigh v
  · obtain rfl : signed = false := Bool.eq_false_iff.mpr hsigned
    exact and_two_pow_sub_one hhigh v

theorem combineInt_min (width : ElemWidth) (x y : BitVec 64) :
    combineInt .min width x y = if le width.signed x y then x else y := by
  cases hsigned : width.signed with
  | true =>
    simp only [combineInt, hsigned, if_true, wordMin, slt_eq]
    exact pick_other x y
  | false =>
    simp only [combineInt, hsigned, Bool.false_eq_true, if_false, unsignedMin, ult_eq]
    exact pick_smaller x y

theorem combineInt_max (width : ElemWidth) (x y : BitVec 64) :
    combineInt .max width x y = if le width.signed y x then x else y := by
  cases hsigned : width.signed with
  | true =>
    simp only [combineInt, hsigned, if_true, wordMax, slt_eq]
    exact pick_greater x y
  | false =>
    simp only [combineInt, hsigned, Bool.false_eq_true, if_false, unsignedMax, ult_eq]
    exact pick_greater x y

theorem checkedAdd_widen (h : width.Valid) (x y : BitVec width.bits) :
    width.checkedAdd (widen width.signed 64 x) (widen width.signed 64 y) =
      (Lib.Widening.checkedAdd width.signed x y).map (widen width.signed 64) := by
  obtain ⟨-, hhigh, -⟩ := h.bounds
  unfold ElemWidth.checkedAdd
  by_cases hwide : 64 ≤ width.bits
  · rw [if_pos hwide]
    obtain ⟨signed, bits⟩ := width
    obtain rfl : bits = 64 := Nat.le_antisymm hhigh hwide
    rw [widen_self, widen_self]
    cases hsum : Lib.Widening.checkedAdd signed x y with
    | none => rfl
    | some sum => rw [Option.map_some, widen_self]
  · have hlt : width.bits < 64 := Nat.lt_of_not_le hwide
    have hiff := @widen_add_eq_iff width.bits 64 width.signed hlt x y
    rw [if_neg hwide]
    dsimp only
    rw [wrap_eq h, setWidth_widen_add hhigh]
    unfold Lib.Widening.checkedAdd
    cases hover : overflows width.signed x y with
    | true =>
      rw [if_neg (fun heq => by rw [hiff, hover] at heq; cases heq), if_pos rfl]
      rfl
    | false =>
      rw [if_pos (hiff.mpr hover), if_neg Bool.false_ne_true, Option.map_some, hiff.mpr hover]

/-! ## The folds -/

section Folds

variable (fl : Floats F64 F32)

theorem reduceLoop_ints (op : NumReduce) (width : ElemWidth) (a : BitVec 64) (words : List (BitVec 64)) :
    reduceLoop fl op width (some (.int a)) (words.map .int) = .ok (some (.int (words.foldl (combineInt op width) a))) := by
  induction words generalizing a with
  | nil => rfl
  | cons v words ih => exact ih _

theorem reduceLoop_none (op : NumReduce) (width : ElemWidth) (words : List (BitVec 64)) :
    reduceLoop fl op width none (words.map .int) = .ok ((reduce (combineInt op width) words).map .int) := by
  cases words with
  | nil => rfl
  | cons v words => exact reduceLoop_ints fl op width v words

theorem reduce_map {S T : Type} {f : S → S → S} {g : T → T → T} {φ : S → T} (h : ∀ x y, g (φ x) (φ y) = φ (f x y))
    (xs : List S) : reduce g (xs.map φ) = (reduce f xs).map φ := by
  cases xs with
  | nil => rfl
  | cons x xs =>
    rw [List.map_cons, reduce, reduce, Option.map_some, List.foldl_map]
    congr 1
    exact List.foldl_hom φ fun x y => h x y

theorem foldl_setWidth {n w : Nat} {f : BitVec n → BitVec n → BitVec n} {g : BitVec w → BitVec w → BitVec w}
    (h : ∀ x y, (f x y).setWidth w = g (x.setWidth w) (y.setWidth w)) (a : BitVec n) (words : List (BitVec n)) :
    (words.foldl f a).setWidth w = (words.map (·.setWidth w)).foldl g (a.setWidth w) := by
  induction words generalizing a with
  | nil => rfl
  | cons v words ih => rw [List.foldl_cons, ih, h, List.map_cons, List.foldl_cons]

variable {fl} {field : PackedKind} {width : ElemWidth}

theorem arith_agrees (hwidth : width.Valid) (op : NumReduce) {g : BitVec width.bits → BitVec width.bits → BitVec width.bits}
    {e : BitVec width.bits} {unit : BitVec 64}
    (hstep : ∀ x y, (combineInt op width x y).setWidth width.bits = g (x.setWidth width.bits) (y.setWidth width.bits))
    (hunit : ∀ x, g e x = x) (hwiden : widen width.signed 64 e = unit) (words : List (BitVec 64)) :
    (((reduce (combineInt op width) words).map .int).map (wrapped width)).getD (.int unit) =
      (.int (widen width.signed 64 ((words.map (·.setWidth width.bits)).foldl g e)) : RedNum F64 F32) := by
  cases words with
  | nil =>
    change RedNum.int unit = RedNum.int (widen width.signed 64 e)
    rw [hwiden]
  | cons v words =>
    change RedNum.int (width.wrap (words.foldl (combineInt op width) v)) = _
    rw [wrap_eq hwidth, foldl_setWidth hstep, List.map_cons, List.foldl_cons, hunit]

variable {words : List (BitVec 64)}

theorem map_widen_setWidth (hwidth : width.Valid) (hfits : ∀ v ∈ words, Fits width.signed width.bits v) :
    (words.map (·.setWidth width.bits)).map (widen width.signed 64) = words := by
  obtain ⟨hlow, hhigh, -⟩ := hwidth.bounds
  rw [List.map_map]
  conv_rhs => rw [← List.map_id words]
  apply List.map_congr_left
  intro v hv
  exact widen_setWidth (Nat.lt_of_lt_of_le (by decide) hlow) hhigh (hfits v hv)

theorem order_agrees (hwidth : width.Valid) (op : NumReduce) {f : BitVec width.bits → BitVec width.bits → BitVec width.bits}
    (hstep : ∀ x y, combineInt op width (widen width.signed 64 x) (widen width.signed 64 y) = widen width.signed 64 (f x y))
    (hfits : ∀ v ∈ words, Fits width.signed width.bits v) :
    ((reduce (combineInt op width) words).map .int).map toRedNum =
      (reduce f (words.map (·.setWidth width.bits))).map fun v =>
        (.int (widen width.signed 64 v) : RedNum F64 F32) := by
  have hreduce := reduce_map hstep (words.map (·.setWidth width.bits))
  rw [map_widen_setWidth hwidth hfits] at hreduce
  rw [hreduce, Option.map_map, Option.map_map]
  rfl

theorem reduceNum_agrees (h : Folds fl field width)
    (hfits : ∀ v ∈ words, Fits width.signed width.bits v) (op : NumReduce) :
    reduceNumPacked fl op field (buffer field (words.map .int)) = reduceNumScalars fl op (words.map .int) width := by
  obtain ⟨hlow, hhigh, -⟩ := h.valid.bounds
  rw [h.num, reduceInt, reduceBuf, elems_buffer h, reduceNumScalars, reduceLoop_none]
  cases op with
  | sum =>
    have hsum : _ = (RedNum.int _ : RedNum F64 F32) := arith_agrees h.valid .sum
      (fun x y => BitVec.setWidth_add x y hhigh) BitVec.zero_add (widen_zero hhigh) words
    simp only [hsum]
    rfl
  | product =>
    have hproduct : _ = (RedNum.int _ : RedNum F64 F32) := arith_agrees h.valid .product
      (fun x y => BitVec.setWidth_mul x y hhigh) BitVec.one_mul (widen_one (by omega) hhigh) words
    simp only [hproduct]
    rfl
  | min =>
    apply congrArg Except.ok
    refine (order_agrees h.valid .min (fun x y => ?_) hfits).symm
    rw [combineInt_min, le_widen hhigh]
    exact (apply_ite _ _ _ _).symm
  | max =>
    apply congrArg Except.ok
    refine (order_agrees h.valid .max (fun x y => ?_) hfits).symm
    rw [combineInt_max, le_widen hhigh]
    exact (apply_ite _ _ _ _).symm

theorem checkedLoop_ints (hwidth : width.Valid) (float : F64) (a : BitVec width.bits) (xs : List (BitVec width.bits)) :
    checkedLoop fl width { int := widen width.signed 64 a, float := float, anyFloat := false }
        ((xs.map (widen width.signed 64)).map .int) =
      .ok ((xs.foldlM (Lib.Widening.checkedAdd width.signed) a).map fun v =>
        { int := widen width.signed 64 v, float := float, anyFloat := false }) := by
  induction xs generalizing a with
  | nil => rfl
  | cons x xs ih =>
    rw [List.map_cons, List.map_cons, checkedLoop, checkedAdd_widen hwidth, List.foldlM_cons]
    cases Lib.Widening.checkedAdd width.signed a x with
    | none => rfl
    | some sum => exact ih sum

theorem checkedSum_agrees (h : Folds fl field width) (hfits : ∀ v ∈ words, Fits width.signed width.bits v) :
    checkedSumPacked fl field (buffer field (words.map .int)) = checkedSumScalars fl (words.map .int) width := by
  obtain ⟨hlow, hhigh, -⟩ := h.valid.bounds
  have hloop := @checkedLoop_ints F64 F32 fl width h.valid fl.f64.zero 0 (words.map (·.setWidth width.bits))
  rw [map_widen_setWidth h.valid hfits, widen_zero hhigh] at hloop
  rw [h.checked, checkedSumInt, checkedSumBuf, elems_buffer h, checkedSumScalars, hloop]
  simp only [Option.map_map]
  rfl

theorem boolLoop_bools (op : BoolReduce) (any all : Bool) (count : BitVec 64) (bools : List Bool) :
    boolLoop op (any, all, count) (bools.map (.bool : Bool → Scalar F64 F32)) =
      .ok (any || bools.any id, all && bools.all id, count + .ofNat 64 (bools.countP id)) := by
  induction bools generalizing any all count with
  | nil =>
    rw [List.any_nil, List.all_nil, Bool.or_false, Bool.and_true, List.countP_nil, BitVec.add_zero]
    rfl
  | cons b bools ih =>
    rw [List.map_cons, boolLoop, ih, List.any_cons, List.all_cons, List.countP_cons, Bool.or_assoc, Bool.and_assoc]
    cases b with
    | true =>
      have hcount : count + 1 + .ofNat 64 (bools.countP id) = count + .ofNat 64 (bools.countP id + 1) := by
        rw [BitVec.ofNat_add, BitVec.add_assoc, BitVec.add_comm 1]
        rfl
      exact congrArg (fun c => Except.ok (_, _, c)) hcount
    | false => rfl

/-- The byte of a boolean. -/
def boolByte (b : Bool) : UInt8 := if b then 1 else 0

theorem ne_zero_comp_boolByte : (fun byte : UInt8 => byte != 0) ∘ boolByte = id := by
  funext b
  cases b
  · rfl
  · rfl

theorem buffer_bools (bools : List Bool) : buffer .bool (bools.map .bool) = bools.map boolByte := by
  rw [buffer, List.flatMap_map]
  induction bools with
  | nil => rfl
  | cons b bools ih =>
    rw [List.flatMap_cons, ih]
    rfl

theorem reduceBool_agrees (op : BoolReduce) (bools : List Bool) :
    reduceBoolScalars op (bools.map (.bool : Bool → Scalar F64 F32)) =
      .ok (reduceBoolPacked op (buffer .bool (bools.map .bool))) := by
  rw [reduceBoolScalars, boolLoop_bools, buffer_bools]
  cases op with
  | any => simp only [reduceBoolPacked, List.any_map, ne_zero_comp_boolByte, Bool.false_or]
  | all => simp only [reduceBoolPacked, List.all_map, ne_zero_comp_boolByte, Bool.true_and]
  | countTrue =>
    simp only [reduceBoolPacked, List.countP_map, ne_zero_comp_boolByte]
    exact congrArg (fun count => Except.ok (RedBool.int count)) (BitVec.zero_add _)

end Folds

/-- A list of integers of one width, and a list of booleans, reduce to the same result from the buffer and from the boxed
elements. -/
theorem reductions_agree (fl : Floats F64 F32) {field : PackedKind} {width : ElemWidth} (h : field.elemWidth = some width)
    {words : List (BitVec 64)} (hfits : ∀ v ∈ words, Fits width.signed width.bits v) :
    (∀ op, reduceNumPacked fl op field (buffer field (words.map .int)) = reduceNumScalars fl op (words.map .int) width) ∧
      checkedSumPacked fl field (buffer field (words.map .int)) = checkedSumScalars fl (words.map .int) width ∧
      ∀ op (bools : List Bool), reduceBoolScalars op (bools.map (.bool : Bool → Scalar F64 F32)) =
        .ok (reduceBoolPacked op (buffer .bool (bools.map .bool))) := by
  have hfolds := folds_of_elemWidth fl h
  exact ⟨reduceNum_agrees hfolds hfits, checkedSum_agrees hfolds hfits, reduceBool_agrees⟩

/-- Floats without any value but one, for lists of integers. -/
def noFloats : Floats Unit Unit where
  f64 := ⟨8, (), (), fun _ => (), fun _ _ => (), fun _ _ => (), fun _ _ => some (), fun _ _ => (), fun _ _ => ()⟩
  f32 := ⟨4, (), (), fun _ => (), fun _ _ => (), fun _ _ => (), fun _ _ => some (), fun _ _ => (), fun _ _ => ()⟩
  ofF32 := id
  ofWord _ := ()

/-- Two bytes whose sum wraps. -/
theorem reductions_agree_bytes :
    reduceNumPacked noFloats .sum (.intN 8 false) (buffer (.intN 8 false) [.int 200, .int 100]) =
      reduceNumScalars noFloats .sum [.int 200, .int 100] { signed := false, bits := 8 } := by
  have hwidth : (PackedKind.intN 8 false).elemWidth = some { signed := false, bits := 8 } := rfl
  have hfits : ∀ v ∈ [(200 : BitVec 64), 100], Fits false 8 v := by
    intro v hv
    simp only [List.mem_cons, List.not_mem_nil, or_false] at hv
    obtain rfl | rfl := hv
    · exact (by decide : (200 : BitVec 64).toNat < 2 ^ 8)
    · exact (by decide : (100 : BitVec 64).toNat < 2 ^ 8)
  exact (reductions_agree noFloats hwidth hfits).1 .sum

end Noeta.Packed
