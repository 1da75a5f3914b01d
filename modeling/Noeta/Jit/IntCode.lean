import Mathlib.Order.Compare
import Mathlib.Tactic.Linarith
import Mathlib.Tactic.Positivity

/-!
# Native integer code

What `emit_int_binary_raw`, `emit_wide_int` and `emit_mask_width` compute on 64-bit words, beside the operators of the
interpreter. Wherever both operands are immediate integers the native code stores the interpreter's word, and bails with
every register as it was exactly where the interpreter raises or needs a heap integer. The stores without a fit check are
right because the result is in range.
-/

namespace Noeta.Jit

abbrev Word := BitVec 64

/-! ### Values -/

def qnan : Word := 0x7ffc000000000000#64
def signBit : Word := 0x8000000000000000#64
def ptrMask : Word := 0x0000ffffffffffff#64
def intTag : Word := 0x0002000000000000#64
def tagFalse : Word := 1#64
def tagTrue : Word := 2#64
def intMin : Int := -2 ^ 47
def intMax : Int := 2 ^ 47 - 1

/-- A value: its word, or the integer on the heap that the word points at. -/
inductive Value where
  | word (bits : Word)
  | boxed (i : Word)
deriving DecidableEq, Repr

/-- `(INT_MIN..=INT_MAX).contains(&i)`. -/
def InRange (i : Word) : Prop := intMin ≤ i.toInt ∧ i.toInt ≤ intMax

instance (i : Word) : Decidable (InRange i) := inferInstanceAs (Decidable (_ ∧ _))

namespace Value

/-- The word of an immediate integer. -/
def immediate (i : Word) : Word := qnan ||| intTag ||| (i &&& ptrMask)

def int (i : Word) : Value := if InRange i then .word (immediate i) else .boxed i

def bool (b : Bool) : Value := .word (qnan ||| if b then tagTrue else tagFalse)

def isFloat : Value → Bool
  | .word w => w &&& qnan != qnan
  | .boxed _ => false

def isPointer : Value → Bool
  | .word w => w &&& (signBit ||| qnan) == signBit ||| qnan
  | .boxed _ => true

/-- `as_int`; a word with the tag of a pointer is some other heap value. -/
def asInt (v : Value) : Option Word :=
  match v with
  | .word w => if !v.isFloat && !v.isPointer && w &&& intTag != 0 then some (((w &&& ptrMask) <<< 16).sshiftRight 16) else none
  | .boxed i => some i

def intOperand (v : Value) : Option Word := if v.isFloat then none else v.asInt

end Value

/-! ### The interpreter -/

inductive BinaryOp where
  | add | sub | mul | div | rem | concat | eq | ne | identity | notIdentity | lt | le | gt | ge | and | or
  | bitAnd | bitOr | bitXor | shl | shr
deriving DecidableEq, Repr

inductive DiagnosticCode where
  | panic | divisionByZero | typeMismatch
deriving DecidableEq, Repr

structure OpError where
  code : DiagnosticCode
  text : String
deriving DecidableEq, Repr

def divByZero : OpError := { code := .divisionByZero, text := "division by zero" }

def shiftOutOfRange (n : Word) : OpError :=
  { code := .panic, text := "shift amount " ++ toString n.toInt ++ " is out of range (must be 0..=63)" }

section

-- the operators, and the operands, that are not about two integers
variable (other : BinaryOp → Value → Value → Except OpError Value)

def arithmetic (op : BinaryOp) (left right : Value) : Except OpError Value :=
  match left.intOperand, right.intOperand with
  | some a, some b =>
    match op with
    | .add => .ok (.int (a + b))
    | .sub => .ok (.int (a - b))
    | .mul => .ok (.int (a * b))
    | .div => if b = 0 then .error divByZero else .ok (.int (a.sdiv b))
    | .rem => if b = 0 then .error divByZero else .ok (.int (a.srem b))
    | _ => other op left right
  | _, _ => other op left right

def bitwise (op : BinaryOp) (left right : Value) : Except OpError Value :=
  match left.intOperand, right.intOperand with
  | some a, some b =>
    match op with
    | .bitAnd => .ok (.int (a &&& b))
    | .bitOr => .ok (.int (a ||| b))
    | .bitXor => .ok (.int (a ^^^ b))
    | _ =>
      if 0 ≤ b.toInt ∧ b.toInt < 64 then
        .ok (.int (if op = .shl then a <<< (b.toNat % 2 ^ 32) else a.sshiftRight (b.toNat % 2 ^ 32)))
      else .error (shiftOutOfRange b)
  | _, _ => other op left right

/-- `compare` over `compare_primitive`. -/
def compare (op : BinaryOp) (left right : Value) : Except OpError Value :=
  match left.intOperand, right.intOperand with
  | some a, some b =>
    let ordering := Ord.compare a.toInt b.toInt
    .ok (.bool (match op with
      | .lt => ordering == .lt
      | .le => ordering != .gt
      | .gt => ordering == .gt
      | _ => ordering != .lt))
  | _, _ => other op left right

/-- `values_equal` for `==` and `!=`. -/
def equality (op : BinaryOp) (left right : Value) : Except OpError Value :=
  match left.intOperand, right.intOperand with
  | some a, some b => .ok (.bool (if op = .eq then a == b else !(a == b)))
  | _, _ => other op left right

def applyBinary (op : BinaryOp) (left right : Value) : Except OpError Value :=
  match op with
  | .add | .sub | .mul | .div | .rem => arithmetic other op left right
  | .eq | .ne => equality other op left right
  | .lt | .le | .gt | .ge => compare other op left right
  | .bitAnd | .bitOr | .bitXor | .shl | .shr => bitwise other op left right
  | _ => other op left right

/-- `mask_to_width`, for the widths from 1 to 64. -/
def maskToWidth (value : Word) (signed : Bool) (bits : Nat) : Word :=
  if 64 ≤ bits then value
  else if signed then (value <<< (64 - bits)).sshiftRight (64 - bits)
  else value &&& (1#64 <<< bits - 1#64)

def applyBinaryWide (op : BinaryOp) (left right : Value) (signed : Bool) (bits : Nat) : Except OpError Value :=
  match left.asInt, right.asInt with
  | some a, some b =>
    let mask := fun v => Value.int (maskToWidth v signed bits)
    match op with
    | .shr =>
      if 0 ≤ b.toInt ∧ b.toInt < 64 then
        .ok (.int (if signed then a.sshiftRight (b.toNat % 2 ^ 32) else a >>> (b.toNat % 2 ^ 32)))
      else .error (shiftOutOfRange b)
    | .div => if b = 0 then .error divByZero else .ok (mask (if signed then a.sdiv b else a.udiv b))
    | .rem => if b = 0 then .error divByZero else .ok (mask (if signed then a.srem b else a.umod b))
    | .lt => .ok (.bool (if signed then a.slt b else a.ult b))
    | .le => .ok (.bool (if signed then a.sle b else a.ule b))
    | .gt => .ok (.bool (if signed then b.slt a else b.ult a))
    | .ge => .ok (.bool (if signed then b.sle a else b.ule a))
    | _ => other op left right
  | _, _ => applyBinary other op left right

end

/-- The interpreter's `MaskWidth`. -/
def maskWidth (v : Value) (signed : Bool) (bits : Nat) : Value :=
  match v.asInt with
  | some n => .int (maskToWidth n signed bits)
  | none => v

/-! ### Native code -/

/-- The registers, and their raw forms where the kind map claims an integer or a boolean. -/
structure Frame where
  regs : Nat → Word
  raw : Nat → Word

inductive Outcome where
  | bail (f : Frame)
  | trap
  | next (f : Frame)

namespace Frame

def storeReg (f : Frame) (r : Nat) (w : Word) : Frame := { f with regs := Function.update f.regs r w }

def defRaw (f : Frame) (r : Nat) (w : Word) : Frame := { f with raw := Function.update f.raw r w }

end Frame

def guard (cond : Bool) (cont : Frame → Outcome) (f : Frame) : Outcome := if cond then cont f else .bail f

def isSmallInt (v : Word) : Bool := v &&& (signBit ||| qnan ||| intTag) == qnan ||| intTag

def unboxInt (v : Word) : Word := (v <<< 16).sshiftRight 16

/-- `sdiv` traps on a zero divisor and on overflow. -/
def sdiv (x y : Word) (cont : Word → Frame → Outcome) (f : Frame) : Outcome :=
  if y = 0 ∨ x = BitVec.intMin 64 ∧ y = -1 then .trap else cont (x.sdiv y) f

/-- `udiv`, `srem` and `urem` trap on a zero divisor. -/
def divide (op : Word → Word → Word) (x y : Word) (cont : Word → Frame → Outcome) (f : Frame) : Outcome :=
  if y = 0 then .trap else cont (op x y) f

def storeIntUnchecked (dst : Nat) (r : Word) (f : Frame) : Outcome :=
  .next ((f.defRaw dst r).storeReg dst ((r &&& ptrMask) ||| (qnan ||| intTag)))

def boxIntAndStore (dst : Nat) (r : Word) : Frame → Outcome :=
  guard ((r <<< 16).sshiftRight 16 == r) (storeIntUnchecked dst r)

/-- The end of a comparison. -/
def storeBool (dst : Nat) (cmp : Bool) (f : Frame) : Outcome :=
  .next ((f.defRaw dst (if cmp then 1 else 0)).storeReg dst (if cmp then qnan ||| tagTrue else qnan ||| tagFalse))

def supportedBinary : BinaryOp → Bool
  | .add | .sub | .mul | .div | .rem | .eq | .ne | .lt | .le | .gt | .ge | .bitAnd | .bitOr | .bitXor | .shl | .shr => true
  | _ => false

def emitIntBinaryRaw (op : BinaryOp) (dst : Nat) (x y : Word) : Frame → Outcome :=
  match op with
  | .add => boxIntAndStore dst (x + y)
  | .sub => boxIntAndStore dst (x - y)
  | .mul => boxIntAndStore dst (x * y)
  | .div => guard (y != 0) (sdiv x y (boxIntAndStore dst))
  | .rem => guard (y != 0) (divide BitVec.srem x y (boxIntAndStore dst))
  | .bitAnd => storeIntUnchecked dst (x &&& y)
  | .bitOr => storeIntUnchecked dst (x ||| y)
  | .bitXor => storeIntUnchecked dst (x ^^^ y)
  | .shl => guard (y.ult 64) (boxIntAndStore dst (x <<< (y.toNat % 64)))
  | .shr => guard (y.ult 64) (storeIntUnchecked dst (x.sshiftRight (y.toNat % 64)))
  | .eq => storeBool dst (x == y)
  | .ne => storeBool dst (x != y)
  | .lt => storeBool dst (x.slt y)
  | .le => storeBool dst (x.sle y)
  | .gt => storeBool dst (y.slt x)
  | .ge => storeBool dst (y.sle x)
  | _ => fun _ => .trap

/-- The operators that an instruction carries a width for. -/
def BinaryOp.isWide : BinaryOp → Bool
  | .div | .rem | .shr | .lt | .le | .gt | .ge => true
  | _ => false

def emitMaskToWidth (r : Word) (signed : Bool) (bits : Nat) : Word :=
  if 64 ≤ bits then r
  else if signed then (r <<< (64 - bits)).sshiftRight (64 - bits)
  else r &&& (1#64 <<< bits - 1#64)

def wideBody (op : BinaryOp) (dst : Nat) (signed : Bool) (bits : Nat) (x y : Word) : Frame → Outcome :=
  let store := fun r => boxIntAndStore dst (emitMaskToWidth r signed bits)
  match op, signed with
  | .lt, true => storeBool dst (x.slt y)
  | .le, true => storeBool dst (x.sle y)
  | .gt, true => storeBool dst (y.slt x)
  | .ge, true => storeBool dst (y.sle x)
  | .lt, false => storeBool dst (x.ult y)
  | .le, false => storeBool dst (x.ule y)
  | .gt, false => storeBool dst (y.ult x)
  | .ge, false => storeBool dst (y.ule x)
  | .div, true => guard (y != 0) (sdiv x y store)
  | .div, false => guard (y != 0) (divide BitVec.udiv x y store)
  | .rem, true => guard (y != 0) (divide BitVec.srem x y store)
  | .rem, false => guard (y != 0) (divide BitVec.umod x y store)
  | .shr, true => guard (y.ult 64) (storeIntUnchecked dst (x.sshiftRight (y.toNat % 64)))
  | .shr, false => guard (y.ult 64) (boxIntAndStore dst (x >>> (y.toNat % 64)))
  | _, _ => fun _ => .trap

/-- `emit_wide_int`; `claimed` is where the kind map claims an integer. -/
def emitWideInt (claimed : Nat → Bool) (op : BinaryOp) (dst a b : Nat) (signed : Bool) (bits : Nat) (f : Frame) : Outcome :=
  if claimed a && claimed b then wideBody op dst signed bits (f.raw a) (f.raw b) f
  else guard (isSmallInt (f.regs a) && isSmallInt (f.regs b))
    (wideBody op dst signed bits (unboxInt (f.regs a)) (unboxInt (f.regs b))) f

/-- The end of a masking, which checks the fit only for the unsigned widths from 48 to 63. -/
def storeMasked (dst : Nat) (x : Word) (signed : Bool) (bits : Nat) : Frame → Outcome :=
  if !signed && decide (48 ≤ bits ∧ bits < 64) then boxIntAndStore dst (emitMaskToWidth x signed bits)
  else storeIntUnchecked dst (emitMaskToWidth x signed bits)

def emitMaskWidth (claimed : Nat → Bool) (dst src : Nat) (signed : Bool) (bits : Nat) (f : Frame) : Outcome :=
  if claimed src then storeMasked dst (f.raw src) signed bits f
  else
    let x := unboxInt (f.regs src)
    guard (isSmallInt (f.regs src)) (fun f => storeMasked dst x signed bits (f.defRaw src x)) f

/-! ### Immediates -/

/-- The shift pair keeps a word exactly where the word is in the range of 48 bits. -/
theorem fits_eq (r : Word) : ((r <<< 16).sshiftRight 16 == r) = decide (InRange r) := by
  have h := BitVec.toInt_eq_toNat_cond r
  have hlt := r.isLt
  rw [beq_eq_decide, decide_eq_decide, ← BitVec.toInt_inj, BitVec.toInt_sshiftRight, BitVec.toInt_shiftLeft]
  simp only [InRange, intMin, intMax, Int.shiftRight_eq_div_pow, Nat.shiftLeft_eq, Int.bmod_def]
  split at h <;> split <;> grind

theorem immediate_and (x m : Word) (h : ptrMask &&& m = 0) :
    Value.immediate x &&& m = (qnan ||| intTag) &&& m := by
  rw [Value.immediate, BitVec.and_or_distrib_right, BitVec.and_assoc, h]
  simp

theorem unboxInt_ptrMask (x : Word) : unboxInt (x &&& ptrMask) = unboxInt x := by
  have h : (ptrMask <<< 16) = (BitVec.allOnes 64) <<< 16 := by decide
  rw [unboxInt, unboxInt, BitVec.shiftLeft_and_distrib, h, ← BitVec.shiftLeft_and_distrib, BitVec.and_allOnes]

variable {x y : Word} {dst : Nat} {f : Frame} {result : Except OpError Value}

theorem unboxInt_eq (hx : InRange x) : unboxInt x = x :=
  eq_of_beq ((fits_eq x).trans (decide_eq_true hx))

theorem unboxInt_immediate (hx : InRange x) : unboxInt (Value.immediate x) = x := by
  have h : Value.immediate x &&& ptrMask = x &&& ptrMask := by
    rw [Value.immediate, BitVec.and_or_distrib_right, BitVec.and_assoc]
    simp [qnan, intTag, ptrMask]
  rw [← unboxInt_ptrMask, h, unboxInt_ptrMask, unboxInt_eq hx]

theorem isSmallInt_immediate (x : Word) : isSmallInt (Value.immediate x) = true := by
  rw [isSmallInt, immediate_and x _ (by decide)]
  decide

theorem asInt_immediate (hx : InRange x) : (Value.word (Value.immediate x)).asInt = some x := by
  have h := unboxInt_immediate hx
  rw [← unboxInt_ptrMask, unboxInt] at h
  simp [Value.asInt, Value.isFloat, Value.isPointer, immediate_and x _ (show ptrMask &&& qnan = 0 by decide),
    immediate_and x _ (show ptrMask &&& (signBit ||| qnan) = 0 by decide),
    immediate_and x _ (show ptrMask &&& intTag = 0 by decide), h]
  decide

theorem intOperand_immediate (hx : InRange x) : (Value.word (Value.immediate x)).intOperand = some x := by
  rw [Value.intOperand, asInt_immediate hx, Value.isFloat, immediate_and x _ (by decide)]
  exact if_neg (by decide)

/-! ### Ranges -/

theorem inRange_iff (r : Word) : InRange r ↔ (r <<< 16).sshiftRight 16 = r := by
  rw [← beq_iff_eq, fits_eq, decide_eq_true_iff]

theorem inRange_and (hx : InRange x) (hy : InRange y) : InRange (x &&& y) := by
  rw [inRange_iff] at *
  rw [BitVec.shiftLeft_and_distrib, BitVec.sshiftRight_and_distrib, hx, hy]

theorem inRange_or (hx : InRange x) (hy : InRange y) : InRange (x ||| y) := by
  rw [inRange_iff] at *
  rw [BitVec.shiftLeft_or_distrib, BitVec.sshiftRight_or_distrib, hx, hy]

theorem inRange_xor (hx : InRange x) (hy : InRange y) : InRange (x ^^^ y) := by
  rw [inRange_iff] at *
  rw [BitVec.shiftLeft_xor_distrib, BitVec.sshiftRight_xor_distrib, hx, hy]

theorem inRange_sshiftRight (hx : InRange x) (n : Nat) : InRange (x.sshiftRight n) := by
  have hp : (0 : Int) < 2 ^ n := by positivity
  rw [InRange, BitVec.toInt_sshiftRight, Int.shiftRight_eq_div_pow]
  obtain ⟨hl, hu⟩ := hx
  simp only [intMin, intMax] at *
  constructor
  · exact Int.le_ediv_of_mul_le (mod_cast hp) (by push_cast; nlinarith)
  · exact Int.lt_add_one_iff.1 (Int.ediv_lt_of_lt_mul (mod_cast hp) (by push_cast; nlinarith))

theorem inRange_signExtend (hx : InRange x) (k : Nat) : InRange ((x <<< k).sshiftRight k) := by
  have hp : (0 : Int) < 2 ^ k := by positivity
  have hs : (x <<< k).toInt = (x.toInt * 2 ^ k).bmod (2 ^ 64) := by
    rw [BitVec.toInt_shiftLeft, BitVec.toInt_eq_toNat_bmod x, Int.bmod_mul_bmod, Nat.shiftLeft_eq]
    push_cast
    rfl
  rw [InRange, BitVec.toInt_sshiftRight, Int.shiftRight_eq_div_pow, hs]
  push_cast
  by_cases hk : k < 16
  · -- no bit is lost, so the word comes back
    obtain ⟨hl, hu⟩ := id hx
    have h16 : (2 : Int) ^ k ≤ 2 ^ 16 := pow_le_pow_right₀ (by norm_num) hk.le
    simp only [intMin, intMax] at hl hu
    rw [Int.bmod_eq_of_le (by norm_num; nlinarith) (by norm_num; nlinarith), Int.mul_ediv_cancel _ hp.ne']
    exact hx
  · -- at most 48 bits are kept
    have h16 : (2 : Int) ^ 16 ≤ 2 ^ k := pow_le_pow_right₀ (by norm_num) (by omega)
    have hl := @Int.le_bmod (x.toInt * 2 ^ k) (2 ^ 64) (by norm_num)
    have hu := @Int.bmod_lt (x.toInt * 2 ^ k) (2 ^ 64) (by norm_num)
    norm_num at hl hu h16
    simp only [intMin, intMax]
    constructor
    · exact Int.le_ediv_of_mul_le hp (by linarith)
    · exact Int.lt_add_one_iff.1 (Int.ediv_lt_of_lt_mul hp (by linarith))

theorem inRange_lowBits (x : Word) {bits : Nat} (h : bits < 48) : InRange (x &&& (1#64 <<< bits - 1#64)) := by
  have h48 : 2 ^ bits ≤ 2 ^ 47 := Nat.pow_le_pow_right (by norm_num) (by omega)
  have hp : 0 < 2 ^ bits := by positivity
  have hm : (1#64 <<< bits - 1#64).toNat = 2 ^ bits - 1 := by
    have : 2 ^ bits % 2 ^ 64 = 2 ^ bits := Nat.mod_eq_of_lt (by omega)
    rw [BitVec.toNat_sub, BitVec.toNat_shiftLeft, Nat.shiftLeft_eq]
    simp only [BitVec.toNat_ofNat]
    omega
  have hle : (x &&& (1#64 <<< bits - 1#64)).toNat ≤ 2 ^ bits - 1 := by
    rw [BitVec.toNat_and, hm]
    exact Nat.and_le_right
  simp only [InRange, intMin, intMax, BitVec.toInt_eq_toNat_cond]
  omega

/-! ### Stores -/

/-- The native code bails with the registers as they were where the interpreter has no word, and otherwise stores the
interpreter's word, with its raw form. -/
inductive Agrees (dst : Nat) (f : Frame) (result : Except OpError Value) : Outcome → Prop where
  | bail {f' : Frame} (regs : f'.regs = f.regs) (none : ∀ w, result ≠ .ok (.word w)) : Agrees dst f result (.bail f')
  | int {f' : Frame} {r : Word} (range : InRange r) (value : result = .ok (.word (Value.immediate r)))
      (regs : f'.regs = Function.update f.regs dst (Value.immediate r)) (raw : f'.raw dst = r) :
      Agrees dst f result (.next f')
  | bool {f' : Frame} {b : Bool} {w : Word} (word : .word w = Value.bool b) (value : result = .ok (.word w))
      (regs : f'.regs = Function.update f.regs dst w) (raw : f'.raw dst = if b then 1 else 0) :
      Agrees dst f result (.next f')

theorem storeIntUnchecked_agrees {r : Word} (h : InRange r) (dst : Nat) (f : Frame) :
    Agrees dst f (.ok (.int r)) (storeIntUnchecked dst r f) := by
  refine .int h (by rw [Value.int, if_pos h]) ?_ (Function.update_self ..)
  rw [Value.immediate, BitVec.or_comm]
  rfl

/-- A register holds an integer, and its raw form where one is claimed. -/
def Frame.Holds (f : Frame) (claimed : Nat → Bool) (r : Nat) (x : Word) : Prop :=
  f.regs r = Value.immediate x ∧ (claimed r → f.raw r = x)

theorem Agrees.of_regs {f f' : Frame} {out : Outcome}
    (h : Agrees dst f' result out) (hf : f'.regs = f.regs) : Agrees dst f result out := by
  cases h with
  | bail regs none => exact .bail (regs.trans hf) none
  | int range value regs raw => exact .int range value (hf ▸ regs) raw
  | bool word value regs raw => exact .bool word value (hf ▸ regs) raw

theorem boxIntAndStore_agrees (dst : Nat) (r : Word) (f : Frame) :
    Agrees dst f (.ok (.int r)) (boxIntAndStore dst r f) := by
  rw [boxIntAndStore, guard, fits_eq]
  by_cases h : InRange r
  · rw [if_pos (decide_eq_true h)]
    exact storeIntUnchecked_agrees h dst f
  · rw [if_neg (by simpa using h)]
    exact .bail rfl (by simp [Value.int, h])

theorem storeBool_agrees (dst : Nat) (b : Bool) (f : Frame) :
    Agrees dst f (.ok (.bool b)) (storeBool dst b f) :=
  .bool rfl rfl (by cases b <;> rfl) (Function.update_self ..)

/-- The guard on a divisor. -/
theorem nonZero_agrees {v : Value} {cont : Frame → Outcome} (h : y ≠ 0 → Agrees dst f (.ok v) (cont f)) :
    Agrees dst f (if y = 0 then .error divByZero else .ok v) (guard (y != 0) cont f) := by
  by_cases hy : y = 0
  · rw [if_pos hy, guard, if_neg (by simpa using hy)]
    exact .bail rfl nofun
  · rw [if_neg hy, guard, if_pos (by simpa using hy)]
    exact h hy

/-- The guard on a shift amount. -/
theorem shiftAmount_agrees {v : Value} {cont : Frame → Outcome}
    (h : y.toNat % 64 = y.toNat % 2 ^ 32 → Agrees dst f (.ok v) (cont f)) :
    Agrees dst f (if 0 ≤ y.toInt ∧ y.toInt < 64 then .ok v else .error (shiftOutOfRange y))
      (guard (y.ult 64) cont f) := by
  have hlt := y.isLt
  have hy : y.ult 64 = decide (0 ≤ y.toInt ∧ y.toInt < 64) := by
    rw [BitVec.ult_eq_decide, decide_eq_decide, BitVec.toInt_eq_toNat_cond y]
    simp
    omega
  rw [guard, hy]
  split
  case isTrue hb =>
    rw [if_pos (by simpa using hb)]
    rw [BitVec.toInt_eq_toNat_cond] at hb
    exact h (by omega)
  case isFalse hb =>
    rw [if_neg (by simpa using hb)]
    exact .bail rfl nofun

theorem sdiv_agrees (hx : InRange x) (hy : y ≠ 0)
    {cont : Word → Frame → Outcome} (h : Agrees dst f result (cont (x.sdiv y) f)) :
    Agrees dst f result (sdiv x y cont f) := by
  rw [sdiv, if_neg]
  · exact h
  · rintro (h0 | ⟨rfl, -⟩)
    · exact hy h0
    · exact absurd hx (by decide)

theorem divide_agrees {op : Word → Word → Word} (hy : y ≠ 0)
    {cont : Word → Frame → Outcome} (h : Agrees dst f result (cont (op x y) f)) :
    Agrees dst f result (divide op x y cont f) := by
  rwa [divide, if_neg hy]

/-! ### The operators -/

theorem ordering_eq (a b : Word) :
    (Ord.compare a.toInt b.toInt == .lt) = a.slt b ∧ (Ord.compare a.toInt b.toInt != .gt) = a.sle b ∧
      (Ord.compare a.toInt b.toInt == .gt) = b.slt a ∧ (Ord.compare a.toInt b.toInt != .lt) = b.sle a := by
  simp only [beq_eq_decide, bne, ← decide_not, BitVec.slt_eq_decide, BitVec.sle_eq_decide, decide_eq_decide]
  exact ⟨compare_lt_iff_lt, compare_le_iff_le, compare_gt_iff_gt, compare_ge_iff_ge⟩

section

variable {other : BinaryOp → Value → Value → Except OpError Value} {x y : Word}

variable {op : BinaryOp}

theorem emitIntBinaryRaw_agrees (hx : InRange x) (hy : InRange y) (hop : supportedBinary op) (dst : Nat) (f : Frame) :
    Agrees dst f (applyBinary other op (.word (Value.immediate x)) (.word (Value.immediate y)))
      (emitIntBinaryRaw op dst x y f) := by
  cases op <;> simp only [supportedBinary, Bool.false_eq_true] at hop <;>
    simp only [applyBinary, arithmetic, bitwise, compare, equality, intOperand_immediate hx, intOperand_immediate hy,
      emitIntBinaryRaw]
  case add | sub | mul => exact boxIntAndStore_agrees ..
  case div => exact nonZero_agrees fun h => sdiv_agrees hx h (boxIntAndStore_agrees ..)
  case rem => exact nonZero_agrees fun h => divide_agrees h (boxIntAndStore_agrees ..)
  case bitAnd => exact storeIntUnchecked_agrees (inRange_and hx hy) ..
  case bitOr => exact storeIntUnchecked_agrees (inRange_or hx hy) ..
  case bitXor => exact storeIntUnchecked_agrees (inRange_xor hx hy) ..
  case shl =>
    refine shiftAmount_agrees fun h => ?_
    rw [h]
    exact boxIntAndStore_agrees ..
  case shr =>
    refine shiftAmount_agrees fun h => ?_
    rw [h]
    exact storeIntUnchecked_agrees (inRange_sshiftRight hx _) ..
  case eq | ne => exact storeBool_agrees ..
  case lt | le | gt | ge =>
    all_goals
      simp only [ordering_eq]
      exact storeBool_agrees ..

theorem wideBody_agrees (hx : InRange x) (hy : InRange y) (hop : op.isWide)
    (dst : Nat) (signed : Bool) (bits : Nat) (f : Frame) :
    Agrees dst f (applyBinaryWide other op (.word (Value.immediate x)) (.word (Value.immediate y)) signed bits)
      (wideBody op dst signed bits x y f) := by
  cases signed <;> cases op <;> simp only [BinaryOp.isWide, Bool.false_eq_true] at hop <;>
    simp only [applyBinaryWide, asInt_immediate hx, asInt_immediate hy, wideBody, Bool.false_eq_true, if_true, if_false]
  case false.div | false.rem | true.rem =>
    all_goals exact nonZero_agrees fun h => divide_agrees h (boxIntAndStore_agrees ..)
  case true.div => exact nonZero_agrees fun h => sdiv_agrees hx h (boxIntAndStore_agrees ..)
  case false.shr =>
    refine shiftAmount_agrees fun h => ?_
    rw [h]
    exact boxIntAndStore_agrees ..
  case true.shr =>
    refine shiftAmount_agrees fun h => ?_
    rw [h]
    exact storeIntUnchecked_agrees (inRange_sshiftRight hx _) ..
  all_goals exact storeBool_agrees ..

theorem emitWideInt_agrees {claimed : Nat → Bool} {a b : Nat} {f : Frame} (hx : InRange x) (hy : InRange y)
    (ha : f.Holds claimed a x) (hb : f.Holds claimed b y) (hop : op.isWide) (dst : Nat) (signed : Bool)
    (bits : Nat) :
    Agrees dst f (applyBinaryWide other op (.word (f.regs a)) (.word (f.regs b)) signed bits)
      (emitWideInt claimed op dst a b signed bits f) := by
  have hw : Agrees dst f (applyBinaryWide other op (.word (Value.immediate x)) (.word (Value.immediate y)) signed bits)
      (wideBody op dst signed bits x y f) := wideBody_agrees hx hy hop dst signed bits f
  rw [emitWideInt, ha.1, hb.1]
  split
  case isTrue hc =>
    rw [Bool.and_eq_true] at hc
    rwa [ha.2 hc.1, hb.2 hc.2]
  case isFalse hc =>
    rwa [isSmallInt_immediate, isSmallInt_immediate, unboxInt_immediate hx, unboxInt_immediate hy]

theorem storeMasked_agrees (hx : InRange x) (dst : Nat) (signed : Bool) (bits : Nat) (f : Frame) :
    Agrees dst f (.ok (.int (maskToWidth x signed bits))) (storeMasked dst x signed bits f) := by
  rw [storeMasked]
  split
  case isTrue => exact boxIntAndStore_agrees ..
  case isFalse h =>
    refine storeIntUnchecked_agrees ?_ dst f
    unfold maskToWidth
    split
    case isTrue => exact hx
    split
    case isTrue => exact inRange_signExtend hx _
    case isFalse h64 hs => exact inRange_lowBits x (by simp [hs] at h; omega)

theorem emitMaskWidth_agrees {claimed : Nat → Bool} {src : Nat} {f : Frame} (hx : InRange x)
    (hs : f.Holds claimed src x) (dst : Nat) (signed : Bool) (bits : Nat) :
    Agrees dst f (.ok (maskWidth (.word (f.regs src)) signed bits)) (emitMaskWidth claimed dst src signed bits f) := by
  have hv : maskWidth (.word (f.regs src)) signed bits = .int (maskToWidth x signed bits) := by
    rw [hs.1, maskWidth, asInt_immediate hx]
  rw [hv, emitMaskWidth]
  split
  case isTrue hc =>
    rw [hs.2 hc]
    exact storeMasked_agrees hx dst signed bits f
  case isFalse =>
    rw [hs.1, isSmallInt_immediate, unboxInt_immediate hx]
    exact (storeMasked_agrees hx dst signed bits _).of_regs rfl

/-- Over two immediate integers every native sequence agrees with the interpreter. -/
theorem integerCode_agrees (hx : InRange x) (hy : InRange y) (dst : Nat) (f : Frame) :
    (∀ op, supportedBinary op →
      Agrees dst f (applyBinary other op (.word (Value.immediate x)) (.word (Value.immediate y)))
        (emitIntBinaryRaw op dst x y f)) ∧
    ∀ claimed a b signed bits, f.Holds claimed a x → f.Holds claimed b y →
      (∀ op : BinaryOp, op.isWide →
        Agrees dst f (applyBinaryWide other op (.word (f.regs a)) (.word (f.regs b)) signed bits)
          (emitWideInt claimed op dst a b signed bits f)) ∧
      Agrees dst f (.ok (maskWidth (.word (f.regs a)) signed bits)) (emitMaskWidth claimed dst a signed bits f) :=
  ⟨fun _ hop => emitIntBinaryRaw_agrees hx hy hop dst f, fun _ _ _ signed bits ha hb =>
    ⟨fun _ hop => emitWideInt_agrees hx hy ha hb hop dst signed bits, emitMaskWidth_agrees hx ha dst signed bits⟩⟩

end

/-- The least integer over -1, which does not fit 48 bits. -/
theorem integerCode_agrees_least :
    Agrees 2 { regs := fun _ => 0, raw := fun _ => 0 }
      (applyBinary (fun _ _ _ => .error divByZero) .div (.word (Value.immediate (-0x800000000000)))
        (.word (Value.immediate (-1))))
      (emitIntBinaryRaw .div 2 (-0x800000000000) (-1) { regs := fun _ => 0, raw := fun _ => 0 }) :=
  (integerCode_agrees (by decide) (by decide) 2 _).1 .div rfl

end Noeta.Jit
