import Mathlib.Algebra.Group.Nat.Defs
import Mathlib.Data.Int.Notation
import Mathlib.Order.Compare

/-!
# Binary floating point words

An IEEE 754 number by its bits: the binary64 order and equality, the canonical NaN, and the conversions into binary64
from the integers (rounding to nearest, ties to even) and from binary32 (exact).
-/

namespace Noeta.Lib

/-- The bits of a binary64 number. -/
abbrev F64 := BitVec 64

/-- The bits of a binary32 number. -/
abbrev F32 := BitVec 32

namespace F64

/-- The word without its sign. -/
def magnitude (f : F64) : Nat := f.toNat % 2 ^ 63

/-- Above the infinity. -/
def isNaN (f : F64) : Bool := decide (2047 * 2 ^ 52 < f.magnitude)

/-- The quiet NaN. -/
def nan : F64 := 0x7ff8000000000000#64

/-- One word for all NaNs. -/
def canonical (f : F64) : F64 := if f.isNaN then nan else f

@[simp] theorem canonical_canonical (f : F64) : f.canonical.canonical = f.canonical := by
  have hnan : nan.canonical = nan := by decide
  cases h : f.isNaN with
  | true => simp [canonical, h, show isNaN nan = true by decide]
  | false => simp [canonical, h]

/-- Signed magnitudes order as the numbers do; the two zeros meet. -/
def rank (f : F64) : Int := if f.msb then -(f.magnitude : Int) else f.magnitude

def partialCmp (f g : F64) : Option Ordering :=
  if f.isNaN || g.isNaN then none else some (compare f.rank g.rank)

/-- `==`. -/
def eq (f g : F64) : Bool := f.partialCmp g == some .eq

/-- A significand of 53 bits, its leading one dropped, at a power of two; a significand rounded up to `2 ^ 53` carries
into the exponent. -/
def assemble (negative : Bool) (exponent significand : Nat) : F64 :=
  BitVec.ofNat 64 ((if negative then 2 ^ 63 else 0) + (exponent * 2 ^ 52 + (significand - 2 ^ 52)))

/-- The nearest number to `m / 2 ^ s`, the even one of two. -/
def roundShift (m s : Nat) : Nat :=
  let q := m / 2 ^ s
  let twice := 2 * (m % 2 ^ s)
  if 2 ^ s < twice || (twice == 2 ^ s && q % 2 == 1) then q + 1 else q

/-- `i as f64`. -/
def ofInt (i : Int) : F64 :=
  let m := i.natAbs
  if m = 0 then 0
  else
    let e := m.log2
    let significand := if e ≤ 52 then m * 2 ^ (52 - e) else roundShift m (e - 52)
    assemble (decide (i < 0)) (e + 1023) significand

/-- `f as f64`. -/
def ofF32 (f : F32) : F64 :=
  let exponent := f.toNat / 2 ^ 23 % 2 ^ 8
  let fraction := f.toNat % 2 ^ 23
  if exponent = 255 then assemble f.msb 2047 (2 ^ 52 + fraction * 2 ^ 29)
  else if exponent ≠ 0 then assemble f.msb (exponent + 896) (2 ^ 52 + fraction * 2 ^ 29)
  else if fraction = 0 then assemble f.msb 0 (2 ^ 52)
  else
    -- a subnormal is the fraction times `2 ^ -149`
    let e := fraction.log2
    assemble f.msb (e + 874) (fraction * 2 ^ (52 - e))

example : ofInt 1 = 0x3ff0000000000000#64 ∧ ofInt (-3) = 0xc008000000000000#64 := by decide

example : ofInt (2 ^ 53 + 1) = ofInt (2 ^ 53) := by decide

example : ofF32 0x3fc00000#32 = 0x3ff8000000000000#64 := by decide

end F64

end Noeta.Lib
