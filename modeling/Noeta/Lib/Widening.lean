import Mathlib.Data.BitVec
import Mathlib.Algebra.Group.Nat.Defs
import Mathlib.Algebra.Group.Int.Defs

/-!
# Narrow integers in wide words

An integer of `w` bits, signed or not, is kept in a word of `n ≥ w` bits that reads as the same number. Dropping the high
bits brings it back, and commutes with addition and multiplication.
-/

namespace Noeta.Lib.Widening

variable {w n : Nat} {signed : Bool}

/-- The number that bits stand for. -/
def read (signed : Bool) (x : BitVec w) : Int := if signed then x.toInt else x.toNat

/-- The word of `n` bits for an integer of `w` bits. -/
def widen (signed : Bool) (n : Nat) (x : BitVec w) : BitVec n := if signed then x.signExtend n else x.setWidth n

/-- The sum does not fit the width. -/
def overflows (signed : Bool) (x y : BitVec w) : Bool := if signed then x.saddOverflow y else x.uaddOverflow y

/-- A sum that is reported if it overflows. -/
def checkedAdd (signed : Bool) (x y : BitVec w) : Option (BitVec w) := if overflows signed x y then none else some (x + y)

/-- The comparison of the numbers. -/
def le (signed : Bool) (x y : BitVec w) : Bool := if signed then x.sle y else x.ule y

/-- A word of `n` bits is one of those that integers of `w` bits are kept in. -/
def Fits (signed : Bool) (w : Nat) (v : BitVec n) : Prop :=
  if signed then -2 ^ (w - 1) ≤ v.toInt ∧ v.toInt < 2 ^ (w - 1) else v.toNat < 2 ^ w

/-! ## Reading -/

theorem read_injective {x y : BitVec w} (h : read signed x = read signed y) : x = y := by
  cases signed with
  | true => exact BitVec.eq_of_toInt_eq h
  | false =>
    apply BitVec.eq_of_toNat_eq
    simp only [read, Bool.false_eq_true, if_false] at h
    omega

theorem le_iff {x y : BitVec w} : le signed x y = true ↔ read signed x ≤ read signed y := by
  cases signed with
  | true => exact BitVec.sle_iff_toInt_le
  | false =>
    simp only [le, read, Bool.false_eq_true, if_false, BitVec.ule_eq_decide, decide_eq_true_eq]
    omega

theorem slt_eq (x y : BitVec w) : x.slt y = !le true y x := by
  rw [Bool.eq_iff_iff, Bool.not_eq_true', ← Bool.not_eq_true, le_iff, BitVec.slt_iff_toInt_lt]
  exact not_le.symm

theorem ult_eq (x y : BitVec w) : x.ult y = !le false y x := by
  rw [Bool.eq_iff_iff, Bool.not_eq_true', ← Bool.not_eq_true, le_iff, BitVec.ult_iff_toNat_lt]
  simp only [read, Bool.false_eq_true, if_false]
  omega

theorem le_of_not_le {x y : BitVec w} (h : le signed x y = false) : le signed y x = true := by
  have hnot : ¬read signed x ≤ read signed y := by
    rw [← le_iff, h]
    exact Bool.false_ne_true
  rw [le_iff]
  omega

theorem eq_of_le {x y : BitVec w} (h : le signed x y = true) (h' : le signed y x = true) : x = y :=
  read_injective (le_antisymm (le_iff.mp h) (le_iff.mp h'))

theorem pick_smaller (x y : BitVec w) : (if !le signed y x then x else y) = if le signed x y then x else y := by
  cases hyx : le signed y x with
  | true =>
    rw [Bool.not_true, if_neg Bool.false_ne_true]
    split_ifs with hxy
    · exact (eq_of_le hxy hyx).symm
    · rfl
  | false => rw [le_of_not_le hyx, Bool.not_false]

theorem pick_greater (x y : BitVec w) : (if !le signed x y then x else y) = if le signed y x then x else y := by
  cases hxy : le signed x y with
  | true =>
    rw [Bool.not_true, if_neg Bool.false_ne_true]
    split_ifs with hyx
    · exact (eq_of_le hxy hyx).symm
    · rfl
  | false => rw [le_of_not_le hxy, Bool.not_false]

theorem pick_other (x y : BitVec w) : (if !le signed x y then y else x) = if le signed x y then x else y := by
  cases le signed x y
  · rfl
  · rfl

theorem read_widen (h : w ≤ n) (x : BitVec w) : read signed (widen signed n x) = read signed x := by
  cases signed with
  | true => exact BitVec.toInt_signExtend_of_le h
  | false =>
    simp only [read, widen, Bool.false_eq_true, if_false, BitVec.toNat_setWidth]
    rw [Nat.mod_eq_of_lt (lt_of_lt_of_le x.isLt (Nat.pow_le_pow_right (by decide) h))]

theorem le_widen (h : w ≤ n) (x y : BitVec w) : le signed (widen signed n x) (widen signed n y) = le signed x y := by
  rw [Bool.eq_iff_iff, le_iff, le_iff, read_widen h, read_widen h]

theorem widen_self (x : BitVec w) : widen signed w x = x := by
  cases signed with
  | true => exact BitVec.signExtend_eq x
  | false => exact BitVec.setWidth_eq x

theorem widen_zero (h : w ≤ n) : widen signed n (0 : BitVec w) = 0 := by
  refine @read_injective n signed _ _ ?_
  rw [read_widen h]
  cases signed with
  | true => exact BitVec.toInt_zero.trans BitVec.toInt_zero.symm
  | false => rfl

theorem widen_one (hone : 1 < w) (h : w ≤ n) : widen signed n (1 : BitVec w) = 1 := by
  refine @read_injective n signed _ _ ?_
  rw [read_widen h]
  cases signed with
  | true => exact (BitVec.toInt_one hone).trans (BitVec.toInt_one (Nat.lt_of_lt_of_le hone h)).symm
  | false =>
    change ((1#w).toNat : Int) = (1#n).toNat
    rw [BitVec.toNat_ofNat, BitVec.toNat_ofNat, Nat.mod_eq_of_lt (Nat.one_lt_two_pow (by omega)),
      Nat.mod_eq_of_lt (Nat.one_lt_two_pow (by omega))]

theorem setWidth_widen (h : w ≤ n) (x : BitVec w) : (widen signed n x).setWidth w = x := by
  cases signed with
  | true =>
    apply BitVec.eq_of_getLsbD_eq
    intro i hi
    simp only [widen, if_true, BitVec.getLsbD_setWidth, BitVec.getLsbD_signExtend, hi, decide_true, Bool.true_and,
      show i < n by omega]
  | false => exact BitVec.setWidth_setWidth_of_le x h |>.trans (BitVec.setWidth_eq x)

/-! ## Sums -/

theorem read_add_of_not_overflows {x y : BitVec w} (h : overflows signed x y = false) :
    read signed (x + y) = read signed x + read signed y := by
  cases signed with
  | true =>
    apply BitVec.toInt_add_of_not_saddOverflow
    rw [Bool.not_eq_true]
    exact h
  | false =>
    have hnat := BitVec.toNat_add_of_not_uaddOverflow (Bool.not_eq_true _ ▸ h)
    simp only [read, Bool.false_eq_true, if_false, hnat]
    omega

theorem overflows_iff {x y : BitVec w} :
    overflows signed x y = true ↔ read signed (x + y) ≠ read signed x + read signed y := by
  constructor
  · intro h heq
    cases signed with
    | true =>
      have hlow := BitVec.le_toInt (x + y)
      have hhigh := @BitVec.toInt_lt w (x + y)
      simp only [overflows, if_true, BitVec.saddOverflow, Bool.or_eq_true, decide_eq_true_eq] at h
      simp only [read, if_true] at heq
      omega
    | false =>
      have hlt := (x + y).isLt
      simp only [overflows, Bool.false_eq_true, if_false, BitVec.uaddOverflow, decide_eq_true_eq] at h
      simp only [read, Bool.false_eq_true, if_false] at heq
      omega
  · intro h
    by_contra hover
    exact h (read_add_of_not_overflows (Bool.not_eq_true _ ▸ hover))

theorem overflows_widen (h : w < n) (x y : BitVec w) :
    overflows signed (widen signed n x) (widen signed n y) = false := by
  rw [← Bool.not_eq_true]
  have hx := @read_widen w n signed (Nat.le_of_lt h) x
  have hy := @read_widen w n signed (Nat.le_of_lt h) y
  cases signed with
  | true =>
    simp only [read, if_true] at hx hy
    have hpow : (2 : Int) ^ w ≤ 2 ^ (n - 1) := by
      exact_mod_cast Nat.pow_le_pow_right (by decide : 0 < 2) (by omega : w ≤ n - 1)
    have hxlow := @BitVec.le_two_mul_toInt w x
    have hylow := @BitVec.le_two_mul_toInt w y
    have hxhigh := @BitVec.two_mul_toInt_lt w x
    have hyhigh := @BitVec.two_mul_toInt_lt w y
    simp only [overflows, if_true, BitVec.saddOverflow, Bool.or_eq_true, decide_eq_true_eq, hx, hy]
    omega
  | false =>
    simp only [read, Bool.false_eq_true, if_false, Nat.cast_inj] at hx hy
    have hpow : 2 ^ (w + 1) ≤ 2 ^ n := Nat.pow_le_pow_right (by decide) h
    have hxlt := x.isLt
    have hylt := y.isLt
    simp only [overflows, Bool.false_eq_true, if_false, BitVec.uaddOverflow, decide_eq_true_eq, hx, hy]
    rw [Nat.pow_succ] at hpow
    omega

theorem widen_add_eq_iff (h : w < n) (x y : BitVec w) :
    widen signed n (x + y) = widen signed n x + widen signed n y ↔ overflows signed x y = false := by
  have hle := Nat.le_of_lt h
  have hwide := read_add_of_not_overflows (@overflows_widen w n signed h x y)
  rw [read_widen hle, read_widen hle] at hwide
  rw [← Bool.not_eq_true, overflows_iff, not_not]
  constructor
  · intro heq
    rw [← read_widen hle (x + y), heq, hwide]
  · intro heq
    refine @read_injective n signed _ _ ?_
    rw [hwide, read_widen hle, heq]

theorem setWidth_widen_add (h : w ≤ n) (x y : BitVec w) : (widen signed n x + widen signed n y).setWidth w = x + y := by
  rw [BitVec.setWidth_add _ _ h, setWidth_widen h, setWidth_widen h]

/-! ## Wrapping -/

theorem sshiftRight_shiftLeft (hpos : 0 < w) (h : w ≤ n) (v : BitVec n) :
    (v <<< (n - w)).sshiftRight (n - w) = widen true n (v.setWidth w) := by
  apply BitVec.eq_of_getLsbD_eq
  intro i hi
  have hmsb : (v <<< (n - w)).msb = (v.setWidth w).msb := by
    rw [BitVec.msb_eq_getLsbD_last, BitVec.msb_eq_getLsbD_last, BitVec.getLsbD_shiftLeft, BitVec.getLsbD_setWidth,
      decide_eq_true (by omega : n - 1 < n), decide_eq_false (by omega : ¬n - 1 < n - w),
      decide_eq_true (by omega : w - 1 < w), show n - 1 - (n - w) = w - 1 by omega]
    rfl
  rw [BitVec.getLsbD_sshiftRight, widen, if_pos rfl, BitVec.getLsbD_signExtend, hmsb,
    decide_eq_false (by omega : ¬n ≤ i), decide_eq_true hi, Bool.not_false, Bool.true_and, Bool.true_and]
  by_cases hlow : i < w
  · rw [if_pos (by omega : n - w + i < n), if_pos hlow, BitVec.getLsbD_shiftLeft, BitVec.getLsbD_setWidth,
      decide_eq_true (by omega : n - w + i < n), decide_eq_false (by omega : ¬n - w + i < n - w), decide_eq_true hlow,
      show n - w + i - (n - w) = i by omega]
    rfl
  · rw [if_neg (by omega), if_neg hlow]

theorem and_two_pow_sub_one (h : w ≤ n) (v : BitVec n) :
    v &&& BitVec.ofNat n (2 ^ w - 1) = widen false n (v.setWidth w) := by
  apply BitVec.eq_of_toNat_eq
  have hmask : (2 ^ w - 1) % 2 ^ n = 2 ^ w - 1 :=
    Nat.mod_eq_of_lt (lt_of_lt_of_le (Nat.sub_lt (Nat.two_pow_pos w) Nat.one_pos) (Nat.pow_le_pow_right (by decide) h))
  have hlt : v.toNat % 2 ^ w < 2 ^ n :=
    lt_of_lt_of_le (Nat.mod_lt _ (Nat.two_pow_pos w)) (Nat.pow_le_pow_right (by decide) h)
  rw [BitVec.toNat_and, BitVec.toNat_ofNat, hmask, Nat.and_two_pow_sub_one_eq_mod, widen, if_neg (by decide),
    BitVec.toNat_setWidth, BitVec.toNat_setWidth, Nat.mod_eq_of_lt hlt]

theorem widen_setWidth (hpos : 0 < w) (h : w ≤ n) {v : BitVec n} (hfits : Fits signed w v) :
    widen signed n (v.setWidth w) = v := by
  refine @read_injective n signed _ _ ?_
  rw [read_widen h]
  cases signed with
  | true =>
    obtain ⟨hlow, hhigh⟩ := hfits
    have hpow : (2 : Int) ^ w = 2 * 2 ^ (w - 1) := by
      obtain ⟨k, rfl⟩ : ∃ k, w = k + 1 := ⟨w - 1, by omega⟩
      rw [Nat.add_sub_cancel, Int.pow_succ, Int.mul_comm]
    change (v.setWidth w).toInt = v.toInt
    rw [← BitVec.signExtend_eq_setWidth_of_le v h, BitVec.toInt_signExtend_eq_toInt_bmod_of_le v h]
    apply Int.bmod_eq_of_le_mul_two
    · push_cast
      omega
    · push_cast
      omega
  | false =>
    change v.toNat < 2 ^ w at hfits
    change ((v.setWidth w).toNat : Int) = v.toNat
    rw [BitVec.toNat_setWidth, Nat.mod_eq_of_lt hfits]

end Noeta.Lib.Widening
