import Mathlib.Algebra.Group.Int.Defs
import Mathlib.Algebra.Group.Nat.Defs

/-!
# Integers as text

`to_string` of an integer, and `str::parse::<i64>`: an optional sign and decimal digits whose value
fits. A text is the list of its characters.
-/

namespace Noeta

/-- `i64::to_string`, and `u64::to_string` for the numbers an `i64` does not hold. -/
def intText (n : Int) : List Char :=
  if n < 0 then '-' :: Nat.toDigits 10 n.natAbs else Nat.toDigits 10 n.natAbs

def parseI64 (text : List Char) : Option Int :=
  let parse (digits : List Char) : Option Nat :=
    if !digits.isEmpty && digits.all Char.isDigit then some (Nat.ofDigitChars 10 digits 0) else none
  match text with
  | '-' :: digits => (parse digits).bind fun n => if n ≤ 2 ^ 63 then some (-n : Int) else none
  | '+' :: digits => (parse digits).bind fun n => if n < 2 ^ 63 then some (n : Int) else none
  | digits => (parse digits).bind fun n => if n < 2 ^ 63 then some (n : Int) else none

theorem toDigits_injective {n m : Nat} (h : Nat.toDigits 10 n = Nat.toDigits 10 m) : n = m := by
  have hread := congrArg (fun ds => Nat.ofDigitChars 10 ds 0) h
  simpa only [Nat.ofDigitChars_ten_toDigits] using hread

theorem toDigits_ne_cons {n : Nat} {c : Char} (hc : c.isDigit = false) {rest : List Char} :
    Nat.toDigits 10 n ≠ c :: rest := by
  intro h
  have hdigit : c.isDigit = true :=
    Nat.isDigit_of_mem_toDigits (b := 10) (by omega) (by omega) (h ▸ List.mem_cons_self)
  rw [hc] at hdigit
  cases hdigit

theorem intText_injective {n m : Int} (h : intText n = intText m) : n = m := by
  unfold intText at h
  split at h <;> split at h
  · rw [List.cons.injEq] at h
    have := toDigits_injective h.2
    omega
  · exact absurd h.symm (toDigits_ne_cons rfl)
  · exact absurd h (toDigits_ne_cons rfl)
  · have := toDigits_injective h
    omega

theorem mem_intText {n : Int} {c : Char} (h : c ∈ intText n) : c = '-' ∨ c.isDigit = true := by
  unfold intText at h
  split at h
  · rw [List.mem_cons] at h
    obtain rfl | h := h
    · exact .inl rfl
    · exact .inr (Nat.isDigit_of_mem_toDigits (by omega) (by omega) h)
  · exact .inr (Nat.isDigit_of_mem_toDigits (by omega) (by omega) h)

theorem intText_natCast (n : Nat) : intText n = Nat.toDigits 10 n := by
  rw [intText, if_neg (by omega), Int.natAbs_natCast]

theorem parseI64_toDigits (n : Nat) :
    parseI64 (Nat.toDigits 10 n) = if n < 2 ^ 63 then some (n : Int) else none := by
  have hall : (Nat.toDigits 10 n).all Char.isDigit = true := by
    rw [List.all_eq_true]
    exact fun c hc => Nat.isDigit_of_mem_toDigits (by omega) (by omega) hc
  have hne : (Nat.toDigits 10 n).isEmpty = false := by simp [Nat.toDigits_ne_nil]
  unfold parseI64
  split
  · rename_i heq
    exact absurd heq (toDigits_ne_cons rfl)
  · rename_i heq
    exact absurd heq (toDigits_ne_cons rfl)
  · simp only [hall, hne, Bool.not_false, Bool.and_self, if_true, Option.bind_some,
      Nat.ofDigitChars_ten_toDigits]

theorem parseI64_intText {n : Int} (hlo : -2 ^ 63 ≤ n) (hhi : n < 2 ^ 63) :
    parseI64 (intText n) = some n := by
  unfold intText
  split
  · have hall : (Nat.toDigits 10 n.natAbs).all Char.isDigit = true := by
      rw [List.all_eq_true]
      exact fun c hc => Nat.isDigit_of_mem_toDigits (by omega) (by omega) hc
    have hne : (Nat.toDigits 10 n.natAbs).isEmpty = false := by simp [Nat.toDigits_ne_nil]
    simp only [parseI64, hall, hne, Bool.not_false, Bool.and_self, if_true, Option.bind_some,
      Nat.ofDigitChars_ten_toDigits]
    rw [if_pos (by omega)]
    congr 1
    omega
  · rw [parseI64_toDigits, if_pos (by omega)]
    congr 1
    omega

/-- What is read is a sign, perhaps, and digits whose value fits. -/
theorem parseI64_eq_some {text : List Char} {n : Int} (h : parseI64 text = some n) :
    ∃ sign digits, text = sign ++ digits ∧ digits ≠ [] ∧ digits.all Char.isDigit = true ∧
      ((sign = ['-'] ∧ n = -(Nat.ofDigitChars 10 digits 0 : Int) ∧ Nat.ofDigitChars 10 digits 0 ≤ 2 ^ 63) ∨
        ((sign = [] ∨ sign = ['+']) ∧ n = Nat.ofDigitChars 10 digits 0 ∧
          Nat.ofDigitChars 10 digits 0 < 2 ^ 63)) := by
  have hread {digits : List Char} {f : Nat → Option Int}
      (ho : ((if !digits.isEmpty && digits.all Char.isDigit then
        some (Nat.ofDigitChars 10 digits 0) else none).bind f) = some n) :
      digits ≠ [] ∧ digits.all Char.isDigit = true ∧ f (Nat.ofDigitChars 10 digits 0) = some n := by
    split at ho
    · rename_i hdigits
      rw [Bool.and_eq_true] at hdigits
      exact ⟨by simpa using hdigits.1, hdigits.2, ho⟩
    · cases ho
  unfold parseI64 at h
  simp only at h
  split at h
  · rename_i digits
    obtain ⟨hne, hall, hn⟩ := hread h
    split at hn
    · rename_i hle
      exact ⟨['-'], digits, rfl, hne, hall, .inl ⟨rfl, (Option.some.inj hn).symm, hle⟩⟩
    · cases hn
  · rename_i digits
    obtain ⟨hne, hall, hn⟩ := hread h
    split at hn
    · rename_i hlt
      exact ⟨['+'], digits, rfl, hne, hall, .inr ⟨.inr rfl, (Option.some.inj hn).symm, hlt⟩⟩
    · cases hn
  · obtain ⟨hne, hall, hn⟩ := hread h
    split at hn
    · rename_i hlt
      exact ⟨[], text, rfl, hne, hall, .inr ⟨.inl rfl, (Option.some.inj hn).symm, hlt⟩⟩
    · cases hn

theorem ofDigitChars_lt {digits : List Char} (h : digits.all Char.isDigit = true) (n : Nat) :
    Nat.ofDigitChars 10 digits n < (n + 1) * 10 ^ digits.length := by
  induction digits generalizing n with
  | nil => simp
  | cons c digits ih =>
    rw [List.all_cons, Bool.and_eq_true] at h
    have hc : c.toNat - '0'.toNat ≤ 9 := by
      have hdigit := h.1
      rw [Char.isDigit, Bool.and_eq_true, decide_eq_true_iff, decide_eq_true_iff] at hdigit
      have hhigh : c.val.toNat ≤ 57 := UInt32.le_iff_toNat_le.1 hdigit.2
      change c.val.toNat - 48 ≤ 9
      omega
    have hrest := ih h.2 (10 * n + (c.toNat - '0'.toNat))
    rw [Nat.ofDigitChars_cons, List.length_cons, Nat.pow_succ]
    calc Nat.ofDigitChars 10 digits (10 * n + (c.toNat - '0'.toNat))
        < (10 * n + (c.toNat - '0'.toNat) + 1) * 10 ^ digits.length := hrest
      _ ≤ ((n + 1) * 10) * 10 ^ digits.length := Nat.mul_le_mul_right _ (by omega)
      _ = (n + 1) * (10 ^ digits.length * 10) := by rw [Nat.mul_assoc, Nat.mul_comm 10]

theorem length_intText_le {text : List Char} {n : Int} (h : parseI64 text = some n) :
    (intText n).length ≤ text.length := by
  obtain ⟨sign, digits, rfl, hne, hall, hn⟩ := parseI64_eq_some h
  have hdigits : (Nat.toDigits 10 (Nat.ofDigitChars 10 digits 0)).length ≤ digits.length := by
    have hlt := ofDigitChars_lt hall 0
    rw [Nat.zero_add, Nat.one_mul] at hlt
    exact (Nat.length_toDigits_le_iff (by omega) (List.length_pos_iff.2 hne)).2 hlt
  rw [List.length_append]
  rcases hn with ⟨rfl, rfl, -⟩ | ⟨-, rfl, -⟩
  · unfold intText
    rw [Int.natAbs_neg, Int.natAbs_natCast]
    split
    · rw [List.length_cons, List.length_singleton]
      omega
    · omega
  · rw [intText_natCast]
    omega

end Noeta
