import Noeta.Pm.Semver
import Mathlib.Algebra.Group.Nat.Defs

/-!
# From requirements to intervals

The resolver works on sets of versions cut out by precedence. Its conversion of a requirement reads
every comparator by its numbers alone: a pre-release tag is dropped, and a bound is a release. Where that
differs from matching is said here comparator by comparator, and then for whole requirements.
-/

namespace Noeta.Pm.Requirement

open Noeta.Pm.Semver

/-! ## The code -/

/-- `n + 1` on a `u64`; `none` where it overflows. -/
def addOne (n : Nat) : Option Nat := if n + 1 < 2 ^ 64 then some (n + 1) else none

/-- A set of versions. -/
structure Ranges where
  contains : Version → Bool

namespace Ranges

def full : Ranges := ⟨fun _ => true⟩

def singleton (v : Version) : Ranges := ⟨fun x => x.cmpPrecedence v == .eq⟩

def higherThan (v : Version) : Ranges := ⟨fun x => x.cmpPrecedence v != .lt⟩

def strictlyHigherThan (v : Version) : Ranges := ⟨fun x => x.cmpPrecedence v == .gt⟩

def lowerThan (v : Version) : Ranges := ⟨fun x => x.cmpPrecedence v != .gt⟩

def strictlyLowerThan (v : Version) : Ranges := ⟨fun x => x.cmpPrecedence v == .lt⟩

def between (v w : Version) : Ranges :=
  ⟨fun x => x.cmpPrecedence v != .lt && x.cmpPrecedence w == .lt⟩

def intersection (a b : Ranges) : Ranges := ⟨fun x => a.contains x && b.contains x⟩

end Ranges

def low (c : Comparator) : Version := Version.new c.major (c.minor.getD 0) (c.patch.getD 0)

def caretUpper (c : Comparator) : Option Version :=
  match c.major, c.minor, c.patch with
  | 0, some 0, some p => (addOne p).map fun p => Version.new 0 0 p
  | 0, some m, _ => (addOne m).map fun m => Version.new 0 m 0
  | 0, none, _ => some (Version.new 1 0 0)
  | major, _, _ => (addOne major).map fun major => Version.new major 0 0

def precisionUpper (c : Comparator) : Option Version :=
  match c.minor, c.patch with
  | some m, some _ => some (Version.new c.major m 0)
  | some m, none => (addOne m).map fun m => Version.new c.major m 0
  | none, _ => (addOne c.major).map fun major => Version.new major 0 0

def tildeUpper (c : Comparator) : Option Version :=
  match c.minor with
  | some m => (addOne m).map fun m => Version.new c.major m 0
  | none => (addOne c.major).map fun major => Version.new major 0 0

def comparatorToRanges (c : Comparator) : Option Ranges :=
  match c.op with
  | .exact | .wildcard =>
    if c.patch.isSome && c.minor.isSome then some (.singleton (low c))
    else (precisionUpper c).map fun upper => .between (low c) upper
  | .greater => some (.strictlyHigherThan (low c))
  | .greaterEq => some (.higherThan (low c))
  | .less => some (.strictlyLowerThan (low c))
  | .lessEq =>
    if c.patch.isSome && c.minor.isSome then some (.lowerThan (low c))
    else (precisionUpper c).map fun upper => .strictlyLowerThan upper
  | .tilde => (tildeUpper c).map fun upper => .between (low c) upper
  | .caret => (caretUpper c).map fun upper => .between (low c) upper

def reqToRanges (req : VersionReq) : Option Ranges :=
  if req.comparators.isEmpty then some .full
  else req.comparators.foldlM (fun acc c => (comparatorToRanges c).map acc.intersection) .full

/-! ## Where a comparator's interval and its rule part -/

/-- The upper bound a comparator's interval is closed off with. -/
def upper (c : Comparator) : Option Version :=
  match c.op with
  | .exact | .wildcard | .lessEq => if c.patch.isSome then some (low c) else precisionUpper c
  | .tilde => tildeUpper c
  | .caret => caretUpper c
  | .greater | .greaterEq | .less => some (low c)

/-- Some bound of the comparator does not fit in a `u64`. -/
def Overflows (c : Comparator) : Prop := upper c = none

instance (c : Comparator) : Decidable (Overflows c) := inferInstanceAs (Decidable (_ = _))

/-- `v` has the numbers the comparator wrote down. -/
def AtWritten (c : Comparator) (v : Version) : Prop :=
  v.major = c.major ∧ (∀ m ∈ c.minor, v.minor = m) ∧ ∀ p ∈ c.patch, v.patch = p

def AtLow (c : Comparator) (v : Version) : Prop := v.At (low c)

def AtUpper (c : Comparator) (v : Version) : Prop := ∃ u ∈ upper c, v.At u

instance (c : Comparator) (v : Version) : Decidable (AtWritten c v) :=
  inferInstanceAs (Decidable (_ ∧ _))

instance (c : Comparator) (v : Version) : Decidable (AtLow c v) :=
  inferInstanceAs (Decidable (Version.At _ _))

/-- The interval takes in a version that the comparator's rule leaves out. -/
def Overshoots (c : Comparator) (v : Version) : Prop :=
  match c.op, c.patch.isSome with
  | .exact, true | .wildcard, true => c.pre ≠ [] ∧ AtLow c v ∧ v.pre = []
  | .exact, false | .wildcard, false =>
    v.pre ≠ [] ∧ (AtWritten c v ∧ ¬ AtLow c v ∨ AtUpper c v)
  | .greater, true | .greaterEq, true => False
  | .greater, false => AtWritten c v ∧ ¬ AtLow c v
  | .greaterEq, false => v.pre ≠ [] ∧ AtWritten c v ∧ ¬ AtLow c v
  | .less, true => c.pre ≠ [] ∧ AtLow c v ∧ v.pre ≠ [] ∧ Prerelease.lt v.pre c.pre = false
  | .less, false => v.pre ≠ [] ∧ AtLow c v
  | .lessEq, true =>
    c.pre ≠ [] ∧ AtLow c v ∧ v.pre ≠ c.pre ∧ Prerelease.lt v.pre c.pre = false
  | .lessEq, false => v.pre ≠ [] ∧ (AtWritten c v ∨ AtUpper c v)
  | .tilde, true => v.pre ≠ [] ∧ AtUpper c v
  | .tilde, false => v.pre ≠ [] ∧ (AtWritten c v ∧ ¬ AtLow c v ∨ AtUpper c v)
  | .caret, _ => v.pre ≠ [] ∧ AtUpper c v

/-- The interval leaves out a version that the comparator's rule takes in. -/
def Undershoots (c : Comparator) (v : Version) : Prop :=
  match c.op with
  | .exact | .wildcard => c.pre ≠ [] ∧ AtLow c v ∧ v.pre = c.pre
  | .greater => c.pre ≠ [] ∧ AtLow c v ∧ Prerelease.lt c.pre v.pre = true
  | .greaterEq =>
    c.pre ≠ [] ∧ AtLow c v ∧ v.pre ≠ [] ∧ (v.pre = c.pre ∨ Prerelease.lt c.pre v.pre = true)
  | .tilde => c.pre ≠ [] ∧ AtLow c v ∧ v.pre ≠ [] ∧ Prerelease.lt v.pre c.pre = false
  | .caret =>
    AtLow c v ∧ v.pre ≠ [] ∧ (c.patch = none ∨ c.pre ≠ [] ∧ Prerelease.lt v.pre c.pre = false)
  | .less | .lessEq => False

/-! ## Bounds are releases -/

section Bounds

variable {v b : Version} (hb : b.pre = [])
include hb

theorem cmpPrecedence_eq_lt_iff :
    v.cmpPrecedence b = .lt ↔ v.Below b ∨ v.At b ∧ v.pre ≠ [] := by
  rcases Version.below_or_at_or_above v b with h | h | h
  · simp [Version.cmpPrecedence_of_below h, h]
  · rw [Version.cmpPrecedence_of_at h, hb]
    have hnot : ¬ v.Below b := by
      simp only [Version.Below, Version.At] at *
      omega
    cases hp : v.pre <;> simp [Prerelease.cmp, h, hnot]
  · have hnot : ¬ v.Below b ∧ ¬ v.At b := by
      simp only [Version.Below, Version.At] at *
      omega
    simp [Version.cmpPrecedence_of_above h, hnot]

theorem cmpPrecedence_eq_gt_iff : v.cmpPrecedence b = .gt ↔ b.Below v := by
  rcases Version.below_or_at_or_above v b with h | h | h
  · have hnot : ¬ b.Below v := by
      simp only [Version.Below] at *
      omega
    simp [Version.cmpPrecedence_of_below h, hnot]
  · rw [Version.cmpPrecedence_of_at h, hb]
    have hnot : ¬ b.Below v := by
      simp only [Version.Below, Version.At] at *
      omega
    cases hp : v.pre <;> simp [Prerelease.cmp, hnot]
  · simp [Version.cmpPrecedence_of_above h, h]

theorem cmpPrecedence_eq_eq_iff : v.cmpPrecedence b = .eq ↔ v.At b ∧ v.pre = [] := by
  rcases Version.below_or_at_or_above v b with h | h | h
  · have hnot : ¬ v.At b := by
      simp only [Version.Below, Version.At] at *
      omega
    simp [Version.cmpPrecedence_of_below h, hnot]
  · rw [Version.cmpPrecedence_of_at h, hb]
    cases hp : v.pre <;> simp [Prerelease.cmp, h]
  · have hnot : ¬ v.At b := by
      simp only [Version.Below, Version.At] at *
      omega
    simp [Version.cmpPrecedence_of_above h, hnot]

end Bounds

section Contains

variable {v a b : Version} (ha : a.pre = []) (hb : b.pre = [])

include hb in
theorem contains_strictlyHigherThan :
    (Ranges.strictlyHigherThan b).contains v = true ↔ b.Below v := by
  rw [Ranges.strictlyHigherThan, beq_iff_eq, cmpPrecedence_eq_gt_iff hb]

include hb in
theorem contains_higherThan :
    (Ranges.higherThan b).contains v = true ↔ b.Below v ∨ v.At b ∧ v.pre = [] := by
  rw [Ranges.higherThan, bne_iff_ne, ne_eq, cmpPrecedence_eq_lt_iff hb]
  simp only [Version.Below, Version.At]
  by_cases hp : v.pre = []
  · simp only [hp, ne_eq, not_true_eq_false, and_false, or_false, and_true]
    omega
  · simp only [hp, ne_eq, not_false_eq_true, and_true, and_false, or_false]
    omega

include hb in
theorem contains_strictlyLowerThan :
    (Ranges.strictlyLowerThan b).contains v = true ↔ v.Below b ∨ v.At b ∧ v.pre ≠ [] := by
  rw [Ranges.strictlyLowerThan, beq_iff_eq, cmpPrecedence_eq_lt_iff hb]

include hb in
theorem contains_lowerThan : (Ranges.lowerThan b).contains v = true ↔ v.Below b ∨ v.At b := by
  rw [Ranges.lowerThan, bne_iff_ne, ne_eq, cmpPrecedence_eq_gt_iff hb]
  simp only [Version.Below, Version.At]
  omega

include hb in
theorem contains_singleton :
    (Ranges.singleton b).contains v = true ↔ v.At b ∧ v.pre = [] := by
  rw [Ranges.singleton, beq_iff_eq, cmpPrecedence_eq_eq_iff hb]

include ha hb in
theorem contains_between :
    (Ranges.between a b).contains v = true ↔
      (a.Below v ∨ v.At a ∧ v.pre = []) ∧ (v.Below b ∨ v.At b ∧ v.pre ≠ []) := by
  rw [Ranges.between, Bool.and_eq_true]
  exact and_congr (contains_higherThan ha) (contains_strictlyLowerThan hb)

end Contains

theorem addOne_eq_some_iff {n k : Nat} : addOne n = some k ↔ n + 1 < 2 ^ 64 ∧ k = n + 1 := by
  rw [addOne]
  split
  case isTrue h =>
    rw [Option.some.injEq]
    omega
  case isFalse h =>
    constructor
    · intro hnone
      cases hnone
    · intro hk
      omega

/-! ## One comparator -/

/-- `r` holds `v` where the rule of `c` does, but for the two kinds of exception. -/
structure Reads (c : Comparator) (v : Version) (r : Ranges) : Prop where
  overshoots : Overshoots c v → c.matchesImpl v = false
  undershoots : Undershoots c v → c.matchesImpl v = true
  contains_iff : r.contains v = true ↔
    c.matchesImpl v = true ∧ ¬ Undershoots c v ∨ Overshoots c v

variable {c : Comparator} {v : Version} {r : Ranges}

@[simp] theorem low_pre (c : Comparator) : (low c).pre = [] := rfl

/-! ### A comparator that writes all three numbers -/

section Full

variable (hfull : c.patch.isSome = true)
include hfull

theorem exists_of_full : ∃ minor patch, c.minor = some minor ∧ c.patch = some patch := by
  obtain ⟨patch, hpatch⟩ := Option.isSome_iff_exists.mp hfull
  obtain ⟨minor, hminor⟩ := Option.isSome_iff_exists.mp (c.minor_of_patch hfull)
  exact ⟨minor, patch, hminor, hpatch⟩

theorem matchesExact_iff_of_full :
    c.matchesExact v = true ↔ AtLow c v ∧ v.pre = c.pre := by
  obtain ⟨minor, patch, hminor, hpatch⟩ := exists_of_full hfull
  simp [Comparator.matchesExact, AtLow, Version.At, low, Version.new, hminor, hpatch, and_assoc]

theorem matchesGreater_iff_of_full :
    c.matchesGreater v = true ↔
      (low c).Below v ∨ AtLow c v ∧ Prerelease.lt c.pre v.pre = true := by
  obtain ⟨minor, patch, hminor, hpatch⟩ := exists_of_full hfull
  simp only [Comparator.matchesGreater, AtLow, Version.At, Version.Below, low, Version.new, hminor,
    hpatch, Option.getD_some]
  grind

theorem matchesLess_iff_of_full :
    c.matchesLess v = true ↔
      v.Below (low c) ∨ AtLow c v ∧ Prerelease.lt v.pre c.pre = true := by
  obtain ⟨minor, patch, hminor, hpatch⟩ := exists_of_full hfull
  simp only [Comparator.matchesLess, AtLow, Version.At, Version.Below, low, Version.new, hminor,
    hpatch, Option.getD_some]
  grind

end Full

/-! ### A comparator that leaves numbers out -/

section Partial

variable (hpart : c.patch = none)
include hpart

theorem pre_eq_nil_of_short : c.pre = [] := by
  by_contra hne
  have := c.patch_of_pre hne
  simp [hpart] at this

theorem matchesExact_iff_of_short :
    c.matchesExact v = true ↔ AtWritten c v ∧ v.pre = [] := by
  simp [Comparator.matchesExact, AtWritten, hpart, pre_eq_nil_of_short hpart, and_assoc]

theorem matchesGreater_iff_of_short :
    c.matchesGreater v = true ↔ (low c).Below v ∧ ¬ AtWritten c v := by
  simp only [Comparator.matchesGreater, AtWritten, Version.Below, low, Version.new, hpart]
  cases hminor : c.minor <;> simp <;> grind

theorem matchesLess_iff_of_short : c.matchesLess v = true ↔ v.Below (low c) := by
  simp only [Comparator.matchesLess, Version.Below, low, Version.new, hpart]
  cases hminor : c.minor <;> simp <;> grind

theorem below_low_of_short (hw : AtWritten c v) : AtLow c v ∨ (low c).Below v := by
  simp only [AtWritten, AtLow, Version.At, Version.Below, low, Version.new, hpart] at hw ⊢
  cases hminor : c.minor <;> simp_all <;> omega

theorem precisionUpper_of_short {u : Version} (hu : precisionUpper c = some u) :
    u.pre = [] ∧ (v.Below u ↔ v.Below (low c) ∨ AtWritten c v) := by
  simp only [precisionUpper, hpart] at hu
  simp only [AtWritten, Version.Below, low, Version.new, hpart]
  cases hminor : c.minor with
  | none =>
    simp only [hminor, Option.map_eq_some_iff, addOne_eq_some_iff] at hu
    obtain ⟨major, ⟨_, rfl⟩, rfl⟩ := hu
    simp [Version.new]
    omega
  | some minor =>
    simp only [hminor, Option.map_eq_some_iff, addOne_eq_some_iff] at hu
    obtain ⟨m, ⟨_, rfl⟩, rfl⟩ := hu
    simp [Version.new]
    omega

end Partial


theorem atWritten_of_atLow (h : AtLow c v) : AtWritten c v := by
  obtain ⟨hmajor, hminor, hpatch⟩ := h
  refine ⟨hmajor, ?_, ?_⟩
  · intro m hm
    simpa [low, Version.new, Option.mem_def.mp hm] using hminor
  · intro p hp
    simpa [low, Version.new, Option.mem_def.mp hp] using hpatch

theorem position (v b : Version) :
    v.Below b ∧ ¬ v.At b ∧ ¬ b.Below v ∨ ¬ v.Below b ∧ v.At b ∧ ¬ b.Below v ∨
      ¬ v.Below b ∧ ¬ v.At b ∧ b.Below v := by
  simp only [Version.Below, Version.At]
  omega

theorem lt_facts (a b : Prerelease) :
    (a = [] → Prerelease.lt a b = false) ∧ (b = [] → (Prerelease.lt a b = true ↔ a ≠ [])) := by
  constructor
  · intro ha
    rw [ha, Prerelease.not_lt_of_release]
  · intro hb
    rw [hb, Prerelease.lt_release, decide_eq_true_iff]

variable {u : Version} {req : VersionReq}

theorem low_below_of_upper (hl : (low c).Below u) :
    (AtLow c v → v.Below u) ∧ (v.At u → (low c).Below v) ∧ (v.Below (low c) → v.Below u) := by
  simp only [AtLow, Version.Below, Version.At] at hl ⊢
  omega

theorem tildeUpper_spec (hu : tildeUpper c = some u) : u.pre = [] ∧ (low c).Below u := by
  simp only [tildeUpper] at hu
  cases hminor : c.minor <;>
    simp only [hminor, Option.map_eq_some_iff, addOne_eq_some_iff] at hu <;>
    obtain ⟨_, ⟨_, rfl⟩, rfl⟩ := hu <;>
    simp [Version.new, Version.Below, low, hminor]

theorem matchesTilde_iff_of_full (hfull : c.patch.isSome = true) (hu : tildeUpper c = some u) :
    c.matchesTilde v = true ↔ AtLow c v ∧ Prerelease.lt v.pre c.pre = false ∨
      (low c).Below v ∧ v.Below u := by
  obtain ⟨minor, patch, hminor, hpatch⟩ := exists_of_full hfull
  simp only [tildeUpper, hminor, Option.map_eq_some_iff, addOne_eq_some_iff] at hu
  obtain ⟨_, ⟨_, rfl⟩, rfl⟩ := hu
  simp only [Comparator.matchesTilde, AtLow, Version.At, Version.Below, low, Version.new, hminor,
    hpatch, Option.getD_some, Option.mem_some_iff, exists_eq_left']
  grind

theorem matchesTilde_iff_of_short (hpart : c.patch = none) :
    c.matchesTilde v = true ↔ AtWritten c v ∧ v.pre = [] := by
  simp only [Comparator.matchesTilde, AtWritten, hpart, pre_eq_nil_of_short hpart,
    Prerelease.lt_release]
  cases hminor : c.minor with
  | none => grind
  | some minor =>
    simp only [Option.mem_some_iff, exists_eq_left', forall_eq']
    grind

theorem tildeUpper_of_short (hpart : c.patch = none) : tildeUpper c = precisionUpper c := by
  rw [tildeUpper, precisionUpper, hpart]
  cases c.minor <;> rfl

/-- The left-most non-zero number goes up by one. -/
theorem caretUpper_cases (hu : caretUpper c = some u) :
    (c.major = 0 ∧ c.minor = some 0 ∧ ∃ p, c.patch = some p ∧ u = Version.new 0 0 (p + 1)) ∨
      (c.major = 0 ∧ ∃ m, c.minor = some m ∧ (m ≠ 0 ∨ c.patch = none) ∧
        u = Version.new 0 (m + 1) 0) ∨
      (c.major = 0 ∧ c.minor = none ∧ u = Version.new 1 0 0) ∨
      c.major ≠ 0 ∧ u = Version.new (c.major + 1) 0 0 := by
  rw [caretUpper] at hu
  by_cases hmajor : c.major = 0
  · simp only [hmajor] at hu
    cases hminor : c.minor with
    | none =>
      simp only [hminor, Option.some.injEq] at hu
      exact .inr (.inr (.inl ⟨hmajor, rfl, hu.symm⟩))
    | some m =>
      cases hpatch : c.patch with
      | none =>
        simp only [hminor, hpatch, Option.map_eq_some_iff, addOne_eq_some_iff] at hu
        obtain ⟨_, ⟨_, rfl⟩, rfl⟩ := hu
        exact .inr (.inl ⟨hmajor, m, rfl, .inr rfl, rfl⟩)
      | some p =>
        cases m with
        | zero =>
          simp only [hminor, hpatch, Option.map_eq_some_iff, addOne_eq_some_iff] at hu
          obtain ⟨_, ⟨_, rfl⟩, rfl⟩ := hu
          exact .inl ⟨hmajor, rfl, p, rfl, rfl⟩
        | succ m =>
          simp only [hminor, hpatch, Option.map_eq_some_iff, addOne_eq_some_iff] at hu
          obtain ⟨_, ⟨_, rfl⟩, rfl⟩ := hu
          exact .inr (.inl ⟨hmajor, m + 1, rfl, .inl (by omega), rfl⟩)
  · obtain ⟨k, hk⟩ := Nat.exists_eq_succ_of_ne_zero hmajor
    simp only [hk, Option.map_eq_some_iff, addOne_eq_some_iff] at hu
    obtain ⟨_, ⟨_, rfl⟩, rfl⟩ := hu
    exact .inr (.inr (.inr ⟨hmajor, by rw [hk]⟩))

theorem caretUpper_spec (hu : caretUpper c = some u) : u.pre = [] ∧ (low c).Below u := by
  obtain ⟨hmajor, hminor, p, hpatch, rfl⟩ | ⟨hmajor, m, hminor, _, rfl⟩ |
    ⟨hmajor, hminor, rfl⟩ | ⟨hmajor, rfl⟩ := caretUpper_cases hu
  · simp [Version.new, Version.Below, low, hmajor, hminor, hpatch]
  · simp [Version.new, Version.Below, low, hmajor, hminor]
  · simp [Version.new, Version.Below, low, hmajor]
  · simp [Version.new, Version.Below, low]

theorem matchesCaret_iff_of_full (hfull : c.patch.isSome = true) (hu : caretUpper c = some u) :
    c.matchesCaret v = true ↔ AtLow c v ∧ Prerelease.lt v.pre c.pre = false ∨
      (low c).Below v ∧ v.Below u := by
  obtain ⟨minor, patch, hminor, hpatch⟩ := exists_of_full hfull
  have hcases := caretUpper_cases hu
  simp only [Comparator.matchesCaret, AtLow, Version.At, Version.Below, low, Version.new, hminor,
    hpatch, Option.getD_some] at hcases ⊢
  grind

theorem matchesCaret_iff_of_short (hpart : c.patch = none) (hu : caretUpper c = some u) :
    c.matchesCaret v = true ↔ (AtLow c v ∨ (low c).Below v) ∧ v.Below u := by
  have hcases := caretUpper_cases hu
  simp only [Comparator.matchesCaret, AtLow, Version.At, Version.Below, low, Version.new,
    hpart, Option.getD_none] at hcases ⊢
  grind

/-! ### The operators -/

section Operators

variable (h : comparatorToRanges c = some r)
include h

theorem reads_greater (hop : c.op = .greater) : Reads c v r := by
  simp only [comparatorToRanges, hop, Option.some.injEq] at h
  subst h
  have hpos := position v (low c)
  have hcontains := contains_strictlyHigherThan (v := v) (low_pre c)
  have hlt := lt_facts c.pre v.pre
  cases hpatch : c.patch with
  | none =>
    have hpre := pre_eq_nil_of_short hpatch
    have hmatch := matchesGreater_iff_of_short (v := v) hpatch
    have hwritten := below_low_of_short (v := v) hpatch
    constructor <;> grind [Overshoots, Undershoots, Comparator.matchesImpl, AtLow]
  | some patch =>
    have hmatch := matchesGreater_iff_of_full (c := c) (v := v) (by simp [hpatch])
    constructor <;> grind [Overshoots, Undershoots, Comparator.matchesImpl, AtLow]

theorem reads_greaterEq (hop : c.op = .greaterEq) : Reads c v r := by
  simp only [comparatorToRanges, hop, Option.some.injEq] at h
  subst h
  have hpos := position v (low c)
  have hcontains := contains_higherThan (v := v) (low_pre c)
  have hlt := lt_facts c.pre v.pre
  cases hpatch : c.patch with
  | none =>
    have hpre := pre_eq_nil_of_short hpatch
    have hexact := matchesExact_iff_of_short (v := v) hpatch
    have hmatch := matchesGreater_iff_of_short (v := v) hpatch
    have hwritten := below_low_of_short (v := v) hpatch
    have hlow := atWritten_of_atLow (c := c) (v := v)
    constructor <;> grind [Overshoots, Undershoots, Comparator.matchesImpl, AtLow]
  | some patch =>
    have hexact := matchesExact_iff_of_full (c := c) (v := v) (by simp [hpatch])
    have hmatch := matchesGreater_iff_of_full (c := c) (v := v) (by simp [hpatch])
    constructor <;> grind [Overshoots, Undershoots, Comparator.matchesImpl, AtLow]

theorem reads_less (hop : c.op = .less) : Reads c v r := by
  simp only [comparatorToRanges, hop, Option.some.injEq] at h
  subst h
  have hpos := position v (low c)
  have hcontains := contains_strictlyLowerThan (v := v) (low_pre c)
  have hlt := lt_facts v.pre c.pre
  cases hpatch : c.patch with
  | none =>
    have hpre := pre_eq_nil_of_short hpatch
    have hmatch := matchesLess_iff_of_short (v := v) hpatch
    constructor <;> grind [Overshoots, Undershoots, Comparator.matchesImpl, AtLow]
  | some patch =>
    have hmatch := matchesLess_iff_of_full (c := c) (v := v) (by simp [hpatch])
    constructor <;> grind [Overshoots, Undershoots, Comparator.matchesImpl, AtLow]

theorem reads_exact (hop : c.op = .exact ∨ c.op = .wildcard) : Reads c v r := by
  have hpos := position v (low c)
  cases hpatch : c.patch with
  | none =>
    obtain ⟨u, hu, rfl⟩ : ∃ u, precisionUpper c = some u ∧ Ranges.between (low c) u = r := by
      rcases hop with hop | hop <;>
        simpa [comparatorToRanges, hop, hpatch, Option.map_eq_some_iff] using h
    have hupper : AtUpper c v ↔ v.At u := by
      rcases hop with hop | hop <;> simp [AtUpper, upper, hop, hpatch, hu]
    obtain ⟨hpre, hbelow⟩ := precisionUpper_of_short (v := v) hpatch hu
    have hcontains := contains_between (v := v) (low_pre c) hpre
    have hexact := matchesExact_iff_of_short (v := v) hpatch
    have hwritten := below_low_of_short (v := v) hpatch
    have hlow := atWritten_of_atLow (c := c) (v := v)
    have hposU := position v u
    have hnil := pre_eq_nil_of_short hpatch
    rcases hop with hop | hop <;> constructor <;> grind [Overshoots, Undershoots, Comparator.matchesImpl, AtLow]
  | some patch =>
    obtain rfl : Ranges.singleton (low c) = r := by
      have hminor := c.minor_of_patch (by simp [hpatch])
      rcases hop with hop | hop <;> simpa [comparatorToRanges, hop, hpatch, hminor] using h
    have hcontains := contains_singleton (v := v) (low_pre c)
    have hexact := matchesExact_iff_of_full (c := c) (v := v) (by simp [hpatch])
    rcases hop with hop | hop <;> constructor <;> grind [Overshoots, Undershoots, Comparator.matchesImpl, AtLow]

theorem reads_lessEq (hop : c.op = .lessEq) : Reads c v r := by
  have hpos := position v (low c)
  cases hpatch : c.patch with
  | none =>
    obtain ⟨u, hu, rfl⟩ : ∃ u, precisionUpper c = some u ∧ Ranges.strictlyLowerThan u = r := by
      simpa [comparatorToRanges, hop, hpatch, Option.map_eq_some_iff] using h
    have hupper : AtUpper c v ↔ v.At u := by
      simp [AtUpper, upper, hop, hpatch, hu]
    obtain ⟨hpre, hbelow⟩ := precisionUpper_of_short (v := v) hpatch hu
    have hcontains := contains_strictlyLowerThan (v := v) hpre
    have hexact := matchesExact_iff_of_short (v := v) hpatch
    have hmatch := matchesLess_iff_of_short (v := v) hpatch
    have hwritten := below_low_of_short (v := v) hpatch
    have hposU := position v u
    have hnil := pre_eq_nil_of_short hpatch
    constructor <;> grind [Overshoots, Undershoots, Comparator.matchesImpl, AtLow]
  | some patch =>
    obtain rfl : Ranges.lowerThan (low c) = r := by
      have hminor := c.minor_of_patch (by simp [hpatch])
      simpa [comparatorToRanges, hop, hpatch, hminor] using h
    have hcontains := contains_lowerThan (v := v) (low_pre c)
    have hexact := matchesExact_iff_of_full (c := c) (v := v) (by simp [hpatch])
    have hmatch := matchesLess_iff_of_full (c := c) (v := v) (by simp [hpatch])
    have hlt := lt_facts v.pre c.pre
    constructor <;> grind [Overshoots, Undershoots, Comparator.matchesImpl, AtLow]

theorem reads_tilde (hop : c.op = .tilde) : Reads c v r := by
  obtain ⟨u, hu, rfl⟩ : ∃ u, tildeUpper c = some u ∧ Ranges.between (low c) u = r := by
    simpa [comparatorToRanges, hop, Option.map_eq_some_iff] using h
  have hpos := position v (low c)
  have hposU := position v u
  have hupper : AtUpper c v ↔ v.At u := by
    simp [AtUpper, upper, hop, hu]
  obtain ⟨hpre, hlowU⟩ := tildeUpper_spec hu
  have hcontains := contains_between (v := v) (low_pre c) hpre
  have hbounds := low_below_of_upper (v := v) hlowU
  cases hpatch : c.patch with
  | none =>
    have hmatch := matchesTilde_iff_of_short (v := v) hpatch
    have hwritten := below_low_of_short (v := v) hpatch
    have hlow := atWritten_of_atLow (c := c) (v := v)
    obtain ⟨-, hbelow⟩ := precisionUpper_of_short (v := v) hpatch
      (tildeUpper_of_short hpatch ▸ hu)
    have hnil := pre_eq_nil_of_short hpatch
    constructor <;> grind [Overshoots, Undershoots, Comparator.matchesImpl, AtLow]
  | some patch =>
    have hmatch := matchesTilde_iff_of_full (c := c) (v := v) (by simp [hpatch]) hu
    have hlt := lt_facts v.pre c.pre
    constructor <;> grind [Overshoots, Undershoots, Comparator.matchesImpl, AtLow]

theorem reads_caret (hop : c.op = .caret) : Reads c v r := by
  obtain ⟨u, hu, rfl⟩ : ∃ u, caretUpper c = some u ∧ Ranges.between (low c) u = r := by
    simpa [comparatorToRanges, hop, Option.map_eq_some_iff] using h
  have hpos := position v (low c)
  have hposU := position v u
  have hupper : AtUpper c v ↔ v.At u := by
    simp [AtUpper, upper, hop, hu]
  obtain ⟨hpre, hlowU⟩ := caretUpper_spec hu
  have hcontains := contains_between (v := v) (low_pre c) hpre
  have hbounds := low_below_of_upper (v := v) hlowU
  have hlt := lt_facts v.pre c.pre
  cases hpatch : c.patch with
  | none =>
    have hmatch := matchesCaret_iff_of_short (v := v) hpatch hu
    constructor <;> grind [Overshoots, Undershoots, Comparator.matchesImpl, AtLow]
  | some patch =>
    have hmatch := matchesCaret_iff_of_full (c := c) (v := v) (by simp [hpatch]) hu
    constructor <;> grind [Overshoots, Undershoots, Comparator.matchesImpl, AtLow]

theorem comparatorToRanges_reads : Reads c v r := by
  cases hop : c.op with
  | exact => exact reads_exact h (.inl hop)
  | wildcard => exact reads_exact h (.inr hop)
  | greater => exact reads_greater h hop
  | greaterEq => exact reads_greaterEq h hop
  | less => exact reads_less h hop
  | lessEq => exact reads_lessEq h hop
  | tilde => exact reads_tilde h hop
  | caret => exact reads_caret h hop

end Operators

/-! ## Whole requirements -/

theorem comparatorToRanges_isSome_iff : (comparatorToRanges c).isSome = true ↔ ¬ Overflows c := by
  have hminor := c.minor_of_patch
  rw [Overflows, upper, comparatorToRanges]
  cases c.op <;> cases hpatch : c.patch <;> simp_all [Option.isSome_iff_ne_none]

theorem foldlM_intersection {cs : List Comparator} (acc : Ranges)
    (hno : ∀ c ∈ cs, ¬ Overflows c) :
    ∃ r, cs.foldlM (fun acc c => (comparatorToRanges c).map acc.intersection) acc = some r ∧
      (r.contains v = true ↔ acc.contains v = true ∧
        ∀ c ∈ cs, c.matchesImpl v = true ∧ ¬ Undershoots c v ∨ Overshoots c v) := by
  induction cs generalizing acc with
  | nil => exact ⟨acc, rfl, by simp⟩
  | cons c cs ih =>
    obtain ⟨s, hs⟩ := Option.isSome_iff_exists.mp
      (comparatorToRanges_isSome_iff.mpr (hno c (by simp)))
    obtain ⟨r, hr, hcontains⟩ := ih (acc.intersection s) fun c hc => hno c (by simp [hc])
    refine ⟨r, by simpa [hs] using hr, hcontains.trans ?_⟩
    have hreads := (comparatorToRanges_reads (v := v) hs).contains_iff
    rw [Ranges.intersection, Bool.and_eq_true, hreads, List.forall_mem_cons, and_assoc]

theorem foldlM_intersection_none {cs : List Comparator} {acc : Ranges}
    (h : ∃ c ∈ cs, Overflows c) :
    cs.foldlM (fun acc c => (comparatorToRanges c).map acc.intersection) acc = none := by
  induction cs generalizing acc with
  | nil => simp at h
  | cons c cs ih =>
    rw [List.foldlM_cons]
    by_cases hover : Overflows c
    · have hnone : comparatorToRanges c = none := by
        rw [← Option.not_isSome_iff_eq_none, comparatorToRanges_isSome_iff]
        exact not_not_intro hover
      rw [hnone]
      rfl
    · obtain ⟨s, hs⟩ := Option.isSome_iff_exists.mp (comparatorToRanges_isSome_iff.mpr hover)
      rw [hs]
      exact ih (by simpa [hover] using h)

/-- `v` is a release, or a comparator names a pre-release of its numbers. -/
def Pinned (req : VersionReq) (v : Version) : Prop :=
  v.pre = [] ∨ ∃ c ∈ req.comparators, c.preIsCompatible v = true

/-- Every interval takes `v` in, and it is an unpinned pre-release or some rule leaves it out. -/
def TooWide (req : VersionReq) (v : Version) : Prop :=
  (∀ c ∈ req.comparators, c.matchesImpl v = true ∧ ¬ Undershoots c v ∨ Overshoots c v) ∧
    (¬ Pinned req v ∨ ∃ c ∈ req.comparators, Overshoots c v)

/-- Every rule takes the pinned `v` in, and some interval leaves it out. -/
def TooNarrow (req : VersionReq) (v : Version) : Prop :=
  Pinned req v ∧ (∀ c ∈ req.comparators, c.matchesImpl v = true) ∧
    ∃ c ∈ req.comparators, Undershoots c v

/-- The conversion returns, and its set holds `v` exactly if the requirement matches it. -/
def ExactAt (req : VersionReq) (v : Version) : Prop :=
  ∃ r, reqToRanges req = some r ∧ (r.contains v = true ↔ req.matches v = true)

theorem matches_iff :
    req.matches v = true ↔ (∀ c ∈ req.comparators, c.matchesImpl v = true) ∧ Pinned req v := by
  simp [VersionReq.matches, Pinned]

theorem reqToRanges_contains (hno : ∀ c ∈ req.comparators, ¬ Overflows c) :
    ∃ r, reqToRanges req = some r ∧ (r.contains v = true ↔
      ∀ c ∈ req.comparators, c.matchesImpl v = true ∧ ¬ Undershoots c v ∨ Overshoots c v) := by
  rw [reqToRanges]
  split
  case isTrue hempty => exact ⟨.full, rfl, by simp [List.isEmpty_iff.mp hempty, Ranges.full]⟩
  case isFalse =>
    obtain ⟨r, hr, hcontains⟩ := foldlM_intersection (v := v) .full hno
    exact ⟨r, hr, hcontains.trans (and_iff_right rfl)⟩

theorem reqToRanges_eq_none (h : ∃ c ∈ req.comparators, Overflows c) : reqToRanges req = none := by
  rw [reqToRanges, if_neg, foldlM_intersection_none h]
  obtain ⟨c, hc, -⟩ := h
  intro hempty
  rw [List.isEmpty_iff.mp hempty] at hc
  cases hc

/-- The conversion is exact at `v` but for overflow and the two kinds of misreading. -/
theorem reqToRanges_exactAt_iff (req : VersionReq) (v : Version) :
    ExactAt req v ↔
      (∀ c ∈ req.comparators, ¬ Overflows c) ∧ ¬ TooWide req v ∧ ¬ TooNarrow req v := by
  by_cases hover : ∃ c ∈ req.comparators, Overflows c
  · have hnone := reqToRanges_eq_none hover
    obtain ⟨c, hc, hcover⟩ := hover
    constructor
    · intro ⟨r, hr, _⟩
      rw [hnone] at hr
      cases hr
    · intro ⟨hno, _⟩
      exact absurd hcover (hno c hc)
  · have hno : ∀ c ∈ req.comparators, ¬ Overflows c := fun c hc ho => hover ⟨c, hc, ho⟩
    obtain ⟨r, hr, hcontains⟩ := reqToRanges_contains (v := v) hno
    have hexact : ExactAt req v ↔ (r.contains v = true ↔ req.matches v = true) := by
      rw [ExactAt, hr]
      simp
    rw [hexact, hcontains, matches_iff]
    have hreads : ∀ c ∈ req.comparators, (Overshoots c v → c.matchesImpl v = false) ∧
        (Undershoots c v → c.matchesImpl v = true) := by
      intro c hc
      obtain ⟨s, hs⟩ := Option.isSome_iff_exists.mp (comparatorToRanges_isSome_iff.mpr (hno c hc))
      have h := comparatorToRanges_reads (v := v) hs
      exact ⟨h.overshoots, h.undershoots⟩
    constructor
    · intro hiff
      refine ⟨hno, ?_, ?_⟩
      · -- Taken in by every interval, so matched, so pinned and within every rule.
        intro ⟨hall, hwide⟩
        obtain ⟨hmatch, hpin⟩ := hiff.mp hall
        rcases hwide with hunpinned | ⟨c, hc, hc'⟩
        · exact hunpinned hpin
        · have := (hreads c hc).1 hc'
          simp [hmatch c hc] at this
      · intro ⟨hpin, hmatch, c, hc, hunder⟩
        rcases hiff.mpr ⟨hmatch, hpin⟩ c hc with ⟨_, hnot⟩ | hc'
        · exact hnot hunder
        · have := (hreads c hc).1 hc'
          simp [hmatch c hc] at this
    · intro ⟨_, hwide, hnarrow⟩
      constructor
      · intro hall
        have hpin : Pinned req v := by
          by_contra hnot
          exact hwide ⟨hall, .inl hnot⟩
        refine ⟨?_, hpin⟩
        intro c hc
        rcases hall c hc with ⟨hmatch, _⟩ | hc'
        · exact hmatch
        · exact absurd ⟨hall, .inr ⟨c, hc, hc'⟩⟩ hwide
      · intro ⟨hmatch, hpin⟩ c hc
        refine .inl ⟨hmatch c hc, ?_⟩
        intro hunder
        exact hnarrow ⟨hpin, hmatch, c, hc, hunder⟩

/-- `>1.2` takes in `1.2.3`, which it does not match. -/
theorem greater_partial_not_exact :
    ¬ ExactAt ⟨[⟨.greater, 1, some 2, none, [], by simp, by simp⟩]⟩ (Version.new 1 2 3) := by
  intro ⟨r, hr, hiff⟩
  simp only [reqToRanges, comparatorToRanges] at hr
  cases hr
  revert hiff
  decide

end Noeta.Pm.Requirement
