import Mathlib.Data.List.Basic
import Mathlib.Tactic.Common

/-!
# Semantic versions

Versions, their precedence, and what it is for a version to match a requirement. A component is a `u64`
of the source; it is a natural number here, and the places where the source adds to one check that the
sum still fits.
-/

namespace Noeta.Pm.Semver

/-! ## Versions -/

/-- One dot-separated part of a pre-release tag. -/
inductive Identifier where
  | numeric (n : Nat)
  | alphanumeric (s : String)
deriving DecidableEq, Repr

/-- Numeric identifiers come before alphanumeric ones. -/
def Identifier.cmp : Identifier → Identifier → Ordering
  | .numeric a, .numeric b => compare a b
  | .numeric _, .alphanumeric _ => .lt
  | .alphanumeric _, .numeric _ => .gt
  | .alphanumeric a, .alphanumeric b => compare a b

abbrev Prerelease := List Identifier

namespace Prerelease

def cmpParts : Prerelease → Prerelease → Ordering
  | [], [] => .eq
  | [], _ :: _ => .lt
  | _ :: _, [] => .gt
  | a :: as, b :: bs => (a.cmp b).then (cmpParts as bs)

/-- The empty tag, a release, comes after every pre-release. -/
def cmp : Prerelease → Prerelease → Ordering
  | [], [] => .eq
  | [], _ :: _ => .gt
  | _ :: _, [] => .lt
  | a :: as, b :: bs => cmpParts (a :: as) (b :: bs)

def lt (a b : Prerelease) : Bool := cmp a b == .lt

@[simp] theorem not_lt_of_release (b : Prerelease) : lt [] b = false := by
  cases b <;> rfl

@[simp] theorem lt_release (a : Prerelease) : lt a [] = decide (a ≠ []) := by
  cases a <;> rfl

end Prerelease

structure Version where
  major : Nat
  minor : Nat
  patch : Nat
  pre : Prerelease
  build : List String
deriving DecidableEq, Repr

namespace Version

/-- `Version::new`: a release without build metadata. -/
def new (major minor patch : Nat) : Version := ⟨major, minor, patch, [], []⟩

/-- Precedence; build metadata does not take part. -/
def cmpPrecedence (a b : Version) : Ordering :=
  (compare a.major b.major).then <| (compare a.minor b.minor).then <|
    (compare a.patch b.patch).then (Prerelease.cmp a.pre b.pre)

/-- The numbers of `a` come before those of `b`. -/
def Below (a b : Version) : Prop :=
  a.major < b.major ∨ a.major = b.major ∧
    (a.minor < b.minor ∨ a.minor = b.minor ∧ a.patch < b.patch)

/-- The same three numbers. -/
def At (a b : Version) : Prop := a.major = b.major ∧ a.minor = b.minor ∧ a.patch = b.patch

instance (a b : Version) : Decidable (Below a b) := inferInstanceAs (Decidable (_ ∨ _))

instance (a b : Version) : Decidable (At a b) := inferInstanceAs (Decidable (_ ∧ _))

theorem cmpPrecedence_of_below {a b : Version} (h : Below a b) : cmpPrecedence a b = .lt := by
  rw [cmpPrecedence]
  rcases h with h | ⟨h, h' | ⟨h', h''⟩⟩
  · rw [Nat.compare_eq_lt.mpr h]
    rfl
  · rw [Nat.compare_eq_eq.mpr h, Nat.compare_eq_lt.mpr h']
    rfl
  · rw [Nat.compare_eq_eq.mpr h, Nat.compare_eq_eq.mpr h', Nat.compare_eq_lt.mpr h'']
    rfl

theorem cmpPrecedence_of_above {a b : Version} (h : Below b a) : cmpPrecedence a b = .gt := by
  rw [cmpPrecedence]
  rcases h with h | ⟨h, h' | ⟨h', h''⟩⟩
  · rw [Nat.compare_eq_gt.mpr h]
    rfl
  · rw [Nat.compare_eq_eq.mpr h.symm, Nat.compare_eq_gt.mpr h']
    rfl
  · rw [Nat.compare_eq_eq.mpr h.symm, Nat.compare_eq_eq.mpr h'.symm, Nat.compare_eq_gt.mpr h'']
    rfl

theorem cmpPrecedence_of_at {a b : Version} (h : At a b) :
    cmpPrecedence a b = Prerelease.cmp a.pre b.pre := by
  obtain ⟨h, h', h''⟩ := h
  rw [cmpPrecedence, Nat.compare_eq_eq.mpr h, Nat.compare_eq_eq.mpr h', Nat.compare_eq_eq.mpr h'']
  rfl

theorem below_or_at_or_above (a b : Version) : Below a b ∨ At a b ∨ Below b a := by
  simp only [Below, At]
  omega

end Version

/-! ## Requirements -/

inductive Op where
  | exact | greater | greaterEq | less | lessEq | tilde | caret | wildcard
deriving DecidableEq, Repr

/-- One comparator. A patch needs a minor, and a pre-release tag needs a patch. -/
structure Comparator where
  op : Op
  major : Nat
  minor : Option Nat
  patch : Option Nat
  pre : Prerelease
  minor_of_patch : patch.isSome → minor.isSome
  patch_of_pre : pre ≠ [] → patch.isSome

structure VersionReq where
  comparators : List Comparator

namespace Comparator

def matchesExact (c : Comparator) (v : Version) : Bool :=
  v.major = c.major ∧ (∀ m ∈ c.minor, v.minor = m) ∧ (∀ p ∈ c.patch, v.patch = p) ∧ v.pre = c.pre

def matchesGreater (c : Comparator) (v : Version) : Bool :=
  if v.major ≠ c.major then c.major < v.major
  else
    match c.minor with
    | none => false
    | some minor =>
      if v.minor ≠ minor then minor < v.minor
      else
        match c.patch with
        | none => false
        | some patch => if v.patch ≠ patch then patch < v.patch else Prerelease.lt c.pre v.pre

def matchesLess (c : Comparator) (v : Version) : Bool :=
  if v.major ≠ c.major then v.major < c.major
  else
    match c.minor with
    | none => false
    | some minor =>
      if v.minor ≠ minor then v.minor < minor
      else
        match c.patch with
        | none => false
        | some patch => if v.patch ≠ patch then v.patch < patch else Prerelease.lt v.pre c.pre

def matchesTilde (c : Comparator) (v : Version) : Bool :=
  if v.major ≠ c.major then false
  else if ∃ m ∈ c.minor, v.minor ≠ m then false
  else
    match c.patch with
    | none => !Prerelease.lt v.pre c.pre
    | some patch => if v.patch ≠ patch then patch < v.patch else !Prerelease.lt v.pre c.pre

def matchesCaret (c : Comparator) (v : Version) : Bool :=
  if v.major ≠ c.major then false
  else
    match c.minor, c.patch with
    | none, _ => true
    | some minor, none => if 0 < c.major then minor ≤ v.minor else v.minor = minor
    | some minor, some patch =>
      if 0 < c.major then
        if v.minor ≠ minor then minor < v.minor
        else if v.patch ≠ patch then patch < v.patch
        else !Prerelease.lt v.pre c.pre
      else if 0 < minor then
        if v.minor ≠ minor then false
        else if v.patch ≠ patch then patch < v.patch
        else !Prerelease.lt v.pre c.pre
      else if v.minor ≠ minor ∨ v.patch ≠ patch then false
      else !Prerelease.lt v.pre c.pre

def matchesImpl (c : Comparator) (v : Version) : Bool :=
  match c.op with
  | .exact | .wildcard => c.matchesExact v
  | .greater => c.matchesGreater v
  | .greaterEq => c.matchesExact v || c.matchesGreater v
  | .less => c.matchesLess v
  | .lessEq => c.matchesExact v || c.matchesLess v
  | .tilde => c.matchesTilde v
  | .caret => c.matchesCaret v

/-- The comparator names a pre-release of `v`'s own numbers. -/
def preIsCompatible (c : Comparator) (v : Version) : Bool :=
  c.major = v.major ∧ c.minor = some v.minor ∧ c.patch = some v.patch ∧ c.pre ≠ []

end Comparator

/-- Every comparator matches, and a pre-release is asked for by name. -/
def VersionReq.matches (req : VersionReq) (v : Version) : Bool :=
  req.comparators.all (·.matchesImpl v) &&
    (v.pre.isEmpty || req.comparators.any (·.preIsCompatible v))

end Noeta.Pm.Semver
