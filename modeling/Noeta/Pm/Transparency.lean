import Noeta.Lib.Merkle
import Mathlib.Data.List.Induction

/-!
# Transparency-log verification

The client's half of the registry's Merkle log: a leaf is included in a checkpoint, and a later
checkpoint extends an earlier one. Tree sizes are machine words the registry serves. The one loop of
the code is the search for the split point; it is run here with fuel, and a verdict is an `Option`
that is `none` while that loop still runs.
-/

namespace Noeta.Pm.Transparency

open Noeta.Lib

/-! ## The code -/

/-- The loop of `largest_pow2_below`; the shift drops the bits that leave the word. -/
def growK (n : UInt64) : Nat → UInt64 → Option UInt64
  | 0, _ => none
  | fuel + 1, k => if k <<< 1 < n then growK n fuel (k <<< 1) else some k

def largestPow2Below (fuel : Nat) (n : UInt64) : Option UInt64 := growK n fuel 1

section Verify

variable {H : Type} (nodeHash : H → H → H)

def rootFromInclusion (fuel : Nat) (leaf : H) (m n : UInt64) (proof : List H) :
    Option (Option H) :=
  if n ≤ 1 then some (if proof.isEmpty then some leaf else none)
  else
    match _h : proof.getLast? with
    | none => some none
    | some sibling => do
      let k ← largestPow2Below fuel n
      if m < k then
        let left ← rootFromInclusion fuel leaf m k proof.dropLast
        return left.map fun left => nodeHash left sibling
      else
        let right ← rootFromInclusion fuel leaf (m - k) (n - k) proof.dropLast
        return right.map fun right => nodeHash sibling right
termination_by proof.length
decreasing_by
  all_goals
    have hne : proof ≠ [] := by
      intro hnil
      simp [hnil] at _h
    have := List.length_pos_iff.mpr hne
    rw [List.length_dropLast]
    omega

def verifyInclusion [DecidableEq H] (fuel : Nat) (leaf : H) (m size : UInt64) (proof : List H) (root : H) :
    Option Bool :=
  if m ≥ size then some false
  else (rootFromInclusion nodeHash fuel leaf m size proof).map fun r => r.any (· = root)

/-- The roots of the first `m` and of all `n` leaves. With `b`, the former is the pinned `rootM`. -/
def reconstructConsistency (fuel : Nat) (proof : List H) (m n : UInt64) (b : Bool) (rootM : H) :
    Option (Option (H × H)) :=
  if m = n then
    if b then some (some (rootM, rootM))
    else some (proof.getLast?.map fun h => (h, h))
  else
    match _h : proof.getLast? with
    | none => some none
    | some sibling => do
      let k ← largestPow2Below fuel n
      if m ≤ k then
        let r ← reconstructConsistency fuel proof.dropLast m k b rootM
        return r.map fun (lo, hi) => (lo, nodeHash hi sibling)
      else
        let r ← reconstructConsistency fuel proof.dropLast (m - k) (n - k) false rootM
        return r.map fun (lo, hi) => (nodeHash sibling lo, nodeHash sibling hi)
termination_by proof.length
decreasing_by
  all_goals
    have hne : proof ≠ [] := by
      intro hnil
      simp [hnil] at _h
    have := List.length_pos_iff.mpr hne
    rw [List.length_dropLast]
    omega

def verifyConsistency [DecidableEq H] (fuel : Nat) (m n : UInt64) (proof : List H) (rootM rootN : H) :
    Option Bool :=
  if m > n then some false
  else if m = n then some (proof.isEmpty && rootM = rootN)
  else if m = 0 then some true
  else
    (reconstructConsistency nodeHash fuel proof m n true rootM).map fun r =>
      r.any fun (lo, hi) => lo = rootM && hi = rootN

end Verify

/-- The run with enough fuel ends in `true`. -/
def Accepts (verdict : Nat → Option Bool) : Prop := ∃ fuel, verdict fuel = some true

def Terminates {α : Type*} (run : Nat → Option α) : Prop := ∃ fuel, (run fuel).isSome

/-! ## The log -/

/-- A Rust slice: its length is at most `isize::MAX`. -/
structure Slice (α : Type*) where
  toList : List α
  length_lt : toList.length < 2 ^ 63

namespace Slice

variable {α : Type*}

def len (s : Slice α) : UInt64 := UInt64.ofNat s.toList.length

def take (s : Slice α) (m : UInt64) : Slice α where
  toList := s.toList.take m.toNat
  length_lt := lt_of_le_of_lt (List.length_take_le' _ _) s.length_lt

theorem toNat_len (s : Slice α) : s.len.toNat = s.toList.length := by
  have := s.length_lt
  rw [len, UInt64.toNat_ofNat', Nat.mod_eq_of_lt (by omega)]

theorem len_toNat_le (s : Slice α) : s.len.toNat ≤ 2 ^ 63 := by
  rw [toNat_len]
  exact s.length_lt.le

end Slice

section Log

variable {H : Type} (nodeHash : H → H → H) (emptyHash : H)

def merkleRoot (leaves : Slice H) : H := Merkle.root nodeHash emptyHash leaves.toList

def inclusionProof (leaves : Slice H) (m : UInt64) : List H :=
  Merkle.path nodeHash emptyHash leaves.toList m.toNat

def consistencyProof (leaves : Slice H) (m : UInt64) : List H :=
  Merkle.subproof nodeHash emptyHash m.toNat leaves.toList true

end Log

/-! ## The split point -/

theorem toNat_shiftLeft_one (k : UInt64) : (k <<< 1).toNat = 2 * k.toNat % 2 ^ 64 := by
  rw [UInt64.toNat_shiftLeft]
  simp [Nat.shiftLeft_eq, Nat.mul_comm]

theorem growK_eq_split {n : UInt64} (hn : n.toNat ≤ 2 ^ 63) {fuel j : Nat} {k : UInt64}
    (hk : k.toNat = 2 ^ j) (hlt : 2 ^ j < n.toNat) (hfuel : 63 ≤ fuel + j) :
    ∃ r, growK n fuel k = some r ∧ r.toNat = Merkle.split n.toNat := by
  induction fuel generalizing j k with
  | zero =>
    have : 2 ^ 63 ≤ 2 ^ j := Nat.pow_le_pow_right (by omega) (by omega)
    omega
  | succ fuel ih =>
    have hdouble : (k <<< 1).toNat = 2 ^ (j + 1) := by
      rw [toNat_shiftLeft_one, hk, Nat.pow_succ, Nat.mod_eq_of_lt (by omega)]
      omega
    rw [growK]
    split
    case isTrue h =>
      rw [UInt64.lt_iff_toNat_lt, hdouble] at h
      exact ih hdouble h (by omega)
    case isFalse h =>
      rw [UInt64.lt_iff_toNat_lt, hdouble, Nat.pow_succ] at h
      refine ⟨k, rfl, ?_⟩
      rw [hk, Merkle.split_eq hlt (by omega)]

theorem growK_eq_none {n : UInt64} (hn : 2 ^ 63 < n.toNat) (fuel : Nat) {k : UInt64}
    (hk : k = 0 ∨ ∃ j, j < 64 ∧ k.toNat = 2 ^ j) : growK n fuel k = none := by
  induction fuel generalizing k with
  | zero => rfl
  | succ fuel ih =>
    have hnext : (k <<< 1).toNat ≤ 2 ^ 63 ∧
        (k <<< 1 = 0 ∨ ∃ j, j < 64 ∧ (k <<< 1).toNat = 2 ^ j) := by
      rcases hk with rfl | ⟨j, hj, hk⟩
      · exact ⟨by decide, .inl (by decide)⟩
      · have hdouble : (k <<< 1).toNat = 2 ^ (j + 1) % 2 ^ 64 := by
          rw [toNat_shiftLeft_one, hk, ← Nat.pow_succ']
        by_cases hlast : j = 63
        · -- The top bit is shifted out.
          have hzero : k <<< 1 = 0 := by
            apply UInt64.toNat_inj.mp
            rw [hdouble, hlast]
            rfl
          rw [hzero]
          exact ⟨by decide, .inl rfl⟩
        · have hpow : 2 ^ (j + 1) ≤ 2 ^ 63 := Nat.pow_le_pow_right (by omega) (by omega)
          rw [Nat.mod_eq_of_lt (by omega)] at hdouble
          exact ⟨by omega, .inr ⟨j + 1, by omega, hdouble⟩⟩
    rw [growK, if_pos (UInt64.lt_iff_toNat_lt.mpr (by omega))]
    exact ih hnext.2

theorem growK_mono {n k r : UInt64} {fuel fuel' : Nat} (hle : fuel ≤ fuel')
    (h : growK n fuel k = some r) : growK n fuel' k = some r := by
  induction fuel generalizing k fuel' with
  | zero => cases h
  | succ fuel ih =>
    obtain ⟨fuel', rfl⟩ : ∃ f, fuel' = f + 1 := ⟨fuel' - 1, by omega⟩
    rw [growK] at h ⊢
    split at h
    case isTrue hlt =>
      rw [if_pos hlt]
      exact ih (by omega) h
    case isFalse hlt =>
      rw [if_neg hlt]
      exact h

theorem largestPow2Below_eq_split {n : UInt64} (h2 : 2 ≤ n.toNat) (hn : n.toNat ≤ 2 ^ 63)
    {fuel : Nat} (hfuel : 63 ≤ fuel) :
    ∃ k, largestPow2Below fuel n = some k ∧ k.toNat = Merkle.split n.toNat :=
  growK_eq_split hn (show (1 : UInt64).toNat = 2 ^ 0 from rfl) (by omega) (by omega)

theorem largestPow2Below_eq_none {n : UInt64} (hn : 2 ^ 63 < n.toNat) (fuel : Nat) :
    largestPow2Below fuel n = none :=
  growK_eq_none hn fuel (.inr ⟨0, by omega, rfl⟩)

/-! ## The code against the tree -/

section Simulation

variable {H : Type} (nodeHash : H → H → H)

theorem rootFromInclusion_nil (fuel : Nat) (leaf : H) (m n : UInt64) :
    rootFromInclusion nodeHash fuel leaf m n [] = some (if n ≤ 1 then some leaf else none) := by
  rw [rootFromInclusion]
  split <;> rfl

theorem rootFromInclusion_concat (fuel : Nat) (leaf : H) (m n : UInt64) (rest : List H)
    (sibling : H) :
    rootFromInclusion nodeHash fuel leaf m n (rest ++ [sibling]) =
      if n ≤ 1 then some none
      else (largestPow2Below fuel n).bind fun k =>
        if m < k then
          (rootFromInclusion nodeHash fuel leaf m k rest).map (·.map (nodeHash · sibling))
        else
          (rootFromInclusion nodeHash fuel leaf (m - k) (n - k) rest).map
            (·.map (nodeHash sibling ·)) := by
  rw [rootFromInclusion]
  split
  · simp
  · split
    · simp_all
    · rename_i sibling' h
      obtain rfl : sibling = sibling' := by simpa using h
      rw [List.dropLast_concat]
      congr 1
      funext k
      simp only [Option.bind_eq_bind, Option.pure_def]
      split
      · cases rootFromInclusion nodeHash fuel leaf m k rest <;> rfl
      · cases rootFromInclusion nodeHash fuel leaf (m - k) (n - k) rest <;> rfl

theorem reconstructConsistency_nil (fuel : Nat) (m n : UInt64) (b : Bool) (rootM : H) :
    reconstructConsistency nodeHash fuel [] m n b rootM =
      some (if m = n ∧ b = true then some (rootM, rootM) else none) := by
  rw [reconstructConsistency]
  split <;> cases b <;> simp_all

theorem reconstructConsistency_concat (fuel : Nat) (rest : List H) (sibling : H) (m n : UInt64)
    (b : Bool) (rootM : H) :
    reconstructConsistency nodeHash fuel (rest ++ [sibling]) m n b rootM =
      if m = n then some (if b then some (rootM, rootM) else some (sibling, sibling))
      else (largestPow2Below fuel n).bind fun k =>
        if m ≤ k then
          (reconstructConsistency nodeHash fuel rest m k b rootM).map
            (·.map fun r => (r.1, nodeHash r.2 sibling))
        else
          (reconstructConsistency nodeHash fuel rest (m - k) (n - k) false rootM).map
            (·.map fun r => (nodeHash sibling r.1, nodeHash sibling r.2)) := by
  rw [reconstructConsistency]
  split
  · cases b <;> simp
  · split
    · simp_all
    · rename_i sibling' h
      obtain rfl : sibling = sibling' := by simpa using h
      rw [List.dropLast_concat]
      congr 1
      funext k
      simp only [Option.bind_eq_bind, Option.pure_def]
      split
      · cases reconstructConsistency nodeHash fuel rest m k b rootM <;> rfl
      · cases reconstructConsistency nodeHash fuel rest (m - k) (n - k) false rootM <;> rfl

theorem rootFromInclusion_mono {fuel fuel' : Nat} (hle : fuel ≤ fuel') {leaf : H} {m n : UInt64}
    {proof : List H} {r : Option H} (h : rootFromInclusion nodeHash fuel leaf m n proof = some r) :
    rootFromInclusion nodeHash fuel' leaf m n proof = some r := by
  induction proof using List.reverseRecOn generalizing m n r with
  | nil =>
    rw [rootFromInclusion_nil] at h ⊢
    exact h
  | append_singleton rest sibling ih =>
    rw [rootFromInclusion_concat] at h ⊢
    split at h
    case isTrue h1 => rwa [if_pos h1]
    case isFalse h1 =>
      obtain ⟨k, hk, h⟩ := Option.bind_eq_some_iff.mp h
      rw [if_neg h1, show largestPow2Below fuel' n = some k from growK_mono hle hk,
        Option.bind_some]
      split at h
      case isTrue hmk =>
        obtain ⟨left, hleft, rfl⟩ := Option.map_eq_some_iff.mp h
        rw [if_pos hmk, ih hleft, Option.map_some]
      case isFalse hmk =>
        obtain ⟨right, hright, rfl⟩ := Option.map_eq_some_iff.mp h
        rw [if_neg hmk, ih hright, Option.map_some]

theorem reconstructConsistency_mono {fuel fuel' : Nat} (hle : fuel ≤ fuel') {rootM : H}
    {m n : UInt64} {b : Bool} {proof : List H} {r : Option (H × H)}
    (h : reconstructConsistency nodeHash fuel proof m n b rootM = some r) :
    reconstructConsistency nodeHash fuel' proof m n b rootM = some r := by
  induction proof using List.reverseRecOn generalizing m n b r with
  | nil =>
    rw [reconstructConsistency_nil] at h ⊢
    exact h
  | append_singleton rest sibling ih =>
    rw [reconstructConsistency_concat] at h ⊢
    split at h
    case isTrue heq => rwa [if_pos heq]
    case isFalse heq =>
      obtain ⟨k, hk, h⟩ := Option.bind_eq_some_iff.mp h
      rw [if_neg heq, show largestPow2Below fuel' n = some k from growK_mono hle hk,
        Option.bind_some]
      split at h
      case isTrue hmk =>
        obtain ⟨pair, hpair, rfl⟩ := Option.map_eq_some_iff.mp h
        rw [if_pos hmk, ih hpair, Option.map_some]
      case isFalse hmk =>
        obtain ⟨pair, hpair, rfl⟩ := Option.map_eq_some_iff.mp h
        rw [if_neg hmk, ih hpair, Option.map_some]

variable {fuel : Nat} (hfuel : 63 ≤ fuel)
include hfuel

theorem rootFromInclusion_eq (leaf : H) {m n : UInt64} (hn : n.toNat ≤ 2 ^ 63) (proof : List H) :
    rootFromInclusion nodeHash fuel leaf m n proof =
      some (Merkle.rootFrom nodeHash leaf m.toNat n.toNat proof.reverse) := by
  induction proof using List.reverseRecOn generalizing m n with
  | nil =>
    rw [rootFromInclusion_nil]
    simp [Merkle.rootFrom, UInt64.le_iff_toNat_le]
  | append_singleton rest sibling ih =>
    rw [rootFromInclusion_concat, List.reverse_append, List.reverse_singleton,
      List.singleton_append, Merkle.rootFrom]
    by_cases h1 : n ≤ 1
    · have h1' : n.toNat ≤ 1 := UInt64.le_iff_toNat_le.mp h1
      rw [if_pos h1, if_pos h1']
    · have h2 : 2 ≤ n.toNat := by
        have := mt UInt64.le_iff_toNat_le.mpr h1
        have hone : (1 : UInt64).toNat = 1 := rfl
        omega
      obtain ⟨k, hk, hsplit⟩ := largestPow2Below_eq_split h2 hn hfuel
      have hlt := Merkle.split_lt h2
      rw [if_neg h1, if_neg (by omega), hk, Option.bind_some]
      by_cases hmk : m < k
      · have hmk' : m.toNat < Merkle.split n.toNat := hsplit ▸ UInt64.lt_iff_toNat_lt.mp hmk
        rw [if_pos hmk, if_pos hmk', ih (by omega), hsplit, Option.map_some]
      · have hmk' : ¬ m.toNat < Merkle.split n.toNat :=
          hsplit ▸ mt UInt64.lt_iff_toNat_lt.mpr hmk
        have hm : (m - k).toNat = m.toNat - Merkle.split n.toNat := by
          rw [UInt64.toNat_sub_of_le _ _ (UInt64.not_lt.mp hmk), hsplit]
        have hrest : (n - k).toNat = n.toNat - Merkle.split n.toNat := by
          rw [UInt64.toNat_sub_of_le _ _ (UInt64.le_iff_toNat_le.mpr (by omega)), hsplit]
        rw [if_neg hmk, if_neg hmk', ih (by omega), hm, hrest, Option.map_some]

theorem reconstructConsistency_eq (rootM : H) {m n : UInt64} {b : Bool} (hpos : 0 < m.toNat)
    (hmn : m.toNat ≤ n.toNat) (hn : n.toNat ≤ 2 ^ 63) (proof : List H) :
    reconstructConsistency nodeHash fuel proof m n b rootM =
      some (Merkle.roots nodeHash rootM m.toNat n.toNat b proof.reverse) := by
  induction proof using List.reverseRecOn generalizing m n b with
  | nil =>
    rw [reconstructConsistency_nil]
    cases b <;> simp [Merkle.roots, UInt64.toNat_inj]
  | append_singleton rest sibling ih =>
    rw [reconstructConsistency_concat, List.reverse_append, List.reverse_singleton,
      List.singleton_append, Merkle.roots]
    by_cases heq : m = n
    · have heq' : m.toNat = n.toNat := by rw [heq]
      rw [if_pos heq, if_pos heq']
    · have hne : m.toNat ≠ n.toNat := mt UInt64.toNat_inj.mp heq
      have h2 : 2 ≤ n.toNat := by omega
      obtain ⟨k, hk, hsplit⟩ := largestPow2Below_eq_split h2 hn hfuel
      have hlt := Merkle.split_lt h2
      rw [if_neg heq, if_neg hne, hk, Option.bind_some]
      by_cases hmk : m ≤ k
      · have hmk' : m.toNat ≤ Merkle.split n.toNat := hsplit ▸ UInt64.le_iff_toNat_le.mp hmk
        rw [if_pos hmk, if_pos hmk', ih hpos (by omega) (by omega), hsplit, Option.map_some]
      · have hmk' : ¬ m.toNat ≤ Merkle.split n.toNat :=
          hsplit ▸ mt UInt64.le_iff_toNat_le.mpr hmk
        have hm : (m - k).toNat = m.toNat - Merkle.split n.toNat := by
          rw [UInt64.toNat_sub_of_le _ _ (UInt64.le_iff_toNat_le.mpr (by omega)), hsplit]
        have hrest : (n - k).toNat = n.toNat - Merkle.split n.toNat := by
          rw [UInt64.toNat_sub_of_le _ _ (UInt64.le_iff_toNat_le.mpr (by omega)), hsplit]
        rw [if_neg hmk, if_neg hmk', ih (by omega) (by omega) (by omega), hm, hrest,
          Option.map_some]

end Simulation

/-! ## Verdicts -/

section Verdicts

variable {H : Type} [DecidableEq H] (nodeHash : H → H → H)

theorem accepts_verifyInclusion_iff {leaf root : H} {m size : UInt64} {proof : List H}
    (hsize : size.toNat ≤ 2 ^ 63) :
    Accepts (fun fuel => verifyInclusion nodeHash fuel leaf m size proof root) ↔
      m < size ∧
        Merkle.rootFrom nodeHash leaf m.toNat size.toNat proof.reverse = some root := by
  simp only [Accepts]
  constructor
  · intro ⟨fuel, h⟩
    rw [verifyInclusion] at h
    split at h
    case isTrue => cases h
    case isFalse hlt =>
      obtain ⟨r, hr, hany⟩ := Option.map_eq_some_iff.mp h
      have hmax := rootFromInclusion_mono nodeHash (Nat.le_max_left fuel 63) hr
      rw [rootFromInclusion_eq nodeHash (Nat.le_max_right fuel 63) leaf hsize proof,
        Option.some.injEq] at hmax
      rw [hmax]
      refine ⟨UInt64.not_le.mp hlt, ?_⟩
      cases r with
      | none => cases hany
      | some r => simpa using hany
  · intro ⟨hlt, hroot⟩
    refine ⟨63, ?_⟩
    rw [verifyInclusion, if_neg (UInt64.not_le.mpr hlt),
      rootFromInclusion_eq nodeHash le_rfl leaf hsize proof, hroot]
    simp

theorem accepts_verifyConsistency_iff {m n : UInt64} {proof : List H} {rootM rootN : H}
    (hn : n.toNat ≤ 2 ^ 63) (hpos : 0 < m.toNat) (hmn : m.toNat < n.toNat) :
    Accepts (fun fuel => verifyConsistency nodeHash fuel m n proof rootM rootN) ↔
      Merkle.roots nodeHash rootM m.toNat n.toNat true proof.reverse = some (rootM, rootN) := by
  have hgt : ¬ m > n := by
    rw [gt_iff_lt, UInt64.lt_iff_toNat_lt]
    omega
  have hne : ¬ m = n := by
    rintro rfl
    omega
  have hzero : ¬ m = 0 := by
    rintro rfl
    exact absurd hpos (by decide)
  have hrun : ∀ fuel, verifyConsistency nodeHash fuel m n proof rootM rootN =
      (reconstructConsistency nodeHash fuel proof m n true rootM).map fun r =>
        r.any fun (lo, hi) => lo = rootM && hi = rootN := by
    intro fuel
    rw [verifyConsistency, if_neg hgt, if_neg hne, if_neg hzero]
  simp only [Accepts]
  constructor
  · intro ⟨fuel, h⟩
    rw [hrun] at h
    obtain ⟨r, hr, hany⟩ := Option.map_eq_some_iff.mp h
    have hmax := reconstructConsistency_mono nodeHash (Nat.le_max_left fuel 63) hr
    rw [reconstructConsistency_eq nodeHash (Nat.le_max_right fuel 63) rootM hpos hmn.le hn proof,
      Option.some.injEq] at hmax
    rw [hmax]
    cases r with
    | none => cases hany
    | some pair =>
      obtain ⟨lo, hi⟩ := pair
      simpa using hany
  · intro hroots
    refine ⟨63, ?_⟩
    rw [hrun, reconstructConsistency_eq nodeHash le_rfl rootM hpos hmn.le hn proof, hroots]
    simp

/-- Hashing without collisions: a node remembers its children. -/
inductive SymbolicHash where
  | empty
  | leaf (data : List UInt8)
  | node (left right : SymbolicHash)
deriving DecidableEq

theorem SymbolicHash.node_injective2 : Function.Injective2 SymbolicHash.node := by
  intro left left' right right' h
  injection h with hleft hright
  exact ⟨hleft, hright⟩

/-- Every audit path is accepted, and nothing but the leaf's audit path is. -/
theorem verifyInclusion_complete_sound (emptyHash : H) :
    (∀ (leaves : Slice H) (m : UInt64) (leaf : H), leaves.toList[m.toNat]? = some leaf →
      Accepts fun fuel => verifyInclusion nodeHash fuel leaf m leaves.len
        (inclusionProof nodeHash emptyHash leaves m) (merkleRoot nodeHash emptyHash leaves)) ∧
    (Function.Injective2 nodeHash →
      ∀ (leaves : Slice H) (leaf : H) (m : UInt64) (proof : List H),
        (Accepts fun fuel => verifyInclusion nodeHash fuel leaf m leaves.len proof
          (merkleRoot nodeHash emptyHash leaves)) →
        m < leaves.len ∧ leaves.toList[m.toNat]? = some leaf ∧
          proof = inclusionProof nodeHash emptyHash leaves m) := by
  constructor
  · intro leaves m leaf hleaf
    have hlt : m.toNat < leaves.toList.length := (List.getElem?_eq_some_iff.mp hleaf).1
    apply (accepts_verifyInclusion_iff nodeHash leaves.len_toNat_le).mpr
    refine ⟨UInt64.lt_iff_toNat_lt.mpr (by rwa [leaves.toNat_len]), ?_⟩
    rw [leaves.toNat_len]
    exact Merkle.rootFrom_path nodeHash emptyHash hleaf
  · intro hnode leaves leaf m proof h
    obtain ⟨hlt, hroot⟩ := (accepts_verifyInclusion_iff nodeHash leaves.len_toNat_le).mp h
    rw [leaves.toNat_len] at hroot
    have hm : m.toNat < leaves.toList.length := by
      rw [← leaves.toNat_len]
      exact UInt64.lt_iff_toNat_lt.mp hlt
    obtain ⟨hleaf, hproof⟩ := Merkle.rootFrom_sound nodeHash emptyHash hnode hm hroot
    refine ⟨hlt, hleaf, ?_⟩
    rw [inclusionProof, ← List.reverse_inj, hproof]

/-- A log of three entries. -/
def threeEntries : Slice SymbolicHash := ⟨[.leaf [0], .leaf [1], .leaf [2]], by decide⟩

theorem verifyInclusion_complete_sound_three :
    (Accepts fun fuel => verifyInclusion SymbolicHash.node fuel (.leaf [2]) 2 3
        (inclusionProof .node .empty threeEntries 2) (merkleRoot .node .empty threeEntries)) ∧
      ∀ leaf proof, (Accepts fun fuel => verifyInclusion SymbolicHash.node fuel leaf 2 3 proof
        (merkleRoot .node .empty threeEntries)) → leaf = .leaf [2] := by
  constructor
  · exact (verifyInclusion_complete_sound SymbolicHash.node .empty).1 threeEntries 2
      (.leaf [2]) rfl
  · intro leaf proof h
    have hleaf := ((verifyInclusion_complete_sound SymbolicHash.node .empty).2
      SymbolicHash.node_injective2 threeEntries leaf 2 proof h).2.1
    simpa [threeEntries] using hleaf.symm

/-- Every consistency proof is accepted, and an accepted proof is about a front part of the log. -/
theorem verifyConsistency_complete_sound (emptyHash : H) :
    (∀ (leaves : Slice H) (m : UInt64), 1 ≤ m → m ≤ leaves.len →
      Accepts fun fuel => verifyConsistency nodeHash fuel m leaves.len
        (consistencyProof nodeHash emptyHash leaves m)
        (merkleRoot nodeHash emptyHash (leaves.take m)) (merkleRoot nodeHash emptyHash leaves)) ∧
    (Function.Injective2 nodeHash →
      ∀ (a b : Slice H) (proof : List H), 0 < a.len → a.len < b.len →
        (Accepts fun fuel => verifyConsistency nodeHash fuel a.len b.len proof
          (merkleRoot nodeHash emptyHash a) (merkleRoot nodeHash emptyHash b)) →
        a.toList = b.toList.take a.toList.length) := by
  constructor
  · intro leaves m hpos hle
    have hpos' : 0 < m.toNat := UInt64.le_iff_toNat_le.mp hpos
    have hle' : m.toNat ≤ leaves.toList.length := by
      rw [← leaves.toNat_len]
      exact UInt64.le_iff_toNat_le.mp hle
    by_cases heq : m = leaves.len
    · -- The same tree twice: the proof is empty and the roots are compared.
      have hlen : m.toNat = leaves.toList.length := by rw [heq, leaves.toNat_len]
      have hproof : consistencyProof nodeHash emptyHash leaves m = [] := by
        rw [consistencyProof, Merkle.subproof, if_pos hlen, if_pos rfl]
      have hroot : merkleRoot nodeHash emptyHash (leaves.take m) =
          merkleRoot nodeHash emptyHash leaves := by
        show Merkle.root nodeHash emptyHash (leaves.toList.take m.toNat) = _
        rw [List.take_of_length_le hlen.ge]
        rfl
      refine ⟨0, ?_⟩
      beta_reduce
      rw [verifyConsistency, if_neg (by rw [heq]; exact UInt64.lt_irrefl _), if_pos heq, hproof,
        hroot]
      simp
    · have hne : m.toNat ≠ leaves.len.toNat := mt UInt64.toNat_inj.mp heq
      rw [leaves.toNat_len] at hne
      apply (accepts_verifyConsistency_iff nodeHash leaves.len_toNat_le hpos' (by
        rw [leaves.toNat_len]
        omega)).mpr
      rw [leaves.toNat_len]
      exact Merkle.roots_subproof nodeHash emptyHash hpos' hle' fun _ => rfl
  · intro hnode a b proof hpos hlt h
    have hpos' : 0 < a.toList.length := by
      rw [← a.toNat_len]
      exact UInt64.lt_iff_toNat_lt.mp hpos
    have hlt' : a.toList.length < b.toList.length := by
      rw [← a.toNat_len, ← b.toNat_len]
      exact UInt64.lt_iff_toNat_lt.mp hlt
    have hroots := (accepts_verifyConsistency_iff nodeHash b.len_toNat_le
      (by rwa [a.toNat_len]) (by rwa [a.toNat_len, b.toNat_len])).mp h
    rw [a.toNat_len, b.toNat_len] at hroots
    exact Merkle.roots_sound nodeHash emptyHash hnode hpos' hlt'.le hroots

theorem verifyConsistency_complete_sound_two :
    (Accepts fun fuel => verifyConsistency SymbolicHash.node fuel 2 3
        (consistencyProof .node .empty threeEntries 2)
        (merkleRoot .node .empty (threeEntries.take 2)) (merkleRoot .node .empty threeEntries)) ∧
      ∀ (a : Slice SymbolicHash) proof, a.len = 2 →
        (Accepts fun fuel => verifyConsistency SymbolicHash.node fuel a.len 3 proof
          (merkleRoot .node .empty a) (merkleRoot .node .empty threeEntries)) →
        a.toList = [.leaf [0], .leaf [1]] := by
  constructor
  · exact (verifyConsistency_complete_sound SymbolicHash.node .empty).1 threeEntries 2
      (by decide) (by decide)
  · intro a proof hlen h
    have hprefix := (verifyConsistency_complete_sound SymbolicHash.node .empty).2
      SymbolicHash.node_injective2 a threeEntries proof (by rw [hlen]; decide)
      (by rw [hlen]; decide) h
    rw [← a.toNat_len, hlen] at hprefix
    exact hprefix

end Verdicts

/-! ## Termination -/

section Termination

theorem largestPow2Below_terminates_iff {n : UInt64} (h2 : 2 ≤ n) :
    (∃ fuel k, largestPow2Below fuel n = some k ∧
      (∃ j, k.toNat = 2 ^ j) ∧ k < n ∧ n.toNat ≤ 2 * k.toNat) ↔ n.toNat ≤ 2 ^ 63 := by
  constructor
  · intro ⟨fuel, k, hk, _⟩
    by_contra hn
    rw [largestPow2Below_eq_none (by omega)] at hk
    cases hk
  · intro hn
    have h2' : 2 ≤ n.toNat := UInt64.le_iff_toNat_le.mp h2
    obtain ⟨k, hk, hsplit⟩ := largestPow2Below_eq_split h2' hn le_rfl
    refine ⟨63, k, hk, ⟨_, hsplit⟩, ?_, ?_⟩
    · rw [UInt64.lt_iff_toNat_lt, hsplit]
      exact Merkle.split_lt h2'
    · rw [hsplit]
      exact Merkle.le_two_mul_split h2'

variable {H : Type} [DecidableEq H] (nodeHash : H → H → H)

theorem verifyInclusion_terminates_iff (leaf root : H) (m n : UInt64) (proof : List H) :
    Terminates (fun fuel => verifyInclusion nodeHash fuel leaf m n proof root) ↔
      n.toNat ≤ 2 ^ 63 ∨ n ≤ m ∨ proof = [] := by
  simp only [Terminates, verifyInclusion]
  constructor
  · intro ⟨fuel, h⟩
    by_contra hno
    obtain ⟨hn, hmn, hproof⟩ : ¬ n.toNat ≤ 2 ^ 63 ∧ ¬ n ≤ m ∧ proof ≠ [] := by
      simpa only [not_or] using hno
    obtain ⟨rest, sibling, rfl⟩ := List.eq_nil_or_concat' proof |>.resolve_left hproof
    have hone : ¬ n ≤ 1 := by
      rw [UInt64.le_iff_toNat_le]
      exact fun hle => hn (hle.trans (by decide))
    rw [if_neg hmn, rootFromInclusion_concat, if_neg hone, largestPow2Below_eq_none (by omega)]
      at h
    cases h
  · intro hcase
    by_cases hmn : m ≥ n
    · exact ⟨0, by rw [if_pos hmn]; rfl⟩
    · refine ⟨63, ?_⟩
      rw [if_neg hmn]
      rcases hcase with hn | hle | rfl
      · rw [rootFromInclusion_eq nodeHash le_rfl leaf hn proof]
        rfl
      · exact absurd hle hmn
      · rw [rootFromInclusion_nil]
        rfl

theorem verifyConsistency_terminates_iff (rootM rootN : H) (m n : UInt64) (proof : List H) :
    Terminates (fun fuel => verifyConsistency nodeHash fuel m n proof rootM rootN) ↔
      n.toNat ≤ 2 ^ 63 ∨ n ≤ m ∨ m = 0 ∨ proof = [] := by
  simp only [Terminates, verifyConsistency]
  constructor
  · intro ⟨fuel, h⟩
    by_contra hno
    obtain ⟨hn, hmn, hzero, hproof⟩ :
        ¬ n.toNat ≤ 2 ^ 63 ∧ ¬ n ≤ m ∧ m ≠ 0 ∧ proof ≠ [] := by
      simpa only [not_or] using hno
    have hlt : m < n := UInt64.not_le.mp hmn
    have hne : ¬ m = n := by
      intro heq
      exact hmn (heq ▸ UInt64.le_refl _)
    obtain ⟨rest, sibling, rfl⟩ := List.eq_nil_or_concat' proof |>.resolve_left hproof
    rw [if_neg (UInt64.lt_asymm hlt), if_neg hne, if_neg hzero, reconstructConsistency_concat,
      if_neg hne, largestPow2Below_eq_none (by omega)] at h
    cases h
  · intro hcase
    refine ⟨63, ?_⟩
    split
    · rfl
    · rename_i hgt
      split
      · rfl
      · rename_i hne
        split
        · rfl
        · rename_i hzero
          rcases hcase with hn | hle | h0 | rfl
          · have hmn : m.toNat ≤ n.toNat := UInt64.le_iff_toNat_le.mp (UInt64.not_lt.mp hgt)
            have hpos : 0 < m.toNat := by
              apply Nat.pos_of_ne_zero
              exact mt (fun h => UInt64.toNat_inj.mp h) hzero
            rw [reconstructConsistency_eq nodeHash le_rfl rootM hpos hmn hn proof]
            rfl
          · exact absurd (UInt64.le_antisymm (UInt64.not_lt.mp hgt) hle) hne
          · exact absurd h0 hzero
          · rw [reconstructConsistency_nil]
            rfl

/-- The split point is found, and the verifiers return, for sizes up to `2 ^ 63`; above it only where
the loop is not reached. -/
theorem merkle_verification_terminates_iff :
    (∀ n : UInt64, 2 ≤ n →
      ((∃ fuel k, largestPow2Below fuel n = some k ∧
        (∃ j, k.toNat = 2 ^ j) ∧ k < n ∧ n.toNat ≤ 2 * k.toNat) ↔ n.toNat ≤ 2 ^ 63)) ∧
    (∀ (leaf root : H) (m n : UInt64) (proof : List H),
      Terminates (fun fuel => verifyInclusion nodeHash fuel leaf m n proof root) ↔
        n.toNat ≤ 2 ^ 63 ∨ n ≤ m ∨ proof = []) ∧
    (∀ (rootM rootN : H) (m n : UInt64) (proof : List H),
      Terminates (fun fuel => verifyConsistency nodeHash fuel m n proof rootM rootN) ↔
        n.toNat ≤ 2 ^ 63 ∨ n ≤ m ∨ m = 0 ∨ proof = []) :=
  ⟨fun _ h2 => largestPow2Below_terminates_iff h2, verifyInclusion_terminates_iff nodeHash,
    verifyConsistency_terminates_iff nodeHash⟩

theorem merkle_verification_terminates_at_three :
    (∃ fuel k, largestPow2Below fuel 3 = some k ∧ (∃ j, k.toNat = 2 ^ j) ∧ k < 3 ∧
        UInt64.toNat 3 ≤ 2 * k.toNat) ∧
      Terminates (fun fuel => verifyInclusion SymbolicHash.node fuel (.leaf [2]) 2 3
        [.leaf [0], .leaf [1]] .empty) :=
  ⟨((merkle_verification_terminates_iff SymbolicHash.node).1 3 (by decide)).mpr (by decide),
    ((merkle_verification_terminates_iff SymbolicHash.node).2.1 _ _ 2 3 _).mpr
      (.inl (by decide))⟩

/-- At `2 ^ 63 + 1` leaves and a proof of one hash, neither verifier returns. -/
theorem merkle_verification_diverges :
    (¬ ∃ fuel k, largestPow2Below fuel 9223372036854775809 = some k) ∧
      ¬ Terminates (fun fuel => verifyInclusion SymbolicHash.node fuel (.leaf [0]) 0
        9223372036854775809 [.leaf [1]] .empty) ∧
      ¬ Terminates (fun fuel => verifyConsistency SymbolicHash.node fuel 1 9223372036854775809
        [.leaf [1]] .empty .empty) := by
  refine ⟨?_, ?_, ?_⟩
  · intro ⟨fuel, k, hk⟩
    rw [largestPow2Below_eq_none (by decide)] at hk
    cases hk
  · rw [verifyInclusion_terminates_iff]
    decide
  · rw [verifyConsistency_terminates_iff]
    decide

end Termination

end Noeta.Pm.Transparency
