import Mathlib.Algebra.Group.Nat.Defs
import Mathlib.Data.List.Basic
import Mathlib.Data.Nat.Log
import Mathlib.Data.Nat.Init
import Mathlib.Logic.Function.Basic

/-!
# Merkle trees over lists

The tree of RFC 6962 over a list of leaves: `n` leaves split at the largest power of two below `n`.
Audit paths and consistency proofs are lists of sibling hashes from the leaf's level up; a verifier
takes siblings from the end, so it runs here over the reversed list. Node hashing is a parameter, and
what soundness needs of it is that it is injective.
-/

namespace Noeta.Lib.Merkle

/-! ## The split point -/

/-- The largest power of two below `n`, for `n ≥ 2`. -/
def split (n : Nat) : Nat := 2 ^ Nat.log 2 (n - 1)

theorem split_pos (n : Nat) : 0 < split n := Nat.two_pow_pos _

theorem split_lt {n : Nat} (h : 2 ≤ n) : split n < n := by
  have hle : split n ≤ n - 1 := Nat.pow_log_le_self 2 (by omega)
  omega

theorem le_two_mul_split {n : Nat} (h : 2 ≤ n) : n ≤ 2 * split n := by
  have hlt : n - 1 < 2 ^ (Nat.log 2 (n - 1) + 1) := Nat.lt_pow_succ_log_self (by omega) _
  rw [Nat.pow_succ] at hlt
  rw [split]
  omega

theorem split_eq {j n : Nat} (hlo : 2 ^ j < n) (hhi : n ≤ 2 * 2 ^ j) : split n = 2 ^ j := by
  have hlog : Nat.log 2 (n - 1) = j := by
    apply Nat.log_eq_of_pow_le_of_lt_pow
    · omega
    · rw [Nat.pow_succ]
      omega
  rw [split, hlog]

theorem split_eq_split {m n : Nat} (h : 2 ≤ n) (hlo : split n < m) (hhi : m ≤ n) :
    split m = split n := by
  have hn := le_two_mul_split h
  exact split_eq hlo (by rw [split] at hn; omega)

/-! ## Trees and proofs -/

variable {H : Type*} (node : H → H → H) (empty : H)

def root (l : List H) : H :=
  if _h : 2 ≤ l.length then
    node (root (l.take (split l.length))) (root (l.drop (split l.length)))
  else l.headD empty
termination_by l.length
decreasing_by
  · have := split_lt _h
    rw [List.length_take]
    omega
  · have := split_pos l.length
    rw [List.length_drop]
    omega

/-- The audit path of leaf `m`. -/
def path (l : List H) (m : Nat) : List H :=
  if _h : 2 ≤ l.length then
    if m < split l.length then
      path (l.take (split l.length)) m ++ [root node empty (l.drop (split l.length))]
    else
      path (l.drop (split l.length)) (m - split l.length) ++
        [root node empty (l.take (split l.length))]
  else []
termination_by l.length
decreasing_by
  · have := split_lt _h
    rw [List.length_take]
    omega
  · have := split_pos l.length
    rw [List.length_drop]
    omega

/-- The consistency proof for the first `m` leaves; `seed` when their root is known to the verifier. -/
def subproof (m : Nat) (l : List H) (seed : Bool) : List H :=
  if m = l.length then (if seed then [] else [root node empty l])
  else if _h : 2 ≤ l.length then
    if m ≤ split l.length then
      subproof m (l.take (split l.length)) seed ++ [root node empty (l.drop (split l.length))]
    else
      subproof (m - split l.length) (l.drop (split l.length)) false ++
        [root node empty (l.take (split l.length))]
  else []
termination_by l.length
decreasing_by
  · have := split_lt _h
    rw [List.length_take]
    omega
  · have := split_pos l.length
    rw [List.length_drop]
    omega

theorem root_split {l : List H} (h : 2 ≤ l.length) :
    root node empty l = node (root node empty (l.take (split l.length)))
      (root node empty (l.drop (split l.length))) := by
  rw [root, dif_pos h]

theorem root_short {l : List H} (h : l.length < 2) : root node empty l = l.headD empty := by
  rw [root, dif_neg (by omega)]

theorem root_take_split {l : List H} {m : Nat} (h : 2 ≤ l.length) (hlo : split l.length < m)
    (hhi : m ≤ l.length) :
    root node empty (l.take m) = node (root node empty (l.take (split l.length)))
      (root node empty ((l.drop (split l.length)).take (m - split l.length))) := by
  have hlen : (l.take m).length = m := by
    rw [List.length_take]
    omega
  have hpos := split_pos l.length
  rw [root_split node empty (by omega), hlen, split_eq_split h hlo hhi, List.take_take,
    List.drop_take, Nat.min_eq_left (by omega)]

/-! ## Verifiers over the reversed proof -/

/-- The root that a leaf and its reversed path give in a tree of `n` leaves. -/
def rootFrom (leaf : H) : Nat → Nat → List H → Option H
  | _, n, [] => if n ≤ 1 then some leaf else none
  | m, n, sibling :: rest =>
    if n ≤ 1 then none
    else if m < split n then
      (rootFrom leaf m (split n) rest).map fun left => node left sibling
    else
      (rootFrom leaf (m - split n) (n - split n) rest).map fun right => node sibling right

/-- The two roots that a reversed consistency proof gives. -/
def roots (rootM : H) : Nat → Nat → Bool → List H → Option (H × H)
  | m, n, seed, [] => if m = n then (if seed then some (rootM, rootM) else none) else none
  | m, n, seed, sibling :: rest =>
    if m = n then (if seed then some (rootM, rootM) else some (sibling, sibling))
    else if m ≤ split n then
      (roots rootM m (split n) seed rest).map fun r => (r.1, node r.2 sibling)
    else
      (roots rootM (m - split n) (n - split n) false rest).map fun r =>
        (node sibling r.1, node sibling r.2)

/-! ## Completeness -/

theorem rootFrom_path {l : List H} {m : Nat} {leaf : H} (hm : l[m]? = some leaf) :
    rootFrom node leaf m l.length (path node empty l m).reverse = some (root node empty l) := by
  induction hn : l.length using Nat.strong_induction_on generalizing l m with
  | _ n ih =>
    subst hn
    have hlt : m < l.length := (List.getElem?_eq_some_iff.mp hm).1
    rw [path]
    split
    case isFalse h =>
      -- A tree of one leaf: the path is empty and the leaf is the root.
      obtain ⟨x, rfl⟩ : ∃ x, l = [x] := List.length_eq_one_iff.mp (by omega)
      obtain rfl : m = 0 := by simpa using hlt
      rw [root_short node empty (by omega)]
      simpa [rootFrom] using hm.symm
    case isTrue h =>
      have hk := split_lt h
      have hpos := split_pos l.length
      split
      case isTrue hmk =>
        have hlen : (l.take (split l.length)).length = split l.length := by
          rw [List.length_take]
          omega
        have hget : (l.take (split l.length))[m]? = some leaf := by
          rw [List.getElem?_take_of_lt hmk, hm]
        have hrec := ih (split l.length) hk hget hlen
        rw [List.reverse_append, List.reverse_singleton, List.singleton_append, rootFrom,
          if_neg (by omega), if_pos hmk, hrec, Option.map_some, root_split node empty h]
      case isFalse hmk =>
        have hlen : (l.drop (split l.length)).length = l.length - split l.length :=
          List.length_drop
        have hget : (l.drop (split l.length))[m - split l.length]? = some leaf := by
          rw [List.getElem?_drop, Nat.add_sub_cancel' (by omega), hm]
        have hrec := ih (l.length - split l.length) (by omega) hget hlen
        rw [List.reverse_append, List.reverse_singleton, List.singleton_append, rootFrom,
          if_neg (by omega), if_neg hmk, hrec, Option.map_some, root_split node empty h]

theorem roots_subproof {l : List H} {m : Nat} {seed : Bool} {rootM : H} (hpos : 0 < m)
    (hm : m ≤ l.length) (hseed : seed = true → rootM = root node empty (l.take m)) :
    roots node rootM m l.length seed (subproof node empty m l seed).reverse =
      some (root node empty (l.take m), root node empty l) := by
  induction hn : l.length using Nat.strong_induction_on generalizing l m seed with
  | _ n ih =>
    subst hn
    rw [subproof]
    split
    case isTrue heq =>
      -- The trees coincide: the known root, or the one root the proof carries.
      have htake : l.take m = l := List.take_of_length_le (by omega)
      cases seed with
      | true =>
        rw [htake] at hseed ⊢
        simp [roots, heq, hseed rfl]
      | false => simp [roots, heq]
    case isFalse hne =>
      have h : 2 ≤ l.length := by omega
      have hk := split_lt h
      have hsplit := split_pos l.length
      rw [dif_pos h]
      split
      case isTrue hmk =>
        have hlen : (l.take (split l.length)).length = split l.length := by
          rw [List.length_take]
          omega
        have htake : (l.take (split l.length)).take m = l.take m := by
          rw [List.take_take, Nat.min_eq_left hmk]
        have hrec := ih (split l.length) hk hpos (hlen.symm ▸ hmk) (by rwa [htake]) hlen
        rw [List.reverse_append, List.reverse_singleton, List.singleton_append, roots,
          if_neg hne, if_pos hmk, hrec, Option.map_some, htake, root_split node empty h]
      case isFalse hmk =>
        have hlen : (l.drop (split l.length)).length = l.length - split l.length :=
          List.length_drop
        have hrest : m - split l.length ≤ (l.drop (split l.length)).length := by omega
        have hrec := ih (l.length - split l.length) (by omega) (by omega) hrest
          (show false = true → _ by intro hf; cases hf) hlen
        have hprefix := root_take_split node empty h (by omega) hm
        rw [List.reverse_append, List.reverse_singleton, List.singleton_append, roots,
          if_neg hne, if_neg hmk, hrec, Option.map_some, hprefix, root_split node empty h]

/-! ## Soundness -/

section Soundness

variable (hnode : Function.Injective2 node)
include hnode

theorem root_inj {l l' : List H} (hlen : l.length = l'.length)
    (h : root node empty l = root node empty l') : l = l' := by
  induction hn : l.length using Nat.strong_induction_on generalizing l l' with
  | _ n ih =>
    subst hn
    by_cases h2 : 2 ≤ l.length
    · have hk := split_lt h2
      have hpos := split_pos l.length
      have h2' : 2 ≤ l'.length := by omega
      rw [root_split node empty h2, root_split node empty h2', ← hlen] at h
      obtain ⟨hleft, hright⟩ := hnode h
      have htake := ih _ (by rw [List.length_take]; omega) (by simp [hlen]) hleft rfl
      have hdrop := ih _ (by rw [List.length_drop]; omega) (by simp [hlen]) hright rfl
      rw [← List.take_append_drop (split l.length) l, htake, hdrop, List.take_append_drop]
    · rw [root_short node empty (by omega), root_short node empty (by omega)] at h
      match l, l', hlen, h with
      | [], [], _, _ => rfl
      | [x], [y], _, h => rw [show x = y from h]
      | _ :: _ :: _, _, _, _ => simp at h2

/-- A path that gives the tree's root is the audit path, and the leaf is the tree's. -/
theorem rootFrom_sound {l : List H} {m : Nat} {leaf : H} {rproof : List H} (hm : m < l.length)
    (h : rootFrom node leaf m l.length rproof = some (root node empty l)) :
    l[m]? = some leaf ∧ rproof = (path node empty l m).reverse := by
  induction rproof generalizing l m with
  | nil =>
    rw [rootFrom] at h
    split at h
    case isFalse => cases h
    case isTrue hle =>
      obtain ⟨x, rfl⟩ : ∃ x, l = [x] := List.length_eq_one_iff.mp (by omega)
      obtain rfl : m = 0 := by simpa using hm
      rw [root_short node empty (by simp)] at h
      rw [path, dif_neg (by simp)]
      simpa using h.symm
  | cons sibling rest ih =>
    rw [rootFrom] at h
    split at h
    case isTrue => cases h
    case isFalse hgt =>
      have h2 : 2 ≤ l.length := by omega
      have hk := split_lt h2
      rw [root_split node empty h2] at h
      rw [path, dif_pos h2]
      split at h
      case isTrue hmk =>
        obtain ⟨left, hleft, hroot⟩ := Option.map_eq_some_iff.mp h
        obtain ⟨rfl, rfl⟩ := hnode hroot
        have hlen : (l.take (split l.length)).length = split l.length := by
          rw [List.length_take]
          omega
        obtain ⟨hget, hrest⟩ := ih (l := l.take (split l.length)) (m := m) (by omega)
          (by rw [hlen]; exact hleft)
        rw [if_pos hmk, List.reverse_append, hrest]
        rw [List.getElem?_take_of_lt hmk] at hget
        exact ⟨hget, rfl⟩
      case isFalse hmk =>
        obtain ⟨right, hright, hroot⟩ := Option.map_eq_some_iff.mp h
        obtain ⟨rfl, rfl⟩ := hnode hroot
        obtain ⟨hget, hrest⟩ := ih (l := l.drop (split l.length)) (m := m - split l.length)
          (by rw [List.length_drop]; omega) (by rw [List.length_drop]; exact hright)
        rw [if_neg hmk, List.reverse_append, hrest]
        rw [List.getElem?_drop, Nat.add_sub_cancel' (by omega)] at hget
        exact ⟨hget, rfl⟩

/-- Two trees' roots from one proof: the smaller tree is a front part of the larger one. -/
theorem roots_sound {a b : List H} {seed : Bool} {rootM : H} {rproof : List H}
    (hpos : 0 < a.length) (hle : a.length ≤ b.length)
    (h : roots node rootM a.length b.length seed rproof =
      some (root node empty a, root node empty b)) : a = b.take a.length := by
  induction rproof generalizing a b seed with
  | nil =>
    rw [roots] at h
    split at h
    case isFalse => cases h
    case isTrue heq =>
      cases seed with
      | false => cases h
      | true =>
        have hroot : root node empty a = root node empty b := by
          injection h with h
          injection h with hlo hhi
          rw [← hlo, hhi]
        rw [heq, List.take_length]
        exact root_inj node empty hnode heq hroot
  | cons sibling rest ih =>
    rw [roots] at h
    split at h
    case isTrue heq =>
      have hroot : root node empty a = root node empty b := by
        cases seed with
        | false =>
          injection h with h
          injection h with hlo hhi
          rw [← hlo, hhi]
        | true =>
          injection h with h
          injection h with hlo hhi
          rw [← hlo, hhi]
      rw [heq, List.take_length]
      exact root_inj node empty hnode heq hroot
    case isFalse hne =>
      have h2 : 2 ≤ b.length := by omega
      have hk := split_lt h2
      have hsplit := split_pos b.length
      rw [root_split node empty h2] at h
      split at h
      case isTrue hmk =>
        -- The smaller tree lies in the left half of the larger one.
        obtain ⟨⟨lo, hi⟩, hrec, hroots⟩ := Option.map_eq_some_iff.mp h
        obtain ⟨rfl, hnode_eq⟩ := Prod.mk.inj hroots
        obtain ⟨rfl, rfl⟩ := hnode hnode_eq
        have hlen : (b.take (split b.length)).length = split b.length := by
          rw [List.length_take]
          omega
        have hprefix := ih (a := a) (b := b.take (split b.length)) hpos (by omega)
          (by rw [hlen]; exact hrec)
        rwa [List.take_take, Nat.min_eq_left hmk] at hprefix
      case isFalse hmk =>
        -- Both trees split at the same point and share their left half.
        have ha2 : 2 ≤ a.length := by omega
        have hsame : split a.length = split b.length := split_eq_split h2 (by omega) hle
        rw [root_split node empty ha2, hsame] at h
        obtain ⟨⟨lo, hi⟩, hrec, hroots⟩ := Option.map_eq_some_iff.mp h
        obtain ⟨hlo, hhi⟩ := Prod.mk.inj hroots
        obtain ⟨hleftA, rfl⟩ := hnode hlo
        obtain ⟨hleftB, rfl⟩ := hnode hhi
        have hleft : a.take (split b.length) = b.take (split b.length) :=
          root_inj node empty hnode (by simp [List.length_take]; omega) (hleftA.symm.trans hleftB)
        have hright := ih (a := a.drop (split b.length)) (b := b.drop (split b.length))
          (by rw [List.length_drop]; omega) (by rw [List.length_drop, List.length_drop]; omega)
          (by rw [List.length_drop, List.length_drop]; exact hrec)
        have hlen : split b.length + (a.drop (split b.length)).length = a.length := by
          rw [List.length_drop]
          omega
        calc a = a.take (split b.length) ++ a.drop (split b.length) :=
              (List.take_append_drop _ _).symm
          _ = b.take (split b.length) ++
              (b.drop (split b.length)).take (a.drop (split b.length)).length := by
            rw [hleft, ← hright]
          _ = b.take a.length := by rw [← List.take_add, hlen]

end Soundness

end Noeta.Lib.Merkle
