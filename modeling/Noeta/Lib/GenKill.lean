import Mathlib

/-!
# Gen/kill transfer functions

The transfer functions of a bit-vector dataflow analysis: each element of the result is either generated,
or let through from the argument. They are closed under what a structured analysis does with them, and an
iteration of one of them is stable after its first round.
-/

namespace Dataflow

variable {α : Type*} [DecidableEq α]

/-- `F` generates the elements of `gen` and lets through those of `keep`. -/
def GenKill (F : Finset α → Finset α) : Prop :=
  ∃ gen keep : Set α, ∀ s x, x ∈ F s ↔ x ∈ gen ∨ x ∈ s ∧ x ∈ keep

namespace GenKill

variable {F G : Finset α → Finset α}

omit [DecidableEq α] in
theorem id : GenKill (fun s : Finset α => s) := ⟨∅, Set.univ, by simp⟩

omit [DecidableEq α] in
theorem const (c : Finset α) : GenKill (fun _ : Finset α => c) := ⟨c, ∅, by simp⟩

omit [DecidableEq α] in
theorem comp (hF : GenKill F) (hG : GenKill G) : GenKill (fun s => F (G s)) := by
  obtain ⟨gF, kF, hF⟩ := hF
  obtain ⟨gG, kG, hG⟩ := hG
  refine ⟨gF ∪ gG ∩ kF, kF ∩ kG, fun s x => ?_⟩
  rw [hF, hG]
  simp only [Set.mem_union, Set.mem_inter_iff]
  tauto

theorem union (hF : GenKill F) (hG : GenKill G) : GenKill (fun s => F s ∪ G s) := by
  obtain ⟨gF, kF, hF⟩ := hF
  obtain ⟨gG, kG, hG⟩ := hG
  refine ⟨gF ∪ gG, kF ∪ kG, fun s x => ?_⟩
  rw [Finset.mem_union, hF, hG]
  simp only [Set.mem_union]
  tauto

theorem sdiff (hF : GenKill F) (c : Finset α) : GenKill (fun s => F s \ c) := by
  obtain ⟨gF, kF, hF⟩ := hF
  refine ⟨gF \ c, kF \ c, fun s x => ?_⟩
  rw [Finset.mem_sdiff, hF]
  simp only [Set.mem_sdiff, Finset.mem_coe]
  tauto

theorem erase (hF : GenKill F) (a : α) : GenKill (fun s => (F s).erase a) := by
  have h := hF.sdiff {a}
  simpa only [Finset.sdiff_singleton_eq_erase] using h

omit [DecidableEq α] in
theorem idempotent (hF : GenKill F) (s : Finset α) : F (F s) = F s := by
  obtain ⟨gen, keep, h⟩ := hF
  ext x
  rw [h (F s), h s]
  tauto

theorem union_self (hF : GenKill F) (s : Finset α) : F s ∪ s = F ∅ ∪ s := by
  obtain ⟨gen, keep, h⟩ := hF
  ext x
  rw [Finset.mem_union, Finset.mem_union, h s, h ∅]
  simp only [Finset.notMem_empty, false_and, or_false]
  tauto

end GenKill

/-- Apply `f` until its argument does not change, at most `fuel` times. -/
def untilStable (f : Finset α → Finset α) : Nat → Finset α → Finset α
  | 0, s => s
  | fuel + 1, s => if f s = s then s else untilStable f fuel (f s)

theorem untilStable_eq {f : Finset α → Finset α} (hf : GenKill f) (fuel : Nat) (s : Finset α) :
    untilStable f (fuel + 1) s = f s := by
  rw [untilStable]
  by_cases h : f s = s
  · rw [if_pos h, h]
  · rw [if_neg h]
    cases fuel with
    | zero => rfl
    | succ fuel => rw [untilStable, if_pos (hf.idempotent s)]

theorem untilStable_stable {f : Finset α → Finset α} (hf : GenKill f) (fuel : Nat) (s : Finset α) :
    f (untilStable f (fuel + 1) s) = untilStable f (fuel + 1) s := by
  rw [untilStable_eq hf]
  exact hf.idempotent s

end Dataflow
