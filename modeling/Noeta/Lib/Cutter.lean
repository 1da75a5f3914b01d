import Mathlib.Data.List.Basic

/-!
# Cutting an input that arrives in pieces

A cutter takes one token off the front of an input, or waits. When what it takes does not depend on
what comes after, cutting an input piece by piece, with the part it still waits on kept in front of
the next piece, cuts the same tokens as cutting the input at once.
-/

namespace Noeta.Lib

variable {α β : Type}

/-- One token at a time off the front of an input, `none` while there is not enough of it. -/
structure Cutter (α β : Type) where
  next : List α → Option (β × List α)
  /-- A token consumes something. -/
  shrinks : ∀ {a x r}, next a = some (x, r) → r.length < a.length
  /-- A token, once there, does not depend on what comes after. -/
  stable : ∀ {a x r} (b : List α), next a = some (x, r) → next (a ++ b) = some (x, r ++ b)

namespace Cutter

/-- Cut as far as the input goes: the tokens and what is left. -/
def run (c : Cutter α β) (a : List α) : List β × List α :=
  match _hcut : c.next a with
  | none => ([], a)
  | some (x, r) => (x :: (run c r).1, (run c r).2)
termination_by a.length
decreasing_by all_goals exact c.shrinks _hcut

theorem run_none (c : Cutter α β) {a : List α} (h : c.next a = none) : c.run a = ([], a) := by
  rw [run]
  split
  · rfl
  · rename_i hs
    rw [h] at hs
    simp at hs

theorem run_some (c : Cutter α β) {a r : List α} {x : β} (h : c.next a = some (x, r)) :
    c.run a = (x :: (c.run r).1, (c.run r).2) := by
  rw [run]
  split
  · rename_i hs
    rw [h] at hs
    simp at hs
  · rename_i y r' hs
    rw [h] at hs
    simp only [Option.some.injEq, Prod.mk.injEq] at hs
    obtain ⟨rfl, rfl⟩ := hs
    rfl

theorem run_induction (c : Cutter α β) {motive : List α → Prop}
    (wait : ∀ a, c.next a = none → motive a)
    (cut : ∀ a x r, c.next a = some (x, r) → motive r → motive a) (a : List α) : motive a := by
  induction h : a.length using Nat.strongRecOn generalizing a with
  | _ n ih =>
    cases hn : c.next a with
    | none => exact wait a hn
    | some p =>
      obtain ⟨x, r⟩ := p
      exact cut a x r hn (ih r.length (h ▸ c.shrinks hn) r rfl)

theorem run_append (c : Cutter α β) (a b : List α) :
    c.run (a ++ b) = ((c.run a).1 ++ (c.run ((c.run a).2 ++ b)).1, (c.run ((c.run a).2 ++ b)).2) := by
  induction a using c.run_induction with
  | wait a h => rw [c.run_none h, List.nil_append]
  | cut a x r h ih => rw [c.run_some h, c.run_some (c.stable b h), ih, List.cons_append]

end Cutter

end Noeta.Lib
