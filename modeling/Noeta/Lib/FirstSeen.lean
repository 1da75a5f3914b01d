import Mathlib.Data.List.Nodup

/-!
# Keeping the first of each

A list collected without repetitions, each element at the place where it was first seen. Collecting
commutes with expanding the elements and with collecting a part first.
-/

namespace Noeta.Lib.FirstSeen

variable {α β : Type} [DecidableEq α] [DecidableEq β]

def insertNew (seen : List α) (x : α) : List α :=
  if seen.contains x then seen else seen ++ [x]

/-- Collect `l` behind what was seen. -/
def collect (seen l : List α) : List α :=
  l.foldl insertNew seen

@[simp] theorem collect_nil (seen : List α) : collect seen [] = seen := rfl

@[simp] theorem collect_cons (seen : List α) (x : α) (l : List α) :
    collect seen (x :: l) = collect (insertNew seen x) l := rfl

theorem collect_append (seen l r : List α) : collect seen (l ++ r) = collect (collect seen l) r :=
  List.foldl_append

variable {seen l : List α}

theorem insertNew_of_mem {x : α} (h : x ∈ seen) : insertNew seen x = seen :=
  if_pos (by simpa using h)

theorem insertNew_of_not_mem {x : α} (h : x ∉ seen) : insertNew seen x = seen ++ [x] :=
  if_neg (by simpa using h)

@[simp] theorem mem_insertNew {x y : α} : y ∈ insertNew seen x ↔ y ∈ seen ∨ y = x := by
  by_cases h : x ∈ seen
  · rw [insertNew_of_mem h]
    constructor
    · exact .inl
    · rintro (hy | rfl)
      · exact hy
      · exact h
  · simp [insertNew_of_not_mem h]

@[simp] theorem mem_collect {y : α} : y ∈ collect seen l ↔ y ∈ seen ∨ y ∈ l := by
  induction l generalizing seen with
  | nil => simp
  | cons x l ih => simp [ih, or_assoc]

theorem collect_of_subset (h : ∀ x ∈ l, x ∈ seen) : collect seen l = seen := by
  induction l with
  | nil => rfl
  | cons x l ih =>
    rw [collect_cons, insertNew_of_mem (h x (by simp))]
    exact ih fun y hy => h y (by simp [hy])

theorem collect_eq_append (hl : l.Nodup) (h : ∀ x ∈ l, x ∉ seen) : collect seen l = seen ++ l := by
  induction l generalizing seen with
  | nil => simp
  | cons x l ih =>
    rw [List.nodup_cons] at hl
    rw [collect_cons, insertNew_of_not_mem (h x (by simp)), ih hl.2]
    · simp
    · intro y hy
      rw [List.mem_append, List.mem_singleton]
      rintro (hseen | rfl)
      · exact h y (by simp [hy]) hseen
      · exact hl.1 hy

theorem collect_of_nodup (hl : l.Nodup) : collect [] l = l := by
  rw [collect_eq_append hl (by simp), List.nil_append]

theorem nodup_collect (h : seen.Nodup) : (collect seen l).Nodup := by
  induction l generalizing seen with
  | nil => exact h
  | cons x l ih =>
    apply ih
    by_cases hx : x ∈ seen
    · rw [insertNew_of_mem hx]
      exact h
    · rw [insertNew_of_not_mem hx, List.nodup_append]
      refine ⟨h, List.nodup_singleton x, ?_⟩
      intro a ha b hb
      rw [List.mem_singleton] at hb
      rintro rfl
      exact hx (hb ▸ ha)

theorem collect_collect (seen acc l : List α) :
    collect seen (collect acc l) = collect (collect seen acc) l := by
  induction l generalizing acc with
  | nil => rfl
  | cons x l ih =>
    rw [collect_cons, collect_cons, ih]
    congr 1
    by_cases hx : x ∈ acc
    · rw [insertNew_of_mem hx, insertNew_of_mem (mem_collect.2 (.inr hx))]
    · rw [insertNew_of_not_mem hx, collect_append]
      rfl

theorem collect_flatMap_collect (f : α → List β) (seen l : List α) :
    collect [] ((collect seen l).flatMap f) = collect [] ((seen ++ l).flatMap f) := by
  induction l generalizing seen with
  | nil => simp
  | cons x l ih =>
    rw [collect_cons, ih]
    by_cases hx : x ∈ seen
    · have hin : ∀ y ∈ f x, y ∈ collect [] (seen.flatMap f) := fun y hy =>
        mem_collect.2 (.inr (List.mem_flatMap.2 ⟨x, hx, hy⟩))
      rw [insertNew_of_mem hx, List.flatMap_append, List.flatMap_append, List.flatMap_cons,
        collect_append, collect_append, collect_append, collect_of_subset hin]
    · rw [insertNew_of_not_mem hx, List.append_assoc, List.singleton_append]

omit [DecidableEq α] in
theorem collect_flatMap_congr {f g : α → List β} {seen : List β} {l : List α}
    (h : ∀ x ∈ l, ∀ seen, collect seen (f x) = collect seen (g x)) :
    collect seen (l.flatMap f) = collect seen (l.flatMap g) := by
  induction l generalizing seen with
  | nil => rfl
  | cons x l ih =>
    rw [List.flatMap_cons, List.flatMap_cons, collect_append, collect_append, h x (by simp)]
    exact ih fun y hy => h y (by simp [hy])

end Noeta.Lib.FirstSeen
