import Mathlib.Data.List.Dedup
import Mathlib.Logic.Function.Basic

/-!
# Tables that only overwrite

Rows are written into a table one after another and a later row replaces an earlier one at its key.
What the table then holds at a key is the last row at that key, else what it held before.
-/

namespace Noeta.Lib

variable {κ β : Type*} [DecidableEq κ]

/-- Write the rows in order. -/
def insertAll (rows : List (κ × β)) (table : κ → Option β) : κ → Option β :=
  rows.foldl (fun t row => Function.update t row.1 (some row.2)) table

/-- The value of the last row at a key. -/
def lastAt (k : κ) : List (κ × β) → Option β
  | [] => none
  | row :: rows => (lastAt k rows).or (if row.1 = k then some row.2 else none)

@[simp] theorem lastAt_nil (k : κ) : lastAt k ([] : List (κ × β)) = none := rfl

theorem lastAt_append (k : κ) (l r : List (κ × β)) :
    lastAt k (l ++ r) = (lastAt k r).or (lastAt k l) := by
  induction l with
  | nil => simp
  | cons row l ih => simp [lastAt, ih, Option.or_assoc]

theorem insertAll_apply (rows : List (κ × β)) (table : κ → Option β) (k : κ) :
    insertAll rows table k = (lastAt k rows).or (table k) := by
  induction rows generalizing table with
  | nil => simp [insertAll]
  | cons row rows ih =>
    have hstep : insertAll (row :: rows) table =
        insertAll rows (Function.update table row.1 (some row.2)) := rfl
    rw [hstep, ih, lastAt, Option.or_assoc]
    by_cases h : row.1 = k
    · subst h
      simp
    · simp [h, Function.update_of_ne (Ne.symm h)]

variable {k : κ} {v : β} {rows : List (κ × β)}

theorem lastAt_mem (h : lastAt k rows = some v) : (k, v) ∈ rows := by
  induction rows with
  | nil => simp at h
  | cons row rows ih =>
    rw [lastAt, Option.or_eq_some_iff] at h
    rcases h with h | ⟨-, h⟩
    · exact List.mem_cons_of_mem _ (ih h)
    · by_cases hk : row.1 = k
      · simp only [if_pos hk, Option.some.injEq] at h
        subst hk h
        simp
      · simp [hk] at h

theorem lastAt_eq_none (h : ∀ row ∈ rows, row.1 ≠ k) : lastAt k rows = none := by
  cases hl : lastAt k rows with
  | none => rfl
  | some v => exact absurd rfl (h _ (lastAt_mem hl))

theorem lastAt_isSome (h : (k, v) ∈ rows) : (lastAt k rows).isSome := by
  induction rows with
  | nil => simp at h
  | cons row rows ih =>
    rw [lastAt, Option.isSome_or]
    rcases List.mem_cons.1 h with h | h
    · subst h
      simp
    · simp [ih h]

theorem lastAt_filter (p : κ → Bool) (k : κ) (rows : List (κ × β)) :
    lastAt k (rows.filter fun row => p row.1) = if p k then lastAt k rows else none := by
  induction rows with
  | nil => simp
  | cons row rows ih =>
    by_cases hk : row.1 = k
    · subst hk
      cases hp : p row.1 with
      | true => simp [List.filter_cons_of_pos, hp, lastAt, ih]
      | false => simp [List.filter_cons_of_neg, hp, ih]
    · cases hp : p row.1 with
      | true => simp [List.filter_cons_of_pos, hp, lastAt, ih, hk]
      | false => simp [List.filter_cons_of_neg, hp, lastAt, ih, hk]

theorem lastAt_map {γ : Type*} (g : β → γ) (k : κ) (rows : List (κ × β)) :
    lastAt k (rows.map fun row => (row.1, g row.2)) = (lastAt k rows).map g := by
  induction rows with
  | nil => rfl
  | cons row rows ih =>
    by_cases hk : row.1 = k
    · cases hl : lastAt k rows <;> simp [lastAt, ih, hk, hl]
    · cases hl : lastAt k rows <;> simp [lastAt, ih, hk, hl]

theorem lastAt_of_nodup (hn : (rows.map Prod.fst).Nodup)
    (h : (k, v) ∈ rows) : lastAt k rows = some v := by
  induction rows with
  | nil => simp at h
  | cons row rows ih =>
    rw [List.map_cons, List.nodup_cons] at hn
    rcases List.mem_cons.1 h with h | h
    · subst h
      have hnone : lastAt k rows = none :=
        lastAt_eq_none fun r hr hk => hn.1 (List.mem_map.2 ⟨r, hr, hk⟩)
      simp [lastAt, hnone]
    · simp [lastAt, ih hn.2 h]

theorem lastAt_of_agree (h : (k, v) ∈ rows)
    (hagree : ∀ w, (k, w) ∈ rows → w = v) : lastAt k rows = some v := by
  obtain ⟨w, hw⟩ := Option.isSome_iff_exists.mp (lastAt_isSome h)
  rw [hw, hagree w (lastAt_mem hw)]

theorem foldl_overwrite {σ α : Type*} (step : σ → α → σ) (get : σ → κ → Option β)
    (rows : α → List (κ × β)) (xs : List α)
    (hstep : ∀ x ∈ xs, ∀ s k, get (step s x) k = (lastAt k (rows x)).or (get s k)) (s : σ)
    (k : κ) : get (xs.foldl step s) k = (lastAt k (xs.flatMap rows)).or (get s k) := by
  induction xs generalizing s with
  | nil => simp
  | cons x xs ih =>
    rw [List.foldl_cons, ih (fun y hy => hstep y (List.mem_cons_of_mem x hy)),
      hstep x List.mem_cons_self, List.flatMap_cons, lastAt_append, Option.or_assoc]

/-- The table the rows leave, key by key. -/
def entries (rows : List (κ × β)) : List (κ × β) :=
  (rows.map Prod.fst).dedup.filterMap fun k => (lastAt k rows).map fun v => (k, v)

@[simp] theorem mem_entries : (k, v) ∈ entries rows ↔ lastAt k rows = some v := by
  simp only [entries, List.mem_filterMap, List.mem_dedup, Option.map_eq_some_iff, Prod.mk.injEq]
  constructor
  · rintro ⟨_, -, _, h, rfl, rfl⟩
    exact h
  · intro h
    exact ⟨k, List.mem_map.2 ⟨(k, v), lastAt_mem h, rfl⟩, v, h, rfl, rfl⟩

end Noeta.Lib
