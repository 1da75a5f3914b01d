import Mathlib.Data.List.Sort
import Noeta.Lib.Overwrite

/-!
# Tables kept in key order

Rows are collected into a map that is ordered by key: a later row replaces an earlier one at its key, and what is read
back is one row for each key, in increasing order of the keys.
-/

namespace Noeta.Lib

variable {κ β : Type*} [LinearOrder κ]

/-- The rows a map ordered by key holds once all rows are written. -/
def collect (rows : List (κ × β)) : List (κ × β) :=
  ((rows.map Prod.fst).dedup.insertionSort (· ≤ ·)).filterMap fun k =>
    (lastAt k rows).map fun v => (k, v)

/-- Every key is above the keys before it. -/
def Increasing (rows : List (κ × β)) : Prop :=
  rows.Pairwise fun a b => a.1 < b.1

variable {rows : List (κ × β)}

theorem increasing_iff : Increasing rows ↔ (rows.map Prod.fst).Pairwise (· < ·) :=
  List.pairwise_map.symm

theorem Increasing.nodup (h : Increasing rows) : (rows.map Prod.fst).Nodup :=
  (increasing_iff.1 h).imp ne_of_lt

@[simp] theorem mem_collect {k : κ} {v : β} : (k, v) ∈ collect rows ↔ lastAt k rows = some v := by
  simp only [collect, List.mem_filterMap, List.mem_insertionSort, List.mem_dedup,
    Option.map_eq_some_iff, Prod.mk.injEq]
  constructor
  · rintro ⟨_, -, _, h, rfl, rfl⟩
    exact h
  · intro h
    exact ⟨k, List.mem_map.2 ⟨(k, v), lastAt_mem h, rfl⟩, v, h, rfl, rfl⟩

theorem mem_of_mem_collect {row : κ × β} (h : row ∈ collect rows) : row ∈ rows :=
  lastAt_mem (mem_collect.1 h)

theorem increasing_collect (rows : List (κ × β)) : Increasing (collect rows) := by
  have hle : ((rows.map Prod.fst).dedup.insertionSort (· ≤ ·)).Pairwise (· ≤ ·) :=
    List.pairwise_insertionSort _ _
  have hne : ((rows.map Prod.fst).dedup.insertionSort (· ≤ ·)).Nodup :=
    (List.perm_insertionSort _ _).nodup_iff.2 (List.nodup_dedup _)
  have hlt : ((rows.map Prod.fst).dedup.insertionSort (· ≤ ·)).Pairwise (· < ·) :=
    (hle.and hne).imp fun h => lt_of_le_of_ne h.1 h.2
  rw [Increasing, collect, List.pairwise_filterMap]
  apply hlt.imp
  intro a b hab row hrow row' hrow'
  obtain ⟨v, -, rfl⟩ := Option.map_eq_some_iff.1 hrow
  obtain ⟨w, -, rfl⟩ := Option.map_eq_some_iff.1 hrow'
  exact hab

theorem Increasing.ext {l r : List (κ × β)} (hl : Increasing l) (hr : Increasing r)
    (h : ∀ row, row ∈ l ↔ row ∈ r) : l = r := by
  have : Std.Irrefl fun a b : κ × β => a.1 < b.1 := ⟨fun a => lt_irrefl a.1⟩
  have : Std.Antisymm fun a b : κ × β => a.1 < b.1 :=
    ⟨fun a b hab hba => absurd hba (lt_asymm hab)⟩
  exact List.Pairwise.eq_of_mem_iff hl hr h

theorem collect_of_increasing (h : Increasing rows) : collect rows = rows := by
  apply (increasing_collect rows).ext h
  rintro ⟨k, v⟩
  rw [mem_collect]
  exact ⟨lastAt_mem, lastAt_of_nodup h.nodup⟩

theorem collect_map {γ : Type*} (g : β → γ) (rows : List (κ × β)) :
    collect (rows.map fun row => (row.1, g row.2)) =
      (collect rows).map fun row => (row.1, g row.2) := by
  apply (increasing_collect _).ext
  · exact List.pairwise_map.2 (increasing_collect rows)
  · rintro ⟨k, w⟩
    rw [mem_collect, lastAt_map, Option.map_eq_some_iff]
    constructor
    · rintro ⟨v, hv, rfl⟩
      exact List.mem_map.2 ⟨(k, v), mem_collect.2 hv, rfl⟩
    · intro h
      obtain ⟨⟨k', v⟩, hv, heq⟩ := List.mem_map.1 h
      obtain ⟨rfl, rfl⟩ := Prod.mk.inj heq
      exact ⟨v, mem_collect.1 hv, rfl⟩

theorem perm_collect (h : (rows.map Prod.fst).Nodup) : (collect rows).Perm rows := by
  apply (List.perm_ext_iff_of_nodup (increasing_collect rows).nodup.of_map h.of_map).2
  rintro ⟨k, v⟩
  rw [mem_collect]
  exact ⟨lastAt_mem, lastAt_of_nodup h⟩

end Noeta.Lib
