import Mathlib.Data.List.Nodup

/-!
# Interning

A table keeps one entry for each key, in the order they came, and never drops one: the position of an entry is its handle.
A request whose key has an entry gets that entry's handle, whatever else it holds.
-/

namespace Noeta.Lib.Interner

variable {α κ : Type*} [DecidableEq κ]

/-- The entries of a table. No two share a key. -/
structure Table (key : α → κ) where
  entries : List α
  nodup : (entries.map key).Nodup

def Table.empty (key : α → κ) : Table key where
  entries := []
  nodup := List.nodup_nil

variable {key : α → κ}

/-- The handle of the entry with a key. -/
def Table.find (t : Table key) (k : κ) : Option Nat := t.entries.findIdx? fun b => key b = k

def Table.get (t : Table key) (handle : Nat) : Option α := t.entries[handle]?

theorem Table.not_mem_of_find {t : Table key} {k : κ} (h : t.find k = none) : k ∉ t.entries.map key := by
  intro hmem
  obtain ⟨b, hb, rfl⟩ := List.mem_map.mp hmem
  rw [Table.find, List.findIdx?_eq_none_iff] at h
  exact absurd (decide_eq_true_iff.mpr rfl) (Bool.eq_false_iff.mp (h b hb))

/-- The table with an entry for a key it did not hold. -/
def Table.push (t : Table key) (a : α) (h : t.find (key a) = none) : Table key where
  entries := t.entries ++ [a]
  nodup := by
    rw [List.map_append, List.map_singleton, ← List.concat_eq_append]
    exact t.nodup.concat (Table.not_mem_of_find h)

/-- One request: the handle of the entry with its key, which it becomes itself if there is none. -/
def Table.intern (t : Table key) (a : α) : Table key × Nat :=
  match h : t.find (key a) with
  | some handle => (t, handle)
  | none => (t.push a h, t.entries.length)

/-- Requests one after the other, each with the handle it got. -/
def Table.internAll (t : Table key) : List α → Table key × List (α × Nat)
  | [] => (t, [])
  | a :: requests =>
    let (t, handle) := t.intern a
    let (t, served) := t.internAll requests
    (t, (a, handle) :: served)

/-! ## One request -/

/-- The entry at a handle has the key of the request. -/
def Table.Serves (t : Table key) (a : α) (handle : Nat) : Prop := ∃ b, t.get handle = some b ∧ key b = key a

theorem Table.get_of_find {t : Table key} {k : κ} {handle : Nat} (h : t.find k = some handle) :
    ∃ b, t.get handle = some b ∧ key b = k := by
  rw [Table.find, List.findIdx?_eq_some_iff_getElem] at h
  obtain ⟨hlt, hkey, -⟩ := h
  exact ⟨t.entries[handle], List.getElem?_eq_getElem hlt, decide_eq_true_iff.mp hkey⟩

theorem Table.intern_cases (t : Table key) (a : α) :
    (∃ handle, t.find (key a) = some handle ∧ t.intern a = (t, handle)) ∨
      ∃ h : t.find (key a) = none, t.intern a = (t.push a h, t.entries.length) := by
  unfold Table.intern
  split
  · exact .inl ⟨_, ‹_›, rfl⟩
  · exact .inr ⟨‹_›, rfl⟩

theorem Table.prefix_intern (t : Table key) (a : α) : t.entries <+: (t.intern a).1.entries := by
  obtain ⟨handle, -, heq⟩ | ⟨h, heq⟩ := t.intern_cases a
  · have hsame : (t.intern a).1.entries = t.entries := by rw [heq]
    exact hsame ▸ List.prefix_refl _
  · rw [heq]
    exact List.prefix_append _ _

theorem Table.mem_intern {t : Table key} {a b : α} (h : b ∈ (t.intern a).1.entries) : b ∈ t.entries ∨ b = a := by
  obtain ⟨handle, -, heq⟩ | ⟨hnone, heq⟩ := t.intern_cases a
  · rw [heq] at h
    exact .inl h
  · rw [heq] at h
    exact (List.mem_append.mp h).imp_right List.mem_singleton.mp

theorem Table.serves_intern (t : Table key) (a : α) : (t.intern a).1.Serves a (t.intern a).2 := by
  obtain ⟨handle, hfind, heq⟩ | ⟨h, heq⟩ := t.intern_cases a
  · rw [heq]
    exact Table.get_of_find hfind
  · rw [heq]
    refine ⟨a, ?_, rfl⟩
    exact List.getElem?_concat_length

omit [DecidableEq κ] in
theorem Table.Serves.mono {t u : Table key} {a : α} {handle : Nat} (h : t.Serves a handle)
    (hgrows : t.entries <+: u.entries) : u.Serves a handle := by
  obtain ⟨b, hget, hkey⟩ := h
  obtain ⟨hlt, rfl⟩ := List.getElem?_eq_some_iff.mp hget
  obtain ⟨more, hmore⟩ := hgrows
  refine ⟨_, ?_, hkey⟩
  rw [Table.get, ← hmore, List.getElem?_append_left hlt, List.getElem?_eq_getElem hlt]

omit [DecidableEq κ] in
theorem Table.Serves.handle_eq_iff {t : Table key} {a b : α} {i j : Nat} (ha : t.Serves a i) (hb : t.Serves b j) :
    i = j ↔ key a = key b := by
  obtain ⟨x, hx, hxa⟩ := ha
  obtain ⟨y, hy, hyb⟩ := hb
  constructor
  · rintro rfl
    rw [hx] at hy
    cases hy
    exact hxa.symm.trans hyb
  · intro hkey
    have hi : i < (t.entries.map key).length := by
      rw [List.length_map]
      exact (List.getElem?_eq_some_iff.mp hx).1
    have hsame : (t.entries.map key)[i]? = (t.entries.map key)[j]? := by
      change t.entries[i]? = some x at hx
      change t.entries[j]? = some y at hy
      rw [List.getElem?_map, List.getElem?_map, hx, hy, Option.map_some, Option.map_some, hxa, hyb, hkey]
    exact (List.getElem?_inj hi t.nodup).mp hsame

/-! ## A run -/

theorem Table.prefix_internAll (t : Table key) (requests : List α) :
    t.entries <+: (t.internAll requests).1.entries := by
  induction requests generalizing t with
  | nil => exact List.prefix_refl _
  | cons a requests ih => exact (t.prefix_intern a).trans (ih _)

theorem Table.serves_internAll (t : Table key) (requests : List α) :
    ∀ served ∈ (t.internAll requests).2, (t.internAll requests).1.Serves served.1 served.2 := by
  induction requests generalizing t with
  | nil =>
    intro served h
    exact absurd h List.not_mem_nil
  | cons a requests ih =>
    intro served h
    obtain rfl | h := List.mem_cons.mp h
    · exact (t.serves_intern a).mono (Table.prefix_internAll _ _)
    · exact ih _ served h

theorem Table.mem_internAll {t : Table key} {requests : List α} {b : α}
    (h : b ∈ (t.internAll requests).1.entries) : b ∈ t.entries ∨ b ∈ requests := by
  induction requests generalizing t with
  | nil => exact .inl h
  | cons a requests ih =>
    obtain h | h := ih h
    · obtain h | rfl := Table.mem_intern h
      · exact .inl h
      · exact .inr List.mem_cons_self
    · exact .inr (List.mem_cons_of_mem _ h)

theorem Table.map_fst_internAll (t : Table key) (requests : List α) :
    (t.internAll requests).2.map Prod.fst = requests := by
  induction requests generalizing t with
  | nil => rfl
  | cons a requests ih =>
    rw [Table.internAll, List.map_cons, ih]

/-! ## Faithful runs -/

/-- Every request gets back what it asked for, and requests share a handle exactly if they ask for the same. -/
structure Faithful (run : Table key × List (α × Nat)) : Prop where
  returned : ∀ a handle, (a, handle) ∈ run.2 → run.1.get handle = some a
  shared : ∀ a i b j, (a, i) ∈ run.2 → (b, j) ∈ run.2 → (i = j ↔ a = b)

theorem faithful_iff (requests : List α) :
    Faithful ((Table.empty key).internAll requests) ↔
      ∀ a ∈ requests, ∀ b ∈ requests, key a = key b → a = b := by
  have hserves := (Table.empty key).serves_internAll requests
  have hfst := (Table.empty key).map_fst_internAll requests
  constructor
  · intro h a ha b hb hkey
    rw [← hfst] at ha hb
    obtain ⟨⟨a, i⟩, hservedA, rfl⟩ := List.mem_map.mp ha
    obtain ⟨⟨b, j⟩, hservedB, rfl⟩ := List.mem_map.mp hb
    apply (h.shared a i b j hservedA hservedB).mp
    exact ((hserves _ hservedA).handle_eq_iff (hserves _ hservedB)).mpr hkey
  · intro h
    have hmem : ∀ a handle, (a, handle) ∈ ((Table.empty key).internAll requests).2 → a ∈ requests := by
      intro a handle ha
      rw [← hfst]
      exact List.mem_map.mpr ⟨_, ha, rfl⟩
    constructor
    · intro a handle ha
      obtain ⟨b, hget, hkey⟩ := hserves _ ha
      have hb : b ∈ requests :=
        (Table.mem_internAll (List.mem_of_getElem? hget)).resolve_left List.not_mem_nil
      rw [hget, h b hb a (hmem a handle ha) hkey]
    · intro a i b j ha hb
      rw [(hserves _ ha).handle_eq_iff (hserves _ hb)]
      constructor
      · exact h a (hmem a i ha) b (hmem b j hb)
      · rintro rfl
        rfl

end Noeta.Lib.Interner
