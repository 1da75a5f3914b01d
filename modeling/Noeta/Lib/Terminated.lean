import Mathlib.Data.List.Basic

/-!
# Terminated fields

Fields written one after another, each with a terminator at its end and nothing escaped: what such a
text says of the number and the content of its fields.
-/

namespace Noeta.Lib

variable {α : Type} [DecidableEq α] (sep : α)

def terminated (fields : List (List α)) : List α := fields.flatMap (· ++ [sep])

/-- The lines of some fields, where a field with terminators in it has several. -/
def fieldLines (fields : List (List α)) : List (List α) := fields.flatMap (List.splitOn sep)

variable {sep}

omit [DecidableEq α] in
theorem terminated_append (fs gs : List (List α)) :
    terminated sep (fs ++ gs) = terminated sep fs ++ terminated sep gs := List.flatMap_append

theorem fieldLines_append (fs gs : List (List α)) :
    fieldLines sep (fs ++ gs) = fieldLines sep fs ++ fieldLines sep gs := List.flatMap_append

omit [DecidableEq α] in
theorem not_mem_of_mem_splitOnP {p : α → Bool} {t word : List α} (h : word ∈ t.splitOnP p) :
    ∀ x ∈ word, p x = false := by
  induction t generalizing word with
  | nil =>
    rw [List.splitOnP_nil, List.mem_singleton] at h
    simp [h]
  | cons c t ih =>
    rw [List.splitOnP_cons_eq_if_modifyHead] at h
    split at h
    · rw [List.mem_cons] at h
      obtain rfl | h := h
      · simp
      · exact ih h
    · rename_i hc
      cases hsplit : t.splitOnP p with
      | nil => exact absurd hsplit (List.splitOnP_ne_nil _ _)
      | cons first rest =>
        rw [hsplit, List.modifyHead_cons, List.mem_cons] at h
        rw [hsplit] at ih
        obtain rfl | h := h
        · intro x hx
          rw [List.mem_cons] at hx
          obtain rfl | hx := hx
          · exact Bool.eq_false_iff.2 hc
          · exact ih List.mem_cons_self x hx
        · exact ih (List.mem_cons_of_mem _ h)

theorem not_mem_of_mem_splitOn {t line : List α} (h : line ∈ t.splitOn sep) : sep ∉ line := by
  rw [List.splitOn_eq_splitOnP] at h
  exact fun hmem => ne_of_beq_false (not_mem_of_mem_splitOnP h sep hmem) rfl

theorem not_mem_of_mem_fieldLines {fs : List (List α)} {line : List α}
    (h : line ∈ fieldLines sep fs) : sep ∉ line := by
  obtain ⟨f, _, hline⟩ := List.mem_flatMap.mp h
  exact not_mem_of_mem_splitOn hline

omit [DecidableEq α] in
theorem terminated_eq_intercalate {fs : List (List α)} (h : fs ≠ []) :
    terminated sep fs = [sep].intercalate fs ++ [sep] := by
  induction fs with
  | nil => exact absurd rfl h
  | cons f rest ih =>
    cases rest with
    | nil => simp [terminated]
    | cons next rest =>
      rw [terminated, List.flatMap_cons, ← terminated, ih (List.cons_ne_nil _ _),
        List.intercalate_cons_cons]
      simp

theorem terminated_splitOn (t : List α) : terminated sep (t.splitOn sep) = t ++ [sep] := by
  rw [terminated_eq_intercalate (List.splitOn_ne_nil _ _), List.intercalate_splitOn]

theorem terminated_fieldLines (fs : List (List α)) :
    terminated sep (fieldLines sep fs) = terminated sep fs := by
  induction fs with
  | nil => rfl
  | cons f fs ih =>
    rw [fieldLines, List.flatMap_cons, ← fieldLines, terminated_append, ih, terminated_splitOn]
    rfl

theorem splitOn_terminated {lines : List (List α)} (h : ∀ line ∈ lines, sep ∉ line) :
    (terminated sep lines).splitOn sep = lines ++ [[]] := by
  induction lines with
  | nil => rfl
  | cons line rest ih =>
    rw [terminated, List.flatMap_cons, ← terminated, List.append_assoc, List.singleton_append,
      List.splitOn_append_cons_self_of_not_mem (h line List.mem_cons_self),
      ih fun line hline => h line (List.mem_cons_of_mem _ hline)]
    rfl

theorem terminated_eq_iff {fs gs : List (List α)} :
    terminated sep fs = terminated sep gs ↔ fieldLines sep fs = fieldLines sep gs := by
  constructor
  · intro h
    have hsplit := congrArg (List.splitOn sep) h
    rw [← terminated_fieldLines fs, ← terminated_fieldLines gs,
      splitOn_terminated fun line hline => not_mem_of_mem_fieldLines hline,
      splitOn_terminated fun line hline => not_mem_of_mem_fieldLines hline] at hsplit
    exact List.append_cancel_right hsplit
  · intro h
    rw [← terminated_fieldLines fs, h, terminated_fieldLines]

theorem length_splitOn_pos (t : List α) : 0 < (t.splitOn sep).length :=
  List.length_pos_iff.mpr (List.splitOn_ne_nil _ _)

theorem length_splitOn_eq_one_iff {t : List α} : (t.splitOn sep).length = 1 ↔ sep ∉ t := by
  constructor
  · intro h
    obtain ⟨line, hline⟩ := List.length_eq_one_iff.mp h
    have htext : [sep].intercalate (t.splitOn sep) = t := List.intercalate_splitOn sep
    rw [hline, List.intercalate_singleton] at htext
    rw [← htext]
    apply not_mem_of_mem_splitOn (t := t)
    rw [hline]
    exact List.mem_singleton_self line
  · intro h
    rw [List.splitOn_eq_singleton h]
    rfl

theorem splitOn_injective : Function.Injective (List.splitOn sep : List α → List (List α)) := by
  intro s t h
  have hjoin := congrArg [sep].intercalate h
  rwa [List.intercalate_splitOn, List.intercalate_splitOn] at hjoin

theorem length_le_fieldLines (fs : List (List α)) : fs.length ≤ (fieldLines sep fs).length := by
  induction fs with
  | nil => exact Nat.le_refl 0
  | cons f fs ih =>
    have hf := @length_splitOn_pos α _ sep f
    rw [fieldLines, List.flatMap_cons, ← fieldLines, List.length_append, List.length_cons]
    omega

theorem fieldLines_eq_self {fs : List (List α)} (h : ∀ f ∈ fs, sep ∉ f) :
    fieldLines sep fs = fs := by
  induction fs with
  | nil => rfl
  | cons f fs ih =>
    rw [fieldLines, List.flatMap_cons, ← fieldLines,
      List.splitOn_eq_singleton (h f List.mem_cons_self),
      ih fun f hf => h f (List.mem_cons_of_mem _ hf)]
    rfl

theorem fieldLines_eq_of_intercalate {fs gs : List (List α)} (hfs : fs ≠ []) (hgs : gs ≠ [])
    (h : [sep].intercalate fs = [sep].intercalate gs) : fieldLines sep fs = fieldLines sep gs := by
  rw [← terminated_eq_iff, terminated_eq_intercalate hfs, terminated_eq_intercalate hgs, h]

theorem splitOn_append_of_not_mem {start text first : List α} {rest : List (List α)}
    (hstart : sep ∉ start) (h : text.splitOn sep = first :: rest) :
    (start ++ text).splitOn sep = (start ++ first) :: rest := by
  induction start with
  | nil => exact h
  | cons c start ih =>
    rw [List.mem_cons, not_or] at hstart
    rw [List.cons_append, List.splitOn_cons_eq_if_modifyHead, if_neg (by simpa using Ne.symm hstart.1),
      ih hstart.2]
    rfl

/-- Fields whose numbers of lines compare one way have the same lines only if they are the same. -/
theorem eq_of_fieldLines_map {β : Type} {f g : β → List α} {l : List β}
    (hle : ∀ x ∈ l, ((f x).splitOn sep).length ≤ ((g x).splitOn sep).length)
    (h : fieldLines sep (l.map f) = fieldLines sep (l.map g)) : ∀ x ∈ l, f x = g x := by
  have hmono : ∀ l : List β, (∀ x ∈ l, ((f x).splitOn sep).length ≤ ((g x).splitOn sep).length) →
      (fieldLines sep (l.map f)).length ≤ (fieldLines sep (l.map g)).length := by
    intro l hle
    induction l with
    | nil => exact Nat.le_refl 0
    | cons x l ih =>
      have hx := hle x List.mem_cons_self
      have hl := ih fun y hy => hle y (List.mem_cons_of_mem _ hy)
      simp only [fieldLines, List.map_cons, List.flatMap_cons, List.length_append] at hl ⊢
      omega
  induction l with
  | nil =>
    intro x hx
    cases hx
  | cons x l ih =>
    have hx := hle x List.mem_cons_self
    have hrest : ∀ y ∈ l, ((f y).splitOn sep).length ≤ ((g y).splitOn sep).length :=
      fun y hy => hle y (List.mem_cons_of_mem _ hy)
    have hl := hmono l hrest
    simp only [fieldLines, List.map_cons, List.flatMap_cons] at h hl
    have hlength := congrArg List.length h
    rw [List.length_append, List.length_append] at hlength
    obtain ⟨hfirst, hlater⟩ := List.append_inj h (by omega)
    intro y hy
    rw [List.mem_cons] at hy
    obtain rfl | hy := hy
    · exact splitOn_injective hfirst
    · exact ih hrest hlater y hy

theorem not_mem_of_length_fieldLines {fs : List (List α)}
    (h : (fieldLines sep fs).length = fs.length) : ∀ f ∈ fs, sep ∉ f := by
  induction fs with
  | nil =>
    intro f hf
    cases hf
  | cons f fs ih =>
    have hf := @length_splitOn_pos α _ sep f
    have hfs := @length_le_fieldLines α _ sep fs
    rw [fieldLines, List.flatMap_cons, ← fieldLines, List.length_append, List.length_cons] at h
    intro g hg
    rw [List.mem_cons] at hg
    obtain rfl | hg := hg
    · exact length_splitOn_eq_one_iff.mp (by omega)
    · exact ih (by omega) g hg

theorem terminated_determined_iff {fs : List (List α)} (hlen : 2 ≤ fs.length) :
    (∀ gs, gs.length = fs.length → terminated sep gs = terminated sep fs → gs = fs) ↔
      ∀ f ∈ fs, sep ∉ f := by
  constructor
  · intro h f hf hmem
    obtain ⟨before, after, rfl⟩ := List.append_of_mem hf
    obtain ⟨x, y, rfl⟩ := List.append_of_mem hmem
    -- a line of the field goes to its neighbour
    cases after with
    | cons g after =>
      have hmoved := h (before ++ x :: (y ++ sep :: g) :: after) (by simp) (by simp [terminated])
      have hhead := (List.cons.inj (List.append_cancel_left hmoved)).1
      have hlength := congrArg List.length hhead
      rw [List.length_append, List.length_cons] at hlength
      omega
    | nil =>
      obtain rfl | ⟨init, g, rfl⟩ := List.eq_nil_or_concat' before
      · simp at hlen
      · have hmoved := h (init ++ [g ++ sep :: x, y]) (by simp) (by simp [terminated])
        rw [List.append_assoc] at hmoved
        have hlast := (List.cons.inj (List.cons.inj (List.append_cancel_left hmoved)).2).1
        have hlength := congrArg List.length hlast
        rw [List.length_append, List.length_cons] at hlength
        omega
  · intro h gs hgs htext
    have hlines := terminated_eq_iff.mp htext
    rw [fieldLines_eq_self h] at hlines
    have hclear := not_mem_of_length_fieldLines (hlines ▸ hgs.symm : (fieldLines sep gs).length = _)
    rw [← fieldLines_eq_self hclear, hlines]

end Noeta.Lib
