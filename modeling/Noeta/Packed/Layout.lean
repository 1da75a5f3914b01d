import Noeta.Packed.List

/-!
# Row and column layout

A packed buffer is the layout of a list of rows, one block of `byte_size` bytes each: their
concatenation, or for a column-major schema, slot by slot, the parts of all rows at the slot. Every
operation on buffers is the same operation on rows.
-/

namespace Noeta.Packed

open Lib

variable {schema : PackedSchema}

/-! ### The parts of a row -/

/-- A schema whose byte size is the sum of the widths of its fields. -/
def Sized (schema : PackedSchema) : Prop :=
  schema.byteSize = schema.fieldPrefix schema.fields.length

theorem sized_of_wf (h : schema.Wf) : Sized schema := by
  cases schema with
  | mk shape fields byteSize column =>
    cases shape with
    | none =>
      rw [PackedSchema.Wf] at h
      obtain ⟨⟨kind, rfl, -, rfl⟩, -⟩ := h
      simp [Sized, PackedSchema.byteSize, PackedSchema.fieldPrefix, PackedSchema.fields]
    | some shape =>
      rw [PackedSchema.Wf] at h
      obtain ⟨-, rfl, -⟩ := h
      simp [Sized, PackedSchema.byteSize, PackedSchema.fieldPrefix, PackedSchema.fields]

theorem fieldPrefix_zero : schema.fieldPrefix 0 = 0 := by
  simp [PackedSchema.fieldPrefix]

theorem fieldPrefix_succ (slot : Nat) :
    schema.fieldPrefix (slot + 1) = schema.fieldPrefix slot + schema.widthAt slot := by
  unfold PackedSchema.fieldPrefix PackedSchema.widthAt
  rw [List.take_add_one, List.map_append, List.sum_append]
  cases schema.fields[slot]? <;> simp

variable {slot : Nat}

theorem widthAt_of_getElem? {kind : PackedKind} (h : schema.fields[slot]? = some kind) :
    schema.widthAt slot = kind.byteWidth := by
  simp [PackedSchema.widthAt, h]

theorem fieldPrefix_mono {a b : Nat} (h : a ≤ b) : schema.fieldPrefix a ≤ schema.fieldPrefix b := by
  induction h with
  | refl => exact Nat.le_refl _
  | step _ ih =>
    rw [fieldPrefix_succ]
    omega

/-- The part of a row at a slot. -/
def chunk (schema : PackedSchema) (slot : Nat) (row : List UInt8) : List UInt8 :=
  (row.drop (schema.fieldPrefix slot)).take (schema.widthAt slot)

theorem length_chunk (hsized : Sized schema) {row : List UInt8} (hrow : row.length = schema.byteSize)
    (hslot : slot < schema.fields.length) :
    (chunk schema slot row).length = schema.widthAt slot := by
  have hnext := @fieldPrefix_mono schema _ _ (Nat.succ_le_of_lt hslot)
  rw [fieldPrefix_succ, ← hsized] at hnext
  rw [chunk, List.length_take, List.length_drop]
  omega

theorem row_split (row : List UInt8) (slot : Nat) :
    row = row.take (schema.fieldPrefix slot) ++ chunk schema slot row ++
      row.drop (schema.fieldPrefix (slot + 1)) := by
  rw [chunk, ← List.take_add, ← fieldPrefix_succ, List.take_append_drop]

/-! ### Columns -/

/-- The column of a slot. -/
def columnOf (schema : PackedSchema) (rows : List (List UInt8)) (slot : Nat) : List UInt8 :=
  rows.flatMap (chunk schema slot)

/-- The columns before a slot. -/
def columnsTo (schema : PackedSchema) (rows : List (List UInt8)) (slot : Nat) : List UInt8 :=
  (List.range slot).flatMap (columnOf schema rows)

/-- The buffer of a list of rows. -/
def layout (schema : PackedSchema) (rows : List (List UInt8)) : List UInt8 :=
  if schema.column then columnsTo schema rows schema.fields.length else rows.flatten

/-- Every row is of the element size. -/
def Rows (schema : PackedSchema) (rows : List (List UInt8)) : Prop :=
  ∀ row ∈ rows, row.length = schema.byteSize

theorem columnsTo_zero (rows : List (List UInt8)) : columnsTo schema rows 0 = [] := by
  simp [columnsTo]

theorem columnsTo_succ (rows : List (List UInt8)) (slot : Nat) :
    columnsTo schema rows (slot + 1) = columnsTo schema rows slot ++ columnOf schema rows slot := by
  simp [columnsTo, List.range_succ]

theorem columnOf_append (rows more : List (List UInt8)) (slot : Nat) :
    columnOf schema (rows ++ more) slot = columnOf schema rows slot ++ columnOf schema more slot := by
  simp [columnOf]

section

variable (hsized : Sized schema)
include hsized

theorem length_columnOf {rows : List (List UInt8)} (hrows : Rows schema rows) {slot : Nat}
    (hslot : slot < schema.fields.length) :
    (columnOf schema rows slot).length = rows.length * schema.widthAt slot :=
  length_flatMap_const _ _ _ fun row hrow => length_chunk hsized (hrows row hrow) hslot

theorem length_columnsTo {rows : List (List UInt8)} (hrows : Rows schema rows) :
    ∀ slot, slot ≤ schema.fields.length →
      (columnsTo schema rows slot).length = rows.length * schema.fieldPrefix slot := by
  intro slot
  induction slot with
  | zero =>
    intro _
    simp [columnsTo_zero, fieldPrefix_zero]
  | succ slot ih =>
    intro hslot
    rw [columnsTo_succ, List.length_append, ih (by omega), length_columnOf hsized hrows hslot,
      fieldPrefix_succ, Nat.mul_add]

theorem length_layout {rows : List (List UInt8)} (hrows : Rows schema rows) :
    (layout schema rows).length = rows.length * schema.byteSize := by
  unfold layout
  split
  · rw [length_columnsTo hsized hrows _ (Nat.le_refl _), ← hsized]
  · have h := length_flatMap_const (fun row : List UInt8 => row) schema.byteSize rows hrows
    rwa [List.flatMap_id'] at h

end

/-- The columns from a slot on. -/
def columnsFrom (schema : PackedSchema) (rows : List (List UInt8)) (slot : Nat) : List UInt8 :=
  (List.range' slot (schema.fields.length - slot)).flatMap (columnOf schema rows)

theorem columnsFrom_step (rows : List (List UInt8)) (hslot : slot < schema.fields.length) :
    columnsFrom schema rows slot =
      columnOf schema rows slot ++ columnsFrom schema rows (slot + 1) := by
  rw [columnsFrom, show schema.fields.length - slot = schema.fields.length - (slot + 1) + 1 by omega,
    List.range'_succ, List.flatMap_cons, columnsFrom]

theorem columnsTo_append_columnsFrom (rows : List (List UInt8))
    (hslot : slot ≤ schema.fields.length) :
    columnsTo schema rows slot ++ columnsFrom schema rows slot =
      columnsTo schema rows schema.fields.length := by
  have hrange : List.range slot ++ List.range' slot (schema.fields.length - slot) =
      List.range schema.fields.length := by
    have h := List.range'_append_1 (s := 0) (m := slot) (n := schema.fields.length - slot)
    rw [Nat.zero_add, show slot + (schema.fields.length - slot) = schema.fields.length by omega] at h
    rw [List.range_eq_range', List.range_eq_range', h]
  rw [columnsTo, columnsFrom, columnsTo, ← List.flatMap_append, hrange]

theorem columns_split (rows : List (List UInt8)) (hslot : slot < schema.fields.length) :
    columnsTo schema rows schema.fields.length =
      columnsTo schema rows slot ++ columnOf schema rows slot ++
        columnsFrom schema rows (slot + 1) := by
  rw [← columnsTo_append_columnsFrom rows (Nat.le_of_lt hslot), columnsFrom_step rows hslot,
    List.append_assoc]

section

variable (hsized : Sized schema)
include hsized

variable {slot i : Nat} {row bytes : List UInt8}

theorem slice?_column {rows : List (List UInt8)} (hrows : Rows schema rows)
    (hslot : slot < schema.fields.length) :
    slice? (columnsTo schema rows schema.fields.length) (rows.length * schema.fieldPrefix slot)
      (rows.length * schema.fieldPrefix slot + rows.length * schema.widthAt slot) =
      some (columnOf schema rows slot) := by
  rw [columns_split rows hslot]
  apply slice?_block
  · rw [length_columnsTo hsized hrows _ (Nat.le_of_lt hslot)]
  · rw [length_columnOf hsized hrows hslot]

theorem column_split {rows : List (List UInt8)} (hrows : Rows schema rows)
    (hi : rows[i]? = some row) (hslot : slot < schema.fields.length) :
    columnOf schema rows slot = columnOf schema (rows.take i) slot ++ chunk schema slot row ++
        columnOf schema (rows.drop (i + 1)) slot ∧
      (columnOf schema (rows.take i) slot).length = i * schema.widthAt slot := by
  refine ⟨flatMap_split _ rows i row hi, ?_⟩
  have htake : Rows schema (rows.take i) := fun r hr => hrows r (List.mem_of_mem_take hr)
  obtain ⟨hlt, -⟩ := List.getElem?_eq_some_iff.1 hi
  rw [length_columnOf hsized htake hslot, List.length_take, Nat.min_eq_left (Nat.le_of_lt hlt)]

omit hsized in
theorem rows_split {rows : List (List UInt8)} (hrows : Rows schema rows) {i : Nat}
    {row : List UInt8} (hi : rows[i]? = some row) :
    rows.flatten = (rows.take i).flatten ++ row ++ (rows.drop (i + 1)).flatten ∧
      (rows.take i).flatten.length = i * schema.byteSize := by
  have hsplit := flatMap_split (fun row : List UInt8 => row) rows i row hi
  have htake : Rows schema (rows.take i) := fun r hr => hrows r (List.mem_of_mem_take hr)
  have hlen := length_flatMap_const (fun row : List UInt8 => row) schema.byteSize _ htake
  obtain ⟨hlt, -⟩ := List.getElem?_eq_some_iff.1 hi
  simp only [List.flatMap_id'] at hsplit hlen
  refine ⟨hsplit, ?_⟩
  rw [hlen, List.length_take, Nat.min_eq_left (Nat.le_of_lt hlt)]

/-- `field_offset` finds the part of a row, in either layout. -/
theorem slice?_field {rows : List (List UInt8)} (hrows : Rows schema rows)
    (hi : rows[i]? = some row) (hslot : slot < schema.fields.length) :
    slice? (layout schema rows) (schema.fieldOffset i slot rows.length)
      (schema.fieldOffset i slot rows.length + schema.widthAt slot) =
      some (chunk schema slot row) := by
  have hrow := hrows row (List.mem_of_getElem? hi)
  have hchunk := length_chunk hsized hrow hslot
  unfold layout PackedSchema.fieldOffset
  cases hcolumn : schema.column with
  | true =>
    simp only [if_true]
    obtain ⟨hsplit, hlen⟩ := column_split hsized hrows hi hslot
    have hbefore := length_columnsTo hsized hrows _ (Nat.le_of_lt hslot)
    rw [columns_split rows hslot, hsplit]
    have hassoc : columnsTo schema rows slot ++ (columnOf schema (rows.take i) slot ++
        chunk schema slot row ++ columnOf schema (rows.drop (i + 1)) slot) ++
          columnsFrom schema rows (slot + 1) =
        (columnsTo schema rows slot ++ columnOf schema (rows.take i) slot) ++
          chunk schema slot row ++
          (columnOf schema (rows.drop (i + 1)) slot ++ columnsFrom schema rows (slot + 1)) := by
      simp only [List.append_assoc]
    rw [hassoc]
    apply slice?_block
    · rw [List.length_append, hbefore, hlen]
    · rw [hchunk]
  | false =>
    simp only [Bool.false_eq_true, if_false]
    obtain ⟨hsplit, hlen⟩ := rows_split hrows hi
    have hstart := @fieldPrefix_mono schema _ _ (Nat.le_of_lt hslot)
    rw [← hsized] at hstart
    have hassoc : rows.flatten = ((rows.take i).flatten ++ row.take (schema.fieldPrefix slot)) ++
        chunk schema slot row ++
          (row.drop (schema.fieldPrefix (slot + 1)) ++ (rows.drop (i + 1)).flatten) := by
      rw [hsplit]
      nth_rewrite 1 [@row_split schema row slot]
      simp only [List.append_assoc]
    rw [hassoc]
    apply slice?_block
    · rw [List.length_append, hlen, List.length_take]
      omega
    · rw [hchunk]

/-! ### The loops over the fields -/

omit hsized in
theorem field_round {k : Nat} {x : PackedKind × Nat} (h : schema.fields.zipIdx[k]? = some x) :
    x.2 = k ∧ x.1.byteWidth = schema.widthAt k ∧ k < schema.fields.length := by
  rw [List.getElem?_zipIdx] at h
  obtain ⟨kind, hkind, rfl⟩ := Option.map_eq_some_iff.1 h
  obtain ⟨hlt, -⟩ := List.getElem?_eq_some_iff.1 hkind
  exact ⟨Nat.zero_add k, (widthAt_of_getElem? hkind).symm, hlt⟩

theorem gatherRow_layout {rows : List (List UInt8)} (hrows : Rows schema rows)
    (hi : rows[i]? = some row) :
    gatherRow schema (layout schema rows) i rows.length = some row := by
  have hrow := hrows row (List.mem_of_getElem? hi)
  obtain ⟨out, hout, hinv⟩ := foldlM_invariant
    (gatherField schema (layout schema rows) i rows.length)
    (fun k acc => acc = row.take (schema.fieldPrefix k)) schema.fields.zipIdx (by
      intro k x acc hx hacc
      obtain ⟨hslot, hwidth, hlt⟩ := field_round hx
      refine ⟨row.take (schema.fieldPrefix (k + 1)), ?_, rfl⟩
      rw [gatherField, hslot, hwidth]
      simp only [slice?_field hsized hrows hi hlt, Option.map_some]
      rw [hacc, chunk, ← List.take_add, fieldPrefix_succ])
    [] (by rw [fieldPrefix_zero, List.take_zero])
  rw [List.length_zipIdx, ← hsized, ← hrow, List.take_length] at hinv
  rw [gatherRow, hout, hinv]

theorem slice?_row (hrow : row.length = schema.byteSize) (hslot : slot < schema.fields.length) :
    slice? row (schema.fieldPrefix slot) (schema.fieldPrefix slot + schema.widthAt slot) =
      some (chunk schema slot row) := by
  have hstart := @fieldPrefix_mono schema _ _ (Nat.le_of_lt hslot)
  rw [← hsized, ← hrow] at hstart
  nth_rewrite 1 [@row_split schema row slot]
  apply slice?_block
  · rw [List.length_take]
    omega
  · rw [length_chunk hsized hrow hslot]

theorem count_columns {rows : List (List UInt8)} (hrows : Rows schema rows)
    (hpos : 0 < schema.byteSize) :
    schema.count (columnsTo schema rows schema.fields.length).length = rows.length := by
  rw [length_columnsTo hsized hrows _ (Nat.le_refl _), ← hsized, PackedSchema.count,
    Nat.mul_div_cancel _ hpos]

theorem columnAppend_columns {rows : List (List UInt8)} (hrows : Rows schema rows)
    (hpos : 0 < schema.byteSize) (hrow : row.length = schema.byteSize) :
    columnAppend schema (columnsTo schema rows schema.fields.length) row =
      some (columnsTo schema (rows ++ [row]) schema.fields.length) := by
  obtain ⟨out, hout, hinv⟩ := foldlM_invariant
    (appendField schema (columnsTo schema rows schema.fields.length) row rows.length)
    (fun k s => s = (columnsTo schema (rows ++ [row]) k, schema.fieldPrefix k))
    schema.fields.zipIdx (by
      intro k x s hx hs
      obtain ⟨hslot, hwidth, hlt⟩ := field_round hx
      refine ⟨_, ?_, rfl⟩
      rw [appendField, hs, hslot, hwidth]
      simp only [slice?_column hsized hrows hlt, slice?_row hsized hrow hlt]
      rw [columnsTo_succ, columnOf_append, fieldPrefix_succ, List.append_assoc]
      simp [columnOf])
    ([], 0) (by rw [columnsTo_zero, fieldPrefix_zero])
  rw [List.length_zipIdx] at hinv
  rw [columnAppend, count_columns hsized hrows hpos, hout, hinv]
  rfl

theorem room_left {m : Nat} (hslot : slot < schema.fields.length)
    {done rest : List UInt8} (hdone : done.length = m * schema.fieldPrefix slot)
    (hall : (done ++ rest).length = m * schema.byteSize) : m * schema.widthAt slot ≤ rest.length := by
  have hnext := @fieldPrefix_mono schema _ _ (Nat.succ_le_of_lt hslot)
  rw [fieldPrefix_succ, ← hsized] at hnext
  have hmul := Nat.mul_le_mul_left m hnext
  rw [Nat.mul_add] at hmul
  rw [List.length_append] at hall
  omega

/-- Columns written into a fresh buffer up to a slot. -/
def Filled (schema : PackedSchema) (rows : List (List UInt8)) (slot : Nat) (out : List UInt8) :
    Prop :=
  ∃ rest, out = columnsTo schema rows slot ++ rest ∧ out.length = rows.length * schema.byteSize

theorem Filled.full {rows : List (List UInt8)} {out : List UInt8} (hrows : Rows schema rows)
    (h : Filled schema rows schema.fields.length out) :
    out = columnsTo schema rows schema.fields.length := by
  obtain ⟨rest, rfl, hlen⟩ := h
  rw [List.length_append, length_columnsTo hsized hrows _ (Nat.le_refl _), ← hsized] at hlen
  obtain rfl : rest = [] := List.length_eq_zero_iff.1 (by omega)
  exact List.append_nil _

theorem columnConcat_columns {rows more : List (List UInt8)} (hrows : Rows schema rows)
    (hmore : Rows schema more) (hpos : 0 < schema.byteSize) :
    columnConcat schema (columnsTo schema rows schema.fields.length)
        (columnsTo schema more schema.fields.length) =
      some (columnsTo schema (rows ++ more) schema.fields.length) := by
  have hboth : Rows schema (rows ++ more) := by
    intro row hrow
    obtain h | h := List.mem_append.1 hrow
    · exact hrows row h
    · exact hmore row h
  obtain ⟨out, hout, hinv⟩ := foldlM_invariant
    (concatField schema (columnsTo schema rows schema.fields.length)
      (columnsTo schema more schema.fields.length) rows.length more.length)
    (Filled schema (rows ++ more)) schema.fields.zipIdx (by
      intro k x s hx hs
      obtain ⟨hslot, hwidth, hlt⟩ := field_round hx
      obtain ⟨rest, rfl, hlen⟩ := hs
      have hdone := length_columnsTo hsized hboth k (Nat.le_of_lt hlt)
      have hroom := room_left hsized hlt hdone hlen
      have ha := length_columnOf hsized hrows hlt
      have hb := length_columnOf hsized hmore hlt
      have hsum := Nat.add_mul rows.length more.length (schema.widthAt k)
      rw [List.length_append, hsum] at hroom
      rw [List.length_append] at hdone
      rw [concatField, hslot, hwidth]
      simp only [slice?_column hsized hrows hlt, slice?_column hsized hmore hlt]
      rw [write?_next _ rest _ _ _ hdone.symm (by rw [ha]) (by omega), Option.bind_some]
      rw [write?_next _ _ _ _ _ (by rw [List.length_append, hdone, ha])
        (by omega) (by rw [List.length_drop]; omega)]
      refine ⟨_, rfl, _, by
        rw [columnsTo_succ, columnOf_append]
        simp only [List.append_assoc]
        rfl, ?_⟩
      rw [← hlen]
      simp only [List.length_append, List.length_drop]
      omega)
    (List.replicate ((rows.length + more.length) * schema.byteSize) 0)
    ⟨_, by rw [columnsTo_zero, List.nil_append], by simp⟩
  rw [List.length_zipIdx] at hinv
  rw [columnConcat, count_columns hsized hrows hpos, count_columns hsized hmore hpos]
  rw [← Filled.full hsized hboth hinv]
  exact hout

omit hsized in
theorem layout_column (hcolumn : schema.column = true) (rows : List (List UInt8)) :
    layout schema rows = columnsTo schema rows schema.fields.length := by
  simp [layout, hcolumn]

omit hsized in
theorem layout_row (hcolumn : schema.column = false) (rows : List (List UInt8)) :
    layout schema rows = rows.flatten := by
  simp [layout, hcolumn]

omit hsized in
theorem fieldOffset_column (hcolumn : schema.column = true) (i slot n : Nat) :
    schema.fieldOffset i slot n = n * schema.fieldPrefix slot + i * schema.widthAt slot := by
  simp [PackedSchema.fieldOffset, hcolumn]

omit hsized in
theorem Rows.set {rows : List (List UInt8)} (hrows : Rows schema rows) {row : List UInt8}
    (hrow : row.length = schema.byteSize) (i : Nat) : Rows schema (rows.set i row) := by
  intro r hr
  obtain h | rfl := List.mem_or_eq_of_mem_set hr
  · exact hrows r h
  · exact hrow

theorem columnSet_columns (hcolumn : schema.column = true) {rows : List (List UInt8)}
    (hrows : Rows schema rows) (hrow : row.length = schema.byteSize)
    (hi : i < rows.length) :
    columnSet schema (columnsTo schema rows schema.fields.length) i rows.length row =
      some (columnsTo schema (rows.set i row) schema.fields.length) := by
  have hset := hrows.set hrow i
  have hold : rows[i]? = some rows[i] := List.getElem?_eq_getElem hi
  have hnew : (rows.set i row)[i]? = some row := by simp [hi]
  obtain ⟨out, hout, hinv⟩ := foldlM_invariant (setField schema i rows.length row)
    (fun k s => s = (columnsTo schema (rows.set i row) k ++ columnsFrom schema rows k,
      schema.fieldPrefix k)) schema.fields.zipIdx (by
      intro k x s hx hs
      obtain ⟨hslot, hwidth, hlt⟩ := field_round hx
      obtain ⟨hsplit, hbefore⟩ := column_split hsized hrows hold hlt
      obtain ⟨hsplit', -⟩ := column_split hsized hset hnew hlt
      rw [List.take_set_of_le (Nat.le_refl i), List.drop_set_of_lt (Nat.lt_succ_self i)] at hsplit'
      have hdone := length_columnsTo hsized hset k (Nat.le_of_lt hlt)
      rw [List.length_set] at hdone
      have hchunk := length_chunk hsized (hrows _ (List.mem_of_getElem? hold)) hlt
      have hchunk' := length_chunk hsized hrow hlt
      refine ⟨_, ?_, rfl⟩
      rw [setField, hs, hslot, hwidth]
      simp only [slice?_row hsized hrow hlt, fieldOffset_column hcolumn]
      have hassoc : columnsTo schema (rows.set i row) k ++ columnsFrom schema rows k =
          (columnsTo schema (rows.set i row) k ++ columnOf schema (rows.take i) k) ++
            chunk schema k rows[i] ++
            (columnOf schema (rows.drop (i + 1)) k ++ columnsFrom schema rows (k + 1)) := by
        rw [columnsFrom_step rows hlt, hsplit]
        simp only [List.append_assoc]
      rw [hassoc, write?_block _ _ _ _ _ _ (by rw [List.length_append, hdone, hbefore])
        (by rw [hchunk]) (by rw [hchunk, hchunk']), Option.map_some, columnsTo_succ, hsplit',
        fieldPrefix_succ]
      simp only [List.append_assoc])
    (columnsTo schema rows schema.fields.length, 0) (by
      rw [columnsTo_zero, fieldPrefix_zero,
        ← columnsTo_append_columnsFrom rows (Nat.zero_le _), columnsTo_zero])
  rw [List.length_zipIdx] at hinv
  rw [columnSet, hout, hinv]
  simp [columnsFrom]

/-- The rows that a list of indices picks. -/
def Picks (rows : List (List UInt8)) (indices : List Nat) (picks : List (List UInt8)) : Prop :=
  picks.length = indices.length ∧
    ∀ (j i : Nat), indices[j]? = some i → ∃ row, rows[i]? = some row ∧ picks[j]? = some row

omit hsized in
theorem Picks.rows {rows picks : List (List UInt8)} {indices : List Nat}
    (h : Picks rows indices picks) (hrows : Rows schema rows) : Rows schema picks := by
  intro row hrow
  obtain ⟨j, hj⟩ := List.mem_iff_getElem?.1 hrow
  obtain ⟨hlt, -⟩ := List.getElem?_eq_some_iff.1 hj
  obtain ⟨row', hrow', hpick⟩ := h.2 j _ (List.getElem?_eq_getElem (h.1 ▸ hlt))
  obtain rfl : row = row' := by simpa [hj] using hpick
  exact hrows row (List.mem_of_getElem? hrow')

/-- The inner loop of `column_select` writes the column of a slot. -/
theorem selectField_columns (hcolumn : schema.column = true) {rows picks : List (List UInt8)}
    {indices : List Nat} (hrows : Rows schema rows) (hpicks : Picks rows indices picks) {k : Nat}
    {x : PackedKind × Nat} (hx : schema.fields.zipIdx[k]? = some x) {out : List UInt8}
    (hout : Filled schema picks k out) :
    ∃ out', selectField schema (columnsTo schema rows schema.fields.length) indices rows.length out
        x = some out' ∧ Filled schema picks (k + 1) out' := by
  obtain ⟨hslot, hwidth, hlt⟩ := field_round hx
  have hrows' := hpicks.rows hrows
  have hdone := length_columnsTo hsized hrows' k (Nat.le_of_lt hlt)
  obtain ⟨out', hout', hinv⟩ := foldlM_invariant
    (selectPart schema (columnsTo schema rows schema.fields.length) rows.length (schema.widthAt k) k
      (indices.length * schema.fieldPrefix k))
    (fun j out => ∃ rest, out = columnsTo schema picks k ++ columnOf schema (picks.take j) k ++ rest ∧
      out.length = picks.length * schema.byteSize) indices.zipIdx (by
      intro j index s hj hs
      rw [List.getElem?_zipIdx] at hj
      obtain ⟨i, hi, rfl⟩ := Option.map_eq_some_iff.1 hj
      obtain ⟨row, hrow, hpick⟩ := hpicks.2 j i hi
      obtain ⟨rest, rfl, hlen⟩ := hs
      obtain ⟨hsplit, hbefore⟩ := column_split hsized hrows' hpick hlt
      have hchunk := length_chunk hsized (hrows row (List.mem_of_getElem? hrow)) hlt
      have hfield := slice?_field hsized hrows hrow hlt
      rw [layout_column hcolumn] at hfield
      have hfit : (chunk schema k row).length ≤ rest.length := by
        rw [List.append_assoc] at hlen
        have hroom := room_left hsized hlt hdone hlen
        have hcol := length_columnOf hsized hrows' hlt
        rw [hsplit] at hcol
        simp only [List.length_append] at hcol hroom
        omega
      rw [selectPart, Nat.zero_add]
      simp only [hfield]
      rw [write?_next _ rest _ _ _ (by rw [List.length_append, hdone, hbefore, hpicks.1])
        (by rw [hchunk]) hfit]
      refine ⟨_, rfl, _, by
        rw [List.take_add_one, hpick, columnOf_append]
        simp only [columnOf, Option.toList_some, List.flatMap_cons, List.flatMap_nil,
          List.append_nil, List.append_assoc]
        rfl, ?_⟩
      rw [← hlen]
      simp only [List.length_append, List.length_drop]
      omega)
    out (by
      obtain ⟨rest, rfl, hlen⟩ := hout
      exact ⟨rest, by simp [columnOf], hlen⟩)
  rw [List.length_zipIdx, ← hpicks.1, List.take_length] at hinv
  refine ⟨out', by rw [selectField, hslot, hwidth, hout'], ?_⟩
  simpa only [Filled, columnsTo_succ] using hinv

theorem columnSelect_columns (hcolumn : schema.column = true) {rows picks : List (List UInt8)}
    {indices : List Nat} (hrows : Rows schema rows) (hpicks : Picks rows indices picks) :
    columnSelect schema (columnsTo schema rows schema.fields.length) indices rows.length =
      some (columnsTo schema picks schema.fields.length) := by
  obtain ⟨out, hout, hinv⟩ := foldlM_invariant
    (selectField schema (columnsTo schema rows schema.fields.length) indices rows.length)
    (Filled schema picks) schema.fields.zipIdx
    (fun k x s hx hs => selectField_columns hsized hcolumn hrows hpicks hx hs)
    (List.replicate (indices.length * schema.byteSize) 0)
    ⟨_, by rw [columnsTo_zero, List.nil_append], by simp [hpicks.1]⟩
  rw [List.length_zipIdx] at hinv
  rw [columnSelect, hout, Filled.full hsized (hpicks.rows hrows) hinv]

/-! ### Every whole buffer is a layout -/

omit hsized in
theorem flatMap_blocks (l : List UInt8) (w n : Nat) :
    (List.range n).flatMap (fun i => (l.drop (i * w)).take w) = l.take (n * w) := by
  rw [← flatMap_ranges l (fun i => i * w) (Nat.zero_mul w)
    (fun i => Nat.mul_le_mul_right w (Nat.le_succ i)) n]
  congr 1
  funext i
  congr 1
  rw [Nat.succ_mul]
  omega

omit hsized in
theorem chunk_flatMap (parts : Nat → List UInt8)
    (hparts : ∀ slot, slot < schema.fields.length → (parts slot).length = schema.widthAt slot) :
    ∀ n, n ≤ schema.fields.length →
      ((List.range n).flatMap parts).length = schema.fieldPrefix n ∧
        ∀ slot, slot < n → chunk schema slot ((List.range n).flatMap parts) = parts slot := by
  intro n
  induction n with
  | zero =>
    intro _
    exact ⟨by simp [fieldPrefix_zero], fun slot h => absurd h (Nat.not_lt_zero slot)⟩
  | succ n ih =>
    intro hn
    obtain ⟨hlen, hchunk⟩ := ih (by omega)
    have hlast := hparts n (by omega)
    rw [List.range_succ, List.flatMap_append, List.flatMap_cons, List.flatMap_nil, List.append_nil]
    refine ⟨by rw [List.length_append, hlen, hlast, fieldPrefix_succ], fun slot hslot => ?_⟩
    by_cases heq : slot = n
    · rw [heq, chunk, List.drop_left' hlen, ← hlast, List.take_length]
    · have hbefore := @fieldPrefix_mono schema (slot + 1) n (by omega)
      rw [fieldPrefix_succ] at hbefore
      rw [← hchunk slot (by omega), chunk, List.drop_append_of_le_length (by omega),
        List.take_append_of_le_length (by rw [List.length_drop]; omega), chunk]

/-- The part of row `i` at a slot, in a column-major buffer of `n` rows. -/
def partAt (schema : PackedSchema) (bytes : List UInt8) (n i slot : Nat) : List UInt8 :=
  ((bytes.drop (n * schema.fieldPrefix slot)).drop (i * schema.widthAt slot)).take
    (schema.widthAt slot)

theorem length_partAt {n i slot : Nat}
    (hlen : bytes.length = n * schema.byteSize) (hi : i < n) (hslot : slot < schema.fields.length) :
    (partAt schema bytes n i slot).length = schema.widthAt slot := by
  have hnext := @fieldPrefix_mono schema _ _ (Nat.succ_le_of_lt hslot)
  rw [fieldPrefix_succ, ← hsized] at hnext
  have hmul := Nat.mul_le_mul_left n hnext
  rw [Nat.mul_add] at hmul
  have hrow := Nat.mul_le_mul_right (schema.widthAt slot) (Nat.succ_le_of_lt hi)
  rw [Nat.succ_mul] at hrow
  rw [partAt, List.length_take, List.length_drop, List.length_drop]
  omega

/-- A column-major buffer of a whole number of elements. -/
theorem exists_columns {n : Nat} (hlen : bytes.length = n * schema.byteSize) :
    ∃ rows, Rows schema rows ∧ rows.length = n ∧
      columnsTo schema rows schema.fields.length = bytes := by
  let rowAt := fun i => (List.range schema.fields.length).flatMap (partAt schema bytes n i)
  have hrow : ∀ i, i < n → (rowAt i).length = schema.byteSize ∧
      ∀ slot, slot < schema.fields.length →
        chunk schema slot (rowAt i) = partAt schema bytes n i slot := by
    intro i hi
    have h := chunk_flatMap (partAt schema bytes n i)
      (fun slot hslot => length_partAt hsized hlen hi hslot) _ (Nat.le_refl _)
    exact ⟨h.1.trans hsized.symm, h.2⟩
  have hcolumn : ∀ slot, slot < schema.fields.length →
      columnOf schema ((List.range n).map rowAt) slot =
        (bytes.drop (n * schema.fieldPrefix slot)).take (n * schema.widthAt slot) := by
    intro slot hslot
    rw [columnOf, List.flatMap_map, ← flatMap_blocks]
    apply List.flatMap_congr
    intro i hi
    rw [(hrow i (List.mem_range.1 hi)).2 slot hslot, partAt]
  refine ⟨(List.range n).map rowAt, ?_, by simp, ?_⟩
  · intro row hmem
    obtain ⟨i, hi, rfl⟩ := List.mem_map.1 hmem
    exact (hrow i (List.mem_range.1 hi)).1
  · have hstart : ∀ k, k ≤ schema.fields.length →
        columnsTo schema ((List.range n).map rowAt) k = bytes.take (n * schema.fieldPrefix k) := by
      intro k
      induction k with
      | zero =>
        intro _
        simp [columnsTo_zero, fieldPrefix_zero]
      | succ k ih =>
        intro hk
        rw [columnsTo_succ, ih (by omega), hcolumn k (by omega), ← List.take_add, fieldPrefix_succ,
          Nat.mul_add]
    rw [hstart _ (Nat.le_refl _), ← hsized, ← hlen, List.take_length]

omit hsized in
theorem exists_rows {bytes : List UInt8} {n : Nat} (hlen : bytes.length = n * schema.byteSize) :
    ∃ rows, Rows schema rows ∧ rows.length = n ∧ rows.flatten = bytes := by
  refine ⟨(List.range n).map fun i => (bytes.drop (i * schema.byteSize)).take schema.byteSize,
    ?_, by simp, ?_⟩
  · intro row hmem
    obtain ⟨i, hi, rfl⟩ := List.mem_map.1 hmem
    have hrow := Nat.mul_le_mul_right schema.byteSize (Nat.succ_le_of_lt (List.mem_range.1 hi))
    rw [Nat.succ_mul] at hrow
    rw [List.length_take, List.length_drop]
    omega
  · rw [← List.flatMap_def, flatMap_blocks, ← hlen, List.take_length]

theorem exists_layout {n : Nat} (hlen : bytes.length = n * schema.byteSize) :
    ∃ rows, Rows schema rows ∧ rows.length = n ∧ layout schema rows = bytes := by
  cases hcolumn : schema.column with
  | true =>
    simp only [layout_column hcolumn]
    exact exists_columns hsized hlen
  | false =>
    simp only [layout_row hcolumn]
    exact exists_rows hlen

end

end Noeta.Packed
