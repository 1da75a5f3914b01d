import Noeta.Packed.Layout

/-!
# Packed lists are lists

A packed list holds a list of elements when its buffer is the layout of rows that read as the
elements. Every operation keeps this, and it decides every observation, so a run on packed lists and
the same run on ordinary lists cannot be told apart, whichever layout the schema has.
-/

namespace Noeta.Packed

open Lib

variable {schema : PackedSchema}

/-- The list `l` of the interned schema holds `elems`. -/
structure Holds (handle : Nat) (schema : PackedSchema) (l : PackedList) (elems : List Value) :
    Prop where
  handle_eq : l.handle = handle
  schema_eq : l.schema = schema
  rows : ∃ rows, Rows schema rows ∧ l.bytes = layout schema rows ∧
    List.Forall₂ (ReadsElement schema) rows elems

/-- What can be seen of a packed list is what can be seen of the elements. -/
structure Observes (l : PackedList) (elems : List Value) : Prop where
  count : l.schema.count l.bytes.length = elems.length
  length : l.bytes.length = l.schema.count l.bytes.length * l.schema.byteSize
  items : packedItems l = some elems
  get : ∀ i, i < elems.length → packedGet l i = elems[i]?
  field : ∀ i f, packedField l i f = some (elems[i]?.bind (·.field f))

/-! ### Observations -/

theorem ReadsElement.unpack {row : List UInt8} {v : Value} (h : ReadsElement schema row v) :
    (unpackElement schema row 0).map Prod.fst = some v := by
  have := h [] []
  simp only [List.nil_append, List.append_nil, List.length_nil] at this
  rw [this]
  rfl

variable {elems : List Value}

theorem unpackRows_flatten {rows : List (List UInt8)}
    (h : List.Forall₂ (ReadsElement schema) rows elems) : ∀ before,
    unpackRows schema (before ++ rows.flatten) elems.length before.length = some elems := by
  induction h with
  | nil =>
    intro before
    rfl
  | @cons row v rows elems hrow _ ih =>
    intro before
    have hread := hrow before rows.flatten
    have hrest := ih (before ++ row)
    rw [List.length_append, List.append_assoc] at hrest
    rw [List.append_assoc] at hread
    rw [List.flatten_cons, List.length_cons, unpackRows, hread]
    simp only [hrest, Option.map_some]

section

variable {rows : List (List UInt8)} {elems : List Value} {l : PackedList} {handle : Nat}

variable {i : Nat} {row : List UInt8} {v : Value} {indices : List Nat}

theorem unpackGathered_layout (hsized : Sized schema) (hrows : Rows schema rows)
    (hi : rows[i]? = some row) (hv : ReadsElement schema row v) :
    unpackGathered schema (layout schema rows) rows.length i = some v := by
  rw [unpackGathered, gatherRow_layout hsized hrows hi, Option.bind_some, hv.unpack]

theorem Holds.items (h : Holds handle schema l elems) (hwf : schema.Wf)
    (hpos : 0 < schema.byteSize) : l.schema.count l.bytes.length = elems.length ∧
      packedItems l = some elems := by
  obtain ⟨-, rfl, rows, hrows, hbytes, hreads⟩ := h
  have hsized := sized_of_wf hwf
  have hcount : l.schema.count l.bytes.length = elems.length := by
    rw [hbytes, length_layout hsized hrows, PackedSchema.count, Nat.mul_div_cancel _ hpos,
      hreads.length_eq]
  refine ⟨hcount, ?_⟩
  rw [packedItems, hcount]
  cases hcolumn : l.schema.column with
  | true =>
    rw [if_pos rfl, hbytes, ← hreads.length_eq]
    rw [mapM_eq_some_iff, List.forall₂_iff_get]
    refine ⟨by rw [List.length_range, hreads.length_eq], fun i _ hlt => ?_⟩
    obtain ⟨row, hrow, hread⟩ := forall₂_getElem? hreads (List.getElem?_eq_getElem hlt)
    rw [List.get_eq_getElem, List.getElem_range, unpackGathered_layout hsized hrows hrow hread,
      List.get_eq_getElem]
  | false =>
    have hall := unpackRows_flatten hreads []
    rw [if_neg (by simp), hbytes, layout_row hcolumn]
    exact hall

theorem Holds.get (h : Holds handle schema l elems) (hwf : schema.Wf)
    (hpos : 0 < schema.byteSize) (i : Nat) (hi : i < elems.length) : packedGet l i = elems[i]? := by
  obtain ⟨hcount, -⟩ := h.items hwf hpos
  obtain ⟨-, rfl, rows, hrows, hbytes, hreads⟩ := h
  have hsized := sized_of_wf hwf
  obtain ⟨row, hrow, hread⟩ := forall₂_getElem? hreads (List.getElem?_eq_getElem hi)
  rw [packedGet, hcount, ← hreads.length_eq, List.getElem?_eq_getElem hi]
  cases hcolumn : l.schema.column with
  | true =>
    simp only [if_true]
    rw [hbytes, gatherRow_layout hsized hrows hrow, Option.bind_some, hread.unpack]
  | false =>
    simp only [Bool.false_eq_true, if_false]
    obtain ⟨hsplit, hlen⟩ := rows_split hrows hrow
    rw [hbytes, layout_row hcolumn, hsplit, slice?_block _ row _ _ _ hlen.symm
      (by rw [hrows row (List.mem_of_getElem? hrow)]), Option.bind_some, hread.unpack]

theorem field_primitiveOf (kind : PackedKind) (c : List UInt8) (f : String) :
    (primitiveOf kind c).field f = none := by
  have hfloat : ∀ bits, (Value.ofFloat bits).field f = none := by
    intro bits
    unfold Value.ofFloat
    split <;> rfl
  cases kind with
  | float => exact hfloat _
  | f64 => exact hfloat _
  | _ => rfl

/-- The element a block holds is an object of the schema's shape, or a bare scalar. -/
theorem ReadsElement.field_eq (hwf : schema.Wf)
    (h : ReadsElement schema row v) (hrow : row.length = schema.byteSize) (f : String) :
    (schema.shape.bind (·.slotOf f) = none ∧ v.field f = none) ∨
      ∃ slot kind w, schema.shape.bind (·.slotOf f) = some slot ∧ schema.fields[slot]? = some kind ∧
        v.field f = some w ∧ Reads kind (chunk schema slot row) w := by
  cases schema with
  | mk shape fields byteSize column =>
    rw [PackedSchema.Wf.eq_def] at hwf
    cases shape with
    | none =>
      obtain ⟨⟨kind, rfl, hkind, rfl⟩, -⟩ := hwf
      have hread := @ReadsElement.of_scalar kind kind.byteWidth column row _
        (reads_primitive kind hkind row hrow) hrow
      have heq := h.unpack.symm.trans hread.unpack
      obtain rfl := Option.some.inj heq
      exact .inl ⟨rfl, field_primitiveOf kind row f⟩
    | some shape =>
      obtain ⟨hshape, rfl, hkinds⟩ := hwf
      obtain ⟨vs, hvs⟩ := readsFields_total fields hkinds row hrow
      have heq := h.unpack.symm.trans (ReadsElement.of_fields hvs).unpack
      obtain rfl := Option.some.inj heq
      cases hslot : shape.slotOf f with
      | none => exact .inl ⟨hslot, by simp [Value.field, hslot]⟩
      | some slot =>
        have hlt : slot < fields.length := by
          rw [Shape.slotOf] at hslot
          rw [← hshape]
          exact (List.findIdx?_eq_some_iff_findIdx_eq.1 hslot).1
        have hkind := List.getElem?_eq_getElem hlt
        obtain ⟨w, hw, hreads⟩ := hvs.slot hkinds hrow slot _ hkind
        refine .inr ⟨slot, _, w, hslot, hkind, by simp [Value.field, hslot, hw], ?_⟩
        rw [chunk, widthAt_of_getElem? hkind]
        exact hreads

theorem Holds.field (h : Holds handle schema l elems) (hwf : schema.Wf)
    (hpos : 0 < schema.byteSize) (i : Nat) (f : String) :
    packedField l i f = some (elems[i]?.bind (·.field f)) := by
  obtain ⟨hcount, -⟩ := h.items hwf hpos
  obtain ⟨-, rfl, rows, hrows, hbytes, hreads⟩ := h
  have hsized := sized_of_wf hwf
  rw [packedField, hcount]
  by_cases hi : i < elems.length
  · simp only [ge_iff_le, Nat.not_le.2 hi, if_false]
    obtain ⟨row, hrow, hread⟩ := forall₂_getElem? hreads (List.getElem?_eq_getElem hi)
    have hsize := hrows row (List.mem_of_getElem? hrow)
    rw [List.getElem?_eq_getElem hi, Option.bind_some]
    obtain ⟨hnone, hfield⟩ | ⟨slot, kind, w, hslot, hkind, hfield, hw⟩ := hread.field_eq hwf hsize f
    · simp only [hnone, hfield]
    · obtain ⟨hlt, -⟩ := List.getElem?_eq_some_iff.1 hkind
      have hslice := slice?_field hsized hrows hrow hlt
      rw [widthAt_of_getElem? hkind] at hslice
      have hdecode := hw [] []
      simp only [List.nil_append, List.append_nil, List.length_nil] at hdecode
      simp only [hslot, hkind, hfield]
      rw [hbytes, ← hreads.length_eq, hslice, Option.bind_some, decodePackedField_eq, hdecode]
      rfl
  · rw [if_pos (by omega), List.getElem?_eq_none (by omega)]
    rfl

theorem Holds.observes (h : Holds handle schema l elems) (hwf : schema.Wf)
    (hpos : 0 < schema.byteSize) : Observes l elems := by
  obtain ⟨hcount, hitems⟩ := h.items hwf hpos
  refine ⟨hcount, ?_, hitems, h.get hwf hpos, h.field hwf hpos⟩
  obtain ⟨-, rfl, rows, hrows, hbytes, hreads⟩ := h
  rw [hcount, hbytes, length_layout (sized_of_wf hwf) hrows, hreads.length_eq]

/-! ### Operations -/

theorem Holds.with_bytes (h : Holds handle schema l elems) {rows' : List (List UInt8)}
    {elems' : List Value} (hrows : Rows schema rows')
    (hreads : List.Forall₂ (ReadsElement schema) rows' elems') :
    Holds handle schema { l with bytes := layout schema rows' } elems' :=
  ⟨h.handle_eq, h.schema_eq, rows', hrows, rfl, hreads⟩

theorem Holds.push (h : Holds handle schema l elems) (hwf : schema.Wf) (hpos : 0 < schema.byteSize)
    (hv : HasType schema v) :
    ∃ l', packedPush l v = some (true, l') ∧ Holds handle schema l' (elems ++ [v]) := by
  obtain ⟨row, hpack, hlen, hread⟩ := packElement_reads schema hwf v hv
  have hsized := sized_of_wf hwf
  have hschema := h.schema_eq
  obtain ⟨rows, hrows, hbytes, hreads⟩ := h.rows
  have hrows' : Rows schema (rows ++ [row]) := by
    intro r hr
    obtain hr | hr := List.mem_append.1 hr
    · exact hrows r hr
    · rw [List.mem_singleton.1 hr]
      exact hlen
  refine ⟨_, ?_, h.with_bytes hrows' (List.rel_append hreads (.cons hread .nil))⟩
  rw [packedPush, hschema, hpack]
  cases hcolumn : schema.column with
  | true =>
    simp only [if_true, hbytes, layout_column hcolumn]
    rw [columnAppend_columns hsized hrows hpos hlen]
    rfl
  | false =>
    simp [hbytes, layout_row hcolumn]

theorem setBytes_layout (hwf : schema.Wf) (hpos : 0 < schema.byteSize) (hrows : Rows schema rows)
    (hrow : row.length = schema.byteSize) (hi : i < rows.length) :
    setBytes schema (layout schema rows) i row = some (layout schema (rows.set i row)) := by
  have hsized := sized_of_wf hwf
  rw [setBytes]
  cases hcolumn : schema.column with
  | true =>
    simp only [if_true, layout_column hcolumn]
    rw [count_columns hsized hrows hpos, columnSet_columns hsized hcolumn hrows hrow hi]
  | false =>
    simp only [Bool.false_eq_true, if_false, layout_row hcolumn]
    have hold := List.getElem?_eq_getElem hi
    have hnew : (rows.set i row)[i]? = some row := by simp [hi]
    obtain ⟨hsplit, hlen⟩ := rows_split hrows hold
    obtain ⟨hsplit', -⟩ := rows_split (hrows.set hrow i) hnew
    rw [List.take_set_of_le (Nat.le_refl i), List.drop_set_of_lt (Nat.lt_succ_self i)] at hsplit'
    have hsize := hrows _ (List.mem_of_getElem? hold)
    rw [hsplit', hsplit, write?_block _ _ _ row _ _ hlen.symm (by rw [hsize])
      (by rw [hrow, hsize])]

theorem Holds.set (h : Holds handle schema l elems) (hwf : schema.Wf) (hpos : 0 < schema.byteSize)
    (hv : HasType schema v) (hi : i < elems.length) :
    ∃ l', packedSet l i v = some (some l') ∧ packedSetInPlace l i v = some (true, l') ∧
      Holds handle schema l' (elems.set i v) := by
  obtain ⟨row, hpack, hlen, hread⟩ := packElement_reads schema hwf v hv
  have hschema := h.schema_eq
  obtain ⟨rows, hrows, hbytes, hreads⟩ := h.rows
  have hset := setBytes_layout hwf hpos hrows hlen (hreads.length_eq ▸ hi)
  refine ⟨{ l with bytes := layout schema (rows.set i row) }, ?_, ?_,
    h.with_bytes (hrows.set hlen i) (forall₂_set hreads hread i)⟩
  · simp only [packedSet, hschema, hpack, hbytes, hset, Option.map_some]
  · simp only [packedSetInPlace, hschema, hpack, hbytes, hset, Option.map_some]

theorem Holds.concat {r : PackedList} {more : List Value} (h : Holds handle schema l elems)
    (hr : Holds handle schema r more) (hwf : schema.Wf) (hpos : 0 < schema.byteSize) :
    ∃ l', packedConcat l r = some (some l') ∧ packedExtendInPlace l r = some (true, l') ∧
      Holds handle schema l' (elems ++ more) := by
  have hsized := sized_of_wf hwf
  have hschema := h.schema_eq
  have hhandle : l.handle = r.handle := h.handle_eq.trans hr.handle_eq.symm
  obtain ⟨rows, hrows, hbytes, hreads⟩ := h.rows
  obtain ⟨rows', hrows', hbytes', hreads'⟩ := hr.rows
  have hboth : Rows schema (rows ++ rows') := by
    intro row hrow
    obtain hrow | hrow := List.mem_append.1 hrow
    · exact hrows row hrow
    · exact hrows' row hrow
  have hconcat : concatBytes schema (layout schema rows) (layout schema rows') =
      some (layout schema (rows ++ rows')) := by
    rw [concatBytes]
    cases hcolumn : schema.column with
    | true =>
      simp only [if_true, layout_column hcolumn]
      exact columnConcat_columns hsized hrows hrows' hpos
    | false => simp [layout_row hcolumn]
  refine ⟨{ l with bytes := layout schema (rows ++ rows') }, ?_, ?_,
    h.with_bytes hboth (List.rel_append hreads hreads')⟩
  · simp only [packedConcat, hhandle, hschema, hbytes, hbytes', hconcat, if_true, Option.map_some]
  · simp only [packedExtendInPlace, hhandle, hschema, hbytes, hbytes', hconcat, if_true,
      Option.map_some]

theorem exists_picks (hreads : List.Forall₂ (ReadsElement schema) rows elems)
    {picked : List Value} (h : List.Forall₂ (fun i v => elems[i]? = some v) indices picked) :
    ∃ picks, List.Forall₂ (fun i row => rows[i]? = some row) indices picks ∧
      List.Forall₂ (ReadsElement schema) picks picked := by
  induction h with
  | nil => exact ⟨[], .nil, .nil⟩
  | cons hv _ ih =>
    obtain ⟨picks, hpicks, hread⟩ := ih
    obtain ⟨row, hrow, hrowRead⟩ := forall₂_getElem? hreads hv
    exact ⟨row :: picks, .cons hrow hpicks, .cons hrowRead hread⟩

theorem selectRow_loop (hrows : Rows schema rows) {picks : List (List UInt8)}
    (h : List.Forall₂ (fun i row => rows[i]? = some row) indices picks) : ∀ out,
    indices.foldlM (selectRow rows.flatten schema.byteSize) out = some (out ++ picks.flatten) := by
  induction h with
  | nil =>
    intro out
    simp
  | @cons i row indices picks hrow _ ih =>
    intro out
    obtain ⟨hsplit, hlen⟩ := rows_split hrows hrow
    have hround : selectRow rows.flatten schema.byteSize out i = some (out ++ row) := by
      rw [selectRow, hsplit, slice?_block _ row _ _ _ hlen.symm
        (by rw [hrows row (List.mem_of_getElem? hrow)]), Option.map_some]
    rw [List.foldlM_cons, hround, Option.bind_eq_bind, Option.bind_some, ih, List.flatten_cons,
      List.append_assoc]

theorem Holds.select (h : Holds handle schema l elems) (hwf : schema.Wf)
    (hpos : 0 < schema.byteSize) {picked : List Value}
    (hpicked : indices.mapM (fun i => elems[i]?) = some picked) :
    ∃ l', packedSelect l indices = some l' ∧ Holds handle schema l' picked := by
  have hsized := sized_of_wf hwf
  have hschema := h.schema_eq
  obtain ⟨rows, hrows, hbytes, hreads⟩ := h.rows
  obtain ⟨picks, hpicks, hread⟩ := exists_picks hreads ((mapM_eq_some_iff _ _ _).1 hpicked)
  have hpick : Picks rows indices picks := by
    refine ⟨hpicks.length_eq.symm, fun j i hj => ?_⟩
    obtain ⟨row, hrow, hi⟩ := forall₂_getElem? hpicks.flip hj
    exact ⟨row, hi, hrow⟩
  refine ⟨_, ?_, h.with_bytes (hpick.rows hrows) hread⟩
  rw [packedSelect, hschema, hbytes]
  cases hcolumn : schema.column with
  | true =>
    simp only [if_true, layout_column hcolumn]
    rw [count_columns hsized hrows hpos, columnSelect_columns hsized hcolumn hrows hpick]
    rfl
  | false =>
    simp only [Bool.false_eq_true, if_false, layout_row hcolumn]
    rw [selectRow_loop hrows hpicks, Option.map_some, List.nil_append]

end

theorem holds_new (hwf : schema.Wf) (hpos : 0 < schema.byteSize) (handle : Nat) {bytes : List UInt8}
    (hwhole : bytes.length % schema.byteSize = 0)
    (hitems : packedItems ⟨handle, schema, bytes⟩ = some elems) :
    Holds handle schema ⟨handle, schema, bytes⟩ elems := by
  have hlen : bytes.length = bytes.length / schema.byteSize * schema.byteSize :=
    (Nat.div_mul_cancel (Nat.dvd_of_mod_eq_zero hwhole)).symm
  obtain ⟨rows, hrows, -, rfl⟩ := exists_layout (sized_of_wf hwf) hlen
  have hall : ∃ elems', List.Forall₂ (ReadsElement schema) rows elems' := by
    clear hwhole hlen hitems
    induction rows with
    | nil => exact ⟨[], .nil⟩
    | cons row rows ih =>
      obtain ⟨v, hv⟩ := readsElement_total schema hwf row (hrows row (by simp))
      obtain ⟨vs, hvs⟩ := ih fun r hr => hrows r (by simp [hr])
      exact ⟨v :: vs, .cons hv hvs⟩
  obtain ⟨elems', hreads⟩ := hall
  have hholds : Holds handle schema ⟨handle, schema, layout schema rows⟩ elems' :=
    ⟨rfl, rfl, rows, hrows, rfl, hreads⟩
  obtain rfl := Option.some.inj (hitems.symm.trans (hholds.items hwf hpos).2)
  exact hholds

/-! ### Runs -/

/-- An operation on packed lists and the same operation on ordinary ones: a new list has a whole
number of elements, and an element written is of the schema's type. -/
inductive SameOp (handle : Nat) (schema : PackedSchema) : Op (List UInt8) → Op (List Value) → Prop
  | new {bytes : List UInt8} {elems : List Value} (hwhole : bytes.length % schema.byteSize = 0)
      (hitems : packedItems ⟨handle, schema, bytes⟩ = some elems) :
      SameOp handle schema (.new bytes) (.new elems)
  | push (target : Nat) {v : Value} (hv : HasType schema v) :
      SameOp handle schema (.push target v) (.push target v)
  | set (source index : Nat) {v : Value} (hv : HasType schema v) :
      SameOp handle schema (.set source index v) (.set source index v)
  | setInPlace (target index : Nat) {v : Value} (hv : HasType schema v) :
      SameOp handle schema (.setInPlace target index v) (.setInPlace target index v)
  | concat (left right : Nat) : SameOp handle schema (.concat left right) (.concat left right)
  | extendInPlace (target other : Nat) :
      SameOp handle schema (.extendInPlace target other) (.extendInPlace target other)
  | select (source : Nat) (indices : List Nat) :
      SameOp handle schema (.select source indices) (.select source indices)

section

variable {handle : Nat} {store : List PackedList} {boxed boxed' : List (List Value)}

theorem stores_append (h : List.Forall₂ (Holds handle schema) store boxed) {l : PackedList}
    {elems : List Value} (hl : Holds handle schema l elems) :
    List.Forall₂ (Holds handle schema) (store ++ [l]) (boxed ++ [elems]) :=
  List.rel_append h (.cons hl .nil)

/-- One operation. -/
theorem step_holds (hwf : schema.Wf) (hpos : 0 < schema.byteSize)
    (h : List.Forall₂ (Holds handle schema) store boxed) {op : Op (List UInt8)}
    {op' : Op (List Value)} (hop : SameOp handle schema op op')
    (hstep : boxedStep boxed op' = some boxed') :
    ∃ store', packedStep handle schema store op = some store' ∧
      List.Forall₂ (Holds handle schema) store' boxed' := by
  cases hop with
  | new hwhole hitems =>
    obtain rfl := Option.some.inj hstep
    exact ⟨_, rfl, stores_append h (holds_new hwf hpos handle hwhole hitems)⟩
  | push target hv =>
    obtain ⟨elems, helems, rfl⟩ := Option.map_eq_some_iff.1 hstep
    obtain ⟨l, hl, hholds⟩ := forall₂_getElem? h helems
    obtain ⟨l', hpush, hl'⟩ := hholds.push hwf hpos hv
    refine ⟨store.set target l', ?_, forall₂_set h hl' target⟩
    simp only [packedStep, hl, Option.bind_some, hpush, answered, Option.map_some]
  | set source index hv =>
    obtain ⟨elems, helems, hset⟩ := Option.bind_eq_some_iff.1 hstep
    obtain ⟨l, hl, hholds⟩ := forall₂_getElem? h helems
    split at hset
    · rename_i hindex
      obtain rfl := Option.some.inj hset
      obtain ⟨l', hset', -, hl'⟩ := hholds.set hwf hpos hv hindex
      refine ⟨_, ?_, stores_append h hl'⟩
      simp only [packedStep, hl, Option.bind_some, hset', Option.join_some, Option.map_some]
    · simp at hset
  | setInPlace target index hv =>
    obtain ⟨elems, helems, hset⟩ := Option.bind_eq_some_iff.1 hstep
    obtain ⟨l, hl, hholds⟩ := forall₂_getElem? h helems
    split at hset
    · rename_i hindex
      obtain rfl := Option.some.inj hset
      obtain ⟨l', -, hset', hl'⟩ := hholds.set hwf hpos hv hindex
      refine ⟨store.set target l', ?_, forall₂_set h hl' target⟩
      simp only [packedStep, hl, Option.bind_some, hset', answered, Option.map_some]
    · simp at hset
  | concat left right =>
    obtain ⟨elems, helems, hright⟩ := Option.bind_eq_some_iff.1 hstep
    obtain ⟨more, hmore, rfl⟩ := Option.map_eq_some_iff.1 hright
    obtain ⟨l, hl, hholds⟩ := forall₂_getElem? h helems
    obtain ⟨r, hr, hholds'⟩ := forall₂_getElem? h hmore
    obtain ⟨l', hconcat, -, hl'⟩ := hholds.concat hholds' hwf hpos
    refine ⟨_, ?_, stores_append h hl'⟩
    simp only [packedStep, hl, hr, Option.bind_some, hconcat, Option.join_some, Option.map_some]
  | extendInPlace target other =>
    obtain ⟨elems, helems, hother⟩ := Option.bind_eq_some_iff.1 hstep
    obtain ⟨more, hmore, rfl⟩ := Option.map_eq_some_iff.1 hother
    obtain ⟨l, hl, hholds⟩ := forall₂_getElem? h helems
    obtain ⟨r, hr, hholds'⟩ := forall₂_getElem? h hmore
    obtain ⟨l', -, hextend, hl'⟩ := hholds.concat hholds' hwf hpos
    refine ⟨store.set target l', ?_, forall₂_set h hl' target⟩
    simp only [packedStep, hl, hr, Option.bind_some, hextend, answered, Option.map_some]
  | select source indices =>
    obtain ⟨elems, helems, hselect⟩ := Option.bind_eq_some_iff.1 hstep
    obtain ⟨picked, hpicked, rfl⟩ := Option.map_eq_some_iff.1 hselect
    obtain ⟨l, hl, hholds⟩ := forall₂_getElem? h helems
    obtain ⟨l', hselect', hl'⟩ := hholds.select hwf hpos hpicked
    refine ⟨_, ?_, stores_append h hl'⟩
    simp only [packedStep, hl, Option.bind_some, hselect', Option.map_some]

theorem run_holds (hwf : schema.Wf) (hpos : 0 < schema.byteSize) {ops : List (Op (List UInt8))}
    {ops' : List (Op (List Value))} (hops : List.Forall₂ (SameOp handle schema) ops ops') :
    ∀ {store : List PackedList} {boxed boxed' : List (List Value)},
      List.Forall₂ (Holds handle schema) store boxed → ops'.foldlM boxedStep boxed = some boxed' →
      ∃ store', ops.foldlM (packedStep handle schema) store = some store' ∧
        List.Forall₂ (Holds handle schema) store' boxed' := by
  induction hops with
  | nil =>
    intro store boxed boxed' h hrun
    obtain rfl := Option.some.inj hrun
    exact ⟨store, rfl, h⟩
  | cons hop _ ih =>
    intro store boxed boxed' h hrun
    rw [List.foldlM_cons] at hrun
    obtain ⟨next, hstep, hrest⟩ := Option.bind_eq_some_iff.1 hrun
    obtain ⟨store', hstep', h'⟩ := step_holds hwf hpos h hop hstep
    obtain ⟨store'', hrest', h''⟩ := ih h' hrest
    refine ⟨store'', ?_, h''⟩
    rw [List.foldlM_cons, hstep', Option.bind_eq_bind, Option.bind_some, hrest']

end

/-- A schema with its list layout chosen. -/
def PackedSchema.inLayout (schema : PackedSchema) (column : Bool) : PackedSchema :=
  .mk schema.shape schema.fields schema.byteSize column

theorem inLayout_wf (hwf : schema.Wf) (column : Bool) : (schema.inLayout column).Wf := by
  cases schema with
  | mk shape fields byteSize c =>
    cases shape with
    | none =>
      rw [PackedSchema.Wf] at hwf
      rw [PackedSchema.inLayout, PackedSchema.shape, PackedSchema.Wf]
      exact hwf
    | some shape =>
      rw [PackedSchema.Wf] at hwf
      rw [PackedSchema.inLayout, PackedSchema.shape, PackedSchema.Wf]
      exact hwf

/-- Two packed lists that no observation tells apart. -/
def Indistinct (l r : PackedList) : Prop :=
  l.bytes.length = r.bytes.length ∧ packedItems l = packedItems r ∧
    (∀ i, i < l.schema.count l.bytes.length → packedGet l i = packedGet r i) ∧
    ∀ i f, packedField l i f = packedField r i f

theorem Observes.indistinct {l r : PackedList} (hl : Observes l elems)
    (hr : Observes r elems) (hsize : l.schema.byteSize = r.schema.byteSize) : Indistinct l r := by
  refine ⟨?_, hl.items.trans hr.items.symm, fun i hi => ?_, fun i f => ?_⟩
  · rw [hl.length, hr.length, hl.count, hr.count, hsize]
  · rw [hl.count] at hi
    rw [hl.get i hi, hr.get i hi]
  · rw [hl.field, hr.field]

theorem run_holds_layout (handle : Nat) (hwf : schema.Wf) (hpos : 0 < schema.byteSize)
    {ops' : List (Op (List Value))} {boxed : List (List Value)} (hrun : boxedRun ops' = some boxed)
    (column : Bool) {ops : List (Op (List UInt8))}
    (hops : List.Forall₂ (SameOp handle (schema.inLayout column)) ops ops') :
    ∃ packed, packedRun handle (schema.inLayout column) ops = some packed ∧
      List.Forall₂ (fun l elems => Observes l elems ∧ l.schema.byteSize = schema.byteSize)
        packed boxed := by
  have hwf' := inLayout_wf hwf column
  obtain ⟨packed, hpacked, hholds⟩ := run_holds hwf' hpos hops .nil hrun
  refine ⟨packed, hpacked, hholds.imp fun l elems h => ⟨h.observes hwf' hpos, ?_⟩⟩
  rw [h.schema_eq]
  rfl

/-- A run on packed lists of any schema, in either layout, succeeds where the same run on ordinary
lists does, and ends with lists that show exactly the elements of the ordinary ones; so two runs that
differ in the layout end with lists that no observation tells apart. -/
theorem packedRun_observes (handle : Nat) (schema : PackedSchema) (hwf : schema.Wf)
    (hpos : 0 < schema.byteSize) (ops' : List (Op (List Value))) (boxed : List (List Value))
    (hrun : boxedRun ops' = some boxed) :
    (∀ column ops, List.Forall₂ (SameOp handle (schema.inLayout column)) ops ops' →
      ∃ packed, packedRun handle (schema.inLayout column) ops = some packed ∧
        List.Forall₂ Observes packed boxed) ∧
    ∀ rowOps columnOps, List.Forall₂ (SameOp handle (schema.inLayout false)) rowOps ops' →
      List.Forall₂ (SameOp handle (schema.inLayout true)) columnOps ops' →
      ∃ rows columns, packedRun handle (schema.inLayout false) rowOps = some rows ∧
        packedRun handle (schema.inLayout true) columnOps = some columns ∧
        List.Forall₂ Indistinct rows columns := by
  refine ⟨fun column ops hops => ?_, fun rowOps columnOps hrow hcolumn => ?_⟩
  · obtain ⟨packed, hpacked, h⟩ := run_holds_layout handle hwf hpos hrun column hops
    exact ⟨packed, hpacked, h.imp fun _ _ hl => hl.1⟩
  · obtain ⟨rows, hrows, h⟩ := run_holds_layout handle hwf hpos hrun false hrow
    obtain ⟨columns, hcolumns, h'⟩ := run_holds_layout handle hwf hpos hrun true hcolumn
    refine ⟨rows, columns, hrows, hcolumns, ?_⟩
    rw [List.forall₂_iff_get] at h h' ⊢
    refine ⟨h.1.trans h'.1.symm, fun i hi hi' => ?_⟩
    obtain ⟨hl, hsize⟩ := h.2 i hi (h.1 ▸ hi)
    obtain ⟨hr, hsize'⟩ := h'.2 i hi' (h.1 ▸ hi)
    exact hl.indistinct hr (hsize.trans hsize'.symm)

/-- A struct of an `i8` and a nested struct of a `bool` and an `f32`. -/
def pixelSchema : PackedSchema :=
  .mk (some ⟨"Pixel", ["level", "ink"]⟩)
    [.intN 8 true, .struct (.mk (some ⟨"Ink", ["on", "shade"]⟩) [.bool, .f32] 5 false)] 6 false

def pixel (level : BitVec 64) (on : Bool) (shade : BitVec 32) : Value :=
  .object ⟨"Pixel", ["level", "ink"]⟩
    [.int level, .object ⟨"Ink", ["on", "shade"]⟩ [.bool on, .f32 shade]]

/-- Two pixels are pushed on an empty list, one is overwritten, and the list is reversed. -/
theorem packedRun_observes_pixels :
    pixelSchema.Wf ∧ 0 < pixelSchema.byteSize ∧
    boxedRun [.new [], .push 0 (pixel (-1) true 7), .push 0 (pixel 5 false 9),
      .set 0 1 (pixel (-128) true 3), .select 1 [1, 0]] =
      some [[pixel (-1) true 7, pixel 5 false 9], [pixel (-1) true 7, pixel (-128) true 3],
        [pixel (-128) true 3, pixel (-1) true 7]] ∧
    ∃ packed, packedRun 0 (pixelSchema.inLayout true)
      [.new [], .push 0 (pixel (-1) true 7), .push 0 (pixel 5 false 9),
        .set 0 1 (pixel (-128) true 3), .select 1 [1, 0]] = some packed ∧
      List.Forall₂ Observes packed [[pixel (-1) true 7, pixel 5 false 9],
        [pixel (-1) true 7, pixel (-128) true 3], [pixel (-128) true 3, pixel (-1) true 7]] := by
  have hwf : pixelSchema.Wf := by
    simp [pixelSchema, PackedSchema.Wf, KindsWf, PackedKind.Wf, PackedKind.byteWidth,
      PackedSchema.byteSize]
  have htype : ∀ level on shade, -2 ^ 7 ≤ level.toInt ∧ level.toInt < 2 ^ 7 →
      HasType (pixelSchema.inLayout true) (pixel level on shade) := by
    intro level on shade hlevel
    simpa [pixelSchema, pixel, PackedSchema.inLayout, PackedSchema.shape, PackedSchema.fields,
      HasType, HaveTypes, HasKind, HasPrimitive] using hlevel
  have hpos : 0 < pixelSchema.byteSize := by decide
  have hrun : boxedRun [.new [], .push 0 (pixel (-1) true 7), .push 0 (pixel 5 false 9),
      .set 0 1 (pixel (-128) true 3), .select 1 [1, 0]] =
      some [[pixel (-1) true 7, pixel 5 false 9], [pixel (-1) true 7, pixel (-128) true 3],
        [pixel (-128) true 3, pixel (-1) true 7]] := rfl
  refine ⟨hwf, hpos, hrun, (packedRun_observes 0 pixelSchema hwf hpos _ _ hrun).1 true _ ?_⟩
  refine .cons (.new rfl rfl) (.cons (.push 0 (htype _ _ _ (by decide))) (.cons
    (.push 0 (htype _ _ _ (by decide))) (.cons (.set 0 1 (htype _ _ _ (by decide)))
    (.cons (.select 1 [1, 0]) .nil))))

end Noeta.Packed
