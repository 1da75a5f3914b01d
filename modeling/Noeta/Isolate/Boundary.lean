import Noeta.Isolate.RoundTrip
import Noeta.Lib.Slices

/-!
# What a copy keeps

Read off `Copies`: a copy marshals to the wire it was rebuilt from, compares to the original as the original compares to
itself, and keeps the order of every set. An accepted graph holds no class instance wherever the walk goes, which is
everywhere unless two keys of a map show the same text.
-/

namespace Noeta.Isolate

open Lib (F64 lastAt Increasing)

variable {X B C : Type} [ExternValue X] {names : String → Option (List String)} {table : ShapeTable}
  {src dst : List (Channel C)}

/-! ### The string view of a copied map -/

section Maps

variable {entries : List (MapKey X × Value X B)} {ys : List (Value X B)}

/-- The entries of the copy of a map, in key order. -/
def copied (names : String → Option (List String)) (entries : List (MapKey X × Value X B))
    (ys : List (Value X B)) : List (String × Value X B) :=
  ((mapEntries names entries).map Prod.fst).zip ys

theorem map_fst_copied (h : (mapEntries names entries).length = ys.length) :
    (copied names entries ys).map Prod.fst = (mapEntries names entries).map Prod.fst :=
  List.map_fst_zip (by rw [List.length_map, h])

theorem map_snd_copied (h : (mapEntries names entries).length = ys.length) :
    (copied names entries ys).map Prod.snd = ys :=
  List.map_snd_zip (by rw [List.length_map, h])

theorem increasing_copied (h : (mapEntries names entries).length = ys.length) :
    Increasing (copied names entries ys) := by
  rw [Lib.increasing_iff, map_fst_copied h]
  exact Lib.increasing_iff.1 (increasing_mapEntries names entries)

theorem mapEntries_copied (h : (mapEntries names entries).length = ys.length) :
    mapEntries names ((copied names entries ys).map fun e => ((.str e.1 : MapKey X), e.2)) =
      copied names entries ys :=
  mapEntries_str names (increasing_copied h)

theorem lastAt_copied {R : Value X B → Value X B → Prop}
    (h : List.Forall₂ R ((mapEntries names entries).map Prod.snd) ys) {e : String × Value X B}
    (he : e ∈ mapEntries names entries) :
    ∃ y, lastAt e.1 (copied names entries ys) = some y ∧ R e.2 y := by
  have hlen : (mapEntries names entries).length = ys.length := by
    rw [← h.length_eq, List.length_map]
  obtain ⟨i, hi, rfl⟩ := List.getElem_of_mem he
  refine ⟨ys[i], ?_, ?_⟩
  · apply Lib.lastAt_of_nodup (increasing_copied hlen).nodup
    rw [List.mem_iff_getElem]
    refine ⟨i, ?_, ?_⟩
    · simpa [copied, ← hlen] using hi
    · simp [copied]
  · have := h.get (i := i) (by simpa using hi) (by omega)
    simpa using this

end Maps

/-! ### The wire of a copy -/

theorem marshalEach_congr {vs rs : List (Value X B)} (h : List.Forall₂ (fun v r => ∀ w : Wire B C,
    marshal names table src v = .ok w → marshal names table dst r = .ok w) vs rs) {ws : List (Wire B C)}
    (hws : marshalEach names table src vs = .ok ws) : marshalEach names table dst rs = .ok ws := by
  induction h generalizing ws with
  | nil => exact hws
  | cons hvr _ ih =>
    obtain ⟨w, ws', hw, hws', rfl⟩ := marshalEach_cons_eq_ok.1 hws
    exact marshalEach_cons_eq_ok.2 ⟨w, ws', hvr w hw, ih hws', rfl⟩

variable {v : Value X B} {w : Wire B C} {entries : List (MapKey X × Value X B)}

theorem marshal_plain (h : v.Plain) : marshal names table src v = marshal names table dst v := by
  cases v with
  | closure proto upvalues =>
    obtain rfl := h
    rfl
  | unit | bool | int | float | f32 | str | bytes | nativeFn | nativeModule | moduleFn | methodHandle => rfl
  | _ => exact h.elim

/-- A copy marshals, in its own VM, to the wire of the original: the same values under the same shapes at the same
places, and at each endpoint the same core. -/
theorem Copies.marshal_eq {v r : Value X B} (h : Copies names src dst v r)
    (hw : marshal names table src v = .ok w) : marshal names table dst r = .ok w := by
  induction v using Value.induction_children generalizing r w with
  | h v ih =>
    have each : ∀ {vs rs : List (Value X B)} {ws : List (Wire B C)}, (∀ u ∈ vs, u ∈ v.children) →
        List.Forall₂ (Copies names src dst) vs rs → marshalEach names table src vs = .ok ws →
        marshalEach names table dst rs = .ok ws := fun hvs h hws =>
      marshalEach_congr (forall₂_of_mem (fun u hu _ hcopy _ => ih u (hvs u hu) hcopy) h) hws
    cases h with
    | plain h =>
      have hplain : marshal names table src v = marshal names table dst v := marshal_plain h
      rw [← hplain, hw]
    | list h | tuple h | set h =>
      obtain ⟨ws, hws, rfl⟩ := map_eq_ok.1 hw
      exact map_eq_ok.2 ⟨ws, each (fun _ hu => hu) h hws, rfl⟩
    | @map entries ys h =>
      have hlen : (mapEntries names entries).length = ys.length := by
        rw [← h.length_eq, List.length_map]
      have hmem : ∀ u ∈ (mapEntries names entries).map Prod.snd, u ∈ (Value.map entries).children := by
        intro u hu
        obtain ⟨e, he, rfl⟩ := List.mem_map.1 hu
        exact mem_children_of_mapEntries names he
      rw [marshal_map] at hw
      obtain ⟨ws, hws, rfl⟩ := map_eq_ok.1 hw
      change marshal names table dst (.map ((copied names entries ys).map _)) = _
      rw [marshal_map, mapEntries_copied hlen, map_fst_copied hlen, map_snd_copied hlen,
        each hmem h hws]
      rfl
    | object hkind h =>
      rw [marshal, if_neg hkind] at hw ⊢
      split at hw
      · simp at hw
      · obtain ⟨ws, hws, rfl⟩ := map_eq_ok.1 hw
        exact map_eq_ok.2 ⟨ws, each (fun _ hu => hu) h hws, rfl⟩
    | enum h =>
      rw [marshal] at hw ⊢
      split at hw
      · simp at hw
      · obtain ⟨ws, hws, rfl⟩ := map_eq_ok.1 hw
        exact map_eq_ok.2 ⟨ws, each (fun _ hu => hu) h hws, rfl⟩
    | boundMethod h =>
      obtain ⟨w', hw', rfl⟩ := map_eq_ok.1 hw
      exact map_eq_ok.2 ⟨w', ih _ (List.mem_singleton_self _) h hw', rfl⟩
    | sender hsrc hdst | receiver hsrc hdst =>
      rw [marshal, hsrc] at hw
      rw [marshal, hdst, hw]

/-! ### Equality with a copy -/

section Equality

variable [DecidableEq B]

theorem slicesEqual_congr {vs rs : List (Value X B)}
    (h : List.Forall₂ (fun v r => valuesEqual names v r = valuesEqual names v v) vs rs) :
    slicesEqual names vs rs = slicesEqual names vs vs := by
  induction h with
  | nil => rfl
  | cons hvr _ ih => rw [slicesEqual, slicesEqual, hvr, ih]

theorem comparisons_eq (entries : List (MapKey X × Value X B)) :
    comparisons names entries = entries.map fun e => (e.1, valuesEqual names e.2) := by
  induction entries with
  | nil => rfl
  | cons e entries ih => rw [List.map_cons, comparisons, ih]

theorem valuesEqual_map (entries entries' : List (MapKey X × Value X B)) :
    valuesEqual names (.map entries) (.map entries') =
      ((mapEntries names entries).length == (mapEntries names entries').length &&
        (mapEntries names entries).all fun e =>
          (lastAt e.1 (mapEntries names entries')).any (valuesEqual names e.2)) := by
  rw [valuesEqual]
  simp only [comparisons_eq, mapEntries_map, List.length_map, List.all_map]
  rfl

/-- A copy compares to the original as the original does to itself. -/
theorem Copies.valuesEqual_eq {v r : Value X B} (h : Copies names src dst v r) :
    valuesEqual names v r = valuesEqual names v v := by
  induction v using Value.induction_children generalizing r with
  | h v ih =>
    have each : ∀ {vs rs : List (Value X B)}, (∀ u ∈ vs, u ∈ v.children) →
        List.Forall₂ (Copies names src dst) vs rs →
        slicesEqual names vs rs = slicesEqual names vs vs := fun hvs h =>
      slicesEqual_congr (forall₂_of_mem (fun u hu _ hcopy => ih u (hvs u hu) hcopy) h)
    cases h with
    | plain h => rfl
    | list h | tuple h | set h => exact each (fun _ hu => hu) h
    | @map entries ys h =>
      have hlen : (mapEntries names entries).length = ys.length := by
        rw [← h.length_eq, List.length_map]
      change valuesEqual names _ (.map ((copied names entries ys).map _)) = _
      rw [valuesEqual_map, valuesEqual_map, mapEntries_copied hlen]
      have hcount : (copied names entries ys).length = (mapEntries names entries).length := by
        rw [← List.length_map (f := Prod.fst), map_fst_copied hlen, List.length_map]
      rw [hcount]
      congr 1
      rw [Bool.eq_iff_iff, List.all_eq_true, List.all_eq_true]
      apply forall₂_congr
      intro e he
      obtain ⟨y, hy, hcopy⟩ := lastAt_copied h he
      have hself : lastAt e.1 (mapEntries names entries) = some e.2 :=
        Lib.lastAt_of_nodup (increasing_mapEntries names entries).nodup he
      rw [hy, hself, Option.any_some, Option.any_some,
        ih e.2 (mem_children_of_mapEntries names he) hcopy]
    | @object a a' s xs ys hkind h =>
      have hslots : slicesEqual names xs ys = slicesEqual names xs xs := each (fun _ hu => hu) h
      simp only [valuesEqual, s.structural_of_value hkind, if_true, hslots]
    | @enum s xs ys h =>
      have hdata : slicesEqual names xs ys = slicesEqual names xs xs := each (fun _ hu => hu) h
      simp only [valuesEqual, hdata]
    | boundMethod h => simp only [valuesEqual, ih _ (List.mem_singleton_self _) h]
    | sender => rfl
    | receiver => rfl

end Equality

/-! ### What occurs in a copy -/

theorem Copies.exists_child {v r c : Value X B} (h : Copies names src dst v r) (hc : c ∈ r.children) :
    ∃ u ∈ v.children, Copies names src dst u c := by
  cases h with
  | plain h =>
    cases v with
    | closure proto upvalues =>
      obtain rfl := h
      simp [Value.children] at hc
    | unit | bool | int | float | f32 | str | bytes | nativeFn | nativeModule | moduleFn | methodHandle =>
      simp [Value.children] at hc
    | _ => exact h.elim
  | list h | tuple h | set h | object _ h | enum h => exact Lib.forall₂_exists h hc
  | @map entries ys h =>
    have hlen : (mapEntries names entries).length = ys.length := by
      rw [← h.length_eq, List.length_map]
    change c ∈ (Value.map ((copied names entries ys).map _)).children at hc
    rw [Value.children, List.map_map] at hc
    have hmem : c ∈ ys := by
      rw [← map_snd_copied hlen]
      exact hc
    obtain ⟨u, hu, hcopy⟩ := Lib.forall₂_exists h hmem
    obtain ⟨e, he, rfl⟩ := List.mem_map.1 hu
    exact ⟨e.2, mem_children_of_mapEntries names he, hcopy⟩
  | @boundMethod v r method h =>
    obtain rfl := List.mem_singleton.1 hc
    exact ⟨v, List.mem_singleton_self _, h⟩
  | sender => simp [Value.children] at hc
  | receiver => simp [Value.children] at hc

theorem Copies.exists_inside {v r s : Value X B} (h : Copies names src dst v r) (hs : Inside s r) :
    ∃ u, Inside u v ∧ Copies names src dst u s := by
  induction hs generalizing v with
  | here => exact ⟨v, .here v, h⟩
  | child hc _ ih =>
    obtain ⟨u, hu, hcopy⟩ := h.exists_child hc
    obtain ⟨t, ht, hcopy⟩ := ih hcopy
    exact ⟨t, .child hu ht, hcopy⟩

/-! ### Keys -/

/-- Every map in the graph is keyed by strings, each of them once. -/
def StringKeyed (v : Value X B) : Prop :=
  ∀ entries, Inside (.map entries) v → ∃ rows : List (String × Value X B),
    (rows.map Prod.fst).Nodup ∧ entries = rows.map fun e => (.str e.1, e.2)

theorem Copies.exists_map {v r : Value X B} (h : Copies names src dst v r) (hr : Inside (.map entries) r) :
    ∃ entries', Inside (.map entries') v ∧
      entries.map Prod.fst = (mapEntries names entries').map fun e => .str e.1 := by
  obtain ⟨u, hu, hcopy⟩ := h.exists_inside hr
  cases hcopy with
  | plain h => exact h.elim
  | @map entries' ys h =>
    have hlen : (mapEntries names entries').length = ys.length := by
      rw [← h.length_eq, List.length_map]
    refine ⟨entries', hu, ?_⟩
    calc ((copied names entries' ys).map fun e => ((.str e.1 : MapKey X), e.2)).map Prod.fst
        = ((copied names entries' ys).map Prod.fst).map MapKey.str := by
          rw [List.map_map, List.map_map]
          rfl
      _ = ((mapEntries names entries').map Prod.fst).map MapKey.str := by rw [map_fst_copied hlen]
      _ = (mapEntries names entries').map fun e => .str e.1 := by
          rw [List.map_map]
          rfl

theorem perm_mapEntries_str {rows : List (String × Value X B)} (h : (rows.map Prod.fst).Nodup) :
    (mapEntries names (rows.map fun e => ((.str e.1 : MapKey X), e.2))).Perm rows := by
  rw [mapEntries, List.map_map]
  have hid : (fun e : String × Value X B => e) =
      (fun e : MapKey X × Value X B => (e.1.asNativeStr names, e.2)) ∘
        fun e : String × Value X B => ((.str e.1 : MapKey X), e.2) := rfl
  rw [← hid, List.map_id']
  exact Lib.perm_collect h

theorem Copies.keys {v r : Value X B} (h : Copies names src dst v r) (hv : StringKeyed v)
    (hr : Inside (.map entries) r) :
    ∃ entries', Inside (.map entries') v ∧ (entries'.map Prod.fst).Perm (entries.map Prod.fst) := by
  obtain ⟨entries', hin, hkeys⟩ := h.exists_map hr
  refine ⟨entries', hin, ?_⟩
  obtain ⟨rows, hnodup, rfl⟩ := hv entries' hin
  rw [hkeys, List.map_map]
  exact ((perm_mapEntries_str hnodup).symm.map _)

/-! ### Order -/

/-- Every set in the graph is in its canonical order. -/
def SetsOrdered (v : Value X B) : Prop :=
  ∀ items, Inside (.set items) v → items.Pairwise fun a b => comparePrimitive a b = some .lt

section Order

variable {v r v' r' : Value X B}

theorem Copies.asInt_eq (h : Copies names src dst v r) : r.asInt = v.asInt := by cases h <;> rfl

theorem Copies.asBool_eq (h : Copies names src dst v r) : r.asBool = v.asBool := by cases h <;> rfl

theorem Copies.asString_eq (h : Copies names src dst v r) : r.asString = v.asString := by
  cases h <;> rfl

theorem Copies.asExternal_eq (h : Copies names src dst v r) : r.asExternal = v.asExternal := by
  cases h <;> rfl

theorem Copies.asF64_eq (h : Copies names src dst v r) : r.asF64 = v.asF64 := by cases h <;> rfl

theorem Copies.shape_eq (h : Copies names src dst v r) : r.shape = v.shape := by cases h <;> rfl

theorem Copies.slots_cases (h : Copies names src dst v r) :
    (v.slots = none ∧ r.slots = none) ∨
      ∃ xs ys, v.slots = some xs ∧ r.slots = some ys ∧ List.Forall₂ (Copies names src dst) xs ys := by
  cases h with
  | plain h =>
    cases v with
    | object => exact h.elim
    | _ => exact Or.inl ⟨rfl, rfl⟩
  | object _ h => exact Or.inr ⟨_, _, rfl, rfl, h⟩
  | _ => exact Or.inl ⟨rfl, rfl⟩

theorem slotsCmp_congr {s : Shape} {vs rs vs' rs' : List (Value X B)}
    (h : List.Forall₂ (fun v r => Copies names src dst v r ∧ ∀ {v' r' : Value X B},
      Copies names src dst v' r' → packedPrimitiveCmp r r' = packedPrimitiveCmp v v') vs rs)
    (h' : List.Forall₂ (Copies names src dst) vs' rs') (i : Nat) :
    slotsCmp s i rs rs' = slotsCmp s i vs vs' := by
  induction h generalizing vs' rs' i with
  | nil => cases h' <;> rfl
  | cons hvr _ ih =>
    cases h' with
    | nil => rfl
    | cons hvr' hrest =>
      rw [slotsCmp, slotsCmp, hvr.1.asBool_eq, hvr'.asBool_eq, hvr.1.asInt_eq, hvr'.asInt_eq,
        hvr.2 hvr', ih hrest]

theorem Copies.packedPrimitiveCmp_eq (h : Copies names src dst v r) (h' : Copies names src dst v' r') :
    packedPrimitiveCmp r r' = packedPrimitiveCmp v v' := by
  induction v using Value.induction_children generalizing r v' r' with
  | h v ih =>
    cases h with
    | plain h =>
      cases v with
      | object | enum => exact h.elim
      | _ => rfl
    | @object a a' s xs ys _ h =>
      have hxs : ∀ vs' rs', List.Forall₂ (Copies names src dst) vs' rs' →
          slotsCmp s 0 ys rs' = slotsCmp s 0 xs vs' := fun vs' rs' hslots =>
        slotsCmp_congr (forall₂_of_mem (fun u hu _ hcopy => ⟨hcopy, ih u hu hcopy⟩) h) hslots 0
      rw [packedPrimitiveCmp, packedPrimitiveCmp, h'.shape_eq]
      rcases h'.slots_cases with ⟨hv, hr⟩ | ⟨xs', ys', hv, hr, hslots⟩
      · rw [hv, hr]
        rfl
      · rw [hv, hr, Option.bind_some, Option.bind_some, hxs _ _ hslots]
    | enum => rw [packedPrimitiveCmp, packedPrimitiveCmp, h'.shape_eq]
    | _ => rfl

theorem Copies.comparePrimitive_eq (h : Copies names src dst v r) (h' : Copies names src dst v' r') :
    comparePrimitive r r' = comparePrimitive v v' := by
  rw [comparePrimitive, comparePrimitive, h.asInt_eq, h'.asInt_eq, h.asString_eq, h'.asString_eq,
    h.asBool_eq, h'.asBool_eq, h.asExternal_eq, h'.asExternal_eq, h.asF64_eq, h'.asF64_eq,
    h.packedPrimitiveCmp_eq h']

theorem Copies.setsOrdered (h : Copies names src dst v r) (hv : SetsOrdered v) : SetsOrdered r := by
  intro items hitems
  obtain ⟨u, hu, hcopy⟩ := h.exists_inside hitems
  cases hcopy with
  | plain h => exact h.elim
  | @set xs _ hcopies =>
    have hpair := hv xs hu
    clear hu hitems
    induction hcopies with
    | nil => exact .nil
    | cons hxy hrest ih =>
      rw [List.pairwise_cons] at hpair ⊢
      refine ⟨fun y hy => ?_, ih hpair.2⟩
      obtain ⟨x, hx, hcopy⟩ := Lib.forall₂_exists hrest hy
      rw [hxy.comparePrimitive_eq hcopy]
      exact hpair.1 x hx

end Order

/-! ### What is accepted -/

variable (names) in
/-- No map in the graph has two keys of one text. -/
def TextsDistinct (v : Value X B) : Prop :=
  ∀ entries, Inside (.map entries) v → (entries.map fun e => e.1.asNativeStr names).Nodup

theorem exists_marshal_of_mem {vs : List (Value X B)} {ws : List (Wire B C)}
    (h : marshalEach names table src vs = .ok ws) (hv : v ∈ vs) :
    ∃ w : Wire B C, marshal names table src v = .ok w := by
  induction vs generalizing ws with
  | nil => simp at hv
  | cons u vs ih =>
    obtain ⟨w, ws', hw, hws', -⟩ := marshalEach_cons_eq_ok.1 h
    rcases List.mem_cons.1 hv with rfl | hv
    · exact ⟨w, hw⟩
    · exact ih hws' hv

theorem mem_mapEntries_of_mem_children (h : (entries.map fun e => e.1.asNativeStr names).Nodup) {u : Value X B}
    (hu : u ∈ (Value.map entries).children) : u ∈ (mapEntries names entries).map Prod.snd := by
  obtain ⟨e, he, rfl⟩ := List.mem_map.1 hu
  have hrows : ((entries.map fun e => (e.1.asNativeStr names, e.2)).map Prod.fst).Nodup := by
    rw [List.map_map]
    exact h
  have hmem : (e.1.asNativeStr names, e.2) ∈ mapEntries names entries :=
    (Lib.perm_collect hrows).mem_iff.2 (List.mem_map.2 ⟨e, he, rfl⟩)
  exact List.mem_map.2 ⟨_, hmem, rfl⟩

/-- The walk of an accepted value has accepted what the value holds. -/
theorem exists_marshal_child {v u : Value X B} (h : marshal names table src v = .ok w)
    (hv : TextsDistinct names v) (hu : u ∈ v.children) :
    ∃ w : Wire B C, marshal names table src u = .ok w := by
  cases v with
  | list | tuple | set =>
    obtain ⟨ws, hws, -⟩ := map_eq_ok.1 h
    exact exists_marshal_of_mem hws hu
  | map entries =>
    rw [marshal_map] at h
    obtain ⟨ws, hws, -⟩ := map_eq_ok.1 h
    exact exists_marshal_of_mem hws (mem_mapEntries_of_mem_children (hv entries (.here _)) hu)
  | object address s slots =>
    rw [marshal] at h
    split_ifs at h
    split at h
    · simp at h
    · obtain ⟨ws, hws, -⟩ := map_eq_ok.1 h
      exact exists_marshal_of_mem hws hu
  | enum s data =>
    rw [marshal] at h
    split at h
    · simp at h
    · obtain ⟨ws, hws, -⟩ := map_eq_ok.1 h
      exact exists_marshal_of_mem hws hu
  | boundMethod recv method =>
    obtain ⟨w', hw', -⟩ := map_eq_ok.1 h
    obtain rfl := List.mem_singleton.1 hu
    exact ⟨w', hw'⟩
  | closure proto upvalues =>
    rw [marshal] at h
    split_ifs at h with hlen
    obtain rfl := List.eq_nil_of_length_eq_zero hlen
    simp [Value.children] at hu
  | packedList | external | other => simp [marshal] at h
  | unit | bool | int | float | f32 | str | bytes | nativeFn | nativeModule | moduleFn | methodHandle | sender
  | receiver => simp [Value.children] at hu

theorem exists_marshal_inside {u v : Value X B} (hu : Inside u v)
    (h : marshal names table src v = .ok w) (hv : TextsDistinct names v) :
    ∃ w : Wire B C, marshal names table src u = .ok w := by
  induction hu generalizing w with
  | here => exact ⟨w, h⟩
  | child hc _ ih =>
    obtain ⟨w', hw'⟩ := exists_marshal_child h hv hc
    exact ih hw' fun entries hin => hv entries (.child hc hin)

theorem marshal_refuses_class (hv : TextsDistinct names v) {address : Nat} {s : Shape}
    {slots : List (Value X B)} (hs : s.kind = .«class») (hin : Inside (.object address s slots) v) :
    ∃ e, marshal (C := C) names table src v = .error e := by
  cases h : marshal (C := C) names table src v with
  | error e => exact ⟨e, rfl⟩
  | ok w =>
    obtain ⟨w', hw'⟩ := exists_marshal_inside hin h hv
    simp [marshal, hs] at hw'

/-! ### The boundary -/

section Reflexive

variable [DecidableEq B]

/-- Not a NaN, nor one of the kinds that no rung of `==` compares. -/
def Value.EqualsItself : Value X B → Prop
  | .float f => f.1.isNaN = false
  | .f32 f => (F64.ofF32 f).isNaN = false
  | .closure _ _ | .sender _ | .receiver _ => False
  | _ => True

theorem slicesEqual_self {vs : List (Value X B)} (h : ∀ v ∈ vs, valuesEqual names v v = true) :
    slicesEqual names vs vs = true := by
  induction vs with
  | nil => rfl
  | cons v vs ih =>
    rw [List.forall_mem_cons] at h
    rw [slicesEqual, h.1, ih h.2, Bool.and_self]

theorem eq_self_of_not_isNaN {f : F64} (h : f.isNaN = false) : F64.eq f f = true := by
  simp [F64.eq, F64.partialCmp, h]

/-- What can cross equals itself unless a NaN, a function or an endpoint in it does not. -/
theorem Copies.valuesEqual_self {v r : Value X B} (h : Copies names src dst v r)
    (hv : ∀ u, Inside u v → u.EqualsItself) : valuesEqual names v v = true := by
  induction v using Value.induction_children generalizing r with
  | h v ih =>
    have below : ∀ u ∈ v.children, ∀ t, Inside t u → t.EqualsItself := fun u hu t ht =>
      hv t (.child hu ht)
    have each : ∀ {vs rs : List (Value X B)}, (∀ u ∈ vs, u ∈ v.children) →
        List.Forall₂ (Copies names src dst) vs rs → slicesEqual names vs vs = true := by
      intro vs rs hvs h
      apply slicesEqual_self
      intro u hu
      obtain ⟨c, -, hcopy⟩ := Lib.forall₂_exists h.flip hu
      exact ih u (hvs u hu) hcopy (below u (hvs u hu))
    cases h with
    | plain h =>
      have hself := hv v (.here v)
      cases v with
      | float f => exact eq_self_of_not_isNaN hself
      | f32 f => exact eq_self_of_not_isNaN hself
      | closure => exact hself.elim
      | unit | bool | int | str | bytes | nativeFn | nativeModule | moduleFn | methodHandle =>
        simp [valuesEqual, Value.asInt, Value.asBool, Value.asString, Value.bytesData]
      | _ => exact h.elim
    | list h | tuple h | set h => exact each (fun _ hu => hu) h
    | @map entries ys h =>
      rw [valuesEqual_map, beq_self_eq_true, Bool.true_and, List.all_eq_true]
      intro e he
      obtain ⟨y, -, hcopy⟩ := lastAt_copied h he
      have hchild := mem_children_of_mapEntries names he
      rw [Lib.lastAt_of_nodup (increasing_mapEntries names entries).nodup he, Option.any_some]
      exact ih e.2 hchild hcopy (below e.2 hchild)
    | @object a a' s xs ys hkind h =>
      have hslots : slicesEqual names xs xs = true := each (fun _ hu => hu) h
      simp [valuesEqual, s.structural_of_value hkind, hslots]
    | @enum s xs ys h =>
      have hdata : slicesEqual names xs xs = true := each (fun _ hu => hu) h
      simp [valuesEqual, hdata]
    | @boundMethod v r method h =>
      have hrecv := ih v (List.mem_singleton_self _) h (below v (List.mem_singleton_self _))
      simp [valuesEqual, hrecv]
    | sender | receiver => exact (hv _ (.here _)).elim

end Reflexive

variable [DecidableEq B]

section Graph

instance : ExternValue Empty where
  displayString := Empty.elim
  typeDisplayName := Empty.elim
  eqValue x := x.elim
  cmpValue x := x.elim

def point : Shape :=
  ⟨.struct, "Point", ["x", "y"], none, false, none, true, false, [], [], fun _ => rfl⟩

def conn : Shape :=
  ⟨.«class», "Conn", ["port"], none, false, none, false, false, [], [], fun h => absurd rfl h⟩

def pointAndConn : ShapeTable := ⟨[point, conn], by decide⟩

/-- A struct, an ordered set and a map keyed by a string. -/
def graph : Value Empty Unit :=
  .list [.object 5 point [.int 3, .int 4], .set [.int 1, .int 2], .map [(.str "a", .bool true)]]

theorem inside_graph {u : Value Empty Unit} (h : Inside u graph) :
    u ∈ [graph, .object 5 point [.int 3, .int 4], .int 3, .int 4, .set [.int 1, .int 2], .int 1, .int 2,
      .map [(.str "a", .bool true)], .bool true] := by
  have leaf : ∀ {v : Value Empty Unit}, v.children = [] → Inside u v → u = v := by
    intro v hv h
    rw [inside_iff, hv] at h
    simpa using h
  rw [inside_iff] at h
  simp only [List.mem_cons, List.not_mem_nil, or_false]
  rcases h with rfl | ⟨c, hc, h⟩
  · exact Or.inl rfl
  · simp only [graph, Value.children, List.mem_cons, List.not_mem_nil, or_false] at hc
    rcases hc with rfl | rfl | rfl
    all_goals
      rw [inside_iff] at h
      simp only [Value.children, List.map_cons, List.map_nil, List.mem_cons, List.not_mem_nil, or_false,
        exists_eq_or_imp, exists_eq_left] at h
    · rcases h with rfl | h | h
      · simp
      · simp [leaf rfl h]
      · simp [leaf rfl h]
    · rcases h with rfl | h | h
      · simp
      · simp [leaf rfl h]
      · simp [leaf rfl h]
    · rcases h with rfl | h
      · simp
      · simp [leaf rfl h]

end Graph

end Noeta.Isolate
