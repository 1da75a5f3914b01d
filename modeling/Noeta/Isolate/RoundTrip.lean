import Mathlib.Data.List.Forall2
import Noeta.Isolate.Marshal

/-!
# What crosses an isolate boundary

A graph that `marshal` accepts is rebuilt as a copy: the same kinds of values at the same places, with fresh objects and
with endpoint ids of the receiver's own table that name the same cores. `Copies` says so, and the facts about the two
graphs are read off it. The one thing a copy loses is the kind of a map's keys: the walk reads a map through its string
view, so that every map of a copy has text for keys.
-/

namespace Noeta.Isolate

open Lib (F64 collect lastAt Increasing collect_map collect_of_increasing increasing_collect)

variable {X B C : Type}

/-! ### Walking a graph -/

namespace Value

theorem sizeOf_lt_of_mem_children {u v : Value X B} (h : u ∈ v.children) : sizeOf u < sizeOf v := by
  cases v with
  | list items | packedList items | tuple items | set items =>
    simp only [children] at h
    have := List.sizeOf_lt_of_mem h
    simp only [list.sizeOf_spec, packedList.sizeOf_spec, tuple.sizeOf_spec, set.sizeOf_spec]
    omega
  | map entries =>
    obtain ⟨⟨k, u⟩, hmem, rfl⟩ := List.mem_map.1 h
    have := List.sizeOf_lt_of_mem hmem
    simp only [map.sizeOf_spec, Prod.mk.sizeOf_spec] at this ⊢
    omega
  | object address shape slots =>
    simp only [children] at h
    have := List.sizeOf_lt_of_mem h
    simp only [object.sizeOf_spec]
    omega
  | enum shape data =>
    simp only [children] at h
    have := List.sizeOf_lt_of_mem h
    simp only [enum.sizeOf_spec]
    omega
  | closure proto upvalues =>
    simp only [children] at h
    have := List.sizeOf_lt_of_mem h
    simp only [closure.sizeOf_spec]
    omega
  | boundMethod recv method =>
    rw [children, List.mem_singleton] at h
    subst h
    simp only [boundMethod.sizeOf_spec]
    omega
  | other kind held =>
    simp only [children] at h
    have := List.sizeOf_lt_of_mem h
    simp only [other.sizeOf_spec]
    omega
  | unit | bool | int | float | f32 | str | bytes | nativeFn | nativeModule | moduleFn | methodHandle | sender
  | receiver | external => simp [children] at h

theorem induction_children {P : Value X B → Prop} (h : ∀ v : Value X B, (∀ u ∈ v.children, P u) → P v)
    (v : Value X B) : P v :=
  h v fun u _ => induction_children h u
termination_by sizeOf v
decreasing_by exact sizeOf_lt_of_mem_children ‹_›

end Value

/-- `u` occurs in `v`. -/
inductive Inside : Value X B → Value X B → Prop
  | here (v : Value X B) : Inside v v
  | child {u c v : Value X B} : c ∈ v.children → Inside u c → Inside u v

theorem inside_iff {u v : Value X B} : Inside u v ↔ u = v ∨ ∃ c ∈ v.children, Inside u c := by
  constructor
  · rintro (_ | ⟨hmem, h⟩)
    · exact Or.inl rfl
    · exact Or.inr ⟨_, hmem, h⟩
  · rintro (rfl | ⟨c, hmem, h⟩)
    · exact .here u
    · exact .child hmem h

section Results

variable {ε α β : Type}

theorem map_eq_ok {r : Except ε α} {f : α → β} {b : β} : r.map f = .ok b ↔ ∃ a, r = .ok a ∧ f a = b := by
  cases r <;> simp [Except.map]

theorem bind_eq_ok {r : Except ε α} {f : α → Except ε β} {b : β} :
    r.bind f = .ok b ↔ ∃ a, r = .ok a ∧ f a = .ok b := by
  cases r <;> simp [Except.bind]

end Results

theorem forall₂_of_mem {α β : Type} {R S : α → β → Prop} {xs : List α} {ys : List β}
    (ih : ∀ x ∈ xs, ∀ y, R x y → S x y) (h : List.Forall₂ R xs ys) : List.Forall₂ S xs ys :=
  ((List.forall₂_and_left _ _).2 ⟨ih, h⟩).imp fun _ y hxy => hxy.1 y hxy.2

variable [ExternValue X] (names : String → Option (List String))

theorem mem_children_of_mapEntries {entries : List (MapKey X × Value X B)} {e : String × Value X B}
    (h : e ∈ mapEntries names entries) : e.2 ∈ (Value.map entries).children := by
  obtain ⟨e', hmem, rfl⟩ := List.mem_map.1 (Lib.mem_of_mem_collect h)
  exact List.mem_map.2 ⟨e', hmem, rfl⟩

theorem mapEntries_map {α β : Type} (g : α → β) (entries : List (MapKey X × α)) :
    mapEntries names (entries.map fun e => (e.1, g e.2)) =
      (mapEntries names entries).map fun e => (e.1, g e.2) := by
  rw [mapEntries, mapEntries, ← collect_map, List.map_map, List.map_map]
  rfl

theorem mapEntries_str {α : Type} {entries : List (String × α)} (h : Increasing entries) :
    mapEntries names (entries.map fun e => ((.str e.1 : MapKey X), e.2)) = entries := by
  rw [mapEntries, List.map_map]
  have hid : (fun e : String × α => e) = (fun e : MapKey X × α => (e.1.asNativeStr names, e.2)) ∘
      fun e : String × α => ((.str e.1 : MapKey X), e.2) := rfl
  rw [← hid, List.map_id']
  exact collect_of_increasing h

theorem increasing_mapEntries {α : Type} (entries : List (MapKey X × α)) :
    Increasing (mapEntries names entries) :=
  increasing_collect _

/-! ### Copies -/

/-- The values without children that cross as they are. -/
def Value.Plain : Value X B → Prop
  | .unit | .bool _ | .int _ | .float _ | .f32 _ | .str _ | .bytes _ => True
  | .closure _ upvalues => upvalues = []
  | .nativeFn _ | .nativeModule _ | .moduleFn _ _ | .methodHandle _ _ _ => True
  | _ => False

/-- `r`, in a VM with the channels `dst`, is what `v` becomes when it crosses from one with the channels `src`. -/
inductive Copies (src dst : List (Channel C)) : Value X B → Value X B → Prop
  | plain {v : Value X B} : v.Plain → Copies src dst v v
  | list {xs ys : List (Value X B)} : List.Forall₂ (Copies src dst) xs ys →
    Copies src dst (.list xs) (.list ys)
  | tuple {xs ys : List (Value X B)} : List.Forall₂ (Copies src dst) xs ys →
    Copies src dst (.tuple xs) (.tuple ys)
  | set {xs ys : List (Value X B)} : List.Forall₂ (Copies src dst) xs ys →
    Copies src dst (.set xs) (.set ys)
  | map {entries : List (MapKey X × Value X B)} {ys : List (Value X B)} :
    List.Forall₂ (Copies src dst) ((mapEntries names entries).map Prod.snd) ys →
    Copies src dst (.map entries)
      (.map ((((mapEntries names entries).map Prod.fst).zip ys).map fun e => (.str e.1, e.2)))
  | object {a a' : Nat} {s : Shape} {xs ys : List (Value X B)} : s.kind ≠ .«class» →
    List.Forall₂ (Copies src dst) xs ys → Copies src dst (.object a s xs) (.object a' s ys)
  | enum {s : Shape} {xs ys : List (Value X B)} : List.Forall₂ (Copies src dst) xs ys →
    Copies src dst (.enum s xs) (.enum s ys)
  | boundMethod {v r : Value X B} {method : String} : Copies src dst v r →
    Copies src dst (.boundMethod v method) (.boundMethod r method)
  | sender {i j : Nat} {core : C} : sharedCore src i = .ok core → sharedCore dst j = .ok core →
    Copies src dst (.sender i) (.sender j)
  | receiver {i j : Nat} {core : C} : sharedCore src i = .ok core → sharedCore dst j = .ok core →
    Copies src dst (.receiver i) (.receiver j)

section Rebuilt

variable {names} {table : ShapeTable} {src dst dst' : List (Channel C)}

theorem sharedCore_append {id : Nat} {core : C} (h : sharedCore dst id = .ok core) (l : List (Channel C)) :
    sharedCore (dst ++ l) id = .ok core := by
  unfold sharedCore at h ⊢
  cases hid : dst[id]? with
  | none => simp [hid] at h
  | some c =>
    rw [List.getElem?_append_left (List.getElem?_eq_some_iff.1 hid).1, hid]
    rwa [hid] at h

theorem sharedCore_mono {id : Nat} {core : C} (hpre : dst <+: dst') (h : sharedCore dst id = .ok core) :
    sharedCore dst' id = .ok core := by
  obtain ⟨l, rfl⟩ := hpre
  exact sharedCore_append h l

theorem Copies.mono {v r : Value X B} (h : Copies names src dst v r) (hpre : dst <+: dst') :
    Copies names src dst' v r := by
  revert r
  induction v using Value.induction_children with
  | h v ih =>
    intro r h
    cases h with
    | plain h => exact .plain h
    | list h => exact .list (forall₂_of_mem ih h)
    | tuple h => exact .tuple (forall₂_of_mem ih h)
    | set h => exact .set (forall₂_of_mem ih h)
    | map h =>
      refine .map (forall₂_of_mem (fun x hx => ?_) h)
      obtain ⟨e, he, rfl⟩ := List.mem_map.1 hx
      exact fun _ => ih _ (mem_children_of_mapEntries names he)
    | object hkind h => exact .object hkind (forall₂_of_mem ih h)
    | enum h => exact .enum (forall₂_of_mem ih h)
    | boundMethod h => exact .boundMethod (ih _ (List.mem_singleton_self _) h)
    | sender hsrc hdst => exact .sender hsrc (sharedCore_mono hpre hdst)
    | receiver hsrc hdst => exact .receiver hsrc (sharedCore_mono hpre hdst)

/-! ### Rebuilding what was marshalled -/

theorem ShapeTable.getElem?_shapeIndex {s : Shape} {i : Nat} (h : table.shapeIndex s = some i) :
    table.shapes[i]? = some s := by
  obtain ⟨j, hj, rfl⟩ := Option.map_eq_some_iff.1 h
  obtain ⟨hlt, heq, -⟩ := List.findIdx?_eq_some_iff_getElem.1 hj
  have hsmall : j < 2 ^ 32 := Nat.lt_of_lt_of_le hlt table.small
  rw [Nat.mod_eq_of_lt hsmall, List.getElem?_eq_getElem hlt, eq_of_beq heq]

theorem marshalEach_cons_eq_ok {v : Value X B} {vs : List (Value X B)} {ws : List (Wire B C)} :
    marshalEach names table src (v :: vs) = .ok ws ↔ ∃ w ws', marshal names table src v = .ok w ∧
      marshalEach names table src vs = .ok ws' ∧ w :: ws' = ws := by
  rw [marshalEach, bind_eq_ok]
  simp only [map_eq_ok]
  grind

variable (names table src) in
/-- What `marshal` makes of `v` is rebuilt, in any receiver, as a copy of `v`. -/
def Crosses (v : Value X B) : Prop :=
  ∀ w : Wire B C, marshal names table src v = .ok w → ∀ st : Receiver C, ∃ (r : Value X B) (st' : Receiver C),
    rebuild table w st = some (r, st') ∧ st.channels <+: st'.channels ∧
      Copies names src st'.channels v r

theorem rebuildEach_of_marshalEach {vs : List (Value X B)} (ih : ∀ v ∈ vs, Crosses names table src v)
    {ws : List (Wire B C)} (h : marshalEach names table src vs = .ok ws) (st : Receiver C) :
    ∃ (rs : List (Value X B)) (st' : Receiver C), rebuildEach table ws st = some (rs, st') ∧
      st.channels <+: st'.channels ∧ List.Forall₂ (Copies names src st'.channels) vs rs := by
  induction vs generalizing ws st with
  | nil =>
    obtain rfl : [] = ws := Except.ok.inj h
    exact ⟨[], st, rfl, List.prefix_refl _, .nil⟩
  | cons v vs ihs =>
    rw [List.forall_mem_cons] at ih
    obtain ⟨w, ws', hw, hws, rfl⟩ := marshalEach_cons_eq_ok.1 h
    obtain ⟨r, st₁, hr, hpre₁, hcopy⟩ := ih.1 w hw st
    obtain ⟨rs, st₂, hrs, hpre₂, hcopies⟩ := ihs ih.2 hws st₁
    refine ⟨r :: rs, st₂, ?_, hpre₁.trans hpre₂, .cons (hcopy.mono hpre₂) hcopies⟩
    simp [rebuildEach, hr, hrs]

/-! Maps go through the same walk as lists do, with their keys beside it. -/

theorem sequence_marshal (ls : List (String × Value X B)) :
    sequence (ls.map fun e => (e.1, marshal names table src e.2)) =
      (marshalEach names table src (ls.map Prod.snd)).map ((ls.map Prod.fst).zip ·) := by
  induction ls with
  | nil => rfl
  | cons e ls ih =>
    rw [List.map_cons, sequence, ih]
    cases hv : marshal names table src e.2 with
    | error => simp [marshalEach, hv, Except.bind, Except.map]
    | ok w =>
      cases hvs : marshalEach names table src (ls.map Prod.snd) <;>
        simp [marshalEach, hv, hvs, Except.bind, Except.map]

theorem marshalEntries_eq (entries : List (MapKey X × Value X B)) :
    marshalEntries names table src entries =
      entries.map fun e => (e.1, marshal names table src e.2) := by
  induction entries with
  | nil => rfl
  | cons e entries ih => rw [List.map_cons, marshalEntries, ih]

theorem marshal_map (entries : List (MapKey X × Value X B)) :
    marshal names table src (.map entries) =
      (marshalEach names table src ((mapEntries names entries).map Prod.snd)).map fun ws =>
        .map (((mapEntries names entries).map Prod.fst).zip ws) := by
  rw [marshal, marshalEntries_eq, mapEntries_map, sequence_marshal]
  cases marshalEach names table src ((mapEntries names entries).map Prod.snd) <;> rfl

theorem rebuildEntries_zip (keys : List String) (ws : List (Wire B C)) (h : keys.length = ws.length)
    (st : Receiver C) : rebuildEntries (X := X) table (keys.zip ws) st =
      (rebuildEach table ws st).map fun r => (keys.zip r.1, r.2) := by
  induction ws generalizing keys st with
  | nil =>
    obtain rfl := List.eq_nil_of_length_eq_zero h
    rfl
  | cons w ws ih =>
    cases keys with
    | nil => simp at h
    | cons k keys =>
      simp only [List.length_cons, Nat.add_right_cancel_iff] at h
      rw [List.zip_cons_cons, rebuildEntries, rebuildEach]
      cases hw : rebuild (X := X) table w st with
      | none => rfl
      | some r =>
        simp only [Option.bind_some, ih keys h]
        cases rebuildEach (X := X) table ws r.2 <;> rfl

theorem length_of_marshalEach {vs : List (Value X B)} {ws : List (Wire B C)}
    (h : marshalEach names table src vs = .ok ws) : ws.length = vs.length := by
  induction vs generalizing ws with
  | nil =>
    obtain rfl : [] = ws := Except.ok.inj h
    rfl
  | cons v vs ih =>
    obtain ⟨w, ws', -, hws, rfl⟩ := marshalEach_cons_eq_ok.1 h
    rw [List.length_cons, List.length_cons, ih hws]

theorem keyed_zip {α : Type} {keys : List String} {rs : List α} (hkeys : keys.Pairwise (· < ·))
    (h : keys.length = rs.length) :
    (keyed (keys.zip rs) : List (MapKey X × α)) = (keys.zip rs).map fun e => (.str e.1, e.2) := by
  have hinc : Increasing (keys.zip rs) := by
    rw [Lib.increasing_iff, List.map_fst_zip (le_of_eq h)]
    exact hkeys
  rw [keyed, collect_of_increasing hinc]

/-- The step of the walk: what is rebuilt from a value's wire is a copy, if it is for what the value holds. -/
theorem crosses_of_children (v : Value X B) (ih : ∀ u ∈ v.children, Crosses names table src u) :
    Crosses names table src v := by
  intro w h st
  cases v with
  | list items =>
    obtain ⟨ws, hws, rfl⟩ := map_eq_ok.1 h
    obtain ⟨rs, st', hrs, hpre, hcopies⟩ := rebuildEach_of_marshalEach ih hws st
    exact ⟨.list rs, st', by rw [rebuild, hrs]; rfl, hpre, .list hcopies⟩
  | tuple items =>
    obtain ⟨ws, hws, rfl⟩ := map_eq_ok.1 h
    obtain ⟨rs, st', hrs, hpre, hcopies⟩ := rebuildEach_of_marshalEach ih hws st
    exact ⟨.tuple rs, st', by rw [rebuild, hrs]; rfl, hpre, .tuple hcopies⟩
  | set items =>
    obtain ⟨ws, hws, rfl⟩ := map_eq_ok.1 h
    obtain ⟨rs, st', hrs, hpre, hcopies⟩ := rebuildEach_of_marshalEach ih hws st
    exact ⟨.set rs, st', by rw [rebuild, hrs]; rfl, hpre, .set hcopies⟩
  | map entries =>
    rw [marshal_map] at h
    obtain ⟨ws, hws, rfl⟩ := map_eq_ok.1 h
    have ihs : ∀ u ∈ (mapEntries names entries).map Prod.snd, Crosses names table src u := by
      intro u hu
      obtain ⟨e, he, rfl⟩ := List.mem_map.1 hu
      exact ih _ (mem_children_of_mapEntries names he)
    obtain ⟨rs, st', hrs, hpre, hcopies⟩ := rebuildEach_of_marshalEach ihs hws st
    have hws' : ((mapEntries names entries).map Prod.fst).length = ws.length := by
      rw [length_of_marshalEach hws, List.length_map, List.length_map]
    have hrs' : ((mapEntries names entries).map Prod.fst).length = rs.length := by
      rw [← hcopies.length_eq, List.length_map, List.length_map]
    have hkeys := Lib.increasing_iff.1 (increasing_mapEntries names entries)
    refine ⟨.map (keyed (((mapEntries names entries).map Prod.fst).zip rs)), st', ?_, hpre, ?_⟩
    · rw [rebuild, rebuildEntries_zip _ _ hws', hrs]
      rfl
    · rw [keyed_zip hkeys hrs']
      exact .map hcopies
  | object address s slots =>
    rw [marshal] at h
    split_ifs at h with hkind
    cases hshape : table.shapeIndex s with
    | none => simp [hshape] at h
    | some i =>
      rw [hshape] at h
      obtain ⟨ws, hws, rfl⟩ := map_eq_ok.1 h
      obtain ⟨rs, st', hrs, hpre, hcopies⟩ := rebuildEach_of_marshalEach ih hws st
      refine ⟨.object st'.allocated s rs, { st' with allocated := st'.allocated + 1 }, ?_, hpre,
        .object hkind hcopies⟩
      rw [rebuild, table.getElem?_shapeIndex hshape, Option.bind_some, hrs]
      rfl
  | enum s data =>
    rw [marshal] at h
    cases hshape : table.shapeIndex s with
    | none => simp [hshape] at h
    | some i =>
      rw [hshape] at h
      obtain ⟨ws, hws, rfl⟩ := map_eq_ok.1 h
      obtain ⟨rs, st', hrs, hpre, hcopies⟩ := rebuildEach_of_marshalEach ih hws st
      refine ⟨.enum s rs, st', ?_, hpre, .enum hcopies⟩
      rw [rebuild, table.getElem?_shapeIndex hshape, Option.bind_some, hrs]
      rfl
  | boundMethod recv method =>
    obtain ⟨w', hw', rfl⟩ := map_eq_ok.1 h
    obtain ⟨r, st', hr, hpre, hcopy⟩ := ih recv (List.mem_singleton_self _) w' hw' st
    exact ⟨.boundMethod r method, st', by rw [rebuild, hr]; rfl, hpre, .boundMethod hcopy⟩
  | sender id =>
    obtain ⟨core, hcore, rfl⟩ := map_eq_ok.1 h
    refine ⟨_, _, rfl, List.prefix_append _ _, .sender hcore ?_⟩
    simp [sharedCore, Receiver.register]
  | receiver id =>
    obtain ⟨core, hcore, rfl⟩ := map_eq_ok.1 h
    refine ⟨_, _, rfl, List.prefix_append _ _, .receiver hcore ?_⟩
    simp [sharedCore, Receiver.register]
  | closure proto upvalues =>
    rw [marshal] at h
    split_ifs at h with hlen
    obtain rfl := Except.ok.inj h
    obtain rfl := List.eq_nil_of_length_eq_zero hlen
    exact ⟨_, st, rfl, List.prefix_refl _, .plain rfl⟩
  | float f =>
    obtain rfl := Except.ok.inj h
    refine ⟨_, st, rfl, List.prefix_refl _, ?_⟩
    have hf : (⟨f.1.canonical, f.1.canonical_canonical⟩ : {f : F64 // f.canonical = f}) = f := Subtype.ext f.2
    rw [hf]
    exact .plain trivial
  | unit | bool | int | f32 | str | bytes | nativeFn | nativeModule | moduleFn | methodHandle =>
    obtain rfl := Except.ok.inj h
    exact ⟨_, st, rfl, List.prefix_refl _, .plain trivial⟩
  | packedList | external | other => simp [marshal] at h

theorem crosses (v : Value X B) : Crosses names table src v := by
  induction v using Value.induction_children with
  | h v ih => exact crosses_of_children v ih

end Rebuilt

end Noeta.Isolate
