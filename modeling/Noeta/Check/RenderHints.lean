import Noeta.Check.Send
import Noeta.Json.Flattened

/-!
# Where a type has unsigned integers

`render_hint` of `noeta-check/src/packed.rs` builds, of a static type, the hint under which values of
the type are written. It expands each declared name once on a path. A position of a value is reached
by following the hint and the value together; it is reached exactly when no declared name is opened
twice on the way.
-/

namespace Noeta.Check

open Noeta.Json (RenderHint ofVariants keyHint payloadHint slotAt_sparse payloadHint_ofVariants
  variantAt_eq_nil)
open Noeta.Json.RenderHint (slotAt variantAt sparse ofSlots)
open Noeta.Types (Ty)

/-! ## The code -/

/-- `HintPurpose`: a JSON walk does not see the transient fields. -/
inductive HintPurpose where
  | display
  | json
deriving DecidableEq

/-- The tables of `symbols` the walk reads, each as the list of its entries. -/
structure HintTables where
  records : List (String × List (String × Ty))
  transientFields : List (String × List String)
  /-- Each variant with its payload types. -/
  enums : List (String × List (String × List Ty))
  /-- `check_duplicate_members`. -/
  distinct : ∀ e ∈ enums, (e.2.map Prod.fst).Nodup
  genericTypes : List (String × List TypeParam)

def iterator : String := "Iterator"

namespace HintTables

variable (tb : HintTables) (purpose : HintPurpose)

def typeArgSubst (name : String) (args : List Ty) : Subst :=
  match lookup tb.genericTypes name with
  | some params => substOf params args
  | none => []

/-- Whether the walk sees the field. -/
def numbered (name : String) (field : String × Ty) : Bool :=
  purpose == .display || !((lookup tb.transientFields name).getD []).contains field.1

/-- The types of the fields that are numbered, at the arguments of the type. -/
def slotTypes (name : String) (args : List Ty) (fields : List (String × Ty)) : List Ty :=
  (fields.filter (tb.numbered purpose name)).map fun f => applySubst (tb.typeArgSubst name args) f.2

/-- The payload types of the variants, at the arguments of the type. -/
def variantTypes (name : String) (args : List Ty) (variants : List (String × List Ty)) :
    List (String × List Ty) :=
  variants.map fun v => (v.1, v.2.map (applySubst (tb.typeArgSubst name args)))

/-- The declared names that are not on the stack. -/
def unopened (stack : List String) : Nat :=
  ((tb.records.map Prod.fst ++ tb.enums.map Prod.fst).filter fun name => !stack.contains name).length

theorem unopened_lt_of_record {name : String} {fields : List (String × Ty)}
    (h : lookup tb.records name = some fields) {stack : List String}
    (hnew : stack.contains name = false) : tb.unopened (name :: stack) < tb.unopened stack :=
  unvisited_lt (List.mem_append_left _ (mem_names_of_lookup h)) hnew

theorem unopened_lt_of_enum {name : String} {variants : List (String × List Ty)}
    (h : lookup tb.enums name = some variants) {stack : List String}
    (hnew : stack.contains name = false) : tb.unopened (name :: stack) < tb.unopened stack :=
  unvisited_lt (List.mem_append_right _ (mem_names_of_lookup h)) hnew

mutual

/-- `render_hint` of a closed type, with `named_render_hint` for the declared types. -/
def renderHint (stack : List String) : Ty → Option RenderHint
  | .intN signed bits => if signed = false ∧ bits = 64 then some .unsigned else none
  | .list elem => (renderHint stack elem).map .elements
  | .set elem => (renderHint stack elem).map .elements
  | .map key value =>
    match renderHint stack key, renderHint stack value with
    | none, none => none
    | key, value => some (.entries key value)
  | .tuple items => ofSlots (renderHints stack items)
  | .option inner =>
    (renderHint stack inner).map fun h => .variants [("some".toList, [(0, h)])]
  | .result ok err =>
    ofVariants [("Ok".toList, sparse [renderHint stack ok]),
      ("Err".toList, sparse [renderHint stack err])]
  | .named name args =>
    if name = iterator then
      match args with
      | arg :: _ => (renderHint stack arg).map .elements
      | [] => none
    else if _hseen : stack.contains name then none
    else
      match _hrecord : lookup tb.records name with
      | some fields => ofSlots (renderHints (name :: stack) (tb.slotTypes purpose name args fields))
      | none =>
        match _henum : lookup tb.enums name with
        | some variants => ofVariants (variantHints (name :: stack) (tb.variantTypes name args variants))
        | none => none
  | _ => none
  termination_by t => (tb.unopened stack, sizeOf t)
  decreasing_by
    all_goals first
      | (apply Prod.Lex.left
         exact tb.unopened_lt_of_record _hrecord (Bool.not_eq_true _ ▸ _hseen))
      | (apply Prod.Lex.left
         exact tb.unopened_lt_of_enum _henum (Bool.not_eq_true _ ▸ _hseen))
      | (apply Prod.Lex.right; simp; try omega)

/-- The hints of a list of types, in order. -/
def renderHints (stack : List String) : List Ty → List (Option RenderHint)
  | [] => []
  | t :: ts => renderHint stack t :: renderHints stack ts
  termination_by ts => (tb.unopened stack, sizeOf ts)
  decreasing_by
    all_goals (apply Prod.Lex.right; simp; try omega)

/-- The slots of each variant. -/
def variantHints (stack : List String) :
    List (String × List Ty) → List (List Char × List (Nat × RenderHint))
  | [] => []
  | (variant, fields) :: vs =>
    (variant.toList, sparse (renderHints stack fields)) :: variantHints stack vs
  termination_by vs => (tb.unopened stack, sizeOf vs)
  decreasing_by
    all_goals (apply Prod.Lex.right; simp; try omega)

end

end HintTables

/-! ## Positions -/

/-- A step into a value. -/
inductive HintStep where
  | element (i : Nat)
  | key (i : Nat)
  | value (i : Nat)
  | slot (i : Nat)
  | payload (variant : String) (i : Nat)

/-- The hint that a step arrives at. -/
def hintStep (hint : Option RenderHint) : HintStep → Option RenderHint
  | .element _ =>
    match hint with
    | some (.elements inner) => some inner
    | _ => none
  | .key _ => keyHint hint
  | .value _ =>
    match hint with
    | some (.entries _ value) => value
    | _ => none
  | .slot i => RenderHint.slot hint i
  | .payload variant i => payloadHint hint variant.toList i

/-- Following a hint along a path. -/
def hintAlong (hint : Option RenderHint) : List HintStep → Option RenderHint
  | [] => hint
  | s :: path => hintAlong (hintStep hint s) path

namespace HintTables

variable (tb : HintTables) (purpose : HintPurpose)

/-- The static type that a step arrives at. -/
def typeStep : Ty → HintStep → Option Ty
  | .list elem, .element _ => some elem
  | .set elem, .element _ => some elem
  | .map key _, .key _ => some key
  | .map _ value, .value _ => some value
  | .tuple items, .slot i => items[i]?
  | .option inner, .payload variant i => if variant = "some" ∧ i = 0 then some inner else none
  | .result ok err, .payload variant i =>
    if variant = "Ok" ∧ i = 0 then some ok
    else if variant = "Err" ∧ i = 0 then some err
    else none
  | .named name args, s =>
    if name = iterator then
      match s with
      | .element _ => args.head?
      | _ => none
    else
      match lookup tb.records name with
      | some fields =>
        match s with
        | .slot i => (tb.slotTypes purpose name args fields)[i]?
        | _ => none
      | none =>
        match lookup tb.enums name, s with
        | some variants, .payload variant i =>
          (lookup (tb.variantTypes name args variants) variant).bind fun fields => fields[i]?
        | _, _ => none
  | _, _ => none

def typeAlong (t : Ty) : List HintStep → Option Ty
  | [] => some t
  | s :: path => (tb.typeStep purpose t s).bind fun t' => typeAlong t' path

/-- The declared name that a step into the type opens. -/
def opens : Ty → List String
  | .named name _ => if name = iterator then [] else [name]
  | _ => []

/-- The declared names opened along a path. -/
def namesAlong (t : Ty) : List HintStep → List String
  | [] => []
  | s :: path => opens t ++ ((tb.typeStep purpose t s).elim [] fun t' => namesAlong t' path)

/-! ## The hint along a path -/

section Follow

variable {tb purpose}

theorem renderHints_eq (stack : List String) (ts : List Ty) :
    tb.renderHints purpose stack ts = ts.map (tb.renderHint purpose stack) := by
  induction ts with
  | nil => rw [renderHints, List.map_nil]
  | cons t ts ih => rw [renderHints, ih, List.map_cons]

theorem variantHints_eq (stack : List String) (vs : List (String × List Ty)) :
    tb.variantHints purpose stack vs =
      vs.map fun v => (v.1.toList, sparse (v.2.map (tb.renderHint purpose stack))) := by
  induction vs with
  | nil => rw [variantHints, List.map_nil]
  | cons v vs ih =>
    obtain ⟨variant, fields⟩ := v
    rw [variantHints, ih, renderHints_eq, List.map_cons]

theorem slot_ofSlots (hints : List (Option RenderHint)) (i : Nat) :
    RenderHint.slot (ofSlots hints) i = hints[i]?.join := by
  rw [← slotAt_sparse, ofSlots]
  cases hs : sparse hints with
  | nil => rfl
  | cons h hs => rfl

theorem lookup_of_mem {α : Type} {table : List (String × α)} (hnodup : (table.map Prod.fst).Nodup)
    {e : String × α} (he : e ∈ table) : lookup table e.1 = some e.2 := by
  induction table with
  | nil => cases he
  | cons e' table ih =>
    rw [List.map_cons, List.nodup_cons] at hnodup
    obtain rfl | htail := List.mem_cons.1 he
    · rw [lookup, List.find?_cons, beq_self_eq_true]
      rfl
    · have hne : (e'.1 == e.1) = false := beq_eq_false_iff_ne.2 fun heq =>
        hnodup.1 (heq ▸ List.mem_map_of_mem htail)
      rw [lookup, List.find?_cons, hne]
      exact ih hnodup.2 htail

theorem variantTypes_nodup {name : String} {variants : List (String × List Ty)}
    (h : lookup tb.enums name = some variants) (args : List Ty) :
    ((tb.variantTypes name args variants).map Prod.fst).Nodup := by
  obtain ⟨e, he, rfl⟩ := Option.map_eq_some_iff.1 h
  rw [variantTypes, List.map_map]
  exact tb.distinct e (List.mem_of_find?_eq_some he)

/-! ### One step -/

theorem hintStep_none (s : HintStep) : hintStep none s = none := by
  cases s <;> rfl

theorem hintStep_elements (h : Option RenderHint) (s : HintStep) :
    hintStep (h.map .elements) s = match s with
      | .element _ => h
      | _ => none := by
  cases h <;> cases s <;> rfl

theorem hintStep_ofSlots (hints : List (Option RenderHint)) (s : HintStep) :
    hintStep (ofSlots hints) s = match s with
      | .slot i => hints[i]?.join
      | _ => none := by
  cases s with
  | slot i => exact slot_ofSlots hints i
  | element _ | key _ | value _ | payload _ _ =>
    rw [ofSlots]
    split <;> rfl

theorem hintStep_ofVariants (vs : List (List Char × List (Nat × RenderHint))) {s : HintStep}
    (h : ∀ variant i, s ≠ .payload variant i) : hintStep (ofVariants vs) s = none := by
  rw [ofVariants]
  cases s with
  | payload variant i => exact absurd rfl (h variant i)
  | element _ | key _ | value _ | slot _ => split <;> rfl

theorem payloadHint_absent {vs : List (List Char × List (Nat × RenderHint))} {variant : List Char}
    (h : variant ∉ vs.map Prod.fst) (i : Nat) : payloadHint (ofVariants vs) variant i = none := by
  have hfilter : variant ∉ (vs.filter fun v => !v.2.isEmpty).map Prod.fst := fun hmem =>
    h ((List.filter_sublist.map Prod.fst).subset hmem)
  rw [payloadHint, ofVariants]
  split
  · rfl
  · rw [RenderHint.variant, variantAt_eq_nil hfilter]
    rfl

theorem payloadHint_types {vs : List (String × List Ty)} (hnodup : (vs.map Prod.fst).Nodup)
    (hint : Ty → Option RenderHint) (variant : String) (i : Nat) :
    payloadHint (ofVariants (vs.map fun v => (v.1.toList, sparse (v.2.map hint)))) variant.toList i =
      ((lookup vs variant).bind fun fields => fields[i]?).bind hint := by
  have hnames : (vs.map fun v => (v.1.toList, sparse (v.2.map hint))).map Prod.fst =
      (vs.map Prod.fst).map String.toList := by
    rw [List.map_map, List.map_map]
    rfl
  have hlists : ((vs.map fun v => (v.1.toList, sparse (v.2.map hint))).map Prod.fst).Nodup :=
    hnames ▸ hnodup.map fun a b h => String.toList_injective h
  cases hv : lookup vs variant with
  | some fields =>
    obtain ⟨e, he, rfl⟩ := Option.map_eq_some_iff.1 hv
    have hname : e.1 = variant := by simpa using List.find?_some he
    have hmem := List.mem_map_of_mem (f := fun v : String × List Ty =>
      (v.1.toList, sparse (v.2.map hint))) (List.mem_of_find?_eq_some he)
    rw [← hname, payloadHint_ofVariants hlists hmem i, slotAt_sparse, List.getElem?_map,
      Option.bind_some]
    cases e.2[i]? <;> rfl
  | none =>
    refine payloadHint_absent (fun hmem => ?_) i
    rw [hnames, List.mem_map] at hmem
    obtain ⟨name, hname, heq⟩ := hmem
    obtain ⟨v, hv', rfl⟩ := List.mem_map.1 hname
    rw [String.toList_injective heq.symm, lookup, Option.map_eq_none_iff, List.find?_eq_none] at hv
    exact hv v hv' (beq_self_eq_true v.1)

variable (purpose)

theorem renderHint_option (stack : List String) (inner : Ty) :
    tb.renderHint purpose stack (.option inner) =
      ofVariants ([("some", [inner])].map fun v =>
        (v.1.toList, sparse (v.2.map (tb.renderHint purpose stack)))) := by
  rw [renderHint]
  cases h : tb.renderHint purpose stack inner <;> simp [h, ofVariants, sparse]

theorem renderHint_result (stack : List String) (ok err : Ty) :
    tb.renderHint purpose stack (.result ok err) =
      ofVariants ([("Ok", [ok]), ("Err", [err])].map fun v =>
        (v.1.toList, sparse (v.2.map (tb.renderHint purpose stack)))) := by
  rw [renderHint]
  rfl

theorem renderHint_iterator (stack : List String) (args : List Ty) :
    tb.renderHint purpose stack (.named iterator args) =
      (args.head?.bind (tb.renderHint purpose stack)).map .elements := by
  cases args with
  | nil => simp [renderHint]
  | cons arg args => simp [renderHint]

variable {name : String} (hiter : name ≠ iterator)
include hiter

theorem renderHint_seen {stack : List String} (hseen : name ∈ stack) (args : List Ty) :
    tb.renderHint purpose stack (.named name args) = none := by
  unfold renderHint
  rw [if_neg hiter, dif_pos (by simpa using hseen)]

theorem renderHint_record {stack : List String} (hseen : name ∉ stack) (args : List Ty)
    {fields : List (String × Ty)} (h : lookup tb.records name = some fields) :
    tb.renderHint purpose stack (.named name args) =
      ofSlots ((tb.slotTypes purpose name args fields).map
        (tb.renderHint purpose (name :: stack))) := by
  unfold renderHint
  rw [if_neg hiter, dif_neg (by simpa using hseen)]
  split
  · rename_i fields' h'
    rw [h, Option.some.injEq] at h'
    rw [renderHints_eq, h']
  · rename_i h'
    rw [h] at h'
    cases h'

theorem renderHint_enum {stack : List String} (hseen : name ∉ stack) (args : List Ty)
    (hrecord : lookup tb.records name = none) {variants : List (String × List Ty)}
    (h : lookup tb.enums name = some variants) :
    tb.renderHint purpose stack (.named name args) =
      ofVariants ((tb.variantTypes name args variants).map fun v =>
        (v.1.toList, sparse (v.2.map (tb.renderHint purpose (name :: stack))))) := by
  unfold renderHint
  rw [if_neg hiter, dif_neg (by simpa using hseen)]
  split
  · rename_i h'
    rw [hrecord] at h'
    cases h'
  · split
    · rename_i variants' h'
      rw [h, Option.some.injEq] at h'
      rw [variantHints_eq, h']
    · rename_i h'
      rw [h] at h'
      cases h'

theorem renderHint_undeclared {stack : List String} (args : List Ty)
    (hrecord : lookup tb.records name = none) (henum : lookup tb.enums name = none) :
    tb.renderHint purpose stack (.named name args) = none := by
  unfold renderHint
  rw [if_neg hiter]
  split
  · rfl
  · split
    · rename_i h
      rw [hrecord] at h
      cases h
    · split
      · rename_i h
        rw [henum] at h
        cases h
      · rfl

omit hiter

/-- A step into a type: the hint there is that of the type there, unless a name is opened again. -/
theorem hintStep_renderHint (stack : List String) (t : Ty) (s : HintStep) :
    hintStep (tb.renderHint purpose stack t) s =
      if ∀ n ∈ opens t, n ∉ stack then
        (tb.typeStep purpose t s).bind (tb.renderHint purpose (opens t ++ stack))
      else none := by
  cases t with
  | list elem | set elem =>
    rw [renderHint, hintStep_elements, if_pos (by simp [opens])]
    cases s <;> rfl
  | map key value =>
    rw [renderHint, if_pos (by simp [opens])]
    cases hk : tb.renderHint purpose stack key <;> cases hv : tb.renderHint purpose stack value <;>
      cases s <;> simp [hintStep, typeStep, opens, keyHint, hk, hv, RenderHint.slot, payloadHint,
        RenderHint.variant, slotAt]
  | tuple items =>
    rw [renderHint, renderHints_eq, hintStep_ofSlots, if_pos (by simp [opens])]
    cases s with
    | slot i =>
      dsimp only
      rw [typeStep, List.getElem?_map]
      cases items[i]? <;> rfl
    | element _ | key _ | value _ | payload _ _ => rfl
  | option inner =>
    rw [renderHint_option, if_pos (by simp [opens])]
    cases s with
    | payload variant i =>
      rw [hintStep, payloadHint_types (by simp)]
      by_cases hname : variant = "some" <;> cases i <;> simp [typeStep, lookup, opens, hname, Ne.symm]
    | element _ | key _ | value _ | slot _ =>
      rw [hintStep_ofVariants _ (by simp)]
      rfl
  | result ok err =>
    rw [renderHint_result, if_pos (by simp [opens])]
    cases s with
    | payload variant i =>
      rw [hintStep, payloadHint_types (by simp), typeStep]
      by_cases hok : variant = "Ok"
      · subst hok
        cases i <;> simp [lookup, opens]
      · by_cases herr : variant = "Err"
        · subst herr
          cases i <;> simp [lookup, opens]
        · simp [lookup, hok, herr, Ne.symm hok, Ne.symm herr]
    | element _ | key _ | value _ | slot _ =>
      rw [hintStep_ofVariants _ (by simp)]
      rfl
  | named name args =>
    by_cases hiter : name = iterator
    · subst hiter
      rw [renderHint_iterator, hintStep_elements, if_pos (by simp [opens])]
      cases s <;> simp [typeStep, opens]
    have hopens : opens (.named name args) = [name] := if_neg hiter
    rw [hopens, typeStep.eq_def]
    dsimp only
    rw [if_neg hiter]
    by_cases hseen : name ∈ stack
    · rw [renderHint_seen purpose hiter hseen, hintStep_none, if_neg (by simpa using hseen)]
    rw [if_pos (by simpa using hseen)]
    split
    · rename_i fields hrecord
      rw [renderHint_record purpose hiter hseen args hrecord, hintStep_ofSlots]
      cases s with
      | slot i =>
        dsimp only
        rw [List.getElem?_map]
        cases (tb.slotTypes purpose name args fields)[i]? <;> rfl
      | element _ | key _ | value _ | payload _ _ => rfl
    · rename_i hrecord
      cases henum : lookup tb.enums name with
      | none =>
        rw [renderHint_undeclared purpose hiter args hrecord henum, hintStep_none]
        rfl
      | some variants =>
        rw [renderHint_enum purpose hiter hseen args hrecord henum]
        cases s with
        | payload variant i => exact payloadHint_types (variantTypes_nodup henum args) _ variant i
        | element _ | key _ | value _ | slot _ =>
          rw [hintStep_ofVariants _ (by simp)]
          rfl
  | intN signed bits =>
    rw [renderHint]
    split <;> cases s <;> simp [hintStep, typeStep, keyHint, RenderHint.slot, payloadHint,
      RenderHint.variant, slotAt]
  | unknown | dyn | never | unit | int | float | f32 | f64 | bool | string | bytes | param _ | fn _ _
  | kind _ | union _ | dynTrait _ =>
    simp [renderHint, hintStep_none, typeStep]

/-! ### A path -/

theorem hintAlong_none (path : List HintStep) : hintAlong none path = none := by
  induction path with
  | nil => rfl
  | cons s path ih => rw [hintAlong, hintStep_none, ih]

theorem ofSlots_ne_unsigned (hints : List (Option RenderHint)) :
    ofSlots hints ≠ some .unsigned := by
  rw [ofSlots]
  split <;> simp

theorem ofVariants_ne_unsigned (vs : List (List Char × List (Nat × RenderHint))) :
    ofVariants vs ≠ some .unsigned := by
  rw [ofVariants]
  split <;> simp

theorem renderHint_named_ne_unsigned (stack : List String) (name : String) (args : List Ty) :
    tb.renderHint purpose stack (.named name args) ≠ some .unsigned := by
  by_cases hiter : name = iterator
  · subst hiter
    rw [renderHint_iterator]
    intro h
    obtain ⟨inner, -, hinner⟩ := Option.map_eq_some_iff.1 h
    cases hinner
  by_cases hseen : name ∈ stack
  · simp [renderHint_seen purpose hiter hseen]
  cases hrecord : lookup tb.records name with
  | some fields =>
    rw [renderHint_record purpose hiter hseen args hrecord]
    apply ofSlots_ne_unsigned
  | none =>
    cases henum : lookup tb.enums name with
    | some variants =>
      rw [renderHint_enum purpose hiter hseen args hrecord henum]
      apply ofVariants_ne_unsigned
    | none => simp [renderHint_undeclared purpose hiter args hrecord henum]

theorem renderHint_eq_unsigned {stack : List String} {t : Ty} :
    tb.renderHint purpose stack t = some .unsigned ↔ t = .intN false 64 := by
  cases t with
  | intN signed bits => simp [renderHint]
  | named name args =>
    exact iff_of_false (renderHint_named_ne_unsigned purpose stack name args) (by simp)
  | tuple items =>
    rw [renderHint]
    exact iff_of_false (ofSlots_ne_unsigned _) (by simp)
  | option inner =>
    rw [renderHint_option]
    exact iff_of_false (ofVariants_ne_unsigned _) (by simp)
  | result ok err =>
    rw [renderHint_result]
    exact iff_of_false (ofVariants_ne_unsigned _) (by simp)
  | map key value =>
    rw [renderHint]
    split <;> simp
  | list elem | set elem => simp [renderHint]
  | unknown | dyn | never | unit | int | float | f32 | f64 | bool | string | bytes | param _ | fn _ _
  | kind _ | union _ | dynTrait _ => simp [renderHint]

theorem opens_nodup (t : Ty) : (opens t).Nodup := by
  cases t with
  | named name args =>
    rw [opens]
    split
    · exact List.nodup_nil
    · exact List.nodup_singleton name
  | _ => exact List.nodup_nil

/-- The hint arrives at `Unsigned` along the paths to a `u64` that open no name twice. -/
theorem hintAlong_eq_unsigned (stack : List String) (t : Ty) (path : List HintStep) :
    hintAlong (tb.renderHint purpose stack t) path = some .unsigned ↔
      tb.typeAlong purpose t path = some (.intN false 64) ∧
        (tb.namesAlong purpose t path).Nodup ∧ ∀ n ∈ tb.namesAlong purpose t path, n ∉ stack := by
  induction path generalizing stack t with
  | nil =>
    rw [hintAlong, renderHint_eq_unsigned, typeAlong, namesAlong, Option.some.injEq]
    exact ⟨fun h => ⟨h, List.nodup_nil, fun n hn => absurd hn List.not_mem_nil⟩, fun h => h.1⟩
  | cons s path ih =>
    rw [hintAlong, hintStep_renderHint, typeAlong, namesAlong]
    cases ht : tb.typeStep purpose t s with
    | none =>
      rw [Option.bind_none, Option.bind_none, ite_self, hintAlong_none]
      exact ⟨fun h => (nomatch h), fun h => (nomatch h.1)⟩
    | some t' =>
      rw [Option.bind_some, Option.bind_some, Option.elim_some]
      by_cases hnew : ∀ n ∈ opens t, n ∉ stack
      · rw [if_pos hnew, ih, List.nodup_append', List.forall_mem_append]
        constructor
        · rintro ⟨harrives, hnodup, hfresh⟩
          refine ⟨harrives, ⟨opens_nodup t, hnodup, fun n hn hlater => ?_⟩, hnew, fun n hn => ?_⟩
          · exact hfresh n hlater (List.mem_append_left _ hn)
          · exact fun hstack => hfresh n hn (List.mem_append_right _ hstack)
        · rintro ⟨harrives, ⟨-, hnodup, hdisjoint⟩, -, hfresh⟩
          refine ⟨harrives, hnodup, fun n hn hstack => ?_⟩
          obtain hopened | hstack := List.mem_append.1 hstack
          · exact hdisjoint hopened hn
          · exact hfresh n hn hstack
      · rw [if_neg hnew, hintAlong_none]
        refine ⟨fun h => (nomatch h), fun h => absurd ?_ hnew⟩
        exact fun n hn => h.2.2 n (List.mem_append_left _ hn)

/-! ### Every hint arrives -/

def Arrives (hint : Option RenderHint) : Prop :=
  ∃ path, hintAlong hint path = some .unsigned

theorem Arrives.of_step {hint : Option RenderHint} (s : HintStep)
    (h : Arrives (hintStep hint s)) : Arrives hint := by
  obtain ⟨path, hpath⟩ := h
  exact ⟨s :: path, hpath⟩

theorem sparse_eq_nil {hints : List (Option RenderHint)} (h : ∀ hint ∈ hints, hint = none) :
    sparse hints = [] := by
  rw [sparse, List.filterMap_eq_nil_iff]
  rintro ⟨hint, i⟩ hmem
  rw [h hint (List.fst_mem_of_mem_zipIdx hmem)]
  rfl

theorem arrives_ofSlots {ts : List Ty} {hint : Ty → Option RenderHint}
    (h : ∀ t ∈ ts, hint t ≠ none → Arrives (hint t)) (hsome : ofSlots (ts.map hint) ≠ none) :
    Arrives (ofSlots (ts.map hint)) := by
  have hslot : ∃ t ∈ ts, hint t ≠ none := by
    by_contra hnone
    push Not at hnone
    refine hsome ?_
    rw [ofSlots, sparse_eq_nil (by simpa using hnone)]
    rfl
  obtain ⟨t, ht, hne⟩ := hslot
  obtain ⟨i, hi⟩ := List.mem_iff_getElem?.1 ht
  apply Arrives.of_step (.slot i)
  rw [hintStep_ofSlots]
  dsimp only
  rw [List.getElem?_map, hi]
  exact h t ht hne

theorem arrives_ofVariants {vs : List (String × List Ty)} (hnodup : (vs.map Prod.fst).Nodup)
    {hint : Ty → Option RenderHint} (h : ∀ v ∈ vs, ∀ t ∈ v.2, hint t ≠ none → Arrives (hint t))
    (hsome : ofVariants (vs.map fun v => (v.1.toList, sparse (v.2.map hint))) ≠ none) :
    Arrives (ofVariants (vs.map fun v => (v.1.toList, sparse (v.2.map hint)))) := by
  have hpayload : ∃ v ∈ vs, ∃ t ∈ v.2, hint t ≠ none := by
    by_contra hnone
    push Not at hnone
    refine hsome ?_
    rw [ofVariants, if_pos]
    rw [List.isEmpty_iff, List.filter_eq_nil_iff]
    intro w hw
    obtain ⟨v, hv, rfl⟩ := List.mem_map.1 hw
    rw [sparse_eq_nil (by simpa using hnone v hv)]
    simp
  obtain ⟨v, hv, t, ht, hne⟩ := hpayload
  obtain ⟨i, hi⟩ := List.mem_iff_getElem?.1 ht
  apply Arrives.of_step (.payload v.1 i)
  rw [hintStep, payloadHint_types hnodup, lookup_of_mem hnodup hv, Option.bind_some, hi]
  exact h v hv t ht hne

/-- A hint is produced only where it leads to a `u64`. -/
theorem arrives_renderHint (stack : List String) (t : Ty) :
    tb.renderHint purpose stack t ≠ none → Arrives (tb.renderHint purpose stack t) := by
  cases t with
  | intN signed bits =>
    intro h
    rw [renderHint] at h ⊢
    split at h
    · rename_i hword
      exact ⟨[], if_pos hword⟩
    · exact absurd rfl h
  | list elem | set elem =>
    intro h
    apply Arrives.of_step (.element 0)
    rw [renderHint, hintStep_elements]
    rw [renderHint] at h
    exact arrives_renderHint stack elem fun hnone => h (by rw [hnone]; rfl)
  | map key value =>
    intro h
    by_cases hkey : tb.renderHint purpose stack key = none
    · have hvalue : tb.renderHint purpose stack value ≠ none := fun hvalue =>
        h (by rw [renderHint, hkey, hvalue])
      apply Arrives.of_step (.value 0)
      rw [hintStep_renderHint, if_pos (by simp [opens])]
      exact arrives_renderHint stack value hvalue
    · apply Arrives.of_step (.key 0)
      rw [hintStep_renderHint, if_pos (by simp [opens])]
      exact arrives_renderHint stack key hkey
  | tuple items =>
    intro h
    rw [renderHint, renderHints_eq] at h ⊢
    exact arrives_ofSlots (fun t ht => arrives_renderHint stack t) h
  | option inner =>
    intro h
    rw [renderHint_option] at h ⊢
    refine arrives_ofVariants (by simp) (fun v hv t ht => ?_) h
    obtain rfl : v = ("some", [inner]) := List.mem_singleton.1 hv
    rw [List.mem_singleton.1 ht]
    exact arrives_renderHint stack inner
  | result ok err =>
    intro h
    rw [renderHint_result] at h ⊢
    refine arrives_ofVariants (by simp) (fun v hv t ht => ?_) h
    obtain rfl | hv := List.mem_cons.1 hv
    · rw [List.mem_singleton.1 ht]
      exact arrives_renderHint stack ok
    · obtain rfl : v = ("Err", [err]) := List.mem_singleton.1 hv
      rw [List.mem_singleton.1 ht]
      exact arrives_renderHint stack err
  | named name args =>
    intro h
    by_cases hiter : name = iterator
    · subst hiter
      apply Arrives.of_step (.element 0)
      rw [renderHint_iterator, hintStep_elements]
      rw [renderHint_iterator] at h
      cases args with
      | nil => exact absurd rfl h
      | cons arg args =>
        exact arrives_renderHint stack arg fun hnone => h (by rw [List.head?_cons]; simp [hnone])
    by_cases hseen : name ∈ stack
    · exact absurd (renderHint_seen purpose hiter hseen args) h
    cases hrecord : lookup tb.records name with
    | some fields =>
      rw [renderHint_record purpose hiter hseen args hrecord] at h ⊢
      exact arrives_ofSlots (fun t _ => arrives_renderHint (name :: stack) t) h
    | none =>
      cases henum : lookup tb.enums name with
      | some variants =>
        rw [renderHint_enum purpose hiter hseen args hrecord henum] at h ⊢
        exact arrives_ofVariants (variantTypes_nodup henum args)
          (fun v _ t _ => arrives_renderHint (name :: stack) t) h
      | none => exact absurd (renderHint_undeclared purpose hiter args hrecord henum) h
  | unknown | dyn | never | unit | int | float | f32 | f64 | bool | string | bytes | param _ | fn _ _
  | kind _ | union _ | dynTrait _ => simp [renderHint]
  termination_by (tb.unopened stack, sizeOf t)
  decreasing_by
    all_goals first
      | (apply Prod.Lex.left; exact tb.unopened_lt_of_record hrecord (by simpa using hseen))
      | (apply Prod.Lex.left; exact tb.unopened_lt_of_enum henum (by simpa using hseen))
      | (apply Prod.Lex.right
         have hlt := List.sizeOf_lt_of_mem ht
         simp only [Ty.tuple.sizeOf_spec]
         omega)
      | (apply Prod.Lex.right; simp; try omega)

end Follow

end HintTables

/-! ## Values -/

/-- A finite value, as a walk sees it. -/
inductive Walked where
  | leaf
  | elements (vs : List Walked)
  | entries (keys values : List Walked)
  | slots (vs : List Walked)
  | variant (name : String) (vs : List Walked)

namespace Walked

def step : Walked → HintStep → Option Walked
  | .elements vs, .element i => vs[i]?
  | .entries keys _, .key i => keys[i]?
  | .entries _ values, .value i => values[i]?
  | .slots vs, .slot i => vs[i]?
  | .variant name vs, .payload wanted i => if name = wanted then vs[i]? else none
  | _, _ => none

def along (v : Walked) : List HintStep → Option Walked
  | [] => some v
  | s :: path => (v.step s).bind fun v' => along v' path

end Walked

namespace HintTables

variable (tb : HintTables) (purpose : HintPurpose)

/-- The types of the fields the walk does not see. -/
def hiddenTypes (name : String) (args : List Ty) (fields : List (String × Ty)) : List Ty :=
  (fields.filter fun f => !tb.numbered purpose name f).map
    fun f => applySubst (tb.typeArgSubst name args) f.2

/-- A type whose values no step leads into; `never` has no value. -/
def Whole : Ty → Prop
  | .never => False
  | .list _ => False
  | .set _ => False
  | .map _ _ => False
  | .tuple _ => False
  | .option _ => False
  | .result _ _ => False
  | .named name _ => name ≠ iterator ∧ lookup tb.records name = none ∧ lookup tb.enums name = none
  | _ => True

mutual

/-- The values of a type. A transient field has a value too, which a JSON walk does not see. -/
inductive Typed : Ty → Walked → Prop where
  | leaf {t : Ty} : tb.Whole t → Typed t .leaf
  | list {elem : Ty} {vs : List Walked} : Each elem vs → Typed (.list elem) (.elements vs)
  | set {elem : Ty} {vs : List Walked} : Each elem vs → Typed (.set elem) (.elements vs)
  | iterator {arg : Ty} {args : List Ty} {vs : List Walked} : Each arg vs →
      Typed (.named iterator (arg :: args)) (.elements vs)
  | map {key value : Ty} {keys values : List Walked} : keys.length = values.length →
      Each key keys → Each value values → Typed (.map key value) (.entries keys values)
  | tuple {items : List Ty} {vs : List Walked} : Fields items vs → Typed (.tuple items) (.slots vs)
  | absent {inner : Ty} : Typed (.option inner) (.variant "none" [])
  | present {inner : Ty} {v : Walked} : Typed inner v → Typed (.option inner) (.variant "some" [v])
  | ok {ok err : Ty} {v : Walked} : Typed ok v → Typed (.result ok err) (.variant "Ok" [v])
  | err {ok err : Ty} {v : Walked} : Typed err v → Typed (.result ok err) (.variant "Err" [v])
  | record {name : String} {args : List Ty} {fields : List (String × Ty)}
      {vs hidden : List Walked} : name ≠ Check.iterator → lookup tb.records name = some fields →
      Fields (tb.slotTypes purpose name args fields) vs →
      Fields (tb.hiddenTypes purpose name args fields) hidden →
      Typed (.named name args) (.slots vs)
  | enum {name : String} {args : List Ty} {variants : List (String × List Ty)} {variant : String}
      {fields : List Ty} {vs : List Walked} : name ≠ Check.iterator →
      lookup tb.records name = none → lookup tb.enums name = some variants →
      lookup (tb.variantTypes name args variants) variant = some fields →
      Fields fields vs → Typed (.named name args) (.variant variant vs)

/-- Values of one type. -/
inductive Each : Ty → List Walked → Prop where
  | nil {t : Ty} : Each t []
  | cons {t : Ty} {v : Walked} {vs : List Walked} : Typed t v → Each t vs → Each t (v :: vs)

/-- Values of the types of a list, in order. -/
inductive Fields : List Ty → List Walked → Prop where
  | nil : Fields [] []
  | cons {t : Ty} {ts : List Ty} {v : Walked} {vs : List Walked} : Typed t v → Fields ts vs →
      Fields (t :: ts) (v :: vs)

end

variable {tb purpose}

/-! ## Exactness -/

variable (tb purpose)

/-- Some value of the type has a `u64` in it. -/
def HasWord (t : Ty) : Prop :=
  ∃ v path, tb.Typed purpose t v ∧ (v.along path).isSome ∧
    tb.typeAlong purpose t path = some (.intN false 64)

/-- The hint of a type arrives at `Unsigned` at the `u64` positions of its values and nowhere else,
and there is no hint just when no value has one. -/
structure HintExact (t : Ty) : Prop where
  arrives : ∀ v path, tb.Typed purpose t v → (v.along path).isSome →
    (hintAlong (tb.renderHint purpose [] t) path = some .unsigned ↔
      tb.typeAlong purpose t path = some (.intN false 64))
  absent : tb.renderHint purpose [] t = none ↔ ¬ tb.HasWord purpose t

/-- No `u64` of a value lies behind a declared name that is opened twice. -/
def OpenedOnce (t : Ty) : Prop :=
  ∀ v path, tb.Typed purpose t v → (v.along path).isSome →
    tb.typeAlong purpose t path = some (.intN false 64) → (tb.namesAlong purpose t path).Nodup

/-- Where the declarations lead to a `u64`, a value does. -/
def Inhabited (t : Ty) : Prop :=
  (∃ path, tb.typeAlong purpose t path = some (.intN false 64) ∧
    (tb.namesAlong purpose t path).Nodup) → tb.HasWord purpose t

theorem hintAlong_top (t : Ty) (path : List HintStep) :
    hintAlong (tb.renderHint purpose [] t) path = some .unsigned ↔
      tb.typeAlong purpose t path = some (.intN false 64) ∧
        (tb.namesAlong purpose t path).Nodup := by
  rw [hintAlong_eq_unsigned]
  exact and_congr_right fun _ => and_iff_left fun n _ => List.not_mem_nil

/-- A hint is exact when every `u64` of a value is behind names opened once, and one that the
declarations lead to is in some value. -/
theorem hintExact_iff (t : Ty) :
    tb.HintExact purpose t ↔ tb.OpenedOnce purpose t ∧ tb.Inhabited purpose t := by
  constructor
  · intro h
    refine ⟨fun v path hv hpath hword => ?_, fun ⟨path, hword, hnodup⟩ => ?_⟩
    · exact ((hintAlong_top tb purpose t path).1 ((h.arrives v path hv hpath).2 hword)).2
    · by_contra hnone
      have harrives := (hintAlong_top tb purpose t path).2 ⟨hword, hnodup⟩
      rw [h.absent.2 hnone, hintAlong_none] at harrives
      cases harrives
  · rintro ⟨honce, hinhabited⟩
    refine ⟨fun v path hv hpath => ?_, fun hnone => ?_, fun hnone => ?_⟩
    · rw [hintAlong_top]
      exact ⟨fun h => h.1, fun h => ⟨h, honce v path hv hpath h⟩⟩
    · rintro ⟨v, path, hv, hpath, hword⟩
      have harrives := (hintAlong_top tb purpose t path).2 ⟨hword, honce v path hv hpath hword⟩
      rw [hnone, hintAlong_none] at harrives
      cases harrives
    · by_contra hsome
      obtain ⟨path, hpath⟩ := arrives_renderHint purpose [] t hsome
      exact hnone (hinhabited ⟨path, (hintAlong_top tb purpose t path).1 hpath⟩)

/-- `class Node { v: u64, next: ?Node }`. -/
def nodeTables : HintTables where
  records := [("Node", [("v", .intN false 64), ("next", .option (.named "Node" []))])]
  transientFields := []
  enums := []
  distinct := by simp
  genericTypes := []

/-- The second node of a chain of two. -/
theorem second_node_is_missed : ¬ nodeTables.HintExact .display (.named "Node" []) := by
  intro h
  have hlast : nodeTables.Typed .display (.named "Node" [])
      (.slots [.leaf, .variant "none" []]) :=
    .record (by decide) rfl (.cons (.leaf trivial) (.cons .absent .nil)) .nil
  have hchain : nodeTables.Typed .display (.named "Node" [])
      (.slots [.leaf, .variant "some" [.slots [.leaf, .variant "none" []]]]) :=
    .record (by decide) rfl (.cons (.leaf trivial) (.cons (.present hlast) .nil)) .nil
  have harrives := (h.arrives _ [.slot 1, .payload "some" 0, .slot 0] hchain rfl).2 rfl
  have hnodup := ((hintAlong_top _ _ _ _).1 harrives).2
  exact absurd hnodup (by decide)

end HintTables

end Noeta.Check
