import Noeta.Check.Send
import Noeta.Lib.Strike

/-!
# Destructor relevance

`relevance.rs`: which declared types a destructor may be reached through, a fixpoint over the declared records and enums, and from it which types a drop may pass over. A type that is not relevant has only values that own nothing a destructor could hang on.
-/

namespace Noeta.Check

open Noeta.Lib (Striker)
open Noeta.Lib.FirstSeen (collect)
open Noeta.Types (Ty)

/-! ### The fixpoint -/

/-- The tables of `symbols` the fixpoint reads, each in the order of its iteration. -/
structure RelevanceTables where
  records : List (String × List (String × Ty))
  /-- The payload types of each variant. -/
  enums : List (String × List (List Ty))
  /-- The parameters of each generic type. -/
  genericTypes : List (String × List Nat)
  destructorClasses : List String

mutual

def typeRelevant (reachable : List String) : Ty → Bool
  | .unit => false
  | .int => false
  | .float => false
  | .f32 => false
  | .f64 => false
  | .intN _ _ => false
  | .bool => false
  | .string => false
  | .bytes => false
  | .never => false
  | .unknown => true
  | .dyn => true
  | .dynTrait _ => true
  | .kind _ => true
  | .param _ => true
  | .fn _ _ => true
  | .list e => typeRelevant reachable e
  | .set e => typeRelevant reachable e
  | .option e => typeRelevant reachable e
  | .map k v => typeRelevant reachable k || typeRelevant reachable v
  | .result t e => typeRelevant reachable t || typeRelevant reachable e
  | .union members => anyRelevant reachable members
  | .tuple elements => anyRelevant reachable elements
  | .named name args =>
    if name = "Future" ∨ name = "Iterator" then true
    else reachable.contains name || anyRelevant reachable args

def anyRelevant (reachable : List String) : List Ty → Bool
  | [] => false
  | t :: ts => typeRelevant reachable t || anyRelevant reachable ts

end

def paramsToDyn (t : Ty) (params : List Nat) : Ty :=
  if params.isEmpty then t else applySubst (params.map fun p => (p, .dyn)) t

/-- An entry of the two tables `compute_relevance` goes through. -/
inductive RelevanceDecl where
  | record (name : String) (fields : List (String × Ty))
  | enum (name : String) (variants : List (List Ty))

def RelevanceDecl.name : RelevanceDecl → String
  | .record name _ => name
  | .enum name _ => name

namespace RelevanceTables

variable (tb : RelevanceTables)

/-- The declarations a round visits, the records first. -/
def decls : List RelevanceDecl :=
  (tb.records.map fun e => .record e.1 e.2) ++ tb.enums.map fun e => .enum e.1 e.2

def params (name : String) : List Nat := (lookup tb.genericTypes name).getD []

/-- The closure `relevant`: a payload type with the declaration's parameters at `dyn`. -/
def relevant (reachable : List String) (params : List Nat) (t : Ty) : Bool :=
  typeRelevant reachable (paramsToDyn t params)

/-- Whether a field or a payload of the declaration is relevant. -/
def reaches (reachable : List String) : RelevanceDecl → Bool
  | .record name fields => fields.any fun f => relevant reachable (tb.params name) f.2
  | .enum name variants => variants.any fun v => v.any fun t => relevant reachable (tb.params name) t

/-- One visit, with `changed`. -/
def visit (state : List String × Bool) (d : RelevanceDecl) : List String × Bool :=
  if !state.1.contains d.name && tb.reaches state.1 d then (d.name :: state.1, true) else state

/-- One round of the loop. -/
def round (reachable : List String) : List String × Bool := tb.decls.foldl tb.visit (reachable, false)

/-- Rounds until one changes nothing. -/
def rounds : Nat → List String → List String
  | 0, reachable => reachable
  | n + 1, reachable => if (tb.round reachable).2 then rounds n (tb.round reachable).1 else (tb.round reachable).1

/-- `compute_relevance`. Each round but the last inserts a declared name (`reachable_least`). -/
def destructReachable : List String := tb.rounds (tb.decls.length + 1) tb.destructorClasses

/-- The rules of the fixpoint: a class with a destructor is in, and so is a declaration with a relevant field or payload. -/
structure Closed (reachable : List String) : Prop where
  destructors : ∀ name ∈ tb.destructorClasses, name ∈ reachable
  reaches : ∀ d ∈ tb.decls, tb.reaches reachable d = true → d.name ∈ reachable

end RelevanceTables

/-! ### More reachable names make more types relevant -/

mutual

theorem typeRelevant_mono {r r' : List String} (hsub : ∀ name ∈ r, name ∈ r') :
    (t : Ty) → typeRelevant r t = true → typeRelevant r' t = true
  | .unit, h => h
  | .int, h => h
  | .float, h => h
  | .f32, h => h
  | .f64, h => h
  | .intN _ _, h => h
  | .bool, h => h
  | .string, h => h
  | .bytes, h => h
  | .never, h => h
  | .unknown, _ => rfl
  | .dyn, _ => rfl
  | .dynTrait _, _ => rfl
  | .kind _, _ => rfl
  | .param _, _ => rfl
  | .fn _ _, _ => rfl
  | .list e, h => typeRelevant_mono hsub e h
  | .set e, h => typeRelevant_mono hsub e h
  | .option e, h => typeRelevant_mono hsub e h
  | .map k v, h => by
    simp only [typeRelevant, Bool.or_eq_true] at h ⊢
    exact h.imp (typeRelevant_mono hsub k) (typeRelevant_mono hsub v)
  | .result t e, h => by
    simp only [typeRelevant, Bool.or_eq_true] at h ⊢
    exact h.imp (typeRelevant_mono hsub t) (typeRelevant_mono hsub e)
  | .union members, h => anyRelevant_mono hsub members h
  | .tuple elements, h => anyRelevant_mono hsub elements h
  | .named name args, h => by
    simp only [typeRelevant] at h ⊢
    split
    · rfl
    · rename_i hname
      rw [if_neg hname] at h
      simp only [Bool.or_eq_true, List.contains_iff_mem] at h ⊢
      exact h.imp (hsub name) (anyRelevant_mono hsub args)

theorem anyRelevant_mono {r r' : List String} (hsub : ∀ name ∈ r, name ∈ r') :
    (ts : List Ty) → anyRelevant r ts = true → anyRelevant r' ts = true
  | [], h => h
  | t :: ts, h => by
    simp only [anyRelevant, Bool.or_eq_true] at h ⊢
    exact h.imp (typeRelevant_mono hsub t) (anyRelevant_mono hsub ts)

end

namespace RelevanceTables

variable {tb : RelevanceTables}

theorem reaches_mono {r r' : List String} (hsub : ∀ name ∈ r, name ∈ r') {d : RelevanceDecl}
    (h : tb.reaches r d = true) : tb.reaches r' d = true := by
  cases d with
  | record name fields =>
    simp only [reaches, List.any_eq_true] at h ⊢
    obtain ⟨f, hf, hrel⟩ := h
    exact ⟨f, hf, typeRelevant_mono hsub _ hrel⟩
  | enum name variants =>
    simp only [reaches, List.any_eq_true] at h ⊢
    obtain ⟨v, hv, t, ht, hrel⟩ := h
    exact ⟨v, hv, t, ht, typeRelevant_mono hsub _ hrel⟩

/-! ### The loop leaves the least closed set -/

/-- The loop as one that strikes the names not reached. -/
def striker (tb : RelevanceTables) : Striker (List String) RelevanceDecl String where
  marks reachable name := !reachable.contains name
  key := RelevanceDecl.name
  refuses := tb.reaches
  strike reachable d := d.name :: reachable
  strike_marks := by
    intro s d name _ _
    rw [List.contains_cons, Bool.not_or, Bool.and_comm]
    congr 1
    by_cases hname : name = d.name
    · simp [hname]
    · simp [hname]
  refuses_mono := by
    intro s u d hle
    apply reaches_mono
    intro name hname
    by_contra hnot
    have hmarks := hle name (by simpa using hnot)
    simp [hname] at hmarks

theorem rounds_eq (n : Nat) (reachable : List String) : tb.rounds n reachable = tb.striker.settle tb.decls n reachable := by
  induction n generalizing reachable with
  | zero => rfl
  | succ n ih =>
    rw [rounds, Striker.settle, ih]
    rfl

theorem marks_iff {r : List String} {name : String} : tb.striker.marks r name = true ↔ name ∉ r := by
  simp [striker]

theorem le_striker_iff {r r' : List String} : tb.striker.Le r r' ↔ ∀ name ∈ r', name ∈ r := by
  constructor
  · intro h name hname
    by_contra hnot
    exact marks_iff.mp (h name (marks_iff.mpr hnot)) hname
  · intro h name hmarks
    apply marks_iff.mpr
    intro hname
    exact marks_iff.mp hmarks (h name hname)

theorem accepted_striker_iff {r : List String} :
    tb.striker.Accepted tb.decls r ↔ ∀ d ∈ tb.decls, tb.reaches r d = true → d.name ∈ r := by
  constructor
  · intro h d hd hreaches
    by_contra hnot
    have hrefuses : tb.reaches r d = false := h d hd (marks_iff.mpr hnot)
    rw [hreaches] at hrefuses
    cases hrefuses
  · intro h d hd hmarks
    by_contra hrefuses
    exact marks_iff.mp hmarks (h d hd (Bool.of_not_eq_false hrefuses))

theorem reachable_least (tb : RelevanceTables) :
    tb.Closed tb.destructReachable ∧ ∀ r, tb.Closed r → ∀ name ∈ tb.destructReachable, name ∈ r := by
  have hfuel : tb.striker.marked tb.decls tb.destructorClasses < tb.decls.length + 1 :=
    Nat.lt_succ_of_le (List.length_filter_le _ _)
  obtain ⟨haccepted, hle, hgreatest⟩ := Striker.settle_spec tb.decls _ _ hfuel
  rw [← rounds_eq] at haccepted hle hgreatest
  rw [le_striker_iff] at hle
  rw [accepted_striker_iff] at haccepted
  refine ⟨⟨hle, haccepted⟩, ?_⟩
  intro r hr
  apply le_striker_iff.mp
  exact hgreatest r (accepted_striker_iff.mpr hr.reaches) (le_striker_iff.mpr hr.destructors)

/-- The same tables gone through in another order. -/
structure Reordered (tb tb' : RelevanceTables) : Prop where
  records : List.Perm tb.records tb'.records
  enums : List.Perm tb.enums tb'.enums
  genericTypes : ∀ name, lookup tb.genericTypes name = lookup tb'.genericTypes name
  destructorClasses : ∀ name, name ∈ tb.destructorClasses ↔ name ∈ tb'.destructorClasses

theorem Reordered.symm {tb tb' : RelevanceTables} (h : Reordered tb tb') : Reordered tb' tb :=
  ⟨h.records.symm, h.enums.symm, fun name => (h.genericTypes name).symm,
    fun name => (h.destructorClasses name).symm⟩

theorem Reordered.closed {tb tb' : RelevanceTables} (h : Reordered tb tb') {r : List String}
    (hr : tb.Closed r) : tb'.Closed r := by
  have hparams : ∀ name, tb'.params name = tb.params name := fun name => by
    rw [params, params, h.genericTypes]
  have hdecls : List.Perm tb.decls tb'.decls := (h.records.map _).append (h.enums.map _)
  refine ⟨?_, ?_⟩
  · intro name hname
    exact hr.destructors name ((h.destructorClasses name).mpr hname)
  · intro d hd hreaches
    apply hr.reaches d (hdecls.mem_iff.mpr hd)
    cases d with
    | record name fields => simpa only [reaches, hparams] using hreaches
    | enum name variants => simpa only [reaches, hparams] using hreaches

theorem Reordered.destructReachable_iff {tb tb' : RelevanceTables} (h : Reordered tb tb') (name : String) :
    name ∈ tb.destructReachable ↔ name ∈ tb'.destructReachable := by
  obtain ⟨hclosed, hleast⟩ := reachable_least tb
  obtain ⟨hclosed', hleast'⟩ := reachable_least tb'
  constructor
  · exact hleast _ (h.symm.closed hclosed') name
  · exact hleast' _ (h.closed hclosed) name

end RelevanceTables

/-! ### Parameters are relevant -/

section Union

variable {r : List String}

theorem anyRelevant_eq_false {ts : List Ty} : anyRelevant r ts = false ↔ ∀ t ∈ ts, typeRelevant r t = false := by
  induction ts with
  | nil => simp [anyRelevant]
  | cons t ts ih => simp [anyRelevant, ih]

theorem typeRelevant_brought {t : Ty} (h : ∀ u ∈ t.brought, typeRelevant r u = false) :
    typeRelevant r t = false := by
  cases t with
  | union ms => exact anyRelevant_eq_false.2 h
  | _ => exact h _ List.mem_cons_self

theorem typeRelevant_of_unionOf {ts : List Ty} (h : typeRelevant r (Ty.unionOf ts) = false) :
    anyRelevant r ts = false := by
  rw [Types.unionOf_eq_ofFlat] at h
  split at h
  · cases h
  · -- what is left out of the collected members is `never`, which owns nothing
    have hkept : ∀ u ∈ collect [] ((ts.flatMap Ty.brought).filter (· ≠ .never)),
        typeRelevant r u = false := by
      intro u hu
      generalize collect [] ((ts.flatMap Ty.brought).filter (· ≠ .never)) = flat at h hu
      rcases flat with _ | ⟨t, _ | ⟨_, _⟩⟩
      · cases hu
      · exact List.mem_singleton.1 hu ▸ h
      · exact anyRelevant_eq_false.1 h u hu
    refine anyRelevant_eq_false.2 fun t ht => typeRelevant_brought fun u hu => ?_
    by_cases hn : u = .never
    · rw [hn]
      rfl
    · exact hkept u (by simpa [hn] using ⟨t, ht, hu⟩)

end Union

section Params

variable {r : List String} {subst : Subst}

mutual

/-- A type that is not relevant with parameters at `dyn` is not relevant as it is written. -/
theorem typeRelevant_of_applySubst (hdyn : ∀ id, subst.get id = none ∨ subst.get id = some .dyn) :
    (t : Ty) → typeRelevant r (applySubst subst t) = false → typeRelevant r t = false
  | .unit, h => h
  | .int, h => h
  | .float, h => h
  | .f32, h => h
  | .f64, h => h
  | .intN _ _, h => h
  | .bool, h => h
  | .string, h => h
  | .bytes, h => h
  | .never, h => h
  | .unknown, h => h
  | .dyn, h => h
  | .dynTrait _, h => h
  | .kind _, h => h
  | .param id, h => by
    rw [applySubst] at h
    rcases hdyn id with hget | hget
    · rw [hget] at h
      exact h
    · rw [hget] at h
      cases h
  | .fn _ _, h => by
    rw [applySubst] at h
    cases h
  | .list e, h | .set e, h | .option e, h => typeRelevant_of_applySubst hdyn e (by rwa [applySubst] at h)
  | .map k v, h => by
    simp only [applySubst, typeRelevant, Bool.or_eq_false_iff] at h ⊢
    exact ⟨typeRelevant_of_applySubst hdyn k h.1, typeRelevant_of_applySubst hdyn v h.2⟩
  | .result t e, h => by
    simp only [applySubst, typeRelevant, Bool.or_eq_false_iff] at h ⊢
    exact ⟨typeRelevant_of_applySubst hdyn t h.1, typeRelevant_of_applySubst hdyn e h.2⟩
  | .union members, h => by
    rw [applySubst] at h
    exact anyRelevant_of_applySubsts hdyn members (typeRelevant_of_unionOf h)
  | .tuple elements, h => anyRelevant_of_applySubsts hdyn elements (by rwa [applySubst] at h)
  | .named name args, h => by
    simp only [applySubst, typeRelevant] at h ⊢
    split at h
    · cases h
    · rename_i hname
      rw [if_neg hname]
      rw [Bool.or_eq_false_iff] at h ⊢
      exact ⟨h.1, anyRelevant_of_applySubsts hdyn args h.2⟩

theorem anyRelevant_of_applySubsts (hdyn : ∀ id, subst.get id = none ∨ subst.get id = some .dyn) :
    (ts : List Ty) → anyRelevant r (applySubsts subst ts) = false → anyRelevant r ts = false
  | [], h => h
  | t :: ts, h => by
    simp only [applySubsts, anyRelevant, Bool.or_eq_false_iff] at h ⊢
    exact ⟨typeRelevant_of_applySubst hdyn t h.1, anyRelevant_of_applySubsts hdyn ts h.2⟩

end

theorem get_map_dyn (params : List Nat) (id : Nat) :
    Subst.get (params.map fun p => (p, .dyn)) id = none ∨
      Subst.get (params.map fun p => (p, .dyn)) id = some .dyn := by
  induction params with
  | nil => exact Or.inl rfl
  | cons p params ih =>
    by_cases hp : p = id
    · simp [Subst.get, hp]
    · have hne : (p == id) = false := beq_eq_false_iff_ne.mpr hp
      simpa only [Subst.get, List.map_cons, List.find?_cons, hne] using ih

theorem typeRelevant_of_paramsToDyn {t : Ty} {params : List Nat}
    (h : typeRelevant r (paramsToDyn t params) = false) : typeRelevant r t = false := by
  unfold paramsToDyn at h
  split at h
  · exact h
  · exact typeRelevant_of_applySubst (get_map_dyn params) t h

mutual

/-- The type with its parameters replaced. -/
def instantiate (subst : Subst) : Ty → Ty
  | .param id => (subst.get id).getD (.param id)
  | .named n args => .named n (instantiates subst args)
  | .list t => .list (instantiate subst t)
  | .set t => .set (instantiate subst t)
  | .map k v => .map (instantiate subst k) (instantiate subst v)
  | .option t => .option (instantiate subst t)
  | .result t e => .result (instantiate subst t) (instantiate subst e)
  | .tuple es => .tuple (instantiates subst es)
  | .union es => .union (instantiates subst es)
  | .fn ps ret => .fn (instantiates subst ps) (instantiate subst ret)
  | other => other

def instantiates (subst : Subst) : List Ty → List Ty
  | [] => []
  | t :: ts => instantiate subst t :: instantiates subst ts

end

mutual

/-- A type that is not relevant mentions no parameter. -/
theorem instantiate_of_not_relevant : (t : Ty) → typeRelevant r t = false → instantiate subst t = t
  | .unit, _ => rfl
  | .int, _ => rfl
  | .float, _ => rfl
  | .f32, _ => rfl
  | .f64, _ => rfl
  | .intN _ _, _ => rfl
  | .bool, _ => rfl
  | .string, _ => rfl
  | .bytes, _ => rfl
  | .never, _ => rfl
  | .unknown, _ => rfl
  | .dyn, _ => rfl
  | .dynTrait _, _ => rfl
  | .kind _, _ => rfl
  | .param _, h => by cases h
  | .fn _ _, h => by cases h
  | .list e, h => congrArg Ty.list (instantiate_of_not_relevant e h)
  | .set e, h => congrArg Ty.set (instantiate_of_not_relevant e h)
  | .option e, h => congrArg Ty.option (instantiate_of_not_relevant e h)
  | .map k v, h => by
    simp only [typeRelevant, Bool.or_eq_false_iff] at h
    rw [instantiate, instantiate_of_not_relevant k h.1, instantiate_of_not_relevant v h.2]
  | .result t e, h => by
    simp only [typeRelevant, Bool.or_eq_false_iff] at h
    rw [instantiate, instantiate_of_not_relevant t h.1, instantiate_of_not_relevant e h.2]
  | .union members, h => congrArg Ty.union (instantiates_of_not_relevant members h)
  | .tuple elements, h => congrArg Ty.tuple (instantiates_of_not_relevant elements h)
  | .named name args, h => by
    rw [typeRelevant] at h
    split at h
    · cases h
    · rw [Bool.or_eq_false_iff] at h
      rw [instantiate, instantiates_of_not_relevant args h.2]

theorem instantiates_of_not_relevant : (ts : List Ty) → anyRelevant r ts = false → instantiates subst ts = ts
  | [], _ => rfl
  | t :: ts, h => by
    simp only [anyRelevant, Bool.or_eq_false_iff] at h
    rw [instantiates, instantiate_of_not_relevant t h.1, instantiates_of_not_relevant ts h.2]

end

end Params

/-! ### Values and what they own -/

/-- What a value is, apart from its parts. -/
inductive Holder where
  | plain
  | function
  | future
  | iterator
  | instance (type : String)

/-- A finite value with the values it holds. -/
inductive OwnedValue where
  | mk (holder : Holder) (parts : List OwnedValue)

namespace RelevanceTables

variable (tb : RelevanceTables)

/-- The types whose values hold no other value. -/
def Scalar : Ty → Prop
  | .unit => True
  | .int => True
  | .float => True
  | .f32 => True
  | .f64 => True
  | .intN _ _ => True
  | .bool => True
  | .string => True
  | .bytes => True
  | _ => False

/-- The types that any value may have. -/
def Open : Ty → Prop
  | .unknown => True
  | .dyn => True
  | .dynTrait _ => True
  | .kind _ => True
  | .param _ => True
  | _ => False

/-- The types of a declaration's payloads at type arguments. -/
def payloadTypes (name : String) (args : List Ty) (ts : List Ty) : List Ty :=
  ts.map (instantiate ((tb.params name).zip args))

/-- The finite values of a type. A named type without a declaration is a native container of its arguments. -/
inductive HasType : Ty → OwnedValue → Prop where
  | scalar {t} (h : Scalar t) : HasType t (.mk .plain [])
  | any {t v} (h : Open t) : HasType t v
  | function {ps ret parts} : HasType (.fn ps ret) (.mk .function parts)
  | future {args parts} : HasType (.named "Future" args) (.mk .future parts)
  | iterator {args parts} : HasType (.named "Iterator" args) (.mk .iterator parts)
  | list {e vs} (h : ∀ v ∈ vs, HasType e v) : HasType (.list e) (.mk .plain vs)
  | set {e vs} (h : ∀ v ∈ vs, HasType e v) : HasType (.set e) (.mk .plain vs)
  | none {e} : HasType (.option e) (.mk .plain [])
  | some {e v} (h : HasType e v) : HasType (.option e) (.mk .plain [v])
  | map {k e ks vs} (hkeys : ∀ v ∈ ks, HasType k v) (h : ∀ v ∈ vs, HasType e v) :
      HasType (.map k e) (.mk .plain (ks ++ vs))
  | ok {t e v} (h : HasType t v) : HasType (.result t e) (.mk .plain [v])
  | err {t e v} (h : HasType e v) : HasType (.result t e) (.mk .plain [v])
  | union {ms m v} (hmem : m ∈ ms) (h : HasType m v) : HasType (.union ms) v
  | tuple {ts vs} (hlen : vs.length = ts.length) (h : ∀ p ∈ ts.zip vs, HasType p.1 p.2) :
      HasType (.tuple ts) (.mk .plain vs)
  | record {name fields args vs} (hdecl : (name, fields) ∈ tb.records) (hlen : vs.length = fields.length)
      (h : ∀ p ∈ (tb.payloadTypes name args (fields.map Prod.snd)).zip vs, HasType p.1 p.2) :
      HasType (.named name args) (.mk (.instance name) vs)
  | variant {name variants payload args vs} (hdecl : (name, variants) ∈ tb.enums) (hvariant : payload ∈ variants)
      (hlen : vs.length = payload.length)
      (h : ∀ p ∈ (tb.payloadTypes name args payload).zip vs, HasType p.1 p.2) :
      HasType (.named name args) (.mk (.instance name) vs)
  | native {name args} {ts : List Ty} {vs} (hdecl : ∀ d ∈ tb.decls, d.name ≠ name) (hargs : ∀ t ∈ ts, t ∈ args)
      (hlen : vs.length = ts.length) (h : ∀ p ∈ ts.zip vs, HasType p.1 p.2) :
      HasType (.named name args) (.mk .plain vs)

/-- An object of a class with a destructor, a function value, a future or an iterator. -/
def Bears : Holder → Prop
  | .plain => False
  | .function => True
  | .future => True
  | .iterator => True
  | .instance type => type ∈ tb.destructorClasses

/-- The value or one it holds, to any depth, is such an object. -/
inductive Owns : OwnedValue → Prop where
  | self {holder parts} (h : tb.Bears holder) : Owns (.mk holder parts)
  | part {holder parts v} (hv : v ∈ parts) (h : Owns v) : Owns (.mk holder parts)

variable {tb}

theorem not_owns_of_zip {holder : Holder} {ts : List Ty} {vs : List OwnedValue} (hlen : vs.length = ts.length)
    (hholder : ¬ tb.Bears holder) (h : ∀ p ∈ ts.zip vs, ¬ tb.Owns p.2) : ¬ tb.Owns (.mk holder vs) := by
  intro howns
  cases howns with
  | self hself => exact hholder hself
  | part hv hpart =>
    obtain ⟨i, hi, rfl⟩ := List.mem_iff_getElem.mp hv
    have hts : i < ts.length := by omega
    have hzip : (ts.zip vs)[i]? = some (ts[i], vs[i]) := by
      rw [List.getElem?_zip_eq_some]
      exact ⟨List.getElem?_eq_getElem hts, List.getElem?_eq_getElem hi⟩
    exact h _ (List.mem_of_getElem? hzip) hpart

theorem payload_not_relevant {name : String} {args ts : List Ty} {r : List String}
    (h : ∀ t ∈ ts, relevant r (tb.params name) t = false) :
    ∀ t ∈ tb.payloadTypes name args ts, typeRelevant r t = false := by
  intro t ht
  obtain ⟨u, hu, rfl⟩ := List.mem_map.mp ht
  have hplain := typeRelevant_of_paramsToDyn (h u hu)
  rwa [instantiate_of_not_relevant u hplain]

theorem typeRelevant_of_open {r : List String} {t : Ty} (h : Open t) : typeRelevant r t = true := by
  cases t <;> first | rfl | cases h

theorem not_reached {r : List String} {name : String} {args : List Ty}
    (h : typeRelevant r (.named name args) = false) :
    name ≠ "Future" ∧ name ≠ "Iterator" ∧ name ∉ r ∧ anyRelevant r args = false := by
  rw [typeRelevant] at h
  split at h
  · cases h
  · rename_i hname
    rw [Bool.or_eq_false_iff] at h
    refine ⟨fun heq => hname (Or.inl heq), fun heq => hname (Or.inr heq), ?_, h.2⟩
    simpa using h.1

/-- Against a closed set, a value of a type that is not relevant owns nothing. By induction on the value. -/
theorem not_owns_of_not_relevant {r : List String} (hclosed : tb.Closed r) {t : Ty} {v : OwnedValue}
    (hv : tb.HasType t v) (hrel : typeRelevant r t = false) : ¬ tb.Owns v := by
  have hplain : ¬ tb.Bears .plain := fun h => h
  -- a value that holds the listed ones and is none of those objects itself
  have hholds : ∀ {vs : List OwnedValue}, (∀ v ∈ vs, ¬ tb.Owns v) → ¬ tb.Owns (.mk .plain vs) := by
    intro vs hvs howns
    cases howns with
    | self hself => exact hplain hself
    | part hmem hpart => exact hvs _ hmem hpart
  induction hv with
  | scalar _ => exact hholds (by simp)
  | any hopen =>
    rw [typeRelevant_of_open hopen] at hrel
    cases hrel
  | function => cases hrel
  | future => exact absurd rfl (not_reached hrel).1
  | iterator => exact absurd rfl (not_reached hrel).2.1
  | list _ ih => exact hholds fun v hv => ih v hv hrel
  | set _ ih => exact hholds fun v hv => ih v hv hrel
  | none => exact hholds (by simp)
  | some _ ih =>
    apply hholds
    intro w hw
    rw [List.mem_singleton.mp hw]
    exact ih hrel
  | map _ _ ihkeys ih =>
    rw [typeRelevant, Bool.or_eq_false_iff] at hrel
    apply hholds
    intro w hw
    rcases List.mem_append.mp hw with hw | hw
    · exact ihkeys w hw hrel.1
    · exact ih w hw hrel.2
  | ok _ ih =>
    rw [typeRelevant, Bool.or_eq_false_iff] at hrel
    apply hholds
    intro w hw
    rw [List.mem_singleton.mp hw]
    exact ih hrel.1
  | err _ ih =>
    rw [typeRelevant, Bool.or_eq_false_iff] at hrel
    apply hholds
    intro w hw
    rw [List.mem_singleton.mp hw]
    exact ih hrel.2
  | union hmem _ ih => exact ih (anyRelevant_eq_false.mp hrel _ hmem)
  | tuple hlen _ ih =>
    apply not_owns_of_zip hlen hplain
    intro p hp
    exact ih p hp (anyRelevant_eq_false.mp hrel _ (List.of_mem_zip hp).1)
  | record hdecl hlen _ ih =>
    rename_i name fields args vs _
    obtain ⟨-, -, hname, -⟩ := not_reached hrel
    have hfields : ∀ t ∈ fields.map Prod.snd, relevant r (tb.params name) t = false := by
      intro t ht
      obtain ⟨f, hf, rfl⟩ := List.mem_map.mp ht
      by_contra hfield
      refine hname (hclosed.reaches (.record name fields) ?_ ?_)
      · exact List.mem_append_left _ (List.mem_map_of_mem hdecl)
      · exact List.any_eq_true.mpr ⟨f, hf, Bool.of_not_eq_false hfield⟩
    have hholder : ¬ tb.Bears (.instance name) := fun h => hname (hclosed.destructors name h)
    have hlen' : vs.length = (tb.payloadTypes name args (fields.map Prod.snd)).length := by
      simpa [payloadTypes] using hlen
    apply not_owns_of_zip hlen' hholder
    intro p hp
    exact ih p hp (payload_not_relevant hfields _ (List.of_mem_zip hp).1)
  | variant hdecl hvariant hlen _ ih =>
    rename_i name variants payload args vs _
    obtain ⟨-, -, hname, -⟩ := not_reached hrel
    have hpayload : ∀ t ∈ payload, relevant r (tb.params name) t = false := by
      intro t ht
      by_contra hfield
      refine hname (hclosed.reaches (.enum name variants) ?_ ?_)
      · exact List.mem_append_right _ (List.mem_map_of_mem hdecl)
      · exact List.any_eq_true.mpr ⟨payload, hvariant, List.any_eq_true.mpr ⟨t, ht, Bool.of_not_eq_false hfield⟩⟩
    have hholder : ¬ tb.Bears (.instance name) := fun h => hname (hclosed.destructors name h)
    have hlen' : vs.length = (tb.payloadTypes name args payload).length := by
      simpa [payloadTypes] using hlen
    apply not_owns_of_zip hlen' hholder
    intro p hp
    exact ih p hp (payload_not_relevant hpayload _ (List.of_mem_zip hp).1)
  | native _ hargs hlen _ ih =>
    obtain ⟨-, -, -, hnone⟩ := not_reached hrel
    apply not_owns_of_zip hlen hplain
    intro p hp
    exact ih p hp (anyRelevant_eq_false.mp hnone _ (hargs _ (List.of_mem_zip hp).1))

/-- Destructor reachability is the least set closed under its rules, in whatever order the tables are gone through, and a type it calls not relevant has no value that owns an object of a class with a destructor, a function value, a future or an iterator. -/
theorem relevance_sound (tb : RelevanceTables) :
    (tb.Closed tb.destructReachable ∧ ∀ r, tb.Closed r → ∀ name ∈ tb.destructReachable, name ∈ r) ∧
      (∀ tb', Reordered tb tb' → ∀ name, name ∈ tb.destructReachable ↔ name ∈ tb'.destructReachable) ∧
      ∀ t v, typeRelevant tb.destructReachable t = false → tb.HasType t v → ¬ tb.Owns v := by
  refine ⟨reachable_least tb, ?_, ?_⟩
  · intro tb' h name
    exact h.destructReachable_iff name
  · intro t v hrel hv
    exact not_owns_of_not_relevant (reachable_least tb).1 hv hrel

end RelevanceTables

end Noeta.Check
