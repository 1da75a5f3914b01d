import Noeta.Types.Patterns
import Mathlib.Algebra.Group.Int.Defs

/-!
# Exhaustiveness

When the verdict of `match_coverage` is right. A variant arm is counted for its variant whatever its
type name, arity and sub-patterns, an `is` arm for the members of a union below its target whatever
the runtime tests, and a case is reported missing whether or not it has values; the conditions below
say when these do not matter.
-/

namespace Noeta.Types

/-! ### The values of a type -/

/-- The integers of a width. -/
def inWidth (signed : Bool) (bits : Nat) (n : Int) : Prop :=
  if signed then -(2 : Int) ^ (bits - 1) ≤ n ∧ n < 2 ^ (bits - 1) else 0 ≤ n ∧ n < 2 ^ bits

/-- A value is one of a type. A type parameter, a hole and `dyn` admit every value. -/
inductive HasType (env : EnumEnv) : Value → Ty → Prop
  | unknown (v : Value) : HasType env v .unknown
  | dyn (v : Value) : HasType env v .dyn
  | param (v : Value) (id : Nat) : HasType env v (.param id)
  | unit : HasType env .unit .unit
  | int {n : Int} : inWidth true 64 n → HasType env (.int n) .int
  | intN {signed : Bool} {bits : Nat} {n : Int} : inWidth signed bits n →
      HasType env (.int n) (.intN signed bits)
  | float (x : BitVec 64) : HasType env (.float x) .float
  | f32AsFloat (x : BitVec 32) : HasType env (.f32 x) .float
  | f32 (x : BitVec 32) : HasType env (.f32 x) .f32
  | f64 (x : BitVec 64) : HasType env (.float x) .f64
  | bool (b : Bool) : HasType env (.bool b) .bool
  | string (s : String) : HasType env (.str s) .string
  | bytes (bs : List UInt8) : HasType env (.bytes bs) .bytes
  | list {vs : List Value} {t : Ty} : (∀ v ∈ vs, HasType env v t) → HasType env (.list vs) (.list t)
  | set {vs : List Value} {t : Ty} : (∀ v ∈ vs, HasType env v t) → HasType env (.set vs) (.set t)
  | map {ks vs : List Value} {k t : Ty} : (∀ v ∈ ks, HasType env v k) → (∀ v ∈ vs, HasType env v t) →
      HasType env (.map ks vs) (.map k t)
  | someVal {v : Value} {t : Ty} : HasType env v t →
      HasType env (.enumVal "Option" "some" [v]) (.option t)
  | noneVal (t : Ty) : HasType env (.enumVal "Option" "none" []) (.option t)
  | ok {v : Value} {t : Ty} (e : Ty) : HasType env v t →
      HasType env (.enumVal "Result" "Ok" [v]) (.result t e)
  | okUnit (e : Ty) : HasType env (.enumVal "Result" "Ok" []) (.result .unit e)
  | err {v : Value} {e : Ty} (t : Ty) : HasType env v e →
      HasType env (.enumVal "Result" "Err" [v]) (.result t e)
  | variant {n variant : String} {args fields : List Ty} {data : List Value} :
      env.variantFields n args variant = some fields → data.length = fields.length →
      (∀ (i : Nat) v t, data[i]? = some v → fields[i]? = some t → HasType env v t) →
      HasType env (.enumVal (env.valueName n) variant data) (.named n args)
  | object {n : String} {args fields : List Ty} {isStruct : Bool} {data : List Value} :
      env.enums n = none → env.records n = some (isStruct, fields) → data.length = fields.length →
      (∀ (i : Nat) v t, data[i]? = some v → fields[i]? = some t →
        HasType env v (substTy (env.typeArgSubst n args) t)) →
      HasType env (.object n isStruct data) (.named n args)
  | native {n : String} (args : List Ty) : env.enums n = none → env.records n = none →
      env.externs n = true → HasType env (.native n) (.named n args)
  | unnamed {n : String} (args : List Ty) : env.enums n = none → env.records n = none →
      env.externs n = false → HasType env .opaqueVal (.named n args)
  | fn (params : List Ty) (ret : Ty) : HasType env .function (.fn params ret)
  | enumKind (n variant : String) (data : List Value) :
      HasType env (.enumVal n variant data) (.kind .enumKind)
  | structKind (n : String) (data : List Value) : HasType env (.object n true data) (.kind .structKind)
  | classKind (n : String) (data : List Value) : HasType env (.object n false data) (.kind .classKind)
  | union {v : Value} {m : Ty} {ms : List Ty} : m ∈ ms → HasType env v m → HasType env v (.union ms)
  | tuple {vs : List Value} {ts : List Ty} : vs.length = ts.length →
      (∀ (i : Nat) v t, vs[i]? = some v → ts[i]? = some t → HasType env v t) →
      HasType env (.tuple vs) (.tuple ts)
  | dynTrait {v : Value} {n : String} (tr : String) : EnumEnv.nominalName v.head = some n →
      env.implements n tr = true → HasType env v (.dynTrait tr)

namespace EnumEnv

variable (env : EnumEnv)

/-! ### What the verdicts should mean -/

/-- The test of an arm, lowered, against a value. -/
def armMatches (scrut : Ty) (arm : MatchArm) (v : Value) : Bool :=
  (env.matchPattern (env.resolvePattern scrut arm.pattern) v).isSome

/-- The match cannot fail: whatever the guards evaluate to, some arm is taken. -/
def CannotFail (scrut : Ty) (arms : List MatchArm) : Prop :=
  ∀ v, HasType env v scrut → ∀ guardTrue : Nat → Bool, ∃ (i : Nat) (arm : MatchArm),
    arms[i]? = some arm ∧ env.armMatches scrut arm v = true ∧
      (arm.guarded = false ∨ guardTrue i = true)

/-- Some value is matched by no unguarded arm. -/
def CanFail (scrut : Ty) (arms : List MatchArm) : Prop :=
  ∃ v, HasType env v scrut ∧
    ∀ arm ∈ arms, arm.guarded = false → env.armMatches scrut arm v = false

/-- The verdict on a list of arms is right. -/
def CoverageSound (scrut : Ty) (arms : List MatchArm) : Prop :=
  (env.matchCoverage scrut arms = .total → env.CannotFail scrut arms) ∧
  ∀ cases domain, env.matchCoverage scrut arms = .missing cases domain → env.CanFail scrut arms

/-! ### When the count of cases is exact -/

mutual

/-- A pattern of a form that matches every value of a type. -/
def irrefutable : Ty → Pattern → Bool
  | _, .wildcard => true
  | ty, .binding name => env.isBindingPattern ty name
  | .tuple tys, .tuple elements => tys.length == elements.length && irrefutableAll tys elements
  | _, _ => false

def irrefutableAll : List Ty → List Pattern → Bool
  | ty :: tys, p :: ps => irrefutable ty p && irrefutableAll tys ps
  | _, _ => true

end

/-- The name the values of an enumerable scrutinee carry. -/
def carriedName : Ty → String
  | .result _ _ => "Result"
  | .option _ => "Option"
  | .named n _ => env.valueName n
  | _ => ""

/-- A pattern that matches every value of a case: it names the case under the right type, with a
sub-pattern for each field and none of them refutable. -/
def exactFor (scrut : Ty) (case : String) : Pattern → Bool
  | .bool b => decide (scrut = .bool) && case == (if b then "true" else "false")
  | .variant typeName variant bindings =>
    decide (scrut ≠ .bool) && variant == case &&
      (typeName.all fun n => (env.nativeNames n).getD n == env.carriedName scrut) &&
      bindings.length == (env.knownPayload scrut case).length &&
      env.irrefutableAll (env.knownPayload scrut case) bindings
  | .binding name =>
    name == case && (env.payloadFreeVariant scrut name).isSome &&
      (env.knownPayload scrut case).isEmpty &&
      match scrut with
      | .named n _ => (env.nativeNames n).getD n == env.valueName n
      | _ => true
  | _ => false

/-- The heads of the values of a type that fixes them. -/
def heads : Ty → Option (List Head)
  | .never => some []
  | .unit => some [.unit]
  | .int => some [.int]
  | .intN _ _ => some [.int]
  | .float => some [.float, .f32]
  | .f32 => some [.f32]
  | .f64 => some [.float]
  | .bool => some [.bool]
  | .string => some [.str]
  | .bytes => some [.bytes]
  | .list _ => some [.list]
  | .set _ => some [.set]
  | .map _ _ => some [.map]
  | .tuple _ => some [.tuple]
  | .fn _ _ => some [.function]
  | .option _ => some [.enumVal "Option"]
  | .result _ _ => some [.enumVal "Result"]
  | .named n _ =>
    if (env.enums n).isSome then some [.enumVal (env.valueName n)]
    else
      match env.records n with
      | some record => some [.object n record.1]
      | none => if env.externs n then some [.native n] else some [.opaqueVal]
  | _ => none

mutual

/-- A written type whose test takes every value of a type that does not fix its heads. -/
def openAccepts (m : Ty) : TypeRef → Bool
  | .union members => openAcceptsAny m members
  | .assocProjection _ => true
  | .dynTrait tr => decide (m = .dynTrait tr)
  | .named name args =>
    args.isEmpty &&
      match BuiltinTy.fromName name with
      | some (.dyn, _) => true
      | some (.kind k, _) => decide (m = .kind k)
      | _ => false
  | _ => false

def openAcceptsAny (m : Ty) : List TypeRef → Bool
  | [] => false
  | ref :: refs => openAccepts m ref || openAcceptsAny m refs

end

/-- The runtime test of a written type takes every value of a member: it names the member's head, with
no type arguments to compare. -/
def acceptsMember (m : Ty) (ty : TypeRef) : Bool :=
  match env.heads m with
  | some hs => hs.all fun h => env.headMatches (fun _ => false) h ty
  | none => openAccepts m ty

/-- Every case that some unguarded arm is counted for has an unguarded arm that takes all of it. -/
def CountsExact (scrut : Ty) (arms : List MatchArm) : Prop :=
  (∀ members, scrut = .union members → ∀ m ∈ members, env.uncoveredMember arms m = false →
    ∃ arm ∈ arms, arm.guarded = false ∧ ∃ ty, arm.pattern = .isType ty ∧
      env.acceptsMember m ty = true) ∧
  ∀ cases, env.allCases scrut = some cases → ∀ case ∈ cases,
    env.uncoveredCase scrut arms case = false →
    ∃ arm ∈ arms, arm.guarded = false ∧ env.exactFor scrut case arm.pattern = true

/-! ### When a missing case is missed -/

/-- A pattern that no value with a head matches, whatever its contents. -/
def rejectsHead (h : Head) : Pattern → Bool
  | .wildcard | .binding _ => false
  | .int _ => h != .int
  | .str _ => h != .str
  | .bool _ => h != .bool
  | .variant typeName _ _ =>
    match h with
    | .enumVal name => typeName.any fun n => (env.nativeNames n).getD n != name
    | _ => true
  | .isType ty => !env.headMatches (fun _ => true) h ty
  | .tuple _ => h != .tuple

/-- The case of an enumerable type a value is of. -/
def caseOf : Value → Option String
  | .enumVal _ variant _ => some variant
  | .bool b => some (if b then "true" else "false")
  | _ => none

/-- Something reported missing has a value that the unguarded arms leave out: an uncovered case with
a value, an integer that is not listed, a value of an uncovered member (for `dyn`, one without a
nameable type) whose head every unguarded arm rejects. -/
def MissingReal (scrut : Ty) (arms : List MatchArm) : Prop :=
  match scrut with
  | .union members => ∃ m ∈ members, env.uncoveredMember arms m = true ∧ ∃ v, HasType env v m ∧
      ∀ arm ∈ arms, arm.guarded = false → env.rejectsHead v.head arm.pattern = true
  | .dyn => ∀ arm ∈ arms, arm.guarded = false → env.rejectsHead .opaqueVal arm.pattern = true
  | .int => ∃ n, inWidth true 64 n ∧ ∀ arm ∈ arms, arm.guarded = false → arm.pattern ≠ .int n
  | .intN signed bits =>
    ∃ n, inWidth signed bits n ∧ ∀ arm ∈ arms, arm.guarded = false → arm.pattern ≠ .int n
  | .float | .f32 | .f64 | .string => True
  | scrut => ∃ v case, HasType env v scrut ∧ caseOf v = some case ∧
      env.uncoveredCase scrut arms case = true

/-! ### Irrefutable patterns match -/

variable {env}

/-- The values of a list of positions. -/
def Typed (env : EnumEnv) (vs : List Value) (ts : List Ty) : Prop :=
  vs.length = ts.length ∧ ∀ (i : Nat) v t, vs[i]? = some v → ts[i]? = some t → HasType env v t

theorem Typed.cons_inv {v : Value} {vs : List Value} {t : Ty} {ts : List Ty}
    (h : Typed env (v :: vs) (t :: ts)) : HasType env v t ∧ Typed env vs ts := by
  refine ⟨h.2 0 v t rfl rfl, by simpa using h.1, ?_⟩
  intro i w u hw hu
  exact h.2 (i + 1) w u (by simpa using hw) (by simpa using hu)

theorem elementTypes_tuple (tys : List Ty) : elementTypes (.tuple tys) tys.length = tys := by
  apply List.ext_getElem (by simp [elementTypes])
  intro i hi hi'
  simp [elementTypes, List.getElem?_eq_getElem hi']

theorem length_resolvePatterns : ∀ (tys : List Ty) (ps : List Pattern),
    (env.resolvePatterns tys ps).length = ps.length := by
  intro tys ps
  induction ps generalizing tys with
  | nil => rfl
  | cons p ps ih => rw [resolvePatterns, List.length_cons, List.length_cons, ih]

mutual

theorem irrefutable_matches : ∀ (p : Pattern) (ty : Ty) (v : Value), env.irrefutable ty p = true →
    HasType env v ty → (env.matchPattern (env.resolvePattern ty p) v).isSome = true
  | .wildcard, _, _, _, _ => rfl
  | .binding name, ty, v, h, _ => by
    have hnone : env.payloadFreeVariant ty name = none := by
      rw [irrefutable, isBindingPattern] at h
      exact Option.isNone_iff_eq_none.1 h
    rw [resolvePattern, hnone]
    rfl
  | .tuple elements, ty, v, h, hv => by
    cases ty with
    | tuple tys =>
      rw [irrefutable, Bool.and_eq_true, beq_iff_eq] at h
      cases hv with
      | tuple hlen htyped =>
        rename_i vs
        rw [resolvePattern, matchPattern, ← h.1, elementTypes_tuple]
        have hps : (env.resolvePatterns tys elements).length = elements.length :=
          length_resolvePatterns tys elements
        rw [if_neg (by omega)]
        exact irrefutableAll_matches elements tys vs h.2 h.1.symm ⟨hlen, htyped⟩
    | _ => simp [irrefutable] at h
  | .int _, ty, _, h, _ | .str _, ty, _, h, _ | .bool _, ty, _, h, _ | .variant _ _ _, ty, _, h, _
  | .isType _, ty, _, h, _ => by simp [irrefutable] at h

theorem irrefutableAll_matches : ∀ (ps : List Pattern) (tys : List Ty) (vs : List Value),
    env.irrefutableAll tys ps = true → ps.length = tys.length → Typed env vs tys →
    (env.matchZip (env.resolvePatterns tys ps) vs).isSome = true
  | [], _, _, _, _, _ => by simp [resolvePatterns, matchZip]
  | p :: ps, tys, vs, h, hlen, hvs => by
    cases tys with
    | nil => simp at hlen
    | cons ty tys =>
      cases vs with
      | nil => exact absurd hvs.1 (by simp)
      | cons v vs =>
        rw [irrefutableAll, Bool.and_eq_true] at h
        obtain ⟨hv, hrest⟩ := hvs.cons_inv
        have hp := irrefutable_matches p ty v h.1 hv
        have hps := irrefutableAll_matches ps tys vs h.2 (by simpa using hlen) hrest
        rw [resolvePatterns, matchZip]
        obtain ⟨bound, hbound⟩ := Option.isSome_iff_exists.1 hp
        obtain ⟨rest, hrest⟩ := Option.isSome_iff_exists.1 hps
        simp only [List.headD_cons, List.tail_cons, hbound, hrest]
        rfl

end

/-! ### The verdict `Total` -/

section Total

variable {scrut : Ty} {arms : List MatchArm}

/-- A value of an enumerable type is one of its cases, with a payload of that case's types. -/
theorem case_of_value {v : Value} {cases : List String} (hcases : env.allCases scrut = some cases)
    (hv : HasType env v scrut) :
    (∃ b, scrut = .bool ∧ v = .bool b ∧ (if b then "true" else "false") ∈ cases) ∨
    (scrut ≠ .bool ∧ ∃ case data, case ∈ cases ∧
      v = .enumVal (env.carriedName scrut) case data ∧
      (Typed env data (env.knownPayload scrut case) ∨
        env.carriedName scrut = "Result" ∧ data = [] ∧ env.knownPayload scrut case = [.unit])) := by
  have hone : ∀ {w : Value} {t : Ty}, HasType env w t → Typed env [w] [t] := by
    intro w t hw
    refine ⟨rfl, ?_⟩
    intro i x u hx hu
    cases i with
    | zero =>
      simp only [List.getElem?_cons_zero, Option.some.injEq] at hx hu
      exact hx ▸ hu ▸ hw
    | succ i => simp at hx
  cases scrut with
  | bool =>
    cases hv with
    | bool b =>
      rw [allCases, Option.some.injEq] at hcases
      refine .inl ⟨b, rfl, rfl, ?_⟩
      cases b <;> simp [← hcases]
  | option t =>
    rw [allCases, Option.some.injEq] at hcases
    refine .inr ⟨by simp, ?_⟩
    cases hv with
    | someVal hw => exact ⟨"some", _, by simp [← hcases], rfl, .inl (hone hw)⟩
    | noneVal => exact ⟨"none", [], by simp [← hcases], rfl, .inl ⟨rfl, by simp⟩⟩
  | result t e =>
    rw [allCases, Option.some.injEq] at hcases
    refine .inr ⟨by simp, ?_⟩
    cases hv with
    | ok _ hw => exact ⟨"Ok", _, by simp [← hcases], rfl, .inl (hone hw)⟩
    | okUnit => exact ⟨"Ok", [], by simp [← hcases], rfl, .inr ⟨rfl, rfl, rfl⟩⟩
    | err _ hw => exact ⟨"Err", _, by simp [← hcases], rfl, .inl (hone hw)⟩
  | named n args =>
    rw [allCases] at hcases
    obtain ⟨vs, hvs, rfl⟩ := Option.map_eq_some_iff.1 hcases
    refine .inr ⟨by simp, ?_⟩
    cases hv with
    | @variant _ case _ fields data hfields hlen htyped =>
      have hmem : case ∈ vs.map VariantInfo.name := by
        rw [variantFields, hvs, Option.bind_some, Option.map_eq_some_iff] at hfields
        obtain ⟨info, hinfo, -⟩ := hfields
        have hname := List.find?_some hinfo
        rw [beq_iff_eq] at hname
        exact List.mem_map.2 ⟨info, List.mem_of_find?_eq_some hinfo, hname⟩
      refine ⟨case, data, hmem, rfl, .inl ?_⟩
      rw [knownPayload, hfields]
      exact ⟨hlen, htyped⟩
    | object henum => simp [henum] at hvs
    | native _ henum => simp [henum] at hvs
    | unnamed _ henum => simp [henum] at hvs
  | _ => simp [allCases] at hcases

/-- An exact arm takes every value of its case. -/
theorem exactFor_matches {p : Pattern} {case : String} {data : List Value}
    (hne : scrut ≠ .bool) (hp : env.exactFor scrut case p = true)
    (hdata : Typed env data (env.knownPayload scrut case) ∨
      env.carriedName scrut = "Result" ∧ data = [] ∧ env.knownPayload scrut case = [.unit]) :
    (env.matchPattern (env.resolvePattern scrut p) (.enumVal (env.carriedName scrut) case data)).isSome =
      true := by
  cases p with
  | bool b => simp [exactFor, hne] at hp
  | variant typeName variant bindings =>
    simp only [exactFor, Bool.and_eq_true, beq_iff_eq] at hp
    obtain ⟨⟨⟨⟨-, rfl⟩, htype⟩, hlen⟩, hirr⟩ := hp
    have hpayload : env.payloadTypes scrut variant bindings.length = env.knownPayload scrut variant :=
      if_pos hlen.symm
    have hlength : (env.resolvePatterns (env.knownPayload scrut variant) bindings).length =
        bindings.length := length_resolvePatterns _ _
    rw [resolvePattern, matchPattern, hpayload, if_pos (by simpa using htype)]
    rcases hdata with htyped | ⟨hresult, rfl, hunit⟩
    · have hsame := htyped.1
      rw [if_neg (by omega)]
      exact irrefutableAll_matches bindings _ data hirr hlen htyped
    · have hcount : bindings.length = 1 := by rw [hlen, hunit]; rfl
      rw [if_pos (by rw [hlength, hcount]; simp), if_pos ⟨hresult, rfl, by rw [hlength, hcount]⟩]
      refine irrefutableAll_matches bindings _ [.unit] hirr hlen ?_
      rw [hunit]
      refine ⟨rfl, ?_⟩
      intro i w u hw hu
      cases i with
      | zero =>
        simp only [List.getElem?_cons_zero, Option.some.injEq] at hw hu
        exact hw ▸ hu ▸ .unit
      | succ i => simp at hw
  | binding name =>
    simp only [exactFor, Bool.and_eq_true, beq_iff_eq, List.isEmpty_iff] at hp
    obtain ⟨⟨⟨rfl, hfree⟩, hempty⟩, hname⟩ := hp
    obtain ⟨⟨typeName, variant⟩, hresolved⟩ := Option.isSome_iff_exists.1 hfree
    rw [resolvePattern, hresolved]
    have hnil : data = [] := by
      rcases hdata with htyped | ⟨-, rfl, -⟩
      · have hlen := htyped.1
        rw [hempty] at hlen
        exact List.length_eq_zero_iff.1 hlen
      · rfl
    subst hnil
    have htest : (typeName.all fun n => (env.nativeNames n).getD n == env.carriedName scrut) = true ∧
        name = variant := by
      cases scrut with
      | option t =>
        rw [payloadFreeVariant] at hresolved
        split at hresolved
        · rename_i hnone
          simp only [Option.some.injEq, Prod.mk.injEq] at hresolved
          rw [← hresolved.1, ← hresolved.2]
          exact ⟨rfl, hnone⟩
        · exact absurd hresolved (by simp)
      | named n args =>
        simp only [payloadFreeVariant, Option.bind_eq_some_iff] at hresolved
        obtain ⟨key, -, vs, -, hvs⟩ := hresolved
        split at hvs
        · simp only [Option.some.injEq, Prod.mk.injEq] at hvs
          rw [← hvs.1, ← hvs.2]
          exact ⟨by simpa [carriedName] using hname, rfl⟩
        · exact absurd hvs (by simp)
      | _ => simp [payloadFreeVariant] at hresolved
    rw [matchPattern, if_pos (by simpa using htest), if_neg (by simp)]
    rfl
  | _ => simp [exactFor] at hp

mutual

theorem headMatches_mono {check check' : List TypeRef → Bool} {h : Head}
    (hle : ∀ args, check args = true → check' args = true) : ∀ ty : TypeRef,
    env.headMatches check h ty = true → env.headMatches check' h ty = true
  | .union members, hm => headMatchesAny_mono hle members hm
  | .named name args, hm => by
    rw [headMatches, Bool.and_eq_true, Bool.or_eq_true] at hm ⊢
    exact ⟨hm.1, hm.2.imp_right (hle args)⟩
  | .optional _, hm | .dynTrait _, hm | .assocProjection _, hm | .tuple _, hm | .fn _ _, hm => hm

theorem headMatchesAny_mono {check check' : List TypeRef → Bool} {h : Head}
    (hle : ∀ args, check args = true → check' args = true) : ∀ refs : List TypeRef,
    env.headMatchesAny check h refs = true → env.headMatchesAny check' h refs = true
  | [], hm => hm
  | ref :: refs, hm => by
    rw [headMatchesAny, Bool.or_eq_true] at hm ⊢
    exact hm.imp (headMatches_mono hle ref) (headMatchesAny_mono hle refs)

end

theorem head_mem_heads {v : Value} {m : Ty} {hs : List Head} (hm : env.heads m = some hs)
    (hv : HasType env v m) : v.head ∈ hs := by
  cases hv with
  | @variant n _ _ _ _ hfields =>
    have henum : (env.enums n).isSome = true := by
      rw [variantFields, Option.bind_eq_some_iff] at hfields
      obtain ⟨vs, hvs, -⟩ := hfields
      rw [hvs]
      rfl
    rw [heads, if_pos henum, Option.some.injEq] at hm
    exact hm ▸ List.mem_singleton.2 rfl
  | object henum hrecord =>
    rw [heads, henum, hrecord, if_neg (by simp), Option.some.injEq] at hm
    exact hm ▸ List.mem_singleton.2 rfl
  | native _ henum hrecord hext =>
    rw [heads, henum, hrecord, if_neg (by simp)] at hm
    simp only [hext, if_true, Option.some.injEq] at hm
    exact hm ▸ List.mem_singleton.2 rfl
  | unnamed _ henum hrecord hext =>
    rw [heads, henum, hrecord, if_neg (by simp)] at hm
    simp only [hext, Bool.false_eq_true, if_false, Option.some.injEq] at hm
    exact hm ▸ List.mem_singleton.2 rfl
  | _ => simp [heads] at hm <;> subst hm <;> simp [Value.head]

mutual

theorem openAccepts_matches {v : Value} {m : Ty} {check : List TypeRef → Bool}
    (hv : HasType env v m) : ∀ ty : TypeRef, openAccepts m ty = true →
    env.headMatches check v.head ty = true
  | .union members, h => openAcceptsAny_matches hv members h
  | .assocProjection _, _ => rfl
  | .dynTrait tr, h => by
    rw [openAccepts, decide_eq_true_eq] at h
    subst h
    cases hv with
    | dynTrait _ hname himp =>
      rw [headMatches, hname]
      exact himp
  | .named name args, h => by
    rw [openAccepts, Bool.and_eq_true] at h
    rw [headMatches, h.1, Bool.true_or, Bool.and_true, headOk]
    cases hname : BuiltinTy.fromName name with
    | none => simp [hname] at h
    | some b =>
      obtain ⟨builtin, bare⟩ := b
      cases builtin with
      | dyn => rfl
      | kind k =>
        have hk : m = .kind k := by simpa [hname] using h.2
        subst hk
        cases hv <;> rfl
      | _ => simp [hname] at h
  | .optional _, h | .tuple _, h | .fn _ _, h => by simp [openAccepts] at h

theorem openAcceptsAny_matches {v : Value} {m : Ty} {check : List TypeRef → Bool}
    (hv : HasType env v m) : ∀ refs : List TypeRef, openAcceptsAny m refs = true →
    env.headMatchesAny check v.head refs = true
  | [], h => by simp [openAcceptsAny] at h
  | ref :: refs, h => by
    rw [openAcceptsAny, Bool.or_eq_true] at h
    rw [headMatchesAny, Bool.or_eq_true]
    exact h.imp (openAccepts_matches hv ref) (openAcceptsAny_matches hv refs)

end

theorem acceptsMember_matches {v : Value} {m : Ty} {ty : TypeRef} (hv : HasType env v m)
    (h : env.acceptsMember m ty = true) : env.runtimeMatches v ty = true := by
  unfold acceptsMember at h
  cases hheads : env.heads m with
  | some hs =>
    rw [hheads] at h
    have hhead := List.all_eq_true.1 h v.head (head_mem_heads hheads hv)
    exact headMatches_mono (by simp) ty hhead
  | none =>
    rw [hheads] at h
    exact openAccepts_matches hv ty h

theorem cannotFail_of_unguarded (h : ∀ v, HasType env v scrut → ∃ arm ∈ arms, arm.guarded = false ∧
    env.armMatches scrut arm v = true) : env.CannotFail scrut arms := by
  intro v hv guardTrue
  obtain ⟨arm, harm, hguard, hmatch⟩ := h v hv
  obtain ⟨i, hi⟩ := List.mem_iff_getElem?.1 harm
  exact ⟨i, arm, hi, hmatch, .inl hguard⟩

theorem catchesAll_matches {arm : MatchArm} (h : env.catchesAll scrut arm = true) (v : Value) :
    arm.guarded = false ∧ env.armMatches scrut arm v = true := by
  rw [catchesAll, Bool.and_eq_true, Bool.not_eq_true'] at h
  refine ⟨h.1, ?_⟩
  unfold armMatches
  cases hp : arm.pattern with
  | wildcard => rfl
  | binding name =>
    have hnone : env.payloadFreeVariant scrut name = none := by
      have hbinding := h.2
      rw [hp] at hbinding
      exact Option.isNone_iff_eq_none.1 hbinding
    rw [resolvePattern, hnone]
    rfl
  | _ => simp [hp] at h

theorem fromMissing_eq_total {cases : List MissingCase} {domain : MatchDomain}
    (h : MatchCoverage.fromMissing cases domain = .total) : cases = [] := by
  unfold MatchCoverage.fromMissing at h
  split at h
  · exact List.isEmpty_iff.1 (by assumption)
  · exact absurd h (by simp)

/-- The verdict `Total` is right when the count of cases is exact. -/
theorem cannotFail_of_total (hexact : env.CountsExact scrut arms)
    (h : env.matchCoverage scrut arms = .total) : env.CannotFail scrut arms := by
  apply cannotFail_of_unguarded
  intro v hv
  unfold matchCoverage at h
  split at h
  · rename_i hcatch
    obtain ⟨arm, harm, hall⟩ := List.any_eq_true.1 hcatch
    exact ⟨arm, harm, catchesAll_matches hall v⟩
  · split at h
    · split at h
      · -- a union under `is` arms: the value is one of a member
        have hnone := List.map_eq_nil_iff.1 (fromMissing_eq_total h)
        cases hv with
        | @union _ m _ hm hvm =>
          have hcovered : env.uncoveredMember arms m = false := by
            simpa using List.filter_eq_nil_iff.1 hnone m hm
          obtain ⟨arm, harm, hguard, ty, hp, haccepts⟩ := hexact.1 _ rfl m hm hcovered
          refine ⟨arm, harm, hguard, ?_⟩
          rw [armMatches, hp, resolvePattern, matchPattern, if_pos (acceptsMember_matches hvm haccepts)]
          · rfl
          all_goals simp
      · exact absurd (fromMissing_eq_total h) (by simp)
      · exact absurd h (by simp)
    · split at h
      · exact absurd h (by simp)
      · split at h
        · rename_i cases hcases
          have hnone := List.map_eq_nil_iff.1 (fromMissing_eq_total h)
          have harm : ∀ case ∈ cases, ∃ arm ∈ arms, arm.guarded = false ∧
              env.exactFor scrut case arm.pattern = true := by
            intro case hcase
            apply hexact.2 cases hcases case hcase
            simpa using List.filter_eq_nil_iff.1 hnone case hcase
          rcases case_of_value hcases hv with ⟨b, rfl, rfl, hb⟩ | ⟨hne, case, data, hcase, rfl, hdata⟩
          · obtain ⟨arm, hmem, hguard, hp⟩ := harm _ hb
            refine ⟨arm, hmem, hguard, ?_⟩
            unfold armMatches
            cases hpattern : arm.pattern with
            | bool b' =>
              rw [hpattern] at hp
              cases b <;> cases b' <;> simp_all [exactFor, resolvePattern, matchPattern]
            | variant => simp [hpattern, exactFor] at hp
            | binding => simp [hpattern, exactFor, payloadFreeVariant] at hp
            | _ => simp [hpattern, exactFor] at hp
          · obtain ⟨arm, hmem, hguard, hp⟩ := harm case hcase
            exact ⟨arm, hmem, hguard, exactFor_matches hne hp hdata⟩
        · exact absurd h (by simp)

end Total

/-! ### The verdict `Missing` -/

section Missing

variable {scrut : Ty} {arms : List MatchArm}

theorem not_matches_of_rejectsHead {arm : MatchArm} {v : Value}
    (h : env.rejectsHead v.head arm.pattern = true) : env.armMatches scrut arm v = false := by
  unfold armMatches
  cases hp : arm.pattern with
  | wildcard => simp [hp, rejectsHead] at h
  | binding => simp [hp, rejectsHead] at h
  | isType ty =>
    rw [hp, rejectsHead, Bool.not_eq_true'] at h
    rw [resolvePattern, matchPattern, if_neg]
    · rfl
    · intro hmatch
      rw [headMatches_mono (by simp) ty hmatch] at h
      exact Bool.noConfusion h
    all_goals simp
  | variant typeName variant bindings =>
    cases v with
    | enumVal name actual data =>
      have hfails : (typeName.all fun n => (env.nativeNames n).getD n == name) = false := by
        cases typeName with
        | none => simp [hp, rejectsHead, Value.head] at h
        | some n =>
          rw [hp] at h
          simpa [rejectsHead, Value.head] using h
      rw [resolvePattern, matchPattern, hfails]
      rfl
    | _ => rfl
  | _ => cases v <;> first | rfl | simp [hp, rejectsHead, Value.head] at h

theorem not_catchesAll {arm : MatchArm} (hnone : ¬ arms.any (env.catchesAll scrut) = true)
    (harm : arm ∈ arms) (hguard : arm.guarded = false) : arm.pattern ≠ .wildcard ∧
      ∀ name, arm.pattern = .binding name → env.isBindingPattern scrut name = false := by
  have hno : env.catchesAll scrut arm = false := by
    rw [Bool.not_eq_true, List.any_eq_false] at hnone
    simpa using hnone arm harm
  refine ⟨fun hp => ?_, fun name hp => ?_⟩
  · simp [catchesAll, hguard, hp] at hno
  · simpa [catchesAll, hguard, hp] using hno

theorem not_isType {arm : MatchArm} (hnone : ¬ hasIsArms arms = true) (harm : arm ∈ arms)
    (ty : TypeRef) : arm.pattern ≠ .isType ty := by
  intro hp
  refine hnone (List.any_eq_true.2 ⟨arm, harm, ?_⟩)
  rw [hp]

/-- A number or a string is matched by its own literal only. -/
theorem canFail_of_scalar (hscalar : isScalar scrut = true)
    (hcatch : ¬ arms.any (env.catchesAll scrut) = true) (his : ¬ hasIsArms arms = true) {v : Value}
    (hv : HasType env v scrut)
    (hint : ∀ n, v = .int n → ∀ arm ∈ arms, arm.guarded = false → arm.pattern ≠ .int n)
    (hstr : ∀ s, v = .str s → ∀ arm ∈ arms, arm.guarded = false → arm.pattern ≠ .str s) :
    env.CanFail scrut arms := by
  refine ⟨v, hv, fun arm harm hguard => ?_⟩
  obtain ⟨hwild, hbind⟩ := not_catchesAll hcatch harm hguard
  have hfree : ∀ name, env.payloadFreeVariant scrut name = none := by
    intro name
    cases scrut <;> first | rfl | simp [isScalar] at hscalar
  have hhead : ∀ n w d, v ≠ .enumVal n w d := by
    rintro n w d rfl
    cases hv <;> simp [isScalar] at hscalar
  have htuple : ∀ items, v ≠ .tuple items := by
    rintro items rfl
    cases hv <;> simp [isScalar] at hscalar
  have hbool : ∀ b, v ≠ .bool b := by
    rintro b rfl
    cases hv <;> simp [isScalar] at hscalar
  unfold armMatches
  cases hp : arm.pattern with
  | wildcard => exact absurd hp hwild
  | binding name =>
    have hno := hbind name hp
    rw [isBindingPattern, hfree name] at hno
    exact Bool.noConfusion hno
  | isType ty => exact absurd hp (not_isType his harm ty)
  | int n =>
    cases v with
    | int k =>
      have hne : k ≠ n := fun heq => hint k rfl arm harm hguard (heq ▸ hp)
      simp [resolvePattern, matchPattern, hne]
    | _ => rfl
  | str s =>
    cases v with
    | str k =>
      have hne : k ≠ s := fun heq => hstr k rfl arm harm hguard (heq ▸ hp)
      simp [resolvePattern, matchPattern, hne]
    | _ => rfl
  | bool b =>
    cases v with
    | bool k => exact absurd rfl (hbool k)
    | _ => rfl
  | variant =>
    cases v with
    | enumVal n w d => exact absurd rfl (hhead n w d)
    | _ => rfl
  | tuple =>
    cases v with
    | tuple items => exact absurd rfl (htuple items)
    | _ => rfl

theorem exists_unlisted_string (arms : List MatchArm) : ∃ s, ∀ arm ∈ arms, arm.pattern ≠ .str s := by
  have hbound : ∃ n, ∀ arm ∈ arms, ∀ s, arm.pattern = .str s → s.length < n := by
    induction arms with
    | nil => exact ⟨0, by simp⟩
    | cons arm arms ih =>
      obtain ⟨n, hn⟩ := ih
      by_cases hstr : ∃ s, arm.pattern = .str s
      · obtain ⟨s, hs⟩ := hstr
        refine ⟨n + s.length + 1, fun a ha u hu => ?_⟩
        rcases List.mem_cons.1 ha with rfl | ha
        · rw [hs, Pattern.str.injEq] at hu
          rw [← hu]
          omega
        · have := hn a ha u hu
          omega
      · refine ⟨n, fun a ha u hu => ?_⟩
        rcases List.mem_cons.1 ha with rfl | ha
        · exact absurd ⟨u, hu⟩ hstr
        · exact hn a ha u hu
  obtain ⟨n, hn⟩ := hbound
  refine ⟨String.ofList (List.replicate n 'a'), fun arm harm hp => ?_⟩
  have hlt := hn arm harm _ hp
  simp at hlt

theorem payloadFreeVariant_name {name variant : String} {typeName : Option String}
    (h : env.payloadFreeVariant scrut name = some (typeName, variant)) : variant = name := by
  cases scrut with
  | option t =>
    rw [payloadFreeVariant] at h
    split at h
    · rename_i hnone
      simp only [Option.some.injEq, Prod.mk.injEq] at h
      rw [← h.2, hnone]
    · exact absurd h (by simp)
  | named n args =>
    simp only [payloadFreeVariant, Option.bind_eq_some_iff] at h
    obtain ⟨key, -, vs, -, hvs⟩ := h
    split at hvs
    · simp only [Option.some.injEq, Prod.mk.injEq] at hvs
      exact hvs.2.symm
    · exact absurd hvs (by simp)
  | _ => simp [payloadFreeVariant] at h

/-- A value of an uncovered case is matched by no unguarded arm. -/
theorem not_matches_uncovered {arm : MatchArm} {v : Value} {case : String}
    (hcatch : ¬ arms.any (env.catchesAll scrut) = true) (his : ¬ hasIsArms arms = true)
    (hcase : caseOf v = some case) (huncovered : env.uncoveredCase scrut arms case = true)
    (harm : arm ∈ arms) (hguard : arm.guarded = false) : env.armMatches scrut arm v = false := by
  obtain ⟨hwild, hbind⟩ := not_catchesAll hcatch harm hguard
  have hcounted : env.coveredCase scrut arm ≠ some case := by
    intro hcovered
    rw [uncoveredCase, Bool.not_eq_true', ← Bool.not_eq_true, List.contains_iff_mem] at huncovered
    exact huncovered (List.mem_filterMap.2 ⟨arm, harm, hcovered⟩)
  rw [coveredCase, if_neg (by simp [hguard])] at hcounted
  -- a variant test for another variant fails on every value
  have hvariant : ∀ typeName variant bindings, variant ≠ case →
      (env.matchPattern (.variant typeName variant bindings) v).isSome = false := by
    intro typeName variant bindings hne
    cases v with
    | enumVal name actual data =>
      rw [caseOf, Option.some.injEq] at hcase
      have hactual : (actual == variant) = false := by
        rw [hcase]
        simpa using Ne.symm hne
      rw [matchPattern, hactual, Bool.and_false]
      rfl
    | _ => rfl
  unfold armMatches
  cases hp : arm.pattern with
  | wildcard => exact absurd hp hwild
  | isType ty => exact absurd hp (not_isType his harm ty)
  | binding name =>
    have hno := hbind name hp
    rw [isBindingPattern, Option.isNone_eq_false_iff, Option.isSome_iff_exists] at hno
    obtain ⟨⟨typeName, variant⟩, hresolved⟩ := hno
    rw [hp] at hcounted
    simp only [hbind name hp, Bool.false_eq_true, if_false, ne_eq, Option.some.injEq] at hcounted
    rw [resolvePattern, hresolved]
    apply hvariant
    rw [payloadFreeVariant_name hresolved]
    exact hcounted
  | variant typeName variant bindings =>
    rw [hp] at hcounted
    rw [resolvePattern]
    apply hvariant
    simpa using hcounted
  | bool b =>
    cases v with
    | bool b' =>
      rw [hp] at hcounted
      rw [caseOf, Option.some.injEq] at hcase
      subst hcase
      cases b <;> cases b' <;> simp_all [resolvePattern, matchPattern]
    | _ => rfl
  | _ => cases v <;> first | rfl | simp [caseOf] at hcase

/-- The verdict `Missing` is right when something missing has a value the arms leave out. -/
theorem canFail_of_missing {cases : List MissingCase} {domain : MatchDomain}
    (hreal : env.MissingReal scrut arms) (h : env.matchCoverage scrut arms = .missing cases domain) :
    env.CanFail scrut arms := by
  unfold matchCoverage at h
  split at h
  · exact absurd h (by simp)
  · rename_i hcatch
    split at h
    · split at h
      · obtain ⟨m, hm, -, v, hv, hrejects⟩ := hreal
        exact ⟨v, .union hm hv, fun arm harm hguard =>
          not_matches_of_rejectsHead (hrejects arm harm hguard)⟩
      · exact ⟨.opaqueVal, .dyn _, fun arm harm hguard =>
          not_matches_of_rejectsHead (hreal arm harm hguard)⟩
      · exact absurd h (by simp)
    · rename_i his
      split at h
      · rename_i hscalar
        cases scrut with
        | int =>
          obtain ⟨n, hn, hlisted⟩ := hreal
          refine canFail_of_scalar hscalar hcatch his (.int hn) ?_ (by simp)
          intro k hk
          cases hk
          exact hlisted
        | intN signed bits =>
          obtain ⟨n, hn, hlisted⟩ := hreal
          refine canFail_of_scalar hscalar hcatch his (.intN hn) ?_ (by simp)
          intro k hk
          cases hk
          exact hlisted
        | float => exact canFail_of_scalar hscalar hcatch his (.float 0) (by simp) (by simp)
        | f32 => exact canFail_of_scalar hscalar hcatch his (.f32 0) (by simp) (by simp)
        | f64 => exact canFail_of_scalar hscalar hcatch his (.f64 0) (by simp) (by simp)
        | string =>
          obtain ⟨s, hs⟩ := exists_unlisted_string arms
          refine canFail_of_scalar hscalar hcatch his (.string s) (by simp) ?_
          intro k hk
          cases hk
          exact fun arm harm _ => hs arm harm
        | _ => simp [isScalar] at hscalar
      · rename_i hscalar
        have hcase : ∃ v case, HasType env v scrut ∧ caseOf v = some case ∧
            env.uncoveredCase scrut arms case = true := by
          cases scrut with
          | union => simp [allCases] at h
          | dyn => simp [allCases] at h
          | int => simp [isScalar] at hscalar
          | intN => simp [isScalar] at hscalar
          | float => simp [isScalar] at hscalar
          | f32 => simp [isScalar] at hscalar
          | f64 => simp [isScalar] at hscalar
          | string => simp [isScalar] at hscalar
          | _ => exact hreal
        obtain ⟨v, case, hv, hof, huncovered⟩ := hcase
        exact ⟨v, hv, fun arm harm hguard =>
          not_matches_uncovered hcatch his hof huncovered harm hguard⟩

end Missing

/-- A program that declares nothing. -/
def bareEnv : EnumEnv where
  enums _ := none
  externTypes _ := none
  genericTypes _ := none
  records _ := none
  externs _ := false
  scope := ⟨[], none⟩
  valueName n := n
  nativeNames _ := none
  implements _ _ := false
  narrowArgsMatch _ _ := false

end EnumEnv

end Noeta.Types
