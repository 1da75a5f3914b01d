import Noeta.Types.Variance

/-!
# Match patterns

`match_coverage` of `noeta-check/src/expr/patterns.rs`, the resolution of bare names that
`bind_pattern` records for the lowering, and `match_pattern` of `noeta-eval/src/lib.rs`, which tests
the lowered pattern against a value.
-/

namespace Noeta.Types

inductive Pattern where
  | wildcard
  | binding (name : String)
  | int (value : Int)
  | str (value : String)
  | bool (value : Bool)
  | variant (typeName : Option String) (variant : String) (bindings : List Pattern)
  | isType (ty : TypeRef)
  | tuple (elements : List Pattern)

/-- An arm: its pattern, and whether it has a guard. -/
structure MatchArm where
  pattern : Pattern
  guarded : Bool

structure VariantInfo where
  name : String
  fields : List Ty

/-! ### Values -/

/-- A runtime value; `opaque` values are those with no nameable type (iterators, futures, handles,
modules, type values). -/
inductive Value where
  | int (n : Int)
  | float (bits : BitVec 64)
  | f32 (bits : BitVec 32)
  | bool (b : Bool)
  | str (s : String)
  | bytes (bs : List UInt8)
  | unit
  | list (elems : List Value)
  | set (elems : List Value)
  | map (keys values : List Value)
  | tuple (items : List Value)
  | enumVal (enumName variant : String) (data : List Value)
  | object (name : String) (isStruct : Bool) (fields : List Value)
  | function
  | native (identity : String)
  | opaqueVal

/-- The head constructor of a value: all that a type test without arguments sees. -/
inductive Head where
  | int
  | float
  | f32
  | bool
  | str
  | bytes
  | unit
  | list
  | set
  | map
  | tuple
  | enumVal (enumName : String)
  | object (name : String) (isStruct : Bool)
  | function
  | native (identity : String)
  | opaqueVal
deriving DecidableEq, Repr

def Value.head : Value → Head
  | .int _ => .int
  | .float _ => .float
  | .f32 _ => .f32
  | .bool _ => .bool
  | .str _ => .str
  | .bytes _ => .bytes
  | .unit => .unit
  | .list _ => .list
  | .set _ => .set
  | .map _ _ => .map
  | .tuple _ => .tuple
  | .enumVal name _ _ => .enumVal name
  | .object name isStruct _ => .object name isStruct
  | .function => .function
  | .native identity => .native identity
  | .opaqueVal => .opaqueVal

/-! ### The environment -/

/-- What the checker and the runtime know of the declared types. -/
structure EnumEnv where
  /-- `symbols.enums`. -/
  enums : String → Option (List VariantInfo)
  /-- `imports.extern_types`: the qualified name behind an imported native type. -/
  externTypes : String → Option String
  /-- `symbols.generic_types`: the parameters of a generic type. -/
  genericTypes : String → Option (List Nat)
  /-- The fields of a declared struct or class, and whether it is a struct. -/
  records : String → Option (Bool × List Ty)
  /-- Whether a name is a native type whose values carry their identity. -/
  externs : String → Bool
  /-- The type names in scope where the arms are written. -/
  scope : TypeScope
  /-- The name the values of an enum carry: the enum's own, or a native enum's short one. -/
  valueName : String → String
  /-- `native_type_names`: the value name behind a local binding of a native type. -/
  nativeNames : String → Option String
  /-- `type_implements`, of a nominal name and a trait. -/
  implements : String → String → Bool
  /-- `narrow_args_match` of a target's arguments against the type a value reflects. -/
  narrowArgsMatch : List TypeRef → Value → Bool

mutual

/-- `apply_subst`. -/
def substTy (subst : List (Nat × Ty)) : Ty → Ty
  | .param p => (subst.lookup p).getD (.param p)
  | .named n args => .named n (substTys subst args)
  | .list t => .list (substTy subst t)
  | .set t => .set (substTy subst t)
  | .map k v => .map (substTy subst k) (substTy subst v)
  | .option t => .option (substTy subst t)
  | .result t e => .result (substTy subst t) (substTy subst e)
  | .tuple es => .tuple (substTys subst es)
  | .union es => .unionOf (substTys subst es)
  | .fn ps r => .fn (substTys subst ps) (substTy subst r)
  | other => other

def substTys (subst : List (Nat × Ty)) : List Ty → List Ty
  | [] => []
  | t :: ts => substTy subst t :: substTys subst ts

end

namespace EnumEnv

variable (env : EnumEnv)

def enumTypeKey (typeName : String) : Option String :=
  if (env.enums typeName).isSome then some typeName
  else (env.externTypes typeName).filter fun q => (env.enums q).isSome

def typeArgSubst (name : String) (args : List Ty) : List (Nat × Ty) :=
  match env.genericTypes name with
  | some params => params.zip args
  | none => []

/-- The fields of a variant of an enum, at the type arguments of the scrutinee. -/
def variantFields (name : String) (args : List Ty) (variant : String) : Option (List Ty) :=
  (env.enums name).bind fun vs =>
    (vs.find? fun v => v.name == variant).map fun v =>
      v.fields.map (substTy (env.typeArgSubst name args))

def payloadFreeVariant (scrut : Ty) (name : String) : Option (Option String × String) :=
  match scrut with
  | .option _ => if name = "none" then some (none, "none") else none
  | .named typeName _ =>
    (env.enumTypeKey typeName).bind fun key =>
      (env.enums key).bind fun vs =>
        if vs.any fun v => v.name == name && v.fields.isEmpty then some (some typeName, name) else none
  | _ => none

def isBindingPattern (scrut : Ty) (name : String) : Bool :=
  (env.payloadFreeVariant scrut name).isNone

/-- The payload of a variant as `payload_types` knows it. -/
def knownPayload (ty : Ty) (variant : String) : List Ty :=
  match ty with
  | .result ok err => if variant = "Ok" then [ok] else if variant = "Err" then [err] else []
  | .option inner => if variant = "some" then [inner] else []
  | .named n args => (env.variantFields n args variant).getD []
  | _ => []

def payloadTypes (ty : Ty) (variant : String) (arity : Nat) : List Ty :=
  if (env.knownPayload ty variant).length = arity then env.knownPayload ty variant
  else List.replicate arity .unknown

/-- The types the positions of a tuple pattern are matched at. -/
def elementTypes (ty : Ty) (arity : Nat) : List Ty :=
  (List.range arity).map fun i =>
    match ty with
    | .tuple els => els.getD i .unknown
    | _ => .unknown

mutual

/-- The lowered pattern: `bind_pattern` records what a bare name resolves to, each at the type it is
matched at, and `resolve_variant_patterns` rewrites it. -/
def resolvePattern (ty : Ty) : Pattern → Pattern
  | .binding name =>
    match env.payloadFreeVariant ty name with
    | some (typeName, variant) => .variant typeName variant []
    | none => .binding name
  | .variant typeName variant bindings =>
    .variant typeName variant
      (resolvePatterns (env.payloadTypes ty variant bindings.length) bindings)
  | .tuple elements => .tuple (resolvePatterns (elementTypes ty elements.length) elements)
  | other => other

def resolvePatterns (tys : List Ty) : List Pattern → List Pattern
  | [] => []
  | p :: ps => resolvePattern (tys.headD .unknown) p :: resolvePatterns tys.tail ps

end

end EnumEnv

/-! ### The verdict -/

/-- Which domain the arms are checked against. -/
inductive MatchDomain where
  | types
  | variants
  | scalar
deriving DecidableEq, Repr

/-- A case reported as missing. -/
inductive MissingCase where
  | type (ty : Ty)
  | openDyn
  | otherValues (ty : Ty)
  | variant (name : String)

inductive MatchCoverage where
  | total
  | missing (cases : List MissingCase) (domain : MatchDomain)
  | unknown

def MatchCoverage.fromMissing (cases : List MissingCase) (domain : MatchDomain) : MatchCoverage :=
  if cases.isEmpty then .total else .missing cases domain

/-- The lattice without a registry. -/
def noRegistry : NominalRules where
  isOfKind _ _ := false
  implementsTrait _ _ := false
  covariantArg _ _ := false

namespace EnumEnv

variable (env : EnumEnv)

/-- An unguarded arm that catches everything. -/
def catchesAll (scrut : Ty) (arm : MatchArm) : Bool :=
  !arm.guarded &&
    match arm.pattern with
    | .wildcard => true
    | .binding name => env.isBindingPattern scrut name
    | _ => false

/-- The targets of the unguarded `is` arms. -/
def typeTargets (arms : List MatchArm) : List Ty :=
  arms.filterMap fun a =>
    match a.pattern with
    | .isType ty => if a.guarded then none else some (annot env.scope ty)
    | _ => none

def hasIsArms (arms : List MatchArm) : Bool :=
  arms.any fun a =>
    match a.pattern with
    | .isType _ => true
    | _ => false

/-- A member of a union that no unguarded target is above. -/
def uncoveredMember (arms : List MatchArm) (m : Ty) : Bool :=
  !(env.typeTargets arms).any fun t => subtypeWith noRegistry m t

/-- The cases of an enumerable scrutinee. -/
def allCases : Ty → Option (List String)
  | .result _ _ => some ["Ok", "Err"]
  | .option _ => some ["some", "none"]
  | .bool => some ["true", "false"]
  | .named n _ => (env.enums n).map fun vs => vs.map VariantInfo.name
  | _ => none

/-- The case an unguarded arm is counted for. -/
def coveredCase (scrut : Ty) (arm : MatchArm) : Option String :=
  if arm.guarded then none
  else
    match arm.pattern with
    | .variant _ variant _ => some variant
    | .bool true => some "true"
    | .bool false => some "false"
    | .binding name => if env.isBindingPattern scrut name then none else some name
    | _ => none

/-- A case that no unguarded arm is counted for. -/
def uncoveredCase (scrut : Ty) (arms : List MatchArm) (case : String) : Bool :=
  !(arms.filterMap (env.coveredCase scrut)).contains case

def isScalar : Ty → Bool
  | .int | .intN _ _ | .float | .f32 | .f64 | .string => true
  | _ => false

def matchCoverage (scrut : Ty) (arms : List MatchArm) : MatchCoverage :=
  if arms.any (env.catchesAll scrut) then .total
  else if hasIsArms arms then
    match scrut with
    | .union members =>
      .fromMissing ((members.filter (env.uncoveredMember arms)).map .type) .types
    | .dyn => .fromMissing [.openDyn] .types
    | _ => .unknown
  else if isScalar scrut then .missing [.otherValues scrut] .scalar
  else
    match env.allCases scrut with
    | some cases => .fromMissing ((cases.filter (env.uncoveredCase scrut arms)).map .variant) .variants
    | none => .unknown

/-! ### The runtime test -/

/-- `value_nominal_name`. -/
def nominalName : Head → Option String
  | .object name _ => some name
  | .enumVal name => some name
  | .native identity => some identity
  | _ => none

/-- The built-in heads of `runtime_matches`; `none` falls through to the nominal match. -/
def builtinHead (h : Head) : BuiltinTy → Option Bool
  | .int => some (h == .int)
  | .float => some (h == .float || h == .f32)
  | .f32 => some (h == .f32)
  | .bool => some (h == .bool)
  | .number => some (h == .int || h == .float || h == .f32)
  | .str => some (h == .str)
  | .bytes => some (h == .bytes)
  | .unit => some (h == .unit)
  | .dyn => some true
  | .never => some false
  | .list => some (h == .list)
  | .map => some (h == .map)
  | .set => some (h == .set)
  | .kind .enumKind => some (match h with | .enumVal _ => true | _ => false)
  | .kind .structKind => some (match h with | .object _ isStruct => isStruct | _ => false)
  | .kind .classKind => some (match h with | .object _ isStruct => !isStruct | _ => false)
  | .option | .result => none
  | .f64 | .intN _ _ => none

/-- The head test of a named target. -/
def headOk (h : Head) (name : String) : Bool :=
  match (BuiltinTy.fromName name).bind fun b => builtinHead h b.1 with
  | some ok => ok
  | none => nominalName h == some name

mutual

/-- `runtime_matches` on a head, over a check of the type arguments. -/
def headMatches (check : List TypeRef → Bool) (h : Head) : TypeRef → Bool
  | .union members => headMatchesAny check h members
  | .optional _ => h == .enumVal "Option"
  | .dynTrait tr => (nominalName h).any fun n => env.implements n tr
  | .assocProjection _ => true
  | .tuple _ => h == .tuple
  | .fn _ _ => h == .function
  | .named name args => headOk h name && (args.isEmpty || check args)

def headMatchesAny (check : List TypeRef → Bool) (h : Head) : List TypeRef → Bool
  | [] => false
  | ref :: refs => headMatches check h ref || headMatchesAny check h refs

end

def runtimeMatches (v : Value) (ty : TypeRef) : Bool :=
  env.headMatches (fun args => env.narrowArgsMatch args v) v.head ty

mutual

/-- `match_pattern`: the bindings it introduces, on success. -/
def matchPattern : Pattern → Value → Option (List (String × Value))
  | .wildcard, _ => some []
  | .binding name, v => some [(name, v)]
  | .int expected, v =>
    match v with
    | .int actual => if actual = expected then some [] else none
    | _ => none
  | .str expected, v =>
    match v with
    | .str actual => if actual = expected then some [] else none
    | _ => none
  | .bool expected, v =>
    match v with
    | .bool actual => if actual = expected then some [] else none
    | _ => none
  | .variant typeName variant bindings, v =>
    match v with
    | .enumVal enumName actual data =>
      if (typeName.all fun n => (env.nativeNames n).getD n == enumName) && actual == variant then
        if bindings.length ≠ data.length then
          -- a payload-less `Ok()` reached through a one-binding pattern binds `unit`
          if enumName = "Result" ∧ data = [] ∧ bindings.length = 1 then
            matchZip bindings [.unit]
          else none
        else matchZip bindings data
      else none
    | _ => none
  | .isType ty, v => if env.runtimeMatches v ty then some [] else none
  | .tuple elements, v =>
    match v with
    | .tuple items => if items.length ≠ elements.length then none else matchZip elements items
    | _ => none

/-- The loop over sub-patterns and the values they are matched against. -/
def matchZip : List Pattern → List Value → Option (List (String × Value))
  | p :: ps, v :: vs =>
    (matchPattern p v).bind fun bound => (matchZip ps vs).map fun rest => bound ++ rest
  | _, _ => some []

end

end EnumEnv

end Noeta.Types
