import Noeta.Types.Preorder
import Noeta.Lib.Strike

/-!
# Declaration-site variance

`compute_arg_variance` of `noeta-check/src/variance.rs`, with the annotation resolution it has to
agree with: `Type::from_ref`, `resolve_type_names` and `apply_subst`. The declarations are in the
order the hash map is iterated in, which nothing fixes.
-/

namespace Noeta.Types

open Lib

/-- A type as written. -/
inductive TypeRef where
  | named (name : String) (args : List TypeRef)
  | dynTrait (name : String)
  | optional (inner : TypeRef)
  | union (members : List TypeRef)
  | tuple (elements : List TypeRef)
  | fn (params : List TypeRef) (ret : TypeRef)
  | assocProjection (name : String)

/-! ### From a written type to the lattice -/

/-- The built-in type constructors. -/
inductive BuiltinTy where
  | int
  | float
  | f32
  | f64
  | intN (signed : Bool) (bits : Nat)
  | bool
  | str
  | bytes
  | unit
  | dyn
  | never
  | list
  | set
  | map
  | option
  | result
  | kind (k : TypeKind)
  | number

def parseIntWidth : String → Option (Bool × Nat)
  | "i8" => some (true, 8)
  | "i16" => some (true, 16)
  | "i32" => some (true, 32)
  | "i64" => some (true, 64)
  | "u8" => some (false, 8)
  | "u16" => some (false, 16)
  | "u32" => some (false, 32)
  | "u64" => some (false, 64)
  | _ => none

/-- `BuiltinTy::from_name`; the flag is the bare lowercase spelling of a collection. -/
def BuiltinTy.fromName : String → Option (BuiltinTy × Bool)
  | "int" => some (.int, false)
  | "float" => some (.float, false)
  | "f32" => some (.f32, false)
  | "f64" => some (.f64, false)
  | "bool" => some (.bool, false)
  | "string" => some (.str, false)
  | "bytes" => some (.bytes, false)
  | "number" => some (.number, false)
  | "void" => some (.unit, false)
  | "unit" => some (.unit, false)
  | "dyn" => some (.dyn, false)
  | "Any" => some (.dyn, false)
  | "never" => some (.never, false)
  | "List" => some (.list, false)
  | "Set" => some (.set, false)
  | "Map" => some (.map, false)
  | "list" => some (.list, true)
  | "set" => some (.set, true)
  | "map" => some (.map, true)
  | "Option" => some (.option, false)
  | "Result" => some (.result, false)
  | "Enum" => some (.kind .enumKind, false)
  | "Struct" => some (.kind .structKind, false)
  | "Class" => some (.kind .classKind, false)
  | other => (parseIntWidth other).map fun w => (.intN w.1 w.2, false)

def isBuiltinName (name : String) : Bool := (BuiltinTy.fromName name).isSome

def arithNumeric : Ty :=
  .unionOf [.int, .float, .f32, .f64, .intN true 8, .intN false 8, .intN true 16, .intN false 16,
    .intN true 32, .intN false 32, .intN true 64, .intN false 64]

/-- The built-in arm of `Type::from_ref`, over the converted arguments. -/
def BuiltinTy.toTy (builtin : BuiltinTy) (bare : Bool) (args : List Ty) : Ty :=
  let arg (i : Nat) : Ty := if bare then .unknown else args.getD i .unknown
  match builtin with
  | .int => .int
  | .float => .float
  | .f32 => .f32
  | .f64 => .f64
  | .intN signed bits => .intN signed bits
  | .bool => .bool
  | .str => .string
  | .bytes => .bytes
  | .unit => .unit
  | .dyn => .dyn
  | .never => .never
  | .list => .list (arg 0)
  | .set => .set (arg 0)
  | .map => .map (arg 0) (arg 1)
  | .option => .option (arg 0)
  | .result => .result (arg 0) (arg 1)
  | .kind k => .kind k
  | .number => arithNumeric

mutual

def fromRef : TypeRef → Ty
  | .union members => .unionOf (fromRefs members)
  | .tuple elements => .tuple (fromRefs elements)
  | .fn params ret => .fn (fromRefs params) (fromRef ret)
  | .optional inner => .option (fromRef inner)
  | .dynTrait name => .dynTrait name
  | .assocProjection _ => .unknown
  | .named name args =>
    match BuiltinTy.fromName name with
    | some (builtin, bare) => builtin.toTy bare (fromRefs args)
    | none => .named name (fromRefs args)

def fromRefs : List TypeRef → List Ty
  | [] => []
  | ref :: refs => fromRef ref :: fromRefs refs

end

/-- What a type annotation may name: the type parameters in scope by their spelling, and `Self`. -/
structure TypeScope where
  params : List (String × Nat)
  selfTy : Option Ty

/-- `TypeScope::param`; a later insertion replaces an earlier one of the same spelling. -/
def TypeScope.param (scope : TypeScope) (name : String) : Option Nat :=
  (scope.params.reverse.find? fun e => e.1 == name).map Prod.snd

def selfName : String := "Self"

mutual

def resolveTypeNames (scope : TypeScope) : Ty → Ty
  | .named n args =>
    match scope.param n with
    | some id => .param id
    | none =>
      match scope.selfTy with
      | some self => if n = selfName ∧ args = [] then self else .named n (resolveList scope args)
      | none => .named n (resolveList scope args)
  | .list t => .list (resolveTypeNames scope t)
  | .set t => .set (resolveTypeNames scope t)
  | .map k v => .map (resolveTypeNames scope k) (resolveTypeNames scope v)
  | .option t => .option (resolveTypeNames scope t)
  | .result t e => .result (resolveTypeNames scope t) (resolveTypeNames scope e)
  | .tuple es => .tuple (resolveList scope es)
  | .union es => .unionOf (resolveList scope es)
  | .fn ps r => .fn (resolveList scope ps) (resolveTypeNames scope r)
  | other => other

def resolveList (scope : TypeScope) : List Ty → List Ty
  | [] => []
  | t :: ts => resolveTypeNames scope t :: resolveList scope ts

end

/-- `annot`, in a program without imports of native types. -/
def annot (scope : TypeScope) (ref : TypeRef) : Ty := resolveTypeNames scope (fromRef ref)

mutual

/-- `apply_subst`, with one parameter bound. -/
def applySubst (id : Nat) (s : Ty) : Ty → Ty
  | .param p => if p = id then s else .param p
  | .named n args => .named n (applySubsts id s args)
  | .list t => .list (applySubst id s t)
  | .set t => .set (applySubst id s t)
  | .map k v => .map (applySubst id s k) (applySubst id s v)
  | .option t => .option (applySubst id s t)
  | .result t e => .result (applySubst id s t) (applySubst id s e)
  | .tuple es => .tuple (applySubsts id s es)
  | .union es => .unionOf (applySubsts id s es)
  | .fn ps r => .fn (applySubsts id s ps) (applySubst id s r)
  | other => other

def applySubsts (id : Nat) (s : Ty) : List Ty → List Ty
  | [] => []
  | t :: ts => applySubst id s t :: applySubsts id s ts

end

/-! ### The occurrence rules -/

/-- Where a type parameter occurs. -/
inductive Site where
  | field (name : String)
  | method (name : String)
deriving DecidableEq, Repr

/-- Why a type is invariant in one of its arguments. -/
inductive InvarianceCause where
  | mutField (name : String)
  | methodParam (name : String)
  | fnParam (site : Site)
  | through (site : Site) (via : String)
  | throughOpaque (site : Site) (via : String)
deriving DecidableEq, Repr

/-- Per type argument, `none` where the type is covariant in it. -/
abbrev ArgVariance := List (Option InvarianceCause)

/-- The map from the name of a generic type to its variance. -/
abbrev VarianceTable := String → Option ArgVariance

def VarianceTable.covariantArg (table : VarianceTable) (name : String) (index : Nat) : Bool :=
  match table name with
  | some v => v[index]? == some none
  | none => false

mutual

def mentions : TypeRef → String → Bool
  | .named name args, p => name == p || mentionsAny args p
  | .optional inner, p => mentions inner p
  | .union members, p => mentionsAny members p
  | .tuple elements, p => mentionsAny elements p
  | .fn params ret, p => mentionsAny params p || mentions ret p
  | .dynTrait _, _ => false
  | .assocProjection _, _ => false

def mentionsAny : List TypeRef → String → Bool
  | [], _ => false
  | ref :: refs, p => mentions ref p || mentionsAny refs p

end

mutual

def outPosition (table : VarianceTable) (site : Site) : TypeRef → String → Option InvarianceCause
  | .named name args, p => if name = p ∧ args = [] then none else outArgs table site name args 0 p
  | .optional inner, p => outPosition table site inner p
  | .union members, p => outAll table site members p
  | .tuple elements, p => outAll table site elements p
  | .fn params ret, p =>
    if mentionsAny params p then some (.fnParam site) else outPosition table site ret p
  | .dynTrait _, _ => none
  | .assocProjection _, _ => none

/-- The loop of `out_position` over the arguments of a named type, from position `j` on. -/
def outArgs (table : VarianceTable) (site : Site) (name : String) :
    List TypeRef → Nat → String → Option InvarianceCause
  | [], _, _ => none
  | arg :: args, j, p =>
    if mentions arg p then
      if isBuiltinName name then
        match outPosition table site arg p with
        | some cause => some cause
        | none => outArgs table site name args (j + 1) p
      else
        match table name with
        | some v =>
          if v[j]? = some none then
            match outPosition table site arg p with
            | some cause => some cause
            | none => outArgs table site name args (j + 1) p
          else some (.through site name)
        | none => some (.throughOpaque site name)
    else outArgs table site name args (j + 1) p

/-- `items.iter().find_map(out_position)`. -/
def outAll (table : VarianceTable) (site : Site) : List TypeRef → String → Option InvarianceCause
  | [], _ => none
  | ref :: refs, p =>
    match outPosition table site ref p with
    | some cause => some cause
    | none => outAll table site refs p

end

/-- A field: its name, whether it is `mut`, its type. -/
structure FieldShape where
  name : String
  mutField : Bool
  ty : TypeRef

/-- One instance method's signature. -/
structure MethodShape where
  name : String
  /-- The method's own type parameters. -/
  shadowed : List String
  params : List TypeRef
  ret : Option TypeRef

/-- One generic declaration, reduced to what variance needs. -/
structure DeclShape where
  kind : TypeKind
  params : List String
  fields : List FieldShape
  methods : List MethodShape

/-- The first loop of `scan`, over the fields. -/
def scanFields (table : VarianceTable) (kind : TypeKind) (p : String) :
    List FieldShape → Option InvarianceCause
  | [] => none
  | f :: fs =>
    if f.mutField ∧ kind = .classKind ∧ mentions f.ty p then some (.mutField f.name)
    else
      match outPosition table (.field f.name) f.ty p with
      | some cause => some cause
      | none => scanFields table kind p fs

/-- The second loop of `scan`, over the instance methods. -/
def scanMethods (table : VarianceTable) (p : String) : List MethodShape → Option InvarianceCause
  | [] => none
  | m :: ms =>
    if m.shadowed.contains p then scanMethods table p ms
    else if mentionsAny m.params p then some (.methodParam m.name)
    else
      match m.ret.bind fun ret => outPosition table (.method m.name) ret p with
      | some cause => some cause
      | none => scanMethods table p ms

def scan (shape : DeclShape) (p : String) (table : VarianceTable) : Option InvarianceCause :=
  match scanFields table shape.kind p shape.fields with
  | some cause => some cause
  | none => scanMethods table p shape.methods

/-! When nothing is found: each walk as a statement about all the positions it visits. -/

variable {table known : VarianceTable} {name : String} {index : Nat} {decls order : Decls}

theorem VarianceTable.covariantArg_iff :
    table.covariantArg name index = true ↔ ∃ v, table name = some v ∧ v[index]? = some none := by
  unfold VarianceTable.covariantArg
  cases table name with
  | none => simp
  | some v => simp

theorem mentionsAny_eq_false_iff (refs : List TypeRef) (p : String) :
    mentionsAny refs p = false ↔ ∀ ref ∈ refs, mentions ref p = false := by
  induction refs with
  | nil => simp [mentionsAny]
  | cons ref refs ih => simp [mentionsAny, ih]

section Occurrences

variable {table : VarianceTable} {site : Site} {p : String}

theorem outArgs_cons_eq_none_iff {name : String} {arg : TypeRef} {args : List TypeRef} {j : Nat} :
    outArgs table site name (arg :: args) j p = none ↔
      (mentions arg p = true → (isBuiltinName name = true ∨ table.covariantArg name j = true) ∧
        outPosition table site arg p = none) ∧ outArgs table site name args (j + 1) p = none := by
  rw [outArgs]
  by_cases hmentions : mentions arg p = true
  · rw [if_pos hmentions]
    by_cases hbuiltin : isBuiltinName name = true
    · rw [if_pos hbuiltin]
      cases outPosition table site arg p <;> simp [hmentions, hbuiltin]
    · rw [if_neg hbuiltin]
      simp only [hmentions, hbuiltin, VarianceTable.covariantArg_iff, true_implies]
      cases htable : table name with
      | none => simp
      | some v =>
        dsimp only
        by_cases hv : v[j]? = some none
        · rw [if_pos hv]
          cases outPosition table site arg p <;> simp [hv]
        · rw [if_neg hv]
          simp [hv]
  · rw [if_neg hmentions]
    simp [hmentions]

theorem outAll_eq_none_iff (refs : List TypeRef) :
    outAll table site refs p = none ↔ ∀ ref ∈ refs, outPosition table site ref p = none := by
  induction refs with
  | nil => simp [outAll]
  | cons ref refs ih =>
    rw [outAll]
    cases h : outPosition table site ref p <;> simp [h, ih]

/-- A field no occurrence of `p` in which a widened view can write. -/
def FieldShape.Reads (table : VarianceTable) (kind : TypeKind) (p : String) (f : FieldShape) : Prop :=
  ¬ (f.mutField = true ∧ kind = .classKind ∧ mentions f.ty p = true) ∧
    outPosition table (.field f.name) f.ty p = none

/-- A method through whose signature a widened view of `p` is only read. -/
def MethodShape.Reads (table : VarianceTable) (p : String) (m : MethodShape) : Prop :=
  p ∈ m.shadowed ∨ mentionsAny m.params p = false ∧
    ∀ ret, m.ret = some ret → outPosition table (.method m.name) ret p = none

theorem scanFields_eq_none_iff (kind : TypeKind) (fields : List FieldShape) :
    scanFields table kind p fields = none ↔ ∀ f ∈ fields, f.Reads table kind p := by
  induction fields with
  | nil => simp [scanFields]
  | cons f fields ih =>
    rw [scanFields, List.forall_mem_cons, ← ih, FieldShape.Reads]
    by_cases hwrite : f.mutField = true ∧ kind = .classKind ∧ mentions f.ty p = true
    · rw [if_pos hwrite]
      simp [hwrite]
    · rw [if_neg hwrite]
      cases outPosition table (.field f.name) f.ty p <;> simp [hwrite]

theorem scanMethods_eq_none_iff (methods : List MethodShape) :
    scanMethods table p methods = none ↔ ∀ m ∈ methods, m.Reads table p := by
  induction methods with
  | nil => simp [scanMethods]
  | cons m methods ih =>
    rw [scanMethods, List.forall_mem_cons, ← ih, MethodShape.Reads]
    by_cases hshadowed : p ∈ m.shadowed
    · rw [if_pos (by simpa using hshadowed)]
      simp [hshadowed]
    · rw [if_neg (by simpa using hshadowed)]
      by_cases hparam : mentionsAny m.params p = true
      · rw [if_pos hparam]
        simp [hparam, hshadowed]
      · rw [if_neg hparam]
        cases hret : m.ret with
        | none => simp [hparam, hshadowed]
        | some ret =>
          cases hout : outPosition table (.method m.name) ret p <;> simp [hparam, hshadowed, hout]

theorem scan_eq_none_iff (shape : DeclShape) :
    scan shape p table = none ↔ (∀ f ∈ shape.fields, f.Reads table shape.kind p) ∧
      ∀ m ∈ shape.methods, m.Reads table p := by
  rw [← scanFields_eq_none_iff, ← scanMethods_eq_none_iff, scan]
  cases scanFields table shape.kind p shape.fields <;> simp

end Occurrences

/-! More types covariant, less to find. -/

/-- Every mark of one table is one of the other. -/
def VarianceTable.Le (u s : VarianceTable) : Prop :=
  ∀ name index, u.covariantArg name index = true → s.covariantArg name index = true

section Monotone

variable {u s : VarianceTable}

mutual

theorem outPosition_mono (hle : u.Le s) {site : Site} : ∀ (ref : TypeRef) (p : String),
    outPosition u site ref p = none → outPosition s site ref p = none
  | .named name args, p => by
    intro h
    rw [outPosition] at h ⊢
    split
    · rfl
    · rename_i hbare
      rw [if_neg hbare] at h
      exact outArgs_mono hle name args 0 p h
  | .optional inner, p => by
    rw [outPosition, outPosition]
    exact outPosition_mono hle inner p
  | .union members, p => by
    rw [outPosition, outPosition]
    exact outAll_mono hle members p
  | .tuple elements, p => by
    rw [outPosition, outPosition]
    exact outAll_mono hle elements p
  | .fn params ret, p => by
    intro h
    rw [outPosition] at h ⊢
    split
    · rename_i hparam
      rw [if_pos hparam] at h
      exact h
    · rename_i hparam
      rw [if_neg hparam] at h
      exact outPosition_mono hle ret p h
  | .dynTrait _, _ => fun _ => rfl
  | .assocProjection _, _ => fun _ => rfl

theorem outArgs_mono (hle : u.Le s) {site : Site} (name : String) : ∀ (args : List TypeRef) (j : Nat) (p : String),
    outArgs u site name args j p = none → outArgs s site name args j p = none
  | [], _, _ => fun _ => rfl
  | arg :: args, j, p => by
    intro h
    rw [outArgs_cons_eq_none_iff] at h ⊢
    refine ⟨fun hmentions => ?_, outArgs_mono hle name args (j + 1) p h.2⟩
    obtain ⟨hname, hout⟩ := h.1 hmentions
    exact ⟨hname.imp_right (hle name j), outPosition_mono hle arg p hout⟩

theorem outAll_mono (hle : u.Le s) {site : Site} : ∀ (refs : List TypeRef) (p : String),
    outAll u site refs p = none → outAll s site refs p = none
  | [], _ => fun _ => rfl
  | ref :: refs, p => by
    intro h
    rw [outAll_eq_none_iff, List.forall_mem_cons, ← outAll_eq_none_iff] at h ⊢
    exact ⟨outPosition_mono hle ref p h.1, outAll_mono hle refs p h.2⟩

end

theorem scan_mono (hle : u.Le s) (shape : DeclShape) (p : String) (h : scan shape p u = none) :
    scan shape p s = none := by
  rw [scan_eq_none_iff] at h ⊢
  refine ⟨fun f hf => ?_, fun m hm => ?_⟩
  · exact ⟨(h.1 f hf).1, outPosition_mono hle f.ty p (h.1 f hf).2⟩
  · exact (h.2 m hm).imp_right fun ⟨hparams, hret⟩ =>
      ⟨hparams, fun ret heq => outPosition_mono hle ret p (hret ret heq)⟩

end Monotone

/-! ### The shapes of a program -/

/-- A field of a struct or class. -/
structure FieldDecl where
  name : String
  mutField : Bool
  ty : Option TypeRef

/-- A method's signature; the methods of in-body `impl` blocks are among those of the type. -/
structure FnDecl where
  name : String
  typeParams : List String
  params : List (Option TypeRef)
  ret : Option TypeRef

/-- The statements variance reads. -/
inductive Stmt where
  | structDecl (name : String) (typeParams : List String) (fields : List FieldDecl)
      (methods : List FnDecl)
  | classDecl (name : String) (typeParams : List String) (fields : List FieldDecl)
      (methods : List FnDecl)
  | enumDecl (name : String) (typeParams : List String)
      (variants : List (List (String × Option TypeRef))) (methods : List FnDecl)
  | implDecl (target : String) (methods : List FnDecl)
  | other

/-- The declarations of a program, by name, in the order the map is iterated in. -/
abbrev Decls := List (String × DeclShape)

section Shapes

-- the receiver classification: whether a method of a type is an associated function
variable (isStatic : String → String → Bool)

def methodShape (owner : String) (m : FnDecl) : Option MethodShape :=
  if isStatic owner m.name then none
  else some ⟨m.name, m.typeParams, m.params.filterMap id, m.ret⟩

def shapeOf (owner : String) (kind : TypeKind) (typeParams : List String) (fields : List FieldDecl)
    (methods : List FnDecl) : DeclShape where
  kind := kind
  params := typeParams
  fields := fields.filterMap fun f => f.ty.map fun ty => ⟨f.name, f.mutField, ty⟩
  methods := methods.filterMap (methodShape isStatic owner)

/-- `shapes.insert`: a second declaration under one name replaces the first. -/
def insertShape (decls : Decls) (name : String) (shape : DeclShape) : Decls :=
  (name, shape) :: decls.filter fun d => d.1 != name

/-- One statement of the first loop of `compute_arg_variance`. -/
def declareShape (decls : Decls) : Stmt → Decls
  | .structDecl name typeParams fields methods =>
    insertShape decls name (shapeOf isStatic name .structKind typeParams fields methods)
  | .classDecl name typeParams fields methods =>
    insertShape decls name (shapeOf isStatic name .classKind typeParams fields methods)
  | .enumDecl name typeParams variants methods =>
    let shape := shapeOf isStatic name .enumKind typeParams [] methods
    -- a variant's payload is a field that is never `mut`
    let payload := variants.flatten.filterMap fun p => p.2.map fun ty => ⟨p.1, false, ty⟩
    insertShape decls name { shape with fields := shape.fields ++ payload }
  | _ => decls

/-- One statement of the second loop: a standalone `impl` adds its methods to its target. -/
def extendShape (decls : Decls) : Stmt → Decls
  | .implDecl target methods =>
    decls.map fun d =>
      if d.1 = target then
        (d.1, { d.2 with methods := d.2.methods ++ methods.filterMap (methodShape isStatic target) })
      else d
  | _ => decls

/-- The shapes of the types a program declares. -/
def shapesOf (program : List Stmt) : Decls :=
  program.foldl (extendShape isStatic) (program.foldl (declareShape isStatic) [])

theorem nodup_insertShape {decls : Decls} (h : (decls.map Prod.fst).Nodup) (name : String)
    (shape : DeclShape) : ((insertShape decls name shape).map Prod.fst).Nodup := by
  rw [insertShape, List.map_cons, List.nodup_cons]
  constructor
  · intro hmem
    obtain ⟨d, hd, heq⟩ := List.mem_map.1 hmem
    have hne := (List.mem_filter.1 hd).2
    simp [heq] at hne
  · exact (List.filter_sublist.map Prod.fst).nodup h

theorem nodup_declareShape {decls : Decls} (h : (decls.map Prod.fst).Nodup) (stmt : Stmt) :
    ((declareShape isStatic decls stmt).map Prod.fst).Nodup := by
  cases stmt with
  | structDecl => exact nodup_insertShape h _ _
  | classDecl => exact nodup_insertShape h _ _
  | enumDecl => exact nodup_insertShape h _ _
  | implDecl => exact h
  | other => exact h

theorem map_fst_extendShape (decls : Decls) (stmt : Stmt) :
    (extendShape isStatic decls stmt).map Prod.fst = decls.map Prod.fst := by
  cases stmt with
  | implDecl target methods =>
    rw [extendShape, List.map_map]
    apply List.map_congr_left
    intro d _
    by_cases h : d.1 = target
    · simp [h]
    · simp [h]
  | _ => rfl

theorem nodup_shapesOf (program : List Stmt) :
    ((shapesOf isStatic program).map Prod.fst).Nodup := by
  have hdeclare : ∀ (stmts : List Stmt) (decls : Decls), (decls.map Prod.fst).Nodup →
      ((stmts.foldl (declareShape isStatic) decls).map Prod.fst).Nodup := by
    intro stmts
    induction stmts with
    | nil => exact fun decls h => h
    | cons stmt stmts ih => exact fun decls h => ih _ (nodup_declareShape isStatic h stmt)
  have hextend : ∀ (stmts : List Stmt) (decls : Decls),
      (stmts.foldl (extendShape isStatic) decls).map Prod.fst = decls.map Prod.fst := by
    intro stmts
    induction stmts with
    | nil => exact fun decls => rfl
    | cons stmt stmts ih => exact fun decls => (ih _).trans (map_fst_extendShape isStatic decls stmt)
  rw [shapesOf, hextend]
  exact hdeclare program [] List.nodup_nil

end Shapes

/-! ### The fixpoint -/

def nativeVariance : String → Option ArgVariance
  | "Iterator" => some [none]
  | "Future" => some [none]
  | "Receiver" => some [none]
  | "Sender" => some [some (.methodParam "send")]
  | _ => none

/-- The table the loop starts from: what the checker knows already, the native types, and every
generic type of the program covariant. -/
def initialTable (known : VarianceTable) (decls : Decls) : VarianceTable := fun name =>
  match decls.find? fun d => d.1 == name && !d.2.params.isEmpty with
  | some d => some (List.replicate d.2.params.length none)
  | none =>
    match nativeVariance name with
    | some v => some v
    | none => known name

/-- A type parameter of a declaration, as the two nested loops visit them. -/
structure ParamSlot where
  name : String
  shape : DeclShape
  index : Nat
  param : String

def paramSlots (decls : Decls) : List ParamSlot :=
  decls.flatMap fun d => d.2.params.zipIdx.map fun p => ⟨d.1, d.2, p.2, p.1⟩

/-- `v[i] = Some(cause)` in the entry of a type. -/
def strikeSlot (table : VarianceTable) (slot : ParamSlot) : VarianceTable := fun name =>
  if name = slot.name then
    (table name).map fun v => v.set slot.index (scan slot.shape slot.param table)
  else table name

/-- One visit of the inner loop, with the flag `changed`. -/
def visitSlot (state : VarianceTable × Bool) (slot : ParamSlot) : VarianceTable × Bool :=
  if state.1.covariantArg slot.name slot.index && (scan slot.shape slot.param state.1).isSome then
    (strikeSlot state.1 slot, true)
  else state

/-- The `loop` of `compute_arg_variance`, a round for every unit of fuel. -/
def varianceRounds (decls : Decls) : Nat → VarianceTable → VarianceTable
  | 0, table => table
  | n + 1, table =>
    let round := (paramSlots decls).foldl visitSlot (table, false)
    if round.2 then varianceRounds decls n round.1 else round.1

/-- `compute_arg_variance`; every round but the last strikes a parameter. -/
def computeArgVariance (known : VarianceTable) (decls : Decls) : VarianceTable :=
  varianceRounds decls ((paramSlots decls).length + 1) (initialTable known decls)

/-! ### What the loop leaves -/

/-- The occurrence rules accept every mark of a table on a parameter of the program. -/
def Consistent (decls : Decls) (table : VarianceTable) : Prop :=
  ∀ slot ∈ paramSlots decls, table.covariantArg slot.name slot.index = true →
    scan slot.shape slot.param table = none

/-- The greatest consistent table, among those that mark nothing the loop does not start with. -/
structure Greatest (known : VarianceTable) (decls : Decls) (table : VarianceTable) : Prop where
  consistent : Consistent decls table
  initial : table.Le (initialTable known decls)
  greatest : ∀ u : VarianceTable, Consistent decls u → u.Le (initialTable known decls) → u.Le table

theorem strikeSlot_covariantArg {slot : ParamSlot} (hscan : (scan slot.shape slot.param table).isSome = true)
    (hmark : table.covariantArg slot.name slot.index = true) :
    (strikeSlot table slot).covariantArg name index =
      (table.covariantArg name index && decide ((name, index) ≠ (slot.name, slot.index))) := by
  obtain ⟨cause, hcause⟩ := Option.isSome_iff_exists.1 hscan
  obtain ⟨v, hv, hnone⟩ := VarianceTable.covariantArg_iff.1 hmark
  unfold VarianceTable.covariantArg strikeSlot
  by_cases hname : name = slot.name
  · subst hname
    rw [if_pos rfl, hv, hcause]
    simp only [Option.map_some, ne_eq, Prod.mk.injEq, true_and]
    by_cases hindex : index = slot.index
    · subst hindex
      have hlt : slot.index < v.length := (List.getElem?_eq_some_iff.1 hnone).1
      simp [List.getElem?_set_self hlt]
    · rw [List.getElem?_set_ne (Ne.symm hindex)]
      simp [hindex]
  · rw [if_neg hname]
    simp [hname]

/-- The loop of `compute_arg_variance` strikes marks. -/
def varianceStriker : Striker VarianceTable ParamSlot (String × Nat) where
  marks table k := table.covariantArg k.1 k.2
  key slot := (slot.name, slot.index)
  refuses table slot := (scan slot.shape slot.param table).isSome
  strike := strikeSlot
  strike_marks _ _ _ hscan hmark := strikeSlot_covariantArg hscan hmark
  refuses_mono s u slot hle h := by
    by_contra hnone
    rw [Bool.not_eq_true, Option.isSome_eq_false_iff, Option.isNone_iff_eq_none] at hnone
    rw [scan_mono (fun name index => hle (name, index)) slot.shape slot.param hnone] at h
    exact Bool.noConfusion h

theorem le_iff_striker {u s : VarianceTable} : varianceStriker.Le u s ↔ u.Le s :=
  ⟨fun h name index => h (name, index), fun h k => h k.1 k.2⟩

theorem accepted_iff_consistent {u : VarianceTable} :
    varianceStriker.Accepted (paramSlots decls) u ↔ Consistent decls u := by
  constructor
  · intro h slot hslot hmark
    exact Option.isNone_iff_eq_none.1 (Option.isSome_eq_false_iff.1 (h slot hslot hmark))
  · intro h slot hslot hmark
    exact Option.isSome_eq_false_iff.2 (Option.isNone_iff_eq_none.2 (h slot hslot hmark))

theorem varianceRounds_eq_settle (decls : Decls) : ∀ (n : Nat) (table : VarianceTable),
    varianceRounds decls n table = varianceStriker.settle (paramSlots decls) n table := by
  intro n
  induction n with
  | zero => exact fun _ => rfl
  | succ n ih =>
    intro table
    rw [varianceRounds, Striker.settle, ih]
    rfl

theorem computeArgVariance_isGreatest (known : VarianceTable) (decls : Decls) :
    Greatest known decls (computeArgVariance known decls) := by
  have hfuel : varianceStriker.marked (paramSlots decls) (initialTable known decls) <
      (paramSlots decls).length + 1 := Nat.lt_succ_of_le (List.length_filter_le _ _)
  obtain ⟨haccepted, hle, hgreatest⟩ := Striker.settle_spec (paramSlots decls) _ _ hfuel
  rw [← varianceRounds_eq_settle] at haccepted hle hgreatest
  refine ⟨accepted_iff_consistent.1 haccepted, le_iff_striker.1 hle, ?_⟩
  intro u hu hinitial
  exact le_iff_striker.1 (hgreatest u (accepted_iff_consistent.2 hu) (le_iff_striker.2 hinitial))

/-! ### Another order -/

theorem paramSlots_perm (h : order.Perm decls) : (paramSlots order).Perm (paramSlots decls) :=
  h.flatMap_right _

theorem find?_perm (h : order.Perm decls) (hnodup : (decls.map Prod.fst).Nodup) (name : String) :
    (order.find? fun d => d.1 == name && !d.2.params.isEmpty) =
      decls.find? fun d => d.1 == name && !d.2.params.isEmpty := by
  have hfind : ∀ l : Decls, (l.map Prod.fst).Nodup → ∀ d,
      (l.find? fun d => d.1 == name && !d.2.params.isEmpty) = some d ↔
        d ∈ l ∧ (d.1 == name && !d.2.params.isEmpty) = true := by
    intro l hl d
    constructor
    · intro hd
      have hp := List.find?_some hd
      exact ⟨List.mem_of_find?_eq_some hd, hp⟩
    · rintro ⟨hmem, hd⟩
      cases hfound : l.find? fun d => d.1 == name && !d.2.params.isEmpty with
      | none =>
        have hnot := List.find?_eq_none.1 hfound d hmem
        exact absurd hd hnot
      | some e =>
        have he := List.find?_some hfound
        rw [Bool.and_eq_true, beq_iff_eq] at hd he
        have hsame : e.1 = d.1 := he.1.trans hd.1.symm
        rw [List.inj_on_of_nodup_map hl (List.mem_of_find?_eq_some hfound) hmem hsame]
  apply Option.ext
  intro d
  rw [hfind order ((h.map Prod.fst).nodup_iff.2 hnodup), hfind decls hnodup, h.mem_iff]

theorem initialTable_perm (known : VarianceTable) (h : order.Perm decls)
    (hnodup : (decls.map Prod.fst).Nodup) : initialTable known order = initialTable known decls := by
  funext name
  rw [initialTable, initialTable, find?_perm h hnodup]

theorem consistent_perm (h : order.Perm decls) (u : VarianceTable) : Consistent order u ↔ Consistent decls u := by
  constructor
  · exact fun hu slot hslot => hu slot ((paramSlots_perm h).mem_iff.2 hslot)
  · exact fun hu slot hslot => hu slot ((paramSlots_perm h).mem_iff.1 hslot)

theorem Greatest.perm (h : order.Perm decls)
    (hnodup : (decls.map Prod.fst).Nodup) (hg : Greatest known order table) :
    Greatest known decls table := by
  have hinitial := initialTable_perm known h hnodup
  refine ⟨(consistent_perm h table).1 hg.consistent, hinitial ▸ hg.initial, ?_⟩
  intro u hu hle
  exact hg.greatest u ((consistent_perm h u).2 hu) (hinitial ▸ hle)

theorem Greatest.covariantArg_eq {known u s : VarianceTable}
    (hu : Greatest known decls u) (hs : Greatest known decls s) (name : String) (index : Nat) :
    u.covariantArg name index = s.covariantArg name index := by
  rw [Bool.eq_iff_iff]
  exact ⟨hs.greatest u hu.consistent hu.initial name index,
    hu.greatest s hs.consistent hs.initial name index⟩

/-! ### The causes

Which occurrence a table names for a parameter it does not mark depends on the marks at the visit
that struck it, so on the order, unless every table of the run names the same one. -/

/-- The tables of a run: between the greatest consistent table and the initial one. -/
def Between (known : VarianceTable) (decls : Decls) (u : VarianceTable) : Prop :=
  u.Le (initialTable known decls) ∧
    ∀ w : VarianceTable, Consistent decls w → w.Le (initialTable known decls) → w.Le u

/-- The first refused occurrence of a parameter is the same under every table that refuses one. -/
def CauseFixed (known : VarianceTable) (decls : Decls) : Prop :=
  ∀ slot ∈ paramSlots decls, ∀ (u s : VarianceTable) (c d : InvarianceCause),
    Between known decls u → Between known decls s →
    scan slot.shape slot.param u = some c → scan slot.shape slot.param s = some d → c = d

/-- The entry of a parameter in a table of the run is the initial one, or the cause that a table of
the run found. -/
def EntryOk (known : VarianceTable) (decls : Decls) (name : String) (index : Nat)
    (entry : Option InvarianceCause) (initial : Option InvarianceCause) : Prop :=
  entry = initial ∨ initial = none ∧ ∃ slot ∈ paramSlots decls, slot.name = name ∧
    slot.index = index ∧ ∃ u, Between known decls u ∧ entry = scan slot.shape slot.param u ∧
      entry.isSome = true

/-- A table of the run, entry by entry against the initial one. -/
def Recorded (known : VarianceTable) (decls : Decls) (table : VarianceTable) : Prop :=
  ∀ name, (table name = none ∧ initialTable known decls name = none) ∨
    ∃ v v₀, table name = some v ∧ initialTable known decls name = some v₀ ∧
      v.length = v₀.length ∧ ∀ index entry initial, v[index]? = some entry →
        v₀[index]? = some initial → EntryOk known decls name index entry initial

theorem Recorded.strikeSlot {known table : VarianceTable} {decls : Decls} {slot : ParamSlot}
    (h : Recorded known decls table) (hbetween : Between known decls table)
    (hslot : slot ∈ paramSlots decls) (hmark : table.covariantArg slot.name slot.index = true)
    (hscan : (scan slot.shape slot.param table).isSome = true) :
    Recorded known decls (strikeSlot table slot) := by
  intro name
  unfold Types.strikeSlot
  by_cases hname : name = slot.name
  · subst hname
    rw [if_pos rfl]
    obtain ⟨v, hv, hnone⟩ := VarianceTable.covariantArg_iff.1 hmark
    obtain ⟨v₀, hv₀, hfree⟩ := VarianceTable.covariantArg_iff.1 (hbetween.1 _ _ hmark)
    rcases h slot.name with ⟨habsent, -⟩ | ⟨w, w₀, hw, hw₀, hlen, hentries⟩
    · rw [hv] at habsent
      exact absurd habsent (by simp)
    · rw [hw]
      refine .inr ⟨_, w₀, rfl, hw₀, by simpa using hlen, ?_⟩
      intro index entry initial hentry hinitial
      by_cases hindex : index = slot.index
      · subst hindex
        rw [hw₀, Option.some.injEq] at hv₀
        subst hv₀
        rw [hfree, Option.some.injEq] at hinitial
        have hlt : slot.index < w.length := by
          have := (List.getElem?_eq_some_iff.1 hfree).1
          omega
        rw [List.getElem?_set_self hlt, Option.some.injEq] at hentry
        exact .inr ⟨hinitial.symm, slot, hslot, rfl, rfl, table, hbetween, hentry.symm,
          hentry ▸ hscan⟩
      · rw [List.getElem?_set_ne (Ne.symm hindex)] at hentry
        exact hentries index entry initial hentry hinitial
  · rw [if_neg hname]
    exact h name

theorem recorded_initialTable (known : VarianceTable) (decls : Decls) :
    Recorded known decls (initialTable known decls) := by
  intro name
  cases hname : initialTable known decls name with
  | none => exact .inl ⟨rfl, rfl⟩
  | some v =>
    refine .inr ⟨v, v, rfl, rfl, rfl, ?_⟩
    intro index entry initial hentry hinitial
    rw [hentry, Option.some.injEq] at hinitial
    exact .inl hinitial

theorem Recorded.visit (state : VarianceTable × Bool) (slot : ParamSlot) (hslot : slot ∈ paramSlots decls)
    (h : Between known decls state.1 ∧ Recorded known decls state.1) :
    Between known decls (varianceStriker.visit state slot).1 ∧
      Recorded known decls (varianceStriker.visit state slot).1 := by
  obtain ⟨⟨hinitial, hgreatest⟩, hrecorded⟩ := h
  refine ⟨⟨?_, ?_⟩, ?_⟩
  · exact le_iff_striker.1 ((Striker.visit_le state slot).trans (le_iff_striker.2 hinitial))
  · intro w hw hle
    exact le_iff_striker.1 (Striker.le_visit (accepted_iff_consistent.2 hw)
      (le_iff_striker.2 (hgreatest w hw hle)) hslot)
  · unfold Striker.visit
    split
    · rename_i hstrike
      rw [Bool.and_eq_true] at hstrike
      exact hrecorded.strikeSlot ⟨hinitial, hgreatest⟩ hslot hstrike.1 hstrike.2
    · exact hrecorded

theorem computeArgVariance_recorded (known : VarianceTable) (decls : Decls) :
    Recorded known decls (computeArgVariance known decls) := by
  rw [computeArgVariance, varianceRounds_eq_settle]
  have hrun := Striker.settle_invariant
    (I := fun u => Between known decls u ∧ Recorded known decls u) Recorded.visit
    ((paramSlots decls).length + 1) (initialTable known decls)
  exact (hrun ⟨⟨fun _ _ h => h, fun _ _ h => h⟩, recorded_initialTable known decls⟩).2

theorem Recorded.perm (h : order.Perm decls)
    (hnodup : (decls.map Prod.fst).Nodup) (hr : Recorded known order table) :
    Recorded known decls table := by
  have hinitial := initialTable_perm known h hnodup
  have hbetween : ∀ u, Between known order u → Between known decls u := by
    rintro u ⟨hle, hgreatest⟩
    rw [hinitial] at hle hgreatest
    exact ⟨hle, fun w hw => hgreatest w ((consistent_perm h w).2 hw)⟩
  intro name
  have hname := hr name
  rw [hinitial] at hname
  refine hname.imp_right ?_
  rintro ⟨v, v₀, hv, hv₀, hlen, hentries⟩
  refine ⟨v, v₀, hv, hv₀, hlen, fun index entry initial hentry hfirst => ?_⟩
  refine (hentries index entry initial hentry hfirst).imp_right ?_
  rintro ⟨hfree, slot, hslot, hname, hindex, u, hu, hcause⟩
  exact ⟨hfree, slot, (paramSlots_perm h).mem_iff.1 hslot, hname, hindex, u, hbetween u hu, hcause⟩

theorem paramSlots_unique (hnodup : (decls.map Prod.fst).Nodup)
    {slot slot' : ParamSlot} (h : slot ∈ paramSlots decls) (h' : slot' ∈ paramSlots decls)
    (hname : slot.name = slot'.name) (hindex : slot.index = slot'.index) : slot = slot' := by
  simp only [paramSlots, List.mem_flatMap, List.mem_map] at h h'
  obtain ⟨d, hd, ⟨p, i⟩, hp, rfl⟩ := h
  obtain ⟨d', hd', ⟨p', i'⟩, hp', rfl⟩ := h'
  dsimp only at hname hindex
  obtain rfl := List.inj_on_of_nodup_map hnodup hd hd' hname
  subst hindex
  rw [List.mk_mem_zipIdx_iff_getElem?] at hp hp'
  rw [hp, Option.some.injEq] at hp'
  rw [hp']

theorem EntryOk.unique {entry entry' initial : Option InvarianceCause} (hnodup : (decls.map Prod.fst).Nodup)
    (hfixed : CauseFixed known decls) (hsome : entry.isSome = entry'.isSome)
    (h : EntryOk known decls name index entry initial)
    (h' : EntryOk known decls name index entry' initial) : entry = entry' := by
  rcases h with rfl | ⟨rfl, slot, hslot, hname, hindex, u, hu, heq, hcause⟩
  · rcases h' with rfl | ⟨rfl, -, -, -, -, -, -, -, hcause'⟩
    · rfl
    · rw [hcause'] at hsome
      exact absurd hsome (by simp)
  · rcases h' with rfl | ⟨-, slot', hslot', hname', hindex', u', hu', heq', hcause'⟩
    · rw [hcause] at hsome
      exact absurd hsome (by simp)
    · obtain rfl := paramSlots_unique hnodup hslot hslot' (hname.trans hname'.symm)
        (hindex.trans hindex'.symm)
      obtain ⟨c, hc⟩ := Option.isSome_iff_exists.1 hcause
      obtain ⟨c', hc'⟩ := Option.isSome_iff_exists.1 hcause'
      rw [hc] at heq
      rw [hc'] at heq'
      rw [hc, hc', hfixed slot hslot u u' c c' hu hu' heq.symm heq'.symm]

theorem Recorded.unique {known u s : VarianceTable}
    (hnodup : (decls.map Prod.fst).Nodup) (hfixed : CauseFixed known decls)
    (hu : Recorded known decls u) (hs : Recorded known decls s)
    (hmarks : ∀ name index, u.covariantArg name index = s.covariantArg name index) : u = s := by
  funext name
  rcases hu name with ⟨hun, hn⟩ | ⟨v, v₀, hv, hv₀, hlen, hentry⟩
  · rcases hs name with ⟨hsn, -⟩ | ⟨w, w₀, -, hw₀, -⟩
    · rw [hun, hsn]
    · rw [hn] at hw₀
      exact absurd hw₀ (by simp)
  · rcases hs name with ⟨-, hn⟩ | ⟨w, w₀, hw, hw₀, hlen', hentry'⟩
    · rw [hn] at hv₀
      exact absurd hv₀ (by simp)
    · rw [hv₀, Option.some.injEq] at hw₀
      subst hw₀
      rw [hv, hw, Option.some.injEq]
      apply List.ext_getElem (hlen.trans hlen'.symm)
      intro index hi hi'
      have hsome : v[index].isSome = w[index].isSome := by
        have hmark := hmarks name index
        unfold VarianceTable.covariantArg at hmark
        rw [hv, hw] at hmark
        simp only [List.getElem?_eq_getElem hi, List.getElem?_eq_getElem hi'] at hmark
        cases hx : v[index] <;> cases hy : w[index] <;> simp_all
      have hi₀ : index < v₀.length := by omega
      exact EntryOk.unique hnodup hfixed hsome
        (hentry index _ _ (List.getElem?_eq_getElem hi) (List.getElem?_eq_getElem hi₀))
        (hentry' index _ _ (List.getElem?_eq_getElem hi') (List.getElem?_eq_getElem hi₀))

end Noeta.Types
