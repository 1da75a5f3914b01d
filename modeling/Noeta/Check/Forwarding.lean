import Noeta.Check.Constructors

/-!
# Type-parameter forwarding

The pre-pass of `noeta-check/src/forwarding.rs`: for each generic function and method the list of its
forwarding slots. A hash map with one entry a name is a function here, a missing entry of the
forwarding table an empty list. The walk looks at the table of the round only where it goes through
the slots of a callee; it leaves these places symbolic (`Mark.slotsOf`), and the round fills them in.
-/

namespace Noeta.Check

open Noeta.Types (Ty TypeRef TypeScope fromRef resolveTypeNames mentionsTy)

/-! ### Types -/

/-- `Subst`; the first entry of a parameter counts. -/
abbrev Subst := List (Nat × Ty)

def Subst.get (subst : Subst) (id : Nat) : Option Ty :=
  (subst.find? fun e => e.1 == id).map Prod.snd

mutual

def applySubst (subst : Subst) : Ty → Ty
  | .param id => (subst.get id).getD (.param id)
  | .named n args => .named n (applySubsts subst args)
  | .list t => .list (applySubst subst t)
  | .set t => .set (applySubst subst t)
  | .map k v => .map (applySubst subst k) (applySubst subst v)
  | .option t => .option (applySubst subst t)
  | .result t e => .result (applySubst subst t) (applySubst subst e)
  | .tuple es => .tuple (applySubsts subst es)
  | .union es => .unionOf (applySubsts subst es)
  | .fn ps r => .fn (applySubsts subst ps) (applySubst subst r)
  | other => other

def applySubsts (subst : Subst) : List Ty → List Ty
  | [] => []
  | t :: ts => applySubst subst t :: applySubsts subst ts

end

mutual

def qualifyExterns (xt : List (String × String)) : Ty → Ty
  | .named n args =>
    .named (((xt.find? fun e => e.1 == n).map Prod.snd).getD n) (qualifyList xt args)
  | .list t => .list (qualifyExterns xt t)
  | .set t => .set (qualifyExterns xt t)
  | .map k v => .map (qualifyExterns xt k) (qualifyExterns xt v)
  | .option t => .option (qualifyExterns xt t)
  | .result t e => .result (qualifyExterns xt t) (qualifyExterns xt e)
  | .tuple es => .tuple (qualifyList xt es)
  | .union es => .unionOf (qualifyList xt es)
  | .fn ps r => .fn (qualifyList xt ps) (qualifyExterns xt r)
  | other => other

def qualifyList (xt : List (String × String)) : List Ty → List Ty
  | [] => []
  | t :: ts => qualifyExterns xt t :: qualifyList xt ts

end

def fromRefQ (ref : TypeRef) (xt : List (String × String)) (scope : TypeScope) : Ty :=
  resolveTypeNames scope (qualifyExterns xt (fromRef ref))

def mentionsParam (t : Ty) (ids : List Nat) : Bool :=
  mentionsTy ⟨fun _ => false, fun id => ids.contains id⟩ t

mutual

def typeDepth : Ty → Nat
  | .named _ args => maxDepth args + 1
  | .list t => typeDepth t + 1
  | .set t => typeDepth t + 1
  | .option t => typeDepth t + 1
  | .map k v => max (typeDepth k) (typeDepth v) + 1
  | .result t e => max (typeDepth t) (typeDepth e) + 1
  | .tuple es => maxDepth es + 1
  | .union es => maxDepth es + 1
  | .fn ps r => max (maxDepth ps) (typeDepth r) + 1
  | _ => 1

def maxDepth : List Ty → Nat
  | [] => 0
  | t :: ts => max (typeDepth t) (maxDepth ts)

end

mutual

def bindTypeParams (ids : List Nat) : Ty → Ty → Subst → Subst
  | .param id, arg, subst =>
    if ids.contains id && !arg.defersToRuntime && (subst.get id).isNone then subst ++ [(id, arg)]
    else subst
  | .named rn rargs, .named an aargs, subst =>
    if rn = an then bindAll ids rargs aargs subst else subst
  | .list r, .list a, subst => bindTypeParams ids r a subst
  | .set r, .set a, subst => bindTypeParams ids r a subst
  | .option r, .option a, subst => bindTypeParams ids r a subst
  | .map rk rv, .map ak av, subst => bindTypeParams ids rv av (bindTypeParams ids rk ak subst)
  | .result rt re, .result at' ae, subst => bindTypeParams ids re ae (bindTypeParams ids rt at' subst)
  | .tuple rs, .tuple as, subst => bindAll ids rs as subst
  | .fn rp rr, .fn ap ar, subst => bindTypeParams ids rr ar (bindAll ids rp ap subst)
  | _, _, subst => subst

def bindAll (ids : List Nat) : List Ty → List Ty → Subst → Subst
  | r :: rs, a :: as, subst => bindAll ids rs as (bindTypeParams ids r a subst)
  | _, _, subst => subst

end

/-! ### Scopes -/

def extendParamScope (outer : TypeScope) (params : List TypeParam) : TypeScope :=
  { outer with params := outer.params ++ params.map fun p => (p.name, p.id) }

def paramScope (params : List TypeParam) : TypeScope := extendParamScope ⟨[], none⟩ params

def scopeIds (scope : TypeScope) : List Nat :=
  (scope.params.filter fun e => scope.param e.1 == some e.2).map Prod.snd

/-- The scope of a nested `fn`: without the names its own type parameters shadow. -/
def nestedScope (outer : TypeScope) (params : List TypeParam) : TypeScope :=
  let visible := extendParamScope outer params
  { visible with params := visible.params.filter fun e => (params.map TypeParam.name).contains e.1 = false }

/-! ### The walk -/

structure ForwardSlot where
  template : Ty
  needsRecipe : Bool
deriving DecidableEq, Repr

abbrev ForwardingMap := String → List ForwardSlot

/-- The tables of `WalkCx` that are the same for every walk. -/
structure Tables where
  xt : List (String × String)
  declParams : String → Option (List TypeParam)
  sigs : String → Option (List Ty × Ty)
  fresh : List (String × String)
  objFields : String → Option (String → Option TypeRef)
  typeParams : String → Option (List TypeParam)

/-- `WalkCx`, without the table of the round. -/
structure WalkCx where
  tables : Tables
  params : TypeScope
  ret : Option TypeRef

/-- What the walk marks: a template, or each slot of a callee under a substitution, as far as it
still mentions a parameter in scope. -/
inductive Mark where
  | template (t : Ty) (needsRecipe : Bool)
  | slotsOf (callee : String) (subst : Subst) (visible : List Nat)

/-- The marks of the loop over the slots of a callee. -/
def forwardSlots (subst : Subst) (visible : List Nat) (slots : List ForwardSlot) :
    List (Ty × Bool) :=
  slots.filterMap fun slot =>
    let sigma := applySubst subst slot.template
    if mentionsParam sigma visible then some (sigma, slot.needsRecipe) else none

def Mark.emit (map : ForwardingMap) : Mark → List (Ty × Bool)
  | .template t needsRecipe => [(t, needsRecipe)]
  | .slotsOf callee subst visible => forwardSlots subst visible (map callee)

namespace WalkCx

variable (cx : WalkCx)

def toType (ty : TypeRef) : Ty := fromRefQ ty cx.tables.xt cx.params

def mentions (t : Ty) : Bool := mentionsParam t (scopeIds cx.params)

def bareParam (ty : TypeRef) : Option Ty :=
  match cx.toType ty with
  | .param id => some (.param id)
  | _ => none

end WalkCx

/-- A mark for a type that mentions a parameter in scope. -/
def markMention (cx : WalkCx) (ty : TypeRef) : List Mark :=
  if cx.mentions (cx.toType ty) then [.template (cx.toType ty) true] else []

/-- A mark for a bare parameter. -/
def markBare (cx : WalkCx) (ty : TypeRef) : List Mark :=
  match cx.bareParam ty with
  | some p => [.template p false]
  | none => []

/-- The substitution of a declaration's type parameters by arguments in order. -/
def substOf (params : List TypeParam) (args : List Ty) : Subst :=
  ((params.map TypeParam.id).zip args).reverse

/-- The `TypedCall` arm: the slots of the callee under the type arguments. -/
def markTurbofish (cx : WalkCx) (name : String) (typeArgs : List TypeRef) : List Mark :=
  match cx.tables.declParams name with
  | some params =>
    if typeArgs.length = params.length then
      [.slotsOf name (substOf params (typeArgs.map cx.toType)) (scopeIds cx.params)]
    else []
  | none => []

def freshCtorCallType (fresh : List (String × String)) : Expr → Option (String × String)
  | .call (.member receiver name) _ =>
    match receiver.peelInstantiation with
    | .ident tn => if fresh.contains (tn, name) then some (tn, name) else none
    | _ => none
  | _ => none

def headOf : TypeRef → Option String
  | .named name _ => some name
  | _ => none

def markCtorPosition (cx : WalkCx) (position : Option TypeRef) (value : Expr) : List Mark :=
  match position, freshCtorCallType cx.tables.fresh value with
  | some position, some (ctorTy, method) =>
    match cx.toType position with
    | .named n args =>
      let t := Ty.named n args
      if n ≠ ctorTy ∨ args = [] ∨ cx.mentions t = false then []
      else
        Mark.template t false ::
          match cx.tables.typeParams ctorTy with
          | some params =>
            if params.length = args.length then
              [.slotsOf (ctorTy ++ "." ++ method) (substOf params args) (scopeIds cx.params)]
            else []
          | none => []
    | _ => []
  | _, _ => []

def markObjectPositions (cx : WalkCx) (typeName : Option String) (inits : List FieldInit)
    (elided : Option String) : List Mark :=
  match typeName.or elided with
  | none => []
  | some name =>
    match cx.tables.objFields name with
    | none => []
    | some fields => inits.flatMap fun | .mk field value => markCtorPosition cx (fields field) value

/-- The annotated binding of a forwarding function as a value. -/
def markPassThrough (cx : WalkCx) (ann : TypeRef) (value : Expr) : List Mark :=
  match value with
  | .ident name =>
    match cx.tables.declParams name, cx.tables.sigs name, cx.toType ann with
    | some params, some (rawParams, rawRet), .fn annParams annRet =>
      let ids := params.map TypeParam.id
      let subst := bindTypeParams ids rawRet annRet (bindAll ids rawParams annParams [])
      [.slotsOf name subst (scopeIds cx.params)]
    | _, _, _ => []
  | _ => []

/-- The two forms of a call that spell an instantiation or a parameter in receiver position. -/
def markCallee (cx : WalkCx) (callee call : Expr) : List Mark :=
  match callee with
  | .member (.instantiatedType (.ident name) typeArgs) _ =>
    markCtorPosition cx (some (.named name typeArgs)) call
  | .member (.ident name) _ => markBare cx (.named name [])
  | _ => []

/-- The arm of a typed method call on an instantiated type. -/
def markTypedReceiver (cx : WalkCx) (recv call : Expr) : List Mark :=
  match recv with
  | .instantiatedType (.ident name) typeArgs =>
    markCtorPosition cx (some (.named name typeArgs)) call
  | _ => []

/-- The positions of a returned object literal. -/
def markReturned (cx : WalkCx) (value : Expr) : List Mark :=
  markCtorPosition cx cx.ret value ++
    match value with
    | .object typeName fields _ => markObjectPositions cx typeName fields (cx.ret.bind headOf)
    | _ => []

mutual

def walkStmt (cx : WalkCx) : Stmt → List Mark
  | .echo value => walkExpr cx value
  | .yieldOf value => walkExpr cx value
  | .binding _ (some ann) value =>
    markPassThrough cx ann value ++ markCtorPosition cx (some ann) value ++ walkExpr cx value
  | .binding _ none value => walkExpr cx value
  | .destructure value => walkExpr cx value
  | .expr e => walkExpr cx e
  | .ret (some v) => markReturned cx v ++ walkExpr cx v
  | .ret none => []
  | .ite cond thenBody elseBody =>
    walkExpr cx cond ++ walkStmts cx thenBody ++ walkStmts cx elseBody
  | .forIn iterable body => walkExpr cx iterable ++ walkStmts cx body
  | .whileDo cond body => walkExpr cx cond ++ walkStmts cx body
  | .concurrent body => walkStmts cx body
  | .tierBlock items => walkStmts cx items
  | .fn (.mk _ typeParams _ _ ret _ _ body) =>
    let visible := nestedScope cx.params typeParams
    if visible.params = [] ∧ visible.selfTy = none then []
    else walkStmts { cx with params := visible, ret := ret } body
  | .decl => []
  | .brk => []
  | .cont => []

def walkStmts (cx : WalkCx) : List Stmt → List Mark
  | [] => []
  | s :: ss => walkStmt cx s ++ walkStmts cx ss

def walkExpr (cx : WalkCx) : Expr → List Mark
  | .typedModuleCall _ _ ty args => markMention cx ty ++ walkExprs cx args
  | .reflect byName types operands =>
    (if byName then types.flatMap (markBare cx) else []) ++ walkExprs cx operands
  | .narrow _ e ty => markBare cx ty ++ walkExpr cx e
  | .typedCall name typeArgs args => markTurbofish cx name typeArgs ++ walkExprs cx args
  | .typedMethodCall recv name typeArgs args =>
    markTypedReceiver cx recv (.typedMethodCall recv name typeArgs args) ++ walkExpr cx recv ++
      walkExprs cx args
  | .closure _ body => walkBody cx body
  | .node _ operands => walkExprs cx operands
  | .tryOf operand => walkExpr cx operand
  | .member receiver _ => walkExpr cx receiver
  | .call callee args =>
    markCallee cx callee (.call callee args) ++ walkExpr cx callee ++ walkExprs cx args
  | .instantiatedType recv _ => walkExpr cx recv
  | .matchOn scrutinee arms => walkExpr cx scrutinee ++ walkArms cx arms
  | .object typeName fields none =>
    markObjectPositions cx typeName fields none ++ walkFields cx fields
  | .object typeName fields (some spread) =>
    markObjectPositions cx typeName fields none ++ walkExpr cx spread ++ walkFields cx fields
  | .tierExpr holes => walkExprs cx holes
  | .leaf => []
  | .ident _ => []

def walkExprs (cx : WalkCx) : List Expr → List Mark
  | [] => []
  | e :: es => walkExpr cx e ++ walkExprs cx es

def walkBody (cx : WalkCx) : Body → List Mark
  | .expr e => walkExpr cx e
  | .block stmts => walkStmts cx stmts

/-- The loop over the arms of a `match`. -/
def walkArms (cx : WalkCx) : List Arm → List Mark
  | [] => []
  | .mk _ body :: arms => walkBody cx body ++ walkArms cx arms

def walkFields (cx : WalkCx) : List FieldInit → List Mark
  | [] => []
  | .mk _ value :: fields => walkExpr cx value ++ walkFields cx fields

end

/-! ### The tables and the candidates -/

/-- The top-level generic functions. -/
def genericFns (program : Program) : List FnDecl :=
  program.filterMap fun
    | .fn d => if d.typeParams = [] then none else some d
    | .type _ => none

def typeDecls (program : Program) : List TypeDecl :=
  program.filterMap fun
    | .fn _ => none
    | .type d => some d

def objectFieldTypes (program : Program) (name : String) : Option (String → Option TypeRef) :=
  match (typeDecls program).filter fun d => d.kind ≠ .enumKind && d.name == name with
  | [] => none
  | decls => some fun field =>
    (((decls.flatMap TypeDecl.fields).filter fun f => f.1 == field && f.2.isSome).getLast?).bind
      Prod.snd

def declaredTypeParams (program : Program) (name : String) : Option (List TypeParam) :=
  (((typeDecls program).filter fun d => d.name == name && d.typeParams ≠ []).getLast?).map
    TypeDecl.typeParams

/-- `sigs`: the declared signature of a function over its own parameters. -/
def signature (xt : List (String × String)) (f : FnDecl) : List Ty × Ty :=
  let ty (ref : Option TypeRef) : Ty :=
    match ref with
    | some ref => fromRefQ ref xt (paramScope f.typeParams)
    | none => .unknown
  (f.params.map ty, ty f.ret)

def lastNamed (fns : List FnDecl) (name : String) : Option FnDecl :=
  (fns.filter fun f => f.name == name).getLast?

def tablesOf (program : Program) (xt : List (String × String)) (fresh : List (String × String)) :
    Tables where
  xt := xt
  declParams := fun name => (lastNamed (genericFns program) name).map FnDecl.typeParams
  sigs := fun name => (lastNamed (genericFns program) name).map (signature xt)
  fresh := fresh
  objFields := objectFieldTypes program
  typeParams := declaredTypeParams program

structure Candidate where
  key : String
  decl : FnDecl
  own : TypeScope

def forwardableClassParams (typeParams : List TypeParam) (m : FnDecl) (fromImpl : Bool) :
    List TypeParam :=
  if typeParams = [] ∨ fromImpl ∨ m.mentionsSelf then [] else typeParams

/-- `method_candidates`, under their keys. -/
def methodCandidates (program : Program) : List Candidate :=
  (typeDecls program).flatMap fun d => d.methods.filterMap fun m =>
    let own := extendParamScope (paramScope (forwardableClassParams d.typeParams m.1 m.2))
      m.1.typeParams
    if own.params = [] then none else some ⟨d.name ++ "." ++ m.1.name, m.1, own⟩

def candidates (program : Program) : List Candidate :=
  ((genericFns program).map fun f => ⟨f.name, f, paramScope f.typeParams⟩) ++
    methodCandidates program

/-! ### The fixpoint -/

def maxTemplateDepth : Nat := 8

/-- `mark_fn`; the state is `marks` and `overflow`. -/
def markFn (state : List ForwardSlot × Bool) (mark : Ty × Bool) : List ForwardSlot × Bool :=
  if maxTemplateDepth < typeDepth mark.1 then (state.1, true)
  else if (state.1.map ForwardSlot.template).contains mark.1 then
    (state.1.map fun s =>
      if s.template = mark.1 then { s with needsRecipe := s.needsRecipe || mark.2 } else s, state.2)
  else (state.1 ++ [⟨mark.1, mark.2⟩], state.2)

def collectMarks (marks : List (Ty × Bool)) : List ForwardSlot × Bool :=
  marks.foldl markFn ([], false)

/-- The walk of a candidate's body. -/
def Candidate.marks (tables : Tables) (c : Candidate) : List Mark :=
  walkStmts ⟨tables, c.own, c.decl.ret⟩ c.decl.body

/-- The slots a walk collects with the table as it is. -/
def Candidate.collect (tables : Tables) (map : ForwardingMap) (c : Candidate) :
    List ForwardSlot × Bool :=
  collectMarks ((c.marks tables).flatMap (Mark.emit map))

/-- The state of the loop. -/
structure Fixpoint where
  map : ForwardingMap
  poisoned : List String
  changed : Bool

/-- One candidate in a round. -/
def visit (tables : Tables) (s : Fixpoint) (c : Candidate) : Fixpoint :=
  let (marks, overflow) := c.collect tables s.map
  let poisoned := if overflow then c.key :: s.poisoned else s.poisoned
  if marks = [] ∨ s.map c.key = marks then { s with poisoned }
  else { map := fun key => if key = c.key then marks else s.map key, poisoned, changed := true }

/-- One round of the loop. -/
def round (tables : Tables) (cs : List Candidate) (map : ForwardingMap) (poisoned : List String) :
    Fixpoint :=
  cs.foldl (visit tables) ⟨map, poisoned, false⟩

/-- The loop, for as many rounds as there is fuel. -/
def settle (tables : Tables) (cs : List Candidate) :
    Nat → ForwardingMap → List String → Option (ForwardingMap × List String)
  | 0, _, _ => none
  | fuel + 1, map, poisoned =>
    let s := round tables cs map poisoned
    if s.changed then settle tables cs fuel s.map s.poisoned else some (s.map, s.poisoned)

def reflectiveGenericTypes (program : Program) (tables : Tables) (map : ForwardingMap) :
    List String :=
  (typeDecls program).filterMap fun d =>
    let own := paramScope d.typeParams
    let reads (m : FnDecl) : Bool :=
      ((walkStmts ⟨tables, own, m.ret⟩ m.body).flatMap (Mark.emit map)).any fun mark =>
        match mark.1 with
        | .param id => (scopeIds own).contains id
        | _ => false
    if d.typeParams ≠ [] ∧ d.methods.any (fun m => reads m.1) then some d.name else none

structure Forwarding where
  map : ForwardingMap
  poisoned : List String
  reflective : List String

/-- `compute_forwarding`, for as many rounds as there is fuel. -/
def computeForwarding (program : Program) (xt : List (String × String))
    (fresh : List (String × String)) (fuel : Nat) : Option Forwarding :=
  let tables := tablesOf program xt fresh
  (settle tables (candidates program) fuel (fun _ => []) []).map fun (map, poisoned) =>
    ⟨map, poisoned, reflectiveGenericTypes program tables map⟩

end Noeta.Check
