import Noeta.Check.Relevance
import Noeta.Ir.DropFuncs

/-!
# The relevance of parameters

`record_param_relevance`: the walk that records the parameters whose declared type is destructor-relevant, and what the drop pass makes of them. The pass marks a drop relevant only if its parameter is recorded; the walk does not reach every function, and reads the types without the scope they stand in.
-/

namespace Noeta.Check.ParamRelevance

open Noeta.Types (Ty TypeRef TypeScope)
open Noeta.Ir (Span)

/-! ### Function-likes -/

structure Param where
  name : String
  ty : Option TypeRef

mutual

/-- An expression by the bodies in it; `node` is every other form, with its operands. -/
inductive Expr where
  | node (operands : List Expr)
  | closure (params : List Param) (body : Body) (span : Span)
  | matchOn (scrutinee : Expr) (arms : List Arm)

/-- `ClosureBody`. -/
inductive Body where
  | expr (e : Expr)
  | block (stmts : List Stmt)

inductive Arm where
  | mk (guard : Option Expr) (body : Body)

inductive Stmt where
  /-- A statement without a body of its own, with its expressions. -/
  | plain (exprs : List Expr)
  | fn (decl : FnDecl)
  | classDecl (name : String) (typeParams : List TypeParam) (fieldDefaults : List Expr) (methods : List FnDecl)
      (impls : List (List FnDecl)) (destructor : List Stmt)
  | structDecl (name : String) (typeParams : List TypeParam) (fieldDefaults : List Expr) (methods : List FnDecl)
      (impls : List (List FnDecl))
  | enumDecl (name : String) (typeParams : List TypeParam) (methods : List FnDecl) (impls : List (List FnDecl))
  | implDecl (target : String) (methods : List FnDecl)
  /-- A trait with its default methods. -/
  | traitDecl (name : String) (typeParams : List TypeParam) (defaults : List FnDecl)
  /-- A missing `else` is an empty one. -/
  | ite (cond : Expr) (thenBody elseBody : List Stmt)
  | forIn (iterable : Expr) (body : List Stmt)
  | whileDo (cond : Expr) (body : List Stmt)
  | concurrent (body : List Stmt)
  | tierBlock (items : List Stmt)

inductive FnDecl where
  | mk (typeParams : List TypeParam) (params : List Param) (defaults : List Expr) (body : List Stmt) (span : Span)

end

namespace FnDecl

def params : FnDecl → List Param
  | .mk _ params _ _ _ => params

def body : FnDecl → List Stmt
  | .mk _ _ _ body _ => body

def span : FnDecl → Span
  | .mk _ _ _ _ span => span

end FnDecl

/-- A function, method or closure, with the scope its annotations are read in. -/
structure FunctionLike where
  scope : TypeScope
  params : List Param
  span : Span

/-- The scope of a type's own body (`enter_type_body`). -/
def bodyScope (selfTy : Option Ty) (typeParams : List TypeParam) : TypeScope :=
  { paramScope typeParams with selfTy }

def selfType (name : String) (typeParams : List TypeParam) : Ty := .named name (typeParams.map fun p => .param p.id)

/-- The scope in an `impl` for a type of the program, whose parameters `targets` has; another target names no type. -/
def implScope (targets : String → Option (List TypeParam)) (target : String) : TypeScope :=
  match targets target with
  | some typeParams => bodyScope (some (selfType target typeParams)) typeParams
  | none => bodyScope none []

section Likes

variable (targets : String → Option (List TypeParam))

mutual

def likesExpr (scope : TypeScope) : Expr → List FunctionLike
  | .node operands => likesExprs scope operands
  | .closure params body span => ⟨scope, params, span⟩ :: likesBody scope body
  | .matchOn scrutinee arms => likesExpr scope scrutinee ++ likesArms scope arms

def likesExprs (scope : TypeScope) : List Expr → List FunctionLike
  | [] => []
  | e :: es => likesExpr scope e ++ likesExprs scope es

def likesBody (scope : TypeScope) : Body → List FunctionLike
  | .expr e => likesExpr scope e
  | .block stmts => likesStmts scope stmts

def likesArms (scope : TypeScope) : List Arm → List FunctionLike
  | [] => []
  | .mk none body :: arms => likesBody scope body ++ likesArms scope arms
  | .mk (some guard) body :: arms => likesExpr scope guard ++ likesBody scope body ++ likesArms scope arms

def likesStmt (scope : TypeScope) : Stmt → List FunctionLike
  | .plain exprs => likesExprs scope exprs
  | .fn decl => likesFn scope decl
  | .classDecl name typeParams fieldDefaults methods impls destructor =>
    let inner := bodyScope (some (selfType name typeParams)) typeParams
    likesExprs inner fieldDefaults ++ likesFns inner methods ++ likesImpls inner impls ++ likesStmts inner destructor
  | .structDecl name typeParams fieldDefaults methods impls =>
    let inner := bodyScope (some (selfType name typeParams)) typeParams
    likesExprs inner fieldDefaults ++ likesFns inner methods ++ likesImpls inner impls
  | .enumDecl name typeParams methods impls =>
    let inner := bodyScope (some (selfType name typeParams)) typeParams
    likesFns inner methods ++ likesImpls inner impls
  | .implDecl target methods => likesFns (implScope targets target) methods
  | .traitDecl name typeParams defaults => likesFns (bodyScope (some (.dynTrait name)) typeParams) defaults
  | .ite cond thenBody elseBody => likesExpr scope cond ++ likesStmts scope thenBody ++ likesStmts scope elseBody
  | .forIn iterable body => likesExpr scope iterable ++ likesStmts scope body
  | .whileDo cond body => likesExpr scope cond ++ likesStmts scope body
  | .concurrent body => likesStmts scope body
  | .tierBlock items => likesStmts scope items

def likesStmts (scope : TypeScope) : List Stmt → List FunctionLike
  | [] => []
  | s :: ss => likesStmt scope s ++ likesStmts scope ss

/-- The function itself and those in it. -/
def likesFn (scope : TypeScope) : FnDecl → List FunctionLike
  | .mk typeParams params defaults body span =>
    let inner := extendParamScope scope typeParams
    ⟨inner, params, span⟩ :: likesExprs scope defaults ++ likesStmts inner body

def likesFns (scope : TypeScope) : List FnDecl → List FunctionLike
  | [] => []
  | f :: fs => likesFn scope f ++ likesFns scope fs

def likesImpls (scope : TypeScope) : List (List FnDecl) → List FunctionLike
  | [] => []
  | methods :: impls => likesFns scope methods ++ likesImpls scope impls

end

/-- Every function-like body of a program. -/
def functionLikes (program : List Stmt) : List FunctionLike := likesStmts targets ⟨[], none⟩ program

end Likes

/-! ### The walk -/

def paramType (p : Param) (xt : List (String × String)) (scope : TypeScope) : Ty :=
  match p.ty with
  | some ref => fromRefQ ref xt scope
  | none => .unknown

section Record

variable (xt : List (String × String)) (reachable : List String)

/-- `annot_param` as the walk calls it: no declaration is entered, the scope is empty. -/
def annotParam (p : Param) : Ty := paramType p xt ⟨[], none⟩

/-- What the walk inserts for a function's own parameters. -/
def ownRecord (span : Span) (params : List Param) : List (Span × String) :=
  (params.filter fun p => typeRelevant reachable (annotParam xt p)).map fun p => (span, p.name)

mutual

/-- `record_param_relevance_fn`. -/
def recordFn : FnDecl → List (Span × String)
  | .mk _ params _ body span => ownRecord xt reachable span params ++ recordStmts body

/-- `record_param_relevance_stmt`. -/
def recordStmt : Stmt → List (Span × String)
  | .fn decl => recordFn decl
  | .classDecl _ _ _ methods impls _ => recordFns methods ++ recordImpls impls
  | .ite _ thenBody elseBody => recordStmts thenBody ++ recordStmts elseBody
  | .forIn _ body => recordStmts body
  | .whileDo _ body => recordStmts body
  | _ => []

def recordStmts : List Stmt → List (Span × String)
  | [] => []
  | s :: ss => recordStmt s ++ recordStmts ss

def recordFns : List FnDecl → List (Span × String)
  | [] => []
  | f :: fs => recordFn f ++ recordFns fs

def recordImpls : List (List FnDecl) → List (Span × String)
  | [] => []
  | methods :: impls => recordFns methods ++ recordImpls impls

end

def recordParamRelevance (program : List Stmt) : List (Span × String) := recordStmts xt reachable program

end Record

/-- The functions the walk comes to: those that stand in a list of statements, under an `if`, a `for` or a `while`, as a method of a class, or in the body of another one. -/
inductive Visits : List Stmt → FnDecl → Prop where
  | fn {ss d} (h : .fn d ∈ ss) : Visits ss d
  | method {ss name typeParams fieldDefaults methods impls destructor d}
    (h : .classDecl name typeParams fieldDefaults methods impls destructor ∈ ss) (hd : d ∈ methods) : Visits ss d
  | implMethod {ss name typeParams fieldDefaults methods impls destructor block d}
    (h : .classDecl name typeParams fieldDefaults methods impls destructor ∈ ss) (hblock : block ∈ impls)
    (hd : d ∈ block) : Visits ss d
  | thenBody {ss cond thenBody elseBody d} (h : .ite cond thenBody elseBody ∈ ss) (hd : Visits thenBody d) : Visits ss d
  | elseBody {ss cond thenBody elseBody d} (h : .ite cond thenBody elseBody ∈ ss) (hd : Visits elseBody d) : Visits ss d
  | forBody {ss iterable body d} (h : .forIn iterable body ∈ ss) (hd : Visits body d) : Visits ss d
  | whileBody {ss cond body d} (h : .whileDo cond body ∈ ss) (hd : Visits body d) : Visits ss d
  | nested {ss d d'} (h : Visits ss d) (hd : Visits d.body d') : Visits ss d'

theorem Visits.mono {ss ss' : List Stmt} {d : FnDecl} (h : Visits ss d) (hsub : ss ⊆ ss') : Visits ss' d := by
  induction h with
  | fn h => exact .fn (hsub h)
  | method h hd => exact .method (hsub h) hd
  | implMethod h hblock hd => exact .implMethod (hsub h) hblock hd
  | thenBody h hd => exact .thenBody (hsub h) hd
  | elseBody h hd => exact .elseBody (hsub h) hd
  | forBody h hd => exact .forBody (hsub h) hd
  | whileBody h hd => exact .whileBody (hsub h) hd
  | nested _ hd ih => exact .nested (ih hsub) hd

/-! ### What is recorded -/

section Recorded

variable {xt : List (String × String)} {reachable : List String}

theorem recordStmts_eq (ss : List Stmt) : recordStmts xt reachable ss = ss.flatMap (recordStmt xt reachable) := by
  induction ss with
  | nil => rfl
  | cons s ss ih => rw [recordStmts, ih, List.flatMap_cons]

theorem recordFns_eq (fs : List FnDecl) : recordFns xt reachable fs = fs.flatMap (recordFn xt reachable) := by
  induction fs with
  | nil => rfl
  | cons f fs ih => rw [recordFns, ih, List.flatMap_cons]

theorem recordImpls_eq (impls : List (List FnDecl)) :
    recordImpls xt reachable impls = impls.flatMap (recordFns xt reachable) := by
  induction impls with
  | nil => rfl
  | cons methods impls ih => rw [recordImpls, ih, List.flatMap_cons]

theorem mem_recordFn {d : FnDecl} {e : Span × String} :
    e ∈ recordFn xt reachable d ↔ e ∈ ownRecord xt reachable d.span d.params ∨ e ∈ recordStmts xt reachable d.body := by
  cases d
  exact List.mem_append

theorem record_of_visits {ss : List Stmt} {d : FnDecl} (h : Visits ss d) :
    recordFn xt reachable d ⊆ recordStmts xt reachable ss := by
  have hstmt : ∀ {ss : List Stmt} {s : Stmt}, s ∈ ss → recordStmt xt reachable s ⊆ recordStmts xt reachable ss := by
    intro ss s hs e he
    rw [recordStmts_eq]
    exact List.mem_flatMap.mpr ⟨s, hs, he⟩
  induction h with
  | fn h => exact hstmt h
  | method h hd =>
    intro e he
    apply hstmt h
    apply List.mem_append_left
    rw [recordFns_eq]
    exact List.mem_flatMap.mpr ⟨_, hd, he⟩
  | implMethod h hblock hd =>
    intro e he
    apply hstmt h
    apply List.mem_append_right
    rw [recordImpls_eq]
    refine List.mem_flatMap.mpr ⟨_, hblock, ?_⟩
    rw [recordFns_eq]
    exact List.mem_flatMap.mpr ⟨_, hd, he⟩
  | thenBody h _ ih => exact fun e he => hstmt h (List.mem_append_left _ (ih he))
  | elseBody h _ ih => exact fun e he => hstmt h (List.mem_append_right _ (ih he))
  | forBody h _ ih => exact fun e he => hstmt h (ih he)
  | whileBody h _ ih => exact fun e he => hstmt h (ih he)
  | nested _ _ ih ih' => exact fun e he => ih (mem_recordFn.mpr (.inr (ih' he)))

/-- An entry is that of a function in `ds` or in a body the walk comes to from there. -/
def Under (xt : List (String × String)) (reachable : List String) (ds : FnDecl → Prop) (e : Span × String) : Prop :=
  ∃ d, ds d ∧ e ∈ ownRecord xt reachable d.span d.params

mutual

theorem under_recordFn : (f : FnDecl) → ∀ e ∈ recordFn xt reachable f, Under xt reachable (fun d => d = f ∨ Visits f.body d) e
  | .mk typeParams params defaults body span, e, he => by
    rcases List.mem_append.mp he with he | he
    · exact ⟨_, .inl rfl, he⟩
    · obtain ⟨d, hd, he⟩ := under_recordStmts body e he
      exact ⟨d, .inr hd, he⟩

theorem under_recordStmt : (s : Stmt) → ∀ e ∈ recordStmt xt reachable s, Under xt reachable (Visits [s]) e
  | .fn decl, e, he => by
    obtain ⟨d, rfl | hd, hown⟩ := under_recordFn decl e he
    · exact ⟨d, .fn List.mem_cons_self, hown⟩
    · exact ⟨d, .nested (.fn List.mem_cons_self) hd, hown⟩
  | .classDecl name typeParams fieldDefaults methods impls destructor, e, he => by
    rcases List.mem_append.mp he with he | he
    · obtain ⟨d, ⟨f, hf, rfl | hd⟩, he⟩ := under_recordFns methods e he
      · exact ⟨d, .method List.mem_cons_self hf, he⟩
      · exact ⟨d, .nested (.method List.mem_cons_self hf) hd, he⟩
    · obtain ⟨d, ⟨block, hblock, f, hf, rfl | hd⟩, he⟩ := under_recordImpls impls e he
      · exact ⟨d, .implMethod List.mem_cons_self hblock hf, he⟩
      · exact ⟨d, .nested (.implMethod List.mem_cons_self hblock hf) hd, he⟩
  | .ite cond thenBody elseBody, e, he => by
    rcases List.mem_append.mp he with he | he
    · obtain ⟨d, hd, he⟩ := under_recordStmts thenBody e he
      exact ⟨d, .thenBody List.mem_cons_self hd, he⟩
    · obtain ⟨d, hd, he⟩ := under_recordStmts elseBody e he
      exact ⟨d, .elseBody List.mem_cons_self hd, he⟩
  | .forIn iterable body, e, he => by
    obtain ⟨d, hd, he⟩ := under_recordStmts body e he
    exact ⟨d, .forBody List.mem_cons_self hd, he⟩
  | .whileDo cond body, e, he => by
    obtain ⟨d, hd, he⟩ := under_recordStmts body e he
    exact ⟨d, .whileBody List.mem_cons_self hd, he⟩
  | .plain _, _, he => by cases he
  | .structDecl _ _ _ _ _, _, he => by cases he
  | .enumDecl _ _ _ _, _, he => by cases he
  | .implDecl _ _, _, he => by cases he
  | .traitDecl _ _ _, _, he => by cases he
  | .concurrent _, _, he => by cases he
  | .tierBlock _, _, he => by cases he

theorem under_recordStmts : (ss : List Stmt) → ∀ e ∈ recordStmts xt reachable ss, Under xt reachable (Visits ss) e
  | [], _, he => by cases he
  | s :: ss, e, he => by
    rcases List.mem_append.mp he with he | he
    · obtain ⟨d, hd, he⟩ := under_recordStmt s e he
      exact ⟨d, hd.mono (by simp), he⟩
    · obtain ⟨d, hd, he⟩ := under_recordStmts ss e he
      exact ⟨d, hd.mono (by simp), he⟩

theorem under_recordFns : (fs : List FnDecl) → ∀ e ∈ recordFns xt reachable fs,
    Under xt reachable (fun d => ∃ f ∈ fs, d = f ∨ Visits f.body d) e
  | [], _, he => by cases he
  | f :: fs, e, he => by
    rcases List.mem_append.mp he with he | he
    · obtain ⟨d, hd, he⟩ := under_recordFn f e he
      exact ⟨d, ⟨f, List.mem_cons_self, hd⟩, he⟩
    · obtain ⟨d, ⟨g, hg, hd⟩, he⟩ := under_recordFns fs e he
      exact ⟨d, ⟨g, List.mem_cons_of_mem _ hg, hd⟩, he⟩

theorem under_recordImpls : (impls : List (List FnDecl)) → ∀ e ∈ recordImpls xt reachable impls,
    Under xt reachable (fun d => ∃ block ∈ impls, ∃ f ∈ block, d = f ∨ Visits f.body d) e
  | [], _, he => by cases he
  | block :: impls, e, he => by
    rcases List.mem_append.mp he with he | he
    · obtain ⟨d, hd, he⟩ := under_recordFns block e he
      exact ⟨d, ⟨block, List.mem_cons_self, hd⟩, he⟩
    · obtain ⟨d, ⟨b, hb, hd⟩, he⟩ := under_recordImpls impls e he
      exact ⟨d, ⟨b, List.mem_cons_of_mem _ hb, hd⟩, he⟩

end

/-- The walk comes to a function with the span, and its parameter of the name is relevant as the walk reads its type. -/
def Recorded (xt : List (String × String)) (reachable : List String) (program : List Stmt) (span : Span) (name : String) :
    Prop :=
  ∃ d, Visits program d ∧ d.span = span ∧
    ∃ q ∈ d.params, q.name = name ∧ typeRelevant reachable (annotParam xt q) = true

theorem mem_recordParamRelevance {program : List Stmt} {span : Span} {name : String} :
    (span, name) ∈ recordParamRelevance xt reachable program ↔ Recorded xt reachable program span name := by
  have hown : ∀ d : FnDecl, (span, name) ∈ ownRecord xt reachable d.span d.params ↔
      d.span = span ∧ ∃ q ∈ d.params, q.name = name ∧ typeRelevant reachable (annotParam xt q) = true := by
    intro d
    simp only [ownRecord, List.mem_map, List.mem_filter, Prod.mk.injEq]
    constructor
    · rintro ⟨q, ⟨hq, hrel⟩, hspan, hname⟩
      exact ⟨hspan, q, hq, hname, hrel⟩
    · rintro ⟨hspan, q, hq, hname, hrel⟩
      exact ⟨q, ⟨hq, hrel⟩, hspan, hname⟩
  constructor
  · intro h
    obtain ⟨d, hd, he⟩ := under_recordStmts program _ h
    exact ⟨d, hd, (hown d).mp he⟩
  · rintro ⟨d, hd, he⟩
    exact record_of_visits hd (mem_recordFn.mpr (.inl ((hown d).mpr he)))

end Recorded

/-! ### Irrelevant drops of parameters -/

section Drops

open Noeta.Ir (insertDrops topLevelNames droppedParams)

variable (xt : List (String × String)) (reachable : List String) (targets : String → Option (List TypeParam))

/-- Whatever function-like body of the program a lowered function comes from, a drop of a parameter that the pass marks irrelevant is of a type that is not relevant. -/
def IrrelevantOnlyByType (program : List Stmt) (p : Ir.Program) (locals : List Span) : Prop :=
  ∀ f ∈ (insertDrops p (some ⟨locals, recordParamRelevance xt reachable program⟩)).funcs,
    ∀ d ∈ functionLikes targets program, d.span = f.span → ∀ q ∈ d.params, q.name ∈ f.params →
      (q.name, false) ∈ f.body.ownDrops → typeRelevant reachable (paramType q xt d.scope) = false

/-- The pass drops the parameter in some function it lowers from the span: nothing rebinds, captures or shadows it, and a straight-line statement uses it last. -/
def DropsParam (p : Ir.Program) (span : Span) (name : String) : Prop :=
  ∃ enclosing f, p.Rewrites enclosing f ∧ f.span = span ∧ name ∈ droppedParams f (topLevelNames p.top) enclosing

/-- That holds exactly if the walk records each parameter of a relevant type the pass drops. -/
theorem irrelevantOnlyByType_iff (program : List Stmt) (p : Ir.Program) (locals : List Span) (hun : p.Undropped) :
    IrrelevantOnlyByType xt reachable targets program p locals ↔
      ∀ d ∈ functionLikes targets program, ∀ q ∈ d.params,
        typeRelevant reachable (paramType q xt d.scope) = true → DropsParam p d.span q.name →
          Recorded xt reachable program d.span q.name := by
  set relevance : Ir.Relevance := ⟨locals, recordParamRelevance xt reachable program⟩
  have hbit : ∀ {f : Ir.Func} {name : String}, name ∈ f.params →
      (Ir.relevantBit f (Ir.topCx p (some relevance)) name = true ↔ Recorded xt reachable program f.span name) := by
    intro f name hparam
    simp only [Ir.relevantBit, Ir.topCx, hparam, if_true, List.contains_iff_mem]
    exact mem_recordParamRelevance
  constructor
  · rintro h d hd q hq hrel ⟨enclosing, f, hrewrites, hspan, hdropped⟩
    by_contra hnot
    have hparam := Ir.param_of_dropped hdropped
    have hfalse : false = Ir.relevantBit f (Ir.topCx p (some relevance)) q.name := by
      symm
      apply Bool.eq_false_iff.mpr
      rwa [Ne, hbit hparam, hspan]
    obtain ⟨g, hg, hspan', hparam', hdrop⟩ :=
      (Ir.mem_drops_insertDrops hun (some relevance) d.span q.name false).mpr ⟨enclosing, f, hrewrites, hspan, hdropped, hfalse⟩
    rw [h g hg d hd hspan'.symm q hq hparam' hdrop] at hrel
    cases hrel
  · intro h f hf d hd hspan q hq hparam hdrop
    obtain ⟨enclosing, g, hrewrites, hspan', hdropped, hfalse⟩ :=
      (Ir.mem_drops_insertDrops hun (some relevance) d.span q.name false).mp ⟨f, hf, hspan.symm, hparam, hdrop⟩
    apply Bool.eq_false_iff.mpr
    intro hrel
    have hrecorded := h d hd q hq hrel ⟨enclosing, g, hrewrites, hspan', hdropped⟩
    rw [← hspan', ← hbit (Ir.param_of_dropped hdropped), ← hfalse] at hrecorded
    cases hrecorded

/-- A closure that prints its parameter, a value of a class with a destructor, bound to a name. -/
def printer : List Stmt :=
  [.plain [.closure [⟨"x", some (.named "R" [])⟩] (.block [.plain [.node []]]) ⟨4, 24⟩]]

def loweredPrinter : Ir.Program :=
  ⟨.mk [.letTemp 0 (.closure (.mk ["x"] [] (.mk [.echo (.var "x")] none) ⟨4, 24⟩)), .bind "f" ⟨0, 1⟩ (.temp 0)] none⟩

theorem loweredPrinter_undropped : loweredPrinter.Undropped :=
  ⟨⟨⟨trivial, trivial⟩, trivial⟩, trivial, trivial⟩

/-- The condition at the closure above, with and without a destructor in its class. -/
theorem irrelevantOnlyByType_iff_printer :
    (IrrelevantOnlyByType [] [] (fun _ => none) printer loweredPrinter [] ↔
      ∀ d ∈ functionLikes (fun _ => none) printer, ∀ q ∈ d.params,
        typeRelevant [] (paramType q [] d.scope) = true → DropsParam loweredPrinter d.span q.name →
          Recorded [] [] printer d.span q.name) ∧
    (IrrelevantOnlyByType [] ["R"] (fun _ => none) printer loweredPrinter [] ↔
      ∀ d ∈ functionLikes (fun _ => none) printer, ∀ q ∈ d.params,
        typeRelevant ["R"] (paramType q [] d.scope) = true → DropsParam loweredPrinter d.span q.name →
          Recorded [] ["R"] printer d.span q.name) :=
  ⟨irrelevantOnlyByType_iff [] [] _ printer loweredPrinter [] loweredPrinter_undropped,
    irrelevantOnlyByType_iff [] ["R"] _ printer loweredPrinter [] loweredPrinter_undropped⟩

theorem printer_irrelevant : ¬ IrrelevantOnlyByType [] ["R"] (fun _ => none) printer loweredPrinter [] := by
  have hfunc : Ir.Func.mk ["x"] [] (.mk [.echo (.var "x")] none) ⟨4, 24⟩ ∈ loweredPrinter.top.ownFuncs :=
    List.mem_cons_self
  have hunrecorded : recordParamRelevance [] ["R"] printer = [] := rfl
  obtain ⟨g, hg, hspan, hparam, hdrop⟩ :=
    (Ir.mem_drops_insertDrops loweredPrinter_undropped (some ⟨[], []⟩) ⟨4, 24⟩ "x"
      false).mpr ⟨∅, _, ⟨_, hfunc, .self⟩, rfl, by decide, rfl⟩
  intro h
  rw [IrrelevantOnlyByType, hunrecorded] at h
  have hrel := h g hg ⟨⟨[], none⟩, [⟨"x", some (.named "R" [])⟩], ⟨4, 24⟩⟩ List.mem_cons_self hspan.symm
    ⟨"x", some (.named "R" [])⟩ List.mem_cons_self hparam hdrop
  revert hrel
  decide

end Drops

end Noeta.Check.ParamRelevance
