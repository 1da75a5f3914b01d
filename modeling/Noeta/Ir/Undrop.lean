import Noeta.Ir.DropFuncs

/-!
# What drop insertion leaves alone

Without its drops a program is what it was before the insertion: no statement is lost, moved or changed.
-/

namespace Noeta.Ir

mutual

/-- What is left of a statement without the drops. The thunks of defaults get none. -/
def Stmt.undrop : Stmt → List Stmt
  | .dropVar _ _ => []
  | .letTemp dst rvalue => [.letTemp dst rvalue.undrop]
  | .eval rvalue => [.eval rvalue.undrop]
  | .ite cond thenBlock none => [.ite cond thenBlock.undrop none]
  | .ite cond thenBlock (some elseBlock) => [.ite cond thenBlock.undrop (some elseBlock.undrop)]
  | .whileDo cond body => [.whileDo cond.undrop body.undrop]
  | .forIn pattern iterable orderSlots body => [.forIn pattern iterable orderSlots body.undrop]
  | .matchOn scrutinee arms => [.matchOn scrutinee (armsUndrop arms)]
  | .logical left right => [.logical left right.undrop]
  | .coalesce value fallback => [.coalesce value fallback.undrop]
  | .declFn name func => [.declFn name func.undrop]
  | .declClass methods none => [.declClass (funcsUndrop methods) none]
  | .declClass methods (some destructor) => [.declClass (funcsUndrop methods) (some destructor.undrop)]
  | .declStruct methods => [.declStruct (funcsUndrop methods)]
  | .declEnum methods => [.declEnum (funcsUndrop methods)]
  | other => [other]

def stmtsUndrop : List Stmt → List Stmt
  | [] => []
  | stmt :: stmts => stmt.undrop ++ stmtsUndrop stmts

def Block.undrop : Block → Block
  | .mk stmts tail => .mk (stmtsUndrop stmts) tail

def armsUndrop : List Arm → List Arm
  | [] => []
  | .mk pattern none body :: arms => .mk pattern none body.undrop :: armsUndrop arms
  | .mk pattern (some guard) body :: arms => .mk pattern (some guard.undrop) body.undrop :: armsUndrop arms

def Rvalue.undrop : Rvalue → Rvalue
  | .closure func => .closure func.undrop
  | .tryProp operand _ => .tryProp operand []
  | other => other

def Func.undrop : Func → Func
  | .mk params defaults body span => .mk params defaults body.undrop span

def funcsUndrop : List Func → List Func
  | [] => []
  | func :: funcs => func.undrop :: funcsUndrop funcs

end

def Program.undrop (p : Program) : Program := ⟨p.top.undrop⟩

theorem undrop_append (ss ss' : List Stmt) : stmtsUndrop (ss ++ ss') = stmtsUndrop ss ++ stmtsUndrop ss' := by
  induction ss with
  | nil => rfl
  | cons s ss ih => rw [List.cons_append, stmtsUndrop, ih, stmtsUndrop, List.append_assoc]

theorem undrop_dropStmts (drops : List (Name × Bool)) : stmtsUndrop (dropStmts drops) = [] := by
  induction drops with
  | nil => rfl
  | cons d drops ih => exact ih

theorem undrop_exitDrops (scopes : List ScopeFrame) (s : Stmt) : stmtsUndrop (exitDrops scopes s) = [] := by
  cases s <;> first | rfl | exact undrop_dropStmts _

theorem undrop_dedupDrops (ss : List Stmt) (last : Option Name) :
    stmtsUndrop (dedupDrops last ss) = stmtsUndrop ss := by
  fun_induction dedupDrops last ss with
  | case1 => rfl
  | case2 name relevant ss ih => exact ih
  | case3 last name relevant ss hne ih => exact ih
  | case4 last s ss hs ih => rw [stmtsUndrop, stmtsUndrop, ih]

mutual

theorem block_kept {cx : Cx} {droppable owned : DropSet} {scopes : List ScopeFrame} {isLoopBody : Bool} :
    ∀ (b : Block) (out : VarSet),
    (rewriteBlock cx droppable owned scopes isLoopBody b (analyzeBlock b out)).undrop = b.undrop
  | .mk ss t, out => by
    rw [rewriteBlock, Block.undrop, undrop_append, undrop_dedupDrops, undrop_dropStmts, List.append_nil]
    exact congrArg (Block.mk · t) (stmts_kept ss _)

theorem stmts_kept {cx : Cx} {droppable owned : DropSet} {scopes : List ScopeFrame} {frame : ScopeFrame} :
    ∀ (ss : List Stmt) (out : VarSet),
    stmtsUndrop (rewriteStmts cx droppable owned scopes frame ss (analyzeStmts ss out).2).1 = stmtsUndrop ss
  | [], _ => rfl
  | s :: ss, out => by
    simp only [analyzeStmts, rewriteStmts, undrop_append, undrop_exitDrops, undrop_dropStmts, stmtsUndrop,
      List.nil_append, List.append_nil, stmts_kept ss]
    exact congrArg (· ++ _) (stmt_kept s _)

theorem stmt_kept {cx : Cx} {droppable owned : DropSet} {scopes : List ScopeFrame} : ∀ (s : Stmt) (out : VarSet),
    (rewriteStmt cx droppable owned scopes s (analyzeStmt s out).2).undrop = s.undrop
  | .letTemp dst rvalue, _ => congrArg ([Stmt.letTemp dst ·]) (rvalue_kept rvalue)
  | .eval rvalue, _ => congrArg ([Stmt.eval ·]) (rvalue_kept rvalue)
  | .ite cond thenBlock none, _ => congrArg ([Stmt.ite cond · none]) (block_kept thenBlock _)
  | .ite cond thenBlock (some elseBlock), _ =>
    congrArg₂ (fun b c => [Stmt.ite cond b (some c)]) (block_kept thenBlock _) (block_kept elseBlock _)
  | .whileDo cond body, _ => congrArg₂ ([Stmt.whileDo · ·]) (block_kept cond _) (block_kept body _)
  | .forIn pattern iterable orderSlots body, _ =>
    congrArg ([Stmt.forIn pattern iterable orderSlots ·]) (block_kept body _)
  | .matchOn scrutinee arms, _ => congrArg ([Stmt.matchOn scrutinee ·]) (arms_kept arms _)
  | .logical left right, _ => congrArg ([Stmt.logical left ·]) (block_kept right _)
  | .coalesce value fallback, _ => congrArg ([Stmt.coalesce value ·]) (block_kept fallback _)
  | .declFn name func, _ => congrArg ([Stmt.declFn name ·]) (func_kept func)
  | .declClass methods none, _ => congrArg ([Stmt.declClass · none]) (funcs_kept methods)
  | .declClass methods (some destructor), _ =>
    congrArg₂ (fun fs f => [Stmt.declClass fs (some f)]) (funcs_kept methods) (func_kept destructor)
  | .declStruct methods, _ => congrArg ([Stmt.declStruct ·]) (funcs_kept methods)
  | .declEnum methods, _ => congrArg ([Stmt.declEnum ·]) (funcs_kept methods)
  | .bind .., _ | .echo _, _ | .ret _, _ | .brk, _ | .cont, _ | .scopeBegin, _ | .scopeEnd, _ | .declUse _, _ | .drop _, _
  | .dropVar .., _ => rfl

theorem arms_kept {cx : Cx} {droppable owned : DropSet} {scopes : List ScopeFrame} :
    ∀ (arms : List Arm) (out : VarSet),
    armsUndrop (rewriteArms cx droppable owned scopes arms (analyzeArms arms out).2) = armsUndrop arms
  | [], _ => rfl
  | .mk pattern none body :: arms, _ =>
    congrArg₂ (fun b as => Arm.mk pattern none b :: as) (block_kept body _) (arms_kept arms _)
  | .mk pattern (some guard) body :: arms, _ =>
    congrArg₂ List.cons (congrArg₂ (fun g b => Arm.mk pattern (some g) b) (block_kept guard _)
      (block_kept body _)) (arms_kept arms _)

theorem rvalue_kept {cx : Cx} {scopes : List ScopeFrame} : ∀ r : Rvalue, (rewriteRvalue cx scopes r).undrop = r.undrop
  | .closure func => congrArg Rvalue.closure (func_kept func)
  | .tryProp _ _ | .op _ => rfl

theorem func_kept {cx : Cx} : ∀ f : Func, (rewriteFunc cx f).undrop = f.undrop
  | .mk params defaults body span => congrArg (Func.mk params defaults · span) (block_kept body _)

theorem funcs_kept {cx : Cx} : ∀ fs : List Func, funcsUndrop (rewriteFuncs cx fs) = funcsUndrop fs
  | [] => rfl
  | f :: fs => congrArg₂ List.cons (func_kept f) (funcs_kept fs)

end

/-- **Insertion only adds drops**: whatever the checker recorded, without the drops the program is the one before. -/
theorem undrop_insertDrops (p : Program) (relevance : Option Relevance) : (insertDrops p relevance).undrop = p.undrop :=
  congrArg Program.mk (block_kept p.top _)

end Noeta.Ir
