import Noeta.Lib.GenKill
import Noeta.Ir.Syntax

/-!
# Liveness of source variables

`liveness.rs`: a backward analysis by name. A use makes a variable live, a binding kills it, structured control
flow joins its arms, and a loop iterates to a fixpoint. `break` and `continue` are analysed like statements that
fall through; where they jump to is not looked at.
-/

namespace Noeta.Ir

open Dataflow

/-! ### Annotations -/

mutual

/-- The live sets at a block's ends and one annotation for each statement. -/
inductive BlockLiveness where
  | mk (liveIn liveOut : VarSet) (stmts : List StmtLiveness)

/-- The variables last used by a statement's own operands, and the annotations of its nested blocks. -/
inductive StmtLiveness where
  | mk (diesHere : VarSet) (sub : List BlockLiveness)

end

namespace BlockLiveness

def liveIn : BlockLiveness → VarSet
  | .mk liveIn _ _ => liveIn

def liveOut : BlockLiveness → VarSet
  | .mk _ liveOut _ => liveOut

def stmts : BlockLiveness → List StmtLiveness
  | .mk _ _ stmts => stmts

end BlockLiveness

namespace StmtLiveness

def diesHere : StmtLiveness → VarSet
  | .mk diesHere _ => diesHere

def sub : StmtLiveness → List BlockLiveness
  | .mk _ sub => sub

/-- A statement without operands or nested blocks. -/
def leaf : StmtLiveness := .mk ∅ []

end StmtLiveness

instance : Inhabited BlockLiveness := ⟨.mk ∅ ∅ []⟩

/-! ### Uses and bound names -/

/-- `atom_uses`. -/
def Atom.uses : Atom → VarSet
  | .var name => {name}
  | _ => ∅

def atomUses? : Option Atom → VarSet
  | none => ∅
  | some atom => atom.uses

def atomsUses : List Atom → VarSet
  | [] => ∅
  | atom :: atoms => atom.uses ∪ atomsUses atoms

mutual

/-- `pattern_names`. -/
def Pattern.names : Pattern → VarSet
  | .wildcard => ∅
  | .test => ∅
  | .binding name => {name}
  | .variant bindings => patternsNames bindings
  | .tuple elements => patternsNames elements

def patternsNames : List Pattern → VarSet
  | [] => ∅
  | pattern :: patterns => pattern.names ∪ patternsNames patterns

end

/-- `for_pattern_names`. -/
def ForPattern.names : ForPattern → VarSet
  | .single name => {name}
  | .tuple names => names.toFinset

mutual

/-- `rvalue_uses`: a closure uses every variable named in it. -/
def Rvalue.uses : Rvalue → VarSet
  | .op operands => atomsUses operands
  | .tryProp operand _ => operand.uses
  | .closure func => func.referencedVars

/-- `collect_stmt_vars`. -/
def Stmt.vars : Stmt → VarSet
  | .letTemp _ rvalue => rvalue.uses
  | .eval rvalue => rvalue.uses
  | .bind name _ value => {name} ∪ value.uses
  | .echo value => value.uses
  | .ret value => atomUses? value
  | .ite cond thenBlock none => cond.uses ∪ thenBlock.vars
  | .ite cond thenBlock (some elseBlock) => cond.uses ∪ thenBlock.vars ∪ elseBlock.vars
  | .whileDo cond body => cond.vars ∪ body.vars
  | .forIn pattern iterable orderSlots body => pattern.names ∪ iterable.uses ∪ atomsUses orderSlots ∪ body.vars
  | .matchOn scrutinee arms => scrutinee.uses ∪ armsVars arms
  | .logical left right => left.uses ∪ right.vars
  | .coalesce value fallback => value.uses ∪ fallback.vars
  | .declFn name func => {name} ∪ func.referencedVars
  | _ => ∅

def stmtsVars : List Stmt → VarSet
  | [] => ∅
  | stmt :: stmts => stmt.vars ∪ stmtsVars stmts

/-- `referenced_vars_in_block`. -/
def Block.vars : Block → VarSet
  | .mk stmts tail => stmtsVars stmts ∪ atomUses? tail

def armsVars : List Arm → VarSet
  | [] => ∅
  | arm :: arms => arm.vars ∪ armsVars arms

def Arm.vars : Arm → VarSet
  | .mk pattern none body => pattern.names ∪ body.vars
  | .mk pattern (some guard) body => pattern.names ∪ guard.vars ∪ body.vars

/-- `func_referenced_vars`: every variable named in the body and in the parameter defaults. -/
def Func.referencedVars : Func → VarSet
  | .mk _ defaults body _ => body.vars ∪ thunksVars defaults

def thunksVars : List Block → VarSet
  | [] => ∅
  | thunk :: thunks => thunk.vars ∪ thunksVars thunks

end

/-! ### The analysis -/

/-- The rounds of a loop's fixpoint iteration: the second one already finds it stable (`whileTop_stable`). -/
def loopRounds : Nat := 2

/-- The set live at the top of a `while`, from the transfer functions of its condition and its body. -/
def whileTop (cond body : VarSet → VarSet) (liveOut : VarSet) : VarSet :=
  untilStable (fun top => cond (body top ∪ liveOut)) loopRounds liveOut

/-- The set live at the top of a `for`, whose pattern binds `bound` in each round. -/
def forTop (bound : VarSet) (body : VarSet → VarSet) (liveOut : VarSet) : VarSet :=
  untilStable (fun top => body top \ bound ∪ liveOut) loopRounds liveOut

mutual

def analyzeBlock : Block → VarSet → BlockLiveness
  | .mk stmts tail, liveOut =>
    let (live, annotations) := analyzeStmts stmts (liveOut ∪ atomUses? tail)
    .mk live liveOut annotations

/-- The reverse walk over a block's statements: the live set before them and their annotations. -/
def analyzeStmts : List Stmt → VarSet → VarSet × List StmtLiveness
  | [], live => (live, [])
  | stmt :: stmts, live =>
    let (live, annotations) := analyzeStmts stmts live
    let (live, annotation) := analyzeStmt stmt live
    (live, annotation :: annotations)

def analyzeStmt : Stmt → VarSet → VarSet × StmtLiveness
  | .letTemp _ rvalue, live => (live ∪ rvalue.uses, .mk (rvalue.uses \ live) (closureSubs rvalue))
  | .eval rvalue, live => (live ∪ rvalue.uses, .mk (rvalue.uses \ live) (closureSubs rvalue))
  | .bind name _ value, live => (live.erase name ∪ value.uses, .mk (value.uses \ live) [])
  | .echo value, live => (live ∪ value.uses, .mk (value.uses \ live) [])
  | .ret value, live => (atomUses? value, .mk (atomUses? value \ live) [])
  | .ite cond thenBlock none, live =>
    let thenL := analyzeBlock thenBlock live
    let joined := thenL.liveIn ∪ live
    (joined ∪ cond.uses, .mk (cond.uses \ joined) [thenL])
  | .ite cond thenBlock (some elseBlock), live =>
    let thenL := analyzeBlock thenBlock live
    let elseL := analyzeBlock elseBlock live
    let joined := thenL.liveIn ∪ elseL.liveIn
    (joined ∪ cond.uses, .mk (cond.uses \ joined) [thenL, elseL])
  | .whileDo cond body, liveOut =>
    let top := whileTop (fun s => (analyzeBlock cond s).liveIn) (fun s => (analyzeBlock body s).liveIn) liveOut
    let bodyL := analyzeBlock body top
    let condL := analyzeBlock cond (bodyL.liveIn ∪ liveOut)
    (condL.liveIn, .mk ∅ [condL, bodyL])
  | .forIn pattern iterable orderSlots body, liveOut =>
    let top := forTop pattern.names (fun s => (analyzeBlock body s).liveIn) liveOut
    let iterUses := iterable.uses ∪ atomsUses orderSlots
    (top ∪ iterUses, .mk (iterUses \ top) [analyzeBlock body top])
  | .matchOn scrutinee arms, liveOut =>
    let (joined, sub) := analyzeArms arms liveOut
    (joined ∪ scrutinee.uses, .mk (scrutinee.uses \ joined) sub)
  | .logical left right, live =>
    let rightL := analyzeBlock right live
    let entry := rightL.liveIn ∪ live
    (entry ∪ left.uses, .mk (left.uses \ entry) [rightL])
  | .coalesce value fallback, live =>
    let fallbackL := analyzeBlock fallback live
    let entry := fallbackL.liveIn ∪ live
    (entry ∪ value.uses, .mk (value.uses \ entry) [fallbackL])
  | .declFn name func, live =>
    (live.erase name ∪ func.referencedVars, .mk (func.referencedVars \ live) [analyzeFunc func])
  | _, live => (live, .leaf)

/-- The arms of a `match`, from the last to the first: the join of their entry sets and the annotations of their
guards and bodies. The fall-through of a false guard is the join of the later arms with `liveOut`. -/
def analyzeArms : List Arm → VarSet → VarSet × List BlockLiveness
  | [], _ => (∅, [])
  | arm :: arms, liveOut =>
    let (joined, sub) := analyzeArms arms liveOut
    let (entry, annotations) := analyzeArm arm liveOut (joined ∪ liveOut)
    (joined ∪ entry, annotations ++ sub)

def analyzeArm : Arm → VarSet → VarSet → VarSet × List BlockLiveness
  | .mk pattern none body, liveOut, _ =>
    let bodyL := analyzeBlock body liveOut
    (bodyL.liveIn \ pattern.names, [bodyL])
  | .mk pattern (some guard) body, liveOut, fallthrough =>
    let bodyL := analyzeBlock body liveOut
    let guardL := analyzeBlock guard (bodyL.liveIn ∪ fallthrough)
    (guardL.liveIn \ pattern.names, [guardL, bodyL])

def closureSubs : Rvalue → List BlockLiveness
  | .closure func => [analyzeFunc func]
  | _ => []

/-- `analyze_func`: nothing is live after a function's body. -/
def analyzeFunc : Func → BlockLiveness
  | .mk _ _ body _ => analyzeBlock body ∅

end

def analyze (p : Program) : BlockLiveness := analyzeBlock p.top ∅

end Noeta.Ir
