import Noeta.Ir.LivenessPaths

/-!
# Drop insertion

`drops.rs`: where a function's variables are dropped. A variable bound once is dropped after the straight-line statement that uses it last, an owned one where its block ends or is left early. Each drop carries whether a destructor may run, looked up in what the checker recorded.
-/

namespace Noeta.Ir

/-- `Relevance`: what may run a destructor when it is dropped. -/
structure Relevance where
  locals : List Span
  params : List (Span × Name)

/-- `DropSet`: looked up by name only. -/
abbrev DropSet := Name → Option Bool

structure Cx where
  globals : VarSet
  relevance : Option Relevance
  /-- The names local to the functions around this one. -/
  enclosing : VarSet

structure ScopeFrame where
  /-- In the order of construction. -/
  constructed : List (Name × Bool)
  dropped : VarSet
  liveOut : VarSet
  isLoopBody : Bool

inductive ExitKind where
  | frame
  | loop
deriving DecidableEq, Repr

/-! ### The statements of a body -/

mutual

/-- The statement and those of its child blocks (`for_each_child_block`), not those of the functions nested in it. -/
def Stmt.statements : Stmt → List Stmt
  | .ite cond thenBlock none => .ite cond thenBlock none :: thenBlock.statements
  | .ite cond thenBlock (some elseBlock) =>
    .ite cond thenBlock (some elseBlock) :: thenBlock.statements ++ elseBlock.statements
  | .whileDo cond body => .whileDo cond body :: cond.statements ++ body.statements
  | .forIn pattern iterable orderSlots body => .forIn pattern iterable orderSlots body :: body.statements
  | .matchOn scrutinee arms => .matchOn scrutinee arms :: armsStatements arms
  | .logical left right => .logical left right :: right.statements
  | .coalesce value fallback => .coalesce value fallback :: fallback.statements
  | other => [other]

def stmtsStatements : List Stmt → List Stmt
  | [] => []
  | stmt :: stmts => stmt.statements ++ stmtsStatements stmts

def Block.statements : Block → List Stmt
  | .mk stmts _ => stmtsStatements stmts

def armsStatements : List Arm → List Stmt
  | [] => []
  | arm :: arms => arm.statements ++ armsStatements arms

def Arm.statements : Arm → List Stmt
  | .mk _ none body => body.statements
  | .mk _ (some guard) body => guard.statements ++ body.statements

end

/-- The names counted at a statement by `count_binds_stmt`. -/
def Stmt.boundName : Stmt → Option Name
  | .bind name _ _ => some name
  | .declFn name _ => some name
  | _ => none

/-- The names excluded at a statement by `count_binds_stmt`. -/
def Stmt.patternNames : Stmt → VarSet
  | .forIn pattern _ _ _ => pattern.names
  | .matchOn _ arms => arms.foldr (fun | .mk pattern _ _, names => pattern.names ∪ names) ∅
  | _ => ∅

/-- The names collected at a statement by `collect_captured`. -/
def Stmt.captured : Stmt → VarSet
  | .letTemp _ (.closure func) => func.referencedVars
  | .eval (.closure func) => func.referencedVars
  | .declFn _ func => func.referencedVars
  | _ => ∅

def Stmt.bindSpan : Stmt → Option (Name × Span)
  | .bind name span _ => some (name, span)
  | _ => none

/-- The counts of `count_binds_block`: a name stands once for each of its sites. -/
def Block.bindCounts (block : Block) : List Name := block.statements.filterMap Stmt.boundName

/-- The exclusions of `count_binds_block`. -/
def Block.patternNames (block : Block) : VarSet :=
  block.statements.foldr (fun stmt names => stmt.patternNames ∪ names) ∅

/-- `collect_captured`. -/
def Block.captured (block : Block) : VarSet :=
  block.statements.foldr (fun stmt names => stmt.captured ∪ names) ∅

/-- `collect_bind_spans`: the last span of a name stays. -/
def Block.bindSpan (block : Block) (name : Name) : Option Span :=
  (((block.statements.filterMap Stmt.bindSpan).filter fun e => e.1 == name).getLast?).map Prod.snd

/-! ### The sets of a function -/

/-- What neither set may hold: pattern bindings, captured names, and names of the functions around. -/
def excludedNames (func : Func) (enclosing : VarSet) : VarSet :=
  func.body.patternNames ∪ func.body.captured ∪ enclosing

/-- The parameters both sets hold. -/
def ownedParams (func : Func) (globals enclosing : VarSet) : VarSet :=
  func.params.toFinset.filter fun p =>
    p ∉ func.body.bindCounts ∧ p ∉ excludedNames func enclosing ∧ p ∉ globals

def singleAssignmentLocals (func : Func) (globals enclosing : VarSet) : VarSet :=
  ownedParams func globals enclosing ∪
    func.body.bindCounts.toFinset.filter fun name => func.body.bindCounts.count name = 1 ∧
      name ∉ excludedNames func enclosing ∧ name ∉ globals ∧ name ∉ func.params

def ownedLocals (func : Func) (globals enclosing : VarSet) : VarSet :=
  ownedParams func globals enclosing ∪
    func.body.bindCounts.toFinset.filter fun name =>
      name ∉ excludedNames func enclosing ∧ name ∉ globals ∧ name ∉ func.params

def functionLocals (func : Func) : VarSet :=
  func.body.patternNames ∪ func.body.bindCounts.toFinset ∪ func.params.toFinset

/-- The bit of a name: a parameter's by the function's span and its name, a local's by the span it is bound at. -/
def relevantBit (func : Func) (cx : Cx) (name : Name) : Bool :=
  match cx.relevance with
  | none => true
  | some r =>
    if name ∈ func.params then r.params.contains (func.span, name)
    else
      match func.body.bindSpan name with
      | some span => r.locals.contains span
      | none => true

def relevanceMap (func : Func) (cx : Cx) (names : VarSet) : DropSet := fun name =>
  if name ∈ names then some (relevantBit func cx name) else none

def dropSet (func : Func) (cx : Cx) : DropSet :=
  relevanceMap func cx (singleAssignmentLocals func cx.globals cx.enclosing)

def ownedSet (func : Func) (cx : Cx) : DropSet :=
  relevanceMap func cx (ownedLocals func cx.globals cx.enclosing)

/-! ### Where drops are placed -/

/-- The loop over one frame in `collect_exit_drops`, the innermost construction first; `seen` are the names dropped so far. -/
def frameDrops (frame : ScopeFrame) (movedOut : VarSet) : List (Name × Bool) → VarSet → List (Name × Bool) × VarSet
  | [], seen => ([], seen)
  | (name, relevant) :: rest, seen =>
    if name ∈ movedOut ∨ name ∈ frame.dropped ∨ name ∈ frame.liveOut ∨ name ∈ seen then
      frameDrops frame movedOut rest seen
    else
      let (drops, seen) := frameDrops frame movedOut rest (insert name seen)
      ((name, relevant) :: drops, seen)

/-- The loop over the frames, the innermost first. -/
def framesDrops (kind : ExitKind) (movedOut : VarSet) : List ScopeFrame → VarSet → List (Name × Bool)
  | [], _ => []
  | frame :: scopes, seen =>
    let (drops, seen) := frameDrops frame movedOut frame.constructed.reverse seen
    if kind = .loop ∧ frame.isLoopBody then drops else drops ++ framesDrops kind movedOut scopes seen

def collectExitDrops (scopes : List ScopeFrame) (kind : ExitKind) (movedOut : VarSet) : List (Name × Bool) :=
  framesDrops kind movedOut scopes ∅

def dropStmts (drops : List (Name × Bool)) : List Stmt := drops.map fun d => .dropVar d.1 d.2

/-- The drops placed before a statement: those of an early exit. -/
def exitDrops (scopes : List ScopeFrame) : Stmt → List Stmt
  | .ret value => dropStmts (collectExitDrops scopes .frame (atomUses? value))
  | .brk => dropStmts (collectExitDrops scopes .loop ∅)
  | .cont => dropStmts (collectExitDrops scopes .loop ∅)
  | _ => []

def Stmt.isStraightLine : Stmt → Bool
  | .letTemp _ _ => true
  | .eval _ => true
  | .bind _ _ _ => true
  | .echo _ => true
  | _ => false

def lifoDeaths (diesHere : VarSet) (droppable : DropSet) : List Name :=
  ((diesHere.filter fun name => (droppable name).isSome).sort (· ≤ ·)).reverse

/-- The drops placed after a statement: those of the names last used by it. -/
def lastUseDrops (droppable : DropSet) (stmt : Stmt) (sl : StmtLiveness) : List (Name × Bool) :=
  if stmt.isStraightLine then
    (lifoDeaths sl.diesHere droppable).filterMap fun name => (droppable name).map fun relevant => (name, relevant)
  else []

/-- An owned local is recorded in its frame where it is first bound. -/
def ScopeFrame.record (frame : ScopeFrame) (owned : DropSet) : Stmt → ScopeFrame
  | .bind name _ _ =>
    match owned name with
    | some relevant =>
      if name ∈ frame.constructed.map Prod.fst then frame
      else { frame with constructed := frame.constructed ++ [(name, relevant)] }
    | none => frame
  | _ => frame

def ScopeFrame.markDropped (frame : ScopeFrame) (drops : List (Name × Bool)) : ScopeFrame :=
  { frame with dropped := frame.dropped ∪ (drops.map Prod.fst).toFinset }

/-- `out.dedup_by(…)`: of adjacent drops of one name the first stays. `last` is the name of the statement before, if it is a drop. -/
def dedupDrops (last : Option Name) : List Stmt → List Stmt
  | [] => []
  | .dropVar name relevant :: stmts =>
    if last = some name then dedupDrops last stmts else .dropVar name relevant :: dedupDrops (some name) stmts
  | stmt :: stmts => stmt :: dedupDrops none stmts

def endsWithTerminator (stmts : List Stmt) : Bool :=
  match stmts.getLast? with
  | some (.ret _) => true
  | some .brk => true
  | some .cont => true
  | _ => false

/-- The drops placed where control falls off a block's end. -/
def scopeExitDrops (frame : ScopeFrame) (owned : DropSet) (stmts : List Stmt) (tail : Option Atom) :
    List (Name × Bool) :=
  if endsWithTerminator stmts then []
  else
    ((frame.constructed.map Prod.fst).reverse.filter fun name =>
      name ∉ frame.dropped ∧ name ∉ atomUses? tail ∧ name ∉ frame.liveOut).filterMap fun name =>
        (owned name).map fun relevant => (name, relevant)

/-! ### The rewrite -/

mutual

def rewriteBlock (cx : Cx) (droppable owned : DropSet) (scopes : List ScopeFrame) (isLoopBody : Bool) :
    Block → BlockLiveness → Block
  | .mk stmts tail, live =>
    let (out, frame) := rewriteStmts cx droppable owned scopes ⟨[], ∅, live.liveOut, isLoopBody⟩ stmts live.stmts
    .mk (dedupDrops none out ++ dropStmts (scopeExitDrops frame owned stmts tail)) tail

/-- The loop over a block's statements and their annotations, with the block's frame. -/
def rewriteStmts (cx : Cx) (droppable owned : DropSet) (scopes : List ScopeFrame) (frame : ScopeFrame) :
    List Stmt → List StmtLiveness → List Stmt × ScopeFrame
  | stmt :: stmts, sl :: sls =>
    let here := frame.record owned stmt
    let deaths := lastUseDrops droppable stmt sl
    let (out, last) := rewriteStmts cx droppable owned scopes (here.markDropped deaths) stmts sls
    (exitDrops (here :: scopes) stmt ++ rewriteStmt cx droppable owned (here :: scopes) stmt sl :: dropStmts deaths ++ out,
      last)
  | _, _ => ([], frame)

def rewriteStmt (cx : Cx) (droppable owned : DropSet) (scopes : List ScopeFrame) : Stmt → StmtLiveness → Stmt
  | .letTemp dst rvalue, _ => .letTemp dst (rewriteRvalue cx scopes rvalue)
  | .eval rvalue, _ => .eval (rewriteRvalue cx scopes rvalue)
  | .ite cond thenBlock none, sl =>
    .ite cond (rewriteBlock cx droppable owned scopes false thenBlock (sl.sub.getD 0 default)) none
  | .ite cond thenBlock (some elseBlock), sl =>
    .ite cond (rewriteBlock cx droppable owned scopes false thenBlock (sl.sub.getD 0 default))
      (some (rewriteBlock cx droppable owned scopes false elseBlock (sl.sub.getD 1 default)))
  | .whileDo cond body, sl =>
    .whileDo (rewriteBlock cx droppable owned scopes false cond (sl.sub.getD 0 default))
      (rewriteBlock cx droppable owned scopes true body (sl.sub.getD 1 default))
  | .forIn pattern iterable orderSlots body, sl =>
    .forIn pattern iterable orderSlots
      (rewriteBlock cx droppable owned scopes true body (sl.sub.getD 0 default))
  | .matchOn scrutinee arms, sl => .matchOn scrutinee (rewriteArms cx droppable owned scopes arms sl.sub)
  | .logical left right, sl =>
    .logical left (rewriteBlock cx droppable owned scopes false right (sl.sub.getD 0 default))
  | .coalesce value fallback, sl =>
    .coalesce value (rewriteBlock cx droppable owned scopes false fallback (sl.sub.getD 0 default))
  -- `rewrite_decl`; the thunks of field defaults are left as they are
  | .declFn name func, _ => .declFn name (rewriteFunc cx func)
  | .declClass methods none, _ => .declClass (rewriteFuncs cx methods) none
  | .declClass methods (some destructor), _ =>
    .declClass (rewriteFuncs cx methods) (some (rewriteFunc cx destructor))
  | .declStruct methods, _ => .declStruct (rewriteFuncs cx methods)
  | .declEnum methods, _ => .declEnum (rewriteFuncs cx methods)
  | other, _ => other

/-- The arms take their annotations one by one, a guard's before its body's. -/
def rewriteArms (cx : Cx) (droppable owned : DropSet) (scopes : List ScopeFrame) :
    List Arm → List BlockLiveness → List Arm
  | [], _ => []
  | .mk pattern none body :: arms, subs =>
    .mk pattern none (rewriteBlock cx droppable owned scopes false body (subs.getD 0 default)) ::
      rewriteArms cx droppable owned scopes arms (subs.drop 1)
  | .mk pattern (some guard) body :: arms, subs =>
    .mk pattern (some (rewriteBlock cx droppable owned scopes false guard (subs.getD 0 default)))
        (rewriteBlock cx droppable owned scopes false body (subs.getD 1 default)) ::
      rewriteArms cx droppable owned scopes arms (subs.drop 2)

def rewriteRvalue (cx : Cx) (scopes : List ScopeFrame) : Rvalue → Rvalue
  | .closure func => .closure (rewriteFunc cx func)
  | .tryProp operand _ => .tryProp operand (collectExitDrops scopes .frame operand.uses)
  | other => other

/-- `rewrite_func`. The sets are those of the function in the context around it; default thunks are left as they are. -/
def rewriteFunc (cx : Cx) : Func → Func
  | .mk params defaults body span =>
    let func := Func.mk params defaults body span
    .mk params defaults
      (rewriteBlock { cx with enclosing := cx.enclosing ∪ functionLocals func } (dropSet func cx) (ownedSet func cx) []
        false body (analyzeBlock body ∅))
      span

def rewriteFuncs (cx : Cx) : List Func → List Func
  | [] => []
  | func :: funcs => rewriteFunc cx func :: rewriteFuncs cx funcs

end

def topLevelNames (top : Block) : VarSet :=
  top.stmts.foldr (fun stmt names => (match stmt with
    | .bind name _ _ => {name}
    | .declFn name _ => {name}
    | .declUse used => used.toFinset
    | _ => ∅) ∪ names) ∅

/-- The context of the top level, around which there is no function. -/
def topCx (p : Program) (relevance : Option Relevance) : Cx := ⟨topLevelNames p.top, relevance, ∅⟩

/-- `insert_drops`: nothing is dropped at the top level itself. -/
def insertDrops (p : Program) (relevance : Option Relevance) : Program :=
  ⟨rewriteBlock (topCx p relevance) (fun _ => none) (fun _ => none) [] false p.top (analyze p)⟩

end Noeta.Ir
