import Noeta.Check.Syntax

/-!
# Fresh constructors

The pre-pass of `noeta-check/src/constructors.rs`: the associated functions of generic types whose
every `return` hands back a bare literal of the type. What the pass is for is a fact about runs, so
here is how a body runs, as `noeta-ir/src/lower.rs` lowers it and `noeta-eval/src/ir.rs` executes
it: which statements and operands come in which order, and what leaves them. Values other than
references to objects are not told apart, and what the code of other frames does is arbitrary, up to
allocating objects of its own.
-/

namespace Noeta.Check

/-! ### The pre-pass -/

def isFreshLiteral (typeName : String) : Expr → Bool
  | .object name _ spread => spread.isNone && (name.isNone || name == some typeName)
  | _ => false

mutual

/-- `all_returns_fresh`: the number of `return`s if every one is of a bare literal of the type, and
`none` otherwise. -/
def allReturnsFresh (typeName : String) : List Stmt → Nat → Option Nat
  | [], returns => some returns
  | stmt :: stmts, returns =>
    (stmtReturnsFresh typeName stmt returns).bind fun returns =>
      allReturnsFresh typeName stmts returns

/-- One round of its loop. -/
def stmtReturnsFresh (typeName : String) : Stmt → Nat → Option Nat
  | .ret (some v), returns => if isFreshLiteral typeName v then some (returns + 1) else none
  | .ret none, _ => none
  | .yieldOf _, _ => none
  | .ite _ thenBody elseBody, returns =>
    (allReturnsFresh typeName thenBody returns).bind fun returns =>
      allReturnsFresh typeName elseBody returns
  | .forIn _ body, returns => allReturnsFresh typeName body returns
  | .whileDo _ body, returns => allReturnsFresh typeName body returns
  | .concurrent body, returns => allReturnsFresh typeName body returns
  | .tierBlock items, returns => allReturnsFresh typeName items returns
  | .echo _, returns => some returns
  | .binding _ _ _, returns => some returns
  | .destructure _, returns => some returns
  | .expr _, returns => some returns
  | .fn _, returns => some returns
  | .decl, returns => some returns
  | .brk, returns => some returns
  | .cont, returns => some returns

end

def isFreshConstructor (typeName : String) (method : FnDecl) : Bool :=
  !method.isAsync &&
    match allReturnsFresh typeName method.body 0 with
    | some returns => decide (0 < returns)
    | none => false

def computeFreshConstructors (program : Program) : List (String × String) :=
  program.flatMap fun
    | .fn _ => []
    | .type d =>
      if d.kind = .enumKind ∨ d.typeParams = [] then []
      else (d.methods.filter fun m => isFreshConstructor d.name m.1).map fun m => (d.name, m.1.name)

/-! ### Runs -/

/-- A value: a reference to an object, or anything else. -/
inductive Val where
  | object (id : Nat)
  | other
deriving DecidableEq, Repr

/-- An allocated object: the frame whose code allocated it, and its type. -/
structure Alloc where
  frame : Nat
  type : String
deriving DecidableEq, Repr

/-- The objects in the order of their allocation; a reference is a position. -/
abbrev Heap := List Alloc

/-- A value that is there. -/
def Val.Known (heap : Heap) : Val → Prop
  | .object id => id < heap.length
  | .other => True

/-- What other frames do to the heap. -/
def Grows (frame : Nat) (before after : Heap) : Prop :=
  ∃ news : Heap, after = before ++ news ∧ ∀ a ∈ news, a.frame ≠ frame

/-- How a frame is left with a value: through a `return` statement, with its operand and whether the
statement stands in the arm of a `match`, or through a `?`. -/
inductive Exit where
  | ret (operand : Option Expr) (inArm : Bool)
  | propagated

/-- How an expression, a statement or a list of statements ends. An expression may end with more
than a value: the block of an arm runs in the frame of the function. -/
inductive Flow where
  | value (v : Val)
  | normal
  | brk
  | cont
  | returned (exit : Exit) (v : Val)

def Flow.Abrupt : Flow → Prop
  | .value _ => False
  | .normal => False
  | _ => True

/-- The flow, once it has left an arm. -/
def Flow.outOfArm : Flow → Flow
  | .returned (.ret operand _) v => .returned (.ret operand true) v
  | flow => flow

/-- The operands of an expression that are evaluated before anything else, in order. The holes of a
tier expression are wrapped in closures. -/
def Expr.operands : Expr → List Expr
  | .leaf => []
  | .ident _ => []
  | .node _ operands => operands
  | .tryOf operand => [operand]
  | .call callee args => callee :: args
  | .member receiver _ => [receiver]
  | .closure _ _ => []
  | .matchOn scrutinee _ => [scrutinee]
  | .object _ fields spread => spread.toList ++ fields.map fun | .mk _ value => value
  | .narrow _ e _ => [e]
  | .reflect _ _ operands => operands
  | .typedModuleCall _ _ _ args => args
  | .typedCall _ _ args => args
  | .typedMethodCall recv _ _ args => recv :: args
  | .instantiatedType recv _ => [recv]
  | .tierExpr _ => []

/-- The forms whose value may be anything, once their operands have theirs. -/
def Expr.Plain : Expr → Prop
  | .matchOn _ _ => False
  | .object _ _ none => False
  | _ => True

/-- The expression a statement evaluates for its effect or its value alone. -/
def Stmt.effect? : Stmt → Option Expr
  | .echo value => some value
  | .binding _ _ value => some value
  | .destructure value => some value
  | .yieldOf value => some value
  | .expr e => some e
  | _ => none

/-- The type an object literal builds: the one it names, and otherwise the expected one. -/
def LiteralType (expected typeName : Option String) (type : String) : Prop :=
  match typeName with
  | some name => type = name
  | none => ∀ name, expected = some name → type = name

mutual

/-- An expression. `frame` is the frame that runs, `ret` the name of its declared return type, and
`expected` the name of the type expected of the expression, where one is known. -/
inductive Eval (frame : Nat) (ret : Option String) :
    Option String → Expr → Heap → Flow → Heap → Prop where
  | abrupt {expected e h f h'} : EvalAll frame ret e.operands h f h' → f.Abrupt →
      Eval frame ret expected e h f h'
  | plain {expected e h h' h'' v} : e.Plain → EvalAll frame ret e.operands h .normal h' →
      Grows frame h' h'' → v.Known h'' → Eval frame ret expected e h (.value v) h''
  /-- `&&`, `||` and `??` may stop at their first operand. -/
  | short {expected kind e es h h' w v} : kind = .logical ∨ kind = .coalesce →
      Eval frame ret none e h (.value w) h' → v.Known h' →
      Eval frame ret expected (.node kind (e :: es)) h (.value v) h'
  | propagate {expected e h h' v} : Eval frame ret none e h (.value v) h' →
      Eval frame ret expected (.tryOf e) h (.returned .propagated v) h'
  | literal {expected typeName fields h h' type} :
      EvalAll frame ret (Expr.object typeName fields none).operands h .normal h' →
      LiteralType expected typeName type →
      Eval frame ret expected (.object typeName fields none) h (.value (.object h'.length))
        (h' ++ [⟨frame, type⟩])
  /-- A spread may build a new object. -/
  | copy {expected typeName fields e h h' type} :
      EvalAll frame ret (Expr.object typeName fields (some e)).operands h .normal h' →
      LiteralType expected typeName type →
      Eval frame ret expected (.object typeName fields (some e)) h (.value (.object h'.length))
        (h' ++ [⟨frame, type⟩])
  | matchOn {expected scrutinee arms h h' f h''} :
      EvalAll frame ret (Expr.matchOn scrutinee arms).operands h .normal h' →
      Arms frame ret arms h' f h'' → Eval frame ret expected (.matchOn scrutinee arms) h f h''

/-- Operands in order: `normal` when each has a value. -/
inductive EvalAll (frame : Nat) (ret : Option String) :
    List Expr → Heap → Flow → Heap → Prop where
  | nil {h} : EvalAll frame ret [] h .normal h
  | cons {e es h h' f h'' v} : Eval frame ret none e h (.value v) h' →
      EvalAll frame ret es h' f h'' → EvalAll frame ret (e :: es) h f h''
  | abrupt {e es h f h'} : Eval frame ret none e h f h' → f.Abrupt →
      EvalAll frame ret (e :: es) h f h'

/-- `exec_ir_match`, from an arm on. -/
inductive Arms (frame : Nat) (ret : Option String) :
    List Arm → Heap → Flow → Heap → Prop where
  | skip {arm arms h f h'} : Arms frame ret arms h f h' → Arms frame ret (arm :: arms) h f h'
  | refused {guard body arms h h' f h'' v} : Eval frame ret none guard h (.value v) h' →
      Arms frame ret arms h' f h'' → Arms frame ret (.mk (some guard) body :: arms) h f h''
  | guardAbrupt {guard body arms h f h'} : Eval frame ret none guard h f h' → f.Abrupt →
      Arms frame ret (.mk (some guard) body :: arms) h f.outOfArm h'
  | taken {body arms h f h'} : RunBody frame ret body h f h' →
      Arms frame ret (.mk none body :: arms) h f.outOfArm h'
  | guarded {guard body arms h h' f h'' v} : Eval frame ret none guard h (.value v) h' →
      RunBody frame ret body h' f h'' →
      Arms frame ret (.mk (some guard) body :: arms) h f.outOfArm h''

/-- The body of an arm; a block has the value `unit`. -/
inductive RunBody (frame : Nat) (ret : Option String) :
    Body → Heap → Flow → Heap → Prop where
  | expr {e h f h'} : Eval frame ret none e h f h' → RunBody frame ret (.expr e) h f h'
  | done {stmts h h'} : Exec frame ret stmts h .normal h' →
      RunBody frame ret (.block stmts) h (.value .other) h'
  | abrupt {stmts h f h'} : Exec frame ret stmts h f h' → f.Abrupt →
      RunBody frame ret (.block stmts) h f h'

/-- `exec_ir_stmts`. -/
inductive Exec (frame : Nat) (ret : Option String) :
    List Stmt → Heap → Flow → Heap → Prop where
  | nil {h} : Exec frame ret [] h .normal h
  | cons {stmt stmts h h' f h''} : Step frame ret stmt h .normal h' →
      Exec frame ret stmts h' f h'' → Exec frame ret (stmt :: stmts) h f h''
  | abrupt {stmt stmts h f h'} : Step frame ret stmt h f h' → f.Abrupt →
      Exec frame ret (stmt :: stmts) h f h'

/-- `exec_ir_stmt`, on what `lower_stmt` makes of the statement. -/
inductive Step (frame : Nat) (ret : Option String) :
    Stmt → Heap → Flow → Heap → Prop where
  | effect {stmt e h h' v} : stmt.effect? = some e → Eval frame ret none e h (.value v) h' →
      Step frame ret stmt h .normal h'
  | effectAbrupt {stmt e h f h'} : stmt.effect? = some e → Eval frame ret none e h f h' →
      f.Abrupt → Step frame ret stmt h f h'
  | retUnit {h} : Step frame ret (.ret none) h (.returned (.ret none false) .other) h
  | ret {e h h' v} : Eval frame ret ret e h (.value v) h' →
      Step frame ret (.ret (some e)) h (.returned (.ret (some e) false) v) h'
  | retAbrupt {e h f h'} : Eval frame ret ret e h f h' → f.Abrupt →
      Step frame ret (.ret (some e)) h f h'
  | condAbrupt {cond thenBody elseBody h f h'} : Eval frame ret none cond h f h' → f.Abrupt →
      Step frame ret (.ite cond thenBody elseBody) h f h'
  | iteThen {cond thenBody elseBody h h' f h'' v} : Eval frame ret none cond h (.value v) h' →
      Exec frame ret thenBody h' f h'' → Step frame ret (.ite cond thenBody elseBody) h f h''
  | iteElse {cond thenBody elseBody h h' f h'' v} : Eval frame ret none cond h (.value v) h' →
      Exec frame ret elseBody h' f h'' → Step frame ret (.ite cond thenBody elseBody) h f h''
  | iterAbrupt {iterable body h f h'} : Eval frame ret none iterable h f h' → f.Abrupt →
      Step frame ret (.forIn iterable body) h f h'
  | forIn {iterable body h h' f h'' v} : Eval frame ret none iterable h (.value v) h' →
      Loop frame ret none body h' f h'' → Step frame ret (.forIn iterable body) h f h''
  | whileDo {cond body h f h'} : Loop frame ret (some cond) body h f h' →
      Step frame ret (.whileDo cond body) h f h'
  /-- The tasks of the scope run until it is closed. -/
  | concurrent {body h f h' h''} : Exec frame ret body h f h' → Grows frame h' h'' →
      Step frame ret (.concurrent body) h f h''
  /-- A tier block that is still there is inactive. -/
  | tierBlock {items h} : Step frame ret (.tierBlock items) h .normal h
  | fn {d h} : Step frame ret (.fn d) h .normal h
  | decl {h} : Step frame ret .decl h .normal h
  | brk {h} : Step frame ret .brk h .brk h
  | cont {h} : Step frame ret .cont h .cont h

/-- `exec_ir_while`, and `exec_ir_for` if there is no condition. -/
inductive Loop (frame : Nat) (ret : Option String) :
    Option Expr → List Stmt → Heap → Flow → Heap → Prop where
  | stop {cond body h h'} : Head frame ret cond h h' → Loop frame ret cond body h .normal h'
  | condAbrupt {cond body h f h'} : Eval frame ret none cond h f h' → f.Abrupt →
      Loop frame ret (some cond) body h f h'
  | brk {cond body h h' h''} : Head frame ret cond h h' → Exec frame ret body h' .brk h'' →
      Loop frame ret cond body h .normal h''
  | returned {cond body h h' exit v h''} : Head frame ret cond h h' →
      Exec frame ret body h' (.returned exit v) h'' →
      Loop frame ret cond body h (.returned exit v) h''
  | again {cond body h h' f h'' g h'''} : Head frame ret cond h h' → Exec frame ret body h' f h'' →
      f = .normal ∨ f = .cont → Loop frame ret cond body h'' g h''' →
      Loop frame ret cond body h g h'''

/-- The head of a loop: the condition, or the step of the iterator. -/
inductive Head (frame : Nat) (ret : Option String) : Option Expr → Heap → Heap → Prop where
  | cond {cond h h' v} : Eval frame ret none cond h (.value v) h' →
      Head frame ret (some cond) h h'
  | iter {h h'} : Grows frame h h' → Head frame ret none h h'

end

/-- The name of the declared return type, where it has one. -/
def FnDecl.retName (method : FnDecl) : Option String :=
  match method.ret with
  | some (.named name _) => some name
  | _ => none

/-- A call of the function that ends with a value. -/
def Returns (method : FnDecl) (frame : Nat) (before : Heap) (exit : Exit) (v : Val)
    (after : Heap) : Prop :=
  Exec frame method.retName method.body before (.returned exit v) after

/-- An object of the type that the frame itself allocated, since it was entered. -/
def Own (typeName : String) (frame : Nat) (before : Heap) (v : Val) (after : Heap) : Prop :=
  ∃ id, v = .object id ∧ before.length ≤ id ∧ after[id]? = some ⟨frame, typeName⟩

end Noeta.Check
