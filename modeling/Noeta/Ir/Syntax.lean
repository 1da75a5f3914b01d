import Mathlib

/-!
# The Core IR

`noeta_ir`: the A-normal form the passes work on. Operands are atoms, statements are straight-line or structured
control flow over blocks, and functions (closures, nested `fn`s, methods, destructors) are nested in them. The
rvalues that differ only in what they compute are one constructor that keeps their operand atoms.
-/

namespace Noeta.Ir

abbrev Name := String

/-- `VarSet`: a set of source-variable names. -/
abbrev VarSet := Finset Name

structure Span where
  start : Nat
  stop : Nat
deriving DecidableEq, Repr

/-- An operand that needs no further computation. -/
inductive Atom where
  | const
  | temp (t : Nat)
  | var (name : Name)
deriving DecidableEq, Repr

/-- A `match` pattern; `test` stands for the patterns that bind nothing (literals and type tests). -/
inductive Pattern where
  | wildcard
  | test
  | binding (name : Name)
  | variant (bindings : List Pattern)
  | tuple (elements : List Pattern)

inductive ForPattern where
  | single (name : Name)
  | tuple (names : List Name)
deriving Repr

mutual

inductive Rvalue where
  /-- Any operation over operand atoms, in the order `for_each_rvalue_atom` visits them. -/
  | op (operands : List Atom)
  /-- `operand?`; on the error path the names of `onError` are dropped before the frame is left. -/
  | tryProp (operand : Atom) (onError : List (Name × Bool))
  | closure (func : Func)

inductive Stmt where
  | letTemp (dst : Nat) (rvalue : Rvalue)
  | eval (rvalue : Rvalue)
  | bind (name : Name) (nameSpan : Span) (value : Atom)
  | echo (value : Atom)
  | ret (value : Option Atom)
  | brk
  | cont
  | scopeBegin
  | scopeEnd
  | ite (cond : Atom) (thenBlock : Block) (elseBlock : Option Block)
  | whileDo (cond body : Block)
  | forIn (pattern : ForPattern) (iterable : Atom) (orderSlots : List Atom) (body : Block)
  | matchOn (scrutinee : Atom) (arms : List Arm)
  | logical (left : Atom) (right : Block)
  | coalesce (value : Atom) (fallback : Block)
  | declFn (name : Name) (func : Func)
  | declClass (methods : List Func) (destructor : Option Func)
  | declStruct (methods : List Func)
  | declEnum (methods : List Func)
  | declUse (names : List Name)
  | drop (t : Nat)
  | dropVar (name : Name) (relevant : Bool)

inductive Block where
  | mk (stmts : List Stmt) (tail : Option Atom)

inductive Arm where
  | mk (pattern : Pattern) (guard : Option Block) (body : Block)

/-- `defaults` are the bodies of the default thunks that are present. -/
inductive Func where
  | mk (params : List Name) (defaults : List Block) (body : Block) (span : Span)

end

def Block.stmts : Block → List Stmt
  | .mk stmts _ => stmts

def Block.tail : Block → Option Atom
  | .mk _ tail => tail

def Func.params : Func → List Name
  | .mk params _ _ _ => params

def Func.body : Func → Block
  | .mk _ _ body _ => body

def Func.span : Func → Span
  | .mk _ _ _ span => span

@[simp] theorem Block.stmts_mk (stmts : List Stmt) (tail : Option Atom) : (Block.mk stmts tail).stmts = stmts := rfl

@[simp] theorem Block.tail_mk (stmts : List Stmt) (tail : Option Atom) : (Block.mk stmts tail).tail = tail := rfl

structure Program where
  top : Block

/-! ### The functions of a program -/

mutual

def Rvalue.funcs : Rvalue → List Func
  | .closure func => func.funcs
  | _ => []

def Stmt.funcs : Stmt → List Func
  | .letTemp _ rvalue => rvalue.funcs
  | .eval rvalue => rvalue.funcs
  | .ite _ thenBlock none => thenBlock.funcs
  | .ite _ thenBlock (some elseBlock) => thenBlock.funcs ++ elseBlock.funcs
  | .whileDo cond body => cond.funcs ++ body.funcs
  | .forIn _ _ _ body => body.funcs
  | .matchOn _ arms => armsFuncs arms
  | .logical _ right => right.funcs
  | .coalesce _ fallback => fallback.funcs
  | .declFn _ func => func.funcs
  | .declClass methods none => methodsFuncs methods
  | .declClass methods (some destructor) => methodsFuncs methods ++ destructor.funcs
  | .declStruct methods => methodsFuncs methods
  | .declEnum methods => methodsFuncs methods
  | _ => []

def stmtsFuncs : List Stmt → List Func
  | [] => []
  | stmt :: stmts => stmt.funcs ++ stmtsFuncs stmts

def Block.funcs : Block → List Func
  | .mk stmts _ => stmtsFuncs stmts

def armsFuncs : List Arm → List Func
  | [] => []
  | arm :: arms => arm.funcs ++ armsFuncs arms

def Arm.funcs : Arm → List Func
  | .mk _ none body => body.funcs
  | .mk _ (some guard) body => guard.funcs ++ body.funcs

/-- The function itself and the functions of its body and of its default thunks. -/
def Func.funcs : Func → List Func
  | .mk params defaults body span => .mk params defaults body span :: body.funcs ++ thunksFuncs defaults

def thunksFuncs : List Block → List Func
  | [] => []
  | thunk :: thunks => thunk.funcs ++ thunksFuncs thunks

def methodsFuncs : List Func → List Func
  | [] => []
  | method :: methods => method.funcs ++ methodsFuncs methods

end

/-- Every function, method, destructor and closure of the program. -/
def Program.funcs (p : Program) : List Func := p.top.funcs

/-! ### Programs without drops -/

mutual

def Rvalue.Undropped : Rvalue → Prop
  | .op _ => True
  | .tryProp _ onError => onError = []
  | .closure func => func.Undropped

def Stmt.Undropped : Stmt → Prop
  | .letTemp _ rvalue => rvalue.Undropped
  | .eval rvalue => rvalue.Undropped
  | .ite _ thenBlock none => thenBlock.Undropped
  | .ite _ thenBlock (some elseBlock) => thenBlock.Undropped ∧ elseBlock.Undropped
  | .whileDo cond body => cond.Undropped ∧ body.Undropped
  | .forIn _ _ _ body => body.Undropped
  | .matchOn _ arms => armsUndropped arms
  | .logical _ right => right.Undropped
  | .coalesce _ fallback => fallback.Undropped
  | .declFn _ func => func.Undropped
  | .declClass methods none => methodsUndropped methods
  | .declClass methods (some destructor) => methodsUndropped methods ∧ destructor.Undropped
  | .declStruct methods => methodsUndropped methods
  | .declEnum methods => methodsUndropped methods
  | .dropVar _ _ => False
  | _ => True

def stmtsUndropped : List Stmt → Prop
  | [] => True
  | stmt :: stmts => stmt.Undropped ∧ stmtsUndropped stmts

def Block.Undropped : Block → Prop
  | .mk stmts _ => stmtsUndropped stmts

def armsUndropped : List Arm → Prop
  | [] => True
  | arm :: arms => arm.Undropped ∧ armsUndropped arms

def Arm.Undropped : Arm → Prop
  | .mk _ none body => body.Undropped
  | .mk _ (some guard) body => guard.Undropped ∧ body.Undropped

def Func.Undropped : Func → Prop
  | .mk _ defaults body _ => body.Undropped ∧ thunksUndropped defaults

def thunksUndropped : List Block → Prop
  | [] => True
  | thunk :: thunks => thunk.Undropped ∧ thunksUndropped thunks

def methodsUndropped : List Func → Prop
  | [] => True
  | method :: methods => method.Undropped ∧ methodsUndropped methods

end

/-- No statement of the program drops a variable yet: what lowering hands to the drop pass. -/
def Program.Undropped (p : Program) : Prop := p.top.Undropped

end Noeta.Ir
