import Noeta.Types.Covariance

/-!
# The surface syntax

`Expr`, `Stmt` and the declarations of `noeta-ast/src/lib.rs`, as the syntactic passes of
`noeta-check` read them. Spans, patterns and the spelling of literals and operators are left out: no
pass here looks at them.
-/

namespace Noeta.Check

open Noeta.Types (TypeRef TypeKind)

/-- A declared type parameter; `id` is where it is declared. -/
structure TypeParam where
  name : String
  id : Nat
deriving DecidableEq, Repr

/-- The forms that are their operands in order. `logical` is `&&` and `||`. -/
inductive NodeKind where
  | unary
  | binary
  | logical
  | coalesce
  | await
  | spawn
  | channel
  | tupleIndex
  | pipeline
  | index
  | range
  | list
  | tuple
  | map
  | interp
  | fieldSet
deriving DecidableEq, Repr

mutual

inductive Expr where
  /-- A literal, or a resolved native function. -/
  | leaf
  | ident (name : String)
  | node (kind : NodeKind) (operands : List Expr)
  | tryOf (operand : Expr)
  | call (callee : Expr) (args : List Expr)
  | member (receiver : Expr) (name : String)
  | closure (defaults : List Expr) (body : Body)
  | matchOn (scrutinee : Expr) (arms : List Arm)
  | object (typeName : Option String) (fields : List FieldInit) (spread : Option Expr)
  /-- `e.as<T>()`, and `e is T` if `test`. -/
  | narrow (test : Bool) (e : Expr) (ty : TypeRef)
  /-- A reflection query; `byName` is whether its kind resolves its type by name. -/
  | reflect (byName : Bool) (types : List TypeRef) (operands : List Expr)
  | typedModuleCall (module func : String) (ty : TypeRef) (args : List Expr)
  | typedCall (name : String) (typeArgs : List TypeRef) (args : List Expr)
  | typedMethodCall (recv : Expr) (name : String) (typeArgs : List TypeRef) (args : List Expr)
  | instantiatedType (recv : Expr) (typeArgs : List TypeRef)
  | tierExpr (holes : List Expr)

/-- `ClosureBody`: of a closure, and of a match arm. -/
inductive Body where
  | expr (e : Expr)
  | block (stmts : List Stmt)

inductive Arm where
  | mk (guard : Option Expr) (body : Body)

inductive FieldInit where
  | mk (name : String) (value : Expr)

inductive Stmt where
  | echo (value : Expr)
  | binding (name : String) (ty : Option TypeRef) (value : Expr)
  | destructure (value : Expr)
  | fn (decl : FnDecl)
  | ret (value : Option Expr)
  | yieldOf (value : Expr)
  | concurrent (body : List Stmt)
  /-- A missing `else` is an empty one. -/
  | ite (cond : Expr) (thenBody elseBody : List Stmt)
  | forIn (iterable : Expr) (body : List Stmt)
  | whileDo (cond : Expr) (body : List Stmt)
  | brk
  | cont
  | expr (e : Expr)
  | tierBlock (items : List Stmt)
  /-- A declaration of a type, a trait or an `impl`, a `namespace` or a `use`. -/
  | decl

/-- A function or a method: its type parameters, the types and the default values of its parameters,
its return type, whether it is `async`, whether its body mentions `self`, and the body. -/
inductive FnDecl where
  | mk (name : String) (typeParams : List TypeParam) (params : List (Option TypeRef))
      (defaults : List Expr) (ret : Option TypeRef) (isAsync mentionsSelf : Bool)
      (body : List Stmt)

end

namespace FnDecl

def name : FnDecl → String
  | .mk name .. => name

def typeParams : FnDecl → List TypeParam
  | .mk _ typeParams .. => typeParams

def params : FnDecl → List (Option TypeRef)
  | .mk _ _ params .. => params

def ret : FnDecl → Option TypeRef
  | .mk _ _ _ _ ret .. => ret

def isAsync : FnDecl → Bool
  | .mk _ _ _ _ _ isAsync .. => isAsync

def mentionsSelf : FnDecl → Bool
  | .mk _ _ _ _ _ _ mentionsSelf _ => mentionsSelf

def body : FnDecl → List Stmt
  | .mk _ _ _ _ _ _ _ body => body

end FnDecl

/-- A type declaration. Each method stands with whether an `impl` block supplied it. -/
structure TypeDecl where
  kind : TypeKind
  name : String
  typeParams : List TypeParam
  fields : List (String × Option TypeRef)
  methods : List (FnDecl × Bool)

/-- A program's top-level declarations; the other statements are of no interest here. -/
inductive Item where
  | fn (decl : FnDecl)
  | type (decl : TypeDecl)

abbrev Program := List Item

def Expr.peelInstantiation : Expr → Expr
  | .instantiatedType recv _ => recv.peelInstantiation
  | other => other

end Noeta.Check
