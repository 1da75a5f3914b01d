import Noeta.Ir.Liveness

/-!
# Executions of a block

The control flow of the structured IR as edges between points, each with the variables it reads and those it binds after. A point names what is left of a block and the frames around it, so that a `break` or a `continue` is an edge to where the loop goes on. A variable may be read at a point if some path from there reads it before binding it.
-/

namespace Noeta.Ir

/-- What is left to do around a block, when it ends. -/
inductive Frame where
  | rest (stmts : List Stmt) (tail : Option Atom)
  | whileTest (cond body : Block)
  | whileBody (cond body : Block)
  | forBody (pattern : ForPattern) (body : Block)
  | guardTest (body : Block) (later : List Arm)

/-- Where an execution stands: before the statements that are left of a block, after a block, before the arms of a `match` that are left, or out of the function. -/
inductive Point where
  | run (stmts : List Stmt) (tail : Option Atom) (k : List Frame)
  | resume (k : List Frame)
  | select (arms : List Arm) (k : List Frame)
  | halt

/-- The innermost loop body among the frames, with the frames around the loop: a `continue` goes on at the first, a `break` after it. -/
def innermostLoop : List Frame → Option (Frame × List Frame)
  | [] => none
  | .whileBody cond body :: k => some (.whileBody cond body, k)
  | .forBody pattern body :: k => some (.forBody pattern body, k)
  | .rest _ _ :: k => innermostLoop k
  | .whileTest _ _ :: k => innermostLoop k
  | .guardTest _ _ :: k => innermostLoop k

/-- Statements that read and bind no source variable. -/
def Stmt.Silent : Stmt → Prop
  | .scopeBegin => True
  | .scopeEnd => True
  | .declClass _ _ => True
  | .declStruct _ => True
  | .declEnum _ => True
  | .declUse _ => True
  | .drop _ => True
  | .dropVar _ _ => True
  | _ => False

/-- One step that is no jump, with the variables it reads and the variables it binds after that. -/
inductive Edge : Point → VarSet → VarSet → Point → Prop where
  | blockEnd {t k} : Edge (.run [] t k) (atomUses? t) ∅ (.resume k)
  | blockNext {ss t k} : Edge (.resume (.rest ss t :: k)) ∅ ∅ (.run ss t k)
  | silent {s ss t k} (h : s.Silent) : Edge (.run (s :: ss) t k) ∅ ∅ (.run ss t k)
  | letTemp {dst rvalue ss t k} : Edge (.run (.letTemp dst rvalue :: ss) t k) rvalue.uses ∅ (.run ss t k)
  | eval {rvalue ss t k} : Edge (.run (.eval rvalue :: ss) t k) rvalue.uses ∅ (.run ss t k)
  /-- `?` leaves the function. -/
  | letPropagate {dst operand onError ss t k} :
      Edge (.run (.letTemp dst (.tryProp operand onError) :: ss) t k) operand.uses ∅ .halt
  | evalPropagate {operand onError ss t k} :
      Edge (.run (.eval (.tryProp operand onError) :: ss) t k) operand.uses ∅ .halt
  | bind {name span value ss t k} :
      Edge (.run (.bind name span value :: ss) t k) value.uses {name} (.run ss t k)
  | echo {value ss t k} : Edge (.run (.echo value :: ss) t k) value.uses ∅ (.run ss t k)
  | ret {value ss t k} : Edge (.run (.ret value :: ss) t k) (atomUses? value) ∅ .halt
  | iteThen {cond thenBlock elseBlock ss t k} :
      Edge (.run (.ite cond thenBlock elseBlock :: ss) t k) cond.uses ∅
        (.run thenBlock.stmts thenBlock.tail (.rest ss t :: k))
  | iteElse {cond thenBlock elseBlock ss t k} :
      Edge (.run (.ite cond thenBlock (some elseBlock) :: ss) t k) cond.uses ∅
        (.run elseBlock.stmts elseBlock.tail (.rest ss t :: k))
  | iteSkip {cond thenBlock ss t k} :
      Edge (.run (.ite cond thenBlock none :: ss) t k) cond.uses ∅ (.run ss t k)
  | whileEnter {cond body ss t k} :
      Edge (.run (.whileDo cond body :: ss) t k) ∅ ∅
        (.run cond.stmts cond.tail (.whileTest cond body :: .rest ss t :: k))
  | whileTrue {cond body k} :
      Edge (.resume (.whileTest cond body :: k)) ∅ ∅ (.run body.stmts body.tail (.whileBody cond body :: k))
  | whileFalse {cond body k} : Edge (.resume (.whileTest cond body :: k)) ∅ ∅ (.resume k)
  | whileAgain {cond body k} :
      Edge (.resume (.whileBody cond body :: k)) ∅ ∅ (.run cond.stmts cond.tail (.whileTest cond body :: k))
  | forEnter {pattern iterable orderSlots body ss t k} :
      Edge (.run (.forIn pattern iterable orderSlots body :: ss) t k)
        (iterable.uses ∪ atomsUses orderSlots) ∅ (.resume (.forBody pattern body :: .rest ss t :: k))
  | forNext {pattern body k} :
      Edge (.resume (.forBody pattern body :: k)) ∅ pattern.names
        (.run body.stmts body.tail (.forBody pattern body :: k))
  | forEnd {pattern body k} : Edge (.resume (.forBody pattern body :: k)) ∅ ∅ (.resume k)
  | matchEnter {scrutinee arms ss t k} :
      Edge (.run (.matchOn scrutinee arms :: ss) t k) scrutinee.uses ∅ (.select arms (.rest ss t :: k))
  | mismatch {arm later k} : Edge (.select (arm :: later) k) ∅ ∅ (.select later k)
  | matched {pattern body later k} :
      Edge (.select (.mk pattern none body :: later) k) ∅ pattern.names (.run body.stmts body.tail k)
  | guarded {pattern guard body later k} :
      Edge (.select (.mk pattern (some guard) body :: later) k) ∅ pattern.names
        (.run guard.stmts guard.tail (.guardTest body later :: k))
  | guardTrue {body later k} :
      Edge (.resume (.guardTest body later :: k)) ∅ ∅ (.run body.stmts body.tail k)
  | guardFalse {body later k} : Edge (.resume (.guardTest body later :: k)) ∅ ∅ (.select later k)
  | logicalStop {left right ss t k} :
      Edge (.run (.logical left right :: ss) t k) left.uses ∅ (.run ss t k)
  | logicalRight {left right ss t k} :
      Edge (.run (.logical left right :: ss) t k) left.uses ∅
        (.run right.stmts right.tail (.rest ss t :: k))
  | coalesceValue {value fallback ss t k} :
      Edge (.run (.coalesce value fallback :: ss) t k) value.uses ∅ (.run ss t k)
  | coalesceFallback {value fallback ss t k} :
      Edge (.run (.coalesce value fallback :: ss) t k) value.uses ∅
        (.run fallback.stmts fallback.tail (.rest ss t :: k))
  /-- A nested `fn` counts as reading every variable it names. -/
  | declFn {name func ss t k} :
      Edge (.run (.declFn name func :: ss) t k) func.referencedVars {name} (.run ss t k)

/-- Where `break` and `continue` go. -/
inductive Jump : Point → Point → Prop where
  | brk {ss t k loop around} (h : innermostLoop k = some (loop, around)) :
      Jump (.run (.brk :: ss) t k) (.resume around)
  | cont {ss t k loop around} (h : innermostLoop k = some (loop, around)) :
      Jump (.run (.cont :: ss) t k) (.resume (loop :: around))

/-- What the analysis follows instead: a jump is a statement like another, and a false guard may leave its `match`. -/
inductive Fall : Point → Point → Prop where
  | brk {ss t k} : Fall (.run (.brk :: ss) t k) (.run ss t k)
  | cont {ss t k} : Fall (.run (.cont :: ss) t k) (.run ss t k)
  | guard {body later k} : Fall (.resume (.guardTest body later :: k)) (.resume k)

/-- Some path from here, along the edges and `extra`, reads the variable before it binds it. After the outermost block any variable of `liveOut` may be read. -/
inductive MayRead (extra : Point → Point → Prop) (liveOut : VarSet) : Point → Name → Prop where
  | outside {x} (h : x ∈ liveOut) : MayRead extra liveOut (.resume []) x
  | here {p q reads binds x} (hedge : Edge p reads binds q) (h : x ∈ reads) : MayRead extra liveOut p x
  | later {p q reads binds x} (hedge : Edge p reads binds q) (hbinds : x ∉ binds)
      (h : MayRead extra liveOut q x) : MayRead extra liveOut p x
  | along {p q x} (hextra : extra p q) (h : MayRead extra liveOut q x) : MayRead extra liveOut p x

end Noeta.Ir
