import Mathlib.Data.List.Basic

/-!
# Bodies that never fall off their end

`block_diverges` and `body_breaks` of `noeta-check/src/subst.rs`, over the part of the syntax that
carries control, and the runs of a body. The two walks agree on the statements; a `break` in a block
arm of a `match` stands in an expression, where only the runs see it.
-/

namespace Noeta.Check.Control

mutual

/-- An expression. Any form but a `match` is its operands, evaluated in the frame of the function; a
closure has none. -/
inductive Expr where
  | bool (span : Nat) (value : Bool)
  | matchOn (span : Nat) (scrutinee : Expr) (arms : List Arm)
  | other (span : Nat) (operands : List Expr)

inductive Arm where
  | plain (body : ArmBody)
  | guarded (guard : Expr) (body : ArmBody)

/-- `ClosureBody`. -/
inductive ArmBody where
  | expr (e : Expr)
  | block (stmts : List Stmt)

inductive Stmt where
  | ret (value : Option Expr)
  | brk
  | cont
  | ifThen (cond : Expr) (thenBody : List Stmt)
  | ifElse (cond : Expr) (thenBody elseBody : List Stmt)
  | whileDo (cond : Expr) (body : List Stmt)
  | forIn (iterable : Expr) (body : List Stmt)
  | concurrent (body : List Stmt)
  | expr (e : Expr)
  /-- A binding, an assignment, an `echo`, a `yield` or a declaration, with what it evaluates. -/
  | plain (operands : List Expr)

end

def Expr.span : Expr → Nat
  | .bool span _ => span
  | .matchOn span _ _ => span
  | .other span _ => span

/-- The literal `true`. -/
def Expr.isTrue : Expr → Bool
  | .bool _ true => true
  | _ => false

def Arm.body : Arm → ArmBody
  | .plain body => body
  | .guarded _ body => body

/-- The facts of the typing pass, by span. -/
structure Facts where
  exhaustive : Nat → Bool
  never : Nat → Bool

/-! ### The two walks -/

mutual

def bodyBreaks : List Stmt → Bool
  | [] => false
  | s :: ss => stmtBreaks s || bodyBreaks ss

def stmtBreaks : Stmt → Bool
  | .brk => true
  | .ifThen _ thenBody => bodyBreaks thenBody
  | .ifElse _ thenBody elseBody => bodyBreaks thenBody || bodyBreaks elseBody
  | .concurrent body => bodyBreaks body
  | _ => false

end

mutual

def blockDiverges (facts : Facts) : List Stmt → Bool
  | [] => false
  | s :: ss => stmtDiverges facts s || blockDiverges facts ss

def stmtDiverges (facts : Facts) : Stmt → Bool
  | .ret _ => true
  | .ifElse _ thenBody elseBody => blockDiverges facts thenBody && blockDiverges facts elseBody
  | .whileDo cond body => cond.isTrue && !bodyBreaks body
  | .concurrent body => blockDiverges facts body
  | .expr e => exprDiverges facts e
  | _ => false

def exprDiverges (facts : Facts) : Expr → Bool
  | .bool span _ => facts.never span
  | .matchOn span _ arms =>
    facts.never span || (facts.exhaustive span && !arms.isEmpty && armsDiverge facts arms)
  | .other span _ => facts.never span

/-- The arms all diverge. -/
def armsDiverge (facts : Facts) : List Arm → Bool
  | [] => true
  | .plain body :: arms => armDiverges facts body && armsDiverge facts arms
  | .guarded _ body :: arms => armDiverges facts body && armsDiverge facts arms

def armDiverges (facts : Facts) : ArmBody → Bool
  | .expr e => exprDiverges facts e
  | .block stmts => blockDiverges facts stmts

end

/-! ### Runs -/

/-- How a run ends: past its last statement, by a `break` that stands in an expression or not, by a
`continue`, or by leaving the function. -/
inductive Outcome where
  | done
  | brk (inExpr : Bool)
  | cont
  | left
deriving DecidableEq

def Outcome.outOfExpr : Outcome → Outcome
  | .brk _ => .brk true
  | outcome => outcome

/-- What runs. A loop has no condition if it steps an iterator. -/
inductive Code where
  | expr (e : Expr)
  | exprs (es : List Expr)
  | arms (arms : List Arm)
  | arm (body : ArmBody)
  | stmt (s : Stmt)
  | block (stmts : List Stmt)
  | loop (cond : Option Expr) (body : List Stmt)

/-- A `while true` loop. -/
def Endless (cond : Option Expr) : Prop := ∃ c, cond = some c ∧ c.isTrue = true

/-- The runs. In a strict run no `while true` loop is left by a `break` that stands in an
expression. -/
inductive Run (facts : Facts) (strict : Prop) : Code → Outcome → Prop where
  | bool {span : Nat} {value : Bool} : facts.never span = false →
      Run facts strict (.expr (.bool span value)) .done
  /-- A panic, or an error that is propagated. -/
  | raise {e : Expr} : Run facts strict (.expr e) .left
  | other {span : Nat} {operands : List Expr} : Run facts strict (.exprs operands) .done →
      facts.never span = false → Run facts strict (.expr (.other span operands)) .done
  /-- `&&`, `||` and `??` may stop at their first operand. -/
  | short {span : Nat} {e : Expr} {es : List Expr} : Run facts strict (.expr e) .done →
      facts.never span = false → Run facts strict (.expr (.other span (e :: es))) .done
  | otherAbrupt {span : Nat} {operands : List Expr} {o : Outcome} :
      Run facts strict (.exprs operands) o → o ≠ .done →
      Run facts strict (.expr (.other span operands)) o
  | scrutinee {span : Nat} {e : Expr} {arms : List Arm} {o : Outcome} :
      Run facts strict (.expr e) o → o ≠ .done → Run facts strict (.expr (.matchOn span e arms)) o
  | matchArm {span : Nat} {e : Expr} {arms : List Arm} {o : Outcome} :
      Run facts strict (.expr e) .done → Run facts strict (.arms arms) o →
      (o = .done → facts.never span = false) →
      Run facts strict (.expr (.matchOn span e arms)) o.outOfExpr
  | noArm {span : Nat} {e : Expr} {arms : List Arm} : Run facts strict (.expr e) .done →
      facts.exhaustive span = false → facts.never span = false →
      Run facts strict (.expr (.matchOn span e arms)) .done
  | exprsNil : Run facts strict (.exprs []) .done
  | exprsCons {e : Expr} {es : List Expr} {o : Outcome} : Run facts strict (.expr e) .done →
      Run facts strict (.exprs es) o → Run facts strict (.exprs (e :: es)) o
  | exprsAbrupt {e : Expr} {es : List Expr} {o : Outcome} : Run facts strict (.expr e) o →
      o ≠ .done → Run facts strict (.exprs (e :: es)) o
  /-- The pattern does not match. -/
  | skip {arm : Arm} {arms : List Arm} {o : Outcome} : Run facts strict (.arms arms) o →
      Run facts strict (.arms (arm :: arms)) o
  | plainArm {body : ArmBody} {arms : List Arm} {o : Outcome} : Run facts strict (.arm body) o →
      Run facts strict (.arms (.plain body :: arms)) o
  | guardAbrupt {guard : Expr} {body : ArmBody} {arms : List Arm} {o : Outcome} :
      Run facts strict (.expr guard) o → o ≠ .done →
      Run facts strict (.arms (.guarded guard body :: arms)) o
  | refused {guard : Expr} {body : ArmBody} {arms : List Arm} {o : Outcome} :
      Run facts strict (.expr guard) .done → Run facts strict (.arms arms) o →
      Run facts strict (.arms (.guarded guard body :: arms)) o
  | guardedArm {guard : Expr} {body : ArmBody} {arms : List Arm} {o : Outcome} :
      Run facts strict (.expr guard) .done → Run facts strict (.arm body) o →
      Run facts strict (.arms (.guarded guard body :: arms)) o
  | armExpr {e : Expr} {o : Outcome} : Run facts strict (.expr e) o →
      Run facts strict (.arm (.expr e)) o
  | armBlock {stmts : List Stmt} {o : Outcome} : Run facts strict (.block stmts) o →
      Run facts strict (.arm (.block stmts)) o
  | retUnit : Run facts strict (.stmt (.ret none)) .left
  | ret {e : Expr} : Run facts strict (.expr e) .done → Run facts strict (.stmt (.ret (some e))) .left
  | retAbrupt {e : Expr} {o : Outcome} : Run facts strict (.expr e) o → o ≠ .done →
      Run facts strict (.stmt (.ret (some e))) o
  | brk : Run facts strict (.stmt .brk) (.brk false)
  | cont : Run facts strict (.stmt .cont) .cont
  | ifThenAbrupt {cond : Expr} {thenBody : List Stmt} {o : Outcome} :
      Run facts strict (.expr cond) o → o ≠ .done →
      Run facts strict (.stmt (.ifThen cond thenBody)) o
  | ifThenTaken {cond : Expr} {thenBody : List Stmt} {o : Outcome} :
      Run facts strict (.expr cond) .done → Run facts strict (.block thenBody) o →
      Run facts strict (.stmt (.ifThen cond thenBody)) o
  | ifThenSkipped {cond : Expr} {thenBody : List Stmt} : Run facts strict (.expr cond) .done →
      Run facts strict (.stmt (.ifThen cond thenBody)) .done
  | ifElseAbrupt {cond : Expr} {thenBody elseBody : List Stmt} {o : Outcome} :
      Run facts strict (.expr cond) o → o ≠ .done →
      Run facts strict (.stmt (.ifElse cond thenBody elseBody)) o
  | ifElseThen {cond : Expr} {thenBody elseBody : List Stmt} {o : Outcome} :
      Run facts strict (.expr cond) .done → Run facts strict (.block thenBody) o →
      Run facts strict (.stmt (.ifElse cond thenBody elseBody)) o
  | ifElseElse {cond : Expr} {thenBody elseBody : List Stmt} {o : Outcome} :
      Run facts strict (.expr cond) .done → Run facts strict (.block elseBody) o →
      Run facts strict (.stmt (.ifElse cond thenBody elseBody)) o
  | whileDo {cond : Expr} {body : List Stmt} {o : Outcome} :
      Run facts strict (.loop (some cond) body) o → Run facts strict (.stmt (.whileDo cond body)) o
  | forAbrupt {iterable : Expr} {body : List Stmt} {o : Outcome} :
      Run facts strict (.expr iterable) o → o ≠ .done →
      Run facts strict (.stmt (.forIn iterable body)) o
  | forIn {iterable : Expr} {body : List Stmt} {o : Outcome} :
      Run facts strict (.expr iterable) .done → Run facts strict (.loop none body) o →
      Run facts strict (.stmt (.forIn iterable body)) o
  | concurrent {body : List Stmt} {o : Outcome} : Run facts strict (.block body) o →
      Run facts strict (.stmt (.concurrent body)) o
  | expr {e : Expr} {o : Outcome} : Run facts strict (.expr e) o →
      Run facts strict (.stmt (.expr e)) o
  | plain {operands : List Expr} {o : Outcome} : Run facts strict (.exprs operands) o →
      Run facts strict (.stmt (.plain operands)) o
  | nil : Run facts strict (.block []) .done
  | cons {s : Stmt} {ss : List Stmt} {o : Outcome} : Run facts strict (.stmt s) .done →
      Run facts strict (.block ss) o → Run facts strict (.block (s :: ss)) o
  | abrupt {s : Stmt} {ss : List Stmt} {o : Outcome} : Run facts strict (.stmt s) o →
      o ≠ .done → Run facts strict (.block (s :: ss)) o
  | stop {cond : Option Expr} {body : List Stmt} : ¬ Endless cond →
      (∀ c, cond = some c → Run facts strict (.expr c) .done) →
      Run facts strict (.loop cond body) .done
  /-- A `break` in the condition belongs to the loop around. -/
  | condAbrupt {cond : Expr} {body : List Stmt} {o : Outcome} : Run facts strict (.expr cond) o →
      o ≠ .done → Run facts strict (.loop (some cond) body) o
  | leave {cond : Option Expr} {body : List Stmt} {inExpr : Bool} :
      (∀ c, cond = some c → Run facts strict (.expr c) .done) →
      Run facts strict (.block body) (.brk inExpr) →
      (strict → Endless cond → inExpr = false) → Run facts strict (.loop cond body) .done
  | again {cond : Option Expr} {body : List Stmt} {o o' : Outcome} :
      (∀ c, cond = some c → Run facts strict (.expr c) .done) →
      Run facts strict (.block body) o → o = .done ∨ o = .cont →
      Run facts strict (.loop cond body) o' → Run facts strict (.loop cond body) o'
  | returned {cond : Option Expr} {body : List Stmt} :
      (∀ c, cond = some c → Run facts strict (.expr c) .done) →
      Run facts strict (.block body) .left → Run facts strict (.loop cond body) .left

/-! ### The judgement on strict runs -/

/-- What the walks promise of a run: code judged diverging does not end, a `break` that comes out of
an expression stands in one, and any other is found by `body_breaks`. -/
def Promised (facts : Facts) : Code → Outcome → Prop
  | .expr e, .done => exprDiverges facts e = false
  | .expr _, .brk inExpr => inExpr = true
  | .exprs _, .brk inExpr => inExpr = true
  | .arms arms, .done => armsDiverge facts arms = false
  | .arm body, .done => armDiverges facts body = false
  | .stmt s, .done => stmtDiverges facts s = false
  | .stmt s, .brk inExpr => inExpr = false → stmtBreaks s = true
  | .block ss, .done => blockDiverges facts ss = false
  | .block ss, .brk inExpr => inExpr = false → bodyBreaks ss = true
  | .loop cond body, .done => Endless cond → bodyBreaks body = true
  | .loop _ _, .brk inExpr => inExpr = true
  | _, _ => True

variable {facts : Facts}

theorem promised_stmt_of_expr {e : Expr} {s : Stmt} {o : Outcome} (h : Promised facts (.expr e) o)
    (hne : o ≠ .done) : Promised facts (.stmt s) o := by
  cases o with
  | done => exact absurd rfl hne
  | brk inExpr =>
    intro hfalse
    rw [show inExpr = true from h] at hfalse
    cases hfalse
  | cont => trivial
  | left => trivial

theorem promised_of_run {code : Code} {o : Outcome} (h : Run facts True code o) :
    Promised facts code o := by
  induction h with
  | bool hnever => exact hnever
  | raise => trivial
  | other _ hnever _ => exact hnever
  | short _ hnever _ => exact hnever
  | @otherAbrupt span operands o _ hne ih =>
    cases o with
    | done => exact absurd rfl hne
    | brk inExpr => exact ih
    | cont => trivial
    | left => trivial
  | @scrutinee span e arms o _ hne ih =>
    cases o with
    | done => exact absurd rfl hne
    | brk inExpr => exact ih
    | cont => trivial
    | left => trivial
  | @matchArm span e arms o _ _ hnever _ ih =>
    cases o with
    | done =>
      have harms : armsDiverge facts arms = false := ih
      show exprDiverges facts (.matchOn span e arms) = false
      rw [exprDiverges, hnever rfl, harms, Bool.and_false, Bool.false_or]
    | brk inExpr => rfl
    | cont => trivial
    | left => trivial
  | @noArm span e arms _ hexhaustive hnever _ =>
    show exprDiverges facts (.matchOn span e arms) = false
    rw [exprDiverges, hexhaustive, hnever, Bool.false_and, Bool.false_and, Bool.false_or]
  | exprsNil => trivial
  | @exprsCons e es o _ _ _ ih =>
    cases o with
    | brk inExpr => exact ih
    | _ => trivial
  | @exprsAbrupt e es o _ hne ih =>
    cases o with
    | done => exact absurd rfl hne
    | brk inExpr => exact ih
    | _ => trivial
  | @skip arm arms o _ ih =>
    cases o with
    | done =>
      have harms : armsDiverge facts arms = false := ih
      show armsDiverge facts (arm :: arms) = false
      cases arm <;> rw [armsDiverge, harms, Bool.and_false]
    | _ => trivial
  | @plainArm body arms o _ ih =>
    cases o with
    | done =>
      have hbody : armDiverges facts body = false := ih
      show armsDiverge facts (.plain body :: arms) = false
      rw [armsDiverge, hbody, Bool.false_and]
    | _ => trivial
  | @guardAbrupt guard body arms o _ hne ih =>
    cases o with
    | done => exact absurd rfl hne
    | _ => trivial
  | @refused guard body arms o _ _ _ ih =>
    cases o with
    | done =>
      have harms : armsDiverge facts arms = false := ih
      show armsDiverge facts (.guarded guard body :: arms) = false
      rw [armsDiverge, harms, Bool.and_false]
    | _ => trivial
  | @guardedArm guard body arms o _ _ _ ih =>
    cases o with
    | done =>
      have hbody : armDiverges facts body = false := ih
      show armsDiverge facts (.guarded guard body :: arms) = false
      rw [armsDiverge, hbody, Bool.false_and]
    | _ => trivial
  | @armExpr e o _ ih =>
    cases o with
    | done => exact ih
    | _ => trivial
  | @armBlock stmts o _ ih =>
    cases o with
    | done => exact ih
    | _ => trivial
  | retUnit => trivial
  | ret => trivial
  | retAbrupt _ hne ih => exact promised_stmt_of_expr ih hne
  | brk => exact fun _ => rfl
  | cont => trivial
  | ifThenAbrupt _ hne ih => exact promised_stmt_of_expr ih hne
  | @ifThenTaken cond thenBody o _ _ _ ih =>
    cases o with
    | done => rfl
    | brk inExpr => exact ih
    | _ => trivial
  | ifThenSkipped => rfl
  | ifElseAbrupt _ hne ih => exact promised_stmt_of_expr ih hne
  | @ifElseThen cond thenBody elseBody o _ _ _ ih =>
    cases o with
    | done =>
      have hthen : blockDiverges facts thenBody = false := ih
      show stmtDiverges facts (.ifElse cond thenBody elseBody) = false
      rw [stmtDiverges, hthen, Bool.false_and]
    | brk inExpr =>
      intro hfalse
      have hthen : bodyBreaks thenBody = true := ih hfalse
      rw [stmtBreaks, hthen, Bool.true_or]
    | _ => trivial
  | @ifElseElse cond thenBody elseBody o _ _ _ ih =>
    cases o with
    | done =>
      have helse : blockDiverges facts elseBody = false := ih
      show stmtDiverges facts (.ifElse cond thenBody elseBody) = false
      rw [stmtDiverges, helse, Bool.and_false]
    | brk inExpr =>
      intro hfalse
      have helse : bodyBreaks elseBody = true := ih hfalse
      rw [stmtBreaks, helse, Bool.or_true]
    | _ => trivial
  | @whileDo cond body o _ ih =>
    cases o with
    | done =>
      show stmtDiverges facts (.whileDo cond body) = false
      rw [stmtDiverges]
      cases htrue : cond.isTrue with
      | false => rfl
      | true =>
        have hbreaks : bodyBreaks body = true := ih ⟨cond, rfl, htrue⟩
        rw [hbreaks]
        rfl
    | brk inExpr =>
      intro hfalse
      rw [show inExpr = true from ih] at hfalse
      cases hfalse
    | _ => trivial
  | forAbrupt _ hne ih => exact promised_stmt_of_expr ih hne
  | @forIn iterable body o _ _ _ ih =>
    cases o with
    | done => rfl
    | brk inExpr =>
      intro hfalse
      rw [show inExpr = true from ih] at hfalse
      cases hfalse
    | _ => trivial
  | @concurrent body o _ ih =>
    cases o with
    | done => exact ih
    | brk inExpr => exact ih
    | _ => trivial
  | @expr e o _ ih =>
    cases o with
    | done => exact ih
    | brk inExpr =>
      intro hfalse
      rw [show inExpr = true from ih] at hfalse
      cases hfalse
    | _ => trivial
  | @plain operands o _ ih =>
    cases o with
    | done => rfl
    | brk inExpr =>
      intro hfalse
      rw [show inExpr = true from ih] at hfalse
      cases hfalse
    | _ => trivial
  | nil => rfl
  | @cons s ss o _ _ ihs ih =>
    cases o with
    | done =>
      have hs : stmtDiverges facts s = false := ihs
      have hss : blockDiverges facts ss = false := ih
      show blockDiverges facts (s :: ss) = false
      rw [blockDiverges, hs, hss]
      rfl
    | brk inExpr =>
      intro hfalse
      have hss : bodyBreaks ss = true := ih hfalse
      rw [bodyBreaks, hss, Bool.or_true]
    | _ => trivial
  | @abrupt s ss o _ hne ih =>
    cases o with
    | done => exact absurd rfl hne
    | brk inExpr =>
      intro hfalse
      have hs : stmtBreaks s = true := ih hfalse
      rw [bodyBreaks, hs, Bool.true_or]
    | _ => trivial
  | stop hendless => exact fun h => absurd h hendless
  | @condAbrupt cond body o _ hne ih =>
    cases o with
    | done => exact absurd rfl hne
    | brk inExpr => exact ih
    | _ => trivial
  | leave _ _ hstrict _ ih => exact fun hendless => ih (hstrict trivial hendless)
  | @again cond body o o' _ _ _ _ _ _ ih =>
    cases o' with
    | done => exact ih
    | brk inExpr => exact ih
    | _ => trivial
  | returned => trivial

/-- A list judged diverging is not run past its last statement, as long as no `while true` loop is
left by a `break` that stands in an expression. -/
theorem blockDiverges_sound (facts : Facts) (stmts : List Stmt)
    (h : blockDiverges facts stmts = true) : ¬ Run facts True (.block stmts) .done := by
  intro hrun
  have hfalse : blockDiverges facts stmts = false := promised_of_run hrun
  rw [h] at hfalse
  cases hfalse

/-- `while true { echo x; }` -/
def endlessLoop : List Stmt := [.whileDo (.bool 0 true) [.plain [.other 1 []]]]

theorem blockDiverges_sound_endless :
    ¬ Run ⟨fun _ => false, fun _ => false⟩ True (.block endlessLoop) .done :=
  blockDiverges_sound ⟨fun _ => false, fun _ => false⟩ endlessLoop (by decide)

/-- `while true { match x { 1 => { break; }, _ => {} }; }` -/
def hiddenBreak : List Stmt :=
  [.whileDo (.bool 0 true) [.expr (.matchOn 1 (.other 2 [])
    [.plain (.block [.brk]), .plain (.block [])])]]

/-- The loop is judged endless, and its run ends. -/
theorem hiddenBreak_ends : blockDiverges ⟨fun _ => true, fun _ => false⟩ hiddenBreak = true ∧
    Run ⟨fun _ => true, fun _ => false⟩ False (.block hiddenBreak) .done := by
  have harm : Run ⟨fun _ => true, fun _ => false⟩ False
      (.arms [.plain (.block [.brk]), .plain (.block [])]) (.brk false) :=
    .plainArm (.armBlock (.abrupt .brk (by decide)))
  have hmatch : Run ⟨fun _ => true, fun _ => false⟩ False
      (.expr (.matchOn 1 (.other 2 []) [.plain (.block [.brk]), .plain (.block [])])) (.brk true) :=
    .matchArm (.other .exprsNil rfl) harm fun h => by cases h
  have hcond : ∀ c, some (Expr.bool 0 true) = some c →
      Run ⟨fun _ => true, fun _ => false⟩ False (.expr c) .done := by
    rintro c ⟨⟩
    exact .bool rfl
  refine ⟨by decide, .cons (.whileDo ?_) .nil⟩
  exact .leave hcond (.abrupt (.expr hmatch) (by decide)) False.elim

end Noeta.Check.Control
