import Noeta.Ir.Paths

/-!
# Liveness against the paths of a block

The analysis computes, at every statement it visits, exactly what may be read on the paths it follows. It covers what executions may read exactly if, at every jump, what may be read where the jump goes may also be read where the analysis has it fall through to.
-/

namespace Noeta.Ir

open Dataflow

/-! ### The live set before statements -/

/-- The live set the analysis computes before the statements left of a block with live-out `liveOut`. -/
def liveBefore (ss : List Stmt) (t : Option Atom) (liveOut : VarSet) : VarSet :=
  (analyzeStmts ss (liveOut ∪ atomUses? t)).1

/-- The live set before a statement from the one after it. -/
def stmtLive (s : Stmt) (live : VarSet) : VarSet := (analyzeStmt s live).1

def Block.liveIn (b : Block) (liveOut : VarSet) : VarSet := (analyzeBlock b liveOut).liveIn

def armsLive (arms : List Arm) (liveOut : VarSet) : VarSet := (analyzeArms arms liveOut).1

@[simp] theorem liveBefore_nil (t : Option Atom) (liveOut : VarSet) :
    liveBefore [] t liveOut = liveOut ∪ atomUses? t := rfl

@[simp] theorem liveBefore_cons (s : Stmt) (ss : List Stmt) (t : Option Atom) (liveOut : VarSet) :
    liveBefore (s :: ss) t liveOut = stmtLive s (liveBefore ss t liveOut) := rfl

@[simp] theorem liveBefore_block (b : Block) (liveOut : VarSet) :
    liveBefore b.stmts b.tail liveOut = b.liveIn liveOut := by
  cases b
  rfl

section Equations

variable (live : VarSet)

@[simp] theorem stmtLive_letTemp (dst : Nat) (rvalue : Rvalue) :
    stmtLive (.letTemp dst rvalue) live = live ∪ rvalue.uses := rfl

@[simp] theorem stmtLive_eval (rvalue : Rvalue) : stmtLive (.eval rvalue) live = live ∪ rvalue.uses := rfl

@[simp] theorem stmtLive_bind (name : Name) (span : Span) (value : Atom) :
    stmtLive (.bind name span value) live = live.erase name ∪ value.uses := rfl

@[simp] theorem stmtLive_echo (value : Atom) : stmtLive (.echo value) live = live ∪ value.uses := rfl

@[simp] theorem stmtLive_ret (value : Option Atom) : stmtLive (.ret value) live = atomUses? value := rfl

@[simp] theorem stmtLive_brk : stmtLive .brk live = live := rfl

@[simp] theorem stmtLive_cont : stmtLive .cont live = live := rfl

theorem stmtLive_silent {s : Stmt} (h : s.Silent) : stmtLive s live = live := by
  cases s <;> first | rfl | cases h

@[simp] theorem stmtLive_ite (cond : Atom) (thenBlock : Block) (elseBlock : Option Block) :
    stmtLive (.ite cond thenBlock elseBlock) live =
      thenBlock.liveIn live ∪ (match elseBlock with
        | none => live
        | some elseBlock => elseBlock.liveIn live) ∪ cond.uses := by
  cases elseBlock <;> rfl

/-- The set live at the top of a `while` around which `live` is live. -/
def whileLive (cond body : Block) : VarSet := whileTop cond.liveIn body.liveIn live

/-- The set live at the top of a `for` around which `live` is live. -/
def forLive (pattern : ForPattern) (body : Block) : VarSet := forTop pattern.names body.liveIn live

@[simp] theorem stmtLive_whileDo (cond body : Block) :
    stmtLive (.whileDo cond body) live = cond.liveIn (body.liveIn (whileLive live cond body) ∪ live) := rfl

@[simp] theorem stmtLive_forIn (pattern : ForPattern) (iterable : Atom) (orderSlots : List Atom) (body : Block) :
    stmtLive (.forIn pattern iterable orderSlots body) live =
      forLive live pattern body ∪ (iterable.uses ∪ atomsUses orderSlots) := rfl

@[simp] theorem stmtLive_matchOn (scrutinee : Atom) (arms : List Arm) :
    stmtLive (.matchOn scrutinee arms) live = armsLive arms live ∪ scrutinee.uses := rfl

@[simp] theorem stmtLive_logical (left : Atom) (right : Block) :
    stmtLive (.logical left right) live = right.liveIn live ∪ live ∪ left.uses := rfl

@[simp] theorem stmtLive_coalesce (value : Atom) (fallback : Block) :
    stmtLive (.coalesce value fallback) live = fallback.liveIn live ∪ live ∪ value.uses := rfl

@[simp] theorem stmtLive_declFn (name : Name) (func : Func) :
    stmtLive (.declFn name func) live = live.erase name ∪ func.referencedVars := rfl

@[simp] theorem armsLive_nil : armsLive [] live = ∅ := rfl

@[simp] theorem armsLive_cons (pattern : Pattern) (body : Block) (later : List Arm) :
    armsLive (.mk pattern none body :: later) live =
      armsLive later live ∪ body.liveIn live \ pattern.names := rfl

@[simp] theorem armsLive_guarded (pattern : Pattern) (guard body : Block) (later : List Arm) :
    armsLive (.mk pattern (some guard) body :: later) live =
      armsLive later live ∪
        guard.liveIn (body.liveIn live ∪ (armsLive later live ∪ live)) \ pattern.names := rfl

end Equations

/-! ### The loops' iterations are stable -/

theorem genKill_whileLive {cond body : Block} (hcond : GenKill cond.liveIn) (hbody : GenKill body.liveIn) :
    GenKill fun live => whileLive live cond body := by
  have hround : ∀ live : VarSet, GenKill fun top => cond.liveIn (body.liveIn top ∪ live) := fun live =>
    hcond.comp (hbody.union (.const live))
  have heq : ∀ live, whileLive live cond body = cond.liveIn (body.liveIn live ∪ live) := fun live =>
    untilStable_eq (hround live) 1 live
  simp only [heq]
  exact hcond.comp (hbody.union .id)

theorem genKill_forLive {pattern : ForPattern} {body : Block} (hbody : GenKill body.liveIn) :
    GenKill fun live => forLive live pattern body := by
  have hround : ∀ live : VarSet, GenKill fun top => body.liveIn top \ pattern.names ∪ live := fun live =>
    (hbody.sdiff pattern.names).union (.const live)
  have heq : ∀ live, forLive live pattern body = body.liveIn live \ pattern.names ∪ live := fun live =>
    untilStable_eq (hround live) 1 live
  simp only [heq]
  exact (hbody.sdiff pattern.names).union .id

mutual

theorem genKill_stmt : (s : Stmt) → GenKill (stmtLive s)
  | .letTemp _ rvalue => GenKill.id.union (.const rvalue.uses)
  | .eval rvalue => GenKill.id.union (.const rvalue.uses)
  | .bind name _ value => (GenKill.id.erase name).union (.const value.uses)
  | .echo value => GenKill.id.union (.const value.uses)
  | .ret value => .const (atomUses? value)
  | .brk => .id
  | .cont => .id
  | .scopeBegin => .id
  | .scopeEnd => .id
  | .ite cond thenBlock none => ((genKill_block thenBlock).union .id).union (.const cond.uses)
  | .ite cond thenBlock (some elseBlock) =>
    ((genKill_block thenBlock).union (genKill_block elseBlock)).union (.const cond.uses)
  | .whileDo cond body =>
    (genKill_block cond).comp
      (((genKill_block body).comp (genKill_whileLive (genKill_block cond) (genKill_block body))).union .id)
  | .forIn _ iterable orderSlots body =>
    (genKill_forLive (genKill_block body)).union (.const (iterable.uses ∪ atomsUses orderSlots))
  | .matchOn scrutinee arms => (genKill_arms arms).union (.const scrutinee.uses)
  | .logical left right => ((genKill_block right).union .id).union (.const left.uses)
  | .coalesce value fallback => ((genKill_block fallback).union .id).union (.const value.uses)
  | .declFn name func => (GenKill.id.erase name).union (.const func.referencedVars)
  | .declClass _ _ => .id
  | .declStruct _ => .id
  | .declEnum _ => .id
  | .declUse _ => .id
  | .drop _ => .id
  | .dropVar _ _ => .id

theorem genKill_stmts : (ss : List Stmt) → (t : Option Atom) → GenKill (liveBefore ss t)
  | [], t => GenKill.id.union (.const (atomUses? t))
  | s :: ss, t => (genKill_stmt s).comp (genKill_stmts ss t)

theorem genKill_block : (b : Block) → GenKill b.liveIn
  | .mk stmts tail => genKill_stmts stmts tail

theorem genKill_arms : (arms : List Arm) → GenKill (armsLive arms)
  | [] => .const ∅
  | .mk pattern none body :: later =>
    (genKill_arms later).union ((genKill_block body).sdiff pattern.names)
  | .mk pattern (some guard) body :: later =>
    (genKill_arms later).union
      (((genKill_block guard).comp
        ((genKill_block body).union ((genKill_arms later).union .id))).sdiff pattern.names)

end

theorem whileLive_stable (live : VarSet) (cond body : Block) :
    cond.liveIn (body.liveIn (whileLive live cond body) ∪ live) = whileLive live cond body :=
  untilStable_stable ((genKill_block cond).comp ((genKill_block body).union (.const live))) 1 live

theorem whileLive_eq (live : VarSet) (cond body : Block) :
    whileLive live cond body = cond.liveIn (body.liveIn ∅ ∪ live) := by
  rw [← (genKill_block body).union_self live]
  exact untilStable_eq ((genKill_block cond).comp ((genKill_block body).union (.const live))) 1 live

theorem forLive_stable (live : VarSet) (pattern : ForPattern) (body : Block) :
    body.liveIn (forLive live pattern body) \ pattern.names ∪ live = forLive live pattern body :=
  untilStable_stable (((genKill_block body).sdiff pattern.names).union (.const live)) 1 live

theorem forLive_eq (live : VarSet) (pattern : ForPattern) (body : Block) :
    forLive live pattern body = body.liveIn ∅ \ pattern.names ∪ live := by
  rw [← ((genKill_block body).sdiff pattern.names).union_self live]
  exact untilStable_eq (((genKill_block body).sdiff pattern.names).union (.const live)) 1 live

/-! ### The live set of a point -/

/-- What the analysis has live after a block with these frames around it. -/
def liveAfter (liveOut : VarSet) : List Frame → VarSet
  | [] => liveOut
  | .rest ss t :: k => liveBefore ss t (liveAfter liveOut k)
  | .whileTest cond body :: k =>
    body.liveIn (whileLive (liveAfter liveOut k) cond body) ∪ liveAfter liveOut k
  | .whileBody cond body :: k => whileLive (liveAfter liveOut k) cond body
  | .forBody pattern body :: k => forLive (liveAfter liveOut k) pattern body
  | .guardTest body later :: k =>
    body.liveIn (liveAfter liveOut k) ∪ (armsLive later (liveAfter liveOut k) ∪ liveAfter liveOut k)

/-- What the analysis has live at a point. -/
def Point.live (liveOut : VarSet) : Point → VarSet
  | .run ss t k => liveBefore ss t (liveAfter liveOut k)
  | .resume k => liveAfter liveOut k
  | .select arms k => armsLive arms (liveAfter liveOut k)
  | .halt => ∅

/-- What an edge reads is live before it, and so is what is live after it and not bound on the way. -/
theorem Edge.live {p q : Point} {reads binds : VarSet} (h : Edge p reads binds q) (liveOut : VarSet) :
    reads ⊆ p.live liveOut ∧ ∀ x ∈ q.live liveOut, x ∉ binds → x ∈ p.live liveOut := by
  cases h with
  | silent hs =>
    simp only [Point.live, liveBefore_cons, stmtLive_silent _ hs]
    simp
  | letPropagate =>
    refine ⟨?_, by simp [Point.live]⟩
    simp only [Point.live, liveBefore_cons, stmtLive_letTemp, Rvalue.uses]
    exact Finset.subset_union_right
  | evalPropagate =>
    refine ⟨?_, by simp [Point.live]⟩
    simp only [Point.live, liveBefore_cons, stmtLive_eval, Rvalue.uses]
    exact Finset.subset_union_right
  | whileAgain =>
    rename_i cond body k
    refine ⟨Finset.empty_subset _, ?_⟩
    intro x hx _
    simp only [Point.live, liveBefore_block, liveAfter] at hx ⊢
    rwa [whileLive_stable] at hx
  | forNext =>
    rename_i pattern body k
    refine ⟨Finset.empty_subset _, ?_⟩
    intro x hx hbound
    simp only [Point.live, liveBefore_block, liveAfter] at hx ⊢
    rw [← forLive_stable]
    exact Finset.mem_union_left _ (Finset.mem_sdiff.mpr ⟨hx, hbound⟩)
  | forEnd =>
    rename_i pattern body k
    refine ⟨Finset.empty_subset _, ?_⟩
    intro x hx _
    simp only [Point.live, liveAfter] at hx ⊢
    rw [← forLive_stable]
    exact Finset.mem_union_right _ hx
  | mismatch =>
    rename_i arm later k
    obtain ⟨pattern, guard, body⟩ := arm
    refine ⟨Finset.empty_subset _, ?_⟩
    intro x hx _
    cases guard with
    | none => exact Finset.mem_union_left _ hx
    | some guard => exact Finset.mem_union_left _ hx
  | _ =>
    refine ⟨?_, ?_⟩
    · intro x hx
      simp_all [Point.live]
    · intro x hx hbound
      simp_all [Point.live, liveAfter]

theorem Fall.live {p q : Point} (h : Fall p q) (liveOut : VarSet) : q.live liveOut ⊆ p.live liveOut := by
  cases h with
  | brk => exact Finset.Subset.refl _
  | cont => exact Finset.Subset.refl _
  | guard =>
    simp only [Point.live, liveAfter]
    intro x hx
    simp [hx]

theorem live_of_mayRead {liveOut : VarSet} {p : Point} {x : Name} (h : MayRead Fall liveOut p x) :
    x ∈ p.live liveOut := by
  induction h with
  | outside hx => exact hx
  | here hedge hx => exact (hedge.live liveOut).1 hx
  | later hedge hbinds _ ih => exact (hedge.live liveOut).2 _ ih hbinds
  | along hfall _ ih => exact hfall.live liveOut ih

/-! ### Everything live may be read on the paths the analysis follows -/

/-- All of these may be read from the point. -/
def Reads (liveOut : VarSet) (p : Point) (live : VarSet) : Prop := ∀ x ∈ live, MayRead Fall liveOut p x

namespace Reads

variable {liveOut : VarSet}

theorem empty (p : Point) : Reads liveOut p ∅ := by
  intro x hx
  cases hx

theorem union {p : Point} {live live' : VarSet} (h : Reads liveOut p live) (h' : Reads liveOut p live') :
    Reads liveOut p (live ∪ live') := by
  intro x hx
  rcases Finset.mem_union.mp hx with hx | hx
  · exact h x hx
  · exact h' x hx

theorem uses {p q : Point} {reads binds : VarSet} (hedge : Edge p reads binds q) : Reads liveOut p reads :=
  fun _ hx => .here hedge hx

theorem after {p q : Point} {reads binds live : VarSet} (hedge : Edge p reads binds q)
    (h : Reads liveOut q live) : Reads liveOut p (live \ binds) := by
  intro x hx
  obtain ⟨hlive, hbinds⟩ := Finset.mem_sdiff.mp hx
  exact .later hedge hbinds (h x hlive)

theorem through {p q : Point} {reads live : VarSet} (hedge : Edge p reads ∅ q) (h : Reads liveOut q live) :
    Reads liveOut p live :=
  fun x hx => .later hedge (Finset.notMem_empty x) (h x hx)

theorem fall {p q : Point} {live : VarSet} (hfall : Fall p q) (h : Reads liveOut q live) :
    Reads liveOut p live :=
  fun x hx => .along hfall (h x hx)

end Reads

section Complete

variable {liveOut : VarSet}

/-- What is live before a block may be read from its start, whatever is around it. -/
def BlockReads (liveOut : VarSet) (b : Block) : Prop :=
  ∀ ⦃k live⦄, Reads liveOut (.resume k) live → Reads liveOut (.run b.stmts b.tail k) (b.liveIn live)

section Loops

variable {cond body : Block} {k : List Frame} {live : VarSet}

theorem reads_round (hcond : BlockReads liveOut cond) (hbody : BlockReads liveOut body)
    (h : Reads liveOut (.resume k) live) {top : VarSet}
    (htop : Reads liveOut (.resume (.whileBody cond body :: k)) top) :
    Reads liveOut (.run cond.stmts cond.tail (.whileTest cond body :: k)) (cond.liveIn (body.liveIn top ∪ live)) :=
  hcond (((hbody htop).through .whileTrue).union (h.through .whileFalse))

theorem reads_whileBody (hcond : BlockReads liveOut cond) (hbody : BlockReads liveOut body)
    (h : Reads liveOut (.resume k) live) :
    Reads liveOut (.resume (.whileBody cond body :: k)) (whileLive live cond body) := by
  rw [whileLive_eq]
  exact (reads_round hcond hbody h (.empty _)).through .whileAgain

theorem reads_forBody {pattern : ForPattern} (hbody : BlockReads liveOut body)
    (h : Reads liveOut (.resume k) live) :
    Reads liveOut (.resume (.forBody pattern body :: k)) (forLive live pattern body) := by
  rw [forLive_eq]
  exact ((hbody (.empty _)).after .forNext).union (h.through .forEnd)

end Loops

mutual

/-- By the forms of statements; a jump is followed by what is left of its block. -/
theorem reads_stmt : (s : Stmt) → ∀ {ss t k live}, Reads liveOut (.run ss t k) live →
    Reads liveOut (.run (s :: ss) t k) (stmtLive s live)
  | .letTemp _ _, _, _, _, _, h => (h.through .letTemp).union (.uses .letTemp)
  | .eval _, _, _, _, _, h => (h.through .eval).union (.uses .eval)
  | .bind name _ _, _, _, _, _, h => by
    rw [stmtLive_bind, ← Finset.sdiff_singleton_eq_erase]
    exact (h.after .bind).union (.uses .bind)
  | .echo _, _, _, _, _, h => (h.through .echo).union (.uses .echo)
  | .ret _, _, _, _, _, _ => .uses .ret
  | .brk, _, _, _, _, h => h.fall .brk
  | .cont, _, _, _, _, h => h.fall .cont
  | .scopeBegin, _, _, _, _, h => h.through (.silent trivial)
  | .scopeEnd, _, _, _, _, h => h.through (.silent trivial)
  | .ite _ thenBlock none, _, _, _, _, h =>
    have hthen := reads_block thenBlock (h.through .blockNext)
    ((hthen.through .iteThen).union (h.through .iteSkip)).union (.uses .iteSkip)
  | .ite _ thenBlock (some elseBlock), _, _, _, _, h =>
    have hthen := reads_block thenBlock (h.through .blockNext)
    have helse := reads_block elseBlock (h.through .blockNext)
    ((hthen.through .iteThen).union (helse.through .iteElse)).union (.uses .iteElse)
  | .whileDo cond body, _, _, _, _, h =>
    have hcond := fun _ _ h => reads_block cond h
    have hbody := fun _ _ h => reads_block body h
    have hnext := h.through .blockNext
    (reads_round hcond hbody hnext (reads_whileBody hcond hbody hnext)).through .whileEnter
  | .forIn _ _ _ body, _, _, _, _, h =>
    have hbody := fun _ _ h => reads_block body h
    ((reads_forBody hbody (h.through .blockNext)).through .forEnter).union (.uses .forEnter)
  | .matchOn _ arms, _, _, _, _, h =>
    ((reads_arms arms (h.through .blockNext)).through .matchEnter).union (.uses .matchEnter)
  | .logical _ right, _, _, _, _, h =>
    have hright := reads_block right (h.through .blockNext)
    ((hright.through .logicalRight).union (h.through .logicalStop)).union (.uses .logicalStop)
  | .coalesce _ fallback, _, _, _, _, h =>
    have hfallback := reads_block fallback (h.through .blockNext)
    ((hfallback.through .coalesceFallback).union (h.through .coalesceValue)).union (.uses .coalesceValue)
  | .declFn name _, _, _, _, _, h => by
    rw [stmtLive_declFn, ← Finset.sdiff_singleton_eq_erase]
    exact (h.after .declFn).union (.uses .declFn)
  | .declClass _ _, _, _, _, _, h => h.through (.silent trivial)
  | .declStruct _, _, _, _, _, h => h.through (.silent trivial)
  | .declEnum _, _, _, _, _, h => h.through (.silent trivial)
  | .declUse _, _, _, _, _, h => h.through (.silent trivial)
  | .drop _, _, _, _, _, h => h.through (.silent trivial)
  | .dropVar _ _, _, _, _, _, h => h.through (.silent trivial)

theorem reads_stmts : (ss : List Stmt) → ∀ {t k live}, Reads liveOut (.resume k) live →
    Reads liveOut (.run ss t k) (liveBefore ss t live)
  | [], _, _, _, h => (h.through .blockEnd).union (.uses .blockEnd)
  | s :: ss, _, _, _, h => reads_stmt s (reads_stmts ss h)

theorem reads_block : (b : Block) → ∀ {k live}, Reads liveOut (.resume k) live →
    Reads liveOut (.run b.stmts b.tail k) (b.liveIn live)
  | .mk stmts _, _, _, h => reads_stmts stmts h

theorem reads_arms : (arms : List Arm) → ∀ {k live}, Reads liveOut (.resume k) live →
    Reads liveOut (.select arms k) (armsLive arms live)
  | [], _, _, _ => .empty _
  | .mk _ none body :: later, _, _, h =>
    ((reads_arms later h).through .mismatch).union ((reads_block body h).after .matched)
  | .mk _ (some guard) body :: later, _, _, h =>
    have hlater := reads_arms later h
    have hafter := ((reads_block body h).through .guardTrue).union
      ((hlater.through .guardFalse).union (h.fall .guard))
    (hlater.through .mismatch).union ((reads_block guard hafter).after .guarded)

end

theorem reads_frames : (k : List Frame) → Reads liveOut (.resume k) (liveAfter liveOut k)
  | [] => fun _ hx => .outside hx
  | .rest ss _ :: k => (reads_stmts ss (reads_frames k)).through .blockNext
  | .whileTest cond body :: k =>
    have htop := reads_whileBody (fun _ _ h => reads_block cond h) (fun _ _ h => reads_block body h) (reads_frames k)
    ((reads_block body htop).through .whileTrue).union ((reads_frames k).through .whileFalse)
  | .whileBody _ _ :: k => reads_whileBody (fun _ _ h => reads_block _ h) (fun _ _ h => reads_block _ h) (reads_frames k)
  | .forBody _ _ :: k => reads_forBody (fun _ _ h => reads_block _ h) (reads_frames k)
  | .guardTest body later :: k =>
    ((reads_block body (reads_frames k)).through .guardTrue).union
      (((reads_arms later (reads_frames k)).through .guardFalse).union ((reads_frames k).fall .guard))

theorem mem_live_iff {ss : List Stmt} {t : Option Atom} {k : List Frame} {x : Name} :
    x ∈ liveBefore ss t (liveAfter liveOut k) ↔ MayRead Fall liveOut (.run ss t k) x := by
  constructor
  · intro hx
    exact reads_stmts ss (reads_frames k) x hx
  · intro h
    exact live_of_mayRead h

end Complete

/-! ### The statements the analysis visits -/

/-- `analyze_block` on `B` against `liveOut` comes to the statements `ss` left of a block with tail `t`, inside the frames `k`, with `live` out of that block: the block itself, what is left behind a statement, and each nested block with the live-out it is analysed against. -/
inductive Analysed (B : Block) (liveOut : VarSet) : List Frame → VarSet → List Stmt → Option Atom → Prop where
  | top : Analysed B liveOut [] liveOut B.stmts B.tail
  | next {k live s ss t} (h : Analysed B liveOut k live (s :: ss) t) : Analysed B liveOut k live ss t
  | thenBlock {k live cond b e ss t} (h : Analysed B liveOut k live (.ite cond b e :: ss) t) :
      Analysed B liveOut (.rest ss t :: k) (liveBefore ss t live) b.stmts b.tail
  | elseBlock {k live cond b e ss t} (h : Analysed B liveOut k live (.ite cond b (some e) :: ss) t) :
      Analysed B liveOut (.rest ss t :: k) (liveBefore ss t live) e.stmts e.tail
  | whileBody {k live cond body ss t} (h : Analysed B liveOut k live (.whileDo cond body :: ss) t) :
      Analysed B liveOut (.whileBody cond body :: .rest ss t :: k) (whileLive (liveBefore ss t live) cond body)
        body.stmts body.tail
  | whileCond {k live cond body ss t} (h : Analysed B liveOut k live (.whileDo cond body :: ss) t) :
      Analysed B liveOut (.whileTest cond body :: .rest ss t :: k)
        (body.liveIn (whileLive (liveBefore ss t live) cond body) ∪ liveBefore ss t live) cond.stmts cond.tail
  | forBody {k live pattern iterable orderSlots body ss t}
      (h : Analysed B liveOut k live (.forIn pattern iterable orderSlots body :: ss) t) :
      Analysed B liveOut (.forBody pattern body :: .rest ss t :: k) (forLive (liveBefore ss t live) pattern body)
        body.stmts body.tail
  | armBody {k live scrutinee arms pattern guard body ss t}
      (h : Analysed B liveOut k live (.matchOn scrutinee arms :: ss) t) (harm : .mk pattern guard body ∈ arms) :
      Analysed B liveOut (.rest ss t :: k) (liveBefore ss t live) body.stmts body.tail
  | guard {k live scrutinee arms pattern guard body later ss t}
      (h : Analysed B liveOut k live (.matchOn scrutinee arms :: ss) t)
      (harm : .mk pattern (some guard) body :: later <:+ arms) :
      Analysed B liveOut (.guardTest body later :: .rest ss t :: k)
        (body.liveIn (liveBefore ss t live) ∪ (armsLive later (liveBefore ss t live) ∪ liveBefore ss t live))
        guard.stmts guard.tail
  | right {k live left right ss t} (h : Analysed B liveOut k live (.logical left right :: ss) t) :
      Analysed B liveOut (.rest ss t :: k) (liveBefore ss t live) right.stmts right.tail
  | fallback {k live value fallback ss t} (h : Analysed B liveOut k live (.coalesce value fallback :: ss) t) :
      Analysed B liveOut (.rest ss t :: k) (liveBefore ss t live) fallback.stmts fallback.tail

/-- At each statement, the live set contains every variable some execution from there may read before binding it. -/
def CoversReads (B : Block) (liveOut : VarSet) : Prop :=
  ∀ k live s ss t, Analysed B liveOut k live (s :: ss) t →
    ∀ x, MayRead Jump liveOut (.run (s :: ss) t k) x → x ∈ liveBefore (s :: ss) t live

/-- At each `break` and `continue`, what may be read where it goes may also be read, with jumps falling through, from the statements behind it. -/
def JumpsCovered (B : Block) (liveOut : VarSet) : Prop :=
  ∀ k live s ss t, Analysed B liveOut k live (s :: ss) t → ∀ target, Jump (.run (s :: ss) t k) target →
    ∀ x, MayRead Jump liveOut target x → MayRead Fall liveOut (.run ss t k) x

section Visits

variable {B : Block} {liveOut : VarSet}

theorem Analysed.live_eq {k : List Frame} {live : VarSet} {ss : List Stmt} {t : Option Atom}
    (h : Analysed B liveOut k live ss t) : live = liveAfter liveOut k := by
  induction h with
  | top => rfl
  | next _ ih => exact ih
  | _ => simp_all [liveAfter]

/-- The frames around a block are those of statements the analysis visits. -/
inductive Entered (B : Block) (liveOut : VarSet) : List Frame → Prop where
  | nil : Entered B liveOut []
  | rest {k live ss t} (h : Analysed B liveOut k live ss t) : Entered B liveOut (.rest ss t :: k)
  | whileTest {k live cond body ss t} (h : Analysed B liveOut k live (.whileDo cond body :: ss) t) :
      Entered B liveOut (.whileTest cond body :: .rest ss t :: k)
  | whileBody {k live cond body ss t} (h : Analysed B liveOut k live (.whileDo cond body :: ss) t) :
      Entered B liveOut (.whileBody cond body :: .rest ss t :: k)
  | forBody {k live pattern iterable orderSlots body ss t}
      (h : Analysed B liveOut k live (.forIn pattern iterable orderSlots body :: ss) t) :
      Entered B liveOut (.forBody pattern body :: .rest ss t :: k)
  | guardTest {k live scrutinee arms pattern guard body later ss t}
      (h : Analysed B liveOut k live (.matchOn scrutinee arms :: ss) t)
      (harm : .mk pattern (some guard) body :: later <:+ arms) :
      Entered B liveOut (.guardTest body later :: .rest ss t :: k)

theorem Analysed.entered {k : List Frame} {live : VarSet} {ss : List Stmt} {t : Option Atom}
    (h : Analysed B liveOut k live ss t) : Entered B liveOut k := by
  induction h with
  | top => exact .nil
  | next _ ih => exact ih
  | thenBlock h _ => exact .rest h.next
  | elseBlock h _ => exact .rest h.next
  | whileBody h _ => exact .whileBody h
  | whileCond h _ => exact .whileTest h
  | forBody h _ => exact .forBody h
  | armBody h _ _ => exact .rest h.next
  | guard h harm _ => exact .guardTest h harm
  | right h _ => exact .rest h.next
  | fallback h _ => exact .rest h.next

theorem Entered.tail {f : Frame} {k : List Frame} (h : Entered B liveOut (f :: k)) : Entered B liveOut k := by
  cases h with
  | rest h => exact h.entered
  | whileTest h => exact .rest h.next
  | whileBody h => exact .rest h.next
  | forBody h => exact .rest h.next
  | guardTest h _ => exact .rest h.next

/-- A point inside the block the analysis was called on. -/
def Placed (B : Block) (liveOut : VarSet) : Point → Prop
  | .run ss t k => ∃ live, Analysed B liveOut k live ss t
  | .resume k => Entered B liveOut k
  | .select arms k => ∃ k' live scrutinee all ss t, k = .rest ss t :: k' ∧ arms <:+ all ∧
      Analysed B liveOut k' live (.matchOn scrutinee all :: ss) t
  | .halt => True

theorem Edge.placed {p q : Point} {reads binds : VarSet} (hedge : Edge p reads binds q)
    (h : Placed B liveOut p) : Placed B liveOut q := by
  cases hedge with
  | blockEnd =>
    obtain ⟨_, h⟩ := h
    exact h.entered
  | blockNext =>
    cases h with
    | rest h => exact ⟨_, h⟩
  | iteThen =>
    obtain ⟨_, h⟩ := h
    exact ⟨_, h.thenBlock⟩
  | iteElse =>
    obtain ⟨_, h⟩ := h
    exact ⟨_, h.elseBlock⟩
  | whileEnter =>
    obtain ⟨_, h⟩ := h
    exact ⟨_, h.whileCond⟩
  | whileTrue =>
    cases h with
    | whileTest h => exact ⟨_, h.whileBody⟩
  | whileFalse => exact h.tail
  | whileAgain =>
    cases h with
    | whileBody h => exact ⟨_, h.whileCond⟩
  | forEnter =>
    obtain ⟨_, h⟩ := h
    exact .forBody h
  | forNext =>
    cases h with
    | forBody h => exact ⟨_, h.forBody⟩
  | forEnd => exact h.tail
  | matchEnter =>
    obtain ⟨live, h⟩ := h
    exact ⟨_, live, _, _, _, _, rfl, List.suffix_refl _, h⟩
  | mismatch =>
    obtain ⟨k', live, scrutinee, all, ss, t, rfl, hsuffix, h⟩ := h
    exact ⟨k', live, scrutinee, all, ss, t, rfl, (List.suffix_cons _ _).trans hsuffix, h⟩
  | matched =>
    obtain ⟨k', live, scrutinee, all, ss, t, rfl, hsuffix, h⟩ := h
    exact ⟨_, h.armBody (hsuffix.subset List.mem_cons_self)⟩
  | guarded =>
    obtain ⟨k', live, scrutinee, all, ss, t, rfl, hsuffix, h⟩ := h
    exact ⟨_, h.guard hsuffix⟩
  | guardTrue =>
    cases h with
    | guardTest h harm => exact ⟨_, h.armBody (harm.subset List.mem_cons_self)⟩
  | guardFalse =>
    cases h with
    | guardTest h harm => exact ⟨_, _, _, _, _, _, rfl, (List.suffix_cons _ _).trans harm, h⟩
  | logicalRight =>
    obtain ⟨_, h⟩ := h
    exact ⟨_, h.right⟩
  | coalesceFallback =>
    obtain ⟨_, h⟩ := h
    exact ⟨_, h.fallback⟩
  | letPropagate => trivial
  | evalPropagate => trivial
  | ret => trivial
  | _ =>
    obtain ⟨_, h⟩ := h
    exact ⟨_, h.next⟩

end Visits

theorem live_of_mayRead_jump {B : Block} {liveOut : VarSet} (hjumps : JumpsCovered B liveOut) {p : Point} {x : Name}
    (h : MayRead Jump liveOut p x) (hplaced : Placed B liveOut p) : x ∈ p.live liveOut := by
  induction h with
  | outside hx => exact hx
  | here hedge hx => exact (hedge.live liveOut).1 hx
  | later hedge hbinds _ ih => exact (hedge.live liveOut).2 _ (ih (hedge.placed hplaced)) hbinds
  | along hjump h ih =>
    -- a jump: the live set there is that of the statements behind it
    cases hjump with
    | brk hloop =>
      obtain ⟨live, hvisit⟩ := hplaced
      exact live_of_mayRead (.along .brk (hjumps _ _ _ _ _ hvisit _ (.brk hloop) _ h))
    | cont hloop =>
      obtain ⟨live, hvisit⟩ := hplaced
      exact live_of_mayRead (.along .cont (hjumps _ _ _ _ _ hvisit _ (.cont hloop) _ h))

/-- The analysis covers what executions may read exactly if, at every jump, what may be read where it goes may be read where the analysis has it fall through to. -/
theorem coversReads_iff (B : Block) (liveOut : VarSet) : CoversReads B liveOut ↔ JumpsCovered B liveOut := by
  constructor
  · intro hcovers k live s ss t hvisit target hjump x hx
    have hlive := hcovers k live s ss t hvisit x (.along hjump hx)
    rw [hvisit.live_eq] at hlive
    apply mem_live_iff.mp
    cases hjump with
    | brk _ => exact hlive
    | cont _ => exact hlive
  · intro hjumps k live s ss t hvisit x hx
    rw [hvisit.live_eq]
    exact live_of_mayRead_jump hjumps hx ⟨live, hvisit⟩

/-! ### A value kept over a `break` -/

/-- `x = 7; break` under a test, in a `while` whose body goes on with `x = 5`. -/
def breakKeepsBody : Block :=
  .mk [.ite (.var "d") (.mk [.bind "x" ⟨0, 0⟩ .const, .brk] none) none, .bind "x" ⟨0, 0⟩ .const] none

/-- `mut x = 1; while c { if d { x = 7; break }; x = 5 }; echo x`. -/
def breakKeeps : Block :=
  .mk [.bind "x" ⟨0, 0⟩ .const, .whileDo (.mk [] (some (.var "c"))) breakKeepsBody, .echo (.var "x")] none

/-- At the `break` the analysis has `x` dead, because the statement behind the `if` binds it; the `break` goes to the `echo`. -/
theorem breakKeeps_not_covered : ¬ CoversReads breakKeeps ∅ := by
  intro hcovers
  have htop : Analysed breakKeeps ∅ [] ∅ breakKeeps.stmts none := .top
  have hbreak := htop.next.whileBody.thenBlock.next
  have hread : MayRead Jump ∅ (.run [.brk] none [.rest [.bind "x" ⟨0, 0⟩ .const] none,
      .whileBody (.mk [] (some (.var "c"))) breakKeepsBody, .rest [.echo (.var "x")] none]) "x" := by
    apply MayRead.along (.brk rfl)
    apply MayRead.later .blockNext (Finset.notMem_empty _)
    exact .here .echo (Finset.mem_singleton_self _)
  have hlive := hcovers _ _ _ _ _ hbreak "x" hread
  simp [atomUses?, Atom.uses] at hlive

end Noeta.Ir
