import Noeta.Check.Constructors

/-!
# What a provable constructor returns

A run that leaves an accepted function through a `return` statement outside every `match` arm hands
back a literal of the type, evaluated last, so an object this very call allocated. The pass does not
look into expressions, and the block of an arm can stand in any of them: what such a `return` hands
back, or a `?`, is not restricted by it.
-/

namespace Noeta.Check

variable {frame : Nat} {ret : Option String} {typeName : String}

/-- A target-typed `.{ … }`. -/
def Expr.Elided : Expr → Prop
  | .object none _ _ => True
  | _ => False

/-- The exit is through a `return` of a bare literal of the type; where the literal is target-typed,
the declared return type is the type. -/
def Exit.OfLiteral (typeName : String) (ret : Option String) : Exit → Prop
  | .ret (some e) _ => isFreshLiteral typeName e = true ∧ (e.Elided → ret = some typeName)
  | _ => False

/-! ### Objects stay where they are -/

theorem Grows.grown {h h' : Heap} (hg : Grows frame h h') : h <+: h' := by
  obtain ⟨news, rfl, -⟩ := hg
  exact List.prefix_append h news

mutual

theorem Eval.grown {expected : Option String} {e : Expr} {h h' : Heap} {f : Flow} :
    Eval frame ret expected e h f h' → h <+: h'
  | .abrupt hall _ => hall.grown
  | .plain _ hall hgrows _ => hall.grown.trans hgrows.grown
  | .short _ hfirst _ => hfirst.grown
  | .propagate hrun => hrun.grown
  | .literal hall _ => hall.grown.trans (List.prefix_append _ _)
  | .copy hall _ => hall.grown.trans (List.prefix_append _ _)
  | .matchOn hall harms => hall.grown.trans harms.grown

theorem EvalAll.grown {es : List Expr} {h h' : Heap} {f : Flow} :
    EvalAll frame ret es h f h' → h <+: h'
  | .nil => List.prefix_rfl
  | .cons hfirst hrest => hfirst.grown.trans hrest.grown
  | .abrupt hfirst _ => hfirst.grown

theorem Arms.grown {arms : List Arm} {h h' : Heap} {f : Flow} :
    Arms frame ret arms h f h' → h <+: h'
  | .skip hrest => hrest.grown
  | .refused hguard hrest => hguard.grown.trans hrest.grown
  | .guardAbrupt hguard _ => hguard.grown
  | .taken hbody => hbody.grown
  | .guarded hguard hbody => hguard.grown.trans hbody.grown

theorem RunBody.grown {body : Body} {h h' : Heap} {f : Flow} :
    RunBody frame ret body h f h' → h <+: h'
  | .expr hrun => hrun.grown
  | .done hrun => hrun.grown
  | .abrupt hrun _ => hrun.grown

theorem Exec.grown {stmts : List Stmt} {h h' : Heap} {f : Flow} :
    Exec frame ret stmts h f h' → h <+: h'
  | .nil => List.prefix_rfl
  | .cons hfirst hrest => hfirst.grown.trans hrest.grown
  | .abrupt hfirst _ => hfirst.grown

theorem Step.grown {stmt : Stmt} {h h' : Heap} {f : Flow} :
    Step frame ret stmt h f h' → h <+: h'
  | .effect _ hrun => hrun.grown
  | .effectAbrupt _ hrun _ => hrun.grown
  | .retUnit => List.prefix_rfl
  | .ret hrun => hrun.grown
  | .retAbrupt hrun _ => hrun.grown
  | .condAbrupt hcond _ => hcond.grown
  | .iteThen hcond hthen => hcond.grown.trans hthen.grown
  | .iteElse hcond helse => hcond.grown.trans helse.grown
  | .iterAbrupt hiter _ => hiter.grown
  | .forIn hiter hloop => hiter.grown.trans hloop.grown
  | .whileDo hloop => hloop.grown
  | .concurrent hbody hgrows => hbody.grown.trans hgrows.grown
  | .tierBlock => List.prefix_rfl
  | .fn => List.prefix_rfl
  | .decl => List.prefix_rfl
  | .brk => List.prefix_rfl
  | .cont => List.prefix_rfl

theorem Loop.grown {cond : Option Expr} {body : List Stmt} {h h' : Heap} {f : Flow} :
    Loop frame ret cond body h f h' → h <+: h'
  | .stop hhead => hhead.grown
  | .condAbrupt hcond _ => hcond.grown
  | .brk hhead hbody => hhead.grown.trans hbody.grown
  | .returned hhead hbody => hhead.grown.trans hbody.grown
  | .again hhead hbody _ hrest => (hhead.grown.trans hbody.grown).trans hrest.grown

theorem Head.grown {cond : Option Expr} {h h' : Heap} : Head frame ret cond h h' → h <+: h'
  | .cond hrun => hrun.grown
  | .iter hgrows => hgrows.grown

end

theorem Own.later {h h' h'' : Heap} {v : Val} (hown : Own typeName frame h v h')
    (hext : h' <+: h'') : Own typeName frame h v h'' := by
  obtain ⟨id, rfl, hle, hget⟩ := hown
  obtain ⟨news, rfl⟩ := hext
  refine ⟨id, rfl, hle, ?_⟩
  rw [List.getElem?_append_left (List.getElem?_eq_some_iff.1 hget).1]
  exact hget

theorem Own.earlier {h h' h'' : Heap} {v : Val} (hown : Own typeName frame h' v h'')
    (hext : h <+: h') : Own typeName frame h v h'' := by
  obtain ⟨id, rfl, hle, hget⟩ := hown
  exact ⟨id, rfl, Nat.le_trans hext.length_le hle, hget⟩

theorem Own.ne {T U : String} {g : Nat} (hne : g ≠ frame) {h h' k k' : Heap} {v w : Val}
    (hv : Own T frame h v h') (hw : Own U g k w k') (hrun : h' <+: k' ∨ k' <+: h') : w ≠ v := by
  rintro rfl
  obtain ⟨latest, hlatest, hlatest'⟩ : ∃ latest, h' <+: latest ∧ k' <+: latest := by
    rcases hrun with hext | hext
    · exact ⟨k', hext, List.prefix_rfl⟩
    · exact ⟨h', List.prefix_rfl, hext⟩
  obtain ⟨id, rfl, -, hget⟩ := hv.later hlatest
  obtain ⟨id', heq, -, hget'⟩ := hw.later hlatest'
  obtain rfl : id = id' := by simpa using heq
  have := Option.some.inj (hget.symm.trans hget')
  exact hne (congrArg Alloc.frame this).symm

/-! ### An exit through a literal -/

/-- An exit through a literal of the type hands back an object of the frame. -/
def HandsOwn (typeName : String) (frame : Nat) (ret : Option String) (h : Heap) (f : Flow)
    (h' : Heap) : Prop :=
  ∀ exit v, f = .returned exit v → exit.OfLiteral typeName ret → Own typeName frame h v h'

theorem HandsOwn.earlier {h h' h'' : Heap} {f : Flow} (hp : HandsOwn typeName frame ret h' f h'')
    (hext : h <+: h') : HandsOwn typeName frame ret h f h'' :=
  fun exit v hf hexit => (hp exit v hf hexit).earlier hext

theorem HandsOwn.later {h h' h'' : Heap} {f : Flow} (hp : HandsOwn typeName frame ret h f h')
    (hext : h' <+: h'') : HandsOwn typeName frame ret h f h'' :=
  fun exit v hf hexit => (hp exit v hf hexit).later hext

theorem HandsOwn.of_not_returned {h h' : Heap} {f : Flow} (hf : ∀ exit v, f ≠ .returned exit v) :
    HandsOwn typeName frame ret h f h' :=
  fun exit v heq => absurd heq (hf exit v)

theorem HandsOwn.outOfArm {h h' : Heap} {f : Flow} (hp : HandsOwn typeName frame ret h f h') :
    HandsOwn typeName frame ret h f.outOfArm h' := by
  intro exit v hf hexit
  cases f with
  | returned exit' w =>
    cases exit' with
    | ret operand inArm =>
      rw [Flow.outOfArm] at hf
      cases hf
      apply hp _ _ rfl
      cases operand with
      | none => exact hexit
      | some e => exact hexit
    | propagated => exact hp _ _ hf hexit
  | _ => cases hf

theorem own_of_literal {e : Expr} {h h' : Heap} {v : Val}
    (hfresh : isFreshLiteral typeName e = true) (helided : e.Elided → ret = some typeName)
    (hrun : Eval frame ret ret e h (.value v) h') : Own typeName frame h v h' := by
  cases hrun with
  | abrupt _ habrupt => exact habrupt.elim
  | plain hplain =>
    cases e with
    | object name fields spread =>
      cases spread with
      | none => exact hplain.elim
      | some _ => simp [isFreshLiteral] at hfresh
    | _ => simp [isFreshLiteral] at hfresh
  | short => simp [isFreshLiteral] at hfresh
  | copy => simp [isFreshLiteral] at hfresh
  | matchOn => simp [isFreshLiteral] at hfresh
  | @literal _ name fields _ before type hall htype =>
    have hname : type = typeName := by
      cases name with
      | none => exact htype typeName (helided trivial)
      | some name =>
        have : name = typeName := by simpa [isFreshLiteral] using hfresh
        rw [← this]
        exact htype
    refine ⟨before.length, rfl, hall.grown.length_le, ?_⟩
    rw [hname, List.getElem?_concat_length]

mutual

theorem Eval.handsOwn {expected : Option String} {e : Expr} {h h' : Heap} {f : Flow} :
    Eval frame ret expected e h f h' → HandsOwn typeName frame ret h f h'
  | .abrupt hall _ => hall.handsOwn
  | .plain _ _ _ _ => .of_not_returned (by simp)
  | .short _ _ _ => .of_not_returned (by simp)
  | .propagate _ => by
    intro exit v hf hexit
    cases hf
    exact hexit.elim
  | .literal _ _ => .of_not_returned (by simp)
  | .copy _ _ => .of_not_returned (by simp)
  | .matchOn hall harms => harms.handsOwn.earlier hall.grown

theorem EvalAll.handsOwn {es : List Expr} {h h' : Heap} {f : Flow} :
    EvalAll frame ret es h f h' → HandsOwn typeName frame ret h f h'
  | .nil => .of_not_returned (by simp)
  | .cons hfirst hrest => hrest.handsOwn.earlier hfirst.grown
  | .abrupt hfirst _ => hfirst.handsOwn

theorem Arms.handsOwn {arms : List Arm} {h h' : Heap} {f : Flow} :
    Arms frame ret arms h f h' → HandsOwn typeName frame ret h f h'
  | .skip hrest => hrest.handsOwn
  | .refused hguard hrest => hrest.handsOwn.earlier hguard.grown
  | .guardAbrupt hguard _ => hguard.handsOwn.outOfArm
  | .taken hbody => hbody.handsOwn.outOfArm
  | .guarded hguard hbody => hbody.handsOwn.outOfArm.earlier hguard.grown

theorem RunBody.handsOwn {body : Body} {h h' : Heap} {f : Flow} :
    RunBody frame ret body h f h' → HandsOwn typeName frame ret h f h'
  | .expr hrun => hrun.handsOwn
  | .done _ => .of_not_returned (by simp)
  | .abrupt hrun _ => hrun.handsOwn

theorem Exec.handsOwn {stmts : List Stmt} {h h' : Heap} {f : Flow} :
    Exec frame ret stmts h f h' → HandsOwn typeName frame ret h f h'
  | .nil => .of_not_returned (by simp)
  | .cons hfirst hrest => hrest.handsOwn.earlier hfirst.grown
  | .abrupt hfirst _ => hfirst.handsOwn

theorem Step.handsOwn {stmt : Stmt} {h h' : Heap} {f : Flow} :
    Step frame ret stmt h f h' → HandsOwn typeName frame ret h f h'
  | .effect _ _ => .of_not_returned (by simp)
  | .effectAbrupt _ hrun _ => hrun.handsOwn
  | .retUnit => by
    intro exit v hf hexit
    cases hf
    exact hexit.elim
  | .ret hrun => by
    intro exit v hf hexit
    cases hf
    exact own_of_literal hexit.1 hexit.2 hrun
  | .retAbrupt hrun _ => hrun.handsOwn
  | .condAbrupt hcond _ => hcond.handsOwn
  | .iteThen hcond hthen => hthen.handsOwn.earlier hcond.grown
  | .iteElse hcond helse => helse.handsOwn.earlier hcond.grown
  | .iterAbrupt hiter _ => hiter.handsOwn
  | .forIn hiter hloop => hloop.handsOwn.earlier hiter.grown
  | .whileDo hloop => hloop.handsOwn
  | .concurrent hbody hgrows => hbody.handsOwn.later hgrows.grown
  | .tierBlock => .of_not_returned (by simp)
  | .fn => .of_not_returned (by simp)
  | .decl => .of_not_returned (by simp)
  | .brk => .of_not_returned (by simp)
  | .cont => .of_not_returned (by simp)

theorem Loop.handsOwn {cond : Option Expr} {body : List Stmt} {h h' : Heap} {f : Flow} :
    Loop frame ret cond body h f h' → HandsOwn typeName frame ret h f h'
  | .stop _ => .of_not_returned (by simp)
  | .condAbrupt hcond _ => hcond.handsOwn
  | .brk _ _ => .of_not_returned (by simp)
  | .returned hhead hbody => hbody.handsOwn.earlier hhead.grown
  | .again hhead hbody _ hrest => hrest.handsOwn.earlier (hhead.grown.trans hbody.grown)

end

/-! ### What the pass sees -/

/-- An exit of an expression is through an arm or a `?`. -/
def Flow.Inside : Flow → Prop
  | .returned (.ret _ inArm) _ => inArm = true
  | _ => True

theorem Flow.inside_outOfArm (f : Flow) : f.outOfArm.Inside := by
  cases f with
  | returned exit v =>
    cases exit with
    | ret operand inArm => rfl
    | propagated => trivial
  | _ => trivial

mutual

theorem Eval.inside {expected : Option String} {e : Expr} {h h' : Heap} {f : Flow} :
    Eval frame ret expected e h f h' → f.Inside
  | .abrupt hall _ => hall.inside
  | .plain _ _ _ _ => trivial
  | .short _ _ _ => trivial
  | .propagate _ => trivial
  | .literal _ _ => trivial
  | .copy _ _ => trivial
  | .matchOn _ harms => harms.inside

theorem EvalAll.inside {es : List Expr} {h h' : Heap} {f : Flow} :
    EvalAll frame ret es h f h' → f.Inside
  | .nil => trivial
  | .cons _ hrest => hrest.inside
  | .abrupt hfirst _ => hfirst.inside

theorem Arms.inside {arms : List Arm} {h h' : Heap} {f : Flow} :
    Arms frame ret arms h f h' → f.Inside
  | .skip hrest => hrest.inside
  | .refused _ hrest => hrest.inside
  | .guardAbrupt _ _ => Flow.inside_outOfArm _
  | .taken _ => Flow.inside_outOfArm _
  | .guarded _ _ => Flow.inside_outOfArm _

end

/-- A `return` outside every arm is of a bare literal of the type. -/
def Flow.Checked (typeName : String) (f : Flow) : Prop :=
  ∀ operand v, f = .returned (.ret operand false) v →
    ∃ e, operand = some e ∧ isFreshLiteral typeName e = true

theorem Flow.Inside.checked {f : Flow} (hf : f.Inside) : f.Checked typeName := by
  rintro operand v rfl
  cases hf

mutual

theorem Exec.checked {stmts : List Stmt} {n m : Nat} {h h' : Heap} {f : Flow}
    (haccept : allReturnsFresh typeName stmts n = some m) :
    Exec frame ret stmts h f h' → f.Checked typeName
  | .nil => by
    intro operand v hf
    cases hf
  | .cons _ hrest => by
    rw [allReturnsFresh] at haccept
    obtain ⟨k, -, hk⟩ := Option.bind_eq_some_iff.1 haccept
    exact hrest.checked hk
  | .abrupt hfirst _ => by
    rw [allReturnsFresh] at haccept
    obtain ⟨k, hk, -⟩ := Option.bind_eq_some_iff.1 haccept
    exact hfirst.checked hk

theorem Step.checked {stmt : Stmt} {n m : Nat} {h h' : Heap} {f : Flow}
    (haccept : stmtReturnsFresh typeName stmt n = some m) :
    Step frame ret stmt h f h' → f.Checked typeName
  | .effect _ _ => by
    intro operand v hf
    cases hf
  | .effectAbrupt _ hrun _ => hrun.inside.checked
  | .retUnit => by simp [stmtReturnsFresh] at haccept
  | .ret _ => by
    intro operand v hf
    cases hf
    refine ⟨_, rfl, ?_⟩
    by_contra hnot
    simp [stmtReturnsFresh, hnot] at haccept
  | .retAbrupt hrun _ => hrun.inside.checked
  | .condAbrupt hcond _ => hcond.inside.checked
  | .iteThen _ hthen => by
    rw [stmtReturnsFresh] at haccept
    obtain ⟨k, hk, -⟩ := Option.bind_eq_some_iff.1 haccept
    exact hthen.checked hk
  | .iteElse _ helse => by
    rw [stmtReturnsFresh] at haccept
    obtain ⟨k, -, hk⟩ := Option.bind_eq_some_iff.1 haccept
    exact helse.checked hk
  | .iterAbrupt hiter _ => hiter.inside.checked
  | .forIn _ hloop => by
    rw [stmtReturnsFresh] at haccept
    exact hloop.checked haccept
  | .whileDo hloop => by
    rw [stmtReturnsFresh] at haccept
    exact hloop.checked haccept
  | .concurrent hbody _ => by
    rw [stmtReturnsFresh] at haccept
    exact hbody.checked haccept
  | .tierBlock => by
    intro operand v hf
    cases hf
  | .fn => by
    intro operand v hf
    cases hf
  | .decl => by
    intro operand v hf
    cases hf
  | .brk => by
    intro operand v hf
    cases hf
  | .cont => by
    intro operand v hf
    cases hf

theorem Loop.checked {cond : Option Expr} {body : List Stmt} {n m : Nat} {h h' : Heap} {f : Flow}
    (haccept : allReturnsFresh typeName body n = some m) :
    Loop frame ret cond body h f h' → f.Checked typeName
  | .stop _ => by
    intro operand v hf
    cases hf
  | .condAbrupt hcond _ => hcond.inside.checked
  | .brk _ _ => by
    intro operand v hf
    cases hf
  | .returned _ hbody => hbody.checked haccept
  | .again _ _ _ hrest => hrest.checked haccept

end

/-! ### A provable constructor -/

/-- The exit does not go through a `?`, and a `return` in an arm is of a bare literal of the type as
well; where the literal is target-typed, the declared return type is the type. -/
def Exit.AsChecked (typeName : String) (ret : Option String) : Exit → Prop
  | .ret operand inArm =>
    (inArm = true → ∃ e, operand = some e ∧ isFreshLiteral typeName e = true) ∧
      ∀ e, operand = some e → e.Elided → ret = some typeName
  | .propagated => False

theorem allReturnsFresh_of_accepted {method : FnDecl}
    (haccept : isFreshConstructor typeName method = true) :
    ∃ returns, allReturnsFresh typeName method.body 0 = some returns := by
  rw [isFreshConstructor, Bool.and_eq_true] at haccept
  cases hreturns : allReturnsFresh typeName method.body 0 with
  | none => simp [hreturns] at haccept
  | some returns => exact ⟨returns, rfl⟩

theorem ofLiteral_of_asChecked {method : FnDecl} {before after : Heap} {exit : Exit} {v : Val}
    (haccept : isFreshConstructor typeName method = true)
    (hrun : Returns method frame before exit v after)
    (hexit : exit.AsChecked typeName method.retName) : exit.OfLiteral typeName method.retName := by
  obtain ⟨returns, hreturns⟩ := allReturnsFresh_of_accepted haccept
  cases exit with
  | propagated => exact hexit.elim
  | ret operand inArm =>
    obtain ⟨e, rfl, hfresh⟩ : ∃ e, operand = some e ∧ isFreshLiteral typeName e = true := by
      cases inArm with
      | true => exact hexit.1 rfl
      | false => exact hrun.checked hreturns operand v rfl
    exact ⟨hfresh, hexit.2 e rfl⟩

/-- `fn new(tbl: string): Repo<T> { return Repo { tbl: tbl }; }`. -/
def repoNew : FnDecl :=
  .mk "new" [] [some (.named "string" [])] [] (some (.named "Repo" [.named "T" []])) false false
    [.ret (some (.object (some "Repo") [.mk "tbl" (.ident "tbl")] none))]

theorem repoNew_returns (frame : Nat) (before : Heap) :
    Returns repoNew frame before
      (.ret (some (.object (some "Repo") [.mk "tbl" (.ident "tbl")] none)) false)
      (.object before.length) (before ++ [⟨frame, "Repo"⟩]) := by
  have hgrows : Grows frame before before := ⟨[], by simp, by simp⟩
  have hident : Eval frame repoNew.retName none (.ident "tbl") before (.value .other) before :=
    .plain trivial .nil hgrows trivial
  exact .abrupt (.ret (.literal (.cons hident .nil) rfl)) trivial

/-- A function with a cached instance in the block of an arm:
`hit = match cache { some(c) => { return c; }, none => 0 }; return Repo { };`. -/
def repoShared : FnDecl :=
  .mk "shared" [] [] [] (some (.named "Repo" [.named "T" []])) false false
    [.binding "hit" none (.matchOn (.ident "cache")
      [.mk none (.block [.ret (some (.ident "c"))]), .mk none (.expr .leaf)]),
      .ret (some (.object (some "Repo") [] none))]

theorem repoShared_returns :
    Returns repoShared 1 [⟨0, "Repo"⟩] (.ret (some (.ident "c")) true) (.object 0)
      [⟨0, "Repo"⟩] := by
  have hgrows : Grows 1 [⟨0, "Repo"⟩] [⟨0, "Repo"⟩] := ⟨[], by simp, by simp⟩
  have hcache : Eval 1 repoShared.retName none (.ident "cache") [⟨0, "Repo"⟩] (.value .other)
      [⟨0, "Repo"⟩] :=
    .plain trivial .nil hgrows trivial
  have hret : Step 1 repoShared.retName (.ret (some (.ident "c"))) [⟨0, "Repo"⟩]
      (.returned (.ret (some (.ident "c")) false) (.object 0)) [⟨0, "Repo"⟩] :=
    .ret (.plain trivial .nil hgrows (by simp [Val.Known]))
  have harms : Arms 1 repoShared.retName
      [.mk none (.block [.ret (some (.ident "c"))]), .mk none (.expr .leaf)] [⟨0, "Repo"⟩]
      (.returned (.ret (some (.ident "c")) true) (.object 0)) [⟨0, "Repo"⟩] :=
    .taken (.abrupt (.abrupt hret trivial) trivial)
  exact .abrupt (.effectAbrupt rfl (.matchOn (.cons hcache .nil) harms) trivial) trivial

end Noeta.Check
