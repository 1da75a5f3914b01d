import Noeta.Ir.Drops

/-!
# What is dropped in a function

The drops of a rewritten body are of owned locals bound in it and of single-assignment locals last used by one of its straight-line statements, and each of the latter is dropped. So the drops of a parameter can be told from the function alone.
-/

namespace Noeta.Ir

/-! ### The child blocks of a statement -/

def Arm.blocks : Arm → List Block
  | .mk _ none body => [body]
  | .mk _ (some guard) body => [guard, body]

/-- `for_each_child_block`. -/
def Stmt.blocks : Stmt → List Block
  | .ite _ thenBlock none => [thenBlock]
  | .ite _ thenBlock (some elseBlock) => [thenBlock, elseBlock]
  | .whileDo cond body => [cond, body]
  | .forIn _ _ _ body => [body]
  | .matchOn _ arms => arms.flatMap Arm.blocks
  | .logical _ right => [right]
  | .coalesce _ fallback => [fallback]
  | _ => []

theorem armsStatements_eq (arms : List Arm) :
    armsStatements arms = (arms.flatMap Arm.blocks).flatMap Block.statements := by
  induction arms with
  | nil => rfl
  | cons arm arms ih =>
    obtain ⟨pattern, guard, body⟩ := arm
    cases guard <;> simp [armsStatements, Arm.statements, Arm.blocks, ih]

theorem Stmt.statements_eq (s : Stmt) : s.statements = s :: s.blocks.flatMap Block.statements := by
  cases s with
  | ite cond thenBlock elseBlock => cases elseBlock <;> simp [Stmt.statements, Stmt.blocks]
  | matchOn scrutinee arms => rw [Stmt.statements, armsStatements_eq, Stmt.blocks]
  | _ => simp [Stmt.statements, Stmt.blocks]

variable {b : Block} {s : Stmt} {d : Name × Bool} {name : Name} {func : Func} {cx : Cx}

theorem sizeOf_armsBlocks {arms : List Arm} (hb : b ∈ arms.flatMap Arm.blocks) : sizeOf b < sizeOf arms := by
  obtain ⟨⟨pattern, guard, body⟩, harm, hb⟩ := List.mem_flatMap.mp hb
  apply lt_trans _ (List.sizeOf_lt_of_mem harm)
  rcases guard with _ | guard <;> simp only [Arm.blocks, List.mem_cons, List.not_mem_nil, or_false] at hb
  · simp [hb]
  · rcases hb with rfl | rfl <;> simp <;> omega

theorem Stmt.sizeOf_blocks (hb : b ∈ s.blocks) : sizeOf b < sizeOf s := by
  cases s with
  | matchOn scrutinee arms =>
    have h := sizeOf_armsBlocks hb
    rw [Stmt.matchOn.sizeOf_spec]
    omega
  | ite cond thenBlock elseBlock =>
    rcases elseBlock with _ | elseBlock <;> simp only [Stmt.blocks, List.mem_cons, List.not_mem_nil, or_false] at hb
    · simp [hb]
    · rcases hb with rfl | rfl <;> (simp; omega)
  | whileDo cond body =>
    simp only [Stmt.blocks, List.mem_cons, List.not_mem_nil, or_false] at hb
    rcases hb with rfl | rfl <;> simp <;> omega
  | _ => simp [Stmt.blocks] at hb <;> simp [hb]

/-- Induction over a block and the blocks in its statements. -/
theorem Block.inBody {P : Block → Prop} (step : ∀ ss t, (∀ s ∈ ss, ∀ b ∈ s.blocks, P b) → P (.mk ss t))
    (b : Block) : P b := by
  obtain ⟨ss, t⟩ := b
  exact step ss t fun s _hs b _hb => Block.inBody step b
termination_by sizeOf b
decreasing_by
  have h := List.sizeOf_lt_of_mem _hs
  have h' := Stmt.sizeOf_blocks _hb
  rw [Block.mk.sizeOf_spec]
  omega

/-! ### The drops of a body and the functions in it -/

/-- The drops a statement stands for, without those of its child blocks. -/
def Stmt.dropsHere : Stmt → List (Name × Bool)
  | .dropVar name relevant => [(name, relevant)]
  | .letTemp _ (.tryProp _ onError) => onError
  | .eval (.tryProp _ onError) => onError
  | _ => []

/-- The functions a statement holds, without those of its child blocks. -/
def Stmt.funcsHere : Stmt → List Func
  | .letTemp _ (.closure func) => [func]
  | .eval (.closure func) => [func]
  | .declFn _ func => [func]
  | .declClass methods none => methods
  | .declClass methods (some destructor) => methods ++ [destructor]
  | .declStruct methods => methods
  | .declEnum methods => methods
  | _ => []

def dropsIn (ss : List Stmt) : List (Name × Bool) := (stmtsStatements ss).flatMap Stmt.dropsHere

def funcsIn (ss : List Stmt) : List Func := (stmtsStatements ss).flatMap Stmt.funcsHere

def Block.ownDrops (b : Block) : List (Name × Bool) := b.statements.flatMap Stmt.dropsHere

def Block.ownFuncs (b : Block) : List Func := b.statements.flatMap Stmt.funcsHere

def Stmt.ownDrops (s : Stmt) : List (Name × Bool) := s.statements.flatMap Stmt.dropsHere

def Stmt.ownFuncs (s : Stmt) : List Func := s.statements.flatMap Stmt.funcsHere

theorem stmtsStatements_append (ss ss' : List Stmt) :
    stmtsStatements (ss ++ ss') = stmtsStatements ss ++ stmtsStatements ss' := by
  induction ss with
  | nil => rfl
  | cons s ss ih => rw [List.cons_append, stmtsStatements, stmtsStatements, ih, List.append_assoc]

@[simp] theorem dropsIn_nil : dropsIn [] = [] := rfl

@[simp] theorem dropsIn_cons (s : Stmt) (ss : List Stmt) : dropsIn (s :: ss) = s.ownDrops ++ dropsIn ss :=
  List.flatMap_append

@[simp] theorem dropsIn_append (ss ss' : List Stmt) : dropsIn (ss ++ ss') = dropsIn ss ++ dropsIn ss' := by
  rw [dropsIn, stmtsStatements_append, List.flatMap_append]
  rfl

@[simp] theorem funcsIn_nil : funcsIn [] = [] := rfl

@[simp] theorem funcsIn_cons (s : Stmt) (ss : List Stmt) : funcsIn (s :: ss) = s.ownFuncs ++ funcsIn ss :=
  List.flatMap_append

@[simp] theorem funcsIn_append (ss ss' : List Stmt) : funcsIn (ss ++ ss') = funcsIn ss ++ funcsIn ss' := by
  rw [funcsIn, stmtsStatements_append, List.flatMap_append]
  rfl

@[simp] theorem ownDrops_mk (ss : List Stmt) (t : Option Atom) : (Block.mk ss t).ownDrops = dropsIn ss := rfl

@[simp] theorem ownFuncs_mk (ss : List Stmt) (t : Option Atom) : (Block.mk ss t).ownFuncs = funcsIn ss := rfl

@[simp] theorem dropsIn_dropStmts (drops : List (Name × Bool)) : dropsIn (dropStmts drops) = drops := by
  induction drops with
  | nil => rfl
  | cons d drops ih => rw [dropStmts, List.map_cons, dropsIn_cons, ← dropStmts, ih]; rfl

@[simp] theorem funcsIn_dropStmts (drops : List (Name × Bool)) : funcsIn (dropStmts drops) = [] := by
  induction drops with
  | nil => rfl
  | cons d drops ih => rw [dropStmts, List.map_cons, funcsIn_cons, ← dropStmts, ih]; rfl

theorem Stmt.ownDrops_eq (s : Stmt) : s.ownDrops = s.dropsHere ++ s.blocks.flatMap Block.ownDrops := by
  rw [Stmt.ownDrops, Stmt.statements_eq, List.flatMap_cons, List.flatMap_assoc]
  rfl

theorem Stmt.ownFuncs_eq (s : Stmt) : s.ownFuncs = s.funcsHere ++ s.blocks.flatMap Block.ownFuncs := by
  rw [Stmt.ownFuncs, Stmt.statements_eq, List.flatMap_cons, List.flatMap_assoc]
  rfl

/-! ### Merging adjacent drops -/

theorem mem_dropsIn_of_dedup {ss : List Stmt} {last : Option Name}
    (h : d ∈ dropsIn (dedupDrops last ss)) : d ∈ dropsIn ss := by
  fun_induction dedupDrops last ss with
  | case1 => exact h
  | case2 name relevant ss ih =>
    rw [dropsIn_cons]
    exact List.mem_append_right _ (ih h)
  | case3 last name relevant ss hne ih =>
    rw [dropsIn_cons] at h ⊢
    rcases List.mem_append.mp h with h | h
    · exact List.mem_append_left _ h
    · exact List.mem_append_right _ (ih h)
  | case4 last s ss hs ih =>
    rw [dropsIn_cons] at h ⊢
    rcases List.mem_append.mp h with h | h
    · exact List.mem_append_left _ h
    · exact List.mem_append_right _ (ih h)

theorem dropped_of_dedup {ss : List Stmt} {last : Option Name}
    (h : name ∈ (dropsIn ss).map Prod.fst) : name ∈ (dropsIn (dedupDrops last ss)).map Prod.fst ∨ last = some name := by
  fun_induction dedupDrops last ss with
  | case1 => exact .inl h
  | case2 name' relevant ss ih =>
    rw [dropsIn_cons, List.map_append, List.mem_append] at h
    rcases h with h | h
    · exact .inr (congrArg some (List.mem_singleton.mp h).symm)
    · exact ih h
  | case3 last name' relevant ss hne ih =>
    rw [dropsIn_cons, List.map_append, List.mem_append] at h ⊢
    rcases h with h | h
    · exact .inl (.inl h)
    · rcases ih h with h | h
      · exact .inl (.inr h)
      · cases h
        exact .inl (.inl (List.mem_singleton.mpr rfl))
  | case4 last s ss hs ih =>
    rw [dropsIn_cons, List.map_append, List.mem_append] at h ⊢
    rcases h with h | h
    · exact .inl (.inl h)
    · rcases ih h with h | h
      · exact .inl (.inr h)
      · cases h

theorem funcsIn_dedupDrops (ss : List Stmt) (last : Option Name) : funcsIn (dedupDrops last ss) = funcsIn ss := by
  fun_induction dedupDrops last ss with
  | case1 => rfl
  | case2 name relevant ss ih =>
    rw [ih, funcsIn_cons]
    rfl
  | case3 last name relevant ss hne ih => rw [funcsIn_cons, funcsIn_cons, ih]
  | case4 last s ss hs ih => rw [funcsIn_cons, funcsIn_cons, ih]

/-! ### Exit drops come from the frames -/

theorem mem_frameDrops {frame : ScopeFrame} {movedOut seen : VarSet} {constructed : List (Name × Bool)}
    (h : d ∈ (frameDrops frame movedOut constructed seen).1) : d ∈ constructed := by
  fun_induction frameDrops frame movedOut constructed seen with
  | case1 => exact h
  | case2 name relevant rest seen hskip ih => exact List.mem_cons_of_mem _ (ih h)
  | case3 name relevant rest seen hskip drops seen' heq ih =>
    rcases List.mem_cons.mp h with rfl | h
    · exact List.mem_cons_self
    · rw [heq] at ih
      exact List.mem_cons_of_mem _ (ih h)

theorem mem_framesDrops {kind : ExitKind} {movedOut seen : VarSet} {scopes : List ScopeFrame}
    (h : d ∈ framesDrops kind movedOut scopes seen) : ∃ frame ∈ scopes, d ∈ frame.constructed := by
  induction scopes generalizing seen with
  | nil => cases h
  | cons frame scopes ih =>
    have hhead : d ∈ (frameDrops frame movedOut frame.constructed.reverse seen).1 → d ∈ frame.constructed := fun hd =>
      List.mem_reverse.mp (mem_frameDrops hd)
    simp only [framesDrops] at h
    split at h
    · exact ⟨frame, List.mem_cons_self, hhead h⟩
    · rcases List.mem_append.mp h with h | h
      · exact ⟨frame, List.mem_cons_self, hhead h⟩
      · obtain ⟨frame', hmem, hd⟩ := ih h
        exact ⟨frame', List.mem_cons_of_mem _ hmem, hd⟩

theorem mem_exitDrops {scopes : List ScopeFrame} (h : d ∈ dropsIn (exitDrops scopes s)) :
    ∃ frame ∈ scopes, d ∈ frame.constructed := by
  unfold exitDrops at h
  split at h
  · rw [dropsIn_dropStmts] at h
    exact mem_framesDrops h
  · rw [dropsIn_dropStmts] at h
    exact mem_framesDrops h
  · rw [dropsIn_dropStmts] at h
    exact mem_framesDrops h
  · cases h

theorem funcsIn_exitDrops (scopes : List ScopeFrame) (s : Stmt) : funcsIn (exitDrops scopes s) = [] := by
  unfold exitDrops
  split <;> simp

/-! ### Last uses -/

mutual

/-- The variables last used by a straight-line statement of the body. -/
def Block.lastUses : Block → BlockLiveness → VarSet
  | .mk stmts _, live => stmtsLastUses stmts live.stmts

def stmtsLastUses : List Stmt → List StmtLiveness → VarSet
  | stmt :: stmts, sl :: sls => stmt.lastUses sl ∪ stmtsLastUses stmts sls
  | _, _ => ∅

def Stmt.lastUses : Stmt → StmtLiveness → VarSet
  | .ite _ thenBlock none, sl => thenBlock.lastUses (sl.sub.getD 0 default)
  | .ite _ thenBlock (some elseBlock), sl =>
    thenBlock.lastUses (sl.sub.getD 0 default) ∪ elseBlock.lastUses (sl.sub.getD 1 default)
  | .whileDo cond body, sl => cond.lastUses (sl.sub.getD 0 default) ∪ body.lastUses (sl.sub.getD 1 default)
  | .forIn _ _ _ body, sl => body.lastUses (sl.sub.getD 0 default)
  | .matchOn _ arms, sl => armsLastUses arms sl.sub
  | .logical _ right, sl => right.lastUses (sl.sub.getD 0 default)
  | .coalesce _ fallback, sl => fallback.lastUses (sl.sub.getD 0 default)
  | other, sl => if other.isStraightLine then sl.diesHere else ∅

def armsLastUses : List Arm → List BlockLiveness → VarSet
  | [], _ => ∅
  | .mk _ none body :: arms, subs => body.lastUses (subs.getD 0 default) ∪ armsLastUses arms (subs.drop 1)
  | .mk _ (some guard) body :: arms, subs =>
    guard.lastUses (subs.getD 0 default) ∪ body.lastUses (subs.getD 1 default) ∪ armsLastUses arms (subs.drop 2)

end

def Func.lastUses (func : Func) : VarSet := func.body.lastUses (analyzeBlock func.body ∅)

theorem mem_lastUseDrops {droppable : DropSet} {sl : StmtLiveness} :
    d ∈ lastUseDrops droppable s sl ↔ s.isStraightLine = true ∧ d.1 ∈ sl.diesHere ∧ droppable d.1 = some d.2 := by
  unfold lastUseDrops lifoDeaths
  split
  · rename_i hs
    simp only [List.mem_filterMap, List.mem_reverse, Finset.mem_sort, Finset.mem_filter, Option.map_eq_some_iff]
    constructor
    · rintro ⟨name, ⟨hname, -⟩, r, hr, rfl⟩
      exact ⟨hs, hname, hr⟩
    · rintro ⟨-, hname, hr⟩
      exact ⟨d.1, ⟨hname, by rw [hr]; rfl⟩, d.2, hr, rfl⟩
  · rename_i hs
    simp [hs]

theorem lastUses_of_straightLine (hs : s.isStraightLine = true) (sl : StmtLiveness) : s.lastUses sl = sl.diesHere := by
  cases s <;> first | rfl | cases hs

/-! ### The child blocks with their annotations -/

def armsAnnotated : List Arm → List BlockLiveness → List (Block × BlockLiveness × Bool)
  | [], _ => []
  | .mk _ none body :: arms, subs => (body, subs.getD 0 default, false) :: armsAnnotated arms (subs.drop 1)
  | .mk _ (some guard) body :: arms, subs =>
    (guard, subs.getD 0 default, false) :: (body, subs.getD 1 default, false) :: armsAnnotated arms (subs.drop 2)

/-- Each child block, its annotation, and whether it is the body of a loop. -/
def Stmt.annotated : Stmt → StmtLiveness → List (Block × BlockLiveness × Bool)
  | .ite _ thenBlock none, sl => [(thenBlock, sl.sub.getD 0 default, false)]
  | .ite _ thenBlock (some elseBlock), sl =>
    [(thenBlock, sl.sub.getD 0 default, false), (elseBlock, sl.sub.getD 1 default, false)]
  | .whileDo cond body, sl => [(cond, sl.sub.getD 0 default, false), (body, sl.sub.getD 1 default, true)]
  | .forIn _ _ _ body, sl => [(body, sl.sub.getD 0 default, true)]
  | .matchOn _ arms, sl => armsAnnotated arms sl.sub
  | .logical _ right, sl => [(right, sl.sub.getD 0 default, false)]
  | .coalesce _ fallback, sl => [(fallback, sl.sub.getD 0 default, false)]
  | _, _ => []

theorem armsAnnotated_fst (arms : List Arm) (subs : List BlockLiveness) :
    (armsAnnotated arms subs).map Prod.fst = arms.flatMap Arm.blocks := by
  fun_induction armsAnnotated arms subs <;> simp_all [Arm.blocks]

theorem annotated_fst (s : Stmt) (sl : StmtLiveness) : (s.annotated sl).map Prod.fst = s.blocks := by
  cases s with
  | ite cond thenBlock elseBlock => cases elseBlock <;> rfl
  | matchOn scrutinee arms => exact armsAnnotated_fst arms sl.sub
  | _ => rfl

section Rewritten

variable {cx : Cx} {droppable owned : DropSet} {scopes : List ScopeFrame}

theorem rewriteArms_blocks (arms : List Arm) (subs : List BlockLiveness) :
    (rewriteArms cx droppable owned scopes arms subs).flatMap Arm.blocks =
      (armsAnnotated arms subs).map fun e => rewriteBlock cx droppable owned scopes e.2.2 e.1 e.2.1 := by
  fun_induction armsAnnotated arms subs <;> simp_all [rewriteArms, Arm.blocks]

/-- The child blocks are rewritten one by one. -/
theorem rewriteStmt_blocks (s : Stmt) (sl : StmtLiveness) :
    (rewriteStmt cx droppable owned scopes s sl).blocks =
      (s.annotated sl).map fun e => rewriteBlock cx droppable owned scopes e.2.2 e.1 e.2.1 := by
  cases s with
  | ite cond thenBlock elseBlock => cases elseBlock <;> rfl
  | declClass methods destructor => cases destructor <;> rfl
  | matchOn scrutinee arms => exact rewriteArms_blocks arms sl.sub
  | _ => rfl

theorem mem_dropsHere_rewriteStmt {s : Stmt} {sl : StmtLiveness} {d : Name × Bool}
    (hd : d ∈ (rewriteStmt cx droppable owned scopes s sl).dropsHere) :
    d ∈ s.dropsHere ∨ ∃ frame ∈ scopes, d ∈ frame.constructed := by
  cases s with
  | letTemp dst rvalue =>
    cases rvalue with
    | tryProp operand onError => exact .inr (mem_framesDrops hd)
    | _ => cases hd
  | eval rvalue =>
    cases rvalue with
    | tryProp operand onError => exact .inr (mem_framesDrops hd)
    | _ => cases hd
  | dropVar name relevant => exact .inl hd
  | ite cond thenBlock elseBlock => cases elseBlock <;> cases hd
  | declClass methods destructor => cases destructor <;> cases hd
  | _ => cases hd

end Rewritten

theorem mem_armsLastUses {arms : List Arm} {subs : List BlockLiveness} :
    name ∈ armsLastUses arms subs ↔ ∃ e ∈ armsAnnotated arms subs, name ∈ e.1.lastUses e.2.1 := by
  fun_induction armsAnnotated arms subs <;> simp_all [armsLastUses]

/-- Apart from the straight-line statements the last uses are those of the child blocks. -/
theorem mem_lastUses (hs : ¬ s.isStraightLine = true) {sl : StmtLiveness} :
    name ∈ s.lastUses sl ↔ ∃ e ∈ s.annotated sl, name ∈ e.1.lastUses e.2.1 := by
  cases s with
  | ite cond thenBlock elseBlock => cases elseBlock <;> simp [Stmt.lastUses, Stmt.annotated]
  | matchOn scrutinee arms => exact mem_armsLastUses
  | letTemp dst rvalue => exact absurd rfl hs
  | eval rvalue => exact absurd rfl hs
  | bind name span value => exact absurd rfl hs
  | echo value => exact absurd rfl hs
  | _ => simp [Stmt.lastUses, Stmt.annotated, Stmt.isStraightLine]

theorem annotated_of_straightLine (hs : s.isStraightLine = true) (sl : StmtLiveness) : s.annotated sl = [] := by
  cases s <;> first | rfl | cases hs

/-! ### Each drop is of a bound local or of a last use -/

section Sound

variable {owned : DropSet} {P : Name → Bool → Prop}

/-- What the pass finds at a statement: drops that are there already, and a name that may be owned. -/
structure StmtOk (owned : DropSet) (P : Name → Bool → Prop) (s : Stmt) : Prop where
  dropped : ∀ d ∈ s.dropsHere, P d.1 d.2
  bound : ∀ name r, s.boundName = some name → owned name = some r → P name r

structure FrameOk (owned : DropSet) (P : Name → Bool → Prop) (frame : ScopeFrame) : Prop where
  holds : ∀ d ∈ frame.constructed, P d.1 d.2
  owned : ∀ d ∈ frame.constructed, owned d.1 = some d.2

theorem FrameOk.record {frame : ScopeFrame} {s : Stmt} (hframe : FrameOk owned P frame) (hs : StmtOk owned P s) :
    FrameOk owned P (frame.record owned s) := by
  unfold ScopeFrame.record
  split
  · rename_i name span value
    split
    · rename_i r hr
      split
      · exact hframe
      · refine ⟨?_, ?_⟩
        · intro d hd
          rcases List.mem_append.mp hd with hd | hd
          · exact hframe.holds d hd
          · rw [List.mem_singleton.mp hd]
            exact hs.bound name r rfl hr
        · intro d hd
          rcases List.mem_append.mp hd with hd | hd
          · exact hframe.owned d hd
          · rw [List.mem_singleton.mp hd]
            exact hr
    · exact hframe
  · exact hframe

theorem FrameOk.scopeExit {frame : ScopeFrame} (hframe : FrameOk owned P frame) {ss : List Stmt} {t : Option Atom}
    {d : Name × Bool} (hd : d ∈ scopeExitDrops frame owned ss t) : P d.1 d.2 := by
  unfold scopeExitDrops at hd
  split at hd
  · cases hd
  · simp only [List.mem_filterMap, List.mem_filter, List.mem_reverse, List.mem_map, Option.map_eq_some_iff] at hd
    obtain ⟨name, ⟨⟨e, he, rfl⟩, -⟩, r, hr, rfl⟩ := hd
    have hbit : some e.2 = some r := (hframe.owned e he).symm.trans hr
    cases hbit
    exact hframe.holds e he

variable {cx : Cx} {droppable : DropSet}

theorem rewriteBlock_drops (b : Block) : ∀ (live : BlockLiveness) (scopes : List ScopeFrame) (isLoopBody : Bool),
    (∀ frame ∈ scopes, FrameOk owned P frame) → (∀ s ∈ b.statements, StmtOk owned P s) →
    (∀ name r, name ∈ b.lastUses live → droppable name = some r → P name r) →
    ∀ d ∈ (rewriteBlock cx droppable owned scopes isLoopBody b live).ownDrops, P d.1 d.2 := by
  induction b using Block.inBody with
  | step ss t ihb =>
    -- the loop over the statements keeps the frame of the block
    have hloop : ∀ ss' ⊆ ss, ∀ (sls : List StmtLiveness) (scopes : List ScopeFrame) (frame : ScopeFrame),
        (∀ frame ∈ scopes, FrameOk owned P frame) → FrameOk owned P frame →
        (∀ s ∈ stmtsStatements ss', StmtOk owned P s) →
        (∀ name r, name ∈ stmtsLastUses ss' sls → droppable name = some r → P name r) →
        (∀ d ∈ dropsIn (rewriteStmts cx droppable owned scopes frame ss' sls).1, P d.1 d.2) ∧
          FrameOk owned P (rewriteStmts cx droppable owned scopes frame ss' sls).2 := by
      intro ss' hsub
      induction ss' with
      | nil => exact fun _ _ _ _ hframe _ _ => ⟨by simp [rewriteStmts], hframe⟩
      | cons s ss' ih =>
        intro sls scopes frame hscopes hframe hss hlast
        obtain ⟨hmem, hsub⟩ := List.cons_subset.mp hsub
        rcases sls with _ | ⟨sl, sls⟩
        · exact ⟨by simp [rewriteStmts], hframe⟩
        simp only [stmtsStatements, List.forall_mem_append, Stmt.statements_eq, List.forall_mem_cons] at hss
        simp only [stmtsLastUses, Finset.mem_union] at hlast
        have hhere : FrameOk owned P (frame.record owned s) := hframe.record hss.1.1
        have hall : ∀ frame' ∈ frame.record owned s :: scopes, FrameOk owned P frame' :=
          List.forall_mem_cons.mpr ⟨hhere, hscopes⟩
        obtain ⟨hout, hend⟩ := ih hsub sls scopes ((frame.record owned s).markDropped (lastUseDrops droppable s sl))
          hscopes ⟨hhere.holds, hhere.owned⟩ hss.2 (fun name r hname => hlast name r (.inr hname))
        refine ⟨fun d hd => ?_, hend⟩
        simp only [rewriteStmts, dropsIn_append, dropsIn_cons, dropsIn_dropStmts, List.mem_append, Stmt.ownDrops_eq,
          rewriteStmt_blocks, List.mem_flatMap, List.mem_map] at hd
        rcases hd with (hd | (hd | ⟨_, ⟨e, he, rfl⟩, hd⟩) | hd) | hd
        · obtain ⟨frame', hmem, hd⟩ := mem_exitDrops hd
          exact (hall frame' hmem).holds d hd
        · rcases mem_dropsHere_rewriteStmt hd with hd | ⟨frame', hmem, hd⟩
          · exact hss.1.1.dropped d hd
          · exact (hall frame' hmem).holds d hd
        · have hs : ¬ s.isStraightLine = true := fun hs => by simp [annotated_of_straightLine hs] at he
          have heb : e.1 ∈ s.blocks := annotated_fst s sl ▸ List.mem_map_of_mem he
          refine ihb s hmem e.1 heb e.2.1 _ e.2.2 hall (fun s' hs' => ?_) (fun name r hname => ?_) d hd
          · exact hss.1.2 s' (List.mem_flatMap.mpr ⟨e.1, heb, hs'⟩)
          · exact hlast name r (.inl ((mem_lastUses hs).mpr ⟨e, he, hname⟩))
        · obtain ⟨hs, hdies, hbit⟩ := mem_lastUseDrops.mp hd
          exact hlast d.1 d.2 (.inl (by rwa [lastUses_of_straightLine hs])) hbit
        · exact hout d hd
    intro live scopes isLoopBody hscopes hss hlast d hd
    obtain ⟨hout, hframe⟩ := hloop ss (List.Subset.refl ss) live.stmts scopes ⟨[], ∅, live.liveOut, isLoopBody⟩ hscopes
      ⟨by simp, by simp⟩ hss hlast
    simp only [rewriteBlock, ownDrops_mk, dropsIn_append, dropsIn_dropStmts, List.mem_append] at hd
    rcases hd with hd | hd
    · exact hout d (mem_dropsIn_of_dedup hd)
    · exact hframe.scopeExit hd

end Sound

/-! ### Each last use of a droppable name is dropped -/

section Complete

variable {cx : Cx} {droppable owned : DropSet} {name : Name}

def DroppedIn (name : Name) (drops : List (Name × Bool)) : Prop := name ∈ drops.map Prod.fst

theorem droppedIn_append {drops drops' : List (Name × Bool)} :
    DroppedIn name (drops ++ drops') ↔ DroppedIn name drops ∨ DroppedIn name drops' := by
  rw [DroppedIn, List.map_append, List.mem_append]
  rfl

theorem rewriteBlock_dropped (hname : (droppable name).isSome) (b : Block) : ∀ (live : BlockLiveness)
    (scopes : List ScopeFrame) (isLoopBody : Bool), name ∈ b.lastUses live →
    DroppedIn name (rewriteBlock cx droppable owned scopes isLoopBody b live).ownDrops := by
  induction b using Block.inBody with
  | step ss t ihb =>
    have hloop : ∀ ss' ⊆ ss, ∀ (sls : List StmtLiveness) (scopes : List ScopeFrame) (frame : ScopeFrame),
        name ∈ stmtsLastUses ss' sls →
        DroppedIn name (dropsIn (rewriteStmts cx droppable owned scopes frame ss' sls).1) := by
      intro ss' hsub
      induction ss' with
      | nil => exact fun _ _ _ h => by simp [stmtsLastUses] at h
      | cons s ss' ih =>
        intro sls scopes frame h
        obtain ⟨hmem, hsub⟩ := List.cons_subset.mp hsub
        rcases sls with _ | ⟨sl, sls⟩
        · simp [stmtsLastUses] at h
        simp only [rewriteStmts, dropsIn_append, dropsIn_cons, dropsIn_dropStmts, droppedIn_append, Stmt.ownDrops_eq,
          rewriteStmt_blocks]
        rcases Finset.mem_union.mp h with h | h
        · by_cases hs : s.isStraightLine = true
          · rw [lastUses_of_straightLine hs] at h
            obtain ⟨r, hr⟩ := Option.isSome_iff_exists.mp hname
            have hdrop : (name, r) ∈ lastUseDrops droppable s sl := mem_lastUseDrops.mpr ⟨hs, h, hr⟩
            exact .inl (.inr (.inr (List.mem_map_of_mem (f := Prod.fst) hdrop)))
          · obtain ⟨e, he, h⟩ := (mem_lastUses hs).mp h
            have heb : e.1 ∈ s.blocks := annotated_fst s sl ▸ List.mem_map_of_mem he
            obtain ⟨d, hd, hdn⟩ := List.mem_map.mp (ihb s hmem e.1 heb e.2.1 _ e.2.2 h)
            refine .inl (.inr (.inl (.inr (List.mem_map.mpr ⟨d, ?_, hdn⟩))))
            exact List.mem_flatMap.mpr ⟨_, List.mem_map_of_mem he, hd⟩
        · exact .inr (ih hsub sls scopes _ h)
    intro live scopes isLoopBody h
    simp only [rewriteBlock, ownDrops_mk, dropsIn_append, droppedIn_append]
    rcases dropped_of_dedup (hloop ss (List.Subset.refl ss) live.stmts scopes _ h) with h | h
    · exact .inl h
    · cases h

end Complete

/-! ### The drops of a function's parameters -/

/-- The parameters of a function its pass drops: owned, and last used by a straight-line statement. -/
def droppedParams (func : Func) (globals enclosing : VarSet) : VarSet :=
  (ownedParams func globals enclosing).filter (· ∈ func.lastUses)

theorem statement_boundName (hs : s ∈ b.statements)
    (hname : s.boundName = some name) : name ∈ b.bindCounts := List.mem_filterMap.mpr ⟨s, hs, hname⟩

theorem mem_singleAssignmentLocals_param {globals enclosing : VarSet} (hparam : name ∈ func.params) :
    name ∈ singleAssignmentLocals func globals enclosing ↔ name ∈ ownedParams func globals enclosing := by
  simp only [singleAssignmentLocals, Finset.mem_union, Finset.mem_filter]
  constructor
  · intro h
    apply h.resolve_right
    rintro ⟨-, -, -, -, hnot⟩
    exact hnot hparam
  · exact .inl

theorem dropSet_param (hparam : name ∈ func.params) (r : Bool) : dropSet func cx name = some r ↔
      name ∈ ownedParams func cx.globals cx.enclosing ∧ r = relevantBit func cx name := by
  rw [← mem_singleAssignmentLocals_param hparam]
  unfold dropSet relevanceMap
  split
  · rename_i hmem
    simp [hmem, eq_comm]
  · rename_i hmem
    simp [hmem]

theorem ownedSet_param {r : Bool} (hparam : name ∈ func.params)
    (h : ownedSet func cx name = some r) : name ∉ func.body.bindCounts := by
  unfold ownedSet relevanceMap ownedLocals at h
  split at h
  · rename_i hmem
    rw [Finset.mem_union, Finset.mem_filter] at hmem
    rcases hmem with hmem | hmem
    · exact (Finset.mem_filter.mp hmem).2.1
    · exact absurd hparam hmem.2.2.2
  · cases h

/-- The drops of a parameter in a rewritten function that had none. -/
theorem mem_ownDrops_param (hun : ∀ s ∈ func.body.statements, s.dropsHere = [])
    (hparam : name ∈ func.params) (r : Bool) :
    (name, r) ∈ (rewriteFunc cx func).body.ownDrops ↔
      name ∈ droppedParams func cx.globals cx.enclosing ∧ r = relevantBit func cx name := by
  obtain ⟨params, defaults, body, span⟩ := func
  have hsound : ∀ d ∈ (rewriteFunc cx (.mk params defaults body span)).body.ownDrops, d.1 = name →
      d.1 ∈ droppedParams (.mk params defaults body span) cx.globals cx.enclosing ∧
        d.2 = relevantBit (.mk params defaults body span) cx d.1 := by
    apply rewriteBlock_drops (P := fun n r => n = name →
      n ∈ droppedParams (.mk params defaults body span) cx.globals cx.enclosing ∧
        r = relevantBit (.mk params defaults body span) cx n) body (analyzeBlock body ∅) [] false
    · simp
    · intro s hs
      refine ⟨?_, ?_⟩
      · rw [hun s hs]
        simp
      · rintro n r hbound howned rfl
        exact absurd (statement_boundName hs hbound) (ownedSet_param hparam howned)
    · rintro n r hlast hdrop rfl
      obtain ⟨howned, hbit⟩ := (dropSet_param hparam r).mp hdrop
      exact ⟨Finset.mem_filter.mpr ⟨howned, hlast⟩, hbit⟩
  constructor
  · intro h
    exact hsound _ h rfl
  · rintro ⟨hmem, rfl⟩
    obtain ⟨howned, hlast⟩ := Finset.mem_filter.mp hmem
    have hdrop : dropSet (.mk params defaults body span) cx name = some _ :=
      (dropSet_param hparam _).mpr ⟨howned, rfl⟩
    have hdropped : DroppedIn name (rewriteFunc cx (.mk params defaults body span)).body.ownDrops :=
      rewriteBlock_dropped (by rw [hdrop]; rfl) body _ [] false hlast
    obtain ⟨d, hd, rfl⟩ := List.mem_map.mp hdropped
    obtain ⟨-, hbit⟩ := hsound d hd rfl
    rw [← hbit]
    exact hd

end Noeta.Ir
