import Noeta.Ir.DropSites

/-!
# The functions of a rewritten program

The pass rewrites each function where it stands, in the context of the functions around it; those in default thunks it leaves as they are. So the drops of the whole program come down to those of one function.
-/

namespace Noeta.Ir

/-! ### The functions in a body -/

section Rewritten

variable {cx : Cx} {droppable owned : DropSet}

theorem rewriteFuncs_eq (fs : List Func) : rewriteFuncs cx fs = fs.map (rewriteFunc cx) := by
  induction fs with
  | nil => rfl
  | cons f fs ih => rw [rewriteFuncs, ih, List.map_cons]

theorem funcsHere_rewriteStmt (s : Stmt) (sl : StmtLiveness) (scopes : List ScopeFrame) :
    (rewriteStmt cx droppable owned scopes s sl).funcsHere = s.funcsHere.map (rewriteFunc cx) := by
  cases s with
  | letTemp dst rvalue => cases rvalue <;> rfl
  | eval rvalue => cases rvalue <;> rfl
  | ite cond thenBlock elseBlock => cases elseBlock <;> rfl
  | declClass methods destructor => cases destructor <;> simp [rewriteStmt, Stmt.funcsHere, rewriteFuncs_eq]
  | declStruct methods => exact rewriteFuncs_eq methods
  | declEnum methods => exact rewriteFuncs_eq methods
  | _ => rfl

theorem armsAnnotated_analyze (arms : List Arm) (out : VarSet) :
    ∀ e ∈ armsAnnotated arms (analyzeArms arms out).2, ∃ out', e.2.1 = analyzeBlock e.1 out' := by
  induction arms with
  | nil => simp [armsAnnotated]
  | cons arm arms ih =>
    obtain ⟨pattern, guard, body⟩ := arm
    rcases guard with _ | guard
    · exact List.forall_mem_cons.mpr ⟨⟨_, rfl⟩, ih⟩
    · exact List.forall_mem_cons.mpr ⟨⟨_, rfl⟩, List.forall_mem_cons.mpr ⟨⟨_, rfl⟩, ih⟩⟩

/-- The annotations of the child blocks are their own analyses. -/
theorem annotated_analyze (s : Stmt) (live : VarSet) :
    ∀ e ∈ s.annotated (analyzeStmt s live).2, ∃ out, e.2.1 = analyzeBlock e.1 out := by
  cases s with
  | ite cond thenBlock elseBlock =>
    cases elseBlock
    · exact List.forall_mem_singleton.mpr ⟨_, rfl⟩
    · exact List.forall_mem_cons.mpr ⟨⟨_, rfl⟩, List.forall_mem_singleton.mpr ⟨_, rfl⟩⟩
  | whileDo cond body => exact List.forall_mem_cons.mpr ⟨⟨_, rfl⟩, List.forall_mem_singleton.mpr ⟨_, rfl⟩⟩
  | matchOn scrutinee arms => exact armsAnnotated_analyze arms live
  | forIn pattern iterable slots body => exact List.forall_mem_singleton.mpr ⟨_, rfl⟩
  | logical left right => exact List.forall_mem_singleton.mpr ⟨_, rfl⟩
  | coalesce value fallback => exact List.forall_mem_singleton.mpr ⟨_, rfl⟩
  | _ => simp [Stmt.annotated]

theorem rewriteBlock_ownFuncs (b : Block) : ∀ (out : VarSet) (scopes : List ScopeFrame) (isLoopBody : Bool),
    (rewriteBlock cx droppable owned scopes isLoopBody b (analyzeBlock b out)).ownFuncs =
      b.ownFuncs.map (rewriteFunc cx) := by
  induction b using Block.inBody with
  | step ss t ihb =>
    have hloop : ∀ ss' ⊆ ss, ∀ (out : VarSet) (scopes : List ScopeFrame) (frame : ScopeFrame),
        funcsIn (rewriteStmts cx droppable owned scopes frame ss' (analyzeStmts ss' out).2).1 =
          (funcsIn ss').map (rewriteFunc cx) := by
      intro ss' hsub
      induction ss' with
      | nil => exact fun _ _ _ => rfl
      | cons s ss' ih =>
        intro out scopes frame
        obtain ⟨hmem, hsub⟩ := List.cons_subset.mp hsub
        simp only [analyzeStmts, rewriteStmts, funcsIn_append, funcsIn_cons, funcsIn_exitDrops, funcsIn_dropStmts,
          List.nil_append, List.append_nil, List.map_append, Stmt.ownFuncs_eq, funcsHere_rewriteStmt, rewriteStmt_blocks]
        rw [ih hsub, ← annotated_fst s (analyzeStmt s (analyzeStmts ss' out).1).2, List.flatMap_map, List.flatMap_map,
          List.map_flatMap]
        congr 2
        apply List.flatMap_congr
        intro e he
        obtain ⟨out', hlive⟩ := annotated_analyze s _ e he
        rw [hlive, ihb s hmem e.1 (annotated_fst s _ ▸ List.mem_map_of_mem he)]
    intro out scopes isLoopBody
    simp only [rewriteBlock, ownFuncs_mk, funcsIn_append, funcsIn_dropStmts, funcsIn_dedupDrops, List.append_nil]
    exact hloop ss (List.Subset.refl ss) (out ∪ atomUses? t) scopes _

end Rewritten

/-! ### The functions of a program, body by body -/

theorem methodsFuncs_eq (fs : List Func) : methodsFuncs fs = fs.flatMap Func.funcs := by
  induction fs with
  | nil => rfl
  | cons f fs ih => rw [methodsFuncs, ih, List.flatMap_cons]

theorem thunksFuncs_eq (thunks : List Block) : thunksFuncs thunks = thunks.flatMap Block.funcs := by
  induction thunks with
  | nil => rfl
  | cons thunk thunks ih => rw [thunksFuncs, ih, List.flatMap_cons]

theorem armsFuncs_eq (arms : List Arm) : armsFuncs arms = (arms.flatMap Arm.blocks).flatMap Block.funcs := by
  induction arms with
  | nil => rfl
  | cons arm arms ih =>
    obtain ⟨pattern, guard, body⟩ := arm
    cases guard <;> simp [armsFuncs, Arm.funcs, Arm.blocks, ih]

theorem Stmt.funcs_eq (s : Stmt) : s.funcs = s.funcsHere.flatMap Func.funcs ++ s.blocks.flatMap Block.funcs := by
  cases s with
  | letTemp dst rvalue => cases rvalue <;> simp [Stmt.funcs, Rvalue.funcs, Stmt.funcsHere, Stmt.blocks]
  | eval rvalue => cases rvalue <;> simp [Stmt.funcs, Rvalue.funcs, Stmt.funcsHere, Stmt.blocks]
  | ite cond thenBlock elseBlock => cases elseBlock <;> simp [Stmt.funcs, Stmt.funcsHere, Stmt.blocks]
  | matchOn scrutinee arms => exact armsFuncs_eq arms
  | declClass methods destructor =>
    cases destructor <;> simp [Stmt.funcs, Stmt.funcsHere, Stmt.blocks, methodsFuncs_eq]
  | _ => simp [Stmt.funcs, Stmt.funcsHere, Stmt.blocks, methodsFuncs_eq]

theorem Block.funcs_eq (b : Block) : b.funcs = b.ownFuncs.flatMap Func.funcs := by
  induction b using Block.inBody with
  | step ss t ihb =>
    rw [Block.funcs, ownFuncs_mk]
    clear t
    induction ss with
    | nil => rfl
    | cons s ss ih =>
      obtain ⟨hs, hss⟩ := List.forall_mem_cons.mp ihb
      rw [stmtsFuncs, funcsIn_cons, List.flatMap_append, ih hss, Stmt.funcs_eq, Stmt.ownFuncs_eq, List.flatMap_append,
        List.flatMap_assoc, List.flatMap_congr hs]

/-! ### Going down into the functions of a body -/

variable {s : Stmt} {f : Func} {b : Block} {enclosing : VarSet} {p : Program}

theorem Stmt.sizeOf_funcsHere (hf : f ∈ s.funcsHere) : sizeOf f < sizeOf s := by
  have hmethods : ∀ methods : List Func, f ∈ methods → sizeOf f < sizeOf methods := fun _ => List.sizeOf_lt_of_mem
  cases s with
  | letTemp dst rvalue =>
    cases rvalue <;> simp [Stmt.funcsHere] at hf
    simp [hf]
    omega
  | eval rvalue =>
    cases rvalue <;> simp [Stmt.funcsHere] at hf
    simp [hf]
    omega
  | declFn name func => simp [List.mem_singleton.mp hf]
  | declClass methods destructor =>
    rcases destructor with _ | destructor
    · have h := hmethods methods hf
      simp
      omega
    · rcases List.mem_append.mp hf with hf | hf
      · have h := hmethods methods hf
        simp
        omega
      · simp [List.mem_singleton.mp hf]
        omega
  | declStruct methods =>
    have h := hmethods methods hf
    rw [Stmt.declStruct.sizeOf_spec]
    omega
  | declEnum methods =>
    have h := hmethods methods hf
    rw [Stmt.declEnum.sizeOf_spec]
    omega
  | _ => cases hf

theorem Block.sizeOf_ownFuncs (b : Block) : ∀ f ∈ b.ownFuncs, sizeOf f < sizeOf b := by
  induction b using Block.inBody with
  | step ss t ihb =>
    intro f hf
    obtain ⟨s, hs, hf⟩ : ∃ s ∈ ss, f ∈ s.ownFuncs := by
      rw [ownFuncs_mk] at hf
      clear ihb
      induction ss with
      | nil => cases hf
      | cons s ss ih =>
        rw [funcsIn_cons, List.mem_append] at hf
        rcases hf with hf | hf
        · exact ⟨s, List.mem_cons_self, hf⟩
        · obtain ⟨s', hs', hf⟩ := ih hf
          exact ⟨s', List.mem_cons_of_mem _ hs', hf⟩
    have hlt := List.sizeOf_lt_of_mem hs
    rw [Block.mk.sizeOf_spec]
    rw [Stmt.ownFuncs_eq, List.mem_append, List.mem_flatMap] at hf
    rcases hf with hf | ⟨b, hb, hf⟩
    · have h := Stmt.sizeOf_funcsHere hf
      omega
    · have h := ihb s hs b hb f hf
      have h' := Stmt.sizeOf_blocks hb
      omega

/-! ### Without drops to start with -/

theorem methodsUndropped_iff {fs : List Func} : methodsUndropped fs ↔ ∀ f ∈ fs, f.Undropped := by
  induction fs with
  | nil => simp [methodsUndropped]
  | cons f fs ih => rw [methodsUndropped, ih, List.forall_mem_cons]

theorem thunksUndropped_iff {thunks : List Block} : thunksUndropped thunks ↔ ∀ thunk ∈ thunks, thunk.Undropped := by
  induction thunks with
  | nil => simp [thunksUndropped]
  | cons thunk thunks ih => rw [thunksUndropped, ih, List.forall_mem_cons]

/-- A statement without drops, of functions without drops. -/
structure Stmt.Clean (s : Stmt) : Prop where
  drops : s.dropsHere = []
  funcs : ∀ f ∈ s.funcsHere, f.Undropped

theorem Stmt.Clean.of_plain (hdrops : s.dropsHere = []) (hfuncs : s.funcsHere = []) : s.Clean :=
  ⟨hdrops, by simp [hfuncs]⟩

theorem armsUndropped_blocks {arms : List Arm} (h : armsUndropped arms) : ∀ b ∈ arms.flatMap Arm.blocks, b.Undropped := by
  induction arms with
  | nil => simp
  | cons arm arms ih =>
    obtain ⟨pattern, guard, body⟩ := arm
    rw [List.flatMap_cons, List.forall_mem_append]
    refine ⟨?_, ih h.2⟩
    rcases guard with _ | guard
    · exact List.forall_mem_singleton.mpr h.1
    · exact List.forall_mem_cons.mpr ⟨h.1.1, List.forall_mem_singleton.mpr h.1.2⟩

theorem Stmt.Undropped.clean (h : s.Undropped) : s.Clean := by
  cases s with
  | letTemp dst rvalue =>
    cases rvalue with
    | op operands => exact .of_plain rfl rfl
    | tryProp operand onError => exact .of_plain h rfl
    | closure func => exact ⟨rfl, List.forall_mem_singleton.mpr h⟩
  | eval rvalue =>
    cases rvalue with
    | op operands => exact .of_plain rfl rfl
    | tryProp operand onError => exact .of_plain h rfl
    | closure func => exact ⟨rfl, List.forall_mem_singleton.mpr h⟩
  | ite cond thenBlock elseBlock => cases elseBlock <;> exact .of_plain rfl rfl
  | declFn name func => exact ⟨rfl, List.forall_mem_singleton.mpr h⟩
  | declClass methods destructor =>
    cases destructor with
    | none => exact ⟨rfl, methodsUndropped_iff.mp h⟩
    | some destructor =>
      exact ⟨rfl, List.forall_mem_append.mpr ⟨methodsUndropped_iff.mp h.1, List.forall_mem_singleton.mpr h.2⟩⟩
  | declStruct methods => exact ⟨rfl, methodsUndropped_iff.mp h⟩
  | declEnum methods => exact ⟨rfl, methodsUndropped_iff.mp h⟩
  | dropVar name relevant => exact h.elim
  | _ => exact .of_plain rfl rfl

theorem Stmt.Undropped.blocks (h : s.Undropped) : ∀ b ∈ s.blocks, b.Undropped := by
  cases s with
  | ite cond thenBlock elseBlock =>
    cases elseBlock with
    | none => exact List.forall_mem_singleton.mpr h
    | some elseBlock => exact List.forall_mem_cons.mpr ⟨h.1, List.forall_mem_singleton.mpr h.2⟩
  | whileDo cond body => exact List.forall_mem_cons.mpr ⟨h.1, List.forall_mem_singleton.mpr h.2⟩
  | matchOn scrutinee arms => exact armsUndropped_blocks h
  | forIn pattern iterable slots body => exact List.forall_mem_singleton.mpr h
  | logical left right => exact List.forall_mem_singleton.mpr h
  | coalesce value fallback => exact List.forall_mem_singleton.mpr h
  | _ => exact fun _ hb => by cases hb

theorem Block.clean (b : Block) : b.Undropped → ∀ s ∈ b.statements, s.Clean := by
  induction b using Block.inBody with
  | step ss t ihb =>
    intro h
    rw [Block.Undropped] at h
    rw [Block.statements]
    induction ss with
    | nil => exact fun _ hs => by cases hs
    | cons s ss ih =>
      obtain ⟨hs, hss⟩ := List.forall_mem_cons.mp ihb
      rw [stmtsStatements, List.forall_mem_append, Stmt.statements_eq, List.forall_mem_cons]
      refine ⟨⟨h.1.clean, fun s' hs' => ?_⟩, ih hss h.2⟩
      obtain ⟨b, hb, hs'⟩ := List.mem_flatMap.mp hs'
      exact hs b hb (h.1.blocks b hb) s' hs'

theorem Block.Undropped.ownDrops (h : b.Undropped) : b.ownDrops = [] :=
  List.flatMap_eq_nil_iff.mpr fun s hs => (b.clean h s hs).drops

theorem Block.Undropped.ownFuncs (h : b.Undropped) : ∀ f ∈ b.ownFuncs, f.Undropped := by
  intro f hf
  obtain ⟨s, hs, hf⟩ := List.mem_flatMap.mp hf
  exact (b.clean h s hs).funcs f hf

theorem Func.Undropped.funcs : (f : Func) → f.Undropped → ∀ g ∈ f.funcs, g.body.ownDrops = []
  | .mk params defaults body span, h, g, hg => by
    have hblock : ∀ b : Block, sizeOf b < sizeOf (Func.mk params defaults body span) → b.Undropped → g ∈ b.funcs →
        g.body.ownDrops = [] := by
      intro b hsize hb hg
      rw [Block.funcs_eq] at hg
      obtain ⟨f', hf', hg⟩ := List.mem_flatMap.mp hg
      have hlt := b.sizeOf_ownFuncs f' hf'
      exact Func.Undropped.funcs f' (hb.ownFuncs f' hf') g hg
    rw [Func.funcs, List.cons_append, List.mem_cons, List.mem_append, thunksFuncs_eq, List.mem_flatMap] at hg
    rcases hg with rfl | hg | ⟨thunk, hthunk, hg⟩
    · exact h.1.ownDrops
    · apply hblock body _ h.1 hg
      rw [Func.mk.sizeOf_spec]
      omega
    · apply hblock thunk _ (thunksUndropped_iff.mp h.2 thunk hthunk) hg
      have hlt := List.sizeOf_lt_of_mem hthunk
      rw [Func.mk.sizeOf_spec]
      omega
termination_by f => sizeOf f
decreasing_by omega

/-! ### The functions of the rewritten program -/

/-- The functions the pass reaches from one, each with the names local to the functions around it. -/
inductive Func.Reaches (around : VarSet) (f : Func) : VarSet → Func → Prop where
  | self : f.Reaches around around f
  | nested {enclosing g g'} (h : f.Reaches around enclosing g) (hmem : g' ∈ g.body.ownFuncs) :
    f.Reaches around (enclosing ∪ functionLocals g) g'

theorem Func.Reaches.under {f f' g : Func} {around enclosing : VarSet} (hmem : f' ∈ f.body.ownFuncs)
    (h : f'.Reaches (around ∪ functionLocals f) enclosing g) : f.Reaches around enclosing g := by
  induction h with
  | self => exact .nested .self hmem
  | nested _ hmem' ih => exact .nested ih hmem'

/-- The functions the pass rewrites: those of the top level and what it reaches from them. -/
def Program.Rewrites (p : Program) (enclosing : VarSet) (f : Func) : Prop :=
  ∃ g ∈ p.top.ownFuncs, g.Reaches ∅ enclosing f

def Cx.within (cx : Cx) (enclosing : VarSet) : Cx := { cx with enclosing := enclosing }

theorem rewriteFunc_ownFuncs (cx : Cx) (f : Func) :
    (rewriteFunc cx f).body.ownFuncs = f.body.ownFuncs.map (rewriteFunc (cx.within (cx.enclosing ∪ functionLocals f))) := by
  obtain ⟨params, defaults, body, span⟩ := f
  exact rewriteBlock_ownFuncs body ∅ [] false

theorem mem_funcs_rewriteFunc : (f : Func) → f.Undropped → ∀ (cx : Cx), ∀ h ∈ (rewriteFunc cx f).funcs,
    h.body.ownDrops = [] ∨ ∃ enclosing g, f.Reaches cx.enclosing enclosing g ∧ h = rewriteFunc (cx.within enclosing) g
  | .mk params defaults body span, hun, cx, h, hmem => by
    rw [rewriteFunc, Func.funcs, List.cons_append, List.mem_cons, List.mem_append] at hmem
    rcases hmem with rfl | hmem | hmem
    · exact .inr ⟨cx.enclosing, .mk params defaults body span, .self, rfl⟩
    · rw [Block.funcs_eq, rewriteBlock_ownFuncs, List.flatMap_map] at hmem
      obtain ⟨f', hf', hmem⟩ := List.mem_flatMap.mp hmem
      have hlt := body.sizeOf_ownFuncs f' hf'
      rcases mem_funcs_rewriteFunc f' (hun.1.ownFuncs f' hf') _ h hmem with hdrops | ⟨enclosing, g, hreaches, rfl⟩
      · exact .inl hdrops
      · exact .inr ⟨enclosing, g, hreaches.under hf', rfl⟩
    · apply Or.inl
      have hfunc : (Func.mk params defaults (.mk [] none) span).Undropped := ⟨trivial, hun.2⟩
      apply hfunc.funcs _ h
      rw [Func.funcs]
      exact List.mem_append_right _ hmem
termination_by f => sizeOf f
decreasing_by
  rw [Func.mk.sizeOf_spec]
  omega

theorem Func.mem_funcs_self (f : Func) : f ∈ f.funcs := by
  cases f
  exact List.mem_cons_self

theorem Block.mem_funcs_of_ownFuncs {f g : Func} (hf : f ∈ b.ownFuncs) (hg : g ∈ f.funcs) : g ∈ b.funcs := by
  rw [Block.funcs_eq]
  exact List.mem_flatMap.mpr ⟨f, hf, hg⟩

theorem funcs_closed : (f : Func) → ∀ {g h : Func}, g ∈ f.funcs → h ∈ g.body.ownFuncs → h ∈ f.funcs
  | .mk params defaults body span, g, h, hg, hh => by
    have hblock : ∀ b : Block, sizeOf b < sizeOf (Func.mk params defaults body span) → g ∈ b.funcs → h ∈ b.funcs := by
      intro b hsize hg
      rw [Block.funcs_eq] at hg
      obtain ⟨f', hf', hg⟩ := List.mem_flatMap.mp hg
      have hlt := b.sizeOf_ownFuncs f' hf'
      exact b.mem_funcs_of_ownFuncs hf' (funcs_closed f' hg hh)
    rw [Func.funcs, List.cons_append, List.mem_cons, List.mem_append, thunksFuncs_eq, List.mem_flatMap] at hg ⊢
    rcases hg with rfl | hg | ⟨thunk, hthunk, hg⟩
    · exact .inr (.inl (body.mem_funcs_of_ownFuncs hh h.mem_funcs_self))
    · apply Or.inr ∘ Or.inl
      apply hblock body _ hg
      rw [Func.mk.sizeOf_spec]
      omega
    · refine .inr (.inr ⟨thunk, hthunk, hblock thunk ?_ hg⟩)
      have hlt := List.sizeOf_lt_of_mem hthunk
      rw [Func.mk.sizeOf_spec]
      omega
termination_by f => sizeOf f
decreasing_by omega

theorem Func.Reaches.mem_funcs {f g : Func} {cx : Cx} (h : f.Reaches cx.enclosing enclosing g) :
    rewriteFunc (cx.within enclosing) g ∈ (rewriteFunc cx f).funcs := by
  induction h with
  | self => exact Func.mem_funcs_self _
  | nested _ hmem ih =>
    apply funcs_closed _ ih
    rw [rewriteFunc_ownFuncs]
    exact List.mem_map_of_mem hmem

theorem Func.Reaches.undropped {f g : Func} {around enclosing : VarSet} (h : f.Reaches around enclosing g)
    (hf : f.Undropped) : g.Undropped := by
  induction h with
  | self => exact hf
  | @nested enclosing g g' _ hmem ih =>
    obtain ⟨params, defaults, body, span⟩ := g
    exact ih.1.ownFuncs _ hmem

theorem Program.Rewrites.undropped (h : p.Rewrites enclosing f) (hun : p.Undropped) : f.Undropped := by
  obtain ⟨g, hg, hreaches⟩ := h
  exact hreaches.undropped (Block.Undropped.ownFuncs hun g hg)

@[simp] theorem rewriteFunc_span (cx : Cx) (f : Func) : (rewriteFunc cx f).span = f.span := by
  cases f
  rfl

@[simp] theorem rewriteFunc_params (cx : Cx) (f : Func) : (rewriteFunc cx f).params = f.params := by
  cases f
  rfl

theorem insertDrops_ownFuncs (p : Program) (relevance : Option Relevance) :
    (insertDrops p relevance).top.ownFuncs = p.top.ownFuncs.map (rewriteFunc (topCx p relevance)) :=
  rewriteBlock_ownFuncs p.top ∅ [] false

theorem mem_funcs_insertDrops (hun : p.Undropped) (relevance : Option Relevance) {h : Func}
    (hdrops : h.body.ownDrops ≠ []) :
    h ∈ (insertDrops p relevance).funcs ↔
      ∃ enclosing f, p.Rewrites enclosing f ∧ h = rewriteFunc ((topCx p relevance).within enclosing) f := by
  rw [Program.funcs, Block.funcs_eq, insertDrops_ownFuncs, List.flatMap_map, List.mem_flatMap]
  constructor
  · rintro ⟨g, hg, hmem⟩
    rcases mem_funcs_rewriteFunc g (Block.Undropped.ownFuncs hun g hg) _ h hmem with hnone | ⟨enclosing, f, hreaches, rfl⟩
    · exact absurd hnone hdrops
    · exact ⟨enclosing, f, ⟨g, hg, hreaches⟩, rfl⟩
  · rintro ⟨enclosing, f, ⟨g, hg, hreaches⟩, rfl⟩
    exact ⟨g, hg, hreaches.mem_funcs⟩

theorem Func.Undropped.bodyClean (h : f.Undropped) : ∀ s ∈ f.body.statements, s.dropsHere = [] := by
  obtain ⟨params, defaults, body, span⟩ := f
  exact fun s hs => (body.clean h.1 s hs).drops

theorem param_of_dropped {globals enclosing : VarSet} {name : Name}
    (h : name ∈ droppedParams f globals enclosing) : name ∈ f.params :=
  List.mem_toFinset.mp (Finset.mem_filter.mp (Finset.mem_filter.mp h).1).1

theorem mem_drops_insertDrops (hun : p.Undropped) (relevance : Option Relevance) (span : Span) (name : Name)
    (r : Bool) :
    (∃ h ∈ (insertDrops p relevance).funcs, h.span = span ∧ name ∈ h.params ∧ (name, r) ∈ h.body.ownDrops) ↔
      ∃ enclosing f, p.Rewrites enclosing f ∧ f.span = span ∧
        name ∈ droppedParams f (topLevelNames p.top) enclosing ∧ r = relevantBit f (topCx p relevance) name := by
  constructor
  · rintro ⟨h, hmem, hspan, hparam, hdrop⟩
    have hdrops : h.body.ownDrops ≠ [] := List.ne_nil_of_mem hdrop
    obtain ⟨enclosing, f, hrewrites, rfl⟩ := (mem_funcs_insertDrops hun relevance hdrops).mp hmem
    rw [rewriteFunc_span] at hspan
    rw [rewriteFunc_params] at hparam
    obtain ⟨hdropped, hbit⟩ := (mem_ownDrops_param (hrewrites.undropped hun).bodyClean hparam r).mp hdrop
    exact ⟨enclosing, f, hrewrites, hspan, hdropped, hbit⟩
  · rintro ⟨enclosing, f, hrewrites, hspan, hdropped, hbit⟩
    have hparam : name ∈ f.params := param_of_dropped hdropped
    have hdrop : (name, r) ∈ (rewriteFunc ((topCx p relevance).within enclosing) f).body.ownDrops :=
      (mem_ownDrops_param (hrewrites.undropped hun).bodyClean hparam r).mpr ⟨hdropped, hbit⟩
    refine ⟨_, ?_, (rewriteFunc_span _ f).trans hspan, ?_, hdrop⟩
    · exact (mem_funcs_insertDrops hun relevance (List.ne_nil_of_mem hdrop)).mpr ⟨enclosing, f, hrewrites, rfl⟩
    · rwa [rewriteFunc_params]

end Noeta.Ir
