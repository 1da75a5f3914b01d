import Noeta.Hotswap.Install
import Noeta.Reactive.Dispose

/-!
# A swap that fails

What `apply_one_swap` leaves of the VM if there is no session or the fragment does not compile. A plan that re-runs the
top level disposes the old effects and handles before it compiles.
-/

namespace Noeta.Reactive.Inner

variable {V : Type}

/-! ## Free slots -/

theorem dispose_of_dead {g : Inner V} {n : NodeId} (h : ¬(g.nodes n).live) : g.dispose n = g := if_neg h

/-- A graph has at least as many free slots as another. -/
def FreeLe (g g' : Inner V) : Prop := g.free.length ≤ g'.free.length

theorem FreeLe.refl (g : Inner V) : FreeLe g g := Nat.le_refl _

theorem FreeLe.trans {g₁ g₂ g₃ : Inner V} (h : FreeLe g₁ g₂) (h' : FreeLe g₂ g₃) : FreeLe g₁ g₃ := Nat.le_trans h h'

theorem freeLe_foldl {f : Inner V → NodeId → Inner V} (hf : ∀ g n, FreeLe g (f g n)) (l : List NodeId) (g : Inner V) :
    FreeLe g (l.foldl f g) := by
  induction l generalizing g with
  | nil => exact FreeLe.refl g
  | cons n l ih => exact (hf g n).trans (ih _)

theorem freeLe_detach (g : Inner V) (n : NodeId) : FreeLe g ((g.detachSources n).detachSubscribers n) := by
  have hunsubscribe : ∀ g src, FreeLe g (unsubscribe n g src) := fun g _ => FreeLe.refl (V := V) g
  have hunsource : ∀ g sub, FreeLe g (unsource n g sub) := fun g _ => FreeLe.refl (V := V) g
  have hsources : FreeLe g (g.detachSources n) := freeLe_foldl hunsubscribe _ (g.modify n _)
  exact hsources.trans (freeLe_foldl hunsource _ ((g.detachSources n).modify n _))

theorem freeLe_settleDirty (g : Inner V) (n : NodeId) : FreeLe g (g.settleDirty n) := by
  unfold settleDirty
  split_ifs
  · exact FreeLe.refl g
  · exact FreeLe.refl g

theorem free_unhookAndFree (g : Inner V) (n : NodeId) : g.free.length < (g.unhookAndFree n).free.length := by
  have hdetach := (freeLe_detach g n).trans (freeLe_settleDirty _ n)
  change g.free.length ≤ _ at hdetach
  change g.free.length < (n :: (((g.detachSources n).detachSubscribers n).settleDirty n).free).length
  rw [List.length_cons]
  omega

theorem freeLe_disposeSubtree (depth : Nat) (g : Inner V) (n : NodeId) : FreeLe g (disposeSubtree depth g n) := by
  induction depth generalizing g n with
  | zero => exact FreeLe.refl g
  | succ depth ih =>
    rw [disposeSubtree]
    split_ifs
    · have howned := freeLe_foldl ih (g.nodes n).owned.reverse (g.modify n fun m => { m with owned := [] })
      exact howned.trans (Nat.le_of_lt (free_unhookAndFree (reclaimCells _ n) n))
    · exact FreeLe.refl g

theorem freeLe_disown (g : Inner V) (n : NodeId) : FreeLe g (g.disown n) := by
  unfold disown
  split
  · exact FreeLe.refl g
  · split_ifs
    · exact FreeLe.refl g
    · exact FreeLe.refl g

theorem free_dispose {g : Inner V} {n : NodeId} (h : (g.nodes n).live) : g.free.length < (g.dispose n).free.length := by
  rw [dispose, if_pos h]
  have howned : FreeLe (g.disown n) ((g.disown n).disposeOwned n) :=
    freeLe_foldl (freeLe_disposeSubtree _) _ ((g.disown n).modify n fun m => { m with owned := [] })
  have hrest := (freeLe_disown g n).trans howned
  change g.free.length ≤ _ at hrest
  have hlast := free_unhookAndFree ((g.disown n).disposeOwned n) n
  omega

theorem freeLe_dispose (g : Inner V) (n : NodeId) : FreeLe g (g.dispose n) := by
  by_cases h : (g.nodes n).live
  · exact Nat.le_of_lt (free_dispose h)
  · rw [dispose_of_dead h]
    exact FreeLe.refl g

theorem foldl_dispose_of_dead {g : Inner V} {nodes : List NodeId} (h : ∀ n ∈ nodes, ¬(g.nodes n).live) :
    nodes.foldl dispose g = g := by
  induction nodes with
  | nil => rfl
  | cons first nodes ih =>
    rw [List.foldl_cons, dispose_of_dead (h first List.mem_cons_self)]
    exact ih fun n hn => h n (List.mem_cons_of_mem _ hn)

theorem dead_of_free_foldl {g : Inner V} {nodes : List NodeId} (h : (nodes.foldl dispose g).free = g.free) :
    ∀ n ∈ nodes, ¬(g.nodes n).live := by
  induction nodes with
  | nil =>
    intro n hn
    exact absurd hn List.not_mem_nil
  | cons first nodes ih =>
    have hfirst : ¬(g.nodes first).live := by
      intro hlive
      have hrest : (g.dispose first).free.length ≤ ((first :: nodes).foldl dispose g).free.length :=
        freeLe_foldl freeLe_dispose nodes (g.dispose first)
      have hlt := free_dispose hlive
      rw [h] at hrest
      omega
    rw [List.foldl_cons, dispose_of_dead hfirst] at h
    intro n hn
    obtain rfl | hn := List.mem_cons.mp hn
    · exact hfirst
    · exact ih h n hn

end Noeta.Reactive.Inner

namespace Noeta.Hotswap.Install

open Reactive (NodeId Inner)

variable {C Chunk Row α β S : Type} {host : Host C Chunk Row α β S} {vm vm' vm'' : Vm C Chunk Row α}
  {plan : HotFragment β S}

/-! ## What the program observes -/

namespace Vm

/-- The program finds the same module, globals, dispatch tables, reactive graph and effects. -/
structure Unchanged (vm vm' : Vm C Chunk Row α) : Prop where
  module : vm'.module = vm.module
  globals : vm'.globals = vm.globals
  grown : vm'.grown = vm.grown
  merged : vm'.merged = vm.merged
  typeArgs : vm'.typeArgs = vm.typeArgs
  graph : vm'.graph = vm.graph
  effects : vm'.effects = vm.effects

theorem Unchanged.refl (vm : Vm C Chunk Row α) : vm.Unchanged vm := ⟨rfl, rfl, rfl, rfl, rfl, rfl, rfl⟩

theorem Unchanged.trans (h : vm.Unchanged vm') (h' : vm'.Unchanged vm'') : vm.Unchanged vm'' where
  module := h'.module.trans h.module
  globals := h'.globals.trans h.globals
  grown := h'.grown.trans h.grown
  merged := h'.merged.trans h.merged
  typeArgs := h'.typeArgs.trans h.typeArgs
  graph := h'.graph.trans h.graph
  effects := h'.effects.trans h.effects

theorem Unchanged.of_right (h : vm.Unchanged vm'') (h' : vm'.Unchanged vm'') : vm.Unchanged vm' where
  module := h'.module.symm.trans h.module
  globals := h'.globals.symm.trans h.globals
  grown := h'.grown.symm.trans h.grown
  merged := h'.merged.symm.trans h.merged
  typeArgs := h'.typeArgs.symm.trans h.typeArgs
  graph := h'.graph.symm.trans h.graph
  effects := h'.effects.symm.trans h.effects

/-- Nor does the session change. -/
structure Kept (vm vm' : Vm C Chunk Row α) : Prop extends vm.Unchanged vm' where
  session : vm'.session = vm.session

theorem Kept.refl (vm : Vm C Chunk Row α) : vm.Kept vm := ⟨Unchanged.refl vm, rfl⟩

theorem Kept.trans (h : vm.Kept vm') (h' : vm'.Kept vm'') : vm.Kept vm'' :=
  ⟨h.toUnchanged.trans h'.toUnchanged, h'.session.trans h.session⟩

theorem kept_foldl {ι : Type} {f : Vm C Chunk Row α → ι → Vm C Chunk Row α} (hf : ∀ vm i, Kept vm (f vm i)) (l : List ι)
    (vm : Vm C Chunk Row α) : vm.Kept (l.foldl f vm) := by
  induction l generalizing vm with
  | nil => exact Kept.refl vm
  | cons i l ih => exact (hf vm i).trans (ih _)

end Vm

/-- No value that is released runs a destructor that the program could observe. -/
def Host.Inert (host : Host C Chunk Row α β S) : Prop :=
  ∀ (value : Value α) (vm : Vm C Chunk Row α), vm.Kept (host.releaseValue value vm)

namespace Vm

/-! ## The parts of a preparation -/

theorem kept_setReadGate (vm : Vm C Chunk Row α) (opened : Bool) (type : Gated) :
    vm.Kept (vm.setReadGate opened type) := by
  unfold setReadGate
  split_ifs
  · exact ⟨⟨rfl, rfl, rfl, rfl, rfl, rfl, rfl⟩, rfl⟩
  · exact Kept.refl vm
  · exact ⟨⟨rfl, rfl, rfl, rfl, rfl, rfl, rfl⟩, rfl⟩

theorem kept_syncGates (vm : Vm C Chunk Row α) : vm.Kept vm.syncGates := by
  unfold syncGates
  dsimp only
  split_ifs
  · exact Kept.refl vm
  · have hopened : ∀ opened, vm.Kept { vm with gatesOpen := opened } :=
      fun _ => ⟨⟨rfl, rfl, rfl, rfl, rfl, rfl, rfl⟩, rfl⟩
    exact ((hopened _).trans (kept_setReadGate _ _ _)).trans (kept_setReadGate _ _ _)

theorem kept_releaseRetained (hinert : host.Inert) (vm : Vm C Chunk Row α) (retained : Retained) :
    vm.Kept (vm.releaseRetained host retained) := by
  unfold releaseRetained
  split
  · rename_i value _
    have hemptied : vm.Kept { vm with arena := vm.arena.set retained none } :=
      ⟨⟨rfl, rfl, rfl, rfl, rfl, rfl, rfl⟩, rfl⟩
    have hreleased := hemptied.trans (hinert value _)
    exact ⟨⟨hreleased.module, hreleased.globals, hreleased.grown, hreleased.merged, hreleased.typeArgs,
      hreleased.graph, hreleased.effects⟩, hreleased.session⟩
  · exact Kept.refl vm

theorem kept_releaseReclaimed (hinert : host.Inert) (vm : Vm C Chunk Row α) :
    Kept { vm with graph := { vm.graph with reclaimed := [] } } (vm.releaseReclaimed host) :=
  kept_foldl (kept_releaseRetained hinert) _ _

theorem kept_releaseReclaimed_of_nil (h : vm.graph.reclaimed = []) : vm.Kept (vm.releaseReclaimed host) := by
  have hgraph : { vm.graph with reclaimed := [] } = vm.graph := by
    rw [← h]
  unfold releaseReclaimed
  rw [h, List.foldl_nil, hgraph]
  exact Kept.refl vm

theorem foldl_disposeNode (nodes : List NodeId) (vm : Vm C Chunk Row α) :
    nodes.foldl disposeNode vm = { vm with graph := nodes.foldl Inner.dispose vm.graph } := by
  induction nodes generalizing vm with
  | nil => rfl
  | cons n nodes ih =>
    rw [List.foldl_cons, ih]
    rfl

/-- What is left of a VM whose effects are disposed. -/
def withoutEffects (vm : Vm C Chunk Row α) : Vm C Chunk Row α :=
  { vm with
    effects := []
    graph := { (vm.effects.map Prod.fst).foldl Inner.dispose vm.graph with reclaimed := [] } }

theorem kept_foldl_disposeEffect (hinert : host.Inert) (effects : List (NodeId × Retained)) (vm : Vm C Chunk Row α) :
    Kept { vm with graph := (effects.map Prod.fst).foldl Inner.dispose vm.graph }
      (effects.foldl (disposeEffect host) vm) := by
  induction effects generalizing vm with
  | nil => exact Kept.refl vm
  | cons effect effects ih =>
    have hfirst : Kept (vm.disposeNode effect.1) (vm.disposeEffect host effect) :=
      kept_releaseRetained hinert _ _
    refine Kept.trans ?_ (ih _)
    refine ⟨⟨hfirst.module, hfirst.globals, hfirst.grown, hfirst.merged, hfirst.typeArgs, ?_, hfirst.effects⟩,
      hfirst.session⟩
    change (effects.map Prod.fst).foldl Inner.dispose _ = (effects.map Prod.fst).foldl Inner.dispose _
    rw [hfirst.graph]
    rfl

theorem Kept.releaseReclaimed (hinert : host.Inert) (h : vm.Kept vm') :
    Kept { vm with graph := { vm.graph with reclaimed := [] } } (vm'.releaseReclaimed host) := by
  refine Kept.trans ?_ (kept_releaseReclaimed hinert vm')
  refine ⟨⟨h.module, h.globals, h.grown, h.merged, h.typeArgs, ?_, h.effects⟩, h.session⟩
  change { vm'.graph with reclaimed := [] } = { vm.graph with reclaimed := [] }
  rw [h.graph]

theorem kept_disposeEffects (hinert : host.Inert) (vm : Vm C Chunk Row α) :
    vm.withoutEffects.Kept (vm.disposeEffects host) := by
  have hdrained := kept_foldl_disposeEffect hinert vm.effects { vm with effects := [] }
  exact (hdrained.releaseReclaimed hinert).trans (kept_syncGates _)

theorem kept_disposeEffects_of_nil (heffects : vm.effects = []) (hreclaimed : vm.graph.reclaimed = []) :
    vm.Kept (vm.disposeEffects host) := by
  have hsame : { vm with effects := [] } = vm := by rw [← heffects]
  unfold disposeEffects
  rw [heffects, List.foldl_nil, hsame]
  exact (kept_releaseReclaimed_of_nil hreclaimed).trans (kept_syncGates _)

theorem kept_disposeHandles (hinert : host.Inert) (handles : List (Value α)) (vm : Vm C Chunk Row α)
    (hreclaimed : vm.graph.reclaimed = []) :
    Kept { vm with graph :=
        { (handles.filterMap Value.node?).foldl Inner.dispose vm.graph with reclaimed := [] } }
      (vm.disposeHandles host handles) := by
  unfold disposeHandles
  split
  · rename_i hnone
    refine ⟨⟨rfl, rfl, rfl, rfl, rfl, ?_, rfl⟩, rfl⟩
    rw [hnone]
    change vm.graph = { vm.graph with reclaimed := [] }
    rw [← hreclaimed]
  · rw [foldl_disposeNode]
    have hreleased := kept_releaseReclaimed hinert
      { vm with graph := (handles.filterMap Value.node?).foldl Inner.dispose vm.graph }
    exact hreleased.trans (kept_syncGates _)

theorem kept_disposeHandles_of_dead {handles : List (Value α)} (hreclaimed : vm.graph.reclaimed = [])
    (hdead : ∀ node ∈ handles.filterMap Value.node?, ¬(vm.graph.nodes node).live) :
    vm.Kept (vm.disposeHandles host handles) := by
  unfold disposeHandles
  split
  · exact Kept.refl vm
  · rw [foldl_disposeNode, Inner.foldl_dispose_of_dead hdead]
    exact (kept_releaseReclaimed_of_nil hreclaimed).trans (kept_syncGates _)

/-! ## The whole swap -/

/-- There is no live session, or its compiler refuses the fragment. -/
def Fails (host : Host C Chunk Row α β S) (vm : Vm C Chunk Row α) (plan : HotFragment β S) : Prop :=
  ∀ session, vm.session = some session →
    ∃ msg, (host.extend session.compiler plan.fragment plan.sites).2 = .error msg

/-- The preparation of a plan that re-runs the top level finds nothing to dispose: no effect is registered, no cell waits
to be released, and no global that is bound again holds the handle of a live signal or computed. -/
def Idle (host : Host C Chunk Row α β S) (vm : Vm C Chunk Row α) (plan : HotFragment β S) : Prop :=
  plan.rerunTopLevel = true → ∀ session, vm.session = some session →
    vm.effects = [] ∧ vm.graph.reclaimed = [] ∧
      ∀ node ∈ (vm.boundHandles (reboundSlots host session plan)).filterMap Value.node?, ¬(vm.graph.nodes node).live

theorem unchanged_retireTier1 (vm : Vm C Chunk Row α) : vm.Kept vm.retireTier1 := by
  unfold retireTier1
  split_ifs
  · exact ⟨⟨rfl, rfl, rfl, rfl, rfl, rfl, rfl⟩, rfl⟩
  · exact Kept.refl vm

theorem unchanged_installPlan (h : vm.Fails host plan) : vm.Unchanged (vm.installPlan host plan).1 := by
  have hretired := unchanged_retireTier1 vm
  unfold installPlan
  cases hsession : vm.session with
  | none =>
    rw [installFragment_of_none hsession]
    exact hretired.toUnchanged
  | some session =>
    obtain ⟨msg, hmsg⟩ := h session hsession
    have hextend : host.extend session.compiler plan.fragment plan.sites =
        ((host.extend session.compiler plan.fragment plan.sites).1, .error msg) := Prod.ext rfl hmsg
    rw [installFragment_of_error hsession hextend]
    exact ⟨hretired.module, hretired.globals, hretired.grown, hretired.merged, hretired.typeArgs, hretired.graph,
      hretired.effects⟩

theorem Fails.of_session (h : vm.Fails host plan) (hsession : vm'.session = vm.session) : vm'.Fails host plan := by
  rw [Fails, hsession]
  exact h

theorem session_hotswapPrepare (hinert : host.Inert) (vm : Vm C Chunk Row α) (rebound : List Nat) :
    (vm.hotswapPrepare host rebound).session = vm.session := by
  have hdisposed := kept_disposeEffects hinert vm
  have hreclaimed : (vm.disposeEffects host).graph.reclaimed = [] := by rw [hdisposed.graph, withoutEffects]
  have hhandles := kept_disposeHandles hinert (vm.boundHandles rebound) (vm.disposeEffects host) hreclaimed
  exact hhandles.session.trans hdisposed.session

theorem kept_hotswapPrepare {rebound : List Nat} (heffects : vm.effects = []) (hreclaimed : vm.graph.reclaimed = [])
    (hdead : ∀ node ∈ (vm.boundHandles rebound).filterMap Value.node?, ¬(vm.graph.nodes node).live) :
    vm.Kept (vm.hotswapPrepare host rebound) := by
  have hdisposed : vm.Kept (vm.disposeEffects host) := kept_disposeEffects_of_nil heffects hreclaimed
  apply hdisposed.trans
  apply kept_disposeHandles_of_dead
  · rw [hdisposed.graph, hreclaimed]
  · rw [hdisposed.graph]
    exact hdead

theorem idle_of_unchanged_prepare {rebound : List Nat} (hinert : host.Inert)
    (h : vm.Unchanged (vm.hotswapPrepare host rebound)) :
    vm.effects = [] ∧ vm.graph.reclaimed = [] ∧
      ∀ node ∈ (vm.boundHandles rebound).filterMap Value.node?, ¬(vm.graph.nodes node).live := by
  have hdisposed := kept_disposeEffects hinert vm
  have hreclaimed : (vm.disposeEffects host).graph.reclaimed = [] := by rw [hdisposed.graph, withoutEffects]
  have hhandles := kept_disposeHandles hinert (vm.boundHandles rebound) (vm.disposeEffects host) hreclaimed
  have heffects : vm.effects = [] := by
    rw [← h.effects, hotswapPrepare, hhandles.effects, hdisposed.effects, withoutEffects]
  have hgraph : vm.graph =
      { ((vm.boundHandles rebound).filterMap Value.node?).foldl Inner.dispose (vm.disposeEffects host).graph with
        reclaimed := [] } := by
    conv_lhs => rw [← h.graph, hotswapPrepare, hhandles.graph]
  have hnil : vm.graph.reclaimed = [] := by rw [hgraph]
  have hsame : (vm.disposeEffects host).graph = vm.graph :=
    (kept_disposeEffects_of_nil heffects hnil).graph
  refine ⟨heffects, hnil, Inner.dead_of_free_foldl ?_⟩
  rw [hsame] at hgraph
  exact (congrArg Inner.free hgraph).symm

/-- If a swap fails, the program finds everything as it was if there was nothing to dispose; and only then, if no
destructor covers it up. -/
theorem applyOneSwap_unchanged_iff (h : vm.Fails host plan) :
    (vm.Idle host plan → vm.Unchanged (vm.applyOneSwap host plan).1) ∧
      (host.Inert → (vm.Unchanged (vm.applyOneSwap host plan).1 ↔ vm.Idle host plan)) := by
  have hsufficient : vm.Idle host plan → vm.Unchanged (vm.applyOneSwap host plan).1 := by
    intro hidle
    unfold applyOneSwap
    split_ifs with hrerun
    · cases hsession : vm.session with
      | none => exact Unchanged.refl vm
      | some session =>
        obtain ⟨heffects, hreclaimed, hdead⟩ := hidle hrerun session hsession
        have hprepared : vm.Kept (vm.hotswapPrepare host (reboundSlots host session plan)) :=
          kept_hotswapPrepare heffects hreclaimed hdead
        exact hprepared.toUnchanged.trans (unchanged_installPlan (h.of_session hprepared.session))
    · exact unchanged_installPlan h
  refine ⟨hsufficient, fun hinert => ⟨fun hunchanged => ?_, hsufficient⟩⟩
  intro hrerun session hsession
  unfold applyOneSwap at hunchanged
  rw [if_pos hrerun, hsession] at hunchanged
  have hfails := h.of_session (session_hotswapPrepare hinert vm (reboundSlots host session plan))
  exact idle_of_unchanged_prepare hinert (hunchanged.of_right (unchanged_installPlan hfails))

end Vm

/-! ## A swap that loses an effect -/

/-- A compiler that refuses every fragment, in a program without destructors. -/
def refusing : Host Unit Unit Unit Unit Unit Unit where
  extend := fun compiler _ _ => (compiler, .error "unsupported")
  globalSlot := fun _ _ => none
  releaseValue := fun _ vm => vm

theorem refusing_inert : refusing.Inert := fun _ vm => Vm.Kept.refl vm

/-- A program with a session, that has registered some effects. -/
def sampleVm (effects : List (NodeId × Retained)) : Vm Unit Unit Unit Unit where
  session := some { compiler := (), memo := [] }
  module := { main := (), rest := [], grown := fun _ => [], merged := fun _ => [], typeArgHints := [], globalNames := [] }
  globals := []
  grown := fun _ => []
  merged := fun _ => []
  typeArgs := []
  graph := { size := 1, nodes := fun _ => { kind := .effect, live := true, body := some 0 } }
  effects := effects
  gatesOpen := true
  closedGates := []
  arena := [some (.other ())]
  arenaFree := []
  jitArmed := false
  jitGraveyard := 0

/-- A plan that re-runs the top level. -/
def rerun : HotFragment Unit Unit where
  fragment := []
  rerunTopLevel := true
  added := []
  changed := []
  sites := none

theorem sampleVm_fails (effects : List (NodeId × Retained)) : (sampleVm effects).Fails refusing rerun :=
  fun _ _ => ⟨"unsupported", rfl⟩

/-- Without effects the failure goes unnoticed, with one it does not. -/
theorem applyOneSwap_unchanged_refused :
    (sampleVm []).Unchanged ((sampleVm []).applyOneSwap refusing rerun).1 ∧
      ¬(sampleVm [(0, 0)]).Unchanged ((sampleVm [(0, 0)]).applyOneSwap refusing rerun).1 := by
  constructor
  · apply (Vm.applyOneSwap_unchanged_iff (sampleVm_fails [])).1
    intro _ session _
    exact ⟨rfl, rfl, fun _ hnode => absurd hnode List.not_mem_nil⟩
  · rw [(Vm.applyOneSwap_unchanged_iff (sampleVm_fails [(0, 0)])).2 refusing_inert]
    intro hidle
    exact absurd (hidle rfl _ rfl).1 (by decide)

/-- The effect of the running program is gone, and the program keeps its old version. -/
theorem applyOneSwap_changed :
    ¬∀ (vm : Vm Unit Unit Unit Unit) (plan : HotFragment Unit Unit), vm.Fails refusing plan →
      vm.Unchanged (vm.applyOneSwap refusing plan).1 := by
  intro h
  have hunchanged := h (sampleVm [(0, 0)]) rerun (sampleVm_fails _)
  exact absurd hunchanged.effects (by decide)

end Noeta.Hotswap.Install
