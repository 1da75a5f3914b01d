import Noeta.Reactive.Graph

/-!
# Applying a hot swap

`Vm::apply_one_swap`, `Vm::hotswap_prepare` and `Vm::install_fragment` of `noeta-vm`, with the two hooks of `std.reactive`
they call. The session compiler and what a destructor does are the host's.
-/

namespace Noeta.Hotswap.Install

open Reactive (NodeId Inner)

/-- The tables whose rows are taken over from the tail of a new snapshot. -/
inductive Grown where
  | shapes | packedSchemas | typeReprs | methods | destructors | fieldDefaults
  deriving DecidableEq, Repr

/-- The tables into which those of a new snapshot are merged. -/
inductive Merged where
  | mapPackedSites | orderHintSites | elemWidthSites | bindingHintSites
  | comparableDerives | tojsonDerives | deserializeRecipes | destructReachable
  deriving DecidableEq, Repr

/-- The tables keyed by a place in the source, which a compile without the checker's sites leaves empty. -/
def Merged.isSites : Merged → Bool
  | mapPackedSites | orderHintSites | elemWidthSites | bindingHintSites => true
  | comparableDerives | tojsonDerives | deserializeRecipes | destructReachable => false

/-- A snapshot: proto 0, the other protos, and the tables derived from the declarations. -/
structure Module (Chunk Row : Type) where
  main : Chunk
  rest : List Chunk
  grown : Grown → List Row
  merged : Merged → List Row
  typeArgHints : List Row
  globalNames : List String

def Module.protos {Chunk Row : Type} (m : Module Chunk Row) : List Chunk := m.main :: m.rest

/-- A value, as far as the swap tells values apart. -/
inductive Value (α : Type) where
  | unbound
  | signal (node : NodeId)
  | computed (node : NodeId)
  | other (value : α)
  deriving DecidableEq, Repr

/-- A place in the arena of values that native state keeps alive. -/
abbrev Retained := Nat

/-- `DebugSession`: the live compiler, and the entries of console fragments by text and locals in scope. -/
structure Session (C : Type) where
  compiler : C
  memo : List ((String × List String) × Nat)

/-- The types with a gate that lets reads of their handles skip the graph. -/
inductive Gated where
  | signal | computed
  deriving DecidableEq, Repr

/-- `Vm`, with the state of `std.reactive`. In a table that is a map the last row of a key counts. -/
structure Vm (C Chunk Row α : Type) where
  session : Option (Session C)
  module : Module Chunk Row
  globals : List (Value α)
  grown : Grown → List Row
  merged : Merged → List Row
  typeArgs : List Row
  graph : Inner Retained
  effects : List (NodeId × Retained)
  gatesOpen : Bool
  closedGates : List Gated
  arena : List (Option (Value α))
  arenaFree : List Retained
  jitArmed : Bool
  jitGraveyard : Nat

/-- A top-level statement, as far as the swap looks into it. -/
inductive Stmt (β : Type) where
  | binding (name : String) (rest : β)
  | destructure (targets : List String) (rest : β)
  | other (rest : β)

def bindingTargets {β : Type} : Stmt β → List String
  | .binding name _ => [name]
  | .destructure targets _ => targets
  | .other _ => []

structure HotFragment (β S : Type) where
  fragment : List (Stmt β)
  rerunTopLevel : Bool
  added : List String
  changed : List String
  sites : Option S

/-- What the VM calls: `FragmentCompiler::extend` (without sites) and `extend_checked` (with them), which may leave the
compiler changed either way, `global_slot`, and `release_value`, which may run destructors and through them anything. -/
structure Host (C Chunk Row α β S : Type) where
  extend : C → List (Stmt β) → Option S → C × Except String (Module Chunk Row)
  globalSlot : C → String → Option Nat
  releaseValue : Value α → Vm C Chunk Row α → Vm C Chunk Row α

variable {C Chunk Row α β S : Type}

namespace Vm

/-! ## Disposing the previous epoch -/

/-- `release_retained`: an arena cell is emptied and its value released. -/
def releaseRetained (host : Host C Chunk Row α β S) (vm : Vm C Chunk Row α) (retained : Retained) : Vm C Chunk Row α :=
  match vm.arena[retained]?.join with
  | some value =>
    let vm := host.releaseValue value { vm with arena := vm.arena.set retained none }
    { vm with arenaFree := retained :: vm.arenaFree }
  | none => vm

def releaseReclaimed (host : Host C Chunk Row α β S) (vm : Vm C Chunk Row α) : Vm C Chunk Row α :=
  vm.graph.reclaimed.foldl (releaseRetained host) { vm with graph := { vm.graph with reclaimed := [] } }

def setReadGate (vm : Vm C Chunk Row α) (opened : Bool) (type : Gated) : Vm C Chunk Row α :=
  if opened then { vm with closedGates := vm.closedGates.filter (· ≠ type) }
  else if type ∈ vm.closedGates then vm
  else { vm with closedGates := vm.closedGates ++ [type] }

def syncGates (vm : Vm C Chunk Row α) : Vm C Chunk Row α :=
  let opened := !vm.graph.flushing && vm.graph.computing.isEmpty && vm.graph.dirtyComputeds == 0
  if vm.gatesOpen = opened then vm
  else (({ vm with gatesOpen := opened }).setReadGate opened .signal).setReadGate opened .computed

def disposeNode (vm : Vm C Chunk Row α) (node : NodeId) : Vm C Chunk Row α := { vm with graph := vm.graph.dispose node }

/-- One effect of the drained registry. -/
def disposeEffect (host : Host C Chunk Row α β S) (vm : Vm C Chunk Row α) (effect : NodeId × Retained) :
    Vm C Chunk Row α :=
  (vm.disposeNode effect.1).releaseRetained host effect.2

/-- `hotswap_dispose_effects`. -/
def disposeEffects (host : Host C Chunk Row α β S) (vm : Vm C Chunk Row α) : Vm C Chunk Row α :=
  ((vm.effects.foldl (disposeEffect host) { vm with effects := [] }).releaseReclaimed host).syncGates

end Vm

/-- The node behind a `Signal` or a `Computed`. -/
def Value.node? : Value α → Option NodeId
  | signal node => some node
  | computed node => some node
  | unbound => none
  | other _ => none

namespace Vm

/-- `hotswap_dispose_handles`. -/
def disposeHandles (host : Host C Chunk Row α β S) (handles : List (Value α)) (vm : Vm C Chunk Row α) :
    Vm C Chunk Row α :=
  match handles.filterMap Value.node? with
  | [] => vm
  | nodes => ((nodes.foldl disposeNode vm).releaseReclaimed host).syncGates

/-- The values of the globals that a fragment is about to bind again. -/
def boundHandles (vm : Vm C Chunk Row α) (rebound : List Nat) : List (Value α) :=
  (rebound.filterMap (vm.globals[·]?)).filter fun v =>
    match v with
    | .unbound => false
    | _ => true

def hotswapPrepare (host : Host C Chunk Row α β S) (vm : Vm C Chunk Row α) (rebound : List Nat) : Vm C Chunk Row α :=
  (vm.disposeEffects host).disposeHandles host (vm.boundHandles rebound)

/-! ## Installing a fragment -/

/-- `hotswap_retire_tier1`: the engine goes to the graveyard. -/
def retireTier1 (vm : Vm C Chunk Row α) : Vm C Chunk Row α :=
  if vm.jitArmed then { vm with jitArmed := false, jitGraveyard := vm.jitGraveyard + 1 } else vm

/-- The entry moves to the end of the table, and proto 0 stays the program's `main`. -/
def relocate (vm : Vm C Chunk Row α) (extended : Module Chunk Row) : Module Chunk Row :=
  { extended with main := vm.module.main, rest := extended.rest ++ [extended.main] }

/-- A snapshot compiled without sites keeps the site tables of the running module. -/
def keepSites (vm : Vm C Chunk Row α) (sites : Option S) (extended : Module Chunk Row) : Module Chunk Row :=
  if sites.isNone then
    { extended with merged := fun t => if t.isSites then vm.module.merged t else extended.merged t }
  else extended

/-- How much of a table of the snapshot the VM has already. -/
def installed (vm : Vm C Chunk Row α) : Grown → Nat
  | .shapes => (vm.grown .shapes).length
  | .packedSchemas => (vm.grown .packedSchemas).length
  | .typeReprs => (vm.grown .typeReprs).length
  | .methods => (vm.module.grown .methods).length
  | .destructors => (vm.module.grown .destructors).length
  | .fieldDefaults => (vm.module.grown .fieldDefaults).length

/-- The derived tables and the globals, grown to those of a snapshot. -/
def growTables (vm : Vm C Chunk Row α) (extended : Module Chunk Row) : Vm C Chunk Row α :=
  { vm with
    grown := fun t => vm.grown t ++ (extended.grown t).drop (vm.installed t)
    merged := fun t => vm.merged t ++ extended.merged t
    typeArgs := extended.typeArgHints
    globals := vm.globals.take extended.globalNames.length ++
      List.replicate (extended.globalNames.length - vm.globals.length) .unbound }

def installFragment (host : Host C Chunk Row α β S) (vm : Vm C Chunk Row α) (fragment : List (Stmt β)) (sites : Option S) :
    Vm C Chunk Row α × Except String Nat :=
  let rearm := vm.jitArmed
  let vm := vm.retireTier1
  match vm.session with
  | none => (vm, .error "this run has no debug session (fragments need a session launch)")
  | some session =>
    let (compiler, result) := host.extend session.compiler fragment sites
    let vm := { vm with session := some { compiler := compiler, memo := [] } }
    match result with
    | .error msg => (vm, .error msg)
    | .ok extended =>
      let extended := vm.relocate extended
      let entry := extended.protos.length - 1
      let extended := vm.keepSites sites extended
      let vm := { vm.growTables extended with module := extended }
      ({ vm with jitArmed := rearm }, .ok entry)

@[simp] theorem retireTier1_session (vm : Vm C Chunk Row α) : vm.retireTier1.session = vm.session := by
  unfold retireTier1
  split_ifs <;> rfl

@[simp] theorem retireTier1_module (vm : Vm C Chunk Row α) : vm.retireTier1.module = vm.module := by
  unfold retireTier1
  split_ifs <;> rfl

/-- The snapshot that the VM switches to. -/
def relocated (vm : Vm C Chunk Row α) (sites : Option S) (extended : Module Chunk Row) : Module Chunk Row :=
  vm.keepSites sites (vm.relocate extended)

theorem relocated_main (vm : Vm C Chunk Row α) (sites : Option S) (extended : Module Chunk Row) :
    (vm.relocated sites extended).main = vm.module.main := by
  unfold relocated keepSites
  split_ifs <;> rfl

theorem relocated_rest (vm : Vm C Chunk Row α) (sites : Option S) (extended : Module Chunk Row) :
    (vm.relocated sites extended).rest = extended.rest ++ [extended.main] := by
  unfold relocated keepSites
  split_ifs <;> rfl

theorem relocated_grown (vm : Vm C Chunk Row α) (sites : Option S) (extended : Module Chunk Row) :
    (vm.relocated sites extended).grown = extended.grown := by
  unfold relocated keepSites
  split_ifs <;> rfl

@[simp] theorem retireTier1_grown (vm : Vm C Chunk Row α) : vm.retireTier1.grown = vm.grown := by
  unfold retireTier1
  split_ifs <;> rfl

variable {host : Host C Chunk Row α β S} {vm : Vm C Chunk Row α}

theorem installFragment_of_none (h : vm.session = none) (fragment : List (Stmt β)) (sites : Option S) :
    vm.installFragment host fragment sites =
      (vm.retireTier1, .error "this run has no debug session (fragments need a session launch)") := by
  unfold installFragment
  simp only [retireTier1_session, h]

theorem installFragment_of_error {session : Session C}
    {fragment : List (Stmt β)} {sites : Option S} {compiler : C} {msg : String} (h : vm.session = some session)
    (hextend : host.extend session.compiler fragment sites = (compiler, .error msg)) :
    vm.installFragment host fragment sites =
      ({ vm.retireTier1 with session := some { compiler := compiler, memo := [] } }, .error msg) := by
  unfold installFragment
  simp only [retireTier1_session, h, hextend]

theorem installFragment_of_ok {session : Session C}
    {fragment : List (Stmt β)} {sites : Option S} {compiler : C} {extended : Module Chunk Row}
    (h : vm.session = some session)
    (hextend : host.extend session.compiler fragment sites = (compiler, .ok extended)) :
    vm.installFragment host fragment sites =
      let installing := { vm.retireTier1 with session := some { compiler := compiler, memo := [] } }
      let module := installing.relocated sites extended
      ({ installing.growTables module with module := module, jitArmed := vm.jitArmed },
        .ok (extended.rest.length + 1)) := by
  unfold installFragment
  simp only [retireTier1_session, h, hextend]
  simp only [relocated, relocate, Module.protos, List.length_cons, List.length_append, List.length_nil]
  rfl

/-! ## Applying a plan -/

/-- How the application of a plan goes on: with the entry to run under the console's budget, or not at all. -/
inductive Outcome where
  | skipped (report : String)
  | failed (report : String)
  | running (entry : Nat)
  deriving DecidableEq, Repr

/-- The part of `apply_one_swap` after the preparation. -/
def installPlan (host : Host C Chunk Row α β S) (vm : Vm C Chunk Row α) (plan : HotFragment β S) :
    Vm C Chunk Row α × Outcome :=
  match vm.installFragment host plan.fragment plan.sites with
  | (vm, .ok entry) => (vm, .running entry)
  | (vm, .error msg) => (vm, .failed s!"[hot] swap failed to compile: {msg} — still serving the old version")

/-- The slots of the globals that a fragment binds again. -/
def reboundSlots (host : Host C Chunk Row α β S) (session : Session C) (plan : HotFragment β S) : List Nat :=
  (plan.fragment.flatMap bindingTargets).filterMap (host.globalSlot session.compiler)

def applyOneSwap (host : Host C Chunk Row α β S) (vm : Vm C Chunk Row α) (plan : HotFragment β S) :
    Vm C Chunk Row α × Outcome :=
  if plan.rerunTopLevel then
    match vm.session with
    | none => (vm, .skipped "[hot] no live session — swap skipped")
    | some session => (vm.hotswapPrepare host (reboundSlots host session plan)).installPlan host plan
  else vm.installPlan host plan

end Vm

end Noeta.Hotswap.Install
