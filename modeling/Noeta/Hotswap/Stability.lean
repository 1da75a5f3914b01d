import Noeta.Hotswap.Install

/-!
# Running code across installs

Frames and closures name their chunk by its index in the module of the moment. The machine below runs frames, in runs
within runs and in suspended strands, and installs fragments at any time between two of its steps.
-/

namespace Noeta.Hotswap.Install

variable {C Chunk Row α β S : Type}

/-- What code refers to by index: the protos that a chunk names and the proto that a row of a dispatch table leads to. -/
structure Code (Chunk Row : Type) where
  names : Chunk → List Nat
  target : Row → Option Nat

/-- A VM with the protos of its frames, innermost first, those of the suspended strands, those of all closures that exist,
and the entry of the last fragment installed, which a console may run again. -/
structure Machine (C Chunk Row α : Type) where
  vm : Vm C Chunk Row α
  stack : List Nat
  parked : List (List Nat)
  closures : List Nat
  entry : Option Nat

inductive Op (β S : Type) where
  | install (fragment : List (Stmt β)) (sites : Option S)
  | enter
  | callClosure (proto : Nat)
  | dispatch (proto : Nat)
  | call (proto : Nat)
  | makeClosure (proto : Nat)
  | ret
  | park (depth : Nat)
  | resume (strand : Nat)

namespace Machine

def frames (m : Machine C Chunk Row α) : List Nat := m.stack ++ m.parked.flatten

/-- The chunk an index resolves to. -/
def resolve (m : Machine C Chunk Row α) (proto : Nat) : Option Chunk := m.vm.module.protos[proto]?

/-- The chunk of the innermost frame names a proto. -/
def Names (code : Code Chunk Row) (m : Machine C Chunk Row α) (proto : Nat) : Prop :=
  ∃ frame chunk, m.stack.head? = some frame ∧ m.resolve frame = some chunk ∧ proto ∈ code.names chunk

/-- A dispatch table leads to a proto. -/
def Dispatches (code : Code Chunk Row) (m : Machine C Chunk Row α) (proto : Nat) : Prop :=
  ∃ table, ∃ row ∈ m.vm.grown table, code.target row = some proto

def push (m : Machine C Chunk Row α) (proto : Nat) : Machine C Chunk Row α := { m with stack := proto :: m.stack }

/-- An install, which leaves the last entry as it was if it fails. -/
def install (host : Host C Chunk Row α β S) (m : Machine C Chunk Row α) (fragment : List (Stmt β)) (sites : Option S) :
    Machine C Chunk Row α :=
  match m.vm.installFragment host fragment sites with
  | (vm, .ok entry) => { m with vm := vm, entry := some entry }
  | (vm, .error _) => { m with vm := vm }

end Machine

open Machine

/-- One step of the machine. -/
inductive Step (host : Host C Chunk Row α β S) (code : Code Chunk Row) :
    Machine C Chunk Row α → Op β S → Machine C Chunk Row α → Prop
  | install {m} (fragment sites) : Step host code m (.install fragment sites) (m.install host fragment sites)
  | enter {m} {entry : Nat} (h : m.entry = some entry) : Step host code m .enter (m.push entry)
  | callClosure {m} {proto : Nat} (h : proto ∈ m.closures) : Step host code m (.callClosure proto) (m.push proto)
  | dispatch {m} {proto : Nat} (h : m.Dispatches code proto) : Step host code m (.dispatch proto) (m.push proto)
  | call {m} {proto : Nat} (h : m.Names code proto) : Step host code m (.call proto) (m.push proto)
  | makeClosure {m} {proto : Nat} (h : m.Names code proto) :
      Step host code m (.makeClosure proto) { m with closures := proto :: m.closures }
  | ret {m} {frame : Nat} {stack : List Nat} (h : m.stack = frame :: stack) :
      Step host code m .ret { m with stack := stack }
  | park {m} (depth : Nat) :
      Step host code m (.park depth) { m with stack := m.stack.drop depth, parked := m.stack.take depth :: m.parked }
  | resume {m} {strand : Nat} {frames : List Nat} (h : m.parked[strand]? = some frames) :
      Step host code m (.resume strand) { m with stack := frames ++ m.stack, parked := m.parked.eraseIdx strand }

/-- Every frame and every closure resolves to the chunk it resolved to. -/
def Stable (m m' : Machine C Chunk Row α) : Prop :=
  ∀ proto ∈ m.frames ++ m.closures, m'.resolve proto = m.resolve proto

/-- No frame runs the entry of the last fragment when another is installed. -/
def Clear (m : Machine C Chunk Row α) : Op β S → Prop
  | .install _ _ => ∀ frame ∈ m.frames, m.entry ≠ some frame
  | _ => True

/-- The states of the runs from a start in which every step meets a condition. -/
inductive Run (host : Host C Chunk Row α β S) (code : Code Chunk Row) (P : Machine C Chunk Row α → Op β S → Prop)
    (start : Machine C Chunk Row α) : Machine C Chunk Row α → Prop
  | start : Run host code P start start
  | step {m m' : Machine C Chunk Row α} {op : Op β S} (h : Run host code P start m) (hop : P m op)
      (hstep : Step host code m op m') : Run host code P start m'

/-! ## The session compiler -/

/-- The compiler only ever appends to its table, apart from proto 0, returns all of it, and emits no index beyond it. -/
structure Accumulates (host : Host C Chunk Row α β S) (code : Code Chunk Row) (table : C → List Chunk) : Prop where
  returned : ∀ {c c' fragment sites extended}, host.extend c fragment sites = (c', .ok extended) →
    extended.rest = table c'
  grows : ∀ {c c' fragment sites result}, host.extend c fragment sites = (c', result) → table c <+: table c'
  named : ∀ {c c' fragment sites extended}, host.extend c fragment sites = (c', .ok extended) →
    ∀ chunk ∈ extended.protos, ∀ proto ∈ code.names chunk, proto ≤ extended.rest.length
  targeted : ∀ {c c' fragment sites extended}, host.extend c fragment sites = (c', .ok extended) →
    ∀ grown, ∀ row ∈ extended.grown grown, ∀ proto, code.target row = some proto → proto ≤ extended.rest.length

/-- What a machine refers to lies in a table that the module and the compiler's own table extend. The one index outside is
that of the last entry, which only frames have. -/
structure Within (code : Code Chunk Row) (table : C → List Chunk) (known : List Chunk) (m : Machine C Chunk Row α) :
    Prop where
  module : known <+: m.vm.module.rest
  compiler : ∀ session, m.vm.session = some session → known <+: table session.compiler
  frames : ∀ frame ∈ m.frames, frame ≤ known.length ∨ m.entry = some frame
  closures : ∀ proto ∈ m.closures, proto ≤ known.length
  named : ∀ chunk ∈ m.vm.module.protos, ∀ proto ∈ code.names chunk, proto ≤ known.length
  targeted : ∀ proto, m.Dispatches code proto → proto ≤ known.length

/-- A program at its launch: `main` runs, and the compiler's table is the module's. -/
structure Launched (code : Code Chunk Row) (table : C → List Chunk) (m : Machine C Chunk Row α) : Prop where
  compiler : ∀ session, m.vm.session = some session → table session.compiler = m.vm.module.rest
  stack : m.stack = [0]
  parked : m.parked = []
  closures : m.closures = []
  entry : m.entry = none
  named : ∀ chunk ∈ m.vm.module.protos, ∀ proto ∈ code.names chunk, proto ≤ m.vm.module.rest.length
  targeted : ∀ proto, m.Dispatches code proto → proto ≤ m.vm.module.rest.length

variable {host : Host C Chunk Row α β S} {code : Code Chunk Row} {table : C → List Chunk} {known : List Chunk}
  {m m' start : Machine C Chunk Row α} {op : Op β S}

theorem Launched.within (h : Launched code table m) : Within code table m.vm.module.rest m where
  module := List.prefix_refl _
  compiler session hsession := by rw [h.compiler session hsession]
  frames frame hframe := by
    rw [Machine.frames, h.stack, h.parked, List.flatten_nil, List.append_nil, List.mem_singleton] at hframe
    rw [hframe]
    exact Or.inl (Nat.zero_le _)
  closures proto hproto := by
    rw [h.closures] at hproto
    exact absurd hproto List.not_mem_nil
  named := h.named
  targeted := h.targeted

/-! ## One install -/

/-- A VM after an install that succeeded, as far as code sees it. -/
structure Installed (vm vm' : Vm C Chunk Row α) (extended : Module Chunk Row) : Prop where
  main : vm'.module.main = vm.module.main
  rest : vm'.module.rest = extended.rest ++ [extended.main]
  grown : ∀ t, ∀ row ∈ vm'.grown t, row ∈ vm.grown t ∨ row ∈ extended.grown t

/-- A VM after an install that failed. -/
structure Refused (vm vm' : Vm C Chunk Row α) : Prop where
  module : vm'.module = vm.module
  grown : vm'.grown = vm.grown

/-- What an install can do. -/
theorem install_cases (host : Host C Chunk Row α β S) (m : Machine C Chunk Row α) (fragment : List (Stmt β))
    (sites : Option S) :
    (∃ vm, m.install host fragment sites = { m with vm := vm } ∧ Refused m.vm vm ∧
        ∀ session', vm.session = some session' → ∃ session, m.vm.session = some session ∧
          ∃ result, host.extend session.compiler fragment sites = (session'.compiler, result)) ∨
      ∃ session extended vm, m.install host fragment sites = { m with vm := vm, entry := some (extended.rest.length + 1) } ∧
        m.vm.session = some session ∧ Installed m.vm vm extended ∧ ∃ compiler,
          host.extend session.compiler fragment sites = (compiler, .ok extended) ∧
            ∀ session', vm.session = some session' → session'.compiler = compiler := by
  unfold Machine.install
  cases hsession : m.vm.session with
  | none =>
    left
    rw [Vm.installFragment_of_none hsession]
    refine ⟨_, rfl, ⟨Vm.retireTier1_module _, Vm.retireTier1_grown _⟩, fun session' h => ?_⟩
    rw [Vm.retireTier1_session, hsession] at h
    cases h
  | some session =>
    cases hextend : host.extend session.compiler fragment sites with
    | mk compiler result =>
      cases result with
      | error msg =>
        left
        rw [Vm.installFragment_of_error hsession hextend]
        refine ⟨_, rfl, ⟨Vm.retireTier1_module _, Vm.retireTier1_grown _⟩, fun session' h => ?_⟩
        cases h
        exact ⟨session, rfl, _, hextend⟩
      | ok extended =>
        right
        rw [Vm.installFragment_of_ok hsession hextend]
        refine ⟨session, extended, _, rfl, rfl, ⟨?_, ?_, ?_⟩, compiler, hextend, fun session' h => ?_⟩
        · rw [Vm.relocated_main]
          exact congrArg Module.main (Vm.retireTier1_module _)
        · exact Vm.relocated_rest _ _ _
        · intro t row hrow
          obtain hrow | hrow := List.mem_append.mp hrow
          · rw [Vm.retireTier1_grown] at hrow
            exact Or.inl hrow
          · rw [Vm.relocated_grown] at hrow
            exact Or.inr (List.mem_of_mem_drop hrow)
        · cases h
          rfl

theorem resolve_eq_of_within {proto : Nat} (hmain : m'.vm.module.main = m.vm.module.main)
    (h : known <+: m.vm.module.rest) (h' : known <+: m'.vm.module.rest) (hproto : proto ≤ known.length) :
    m'.resolve proto = m.resolve proto := by
  obtain ⟨more, hmore⟩ := h
  obtain ⟨more', hmore'⟩ := h'
  rw [Machine.resolve, Machine.resolve, Module.protos, Module.protos, hmain, ← hmore, ← hmore']
  cases proto with
  | zero => rfl
  | succ proto =>
    rw [List.getElem?_cons_succ, List.getElem?_cons_succ, List.getElem?_append_left hproto,
      List.getElem?_append_left hproto]

/-- An install on a clear stack keeps all references within the compiler's table, and what they resolve to. -/
theorem Within.install (hcompiler : Accumulates host code table) (h : Within code table known m) {fragment : List (Stmt β)}
    {sites : Option S} (hclear : ∀ frame ∈ m.frames, m.entry ≠ some frame) :
    Stable m (m.install host fragment sites) ∧
      ∃ known', Within code table known' (m.install host fragment sites) := by
  have hframes : ∀ frame ∈ m.frames, frame ≤ known.length :=
    fun frame hframe => (h.frames frame hframe).resolve_right (hclear frame hframe)
  have hrefs : ∀ proto ∈ m.frames ++ m.closures, proto ≤ known.length := by
    intro proto hproto
    obtain hproto | hproto := List.mem_append.mp hproto
    · exact hframes proto hproto
    · exact h.closures proto hproto
  obtain ⟨vm, hinstall, hrefused, hsession⟩ | ⟨session, extended, vm, hinstall, hsession, hinstalled, compiler, hextend,
    hcompilerEq⟩ := install_cases host m fragment sites
  · rw [hinstall]
    refine ⟨fun proto hproto => ?_, known, ?_⟩
    · rw [Machine.resolve, Machine.resolve]
      exact congrArg (fun module => module.protos[proto]?) hrefused.module
    · refine ⟨?_, fun session' hsession' => ?_, h.frames, h.closures, ?_, fun proto hproto => h.targeted proto ?_⟩
      · exact hrefused.module ▸ h.module
      · obtain ⟨session, hold, result, hextend⟩ := hsession session' hsession'
        exact (h.compiler session hold).trans (hcompiler.grows hextend)
      · exact hrefused.module ▸ h.named
      · obtain ⟨t, row, hrow, htarget⟩ := hproto
        exact ⟨t, row, hrefused.grown ▸ hrow, htarget⟩
  · have hrest : known <+: extended.rest := by
      rw [hcompiler.returned hextend]
      exact (h.compiler session hsession).trans (hcompiler.grows hextend)
    have hmodule : extended.rest <+: vm.module.rest := by
      rw [hinstalled.rest]
      exact List.prefix_append _ _
    have hle : known.length ≤ extended.rest.length := hrest.length_le
    rw [hinstall]
    refine ⟨fun proto hproto => ?_, extended.rest, ?_⟩
    · refine resolve_eq_of_within ?_ h.module ?_ (hrefs proto hproto)
      · exact hinstalled.main
      · exact hrest.trans hmodule
    · refine ⟨hmodule, fun session' hsession' => ?_, fun frame hframe => ?_, fun proto hproto => ?_,
        fun chunk hchunk proto hproto => ?_, fun proto hproto => ?_⟩
      · rw [hcompilerEq session' hsession', ← hcompiler.returned hextend]
      · exact Or.inl ((hframes frame hframe).trans hle)
      · exact (h.closures proto hproto).trans hle
      · change chunk ∈ vm.module.main :: vm.module.rest at hchunk
        rw [hinstalled.main, hinstalled.rest, List.mem_cons, List.mem_append, List.mem_singleton] at hchunk
        obtain rfl | hchunk | rfl := hchunk
        · exact (h.named _ List.mem_cons_self proto hproto).trans hle
        · exact hcompiler.named hextend chunk (List.mem_cons_of_mem _ hchunk) proto hproto
        · exact hcompiler.named hextend _ List.mem_cons_self proto hproto
      · obtain ⟨t, row, hrow, htarget⟩ := hproto
        obtain hrow | hrow := hinstalled.grown t row hrow
        · exact (h.targeted proto ⟨t, row, hrow, htarget⟩).trans hle
        · exact hcompiler.targeted hextend t row hrow proto htarget

/-! ## Runs -/

theorem Within.of_names (h : Within code table known m) {proto : Nat} (hnames : m.Names code proto) :
    proto ≤ known.length := by
  obtain ⟨frame, chunk, -, hresolve, hproto⟩ := hnames
  exact h.named chunk (List.mem_of_getElem? hresolve) proto hproto

theorem Within.of_vm (h : Within code table known m) (hvm : m'.vm = m.vm) (hentry : m'.entry = m.entry)
    (hframes : ∀ frame ∈ m'.frames, frame ∈ m.frames ∨ frame ≤ known.length ∨ m.entry = some frame)
    (hclosures : ∀ proto ∈ m'.closures, proto ∈ m.closures ∨ proto ≤ known.length) : Within code table known m' where
  module := hvm ▸ h.module
  compiler := hvm ▸ h.compiler
  frames frame hframe := by
    rw [hentry]
    exact (hframes frame hframe).elim (h.frames frame) id
  closures proto hproto := (hclosures proto hproto).elim (h.closures proto) id
  named := hvm ▸ h.named
  targeted proto hproto := by
    apply h.targeted proto
    rw [Machine.Dispatches, hvm] at hproto
    exact hproto

theorem Within.push (h : Within code table known m) {proto : Nat} (hproto : proto ≤ known.length ∨ m.entry = some proto) :
    Within code table known (m.push proto) := by
  have hvm : (m.push proto).vm = m.vm := rfl
  apply h.of_vm hvm rfl
  · intro frame hframe
    obtain rfl | hframe := List.mem_cons.mp hframe
    · exact Or.inr hproto
    · exact Or.inl hframe
  · intro closure hclosure
    exact Or.inl hclosure

theorem mem_frames_of_mem_strand {strand : Nat} {frames : List Nat} (h : m.parked[strand]? = some frames) {frame : Nat}
    (hframe : frame ∈ frames) : frame ∈ m.frames :=
  List.mem_append_right _ (List.mem_flatten.mpr ⟨frames, List.mem_of_getElem? h, hframe⟩)

/-- One step on a clear stack. -/
theorem Step.stable (hcompiler : Accumulates host code table) (h : Within code table known m) (hstep : Step host code m op m')
    (hclear : Clear m op) : Stable m m' ∧ ∃ known', Within code table known' m' := by
  cases hstep with
  | install fragment sites => exact h.install hcompiler hclear
  | enter hentry => exact ⟨fun _ _ => rfl, known, h.push (Or.inr hentry)⟩
  | callClosure hclosure => exact ⟨fun _ _ => rfl, known, h.push (Or.inl (h.closures _ hclosure))⟩
  | dispatch hdispatch => exact ⟨fun _ _ => rfl, known, h.push (Or.inl (h.targeted _ hdispatch))⟩
  | call hnames => exact ⟨fun _ _ => rfl, known, h.push (Or.inl (h.of_names hnames))⟩
  | makeClosure hnames =>
    refine ⟨fun _ _ => rfl, known, h.of_vm rfl rfl (fun _ => Or.inl) fun proto hproto => ?_⟩
    obtain rfl | hproto := List.mem_cons.mp hproto
    · exact Or.inr (h.of_names hnames)
    · exact Or.inl hproto
  | ret hstack =>
    refine ⟨fun _ _ => rfl, known, h.of_vm rfl rfl (fun frame hframe => Or.inl ?_) fun _ => Or.inl⟩
    rw [Machine.frames, hstack]
    exact List.mem_cons_of_mem _ hframe
  | park depth =>
    refine ⟨fun _ _ => rfl, known, h.of_vm rfl rfl (fun frame hframe => Or.inl ?_) fun _ => Or.inl⟩
    rw [Machine.frames, List.flatten_cons, List.mem_append, List.mem_append] at hframe
    rw [Machine.frames, List.mem_append]
    obtain hframe | hframe | hframe := hframe
    · exact Or.inl (List.mem_of_mem_drop hframe)
    · exact Or.inl (List.mem_of_mem_take hframe)
    · exact Or.inr hframe
  | resume hstrand =>
    refine ⟨fun _ _ => rfl, known, h.of_vm rfl rfl (fun frame hframe => Or.inl ?_) fun _ => Or.inl⟩
    rw [Machine.frames, List.mem_append, List.mem_append] at hframe
    obtain (hframe | hframe) | hframe := hframe
    · exact mem_frames_of_mem_strand hstrand hframe
    · exact List.mem_append_left _ hframe
    · obtain ⟨frames, hframes, hframe⟩ := List.mem_flatten.mp hframe
      exact List.mem_append_right _ (List.mem_flatten.mpr ⟨frames, List.mem_of_mem_eraseIdx hframes, hframe⟩)

theorem Run.within (hcompiler : Accumulates host code table) (hlaunched : Launched code table start)
    (h : Run host code Clear start m) : ∃ known, Within code table known m := by
  induction h with
  | start => exact ⟨_, hlaunched.within⟩
  | step _ hop hstep ih =>
    obtain ⟨known, hwithin⟩ := ih
    exact (Step.stable hcompiler hwithin hstep hop).2

/-- In a run that installs fragments only while no frame is inside the entry of an earlier one, every step leaves every
frame and every closure with the code it had. -/
theorem installs_stable (hcompiler : Accumulates host code table) (hlaunched : Launched code table start)
    (hrun : Run host code Clear start m) (hclear : Clear m op) (hstep : Step host code m op m') : Stable m m' := by
  obtain ⟨known, hwithin⟩ := hrun.within hcompiler hlaunched
  exact (Step.stable hcompiler hwithin hstep hclear).1

/-! ## An install inside an entry -/

/-- A compiler whose fragments are one chunk each, numbered in their order. -/
def counting : Host Nat Nat Unit Unit Unit Unit where
  extend compiler _ _ := (compiler + 1, .ok
    { main := compiler + 1, rest := [], grown := fun _ => [], merged := fun _ => [], typeArgHints := [], globalNames := [] })
  globalSlot _ _ := none
  releaseValue _ vm := vm

def countingCode : Code Nat Unit where
  names _ := []
  target _ := none

theorem counting_accumulates : Accumulates counting countingCode fun _ => [] where
  returned h := by
    cases h
    rfl
  grows _ := List.prefix_refl _
  named _ _ _ _ h := absurd h List.not_mem_nil
  targeted _ _ _ _ _ htarget := absurd htarget (Option.some_ne_none _).symm

/-- A program of one chunk, `main`, at its launch. -/
def launch : Machine Nat Nat Unit Unit where
  vm :=
    { session := some { compiler := 0, memo := [] }
      module := { main := 0, rest := [], grown := fun _ => [], merged := fun _ => [], typeArgHints := [], globalNames := [] }
      globals := []
      grown := fun _ => []
      merged := fun _ => []
      typeArgs := []
      graph := {}
      effects := []
      gatesOpen := true
      closedGates := []
      arena := []
      arenaFree := []
      jitArmed := false
      jitGraveyard := 0 }
  stack := [0]
  parked := []
  closures := []
  entry := none

theorem launch_launched : Launched countingCode (fun _ => []) launch where
  compiler _ _ := rfl
  stack := rfl
  parked := rfl
  closures := rfl
  entry := rfl
  named _ _ _ h := absurd h List.not_mem_nil
  targeted := by
    rintro proto ⟨_, _, hrow, -⟩
    exact absurd hrow List.not_mem_nil

theorem installs_stable_first : Stable launch (launch.install counting [] none) := by
  have hclear : Clear launch (.install [] none : Op Unit Unit) := by
    intro frame _ hentry
    cases hentry
  exact installs_stable counting_accumulates launch_launched .start hclear (.install [] none)

/-- The entry of the first fragment installs the second, and goes on as the second. -/
theorem installs_unstable :
    ¬∀ start m m' : Machine Nat Nat Unit Unit, ∀ op : Op Unit Unit, Launched countingCode (fun _ => []) start →
      Run counting countingCode (fun _ _ => True) start m → Step counting countingCode m op m' → Stable m m' := by
  intro h
  let first := launch.install counting [] none
  have hfirst : Run counting countingCode (fun _ _ => True) launch first :=
    .step .start trivial (.install [] none)
  have hentered : Run counting countingCode (fun _ _ => True) launch (first.push 1) :=
    .step hfirst trivial (.enter rfl)
  have hstable := h launch (first.push 1) _ (.install [] none) launch_launched hentered (.install [] none)
  have hresolve := hstable 1 List.mem_cons_self
  exact absurd hresolve (by decide)

end Noeta.Hotswap.Install
