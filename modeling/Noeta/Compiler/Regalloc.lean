import Noeta.Lib.RoundRobin

/-!
# Releasing stale global reads

`regalloc.rs`: liveness of registers over a chunk, and the pass that drops a register that still holds a global just before the global is taken. Of an operation only what the pass looks at is kept. Indices are not bounded.
-/

namespace Noeta.Compiler.Regalloc

open Noeta.Lib

abbrev Reg := Nat

/-- `OpFacts`, with the register of `extra_defs`. -/
structure OpFacts where
  dst : Option Reg
  extra : Option Reg
  uses : List Reg
  targets : List Nat
  fallthrough : Bool

/-- `Op`. An operation of another kind stands with its facts. -/
inductive Op (K : Type) where
  | loadGlobal (dst : Reg) (global : Nat)
  | storeGlobal (src : Reg) (global : Nat)
  | takeGlobal (dst : Reg) (global : Nat)
  | drop (reg : Reg) (relevant : Bool)
  | other (kind : K) (facts : OpFacts)

variable {K : Type}

def opFacts : Op K → OpFacts
  | .loadGlobal dst _ => ⟨some dst, none, [], [], true⟩
  | .storeGlobal src _ => ⟨none, none, [src], [], true⟩
  | .takeGlobal dst _ => ⟨some dst, none, [], [], true⟩
  | .drop reg _ => ⟨some reg, none, [reg], [], true⟩
  | .other _ facts => facts

/-- The registers an operation overwrites. -/
def OpFacts.defs (facts : OpFacts) : List Reg := facts.dst.toList ++ facts.extra.toList

/-- `for_each_jump_pc_mut`. -/
def Op.mapJumps (f : Nat → Nat) : Op K → Op K
  | .other kind facts => .other kind { facts with targets := facts.targets.map f }
  | op => op

structure Chunk (K : Type) where
  code : List (Op K)
  numRegisters : Nat
  frameLocals : List Reg
  debugLocals : List Reg
  /-- Each entry with its span. -/
  lineTable : List (Nat × Nat)

/-! ### Liveness -/

/-- `live_out[i]` and `live_in[i]`. -/
inductive Slot where
  | liveOut (i : Nat)
  | liveIn (i : Nat)
deriving DecidableEq

variable (code : List (Op K))

/-- Where control may go from an operation at `i`. -/
def successors (i : Nat) (facts : OpFacts) : List Nat :=
  (if facts.fallthrough ∧ i + 1 < code.length then [i + 1] else []) ++ facts.targets.filter (· < code.length)

/-- What a set is recomputed to. -/
def transfer (live : Slot → Finset Reg) : Slot → Finset Reg
  | .liveOut i =>
    match code[i]? with
    | some op => (successors code i (opFacts op)).toFinset.biUnion fun j => live (.liveIn j)
    | none => ∅
  | .liveIn i =>
    match code[i]? with
    | some op => (opFacts op).uses.toFinset ∪ live (.liveOut i) \ (opFacts op).defs.toFinset
    | none => ∅

/-- One round goes through the operations from the last to the first. -/
def slots : List Slot := (List.range code.length).reverse.flatMap fun i => [.liveOut i, .liveIn i]

/-- The registers some operation reads. -/
def read : Finset Reg := (code.flatMap fun op => (opFacts op).uses).toFinset

/-- `Liveness::analyze`. The rounds are enough for the sets to settle (`analyze_stable`). -/
def analyze : Slot → Finset Reg :=
  RoundRobin.settle (transfer code) (slots code) ((slots code).toFinset.card * (read code).card + 1) fun _ => ∅

/-! ### The pass -/

/-- `block_start[i]`. -/
def blockStart (i : Nat) : Bool :=
  i == 0 || (code[i - 1]?).any (fun op => !(opFacts op).fallthrough) || code.any fun op => (opFacts op).targets.contains i

/-- Whether the operation writes the slot of the global. -/
def Op.rebinds (global : Nat) : Op K → Bool
  | .storeGlobal _ g => g == global
  | .takeGlobal _ g => g == global
  | _ => false

/-- The scan backwards from `i`, for a take of `global` into `dst` after which `out` is live. -/
def scan (pinned out : Finset Reg) (dst : Reg) (global : Nat) : Nat → Finset Reg → List Reg
  | 0, _ => []
  | i + 1, redefined =>
    if blockStart code (i + 1) then []
    else
      match code[i]? with
      | none => []
      | some op =>
        if op.rebinds global then []
        else
          let here := match op with
            | .loadGlobal r g =>
              if g = global ∧ r ≠ dst ∧ r ∉ redefined ∧ r ∉ out ∧ r ∉ pinned then [r] else []
            | _ => []
          here ++ scan pinned out dst global i (redefined ∪ (opFacts op).defs.toFinset)

/-- `drops[p]`. -/
def dropsAt (pinned : Finset Reg) (p : Nat) : List Reg :=
  match code[p]? with
  | some (.takeGlobal dst global) => scan code pinned (analyze code (.liveOut p)) dst global p ∅
  | _ => []

/-- The code with the drops spliced in, from the operation at `i` on. -/
def splice (drops : Nat → List Reg) : List (Op K) → Nat → List (Op K)
  | [], _ => []
  | op :: ops, i => (drops i).map (.drop · false) ++ op :: splice drops ops (i + 1)

/-- Where the drops before operation `i` begin. -/
def offset (drops : Nat → List Reg) : Nat → Nat
  | 0 => 0
  | i + 1 => offset drops i + (drops i).length + 1

/-- `remap[i]`. -/
def remap (drops : Nat → List Reg) (i : Nat) : Nat := offset drops i + (drops i).length

def Chunk.pinned (c : Chunk K) : Finset Reg := (c.frameLocals ++ c.debugLocals).toFinset

def Chunk.drops (c : Chunk K) : Nat → List Reg := dropsAt c.code c.pinned

/-- Every branch and every line entry refers to an operation of the chunk. -/
def Chunk.InRange (c : Chunk K) : Prop :=
  (∀ op ∈ c.code, ∀ t ∈ (opFacts op).targets, t < c.code.length) ∧ ∀ e ∈ c.lineTable, e.1 < c.code.length

instance (c : Chunk K) : Decidable c.InRange := inferInstanceAs (Decidable (_ ∧ _))

/-- `release_stale_global_loads`; `none` where it indexes out of range. -/
def releaseStaleGlobalLoads (c : Chunk K) : Option (Chunk K) :=
  if c.code = [] ∨ c.numRegisters = 0 ∨ ∀ p < c.code.length, c.drops p = [] then some c
  else if c.InRange then
    some { c with
      code := (splice c.drops c.code 0).map (Op.mapJumps (remap c.drops))
      lineTable := c.lineTable.map fun e => (remap c.drops e.1, e.2) }
  else none

end Noeta.Compiler.Regalloc
