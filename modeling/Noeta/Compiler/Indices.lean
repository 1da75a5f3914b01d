import Mathlib.Data.List.Nodup
import Mathlib.Data.List.Range
import Mathlib.Tactic.Common

/-!
# Indices into a chunk under construction

A function's compiler numbers constants, diagnostics and registers with `u16`s. The two pools grow without a bound, so an index past the last `u16` denotes an early entry again; the register counter starts over, unless the build checks arithmetic.
-/

namespace Noeta.Compiler

variable {Const Diagnostic : Type}

/-- The counters of `FnCompiler`. -/
structure FnCompiler (Const Diagnostic : Type) where
  consts : List Const
  diags : List Diagnostic
  nextReg : UInt16

namespace FnCompiler

def new : FnCompiler Const Diagnostic := ⟨[], [], 0⟩

/-- `self.next_reg += 1` panics at the last `u16` where the build has overflow checks, and starts over where it has none. -/
def allocReg (checked : Bool) (f : FnCompiler Const Diagnostic) : Option (UInt16 × FnCompiler Const Diagnostic) :=
  if checked = true ∧ f.nextReg = 65535 then none
  else some (f.nextReg, { f with nextReg := f.nextReg + 1 })

def addConst (f : FnCompiler Const Diagnostic) (value : Const) : UInt16 × FnCompiler Const Diagnostic :=
  let idx := UInt16.ofNat f.consts.length
  (idx, { f with consts := f.consts ++ [value] })

def addDiag (f : FnCompiler Const Diagnostic) (diag : Diagnostic) : UInt16 × FnCompiler Const Diagnostic :=
  let idx := UInt16.ofNat f.diags.length
  (idx, { f with diags := f.diags ++ [diag] })

end FnCompiler

/-- What the lowering of a body asks for. -/
inductive Request (Const Diagnostic : Type) where
  | reg
  | const (value : Const)
  | diag (diag : Diagnostic)

/-- The indices given out, each kind in order. -/
structure Issued where
  regs : List UInt16
  consts : List UInt16
  diags : List UInt16

/-- A body's requests, one after the other; `none` is a panic. -/
def serve (checked : Bool) (f : FnCompiler Const Diagnostic) :
    List (Request Const Diagnostic) → Option (Issued × FnCompiler Const Diagnostic)
  | [] => some (⟨[], [], []⟩, f)
  | .reg :: rest =>
    (f.allocReg checked).bind fun (r, f') =>
      (serve checked f' rest).map fun (i, g) => ({ i with regs := r :: i.regs }, g)
  | .const value :: rest =>
    (serve checked (f.addConst value).2 rest).map fun (i, g) =>
      ({ i with consts := (f.addConst value).1 :: i.consts }, g)
  | .diag d :: rest =>
    (serve checked (f.addDiag d).2 rest).map fun (i, g) =>
      ({ i with diags := (f.addDiag d).1 :: i.diags }, g)

/-! ### What was asked for -/

def regsAsked (asked : List (Request Const Diagnostic)) : Nat :=
  asked.countP fun
    | .reg => true
    | _ => false

def constsAsked (asked : List (Request Const Diagnostic)) : List Const :=
  asked.filterMap fun
    | .const value => some value
    | _ => none

def diagsAsked (asked : List (Request Const Diagnostic)) : List Diagnostic :=
  asked.filterMap fun
    | .diag d => some d
    | _ => none

/-- Each index denotes the very entry it was made for: the entry at its own place in the finished pool. -/
def Denotes {α : Type} (indices : List UInt16) (entries pool : List α) : Prop :=
  pool = entries ∧ indices.length = entries.length ∧
    ∀ (k : Nat) (idx : UInt16), indices[k]? = some idx → idx.toNat = k ∧ pool[idx.toNat]? = entries[k]?

/-- No two indices alias. -/
structure NeverAlias (asked : List (Request Const Diagnostic)) (issued : Issued)
    (finished : FnCompiler Const Diagnostic) : Prop where
  consts : Denotes issued.consts (constsAsked asked) finished.consts
  diags : Denotes issued.diags (diagsAsked asked) finished.diags
  regs : issued.regs.Nodup

/-- Compiling the body either fails or issues indices that never alias. -/
def FailsOrNeverAlias (checked : Bool) (asked : List (Request Const Diagnostic)) : Prop :=
  ∀ issued finished, serve checked FnCompiler.new asked = some (issued, finished) →
    NeverAlias asked issued finished

/-- No counter of the body goes past its last `u16`. -/
def FitsU16 (asked : List (Request Const Diagnostic)) : Prop :=
  (constsAsked asked).length ≤ 65536 ∧ (diagsAsked asked).length ≤ 65536 ∧ regsAsked asked ≤ 65536

/-! ### Counting in `u16`s -/

/-- The indices a counter gives out from a start on. -/
def counted (start n : Nat) : List UInt16 := (List.range' start n).map UInt16.ofNat

@[simp] theorem length_counted (start n : Nat) : (counted start n).length = n := by simp [counted]

theorem counted_succ (start n : Nat) : counted start (n + 1) = UInt16.ofNat start :: counted (start + 1) n := by
  simp [counted, List.range'_succ]

theorem getElem?_counted {n k : Nat} {idx : UInt16} (h : (counted 0 n)[k]? = some idx) :
    k < n ∧ idx.toNat = k % 65536 := by
  rw [counted, List.getElem?_map, Option.map_eq_some_iff] at h
  obtain ⟨j, hj, rfl⟩ := h
  obtain ⟨hk, hval⟩ := List.getElem?_eq_some_iff.mp hj
  simp only [List.length_range'] at hk
  simp only [List.getElem_range', Nat.zero_add, Nat.one_mul] at hval
  subst hval
  exact ⟨hk, UInt16.toNat_ofNat'⟩

theorem denotes_counted_iff {α : Type} (entries : List α) :
    Denotes (counted 0 entries.length) entries entries ↔ entries.length ≤ 65536 := by
  constructor
  · rintro ⟨-, -, h⟩
    by_contra hlong
    have hlt : 65536 < (counted 0 entries.length).length := by
      rw [length_counted]
      omega
    have hget := List.getElem?_eq_getElem hlt
    have hown := (h 65536 _ hget).1
    have hwrapped := (getElem?_counted hget).2
    omega
  · intro hle
    refine ⟨rfl, length_counted 0 _, ?_⟩
    intro k idx hget
    obtain ⟨hk, hidx⟩ := getElem?_counted hget
    have hsame : idx.toNat = k := by omega
    exact ⟨hsame, by rw [hsame]⟩

theorem nodup_counted_iff (n : Nat) : (counted 0 n).Nodup ↔ n ≤ 65536 := by
  constructor
  · intro hnodup
    by_contra hlong
    have hlast : 65536 < (counted 0 n).length := by
      rw [length_counted]
      omega
    have hfirst : 0 < (counted 0 n).length := by omega
    have hsame : (counted 0 n)[65536] = (counted 0 n)[0] := by
      simp only [counted, List.getElem_map, List.getElem_range']
      decide
    have hplace := (hnodup.getElem_inj_iff).mp hsame
    omega
  · intro hle
    refine List.Nodup.map_on ?_ List.nodup_range'
    intro x hx y hy hsame
    have hval := congrArg UInt16.toNat hsame
    simp only [UInt16.toNat_ofNat', List.mem_range'_1] at hval hx hy
    omega

/-! ### What a body is given -/

variable {checked : Bool} {asked : List (Request Const Diagnostic)}

/-- Where it does not panic, a body gets its indices from the three counters, and each pool holds what was asked for. -/
theorem serve_eq {f g : FnCompiler Const Diagnostic}
    {issued : Issued} (start : Nat) (hstart : f.nextReg = UInt16.ofNat start)
    (h : serve checked f asked = some (issued, g)) :
    issued.regs = counted start (regsAsked asked) ∧
      issued.consts = counted f.consts.length (constsAsked asked).length ∧
      issued.diags = counted f.diags.length (diagsAsked asked).length ∧
      g.consts = f.consts ++ constsAsked asked ∧ g.diags = f.diags ++ diagsAsked asked := by
  induction asked generalizing f issued start with
  | nil =>
    cases h
    simp [counted, regsAsked, constsAsked, diagsAsked]
  | cons request asked ih =>
    cases request with
    | reg =>
      obtain ⟨⟨r, f'⟩, halloc, hrest⟩ := Option.bind_eq_some_iff.mp h
      obtain ⟨⟨i, g'⟩, hserve, heq⟩ := Option.map_eq_some_iff.mp hrest
      cases heq
      unfold FnCompiler.allocReg at halloc
      split at halloc
      · cases halloc
      · cases halloc
        have hnext : f.nextReg + 1 = UInt16.ofNat (start + 1) := by
          rw [hstart, UInt16.ofNat_add]
          rfl
        obtain ⟨hregs, hconsts, hdiags, hcs, hds⟩ := ih (start + 1) hnext hserve
        refine ⟨?_, hconsts, hdiags, hcs, hds⟩
        simp only [hregs, hstart, regsAsked, List.countP_cons_of_pos, counted_succ]
    | const value =>
      obtain ⟨⟨i, g'⟩, hserve, heq⟩ := Option.map_eq_some_iff.mp h
      cases heq
      obtain ⟨hregs, hconsts, hdiags, hcs, hds⟩ := ih (f := (f.addConst value).2) start hstart hserve
      simp only [FnCompiler.addConst, List.length_append, List.length_singleton] at hconsts hcs hdiags hds
      refine ⟨by simpa [regsAsked] using hregs, ?_, hdiags, ?_, hds⟩
      · simp only [hconsts, FnCompiler.addConst, constsAsked, List.filterMap_cons, List.length_cons,
          counted_succ]
      · rw [hcs, List.append_assoc]
        rfl
    | diag d =>
      obtain ⟨⟨i, g'⟩, hserve, heq⟩ := Option.map_eq_some_iff.mp h
      cases heq
      obtain ⟨hregs, hconsts, hdiags, hcs, hds⟩ := ih (f := (f.addDiag d).2) start hstart hserve
      simp only [FnCompiler.addDiag, List.length_append, List.length_singleton] at hconsts hcs hdiags hds
      refine ⟨by simpa [regsAsked] using hregs, hconsts, ?_, hcs, ?_⟩
      · simp only [hdiags, FnCompiler.addDiag, diagsAsked, List.filterMap_cons, List.length_cons,
          counted_succ]
      · rw [hds, List.append_assoc]
        rfl

theorem serve_unchecked (asked : List (Request Const Diagnostic)) (f : FnCompiler Const Diagnostic) :
    (serve false f asked).isSome := by
  induction asked generalizing f with
  | nil => rfl
  | cons request asked ih =>
    cases request with
    | reg => simpa [serve, FnCompiler.allocReg] using ih _
    | const value => simpa [serve] using ih _
    | diag d => simpa [serve] using ih _

/-- A build with overflow checks panics exactly at the 65536th register. -/
theorem serve_checked (asked : List (Request Const Diagnostic)) (f : FnCompiler Const Diagnostic) :
    (serve true f asked).isSome ↔ f.nextReg.toNat + regsAsked asked < 65536 := by
  induction asked generalizing f with
  | nil => simpa [serve, regsAsked] using f.nextReg.toNat_lt
  | cons request asked ih =>
    cases request with
    | reg =>
      have hcount : regsAsked (.reg :: asked : List (Request Const Diagnostic)) = regsAsked asked + 1 := by
        simp [regsAsked]
      by_cases hlast : f.nextReg = 65535
      · have hval : f.nextReg.toNat = 65535 := by
          rw [hlast]
          rfl
        have hpanic : f.allocReg true = none := by simp [FnCompiler.allocReg, hlast]
        simp only [serve, hpanic, Option.bind_none, Option.isSome_none, Bool.false_eq_true, false_iff,
          hcount]
        omega
      · have hval : f.nextReg.toNat ≠ 65535 := fun h => hlast (UInt16.toNat_inj.mp h)
        have hlt := f.nextReg.toNat_lt
        have hnext : (f.nextReg + 1).toNat = f.nextReg.toNat + 1 := by
          rw [UInt16.toNat_add, UInt16.toNat_one]
          omega
        simp only [serve, FnCompiler.allocReg, hlast, and_false, if_false, Option.bind_some,
          Option.isSome_map, ih, hnext, hcount]
        omega
    | const value =>
      have hcount : regsAsked (.const value :: asked) = regsAsked asked := by simp [regsAsked]
      simpa [serve, hcount, FnCompiler.addConst] using ih (f.addConst value).2
    | diag d =>
      have hcount : regsAsked (.diag d :: asked) = regsAsked asked := by simp [regsAsked]
      simpa [serve, hcount, FnCompiler.addDiag] using ih (f.addDiag d).2

theorem neverAlias_iff {issued : Issued}
    {finished : FnCompiler Const Diagnostic} (h : serve checked FnCompiler.new asked = some (issued, finished)) :
    NeverAlias asked issued finished ↔ FitsU16 asked := by
  obtain ⟨hregs, hconsts, hdiags, hcs, hds⟩ := serve_eq 0 rfl h
  simp only [FnCompiler.new, List.nil_append, List.length_nil] at hconsts hdiags hcs hds
  rw [FitsU16, ← denotes_counted_iff (constsAsked asked), ← denotes_counted_iff (diagsAsked asked),
    ← nodup_counted_iff (regsAsked asked)]
  constructor
  · rintro ⟨h1, h2, h3⟩
    rw [hconsts, hcs] at h1
    rw [hdiags, hds] at h2
    rw [hregs] at h3
    exact ⟨h1, h2, h3⟩
  · rintro ⟨h1, h2, h3⟩
    refine ⟨?_, ?_, ?_⟩
    · rwa [hconsts, hcs]
    · rwa [hdiags, hds]
    · rwa [hregs]

theorem failsOrNeverAlias_of_isSome
    (h : (serve checked FnCompiler.new asked).isSome) : FailsOrNeverAlias checked asked ↔ FitsU16 asked := by
  constructor
  · intro hkept
    obtain ⟨⟨issued, finished⟩, hserve⟩ := Option.isSome_iff_exists.mp h
    exact (neverAlias_iff hserve).mp (hkept issued finished hserve)
  · intro hfits issued finished hserve
    exact (neverAlias_iff hserve).mpr hfits

end Noeta.Compiler
