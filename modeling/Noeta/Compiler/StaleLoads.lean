import Noeta.Compiler.Regalloc

/-!
# Releasing stale global reads is invisible

The registers released are dead: on no continuation is one read before it is overwritten. So a run of the rewritten chunk does what the run of the original one does, with the same values read, and some drops in between.
-/

namespace Noeta.Compiler.Regalloc

open Noeta.Lib

variable {K V W : Type}

/-! ### Executions -/

/-- Where an operation sends control: on, to its `k`-th target, or out of the frame. -/
inductive Next where
  | fall
  | jump (k : Nat)
  | stop

structure Effect (V W : Type) where
  dst : V
  extra : V
  world : W
  next : Next

/-- What the machine does with values. `world` is the globals, the heap and the output, as far as values show it: how many references an object has is not part of it, and giving one back changes nothing. -/
structure Semantics (K V W : Type) where
  unit : V
  /-- A drop that may run a destructor. -/
  destroy : V → W → W
  exec : Op K → List V → W → Effect V W

structure State (V W : Type) where
  pc : Option Nat
  regs : Reg → V
  world : W

/-- An operation, without where its branches go, and the values it read. -/
abbrev Event (K V : Type) := Op K × List V

/-- The operation up to where its branches go. -/
def Op.erase (op : Op K) : Op K := op.mapJumps fun _ => 0

def write (r : Option Reg) (v : V) (regs : Reg → V) : Reg → V :=
  match r with
  | some r => Function.update regs r v
  | none => regs

/-- Where control goes from `i`. -/
def OpFacts.goto (facts : OpFacts) (i : Nat) : Next → Option Nat
  | .fall => if facts.fallthrough then some (i + 1) else none
  | .jump k => facts.targets[k]?
  | .stop => none

/-- An operation that is no drop, executed at `i`. -/
def exec (sem : Semantics K V W) (i : Nat) (s : State V W) (op : Op K) : List (Event K V) × State V W :=
  let facts := opFacts op
  let reads := facts.uses.map s.regs
  let effect := sem.exec op.erase reads s.world
  ([(op.erase, reads)],
    ⟨facts.goto i effect.next, write facts.extra effect.extra (write facts.dst effect.dst s.regs), effect.world⟩)

/-- An operation executed at `i`; a drop leaves no event. -/
def fire (sem : Semantics K V W) (i : Nat) (s : State V W) : Op K → List (Event K V) × State V W
  | .drop r relevant =>
    ([], ⟨some (i + 1), Function.update s.regs r sem.unit, if relevant then sem.destroy (s.regs r) s.world else s.world⟩)
  | op => exec sem i s op

def step (sem : Semantics K V W) (code : List (Op K)) (s : State V W) : Option (List (Event K V) × State V W) :=
  s.pc.bind fun i => (code[i]?).map (fire sem i s)

/-- The events of a run, as far as it has come. -/
inductive Runs (sem : Semantics K V W) (code : List (Op K)) : State V W → List (Event K V) → State V W → Prop where
  | done {s} : Runs sem code s [] s
  | step {s t u es fs} (h : step sem code s = some (es, t)) (rest : Runs sem code t fs u) :
    Runs sem code s (es ++ fs) u

/-- On some continuation from `i` the register is read before it is overwritten. -/
inductive MayRead (code : List (Op K)) (r : Reg) : Nat → Prop where
  | here {i op} (hop : code[i]? = some op) (h : r ∈ (opFacts op).uses) : MayRead code r i
  | later {i j op} (hop : code[i]? = some op) (hdef : r ∉ (opFacts op).defs)
    (hj : j ∈ successors code i (opFacts op)) (h : MayRead code r j) : MayRead code r i

/-! ### Dead registers -/

section Liveness

variable {code : List (Op K)}

theorem lt_of_getElem? {i : Nat} {op : Op K} (h : code[i]? = some op) : i < code.length :=
  (List.getElem?_eq_some_iff.mp h).1

theorem transfer_mono (live live' : Slot → Finset Reg) (h : ∀ k, live k ⊆ live' k) (k : Slot) :
    transfer code live k ⊆ transfer code live' k := by
  cases k with
  | liveOut i =>
    simp only [transfer]
    split
    · exact Finset.biUnion_mono fun j _ => h (.liveIn j)
    · exact subset_rfl
  | liveIn i =>
    simp only [transfer]
    split
    · exact Finset.union_subset_union_right (Finset.sdiff_subset_sdiff (h (.liveOut i)) subset_rfl)
    · exact subset_rfl

theorem transfer_read (live : Slot → Finset Reg) (h : ∀ k, live k ⊆ read code) (k : Slot) :
    transfer code live k ⊆ read code := by
  cases k with
  | liveOut i =>
    simp only [transfer]
    split
    · exact Finset.biUnion_subset.mpr fun j _ => h (.liveIn j)
    · exact Finset.empty_subset _
  | liveIn i =>
    simp only [transfer]
    split
    · rename_i op hop
      apply Finset.union_subset
      · intro r hr
        exact List.mem_toFinset.mpr
          (List.mem_flatMap.mpr ⟨op, List.mem_of_getElem? hop, List.mem_toFinset.mp hr⟩)
      · exact Finset.sdiff_subset.trans (h (.liveOut i))
    · exact Finset.empty_subset _

theorem analyze_stable {k : Slot} (hk : k ∈ slots code) : transfer code (analyze code) k = analyze code k := by
  apply RoundRobin.settle_stable transfer_mono transfer_read _ _ _ _ _ k hk
  · exact fun _ => Finset.empty_subset _
  · exact fun _ => Finset.empty_subset _
  · omega

variable {r : Reg}

theorem live_of_mayRead {i : Nat} (h : MayRead code r i) : r ∈ analyze code (.liveIn i) := by
  have hslots : ∀ {i : Nat} {op : Op K}, code[i]? = some op → Slot.liveOut i ∈ slots code ∧ Slot.liveIn i ∈ slots code := by
    intro i op hop
    simp [slots, lt_of_getElem? hop]
  induction h with
  | here hop h =>
    rw [← analyze_stable (hslots hop).2, transfer, hop]
    exact Finset.mem_union_left _ (List.mem_toFinset.mpr h)
  | @later i j op hop hdef hj _ ih =>
    rw [← analyze_stable (hslots hop).2, transfer, hop]
    apply Finset.mem_union_right
    rw [Finset.mem_sdiff, List.mem_toFinset, ← analyze_stable (hslots hop).1, transfer, hop]
    exact ⟨Finset.mem_biUnion.mpr ⟨j, List.mem_toFinset.mpr hj, ih⟩, hdef⟩

theorem mem_scan {pinned out redefined : Finset Reg} {dst : Reg} {global i : Nat}
    (h : r ∈ scan code pinned out dst global i redefined) : r ≠ dst ∧ r ∉ out := by
  induction i generalizing redefined with
  | zero => cases h
  | succ i ih =>
    rw [scan] at h
    split at h
    · cases h
    · split at h
      · cases h
      · split at h
        · cases h
        · rcases List.mem_append.mp h with h | h
          · split at h
            · split at h
              · rename_i hcond
                rw [List.mem_singleton.mp h]
                exact ⟨hcond.2.1, hcond.2.2.2.1⟩
              · cases h
            · cases h
          · exact ih h

theorem dead_of_dropsAt {pinned : Finset Reg} {p : Nat} (h : r ∈ dropsAt code pinned p) : ¬ MayRead code r p := by
  unfold dropsAt at h
  split at h
  · rename_i dst global hop
    obtain ⟨hdst, hout⟩ := mem_scan h
    intro hread
    cases hread with
    | here hop' huse =>
      rw [hop] at hop'
      cases hop'
      cases huse
    | @later _ j _ hop' hdef hj hread =>
      apply hout
      rw [← analyze_stable (by simp [slots, lt_of_getElem? hop]), transfer, hop']
      exact Finset.mem_biUnion.mpr ⟨j, List.mem_toFinset.mpr hj, live_of_mayRead hread⟩
  · cases h

end Liveness

/-! ### The code with the drops -/

section Splice

variable {code : List (Op K)} {drops : Nat → List Reg}

theorem splice_drop (i : Nat) : (splice drops code 0).drop (offset drops i) = splice drops (code.drop i) i := by
  induction i with
  | zero => rfl
  | succ i ih =>
    have hnext : code.drop (i + 1) = (code.drop i).drop 1 := (List.drop_drop).symm
    rw [offset, Nat.add_assoc, ← List.drop_drop, ih, hnext]
    cases code.drop i with
    | nil => simp [splice]
    | cons op ops => simp [splice, List.drop_append]

theorem getElem?_splice (i j : Nat) :
    (splice drops code 0)[offset drops i + j]? = (splice drops (code.drop i) i)[j]? := by
  rw [← splice_drop, List.getElem?_drop]

variable (drops) in
theorem splice_group {i : Nat} {op : Op K} (hop : code[i]? = some op) :
    (∀ j (hj : j < (drops i).length), (splice drops code 0)[offset drops i + j]? = some (.drop ((drops i)[j]) false)) ∧
      (splice drops code 0)[remap drops i]? = some op := by
  have hcode : code.drop i = op :: code.drop (i + 1) := by
    obtain ⟨hi, hget⟩ := List.getElem?_eq_some_iff.mp hop
    rw [List.drop_eq_getElem_cons hi, hget]
  refine ⟨?_, ?_⟩
  · intro j hj
    rw [getElem?_splice, hcode, splice, List.getElem?_append_left (by simpa using hj)]
    simp [hj]
  · rw [remap, getElem?_splice, hcode, splice, List.getElem?_append_right (by simp)]
    simp

variable (drops) in
theorem splice_end {i : Nat} (hi : code[i]? = none) (j : Nat) : (splice drops code 0)[offset drops i + j]? = none := by
  rw [getElem?_splice, List.drop_eq_nil_of_le (List.getElem?_eq_none_iff.mp hi)]
  rfl

theorem remap_lt {i j : Nat} (h : i < j) : remap drops i < offset drops j := by
  induction j with
  | zero => omega
  | succ j ih =>
    rw [offset]
    rcases Nat.lt_succ_iff_lt_or_eq.mp h with h | rfl
    · have hlt := ih h
      omega
    · rw [remap]
      omega

theorem place {q : Nat} {op' : Op K} (h : (splice drops code 0)[q]? = some op') :
    ∃ i op, code[i]? = some op ∧ offset drops i ≤ q ∧ q ≤ remap drops i := by
  have hex : ∀ n, q < offset drops n → ∃ i, offset drops i ≤ q ∧ q ≤ remap drops i := by
    intro n
    induction n with
    | zero => exact fun h => absurd h (Nat.not_lt_zero _)
    | succ n ih =>
      intro hq
      by_cases hlt : q < offset drops n
      · exact ih hlt
      · rw [offset] at hq
        exact ⟨n, Nat.le_of_not_lt hlt, by rw [remap]; omega⟩
  have hge : ∀ n, n ≤ offset drops n := by
    intro n
    induction n with
    | zero => exact Nat.zero_le _
    | succ n ih =>
      rw [offset]
      omega
  obtain ⟨i, hlow, hhigh⟩ := hex (q + 1) (hge (q + 1))
  cases hop : code[i]? with
  | some op => exact ⟨i, op, hop, hlow, hhigh⟩
  | none =>
    have hnone := splice_end drops hop (q - offset drops i)
    rw [Nat.add_sub_cancel' hlow, h] at hnone
    cases hnone

end Splice

/-! ### The runs of the two chunks -/

section Simulation

variable {code : List (Op K)} {drops : Nat → List Reg} {sem : Semantics K V W} {s s' : State V W}

/-- The code with the drops, its branches at the images of their targets. -/
def spliced (code : List (Op K)) (drops : Nat → List Reg) : List (Op K) :=
  (splice drops code 0).map (Op.mapJumps (remap drops))

variable {op : Op K} {es : List (Event K V)}

theorem spliced_op {i : Nat} (hop : code[i]? = some op) :
    (spliced code drops)[remap drops i]? = some (op.mapJumps (remap drops)) := by
  rw [spliced, List.getElem?_map, (splice_group drops hop).2]
  rfl

theorem spliced_drop {i q : Nat} (hop : code[i]? = some op) (hlow : offset drops i ≤ q)
    (hhigh : q < remap drops i) : ∃ r ∈ drops i, (spliced code drops)[q]? = some (.drop r false) := by
  have hlt : q - offset drops i < (drops i).length := by
    rw [remap] at hhigh
    omega
  have hget := (splice_group drops hop).1 _ hlt
  rw [Nat.add_sub_cancel' hlow] at hget
  refine ⟨_, List.getElem_mem hlt, ?_⟩
  rw [spliced, List.getElem?_map, hget]
  rfl

@[simp] theorem opFacts_mapJumps (f : Nat → Nat) (op : Op K) :
    opFacts (op.mapJumps f) = { opFacts op with targets := (opFacts op).targets.map f } := by
  cases op <;> rfl

@[simp] theorem erase_mapJumps (f : Nat → Nat) (op : Op K) : (op.mapJumps f).erase = op.erase := by
  cases op with
  | other kind facts => simp [Op.erase, Op.mapJumps, Function.comp_def]
  | _ => rfl

/-- The registers some continuation from `i` may read hold the same. -/
def Agree (code : List (Op K)) (i : Nat) (regs regs' : Reg → V) : Prop := ∀ r, MayRead code r i → regs r = regs' r

/-- The states of the two runs: the second one stands before the image of where the first one is, or among the drops there. -/
structure Matches (code : List (Op K)) (drops : Nat → List Reg) (s s' : State V W) : Prop where
  world : s.world = s'.world
  stopped : s.pc = none ↔ s'.pc = none
  place : ∀ i, s.pc = some i → ∃ q, s'.pc = some q ∧ offset drops i ≤ q ∧ q ≤ remap drops i ∧ Agree code i s.regs s'.regs

theorem Agree.next {i j : Nat} {regs regs' out out' : Reg → V} (hop : code[i]? = some op)
    (hagree : Agree code i regs regs') (hj : j < code.length → j ∈ successors code i (opFacts op))
    (hdef : ∀ r ∈ (opFacts op).defs, out r = out' r)
    (hrest : ∀ r ∉ (opFacts op).defs, out r = regs r ∧ out' r = regs' r) : Agree code j out out' := by
  intro r hread
  have hlt : j < code.length := by
    cases hread with
    | here hop' _ => exact lt_of_getElem? hop'
    | later hop' _ _ _ => exact lt_of_getElem? hop'
  by_cases hr : r ∈ (opFacts op).defs
  · exact hdef r hr
  · obtain ⟨h, h'⟩ := hrest r hr
    rw [h, h']
    exact hagree r (.later hop hr (hj hlt) hread)

theorem mem_successors_goto {i j : Nat} {facts : OpFacts} {next : Next} (h : facts.goto i next = some j)
    (hj : j < code.length) : j ∈ successors code i facts := by
  unfold OpFacts.goto at h
  unfold successors
  split at h
  · split at h
    · rename_i hfall
      cases h
      rw [if_pos ⟨hfall, hj⟩]
      exact List.mem_append_left _ List.mem_cons_self
    · cases h
  · exact List.mem_append_right _ (List.mem_filter.mpr ⟨List.mem_of_getElem? h, by simpa using hj⟩)
  · cases h

variable (drops) in
theorem goto_mapJumps (i : Nat) (facts : OpFacts) (next : Next) :
    (facts.goto i next = none ↔ OpFacts.goto { facts with targets := facts.targets.map (remap drops) } (remap drops i) next = none) ∧
      ∀ j, facts.goto i next = some j → ∃ q,
        OpFacts.goto { facts with targets := facts.targets.map (remap drops) } (remap drops i) next = some q ∧
          offset drops j ≤ q ∧ q ≤ remap drops j := by
  cases next with
  | fall =>
    simp only [OpFacts.goto]
    refine ⟨by simp, ?_⟩
    intro j hj
    split at hj
    · rename_i hfall
      cases hj
      exact ⟨remap drops i + 1, if_pos hfall, le_rfl, Nat.le_add_right _ _⟩
    · cases hj
  | jump k =>
    simp only [OpFacts.goto]
    refine ⟨by simp, ?_⟩
    intro j hj
    exact ⟨remap drops j, by simp [hj], Nat.le_add_right _ _, le_rfl⟩
  | stop => exact ⟨Iff.rfl, fun j hj => by cases hj⟩

theorem write_of_ne {o : Option Reg} {r : Reg} (h : r ∉ o.toList) (v : V) (regs : Reg → V) : write o v regs r = regs r := by
  cases o with
  | none => rfl
  | some r' => exact Function.update_of_ne (by simpa using h) _ _

theorem write_congr {o : Option Reg} {r : Reg} {v : V} {regs regs' : Reg → V} (h : r ∈ o.toList ∨ regs r = regs' r) :
    write o v regs r = write o v regs' r := by
  cases o with
  | none => exact h.resolve_left (by simp)
  | some r' =>
    simp only [write, Function.update_apply]
    split
    · rfl
    · rename_i hne
      exact h.resolve_left (by simpa using hne)

theorem exec_matches {i : Nat} (hop : code[i]? = some op) (hworld : s.world = s'.world)
    (hagree : Agree code i s.regs s'.regs) :
    (exec sem i s op).1 = (exec sem (remap drops i) s' (op.mapJumps (remap drops))).1 ∧
      Matches code drops (exec sem i s op).2 (exec sem (remap drops i) s' (op.mapJumps (remap drops))).2 := by
  have hreads : (opFacts op).uses.map s.regs = (opFacts op).uses.map s'.regs :=
    List.map_congr_left fun r hr => hagree r (.here hop hr)
  obtain ⟨hstop, hgoto⟩ := goto_mapJumps drops i (opFacts op)
    (sem.exec op.erase ((opFacts op).uses.map s'.regs) s'.world).next
  simp only [exec, erase_mapJumps, opFacts_mapJumps, hreads, hworld]
  refine ⟨trivial, rfl, hstop, ?_⟩
  intro j hj
  obtain ⟨q, hq, hlow, hhigh⟩ := hgoto j hj
  refine ⟨q, hq, hlow, hhigh, hagree.next hop (mem_successors_goto hj) ?_ ?_⟩
  · intro r hr
    rcases List.mem_append.mp hr with hr | hr
    · exact write_congr (.inr (write_congr (.inl hr)))
    · exact write_congr (.inl hr)
  · intro r hr
    rw [OpFacts.defs, List.mem_append, not_or] at hr
    exact ⟨(write_of_ne hr.2 _ _).trans (write_of_ne hr.1 _ _), (write_of_ne hr.2 _ _).trans (write_of_ne hr.1 _ _)⟩

variable (drops) (sem) in
theorem fire_matches {i : Nat} {op : Op K} (hop : code[i]? = some op) (hworld : s.world = s'.world)
    (hagree : Agree code i s.regs s'.regs) :
    (fire sem i s op).1 = (fire sem (remap drops i) s' (op.mapJumps (remap drops))).1 ∧
      Matches code drops (fire sem i s op).2 (fire sem (remap drops i) s' (op.mapJumps (remap drops))).2 := by
  cases op with
  | drop r relevant =>
    have hr : s.regs r = s'.regs r := hagree r (.here hop List.mem_cons_self)
    refine ⟨rfl, ?_, ⟨nofun, nofun⟩, ?_⟩
    · simp only [fire, Op.mapJumps, hr, hworld]
    · rintro j hj
      cases hj
      refine ⟨remap drops i + 1, rfl, le_rfl, Nat.le_add_right _ _, hagree.next hop ?_ ?_ ?_⟩
      · intro hlt
        simp [successors, opFacts, hlt]
      · intro r' hr'
        rw [List.mem_singleton.mp hr']
        simp [fire, Op.mapJumps]
      · intro r' hr'
        have hne : r' ≠ r := by simpa [opFacts, OpFacts.defs] using hr'
        simp [fire, Op.mapJumps, hne]
  | loadGlobal dst global => exact exec_matches hop hworld hagree
  | storeGlobal src global => exact exec_matches hop hworld hagree
  | takeGlobal dst global => exact exec_matches hop hworld hagree
  | other kind facts => exact exec_matches hop hworld hagree

variable (sem) in
theorem step_drop (hdead : ∀ i, ∀ r ∈ drops i, ¬ MayRead code r i) (h : Matches code drops s s') {i q : Nat} {op : Op K}
    (hpc : s.pc = some i) (hop : code[i]? = some op) (hq : s'.pc = some q) (hlow : offset drops i ≤ q)
    (hlt : q < remap drops i) (hagree : Agree code i s.regs s'.regs) :
    ∃ t', step sem (spliced code drops) s' = some ([], t') ∧ t'.pc = some (q + 1) ∧ Matches code drops s t' := by
  obtain ⟨r, hr, hget⟩ := spliced_drop hop hlow hlt
  refine ⟨⟨some (q + 1), Function.update s'.regs r sem.unit, s'.world⟩, ?_, rfl, h.world, ?_, ?_⟩
  · rw [step, hq, Option.bind_some, hget]
    rfl
  · rw [hpc]
    exact ⟨nofun, nofun⟩
  · intro j hj
    rw [hpc] at hj
    cases hj
    refine ⟨q + 1, rfl, Nat.le_succ_of_le hlow, hlt, ?_⟩
    intro r' hread
    have hne : r' ≠ r := fun heq => hdead i r hr (heq ▸ hread)
    rw [hagree r' hread]
    exact (Function.update_of_ne hne _ _).symm

variable (sem) in
theorem step_image (h : Matches code drops s s') {i : Nat} {op : Op K} (hpc : s.pc = some i) (hop : code[i]? = some op)
    (hq : s'.pc = some (remap drops i)) (hagree : Agree code i s.regs s'.regs) :
    ∃ es t t', step sem code s = some (es, t) ∧ step sem (spliced code drops) s' = some (es, t') ∧
      Matches code drops t t' := by
  obtain ⟨hes, hmatches⟩ := fire_matches drops sem hop h.world hagree
  refine ⟨(fire sem i s op).1, _, _, ?_, ?_, hmatches⟩
  · rw [step, hpc, Option.bind_some, hop]
    rfl
  · rw [step, hq, Option.bind_some, spliced_op hop, hes]
    rfl

theorem step_spliced (hdead : ∀ i, ∀ r ∈ drops i, ¬ MayRead code r i) (h : Matches code drops s s')
    {t' : State V W} (hstep : step sem (spliced code drops) s' = some (es, t')) :
    (es = [] ∧ Matches code drops s t') ∨ ∃ t, step sem code s = some (es, t) ∧ Matches code drops t t' := by
  obtain ⟨q', hq', hfire⟩ := Option.bind_eq_some_iff.mp hstep
  cases hpc : s.pc with
  | none =>
    rw [h.stopped.mp hpc] at hq'
    cases hq'
  | some i =>
    obtain ⟨q, hq, hlow, hhigh, hagree⟩ := h.place i hpc
    cases hop : code[i]? with
    | none =>
      have hnone := splice_end drops hop (q - offset drops i)
      rw [Nat.add_sub_cancel' hlow] at hnone
      rw [step, hq, Option.bind_some, spliced, List.getElem?_map, hnone] at hstep
      cases hstep
    | some op =>
      rcases Nat.lt_or_eq_of_le hhigh with hlt | rfl
      · obtain ⟨t, hdrop, -, hmatches⟩ := step_drop sem hdead h hpc hop hq hlow hlt hagree
        rw [hdrop] at hstep
        cases hstep
        exact .inl ⟨rfl, hmatches⟩
      · obtain ⟨es', t, t'', hold, hnew, hmatches⟩ := step_image sem h hpc hop hq hagree
        rw [hnew] at hstep
        cases hstep
        exact .inr ⟨t, hold, hmatches⟩

theorem runs_of_step (hdead : ∀ i, ∀ r ∈ drops i, ¬ MayRead code r i) (h : Matches code drops s s')
    {t : State V W} (hstep : step sem code s = some (es, t)) :
    ∃ t', Matches code drops t t' ∧ ∀ {fs u}, Runs sem (spliced code drops) t' fs u →
      Runs sem (spliced code drops) s' (es ++ fs) u := by
  obtain ⟨i, hpc, hfire⟩ := Option.bind_eq_some_iff.mp hstep
  obtain ⟨op, hop, -⟩ := Option.map_eq_some_iff.mp hfire
  obtain ⟨q, hq, hlow, hhigh, hagree⟩ := h.place i hpc
  obtain ⟨left, hleft⟩ := Nat.exists_eq_add_of_le hhigh
  -- the induction is on the drops left before the image
  induction left generalizing s' q with
  | zero =>
    rw [Nat.add_zero] at hleft
    rw [← hleft] at hq
    obtain ⟨es', t₁, t', hold, hnew, hmatches⟩ := step_image sem h hpc hop hq hagree
    rw [hold] at hstep
    cases hstep
    exact ⟨t', hmatches, fun hruns => .step hnew hruns⟩
  | succ left ih =>
    obtain ⟨t₁, hdrop, hpc', hmatches⟩ := step_drop sem hdead h hpc hop hq hlow (by omega) hagree
    obtain ⟨q', hq', hlow', hhigh', hagree'⟩ := hmatches.place i hpc
    rw [hpc'] at hq'
    cases hq'
    obtain ⟨t', hmatches', hruns⟩ := ih hmatches (q + 1) hpc' hlow' hhigh' hagree' (by omega)
    exact ⟨t', hmatches', fun {fs u} h => show Runs sem _ s' ([] ++ (es ++ fs)) u from .step hdrop (hruns h)⟩

theorem runs_spliced (hdead : ∀ i, ∀ r ∈ drops i, ¬ MayRead code r i) {t : State V W}
    (hruns : Runs sem code s es t) (h : Matches code drops s s') : ∃ t', Runs sem (spliced code drops) s' es t' := by
  induction hruns generalizing s' with
  | done => exact ⟨s', .done⟩
  | step hstep _ ih =>
    obtain ⟨t', hmatches, hthen⟩ := runs_of_step hdead h hstep
    obtain ⟨u, hu⟩ := ih hmatches
    exact ⟨u, hthen hu⟩

theorem runs_of_spliced (hdead : ∀ i, ∀ r ∈ drops i, ¬ MayRead code r i) {t' : State V W}
    (hruns : Runs sem (spliced code drops) s' es t') (h : Matches code drops s s') : ∃ t, Runs sem code s es t := by
  induction hruns generalizing s with
  | done => exact ⟨s, .done⟩
  | step hstep _ ih =>
    rcases step_spliced hdead h hstep with ⟨rfl, hmatches⟩ | ⟨t, hold, hmatches⟩
    · exact ih hmatches
    · obtain ⟨u, hu⟩ := ih hmatches
      exact ⟨u, .step hold hu⟩

end Simulation

/-! ### The pass is invisible -/

/-- How a chunk comes out of the pass, `image` being where its operations went. -/
structure Invisible (c c' : Chunk K) (image : Nat → Nat) : Prop where
  /-- Every operation is still there, each branch to the image of its target. -/
  ops : ∀ i op, c.code[i]? = some op → c'.code[image i]? = some (op.mapJumps image)
  order : ∀ i j, i < j → image i < image j
  entry : image 0 = 0
  /-- What else there is drops a register no continuation reads before it is overwritten. -/
  inserted : ∀ q op', c'.code[q]? = some op' → (∃ i op, c.code[i]? = some op ∧ q = image i) ∨
    ∃ i r, q < image i ∧ (∀ j < i, image j < q) ∧ op' = .drop r false ∧ ¬ MayRead c.code r i
  lines : c'.lineTable = c.lineTable.map fun e => (image e.1, e.2)
  /-- From every operation on, the same operations run and read the same values. -/
  runs : ∀ (V W : Type) (sem : Semantics K V W) (pc : Nat) (regs : Reg → V) (world : W) (es : List (Event K V)),
    (∃ t, Runs sem c.code ⟨some pc, regs, world⟩ es t) ↔ ∃ t, Runs sem c'.code ⟨some (image pc), regs, world⟩ es t

theorem invisible_refl (c : Chunk K) : Invisible c c fun i => i where
  ops i op hop := by
    rw [hop]
    cases op <;> simp [Op.mapJumps]
  order _ _ h := h
  entry := rfl
  inserted q op' hop := .inl ⟨q, op', hop, rfl⟩
  lines := by simp
  runs _ _ _ _ _ _ _ := Iff.rfl

theorem invisible_spliced (c : Chunk K) :
    Invisible c { c with
      code := spliced c.code c.drops
      lineTable := c.lineTable.map fun e => (remap c.drops e.1, e.2) } (remap c.drops) where
  ops _ _ hop := spliced_op hop
  order _ _ h := (remap_lt h).trans_le (Nat.le_add_right _ _)
  entry := by
    have hdrops : c.drops 0 = [] := by
      unfold Chunk.drops dropsAt
      split <;> rfl
    rw [remap, hdrops]
    rfl
  inserted q op' hop' := by
    obtain ⟨spliceOp, hget, -⟩ := Option.map_eq_some_iff.mp ((List.getElem?_map).symm.trans hop')
    obtain ⟨i, op, hop, hlow, hhigh⟩ := place hget
    rcases Nat.lt_or_eq_of_le hhigh with hlt | rfl
    · obtain ⟨r, hr, hdrop⟩ := spliced_drop hop hlow hlt
      have hop'' : some op' = some (Op.drop r false) := hop'.symm.trans hdrop
      cases hop''
      exact .inr ⟨i, r, hlt, fun j hj => (remap_lt hj).trans_le hlow, rfl, dead_of_dropsAt hr⟩
    · exact .inl ⟨i, op, hop, rfl⟩
  lines := rfl
  runs V W sem pc regs world es := by
    have hdead : ∀ i, ∀ r ∈ c.drops i, ¬ MayRead c.code r i := fun i r hr => dead_of_dropsAt hr
    have hmatches : Matches c.code c.drops (⟨some pc, regs, world⟩ : State V W) ⟨some (remap c.drops pc), regs, world⟩ := by
      refine ⟨rfl, ⟨nofun, nofun⟩, ?_⟩
      intro i hi
      cases hi
      exact ⟨_, rfl, Nat.le_add_right _ _, le_rfl, fun _ _ => rfl⟩
    exact ⟨fun ⟨_, hruns⟩ => runs_spliced hdead hruns hmatches, fun ⟨_, hruns⟩ => runs_of_spliced hdead hruns hmatches⟩

/-- A loop over a self-update of a global: a branch, a read, an echo of it, the take, the store, and the end. -/
def selfUpdate : Chunk String where
  code := [.other "JumpIfFalse" ⟨none, none, [0], [5], true⟩, .loadGlobal 1 0, .other "Echo" ⟨none, none, [1], [], true⟩,
    .takeGlobal 2 0, .storeGlobal 2 0, .other "Halt" ⟨none, none, [], [], false⟩]
  numRegisters := 3
  frameLocals := []
  debugLocals := []
  lineTable := [(5, 0)]

example : (selfUpdate.drops 3, remap selfUpdate.drops 5) = ([1], 6) := by decide +kernel

end Noeta.Compiler.Regalloc
