import Noeta.Vm.Reclaim

/-!
# Runs of heap operations in trial-deletion mode

A run is any sequence of allocations, retains, releases, slot writes, shallow frees and collections with
their reclaims. `State` adds to the heap what its callers hold: `ext`, the references outside the heap, and
`dying`, the objects whose children a destructor-aware release is giving up before it frees them shallowly
(`Op.unwrap` is the point where that starts; it does not touch the heap).

`cellSet` and `setSlot` free the value they displace directly, past the deferral that `free_shallow` gives a
buffered object. `Op.Sound` is the condition under which a step keeps the buffer intact: no slot write
displaces the last reference to a buffered object, and no collection returns a stale live candidate.
-/

namespace Noeta

open Relation

/-- The heap, and the references to it from outside. -/
structure State where
  heap : Heap
  ext : Addr → Nat
  dying : Finset Addr

inductive Op where
  | alloc (a : Addr) (payload : Payload)
  | incRef (a : Addr)
  | release (a : Addr)
  | cellSet (cell : Addr) (value : Value)
  | setSlot (object : Addr) (index : Nat) (value : Value)
  | replaceSlot (object : Addr) (index : Nat) (value : Value)
  | unwrap (a : Addr)
  | freeShallow (a : Addr)
  | collect
  | safepoint (defer : Addr → Bool)

namespace Op

/-- What the step does to the heap. A replaced slot's old occupant is released by the caller. -/
def run (t : Tables) : Op → Heap → Heap
  | alloc a payload, h => h.alloc a payload
  | incRef a, h => h.incRef a
  | release a, h => Heap.release h.depth h a
  | cellSet cell value, h => h.cellSet cell value
  | setSlot object index value, h => h.setSlot object index value
  | replaceSlot object index value, h => (h.replaceSlot object index value).1.dropValue (h.replaceSlot object index value).2
  | unwrap _, h => h
  | freeShallow a, h => h.freeShallow a
  | collect, h => Heap.reclaimCycleGarbage t h.collectTrialDeletion.1 h.collectTrialDeletion.2
  | safepoint defer, h =>
    Heap.reclaimCycleGarbage t (h.collectTrialDeletionSafepoint defer).1 (h.collectTrialDeletionSafepoint defer).2

/-- What the step does to the references held outside. -/
def ext : Op → State → Addr → Nat
  | alloc a payload, s => Heap.allocExt s.ext a payload.children
  | incRef a, s => Heap.more s.ext a
  | release a, s => Heap.less s.ext a
  | unwrap a, s => Heap.plus (Heap.less s.ext a) (s.heap.children a)
  | _, s => s.ext

def dying : Op → State → Finset Addr
  | unwrap a, s => insert a s.dying
  | freeShallow a, s => s.dying.erase a
  | _, s => s.dying

def step (t : Tables) (op : Op) (s : State) : State := ⟨op.run t s.heap, op.ext s, op.dying s⟩

/-- `v` is an immediate, or refers to an object the program can still use. -/
def Usable (s : State) (v : Value) : Prop := ∀ a, v = .ptr a → a ∈ s.heap.owners \ s.dying

/-- `a` is an object the program may mutate, with the payload `p`. -/
def Mutable (s : State) (a : Addr) (p : Payload) : Prop :=
  a ∈ s.heap.owners \ s.dying ∧ s.heap.isShared a = false ∧ s.heap.payload? a = some p

/-- What the callers of each primitive guarantee: they own the references they give up, use objects that are
there, and collect between operations only. -/
def Pre : Op → State → Prop
  | alloc a payload, s => ¬ s.heap.Allocated a ∧ (∀ x, payload.children.count x ≤ s.ext x) ∧
      ∀ x, s.heap.isShared x = true → payload.children.count x < s.ext x
  | incRef a, s => a ∈ s.heap.owners \ s.dying
  | release a, s => 0 < s.ext a ∧ (s.heap.isShared a = true → 1 < s.ext a)
  | cellSet cell value, s => Usable s value ∧ ∃ old, Mutable s cell (.cell old)
  | setSlot object index value, s | replaceSlot object index value, s =>
      Usable s value ∧ ∃ shape slots, Mutable s object (.object shape slots) ∧ index < slots.length
  | unwrap a, s => a ∈ s.heap.owners \ s.dying ∧ s.heap.isShared a = false ∧ s.ext a = 1 ∧ s.heap.refcount a = 1
  | freeShallow a, s => a ∈ s.dying
  | collect, s | safepoint _, s => s.dying = ∅

/-- Overwriting `old` with `value` drops the last reference to a buffered object. -/
def DropsBuffered (h : Heap) (old value : Value) : Prop :=
  ∃ b, old = .ptr b ∧ value ≠ .ptr b ∧ h.refcount b = 1 ∧ h.buffered b = true

/-- The condition on a step. -/
def Sound : Op → State → Prop
  | cellSet cell value, s => ∀ old, s.heap.payload? cell = some (.cell old) → ¬ DropsBuffered s.heap old value
  | setSlot object index value, s => ∀ shape slots old, s.heap.payload? object = some (.object shape slots) →
      slots[index]? = some old → ¬ DropsBuffered s.heap old value
  | collect, s | safepoint _, s =>
      ∀ x, s.heap.StaleIn s.heap.candidates x → ¬ s.heap.HeldOutside s.ext x
  | _, _ => True

end Op

namespace Heap

variable {h : Heap} {ext : Addr → Nat} {dying : Finset Addr}

/-- A direct drop of a reference: sound when it does not free a buffered object. -/
theorem Owned.decRefAndFree {b : Addr} (ho : Owned h ext dying) (hpos : 0 < ext b)
    (hsh : h.isShared b = true → 1 < ext b) (hbuf : h.refcount b = 1 → h.buffered b = false) :
    Owned (h.decRefAndFree (.ptr b)) (less ext b) dying ∧ (h.decRefAndFree (.ptr b)).mode = h.mode := by
  rw [Heap.decRefAndFree, decRef]
  by_cases hs : h.isShared b = true
  · rw [if_pos hs]
    simp only [Bool.false_eq_true, if_false, and_true]
    exact ho.less_shared hs (hsh hs)
  rw [if_neg hs]
  rw [Bool.not_eq_true] at hs
  have hb := ho.mem_owners_of_pos hpos
  have hbd := (Finset.mem_sdiff.mp hb).2
  have hcount := ho.count b hb hs
  have hrc : (h.rcDec b).refcount b = h.refcount b - 1 := by rw [refcount_rcDec, if_pos rfl]
  dsimp only
  by_cases hlast : (h.rcDec b).refcount b = 0
  · have hedges : h.edges (h.owners \ dying) b = 0 := by omega
    have htake := (ho.take hb hs (by omega) hedges).rcDec_dying (Finset.mem_insert_self b dying)
    rw [← children_modifyHeader h b b] at htake
    have hq := release_spec.stable (HeaderOnly.rcDec h b).shrinks (ho.sharedHeld_less hsh)
    have hfuel : ((h.rcDec b).owners \ insert b dying).card < (h.rcDec b).depth := by
      refine lt_of_le_of_lt (Finset.card_le_card ?_) (h.rcDec b).card_dom_lt_depth
      exact Finset.sdiff_subset.trans (Finset.filter_subset _ _)
    obtain ⟨hfold, hdrops⟩ := release_spec.foldl_owned (release_owned _) _ _ hq htake hfuel
    have hunbuf : (((h.rcDec b).children b).foldl (release (h.rcDec b).depth) (h.rcDec b)).buffered b = false := by
      rw [buffered, hdrops.kept b (.inl (Finset.mem_insert_self b dying))]
      exact (buffered_rcDec h b b).trans (hbuf (by omega))
    have hfree := hfold.dealloc (Finset.mem_insert_self b dying) hunbuf
    rw [Finset.erase_insert hbd] at hfree
    rw [if_pos (by rw [beq_iff_eq, hlast])]
    exact ⟨hfree, hdrops.mode⟩
  · rw [if_neg (by rw [beq_iff_eq]; exact hlast)]
    exact ⟨ho.rcDec hb hpos hs, rfl⟩

/-! ### Slot writes -/

theorem Owned.incRefValue {s : State} {v : Value} (ho : Owned s.heap s.ext s.dying) (hv : Op.Usable s v) :
    Owned (s.heap.incRefValue v) (plus s.ext (refs v)) s.dying := by
  cases v with
  | ptr a =>
    have hmore : plus s.ext (refs (.ptr a)) = more s.ext a := by
      funext x
      simp only [plus, refs, Value.addr?, Option.toList_some, List.count_singleton, more]
      by_cases hxa : x = a
      · subst hxa
        simp
      · simp [hxa, Ne.symm hxa]
    rw [hmore]
    exact ho.incRef (hv a rfl)
  | _ => exact (plus_nil s.ext).symm ▸ ho

theorem sameGraph_incRefValue (h : Heap) (v : Value) : SameGraph h (h.incRefValue v) := by
  cases v with
  | ptr a => exact sameGraph_incRef h a
  | _ => exact SameGraph.refl h

theorem buffered_incRefValue (h : Heap) (v : Value) (x : Addr) : (h.incRefValue v).buffered x = h.buffered x := by
  cases v with
  | ptr a =>
    rw [Heap.incRefValue, Heap.incRef]
    split
    · rfl
    · exact buffered_rcInc h a x
  | _ => rfl

theorem color_incRefValue (h : Heap) (v : Value) (x : Addr) : (h.incRefValue v).color x = h.color x := by
  cases v with
  | ptr a =>
    rw [Heap.incRefValue, Heap.incRef]
    split
    · rfl
    · exact color_rcInc h a x
  | _ => rfl

theorem owners_incRefValue (h : Heap) (v : Value) : (h.incRefValue v).owners = h.owners := by
  ext x
  rw [mem_owners, mem_owners, (sameGraph_incRefValue h v).allocated_iff, Released, Released,
    buffered_incRefValue, color_incRefValue]

theorem children_of_payload {h : Heap} {a : Addr} {p : Payload} (hp : h.payload? a = some p) :
    h.children a = p.children := by
  rw [payload?, Option.map_eq_some_iff] at hp
  obtain ⟨o, ho, rfl⟩ := hp
  simp [children, ho]

theorem Owned.write {s : State} {v old : Value} {y : Addr} {p p' : Payload} (ho : Owned s.heap s.ext s.dying)
    (hv : Op.Usable s v) (hy : Op.Mutable s y p)
    (hbal : ∀ x, p'.children.count x + (refs old).count x = p.children.count x + (refs v).count x) :
    Owned ((s.heap.incRefValue v).setPayload y p') (plus s.ext (refs old)) s.dying := by
  obtain ⟨hyow, hyns, hyp⟩ := hy
  have hs := sameGraph_incRefValue s.heap v
  refine (ho.incRefValue hv).setPayload (p := p) (by rw [owners_incRefValue]; exact hyow)
    ((hs.isShared_eq y).trans hyns) ((hs.children_eq y).trans (children_of_payload hyp)) (fun x => ?_)
    fun x hx => ?_
  · have := hbal x
    simp only [plus]
    omega
  · have := ho.shared_owned x (hs.isShared_eq x ▸ hx)
    simp only [plus]
    omega

/-- Dropping the displaced value directly. -/
theorem Owned.write_decRefAndFree {s : State} {v old : Value} {y : Addr} {p p' : Payload}
    (ho : Owned s.heap s.ext s.dying) (hv : Op.Usable s v) (hy : Op.Mutable s y p)
    (hbal : ∀ x, p'.children.count x + (refs old).count x = p.children.count x + (refs v).count x)
    (hold : ∀ b, old = .ptr b → b ∈ p.children) (hsound : ¬ Op.DropsBuffered s.heap old v) :
    Owned (((s.heap.incRefValue v).setPayload y p').decRefAndFree old) s.ext s.dying ∧
      (((s.heap.incRefValue v).setPayload y p').decRefAndFree old).mode = s.heap.mode := by
  have hw := ho.write hv hy hbal
  have hs := sameGraph_incRefValue s.heap v
  cases old with
  | ptr b =>
    have hbch : b ∈ s.heap.children y := children_of_payload hy.2.2 ▸ hold b rfl
    have hplus : plus s.ext (refs (.ptr b)) = plus s.ext [b] := rfl
    rw [hplus] at hw
    have hbsh : ∀ x, ((s.heap.incRefValue v).setPayload y p').isShared x = s.heap.isShared x := fun x =>
      (elim_setPayload _ y x p' false (·.shared)).trans (hs.isShared_eq x)
    have hres := hw.decRefAndFree (b := b) (by simp [plus]) (fun hsh => ?_) (fun hrc => ?_)
    · rw [less_plus_cons, plus_nil] at hres
      exact ⟨hres.1, hres.2.trans hs.mode⟩
    · have := ho.shared_owned b (hbsh b ▸ hsh)
      simp only [plus, List.count_singleton_self]
      omega
    · -- the displaced object is not buffered, or it is not its last reference that goes
      have hbuf : ((s.heap.incRefValue v).setPayload y p').buffered b = s.heap.buffered b :=
        (elim_setPayload _ y b p' false (·.buffered)).trans (buffered_incRefValue _ v b)
      have hrc' : (s.heap.incRefValue v).refcount b = 1 := (elim_setPayload _ y b p' 0 (·.refcount)).symm.trans hrc
      by_contra hne
      rw [hbuf, Bool.not_eq_false] at hne
      have hbns : s.heap.isShared b = false := by
        by_contra hsh
        rw [Bool.not_eq_false] at hsh
        simp [(ho.shared_rest b hsh).2] at hne
      by_cases hvb : v = .ptr b
      · subst hvb
        have hbow := hv b rfl
        have hcount := ho.count b hbow hbns
        have hpos : 0 < s.heap.edges (s.heap.owners \ s.dying) b := edges_pos.mpr ⟨y, hy.1, hbch⟩
        rw [Heap.incRefValue, Heap.incRef, if_neg (by simp [hbns]), refcount_rcInc,
          if_pos ⟨rfl, (mem_owners.mp (Finset.mem_sdiff.mp hbow).1).1⟩] at hrc'
        omega
      · refine hsound ⟨b, rfl, hvb, ?_, hne⟩
        cases v with
        | ptr a =>
          have hab : a ≠ b := fun hab => hvb (hab ▸ rfl)
          rw [Heap.incRefValue, Heap.incRef] at hrc'
          split at hrc'
          · exact hrc'
          · rw [refcount_rcInc, if_neg (fun hc => hab hc.1)] at hrc'
            exact hrc'
        | _ => exact hrc'
  | _ => exact ⟨plus_nil s.ext ▸ hw, hs.mode⟩

theorem count_children_set {shape : Shape} {slots : List Value} {index : Nat} {old v : Value}
    (hold : slots[index]? = some old) (x : Addr) :
    (Payload.object shape (slots.set index v)).children.count x + (refs old).count x =
      (Payload.object shape slots).children.count x + (refs v).count x :=
  count_refs_set hold x

theorem mem_children_of_slot {shape : Shape} {slots : List Value} {index : Nat} {b : Addr}
    (hold : slots[index]? = some (.ptr b)) : b ∈ (Payload.object shape slots).children := by
  rw [Payload.children, List.mem_filterMap]
  exact ⟨.ptr b, List.mem_of_getElem? hold, rfl⟩

theorem Owned.release_top (ho : Owned h ext dying) {a : Addr} (hpos : 0 < ext a)
    (hsh : h.isShared a = true → 1 < ext a) :
    Owned (release h.depth h a) (less ext a) dying ∧ Drops dying h (release h.depth h a) := by
  refine release_owned h.depth h ext dying a (ho.sharedHeld_less hsh) ho hpos
    (lt_of_le_of_lt (Finset.card_le_card ?_) h.card_dom_lt_depth)
  exact Finset.sdiff_subset.trans (Finset.filter_subset _ _)

end Heap

/-! ### Steps and runs -/

namespace State

/-- The invariant of a run: exact counts, a well-formed buffer, trial-deletion mode. -/
structure Inv (s : State) : Prop where
  owned : s.heap.Owned s.ext s.dying
  mode : s.heap.mode = .trialDeletion

/-- The buffer does not dangle. -/
def BufferAllocated (s : State) : Prop := ∀ x ∈ s.heap.candidates, s.heap.Allocated x

theorem Inv.bufferAllocated {s : State} (hi : s.Inv) : s.BufferAllocated :=
  fun _ hx => hi.owned.candidates_allocated hi.mode hx

end State

open Heap in
/-- **One step** whose caller keeps its side and that meets the condition keeps the invariant. -/
theorem Op.step_inv (t : Tables) {s : State} {op : Op} (hi : s.Inv) (hpre : op.Pre s) (hsound : op.Sound s) :
    (op.step t s).Inv := by
  have ho := hi.owned
  cases op with
  | alloc a payload =>
    obtain ⟨hfree, hown, hsh⟩ := hpre
    exact ⟨ho.alloc hfree hown hsh, hi.mode⟩
  | incRef a =>
    exact ⟨ho.incRef hpre, (sameGraph_incRef s.heap a).mode.trans hi.mode⟩
  | release a =>
    obtain ⟨hown, hdrops⟩ := ho.release_top hpre.1 hpre.2
    exact ⟨hown, hdrops.mode.trans hi.mode⟩
  | cellSet cell value =>
    obtain ⟨hv, old, hcell⟩ := hpre
    have hbal : ∀ x, (Payload.cell value).children.count x + (refs old).count x =
        (Payload.cell old).children.count x + (refs value).count x := by
      intro x
      have hcell : ∀ w : Value, (Payload.cell w).children = refs w := fun w => by
        cases w <;> rfl
      rw [hcell, hcell]
      omega
    have hmem : ∀ b, old = .ptr b → b ∈ (Payload.cell old).children := by
      rintro b rfl
      simp [Payload.children, Payload.slots, Value.addr?]
    obtain ⟨hown, hmode⟩ := ho.write_decRefAndFree hv hcell hbal hmem (hsound old hcell.2.2)
    have hrun : s.heap.cellSet cell value =
        ((s.heap.incRefValue value).setPayload cell (.cell value)).decRefAndFree old := by
      rw [Heap.cellSet, hcell.2.2]
    refine ⟨?_, ?_⟩
    · show (s.heap.cellSet cell value).Owned s.ext s.dying
      rw [hrun]
      exact hown
    · show (s.heap.cellSet cell value).mode = _
      rw [hrun]
      exact hmode.trans hi.mode
  | setSlot object index value =>
    obtain ⟨hv, shape, slots, hobj, hlt⟩ := hpre
    obtain ⟨old, hold⟩ : ∃ old, slots[index]? = some old := ⟨_, List.getElem?_eq_getElem hlt⟩
    obtain ⟨hown, hmode⟩ := ho.write_decRefAndFree hv hobj (count_children_set hold)
      (fun b hb => mem_children_of_slot (hb ▸ hold)) (hsound shape slots old hobj.2.2 hold)
    have hrun : s.heap.setSlot object index value =
        ((s.heap.incRefValue value).setPayload object (.object shape (slots.set index value))).decRefAndFree old := by
      simp only [Heap.setSlot, hobj.2.2, hold]
    refine ⟨?_, ?_⟩
    · show (s.heap.setSlot object index value).Owned s.ext s.dying
      rw [hrun]
      exact hown
    · show (s.heap.setSlot object index value).mode = _
      rw [hrun]
      exact hmode.trans hi.mode
  | replaceSlot object index value =>
    obtain ⟨hv, shape, slots, hobj, hlt⟩ := hpre
    obtain ⟨old, hold⟩ : ∃ old, slots[index]? = some old := ⟨_, List.getElem?_eq_getElem hlt⟩
    have hw := ho.write hv hobj (count_children_set hold)
    have hrun : s.heap.replaceSlot object index value =
        ((s.heap.incRefValue value).setPayload object (.object shape (slots.set index value)), old) := by
      simp only [Heap.replaceSlot, hobj.2.2, hold]
    have hsame := sameGraph_incRefValue s.heap value
    -- the displaced reference is the caller's, who releases it
    have hdrop : (((s.heap.incRefValue value).setPayload object (.object shape (slots.set index value))).dropValue
          old).Owned s.ext s.dying ∧
        (((s.heap.incRefValue value).setPayload object (.object shape (slots.set index value))).dropValue
          old).mode = s.heap.mode := by
      cases old with
      | ptr b =>
        have hplus : plus s.ext (refs (.ptr b)) = plus s.ext [b] := rfl
        rw [hplus] at hw
        have hrel := hw.release_top (a := b) (by simp [plus]) fun hsh => by
          have hbs : s.heap.isShared b = true :=
            ((elim_setPayload _ object b _ false (·.shared)).trans (hsame.isShared_eq b)) ▸ hsh
          have := ho.shared_owned b hbs
          simp only [plus, List.count_singleton_self]
          omega
        rw [less_plus_cons, plus_nil] at hrel
        exact ⟨hrel.1, hrel.2.mode.trans hsame.mode⟩
      | _ => exact ⟨plus_nil s.ext ▸ hw, hsame.mode⟩
    refine ⟨?_, ?_⟩
    · show ((s.heap.replaceSlot object index value).1.dropValue (s.heap.replaceSlot object index value).2).Owned
        s.ext s.dying
      rw [hrun]
      exact hdrop.1
    · show ((s.heap.replaceSlot object index value).1.dropValue (s.heap.replaceSlot object index value).2).mode = _
      rw [hrun]
      exact hdrop.2.trans hi.mode
  | unwrap a =>
    obtain ⟨ha, hns, hext, hrc⟩ := hpre
    have hcount := ho.count a ha hns
    exact ⟨ho.take ha hns hext (by omega), hi.mode⟩
  | freeShallow a =>
    refine ⟨ho.freeShallow hpre, ?_⟩
    exact (Shrinks.freeShallow s.heap a).mode.trans hi.mode
  | collect =>
    have hd : s.dying = ∅ := hpre
    rw [hd] at ho
    obtain ⟨G, W, hr⟩ := trialDelete_spec ho.counted.trialable (ho.buffer hi.mode)
    have hcol := collectTrialDeletion_collected hr
    refine ⟨?_, ?_⟩
    · show (reclaimCycleGarbage t s.heap.collectTrialDeletion.1 s.heap.collectTrialDeletion.2).Owned s.ext s.dying
      rw [hd]
      exact hcol.owned_reclaim t ho hi.mode hr hsound
    · exact hcol.same.mode.trans hi.mode
  | safepoint defer =>
    have hd : s.dying = ∅ := hpre
    rw [hd] at ho
    obtain ⟨G, W, hr⟩ := trialDelete_spec ho.counted.trialable (ho.buffer hi.mode)
    obtain ⟨K, hcol, -⟩ := collectTrialDeletionSafepoint_collected ho.counted hr defer
    refine ⟨?_, ?_⟩
    · show (reclaimCycleGarbage t (s.heap.collectTrialDeletionSafepoint defer).1
        (s.heap.collectTrialDeletionSafepoint defer).2).Owned s.ext s.dying
      rw [hd]
      exact hcol.owned_reclaim t ho hi.mode hr hsound
    · exact hcol.same.mode.trans hi.mode

/-- The states of a run from `s` whose steps all satisfy `P` when they are taken. -/
inductive Run (t : Tables) (P : Op → State → Prop) (s : State) : State → Prop where
  | start : Run t P s s
  | step {s' : State} (op : Op) : Run t P s s' → P op s' → Run t P s (op.step t s')

theorem Run.mono {t : Tables} {P Q : Op → State → Prop} (hPQ : ∀ op s, P op s → Q op s) {s s' : State}
    (hrun : Run t P s s') : Run t Q s s' := by
  induction hrun with
  | start => exact .start
  | step op _ hop ih => exact .step op ih (hPQ op _ hop)

theorem Run.inv {t : Tables} {s s' : State} (hi : s.Inv) (hrun : Run t (fun op s => op.Pre s ∧ op.Sound s) s s') :
    s'.Inv := by
  induction hrun with
  | start => exact hi
  | step op _ hop ih => exact op.step_inv t ih hop.1 hop.2

/-- **The candidate buffer never dangles** in a run that starts with exact counts and a well-formed buffer,
in which no slot write displaces the last reference to a buffered object and no collection returns a stale
candidate that is still held. -/
theorem candidate_buffer_allocated {t : Tables} {s s' : State} (hi : s.Inv)
    (hrun : Run t (fun op s => op.Pre s ∧ op.Sound s) s s') : s'.BufferAllocated :=
  (hrun.inv hi).bufferAllocated

/-- Nothing allocated, in trial-deletion mode. -/
def emptyState : State := ⟨⟨[], [], [], .trialDeletion, 0, 0, []⟩, fun _ => 0, ∅⟩

theorem emptyState_inv : emptyState.Inv := by
  have hnone : ∀ x, emptyState.heap.obj? x = none := fun x => by simp [emptyState, Heap.obj?]
  have hsh : ∀ x, emptyState.heap.isShared x ≠ true := fun x => by simp [Heap.isShared, hnone]
  have hbuf : ∀ x, emptyState.heap.buffered x = false := fun x => by simp [Heap.buffered, hnone]
  have hcol : ∀ x, emptyState.heap.color x = .black := fun x => by simp [Heap.color, hnone]
  have how : emptyState.heap.owners = ∅ := by decide
  refine ⟨⟨?_, fun x hx => ?_, Finset.empty_subset _, ?_, ?_, ?_, fun x hx => absurd hx (hsh x),
    fun x hx => absurd hx (hsh x), fun x hx => absurd hx (hsh x),
    fun _ => ⟨List.nodup_nil, fun x => ?_, fun x hx => ?_, fun x => .inl (hcol x)⟩, fun _ => hbuf⟩, rfl⟩
  · simp [how]
  · rcases hx with hx | hx
    · have := hx.1
      simp [hbuf] at this
    · exact absurd hx (Finset.notMem_empty x)
  · intro x hx
    exact absurd hx (Finset.notMem_empty x)
  · simp [how]
  · intro x hx
    exact absurd hx (lt_irrefl 0)
  · rw [hbuf]
    simp [emptyState]
  · simp [hcol] at hx

/-- A list, retained and released once: it survived, so it is a candidate. -/
def candidateList : State :=
  (Op.release 0).step ⟨[], []⟩ ((Op.incRef 0).step ⟨[], []⟩ ((Op.alloc 0 (.list [])).step ⟨[], []⟩ emptyState))

theorem candidateList_run : Run ⟨[], []⟩ (fun op s => op.Pre s ∧ op.Sound s) emptyState candidateList := by
  refine .step (.release 0) (.step (.incRef 0) (.step (.alloc 0 (.list [])) .start ?_) ?_) ?_
  · refine ⟨⟨by decide, fun x => ?_, fun x hx => ?_⟩, trivial⟩
    · simp [Payload.children, Payload.slots]
    · simp [emptyState, Heap.isShared, Heap.obj?] at hx
  · refine ⟨?_, trivial⟩
    show (0 : Addr) ∈ _
    decide
  · exact ⟨⟨by decide, by decide⟩, trivial⟩

/-- The candidate is in the buffer, and allocated. -/
theorem candidateList_buffer : candidateList.heap.candidates = [0] ∧ candidateList.BufferAllocated :=
  ⟨by decide, candidate_buffer_allocated emptyState_inv candidateList_run⟩

open Heap in
/-- **What the program still reaches is allocated and exactly counted** in every state of such a run. -/
theorem live_objects_counted {t : Tables} {s s' : State} (hi : s.Inv)
    (hrun : Run t (fun op s => op.Pre s ∧ op.Sound s) s s') {x : Addr} (hx : s'.heap.Live s'.ext x) :
    s'.heap.Allocated x ∧ x ∉ s'.dying ∧ (s'.heap.isShared x = false →
      s'.heap.refcount x = s'.ext x + s'.heap.edges (s'.heap.owners \ s'.dying) x) := by
  have ho := (hrun.inv hi).owned
  have hkeep : ∀ y, s'.heap.Allocated y → 0 < s'.ext y + s'.heap.edges (s'.heap.owners \ s'.dying) y →
      y ∈ s'.heap.owners \ s'.dying := by
    intro y hy hpos
    have horphan := ho.orphan y
    rw [Finset.mem_sdiff, mem_owners]
    refine ⟨⟨hy, fun hr => ?_⟩, fun hd => ?_⟩
    · have := horphan (.inl hr)
      omega
    · have := horphan (.inr hd)
      omega
  have hown : x ∈ s'.heap.owners \ s'.dying := by
    obtain ⟨r, hr, hpath⟩ := hx
    induction hpath with
    | refl => exact hkeep r (ho.ext_alloc r hr) (Nat.add_pos_left hr _)
    | tail _ hbc ih =>
      exact hkeep _ (ho.closed _ ih _ hbc) (Nat.add_pos_right _ (edges_pos.mpr ⟨_, ih, hbc⟩))
  have hmem := Finset.mem_sdiff.mp hown
  exact ⟨(mem_owners.mp hmem.1).1, hmem.2, ho.count x hown⟩

/-- The candidate is held once. -/
theorem candidateList_counted : candidateList.heap.Allocated 0 ∧ 0 ∉ candidateList.dying ∧
    (candidateList.heap.isShared 0 = false → candidateList.heap.refcount 0 = candidateList.ext 0 +
      candidateList.heap.edges (candidateList.heap.owners \ candidateList.dying) 0) :=
  live_objects_counted emptyState_inv candidateList_run ⟨0, by decide, .refl⟩

/-- The only reference to the candidate moves into a cell, and the cell is overwritten: the list is freed
at once, and stays in the buffer. -/
def overwrittenCell : State :=
  (Op.cellSet 1 .unit).step ⟨[], []⟩ ((Op.alloc 1 (.cell (.ptr 0))).step ⟨[], []⟩ candidateList)

theorem overwrittenCell_dangles :
    emptyState.Inv ∧ Run ⟨[], []⟩ Op.Pre emptyState overwrittenCell ∧ ¬ overwrittenCell.BufferAllocated := by
  refine ⟨emptyState_inv, ?_, fun hall => ?_⟩
  · refine .step (.cellSet 1 .unit) (.step (.alloc 1 (.cell (.ptr 0)))
      (candidateList_run.mono fun op s h => h.1) ?_) ?_
    · refine ⟨by decide, fun x => ?_, fun x hx => ?_⟩
      · by_cases hx0 : x = 0
        · subst hx0
          decide
        · have : (0 : Addr) ≠ x := Ne.symm hx0
          simp [Payload.children, Payload.slots, Value.addr?, this]
      · have hobjs : candidateList.heap.objs = [some ⟨⟨1, 0, .purple, true, false, false⟩, .list []⟩] := by decide
        rcases x with _ | x
        · simp [Heap.isShared, Heap.obj?, hobjs] at hx
        · simp [Heap.isShared, Heap.obj?, hobjs] at hx
    · refine ⟨fun a ha => by simp at ha, .ptr 0, ?_, ?_, ?_⟩
      · show (1 : Addr) ∈ _
        decide
      · decide
      · decide
  · exact absurd (hall 0 (by decide)) (by decide)

end Noeta
