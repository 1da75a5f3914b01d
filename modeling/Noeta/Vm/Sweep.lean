import Noeta.Gc.Trace
import Noeta.Vm.Reclaim

/-!
# A sweep: the backup collection and its reclaim

In trace mode a collection returns the registered objects that the given roots do not reach. The reclaim
releases what they hold outside the set and frees them, whoever else refers to them. `TraceOwned.sweep`: when
no reference from outside the heap leads to a returned object, the sweep frees each of them once, keeps exact
counts and touches no freed box.
-/

namespace Noeta

open Relation Dfs

namespace Heap

variable {h h' : Heap} {ext ext' : Addr → Nat}

theorem Exact.owned (hex : Exact h ext) (hm : h.mode = .trace) (halloc : ∀ x, 0 < ext x → h.Allocated x)
    (hu : ∀ x, h.isShared x = false) (hbuf : ∀ x, h.buffered x = false) : Owned h ext ∅ := by
  have hsh : ∀ x, h.isShared x ≠ true := fun x => by simp [hu x]
  refine ⟨fun y hy hns => ?_, fun y hy => ?_, Finset.empty_subset _, by simp, fun y hy => ?_, halloc,
    fun y hy => absurd hy (hsh y), fun y hy => absurd hy (hsh y), fun y hy => absurd hy (hsh y), fun hm' => ?_,
    fun _ => hbuf⟩
  · rw [Finset.sdiff_empty] at hy ⊢
    exact hex.count y (mem_owners.mp hy).1 hns
  · rcases hy with hr | hd
    · have := hr.1
      rw [hbuf y] at this
      exact absurd this (by decide)
    · exact absurd hd (Finset.notMem_empty y)
  · rw [Finset.sdiff_empty] at hy
    exact hex.closed y hy
  · rw [hm] at hm'
    exact absurd hm' (by decide)

/-- A heap in trace mode: exact counts, no borrow-shared objects, everything that can hold a child is
registered, and the registered objects are black. -/
structure TraceOwned (h : Heap) (ext : Addr → Nat) : Prop where
  mode : h.mode = .trace
  owned : Owned h ext ∅
  unshared : Unshared h
  registry : RegistryOk h
  black : ∀ x, h.isRegistered x = true → h.color x = .black
  nodes : ∀ x, h.canBeCyclic x = true → h.isRegistered x = true

theorem TraceOwned.traceOk (hi : TraceOwned h ext) : TraceOk h :=
  ⟨hi.registry.nodup, hi.registry.mem_iff, fun x _ => hi.unshared x, hi.black, hi.owned.quiet hi.mode⟩

theorem TraceOwned.owners_eq (hi : TraceOwned h ext) : h.owners = h.dom := by
  ext x
  rw [mem_owners, mem_dom, and_iff_left_iff_imp]
  intro _ hr
  have := hr.1
  rw [hi.owned.quiet hi.mode x] at this
  exact absurd this (by decide)

theorem Shrinks.elim_eq {α : Type} (hs : Shrinks h h') {x : Addr} (hx : h'.Allocated x) (d : α)
    (g : Obj → α) (hg : ∀ o o' : Obj, o.shell = o'.shell → g o = g o') : (h'.obj? x).elim d g = (h.obj? x).elim d g := by
  rcases hs.shell x with hn | he
  · rw [Allocated, hn] at hx
    exact absurd hx (by decide)
  · rcases hb : h.obj? x with _ | o
    · rw [hb, Option.map_none, Option.map_eq_none_iff] at he
      rw [he]
    · rcases hb' : h'.obj? x with _ | o'
      · rw [Allocated, hb'] at hx
        exact absurd hx (by decide)
      · rw [hb, hb', Option.map_some, Option.map_some, Option.some.injEq] at he
        exact hg o' o he

theorem Shrinks.isRegistered_eq (hs : Shrinks h h') {x : Addr} (hx : h'.Allocated x) :
    h'.isRegistered x = h.isRegistered x :=
  hs.elim_eq hx false (·.header.registered) fun _ _ he => congrArg (fun p => p.2.2.2) he

theorem Shrinks.payload_eq {α : Type} (hs : Shrinks h h') {x : Addr} (hx : h'.Allocated x) (d : α)
    (g : Payload → α) : (h'.obj? x).elim d (fun o => g o.payload) = (h.obj? x).elim d fun o => g o.payload :=
  hs.elim_eq hx d (fun o => g o.payload) fun _ _ he => congrArg (fun p => g p.1) he

theorem allocated_of_canBeCyclic {x : Addr} (hx : h.canBeCyclic x = true) : h.Allocated x := by
  by_contra hn
  simp only [Allocated, Option.not_isSome_iff_eq_none] at hn
  simp [canBeCyclic, hn] at hx

theorem TraceOwned.of_shrinks (hi : TraceOwned h ext) (hs : Shrinks h h') (ho : Owned h' ext' ∅)
    (hr : RegistryOk h') (hcol : ∀ x, h'.Allocated x → h'.color x = h.color x) : TraceOwned h' ext' := by
  refine ⟨hs.mode.trans hi.mode, ho, hs.unshared hi.unshared, hr, fun x hx => ?_, fun x hx => ?_⟩
  · have hal := allocated_of_registered hx
    rw [hcol x hal]
    exact hi.black x (hs.isRegistered_eq hal ▸ hx)
  · have hal := allocated_of_canBeCyclic hx
    rw [hs.isRegistered_eq hal]
    exact hi.nodes x ((hs.payload_eq hal false Payload.canBeCyclic).symm.trans hx)

theorem TraceOwned.of_drops (hi : TraceOwned h ext) (ho : Owned h' ext' ∅) (hd : Drops ∅ h h') :
    TraceOwned h' ext' :=
  hi.of_shrinks hd.toShrinks ho (hd.registry hi.registry) (hd.color hi.mode)

/-! ### What a collection returns -/

/-- `x` is reachable from one of the roots. -/
def Rooted (h : Heap) (roots : List Value) (x : Addr) : Prop :=
  ∃ r, Value.ptr r ∈ roots ∧ ReflTransGen h.Points r x

theorem registered_of_points (hi : TraceOwned h ext) {a b : Addr} (hab : h.Points a b) :
    h.isRegistered a = true := by
  refine hi.nodes a ?_
  obtain ⟨o, ho⟩ := allocated_iff.mp (allocated_of_points hab)
  have hch : b ∈ o.payload.children := by
    simpa [Points, children, ho] using hab
  simpa [canBeCyclic, ho] using Payload.canBeCyclic_of_mem_children hch

/-- **A collection returns the registered objects that no root reaches.** -/
theorem TraceOwned.mem_unmarked (hi : TraceOwned h ext) (roots : List Value) (x : Addr) :
    x ∈ (h.markRoots roots).unmarked ↔ h.isRegistered x = true ∧ ¬ h.Rooted roots x := by
  obtain ⟨E, C, hacc, hreach⟩ := markRoots_account h roots
  have hmark : ∀ y, h.isRegistered y = true → h.Markable y := fun y hy =>
    ⟨allocated_of_registered hy, hi.unshared y, by simp [hi.black y hy]⟩
  -- on registered objects, marked is the same as reachable
  have hE : h.isRegistered x = true → (x ∈ E ↔ h.Rooted roots x) := by
    intro hx
    constructor
    · intro hxE
      obtain ⟨v, hv, hvx⟩ := hreach.reach x hxE (Finset.notMem_empty x)
      obtain ⟨w, hw, hwv⟩ := List.mem_filterMap.mp hv
      cases w with
      | ptr a =>
        cases hwv
        exact ⟨_, hw, hvx⟩
      | _ => exact absurd hwv (by simp [Value.addr?])
    · rintro ⟨r, hr, hrx⟩
      have hroot : r ∈ roots.filterMap Value.addr? := List.mem_filterMap.mpr ⟨_, hr, rfl⟩
      have hstep : ∀ y, ReflTransGen h.Points r y → h.isRegistered y = true → y ∈ E := by
        intro y hry
        induction hry with
        | refl => exact fun hreg => hreach.entered r hroot (hmark r hreg)
        | tail _ hyz ih =>
          exact fun hreg => hreach.closed _ (ih (registered_of_points hi hyz)) (Finset.notMem_empty _) _ hyz
            (hmark _ hreg)
      exact hstep x hrx hx
  rw [unmarked, List.mem_filter, hacc.same.registry, hi.registry.mem_iff, hacc.color]
  constructor
  · rintro ⟨hreg, hcol⟩
    refine ⟨hreg, fun hroot => ?_⟩
    rw [if_pos ((hE hreg).mpr hroot)] at hcol
    exact absurd hcol (by decide)
  · rintro ⟨hreg, hroot⟩
    refine ⟨hreg, ?_⟩
    rw [if_neg fun hxE => hroot ((hE hreg).mp hxE), hi.black x hreg]
    rfl

theorem TraceOwned.collectTrace (hi : TraceOwned h ext) (roots : List Value) :
    TraceOwned (h.collectTrace roots).1 ext ∧ SameGraph h (h.collectTrace roots).1 ∧
      (h.collectTrace roots).2.members.Nodup ∧ (h.collectTrace roots).2.releaseExternal = true ∧
      (h.collectTrace roots).2.fresh = (h.collectTrace roots).2.members ∧
      ∀ x, x ∈ (h.collectTrace roots).2.members ↔ h.isRegistered x = true ∧ ¬ h.Rooted roots x := by
  obtain ⟨hnd, -, hs, hrc, hblack⟩ := trace_unmarked hi.traceOk roots
  obtain ⟨E, C, hacc, -⟩ := markRoots_account h roots
  have hrep := resetSurvivors_repainted (h.markRoots roots)
  have hbuf : ∀ x, (h.markRoots roots).resetSurvivors.buffered x = false := fun x =>
    ((hrep.buffered x).trans (hacc.buffered x)).trans (hi.owned.quiet hi.mode x)
  have hrel : ∀ h' : Heap, (∀ x, h'.buffered x = false) → ∀ x, ¬ h'.Released x := fun h' hb x hr => by
    have := hr.1
    rw [hb x] at this
    exact absurd this (by decide)
  have hs' : SameGraph h (h.collectTrace roots).1 := ⟨hs.shell, hs.length, hs.registry, hs.mode, hs.nextSeq, hs.log⟩
  have hmem : (h.collectTrace roots).2.members = (h.markRoots roots).unmarked := List.append_nil _
  refine ⟨⟨hs.mode.trans hi.mode, ?_, fun x => (hs'.isShared_eq x).trans (hi.unshared x), ?_, fun x hx => ?_,
    fun x hx => ?_⟩, hs', hmem ▸ hnd, rfl, hmem.symm, fun x => hmem ▸ hi.mem_unmarked roots x⟩
  · refine hi.owned.of_sameGraph hs' (fun x => ?_) (fun x _ _ => ?_) (fun x hx => (hi.owned.orphan x hx).1)
      hi.owned.ext_alloc (fun x hx => absurd hx (by simp [hi.unshared x])) (fun hm => ?_) fun _ => hbuf
    · exact iff_of_false (hrel _ hbuf x) (hrel _ (hi.owned.quiet hi.mode) x)
    · show (h.markRoots roots).resetSurvivors.refcount x + _ = _
      rw [hrc]
    · rw [hi.mode] at hm
      exact absurd hm (by decide)
  · refine ⟨hs'.registry ▸ hi.registry.nodup, fun x => ?_⟩
    rw [hs'.registry, hs'.isRegistered_eq]
    exact hi.registry.mem_iff x
  · exact hblack x (hs'.isRegistered_eq x ▸ hx)
  · rw [hs'.isRegistered_eq]
    exact hi.nodes x (hs'.canBeCyclic_eq x ▸ hx)

/-! ### Reclaiming it -/

/-- The objects `M` start dying together: nothing outside `M` refers to them, and the references they hold
outside `M` are the caller's now. -/
theorem Owned.takeAll (ho : Owned h ext ∅) {M : Finset Addr} (hM : M ⊆ h.owners)
    (hns : ∀ x ∈ M, h.isShared x = false) (hext : ∀ x ∈ M, ext x = 0)
    (hin : ∀ y ∈ h.owners, ∀ x ∈ M, x ∈ h.children y → y ∈ M) {l : List Addr}
    (hl : ∀ x, l.count x = if x ∈ M then 0 else h.edges M x) : Owned h (plus ext l) M := by
  have hzero : ∀ x ∈ M, h.edges (h.owners \ M) x = 0 := by
    intro x hx
    by_contra hne
    obtain ⟨y, hy, hyx⟩ := edges_pos.mp (Nat.pos_of_ne_zero hne)
    obtain ⟨hyow, hyM⟩ := Finset.mem_sdiff.mp hy
    exact hyM (hin y hyow x hx hyx)
  have hsum := fun x => h.edges_sdiff hM x
  refine ⟨fun x hx hxs => ?_, fun x hx => ?_, hM, hns, fun y hy => ?_, fun x hx => ?_, fun x hx => ?_,
    ho.shared_children, ho.shared_rest, ho.buffer, ho.quiet⟩
  · obtain ⟨hxow, hxM⟩ := Finset.mem_sdiff.mp hx
    have hcount := ho.count x (by rwa [Finset.sdiff_empty]) hxs
    rw [Finset.sdiff_empty] at hcount
    have := hsum x
    rw [plus, hl, if_neg hxM]
    omega
  · by_cases hxM : x ∈ M
    · rw [plus, hl, if_pos hxM, hext x hxM]
      exact ⟨rfl, hzero x hxM⟩
    · obtain ⟨he, hed⟩ := ho.orphan x (.inl (hx.resolve_right hxM))
      rw [Finset.sdiff_empty] at hed
      have := hsum x
      rw [plus, hl, if_neg hxM]
      omega
  · refine ho.closed y ?_
    rw [Finset.sdiff_empty]
    exact (Finset.mem_sdiff.mp hy).1
  · by_cases hxe : 0 < ext x
    · exact ho.ext_alloc x hxe
    · have hcount : 0 < l.count x := by
        rw [plus] at hx
        omega
      rw [hl] at hcount
      split at hcount
      · exact absurd hcount (lt_irrefl 0)
      · obtain ⟨y, hy, hyx⟩ := edges_pos.mp hcount
        refine ho.closed y ?_ x hyx
        rw [Finset.sdiff_empty]
        exact hM hy
  · exact (ho.shared_owned x hx).trans_le (le_plus ext l x)

/-- Rewriting the headers of dying objects in trace mode. -/
theorem Owned.of_headerOnly {M : Finset Addr} (ho : Owned h ext M) (hm : h.mode = .trace)
    (ht : HeaderOnly (M : Set Addr) h h') : Owned h' ext M := by
  have hrel : ∀ x, h'.Released x ↔ h.Released x := fun x => by
    rw [Released, Released, ht.buffered hm, ht.color hm]
  have how : h'.owners = h.owners := by
    ext x
    rw [mem_owners, mem_owners, ht.allocated_iff, hrel]
  have hch : ∀ y, h'.children y = h.children y := fun y => by
    by_cases hy : h'.Allocated y
    · exact ht.shrinks.payload_eq hy [] Payload.children
    · rw [children_of_not_allocated hy, children_of_not_allocated fun hn => hy ((ht.allocated_iff y).mpr hn)]
  have hed : ∀ S x, h'.edges S x = h.edges S x := fun S x => Finset.sum_congr rfl fun y _ => by rw [hch]
  refine ⟨fun x hx hxs => ?_, fun x hx => ?_, how ▸ ho.dying_owners, fun x hx => ?_, fun y hy c hc => ?_,
    fun x hx => (ht.allocated_iff x).mpr (ho.ext_alloc x hx), fun x hx => ?_, fun y hy c hc => ?_, fun x hx => ?_,
    fun hm' => ?_, fun _ x => ?_⟩
  · rw [how] at hx ⊢
    rw [ht.isShared_eq] at hxs
    have hobj := ht.frame x fun hxM => (Finset.mem_sdiff.mp hx).2 hxM
    rw [hed, refcount, hobj]
    exact ho.count x hx hxs
  · rw [how, hed]
    rw [hrel] at hx
    exact ho.orphan x hx
  · rw [ht.isShared_eq]
    exact ho.dying_unshared x hx
  · rw [how] at hy
    rw [hch] at hc
    exact (ht.allocated_iff c).mpr (ho.closed y hy c hc)
  · exact ho.shared_owned x (ht.isShared_eq x ▸ hx)
  · rw [ht.isShared_eq] at hy ⊢
    rw [hch] at hc
    exact ho.shared_children y hy c hc
  · rw [ht.isShared_eq] at hx
    rw [ht.color hm, ht.buffered hm]
    exact ho.shared_rest x hx
  · rw [ht.mode, hm] at hm'
    exact absurd hm' (by decide)
  · rw [ht.buffered hm]
    exact ho.quiet hm x

theorem releaseValue_top (t : Tables) (n : Nat) :
    Releases (fun h _ => Unshared h) Drops n fun h a => releaseValue t h.depth h a :=
  fun _ _ _ _ hu ho hpos _ => ho.releaseValue t hu hpos

/-- The children of `l` that are not members. -/
def outside (h : Heap) (members l : List Addr) : List Addr := (l.flatMap h.children).filter (· ∉ members)

/-- The loop that drops what the members hold outside the set. -/
def releaseOutside (t : Tables) (members : List Addr) (h : Heap) (a : Addr) : Heap :=
  (h.children a).foldl (fun h c => if c ∈ members then h else releaseValue t h.depth h c) h

theorem foldl_releaseOutside (t : Tables) (members l : List Addr) (hl : ∀ a ∈ l, a ∈ members) (h : Heap)
    (hu : Unshared h) (ho : Owned h (plus ext (h.outside members l)) members.toFinset) :
    Owned (l.foldl (releaseOutside t members) h) ext members.toFinset ∧
      Drops members.toFinset h (l.foldl (releaseOutside t members) h) := by
  induction l generalizing h with
  | nil =>
    rw [outside, List.flatMap_nil, List.filter_nil, plus_nil] at ho
    exact ⟨ho, Drops.refl _ h⟩
  | cons a l ih =>
    have hplus : plus ext (h.outside members (a :: l)) =
        plus (plus ext (h.outside members l)) ((h.children a).filter (· ∉ members)) := by
      funext x
      simp only [plus, outside, List.flatMap_cons, List.filter_append, List.count_append]
      omega
    rw [hplus] at ho
    have hcard : (h.owners \ members.toFinset).card < h.depth :=
      lt_of_le_of_lt (Finset.card_le_card (Finset.sdiff_subset.trans (Finset.filter_subset _ _))) h.card_dom_lt_depth
    obtain ⟨ho₁, hd₁⟩ := unshared_spec.foldl_owned (releaseValue_top t h.depth) _ h hu ho hcard
    have hstep : ((h.children a).filter (· ∉ members)).foldl (fun h a => releaseValue t h.depth h a) h =
        releaseOutside t members h a := by
      rw [List.foldl_filter, releaseOutside]
      simp only [decide_not, Bool.not_eq_true', decide_eq_false_iff_not, ite_not]
    rw [hstep] at ho₁ hd₁
    -- the members are untouched, so the rest of the loop sees the same children
    have hsame : (releaseOutside t members h a).outside members l = h.outside members l := by
      rw [outside, outside, List.flatMap_congr fun b hb => ?_]
      rw [children, children, hd₁.kept b (.inl (List.mem_toFinset.mpr (hl b (by simp [hb]))))]
    obtain ⟨ho₂, hd₂⟩ := ih (fun b hb => hl b (by simp [hb])) _ (hd₁.toShrinks.unshared hu) (hsame ▸ ho₁)
    exact ⟨ho₂, hd₁.trans hd₂⟩

theorem foldl_freeShallow_owned (l : List Addr) (hnd : l.Nodup) (h : Heap) (ho : Owned h ext l.toFinset) :
    Owned (l.foldl freeShallow h) ext ∅ ∧ Shrinks h (l.foldl freeShallow h) ∧
      (RegistryOk h → RegistryOk (l.foldl freeShallow h)) ∧ ∃ es, Logged h (l.foldl freeShallow h) es := by
  induction l generalizing h with
  | nil => exact ⟨ho, .refl h, id, [], .refl h⟩
  | cons a l ih =>
    obtain ⟨hal, hnd⟩ := List.nodup_cons.mp hnd
    have ha : a ∈ (a :: l).toFinset := by simp
    have hallo := (mem_owners.mp (ho.dying_owners ha)).1
    have hfree := ho.freeShallow ha
    have herase : (a :: l).toFinset.erase a = l.toFinset := by
      rw [List.toFinset_cons, Finset.erase_insert]
      rwa [List.mem_toFinset]
    rw [herase] at hfree
    obtain ⟨h1, h2, h3, es, h4⟩ := ih hnd _ hfree
    obtain ⟨es₀, h5⟩ := logged_freeShallow hallo
    exact ⟨h1, (Shrinks.freeShallow h a).trans h2, fun hr => h3 (hr.freeShallow a), es₀ ++ es, h5.trans h4⟩

theorem count_outside {members : List Addr} (hnd : members.Nodup) (x : Addr) :
    (h.outside members members).count x = if x ∈ members.toFinset then 0 else h.edges members.toFinset x := by
  rw [outside]
  split
  · rename_i hx
    rw [List.mem_toFinset] at hx
    refine List.count_eq_zero.mpr fun hmem => ?_
    exact absurd hx (by simpa using (List.mem_filter.mp hmem).2)
  · rename_i hx
    rw [List.mem_toFinset] at hx
    rw [List.count_filter (by simpa using hx), edges, List.count_flatMap, List.sum_toFinset _ hnd]
    rfl

theorem reclaimCycleGarbage_trace (t : Tables) {g : Garbage} (hm : h.mode = .trace)
    (hfresh : g.fresh = g.members) (hext : g.releaseExternal = true) :
    reclaimCycleGarbage t h g =
      { g.members.foldl freeShallow (g.members.foldl (releaseOutside t g.members)
          (((g.members.foldl incRef h).sortNewestFirst g.members).foldl
            (fun h a => if t.ownDestructor h a then h.runDestructor a else h) (g.members.foldl incRef h)))
        with mode := .trace } := by
  have hmode : ({ h with mode := .trace } : Heap) = h := by rw [← hm]
  rw [reclaimCycleGarbage, hext, hfresh, hmode, hm]
  rfl

/-- **A sweep** whose garbage nothing outside the heap refers to: it frees the registered objects that the
roots do not reach, and whatever only they held, each once. -/
theorem TraceOwned.sweep (hi : TraceOwned h ext) (t : Tables) (roots : List Value)
    (hheld : ∀ x, h.isRegistered x = true → ¬ h.Rooted roots x → ext x = 0) :
    TraceOwned (h.sweep t roots) ext ∧ Shrinks h (h.sweep t roots) ∧ (∃ l, Logged h (h.sweep t roots) l) ∧
      ∀ x, h.isRegistered x = true → ¬ h.Rooted roots x → ¬ (h.sweep t roots).Allocated x := by
  obtain ⟨hi₁, hs₁, hnd, hrext, hfresh, hmem⟩ := hi.collectTrace roots
  rw [Heap.sweep]
  dsimp only
  generalize hg : (h.collectTrace roots).2 = g at *
  generalize hh : (h.collectTrace roots).1 = h₁ at *
  set M := g.members
  -- the members die together
  have hMow : M.toFinset ⊆ h₁.owners := fun x hx => by
    rw [hi₁.owners_eq, mem_dom, hs₁.allocated_iff]
    exact allocated_of_registered ((hmem x).mp (List.mem_toFinset.mp hx)).1
  have hin : ∀ y ∈ h₁.owners, ∀ x ∈ M.toFinset, x ∈ h₁.children y → y ∈ M.toFinset := by
    intro y _ x hx hyx
    rw [List.mem_toFinset, hmem] at hx ⊢
    rw [hs₁.children_eq] at hyx
    refine ⟨registered_of_points hi hyx, fun ⟨r, hr, hry⟩ => hx.2 ⟨r, hr, hry.tail hyx⟩⟩
  have htake := hi₁.owned.takeAll hMow (fun x _ => hi₁.unshared x) (fun x hx => by
    have := (hmem x).mp (List.mem_toFinset.mp hx)
    exact hheld x this.1 this.2) hin (count_outside hnd)
  rw [reclaimCycleGarbage_trace t hi₁.mode hfresh hrext]
  -- pinned and destructed
  have hMal : ∀ a ∈ M, h₁.Allocated a ∧ h₁.isShared a = false := fun a ha =>
    ⟨(mem_owners.mp (hMow (List.mem_toFinset.mpr ha))).1, hi₁.unshared a⟩
  have hp₀ := foldl_incRef_pinned h₁ M hMal
  have hp := foldl_destructors_pinned t hp₀ hi₁.mode hMal (l := (M.foldl incRef h₁).sortNewestFirst M) fun a ha => by
    rwa [sortNewestFirst, List.mem_insertionSort] at ha
  generalize ((M.foldl incRef h₁).sortNewestFirst M).foldl
    (fun h a => if t.ownDestructor h a then h.runDestructor a else h) (M.foldl incRef h₁) = h₂ at hp ⊢
  have ht : HeaderOnly (M.toFinset : Set Addr) h₁ h₂ := hp.toHeaderOnly.mono fun x hx => List.mem_toFinset.mpr hx
  have ho₂ := htake.of_headerOnly hi₁.mode ht
  -- what they hold outside is released
  have hout : h₁.outside M M = h₂.outside M M := by
    rw [outside, outside, List.flatMap_congr fun b hb => ?_]
    have hb₂ : h₂.Allocated b := (ht.allocated_iff b).mpr (hMal b hb).1
    exact (ht.shrinks.payload_eq hb₂ [] Payload.children).symm
  rw [hout] at ho₂
  obtain ⟨ho₃, hd₃⟩ := foldl_releaseOutside t M M (fun _ ha => ha) h₂ (ht.shrinks.unshared hi₁.unshared) ho₂
  generalize M.foldl (releaseOutside t M) h₂ = h₃ at ho₃ hd₃ ⊢
  -- and their boxes go
  obtain ⟨ho₄, hs₄, hreg₄, es₄, hl₄⟩ := foldl_freeShallow_owned M hnd h₃ ho₃
  have hm₃ : h₃.mode = .trace := (hd₃.mode.trans ht.mode).trans hi₁.mode
  have hw := foldl_freeShallow_without hm₃ M hnd fun a ha =>
    (mem_owners.mp (ho₃.dying_owners (List.mem_toFinset.mpr ha))).1
  generalize M.foldl freeShallow h₃ = h₄ at ho₄ hs₄ hreg₄ hl₄ hw ⊢
  have hmode₄ : ({ h₄ with mode := .trace } : Heap) = h₄ := by rw [← hs₄.mode.trans hm₃]
  rw [hmode₄]
  obtain ⟨es₂, hl₂⟩ := ht.logged
  obtain ⟨es₃, hl₃⟩ := hd₃.events
  have hl₁ : Logged h h₁ [] := ⟨by rw [hs₁.log, List.append_nil], fun a => by simp only [hs₁.allocated_iff,
    List.count_nil, Nat.zero_add], by simp⟩
  have hshr : Shrinks h₁ h₄ := (ht.shrinks.trans hd₃.toShrinks).trans hs₄
  have hrel₁ : ∀ x, h.Released x → h₁.Released x := fun x hx => by
    have := hx.1
    rw [hi.owned.quiet hi.mode x] at this
    exact absurd this (by decide)
  refine ⟨hi₁.of_shrinks hshr ho₄ (hreg₄ (hd₃.registry (ht.registryOk hi₁.registry))) fun x hx => ?_,
    (Shrinks.of_sameGraph hs₁ hrel₁).trans hshr, ⟨_, ((hl₁.trans hl₂).trans hl₃).trans hl₄⟩, fun x hx hroot hal => ?_⟩
  · have hobj := hw.obj x
    split at hobj
    · rw [Allocated, hobj] at hx
      exact absurd hx (by decide)
    · have hx₃ : h₃.Allocated x := by rwa [Allocated, hobj] at hx
      rw [color, hobj]
      exact (hd₃.color (ht.mode.trans hi₁.mode) x hx₃).trans (ht.color hi₁.mode x)
  · have hobj := hw.obj x
    rw [if_pos ((hmem x).mpr ⟨hx, hroot⟩)] at hobj
    rw [Allocated, hobj] at hal
    exact absurd hal (by decide)

end Heap

end Noeta
