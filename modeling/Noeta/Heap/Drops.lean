import Noeta.Heap.Ownership

/-!
# The recursive release

`release_owned` is the result about `release`, in both collector modes: with exact counts the recursion has
enough depth, the caller's reference is gone, whatever became unreferenced is freed or deferred, and the rest
is counted exactly. `Drops` is the frame: a release frees each box once and rewrites headers, leaves no object
with count zero behind, and never touches an object that is already being released further up.

The part of the argument that does not depend on what a release does besides releasing is
`ReleaseSpec.foldl_owned`.
-/

namespace Noeta

open Relation

namespace Heap

/-- What releasing leaves alone: it frees objects and rewrites headers, and never gives a released object
its children back. -/
structure Shrinks (h h' : Heap) : Prop where
  shell : ∀ a, h'.obj? a = none ∨ (h'.obj? a).map Obj.shell = (h.obj? a).map Obj.shell
  owners : h'.owners ⊆ h.owners
  mode : h'.mode = h.mode
  length : h'.objs.length = h.objs.length

namespace Shrinks

variable {h h' h'' : Heap}

theorem refl (h : Heap) : Shrinks h h := ⟨fun _ => .inr rfl, subset_rfl, rfl, rfl⟩

theorem trans (h₁ : Shrinks h h') (h₂ : Shrinks h' h'') : Shrinks h h'' := by
  refine ⟨fun a => ?_, h₂.owners.trans h₁.owners, h₂.mode.trans h₁.mode, h₂.length.trans h₁.length⟩
  rcases h₂.shell a with hn | he
  · exact .inl hn
  · rcases h₁.shell a with hn' | he'
    · rw [hn', Option.map_none, Option.map_eq_none_iff] at he
      exact .inl he
    · exact .inr (he.trans he')

theorem of_sameGraph (hs : SameGraph h h') (hrel : ∀ x, h.Released x → h'.Released x) : Shrinks h h' := by
  refine ⟨fun a => .inr (hs.shell a), fun x hx => ?_, hs.mode, hs.length⟩
  obtain ⟨ha, hr⟩ := mem_owners.mp hx
  exact mem_owners.mpr ⟨(hs.allocated_iff x).mp ha, fun h => hr (hrel x h)⟩

theorem isShared (hs : Shrinks h h') {a : Addr} (ha : h'.isShared a = true) : h.isShared a = true := by
  unfold Heap.isShared at ha ⊢
  rcases hs.shell a with hn | he
  · simp [hn] at ha
  · rcases hb : h.obj? a with _ | o
    · rw [hb, Option.map_none, Option.map_eq_none_iff] at he
      simp [he] at ha
    · rcases hb' : h'.obj? a with _ | o'
      · simp [hb'] at ha
      · rw [hb, hb', Option.map_some, Option.map_some, Option.some.injEq] at he
        have hsh : o'.header.shared = o.header.shared := congrArg (fun p => p.2.2.1) he
        simpa [hb', hsh] using ha

theorem dealloc (h : Heap) (a : Addr) : Shrinks h (h.dealloc a) := by
  refine ⟨fun b => ?_, fun x hx => ?_, rfl, by simp [Heap.dealloc]⟩
  · rw [obj?_dealloc]
    split
    · exact .inl rfl
    · exact .inr rfl
  · obtain ⟨hal, hrel⟩ := mem_owners.mp hx
    obtain ⟨hax, hal⟩ := (allocated_dealloc h a x).mp hal
    refine mem_owners.mpr ⟨hal, fun hr => hrel ?_⟩
    have hb : (h.dealloc a).buffered x = h.buffered x := (elim_dealloc h a x false _).trans (if_neg hax)
    have hc : (h.dealloc a).color x = h.color x := (elim_dealloc h a x Color.black _).trans (if_neg hax)
    rw [Released, hb, hc]
    exact hr

theorem setBlack (h : Heap) (a : Addr) : Shrinks h (h.setColor a .black) := by
  refine of_sameGraph (.setColor h a _) fun x hx => ?_
  rw [Released, buffered_setColor, color_setColor]
  refine ⟨hx.1, ?_⟩
  split
  · rfl
  · exact hx.2

theorem record (h : Heap) (e : Event) : Shrinks h (h.record e) :=
  ⟨fun _ => .inr rfl, fun _ hx => hx, rfl, rfl⟩

theorem freeShallow (h : Heap) (a : Addr) : Shrinks h (h.freeShallow a) := by
  rw [Heap.freeShallow]
  split
  · exact record h _
  split
  · exact setBlack h a
  · exact dealloc h a

end Shrinks

/-- The registry lists the registered objects, once. -/
structure RegistryOk (h : Heap) : Prop where
  nodup : h.registry.Nodup
  mem_iff : ∀ x, x ∈ h.registry ↔ h.isRegistered x = true

/-- The events `l` between two heaps: each box that went was freed once, and no freed box was touched. -/
structure Logged (h h' : Heap) (l : List Event) : Prop where
  log : h'.log = h.log ++ l
  frees : ∀ a, l.count (.free a) + (if h'.Allocated a then 1 else 0) = if h.Allocated a then 1 else 0
  faults : ∀ a, Event.fault a ∉ l

theorem Logged.refl (h : Heap) : Logged h h [] := ⟨(List.append_nil _).symm, fun _ => Nat.zero_add _, by simp⟩

theorem Logged.trans {h h' h'' : Heap} {l l' : List Event} (h₁ : Logged h h' l) (h₂ : Logged h' h'' l') :
    Logged h h'' (l ++ l') := by
  refine ⟨by rw [h₂.log, h₁.log, List.append_assoc], fun a => ?_, fun a ha => ?_⟩
  · have := h₁.frees a
    have := h₂.frees a
    rw [List.count_append]
    omega
  · exact (List.mem_append.mp ha).elim (h₁.faults a) (h₂.faults a)

/-! ### Header writes -/

/-- Only headers of objects in `M` changed, and the log got no `free` and no `fault`. -/
structure HeaderOnly (M : Set Addr) (h h' : Heap) : Prop where
  frame : ∀ x, x ∉ M → h'.obj? x = h.obj? x
  shell : ∀ x, (h'.obj? x).map Obj.shell = (h.obj? x).map Obj.shell
  released : ∀ x, h.Released x → h'.Released x
  mode : h'.mode = h.mode
  length : h'.objs.length = h.objs.length
  registry : h'.registry = h.registry
  color : h.mode = .trace → ∀ x, h'.color x = h.color x
  buffered : h.mode = .trace → ∀ x, h'.buffered x = h.buffered x
  log : ∃ l, h'.log = h.log ++ l ∧ ∀ b, Event.free b ∉ l ∧ Event.fault b ∉ l

namespace HeaderOnly

variable {a : Addr} {M : Set Addr} {h h' h'' : Heap}

theorem refl (M : Set Addr) (h : Heap) : HeaderOnly M h h :=
  ⟨fun _ _ => rfl, fun _ => rfl, fun _ => id, rfl, rfl, rfl, fun _ _ => rfl, fun _ _ => rfl, [], by simp, by simp⟩

theorem trans (h₁ : HeaderOnly M h h') (h₂ : HeaderOnly M h' h'') : HeaderOnly M h h'' := by
  obtain ⟨l₁, hl₁, hn₁⟩ := h₁.log
  obtain ⟨l₂, hl₂, hn₂⟩ := h₂.log
  refine ⟨fun x hx => (h₂.frame x hx).trans (h₁.frame x hx), fun x => (h₂.shell x).trans (h₁.shell x),
    fun x hr => h₂.released x (h₁.released x hr), h₂.mode.trans h₁.mode, h₂.length.trans h₁.length,
    h₂.registry.trans h₁.registry, fun hm x => (h₂.color (h₁.mode.trans hm) x).trans (h₁.color hm x),
    fun hm x => (h₂.buffered (h₁.mode.trans hm) x).trans (h₁.buffered hm x),
    l₁ ++ l₂, by rw [hl₂, hl₁, List.append_assoc], fun b => ?_⟩
  simp only [List.mem_append, not_or]
  exact ⟨⟨(hn₁ b).1, (hn₂ b).1⟩, (hn₁ b).2, (hn₂ b).2⟩

theorem mono {M' : Set Addr} (hM : M ⊆ M') (ht : HeaderOnly M h h') : HeaderOnly M' h h' :=
  ⟨fun x hx => ht.frame x fun hxM => hx (hM hxM), ht.shell, ht.released, ht.mode, ht.length, ht.registry, ht.color,
    ht.buffered, ht.log⟩

theorem modifyHeader (h : Heap) (a : Addr) {f : ObjHeader → ObjHeader}
    (hf : ∀ o, (f o).color = o.color ∧ (f o).buffered = o.buffered) (hs : SameGraph h (h.modifyHeader a f)) :
    HeaderOnly {a} h (h.modifyHeader a f) := by
  have hcol : ∀ x, (h.modifyHeader a f).color x = h.color x := fun x =>
    elim_modifyHeader_of_eq fun o => (hf o.header).1
  have hbuf : ∀ x, (h.modifyHeader a f).buffered x = h.buffered x := fun x =>
    elim_modifyHeader_of_eq fun o => (hf o.header).2
  refine ⟨fun x hx => ?_, hs.shell, fun x hr => ?_, hs.mode, hs.length, hs.registry, fun _ => hcol, fun _ => hbuf,
    [], by simp [hs.log], by simp⟩
  · rw [Heap.modifyHeader, obj?_modify, if_neg fun hax => hx (Set.mem_singleton_iff.mpr hax.symm)]
  · rw [Released, hcol, hbuf]
    exact hr

theorem rcDec (h : Heap) (a : Addr) : HeaderOnly {a} h (h.rcDec a) :=
  modifyHeader h a (fun _ => ⟨rfl, rfl⟩) (.rcDec h a)

theorem incRef (h : Heap) (a : Addr) : HeaderOnly {a} h (h.incRef a) := by
  rw [Heap.incRef]
  split
  · exact refl {a} h
  · exact modifyHeader h a (fun _ => ⟨rfl, rfl⟩) (.rcInc h a)

theorem destruct (M : Set Addr) (h : Heap) (b : Addr) : HeaderOnly M h (h.record (.destruct b)) :=
  ⟨fun _ _ => rfl, fun _ => rfl, fun _ => id, rfl, rfl, rfl, fun _ _ => rfl, fun _ _ => rfl, [.destruct b], rfl,
    by simp⟩

theorem possibleRoot (ha : a ∈ h.owners) (hb : Buffer h) (hm : h.mode = .trialDeletion) :
    HeaderOnly {a} h (h.possibleRoot a) := by
  obtain ⟨hal, hrel⟩ := mem_owners.mp ha
  by_cases hpur : h.color a = .purple
  · rw [Heap.possibleRoot, if_neg (not_not_intro hpur)]
    exact refl {a} h
  have hblack := (hb.rest a).resolve_right hpur
  have hunbuf : h.buffered a = false := by
    by_contra hbuf
    rw [Bool.not_eq_false] at hbuf
    exact hrel ⟨hbuf, hblack⟩
  have hr := possibleRoot_rebuffered hal hblack hunbuf
  refine ⟨fun x hx => ?_, hr.same.shell, fun x hx => ?_, hr.same.mode, hr.same.length, hr.same.registry,
    fun hm' => ?_, fun hm' => ?_, [], by simp [hr.same.log], by simp⟩
  · have hset : ∀ (h : Heap) (f : ObjHeader → ObjHeader), (h.modifyHeader a f).obj? x = h.obj? x := fun h f => by
      rw [Heap.modifyHeader, obj?_modify, if_neg fun hax => hx (Set.mem_singleton_iff.mpr hax.symm)]
    rw [Heap.possibleRoot, if_pos hpur]
    dsimp only
    split
    · exact hset _ _
    · show ((h.setColor a .purple).setBuffered a true).obj? x = _
      exact (hset _ _).trans (hset _ _)
  · have hax : a ≠ x := by
      rintro rfl
      exact hrel hx
    rw [Released, hr.buffered, hr.color, if_neg hax, if_neg hax]
    exact hx
  · rw [hm] at hm'
    exact absurd hm' (by decide)
  · rw [hm] at hm'
    exact absurd hm' (by decide)

theorem refcount_possibleRoot (h : Heap) (a x : Addr) : (h.possibleRoot a).refcount x = h.refcount x := by
  rw [Heap.possibleRoot]
  split
  · dsimp only
    split
    · exact refcount_setColor h a x _
    · show ((h.setColor a .purple).setBuffered a true).refcount x = _
      rw [refcount_setBuffered, refcount_setColor]
  · rfl

theorem allocated_iff (ht : HeaderOnly M h h') (x : Addr) : h'.Allocated x ↔ h.Allocated x := by
  have := ht.shell x
  unfold Allocated
  rcases hb : h.obj? x with _ | o <;> rcases hb' : h'.obj? x with _ | o' <;> simp_all

theorem isShared_eq (ht : HeaderOnly M h h') (x : Addr) : h'.isShared x = h.isShared x := by
  have := ht.shell x
  unfold isShared
  rcases hb : h.obj? x with _ | o <;> rcases hb' : h'.obj? x with _ | o' <;> simp_all [Obj.shell]

theorem shrinks (ht : HeaderOnly M h h') : Shrinks h h' := by
  refine ⟨fun x => .inr (ht.shell x), fun x hx => ?_, ht.mode, ht.length⟩
  obtain ⟨hal, hrel⟩ := mem_owners.mp hx
  exact mem_owners.mpr ⟨(ht.allocated_iff x).mp hal, fun hr => hrel (ht.released x hr)⟩

theorem logged (ht : HeaderOnly M h h') : ∃ l, Logged h h' l := by
  obtain ⟨l, hl, hn⟩ := ht.log
  refine ⟨l, hl, fun b => ?_, fun b => (hn b).2⟩
  rw [List.count_eq_zero.mpr (hn b).1, Nat.zero_add]
  simp only [ht.allocated_iff]

theorem isRegistered_eq (ht : HeaderOnly M h h') (x : Addr) : h'.isRegistered x = h.isRegistered x := by
  have := ht.shell x
  unfold isRegistered
  rcases hb : h.obj? x with _ | o <;> rcases hb' : h'.obj? x with _ | o' <;> simp_all [Obj.shell]

theorem registryOk (ht : HeaderOnly M h h') (hr : RegistryOk h) : RegistryOk h' := by
  refine ⟨ht.registry ▸ hr.nodup, fun x => ?_⟩
  rw [ht.registry, ht.isRegistered_eq]
  exact hr.mem_iff x

end HeaderOnly

/-! ### Freeing one box -/

theorem freeShallow_eq_dealloc {h : Heap} {a : Addr} (hm : h.mode = .trace) (hal : h.Allocated a) :
    h.freeShallow a = h.dealloc a := by
  rw [freeShallow, if_neg (not_not_intro hal), if_neg]
  rintro ⟨hmode, -⟩
  rw [hm] at hmode
  exact absurd hmode (by decide)

theorem obj?_freeShallow_of_ne {h : Heap} {a x : Addr} (hxa : x ≠ a) : (h.freeShallow a).obj? x = h.obj? x := by
  rw [freeShallow]
  split
  · rfl
  split
  · rw [setColor, modifyHeader, obj?_modify, if_neg (Ne.symm hxa)]
  · rw [obj?_dealloc, if_neg (Ne.symm hxa)]

theorem not_mem_owners_freeShallow {h : Heap} {a : Addr} (hal : h.Allocated a) : a ∉ (h.freeShallow a).owners := by
  intro ha
  obtain ⟨hal', hrel⟩ := mem_owners.mp ha
  rw [freeShallow, if_neg (not_not_intro hal)] at hal' hrel
  split at hrel
  · rename_i hdef
    exact hrel ⟨by rw [buffered_setColor]; exact hdef.2, by rw [color_setColor, if_pos ⟨rfl, hal⟩]⟩
  · rename_i hdef
    rw [if_neg hdef, allocated_dealloc] at hal'
    exact hal'.1 rfl

theorem logged_freeShallow {h : Heap} {a : Addr} (hal : h.Allocated a) : ∃ l, Logged h (h.freeShallow a) l := by
  rw [freeShallow, if_neg (not_not_intro hal)]
  split
  · refine ⟨[], (List.append_nil _).symm, fun b => ?_, by simp⟩
    rw [List.count_nil, Nat.zero_add]
    simp only [allocated_modifyHeader]
  · refine ⟨[.free a], rfl, fun b => ?_, by simp⟩
    simp only [allocated_dealloc]
    by_cases hab : a = b
    · subst hab
      simp [hal]
    · simp [hab]

theorem RegistryOk.freeShallow {h : Heap} (hr : RegistryOk h) (a : Addr) : RegistryOk (h.freeShallow a) := by
  rw [Heap.freeShallow]
  split
  · exact ⟨hr.nodup, hr.mem_iff⟩
  split
  · have hs := SameGraph.setColor h a .black
    refine ⟨hs.registry ▸ hr.nodup, fun x => ?_⟩
    rw [hs.registry, hs.isRegistered_eq]
    exact hr.mem_iff x
  · have hreg : (h.dealloc a).registry = h.registry.erase a := by
      show (if h.isRegistered a then h.registry.erase a else h.registry) = _
      split
      · rfl
      · rename_i hn
        exact (List.erase_of_not_mem fun ha => hn ((hr.mem_iff a).mp ha)).symm
    refine ⟨hreg ▸ hr.nodup.erase a, fun x => ?_⟩
    rw [hreg, hr.nodup.mem_erase_iff, hr.mem_iff]
    show _ ↔ ((h.dealloc a).obj? x).elim false _ = true
    rw [elim_dealloc]
    by_cases hax : a = x
    · simp [hax]
    · simp [hax, Ne.symm hax, isRegistered]

/-! ### The frame of a release -/

/-- What releasing references does: the objects that are dying or have been released before are left alone, each
box that goes is freed once, and an object that stays is still referenced. In trace mode no colour changes. -/
structure Drops (dying : Finset Addr) (h h' : Heap) : Prop extends Shrinks h h' where
  kept : ∀ x, x ∈ dying ∨ h.Released x → h'.obj? x = h.obj? x
  positive : (∀ x ∈ h.owners \ dying, 0 < h.refcount x) → ∀ x ∈ h'.owners \ dying, 0 < h'.refcount x
  color : h.mode = .trace → ∀ x, h'.Allocated x → h'.color x = h.color x
  registry : RegistryOk h → RegistryOk h'
  events : ∃ l, Logged h h' l

namespace Drops

variable {a : Addr} {dying : Finset Addr} {h h' h'' : Heap}

theorem refl (dying : Finset Addr) (h : Heap) : Drops dying h h :=
  ⟨Shrinks.refl h, fun _ _ => rfl, id, fun _ _ _ => rfl, id, [], .refl h⟩

theorem allocated (hd : Drops dying h h') {x : Addr} (hx : h'.Allocated x) : h.Allocated x := by
  obtain ⟨l, hl⟩ := hd.events
  have := hl.frees x
  rw [if_pos hx] at this
  by_contra hn
  rw [if_neg hn] at this
  omega

theorem trans (h₁ : Drops dying h h') (h₂ : Drops dying h' h'') : Drops dying h h'' := by
  obtain ⟨l₁, hl₁⟩ := h₁.events
  obtain ⟨l₂, hl₂⟩ := h₂.events
  refine ⟨h₁.toShrinks.trans h₂.toShrinks, fun x hx => ?_,
    fun hp => h₂.positive (h₁.positive hp), fun hm x hx => ?_, fun hr => h₂.registry (h₁.registry hr),
    l₁ ++ l₂, hl₁.trans hl₂⟩
  · have hobj := h₁.kept x hx
    have hx' : x ∈ dying ∨ h'.Released x := hx.imp_right fun hr => by
      simpa only [Released, buffered, Heap.color, hobj] using hr
    exact (h₂.kept x hx').trans hobj
  · exact (h₂.color (h₁.mode.trans hm) x hx).trans (h₁.color hm x (h₂.allocated hx))

theorem not_kept (ha : a ∈ h.owners \ dying) : ¬ (a ∈ dying ∨ h.Released a) := by
  obtain ⟨haow, had⟩ := Finset.mem_sdiff.mp ha
  rintro (hd | hr)
  · exact had hd
  · exact (mem_owners.mp haow).2 hr

theorem of_headerOnly (ht : HeaderOnly {a} h h') (ha : a ∈ h.owners \ dying) (hpos : 0 < h'.refcount a) :
    Drops dying h h' := by
  refine ⟨ht.shrinks, fun x hx => ht.frame x ?_, fun hp x hx => ?_, fun hm x _ => ht.color hm x, ht.registryOk,
    ht.logged⟩
  · rintro rfl
    exact not_kept ha hx
  · by_cases hxa : x = a
    · exact hxa ▸ hpos
    · have := hp x (Finset.sdiff_subset_sdiff ht.shrinks.owners subset_rfl hx)
      rwa [refcount, ht.frame x hxa]

/-- The last reference to `a` is gone and its children have been released: its box goes. -/
theorem last {h₀ h₁ : Heap} (ht : HeaderOnly {a} h h₀) (ha : a ∈ h.owners \ dying) (hd : Drops (insert a dying) h₀ h₁)
    (hal : h₁.Allocated a) : Drops dying h (h₁.freeShallow a) := by
  obtain ⟨l₀, hl₀⟩ := ht.logged
  obtain ⟨l₁, hl₁⟩ := hd.events
  obtain ⟨l₂, hl₂⟩ := logged_freeShallow hal
  refine ⟨(ht.shrinks.trans hd.toShrinks).trans (.freeShallow h₁ a), fun x hx => ?_, fun hp x hx => ?_,
    fun hm x hx => ?_, fun hr => (hd.registry (ht.registryOk hr)).freeShallow a,
    l₀ ++ l₁ ++ l₂, (hl₀.trans hl₁).trans hl₂⟩
  · have hxa : x ≠ a := by
      rintro rfl
      exact not_kept ha hx
    have hx₀ : x ∈ insert a dying ∨ h₀.Released x := hx.imp Finset.mem_insert_of_mem (ht.released x)
    rw [obj?_freeShallow_of_ne hxa, hd.kept x hx₀, ht.frame x hxa]
  · obtain ⟨hxow, hxd⟩ := Finset.mem_sdiff.mp hx
    have hxa : x ≠ a := by
      rintro rfl
      exact not_mem_owners_freeShallow hal hxow
    have hx₁ : x ∈ h₁.owners \ insert a dying := by
      refine Finset.mem_sdiff.mpr ⟨(Shrinks.freeShallow h₁ a).owners hxow, ?_⟩
      simp [hxa, hxd]
    rw [refcount, obj?_freeShallow_of_ne hxa]
    refine hd.positive (fun y hy => ?_) x hx₁
    obtain ⟨hyow, hyd⟩ := Finset.mem_sdiff.mp hy
    rw [Finset.mem_insert, not_or] at hyd
    rw [refcount, ht.frame y hyd.1]
    exact hp y (Finset.mem_sdiff.mpr ⟨ht.shrinks.owners hyow, hyd.2⟩)
  · have hm₁ : h₁.mode = .trace := (hd.mode.trans ht.mode).trans hm
    rw [freeShallow_eq_dealloc hm₁ hal] at hx ⊢
    obtain ⟨hax, hx₁⟩ := (allocated_dealloc h₁ a x).mp hx
    have hc : (h₁.dealloc a).color x = h₁.color x := (elim_dealloc h₁ a x Color.black _).trans (if_neg hax)
    rw [hc, hd.color (ht.mode.trans hm) x hx₁, ht.color hm]

end Drops

/-! ### Releasing a list of references -/

/-- What a release function has to satisfy for its fold over a list of references to be understood: `Q` is
what it needs of the references that outlive it, `R` what it does. -/
structure ReleaseSpec (Q : Heap → (Addr → Nat) → Prop) (R : Finset Addr → Heap → Heap → Prop) : Prop where
  refl : ∀ dying h, R dying h h
  trans : ∀ {dying h h' h'' ext}, Owned h' ext dying → R dying h h' → R dying h' h'' → R dying h h''
  shrinks : ∀ {dying h h'}, R dying h h' → Shrinks h h'
  shared : ∀ {h ext}, Q h ext → ∀ x, h.isShared x = true → 0 < ext x
  mono : ∀ {h ext ext'}, (∀ x, ext x ≤ ext' x) → Q h ext → Q h ext'
  stable : ∀ {h h' ext}, Shrinks h h' → Q h ext → Q h' ext

/-- `f` releases the caller's reference to an object of a heap with fewer than `n` objects. -/
def Releases (Q : Heap → (Addr → Nat) → Prop) (R : Finset Addr → Heap → Heap → Prop) (n : Nat)
    (f : Heap → Addr → Heap) : Prop :=
  ∀ h ext dying a, Q h (less ext a) → Owned h ext dying → 0 < ext a → (h.owners \ dying).card < n →
    Owned (f h a) (less ext a) dying ∧ R dying h (f h a)

section Release
variable {Q : Heap → (Addr → Nat) → Prop} {R : Finset Addr → Heap → Heap → Prop} {f : Heap → Addr → Heap}
  {n : Nat} {ext : Addr → Nat} {dying : Finset Addr}

theorem le_plus (ext : Addr → Nat) (l : List Addr) (x : Addr) : ext x ≤ plus ext l x := Nat.le_add_right _ _

theorem ReleaseSpec.foldl_owned (hsp : ReleaseSpec Q R) (hf : Releases Q R n f) (l : List Addr) (h : Heap)
    (hq : Q h ext) (ho : Owned h (plus ext l) dying) (hfuel : (h.owners \ dying).card < n) :
    Owned (l.foldl f h) ext dying ∧ R dying h (l.foldl f h) := by
  induction l generalizing h with
  | nil =>
    rw [plus_nil] at ho
    exact ⟨ho, hsp.refl dying h⟩
  | cons c l ihl =>
    have hpos : 0 < plus ext (c :: l) c := by simp [plus]
    have hless := less_plus_cons ext c l
    obtain ⟨ho₁, hs₁⟩ := hf h _ dying c (hless ▸ hsp.mono (le_plus ext l) hq) ho hpos hfuel
    rw [hless] at ho₁
    have hshr := hsp.shrinks hs₁
    have hfuel₁ : ((f h c).owners \ dying).card < n :=
      lt_of_le_of_lt (Finset.card_le_card (Finset.sdiff_subset_sdiff hshr.owners subset_rfl)) hfuel
    obtain ⟨ho₂, hs₂⟩ := ihl (f h c) (hsp.stable hshr hq) ho₁ hfuel₁
    exact ⟨ho₂, hsp.trans ho₁ hs₁ hs₂⟩

theorem Owned.mem_owners_of_pos {h : Heap} (ho : Owned h ext dying) {a : Addr} (hpos : 0 < ext a) :
    a ∈ h.owners \ dying := by
  refine Finset.mem_sdiff.mpr ⟨mem_owners.mpr ⟨ho.ext_alloc a hpos, fun hr => ?_⟩, fun hd => ?_⟩
  · have := (ho.orphan a (.inl hr)).1
    omega
  · have := (ho.orphan a (.inr hd)).1
    omega

theorem card_owners_insert {h h₀ : Heap} {a : Addr} (ha : a ∈ h.owners \ dying) (hsub : h₀.owners ⊆ h.owners)
    (hfuel : (h.owners \ dying).card < n + 1) : (h₀.owners \ insert a dying).card < n := by
  have hsub' : h₀.owners \ insert a dying ⊆ (h.owners \ dying).erase a := by
    intro x hx
    obtain ⟨hx1, hx2⟩ := Finset.mem_sdiff.mp hx
    rw [Finset.mem_insert, not_or] at hx2
    exact Finset.mem_erase.mpr ⟨hx2.1, Finset.mem_sdiff.mpr ⟨hsub hx1, hx2.2⟩⟩
  have hcard := Finset.card_le_card hsub'
  rw [Finset.card_erase_of_mem ha] at hcard
  have : 0 < (h.owners \ dying).card := Finset.card_pos.mpr ⟨a, ha⟩
  omega

theorem ReleaseSpec.reclaim_last (hsp : ReleaseSpec Q R) (hf : Releases Q R n f) {h : Heap} {a : Addr}
    (hq : Q h (less ext a)) (ho : Owned h (plus (less ext a) (h.children a)) (insert a dying)) (had : a ∉ dying)
    (hfuel : (h.owners \ insert a dying).card < n) (l : List Addr) (hl : l.Perm (h.children a)) :
    (l.foldl f h).Allocated a ∧ Owned ((l.foldl f h).freeShallow a) (less ext a) dying ∧
      Owned (l.foldl f h) (less ext a) (insert a dying) ∧ R (insert a dying) h (l.foldl f h) := by
  have hplus : plus (less ext a) l = plus (less ext a) (h.children a) := by
    funext x
    rw [plus, plus, hl.count_eq]
  obtain ⟨ho', hs⟩ := hsp.foldl_owned hf l h hq (hplus ▸ ho) hfuel
  have hal := (mem_owners.mp (ho'.dying_owners (Finset.mem_insert_self a dying))).1
  have hfree := ho'.freeShallow (Finset.mem_insert_self a dying)
  rw [Finset.erase_insert had] at hfree
  exact ⟨hal, hfree, ho', hs⟩

end Release

/-! ### `release` -/

/-- The references that outlive a plain release keep every borrow-shared object. -/
def SharedHeld (h : Heap) (ext : Addr → Nat) : Prop := ∀ x, h.isShared x = true → 0 < ext x

theorem release_spec : ReleaseSpec SharedHeld Drops :=
  ⟨Drops.refl, fun _ h₁ h₂ => h₁.trans h₂, Drops.toShrinks, id, fun hle hq x hx => (hq x hx).trans_le (hle x),
    fun hs hq x hx => hq x (hs.isShared hx)⟩

theorem Owned.sharedHeld_less {h : Heap} {ext : Addr → Nat} {dying : Finset Addr} (ho : Owned h ext dying)
    {a : Addr} (hsh : h.isShared a = true → 1 < ext a) : SharedHeld h (less ext a) := by
  intro x hx
  rw [less]
  split
  · rename_i hxa
    have := hsh (hxa ▸ hx)
    rw [hxa]
    omega
  · exact ho.shared_owned x hx

/-- **The recursive release keeps the invariant**, in both modes: the caller's reference is gone, whatever
became unreferenced is freed or deferred, and everything else is counted exactly. -/
theorem release_owned (n : Nat) : Releases SharedHeld Drops n (release n) := by
  induction n with
  | zero => exact fun h ext dying a _ _ _ hfuel => absurd hfuel (Nat.not_lt_zero _)
  | succ n ih =>
    intro h ext dying a hq ho hpos hfuel
    have hal := ho.ext_alloc a hpos
    rw [release, if_neg (not_not_intro hal)]
    by_cases hs : h.isShared a = true
    · rw [if_pos hs]
      have hheld := hq a hs
      rw [less, if_pos rfl] at hheld
      exact ⟨ho.less_shared hs (by omega), Drops.refl dying h⟩
    rw [if_neg hs]
    rw [Bool.not_eq_true] at hs
    have ha := ho.mem_owners_of_pos hpos
    have had := (Finset.mem_sdiff.mp ha).2
    have hcount := ho.count a ha hs
    have hdec : h.decRef a = (h.rcDec a, (h.rcDec a).refcount a == 0) := by
      rw [decRef, if_neg (by simp [hs])]
    rw [hdec]
    have hrc : (h.rcDec a).refcount a = h.refcount a - 1 := by rw [refcount_rcDec, if_pos rfl]
    dsimp only
    by_cases hlast : (h.rcDec a).refcount a = 0
    · -- the last reference: `a` starts dying and its references become the caller's
      have hedges : h.edges (h.owners \ dying) a = 0 := by omega
      have htake := (ho.take ha hs (by omega) hedges).rcDec_dying (Finset.mem_insert_self a dying)
      have hchild : (h.rcDec a).children a = h.children a := children_modifyHeader h a a _
      rw [← hchild] at htake
      have ht := HeaderOnly.rcDec h a
      obtain ⟨hal', hown, -, hshr⟩ := release_spec.reclaim_last ih (release_spec.stable ht.shrinks hq) htake had
        (card_owners_insert ha ht.shrinks.owners hfuel) _ (List.Perm.refl _)
      have hbeq : ((h.rcDec a).refcount a == 0) = true := by rw [beq_iff_eq, hlast]
      rcases hm : (h.rcDec a).mode with _ | _
      · -- in trace mode nothing is buffered, so the shallow free is a deallocation
        simp only [hbeq, if_true]
        rw [← freeShallow_eq_dealloc (hshr.mode.trans hm) hal']
        exact ⟨hown, .last ht ha hshr hal'⟩
      · simp only [hbeq, if_true]
        exact ⟨hown, .last ht ha hshr hal'⟩
    · have hbeq : ((h.rcDec a).refcount a == 0) = false := by
        rw [beq_eq_false_iff_ne]
        exact hlast
      have hdecd := ho.rcDec ha hpos hs
      have ht := HeaderOnly.rcDec h a
      have hstays := Drops.of_headerOnly ht ha (Nat.pos_of_ne_zero hlast)
      rcases hm : (h.rcDec a).mode with _ | _
      · simp only [hbeq, Bool.false_eq_true, if_false]
        exact ⟨hdecd, hstays⟩
      · simp only [hbeq, Bool.false_eq_true, if_false]
        split
        · have haow : a ∈ (h.rcDec a).owners := by
            obtain ⟨h1, h2⟩ := mem_owners.mp (Finset.mem_sdiff.mp ha).1
            refine mem_owners.mpr ⟨(allocated_modifyHeader h a a _).mpr h1, ?_⟩
            rw [Released, buffered_rcDec, color_rcDec]
            exact h2
          have hroot := hdecd.possibleRoot haow (by rw [isShared_rcDec]; exact hs) hm
          have ht' := ht.trans (.possibleRoot haow (hdecd.buffer hm) hm)
          exact ⟨hroot, .of_headerOnly ht' ha (by rw [HeaderOnly.refcount_possibleRoot]; exact Nat.pos_of_ne_zero hlast)⟩
        · exact ⟨hdecd, hstays⟩

end Heap

end Noeta
