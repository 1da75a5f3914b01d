import Noeta.Gc.Graph
import Noeta.Heap.Release

/-!
# Ownership: counts along a run

`Owned h ext dying` is the invariant of a heap in use. `ext` counts the references held outside the heap,
`dying` are the objects whose last reference is gone and whose children are being released: their
references have been handed to `ext`, one by one. Each primitive keeps the invariant with the obvious change
to `ext`.
-/

namespace Noeta

open Relation

namespace Heap

/-- One reference less to `a`. -/
def less (ext : Addr → Nat) (a : Addr) (x : Addr) : Nat := if x = a then ext x - 1 else ext x

/-- One reference more to `a`. -/
def more (ext : Addr → Nat) (a : Addr) (x : Addr) : Nat := if x = a then ext x + 1 else ext x

/-- The references of `l` besides those of `ext`. -/
def plus (ext : Addr → Nat) (l : List Addr) (x : Addr) : Nat := ext x + l.count x

theorem plus_nil (ext : Addr → Nat) : plus ext [] = ext := by
  funext x
  simp [plus]

theorem less_plus_cons (ext : Addr → Nat) (a : Addr) (l : List Addr) :
    less (plus ext (a :: l)) a = plus ext l := by
  funext x
  simp only [less, plus, List.count_cons]
  by_cases hxa : x = a
  · subst hxa
    simp
  · simp [hxa, Ne.symm hxa]

/-- The invariant of a heap in use. -/
structure Owned (h : Heap) (ext : Addr → Nat) (dying : Finset Addr) : Prop where
  count : ∀ x ∈ h.owners \ dying, h.isShared x = false →
    h.refcount x = ext x + h.edges (h.owners \ dying) x
  orphan : ∀ x, h.Released x ∨ x ∈ dying → ext x = 0 ∧ h.edges (h.owners \ dying) x = 0
  dying_owners : dying ⊆ h.owners
  dying_unshared : ∀ x ∈ dying, h.isShared x = false
  closed : ∀ y ∈ h.owners \ dying, ∀ c ∈ h.children y, h.Allocated c
  ext_alloc : ∀ x, 0 < ext x → h.Allocated x
  shared_owned : ∀ x, h.isShared x = true → 0 < ext x
  shared_children : ∀ y, h.isShared y = true → ∀ c ∈ h.children y, h.isShared c = true
  shared_rest : ∀ x, h.isShared x = true → h.color x = .black ∧ h.buffered x = false
  buffer : h.mode = .trialDeletion → Buffer h
  quiet : h.mode = .trace → ∀ x, h.buffered x = false

theorem Owned.counted {h : Heap} {ext : Addr → Nat} (ho : Owned h ext ∅) : Counted h ext := by
  have hcount := ho.count
  have horphan := ho.orphan
  have hclosed := ho.closed
  rw [Finset.sdiff_empty] at hcount hclosed
  refine ⟨hcount, fun x hx => ?_, hclosed, ho.shared_owned, ho.shared_children, ho.shared_rest⟩
  have := horphan x (.inl hx)
  rwa [Finset.sdiff_empty] at this

theorem Owned.candidates_allocated {h : Heap} {ext : Addr → Nat} {dying : Finset Addr} (ho : Owned h ext dying)
    (hm : h.mode = .trialDeletion) {x : Addr} (hx : x ∈ h.candidates) : h.Allocated x :=
  allocated_of_buffered (((ho.buffer hm).mem_iff x).mp hx)

/-! ### Header writes that keep the owners -/

section Writes
variable {h h' : Heap} {ext ext' : Addr → Nat} {dying : Finset Addr}

/-- A change of headers that keeps the owners. -/
theorem Owned.of_sameGraph (ho : Owned h ext dying) (hs : SameGraph h h')
    (hrel : ∀ x, h'.Released x ↔ h.Released x)
    (hrc : ∀ x ∈ h.owners \ dying, h.isShared x = false → h'.refcount x + ext x = h.refcount x + ext' x)
    (hzero : ∀ x, h.Released x ∨ x ∈ dying → ext' x = 0) (halloc : ∀ x, 0 < ext' x → h.Allocated x)
    (hshared : ∀ x, h.isShared x = true → 0 < ext' x ∧ h'.color x = .black ∧ h'.buffered x = false)
    (hbuf : h.mode = .trialDeletion → Buffer h') (hquiet : h.mode = .trace → ∀ x, h'.buffered x = false) : Owned h' ext' dying := by
  have how : h'.owners = h.owners := by
    ext x
    rw [mem_owners, mem_owners, hs.allocated_iff, hrel]
  refine ⟨fun x hx hns => ?_, fun x hx => ?_, ?_, fun x hx => ?_, fun y hy c hc => ?_, fun x hx => ?_,
    fun x hx => ?_, fun y hy c hc => ?_, fun x hx => ?_, fun hm => hbuf (hs.mode ▸ hm), fun hm => ?_⟩
  · rw [how] at hx ⊢
    rw [hs.isShared_eq] at hns
    rw [hs.edges_eq]
    have h1 := ho.count x hx hns
    have h2 := hrc x hx hns
    omega
  · rw [hrel] at hx
    rw [how, hs.edges_eq]
    exact ⟨hzero x hx, (ho.orphan x hx).2⟩
  · exact how ▸ ho.dying_owners
  · rw [hs.isShared_eq]
    exact ho.dying_unshared x hx
  · rw [how] at hy
    rw [hs.children_eq] at hc
    exact (hs.allocated_iff c).mpr (ho.closed y hy c hc)
  · exact (hs.allocated_iff x).mpr (halloc x hx)
  · exact (hshared x (hs.isShared_eq x ▸ hx)).1
  · rw [hs.isShared_eq] at hy ⊢
    rw [hs.children_eq] at hc
    exact ho.shared_children y hy c hc
  · exact (hshared x (hs.isShared_eq x ▸ hx)).2
  · exact hquiet (hs.mode ▸ hm)

/-- A change that keeps the collector's bits, or paints black. -/
structure KeepsBits (h h' : Heap) : Prop where
  shared : ∀ x, h'.isShared x = h.isShared x
  color : ∀ x, h'.color x = h.color x ∨ h'.color x = .black
  buffered : ∀ x, h'.buffered x = h.buffered x
  candidates : h'.candidates = h.candidates
  mode : h'.mode = h.mode

theorem Owned.bits (ho : Owned h ext dying) (hk : KeepsBits h h') :
    (∀ x, h'.isShared x = true → h'.color x = .black ∧ h'.buffered x = false) ∧
      (h'.mode = .trialDeletion → Buffer h') ∧ (h'.mode = .trace → ∀ x, h'.buffered x = false) := by
  refine ⟨fun x hx => ?_, fun hm => ?_, fun hm x => ?_⟩
  · obtain ⟨hcol, hbuf⟩ := ho.shared_rest x (hk.shared x ▸ hx)
    exact ⟨(hk.color x).elim (·.trans hcol) id, (hk.buffered x).trans hbuf⟩
  · have hb := ho.buffer (hk.mode ▸ hm)
    refine ⟨hk.candidates ▸ hb.nodup, fun x => ?_, fun x hx => ?_, fun x => ?_⟩
    · rw [hk.candidates, hk.buffered]
      exact hb.mem_iff x
    · rw [hk.buffered]
      rcases hk.color x with hc | hc
      · exact hb.purple x (hc ▸ hx)
      · simp [hc] at hx
    · exact (hk.color x).elim (fun hc => hc ▸ hb.rest x) .inl
  · rw [hk.buffered]
    exact ho.quiet (hk.mode ▸ hm) x

theorem Owned.of_counts (ho : Owned h ext dying) (hs : SameGraph h h') (hcand : h'.candidates = h.candidates)
    (hcol : ∀ x, h'.color x = h.color x) (hbuf : ∀ x, h'.buffered x = h.buffered x)
    (hrc : ∀ x ∈ h.owners \ dying, h.isShared x = false → h'.refcount x + ext x = h.refcount x + ext' x)
    (hzero : ∀ x, h.Released x ∨ x ∈ dying → ext' x = 0) (halloc : ∀ x, 0 < ext' x → h.Allocated x)
    (hshared : ∀ x, h.isShared x = true → 0 < ext' x) : Owned h' ext' dying := by
  obtain ⟨-, hb, hq⟩ := ho.bits ⟨hs.isShared_eq, fun x => .inl (hcol x), hbuf, hcand, hs.mode⟩
  refine ho.of_sameGraph hs (fun x => by simp only [Released, hcol, hbuf]) hrc hzero halloc (fun x hx => ?_)
    (hs.mode ▸ hb) (hs.mode ▸ hq)
  rw [hcol, hbuf]
  exact ⟨hshared x hx, ho.shared_rest x hx⟩

variable {a : Addr}

/-- A reference taken by the caller. -/
theorem Owned.incRef (ho : Owned h ext dying) (ha : a ∈ h.owners \ dying) : Owned (h.incRef a) (more ext a) dying := by
  obtain ⟨haow, had⟩ := Finset.mem_sdiff.mp ha
  have hzero : ∀ x, h.Released x ∨ x ∈ dying → more ext a x = 0 := by
    intro x hx
    have hxa : x ≠ a := by
      rintro rfl
      exact hx.elim (mem_owners.mp haow).2 had
    rw [more, if_neg hxa]
    exact (ho.orphan x hx).1
  have halloc : ∀ x, 0 < more ext a x → h.Allocated x := by
    intro x hx
    by_cases hxa : x = a
    · exact hxa ▸ (mem_owners.mp haow).1
    · rw [more, if_neg hxa] at hx
      exact ho.ext_alloc x hx
  have hshared : ∀ x, h.isShared x = true → 0 < more ext a x := by
    intro x hx
    have := ho.shared_owned x hx
    rw [more]
    split <;> omega
  rw [Heap.incRef]
  split
  · rename_i hs
    refine ho.of_counts (SameGraph.refl h) rfl (fun _ => rfl) (fun _ => rfl) (fun x hx hns => ?_) hzero halloc
      hshared
    have hxa : x ≠ a := by
      rintro rfl
      simp [hs] at hns
    rw [more, if_neg hxa]
  · refine ho.of_counts (.rcInc h a) rfl (fun x => color_rcInc h a x) (fun x => buffered_rcInc h a x)
      (fun x hx _ => ?_) hzero halloc hshared
    have hal : h.Allocated x := (mem_owners.mp (Finset.mem_sdiff.mp hx).1).1
    rw [refcount_rcInc, more]
    by_cases hxa : x = a
    · subst hxa
      simp only [hal, and_self, if_true]
      omega
    · simp [hxa, Ne.symm hxa]

theorem Owned.rcDec (ho : Owned h ext dying) (ha : a ∈ h.owners \ dying) (hpos : 0 < ext a)
    (hns : h.isShared a = false) : Owned (h.rcDec a) (less ext a) dying := by
  refine ho.of_counts (.rcDec h a) rfl (fun x => color_rcDec h a x) (fun x => buffered_rcDec h a x)
    (fun x hx hxs => ?_) (fun x hx => ?_) (fun x hx => ?_) (fun x hx => ?_)
  · have hcount := ho.count x hx hxs
    rw [refcount_rcDec, less]
    by_cases hxa : x = a
    · subst hxa
      simp only [if_true]
      omega
    · simp [hxa, Ne.symm hxa]
  · have := (ho.orphan x hx).1
    rw [less]
    split <;> omega
  · refine ho.ext_alloc x ?_
    rw [less] at hx
    split at hx <;> omega
  · have hxa : x ≠ a := by
      rintro rfl
      simp [hns] at hx
    rw [less, if_neg hxa]
    exact ho.shared_owned x hx

theorem Owned.less_shared (ho : Owned h ext dying) (hs : h.isShared a = true) (hpos : 1 < ext a) :
    Owned h (less ext a) dying := by
  refine ho.of_counts (SameGraph.refl h) rfl (fun _ => rfl) (fun _ => rfl) (fun x hx hxs => ?_)
    (fun x hx => ?_) (fun x hx => ?_) (fun x hx => ?_)
  · have hxa : x ≠ a := by
      rintro rfl
      simp [hs] at hxs
    rw [less, if_neg hxa]
  · have := (ho.orphan x hx).1
    rw [less]
    split <;> omega
  · refine ho.ext_alloc x ?_
    rw [less] at hx
    split at hx <;> omega
  · have := ho.shared_owned x hx
    rw [less]
    by_cases hxa : x = a
    · subst hxa
      simp only [if_true]
      omega
    · rw [if_neg hxa]
      exact this

/-! ### The last reference -/

/-- The object `a` starts dying: the caller's reference is gone, the references it holds are the
caller's now. -/
theorem Owned.take (ho : Owned h ext dying) (ha : a ∈ h.owners \ dying)
    (hns : h.isShared a = false) (hext : ext a = 1) (hedges : h.edges (h.owners \ dying) a = 0) :
    Owned h (plus (less ext a) (h.children a)) (insert a dying) := by
  obtain ⟨haow, had⟩ := Finset.mem_sdiff.mp ha
  have hset : h.owners \ insert a dying = (h.owners \ dying).erase a := by
    ext x
    simp only [Finset.mem_sdiff, Finset.mem_insert, Finset.mem_erase, not_or]
    tauto
  have hsplit : ∀ x, h.edges (h.owners \ dying) x =
      h.edges (h.owners \ insert a dying) x + (h.children a).count x := by
    intro x
    rw [hset, edges, edges, Finset.sum_erase_add _ _ ha]
  have hself : ∀ x, h.edges (h.owners \ dying) x = 0 →
      h.edges (h.owners \ insert a dying) x = 0 ∧ (h.children a).count x = 0 := by
    intro x hx
    have := hsplit x
    omega
  refine ⟨fun x hx hxs => ?_, fun x hx => ?_, ?_, fun x hx => ?_, fun y hy c hc => ?_, fun x hx => ?_,
    fun x hx => ?_, ho.shared_children, ho.shared_rest, ho.buffer, ho.quiet⟩
  · have hxm : x ∈ h.owners \ dying := by
      rw [hset] at hx
      exact Finset.mem_of_mem_erase hx
    have hxa : x ≠ a := by
      rw [hset] at hx
      exact Finset.ne_of_mem_erase hx
    rw [ho.count x hxm hxs, hsplit x, plus, less, if_neg hxa]
    omega
  · by_cases hxa : x = a
    · subst hxa
      obtain ⟨h1, h2⟩ := hself x hedges
      rw [plus, less, if_pos rfl, h2]
      omega
    · have hx' : h.Released x ∨ x ∈ dying := by
        rcases hx with hx | hx
        · exact .inl hx
        · exact .inr ((Finset.mem_insert.mp hx).resolve_left hxa)
      obtain ⟨he, hed⟩ := ho.orphan x hx'
      obtain ⟨h1, h2⟩ := hself x hed
      rw [plus, less, if_neg hxa, h2]
      omega
  · exact Finset.insert_subset haow ho.dying_owners
  · rcases Finset.mem_insert.mp hx with rfl | hx
    · exact hns
    · exact ho.dying_unshared x hx
  · rw [hset] at hy
    exact ho.closed y (Finset.mem_of_mem_erase hy) c hc
  · rw [plus] at hx
    by_cases hcx : x ∈ h.children a
    · exact ho.closed a ha x hcx
    · rw [List.count_eq_zero.mpr hcx, less] at hx
      refine ho.ext_alloc x ?_
      split at hx <;> omega
  · have hxa : x ≠ a := by
      rintro rfl
      simp [hns] at hx
    have := ho.shared_owned x hx
    rw [plus, less, if_neg hxa]
    omega

theorem Owned.rcDec_dying (ho : Owned h ext dying) (ha : a ∈ dying) : Owned (h.rcDec a) ext dying := by
  refine ho.of_counts (.rcDec h a) rfl (fun x => color_rcDec h a x) (fun x => buffered_rcDec h a x)
    (fun x hx _ => ?_) (fun x hx => (ho.orphan x hx).1) ho.ext_alloc ho.shared_owned
  have hxa : a ≠ x := by
    rintro rfl
    exact (Finset.mem_sdiff.mp hx).2 ha
  rw [refcount_rcDec, if_neg hxa]

/-- What buffering a black, unbuffered object as a candidate does. -/
structure Rebuffered (h : Heap) (a : Addr) (h' : Heap) : Prop where
  same : SameGraph h h'
  color : ∀ x, h'.color x = if a = x then .purple else h.color x
  buffered : ∀ x, h'.buffered x = if a = x then true else h.buffered x
  refcount : ∀ x, h'.refcount x = h.refcount x
  candidates : h'.candidates = h.candidates ++ [a]

theorem possibleRoot_rebuffered (hal : h.Allocated a) (hcol : h.color a = .black)
    (hbuf : h.buffered a = false) : Rebuffered h a (h.possibleRoot a) := by
  have hs := (SameGraph.setColor h a .purple).trans (.setBuffered _ a true)
  have heq : h.possibleRoot a = { (h.setColor a .purple).setBuffered a true with
      candidates := h.candidates ++ [a] } := by
    rw [Heap.possibleRoot, if_pos (by simp [hcol])]
    dsimp only
    rw [buffered_setColor, if_neg (by simp [hbuf])]
    rfl
  rw [heq]
  refine ⟨⟨hs.shell, hs.length, hs.registry, hs.mode, hs.nextSeq, hs.log⟩, fun x => ?_, fun x => ?_,
    fun x => ?_, rfl⟩
  · show ((h.setColor a .purple).setBuffered a true).color x = _
    rw [color_setBuffered, color_setColor]
    by_cases hax : a = x
    · subst hax
      simp [hal]
    · simp [hax]
  · show ((h.setColor a .purple).setBuffered a true).buffered x = _
    rw [buffered_setBuffered, buffered_setColor]
    by_cases hax : a = x
    · subst hax
      simp [hal]
    · simp [hax]
  · show ((h.setColor a .purple).setBuffered a true).refcount x = _
    rw [refcount_setBuffered, refcount_setColor]

/-- Buffering a possible cycle root. -/
theorem Owned.possibleRoot (ho : Owned h ext dying) (ha : a ∈ h.owners) (hns : h.isShared a = false)
    (hmode : h.mode = .trialDeletion) : Owned (h.possibleRoot a) ext dying := by
  obtain ⟨hal, hrel⟩ := mem_owners.mp ha
  by_cases hpur : h.color a = .purple
  · rw [Heap.possibleRoot, if_neg (not_not_intro hpur)]
    exact ho
  have hblack : h.color a = .black := ((ho.buffer hmode).rest a).resolve_right hpur
  have hunbuf : h.buffered a = false := by
    by_contra hb
    rw [Bool.not_eq_false] at hb
    exact hrel ⟨hb, hblack⟩
  have hr := possibleRoot_rebuffered hal hblack hunbuf
  refine ho.of_sameGraph hr.same (fun x => ?_) (fun x _ _ => ?_) (fun x hx => (ho.orphan x hx).1) ho.ext_alloc
    (fun x hx => ?_) (fun _ => ⟨?_, fun x => ?_, fun x hx => ?_, fun x => ?_⟩) (fun hm => ?_)
  · rw [Released, Released, hr.color, hr.buffered]
    by_cases hax : a = x
    · subst hax
      simp [hunbuf]
    · simp [hax]
  · rw [hr.refcount]
  · have hax : a ≠ x := by
      rintro rfl
      simp [hns] at hx
    rw [hr.color, hr.buffered, if_neg hax, if_neg hax]
    exact ⟨ho.shared_owned x hx, ho.shared_rest x hx⟩
  · rw [hr.candidates]
    refine List.nodup_append.mpr ⟨(ho.buffer hmode).nodup, List.nodup_singleton a, fun x hx b hb hxb => ?_⟩
    rw [List.mem_singleton] at hb
    subst hb hxb
    simp [((ho.buffer hmode).mem_iff x).mp hx] at hunbuf
  · rw [hr.candidates, hr.buffered, List.mem_append, List.mem_singleton, (ho.buffer hmode).mem_iff]
    by_cases hax : a = x
    · simp [hax]
    · simp [hax, Ne.symm hax]
  · rw [hr.buffered]
    split
    · rfl
    · rename_i hax
      rw [hr.color, if_neg hax] at hx
      exact (ho.buffer hmode).purple x hx
  · rw [hr.color]
    split
    · exact .inr rfl
    · exact (ho.buffer hmode).rest x
  · rw [hmode] at hm
    exact absurd hm (by decide)

/-- Freeing a dying object that is not buffered. -/
theorem Owned.dealloc (ho : Owned h ext dying) (ha : a ∈ dying) (hunbuf : h.buffered a = false) :
    Owned (h.dealloc a) ext (dying.erase a) := by
  have hal : ∀ x, (h.dealloc a).Allocated x ↔ a ≠ x ∧ h.Allocated x := allocated_dealloc h a
  have hch : ∀ {x}, a ≠ x → (h.dealloc a).children x = h.children x := fun hax =>
    (elim_dealloc h a _ [] _).trans (if_neg hax)
  have hsh : ∀ x, (h.dealloc a).isShared x = h.isShared x := by
    intro x
    refine (elim_dealloc h a x false _).trans ?_
    split
    · rename_i hax
      exact (ho.dying_unshared x (hax ▸ ha)).symm
    · rfl
  have hcol : ∀ x, (h.dealloc a).color x = if a = x then .black else h.color x := fun x =>
    elim_dealloc h a x Color.black _
  have hbuf : ∀ x, (h.dealloc a).buffered x = h.buffered x := by
    intro x
    refine (elim_dealloc h a x false _).trans ?_
    split
    · rename_i hax
      exact (hax ▸ hunbuf).symm
    · rfl
  have hrel : ∀ x, (h.dealloc a).Released x ↔ h.Released x := by
    intro x
    rw [Released, Released, hbuf, hcol]
    by_cases hax : a = x
    · subst hax
      simp [hunbuf]
    · simp [hax]
  have how : (h.dealloc a).owners \ dying.erase a = h.owners \ dying := by
    ext x
    simp only [Finset.mem_sdiff, mem_owners, hal, hrel, Finset.mem_erase, not_and]
    constructor
    · rintro ⟨⟨⟨hax, hx⟩, hr⟩, hd⟩
      exact ⟨⟨hx, hr⟩, fun hxd => hax (hd (Ne.symm hax) hxd).elim⟩
    · rintro ⟨⟨hx, hr⟩, hd⟩
      refine ⟨⟨⟨?_, hx⟩, hr⟩, fun _ hxd => hd hxd⟩
      rintro rfl
      exact hd ha
  have hne : ∀ x ∈ h.owners \ dying, a ≠ x := by
    rintro x hx rfl
    exact (Finset.mem_sdiff.mp hx).2 ha
  have hedges : ∀ x, (h.dealloc a).edges (h.owners \ dying) x = h.edges (h.owners \ dying) x := fun x =>
    Finset.sum_congr rfl fun y hy => by rw [hch (hne y hy)]
  have hext : ext a = 0 := (ho.orphan a (.inr ha)).1
  have hpaint : ∀ x, (h.dealloc a).color x = h.color x ∨ (h.dealloc a).color x = .black := by grind
  obtain ⟨hrest, hb, hq⟩ := ho.bits ⟨hsh, hpaint, hbuf, rfl, rfl⟩
  refine ⟨fun x hx hxs => ?_, fun x hx => ?_, fun x hx => ?_, fun x hx => ?_, fun y hy c hc => ?_,
    fun x hx => ?_, fun x hx => ?_, fun y hy c hc => ?_, hrest, hb, hq⟩
  · rw [how] at hx ⊢
    rw [hsh] at hxs
    have hrc : (h.dealloc a).refcount x = h.refcount x :=
      (elim_dealloc h a x 0 _).trans (if_neg (hne x hx))
    rw [hrc, hedges]
    exact ho.count x hx hxs
  · rw [how, hedges]
    rw [hrel] at hx
    exact ho.orphan x (hx.imp_right Finset.mem_of_mem_erase)
  · obtain ⟨hxa, hxd⟩ := Finset.mem_erase.mp hx
    have hxow := mem_owners.mp (ho.dying_owners hxd)
    exact mem_owners.mpr ⟨(hal x).mpr ⟨Ne.symm hxa, hxow.1⟩, fun hr => hxow.2 ((hrel x).mp hr)⟩
  · rw [hsh]
    exact ho.dying_unshared x (Finset.mem_of_mem_erase hx)
  · rw [how] at hy
    rw [hch (hne y hy)] at hc
    refine (hal c).mpr ⟨?_, ho.closed y hy c hc⟩
    rintro rfl
    have hpos : 0 < h.edges (h.owners \ dying) a := edges_pos.mpr ⟨y, hy, hc⟩
    have := (ho.orphan a (.inr ha)).2
    omega
  · refine (hal x).mpr ⟨?_, ho.ext_alloc x hx⟩
    rintro rfl
    omega
  · exact ho.shared_owned x (hsh x ▸ hx)
  · rw [hsh] at hy ⊢
    have hay : a ≠ y := by
      rintro rfl
      simp [ho.dying_unshared a ha] at hy
    rw [hch hay] at hc
    exact ho.shared_children y hy c hc

/-- Deferring the deallocation of a dying object that is buffered. -/
theorem Owned.defer (ho : Owned h ext dying) (ha : a ∈ dying) (hbuf : h.buffered a = true) :
    Owned (h.setColor a .black) ext (dying.erase a) := by
  have hs := SameGraph.setColor h a .black
  have hal := (mem_owners.mp (ho.dying_owners ha)).1
  have hcol : ∀ x, (h.setColor a .black).color x = if a = x then .black else h.color x := by
    intro x
    rw [color_setColor]
    by_cases hax : a = x
    · subst hax
      simp [hal]
    · simp [hax]
  have hbufx : ∀ x, (h.setColor a .black).buffered x = h.buffered x := fun x => buffered_setColor h a x _
  have hrel : ∀ x, (h.setColor a .black).Released x ↔ x = a ∨ h.Released x := by
    intro x
    rw [Released, Released, hbufx, hcol]
    by_cases hax : a = x
    · subst hax
      simp [hbuf]
    · simp [hax, Ne.symm hax]
  have how : (h.setColor a .black).owners \ dying.erase a = h.owners \ dying := by
    ext x
    simp only [Finset.mem_sdiff, mem_owners, hs.allocated_iff, hrel, Finset.mem_erase, not_and, not_or]
    constructor
    · rintro ⟨⟨hx, hxa, hr⟩, hd⟩
      exact ⟨⟨hx, hr⟩, hd hxa⟩
    · rintro ⟨⟨hx, hr⟩, hd⟩
      refine ⟨⟨hx, ?_, hr⟩, fun _ => hd⟩
      rintro rfl
      exact hd ha
  have hpaint : ∀ x, (h.setColor a .black).color x = h.color x ∨ (h.setColor a .black).color x = .black := by grind
  obtain ⟨hrest, hb, hq⟩ := ho.bits ⟨hs.isShared_eq, hpaint, hbufx, rfl, rfl⟩
  refine ⟨fun x hx hxs => ?_, fun x hx => ?_, fun x hx => ?_, fun x hx => ?_, fun y hy c hc => ?_,
    fun x hx => ?_, fun x hx => ?_, fun y hy c hc => ?_, hrest, hb, hq⟩
  · rw [how] at hx ⊢
    rw [hs.isShared_eq] at hxs
    rw [refcount_setColor, hs.edges_eq]
    exact ho.count x hx hxs
  · rw [how, hs.edges_eq]
    rw [hrel] at hx
    rcases hx with (rfl | hx) | hx
    · exact ho.orphan x (.inr ha)
    · exact ho.orphan x (.inl hx)
    · exact ho.orphan x (.inr (Finset.mem_of_mem_erase hx))
  · obtain ⟨hxa, hxd⟩ := Finset.mem_erase.mp hx
    have hxow := mem_owners.mp (ho.dying_owners hxd)
    exact mem_owners.mpr ⟨(hs.allocated_iff x).mpr hxow.1, fun hr =>
      ((hrel x).mp hr).elim hxa hxow.2⟩
  · rw [hs.isShared_eq]
    exact ho.dying_unshared x (Finset.mem_of_mem_erase hx)
  · rw [how] at hy
    rw [hs.children_eq] at hc
    exact (hs.allocated_iff c).mpr (ho.closed y hy c hc)
  · exact (hs.allocated_iff x).mpr (ho.ext_alloc x hx)
  · exact ho.shared_owned x (hs.isShared_eq x ▸ hx)
  · rw [hs.isShared_eq] at hy ⊢
    rw [hs.children_eq] at hc
    exact ho.shared_children y hy c hc

theorem Owned.freeShallow (ho : Owned h ext dying) (ha : a ∈ dying) : Owned (h.freeShallow a) ext (dying.erase a) := by
  have hal := (mem_owners.mp (ho.dying_owners ha)).1
  rw [Heap.freeShallow, if_neg (not_not_intro hal)]
  split
  · rename_i hdef
    exact ho.defer ha hdef.2
  · rename_i hdef
    refine ho.dealloc ha ?_
    by_contra hb
    rw [Bool.not_eq_false] at hb
    rcases hm : h.mode with _ | _
    · simp [ho.quiet hm a] at hb
    · exact hdef ⟨hm, hb⟩

/-! ### Mutation and allocation -/

/-- Replacing the payload of an owner: what it no longer refers to becomes the caller's, what it now
refers to was the caller's. -/
theorem Owned.setPayload (ho : Owned h ext dying) {y : Addr} {p p' : Payload} (hy : y ∈ h.owners \ dying)
    (hns : h.isShared y = false) (hp : h.children y = p.children)
    (hbal : ∀ x, ext' x + p'.children.count x = ext x + p.children.count x)
    (hsh : ∀ x, h.isShared x = true → 0 < ext' x) : Owned (h.setPayload y p') ext' dying := by
  have hyal := (mem_owners.mp (Finset.mem_sdiff.mp hy).1).1
  have hal : ∀ x, (h.setPayload y p').Allocated x ↔ h.Allocated x := fun x => allocated_modify h y x _
  have hshx : ∀ x, (h.setPayload y p').isShared x = h.isShared x := fun x =>
    elim_setPayload h y x p' false (·.shared)
  have hcol : ∀ x, (h.setPayload y p').color x = h.color x := fun x => elim_setPayload h y x p' Color.black (·.color)
  have hbuf : ∀ x, (h.setPayload y p').buffered x = h.buffered x := fun x =>
    elim_setPayload h y x p' false (·.buffered)
  have hrc : ∀ x, (h.setPayload y p').refcount x = h.refcount x := fun x => elim_setPayload h y x p' 0 (·.refcount)
  have hch : ∀ x, (h.setPayload y p').children x = if y = x then p'.children else h.children x := by
    intro x
    rw [children_setPayload]
    by_cases hyx : y = x
    · subst hyx
      simp [hyal]
    · simp [hyx]
  have hrel : ∀ x, (h.setPayload y p').Released x ↔ h.Released x := fun x => by simp only [Released, hcol, hbuf]
  have how : (h.setPayload y p').owners = h.owners := by
    ext x
    rw [mem_owners, mem_owners, hal, hrel]
  have hedges : ∀ x, (h.setPayload y p').edges (h.owners \ dying) x + p.children.count x =
      h.edges (h.owners \ dying) x + p'.children.count x := by
    intro x
    have h1 := Finset.sum_erase_add _ (fun z => ((h.setPayload y p').children z).count x) hy
    have h2 := Finset.sum_erase_add _ (fun z => (h.children z).count x) hy
    have h3 : ∑ z ∈ (h.owners \ dying).erase y, ((h.setPayload y p').children z).count x =
        ∑ z ∈ (h.owners \ dying).erase y, (h.children z).count x := by
      refine Finset.sum_congr rfl fun z hz => ?_
      rw [hch, if_neg (Ne.symm (Finset.ne_of_mem_erase hz))]
    have h4 : ((h.setPayload y p').children y).count x = p'.children.count x := by rw [hch, if_pos rfl]
    rw [edges, edges, ← h1, ← h2, h3, h4, hp]
    omega
  have horphan : ∀ x, h.Released x ∨ x ∈ dying → ext' x = 0 ∧ (h.setPayload y p').edges (h.owners \ dying) x = 0 := by
    intro x hx
    obtain ⟨he, hed⟩ := ho.orphan x hx
    have hpx : p.children.count x = 0 := by
      rw [List.count_eq_zero]
      intro hmem
      have : 0 < h.edges (h.owners \ dying) x := edges_pos.mpr ⟨y, hy, hp ▸ hmem⟩
      omega
    have h1 := hbal x
    have h2 := hedges x
    omega
  have halloc : ∀ x, 0 < ext x + p.children.count x → h.Allocated x := by
    intro x hx
    by_cases hmem : x ∈ p.children
    · exact ho.closed y hy x (hp ▸ hmem)
    · rw [List.count_eq_zero.mpr hmem] at hx
      exact ho.ext_alloc x hx
  obtain ⟨hrest, hb, hq⟩ := ho.bits ⟨hshx, fun x => .inl (hcol x), hbuf, rfl, rfl⟩
  refine ⟨fun x hx hxs => ?_, fun x hx => ?_, how ▸ ho.dying_owners, fun x hx => ?_, fun z hz c hc => ?_,
    fun x hx => ?_, fun x hx => ?_, fun z hz c hc => ?_, hrest, hb, hq⟩
  · rw [how] at hx ⊢
    rw [hshx] at hxs
    have h1 := ho.count x hx hxs
    have h2 := hbal x
    have h3 := hedges x
    rw [hrc]
    omega
  · rw [hrel] at hx
    rw [how]
    exact horphan x hx
  · rw [hshx]
    exact ho.dying_unshared x hx
  · rw [how] at hz
    rw [hch] at hc
    rw [hal]
    split at hc
    · refine halloc c ?_
      have h1 := hbal c
      have h2 : 0 < p'.children.count c := List.count_pos_iff.mpr hc
      omega
    · exact ho.closed z hz c hc
  · rw [hal]
    refine halloc x ?_
    have := hbal x
    omega
  · exact hsh x (hshx x ▸ hx)
  · rw [hshx] at hz ⊢
    have hyz : y ≠ z := by
      rintro rfl
      simp [hns] at hz
    rw [hch, if_neg hyz] at hc
    exact ho.shared_children z hz c hc

/-- The references left to the caller after an allocation at `a` took the children `l`. -/
def allocExt (ext : Addr → Nat) (a : Addr) (l : List Addr) (x : Addr) : Nat :=
  if x = a then 1 else ext x - l.count x

/-- Allocating at a free address; the new box takes over the caller's references to its children. -/
theorem Owned.alloc (ho : Owned h ext dying) {p : Payload} (hfree : ¬ h.Allocated a)
    (hown : ∀ x, p.children.count x ≤ ext x) (hsh : ∀ x, h.isShared x = true → p.children.count x < ext x) :
    Owned (h.alloc a p) (allocExt ext a p.children) dying := by
  have hread : ∀ {α : Type} (x : Addr) (d : α) (g : Obj → α), ((h.alloc a p).obj? x).elim d g =
      if a = x then g ⟨⟨1, h.nextSeq, .black, false, false, p.canBeCyclic && !false && h.mode == .trace⟩, p⟩
      else (h.obj? x).elim d g := fun x d g => elim_place h a x _ d g
  have hal : ∀ x, (h.alloc a p).Allocated x ↔ a = x ∨ h.Allocated x := by
    intro x
    have hobj : (h.alloc a p).obj? x = if a = x then _ else h.obj? x := obj?_place h a x _
    rw [Allocated, hobj, Allocated]
    by_cases hax : a = x
    · simp [hax]
    · simp [hax]
  have hch : ∀ x, (h.alloc a p).children x = if a = x then p.children else h.children x := fun x => hread x [] _
  have hshx : ∀ x, (h.alloc a p).isShared x = h.isShared x := by
    intro x
    refine (hread x false _).trans ?_
    split
    · rename_i hax
      exact (isShared_of_not_allocated (hax ▸ hfree)).symm
    · rfl
  have hcol : ∀ x, (h.alloc a p).color x = h.color x := by
    intro x
    refine (hread x Color.black _).trans ?_
    split
    · rename_i hax
      exact (color_of_not_allocated (hax ▸ hfree)).symm
    · rfl
  have hbuf : ∀ x, (h.alloc a p).buffered x = h.buffered x := by
    intro x
    refine (hread x false _).trans ?_
    split
    · rename_i hax
      by_contra hb
      have hb' : h.buffered x = true := by
        cases hbx : h.buffered x
        · simp [hbx] at hb
        · rfl
      exact hfree (hax ▸ allocated_of_buffered hb')
    · rfl
  have hrc : ∀ x, (h.alloc a p).refcount x = if a = x then 1 else h.refcount x := fun x => hread x 0 _
  have hrel : ∀ x, (h.alloc a p).Released x ↔ h.Released x := fun x => by simp only [Released, hcol, hbuf]
  have hnota : ∀ x, x ∈ h.owners → a ≠ x := by
    rintro x hx rfl
    exact hfree (mem_owners.mp hx).1
  have harel : ¬ h.Released a := fun hr => hfree (allocated_of_buffered hr.1)
  have hanot : a ∉ h.owners \ dying := fun hmem => hnota a (Finset.mem_sdiff.mp hmem).1 rfl
  have how : (h.alloc a p).owners \ dying = insert a (h.owners \ dying) := by
    ext x
    simp only [Finset.mem_sdiff, Finset.mem_insert, mem_owners, hal, hrel]
    constructor
    · rintro ⟨⟨rfl | hx, hr⟩, hd⟩
      · exact .inl rfl
      · exact .inr ⟨⟨hx, hr⟩, hd⟩
    · rintro (rfl | ⟨⟨hx, hr⟩, hd⟩)
      · exact ⟨⟨.inl rfl, harel⟩, fun hd => hnota x (ho.dying_owners hd) rfl⟩
      · exact ⟨⟨.inr hx, hr⟩, hd⟩
  have hedges : ∀ x, (h.alloc a p).edges (insert a (h.owners \ dying)) x =
      p.children.count x + h.edges (h.owners \ dying) x := by
    intro x
    rw [edges, Finset.sum_insert hanot, hch, if_pos rfl]
    congr 1
    refine Finset.sum_congr rfl fun z hz => ?_
    rw [hch, if_neg (hnota z (Finset.mem_sdiff.mp hz).1)]
  have hexta : ext a = 0 := by
    by_contra hne
    exact hfree (ho.ext_alloc a (Nat.pos_of_ne_zero hne))
  have hpa : p.children.count a = 0 := by
    have := hown a
    omega
  have hedgea : h.edges (h.owners \ dying) a = 0 := by
    by_contra hne
    obtain ⟨y, hy, hya⟩ := edges_pos.mp (Nat.pos_of_ne_zero hne)
    exact hfree (ho.closed y hy a hya)
  obtain ⟨hrest, hb, hq⟩ := ho.bits ⟨hshx, fun x => .inl (hcol x), hbuf, rfl, rfl⟩
  refine ⟨fun x hx hxs => ?_, fun x hx => ?_, fun x hx => ?_, fun x hx => ?_, fun z hz c hc => ?_,
    fun x hx => ?_, fun x hx => ?_, fun z hz c hc => ?_, hrest, hb, hq⟩
  · rw [how] at hx ⊢
    rw [hedges, hrc, allocExt]
    by_cases hxa : x = a
    · subst hxa
      simp [hpa, hedgea]
    · have hxm := (Finset.mem_insert.mp hx).resolve_left hxa
      have h1 := ho.count x hxm (hshx x ▸ hxs)
      have h2 := hown x
      rw [if_neg (Ne.symm hxa), if_neg hxa, h1]
      omega
  · rw [hrel] at hx
    obtain ⟨he, hed⟩ := ho.orphan x hx
    have hxa : x ≠ a := by
      rintro rfl
      exact hx.elim harel fun hd => hnota x (ho.dying_owners hd) rfl
    have := hown x
    rw [how, hedges, allocExt, if_neg hxa]
    omega
  · have hxow := mem_owners.mp (ho.dying_owners hx)
    exact mem_owners.mpr ⟨(hal x).mpr (.inr hxow.1), fun hr => hxow.2 ((hrel x).mp hr)⟩
  · rw [hshx]
    exact ho.dying_unshared x hx
  · rw [how] at hz
    rw [hch] at hc
    refine (hal c).mpr (.inr ?_)
    split at hc
    · refine ho.ext_alloc c ?_
      have h1 := hown c
      have h2 : 0 < p.children.count c := List.count_pos_iff.mpr hc
      omega
    · rename_i haz
      exact ho.closed z ((Finset.mem_insert.mp hz).resolve_left (Ne.symm haz)) c hc
  · rw [allocExt] at hx
    split at hx
    · rename_i hxa
      exact (hal x).mpr (.inl hxa.symm)
    · exact (hal x).mpr (.inr (ho.ext_alloc x (by omega)))
  · rw [hshx] at hx
    have := hsh x hx
    rw [allocExt]
    split <;> omega
  · rw [hshx] at hz ⊢
    have haz : a ≠ z := by
      rintro rfl
      simp [isShared_of_not_allocated hfree] at hz
    rw [hch, if_neg haz] at hc
    exact ho.shared_children z hz c hc

end Writes

end Heap

end Noeta
