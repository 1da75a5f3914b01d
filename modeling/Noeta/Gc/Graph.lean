import Noeta.Gc.Collector

/-!
# Reference graphs and exact counts

The facts both collectors rest on, in terms of the object graph alone.

* `SameGraph`: two heaps that differ only in counts, colours and buffered bits. The collectors never
  leave this relation, so every graph notion below is the same before and after each of their steps.
* `Exact`: every count is the number of external references plus the child edges from objects that
  still own their children. `ext a` is the number of references to `a` held outside the heap.
* `BufferOk`: what the release path keeps true of the candidate buffer.

A buffered black object is a deferred deallocation: its children are already released, so it owns
nothing (`Released`).
-/

namespace Noeta

open Relation

/-- What the collectors never write. -/
def Obj.shell (o : Obj) : Payload × Nat × Bool × Bool :=
  (o.payload, o.header.seq, o.header.shared, o.header.registered)

namespace Heap

/-! ### Heaps that differ in counts, colours and buffered bits only -/

structure SameGraph (h h' : Heap) : Prop where
  shell : ∀ a, (h'.obj? a).map Obj.shell = (h.obj? a).map Obj.shell
  length : h'.objs.length = h.objs.length
  registry : h'.registry = h.registry
  mode : h'.mode = h.mode
  nextSeq : h'.nextSeq = h.nextSeq
  log : h'.log = h.log

namespace SameGraph

variable {h h' h'' : Heap}

theorem refl (h : Heap) : SameGraph h h := ⟨fun _ => rfl, rfl, rfl, rfl, rfl, rfl⟩

theorem trans (h₁ : SameGraph h h') (h₂ : SameGraph h' h'') : SameGraph h h'' :=
  ⟨fun a => (h₂.shell a).trans (h₁.shell a), h₂.length.trans h₁.length,
    h₂.registry.trans h₁.registry, h₂.mode.trans h₁.mode, h₂.nextSeq.trans h₁.nextSeq,
    h₂.log.trans h₁.log⟩

theorem modifyHeader (h : Heap) (a : Addr) {f : ObjHeader → ObjHeader}
    (hf : ∀ o, (f o).seq = o.seq ∧ (f o).shared = o.shared ∧ (f o).registered = o.registered) :
    SameGraph h (h.modifyHeader a f) := by
  refine ⟨fun b => ?_, ?_, rfl, rfl, rfl, rfl⟩
  · rw [Heap.modifyHeader, obj?_modify]
    split
    · rcases h.obj? b with _ | o
      · rfl
      · obtain ⟨h1, h2, h3⟩ := hf o.header
        simp [Obj.shell, h1, h2, h3]
    · rfl
  · simp [Heap.modifyHeader, Heap.modify]

theorem setColor (h : Heap) (a : Addr) (c : Color) : SameGraph h (h.setColor a c) :=
  modifyHeader h a fun _ => ⟨rfl, rfl, rfl⟩

theorem setBuffered (h : Heap) (a : Addr) (b : Bool) : SameGraph h (h.setBuffered a b) :=
  modifyHeader h a fun _ => ⟨rfl, rfl, rfl⟩

theorem rcInc (h : Heap) (a : Addr) : SameGraph h (h.rcInc a) :=
  modifyHeader h a fun _ => ⟨rfl, rfl, rfl⟩

theorem rcDec (h : Heap) (a : Addr) : SameGraph h (h.rcDec a) :=
  modifyHeader h a fun _ => ⟨rfl, rfl, rfl⟩

theorem elim_eq {α : Type} (hs : SameGraph h h') (a : Addr) (d : α) (g : Payload × Nat × Bool × Bool → α) :
    (h'.obj? a).elim d (fun o => g o.shell) = (h.obj? a).elim d (fun o => g o.shell) := by
  have := hs.shell a
  rcases hb : h.obj? a with _ | o <;> rcases hb' : h'.obj? a with _ | o' <;> simp_all

theorem children_eq (hs : SameGraph h h') (a : Addr) : h'.children a = h.children a :=
  hs.elim_eq a [] (·.1.children)

theorem isShared_eq (hs : SameGraph h h') (a : Addr) : h'.isShared a = h.isShared a :=
  hs.elim_eq a false (·.2.2.1)

theorem isRegistered_eq (hs : SameGraph h h') (a : Addr) : h'.isRegistered a = h.isRegistered a :=
  hs.elim_eq a false (·.2.2.2)

theorem canBeCyclic_eq (hs : SameGraph h h') (a : Addr) : h'.canBeCyclic a = h.canBeCyclic a :=
  hs.elim_eq a false (·.1.canBeCyclic)

theorem allocated_iff (hs : SameGraph h h') (a : Addr) : h'.Allocated a ↔ h.Allocated a := by
  have := hs.shell a
  unfold Allocated
  rcases hb : h.obj? a with _ | o <;> rcases hb' : h'.obj? a with _ | o' <;> simp_all

theorem dom_eq (hs : SameGraph h h') : h'.dom = h.dom := by
  ext a
  rw [mem_dom, mem_dom, hs.allocated_iff]

theorem depth_eq (hs : SameGraph h h') : h'.depth = h.depth := by
  rw [depth, depth, hs.length]

end SameGraph

theorem card_dom_lt_depth (h : Heap) : h.dom.card < h.depth := by
  have := Finset.card_filter_le (Finset.range h.objs.length) h.Allocated
  rw [Finset.card_range] at this
  rw [depth, dom]
  omega

/-- The children trial deletion follows: a borrow-shared child is not counted, so it is skipped. -/
def kids (h : Heap) (a : Addr) : List Addr := (h.children a).filter fun c => !h.isShared c

/-- Reachable through counted references. -/
def Reaches (h : Heap) : Addr → Addr → Prop := ReflTransGen fun a b => b ∈ h.kids a

variable {h : Heap} {a : Addr}

theorem mem_kids {a c : Addr} : c ∈ h.kids a ↔ c ∈ h.children a ∧ h.isShared c = false := by
  simp [kids]

theorem SameGraph.kids_eq {h h' : Heap} (hs : SameGraph h h') (a : Addr) : h'.kids a = h.kids a := by
  simp only [Heap.kids, hs.children_eq, hs.isShared_eq]

/-! ### Edges, owners, exactness -/

/-- A deferred deallocation: its children are released, the buffer alone still refers to it. -/
def Released (h : Heap) (a : Addr) : Prop := h.buffered a = true ∧ h.color a = .black

instance (h : Heap) (a : Addr) : Decidable (h.Released a) := inferInstanceAs (Decidable (_ ∧ _))

/-- The allocated objects whose children have not been released. -/
def owners (h : Heap) : Finset Addr := h.dom.filter fun a => ¬ h.Released a

theorem mem_owners : a ∈ h.owners ↔ h.Allocated a ∧ ¬ h.Released a := by
  simp [owners]

/-- The number of child references to `x` from the objects of `S`. -/
def edges (h : Heap) (S : Finset Addr) (x : Addr) : Nat := ∑ y ∈ S, (h.children y).count x

theorem edges_mono (h : Heap) {S T : Finset Addr} (hST : S ⊆ T) (x : Addr) : h.edges S x ≤ h.edges T x :=
  Finset.sum_le_sum_of_subset hST

theorem edges_pos {S : Finset Addr} {x : Addr} : 0 < h.edges S x ↔ ∃ y ∈ S, x ∈ h.children y := by
  simp [edges, Finset.sum_pos_iff]

theorem edges_sdiff (h : Heap) {S T : Finset Addr} (hST : S ⊆ T) (x : Addr) :
    h.edges (T \ S) x + h.edges S x = h.edges T x :=
  Finset.sum_sdiff hST

theorem SameGraph.edges_eq {h h' : Heap} (hs : SameGraph h h') (S : Finset Addr) (x : Addr) :
    h'.edges S x = h.edges S x := by
  simp only [Heap.edges, hs.children_eq]

/-- A direct child reference. -/
def Points (h : Heap) (a b : Addr) : Prop := b ∈ h.children a

/-- Reachable from a reference held outside the heap. -/
def Live (h : Heap) (ext : Addr → Nat) (x : Addr) : Prop := ∃ r, 0 < ext r ∧ ReflTransGen h.Points r x

/-- Exact counts. Borrow-shared graphs are not counted: they are closed, black and never buffered, and
their region refers to each of their objects from outside. -/
structure Exact (h : Heap) (ext : Addr → Nat) : Prop where
  count : ∀ x, h.Allocated x → h.isShared x = false → h.refcount x = ext x + h.edges h.owners x
  closed : ∀ y ∈ h.owners, ∀ c ∈ h.children y, h.Allocated c
  shared_owned : ∀ x, h.isShared x = true → 0 < ext x
  shared_children : ∀ y, h.isShared y = true → ∀ c ∈ h.children y, h.isShared c = true
  shared_rest : ∀ x, h.isShared x = true → h.color x = .black ∧ h.buffered x = false

/-- The release path's invariant of the candidate buffer. -/
structure BufferOk (h : Heap) : Prop where
  nodup : h.candidates.Nodup
  mem_iff : ∀ x, x ∈ h.candidates ↔ h.buffered x = true
  purple : ∀ x, h.color x = .purple → h.buffered x = true
  deferred : ∀ x, h.Released x → h.refcount x = 0
  rest : ∀ x, h.color x = .black ∨ h.color x = .purple

theorem isShared_of_not_allocated (ha : ¬ h.Allocated a) : h.isShared a = false := by
  simp only [Allocated, Option.not_isSome_iff_eq_none] at ha
  simp [isShared, ha]

theorem allocated_of_buffered (ha : h.buffered a = true) : h.Allocated a := by
  by_contra hn
  simp only [Allocated, Option.not_isSome_iff_eq_none] at hn
  simp [buffered, hn] at ha

theorem allocated_of_points {a b : Addr} (hab : h.Points a b) : h.Allocated a := by
  by_contra hn
  simp [Points, children_of_not_allocated hn] at hab

theorem allocated_of_registered (ha : h.isRegistered a = true) : h.Allocated a := by
  by_contra hn
  simp only [Allocated, Option.not_isSome_iff_eq_none] at hn
  simp [isRegistered, hn] at ha

theorem exact_of_dom {ext : Addr → Nat} (hsh : ∀ x ∈ h.dom, h.isShared x = false)
    (hcount : ∀ x ∈ h.dom, h.refcount x = ext x + h.edges h.owners x)
    (hclosed : ∀ y ∈ h.owners, ∀ c ∈ h.children y, c ∈ h.dom) : Exact h ext := by
  have hnone : ∀ x, h.isShared x ≠ true := fun x hx => by
    by_cases ha : h.Allocated x
    · simp [hsh x (mem_dom.mpr ha)] at hx
    · simp [isShared_of_not_allocated ha] at hx
  exact ⟨fun x hx _ => hcount x (mem_dom.mpr hx), fun y hy c hc => mem_dom.mp (hclosed y hy c hc),
    fun x hx => absurd hx (hnone x), fun x hx => absurd hx (hnone x), fun x hx => absurd hx (hnone x)⟩

theorem bufferOk_of_dom (hnodup : h.candidates.Nodup) (hcand : ∀ x ∈ h.candidates, h.buffered x = true)
    (hobj : ∀ x ∈ h.dom, (h.buffered x = true → x ∈ h.candidates) ∧
      (h.color x = .purple → h.buffered x = true) ∧ (h.Released x → h.refcount x = 0) ∧
      (h.color x = .black ∨ h.color x = .purple)) : BufferOk h := by
  refine ⟨hnodup, fun x => ⟨hcand x, fun hx => ?_⟩, fun x hx => ?_, fun x hx => ?_, fun x => ?_⟩
  · exact (hobj x (mem_dom.mpr (allocated_of_buffered hx))).1 hx
  · by_cases ha : h.Allocated x
    · exact (hobj x (mem_dom.mpr ha)).2.1 hx
    · simp [color_of_not_allocated ha] at hx
  · exact (hobj x (mem_dom.mpr (allocated_of_buffered hx.1))).2.2.1 hx
  · by_cases ha : h.Allocated x
    · exact (hobj x (mem_dom.mpr ha)).2.2.2
    · exact .inl (color_of_not_allocated ha)

/-! ### Counts of the objects that own their children

A deferred deallocation may keep a count of one (the destructor-aware release does not decrement the
last reference), so the run invariants only ask that nothing refers to it. -/

/-- What the release path keeps true of the buffer, less the counts of deferred deallocations. -/
structure Buffer (h : Heap) : Prop where
  nodup : h.candidates.Nodup
  mem_iff : ∀ x, x ∈ h.candidates ↔ h.buffered x = true
  purple : ∀ x, h.color x = .purple → h.buffered x = true
  rest : ∀ x, h.color x = .black ∨ h.color x = .purple

theorem BufferOk.buffer (hb : BufferOk h) : Buffer h := ⟨hb.nodup, hb.mem_iff, hb.purple, hb.rest⟩

theorem Buffer.not_gray (hb : Buffer h) (a : Addr) : h.color a ≠ .gray := by
  rcases hb.rest a with hcol | hcol <;> simp [hcol]

structure Counted (h : Heap) (ext : Addr → Nat) : Prop where
  count : ∀ x ∈ h.owners, h.isShared x = false → h.refcount x = ext x + h.edges h.owners x
  orphan : ∀ x, h.Released x → ext x = 0 ∧ h.edges h.owners x = 0
  closed : ∀ y ∈ h.owners, ∀ c ∈ h.children y, h.Allocated c
  shared_owned : ∀ x, h.isShared x = true → 0 < ext x
  shared_children : ∀ y, h.isShared y = true → ∀ c ∈ h.children y, h.isShared c = true
  shared_rest : ∀ x, h.isShared x = true → h.color x = .black ∧ h.buffered x = false

theorem Exact.counted {ext : Addr → Nat} (hex : Exact h ext) (hbuf : BufferOk h) : Counted h ext := by
  refine ⟨fun x hx => hex.count x (mem_owners.mp hx).1, fun x hx => ?_, hex.closed, hex.shared_owned,
    hex.shared_children, hex.shared_rest⟩
  have hns : h.isShared x = false := by
    by_contra hs
    rw [Bool.not_eq_false] at hs
    have := (hex.shared_rest x hs).2
    simp [hx.1] at this
  have hcount := hex.count x (allocated_of_buffered hx.1) hns
  rw [hbuf.deferred x hx] at hcount
  omega

namespace Counted

variable {h : Heap} {ext : Addr → Nat}

theorem not_released_of_points (hc : Counted h ext) {a b : Addr} (ha : a ∈ h.owners) (hab : h.Points a b) :
    ¬ h.Released b := by
  intro hb
  have hpos : 0 < h.edges h.owners b := edges_pos.mpr ⟨a, ha, hab⟩
  have := (hc.orphan b hb).2
  omega

theorem mem_owners_of_points (hc : Counted h ext) {a b : Addr} (ha : a ∈ h.owners) (hab : h.Points a b) :
    b ∈ h.owners :=
  mem_owners.mpr ⟨hc.closed a ha b hab, hc.not_released_of_points ha hab⟩

theorem mem_owners_of_reaches (hc : Counted h ext) {a b : Addr} (ha : a ∈ h.owners)
    (hab : h.Reaches a b) : b ∈ h.owners := by
  induction hab with
  | refl => exact ha
  | tail _ hbc ih => exact hc.mem_owners_of_points ih (mem_kids.mp hbc).1

variable {S : Finset Addr} {x : Addr}

theorem mem_of_reach_closed (hc : Counted h ext)
    (hin : ∀ y ∈ h.owners, ∀ x ∈ S, x ∈ h.children y → y ∈ S) {r x : Addr} (hr : ¬ h.Released r)
    (hrx : ReflTransGen h.Points r x) (hx : x ∈ S) : r ∈ S := by
  induction hrx using ReflTransGen.head_induction_on with
  | refl => exact hx
  | @head a b hab _ ih =>
    have ha : a ∈ h.owners := mem_owners.mpr ⟨allocated_of_points hab, hr⟩
    exact hin a ha b (ih (hc.not_released_of_points ha hab)) hab

theorem not_released_of_ext (hc : Counted h ext) {r : Addr} (hr : 0 < ext r) : ¬ h.Released r := by
  intro hrel
  have := (hc.orphan r hrel).1
  omega

theorem not_released_of_live (hc : Counted h ext) (hx : h.Live ext x) : ¬ h.Released x := by
  obtain ⟨r, hr, hrx⟩ := hx
  have hrr := hc.not_released_of_ext hr
  induction hrx with
  | refl => exact hrr
  | tail hab hbc ih =>
    exact hc.not_released_of_points (mem_owners.mpr ⟨allocated_of_points hbc, ih⟩) hbc

theorem not_live_of_closed (hc : Counted h ext) (hext : ∀ x ∈ S, ext x = 0)
    (hin : ∀ y ∈ h.owners, ∀ x ∈ S, x ∈ h.children y → y ∈ S) (hx : x ∈ S) :
    ¬ h.Live ext x := by
  rintro ⟨r, hr, hrx⟩
  have hrS := hc.mem_of_reach_closed hin (hc.not_released_of_ext hr) hrx hx
  have := hext r hrS
  omega

/-- In a set whose counts are all accounted for by its own edges, nothing is held from outside: the
argument behind both the trace's in-degree check and trial deletion. -/
theorem held_inside_of_balanced (hc : Counted h ext) (hS : S ⊆ h.owners)
    (hns : ∀ x ∈ S, h.isShared x = false) (hbal : ∀ x ∈ S, h.refcount x ≤ h.edges S x) :
    (∀ x ∈ S, ext x = 0) ∧ ∀ y ∈ h.owners, ∀ x ∈ S, x ∈ h.children y → y ∈ S := by
  have hsplit : ∀ x ∈ S, ext x = 0 ∧ h.edges (h.owners \ S) x = 0 := by
    intro x hx
    have hcount := hc.count x (hS hx) (hns x hx)
    have hle := hbal x hx
    have hsum := h.edges_sdiff hS x
    omega
  refine ⟨fun x hx => (hsplit x hx).1, fun y hy x hx hyx => ?_⟩
  by_contra hyS
  have hpos : 0 < h.edges (h.owners \ S) x :=
    edges_pos.mpr ⟨y, Finset.mem_sdiff.mpr ⟨hy, hyS⟩, hyx⟩
  have := (hsplit x hx).2
  omega

theorem not_live_of_balanced (hc : Counted h ext) (hS : S ⊆ h.owners)
    (hns : ∀ x ∈ S, h.isShared x = false) (hbal : ∀ x ∈ S, h.refcount x ≤ h.edges S x)
    (hx : x ∈ S) : ¬ h.Live ext x := by
  obtain ⟨hext, hin⟩ := hc.held_inside_of_balanced hS hns hbal
  exact hc.not_live_of_closed hext hin hx

end Counted

end Heap

end Noeta
