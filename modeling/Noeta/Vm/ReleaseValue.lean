import Noeta.Heap.Drops
import Noeta.Vm.Lifecycle

/-!
# The destructor-aware release

`release_value` keeps the ownership invariant like the plain `release` does, whatever the destructor tables
say: on a last reference it either falls back to `release`, or runs the destructor, releases the children in
destruction order and frees the box. `releaseValue_releases` does the induction once, for every property `R`
that both ways establish.

Borrow-shared objects are left out. Their count is frozen at one, so `release_value` takes a shared container
for a last reference.
-/

namespace Noeta

open Relation

namespace Heap

variable {h : Heap} {ext : Addr → Nat} {dying : Finset Addr} {a : Addr}

/-! ### Running a destructor -/

theorem rcDec_record_rcInc (h : Heap) (a : Addr) (e : Event) :
    ((h.rcInc a).record e).rcDec a = h.record e := by
  have hobjs : (h.objs.modify a (Option.map fun o : Obj =>
      { o with header := { o.header with refcount := o.header.refcount + 1 } })).modify a
        (Option.map fun o : Obj => { o with header := { o.header with refcount := o.header.refcount - 1 } }) =
      h.objs := by
    apply List.ext_getElem?
    intro i
    rw [List.getElem?_modify, List.getElem?_modify]
    by_cases hai : a = i
    · subst hai
      rcases h.objs[a]? with _ | _ | o <;> simp
    · simp [hai]
  simp only [rcDec, rcInc, modifyHeader, modify, record]
  rw [hobjs]

/-- A destructor body that keeps its references to itself leaves the heap alone, but for the log; in
trial-deletion mode dropping the pin makes the instance a candidate. -/
theorem runDestructor_eq (hal : h.Allocated a) (hns : h.isShared a = false) (hpos : 0 < h.refcount a) :
    h.runDestructor a =
      match h.mode with
      | .trace => h.record (.destruct a)
      | .trialDeletion =>
        if h.canBeCyclic a then (h.record (.destruct a)).possibleRoot a else h.record (.destruct a) := by
  have hinc : h.incRef a = h.rcInc a := by rw [incRef, if_neg (by simp [hns])]
  have hal' : ((h.rcInc a).record (.destruct a)).Allocated a := by
    show (h.rcInc a).Allocated a
    exact (allocated_modifyHeader h a a _).mpr hal
  have hns' : ((h.rcInc a).record (.destruct a)).isShared a = false := (isShared_rcInc h a a).trans hns
  have hrc : ((h.rcInc a).record (.destruct a)).refcount a = h.refcount a + 1 := by
    show (h.rcInc a).refcount a = _
    rw [refcount_rcInc, if_pos ⟨rfl, hal⟩]
  have hlast : ((((h.rcInc a).record (.destruct a)).rcDec a).refcount a == 0) = false := by
    rw [refcount_rcDec, if_pos rfl, hrc, beq_eq_false_iff_ne]
    omega
  rw [runDestructor, hinc, depth, release, if_neg (not_not_intro hal'), if_neg (by simp [hns']), decRef,
    if_neg (by simp [hns'])]
  simp only [hlast, Bool.false_eq_true, if_false]
  rw [rcDec_record_rcInc]
  rfl

theorem runDestructor_trace (hm : h.mode = .trace) (hal : h.Allocated a) (hns : h.isShared a = false)
    (hpos : 0 < h.refcount a) : h.runDestructor a = h.record (.destruct a) := by
  rw [runDestructor_eq hal hns hpos, hm]

theorem Owned.record (ho : Owned h ext dying) (e : Event) : Owned (h.record e) ext dying :=
  ⟨ho.count, ho.orphan, ho.dying_owners, ho.dying_unshared, ho.closed, ho.ext_alloc, ho.shared_owned,
    ho.shared_children, ho.shared_rest, fun hm => ⟨(ho.buffer hm).nodup, (ho.buffer hm).mem_iff,
      (ho.buffer hm).purple, (ho.buffer hm).rest⟩, ho.quiet⟩

theorem owners_possibleRoot (ha : a ∈ h.owners) (hb : Buffer h) (hm : h.mode = .trialDeletion) :
    (h.possibleRoot a).owners = h.owners := by
  have ht := HeaderOnly.possibleRoot ha hb hm
  refine subset_antisymm ht.shrinks.owners fun x hx => ?_
  by_cases hxa : x = a
  · subst hxa
    obtain ⟨hal, -⟩ := mem_owners.mp ha
    refine mem_owners.mpr ⟨(ht.allocated_iff x).mpr hal, fun hr => ?_⟩
    have hpur : (h.possibleRoot x).color x = .purple := by
      rw [Heap.possibleRoot]
      split
      · dsimp only
        split
        · rw [color_setColor, if_pos ⟨rfl, hal⟩]
        · show ((h.setColor x .purple).setBuffered x true).color x = _
          rw [color_setBuffered, color_setColor, if_pos ⟨rfl, hal⟩]
      · rename_i hp
        exact not_not.mp hp
    rw [hr.2] at hpur
    exact absurd hpur (by decide)
  · have hobj := ht.frame x hxa
    have := mem_owners.mp hx
    refine mem_owners.mpr ?_
    simpa only [Allocated, Released, buffered, color, hobj] using this

theorem Owned.runDestructor (ho : Owned h ext dying) (ha : a ∈ h.owners \ dying) (hns : h.isShared a = false)
    (hpos : 0 < h.refcount a) :
    Owned (h.runDestructor a) ext dying ∧ HeaderOnly {a} h (h.runDestructor a) ∧
      (h.runDestructor a).refcount a = h.refcount a ∧ (h.runDestructor a).log = h.log ++ [.destruct a] ∧
      (h.runDestructor a).owners = h.owners := by
  have haow := (Finset.mem_sdiff.mp ha).1
  have hrec := ho.record (.destruct a)
  have ht := HeaderOnly.destruct {a} h a
  rw [runDestructor_eq (mem_owners.mp haow).1 hns hpos]
  rcases hm : h.mode with _ | _
  · exact ⟨hrec, ht, rfl, rfl, rfl⟩
  dsimp only
  split
  · have haow' : a ∈ (h.record (.destruct a)).owners := haow
    have ht' : HeaderOnly {a} (h.record (.destruct a)) _ := .possibleRoot haow' (hrec.buffer hm) hm
    have hlog : ((h.record (.destruct a)).possibleRoot a).log = h.log ++ [.destruct a] := by
      rw [Heap.possibleRoot]
      split
      · dsimp only
        split <;> rfl
      · rfl
    exact ⟨hrec.possibleRoot haow' hns hm, ht.trans ht', HeaderOnly.refcount_possibleRoot _ a a, hlog,
      owners_possibleRoot haow' (hrec.buffer hm) hm⟩
  · exact ⟨hrec, ht, rfl, rfl, rfl⟩

/-! ### Releasing a value -/

theorem destructionOrder_perm (h : Heap) (a : Addr) : (h.destructionOrder a).Perm (h.children a) := by
  rw [destructionOrder]
  split
  · exact List.reverse_perm _
  · exact List.Perm.refl _

/-- What `release_value` does to the object first, on its last reference. -/
def destructOwn (t : Tables) (h : Heap) (a : Addr) : Heap :=
  if t.ownDestructor h a then h.runDestructor a else h

theorem Owned.destructOwn (t : Tables) (ho : Owned h ext dying) (ha : a ∈ h.owners \ dying)
    (hns : h.isShared a = false) (hpos : 0 < h.refcount a) :
    Owned (destructOwn t h a) ext dying ∧ HeaderOnly {a} h (destructOwn t h a) ∧
      (destructOwn t h a).refcount a = h.refcount a ∧ (destructOwn t h a).owners = h.owners ∧
      (destructOwn t h a).log = h.log ++ if t.ownDestructor h a then [.destruct a] else [] := by
  rw [Heap.destructOwn]
  split
  · obtain ⟨h1, h2, h3, h4, h5⟩ := ho.runDestructor ha hns hpos
    exact ⟨h1, h2, h3, h5, h4⟩
  · exact ⟨ho, .refl {a} h, rfl, rfl, (List.append_nil _).symm⟩

/-- `release_value` falls back to the plain release: not a last reference, or nothing below has a
destructor as far as the tables can tell. -/
def Plain (t : Tables) (h : Heap) (a : Addr) : Prop :=
  1 < h.refcount a ∨ t.ownDestructor h a = false ∧ t.subtreeOwnsDestructor h a = false

theorem releaseValue_plain {t : Tables} (n : Nat) (hal : h.Allocated a) (hp : Plain t h a) :
    releaseValue t (n + 1) h a = release h.depth h a := by
  rw [releaseValue, if_neg (not_not_intro hal)]
  split
  · rfl
  · rename_i hrc
    obtain ⟨hown, hsub⟩ := hp.resolve_left hrc
    simp [hown, hsub]

theorem releaseValue_walk {t : Tables} (n : Nat) (hal : h.Allocated a) (hp : ¬ Plain t h a) :
    releaseValue t (n + 1) h a =
      (((destructOwn t h a).destructionOrder a).foldl (releaseValue t n) (destructOwn t h a)).freeShallow a := by
  rw [Plain, not_or] at hp
  have hgate : ¬ (!t.ownDestructor h a && !t.subtreeOwnsDestructor h a) = true := by
    rw [Bool.and_eq_true, Bool.not_eq_true', Bool.not_eq_true']
    exact hp.2
  rw [releaseValue, if_neg (not_not_intro hal), if_neg hp.1]
  dsimp only
  rw [if_neg hgate]
  rfl

section Releases
variable {Q : Heap → (Addr → Nat) → Prop} {R : Finset Addr → Heap → Heap → Prop}

/-- **The destructor-aware release keeps the invariant**, and establishes every `R` that a plain release and
the end of a walk establish. -/
theorem releaseValue_releases (t : Tables) (hsp : ReleaseSpec Q R)
    (hunshared : ∀ {h ext}, Q h ext → ∀ x, h.isShared x = false)
    (hplain : ∀ {h ext dying a}, Q h (less ext a) → Owned h ext dying → 0 < ext a → Plain t h a →
      Owned (release h.depth h a) (less ext a) dying → Drops dying h (release h.depth h a) →
      R dying h (release h.depth h a))
    (hwalk : ∀ {h ext dying a h₁}, a ∈ h.owners \ dying → HeaderOnly {a} h (destructOwn t h a) → (destructOwn t h a).owners = h.owners →
      (destructOwn t h a).log = h.log ++ (if t.ownDestructor h a then [.destruct a] else []) →
      Owned h₁ (less ext a) (insert a dying) → R (insert a dying) (destructOwn t h a) h₁ →
      R dying h (h₁.freeShallow a))
    (n : Nat) : Releases Q R n (releaseValue t n) := by
  induction n with
  | zero => exact fun h ext dying a _ _ _ hfuel => absurd hfuel (Nat.not_lt_zero _)
  | succ n ih =>
    intro h ext dying a hq ho hpos hfuel
    have hal := ho.ext_alloc a hpos
    have hns := hunshared hq a
    have ha := ho.mem_owners_of_pos hpos
    have had := (Finset.mem_sdiff.mp ha).2
    have hcount := ho.count a ha hns
    by_cases hp : Plain t h a
    · rw [releaseValue_plain n hal hp]
      have hfuel' : (h.owners \ dying).card < h.depth :=
        lt_of_le_of_lt (Finset.card_le_card (Finset.sdiff_subset.trans (Finset.filter_subset _ _)))
          h.card_dom_lt_depth
      obtain ⟨hown, hdrops⟩ := release_owned h.depth h ext dying a (hsp.shared hq) ho hpos hfuel'
      exact ⟨hown, hplain hq ho hpos hp hown hdrops⟩
    · -- the last reference: run the destructor, then release the children and free the box
      rw [releaseValue_walk n hal hp]
      have hrc : h.refcount a = 1 := by
        rw [Plain, not_or] at hp
        omega
      obtain ⟨ho₀, ht, hrc₀, how₀, hlog⟩ := ho.destructOwn t ha hns (by omega)
      have hns₀ : (destructOwn t h a).isShared a = false := hunshared (hsp.stable ht.shrinks hq) a
      have ha₀ : a ∈ (destructOwn t h a).owners \ dying := how₀ ▸ ha
      have hcount₀ := ho₀.count a ha₀ hns₀
      have htake := ho₀.take ha₀ hns₀ (by omega) (by omega)
      obtain ⟨-, hfree, ho₁, hR⟩ := hsp.reclaim_last ih (hsp.stable ht.shrinks hq) htake had
        (card_owners_insert ha ht.shrinks.owners hfuel) _ (destructionOrder_perm _ a)
      exact ⟨hfree, hwalk ha ht how₀ hlog ho₁ hR⟩

end Releases

/-- No object is borrow-shared. -/
def Unshared (h : Heap) : Prop := ∀ x, h.isShared x = false

theorem Shrinks.unshared {h h' : Heap} (hs : Shrinks h h') (hu : Unshared h) : Unshared h' := by
  intro x
  by_contra hx
  rw [Bool.not_eq_false] at hx
  have := hs.isShared hx
  rw [hu x] at this
  exact absurd this (by decide)

theorem unshared_spec : ReleaseSpec (fun h _ => Unshared h) Drops :=
  ⟨Drops.refl, fun _ h₁ h₂ => h₁.trans h₂, Drops.toShrinks, fun hu x hx => absurd hx (by simp [hu x]),
    fun _ hu => hu, Shrinks.unshared⟩

theorem releaseValue_owned (t : Tables) (n : Nat) : Releases (fun h _ => Unshared h) Drops n (releaseValue t n) :=
  releaseValue_releases t unshared_spec (fun hu => hu) (fun _ _ _ _ _ hd => hd)
    (fun ha ht _ _ ho₁ hd =>
      .last ht ha hd (mem_owners.mp (ho₁.dying_owners (Finset.mem_insert_self _ _))).1) n

theorem Owned.releaseValue (t : Tables) (ho : Owned h ext dying) (hu : Unshared h) (hpos : 0 < ext a) :
    Owned (releaseValue t h.depth h a) (less ext a) dying ∧ Drops dying h (releaseValue t h.depth h a) :=
  releaseValue_owned t h.depth h ext dying a hu ho hpos
    (lt_of_le_of_lt (Finset.card_le_card (Finset.sdiff_subset.trans (Finset.filter_subset _ _)))
      h.card_dom_lt_depth)

end Heap

end Noeta
