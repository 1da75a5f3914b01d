import Noeta.Gc.Trial.Restore

/-!
# Trial deletion at a safepoint: a deferred component is found again

The undo of a deferred component takes back every decrement across its members' references. Nothing outside
the component refers to a member, so the members have their old counts, and the next collection finds them
white again. A live child may be referred to by a freed component as well; those references stay taken out,
since the reclaim does not release them.
-/

namespace Noeta

open Relation

namespace Heap

/-- What trial deletion finds white. -/
def White (h : Heap) (x : Addr) : Prop := x ∈ h.trialDelete.2.1

/-- Weakly connected, inside the white objects, to one that `defer` selects. -/
def Deferred (h : Heap) (defer : Addr → Bool) (x : Addr) : Prop :=
  ∃ d, h.White d ∧ defer d = true ∧ ReflTransGen (fun a b => h.White b ∧ h.Touches a b) d x

theorem SameGraph.kidEdges_eq {h h' : Heap} (hs : SameGraph h h') (S : Finset Addr) (x : Addr) :
    h'.kidEdges S x = h.kidEdges S x := by
  simp only [kidEdges, hs.kids_eq]

theorem SameGraph.reaches_iff {h h' : Heap} (hs : SameGraph h h') (a b : Addr) :
    h'.Reaches a b ↔ h.Reaches a b := by
  simp only [Reaches, hs.kids_eq]

variable {h h' : Heap} {ext : Addr → Nat} {G W K : Finset Addr} {g : Garbage}
  {out : Heap × List Addr × List Addr}

theorem TrialResult.not_white_of_kid (hr : TrialResult h G W out) {r x : Addr} (hrG : r ∈ G) (hrW : r ∉ W)
    (hx : x ∈ h.kids r) : x ∉ W := by
  intro hxW
  refine hrW ((hr.white_iff r).mpr ⟨hrG, fun s hs hpos hsr => ?_⟩)
  exact ((hr.white_iff x).mp hxW).2 s hs hpos (hsr.tail hx)

theorem TrialResult.gray_kid (hr : TrialResult h G W out) {r x : Addr} (hrG : r ∈ G) (hx : x ∈ h.kids r) :
    x ∈ G :=
  (hr.gray_iff x).mpr (((hr.gray_iff r).mp hrG).kid hx)

theorem TrialResult.not_white_of_reaches (hr : TrialResult h G W out) {r x : Addr} (hrG : r ∈ G) (hrW : r ∉ W)
    (hx : h.Reaches r x) : x ∈ G ∧ x ∉ W := by
  induction hx with
  | refl => exact ⟨hrG, hrW⟩
  | tail _ hbc ih => exact ⟨hr.gray_kid ih.1 hbc, hr.not_white_of_kid ih.1 ih.2 hbc⟩

/-- The references among white objects account for the whole count. -/
theorem TrialResult.refcount_white (hr : TrialResult h G W out) (hc : Counted h ext) {x : Addr} (hx : x ∈ W) :
    h.refcount x = h.kidEdges W x := by
  have hWow : W ⊆ h.owners := hr.white_sub.trans (hr.gray_owners hc)
  have hle := hc.kidEdges_le hWow (mem_owners.mp (hWow hx)).1
  have hge := hr.white_balanced hc hx
  rw [← kidEdges_of_not_shared (hr.gray_unshared hc (hr.white_sub hx))] at hge
  omega

namespace Collected

theorem kidEdges_freed (hcol : Collected h W K h' g) {x : Addr} (hx : x ∈ K) : h.kidEdges (W \ K) x = 0 := by
  by_contra hne
  obtain ⟨y, hy, hyx⟩ := kidEdges_pos.mp (Nat.pos_of_ne_zero hne)
  obtain ⟨hyW, hyK⟩ := Finset.mem_sdiff.mp hy
  exact hyK ((hcol.apart y hyW x (hcol.kept hx) (.inl (mem_kids.mp hyx).1)).mpr hx)

theorem refcount_kept (hcol : Collected h W K h' g) {x : Addr} (hx : x ∈ K) (hal : h.Allocated x) :
    h'.refcount x = h.refcount x := by
  rw [hcol.refcount x hal, hcol.kidEdges_freed hx, Nat.sub_zero]

theorem purple_iff (hcol : Collected h W K h' g) {x : Addr} : h'.color x = .purple ↔ x ∈ K := by
  rw [hcol.color]
  by_cases hx : x ∈ K <;> simp [hx]

/-- From a kept object one reaches kept objects and objects that survive anyway, never a freed one. -/
theorem reaches (hcol : Collected h W K h' g) (hr : TrialResult h G W out) {p x : Addr} (hp : p ∈ K)
    (hx : h.Reaches p x) : x ∈ K ∨ (x ∈ G ∧ x ∉ W) := by
  induction hx with
  | refl => exact .inl hp
  | @tail b c _ hbc ih =>
    rcases ih with hb | ⟨hbG, hbW⟩
    · by_cases hcW : c ∈ W
      · exact .inl ((hcol.apart b (hcol.kept hb) c hcW (.inl (mem_kids.mp hbc).1)).mp hb)
      · exact .inr ⟨hr.gray_kid (hr.white_sub (hcol.kept hb)) hbc, hcW⟩
    · exact .inr ⟨hr.gray_kid hbG hbc, hr.not_white_of_kid hbG hbW hbc⟩

theorem buffer (hcol : Collected h W K h' g) : Buffer h' := by
  refine ⟨hcol.candidates_nodup, fun x => ?_, fun x hx => ?_, fun x => ?_⟩
  · rw [hcol.mem_candidates, hcol.buffered, decide_eq_true_iff]
  · rw [hcol.buffered, decide_eq_true_iff, ← hcol.purple_iff, hx]
  · rw [hcol.color]
    by_cases hx : x ∈ K <;> simp [hx]

/-- The freed objects are still there and their references are no longer counted, but no kept object
reaches them. -/
theorem trialable (hcol : Collected h W K h' g) (hr : TrialResult h G W out) (hc : Counted h ext) :
    Trialable h' := by
  have hGow := hr.gray_owners hc
  have hKG : K ⊆ G := hcol.kept.trans hr.white_sub
  refine ⟨fun hp hpx => ?_, fun hp => ?_, fun {S} hS a ha => ?_⟩
  · rw [hcol.same.reaches_iff] at hpx
    rw [hcol.same.allocated_iff]
    exact (mem_owners.mp (hc.mem_owners_of_reaches (hGow (hKG (hcol.purple_iff.mp hp))) hpx)).1
  · rw [hcol.same.isShared_eq]
    exact hr.gray_unshared hc (hKG (hcol.purple_iff.mp hp))
  · have hcases : ∀ x ∈ S, x ∈ K ∨ (x ∈ G ∧ x ∉ W) := by
      intro x hx
      obtain ⟨p, hp, hpx⟩ := hS x hx
      exact hcol.reaches hr (hcol.purple_iff.mp hp) ((hcol.same.reaches_iff p x).mp hpx)
    have hdisj : Disjoint S (W \ K) := Finset.disjoint_left.mpr fun x hx hxW => by
      obtain ⟨hxW, hxK⟩ := Finset.mem_sdiff.mp hxW
      exact (hcases x hx).elim hxK fun hx => hx.2 hxW
    have hsub : S ∪ W \ K ⊆ h.owners := by
      refine Finset.union_subset (fun x hx => ?_) fun x hx => ?_
      · exact hGow ((hcases x hx).elim (fun hx => hKG hx) And.left)
      · exact hGow (hr.white_sub (Finset.mem_sdiff.mp hx).1)
    have hal : h.Allocated a := (hcol.same.allocated_iff a).mp ha
    have hle := hc.kidEdges_le hsub hal
    rw [kidEdges_union h hdisj] at hle
    rw [hcol.same.kidEdges_eq, hcol.refcount a hal]
    omega

/-- **The next collection finds every kept object again.** -/
theorem mem_fresh_again (hcol : Collected h W K h' g) (hr : TrialResult h G W out) (hc : Counted h ext)
    {x : Addr} (hx : x ∈ K) : x ∈ (collectTrialDeletion h').2.fresh := by
  obtain ⟨G', W', hr'⟩ := trialDelete_spec (hcol.trialable hr hc) hcol.buffer
  have hKG' : K ⊆ G' := fun y hy =>
    (hr'.gray_iff y).mpr ⟨y, (hcol.mem_candidates y).mpr hy, hcol.purple_iff.mpr hy, .refl⟩
  refine (mem_fresh_collectTrialDeletion hr' x).mpr ((hr'.white_iff x).mpr ⟨hKG' hx, fun r hrG' hpos hrx => ?_⟩)
  obtain ⟨p, -, hp, hpr⟩ := (hr'.gray_iff r).mp hrG'
  rw [hcol.same.reaches_iff] at hpr hrx
  rcases hcol.reaches hr (hcol.purple_iff.mp hp) hpr with hrK | ⟨hrG, hrW⟩
  · -- the count of a kept object is made up of references from kept objects
    have hal := (mem_owners.mp (hr.gray_owners hc (hr.white_sub (hcol.kept hrK)))).1
    have hsplit : h.kidEdges (W \ K) r + h.kidEdges K r = h.kidEdges W r := Finset.sum_sdiff hcol.kept
    have hmono : h.kidEdges K r ≤ h.kidEdges G' r := Finset.sum_le_sum_of_subset hKG'
    have hcount := hr.refcount_white hc (hcol.kept hrK)
    have hfreed := hcol.kidEdges_freed hrK
    rw [remaining, hcol.same.kidEdges_eq, hcol.refcount_kept hrK hal] at hpos
    omega
  · exact (hr.not_white_of_reaches hrG hrW hrx).2 (hcol.kept hx)

end Collected

/-- **Deferral keeps a component for the next collection.** Every object of a deferred component is
allocated, purple, buffered, and has its old count. What else it refers to has its old count less the
references from the returned fresh objects. No reference joins a returned fresh object to a deferred one, and
the next trial deletion returns every deferred object as fresh garbage. -/
theorem trialDeletionSafepoint_defers (hex : Exact h ext) (hbuf : BufferOk h) (defer : Addr → Bool) :
    (∀ x, h.Deferred defer x →
      (h.collectTrialDeletionSafepoint defer).1.Allocated x ∧
        (h.collectTrialDeletionSafepoint defer).1.color x = .purple ∧
        (h.collectTrialDeletionSafepoint defer).1.buffered x = true ∧
        x ∈ (h.collectTrialDeletionSafepoint defer).1.candidates ∧
        (h.collectTrialDeletionSafepoint defer).1.refcount x = h.refcount x) ∧
      (∀ x y, h.Deferred defer x → h.Points x y → ¬ h.White y →
        (h.collectTrialDeletionSafepoint defer).1.refcount y +
          h.kidEdges (h.collectTrialDeletionSafepoint defer).2.fresh.toFinset y = h.refcount y) ∧
      (∀ x ∈ (h.collectTrialDeletionSafepoint defer).2.fresh, ∀ y, h.Deferred defer y → ¬ h.Touches x y) ∧
      ∀ x, h.Deferred defer x → x ∈ (h.collectTrialDeletionSafepoint defer).1.collectTrialDeletion.2.fresh := by
  have hc := hex.counted hbuf
  obtain ⟨G, W, hr⟩ := trialDelete_spec hc.trialable hbuf.buffer
  obtain ⟨K, hcol, hK⟩ := collectTrialDeletionSafepoint_collected hc hr defer
  have hWow : W ⊆ h.owners := hr.white_sub.trans (hr.gray_owners hc)
  have hdef : ∀ x, h.Deferred defer x ↔ x ∈ K := by
    intro x
    rw [hK]
    simp only [Deferred, White, hr.mem_white]
  have hal : ∀ x ∈ K, h.Allocated x := fun x hx => (mem_owners.mp (hWow (hcol.kept hx))).1
  refine ⟨fun x hx => ?_, fun x y hx hxy _ => ?_, fun x hx y hy hxy => ?_, fun x hx => ?_⟩
  · rw [hdef] at hx
    rw [hcol.same.allocated_iff, hcol.purple_iff, hcol.buffered, hcol.mem_candidates]
    exact ⟨hal x hx, hx, decide_eq_true hx, hx, hcol.refcount_kept hx (hal x hx)⟩
  · have hfresh : (h.collectTrialDeletionSafepoint defer).2.fresh.toFinset = W \ K := by
      ext z
      rw [List.mem_toFinset, hcol.fresh]
    have hya := hc.closed x (hWow (hcol.kept ((hdef x).mp hx))) y hxy
    have hle := hc.kidEdges_le (Finset.sdiff_subset.trans hWow : W \ K ⊆ h.owners) hya
    rw [hfresh, hcol.refcount y hya]
    omega
  · obtain ⟨hxW, hxK⟩ := Finset.mem_sdiff.mp ((hcol.fresh x).mp hx)
    have hyK := (hdef y).mp hy
    exact hxK ((hcol.apart x hxW y (hcol.kept hyK) hxy).mpr hyK)
  · exact hcol.mem_fresh_again hr hc ((hdef x).mp hx)

/-- Two dead lists that refer to themselves and to the same live list. -/
def sharedChildHeap : Heap where
  objs := [some ⟨⟨1, 0, .purple, true, false, false⟩, .list [.ptr 0, .ptr 2]⟩,
    some ⟨⟨1, 1, .purple, true, false, false⟩, .list [.ptr 1, .ptr 2]⟩,
    some ⟨⟨3, 2, .black, false, false, false⟩, .list []⟩]
  candidates := [0, 1]
  registry := []
  mode := .trialDeletion
  nextSeq := 3
  anomalies := 0
  log := []

def sharedChildExt (a : Addr) : Nat := if a = 2 then 1 else 0

theorem sharedChildHeap_exact : Exact sharedChildHeap sharedChildExt :=
  exact_of_dom (by decide) (by decide) (by decide)

theorem sharedChildHeap_bufferOk : BufferOk sharedChildHeap :=
  bufferOk_of_dom (by decide) (by decide) (by decide)

theorem sharedChildHeap_deferred : sharedChildHeap.Deferred (· == 0) 0 :=
  ⟨0, show 0 ∈ sharedChildHeap.trialDelete.2.1 by decide, rfl, .refl⟩

/-- Deferring the first list: it stays as it was, the second one is returned, and the next collection
returns the first. -/
theorem sharedChildHeap_defers :
    (sharedChildHeap.collectTrialDeletionSafepoint (· == 0)).1.refcount 0 = 1 ∧
      ¬ sharedChildHeap.Touches 1 0 ∧
      0 ∈ (sharedChildHeap.collectTrialDeletionSafepoint (· == 0)).1.collectTrialDeletion.2.fresh := by
  obtain ⟨hkept, -, hapart, hagain⟩ :=
    trialDeletionSafepoint_defers sharedChildHeap_exact sharedChildHeap_bufferOk (· == 0)
  refine ⟨(hkept 0 sharedChildHeap_deferred).2.2.2.2, ?_, hagain 0 sharedChildHeap_deferred⟩
  exact hapart 1 (by decide) 0 sharedChildHeap_deferred

/-- The live list does not get the second list's reference back. -/
theorem sharedChildHeap_child_count :
    Exact sharedChildHeap sharedChildExt ∧ BufferOk sharedChildHeap ∧
      ¬ ∀ x y, sharedChildHeap.Deferred (· == 0) x → sharedChildHeap.Points x y →
        sharedChildHeap.Live sharedChildExt y →
        (sharedChildHeap.collectTrialDeletionSafepoint (· == 0)).1.refcount y = sharedChildHeap.refcount y := by
  refine ⟨sharedChildHeap_exact, sharedChildHeap_bufferOk, fun hall => ?_⟩
  have hlive : sharedChildHeap.Live sharedChildExt 2 := ⟨2, by decide, .refl⟩
  have hcount := hall 0 2 sharedChildHeap_deferred (show 2 ∈ sharedChildHeap.children 0 by decide) hlive
  exact absurd hcount (by decide)

end Heap

end Noeta
