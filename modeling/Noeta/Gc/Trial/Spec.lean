import Noeta.Gc.Trial.Scan

/-!
# Trial deletion: what one collection does

`TrialResult` is the specification of the three phases together. `G` are the objects reachable from a
purple candidate and `W` the ones among them that no object of `G` with a remaining count reaches. The
collection returns `W` (each object once) and the candidates that were not purple at their turn, takes the
edges from `W` out of every count, and leaves every object black and unbuffered.
-/

namespace Noeta

open Relation Dfs

namespace Heap

/-- The counted references that neither end nor begin inside `G`: what holds an object of `G`. -/
def remaining (h : Heap) (G : Finset Addr) (x : Addr) : Nat := h.refcount x - h.kidEdges G x

/-- The outcome of `trialDelete`. -/
structure TrialResult (h : Heap) (G W : Finset Addr) (out : Heap × List Addr × List Addr) : Prop where
  same : SameGraph h out.1
  candidates : out.1.candidates = []
  color : ∀ a, out.1.color a = .black
  buffered : ∀ a, out.1.buffered a = false
  refcount : ∀ a, h.Allocated a → out.1.refcount a = h.refcount a - h.kidEdges W a
  gray_iff : ∀ x, x ∈ G ↔ h.PurpleReach h.candidates x
  white_iff : ∀ x, x ∈ W ↔ x ∈ G ∧ ∀ r ∈ G, 0 < h.remaining G r → ¬ h.Reaches r x
  white_nodup : out.2.1.Nodup
  mem_white : ∀ x, x ∈ out.2.1 ↔ x ∈ W
  deferred_nodup : out.2.2.Nodup
  mem_deferred : ∀ x, x ∈ out.2.2 ↔
    (x ∈ h.candidates ∧ h.color x ≠ .purple) ∨ h.StaleIn h.candidates x

variable {h : Heap} {ext : Addr → Nat}

theorem Counted.kidEdges_le (hc : Counted h ext) {S : Finset Addr} (hS : S ⊆ h.owners) {a : Addr}
    (ha : h.Allocated a) : h.kidEdges S a ≤ h.refcount a := by
  by_cases hs : h.isShared a = true
  · rw [kidEdges_of_shared hs]
    exact Nat.zero_le _
  rw [Bool.not_eq_true] at hs
  rw [kidEdges_of_not_shared hs]
  have hmono := h.edges_mono hS a
  by_cases hrel : h.Released a
  · have := (hc.orphan a hrel).2
    omega
  · have := hc.count a (mem_owners.mpr ⟨ha, hrel⟩) hs
    omega

theorem Counted.trialable (hc : Counted h ext) : Trialable h := by
  refine ⟨fun hp hpx => ?_, fun {p} hp => ?_, fun hS a ha => hc.kidEdges_le (fun x hx => ?_) ha⟩
  · exact (mem_owners.mp (hc.mem_owners_of_reaches (mem_owners_of_purple hp) hpx)).1
  · by_contra hs
    rw [Bool.not_eq_false] at hs
    simp [(hc.shared_rest p hs).1] at hp
  · obtain ⟨p, hp, hpx⟩ := hS x hx
    exact hc.mem_owners_of_reaches (mem_owners_of_purple hp) hpx

theorem MarkLoop.grayCtx (ht : Trialable h) (hb : Buffer h) {m : Marked} {G : Finset Addr}
    (hm : MarkLoop h h.candidates m G) : GrayCtx h G := by
  refine ⟨hm.acc.entered, fun x hx c hcx => ?_, fun x hx => ?_, fun x hx => ?_⟩
  · exact (hm.entered c).mpr (((hm.entered x).mp hx).kid hcx)
  · obtain ⟨p, -, hpur, hpx⟩ := (hm.entered x).mp hx
    rcases ReflTransGen.cases_tail hpx with rfl | ⟨y, -, hyx⟩
    · exact ht.unshared hpur
    · exact (mem_kids.mp hyx).2
  · rcases hb.rest x with hcol | hcol
    · exact hcol
    · exact absurd ((hm.entered x).mpr
        ⟨x, (hb.mem_iff x).mpr (hb.purple x hcol), hcol, ReflTransGen.refl⟩) hx

theorem foldl_scan {G : Finset Addr} (hctx : GrayCtx h G) (roots : List Addr) (h' : Heap)
    (W B : Finset Addr) (hi : ScanInv h G h' W B) :
    ∃ W' B', ScanInv h G (roots.foldl (fun h s => scan h.depth h s) h') W' B' ∧
      ScanProgress h G roots W B W' B' := by
  induction roots generalizing h' W B with
  | nil => exact ⟨W, B, hi, subset_rfl, by simp, fun x hx hxW => absurd hx hxW⟩
  | cons s roots ih =>
    have hfuel : (G.filter (· ∉ W ∪ B)).card < h'.depth := by
      rw [hi.same.depth_eq]
      exact lt_of_le_of_lt ((Finset.card_filter_le _ _).trans (Finset.card_le_card hctx.dom))
        h.card_dom_lt_depth
    obtain ⟨W₁, B₁, hi₁, hp₁⟩ := scan_inv hctx h'.depth h' s W B hi hfuel
    obtain ⟨W₂, B₂, hi₂, hp₂⟩ := ih _ W₁ B₁ hi₁
    exact ⟨W₂, B₂, hi₂, hp₁.append hp₂⟩

/-- **One trial deletion.** -/
theorem trialDelete_spec (ht : Trialable h) (hb : Buffer h) :
    ∃ G W, TrialResult h G W h.trialDelete := by
  obtain ⟨G, hm⟩ := markCandidates_loop ht (fun x hx => (hb.mem_iff x).mp hx) hb.not_gray
  have hctx := hm.grayCtx ht hb
  rw [trialDelete, takeCandidates]
  dsimp only
  generalize hmdef : h.candidates.foldl markCandidate ⟨{ h with candidates := [] }, [], []⟩ = m at hm ⊢
  have hinit : ScanInv h G m.heap ∅ ∅ := by
    refine ⟨hm.acc.same, hm.acc.candidates, fun a => ?_, by simp, by simp, by simp, fun a => ?_, fun a _ => ?_,
      fun a hal haG => ?_, by simp, by simp, by simp⟩
    · rw [hm.acc.buffered]
      by_cases ha : a ∈ h.candidates
      · simp [ha]
      · have hna : h.buffered a ≠ true := fun hbuf => ha ((hb.mem_iff a).mpr hbuf)
        simp [hna]
    · rw [hm.acc.color]
      by_cases haG : a ∈ G
      · simp [haG]
      · simp [haG, hctx.outside a haG]
    · rw [hm.acc.refcount, count_ends _ h rfl]
      simp [kidEdges]
    · have hzero : h.kidEdges G a = 0 := by
        by_contra hne
        obtain ⟨y, hy, hya⟩ := kidEdges_pos.mp (Nat.pos_of_ne_zero hne)
        exact haG (hctx.kid y hy a hya)
      rw [hm.acc.refcount, count_ends _ h rfl, hzero, Nat.sub_zero]
  obtain ⟨W, B, hi, hp⟩ := foldl_scan hctx m.grayRoots m.heap ∅ ∅ hinit
  have hgrayG : ∀ p ∈ m.grayRoots, p ∈ G := fun p hp =>
    (hm.entered p).mpr ⟨p, (hm.grayRoots p hp).1, (hm.grayRoots p hp).2, ReflTransGen.refl⟩
  -- the scanned objects are closed and contain the gray roots
  have hall : ∀ x ∈ G, x ∈ W ∪ B := by
    intro x hx
    obtain ⟨p, hpr, hpx⟩ := hm.covered x hx
    clear hx
    induction hpx with
    | refl => exact hp.scanned p hpr (hgrayG p hpr)
    | @tail b c _ hbc ih =>
      rcases Finset.mem_union.mp ih with hbW | hbB
      · exact hp.closed b hbW (by simp) c hbc
      · exact Finset.mem_union_right _ (hi.closed b hbB c hbc)
  have hGpurple : ∀ x ∈ G, ∃ p, h.color p = .purple ∧ h.Reaches p x := fun x hx => by
    obtain ⟨p, -, hpur, hpx⟩ := (hm.entered x).mp hx
    exact ⟨p, hpur, hpx⟩
  have hGWB : G = W ∪ B := by
    ext x
    refine ⟨hall x, fun hx => ?_⟩
    rcases Finset.mem_union.mp hx with hx | hx
    · exact hi.white_sub hx
    · exact hi.black_sub hx
  have hg := foldl_gatherWhite hctx hi hall m.grayRoots fun x hx => by
    obtain ⟨p, hpr, hpx⟩ := hm.covered x (hi.white_sub hx)
    exact ⟨p, hpr, hgrayG p hpr, hpx⟩
  generalize m.grayRoots.foldl (fun acc s => gatherWhite acc.1.depth acc s)
    (m.grayRoots.foldl (fun h s => scan h.depth h s) m.heap, []) = acc at hg ⊢
  refine ⟨G, W, hi.same.trans hg.same, hg.candidates.trans hi.candidates, fun a => ?_, fun a => ?_,
    fun a hal => ?_, hm.entered, fun x => ⟨fun hx => ?_, fun hx => ?_⟩, hg.nodup, hg.listed,
    hm.deferred_sublist.nodup hb.nodup, hm.deferred⟩
  · rw [hg.color]
    by_cases haW : a ∈ W
    · simp [haW]
    rw [if_neg haW, hi.color]
    by_cases haB : a ∈ B
    · simp [haB]
    have haG : a ∉ G := fun haG => (Finset.mem_union.mp (hall a haG)).elim haW haB
    simp [haB, haW, haG]
  · exact (hg.buffered a).trans (hi.buffered a)
  · have hsplit : h.kidEdges G a = h.kidEdges W a + h.kidEdges B a := by
      rw [hGWB, kidEdges_union h hi.disj]
    have hle := ht.kidEdges_le hGpurple hal
    rw [hg.refcount]
    by_cases haG : a ∈ G
    · rw [hi.refcount a haG]
      omega
    · have hzero : h.kidEdges W a = 0 := by
        by_contra hne
        obtain ⟨y, hy, hya⟩ := kidEdges_pos.mp (Nat.pos_of_ne_zero hne)
        exact haG (hctx.kid y (hi.white_sub hy) a hya)
      rw [hi.frame a hal haG, hzero, Nat.sub_zero]
  · refine ⟨hi.white_sub hx, fun r hrG hrpos hrx => ?_⟩
    have hrW : r ∉ W := fun hrW => by
      have := hi.white r hrW
      rw [remaining] at hrpos
      omega
    have hrB : r ∈ B := (Finset.mem_union.mp (hall r hrG)).resolve_left hrW
    have hxB : x ∈ B := by
      clear hx
      induction hrx with
      | refl => exact hrB
      | tail _ hbc ih => exact hi.closed _ ih _ hbc
    exact Finset.disjoint_left.mp hi.disj hx hxB
  · refine (Finset.mem_union.mp (hall x hx.1)).resolve_right fun hxB => ?_
    obtain ⟨r, hrG, hrpos, hrx⟩ := hi.held x hxB
    exact hx.2 r hrG hrpos hrx

end Heap

end Noeta
