import Noeta.Gc.Trial.Mark

/-!
# Trial deletion: the scan and gather phases

After the mark phase a gray object's count is what remains without the edges from gray objects. `scan`
splits the gray set `G` into black objects `B` (restored: closed under counted references, each reached
from an object with a remaining count) and white objects `W` (no remaining count, children not gray any
more). Both only have to be carried through the recursion (`ScanInv`, `ScanProgress`): at the end nothing
is gray, so `W` is what no held object of `G` reaches. `gatherWhite` then lists `W`, each object once.
-/

namespace Noeta

open Relation Dfs

namespace Heap

variable {h h' : Heap} {x s : Addr} {W B : Finset Addr}

theorem kidEdges_of_shared (hx : h.isShared x = true) (S : Finset Addr) : h.kidEdges S x = 0 := by
  refine Finset.sum_eq_zero fun y _ => List.count_eq_zero.mpr fun hmem => ?_
  simp [(mem_kids.mp hmem).2] at hx

theorem kidEdges_of_not_shared (hx : h.isShared x = false) (S : Finset Addr) : h.kidEdges S x = h.edges S x := by
  refine Finset.sum_congr rfl fun y _ => ?_
  rw [kids, List.count_filter (by simp [hx])]

theorem kidEdges_pos {S : Finset Addr} : 0 < h.kidEdges S x ↔ ∃ y ∈ S, x ∈ h.kids y := by
  simp [kidEdges, Finset.sum_pos_iff]

theorem kidEdges_union (h : Heap) {S T : Finset Addr} (hd : Disjoint S T) (x : Addr) :
    h.kidEdges (S ∪ T) x = h.kidEdges S x + h.kidEdges T x :=
  Finset.sum_union hd

theorem count_ends (w : Walk Heap Addr) (h : Heap) (hk : w.kids = h.kids) (S : Finset Addr) (x : Addr) :
    (w.ends S).count x = h.kidEdges S x := by
  simp [Walk.ends, Multiset.count_sum', hk, kidEdges]

/-! ### `scanBlack` as a walk -/

/-- The walk behind `scanBlack`, over the references of `h₀`. -/
def blackWalk (h₀ : Heap) : Walk Heap Addr where
  kids := h₀.kids
  pending h a := h.color a != .black
  enter h a := h.setColor a .black
  cross h c := h.rcInc c

theorem scanBlack_eq_run (h₀ : Heap) (n : Nat) (h : Heap) (s : Addr) (hs : SameGraph h₀ h)
    (hcol : h.color s ≠ .black) :
    scanBlack n h s = h₀.blackWalk.run n h s ∧ SameGraph h₀ (scanBlack n h s) := by
  induction n generalizing h s with
  | zero => exact ⟨rfl, hs⟩
  | succ n ih =>
    have hskip : ∀ (h : Heap) (c : Addr), h.color c = .black → h₀.blackWalk.run n h c = h := by
      intro h c hc
      cases n with
      | zero => rfl
      | succ n => simp [Walk.run, blackWalk, hc]
    rw [scanBlack, Walk.run, if_pos (by simp [blackWalk, hcol]), hs.children_eq]
    refine Walk.foldl_filter_eq (fun h c hs hc => ?_) (fun h c hs hc => ?_) _ _ (hs.trans (.setColor h s _))
    · rw [hs.isShared_eq, if_pos (by simpa using hc)]
    · rw [hs.isShared_eq, if_neg (by simpa using hc)]
      have hs' : SameGraph h₀ (h.rcInc c) := hs.trans (.rcInc h c)
      by_cases hb : (h.rcInc c).color c = .black
      · rw [show h₀.blackWalk.cross h c = h.rcInc c from rfl, hskip _ _ hb]
        simpa [hb] using hs'
      · dsimp only
        rw [if_pos hb]
        exact ih (h.rcInc c) c hs' hb

/-- The account of one restoring walk that starts in `hb`. -/
structure BlackAcc (hb h : Heap) (E : Finset Addr) (C : Multiset Addr) : Prop where
  same : SameGraph hb h
  candidates : h.candidates = hb.candidates
  color : ∀ a, h.color a = if a ∈ E then .black else hb.color a
  refcount : ∀ a, hb.Allocated a → h.refcount a = hb.refcount a + C.count a
  buffered : ∀ a, h.buffered a = hb.buffered a

theorem blackWalk_account (h₀ hb : Heap) :
    Walk.Account h₀.blackWalk (fun a => hb.color a ≠ .black) (BlackAcc hb) := by
  refine ⟨fun {h E C v} hR => ?_, fun {h E C v} hR hp => ?_, fun {h E C c} hR => ?_⟩
  · by_cases hv : v ∈ E <;> simp [blackWalk, hR.color v, hv]
  · refine ⟨hR.same.trans (.setColor h v _), hR.candidates, fun a => ?_, fun a ha => ?_, fun a => ?_⟩
    · show (h.setColor v .black).color a = _
      rw [color_setColor, hR.color a]
      by_cases hav : v = a
      · subst hav
        by_cases hal : h.Allocated v
        · simp [hal]
        · have := color_of_not_allocated hal
          rw [hR.color v] at this
          simp [this]
      · simp [hav, Ne.symm hav]
    · exact (refcount_setColor h v a _).trans (hR.refcount a ha)
    · exact (buffered_setColor h v a _).trans (hR.buffered a)
  · refine ⟨hR.same.trans (.rcInc h c), hR.candidates, fun a => ?_, fun a ha => ?_, fun a => ?_⟩
    · exact (color_rcInc h c a).trans (hR.color a)
    · have ha' : h.Allocated a := (hR.same.allocated_iff a).mpr ha
      show (h.rcInc c).refcount a = _
      rw [refcount_rcInc, hR.refcount a ha, Multiset.count_cons]
      by_cases hca : c = a
      · subst hca
        simp only [true_and, ha', if_true]
        omega
      · simp [hca, Ne.symm hca]
    · exact (buffered_rcInc h c a).trans (hR.buffered a)

/-! ### The scan -/

/-- What the mark phase hands to the scan: a closed gray set, everything else black. -/
structure GrayCtx (h : Heap) (G : Finset Addr) : Prop where
  dom : G ⊆ h.dom
  kid : ∀ x ∈ G, ∀ c ∈ h.kids x, c ∈ G
  unshared : ∀ x ∈ G, h.isShared x = false
  outside : ∀ x, x ∉ G → h.color x = .black

theorem GrayCtx.mem_of_reaches {G : Finset Addr} (hctx : GrayCtx h G) {x y : Addr} (hx : x ∈ G)
    (hxy : h.Reaches x y) : y ∈ G := by
  induction hxy with
  | refl => exact hx
  | tail _ hbc ih => exact hctx.kid _ ih _ hbc

/-- The scan has painted `W` white and restored `B`, starting from the heap `h` before the collection. -/
structure ScanInv (h : Heap) (G : Finset Addr) (h' : Heap) (W B : Finset Addr) : Prop where
  same : SameGraph h h'
  candidates : h'.candidates = []
  buffered : ∀ a, h'.buffered a = false
  white_sub : W ⊆ G
  black_sub : B ⊆ G
  disj : Disjoint W B
  color : ∀ a, h'.color a = if a ∈ B then .black else if a ∈ W then .white else if a ∈ G then .gray
    else .black
  refcount : ∀ a ∈ G, h'.refcount a = h.refcount a - h.kidEdges G a + h.kidEdges B a
  frame : ∀ a, h.Allocated a → a ∉ G → h'.refcount a = h.refcount a
  closed : ∀ x ∈ B, ∀ c ∈ h.kids x, c ∈ B
  white : ∀ x ∈ W, h.refcount x - h.kidEdges G x = 0
  held : ∀ x ∈ B, ∃ r ∈ G, 0 < h.refcount r - h.kidEdges G r ∧ h.Reaches r x

/-- What scanning the objects `l` achieves. -/
structure ScanProgress (h : Heap) (G : Finset Addr) (l : List Addr) (W B W' B' : Finset Addr) : Prop where
  mono : W ∪ B ⊆ W' ∪ B'
  scanned : ∀ c ∈ l, c ∈ G → c ∈ W' ∪ B'
  closed : ∀ x ∈ W', x ∉ W → ∀ c ∈ h.kids x, c ∈ W' ∪ B'

theorem ScanProgress.append {G : Finset Addr} {l r : List Addr} {W B W' B' W'' B'' : Finset Addr}
    (h₁ : ScanProgress h G l W B W' B') (h₂ : ScanProgress h G r W' B' W'' B'') :
    ScanProgress h G (l ++ r) W B W'' B'' := by
  refine ⟨h₁.mono.trans h₂.mono, fun c hc hcG => ?_, fun x hx hxW c hc => ?_⟩
  · rcases List.mem_append.mp hc with hc | hc
    · exact h₂.mono (h₁.scanned c hc hcG)
    · exact h₂.scanned c hc hcG
  · by_cases hx' : x ∈ W'
    · exact h₂.mono (h₁.closed x hx' hxW c hc)
    · exact h₂.closed x hx hx' c hc

variable {h : Heap} {G : Finset Addr}

theorem ScanInv.mem_of_gray (hi : ScanInv h G h' W B) : h'.color s = .gray ↔ s ∈ G ∧ s ∉ W ∪ B := by
  rw [hi.color, Finset.mem_union]
  by_cases hB : s ∈ B
  · simp [hB]
  by_cases hW : s ∈ W
  · simp [hB, hW]
  by_cases hG : s ∈ G <;> simp [hB, hW, hG]

theorem ScanInv.remaining (hi : ScanInv h G h' W B) (hs : s ∈ G)
    (hsB : s ∉ B) : h'.refcount s = h.refcount s - h.kidEdges G s := by
  have hzero : h.kidEdges B s = 0 := by
    by_contra hne
    obtain ⟨y, hy, hys⟩ := kidEdges_pos.mp (Nat.pos_of_ne_zero hne)
    exact hsB (hi.closed y hy s hys)
  rw [hi.refcount s hs, hzero, Nat.add_zero]

/-- Restoring a held gray object. -/
theorem scanBlack_inv (hctx : GrayCtx h G) (hi : ScanInv h G h' W B)
    (hgray : h'.color s = .gray) (hpos : 0 < h'.refcount s) :
    ∃ W' B', ScanInv h G (scanBlack h'.depth h' s) W' B' ∧ ScanProgress h G [s] W B W' B' := by
  obtain ⟨hsG, hsWB⟩ := hi.mem_of_gray.mp hgray
  have hsB : s ∉ B := fun hb => hsWB (Finset.mem_union_right _ hb)
  rw [hi.remaining hsG hsB] at hpos
  obtain ⟨hrun, -⟩ := scanBlack_eq_run h h'.depth h' s hi.same (by simp [hgray])
  -- the objects the walk may enter: the gray and the white ones
  have hstart : ∀ v, h'.color v ≠ .black → v ∈ G ∧ v ∉ B := by
    intro v hv
    rw [hi.color] at hv
    by_cases hB : v ∈ B
    · simp [hB] at hv
    by_cases hG : v ∈ G
    · exact ⟨hG, hB⟩
    · have hW : v ∉ W := fun hW => hG (hi.white_sub hW)
      simp [hB, hW, hG] at hv
  obtain ⟨E, C, hR, hE⟩ := Walk.run_account (blackWalk_account h h') (U := h.dom)
    (fun v hv => hctx.dom (hstart v hv).1) h'.depth h' ∅ 0 s
    ⟨SameGraph.refl _, rfl, by simp, by simp, fun _ => rfl⟩
    (by rw [hi.same.depth_eq]
        exact lt_of_le_of_lt (Finset.card_filter_le _ _) h.card_dom_lt_depth)
  rw [← hrun] at hR
  have hEG : ∀ x ∈ E, x ∈ G ∧ x ∉ B := fun x hx => hstart x (hE.started x hx (by simp))
  have hdisj : Disjoint B E := Finset.disjoint_left.mpr fun x hxB hxE => (hEG x hxE).2 hxB
  have hcount : ∀ a, C.count a = h.kidEdges E a := by
    intro a
    have hcr : C + h.blackWalk.ends ∅ = 0 + h.blackWalk.ends E := hE.crossed
    have hC : C = h.blackWalk.ends E := by simpa [Walk.ends] using hcr
    rw [hC, count_ends _ h rfl]
  have hkid : ∀ x ∈ E, ∀ c ∈ h.kids x, c ∈ B ∪ E := by
    intro x hx c hc
    have hcG := hctx.kid x (hEG x hx).1 c hc
    by_cases hcB : c ∈ B
    · exact Finset.mem_union_left _ hcB
    · refine Finset.mem_union_right _ (hE.closed x hx (by simp) c hc ?_)
      rw [hi.color, if_neg hcB]
      rw [if_pos hcG]
      split <;> simp
  refine ⟨W \ E, B ∪ E, ⟨hi.same.trans hR.same, hR.candidates.trans hi.candidates, ?_, ?_, ?_, ?_, ?_, ?_, ?_,
    ?_, ?_, ?_⟩, ?_, ?_, ?_⟩
  · exact fun a => (hR.buffered a).trans (hi.buffered a)
  · exact (Finset.sdiff_subset).trans hi.white_sub
  · exact Finset.union_subset hi.black_sub fun x hx => (hEG x hx).1
  · rw [Finset.disjoint_left]
    intro x hx
    simp only [Finset.mem_sdiff, Finset.mem_union, not_or] at hx ⊢
    exact ⟨fun hB => Finset.disjoint_left.mp hi.disj hx.1 hB, hx.2⟩
  · intro a
    rw [hR.color, hi.color]
    by_cases haE : a ∈ E
    · simp [haE]
    · simp [haE]
  · intro a ha
    have hal : h'.Allocated a := (hi.same.allocated_iff a).mpr (mem_dom.mp (hctx.dom ha))
    rw [hR.refcount a hal, hi.refcount a ha, hcount, kidEdges_union h hdisj]
    omega
  · intro a hal haG
    have hzero : h.kidEdges E a = 0 := by
      by_contra hne
      obtain ⟨y, hy, hya⟩ := kidEdges_pos.mp (Nat.pos_of_ne_zero hne)
      exact haG (hctx.kid y (hEG y hy).1 a hya)
    rw [hR.refcount a ((hi.same.allocated_iff a).mpr hal), hi.frame a hal haG, hcount, hzero, Nat.add_zero]
  · intro x hx c hc
    rcases Finset.mem_union.mp hx with hx | hx
    · exact Finset.mem_union_left _ (hi.closed x hx c hc)
    · exact hkid x hx c hc
  · exact fun x hx => hi.white x (Finset.mem_sdiff.mp hx).1
  · intro x hx
    rcases Finset.mem_union.mp hx with hx | hx
    · exact hi.held x hx
    · obtain ⟨v, hv, hvx⟩ := hE.reach x hx (by simp)
      rw [List.mem_singleton] at hv
      subst hv
      exact ⟨v, hsG, hpos, hvx⟩
  · intro x hx
    simp only [Finset.mem_union, Finset.mem_sdiff] at hx ⊢
    tauto
  · intro c hc _
    rw [List.mem_singleton] at hc
    subst hc
    exact Finset.mem_union_right _ (Finset.mem_union_right _ (hE.entered c (by simp) (by simp [hgray])))
  · intro x hx hxW
    exact absurd (Finset.mem_sdiff.mp hx).1 hxW

theorem ScanInv.setWhite (hctx : GrayCtx h G) (hi : ScanInv h G h' W B)
    (hgray : h'.color s = .gray) (hzero : h'.refcount s = 0) :
    ScanInv h G (h'.setColor s .white) (insert s W) B := by
  obtain ⟨hsG, hsWB⟩ := hi.mem_of_gray.mp hgray
  have hsB : s ∉ B := fun hb => hsWB (Finset.mem_union_right _ hb)
  have hal : h'.Allocated s := (hi.same.allocated_iff s).mpr (mem_dom.mp (hctx.dom hsG))
  refine ⟨hi.same.trans (.setColor _ _ _), hi.candidates, ?_, ?_, hi.black_sub, ?_, ?_, ?_, ?_, hi.closed, ?_,
    hi.held⟩
  · exact fun a => (buffered_setColor _ _ _ _).trans (hi.buffered a)
  · exact Finset.insert_subset hsG hi.white_sub
  · exact Finset.disjoint_insert_left.mpr ⟨hsB, hi.disj⟩
  · intro a
    rw [color_setColor, hi.color]
    by_cases hsa : s = a
    · subst hsa
      simp [hal, hsB]
    · simp [hsa, Ne.symm hsa]
  · exact fun a ha => (refcount_setColor _ _ _ _).trans (hi.refcount a ha)
  · exact fun a hal haG => (refcount_setColor _ _ _ _).trans (hi.frame a hal haG)
  · intro x hx
    rcases Finset.mem_insert.mp hx with rfl | hx
    · rw [← hi.remaining hsG hsB, hzero]
    · exact hi.white x hx

/-- **The scan keeps its invariant.** With depth above the number of gray objects left, it scans `s`. -/
theorem scan_inv (hctx : GrayCtx h G) (n : Nat) (h' : Heap) (s : Addr) (W B : Finset Addr)
    (hi : ScanInv h G h' W B) (hfuel : (G.filter (· ∉ W ∪ B)).card < n) :
    ∃ W' B', ScanInv h G (scan n h' s) W' B' ∧ ScanProgress h G [s] W B W' B' := by
  induction n generalizing h' s W B with
  | zero => omega
  | succ n ih =>
    rw [scan]
    by_cases hgray : h'.color s = .gray
    swap
    · rw [if_pos hgray]
      refine ⟨W, B, hi, subset_rfl, fun c hc hcG => ?_, fun x hx hxW => absurd hx hxW⟩
      rw [List.mem_singleton] at hc
      subst hc
      by_contra hcWB
      exact hgray (hi.mem_of_gray.mpr ⟨hcG, hcWB⟩)
    rw [if_neg (not_not_intro hgray)]
    by_cases hpos : 0 < h'.refcount s
    · rw [if_pos hpos]
      exact scanBlack_inv hctx hi hgray hpos
    rw [if_neg hpos]
    obtain ⟨hsG, hsWB⟩ := hi.mem_of_gray.mp hgray
    have hi' := hi.setWhite hctx hgray (Nat.eq_zero_of_not_pos hpos)
    have hins : insert s W ∪ B = insert s (W ∪ B) := Finset.insert_union s W B
    have hfuel' : (G.filter (· ∉ insert s W ∪ B)).card < n := by
      rw [hins]
      exact Walk.card_filter_insert_lt hsG hsWB hfuel
    -- the children one after the other; `insert s W` is what is white when the first one is scanned
    have hfold : ∀ (l : List Addr) (h' : Heap) (W B : Finset Addr), ScanInv h G h' W B →
        (G.filter (· ∉ W ∪ B)).card < n →
        ∃ W' B', ScanInv h G (l.foldl (fun h child => scan n h child) h') W' B' ∧
          ScanProgress h G l W B W' B' := by
      intro l
      induction l with
      | nil => exact fun h' W B hi _ => ⟨W, B, hi, subset_rfl, by simp, fun x hx hxW => absurd hx hxW⟩
      | cons c l ihl =>
        intro h' W B hi hfuel
        obtain ⟨W₁, B₁, hi₁, hp₁⟩ := ih h' c W B hi hfuel
        obtain ⟨W₂, B₂, hi₂, hp₂⟩ := ihl _ W₁ B₁ hi₁ (Walk.card_filter_mono hp₁.mono hfuel)
        exact ⟨W₂, B₂, hi₂, hp₁.append hp₂⟩
    obtain ⟨W', B', hi'', hp⟩ := hfold (h'.children s) _ _ _ hi' hfuel'
    have hmono : insert s (W ∪ B) ⊆ W' ∪ B' := hins ▸ hp.mono
    refine ⟨W', B', hi'', (Finset.subset_insert _ _).trans hmono, fun c hc _ => ?_, fun x hx hxW c hc => ?_⟩
    · rw [List.mem_singleton] at hc
      subst hc
      exact hmono (Finset.mem_insert_self _ _)
    · by_cases hxs : x = s
      · subst hxs
        refine hp.scanned c ?_ (hctx.kid x hsG c hc)
        rw [hi.same.children_eq]
        exact (mem_kids.mp hc).1
      · exact hp.closed x hx (by simp [hxs, hxW]) c hc

/-! ### Gathering the white objects -/

/-- The walk behind `gatherWhite`, over the references of `h₀`. -/
def gatherWalk (h₀ : Heap) : Walk (Heap × List Addr) Addr where
  kids := h₀.children
  pending acc a := acc.1.color a == .white
  enter acc a := (acc.1.setColor a .black, acc.2 ++ [a])
  cross acc _ := acc

theorem gatherWhite_eq_run (h₀ : Heap) (n : Nat) (acc : Heap × List Addr) (s : Addr)
    (hs : SameGraph h₀ acc.1) :
    gatherWhite n acc s = h₀.gatherWalk.run n acc s ∧ SameGraph h₀ (gatherWhite n acc s).1 := by
  induction n generalizing acc s with
  | zero => exact ⟨rfl, hs⟩
  | succ n ih =>
    rw [gatherWhite, Walk.run]
    by_cases hw : acc.1.color s = .white
    · rw [if_pos hw, if_pos (by simp [gatherWalk, hw]), hs.children_eq]
      have hs' : SameGraph h₀ (acc.1.setColor s .black) := hs.trans (.setColor _ s _)
      exact Walk.foldl_eq (P := fun acc => SameGraph h₀ acc.1) (fun acc c hs => ih acc c hs) _
        (acc.1.setColor s .black, acc.2 ++ [s]) hs'
    · rw [if_neg hw, if_neg (by simp [gatherWalk, hw])]
      exact ⟨rfl, hs⟩

/-- The account of the gather phase that starts in `hb`: the entered objects are listed and black. -/
structure GatherAcc (hb : Heap) (acc : Heap × List Addr) (E : Finset Addr) (_C : Multiset Addr) : Prop where
  same : SameGraph hb acc.1
  candidates : acc.1.candidates = hb.candidates
  color : ∀ a, acc.1.color a = if a ∈ E then .black else hb.color a
  refcount : ∀ a, acc.1.refcount a = hb.refcount a
  buffered : ∀ a, acc.1.buffered a = hb.buffered a
  nodup : acc.2.Nodup
  listed : ∀ a, a ∈ acc.2 ↔ a ∈ E

theorem gatherWalk_account (h₀ hb : Heap) :
    Walk.Account h₀.gatherWalk (fun a => hb.color a = .white) (GatherAcc hb) := by
  refine ⟨fun {acc E C v} hR => ?_, fun {acc E C v} hR hp => ?_, fun {acc E C c} hR => ?_⟩
  · by_cases hv : v ∈ E <;> simp [gatherWalk, hR.color v, hv]
  · have hv : v ∉ E := by
      intro hv
      simp [gatherWalk, hR.color v, hv] at hp
    refine ⟨hR.same.trans (.setColor _ _ _), hR.candidates, fun a => ?_, fun a => ?_, fun a => ?_, ?_, fun a => ?_⟩
    · show (acc.1.setColor v .black).color a = _
      rw [color_setColor, hR.color a]
      by_cases hav : v = a
      · subst hav
        by_cases hal : acc.1.Allocated v
        · simp [hal]
        · have := color_of_not_allocated hal
          rw [hR.color v] at this
          simp [this]
      · simp [hav, Ne.symm hav]
    · exact (refcount_setColor _ _ _ _).trans (hR.refcount a)
    · exact (buffered_setColor _ _ _ _).trans (hR.buffered a)
    · refine List.nodup_append.mpr ⟨hR.nodup, List.nodup_singleton v, fun a ha b hb => ?_⟩
      rw [List.mem_singleton] at hb
      subst hb
      exact fun hab => hv ((hR.listed b).mp (hab ▸ ha))
    · show a ∈ acc.2 ++ [v] ↔ _
      rw [List.mem_append, List.mem_singleton, hR.listed, Finset.mem_insert]
      tauto
  · exact ⟨hR.same, hR.candidates, hR.color, hR.refcount, hR.buffered, hR.nodup, hR.listed⟩

theorem foldl_gatherWhite_eq_run (h₀ : Heap) (roots : List Addr) (acc : Heap × List Addr)
    (hs : SameGraph h₀ acc.1) :
    roots.foldl (fun acc s => gatherWhite acc.1.depth acc s) acc =
      roots.foldl (fun acc s => h₀.gatherWalk.run h₀.depth acc s) acc := by
  induction roots generalizing acc with
  | nil => rfl
  | cons s roots ih =>
    obtain ⟨hrun, hsame⟩ := gatherWhite_eq_run h₀ acc.1.depth acc s hs
    rw [List.foldl_cons, List.foldl_cons, ih _ hsame, hrun, hs.depth_eq]

/-- **The gather phase** lists the white objects, each once, and leaves everything black. -/
theorem foldl_gatherWhite (hctx : GrayCtx h G) (hi : ScanInv h G h' W B)
    (hall : ∀ x ∈ G, x ∈ W ∪ B) (roots : List Addr) (hroots : ∀ x ∈ W, ∃ p ∈ roots, p ∈ G ∧ h.Reaches p x) :
    GatherAcc h' (roots.foldl (fun acc s => gatherWhite acc.1.depth acc s) (h', [])) W 0 := by
  rw [foldl_gatherWhite_eq_run h roots (h', []) hi.same]
  have hwhite : ∀ v, h'.color v = .white ↔ v ∈ W := by
    intro v
    rw [hi.color]
    by_cases hB : v ∈ B
    · have hW : v ∉ W := fun hW => Finset.disjoint_left.mp hi.disj hW hB
      simp [hB, hW]
    by_cases hW : v ∈ W
    · simp [hB, hW]
    by_cases hG : v ∈ G <;> simp [hB, hW, hG]
  obtain ⟨E, C, hR, hE⟩ := Walk.foldl_run_account (gatherWalk_account h h') (U := h.dom)
    (fun v hv => hctx.dom (hi.white_sub ((hwhite v).mp hv))) roots (h', []) ∅ 0
    ⟨SameGraph.refl _, rfl, by simp, fun _ => rfl, fun _ => rfl, List.nodup_nil, by simp⟩
    h.card_dom_lt_depth
  -- a path to a white object stays white: the black objects are closed
  have hpath : ∀ p x, h.Reaches p x → p ∈ roots → p ∈ G → x ∈ W → x ∈ E := by
    intro p x hpx hp hpG
    induction hpx with
    | refl => exact fun hpW => hE.entered p hp ((hwhite p).mpr hpW)
    | @tail b c hpb hbc ih =>
      intro hcW
      have hbG : b ∈ G := hctx.mem_of_reaches hpG hpb
      have hbB : b ∉ B := fun hbB => Finset.disjoint_left.mp hi.disj hcW (hi.closed b hbB c hbc)
      have hbW : b ∈ W := (Finset.mem_union.mp (hall b hbG)).resolve_right hbB
      exact hE.closed b (ih hbW) (by simp) c (mem_kids.mp hbc).1 ((hwhite c).mpr hcW)
  have hEW : E = W := by
    ext x
    refine ⟨fun hx => (hwhite x).mp (hE.started x hx (by simp)), fun hx => ?_⟩
    obtain ⟨p, hp, hpG, hpx⟩ := hroots x hx
    exact hpath p x hpx hp hpG hx
  subst hEW
  exact ⟨hR.same, hR.candidates, hR.color, hR.refcount, hR.buffered, hR.nodup, hR.listed⟩

end Heap

end Noeta
