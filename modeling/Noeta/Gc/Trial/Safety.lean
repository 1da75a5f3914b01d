import Noeta.Gc.Components
import Noeta.Gc.Trial.Spec

/-!
# Trial deletion: what is condemned, and what is left

The white objects are exactly those that nothing outside the candidates' subgraph holds
(`TrialResult.white_iff_not_held`), so none of them is live. The deferred list is the weak point: a purple
candidate that an earlier purple candidate reaches is gray when its turn comes, is put aside like a deferred
deallocation, and is then returned even when the scan restores it.
-/

namespace Noeta

open Relation Dfs

namespace Heap

/-! ### The `HashSet` filter -/

theorem mem_dedup {seen l : List Addr} {x : Addr} : x ∈ dedup seen l ↔ x ∈ l ∧ x ∉ seen := by
  induction l generalizing seen with
  | nil => simp [dedup]
  | cons v l ih =>
    rw [dedup]
    split
    · rename_i hv
      rw [ih, List.mem_cons]
      refine ⟨fun ⟨hl, hs⟩ => ⟨.inr hl, hs⟩, fun ⟨hl, hs⟩ => ⟨hl.resolve_left ?_, hs⟩⟩
      rintro rfl
      exact hs hv
    · rename_i hv
      rw [List.mem_cons, ih, List.mem_cons, List.mem_cons, not_or]
      constructor
      · rintro (rfl | ⟨hl, -, hs⟩)
        · exact ⟨.inl rfl, hv⟩
        · exact ⟨.inr hl, hs⟩
      · rintro ⟨rfl | hl, hs⟩
        · exact .inl rfl
        · by_cases hxv : x = v
          · exact .inl hxv
          · exact .inr ⟨hl, hxv, hs⟩

theorem nodup_dedup (seen l : List Addr) : (dedup seen l).Nodup := by
  induction l generalizing seen with
  | nil => exact List.nodup_nil
  | cons v l ih =>
    rw [dedup]
    split
    · exact ih seen
    · refine List.nodup_cons.mpr ⟨fun hmem => ?_, ih _⟩
      exact (mem_dedup.mp hmem).2 (List.mem_cons_self)

/-! ### The white objects -/

/-- Held from outside the candidates' subgraph: reachable from an external reference, or from an owner
that no purple candidate reaches. -/
def HeldOutside (h : Heap) (ext : Addr → Nat) (x : Addr) : Prop :=
  ∃ r, (0 < ext r ∨ (r ∈ h.owners ∧ ¬ h.PurpleReach h.candidates r)) ∧ ReflTransGen h.Points r x

theorem Live.heldOutside {h : Heap} {ext : Addr → Nat} {x : Addr} (hx : h.Live ext x) : h.HeldOutside ext x := by
  obtain ⟨r, hr, hrx⟩ := hx
  exact ⟨r, .inl hr, hrx⟩

theorem Reaches.points {h : Heap} {a b : Addr} (hab : h.Reaches a b) : ReflTransGen h.Points a b := by
  induction hab with
  | refl => exact ReflTransGen.refl
  | tail _ hbc ih => exact ih.tail (mem_kids.mp hbc).1

variable {h : Heap} {ext : Addr → Nat} {G W : Finset Addr} {out : Heap × List Addr × List Addr}

theorem TrialResult.gray_owners (hr : TrialResult h G W out) (hc : Counted h ext) : G ⊆ h.owners :=
  fun x hx => ((hr.gray_iff x).mp hx).mem_owners hc

theorem TrialResult.gray_unshared (hr : TrialResult h G W out) (hc : Counted h ext) {x : Addr} (hx : x ∈ G) :
    h.isShared x = false := by
  obtain ⟨p, -, hpur, hpx⟩ := (hr.gray_iff x).mp hx
  rcases ReflTransGen.cases_tail hpx with rfl | ⟨y, -, hyx⟩
  · by_contra hs
    rw [Bool.not_eq_false] at hs
    simp [(hc.shared_rest x hs).1] at hpur
  · exact (mem_kids.mp hyx).2

theorem TrialResult.white_sub (hr : TrialResult h G W out) : W ⊆ G := fun x hx => ((hr.white_iff x).mp hx).1

theorem TrialResult.white_balanced (hr : TrialResult h G W out) (hc : Counted h ext) {x : Addr} (hx : x ∈ W) :
    h.refcount x ≤ h.edges W x := by
  obtain ⟨hxG, hno⟩ := (hr.white_iff x).mp hx
  have hrem : h.remaining G x = 0 := by
    by_contra hne
    exact hno x hxG (Nat.pos_of_ne_zero hne) ReflTransGen.refl
  have hns := hr.gray_unshared hc hxG
  have hout : h.edges (G \ W) x = 0 := by
    by_contra hne
    obtain ⟨y, hy, hyx⟩ := edges_pos.mp (Nat.pos_of_ne_zero hne)
    obtain ⟨hyG, hyW⟩ := Finset.mem_sdiff.mp hy
    have hyx' : x ∈ h.kids y := mem_kids.mpr ⟨hyx, hns⟩
    refine hyW ((hr.white_iff y).mpr ⟨hyG, fun r hrG hpos hry => hno r hrG hpos (hry.tail hyx')⟩)
  have hsum := h.edges_sdiff hr.white_sub x
  rw [remaining, kidEdges_of_not_shared hns] at hrem
  omega

/-- **The white objects** are those of the candidates' subgraph that nothing outside it holds. -/
theorem TrialResult.white_iff_not_held (hr : TrialResult h G W out) (hc : Counted h ext) (x : Addr) :
    x ∈ W ↔ x ∈ G ∧ ¬ h.HeldOutside ext x := by
  have hGow := hr.gray_owners hc
  constructor
  · intro hx
    refine ⟨hr.white_sub hx, fun ⟨r, hrout, hrx⟩ => ?_⟩
    obtain ⟨hext, hin⟩ := hc.held_inside_of_balanced (hr.white_sub.trans hGow)
      (fun y hy => hr.gray_unshared hc (hr.white_sub hy)) (fun y hy => hr.white_balanced hc hy)
    rcases hrout with hpos | ⟨hrow, hrG⟩
    · have := hext r (hc.mem_of_reach_closed hin (hc.not_released_of_ext hpos) hrx hx)
      omega
    · have hrW := hc.mem_of_reach_closed hin (mem_owners.mp hrow).2 hrx hx
      exact hrG ((hr.gray_iff r).mp (hr.white_sub hrW))
  · rintro ⟨hxG, hheld⟩
    refine (hr.white_iff x).mpr ⟨hxG, fun r hrG hpos hrx => hheld ?_⟩
    have hns := hr.gray_unshared hc hrG
    have hcount := hc.count r (hGow hrG) hns
    have hsum := h.edges_sdiff hGow r
    rw [remaining, kidEdges_of_not_shared hns] at hpos
    by_cases hext : 0 < ext r
    · exact ⟨r, .inl hext, hrx.points⟩
    · obtain ⟨y, hy, hyr⟩ := edges_pos.mp (show 0 < h.edges (h.owners \ G) r by omega)
      obtain ⟨hyow, hyG⟩ := Finset.mem_sdiff.mp hy
      exact ⟨y, .inr ⟨hyow, fun hpr => hyG ((hr.gray_iff y).mpr hpr)⟩, .head hyr hrx.points⟩

theorem TrialResult.not_live_of_white (hr : TrialResult h G W out) (hc : Counted h ext) {x : Addr}
    (hx : x ∈ W) : ¬ h.Live ext x :=
  fun hl => ((hr.white_iff_not_held hc x).mp hx).2 hl.heldOutside

theorem Buffer.released_of_not_purple (hb : Buffer h) {x : Addr} (hx : x ∈ h.candidates)
    (hcol : h.color x ≠ .purple) : h.Released x :=
  ⟨(hb.mem_iff x).mp hx, (hb.rest x).resolve_right hcol⟩

/-! ### What the two collectors return -/

theorem foldl_components_snd (defer : Addr → Bool) (cs : List (List Addr)) (acc : Heap × List Addr) :
    (cs.foldl (fun (acc : Heap × List Addr) component =>
      if component.any defer then (acc.1.restoreComponent component, acc.2)
      else (acc.1, acc.2 ++ component)) acc).2 = acc.2 ++ (cs.filter fun c => !c.any defer).flatten := by
  induction cs generalizing acc with
  | nil => simp
  | cons c cs ih =>
    rw [List.foldl_cons, ih]
    by_cases hc : c.any defer
    · simp [hc]
    · simp [hc]

theorem mem_fresh_collectTrialDeletion (hr : TrialResult h G W h.trialDelete) (x : Addr) :
    x ∈ (collectTrialDeletion h).2.fresh ↔ x ∈ W := by
  show x ∈ dedup [] h.trialDelete.2.1 ↔ _
  rw [mem_dedup, hr.mem_white]
  simp

theorem mem_alreadyDestructed_collectTrialDeletion (hr : TrialResult h G W h.trialDelete) (x : Addr) :
    x ∈ (collectTrialDeletion h).2.alreadyDestructed ↔ x ∈ h.trialDelete.2.2 ∧ x ∉ W := by
  show x ∈ dedup (dedup [] h.trialDelete.2.1) h.trialDelete.2.2 ↔ _
  rw [mem_dedup, mem_dedup, hr.mem_white]
  simp

theorem mem_fresh_safepoint (hr : TrialResult h G W h.trialDelete) (defer : Addr → Bool) {x : Addr}
    (hx : x ∈ (collectTrialDeletionSafepoint h defer).2.fresh) : x ∈ W := by
  rw [collectTrialDeletionSafepoint] at hx
  dsimp only at hx
  rw [sortNewestFirst, List.mem_insertionSort, foldl_components_snd, List.nil_append, List.mem_flatten] at hx
  obtain ⟨c, hc, hxc⟩ := hx
  have hmem := mem_of_mem_component (nodup_dedup _ _) (List.mem_of_mem_filter hc) hxc
  exact (hr.mem_white x).mp (mem_dedup.mp hmem).1

theorem mem_alreadyDestructed_safepoint (hr : TrialResult h G W h.trialDelete) (defer : Addr → Bool) (x : Addr) :
    x ∈ (collectTrialDeletionSafepoint h defer).2.alreadyDestructed ↔ x ∈ h.trialDelete.2.2 ∧ x ∉ W := by
  show x ∈ dedup (dedup [] h.trialDelete.2.1) h.trialDelete.2.2 ↔ _
  rw [mem_dedup, mem_dedup, hr.mem_white]
  simp

/-- No returned object is reachable from an external reference. -/
def CondemnsOnlyDead (h : Heap) (ext : Addr → Nat) (g : Garbage) : Prop := ∀ x ∈ g.members, ¬ h.Live ext x

theorem TrialResult.deferred_cases (hr : TrialResult h G W out) (hc : Counted h ext) (hb : Buffer h) {x : Addr}
    (hx : x ∈ out.2.2) : ¬ h.Live ext x ∨ h.StaleIn h.candidates x := by
  rcases (hr.mem_deferred x).mp hx with ⟨hmem, hcol⟩ | hst
  · exact .inl fun hl => hc.not_released_of_live hl (hb.released_of_not_purple hmem hcol)
  · exact .inr hst

/-- **Trial deletion condemns only dead objects exactly when no live candidate is stale.** For both
collectors, every heap with exact counts and a well-formed buffer, every buffer order and every deferral. -/
theorem trialDeletion_condemns_only_dead_iff (hex : Exact h ext) (hbuf : BufferOk h) (defer : Addr → Bool) :
    (CondemnsOnlyDead h ext (collectTrialDeletion h).2 ∧
        CondemnsOnlyDead h ext (collectTrialDeletionSafepoint h defer).2) ↔
      ∀ x, h.StaleIn h.candidates x → ¬ h.Live ext x := by
  have hc := hex.counted hbuf
  have hb := hbuf.buffer
  obtain ⟨G, W, hr⟩ := trialDelete_spec hc.trialable hb
  constructor
  · rintro ⟨hdead, -⟩ x hst hlive
    have hxW : x ∉ W := fun hxW => hr.not_live_of_white hc hxW hlive
    have hmem : x ∈ (collectTrialDeletion h).2.alreadyDestructed :=
      (mem_alreadyDestructed_collectTrialDeletion hr x).mpr ⟨(hr.mem_deferred x).mpr (.inr hst), hxW⟩
    exact hdead x (List.mem_append_right _ hmem) hlive
  · intro hstale
    have hput : ∀ x ∈ h.trialDelete.2.2, ¬ h.Live ext x := fun x hx =>
      (hr.deferred_cases hc hb hx).elim id (hstale x)
    refine ⟨fun x hx => ?_, fun x hx => ?_⟩
    · rcases List.mem_append.mp hx with hx | hx
      · exact hr.not_live_of_white hc ((mem_fresh_collectTrialDeletion hr x).mp hx)
      · exact hput x ((mem_alreadyDestructed_collectTrialDeletion hr x).mp hx).1
    · rcases List.mem_append.mp hx with hx | hx
      · exact hr.not_live_of_white hc (mem_fresh_safepoint hr defer hx)
      · exact hput x ((mem_alreadyDestructed_safepoint hr defer x).mp hx).1

/-- A list that holds a second list; both were decremented and survived, so both are purple. The first is
held from outside. -/
def nestedHeap (candidates : List Addr) : Heap where
  objs := [some ⟨⟨1, 0, .purple, true, false, false⟩, .list [.ptr 1]⟩,
    some ⟨⟨1, 1, .purple, true, false, false⟩, .list []⟩]
  candidates := candidates
  registry := []
  mode := .trialDeletion
  nextSeq := 2
  anomalies := 0
  log := []

def nestedExt (a : Addr) : Nat := if a = 0 then 1 else 0

/-- Outer list first: the inner one is gray at its turn, and returned although it is live. -/
theorem nestedHeap_condemns_live :
    Exact (nestedHeap [0, 1]) nestedExt ∧ BufferOk (nestedHeap [0, 1]) ∧
      ¬ CondemnsOnlyDead (nestedHeap [0, 1]) nestedExt (collectTrialDeletion (nestedHeap [0, 1])).2 := by
  refine ⟨exact_of_dom (by decide) (by decide) (by decide), bufferOk_of_dom (by decide) (by decide) (by decide), fun hdead => ?_⟩
  have hlive : (nestedHeap [0, 1]).Live nestedExt 1 :=
    ⟨0, by decide, ReflTransGen.single (show 1 ∈ (nestedHeap [0, 1]).children 0 by decide)⟩
  exact hdead 1 (by decide) hlive

/-- Inner list first: nothing live is returned. -/
theorem nestedHeap_reversed_condemns_only_dead :
    CondemnsOnlyDead (nestedHeap [1, 0]) nestedExt (collectTrialDeletion (nestedHeap [1, 0])).2 ∧
      CondemnsOnlyDead (nestedHeap [1, 0]) nestedExt
        (collectTrialDeletionSafepoint (nestedHeap [1, 0]) fun _ => false).2 := by
  refine (trialDeletion_condemns_only_dead_iff (exact_of_dom (by decide) (by decide) (by decide))
    (bufferOk_of_dom (by decide) (by decide) (by decide)) fun _ => false).mpr ?_
  rintro x ⟨-, l₁, l₂, hl, p, hp, -, hpx⟩
  -- the only earlier candidate is the inner list, which has no children
  exfalso
  rcases l₁ with _ | ⟨a, _ | ⟨b, l₁⟩⟩
  · exact absurd hp (List.not_mem_nil)
  · obtain ⟨rfl, rfl, -⟩ : a = 1 ∧ x = 0 ∧ l₂ = [] := by simpa [nestedHeap, eq_comm] using hl
    rw [List.mem_singleton] at hp
    subst hp
    rcases ReflTransGen.cases_head hpx with h10 | ⟨c, hc, -⟩
    · exact absurd h10 (by decide)
    · rw [show (nestedHeap [1, 0]).kids 1 = [] by decide] at hc
      exact absurd hc (List.not_mem_nil)
  · simp [nestedHeap] at hl

/-! ### Completeness and the survivors -/

theorem nodup_members_collectTrialDeletion (h : Heap) : (collectTrialDeletion h).2.members.Nodup := by
  refine List.nodup_append.mpr ⟨nodup_dedup _ _, nodup_dedup _ _, fun a ha b hb hab => ?_⟩
  exact (mem_dedup.mp hb).2 (hab ▸ ha)

theorem mem_members_collectTrialDeletion (hr : TrialResult h G W h.trialDelete) (x : Addr) :
    x ∈ (collectTrialDeletion h).2.members ↔ x ∈ W ∨ x ∈ h.trialDelete.2.2 := by
  rw [Garbage.members, List.mem_append, mem_fresh_collectTrialDeletion hr,
    mem_alreadyDestructed_collectTrialDeletion hr]
  by_cases hxW : x ∈ W <;> simp [hxW]

theorem owners_sdiff_white (hr : TrialResult h G W h.trialDelete) (hc : Counted h ext) (hb : Buffer h)
    (hstale : ∀ x, h.StaleIn h.candidates x → ¬ h.HeldOutside ext x) :
    (h.dom.filter fun y => y ∉ (collectTrialDeletion h).2.members) = h.owners \ W := by
  ext y
  simp only [Finset.mem_filter, mem_dom, Finset.mem_sdiff, mem_owners, mem_members_collectTrialDeletion hr,
    hr.mem_deferred, not_or, not_and, not_not]
  constructor
  · rintro ⟨hy, hyW, hpur, -⟩
    refine ⟨⟨hy, fun hrel => ?_⟩, hyW⟩
    have := hpur ((hb.mem_iff y).mpr hrel.1)
    simp [hrel.2] at this
  · rintro ⟨⟨hy, hrel⟩, hyW⟩
    refine ⟨hy, hyW, fun hmem => ?_, fun hst => hyW ?_⟩
    · by_contra hcol
      exact hrel (hb.released_of_not_purple hmem hcol)
    · obtain ⟨hpur, l₁, l₂, hl, p, hp, hppur, hpy⟩ := hst
      refine (hr.white_iff_not_held hc y).mpr ⟨(hr.gray_iff y).mpr ⟨p, ?_, hppur, hpy⟩, ?_⟩
      · rw [hl]
        exact List.mem_append_left _ hp
      · exact hstale y ⟨hpur, l₁, l₂, hl, p, hp, hppur, hpy⟩

/-- **Trial deletion is complete on the candidates' subgraph, and its survivors are exact.** Whatever a
purple candidate reaches and nothing outside that subgraph holds is returned once, and so is every deferred
deallocation. Survivors are black and unbuffered, and unless a stale candidate survives their counts are
what the objects that were not returned hold. -/
theorem trialDeletion_complete (hex : Exact h ext) (hbuf : BufferOk h) :
    (∀ x, (h.PurpleReach h.candidates x ∧ ¬ h.HeldOutside ext x) ∨ (x ∈ h.candidates ∧ h.Released x) →
        (collectTrialDeletion h).2.members.count x = 1) ∧
      (∀ x, x ∉ (collectTrialDeletion h).2.members →
        (collectTrialDeletion h).1.color x = .black ∧ (collectTrialDeletion h).1.buffered x = false) ∧
      ((∀ x, h.StaleIn h.candidates x → ¬ h.HeldOutside ext x) →
        ∀ x, h.Allocated x → h.isShared x = false → x ∉ (collectTrialDeletion h).2.members →
          (collectTrialDeletion h).1.refcount x = ext x + (collectTrialDeletion h).1.edges
            ((collectTrialDeletion h).1.dom.filter fun y => y ∉ (collectTrialDeletion h).2.members) x) := by
  have hc := hex.counted hbuf
  have hb := hbuf.buffer
  obtain ⟨G, W, hr⟩ := trialDelete_spec hc.trialable hb
  refine ⟨fun x hx => ?_, fun x _ => ⟨hr.color x, hr.buffered x⟩, fun hstale x hal hns hx => ?_⟩
  · refine List.count_eq_one_of_mem (nodup_members_collectTrialDeletion h) ?_
    rw [mem_members_collectTrialDeletion hr]
    rcases hx with ⟨hxG, hheld⟩ | ⟨hmem, hrel⟩
    · exact .inl ((hr.white_iff_not_held hc x).mpr ⟨(hr.gray_iff x).mpr hxG, hheld⟩)
    · exact .inr ((hr.mem_deferred x).mpr (.inl ⟨hmem, by simp [hrel.2]⟩))
  · have hsame : SameGraph h (collectTrialDeletion h).1 := hr.same
    have hWow : W ⊆ h.owners := hr.white_sub.trans (hr.gray_owners hc)
    have hset := owners_sdiff_white hr hc hb hstale
    have hxow : x ∈ h.owners \ W := by
      rw [← hset]
      exact Finset.mem_filter.mpr ⟨mem_dom.mpr hal, hx⟩
    have hcount := hc.count x (Finset.mem_sdiff.mp hxow).1 hns
    have hsum := h.edges_sdiff hWow x
    have hrc : (collectTrialDeletion h).1.refcount x = h.refcount x - h.edges W x := by
      rw [← kidEdges_of_not_shared hns]
      exact hr.refcount x hal
    rw [hsame.dom_eq, hsame.edges_eq, hset, hrc]
    omega

/-- A self-referential list that is already garbage, but was never buffered, holds a purple list. -/
def lostCycleHeap : Heap where
  objs := [some ⟨⟨1, 0, .black, false, false, false⟩, .list [.ptr 0, .ptr 1]⟩,
    some ⟨⟨1, 1, .purple, true, false, false⟩, .list []⟩]
  candidates := [1]
  registry := []
  mode := .trialDeletion
  nextSeq := 2
  anomalies := 0
  log := []

/-- Trial deletion only looks at what the candidates reach: the purple list is dead but stays. -/
theorem lostCycleHeap_keeps_dead :
    Exact lostCycleHeap (fun _ => 0) ∧ BufferOk lostCycleHeap ∧
      ¬ ∀ x, (∃ c ∈ lostCycleHeap.candidates, ReflTransGen lostCycleHeap.Points c x) →
        ¬ lostCycleHeap.Live (fun _ => 0) x → (collectTrialDeletion lostCycleHeap).2.members.count x = 1 := by
  refine ⟨exact_of_dom (by decide) (by decide) (by decide),
    bufferOk_of_dom (by decide) (by decide) (by decide), fun hall => ?_⟩
  have hdead : ¬ lostCycleHeap.Live (fun _ => 0) 1 := fun ⟨r, hr, _⟩ => absurd hr (lt_irrefl 0)
  have := hall 1 ⟨1, by decide, ReflTransGen.refl⟩ hdead
  exact absurd this (by decide)

/-- The purple inner list is dead together with its purple holder: both are returned, each once. -/
def deadPairHeap : Heap where
  objs := [some ⟨⟨1, 0, .purple, true, false, false⟩, .list [.ptr 0, .ptr 1, .ptr 2]⟩,
    some ⟨⟨1, 1, .purple, true, false, false⟩, .list []⟩,
    some ⟨⟨2, 2, .black, false, false, false⟩, .list []⟩]
  candidates := [0, 1]
  registry := []
  mode := .trialDeletion
  nextSeq := 3
  anomalies := 0
  log := []

def deadPairExt (a : Addr) : Nat := if a = 2 then 1 else 0

theorem deadPairHeap_held {x : Addr} (hx : deadPairHeap.HeldOutside deadPairExt x) : x = 2 := by
  obtain ⟨r, hr, hrx⟩ := hx
  have hr2 : r = 2 := by
    rcases hr with hr | ⟨hrow, hnot⟩
    · by_contra hne
      simp [deadPairExt, hne] at hr
    · have hcases : r ∈ deadPairHeap.owners → r = 0 ∨ r = 1 ∨ r = 2 := by
        rw [show deadPairHeap.owners = {0, 1, 2} by decide]
        simp
      rcases hcases hrow with rfl | rfl | rfl
      · exact absurd ⟨0, by decide, by decide, ReflTransGen.refl⟩ hnot
      · exact absurd ⟨1, by decide, by decide, ReflTransGen.refl⟩ hnot
      · rfl
  subst hr2
  rcases ReflTransGen.cases_head hrx with rfl | ⟨c, hc, -⟩
  · rfl
  · rw [Points, show deadPairHeap.children 2 = [] by decide] at hc
    exact absurd hc (List.not_mem_nil)

theorem deadPairHeap_complete :
    (collectTrialDeletion deadPairHeap).2.members.count 1 = 1 ∧
      (collectTrialDeletion deadPairHeap).1.color 2 = .black ∧
      (collectTrialDeletion deadPairHeap).1.refcount 2 = 1 := by
  have hex : Exact deadPairHeap deadPairExt := exact_of_dom (by decide) (by decide) (by decide)
  have hbuf : BufferOk deadPairHeap := bufferOk_of_dom (by decide) (by decide) (by decide)
  obtain ⟨honce, hblack, hcount⟩ := trialDeletion_complete hex hbuf
  refine ⟨honce 1 (.inl ⟨⟨1, by decide, by decide, ReflTransGen.refl⟩, fun hheld => ?_⟩),
    (hblack 2 (by decide)).1, ?_⟩
  · exact absurd (deadPairHeap_held hheld) (by decide)
  · rw [hcount (fun x hst hheld => ?_) 2 (by decide) (by decide) (by decide)]
    · decide
    · have h2 := deadPairHeap_held hheld
      subst h2
      exact absurd hst.1 (by decide)

end Heap

end Noeta
