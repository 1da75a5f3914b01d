import Noeta.Gc.Trial.Safety
import Noeta.Heap.Drops

/-!
# Trial deletion at a safepoint: deferred components

A white component with a member the caller defers is put back: the trial decrements of its references are
undone and its members are buffered again. `Collected` states what either collector hands to the reclaim:
`K` are the kept white objects (none for the exit collection), `W \ K` the fresh garbage. Kept and freed
objects do not refer to one another, because a component is closed in both directions.
-/

namespace Noeta

open Relation Dfs

namespace Heap

/-! ### Undoing the trial decrements of one component -/

/-- Counts went up by `C`, nothing else changed. -/
structure Raised (h h' : Heap) (C : Addr → Nat) : Prop where
  same : SameGraph h h'
  candidates : h'.candidates = h.candidates
  color : ∀ a, h'.color a = h.color a
  buffered : ∀ a, h'.buffered a = h.buffered a
  refcount : ∀ a, h.Allocated a → h'.refcount a = h.refcount a + C a

theorem Raised.trans {h h' h'' : Heap} {C C' : Addr → Nat} (h₁ : Raised h h' C) (h₂ : Raised h' h'' C') :
    Raised h h'' fun a => C a + C' a := by
  refine ⟨h₁.same.trans h₂.same, h₂.candidates.trans h₁.candidates, fun a => (h₂.color a).trans (h₁.color a),
    fun a => (h₂.buffered a).trans (h₁.buffered a), fun a ha => ?_⟩
  rw [h₂.refcount a ((h₁.same.allocated_iff a).mpr ha), h₁.refcount a ha]
  omega

theorem raised_refl (h : Heap) : Raised h h fun _ => 0 :=
  ⟨SameGraph.refl h, rfl, fun _ => rfl, fun _ => rfl, fun _ _ => rfl⟩

theorem foldl_rcInc_raised (h₀ h : Heap) (hs : SameGraph h₀ h) (l : List Addr) :
    Raised h (l.foldl (fun h child => if h.isShared child then h else h.rcInc child) h)
      fun x => (l.filter fun c => !h₀.isShared c).count x := by
  induction l generalizing h with
  | nil => simpa using raised_refl h
  | cons c l ih =>
    rw [List.foldl_cons, hs.isShared_eq]
    by_cases hc : h₀.isShared c = true
    · simpa [hc] using ih h hs
    · have hinc : Raised h (h.rcInc c) fun x => if c = x then 1 else 0 := by
        refine ⟨.rcInc h c, rfl, fun a => color_rcInc h c a, fun a => buffered_rcInc h c a, fun a ha => ?_⟩
        rw [refcount_rcInc]
        by_cases hca : c = a
        · subst hca
          simp [ha]
        · simp [hca]
      have hrest := hinc.trans (ih (h.rcInc c) (hs.trans (.rcInc h c)))
      rw [if_neg hc]
      refine ⟨hrest.same, hrest.candidates, hrest.color, hrest.buffered, fun a ha => ?_⟩
      rw [hrest.refcount a ha, List.filter_cons_of_pos (by simpa using hc), List.count_cons]
      by_cases hca : c = a
      · subst hca
        simp
        omega
      · simp [hca]

theorem foldl_component_raised (h₀ h : Heap) (hs : SameGraph h₀ h) (component : List Addr) :
    Raised h
      (component.foldl (fun h m => (h.children m).foldl
        (fun h child => if h.isShared child then h else h.rcInc child) h) h)
      fun x => (component.map fun m => (h₀.kids m).count x).sum := by
  induction component generalizing h with
  | nil => simpa using raised_refl h
  | cons m component ih =>
    have hm := foldl_rcInc_raised h₀ h hs (h.children m)
    have hrest := hm.trans (ih _ (hs.trans hm.same))
    rw [List.foldl_cons]
    refine ⟨hrest.same, hrest.candidates, hrest.color, hrest.buffered, fun a ha => ?_⟩
    rw [hrest.refcount a ha, List.map_cons, List.sum_cons, hs.children_eq]
    rfl

/-! ### Buffering its members again -/

/-- `l` is buffered again, nothing else changed. -/
structure BufferedAgain (h h' : Heap) (l : List Addr) : Prop where
  same : SameGraph h h'
  color : ∀ a, h'.color a = if a ∈ l then .purple else h.color a
  buffered : ∀ a, h'.buffered a = if a ∈ l then true else h.buffered a
  refcount : ∀ a, h'.refcount a = h.refcount a
  candidates : h'.candidates = h.candidates ++ l

theorem foldl_possibleRoot (h : Heap) (l : List Addr) (hnd : l.Nodup)
    (hl : ∀ m ∈ l, h.Allocated m ∧ h.color m = .black ∧ h.buffered m = false) :
    BufferedAgain h (l.foldl (fun h m => h.possibleRoot m) h) l := by
  induction l generalizing h with
  | nil => exact ⟨SameGraph.refl h, by simp, by simp, fun _ => rfl, by simp⟩
  | cons m l ih =>
    obtain ⟨hml, hnd⟩ := List.nodup_cons.mp hnd
    obtain ⟨hal, hcol, hbuf⟩ := hl m (by simp)
    have hr := possibleRoot_rebuffered hal hcol hbuf
    have hrest := ih (h.possibleRoot m) hnd fun k hk => by
      have hmk : m ≠ k := by
        rintro rfl
        exact hml hk
      obtain ⟨hka, hkc, hkb⟩ := hl k (by simp [hk])
      rw [hr.color, hr.buffered, if_neg hmk, if_neg hmk]
      exact ⟨(hr.same.allocated_iff k).mpr hka, hkc, hkb⟩
    rw [List.foldl_cons]
    refine ⟨hr.same.trans hrest.same, fun a => ?_, fun a => ?_, fun a => ?_, ?_⟩
    · rw [hrest.color, hr.color]
      by_cases hma : m = a
      · subst hma
        simp
      · simp [hma, Ne.symm hma]
    · rw [hrest.buffered, hr.buffered]
      by_cases hma : m = a
      · subst hma
        simp
      · simp [hma, Ne.symm hma]
    · exact (hrest.refcount a).trans (hr.refcount a)
    · rw [hrest.candidates, hr.candidates, List.append_assoc, List.singleton_append]

/-! ### The deferred components -/

/-- The heap `h'` after the components with the members `kept` were put back into `h`. -/
structure Restored (h h' : Heap) (kept : List Addr) : Prop where
  same : SameGraph h h'
  color : ∀ a, h'.color a = if a ∈ kept then .purple else .black
  buffered : ∀ a, h'.buffered a = decide (a ∈ kept)
  refcount : ∀ a, h.Allocated a → h'.refcount a = h.refcount a + (kept.map fun m => (h.kids m).count a).sum
  candidates : h'.candidates = kept

theorem Restored.component {h h' : Heap} {kept component : List Addr} (hr : Restored h h' kept)
    (hnd : component.Nodup) (hnew : ∀ m ∈ component, h.Allocated m ∧ m ∉ kept) :
    Restored h (h'.restoreComponent component) (kept ++ component) := by
  have hra := foldl_component_raised h h' hr.same component
  rw [restoreComponent]
  generalize component.foldl (fun h m => (h.children m).foldl
    (fun h child => if h.isShared child then h else h.rcInc child) h) h' = h₁ at hra ⊢
  have hb := foldl_possibleRoot h₁ component hnd fun m hm => by
    obtain ⟨hal, hkept⟩ := hnew m hm
    have hal' := (hr.same.trans hra.same).allocated_iff m
    rw [hra.color, hra.buffered, hr.color, hr.buffered]
    simp [hkept, hal'.mpr hal]
  refine ⟨(hr.same.trans hra.same).trans hb.same, fun a => ?_, fun a => ?_, fun a ha => ?_, ?_⟩
  · rw [hb.color, hra.color, hr.color]
    by_cases h1 : a ∈ component <;> by_cases h2 : a ∈ kept <;> simp [h1, h2]
  · rw [hb.buffered, hra.buffered, hr.buffered]
    by_cases h1 : a ∈ component <;> by_cases h2 : a ∈ kept <;> simp [h1, h2]
  · rw [hb.refcount, hra.refcount a ((hr.same.allocated_iff a).mpr ha), hr.refcount a ha, List.map_append,
      List.sum_append]
    omega
  · rw [hb.candidates, hra.candidates, hr.candidates]

theorem foldl_components_restored {h : Heap} (defer : Addr → Bool) (cs : List (List Addr)) (h' : Heap)
    (kept fresh : List Addr) (hr : Restored h h' kept) (hnd : (kept ++ cs.flatten).Nodup)
    (hal : ∀ m ∈ cs.flatten, h.Allocated m) :
    Restored h (cs.foldl (fun (acc : Heap × List Addr) component =>
      if component.any defer then (acc.1.restoreComponent component, acc.2)
      else (acc.1, acc.2 ++ component)) (h', fresh)).1
      (kept ++ (cs.filter fun c => c.any defer).flatten) := by
  induction cs generalizing h' kept fresh with
  | nil => simpa using hr
  | cons c cs ih =>
    rw [List.flatten_cons, ← List.append_assoc] at hnd
    rw [List.foldl_cons]
    by_cases hc : c.any defer = true
    · have hkc := (List.nodup_append.mp hnd).1
      have hstep : Restored h (h'.restoreComponent c) (kept ++ c) := by
        refine hr.component (List.nodup_append.mp hkc).2.1 fun m hm => ⟨hal m (by simp [hm]), fun hk => ?_⟩
        exact (List.nodup_append.mp hkc).2.2 m hk m hm rfl
      have := ih (h'.restoreComponent c) (kept ++ c) fresh hstep hnd fun m hm => hal m (by simp [hm])
      simpa [hc] using this
    · have hsub : (kept ++ cs.flatten).Sublist (kept ++ c ++ cs.flatten) :=
        (List.sublist_append_left kept c).append (List.Sublist.refl _)
      have := ih h' kept (fresh ++ c) hr (hnd.sublist hsub) fun m hm => hal m (by simp [hm])
      simpa [hc] using this

/-! ### What a collection hands to the reclaim -/

/-- The outcome of a trial-deletion collection that keeps the white objects `K`. -/
structure Collected (h : Heap) (W K : Finset Addr) (h' : Heap) (g : Garbage) : Prop where
  same : SameGraph h h'
  color : ∀ a, h'.color a = if a ∈ K then .purple else .black
  buffered : ∀ a, h'.buffered a = decide (a ∈ K)
  refcount : ∀ a, h.Allocated a → h'.refcount a = h.refcount a - h.kidEdges (W \ K) a
  candidates_nodup : h'.candidates.Nodup
  mem_candidates : ∀ x, x ∈ h'.candidates ↔ x ∈ K
  kept : K ⊆ W
  apart : ∀ x ∈ W, ∀ y ∈ W, h.Touches x y → (x ∈ K ↔ y ∈ K)
  fresh : ∀ x, x ∈ g.fresh ↔ x ∈ W \ K
  already : ∀ x, x ∈ g.alreadyDestructed ↔ x ∈ h.trialDelete.2.2 ∧ x ∉ W
  nodup : g.members.Nodup
  external : g.releaseExternal = false

variable {h : Heap} {ext : Addr → Nat} {G W : Finset Addr}

theorem collectTrialDeletion_collected (hr : TrialResult h G W h.trialDelete) :
    Collected h W ∅ (collectTrialDeletion h).1 (collectTrialDeletion h).2 := by
  refine ⟨hr.same, fun a => ?_, fun a => ?_, fun a ha => ?_, ?_, fun x => ?_, Finset.empty_subset _, by simp,
    fun x => ?_, mem_alreadyDestructed_collectTrialDeletion hr, nodup_members_collectTrialDeletion h, rfl⟩
  · show h.trialDelete.1.color a = _
    simpa using hr.color a
  · show h.trialDelete.1.buffered a = _
    simpa using hr.buffered a
  · rw [Finset.sdiff_empty]
    exact hr.refcount a ha
  · show h.trialDelete.1.candidates.Nodup
    rw [hr.candidates]
    exact List.nodup_nil
  · show x ∈ h.trialDelete.1.candidates ↔ _
    rw [hr.candidates]
    simp
  · rw [Finset.sdiff_empty]
    exact mem_fresh_collectTrialDeletion hr x

theorem sum_kids_eq_kidEdges (h : Heap) {l : List Addr} (hnd : l.Nodup) (a : Addr) :
    (l.map fun m => (h.kids m).count a).sum = h.kidEdges l.toFinset a := by
  rw [kidEdges, List.sum_toFinset _ hnd]

theorem flatten_filter_perm (cs : List (List Addr)) (p : List Addr → Bool) :
    ((cs.filter p).flatten ++ (cs.filter fun c => !p c).flatten).Perm cs.flatten := by
  rw [← List.flatten_append]
  exact (List.filter_append_perm p cs).flatten

theorem collectTrialDeletionSafepoint_collected (hc : Counted h ext) (hr : TrialResult h G W h.trialDelete)
    (defer : Addr → Bool) :
    ∃ K, Collected h W K (collectTrialDeletionSafepoint h defer).1 (collectTrialDeletionSafepoint h defer).2 ∧
      ∀ x, x ∈ K ↔ ∃ d ∈ W, defer d = true ∧ ReflTransGen (fun a b => b ∈ W ∧ h.Touches a b) d x := by
  have hwnd : (dedup [] h.trialDelete.2.1).Nodup := nodup_dedup _ _
  have hwmem : ∀ x, x ∈ dedup [] h.trialDelete.2.1 ↔ x ∈ W := fun x => by
    rw [mem_dedup, hr.mem_white]
    simp
  have hWow : W ⊆ h.owners := hr.white_sub.trans (hr.gray_owners hc)
  rw [collectTrialDeletionSafepoint]
  dsimp only
  generalize hcs : h.trialDelete.1.weaklyConnectedComponents (dedup [] h.trialDelete.2.1) = cs
  have hperm : cs.flatten.Perm (dedup [] h.trialDelete.2.1) := hcs ▸ components_perm hwnd
  have hcsnd : cs.flatten.Nodup := hperm.nodup_iff.mpr hwnd
  have hcsmem : ∀ x, x ∈ cs.flatten ↔ x ∈ W := fun x => hperm.mem_iff.trans (hwmem x)
  have hbase : Restored h.trialDelete.1 h.trialDelete.1 [] :=
    ⟨SameGraph.refl _, by simpa using hr.color, by simpa using hr.buffered, by simp, hr.candidates⟩
  have hrest := foldl_components_restored defer cs h.trialDelete.1 [] [] hbase (by simpa using hcsnd)
    fun m hm => by
      rw [hr.same.allocated_iff]
      exact (mem_owners.mp (hWow ((hcsmem m).mp hm))).1
  rw [List.nil_append] at hrest
  -- the kept and the freed members are disjoint parts of the white objects
  have hsplit := flatten_filter_perm cs fun c => c.any defer
  have hsplitnd := hsplit.nodup_iff.mpr hcsnd
  obtain ⟨hknd, hfnd, hdisj⟩ := List.nodup_append.mp hsplitnd
  generalize hk : (cs.filter fun c => c.any defer).flatten = kept at hrest hsplit hknd hdisj
  have hsplitmem : ∀ x, x ∈ W ↔ x ∈ kept ∨ x ∈ (cs.filter fun c => !c.any defer).flatten := fun x => by
    rw [← hcsmem, ← hsplit.mem_iff, List.mem_append]
  have hrel : (fun a b => b ∈ dedup [] h.trialDelete.2.1 ∧ h.trialDelete.1.Touches a b) =
      fun a b => b ∈ W ∧ h.Touches a b := by
    funext a b
    rw [hwmem, Touches, Touches, Points, Points, Points, Points, hr.same.children_eq, hr.same.children_eq]
  have hkept : ∀ x, x ∈ kept ↔
      ∃ d ∈ W, defer d = true ∧ ReflTransGen (fun a b => b ∈ W ∧ h.Touches a b) d x := by
    intro x
    rw [← hk, ← hcs, mem_components_filter hwnd, hrel]
    simp only [hwmem]
  have hclosed : ∀ x ∈ kept, ∀ y ∈ W, h.Touches x y → y ∈ kept := by
    intro x hx y hy hxy
    obtain ⟨d, hd, hdef, hdx⟩ := (hkept x).mp hx
    exact (hkept y).mpr ⟨d, hd, hdef, hdx.tail ⟨hy, hxy⟩⟩
  have hfresh : ∀ x, x ∈ (cs.filter fun c => !c.any defer).flatten ↔ x ∈ W \ kept.toFinset := by
    intro x
    rw [Finset.mem_sdiff, List.mem_toFinset, hsplitmem]
    constructor
    · intro hx
      exact ⟨.inr hx, fun hxk => hdisj x hxk x hx rfl⟩
    · rintro ⟨hx, hxk⟩
      exact hx.resolve_left hxk
  have hsnd := foldl_components_snd defer cs (h.trialDelete.1, [])
  rw [List.nil_append] at hsnd
  refine ⟨kept.toFinset, ⟨hr.same.trans hrest.same, fun a => ?_, fun a => ?_, fun a ha => ?_, ?_, fun x => ?_,
    fun x hx => ?_, fun x hx y hy hxy => ?_, fun x => ?_, mem_alreadyDestructed_safepoint hr defer, ?_, rfl⟩,
    fun x => by rw [List.mem_toFinset, hkept]⟩
  · rw [hrest.color]
    simp
  · rw [hrest.buffered]
    simp
  · rw [hrest.refcount a ((hr.same.allocated_iff a).mpr ha), hr.refcount a ha]
    have hsum : (kept.map fun m => (h.trialDelete.1.kids m).count a).sum = h.kidEdges kept.toFinset a := by
      simp only [hr.same.kids_eq]
      exact sum_kids_eq_kidEdges h hknd a
    have hkW : kept.toFinset ⊆ W := fun x hx => (hsplitmem x).mpr (.inl (List.mem_toFinset.mp hx))
    have hsd : h.kidEdges (W \ kept.toFinset) a + h.kidEdges kept.toFinset a = h.kidEdges W a :=
      Finset.sum_sdiff hkW
    have hle := hc.kidEdges_le hWow ha
    rw [hsum]
    omega
  · rw [hrest.candidates]
    exact hknd
  · rw [hrest.candidates, List.mem_toFinset]
  · exact (hsplitmem x).mpr (.inl (List.mem_toFinset.mp hx))
  · rw [List.mem_toFinset, List.mem_toFinset]
    exact ⟨fun hxk => hclosed x hxk y hy hxy, fun hyk => hclosed y hyk x hx hxy.symm⟩
  · show x ∈ sortNewestFirst _ _ ↔ _
    rw [sortNewestFirst, List.mem_insertionSort, hsnd]
    exact hfresh x
  · refine List.nodup_append.mpr ⟨?_, nodup_dedup _ _, fun a ha b hb hab => ?_⟩
    · show (sortNewestFirst _ _).Nodup
      rw [sortNewestFirst, (List.perm_insertionSort _ _).nodup_iff, hsnd]
      exact hfnd
    · subst hab
      have haW : a ∈ W := by
        have ha' : a ∈ sortNewestFirst _ _ := ha
        rw [sortNewestFirst, List.mem_insertionSort, hsnd, hfresh] at ha'
        exact (Finset.mem_sdiff.mp ha').1
      exact (mem_dedup.mp hb).2 ((hwmem a).mpr haW)

end Heap

end Noeta
