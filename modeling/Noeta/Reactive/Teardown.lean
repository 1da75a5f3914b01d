import Noeta.Reactive.Invariant

/-!
# The order of a teardown

Tearing down what a node has created reclaims the cells of its descendants, each descendant before its owner. Siblings
go in the reverse of the order in which their owner lists them, so from the youngest to the oldest as long as that list
is in the order of creation.
-/

namespace Noeta.Reactive

open Relation

namespace Inner

variable {V : Type}

/-- The cells of a node, in the order in which they are reclaimed. -/
def cells (g : Inner V) (n : NodeId) : List V := (g.nodes n).content.toList ++ (g.nodes n).body.toList

/-- Every node lists its children from the oldest to the youngest. -/
def Sorted (g : Inner V) (birth : NodeId → Nat) : Prop :=
  ∀ o, (g.nodes o).owned.Pairwise fun a b => birth a < birth b

/-- `x` may go before `y`: it is not the owner of `y`, nor an older sibling. -/
def MayPrecede (g : Inner V) (birth : NodeId → Nat) (x y : NodeId) : Prop :=
  (g.nodes y).owner ≠ some x ∧
    ∀ o, (g.nodes x).owner = some o → (g.nodes y).owner = some o → birth y < birth x

/-- What a teardown needs of the owner links; it survives when nodes lose children. -/
structure OwnedBy (g : Inner V) : Prop where
  owner : ∀ o, ∀ c ∈ (g.nodes o).owned, (g.nodes c).owner = some o
  nodup : ∀ o, (g.nodes o).owned.Nodup

variable {g : Inner V} {birth : NodeId → Nat} {T : List NodeId}

theorem Tree.ownedBy (h : g.Tree) : g.OwnedBy :=
  ⟨fun o c hc => ((h.mem_owned c o).mp hc).2, h.nodup_owned⟩

theorem OwnedBy.clearOwned (h : g.OwnedBy) (n : NodeId) : (g.modify n fun m => { m with owned := [] }).OwnedBy := by
  refine ⟨fun o c hc => ?_, fun o => ?_⟩
  · rw [clearOwned_node]
    exact h.owner o c (owns_clearOwned g n o c hc)
  · rw [modify_nodes]
    split_ifs
    · exact List.nodup_nil
    · exact h.nodup o

theorem Sorted.clearOwned (h : g.Sorted birth) (n : NodeId) :
    (g.modify n fun m => { m with owned := [] }).Sorted birth := by
  intro o
  rw [modify_nodes]
  split_ifs
  · exact List.Pairwise.nil
  · exact h o

section torn

variable {g g' : Inner V} {T : List NodeId}

theorem Torn.cells (h : Torn g T g') {i : NodeId} (hi : i ∉ T) : g'.cells i = g.cells i := by
  unfold Inner.cells
  rw [h.kept i hi]

theorem Torn.owner (h : Torn g T g') {i : NodeId} (hi : i ∉ T) : (g'.nodes i).owner = (g.nodes i).owner := by
  rw [h.kept i hi]

theorem Torn.unique {T' : List NodeId} (h : Torn g T g') (h' : Torn g T' g') : T = T' := by
  have heq := h.free.symm.trans h'.free
  exact List.reverse_injective (List.append_cancel_right heq)

theorem Torn.sorted (h : Torn g T g') {birth : NodeId → Nat} (hs : g.Sorted birth) : g'.Sorted birth := by
  intro o
  by_cases ho : o ∈ T
  · rw [(h.dead o ho).2.2.2.2.2]
    exact List.Pairwise.nil
  · rw [h.owned_of_notMem ho]
    exact hs o

end torn

theorem Subtree.owner {roots T : List NodeId} (h : Subtree g roots T) (ho : g.OwnedBy) {x : NodeId}
    (hx : x ∈ T) : x ∈ roots ∨ ∃ o ∈ T, (g.nodes x).owner = some o := by
  rcases h.rooted x hx with hr | ⟨o, hoT, hxo⟩
  · exact Or.inl hr
  · exact Or.inr ⟨o, hoT, ho.owner o x hxo⟩

/-- The first tree goes before the others: no pair across them is out of order. -/
theorem mayPrecede_across {g g₁ : Inner V} {p c x y : NodeId} {l T₁ T₂ : List NodeId}
    (ho : g.OwnedBy) (h₁ : Torn g T₁ g₁) (h₂ : ∀ y ∈ T₂, y ∉ T₁) (hs₁ : Subtree g [c] T₁) (hs₂ : Subtree g₁ l T₂)
    (hc : (g.nodes c).owner = some p) (hl : ∀ r ∈ l, (g.nodes r).owner = some p) (hp : p ∉ T₁ ++ T₂)
    (hbirth : ∀ r ∈ l, birth r < birth c) (hx : x ∈ T₁) (hy : y ∈ T₂) : g.MayPrecede birth x y := by
  rw [List.mem_append, not_or] at hp
  have hyOwner : y ∈ l ∧ (g.nodes y).owner = some p ∨ ∃ o ∈ T₂, (g.nodes y).owner = some o := by
    rcases hs₂.rooted y hy with hr | ⟨o, hoT, hyo⟩
    · exact Or.inl ⟨hr, hl y hr⟩
    · exact Or.inr ⟨o, hoT, ho.owner o y (h₁.owned_subset hyo)⟩
  constructor
  · intro hyx
    rcases hyOwner with ⟨_, hyp⟩ | ⟨o, hoT, hyo⟩
    · rw [hyx, Option.some.injEq] at hyp
      exact hp.1 (hyp ▸ hx)
    · rw [hyx, Option.some.injEq] at hyo
      exact h₂ o hoT (hyo ▸ hx)
  · intro o hxo hyo
    rcases hs₁.owner ho hx with hr | ⟨o₁, ho₁, hxo₁⟩
    · -- a root of the first tree: its siblings are the other roots
      rw [List.mem_singleton] at hr
      rw [hr, hc, Option.some.injEq] at hxo
      rcases hyOwner with ⟨hyl, _⟩ | ⟨o₂, ho₂, hyo₂⟩
      · rw [hr]
        exact hbirth y hyl
      · rw [hyo, ← hxo, Option.some.injEq] at hyo₂
        exact absurd (hyo₂ ▸ ho₂) hp.2
    · rw [hxo, Option.some.injEq] at hxo₁
      rw [← hxo₁] at ho₁
      rcases hyOwner with ⟨_, hyp⟩ | ⟨o₂, ho₂, hyo₂⟩
      · rw [hyo, Option.some.injEq] at hyp
        exact absurd (hyp ▸ ho₁) hp.1
      · rw [hyo, Option.some.injEq] at hyo₂
        exact absurd ho₁ (h₂ o (hyo₂ ▸ ho₂))

theorem Torn.mayPrecede {g g' : Inner V} (h : Torn g T g') {x y : NodeId}
    (hx : x ∉ T) (hy : y ∉ T) (hm : g'.MayPrecede birth x y) : g.MayPrecede birth x y := by
  unfold MayPrecede at *
  rwa [h.owner hx, h.owner hy] at hm

theorem Torn.ownedBy {g g' : Inner V} (h : Torn g T g') (ho : g.OwnedBy)
    (hout : ∀ o ∉ T, ∀ c ∈ (g.nodes o).owned, c ∉ T) : g'.OwnedBy := by
  have hkept : ∀ o, (g'.nodes o).owned = [] ∨ o ∉ T ∧ (g'.nodes o).owned = (g.nodes o).owned := by
    intro o
    by_cases hoT : o ∈ T
    · exact Or.inl (h.dead o hoT).2.2.2.2.2
    · exact Or.inr ⟨hoT, h.owned_of_notMem hoT⟩
  refine ⟨fun o c hc => ?_, fun o => ?_⟩
  · rcases hkept o with hnil | ⟨hoT, heq⟩
    · rw [hnil] at hc
      exact absurd hc List.not_mem_nil
    · rw [heq] at hc
      rw [h.owner (hout o hoT c hc)]
      exact ho.owner o c hc
  · rcases hkept o with hnil | ⟨_, heq⟩
    · rw [hnil]
      exact List.nodup_nil
    · rw [heq]
      exact ho.nodup o

/-- Disposal at one depth reclaims the cells of what it tears down, in an order in which nothing precedes what it must
not precede. -/
def SweepsAt (V : Type) (depth : Nat) : Prop :=
  ∀ (g : Inner V) (n : NodeId) (T : List NodeId), g.Tearable → g.OwnedBy → g.owners.card < depth →
    Torn g T (disposeSubtree depth g n) → Subtree g [n] T →
    (disposeSubtree depth g n).reclaimed = g.reclaimed ++ T.flatMap g.cells ∧
    ∀ birth, g.Sorted birth → (∀ p, (g.nodes n).owner = some p → p ∉ T) → T.Pairwise (g.MayPrecede birth)

/-- The children of `p`, which lists them no more, one after another. -/
theorem foldl_sweeps {depth : Nat} (hdepth : SweepsAt V depth) (p : NodeId) (l : List NodeId) (g : Inner V)
    (T : List NodeId) (ht : g.Tearable) (ho : g.OwnedBy) (hd : g.owners.card < depth)
    (hT : Torn g T (l.foldl (disposeSubtree depth) g)) (hl : ∀ r ∈ l, (g.nodes r).owner = some p) (hnodup : l.Nodup)
    (hp : (g.nodes p).owned = []) (hpT : p ∉ T) :
    (l.foldl (disposeSubtree depth) g).reclaimed = g.reclaimed ++ T.flatMap g.cells ∧
    ∀ birth, g.Sorted birth → (l.Pairwise fun a b => birth b < birth a) → T.Pairwise (g.MayPrecede birth) := by
  induction l generalizing g T with
  | nil =>
    rw [hT.unique (Torn.refl g)]
    exact ⟨by simp, fun _ _ _ => List.Pairwise.nil⟩
  | cons c l ih =>
    obtain ⟨T₁, h₁, hs₁⟩ := disposeSubtree_tears V depth g c ht hd
    have hd₁ : (disposeSubtree depth g c).owners.card < depth :=
      lt_of_le_of_lt (Finset.card_le_card h₁.owners_subset) hd
    obtain ⟨T₂, h₂, hs₂⟩ := foldl_disposeSubtree (disposeSubtree_tears V depth) l _ (h₁.tearable ht) hd₁
    rw [List.foldl_cons] at hT ⊢
    obtain rfl := hT.unique (h₁.trans h₂)
    rw [List.mem_append, not_or] at hpT
    rw [List.nodup_cons] at hnodup
    have hdisj : ∀ y ∈ T₂, y ∉ T₁ := fun y hy => (h₁.live (h₂.was_live y hy)).1
    have hc := hl c List.mem_cons_self
    -- a later child is not in the tree of `c`: its owner is `p`
    have hlater : ∀ r ∈ l, r ∉ T₁ := by
      intro r hr hrT
      rcases hs₁.owner ho hrT with hrc | ⟨o, hoT, hro⟩
      · exact hnodup.1 (List.mem_singleton.mp hrc ▸ hr)
      · rw [hl r (List.mem_cons_of_mem _ hr), Option.some.injEq] at hro
        exact hpT.1 (hro ▸ hoT)
    have hout : ∀ o ∉ T₁, ∀ x ∈ (g.nodes o).owned, x ∉ T₁ := by
      intro o hoT x hx hxT
      rcases hs₁.owner ho hxT with hxc | ⟨o', hoT', hxo⟩
      · rw [List.mem_singleton] at hxc
        have hop := ho.owner o x hx
        rw [hxc, hc, Option.some.injEq] at hop
        rw [← hop, hp] at hx
        exact absurd hx List.not_mem_nil
      · rw [ho.owner o x hx, Option.some.injEq] at hxo
        exact hoT (hxo ▸ hoT')
    obtain ⟨hr₁, hp₁⟩ := hdepth g c T₁ ht ho hd h₁ hs₁
    obtain ⟨hr₂, hp₂⟩ := ih (disposeSubtree depth g c) T₂ (h₁.tearable ht) (h₁.ownedBy ho hout) hd₁ h₂
      (fun r hr => by rw [h₁.owner (hlater r hr)]; exact hl r (List.mem_cons_of_mem _ hr)) hnodup.2
      (by rw [h₁.owned_of_notMem hpT.1]; exact hp) hpT.2
    refine ⟨?_, fun birth hsort hbirth => ?_⟩
    · have hcells : T₂.flatMap (disposeSubtree depth g c).cells = T₂.flatMap g.cells :=
        List.flatMap_congr fun y hy => h₁.cells (hdisj y hy)
      rw [hr₂, hr₁, hcells, List.flatMap_append, List.append_assoc]
    · rw [List.pairwise_cons] at hbirth
      refine List.pairwise_append.mpr ⟨hp₁ birth hsort fun q hq => ?_, ?_, fun x hx y hy => ?_⟩
      · rw [hc, Option.some.injEq] at hq
        exact hq ▸ hpT.1
      · refine (hp₂ birth (h₁.sorted hsort) hbirth.2).imp_of_mem fun hx hy hm => ?_
        exact h₁.mayPrecede (hdisj _ hx) (hdisj _ hy) hm
      · exact mayPrecede_across ho h₁ hdisj hs₁ hs₂ hc (fun r hr => hl r (List.mem_cons_of_mem _ hr))
          (by rw [List.mem_append, not_or]; exact hpT) hbirth.1 hx hy

theorem unhookAndFree_reclaimed (he : g.Edges) (n : NodeId) : (g.unhookAndFree n).reclaimed = g.reclaimed := by
  rw [unhookAndFree_eq g he]

theorem reclaimCells_reclaimed (g : Inner V) (n : NodeId) : (g.reclaimCells n).reclaimed = g.reclaimed ++ g.cells n := by
  unfold reclaimCells cells
  rfl

/-- The children of a live node at the depth below. -/
theorem foldl_owned_sweeps {depth : Nat} (hdepth : SweepsAt V depth) {n : NodeId}
    (ht : g.Tearable) (ho : g.OwnedBy) (hn : n < g.size) (hd : g.owners.card < depth + 1)
    (hT : Torn (g.modify n fun m => { m with owned := [] }) T
      ((g.nodes n).owned.reverse.foldl (disposeSubtree depth) (g.modify n fun m => { m with owned := [] })))
    (hnT : n ∉ T) :
    ((g.nodes n).owned.reverse.foldl (disposeSubtree depth) (g.modify n fun m => { m with owned := [] })).reclaimed =
      g.reclaimed ++ T.flatMap g.cells ∧
    ∀ birth, g.Sorted birth → T.Pairwise (g.MayPrecede birth) := by
  by_cases hempty : (g.nodes n).owned = []
  · rw [hempty] at hT ⊢
    rw [hT.unique (Torn.refl _)]
    exact ⟨by simp [modify], fun _ _ => List.Pairwise.nil⟩
  · have hmem : n ∈ g.owners := Finset.mem_filter.mpr ⟨Finset.mem_range.mpr hn, hempty⟩
    have hcard : (g.modify n fun m => { m with owned := [] }).owners.card < depth := by
      rw [owners_clearOwned, Finset.card_erase_of_mem hmem]
      have := Finset.card_pos.mpr ⟨n, hmem⟩
      omega
    obtain ⟨hr, hp⟩ := foldl_sweeps hdepth n (g.nodes n).owned.reverse _ T (ht.clearOwned n) (ho.clearOwned n) hcard hT
      (fun r hr => by rw [clearOwned_node]; exact ho.owner n r (List.mem_reverse.mp hr))
      (List.nodup_reverse.mpr (ho.nodup n)) (by rw [modify_nodes_self]) hnT
    have hcells : (g.modify n fun m => { m with owned := [] }).cells = g.cells := by
      funext i
      unfold cells
      rw [clearOwned_node]
    refine ⟨by rw [hr, hcells]; rfl, fun birth hsort => ?_⟩
    refine (hp birth (hsort.clearOwned n) (List.pairwise_reverse.mpr (hsort n))).imp fun {x y} hm => ?_
    have howner : ∀ i, ((g.modify n fun m => { m with owned := [] }).nodes i).owner = (g.nodes i).owner := by
      intro i
      rw [clearOwned_node]
    unfold MayPrecede at *
    rwa [howner, howner] at hm

theorem disposeSubtree_sweeps (V : Type) (depth : Nat) : SweepsAt V depth := by
  induction depth with
  | zero => exact fun g n T _ _ hd => absurd hd (Nat.not_lt_zero _)
  | succ depth ih =>
    intro g n T ht ho hd hT hsub
    rw [disposeSubtree] at hT ⊢
    by_cases hn : (g.nodes n).live
    · simp only [if_pos hn] at hT ⊢
      obtain ⟨T', hT', hsub'⟩ := foldl_owned_tears (disposeSubtree_tears V depth) ht hn hd
      have hnT : n ∉ T' := hsub'.notMem_root ht.acyclic
      have ht' := hT'.tearable (ht.clearOwned n)
      obtain ⟨hr, hp⟩ := foldl_owned_sweeps ih ht ho (ht.slots.in_range hn) hd hT' hnT
      generalize (g.nodes n).owned.reverse.foldl (disposeSubtree depth) (g.modify n fun m => { m with owned := [] }) = g₁
        at hT hT' ht' hr hp ⊢
      have he : (g₁.reclaimCells n).Edges := by
        refine ht'.edges.congr (fun i => ?_) (fun i => ?_) (fun i => ?_)
        all_goals
          by_cases hi : i = n
          · rw [hi, reclaimCells_nodes_self]
          · rw [reclaimCells_nodes_ne g₁ hi]
      have hcellsn : g₁.cells n = g.cells n := by
        rw [hT'.cells hnT]
        unfold cells
        rw [clearOwned_node]
      have hTeq : T = T' ++ [n] := by
        have hfree := hT.free
        rw [unhookAndFree_eq _ he] at hfree
        have hrev : n :: T'.reverse ++ g.free = T.reverse ++ g.free := by
          rw [← hfree]
          show n :: T'.reverse ++ g.free = n :: g₁.free
          rw [hT'.free]
          rfl
        have heq := congrArg List.reverse (List.append_cancel_right hrev)
        rw [List.reverse_cons, List.reverse_reverse, List.reverse_reverse] at heq
        exact heq.symm
      refine ⟨?_, fun birth hsort hroot => ?_⟩
      · rw [unhookAndFree_reclaimed he, reclaimCells_reclaimed, hr, hcellsn, hTeq, List.flatMap_append,
          List.append_assoc, List.flatMap_singleton]
      · rw [hTeq] at hroot ⊢
        refine List.pairwise_append.mpr ⟨hp birth hsort, List.pairwise_singleton _ _, fun x hx y hy => ?_⟩
        rw [List.mem_singleton.mp hy]
        refine ⟨fun hnx => hroot x hnx (List.mem_append_left _ hx), fun o hxo hno => ?_⟩
        -- a sibling of `n` would have its owner among what lies below `n`
        refine absurd ?_ (hroot o hno)
        rcases hsub'.owner (ho.clearOwned n) hx with hr' | ⟨o', hoT', hxo'⟩
        · rw [ho.owner n x (List.mem_reverse.mp hr'), Option.some.injEq] at hxo
          rw [← hxo]
          simp
        · rw [clearOwned_node, hxo, Option.some.injEq] at hxo'
          rw [hxo']
          exact List.mem_append_left _ hoT'
    · simp only [if_neg hn] at hT ⊢
      rw [hT.unique (Torn.refl g)]
      exact ⟨by simp, fun _ _ _ => List.Pairwise.nil⟩

theorem disposeOwned_sweeps (ht : g.Tearable) (ho : g.OwnedBy) {n : NodeId} (hn : n < g.size)
    (hT : Torn (g.modify n fun m => { m with owned := [] }) T (g.disposeOwned n)) (hnT : n ∉ T) :
    (g.disposeOwned n).reclaimed = g.reclaimed ++ T.flatMap g.cells ∧
    ∀ birth, g.Sorted birth → T.Pairwise (g.MayPrecede birth) := by
  refine foldl_owned_sweeps (disposeSubtree_sweeps V (g.size + 1)) ht ho hn ?_ hT hnT
  have : g.owners.card ≤ g.size := by
    unfold owners
    simpa using Finset.card_filter_le (Finset.range g.size) fun n => (g.nodes n).owned ≠ []
  omega

end Inner

end Noeta.Reactive
