import Noeta.Reactive.Effects
import Noeta.Reactive.Teardown

/-!
# The cells of the nodes

Every cell that is handed to the graph is held by one live node, or it was reclaimed once, or it belonged to a node that
was disposed explicitly. A ledger beside the machine keeps what was handed in, what was drained from the reclaimed
buffer, what disposal left to its caller, and when each node was created. The order among siblings is that of their
creation only as long as no explicit disposal has moved the youngest one: `swap_remove` puts it in the place of the
disposed one.
-/

namespace Noeta.Reactive

open Relation

variable {V : Type}

namespace Inner

/-! ### Held cells -/

def liveSet (g : Inner V) : Finset NodeId := (Finset.range g.size).filter fun n => (g.nodes n).live

/-- The cells of the live nodes, each as often as it is held. -/
def heldCells (g : Inner V) : Multiset V := ∑ n ∈ g.liveSet, (g.cells n : Multiset V)

variable {g : Inner V} {n : NodeId}

theorem mem_liveSet (hs : g.Slots) : n ∈ g.liveSet ↔ (g.nodes n).live := by
  unfold liveSet
  rw [Finset.mem_filter, Finset.mem_range]
  exact ⟨fun h => h.2, fun h => ⟨hs.in_range h, h⟩⟩

theorem heldCells_congr {g g' : Inner V} (hsize : g'.size = g.size)
    (hlive : ∀ i, (g'.nodes i).live = (g.nodes i).live) (hcells : ∀ i, g'.cells i = g.cells i) :
    g'.heldCells = g.heldCells := by
  unfold heldCells liveSet
  rw [hsize]
  refine Finset.sum_congr (Finset.filter_congr fun i _ => ?_) fun i _ => ?_
  · rw [hlive]
  · rw [hcells]

/-- The two graphs differ in the flags and the dependency edges of their nodes at most. -/
structure Alike (g g' : Inner V) : Prop where
  size : g'.size = g.size
  node : ∀ i, g'.nodes i =
    { g.nodes i with
      dirty := (g'.nodes i).dirty, queued := (g'.nodes i).queued, sources := (g'.nodes i).sources
      subscribers := (g'.nodes i).subscribers }

namespace Alike

variable {g g₁ g₂ : Inner V}

theorem of_nodes (hsize : g₁.size = g.size) (hnodes : g₁.nodes = g.nodes) : Alike g g₁ :=
  ⟨hsize, fun i => by rw [hnodes]⟩

theorem trans (h₁ : Alike g g₁) (h₂ : Alike g₁ g₂) : Alike g g₂ where
  size := h₂.size.trans h₁.size
  node i := by rw [h₂.node i, h₁.node i]

theorem kind (h : Alike g g₁) (i : NodeId) : (g₁.nodes i).kind = (g.nodes i).kind := by rw [h.node i]

theorem live (h : Alike g g₁) (i : NodeId) : (g₁.nodes i).live = (g.nodes i).live := by rw [h.node i]

theorem owned (h : Alike g g₁) (i : NodeId) : (g₁.nodes i).owned = (g.nodes i).owned := by rw [h.node i]

theorem cells (h : Alike g g₁) : g₁.cells = g.cells := by
  funext i
  unfold Inner.cells
  rw [h.node i]

theorem owns (h : Alike g g₁) : g₁.Owns = g.Owns := by
  funext o c
  unfold Owns
  rw [h.owned]

theorem heldCells (h : Alike g g₁) : g₁.heldCells = g.heldCells :=
  heldCells_congr h.size h.live fun _ => by rw [h.cells]

theorem sorted (h : Alike g g₁) {birth : NodeId → Nat} (hs : g.Sorted birth) : g₁.Sorted birth := by
  intro o
  rw [h.owned]
  exact hs o

theorem mayPrecede (h : Alike g g₁) {birth : NodeId → Nat} {x y : NodeId} (hm : g₁.MayPrecede birth x y) :
    g.MayPrecede birth x y := by
  have howner : ∀ i, (g₁.nodes i).owner = (g.nodes i).owner := fun i => by rw [h.node i]
  unfold MayPrecede at *
  rwa [howner, howner] at hm

end Alike

theorem Torn.heldCells {g g' : Inner V} {T : List NodeId} (h : Torn g T g') (hs : g.Slots) :
    g.heldCells = g'.heldCells + (T.flatMap g.cells : List V) := by
  have hsplit : g.liveSet = g'.liveSet ∪ T.toFinset := by
    ext i
    rw [Finset.mem_union, mem_liveSet hs, mem_liveSet (h.slots hs), List.mem_toFinset]
    constructor
    · intro hi
      by_cases hT : i ∈ T
      · exact Or.inr hT
      · rw [h.live_of_notMem hT]
        exact Or.inl hi
    · rintro (hi | hi)
      · exact (h.live hi).2
      · exact h.was_live i hi
  have hdisj : Disjoint g'.liveSet T.toFinset := by
    rw [Finset.disjoint_left]
    intro i hi hT
    exact (h.live ((mem_liveSet (h.slots hs)).mp hi)).1 (List.mem_toFinset.mp hT)
  have hcells : ∑ i ∈ g'.liveSet, (g.cells i : Multiset V) = g'.heldCells := by
    refine Finset.sum_congr rfl fun i hi => ?_
    rw [h.cells (h.live ((mem_liveSet (h.slots hs)).mp hi)).1]
  have hT : ∑ i ∈ T.toFinset, (g.cells i : Multiset V) = (T.flatMap g.cells : List V) := by
    rw [List.sum_toFinset _ h.nodup]
    clear hsplit hdisj hcells h
    induction T with
    | nil => rfl
    | cons n T ih => rw [List.map_cons, List.sum_cons, ih, List.flatMap_cons, Multiset.coe_add]
  unfold Inner.heldCells at *
  rw [hsplit, Finset.sum_union hdisj, hcells, hT]

/-- A new node holds its cells. -/
theorem create_heldCells (hs : g.Slots) {m : Node V} (hm : m.live) {g' : Inner V} (hsize : g'.size = (g.alloc m).size)
    (hn : ∀ i, g'.nodes i = { (if i = g.nextSlot then m else g.nodes i) with
      owner := (g'.nodes i).owner, owned := (g'.nodes i).owned }) :
    g'.heldCells = g.heldCells + (m.content.toList ++ m.body.toList : List V) := by
  have hdead := hs.nextSlot_dead
  have halloc := hs.alloc hm
  have hlive : ∀ i, (g'.nodes i).live = ((g.alloc m).nodes i).live := by
    intro i
    rw [hn i, alloc_nodes]
  have hset : g'.liveSet = insert g.nextSlot g.liveSet := by
    ext i
    rw [Finset.mem_insert, mem_liveSet hs]
    unfold liveSet
    rw [Finset.mem_filter, Finset.mem_range, hsize, hlive, alloc_nodes]
    constructor
    · rintro ⟨_, hi⟩
      split_ifs at hi with heq
      · exact Or.inl heq
      · exact Or.inr hi
    · intro hi
      have hl : (if i = g.nextSlot then m else g.nodes i).live := by
        rcases hi with rfl | hi
        · rw [if_pos rfl]
          exact hm
        · split_ifs
          · exact hm
          · exact hi
      refine ⟨halloc.in_range ?_, hl⟩
      rw [alloc_nodes]
      exact hl
  have hnew : g'.cells g.nextSlot = m.content.toList ++ m.body.toList := by
    unfold cells
    rw [hn, if_pos rfl]
  have hold : ∀ i ∈ g.liveSet, g'.cells i = g.cells i := by
    intro i hi
    have hne : i ≠ g.nextSlot := fun heq => hdead (heq ▸ (mem_liveSet hs).mp hi)
    unfold cells
    rw [hn, if_neg hne]
  unfold heldCells
  rw [hset, Finset.sum_insert fun hmem => hdead ((mem_liveSet hs).mp hmem), hnew, add_comm]
  congr 1
  exact Finset.sum_congr rfl fun i hi => by rw [hold i hi]

/-! ### Teardown -/

/-- What a teardown of `T` out of `g` does to the cells, where `g'` is the graph after it. -/
structure Reclaims (g : Inner V) (T : List NodeId) (g' : Inner V) : Prop where
  nodup : T.Nodup
  reclaimed : g'.reclaimed = g.reclaimed ++ T.flatMap g.cells
  kind : ∀ x ∉ T, (g'.nodes x).kind = (g.nodes x).kind
  live : ∀ x, (g'.nodes x).live → (g.nodes x).live

theorem detachSources_alike (he : g.Edges) (n : NodeId) : Alike g (g.detachSources n) := by
  rw [detachSources_eq g he]
  refine ⟨rfl, fun i => ?_⟩
  by_cases hi : i = n
  · simp [hi]
  · simp [hi]

theorem beginCompute_cells (h : g.Shape) (hn : (g.nodes n).live) :
    ∃ T, Reclaims g T (g.beginCompute n) ∧ (∀ x, x ∈ T ↔ TransGen g.Owns n x) ∧
      g.heldCells = (g.beginCompute n).heldCells + (T.flatMap g.cells : List V) ∧
      ∀ birth, g.Sorted birth → T.Pairwise (g.MayPrecede birth) ∧ (g.beginCompute n).Sorted birth := by
  obtain ⟨T, hT, _, hnT, hbelow, hmem⟩ := disposeOwned_spec h n
  have htear := h.tearable
  obtain ⟨hr, hp⟩ := disposeOwned_sweeps htear h.tree.ownedBy (h.slots.in_range hn) hT hnT
  have htorn := hT.tearable (htear.clearOwned n)
  have halike : Alike (g.disposeOwned n) (g.beginCompute n) :=
    (detachSources_alike htorn.edges n).trans (.of_nodes rfl rfl)
  have hclear : ∀ i, (g.modify n fun m => { m with owned := [] }).cells i = g.cells i := by
    intro i
    unfold cells
    rw [clearOwned_node]
  refine ⟨T, ⟨hT.nodup, ?_, ?_, ?_⟩, fun x => ⟨hbelow x, hmem x⟩, ?_, ?_⟩
  · rw [← hr, beginCompute_eq, detachSources_eq _ htorn.edges]
  · intro x hx
    rw [halike.kind, hT.kept x hx, clearOwned_node]
  · intro x hx
    rw [halike.live] at hx
    have hlive := (hT.live hx).2
    rwa [clearOwned_node] at hlive
  · have hheld := hT.heldCells (htear.clearOwned n).slots
    have hsame : (g.modify n fun m => { m with owned := [] }).heldCells = g.heldCells :=
      heldCells_congr rfl (fun i => by rw [clearOwned_node]) hclear
    rw [hsame] at hheld
    rw [halike.heldCells, hheld]
    congr 2
    exact List.flatMap_congr fun x _ => hclear x
  · exact fun birth hs => ⟨hp birth hs, halike.sorted (hT.sorted (hs.clearOwned n))⟩

/-- An explicit disposal reclaims the cells of the descendants and leaves those of the node. -/
theorem dispose_cells (h : g.Shape) (hn : (g.nodes n).live) :
    ∃ T : List NodeId, T.Nodup ∧ (g.dispose n).reclaimed = g.reclaimed ++ T.flatMap g.cells ∧
      (∀ x, x ∈ T ↔ TransGen g.Owns n x) ∧ (∀ x ∉ T, x ≠ n → ((g.dispose n).nodes x).kind = (g.nodes x).kind) ∧
      (∀ x, ((g.dispose n).nodes x).live → (g.nodes x).live) ∧
      g.heldCells = (g.dispose n).heldCells + (T.flatMap g.cells : List V) + (g.cells n : List V) ∧
      ∀ birth, (g.disown n).Sorted birth → T.Pairwise (g.MayPrecede birth) ∧ (g.dispose n).Sorted birth := by
  have htear := Tearable.disown h hn
  obtain ⟨T, hT, hsub⟩ := disposeOwned_tears htear n
  have hnT : n ∉ T := hsub.notMem_root htear.acyclic
  have ht' := hT.tearable (htear.clearOwned n)
  have hpre : ∀ i, ((g.disown n).modify n fun m => { m with owned := [] }).nodes i =
      { g.nodes i with owned := ((g.preDispose n).nodes i).owned } := preDispose_node h hn
  have hlive : (((g.disown n).disposeOwned n).nodes n).live := by
    rw [hT.live_of_notMem hnT, hpre]
    exact hn
  have hempty : (((g.disown n).disposeOwned n).nodes n).owned = [] := by
    rw [hT.owned_of_notMem hnT, modify_nodes_self]
  have hall : Torn (g.preDispose n) (T ++ [n]) (g.dispose n) := by
    unfold dispose preDispose
    rw [if_pos hn]
    exact hT.trans (torn_unhookAndFree ht'.edges ht'.slots hlive hempty)
  have hownedBy : (g.disown n).OwnedBy := by
    refine ⟨fun o c hc => ?_, fun o => ?_⟩
    · rw [disown_node h hn]
      exact h.tree.ownedBy.owner o c ((disown_owns h hn o c).mp hc).1
    · rw [disown_eq h hn]
      show (if (g.nodes n).owner = some o then swapRemove (g.nodes o).owned n else (g.nodes o).owned).Nodup
      split_ifs
      · exact (swapRemove_perm _ _).nodup_iff.mpr ((h.tree.nodup_owned o).erase _)
      · exact h.tree.nodup_owned o
  have hsize : (g.disown n).size = g.size := by rw [disown_rest h hn]
  obtain ⟨hr, hp⟩ := disposeOwned_sweeps htear hownedBy (hsize ▸ h.slots.in_range hn) hT hnT
  have hcells : ∀ i, (g.disown n).cells i = g.cells i := by
    intro i
    unfold cells
    rw [disown_node h hn]
  have hcells' : ∀ i, (g.preDispose n).cells i = g.cells i := by
    intro i
    unfold cells
    rw [preDispose_node h hn]
  refine ⟨T, hT.nodup, ?_, fun x => ?_, fun x hx hxn => ?_, fun x hx => ?_, ?_, fun birth hs => ⟨?_, ?_⟩⟩
  · have hdispose : g.dispose n = ((g.disown n).disposeOwned n).unhookAndFree n := if_pos hn
    rw [hdispose, unhookAndFree_reclaimed ht'.edges, hr, disown_rest h hn]
    congr 1
    exact List.flatMap_congr fun x _ => hcells x
  · obtain ⟨T', hT', _, hmem⟩ := dispose_spec h hn
    obtain rfl := hT'.unique hall
    have hx := hmem x
    rw [List.mem_append, List.mem_singleton, Relation.reflTransGen_iff_eq_or_transGen] at hx
    constructor
    · intro hxT
      rcases hx.mp (Or.inl hxT) with rfl | hlt
      · exact absurd hxT hnT
      · exact hlt
    · intro hlt
      rcases hx.mpr (Or.inr hlt) with hxT | rfl
      · exact hxT
      · exact absurd hlt (h.tree.acyclic x)
  · rw [hall.kept x (by simp [hx, hxn]), preDispose_node h hn]
  · have hlive := (hall.live hx).2
    rwa [preDispose_node h hn] at hlive
  · have hslots : (g.preDispose n).Slots := (htear.clearOwned n).slots
    have hheld := hall.heldCells hslots
    have hsame : (g.preDispose n).heldCells = g.heldCells := by
      refine heldCells_congr ?_ (fun i => by rw [preDispose_node h hn]) hcells'
      unfold preDispose
      rw [modify_size, hsize]
    rw [hsame] at hheld
    rw [hheld, List.flatMap_append, List.flatMap_singleton, hcells', ← Multiset.coe_add, add_assoc]
    congr 3
    exact List.flatMap_congr fun x _ => hcells' x
  · refine (hp birth hs).imp fun {x y} hm => ?_
    have howner : ∀ i, ((g.disown n).nodes i).owner = (g.nodes i).owner := fun i => by rw [disown_node h hn]
    unfold MayPrecede at *
    rwa [howner, howner] at hm
  · exact hall.sorted (hs.clearOwned n)

theorem swapRemove_late {older younger : List NodeId} (hn : n ∉ older) (hy : younger.length ≤ 1) :
    swapRemove (older ++ n :: younger) n = older ++ younger := by
  induction older with
  | nil =>
    rw [List.nil_append, List.nil_append, swapRemove, if_pos rfl]
    cases younger with
    | nil => rfl
    | cons y rest =>
      obtain rfl : rest = [] := List.eq_nil_of_length_eq_zero (by simpa using hy)
      rfl
  | cons x older ih =>
    rw [List.mem_cons, not_or] at hn
    rw [List.cons_append, swapRemove, if_neg (Ne.symm hn.1), ih hn.2, List.cons_append]

/-- Where `n` stands among the children of its owner: at most one of them is younger. -/
def Late (g : Inner V) (n : NodeId) : Prop :=
  ∀ o, (g.nodes n).owner = some o →
    ∃ older younger, (g.nodes o).owned = older ++ n :: younger ∧ younger.length ≤ 1

theorem Sorted.disown (h : g.Shape) (hn : (g.nodes n).live) {birth : NodeId → Nat}
    (hs : g.Sorted birth) (hl : g.Late n) : (g.disown n).Sorted birth := by
  intro o
  rw [disown_eq h hn]
  show (if (g.nodes n).owner = some o then swapRemove (g.nodes o).owned n else (g.nodes o).owned).Pairwise _
  split_ifs with ho
  · obtain ⟨older, younger, howned, hlen⟩ := hl o ho
    have hnodup := h.tree.nodup_owned o
    have hsort := hs o
    rw [howned] at hnodup hsort ⊢
    have hnot : n ∉ older := fun hmem =>
      (List.nodup_append.mp hnodup).2.2 n hmem n List.mem_cons_self rfl
    rw [swapRemove_late hnot hlen]
    exact hsort.sublist (List.Sublist.append_left (List.sublist_cons_self n younger) older)
  · exact hs o

end Inner

/-! ### The ledger -/

namespace Machine

open Noeta.Reactive.Inner

/-- The cells that an operation hands to the graph. -/
def created : Op V → Multiset V
  | .signal v | .signalRoot v => {v}
  | .computed body memo => {memo, body}
  | .effect body => {body}
  | _ => 0

/-- The cells that an operation leaves to its caller: those of a node that is disposed explicitly. -/
def leftTo (m : Machine V) : Op V → Multiset V
  | .dispose n => m.graph.cells n
  | _ => 0

/-- What an operation keeps of the reclaimed buffer. -/
def buffer (m : Machine V) : Op V → List V
  | .drainReclaimed => []
  | _ => m.graph.reclaimed

/-- What an operation hands out of the reclaimed buffer. -/
def drained (m : Machine V) : Op V → List V
  | .drainReclaimed => m.graph.reclaimed
  | _ => []

/-- A node is born when its slot is allocated. -/
def births (m : Machine V) (op : Op V) (birth : NodeId → Nat) (clock : Nat) : NodeId → Nat :=
  match op with
  | .signal _ | .signalRoot _ | .computed _ _ | .effect _ => Function.update birth m.graph.nextSlot clock
  | _ => birth

structure Ledger (V : Type) where
  handed : Multiset V := 0
  drained : List V := []
  left : Multiset V := 0
  birth : NodeId → Nat := fun _ => 0
  clock : Nat := 0

def book (m : Machine V) (op : Op V) (l : Ledger V) : Ledger V where
  handed := l.handed + created op
  drained := l.drained ++ m.drained op
  left := l.left + m.leftTo op
  birth := m.births op l.birth l.clock
  clock := l.clock + 1

/-- The runs whose steps all meet `P`, with their ledgers. -/
inductive Books (P : Machine V → Op V → Prop) : Machine V → Ledger V → Prop
  | init : Books P {} {}
  | step {m : Machine V} {op : Op V} {l : Ledger V} :
      Books P m l → m.Enabled op → P m op → Books P (m.step op) (m.book op l)

/-- No value is replaced: neither by `set`, nor by a body that returns another cell than the memo, nor by `clear`. -/
def KeepsCells (m : Machine V) (op : Op V) : Prop :=
  (∀ n v, op ≠ .set n v) ∧ op ≠ .clear ∧
    ∀ r n stack, op = .done r → m.stack = .read n :: stack → (m.graph.nodes n).content = some r

/-- What is disposed has at most one younger sibling. -/
def DisposesLate (m : Machine V) (op : Op V) : Prop := ∀ n, op = .dispose n → m.graph.Late n

/-- The frames of a flush are about effects. -/
def FlushesEffects (m : Machine V) : Prop :=
  ∀ e round steps, Frame.flush e round steps ∈ m.stack → (m.graph.nodes e).kind = .effect

/-- What a step that tears down the nodes of `T` does to the cells. -/
structure Accounts (m : Machine V) (op : Op V) (T : List NodeId) (g' : Inner V) : Prop where
  nodup : T.Nodup
  mem : ∀ x, x ∈ T ↔ m.TearsDown op x ∧ op ≠ .dispose x
  reclaimed : g'.reclaimed = m.buffer op ++ T.flatMap m.graph.cells
  held : m.graph.heldCells + created op = g'.heldCells + (T.flatMap m.graph.cells : List V) + m.leftTo op
  kind : ∀ x, (m.graph.nodes x).live → ¬ m.TearsDown op x → (g'.nodes x).kind = (m.graph.nodes x).kind
  born : ∀ birth clock, (∀ x, (m.graph.nodes x).live → birth x < clock) →
    ∀ x, (g'.nodes x).live → m.births op birth clock x < clock + 1
  order : ∀ birth, m.graph.Sorted birth → m.DisposesLate op → T.Pairwise (m.graph.MayPrecede birth)
  sorted : ∀ birth clock, m.graph.Sorted birth → (∀ x, (m.graph.nodes x).live → birth x < clock) →
    m.DisposesLate op → g'.Sorted (m.births op birth clock)

/-- An operation that only looks at nodes or runs bodies. -/
structure Plain (m : Machine V) (op : Op V) : Prop where
  created : created op = 0
  leftTo : m.leftTo op = 0
  births : ∀ birth clock, m.births op birth clock = birth
  dispose : ∀ n, op ≠ .dispose n

variable {m : Machine V} {op : Op V} {n : NodeId} {g : Inner V} {l : Ledger V}

theorem Accounts.quiet {g' : Inner V} (hp : m.Plain op) (hst : m.starts op = none)
    (ha : Alike m.graph g') (hr : g'.reclaimed = m.buffer op) : m.Accounts op [] g' where
  nodup := List.nodup_nil
  mem x := by
    have : ¬ m.TearsDown op x := by
      rintro (⟨n, hop, _⟩ | ⟨n, hs, _⟩)
      · exact hp.dispose n hop
      · rw [hst] at hs
        exact absurd hs (by simp)
    simp [this]
  reclaimed := by rw [hr]; simp
  held := by rw [hp.created, hp.leftTo, ha.heldCells]; simp
  kind x _ _ := ha.kind x
  born birth clock hlt x hx := by
    rw [ha.live] at hx
    rw [hp.births]
    exact Nat.lt_succ_of_lt (hlt x hx)
  order _ _ _ := List.Pairwise.nil
  sorted birth clock hs _ _ := by
    rw [hp.births]
    exact ha.sorted hs

theorem Accounts.began (hp : m.Plain op)
    (hst : m.starts op = some n) (hb : m.buffer op = m.graph.reclaimed) (hg : g.Shape) (hn : (g.nodes n).live)
    (ha : Alike m.graph g) (hr : g.reclaimed = m.graph.reclaimed) : ∃ T, m.Accounts op T (g.beginCompute n) := by
  obtain ⟨T, hT, hmem, hheld, horder⟩ := beginCompute_cells hg hn
  have htears : ∀ x, m.TearsDown op x ↔ x ∈ T := by
    intro x
    rw [hmem, ha.owns]
    constructor
    · rintro (⟨n', hop, _⟩ | ⟨n', hs, hx⟩)
      · exact absurd hop (hp.dispose n')
      · rw [hst, Option.some.injEq] at hs
        rwa [hs]
    · exact fun hx => Or.inr ⟨n, hst, hx⟩
  refine ⟨T, hT.nodup, fun x => ?_, ?_, ?_, fun x _ hx => ?_, fun birth clock hlt x hx => ?_, fun birth hs _ => ?_,
    fun birth clock hs _ _ => ?_⟩
  · rw [htears]
    exact ⟨fun hx => ⟨hx, hp.dispose x⟩, fun hx => hx.1⟩
  · rw [hT.reclaimed, hr, hb, ha.cells]
  · rw [hp.created, hp.leftTo, ← ha.heldCells, hheld, ha.cells, add_zero]
  · rw [htears] at hx
    rw [hT.kind x hx, ha.kind]
  · have hl := hT.live x hx
    rw [ha.live] at hl
    rw [hp.births]
    exact Nat.lt_succ_of_lt (hlt x hl)
  · exact (horder birth (ha.sorted hs)).1.imp fun hm => ha.mayPrecede hm
  · rw [hp.births]
    exact (horder birth (ha.sorted hs)).2

/-- A node is created. -/
theorem Accounts.create {c : Node V} {g' : Inner V} (hs : m.graph.Shape) (hc : c.live)
    (howned : c.owned = []) (hcells : created op = (c.content.toList ++ c.body.toList : List V))
    (hleft : m.leftTo op = 0) (hd : ∀ n, op ≠ .dispose n) (hst : m.starts op = none)
    (hb : ∀ birth clock, m.births op birth clock = Function.update birth m.graph.nextSlot clock)
    (hsize : g'.size = (m.graph.alloc c).size) (hr : g'.reclaimed = m.buffer op)
    (hn : ∀ i, g'.nodes i = { (if i = m.graph.nextSlot then c else m.graph.nodes i) with
      owner := (g'.nodes i).owner, owned := (g'.nodes i).owned })
    (hadopt : ∀ i, (g'.nodes i).owned = ((m.graph.alloc c).nodes i).owned ∨
      (g'.nodes i).owned = ((m.graph.alloc c).nodes i).owned ++ [m.graph.nextSlot]) : m.Accounts op [] g' where
  nodup := List.nodup_nil
  mem x := by
    have : ¬ m.TearsDown op x := by
      rintro (⟨n, hop, _⟩ | ⟨n, h, _⟩)
      · exact hd n hop
      · rw [hst] at h
        exact absurd h (by simp)
    simp [this]
  reclaimed := by rw [hr]; simp
  held := by
    rw [create_heldCells hs.slots hc hsize hn, hcells, hleft]
    simp
  kind x hx _ := by
    have hne : x ≠ m.graph.nextSlot := fun heq => hs.slots.nextSlot_dead (heq ▸ hx)
    rw [hn, if_neg hne]
  born birth clock hlt x hx := by
    rw [hb]
    by_cases hxs : x = m.graph.nextSlot
    · rw [hxs, Function.update_self]
      exact Nat.lt_succ_self clock
    · rw [hn, if_neg hxs] at hx
      rw [Function.update_of_ne hxs]
      exact Nat.lt_succ_of_lt (hlt x hx)
  order _ _ _ := List.Pairwise.nil
  sorted birth clock hsort hlt _ := by
    intro o
    rw [hb]
    have hold : ∀ i, ((m.graph.alloc c).nodes i).owned = [] ∨
        ((m.graph.alloc c).nodes i).owned = (m.graph.nodes i).owned := by
      intro i
      rw [alloc_nodes]
      split_ifs
      · exact Or.inl howned
      · exact Or.inr rfl
    have hlive : ∀ x ∈ ((m.graph.alloc c).nodes o).owned, (m.graph.nodes x).live := by
      intro x hx
      rcases hold o with h | h
      · rw [h] at hx
        exact absurd hx List.not_mem_nil
      · rw [h] at hx
        exact ((hs.tree.mem_owned x o).mp hx).1
    have hne : ∀ x, (m.graph.nodes x).live → x ≠ m.graph.nextSlot :=
      fun x hx heq => hs.slots.nextSlot_dead (heq ▸ hx)
    have hbase : ((m.graph.alloc c).nodes o).owned.Pairwise fun a b =>
        Function.update birth m.graph.nextSlot clock a < Function.update birth m.graph.nextSlot clock b := by
      rcases hold o with h | h
      · rw [h]
        exact List.Pairwise.nil
      · rw [h] at hlive ⊢
        refine (hsort o).imp_of_mem fun {a b} ha hb hab => ?_
        rwa [Function.update_of_ne (hne a (hlive a ha)), Function.update_of_ne (hne b (hlive b hb))]
    rcases hadopt o with h | h
    · rw [h]
      exact hbase
    · rw [h]
      refine List.pairwise_append.mpr ⟨hbase, List.pairwise_singleton _ _, fun x hx y hy => ?_⟩
      rw [List.mem_singleton.mp hy, Function.update_self, Function.update_of_ne (hne x (hlive x hx))]
      exact hlt x (hlive x hx)

theorem adopt_owned (g : Inner V) (n i : NodeId) :
    ((g.adopt n).nodes i).owned = (g.nodes i).owned ∨ ((g.adopt n).nodes i).owned = (g.nodes i).owned ++ [n] := by
  unfold Inner.adopt
  cases g.computing with
  | nil => exact Or.inl rfl
  | cons o rest =>
    simp only [modify_nodes]
    by_cases ho : i = o
    · rw [if_pos ho]
      by_cases hn : o = n
      · simp [ho, hn]
      · simp [ho, hn]
    · rw [if_neg ho]
      by_cases hn : i = n
      · simp [hn]
      · simp [hn]

theorem alloc_reclaimed (g : Inner V) (c : Node V) : (g.alloc c).reclaimed = g.reclaimed := by
  unfold Inner.alloc
  cases g.free <;> rfl

theorem create_reclaimed (g : Inner V) (c : Node V) : ((g.alloc c).adopt g.nextSlot).reclaimed = g.reclaimed := by
  rw [adopt_rest]
  exact alloc_reclaimed g c

theorem recordDependency_alike (g : Inner V) (n : NodeId) : Alike g (g.recordDependency n) := by
  refine ⟨by rw [recordDependency_rest], fun i => ?_⟩
  have h := recordDependency_node g n i
  rw [h]

theorem endCompute_alike {result : Option V}
    (h : (g.nodes n).kind = .computed → (g.nodes n).content = result) : Alike g (g.endCompute n result) := by
  refine ⟨(endCompute_sameShape g n result).size, fun i => ?_⟩
  rw [endCompute_node]
  by_cases hi : i = n
  · rw [if_pos hi, hi]
    by_cases hk : (g.nodes n).kind = .computed
    · rw [if_pos hk, ← h hk]
    · rw [if_neg hk]
  · rw [if_neg hi]

theorem endCompute_reclaimed (g : Inner V) (n : NodeId) (result : Option V) :
    (g.endCompute n result).reclaimed = g.reclaimed := by
  show (({ g with computing := g.computing.tail } : Inner V).settleDirty n).reclaimed = g.reclaimed
  unfold Inner.settleDirty
  split_ifs <;> rfl

theorem markSubscribers_reclaimed (l : List NodeId) (s : Inner V × List NodeId) :
    (l.foldl markSubscriber s).1.reclaimed = s.1.reclaimed := by
  induction l generalizing s with
  | nil => rfl
  | cons sub l ih =>
    obtain ⟨g, work⟩ := s
    rw [List.foldl_cons, ih]
    rcases markSubscriber_cases g work sub with ⟨_, heq⟩ | ⟨_, _, heq⟩ | ⟨_, _, heq⟩
    · rw [heq]
    · rw [heq]
      rfl
    · rw [heq]
      rfl

theorem markLoop_reclaimed (rounds : Nat) (g : Inner V) (work : List NodeId) :
    (markLoop rounds g work).reclaimed = g.reclaimed := by
  induction rounds generalizing g work with
  | zero => rfl
  | succ rounds ih =>
    cases work with
    | nil => rfl
    | cons current work =>
      rw [markLoop]
      exact (ih _ _).trans (markSubscribers_reclaimed _ _)

theorem accounts_readNode (hs : Sound m) (hn : (m.graph.nodes n).live)
    (hp : m.Plain op) (hb : m.buffer op = m.graph.reclaimed)
    (hst : m.starts op = if (m.graph.nodes n).kind = .computed ∧ (m.graph.nodes n).dirty then some n else none) :
    ∃ T, m.Accounts op T (readNode (m.graph.recordDependency n) n m.stack).graph := by
  have halike := recordDependency_alike m.graph n
  have hr : (m.graph.recordDependency n).reclaimed = m.graph.reclaimed := by rw [recordDependency_rest]
  have hdirty : ((m.graph.recordDependency n).nodes n).dirty = (m.graph.nodes n).dirty := by rw [recordDependency_node]
  unfold Machine.readNode
  rw [halike.kind, hdirty]
  split_ifs at hst ⊢ with hd
  · exact Accounts.began hp hst hb (hs.shape.recordDependency hn) ((halike.live n).trans hn) halike hr
  · exact ⟨[], Accounts.quiet hp hst halike (hr.trans hb.symm)⟩

theorem accounts_flushLoop {round : List NodeId} {steps : Nat}
    {stack : List Frame} (hp : m.Plain op) (hb : m.buffer op = m.graph.reclaimed) (hg : g.Shape)
    (hst : m.starts op = (g.nextEffect round).2.map Prod.fst) (ha : Alike m.graph g)
    (hr : g.reclaimed = m.graph.reclaimed) : ∃ T, m.Accounts op T (flushLoop g round steps stack).graph := by
  rcases flushLoop_cases g round steps stack with ⟨hn, -, hflush⟩ | ⟨queue, e, rest, hn, hruns, -, hflush⟩
  · rw [hn] at hst
    rw [hflush]
    exact ⟨[], Accounts.quiet hp hst (ha.trans (.of_nodes rfl rfl)) (hr.trans hb.symm)⟩
  · rw [hn] at hst
    rw [hflush]
    have hsame := sameShape_taken g queue e
    have halike : Alike g (g.taken queue e) := by
      refine ⟨rfl, fun i => ?_⟩
      rw [taken_nodes]
      split_ifs with hi
      · rw [hi]
      · rfl
    exact Accounts.began hp hst hb (hsame.shape (fun _ hx => hx) hg) ((hsame.live e).trans hruns.1) (ha.trans halike) hr

/-- **What a step does to the cells.** -/
theorem step_accounts (hs : Sound m) (hf : m.FlushesEffects) (he : m.Enabled op)
    (hk : m.KeepsCells op) : ∃ T, m.Accounts op T (m.step op).graph := by
  cases op with
  | signal v =>
    refine ⟨[], Accounts.create (c := { kind := .signal, live := true, content := some v }) hs.shape rfl rfl rfl rfl
      (by simp) rfl (fun _ _ => rfl) ?_ (create_reclaimed _ _) (fun i => ?_) fun i => adopt_owned _ _ i⟩
    · show ((m.graph.alloc _).adopt _).size = _
      rw [adopt_rest]
    · show (((m.graph.alloc _).adopt _).nodes i) = _
      rw [adopt_node, alloc_nodes]
      rfl
  | signalRoot v =>
    refine ⟨[], Accounts.create (c := { kind := .signal, live := true, content := some v }) hs.shape rfl rfl rfl rfl
      (by simp) rfl (fun _ _ => rfl) rfl (alloc_reclaimed _ _) (fun i => ?_) fun i => Or.inl rfl⟩
    have hi : (m.step (.signalRoot v)).graph.nodes i = _ := alloc_nodes m.graph _ i
    rw [hi]
  | computed body memo =>
    refine ⟨[], Accounts.create
      (c := { kind := .computed, live := true, dirty := true, body := some body, content := some memo }) hs.shape rfl rfl
      rfl rfl (by simp) rfl (fun _ _ => rfl) ?_
      (create_reclaimed { m.graph with dirtyComputeds := m.graph.dirtyComputeds + 1 } _) (fun i => ?_) fun i => ?_⟩
    · show ((({ m.graph with dirtyComputeds := m.graph.dirtyComputeds + 1 } : Inner V).alloc _).adopt _).size = _
      rw [adopt_rest]
      unfold Inner.alloc
      cases m.graph.free <;> rfl
    · show (((({ m.graph with dirtyComputeds := m.graph.dirtyComputeds + 1 } : Inner V).alloc _).adopt _).nodes i) = _
      rw [adopt_node, alloc_nodes]
      rfl
    · rw [alloc_nodes]
      have hadopt := adopt_owned (({ m.graph with dirtyComputeds := m.graph.dirtyComputeds + 1 } : Inner V).alloc
        { kind := .computed, live := true, dirty := true, body := some body, content := some memo }) m.graph.nextSlot i
      rw [alloc_nodes] at hadopt
      exact hadopt
  | effect body =>
    refine ⟨[], Accounts.create (c := { kind := .effect, live := true, dirty := true, queued := true, body := some body })
      hs.shape rfl rfl rfl rfl (by simp) rfl (fun _ _ => rfl) ?_ (create_reclaimed _ _) (fun i => ?_)
      fun i => adopt_owned _ _ i⟩
    · show ((m.graph.alloc _).adopt _).size = _
      rw [adopt_rest]
    · show (((m.graph.alloc _).adopt _).nodes i) = _
      rw [adopt_node, alloc_nodes]
      rfl
  | read n => exact accounts_readNode hs he.1 ⟨rfl, rfl, fun _ _ => rfl, by simp⟩ rfl rfl
  | peek n =>
    rw [Machine.step]
    split_ifs with hd
    · exact accounts_readNode hs he.1 ⟨rfl, rfl, fun _ _ => rfl, by simp⟩ rfl rfl
    · exact ⟨[], Accounts.quiet ⟨rfl, rfl, fun _ _ => rfl, by simp⟩ (by rw [starts, if_neg hd]) (.of_nodes rfl rfl) rfl⟩
  | set n v => exact absurd rfl (hk.1 n v)
  | touch n =>
    have hw := (touch_propagates hs.shape hs.count n).walked
    have halike : Alike m.graph (m.graph.touch n) := by
      refine ⟨hw.same.size, fun i => ?_⟩
      have hcontent : ((m.graph.touch n).nodes i).content = (m.graph.nodes i).content := hw.content i
      have hnode : (m.graph.touch n).nodes i =
          { m.graph.nodes i with
            dirty := ((m.graph.touch n).nodes i).dirty, queued := ((m.graph.touch n).nodes i).queued
            content := ((m.graph.touch n).nodes i).content } := hw.same.node i
      rw [hcontent] at hnode
      rw [hnode]
    exact ⟨[], Accounts.quiet ⟨rfl, rfl, fun _ _ => rfl, by simp⟩ rfl halike (markLoop_reclaimed _ _ _)⟩
  | flush =>
    refine accounts_flushLoop (m := m) (g := { m.graph with flushing := true }) ⟨rfl, rfl, fun _ _ => rfl, by simp⟩ rfl
      (hs.shape.of_nodes rfl rfl rfl rfl) ?_ (.of_nodes rfl rfl) rfl
    exact congrArg (Option.map Prod.fst) (nextEffect_congr { m.graph with flushing := true } m.graph (fun _ => rfl)
      (fun _ => rfl) rfl [])
  | dispose n =>
    obtain ⟨T, hnodup, hr, hmem, hkind, hlive, hheld, horder⟩ := dispose_cells hs.shape he
    have htears : ∀ x, m.TearsDown (.dispose n) x ↔ x = n ∨ x ∈ T := by
      intro x
      rw [hmem, ← Relation.reflTransGen_iff_eq_or_transGen]
      constructor
      · rintro (⟨n', hop, hx⟩ | ⟨_, hst, _⟩)
        · cases hop
          exact hx
        · exact absurd hst (by simp [starts])
      · exact fun hx => Or.inl ⟨n, rfl, hx⟩
    refine ⟨T, hnodup, fun x => ?_, hr, ?_, fun x _ hx => ?_,
      fun birth clock hlt x hx => Nat.lt_succ_of_lt (hlt x (hlive x hx)), fun birth hsort hl => ?_,
      fun birth clock hsort _ hl => ?_⟩
    · rw [htears]
      constructor
      · intro hx
        refine ⟨Or.inr hx, fun hop => ?_⟩
        cases hop
        exact hs.shape.tree.acyclic n ((hmem n).mp hx)
      · rintro ⟨rfl | hx, hne⟩
        · exact absurd rfl hne
        · exact hx
    · rw [hheld]
      exact add_zero _
    · rw [htears, not_or] at hx
      exact hkind x hx.2 hx.1
    · exact (horder birth (hsort.disown hs.shape he (hl n rfl))).1
    · exact (horder birth (hsort.disown hs.shape he (hl n rfl))).2
  | clear => exact absurd rfl hk.2.1
  | setObserved on | drainReclaimed | drainChanged =>
    exact ⟨[], Accounts.quiet ⟨rfl, rfl, fun _ _ => rfl, by simp⟩ rfl (.of_nodes rfl rfl) rfl⟩
  | done result =>
    rw [Machine.step]
    cases hstack : m.stack with
    | nil => exact absurd hstack he
    | cons f stack =>
      cases f with
      | read n =>
        have hst : m.starts (.done result) = none := by simp only [starts, hstack]
        exact ⟨[], Accounts.quiet ⟨rfl, rfl, fun _ _ => rfl, by simp⟩ hst
          (endCompute_alike fun _ => hk.2.2 result n stack rfl hstack) (endCompute_reclaimed _ _ _)⟩
      | flush e round steps =>
        have hkind := hf e round steps (by rw [hstack]; exact List.mem_cons_self)
        have halike : Alike m.graph (m.graph.endCompute e none) :=
          endCompute_alike fun hc => absurd (hkind.symm.trans hc) (by simp)
        have hsame := endCompute_sameShape m.graph e none
        simp only
        split_ifs with hmax
        · have hst : m.starts (.done result) = none := by simp only [starts, hstack, if_pos hmax]
          exact ⟨[], Accounts.quiet ⟨rfl, rfl, fun _ _ => rfl, by simp⟩ hst (halike.trans (.of_nodes rfl rfl))
            (endCompute_reclaimed m.graph e none)⟩
        · refine accounts_flushLoop ⟨rfl, rfl, fun _ _ => rfl, by simp⟩ rfl (hs.shape.endCompute e none) ?_ halike
            (endCompute_reclaimed _ _ _)
          simp only [starts, hstack, if_neg hmax]
          rw [nextEffect_congr _ _ hsame.live hsame.kind (endCompute_queue _ _ _)]

theorem mem_flushLoop_stack {round : List NodeId} {steps : Nat} {stack : List Frame} {f : Frame}
    (hf : f ∈ (flushLoop g round steps stack).stack) :
    f ∈ stack ∨ (g.nextEffect round).2.map Prod.fst = some f.node ∧ g.Runs f.node := by
  rcases flushLoop_cases g round steps stack with ⟨-, -, hflush⟩ | ⟨queue, e, rest, hn, hruns, -, hflush⟩
  · rw [hflush] at hf
    exact Or.inl hf
  · rw [hflush] at hf
    rcases List.mem_cons.mp hf with rfl | hf
    · exact Or.inr ⟨by rw [hn]; rfl, hruns⟩
    · exact Or.inl hf

theorem FlushesEffects.step (h : m.FlushesEffects) (hs : Sound m) (he : m.Enabled op)
    (hsp : m.SparesRunning op) {T : List NodeId} (ha : m.Accounts op T (m.step op).graph) :
    (m.step op).FlushesEffects := by
  -- a body that goes on running keeps its node, and so does the one that is started
  have old : ∀ e, e ∈ m.running op → (m.graph.nodes e).kind = .effect → ((m.step op).graph.nodes e).kind = .effect := by
    intro e hrun hk
    have hcomp : e ∈ m.graph.computing := by
      cases op
      case done result => exact List.mem_of_mem_tail hrun
      all_goals exact hrun
    rw [ha.kind e (hs.shape.computing e hcomp).1 fun ht => hsp e ht hrun]
    exact hk
  have new : ∀ e, m.starts op = some e → m.graph.Runs e → ((m.step op).graph.nodes e).kind = .effect := by
    intro e hst hruns
    rw [ha.kind e hruns.1 ?_]
    · exact hruns.2
    · rintro (⟨n, rfl, _⟩ | ⟨n, hst', hn⟩)
      · exact absurd hst (by simp [starts])
      · rw [hst, Option.some.injEq] at hst'
        exact hs.shape.tree.acyclic n (hst' ▸ hn)
  have below : ∀ {e round steps} {stack : List Frame}, .flush e round steps ∈ stack → e ∈ stack.map Frame.node :=
    fun hmem => List.mem_map.mpr ⟨_, hmem, rfl⟩
  have waits : m.running op = m.stack.map Frame.node → ∀ e round steps, Frame.flush e round steps ∈ m.stack →
      ((m.step op).graph.nodes e).kind = .effect :=
    fun hrun e round steps hmem => old e (hrun ▸ below hmem) (h e round steps hmem)
  intro e round steps hmem
  cases op with
  | read n =>
    have hstack : (m.step (.read n)).stack = m.stack ∨ (m.step (.read n)).stack = .read n :: m.stack := by
      rw [Machine.step]
      unfold Machine.readNode
      split_ifs
      · exact Or.inr rfl
      · exact Or.inl rfl
    refine waits hs.computing e round steps ?_
    rcases hstack with hst | hst
    · rwa [hst] at hmem
    · rw [hst] at hmem
      exact (List.mem_cons.mp hmem).resolve_left (by simp)
  | peek n =>
    have hstack : (m.step (.peek n)).stack = m.stack ∨ (m.step (.peek n)).stack = .read n :: m.stack := by
      rw [Machine.step]
      unfold Machine.readNode
      split_ifs
      · exact Or.inr rfl
      · exact Or.inl rfl
      · exact Or.inl rfl
    refine waits hs.computing e round steps ?_
    rcases hstack with hst | hst
    · rwa [hst] at hmem
    · rw [hst] at hmem
      exact (List.mem_cons.mp hmem).resolve_left (by simp)
  | flush =>
    rcases mem_flushLoop_stack hmem with hmem | ⟨hst, hruns⟩
    · exact waits hs.computing e round steps hmem
    · refine new e ?_ hruns
      rw [starts, ← nextEffect_congr m.graph { m.graph with flushing := true } (fun _ => rfl) (fun _ => rfl) rfl []]
      exact hst
  | done result =>
    cases hstack : m.stack with
    | nil => exact absurd hstack he
    | cons f stack =>
      have hrun : m.running (.done result) = stack.map Frame.node := by
        show m.graph.computing.tail = _
        rw [hs.computing, hstack]
        rfl
      have hold : ∀ {e round steps}, Frame.flush e round steps ∈ stack →
          ((m.step (.done result)).graph.nodes e).kind = .effect := fun hmem =>
        old _ (hrun ▸ below hmem) (h _ _ _ (by rw [hstack]; exact List.mem_cons_of_mem _ hmem))
      cases f with
      | read n =>
        refine @hold e round steps ?_
        simpa only [Machine.step, hstack] using hmem
      | flush e₁ round₁ steps₁ =>
        have hsame := endCompute_sameShape m.graph e₁ none
        by_cases hmax : maxFlushSteps < steps₁ + 1
        · refine @hold e round steps ?_
          simpa only [Machine.step, hstack, if_pos hmax] using hmem
        · have hmem' : Frame.flush e round steps ∈
              (flushLoop (m.graph.endCompute e₁ none) round₁ (steps₁ + 1) stack).stack := by
            simpa only [Machine.step, hstack, if_neg hmax] using hmem
          rcases mem_flushLoop_stack hmem' with hmem | ⟨hst, hruns⟩
          · exact hold hmem
          · refine new e ?_ ?_
            · simp only [starts, hstack, if_neg hmax]
              rw [← nextEffect_congr _ _ hsame.live hsame.kind (endCompute_queue _ _ _)]
              exact hst
            · unfold Inner.Runs at *
              rw [hsame.live, hsame.kind] at hruns
              exact hruns
  | clear =>
    have hempty : (m.step (.clear)).stack = [] := he
    rw [hempty] at hmem
    exact absurd hmem List.not_mem_nil
  | _ => exact waits hs.computing e round steps hmem

/-! ### Conservation -/

/-- What a run with its ledger has in every state. -/
structure Balanced (m : Machine V) (l : Ledger V) : Prop where
  sound : Sound m
  flushes : m.FlushesEffects
  handed : l.handed = m.graph.heldCells + (l.drained ++ m.graph.reclaimed : List V) + l.left
  born : ∀ x, (m.graph.nodes x).live → l.birth x < l.clock

theorem Balanced.init : Balanced ({} : Machine V) {} where
  sound := Sound.init
  flushes := fun _ _ _ hmem => absurd hmem List.not_mem_nil
  handed := rfl
  born _ hx := absurd hx Bool.false_ne_true

theorem Balanced.step (h : Balanced m l) (he : m.Enabled op)
    (hsp : m.SparesRunning op) (hk : m.KeepsCells op) : Balanced (m.step op) (m.book op l) := by
  obtain ⟨T, ha⟩ := step_accounts h.sound h.flushes he hk
  refine ⟨h.sound.step he hsp, h.flushes.step h.sound he hsp ha, ?_, ha.born l.birth l.clock h.born⟩
  have hbuffer : m.graph.reclaimed = m.drained op ++ m.buffer op := by
    cases op
    case drainReclaimed => exact (List.append_nil _).symm
    all_goals rfl
  show l.handed + created op = _ + ((l.drained ++ m.drained op) ++ (m.step op).graph.reclaimed : List V) +
    (l.left + m.leftTo op)
  rw [ha.reclaimed, h.handed, hbuffer]
  have hheld := ha.held
  simp only [← Multiset.coe_add]
  calc m.graph.heldCells + ((l.drained : Multiset V) + ((m.drained op : Multiset V) + (m.buffer op : Multiset V))) +
        l.left + created op
      = m.graph.heldCells + created op +
        ((l.drained : Multiset V) + ((m.drained op : Multiset V) + (m.buffer op : Multiset V)) + l.left) := by abel
    _ = _ := by rw [hheld]; abel

/-- A step that conserves the cells and keeps siblings in the order of their creation. -/
def Tidy (m : Machine V) (op : Op V) : Prop := m.SparesRunning op ∧ m.KeepsCells op ∧ m.DisposesLate op

theorem Books.balanced {P : Machine V → Op V → Prop} (hP : ∀ m op, P m op → m.SparesRunning op ∧ m.KeepsCells op)
    (h : Books P m l) : Balanced m l := by
  induction h with
  | init => exact Balanced.init
  | step _ he hp ih => exact ih.step he (hP _ _ hp).1 (hP _ _ hp).2

theorem Books.sorted (h : Books Tidy m l) : m.graph.Sorted l.birth := by
  induction h with
  | init => exact fun _ => List.Pairwise.nil
  | step hb he hp ih =>
    have hbal := hb.balanced fun _ _ ht => ⟨ht.1, ht.2.1⟩
    obtain ⟨T, ha⟩ := step_accounts hbal.sound hbal.flushes he hp.2.1
    exact ha.sorted _ _ ih hbal.born hp.2.2

/-- A teardown in which no node precedes its owner's younger child or is the owner of a later one takes every descendant
before its ancestors. -/
theorem pairwise_descendants {T : List NodeId} {birth : NodeId → Nat} (hnodup : T.Nodup)
    (hacyclic : g.Acyclic) (ho : g.OwnedBy) (hclosed : ∀ x ∈ T, ∀ c, g.Owns x c → c ∈ T)
    (h : T.Pairwise (g.MayPrecede birth)) :
    T.Pairwise fun x y => ¬ TransGen g.Owns x y ∧ ∀ o, g.Owns o x → g.Owns o y → birth y < birth x := by
  rw [List.pairwise_iff_getElem] at h ⊢
  intro i j hi hj hij
  refine ⟨fun hpath => ?_, fun o hox hoy => ?_⟩
  · -- along the path the positions go down
    have hdown : ∀ z, TransGen g.Owns T[i] z → ∃ k, ∃ hk : k < T.length, T[k] = z ∧ k < i := by
      intro z hz
      have hchild : ∀ k, ∀ hk : k < T.length, ∀ c, g.Owns T[k] c → ∃ l, ∃ hl : l < T.length, T[l] = c ∧ l < k := by
        intro k hk c hc
        obtain ⟨l, hl, hlc⟩ := List.getElem_of_mem (hclosed _ (List.getElem_mem hk) c hc)
        refine ⟨l, hl, hlc, ?_⟩
        rcases Nat.lt_trichotomy l k with hlt | heq | hgt
        · exact hlt
        · subst heq
          rw [hlc] at hc
          exact absurd (TransGen.single hc) (hacyclic c)
        · have howner := ho.owner _ _ hc
          rw [← hlc] at howner
          exact absurd howner (h k l hk hl hgt).1
      induction hz with
      | single hz => exact hchild i hi _ hz
      | tail _ hz ih =>
        obtain ⟨k, hk, hkw, hki⟩ := ih
        rw [← hkw] at hz
        obtain ⟨l, hl, hlz, hlk⟩ := hchild k hk _ hz
        exact ⟨l, hl, hlz, hlk.trans hki⟩
    obtain ⟨k, hk, hkj, hki⟩ := hdown _ hpath
    have heq := (hnodup.getElem_inj_iff).mp hkj
    omega
  · exact (h i j hi hj hij).2 o (ho.owner o _ hox) (ho.owner o _ hoy)

/-- **Every cell is held once, reclaimed once or left to the caller that disposed its node**, and each step reclaims the
cells of exactly the nodes it tears down, descendants before their ancestors and younger siblings before older ones. -/
theorem cells_conserved (m : Machine V) (l : Ledger V) (h : Books Tidy m l) :
    l.handed = m.graph.heldCells + (l.drained ++ m.graph.reclaimed : List V) + l.left ∧
    ∀ op, m.Enabled op → m.Tidy op → ∃ T : List NodeId, T.Nodup ∧
      (∀ x, x ∈ T ↔ m.TearsDown op x ∧ op ≠ .dispose x) ∧
      (m.step op).graph.reclaimed = m.buffer op ++ T.flatMap m.graph.cells ∧
      T.Pairwise fun x y => ¬ TransGen m.graph.Owns x y ∧
        ∀ o, m.graph.Owns o x → m.graph.Owns o y → l.birth y < l.birth x := by
  have hbal := h.balanced fun _ _ ht => ⟨ht.1, ht.2.1⟩
  have htree := hbal.sound.shape.tree
  refine ⟨hbal.handed, fun op he ht => ?_⟩
  obtain ⟨T, ha⟩ := step_accounts hbal.sound hbal.flushes he ht.2.1
  refine ⟨T, ha.nodup, ha.mem, ha.reclaimed, ?_⟩
  refine pairwise_descendants ha.nodup htree.acyclic htree.ownedBy (fun x hx c hc => ?_) (ha.order _ h.sorted ht.2.2)
  rw [ha.mem] at hx ⊢
  obtain ⟨hx, hne⟩ := hx
  rcases hx with ⟨n, rfl, hnx⟩ | ⟨n, hst, hnx⟩
  · refine ⟨Or.inl ⟨n, rfl, hnx.tail hc⟩, fun hop => ?_⟩
    cases hop
    exact htree.acyclic c (TransGen.tail' hnx hc)
  · refine ⟨Or.inr ⟨n, hst, hnx.tail hc⟩, fun hop => ?_⟩
    rw [hop] at hst
    exact absurd hst (by simp [starts])

/-- An effect creates three signals while it runs. -/
def nestedRun : List (Op Nat) := [.effect 1, .flush, .signal 10, .signal 11, .signal 12]

theorem nestedRun_books (P : Machine Nat → Op Nat → Prop)
    (hP : ∀ m op, (∀ n, op ≠ .dispose n) → m.SparesRunning op → m.KeepsCells op → P m op) :
    ∃ l, Books P (nestedRun.foldl Machine.step {}) l ∧ l.birth 2 < l.birth 3 := by
  have keeps : ∀ {m : Machine Nat} {op : Op Nat}, (∀ n v, op ≠ .set n v) → op ≠ .clear → (∀ r, op ≠ .done r) →
      m.KeepsCells op := fun hset hclear hdone => ⟨hset, hclear, fun r _ _ hop => absurd hop (hdone r)⟩
  have effect := Books.step (V := Nat) (P := P) .init (show Enabled _ (.effect 1) from trivial)
    (hP _ _ (by simp) (.of_none (by simp) rfl) (keeps (by simp) (by simp) (by simp)))
  have flush := Books.step effect (show Enabled _ .flush from Bool.false_ne_true)
    (hP _ _ (by simp) (fun x _ hx => absurd hx List.not_mem_nil) (keeps (by simp) (by simp) (by simp)))
  have first := Books.step flush (show Enabled _ (.signal 10) from trivial)
    (hP _ _ (by simp) (.of_none (by simp) rfl) (keeps (by simp) (by simp) (by simp)))
  have second := Books.step first (show Enabled _ (.signal 11) from trivial)
    (hP _ _ (by simp) (.of_none (by simp) rfl) (keeps (by simp) (by simp) (by simp)))
  have third := Books.step second (show Enabled _ (.signal 12) from trivial)
    (hP _ _ (by simp) (.of_none (by simp) rfl) (keeps (by simp) (by simp) (by simp)))
  exact ⟨_, third, by decide⟩

theorem nestedRun_conserved : ∃ l, Books Tidy (nestedRun.foldl Machine.step {}) l ∧
    l.handed = (nestedRun.foldl Machine.step {}).graph.heldCells +
      (l.drained ++ (nestedRun.foldl Machine.step {}).graph.reclaimed : List Nat) + l.left := by
  obtain ⟨l, h, _⟩ := nestedRun_books Tidy fun m op hd hsp hk => ⟨hsp, hk, fun n hop => absurd hop (hd n)⟩
  exact ⟨l, h, (cells_conserved _ l h).1⟩

/-- The oldest signal is disposed, the youngest takes its place, and the effect goes down with the older one of the two
first. -/
theorem disposal_moves_sibling : ∃ (m : Machine Nat) (l : Ledger Nat) (op : Op Nat) (o x y : NodeId),
    Books (fun m op => m.SparesRunning op ∧ m.KeepsCells op) m l ∧ m.Enabled op ∧ m.SparesRunning op ∧
    m.KeepsCells op ∧ m.graph.Owns o x ∧ m.graph.Owns o y ∧ l.birth x < l.birth y ∧
    (m.step op).graph.reclaimed = m.graph.cells x ++ m.graph.cells y ∧ m.graph.cells x ≠ m.graph.cells y := by
  obtain ⟨l, h, hbirth⟩ := nestedRun_books (fun m op => m.SparesRunning op ∧ m.KeepsCells op)
    fun m op _ hsp hk => ⟨hsp, hk⟩
  have leaf : (nestedRun.foldl Machine.step {}).SparesRunning (.dispose 1) := by
    rintro x (⟨n, hop, hx⟩ | ⟨n, hst, _⟩)
    · cases hop
      rcases ReflTransGen.cases_head hx with rfl | ⟨c, hc, _⟩
      · decide
      · have hempty : ((nestedRun.foldl Machine.step {}).graph.nodes 1).owned = [] := by decide
        unfold Inner.Owns at hc
        rw [hempty] at hc
        exact absurd hc List.not_mem_nil
    · exact absurd hst (by simp [starts])
  have dispose := h.step (show Enabled _ (.dispose 1) from rfl)
    ⟨leaf, by simp, by simp, fun r n stack hop => absurd hop (by simp)⟩
  have done := dispose.step (show Enabled _ (.done 0) from List.cons_ne_nil _ _)
    ⟨fun x _ hx => absurd hx List.not_mem_nil, by simp, by simp, ?_⟩
  · refine ⟨_, _, .dispose 0, 0, 2, 3, done, rfl, fun x _ hx => absurd hx List.not_mem_nil, ?_, ?_, ?_, hbirth, ?_, ?_⟩
    · exact ⟨by simp, by simp, fun r n stack hop => absurd hop (by simp)⟩
    · unfold Inner.Owns
      decide
    · unfold Inner.Owns
      decide
    · decide
    · decide
  · intro r n stack _ hstack
    have hstack' : [Frame.flush 0 [] 0] = .read n :: stack := hstack
    exact absurd hstack' (by simp)

end Machine

end Noeta.Reactive
