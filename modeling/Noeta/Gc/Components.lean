import Noeta.Gc.Graph

/-!
# The weakly connected components of a garbage set

The safepoint collectors keep or free whole components of the reference graph restricted to the garbage.
`weaklyConnectedComponents` lists every member once (`components_perm`), a component is closed under
references in both directions (`components_closed`) and connected (`components_connected`).

The search works on indices into the garbage list. `adj` is first shown to be the symmetric reference
relation on indices; the search is then a stack search whose state is described by the popped indices.
-/

namespace Noeta

open Relation

namespace Heap

/-! ### The adjacency lists -/

variable {garbage c : List Addr} {adj : List (List Nat)} {x : Addr}

theorem indexOf?_eq_some (hnd : garbage.Nodup) {v : Addr} {j : Nat} :
    indexOf? garbage v = some j ↔ garbage[j]? = some v := by
  have hfilter : ∀ p, p ∈ garbage.zipIdx.filter (fun p => p.1 == v) ↔ garbage[p.2]? = some v ∧ p.1 = v := by
    rintro ⟨w, i⟩
    rw [List.mem_filter, List.mem_zipIdx_iff_getElem?, beq_iff_eq]
    constructor
    · rintro ⟨hw, rfl⟩
      exact ⟨hw, rfl⟩
    · rintro ⟨hv, rfl⟩
      exact ⟨hv, rfl⟩
  constructor
  · intro hj
    rw [indexOf?, Option.map_eq_some_iff] at hj
    obtain ⟨p, hp, rfl⟩ := hj
    exact ((hfilter p).mp (List.mem_of_getLast? hp)).1
  · intro hj
    have hmem : (v, j) ∈ garbage.zipIdx.filter (fun p => p.1 == v) := (hfilter (v, j)).mpr ⟨hj, rfl⟩
    rcases hlast : (garbage.zipIdx.filter fun p => p.1 == v).getLast? with _ | p
    · rw [List.getLast?_eq_none_iff] at hlast
      rw [hlast] at hmem
      exact absurd hmem (List.not_mem_nil)
    · have hp := ((hfilter p).mp (List.mem_of_getLast? hlast)).1
      obtain ⟨hlt, hget⟩ := List.getElem?_eq_some_iff.mp hj
      obtain ⟨hlt', hget'⟩ := List.getElem?_eq_some_iff.mp hp
      have hpj : p.2 = j := (List.Nodup.getElem_inj_iff hnd).mp (hget'.trans hget.symm)
      rw [indexOf?, hlast, Option.map_some, hpj]

/-- Record the undirected edge `e`, unless it is a loop. -/
def addEdge (adj : List (List Nat)) (e : Nat × Nat) : List (List Nat) :=
  if e.2 ≠ e.1 then (adj.modify e.1 (· ++ [e.2])).modify e.2 (· ++ [e.1]) else adj

/-- The index pairs of the references between members. -/
def indexEdges (h : Heap) (garbage : List Addr) : List (Nat × Nat) :=
  garbage.zipIdx.flatMap fun p => (h.children p.1).filterMap fun child =>
    (indexOf? garbage child).map fun j => (p.2, j)

theorem adjacency_eq (h : Heap) (garbage : List Addr) :
    h.adjacency garbage = (h.indexEdges garbage).foldl addEdge (List.replicate garbage.length []) := by
  rw [adjacency, indexEdges, List.foldl_flatMap]
  congr 1
  funext adj p
  rw [List.foldl_filterMap]
  congr 1
  funext adj child
  rcases indexOf? garbage child with _ | j
  · rfl
  · rfl

theorem length_addEdge (adj : List (List Nat)) (e : Nat × Nat) : (addEdge adj e).length = adj.length := by
  rw [addEdge]
  split <;> simp

theorem mem_getD_modify {a b i j : Nat} (ha : a < adj.length) :
    j ∈ (adj.modify a (· ++ [b])).getD i [] ↔ j ∈ adj.getD i [] ∨ (i = a ∧ j = b) := by
  rw [List.getD_eq_getElem?_getD, List.getD_eq_getElem?_getD, List.getElem?_modify]
  by_cases hia : a = i
  · subst hia
    rw [List.getElem?_eq_getElem ha]
    simp
  · simp [hia, Ne.symm hia]

theorem mem_addEdge {e : Nat × Nat} {i j : Nat} (h₁ : e.1 < adj.length) (h₂ : e.2 < adj.length) :
    j ∈ (addEdge adj e).getD i [] ↔ j ∈ adj.getD i [] ∨ (i ≠ j ∧ (e = (i, j) ∨ e = (j, i))) := by
  obtain ⟨a, b⟩ := e
  rw [addEdge]
  split
  · rename_i hne
    rw [mem_getD_modify (by simpa using h₂), mem_getD_modify h₁]
    simp only [Prod.mk.injEq, ne_eq]
    constructor
    · rintro ((hj | ⟨rfl, rfl⟩) | ⟨rfl, rfl⟩)
      · exact .inl hj
      · exact .inr ⟨fun hij => hne hij.symm, .inl ⟨rfl, rfl⟩⟩
      · exact .inr ⟨hne, .inr ⟨rfl, rfl⟩⟩
    · rintro (hj | ⟨-, ⟨rfl, rfl⟩ | ⟨rfl, rfl⟩⟩)
      · exact .inl (.inl hj)
      · exact .inl (.inr ⟨rfl, rfl⟩)
      · exact .inr ⟨rfl, rfl⟩
  · rename_i heq
    simp only [ne_eq, not_not] at heq
    simp only [Prod.mk.injEq, ne_eq]
    constructor
    · exact .inl
    · rintro (hj | ⟨hij, ⟨rfl, rfl⟩ | ⟨rfl, rfl⟩⟩)
      · exact hj
      · exact absurd heq.symm hij
      · exact absurd heq hij

theorem mem_foldl_addEdge {es : List (Nat × Nat)} {i j : Nat}
    (hes : ∀ e ∈ es, e.1 < adj.length ∧ e.2 < adj.length) :
    j ∈ (es.foldl addEdge adj).getD i [] ↔ j ∈ adj.getD i [] ∨ (i ≠ j ∧ ((i, j) ∈ es ∨ (j, i) ∈ es)) := by
  induction es generalizing adj with
  | nil => simp
  | cons e es ih =>
    obtain ⟨h₁, h₂⟩ := hes e (by simp)
    rw [List.foldl_cons, ih (fun e' he' => by rw [length_addEdge]; exact hes e' (by simp [he'])),
      mem_addEdge h₁ h₂]
    simp only [List.mem_cons]
    constructor
    · rintro ((hj | ⟨hij, rfl | rfl⟩) | ⟨hij, hmem | hmem⟩) <;> tauto
    · rintro (hj | ⟨hij, (rfl | hmem) | (rfl | hmem)⟩) <;> tauto

/-- `x` and `y` refer to one another in some direction. -/
def Touches (h : Heap) (x y : Addr) : Prop := h.Points x y ∨ h.Points y x

theorem mem_indexEdges {h : Heap} (hnd : garbage.Nodup) {i j : Nat} : (i, j) ∈ h.indexEdges garbage ↔
      ∃ x y, garbage[i]? = some x ∧ garbage[j]? = some y ∧ h.Points x y := by
  simp only [indexEdges, List.mem_flatMap, List.mem_filterMap, Option.map_eq_some_iff, Prod.mk.injEq,
    Prod.exists, List.mem_zipIdx_iff_getElem?, Points]
  constructor
  · rintro ⟨x, i', hx, y, hy, j', hj', rfl, rfl⟩
    exact ⟨x, y, hx, (indexOf?_eq_some hnd).mp hj', hy⟩
  · rintro ⟨x, y, hx, hy, hxy⟩
    exact ⟨x, i, hx, y, hxy, j, (indexOf?_eq_some hnd).mpr hy, rfl, rfl⟩

/-- **The adjacency lists** hold the references between members, in both directions, without loops. -/
theorem mem_adjacency {h : Heap} (hnd : garbage.Nodup) {i j : Nat} : j ∈ (h.adjacency garbage).getD i [] ↔
      i ≠ j ∧ ∃ x y, garbage[i]? = some x ∧ garbage[j]? = some y ∧ h.Touches x y := by
  have hbound : ∀ e ∈ h.indexEdges garbage, e.1 < (List.replicate garbage.length ([] : List Nat)).length ∧
      e.2 < (List.replicate garbage.length ([] : List Nat)).length := by
    rintro ⟨a, b⟩ he
    obtain ⟨x, y, hx, hy, -⟩ := (mem_indexEdges hnd).mp he
    rw [List.length_replicate]
    exact ⟨(List.getElem?_eq_some_iff.mp hx).1, (List.getElem?_eq_some_iff.mp hy).1⟩
  have hempty : (List.replicate garbage.length ([] : List Nat)).getD i [] = [] := by
    rw [List.getD_eq_getElem?_getD, List.getElem?_replicate]
    split <;> rfl
  rw [adjacency_eq, mem_foldl_addEdge hbound, hempty, mem_indexEdges hnd, mem_indexEdges hnd]
  constructor
  · rintro (hj | ⟨hij, ⟨x, y, hx, hy, hxy⟩ | ⟨y, x, hy, hx, hyx⟩⟩)
    · exact absurd hj (List.not_mem_nil)
    · exact ⟨hij, x, y, hx, hy, .inl hxy⟩
    · exact ⟨hij, x, y, hx, hy, .inr hyx⟩
  · rintro ⟨hij, x, y, hx, hy, hxy | hyx⟩
    · exact .inr ⟨hij, .inl ⟨x, y, hx, hy, hxy⟩⟩
    · exact .inr ⟨hij, .inr ⟨y, x, hy, hx, hyx⟩⟩

/-! ### The search for one component -/

section Search
variable (garbage : List Addr) (adj : List (List Nat)) (id start : Nat)

/-- `j` is next to `i`. -/
def Next (i j : Nat) : Prop := j ∈ adj.getD i []

/-- The indices already assigned to a component. -/
def Assigned (componentOf : List (Option Nat)) (i : Nat) : Prop := componentOf.getD i none ≠ none

/-- The search has assigned and popped `popped`; `P` are the indices of the earlier components. `scanning`
are the neighbours of the last popped index that are still to be looked at. -/
structure Exploring (P : Nat → Prop) (popped scanning : List Nat) (s : Search) : Prop where
  length : s.componentOf.length = garbage.length
  assigned : ∀ i, Assigned s.componentOf i ↔ P i ∨ i ∈ popped ++ s.queue
  fresh : ∀ i ∈ popped ++ s.queue, ¬ P i ∧ i < garbage.length
  nodup : (popped ++ s.queue).Nodup
  members : s.members = popped.map (garbage.getD · 0)
  done : ∀ i ∈ popped, ∀ j, Next adj i j → P j ∨ j ∈ popped ++ s.queue ∨ j ∈ scanning
  connected : ∀ i ∈ popped ++ s.queue, ReflTransGen (Next adj) start i

variable {garbage adj start} {P : Nat → Prop}

theorem assigned_set {c : List (Option Nat)} {j : Nat} (hj : j < c.length) (i : Nat) :
    Assigned (c.set j (some id)) i ↔ i = j ∨ Assigned c i := by
  rw [Assigned, Assigned, List.getD_eq_getElem?_getD, List.getD_eq_getElem?_getD, List.getElem?_set]
  by_cases hij : j = i
  · subst hij
    simp [hj]
  · simp [hij, Ne.symm hij]

variable {s : Search}

/-- Looking at one neighbour. -/
theorem Exploring.look {popped scanning : List Nat} {j : Nat}
    (hs : Exploring garbage adj start P popped (j :: scanning) s) (hj : j < garbage.length)
    (hconn : ReflTransGen (Next adj) start j) :
    Exploring garbage adj start P popped scanning
      (if s.componentOf.getD j none = none then
        { s with componentOf := s.componentOf.set j (some id), queue := j :: s.queue } else s) := by
  by_cases hun : s.componentOf.getD j none = none
  · rw [if_pos hun]
    have hnot : ¬ (P j ∨ j ∈ popped ++ s.queue) := fun hor => (hs.assigned j).mpr hor hun
    have hmem : ∀ i, i ∈ popped ++ j :: s.queue ↔ i = j ∨ i ∈ popped ++ s.queue := by
      intro i
      simp only [List.mem_append, List.mem_cons]
      tauto
    refine ⟨by simp [hs.length], fun i => ?_, fun i hi => ?_, ?_, hs.members, fun i hi k hk => ?_, fun i hi => ?_⟩
    · show Assigned (s.componentOf.set j (some id)) i ↔ _
      rw [assigned_set id (by rw [hs.length]; exact hj), hs.assigned, hmem]
      tauto
    · rcases (hmem i).mp hi with rfl | hi
      · exact ⟨fun hP => hnot (.inl hP), hj⟩
      · exact hs.fresh i hi
    · refine (List.perm_middle.nodup_iff).mpr (List.nodup_cons.mpr ⟨fun hmem' => hnot (.inr hmem'), hs.nodup⟩)
    · rcases hs.done i hi k hk with hP | hk | hk
      · exact .inl hP
      · exact .inr (.inl ((hmem k).mpr (.inr hk)))
      · rcases List.mem_cons.mp hk with rfl | hk
        · exact .inr (.inl ((hmem k).mpr (.inl rfl)))
        · exact .inr (.inr hk)
    · rcases (hmem i).mp hi with rfl | hi
      · exact hconn
      · exact hs.connected i hi
  · rw [if_neg hun]
    refine ⟨hs.length, hs.assigned, hs.fresh, hs.nodup, hs.members, fun i hi k hk => ?_, hs.connected⟩
    rcases hs.done i hi k hk with hP | hk | hk
    · exact .inl hP
    · exact .inr (.inl hk)
    · rcases List.mem_cons.mp hk with rfl | hk
      · rcases (hs.assigned k).mp hun with hP | hmem
        · exact .inl hP
        · exact .inr (.inl hmem)
      · exact .inr (.inr hk)

theorem Exploring.lookAll {popped scanning : List Nat} (hs : Exploring garbage adj start P popped scanning s)
    (hscan : ∀ j ∈ scanning, j < garbage.length ∧ ReflTransGen (Next adj) start j) :
    Exploring garbage adj start P popped []
      (scanning.foldl (fun s j => if s.componentOf.getD j none = none then
        { s with componentOf := s.componentOf.set j (some id), queue := j :: s.queue } else s) s) := by
  induction scanning generalizing s with
  | nil => exact hs
  | cons j scanning ih =>
    obtain ⟨hj, hconn⟩ := hscan j (by simp)
    exact ih (hs.look id hj hconn) fun k hk => hscan k (by simp [hk])

/-- **The search empties its stack**: every pop is a new index, so `garbage.length + 1` rounds suffice. -/
theorem explore_done (hadj : ∀ i j, Next adj i j → j < garbage.length) (fuel : Nat) {popped : List Nat}
    (hs : Exploring garbage adj start P popped [] s) (hfuel : garbage.length < popped.length + fuel) :
    ∃ popped', popped <+: popped' ∧ (∀ i ∈ s.queue.head?, i ∈ popped') ∧
      (explore garbage adj id fuel s).queue = [] ∧
      Exploring garbage adj start P popped' [] (explore garbage adj id fuel s) := by
  have hlen : ∀ {popped : List Nat} {s : Search}, Exploring garbage adj start P popped [] s →
      popped.length + s.queue.length ≤ garbage.length := by
    intro popped s hs
    have hsub : popped ++ s.queue ⊆ List.range garbage.length := fun i hi =>
      List.mem_range.mpr (hs.fresh i hi).2
    have := (hs.nodup.subperm hsub).length_le
    simpa using this
  induction fuel generalizing popped s with
  | zero =>
    have := hlen hs
    omega
  | succ fuel ih =>
    rcases hq : s.queue with _ | ⟨i, queue⟩
    · refine ⟨popped, List.prefix_rfl, by simp, ?_, ?_⟩ <;> simp [explore, hq, hs]
    · have hpop : Exploring garbage adj start P (popped ++ [i]) (adj.getD i [])
          { s with queue := queue, members := s.members ++ [garbage.getD i 0] } := by
        have hassoc : popped ++ [i] ++ queue = popped ++ s.queue := by simp [hq]
        refine ⟨hs.length, fun k => ?_, fun k hk => ?_, ?_, ?_, fun k hk j hj => ?_, fun k hk => ?_⟩
        · rw [hassoc]; exact hs.assigned k
        · exact hs.fresh k (hassoc ▸ hk)
        · rw [hassoc]; exact hs.nodup
        · simp [hs.members]
        · rw [hassoc]
          rcases List.mem_append.mp hk with hk | hk
          · rcases hs.done k hk j hj with hP | hm | hm
            · exact .inl hP
            · exact .inr (.inl hm)
            · exact absurd hm (List.not_mem_nil)
          · rw [List.mem_singleton] at hk
            subst hk
            exact .inr (.inr hj)
        · exact hs.connected k (hassoc ▸ hk)
      have hi : ReflTransGen (Next adj) start i := hs.connected i (by simp [hq])
      have hnext := hpop.lookAll id fun j hj => ⟨hadj i j hj, hi.tail hj⟩
      obtain ⟨popped', hpre, -, hempty, hexp⟩ := ih hnext (by
        rw [List.length_append, List.length_singleton]
        omega)
      have hhead : ∀ k ∈ (i :: queue).head?, k ∈ popped' := by
        intro k hk
        obtain rfl : i = k := by simpa using hk
        exact hpre.subset (by simp)
      refine ⟨popped', (List.prefix_append _ _).trans hpre, hhead, ?_, ?_⟩ <;> rw [explore, hq]
      · exact hempty
      · exact hexp

end Search

/-! ### All components -/

/-- The search over all start indices has found the components `cs`, given by their indices. -/
structure Found (garbage : List Addr) (adj : List (List Nat)) (cs : List (List Nat))
    (acc : List (Option Nat) × List (List Addr)) : Prop where
  length : acc.1.length = garbage.length
  components : acc.2 = cs.map (·.map (garbage.getD · 0))
  assigned : ∀ i, Assigned acc.1 i ↔ i ∈ cs.flatten
  bound : ∀ i ∈ cs.flatten, i < garbage.length
  nodup : cs.flatten.Nodup
  closed : ∀ c ∈ cs, ∀ i ∈ c, ∀ j, Next adj i j → j ∈ c
  connected : ∀ c ∈ cs, ∃ start ∈ c, ∀ i ∈ c, ReflTransGen (Next adj) start i

/-- One start index of the outer loop. -/
def searchFrom (garbage : List Addr) (adj : List (List Nat)) (acc : List (Option Nat) × List (List Addr))
    (start : Nat) : List (Option Nat) × List (List Addr) :=
  if acc.1.getD start none ≠ none then acc
  else
    let s := explore garbage adj acc.2.length (garbage.length + 1)
      ⟨acc.1.set start (some acc.2.length), [start], []⟩
    (s.componentOf, acc.2 ++ [s.members])

theorem searchFrom_found
    (hadj : ∀ i j, Next adj i j → j < garbage.length) (hsymm : ∀ i j, Next adj i j → Next adj j i)
    {cs : List (List Nat)} {acc : List (Option Nat) × List (List Addr)} (hf : Found garbage adj cs acc)
    {start : Nat} (hstart : start < garbage.length) :
    ∃ cs', Found garbage adj cs' (searchFrom garbage adj acc start) ∧ cs <+: cs' ∧ start ∈ cs'.flatten := by
  by_cases has : acc.1.getD start none ≠ none
  · rw [searchFrom, if_pos has]
    exact ⟨cs, hf, List.prefix_rfl, (hf.assigned start).mp has⟩
  rw [searchFrom, if_neg has]
  have hnot : start ∉ cs.flatten := fun hmem => has ((hf.assigned start).mpr hmem)
  have hinit : Exploring garbage adj start (· ∈ cs.flatten) [] []
      ⟨acc.1.set start (some acc.2.length), [start], []⟩ := by
    refine ⟨by simp [hf.length], fun i => ?_, fun i hi => ?_, by simp, rfl, by simp, fun i hi => ?_⟩
    · rw [assigned_set _ (by rw [hf.length]; exact hstart), hf.assigned]
      simp [or_comm]
    · simp only [List.nil_append, List.mem_singleton] at hi
      subst hi
      exact ⟨hnot, hstart⟩
    · simp only [List.nil_append, List.mem_singleton] at hi
      subst hi
      exact ReflTransGen.refl
  obtain ⟨c, -, hhead, hempty, hc⟩ := explore_done acc.2.length hadj (garbage.length + 1) hinit (by simp)
  generalize explore garbage adj acc.2.length (garbage.length + 1)
    ⟨acc.1.set start (some acc.2.length), [start], []⟩ = s at hempty hc
  have hqueue : c ++ s.queue = c := by rw [hempty, List.append_nil]
  have hstartc : start ∈ c := hhead start rfl
  refine ⟨cs ++ [c], ⟨hc.length, ?_, fun i => ?_, fun i hi => ?_, ?_, fun d hd i hi j hij => ?_, fun d hd => ?_⟩,
    List.prefix_append _ _, by simp [hstartc]⟩
  · simp [hf.components, hc.members]
  · show Assigned s.componentOf i ↔ _
    rw [hc.assigned, hqueue]
    simp
  · simp only [List.flatten_append, List.flatten_singleton, List.mem_append] at hi
    rcases hi with hi | hi
    · exact hf.bound i hi
    · exact (hc.fresh i (hqueue.symm ▸ hi)).2
  · rw [List.flatten_append, List.flatten_singleton, List.nodup_append]
    refine ⟨hf.nodup, hqueue ▸ hc.nodup, fun a ha b hb hab => ?_⟩
    subst hab
    exact (hc.fresh a (hqueue.symm ▸ hb)).1 ha
  · rcases List.mem_append.mp hd with hd | hd
    · exact hf.closed d hd i hi j hij
    · rw [List.mem_singleton] at hd
      subst hd
      rcases hc.done i hi j hij with hP | hm | hm
      · -- an earlier component is closed, so it would hold `i` too
        obtain ⟨d', hd', hjd'⟩ := List.mem_flatten.mp hP
        have hid' := hf.closed d' hd' j hjd' i (hsymm i j hij)
        exact absurd (List.mem_flatten.mpr ⟨d', hd', hid'⟩) (hc.fresh i (hqueue.symm ▸ hi)).1
      · exact hqueue ▸ hm
      · exact absurd hm (List.not_mem_nil)
  · rcases List.mem_append.mp hd with hd | hd
    · exact hf.connected d hd
    · rw [List.mem_singleton] at hd
      subst hd
      exact ⟨start, hstartc, fun i hi => hc.connected i (hqueue.symm ▸ hi)⟩

theorem weaklyConnectedComponents_eq (h : Heap) (garbage : List Addr) :
    h.weaklyConnectedComponents garbage =
      ((List.range garbage.length).foldl (searchFrom garbage (h.adjacency garbage))
        (List.replicate garbage.length none, [])).2 :=
  rfl

theorem components_found (h : Heap) (hnd : garbage.Nodup) :
    ∃ cs acc, h.weaklyConnectedComponents garbage = acc.2 ∧ Found garbage (h.adjacency garbage) cs acc ∧
      ∀ i < garbage.length, i ∈ cs.flatten := by
  have hadj : ∀ i j, Next (h.adjacency garbage) i j → j < garbage.length := by
    intro i j hij
    obtain ⟨-, x, y, -, hy, -⟩ := (mem_adjacency hnd).mp hij
    exact (List.getElem?_eq_some_iff.mp hy).1
  have hsymm : ∀ i j, Next (h.adjacency garbage) i j → Next (h.adjacency garbage) j i := by
    intro i j hij
    obtain ⟨hne, x, y, hx, hy, hxy⟩ := (mem_adjacency hnd).mp hij
    exact (mem_adjacency hnd).mpr ⟨hne.symm, y, x, hy, hx, hxy.symm⟩
  have hloop : ∀ (l : List Nat) (cs : List (List Nat)) (acc : List (Option Nat) × List (List Addr)),
      (∀ i ∈ l, i < garbage.length) → Found garbage (h.adjacency garbage) cs acc →
      ∃ cs', Found garbage (h.adjacency garbage) cs'
          (l.foldl (searchFrom garbage (h.adjacency garbage)) acc) ∧
        cs <+: cs' ∧ ∀ i ∈ l, i ∈ cs'.flatten := by
    intro l
    induction l with
    | nil => exact fun cs acc _ hf => ⟨cs, hf, List.prefix_rfl, by simp⟩
    | cons start l ih =>
      intro cs acc hl hf
      obtain ⟨cs₁, hf₁, hpre₁, hmem₁⟩ := searchFrom_found hadj hsymm hf (hl start (by simp))
      obtain ⟨cs₂, hf₂, hpre₂, hmem₂⟩ := ih cs₁ _ (fun i hi => hl i (by simp [hi])) hf₁
      refine ⟨cs₂, hf₂, hpre₁.trans hpre₂, fun i hi => ?_⟩
      rcases List.mem_cons.mp hi with rfl | hi
      · obtain ⟨c, hc, hic⟩ := List.mem_flatten.mp hmem₁
        exact List.mem_flatten.mpr ⟨c, hpre₂.subset hc, hic⟩
      · exact hmem₂ i hi
  have hinit : Found garbage (h.adjacency garbage) [] (List.replicate garbage.length none, []) := by
    refine ⟨by simp, rfl, fun i => ?_, by simp, by simp, by simp, by simp⟩
    rw [Assigned, List.getD_eq_getElem?_getD, List.getElem?_replicate]
    split <;> simp
  obtain ⟨cs, hf, -, hmem⟩ := hloop (List.range garbage.length) [] _ (fun i hi => List.mem_range.mp hi) hinit
  exact ⟨cs, _, weaklyConnectedComponents_eq h garbage, hf, fun i hi => hmem i (List.mem_range.mpr hi)⟩

variable {h : Heap} {garbage : List Addr}

/-- **The components partition the garbage.** -/
theorem components_perm (hnd : garbage.Nodup) :
    (h.weaklyConnectedComponents garbage).flatten.Perm garbage := by
  obtain ⟨cs, acc, heq, hf, hmem⟩ := components_found h hnd
  have hperm : cs.flatten.Perm (List.range garbage.length) := by
    refine (List.perm_ext_iff_of_nodup hf.nodup List.nodup_range).mpr fun i => ?_
    rw [List.mem_range]
    exact ⟨hf.bound i, hmem i⟩
  have hall : (List.range garbage.length).map (garbage.getD · 0) = garbage := by
    apply List.ext_getElem (by simp)
    intro i h₁ h₂
    simp [List.getElem?_eq_getElem h₂]
  rw [heq, hf.components, ← List.map_flatten]
  exact (hperm.map _).trans (List.Perm.of_eq hall)

theorem mem_of_mem_component (hnd : garbage.Nodup)
    (hc : c ∈ h.weaklyConnectedComponents garbage) (hx : x ∈ c) : x ∈ garbage :=
  (components_perm hnd).mem_iff.mp (List.mem_flatten.mpr ⟨c, hc, hx⟩)

theorem mem_map_getD {c : List Nat} (hb : ∀ i ∈ c, i < garbage.length) :
    x ∈ c.map (garbage.getD · 0) ↔ ∃ i ∈ c, garbage[i]? = some x := by
  rw [List.mem_map]
  constructor
  · rintro ⟨i, hi, rfl⟩
    exact ⟨i, hi, by simp [List.getElem?_eq_getElem (hb i hi)]⟩
  · rintro ⟨i, hi, hx⟩
    exact ⟨i, hi, by simp [List.getD_eq_getElem?_getD, hx]⟩

/-- **A component is closed** under references between members, in both directions. -/
theorem components_closed (hnd : garbage.Nodup) (hc : c ∈ h.weaklyConnectedComponents garbage)
    {x y : Addr} (hx : x ∈ c) (hy : y ∈ garbage) (hxy : h.Touches x y) : y ∈ c := by
  obtain ⟨cs, acc, heq, hf, hmem⟩ := components_found h hnd
  rw [heq, hf.components, List.mem_map] at hc
  obtain ⟨d, hd, rfl⟩ := hc
  have hb : ∀ i ∈ d, i < garbage.length := fun i hi => hf.bound i (List.mem_flatten.mpr ⟨d, hd, hi⟩)
  obtain ⟨i, hi, hix⟩ := (mem_map_getD hb).mp hx
  obtain ⟨j, hj⟩ := List.mem_iff_getElem?.mp hy
  refine (mem_map_getD hb).mpr ⟨j, ?_, hj⟩
  by_cases hij : i = j
  · exact hij ▸ hi
  · exact hf.closed d hd i hi j ((mem_adjacency hnd).mpr ⟨hij, x, y, hix, hj, hxy⟩)

/-- **A component is connected** inside the garbage. -/
theorem components_connected (hnd : garbage.Nodup)
    (hc : c ∈ h.weaklyConnectedComponents garbage) {x y : Addr} (hx : x ∈ c) (hy : y ∈ c) :
    ReflTransGen (fun a b => b ∈ garbage ∧ h.Touches a b) x y := by
  obtain ⟨cs, acc, heq, hf, hmem⟩ := components_found h hnd
  rw [heq, hf.components, List.mem_map] at hc
  obtain ⟨d, hd, rfl⟩ := hc
  have hb : ∀ i ∈ d, i < garbage.length := fun i hi => hf.bound i (List.mem_flatten.mpr ⟨d, hd, hi⟩)
  obtain ⟨start, hstart, hconn⟩ := hf.connected d hd
  have hpath : ∀ i, ReflTransGen (Next (h.adjacency garbage)) start i → ∀ x₀ z, garbage[start]? = some x₀ →
      garbage[i]? = some z → ReflTransGen (fun a b => b ∈ garbage ∧ h.Touches a b) x₀ z ∧
        ReflTransGen (fun a b => b ∈ garbage ∧ h.Touches a b) z x₀ := by
    intro i hi
    induction hi with
    | refl =>
      intro x₀ z hx₀ hz
      obtain rfl : x₀ = z := by simpa [hx₀] using hz
      exact ⟨.refl, .refl⟩
    | tail _ hbc ih =>
      intro x₀ z hx₀ hz
      obtain ⟨-, u, v, hu, hv, huv⟩ := (mem_adjacency hnd).mp hbc
      obtain rfl : v = z := by simpa [hv] using hz
      obtain ⟨h₁, h₂⟩ := ih x₀ u hx₀ hu
      exact ⟨h₁.tail ⟨List.mem_of_getElem? hv, huv⟩, .head ⟨List.mem_of_getElem? hu, huv.symm⟩ h₂⟩
  obtain ⟨i, hi, hix⟩ := (mem_map_getD hb).mp hx
  obtain ⟨j, hj, hjy⟩ := (mem_map_getD hb).mp hy
  obtain ⟨x₀, hx₀⟩ : ∃ x₀, garbage[start]? = some x₀ :=
    ⟨_, List.getElem?_eq_getElem (hb start hstart)⟩
  exact (hpath i (hconn i hi) x₀ x hx₀ hix).2.trans (hpath j (hconn j hj) x₀ y hx₀ hjy).1

/-- The components with a member that `p` selects hold what is connected to such a member. -/
theorem mem_components_filter (hnd : garbage.Nodup) (p : Addr → Bool) :
    x ∈ ((h.weaklyConnectedComponents garbage).filter fun c => c.any p).flatten ↔
      ∃ d ∈ garbage, p d = true ∧ ReflTransGen (fun a b => b ∈ garbage ∧ h.Touches a b) d x := by
  rw [List.mem_flatten]
  constructor
  · rintro ⟨c, hc, hx⟩
    obtain ⟨hc, hany⟩ := List.mem_filter.mp hc
    obtain ⟨d, hd, hpd⟩ := List.any_eq_true.mp hany
    exact ⟨d, mem_of_mem_component hnd hc hd, hpd, components_connected hnd hc hd hx⟩
  · rintro ⟨d, hd, hpd, hdx⟩
    obtain ⟨c, hc, hdc⟩ := List.mem_flatten.mp ((components_perm hnd).mem_iff.mpr hd)
    refine ⟨c, List.mem_filter.mpr ⟨hc, List.any_eq_true.mpr ⟨d, hdc, hpd⟩⟩, ?_⟩
    induction hdx with
    | refl => exact hdc
    | tail _ hbc ih => exact components_closed hnd hc ih hbc.1 hbc.2

end Heap

end Noeta
