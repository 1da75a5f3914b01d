import Noeta.Heap.Basic

/-!
# The two cycle collectors

`noeta-gc/src/lib.rs`: the backup mark-sweep (`collectTrace`), Bacon–Rajan trial deletion
(`collectTrialDeletion`), and their safepoint variants. A collector only identifies garbage; the VM
reclaims it.

The source recurses over the object graph and stops at colours it has set itself. Each such function
takes a depth here; `Heap.depth`, one more than the number of slots, is always enough
(`Dfs.Walk.run_account`).
-/

namespace Noeta

/-- The unreachable objects a collection identified. -/
structure Garbage where
  fresh : List Addr
  alreadyDestructed : List Addr
  releaseExternal : Bool
deriving DecidableEq, Repr

/-- `Garbage::default()`. -/
def Garbage.empty : Garbage := ⟨[], [], false⟩

/-- Everything a collection returned. -/
def Garbage.members (g : Garbage) : List Addr := g.fresh ++ g.alreadyDestructed

namespace Heap

/-- Recursion depth that no walk over the object graph exceeds. -/
def depth (h : Heap) : Nat := h.objs.length + 1

/-! ### Candidate buffer -/

/-- Buffer `a` as a possible cycle root. -/
def possibleRoot (h : Heap) (a : Addr) : Heap :=
  if h.color a ≠ .purple then
    let h := h.setColor a .purple
    if h.buffered a then h
    else { h.setBuffered a true with candidates := h.candidates ++ [a] }
  else h

def takeCandidates (h : Heap) : Heap × List Addr := ({ h with candidates := [] }, h.candidates)

/-! ### Mark-sweep -/

/-- Paint `s` and everything reachable from it gray, skipping borrow-shared objects. -/
def mark : Nat → Heap → Addr → Heap
  | 0, h, _ => h
  | fuel + 1, h, s =>
    if h.isShared s || h.color s == .gray then h
    else (h.children s).foldl (fun h child => mark fuel h child) (h.setColor s .gray)

def markRoots (h : Heap) (roots : List Value) : Heap :=
  (roots.filterMap Value.addr?).foldl (fun h root => mark h.depth h root) h

/-- The registered objects a mark did not reach. -/
def unmarked (h : Heap) : List Addr := h.registry.filter fun v => h.color v != .gray

/-- Repaint the marked registered objects black. -/
def resetSurvivors (h : Heap) : Heap :=
  h.registry.foldl (fun h v => if h.color v = .gray then h.setColor v .black else h) h

/-- In-edges of `x` from members of `garbage`, members only. -/
def inEdges (h : Heap) (garbage : List Addr) (x : Addr) : Nat :=
  ((garbage.flatMap h.children).filter (· ∈ garbage)).count x

def countRefcountAnomalies (h : Heap) (garbage : List Addr) : Nat :=
  (garbage.filter fun obj => h.refcount obj != h.inEdges garbage obj).length

def collectTrace (h : Heap) (roots : List Value) : Heap × Garbage :=
  let h := h.markRoots roots
  let fresh := h.unmarked
  let h := h.resetSurvivors
  ({ h with anomalies := h.anomalies + h.countRefcountAnomalies fresh }, ⟨fresh, [], true⟩)

/-! ### Trial deletion -/

/-- Paint `s` gray and trial-decrement each child's count, recursing. -/
def markGray : Nat → Heap → Addr → Heap
  | 0, h, _ => h
  | fuel + 1, h, s =>
    if h.color s = .gray then h
    else (h.children s).foldl
      (fun h child => if h.isShared child then h else markGray fuel (h.rcDec child) child)
      (h.setColor s .gray)

/-- Restore `s` and its non-black subgraph to black, undoing the trial decrements. -/
def scanBlack : Nat → Heap → Addr → Heap
  | 0, h, _ => h
  | fuel + 1, h, s =>
    (h.children s).foldl
      (fun h child =>
        if h.isShared child then h
        else
          let h := h.rcInc child
          if h.color child ≠ .black then scanBlack fuel h child else h)
      (h.setColor s .black)

/-- Restore an externally held gray object, paint any other one white and go on to its children. -/
def scan : Nat → Heap → Addr → Heap
  | 0, h, _ => h
  | fuel + 1, h, s =>
    if h.color s ≠ .gray then h
    else if 0 < h.refcount s then scanBlack h.depth h s
    else (h.children s).foldl (fun h child => scan fuel h child) (h.setColor s .white)

/-- Gather every white object reachable from `s`, repainting it black. -/
def gatherWhite : Nat → Heap × List Addr → Addr → Heap × List Addr
  | 0, acc, _ => acc
  | fuel + 1, (h, garbage), s =>
    if h.color s = .white then
      (h.children s).foldl (fun acc child => gatherWhite fuel acc child)
        (h.setColor s .black, garbage ++ [s])
    else (h, garbage)

/-- What the mark phase of a trial deletion hands on. -/
structure Marked where
  heap : Heap
  grayRoots : List Addr
  deferred : List Addr

/-- One candidate of the mark phase: unbuffer it; a purple one is trial-deleted, any other one is put
aside as a deferred deallocation. -/
def markCandidate (m : Marked) (s : Addr) : Marked :=
  let h := m.heap.setBuffered s false
  match h.color s with
  | .purple => ⟨markGray h.depth h s, m.grayRoots ++ [s], m.deferred⟩
  | _ => ⟨h, m.grayRoots, m.deferred ++ [s]⟩

/-- The mark, scan and gather phases both trial-deletion collectors share: the heap, the white objects
and the deferred candidates. -/
def trialDelete (h : Heap) : Heap × List Addr × List Addr :=
  let (h, roots) := h.takeCandidates
  let m := roots.foldl markCandidate ⟨h, [], []⟩
  let h := m.grayRoots.foldl (fun h s => scan h.depth h s) m.heap
  let (h, white) := m.grayRoots.foldl (fun acc s => gatherWhite acc.1.depth acc s) (h, [])
  (h, white, m.deferred)

/-- Keep the first occurrence of each address that `seen` does not hold: the `HashSet` filter. -/
def dedup (seen : List Addr) : List Addr → List Addr
  | [] => []
  | v :: rest => if v ∈ seen then dedup seen rest else v :: dedup (v :: seen) rest

def collectTrialDeletion (h : Heap) : Heap × Garbage :=
  let (h, white, deferred) := h.trialDelete
  let fresh := dedup [] white
  let alreadyDestructed := dedup fresh deferred
  (h, ⟨fresh, alreadyDestructed, false⟩)

/-! ### Safepoint variants -/

/-- The index of `v` in `garbage` (of its last occurrence, as the source's map is filled in order). -/
def indexOf? (garbage : List Addr) (v : Addr) : Option Nat :=
  ((garbage.zipIdx.filter fun p => p.1 == v).getLast?).map (·.2)

/-- The undirected reference graph restricted to `garbage`, as adjacency lists of indices. -/
def adjacency (h : Heap) (garbage : List Addr) : List (List Nat) :=
  garbage.zipIdx.foldl
    (fun adj p => (h.children p.1).foldl
      (fun adj child =>
        match indexOf? garbage child with
        | some j =>
          if j ≠ p.2 then (adj.modify p.2 (· ++ [j])).modify j (· ++ [p.2]) else adj
        | none => adj)
      adj)
    (List.replicate garbage.length [])

/-- The state of the component search: component ids found so far, the work stack, the members. -/
structure Search where
  componentOf : List (Option Nat)
  queue : List Nat
  members : List Addr

/-- The inner `while let` loop: pop an index, collect it, push its unassigned neighbours. The head of
`queue` is the end of the source's vector. -/
def explore (garbage : List Addr) (adj : List (List Nat)) (id : Nat) : Nat → Search → Search
  | 0, s => s
  | fuel + 1, s =>
    match s.queue with
    | [] => s
    | i :: queue =>
      explore garbage adj id fuel <|
        (adj.getD i []).foldl
          (fun s j =>
            if s.componentOf.getD j none = none then
              { s with componentOf := s.componentOf.set j (some id), queue := j :: s.queue }
            else s)
          { s with queue := queue, members := s.members ++ [garbage.getD i 0] }

/-- Partition `garbage` into its weakly connected components. -/
def weaklyConnectedComponents (h : Heap) (garbage : List Addr) : List (List Addr) :=
  let adj := h.adjacency garbage
  ((List.range garbage.length).foldl
    (fun (acc : List (Option Nat) × List (List Addr)) start =>
      if acc.1.getD start none ≠ none then acc
      else
        let id := acc.2.length
        let s := explore garbage adj id (garbage.length + 1)
          ⟨acc.1.set start (some id), [start], []⟩
        (s.componentOf, acc.2 ++ [s.members]))
    (List.replicate garbage.length none, [])).2

/-- `sort_by_key(|g| Reverse(g.gc_seq()))`: stable, newest first. -/
def sortNewestFirst (h : Heap) (l : List Addr) : List Addr :=
  l.insertionSort fun a b => h.seq b ≤ h.seq a

def collectTraceSafepoint (h : Heap) (roots : List Value) (defer : Addr → Bool) : Heap × Garbage :=
  let h := h.markRoots roots
  let garbage := h.unmarked
  let h := h.resetSurvivors
  if garbage.isEmpty || h.countRefcountAnomalies garbage ≠ 0 then (h, Garbage.empty)
  else
    let fresh := ((h.weaklyConnectedComponents garbage).filter fun c => !c.any defer).flatten
    (h, ⟨h.sortNewestFirst fresh, [], true⟩)

/-- Undo the trial decrements of a deferred component and buffer its members again. -/
def restoreComponent (h : Heap) (component : List Addr) : Heap :=
  let h := component.foldl
    (fun h m => (h.children m).foldl (fun h child => if h.isShared child then h else h.rcInc child) h) h
  component.foldl (fun h m => h.possibleRoot m) h

def collectTrialDeletionSafepoint (h : Heap) (defer : Addr → Bool) : Heap × Garbage :=
  let (h, white, deferred) := h.trialDelete
  let white := dedup [] white
  let alreadyDestructed := dedup white deferred
  let (h, fresh) := (h.weaklyConnectedComponents white).foldl
    (fun (acc : Heap × List Addr) component =>
      if component.any defer then (acc.1.restoreComponent component, acc.2)
      else (acc.1, acc.2 ++ component))
    (h, [])
  (h, ⟨h.sortNewestFirst fresh, alreadyDestructed, false⟩)

end Heap

end Noeta
