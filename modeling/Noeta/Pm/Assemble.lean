import Noeta.Lib.Labels
import Noeta.Lib.ParseInt
import Noeta.Pm.Select
import Mathlib.Data.List.Sort

/-!
# Assembling the packages a walk found

`assemble` gives every identity its link segment, then derives each package's module prefix and the
segments its own dependency keys are renamed to. Segments are given in three passes (the root's keys, the
scope keys of the packages, the packages that are left), each of which gives labels group by group. The
modules read from disk, the `@name` tables and the rows for the lockfile are left out.
-/

namespace Noeta.Pm

open Lockfile

/-- A `[trust.commands]` entry: the provider and the command it exports. -/
structure Binding where
  provider : String
  exported : String

inductive AssembleError where
  | twoRoots (identity first key : String)
  | notDependency (name provider : String)
  | notNative (name provider : String)
  /-- An index with no such entry; the process stops. -/
  | absent

/-- A package as the loader gets it, under the identity it was resolved for. -/
structure DepPackage where
  identity : String
  root : String
  modulePrefix : List String
  depRenames : List (String × String)
  native : Bool
  edition : Edition

structure ResolvedGraph where
  packages : List DepPackage
  commandBindings : List (String × Binding)

/-! ## Segments -/

/-- The segments given so far, and those that are taken. -/
structure Segments where
  global : Map String String
  used : List String

def numbered (base : String) (n : Nat) : String := base ++ "_" ++ toString n

/-- The first of `base_n`, `base_(n+1)`, … that is free; one of any `used.length + 1` of them is. -/
def uniqueFrom (base : String) (used : List String) : Nat → Nat → String
  | 0, n => numbered base n
  | fuel + 1, n =>
    if numbered base n ∈ used then uniqueFrom base used fuel (n + 1) else numbered base n

def uniqueSegment (base : String) (used : List String) : String × List String :=
  if base ∈ used then
    let candidate := uniqueFrom base used used.length 2
    (candidate, candidate :: used)
  else (base, base :: used)

/-- One key of the root. -/
def bindRoot (key : String) : List String → Map String String → Except AssembleError (Map String String)
  | [], global => .ok global
  | identity :: identities, global =>
    match global.lookup identity with
    | some first =>
      if first ≠ key then .error (.twoRoots identity first key) else bindRoot key identities global
    | none => bindRoot key identities (global.insert identity key)

def bindRoots : List (String × List String) → Segments → Except AssembleError Segments
  | [], s => .ok s
  | (key, identities) :: rest, s => do
    let global ← bindRoot key identities s.global
    bindRoots rest ⟨global, key :: s.used⟩

/-- The instances in the order of their identities. -/
def inOrder (instances : Map String Instance) : List (String × Instance) :=
  (instances.entries.map fun e => (e.1, e.2)).insertionSort fun a b => a.1 ≤ b.1

/-- The keys of the packages that bind several identities. -/
def groups (instances : Map String Instance) : List (List String) :=
  (inOrder instances).flatMap fun e => (e.2.edges.map (·.2)).filter (2 ≤ ·.length)

/-- What a group without a segment asks for: the company of its first member. -/
def groupBase (instances : Map String Instance) (children : List String) : String :=
  match children with
  | [] => ""
  | first :: _ => ((instances.lookup first).map (·.rootSegment)).getD first

def giveSegment (seg : String) (global : Map String String) (id : String) : Map String String :=
  if (global.lookup id).isSome then global else global.insert id seg

def joinGroup (instances : Map String Instance) (s : Segments) (children : List String) : Segments :=
  match children.findSome? s.global.lookup with
  | some seg => ⟨children.foldl (giveSegment seg) s.global, s.used⟩
  | none =>
    let (seg, used) := uniqueSegment (groupBase instances children) s.used
    ⟨children.foldl (giveSegment seg) s.global, used⟩

def assignSingle (s : Segments) (e : String × Instance) : Segments :=
  if (s.global.lookup e.1).isSome then s
  else
    let (seg, used) := uniqueSegment e.2.rootSegment s.used
    ⟨s.global.insert e.1 seg, used⟩

def assignSegments (instances : Map String Instance) (rootEdges : List (String × List String)) :
    Except AssembleError Segments := do
  let s ← bindRoots rootEdges ⟨∅, []⟩
  pure ((inOrder instances).foldl assignSingle ((groups instances).foldl (joinGroup instances) s))

/-! ## Packages -/

def index (global : Map String String) (identity : String) : Except AssembleError String :=
  match global.lookup identity with
  | some seg => .ok seg
  | none => .error .absent

/-- A local key is renamed to the segment of the first identity it binds. -/
def depRenames (global : Map String String) :
    List (String × List String) → Except AssembleError (List (String × String))
  | [] => .ok []
  | (_, []) :: _ => .error .absent
  | (key, first :: _) :: edges => do
    let seg ← index global first
    let renames ← depRenames global edges
    pure ((key, seg) :: renames)

def depPackage (global : Map String String) (e : String × Instance) : Except AssembleError DepPackage := do
  let key ← index global e.1
  let renames ← depRenames global e.2.edges
  pure {
    identity := e.1
    root := e.2.packageSegment
    modulePrefix := key :: if e.2.inScope then [e.2.packageSegment] else []
    depRenames := renames
    native := e.2.native.isSome
    edition := e.2.edition }

def depPackages (global : Map String String) :
    List (String × Instance) → Except AssembleError (List DepPackage)
  | [] => .ok []
  | e :: es => do
    let package ← depPackage global e
    let packages ← depPackages global es
    pure (package :: packages)

/-- A binding is the grant, so its provider must be a native package of the graph. -/
def checkCommands (packages : List DepPackage) : List (String × Binding) → Except AssembleError Unit
  | [] => .ok ()
  | (name, binding) :: rest =>
    if packages.all (·.identity ≠ binding.provider) then .error (.notDependency name binding.provider)
    else if packages.all fun p => p.identity ≠ binding.provider || !p.native then
      .error (.notNative name binding.provider)
    else checkCommands packages rest

def assemble (instances : Map String Instance) (rootEdges : List (String × List String))
    (commandTrust : List (String × Binding)) : Except AssembleError ResolvedGraph := do
  let s ← assignSegments instances rootEdges
  let packages ← depPackages s.global (inOrder instances)
  checkCommands packages commandTrust
  pure ⟨packages.insertionSort (·.modulePrefix ≤ ·.modulePrefix), commandTrust⟩

theorem bind_eq_ok {ε α β : Type} {x : Except ε α} {f : α → Except ε β} {b : β} :
    x >>= f = .ok b ↔ ∃ a, x = .ok a ∧ f a = .ok b := by
  cases x with
  | error e => simp [bind, Except.bind]
  | ok a => simp [bind, Except.bind]

/-! ## A unique segment -/

theorem numbered_injective {base : String} {n m : Nat} (h : numbered base n = numbered base m) : n = m := by
  have hrepr : Nat.repr n = Nat.repr m := (String.append_right_inj _).mp h
  rw [Nat.repr_eq_ofList_toDigits, Nat.repr_eq_ofList_toDigits] at hrepr
  exact toDigits_injective (String.ofList_injective hrepr)

theorem uniqueFrom_mem {base : String} {used : List String} {fuel n : Nat}
    (h : uniqueFrom base used fuel n ∈ used) : ∀ k, n ≤ k → k ≤ n + fuel → numbered base k ∈ used := by
  induction fuel generalizing n with
  | zero =>
    intro k hlow hhigh
    rw [show k = n by omega]
    exact h
  | succ fuel ih =>
    rw [uniqueFrom] at h
    split at h
    · rename_i hused
      intro k hlow hhigh
      by_cases hk : k = n
      · rw [hk]
        exact hused
      · exact ih h k (by omega) (by omega)
    · rename_i hfree
      exact absurd h hfree

theorem uniqueSegment_fresh (base : String) (used : List String) :
    (uniqueSegment base used).1 ∉ used ∧
      (uniqueSegment base used).2 = (uniqueSegment base used).1 :: used := by
  unfold uniqueSegment
  split
  · refine ⟨?_, rfl⟩
    intro hused
    have hall := uniqueFrom_mem hused
    have hnames : ((List.range' 2 (used.length + 1)).map (numbered base)).Nodup :=
      (List.nodup_map_iff_inj_on List.nodup_range').mpr fun n _ m _ h => numbered_injective h
    have hsub : (List.range' 2 (used.length + 1)).map (numbered base) ⊆ used := by
      intro name hname
      obtain ⟨k, hk, rfl⟩ := List.mem_map.mp hname
      rw [List.mem_range'_1] at hk
      exact hall k hk.1 (by omega)
    have hle := (List.subperm_of_subset hnames hsub).length_le
    simp at hle
  · rename_i hfree
    exact ⟨hfree, rfl⟩

/-! ## The three passes -/

/-- What has a segment so far. -/
def Segments.label (s : Segments) (identity : String) : Option String := s.global.lookup identity

/-- Every segment given is taken. -/
def Segments.Sound (s : Segments) : Prop := ∀ id seg, s.label id = some seg → seg ∈ s.used

theorem lookup_giveSegment {seg id a : String} {global : Map String String} :
    (giveSegment seg global id).lookup a = (global.lookup a).or (if a = id then some seg else none) := by
  unfold giveSegment
  by_cases hid : a = id
  · subst hid
    cases h : global.lookup a with
    | some x => simp [h]
    | none => simp
  · rw [if_neg hid, Option.or_none]
    split
    · rfl
    · exact AList.lookup_insert_ne hid

theorem lookup_foldl_giveSegment {seg a : String} {children : List String} {global : Map String String} :
    (children.foldl (giveSegment seg) global).lookup a =
      (global.lookup a).or (if a ∈ children then some seg else none) := by
  induction children generalizing global with
  | nil => simp
  | cons child children ih =>
    rw [List.foldl_cons, ih, lookup_giveSegment]
    cases hl : global.lookup a with
    | some x => simp
    | none => by_cases hchild : a = child <;> simp [hchild]

theorem bindRoot_spec {key : String} {ids : List String} {global global' : Map String String}
    (h : bindRoot key ids global = .ok global') (a seg : String) :
    global'.lookup a = some seg ↔ global.lookup a = some seg ∨ a ∈ ids ∧ seg = key := by
  induction ids generalizing global with
  | nil =>
    cases h
    simp
  | cons id ids ih =>
    rw [bindRoot] at h
    split at h
    · rename_i first hfirst
      split at h
      · cases h
      · rename_i heq
        rw [not_not.mp heq] at hfirst
        rw [ih h]
        constructor
        · rintro (hold | ⟨hmem, rfl⟩)
          · exact Or.inl hold
          · exact Or.inr ⟨List.mem_cons_of_mem _ hmem, rfl⟩
        · rintro (hold | ⟨hmem, rfl⟩)
          · exact Or.inl hold
          · obtain rfl | hmem := List.mem_cons.mp hmem
            · exact Or.inl hfirst
            · exact Or.inr ⟨hmem, rfl⟩
    · rename_i hnone
      rw [ih h]
      by_cases hid : a = id
      · subst hid
        simp [hnone, eq_comm]
      · rw [AList.lookup_insert_ne hid]
        simp [hid]

/-- The root binds `identity` under `key`. -/
def RootBound (rootEdges : List (String × List String)) (key identity : String) : Prop :=
  ∃ ids, (key, ids) ∈ rootEdges ∧ identity ∈ ids

theorem bindRoots_spec {edges : List (String × List String)} {s s' : Segments}
    (h : bindRoots edges s = .ok s') :
    (∀ a seg, s'.label a = some seg ↔ s.label a = some seg ∨ RootBound edges seg a) ∧
      (s.Sound → s'.Sound) := by
  induction edges generalizing s with
  | nil =>
    cases h
    exact ⟨fun a seg => by simp [RootBound], id⟩
  | cons e edges ih =>
    obtain ⟨key, ids⟩ := e
    obtain ⟨global, hb, h⟩ := bind_eq_ok.mp h
    have hspec := bindRoot_spec hb
    obtain ⟨hlabel, hsound⟩ := ih h
    constructor
    · intro a seg
      rw [hlabel, Segments.label, hspec, or_assoc]
      refine or_congr Iff.rfl ?_
      simp only [RootBound, List.mem_cons, Prod.mk.injEq, or_and_right, exists_or, and_assoc]
      constructor
      · rintro (⟨hmem, rfl⟩ | hrest)
        · exact Or.inl ⟨ids, rfl, rfl, hmem⟩
        · exact Or.inr hrest
      · rintro (⟨_, rfl, rfl, hmem⟩ | hrest)
        · exact Or.inl ⟨hmem, rfl⟩
        · exact Or.inr hrest
    · intro hs
      apply hsound
      intro id seg hid
      obtain hold | ⟨_, rfl⟩ := (hspec id seg).mp hid
      · exact List.mem_cons_of_mem _ (hs id seg hold)
      · exact List.mem_cons_self

open Labels (Run Takes spread)

/-- A pass gives labels group by group. -/
structure Gives (s s' : Segments) (gs : List (List String)) : Prop where
  run : Run s.label gs s'.label
  sound : s'.Sound

theorem gives_fresh {s : Segments} {children : List String} {base : String} (hs : s.Sound)
    (hnone : ∀ a ∈ children, s.label a = none) :
    Gives s ⟨children.foldl (giveSegment (uniqueSegment base s.used).1) s.global,
      (uniqueSegment base s.used).2⟩ [children] := by
  obtain ⟨hfresh, hused⟩ := uniqueSegment_fresh base s.used
  have hlabel : (Segments.mk (children.foldl (giveSegment (uniqueSegment base s.used).1) s.global)
      (uniqueSegment base s.used).2).label = spread s.label children (uniqueSegment base s.used).1 := by
    funext a
    exact lookup_foldl_giveSegment
  constructor
  · rw [hlabel]
    exact .cons (.fresh hnone fun a ha => hfresh (hs a _ ha)) (.nil _)
  · intro id seg hid
    rw [hlabel] at hid
    rw [hused]
    obtain hold | ⟨_, rfl⟩ := Labels.spread_eq_some hid
    · exact List.mem_cons_of_mem _ (hs id seg hold)
    · exact List.mem_cons_self

theorem joinGroup_gives {instances : Map String Instance} {s : Segments} (hs : s.Sound)
    (children : List String) : Gives s (joinGroup instances s children) [children] := by
  unfold joinGroup
  split
  · rename_i seg hfind
    obtain ⟨a, ha, hl⟩ := List.exists_of_findSome?_eq_some hfind
    have hlabel : (Segments.mk (children.foldl (giveSegment seg) s.global) s.used).label =
        spread s.label children seg := by
      funext c
      exact lookup_foldl_giveSegment
    constructor
    · rw [hlabel]
      exact .cons (.shared ha hl) (.nil _)
    · intro id seg' hid
      rw [hlabel] at hid
      obtain hold | ⟨_, rfl⟩ := Labels.spread_eq_some hid
      · exact hs id seg' hold
      · exact hs a seg' hl
  · rename_i hfind
    exact gives_fresh hs (List.findSome?_eq_none_iff.mp hfind)

theorem assignSingle_gives {s : Segments} (hs : s.Sound) (e : String × Instance) :
    Gives s (assignSingle s e) [[e.1]] := by
  unfold assignSingle
  split
  · rename_i hsome
    obtain ⟨seg, hseg⟩ := Option.isSome_iff_exists.mp hsome
    have hsame : spread s.label [e.1] seg = s.label := by
      funext a
      cases hl : s.label a with
      | some x => rw [Labels.spread_of_some hl]
      | none =>
        have hne : a ≠ e.1 := by
          intro heq
          rw [heq, Segments.label, hseg] at hl
          cases hl
        rw [Labels.spread_of_none hl, if_neg (by simpa using hne)]
    refine ⟨?_, hs⟩
    have hrun : Run (spread s.label [e.1] seg) [] s.label := by
      rw [hsame]
      exact .nil _
    exact .cons (.shared (List.mem_singleton.mpr rfl) hseg) hrun
  · rename_i hnone
    have hlabel : s.label e.1 = none := Option.not_isSome_iff_eq_none.mp hnone
    have hgives := @gives_fresh s [e.1] e.2.rootSegment hs (by simpa using hlabel)
    have hstep : [e.1].foldl (giveSegment (uniqueSegment e.2.rootSegment s.used).1) s.global =
        s.global.insert e.1 (uniqueSegment e.2.rootSegment s.used).1 := by
      rw [List.foldl_cons, List.foldl_nil, giveSegment, if_neg hnone]
    rw [hstep] at hgives
    exact hgives

theorem Gives.append {s t u : Segments} {gs hs : List (List String)} (h : Gives s t gs)
    (h' : Gives t u hs) : Gives s u (gs ++ hs) :=
  ⟨h.run.append h'.run, h'.sound⟩

theorem foldl_gives {α : Type} {f : Segments → α → Segments} {group : α → List String}
    (hstep : ∀ s, s.Sound → ∀ x, Gives s (f s x) [group x]) (xs : List α) {s : Segments} (hs : s.Sound) :
    Gives s (xs.foldl f s) (xs.map group) := by
  induction xs generalizing s with
  | nil => exact ⟨.nil _, hs⟩
  | cons x xs ih =>
    have hx := hstep s hs x
    exact hx.append (ih hx.sound)

theorem assignSegments_spec {instances : Map String Instance} {rootEdges : List (String × List String)}
    {s : Segments} (h : assignSegments instances rootEdges = .ok s) :
    ∃ roots : Segments, (∀ a seg, roots.label a = some seg ↔ RootBound rootEdges seg a) ∧
      Gives roots s (groups instances ++ (inOrder instances).map fun e => [e.1]) := by
  obtain ⟨roots, hb, h⟩ := bind_eq_ok.mp h
  cases h
  obtain ⟨hlabel, hsound⟩ := bindRoots_spec hb
  have hnone : ∀ a seg, (Segments.mk ∅ []).label a ≠ some seg := by simp [Segments.label]
  have hroots := hsound fun id seg hid => absurd hid (hnone id seg)
  refine ⟨roots, fun a seg => by rw [hlabel, or_iff_right (hnone a seg)], ?_⟩
  have hgroups := foldl_gives (fun s hs g => @joinGroup_gives instances s hs g) (groups instances) hroots
  rw [List.map_id'] at hgroups
  exact hgroups.append (foldl_gives (fun s hs e => assignSingle_gives hs e) _ hgroups.sound)

end Noeta.Pm
