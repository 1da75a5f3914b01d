import Noeta.Pm.Assemble
import Noeta.Pm.Precedence

/-!
# Link segments

Two packages must never share a module prefix, and the name a package knows a dependency by must be
renamed to where that dependency's modules are. Both hold of a resolved graph exactly if its keys are
coherent (`consistent_iff_coherent`); a graph in which one package is reached alone and, elsewhere, as the
member of a scope need not be (`shared_prefix`).
-/

namespace Noeta.Pm

open Lockfile Fallible

variable {W : World} {cfg : Config} {w w' : Walker} {instances : Map String Instance}
  {rootEdges : List (String × List String)}

/-! ## What a walk leaves in the tables -/

/-- Every key binds something, and only what is installed. -/
def Bound (w : Walker) (edges : List (String × List String)) : Prop :=
  ∀ e ∈ edges, e.2 ≠ [] ∧ ∀ c ∈ e.2, (w.instances.lookup c).isSome

/-- Ready, and every key of every instance is bound. -/
structure Tabled (W : World) (cfg : Config) (w : Walker) : Prop extends Ready W cfg w where
  bound : ∀ id inst, w.instances.lookup id = some inst → Bound w inst.edges

theorem Grows.refl (w : Walker) : Grows w w := fun _ inst hl => ⟨inst.edges, hl⟩

theorem Grows.trans {v : Walker} (h : Grows w w') (h' : Grows w' v) : Grows w v := by
  intro id inst hl
  obtain ⟨edges, he⟩ := h id inst hl
  obtain ⟨edges', he'⟩ := h' id _ he
  exact ⟨edges', he'⟩

theorem Grows.isSome (h : Grows w w') {id : String} (hid : (w.instances.lookup id).isSome) :
    (w'.instances.lookup id).isSome := by
  obtain ⟨inst, hl⟩ := Option.isSome_iff_exists.mp hid
  obtain ⟨edges, he⟩ := h id inst hl
  rw [he]
  rfl

variable {edges : List (String × List String)} {s : Segments}

theorem Bound.mono (h : Bound w edges) (hg : Grows w w') : Bound w' edges :=
  fun e he => ⟨(h e he).1, fun c hc => hg.isSome ((h e he).2 c hc)⟩

theorem Ready.withInstances (h : Ready W cfg w) (instances : Map String Instance) :
    Ready W cfg { w with instances := instances } :=
  ⟨h.memo.mono rfl (fun _ hn => hn) rfl, h.candidates⟩

section Walk

variable {one : String → Dependency → String → ScopeRoot → Walk String} {base : String}
  {deps : Dependencies} {edges : List (String × List String)}

theorem walkWith_bound
    (hone : ∀ key dep root w id w', Tabled W cfg w → (one key dep base root).Returns w id w' →
      Tabled W cfg w' ∧ Grows w w' ∧ (w'.instances.lookup id).isSome)
    (hw : Tabled W cfg w) (h : (walkWith one deps base).Returns w edges w') :
    Tabled W cfg w' ∧ Grows w w' ∧ Bound w' edges := by
  simp only [walkWith, returns_bind, returns_pure] at h
  obtain ⟨all, t, heach, rfl, rfl⟩ := h
  have hentry : ∀ e ∈ deps, ∀ w c w', Tabled W cfg w → (walkEntry one base e).Returns w c w' →
      Tabled W cfg w' ∧ Grows w w' ∧ ∀ id ∈ c.2, (w'.instances.lookup id).isSome := by
    rintro ⟨key, entry⟩ he w c w' hI hc
    cases entry with
    | one dep =>
      simp only [walkEntry, returns_bind, returns_pure] at hc
      obtain ⟨id, _, hid, rfl, rfl⟩ := hc
      obtain ⟨hI', hg, hsome⟩ := hone key dep .package w id _ hI hid
      exact ⟨hI', hg, by simpa using hsome⟩
    | scope members =>
      simp only [walkEntry, returns_bind, returns_pure] at hc
      obtain ⟨ids, _, hids, rfl, rfl⟩ := hc
      obtain ⟨hI', hg, hall⟩ := walkMembers_returns (I := Tabled W cfg) (R := Grows)
        (P := fun _ id w => (w.instances.lookup id).isSome) Grows.refl (fun _ _ _ => Grows.trans)
        (fun _ _ _ _ hg hid => hg.isSome hid)
        (fun dep _ w id w' hI hr => hone key dep .scope w id w' hI hr) hI hids
      refine ⟨hI', hg, fun id hid => ?_⟩
      obtain ⟨_, _, hsome⟩ := exists_of_forall₂ hall.flip hid
      exact hsome
  obtain ⟨hI, hg, hall⟩ := returns_each (I := Tabled W cfg) (R := Grows)
    (P := fun _ c w => ∀ id ∈ c.2, (w.instances.lookup id).isSome) Grows.refl
    (fun _ _ _ => Grows.trans) (fun _ _ _ _ hg hP id hid => hg.isSome (hP id hid)) hentry hw heach
  refine ⟨hI, hg, fun e he => ?_⟩
  obtain ⟨hmem, hne⟩ := List.mem_filter.mp he
  obtain ⟨_, _, hsome⟩ := exists_of_forall₂ hall.flip hmem
  exact ⟨by simpa using hne, hsome⟩

end Walk

/-- By induction on the fuel: the table of a new instance is walked before its edges are set. -/
theorem walkOne_bound (fuel : Nat) {key base id : String} {dep : Dependency} {root : ScopeRoot}
    (hw : Tabled W cfg w) (h : (walkOne W cfg fuel key dep base root).Returns w id w') :
    Tabled W cfg w' ∧ Grows w w' ∧ (w'.instances.lookup id).isSome := by
  induction fuel generalizing key dep base root w id w' with
  | zero => exact absurd h returns_cut
  | succ fuel ih =>
    simp only [walkOne, returns_bind] at h
    obtain ⟨tree, t, hlocate, new, t', hinstall, h⟩ := h
    obtain ⟨hready, hkept, _⟩ := locate_spec hw.toReady hlocate
    have ht : Tabled W cfg t := by
      refine ⟨hready, fun id inst hl => ?_⟩
      rw [hkept.instances] at hl
      exact (hw.bound id inst hl).mono hkept.grows
    obtain ⟨pkg, _, ⟨rfl, rfl, inst, hinst, _⟩ | ⟨rfl, hnone, hash, rfl⟩⟩ := install_spec hinstall
    · simp only [Bool.false_eq_true, if_false, returns_pure] at h
      obtain ⟨rfl, rfl⟩ := h
      exact ⟨ht, hkept.grows, by rw [hinst]; rfl⟩
    · simp only [if_true, returns_bind, returns_pure] at h
      obtain ⟨edges, t1, hwalk, _, t2, hset, rfl, rfl⟩ := h
      have hadd : Grows t { t with
          instances := t.instances.insert tree.identity (newInstance root tree pkg hash) } := by
        intro id inst hl
        have hne : id ≠ tree.identity := by
          intro heq
          rw [heq, hnone] at hl
          cases hl
        exact ⟨inst.edges, by simp only [AList.lookup_insert_ne hne]; exact hl⟩
      have hadded : Tabled W cfg { t with
          instances := t.instances.insert tree.identity (newInstance root tree pkg hash) } := by
        refine ⟨ht.toReady.withInstances _, fun id inst hl => ?_⟩
        by_cases hid : id = tree.identity
        · subst hid
          simp only [AList.lookup_insert, Option.some.injEq] at hl
          subst hl
          exact fun e he => absurd he List.not_mem_nil
        · simp only [AList.lookup_insert_ne hid] at hl
          exact (ht.bound id inst hl).mono hadd
      obtain ⟨h1, hg1, hbound⟩ := walkWith_bound (fun key dep root w id w' hI hr => ih hI hr) hadded hwalk
      obtain ⟨edges', hself⟩ := hg1 tree.identity _ (AList.lookup_insert _)
      obtain ⟨hw2, hlook⟩ := lookup_setEdges hself hset
      have hg2 : Grows t1 t2 := by
        intro id inst hl
        rw [hlook]
        split
        · rename_i hid
          rw [hid, hself] at hl
          cases hl
          exact ⟨edges, rfl⟩
        · exact ⟨inst.edges, hl⟩
      refine ⟨⟨?_, fun id inst hl => ?_⟩, (hkept.grows.trans hadd).trans (hg1.trans hg2), ?_⟩
      · rw [hw2]
        exact h1.toReady.withInstances _
      · rw [hlook] at hl
        split at hl
        · cases hl
          exact hbound.mono hg2
        · exact (h1.bound id inst hl).mono hg2
      · rw [hlook, if_pos rfl]
        rfl

/-- The tables of a resolved graph, the root's among them. -/
theorem resolveGraph_bound {fuel : Nat} {deps : Dependencies} {dir : String}
    (h : (resolveGraph W cfg fuel deps dir).Returns .init rootEdges w) :
    Bound w rootEdges ∧ ∀ id inst, w.instances.lookup id = some inst → Bound w inst.edges := by
  obtain ⟨t, hsolve, hwalk⟩ := resolveGraph_spec h
  obtain ⟨_, g, rootDeps, _, _, hdone, hsolved⟩ := solve_spec hsolve
  obtain ⟨hnone, _, hready⟩ := hsolved.ready hdone
  have ht : Tabled W cfg t := by
    refine ⟨hready, fun id inst hl => ?_⟩
    rw [hnone] at hl
    simp at hl
  obtain ⟨hw, _, hbound⟩ := walkWith_bound
    (fun key dep root w id w' hI hr => walkOne_bound fuel hI hr) ht hwalk
  exact ⟨hbound, hw.bound⟩

/-! ## Packages -/

theorem mem_inOrder {e : String × Instance} : e ∈ inOrder instances ↔ instances.lookup e.1 = some e.2 := by
  rw [inOrder, List.mem_insertionSort, List.mem_map]
  constructor
  · rintro ⟨⟨id, inst⟩, hmem, rfl⟩
    exact AList.mem_lookup_iff.mpr hmem
  · intro hl
    exact ⟨⟨e.1, e.2⟩, AList.mem_lookup_iff.mp hl, rfl⟩

theorem mem_groups {g : List String} : g ∈ groups instances ↔
    ∃ id inst key, instances.lookup id = some inst ∧ (key, g) ∈ inst.edges ∧ 2 ≤ g.length := by
  simp only [groups, List.mem_flatMap, List.mem_filter, List.mem_map, decide_eq_true_eq]
  constructor
  · rintro ⟨⟨id, inst⟩, he, ⟨⟨key, _⟩, hedge, rfl⟩, hlen⟩
    exact ⟨id, inst, key, mem_inOrder.mp he, hedge, hlen⟩
  · rintro ⟨id, inst, key, hl, hedge, hlen⟩
    exact ⟨(id, inst), mem_inOrder.mpr hl, ⟨(key, g), hedge, rfl⟩, hlen⟩

/-- Each key is renamed to the segment of the first identity it binds. -/
def Renames (s : Segments) (edges : List (String × List String)) (renames : List (String × String)) : Prop :=
  List.Forall₂ (fun e r => r.1 = e.1 ∧ ∃ first, e.2.head? = some first ∧ s.label first = some r.2) edges
    renames

theorem index_eq_ok {id seg : String} : index s.global id = .ok seg ↔ s.label id = some seg := by
  rw [index, Segments.label]
  split <;> simp [*]

theorem depRenames_spec {renames : List (String × String)} (h : depRenames s.global edges = .ok renames) :
    Renames s edges renames := by
  induction edges generalizing renames with
  | nil =>
    cases h
    exact .nil
  | cons e edges ih =>
    obtain ⟨key, _ | ⟨first, rest⟩⟩ := e
    · cases h
    · obtain ⟨seg, hseg, h⟩ := bind_eq_ok.mp h
      obtain ⟨renames', hrest, h⟩ := bind_eq_ok.mp h
      cases h
      exact .cons ⟨rfl, first, rfl, index_eq_ok.mp hseg⟩ (ih hrest)

/-- The package of an identity, under the segments `s`. -/
structure Packaged (s : Segments) (id : String) (inst : Instance) (p : DepPackage) : Prop where
  identity : p.identity = id
  root : p.root = inst.packageSegment
  modulePrefix : ∃ key, s.label id = some key ∧
    p.modulePrefix = key :: if inst.inScope then [inst.packageSegment] else []
  renames : Renames s inst.edges p.depRenames

theorem depPackage_spec {e : String × Instance} {p : DepPackage}
    (h : depPackage s.global e = .ok p) : Packaged s e.1 e.2 p := by
  obtain ⟨key, hkey, h⟩ := bind_eq_ok.mp h
  obtain ⟨renames, hrenames, h⟩ := bind_eq_ok.mp h
  cases h
  exact ⟨rfl, rfl, ⟨key, index_eq_ok.mp hkey, rfl⟩, depRenames_spec hrenames⟩

theorem depPackages_spec {es : List (String × Instance)} {ps : List DepPackage}
    (h : depPackages s.global es = .ok ps) : List.Forall₂ (fun e p => Packaged s e.1 e.2 p) es ps := by
  induction es generalizing ps with
  | nil =>
    cases h
    exact .nil
  | cons e es ih =>
    obtain ⟨p, hp, h⟩ := bind_eq_ok.mp h
    obtain ⟨ps', hps, h⟩ := bind_eq_ok.mp h
    cases h
    exact .cons (depPackage_spec hp) (ih hps)

/-- The packages of an accepted graph are those of its instances. -/
structure Assembled (instances : Map String Instance) (rootEdges : List (String × List String))
    (s : Segments) (g : ResolvedGraph) : Prop where
  segments : assignSegments instances rootEdges = .ok s
  stands : ∀ p ∈ g.packages, ∃ id inst, instances.lookup id = some inst ∧ Packaged s id inst p
  packages : ∀ id inst, instances.lookup id = some inst → ∃ p ∈ g.packages, Packaged s id inst p

theorem assemble_spec {commandTrust : List (String × Binding)} {g : ResolvedGraph}
    (h : assemble instances rootEdges commandTrust = .ok g) : ∃ s, Assembled instances rootEdges s g := by
  obtain ⟨s, hs, h⟩ := bind_eq_ok.mp h
  obtain ⟨packages, hpackages, h⟩ := bind_eq_ok.mp h
  obtain ⟨_, _, h⟩ := bind_eq_ok.mp h
  cases h
  have hall := depPackages_spec hpackages
  refine ⟨s, hs, fun p hp => ?_, fun id inst hl => ?_⟩
  · rw [List.mem_insertionSort] at hp
    obtain ⟨e, hzip, hspec⟩ := exists_of_forall₂ hall.flip hp
    exact ⟨e.1, e.2, mem_inOrder.mp (List.of_mem_zip hzip).2, hspec⟩
  · obtain ⟨p, hzip, hspec⟩ := exists_of_forall₂ hall (mem_inOrder.mpr hl : (id, inst) ∈ _)
    exact ⟨p, (List.mem_insertionSort _).mpr (List.of_mem_zip hzip).2, hspec⟩

/-! ## Consistent graphs and coherent keys -/

/-- The table at `inst` binds `key` to a scope. -/
def bindsScope (W : World) (inst : Instance) (key : String) : Bool :=
  match W.readManifest inst.dir with
  | .ok m => m.dependencies.any fun e => e.1 = key &&
      match e.2 with
      | .one _ => false
      | .scope _ => true
  | .error _ => false

/-- No two identities share a module prefix, and every key of a package is renamed to the first segment
of the prefix of each identity it binds; the package segment follows if it binds a scope. -/
structure Consistent (W : World) (instances : Map String Instance) (g : ResolvedGraph) : Prop where
  distinct : ∀ p ∈ g.packages, ∀ q ∈ g.packages, p.modulePrefix = q.modulePrefix → p.identity = q.identity
  renames : ∀ p ∈ g.packages, ∀ inst, instances.lookup p.identity = some inst →
    List.Forall₂ (fun e r => r.1 = e.1 ∧ ∀ c ∈ e.2, ∃ q ∈ g.packages, q.identity = c ∧
      q.modulePrefix = r.2 :: if bindsScope W inst e.1 then [q.root] else []) inst.edges p.depRenames

/-- Two identities are bound under one key, of the root or of a package. -/
def Together (instances : Map String Instance) (rootEdges : List (String × List String)) (a b : String) :
    Prop :=
  (∃ key, RootBound rootEdges key a ∧ RootBound rootEdges key b) ∨
    ∃ g ∈ groups instances, a ∈ g ∧ b ∈ g

/-- A chain of keys joins two identities. -/
def Joined (instances : Map String Instance) (rootEdges : List (String × List String)) :
    String → String → Prop :=
  Relation.EqvGen (Together instances rootEdges)

/-- Neither the root binds `identity` nor one of `before` has it. -/
def New (rootEdges : List (String × List String)) (before : List (List String)) (identity : String) : Prop :=
  (∀ key, ¬ RootBound rootEdges key identity) ∧ ∀ g ∈ before, identity ∉ g

structure Coherent (W : World) (instances : Map String Instance) (rootEdges : List (String × List String)) :
    Prop where
  /-- The root binds identities that are joined under one key. -/
  oneRoot : ∀ a b key key', Joined instances rootEdges a b → RootBound rootEdges key a →
    RootBound rootEdges key' b → key = key'
  /-- A group of new members is joined to nothing the root or an earlier group has. -/
  oneStart : ∀ before g after, groups instances = before ++ g :: after →
    (∀ a ∈ g, New rootEdges before a) → ∀ a ∈ g, ∀ b, Joined instances rootEdges a b →
      New rootEdges before b
  /-- Every key binds an identity the way it was first reached. -/
  oneMode : ∀ id inst, instances.lookup id = some inst → ∀ e ∈ inst.edges, ∀ c ∈ e.2, ∀ child,
    instances.lookup c = some child → child.inScope = bindsScope W inst e.1
  /-- Of identities that are joined one at most is reached alone, and no two have one segment. -/
  apart : ∀ a b inst inst', a ≠ b → Joined instances rootEdges a b → instances.lookup a = some inst →
    instances.lookup b = some inst' → inst.inScope = inst'.inScope →
      inst.inScope = true ∧ inst.packageSegment ≠ inst'.packageSegment

section Joined

variable {s roots : Segments}

theorem equivalence_joined : Equivalence (Joined instances rootEdges) :=
  Relation.EqvGen.is_equivalence _

/-- What no key has together with anything is joined to itself alone. -/
theorem eq_of_joined {a b : String} (h : Joined instances rootEdges a b)
    (ha : ∀ c, ¬ Together instances rootEdges a c ∧ ¬ Together instances rootEdges c a) : a = b := by
  have hboth : (∀ c, ¬ Together instances rootEdges a c ∧ ¬ Together instances rootEdges c a) ∨
      (∀ c, ¬ Together instances rootEdges b c ∧ ¬ Together instances rootEdges c b) → a = b := by
    clear ha
    induction h with
    | rel x y hxy =>
      rintro (hx | hy)
      · exact absurd hxy (hx y).1
      · exact absurd hxy (hy x).2
    | refl x => exact fun _ => rfl
    | symm x y _ ih => exact fun hxy => (ih hxy.symm).symm
    | trans x y z _ _ ih ih' =>
      rintro (hx | hz)
      · have hxy := ih (Or.inl hx)
        rw [hxy] at hx ⊢
        exact ih' (Or.inl hx)
      · have hyz := ih' (Or.inr hz)
        rw [← hyz] at hz ⊢
        exact ih (Or.inr hz)
  exact hboth (Or.inl ha)

theorem new_iff (hroots : ∀ a seg, roots.label a = some seg ↔ RootBound rootEdges seg a)
    {before : List (List String)} {a : String} :
    New rootEdges before a ↔ ¬ Labels.Reached roots.label before a := by
  have hnone : (∀ key, ¬ RootBound rootEdges key a) ↔ roots.label a = none := by
    rw [Option.eq_none_iff_forall_ne_some]
    exact forall_congr' fun key => not_congr (hroots a key).symm
  simp only [New, Labels.Reached, hnone, not_or, not_not, not_exists, not_and]

theorem new_of_apart {before : List (List String)} {a : String} (h : New rootEdges before a)
    (hbefore : ∀ g ∈ groups instances, g ∈ before) (c : String) :
    ¬ Together instances rootEdges a c ∧ ¬ Together instances rootEdges c a := by
  have hno : ∀ b, ¬ Together instances rootEdges a b := by
    rintro b (⟨key, ha, _⟩ | ⟨g, hg, ha, _⟩)
    · exact h.1 key ha
    · exact h.2 g (hbefore g hg) ha
  refine ⟨hno c, ?_⟩
  rintro (⟨key, hc, ha⟩ | ⟨g, hg, hc, ha⟩)
  · exact hno c (Or.inl ⟨key, ha, hc⟩)
  · exact hno c (Or.inr ⟨g, hg, ha, hc⟩)

/-- The packages that are left begin nothing that is joined to something else. -/
theorem starts_iff (hroots : ∀ a seg, roots.label a = some seg ↔ RootBound rootEdges seg a) :
    Labels.Starts (Joined instances rootEdges) roots.label
        (groups instances ++ (inOrder instances).map fun e => [e.1]) ↔
      ∀ before g after, groups instances = before ++ g :: after →
        (∀ a ∈ g, New rootEdges before a) → ∀ a ∈ g, ∀ b, Joined instances rootEdges a b →
          New rootEdges before b := by
  simp only [Labels.Starts, ← new_iff hroots]
  constructor
  · intro h before g after hgroups
    apply h before g (after ++ (inOrder instances).map fun e => [e.1])
    rw [hgroups]
    simp
  · intro h before g after hall hnew a ha b hjoined
    obtain ⟨mid, hbefore, hrest⟩ | ⟨mid, hgroups, hrest⟩ := List.append_eq_append_iff.mp hall
    · -- a package that is left
      have hmem : g ∈ (inOrder instances).map fun e => [e.1] := by
        rw [hrest]
        simp
      have hself : a = b := eq_of_joined hjoined
        (new_of_apart (hnew a ha) fun g' hg' => by rw [hbefore]; exact List.mem_append_left _ hg')
      rw [← hself]
      exact hnew a ha
    · cases mid with
      | nil =>
        have hself : a = b := eq_of_joined hjoined
          (new_of_apart (hnew a ha) fun g' hg' => by rw [hgroups, List.append_nil] at hg'; exact hg')
        rw [← hself]
        exact hnew a ha
      | cons g' mid =>
        obtain ⟨rfl, hmid⟩ := List.cons.inj hrest
        exact h before g mid hgroups hnew a ha b hjoined

/-- Identities that are joined get one segment exactly if each class of them begins once. -/
theorem label_iff (h : assignSegments instances rootEdges = .ok s) :
    (∀ a b seg, s.label a = some seg → s.label b = some seg → Joined instances rootEdges a b) ∧
      (∀ a key, RootBound rootEdges key a → s.label a = some key) ∧
      (Labels.Agrees (Joined instances rootEdges) s.label ↔
        (∀ a b key key', Joined instances rootEdges a b → RootBound rootEdges key a →
          RootBound rootEdges key' b → key = key') ∧
        ∀ before g after, groups instances = before ++ g :: after →
          (∀ a ∈ g, New rootEdges before a) → ∀ a ∈ g, ∀ b, Joined instances rootEdges a b →
            New rootEdges before b) := by
  obtain ⟨roots, hroots, hgives⟩ := assignSegments_spec h
  have hwithin : Labels.Within (Joined instances rootEdges)
      (groups instances ++ (inOrder instances).map fun e => [e.1]) := by
    intro g hg a ha b hb
    obtain hg | hg := List.mem_append.mp hg
    · exact .rel _ _ (Or.inr ⟨g, hg, ha, hb⟩)
    · obtain ⟨e, _, rfl⟩ := List.mem_map.mp hg
      rw [List.mem_singleton.mp ha, List.mem_singleton.mp hb]
      exact .refl _
  refine ⟨fun a b seg ha hb => ?_, fun a key hk => hgives.run.grows ((hroots a key).mpr hk), ?_⟩
  · apply hgives.run.related equivalence_joined hwithin _ ha hb
    intro a b seg ha hb
    exact .rel _ _ (Or.inl ⟨seg, (hroots a seg).mp ha, (hroots b seg).mp hb⟩)
  · rw [hgives.run.agreement_iff equivalence_joined hwithin, starts_iff hroots]
    simp only [Labels.Agrees, hroots]

end Joined

section Consistent

variable {s : Segments} {g : ResolvedGraph}

/-- In a consistent graph whatever a key binds has the segment the key is renamed to. -/
theorem Assembled.renamed (hg : Assembled instances rootEdges s g) (h : Consistent W instances g)
    {id : String} {inst : Instance} (hl : instances.lookup id = some inst) {e : String × List String}
    (he : e ∈ inst.edges) : ∃ seg, ∀ c ∈ e.2, s.label c = some seg ∧ ∀ child,
      instances.lookup c = some child → child.inScope = bindsScope W inst e.1 := by
  obtain ⟨p, hp, hpack⟩ := hg.packages id inst hl
  obtain ⟨r, _, _, hr⟩ := exists_of_forall₂ (h.renames p hp inst (by rw [hpack.identity]; exact hl)) he
  refine ⟨r.2, fun c hc => ?_⟩
  obtain ⟨q, hq, hid, hrenamed⟩ := hr c hc
  obtain ⟨c', child, hchild, hqpack⟩ := hg.stands q hq
  rw [hqpack.identity] at hid
  rw [hid] at hchild hqpack
  obtain ⟨seg, hseg, hpath⟩ := hqpack.modulePrefix
  rw [hpath] at hrenamed
  obtain ⟨hhead, htail⟩ := List.cons.inj hrenamed
  refine ⟨by rw [hseg, hhead], fun child' hchild' => ?_⟩
  rw [hchild] at hchild'
  cases hchild'
  cases hmode : child.inScope <;> cases hscope : bindsScope W inst e.1 <;> simp [hmode, hscope] at htail ⊢

theorem Assembled.label_of_joined (hg : Assembled instances rootEdges s g) (h : Consistent W instances g)
    {a b : String} (hjoined : Joined instances rootEdges a b) : s.label a = s.label b := by
  obtain ⟨_, hroot, _⟩ := label_iff hg.segments
  induction hjoined with
  | rel x y hxy =>
    obtain ⟨key, hx, hy⟩ | ⟨group, hgroup, hx, hy⟩ := hxy
    · rw [hroot x key hx, hroot y key hy]
    · obtain ⟨id, inst, key, hl, hedge, _⟩ := mem_groups.mp hgroup
      obtain ⟨seg, hseg⟩ := hg.renamed h hl hedge
      rw [(hseg x hx).1, (hseg y hy).1]
  | refl x => rfl
  | symm x y _ ih => exact ih.symm
  | trans x y z _ _ ih ih' => exact ih.trans ih'

theorem Assembled.coherent (hg : Assembled instances rootEdges s g) (h : Consistent W instances g) :
    Coherent W instances rootEdges := by
  have hlabel := fun a b => @label_of_joined _ _ _ _ _ hg h a b
  obtain ⟨_, _, hagrees⟩ := label_iff hg.segments
  obtain ⟨hone, hstart⟩ := hagrees.mp fun a b x y hjoined ha hb => by
    rw [hlabel a b hjoined, hb] at ha
    exact (Option.some.inj ha).symm
  refine ⟨hone, hstart, ?_, ?_⟩
  · intro id inst hl e he c hc child hchild
    obtain ⟨seg, hseg⟩ := hg.renamed h hl he
    exact (hseg c hc).2 child hchild
  · intro a b inst inst' hne hjoined ha hb hmode
    obtain ⟨p, hp, hpack⟩ := hg.packages a inst ha
    obtain ⟨q, hq, hqpack⟩ := hg.packages b inst' hb
    obtain ⟨seg, hseg, hpath⟩ := hpack.modulePrefix
    obtain ⟨seg', hseg', hpath'⟩ := hqpack.modulePrefix
    rw [hlabel a b hjoined, hseg'] at hseg
    have hdiffer : p.modulePrefix ≠ q.modulePrefix := by
      intro heq
      apply hne
      rw [← hpack.identity, ← hqpack.identity]
      exact h.distinct p hp q hq heq
    rw [hpath, hpath', Option.some.inj hseg, hmode] at hdiffer
    cases hscope : inst'.inScope with
    | false => simp [hscope] at hdiffer
    | true =>
      refine ⟨hmode.trans hscope, fun heq => hdiffer ?_⟩
      rw [heq]

theorem Assembled.consistent (hg : Assembled instances rootEdges s g)
    (hbound : ∀ id inst, instances.lookup id = some inst → ∀ e ∈ inst.edges, ∀ c ∈ e.2,
      (instances.lookup c).isSome)
    (h : Coherent W instances rootEdges) : Consistent W instances g := by
  obtain ⟨hrelated, _, hagrees⟩ := label_iff hg.segments
  have hagree := hagrees.mpr ⟨h.oneRoot, h.oneStart⟩
  refine ⟨fun p hp q hq hpath => ?_, fun p hp inst hl => ?_⟩
  · obtain ⟨a, inst, ha, hpack⟩ := hg.stands p hp
    obtain ⟨b, inst', hb, hqpack⟩ := hg.stands q hq
    rw [hpack.identity, hqpack.identity]
    obtain ⟨seg, hseg, hp⟩ := hpack.modulePrefix
    obtain ⟨seg', hseg', hq⟩ := hqpack.modulePrefix
    rw [hp, hq] at hpath
    obtain ⟨rfl, htail⟩ := List.cons.inj hpath
    by_contra hne
    have hjoined := hrelated a b seg hseg hseg'
    have hmode : inst.inScope = inst'.inScope := by
      cases hscope : inst.inScope <;> cases hscope' : inst'.inScope <;> simp [hscope, hscope'] at htail ⊢
    obtain ⟨hscope, hdiffer⟩ := h.apart a b inst inst' hne hjoined ha hb hmode
    rw [← hmode, hscope] at htail
    exact hdiffer (List.cons.inj htail).1
  · obtain ⟨id, inst', hl', hpack⟩ := hg.stands p hp
    rw [hpack.identity, hl'] at hl
    cases hl
    obtain ⟨hlen, hzip⟩ := List.forall₂_iff_zip.mp hpack.renames
    refine List.forall₂_iff_zip.mpr ⟨hlen, fun {e r} her => ?_⟩
    obtain ⟨hkey, first, hfirst, hr⟩ := hzip her
    have he := (List.of_mem_zip her).1
    refine ⟨hkey, fun c hc => ?_⟩
    obtain ⟨child, hchild⟩ := Option.isSome_iff_exists.mp (hbound id inst hl' e he c hc)
    obtain ⟨q, hq, hqpack⟩ := hg.packages c child hchild
    obtain ⟨seg, hseg, hpath⟩ := hqpack.modulePrefix
    have hfirst' : first ∈ e.2 := List.mem_of_mem_head? hfirst
    -- the first identity and `c` are joined by this key, if it binds more than one
    have hsegment : seg = r.2 := by
      by_cases heq : first = c
      · rw [heq, hseg] at hr
        exact Option.some.inj hr
      · have hlen : 2 ≤ e.2.length := by
          by_contra hshort
          obtain ⟨x, hx⟩ := List.length_eq_one_iff.mp
            (show e.2.length = 1 by have := List.length_pos_of_mem hc; omega)
          rw [hx, List.mem_singleton] at hfirst' hc
          exact heq (hfirst'.trans hc.symm)
        have hgroup : e.2 ∈ groups instances := mem_groups.mpr ⟨id, inst, e.1, hl', he, hlen⟩
        exact (hagree first c r.2 seg (.rel _ _ (Or.inr ⟨e.2, hgroup, hfirst', hc⟩)) hr hseg).symm
    refine ⟨q, hq, hqpack.identity, ?_⟩
    rw [hpath, hsegment, h.oneMode id inst hl' e he c hc child hchild, hqpack.root]

end Consistent

/-- **Link segments.** The packages of a resolved graph that is accepted have prefixes of their own, and
are renamed to where they are, exactly if its keys are coherent. -/
theorem consistent_iff_coherent (W : World) (cfg : Config) (fuel : Nat) (deps : Dependencies)
    (dir : String) (rootEdges : List (String × List String)) (w : Walker)
    (hresolve : (resolveGraph W cfg fuel deps dir).Returns .init rootEdges w)
    (commandTrust : List (String × Binding)) (g : ResolvedGraph)
    (haccept : assemble w.instances rootEdges commandTrust = .ok g) :
    Consistent W w.instances g ↔ Coherent W w.instances rootEdges := by
  obtain ⟨s, hg⟩ := assemble_spec haccept
  constructor
  · exact hg.coherent
  · apply hg.consistent
    intro id inst hl e he
    exact ((resolveGraph_bound hresolve).2 id inst hl e he).2

/-! ## A package reached alone and as a member -/

def treeManifest (name : String) (dependencies : Dependencies) : Manifest where
  package := some ⟨⟨"acme", name⟩, none, libVersion, none, none, none, none⟩
  dependencies := dependencies

/-- Four trees: `q` depends on `y`, and `p` on the scope of `x` and `y`. -/
def overlapWorld : World where
  __ := libWorld []
  join _ path := path
  readManifest dir := .ok <|
    if dir = "q" then treeManifest "q" [("y", .one (.path "y" none))]
    else if dir = "p" then treeManifest "p" [("s", .scope [.path "x" none, .path "y" none])]
    else treeManifest dir []

/-- The state a resolve of the root's table ends in, its edges, and the graph assembled from them. -/
def outcome (deps : Dependencies) : Option (List (String × List String) × Walker × ResolvedGraph) := do
  let r ← ((resolveGraph overlapWorld unlocked 9 deps "app").run .init).run
  let (edges, w) ← r.toOption
  let g ← (assemble w.instances edges []).toOption
  pure (edges, w, g)

theorem outcome_spec {deps : Dependencies} {w : Walker}
    {g : ResolvedGraph} (h : outcome deps = some (edges, w, g)) :
    (resolveGraph overlapWorld unlocked 9 deps "app").Returns .init edges w ∧
      assemble w.instances edges [] = .ok g := by
  obtain ⟨r, hr, h⟩ := Option.bind_eq_some_iff.mp h
  obtain ⟨⟨edges', w'⟩, hw, h⟩ := Option.bind_eq_some_iff.mp h
  obtain ⟨g', hg, h⟩ := Option.bind_eq_some_iff.mp h
  cases h
  constructor
  · cases r with
    | error e => cases hw
    | ok p =>
      cases hw
      exact hr
  · cases hassemble : assemble w.instances edges [] with
    | error e =>
      rw [hassemble] at hg
      cases hg
    | ok g'' =>
      rw [hassemble] at hg
      cases hg
      rfl

/-- The root binds `p` alone, and its scope is named from the company. -/
theorem consistent_iff_coherent_scope : ∃ edges w g,
    (resolveGraph overlapWorld unlocked 9 [("c", .one (.path "p" none))] "app").Returns .init edges w ∧
      assemble w.instances edges [] = .ok g ∧
        g.packages.map (·.modulePrefix) = [["acme", "x"], ["acme", "y"], ["c"]] ∧
          (Consistent overlapWorld w.instances g ↔ Coherent overlapWorld w.instances edges) := by
  have hrun : (outcome [("c", .one (.path "p" none))]).any (fun o =>
      o.2.2.packages.map (·.modulePrefix) = [["acme", "x"], ["acme", "y"], ["c"]]) = true := by
    decide +kernel
  obtain ⟨⟨edges, w, g⟩, ho, hpaths⟩ := (Option.any_eq_true _ _).mp hrun
  obtain ⟨hresolve, haccept⟩ := outcome_spec ho
  exact ⟨edges, w, g, hresolve, haccept, of_decide_eq_true hpaths,
    consistent_iff_coherent _ _ _ _ _ _ _ hresolve [] g haccept⟩

/-- The root binds `x`, then `q`, then `p`: `y` is first reached alone, and joins `x` under the key of
the root. -/
theorem shared_prefix : ∃ edges w g,
    (resolveGraph overlapWorld unlocked 9
      [("a", .one (.path "x" none)), ("b", .one (.path "q" none)), ("c", .one (.path "p" none))]
      "app").Returns .init edges w ∧
      assemble w.instances edges [] = .ok g ∧ ¬ Consistent overlapWorld w.instances g := by
  have hrun : (outcome
      [("a", .one (.path "x" none)), ("b", .one (.path "q" none)), ("c", .one (.path "p" none))]).any
      (fun o => o.2.2.packages.any fun p => o.2.2.packages.any fun q =>
        p.modulePrefix = q.modulePrefix && p.identity ≠ q.identity) = true := by
    decide +kernel
  obtain ⟨⟨edges, w, g⟩, ho, hclash⟩ := (Option.any_eq_true _ _).mp hrun
  obtain ⟨hresolve, haccept⟩ := outcome_spec ho
  refine ⟨edges, w, g, hresolve, haccept, fun hconsistent => ?_⟩
  obtain ⟨p, hp, hclash⟩ := List.any_eq_true.mp hclash
  obtain ⟨q, hq, hclash⟩ := List.any_eq_true.mp hclash
  obtain ⟨hpath, hne⟩ := Bool.and_eq_true_iff.mp hclash
  exact of_decide_eq_true hne (hconsistent.distinct p hp q hq (of_decide_eq_true hpath))

end Noeta.Pm
