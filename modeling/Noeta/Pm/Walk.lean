import Noeta.Pm.Locate

/-!
# What a walk leaves

A walk installs one instance for each identity it comes to. What holds of the walk of one dependency
holds of the walk of a table (`walkWith_returns`, `walkWith_raises`); the rest of the module is the
invariant the walk of one dependency keeps: where every instance came from, and that every registry
dependency an installed manifest lists was visited.
-/

namespace Noeta.Pm

open Semver Lockfile Requirement Fallible

variable {W : World} {cfg : Config} {w w' : Walker}

/-! ## Tables -/

section Walk

variable {one : String → Dependency → String → ScopeRoot → Walk String} {I : Walker → Prop}
  {R : Walker → Walker → Prop} {P : Dependency → String → Walker → Prop}
  {key base : String} {edges : List (String × List String)} {e : PmError}

theorem walkMembers_returns {members : List Dependency} {company : Option String}
    {ids : List String} (hrefl : ∀ w, R w w) (htrans : ∀ u v w, R u v → R v w → R u w)
    (hkeep : ∀ dep id u v, R u v → P dep id u → P dep id v)
    (hone : ∀ dep ∈ members, ∀ w id w', I w → (one key dep base .scope).Returns w id w' →
      I w' ∧ R w w' ∧ P dep id w')
    (hw : I w) (h : (walkMembers one key base company members).Returns w ids w') :
    I w' ∧ R w w' ∧ List.Forall₂ (fun dep id => P dep id w') members ids := by
  induction members generalizing w company ids with
  | nil =>
    obtain ⟨rfl, rfl⟩ := returns_pure.mp h
    exact ⟨hw, hrefl _, .nil⟩
  | cons member members ih =>
    simp only [walkMembers, returns_bind] at h
    obtain ⟨id, t, hid, h⟩ := h
    obtain ⟨hI, hR, hP⟩ := hone member (by simp) w id t hw hid
    have hrest : ∃ company' rest, (walkMembers one key base company' members).Returns t rest w' ∧
        ids = id :: rest := by
      split at h
      · split at h
        · exact absurd h returns_throw
        · simp only [returns_bind, returns_pure] at h
          obtain ⟨rest, _, hr, rfl, rfl⟩ := h
          exact ⟨_, rest, hr, rfl⟩
      · simp only [returns_bind, returns_pure] at h
        obtain ⟨rest, _, hr, rfl, rfl⟩ := h
        exact ⟨_, rest, hr, rfl⟩
    obtain ⟨company', rest, hr, rfl⟩ := hrest
    obtain ⟨hI', hR', hPs⟩ := ih (fun dep hd => hone dep (by simp [hd])) hI hr
    exact ⟨hI', htrans _ _ _ hR hR', .cons (hkeep _ _ _ _ hR' hP) hPs⟩

/-- What the walk of one dependency leaves holds of the walk of a table. -/
theorem walkWith_returns {deps : Dependencies} (hrefl : ∀ w, R w w)
    (htrans : ∀ u v w, R u v → R v w → R u w)
    (hkeep : ∀ dep id u v, R u v → P dep id u → P dep id v)
    (hone : ∀ key dep root, dep ∈ deps.leaves → ∀ w id w', I w →
      (one key dep base root).Returns w id w' → I w' ∧ R w w' ∧ P dep id w')
    (hw : I w) (h : (walkWith one deps base).Returns w edges w') :
    I w' ∧ R w w' ∧ ∀ dep ∈ deps.leaves, ∃ id, P dep id w' := by
  simp only [walkWith, returns_bind, returns_pure] at h
  obtain ⟨all, _, heach, _, rfl⟩ := h
  have hentry : ∀ e ∈ deps, ∀ w c w', I w → (walkEntry one base e).Returns w c w' →
      I w' ∧ R w w' ∧ ∀ dep ∈ e.2.leaves, ∃ id, P dep id w' := by
    rintro ⟨key, entry⟩ he w c w' hI hc
    have hleaf : ∀ dep ∈ entry.leaves, dep ∈ deps.leaves := fun dep hd =>
      List.mem_flatMap.mpr ⟨(key, entry), he, hd⟩
    cases entry with
    | one dep =>
      simp only [walkEntry, returns_bind, returns_pure] at hc
      obtain ⟨id, _, hid, _, rfl⟩ := hc
      obtain ⟨hI', hR, hP⟩ := hone key dep .package (hleaf dep (by simp [Entry.leaves])) w id _ hI hid
      refine ⟨hI', hR, ?_⟩
      simp only [Entry.leaves, List.mem_singleton, forall_eq]
      exact ⟨id, hP⟩
    | scope members =>
      simp only [walkEntry, returns_bind, returns_pure] at hc
      obtain ⟨ids, _, hids, _, rfl⟩ := hc
      obtain ⟨hI', hR, hP⟩ := walkMembers_returns hrefl htrans hkeep
        (fun dep hd => hone key dep .scope (hleaf dep hd)) hI hids
      refine ⟨hI', hR, ?_⟩
      intro dep hd
      obtain ⟨id, _, hp⟩ := exists_of_forall₂ hP hd
      exact ⟨id, hp⟩
  obtain ⟨hI, hR, hall⟩ := returns_each (P := fun e _ w => ∀ dep ∈ e.2.leaves, ∃ id, P dep id w)
    hrefl htrans
    (fun e _ u v huv hP dep hd => (hP dep hd).imp fun id hid => hkeep dep id u v huv hid)
    hentry hw heach
  refine ⟨hI, hR, ?_⟩
  intro dep hd
  obtain ⟨e, he, hde⟩ := List.mem_flatMap.mp hd
  obtain ⟨_, _, hp⟩ := exists_of_forall₂ hall he
  exact hp dep hde

theorem walkMembers_raises {members : List Dependency} {company : Option String}
    (hone : ∀ dep ∈ members, ∀ w id w', I w → (one key dep base .scope).Returns w id w' → I w')
    (hw : I w) (h : (walkMembers one key base company members).Raises w e) :
    (∃ first found, e = .mixedScope key first found) ∨
      ∃ dep ∈ members, ∃ t, I t ∧ (one key dep base .scope).Raises t e := by
  induction members generalizing w company with
  | nil => exact absurd h raises_pure
  | cons member members ih =>
    simp only [walkMembers, raises_bind] at h
    obtain h | ⟨id, t, hid, h⟩ := h
    · exact Or.inr ⟨member, by simp, w, hw, h⟩
    have hI := hone member (by simp) w id t hw hid
    have hrest : (∃ first found, e = .mixedScope key first found) ∨
        ∃ company', (walkMembers one key base company' members).Raises t e := by
      split at h
      · split at h
        · exact Or.inl ⟨_, _, (raises_throw.mp h).symm⟩
        · simp only [raises_bind, raises_pure, and_false, exists_false, or_false] at h
          exact Or.inr ⟨_, h⟩
      · simp only [raises_bind, raises_pure, and_false, exists_false, or_false] at h
        exact Or.inr ⟨_, h⟩
    obtain hmixed | ⟨company', hr⟩ := hrest
    · exact Or.inl hmixed
    · obtain hmixed | ⟨dep, hd, hdep⟩ := ih (fun dep hd => hone dep (by simp [hd])) hI hr
      · exact Or.inl hmixed
      · exact Or.inr ⟨dep, by simp [hd], hdep⟩

/-- A walk of a table that raises does so over a scope, or in the walk of one of its dependencies. -/
theorem walkWith_raises {deps : Dependencies}
    (hone : ∀ key dep root, dep ∈ deps.leaves → ∀ w id w', I w →
      (one key dep base root).Returns w id w' → I w')
    (hw : I w) (h : (walkWith one deps base).Raises w e) :
    (∃ key first found, e = .mixedScope key first found) ∨
      ∃ key root, ∃ dep ∈ deps.leaves, ∃ t, I t ∧ (one key dep base root).Raises t e := by
  simp only [walkWith, raises_bind, raises_pure, and_false, exists_false, or_false] at h
  have hleaf : ∀ en ∈ deps, ∀ dep ∈ en.2.leaves, dep ∈ deps.leaves := fun en he dep hd =>
    List.mem_flatMap.mpr ⟨en, he, hd⟩
  have hentry : ∀ en ∈ deps, ∀ w c w', I w → (walkEntry one base en).Returns w c w' → I w' := by
    rintro ⟨key, entry⟩ he w c w' hI hc
    cases entry with
    | one dep =>
      simp only [walkEntry, returns_bind, returns_pure] at hc
      obtain ⟨id, _, hid, _, rfl⟩ := hc
      exact hone key dep .package (hleaf _ he dep (by simp [Entry.leaves])) w id _ hI hid
    | scope members =>
      simp only [walkEntry, returns_bind, returns_pure] at hc
      obtain ⟨ids, _, hids, _, rfl⟩ := hc
      have hmember : ∀ dep ∈ members, ∀ w id w', I w → (one key dep base .scope).Returns w id w' →
          I w' ∧ True ∧ True := fun dep hd w id w' hw hr =>
        ⟨hone key dep .scope (hleaf _ he dep hd) w id w' hw hr, trivial, trivial⟩
      exact (walkMembers_returns (R := fun _ _ => True) (P := fun _ _ _ => True)
        (fun _ => trivial) (fun _ _ _ _ _ => trivial) (fun _ _ _ _ _ _ => trivial) hmember hI
        hids).1
  obtain ⟨⟨key, entry⟩, he, t, hI, hr⟩ := raises_each hentry hw h
  cases entry with
  | one dep =>
    simp only [walkEntry, raises_bind, raises_pure, and_false, exists_false, or_false] at hr
    exact Or.inr ⟨key, .package, dep, hleaf _ he dep (by simp [Entry.leaves]), t, hI, hr⟩
  | scope members =>
    simp only [walkEntry, raises_bind, raises_pure, and_false, exists_false, or_false] at hr
    obtain ⟨first, found, hmixed⟩ | ⟨dep, hd, t', hI', hr'⟩ := walkMembers_raises
      (fun dep hd => hone key dep .scope (hleaf _ he dep hd)) hI hr
    · exact Or.inl ⟨key, first, found, hmixed⟩
    · exact Or.inr ⟨key, .scope, dep, hleaf _ he dep hd, t', hI', hr'⟩

end Walk

/-- The tables of the resolved graph: the root's, and that of every instance. -/
inductive Declares (W : World) (deps : Dependencies) (dir : String) (w : Walker) :
    Dependencies → String → Prop
  | root : Declares W deps dir w deps dir
  | instance {id : String} {inst : Instance} {m : Manifest}
      (hinst : w.instances.lookup id = some inst) (hread : W.readManifest inst.dir = .ok m) :
      Declares W deps dir w m.dependencies inst.dir

/-! ## Instances -/

/-- A registry dependency that no `[patch]` covers is counted, and its instance has the selected
version. -/
def Visited (cfg : Config) (w : Walker) (dep : Dependency) : Prop :=
  ∀ package req, dep = .registry (some package) req → cfg.patches.lookup package.identity = none →
    package.identity ∈ w.registryIds ∧ ∃ inst, w.instances.lookup package.identity = some inst ∧
      w.solution.lookup package.identity = some inst.version

/-- No instance is lost, and only its edges may be set. -/
def Grows (w w' : Walker) : Prop :=
  ∀ id inst, w.instances.lookup id = some inst →
    ∃ edges, w'.instances.lookup id = some { inst with edges := edges }

/-- A walk from `w` to `w'`: nothing is lost, and what every manifest of a new instance lists was
visited. -/
structure Walked (W : World) (cfg : Config) (w w' : Walker) : Prop where
  ids : ∀ n ∈ w.registryIds, n ∈ w'.registryIds
  solution : w'.solution = w.solution
  candidates : w'.candidates = w.candidates
  kept : Grows w w'
  visited : ∀ id inst, w'.instances.lookup id = some inst → w.instances.lookup id = none →
    ∀ m, W.readManifest inst.dir = .ok m → ∀ dep ∈ m.dependencies.leaves, Visited cfg w' dep

variable {dep : Dependency} {base key name : String} {version : Version} {e : PmError}

theorem Visited.mono (h : Visited cfg w dep) (hw : Walked W cfg w w') : Visited cfg w' dep := by
  intro package req hd hp
  obtain ⟨hi, inst, hinst, hsol⟩ := h package req hd hp
  obtain ⟨edges, he⟩ := hw.kept _ _ hinst
  exact ⟨hw.ids _ hi, _, he, by rw [hw.solution]; exact hsol⟩

theorem Walked.refl (w : Walker) : Walked W cfg w w where
  ids _ h := h
  solution := rfl
  candidates := rfl
  kept id inst h := ⟨inst.edges, h⟩
  visited id inst h hn := by simp [h] at hn

theorem Walked.trans {v : Walker} (h : Walked W cfg w w') (h' : Walked W cfg w' v) :
    Walked W cfg w v where
  ids n hn := h'.ids n (h.ids n hn)
  solution := h'.solution.trans h.solution
  candidates := h'.candidates.trans h.candidates
  kept id inst hl := by
    obtain ⟨edges, he⟩ := h.kept id inst hl
    obtain ⟨edges', he'⟩ := h'.kept id _ he
    exact ⟨edges', he'⟩
  visited id inst hl hn m hm dep hd := by
    cases hmid : w'.instances.lookup id with
    | none => exact h'.visited id inst hl hmid m hm dep hd
    | some mid =>
      obtain ⟨edges, he⟩ := h'.kept id mid hmid
      obtain rfl : inst = { mid with edges := edges } := by
        rw [hl] at he
        exact Option.some.inj he
      exact (h.visited id mid hmid hn m hm dep hd).mono h'

/-- A step that sets edges and nothing else. -/
structure Edged (w w' : Walker) : Prop where
  eq : w' = { w with instances := w'.instances }
  grows : Grows w w'
  back : Grows w' w

/-- A new instance, the walk of its table, then its edges. -/
theorem Walked.subtree {t t' t1 t2 : Walker} {id : String} {inst : Instance} {m : Manifest}
    (hnone : t.instances.lookup id = none)
    (hadd : t' = { t with instances := t.instances.insert id inst })
    (hwalk : Walked W cfg t' t1) (hset : Edged t1 t2) (hread : W.readManifest inst.dir = .ok m)
    (hall : ∀ dep ∈ m.dependencies.leaves, Visited cfg t1 dep) :
    Walked W cfg t t2 ∧ ∃ edges, t2.instances.lookup id = some { inst with edges := edges } := by
  have hlook : ∀ id', id' ≠ id → t'.instances.lookup id' = t.instances.lookup id' := by
    intro id' hne
    rw [hadd]
    exact AList.lookup_insert_ne hne
  have hids : ∀ n ∈ t1.registryIds, n ∈ t2.registryIds := by
    rw [hset.eq]
    exact fun _ h => h
  have hsol : t2.solution = t1.solution := by rw [hset.eq]
  have hvisited : ∀ dep, Visited cfg t1 dep → Visited cfg t2 dep := by
    intro dep hv package req hd hp
    obtain ⟨hi, inst, hl, hs⟩ := hv package req hd hp
    obtain ⟨e, he⟩ := hset.grows _ _ hl
    exact ⟨hids _ hi, _, he, by rw [hsol]; exact hs⟩
  have hself : t'.instances.lookup id = some inst := by
    rw [hadd]
    exact AList.lookup_insert _
  obtain ⟨e1, hself1⟩ := hwalk.kept _ _ hself
  obtain ⟨e2, hself2⟩ := hset.grows _ _ hself1
  refine ⟨⟨?_, ?_, ?_, ?_, ?_⟩, e2, hself2⟩
  · intro n hn
    exact hids n (hwalk.ids n (by rw [hadd]; exact hn))
  · rw [hsol, hwalk.solution, hadd]
  · rw [hset.eq]
    exact hwalk.candidates.trans (by rw [hadd])
  · intro id' inst' hl
    have hne : id' ≠ id := by
      intro heq
      rw [heq, hnone] at hl
      cases hl
    obtain ⟨e, he⟩ := hwalk.kept _ _ ((hlook id' hne).trans hl)
    obtain ⟨e', he'⟩ := hset.grows _ _ he
    exact ⟨e', he'⟩
  · intro id' inst' hl hn m' hm' dep hd
    by_cases hid : id' = id
    · subst hid
      rw [hself2] at hl
      cases hl
      have hm : W.readManifest inst.dir = .ok m' := hm'
      rw [hread] at hm
      cases hm
      exact hvisited dep (hall dep hd)
    · obtain ⟨e, he⟩ := hset.back _ _ hl
      exact hvisited dep (hwalk.visited id' _ he ((hlook id' hid).trans hn) m' hm' dep hd)

theorem Kept.grows (h : Kept w w') : Grows w w' :=
  fun _ inst hl => ⟨inst.edges, by rw [h.instances]; exact hl⟩

theorem Kept.walked (h : Kept w w') : Walked W cfg w w' where
  ids := h.ids
  solution := h.solution
  candidates := h.candidates
  kept := h.grows
  visited id inst hl hn := by
    rw [h.instances, hn] at hl
    cases hl

theorem Declares.mono {deps ds : Dependencies} {dir base : String}
    (h : Declares W deps dir w ds base) (hg : Grows w w') : Declares W deps dir w' ds base := by
  cases h with
  | root => exact .root
  | «instance» hinst hread =>
    obtain ⟨edges, he⟩ := hg _ _ hinst
    exact (Declares.instance he hread : Declares W deps dir w' _ _)

/-- Where the tree of an instance came from: a `[patch]`, a path or git dependency of the graph, or
the version that was selected. -/
inductive Origin (W : World) (cfg : Config) (deps : Dependencies) (dir : String) (w : Walker)
    (id : String) (inst : Instance) : Prop
  | overridden {id' : String} {patch : PatchOverride} (hpatch : cfg.patches.lookup id' = some patch)
      (hdir : inst.dir = patch.dir)
  | declared {ds : Dependencies} {base : String} {dep : Dependency}
      (hds : Declares W deps dir w ds base) (hmem : dep ∈ ds.leaves)
      (hdir : localDir W cfg base dep = some inst.dir)
  | selected {ds : Dependencies} {base : String} {package : PackageName} {req : VersionReq}
      {mat : Materialized} (hds : Declares W deps dir w ds base)
      (hmem : .registry (some package) req ∈ ds.leaves) (hid : package.identity = id)
      (hsol : w.solution.lookup id = some inst.version)
      (htree : TreeOf W cfg id inst.version mat) (hdir : inst.dir = mat.dir)
      (hsource : inst.source = mat.source)

/-- An instance is what stands at its directory. -/
structure Installed (W : World) (cfg : Config) (deps : Dependencies) (dir : String) (w : Walker)
    (id : String) (inst : Instance) : Prop where
  manifest : ∃ m pkg, W.readManifest inst.dir = .ok m ∧ m.package = some pkg ∧
    pkg.version = inst.version ∧ (cfg.patches.lookup id = none → pkg.name.identity = id)
  origin : Origin W cfg deps dir w id inst
  plain : cfg.patches.lookup id = none → inst.patched = false

section Installed

variable {deps : Dependencies} {dir id : String} {inst : Instance}

theorem Origin.mono (h : Origin W cfg deps dir w id inst) (hg : Grows w w')
    (hsol : w'.solution = w.solution) : Origin W cfg deps dir w' id inst := by
  cases h with
  | overridden hpatch hdir => exact .overridden hpatch hdir
  | declared hds hmem hdir => exact .declared (hds.mono hg) hmem hdir
  | selected hds hmem hid hs htree hdir hsource =>
    exact .selected (hds.mono hg) hmem hid (by rw [hsol]; exact hs) htree hdir hsource

theorem Installed.mono (h : Installed W cfg deps dir w id inst) (hg : Grows w w')
    (hsol : w'.solution = w.solution) : Installed W cfg deps dir w' id inst :=
  ⟨h.manifest, h.origin.mono hg hsol, h.plain⟩

theorem Installed.withEdges (h : Installed W cfg deps dir w id inst)
    (edges : List (String × List String)) :
    Installed W cfg deps dir w id { inst with edges := edges } where
  manifest := h.manifest
  origin := by
    cases h.origin with
    | overridden hpatch hdir => exact .overridden hpatch hdir
    | declared hds hmem hdir => exact .declared hds hmem hdir
    | selected hds hmem hid hsol htree hdir hsource =>
      exact .selected hds hmem hid hsol htree hdir hsource
  plain := h.plain

end Installed

/-! ## Installing -/

/-- Either the identity is there already, or the tree is added as it stands. -/
theorem install_spec {root : ScopeRoot} {tree : Tree} {new : Bool}
    (h : (install W cfg key root tree).Returns w new w') :
    ∃ pkg, tree.manifest.package = some pkg ∧
      ((new = false ∧ w' = w ∧
          ∃ inst, w.instances.lookup tree.identity = some inst ∧ inst.version = pkg.version) ∨
        (new = true ∧ w.instances.lookup tree.identity = none ∧ ∃ hash,
          w' = { w with instances :=
            w.instances.insert tree.identity (newInstance root tree pkg hash) })) := by
  simp only [install, returns_bind, returns_fromExcept] at h
  obtain ⟨pkg, _, ⟨hpkg, rfl⟩, _, _, ⟨_, rfl⟩, h⟩ := h
  refine ⟨pkg, packageOf_eq_ok.mp hpkg, ?_⟩
  obtain ⟨u, v, hget, h⟩ := h
  obtain ⟨hu, hv⟩ := returns_get.mp hget
  clear hget
  subst hu hv
  split at h
  · rename_i existing hex
    split at h
    · exact absurd h returns_throw
    · rename_i hv
      obtain ⟨rfl, rfl⟩ := returns_pure.mp h
      exact Or.inl ⟨rfl, rfl, existing, hex, not_not.mp hv⟩
  · rename_i hnone
    simp only [returns_bind] at h
    obtain ⟨_, t1, h1, _, t2, h2, hash, t3, h3, h⟩ := h
    have e1 : t1 = v := by
      unfold checkNative at h1
      split at h1
      · split at h1
        · exact (returns_ask.mp h1).2.symm
        · exact absurd h1 returns_throw
      · exact (returns_pure.mp h1).2.symm
    have e2 : t2 = t1 := by
      unfold checkDevNative at h2
      split at h2
      · exact (returns_ask.mp h2).2.symm
      · exact (returns_pure.mp h2).2.symm
    have e3 : t3 = t2 := by
      unfold contentHash at h3
      split at h3
      · exact (returns_pure.mp h3).2.symm
      · exact (returns_ask.mp h3).2.symm
    rw [e3, e2, e1] at h
    split at h
    · exact absurd h returns_throw
    · simp only [addInstance, returns_bind, returns_modify, returns_pure] at h
      obtain ⟨_, _, rfl, rfl, rfl⟩ := h
      exact Or.inr ⟨rfl, hnone, hash, rfl⟩

theorem lookup_setEdges {identity : String} {edges : List (String × List String)} {inst : Instance}
    (hinst : w.instances.lookup identity = some inst) {u : Unit}
    (h : (setEdges identity edges).Returns w u w') :
    w' = { w with instances := w'.instances } ∧ ∀ id, w'.instances.lookup id =
      if id = identity then some { inst with edges := edges } else w.instances.lookup id := by
  simp only [setEdges, returns_modify, hinst] at h
  subst h
  refine ⟨rfl, fun id => ?_⟩
  split
  · next hid => rw [hid, AList.lookup_insert]
  · next hid => exact AList.lookup_insert_ne hid

/-! ## The invariant -/

/-- `G` holds of the table of every tree that a dependency of a table in `G` stands for, while the
selection is `sol`. -/
def Guides (W : World) (cfg : Config) (sol : Map String Version)
    (G : Dependencies → String → Prop) : Prop :=
  ∀ ds base dep w tree mat manifest pkg, G ds base → dep ∈ Dependencies.leaves ds →
    w.solution = sol → Located W cfg w base dep tree mat manifest pkg →
      G tree.manifest.dependencies tree.dir

/-- What every state of a walk of the table `deps` at `dir` meets. -/
structure Settled (W : World) (cfg : Config) (deps : Dependencies) (dir : String)
    (sol : Map String Version) (G : Dependencies → String → Prop) (w : Walker) : Prop
    extends Ready W cfg w where
  solution : w.solution = sol
  installed : ∀ id inst, w.instances.lookup id = some inst → Installed W cfg deps dir w id inst
  guided : ∀ id inst m, w.instances.lookup id = some inst → W.readManifest inst.dir = .ok m →
    G m.dependencies inst.dir

section Settled

variable {deps ds : Dependencies} {dir base key : String} {sol : Map String Version}
  {G : Dependencies → String → Prop} {dep : Dependency} {tree : Tree} {mat : Materialized}
  {manifest : Manifest} {pkg : PackageMeta}

theorem Settled.kept (h : Settled W cfg deps dir sol G w) (hk : Kept w w') (hr : Ready W cfg w') :
    Settled W cfg deps dir sol G w' where
  toReady := hr
  solution := hk.solution.trans h.solution
  installed id inst hl :=
    (h.installed id inst (by rw [← hk.instances]; exact hl)).mono hk.grows hk.solution
  guided id inst m hl hm := h.guided id inst m (by rw [← hk.instances]; exact hl) hm

variable {inst : Instance}

theorem Located.origin (hloc : Located W cfg w base dep tree mat manifest pkg)
    (hds : Declares W deps dir w ds base) (hmem : dep ∈ ds.leaves)
    (hdir : inst.dir = tree.dir) (hsource : inst.source = tree.source)
    (hversion : ∀ pkg, tree.manifest.package = some pkg → inst.version = pkg.version) :
    Origin W cfg deps dir w tree.identity inst := by
  cases hp : cfg.patches.lookup tree.identity with
  | some patch => exact .overridden hp (hdir.trans (hloc.overridden patch hp).1)
  | none =>
    obtain ⟨h1, h2, h3, _⟩ := hloc.plain hp
    have hleads := hloc.leads
    cases dep with
    | path path package => exact .declared hds hmem (hleads.trans (by rw [hdir, h1]))
    | git url gitRef package => exact .declared hds hmem (hleads.trans (by rw [hdir, h1]))
    | registry package req =>
      cases package with
      | none => exact hleads.elim
      | some package =>
        cases hpatch : cfg.patches.lookup package.identity with
        | some patch =>
          simp only [Leads, RegistryTree, hpatch] at hleads
          exact .overridden hpatch (by rw [hdir, h1, hleads])
        | none =>
          obtain ⟨_, hid, _, hsol, htree, _⟩ := hloc.registry hpatch
          have hv : inst.version = pkg.version := hversion pkg (by rw [h3]; exact hloc.package)
          rw [hid]
          exact .selected hds hmem rfl (by rw [hsol, hv]) (by rw [hv]; exact htree) (by rw [hdir, h1])
            (by rw [hsource, h2])

theorem Located.package_identity (hloc : Located W cfg w base dep tree mat manifest pkg)
    (hpatch : cfg.patches.lookup tree.identity = none) :
    tree.manifest.package = some pkg ∧ pkg.name.identity = tree.identity := by
  obtain ⟨_, _, h3, _⟩ := hloc.plain hpatch
  exact ⟨by rw [h3]; exact hloc.package, hloc.identity.symm⟩

/-- What adding a tree that was looked up leaves. -/
theorem Settled.added (h : Settled W cfg deps dir sol G w)
    (hG : Guides W cfg sol G) (hds : Declares W deps dir w ds base) (hguide : G ds base)
    (hmem : dep ∈ ds.leaves) (hloc : Located W cfg w base dep tree mat manifest pkg)
    (hnone : w.instances.lookup tree.identity = none) {root : ScopeRoot} {tpkg : PackageMeta}
    (hpkg : tree.manifest.package = some tpkg) {hash : String} :
    Settled W cfg deps dir sol G
      { w with
        instances := w.instances.insert tree.identity (newInstance root tree tpkg hash) } := by
  have hread : W.readManifest tree.dir = .ok tree.manifest := hloc.manifest_read
  have hgrows : Grows w
      { w with
        instances := w.instances.insert tree.identity (newInstance root tree tpkg hash) } := by
    intro id inst hl
    have hne : id ≠ tree.identity := by
      intro heq
      rw [heq, hnone] at hl
      cases hl
    exact ⟨inst.edges, by simp only [AList.lookup_insert_ne hne]; exact hl⟩
  refine ⟨⟨h.memo.mono rfl (fun _ h => h) rfl, h.candidates⟩, h.solution, ?_, ?_⟩
  · intro id inst hl
    by_cases hid : id = tree.identity
    · subst hid
      simp only [AList.lookup_insert, Option.some.injEq] at hl
      subst hl
      refine ⟨⟨tree.manifest, tpkg, hread, hpkg, rfl, fun hp => ?_⟩, Origin.mono ?_ hgrows rfl,
        fun hp => ?_⟩
      · obtain ⟨hpkg', hname⟩ := hloc.package_identity hp
        rw [hpkg] at hpkg'
        cases hpkg'
        exact hname
      · refine hloc.origin hds hmem rfl rfl fun pkg' hpkg' => ?_
        rw [hpkg] at hpkg'
        cases hpkg'
        rfl
      · exact (hloc.plain hp).2.2.2
    · simp only [AList.lookup_insert_ne hid] at hl
      exact (h.installed id inst hl).mono hgrows rfl
  · intro id inst m hl hm
    by_cases hid : id = tree.identity
    · subst hid
      simp only [AList.lookup_insert, Option.some.injEq] at hl
      subst hl
      have hm' : W.readManifest tree.dir = .ok m := hm
      rw [hread] at hm'
      cases hm'
      exact hG _ _ _ _ _ _ _ _ hguide hmem h.solution hloc
    · simp only [AList.lookup_insert_ne hid] at hl
      exact h.guided id inst m hl hm

/-- Setting the edges of an instance that was already there before the walk of its table began. -/
theorem Settled.edged (h : Settled W cfg deps dir sol G w) {id : String}
    (hinst : w.instances.lookup id = some inst) {edges : List (String × List String)} {u : Unit}
    (hset : (setEdges id edges).Returns w u w') :
    Settled W cfg deps dir sol G w' ∧ Edged w w' := by
  obtain ⟨hw, hlook⟩ := lookup_setEdges hinst hset
  have hback : Grows w' w := by
    intro id' inst' hl
    rw [hlook] at hl
    split at hl
    · next hid =>
        subst hid
        cases hl
        exact ⟨inst.edges, hinst⟩
    · exact ⟨inst'.edges, hl⟩
  have hgrows : Grows w w' := by
    intro id' inst' hl
    rw [hlook]
    split
    · next hid =>
        subst hid
        rw [hinst] at hl
        cases hl
        exact ⟨edges, rfl⟩
    · exact ⟨inst'.edges, hl⟩
  have hsol : w'.solution = w.solution := by rw [hw]
  refine ⟨⟨⟨h.memo.mono (by rw [hw]) (fun n hn => by rw [hw]; exact hn) hsol, ?_⟩,
    hsol.trans h.solution, ?_, ?_⟩, hw, hgrows, hback⟩
  · intro name rs hl
    rw [hw] at hl
    exact h.candidates name rs hl
  · intro id' inst' hl
    obtain ⟨edges', hl0⟩ := hback id' inst' hl
    exact ((h.installed id' _ hl0).mono hgrows hsol).withEdges inst'.edges
  · intro id' inst' m hl hm
    obtain ⟨edges', hl0⟩ := hback id' inst' hl
    have hg := h.guided id' _ m hl0 hm
    exact hg

/-! ## Walking -/

theorem Located.visited (hloc : Located W cfg w base dep tree mat manifest pkg)
    (hinst : w'.instances.lookup tree.identity = some inst)
    (hversion : ∀ pkg, tree.manifest.package = some pkg → inst.version = pkg.version)
    (hids : ∀ n ∈ w.registryIds, n ∈ w'.registryIds) (hsol : w'.solution = w.solution) :
    Visited cfg w' dep := by
  intro package req hd hp
  subst hd
  obtain ⟨_, hid, hcount, hs, _, _, _, hm, _⟩ := hloc.registry hp
  rw [hid] at hinst
  refine ⟨hids _ hcount, inst, hinst, ?_⟩
  rw [hsol, hs, hversion pkg (by rw [hm]; exact hloc.package)]

/-- One dependency: by induction on the fuel, the tables below the new instance being walked with less
of it. -/
theorem walkOne_spec (fuel : Nat) {root : ScopeRoot} {id : String}
    (hG : Guides W cfg sol G) (h : Settled W cfg deps dir sol G w)
    (hds : Declares W deps dir w ds base) (hguide : G ds base) (hmem : dep ∈ ds.leaves)
    (hret : (walkOne W cfg fuel key dep base root).Returns w id w') :
    Settled W cfg deps dir sol G w' ∧ Walked W cfg w w' ∧ Visited cfg w' dep := by
  induction fuel generalizing key dep base root w id w' ds with
  | zero => exact absurd hret returns_cut
  | succ fuel ih =>
    simp only [walkOne, returns_bind] at hret
    obtain ⟨tree, t, hlocate, new, t', hinst, hret⟩ := hret
    obtain ⟨hready, hk, mat, manifest, pkg, hloc⟩ := locate_spec h.toReady hlocate
    have ht : Settled W cfg deps dir sol G t := h.kept hk hready
    have hdt : Declares W deps dir t ds base := hds.mono hk.grows
    obtain ⟨tpkg, htpkg, ⟨hnew, hsame, existing, hex, hv⟩ | ⟨hnew, hnone, hash, hadd⟩⟩ :=
      install_spec hinst
    · rw [hnew] at hret
      simp only [Bool.false_eq_true, if_false, returns_pure] at hret
      obtain ⟨_, hw'⟩ := hret
      rw [hsame] at hw'
      rw [← hw']
      refine ⟨ht, hk.walked, hloc.visited hex ?_ (fun _ h => h) rfl⟩
      intro pkg' hpkg'
      rw [htpkg] at hpkg'
      cases hpkg'
      exact hv
    · rw [hnew] at hret
      simp only [if_true, returns_bind, returns_pure] at hret
      obtain ⟨edges, t1, hwalk, _, t2, hset, _, hw'⟩ := hret
      rw [← hw']
      have hread : W.readManifest tree.dir = .ok tree.manifest := hloc.manifest_read
      have hadded : Settled W cfg deps dir sol G t' := by
        rw [hadd]
        exact ht.added hG hdt hguide hmem hloc hnone htpkg
      have hself : t'.instances.lookup tree.identity = some (newInstance root tree tpkg hash) := by
        rw [hadd]
        exact AList.lookup_insert _
      have hdecl : Declares W deps dir t' tree.manifest.dependencies tree.dir :=
        .instance hself hread
      have hnext : G tree.manifest.dependencies tree.dir :=
        hG _ _ _ _ _ _ _ _ hguide hmem ht.solution hloc
      obtain ⟨⟨hs1, hd1⟩, hw1, hall⟩ := walkWith_returns
        (I := fun w => Settled W cfg deps dir sol G w ∧
          Declares W deps dir w tree.manifest.dependencies tree.dir)
        (R := Walked W cfg) (P := fun dep _ w => Visited cfg w dep)
        Walked.refl (fun _ _ _ => Walked.trans) (fun _ _ _ _ hR hP => hP.mono hR)
        (fun key dep root hd w id w' hI hr => by
          obtain ⟨hs, hwk, hv⟩ := ih hI.1 hI.2 hnext hd hr
          exact ⟨⟨hs, hI.2.mono hwk.kept⟩, hwk, hv⟩)
        ⟨hadded, hdecl⟩ hwalk
      obtain ⟨edges1, hself1⟩ := hw1.kept _ _ hself
      obtain ⟨hs2, hset2⟩ := hs1.edged hself1 hset
      obtain ⟨hw2, edges2, hself2⟩ := Walked.subtree hnone hadd hw1 hset2 hread
        fun dep hd => (hall dep hd).elim fun _ hv => hv
      refine ⟨hs2, hk.walked.trans hw2, hloc.visited hself2 ?_ hw2.ids hw2.solution⟩
      intro pkg' hpkg'
      rw [htpkg] at hpkg'
      cases hpkg'
      rfl

theorem walk_spec (fuel : Nat) {edges : List (String × List String)} (hG : Guides W cfg sol G)
    (h : Settled W cfg deps dir sol G w) (hguide : G deps dir)
    (hret : (walk W cfg fuel deps dir).Returns w edges w') :
    Settled W cfg deps dir sol G w' ∧ Walked W cfg w w' ∧
      ∀ dep ∈ deps.leaves, Visited cfg w' dep := by
  obtain ⟨hs, hw, hall⟩ := walkWith_returns (I := Settled W cfg deps dir sol G)
    (R := Walked W cfg) (P := fun dep _ w => Visited cfg w dep)
    Walked.refl (fun _ _ _ => Walked.trans) (fun _ _ _ _ hR hP => hP.mono hR)
    (fun key dep root hd w id w' hI hr => walkOne_spec fuel hG hI .root hguide hd hr) h hret
  exact ⟨hs, hw, fun dep hd => (hall dep hd).elim fun _ hv => hv⟩

end Settled

/-! ## What is not selected -/

/-- The walk came to an identity that was not selected. -/
def NotSelected (e : PmError) : Prop := ∃ key identity, e = .notSelected key identity

theorem spares_ask {α : Type} (r : Except Outside α) : Spares NotSelected (ask r) := by
  intro s e h ⟨key, identity, he⟩
  obtain ⟨report, _, hr⟩ := raises_ask.mp h
  rw [he] at hr
  cases hr

theorem spares_fetchGit {url : String} {gitRef : GitRef} {sha clone : Option String} :
    Spares NotSelected (fetchGit W cfg url gitRef sha clone) :=
  (spares_ask _).bind fun _ => Spares.pure _

theorem spares_carryPin : Spares NotSelected (carryPin cfg key) := by
  unfold carryPin
  split
  · exact Spares.modify _
  · exact Spares.pure _

theorem spares_verifyAction {release : Release} {action : ProvenanceAction} :
    Spares NotSelected (verifyAction W name release action) := by
  unfold verifyAction
  split
  · exact Spares.pure _
  · exact Spares.modify _
  · exact (spares_ask _).bind fun _ => Spares.modify _
  · exact (spares_ask _).bind fun _ => Spares.modify _

theorem spares_checkProvenance {release : Release} {servedKey : Option String} :
    Spares NotSelected (checkProvenance W cfg key name release servedKey) := by
  unfold checkProvenance
  split
  · exact Spares.throw (by simp [NotSelected])
  · split
    · exact Spares.throw (by simp [NotSelected])
    · exact spares_verifyAction

theorem spares_selectedRelease : Spares NotSelected (selectedRelease W key name version) := by
  refine Spares.get.bind fun w => ?_
  split
  · exact Spares.pure _
  · refine (spares_ask _).bind fun releases => ?_
    split
    · exact Spares.pure _
    · exact Spares.throw (by simp [NotSelected])

theorem spares_materializeIndexed {package : PackageName} :
    Spares NotSelected (materializeIndexed W cfg key package version) :=
  (spares_ask _).bind fun _ => spares_selectedRelease.bind fun _ =>
    spares_checkProvenance.bind fun _ => spares_fetchGit

theorem spares_materializeVersion {package : PackageName} :
    Spares NotSelected (materializeVersion W cfg key package version) := by
  unfold materializeVersion
  split
  · split
    · exact (spares_carryPin.bind fun _ => spares_carryPin).bind fun _ => spares_fetchGit
    · exact spares_materializeIndexed
  · exact spares_materializeIndexed

/-- The dependency is on the registry, and no version of it was selected. -/
abbrev Unselected (cfg : Config) (w : Walker) (dep : Dependency) : Prop :=
  ∃ package req, dep = .registry (some package) req ∧
    cfg.patches.lookup package.identity = none ∧ w.solution.lookup package.identity = none

theorem materializeUncached_raises
    (h : (materializeUncached W cfg key dep base).Raises w e) (he : NotSelected e) : Unselected cfg w dep := by
  unfold materializeUncached at h
  split at h
  · exact absurd h raises_pure
  · exact absurd he (spares_fetchGit _ _ h)
  · rw [← raises_throw.mp h] at he
    simp [NotSelected] at he
  · rename_i package req
    split at h
    · exact absurd h raises_pure
    · rename_i hpatch
      refine ⟨package, req, rfl, hpatch, ?_⟩
      simp only [materializeSelected, countRegistry, raises_bind, raises_modify, returns_modify,
        false_or] at h
      obtain ⟨_, t, ht, h⟩ := h
      split at h
      · rw [← raises_throw.mp h] at he
        simp [NotSelected] at he
      · simp only [raises_bind, raises_get, returns_get, false_or] at h
        obtain ⟨_, _, ⟨rfl, rfl⟩, h⟩ := h
        split at h
        · rename_i hnone
          rw [ht] at hnone
          exact hnone
        · exact absurd he (spares_materializeVersion _ _ h)

theorem materialize_raises (h : (materialize W cfg key dep base).Raises w e) (he : NotSelected e) :
    Unselected cfg w dep := by
  unfold materialize at h
  split at h
  · exact materializeUncached_raises h he
  · simp only [raises_bind, raises_get, returns_get, false_or] at h
    obtain ⟨_, _, ⟨rfl, rfl⟩, h⟩ := h
    split at h
    · exact absurd h raises_pure
    · simp only [raises_bind, raises_modify, raises_pure, and_false, exists_false, or_false] at h
      exact materializeUncached_raises h he

theorem locate_raises (h : (locate W cfg key dep base).Raises w e) (he : NotSelected e) :
    Unselected cfg w dep := by
  rw [locate, raises_bind] at h
  obtain h | ⟨mat, t, _, h⟩ := h
  · exact materialize_raises h he
  refine absurd he (Spares.bind (spares_ask _) (fun manifest => ?_) t e h)
  refine (Spares.fromExcept fun e' he' => ?_).bind fun pkg => Spares.get.bind fun w =>
    (Spares.fromExcept fun e' he' => ?_).bind fun _ => ?_
  · unfold packageOf at he'
    split at he' <;> cases he'
    simp [NotSelected]
  · unfold checkDeclaredIdentity at he'
    rintro ⟨k, i, rfl⟩
    repeat' split at he'
    all_goals cases he'
  · dsimp only
    split
    · exact Spares.pure _
    · split
      · exact Spares.pure _
      · exact (spares_ask _).bind fun _ => Spares.pure _

theorem spares_install {root : ScopeRoot} {tree : Tree} :
    Spares NotSelected (install W cfg key root tree) := by
  refine (Spares.fromExcept fun e he => ?_).bind fun pkg =>
    (Spares.fromExcept fun e he => ?_).bind fun _ => Spares.get.bind fun w => ?_
  · unfold packageOf at he
    split at he <;> cases he
    simp [NotSelected]
  · unfold checkToolchainReq at he
    split at he
    · cases he
    · split at he <;> cases he
      simp [NotSelected]
  split
  · split
    · exact Spares.throw (by simp [NotSelected])
    · exact Spares.pure _
  · have hnative : Spares NotSelected (checkNative W cfg key tree.identity tree.dir pkg) := by
      unfold checkNative
      split
      · split
        · exact spares_ask _
        · exact Spares.throw (by simp [NotSelected])
      · exact Spares.pure _
    have hdev : Spares NotSelected (checkDevNative W tree.dir pkg) := by
      unfold checkDevNative
      split
      · exact spares_ask _
      · exact Spares.pure _
    have hhash : Spares NotSelected (contentHash W tree) := by
      unfold contentHash
      split
      · exact Spares.pure _
      · exact spares_ask _
    refine hnative.bind fun _ => hdev.bind fun _ => hhash.bind fun hash => ?_
    split
    · exact Spares.throw (by simp [NotSelected])
    · exact (Spares.modify _).bind fun _ => Spares.pure _

section Selected

variable {deps ds : Dependencies} {dir base key : String} {sol : Map String Version}
  {G : Dependencies → String → Prop} {dep : Dependency} {e : PmError}

/-- Every registry dependency of a table in `G` that no `[patch]` covers was selected. -/
def Selects (cfg : Config) (sol : Map String Version) (G : Dependencies → String → Prop) : Prop :=
  ∀ ds base package req, G ds base → .registry (some package) req ∈ Dependencies.leaves ds →
    cfg.patches.lookup package.identity = none → (sol.lookup package.identity).isSome

theorem walkOne_selected (fuel : Nat) {root : ScopeRoot} (hG : Guides W cfg sol G)
    (hsel : Selects cfg sol G) (h : Settled W cfg deps dir sol G w)
    (hds : Declares W deps dir w ds base) (hguide : G ds base) (hmem : dep ∈ ds.leaves)
    (hraise : (walkOne W cfg fuel key dep base root).Raises w e) : ¬ NotSelected e := by
  intro he
  induction fuel generalizing key dep base root w ds with
  | zero => exact absurd hraise raises_cut
  | succ fuel ih =>
    simp only [walkOne, raises_bind] at hraise
    obtain hraise | ⟨tree, t, hlocate, hraise⟩ := hraise
    · obtain ⟨package, req, hd, hpatch, hnone⟩ := locate_raises hraise he
      subst hd
      have hsome := hsel ds base package req hguide hmem hpatch
      rw [← h.solution, hnone] at hsome
      cases hsome
    obtain ⟨hready, hk, mat, manifest, pkg, hloc⟩ := locate_spec h.toReady hlocate
    have ht : Settled W cfg deps dir sol G t := h.kept hk hready
    have hdt : Declares W deps dir t ds base := hds.mono hk.grows
    obtain hraise | ⟨new, t', hinst, hraise⟩ := hraise
    · exact spares_install _ _ hraise he
    obtain ⟨tpkg, htpkg, ⟨hnew, _⟩ | ⟨hnew, hnone, hash, hadd⟩⟩ := install_spec hinst
    · rw [hnew] at hraise
      simp at hraise
    rw [hnew] at hraise
    have hnext : G tree.manifest.dependencies tree.dir :=
      hG _ _ _ _ _ _ _ _ hguide hmem ht.solution hloc
    have hadded : Settled W cfg deps dir sol G t' := by
      rw [hadd]
      exact ht.added hG hdt hguide hmem hloc hnone htpkg
    have hdecl : Declares W deps dir t' tree.manifest.dependencies tree.dir := by
      have hself : t'.instances.lookup tree.identity =
          some (newInstance root tree tpkg hash) := by
        rw [hadd]
        exact AList.lookup_insert _
      exact .instance hself hloc.manifest_read
    simp only [if_true, raises_bind, raises_pure, setEdges, raises_modify, and_false, exists_false,
      or_false] at hraise
    obtain ⟨_, _, _, hmixed⟩ | ⟨key', root', dep', hd', t1, ⟨hI, hD⟩, hr⟩ := walkWith_raises
      (I := fun w => Settled W cfg deps dir sol G w ∧
        Declares W deps dir w tree.manifest.dependencies tree.dir)
      (fun key dep root hd w id w' hI hr => by
        obtain ⟨hs, hwk, _⟩ := walkOne_spec fuel hG hI.1 hI.2 hnext hd hr
        exact ⟨hs, hI.2.mono hwk.kept⟩)
      ⟨hadded, hdecl⟩ hraise
    · rw [hmixed] at he
      simp [NotSelected] at he
    · exact ih hI hD hnext hd' hr

theorem walk_selected (fuel : Nat) (hG : Guides W cfg sol G) (hsel : Selects cfg sol G)
    (h : Settled W cfg deps dir sol G w) (hguide : G deps dir)
    (hraise : (walk W cfg fuel deps dir).Raises w e) : ¬ NotSelected e := by
  obtain ⟨_, _, _, hmixed⟩ | ⟨key, root, dep, hd, t, hI, hr⟩ := walkWith_raises
    (I := Settled W cfg deps dir sol G)
    (fun key dep root hd w id w' hI hr => (walkOne_spec fuel hG hI .root hguide hd hr).1) h hraise
  · rw [hmixed]
    simp [NotSelected]
  · exact walkOne_selected fuel hG hsel hI .root hguide hd hr

end Selected

end Noeta.Pm
