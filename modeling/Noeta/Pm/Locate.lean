import Noeta.Pm.Graph
import Noeta.Pm.LockRoundTrip

/-!
# What a source leads to

What the memo, the lock and the index give for one dependency, and what looking for it leaves alone. The
memo is transparent: what is remembered of a source is what the source leads to.
-/

namespace Noeta.Pm

open Semver Lockfile Requirement Fallible

variable {W : World} {cfg : Config} {w w' : Walker}

@[simp] theorem returns_ask {α : Type} {r : Except Outside α} {a : α} :
    (ask r).Returns w a w' ↔ r = .ok a ∧ w = w' := by
  cases r <;> simp [ask, Except.mapError]

@[simp] theorem raises_ask {α : Type} {r : Except Outside α} {e : PmError} :
    (ask r).Raises w e ↔ ∃ report, r = .error report ∧ .outside report = e := by
  cases r <;> simp [ask, Except.mapError]

/-! ## What materialising leaves alone -/

/-- A step that installs nothing and selects nothing. -/
structure Kept (w w' : Walker) : Prop where
  instances : w'.instances = w.instances
  solution : w'.solution = w.solution
  candidates : w'.candidates = w.candidates
  patchedVersions : w'.patchedVersions = w.patchedVersions
  pathGit : w'.pathGit = w.pathGit
  registryQueue : w'.registryQueue = w.registryQueue
  ids : ∀ n ∈ w.registryIds, n ∈ w'.registryIds

/-- Such a step that also leaves the memo and the counted identities. -/
structure Untouched (w w' : Walker) : Prop extends Kept w w' where
  matMemo : w'.matMemo = w.matMemo
  registryIds : w'.registryIds = w.registryIds

theorem Untouched.refl (w : Walker) : Untouched w w :=
  ⟨⟨rfl, rfl, rfl, rfl, rfl, rfl, fun _ h => h⟩, rfl, rfl⟩

theorem Kept.trans {v : Walker} (h : Kept w w') (h' : Kept w' v) : Kept w v where
  instances := h'.instances.trans h.instances
  solution := h'.solution.trans h.solution
  candidates := h'.candidates.trans h.candidates
  patchedVersions := h'.patchedVersions.trans h.patchedVersions
  pathGit := h'.pathGit.trans h.pathGit
  registryQueue := h'.registryQueue.trans h.registryQueue
  ids n hn := h'.ids n (h.ids n hn)

theorem Untouched.trans {v : Walker} (h : Untouched w w') (h' : Untouched w' v) : Untouched w v where
  toKept := h.toKept.trans h'.toKept
  matMemo := h'.matMemo.trans h.matMemo
  registryIds := h'.registryIds.trans h.registryIds

variable {mat : Materialized} {key name base : String} {u : Unit} {release : Release} {version : Version}
  {package : PackageName} {dep : Dependency}

theorem fetchGit_returns {url : String} {gitRef : GitRef} {sha clone : Option String}
    (h : (fetchGit W cfg url gitRef sha clone).Returns w mat w') :
    w' = w ∧ ∃ fetched, W.fetch (clone.getD url) gitRef ((cfg.lock.gitPin url gitRef).or sha) =
      .ok fetched ∧ mat = ⟨fetched.path, .git url gitRef fetched.sha, some fetched.contentHash⟩ := by
  simp only [fetchGit, returns_bind, returns_ask, returns_pure] at h
  obtain ⟨fetched, _, ⟨hf, rfl⟩, rfl, rfl⟩ := h
  exact ⟨rfl, fetched, hf, rfl⟩

theorem pinTrust_untouched {trust : ScopeTrust}
    (h : (pinTrust key trust).Returns w u w') : Untouched w w' := by
  simp only [pinTrust, returns_modify] at h
  subst h
  exact ⟨⟨rfl, rfl, rfl, rfl, rfl, rfl, fun _ h => h⟩, rfl, rfl⟩

theorem carryPin_untouched (h : (carryPin cfg key).Returns w u w') : Untouched w w' := by
  unfold carryPin at h
  split at h
  · exact pinTrust_untouched h
  · rw [← (returns_pure.mp h).2]
    exact Untouched.refl w

theorem carryTrust_untouched {name scope : String}
    (h : (carryTrust cfg name scope).Returns w u w') : Untouched w w' := by
  simp only [carryTrust, returns_bind] at h
  obtain ⟨_, t, h1, h2⟩ := h
  exact (carryPin_untouched h1).trans (carryPin_untouched h2)

theorem verifyAction_untouched {action : ProvenanceAction}
    (h : (verifyAction W name release action).Returns w u w') : Untouched w w' := by
  unfold verifyAction at h
  split at h
  · rw [← (returns_pure.mp h).2]
    exact Untouched.refl w
  · exact pinTrust_untouched h
  · simp only [returns_bind, returns_ask] at h
    obtain ⟨_, _, ⟨_, rfl⟩, h⟩ := h
    exact pinTrust_untouched h
  · simp only [returns_bind, returns_ask] at h
    obtain ⟨_, _, ⟨_, rfl⟩, h⟩ := h
    exact pinTrust_untouched h

theorem checkProvenance_untouched {servedKey : Option String}
    (h : (checkProvenance W cfg key name release servedKey).Returns w u w') : Untouched w w' := by
  unfold checkProvenance at h
  split at h
  · exact absurd h returns_throw
  · split at h
    · exact absurd h returns_throw
    · exact verifyAction_untouched h

/-! ## Where a tree comes from -/

/-- The candidates a solve kept are releases the index serves. -/
def CandidatesServed (W : World) (w : Walker) : Prop :=
  ∀ name rs, w.candidates.lookup name = some rs →
    ∃ served, W.releases name = .ok served ∧ ∀ r ∈ rs, r ∈ served

/-- The tree of a selected version: fetched at the lock's coordinates, or at those of a release. -/
inductive TreeOf (W : World) (cfg : Config) (name : String) (version : Version) :
    Materialized → Prop
  | locked {url tag sha : String} {pin : Option String} {f : Fetched}
      (hcoords : cfg.lock.registryCoords name = some (url, tag, sha))
      (hversion : cfg.lock.lockedVersion name = some version)
      (hfetch : W.fetch url (.tag tag) pin = .ok f) :
      TreeOf W cfg name version ⟨f.path, .git url (.tag tag) f.sha, some f.contentHash⟩
  | served {served : List Release} {release : Release} {source : String} {pin : Option String}
      {f : Fetched} (hserved : W.releases name = .ok served) (hmem : release ∈ served)
      (hversion : release.version = version)
      (hsource : source = release.coords.url ∨ W.localRepo name = some source)
      (hfetch : W.fetch source (.tag release.coords.tag) pin = .ok f) :
      TreeOf W cfg name version
        ⟨f.path, .git release.coords.url (.tag release.coords.tag) f.sha, some f.contentHash⟩

theorem selectedRelease_returns
    (hc : CandidatesServed W w) (h : (selectedRelease W key name version).Returns w release w') :
    w' = w ∧ release.version = version ∧
      ∃ served, W.releases name = .ok served ∧ release ∈ served := by
  simp only [selectedRelease, returns_get_bind] at h
  split at h
  · rename_i found hfind
    obtain ⟨rfl, rfl⟩ := returns_pure.mp h
    have hv : found.version = version := by simpa using List.find?_some hfind
    have hmem := List.mem_of_find?_eq_some hfind
    cases hl : w.candidates.lookup name with
    | none => simp [hl] at hmem
    | some rs =>
      obtain ⟨served, hs, hall⟩ := hc name rs hl
      exact ⟨rfl, hv, served, hs, hall _ (by simpa [hl] using hmem)⟩
  · simp only [returns_bind, returns_ask] at h
    obtain ⟨releases, _, ⟨hr, rfl⟩, h⟩ := h
    split at h
    · rename_i found hfind
      obtain ⟨rfl, rfl⟩ := returns_pure.mp h
      exact ⟨rfl, by simpa using List.find?_some hfind, releases, hr,
        List.mem_of_find?_eq_some hfind⟩
    · exact absurd h returns_throw

theorem materializeIndexed_spec (hc : CandidatesServed W w)
    (h : (materializeIndexed W cfg key package version).Returns w mat w') :
    Untouched w w' ∧ TreeOf W cfg package.identity version mat := by
  simp only [materializeIndexed, returns_bind, returns_ask] at h
  obtain ⟨_, _, ⟨_, rfl⟩, release, t, hr, _, t', hp, hf⟩ := h
  obtain ⟨rfl, hv, served, hs, hmem⟩ := selectedRelease_returns hc hr
  obtain ⟨rfl, f, hfetch, rfl⟩ := fetchGit_returns hf
  refine ⟨checkProvenance_untouched hp, .served hs hmem hv ?_ hfetch⟩
  cases hrepo : W.localRepo package.identity with
  | none => exact Or.inl rfl
  | some source => exact Or.inr rfl

theorem materializeVersion_spec (hc : CandidatesServed W w)
    (h : (materializeVersion W cfg key package version).Returns w mat w') :
    Untouched w w' ∧ TreeOf W cfg package.identity version mat := by
  unfold materializeVersion at h
  split at h
  · rename_i url tag sha hcoords
    split at h
    · rename_i hversion
      simp only [returns_bind] at h
      obtain ⟨_, t, hcarry, hf⟩ := h
      obtain ⟨rfl, f, hfetch, rfl⟩ := fetchGit_returns hf
      exact ⟨carryTrust_untouched hcarry, .locked hcoords hversion hfetch⟩
    · exact materializeIndexed_spec hc h
  · exact materializeIndexed_spec hc h

theorem materializeSelected_spec
    (hc : CandidatesServed W w) (h : (materializeSelected W cfg key package).Returns w mat w') :
    Kept w w' ∧ w'.matMemo = w.matMemo ∧ package.identity ∈ w'.registryIds ∧
      ∃ version, w.solution.lookup package.identity = some version ∧
        TreeOf W cfg package.identity version mat := by
  simp only [materializeSelected, countRegistry, returns_bind, returns_modify] at h
  obtain ⟨_, _, rfl, h⟩ := h
  split at h
  · exact absurd h returns_throw
  rw [returns_get_bind] at h
  split at h
  · exact absurd h returns_throw
  · rename_i version hsol
    obtain ⟨hu, htree⟩ := materializeVersion_spec (by exact hc) h
    have hcount : Kept w { w with registryIds := package.identity :: w.registryIds } :=
      ⟨rfl, rfl, rfl, rfl, rfl, rfl, fun n hn => List.mem_cons_of_mem _ hn⟩
    exact ⟨hcount.trans hu.toKept, hu.matMemo, hu.ids _ (by simp), version, hsol, htree⟩

/-- The tree a path or git dependency leads to. -/
def localDir (W : World) (cfg : Config) (base : String) : Dependency → Option String
  | .path path _ => some (W.canonicalize (W.join base path))
  | .git url gitRef _ =>
    match W.fetch url gitRef (cfg.lock.gitPin url gitRef) with
    | .ok fetched => some fetched.path
    | .error _ => none
  | .registry _ _ => none

/-- What a registry identity leads to: its patch, or else the tree of its selected version, counted. -/
def RegistryTree (W : World) (cfg : Config) (w : Walker) (name : String) (mat : Materialized) :
    Prop :=
  match cfg.patches.lookup name with
  | some patch => mat.dir = patch.dir
  | none => name ∈ w.registryIds ∧
      ∃ version, w.solution.lookup name = some version ∧ TreeOf W cfg name version mat

/-- What a dependency of a table at `base` leads to. -/
def Leads (W : World) (cfg : Config) (w : Walker) (base : String) (mat : Materialized) :
    Dependency → Prop
  | .registry (some package) _ => RegistryTree W cfg w package.identity mat
  | .registry none _ => False
  | dep => localDir W cfg base dep = some mat.dir

/-- What is remembered of a source is what it leads to. -/
structure MemoTrue (W : World) (cfg : Config) (w : Walker) : Prop where
  path : ∀ joined mat, w.matMemo.lookup (.path joined) = some mat →
    mat.dir = W.canonicalize joined
  git : ∀ url gitRef mat, w.matMemo.lookup (.git url gitRef.lockKey) = some mat →
    ∃ fetched, W.fetch url gitRef (cfg.lock.gitPin url gitRef) = .ok fetched ∧
      mat.dir = fetched.path
  reg : ∀ name mat, w.matMemo.lookup (.reg name) = some mat → RegistryTree W cfg w name mat

theorem RegistryTree.mono (h : RegistryTree W cfg w name mat)
    (hids : ∀ n ∈ w.registryIds, n ∈ w'.registryIds) (hsol : w'.solution = w.solution) :
    RegistryTree W cfg w' name mat := by
  unfold RegistryTree at h ⊢
  split at h
  · exact h
  · obtain ⟨hi, version, hs, ht⟩ := h
    exact ⟨hids _ hi, version, by rw [hsol]; exact hs, ht⟩

theorem Leads.mono (h : Leads W cfg w base mat dep) (hids : ∀ n ∈ w.registryIds, n ∈ w'.registryIds)
    (hsol : w'.solution = w.solution) : Leads W cfg w' base mat dep := by
  cases dep with
  | path path package => exact h
  | git url gitRef package => exact h
  | registry package req =>
    cases package with
    | none => exact h
    | some package => exact RegistryTree.mono h hids hsol

theorem MemoTrue.mono (h : MemoTrue W cfg w) (hmemo : w'.matMemo = w.matMemo)
    (hids : ∀ n ∈ w.registryIds, n ∈ w'.registryIds) (hsol : w'.solution = w.solution) :
    MemoTrue W cfg w' where
  path joined mat hl := h.path joined mat (by rw [← hmemo]; exact hl)
  git url gitRef mat hl := h.git url gitRef mat (by rw [← hmemo]; exact hl)
  reg name mat hl := (h.reg name mat (by rw [← hmemo]; exact hl)).mono hids hsol

theorem materializeUncached_spec (hc : CandidatesServed W w)
    (h : (materializeUncached W cfg key dep base).Returns w mat w') :
    Kept w w' ∧ w'.matMemo = w.matMemo ∧ Leads W cfg w' base mat dep := by
  unfold materializeUncached at h
  split at h
  · obtain ⟨rfl, rfl⟩ := returns_pure.mp h
    exact ⟨(Untouched.refl w).toKept, rfl, rfl⟩
  · obtain ⟨rfl, f, hfetch, rfl⟩ := fetchGit_returns h
    refine ⟨(Untouched.refl _).toKept, rfl, ?_⟩
    simp only [Option.or_none, Option.getD_none] at hfetch
    simp only [Leads, localDir, hfetch]
  · exact absurd h returns_throw
  · rename_i package req
    split at h
    · rename_i patch hpatch
      obtain ⟨rfl, rfl⟩ := returns_pure.mp h
      refine ⟨(Untouched.refl w).toKept, rfl, ?_⟩
      simp only [Leads, RegistryTree, hpatch]
    · rename_i hpatch
      obtain ⟨hk, hmemo, hi, version, hsol, htree⟩ := materializeSelected_spec hc h
      refine ⟨hk, hmemo, ?_⟩
      simp only [Leads, RegistryTree, hpatch]
      exact ⟨hi, version, by rw [hk.solution]; exact hsol, htree⟩

theorem leads_of_memo {k : MemoKey} (hm : MemoTrue W cfg w) (hkey : memoKey W base dep = some k)
    (hl : w.matMemo.lookup k = some mat) : Leads W cfg w base mat dep := by
  cases dep with
  | path path package =>
    obtain rfl : MemoKey.path (W.join base path) = k := by simpa [memoKey] using hkey
    simp only [Leads, localDir, hm.path _ _ hl]
  | git url gitRef package =>
    obtain rfl : MemoKey.git url gitRef.lockKey = k := by simpa [memoKey] using hkey
    obtain ⟨fetched, hfetch, hdir⟩ := hm.git url gitRef mat hl
    simp only [Leads, localDir, hfetch, hdir]
  | registry package req =>
    cases package with
    | none => simp [memoKey] at hkey
    | some package =>
      obtain rfl : MemoKey.reg package.identity = k := by simpa [memoKey] using hkey
      exact hm.reg _ _ hl

theorem MemoTrue.insert {k : MemoKey}
    (hm : MemoTrue W cfg w) (hkey : memoKey W base dep = some k) (hl : Leads W cfg w base mat dep) :
    MemoTrue W cfg { w with matMemo := w.matMemo.insert k mat } where
  path joined mat' h := by
    by_cases hk : MemoKey.path joined = k
    · subst hk
      cases dep with
      | path path package =>
        rw [AList.lookup_insert] at h
        cases h
        simp only [memoKey, Option.some.injEq, MemoKey.path.injEq] at hkey
        simp only [Leads, localDir, Option.some.injEq] at hl
        rw [← hl, hkey]
      | git url gitRef package => simp [memoKey] at hkey
      | registry package req => cases package <;> simp [memoKey] at hkey
    · rw [AList.lookup_insert_ne hk] at h
      exact hm.path joined mat' h
  git url gitRef mat' h := by
    by_cases hk : MemoKey.git url gitRef.lockKey = k
    · subst hk
      cases dep with
      | path path package => simp [memoKey] at hkey
      | git url' gitRef' package =>
        rw [AList.lookup_insert] at h
        cases h
        simp only [memoKey, Option.some.injEq, MemoKey.git.injEq] at hkey
        obtain ⟨rfl, hkey⟩ := hkey
        obtain rfl := lockKey_injective hkey
        simp only [Leads, localDir] at hl
        split at hl
        · rename_i fetched hfetch
          exact ⟨fetched, hfetch, by simpa using hl.symm⟩
        · cases hl
      | registry package req => cases package <;> simp [memoKey] at hkey
    · rw [AList.lookup_insert_ne hk] at h
      exact hm.git url gitRef mat' h
  reg name mat' h := by
    by_cases hk : MemoKey.reg name = k
    · subst hk
      cases dep with
      | path path package => simp [memoKey] at hkey
      | git url gitRef package => simp [memoKey] at hkey
      | registry package req =>
        cases package with
        | none => simp [memoKey] at hkey
        | some package =>
          rw [AList.lookup_insert] at h
          cases h
          simp only [memoKey, Option.some.injEq, MemoKey.reg.injEq] at hkey
          subst hkey
          exact hl
    · rw [AList.lookup_insert_ne hk] at h
      exact hm.reg name mat' h

theorem materialize_spec (hc : CandidatesServed W w) (hm : MemoTrue W cfg w)
    (h : (materialize W cfg key dep base).Returns w mat w') :
    MemoTrue W cfg w' ∧ Kept w w' ∧ Leads W cfg w' base mat dep := by
  unfold materialize at h
  split at h
  · obtain ⟨hk, hmemo, hl⟩ := materializeUncached_spec hc h
    exact ⟨hm.mono hmemo hk.ids hk.solution, hk, hl⟩
  · rename_i k hkey
    rw [returns_get_bind] at h
    split at h
    · rename_i hit hlook
      obtain ⟨rfl, rfl⟩ := returns_pure.mp h
      exact ⟨hm, (Untouched.refl _).toKept, leads_of_memo hm hkey hlook⟩
    · simp only [returns_bind, returns_modify, returns_pure] at h
      obtain ⟨out, t, hu, _, _, rfl, rfl, rfl⟩ := h
      obtain ⟨hk, hmemo, hl⟩ := materializeUncached_spec hc hu
      have hk' : Kept t { t with matMemo := t.matMemo.insert k out } :=
        ⟨rfl, rfl, rfl, rfl, rfl, rfl, fun _ h => h⟩
      exact ⟨(hm.mono hmemo hk.ids hk.solution).insert hkey hl, hk.trans hk',
        hl.mono hk'.ids hk'.solution⟩

/-! ## Locating -/

/-- How the tree a dependency stands for was found: `mat` is what its source leads to, `manifest` and
`pkg` what stands there. -/
structure Located (W : World) (cfg : Config) (w : Walker) (base : String) (dep : Dependency)
    (tree : Tree) (mat : Materialized) (manifest : Manifest) (pkg : PackageMeta) : Prop where
  leads : Leads W cfg w base mat dep
  read : W.readManifest mat.dir = .ok manifest
  package : manifest.package = some pkg
  identity : tree.identity = pkg.name.identity
  declared : ∃ key, checkDeclaredIdentity key dep pkg (identityRole cfg w.solution dep) = .ok ()
  plain : cfg.patches.lookup tree.identity = none →
    tree.dir = mat.dir ∧ tree.source = mat.source ∧ tree.manifest = manifest ∧ tree.patched = false
  overridden : ∀ patch, cfg.patches.lookup tree.identity = some patch →
    tree.dir = patch.dir ∧ W.readManifest patch.dir = .ok tree.manifest ∧ tree.patched = true

theorem packageOf_eq_ok {manifest : Manifest} {key dir : String} {pkg : PackageMeta} :
    packageOf manifest key dir = .ok pkg ↔ manifest.package = some pkg := by
  unfold packageOf
  split <;> simp_all

/-- What the steps of a walk keep: a true memo, and candidates the index serves. -/
structure Ready (W : World) (cfg : Config) (w : Walker) : Prop where
  memo : MemoTrue W cfg w
  candidates : CandidatesServed W w

theorem locate_spec {tree : Tree}
    (hw : Ready W cfg w) (h : (locate W cfg key dep base).Returns w tree w') :
    Ready W cfg w' ∧ Kept w w' ∧ ∃ mat manifest pkg, Located W cfg w' base dep tree mat manifest pkg := by
  simp only [locate, returns_bind] at h
  obtain ⟨mat, t, hmat, manifest, t1, hask, pkg, t2, hof, t3, t4, hget, u, t5, hcheck, h⟩ := h
  obtain ⟨hread, h1⟩ := returns_ask.mp hask
  obtain ⟨hpkg, h2⟩ := returns_fromExcept.mp hof
  obtain ⟨h3, h4⟩ := returns_get.mp hget
  obtain ⟨hdecl, h5⟩ := returns_fromExcept.mp hcheck
  clear hask hof hget hcheck
  subst h1 h2
  rw [h4] at h5
  subst h5
  rw [h3] at hdecl
  obtain ⟨hm, hk, hl⟩ := materialize_spec hw.candidates hw.memo hmat
  have hready : Ready W cfg t := ⟨hm, by
    intro name rs hlook
    exact hw.candidates name rs (by rw [← hk.candidates]; exact hlook)⟩
  rw [packageOf_eq_ok] at hpkg
  split at h
  · rename_i hpatch
    obtain ⟨rfl, rfl⟩ := returns_pure.mp h
    refine ⟨hready, hk, mat, manifest, pkg, hl, hread, hpkg, rfl, ⟨key, hdecl⟩, ?_, ?_⟩
    · exact fun _ => ⟨rfl, rfl, rfl, rfl⟩
    · intro patch hp
      rw [hpatch] at hp
      cases hp
  · rename_i patch hpatch
    have hplain : ∀ tree : Tree, tree.identity = pkg.name.identity →
        cfg.patches.lookup tree.identity = none → False := by
      intro tree hid hn
      rw [hid, hpatch] at hn
      cases hn
    split at h
    · rename_i hdir
      obtain ⟨rfl, rfl⟩ := returns_pure.mp h
      refine ⟨hready, hk, mat, manifest, pkg, hl, hread, hpkg, rfl, ⟨key, hdecl⟩,
        fun hn => (hplain _ rfl hn).elim, ?_⟩
      intro patch' hp
      rw [hpatch] at hp
      cases hp
      exact ⟨hdir, by rw [← hdir]; exact hread, rfl⟩
    · simp only [returns_bind, returns_ask, returns_pure] at h
      obtain ⟨patchManifest, _, ⟨hp, rfl⟩, rfl, rfl⟩ := h
      refine ⟨hready, hk, mat, manifest, pkg, hl, hread, hpkg, rfl, ⟨key, hdecl⟩,
        fun hn => (hplain _ rfl hn).elim, ?_⟩
      intro patch' hp'
      rw [hpatch] at hp'
      cases hp'
      exact ⟨rfl, hp, rfl⟩

section Located

variable {base : String} {tree : Tree} {mat : Materialized} {manifest : Manifest}
  {pkg : PackageMeta}

theorem Located.registry {package : PackageName} {req : VersionReq}
    (h : Located W cfg w base (.registry (some package) req) tree mat manifest pkg)
    (hpatch : cfg.patches.lookup package.identity = none) :
    pkg.name = package ∧ tree.identity = package.identity ∧
      package.identity ∈ w.registryIds ∧ w.solution.lookup package.identity = some pkg.version ∧
      TreeOf W cfg package.identity pkg.version mat ∧
      tree.dir = mat.dir ∧ tree.source = mat.source ∧ tree.manifest = manifest ∧
      tree.patched = false := by
  have hl := h.leads
  simp only [Leads, RegistryTree, hpatch] at hl
  obtain ⟨hcount, version, hsol, htree⟩ := hl
  obtain ⟨key, hd⟩ := h.declared
  simp only [checkDeclaredIdentity, Dependency.declaredPackage, identityRole, hpatch, hsol,
    Option.isSome_none, Bool.false_eq_true, if_false] at hd
  split at hd
  · cases hd
  · rename_i hname
    have hname : package = pkg.name := not_not.mp hname
    split at hd
    · cases hd
    · rename_i hv
      have hv : version = pkg.version := by simpa using hv
      subst hv hname
      obtain ⟨h1, h2, h3, h4⟩ := h.plain (by rw [h.identity]; exact hpatch)
      exact ⟨rfl, h.identity, hcount, hsol, htree, h1, h2, h3, h4⟩

theorem Located.manifest_read
    {dep : Dependency} (h : Located W cfg w base dep tree mat manifest pkg) :
    W.readManifest tree.dir = .ok tree.manifest := by
  cases hp : cfg.patches.lookup tree.identity with
  | none =>
    obtain ⟨h1, _, h3, _⟩ := h.plain hp
    rw [h1, h3]
    exact h.read
  | some patch =>
    obtain ⟨h1, h2, _⟩ := h.overridden patch hp
    rw [h1]
    exact h2

end Located

end Noeta.Pm
