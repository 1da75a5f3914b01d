import Noeta.Pm.Counted

/-!
# Resolves of one package

From any lock, a root that requires one exact version and nothing else: what such a resolve does where
the lock pins the version, and where the version solver selects it from the index.
-/

namespace Noeta.Pm

open Semver Lockfile Requirement Fallible

/-- A package without dependencies. -/
def soleManifest (package : PackageName) (v : Version) : Manifest where
  package := some ⟨package, none, v, none, none, none, none⟩
  dependencies := []

/-- The root requires `package` at `=v` and nothing else. -/
def soleDeps (package : PackageName) (v : Version) : Dependencies :=
  [("dep", .one (.registry (some package) (exactReq v)))]

theorem exactReq_matches {v u : Version} : (exactReq v).matches u = true ↔
    u.major = v.major ∧ u.minor = v.minor ∧ u.patch = v.patch ∧ u.pre = v.pre := by
  simp only [exactReq, VersionReq.matches, List.all_cons, List.all_nil, Bool.and_true,
    Comparator.matchesImpl, Comparator.matchesExact, List.any_cons, List.any_nil, Bool.or_false,
    Comparator.preIsCompatible, Option.mem_def, Option.some.injEq, forall_eq', Bool.and_eq_true,
    decide_eq_true_eq, Bool.or_eq_true, List.isEmpty_iff]
  constructor
  · intro h
    exact h.1
  · intro h
    obtain ⟨h1, h2, h3, h4⟩ := h
    refine ⟨⟨h1, h2, h3, h4⟩, ?_⟩
    by_cases hpre : u.pre = []
    · exact Or.inl hpre
    · refine Or.inr ⟨h1.symm, by rw [h2], by rw [h3], ?_⟩
      rw [← h4]
      exact hpre

/-- The tree `f` of the one package, which still hashes as the lock says. -/
structure Sole (W : World) (cfg : Config) (package : PackageName) (v : Version) (f : Fetched) :
    Prop where
  plain : cfg.patches = ∅
  company : isBuiltin package.company = false
  fetch : ∀ url gitRef pin, W.fetch url gitRef pin = .ok f
  read : W.readManifest f.path = .ok (soleManifest package v)
  steady : (cfg.lock.contentHash package.identity).any (· ≠ f.contentHash) = false

namespace Sole

variable {W : World} {cfg : Config} {package : PackageName} {v : Version} {f : Fetched}
  {w t : Walker} {dir : String}

theorem unpatched (h : Sole W cfg package v f) (identity : String) :
    cfg.patches.lookup identity = none := by
  rw [h.plain]
  exact AList.lookup_empty _

theorem gathers (h : Sole W cfg package v f) (fuel : Nat) :
    (gatherPatches W cfg (fuel + 1)).Returns .init () .init ∧
      (gather W cfg (fuel + 1) (soleDeps package v) dir).Returns .init
        [(package.identity, exactReq v)]
        { Walker.init with registryQueue := [package.identity] } := by
  have hnone : patchEntries cfg = [] := by
    rw [patchEntries, h.plain]
    rfl
  constructor
  · rw [gatherPatches, hnone]
    rfl
  · simp only [gather, gatherWith, soleDeps, List.flatMap_cons, List.flatMap_nil, Entry.leaves,
      List.map_cons, List.map_nil, List.append_nil, each, returns_bind, returns_pure]
    refine ⟨_, _, ?_, _, _, ⟨rfl, rfl⟩, rfl, rfl⟩
    show (gatherRegistry "dep" package (exactReq v)).Returns _ _ _
    unfold gatherRegistry
    simp only [h.company, Bool.false_eq_true, if_false]
    rfl

/-- The walk of the one requirement, once its version has been materialised. -/
theorem walks (h : Sole W cfg package v f) (hc : CandidatesServed W w)
    (hsol : w.solution.lookup package.identity = some v) (hfresh : w.instances = ∅)
    (hmemo : w.matMemo.lookup (.reg package.identity) = none) {source : ResolvedSource}
    (hmat : (materializeVersion W cfg "dep" package v).Returns
      { w with registryIds := package.identity :: w.registryIds }
      ⟨f.path, source, some f.contentHash⟩ t) (fuel : Nat) :
    ∃ edges w', (walk W cfg (fuel + 1) (soleDeps package v) dir).Returns w edges w' ∧
      w'.scopeTrust = t.scopeTrust ∧ w'.registryIds = t.registryIds ∧
      ∃ inst, w'.instances.lookup package.identity = some inst ∧ inst.version = v ∧
        inst.patched = false := by
  obtain ⟨hkept, _⟩ := materializeVersion_spec (by exact hc) hmat
  have hplain := h.unpatched package.identity
  let mat : Materialized := ⟨f.path, source, some f.contentHash⟩
  let tree : Tree :=
    ⟨package.identity, f.path, source, some f.contentHash, soleManifest package v, false⟩
  let t1 : Walker := { t with matMemo := t.matMemo.insert (.reg package.identity) mat }
  have hsol1 : t1.solution.lookup package.identity = some v := by
    rw [show t1.solution = w.solution from hkept.solution, hsol]
  have hinst1 : t1.instances.lookup package.identity = none := by
    rw [show t1.instances = w.instances from hkept.instances, hfresh]
    exact AList.lookup_empty _
  have hmaterialize : (materialize W cfg "dep" (.registry (some package) (exactReq v)) dir).Returns
      w mat t1 := by
    have huncached : (materializeSelected W cfg "dep" package).Returns w mat t := by
      simp only [materializeSelected, countRegistry, returns_bind, returns_modify]
      refine ⟨(), _, rfl, ?_⟩
      simp only [h.company, Bool.false_eq_true, if_false, returns_get_bind, hsol]
      exact hmat
    unfold materialize
    simp only [memoKey]
    rw [returns_get_bind]
    simp only [hmemo, materializeUncached, hplain, returns_bind, returns_modify, returns_pure]
    exact ⟨mat, t, huncached, (), t1, rfl, rfl, rfl⟩
  have hlocate : (locate W cfg "dep" (.registry (some package) (exactReq v)) dir).Returns w tree t1 := by
    have hrole : checkDeclaredIdentity "dep" (.registry (some package) (exactReq v))
        ⟨package, none, v, none, none, none, none⟩
        (identityRole cfg t1.solution (.registry (some package) (exactReq v))) = .ok () := by
      simp only [checkDeclaredIdentity, Dependency.declaredPackage, identityRole, hplain, hsol1,
        Option.isSome_none, Bool.false_eq_true, if_false, ne_eq, not_true_eq_false, Option.any_some,
        decide_false]
    simp only [locate, returns_bind]
    refine ⟨mat, t1, hmaterialize, soleManifest package v, t1, ?_, ⟨package, none, v, none, none,
      none, none⟩, t1, ?_, t1, t1, ?_, (), t1, ?_, ?_⟩
    · exact returns_ask.mpr ⟨h.read, rfl⟩
    · exact returns_fromExcept.mpr ⟨rfl, rfl⟩
    · exact returns_get.mpr ⟨rfl, rfl⟩
    · exact returns_fromExcept.mpr ⟨hrole, rfl⟩
    · simp only [hplain]
      exact returns_pure.mpr ⟨rfl, rfl⟩
  let inst := newInstance .package tree ⟨package, none, v, none, none, none, none⟩ f.contentHash
  let t2 : Walker := { t1 with instances := t1.instances.insert package.identity inst }
  have hinstall : (install W cfg "dep" .package tree).Returns t1 true t2 := by
    have hdrift : hasDrifted cfg package.identity source v f.contentHash = false := by
      unfold hasDrifted
      split
      · rw [h.steady, Bool.and_false]
      · rfl
    simp only [install, returns_bind]
    refine ⟨⟨package, none, v, none, none, none, none⟩, t1, returns_fromExcept.mpr ⟨rfl, rfl⟩, (), t1,
      returns_fromExcept.mpr ⟨rfl, rfl⟩, t1, t1, returns_get.mpr ⟨rfl, rfl⟩, ?_⟩
    simp only [tree, hinst1, returns_bind]
    refine ⟨(), t1, returns_pure.mpr ⟨rfl, rfl⟩, (), t1, returns_pure.mpr ⟨rfl, rfl⟩, f.contentHash, t1,
      returns_pure.mpr ⟨rfl, rfl⟩, ?_⟩
    simp only [hdrift, Bool.false_eq_true, if_false, addInstance, returns_bind, returns_modify,
      returns_pure]
    exact ⟨(), t2, rfl, trivial, rfl⟩
  let t3 : Walker :=
    { t2 with instances := t2.instances.insert package.identity { inst with edges := [] } }
  have hedges : (setEdges package.identity []).Returns t2 () t3 := by
    simp only [setEdges, returns_modify, t2, AList.lookup_insert]
    rfl
  have hone : (walkOne W cfg (fuel + 1) "dep" (.registry (some package) (exactReq v)) dir
      .package).Returns w package.identity t3 := by
    simp only [walkOne, returns_bind]
    refine ⟨tree, t1, hlocate, true, t2, hinstall, ?_⟩
    simp only [if_true, returns_bind, returns_pure]
    exact ⟨[], t2, rfl, (), t3, hedges, rfl, rfl⟩
  refine ⟨[("dep", [package.identity])], t3, ?_, rfl, rfl, { inst with edges := [] }, ?_, rfl, rfl⟩
  · simp only [walk, walkWith, soleDeps, each, walkEntry, returns_bind, returns_pure]
    exact ⟨_, _, ⟨_, _, ⟨_, _, hone, rfl, rfl⟩, _, _, ⟨rfl, rfl⟩, rfl, rfl⟩, rfl, rfl⟩
  · exact AList.lookup_insert _

theorem fetches (h : Sole W cfg package v f) {url : String} {gitRef : GitRef}
    {sha clone : Option String} : (fetchGit W cfg url gitRef sha clone).Returns w
      ⟨f.path, .git url gitRef f.sha, some f.contentHash⟩ w := by
  simp only [fetchGit, returns_bind, returns_ask, returns_pure]
  exact ⟨f, w, ⟨h.fetch _ _ _, rfl⟩, rfl, rfl⟩

theorem adopts (h : Sole W cfg package v f) (hpins : cfg.lockPins = .honor)
    (hlocked : cfg.lock.lockedVersion package.identity = some v) (fuel : Nat) :
    (solve W cfg (fuel + 1) (soleDeps package v) dir).Returns .init ()
      { Walker.init with
        registryQueue := [package.identity]
        solution := cfg.lock.versions } := by
  obtain ⟨hpatches, hgather⟩ := @gathers _ _ _ _ _ dir h fuel
  have hadopts : adoptsLock cfg ∅ [(package.identity, exactReq v)] = true := by
    have hfrontier : frontier ∅ [(package.identity, exactReq v)] =
        [(package.identity, exactReq v)] := rfl
    have hmatch : (exactReq v).matches v = true := exactReq_matches.mpr ⟨rfl, rfl, rfl, rfl⟩
    simp [adoptsLock, hfrontier, hpins, hlocked, hmatch]
  simp only [solve, returns_bind]
  refine ⟨(), _, hpatches, _, _, hgather, _, _, returns_get.mpr ⟨rfl, rfl⟩, ?_⟩
  rw [if_pos (show adoptsLock cfg Walker.init.pathGit _ = true from hadopts)]
  exact returns_modify.mpr rfl

end Sole

/-- Every tree is `f`, the tree of the one package; the index serves `releases` and no keys. -/
def soleWorld (package : PackageName) (v : Version) (f : Fetched) (releases : List Release) :
    World where
  join base _ := base
  canonicalize path := path
  readManifest _ := .ok (soleManifest package v)
  hashTree _ := .ok ""
  validateNativeCrate _ _ := .ok ()
  fetch _ _ _ := .ok f
  scopeKey _ := .ok none
  releases _ := .ok releases
  localRepo _ := none
  verifySignature _ _ _ _ := .ok ()
  verifyBundle _ _ _ pinned := .ok (pinned.getD ("", ""))
  pubgrub _ _ := .ok ((∅ : Map String Version).insert package.identity v)
  running := v
  nowUnixMs := 0

/-- A tree that hashes as the lock says, where it says anything. -/
def steadyTree (lock : Lock) (identity : String) : Fetched :=
  ⟨"tree", "sha", (lock.contentHash identity).getD ""⟩

theorem sole_soleWorld {cfg : Config} {package : PackageName} {v : Version}
    {releases : List Release} (hplain : cfg.patches = ∅) (hcompany : isBuiltin package.company = false) :
    Sole (soleWorld package v (steadyTree cfg.lock package.identity) releases) cfg package v
      (steadyTree cfg.lock package.identity) where
  plain := hplain
  company := hcompany
  fetch _ _ _ := rfl
  read := rfl
  steady := by
    cases h : cfg.lock.contentHash package.identity with
    | none => rfl
    | some hash => simp [steadyTree, h]

/-! ## A live solve -/

/-- A release without dependencies and without provenance. -/
def soleRelease (v : Version) : Release where
  version := v
  coords := ⟨"git", "tag", "sha"⟩
  deps := []
  yanked := false
  signature := none
  bundle := none
  publishedAt := none

section Live

variable {cfg : Config} {package : PackageName} {v : Version} {f : Fetched}

theorem loads_soleWorld (hscope : isBuiltin (scopeOf package.identity) = false)
    (hcool : cfg.publishCooldown = none) {w : Walker}
    (hlocal : w.pathGit.lookup package.identity = none) {pins : List (String × Version)} :
    (loadCandidates (soleWorld package v f [soleRelease v]) cfg pins 2 [package.identity] [] ∅).Returns
      w ((∅ : Map String (List Release)).insert package.identity [soleRelease v]) w := by
  unfold loadCandidates
  rw [returns_get_bind]
  simp only [hlocal, Option.isSome_none, List.not_mem_nil, decide_false, Bool.or_self,
    Bool.false_eq_true, if_false, hscope, returns_bind, returns_ask, returns_fromExcept]
  refine ⟨[soleRelease v], w, ⟨rfl, rfl⟩, [soleRelease v], w, ⟨?_, rfl⟩, ?_⟩
  · rw [applyCooldown, hcool]
    rfl
  · exact returns_pure.mpr ⟨rfl, rfl⟩

theorem resolves_soleWorld (hreq : (reqToRanges (exactReq v)).isSome) {w : Walker} :
    (resolveVersions (soleWorld package v f [soleRelease v]) 2
      ⟨∅, (∅ : Map String (List Release)).insert package.identity [soleRelease v], ∅⟩
      [(package.identity, exactReq v)]).Returns w
        ((∅ : Map String Version).insert package.identity v) w := by
  let c : Candidates :=
    ⟨∅, (∅ : Map String (List Release)).insert package.identity [soleRelease v], ∅⟩
  obtain ⟨r, hr⟩ := Option.isSome_iff_exists.mp hreq
  have hroot : rangesOf [(package.identity, exactReq v)] = some [(package.identity, r)] := by
    simp [rangesOf, hr]
  have hlocal : c.pathGit.lookup package.identity = none := AList.lookup_empty _
  have hindex : c.registry.lookup package.identity = some [soleRelease v] := AList.lookup_insert _
  have hversions : c.versions package.identity = [v] := by
    rw [Candidates.versions, hlocal, hindex]
    rfl
  have hdeps : c.dependencies package.identity v = [] := by
    rw [Candidates.dependencies, hlocal, hindex]
    simp [soleRelease, Candidates.releaseDeps]
  have hrows : registerAll c 2 [package.identity] [] [] = some [⟨package.identity, v, []⟩] := by
    simp [registerAll, hversions, hdeps, rowOf, rangesOf]
  unfold resolveVersions
  rw [hroot, show registerAll _ 2 ([(package.identity, exactReq v)].map (·.1)) [] [] = _ from hrows]
  exact returns_pure.mpr ⟨rfl, rfl⟩

theorem solves_soleWorld (hplain : cfg.patches = ∅) (hcompany : isBuiltin package.company = false)
    (hscope : isBuiltin (scopeOf package.identity) = false) (hcool : cfg.publishCooldown = none)
    (hlive : cfg.lock.lockedVersion package.identity = none)
    (hreq : (reqToRanges (exactReq v)).isSome) {dir : String} :
    (solve (soleWorld package v (steadyTree cfg.lock package.identity) [soleRelease v]) cfg 2
      (soleDeps package v) dir).Returns .init ()
        { Walker.init with
          registryQueue := [package.identity]
          solution := (∅ : Map String Version).insert package.identity v
          candidates := (∅ : Map String (List Release)).insert package.identity [soleRelease v] } := by
  obtain ⟨hpatches, hgather⟩ := @Sole.gathers _ _ _ _ _ dir
    (@sole_soleWorld cfg package v [soleRelease v] hplain hcompany) 1
  have hadopts : adoptsLock cfg ∅ [(package.identity, exactReq v)] = false := by
    have hfrontier : frontier ∅ [(package.identity, exactReq v)] =
        [(package.identity, exactReq v)] := rfl
    simp [adoptsLock, hfrontier, hlive]
  simp only [solve, returns_bind]
  refine ⟨(), _, hpatches, _, _, hgather, _, _, returns_get.mpr ⟨rfl, rfl⟩, ?_⟩
  rw [if_neg (by rw [show adoptsLock cfg Walker.init.pathGit _ = false from hadopts]; decide)]
  simp only [returns_bind]
  exact ⟨_, _, loads_soleWorld hscope hcool (AList.lookup_empty _), _, _, resolves_soleWorld hreq,
    returns_modify.mpr rfl⟩

end Live

end Noeta.Pm
