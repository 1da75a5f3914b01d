import Noeta.Lib.Fallible
import Noeta.Pm.Manifest
import Mathlib.Algebra.Group.Int.Defs

/-!
# Resolving a graph

A resolve selects versions (`solve`) and then materialises what the manifests name (`walk`). Both go
through `materialize`, which remembers what it found. A run is cut off when its fuel ends, or where the
arithmetic of a requirement overflows.
-/

namespace Noeta.Pm

open Semver Lockfile Requirement

/-! ## State -/

/-- What a source is remembered under. -/
inductive MemoKey where
  | path (joined : String)
  | git (url lockKey : String)
  | reg (identity : String)
deriving DecidableEq

structure Materialized where
  dir : String
  source : ResolvedSource
  hash : Option String

structure Instance where
  version : Version
  edition : Edition
  rootSegment : String
  packageSegment : String
  inScope : Bool
  dir : String
  contentHash : String
  source : ResolvedSource
  native : Option String
  devNative : Option String
  edges : List (String × List String)
  patched : Bool

structure PathGitCandidate where
  version : Version
  deps : List (String × VersionReq)

/-- `pathGit` and `registryQueue` are the two accumulators `solve` hands to `gather`. -/
structure Walker where
  instances : Map String Instance
  solution : Map String Version
  scopeTrust : Map String ScopeTrust
  registryIds : List String
  candidates : Map String (List Release)
  matMemo : Map MemoKey Materialized
  patchedVersions : Map String Version
  pathGit : Map String PathGitCandidate
  registryQueue : List String

def Walker.init : Walker := ⟨∅, ∅, ∅, [], ∅, ∅, ∅, ∅, []⟩

abbrev Walk := Fallible Walker PmError

inductive ScopeRoot where
  | package
  | scope
deriving DecidableEq

open Fallible (fromExcept each cut)

/-- Ask the world. -/
def ask {α : Type} (r : Except Outside α) : Walk α := fromExcept (r.mapError .outside)

variable (W : World) (cfg : Config)

/-! ## Materialising -/

def memoKey (base : String) : Dependency → Option MemoKey
  | .path path _ => some (.path (W.join base path))
  | .git url gitRef _ => some (.git url gitRef.lockKey)
  | .registry (some package) _ => some (.reg package.identity)
  | .registry none _ => none

def fetchGit (url : String) (gitRef : GitRef) (registrySha localRepo : Option String) :
    Walk Materialized := do
  let pin := (cfg.lock.gitPin url gitRef).or registrySha
  let fetched ← ask (W.fetch (localRepo.getD url) gitRef pin)
  pure ⟨fetched.path, .git url gitRef fetched.sha, some fetched.contentHash⟩

inductive ProvenanceAction where
  | allowUnverified
  | key (key : String) (signature : Option String)
  | keyless (bundle : String) (pinned : Option (String × String))

def provenanceDecision (pinned : Option ScopeTrust) (signature bundle servedKey : Option String) :
    Except ProvenanceRefusal ProvenanceAction :=
  match pinned, signature, bundle with
  | _, some _, some _ => .error .bothRoots
  | some (.keyless issuer identity), none, some bundle =>
    .ok (.keyless bundle (some (issuer, identity)))
  | some (.keyless _ _), _, _ => .error .downgrade
  | some (.key _), none, some _ => .error .rootSwitch
  | some (.key pinnedKey), signature, none =>
    if servedKey.any (· ≠ pinnedKey) then .error .keyChanged else .ok (.key pinnedKey signature)
  | none, none, some bundle => .ok (.keyless bundle none)
  | none, some sig, none =>
    match servedKey with
    | some served => .ok (.key served (some sig))
    | none => .error .noKey
  | none, none, none =>
    match servedKey with
    | some served => .ok (.key served none)
    | none => .ok .allowUnverified

def pinTrust (key : String) (trust : ScopeTrust) : Walk Unit :=
  modify fun w => { w with scopeTrust := w.scopeTrust.insert key trust }

/-- A package's own pin, else its scope's. -/
def trustFor (lock : Lock) (identity : String) : Option ScopeTrust :=
  (lock.scopeTrust.lookup identity).or (lock.scopeTrust.lookup (scopeOf identity))

/-- Verify what a decision asks for, then pin what was verified. -/
def verifyAction (name : String) (release : Release) : ProvenanceAction → Walk Unit
  | .allowUnverified => pure ()
  | .key publicKey none => pinTrust (scopeOf name) (.key publicKey)
  | .key publicKey (some sig) => do
    ask (W.verifySignature name release sig publicKey)
    pinTrust (scopeOf name) (.key publicKey)
  | .keyless bundle pinned => do
    let proved ← ask (W.verifyBundle name release bundle pinned)
    pinTrust name (.keyless proved.1 proved.2)

def checkProvenance (key name : String) (release : Release) (servedKey : Option String) :
    Walk Unit :=
  if cfg.requireProvenance.requires (scopeOf name) && release.signature.isNone &&
      release.bundle.isNone then
    throw (.provenance key name .unsigned)
  else
    match provenanceDecision (trustFor cfg.lock name) release.signature release.bundle servedKey with
    | .error reason => throw (.provenance key name reason)
    | .ok action => verifyAction W name release action

/-- Whether the lock pins this release. -/
def pinsRelease (lock : Lock) (identity : String) (version : Version) : Bool :=
  (lock.registryCoords identity).isSome && lock.lockedVersion identity = some version

def carryPin (key : String) : Walk Unit :=
  match cfg.lock.scopeTrust.lookup key with
  | some pin => pinTrust key pin
  | none => pure ()

/-- Carry the pins of a locked release forward. -/
def carryTrust (name scope : String) : Walk Unit := do
  carryPin cfg scope
  carryPin cfg name

/-- The release of the selected version, from the candidates of the solve or else the index. -/
def selectedRelease (key name : String) (version : Version) : Walk Release := do
  let w ← get
  match ((w.candidates.lookup name).getD []).find? (·.version = version) with
  | some release => pure release
  | none => do
    let releases ← ask (W.releases name)
    match releases.find? (·.version = version) with
    | some release => pure release
    | none => throw (.notInIndex key name version)

def materializeIndexed (key : String) (package : PackageName) (version : Version) :
    Walk Materialized := do
  let servedKey ← ask (W.scopeKey package.company)
  let release ← selectedRelease W key package.identity version
  checkProvenance W cfg key package.identity release servedKey
  fetchGit W cfg release.coords.url (.tag release.coords.tag) (some release.coords.sha)
    (W.localRepo package.identity)

/-- Transparency applies to what a registry dependency named. -/
def countRegistry (name : String) : Walk Unit :=
  modify fun w => { w with registryIds := name :: w.registryIds }

/-- The selected version comes from the lock's coordinates where the lock pins it, else from the
index. -/
def materializeVersion (key : String) (package : PackageName) (version : Version) :
    Walk Materialized :=
  match cfg.lock.registryCoords package.identity with
  | some (url, tag, sha) =>
    if cfg.lock.lockedVersion package.identity = some version then do
      carryTrust cfg package.identity package.company
      fetchGit W cfg url (.tag tag) (some sha) none
    else materializeIndexed W cfg key package version
  | none => materializeIndexed W cfg key package version

def materializeSelected (key : String) (package : PackageName) : Walk Materialized := do
  countRegistry package.identity
  if isBuiltin package.company then throw (.builtin (some key) package.identity)
  else
    let w ← get
    match w.solution.lookup package.identity with
    | none => throw (.notSelected key package.identity)
    | some version => materializeVersion W cfg key package version

def materializeUncached (key : String) (dep : Dependency) (base : String) : Walk Materialized :=
  match dep with
  | .path path _ => pure ⟨W.canonicalize (W.join base path), .path path, none⟩
  | .git url gitRef _ => fetchGit W cfg url gitRef none none
  | .registry none _ => throw (.unnamed key)
  | .registry (some package) _ =>
    match cfg.patches.lookup package.identity with
    | some patch => pure ⟨patch.dir, .path patch.declared, none⟩
    | none => materializeSelected W cfg key package

def materialize (key : String) (dep : Dependency) (base : String) : Walk Materialized := do
  match memoKey W base dep with
  | none => materializeUncached W cfg key dep base
  | some k =>
    let w ← get
    match w.matMemo.lookup k with
    | some hit => pure hit
    | none => do
      let out ← materializeUncached W cfg key dep base
      modify fun w => { w with matMemo := w.matMemo.insert k out }
      pure out

/-! ## Identity -/

def packageOf (manifest : Manifest) (key dir : String) : Except PmError PackageMeta :=
  match manifest.package with
  | some pkg => .ok pkg
  | none => .error (.noPackage key dir)

inductive IdentityRole where
  | claim
  | served (selected : Option Version) (pinned : Bool)
  | overridden

def identityRole (solution : Map String Version) : Dependency → IdentityRole
  | .registry (some selector) _ =>
    if (cfg.patches.lookup selector.identity).isSome then .overridden
    else
      let selected := solution.lookup selector.identity
      .served selected (selected.any (pinsRelease cfg.lock selector.identity))
  | _ => .claim

def checkDeclaredIdentity (key : String) (dep : Dependency) (actual : PackageMeta)
    (role : IdentityRole) : Except PmError Unit :=
  match dep.declaredPackage with
  | none => .ok ()
  | some claimed =>
    match role with
    | .overridden => .ok ()
    | .claim => if claimed = actual.name then .ok () else .error (.claim key claimed actual.name)
    | .served selected pinned =>
      if claimed ≠ actual.name then
        .error (.served key claimed selected pinned (.name actual.name))
      else if selected.any (· ≠ actual.version) then
        .error (.served key claimed selected pinned (.version actual.version))
      else .ok ()

def toolchainReqSatisfied (req : VersionReq) (running : Version) : Bool :=
  req.matches (Version.new running.major running.minor running.patch)

def checkToolchainReq (pkg : PackageMeta) (what : String) : Except PmError Unit :=
  match pkg.toolchain with
  | none => .ok ()
  | some req =>
    if toolchainReqSatisfied req W.running then .ok () else .error (.toolchain what req)

/-! ## Walking -/

/-- The tree a dependency stands for, after a `[patch]`. -/
structure Tree where
  identity : String
  dir : String
  source : ResolvedSource
  fetchedHash : Option String
  manifest : Manifest
  patched : Bool

def locate (key : String) (dep : Dependency) (base : String) : Walk Tree := do
  let mat ← materialize W cfg key dep base
  let manifest ← ask (W.readManifest mat.dir)
  let pkg ← fromExcept (packageOf manifest key mat.dir)
  let w ← get
  fromExcept (checkDeclaredIdentity key dep pkg (identityRole cfg w.solution dep))
  let identity := pkg.name.identity
  match cfg.patches.lookup identity with
  | none => pure ⟨identity, mat.dir, mat.source, mat.hash, manifest, false⟩
  | some patch =>
    if mat.dir = patch.dir then pure ⟨identity, mat.dir, mat.source, mat.hash, manifest, true⟩
    else do
      let patchManifest ← ask (W.readManifest patch.dir)
      pure ⟨identity, patch.dir, .path patch.declared, none, patchManifest, true⟩

/-- Native code needs the root's trust; a dev-only crate only has to exist. -/
def checkNative (key identity dir : String) (pkg : PackageMeta) : Walk Unit :=
  match pkg.native with
  | some native =>
    if identity ∈ cfg.nativeTrust then ask (W.validateNativeCrate dir native)
    else throw (.untrustedNative key identity)
  | none => pure ()

def checkDevNative (dir : String) (pkg : PackageMeta) : Walk Unit :=
  match pkg.devNative with
  | some devNative => ask (W.validateNativeCrate dir devNative)
  | none => pure ()

def contentHash (tree : Tree) : Walk String :=
  match tree.fetchedHash with
  | some hash => pure hash
  | none => ask (W.hashTree tree.dir)

/-- A git tree must still hash as the lock says, at the version the lock says. -/
def hasDrifted (identity : String) (source : ResolvedSource) (version : Version) (hash : String) :
    Bool :=
  match source with
  | .git _ _ _ =>
    cfg.lock.lockedVersion identity = some version &&
      (cfg.lock.contentHash identity).any (· ≠ hash)
  | .path _ => false

def newInstance (root : ScopeRoot) (tree : Tree) (pkg : PackageMeta) (hash : String) : Instance where
  version := pkg.version
  edition := pkg.effectiveEdition
  rootSegment := match root with
    | .package => pkg.rootSegment
    | .scope => pkg.name.company
  packageSegment := pkg.rootSegment
  inScope := root == .scope
  dir := tree.dir
  contentHash := hash
  source := tree.source
  native := pkg.native
  devNative := pkg.devNative
  edges := []
  patched := tree.patched

def addInstance (identity : String) (inst : Instance) : Walk Unit :=
  modify fun w => { w with instances := w.instances.insert identity inst }

/-- Record a tree as an instance; `false` when its identity is there already. -/
def install (key : String) (root : ScopeRoot) (tree : Tree) : Walk Bool := do
  let pkg ← fromExcept (packageOf tree.manifest key tree.dir)
  fromExcept (checkToolchainReq W pkg key)
  let w ← get
  match w.instances.lookup tree.identity with
  | some existing =>
    if existing.version ≠ pkg.version then
      throw (.versions tree.identity existing.version pkg.version)
    else pure false
  | none =>
    checkNative W cfg key tree.identity tree.dir pkg
    checkDevNative W tree.dir pkg
    let hash ← contentHash W tree
    if hasDrifted cfg tree.identity tree.source pkg.version hash then
      throw (.drifted key tree.identity)
    else do
      addInstance tree.identity (newInstance root tree pkg hash)
      pure true

def setEdges (identity : String) (edges : List (String × List String)) : Walk Unit :=
  modify fun w =>
    match w.instances.lookup identity with
    | some inst =>
      { w with instances := w.instances.insert identity { inst with edges := edges } }
    | none => w

section Walk

-- `one` is the walk of one dependency.
variable (one : String → Dependency → String → ScopeRoot → Walk String)

/-- The members of a scope, which must share one company. -/
def walkMembers (key base : String) : Option String → List Dependency → Walk (List String)
  | _, [] => pure []
  | company, member :: members => do
    let identity ← one key member base .scope
    match company with
    | some first =>
      if first ≠ scopeOf identity then throw (.mixedScope key first (scopeOf identity))
      else do
        let rest ← walkMembers key base (some first) members
        pure (identity :: rest)
    | none => do
      let rest ← walkMembers key base (some (scopeOf identity)) members
      pure (identity :: rest)

def walkEntry (base : String) : String × Entry → Walk (String × List String)
  | (key, .one dep) => do
    let identity ← one key dep base .package
    pure (key, [identity])
  | (key, .scope members) => do
    let identities ← walkMembers one key base none members
    pure (key, identities)

/-- The edges of a table. -/
def walkWith (deps : Dependencies) (base : String) : Walk (List (String × List String)) := do
  let edges ← each (walkEntry one base) deps
  pure (edges.filter (!·.2.isEmpty))

end Walk

def walkOne : Nat → String → Dependency → String → ScopeRoot → Walk String
  | 0, _, _, _, _ => cut
  | fuel + 1, key, dep, base, root => do
    let tree ← locate W cfg key dep base
    let new ← install W cfg key root tree
    if new then do
      let edges ← walkWith (walkOne fuel) tree.manifest.dependencies tree.dir
      setEdges tree.identity edges
      pure tree.identity
    else pure tree.identity

def walk (fuel : Nat) (deps : Dependencies) (base : String) : Walk (List (String × List String)) :=
  walkWith (walkOne W cfg fuel) deps base

/-! ## Gathering -/

/-- `=x.y.z`. -/
def exactReq (v : Version) : VersionReq :=
  ⟨[⟨.exact, v.major, some v.minor, some v.patch, v.pre, by simp, by simp⟩]⟩

def addCandidate (identity : String) (candidate : PathGitCandidate) : Walk Unit :=
  modify fun w => { w with pathGit := w.pathGit.insert identity candidate }

section Gather

-- `one` gathers one dependency.
variable (one : String → Dependency → String → Walk (String × VersionReq))

/-- The requirements of a table. -/
def gatherWith (deps : Dependencies) (base : String) : Walk (List (String × VersionReq)) :=
  each (fun (kd : String × Dependency) => one kd.1 kd.2 base)
    (deps.flatMap fun e => e.2.leaves.map (e.1, ·))

end Gather

/-- A registry dependency: the index is only asked for it later. -/
def gatherRegistry (key : String) (package : PackageName) (req : VersionReq) :
    Walk (String × VersionReq) := do
  let identity := package.identity
  if isBuiltin package.company then throw (.builtin (some key) identity)
  else
    let w ← get
    match w.patchedVersions.lookup identity with
    | some patched => pure (identity, exactReq patched)
    | none => do
      modify fun w => { w with registryQueue := identity :: w.registryQueue }
      pure (identity, req)

/-- The tree of a path or git dependency, as it stands. -/
def gatherTree (key : String) (dep : Dependency) (base : String) :
    Walk (Materialized × Manifest × PackageMeta) := do
  let mat ← materialize W cfg key dep base
  let manifest ← ask (W.readManifest mat.dir)
  let pkg ← fromExcept (packageOf manifest key mat.dir)
  fromExcept (checkDeclaredIdentity key dep pkg .claim)
  pure (mat, manifest, pkg)

/-- Its requirements are gathered unless its identity has been seen; the placeholder ends cycles. -/
def gatherOne : Nat → String → Dependency → String → Walk (String × VersionReq)
  | 0, _, _, _ => cut
  | _ + 1, key, .registry none _, _ => throw (.unnamed key)
  | _ + 1, key, .registry (some package) req, _ => gatherRegistry key package req
  | fuel + 1, key, dep, base => do
    let (mat, manifest, pkg) ← gatherTree W cfg key dep base
    let identity := pkg.name.identity
    let w ← get
    match w.patchedVersions.lookup identity with
    | some patched => pure (identity, exactReq patched)
    | none =>
      if (w.pathGit.lookup identity).isSome then pure (identity, exactReq pkg.version)
      else do
        addCandidate identity ⟨pkg.version, []⟩
        let reqs ← gatherWith (gatherOne fuel) manifest.dependencies mat.dir
        addCandidate identity ⟨pkg.version, reqs⟩
        pure (identity, exactReq pkg.version)

def gather (fuel : Nat) (deps : Dependencies) (base : String) :
    Walk (List (String × VersionReq)) :=
  gatherWith (gatherOne W cfg fuel) deps base

/-- First every patched tree's version, so that patched trees may depend on each other. -/
def patchVersion (patch : String × PatchOverride) : Walk Manifest := do
  let manifest ← ask (W.readManifest patch.2.dir)
  let pkg ← fromExcept (packageOf manifest patch.1 patch.2.dir)
  if pkg.name.identity ≠ patch.1 then throw (.patchIdentity patch.1 pkg.name.identity)
  else do
    fromExcept (checkToolchainReq W pkg patch.1)
    modify fun w => { w with patchedVersions := w.patchedVersions.insert patch.1 pkg.version }
    pure manifest

/-- Then its requirements. -/
def patchDeps (fuel : Nat) (patch : (String × PatchOverride) × Manifest) : Walk Unit := do
  let identity := patch.1.1
  let w ← get
  if (w.pathGit.lookup identity).isSome then pure ()
  else
    match w.patchedVersions.lookup identity with
    | none => cut
    | some version => do
      addCandidate identity ⟨version, []⟩
      let reqs ← gather W cfg fuel patch.2.dependencies patch.1.2.dir
      addCandidate identity ⟨version, reqs⟩

/-- The `[patch]` table in the order of its keys. -/
def patchEntries : List (String × PatchOverride) := cfg.patches.entries.map fun e => (e.1, e.2)

def gatherPatches (fuel : Nat) : Walk Unit := do
  let manifests ← each (patchVersion W) (patchEntries cfg)
  let _ ← each (patchDeps W cfg fuel) ((patchEntries cfg).zip manifests)
  pure ()

/-! ## Candidates -/

/-- The version of a full `=x.y.z`. -/
def exactVersion (req : VersionReq) : Option Version :=
  match req.comparators with
  | [c] =>
    if c.op = .exact then do
      let minor ← c.minor
      let patch ← c.patch
      pure ⟨c.major, minor, patch, c.pre, []⟩
    else none
  | _ => none

def rootExactPins (reqs : List (String × VersionReq)) : List (String × Version) :=
  reqs.filterMap fun r => (exactVersion r.2).map (r.1, ·)

def clampI64 (n : Int) : Int := max (-2 ^ 63) (min n (2 ^ 63 - 1))

/-- A `u64` read as an `i64`. -/
def asI64 (n : Nat) : Int := if n < 2 ^ 63 then n else n - 2 ^ 64

def cooldownKept (releases : List Release) (cooldownSecs : Nat) (nowMs : Int)
    (exempt : List Version) : List Release :=
  let cutoffMs := clampI64 (nowMs - clampI64 (asI64 cooldownSecs * 1000))
  releases.filter fun r =>
    match r.publishedAt with
    | some ts => ts ≤ cutoffMs || r.version ∈ exempt
    | none => true

def applyCooldown (identity : String) (releases : List Release)
    (exactPins : List (String × Version)) : Except PmError (List Release) :=
  match cfg.publishCooldown with
  | none => .ok releases
  | some secs =>
    if secs = 0 || releases.isEmpty then .ok releases
    else
      let exempt := (exactPins.filter (·.1 = identity)).map (·.2)
      let kept := cooldownKept releases secs W.nowUnixMs exempt
      if kept.isEmpty then .error (.cooldown identity) else .ok kept

/-- Every registry candidate in reach. `queue` is read from its end, which is the head here. -/
def loadCandidates (exactPins : List (String × Version)) :
    Nat → List String → List String → Map String (List Release) → Walk (Map String (List Release))
  | 0, _, _, _ => cut
  | _ + 1, [], _, registry => pure registry
  | fuel + 1, identity :: queue, seen, registry => do
    let w ← get
    if (w.pathGit.lookup identity).isSome || identity ∈ seen then
      loadCandidates exactPins fuel queue seen registry
    else if isBuiltin (scopeOf identity) then throw (.builtin none identity)
    else do
      let served ← ask (W.releases identity)
      let releases ← fromExcept
        (applyCooldown W cfg identity (served.filter (!·.yanked)) exactPins)
      let next := (releases.flatMap (·.deps)).map (·.package)
      let fresh := next.filter fun p =>
        (w.pathGit.lookup p).isNone && !(p ∈ identity :: seen)
      loadCandidates exactPins fuel (fresh.reverse ++ queue) (identity :: seen)
        (registry.insert identity releases)

structure Candidates where
  pathGit : Map String PathGitCandidate
  registry : Map String (List Release)
  patched : Map String Version

namespace Candidates

def versions (c : Candidates) (package : String) : List Version :=
  match c.pathGit.lookup package with
  | some candidate => [candidate.version]
  | none => ((c.registry.lookup package).getD []).map (·.version)

/-- A requirement on a patched identity is the patched version. -/
def releaseDeps (c : Candidates) (release : Release) : List (String × VersionReq) :=
  release.deps.map fun d =>
    match c.patched.lookup d.package with
    | some v => (d.package, exactReq v)
    | none => (d.package, d.req)

def dependencies (c : Candidates) (package : String) (version : Version) :
    List (String × VersionReq) :=
  match c.pathGit.lookup package with
  | some candidate => if candidate.version = version then candidate.deps else []
  | none =>
    match ((c.registry.lookup package).getD []).find? (·.version = version) with
    | some release => c.releaseDeps release
    | none => []

end Candidates

/-! ## Solving -/

/-- The requirements as intervals, where no bound overflows. -/
def rangesOf (reqs : List (String × VersionReq)) : Option (List (String × Ranges)) :=
  reqs.mapM fun r => (reqToRanges r.2).map (r.1, ·)

def rowOf (c : Candidates) (package : String) (version : Version) : Option Row :=
  (rangesOf (c.dependencies package version)).map fun deps => ⟨package, version, deps⟩

/-- Breadth first over the packages in reach, each with all its versions. -/
def registerAll (c : Candidates) : Nat → List String → List String → List Row → Option (List Row)
  | 0, _, _, _ => none
  | _ + 1, [], _, rows => some rows
  | fuel + 1, package :: queue, seen, rows =>
    if package ∈ seen then registerAll c fuel queue seen rows
    else do
      let new ← (c.versions package).mapM (rowOf c package)
      let next := (c.versions package).flatMap fun v => (c.dependencies package v).map (·.1)
      registerAll c fuel (queue ++ next.filter fun p => !(p ∈ package :: seen)) (package :: seen)
        (rows ++ new)

def resolveVersions (fuel : Nat) (c : Candidates) (rootDeps : List (String × VersionReq)) :
    Walk (Map String Version) :=
  match rangesOf rootDeps, registerAll c fuel (rootDeps.map (·.1)) [] [] with
  | some root, some rows =>
    match W.pubgrub rows root with
    | .ok solution => pure solution
    | .error report => throw (.unsolvable report)
  | _, _ => cut

/-- The registry requirements the local manifests declare. -/
def frontier (pathGit : Map String PathGitCandidate) (rootDeps : List (String × VersionReq)) :
    List (String × VersionReq) :=
  (rootDeps ++ pathGit.entries.flatMap fun e => e.2.deps).filter
    fun r => (pathGit.lookup r.1).isNone

/-- Whether the locked versions are adopted. -/
def adoptsLock (pathGit : Map String PathGitCandidate) (rootDeps : List (String × VersionReq)) :
    Bool :=
  let reqs := frontier pathGit rootDeps
  cfg.lockPins = .honor && !reqs.isEmpty &&
    reqs.all fun r => (cfg.lock.lockedVersion r.1).any r.2.matches

/-- The locked versions of the identities that are not local. -/
def lockedSelection (pathGit : Map String PathGitCandidate) : Map String Version :=
  pathGit.keys.foldl (fun versions identity => versions.erase identity) cfg.lock.versions

def solve (fuel : Nat) (deps : Dependencies) (dir : String) : Walk Unit := do
  gatherPatches W cfg fuel
  let rootDeps ← gather W cfg fuel deps dir
  let w ← get
  if adoptsLock cfg w.pathGit rootDeps then
    modify fun w => { w with solution := lockedSelection cfg w.pathGit }
  else do
    let registry ← loadCandidates W cfg (rootExactPins rootDeps) fuel w.registryQueue [] ∅
    let solution ← resolveVersions W fuel ⟨w.pathGit, registry, w.patchedVersions⟩ rootDeps
    modify fun w => { w with solution := solution, candidates := registry }

/-- Select versions, then materialise what the manifests name. -/
def resolveGraph (fuel : Nat) (deps : Dependencies) (dir : String) :
    Walk (List (String × List String)) := do
  solve W cfg fuel deps dir
  walk W cfg fuel deps dir

end Noeta.Pm
