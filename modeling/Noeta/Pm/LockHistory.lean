import Noeta.Pm.Precedence

/-!
# The lock over a history of resolves

The fast path checks the requirements of the local manifests against the lock and takes the rest on
trust: that the lock was closed and consistent when it was written. That is an invariant of the lock over
a history of resolves and edits (`LockSound`), but only of the identities that no path, git or `[patch]`
tree stood for when they were written.
-/

namespace Noeta.Pm

open Semver Lockfile Requirement Fallible

/-! ## Releases that do not change -/

/-- What was published of every version: its coordinates and dependencies. -/
abbrev Published := String → Version → Option (GitCoords × List IndexDep)

/-- A table lists exactly these registry dependencies. -/
structure SameDeps (ds : Dependencies) (ideps : List IndexDep) : Prop where
  listed : ∀ dep ∈ ds.leaves, ∃ package req, dep = .registry (some package) req ∧
    (⟨package.identity, req⟩ : IndexDep) ∈ ideps
  published : ∀ d ∈ ideps, ∃ package, .registry (some package) d.req ∈ ds.leaves ∧
    package.identity = d.package

/-- The world serves what was published, and the tree of a release has the release's dependencies. -/
structure Immutable (pub : Published) (W : World) : Prop where
  served : ∀ name rs, W.releases name = .ok rs → ∀ r ∈ rs,
    pub name r.version = some (r.coords, r.deps)
  tree : ∀ name version coords ideps source pin f m, pub name version = some (coords, ideps) →
    source = coords.url ∨ W.localRepo name = some source →
    W.fetch source (.tag coords.tag) pin = .ok f → W.readManifest f.path = .ok m →
      SameDeps m.dependencies ideps

/-! ## Resolves -/

/-- One resolve: the world it runs in, what the root fixes, and the root's table. -/
structure Resolve where
  world : World
  cfg : Config
  fuel : Nat
  deps : Dependencies
  dir : String

namespace Resolve

variable (s : Resolve)

/-- The gathered requirements let the solve adopt the lock's versions. -/
def Adopts : Prop :=
  ∃ t g rootDeps, (gatherPatches s.world s.cfg s.fuel).Returns .init () t ∧
    (gather s.world s.cfg s.fuel s.deps s.dir).Returns t rootDeps g ∧
    adoptsLock s.cfg g.pathGit rootDeps = true

/-- The walk after the solve never misses an identity, and every requirement of the graph on what is
not patched is met by the version that was materialised. -/
structure FastPathOk : Prop where
  selected : ∀ w e, (solve s.world s.cfg s.fuel s.deps s.dir).Returns .init () w →
    (walk s.world s.cfg s.fuel s.deps s.dir).Raises w e → ¬ NotSelected e
  matched : ∀ w edges w', (solve s.world s.cfg s.fuel s.deps s.dir).Returns .init () w →
    (walk s.world s.cfg s.fuel s.deps s.dir).Returns w edges w' →
    ∀ ds base, Declares s.world s.deps s.dir w' ds base →
    ∀ package req, .registry (some package) req ∈ Dependencies.leaves ds →
      s.cfg.patches.lookup package.identity = none →
      ∃ inst, w'.instances.lookup package.identity = some inst ∧ req.matches inst.version = true

/-- The registry requirements that are met on the way through the spine and the locked releases. -/
inductive Demanded (pub : Published) : String → VersionReq → Prop
  | spine {o : Option String} {ds : Dependencies} {base : String} {package : PackageName}
      {req : VersionReq} (hspine : Spine s.world s.cfg s.deps s.dir o ds base)
      (hmem : .registry (some package) req ∈ ds.leaves)
      (hplain : s.cfg.patches.lookup package.identity = none) :
      Demanded pub package.identity req
  | release {id : String} {req : VersionReq} {v : Version} {coords : GitCoords}
      {ideps : List IndexDep} {d : IndexDep} (h : Demanded pub id req)
      (hlocked : s.cfg.lock.lockedVersion id = some v) (hpub : pub id v = some (coords, ideps))
      (hmem : d ∈ ideps) (hplain : s.cfg.patches.lookup d.package = none) :
      Demanded pub d.package d.req

/-- The intervals of a requirement take in a version the requirement does not match. -/
def Widens (req : VersionReq) (v : Version) : Prop :=
  (∃ r, reqToRanges req = some r ∧ r.contains v = true) ∧ req.matches v = false

/-- What is demanded of the registry has no local tree, had none when the lock was written, and is
locked at no version that only the intervals take in; and the spine has one tree for each identity. -/
structure Undisturbed (pub : Published) (tainted : String → Prop) : Prop where
  oneTree : OneTree s.world s.cfg s.deps s.dir
  registry : ∀ id req, s.Demanded pub id req →
    ¬ OnSpine s.world s.cfg s.deps s.dir id ∧ ¬ tainted id
  exact : ∀ id req v, s.Demanded pub id req → s.cfg.lock.lockedVersion id = some v →
    ¬ Widens req v

/-- `id` has a local tree in this resolve: on its spine, or in the graph `w` it ended with. -/
def HasLocal (w : Walker) (id : String) : Prop :=
  OnSpine s.world s.cfg s.deps s.dir id ∨
    ∃ ds base dep d m pkg, Declares s.world s.deps s.dir w ds base ∧ dep ∈ Dependencies.leaves ds ∧
      localDir s.world s.cfg base dep = some d ∧ s.world.readManifest d = .ok m ∧
      m.package = some pkg ∧ pkg.name.identity = id

/-- What the lock that is written has from a local tree: of this resolve, or of an earlier one whose
pin is carried over. -/
def TaintedAfter (w : Walker) (tainted : String → Prop) (id : String) : Prop :=
  s.HasLocal w id ∨ tainted id ∧ ∃ inst, w.instances.lookup id = some inst ∧
    pinsRelease s.cfg.lock id inst.version = true

end Resolve

/-- What is locked of an instance. -/
def Instance.locked (inst : Instance) (identity : String) : LockedPackage where
  identity := identity
  version := inst.version
  contentHash := inst.contentHash
  source := inst.source
  native := inst.native
  edition := inst.edition
  patched := inst.patched

/-- What a resolved graph locks. -/
def lockedPackages (w : Walker) : List LockedPackage :=
  w.instances.entries.map fun e => e.2.locked e.1

section History

variable (pub : Published) (displayVersion : Version → String)
  (parseVersion : String → Option Version) (C : Resolve → (String → Prop) → Prop)

/-- The locks that a history of resolves and edits can leave, each with the identities it has from local
trees. What a resolve reads besides the lock is arbitrary, so any edit may come before it; one that
fails or writes nothing leaves the lock as it was. Every resolve that adopts the lock meets `C`, and what
is written of a version reads back as it. -/
inductive History : Lock → (String → Prop) → Prop
  | start : History .empty fun _ => False
  | resolve {L : Lock} {tainted : String → Prop} {edges : List (String × List String)} {w : Walker}
      (s : Resolve) (logTrust : Option LogTrust) (advisoryTrust : Option AdvisoryTrust)
      (h : History L tainted) (hlock : s.cfg.lock = L) (himm : Immutable pub s.world)
      (hsolver : SoundSolver s.world) (hcond : s.Adopts → C s tainted)
      (hret : (resolveGraph s.world s.cfg s.fuel s.deps s.dir).Returns .init edges w)
      (hwrites : ∃ p ∈ lockedPackages w, p.patched = false)
      (hparse : ∀ p ∈ lockedPackages w, parseVersion (displayVersion p.version) = some p.version) :
      History
        (Lockfile.read parseVersion
          (render displayVersion (lockedPackages w) w.scopeTrust logTrust advisoryTrust))
        (s.TaintedAfter w tainted)

end History

/-! ## The invariant -/

/-- What the lock pins of an identity it has from the registry was published, and its dependencies are
locked within their intervals, unless they come from a local tree. -/
def LockSound (pub : Published) (L : Lock) (tainted : String → Prop) : Prop :=
  ∀ id v, L.lockedVersion id = some v → ¬ tainted id → ∃ coords ideps,
    pub id v = some (coords, ideps) ∧
    (∀ url tag sha, L.registryCoords id = some (url, tag, sha) →
      url = coords.url ∧ tag = coords.tag) ∧
    ∀ d ∈ ideps, tainted d.package ∨ ∃ u r, L.lockedVersion d.package = some u ∧
      reqToRanges d.req = some r ∧ r.contains u = true

theorem LockSound.empty (pub : Published) (tainted : String → Prop) :
    LockSound pub .empty tainted := by
  intro id v h
  simp [Lock.lockedVersion, Lock.empty] at h

section Step

variable {pub : Published} {tainted : String → Prop} {s : Resolve}

theorem TreeOf.published {name : String} {v : Version} {mat : Materialized} {m : Manifest}
    (h : TreeOf s.world s.cfg name v mat) (himm : Immutable pub s.world)
    (hsound : LockSound pub s.cfg.lock tainted)
    (hclean : pinsRelease s.cfg.lock name v = true → ¬ tainted name)
    (hread : s.world.readManifest mat.dir = .ok m) :
    ∃ coords ideps, pub name v = some (coords, ideps) ∧ SameDeps m.dependencies ideps ∧
      ∃ sha, mat.source = .git coords.url (.tag coords.tag) sha := by
  cases h with
  | @locked url tag sha pin f hcoords hversion hfetch =>
    have hpins : pinsRelease s.cfg.lock name v = true := by
      simp [pinsRelease, hcoords, hversion]
    obtain ⟨coords, ideps, hpub, hsame, _⟩ := hsound name v hversion (hclean hpins)
    obtain ⟨hurl, htag⟩ := hsame _ _ _ hcoords
    rw [hurl, htag] at hfetch
    rw [hurl, htag]
    exact ⟨coords, ideps, hpub, himm.tree _ _ _ _ _ _ _ _ hpub (Or.inl rfl) hfetch hread, _, rfl⟩
  | @served rs release source pin f hserved hmem hversion hsource hfetch =>
    have hpub := himm.served name rs hserved release hmem
    rw [hversion] at hpub
    exact ⟨_, _, hpub, himm.tree _ _ _ _ _ _ _ _ hpub hsource hfetch hread, _, rfl⟩

end Step

/-! ## Adopting the lock -/

/-- The tables the walk of an adopting resolve comes to: those of the spine, and those of the locked
releases that are demanded. -/
def Resolve.Table (s : Resolve) (pub : Published) (ds : Dependencies) (base : String) : Prop :=
  (∃ o, Spine s.world s.cfg s.deps s.dir o ds base) ∨
    ∃ id req v coords ideps, s.Demanded pub id req ∧ s.cfg.lock.lockedVersion id = some v ∧
      pub id v = some (coords, ideps) ∧ SameDeps ds ideps

theorem Resolve.Table.demanded {pub : Published} {s : Resolve} {ds : Dependencies} {base : String}
    (h : s.Table pub ds base) {package : PackageName} {req : VersionReq}
    (hmem : .registry (some package) req ∈ ds.leaves)
    (hplain : s.cfg.patches.lookup package.identity = none) :
    s.Demanded pub package.identity req := by
  obtain ⟨o, hspine⟩ | ⟨id, req', v, coords, ideps, hd, hlocked, hpub, hsame⟩ := h
  · exact .spine hspine hmem hplain
  · obtain ⟨package', req'', heq, hdep⟩ := hsame.listed _ hmem
    cases heq
    exact .release hd hlocked hpub hdep hplain

/-- What a solve that adopts the lock starts from. -/
structure Adopting (pub : Published) (s : Resolve) (tainted : String → Prop) (g : Walker)
    (rootDeps : List (String × VersionReq)) : Prop where
  done : GatheringDone s.world s.cfg s.deps s.dir rootDeps g
  adopts : adoptsLock s.cfg g.pathGit rootDeps = true
  immutable : Immutable pub s.world
  sound : LockSound pub s.cfg.lock tainted
  undisturbed : s.Undisturbed pub tainted

namespace Adopting

variable {pub : Published} {s : Resolve} {tainted : String → Prop} {g : Walker}
  {rootDeps : List (String × VersionReq)}

theorem not_local (h : Adopting pub s tainted g rootDeps) {id : String} {req : VersionReq}
    (hd : s.Demanded pub id req) : g.pathGit.lookup id = none := by
  have hspine := (h.undisturbed.registry id req hd).1
  cases hl : g.pathGit.lookup id with
  | none => rfl
  | some c => exact absurd (h.done.toNoted.onSpine (by rw [hl]; rfl)) hspine

/-- Every requirement that is demanded is locked at a version it matches: one of the spine because the
fast path checked it, one of a release because the lock is sound. -/
theorem locked (h : Adopting pub s tainted g rootDeps) {id : String} {req : VersionReq}
    (hd : s.Demanded pub id req) :
    ∃ v, s.cfg.lock.lockedVersion id = some v ∧ req.matches v = true := by
  cases hd with
  | spine hspine hmem hplain =>
    have hlocal := h.not_local (.spine hspine hmem hplain)
    have hfrontier := h.done.mem_frontier h.undisturbed.oneTree hspine hmem hplain hlocal
    have hall := h.adopts
    simp only [adoptsLock, Bool.and_eq_true, List.all_eq_true] at hall
    have hany := hall.2 _ hfrontier
    obtain ⟨v, hv, hm⟩ := Option.any_eq_true _ _ |>.mp hany
    exact ⟨v, hv, hm⟩
  | @release id' req' v coords ideps d hd' hlocked hpub hmem hplain =>
    have hself : s.Demanded pub d.package d.req := .release hd' hlocked hpub hmem hplain
    obtain ⟨coords', ideps', hpub', _, hdeps⟩ :=
      h.sound id' v hlocked (h.undisturbed.registry id' req' hd').2
    rw [hpub] at hpub'
    cases hpub'
    obtain htaint | ⟨u, r, hu, hr, hc⟩ := hdeps d hmem
    · exact absurd htaint (h.undisturbed.registry _ _ hself).2
    · have hexact := h.undisturbed.exact _ _ u hself hu
      refine ⟨u, hu, ?_⟩
      by_contra hm
      exact hexact ⟨⟨r, hr, hc⟩, by simpa using hm⟩

theorem selected (h : Adopting pub s tainted g rootDeps) {id : String} {req : VersionReq}
    (hd : s.Demanded pub id req) : ∃ v, (lockedSelection s.cfg g.pathGit).lookup id = some v ∧
      s.cfg.lock.lockedVersion id = some v ∧ req.matches v = true := by
  obtain ⟨v, hv, hm⟩ := h.locked hd
  refine ⟨v, ?_, hv, hm⟩
  rw [lookup_lockedSelection, h.not_local hd]
  exact hv

/-- The walk stays in these tables. -/
theorem guides (h : Adopting pub s tainted g rootDeps) :
    Guides s.world s.cfg (lockedSelection s.cfg g.pathGit) (s.Table pub) := by
  intro ds base dep w tree mat manifest pkg htable hmem hsol hloc
  cases hpatch : s.cfg.patches.lookup tree.identity with
  | some patch =>
    obtain ⟨hdir, hread, _⟩ := hloc.overridden patch hpatch
    rw [hdir]
    exact Or.inl ⟨_, .patched hpatch hread⟩
  | none =>
    obtain ⟨hdir, _, hmanifest, _⟩ := hloc.plain hpatch
    have hid := hloc.identity
    have hlead := hloc.leads
    have hlocal : localDir s.world s.cfg base dep = some mat.dir → s.Table pub
        tree.manifest.dependencies tree.dir := by
      intro hd
      obtain ⟨o, hspine⟩ | ⟨_, _, _, _, _, _, _, _, hsame⟩ := htable
      · rw [hmanifest, hdir]
        exact Or.inl ⟨_, .declared hspine hmem hd hloc.read hloc.package (by rw [← hid]; exact hpatch)⟩
      · obtain ⟨package, req, heq, _⟩ := hsame.listed _ hmem
        rw [heq] at hd
        cases hd
    cases dep with
    | path path package => exact hlocal hlead
    | git url gitRef package => exact hlocal hlead
    | registry package req =>
      cases package with
      | none => exact hlead.elim
      | some package =>
        cases hp : s.cfg.patches.lookup package.identity with
        | some patch =>
          -- a patched tree declares the identity it is the patch of
          simp only [Leads, RegistryTree, hp] at hlead
          obtain ⟨⟨m, hread, pkg', hpkg', hname⟩, _⟩ := h.done.patches _ _ hp
          have hr := hloc.read
          rw [hlead, hread] at hr
          cases hr
          have hpkg := hloc.package
          rw [hpkg'] at hpkg
          cases hpkg
          rw [hid, hname, hp] at hpatch
          cases hpatch
        | none =>
          obtain ⟨_, _, _, hsel, htree, hdir', _, hman, _⟩ := hloc.registry hp
          have hd : s.Demanded pub package.identity req := htable.demanded hmem hp
          obtain ⟨v, hv, hlocked, _⟩ := h.selected hd
          rw [hsol, hv] at hsel
          cases hsel
          have hclean := (h.undisturbed.registry _ _ hd).2
          obtain ⟨coords, ideps, hpub, hsame, _⟩ :=
            htree.published h.immutable h.sound (fun _ => hclean) hloc.read
          rw [hman]
          exact Or.inr ⟨_, req, _, coords, ideps, hd, hlocked, hpub, hsame⟩

theorem selects (h : Adopting pub s tainted g rootDeps) :
    Selects s.cfg (lockedSelection s.cfg g.pathGit) (s.Table pub) := by
  intro ds base package req htable hmem hplain
  obtain ⟨v, hv, _⟩ := h.selected (htable.demanded hmem hplain)
  rw [hv]
  rfl

theorem settled (h : Adopting pub s tainted g rootDeps) {w : Walker}
    (hw : w = { g with solution := lockedSelection s.cfg g.pathGit }) :
    Settled s.world s.cfg s.deps s.dir (lockedSelection s.cfg g.pathGit) (s.Table pub) w := by
  have hsolved : Solved s.world s.cfg s.deps s.dir g rootDeps w := .adopted h.adopts hw
  have hsettled := hsolved.settled h.done (s.Table pub)
  rw [hw] at hsettled ⊢
  exact hsettled

theorem table (h : Adopting pub s tainted g rootDeps) {w w' : Walker}
    (hw : w = { g with solution := lockedSelection s.cfg g.pathGit })
    {edges : List (String × List String)}
    (hwalk : (walk s.world s.cfg s.fuel s.deps s.dir).Returns w edges w') {ds : Dependencies}
    {base : String} (hds : Declares s.world s.deps s.dir w' ds base) : s.Table pub ds base := by
  have hroot : s.Table pub s.deps s.dir := Or.inl ⟨none, .root⟩
  obtain ⟨hsettled, _, _⟩ := walk_spec s.fuel h.guides (h.settled hw) hroot hwalk
  cases hds with
  | root => exact hroot
  | «instance» hinst hread => exact hsettled.guided _ _ _ hinst hread

end Adopting

section Run

variable {pub : Published} {s : Resolve} {tainted : String → Prop}

theorem Resolve.Adopts.adopting (h : s.Adopts) (himm : Immutable pub s.world)
    (hsound : LockSound pub s.cfg.lock tainted) (hund : s.Undisturbed pub tainted) {w : Walker}
    (hsolve : (solve s.world s.cfg s.fuel s.deps s.dir).Returns .init () w) :
    ∃ g rootDeps, Adopting pub s tainted g rootDeps ∧
      w = { g with solution := lockedSelection s.cfg g.pathGit } := by
  obtain ⟨t, g, rootDeps, hpatches, hgather, hadopts⟩ := h
  obtain ⟨t', g', rootDeps', hpatches', hgather', hdone, hsolved⟩ := solve_spec hsolve
  have ht : ((), t) = ((), t') := by
    simpa [Fallible.Returns] using hpatches.symm.trans hpatches'
  cases ht
  have hg : (rootDeps, g) = (rootDeps', g') := by
    simpa [Fallible.Returns] using hgather.symm.trans hgather'
  cases hg
  cases hsolved with
  | adopted _ hw => exact ⟨g, rootDeps, ⟨hdone, hadopts, himm, hsound, hund⟩, hw⟩
  | live hnot _ _ _ =>
    rw [hadopts] at hnot
    cases hnot

theorem fastPathOk_of_sound (h : s.Adopts) (himm : Immutable pub s.world)
    (hsound : LockSound pub s.cfg.lock tainted) (hund : s.Undisturbed pub tainted) :
    s.FastPathOk where
  selected w e hsolve hwalk := by
    obtain ⟨g, rootDeps, ha, hw⟩ := h.adopting himm hsound hund hsolve
    exact walk_selected s.fuel ha.guides ha.selects (ha.settled hw) (Or.inl ⟨none, .root⟩) hwalk
  matched w edges w' hsolve hwalk ds base hds package req hmem hplain := by
    obtain ⟨g, rootDeps, ha, hw⟩ := h.adopting himm hsound hund hsolve
    have hd := (ha.table hw hwalk hds).demanded hmem hplain
    obtain ⟨v, hv, _, hm⟩ := ha.selected hd
    have hret : (resolveGraph s.world s.cfg s.fuel s.deps s.dir).Returns .init edges w' := by
      simp only [resolveGraph, returns_bind]
      exact ⟨_, w, hsolve, hwalk⟩
    obtain ⟨_, inst, hinst, hsol⟩ := resolveGraph_visits hret hds _ hmem package req rfl hplain
    obtain ⟨hsettled, _, _⟩ := walk_spec s.fuel ha.guides (ha.settled hw)
      (Or.inl ⟨none, .root⟩) hwalk
    rw [hsettled.solution, hv] at hsol
    cases hsol
    exact ⟨inst, hinst, hm⟩

end Run

/-! ## The lock that is written -/

theorem nodup_lockedPackages (w : Walker) : ((lockedPackages w).map (·.identity)).Nodup := by
  have hkeys : (lockedPackages w).map (·.identity) = w.instances.keys := by
    rw [lockedPackages, List.map_map]
    rfl
  rw [hkeys]
  exact w.instances.nodupKeys

theorem find_lockedPackages (w : Walker) (id : String) :
    ((lockedPackages w).filter (!·.patched)).find? (·.identity = id) =
      ((w.instances.lookup id).filter (!·.patched)).map (·.locked id) := by
  cases hfind : ((lockedPackages w).filter (!·.patched)).find? (·.identity = id) with
  | none =>
    cases hl : w.instances.lookup id with
    | none => rfl
    | some inst =>
      have hmem : inst.locked id ∈ lockedPackages w :=
        List.mem_map.mpr ⟨⟨id, inst⟩, AList.mem_lookup_iff.mp hl, rfl⟩
      have hnot := List.find?_eq_none.mp hfind (inst.locked id)
      by_cases hp : inst.patched = true
      · simp [Option.filter, hp]
      · refine absurd (hnot (List.mem_filter.mpr ⟨hmem, ?_⟩)) (by simp [Instance.locked])
        simpa [Instance.locked] using hp
  | some p =>
    have hid : p.identity = id := by simpa using List.find?_some hfind
    obtain ⟨hmem, hp⟩ := List.mem_filter.mp (List.mem_of_find?_eq_some hfind)
    obtain ⟨⟨a, inst⟩, he, heq⟩ := List.mem_map.mp hmem
    have ha : a = id := by
      rw [← heq] at hid
      exact hid
    have hl : w.instances.lookup id = some inst := by
      rw [← ha]
      exact AList.mem_lookup_iff.mpr he
    have hpatched : (!inst.patched) = true := by
      rw [← heq] at hp
      exact hp
    rw [hl, Option.filter_some, if_pos hpatched, Option.map_some, ← heq, ha]

section Step

variable {pub : Published} {s : Resolve} {tainted : String → Prop} {g w w' : Walker}
  {rootDeps : List (String × VersionReq)} {id : String} {v : Version} {coords : GitCoords}
  {ideps : List IndexDep}

/-- What is selected of an identity without a local tree has its dependencies selected too: the version
solver saw to it, or they are locked. -/
theorem Solved.closed (hsolved : Solved s.world s.cfg s.deps s.dir g rootDeps w)
    (hdone : GatheringDone s.world s.cfg s.deps s.dir rootDeps g) (himm : Immutable pub s.world)
    (hsolver : SoundSolver s.world)
    (hadopting : adoptsLock s.cfg g.pathGit rootDeps = true →
      Adopting pub s tainted g rootDeps ∧ ∃ req, s.Demanded pub id req)
    (hspine : ¬ OnSpine s.world s.cfg s.deps s.dir id) (hsol : w.solution.lookup id = some v)
    (hpub : pub id v = some (coords, ideps)) :
    ∀ d ∈ ideps, s.cfg.patches.lookup d.package = none →
      ∃ u r, w.solution.lookup d.package = some u ∧ reqToRanges d.req = some r ∧
        r.contains u = true := by
  intro d hd hplain
  have hlocal : g.pathGit.lookup id = none := by
    cases hl : g.pathGit.lookup id with
    | none => rfl
    | some c => exact absurd (hdone.toNoted.onSpine (by rw [hl]; rfl)) hspine
  cases hsolved with
  | adopted hadopts hw =>
    obtain ⟨ha, req, hdem⟩ := hadopting hadopts
    rw [hw] at hsol ⊢
    obtain ⟨v', hv', hlocked, _⟩ := ha.selected hdem
    rw [show (lockedSelection s.cfg g.pathGit).lookup id = some v from hsol] at hv'
    cases hv'
    have hnext : s.Demanded pub d.package d.req := .release hdem hlocked hpub hd hplain
    obtain ⟨coords', ideps', hpub', _, hdeps⟩ :=
      ha.sound id v hlocked (ha.undisturbed.registry _ _ hdem).2
    rw [hpub] at hpub'
    cases hpub'
    obtain htaint | ⟨u, r, hu, hr, hc⟩ := hdeps d hd
    · exact absurd htaint (ha.undisturbed.registry _ _ hnext).2
    · refine ⟨u, r, ?_, hr, hc⟩
      show (lockedSelection s.cfg g.pathGit).lookup d.package = some u
      rw [lookup_lockedSelection, ha.not_local hnext]
      exact hu
  | live _ _ hsel hw =>
    rw [hw] at hsol ⊢
    obtain ⟨served, release, hserved, hmem, hversion, hdeps⟩ := hsel hsolver id v hsol hlocal
    have hpub' := himm.served id served hserved release hmem
    rw [hversion, hpub] at hpub'
    cases hpub'
    exact hdeps d hd hplain

/-- An instance of an identity without a local tree is the tree of the selected version. -/
theorem Installed.selected {inst : Instance} {G : Dependencies → String → Prop}
    {sol : Map String Version} (hdone : GatheringDone s.world s.cfg s.deps s.dir rootDeps g)
    (hsettled : Settled s.world s.cfg s.deps s.dir sol G w)
    (hinst : w.instances.lookup id = some inst) (hlocal : ¬ s.HasLocal w id) :
    s.cfg.patches.lookup id = none ∧ ∃ ds base package req mat,
      Declares s.world s.deps s.dir w ds base ∧
      .registry (some package) req ∈ Dependencies.leaves ds ∧ package.identity = id ∧
      w.solution.lookup id = some inst.version ∧
      TreeOf s.world s.cfg id inst.version mat ∧ inst.dir = mat.dir ∧ inst.source = mat.source := by
  have hplain : s.cfg.patches.lookup id = none := by
    cases hp : s.cfg.patches.lookup id with
    | none => rfl
    | some patch =>
      obtain ⟨⟨m, hread, _⟩, _⟩ := hdone.patches id patch hp
      exact absurd (Or.inl (onSpine_of_patched hp hread)) hlocal
  have hi := hsettled.installed id inst hinst
  obtain ⟨m, pkg, hread, hpkg, _, hname⟩ := hi.manifest
  refine ⟨hplain, ?_⟩
  cases hi.origin with
  | @overridden id' patch hpatch hdir =>
    obtain ⟨⟨m', hread', pkg', hpkg', hname'⟩, _⟩ := hdone.patches id' patch hpatch
    rw [hdir, hread'] at hread
    cases hread
    rw [hpkg'] at hpkg
    cases hpkg
    rw [← hname hplain, hname', hpatch] at hplain
    cases hplain
  | declared hds hmem hdir =>
    exact absurd (Or.inr ⟨_, _, _, _, m, pkg, hds, hmem, hdir, hread, hpkg, hname hplain⟩) hlocal
  | selected hds hmem hid hsol htree hdir hsource =>
    exact ⟨_, _, _, _, _, hds, hmem, hid, hsol, htree, hdir, hsource⟩

/-- One resolve keeps the lock sound. -/
theorem LockSound.resolve {displayVersion : Version → String}
    {parseVersion : String → Option Version} {edges : List (String × List String)}
    {logTrust : Option LogTrust} {advisoryTrust : Option AdvisoryTrust}
    (hparse : ∀ p ∈ lockedPackages w', parseVersion (displayVersion p.version) = some p.version)
    (hsound : LockSound pub s.cfg.lock tainted)
    (himm : Immutable pub s.world) (hsolver : SoundSolver s.world)
    (hcond : s.Adopts → s.Undisturbed pub tainted)
    (hret : (resolveGraph s.world s.cfg s.fuel s.deps s.dir).Returns .init edges w') :
    LockSound pub (Lockfile.read parseVersion
      (render displayVersion (lockedPackages w') w'.scopeTrust logTrust advisoryTrust))
      (s.TaintedAfter w' tainted) := by
  obtain hempty | hpins := @read_render_pins displayVersion parseVersion (lockedPackages w')
    w'.scopeTrust logTrust advisoryTrust hparse (nodup_lockedPackages w')
  · rw [hempty]
    exact .empty pub _
  obtain ⟨w, hsolve, hwalk⟩ := resolveGraph_spec hret
  obtain ⟨t, g, rootDeps, hpatches, hgather, hdone, hsolved⟩ := solve_spec hsolve
  have hadopting : adoptsLock s.cfg g.pathGit rootDeps = true → Adopting pub s tainted g rootDeps :=
    fun ha => ⟨hdone, ha, himm, hsound, hcond ⟨t, g, rootDeps, hpatches, hgather, ha⟩⟩
  obtain ⟨hsettled, hwalked, _⟩ := walk_spec s.fuel (G := fun _ _ => True)
    (fun _ _ _ _ _ _ _ _ _ _ _ _ => trivial) (hsolved.settled hdone _) trivial hwalk
  have hversions : ∀ id inst, w'.instances.lookup id = some inst → inst.patched = false →
      (Lockfile.read parseVersion (render displayVersion (lockedPackages w') w'.scopeTrust logTrust
        advisoryTrust)).lockedVersion id = some inst.version := by
    intro id inst hl hp
    rw [(hpins id).1, find_lockedPackages, hl]
    simp [Option.filter, hp, Instance.locked]
  intro id v hv hclean
  obtain ⟨inst, hl, hp, hver⟩ : ∃ inst, w'.instances.lookup id = some inst ∧
      inst.patched = false ∧ inst.version = v := by
    rw [(hpins id).1, find_lockedPackages] at hv
    cases hl : w'.instances.lookup id with
    | none => simp [hl] at hv
    | some inst =>
      rw [hl] at hv
      cases hp : inst.patched with
      | true => simp [Option.filter, hp] at hv
      | false =>
        simp only [Option.filter, hp, Bool.not_false, if_true, Option.map_some, Instance.locked,
          Option.some.injEq] at hv
        exact ⟨inst, rfl, hp, hv⟩
  obtain ⟨hplain, ds, base, package, req, mat, hds, hmem, hid, hsol, htree, hdir, hsource⟩ :=
    Installed.selected hdone hsettled hl fun hlocal => hclean (Or.inl hlocal)
  obtain ⟨m, pkg, hread, _⟩ := (hsettled.installed id inst hl).manifest
  rw [hver] at hsol htree
  rw [hsettled.solution] at hsol
  -- a pin that is carried over from an unsound one taints
  obtain ⟨coords, ideps, hpub, hsame, sha, hsha⟩ := htree.published himm hsound
    (fun hpin ht => hclean (Or.inr ⟨ht, inst, hl, by rw [hver]; exact hpin⟩))
    (by rw [← hdir]; exact hread)
  refine ⟨coords, ideps, hpub, ?_, ?_⟩
  · intro url tag sha' hcoords
    rw [(hpins id).2, find_lockedPackages, hl] at hcoords
    simp only [Option.filter, hp, Bool.not_false, if_true, Option.map_some, Option.bind_some,
      Instance.locked, hsource, hsha, ResolvedSource.coords, Option.some.injEq,
      Prod.mk.injEq] at hcoords
    exact ⟨hcoords.1.symm, hcoords.2.1.symm⟩
  · have hdemanded : adoptsLock s.cfg g.pathGit rootDeps = true →
        Adopting pub s tainted g rootDeps ∧ ∃ req, s.Demanded pub id req := by
      intro hadopts
      have ha := hadopting hadopts
      refine ⟨ha, req, ?_⟩
      have hw : w = { g with solution := lockedSelection s.cfg g.pathGit } := by
        cases hsolved with
        | adopted _ hw => exact hw
        | live hnot _ _ _ =>
          rw [hadopts] at hnot
          cases hnot
      have hdem := (ha.table hw hwalk hds).demanded hmem (by rw [hid]; exact hplain)
      rw [hid] at hdem
      exact hdem
    have hclosed := hsolved.closed hdone himm hsolver hdemanded
      (fun hspine => hclean (Or.inl (Or.inl hspine))) hsol hpub
    intro d hd
    cases hdp : s.cfg.patches.lookup d.package with
    | some patch =>
      obtain ⟨⟨m', hread', _⟩, _⟩ := hdone.patches _ _ hdp
      exact Or.inl (Or.inl (Or.inl (onSpine_of_patched hdp hread')))
    | none =>
      obtain ⟨u, r, hu, hr, hc⟩ := hclosed d hd hdp
      obtain ⟨package', hleaf, hname⟩ := hsame.published d hd
      obtain ⟨_, inst', hinst', hsol'⟩ := resolveGraph_visits hret (.instance hl hread) _ hleaf
        package' d.req rfl (by rw [hname]; exact hdp)
      rw [hname, hsettled.solution, hu] at hsol'
      cases hsol'
      rw [hname] at hinst'
      have hplain' := (hsettled.installed _ inst' hinst').plain hdp
      exact Or.inr ⟨_, r, hversions _ inst' hinst' hplain', hr, hc⟩

end Step

section Histories

variable {pub : Published} {displayVersion : Version → String}
  {parseVersion : String → Option Version} {L : Lock} {tainted : String → Prop}

theorem History.sound (h : History pub displayVersion parseVersion (·.Undisturbed pub) L tainted) :
    LockSound pub L tainted := by
  induction h with
  | start => exact .empty pub _
  | resolve s logTrust advisoryTrust _ hlock himm hsolver hcond hret _ hparse ih =>
    rw [← hlock] at ih
    exact ih.resolve hparse himm hsolver hcond hret

end Histories

/-! ### A `[patch]` that is removed -/

def aName : PackageName := ⟨"acme", "a"⟩

def bName : PackageName := ⟨"acme", "b"⟩

/-- A manifest of version 1.0.0. -/
def manifestOf (name : PackageName) (dependencies : Dependencies) : Manifest where
  package := some ⟨name, none, libVersion, none, none, none, none⟩
  dependencies := dependencies

def requires (name : PackageName) : Dependencies := [("dep", .one (.registry (some name) caretOne))]

def releaseOf (url : String) (deps : List IndexDep) : Release where
  version := libVersion
  coords := ⟨url, "v1", "sha"⟩
  deps := deps
  yanked := false
  signature := none
  bundle := none
  publishedAt := none

def shopReleases (name : String) : List Release :=
  if name = "acme/a" then [releaseOf "git-a" [⟨"acme/b", caretOne⟩]]
  else if name = "acme/b" then [releaseOf "git-b" []]
  else []

def shopPublished : Published := fun name version =>
  ((shopReleases name).find? (·.version = version)).map fun r => (r.coords, r.deps)

/-- The packages at 1.0.0. -/
def selectionOf (names : List String) : Map String Version :=
  names.foldr (fun name sol => sol.insert name libVersion) ∅

/-- Whether the packages at 1.0.0 are a selection. -/
def shopAccepts (names : List String) (rows : List Row) (root : List (String × Ranges)) : Bool :=
  let met := fun d : String × Ranges => ((selectionOf names).lookup d.1).any d.2.contains
  root.all met &&
    names.all (fun p => rows.any fun row => row.package = p && row.version = libVersion) &&
    rows.all fun row =>
      !((selectionOf names).lookup row.package = some row.version) || row.deps.all met

def shopNames (rows : List Row) : List String :=
  if rows.any (·.package = "acme/a") then ["acme/a", "acme/b"] else ["acme/b"]

/-- An index of `acme/a`, which requires `acme/b`, and of `acme/b`; every tree is at the url it comes
from, and `acme/b` also at `b`. -/
def shopWorld : World where
  join base path := base ++ "/" ++ path
  canonicalize path := path
  readManifest dir :=
    .ok (if dir = "git-a" then manifestOf aName (requires bName) else manifestOf bName [])
  hashTree _ := .ok "h"
  validateNativeCrate _ _ := .ok ()
  fetch url _ _ := .ok ⟨url, "sha", "h"⟩
  scopeKey _ := .ok none
  releases name := .ok (shopReleases name)
  localRepo _ := none
  verifySignature _ _ _ _ := .ok ()
  verifyBundle _ _ _ _ := .ok ("", "")
  pubgrub rows root :=
    if shopAccepts (shopNames rows) rows root then .ok (selectionOf (shopNames rows)) else .error ""
  running := libVersion
  nowUnixMs := 0

def patchedB : Map String PatchOverride :=
  (∅ : Map String PatchOverride).insert "acme/b" ⟨"../b", "b"⟩

/-- The root requires one package. -/
def shopResolve (lock : Lock) (patches : Map String PatchOverride) (name : PackageName) :
    Resolve where
  world := shopWorld
  cfg := { unlocked with
    lock := lock
    patches := patches }
  fuel := 8
  deps := requires name
  dir := "app"

/-- The state a resolve ends with. -/
def Resolve.outcome (s : Resolve) : Walker :=
  match ((resolveGraph s.world s.cfg s.fuel s.deps s.dir).run .init).run with
  | some (.ok (_, w)) => w
  | _ => .init

def displayOne : Version → String := fun _ => "1.0.0"

def parseOne (s : String) : Option Version := if s = "1.0.0" then some libVersion else none

/-- The lock that `s` writes. -/
def Resolve.writes (s : Resolve) : Lock :=
  Lockfile.read parseOne
    (render displayOne (lockedPackages s.outcome) s.outcome.scopeTrust none none)

theorem immutable_shop : Immutable shopPublished shopWorld where
  served name rs h r hr := by
    have hrs : shopReleases name = rs := by simpa [shopWorld] using h
    rw [← hrs] at hr
    unfold shopReleases at hr
    split at hr
    · rename_i hname
      rw [List.mem_singleton.mp hr, hname]
      rfl
    · split at hr
      · rename_i hname
        rw [List.mem_singleton.mp hr, hname]
        rfl
      · simp at hr
  tree name version coords ideps source pin f m hpub hsource hfetch hread := by
    have hsource : source = coords.url := by simpa [shopWorld] using hsource
    have hf : (⟨source, "sha", "h"⟩ : Fetched) = f := by simpa [shopWorld] using hfetch
    rw [← hf, hsource] at hread
    simp only [shopPublished, Option.map_eq_some_iff, Prod.mk.injEq] at hpub
    obtain ⟨r, hfind, hcoords, hdeps⟩ := hpub
    have hmem := List.mem_of_find?_eq_some hfind
    unfold shopReleases at hmem
    rw [← hcoords] at hread
    rw [← hdeps]
    split at hmem
    · rw [List.mem_singleton.mp hmem] at hread ⊢
      have hm : manifestOf aName (requires bName) = m := by
        simpa [shopWorld, releaseOf] using hread
      rw [← hm]
      refine ⟨fun dep hd => ?_, fun d hd => ?_⟩
      · rw [List.mem_singleton.mp hd]
        exact ⟨bName, caretOne, rfl, List.mem_singleton.mpr rfl⟩
      · rw [List.mem_singleton.mp hd]
        exact ⟨bName, List.mem_singleton.mpr rfl, rfl⟩
    · split at hmem
      · rw [List.mem_singleton.mp hmem] at hread ⊢
        have hm : manifestOf bName [] = m := by
          simpa [shopWorld, releaseOf] using hread
        rw [← hm]
        exact ⟨fun dep hd => by simp [manifestOf, Dependencies.leaves] at hd,
          fun d hd => by simp [releaseOf] at hd⟩
      · simp at hmem

theorem lookup_selectionOf {names : List String} {package : String} {v : Version}
    (h : (selectionOf names).lookup package = some v) : package ∈ names ∧ v = libVersion := by
  induction names with
  | nil => simp [selectionOf] at h
  | cons name names ih =>
    have hcons : selectionOf (name :: names) = (selectionOf names).insert name libVersion := rfl
    rw [hcons] at h
    by_cases hn : package = name
    · rw [hn, AList.lookup_insert] at h
      cases h
      exact ⟨by simp [hn], rfl⟩
    · rw [AList.lookup_insert_ne hn] at h
      obtain ⟨hmem, hv⟩ := ih h
      exact ⟨List.mem_cons_of_mem _ hmem, hv⟩

theorem soundSolver_shop : SoundSolver shopWorld := by
  intro rows root sol h
  have hpub : (if shopAccepts (shopNames rows) rows root then .ok (selectionOf (shopNames rows))
    else .error "") = (.ok sol : Except String (Map String Version)) := h
  split at hpub
  · rename_i haccepts
    cases hpub
    simp only [shopAccepts, Bool.and_eq_true, List.all_eq_true, Bool.or_eq_true, List.any_eq_true,
      Bool.not_eq_true', decide_eq_false_iff_not, decide_eq_true_eq] at haccepts
    obtain ⟨⟨hroot, hrows⟩, hmet⟩ := haccepts
    refine ⟨fun d hd => ?_, fun package v hl => ?_, fun row hr hl d hd => ?_⟩
    · exact (Option.any_eq_true _ _).mp (hroot d hd)
    · obtain ⟨hmem, hv⟩ := lookup_selectionOf hl
      obtain ⟨row, hrow, hpkg, hver⟩ := hrows package hmem
      exact ⟨row, hrow, hpkg, by rw [hver, hv]⟩
    · obtain hnot | hall := hmet row hr
      · exact absurd hl hnot
      · exact (Option.any_eq_true _ _).mp (hall d hd)
  · cases hpub

/-- Whether a resolve adopts the lock, by running its gathering. -/
def Resolve.adoptsNow (s : Resolve) : Bool :=
  match ((gatherPatches s.world s.cfg s.fuel).run .init).run with
  | some (.ok (_, t)) =>
    match ((gather s.world s.cfg s.fuel s.deps s.dir).run t).run with
    | some (.ok (rootDeps, g)) => adoptsLock s.cfg g.pathGit rootDeps
    | _ => false
  | _ => false

theorem Resolve.adopts_of_adoptsNow {s : Resolve} (h : s.adoptsNow = true) : s.Adopts := by
  unfold adoptsNow at h
  split at h
  · rename_i t hpatches
    split at h
    · rename_i rootDeps g hgather
      exact ⟨t, g, rootDeps, hpatches, hgather, h⟩
    · cases h
  · cases h

/-- Whether the walk after the solve stops at an identity that was not selected. -/
def Resolve.missesNow (s : Resolve) : Bool :=
  match ((solve s.world s.cfg s.fuel s.deps s.dir).run .init).run with
  | some (.ok (_, w)) =>
    match ((walk s.world s.cfg s.fuel s.deps s.dir).run w).run with
    | some (.error (.notSelected _ _)) => true
    | _ => false
  | _ => false

theorem Resolve.not_fastPathOk_of_missesNow {s : Resolve} (h : s.missesNow = true) :
    ¬ s.FastPathOk := by
  intro hok
  unfold missesNow at h
  split at h
  · rename_i w hsolve
    split at h
    · rename_i key identity hwalk
      exact hok.selected w _ hsolve hwalk ⟨key, identity, rfl⟩
    · cases h
  · cases h

section Unpatched

variable {lock : Lock} {name : PackageName}

theorem spine_shop {o : Option String} {ds : Dependencies} {base : String}
    (h : Spine shopWorld (shopResolve lock ∅ name).cfg (requires name) "app" o ds base) :
    o = none ∧ ds = requires name := by
  induction h with
  | root => exact ⟨rfl, rfl⟩
  | patched hpatch hread => simp [shopResolve] at hpatch
  | declared h hmem hdir hread hpkg hplain ih =>
    rw [ih.2] at hmem
    rw [List.mem_singleton.mp hmem] at hdir
    cases hdir

theorem not_hasLocal_shop (w : Walker) (id : String) : ¬ (shopResolve lock ∅ name).HasLocal w id := by
  rintro (⟨ds, base, h⟩ | ⟨ds, base, dep, d, m, pkg, hds, hmem, hdir, _⟩)
  · cases (spine_shop h).1
  · have hleaves : ∀ n, ∀ dep ∈ (requires n).leaves, localDir shopWorld
        (shopResolve lock ∅ name).cfg base dep = none := by
      intro n dep hd
      rw [List.mem_singleton.mp hd]
      rfl
    have hnone : localDir shopWorld (shopResolve lock ∅ name).cfg base dep = none := by
      cases hds with
      | root => exact hleaves name dep hmem
      | @«instance» id' inst m' hinst hread =>
        have hm : (if inst.dir = "git-a" then manifestOf aName (requires bName)
            else manifestOf bName []) = m' := by simpa [shopResolve, shopWorld] using hread
        rw [← hm] at hmem
        split at hmem
        · exact hleaves bName dep hmem
        · simp [manifestOf, Dependencies.leaves] at hmem
    rw [show localDir shopWorld (shopResolve lock ∅ name).cfg base dep = some d from hdir] at hnone
    cases hnone

/-- Nothing disturbs a resolve without a `[patch]`, since only `^1` is ever required. -/
theorem undisturbed_shop {tainted : String → Prop}
    (hversion : ∀ e ∈ lock.versions.entries, e.2 = libVersion)
    (hclean : ∀ id, ¬ tainted id) : (shopResolve lock ∅ name).Undisturbed shopPublished tainted := by
  have hreq : ∀ {id req}, (shopResolve lock ∅ name).Demanded shopPublished id req →
      req = caretOne := by
    intro id req h
    cases h with
    | spine hspine hmem hplain =>
      rw [(spine_shop hspine).2] at hmem
      cases List.mem_singleton.mp hmem
      rfl
    | release h hlocked hpub hmem hplain =>
      simp only [shopPublished, Option.map_eq_some_iff, Prod.mk.injEq] at hpub
      obtain ⟨r, hfind, _, hdeps⟩ := hpub
      have hr := List.mem_of_find?_eq_some hfind
      rw [← hdeps] at hmem
      unfold shopReleases at hr
      split at hr
      · rw [List.mem_singleton.mp hr] at hmem
        rw [List.mem_singleton.mp hmem]
      · split at hr
        · rw [List.mem_singleton.mp hr] at hmem
          simp [releaseOf] at hmem
        · simp at hr
  refine ⟨fun id ds base ds' base' h => ?_, fun id req _ => ⟨?_, hclean id⟩, ?_⟩
  · cases (spine_shop h).1
  · intro ⟨ds, base, h⟩
    cases (spine_shop h).1
  · intro id req v hd hlocked hwiden
    have hv : v = libVersion := hversion ⟨id, v⟩ (AList.mem_lookup_iff.mp hlocked)
    have hmatch : caretOne.matches libVersion = false := by
      rw [← hv, ← hreq hd]
      exact hwiden.2
    revert hmatch
    decide

end Unpatched

end Noeta.Pm
