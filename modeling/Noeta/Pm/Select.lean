import Noeta.Pm.Gather

/-!
# What a solve selects

A solve either adopts the lock's versions, those of local identities left out, or asks the version solver
about every candidate in reach. The version solver is assumed to be right: what it selects has a row, and
meets the requirements of that row.
-/

namespace Noeta.Pm

open Semver Lockfile Requirement Fallible

variable {W : World} {cfg : Config} {w w' : Walker} {deps : Dependencies} {dir : String}

/-- `sol` is a selection for the rows and the root's requirements. -/
structure Solves (rows : List Row) (root : List (String × Ranges)) (sol : Map String Version) :
    Prop where
  root : ∀ d ∈ root, ∃ v, sol.lookup d.1 = some v ∧ d.2.contains v = true
  listed : ∀ package v, sol.lookup package = some v →
    ∃ row ∈ rows, row.package = package ∧ row.version = v
  met : ∀ row ∈ rows, sol.lookup row.package = some row.version →
    ∀ d ∈ row.deps, ∃ v, sol.lookup d.1 = some v ∧ d.2.contains v = true

/-- What the version solver answers is a selection. -/
def SoundSolver (W : World) : Prop :=
  ∀ rows root sol, W.pubgrub rows root = .ok sol → Solves rows root sol

/-! ## Candidates -/

/-- The candidates are releases that the index serves. -/
def Loaded (W : World) (registry : Map String (List Release)) : Prop :=
  ∀ name rs, registry.lookup name = some rs →
    ∃ served, W.releases name = .ok served ∧ ∀ r ∈ rs, r ∈ served

theorem applyCooldown_sub {identity : String} {releases kept : List Release}
    {exactPins : List (String × Version)}
    (h : applyCooldown W cfg identity releases exactPins = .ok kept) : ∀ r ∈ kept, r ∈ releases := by
  unfold applyCooldown at h
  split at h
  · cases h
    exact fun _ hr => hr
  · split at h
    · cases h
      exact fun _ hr => hr
    · dsimp only at h
      split at h
      · cases h
      · cases h
        exact fun r hr => (List.mem_filter.mp hr).1

theorem loadCandidates_spec (fuel : Nat) {exactPins : List (String × Version)}
    {queue seen : List String} {registry out : Map String (List Release)} (hl : Loaded W registry)
    (h : (loadCandidates W cfg exactPins fuel queue seen registry).Returns w out w') :
    w' = w ∧ Loaded W out := by
  induction fuel generalizing queue seen registry with
  | zero => exact absurd h returns_cut
  | succ fuel ih =>
    cases queue with
    | nil =>
      obtain ⟨hout, hw⟩ := returns_pure.mp h
      rw [← hout, ← hw]
      exact ⟨rfl, hl⟩
    | cons identity queue =>
      rw [loadCandidates, returns_get_bind] at h
      split at h
      · exact ih hl h
      · split at h
        · exact absurd h returns_throw
        · simp only [returns_bind, returns_ask, returns_fromExcept] at h
          obtain ⟨served, _, ⟨hserved, rfl⟩, releases, _, ⟨hkept, rfl⟩, h⟩ := h
          refine ih ?_ h
          intro name rs hlook
          by_cases hname : name = identity
          · rw [hname, AList.lookup_insert] at hlook
            cases hlook
            rw [hname]
            exact ⟨served, hserved, fun r hr =>
              (List.mem_filter.mp (applyCooldown_sub hkept r hr)).1⟩
          · rw [AList.lookup_insert_ne hname] at hlook
            exact hl name rs hlook

/-! ## Rows -/

variable {c : Candidates} {fuel : Nat} {rootDeps : List (String × VersionReq)}

theorem mapM_row {package : String} {versions : List Version} {rows : List Row}
    (h : versions.mapM (rowOf c package) = some rows) :
    ∀ row ∈ rows, ∃ v ∈ versions, rowOf c package v = some row := by
  induction versions generalizing rows with
  | nil =>
    simp only [List.mapM_nil, Option.pure_def, Option.some.injEq] at h
    rw [← h]
    simp
  | cons v versions ih =>
    simp only [List.mapM_cons, Option.bind_eq_bind, Option.pure_def, Option.bind_eq_some_iff,
      Option.some.injEq] at h
    obtain ⟨row, hrow, rest, hrest, heq⟩ := h
    intro row' hmem
    rw [← heq] at hmem
    obtain hhead | htail := List.mem_cons.mp hmem
    · rw [hhead]
      exact ⟨v, by simp, hrow⟩
    · obtain ⟨v', hv', hr'⟩ := ih hrest row' htail
      exact ⟨v', by simp [hv'], hr'⟩

theorem registerAll_rows (fuel : Nat) {queue seen : List String} {rows out : List Row}
    (hrows : ∀ row ∈ rows, ∃ package, ∃ v ∈ c.versions package, rowOf c package v = some row)
    (h : registerAll c fuel queue seen rows = some out) :
    ∀ row ∈ out, ∃ package, ∃ v ∈ c.versions package, rowOf c package v = some row := by
  induction fuel generalizing queue seen rows with
  | zero => simp [registerAll] at h
  | succ fuel ih =>
    cases queue with
    | nil =>
      simp only [registerAll, Option.some.injEq] at h
      rw [← h]
      exact hrows
    | cons package queue =>
      simp only [registerAll] at h
      split at h
      · exact ih hrows h
      · simp only [Option.bind_eq_bind, Option.bind_eq_some_iff] at h
        obtain ⟨new, hnew, h⟩ := h
        refine ih (fun row hmem => ?_) h
        obtain hold | hmem := List.mem_append.mp hmem
        · exact hrows row hold
        · exact ⟨package, mapM_row hnew row hmem⟩

theorem rangesOf_mem {reqs : List (String × VersionReq)} {ranges : List (String × Ranges)}
    (h : rangesOf reqs = some ranges) :
    ∀ r ∈ reqs, ∃ rs, reqToRanges r.2 = some rs ∧ (r.1, rs) ∈ ranges := by
  unfold rangesOf at h
  induction reqs generalizing ranges with
  | nil => simp
  | cons r reqs ih =>
    simp only [List.mapM_cons, Option.bind_eq_bind, Option.pure_def, Option.bind_eq_some_iff,
      Option.some.injEq, Option.map_eq_some_iff] at h
    obtain ⟨_, ⟨rs, hrs, rfl⟩, rest, hrest, heq⟩ := h
    intro r' hmem
    rw [← heq]
    obtain hhead | htail := List.mem_cons.mp hmem
    · rw [hhead]
      exact ⟨rs, hrs, by simp⟩
    · obtain ⟨rs', hrs', hm⟩ := ih hrest r' htail
      exact ⟨rs', hrs', by simp [hm]⟩

/-- A version takes part in a selection of releases: it is a release the index serves, and what the
release requires of identities that no `[patch]` covers is selected within the intervals. -/
def SelectedRelease (W : World) (cfg : Config) (sol : Map String Version) (name : String)
    (version : Version) : Prop :=
  ∃ served release, W.releases name = .ok served ∧ release ∈ served ∧ release.version = version ∧
    ∀ d ∈ release.deps, cfg.patches.lookup d.package = none →
      ∃ v r, sol.lookup d.package = some v ∧ reqToRanges d.req = some r ∧ r.contains v = true

theorem resolveVersions_spec
    {sol : Map String Version} (hsolver : SoundSolver W) (hl : Loaded W c.registry)
    (hpatched : ∀ id, cfg.patches.lookup id = none → c.patched.lookup id = none)
    (h : (resolveVersions W fuel c rootDeps).Returns w sol w') :
    w' = w ∧ ∀ name v, sol.lookup name = some v → c.pathGit.lookup name = none →
      SelectedRelease W cfg sol name v := by
  unfold resolveVersions at h
  split at h
  · rename_i root rows hroot hrows
    split at h
    · rename_i solution hpub
      obtain ⟨heq, hw⟩ := returns_pure.mp h
      rw [heq] at hpub
      refine ⟨hw.symm, ?_⟩
      have hs := hsolver _ _ _ hpub
      intro name v hlook hlocal
      obtain ⟨row, hmem, hpkg, hver⟩ := hs.listed name v hlook
      obtain ⟨package, v', hv', hrow⟩ := registerAll_rows fuel (by simp) hrows row hmem
      simp only [rowOf, Option.map_eq_some_iff] at hrow
      obtain ⟨ranges, hranges, hrow⟩ := hrow
      obtain rfl : package = name := by rw [← hpkg, ← hrow]
      obtain rfl : v' = v := by rw [← hver, ← hrow]
      have hdeps : row.deps = ranges := by rw [← hrow]
      simp only [Candidates.versions, hlocal] at hv'
      cases hreg : c.registry.lookup package with
      | none => simp [hreg] at hv'
      | some rs =>
        simp only [hreg, Option.getD_some, List.mem_map] at hv'
        obtain ⟨r0, hr0, hv0⟩ := hv'
        obtain ⟨release, hfind⟩ : ∃ release, rs.find? (·.version = v') = some release := by
          rw [← Option.isSome_iff_exists, List.find?_isSome]
          exact ⟨r0, hr0, by simpa using hv0⟩
        obtain ⟨served, hserved, hsub⟩ := hl package rs hreg
        refine ⟨served, release, hserved, hsub _ (List.mem_of_find?_eq_some hfind),
          by simpa using List.find?_some hfind, ?_⟩
        intro d hd hplain
        have hdep : (d.package, d.req) ∈ c.dependencies package v' := by
          simp only [Candidates.dependencies, hlocal, hreg, Option.getD_some, hfind,
            Candidates.releaseDeps]
          exact List.mem_map.mpr ⟨d, hd, by rw [hpatched _ hplain]⟩
        obtain ⟨r, hr, hmem'⟩ := rangesOf_mem hranges _ hdep
        obtain ⟨u, hu, hcontains⟩ := hs.met row hmem (by rw [hpkg, hver]; exact hlook) _
          (by rw [hdeps]; exact hmem')
        exact ⟨u, r, hu, hr, hcontains⟩
    · exact absurd h returns_throw
  · exact absurd h returns_cut

/-! ## A solve -/

theorem lookup_foldl_erase (ids : List String) (m : Map String Version) (id : String) :
    (ids.foldl (fun m i => m.erase i) m).lookup id = if id ∈ ids then none else m.lookup id := by
  induction ids generalizing m with
  | nil => simp
  | cons i ids ih =>
    rw [List.foldl_cons, ih]
    by_cases hi : id = i
    · subst hi
      simp [AList.lookup_erase]
    · simp [hi, AList.lookup_erase_ne hi]

theorem lookup_lockedSelection {pathGit : Map String PathGitCandidate} {id : String} :
    (lockedSelection cfg pathGit).lookup id =
      if (pathGit.lookup id).isSome then none else cfg.lock.lockedVersion id := by
  unfold lockedSelection
  rw [lookup_foldl_erase]
  simp only [← AList.mem_keys, AList.lookup_isSome]
  rfl

/-- What a solve leaves, whether it adopted the lock or asked the version solver. -/
inductive Solved (W : World) (cfg : Config) (deps : Dependencies) (dir : String) (g : Walker)
    (rootDeps : List (String × VersionReq)) (w : Walker) : Prop
  | adopted (hadopts : adoptsLock cfg g.pathGit rootDeps = true)
      (hw : w = { g with solution := lockedSelection cfg g.pathGit })
  | live {registry : Map String (List Release)} {sol : Map String Version}
      (hadopts : adoptsLock cfg g.pathGit rootDeps = false) (hloaded : Loaded W registry)
      (hsel : SoundSolver W → ∀ name v, sol.lookup name = some v → g.pathGit.lookup name = none →
        SelectedRelease W cfg sol name v)
      (hw : w = { g with solution := sol, candidates := registry })

theorem solve_spec {u : Unit} (h : (solve W cfg fuel deps dir).Returns .init u w) : ∃ t g rootDeps,
      (gatherPatches W cfg fuel).Returns .init () t ∧
      (gather W cfg fuel deps dir).Returns t rootDeps g ∧
      GatheringDone W cfg deps dir rootDeps g ∧ Solved W cfg deps dir g rootDeps w := by
  simp only [solve, returns_bind] at h
  obtain ⟨_, t, hpatches, rootDeps, g, hgather, x, y, hget, h⟩ := h
  obtain ⟨hx, hy⟩ := returns_get.mp hget
  rw [hx, hy] at h
  have hdone := gathering_done hpatches hgather
  refine ⟨t, g, rootDeps, hpatches, hgather, hdone, ?_⟩
  split at h
  · rename_i hadopts
    exact .adopted hadopts (returns_modify.mp h)
  · rename_i hadopts
    simp only [returns_bind, returns_modify] at h
    obtain ⟨registry, t1, hload, sol, t2, hresolve, hw⟩ := h
    obtain ⟨h1, hloaded⟩ := loadCandidates_spec fuel (fun name rs hl => by simp at hl) hload
    have hpatched : ∀ id, cfg.patches.lookup id = none → g.patchedVersions.lookup id = none := by
      intro id hn
      have hnot := (hdone.known id).not
      rw [hn] at hnot
      simpa using hnot
    have h2 : t2 = t1 := by
      unfold resolveVersions at hresolve
      split at hresolve
      · split at hresolve
        · exact (returns_pure.mp hresolve).2.symm
        · exact absurd hresolve returns_throw
      · exact absurd hresolve returns_cut
    rw [h2, h1] at hw
    exact .live (by simpa using hadopts) hloaded
      (fun hsolver => (resolveVersions_spec hsolver hloaded hpatched hresolve).2) hw

theorem Solved.ready {g : Walker}
    (h : Solved W cfg deps dir g rootDeps w) (hg : GatheringDone W cfg deps dir rootDeps g) :
    w.instances = ∅ ∧ w.pathGit = g.pathGit ∧ Ready W cfg w := by
  have hgath := hg.gathering
  have hmemo : ∀ sol candidates,
      MemoTrue W cfg { g with solution := sol, candidates := candidates } := by
    intro sol candidates
    refine ⟨hgath.memo.path, hgath.memo.git, fun name mat hl => ?_⟩
    have hnone := hgath.unselected name
    rw [show g.matMemo.lookup (.reg name) = some mat from hl] at hnone
    cases hnone
  cases h with
  | adopted _ hw =>
    rw [hw]
    exact ⟨hgath.instances, rfl, hmemo _ g.candidates, hgath.served⟩
  | live _ hloaded _ hw =>
    rw [hw]
    exact ⟨hgath.instances, rfl, hmemo _ _, hloaded⟩

theorem Solved.settled {g : Walker}
    (h : Solved W cfg deps dir g rootDeps w) (hg : GatheringDone W cfg deps dir rootDeps g)
    (G : Dependencies → String → Prop) : Settled W cfg deps dir w.solution G w := by
  obtain ⟨hnone, _, hready⟩ := h.ready hg
  refine ⟨hready, rfl, fun id inst hl => ?_, fun id inst m hl => ?_⟩
  · rw [hnone] at hl
    simp at hl
  · rw [hnone] at hl
    simp at hl

theorem resolveGraph_spec {edges : List (String × List String)}
    (h : (resolveGraph W cfg fuel deps dir).Returns .init edges w') :
    ∃ w, (solve W cfg fuel deps dir).Returns .init () w ∧
      (walk W cfg fuel deps dir).Returns w edges w' := by
  simp only [resolveGraph, returns_bind] at h
  obtain ⟨_, w, hsolve, hwalk⟩ := h
  exact ⟨w, hsolve, hwalk⟩

theorem resolveGraph_visits {edges : List (String × List String)}
    (h : (resolveGraph W cfg fuel deps dir).Returns .init edges w) {ds : Dependencies} {base : String}
    (hds : Declares W deps dir w ds base) : ∀ dep ∈ ds.leaves, Visited cfg w dep := by
  obtain ⟨t, hsolve, hwalk⟩ := resolveGraph_spec h
  obtain ⟨_, g, rootDeps, _, _, hdone, hsolved⟩ := solve_spec hsolve
  obtain ⟨_, hw, hroot⟩ := walk_spec fuel (G := fun _ _ => True) (fun _ _ _ _ _ _ _ _ _ _ _ _ => trivial)
    (hsolved.settled hdone _) trivial hwalk
  cases hds with
  | root => exact hroot
  | «instance» hinst hread =>
    refine hw.visited _ _ hinst ?_ _ hread
    rw [(hsolved.ready hdone).1]
    exact AList.lookup_empty _

end Noeta.Pm
