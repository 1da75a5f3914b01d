import Noeta.Pm.Walk

/-!
# What gathering finds

Gathering follows path and git dependencies, and the `[patch]` trees, and notes for every identity it
meets there the requirements of its tree. A placeholder stands for a tree while its own table is being
gathered; what a finished gathering leaves is complete: no requirement of a tree it noted is missing.
-/

namespace Noeta.Pm

open Semver Lockfile Requirement Fallible

variable {W : World} {cfg : Config} {w w' : Walker} {deps : Dependencies} {dir : String}

/-! ## The spine -/

/-- The tables that are reached without the registry, each with the identity of its tree; the root's
has none. -/
inductive Spine (W : World) (cfg : Config) (deps : Dependencies) (dir : String) :
    Option String → Dependencies → String → Prop
  | root : Spine W cfg deps dir none deps dir
  | patched {id : String} {patch : PatchOverride} {m : Manifest}
      (hpatch : cfg.patches.lookup id = some patch) (hread : W.readManifest patch.dir = .ok m) :
      Spine W cfg deps dir (some id) m.dependencies patch.dir
  | declared {o : Option String} {ds : Dependencies} {base d : String} {dep : Dependency}
      {m : Manifest} {pkg : PackageMeta} (h : Spine W cfg deps dir o ds base)
      (hmem : dep ∈ ds.leaves) (hdir : localDir W cfg base dep = some d)
      (hread : W.readManifest d = .ok m) (hpkg : m.package = some pkg)
      (hplain : cfg.patches.lookup pkg.name.identity = none) :
      Spine W cfg deps dir (some pkg.name.identity) m.dependencies d

/-- `id` has a tree on the spine. -/
def OnSpine (W : World) (cfg : Config) (deps : Dependencies) (dir id : String) : Prop :=
  ∃ ds base, Spine W cfg deps dir (some id) ds base

variable {id base key : String} {dep : Dependency} {candidate : PathGitCandidate} {ds : Dependencies} {u : Unit}
  {fuel : Nat}

theorem onSpine_of_patched {patch : PatchOverride} {m : Manifest}
    (hpatch : cfg.patches.lookup id = some patch) (hread : W.readManifest patch.dir = .ok m) :
    OnSpine W cfg deps dir id :=
  ⟨_, _, .patched hpatch hread⟩

/-- What gathering leaves of a leaf of a table at `base`: a registry requirement is listed, a local
tree is noted, unless a `[patch]` covers it. -/
def LeafCovered (W : World) (cfg : Config) (w : Walker) (base : String)
    (reqs : List (String × VersionReq)) : Dependency → Prop
  | .registry (some package) req =>
    cfg.patches.lookup package.identity = none → (package.identity, req) ∈ reqs
  | .registry none _ => True
  | dep => ∀ d m pkg, localDir W cfg base dep = some d → W.readManifest d = .ok m →
      m.package = some pkg → cfg.patches.lookup pkg.name.identity = none →
        (w.pathGit.lookup pkg.name.identity).isSome

/-- A candidate lists the requirements of a tree of its identity. -/
def Complete (W : World) (cfg : Config) (deps : Dependencies) (dir : String) (w : Walker)
    (id : String) (candidate : PathGitCandidate) : Prop :=
  ∃ ds base, Spine W cfg deps dir (some id) ds base ∧
    ∀ dep ∈ ds.leaves, LeafCovered W cfg w base candidate.deps dep

def NotesKept (w w' : Walker) : Prop :=
  ∀ id, (w.pathGit.lookup id).isSome → (w'.pathGit.lookup id).isSome

theorem LeafCovered.mono {reqs reqs' : List (String × VersionReq)}
    (h : LeafCovered W cfg w base reqs dep) (hreqs : ∀ r ∈ reqs, r ∈ reqs')
    (hnotes : NotesKept w w') : LeafCovered W cfg w' base reqs' dep := by
  cases dep with
  | path path package => exact fun d m pkg hd hm hp hn => hnotes _ (h d m pkg hd hm hp hn)
  | git url gitRef package => exact fun d m pkg hd hm hp hn => hnotes _ (h d m pkg hd hm hp hn)
  | registry package req =>
    cases package with
    | none => trivial
    | some package => exact fun hp => hreqs _ (h hp)

theorem Complete.mono (h : Complete W cfg deps dir w id candidate) (hnotes : NotesKept w w') :
    Complete W cfg deps dir w' id candidate := by
  obtain ⟨ds, base, hspine, hall⟩ := h
  exact ⟨ds, base, hspine, fun dep hd => (hall dep hd).mono (fun _ h => h) hnotes⟩

/-! ## The state of a gathering -/

/-- Nothing is installed or selected while gathering, and the memo holds no registry tree. -/
structure Gathering (W : World) (cfg : Config) (w : Walker) : Prop where
  instances : w.instances = ∅
  candidates : w.candidates = ∅
  memo : MemoTrue W cfg w
  unselected : ∀ name, w.matMemo.lookup (.reg name) = none

/-- The patched identities are the keys of `[patch]`. -/
def PatchesKnown (cfg : Config) (w : Walker) : Prop :=
  ∀ id, (w.patchedVersions.lookup id).isSome ↔ (cfg.patches.lookup id).isSome

/-- From `w` to `w'` candidates are only added, and those that were added are complete. -/
structure Gathered (W : World) (cfg : Config) (deps : Dependencies) (dir : String)
    (w w' : Walker) : Prop where
  patchedVersions : w'.patchedVersions = w.patchedVersions
  kept : ∀ id c, w.pathGit.lookup id = some c → w'.pathGit.lookup id = some c
  complete : ∀ id c, w'.pathGit.lookup id = some c → w.pathGit.lookup id = none →
    Complete W cfg deps dir w' id c

theorem Gathered.notesKept (h : Gathered W cfg deps dir w w') : NotesKept w w' := by
  intro id hs
  obtain ⟨c, hc⟩ := Option.isSome_iff_exists.mp hs
  rw [h.kept id c hc]
  rfl

theorem Gathered.of_pathGit (hp : w'.patchedVersions = w.patchedVersions)
    (h : w'.pathGit = w.pathGit) : Gathered W cfg deps dir w w' where
  patchedVersions := hp
  kept id c hl := by rw [h]; exact hl
  complete id c hl hn := by
    rw [h, hn] at hl
    cases hl

theorem Gathered.refl (w : Walker) : Gathered W cfg deps dir w w := .of_pathGit rfl rfl

theorem Gathered.trans {v : Walker} (h : Gathered W cfg deps dir w w')
    (h' : Gathered W cfg deps dir w' v) : Gathered W cfg deps dir w v where
  patchedVersions := h'.patchedVersions.trans h.patchedVersions
  kept id c hl := h'.kept id c (h.kept id c hl)
  complete id c hl hn := by
    cases hmid : w'.pathGit.lookup id with
    | none => exact h'.complete id c hl hmid
    | some c' =>
      have hc : v.pathGit.lookup id = some c' := h'.kept id c' hmid
      rw [hl] at hc
      cases hc
      exact (h.complete id c hmid hn).mono h'.notesKept

theorem Gathering.served (h : Gathering W cfg w) : CandidatesServed W w := by
  intro name rs hl
  rw [h.candidates] at hl
  simp at hl

theorem Gathering.of_same (h : Gathering W cfg w) (h1 : w'.instances = w.instances)
    (h2 : w'.candidates = w.candidates) (h3 : w'.matMemo = w.matMemo)
    (h4 : ∀ n ∈ w.registryIds, n ∈ w'.registryIds) (h5 : w'.solution = w.solution) :
    Gathering W cfg w' where
  instances := h1.trans h.instances
  candidates := h2.trans h.candidates
  memo := h.memo.mono h3 h4 h5
  unselected name := by rw [h3]; exact h.unselected name

/-! ## One dependency -/

/-- A path or git dependency leads to its tree, and only the memo learns of it. -/
theorem gathering_materialize {mat : Materialized} (hdep : ∀ package req, dep ≠ .registry package req)
    (hw : Gathering W cfg w) (h : (materialize W cfg key dep base).Returns w mat w') :
    Gathering W cfg w' ∧ Kept w w' ∧ localDir W cfg base dep = some mat.dir := by
  obtain ⟨hm, hk, hl⟩ := materialize_spec hw.served hw.memo h
  refine ⟨⟨hk.instances.trans hw.instances, hk.candidates.trans hw.candidates, hm, ?_⟩, hk, ?_⟩
  · unfold materialize at h
    split at h
    · obtain ⟨_, hmemo, _⟩ := materializeUncached_spec hw.served h
      exact fun name => by rw [hmemo, hw.unselected]
    · rename_i k hkey
      rw [returns_get_bind] at h
      split at h
      · rw [← (returns_pure.mp h).2]
        exact hw.unselected
      · simp only [returns_bind, returns_modify, returns_pure] at h
        obtain ⟨out, t, hu, _, _, rfl, _, rfl⟩ := h
        obtain ⟨_, hmemo, _⟩ := materializeUncached_spec hw.served hu
        intro name
        have hne : MemoKey.reg name ≠ k := by
          intro heq
          rw [← heq] at hkey
          cases dep with
          | path path package => simp [memoKey] at hkey
          | git url gitRef package => simp [memoKey] at hkey
          | registry package req => exact hdep package req rfl
        simp only
        rw [AList.lookup_insert_ne hne, hmemo, hw.unselected]
  · cases dep with
    | path path package => exact hl
    | git url gitRef package => exact hl
    | registry package req => exact absurd rfl (hdep package req)

/-- The tree of a path or git dependency, as it stands. -/
structure TreeAt (W : World) (cfg : Config) (base : String) (dep : Dependency) (mat : Materialized)
    (manifest : Manifest) (pkg : PackageMeta) : Prop where
  dir : localDir W cfg base dep = some mat.dir
  read : W.readManifest mat.dir = .ok manifest
  package : manifest.package = some pkg

theorem gatherTree_spec {r : Materialized × Manifest × PackageMeta} (hdep : ∀ package req, dep ≠ .registry package req)
    (hw : Gathering W cfg w) (h : (gatherTree W cfg key dep base).Returns w r w') :
    Gathering W cfg w' ∧ Kept w w' ∧ TreeAt W cfg base dep r.1 r.2.1 r.2.2 := by
  simp only [gatherTree, returns_bind, returns_pure] at h
  obtain ⟨mat, t, hmat, manifest, t1, hask, pkg, t2, hof, u, t3, hcheck, hr, hw'⟩ := h
  obtain ⟨hread, h1⟩ := returns_ask.mp hask
  obtain ⟨hpkg, h2⟩ := returns_fromExcept.mp hof
  obtain ⟨_, h3⟩ := returns_fromExcept.mp hcheck
  obtain ⟨hg, hk, hd⟩ := gathering_materialize hdep hw hmat
  rw [← hw', ← h3, ← h2, ← h1, ← hr]
  exact ⟨hg, hk, hd, hread, packageOf_eq_ok.mp hpkg⟩

/-- What gathering one dependency of a table on the spine leaves. -/
structure GatheredLeaf (W : World) (cfg : Config) (deps : Dependencies) (dir base : String)
    (dep : Dependency) (r : String × VersionReq) (w w' : Walker) : Prop where
  gathering : Gathering W cfg w'
  gathered : Gathered W cfg deps dir w w'
  covered : LeafCovered W cfg w' base [r] dep

theorem gatherRegistry_spec {package : PackageName} {req : VersionReq}
    {r : String × VersionReq} (hw : Gathering W cfg w) (hp : PatchesKnown cfg w)
    (h : (gatherRegistry key package req).Returns w r w') :
    GatheredLeaf W cfg deps dir base (.registry (some package) req) r w w' := by
  unfold gatherRegistry at h
  dsimp only at h
  split at h
  · exact absurd h returns_throw
  rw [returns_get_bind] at h
  split at h
  · rename_i patched hpatched
    obtain ⟨_, hw'⟩ := returns_pure.mp h
    rw [← hw']
    refine ⟨hw, .refl w, fun hn => ?_⟩
    have hsome := (hp package.identity).mp (by rw [hpatched]; rfl)
    rw [hn] at hsome
    cases hsome
  · simp only [returns_bind, returns_modify, returns_pure] at h
    obtain ⟨_, _, rfl, hr, hw'⟩ := h
    rw [← hw', ← hr]
    refine ⟨hw.of_same rfl rfl rfl (fun _ h => h) rfl, .of_pathGit rfl rfl, fun _ => ?_⟩
    exact List.mem_singleton_self _

theorem PatchesKnown.mono (h : PatchesKnown cfg w) (hg : Gathered W cfg deps dir w w') :
    PatchesKnown cfg w' := by
  intro id
  rw [hg.patchedVersions]
  exact h id

/-- What gathering a dependency leaves holds of the gathering of a table. -/
theorem gatherWith_spec (deps : Dependencies) (dir : String)
    {one : String → Dependency → String → Walk (String × VersionReq)}
    {reqs : List (String × VersionReq)}
    (hone : ∀ key, ∀ dep ∈ ds.leaves, ∀ w r w', Gathering W cfg w → PatchesKnown cfg w →
      (one key dep base).Returns w r w' → GatheredLeaf W cfg deps dir base dep r w w')
    (hw : Gathering W cfg w) (hp : PatchesKnown cfg w)
    (h : (gatherWith one ds base).Returns w reqs w') :
    Gathering W cfg w' ∧ Gathered W cfg deps dir w w' ∧
      ∀ dep ∈ ds.leaves, LeafCovered W cfg w' base reqs dep := by
  obtain ⟨⟨hg, _⟩, hgrown, hall⟩ := returns_each
    (I := fun w => Gathering W cfg w ∧ PatchesKnown cfg w) (R := Gathered W cfg deps dir)
    (P := fun kd r w => LeafCovered W cfg w base [r] kd.2)
    Gathered.refl (fun _ _ _ => Gathered.trans)
    (fun kd r s t hR (hP : LeafCovered W cfg s base [r] kd.2) =>
      hP.mono (fun _ h => h) hR.notesKept)
    (fun kd hkd w r w' hI hret => by
      have hleaf : kd.2 ∈ ds.leaves := by
        obtain ⟨e, he, hmem⟩ := List.mem_flatMap.mp hkd
        obtain ⟨dep, hd, rfl⟩ := List.mem_map.mp hmem
        exact List.mem_flatMap.mpr ⟨e, he, hd⟩
      have hone' := hone kd.1 kd.2 hleaf w r w' hI.1 hI.2 hret
      exact ⟨⟨hone'.gathering, hI.2.mono hone'.gathered⟩, hone'.gathered, hone'.covered⟩)
    ⟨hw, hp⟩ h
  refine ⟨hg, hgrown, ?_⟩
  intro dep hd
  obtain ⟨e, he, hde⟩ := List.mem_flatMap.mp hd
  have hmem : (e.1, dep) ∈ ds.flatMap fun e => e.2.leaves.map (e.1, ·) :=
    List.mem_flatMap.mpr ⟨e, he, List.mem_map.mpr ⟨dep, hde, rfl⟩⟩
  obtain ⟨r, hr, hcov⟩ := exists_of_forall₂ hall hmem
  have hcov' : LeafCovered W cfg w' base [r] dep := hcov
  refine hcov'.mono (fun r' hr' => ?_) fun _ h => h
  rw [List.mem_singleton] at hr'
  rw [hr']
  exact (List.of_mem_zip hr).2

theorem addCandidate_spec {identity : String} (h : (addCandidate identity candidate).Returns w u w') :
    w' = { w with pathGit := w.pathGit.insert identity candidate } :=
  returns_modify.mp h

theorem Gathering.addCandidate (hw : Gathering W cfg w) {identity : String} :
    Gathering W cfg { w with pathGit := w.pathGit.insert identity candidate } :=
  hw.of_same rfl rfl rfl (fun _ h => h) rfl

/-- The placeholder, the table, and the candidate that replaces the placeholder. -/
theorem Gathered.around {t t' : Walker} {placeholder c : PathGitCandidate} (hnone : w.pathGit.lookup id = none)
    (hspine : Spine W cfg deps dir (some id) ds base)
    (ht : t = { w with pathGit := w.pathGit.insert id placeholder })
    (hg : Gathered W cfg deps dir t t')
    (hall : ∀ dep ∈ ds.leaves, LeafCovered W cfg t' base c.deps dep)
    (hw' : w' = { t' with pathGit := t'.pathGit.insert id c }) :
    Gathered W cfg deps dir w w' ∧ (w'.pathGit.lookup id).isSome := by
  have hlook : ∀ id', id' ≠ id → w'.pathGit.lookup id' = t'.pathGit.lookup id' := by
    intro id' hne
    rw [hw']
    exact AList.lookup_insert_ne hne
  have hself : w'.pathGit.lookup id = some c := by
    rw [hw']
    exact AList.lookup_insert _
  have hstart : ∀ id', id' ≠ id → t.pathGit.lookup id' = w.pathGit.lookup id' := by
    intro id' hne
    rw [ht]
    exact AList.lookup_insert_ne hne
  have hnotes : NotesKept t' w' := by
    intro id' hs
    by_cases hid : id' = id
    · rw [hid, hself]
      rfl
    · rw [hlook id' hid]
      exact hs
  refine ⟨⟨?_, ?_, ?_⟩, by rw [hself]; rfl⟩
  · have hp := hg.patchedVersions
    rw [hw']
    rw [ht] at hp
    exact hp
  · intro id' c' hl
    have hne : id' ≠ id := by
      intro heq
      rw [heq, hnone] at hl
      cases hl
    rw [hlook id' hne]
    exact hg.kept id' c' ((hstart id' hne).trans hl)
  · intro id' c' hl hn
    by_cases hid : id' = id
    · subst hid
      rw [hself] at hl
      cases hl
      exact ⟨ds, base, hspine, fun dep hd => (hall dep hd).mono (fun _ h => h) hnotes⟩
    · rw [hlook id' hid] at hl
      exact (hg.complete id' c' hl ((hstart id' hid).trans hn)).mono hnotes

theorem gatherOne_spec (fuel : Nat) {o : Option String}
    {r : String × VersionReq} (hspine : Spine W cfg deps dir o ds base)
    (hmem : dep ∈ ds.leaves) (hw : Gathering W cfg w) (hp : PatchesKnown cfg w)
    (h : (gatherOne W cfg fuel key dep base).Returns w r w') :
    GatheredLeaf W cfg deps dir base dep r w w' := by
  induction fuel generalizing key base dep o ds r w w' with
  | zero => exact absurd h returns_cut
  | succ fuel ih =>
    have hlocal : (∀ package req, dep ≠ .registry package req) →
        GatheredLeaf W cfg deps dir base dep r w w' := by
      intro hdep
      rw [gatherOne] at h
      · rw [returns_bind] at h
        obtain ⟨⟨mat, manifest, pkg⟩, t, htree, h⟩ := h
        obtain ⟨hg, hk, hat⟩ := gatherTree_spec hdep hw htree
        have hp' : PatchesKnown cfg t := by
          intro id
          rw [hk.patchedVersions]
          exact hp id
        have hkept : Gathered W cfg deps dir w t := .of_pathGit hk.patchedVersions hk.pathGit
        -- a local leaf is covered as soon as its identity is noted
        have hcover : ∀ v, (cfg.patches.lookup pkg.name.identity = none →
            (v.pathGit.lookup pkg.name.identity).isSome) → LeafCovered W cfg v base [r] dep := by
          intro v hnoted
          have hleaf : ∀ d m pkg', localDir W cfg base dep = some d → W.readManifest d = .ok m →
              m.package = some pkg' → cfg.patches.lookup pkg'.name.identity = none →
                (v.pathGit.lookup pkg'.name.identity).isSome := by
            intro d m pkg' hd hm hpkg' hn
            rw [hat.dir] at hd
            cases hd
            rw [hat.read] at hm
            cases hm
            rw [hat.package] at hpkg'
            cases hpkg'
            exact hnoted hn
          cases dep with
          | path path package => exact hleaf
          | git url gitRef package => exact hleaf
          | registry package req => exact absurd rfl (hdep package req)
        dsimp only at h
        rw [returns_get_bind] at h
        split at h
        · rename_i patched hpatched
          obtain ⟨_, hw'⟩ := returns_pure.mp h
          rw [← hw']
          refine ⟨hg, hkept, hcover t fun hn => ?_⟩
          have hsome := (hp' pkg.name.identity).mp (by rw [hpatched]; rfl)
          rw [hn] at hsome
          cases hsome
        · rename_i hunpatched
          have hplain : cfg.patches.lookup pkg.name.identity = none := by
            have hnot := (hp' pkg.name.identity).not
            rw [hunpatched] at hnot
            simpa using hnot
          split at h
          · rename_i hnoted
            obtain ⟨_, hw'⟩ := returns_pure.mp h
            rw [← hw']
            exact ⟨hg, hkept, hcover t fun _ => hnoted⟩
          · rename_i hnew
            simp only [returns_bind, returns_pure] at h
            obtain ⟨_, t1, hadd, reqs, t2, hwith, _, t3, hdone, _, hw'⟩ := h
            have h1 := addCandidate_spec hadd
            have h3 := addCandidate_spec hdone
            have hsub : Spine W cfg deps dir (some pkg.name.identity) manifest.dependencies
                mat.dir := .declared hspine hmem hat.dir hat.read hat.package hplain
            obtain ⟨hg2, hr2, hall⟩ := gatherWith_spec deps dir
              (fun key dep hd w r w' hw hp hret => ih hsub hd hw hp hret)
              (by rw [h1]; exact hg.addCandidate) (by rw [h1]; exact hp') hwith
            obtain ⟨hr3, hnoted⟩ := Gathered.around (by simpa using hnew) hsub h1 hr2 hall h3
            rw [← hw']
            refine ⟨?_, hkept.trans hr3, hcover t3 fun _ => hnoted⟩
            rw [h3]
            exact hg2.addCandidate
      · intro req hd
        exact hdep _ _ hd
      · intro package req hd
        exact hdep _ _ hd
    cases dep with
    | path path package => exact hlocal (by simp)
    | git url gitRef package => exact hlocal (by simp)
    | registry package req =>
      cases package with
      | none => exact absurd h returns_throw
      | some package => exact gatherRegistry_spec hw hp h

/-! ## A whole gathering -/

theorem mem_patchEntries {patch : PatchOverride} :
    (id, patch) ∈ patchEntries cfg ↔ cfg.patches.lookup id = some patch := by
  have hentry : (id, patch) ∈ patchEntries cfg ↔ (⟨id, patch⟩ : Sigma fun _ => PatchOverride) ∈
      cfg.patches.entries := by
    unfold patchEntries
    rw [List.mem_map]
    constructor
    · rintro ⟨⟨a, b⟩, he, heq⟩
      cases heq
      exact he
    · intro he
      exact ⟨_, he, rfl⟩
  rw [hentry, ← AList.mem_lookup_iff]
  rfl

/-- A `[patch]` names the tree of its own identity. -/
def PatchTree (W : World) (id : String) (patch : PatchOverride) (m : Manifest) : Prop :=
  W.readManifest patch.dir = .ok m ∧ ∃ pkg, m.package = some pkg ∧ pkg.name.identity = id

/-- Every candidate is complete, and every patched identity is one. -/
structure Noted (W : World) (cfg : Config) (deps : Dependencies) (dir : String) (w : Walker) :
    Prop where
  gathering : Gathering W cfg w
  known : PatchesKnown cfg w
  patches : ∀ id patch, cfg.patches.lookup id = some patch →
    (∃ m, PatchTree W id patch m) ∧ (w.pathGit.lookup id).isSome
  complete : ∀ id c, w.pathGit.lookup id = some c → Complete W cfg deps dir w id c

/-- What the versions of the patched trees being read leaves. -/
structure Versioned (W : World) (cfg : Config) (w : Walker) : Prop where
  gathering : Gathering W cfg w
  pathGit : w.pathGit = ∅
  patched : ∀ id, (w.patchedVersions.lookup id).isSome → (cfg.patches.lookup id).isSome

theorem patchVersion_spec {patch : String × PatchOverride} {m : Manifest}
    (hpatch : cfg.patches.lookup patch.1 = some patch.2) (hw : Versioned W cfg w)
    (h : (patchVersion W patch).Returns w m w') :
    Versioned W cfg w' ∧
      (∀ id, (w.patchedVersions.lookup id).isSome → (w'.patchedVersions.lookup id).isSome) ∧
      PatchTree W patch.1 patch.2 m ∧ (w'.patchedVersions.lookup patch.1).isSome := by
  simp only [patchVersion, returns_bind] at h
  obtain ⟨manifest, t, hask, pkg, t1, hof, h⟩ := h
  obtain ⟨hread, h1⟩ := returns_ask.mp hask
  obtain ⟨hpkg, h2⟩ := returns_fromExcept.mp hof
  split at h
  · exact absurd h returns_throw
  rename_i hid
  simp only [returns_bind, returns_fromExcept, returns_modify, returns_pure] at h
  obtain ⟨_, t2, ⟨_, h3⟩, _, t3, h4, hm, h5⟩ := h
  rw [← h3, ← h2, ← h1] at h4
  rw [← h5, ← hm, h4]
  have hlook : ∀ id, ((w.patchedVersions.insert patch.1 pkg.version).lookup id).isSome ↔
      id = patch.1 ∨ (w.patchedVersions.lookup id).isSome := by
    intro id
    by_cases hi : id = patch.1
    · rw [hi, AList.lookup_insert]
      simp
    · rw [AList.lookup_insert_ne hi]
      simp [hi]
  refine ⟨⟨hw.gathering.of_same rfl rfl rfl (fun _ h => h) rfl, hw.pathGit, ?_⟩, ?_, ?_, ?_⟩
  · intro id hs
    obtain hi | hs := (hlook id).mp hs
    · rw [hi, hpatch]
      rfl
    · exact hw.patched id hs
  · exact fun id hs => (hlook id).mpr (Or.inr hs)
  · exact ⟨hread, pkg, packageOf_eq_ok.mp hpkg, not_not.mp hid⟩
  · exact (hlook _).mpr (Or.inl rfl)

theorem patchDeps_spec (deps : Dependencies) (dir : String) {patch : (String × PatchOverride) × Manifest}
    (hpatch : cfg.patches.lookup patch.1.1 = some patch.1.2)
    (hread : W.readManifest patch.1.2.dir = .ok patch.2) (hw : Gathering W cfg w)
    (hp : PatchesKnown cfg w) (h : (patchDeps W cfg fuel patch).Returns w u w') :
    Gathering W cfg w' ∧ Gathered W cfg deps dir w w' ∧ (w'.pathGit.lookup patch.1.1).isSome := by
  unfold patchDeps at h
  dsimp only at h
  rw [returns_get_bind] at h
  split at h
  · rename_i hnoted
    rw [← (returns_pure.mp h).2]
    exact ⟨hw, .refl w, hnoted⟩
  · rename_i hnew
    split at h
    · exact absurd h returns_cut
    · simp only [returns_bind] at h
      obtain ⟨_, t1, hadd, reqs, t2, hwith, hdone⟩ := h
      have h1 := addCandidate_spec hadd
      have h3 := addCandidate_spec hdone
      have hsub : Spine W cfg deps dir (some patch.1.1) patch.2.dependencies patch.1.2.dir :=
        .patched hpatch hread
      obtain ⟨hg2, hr2, hall⟩ := gatherWith_spec deps dir
        (fun key dep hd w r w' hw hp hret => gatherOne_spec fuel hsub hd hw hp hret)
        (by rw [h1]; exact hw.addCandidate) (by rw [h1]; exact hp) hwith
      obtain ⟨hr3, hnoted⟩ := Gathered.around (by simpa using hnew) hsub h1 hr2 hall h3
      refine ⟨?_, hr3, hnoted⟩
      rw [h3]
      exact hg2.addCandidate

theorem gathering_init : Gathering W cfg .init where
  instances := rfl
  candidates := rfl
  memo := ⟨fun _ _ h => by simp [Walker.init] at h, fun _ _ _ h => by simp [Walker.init] at h,
    fun _ _ h => by simp [Walker.init] at h⟩
  unselected _ := AList.lookup_empty _

theorem gatherPatches_spec (h : (gatherPatches W cfg fuel).Returns .init u w) : Noted W cfg deps dir w := by
  simp only [gatherPatches, returns_bind, returns_pure] at h
  obtain ⟨manifests, t, hversions, units, t1, hdeps, _, hw⟩ := h
  rw [← hw]
  obtain ⟨hv, _, hall⟩ := returns_each (I := Versioned W cfg)
    (R := fun w w' => ∀ id, (w.patchedVersions.lookup id).isSome →
      (w'.patchedVersions.lookup id).isSome)
    (P := fun patch m w => PatchTree W patch.1 patch.2 m ∧
      (w.patchedVersions.lookup patch.1).isSome)
    (fun _ _ h => h) (fun _ _ _ h h' id hs => h' id (h id hs))
    (fun patch m w t hR (hP : PatchTree W patch.1 patch.2 m ∧
      (w.patchedVersions.lookup patch.1).isSome) => ⟨hP.1, hR _ hP.2⟩)
    (fun patch hmem w m w' hw hret =>
      patchVersion_spec (mem_patchEntries.mp hmem) hw hret)
    ⟨gathering_init, rfl, fun id hs => by simp [Walker.init] at hs⟩ hversions
  have hzip : ∀ pm ∈ (patchEntries cfg).zip manifests, PatchTree W pm.1.1 pm.1.2 pm.2 :=
    fun pm hmem => ((List.forall₂_iff_zip.mp hall).2 hmem).1
  have hknown : PatchesKnown cfg t := by
    intro id
    refine ⟨hv.patched id, fun hs => ?_⟩
    obtain ⟨patch, hp⟩ := Option.isSome_iff_exists.mp hs
    obtain ⟨_, _, hm⟩ := exists_of_forall₂ hall (mem_patchEntries.mpr hp)
    exact hm.2
  obtain ⟨⟨hg, hk⟩, hr, hnoted⟩ := returns_each
    (I := fun w => Gathering W cfg w ∧ PatchesKnown cfg w) (R := Gathered W cfg deps dir)
    (P := fun patch _ w => (w.pathGit.lookup patch.1.1).isSome)
    Gathered.refl (fun _ _ _ => Gathered.trans)
    (fun patch u w t hR (hP : (w.pathGit.lookup patch.1.1).isSome) => hR.notesKept _ hP)
    (fun patch hmem w u w' hI hret => by
      have hpatch := mem_patchEntries.mp (List.of_mem_zip hmem).1
      obtain ⟨hg, hr, hn⟩ := patchDeps_spec deps dir hpatch
        (hzip patch hmem).1 hI.1 hI.2 hret
      exact ⟨⟨hg, hI.2.mono hr⟩, hr, hn⟩)
    ⟨hv.gathering, hknown⟩ hdeps
  refine ⟨hg, hk, ?_, ?_⟩
  · intro id patch hp
    obtain ⟨m, hmem, htree, _⟩ := exists_of_forall₂ hall (mem_patchEntries.mpr hp)
    obtain ⟨_, _, hn⟩ := exists_of_forall₂ hnoted hmem
    exact ⟨⟨m, htree⟩, hn⟩
  · intro id c hl
    refine hr.complete id c hl ?_
    rw [hv.pathGit]
    exact AList.lookup_empty _

theorem Noted.mono (h : Noted W cfg deps dir w) (hg : Gathering W cfg w')
    (hr : Gathered W cfg deps dir w w') : Noted W cfg deps dir w' where
  gathering := hg
  known := h.known.mono hr
  patches id patch hp := ⟨(h.patches id patch hp).1, hr.notesKept _ (h.patches id patch hp).2⟩
  complete id c hl := by
    cases hold : w.pathGit.lookup id with
    | none => exact hr.complete id c hl hold
    | some c' =>
      have hc : w'.pathGit.lookup id = some c' := hr.kept id c' hold
      rw [hl] at hc
      cases hc
      exact (h.complete id c hold).mono hr.notesKept

/-- What a finished gathering leaves. -/
structure GatheringDone (W : World) (cfg : Config) (deps : Dependencies) (dir : String)
    (rootDeps : List (String × VersionReq)) (w : Walker) : Prop extends
    Noted W cfg deps dir w where
  root : ∀ dep ∈ deps.leaves, LeafCovered W cfg w dir rootDeps dep

theorem gathering_done {t : Walker} {rootDeps : List (String × VersionReq)}
    (hpatches : (gatherPatches W cfg fuel).Returns .init u t)
    (hroot : (gather W cfg fuel deps dir).Returns t rootDeps w) :
    GatheringDone W cfg deps dir rootDeps w := by
  have hnoted : Noted W cfg deps dir t := gatherPatches_spec hpatches
  obtain ⟨hg, hr, hall⟩ := gatherWith_spec deps dir
    (fun key dep hd w r w' hw hp hret => gatherOne_spec fuel .root hd hw hp hret)
    hnoted.gathering hnoted.known hroot
  exact ⟨hnoted.mono hg hr, hall⟩

section Done

variable {rootDeps : List (String × VersionReq)}

theorem Noted.onSpine (h : Noted W cfg deps dir w) {id : String}
    (hs : (w.pathGit.lookup id).isSome) : OnSpine W cfg deps dir id := by
  obtain ⟨c, hc⟩ := Option.isSome_iff_exists.mp hs
  obtain ⟨ds, base, hspine, _⟩ := h.complete id c hc
  exact ⟨ds, base, hspine⟩

/-- No identity has two trees on the spine; gathering would only look at the first. -/
def OneTree (W : World) (cfg : Config) (deps : Dependencies) (dir : String) : Prop :=
  ∀ id ds base ds' base', Spine W cfg deps dir (some id) ds base →
    Spine W cfg deps dir (some id) ds' base' → ds = ds' ∧ base = base'

/-- The requirements that were gathered. -/
def gatheredReqs (pathGit : Map String PathGitCandidate) (rootDeps : List (String × VersionReq)) :
    List (String × VersionReq) :=
  rootDeps ++ pathGit.entries.flatMap fun e => e.2.deps

/-- Every table of the spine is covered by what was gathered. By induction on how the table is reached:
the leaf that leads to a tree has its identity noted, and what is noted is complete. -/
theorem GatheringDone.covered (h : GatheringDone W cfg deps dir rootDeps w)
    (hone : OneTree W cfg deps dir) {o : Option String} {ds : Dependencies} {base : String}
    (hspine : Spine W cfg deps dir o ds base) :
    ∀ dep ∈ ds.leaves, LeafCovered W cfg w base (gatheredReqs w.pathGit rootDeps) dep := by
  have hnoted : ∀ id ds base, Spine W cfg deps dir (some id) ds base →
      (w.pathGit.lookup id).isSome →
      ∀ dep ∈ ds.leaves, LeafCovered W cfg w base (gatheredReqs w.pathGit rootDeps) dep := by
    intro id ds base hs hsome
    obtain ⟨c, hc⟩ := Option.isSome_iff_exists.mp hsome
    obtain ⟨ds', base', hs', hall⟩ := h.complete id c hc
    obtain ⟨hds, hbase⟩ := hone _ _ _ _ _ hs hs'
    rw [hds, hbase]
    intro dep hd
    refine (hall dep hd).mono (fun r hr => ?_) fun _ h => h
    refine List.mem_append_right _ (List.mem_flatMap.mpr ⟨⟨id, c⟩, ?_, hr⟩)
    exact AList.mem_lookup_iff.mp hc
  induction hspine with
  | root =>
    intro dep hd
    exact (h.root dep hd).mono (fun r hr => List.mem_append_left _ hr) fun _ h => h
  | patched hpatch hread =>
    exact hnoted _ _ _ (.patched hpatch hread) (h.patches _ _ hpatch).2
  | @declared o ds base d dep m pkg hs hmem hdir hread hpkg hplain ih =>
    refine hnoted _ _ _ (.declared hs hmem hdir hread hpkg hplain) ?_
    have hcov := ih dep hmem
    cases dep with
    | path path package => exact hcov d m pkg hdir hread hpkg hplain
    | git url gitRef package => exact hcov d m pkg hdir hread hpkg hplain
    | registry package req => simp [localDir] at hdir

theorem GatheringDone.mem_frontier (h : GatheringDone W cfg deps dir rootDeps w)
    (hone : OneTree W cfg deps dir) {o : Option String} {ds : Dependencies} {base : String}
    (hspine : Spine W cfg deps dir o ds base) {package : PackageName} {req : VersionReq}
    (hmem : .registry (some package) req ∈ ds.leaves)
    (hplain : cfg.patches.lookup package.identity = none)
    (hlocal : w.pathGit.lookup package.identity = none) :
    (package.identity, req) ∈ frontier w.pathGit rootDeps := by
  have hcov := h.covered hone hspine _ hmem hplain
  exact List.mem_filter.mpr ⟨hcov, by simp [hlocal]⟩

end Done

end Noeta.Pm
