import Noeta.Pm.LockHistory

/-!
# What a resolve counts and pins

A resolve counts an identity and pins trust in one place only, where a registry dependency that no
`[patch]` covers is materialised. So an invariant of what is counted and pinned is kept by a walk as soon
as that one step keeps it (`keeps_walk`), and a solve leaves nothing counted and nothing pinned.
-/

namespace Noeta.Pm

open Semver Lockfile Requirement Fallible

variable {W : World} {cfg : Config} {I : Walker → Prop} {w w' : Walker}

/-- `I` only reads the selection, the candidates, what is counted and what is pinned. -/
def Framed (I : Walker → Prop) : Prop :=
  ∀ w w', w'.solution = w.solution → w'.candidates = w.candidates →
    w'.registryIds = w.registryIds → w'.scopeTrust = w.scopeTrust → I w → I w'

theorem keeps_ask {α : Type} (r : Except Outside α) : Keeps I (ask r) := Keeps.fromExcept _

theorem keeps_fetchGit {url : String} {gitRef : GitRef} {sha clone : Option String} :
    Keeps I (fetchGit W cfg url gitRef sha clone) := by
  intro w mat w' hw h
  rw [(fetchGit_returns h).1]
  exact hw

theorem keeps_materialize {key base : String} {dep : Dependency} (hframe : Framed I)
    (hselected : ∀ package req, dep = .registry (some package) req →
      cfg.patches.lookup package.identity = none → Keeps I (materializeSelected W cfg key package)) :
    Keeps I (materialize W cfg key dep base) := by
  have huncached : Keeps I (materializeUncached W cfg key dep base) := by
    unfold materializeUncached
    split
    · exact Keeps.pure _
    · exact keeps_fetchGit
    · exact Keeps.throw _
    · rename_i package req
      split
      · exact Keeps.pure _
      · rename_i hplain
        exact hselected package req rfl hplain
  unfold materialize
  split
  · exact huncached
  · refine Keeps.get.bind fun w => ?_
    split
    · exact Keeps.pure _
    · refine huncached.bind fun out => Keeps.bind (Keeps.modify ?_) fun _ => Keeps.pure _
      intro w hw
      exact hframe w _ rfl rfl rfl rfl hw

/-! ## Solving -/

/-- Nothing is counted and nothing is pinned. -/
structure Uncounted (w : Walker) : Prop where
  registryIds : w.registryIds = []
  scopeTrust : w.scopeTrust = ∅

theorem framed_uncounted : Framed Uncounted := by
  intro w w' _ _ hids htrust hw
  exact ⟨hids.trans hw.registryIds, htrust.trans hw.scopeTrust⟩

theorem keeps_gatherTree {key base : String} {dep : Dependency}
    (hdep : ∀ package req, dep ≠ .registry package req) :
    Keeps Uncounted (gatherTree W cfg key dep base) := by
  have hmat : Keeps Uncounted (materialize W cfg key dep base) :=
    keeps_materialize framed_uncounted fun package req heq => absurd heq (hdep _ _)
  exact hmat.bind fun _ => (keeps_ask _).bind fun _ => (Keeps.fromExcept _).bind fun _ =>
    (Keeps.fromExcept _).bind fun _ => Keeps.pure _

theorem keeps_addCandidate {identity : String} {candidate : PathGitCandidate} :
    Keeps Uncounted (addCandidate identity candidate) :=
  Keeps.modify fun _ hw => ⟨hw.registryIds, hw.scopeTrust⟩

theorem keeps_gatherOne (fuel : Nat) {key base : String} {dep : Dependency} :
    Keeps Uncounted (gatherOne W cfg fuel key dep base) := by
  induction fuel generalizing key dep base with
  | zero => exact Keeps.cut
  | succ fuel ih =>
    cases dep with
    | path _ _ | git _ _ _ =>
      unfold gatherOne
      refine (keeps_gatherTree fun _ _ => Dependency.noConfusion).bind fun _ => Keeps.get.bind fun w => ?_
      split
      · exact Keeps.pure _
      · split
        · exact Keeps.pure _
        · exact keeps_addCandidate.bind fun _ => (Keeps.each fun _ _ => ih).bind fun _ =>
            keeps_addCandidate.bind fun _ => Keeps.pure _
    | registry package req =>
      cases package with
      | none => exact Keeps.throw _
      | some package =>
        show Keeps Uncounted (gatherRegistry key package req)
        unfold gatherRegistry
        dsimp only
        split
        · exact Keeps.throw _
        · refine Keeps.get.bind fun w => ?_
          split
          · exact Keeps.pure _
          · exact (Keeps.modify fun _ hw => ⟨hw.registryIds, hw.scopeTrust⟩).bind fun _ =>
              Keeps.pure _

theorem keeps_gather {fuel : Nat} {deps : Dependencies} {base : String} :
    Keeps Uncounted (gather W cfg fuel deps base) :=
  Keeps.each fun _ _ => keeps_gatherOne fuel

theorem keeps_gatherPatches {fuel : Nat} : Keeps Uncounted (gatherPatches W cfg fuel) := by
  have hversion : ∀ patch, Keeps Uncounted (patchVersion W patch) := by
    intro patch
    refine (keeps_ask _).bind fun manifest => (Keeps.fromExcept _).bind fun pkg => ?_
    split
    · exact Keeps.throw _
    · exact (Keeps.fromExcept _).bind fun _ =>
        (Keeps.modify fun _ hw => ⟨hw.registryIds, hw.scopeTrust⟩).bind fun _ => Keeps.pure _
  have hdeps : ∀ patch, Keeps Uncounted (patchDeps W cfg fuel patch) := by
    intro patch
    refine Keeps.get.bind fun w => ?_
    split
    · exact Keeps.pure _
    · split
      · exact Keeps.cut
      · exact keeps_addCandidate.bind fun _ => keeps_gather.bind fun _ => keeps_addCandidate
  exact (Keeps.each fun _ _ => hversion _).bind fun _ => (Keeps.each fun _ _ => hdeps _).bind fun _ =>
    Keeps.pure _

theorem keeps_loadCandidates {pins : List (String × Version)} (fuel : Nat) {queue seen : List String}
    {registry : Map String (List Release)} :
    Keeps Uncounted (loadCandidates W cfg pins fuel queue seen registry) := by
  induction fuel generalizing queue seen registry with
  | zero => exact Keeps.cut
  | succ fuel ih =>
    cases queue with
    | nil => exact Keeps.pure _
    | cons identity queue =>
      refine Keeps.get.bind fun w => ?_
      split
      · exact ih
      · split
        · exact Keeps.throw _
        · exact (keeps_ask _).bind fun _ => (Keeps.fromExcept _).bind fun _ => ih

theorem uncounted_solve {fuel : Nat} {deps : Dependencies} {dir : String} {u : Unit}
    (h : (solve W cfg fuel deps dir).Returns .init u w) : Uncounted w := by
  have hsolve : Keeps Uncounted (solve W cfg fuel deps dir) := by
    refine keeps_gatherPatches.bind fun _ => keeps_gather.bind fun rootDeps => Keeps.get.bind fun w => ?_
    split
    · exact Keeps.modify fun _ hw => ⟨hw.registryIds, hw.scopeTrust⟩
    · refine (keeps_loadCandidates fuel).bind fun registry => Keeps.bind ?_ fun solution =>
        Keeps.modify fun _ hw => ⟨hw.registryIds, hw.scopeTrust⟩
      unfold resolveVersions
      split
      · split
        · exact Keeps.pure _
        · exact Keeps.throw _
      · exact Keeps.cut
  exact hsolve _ _ _ ⟨rfl, rfl⟩ h

/-! ## Walking -/

/-- What the registry dependencies of a table name. -/
def Names (P : PackageName → Prop) (ds : Dependencies) : Prop :=
  ∀ package req, .registry (some package) req ∈ ds.leaves → P package

section Walk

variable {P : PackageName → Prop} (hframe : Framed I)
  (hselected : ∀ key package, P package → cfg.patches.lookup package.identity = none →
    Keeps I (materializeSelected W cfg key package))
include hframe hselected

theorem keeps_locate {key base : String} {dep : Dependency}
    (hdep : ∀ package req, dep = .registry (some package) req → P package) :
    Keeps I (locate W cfg key dep base) := by
  refine (keeps_materialize hframe fun package req heq => hselected key package
      (hdep package req heq)).bind fun mat =>
    (keeps_ask _).bind fun manifest => (Keeps.fromExcept _).bind fun pkg => Keeps.get.bind fun w =>
      (Keeps.fromExcept _).bind fun _ => ?_
  dsimp only
  split
  · exact Keeps.pure _
  · split
    · exact Keeps.pure _
    · exact (keeps_ask _).bind fun _ => Keeps.pure _

omit hselected hframe in
theorem locate_reads {key base : String} {dep : Dependency} {tree : Tree}
    (h : (locate W cfg key dep base).Returns w tree w') :
    ∃ dir, W.readManifest dir = .ok tree.manifest := by
  simp only [locate, returns_bind] at h
  obtain ⟨mat, _, _, manifest, _, hask, _, _, _, _, _, _, _, _, _, h⟩ := h
  obtain ⟨hread, _⟩ := returns_ask.mp hask
  split at h
  · obtain ⟨rfl, _⟩ := returns_pure.mp h
    exact ⟨_, hread⟩
  · split at h
    · obtain ⟨rfl, _⟩ := returns_pure.mp h
      exact ⟨_, hread⟩
    · simp only [returns_bind, returns_ask, returns_pure] at h
      obtain ⟨patchManifest, _, ⟨hp, _⟩, rfl, _⟩ := h
      exact ⟨_, hp⟩

omit hselected in
theorem keeps_install {key : String} {root : ScopeRoot} {tree : Tree} :
    Keeps I (install W cfg key root tree) := by
  intro w new w' hw h
  obtain ⟨pkg, _, ⟨_, hsame, _⟩ | ⟨_, _, hash, hadd⟩⟩ := install_spec h
  · rw [hsame]
    exact hw
  · rw [hadd]
    exact hframe w _ rfl rfl rfl rfl hw

omit hselected in
theorem keeps_setEdges {identity : String} {edges : List (String × List String)} :
    Keeps I (setEdges identity edges) := by
  refine Keeps.modify fun w hw => ?_
  split
  · exact hframe w _ rfl rfl rfl rfl hw
  · exact hw

omit hframe hselected in
theorem keeps_walkWith {one : String → Dependency → String → ScopeRoot → Walk String}
    {deps : Dependencies} {base : String}
    (hone : ∀ key dep root, dep ∈ deps.leaves → Keeps I (one key dep base root)) :
    Keeps I (walkWith one deps base) := by
  intro w edges w' hw h
  exact (walkWith_returns (R := fun _ _ => True) (P := fun _ _ _ => True) (fun _ => trivial)
    (fun _ _ _ _ _ => trivial) (fun _ _ _ _ _ _ => trivial)
    (fun key dep root hd w id w' hI hr => ⟨hone key dep root hd w id w' hI hr, trivial, trivial⟩)
    hw h).1

variable (hread : ∀ dir m, W.readManifest dir = .ok m → Names P m.dependencies)
include hread

theorem keeps_walkOne (fuel : Nat) {key base : String} {dep : Dependency} {root : ScopeRoot}
    (hdep : ∀ package req, dep = .registry (some package) req → P package) :
    Keeps I (walkOne W cfg fuel key dep base root) := by
  induction fuel generalizing key dep base root with
  | zero => exact Keeps.cut
  | succ fuel ih =>
    intro w id w' hw h
    simp only [walkOne, returns_bind] at h
    obtain ⟨tree, t, hlocate, new, t', hinstall, h⟩ := h
    have ht := keeps_locate hframe hselected hdep _ _ _ hw hlocate
    have ht' := keeps_install hframe _ _ _ ht hinstall
    obtain ⟨dir, hmanifest⟩ := locate_reads hlocate
    have hwalk : Keeps I (walkWith (walkOne W cfg fuel) tree.manifest.dependencies tree.dir) :=
      keeps_walkWith fun _ _ _ hd => ih fun package req heq =>
        hread dir _ hmanifest package req (by rw [← heq]; exact hd)
    split at h
    · exact (hwalk.bind fun _ => (keeps_setEdges hframe).bind fun _ => Keeps.pure _) _ _ _ ht' h
    · exact Keeps.pure _ _ _ _ ht' h

theorem keeps_walk {fuel : Nat} {deps : Dependencies} {dir : String} (hroot : Names P deps) :
    Keeps I (walk W cfg fuel deps dir) :=
  keeps_walkWith fun _ _ _ hd => keeps_walkOne hframe hselected hread fuel fun package req heq =>
    hroot package req (by rw [← heq]; exact hd)

end Walk

end Noeta.Pm
