import Noeta.Pm.Sole

/-!
# The consumer's provenance policy

`[trust].require_provenance` is checked where a release comes from the index, and not where the lock pins
its coordinates. A resolve upholds the policy when every release of a covered scope that the lock pins
carries provenance; a lock that an earlier resolve wrote without the policy need not meet this.
-/

namespace Noeta.Pm

open Semver Lockfile Requirement Fallible

/-- Which releases were published with a signature or with a keyless bundle. -/
abbrev Attested := String → Version → Prop

/-- The indexes serve every release with the provenance it was published with. -/
def ServesProvenance (attested : Attested) (W : World) : Prop :=
  ∀ name rs, W.releases name = .ok rs → ∀ r ∈ rs,
    (r.signature.isSome ∨ r.bundle.isSome) ↔ attested name r.version

namespace Resolve

/-- The resolved graph contains this release: some table requires it from the registry. -/
def Contains (s : Resolve) (w : Walker) (package : PackageName) (v : Version) : Prop :=
  (∃ ds base req, Declares s.world s.deps s.dir w ds base ∧
    .registry (some package) req ∈ Dependencies.leaves ds) ∧
    s.cfg.patches.lookup package.identity = none ∧
    ∃ inst, w.instances.lookup package.identity = some inst ∧ inst.version = v

/-- Every release of a scope that the policy covers carries a signature or a bundle. -/
def Upholds (s : Resolve) (attested : Attested) (w : Walker) : Prop :=
  ∀ package v, s.Contains w package v →
    s.cfg.requireProvenance.requires (scopeOf package.identity) = true →
      attested package.identity v

/-- The resolve ends in `w`. -/
def EndsIn (s : Resolve) (w : Walker) : Prop :=
  ∃ edges, (resolveGraph s.world s.cfg s.fuel s.deps s.dir).Returns .init edges w

end Resolve

/-- The lock pins no release of a covered scope that was published without provenance. -/
def PinsAttested (attested : Attested) (policy : RequireProvenance) (L : Lock) : Prop :=
  ∀ package : PackageName, isBuiltin package.company = false →
    policy.requires (scopeOf package.identity) = true →
    ∀ v, pinsRelease L package.identity v = true → attested package.identity v

section Runs

variable (displayVersion : Version → String) (parseVersion : String → Option Version)

/-- The lock before the next resolve: what was written, or as it was when nothing is, or deleted. -/
inductive NextLock (L : Lock) (w : Walker) : Lock → Prop
  | written (logTrust : Option LogTrust) (advisoryTrust : Option AdvisoryTrust) :
      NextLock L w (Lockfile.read parseVersion
        (render displayVersion (lockedPackages w) w.scopeTrust logTrust advisoryTrust))
  | kept : NextLock L w L
  | deleted : NextLock L w .empty

/-- The successful resolves of one project, each with the state it ends in. What a resolve reads besides
the lock is arbitrary. -/
inductive Run (attested : Attested) : Lock → List (Resolve × Walker) → Prop
  | nil (L : Lock) : Run attested L []
  | resolve {L L' : Lock} {s : Resolve} {w : Walker} {steps : List (Resolve × Walker)}
      (hlock : s.cfg.lock = L) (hserves : ServesProvenance attested s.world) (hends : s.EndsIn w)
      (hnext : NextLock displayVersion parseVersion L w L') (hrest : Run attested L' steps) :
      Run attested L ((s, w) :: steps)

end Runs

/-! ## What the index serves is checked -/

section Vetted

variable {W : World} {cfg : Config} {attested : Attested} {w w' : Walker}

/-- The lock pins the release, or the policy was checked on it. -/
def Vetted (cfg : Config) (attested : Attested) (name : String) (v : Version) : Prop :=
  pinsRelease cfg.lock name v = true ∨
    (cfg.requireProvenance.requires (scopeOf name) = true → attested name v)

theorem vetted_materializeIndexed {key : String} {package : PackageName} {v : Version}
    {mat : Materialized} (hserves : ServesProvenance attested W) (hc : CandidatesServed W w)
    (h : (materializeIndexed W cfg key package v).Returns w mat w') :
    Vetted cfg attested package.identity v := by
  simp only [materializeIndexed, returns_bind, returns_ask] at h
  obtain ⟨_, _, ⟨_, rfl⟩, release, t, hr, _, t', hp, _⟩ := h
  obtain ⟨_, hv, rs, hrs, hmem⟩ := selectedRelease_returns hc hr
  unfold checkProvenance at hp
  split at hp
  · exact absurd hp returns_throw
  · rename_i hnot
    refine Or.inr fun hrequires => ?_
    rw [← hv, ← hserves _ rs hrs release hmem]
    simp only [hrequires, Bool.true_and, Bool.and_eq_true, Option.isNone_iff_eq_none] at hnot
    rw [Option.isSome_iff_ne_none, Option.isSome_iff_ne_none]
    tauto

theorem vetted_materializeVersion {key : String} {package : PackageName} {v : Version}
    {mat : Materialized} (hserves : ServesProvenance attested W) (hc : CandidatesServed W w)
    (h : (materializeVersion W cfg key package v).Returns w mat w') :
    Vetted cfg attested package.identity v := by
  unfold materializeVersion at h
  split at h
  · rename_i url tag sha hcoords
    split at h
    · rename_i hlocked
      left
      simp [pinsRelease, hcoords, hlocked]
    · exact vetted_materializeIndexed hserves hc h
  · exact vetted_materializeIndexed hserves hc h

/-- While a walk goes on, every identity that is counted has been vetted. -/
structure Policed (W : World) (cfg : Config) (attested : Attested) (sol : Map String Version)
    (w : Walker) : Prop where
  solution : w.solution = sol
  served : CandidatesServed W w
  vetted : ∀ name ∈ w.registryIds,
    (∃ package : PackageName, package.identity = name ∧ isBuiltin package.company = false) ∧
      ∀ v, sol.lookup name = some v → Vetted cfg attested name v

theorem framed_policed {sol : Map String Version} : Framed (Policed W cfg attested sol) := by
  intro w w' hsol hcand hids _ hw
  refine ⟨hsol.trans hw.solution, fun name rs hl => ?_, fun name hn => ?_⟩
  · rw [hcand] at hl
    exact hw.served name rs hl
  · rw [hids] at hn
    exact hw.vetted name hn

theorem keeps_policed (hserves : ServesProvenance attested W) {sol : Map String Version}
    {key : String} {package : PackageName} :
    Keeps (Policed W cfg attested sol) (materializeSelected W cfg key package) := by
  intro w mat w' hw h
  simp only [materializeSelected, countRegistry, returns_bind, returns_modify] at h
  obtain ⟨_, t, rfl, h⟩ := h
  split at h
  · exact absurd h returns_throw
  rename_i hcompany
  rw [returns_get_bind] at h
  split at h
  · exact absurd h returns_throw
  rename_i version hsol
  have hsol : sol.lookup package.identity = some version := by
    rw [← hw.solution]
    exact hsol
  obtain ⟨hu, _⟩ := materializeVersion_spec (by exact hw.served) h
  have hvet : Vetted cfg attested package.identity version :=
    vetted_materializeVersion hserves (by exact hw.served) h
  refine ⟨hu.solution.trans hw.solution, fun name rs hl => ?_, fun name hn => ?_⟩
  · rw [hu.candidates] at hl
    exact hw.served name rs hl
  · rw [hu.registryIds] at hn
    obtain rfl | hn := List.mem_cons.mp hn
    · refine ⟨⟨package, rfl, by simpa using hcompany⟩, fun v hv => ?_⟩
      rw [hsol] at hv
      cases hv
      exact hvet
    · exact hw.vetted name hn

end Vetted

section Upholds

variable {attested : Attested} {s : Resolve} {w : Walker}

theorem Resolve.EndsIn.policed (h : s.EndsIn w) (hserves : ServesProvenance attested s.world) :
    Policed s.world s.cfg attested w.solution w := by
  obtain ⟨edges, hret⟩ := h
  obtain ⟨t, hsolve, hwalk⟩ := resolveGraph_spec hret
  obtain ⟨_, g, rootDeps, _, _, hdone, hsolved⟩ := solve_spec hsolve
  have hstart : Policed s.world s.cfg attested t.solution t := by
    refine ⟨rfl, (hsolved.ready hdone).2.2.candidates, fun name hn => ?_⟩
    rw [(uncounted_solve hsolve).registryIds] at hn
    simp at hn
  have hend := keeps_walk (P := fun _ => True) framed_policed (fun _ _ _ _ => keeps_policed hserves)
    (fun _ _ _ _ _ _ => trivial) (fun _ _ _ => trivial) _ _ _ hstart hwalk
  rw [hend.solution]
  exact hend

theorem upholds_of_pinsAttested (h : s.EndsIn w) (hserves : ServesProvenance attested s.world)
    (hpins : PinsAttested attested s.cfg.requireProvenance s.cfg.lock) : s.Upholds attested w := by
  intro package v hcontains hrequires
  obtain ⟨⟨ds, base, req, hds, hmem⟩, hplain, inst, hinst, rfl⟩ := hcontains
  have hpoliced := h.policed hserves
  obtain ⟨edges, hret⟩ := h
  obtain ⟨hcount, inst', hinst', hsol⟩ := resolveGraph_visits hret hds _ hmem package req rfl hplain
  rw [hinst] at hinst'
  cases hinst'
  obtain ⟨⟨package', hid, hcompany⟩, hvetted⟩ := hpoliced.vetted _ hcount
  obtain hpinned | hchecked := hvetted _ hsol
  · rw [← hid] at hrequires hpinned ⊢
    exact hpins package' hcompany hrequires _ hpinned
  · exact hchecked hrequires

end Upholds

/-! ## What the lock pins is not -/

/-- A resolve of one pinned version, with an index that serves nothing. -/
def pinnedResolve (L : Lock) (policy : RequireProvenance) (package : PackageName) (v : Version) :
    Resolve where
  world := soleWorld package v (steadyTree L package.identity) []
  cfg := { unlocked with
    lock := L
    requireProvenance := policy }
  fuel := 1
  deps := soleDeps package v
  dir := "root"

theorem pinnedResolve_contains {L : Lock} {policy : RequireProvenance} {package : PackageName}
    {v : Version} (hcompany : isBuiltin package.company = false)
    (hpins : pinsRelease L package.identity v = true) :
    ∃ w, (pinnedResolve L policy package v).EndsIn w ∧
      (pinnedResolve L policy package v).Contains w package v := by
  let s := pinnedResolve L policy package v
  have hsole : Sole s.world s.cfg package v (steadyTree L package.identity) :=
    @sole_soleWorld s.cfg package v [] rfl hcompany
  simp only [pinsRelease, Bool.and_eq_true, decide_eq_true_eq] at hpins
  obtain ⟨hcoords, hlocked⟩ := hpins
  obtain ⟨⟨url, tag, sha⟩, hcoords⟩ := Option.isSome_iff_exists.mp hcoords
  have hsolve := @Sole.adopts s.world s.cfg package v _ "root" hsole rfl hlocked 0
  have hcarry : ∀ key w, ∃ t, (carryPin s.cfg key).Returns w () t := by
    intro key w
    unfold carryPin
    split
    · exact ⟨_, returns_modify.mpr rfl⟩
    · exact ⟨w, returns_pure.mpr ⟨rfl, rfl⟩⟩
  let w0 : Walker := { Walker.init with
    registryQueue := [package.identity]
    solution := L.versions
    registryIds := [package.identity] }
  obtain ⟨t1, ht1⟩ := hcarry package.company w0
  obtain ⟨t2, ht2⟩ := hcarry package.identity t1
  let f := steadyTree L package.identity
  have hmat : (materializeVersion s.world s.cfg "dep" package v).Returns w0
      ⟨f.path, .git url (.tag tag) f.sha, some f.contentHash⟩ t2 := by
    unfold materializeVersion
    rw [show s.cfg.lock.registryCoords package.identity = some (url, tag, sha) from hcoords]
    simp only [show s.cfg.lock.lockedVersion package.identity = some v from hlocked, if_true,
      returns_bind, carryTrust]
    exact ⟨(), t2, ⟨(), t1, ht1, ht2⟩, hsole.fetches⟩
  obtain ⟨edges, w, hwalk, _, _, inst, hinst, hversion, _⟩ := @Sole.walks s.world s.cfg package v _
    { Walker.init with
      registryQueue := [package.identity]
      solution := L.versions } _ "root" hsole
    (fun name rs hl => by simp [Walker.init] at hl) hlocked rfl (AList.lookup_empty _) _ hmat 0
  refine ⟨w, ⟨edges, ?_⟩, ⟨soleDeps package v, "root", exactReq v, .root, ?_⟩,
    AList.lookup_empty _, inst, hinst, hversion⟩
  · simp only [resolveGraph, returns_bind]
    exact ⟨(), _, hsolve, hwalk⟩
  · simp [soleDeps, Dependencies.leaves, Entry.leaves]

/-- In every run whose locks pin no unattested release of a scope that is then covered, every resolve
upholds the policy; and from any other lock some resolve does not. -/
theorem policy_holds_along_runs (attested : Attested) (displayVersion : Version → String)
    (parseVersion : String → Option Version) :
    (∀ L steps, Run displayVersion parseVersion attested L steps →
      (∀ st ∈ steps, PinsAttested attested st.1.cfg.requireProvenance st.1.cfg.lock) →
        ∀ st ∈ steps, st.1.Upholds attested st.2) ∧
      ∀ L policy, ¬ PinsAttested attested policy L → ∃ (s : Resolve) (w : Walker), s.cfg.lock = L ∧
        s.cfg.requireProvenance = policy ∧ ServesProvenance attested s.world ∧ s.EndsIn w ∧
          ¬ s.Upholds attested w := by
  constructor
  · intro L steps hrun hpins
    induction hrun with
    | nil L => simp
    | @resolve L L' s w steps hlock hserves hends hnext hrest ih =>
      intro st hst
      obtain rfl | hst := List.mem_cons.mp hst
      · exact upholds_of_pinsAttested hends hserves (hpins (s, w) (by simp))
      · exact ih (fun st hst => hpins st (List.mem_cons_of_mem _ hst)) st hst
  · intro L policy hnot
    unfold PinsAttested at hnot
    push Not at hnot
    obtain ⟨package, hcompany, hrequires, v, hpinned, hunattested⟩ := hnot
    obtain ⟨w, hends, hcontains⟩ := @pinnedResolve_contains L policy _ _ hcompany hpinned
    refine ⟨_, w, rfl, rfl, ?_, hends, fun hupholds => ?_⟩
    · intro name rs hrs r hr
      obtain rfl : [] = rs := by simpa [pinnedResolve, soleWorld] using hrs
      simp at hr
    · exact hunattested (hupholds package v hcontains hrequires)

/-! ### A policy that comes after the lock -/

/-- The root requires `acme/b`, whose releases are unsigned, under some policy. -/
def unsignedResolve (lock : Lock) (policy : RequireProvenance) : Resolve :=
  { shopResolve lock ∅ bName with cfg := { (shopResolve lock ∅ bName).cfg with
      requireProvenance := policy } }

/-- Whether a resolve ends, by running it. -/
def Resolve.endsNow (s : Resolve) : Bool :=
  match ((resolveGraph s.world s.cfg s.fuel s.deps s.dir).run .init).run with
  | some (.ok _) => true
  | _ => false

theorem Resolve.endsIn_outcome {s : Resolve} (h : s.endsNow = true) : s.EndsIn s.outcome := by
  unfold endsNow at h
  split at h
  · rename_i r hr
    refine ⟨r.1, ?_⟩
    unfold outcome
    rw [hr]
    exact hr
  · cases h

theorem servesProvenance_shop : ServesProvenance (fun _ _ => False) shopWorld := by
  intro name rs hrs r hr
  obtain rfl : shopReleases name = rs := by simpa [shopWorld] using hrs
  have hunsigned : ∀ url deps, (releaseOf url deps).signature = none ∧ (releaseOf url deps).bundle = none :=
    fun _ _ => ⟨rfl, rfl⟩
  unfold shopReleases at hr
  split at hr
  · rw [List.mem_singleton.mp hr]
    simp [hunsigned]
  · split at hr
    · rw [List.mem_singleton.mp hr]
      simp [hunsigned]
    · simp at hr

/-- Under a policy for every scope, from the lock of a resolve of `acme/b`, whose release is signed. -/
theorem policy_holds_along_runs_pinned : ∃ w,
    (pinnedResolve (unsignedResolve .empty .nothing).writes .all bName libVersion).EndsIn w ∧
      (pinnedResolve (unsignedResolve .empty .nothing).writes .all bName libVersion).Contains w bName
        libVersion ∧
      (pinnedResolve (unsignedResolve .empty .nothing).writes .all bName libVersion).Upholds
        (fun name v => name = "acme/b" ∧ v = libVersion) w := by
  let L := (unsignedResolve .empty .nothing).writes
  let attested : Attested := fun name v => name = "acme/b" ∧ v = libVersion
  obtain ⟨w, hends, hcontains⟩ :=
    @pinnedResolve_contains L .all bName libVersion (by decide) (by decide +kernel)
  have hserves : ServesProvenance attested (pinnedResolve L .all bName libVersion).world := by
    intro name rs hrs r hr
    obtain rfl : [] = rs := by simpa [pinnedResolve, soleWorld] using hrs
    simp at hr
  have hpins : PinsAttested attested .all L := by
    intro package _ _ v hv
    simp only [pinsRelease, Bool.and_eq_true, decide_eq_true_eq] at hv
    have hall : ∀ e ∈ L.versions.entries, e.1 = "acme/b" ∧ e.2 = libVersion := by decide +kernel
    exact hall ⟨package.identity, v⟩ (AList.mem_lookup_iff.mp hv.2)
  have hrun : Run displayOne parseOne attested L [(pinnedResolve L .all bName libVersion, w)] :=
    .resolve rfl hserves hends .kept (.nil _)
  refine ⟨w, hends, hcontains, ?_⟩
  exact (policy_holds_along_runs attested displayOne parseOne).1 L _ hrun
    (fun st hst => by rw [List.mem_singleton.mp hst]; exact hpins) _ (List.mem_singleton.mpr rfl)

/-- The lock is written without a policy; under one the next resolve takes `acme/b` from it. -/
theorem policy_skips_pinned_releases :
    ¬ ∀ (attested : Attested) (displayVersion : Version → String)
      (parseVersion : String → Option Version) (steps : List (Resolve × Walker)),
      Run displayVersion parseVersion attested .empty steps →
        ∀ st ∈ steps, st.1.Upholds attested st.2 := by
  intro h
  let first := unsignedResolve .empty .nothing
  let second := unsignedResolve first.writes .all
  have hfirst : first.EndsIn first.outcome := Resolve.endsIn_outcome (by decide +kernel)
  have hsecond : second.EndsIn second.outcome := Resolve.endsIn_outcome (by decide +kernel)
  have hrun : Run displayOne parseOne (fun _ _ => False) .empty
      [(first, first.outcome), (second, second.outcome)] :=
    .resolve rfl servesProvenance_shop hfirst (.written none none)
      (.resolve rfl servesProvenance_shop hsecond .kept (.nil _))
  have hupholds := h _ _ _ _ hrun (second, second.outcome) (by simp)
  have hinst : (second.outcome.instances.lookup "acme/b").map (·.version) = some libVersion := by
    decide +kernel
  obtain ⟨inst, hinst, hversion⟩ := Option.map_eq_some_iff.mp hinst
  exact hupholds bName libVersion ⟨⟨_, _, caretOne, .root, by
    simp [second, unsignedResolve, shopResolve, requires, Dependencies.leaves, Entry.leaves]⟩,
    AList.lookup_empty _, inst, hinst, hversion⟩ rfl

end Noeta.Pm
