import Noeta.Pm.LegacyPins
import Noeta.Pm.Policy
import Noeta.Pm.Transparency
import Mathlib.Algebra.Order.BigOperators.Group.List

/-!
# Trust pins over a history of resolves

What a resolve writes of the pins of the lock. Where the lock's coordinates are taken, the pin of the
scope and that of the package are both carried over; where a release comes from the index, only the pin
it was checked against is. A log head is written where transparency was enforced, and dropped elsewhere.
-/

namespace Noeta.Pm

open Semver Lockfile Requirement Fallible

/-! ## The transparency log -/

structure Checkpoint where
  treeSize : UInt64
  rootHash : String
  signature : String

/-- What the resolver asks of a registry's log: its key, its checkpoint and its proofs. -/
structure LogIndex (H : Type) where
  logPublicKey : Except Outside (Option String)
  logCheckpoint : Except Outside Checkpoint
  verifyCheckpoint : String → UInt64 → String → String → Except Outside Bool
  logConsistency : UInt64 → UInt64 → Except Outside (List String)
  verifyInclusionAt : LockedPackage → Checkpoint → Except Outside Unit
  hexToArray : String → Option H

section Enforce

variable {H : Type} [DecidableEq H] (nodeHash : H → H → H) (index : LogIndex H)

def distrust (what : String) : PmError := .outside ⟨.trust, what⟩

/-- The checkpoint extends the pinned one. -/
def checkExtension (fuel : Nat) (p : LogTrust) (cp : Checkpoint) : Walk Unit := do
  if cp.treeSize < p.treeSize then throw (distrust "the log shrank")
  else do
    let cons ← ask (index.logConsistency p.treeSize cp.treeSize)
    match index.hexToArray p.rootHash with
    | none => throw (distrust "malformed pinned root hash")
    | some rootFrom =>
      match index.hexToArray cp.rootHash with
      | none => throw (distrust "malformed checkpoint root")
      | some rootTo =>
        match cons.mapM index.hexToArray with
        | none => throw (distrust "malformed consistency proof")
        | some proof =>
          match Transparency.verifyConsistency nodeHash fuel p.treeSize cp.treeSize proof rootFrom
              rootTo with
          | none => cut
          | some true => pure ()
          | some false => throw (distrust "not an append-only extension")

/-- A registry release that is pinned to a tag is looked up in the log. -/
def checkLogged (registryIds : List String) (cp : Checkpoint) (pkg : LockedPackage) : Walk Unit :=
  if pkg.identity ∈ registryIds then
    match pkg.source with
    | .git _ (.tag _) _ => ask (index.verifyInclusionAt pkg cp)
    | _ => pure ()
  else pure ()

/-- The pinned key of the log, or the one that is served on first use. -/
def logKey : Option LogTrust → Walk String
  | some p => pure p.publicKey
  | none => do
    let served ← ask index.logPublicKey
    match served with
    | some key => pure key
    | none => throw (distrust "no log key")

def checkPinned (fuel : Nat) (cp : Checkpoint) : Option LogTrust → Walk Unit
  | some p => checkExtension nodeHash index fuel p cp
  | none => pure ()

def enforceTransparency (fuel : Nat) (pinned : Option LogTrust) : Walk LogTrust := do
  let key ← logKey index pinned
  let cp ← ask index.logCheckpoint
  let signed ← ask (index.verifyCheckpoint key cp.treeSize cp.rootHash cp.signature)
  if !signed then throw (distrust "the checkpoint does not verify")
  else do
    checkPinned nodeHash index fuel cp pinned
    let w ← get
    let _ ← each (checkLogged index w.registryIds cp) (lockedPackages w)
    pure ⟨key, cp.treeSize, cp.rootHash⟩

end Enforce

/-! ## One resolve -/

/-- A resolve, the log of its registry, and whether the root requires transparency, which makes it
ignore the lock's versions. -/
structure Update (H : Type) extends Resolve where
  index : LogIndex H
  requireTransparency : Bool
  pins : cfg.lockPins = if requireTransparency then .ignore else .honor

namespace Update

variable {H : Type} [DecidableEq H] (nodeHash : H → H → H) (s : Update H)

/-- The graph, and the log head that is written. -/
def resolve : Walk (Option LogTrust) := do
  let _ ← resolveGraph s.world s.cfg s.fuel s.deps s.dir
  let w ← get
  if s.requireTransparency && !w.registryIds.isEmpty then do
    let head ← enforceTransparency nodeHash s.index s.fuel s.cfg.lock.logTrust
    pure (some head)
  else pure none

/-- The resolve ends in `w`, whose pins are written, and writes the log head `head`. -/
def Writes (w : Walker) (head : Option LogTrust) : Prop :=
  (s.resolve nodeHash).Returns .init head w

/-- The live path takes this release, while the scope's key is served as `servedKey`. -/
def Accepts (package : PackageName) (release : Release) (servedKey : Option String) : Prop :=
  ∃ key w w', (checkProvenance s.world s.cfg key package.identity release servedKey).Returns w () w'

end Update

/-- The shape of a release agrees with a pin. -/
def Lockfile.ScopeTrust.Fits (release : Release) (servedKey : Option String) : ScopeTrust → Prop
  | .key publicKey => release.bundle = none ∧ ∀ served ∈ servedKey, served = publicKey
  | .keyless _ _ => release.signature = none ∧ release.bundle.isSome

/-- The log only grew, under the same key. -/
def Lockfile.LogTrust.Extends {H : Type} [DecidableEq H] (nodeHash : H → H → H)
    (decode : String → Option H) (old new : LogTrust) : Prop :=
  new.publicKey = old.publicKey ∧ old.treeSize ≤ new.treeSize ∧
    ∃ rootFrom rootTo proof, decode old.rootHash = some rootFrom ∧
      decode new.rootHash = some rootTo ∧ Transparency.Accepts fun fuel =>
        Transparency.verifyConsistency nodeHash fuel old.treeSize new.treeSize proof rootFrom rootTo

namespace Update

variable {H : Type} [DecidableEq H]

/-- Every pin of the lock that constrains a registry package of the graph is written as it was, the log
head as it was or extended, and no release was taken that disagrees with a pin. -/
structure KeepsPins (nodeHash : H → H → H) (s : Update H) (w : Walker) (head : Option LogTrust) :
    Prop where
  scopeKey : ∀ package v, s.Contains w package v → ∀ key,
    s.cfg.lock.scopeTrust.lookup (scopeOf package.identity) = some (.key key) →
      w.scopeTrust.lookup (scopeOf package.identity) = some (.key key)
  keyless : ∀ package v, s.Contains w package v → ∀ issuer identity,
    s.cfg.lock.scopeTrust.lookup package.identity = some (.keyless issuer identity) →
      w.scopeTrust.lookup package.identity = some (.keyless issuer identity)
  log : ∀ package v, s.Contains w package v → ∀ old, s.cfg.lock.logTrust = some old →
    ∃ new, head = some new ∧ old.Extends nodeHash s.index.hexToArray new
  shape : ∀ (package : PackageName) release servedKey, s.Accepts package release servedKey →
    ∀ pin, (s.cfg.lock.scopeTrust.lookup package.identity = some pin ∨
      s.cfg.lock.scopeTrust.lookup (scopeOf package.identity) = some pin) →
        pin.Fits release servedKey

end Update

/-- Two pins ask for one shape. -/
def Lockfile.ScopeTrust.Agrees : ScopeTrust → ScopeTrust → Prop
  | .key publicKey, .key publicKey' => publicKey = publicKey'
  | .keyless _ _, .keyless _ _ => True
  | _, _ => False

/-- What lets every pin survive: the pins of a package and of its scope agree, and a log head is only
there while transparency is required. -/
structure Steady (L : Lock) (requireTransparency : Bool) : Prop where
  agree : ∀ (package : PackageName) own scope, L.scopeTrust.lookup package.identity = some own →
    L.scopeTrust.lookup (scopeOf package.identity) = some scope → own.Agrees scope
  log : L.logTrust.isSome = true → requireTransparency = true

/-- A bundle that is checked against a pinned identity proves that identity. -/
def PolicyEnforced (W : World) : Prop :=
  ∀ name release bundle pin proved, W.verifyBundle name release bundle (some pin) = .ok proved →
    proved = pin

/-- Registry names are read with the scope in front of the only slash. -/
def NamesParsed (s : Resolve) : Prop :=
  Names (fun package => package.company = scopeOf package.identity) s.deps ∧
    ∀ dir m, s.world.readManifest dir = .ok m →
      Names (fun package => package.company = scopeOf package.identity) m.dependencies

/-! ## What the live path pins -/

section Live

variable {W : World} {cfg : Config} {w w' : Walker}

variable {release : Release}

theorem fits_of_decision {pin : ScopeTrust} {servedKey : Option String} {action : ProvenanceAction}
    (h : provenanceDecision (some pin) release.signature release.bundle servedKey = .ok action) :
    pin.Fits release servedKey := by
  cases pin with
  | key publicKey =>
    cases hs : release.signature <;> cases hb : release.bundle <;>
      simp only [hs, hb, provenanceDecision, reduceCtorEq] at h
    all_goals
      split at h
      · cases h
      · rename_i hserved
        refine ⟨hb, fun served hmem => ?_⟩
        rw [Option.mem_def.mp hmem] at hserved
        simpa using hserved
  | keyless issuer identity =>
    cases hs : release.signature <;> cases hb : release.bundle <;>
      simp only [hs, hb, provenanceDecision, reduceCtorEq] at h
    exact ⟨hs, by simp [hb]⟩

/-- What a checked release pins; a pin it was checked against is pinned again. -/
inductive Repins (L : Lock) (name : String) (w w' : Walker) : Prop
  | unverified (htrust : trustFor L name = none) (hw : w'.scopeTrust = w.scopeTrust)
  | key {publicKey : String} (htrust : ∀ pin, trustFor L name = some pin → pin = .key publicKey)
      (hw : w'.scopeTrust = w.scopeTrust.insert (scopeOf name) (.key publicKey))
  | keyless {issuer identity : String}
      (htrust : ∀ pin, trustFor L name = some pin → pin = .keyless issuer identity)
      (hw : w'.scopeTrust = w.scopeTrust.insert name (.keyless issuer identity))

theorem repins_key {name publicKey : String} {signature : Option String}
    (htrust : ∀ pin, trustFor cfg.lock name = some pin → pin = .key publicKey)
    (h : (verifyAction W name release (.key publicKey signature)).Returns w () w') :
    Repins cfg.lock name w w' := by
  refine .key htrust ?_
  cases signature with
  | none => rw [returns_modify.mp h]
  | some sig =>
    simp only [verifyAction, returns_bind, returns_ask] at h
    obtain ⟨_, _, ⟨_, rfl⟩, h⟩ := h
    rw [returns_modify.mp h]

theorem repins_keyless {name bundle : String} {pinned : Option (String × String)}
    (hverify : PolicyEnforced W)
    (htrust : ∀ pin, trustFor cfg.lock name = some pin →
      ∃ issuer identity, pin = .keyless issuer identity ∧ pinned = some (issuer, identity))
    (h : (verifyAction W name release (.keyless bundle pinned)).Returns w () w') :
    Repins cfg.lock name w w' := by
  simp only [verifyAction, returns_bind, returns_ask] at h
  obtain ⟨proved, _, ⟨hproved, rfl⟩, h⟩ := h
  refine .keyless (fun pin hpin => ?_) (by rw [returns_modify.mp h])
  obtain ⟨issuer, identity, rfl, rfl⟩ := htrust pin hpin
  rw [hverify _ _ _ _ _ hproved]

theorem repins_of_checkProvenance {key name : String}
    {servedKey : Option String} (hverify : PolicyEnforced W)
    (h : (checkProvenance W cfg key name release servedKey).Returns w () w') :
    Repins cfg.lock name w w' := by
  unfold checkProvenance at h
  split at h
  · exact absurd h returns_throw
  split at h
  · exact absurd h returns_throw
  rename_i action hdecision
  cases htrust : trustFor cfg.lock name with
  | none =>
    have hfirst : ∀ {Q : ScopeTrust → Prop} pin, trustFor cfg.lock name = some pin → Q pin := by
      intro Q pin hpin
      rw [htrust] at hpin
      cases hpin
    cases hs : release.signature <;> cases hb : release.bundle <;> cases servedKey <;>
      simp only [htrust, hs, hb, provenanceDecision, reduceCtorEq, Except.ok.injEq] at hdecision <;>
      rw [← hdecision] at h
    · exact .unverified htrust (by rw [← (returns_pure.mp h).2])
    · exact repins_key hfirst h
    · exact repins_keyless hverify hfirst h
    · exact repins_keyless hverify hfirst h
    · exact repins_key hfirst h
  | some pin =>
    rw [htrust] at hdecision
    cases pin with
    | key publicKey =>
      have hsame : ∀ pin, trustFor cfg.lock name = some pin → pin = .key publicKey := by
        intro pin hpin
        rw [htrust] at hpin
        exact (Option.some.inj hpin).symm
      cases hs : release.signature <;> cases hb : release.bundle <;>
        simp only [hs, hb, provenanceDecision, reduceCtorEq] at hdecision
      all_goals
        split at hdecision
        · cases hdecision
        · rw [← Except.ok.inj hdecision] at h
          exact repins_key hsame h
    | keyless issuer identity =>
      cases hs : release.signature <;> cases hb : release.bundle <;>
        simp only [hs, hb, provenanceDecision, reduceCtorEq, Except.ok.injEq] at hdecision
      rw [← hdecision] at h
      refine repins_keyless hverify (fun pin hpin => ?_) h
      rw [htrust] at hpin
      exact ⟨issuer, identity, (Option.some.inj hpin).symm, rfl⟩

end Live

/-! ## What a walk carries over -/

theorem identity_ne_scopeOf (package : PackageName) (name : String) :
    package.identity ≠ scopeOf name := by
  intro h
  have hslash : '/' ∈ package.identity.toList := by
    simp [PackageName.identity, String.toList_append]
  rw [h] at hslash
  exact (scopeOf_eq_self_iff (scopeOf name)).mp (scopeOf_scopeOf name) hslash

section Carry

variable {W : World} {cfg : Config} {L : Lock} {w w' : Walker}

/-- The pins that constrain `name` are pinned again. -/
structure Carried (L : Lock) (w : Walker) (name : String) : Prop where
  scopeKey : ∀ key, L.scopeTrust.lookup (scopeOf name) = some (.key key) →
    w.scopeTrust.lookup (scopeOf name) = some (.key key)
  keyless : ∀ issuer identity, L.scopeTrust.lookup name = some (.keyless issuer identity) →
    w.scopeTrust.lookup name = some (.keyless issuer identity)

/-- Pinning `trust` at `k` is no change of what the lock pins there. -/
structure Restores (L : Lock) (k : String) (trust : ScopeTrust) : Prop where
  scopeKey : ∀ name, scopeOf name = k → ∀ key, L.scopeTrust.lookup k = some (.key key) →
    trust = .key key
  keyless : ∀ package : PackageName, package.identity = k → ∀ issuer identity,
    L.scopeTrust.lookup k = some (.keyless issuer identity) → trust = .keyless issuer identity

variable {package : PackageName} {pin : ScopeTrust} {key : String} {u : Unit}

theorem Carried.insert {k : String} {trust : ScopeTrust}
    (h : Carried L w package.identity) (hrestores : Restores L k trust)
    (hw : w'.scopeTrust = w.scopeTrust.insert k trust) : Carried L w' package.identity where
  scopeKey key hkey := by
    rw [hw]
    by_cases hk : scopeOf package.identity = k
    · rw [hk] at hkey
      rw [hk, AList.lookup_insert, hrestores.scopeKey _ hk key hkey]
    · rw [AList.lookup_insert_ne hk]
      exact h.scopeKey key hkey
  keyless issuer identity hpin := by
    rw [hw]
    by_cases hk : package.identity = k
    · rw [hk] at hpin
      rw [hk, AList.lookup_insert, hrestores.keyless _ hk issuer identity hpin]
    · rw [AList.lookup_insert_ne hk]
      exact h.keyless issuer identity hpin

theorem restores_pinned {k : String} (h : L.scopeTrust.lookup k = some pin) : Restores L k pin where
  scopeKey name _ key hkey := by
    rw [h] at hkey
    exact Option.some.inj hkey
  keyless package _ issuer identity hpin := by
    rw [h] at hpin
    exact Option.some.inj hpin

theorem carryPin_spec (h : (carryPin cfg key).Returns w u w') :
    (cfg.lock.scopeTrust.lookup key = none ∧ w'.scopeTrust = w.scopeTrust) ∨
      ∃ pin, cfg.lock.scopeTrust.lookup key = some pin ∧
        w'.scopeTrust = w.scopeTrust.insert key pin := by
  unfold carryPin at h
  split at h
  · rename_i pin hpin
    refine Or.inr ⟨pin, hpin, ?_⟩
    rw [returns_modify.mp h]
  · rename_i hnone
    refine Or.inl ⟨hnone, ?_⟩
    rw [← (returns_pure.mp h).2]

theorem Carried.carryPin
    (h : Carried cfg.lock w package.identity) (hret : (Pm.carryPin cfg key).Returns w u w') :
    Carried cfg.lock w' package.identity := by
  obtain ⟨_, hw⟩ | ⟨pin, hpin, hw⟩ := carryPin_spec hret
  · refine ⟨fun k hk => ?_, fun issuer identity hk => ?_⟩
    · rw [hw]
      exact h.scopeKey k hk
    · rw [hw]
      exact h.keyless issuer identity hk
  · exact h.insert (restores_pinned hpin) hw

theorem carried_carryTrust (hparsed : package.company = scopeOf package.identity)
    (h : (carryTrust cfg package.identity package.company).Returns w u w') :
    Carried cfg.lock w' package.identity := by
  simp only [carryTrust, returns_bind] at h
  obtain ⟨_, t, h1, h2⟩ := h
  rw [hparsed] at h1
  have hne : scopeOf package.identity ≠ package.identity := (identity_ne_scopeOf _ _).symm
  refine ⟨fun key hkey => ?_, fun issuer identity hpin => ?_⟩
  · have ht : t.scopeTrust.lookup (scopeOf package.identity) = some (.key key) := by
      obtain ⟨hnone, _⟩ | ⟨pin, hpin, hw⟩ := carryPin_spec h1
      · rw [hnone] at hkey
        cases hkey
      · rw [hw, AList.lookup_insert, ← hpin, hkey]
    obtain ⟨_, hw⟩ | ⟨pin, _, hw⟩ := carryPin_spec h2
    · rw [hw, ht]
    · rw [hw, AList.lookup_insert_ne hne, ht]
  · obtain ⟨hnone, _⟩ | ⟨pin, hpin', hw⟩ := carryPin_spec h2
    · rw [hnone] at hpin
      cases hpin
    · rw [hw, AList.lookup_insert, ← hpin', hpin]

theorem trustFor_of_agree (hagree : ∀ own scope, L.scopeTrust.lookup package.identity = some own →
      L.scopeTrust.lookup (scopeOf package.identity) = some scope → own.Agrees scope)
    (hkey : ∃ key, pin = .key key)
    (hscope : L.scopeTrust.lookup (scopeOf package.identity) = some pin) :
    trustFor L package.identity = some pin := by
  obtain ⟨key, rfl⟩ := hkey
  rw [trustFor, hscope]
  cases hown : L.scopeTrust.lookup package.identity with
  | none => rfl
  | some own =>
    have h := hagree own _ hown hscope
    cases own with
    | key publicKey =>
      obtain rfl : publicKey = key := h
      rfl
    | keyless issuer identity => exact h.elim

theorem trustFor_of_own {name : String}
    (hown : L.scopeTrust.lookup name = some pin) : trustFor L name = some pin := by
  rw [trustFor, hown]
  rfl

/-- What a checked release pins restores what the lock pins there, and constrains the package again. -/
theorem Repins.carried (h : Repins L package.identity w w')
    (hagree : ∀ own scope, L.scopeTrust.lookup package.identity = some own →
      L.scopeTrust.lookup (scopeOf package.identity) = some scope → own.Agrees scope) :
    Carried L w' package.identity ∧ (w'.scopeTrust = w.scopeTrust ∨
      ∃ k trust, Restores L k trust ∧ w'.scopeTrust = w.scopeTrust.insert k trust) := by
  have hscope : ∀ key, L.scopeTrust.lookup (scopeOf package.identity) = some (.key key) →
      trustFor L package.identity = some (.key key) :=
    fun key hkey => trustFor_of_agree hagree ⟨key, rfl⟩ hkey
  cases h with
  | unverified htrust hw =>
    refine ⟨⟨fun key hkey => ?_, fun issuer identity hpin => ?_⟩, Or.inl hw⟩
    · have hsome := hscope key hkey
      rw [htrust] at hsome
      cases hsome
    · have hsome := trustFor_of_own hpin
      rw [htrust] at hsome
      cases hsome
  | key htrust hw =>
    refine ⟨⟨fun key hkey => ?_, fun issuer identity hpin => ?_⟩, Or.inr ⟨_, _, ⟨?_, ?_⟩, hw⟩⟩
    · rw [hw, AList.lookup_insert, ← htrust _ (hscope key hkey)]
    · exact absurd (htrust _ (trustFor_of_own hpin)) ScopeTrust.noConfusion
    · intro name _ key hkey
      exact (htrust _ (hscope key hkey)).symm
    · intro package' hid
      exact absurd hid (identity_ne_scopeOf _ _)
  | keyless htrust hw =>
    refine ⟨⟨fun key hkey => ?_, fun issuer identity hpin => ?_⟩, Or.inr ⟨_, _, ⟨?_, ?_⟩, hw⟩⟩
    · exact absurd (htrust _ (hscope key hkey)) ScopeTrust.noConfusion
    · rw [hw, AList.lookup_insert, ← htrust _ (trustFor_of_own hpin)]
    · intro name hid
      exact absurd hid.symm (identity_ne_scopeOf _ _)
    · intro package' _ issuer identity hpin
      exact (htrust _ (trustFor_of_own hpin)).symm

/-- While a walk goes on, the pins of every identity that is counted are carried over. -/
structure Pinning (W : World) (cfg : Config) (sol : Map String Version) (w : Walker) : Prop where
  solution : w.solution = sol
  served : CandidatesServed W w
  carried : ∀ name ∈ w.registryIds,
    (∃ package : PackageName, package.identity = name) ∧ Carried cfg.lock w name

theorem framed_pinning {sol : Map String Version} : Framed (Pinning W cfg sol) := by
  intro w w' hsol hcand hids htrust hw
  refine ⟨hsol.trans hw.solution, fun name rs hl => ?_, fun name hn => ?_⟩
  · rw [hcand] at hl
    exact hw.served name rs hl
  · rw [hids] at hn
    obtain ⟨hname, hcarried⟩ := hw.carried name hn
    refine ⟨hname, fun key hkey => ?_, fun issuer identity hpin => ?_⟩
    · rw [htrust]
      exact hcarried.scopeKey key hkey
    · rw [htrust]
      exact hcarried.keyless issuer identity hpin

/-- Materialising a version carries its own pins over and disturbs no other. -/
theorem carried_materializeVersion {v : Version} {mat : Materialized} (hverify : PolicyEnforced W)
    (hagree : ∀ own scope, cfg.lock.scopeTrust.lookup package.identity = some own →
      cfg.lock.scopeTrust.lookup (scopeOf package.identity) = some scope → own.Agrees scope)
    (hparsed : package.company = scopeOf package.identity) (hc : CandidatesServed W w)
    (h : (materializeVersion W cfg key package v).Returns w mat w') :
    Carried cfg.lock w' package.identity ∧ ∀ other : PackageName,
      Carried cfg.lock w other.identity → Carried cfg.lock w' other.identity := by
  have hindexed : (materializeIndexed W cfg key package v).Returns w mat w' →
      Carried cfg.lock w' package.identity ∧ ∀ other : PackageName,
        Carried cfg.lock w other.identity → Carried cfg.lock w' other.identity := by
    intro h
    simp only [materializeIndexed, returns_bind, returns_ask] at h
    obtain ⟨_, _, ⟨_, rfl⟩, release, t, hr, u, t', hp, hf⟩ := h
    obtain ⟨rfl, _⟩ := selectedRelease_returns hc hr
    obtain ⟨rfl, _⟩ := fetchGit_returns hf
    obtain ⟨hself, hsame | ⟨k, trust, hrestores, hinsert⟩⟩ :=
      (repins_of_checkProvenance hverify hp).carried hagree
    · refine ⟨hself, fun other hother => ⟨fun key hkey => ?_, fun issuer identity hpin => ?_⟩⟩
      · rw [hsame]
        exact hother.scopeKey key hkey
      · rw [hsame]
        exact hother.keyless issuer identity hpin
    · exact ⟨hself, fun other hother => hother.insert hrestores hinsert⟩
  unfold materializeVersion at h
  split at h
  · split at h
    · simp only [returns_bind] at h
      obtain ⟨_, t, hcarry, hf⟩ := h
      obtain ⟨rfl, _⟩ := fetchGit_returns hf
      refine ⟨carried_carryTrust hparsed hcarry, fun other hother => ?_⟩
      simp only [carryTrust, returns_bind] at hcarry
      obtain ⟨_, t', h1, h2⟩ := hcarry
      exact (hother.carryPin h1).carryPin h2
    · exact hindexed h
  · exact hindexed h

theorem keeps_pinning (hverify : PolicyEnforced W) {sol : Map String Version}
    (hagree : ∀ own scope, cfg.lock.scopeTrust.lookup package.identity = some own →
      cfg.lock.scopeTrust.lookup (scopeOf package.identity) = some scope → own.Agrees scope)
    (hparsed : package.company = scopeOf package.identity) :
    Keeps (Pinning W cfg sol) (materializeSelected W cfg key package) := by
  intro w mat w' hw h
  simp only [materializeSelected, countRegistry, returns_bind, returns_modify] at h
  obtain ⟨_, t, rfl, h⟩ := h
  split at h
  · exact absurd h returns_throw
  rw [returns_get_bind] at h
  split at h
  · exact absurd h returns_throw
  obtain ⟨hu, _⟩ := materializeVersion_spec (by exact hw.served) h
  obtain ⟨hself, hothers⟩ :=
    carried_materializeVersion hverify hagree hparsed (by exact hw.served) h
  refine ⟨hu.solution.trans hw.solution, fun name rs hl => ?_, fun name hn => ?_⟩
  · rw [hu.candidates] at hl
    exact hw.served name rs hl
  · rw [hu.registryIds] at hn
    obtain rfl | hn := List.mem_cons.mp hn
    · exact ⟨⟨package, rfl⟩, hself⟩
    · obtain ⟨⟨other, rfl⟩, hother⟩ := hw.carried name hn
      exact ⟨⟨other, rfl⟩, hothers other ⟨hother.scopeKey, hother.keyless⟩⟩

end Carry

/-! ## What enforcing transparency leaves -/

section Enforced

variable {H : Type} [DecidableEq H] {nodeHash : H → H → H} {index : LogIndex H} {w w' : Walker}

theorem checkExtension_returns {fuel : Nat} {p : LogTrust} {cp : Checkpoint} {u : Unit} {key : String}
    (hkey : key = p.publicKey) (h : (checkExtension nodeHash index fuel p cp).Returns w u w') :
    w' = w ∧ p.Extends nodeHash index.hexToArray ⟨key, cp.treeSize, cp.rootHash⟩ := by
  unfold checkExtension at h
  split at h
  · exact absurd h returns_throw
  rename_i hsize
  simp only [returns_bind, returns_ask] at h
  obtain ⟨cons, _, ⟨_, rfl⟩, h⟩ := h
  split at h
  · exact absurd h returns_throw
  rename_i rootFrom hfrom
  split at h
  · exact absurd h returns_throw
  rename_i rootTo hto
  split at h
  · exact absurd h returns_throw
  rename_i proof _
  split at h
  · exact absurd h returns_cut
  · rename_i haccepts
    refine ⟨(returns_pure.mp h).2.symm, hkey, UInt64.not_lt.mp hsize, rootFrom, rootTo, proof, hfrom,
      hto, fuel, haccepts⟩
  · exact absurd h returns_throw

theorem enforceTransparency_returns {fuel : Nat} {pinned : Option LogTrust} {head : LogTrust}
    (h : (enforceTransparency nodeHash index fuel pinned).Returns w head w') :
    w' = w ∧ ∀ old, pinned = some old → old.Extends nodeHash index.hexToArray head := by
  have hlogged : ∀ {ids cp pkgs cs} {v v' : Walker},
      (each (checkLogged index ids cp) pkgs).Returns v cs v' → v' = v := by
    intro ids cp pkgs cs v v' h
    have hstep : ∀ pkg ∈ pkgs, ∀ s c t, True → (checkLogged index ids cp pkg).Returns s c t →
        True ∧ t = s ∧ True := by
      intro pkg _ s c t _ hc
      unfold checkLogged at hc
      split at hc
      · split at hc
        · exact ⟨trivial, (returns_ask.mp hc).2.symm, trivial⟩
        · exact ⟨trivial, (returns_pure.mp hc).2.symm, trivial⟩
      · exact ⟨trivial, (returns_pure.mp hc).2.symm, trivial⟩
    exact (returns_each (I := fun _ => True) (R := fun s t => t = s) (P := fun _ _ _ => True)
      (fun _ => rfl) (fun _ _ _ h h' => h'.trans h) (fun _ _ _ _ _ _ => trivial) hstep trivial h).2.1
  have hkey : ∀ {key : String} {v v' : Walker}, (logKey index pinned).Returns v key v' →
      v' = v ∧ ∀ old, pinned = some old → key = old.publicKey := by
    intro key v v' h
    cases pinned with
    | none =>
      simp only [logKey, returns_bind, returns_ask] at h
      obtain ⟨served, _, ⟨_, rfl⟩, h⟩ := h
      split at h
      · exact ⟨(returns_pure.mp h).2.symm, fun old hold => by cases hold⟩
      · exact absurd h returns_throw
    | some old =>
      obtain ⟨rfl, rfl⟩ := returns_pure.mp h
      exact ⟨rfl, fun old' hold => by rw [Option.some.inj hold]⟩
  simp only [enforceTransparency, returns_bind, returns_ask] at h
  obtain ⟨key, t, hk, cp, _, ⟨_, rfl⟩, signed, _, ⟨_, rfl⟩, h⟩ := h
  obtain ⟨rfl, hold⟩ := hkey hk
  split at h
  · exact absurd h returns_throw
  simp only [returns_bind, returns_pure] at h
  obtain ⟨_, t', hpinned, _, _, hget, _, _, heach, rfl, rfl⟩ := h
  obtain ⟨rfl, rfl⟩ := returns_get.mp hget
  cases pinned with
  | none =>
    rw [hlogged heach]
    exact ⟨(returns_pure.mp hpinned).2.symm, fun old hold => by cases hold⟩
  | some old =>
    obtain ⟨hsame, hextends⟩ := checkExtension_returns (hold old rfl) hpinned
    refine ⟨(hlogged heach).trans hsame, fun old' hold' => ?_⟩
    rw [← Option.some.inj hold']
    exact hextends

namespace Update

variable {s : Update H} {head : Option LogTrust}

theorem Writes.spec (h : s.Writes nodeHash w head) : s.EndsIn w ∧
    (s.requireTransparency = true → w.registryIds ≠ [] → ∃ new, head = some new ∧
      ∀ old, s.cfg.lock.logTrust = some old → old.Extends nodeHash s.index.hexToArray new) ∧
    (s.requireTransparency = false → head = none) := by
  simp only [Writes, resolve, returns_bind] at h
  obtain ⟨edges, t, hgraph, _, _, hget, h⟩ := h
  obtain ⟨rfl, rfl⟩ := returns_get.mp hget
  split at h
  · rename_i henforced
    simp only [returns_bind, returns_pure] at h
    obtain ⟨new, _, hnew, rfl, rfl⟩ := h
    obtain ⟨rfl, hextends⟩ := enforceTransparency_returns hnew
    simp only [Bool.and_eq_true] at henforced
    refine ⟨⟨edges, hgraph⟩, fun _ _ => ⟨new, rfl, hextends⟩, fun hfalse => ?_⟩
    rw [hfalse] at henforced
    exact absurd henforced.1 Bool.false_ne_true
  · rename_i henforced
    obtain ⟨rfl, rfl⟩ := returns_pure.mp h
    refine ⟨⟨edges, hgraph⟩, fun htrue hids => ?_, fun _ => rfl⟩
    exact absurd (by simp [htrue, hids]) henforced

end Update

end Enforced

/-! ## Every pin survives -/

section Survives

variable {H : Type} [DecidableEq H] {nodeHash : H → H → H} {s : Update H} {w : Walker}
  {head : Option LogTrust}

theorem Resolve.EndsIn.pinning {s : Resolve} (h : s.EndsIn w) (hverify : PolicyEnforced s.world)
    (hnames : NamesParsed s) (hagree : ∀ (package : PackageName) own scope,
      s.cfg.lock.scopeTrust.lookup package.identity = some own →
      s.cfg.lock.scopeTrust.lookup (scopeOf package.identity) = some scope → own.Agrees scope) :
    Pinning s.world s.cfg w.solution w := by
  obtain ⟨edges, hret⟩ := h
  obtain ⟨t, hsolve, hwalk⟩ := resolveGraph_spec hret
  obtain ⟨_, g, rootDeps, _, _, hdone, hsolved⟩ := solve_spec hsolve
  have hstart : Pinning s.world s.cfg t.solution t := by
    refine ⟨rfl, (hsolved.ready hdone).2.2.candidates, fun name hn => ?_⟩
    rw [(uncounted_solve hsolve).registryIds] at hn
    simp at hn
  have hend := keeps_walk framed_pinning
    (fun _ package hparsed _ => keeps_pinning hverify (hagree package) hparsed)
    hnames.2 hnames.1 _ _ _ hstart hwalk
  rw [hend.solution]
  exact hend

theorem keepsPins_of_steady (h : s.Writes nodeHash w head) (hverify : PolicyEnforced s.world)
    (hnames : NamesParsed s.toResolve) (hsteady : Steady s.cfg.lock s.requireTransparency) :
    s.KeepsPins nodeHash w head := by
  obtain ⟨hends, hlog, _⟩ := h.spec
  have hpinning := hends.pinning hverify hnames hsteady.agree
  have hcounted : ∀ package v, s.Contains w package v → package.identity ∈ w.registryIds := by
    intro package v ⟨⟨ds, base, req, hds, hmem⟩, hplain, _⟩
    obtain ⟨edges, hret⟩ := hends
    exact (resolveGraph_visits hret hds _ hmem package req rfl hplain).1
  refine ⟨fun package v hc key hkey => ?_, fun package v hc issuer identity hpin => ?_,
    fun package v hc old hold => ?_, fun package release servedKey haccepts pin hpin => ?_⟩
  · exact (hpinning.carried _ (hcounted package v hc)).2.scopeKey key hkey
  · exact (hpinning.carried _ (hcounted package v hc)).2.keyless issuer identity hpin
  · have hids : w.registryIds ≠ [] := by
      intro hnil
      have hmem := hcounted package v hc
      rw [hnil] at hmem
      simp at hmem
    obtain ⟨new, hnew, hextends⟩ := hlog (hsteady.log (by rw [hold]; rfl)) hids
    exact ⟨new, hnew, hextends old hold⟩
  · obtain ⟨key, w1, w2, hret⟩ := haccepts
    unfold checkProvenance at hret
    split at hret
    · exact absurd hret returns_throw
    split at hret
    · exact absurd hret returns_throw
    rename_i action hdecision
    obtain hown | hscope := hpin
    · rw [trustFor_of_own hown] at hdecision
      exact fits_of_decision hdecision
    · cases hown : s.cfg.lock.scopeTrust.lookup package.identity with
      | none =>
        rw [trustFor, hown, hscope] at hdecision
        exact fits_of_decision hdecision
      | some own =>
        rw [trustFor_of_own hown] at hdecision
        have hfits := fits_of_decision hdecision
        have hagree := hsteady.agree package own pin hown hscope
        cases own with
        | key publicKey =>
          cases pin with
          | key publicKey' =>
            obtain rfl : publicKey = publicKey' := hagree
            exact hfits
          | keyless issuer identity => exact hagree.elim
        | keyless issuer identity =>
          cases pin with
          | key publicKey' => exact hagree.elim
          | keyless issuer' identity' => exact hfits

end Survives

/-! ## And no other condition is enough -/

section Exact

variable {H : Type} [DecidableEq H] {nodeHash : H → H → H} {L : Lock}

/-- A name of `n` letters, and one package under it. -/
def longName (n : Nat) : PackageName := ⟨String.ofList (List.replicate n 'x'), "p"⟩

theorem scopeOf_longName (n : Nat) : scopeOf (longName n).identity = (longName n).company := by
  have hslash : ∀ c ∈ List.replicate n 'x', c ≠ '/' := by
    intro c hc
    rw [List.eq_of_mem_replicate hc]
    decide
  rw [scopeOf, PackageName.identity]
  simp only [String.toList_append, longName, String.toList_ofList]
  rw [List.append_assoc, List.takeWhile_append_of_pos (by simp)]
  simp

theorem length_longName (n : Nat) : (longName n).company.length = n ∧
    (longName n).identity.length = n + 2 := by
  simp only [longName, PackageName.identity, String.length_append, String.length_ofList,
    List.length_replicate, true_and]
  rfl

theorem exists_unheld (L : Lock) : ∃ n, isBuiltin (longName n).company = false ∧
    L.lockedVersion (longName n).identity = none ∧
    L.scopeTrust.lookup (longName n).identity = none ∧
    L.scopeTrust.lookup (longName n).company = none := by
  let keys := L.versions.keys ++ L.scopeTrust.keys
  let n := 6 + (keys.map String.length).sum
  have hshort : ∀ k ∈ keys, k.length < n := by
    intro k hk
    have hle : k.length ≤ (keys.map String.length).sum :=
      List.le_sum_of_mem (List.mem_map.mpr ⟨k, hk, rfl⟩)
    omega
  have hlong : ∀ k : String, n ≤ k.length → k ∉ keys := by
    intro k hk hmem
    have hlt := hshort k hmem
    omega
  obtain ⟨hcompany, hidentity⟩ := length_longName n
  have hid := hlong (longName n).identity (by omega)
  have hco := hlong (longName n).company (by omega)
  simp only [keys, List.mem_append, not_or] at hid hco
  refine ⟨n, ?_, ?_, ?_, ?_⟩
  · have hbuiltin : ∀ k ∈ ["std", "noeta", "core"], k.length < 6 := by decide
    simp only [isBuiltin, decide_eq_false_iff_not]
    intro hmem
    have hlt := hbuiltin _ hmem
    omega
  · exact AList.lookup_eq_none.mpr fun h => hid.1 (AList.mem_keys.mpr h)
  · exact AList.lookup_eq_none.mpr fun h => hid.2 (AList.mem_keys.mpr h)
  · exact AList.lookup_eq_none.mpr fun h => hco.2 (AList.mem_keys.mpr h)

/-- A log that is not asked. -/
def idleLog (H : Type) : LogIndex H where
  logPublicKey := .ok none
  logCheckpoint := .ok ⟨0, "", ""⟩
  verifyCheckpoint _ _ _ _ := .ok false
  logConsistency _ _ := .ok []
  verifyInclusionAt _ _ := .ok ()
  hexToArray _ := none

/-- A resolve of a package the lock does not know, without transparency. -/
def liveUpdate (H : Type) (L : Lock) (package : PackageName) : Update H where
  world := soleWorld package libVersion (steadyTree L package.identity) [soleRelease libVersion]
  cfg := { unlocked with lock := L }
  fuel := 2
  deps := soleDeps package libVersion
  dir := "root"
  index := idleLog H
  requireTransparency := false
  pins := rfl

theorem liveUpdate_drops_log {old : LogTrust} (hold : L.logTrust = some old) :
    ∃ (s : Update H) (w : Walker) (head : Option LogTrust), s.cfg.lock = L ∧
      s.requireTransparency = false ∧ PolicyEnforced s.world ∧ NamesParsed s.toResolve ∧
      s.Writes nodeHash w head ∧ ¬ s.KeepsPins nodeHash w head := by
  obtain ⟨n, hcompany, hlocked, hown, hscope⟩ := exists_unheld L
  let package := longName n
  let s := liveUpdate H L package
  have hparsed := scopeOf_longName n
  have hsole := @sole_soleWorld s.cfg package libVersion [soleRelease libVersion] rfl hcompany
  have hsolve := @solves_soleWorld s.cfg package libVersion rfl hcompany
    (by rw [hparsed]; exact hcompany) rfl hlocked (by decide) "root"
  let w0 : Walker := { Walker.init with
    registryQueue := [package.identity]
    solution := (∅ : Map String Version).insert package.identity libVersion
    candidates := (∅ : Map String (List Release)).insert package.identity [soleRelease libVersion] }
  have hserved : CandidatesServed s.world w0 := by
    intro name rs hl
    by_cases hname : name = package.identity
    · rw [hname, show w0.candidates = _ from rfl, AList.lookup_insert] at hl
      exact ⟨[soleRelease libVersion], rfl, fun r hr => by rwa [Option.some.inj hl]⟩
    · rw [show w0.candidates = _ from rfl, AList.lookup_insert_ne hname] at hl
      simp at hl
  let f := steadyTree L package.identity
  have htrust : trustFor L package.identity = none := by
    rw [trustFor, hown, hparsed, hscope]
    rfl
  let w1 : Walker := { w0 with registryIds := package.identity :: w0.registryIds }
  have hmat : (materializeVersion s.world s.cfg "dep" package libVersion).Returns w1
      ⟨f.path, .git "git" (.tag "tag") f.sha, some f.contentHash⟩ w1 := by
    have hindexed : (materializeIndexed s.world s.cfg "dep" package libVersion).Returns w1
        ⟨f.path, .git "git" (.tag "tag") f.sha, some f.contentHash⟩ w1 := by
      simp only [materializeIndexed, returns_bind]
      refine ⟨none, w1, returns_ask.mpr ⟨rfl, rfl⟩, soleRelease libVersion, w1, ?_, (), w1, ?_,
        hsole.fetches⟩
      · unfold selectedRelease
        rw [returns_get_bind, show w1.candidates.lookup package.identity =
          some [soleRelease libVersion] from AList.lookup_insert _]
        exact returns_pure.mpr ⟨rfl, rfl⟩
      · unfold checkProvenance
        rw [show s.cfg.lock = L from rfl, htrust]
        exact returns_pure.mpr ⟨rfl, rfl⟩
    unfold materializeVersion
    split
    · rw [if_neg]
      · exact hindexed
      · rw [show s.cfg.lock.lockedVersion package.identity = none from hlocked]
        simp
    · exact hindexed
  obtain ⟨edges, w, hwalk, _, hids, inst, hinst, hversion, _⟩ :=
    @Sole.walks s.world s.cfg package libVersion _ w0 _ "root" hsole hserved (AList.lookup_insert _)
      rfl (AList.lookup_empty _) _ hmat 1
  have hgraph : (resolveGraph s.world s.cfg s.fuel s.deps s.dir).Returns .init edges w := by
    simp only [resolveGraph, returns_bind]
    exact ⟨(), w0, hsolve, hwalk⟩
  refine ⟨s, w, none, rfl, rfl, ?_, ?_, ?_, fun hkeeps => ?_⟩
  · intro name release bundle pin proved h
    exact (Except.ok.inj h).symm
  · refine ⟨fun p req hmem => ?_, fun dir m hm p req hmem => ?_⟩
    · have hp : p = package := by
        have hleaf : Dependency.registry (some p) req =
            .registry (some package) (exactReq libVersion) := List.mem_singleton.mp hmem
        exact Option.some.inj (Dependency.registry.inj hleaf).1
      rw [hp]
      exact hparsed.symm
    · rw [← Except.ok.inj hm] at hmem
      simp [soleManifest, Dependencies.leaves] at hmem
  · simp only [Update.Writes, Update.resolve, returns_bind]
    exact ⟨edges, w, hgraph, w, w, returns_get.mpr ⟨rfl, rfl⟩, returns_pure.mpr ⟨rfl, rfl⟩⟩
  · have hcontains : s.Contains w package libVersion :=
      ⟨⟨soleDeps package libVersion, "root", exactReq libVersion, .root, by
        simp [soleDeps, Dependencies.leaves, Entry.leaves]⟩, AList.lookup_empty _, inst, hinst,
        hversion⟩
    obtain ⟨new, hnew, _⟩ := hkeeps.log package libVersion hcontains old hold
    cases hnew

/-- A resolve that requires nothing. -/
def idleUpdate (H : Type) (L : Lock) (requireTransparency : Bool) : Update H where
  world := soleWorld libName libVersion ⟨"tree", "sha", ""⟩ []
  cfg := { unlocked with
    lock := L
    lockPins := if requireTransparency then .ignore else .honor }
  fuel := 1
  deps := []
  dir := "root"
  index := idleLog H
  requireTransparency := requireTransparency
  pins := rfl

theorem idleUpdate_writes (requireTransparency : Bool) :
    ∃ w, (idleUpdate H L requireTransparency).Writes nodeHash w none := by
  let s := idleUpdate H L requireTransparency
  have hadopts : adoptsLock s.cfg ∅ [] = false := by
    have hfrontier : frontier ∅ [] = [] := rfl
    simp [adoptsLock, hfrontier]
  let w : Walker :=
    { Walker.init with solution := (∅ : Map String Version).insert libName.identity libVersion }
  have hsolve : (solve s.world s.cfg s.fuel s.deps s.dir).Returns .init () w := by
    simp only [solve, returns_bind]
    refine ⟨(), .init, rfl, [], .init, rfl, _, _, returns_get.mpr ⟨rfl, rfl⟩, ?_⟩
    rw [if_neg (by rw [show adoptsLock s.cfg Walker.init.pathGit [] = false from hadopts]; decide)]
    rfl
  refine ⟨w, ?_⟩
  simp only [Update.Writes, Update.resolve, returns_bind]
  refine ⟨[], w, ?_, w, w, returns_get.mpr ⟨rfl, rfl⟩, ?_⟩
  · simp only [resolveGraph, returns_bind]
    exact ⟨(), w, hsolve, rfl⟩
  · rw [if_neg (by simp [w, Walker.init])]
    exact returns_pure.mpr ⟨rfl, rfl⟩

omit [DecidableEq H] in
/-- A release that is checked against one of two pins that disagree need not fit the other. -/
theorem accepts_unfit {requireTransparency : Bool} {package : PackageName} {own scope : ScopeTrust}
    (hown : L.scopeTrust.lookup package.identity = some own) (hnot : ¬ own.Agrees scope) :
    ∃ release servedKey, (idleUpdate H L requireTransparency).Accepts package release servedKey ∧
      ¬ scope.Fits release servedKey := by
  let s := idleUpdate H L requireTransparency
  have haccepts : ∀ release servedKey action w', provenanceDecision (some own) release.signature
      release.bundle servedKey = .ok action →
      (verifyAction s.world package.identity release action).Returns .init () w' →
        s.Accepts package release servedKey := by
    intro release servedKey action w' hdecision hverify
    refine ⟨"dep", .init, w', ?_⟩
    unfold checkProvenance
    rw [show s.cfg.lock = L from rfl, trustFor_of_own hown, hdecision]
    exact hverify
  cases own with
  | key publicKey =>
    refine ⟨soleRelease libVersion, some publicKey, haccepts _ _ (.key publicKey none) _ ?_
      (returns_modify.mpr rfl), fun hfits => ?_⟩
    · simp [provenanceDecision, soleRelease]
    · cases scope with
      | key publicKey' => exact hnot (hfits.2 publicKey rfl)
      | keyless issuer identity => exact absurd hfits.2 (by simp [soleRelease])
  | keyless issuer identity =>
    let w' : Walker :=
      { Walker.init with
        scopeTrust := Walker.init.scopeTrust.insert package.identity (.keyless issuer identity) }
    refine ⟨{ soleRelease libVersion with bundle := some "bundle" }, none,
      haccepts _ _ (.keyless "bundle" (some (issuer, identity))) w' rfl ?_, fun hfits => ?_⟩
    · simp only [verifyAction, returns_bind]
      exact ⟨(issuer, identity), .init, returns_ask.mpr ⟨rfl, rfl⟩, returns_modify.mpr rfl⟩
    · cases scope with
      | key publicKey' => exact absurd hfits.1 (by simp)
      | keyless issuer' identity' => exact hnot trivial

end Exact

/-! ## Histories -/

section Histories

variable {H : Type} [DecidableEq H] (nodeHash : H → H → H) (displayVersion : Version → String)
  (parseVersion : String → Option Version)

/-- The successful resolves of one project, each with the state it ends in and the log head it writes;
the lock may be deleted in between. -/
inductive Updates : Lock → List (Update H × Walker × Option LogTrust) → Prop
  | nil (L : Lock) : Updates L []
  | resolve {L L' : Lock} {s : Update H} {w : Walker} {head : Option LogTrust}
      {steps : List (Update H × Walker × Option LogTrust)} (hlock : s.cfg.lock = L)
      (hverify : PolicyEnforced s.world) (hnames : NamesParsed s.toResolve)
      (hwrites : s.Writes nodeHash w head)
      (hnext : L' = Lockfile.read parseVersion
          (render displayVersion (lockedPackages w) w.scopeTrust head L.advisoryTrust) ∨
        L' = L ∨ L' = .empty) (hrest : Updates L' steps) :
      Updates L ((s, w, head) :: steps)

/-- In every history whose locks are steady every pin survives every resolve; and from any other lock
some resolve drops a pin or takes a release that disagrees with one. -/
theorem pins_survive_updates :
    (∀ L steps, Updates nodeHash displayVersion parseVersion L steps →
      (∀ st ∈ steps, Steady st.1.cfg.lock st.1.requireTransparency) →
        ∀ st ∈ steps, st.1.KeepsPins nodeHash st.2.1 st.2.2) ∧
      ∀ L requireTransparency, ¬ Steady L requireTransparency →
        ∃ (s : Update H) (w : Walker) (head : Option LogTrust), s.cfg.lock = L ∧
          s.requireTransparency = requireTransparency ∧ PolicyEnforced s.world ∧
          NamesParsed s.toResolve ∧ s.Writes nodeHash w head ∧ ¬ s.KeepsPins nodeHash w head := by
  constructor
  · intro L steps hrun hsteady
    induction hrun with
    | nil L => simp
    | @resolve L L' s w head steps hlock hverify hnames hwrites hnext hrest ih =>
      intro st hst
      obtain rfl | hst := List.mem_cons.mp hst
      · exact keepsPins_of_steady hwrites hverify hnames (hsteady (s, w, head) (by simp))
      · exact ih (fun st hst => hsteady st (List.mem_cons_of_mem _ hst)) st hst
  · intro L requireTransparency hnot
    by_cases hlog : L.logTrust.isSome = true → requireTransparency = true
    · have hdisagree : ∃ (package : PackageName) (own scope : ScopeTrust),
          L.scopeTrust.lookup package.identity = some own ∧
          L.scopeTrust.lookup (scopeOf package.identity) = some scope ∧ ¬ own.Agrees scope := by
        by_contra hall
        push Not at hall
        exact hnot ⟨hall, hlog⟩
      obtain ⟨package, own, scope, hown, hscope, hne⟩ := hdisagree
      obtain ⟨w, hwrites⟩ := @idleUpdate_writes H _ nodeHash L requireTransparency
      obtain ⟨release, servedKey, haccepts, hunfit⟩ :=
        @accepts_unfit H L requireTransparency package own scope hown hne
      refine ⟨_, w, none, rfl, rfl, ?_, ⟨?_, ?_⟩, hwrites, fun hkeeps => ?_⟩
      · intro name release bundle pin proved h
        exact (Except.ok.inj h).symm
      · intro p req hmem
        simp [idleUpdate, Dependencies.leaves] at hmem
      · intro dir m hm p req hmem
        rw [← Except.ok.inj hm] at hmem
        simp [soleManifest, Dependencies.leaves] at hmem
      · exact hunfit (hkeeps.shape package release servedKey haccepts scope (Or.inr hscope))
    · push Not at hlog
      obtain ⟨hold, hfalse⟩ := hlog
      obtain ⟨old, hold⟩ := Option.isSome_iff_exists.mp hold
      obtain rfl : requireTransparency = false := by simpa using hfalse
      exact liveUpdate_drops_log hold

end Histories

/-! ### Two packages of one scope -/

def htmlName : PackageName := ⟨"para", "html"⟩

def ariaName : PackageName := ⟨"para", "aria"⟩

def htmlVersion : Version := Version.new 1 1 0

/-- `para/aria` is signed with the key of the scope, `para/html` carries bundles. -/
def paraReleases (name : String) : List Release :=
  if name = "para/aria" then
    [{ soleRelease libVersion with
      coords := ⟨"aria", "v1.0.0", "sha"⟩
      signature := some "signature" }]
  else
    [{ soleRelease libVersion with
      coords := ⟨"html", "v1.0.0", "sha"⟩
      bundle := some "bundle" },
     { soleRelease htmlVersion with
      coords := ⟨"html-next", "v1.1.0", "sha"⟩
      bundle := some "bundle" }]

def paraManifest (dir : String) : Manifest :=
  if dir = "aria" then soleManifest ariaName libVersion
  else if dir = "html" then soleManifest htmlName libVersion
  else soleManifest htmlName htmlVersion

def paraWorld (selection : Map String Version) : World where
  join base _ := base
  canonicalize path := path
  readManifest dir := .ok (paraManifest dir)
  hashTree _ := .ok "h"
  validateNativeCrate _ _ := .ok ()
  fetch url _ _ := .ok ⟨url, "sha", "h"⟩
  scopeKey _ := .ok (some "key")
  releases name := .ok (paraReleases name)
  localRepo _ := none
  verifySignature _ _ _ _ := .ok ()
  verifyBundle _ _ _ pinned := .ok (pinned.getD ("https://issuer", "https://example.com/release"))
  pubgrub _ _ := .ok selection
  running := libVersion
  nowUnixMs := 0

/-- The root requires these versions, and they are selected. -/
def paraUpdate (L : Lock) (required : List (PackageName × Version)) : Update Nat where
  world := paraWorld (required.foldl (fun sel r => sel.insert r.1.identity r.2) ∅)
  cfg := { unlocked with lock := L }
  fuel := 8
  deps := required.map fun r => (r.1.package, .one (.registry (some r.1) (exactReq r.2)))
  dir := "app"
  index := idleLog Nat
  requireTransparency := false
  pins := rfl

def displayPara (v : Version) : String := if v = libVersion then "1.0.0" else "1.1.0"

def parsePara (s : String) : Option Version :=
  if s = "1.0.0" then some libVersion else if s = "1.1.0" then some htmlVersion else none

namespace Update

/-- The head that is written and the state a resolve ends with. -/
def ran (s : Update Nat) : Option (Option LogTrust × Walker) :=
  match ((s.resolve (· + ·)).run .init).run with
  | some (.ok r) => some r
  | _ => none

theorem writes_of_ran {s : Update Nat} {w : Walker} {head : Option LogTrust}
    (h : s.ran = some (head, w)) : s.Writes (· + ·) w head := by
  unfold ran at h
  split at h
  · rename_i r hr
    rw [Option.some.inj h] at hr
    exact hr
  · cases h

/-- The packages that are written, which are in order as they are. -/
def unpatched (w : Walker) : List LockedPackage := (lockedPackages w).filter (!·.patched)

/-- The lock that `s` writes. -/
def lockAfter (s : Update Nat) : Lock :=
  match s.ran with
  | some (head, w) => Lockfile.read parsePara
      (banner ++ lineNat "version" lockVersion ++
        (unpatched w).flatMap (renderPackage displayPara) ++
        w.scopeTrust.entries.flatMap (fun e => renderScope e.1 e.2) ++
        head.toList.flatMap renderLog ++ s.cfg.lock.advisoryTrust.toList.flatMap renderAdvisory)
  | none => s.cfg.lock

def inOrder (s : Update Nat) : Bool :=
  s.ran.any fun r => decide ((unpatched r.2).Pairwise fun a b => a.identity ≤ b.identity)

end Update

theorem policyEnforced_para (sel : Map String Version) : PolicyEnforced (paraWorld sel) := by
  intro name release bundle pin proved h
  exact (Except.ok.inj h).symm

variable {L : Lock} {required : List (PackageName × Version)}

theorem namesParsed_para (h : ∀ r ∈ required, r.1.company = scopeOf r.1.identity) :
    NamesParsed (paraUpdate L required).toResolve := by
  refine ⟨fun p req hmem => ?_, fun dir m hm p req hmem => ?_⟩
  · simp only [paraUpdate, Dependencies.leaves, List.mem_flatMap, List.mem_map] at hmem
    obtain ⟨e, ⟨r, hr, rfl⟩, hleaf⟩ := hmem
    obtain ⟨hp, _⟩ := Dependency.registry.inj (List.mem_singleton.mp hleaf)
    rw [Option.some.inj hp]
    exact h r hr
  · have hnone : ∀ dir, (paraManifest dir).dependencies.leaves = [] := by
      intro dir
      unfold paraManifest
      split
      · rfl
      · split <;> rfl
    rw [← Except.ok.inj hm, hnone] at hmem
    simp at hmem

theorem updates_para {w : Walker}
    {head : Option LogTrust} {steps : List (Update Nat × Walker × Option LogTrust)}
    (hnames : ∀ r ∈ required, r.1.company = scopeOf r.1.identity)
    (hran : (paraUpdate L required).ran = some (head, w))
    (horder : (paraUpdate L required).inOrder = true)
    (hrest : Updates (· + ·) displayPara parsePara (paraUpdate L required).lockAfter steps) :
    Updates (· + ·) displayPara parsePara L ((paraUpdate L required, w, head) :: steps) := by
  refine .resolve rfl (policyEnforced_para _) (namesParsed_para hnames)
    (Update.writes_of_ran hran) (Or.inl ?_) hrest
  rw [Update.inOrder, hran, Option.any_some, decide_eq_true_eq] at horder
  have hsorted : sorted (lockedPackages w) = Update.unpatched w :=
    List.mergeSort_of_pairwise (by simpa [Update.unpatched] using horder)
  rw [Update.lockAfter, hran, render, hsorted]
  rfl

/-- `para/html` moves to another version alone, and the key that `para/aria` pinned for the scope is not
in the lock any more. -/
theorem live_solve_drops_scope_key :
    ¬ ∀ (nodeHash : Nat → Nat → Nat) (displayVersion : Version → String)
      (parseVersion : String → Option Version) (steps : List (Update Nat × Walker × Option LogTrust)),
      Updates nodeHash displayVersion parseVersion .empty steps →
        ∀ st ∈ steps, st.1.KeepsPins nodeHash st.2.1 st.2.2 := by
  intro h
  let first := paraUpdate .empty [(htmlName, libVersion), (ariaName, libVersion)]
  let second := paraUpdate first.lockAfter [(htmlName, htmlVersion)]
  obtain ⟨⟨head1, w1⟩, h1⟩ := Option.isSome_iff_exists.mp
    (show first.ran.isSome = true by decide +kernel)
  obtain ⟨⟨head2, w2⟩, h2⟩ := Option.isSome_iff_exists.mp
    (show second.ran.isSome = true by decide +kernel)
  have hrun : Updates (· + ·) displayPara parsePara .empty
      [(first, w1, head1), (second, w2, head2)] :=
    updates_para (by decide) h1 (by decide +kernel) (updates_para (by decide) h2 (by decide +kernel)
      (.nil _))
  have hkeeps := h _ _ _ _ hrun (second, w2, head2) (by simp)
  have hinst : ((second.ran.map (·.2)).bind fun w => w.instances.lookup "para/html").map (·.version) =
      some htmlVersion := by decide +kernel
  have hheld : first.lockAfter.scopeTrust.lookup "para" = some (.key "key") := by decide +kernel
  have hlost : ((second.ran.map (·.2)).map fun w => w.scopeTrust.lookup "para") = some none := by
    decide +kernel
  rw [h2] at hinst hlost
  obtain ⟨inst, hinst, hversion⟩ := Option.map_eq_some_iff.mp hinst
  have hkey := hkeeps.scopeKey htmlName htmlVersion
    ⟨⟨second.deps, "app", exactReq htmlVersion, .root, by
      simp [second, paraUpdate, Dependencies.leaves, Entry.leaves]⟩, AList.lookup_empty _, inst, hinst,
      hversion⟩ "key" hheld
  rw [show w2.scopeTrust.lookup (scopeOf htmlName.identity) = none from Option.some.inj hlost] at hkey
  cases hkey

/-- `para/aria` is resolved, and then once more; its key is in the lock by then. -/
def ariaFirst : Update Nat := paraUpdate .empty [(ariaName, libVersion)]

def ariaAgain : Update Nat := paraUpdate ariaFirst.lockAfter [(ariaName, libVersion)]

theorem steady_para (h : Steady L false) :
    Steady (paraUpdate L required).cfg.lock (paraUpdate L required).requireTransparency := h

theorem steady_aria : Steady ariaFirst.lockAfter false := by
  have hentries : ∀ e ∈ ariaFirst.lockAfter.scopeTrust.entries, e.1 = scopeOf "para" := by
    decide +kernel
  have hlog : ariaFirst.lockAfter.logTrust.isSome = false := by decide +kernel
  refine ⟨fun package own scope hown => ?_, fun hsome => ?_⟩
  · exact absurd (hentries ⟨_, own⟩ (AList.mem_lookup_iff.mp hown)) (identity_ne_scopeOf _ _)
  · rw [hlog] at hsome
    cases hsome

theorem pins_survive_updates_aria : ∃ w head, ariaAgain.Writes (· + ·) w head ∧
    ariaAgain.cfg.lock.scopeTrust.lookup "para" = some (.key "key") ∧
    ariaAgain.KeepsPins (· + ·) w head := by
  obtain ⟨⟨head1, w1⟩, h1⟩ := Option.isSome_iff_exists.mp
    (show ariaFirst.ran.isSome = true by decide +kernel)
  obtain ⟨⟨head2, w2⟩, h2⟩ := Option.isSome_iff_exists.mp
    (show ariaAgain.ran.isSome = true by decide +kernel)
  have hrun : Updates (· + ·) displayPara parsePara .empty
      [(ariaFirst, w1, head1), (ariaAgain, w2, head2)] :=
    updates_para (by decide) h1 (by decide +kernel) (updates_para (by decide) h2 (by decide +kernel)
      (.nil _))
  have hempty : Steady .empty false := by
    refine ⟨fun package own scope hown => ?_, fun hsome => ?_⟩
    · simp [Lock.empty] at hown
    · simp [Lock.empty] at hsome
  have hsteady : ∀ st ∈ [(ariaFirst, w1, head1), (ariaAgain, w2, head2)],
      Steady st.1.cfg.lock st.1.requireTransparency := by
    intro st hst
    simp only [List.mem_cons, List.not_mem_nil, or_false] at hst
    obtain hst | hst := hst
    · rw [hst]
      exact steady_para hempty
    · rw [hst]
      exact steady_para steady_aria
  refine ⟨w2, head2, Update.writes_of_ran h2, by decide +kernel, ?_⟩
  exact (pins_survive_updates (· + ·) displayPara parsePara).1 _ _ hrun hsteady
    (ariaAgain, w2, head2) (by simp)

/-! ## The log over many checks -/

section Heads

open Transparency

variable {H : Type} [DecidableEq H] (nodeHash : H → H → H) (decode : String → Option H)

/-- The heads that one check after another returns, each pinned at the one before. -/
inductive Heads : Option LogTrust → List LogTrust → Prop
  | nil (pinned : Option LogTrust) : Heads pinned []
  | cons {pinned : Option LogTrust} {head : LogTrust} {heads : List LogTrust} (index : LogIndex H) (fuel : Nat)
      (w w' : Walker) (hdecode : index.hexToArray = decode)
      (hcheck : (enforceTransparency nodeHash index fuel pinned).Returns w head w')
      (hrest : Heads (some head) heads) : Heads pinned (head :: heads)

/-- The head of the log with these entries. -/
def HeadOf (emptyHash : H) (leaves : Slice H) (head : LogTrust) : Prop :=
  head.treeSize = leaves.len ∧ decode head.rootHash = some (merkleRoot nodeHash emptyHash leaves)

variable {nodeHash decode} {emptyHash : H} {a b : Slice H} {old new : LogTrust}

theorem entries_of_extends (hnode : Function.Injective2 nodeHash) (h : old.Extends nodeHash decode new)
    (ha : HeadOf nodeHash decode emptyHash a old) (hb : HeadOf nodeHash decode emptyHash b new) :
    a.toList <+: b.toList := by
  obtain ⟨-, hle, rootFrom, rootTo, proof, hfrom, hto, haccepts⟩ := h
  rw [ha.2, Option.some.injEq] at hfrom
  rw [hb.2, Option.some.injEq] at hto
  subst hfrom hto
  rw [ha.1, hb.1] at haccepts hle
  have hlen := UInt64.le_iff_toNat_le.mp hle
  rw [a.toNat_len, b.toNat_len] at hlen
  rcases Nat.eq_zero_or_pos a.toList.length with hzero | hpos
  · rw [List.length_eq_zero_iff.mp hzero]
    exact List.nil_prefix
  · rcases hlen.eq_or_lt with heq | hlt
    · obtain ⟨fuel, haccepts⟩ := haccepts
      have hsame : a.len = b.len := UInt64.toNat_inj.mp (by rw [a.toNat_len, b.toNat_len, heq])
      have hroot : proof = [] ∧ merkleRoot nodeHash emptyHash a = merkleRoot nodeHash emptyHash b := by
        simpa [verifyConsistency, hsame] using haccepts
      exact Lib.Merkle.root_inj nodeHash emptyHash hnode heq hroot.2 ▸ List.prefix_rfl
    · have hroots := (accepts_verifyConsistency_iff nodeHash b.len_toNat_le (by rwa [a.toNat_len])
        (by rwa [a.toNat_len, b.toNat_len])).mp haccepts
      rw [a.toNat_len, b.toNat_len] at hroots
      have htake := Lib.Merkle.roots_sound nodeHash emptyHash hnode hpos hlt.le hroots
      exact htake ▸ List.take_prefix ..

/-- **The log is never rewritten** under checks that each start from the pin of the one before. -/
theorem checked_heads_append_only (hnode : Function.Injective2 nodeHash) (emptyHash : H)
    {pinned : Option LogTrust} {heads : List LogTrust} (h : Heads nodeHash decode pinned heads) (leaves : LogTrust → Slice H)
    (hleaves : ∀ head ∈ heads, HeadOf nodeHash decode emptyHash (leaves head) head) :
    heads.Pairwise fun a b => b.publicKey = a.publicKey ∧ (leaves a).toList <+: (leaves b).toList := by
  have htrans : IsTrans LogTrust fun a b => b.publicKey = a.publicKey ∧ (leaves a).toList <+: (leaves b).toList :=
    ⟨fun a b c hab hbc => ⟨hbc.1.trans hab.1, hab.2.trans hbc.2⟩⟩
  refine List.isChain_iff_pairwise.mp ?_
  induction h with
  | nil => exact .nil
  | cons _ _ _ _ _ _ hrest ih =>
    obtain ⟨hhead, hheads⟩ := List.forall_mem_cons.mp hleaves
    cases hrest with
    | nil => exact .singleton _
    | cons _ _ _ _ hdecode hcheck hrest =>
      have hextends := (enforceTransparency_returns hcheck).2 _ rfl
      rw [hdecode] at hextends
      have hentries := entries_of_extends hnode hextends hhead (hheads _ List.mem_cons_self)
      exact List.isChain_cons_cons.mpr ⟨⟨hextends.1, hentries⟩, ih hheads⟩

/-- A log of two entries. -/
def twoLog (size : UInt64) (root : String) : LogIndex SymbolicHash :=
  { idleLog SymbolicHash with
    logPublicKey := .ok (some "key")
    logCheckpoint := .ok ⟨size, root, ""⟩
    verifyCheckpoint := fun _ _ _ _ => .ok true
    logConsistency := fun _ _ => .ok ["b"]
    hexToArray := fun hex =>
      List.lookup hex [("a", .leaf [0]), ("b", .leaf [1]), ("ab", .node (.leaf [0]) (.leaf [1]))] }

def twoLeaves (head : LogTrust) : Slice SymbolicHash :=
  ⟨[.leaf [0], .leaf [1]].take head.treeSize.toNat, (List.length_take_le' ..).trans_lt (by decide)⟩

theorem twoLog_append_only : [(⟨"key", 1, "a"⟩ : LogTrust), ⟨"key", 2, "ab"⟩].Pairwise fun a b =>
    b.publicKey = a.publicKey ∧ (twoLeaves a).toList <+: (twoLeaves b).toList := by
  have h : Heads .node (twoLog 1 "a").hexToArray none [⟨"key", 1, "a"⟩, ⟨"key", 2, "ab"⟩] :=
    .cons (twoLog 1 "a") 2 .init .init rfl rfl
      (.cons (twoLog 2 "ab") 2 .init .init rfl (by with_unfolding_all rfl) (.nil _))
  refine checked_heads_append_only SymbolicHash.node_injective2 .empty h twoLeaves ?_
  exact show ∀ head ∈ _, _ ∧ _ by decide +kernel

end Heads

end Noeta.Pm
