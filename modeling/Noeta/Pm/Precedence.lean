import Noeta.Pm.Select

/-!
# Local sources and the registry

Selection gives a local source precedence over the registry by identity; the walk materialises a registry
dependency from the lock or the index all the same: every registry dependency a manifest of the resolved
graph lists is counted, unless a `[patch]` covers it.
-/

namespace Noeta.Pm

open Semver Lockfile Requirement Fallible

variable {W : World} {cfg : Config} {w : Walker}

/-- Some table of the graph requires `I` from the registry. -/
def RequiredFromRegistry (W : World) (deps : Dependencies) (dir : String) (w : Walker)
    (I : String) : Prop :=
  ∃ ds base package req, Declares W deps dir w ds base ∧
    .registry (some package) req ∈ Dependencies.leaves ds ∧ package.identity = I

/-- The instance of `I` is the tree of a path or git dependency of the graph, and `I` is not counted
among the registry identities. -/
def LocalWins (W : World) (cfg : Config) (deps : Dependencies) (dir : String) (w : Walker)
    (I : String) : Prop :=
  (∃ inst, w.instances.lookup I = some inst ∧ ∃ ds base dep, Declares W deps dir w ds base ∧
    dep ∈ Dependencies.leaves ds ∧ localDir W cfg base dep = some inst.dir) ∧ I ∉ w.registryIds

def libName : PackageName := ⟨"acme", "lib"⟩

def libVersion : Version := Version.new 1 0 0

def libManifest : Manifest where
  package := some ⟨libName, none, libVersion, none, none, none, none⟩
  dependencies := []

/-- `^1`. -/
def caretOne : VersionReq := ⟨[⟨.caret, 1, none, none, [], by simp, by simp⟩]⟩

/-- One tree at `lib`, an index that serves `releases`, and no lock. -/
def libWorld (releases : List Release) : World where
  join base path := base ++ "/" ++ path
  canonicalize path := if path = "app/../lib" then "lib" else path
  readManifest _ := .ok libManifest
  hashTree _ := .ok "h"
  validateNativeCrate _ _ := .ok ()
  fetch _ _ _ := .ok ⟨"store", "sha", "h"⟩
  scopeKey _ := .ok none
  releases _ := .ok releases
  localRepo _ := none
  verifySignature _ _ _ _ := .ok ()
  verifyBundle _ _ _ _ := .ok ("", "")
  pubgrub _ _ := .ok ((∅ : Map String Version).insert "acme/lib" libVersion)
  running := libVersion
  nowUnixMs := 0

def unlocked : Config where
  lock := .empty
  lockPins := .honor
  patches := ∅
  nativeTrust := []
  requireProvenance := .nothing
  publishCooldown := none

def fromRegistry : Entry := .one (.registry (some libName) caretOne)

def fromPath : Entry := .one (.path "../lib" none)

def libRelease : Release where
  version := libVersion
  coords := ⟨"https://git", "v1.0.0", "sha"⟩
  deps := []
  yanked := false
  signature := none
  bundle := none
  publishedAt := none

end Noeta.Pm
