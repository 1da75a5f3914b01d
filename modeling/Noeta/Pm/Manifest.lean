import Noeta.Pm.Lockfile
import Noeta.Pm.Requirement

/-!
# Manifests, releases and the world they are read from

What a resolve reads: the manifests of the trees on disk, the releases an index serves, the trees that git
coordinates name. The texts of errors are left out; an error keeps what its text would be made from.
-/

namespace Noeta.Pm

open Semver Lockfile

/-! ## Manifests -/

structure PackageName where
  company : String
  package : String
deriving DecidableEq, Repr

/-- `company/package`. -/
def PackageName.identity (n : PackageName) : String := n.company ++ "/" ++ n.package

/-- The part of an identity before its first slash. -/
def scopeOf (identity : String) : String :=
  String.ofList (identity.toList.takeWhile (· ≠ '/'))

structure PackageMeta where
  name : PackageName
  root : Option String
  version : Version
  edition : Option Edition
  toolchain : Option VersionReq
  native : Option String
  devNative : Option String

def PackageMeta.rootSegment (pkg : PackageMeta) : String := pkg.root.getD pkg.name.package

def PackageMeta.effectiveEdition (pkg : PackageMeta) : Edition := pkg.edition.getD .e2026

/-- A dependency with one source. -/
inductive Dependency where
  | path (path : String) (package : Option PackageName)
  | git (url : String) (gitRef : GitRef) (package : Option PackageName)
  | registry (package : Option PackageName) (req : VersionReq)

def Dependency.declaredPackage : Dependency → Option PackageName
  | .path _ package => package
  | .git _ _ package => package
  | .registry package _ => package

/-- What one key of a manifest binds. Scopes do not nest. -/
inductive Entry where
  | one (dep : Dependency)
  | scope (members : List Dependency)

def Entry.leaves : Entry → List Dependency
  | .one dep => [dep]
  | .scope members => members

/-- The `[dependencies]` table in the order of its keys. -/
abbrev Dependencies := List (String × Entry)

def Dependencies.leaves (deps : Dependencies) : List Dependency := deps.flatMap (·.2.leaves)

structure Manifest where
  package : Option PackageMeta
  dependencies : Dependencies

/-! ## Releases -/

structure GitCoords where
  url : String
  tag : String
  sha : String
deriving DecidableEq

/-- One edge of a published release. -/
structure IndexDep where
  package : String
  req : VersionReq

structure Release where
  version : Version
  coords : GitCoords
  deps : List IndexDep
  yanked : Bool
  signature : Option String
  bundle : Option String
  publishedAt : Option Int

/-! ## Errors -/

inductive ErrorKind where
  | manifest | io | network | conflict | trust | lock | nativeBuild
deriving DecidableEq, Repr

/-- Why a release is refused before any signature is checked. -/
inductive ProvenanceRefusal where
  | bothRoots | downgrade | rootSwitch | keyChanged | noKey | unsigned
deriving DecidableEq, Repr

inductive ServedMismatch where
  | name (actual : PackageName)
  | version (actual : Version)
deriving DecidableEq

/-- What the disk, a store, a remote or an index reports. -/
structure Outside where
  kind : ErrorKind
  what : String

inductive PmError where
  | outside (report : Outside)
  | noPackage (key dir : String)
  | unnamed (key : String)
  | claim (key : String) (claimed actual : PackageName)
  | served (key : String) (name : PackageName) (selected : Option Version) (pinned : Bool)
      (finding : ServedMismatch)
  | builtin (key : Option String) (identity : String)
  | notSelected (key identity : String)
  | notInIndex (key identity : String) (version : Version)
  | provenance (key identity : String) (reason : ProvenanceRefusal)
  | toolchain (what : String) (req : VersionReq)
  | versions (identity : String) (first second : Version)
  | mixedScope (key first company : String)
  | untrustedNative (key identity : String)
  | drifted (key identity : String)
  | cooldown (identity : String)
  | patchIdentity (identity actual : String)
  | unsolvable (report : String)

def PmError.kind : PmError → ErrorKind
  | .outside report => report.kind
  | .noPackage _ _ => .manifest
  | .unnamed _ => .manifest
  | .claim _ _ _ => .manifest
  | .served _ _ _ _ _ => .trust
  | .builtin _ _ => .trust
  | .notSelected _ _ => .conflict
  | .notInIndex _ _ _ => .network
  | .provenance _ _ _ => .trust
  | .toolchain _ _ => .conflict
  | .versions _ _ _ => .conflict
  | .mixedScope _ _ _ => .manifest
  | .untrustedNative _ _ => .trust
  | .drifted _ _ => .lock
  | .cooldown _ => .conflict
  | .patchIdentity _ _ => .manifest
  | .unsolvable _ => .conflict

/-! ## The world -/

/-- A git tree in the package store. -/
structure Fetched where
  path : String
  sha : String
  contentHash : String

/-- One version of a package as the version solver is told of it: its dependencies as intervals. -/
structure Row where
  package : String
  version : Version
  deps : List (String × Requirement.Ranges)

/-- What lies outside the resolver: the disk, the package store, the indexes, the cryptography and the
version solver. -/
structure World where
  join : String → String → String
  canonicalize : String → String
  readManifest : String → Except Outside Manifest
  hashTree : String → Except Outside String
  validateNativeCrate : String → String → Except Outside Unit
  fetch : String → GitRef → Option String → Except Outside Fetched
  scopeKey : String → Except Outside (Option String)
  releases : String → Except Outside (List Release)
  localRepo : String → Option String
  verifySignature : String → Release → String → String → Except Outside Unit
  verifyBundle : String → Release → String → Option (String × String) →
    Except Outside (String × String)
  pubgrub : List Row → List (String × Requirement.Ranges) → Except String (Map String Version)
  running : Version
  nowUnixMs : Int

/-- A root `[patch]` entry. -/
structure PatchOverride where
  declared : String
  dir : String
deriving DecidableEq

inductive RequireProvenance where
  | nothing
  | all
  | only (scopes : List String)

def RequireProvenance.requires : RequireProvenance → String → Bool
  | .nothing, _ => false
  | .all, _ => true
  | .only scopes, scope => scope ∈ scopes

inductive LockPins where
  | honor
  | ignore
deriving DecidableEq

/-- What the root manifest and the lockfile fix for the whole resolve. -/
structure Config where
  lock : Lock
  lockPins : LockPins
  patches : Map String PatchOverride
  nativeTrust : List String
  requireProvenance : RequireProvenance
  publishCooldown : Option Nat

/-- The scopes the toolchain owns. -/
def isBuiltin (scope : String) : Bool := scope ∈ ["std", "noeta", "core"]

end Noeta.Pm
