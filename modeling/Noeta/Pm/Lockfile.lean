import Noeta.Lib.Toml
import Noeta.Pm.Semver
import Mathlib.Data.List.AList
import Mathlib.Data.String.Basic

/-!
# The lockfile

`noeta.lock` is written by hand-quoting TOML and read back through a TOML parser; a text that does not
parse reads as an empty lock, so what one field spoils is lost for all. The printed and the parsed form
of a version are parameters: they belong to the version library.
-/

namespace Noeta.Pm.Lockfile

open Noeta.Lib Noeta.Pm.Semver

/-! ## Pins -/

inductive GitRef where
  | tag (t : String)
  | branch (b : String)
  | head
deriving DecidableEq, Repr

def GitRef.lockKey : GitRef → String
  | .tag t => "tag:" ++ t
  | .branch b => "branch:" ++ b
  | .head => "head"

inductive ResolvedSource where
  | path (path : String)
  | git (url : String) (gitRef : GitRef) (sha : String)
deriving DecidableEq, Repr

inductive Edition where
  | e2026
deriving DecidableEq, Repr

def Edition.asStr : Edition → String
  | .e2026 => "2026"

structure LockedPackage where
  identity : String
  version : Version
  contentHash : String
  source : ResolvedSource
  native : Option String
  edition : Edition
  patched : Bool
deriving DecidableEq, Repr

inductive ScopeTrust where
  | key (publicKey : String)
  | keyless (issuer identity : String)
deriving DecidableEq, Repr

def ScopeTrust.isKeyless : ScopeTrust → Bool
  | .keyless _ _ => true
  | .key _ => false

structure LogTrust where
  publicKey : String
  treeSize : UInt64
  rootHash : String
deriving DecidableEq

structure AdvisoryTrust where
  publicKey : String
  count : UInt64
  digest : String
deriving DecidableEq

/-- A `BTreeMap`; no reader depends on the order of its keys. -/
abbrev Map (κ β : Type) := AList fun _ : κ => β

structure Lock where
  gitPins : Map (String × String) String
  versions : Map String Version
  coords : Map String (String × String × String)
  hashes : Map String String
  shas : Map String String
  scopeTrust : Map String ScopeTrust
  logTrust : Option LogTrust
  advisoryTrust : Option AdvisoryTrust

namespace Lock

def empty : Lock := ⟨∅, ∅, ∅, ∅, ∅, ∅, none, none⟩

def gitPin (lock : Lock) (url : String) (gitRef : GitRef) : Option String :=
  lock.gitPins.lookup (url, gitRef.lockKey)

def contentHash (lock : Lock) (identity : String) : Option String := lock.hashes.lookup identity

def lockedVersion (lock : Lock) (identity : String) : Option Version :=
  lock.versions.lookup identity

def registryCoords (lock : Lock) (identity : String) : Option (String × String × String) :=
  lock.coords.lookup identity

/-- The bare scopes that carry a keyless pin. -/
def legacyKeyless (lock : Lock) : List String :=
  lock.scopeTrust.keys.filter fun name =>
    !name.toList.contains '/' && (lock.scopeTrust.lookup name).any ScopeTrust.isKeyless

/-- Move a keyless pin of a bare scope onto the one package the lock records in that scope. -/
def migrateLegacyKeylessPins (lock : Lock) : Lock :=
  lock.legacyKeyless.foldl (fun lock scope =>
    match lock.versions.keys.filter fun identity =>
        identity.toList.takeWhile (· ≠ '/') = scope.toList with
    | [only] =>
      match lock.scopeTrust.lookup scope with
      | some trust =>
        let rest := lock.scopeTrust.erase scope
        { lock with scopeTrust := if only ∈ rest then rest else rest.insert only trust }
      | none => lock
    | _ => lock) lock

end Lock

/-! ## Writing -/

/-- A text as its characters. -/
abbrev Text := List Char

def tomlQuote (s : String) : Text :=
  '"' :: ((s.toList.flatMap fun c => if c = '\\' then ['\\', '\\'] else [c]).flatMap
    fun c => if c = '"' then ['\\', '"'] else [c]) ++ ['"']

/-- One line of a record. -/
def line (key s : String) : Text := key.toList ++ " = ".toList ++ tomlQuote s ++ "\n".toList

def lineNat (key : String) (n : Nat) : Text :=
  key.toList ++ " = ".toList ++ (toString n).toList ++ "\n".toList

/-- `\n[[name]]\n`. -/
def arrayHeader (name : String) : Text := "\n[[".toList ++ name.toList ++ "]]\n".toList

/-- `\n[name]\n`. -/
def tableHeader (name : String) : Text := "\n[".toList ++ name.toList ++ "]\n".toList

def remark : String :=
  " This file is generated by noeta; it is meant to be committed. Do not edit."

/-- The first line of the file. -/
def banner : Text := '#' :: remark.toList ++ "\n".toList

def lockVersion : Nat := 2

section Render

variable (displayVersion : Version → String)

def renderSource : ResolvedSource → Text
  | .path path => line "source" "path" ++ line "path" path
  | .git url gitRef sha =>
    line "source" "git" ++ line "url" url ++
      (match gitRef with
        | .tag tag => line "tag" tag
        | .branch branch => line "branch" branch
        | .head => []) ++
      line "sha" sha

def renderPackage (pkg : LockedPackage) : Text :=
  arrayHeader "package" ++ line "name" pkg.identity ++
    line "version" (displayVersion pkg.version) ++ renderSource pkg.source ++
    (match pkg.native with
      | some native => line "native" native
      | none => []) ++
    line "edition" pkg.edition.asStr ++ line "hash" pkg.contentHash

def renderScope (scope : String) (trust : ScopeTrust) : Text :=
  arrayHeader "scope" ++ line "name" scope ++
    match trust with
    | .key key => line "public_key" key
    | .keyless issuer identity => line "issuer" issuer ++ line "identity" identity

def renderLog (log : LogTrust) : Text :=
  tableHeader "log" ++ line "public_key" log.publicKey ++
    lineNat "tree_size" log.treeSize.toNat ++ line "root_hash" log.rootHash

def renderAdvisory (adv : AdvisoryTrust) : Text :=
  tableHeader "advisory" ++ line "public_key" adv.publicKey ++
    lineNat "count" adv.count.toNat ++ line "digest" adv.digest

/-- The packages that are written, by identity. -/
def sorted (locked : List LockedPackage) : List LockedPackage :=
  (locked.filter (!·.patched)).mergeSort fun a b => a.identity ≤ b.identity

def render (locked : List LockedPackage) (scopeTrust : Map String ScopeTrust)
    (logTrust : Option LogTrust) (advisoryTrust : Option AdvisoryTrust) : Text :=
  banner ++ lineNat "version" lockVersion ++
    (sorted locked).flatMap (renderPackage displayVersion) ++
    scopeTrust.entries.flatMap (fun e => renderScope e.1 e.2) ++
    logTrust.toList.flatMap renderLog ++
    advisoryTrust.toList.flatMap renderAdvisory

end Render

/-! ## Reading -/

section Read

variable (parseVersion : String → Option Version)

def readPackage (lock : Lock) (pkg : Toml.Entries) : Lock :=
  let get := Toml.getStr pkg
  match get "name", get "hash" with
  | some name, some hash =>
    let lock := { lock with hashes := lock.hashes.insert name hash }
    let lock :=
      match (get "version").bind parseVersion with
      | some v => { lock with versions := lock.versions.insert name v }
      | none => lock
    let lock :=
      match get "url", get "tag", get "sha" with
      | some url, some tag, some sha =>
        { lock with coords := lock.coords.insert name (url, tag, sha) }
      | _, _, _ => lock
    match get "url", get "sha" with
    | some url, some sha =>
      let gitRef :=
        match get "tag", get "branch" with
        | some tag, _ => GitRef.tag tag
        | none, some branch => GitRef.branch branch
        | none, none => GitRef.head
      { lock with
        gitPins := lock.gitPins.insert (url, gitRef.lockKey) sha
        shas := lock.shas.insert name sha }
    | _, _ => lock
  | _, _ => lock

def readScope (lock : Lock) (s : Toml.Entries) : Lock :=
  let get := Toml.getStr s
  match get "name" with
  | none => lock
  | some name =>
    match get "public_key", get "issuer", get "identity" with
    | some key, _, _ => { lock with scopeTrust := lock.scopeTrust.insert name (.key key) }
    | none, some issuer, some identity =>
      { lock with scopeTrust := lock.scopeTrust.insert name (.keyless issuer identity) }
    | _, _, _ => lock

def readLog (l : Toml.Entries) : Option LogTrust :=
  match Toml.getStr l "public_key", Toml.getInt l "tree_size", Toml.getStr l "root_hash" with
  | some publicKey, some size, some rootHash => some ⟨publicKey, UInt64.ofNat size, rootHash⟩
  | _, _, _ => none

def readAdvisory (a : Toml.Entries) : Option AdvisoryTrust :=
  match Toml.getStr a "public_key", Toml.getInt a "count", Toml.getStr a "digest" with
  | some publicKey, some count, some digest => some ⟨publicKey, UInt64.ofNat count, digest⟩
  | _, _, _ => none

/-- `Lock::read` on the text of the file. -/
def read (text : Text) : Lock :=
  match Toml.parse text with
  | none => .empty
  | some table =>
    if Toml.getInt table.root "version" ≠ some lockVersion then .empty
    else
      let lock := (table.array "package").foldl (readPackage parseVersion) .empty
      let lock := (table.array "scope").foldl readScope lock
      let lock := lock.migrateLegacyKeylessPins
      { lock with
        logTrust := (table.table "log").bind readLog
        advisoryTrust := (table.table "advisory").bind readAdvisory }

end Read

end Noeta.Pm.Lockfile
