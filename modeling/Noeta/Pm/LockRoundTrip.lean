import Noeta.Lib.Overwrite
import Noeta.Pm.Lockfile

/-!
# Reading a written lock

The text of a lock is the printed form of a TOML document, section by section. If every value in it can
be read, the reader gets that document back and its pins are the written ones; otherwise it gets none.
-/

namespace Noeta.Pm.Lockfile

open Noeta.Lib Noeta.Pm.Semver

/-! ## The document behind the text -/

def sourceEntries : ResolvedSource → Toml.Entries
  | .path path => [("source", .str "path"), ("path", .str path)]
  | .git url (.tag tag) sha =>
    [("source", .str "git"), ("url", .str url), ("tag", .str tag), ("sha", .str sha)]
  | .git url (.branch branch) sha =>
    [("source", .str "git"), ("url", .str url), ("branch", .str branch), ("sha", .str sha)]
  | .git url .head sha => [("source", .str "git"), ("url", .str url), ("sha", .str sha)]

def scopeEntries (scope : String) : ScopeTrust → Toml.Entries
  | .key key => [("name", .str scope), ("public_key", .str key)]
  | .keyless issuer identity =>
    [("name", .str scope), ("issuer", .str issuer), ("identity", .str identity)]

def logEntries (log : LogTrust) : Toml.Entries :=
  [("public_key", .str log.publicKey), ("tree_size", .int log.treeSize.toNat),
    ("root_hash", .str log.rootHash)]

def advisoryEntries (adv : AdvisoryTrust) : Toml.Entries :=
  [("public_key", .str adv.publicKey), ("count", .int adv.count.toNat), ("digest", .str adv.digest)]

section Document

variable (displayVersion : Version → String)

def packageEntries (pkg : LockedPackage) : Toml.Entries :=
  [("name", .str pkg.identity), ("version", .str (displayVersion pkg.version))] ++
    sourceEntries pkg.source ++ (pkg.native.toList.map fun native => ("native", .str native)) ++
    [("edition", .str pkg.edition.asStr), ("hash", .str pkg.contentHash)]

variable (locked : List LockedPackage) (scopeTrust : Map String ScopeTrust)
  (logTrust : Option LogTrust) (advisoryTrust : Option AdvisoryTrust)

def lockDocument : Toml.Document where
  root := [("version", .int lockVersion)]
  sections :=
    (sorted locked).map (fun p => ⟨true, "package", packageEntries displayVersion p⟩) ++
      scopeTrust.entries.map (fun e => ⟨true, "scope", scopeEntries e.1 e.2⟩) ++
      logTrust.toList.map (fun log => ⟨false, "log", logEntries log⟩) ++
      advisoryTrust.toList.map fun adv => ⟨false, "advisory", advisoryEntries adv⟩

theorem tomlQuote_eq (s : String) : tomlQuote s = (Toml.Value.str s).print := by
  have hflat : ∀ c : Char,
      (if c = '\\' then ['\\', '\\'] else [c]).flatMap
          (fun c => if c = '"' then ['\\', '"'] else [c]) =
        if c = '\\' then ['\\', '\\'] else if c = '"' then ['\\', '"'] else [c] := by
    intro c
    by_cases hslash : c = '\\'
    · rw [if_pos hslash, if_pos hslash]
      rfl
    · rw [if_neg hslash, if_neg hslash, List.flatMap_singleton]
  rw [tomlQuote, Toml.Value.print, Toml.escape, List.flatMap_assoc]
  simp only [hflat]
  rfl

theorem line_eq (k s : String) : line k s = (Toml.Statement.entry k (.str s)).print := by
  rw [line, tomlQuote_eq, Toml.Statement.print, List.append_assoc, List.append_assoc]
  rfl

theorem lineNat_eq (k : String) (n : Nat) :
    lineNat k n = (Toml.Statement.entry k (.int n)).print := by
  have hdigits : (toString n).toList = Nat.toDigits 10 n := Nat.toList_repr
  rw [lineNat, hdigits, Toml.Statement.print, Toml.Value.print, List.append_assoc,
    List.append_assoc]
  rfl

/-- The printed lines of some entries. -/
def printEntries (es : Toml.Entries) : Text :=
  es.flatMap fun e => (Toml.Statement.entry e.1 e.2).print

theorem print_section (s : Toml.Section) :
    s.statements.flatMap Toml.Statement.print =
      '\n' :: ((if s.isArray then Toml.Statement.arrayTable s.name
        else Toml.Statement.table s.name).print ++ printEntries s.entries) := by
  rw [Toml.Section.statements, List.flatMap_cons, List.flatMap_cons, Toml.entriesOf,
    List.flatMap_map]
  rfl

theorem arrayHeader_eq (name : String) :
    arrayHeader name = '\n' :: (Toml.Statement.arrayTable name).print := by
  rw [arrayHeader, Toml.Statement.print, List.append_assoc]
  rfl

theorem tableHeader_eq (name : String) :
    tableHeader name = '\n' :: (Toml.Statement.table name).print := by
  rw [tableHeader, Toml.Statement.print, List.append_assoc]
  rfl

theorem renderSource_eq (source : ResolvedSource) :
    renderSource source = printEntries (sourceEntries source) := by
  cases source with
  | path path => simp only [renderSource, line_eq, printEntries, sourceEntries, List.flatMap_cons,
      List.flatMap_nil, List.append_nil]
  | git url gitRef sha =>
    cases gitRef <;>
      simp only [renderSource, line_eq, printEntries, sourceEntries, List.flatMap_cons,
        List.flatMap_nil, List.append_nil, List.append_assoc]

theorem renderPackage_eq (pkg : LockedPackage) :
    renderPackage displayVersion pkg =
      (Toml.Section.statements ⟨true, "package", packageEntries displayVersion pkg⟩).flatMap
        Toml.Statement.print := by
  rw [print_section, renderPackage, arrayHeader_eq, renderSource_eq]
  cases hnative : pkg.native <;>
    simp only [line_eq, packageEntries, printEntries, hnative, List.flatMap_cons, List.flatMap_nil,
      List.flatMap_append, List.append_nil, List.append_assoc, List.cons_append, List.nil_append,
      Option.toList_none, Option.toList_some, List.map_cons, List.map_nil, if_true]

theorem renderScope_eq (scope : String) (trust : ScopeTrust) :
    renderScope scope trust =
      (Toml.Section.statements ⟨true, "scope", scopeEntries scope trust⟩).flatMap
        Toml.Statement.print := by
  rw [print_section]
  cases trust <;>
    simp only [renderScope, arrayHeader_eq, line_eq, scopeEntries, printEntries, List.flatMap_cons, List.flatMap_nil,
      List.append_nil, List.append_assoc, List.cons_append, if_true]

theorem renderLog_eq (log : LogTrust) :
    renderLog log =
      (Toml.Section.statements ⟨false, "log", logEntries log⟩).flatMap Toml.Statement.print := by
  rw [print_section, renderLog, tableHeader_eq]
  simp only [line_eq, lineNat_eq, logEntries, printEntries, List.flatMap_cons, List.flatMap_nil,
    List.append_nil, List.append_assoc, List.cons_append, Bool.false_eq_true, if_false]

theorem renderAdvisory_eq (adv : AdvisoryTrust) :
    renderAdvisory adv =
      (Toml.Section.statements ⟨false, "advisory", advisoryEntries adv⟩).flatMap
        Toml.Statement.print := by
  rw [print_section, renderAdvisory, tableHeader_eq]
  simp only [line_eq, lineNat_eq, advisoryEntries, printEntries, List.flatMap_cons,
    List.flatMap_nil, List.append_nil, List.append_assoc, List.cons_append, Bool.false_eq_true,
    if_false]

theorem render_eq :
    render displayVersion locked scopeTrust logTrust advisoryTrust =
      ((lockDocument displayVersion locked scopeTrust logTrust advisoryTrust).statements
        remark).flatMap Toml.Statement.print := by
  have hbanner : banner = (Toml.Statement.comment remark).print := by
    rw [banner, Toml.Statement.print]
    rfl
  rw [render, hbanner, lineNat_eq, funext (renderPackage_eq displayVersion),
    funext renderLog_eq, funext renderAdvisory_eq]
  simp only [renderScope_eq]
  simp only [Toml.Document.statements, lockDocument, Toml.entriesOf, List.flatMap_cons,
    List.flatMap_append, List.flatMap_map, List.flatMap_assoc, List.map_cons, List.map_nil,
    List.flatMap_nil, List.append_nil, List.append_assoc]

/-! ## The document is well formed -/

/-- Keys that are bare and written once. -/
def GoodKeys (es : Toml.Entries) : Prop :=
  (es.map Prod.fst).Nodup ∧ ∀ k ∈ es.map Prod.fst, Toml.BareKey k

theorem goodKeys_package (pkg : LockedPackage) : GoodKeys (packageEntries displayVersion pkg) := by
  obtain ⟨identity, version, contentHash, source, native, edition, patched⟩ := pkg
  rcases source with path | ⟨url, tag | branch | _, sha⟩ <;> cases native <;>
    simp only [GoodKeys, packageEntries, sourceEntries, Option.toList_none, Option.toList_some,
      List.map_cons, List.map_nil, List.cons_append, List.nil_append] <;> decide

theorem goodKeys_scope (scope : String) (trust : ScopeTrust) :
    GoodKeys (scopeEntries scope trust) := by
  cases trust <;> simp only [GoodKeys, scopeEntries, List.map_cons, List.map_nil] <;> decide

theorem goodKeys_log (log : LogTrust) : GoodKeys (logEntries log) := by
  simp only [GoodKeys, logEntries, List.map_cons, List.map_nil]
  decide

theorem goodKeys_advisory (adv : AdvisoryTrust) : GoodKeys (advisoryEntries adv) := by
  simp only [GoodKeys, advisoryEntries, List.map_cons, List.map_nil]
  decide

theorem section_cases {s : Toml.Section}
    (hs : s ∈ (lockDocument displayVersion locked scopeTrust logTrust advisoryTrust).sections) :
    (∃ p ∈ sorted locked, s = ⟨true, "package", packageEntries displayVersion p⟩) ∨
      (∃ e ∈ scopeTrust.entries, s = ⟨true, "scope", scopeEntries e.1 e.2⟩) ∨
      (∃ log ∈ logTrust, s = ⟨false, "log", logEntries log⟩) ∨
      ∃ adv ∈ advisoryTrust, s = ⟨false, "advisory", advisoryEntries adv⟩ := by
  simpa [lockDocument, or_assoc, eq_comm] using hs

theorem goodKeys_section {s : Toml.Section}
    (hs : s ∈ (lockDocument displayVersion locked scopeTrust logTrust advisoryTrust).sections) :
    GoodKeys s.entries ∧ Toml.BareKey s.name := by
  obtain ⟨p, _, rfl⟩ | ⟨e, _, rfl⟩ | ⟨log, _, rfl⟩ | ⟨adv, _, rfl⟩ :=
    section_cases displayVersion locked scopeTrust logTrust advisoryTrust hs
  · exact ⟨goodKeys_package displayVersion p, show Toml.BareKey "package" by decide⟩
  · exact ⟨goodKeys_scope e.1 e.2, show Toml.BareKey "scope" by decide⟩
  · exact ⟨goodKeys_log log, show Toml.BareKey "log" by decide⟩
  · exact ⟨goodKeys_advisory adv, show Toml.BareKey "advisory" by decide⟩

theorem lockDocument_plain :
    (lockDocument displayVersion locked scopeTrust logTrust advisoryTrust).Plain := by
  constructor
  · intro e he
    obtain rfl : e = ("version", .int lockVersion) := by simpa [lockDocument] using he
    decide
  · intro s hs
    obtain ⟨⟨_, hkeys⟩, hname⟩ :=
      goodKeys_section displayVersion locked scopeTrust logTrust advisoryTrust hs
    exact ⟨hname, fun e he => hkeys e.1 (List.mem_map_of_mem he)⟩

theorem tableNames_lockDocument :
    (lockDocument displayVersion locked scopeTrust logTrust advisoryTrust).tableNames =
      logTrust.toList.map (fun _ => "log") ++ advisoryTrust.toList.map fun _ => "advisory" := by
  simp [Toml.Document.tableNames, lockDocument, List.filter_map, Function.comp_def]

theorem mem_arrayNames_lockDocument {k : String}
    (hk : k ∈ (lockDocument displayVersion locked scopeTrust logTrust advisoryTrust).arrayNames) :
    k = "package" ∨ k = "scope" := by
  rw [Toml.Document.arrayNames, List.mem_map] at hk
  obtain ⟨s, hs, rfl⟩ := hk
  obtain ⟨hs, harray⟩ := List.mem_filter.mp hs
  obtain ⟨p, _, rfl⟩ | ⟨e, _, rfl⟩ | ⟨log, _, rfl⟩ | ⟨adv, _, rfl⟩ :=
    section_cases displayVersion locked scopeTrust logTrust advisoryTrust hs
  · exact .inl rfl
  · exact .inr rfl
  · cases harray
  · cases harray

theorem mem_tableNames_lockDocument {k : String}
    (hk : k ∈ (lockDocument displayVersion locked scopeTrust logTrust advisoryTrust).tableNames) :
    k = "log" ∨ k = "advisory" := by
  rw [tableNames_lockDocument, List.mem_append, List.mem_map, List.mem_map] at hk
  rcases hk with ⟨_, _, rfl⟩ | ⟨_, _, rfl⟩
  · exact .inl rfl
  · exact .inr rfl

theorem lockDocument_unambiguous :
    (lockDocument displayVersion locked scopeTrust logTrust advisoryTrust).Unambiguous := by
  refine ⟨by simp [lockDocument], ?_, ?_, ?_, ?_⟩
  · intro s hs
    exact (goodKeys_section displayVersion locked scopeTrust logTrust advisoryTrust hs).1.1
  · rw [tableNames_lockDocument]
    cases logTrust <;> cases advisoryTrust <;> simp
  · intro k hk
    have htable := mem_tableNames_lockDocument displayVersion locked scopeTrust logTrust
      advisoryTrust hk
    constructor
    · intro harray
      have := mem_arrayNames_lockDocument displayVersion locked scopeTrust logTrust
        advisoryTrust harray
      rcases htable with rfl | rfl <;> revert this <;> decide
    · rcases htable with rfl | rfl <;> simp [lockDocument]
  · intro k hk
    rcases mem_arrayNames_lockDocument displayVersion locked scopeTrust logTrust advisoryTrust hk
      with rfl | rfl <;> simp [lockDocument]

theorem parse_render :
    Toml.parse (render displayVersion locked scopeTrust logTrust advisoryTrust) =
      if (lockDocument displayVersion locked scopeTrust logTrust advisoryTrust).Readable then
        some (lockDocument displayVersion locked scopeTrust logTrust advisoryTrust)
      else none := by
  rw [render_eq]
  exact Toml.parse_document (show (Toml.Statement.comment remark).Plain by decide)
    (lockDocument_plain displayVersion locked scopeTrust logTrust advisoryTrust)
    (lockDocument_unambiguous displayVersion locked scopeTrust logTrust advisoryTrust)

end Document

/-! ## What one record pins -/

def ResolvedSource.gitRows : ResolvedSource → List ((String × String) × String)
  | .path _ => []
  | .git url gitRef sha => [((url, gitRef.lockKey), sha)]

/-- The coordinates of a tagged release. -/
def ResolvedSource.coords : ResolvedSource → Option (String × String × String)
  | .git url (.tag tag) sha => some (url, tag, sha)
  | _ => none

/-- What one section of the file does to the lock. -/
structure PinsOf (lock lock' : Lock) (p : LockedPackage) : Prop where
  versions : ∀ k, lock'.versions.lookup k =
    (lastAt k [(p.identity, p.version)]).or (lock.versions.lookup k)
  hashes : ∀ k, lock'.hashes.lookup k =
    (lastAt k [(p.identity, p.contentHash)]).or (lock.hashes.lookup k)
  coords : ∀ k, lock'.coords.lookup k =
    (lastAt k (p.source.coords.toList.map fun c => (p.identity, c))).or (lock.coords.lookup k)
  gitPins : ∀ k, lock'.gitPins.lookup k =
    (lastAt k p.source.gitRows).or (lock.gitPins.lookup k)
  scopeTrust : lock'.scopeTrust = lock.scopeTrust

theorem lookup_insert_eq {κ β : Type} [DecidableEq κ] (m : Map κ β) (a k : κ) (b : β) :
    (m.insert a b).lookup k = (lastAt k [(a, b)]).or (m.lookup k) := by
  by_cases h : a = k
  · subst h
    simp [lastAt]
  · rw [AList.lookup_insert_ne (Ne.symm h)]
    simp [lastAt, h]

theorem getStr_packageEntries (displayVersion : Version → String) (p : LockedPackage) :
    Toml.getStr (packageEntries displayVersion p) "name" = some p.identity ∧
      Toml.getStr (packageEntries displayVersion p) "hash" = some p.contentHash ∧
      Toml.getStr (packageEntries displayVersion p) "version" = some (displayVersion p.version) ∧
      ∀ k ∈ ["url", "tag", "branch", "sha"], Toml.getStr (packageEntries displayVersion p) k =
        Toml.getStr (sourceEntries p.source) k := by
  obtain ⟨identity, version, contentHash, source, native, edition, patched⟩ := p
  rcases source with path | ⟨url, tag | branch | _, sha⟩ <;> cases native <;>
    simp [packageEntries, sourceEntries, Toml.getStr, List.lookup_cons, List.lookup_nil]

theorem readPackage_pins {displayVersion : Version → String}
    {parseVersion : String → Option Version} {p : LockedPackage}
    (hversion : parseVersion (displayVersion p.version) = some p.version) (lock : Lock) :
    PinsOf lock (readPackage parseVersion lock (packageEntries displayVersion p)) p := by
  obtain ⟨hname, hhash, hdisplay, hsource⟩ := getStr_packageEntries displayVersion p
  have hurl := hsource "url" (by simp)
  have htag := hsource "tag" (by simp)
  have hbranch := hsource "branch" (by simp)
  have hsha := hsource "sha" (by simp)
  simp only [readPackage, hname, hhash, hdisplay, hurl, htag, hbranch, hsha, Option.bind_some,
    hversion]
  cases hs : p.source with
  | path path =>
    simp only [sourceEntries, Toml.getStr, List.lookup_cons, List.lookup_nil]
    constructor <;> intros <;>
      simp [hs, lookup_insert_eq, ResolvedSource.coords, ResolvedSource.gitRows]
  | git url gitRef sha =>
    cases gitRef <;> simp only [sourceEntries, Toml.getStr, List.lookup_cons, List.lookup_nil] <;>
    constructor <;> intros <;>
      simp [hs, lookup_insert_eq, ResolvedSource.coords, ResolvedSource.gitRows]

structure TrustOf (lock lock' : Lock) (scope : String) (trust : ScopeTrust) : Prop where
  versions : lock'.versions = lock.versions
  hashes : lock'.hashes = lock.hashes
  coords : lock'.coords = lock.coords
  gitPins : lock'.gitPins = lock.gitPins
  scopeTrust : ∀ k, lock'.scopeTrust.lookup k =
    (lastAt k [(scope, trust)]).or (lock.scopeTrust.lookup k)

theorem readScope_trust (lock : Lock) (scope : String) (trust : ScopeTrust) :
    TrustOf lock (readScope lock (scopeEntries scope trust)) scope trust := by
  cases trust <;> constructor <;> intros <;>
    simp [readScope, scopeEntries, Toml.getStr, List.lookup_cons, lookup_insert_eq]

theorem readLog_logEntries {log : LogTrust} : readLog (logEntries log) = some log := by
  simp [readLog, logEntries, Toml.getStr, Toml.getInt, List.lookup_cons]

theorem readAdvisory_advisoryEntries {adv : AdvisoryTrust} :
    readAdvisory (advisoryEntries adv) = some adv := by
  simp [readAdvisory, advisoryEntries, Toml.getStr, Toml.getInt, List.lookup_cons]

/-- Keyless pins stand under package identities. -/
def KeylessByPackage (scopeTrust : Map String ScopeTrust) : Prop :=
  ∀ k issuer identity, scopeTrust.lookup k = some (.keyless issuer identity) → '/' ∈ k.toList

theorem migrateLegacyKeylessPins_eq {lock : Lock} (h : KeylessByPackage lock.scopeTrust) :
    lock.migrateLegacyKeylessPins = lock := by
  have hlegacy : lock.legacyKeyless = [] := by
    rw [Lock.legacyKeyless, List.filter_eq_nil_iff]
    intro name _
    cases hl : lock.scopeTrust.lookup name with
    | none => simp
    | some trust =>
      cases trust with
      | key key => simp [ScopeTrust.isKeyless]
      | keyless issuer identity => simp [h name issuer identity hl]
  rw [Lock.migrateLegacyKeylessPins, hlegacy]
  rfl

/-! ## What the whole file pins -/

section File

variable {displayVersion : Version → String} {parseVersion : String → Option Version}
  (locked : List LockedPackage) (scopeTrust : Map String ScopeTrust)
  (logTrust : Option LogTrust) (advisoryTrust : Option AdvisoryTrust)

theorem array_package :
    (lockDocument displayVersion locked scopeTrust logTrust advisoryTrust).array "package" =
      (sorted locked).map (packageEntries displayVersion) := by
  simp [Toml.Document.array, lockDocument, List.filter_map, Function.comp_def]

theorem array_scope :
    (lockDocument displayVersion locked scopeTrust logTrust advisoryTrust).array "scope" =
      scopeTrust.entries.map fun e => scopeEntries e.1 e.2 := by
  simp [Toml.Document.array, lockDocument, List.filter_map, Function.comp_def]

theorem table_log :
    (lockDocument displayVersion locked scopeTrust logTrust advisoryTrust).table "log" =
      logTrust.map logEntries := by
  have hnone : ∀ {α : Type} (l : List α), l.find? (fun _ => false) = none := by simp
  cases logTrust <;> cases advisoryTrust <;>
    simp [Toml.Document.table, lockDocument, List.find?_append, List.find?_map, Function.comp_def,
      hnone]

theorem table_advisory :
    (lockDocument displayVersion locked scopeTrust logTrust advisoryTrust).table "advisory" =
      advisoryTrust.map advisoryEntries := by
  have hnone : ∀ {α : Type} (l : List α), l.find? (fun _ => false) = none := by simp
  cases logTrust <;> cases advisoryTrust <;>
    simp [Toml.Document.table, lockDocument, List.find?_append, List.find?_map, Function.comp_def,
      hnone]

/-- The lock after the package and scope sections. -/
def pinned (displayVersion : Version → String) (parseVersion : String → Option Version)
    (locked : List LockedPackage) (scopeTrust : Map String ScopeTrust) : Lock :=
  (scopeTrust.entries.map fun e => scopeEntries e.1 e.2).foldl readScope
    (((sorted locked).map (packageEntries displayVersion)).foldl (readPackage parseVersion) .empty)

section Pinned

variable (hversion : ∀ p ∈ locked, parseVersion (displayVersion p.version) = some p.version)

theorem mem_sorted {p : LockedPackage} : p ∈ sorted locked ↔ p ∈ locked ∧ p.patched = false := by
  rw [sorted, List.mem_mergeSort, List.mem_filter]
  simp

include hversion in
theorem lookup_packages {κ β : Type} [DecidableEq κ] (get : Lock → Map κ β)
    (rows : LockedPackage → List (κ × β))
    (hpins : ∀ lock lock' p, PinsOf lock lock' p →
      ∀ k, (get lock').lookup k = (lastAt k (rows p)).or ((get lock).lookup k))
    (hempty : get .empty = ∅) (k : κ) :
    (get (((sorted locked).map (packageEntries displayVersion)).foldl (readPackage parseVersion)
      .empty)).lookup k = lastAt k ((sorted locked).flatMap rows) := by
  rw [List.foldl_map]
  have hfold := foldl_overwrite (fun lock p => readPackage parseVersion lock
    (packageEntries displayVersion p)) (fun lock k => (get lock).lookup k) rows (sorted locked)
    (fun p hp lock k => hpins _ _ p
      (readPackage_pins (hversion p ((mem_sorted locked).mp hp).1) lock) k) .empty k
  rw [hfold, hempty, AList.lookup_empty, Option.or_none]

include hversion in
theorem packages_scopeTrust :
    (((sorted locked).map (packageEntries displayVersion)).foldl (readPackage parseVersion)
      .empty).scopeTrust = ∅ := by
  rw [List.foldl_map]
  have hframe : ∀ (ps : List LockedPackage) (lock : Lock), (∀ p ∈ ps, p ∈ locked) →
      (ps.foldl (fun lock p => readPackage parseVersion lock (packageEntries displayVersion p))
        lock).scopeTrust = lock.scopeTrust := by
    intro ps
    induction ps with
    | nil => intro lock _; rfl
    | cons p ps ih =>
      intro lock hps
      rw [List.foldl_cons, ih _ fun q hq => hps q (List.mem_cons_of_mem p hq)]
      exact (readPackage_pins (hversion p (hps p List.mem_cons_self)) lock).scopeTrust
  exact hframe _ .empty fun p hp => ((mem_sorted locked).mp hp).1

theorem scopes_frame {β : Type} (get : Lock → β)
    (hscope : ∀ lock lock' scope trust, TrustOf lock lock' scope trust → get lock' = get lock)
    (lock : Lock) :
    get ((scopeTrust.entries.map fun e => scopeEntries e.1 e.2).foldl readScope lock) = get lock := by
  rw [List.foldl_map]
  induction scopeTrust.entries generalizing lock with
  | nil => rfl
  | cons e es ih =>
    rw [List.foldl_cons, ih]
    exact hscope _ _ _ _ (readScope_trust lock e.1 e.2)

theorem lookup_scopes (lock : Lock) (hlock : lock.scopeTrust = ∅) (k : String) :
    ((scopeTrust.entries.map fun e => scopeEntries e.1 e.2).foldl readScope lock).scopeTrust.lookup
      k = scopeTrust.lookup k := by
  rw [List.foldl_map]
  have hfold := foldl_overwrite (fun lock (e : Sigma fun _ : String => ScopeTrust) =>
      readScope lock (scopeEntries e.1 e.2)) (fun lock k => lock.scopeTrust.lookup k)
    (fun e => [(e.1, e.2)]) scopeTrust.entries
    (fun e _ lock k => (readScope_trust lock e.1 e.2).scopeTrust k) lock k
  rw [hfold, hlock, AList.lookup_empty, Option.or_none]
  cases hl : scopeTrust.lookup k with
  | none =>
    apply lastAt_eq_none
    intro row hrow heq
    obtain ⟨e, he, hrow⟩ := List.mem_flatMap.mp hrow
    rw [List.mem_singleton.mp hrow] at heq
    subst heq
    rw [AList.mem_lookup_iff.mpr he] at hl
    cases hl
  | some trust =>
    have hmem : (⟨k, trust⟩ : Sigma fun _ : String => ScopeTrust) ∈ scopeTrust.entries :=
      AList.mem_lookup_iff.mp hl
    apply lastAt_of_agree
    · exact List.mem_flatMap.mpr ⟨_, hmem, List.mem_singleton.mpr rfl⟩
    · intro w hw
      obtain ⟨e, he, hrow⟩ := List.mem_flatMap.mp hw
      obtain ⟨rfl, rfl⟩ := Prod.mk.inj (List.mem_singleton.mp hrow)
      have := AList.mem_lookup_iff.mpr he
      rw [hl] at this
      exact (Option.some.inj this).symm

/-- Under distinct identities, what is pinned for one is what its package says. -/
theorem lastAt_packages {β : Type} (hnodup : (locked.map (·.identity)).Nodup)
    (g : LockedPackage → Option β) (identity : String) :
    lastAt identity ((sorted locked).flatMap fun p => (g p).toList.map fun b => (p.identity, b)) =
      ((locked.filter (!·.patched)).find? (·.identity = identity)).bind g := by
  have hrow : ∀ row ∈ (sorted locked).flatMap
      (fun p => (g p).toList.map fun b => (p.identity, b)), ∃ p ∈ sorted locked,
        p.identity = row.1 ∧ g p = some row.2 := by
    intro row hrow
    obtain ⟨p, hp, hrow⟩ := List.mem_flatMap.mp hrow
    obtain ⟨b, hb, rfl⟩ := List.mem_map.mp hrow
    exact ⟨p, hp, rfl, by simpa using hb⟩
  cases hfind : (locked.filter (!·.patched)).find? (·.identity = identity) with
  | none =>
    apply lastAt_eq_none
    intro row hmem heq
    obtain ⟨p, hp, hid, _⟩ := hrow row hmem
    obtain ⟨hp, hpatched⟩ := (mem_sorted locked).mp hp
    have := List.find?_eq_none.mp hfind p (List.mem_filter.mpr ⟨hp, by simp [hpatched]⟩)
    simp [hid, heq] at this
  | some p =>
    have hid : p.identity = identity := by simpa using List.find?_some hfind
    obtain ⟨hp, hpatched⟩ := List.mem_filter.mp (List.mem_of_find?_eq_some hfind)
    have hsame : ∀ q ∈ sorted locked, q.identity = identity → q = p := by
      intro q hq hqid
      exact List.inj_on_of_nodup_map hnodup ((mem_sorted locked).mp hq).1 hp (hqid.trans hid.symm)
    have hmem : p ∈ sorted locked := (mem_sorted locked).mpr ⟨hp, by simpa using hpatched⟩
    rw [Option.bind_some]
    cases hg : g p with
    | none =>
      apply lastAt_eq_none
      intro row hr heq
      obtain ⟨q, hq, hqid, hqg⟩ := hrow row hr
      rw [hsame q hq (hqid.trans heq), hg] at hqg
      cases hqg
    | some b =>
      apply lastAt_of_agree
      · refine List.mem_flatMap.mpr ⟨p, hmem, ?_⟩
        rw [hg, hid]
        simp
      · intro w hw
        obtain ⟨q, hq, hqid, hqg⟩ := hrow _ hw
        rw [hsame q hq hqid, hg] at hqg
        exact (Option.some.inj hqg).symm

end Pinned

end File

/-! ## The round trip -/

/-- The pins of `lock` are those of the packages, trust roots and heads it was written from. -/
structure RoundTrips (lock : Lock) (locked : List LockedPackage)
    (scopeTrust : Map String ScopeTrust) (logTrust : Option LogTrust)
    (advisoryTrust : Option AdvisoryTrust) : Prop where
  versions : ∀ identity, lock.lockedVersion identity =
    ((locked.filter (!·.patched)).find? (·.identity = identity)).map (·.version)
  hashes : ∀ identity, lock.contentHash identity =
    ((locked.filter (!·.patched)).find? (·.identity = identity)).map (·.contentHash)
  coords : ∀ identity, lock.registryCoords identity =
    ((locked.filter (!·.patched)).find? (·.identity = identity)).bind (·.source.coords)
  gitPins : ∀ p ∈ locked, p.patched = false → ∀ url gitRef sha,
    p.source = .git url gitRef sha → lock.gitPin url gitRef = some sha
  gitPins_only : ∀ url gitRef sha, lock.gitPin url gitRef = some sha →
    ∃ p ∈ locked, p.patched = false ∧ p.source = .git url gitRef sha
  scopeTrust : ∀ k, lock.scopeTrust.lookup k = scopeTrust.lookup k
  logTrust : lock.logTrust = logTrust
  advisoryTrust : lock.advisoryTrust = advisoryTrust

/-- No control character but the tab. -/
def Printable (s : String) : Prop := ∀ c ∈ s.toList, Toml.isControl c = false

instance (s : String) : Decidable (Printable s) :=
  List.decidableBAll (Toml.isControl · = false) s.toList

def ResolvedSource.strings : ResolvedSource → List String
  | .path p => [p]
  | .git url (.tag tag) sha => [url, tag, sha]
  | .git url (.branch branch) sha => [url, branch, sha]
  | .git url .head sha => [url, sha]

/-- The strings a package's section quotes. -/
def LockedPackage.strings (displayVersion : Version → String) (p : LockedPackage) : List String :=
  [p.identity, displayVersion p.version] ++ p.source.strings ++ p.native.toList ++ [p.contentHash]

def ScopeTrust.strings : ScopeTrust → List String
  | .key publicKey => [publicKey]
  | .keyless issuer identity => [issuer, identity]

/-- Every string that is written is printable and every number fits in 63 bits. -/
structure Writable (displayVersion : Version → String) (locked : List LockedPackage)
    (scopeTrust : Map String ScopeTrust) (logTrust : Option LogTrust)
    (advisoryTrust : Option AdvisoryTrust) : Prop where
  packages : ∀ p ∈ locked, p.patched = false → ∀ s ∈ p.strings displayVersion, Printable s
  scopes : ∀ e ∈ scopeTrust.entries, Printable e.1 ∧ ∀ s ∈ e.2.strings, Printable s
  log : ∀ log ∈ logTrust,
    Printable log.publicKey ∧ log.treeSize.toNat < 2 ^ 63 ∧ Printable log.rootHash
  advisory : ∀ adv ∈ advisoryTrust,
    Printable adv.publicKey ∧ adv.count.toNat < 2 ^ 63 ∧ Printable adv.digest

/-- Packages from one git ref carry one commit. -/
def PinsAgree (locked : List LockedPackage) : Prop :=
  ∀ p ∈ locked, p.patched = false → ∀ q ∈ locked, q.patched = false → ∀ url gitRef sha sha',
    p.source = .git url gitRef sha → q.source = .git url gitRef sha' → sha = sha'

theorem readable_package_iff (displayVersion : Version → String) (p : LockedPackage) :
    (∀ e ∈ packageEntries displayVersion p, e.2.Readable) ↔
      ∀ s ∈ p.strings displayVersion, Printable s := by
  have hpath : (Toml.Value.str "path").Readable := by decide
  have hgit : (Toml.Value.str "git").Readable := by decide
  have hedition : (Toml.Value.str Edition.e2026.asStr).Readable := by decide
  obtain ⟨identity, version, contentHash, source, native, ⟨⟩, patched⟩ := p
  rcases source with path | ⟨url, tag | branch | _, sha⟩ <;> cases native <;>
    simp only [packageEntries, sourceEntries, LockedPackage.strings, ResolvedSource.strings,
      Option.toList_none, Option.toList_some, List.map_cons, List.map_nil, List.cons_append,
      List.nil_append, List.forall_mem_cons, List.not_mem_nil, false_implies, implies_true, hpath, hgit, hedition, and_true,
      true_and] <;> rfl

theorem readable_scope_iff (scope : String) (trust : ScopeTrust) :
    (∀ e ∈ scopeEntries scope trust, e.2.Readable) ↔
      Printable scope ∧ ∀ s ∈ trust.strings, Printable s := by
  cases trust <;>
    simp only [scopeEntries, ScopeTrust.strings, List.forall_mem_cons, List.not_mem_nil, false_implies, implies_true,
      and_true] <;> rfl

theorem readable_lockDocument_iff (displayVersion : Version → String)
    (locked : List LockedPackage) (scopeTrust : Map String ScopeTrust)
    (logTrust : Option LogTrust) (advisoryTrust : Option AdvisoryTrust) :
    (lockDocument displayVersion locked scopeTrust logTrust advisoryTrust).Readable ↔
      Writable displayVersion locked scopeTrust logTrust advisoryTrust := by
  have hlog : ∀ log : LogTrust, (∀ e ∈ logEntries log, e.2.Readable) ↔
      Printable log.publicKey ∧ log.treeSize.toNat < 2 ^ 63 ∧ Printable log.rootHash := by
    intro log
    simp only [logEntries, List.forall_mem_cons, List.not_mem_nil, false_implies, implies_true, and_true]
    rfl
  have hadv : ∀ adv : AdvisoryTrust, (∀ e ∈ advisoryEntries adv, e.2.Readable) ↔
      Printable adv.publicKey ∧ adv.count.toNat < 2 ^ 63 ∧ Printable adv.digest := by
    intro adv
    simp only [advisoryEntries, List.forall_mem_cons, List.not_mem_nil, false_implies, implies_true, and_true]
    rfl
  constructor
  · intro h
    have hsection := h.2
    simp only [lockDocument, List.mem_append, List.mem_map, Option.mem_toList] at hsection
    refine ⟨?_, ?_, ?_, ?_⟩
    · intro p hp hpatched
      rw [← readable_package_iff]
      exact hsection _ (.inl (.inl (.inl ⟨p, (mem_sorted locked).mpr ⟨hp, hpatched⟩, rfl⟩)))
    · intro e he
      rw [← readable_scope_iff]
      exact hsection _ (.inl (.inl (.inr ⟨e, he, rfl⟩)))
    · intro log hmem
      rw [← hlog]
      exact hsection _ (.inl (.inr ⟨log, hmem, rfl⟩))
    · intro adv hmem
      rw [← hadv]
      exact hsection _ (.inr ⟨adv, hmem, rfl⟩)
  · intro h
    refine ⟨by simp [lockDocument, Toml.Value.Readable, lockVersion], ?_⟩
    intro s hs
    obtain ⟨p, hp, rfl⟩ | ⟨e, he, rfl⟩ | ⟨log, hmem, rfl⟩ | ⟨adv, hmem, rfl⟩ :=
      section_cases displayVersion locked scopeTrust logTrust advisoryTrust hs
    · obtain ⟨hp, hpatched⟩ := (mem_sorted locked).mp hp
      exact (readable_package_iff displayVersion p).mpr (h.packages p hp hpatched)
    · exact (readable_scope_iff e.1 e.2).mpr (h.scopes e he)
    · exact (hlog log).mpr (h.log log hmem)
    · exact (hadv adv).mpr (h.advisory adv hmem)

theorem lockKey_injective : Function.Injective GitRef.lockKey := by
  have htag : ∀ t, (GitRef.tag t).lockKey.toList = ['t', 'a', 'g', ':'] ++ t.toList := by
    intro t
    rw [GitRef.lockKey, String.toList_append]
    rfl
  have hbranch : ∀ b,
      (GitRef.branch b).lockKey.toList = ['b', 'r', 'a', 'n', 'c', 'h', ':'] ++ b.toList := by
    intro b
    rw [GitRef.lockKey, String.toList_append]
    rfl
  have hhead : GitRef.head.lockKey.toList = ['h', 'e', 'a', 'd'] := by decide
  intro a b h
  have hlist := congrArg String.toList h
  cases a <;> cases b <;> simp [htag, hbranch, hhead, String.toList_inj] at hlist ⊢
  · exact hlist
  · exact hlist

section RoundTrip

variable {displayVersion : Version → String} {parseVersion : String → Option Version}
  {locked : List LockedPackage} {scopeTrust : Map String ScopeTrust}
  {logTrust : Option LogTrust} {advisoryTrust : Option AdvisoryTrust}

theorem read_render_of_not_writable
    (h : ¬ Writable displayVersion locked scopeTrust logTrust advisoryTrust) :
    read parseVersion (render displayVersion locked scopeTrust logTrust advisoryTrust) =
      .empty := by
  rw [← readable_lockDocument_iff] at h
  rw [read, parse_render, if_neg h]

variable (hversion : ∀ p ∈ locked, parseVersion (displayVersion p.version) = some p.version)
include hversion

theorem lookup_pinned_scopeTrust (k : String) :
    (pinned displayVersion parseVersion locked scopeTrust).scopeTrust.lookup k =
      scopeTrust.lookup k :=
  lookup_scopes scopeTrust _ (packages_scopeTrust locked hversion) k

theorem read_render_of_writable (hkeyless : KeylessByPackage scopeTrust)
    (h : Writable displayVersion locked scopeTrust logTrust advisoryTrust) :
    read parseVersion (render displayVersion locked scopeTrust logTrust advisoryTrust) =
      { pinned displayVersion parseVersion locked scopeTrust with
        logTrust := logTrust
        advisoryTrust := advisoryTrust } := by
  rw [← readable_lockDocument_iff] at h
  have hroot : Toml.getInt
      (lockDocument displayVersion locked scopeTrust logTrust advisoryTrust).root "version" =
        some lockVersion := by
    simp [lockDocument, Toml.getInt]
  have hmigrate : (pinned displayVersion parseVersion locked scopeTrust).migrateLegacyKeylessPins =
      pinned displayVersion parseVersion locked scopeTrust := by
    apply migrateLegacyKeylessPins_eq
    intro k issuer identity hk
    rw [lookup_pinned_scopeTrust hversion] at hk
    exact hkeyless k issuer identity hk
  have hlog : (logTrust.map logEntries).bind readLog = logTrust := by
    cases logTrust with
    | none => rfl
    | some log => exact readLog_logEntries
  have hadvisory : (advisoryTrust.map advisoryEntries).bind readAdvisory = advisoryTrust := by
    cases advisoryTrust with
    | none => rfl
    | some adv => exact readAdvisory_advisoryEntries
  rw [read, parse_render, if_pos h]
  simp only [hroot, ne_eq, not_true_eq_false, if_false, array_package, array_scope, table_log,
    table_advisory, hlog, hadvisory]
  rw [show (scopeTrust.entries.map fun e => scopeEntries e.1 e.2).foldl readScope
    (((sorted locked).map (packageEntries displayVersion)).foldl (readPackage parseVersion) .empty) =
      pinned displayVersion parseVersion locked scopeTrust from rfl, hmigrate]

theorem lookup_pinned {κ β : Type} [DecidableEq κ] (get : Lock → Map κ β)
    (rows : LockedPackage → List (κ × β))
    (hpins : ∀ lock lock' p, PinsOf lock lock' p →
      ∀ k, (get lock').lookup k = (lastAt k (rows p)).or ((get lock).lookup k))
    (hscope : ∀ lock lock' scope trust, TrustOf lock lock' scope trust → get lock' = get lock)
    (hempty : get .empty = ∅) (k : κ) :
    (get (pinned displayVersion parseVersion locked scopeTrust)).lookup k =
      lastAt k ((sorted locked).flatMap rows) := by
  rw [pinned, scopes_frame scopeTrust get hscope]
  exact lookup_packages locked hversion get rows hpins hempty k

theorem lookup_pinned_gitPins (url : String) (gitRef : GitRef) :
    (pinned displayVersion parseVersion locked scopeTrust).gitPin url gitRef =
      lastAt (url, gitRef.lockKey) ((sorted locked).flatMap fun p => p.source.gitRows) :=
  lookup_pinned hversion Lock.gitPins _ (fun _ _ _ h => h.gitPins) (fun _ _ _ _ h => h.gitPins) rfl _

omit hversion in
theorem mem_gitRows {ps : List LockedPackage} {url sha : String} {gitRef : GitRef} :
    ((url, gitRef.lockKey), sha) ∈ ps.flatMap (fun p => p.source.gitRows) ↔
      ∃ p ∈ ps, p.source = .git url gitRef sha := by
  rw [List.mem_flatMap]
  constructor
  · intro ⟨p, hp, hrow⟩
    refine ⟨p, hp, ?_⟩
    cases hs : p.source with
    | path path => simp [hs, ResolvedSource.gitRows] at hrow
    | git url' gitRef' sha' =>
      rw [hs, ResolvedSource.gitRows, List.mem_singleton] at hrow
      obtain ⟨hpair, rfl⟩ := Prod.mk.inj hrow
      obtain ⟨rfl, hkey⟩ := Prod.mk.inj hpair
      rw [lockKey_injective hkey]
  · intro ⟨p, hp, hs⟩
    refine ⟨p, hp, ?_⟩
    rw [hs, ResolvedSource.gitRows]
    exact List.mem_singleton.mpr rfl

theorem lookup_pinned_versions (hnodup : (locked.map (·.identity)).Nodup) (identity : String) :
    (pinned displayVersion parseVersion locked scopeTrust).lockedVersion identity =
      ((locked.filter (!·.patched)).find? (·.identity = identity)).map (·.version) := by
  apply (lookup_pinned hversion Lock.versions
    (fun p => (some p.version).toList.map fun b => (p.identity, b))
    (fun _ _ _ h => h.versions) (fun _ _ _ _ h => h.versions) rfl identity).trans
  rw [lastAt_packages locked hnodup]
  exact Option.map_eq_bind.symm

theorem lookup_pinned_coords (hnodup : (locked.map (·.identity)).Nodup) (identity : String) :
    (pinned displayVersion parseVersion locked scopeTrust).registryCoords identity =
      ((locked.filter (!·.patched)).find? (·.identity = identity)).bind (·.source.coords) := by
  apply (lookup_pinned hversion Lock.coords
    (fun p => p.source.coords.toList.map fun b => (p.identity, b))
    (fun _ _ _ h => h.coords) (fun _ _ _ _ h => h.coords) rfl identity).trans
  rw [lastAt_packages locked hnodup]

theorem roundTrips_pinned (hnodup : (locked.map (·.identity)).Nodup) (hagree : PinsAgree locked) :
    RoundTrips { pinned displayVersion parseVersion locked scopeTrust with
      logTrust := logTrust
      advisoryTrust := advisoryTrust } locked scopeTrust logTrust advisoryTrust where
  versions := lookup_pinned_versions hversion hnodup
  hashes identity := by
    apply (lookup_pinned hversion Lock.hashes
      (fun p => (some p.contentHash).toList.map fun b => (p.identity, b))
      (fun _ _ _ h => h.hashes) (fun _ _ _ _ h => h.hashes) rfl identity).trans
    rw [lastAt_packages locked hnodup]
    exact Option.map_eq_bind.symm
  coords := lookup_pinned_coords hversion hnodup
  gitPins p hp hpatched url gitRef sha hs := by
    show (pinned displayVersion parseVersion locked scopeTrust).gitPin url gitRef = some sha
    rw [lookup_pinned_gitPins hversion]
    apply lastAt_of_agree
    · exact mem_gitRows.mpr ⟨p, (mem_sorted locked).mpr ⟨hp, hpatched⟩, hs⟩
    · intro w hw
      obtain ⟨q, hq, hqs⟩ := mem_gitRows.mp hw
      obtain ⟨hq, hqpatched⟩ := (mem_sorted locked).mp hq
      exact hagree q hq hqpatched p hp hpatched url gitRef w sha hqs hs
  gitPins_only url gitRef sha h := by
    have h : (pinned displayVersion parseVersion locked scopeTrust).gitPin url gitRef = some sha := h
    rw [lookup_pinned_gitPins hversion] at h
    obtain ⟨p, hp, hs⟩ := mem_gitRows.mp (lastAt_mem h)
    obtain ⟨hp, hpatched⟩ := (mem_sorted locked).mp hp
    exact ⟨p, hp, hpatched, hs⟩
  scopeTrust k := lookup_pinned_scopeTrust hversion k
  logTrust := rfl
  advisoryTrust := rfl

omit hversion in
theorem migrateLegacyKeylessPins_frame (lock : Lock) :
    lock.migrateLegacyKeylessPins.versions = lock.versions ∧
      lock.migrateLegacyKeylessPins.coords = lock.coords := by
  unfold Lock.migrateLegacyKeylessPins
  induction lock.legacyKeyless generalizing lock with
  | nil => exact ⟨rfl, rfl⟩
  | cons scope scopes ih =>
    rw [List.foldl_cons]
    refine ⟨(ih _).1.trans ?_, (ih _).2.trans ?_⟩
    · split
      · split <;> rfl
      · rfl
    · split
      · split <;> rfl
      · rfl

theorem read_render_pins (hnodup : (locked.map (·.identity)).Nodup) :
    read parseVersion (render displayVersion locked scopeTrust logTrust advisoryTrust) = .empty ∨
      ∀ identity,
        (read parseVersion (render displayVersion locked scopeTrust logTrust
          advisoryTrust)).lockedVersion identity =
            ((locked.filter (!·.patched)).find? (·.identity = identity)).map (·.version) ∧
        (read parseVersion (render displayVersion locked scopeTrust logTrust
          advisoryTrust)).registryCoords identity =
            ((locked.filter (!·.patched)).find? (·.identity = identity)).bind (·.source.coords) := by
  by_cases h : Writable displayVersion locked scopeTrust logTrust advisoryTrust
  · right
    intro identity
    rw [← readable_lockDocument_iff] at h
    have hroot : Toml.getInt
        (lockDocument displayVersion locked scopeTrust logTrust advisoryTrust).root "version" =
          some lockVersion := by
      simp [lockDocument, Toml.getInt]
    rw [read, parse_render, if_pos h]
    simp only [hroot, ne_eq, not_true_eq_false, if_false, array_package, array_scope]
    rw [show (scopeTrust.entries.map fun e => scopeEntries e.1 e.2).foldl readScope
      (((sorted locked).map (packageEntries displayVersion)).foldl (readPackage parseVersion)
        .empty) = pinned displayVersion parseVersion locked scopeTrust from rfl]
    obtain ⟨hv, hc⟩ := migrateLegacyKeylessPins_frame
      (pinned displayVersion parseVersion locked scopeTrust)
    constructor
    · exact (congrArg (AList.lookup identity) hv).trans
        (lookup_pinned_versions hversion hnodup identity)
    · exact (congrArg (AList.lookup identity) hc).trans
        (lookup_pinned_coords hversion hnodup identity)
  · exact Or.inl (read_render_of_not_writable h)

/-- What is written reads back as the pins it was written from exactly if all of it can be read and
packages from one git ref carry one commit. -/
theorem read_render_roundTrips_iff (hnodup : (locked.map (·.identity)).Nodup)
    (hkeyless : KeylessByPackage scopeTrust) :
    RoundTrips
        (read parseVersion (render displayVersion locked scopeTrust logTrust advisoryTrust))
        locked scopeTrust logTrust advisoryTrust ↔
      Writable displayVersion locked scopeTrust logTrust advisoryTrust ∧ PinsAgree locked := by
  constructor
  · intro h
    have hagree : PinsAgree locked := by
      intro p hp hpatched q hq hqpatched url gitRef sha sha' hs hs'
      have hpin := h.gitPins p hp hpatched url gitRef sha hs
      rw [h.gitPins q hq hqpatched url gitRef sha' hs'] at hpin
      exact (Option.some.inj hpin).symm
    refine ⟨?_, hagree⟩
    by_contra hbad
    rw [read_render_of_not_writable hbad] at h
    -- The lock is empty, so there was nothing to write, and nothing can be unreadable.
    refine hbad ⟨?_, ?_, ?_, ?_⟩
    · intro p hp hpatched
      have hhash := h.hashes p.identity
      have hfind : ((locked.filter (!·.patched)).find? (·.identity = p.identity)).isSome := by
        rw [List.find?_isSome]
        exact ⟨p, List.mem_filter.mpr ⟨hp, by simp [hpatched]⟩, by simp⟩
      obtain ⟨q, hq⟩ := Option.isSome_iff_exists.mp hfind
      rw [hq] at hhash
      cases hhash
    · intro e he
      have htrust := h.scopeTrust e.1
      rw [AList.mem_lookup_iff.mpr he] at htrust
      cases htrust
    · intro log hlog
      have hnone := h.logTrust
      rw [Option.mem_def.mp hlog] at hnone
      cases hnone
    · intro adv hadv
      have hnone := h.advisoryTrust
      rw [Option.mem_def.mp hadv] at hnone
      cases hnone
  · intro ⟨hwritable, hagree⟩
    rw [read_render_of_writable hversion hkeyless hwritable]
    exact roundTrips_pinned hversion hnodup hagree

end RoundTrip

/-- A tagged release, a keyless pin of it and a log head. -/
def greet : LockedPackage where
  identity := "acme/greet"
  version := Version.new 1 0 0
  contentHash := "deadbeef"
  source := .git "https://example.com/acme/greet" (.tag "v1.0.0") "aa"
  native := none
  edition := .e2026
  patched := false

def greetTrust : Map String ScopeTrust :=
  AList.insert "acme/greet" (.keyless "https://issuer" "https://example.com/release") ∅

theorem read_render_roundTrips_greet :
    RoundTrips
      (read (fun s => if s = "1.0.0" then some (Version.new 1 0 0) else none)
        (render (fun _ => "1.0.0") [greet] greetTrust (some ⟨"ab", 42, "cd"⟩) none))
      [greet] greetTrust (some ⟨"ab", 42, "cd"⟩) none := by
  have hwritable : Writable (fun _ => "1.0.0") [greet] greetTrust (some ⟨"ab", 42, "cd"⟩) none := by
    refine ⟨?_, ?_, ?_, ?_⟩
    · intro p hp _
      rw [List.mem_singleton.mp hp]
      decide
    · decide
    · intro log hlog
      cases hlog
      decide
    · intro adv hadv
      cases hadv
  refine (read_render_roundTrips_iff ?_ ?_ ?_).mpr ⟨hwritable, ?_⟩
  · intro p hp
    rw [List.mem_singleton.mp hp]
    rfl
  · exact List.nodup_singleton _
  · intro k issuer identity hk
    by_cases h : k = "acme/greet"
    · subst h
      decide
    · rw [greetTrust, AList.lookup_insert_ne h] at hk
      cases hk
  · intro p hp _ q hq _ url gitRef sha sha' hs hs'
    rw [List.mem_singleton.mp hp] at hs
    rw [List.mem_singleton.mp hq] at hs'
    cases hs
    cases hs'
    rfl

/-- A log head of `2 ^ 63` leaves is written, and the file then reads as empty. -/
theorem read_render_loses_log :
    ¬ RoundTrips
        (read (fun s => if s = "1.0.0" then some (Version.new 1 0 0) else none)
          (render (fun _ => "1.0.0") [greet] ∅ (some ⟨"ab", 9223372036854775808, "cd"⟩) none))
        [greet] ∅ (some ⟨"ab", 9223372036854775808, "cd"⟩) none := by
  intro h
  have hbad : ¬ Writable (fun _ => "1.0.0") [greet] ∅ (some ⟨"ab", 9223372036854775808, "cd"⟩)
      none := by
    intro hw
    exact absurd (hw.log _ rfl).2.1 (by decide)
  rw [read_render_of_not_writable hbad] at h
  cases h.logTrust

end Noeta.Pm.Lockfile
