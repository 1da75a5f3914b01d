import Noeta.Pm.Graph
import Noeta.Pm.LockRoundTrip

/-!
# Legacy keyless pins

Reading a lock moves the keyless pin of a bare scope onto the one package the lock records in that scope.
The packages are counted by their versions, and an entry whose version cannot be read is recorded
without one: such a package loses the scope's pin.
-/

namespace Noeta.Pm

open Noeta.Lib Semver Lockfile

/-! ## Scopes -/

theorem scopeOf_eq_self_iff (s : String) : scopeOf s = s ↔ '/' ∉ s.toList := by
  rw [scopeOf, ← String.toList_inj, String.toList_ofList, List.takeWhile_eq_self_iff]
  constructor
  · intro h hmem
    simpa using h '/' hmem
  · intro h c hc
    have hne : c ≠ '/' := by
      rintro rfl
      exact h hc
    simpa using hne

theorem scopeOf_scopeOf (s : String) : scopeOf (scopeOf s) = scopeOf s := by
  rw [scopeOf_eq_self_iff, scopeOf, String.toList_ofList]
  intro hmem
  simpa using List.mem_takeWhile_imp hmem

theorem scopeOf_eq_iff (identity scope : String) :
    scopeOf identity = scope ↔ identity.toList.takeWhile (· ≠ '/') = scope.toList := by
  rw [scopeOf, ← String.toList_inj, String.toList_ofList]

namespace Lockfile.Lock

/-! ## One scope -/

/-- The identities of a scope whose version the lock records. -/
def inScope (lock : Lock) (scope : String) : List String :=
  lock.versions.keys.filter fun identity => identity.toList.takeWhile (· ≠ '/') = scope.toList

theorem scopeOf_of_mem_inScope {lock : Lock} {scope identity : String}
    (h : identity ∈ lock.inScope scope) : scopeOf identity = scope := by
  rw [scopeOf_eq_iff]
  simpa using (List.mem_filter.mp h).2

/-- The migration of one legacy scope. -/
def migrateScope (lock : Lock) (scope : String) : Lock :=
  match lock.inScope scope with
  | [only] =>
    match lock.scopeTrust.lookup scope with
    | some trust =>
      let rest := lock.scopeTrust.erase scope
      { lock with scopeTrust := if only ∈ rest then rest else rest.insert only trust }
    | none => lock
  | _ => lock

theorem migrateLegacyKeylessPins_foldl (lock : Lock) :
    lock.migrateLegacyKeylessPins = lock.legacyKeyless.foldl migrateScope lock := rfl

theorem migrateScope_frame (lock : Lock) (scope : String) :
    lock.migrateScope scope =
      { lock with scopeTrust := (lock.migrateScope scope).scopeTrust } := by
  unfold migrateScope
  split
  · split <;> rfl
  · rfl

theorem migrateScope_versions (lock : Lock) (scope : String) :
    (lock.migrateScope scope).versions = lock.versions := by
  rw [migrateScope_frame]

theorem inScope_migrateScope (lock : Lock) (scope s : String) :
    (lock.migrateScope scope).inScope s = lock.inScope s := by
  rw [inScope, inScope, migrateScope_versions]

/-- The pin of `k` once the pin of `scope` has moved onto `only`. -/
def pinAfter (pin : String → Option ScopeTrust) (scope only k : String) : Option ScopeTrust :=
  let left := if k = scope then none else pin k
  if k = only then left.or (pin scope) else left

theorem lookup_insertIfAbsent (m : Map String ScopeTrust) (only k : String) (trust : ScopeTrust) :
    (if only ∈ m then m else m.insert only trust).lookup k =
      if k = only then (m.lookup k).or (some trust) else m.lookup k := by
  by_cases hk : k = only
  · subst hk
    rw [if_pos rfl]
    by_cases hmem : k ∈ m
    · obtain ⟨pin, hpin⟩ := Option.isSome_iff_exists.mp (AList.lookup_isSome.mpr hmem)
      rw [if_pos hmem, hpin, Option.some_or]
    · rw [if_neg hmem, AList.lookup_insert, AList.lookup_eq_none.mpr hmem, Option.none_or]
  · rw [if_neg hk]
    split
    · rfl
    · exact AList.lookup_insert_ne hk

theorem lookup_migrateScope_of_only {lock : Lock} {scope only : String}
    (hscope : scope ∈ lock.scopeTrust) (honly : lock.inScope scope = [only]) (k : String) :
    (lock.migrateScope scope).scopeTrust.lookup k =
      pinAfter lock.scopeTrust.lookup scope only k := by
  obtain ⟨trust, htrust⟩ := Option.isSome_iff_exists.mp (AList.lookup_isSome.mpr hscope)
  have herase : (lock.scopeTrust.erase scope).lookup k =
      if k = scope then none else lock.scopeTrust.lookup k := by
    by_cases hk : k = scope
    · rw [if_pos hk, hk, AList.lookup_erase]
    · rw [if_neg hk, AList.lookup_erase_ne hk]
  rw [migrateScope, honly, htrust, lookup_insertIfAbsent, pinAfter, herase, htrust]

theorem migrateScope_of_not_only {lock : Lock} {scope : String}
    (h : ∀ only, lock.inScope scope ≠ [only]) : lock.migrateScope scope = lock := by
  rw [migrateScope]
  split
  · rename_i only honly
    exact absurd honly (h only)
  · rfl

theorem lookup_migrateScope_of_ne {lock : Lock} {scope k : String} (hbare : scopeOf scope = scope)
    (hk : scopeOf k ≠ scope) :
    (lock.migrateScope scope).scopeTrust.lookup k = lock.scopeTrust.lookup k := by
  rw [migrateScope]
  split
  · rename_i only honly
    have honlyScope : scopeOf only = scope := by
      apply scopeOf_of_mem_inScope
      rw [honly]
      exact List.mem_singleton_self only
    have hne_only : k ≠ only := by
      intro h
      exact hk (h ▸ honlyScope)
    have hne_scope : k ≠ scope := by
      intro h
      exact hk (h ▸ hbare)
    split
    · rw [lookup_insertIfAbsent, if_neg hne_only, AList.lookup_erase_ne hne_scope]
    · rfl
  · rfl

theorem lookup_migrateScope_congr {lock lock' : Lock} {scope k : String}
    (hbare : scopeOf scope = scope) (hk : scopeOf k = scope)
    (hin : lock'.inScope scope = lock.inScope scope)
    (hpins : ∀ i, scopeOf i = scope → lock'.scopeTrust.lookup i = lock.scopeTrust.lookup i) :
    (lock'.migrateScope scope).scopeTrust.lookup k =
      (lock.migrateScope scope).scopeTrust.lookup k := by
  have hsame := hpins scope hbare
  have hmem : scope ∈ lock'.scopeTrust ↔ scope ∈ lock.scopeTrust := by
    rw [← AList.lookup_isSome, hsame, AList.lookup_isSome]
  by_cases honly : ∃ only, lock.inScope scope = [only]
  · obtain ⟨only, honly⟩ := honly
    by_cases hscope : scope ∈ lock.scopeTrust
    · rw [lookup_migrateScope_of_only hscope honly,
        lookup_migrateScope_of_only (hmem.mpr hscope) (hin.trans honly)]
      simp only [pinAfter, hsame, hpins k hk]
    · have hnone := AList.lookup_eq_none.mpr hscope
      rw [migrateScope, migrateScope, hin, honly, hsame, hnone]
      exact hpins k hk
  · have hnot : ∀ only, lock.inScope scope ≠ [only] := fun only h => honly ⟨only, h⟩
    rw [migrateScope_of_not_only hnot, migrateScope_of_not_only fun only h => hnot only (hin ▸ h)]
    exact hpins k hk

/-! ## Every scope -/

theorem mem_legacyKeyless {lock : Lock} {scope : String} :
    scope ∈ lock.legacyKeyless ↔
      scopeOf scope = scope ∧ (lock.scopeTrust.lookup scope).any ScopeTrust.isKeyless = true := by
  rw [legacyKeyless, List.mem_filter, scopeOf_eq_self_iff, ← AList.mem_keys, Bool.and_eq_true,
    Bool.not_eq_true', List.contains_eq_mem, decide_eq_false_iff_not]
  constructor
  · rintro ⟨-, hbare, hkeyless⟩
    exact ⟨hbare, hkeyless⟩
  · rintro ⟨hbare, hkeyless⟩
    refine ⟨?_, hbare, hkeyless⟩
    cases hpin : lock.scopeTrust.lookup scope with
    | none =>
      rw [hpin] at hkeyless
      cases hkeyless
    | some trust => exact AList.lookup_isSome.mp (Option.isSome_of_eq_some hpin)

theorem lookup_foldl_migrateScope (k : String) (scopes : List String) (lock : Lock)
    (hbare : ∀ s ∈ scopes, scopeOf s = s) (hnodup : scopes.Nodup) :
    (scopes.foldl migrateScope lock).scopeTrust.lookup k =
      if scopeOf k ∈ scopes then (lock.migrateScope (scopeOf k)).scopeTrust.lookup k
      else lock.scopeTrust.lookup k := by
  induction scopes generalizing lock with
  | nil => rw [List.foldl_nil, if_neg List.not_mem_nil]
  | cons s scopes ih =>
    have hs := hbare s List.mem_cons_self
    obtain ⟨hnot, hnodup⟩ := List.nodup_cons.mp hnodup
    rw [List.foldl_cons, ih _ (fun s hs => hbare s (List.mem_cons_of_mem _ hs)) hnodup]
    by_cases heq : scopeOf k = s
    · rw [heq, if_neg hnot, if_pos List.mem_cons_self]
    · have hother : ∀ i, scopeOf i = scopeOf k →
          (lock.migrateScope s).scopeTrust.lookup i = lock.scopeTrust.lookup i := by
        intro i hi
        exact lookup_migrateScope_of_ne hs (hi ▸ heq)
      simp only [List.mem_cons, heq, false_or]
      split
      · exact lookup_migrateScope_congr (scopeOf_scopeOf k) rfl (inScope_migrateScope lock s _) hother
      · exact hother k rfl

theorem lookup_migrateLegacyKeylessPins (lock : Lock) (k : String) :
    lock.migrateLegacyKeylessPins.scopeTrust.lookup k =
      if scopeOf k ∈ lock.legacyKeyless then (lock.migrateScope (scopeOf k)).scopeTrust.lookup k
      else lock.scopeTrust.lookup k := by
  rw [migrateLegacyKeylessPins_foldl]
  apply lookup_foldl_migrateScope
  · intro s hs
    exact (mem_legacyKeyless.mp hs).1
  · exact lock.scopeTrust.nodupKeys.filter _

theorem inScope_migrateLegacyKeylessPins (lock : Lock) (scope : String) :
    lock.migrateLegacyKeylessPins.inScope scope = lock.inScope scope := by
  rw [inScope, inScope, (migrateLegacyKeylessPins_frame lock).1]

/-- The keyless pin of `scope` moves onto `only`. -/
structure Moves (lock : Lock) (scope only : String) : Prop where
  legacy : scope ∈ lock.legacyKeyless
  unique : lock.inScope scope = [only]
  ne : only ≠ scope

theorem lookup_of_moves {lock : Lock} {scope only k : String} (h : lock.Moves scope only)
    (hk : scopeOf k = scope) :
    lock.migrateLegacyKeylessPins.scopeTrust.lookup k =
      pinAfter lock.scopeTrust.lookup scope only k := by
  subst hk
  have hmem := AList.mem_keys.mpr (List.mem_filter.mp h.legacy).1
  rw [lookup_migrateLegacyKeylessPins, if_pos h.legacy, lookup_migrateScope_of_only hmem h.unique]

theorem lookup_of_not_moves {lock : Lock} {k : String} (h : ∀ only, ¬ lock.Moves (scopeOf k) only) :
    lock.migrateLegacyKeylessPins.scopeTrust.lookup k = lock.scopeTrust.lookup k := by
  rw [lookup_migrateLegacyKeylessPins]
  split
  · rename_i hlegacy
    by_cases honly : ∃ only, lock.inScope (scopeOf k) = [only]
    · obtain ⟨only, honly⟩ := honly
      -- the one package is named like its scope, so the pin goes back to where it stood
      have hself : only = scopeOf k := by
        by_contra hne
        exact h only ⟨hlegacy, honly, hne⟩
      have hmem := AList.mem_keys.mpr (List.mem_filter.mp hlegacy).1
      rw [lookup_migrateScope_of_only hmem honly, pinAfter, hself]
      by_cases hk : k = scopeOf k
      · rw [if_pos hk, ← hk, if_pos rfl, Option.none_or]
      · rw [if_neg hk, if_neg hk]
    · rw [migrateScope_of_not_only fun only h => honly ⟨only, h⟩]
  · rfl

theorem not_moves_migrateLegacyKeylessPins (lock : Lock) (scope only : String) :
    ¬ lock.migrateLegacyKeylessPins.Moves scope only := by
  intro ⟨hlegacy, hunique, hne⟩
  rw [inScope_migrateLegacyKeylessPins] at hunique
  obtain ⟨hbare, hkeyless⟩ := mem_legacyKeyless.mp hlegacy
  by_cases hmoves : lock.Moves scope only
  · rw [lookup_of_moves hmoves hbare, pinAfter, if_pos rfl, if_neg (Ne.symm hne)] at hkeyless
    cases hkeyless
  · rw [lookup_of_not_moves] at hkeyless
    · exact hmoves ⟨mem_legacyKeyless.mpr ⟨hbare, hkeyless⟩, hunique, hne⟩
    · intro other hother
      rw [hbare] at hother
      have hsame : [other] = [only] := hother.unique.symm.trans hunique
      rw [List.singleton_inj.mp hsame] at hother
      exact hmoves hother

theorem migrateLegacyKeylessPins_fields (lock : Lock) :
    lock.migrateLegacyKeylessPins =
      { lock with scopeTrust := lock.migrateLegacyKeylessPins.scopeTrust } := by
  rw [migrateLegacyKeylessPins_foldl]
  induction lock.legacyKeyless generalizing lock with
  | nil => rfl
  | cons scope scopes ih =>
    rw [List.foldl_cons, ih (lock.migrateScope scope), migrateScope_frame]

/-- Two locks that answer every question alike. -/
def Same (lock lock' : Lock) : Prop :=
  lock' = { lock with scopeTrust := lock'.scopeTrust } ∧
    ∀ k, lock'.scopeTrust.lookup k = lock.scopeTrust.lookup k

theorem migrateLegacyKeylessPins_idempotent (lock : Lock) :
    Same lock.migrateLegacyKeylessPins lock.migrateLegacyKeylessPins.migrateLegacyKeylessPins :=
  ⟨migrateLegacyKeylessPins_fields _, fun _ =>
    lookup_of_not_moves fun only => not_moves_migrateLegacyKeylessPins lock _ only⟩

/-- Where the pin of a scope moves, every other package of the scope has a pin of its own. -/
def OthersPinned (lock : Lock) : Prop :=
  ∀ scope only, lock.Moves scope only → ∀ identity ∈ lock.hashes, scopeOf identity = scope →
    identity ≠ only → identity ≠ scope ∧ (lock.scopeTrust.lookup identity).isSome

end Lockfile.Lock

/-! ## Trust -/

open Lockfile.Lock

theorem trustFor_of_moves {lock : Lock} {scope only identity : String} (h : lock.Moves scope only)
    (hid : scopeOf identity = scope) :
    trustFor lock.migrateLegacyKeylessPins identity = trustFor lock identity ↔
      (identity ≠ only → identity ≠ scope ∧ (lock.scopeTrust.lookup identity).isSome) := by
  have hbare := (mem_legacyKeyless.mp h.legacy).1
  have hgone : lock.migrateLegacyKeylessPins.scopeTrust.lookup scope = none := by
    rw [lookup_of_moves h hbare, pinAfter, if_pos rfl, if_neg (Ne.symm h.ne)]
  have hpinned : (lock.scopeTrust.lookup scope).isSome :=
    AList.lookup_isSome.mpr (AList.mem_keys.mpr (List.mem_filter.mp h.legacy).1)
  obtain ⟨trust, htrust⟩ := Option.isSome_iff_exists.mp hpinned
  rw [trustFor, trustFor, hid, hgone, Option.or_none, lookup_of_moves h hid, pinAfter, htrust]
  by_cases honly : identity = only
  · have hne : identity ≠ scope := honly ▸ h.ne
    simp only [if_pos honly, if_neg hne, true_iff]
    intro hnot
    exact absurd honly hnot
  · simp only [if_neg honly]
    by_cases hscope : identity = scope
    · subst hscope
      rw [htrust]
      simp [honly]
    · cases hpin : lock.scopeTrust.lookup identity with
      | none => simp [honly, hscope]
      | some pin => simp [hscope]

theorem trustFor_of_not_moves {lock : Lock} {identity : String}
    (h : ∀ only, ¬ lock.Moves (scopeOf identity) only) :
    trustFor lock.migrateLegacyKeylessPins identity = trustFor lock identity := by
  have hscope : ∀ only, ¬ lock.Moves (scopeOf (scopeOf identity)) only := by
    rw [scopeOf_scopeOf]
    exact h
  rw [trustFor, trustFor, lookup_of_not_moves h, lookup_of_not_moves hscope]

/-- A migration changes no trust exactly when the others of each scope have their own pins, and a second
one changes nothing. -/
theorem migration_keeps_trust_iff (lock : Lock) :
    ((∀ identity ∈ lock.hashes,
        trustFor lock.migrateLegacyKeylessPins identity = trustFor lock identity) ∧
      Same lock.migrateLegacyKeylessPins
        lock.migrateLegacyKeylessPins.migrateLegacyKeylessPins) ↔
      lock.OthersPinned := by
  constructor
  · intro ⟨hkeeps, _⟩ scope only hmoves identity hmem hid
    exact (trustFor_of_moves hmoves hid).mp (hkeeps identity hmem)
  · intro hothers
    refine ⟨?_, migrateLegacyKeylessPins_idempotent lock⟩
    intro identity hmem
    by_cases hmoves : ∃ only, lock.Moves (scopeOf identity) only
    · obtain ⟨only, hmoves⟩ := hmoves
      exact (trustFor_of_moves hmoves rfl).mpr (hothers _ only hmoves identity hmem rfl)
    · exact trustFor_of_not_moves fun only h => hmoves ⟨only, h⟩

/-- The version of one of the two packages cannot be read, and the package loses the pin of its scope. -/
theorem migration_drops_pin :
    ¬ ∀ (parseVersion : String → Option Version) (packages scopes : List Toml.Entries),
      let lock := scopes.foldl readScope (packages.foldl (readPackage parseVersion) .empty)
      ∀ identity ∈ lock.hashes,
        trustFor lock.migrateLegacyKeylessPins identity = trustFor lock identity := by
  intro h
  have haria := h (fun s => if s = "1.0.0" then some (Version.new 1 0 0) else none)
    [[("name", .str "para/html"), ("version", .str "1.0.0"), ("hash", .str "aa")],
      [("name", .str "para/aria"), ("version", .str "1.0"), ("hash", .str "bb")]]
    [[("name", .str "para"), ("issuer", .str "https://issuer"),
      ("identity", .str "https://example.com/release")]]
    "para/aria" (by decide +kernel)
  revert haria
  decide +kernel

end Noeta.Pm
