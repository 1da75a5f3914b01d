import Noeta.Hotswap.Diff

/-!
# A hot swap against a cold start

Registering a program fills two tables: functions by name, and bodies by type and method key. A
type's methods are its own and then those it inherits: `hoist_impl_methods_with_registry` of
`noeta-ir/src/lower.rs` appends the methods of standalone impls, the defaults of the traits a type
implements and what its derives plan, each unless its key is taken. The tables only overwrite.

A swap registers the differ's fragment over the old version's tables. It hoists with the traits and
impls the fragment itself holds, and the differ includes a type by looking at that type's own text. So
what a type inherits can be out of date after a swap, and so can the parts of a function that are in
neither its fingerprint nor its body. `diffPrograms_reproduces_iff` says exactly when nothing is.
-/

namespace Noeta.Hotswap

open Noeta.Lib

variable (F : Frontend)

/-! ## Hoisting -/

/-- What hoisting reads of a program beside the type it hoists onto. -/
structure Sources where
  traits : List (String × TraitDecl)
  impls : List ImplDecl

def Stmt.traitRow : Stmt → Option (String × TraitDecl)
  | .traitDecl text => some ((F.traitDecl text).name, F.traitDecl text)
  | _ => none

def Stmt.impl : Stmt → Option ImplDecl
  | .implDecl text => some (F.implDecl text)
  | _ => none

def sources (stmts : List Stmt) : Sources where
  traits := stmts.filterMap (Stmt.traitRow F)
  impls := stmts.filterMap (Stmt.impl F)

/-- The defaults of a trait that `provided` does not override. -/
def omittedDefaults (S : Sources) (traitName : String) (traitArgs : List String)
    (provided : List FnDecl) : List Entry :=
  match lastAt traitName S.traits with
  | none => []
  | some t =>
    match F.instantiateTrait t traitArgs with
    | none => []
    | some methods =>
      (methods.filter fun tm =>
        tm.hasDefault && !provided.any fun m => m.name == tm.sig.name).map fun tm =>
          { decl := tm.sig, conversion := none }

def ownMethods (decl : TypeDecl) : List Entry :=
  (F.typeDecl decl.text).methods.map F.method

/-- `additions`: the methods of the standalone impls on a target, each impl's own ones first. -/
def additions (S : Sources) (target : String) : List Entry :=
  (S.impls.filter fun d => d.target = target).flatMap fun d =>
    d.methods ++ omittedDefaults F S d.traitName d.traitArgs (d.methods.map Entry.decl)

/-- `synthesized`: the defaults of the in-body impls, then what the derives plan. -/
def synthesized (S : Sources) (decl : TypeDecl) : List Entry :=
  ((F.typeDecl decl.text).impls.flatMap fun block =>
      omittedDefaults F S block.traitName block.traitArgs ((ownMethods F decl).map Entry.decl)) ++
    decl.derives.flatMap fun spec =>
      (F.planDerive (lastAt spec.name S.traits) spec decl.text).map fun planned =>
        { decl := planned, conversion := none }

/-- What a type takes from outside its own methods, in the order hoisting offers it. -/
def inherited (S : Sources) (decl : TypeDecl) : List Entry :=
  additions F S (F.typeDecl decl.text).name ++ synthesized F S decl

/-- Push a method unless its key is taken. -/
def addMethod (methods : List Entry) (m : Entry) : List Entry :=
  if methods.any fun existing => existing.key = m.key then methods else methods ++ [m]

def hoisted (S : Sources) (decl : TypeDecl) : List Entry :=
  (inherited F S decl).foldl addMethod (ownMethods F decl)

/-! ## Registration -/

structure Tables where
  fns : String → Option FnDecl
  methods : String × Key → Option FnDecl

def Tables.empty : Tables where
  fns := fun _ => none
  methods := fun _ => none

def Entry.row (e : Entry) : Key × FnDecl := (e.key, e.decl)

def fnRows (stmts : List Stmt) : List (String × FnDecl) :=
  (classify F stmts).fns.map fun row => (row.1, F.fnDecl row.2)

def typeMethodRows (S : Sources) (row : String × TypeDecl) : List ((String × Key) × FnDecl) :=
  (hoisted F S row.2).map fun e => ((row.1, e.key), e.decl)

def methodRows (stmts : List Stmt) : List ((String × Key) × FnDecl) :=
  (classify F stmts).types.flatMap (typeMethodRows F (sources F stmts))

/-- Register a program over the tables of the programs before it. -/
def register (stmts : List Stmt) (t : Tables) : Tables where
  fns := insertAll (fnRows F stmts) t.fns
  methods := insertAll (methodRows F stmts) t.methods

def coldStart (stmts : List Stmt) : Tables := register F stmts Tables.empty

/-- Every function and every method of the new version has, after the fragment is registered over the
old version, the entry a cold start of the new version gives it. -/
def Reproduces (old new fragment : List Stmt) : Prop :=
  (∀ n e, (coldStart F new).fns n = some e →
    (register F fragment (coldStart F old)).fns n = some e) ∧
  ∀ T k e, (coldStart F new).methods (T, k) = some e →
    (register F fragment (coldStart F old)).methods (T, k) = some e

/-- The functions and types a program declares. -/
def declared (stmts : List Stmt) : List String :=
  (classify F stmts).fns.map Prod.fst ++ (classify F stmts).types.map Prod.fst

/-- A program that passed the checker: one that declares a name twice is an error, and the compiler
panics on it. -/
structure Version where
  stmts : List Stmt
  distinct : (declared F stmts).Nodup

/-! ## When a swap reproduces a cold start -/

/-- The parts of a function in neither the fingerprint nor the body slice. The fingerprint runs the
type parameters and the parameters together, so how many there are of each is among them. -/
def FnDecl.unseen (d : FnDecl) :
    Nat × Nat × Bool × List String × Option String × List String × List String :=
  (d.typeParams.length, d.params.length, d.isStatic, d.directives, d.tier, d.captures, d.lead)

def fnRedeclared (old new : Items) (n : String) (f : FnItem) : Bool :=
  declarationRegionMoved old.decls new.decls ||
    (lastAt n old.fns).elim true fun o => compareFn F o f = .bodyChanged

def typeRedeclared (old new : Items) (T : String) (d : TypeDecl) : Bool :=
  declarationRegionMoved old.decls new.decls ||
    (lastAt T old.types).elim true fun o => (diffType F T o d).included

/-- The traits and impls that go into a fragment: the traits when the top level re-runs, the impls when
the declaration region moved. -/
def carried (old new : List Stmt) : Sources where
  traits := if (classify F old).others ≠ (classify F new).others then (sources F new).traits else []
  impls :=
    if declarationRegionMoved (classify F old).decls (classify F new).decls then
      (sources F new).impls
    else []

/-- A type's own methods by key. -/
def methodsByKey (decl : TypeDecl) : List (Key × Method) :=
  (F.typeDecl decl.text).methods.map fun m => ((F.method m).key, m)

def ownAt (decl : TypeDecl) (k : Key) : Option FnDecl :=
  (lastAt k (methodsByKey F decl)).map fun m => (F.method m).decl

/-- What a type inherits under a key that none of its own methods takes. -/
def inheritedAt (S : Sources) (decl : TypeDecl) (k : Key) : Option FnDecl :=
  ((inherited F S decl).find? fun e => e.key = k).map Entry.decl

/-- The body a version gives to a type's method. -/
def entryAt (stmts : List Stmt) (T : String) (k : Key) : Option FnDecl :=
  (lastAt T (classify F stmts).types).bind fun d =>
    (ownAt F d k).or (inheritedAt F (sources F stmts) d k)

/-- A method against the old version's method of its name, which is the one `diff_type` compares it
with. The two may be conversions of different counterparts, as these share their name. -/
def OwnKept (old : List Stmt) (T : String) (o : TypeDecl) (m : Method) : Prop :=
  ∃ m', lastAt (F.method m).decl.name (F.methodsByName o) = some m' ∧
    if (F.method m').key = (F.method m).key then
      (F.method m').decl.unseen = (F.method m).decl.unseen
    else entryAt F old T (F.method m).key = some (F.method m).decl

/-- The condition for a swap to reproduce a cold start. -/
structure Kept (old new : List Stmt) : Prop where
  /-- A function judged unchanged has the unseen parts it had. -/
  fns : ∀ n f o, lastAt n (classify F new).fns = some f → lastAt n (classify F old).fns = some o →
    fnRedeclared F (classify F old) (classify F new) n f = false →
    (F.fnDecl o).unseen = (F.fnDecl f).unseen
  /-- So has a method of a type judged unchanged. -/
  own : ∀ T d o k m, lastAt T (classify F new).types = some d →
    lastAt T (classify F old).types = some o →
    typeRedeclared F (classify F old) (classify F new) T d = false →
    lastAt k (methodsByKey F d) = some m → OwnKept F old T o m
  /-- What a type inherits it also inherits from what the fragment carries, the type being redeclared,
  or it had it in the old version and the fragment puts nothing over it. -/
  inherited : ∀ T d k e, lastAt T (classify F new).types = some d → ownAt F d k = none →
    inheritedAt F (sources F new) d k = some e →
    (typeRedeclared F (classify F old) (classify F new) T d = true ∧
      inheritedAt F (carried F old new) d k = some e) ∨
    ((typeRedeclared F (classify F old) (classify F new) T d = true →
        inheritedAt F (carried F old new) d k = none) ∧ entryAt F old T k = some e)

/-! ## What the tables hold -/

section Lookup

variable {F}

/-- Hoisting leaves a type its own methods and, under the other keys, the first one offered. -/
theorem lastAt_foldl_addMethod (k : Key) (l own : List Entry) :
    lastAt k ((l.foldl addMethod own).map Entry.row) =
      (lastAt k (own.map Entry.row)).or ((l.find? fun e => e.key = k).map Entry.decl) := by
  induction l generalizing own with
  | nil => simp
  | cons e l ih =>
    rw [List.foldl_cons, ih, addMethod]
    by_cases htaken : (own.any fun existing => existing.key = e.key) = true
    · rw [if_pos htaken]
      by_cases hk : e.key = k
      · -- the key is taken by an own method, so what is offered under it does not count
        obtain ⟨x, hx, hxk⟩ := List.any_eq_true.1 htaken
        have hmem : (k, x.decl) ∈ own.map Entry.row := by
          refine List.mem_map.2 ⟨x, hx, ?_⟩
          simp only [Entry.row, Prod.mk.injEq, and_true]
          exact (of_decide_eq_true hxk).trans hk
        obtain ⟨d, hd⟩ := Option.isSome_iff_exists.1 (lastAt_isSome hmem)
        rw [hd]
        rfl
      · simp [hk]
    · rw [if_neg htaken]
      by_cases hk : e.key = k
      · have hnone : lastAt k (own.map Entry.row) = none := by
          apply lastAt_eq_none
          intro row hrow heq
          obtain ⟨x, hx, hxr⟩ := List.mem_map.1 hrow
          apply htaken
          refine List.any_eq_true.2 ⟨x, hx, decide_eq_true ?_⟩
          rw [hk, ← heq, ← hxr]
          rfl
        simp [lastAt_append, hnone, lastAt, Entry.row, hk]
      · simp [lastAt_append, lastAt, Entry.row, hk]

theorem lastAt_hoisted (S : Sources) (d : TypeDecl) (k : Key) :
    lastAt k ((hoisted F S d).map Entry.row) = (ownAt F d k).or (inheritedAt F S d k) := by
  have hown : (ownMethods F d).map Entry.row =
      (methodsByKey F d).map fun row => (row.1, (F.method row.2).decl) := by
    simp [ownMethods, methodsByKey, Entry.row, Function.comp_def]
  rw [hoisted, lastAt_foldl_addMethod, hown,
    lastAt_map (fun m => (F.method m).decl) k (methodsByKey F d)]
  rfl

theorem lastAt_typeMethodRows (S : Sources) (row : String × TypeDecl) (T : String) (k : Key) :
    lastAt (T, k) (typeMethodRows F S row) =
      if row.1 = T then (ownAt F row.2 k).or (inheritedAt F S row.2 k) else none := by
  rw [← lastAt_hoisted, typeMethodRows]
  by_cases hT : row.1 = T
  · subst hT
    rw [if_pos rfl]
    induction hoisted F S row.2 with
    | nil => rfl
    | cons e l ih => simp [lastAt, ih, Entry.row]
  · rw [if_neg hT]
    apply lastAt_eq_none
    intro r hr heq
    obtain ⟨e, -, rfl⟩ := List.mem_map.1 hr
    exact hT (congrArg Prod.fst heq)

theorem lastAt_methodRows (S : Sources) {rows : List (String × TypeDecl)}
    (hn : (rows.map Prod.fst).Nodup) (T : String) (k : Key) :
    lastAt (T, k) (rows.flatMap (typeMethodRows F S)) =
      (lastAt T rows).bind fun d => (ownAt F d k).or (inheritedAt F S d k) := by
  induction rows with
  | nil => rfl
  | cons row rows ih =>
    rw [List.map_cons, List.nodup_cons] at hn
    rw [List.flatMap_cons, lastAt_append, ih hn.2, lastAt_typeMethodRows]
    by_cases hT : row.1 = T
    · have hnone : lastAt T rows = none :=
        lastAt_eq_none fun r hr hrT => hn.1 (List.mem_map.2 ⟨r, hr, hrT.trans hT.symm⟩)
      simp [lastAt, hnone, hT]
    · simp [lastAt, hT]

theorem coldStart_fns (stmts : List Stmt) (n : String) :
    (coldStart F stmts).fns n = (lastAt n (classify F stmts).fns).map F.fnDecl := by
  rw [coldStart, register]
  simp only [insertAll_apply]
  rw [fnRows, lastAt_map F.fnDecl]
  simp [Tables.empty]

theorem coldStart_methods {stmts : List Stmt} (hn : (declared F stmts).Nodup) (T : String)
    (k : Key) : (coldStart F stmts).methods (T, k) = entryAt F stmts T k := by
  rw [coldStart, register]
  simp only [insertAll_apply]
  rw [methodRows, lastAt_methodRows _ (List.nodup_append.1 hn).2.1]
  simp [Tables.empty, entryAt]

end Lookup

/-! ## What the fragment holds -/

section Fragment

variable {F}

theorem fragment_fns (old new : Items) (stmts : List Stmt) :
    (classify F (stmts.filter (inFragment F old new))).fns =
      (classify F stmts).fns.filter fun row => decide (row.1 ∈ included F old new) := by
  simp only [classify, List.filterMap_filter, List.filter_filterMap]
  congr 1
  funext s
  cases s with
  | fnDecl item => simp [inFragment, Stmt.fnRow, Option.filter_some]
  | _ => simp [Stmt.fnRow]

theorem fragment_types (old new : Items) (stmts : List Stmt) :
    (classify F (stmts.filter (inFragment F old new))).types =
      (classify F stmts).types.filter fun row => decide (row.1 ∈ included F old new) := by
  simp only [classify, List.filterMap_filter, List.filter_filterMap]
  congr 1
  funext s
  cases s with
  | typeDecl decl => simp [inFragment, Stmt.typeRow, Option.filter_some]
  | _ => simp [Stmt.typeRow]

theorem filterMap_filter_const {γ : Type} (p : Stmt → Bool) (f : Stmt → Option γ) (c : Bool)
    (h : ∀ s, (f s).isSome → p s = c) (stmts : List Stmt) :
    (stmts.filter p).filterMap f = if c then stmts.filterMap f else [] := by
  rw [List.filterMap_filter]
  have hstep : (fun s => if p s = true then f s else none) = fun s => if c then f s else none := by
    funext s
    cases hf : f s with
    | none => simp
    | some v => rw [h s (by rw [hf]; rfl)]
  rw [hstep]
  cases c with
  | true => simp
  | false => simp

theorem fragment_traits (old new : Items) (stmts : List Stmt) :
    (stmts.filter (inFragment F old new)).filterMap (Stmt.traitRow F) =
      if old.others ≠ new.others then stmts.filterMap (Stmt.traitRow F) else [] := by
  rw [filterMap_filter_const _ _ (decide (old.others ≠ new.others))]
  · simp
  · intro s hs
    cases s with
    | traitDecl text => simp [inFragment, withheld]
    | _ => simp [Stmt.traitRow] at hs

theorem fragment_impls (old new : Items) (stmts : List Stmt) :
    (stmts.filter (inFragment F old new)).filterMap (Stmt.impl F) =
      if declarationRegionMoved old.decls new.decls then stmts.filterMap (Stmt.impl F) else [] := by
  apply filterMap_filter_const
  intro s hs
  cases s with
  | implDecl text => rfl
  | _ => simp [Stmt.impl] at hs

/-- The fragment the differ assembles. -/
def fragmentOf (F : Frontend) (old new : List Stmt) : List Stmt :=
  new.filter (inFragment F (classify F old) (classify F new))

theorem sources_fragmentOf (old new : List Stmt) :
    sources F (fragmentOf F old new) = carried F old new := by
  simp only [sources, carried, fragmentOf, fragment_traits, fragment_impls]

theorem fragment?_eq {old new fragment : List Stmt}
    (h : (diffPrograms F old new).fragment? = some fragment) :
    blockers F (classify F old) (classify F new) = [] ∧ fragment = fragmentOf F old new := by
  simp only [diffPrograms] at h
  split at h
  · simp [SwapDiff.fragment?] at h
  · rename_i hb
    refine ⟨not_not.1 hb, ?_⟩
    split at h
    · rename_i hu
      simp only [SwapDiff.fragment?, Option.some.injEq] at h
      simp only [Bool.and_eq_true, List.isEmpty_iff] at hu
      rw [← h, fragmentOf, hu.1.2]
    · simp only [SwapDiff.fragment?, Option.some.injEq] at h
      exact h.symm

theorem swap_fns (old new : List Stmt) (n : String) :
    (register F (fragmentOf F old new) (coldStart F old)).fns n =
      (if n ∈ included F (classify F old) (classify F new) then
        (lastAt n (classify F new).fns).map F.fnDecl else none).or
      ((lastAt n (classify F old).fns).map F.fnDecl) := by
  rw [register]
  simp only [insertAll_apply]
  rw [coldStart_fns, fnRows, lastAt_map F.fnDecl, fragmentOf, fragment_fns,
    lastAt_filter fun k => decide (k ∈ included F (classify F old) (classify F new))]
  by_cases h : n ∈ included F (classify F old) (classify F new) <;> simp [h]

theorem swap_methods {old new : List Stmt} (ho : (declared F old).Nodup)
    (hn : (declared F new).Nodup) (T : String) (k : Key) :
    (register F (fragmentOf F old new) (coldStart F old)).methods (T, k) =
      (if T ∈ included F (classify F old) (classify F new) then
        (lastAt T (classify F new).types).bind fun d =>
          (ownAt F d k).or (inheritedAt F (carried F old new) d k) else none).or
      (entryAt F old T k) := by
  rw [register]
  simp only [insertAll_apply]
  rw [coldStart_methods ho, methodRows, sources_fragmentOf, lastAt_methodRows, fragmentOf,
    fragment_types,
    lastAt_filter fun k => decide (k ∈ included F (classify F old) (classify F new))]
  · by_cases h : T ∈ included F (classify F old) (classify F new) <;> simp [h]
  · rw [fragmentOf, fragment_types]
    refine List.Nodup.sublist ?_ (List.nodup_append.1 hn).2.1
    exact List.Sublist.map _ List.filter_sublist

end Fragment

/-! ## What the differ's verdicts say -/

section Verdicts

variable {F}

theorem FnDecl.eq_of_parts {a b : FnDecl} (hs : a.signature = b.signature) (hb : a.body = b.body)
    (hu : a.unseen = b.unseen) : a = b := by
  obtain ⟨an, ap, aa, as, at', apar, ar, aat, adir, ati, ac, al, ab⟩ := a
  obtain ⟨bn, bp, ba, bs, bt', bpar, br, bat, bdir, bti, bc, bl, bb⟩ := b
  simp only [FnDecl.unseen, Prod.mk.injEq] at hu
  obtain ⟨htl, hpl, rfl, rfl, rfl, rfl, rfl⟩ := hu
  simp only at hb
  subst hb
  simp only [FnDecl.signature, List.append_assoc, List.cons_append, List.nil_append,
    List.cons.injEq] at hs
  obtain ⟨rfl, hp, ha, hs⟩ := hs
  obtain ⟨htp, hrest⟩ := List.append_inj hs htl
  obtain ⟨hpar, htail⟩ := List.append_inj hrest hpl
  obtain ⟨hr, hat⟩ := List.cons.inj htail
  have hp' : ap = bp := by revert hp; cases ap <;> cases bp <;> decide
  have ha' : aa = ba := by revert ha; cases aa <;> cases ba <;> decide
  have hr' : ar = br := by
    cases ar with
    | none =>
      cases br with
      | none => rfl
      | some r => exact absurd hr.symm r.2
    | some r =>
      cases br with
      | none => exact absurd hr r.2
      | some r' => rw [Subtype.ext hr]
  rw [htp, hpar, hat, hp', ha', hr']

theorem compareFn_unchanged {old new : FnItem} (h : compareFn F old new = .unchanged)
    (hu : (F.fnDecl old).unseen = (F.fnDecl new).unseen) : F.fnDecl old = F.fnDecl new := by
  rw [compareFn] at h
  split at h
  · rename_i htext
    have htier : old.tier = new.tier := by
      simp only [FnDecl.unseen, Frontend.fnDecl, Prod.mk.injEq] at hu
      exact hu.2.2.2.2.1
    simp only [Frontend.fnDecl, htext, htier]
  · split at h
    · cases h
    · split at h
      · cases h
      · rename_i hs hb
        exact FnDecl.eq_of_parts (not_not.1 hs) (not_not.1 hb) hu

variable {old new : Items} {n T : String} {stmts : List Stmt} {f : FnItem} {d : TypeDecl}

theorem mem_fnsWith {change : Option FnChange} :
    n ∈ fnsWith F change old new ↔ ∃ f, lastAt n new.fns = some f ∧
      (lastAt n old.fns).map (fun o => compareFn F o f) = change := by
  simp only [fnsWith, List.mem_map, List.mem_filter, decide_eq_true_eq, Prod.exists, mem_entries]
  constructor
  · rintro ⟨_, f, ⟨hf, hc⟩, rfl⟩
    exact ⟨f, hf, hc⟩
  · rintro ⟨f, hf, hc⟩
    exact ⟨n, f, ⟨hf, hc⟩, rfl⟩

theorem mem_typesAdded :
    T ∈ typesAdded old new ↔ ∃ d, lastAt T new.types = some d ∧ lastAt T old.types = none := by
  simp only [typesAdded, List.mem_map, List.mem_filter, Option.isNone_iff_eq_none, Prod.exists,
    mem_entries]
  constructor
  · rintro ⟨_, d, ⟨hd, ho⟩, rfl⟩
    exact ⟨d, hd, ho⟩
  · rintro ⟨d, hd, ho⟩
    exact ⟨T, d, ⟨hd, ho⟩, rfl⟩

theorem mem_typeDiffs {diff : TypeDiff} :
    (T, diff) ∈ typeDiffs F old new ↔ ∃ d o, lastAt T new.types = some d ∧
      lastAt T old.types = some o ∧ diffType F T o d = diff := by
  simp only [typeDiffs, List.mem_filterMap, Prod.exists, mem_entries, Option.map_eq_some_iff,
    Prod.mk.injEq]
  constructor
  · rintro ⟨_, d, hd, o, ho, rfl, hdiff⟩
    exact ⟨d, o, hd, ho, hdiff⟩
  · rintro ⟨d, o, hd, ho, hdiff⟩
    exact ⟨T, d, hd, o, ho, rfl, hdiff⟩

theorem mem_included : n ∈ included F old new ↔
      (n ∈ fnsWith F none old new ∨ n ∈ fnsWith F (some .bodyChanged) old new) ∨
      (n ∈ typesAdded old new ∨ ∃ diff, (n, diff) ∈ typeDiffs F old new ∧ diff.included = true) ∨
      (declarationRegionMoved old.decls new.decls = true ∧ n ∈ new.decls) := by
  simp only [included, List.mem_append, List.mem_map, List.mem_filter, Prod.exists]
  cases declarationRegionMoved old.decls new.decls with
  | true => simp [or_assoc]
  | false => simp [or_assoc]

theorem types_none_of_fn (hn : (declared F stmts).Nodup)
    (h : lastAt n (classify F stmts).fns = some f) :
    lastAt n (classify F stmts).types = none := by
  apply lastAt_eq_none
  intro row hrow heq
  have hf : n ∈ (classify F stmts).fns.map Prod.fst := List.mem_map.2 ⟨_, lastAt_mem h, rfl⟩
  have ht : n ∈ (classify F stmts).types.map Prod.fst := List.mem_map.2 ⟨row, hrow, heq⟩
  exact (List.nodup_append.1 hn).2.2 n hf n ht rfl

theorem mem_decls_of_fn
    (h : lastAt n (classify F stmts).fns = some f) : n ∈ (classify F stmts).decls := by
  obtain ⟨s, hs, hrow⟩ := List.mem_filterMap.1 (lastAt_mem h)
  refine List.mem_filterMap.2 ⟨s, hs, ?_⟩
  cases s with
  | fnDecl item =>
    simp only [Stmt.fnRow, Option.some.injEq, Prod.mk.injEq] at hrow
    simp [Stmt.declName, hrow.1]
  | _ => simp [Stmt.fnRow] at hrow

theorem mem_decls_of_type
    (h : lastAt T (classify F stmts).types = some d) : T ∈ (classify F stmts).decls := by
  obtain ⟨s, hs, hrow⟩ := List.mem_filterMap.1 (lastAt_mem h)
  refine List.mem_filterMap.2 ⟨s, hs, ?_⟩
  cases s with
  | typeDecl decl =>
    simp only [Stmt.typeRow, Option.some.injEq, Prod.mk.injEq] at hrow
    simp [Stmt.declName, hrow.1]
  | _ => simp [Stmt.typeRow] at hrow

theorem fn_included_iff {old new : List Stmt} (hn : (declared F new).Nodup)
    (h : lastAt n (classify F new).fns = some f) :
    n ∈ included F (classify F old) (classify F new) ↔
      fnRedeclared F (classify F old) (classify F new) n f = true := by
  have htypes := types_none_of_fn hn h
  have hdecls := mem_decls_of_fn h
  rw [mem_included, mem_fnsWith, mem_fnsWith, mem_typesAdded]
  simp only [mem_typeDiffs, h, htypes, hdecls, fnRedeclared]
  cases ho : lastAt n (classify F old).fns with
  | none => simp
  | some o => simp [or_comm]

theorem type_included_iff {old new : List Stmt} (hn : (declared F new).Nodup)
    (h : lastAt T (classify F new).types = some d) :
    T ∈ included F (classify F old) (classify F new) ↔
      typeRedeclared F (classify F old) (classify F new) T d = true := by
  have hfns : lastAt T (classify F new).fns = none := by
    cases hf : lastAt T (classify F new).fns with
    | none => rfl
    | some f => rw [types_none_of_fn hn hf] at h; cases h
  have hdecls := mem_decls_of_type h
  rw [mem_included, mem_fnsWith, mem_fnsWith, mem_typesAdded]
  simp only [mem_typeDiffs, h, hfns, hdecls, typeRedeclared]
  cases ho : lastAt T (classify F old).types with
  | none => simp
  | some o => simp [or_comm]

theorem unchanged_of_fn {old new : List Stmt} (hb : blockers F (classify F old) (classify F new) = [])
    (h : lastAt n (classify F new).fns = some f)
    (hr : fnRedeclared F (classify F old) (classify F new) n f = false) :
    ∃ o, lastAt n (classify F old).fns = some o ∧ compareFn F o f = .unchanged := by
  simp only [fnRedeclared, Bool.or_eq_false_iff] at hr
  cases ho : lastAt n (classify F old).fns with
  | none => simp [ho] at hr
  | some o =>
    refine ⟨o, rfl, ?_⟩
    simp only [ho, Option.elim_some, decide_eq_false_iff_not] at hr
    cases hc : compareFn F o f with
    | unchanged => rfl
    | bodyChanged => exact absurd hc hr.2
    | signatureChanged =>
      have hmem : n ∈ fnsWith F (some .signatureChanged) (classify F old) (classify F new) :=
        mem_fnsWith.2 ⟨f, h, by rw [ho, Option.map_some, hc]⟩
      have hempty : fnsWith F (some .signatureChanged) (classify F old) (classify F new) = [] := by
        simp only [blockers, List.append_eq_nil_iff, List.map_eq_nil_iff] at hb
        exact hb.1.1.1.2
      rw [hempty] at hmem
      cases hmem

/-- Past the blockers, a type that is not redeclared has the old text, or each of its methods was
judged unchanged against the old method of its name. -/
theorem unchanged_of_type {old new : List Stmt}
    (hb : blockers F (classify F old) (classify F new) = [])
    (h : lastAt T (classify F new).types = some d)
    (hr : typeRedeclared F (classify F old) (classify F new) T d = false) :
    ∃ o, lastAt T (classify F old).types = some o ∧ (o.text = d.text ∨
      ∀ m ∈ (F.typeDecl d.text).methods, methodChange F o m = some .unchanged) := by
  simp only [typeRedeclared, Bool.or_eq_false_iff] at hr
  cases ho : lastAt T (classify F old).types with
  | none => simp [ho] at hr
  | some o =>
    refine ⟨o, rfl, ?_⟩
    simp only [ho, Option.elim_some] at hr
    have hblock : (diffType F T o d).blockers = [] := by
      have hmem : (T, diffType F T o d) ∈ typeDiffs F (classify F old) (classify F new) :=
        mem_typeDiffs.2 ⟨d, o, h, ho, rfl⟩
      simp only [blockers, List.append_eq_nil_iff, List.flatMap_eq_nil_iff] at hb
      exact hb.1.1.2 _ hmem
    have hincl := hr.2
    rw [diffType] at hblock hincl
    split at hblock
    · rename_i htext
      exact Or.inl htext
    · rename_i htext
      rw [if_neg htext] at hincl
      split at hblock
      · cases hblock
      · rename_i hres
        rw [if_neg hres] at hincl
        simp only [Bool.not_eq_false', Bool.and_eq_true, List.isEmpty_iff, List.map_eq_nil_iff,
          methodsWith, List.filter_eq_nil_iff, decide_eq_true_eq] at hblock hincl
        right
        intro m hm
        cases hc : methodChange F o m with
        | none => exact absurd hc (hincl.1.2 m hm)
        | some c =>
          cases c with
          | unchanged => rfl
          | bodyChanged => exact absurd hc (hincl.1.1 m hm)
          | signatureChanged => exact absurd hc (hblock m hm)

theorem lastAt_key_of_name {decl : TypeDecl} {m : Method}
    (h : lastAt n (F.methodsByName decl) = some m) :
    lastAt (F.method m).key (methodsByKey F decl) = some m := by
  simp only [Frontend.methodsByName] at h
  simp only [methodsByKey]
  revert h
  generalize (F.typeDecl decl.text).methods = methods
  intro h
  induction methods with
  | nil => simp at h
  | cons x l ih =>
    rw [List.map_cons, lastAt, Option.or_eq_some_iff] at h
    rw [List.map_cons, lastAt, Option.or_eq_some_iff]
    rcases h with h | ⟨hnone, hx⟩
    · exact Or.inl (ih h)
    · right
      split at hx
      · rename_i hname
        simp only [Option.some.injEq] at hx
        subst hx
        refine ⟨?_, by simp⟩
        apply lastAt_eq_none
        intro row hrow heq
        obtain ⟨y, hy, rfl⟩ := List.mem_map.1 hrow
        have hsome := lastAt_isSome (List.mem_map.2 ⟨y, hy, rfl⟩ :
          ((F.method y).decl.name, y) ∈ l.map fun m => ((F.method m).decl.name, m))
        have hyn : (F.method y).decl.name = n := (congrArg Prod.fst heq).trans hname
        rw [hyn, hnone] at hsome
        cases hsome
      · cases hx

end Verdicts

/-! ## The condition is exact -/

section Exact

variable {F} {old new : List Stmt}

variable {n T : String} {d : TypeDecl} {k : Key} {m : Method}

theorem swap_fns_redeclared (hn : (declared F new).Nodup) {f : FnItem}
    (h : lastAt n (classify F new).fns = some f)
    (hr : fnRedeclared F (classify F old) (classify F new) n f = true) :
    (register F (fragmentOf F old new) (coldStart F old)).fns n = some (F.fnDecl f) := by
  rw [swap_fns, if_pos ((fn_included_iff hn h).2 hr), h]
  rfl

theorem swap_fns_kept (hn : (declared F new).Nodup) {f : FnItem}
    (h : lastAt n (classify F new).fns = some f)
    (hr : fnRedeclared F (classify F old) (classify F new) n f = false) :
    (register F (fragmentOf F old new) (coldStart F old)).fns n =
      (lastAt n (classify F old).fns).map F.fnDecl := by
  have hout : n ∉ included F (classify F old) (classify F new) := by
    rw [fn_included_iff hn h, hr]
    exact Bool.false_ne_true
  rw [swap_fns, if_neg hout, Option.none_or]

theorem swap_methods_redeclared (ho : (declared F old).Nodup) (hn : (declared F new).Nodup)
    (h : lastAt T (classify F new).types = some d)
    (hr : typeRedeclared F (classify F old) (classify F new) T d = true) (k : Key) :
    (register F (fragmentOf F old new) (coldStart F old)).methods (T, k) =
      ((ownAt F d k).or (inheritedAt F (carried F old new) d k)).or (entryAt F old T k) := by
  rw [swap_methods ho hn, if_pos ((type_included_iff hn h).2 hr), h]
  rfl

theorem swap_methods_kept (ho : (declared F old).Nodup) (hn : (declared F new).Nodup)
    (h : lastAt T (classify F new).types = some d)
    (hr : typeRedeclared F (classify F old) (classify F new) T d = false) (k : Key) :
    (register F (fragmentOf F old new) (coldStart F old)).methods (T, k) = entryAt F old T k := by
  have hout : T ∉ included F (classify F old) (classify F new) := by
    rw [type_included_iff hn h, hr]
    exact Bool.false_ne_true
  rw [swap_methods ho hn, if_neg hout, Option.none_or]

theorem entryAt_own {stmts : List Stmt} {e : FnDecl}
    (h : lastAt T (classify F stmts).types = some d) (hown : ownAt F d k = some e) :
    entryAt F stmts T k = some e := by
  rw [entryAt, h, Option.bind_some, hown]
  rfl

theorem entryAt_inherited {stmts : List Stmt}
    (h : lastAt T (classify F stmts).types = some d) (hown : ownAt F d k = none) :
    entryAt F stmts T k = inheritedAt F (sources F stmts) d k := by
  rw [entryAt, h, Option.bind_some, hown]
  rfl

theorem entryAt_of_name {o : TypeDecl} {m' : Method} (ho : lastAt T (classify F old).types = some o)
    (hm : lastAt n (F.methodsByName o) = some m') :
    entryAt F old T (F.method m').key = some (F.method m').decl := by
  apply entryAt_own ho
  rw [ownAt, lastAt_key_of_name hm]
  rfl

theorem key_of_methodsByKey (h : lastAt k (methodsByKey F d) = some m) :
    (F.method m).key = k ∧ m ∈ (F.typeDecl d.text).methods := by
  obtain ⟨x, hx, heq⟩ := List.mem_map.1 (lastAt_mem h)
  obtain ⟨rfl, rfl⟩ := Prod.mk.inj heq
  exact ⟨rfl, hx⟩

theorem entryAt_of_ownKept {d o : TypeDecl} (ho : lastAt T (classify F old).types = some o)
    (hsame : o.text = d.text ∨
      ∀ m ∈ (F.typeDecl d.text).methods, methodChange F o m = some .unchanged)
    (hm : lastAt k (methodsByKey F d) = some m) (hkept : OwnKept F old T o m) :
    entryAt F old T k = some (F.method m).decl := by
  obtain ⟨hk, hmem⟩ := key_of_methodsByKey hm
  rcases hsame with htext | hmethods
  · apply entryAt_own ho
    rw [ownAt, methodsByKey, htext]
    rw [methodsByKey] at hm
    rw [hm]
    rfl
  · obtain ⟨m', hm', hcond⟩ := hkept
    by_cases hkey : (F.method m').key = (F.method m).key
    · rw [if_pos hkey] at hcond
      have hcmp : compareFn F { text := m'.text } { text := m.text } = .unchanged := by
        have hc := hmethods m hmem
        rw [methodChange, hm', Option.map_some, Option.some.injEq] at hc
        exact hc
      have hdecl : (F.method m').decl = (F.method m).decl := compareFn_unchanged hcmp hcond
      rw [← hk, ← hkey, ← hdecl]
      exact entryAt_of_name ho hm'
    · rw [if_neg hkey] at hcond
      rw [← hk]
      exact hcond

theorem ownKept_of_entryAt {d o : TypeDecl} (ho : lastAt T (classify F old).types = some o)
    (hsame : o.text = d.text ∨
      ∀ m ∈ (F.typeDecl d.text).methods, methodChange F o m = some .unchanged)
    (hm : lastAt k (methodsByKey F d) = some m)
    (hentry : entryAt F old T k = some (F.method m).decl) : OwnKept F old T o m := by
  obtain ⟨hk, hmem⟩ := key_of_methodsByKey hm
  obtain ⟨m', hm'⟩ : ∃ m', lastAt (F.method m).decl.name (F.methodsByName o) = some m' := by
    rcases hsame with htext | hmethods
    · apply Option.isSome_iff_exists.1
      apply lastAt_isSome
      rw [Frontend.methodsByName, htext]
      exact List.mem_map.2 ⟨m, hmem, rfl⟩
    · have hc := hmethods m hmem
      rw [methodChange, Option.map_eq_some_iff] at hc
      obtain ⟨m', hm', -⟩ := hc
      exact ⟨m', hm'⟩
  refine ⟨m', hm', ?_⟩
  by_cases hkey : (F.method m').key = (F.method m).key
  · rw [if_pos hkey]
    have hentry' := entryAt_of_name ho hm'
    rw [hkey, hk, hentry, Option.some.injEq] at hentry'
    rw [hentry']
  · rw [if_neg hkey, hk]
    exact hentry

theorem Reproduces.kept (hb : blockers F (classify F old) (classify F new) = [])
    (ho : (declared F old).Nodup) (hn : (declared F new).Nodup)
    (h : Reproduces F old new (fragmentOf F old new)) : Kept F old new where
  fns := by
    intro n f o hf hfo hr
    have hcold : (coldStart F new).fns n = some (F.fnDecl f) := by
      rw [coldStart_fns, hf]
      rfl
    have hswap := h.1 n _ hcold
    rw [swap_fns_kept hn hf hr, hfo, Option.map_some, Option.some.injEq] at hswap
    rw [hswap]
  own := by
    intro T d o k m hd hdo hr hm
    have hown : ownAt F d k = some (F.method m).decl := by
      rw [ownAt, hm]
      rfl
    have hswap := h.2 T k _ ((coldStart_methods hn T k).trans (entryAt_own hd hown))
    rw [swap_methods_kept ho hn hd hr] at hswap
    obtain ⟨o', ho', hsame⟩ := unchanged_of_type hb hd hr
    rw [hdo, Option.some.injEq] at ho'
    subst ho'
    exact ownKept_of_entryAt hdo hsame hm hswap
  inherited := by
    intro T d k e hd hown hinh
    have hswap := h.2 T k e
      ((coldStart_methods hn T k).trans ((entryAt_inherited hd hown).trans hinh))
    cases hr : typeRedeclared F (classify F old) (classify F new) T d with
    | false =>
      rw [swap_methods_kept ho hn hd hr] at hswap
      exact Or.inr ⟨fun hrt => absurd hrt Bool.false_ne_true, hswap⟩
    | true =>
      rw [swap_methods_redeclared ho hn hd hr, hown, Option.none_or, Option.or_eq_some_iff] at hswap
      rcases hswap with hc | ⟨hc, he⟩
      · exact Or.inl ⟨rfl, hc⟩
      · exact Or.inr ⟨fun _ => hc, he⟩

theorem Kept.reproduces (hb : blockers F (classify F old) (classify F new) = [])
    (ho : (declared F old).Nodup) (hn : (declared F new).Nodup) (h : Kept F old new) :
    Reproduces F old new (fragmentOf F old new) := by
  constructor
  · intro n e he
    rw [coldStart_fns, Option.map_eq_some_iff] at he
    obtain ⟨f, hf, rfl⟩ := he
    cases hr : fnRedeclared F (classify F old) (classify F new) n f with
    | true => exact swap_fns_redeclared hn hf hr
    | false =>
      obtain ⟨o, hfo, hcmp⟩ := unchanged_of_fn hb hf hr
      rw [swap_fns_kept hn hf hr, hfo, Option.map_some,
        compareFn_unchanged hcmp (h.fns n f o hf hfo hr)]
  · intro T k e he
    rw [coldStart_methods hn, entryAt, Option.bind_eq_some_iff] at he
    obtain ⟨d, hd, he⟩ := he
    rw [Option.or_eq_some_iff] at he
    rcases he with hown | ⟨hown, hinh⟩
    · -- a method of the type's own
      cases hr : typeRedeclared F (classify F old) (classify F new) T d with
      | true =>
        rw [swap_methods_redeclared ho hn hd hr, hown]
        rfl
      | false =>
        rw [swap_methods_kept ho hn hd hr]
        rw [ownAt, Option.map_eq_some_iff] at hown
        obtain ⟨m, hm, rfl⟩ := hown
        obtain ⟨o, hdo, hsame⟩ := unchanged_of_type hb hd hr
        exact entryAt_of_ownKept hdo hsame hm (h.own T d o k m hd hdo hr hm)
    · rcases h.inherited T d k e hd hown hinh with ⟨hr, hc⟩ | ⟨hc, hold⟩
      · rw [swap_methods_redeclared ho hn hd hr, hown, hc]
        rfl
      · cases hr : typeRedeclared F (classify F old) (classify F new) T d with
        | true =>
          rw [swap_methods_redeclared ho hn hd hr, hown, hc hr, hold]
          rfl
        | false => rw [swap_methods_kept ho hn hd hr, hold]

end Exact

/-- A function without parameters. -/
def sampleFn (name ret body : String) (h : ret ≠ "") : FnDecl where
  name
  isPublic := false
  isAsync := false
  isStatic := false
  typeParams := []
  params := []
  ret := some ⟨ret, h⟩
  attrs := []
  directives := []
  tier := none
  captures := []
  lead := []
  body

def derivesGreet : List DeriveSpec := [⟨"Greet", [], none⟩]

def returnsOne : String := "fn f(): int \x7b return 1 \x7d"

def returnsTwo : String := "fn f(): int \x7b return 2 \x7d"

/-- What the parser makes of the texts of the sample versions. -/
def sampleFrontend : Frontend where
  fn text := sampleFn "f" "int"
    (if text = returnsOne then "return 1" else "return 2") (by decide)
  typeDecl _ :=
    { name := "P"
      tokens := [⟨0, "struct"⟩, ⟨7, "P"⟩, ⟨9, "\x7b"⟩, ⟨11, "x"⟩, ⟨12, ":"⟩, ⟨14, "int"⟩, ⟨18, "\x7d"⟩]
      methods := []
      impls := [] }
  traitDecl _ :=
    { name := "Greet"
      methods := [⟨sampleFn "greet" "string" "return \"hi\"" (by decide), true⟩] }
  implDecl _ := { traitName := "Greet", traitArgs := [], target := "P", methods := [] }
  instantiateTrait t args := if args.isEmpty then some t.methods else none
  planDerive t _ _ := (t.elim [] TraitDecl.methods).filterMap fun tm =>
    if tm.hasDefault then some tm.sig else none

/-- The trait `Greet` with a default, the struct `P` with the given derives, and `fn f`. -/
def sampleVersion (derives : List DeriveSpec) (fText : String) : Version sampleFrontend where
  stmts :=
    [.traitDecl "trait Greet \x7b fn greet(): string \x7b return \"hi\" \x7d \x7d",
      .typeDecl ⟨"struct P \x7b x: int \x7d", derives⟩, .fnDecl { text := fText }]
  distinct := by
    show ["f", "P"].Nodup
    decide

theorem sample_types (derives : List DeriveSpec) (fText : String) :
    (classify sampleFrontend (sampleVersion derives fText).stmts).types =
      [("P", ⟨"struct P \x7b x: int \x7d", derives⟩)] := rfl

theorem sample_fns (derives : List DeriveSpec) (fText : String) :
    (classify sampleFrontend (sampleVersion derives fText).stmts).fns =
      [("f", { text := fText })] := rfl

end Noeta.Hotswap
