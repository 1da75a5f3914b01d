import Noeta.Check.TypeUniverse
import Noeta.Lib.FirstSeen
import Noeta.Types.Preorder

/-!
# Subtyping under instantiation

`apply_subst` of `noeta-check/src/subst.rs` against the subtype walk. A substitution rebuilds unions,
so that a union may stop being one. Substitutions compose; and a subtype stays one unless two unions
are compared of which the left keeps two members where the right shrinks to a trait object, or, in an
invariant position, the left shrinks to one member where the right does not.
-/

namespace Noeta.Check

open Noeta.Types
open Noeta.Lib.FirstSeen (collect insertNew)
open Relation (ReflTransGen)

/-! ## Types as the checker builds them -/

/-- No inference hole, each nominal name with its own number of arguments, and unions as
`Type::union` builds them. -/
inductive Built (arity : String → Nat) : Ty → Prop
  | dyn : Built arity .dyn
  | never : Built arity .never
  | unit : Built arity .unit
  | int : Built arity .int
  | float : Built arity .float
  | f32 : Built arity .f32
  | f64 : Built arity .f64
  | intN (signed : Bool) (bits : Nat) : Built arity (.intN signed bits)
  | bool : Built arity .bool
  | string : Built arity .string
  | bytes : Built arity .bytes
  | list {a : Ty} : Built arity a → Built arity (.list a)
  | map {k v : Ty} : Built arity k → Built arity v → Built arity (.map k v)
  | set {a : Ty} : Built arity a → Built arity (.set a)
  | option {a : Ty} : Built arity a → Built arity (.option a)
  | result {t e : Ty} : Built arity t → Built arity e → Built arity (.result t e)
  | named {n : String} {args : List Ty} : args.length = arity n → (∀ a ∈ args, Built arity a) →
      Built arity (.named n args)
  | param (id : Nat) : Built arity (.param id)
  | fn {params : List Ty} {ret : Ty} : (∀ a ∈ params, Built arity a) → Built arity ret →
      Built arity (.fn params ret)
  | kind (k : TypeKind) : Built arity (.kind k)
  | union {ms : List Ty} : 2 ≤ ms.length → ms.Nodup → (∀ m ∈ ms, m.Proper) →
      (∀ m ∈ ms, Built arity m) → Built arity (.union ms)
  | tuple {elems : List Ty} : (∀ a ∈ elems, Built arity a) → Built arity (.tuple elems)
  | dynTrait (tr : String) : Built arity (.dynTrait tr)

def Subst.Built (arity : String → Nat) (subst : Subst) : Prop :=
  ∀ id t, subst.get id = some t → Check.Built arity t

/-- First one substitution, then another. -/
def Subst.andThen (sigma tau : Subst) : Subst :=
  sigma.map (fun e => (e.1, applySubst tau e.2)) ++ tau

theorem Subst.get_andThen (sigma tau : Subst) (id : Nat) :
    (sigma.andThen tau).get id = ((sigma.get id).map (applySubst tau)).or (tau.get id) := by
  have hmap : (sigma.map fun e => (e.1, applySubst tau e.2)).find? (fun e => e.1 == id) =
      (sigma.find? fun e => e.1 == id).map fun e => (e.1, applySubst tau e.2) := by
    rw [List.find?_map]
    rfl
  rw [Subst.get, Subst.andThen, List.find?_append, hmap, Subst.get, Subst.get]
  cases sigma.find? (fun e => e.1 == id) <;> rfl

section Built

variable {arity : String → Nat} {subst : Subst}

variable {t : Ty} {ts flat : List Ty} {saw : Bool}

theorem Built.isGradual (h : Built arity t) : t.isGradual = false := by
  cases h <;> rfl

theorem Built.member {ms : List Ty} (h : Built arity (.union ms)) {m : Ty} (hm : m ∈ ms) :
    m.Proper ∧ Built arity m := by
  cases h with
  | union _ _ hp hb => exact ⟨hp m hm, hb m hm⟩

theorem Built.joins (h : Built arity t) : Joins (Built arity) t := by
  refine ⟨fun _ => h, ?_⟩
  rintro inner rfl m hm
  exact ⟨(h.member hm).2, (h.member hm).1⟩

theorem Built.parts_eq_nil (h : Built arity t) : t.parts = [] ↔ t = .never := by
  constructor
  · intro hnil
    cases h with
    | never => rfl
    | union hlen =>
      simp only [Ty.parts] at hnil
      subst hnil
      simp at hlen
    | _ => simp [Ty.parts] at hnil
  · rintro rfl
    rfl

theorem Built.nodup_parts (h : Built arity t) : t.parts.Nodup := by
  cases h with
  | never => exact List.nodup_nil
  | union _ hnodup => exact hnodup
  | _ => exact List.nodup_singleton _

/-! ## What `Type::union` builds -/

theorem Built.brought (h : Built arity t) (hd : t ≠ .dyn) :
    t.brought.filter (· ≠ .never) = t.parts ∧ .dyn ∉ t.brought := by
  by_cases hp : t.Proper
  · have hb : t.brought = [t] := by cases t <;> first | rfl | exact absurd hp id
    have hn : t ≠ .never := by rintro rfl; exact hp
    simp [hb, hp.parts, hn, hd.symm]
  · cases t with
    | dyn => exact absurd rfl hd
    | never => simp [Ty.brought, Ty.parts]
    | union inner =>
      refine ⟨List.filter_eq_self.2 ?_, ?_⟩
      · intro m hm
        refine decide_eq_true ?_
        rintro rfl
        exact (h.member hm).1
      · intro hm
        exact (h.member hm).1
    | _ => exact absurd trivial hp

theorem unionOf_eq (hne : ts ≠ []) (hts : ∀ t ∈ ts, Built arity t) : Ty.unionOf ts =
      if .dyn ∈ ts then .dyn else Ty.ofFlat true (collect [] (ts.flatMap Ty.parts)) := by
  split
  · rename_i hd
    rcases unionOf_collects ts (fun t ht => (hts t ht).joins) with ⟨-, h⟩ | ⟨h, -⟩
    · exact h
    · exact absurd hd h
  · rename_i hd
    have hmem : ∀ t ∈ ts, t.brought.filter (· ≠ .never) = t.parts ∧ .dyn ∉ t.brought :=
      fun t ht => (hts t ht).brought fun h => hd (h ▸ ht)
    have hparts : (ts.flatMap Ty.brought).filter (· ≠ .never) = ts.flatMap Ty.parts := by
      rw [List.filter_flatMap]
      exact List.flatMap_congr fun t ht => (hmem t ht).1
    rw [Types.unionOf_eq_ofFlat, if_neg (by simpa using fun t ht => (hmem t ht).2), hparts]
    have hflag : collect [] (ts.flatMap Ty.parts) = [] → Ty.never ∈ ts.flatMap Ty.brought := by
      intro hnil
      obtain ⟨t, ts', rfl⟩ := List.exists_cons_of_ne_nil hne
      have hempty : t.parts = [] := by
        apply List.eq_nil_iff_forall_not_mem.2
        intro u hu
        have hin : u ∈ collect [] ((t :: ts').flatMap Ty.parts) := by simp [hu]
        rw [hnil] at hin
        exact absurd hin (by simp)
      rw [(hts t (by simp)).parts_eq_nil.1 hempty]
      exact List.mem_cons_self
    generalize collect [] (ts.flatMap Ty.parts) = flat at hflag ⊢
    rcases flat with _ | ⟨_, _ | ⟨_, _⟩⟩
    · rw [decide_eq_true (hflag rfl)]
    · rfl
    · rfl

theorem built_of_mem_collect (hts : ∀ t ∈ ts, Built arity t) (hd : .dyn ∉ ts)
    {u : Ty} (hu : u ∈ collect [] (ts.flatMap Ty.parts)) : u.Proper ∧ Built arity u := by
  have hmem : u ∈ ts.flatMap Ty.parts := by simpa using hu
  obtain ⟨t, ht, hut⟩ := List.mem_flatMap.1 hmem
  have hbuilt := hts t ht
  by_cases hp : t.Proper
  · rw [hp.parts, List.mem_singleton] at hut
    exact hut ▸ ⟨hp, hbuilt⟩
  · cases t with
    | dyn => exact absurd ht hd
    | never => cases hut
    | union inner => exact hbuilt.member hut
    | _ => exact absurd trivial hp

theorem Built.unionOf (hne : ts ≠ []) (hts : ∀ t ∈ ts, Built arity t) : Built arity (Ty.unionOf ts) := by
  rw [unionOf_eq hne hts]
  split
  · exact .dyn
  · rename_i hd
    have hall : ∀ u ∈ collect [] (ts.flatMap Ty.parts), u.Proper ∧ Built arity u := fun u hu =>
      built_of_mem_collect hts hd hu
    have hnodup : (collect [] (ts.flatMap Ty.parts)).Nodup := Lib.FirstSeen.nodup_collect List.nodup_nil
    generalize collect [] (ts.flatMap Ty.parts) = flat at hall hnodup
    match flat, hall, hnodup with
    | [], _, _ => exact .never
    | [t], hall, _ => exact (hall t (by simp)).2
    | t :: u :: rest, hall, hnodup =>
      exact .union (by simp) hnodup (fun m hm => (hall m hm).1) fun m hm => (hall m hm).2

theorem Built.applySubst (hsubst : subst.Built arity) {t : Ty} (h : Built arity t) :
    Built arity (applySubst subst t) := by
  induction h with
  | param id =>
    rw [Check.applySubst]
    cases hget : subst.get id with
    | none => exact .param id
    | some t => exact hsubst id t hget
  | list _ ih => exact .list ih
  | set _ ih => exact .set ih
  | option _ ih => exact .option ih
  | map _ _ ihk ihv => exact .map ihk ihv
  | result _ _ iht ihe => exact .result iht ihe
  | @named n args hlen _ ih =>
    rw [Check.applySubst, applySubsts_eq_map]
    refine .named (by rw [List.length_map, hlen]) ?_
    intro a ha
    obtain ⟨x, hx, rfl⟩ := List.mem_map.1 ha
    exact ih x hx
  | tuple _ ih =>
    rw [Check.applySubst, applySubsts_eq_map]
    refine .tuple ?_
    intro a ha
    obtain ⟨x, hx, rfl⟩ := List.mem_map.1 ha
    exact ih x hx
  | fn _ _ ihps ihr =>
    rw [Check.applySubst, applySubsts_eq_map]
    refine .fn ?_ ihr
    intro a ha
    obtain ⟨x, hx, rfl⟩ := List.mem_map.1 ha
    exact ihps x hx
  | @union ms hlen _ _ _ ih =>
    rw [Check.applySubst, applySubsts_eq_map]
    apply Built.unionOf
    · intro hnil
      rw [List.map_eq_nil_iff] at hnil
      subst hnil
      simp at hlen
    · intro a ha
      obtain ⟨x, hx, rfl⟩ := List.mem_map.1 ha
      exact ih x hx
  | dyn => exact .dyn
  | never => exact .never
  | unit => exact .unit
  | int => exact .int
  | float => exact .float
  | f32 => exact .f32
  | f64 => exact .f64
  | intN signed bits => exact .intN signed bits
  | bool => exact .bool
  | string => exact .string
  | bytes => exact .bytes
  | kind k => exact .kind k
  | dynTrait tr => exact .dynTrait tr

/-! ## Substitutions compose -/

theorem ofFlat_eq_dyn_iff (hp : ∀ t ∈ flat, t.Proper) : Ty.ofFlat saw flat = .dyn ↔ False := by
  match flat, hp with
  | [], _ => cases saw <;> simp [Ty.ofFlat]
  | [t], hp =>
    have hproper := hp t (by simp)
    simp only [Ty.ofFlat, iff_false]
    rintro rfl
    exact hproper
  | _ :: _ :: _, _ => simp [Ty.ofFlat]

theorem parts_ofFlat (hp : ∀ t ∈ flat, t.Proper)
    (hsaw : flat = [] → saw = true) : (Ty.ofFlat saw flat).parts = flat := by
  match flat, hp, hsaw with
  | [], _, hsaw => rw [hsaw rfl]; rfl
  | [t], hp, _ => exact (hp t (by simp)).parts
  | _ :: _ :: _, _, _ => rfl

theorem unionOf_eq_dyn_iff (hne : ts ≠ []) (hts : ∀ t ∈ ts, Built arity t) :
    Ty.unionOf ts = .dyn ↔ .dyn ∈ ts := by
  rw [unionOf_eq hne hts]
  split
  · simp [*]
  · rename_i hd
    rw [ofFlat_eq_dyn_iff fun t ht => (built_of_mem_collect hts hd ht).1]
    simp [hd]

theorem parts_unionOf (hne : ts ≠ []) (hts : ∀ t ∈ ts, Built arity t)
    (hd : .dyn ∉ ts) : (Ty.unionOf ts).parts = collect [] (ts.flatMap Ty.parts) := by
  rw [unionOf_eq hne hts, if_neg hd]
  exact parts_ofFlat (fun t ht => (built_of_mem_collect hts hd ht).1) fun _ => rfl

theorem Built.ofFlat_parts (h : Built arity t) (hd : t ≠ .dyn) : Ty.ofFlat true t.parts = t := by
  by_cases hp : t.Proper
  · rw [hp.parts]
    rfl
  · cases h with
    | dyn => exact absurd rfl hd
    | never => rfl
    | @union ms hlen =>
      match ms, hlen with
      | _ :: _ :: _, _ => rfl
    | _ => exact absurd trivial hp

theorem built_members {ms : List Ty} (hsubst : subst.Built arity) (h : Built arity (.union ms)) :
    ms.map (Check.applySubst subst) ≠ [] ∧ ∀ u ∈ ms.map (Check.applySubst subst), Built arity u := by
  refine ⟨fun hnil => ?_, fun u hu => ?_⟩
  · obtain rfl := List.map_eq_nil_iff.1 hnil
    cases h with
    | union hlen => simp at hlen
  · obtain ⟨x, hx, rfl⟩ := List.mem_map.1 hu
    exact (h.member hx).2.applySubst hsubst

theorem collect_parts_applySubst (hsubst : subst.Built arity) (ht : Built arity t)
    (htd : t ≠ .dyn) (hd : Check.applySubst subst t ≠ .dyn) (seen : List Ty) :
    collect seen (Check.applySubst subst t).parts =
      collect seen (t.parts.flatMap fun u => (Check.applySubst subst u).parts) := by
  by_cases hp : t.Proper
  · rw [hp.parts, List.flatMap_singleton]
  · cases t with
    | dyn => exact absurd rfl htd
    | never => rfl
    | union inner =>
      obtain ⟨hne, hbuilt⟩ := built_members hsubst ht
      rw [Check.applySubst, applySubsts_eq_map] at hd ⊢
      rw [Ne, unionOf_eq_dyn_iff hne hbuilt] at hd
      rw [parts_unionOf hne hbuilt hd, Lib.FirstSeen.collect_collect, Lib.FirstSeen.collect_nil, List.flatMap_map]
      rfl
    | _ => exact absurd trivial hp

theorem applySubst_eq_dyn_iff (hsubst : subst.Built arity) (ht : Built arity t) (htd : t ≠ .dyn) :
    Check.applySubst subst t = .dyn ↔ ∃ u ∈ t.parts, Check.applySubst subst u = .dyn := by
  by_cases hp : t.Proper
  · rw [hp.parts]
    simp
  · cases t with
    | dyn => exact absurd rfl htd
    | never => simp [Check.applySubst, Ty.parts]
    | union inner =>
      obtain ⟨hne, hbuilt⟩ := built_members hsubst ht
      rw [Check.applySubst, applySubsts_eq_map, unionOf_eq_dyn_iff hne hbuilt, List.mem_map]
      rfl
    | _ => exact absurd trivial hp

/-- A substitution goes through the constructor of unions. -/
theorem applySubst_unionOf (hsubst : subst.Built arity) (hne : ts ≠ []) (hts : ∀ t ∈ ts, Built arity t) :
    Check.applySubst subst (Ty.unionOf ts) = Ty.unionOf (ts.map (Check.applySubst subst)) := by
  have hmapped : ∀ u ∈ ts.map (Check.applySubst subst), Built arity u := by
    intro u hu
    obtain ⟨x, hx, rfl⟩ := List.mem_map.1 hu
    exact (hts x hx).applySubst hsubst
  have hne' : ts.map (Check.applySubst subst) ≠ [] := by simpa using hne
  by_cases hd : .dyn ∈ ts
  · have hd' : .dyn ∈ ts.map (Check.applySubst subst) := List.mem_map.2 ⟨.dyn, hd, rfl⟩
    rw [unionOf_eq hne hts, if_pos hd, unionOf_eq hne' hmapped, if_pos hd']
    rfl
  · have hbuilt : Built arity (Ty.unionOf ts) := Built.unionOf hne hts
    have hnd : Ty.unionOf ts ≠ .dyn := by
      rw [Ne, unionOf_eq_dyn_iff hne hts]
      exact hd
    have hparts := parts_unionOf hne hts hd
    have hneq : ∀ t ∈ ts, t ≠ .dyn := by
      rintro t ht rfl
      exact hd ht
    -- both sides are `dyn` when a part of a member becomes `dyn`
    have hdyn : Check.applySubst subst (Ty.unionOf ts) = .dyn ↔
        .dyn ∈ ts.map (Check.applySubst subst) := by
      rw [applySubst_eq_dyn_iff hsubst hbuilt hnd, hparts, List.mem_map]
      constructor
      · rintro ⟨u, hu, hud⟩
        have hmem : u ∈ ts.flatMap Ty.parts := by simpa using hu
        obtain ⟨t, ht, hut⟩ := List.mem_flatMap.1 hmem
        exact ⟨t, ht, (applySubst_eq_dyn_iff hsubst (hts t ht) (hneq t ht)).2 ⟨u, hut, hud⟩⟩
      · rintro ⟨t, ht, htd⟩
        obtain ⟨u, hut, hud⟩ := (applySubst_eq_dyn_iff hsubst (hts t ht) (hneq t ht)).1 htd
        exact ⟨u, by simpa using ⟨t, ht, hut⟩, hud⟩
    by_cases hout : Check.applySubst subst (Ty.unionOf ts) = .dyn
    · rw [hout, unionOf_eq hne' hmapped, if_pos (hdyn.1 hout)]
    · have hnot : .dyn ∉ ts.map (Check.applySubst subst) := fun h => hout (hdyn.2 h)
      have hnot' : ∀ t ∈ ts, Check.applySubst subst t ≠ .dyn := fun t ht h =>
        hnot (List.mem_map.2 ⟨t, ht, h⟩)
      have hsub := hbuilt.applySubst hsubst
      have hcollected : (Check.applySubst subst (Ty.unionOf ts)).parts =
          collect [] ((ts.map (Check.applySubst subst)).flatMap Ty.parts) := by
        rw [← Lib.FirstSeen.collect_of_nodup hsub.nodup_parts,
          collect_parts_applySubst hsubst hbuilt hnd hout, hparts, Lib.FirstSeen.collect_flatMap_collect,
          List.nil_append, List.flatMap_map, List.flatMap_assoc]
        refine Lib.FirstSeen.collect_flatMap_congr ?_
        intro t ht seen
        exact (collect_parts_applySubst hsubst (hts t ht) (hneq t ht) (hnot' t ht) seen).symm
      rw [unionOf_eq hne' hmapped, if_neg hnot, ← hcollected, hsub.ofFlat_parts hout]

end Built

theorem map_applySubst {sigma tau rho : Subst} {ts : List Ty}
    (h : ∀ t ∈ ts, applySubst tau (applySubst sigma t) = applySubst rho t) :
    (ts.map (applySubst sigma)).map (applySubst tau) = ts.map (applySubst rho) := by
  rw [List.map_map]
  exact List.map_congr_left h

/-- One substitution after the other is one substitution. -/
theorem applySubst_applySubst {arity : String → Nat} {sigma tau : Subst}
    (hsigma : sigma.Built arity) (htau : tau.Built arity) {t : Ty} (h : Built arity t) :
    applySubst tau (applySubst sigma t) = applySubst (sigma.andThen tau) t := by
  induction h with
  | param id =>
    rw [applySubst, applySubst, Subst.get_andThen]
    cases hget : sigma.get id with
    | none => rfl
    | some t => rfl
  | list _ ih => simp only [applySubst, ih]
  | set _ ih => simp only [applySubst, ih]
  | option _ ih => simp only [applySubst, ih]
  | map _ _ ihk ihv => simp only [applySubst, ihk, ihv]
  | result _ _ iht ihe => simp only [applySubst, iht, ihe]
  | named _ _ ih =>
    simp only [applySubst, applySubsts_eq_map, map_applySubst ih]
  | tuple _ ih =>
    simp only [applySubst, applySubsts_eq_map, map_applySubst ih]
  | fn _ _ ihps ihr =>
    simp only [applySubst, applySubsts_eq_map, map_applySubst ihps, ihr]
  | @union ms hlen _ _ hb ih =>
    have hne : ms.map (applySubst sigma) ≠ [] := by
      intro hnil
      rw [List.map_eq_nil_iff] at hnil
      subst hnil
      simp at hlen
    simp only [applySubst, applySubsts_eq_map]
    have hmapped : ∀ u ∈ ms.map (applySubst sigma), Built arity u := by
      intro u hu
      obtain ⟨x, hx, rfl⟩ := List.mem_map.1 hu
      exact (hb x hx).applySubst hsigma
    rw [applySubst_unionOf htau hne hmapped, map_applySubst ih]
  | _ => rfl

/-! ## Unions that collapse -/

/-- Comparing the first pair at its flag goes on to compare the second at its own. -/
inductive Compares (rules : NominalRules) : Ty × Ty × Bool → Ty × Ty × Bool → Prop
  | within {s t s' t' : Ty} {ok : Bool} : Asks (s, t) (s', t') →
      (∀ n a b, s = .named n a → t ≠ .named n b) → Compares rules (s, t, ok) (s', t', ok)
  | argument {n : String} {a b : List Ty} {i : Nat} {x y : Ty} {ok : Bool} : a[i]? = some x →
      b[i]? = some y →
      Compares rules (.named n a, .named n b, ok) (x, y, ok && rules.covariantArg n i)

/-- The members of a union after a substitution. -/
def becomes (subst : Subst) (ms : List Ty) : List Ty :=
  (ms.map (applySubst subst)).flatMap Ty.parts

/-- There is one member at most. -/
def Single (ms : List Ty) : Prop :=
  ∀ u ∈ ms, ∀ v ∈ ms, u = v

/-- The right union shrinks to a trait object and the left keeps two members, or the left shrinks to
one member where it may not be widened and the right does not. -/
def Collapses (subst : Subst) (a b : List Ty) (ok : Bool) : Prop :=
  ((∃ tr, ∀ v ∈ becomes subst b, v = .dynTrait tr) ∧ ¬ Single (becomes subst a)) ∨
    (ok = false ∧ Single (becomes subst a) ∧ ¬ Single (becomes subst b))

/-- No two unions that are compared collapse. -/
def KeepsUnions (rules : NominalRules) (subst : Subst) (s t : Ty) (ok : Bool) : Prop :=
  ∀ a b ok', ReflTransGen (Compares rules) (s, t, ok) (.union a, .union b, ok') →
    ¬ Collapses subst a b ok'

section Stable

variable {rules : NominalRules} {arity : String → Nat} {subst : Subst} {ok : Bool}

theorem KeepsUnions.of_compares {s t s' t' : Ty} {ok' : Bool} (h : KeepsUnions rules subst s t ok)
    (hc : Compares rules (s, t, ok) (s', t', ok')) : KeepsUnions rules subst s' t' ok' :=
  fun a b _ hr => h a b _ (.head hc hr)

theorem param_iff {x y : Ty} (hx : x.Proper) (hy : y.Proper) (hgx : x.isGradual = false)
    (hgy : y.isGradual = false) (h : subtypeAt rules x y ok = true) (p : Nat) :
    x = .param p ↔ y = .param p := by
  constructor
  · rintro rfl
    have hstep : Types.Step rules ok (.param p) y := Types.Step.of_walk hgx hgy (by simp) h
    cases hstep with
    | top => exact absurd hy id
    | unionRight => exact absurd hy id
    | atom => rfl
  · rintro rfl
    have hstep : Types.Step rules ok x (.param p) := Types.Step.of_walk hgx hgy (by simp) h
    cases hstep with
    | bottom => exact absurd hx id
    | unionLeft => exact absurd hx id
    | atom => rfl

theorem proper_applySubst {m : Ty} (hm : m.Proper) (hne : ∀ id, m ≠ .param id) :
    (applySubst subst m).Proper := by
  cases m with
  | param id => exact absurd rfl (hne id)
  | _ => trivial

variable {ms : List Ty}

theorem length_le_one (hnodup : ms.Nodup) (h : Single ms) : ms.length ≤ 1 := by
  match ms, hnodup, h with
  | [], _, _ => simp
  | [_], _, _ => simp
  | u :: v :: rest, hnodup, h =>
    have heq : u = v := h u (by simp) v (by simp)
    simp [heq] at hnodup

/-- Types that are built of collected members are compared member by member. -/
theorem subtypeAt_ofFlat {as bs : List Ty} (ha : ∀ u ∈ as, u.Proper) (hb : ∀ v ∈ bs, v.Proper)
    (hleft : ∀ u ∈ as, ∃ v ∈ bs, subtypeAt rules u v ok = true)
    (hright : ok = false → ∀ v ∈ bs, ∃ u ∈ as, subtypeAt rules u v ok = true)
    (hlone : ∀ tr, bs = [.dynTrait tr] → as.length ≤ 1)
    (hsingle : ok = false → as.length ≤ 1 → bs.length ≤ 1) :
    subtypeAt rules (Ty.ofFlat true as) (Ty.ofFlat true bs) ok = true := by
  match as, bs, ha, hb, hleft, hright, hlone, hsingle with
  | [], bs, _, _, _, _, _, _ => exact subtypeAt_never _
  | u :: _, [], _, _, hleft, _, _, _ =>
    obtain ⟨v, hv, -⟩ := hleft u (by simp)
    cases hv
  | [u], [v], _, _, hleft, _, _, _ =>
    obtain ⟨v', hv, huv⟩ := hleft u (by simp)
    rw [List.mem_singleton] at hv
    exact hv ▸ huv
  | [u], v :: w :: rest, ha, _, hleft, _, _, hsingle =>
    cases ok with
    | true =>
      obtain ⟨v', hv, huv⟩ := hleft u (by simp)
      exact (Types.Step.unionRight (ha u (by simp)) rfl hv huv).subtypeAt
    | false => exact absurd (hsingle rfl (by simp)) (by simp)
  | u :: u' :: rest, [v], _, hb, hleft, _, hlone, _ =>
    refine (Types.Step.unionLeft ?_ ?_ ?_).subtypeAt
    · rintro inner rfl
      exact hb (.union inner) (by simp)
    · rintro tr rfl
      exact absurd (hlone tr rfl) (by simp)
    · intro x hx
      obtain ⟨v', hv, hxv⟩ := hleft x hx
      rw [List.mem_singleton] at hv
      exact hv ▸ hxv
  | _ :: _ :: _, _ :: _ :: _, _, _, hleft, hright, _, _ =>
    exact (Types.Step.unions hleft hright).subtypeAt

theorem applySubst_union (hsubst : subst.Built arity) (h : Built arity (.union ms)) :
    (.dyn ∈ ms.map (applySubst subst) ∧ applySubst subst (.union ms) = .dyn) ∨
    (.dyn ∉ ms.map (applySubst subst) ∧
      applySubst subst (.union ms) = Ty.ofFlat true (collect [] (becomes subst ms)) ∧
      ∀ u ∈ collect [] (becomes subst ms), u.Proper) := by
  obtain ⟨hne, hbuilt⟩ := built_members hsubst h
  rw [applySubst, applySubsts_eq_map, unionOf_eq hne hbuilt]
  by_cases hd : .dyn ∈ ms.map (applySubst subst)
  · exact .inl ⟨hd, if_pos hd⟩
  · exact .inr ⟨hd, if_neg hd, fun u hu => (built_of_mem_collect hbuilt hd hu).1⟩

theorem mem_becomes {u : Ty} : u ∈ becomes subst ms ↔ ∃ m ∈ ms, u ∈ (applySubst subst m).parts := by
  simp [becomes]

/-- What a member becomes is covered by what its cover becomes. -/
theorem exists_part {x y : Ty} (hx : x.Proper) (hy : y.Proper) (hbx : Built arity x)
    (hby : Built arity y) (h : subtypeAt rules x y ok = true)
    (h' : subtypeAt rules (applySubst subst x) (applySubst subst y) ok = true) :
    (∀ u ∈ (applySubst subst x).parts, ∃ v ∈ (applySubst subst y).parts,
      subtypeAt rules u v ok = true) ∧
    (∀ v ∈ (applySubst subst y).parts, ∃ u ∈ (applySubst subst x).parts,
      subtypeAt rules u v ok = true) ∧
    (applySubst subst x = .dyn ↔ applySubst subst y = .dyn) := by
  have hparam := param_iff hx hy hbx.isGradual hby.isGradual h
  by_cases hp : ∃ id, x = .param id
  · obtain ⟨id, rfl⟩ := hp
    obtain rfl := (hparam id).1 rfl
    exact ⟨fun u hu => ⟨u, hu, subtypeAt_refl u ok⟩, fun v hv => ⟨v, hv, subtypeAt_refl v ok⟩,
      Iff.rfl⟩
  · have hsx : (applySubst subst x).Proper := proper_applySubst hx fun id h => hp ⟨id, h⟩
    have hsy : (applySubst subst y).Proper :=
      proper_applySubst hy fun id h => hp ⟨id, (hparam id).2 h⟩
    rw [hsx.parts, hsy.parts]
    refine ⟨?_, ?_, ?_⟩
    · intro u hu
      rw [List.mem_singleton] at hu
      exact ⟨_, by simp, hu ▸ h'⟩
    · intro v hv
      rw [List.mem_singleton] at hv
      exact ⟨_, by simp, hv ▸ h'⟩
    · constructor
      · intro hd
        rw [hd] at hsx
        exact absurd hsx id
      · intro hd
        rw [hd] at hsy
        exact absurd hsy id

/-- Two unions whose members are covered stay subtypes when they do not collapse. -/
theorem unions_stable (hsubst : subst.Built arity) {a b : List Ty} (ha : Built arity (.union a))
    (hb : Built arity (.union b)) (hno : ¬ Collapses subst a b ok)
    (hleft : ∀ x ∈ a, ∃ y ∈ b, subtypeAt rules x y ok = true ∧
      subtypeAt rules (applySubst subst x) (applySubst subst y) ok = true)
    (hright : ok = false → ∀ y ∈ b, ∃ x ∈ a, subtypeAt rules x y ok = true ∧
      subtypeAt rules (applySubst subst x) (applySubst subst y) ok = true) :
    subtypeAt rules (applySubst subst (.union a)) (applySubst subst (.union b)) ok = true := by
  rcases applySubst_union hsubst hb with ⟨hdb, heqb⟩ | ⟨hdb, heqb, hpb⟩
  · rw [heqb]
    apply subtypeAt_dyn
    cases ok with
    | true => exact .inl rfl
    | false =>
      -- the member that becomes `dyn` is covered by one that does too
      obtain ⟨y, hy, hyd⟩ := List.mem_map.1 hdb
      obtain ⟨x, hx, hxy, hxy'⟩ := hright rfl y hy
      have hpart := exists_part (ha.member hx).1 (hb.member hy).1 (ha.member hx).2 (hb.member hy).2
        hxy hxy'
      rcases applySubst_union hsubst ha with ⟨-, heqa⟩ | ⟨hda, -⟩
      · exact .inr heqa
      · exact absurd (List.mem_map.2 ⟨x, hx, hpart.2.2.2 hyd⟩) hda
  · rcases applySubst_union hsubst ha with ⟨hda, -⟩ | ⟨-, heqa, hpa⟩
    · obtain ⟨x, hx, hxd⟩ := List.mem_map.1 hda
      obtain ⟨y, hy, hxy, hxy'⟩ := hleft x hx
      have hpart := exists_part (ha.member hx).1 (hb.member hy).1 (ha.member hx).2 (hb.member hy).2
        hxy hxy'
      exact absurd (List.mem_map.2 ⟨y, hy, hpart.2.2.1 hxd⟩) hdb
    · rw [heqa, heqb]
      have hmem : ∀ (ms : List Ty) u, u ∈ collect [] (becomes subst ms) ↔ u ∈ becomes subst ms := by
        intro ms u
        simp
      have hshrink : ∀ ms : List Ty, Single (becomes subst ms) →
          (collect [] (becomes subst ms)).length ≤ 1 := by
        intro ms h
        refine length_le_one (Lib.FirstSeen.nodup_collect List.nodup_nil) ?_
        intro u hu v hv
        exact h u ((hmem ms u).1 hu) v ((hmem ms v).1 hv)
      have hgrown : ∀ ms : List Ty, (collect [] (becomes subst ms)).length ≤ 1 →
          Single (becomes subst ms) := by
        intro ms h u hu v hv
        have hu' := (hmem ms u).2 hu
        have hv' := (hmem ms v).2 hv
        match collect [] (becomes subst ms), h, hu', hv' with
        | [w], _, hu', hv' =>
          rw [List.mem_singleton] at hu' hv'
          exact hu'.trans hv'.symm
      apply subtypeAt_ofFlat hpa hpb
      · intro u hu
        obtain ⟨x, hx, hux⟩ := mem_becomes.1 ((hmem a u).1 hu)
        obtain ⟨y, hy, hxy, hxy'⟩ := hleft x hx
        obtain ⟨v, hv, huv⟩ := (exists_part (ha.member hx).1 (hb.member hy).1 (ha.member hx).2
          (hb.member hy).2 hxy hxy').1 u hux
        exact ⟨v, (hmem b v).2 (mem_becomes.2 ⟨y, hy, hv⟩), huv⟩
      · intro hok v hv
        obtain ⟨y, hy, hvy⟩ := mem_becomes.1 ((hmem b v).1 hv)
        obtain ⟨x, hx, hxy, hxy'⟩ := hright hok y hy
        obtain ⟨u, hu, huv⟩ := (exists_part (ha.member hx).1 (hb.member hy).1 (ha.member hx).2
          (hb.member hy).2 hxy hxy').2.1 v hvy
        exact ⟨u, (hmem a u).2 (mem_becomes.2 ⟨x, hx, hu⟩), huv⟩
      · intro tr hone
        by_contra hlen
        refine hno (.inl ⟨⟨tr, ?_⟩, fun h => hlen (hshrink a h)⟩)
        intro v hv
        have hv' := (hmem b v).2 hv
        rw [hone, List.mem_singleton] at hv'
        exact hv'
      · intro hok hlen
        by_contra hlen'
        exact hno (.inr ⟨hok, hgrown a hlen, fun h => hlen' (hshrink b h)⟩)

theorem not_below_dyn {x : Ty} (hx : x.Proper) (hg : x.isGradual = false) :
    subtypeAt rules x .dyn false ≠ true := by
  intro h
  have hstep : Types.Step rules false x .dyn := Types.Step.of_walk hg rfl (by simp) h
  cases hstep with
  | bottom => exact hx
  | top _ hok => cases hok
  | dynRefl => exact hx
  | unionLeft => exact hx
  | atom h => exact h

theorem not_below_never {x : Ty} (hx : x.Proper) (hg : x.isGradual = false) :
    subtypeAt rules x .never ok ≠ true := by
  intro h
  have hstep : Types.Step rules ok x .never := Types.Step.of_walk hg rfl (by simp) h
  cases hstep with
  | bottom => exact hx
  | unionLeft => exact hx
  | atom h => exact h

/-- A union below a type that is no union stays below it. -/
theorem unionLeft_stable (hsubst : subst.Built arity) {a : List Ty} {t : Ty}
    (ha : Built arity (.union a)) (ht : Built arity t) (hnu : ∀ inner, t ≠ .union inner)
    (hnt : ∀ tr, t ≠ .dynTrait tr)
    (h : ∀ x ∈ a, subtypeAt rules x t ok = true ∧
      subtypeAt rules (applySubst subst x) (applySubst subst t) ok = true) :
    subtypeAt rules (applySubst subst (.union a)) (applySubst subst t) ok = true := by
  obtain ⟨x, y, rest, rfl⟩ : ∃ x y rest, a = x :: y :: rest := by
    cases ha with
    | union hlen =>
      match a, hlen with
      | x :: y :: rest, _ => exact ⟨x, y, rest, rfl⟩
  have hx := ha.member (show x ∈ x :: y :: rest by simp)
  by_cases htd : t = .dyn
  · subst htd
    cases ok with
    | true => exact subtypeAt_dyn _ (.inl rfl)
    | false => exact absurd (h x (by simp)).1 (not_below_dyn hx.1 hx.2.isGradual)
  have htp : t.Proper := by
    cases t with
    | dyn => exact absurd rfl htd
    | never => exact absurd (h x (by simp)).1 (not_below_never hx.1 hx.2.isGradual)
    | union inner => exact absurd rfl (hnu inner)
    | _ => trivial
  have hparam : ∀ m ∈ x :: y :: rest, ∀ p, m = .param p ↔ t = .param p := fun m hm =>
    param_iff (ha.member hm).1 htp (ha.member hm).2.isGradual ht.isGradual (h m hm).1
  have hnp : ∀ p, t ≠ .param p := by
    intro p htp
    have hxy : x = y :=
      ((hparam x (by simp) p).2 htp).trans ((hparam y (by simp) p).2 htp).symm
    cases ha with
    | union _ hnodup => simp [hxy] at hnodup
  have hsp : ∀ m ∈ x :: y :: rest, (applySubst subst m).Proper := fun m hm =>
    proper_applySubst (ha.member hm).1 fun p hmp => hnp p ((hparam m hm p).1 hmp)
  rcases applySubst_union hsubst ha with ⟨hd, -⟩ | ⟨-, heq, hproper⟩
  · obtain ⟨m, hm, hmd⟩ := List.mem_map.1 hd
    have hbad := hsp m hm
    rw [hmd] at hbad
    exact absurd hbad id
  · have hone : ∀ m ∈ x :: y :: rest, applySubst subst m ∈
        collect [] (becomes subst (x :: y :: rest)) := by
      intro m hm
      refine Lib.FirstSeen.mem_collect.2 (.inr (mem_becomes.2 ⟨m, hm, ?_⟩))
      rw [(hsp m hm).parts]
      exact List.mem_singleton_self _
    have htsp : (applySubst subst t).Proper := proper_applySubst htp hnp
    have hright : applySubst subst t = Ty.ofFlat true [applySubst subst t] := rfl
    rw [heq, hright]
    apply subtypeAt_ofFlat hproper
    · intro v hv
      rw [List.mem_singleton] at hv
      exact hv ▸ htsp
    · intro u hu
      have hu' : u ∈ becomes subst (x :: y :: rest) := by simpa using hu
      obtain ⟨m, hm, hum⟩ := mem_becomes.1 hu'
      rw [(hsp m hm).parts, List.mem_singleton] at hum
      exact ⟨_, List.mem_singleton_self _, hum ▸ (h m hm).2⟩
    · intro _ v hv
      rw [List.mem_singleton] at hv
      exact ⟨_, hone x (by simp), hv ▸ (h x (by simp)).2⟩
    · intro tr hlone
      exfalso
      cases t with
      | param p => exact hnp p rfl
      | dynTrait tr' => exact hnt tr' rfl
      | dyn => exact htd rfl
      | union inner => exact hnu inner rfl
      | _ => simp [applySubst] at hlone
    · intro _ _
      simp

theorem proper_of_mem_parts {t u : Ty} (ht : Built arity t) (hd : t ≠ .dyn) (hu : u ∈ t.parts) :
    u.Proper := by
  by_cases hp : t.Proper
  · rw [hp.parts, List.mem_singleton] at hu
    exact hu ▸ hp
  · cases t with
    | dyn => exact absurd rfl hd
    | never => cases hu
    | union inner => exact (ht.member hu).1
    | _ => exact absurd trivial hp

/-- A type below a member of a union stays below the union. -/
theorem unionRight_stable (hsubst : subst.Built arity) {s y : Ty} {b : List Ty} (hp : s.Proper)
    (hs : Built arity s) (hb : Built arity (.union b)) (hy : y ∈ b)
    (h : subtypeAt rules s y true = true)
    (h' : subtypeAt rules (applySubst subst s) (applySubst subst y) true = true) :
    subtypeAt rules (applySubst subst s) (applySubst subst (.union b)) true = true := by
  obtain ⟨hleft, -, hdyn⟩ := exists_part hp (hb.member hy).1 hs (hb.member hy).2 h h'
  rcases applySubst_union hsubst hb with ⟨-, heq⟩ | ⟨hd, heq, hproper⟩
  · rw [heq]
    exact subtypeAt_dyn _ (.inl rfl)
  · have hsd : applySubst subst s ≠ .dyn := fun hsd =>
      hd (List.mem_map.2 ⟨y, hy, hdyn.1 hsd⟩)
    have hbuilt := hs.applySubst hsubst
    have hin : ∀ v ∈ (applySubst subst y).parts, v ∈ collect [] (becomes subst b) := fun v hv =>
      Lib.FirstSeen.mem_collect.2 (.inr (mem_becomes.2 ⟨y, hy, hv⟩))
    rw [heq, ← hbuilt.ofFlat_parts hsd]
    apply subtypeAt_ofFlat (fun u hu => proper_of_mem_parts hbuilt hsd hu) hproper
    · intro u hu
      obtain ⟨v, hv, huv⟩ := hleft u hu
      exact ⟨v, hin v hv, huv⟩
    · intro hok
      cases hok
    · intro tr hone
      refine length_le_one hbuilt.nodup_parts ?_
      by_cases hparam : ∃ p, s = .param p
      · obtain ⟨p, rfl⟩ := hparam
        obtain rfl := (param_iff hp (hb.member hy).1 rfl (hb.member hy).2.isGradual h p).1 rfl
        intro u hu v hv
        have hu' := hin u hu
        have hv' := hin v hv
        rw [hone, List.mem_singleton] at hu' hv'
        exact hu'.trans hv'.symm
      · have hsp : (applySubst subst s).Proper := proper_applySubst hp fun p hs => hparam ⟨p, hs⟩
        rw [hsp.parts]
        intro u hu v hv
        rw [List.mem_singleton] at hu hv
        exact hu.trans hv.symm
    · intro hok
      cases hok

/-- What the induction on the size of the compared types gives. -/
def StableBelow (rules : NominalRules) (arity : String → Nat) (subst : Subst) (n : Nat) : Prop :=
  ∀ s t ok, sizeOf s + sizeOf t < n → Built arity s → Built arity t →
    KeepsUnions rules subst s t ok → subtypeAt rules s t ok = true →
    subtypeAt rules (applySubst subst s) (applySubst subst t) ok = true

theorem getElem?_map_applySubst {l : List Ty} {i : Nat} {u : Ty}
    (h : (l.map (applySubst subst))[i]? = some u) :
    ∃ x, l[i]? = some x ∧ applySubst subst x = u := by
  rw [List.getElem?_map] at h
  exact Option.map_eq_some_iff.1 h

theorem named_stable {n : String} {a b : List Ty} {m : Nat}
    (ih : StableBelow rules arity subst m) (hlt : sizeOf (Ty.named n a) + sizeOf (Ty.named n b) ≤ m)
    (ha : Built arity (.named n a)) (hb : Built arity (.named n b))
    (hk : KeepsUnions rules subst (.named n a) (.named n b) ok)
    (h : subtypeAt rules (.named n a) (.named n b) ok = true) :
    subtypeAt rules (applySubst subst (.named n a)) (applySubst subst (.named n b)) ok = true := by
  cases ha with
  | named hlen hall =>
    cases hb with
    | named hlen' hall' =>
      have heq : a.length = b.length := hlen.trans hlen'.symm
      rw [applySubst, applySubst, applySubsts_eq_map, applySubsts_eq_map]
      refine (subtypeAt_named_iff fun _ => by simpa using heq).2 ⟨rfl, ?_⟩
      intro i u v hu hv
      obtain ⟨x, hx, rfl⟩ := getElem?_map_applySubst hu
      obtain ⟨y, hy, rfl⟩ := getElem?_map_applySubst hv
      rcases ((subtypeAt_named_iff fun _ => heq).1 h).2 i x y hx hy with rfl | hxy
      · exact .inl rfl
      · right
        have hsx := sizeOf_lt_of_getElem? hx
        have hsy := sizeOf_lt_of_getElem? hy
        simp only [Ty.named.sizeOf_spec] at hlt
        exact ih x y _ (by omega) (hall x (List.mem_of_getElem? hx))
          (hall' y (List.mem_of_getElem? hy)) (hk.of_compares (.argument hx hy)) hxy

/-- A pair of types at least one of which is not nominal is compared part by part. -/
theorem step_stable (hsubst : subst.Built arity) {s t : Ty} {m : Nat}
    (ih : StableBelow rules arity subst m) (hlt : sizeOf s + sizeOf t ≤ m) (hs : Built arity s)
    (ht : Built arity t) (hk : KeepsUnions rules subst s t ok)
    (hnn : ∀ n a b, s = .named n a → t ≠ .named n b)
    (h : Types.Step rules ok s t) :
    subtypeAt rules (applySubst subst s) (applySubst subst t) ok = true := by
  have hpart : ∀ {s' t' : Ty}, Asks (s, t) (s', t') → sizeOf s' + sizeOf t' < sizeOf s + sizeOf t →
      Built arity s' → Built arity t' → subtypeAt rules s' t' ok = true →
      subtypeAt rules (applySubst subst s') (applySubst subst t') ok = true := by
    intro s' t' hasks hsize hs' ht' h'
    exact ih s' t' ok (by omega) hs' ht' (hk.of_compares (.within hasks hnn)) h'
  cases h with
  | bottom => exact subtypeAt_never _
  | top _ hok => exact subtypeAt_dyn _ (.inl hok)
  | dynRefl => exact subtypeAt_refl _ _
  | dynToTrait tr => exact (Types.Step.dynToTrait tr).subtypeAt
  | traitRefl => exact subtypeAt_refl _ _
  | implementor n args tr hok himpl => exact (Types.Step.implementor n _ tr hok himpl).subtypeAt
  | ofKind n args k hok hkind => exact (Types.Step.ofKind n _ k hok hkind).subtypeAt
  | atom => exact subtypeAt_refl _ _
  | @unions a b hleft hright =>
    have hmember : ∀ x ∈ a, ∀ y ∈ b, subtypeAt rules x y ok = true →
        subtypeAt rules (applySubst subst x) (applySubst subst y) ok = true := by
      intro x hx y hy hxy
      have hsx := List.sizeOf_lt_of_mem hx
      have hsy := List.sizeOf_lt_of_mem hy
      simp only [Ty.union.sizeOf_spec] at hlt
      have hmid : KeepsUnions rules subst x (.union b) ok :=
        hk.of_compares (.within (.unionLeft hx) hnn)
      exact ih x y ok (by omega) (hs.member hx).2 (ht.member hy).2
        (hmid.of_compares (.within (.unionRight (hs.member hx).1 hy) (by simp))) hxy
    refine unions_stable hsubst hs ht (hk a b ok .refl) ?_ ?_
    · intro x hx
      obtain ⟨y, hy, hxy⟩ := hleft x hx
      exact ⟨y, hy, hxy, hmember x hx y hy hxy⟩
    · intro hok y hy
      obtain ⟨x, hx, hxy⟩ := hright hok y hy
      exact ⟨x, hx, hxy, hmember x hx y hy hxy⟩
  | @unionLeft a _ hnu hnt hall =>
    refine unionLeft_stable hsubst hs ht hnu hnt ?_
    intro x hx
    have hsx := List.sizeOf_lt_of_mem hx
    exact ⟨hall x hx, hpart (.unionLeft hx) (by simp only [Ty.union.sizeOf_spec]; omega)
      (hs.member hx).2 ht (hall x hx)⟩
  | @unionRight _ y b hp hok hy hsy =>
    subst hok
    have hsize := List.sizeOf_lt_of_mem hy
    exact unionRight_stable hsubst hp hs ht hy hsy
      (hpart (.unionRight hp hy) (by simp only [Ty.union.sizeOf_spec]; omega) hs
        (ht.member hy).2 hsy)
  | list hab =>
    cases hs with
    | list hs =>
      cases ht with
      | list ht =>
        exact (Types.Step.list (hpart (.list _ _) (by simp; omega) hs ht hab)).subtypeAt
  | set hab =>
    cases hs with
    | set hs =>
      cases ht with
      | set ht => exact (Types.Step.set (hpart (.set _ _) (by simp; omega) hs ht hab)).subtypeAt
  | option hab =>
    cases hs with
    | option hs =>
      cases ht with
      | option ht =>
        exact (Types.Step.option (hpart (.option _ _) (by simp; omega) hs ht hab)).subtypeAt
  | map hkk hvv =>
    cases hs with
    | map hsk hsv =>
      cases ht with
      | map htk htv =>
        exact (Types.Step.map (hpart (.mapKey _ _ _ _) (by simp; omega) hsk htk hkk)
          (hpart (.mapValue _ _ _ _) (by simp; omega) hsv htv hvv)).subtypeAt
  | result htt hee =>
    cases hs with
    | result hst hse =>
      cases ht with
      | result htt' hte =>
        exact (Types.Step.result (hpart (.resultOk _ _ _ _) (by simp; omega) hst htt' htt)
          (hpart (.resultErr _ _ _ _) (by simp; omega) hse hte hee)).subtypeAt
  | tuple hlen hall =>
    cases hs with
    | tuple hs =>
      cases ht with
      | tuple ht =>
        rw [applySubst, applySubst, applySubsts_eq_map, applySubsts_eq_map]
        refine (Types.Step.tuple (by simpa using hlen) ?_).subtypeAt
        intro i u v hu hv
        obtain ⟨x, hx, rfl⟩ := getElem?_map_applySubst hu
        obtain ⟨y, hy, rfl⟩ := getElem?_map_applySubst hv
        have hsx := sizeOf_lt_of_getElem? hx
        have hsy := sizeOf_lt_of_getElem? hy
        exact hpart (.tuple hx hy) (by simp only [Ty.tuple.sizeOf_spec]; omega)
          (hs x (List.mem_of_getElem? hx)) (ht y (List.mem_of_getElem? hy)) (hall i x y hx hy)
  | fn hlen hps hret =>
    cases hs with
    | fn hsp hsr =>
      cases ht with
      | fn htp htr =>
        rw [applySubst, applySubst, applySubsts_eq_map, applySubsts_eq_map]
        refine (Types.Step.fn (by simpa using hlen) ?_
          (hpart (.fnRet _ _ _ _) (by simp only [Ty.fn.sizeOf_spec]; omega) hsr htr hret)).subtypeAt
        intro i u v hu hv
        obtain ⟨x, hx, rfl⟩ := getElem?_map_applySubst hu
        obtain ⟨y, hy, rfl⟩ := getElem?_map_applySubst hv
        have hsx := sizeOf_lt_of_getElem? hx
        have hsy := sizeOf_lt_of_getElem? hy
        exact hpart (.fnParam hx hy) (by simp only [Ty.fn.sizeOf_spec]; omega)
          (htp y (List.mem_of_getElem? hy)) (hsp x (List.mem_of_getElem? hx)) (hps i x y hx hy)
  | @named n a b hlen hall => exact absurd rfl (hnn n a b rfl)

theorem stableBelow (hsubst : subst.Built arity) (n : Nat) : StableBelow rules arity subst n := by
  induction n with
  | zero =>
    intro s t ok hlt
    omega
  | succ n ih =>
    intro s t ok hlt hs ht hk h
    by_cases hnamed : ∃ name a b, s = .named name a ∧ t = .named name b
    · obtain ⟨name, a, b, rfl, rfl⟩ := hnamed
      exact named_stable ih (by omega) hs ht hk h
    · have hnn : ∀ name a b, s = .named name a → t ≠ .named name b := fun name a b hs ht =>
        hnamed ⟨name, a, b, hs, ht⟩
      have hstep : Types.Step rules ok s t := by
        refine Types.Step.of_walk hs.isGradual ht.isGradual ?_ h
        intro name a b hs ht
        exact absurd ht (hnn name a b hs)
      exact step_stable hsubst ih (by omega) hs ht hk hnn hstep

end Stable

/-- A registry in which both `Dog` and `Cat` implement `Speak`. -/
def petRules : NominalRules where
  isOfKind _ _ := false
  implementsTrait n tr := (n == "Dog" || n == "Cat") && tr == "Speak"
  covariantArg _ _ := false

end Noeta.Check
