import Noeta.Types.Variance

/-!
# What a covariant mark promises

A type that mentions a parameter in read positions only is monotone in it, up to the trait-object arm
of the walk. The annotations of a declaration whose parameter is marked are such types when `Self`,
which stands for the type at its own parameters, is read like one of them: the occurrence rules
look for the spelling of the parameter alone.
-/

namespace Noeta.Types

open Lib.FirstSeen

/-! ### Where a name or a parameter occurs in a type -/

/-- What counts as an occurrence: some nominal names, some parameters. -/
structure Leaf where
  name : String → Bool
  param : Nat → Bool

mutual

def mentionsTy (leaf : Leaf) : Ty → Bool
  | .named n args => leaf.name n || mentionsTys leaf args
  | .param id => leaf.param id
  | .list t => mentionsTy leaf t
  | .set t => mentionsTy leaf t
  | .map k v => mentionsTy leaf k || mentionsTy leaf v
  | .option t => mentionsTy leaf t
  | .result t e => mentionsTy leaf t || mentionsTy leaf e
  | .tuple es => mentionsTys leaf es
  | .union es => mentionsTys leaf es
  | .fn ps r => mentionsTys leaf ps || mentionsTy leaf r
  | _ => false

def mentionsTys (leaf : Leaf) : List Ty → Bool
  | [] => false
  | t :: ts => mentionsTy leaf t || mentionsTys leaf ts

end

theorem mentionsTys_eq_false_iff (leaf : Leaf) (ts : List Ty) :
    mentionsTys leaf ts = false ↔ ∀ t ∈ ts, mentionsTy leaf t = false := by
  induction ts with
  | nil => simp [mentionsTys]
  | cons t ts ih => simp [mentionsTys, ih]

/-- Every occurrence is in a position a value is only read from. -/
inductive ReadOnly (leaf : Leaf) (covariantArg : String → Nat → Bool) : Ty → Prop
  | absent {t : Ty} : mentionsTy leaf t = false → ReadOnly leaf covariantArg t
  | param (id : Nat) : ReadOnly leaf covariantArg (.param id)
  | named {n : String} {args : List Ty} :
      (∀ (j : Nat) a, args[j]? = some a → ReadOnly leaf covariantArg a) →
      (∀ (j : Nat) a, args[j]? = some a → mentionsTy leaf a = true → covariantArg n j = true) →
      ReadOnly leaf covariantArg (.named n args)
  | list {a : Ty} : ReadOnly leaf covariantArg a → ReadOnly leaf covariantArg (.list a)
  | set {a : Ty} : ReadOnly leaf covariantArg a → ReadOnly leaf covariantArg (.set a)
  | map {k v : Ty} : ReadOnly leaf covariantArg k → ReadOnly leaf covariantArg v →
      ReadOnly leaf covariantArg (.map k v)
  | option {a : Ty} : ReadOnly leaf covariantArg a → ReadOnly leaf covariantArg (.option a)
  | result {t e : Ty} : ReadOnly leaf covariantArg t → ReadOnly leaf covariantArg e →
      ReadOnly leaf covariantArg (.result t e)
  | tuple {es : List Ty} : (∀ e ∈ es, ReadOnly leaf covariantArg e) →
      ReadOnly leaf covariantArg (.tuple es)
  | union {es : List Ty} : (∀ e ∈ es, ReadOnly leaf covariantArg e) →
      ReadOnly leaf covariantArg (.union es)
  | fn {ps : List Ty} {r : Ty} : mentionsTys leaf ps = false → ReadOnly leaf covariantArg r →
      ReadOnly leaf covariantArg (.fn ps r)

section Unions

variable {leaf : Leaf} {covariantArg : String → Nat → Bool}

theorem unionOf_all {P : Ty → Prop} (ms : List Ty) (hms : ∀ m ∈ ms, ∀ t ∈ m.parts, P t) :
    Ty.unionOf ms = .dyn ∨
      ∃ saw flat, Ty.unionOf ms = Ty.ofFlat saw flat ∧ flat.Nodup ∧ ∀ t ∈ flat, P t := by
  rw [unionOf_eq_ofFlat]
  split
  · exact .inl rfl
  · refine .inr ⟨_, _, rfl, nodup_collect List.nodup_nil, ?_⟩
    intro t ht
    obtain ⟨⟨m, hm, ht⟩, hn⟩ : (∃ m ∈ ms, t ∈ m.brought) ∧ t ≠ .never := by simpa using ht
    exact hms m hm t ((Ty.mem_parts hn).2 ht)

theorem mentionsTy_parts {m : Ty} (h : mentionsTy leaf m = false) :
    ∀ t ∈ m.parts, mentionsTy leaf t = false := by
  intro t ht
  cases m with
  | never => simp [Ty.parts] at ht
  | union inner =>
    rw [mentionsTy, mentionsTys_eq_false_iff] at h
    exact h t ht
  | _ =>
    simp only [Ty.parts, List.mem_singleton] at ht
    exact ht ▸ h

theorem mentionsTy_unionOf (ms : List Ty) (h : ∀ m ∈ ms, mentionsTy leaf m = false) :
    mentionsTy leaf (Ty.unionOf ms) = false := by
  rcases unionOf_all ms (fun m hm => mentionsTy_parts (h m hm)) with heq | ⟨saw, flat, heq, -, hflat⟩
  · rw [heq]
    rfl
  · rw [heq]
    match flat, saw with
    | [], true => rfl
    | [], false => rfl
    | [t], _ => exact hflat t (by simp)
    | t :: u :: rest, _ => exact (mentionsTys_eq_false_iff leaf _).2 hflat

theorem ReadOnly.parts {m : Ty} (h : ReadOnly leaf covariantArg m) :
    ∀ t ∈ m.parts, ReadOnly leaf covariantArg t := by
  intro t ht
  cases m with
  | never => simp [Ty.parts] at ht
  | union inner =>
    cases h with
    | absent habsent => exact .absent (mentionsTy_parts habsent t ht)
    | union hall => exact hall t ht
  | _ =>
    simp only [Ty.parts, List.mem_singleton] at ht
    exact ht ▸ h

theorem ReadOnly.unionOf (ms : List Ty) (h : ∀ m ∈ ms, ReadOnly leaf covariantArg m) :
    ReadOnly leaf covariantArg (Ty.unionOf ms) := by
  rcases unionOf_all ms (fun m hm => (h m hm).parts) with heq | ⟨saw, flat, heq, -, hflat⟩
  · rw [heq]
    exact .absent rfl
  · rw [heq]
    match flat, saw with
    | [], true => exact .absent rfl
    | [], false => exact .absent rfl
    | [t], _ => exact hflat t (by simp)
    | t :: u :: rest, _ => exact .union hflat

end Unions

/-! ### Substitution in a type that is only read -/

mutual

/-- The members of every union in a type. -/
def unionNodes : Ty → List (List Ty)
  | .named _ args => unionNodesAll args
  | .list t => unionNodes t
  | .set t => unionNodes t
  | .map k v => unionNodes k ++ unionNodes v
  | .option t => unionNodes t
  | .result t e => unionNodes t ++ unionNodes e
  | .tuple es => unionNodesAll es
  | .union es => es :: unionNodesAll es
  | .fn ps r => unionNodesAll ps ++ unionNodes r
  | _ => []

def unionNodesAll : List Ty → List (List Ty)
  | [] => []
  | t :: ts => unionNodes t ++ unionNodesAll ts

end

theorem mem_unionNodesAll {ms : List Ty} (ts : List Ty) :
    ms ∈ unionNodesAll ts ↔ ∃ t ∈ ts, ms ∈ unionNodes t := by
  induction ts with
  | nil => simp [unionNodesAll]
  | cons t ts ih => simp [unionNodesAll, ih]

/-- A union with the parameter among its members keeps clear of the trait-object arm: when the wider
argument is a trait object, the narrower one is not `dyn` unless that trait object is all there is
beside the parameter, and in that case it is `dyn`, `never` or the trait object itself. -/
def UnionClear (id : Nat) (s t : Ty) (ms : List Ty) : Prop :=
  .param id ∈ ms → ∀ tr, t = .dynTrait tr →
    ((∀ m ∈ ms, m = .param id ∨ m = .dynTrait tr) → s = .dyn ∨ s = .never ∨ s = .dynTrait tr) ∧
    (s = .dyn → ∀ m ∈ ms, m = .param id ∨ m = .dynTrait tr)

theorem applySubsts_eq_map (id : Nat) (s : Ty) (ts : List Ty) :
    applySubsts id s ts = ts.map (applySubst id s) := by
  induction ts with
  | nil => rfl
  | cons t ts ih => rw [applySubsts, ih, List.map_cons]

/-- The occurrences of a parameter. -/
def paramLeaf (id : Nat) : Leaf := ⟨fun _ => false, fun p => p == id⟩

mutual

theorem applySubst_absent (id : Nat) (s t : Ty) : ∀ a : Ty, mentionsTy (paramLeaf id) a = false →
    applySubst id s a = applySubst id t a
  | .param p, h => by
    have hne : p ≠ id := by simpa [mentionsTy, paramLeaf] using h
    rw [applySubst, applySubst, if_neg hne, if_neg hne]
  | .named n args, h => by
    rw [mentionsTy, Bool.or_eq_false_iff] at h
    rw [applySubst, applySubst, applySubsts_absent id s t args h.2]
  | .list a, h => by
    rw [applySubst, applySubst, applySubst_absent id s t a h]
  | .set a, h => by
    rw [applySubst, applySubst, applySubst_absent id s t a h]
  | .map k v, h => by
    rw [mentionsTy, Bool.or_eq_false_iff] at h
    rw [applySubst, applySubst, applySubst_absent id s t k h.1, applySubst_absent id s t v h.2]
  | .option a, h => by
    rw [applySubst, applySubst, applySubst_absent id s t a h]
  | .result a e, h => by
    rw [mentionsTy, Bool.or_eq_false_iff] at h
    rw [applySubst, applySubst, applySubst_absent id s t a h.1, applySubst_absent id s t e h.2]
  | .tuple es, h => by
    rw [applySubst, applySubst, applySubsts_absent id s t es h]
  | .union es, h => by
    rw [applySubst, applySubst, applySubsts_absent id s t es h]
  | .fn ps r, h => by
    rw [mentionsTy, Bool.or_eq_false_iff] at h
    rw [applySubst, applySubst, applySubsts_absent id s t ps h.1, applySubst_absent id s t r h.2]
  | .unknown, _ | .dyn, _ | .never, _ | .unit, _ | .int, _ | .float, _ | .f32, _ | .f64, _
  | .intN _ _, _ | .bool, _ | .string, _ | .bytes, _ | .kind _, _ | .dynTrait _, _ => rfl

theorem applySubsts_absent (id : Nat) (s t : Ty) : ∀ ts : List Ty,
    mentionsTys (paramLeaf id) ts = false → applySubsts id s ts = applySubsts id t ts
  | [], _ => rfl
  | a :: as, h => by
    rw [mentionsTys, Bool.or_eq_false_iff] at h
    rw [applySubsts, applySubsts, applySubst_absent id s t a h.1, applySubsts_absent id s t as h.2]

end

section Monotone

variable {rules : NominalRules} {arity : String → Nat} {id : Nat} {s t : Ty}

theorem applySubst_proper {m : Ty} (hm : m.Proper) (hne : m ≠ .param id) :
    (applySubst id s m).Proper := by
  cases m with
  | param p =>
    have hp : p ≠ id := fun h => hne (h ▸ rfl)
    rw [applySubst, if_neg hp]
    trivial
  | _ => trivial

theorem eq_dynTrait_of_applySubst {m : Ty} {tr : String} (hm : m.Proper) (hne : m ≠ .param id)
    (h : applySubst id s m = .dynTrait tr) : m = .dynTrait tr := by
  cases m with
  | param p =>
    have hp : p ≠ id := fun h => hne (h ▸ rfl)
    rw [applySubst, if_neg hp] at h
    exact h
  | union => exact absurd hm False.elim
  | dynTrait tr' => exact h
  | _ => simp [applySubst] at h

theorem Ty.Full.part {a x : Ty} (ha : a.Full arity) (hd : a ≠ .dyn) (hx : x ∈ a.parts) :
    x.Full arity ∧ x.Proper := by
  cases a with
  | never => simp [Ty.parts] at hx
  | dyn => exact absurd rfl hd
  | union ms => exact ⟨(ha.member hx).1, (ha.member hx).2.1⟩
  | _ =>
    simp only [Ty.parts, List.mem_singleton] at hx
    subst hx
    exact ⟨ha, trivial⟩

theorem exists_part (hs : s.Full arity) (ht : t.Full arity) (hsd : s ≠ .dyn) (htd : t ≠ .dyn)
    (hsub : subtypeWith rules s t = true) {x : Ty} (hx : x ∈ s.parts) :
    ∃ y ∈ t.parts, subtypeWith rules x y = true := by
  by_cases htrait : ∃ tr, t = .dynTrait tr
  · obtain ⟨tr, rfl⟩ := htrait
    rcases (subtypeWith_trait_iff hs tr).1 hsub with rfl | rfl | rfl | ⟨n, args, rfl, himp⟩
    · exact absurd rfl hsd
    · simp [Ty.parts] at hx
    · exact ⟨_, hx, subtypeAt_refl x true⟩
    · simp only [Ty.parts, List.mem_singleton] at hx ⊢
      exact ⟨_, rfl, hx ▸ hsub⟩
  · have hxt := (subtypeWith_iff_parts hs ht fun tr h => htrait ⟨tr, h⟩).1 hsub x hx
    obtain ⟨hxf, hxp⟩ := hs.part hsd hx
    cases t with
    | dyn => exact absurd rfl htd
    | never =>
      rw [eq_never_of_subtypeAt hxf hxt] at hxp
      exact absurd hxp False.elim
    | union bs =>
      cases Step.of_subtypeAt hxf ht hxt with
      | bottom => exact absurd hxp False.elim
      | unions => exact absurd hxp False.elim
      | unionLeft => exact absurd hxp False.elim
      | unionRight _ _ hy hxy => exact ⟨_, hy, hxy⟩
      | atom hatom => exact absurd hatom False.elim
    | _ => exact ⟨_, List.mem_singleton.2 rfl, hxt⟩

theorem subtypeWith_unknown (t : Ty) : subtypeWith rules .unknown t = true := by
  rw [subtypeWith, subtypeAt.eq_def, if_pos]
  rfl

/-- A union is monotone in what it collects, when it does not shrink to a lone trait object. -/
theorem ofFlat_mono {P Q : Ty → Prop} {sawA sawB : Bool} {flatA flatB : List Ty}
    (hA : Flat P flatA) (hB : Flat Q flatB)
    (hcover : ∀ x ∈ flatA, ∃ y ∈ flatB, subtypeWith rules x y = true)
    (htrait : ∀ tr, flatB = [.dynTrait tr] → ∀ x ∈ flatA, x = .dynTrait tr) :
    subtypeWith rules (Ty.ofFlat sawA flatA) (Ty.ofFlat sawB flatB) = true := by
  match flatA, hA, hcover, htrait with
  | [], _, _, _ =>
    cases sawA with
    | true => exact subtypeAt_never _
    | false => exact subtypeWith_unknown _
  | [x], hA, hcover, _ =>
    obtain ⟨y, hy, hxy⟩ := hcover x (by simp)
    match flatB, hB, hy with
    | [z], _, hy =>
      rw [List.mem_singleton] at hy
      exact hy ▸ hxy
    | z :: w :: rest, _, hy =>
      exact (Step.unionRight (hA.proper x (by simp)) rfl hy hxy).subtypeAt
  | x :: x' :: rest, hA, hcover, htrait =>
    match flatB, hB, hcover, htrait with
    | [], _, hcover, _ =>
      obtain ⟨y, hy, -⟩ := hcover x (by simp)
      simp at hy
    | [y], hB, hcover, htrait =>
      have hbelow : ∀ z ∈ x :: x' :: rest, subtypeWith rules z y = true := by
        intro z hz
        obtain ⟨w, hw, hzw⟩ := hcover z hz
        rw [List.mem_singleton] at hw
        exact hw ▸ hzw
      have hproper := hB.proper y (by simp)
      refine (Step.unionLeft ?_ ?_ hbelow).subtypeAt
      · rintro inner rfl
        exact hproper
      · rintro tr rfl
        have hx := htrait tr rfl x (by simp)
        have hx' := htrait tr rfl x' (by simp)
        have hne := hA.nodup
        simp [hx, hx'] at hne
    | y :: y' :: rest', _, hcover, _ => exact (Step.unions hcover (by simp)).subtypeAt

theorem applySubst_self (id : Nat) (a : Ty) : applySubst id a (.param id) = a := by
  rw [applySubst, if_pos rfl]

section Members

variable {ms : List Ty} (hproper : ∀ m ∈ ms, m.Proper)
include hproper

theorem joins_applySubst (hs : s.Full arity) :
    ∀ u ∈ ms.map (applySubst id s), Joins (fun _ => True) u := by
  intro u hu
  obtain ⟨m, hm, rfl⟩ := List.mem_map.1 hu
  refine ⟨fun _ => trivial, fun inner heq x hx => ⟨trivial, ?_⟩⟩
  by_cases hparam : m = .param id
  · rw [hparam, applySubst_self] at heq
    subst heq
    exact (hs.member hx).2.1
  · have hp := applySubst_proper (s := s) (hproper m hm) hparam
    rw [heq] at hp
    exact absurd hp False.elim

theorem dyn_mem_applySubst (h : .dyn ∈ ms.map (applySubst id s)) : .param id ∈ ms ∧ s = .dyn := by
  obtain ⟨m, hm, heq⟩ := List.mem_map.1 h
  by_cases hparam : m = .param id
  · rw [hparam, applySubst_self] at heq
    exact ⟨hparam ▸ hm, heq⟩
  · have hp := applySubst_proper (s := s) (hproper m hm) hparam
    rw [heq] at hp
    exact absurd hp False.elim

theorem cover_applySubst (hs : s.Full arity) (ht : t.Full arity)
    (hsub : subtypeWith rules s t = true)
    (hsd : .dyn ∉ ms.map (applySubst id s)) (htd : .dyn ∉ ms.map (applySubst id t))
    (hms : ∀ m ∈ ms, subtypeWith rules (applySubst id s m) (applySubst id t m) = true) {m x : Ty}
    (hm : m ∈ ms) (hx : x ∈ (applySubst id s m).parts) :
    ∃ y ∈ (applySubst id t m).parts, subtypeWith rules x y = true := by
  by_cases hparam : m = .param id
  · subst hparam
    have hne : ∀ a : Ty, .dyn ∉ ms.map (applySubst id a) → a ≠ .dyn := by
      rintro a ha rfl
      exact ha (List.mem_map.2 ⟨_, hm, applySubst_self id _⟩)
    rw [applySubst_self] at hx ⊢
    exact exists_part hs ht (hne s hsd) (hne t htd) hsub hx
  · rw [(applySubst_proper (hproper m hm) hparam).parts, List.mem_singleton] at hx
    refine ⟨applySubst id t m, ?_, hx ▸ hms m hm⟩
    rw [(applySubst_proper (hproper m hm) hparam).parts, List.mem_singleton]

/-- A union that shrinks to a trait object is the parameter and that trait object. -/
theorem lone_trait_applySubst (hs : s.Full arity) (ht : t.Full arity)
    (hsub : subtypeWith rules s t = true) (hclear : UnionClear id s t ms) {tr : String}
    (hsd : .dyn ∉ ms.map (applySubst id s))
    (hlone : ∀ m ∈ ms, ∀ y ∈ (applySubst id t m).parts, y = .dynTrait tr) {m x : Ty} (hm : m ∈ ms)
    (hx : x ∈ (applySubst id s m).parts) : x = .dynTrait tr := by
  have hother : ∀ u ∈ ms, u ≠ .param id → u = .dynTrait tr := by
    intro u hu hne
    apply eq_dynTrait_of_applySubst (hproper u hu) hne (s := t)
    apply hlone u hu
    rw [(applySubst_proper (hproper u hu) hne).parts, List.mem_singleton]
  by_cases hparam : m = .param id
  · subst hparam
    have hlonet : ∀ y ∈ t.parts, y = .dynTrait tr := by
      have h := hlone _ hm
      rw [applySubst_self] at h
      exact h
    rw [applySubst_self] at hx
    have htcases : t = .never ∨ t = .dynTrait tr := by
      cases t with
      | never => exact .inl rfl
      | union inner =>
        cases ht with
        | union hlen hnodup hfull hmem =>
          have hsub : ∀ u ∈ inner, u ∈ [Ty.dynTrait tr] := fun u hu => by simpa using hlonet u hu
          rcases eq_nil_or_singleton_of_subset hnodup hsub rfl with hnil | hone
          · simp [hnil] at hlen
          · simp [hone] at hlen
      | _ => exact .inr (hlonet _ (List.mem_singleton.2 rfl))
    rcases htcases with rfl | rfl
    · rw [eq_never_of_subtypeAt hs hsub] at hx
      simp [Ty.parts] at hx
    · have hall : ∀ u ∈ ms, u = .param id ∨ u = .dynTrait tr := by
        intro u hu
        by_cases hne : u = .param id
        · exact .inl hne
        · exact .inr (hother u hu hne)
      rcases (hclear hm tr rfl).1 hall with rfl | rfl | rfl
      · exact absurd (List.mem_map.2 ⟨_, hm, applySubst_self id _⟩) hsd
      · simp [Ty.parts] at hx
      · exact List.mem_singleton.1 hx
  · obtain rfl := hother m hm hparam
    exact List.mem_singleton.1 hx

/-- Substitution of a wider argument in a union widens it. -/
theorem unionOf_applySubst_mono (hs : s.Full arity) (ht : t.Full arity)
    (hsub : subtypeWith rules s t = true) (hclear : UnionClear id s t ms)
    (hms : ∀ m ∈ ms, subtypeWith rules (applySubst id s m) (applySubst id t m) = true) :
    subtypeWith rules (Ty.unionOf (ms.map (applySubst id s)))
      (Ty.unionOf (ms.map (applySubst id t))) = true := by
  rcases unionOf_collects (ms.map (applySubst id t)) (joins_applySubst hproper ht) with
    ⟨-, heq⟩ | ⟨htd, flatB, sawB, heqB, hflatB, -, hpartsB⟩
  · rw [heq]
    exact subtypeAt_dyn _ (.inl rfl)
  rcases unionOf_collects (ms.map (applySubst id s)) (joins_applySubst hproper hs) with
    ⟨hdyn, heqA⟩ | ⟨hsd, flatA, sawA, heqA, hflatA, -, hpartsA⟩
  · -- the narrower union is `dyn`: the wider one has to be a trait object
    obtain ⟨hmem, rfl⟩ := dyn_mem_applySubst hproper hdyn
    rw [heqA, heqB]
    rcases (subtypeWith_dyn_iff ht).1 hsub with rfl | ⟨tr, rfl⟩
    · exact absurd (List.mem_map.2 ⟨_, hmem, applySubst_self id _⟩) htd
    · have hall := (hclear hmem tr rfl).2 rfl
      have hone : ∀ u ∈ flatB, u ∈ [Ty.dynTrait tr] := by
        intro u hu
        obtain ⟨v, hv, huv⟩ := (hpartsB u).1 hu
        obtain ⟨m, hm, rfl⟩ := List.mem_map.1 hv
        rcases hall m hm with rfl | rfl
        · rw [applySubst_self] at huv
          exact huv
        · exact huv
      have hhas : .dynTrait tr ∈ flatB := by
        refine (hpartsB _).2 ⟨_, List.mem_map.2 ⟨_, hmem, applySubst_self id _⟩, ?_⟩
        exact List.mem_singleton.2 rfl
      rcases eq_nil_or_singleton_of_subset hflatB.nodup hone rfl with hnil | hsingle
      · rw [hnil] at hhas
        simp at hhas
      · rw [hsingle]
        exact (Step.dynToTrait tr).subtypeAt
  · rw [heqA, heqB]
    have hsource : ∀ x ∈ flatA, ∃ m ∈ ms, x ∈ (applySubst id s m).parts := by
      intro x hx
      obtain ⟨v, hv, hxv⟩ := (hpartsA x).1 hx
      obtain ⟨m, hm, rfl⟩ := List.mem_map.1 hv
      exact ⟨m, hm, hxv⟩
    have htarget : ∀ m ∈ ms, ∀ y ∈ (applySubst id t m).parts, y ∈ flatB := by
      intro m hm y hy
      exact (hpartsB y).2 ⟨_, List.mem_map.2 ⟨m, hm, rfl⟩, hy⟩
    refine ofFlat_mono hflatA hflatB ?_ ?_
    · intro x hx
      obtain ⟨m, hm, hxm⟩ := hsource x hx
      obtain ⟨y, hy, hxy⟩ := cover_applySubst hproper hs ht hsub hsd htd hms hm hxm
      exact ⟨y, htarget m hm y hy, hxy⟩
    · intro tr hlone x hx
      obtain ⟨m, hm, hxm⟩ := hsource x hx
      refine lone_trait_applySubst hproper hs ht hsub hclear hsd ?_ hm hxm
      intro u hu y hy
      have hy := htarget u hu y hy
      rw [hlone] at hy
      exact List.mem_singleton.1 hy

end Members

/-- A type that mentions a parameter in read positions only is monotone in it. -/
theorem ReadOnly.subtypeWith_applySubst {a : Ty} (h : ReadOnly (paramLeaf id) rules.covariantArg a)
    (hs : s.Full arity) (ht : t.Full arity) (hsub : subtypeWith rules s t = true)
    (hproper : ∀ ms ∈ unionNodes a, ∀ m ∈ ms, m.Proper)
    (hclear : ∀ ms ∈ unionNodes a, UnionClear id s t ms) :
    subtypeWith rules (applySubst id s a) (applySubst id t a) = true := by
  induction h with
  | absent habsent =>
    rw [applySubst_absent id s t _ habsent]
    exact subtypeAt_refl _ true
  | param p =>
    rw [applySubst, applySubst]
    split
    · exact hsub
    · exact subtypeAt_refl _ true
  | @named n args _ hcov ih =>
    rw [applySubst, applySubst, applySubsts_eq_map, applySubsts_eq_map]
    refine (Step.named (by simp) ?_).subtypeAt
    intro j x y hx hy
    rw [List.getElem?_map] at hx hy
    obtain ⟨b, hb, rfl⟩ := Option.map_eq_some_iff.1 hx
    rw [hb, Option.map_some, Option.some.injEq] at hy
    subst hy
    cases hmentions : mentionsTy (paramLeaf id) b with
    | false =>
      rw [applySubst_absent id s t b hmentions]
      exact subtypeAt_refl _ _
    | true =>
      have hnode : ∀ ms ∈ unionNodes b, ms ∈ unionNodes (.named n args) := fun ms hms =>
        (mem_unionNodesAll args).2 ⟨b, List.mem_of_getElem? hb, hms⟩
      rw [hcov j b hb hmentions, Bool.and_self]
      exact ih j b hb (fun ms hms => hproper ms (hnode ms hms)) fun ms hms => hclear ms (hnode ms hms)
  | list _ ih => exact (Step.list (ih hproper hclear)).subtypeAt
  | set _ ih => exact (Step.set (ih hproper hclear)).subtypeAt
  | option _ ih => exact (Step.option (ih hproper hclear)).subtypeAt
  | map _ _ ihk ihv =>
    rw [unionNodes, List.forall_mem_append] at hproper hclear
    exact (Step.map (ihk hproper.1 hclear.1) (ihv hproper.2 hclear.2)).subtypeAt
  | result _ _ iht ihe =>
    rw [unionNodes, List.forall_mem_append] at hproper hclear
    exact (Step.result (iht hproper.1 hclear.1) (ihe hproper.2 hclear.2)).subtypeAt
  | @tuple es _ ih =>
    rw [applySubst, applySubst, applySubsts_eq_map, applySubsts_eq_map]
    refine (Step.tuple (by simp) ?_).subtypeAt
    intro j x y hx hy
    rw [List.getElem?_map] at hx hy
    obtain ⟨b, hb, rfl⟩ := Option.map_eq_some_iff.1 hx
    rw [hb, Option.map_some, Option.some.injEq] at hy
    subst hy
    have hb := List.mem_of_getElem? hb
    have hnode : ∀ ms ∈ unionNodes b, ms ∈ unionNodes (.tuple es) := fun ms hms =>
      (mem_unionNodesAll es).2 ⟨b, hb, hms⟩
    exact ih b hb (fun ms hms => hproper ms (hnode ms hms)) fun ms hms => hclear ms (hnode ms hms)
  | @union es _ ih =>
    rw [applySubst, applySubst, applySubsts_eq_map, applySubsts_eq_map]
    refine unionOf_applySubst_mono (hproper es (by simp [unionNodes])) hs ht hsub
      (hclear es (by simp [unionNodes])) ?_
    intro m hm
    have hnode : ∀ ms ∈ unionNodes m, ms ∈ unionNodes (.union es) := fun ms hms =>
      List.mem_cons_of_mem _ ((mem_unionNodesAll es).2 ⟨m, hm, hms⟩)
    exact ih m hm (fun ms hms => hproper ms (hnode ms hms)) fun ms hms => hclear ms (hnode ms hms)
  | fn hparams _ ih =>
    rw [unionNodes, List.forall_mem_append] at hproper hclear
    rw [applySubst, applySubst, applySubsts_absent id s t _ hparams]
    refine (Step.fn rfl ?_ (ih hproper.2 hclear.2)).subtypeAt
    intro j x y hx hy
    obtain rfl := getElem?_inj hx hy
    exact subtypeAt_refl x true

end Monotone

/-! ### What an annotation resolves to -/

/-- The members of every union in a type are as `Type::union` leaves them. -/
def Normal (t : Ty) : Prop := ∀ ms ∈ unionNodes t, ∀ m ∈ ms, m.Proper

theorem normal_all_iff (ts : List Ty) :
    (∀ ms ∈ unionNodesAll ts, ∀ m ∈ ms, m.Proper) ↔ ∀ t ∈ ts, Normal t := by
  constructor
  · exact fun h t ht ms hms => h ms ((mem_unionNodesAll ts).2 ⟨t, ht, hms⟩)
  · intro h ms hms
    obtain ⟨t, ht, hms⟩ := (mem_unionNodesAll ts).1 hms
    exact h t ht ms hms

theorem Normal.joins {t : Ty} (h : Normal t) : Joins Normal t := by
  refine ⟨fun _ => h, ?_⟩
  rintro inner rfl m hm
  exact ⟨fun ms hms => h ms (List.mem_cons_of_mem _ ((mem_unionNodesAll inner).2 ⟨m, hm, hms⟩)),
    h inner (by simp [unionNodes]) m hm⟩

theorem Normal.unionOf (ts : List Ty) (h : ∀ t ∈ ts, Normal t) : Normal (Ty.unionOf ts) := by
  have hempty : ∀ t : Ty, unionNodes t = [] → Normal t := fun t hnil ms hms => by simp [hnil] at hms
  rcases unionOf_collects ts (fun t ht => (h t ht).joins) with
    ⟨-, heq⟩ | ⟨-, flat, saw, heq, hflat, -, -⟩
  · exact heq ▸ hempty _ rfl
  · rw [heq]
    match flat, saw, hflat with
    | [], true, _ => exact hempty _ rfl
    | [], false, _ => exact hempty _ rfl
    | [t], _, hflat => exact hflat.holds t (by simp)
    | t :: u :: rest, _, hflat =>
      intro ms hms
      rcases List.mem_cons.1 hms with rfl | hms
      · exact hflat.proper
      · exact (normal_all_iff _).2 hflat.holds ms hms

section Resolve

variable {scope : TypeScope}

theorem resolveList_eq_map (ts : List Ty) : resolveList scope ts = ts.map (resolveTypeNames scope) := by
  induction ts with
  | nil => rfl
  | cons t ts ih => rw [resolveList, ih, List.map_cons]

theorem resolve_named (n : String) (args : List Ty) :
    (∃ id, scope.param n = some id ∧ resolveTypeNames scope (.named n args) = .param id) ∨
    (scope.param n = none ∧ n = selfName ∧ args = [] ∧
      ∃ self, scope.selfTy = some self ∧ resolveTypeNames scope (.named n args) = self) ∨
    resolveTypeNames scope (.named n args) = .named n (args.map (resolveTypeNames scope)) := by
  rw [resolveTypeNames, ← resolveList_eq_map]
  cases hparam : scope.param n with
  | some id => exact .inl ⟨id, rfl, rfl⟩
  | none =>
    cases hself : scope.selfTy with
    | none => exact .inr (.inr rfl)
    | some self =>
      by_cases hname : n = selfName ∧ args = []
      · exact .inr (.inl ⟨rfl, hname.1, hname.2, self, rfl, if_pos hname⟩)
      · exact .inr (.inr (if_neg hname))

mutual

theorem normal_resolve (hself : ∀ self, scope.selfTy = some self → Normal self) : ∀ t : Ty,
    Normal (resolveTypeNames scope t)
  | .named n args => by
    rcases resolve_named n args with ⟨id, -, heq⟩ | ⟨-, -, -, self, hs, heq⟩ | heq
    · rw [heq]
      exact fun ms hms => by simp [unionNodes] at hms
    · rw [heq]
      exact hself self hs
    · rw [heq, ← resolveList_eq_map]
      exact (normal_all_iff _).2 (normal_resolveList hself args)
  | .list t => normal_resolve hself t
  | .set t => normal_resolve hself t
  | .map k v => by
    rw [Normal, resolveTypeNames, unionNodes, List.forall_mem_append]
    exact ⟨normal_resolve hself k, normal_resolve hself v⟩
  | .option t => normal_resolve hself t
  | .result t e => by
    rw [Normal, resolveTypeNames, unionNodes, List.forall_mem_append]
    exact ⟨normal_resolve hself t, normal_resolve hself e⟩
  | .tuple es => (normal_all_iff _).2 (normal_resolveList hself es)
  | .union es => Normal.unionOf _ (normal_resolveList hself es)
  | .fn ps r => by
    rw [Normal, resolveTypeNames, unionNodes, List.forall_mem_append]
    exact ⟨(normal_all_iff _).2 (normal_resolveList hself ps), normal_resolve hself r⟩
  | .unknown | .dyn | .never | .unit | .int | .float | .f32 | .f64 | .intN _ _ | .bool | .string
  | .bytes | .kind _ | .dynTrait _ | .param _ => fun ms hms => by
    simp [resolveTypeNames, unionNodes] at hms

theorem normal_resolveList (hself : ∀ self, scope.selfTy = some self → Normal self) :
    ∀ ts : List Ty, ∀ t ∈ resolveList scope ts, Normal t
  | [] => fun t ht => by simp [resolveList] at ht
  | t :: ts => fun u hu => by
    rw [resolveList, List.mem_cons] at hu
    rcases hu with rfl | hu
    · exact normal_resolve hself t
    · exact normal_resolveList hself ts u hu

end

/-- The occurrences of some spellings, before resolution. -/
def namesLeaf (names : List String) (id : Nat) : Leaf := ⟨fun n => names.contains n, fun p => p == id⟩

/-- The spellings through which a scope reaches a parameter: those bound to it, and `Self`, which
mentions it in a read position. -/
structure Reaches (scope : TypeScope) (names : List String) (id : Nat)
    (covariantArg : String → Nat → Bool) : Prop where
  param : ∀ n, scope.param n = some id → n ∈ names
  self : ∀ self, scope.selfTy = some self → (scope.param selfName = none → selfName ∈ names) ∧
    ReadOnly (paramLeaf id) covariantArg self

variable {names : List String} {id : Nat} {covariantArg : String → Nat → Bool}

mutual

/-- A type without one of the spellings does not mention the parameter. -/
theorem absent_resolve (hr : Reaches scope names id covariantArg) : ∀ t : Ty,
    mentionsTy (namesLeaf names id) t = false →
    mentionsTy (paramLeaf id) (resolveTypeNames scope t) = false
  | .named n args, h => by
    rw [mentionsTy, Bool.or_eq_false_iff] at h
    have hn : n ∉ names := by simpa [namesLeaf] using h.1
    rcases resolve_named n args with ⟨p, hp, heq⟩ | ⟨hparam, rfl, rfl, self, hs, -⟩ | heq
    · rw [heq]
      have hne : p ≠ id := by
        rintro rfl
        exact hn (hr.param n hp)
      simpa [mentionsTy, paramLeaf] using hne
    · exact absurd ((hr.self self hs).1 hparam) hn
    · rw [heq, ← resolveList_eq_map, mentionsTy, absent_resolveList hr args h.2]
      rfl
  | .list t, h => absent_resolve hr t h
  | .set t, h => absent_resolve hr t h
  | .map k v, h => by
    rw [mentionsTy, Bool.or_eq_false_iff] at h
    rw [resolveTypeNames, mentionsTy, absent_resolve hr k h.1, absent_resolve hr v h.2]
    rfl
  | .option t, h => absent_resolve hr t h
  | .result t e, h => by
    rw [mentionsTy, Bool.or_eq_false_iff] at h
    rw [resolveTypeNames, mentionsTy, absent_resolve hr t h.1, absent_resolve hr e h.2]
    rfl
  | .tuple es, h => absent_resolveList hr es h
  | .union es, h => by
    rw [resolveTypeNames]
    exact mentionsTy_unionOf _ ((mentionsTys_eq_false_iff _ _).1 (absent_resolveList hr es h))
  | .fn ps r, h => by
    rw [mentionsTy, Bool.or_eq_false_iff] at h
    rw [resolveTypeNames, mentionsTy, absent_resolveList hr ps h.1, absent_resolve hr r h.2]
    rfl
  | .param p, h => h
  | .unknown, _ | .dyn, _ | .never, _ | .unit, _ | .int, _ | .float, _ | .f32, _ | .f64, _
  | .intN _ _, _ | .bool, _ | .string, _ | .bytes, _ | .kind _, _ | .dynTrait _, _ => rfl

theorem absent_resolveList (hr : Reaches scope names id covariantArg) : ∀ ts : List Ty,
    mentionsTys (namesLeaf names id) ts = false →
    mentionsTys (paramLeaf id) (resolveList scope ts) = false
  | [], _ => rfl
  | t :: ts, h => by
    rw [mentionsTys, Bool.or_eq_false_iff] at h
    rw [resolveList, mentionsTys, absent_resolve hr t h.1, absent_resolveList hr ts h.2]
    rfl

end

/-- A type with the spellings in read positions mentions the parameter in read positions. -/
theorem ReadOnly.resolve (hr : Reaches scope names id covariantArg) {t : Ty}
    (h : ReadOnly (namesLeaf names id) covariantArg t) :
    ReadOnly (paramLeaf id) covariantArg (resolveTypeNames scope t) := by
  induction h with
  | absent habsent => exact .absent (absent_resolve hr _ habsent)
  | param p => exact .param p
  | @named n args _ hcov ih =>
    rcases resolve_named n args with ⟨p, -, heq⟩ | ⟨-, -, -, self, hs, heq⟩ | heq
    · rw [heq]
      exact .param p
    · rw [heq]
      exact (hr.self self hs).2
    · rw [heq]
      refine .named ?_ ?_
      · intro j a ha
        rw [List.getElem?_map] at ha
        obtain ⟨b, hb, rfl⟩ := Option.map_eq_some_iff.1 ha
        exact ih j b hb
      · intro j a ha hmentions
        rw [List.getElem?_map] at ha
        obtain ⟨b, hb, rfl⟩ := Option.map_eq_some_iff.1 ha
        apply hcov j b hb
        by_contra hnot
        rw [absent_resolve hr b (by simpa using hnot)] at hmentions
        exact Bool.noConfusion hmentions
  | list _ ih => exact .list ih
  | set _ ih => exact .set ih
  | option _ ih => exact .option ih
  | map _ _ ihk ihv => exact .map ihk ihv
  | result _ _ iht ihe => exact .result iht ihe
  | tuple _ ih =>
    rw [resolveTypeNames, resolveList_eq_map]
    refine .tuple fun a ha => ?_
    obtain ⟨b, hb, rfl⟩ := List.mem_map.1 ha
    exact ih b hb
  | union _ ih =>
    rw [resolveTypeNames, resolveList_eq_map]
    refine ReadOnly.unionOf _ fun a ha => ?_
    obtain ⟨b, hb, rfl⟩ := List.mem_map.1 ha
    exact ih b hb
  | fn hparams _ ih => exact .fn (absent_resolveList hr _ hparams) ih

end Resolve

/-! ### From the occurrence rules to read positions -/

theorem fromRefs_eq_map (refs : List TypeRef) : fromRefs refs = refs.map fromRef := by
  induction refs with
  | nil => rfl
  | cons ref refs ih => rw [fromRefs, ih, List.map_cons]

theorem BuiltinTy.toTy_closed {P : Ty → Prop} (hlist : ∀ a, P a → P (.list a))
    (hset : ∀ a, P a → P (.set a)) (hmap : ∀ k v, P k → P v → P (.map k v))
    (hoption : ∀ a, P a → P (.option a)) (hresult : ∀ t e, P t → P e → P (.result t e))
    (hplain : ∀ t, (∀ leaf, mentionsTy leaf t = false) → P t) (builtin : BuiltinTy) (bare : Bool)
    {args : List Ty} (hargs : ∀ a ∈ args, P a) : P (builtin.toTy bare args) := by
  have harg : ∀ i, P (if bare then .unknown else args.getD i .unknown) := by
    intro i
    split
    · exact hplain _ fun _ => rfl
    · rw [List.getD_eq_getElem?_getD]
      cases ha : args[i]? with
      | none => exact hplain _ fun _ => rfl
      | some a => exact hargs a (List.mem_of_getElem? ha)
  cases builtin with
  | list => exact hlist _ (harg 0)
  | set => exact hset _ (harg 0)
  | map => exact hmap _ _ (harg 0) (harg 1)
  | option => exact hoption _ (harg 0)
  | result => exact hresult _ _ (harg 0) (harg 1)
  | number =>
    refine hplain _ fun leaf => ?_
    rw [toTy, arithNumeric]
    refine mentionsTy_unionOf _ fun m hm => ?_
    simp only [List.mem_cons, List.not_mem_nil, or_false] at hm
    rcases hm with rfl | rfl | rfl | rfl | rfl | rfl | rfl | rfl | rfl | rfl | rfl | rfl <;> rfl
  | _ => exact hplain _ fun _ => rfl

section FromRef

variable {names : List String} {id : Nat} {table : VarianceTable} {site : Site}

mutual

theorem absent_fromRef : ∀ ref : TypeRef, (∀ p ∈ names, mentions ref p = false) →
    mentionsTy (namesLeaf names id) (fromRef ref) = false
  | .named name args, h => by
    have hargs : ∀ p ∈ names, mentionsAny args p = false := fun p hp =>
      (Bool.or_eq_false_iff.1 (h p hp)).2
    have hname : names.contains name = false := by
      rw [← Bool.not_eq_true, List.contains_iff_mem]
      intro hmem
      have hself := (Bool.or_eq_false_iff.1 (h name hmem)).1
      simp at hself
    rw [fromRef]
    split
    · rename_i builtin bare _
      have hrefs := (mentionsTys_eq_false_iff _ _).1 (absent_fromRefs args hargs)
      refine BuiltinTy.toTy_closed (P := fun t => mentionsTy (namesLeaf names id) t = false)
        (fun _ ha => ha) (fun _ ha => ha) (fun _ _ hk hv => ?_) (fun _ ha => ha)
        (fun _ _ ht he => ?_) (fun t ht => ht _) builtin bare hrefs
      · rw [mentionsTy, hk, hv]
        rfl
      · rw [mentionsTy, ht, he]
        rfl
    · rw [mentionsTy, absent_fromRefs args hargs, Bool.or_false]
      exact hname
  | .optional inner, h => absent_fromRef inner h
  | .union members, h => by
    rw [fromRef]
    exact mentionsTy_unionOf _ ((mentionsTys_eq_false_iff _ _).1 (absent_fromRefs members h))
  | .tuple elements, h => absent_fromRefs elements h
  | .fn params ret, h => by
    rw [fromRef, mentionsTy, absent_fromRefs params fun p hp => (Bool.or_eq_false_iff.1 (h p hp)).1,
      absent_fromRef ret fun p hp => (Bool.or_eq_false_iff.1 (h p hp)).2]
    rfl
  | .dynTrait _, _ => rfl
  | .assocProjection _, _ => rfl

theorem absent_fromRefs : ∀ refs : List TypeRef, (∀ p ∈ names, mentionsAny refs p = false) →
    mentionsTys (namesLeaf names id) (fromRefs refs) = false
  | [], _ => rfl
  | ref :: refs, h => by
    rw [fromRefs, mentionsTys, absent_fromRef ref fun p hp => (Bool.or_eq_false_iff.1 (h p hp)).1,
      absent_fromRefs refs fun p hp => (Bool.or_eq_false_iff.1 (h p hp)).2]
    rfl

end

mutual

theorem outPosition_absent : ∀ (ref : TypeRef) (p : String), mentions ref p = false →
    outPosition table site ref p = none
  | .named name args, p, h => by
    rw [mentions, Bool.or_eq_false_iff] at h
    rw [outPosition]
    split
    · rfl
    · exact outArgs_absent name args 0 p h.2
  | .optional inner, p, h => outPosition_absent inner p h
  | .union members, p, h => outAll_absent members p h
  | .tuple elements, p, h => outAll_absent elements p h
  | .fn params ret, p, h => by
    rw [mentions, Bool.or_eq_false_iff] at h
    rw [outPosition, h.1]
    exact outPosition_absent ret p h.2
  | .dynTrait _, _, _ => rfl
  | .assocProjection _, _, _ => rfl

theorem outArgs_absent (name : String) : ∀ (args : List TypeRef) (j : Nat) (p : String),
    mentionsAny args p = false → outArgs table site name args j p = none
  | [], _, _, _ => rfl
  | arg :: args, j, p, h => by
    rw [mentionsAny, Bool.or_eq_false_iff] at h
    rw [outArgs, h.1]
    exact outArgs_absent name args (j + 1) p h.2

theorem outAll_absent : ∀ (refs : List TypeRef) (p : String), mentionsAny refs p = false →
    outAll table site refs p = none
  | [], _, _ => rfl
  | ref :: refs, p, h => by
    rw [mentionsAny, Bool.or_eq_false_iff] at h
    rw [outAll, outPosition_absent ref p h.1]
    exact outAll_absent refs p h.2

end

theorem outArgs_getElem? {name p : String} : ∀ (args : List TypeRef) (k : Nat),
    outArgs table site name args k p = none → ∀ (j : Nat) arg, args[j]? = some arg →
      mentions arg p = true →
      (isBuiltinName name = true ∨ table.covariantArg name (k + j) = true) ∧
        outPosition table site arg p = none := by
  intro args
  induction args with
  | nil => exact fun k _ j arg harg => absurd harg (by simp)
  | cons a args ih =>
    intro k h j arg harg hmentions
    rw [outArgs_cons_eq_none_iff] at h
    cases j with
    | zero =>
      rw [List.getElem?_cons_zero, Option.some.injEq] at harg
      subst harg
      exact h.1 hmentions
    | succ j =>
      rw [List.getElem?_cons_succ] at harg
      have hrest := ih (k + 1) h.2 j arg harg hmentions
      rwa [Nat.add_right_comm, Nat.add_assoc] at hrest

theorem outPosition_arg {name : String} {args : List TypeRef}
    (h : ∀ p ∈ names, outPosition table site (.named name args) p = none) {j : Nat} {arg : TypeRef}
    (harg : args[j]? = some arg) : (∀ p ∈ names, outPosition table site arg p = none) ∧
      ((∃ p ∈ names, mentions arg p = true) →
        isBuiltinName name = true ∨ table.covariantArg name j = true) := by
  have hmention : ∀ p ∈ names, mentions arg p = true →
      (isBuiltinName name = true ∨ table.covariantArg name j = true) ∧
        outPosition table site arg p = none := by
    intro p hp hmentions
    have hout := h p hp
    rw [outPosition, if_neg] at hout
    · have hj := outArgs_getElem? args 0 hout j arg harg hmentions
      rwa [Nat.zero_add] at hj
    · rintro ⟨-, rfl⟩
      simp at harg
  refine ⟨fun p hp => ?_, fun ⟨p, hp, hmentions⟩ => (hmention p hp hmentions).1⟩
  cases hmentions : mentions arg p with
  | false => exact outPosition_absent arg p hmentions
  | true => exact (hmention p hp hmentions).2

mutual

/-- Where no occurrence of a spelling is refused, every one is in a read position. -/
theorem readOnly_fromRef : ∀ ref : TypeRef, (∀ p ∈ names, outPosition table site ref p = none) →
    ReadOnly (namesLeaf names id) table.covariantArg (fromRef ref)
  | .named name args, h => by
    have hargs : ∀ t ∈ fromRefs args, ReadOnly (namesLeaf names id) table.covariantArg t := by
      apply readOnly_fromRefs args
      intro arg harg
      obtain ⟨j, hj⟩ := List.mem_iff_getElem?.1 harg
      exact (outPosition_arg h hj).1
    rw [fromRef]
    split
    · rename_i builtin bare _
      exact BuiltinTy.toTy_closed (fun _ => .list) (fun _ => .set) (fun _ _ => .map) (fun _ => .option)
        (fun _ _ => .result) (fun t ht => .absent (ht _)) builtin bare hargs
    · rename_i hbuiltin
      refine .named (fun j t ht => hargs t (List.mem_of_getElem? ht)) ?_
      intro j t ht hmentions
      rw [fromRefs_eq_map, List.getElem?_map] at ht
      obtain ⟨arg, harg, rfl⟩ := Option.map_eq_some_iff.1 ht
      have hsome : ∃ p ∈ names, mentions arg p = true := by
        by_contra hnot
        push Not at hnot
        rw [absent_fromRef arg fun p hp => by simpa using hnot p hp] at hmentions
        exact Bool.noConfusion hmentions
      rcases (outPosition_arg h harg).2 hsome with hb | hcov
      · rw [isBuiltinName, hbuiltin] at hb
        exact Bool.noConfusion hb
      · exact hcov
  | .optional inner, h => .option (readOnly_fromRef inner h)
  | .union members, h => by
    rw [fromRef]
    refine ReadOnly.unionOf _ (readOnly_fromRefs members fun ref href p hp => ?_)
    exact (outAll_eq_none_iff members).1 (h p hp) ref href
  | .tuple elements, h => by
    rw [fromRef]
    refine .tuple (readOnly_fromRefs elements fun ref href p hp => ?_)
    exact (outAll_eq_none_iff elements).1 (h p hp) ref href
  | .fn params ret, h => by
    have hfn : ∀ p ∈ names, mentionsAny params p = false ∧ outPosition table site ret p = none := by
      intro p hp
      have hout := h p hp
      rw [outPosition] at hout
      split at hout
      · exact absurd hout (by simp)
      · rename_i hparams
        exact ⟨by simpa using hparams, hout⟩
    rw [fromRef]
    exact .fn (absent_fromRefs params fun p hp => (hfn p hp).1)
      (readOnly_fromRef ret fun p hp => (hfn p hp).2)
  | .dynTrait _, _ => .absent rfl
  | .assocProjection _, _ => .absent rfl

theorem readOnly_fromRefs : ∀ refs : List TypeRef,
    (∀ ref ∈ refs, ∀ p ∈ names, outPosition table site ref p = none) →
    ∀ t ∈ fromRefs refs, ReadOnly (namesLeaf names id) table.covariantArg t
  | [], _ => fun t ht => by simp [fromRefs] at ht
  | ref :: refs, h => fun t ht => by
    rw [fromRefs, List.mem_cons] at ht
    rcases ht with rfl | ht
    · exact readOnly_fromRef ref (h ref (by simp))
    · exact readOnly_fromRefs refs (fun r hr => h r (by simp [hr])) t ht

end

end FromRef

/-! ### The annotations of a declaration -/

/-- `type_body_scope`, extended by a method's own parameters: the parameters of the type are
numbered by position, those of the method after them, and `Self` is the type at its own parameters. -/
def declScope (name : String) (shape : DeclShape) (own : List String) : TypeScope where
  params := shape.params.zipIdx ++ own.zipIdx shape.params.length
  selfTy := some (.named name ((List.range shape.params.length).map .param))

/-- The types of the fields and the return types of the instance methods. -/
def readTypes (name : String) (shape : DeclShape) : List Ty :=
  (shape.fields.map fun f => annot (declScope name shape []) f.ty) ++
    shape.methods.filterMap fun m => m.ret.map (annot (declScope name shape m.shadowed))

/-- The types of the `mut` fields of a class and of the parameters of instance methods. -/
def writeTypes (name : String) (shape : DeclShape) : List Ty :=
  ((shape.fields.filter fun f => f.mutField && decide (shape.kind = .classKind)).map fun f =>
      annot (declScope name shape []) f.ty) ++
    shape.methods.flatMap fun m => m.params.map (annot (declScope name shape m.shadowed))

section Scope

variable {name : String} {shape : DeclShape} {own : List String} {index : Nat}

theorem declScope_param {n : String} (h : (declScope name shape own).param n = some index)
    (hindex : index < shape.params.length) : shape.params[index]? = some n ∧ n ∉ own := by
  unfold TypeScope.param declScope at h
  rw [List.reverse_append, List.find?_append] at h
  cases hown : (own.zipIdx shape.params.length).reverse.find? fun e => e.1 == n with
  | some e =>
    rw [hown, Option.some_or, Option.map_some, Option.some.injEq] at h
    have hmem := List.mem_reverse.1 (List.mem_of_find?_eq_some hown)
    have hge := List.le_snd_of_mem_zipIdx hmem
    omega
  | none =>
    rw [hown, Option.none_or] at h
    obtain ⟨e, he, heq⟩ := Option.map_eq_some_iff.1 h
    have hmem := List.mem_reverse.1 (List.mem_of_find?_eq_some he)
    have hname := List.find?_some he
    rw [beq_iff_eq] at hname
    refine ⟨?_, ?_⟩
    · obtain ⟨e₁, e₂⟩ := e
      dsimp only at heq hname
      subst heq hname
      exact List.mk_mem_zipIdx_iff_getElem?.1 hmem
    · intro hn
      obtain ⟨j, hj⟩ := List.mem_iff_getElem?.1 hn
      have hin : (n, shape.params.length + j) ∈ (own.zipIdx shape.params.length).reverse :=
        List.mem_reverse.2 (List.mk_add_mem_zipIdx_iff_getElem?.2 hj)
      have := List.find?_eq_none.1 hown _ hin
      simp at this

theorem declScope_own {n : String} (h : n ∈ own) : (declScope name shape own).param n ≠ none := by
  unfold TypeScope.param declScope
  rw [ne_eq, Option.map_eq_none_iff, List.find?_eq_none]
  intro hnone
  obtain ⟨j, hj⟩ := List.mem_iff_getElem?.1 h
  refine hnone (n, shape.params.length + j) ?_ (by simp)
  rw [List.mem_reverse, List.mem_append]
  exact .inr (List.mk_add_mem_zipIdx_iff_getElem?.2 hj)

/-- The spellings that reach a parameter of the type inside a method with parameters of its own. -/
def spellings (own : List String) (p : String) : List String :=
  [p, selfName].filter fun n => !own.contains n

theorem mem_spellings {n p : String} : n ∈ spellings own p ↔ (n = p ∨ n = selfName) ∧ n ∉ own := by
  simp [spellings]

theorem reaches_declScope {covariantArg : String → Nat → Bool} {p : String}
    (hp : shape.params[index]? = some p) (hcov : covariantArg name index = true) :
    Reaches (declScope name shape own) (spellings own p) index covariantArg := by
  have hindex : index < shape.params.length := (List.getElem?_eq_some_iff.1 hp).1
  refine ⟨?_, ?_⟩
  · intro n hn
    obtain ⟨hparam, hown⟩ := declScope_param hn hindex
    rw [hp, Option.some.injEq] at hparam
    exact mem_spellings.2 ⟨.inl hparam.symm, hown⟩
  · intro self hself
    rw [declScope, Option.some.injEq] at hself
    refine ⟨?_, ?_⟩
    · intro hnone
      exact mem_spellings.2 ⟨.inr rfl, fun hown => declScope_own hown hnone⟩
    · subst hself
      have harg : ∀ (j : Nat) a, ((List.range shape.params.length).map Ty.param)[j]? = some a →
          a = .param j := by
        intro j a ha
        rw [List.getElem?_map] at ha
        obtain ⟨k, hk, rfl⟩ := Option.map_eq_some_iff.1 ha
        have hj := (List.getElem?_eq_some_iff.1 hk).1
        rw [List.length_range] at hj
        rw [List.getElem?_range hj, Option.some.injEq] at hk
        rw [hk]
      refine .named ?_ ?_
      · intro j a ha
        rw [harg j a ha]
        exact .param j
      · intro j a ha hmentions
        rw [harg j a ha] at hmentions
        have hj : j = index := by simpa [mentionsTy, paramLeaf] using hmentions
        exact hj ▸ hcov

theorem normal_annot (ref : TypeRef) : Normal (annot (declScope name shape own) ref) := by
  apply normal_resolve
  intro self hself
  rw [declScope, Option.some.injEq] at hself
  subst hself
  refine (normal_all_iff _).2 fun t ht => ?_
  obtain ⟨j, -, rfl⟩ := List.mem_map.1 ht
  exact fun ms hms => by simp [unionNodes] at hms

end Scope

/-! ### The promise of the table -/

/-- The registry's rules, with the covariant arguments of a table. -/
def NominalRules.withTable (base : NominalRules) (table : VarianceTable) : NominalRules :=
  { base with covariantArg := table.covariantArg }

/-- The occurrence rules accept every mark of a table also when each `Self`, which stands for the
type at its own parameters, is taken for an occurrence of the parameter. -/
def SelfConsistent (decls : Decls) (table : VarianceTable) : Prop :=
  ∀ slot ∈ paramSlots decls, table.covariantArg slot.name slot.index = true →
    scan slot.shape slot.param table = none ∧ scan slot.shape selfName table = none

/-- Reading a type at a wider argument reads its fields and returns at wider types. -/
def ReadsWiden (rules : NominalRules) (name : String) (shape : DeclShape) (index : Nat) : Prop :=
  ∀ (arity : String → Nat) (s t : Ty), s.Full arity → t.Full arity →
    subtypeWith rules s t = true → ∀ f ∈ readTypes name shape,
      subtypeWith rules (applySubst index s f) (applySubst index t f) = true

/-- No `mut` field of a class and no parameter of an instance method mentions the parameter. -/
def NothingWritten (name : String) (shape : DeclShape) (index : Nat) : Prop :=
  ∀ f ∈ writeTypes name shape, mentionsTy (paramLeaf index) f = false

theorem mem_paramSlots {decls : Decls} {slot : ParamSlot} (h : slot ∈ paramSlots decls) :
    slot.shape.params[slot.index]? = some slot.param := by
  simp only [paramSlots, List.mem_flatMap, List.mem_map] at h
  obtain ⟨d, -, ⟨p, i⟩, hp, rfl⟩ := h
  exact List.mk_mem_zipIdx_iff_getElem?.1 hp

section Promise

variable {name p : String} {shape : DeclShape} {index : Nat} {table u : VarianceTable}
  (hp : shape.params[index]? = some p) (hle : u.Le table)
  (hmark : u.covariantArg name index = true)
  (hparam : scan shape p u = none) (hself : scan shape selfName u = none)
include hparam hself

theorem reads_spelling {n : String} {own : List String} (hn : n ∈ spellings own p) :
    scan shape n u = none := by
  rcases (mem_spellings.1 hn).1 with rfl | rfl
  · exact hparam
  · exact hself

include hp hmark

include hle in
theorem readOnly_readTypes {f : Ty} (hf : f ∈ readTypes name shape) :
    ReadOnly (paramLeaf index) table.covariantArg f ∧ Normal f := by
  have hcov : table.covariantArg name index = true := hle name index hmark
  have hannot : ∀ (own : List String) (site : Site) (ref : TypeRef),
      (∀ n ∈ spellings own p, outPosition u site ref n = none) →
      ReadOnly (paramLeaf index) table.covariantArg (annot (declScope name shape own) ref) := by
    intro own site ref href
    apply ReadOnly.resolve (reaches_declScope hp hcov)
    exact readOnly_fromRef ref fun n hn => outPosition_mono hle ref n (href n hn)
  rw [readTypes, List.mem_append, List.mem_map, List.mem_filterMap] at hf
  rcases hf with ⟨fd, hfd, rfl⟩ | ⟨m, hm, hret⟩
  · refine ⟨hannot [] (.field fd.name) fd.ty fun n hn => ?_, normal_annot _⟩
    exact (((scan_eq_none_iff shape).1 (reads_spelling hparam hself hn)).1 fd hfd).2
  · obtain ⟨ret, heq, rfl⟩ := Option.map_eq_some_iff.1 hret
    refine ⟨hannot m.shadowed (.method m.name) ret fun n hn => ?_, normal_annot _⟩
    rcases ((scan_eq_none_iff shape).1 (reads_spelling hparam hself hn)).2 m hm with h | h
    · exact absurd h (mem_spellings.1 hn).2
    · exact h.2 ret heq

theorem nothingWritten_of_scan : NothingWritten name shape index := by
  have hannot : ∀ (own : List String) (ref : TypeRef),
      (∀ n ∈ spellings own p, mentions ref n = false) →
      mentionsTy (paramLeaf index) (annot (declScope name shape own) ref) = false := by
    intro own ref href
    exact absent_resolve (reaches_declScope hp hmark) _ (absent_fromRef ref href)
  intro f hf
  rw [writeTypes, List.mem_append, List.mem_map, List.mem_flatMap] at hf
  rcases hf with ⟨fd, hfd, rfl⟩ | ⟨m, hm, hparams⟩
  · rw [List.mem_filter, Bool.and_eq_true, decide_eq_true_eq] at hfd
    refine hannot [] fd.ty fun n hn => ?_
    have hreads := ((scan_eq_none_iff shape).1 (reads_spelling hparam hself hn)).1 fd hfd.1
    by_contra hmentions
    exact hreads.1 ⟨hfd.2.1, hfd.2.2, by simpa using hmentions⟩
  · obtain ⟨ref, href, rfl⟩ := List.mem_map.1 hparams
    refine hannot m.shadowed ref fun n hn => ?_
    rcases ((scan_eq_none_iff shape).1 (reads_spelling hparam hself hn)).2 m hm with h | h
    · exact absurd h (mem_spellings.1 hn).2
    · exact (mentionsAny_eq_false_iff m.params n).1 h.1 ref href

end Promise

/-- What the table of a program should be: the same in every iteration order, the greatest consistent
one, and a promise about the reads and writes of every type it marks. -/
def VarianceSound (base : NominalRules) (known : VarianceTable) (decls : Decls) : Prop :=
  (∀ order order' : Decls, order.Perm decls → order'.Perm decls →
    computeArgVariance known order = computeArgVariance known order') ∧
  ∀ order : Decls, order.Perm decls →
    Greatest known decls (computeArgVariance known order) ∧
    ∀ slot ∈ paramSlots decls,
      (computeArgVariance known order).covariantArg slot.name slot.index = true →
      ReadsWiden (base.withTable (computeArgVariance known order)) slot.name slot.shape slot.index ∧
      NothingWritten slot.name slot.shape slot.index

/-- `class Cell<T> { v: ?T  fn get(): T }` and `struct Tag<U> {}`. -/
def cellProgram : List Stmt :=
  [.classDecl "Cell" ["T"] [⟨"v", false, some (.optional (.named "T" []))⟩]
    [⟨"get", [], [], some (.named "T" [])⟩],
   .structDecl "Tag" ["U"] [] []]

def cellShapes : Decls := shapesOf (fun _ _ => false) cellProgram

theorem scan_cell (u : VarianceTable) : ∀ slot ∈ paramSlots cellShapes,
    scan slot.shape slot.param u = none ∧ scan slot.shape selfName u = none := by
  intro slot hslot
  rcases List.mem_cons.1 hslot with rfl | hslot
  · exact ⟨rfl, rfl⟩
  · rw [List.mem_singleton.1 hslot]
    exact ⟨rfl, rfl⟩

/-- `class Node<T> { v: T  mut next: ?Self }`: the field written through a widened view is a
`?Node<T>`, and no occurrence of `T` is spelled in it. -/
def nodeProgram : List Stmt :=
  [.classDecl "Node" ["T"]
    [⟨"v", false, some (.named "T" [])⟩, ⟨"next", true, some (.optional (.named "Self" []))⟩] []]

end Noeta.Types
