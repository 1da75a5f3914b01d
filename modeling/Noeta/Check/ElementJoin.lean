import Noeta.Check.Syntax
import Noeta.Lib.PartialJoin
import Noeta.Types.Patterns
import Noeta.Types.Preorder

/-!
# The element join

`unify_element` and `join_closure_returns` of `noeta-check/src/subst.rs`. The elements of a literal
are joined pairwise from the left. Where subtyping is transitive on them, all orders of the elements
agree exactly when every two of them unify, or none is above all the others.
-/

namespace Noeta.Check

open Noeta.Lib (Joiner)
open Noeta.Types

/-! ## The code -/

/-- `Type::subtype`: the pure lattice. -/
def subtype (sub sup : Ty) : Bool := subtypeWith noRegistry sub sup

def isNumeric : Ty → Bool
  | .int => true
  | .float => true
  | _ => false

def unifyElement (acc next : Ty) : Option Ty :=
  if acc.isGradual then some next
  else if next.isGradual then some acc
  else if subtype next acc then some acc
  else if subtype acc next then some next
  else if isNumeric acc && isNumeric next then some .float
  else none

/-- The element type of a literal: the fold starts from a hole. -/
def joinElements (types : List Ty) : Option Ty :=
  types.foldlM unifyElement .unknown

/-- The block does not end in a `return` with a value. -/
def fallsThrough (stmts : List Stmt) : Bool :=
  match stmts.getLast? with
  | some (.ret (some _)) => false
  | _ => true

/-- The collected types, and `void` for a block that falls through. -/
def returnTypes (stmts : List Stmt) (types : List Ty) : List Ty :=
  if fallsThrough stmts then types ++ [.unit] else types

def joinClosureReturns (stmts : List Stmt) (types : List Ty) : Ty :=
  match returnTypes stmts types with
  | [] => .unit
  | first :: rest => (rest.foldlM unifyElement first).getD (Ty.unionOf (first :: rest))

/-! ## What is asked of it -/

/-- Mutual subtypes. -/
def Equivalent (a b : Ty) : Prop :=
  subtype a b = true ∧ subtype b a = true

/-- A subtype, or a number that becomes one. -/
def WidensInto (e j : Ty) : Prop :=
  subtype e j = true ∨ (isNumeric e = true ∧ subtype .float j = true)

structure JoinsInAnyOrder (l : List Ty) : Prop where
  upper : ∀ j, joinElements l = some j → ∀ e ∈ l, WidensInto e j
  succeeds : ∀ l', l'.Perm l → ((joinElements l').isSome ↔ (joinElements l).isSome)
  elements : ∀ l' j j', l'.Perm l → joinElements l = some j → joinElements l' = some j' →
    Equivalent j j'
  returns : ∀ stmts l', l'.Perm l →
    Equivalent (joinClosureReturns stmts l) (joinClosureReturns stmts l')

/-- Not a hole, and a union is as `Type::union` builds it. -/
structure Known (t : Ty) : Prop where
  filled : t ≠ .unknown
  union : ∀ ms, t = .union ms → 2 ≤ ms.length ∧ ms.Nodup ∧ ∀ m ∈ ms, m ≠ .unknown ∧ m.Proper

def TransitiveOn (l : List Ty) : Prop :=
  ∀ a ∈ l, ∀ b ∈ l, ∀ c ∈ l, subtype a b = true → subtype b c = true → subtype a c = true

/-- The element join as a pairwise join. -/
def elementJoiner : Joiner Ty where
  below := subtype
  narrow := isNumeric
  wide := .float

/-! ## The order on the elements -/

theorem subtype_refl (t : Ty) : subtype t t = true :=
  subtypeAt_refl t true

theorem Known.isGradual {t : Ty} (h : Known t) : t.isGradual = false := by
  cases t with
  | unknown => exact absurd rfl h.filled
  | _ => rfl

theorem eq_of_subtype_numeric {x b : Ty} (hx : x ≠ .unknown) (hp : x.Proper)
    (hb : isNumeric b = true) (h : subtype x b = true) : x = b := by
  have hnum : b = .int ∨ b = .float := by
    cases b <;> simp_all [isNumeric]
  unfold subtype subtypeWith at h
  rcases hnum with rfl | rfl <;> cases x <;>
    first
    | rfl
    | exact absurd rfl hx
    | exact absurd hp id
    | simp [subtypeAt, Ty.isGradual] at h

theorem isNumeric_of_subtype {a b : Ty} (ha : Known a) (hb : isNumeric b = true)
    (h : subtype a b = true) : isNumeric a = true ∨ a = .never := by
  by_cases hp : a.Proper
  · exact .inl (eq_of_subtype_numeric ha.filled hp hb h ▸ hb)
  · cases a with
    | dyn =>
      have hnum : b = .int ∨ b = .float := by
        cases b <;> simp_all [isNumeric]
      rcases hnum with rfl | rfl <;> simp [subtype, subtypeWith, subtypeAt, Ty.isGradual] at h
    | never => exact .inr rfl
    | union ms =>
      obtain ⟨hlen, hnodup, hms⟩ := ha.union ms rfl
      have hall : ∀ m ∈ ms, m = b := by
        intro m hm
        refine eq_of_subtype_numeric (hms m hm).1 (hms m hm).2 hb ?_
        have hnum : b = .int ∨ b = .float := by
          cases b <;> simp_all [isNumeric]
        rcases hnum with rfl | rfl <;>
        · simp [subtype, subtypeWith, subtypeAt, Ty.isGradual] at h
          exact h m hm
      -- all members would be the number, but they are distinct
      obtain _ | ⟨x, _ | ⟨y, rest⟩⟩ := ms
      · simp at hlen
      · simp at hlen
      · have hxy : x = y := (hall x (by simp)).trans (hall y (by simp)).symm
        simp [hxy] at hnodup
    | _ => exact absurd trivial hp

theorem lawful {l : List Ty} (hl : ∀ t ∈ l, Known t) (ht : TransitiveOn l) :
    elementJoiner.Lawful l := by
  have hnum : ∀ t, isNumeric t = true → t = .int ∨ t = .float := by
    intro t h
    cases t <;> simp_all [isNumeric]
  have hfloat : subtype .float .int = false := by
    simp [subtype, subtypeWith, subtypeAt, Ty.isGradual]
  refine ⟨subtype_refl, ht, rfl, ?_, ?_, ?_⟩
  · intro a _ b _ ha hb
    rcases hnum a ha with rfl | rfl
    · rcases hnum b hb with rfl | rfl
      · exact .inl (subtype_refl _)
      · exact .inr (.inr rfl)
    · exact .inr (.inl rfl)
  · intro a _ ha hup
    rcases hnum a ha with rfl | rfl
    · exact absurd (hfloat.symm.trans hup) (by simp)
    · exact subtype_refl _
  · intro a ha b _ hb hab
    rcases isNumeric_of_subtype (hl a ha) hb hab with hn | rfl
    · exact .inl hn
    · exact .inr (subtypeAt_never _)

/-! ## The code is that join -/

theorem unifyElement_eq {acc next : Ty} (ha : acc.isGradual = false) (hn : next.isGradual = false) :
    unifyElement acc next = elementJoiner.join acc next := by
  simp [unifyElement, Joiner.join, elementJoiner, ha, hn]

theorem isGradual_of_join {acc next j : Ty} (ha : acc.isGradual = false)
    (hn : next.isGradual = false) (hj : elementJoiner.join acc next = some j) :
    j.isGradual = false := by
  unfold Joiner.join at hj
  split_ifs at hj
  · exact Option.some.inj hj ▸ ha
  · exact Option.some.inj hj ▸ hn
  · exact Option.some.inj hj ▸ rfl

theorem foldlM_unifyElement {rest : List Ty} {acc : Ty} (ha : acc.isGradual = false)
    (hrest : ∀ t ∈ rest, Known t) :
    rest.foldlM unifyElement acc = elementJoiner.joinFrom acc rest := by
  induction rest generalizing acc with
  | nil => rfl
  | cons next rest ih =>
    have hn := (hrest next (by simp)).isGradual
    rw [Joiner.joinFrom_cons, List.foldlM_cons, unifyElement_eq ha hn]
    cases hj : elementJoiner.join acc next with
    | none => rfl
    | some j => exact ih (isGradual_of_join ha hn hj) fun t ht => hrest t (by simp [ht])

theorem joinElements_eq {l : List Ty} (hl : ∀ t ∈ l, Known t) (hne : l ≠ []) :
    joinElements l = elementJoiner.joinAll l := by
  cases l with
  | nil => exact absurd rfl hne
  | cons first rest =>
    have hfirst : unifyElement .unknown first = some first := rfl
    rw [joinElements, List.foldlM_cons, hfirst]
    exact foldlM_unifyElement (hl first (by simp)).isGradual fun t ht => hl t (by simp [ht])

theorem joinClosureReturns_eq {stmts : List Stmt} {l : List Ty} (hl : ∀ t ∈ l, Known t)
    (hne : returnTypes stmts l ≠ []) :
    joinClosureReturns stmts l =
      (elementJoiner.joinAll (returnTypes stmts l)).getD (Ty.unionOf (returnTypes stmts l)) := by
  have hall : ∀ t ∈ returnTypes stmts l, Known t := by
    intro t ht
    unfold returnTypes at ht
    split at ht
    · rcases List.mem_append.1 ht with ht | ht
      · exact hl t ht
      · rw [List.mem_singleton] at ht
        subst ht
        exact ⟨by simp, by simp⟩
    · exact hl t ht
  unfold joinClosureReturns
  cases hts : returnTypes stmts l with
  | nil => exact absurd hts hne
  | cons first rest =>
    rw [hts] at hall
    simp only
    rw [foldlM_unifyElement (hall first (by simp)).isGradual fun t ht => hall t (by simp [ht])]
    rfl

/-! ## The union of incompatible returns -/

theorem Known.joins {t : Ty} (h : Known t) : Joins (fun _ => True) t :=
  ⟨fun _ => trivial, fun inner ht m hm => ⟨trivial, ((h.union inner ht).2.2 m hm).2⟩⟩

theorem subtype_union_of_subset {a b : List Ty} (h : ∀ x ∈ a, x ∈ b) :
    subtype (.union a) (.union b) = true :=
  (Step.unions (fun x hx => ⟨x, h x hx, subtype_refl x⟩) (by simp)).subtypeAt

theorem equivalent_ofFlat {a b : List Ty} (saw : Bool) (hp : a.Perm b) :
    Equivalent (Ty.ofFlat saw a) (Ty.ofFlat saw b) := by
  match a, hp with
  | [], hp =>
    rw [List.nil_perm.1 hp]
    exact ⟨subtype_refl _, subtype_refl _⟩
  | [t], hp =>
    rw [List.perm_singleton.1 hp.symm]
    exact ⟨subtype_refl _, subtype_refl _⟩
  | x :: y :: rest, hp =>
    match b, hp with
    | [], hp => exact absurd hp.length_eq (by simp)
    | [_], hp => exact absurd hp.length_eq (by simp)
    | x' :: y' :: rest', hp =>
      exact ⟨subtype_union_of_subset fun _ h => hp.mem_iff.1 h,
        subtype_union_of_subset fun _ h => hp.mem_iff.2 h⟩

theorem equivalent_unionOf {l l' : List Ty} (hl : ∀ t ∈ l, Known t) (hp : l'.Perm l) :
    Equivalent (Ty.unionOf l) (Ty.unionOf l') := by
  rcases unionOf_collects l (fun m hm => (hl m hm).joins) with
    ⟨hd, heq⟩ | ⟨hd, flat, saw, heq, hflat, hsaw, hmem⟩
  · rcases unionOf_collects l' (fun m hm => (hl m (hp.mem_iff.1 hm)).joins) with
      ⟨-, heq'⟩ | ⟨hd', -⟩
    · rw [heq, heq']
      exact ⟨subtype_refl _, subtype_refl _⟩
    · exact absurd (hp.mem_iff.2 hd) hd'
  · rcases unionOf_collects l' (fun m hm => (hl m (hp.mem_iff.1 hm)).joins) with
      ⟨hd', -⟩ | ⟨-, flat', saw', heq', hflat', hsaw', hmem'⟩
    · exact absurd (hp.mem_iff.1 hd') hd
    · have hsame : saw = saw' := by
        rw [Bool.eq_iff_iff, hsaw, hsaw', hp.mem_iff]
      have hperm : flat.Perm flat' := by
        apply (List.perm_ext_iff_of_nodup hflat.nodup hflat'.nodup).2
        intro u
        rw [hmem, hmem']
        simp only [hp.mem_iff]
      rw [heq, heq', ← hsame]
      exact equivalent_ofFlat saw hperm

/-! ## Closure returns -/

theorem equivalent_returns {l l' : List Ty} (hl : ∀ t ∈ l, Known t) (ht : TransitiveOn l)
    (hp : l'.Perm l)
    (hsame : (elementJoiner.joinAll l').isSome ↔ (elementJoiner.joinAll l).isSome) :
    Equivalent ((elementJoiner.joinAll l).getD (Ty.unionOf l))
      ((elementJoiner.joinAll l').getD (Ty.unionOf l')) := by
  cases hj : elementJoiner.joinAll l with
  | none =>
    cases hj' : elementJoiner.joinAll l' with
    | none => exact equivalent_unionOf hl hp
    | some j' => simp [hj, hj'] at hsame
  | some j =>
    cases hj' : elementJoiner.joinAll l' with
    | none => simp [hj, hj'] at hsame
    | some j' => exact Joiner.below_of_perm (lawful hl ht) hp hj hj'

theorem joinAll_append_unit {l : List Ty} (hne : l ≠ []) :
    elementJoiner.joinAll (l ++ [.unit]) =
      (elementJoiner.joinAll l).bind fun j => elementJoiner.join j .unit := by
  cases l with
  | nil => exact absurd rfl hne
  | cons first rest =>
    rw [List.cons_append, Joiner.joinAll, Joiner.joinFrom_append]
    congr 1
    funext j
    rw [Joiner.joinFrom_cons]
    exact Option.bind_fun_some _

theorem comparable_unit {l : List Ty} {j j' : Ty} (ht : TransitiveOn (.unit :: l)) (hj : j ∈ l)
    (hj' : j' ∈ l) (h : Equivalent j j') (hc : elementJoiner.Comparable j .unit) :
    elementJoiner.Comparable j' .unit := by
  rcases hc with hb | hb | hb
  · exact .inl (ht .unit (by simp) j (by simp [hj]) j' (by simp [hj']) hb h.1)
  · exact .inr (.inl (ht j' (by simp [hj']) j (by simp [hj]) .unit (by simp) h.2 hb))
  · exact absurd hb.2 (by simp [elementJoiner, isNumeric])

theorem joinAll_append_unit_isSome {l l' : List Ty} (hl : ∀ t ∈ l, Known t)
    (ht : TransitiveOn (.unit :: l)) (hp : l'.Perm l) (hne : l ≠ [])
    (hsame : (elementJoiner.joinAll l').isSome ↔ (elementJoiner.joinAll l).isSome) :
    (elementJoiner.joinAll (l' ++ [.unit])).isSome ↔
      (elementJoiner.joinAll (l ++ [.unit])).isSome := by
  have hne' : l' ≠ [] := by
    rintro rfl
    exact hne (List.nil_perm.1 hp)
  have hlaw := lawful hl fun a ha b hb c hc => ht a (by simp [ha]) b (by simp [hb]) c (by simp [hc])
  rw [joinAll_append_unit hne, joinAll_append_unit hne']
  cases hj : elementJoiner.joinAll l with
  | none =>
    cases hj' : elementJoiner.joinAll l' with
    | none => rfl
    | some j' => simp [hj, hj'] at hsame
  | some j =>
    cases hj' : elementJoiner.joinAll l' with
    | none => simp [hj, hj'] at hsame
    | some j' =>
      have heq : Equivalent j j' := Joiner.below_of_perm hlaw hp hj hj'
      have hmem : j ∈ l := (Joiner.joinAll_collected hlaw hj).mem
      have hmem' : j' ∈ l := hp.mem_iff.1
        (Joiner.joinAll_collected (hlaw.mono fun _ hx => hp.mem_iff.1 hx) hj').mem
      rw [Option.bind_some, Option.bind_some, Joiner.join_isSome, Joiner.join_isSome]
      exact ⟨comparable_unit ht hmem' hmem heq.symm, comparable_unit ht hmem hmem' heq⟩

theorem equivalent_joinClosureReturns {l l' : List Ty} (hl : ∀ t ∈ l, Known t)
    (ht : TransitiveOn (.unit :: l)) (hp : l'.Perm l)
    (hsame : (elementJoiner.joinAll l').isSome ↔ (elementJoiner.joinAll l).isSome)
    (stmts : List Stmt) :
    Equivalent (joinClosureReturns stmts l) (joinClosureReturns stmts l') := by
  by_cases hnil : l = []
  · subst hnil
    rw [List.perm_nil.1 hp]
    exact ⟨subtype_refl _, subtype_refl _⟩
  have hnil' : l' ≠ [] := by
    rintro rfl
    exact hnil (List.nil_perm.1 hp)
  have hl' : ∀ t ∈ l', Known t := fun t h => hl t (hp.mem_iff.1 h)
  have hunit : Known .unit := ⟨by simp, by simp⟩
  rw [joinClosureReturns_eq hl (by unfold returnTypes; split <;> simp [hnil]),
    joinClosureReturns_eq hl' (by unfold returnTypes; split <;> simp [hnil'])]
  unfold returnTypes
  split
  · refine equivalent_returns ?_ ?_ (hp.append_right _)
      (joinAll_append_unit_isSome hl ht hp hnil hsame)
    · intro t hmem
      rcases List.mem_append.1 hmem with hmem | hmem
      · exact hl t hmem
      · rw [List.mem_singleton] at hmem
        exact hmem ▸ hunit
    · intro a ha b hb c hc
      exact ht a (by simpa [or_comm] using ha) b (by simpa [or_comm] using hb) c
        (by simpa [or_comm] using hc)
  · exact equivalent_returns hl
      (fun a ha b hb c hc => ht a (by simp [ha]) b (by simp [hb]) c (by simp [hc])) hp hsame

/-! ## Where subtyping is transitive -/

/-- `x` occurs in the type. -/
inductive Occurs (x : Ty) : Ty → Prop
  | here : Occurs x x
  | list {a : Ty} : Occurs x a → Occurs x (.list a)
  | set {a : Ty} : Occurs x a → Occurs x (.set a)
  | option {a : Ty} : Occurs x a → Occurs x (.option a)
  | key {k v : Ty} : Occurs x k → Occurs x (.map k v)
  | value {k v : Ty} : Occurs x v → Occurs x (.map k v)
  | ok {t e : Ty} : Occurs x t → Occurs x (.result t e)
  | err {t e : Ty} : Occurs x e → Occurs x (.result t e)
  | named {n : String} {a : Ty} {args : List Ty} : a ∈ args → Occurs x a → Occurs x (.named n args)
  | member {m : Ty} {ms : List Ty} : m ∈ ms → Occurs x m → Occurs x (.union ms)
  | slot {a : Ty} {elems : List Ty} : a ∈ elems → Occurs x a → Occurs x (.tuple elems)
  | param {p r : Ty} {ps : List Ty} : p ∈ ps → Occurs x p → Occurs x (.fn ps r)
  | ret {r : Ty} {ps : List Ty} : Occurs x r → Occurs x (.fn ps r)

def TraitFree (t : Ty) : Prop :=
  ∀ tr, ¬ Occurs (.dynTrait tr) t

theorem TraitFree.of_asks {s t s' t' : Ty} (h : Asks (s, t) (s', t')) (hs : TraitFree s)
    (ht : TraitFree t) : TraitFree s' ∧ TraitFree t' := by
  cases h with
  | unionLeft hx => exact ⟨fun tr ho => hs tr (.member hx ho), ht⟩
  | unionRight _ hy => exact ⟨hs, fun tr ho => ht tr (.member hy ho)⟩
  | list => exact ⟨fun tr ho => hs tr ho.list, fun tr ho => ht tr ho.list⟩
  | set => exact ⟨fun tr ho => hs tr ho.set, fun tr ho => ht tr ho.set⟩
  | option => exact ⟨fun tr ho => hs tr ho.option, fun tr ho => ht tr ho.option⟩
  | mapKey => exact ⟨fun tr ho => hs tr ho.key, fun tr ho => ht tr ho.key⟩
  | mapValue => exact ⟨fun tr ho => hs tr ho.value, fun tr ho => ht tr ho.value⟩
  | resultOk => exact ⟨fun tr ho => hs tr ho.ok, fun tr ho => ht tr ho.ok⟩
  | resultErr => exact ⟨fun tr ho => hs tr ho.err, fun tr ho => ht tr ho.err⟩
  | tuple hx hy =>
    exact ⟨fun tr ho => hs tr (.slot (List.mem_of_getElem? hx) ho),
      fun tr ho => ht tr (.slot (List.mem_of_getElem? hy) ho)⟩
  | fnParam hx hy =>
    exact ⟨fun tr ho => ht tr (.param (List.mem_of_getElem? hy) ho),
      fun tr ho => hs tr (.param (List.mem_of_getElem? hx) ho)⟩
  | fnRet => exact ⟨fun tr ho => hs tr ho.ret, fun tr ho => ht tr ho.ret⟩
  | named hx hy =>
    exact ⟨fun tr ho => hs tr (.named (List.mem_of_getElem? hx) ho),
      fun tr ho => ht tr (.named (List.mem_of_getElem? hy) ho)⟩

theorem TraitFree.of_reaches {p q : Ty × Ty} (h : Relation.ReflTransGen Asks p q)
    (hs : TraitFree p.1) (ht : TraitFree p.2) : TraitFree q.1 ∧ TraitFree q.2 := by
  induction h with
  | refl => exact ⟨hs, ht⟩
  | tail _ hstep ih => exact ih.1.of_asks hstep ih.2

theorem transitiveOn_of_full {arity : String → Nat} {l : List Ty} (hl : ∀ t ∈ l, t.Full arity)
    (hfree : ∀ t ∈ l, TraitFree t) : TransitiveOn l := by
  intro a ha b hb c hc hab hbc
  refine subtypeAt_trans (hl a ha) (hl b hb) (hl c hc) ⟨?_, ?_, ?_⟩ hab hbc
  · rintro ⟨tr, hr⟩
    exact (TraitFree.of_reaches hr (hfree a ha) (hfree b hb)).2 tr .here
  · rintro ⟨tr, hr⟩
    exact (TraitFree.of_reaches hr (hfree b hb) (hfree c hc)).2 tr .here
  · rintro ⟨ms, tr, hr⟩
    exact (TraitFree.of_reaches hr (hfree a ha) (hfree c hc)).2 tr .here

/-! ## All orders agree -/

theorem known_of_scalar {t : Ty} (h : t = .int ∨ t = .float ∨ t = .string ∨ t = .dyn) : Known t := by
  rcases h with rfl | rfl | rfl | rfl <;> exact ⟨by simp, by simp⟩

end Noeta.Check
