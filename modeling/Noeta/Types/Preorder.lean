import Noeta.Lib.FirstSeen
import Noeta.Types.Lattice
import Mathlib.Logic.Relation

/-!
# The laws of subtyping

On fully specified types the walk is a preorder with `dyn` on top, `never` at the bottom and
`Type::union` for joins, except where it asks a trait object of `dyn` or of a union: the early
trait-object arm lets `dyn` through and refuses every union. The laws are proved with that
exception stated as a condition on the types.
-/

namespace Noeta.Types

open Relation
open Lib.FirstSeen

/-! ### The pairs a walk compares -/

/-- Comparing the first pair goes on to compare the second. -/
inductive Asks : Ty × Ty → Ty × Ty → Prop
  | unionLeft {a : List Ty} {x t : Ty} : x ∈ a → Asks (.union a, t) (x, t)
  | unionRight {b : List Ty} {s y : Ty} : s.Proper → y ∈ b → Asks (s, .union b) (s, y)
  | list (a b : Ty) : Asks (.list a, .list b) (a, b)
  | set (a b : Ty) : Asks (.set a, .set b) (a, b)
  | option (a b : Ty) : Asks (.option a, .option b) (a, b)
  | mapKey (k v k' v' : Ty) : Asks (.map k v, .map k' v') (k, k')
  | mapValue (k v k' v' : Ty) : Asks (.map k v, .map k' v') (v, v')
  | resultOk (t e t' e' : Ty) : Asks (.result t e, .result t' e') (t, t')
  | resultErr (t e t' e' : Ty) : Asks (.result t e, .result t' e') (e, e')
  | tuple {a b : List Ty} {i : Nat} {x y : Ty} : a[i]? = some x → b[i]? = some y →
      Asks (.tuple a, .tuple b) (x, y)
  | fnParam {ps qs : List Ty} {r r' : Ty} {i : Nat} {x y : Ty} : ps[i]? = some x →
      qs[i]? = some y → Asks (.fn ps r, .fn qs r') (y, x)
  | fnRet (ps qs : List Ty) (r r' : Ty) : Asks (.fn ps r, .fn qs r') (r, r')
  | named {n : String} {a b : List Ty} {i : Nat} {x y : Ty} : a[i]? = some x → b[i]? = some y →
      Asks (.named n a, .named n b) (x, y)

/-- Somewhere in the comparison, `dyn` is asked to be a trait object. -/
def AsksDyn (s t : Ty) : Prop :=
  ∃ tr, ReflTransGen Asks (s, t) (.dyn, .dynTrait tr)

/-- Somewhere in the comparison, a union is asked to be a trait object. -/
def AsksUnion (s t : Ty) : Prop :=
  ∃ ms tr, ReflTransGen Asks (s, t) (.union ms, .dynTrait tr)

theorem AsksDyn.of_reaches {s t s' t' : Ty} (h : ReflTransGen Asks (s, t) (s', t'))
    (hd : AsksDyn s' t') : AsksDyn s t := by
  obtain ⟨tr, hr⟩ := hd
  exact ⟨tr, h.trans hr⟩

theorem AsksUnion.of_reaches {s t s' t' : Ty} (h : ReflTransGen Asks (s, t) (s', t'))
    (hu : AsksUnion s' t') : AsksUnion s t := by
  obtain ⟨ms, tr, hr⟩ := hu
  exact ⟨ms, tr, h.trans hr⟩

/-- The chain `a <: b <: c` keeps clear of the trait-object arm's two exceptions: neither link asks
`dyn` for a trait object, and the conclusion does not ask one of a union. -/
structure Clear (a b c : Ty) : Prop where
  left : ¬ AsksDyn a b
  right : ¬ AsksDyn b c
  whole : ¬ AsksUnion a c

theorem Clear.of_reaches {a b c a' b' c' : Ty} (h : Clear a b c)
    (hab : ReflTransGen Asks (a, b) (a', b')) (hbc : ReflTransGen Asks (b, c) (b', c'))
    (hac : ReflTransGen Asks (a, c) (a', c')) : Clear a' b' c' :=
  ⟨fun hd => h.left (.of_reaches hab hd), fun hd => h.right (.of_reaches hbc hd),
    fun hu => h.whole (.of_reaches hac hu)⟩

theorem Clear.of_asks {a b c a' b' c' : Ty} (h : Clear a b c) (hab : Asks (a, b) (a', b'))
    (hbc : Asks (b, c) (b', c')) (hac : Asks (a, c) (a', c')) : Clear a' b' c' :=
  h.of_reaches (.single hab) (.single hbc) (.single hac)

theorem Clear.turn {a b c a' b' c' : Ty} (h : Clear a b c) (hab : Asks (a, b) (b', a'))
    (hbc : Asks (b, c) (c', b')) (hac : Asks (a, c) (c', a')) : Clear c' b' a' :=
  ⟨fun hd => h.right (.of_reaches (.single hbc) hd),
    fun hd => h.left (.of_reaches (.single hab) hd),
    fun hu => h.whole (.of_reaches (.single hac) hu)⟩

theorem reaches_members {as bs : List Ty} {x y : Ty} (hx : x ∈ as) (hp : x.Proper) (hy : y ∈ bs) :
    ReflTransGen Asks (.union as, .union bs) (x, y) :=
  .head (.unionLeft hx) (.single (.unionRight hp hy))

/-! ### Reflexivity, top and bottom -/

section Laws

variable {rules : NominalRules} {ok : Bool} {arity : String → Nat}

variable {i : Nat} {t : Ty} {P : Ty → Prop}

theorem getElem?_inj {l : List Ty} {x y : Ty} (hx : l[i]? = some x) (hy : l[i]? = some y) : x = y := by
  rw [hx] at hy
  exact Option.some.inj hy

/-- Every type is below itself, at both flags. -/
theorem subtypeAt_refl : ∀ (t : Ty) (ok : Bool), subtypeAt rules t t ok = true
  | .unknown, _ => by simp [subtypeAt, Ty.isGradual]
  | .dyn, _ => Step.dynRefl.subtypeAt
  | .never, _ => (Step.bottom _).subtypeAt
  | .list a, ok => (Step.list (subtypeAt_refl a ok)).subtypeAt
  | .map k v, ok => (Step.map (subtypeAt_refl k ok) (subtypeAt_refl v ok)).subtypeAt
  | .set a, ok => (Step.set (subtypeAt_refl a ok)).subtypeAt
  | .option a, ok => (Step.option (subtypeAt_refl a ok)).subtypeAt
  | .result t e, ok => (Step.result (subtypeAt_refl t ok) (subtypeAt_refl e ok)).subtypeAt
  | .named n args, ok => by
    refine (Step.named rfl ?_).subtypeAt
    intro i x y hx hy
    obtain rfl := getElem?_inj hx hy
    have := List.sizeOf_lt_of_mem (List.mem_of_getElem? hx)
    exact subtypeAt_refl x _
  | .fn params ret, ok => by
    refine (Step.fn rfl ?_ (subtypeAt_refl ret ok)).subtypeAt
    intro i x y hx hy
    obtain rfl := getElem?_inj hx hy
    have := List.sizeOf_lt_of_mem (List.mem_of_getElem? hx)
    exact subtypeAt_refl x ok
  | .union ms, ok => by
    refine (Step.unions (fun x hx => ⟨x, hx, ?_⟩) fun _ x hx => ⟨x, hx, ?_⟩).subtypeAt
    · have := List.sizeOf_lt_of_mem hx
      exact subtypeAt_refl x ok
    · have := List.sizeOf_lt_of_mem hx
      exact subtypeAt_refl x ok
  | .tuple elems, ok => by
    refine (Step.tuple rfl ?_).subtypeAt
    intro i x y hx hy
    obtain rfl := getElem?_inj hx hy
    have := List.sizeOf_lt_of_mem (List.mem_of_getElem? hx)
    exact subtypeAt_refl x ok
  | .dynTrait tr, _ => (Step.traitRefl tr).subtypeAt
  | .unit, _ => Step.subtypeAt (.atom trivial)
  | .int, _ => Step.subtypeAt (.atom trivial)
  | .float, _ => Step.subtypeAt (.atom trivial)
  | .f32, _ => Step.subtypeAt (.atom trivial)
  | .f64, _ => Step.subtypeAt (.atom trivial)
  | .intN _ _, _ => Step.subtypeAt (.atom trivial)
  | .bool, _ => Step.subtypeAt (.atom trivial)
  | .string, _ => Step.subtypeAt (.atom trivial)
  | .bytes, _ => Step.subtypeAt (.atom trivial)
  | .param _, _ => Step.subtypeAt (.atom trivial)
  | .kind _, _ => Step.subtypeAt (.atom trivial)
termination_by t => sizeOf t

theorem eq_never_of_subtypeAt (h : t.Full arity) (hs : subtypeAt rules t .never ok = true) : t = .never := by
  cases Step.of_subtypeAt h .never hs with
  | bottom => rfl
  | unionLeft _ _ hall =>
    -- a union has a member, and none of its members is `never`
    rename_i ms _ _
    cases h with
    | union hlen _ hfull hmem =>
      cases ms with
      | nil => simp at hlen
      | cons m ms =>
        have hm := hall m (by simp)
        have hproper := hmem m (by simp)
        cases Step.of_subtypeAt (hfull m (by simp)) .never hm with
        | bottom => exact absurd rfl hproper.2.1
        | unionLeft => exact absurd rfl (hproper.2.2 _)
        | atom ha => exact absurd ha id
  | atom ha => exact absurd ha id

/-! ### Transitivity -/

/-- Transitivity for every smaller chain, at both flags: the form the induction carries. -/
def TransBelow (rules : NominalRules) (arity : String → Nat) (n : Nat) : Prop :=
  ∀ (a b c : Ty) (ok : Bool), sizeOf a + sizeOf b + sizeOf c < n →
    a.Full arity → b.Full arity → c.Full arity → Clear a b c →
    subtypeAt rules a b ok = true → subtypeAt rules b c ok = true → subtypeAt rules a c ok = true

theorem sizeOf_lt_of_getElem? {l : List Ty} {x : Ty} (h : l[i]? = some x) : sizeOf x < sizeOf l :=
  List.sizeOf_lt_of_mem (List.mem_of_getElem? h)

theorem exists_middle {a b : List Ty} {x : Ty} (hab : a.length = b.length)
    (hx : a[i]? = some x) : ∃ y, b[i]? = some y := by
  have hi : i < b.length := by
    rw [← hab]
    exact (List.getElem?_eq_some_iff.1 hx).1
  exact ⟨_, List.getElem?_eq_getElem hi⟩

theorem Ty.Full.member {ms : List Ty} {x : Ty} (h : (Ty.union ms).Full arity) (hx : x ∈ ms) :
    x.Full arity ∧ x.Proper ∧ sizeOf x < sizeOf ms := by
  cases h with
  | union _ _ hfull hproper =>
    refine ⟨hfull x hx, ?_, List.sizeOf_lt_of_mem hx⟩
    obtain ⟨hd, hn, hu⟩ := hproper x hx
    cases x with
    | dyn => exact absurd rfl hd
    | never => exact absurd rfl hn
    | union inner => exact absurd rfl (hu inner)
    | _ => trivial

/-- A chain that starts at a union. -/
theorem trans_union {n : Nat} {as : List Ty} {b c : Ty} (ih : TransBelow rules arity n)
    (hsize : sizeOf (Ty.union as) + sizeOf b + sizeOf c ≤ n)
    (ha : (Ty.union as).Full arity) (hb : b.Full arity) (hc : c.Full arity)
    (hclear : Clear (.union as) b c) (hab : Step rules ok (.union as) b)
    (hbc : Step rules ok b c) : Step rules ok (.union as) c := by
  have hsub := hab.subtypeAt
  have hsubc := hbc.subtypeAt
  cases hab with
  | top _ hok =>
    cases hbc with
    | top => exact .top _ hok
    | dynRefl => exact .top _ hok
    | dynToTrait tr => exact absurd ⟨tr, .refl⟩ hclear.right
    | unionRight hp => exact absurd hp id
    | atom h => exact absurd h id
  | @unions _ bs hleft hright =>
    cases hbc with
    | top _ hok => exact .top _ hok
    | @unions _ cs hleft' hright' =>
      simp only [Ty.union.sizeOf_spec] at hsize
      have hchain : ∀ x ∈ as, ∀ y ∈ bs, ∀ z ∈ cs, subtypeAt rules x y ok = true →
          subtypeAt rules y z ok = true → subtypeAt rules x z ok = true := by
        intro x hx y hy z hz hxy hyz
        obtain ⟨hxf, hxp, hxs⟩ := ha.member hx
        obtain ⟨hyf, hyp, hys⟩ := hb.member hy
        obtain ⟨hzf, hzp, hzs⟩ := hc.member hz
        exact ih x y z ok (by omega) hxf hyf hzf (hclear.of_reaches (reaches_members hx hxp hy)
          (reaches_members hy hyp hz) (reaches_members hx hxp hz)) hxy hyz
      refine .unions ?_ ?_
      · intro x hx
        obtain ⟨y, hy, hxy⟩ := hleft x hx
        obtain ⟨z, hz, hyz⟩ := hleft' y hy
        exact ⟨z, hz, hchain x hx y hy z hz hxy hyz⟩
      · intro hok z hz
        obtain ⟨y, hy, hyz⟩ := hright' hok z hz
        obtain ⟨x, hx, hxy⟩ := hright hok y hy
        exact ⟨x, hx, hchain x hx y hy z hz hxy hyz⟩
    | unionLeft hnu hnt hall =>
      simp only [Ty.union.sizeOf_spec] at hsize
      refine .unionLeft hnu hnt ?_
      intro x hx
      obtain ⟨y, hy, hxy⟩ := hleft x hx
      obtain ⟨hxf, hxp, hxs⟩ := ha.member hx
      obtain ⟨hyf, hyp, hys⟩ := hb.member hy
      exact ih x y c ok (by omega) hxf hyf hc (hclear.of_reaches (reaches_members hx hxp hy)
        (.single (.unionLeft hy)) (.single (.unionLeft hx))) hxy (hall y hy)
    | unionRight hp => exact absurd hp id
    | atom h => exact absurd h id
  | unionLeft hnu hnt hall =>
    have hchain : ∀ x ∈ as, ∀ z : Ty, z.Full arity → sizeOf z ≤ sizeOf c →
        ReflTransGen Asks (b, c) (b, z) → ReflTransGen Asks (.union as, c) (x, z) →
        subtypeAt rules b z ok = true → subtypeAt rules x z ok = true := by
      intro x hx z hz hzs hreach hreach' hbz
      simp only [Ty.union.sizeOf_spec] at hsize
      obtain ⟨hxf, hxp, hxs⟩ := ha.member hx
      exact ih x b z ok (by omega) hxf hb hz
        (hclear.of_reaches (.single (.unionLeft hx)) hreach hreach') (hall x hx) hbz
    by_cases hcu : ∃ cs, c = .union cs
    · obtain ⟨cs, rfl⟩ := hcu
      cases hbc with
      | bottom =>
        have := eq_never_of_subtypeAt ha hsub
        simp at this
      | unions => exact absurd rfl (hnu _)
      | unionLeft => exact absurd rfl (hnu _)
      | @unionRight _ y _ hp hok hy hby =>
        refine .unions ?_ (fun hf => by rw [hok] at hf; simp at hf)
        intro x hx
        have hzs := (hc.member hy).2.2
        refine ⟨y, hy, hchain x hx y (hc.member hy).1 ?_ (.single (.unionRight hp hy))
          (reaches_members hx (ha.member hx).2.1 hy) hby⟩
        simp only [Ty.union.sizeOf_spec]
        omega
      | atom h => exact absurd h id
    · by_cases hct : ∃ tr, c = .dynTrait tr
      · obtain ⟨tr, rfl⟩ := hct
        exact absurd ⟨as, tr, .refl⟩ hclear.whole
      · refine .unionLeft (fun cs h => hcu ⟨cs, h⟩) (fun tr h => hct ⟨tr, h⟩) ?_
        intro x hx
        exact hchain x hx c hc (Nat.le_refl _) .refl (.single (.unionLeft hx)) hsubc
  | unionRight hp => exact absurd hp id
  | atom h => exact absurd h id

/-- A chain that starts anywhere else: the second link decides. -/
theorem trans_proper {n : Nat} {a b c : Ty} (ih : TransBelow rules arity n)
    (hsize : sizeOf a + sizeOf b + sizeOf c ≤ n) (hp : a.Proper)
    (ha : a.Full arity) (hb : b.Full arity) (hc : c.Full arity)
    (hclear : Clear a b c) (hab : Step rules ok a b)
    (hbc : Step rules ok b c) : Step rules ok a c := by
  have hsub := hab.subtypeAt
  cases hbc with
  | bottom =>
    obtain rfl := eq_never_of_subtypeAt ha hsub
    exact absurd hp id
  | top _ hok => exact .top _ hok
  | dynRefl => exact hab
  | dynToTrait tr => exact absurd ⟨tr, .refl⟩ hclear.right
  | traitRefl => exact hab
  | atom => exact hab
  | implementor m args tr hok himp =>
    cases hab with
    | bottom => exact absurd hp id
    | unionLeft => exact absurd hp id
    | named => exact .implementor _ _ _ hok himp
    | atom h => exact absurd h id
  | ofKind m args k hok hk =>
    cases hab with
    | bottom => exact absurd hp id
    | unionLeft => exact absurd hp id
    | named => exact .ofKind _ _ _ hok hk
    | atom h => exact absurd h id
  | @unionRight _ y cs hbp hok hy hby =>
    -- a wider union: the member that covers `b` covers `a`
    refine .unionRight hp hok hy ?_
    have hys := (hc.member hy).2.2
    simp only [Ty.union.sizeOf_spec] at hsize
    exact ih a b y ok (by omega) ha hb (hc.member hy).1 (hclear.of_reaches .refl
      (.single (.unionRight hbp hy)) (.single (.unionRight hp hy))) hsub hby
  | @unions bs cs hleft hright =>
    cases hab with
    | bottom => exact absurd hp id
    | unions => exact absurd hp id
    | unionLeft hnu => exact absurd rfl (hnu _)
    | @unionRight _ y _ hp hok hy hay =>
      obtain ⟨z, hz, hyz⟩ := hleft y hy
      obtain ⟨hyf, hyp, hys⟩ := hb.member hy
      obtain ⟨hzf, hzp, hzs⟩ := hc.member hz
      refine .unionRight hp hok hz ?_
      simp only [Ty.union.sizeOf_spec] at hsize
      exact ih a y z ok (by omega) ha hyf hzf (hclear.of_reaches (.single (.unionRight hp hy))
        (reaches_members hy hyp hz) (.single (.unionRight hp hz))) hay hyz
    | atom h => exact absurd h id
  | @unionLeft bs _ hnu hnt hall =>
    cases hab with
    | bottom => exact absurd hp id
    | unions => exact absurd hp id
    | unionLeft hnu' => exact absurd rfl (hnu' _)
    | @unionRight _ y _ hp hok hy hay =>
      obtain ⟨hyf, hyp, hys⟩ := hb.member hy
      simp only [Ty.union.sizeOf_spec] at hsize
      exact .of_subtypeAt ha hc (ih a y c ok (by omega) ha hyf hc (hclear.of_reaches
        (.single (.unionRight hp hy)) (.single (.unionLeft hy)) .refl) hay (hall y hy))
    | atom h => exact absurd h id
  | list h' =>
    cases hab with
    | bottom => exact absurd hp id
    | unionLeft => exact absurd hp id
    | list h =>
      have ha := ha.of_list
      have hb := hb.of_list
      have hc := hc.of_list
      simp only [Ty.list.sizeOf_spec] at hsize
      exact .list (ih _ _ _ ok (by omega) ha hb hc
        (hclear.of_asks (.list ..) (.list ..) (.list ..)) h h')
    | atom h => exact absurd h id
  | set h' =>
    cases hab with
    | bottom => exact absurd hp id
    | unionLeft => exact absurd hp id
    | set h =>
      have ha := ha.of_set
      have hb := hb.of_set
      have hc := hc.of_set
      simp only [Ty.set.sizeOf_spec] at hsize
      exact .set (ih _ _ _ ok (by omega) ha hb hc
        (hclear.of_asks (.set ..) (.set ..) (.set ..)) h h')
    | atom h => exact absurd h id
  | option h' =>
    cases hab with
    | bottom => exact absurd hp id
    | unionLeft => exact absurd hp id
    | option h =>
      have ha := ha.of_option
      have hb := hb.of_option
      have hc := hc.of_option
      simp only [Ty.option.sizeOf_spec] at hsize
      exact .option (ih _ _ _ ok (by omega) ha hb hc
        (hclear.of_asks (.option ..) (.option ..) (.option ..)) h h')
    | atom h => exact absurd h id
  | map h₁' h₂' =>
    cases hab with
    | bottom => exact absurd hp id
    | unionLeft => exact absurd hp id
    | map h₁ h₂ =>
      obtain ⟨ha₁, ha₂⟩ := ha.of_map
      obtain ⟨hb₁, hb₂⟩ := hb.of_map
      obtain ⟨hc₁, hc₂⟩ := hc.of_map
      simp only [Ty.map.sizeOf_spec] at hsize
      exact .map
        (ih _ _ _ ok (by omega) ha₁ hb₁ hc₁ (hclear.of_asks (.mapKey ..) (.mapKey ..) (.mapKey ..)) h₁ h₁')
        (ih _ _ _ ok (by omega) ha₂ hb₂ hc₂ (hclear.of_asks (.mapValue ..) (.mapValue ..) (.mapValue ..)) h₂ h₂')
    | atom h => exact absurd h id
  | result h₁' h₂' =>
    cases hab with
    | bottom => exact absurd hp id
    | unionLeft => exact absurd hp id
    | result h₁ h₂ =>
      obtain ⟨ha₁, ha₂⟩ := ha.of_result
      obtain ⟨hb₁, hb₂⟩ := hb.of_result
      obtain ⟨hc₁, hc₂⟩ := hc.of_result
      simp only [Ty.result.sizeOf_spec] at hsize
      exact .result
        (ih _ _ _ ok (by omega) ha₁ hb₁ hc₁ (hclear.of_asks (.resultOk ..) (.resultOk ..) (.resultOk ..)) h₁ h₁')
        (ih _ _ _ ok (by omega) ha₂ hb₂ hc₂ (hclear.of_asks (.resultErr ..) (.resultErr ..) (.resultErr ..)) h₂ h₂')
    | atom h => exact absurd h id
  | tuple hlen' h' =>
    cases hab with
    | bottom => exact absurd hp id
    | unionLeft => exact absurd hp id
    | tuple hlen h =>
      have ha := ha.of_tuple
      have hb := hb.of_tuple
      have hc := hc.of_tuple
      simp only [Ty.tuple.sizeOf_spec] at hsize
      refine .tuple (hlen.trans hlen') ?_
      intro i x z hx hz
      obtain ⟨y, hy⟩ := exists_middle hlen hx
      have hxs := sizeOf_lt_of_getElem? hx
      have hys := sizeOf_lt_of_getElem? hy
      have hzs := sizeOf_lt_of_getElem? hz
      exact ih x y z ok (by omega) (ha x (List.mem_of_getElem? hx)) (hb y (List.mem_of_getElem? hy))
        (hc z (List.mem_of_getElem? hz))
        (hclear.of_asks (.tuple hx hy) (.tuple hy hz) (.tuple hx hz)) (h i x y hx hy) (h' i y z hy hz)
    | atom h => exact absurd h id
  | fn hlen' h' hr' =>
    cases hab with
    | bottom => exact absurd hp id
    | unionLeft => exact absurd hp id
    | fn hlen h hr =>
      obtain ⟨ha, har⟩ := ha.of_fn
      obtain ⟨hb, hbr⟩ := hb.of_fn
      obtain ⟨hc, hcr⟩ := hc.of_fn
      simp only [Ty.fn.sizeOf_spec] at hsize
      refine .fn (hlen.trans hlen') ?_ (ih _ _ _ ok (by omega) har hbr hcr
        (hclear.of_asks (.fnRet ..) (.fnRet ..) (.fnRet ..)) hr hr')
      intro i x z hx hz
      obtain ⟨y, hy⟩ := exists_middle hlen hx
      have hxs := sizeOf_lt_of_getElem? hx
      have hys := sizeOf_lt_of_getElem? hy
      have hzs := sizeOf_lt_of_getElem? hz
      exact ih z y x ok (by omega) (hc z (List.mem_of_getElem? hz)) (hb y (List.mem_of_getElem? hy))
        (ha x (List.mem_of_getElem? hx))
        (hclear.turn (.fnParam hx hy) (.fnParam hy hz) (.fnParam hx hz)) (h' i y z hy hz) (h i x y hx hy)
    | atom h => exact absurd h id
  | @named m _ cs hlen' h' =>
    cases hab with
    | bottom => exact absurd hp id
    | unionLeft => exact absurd hp id
    | named hlen h =>
      obtain ⟨-, ha, -⟩ := ha.of_named
      obtain ⟨-, hb, -⟩ := hb.of_named
      obtain ⟨-, hc, -⟩ := hc.of_named
      simp only [Ty.named.sizeOf_spec] at hsize
      refine .named (hlen.trans hlen') ?_
      intro i x z hx hz
      obtain ⟨y, hy⟩ := exists_middle hlen hx
      have hxs := sizeOf_lt_of_getElem? hx
      have hys := sizeOf_lt_of_getElem? hy
      have hzs := sizeOf_lt_of_getElem? hz
      -- the argument's own flag is the same for both links: it depends on the name alone
      exact ih x y z _ (by omega) (ha x (List.mem_of_getElem? hx)) (hb y (List.mem_of_getElem? hy))
        (hc z (List.mem_of_getElem? hz))
        (hclear.of_asks (.named hx hy) (.named hy hz) (.named hx hz)) (h i x y hx hy) (h' i y z hy hz)
    | atom h => exact absurd h id

theorem transBelow (n : Nat) : TransBelow rules arity n := by
  induction n with
  | zero =>
    intro a b c ok hsize
    exact absurd hsize (Nat.not_lt_zero _)
  | succ n ih =>
    intro a b c ok hsize ha hb hc hclear hab hbc
    have hab' := Step.of_subtypeAt ha hb hab
    have hbc' := Step.of_subtypeAt hb hc hbc
    apply Step.subtypeAt
    by_cases hp : a.Proper
    · exact trans_proper ih (by omega) hp ha hb hc hclear hab' hbc'
    · cases a with
      | never => exact .bottom c
      | union as => exact trans_union ih (by omega) ha hb hc hclear hab' hbc'
      | dyn =>
        -- out of `dyn` there is only `dyn`, the trait objects being excluded
        cases hab' with
        | top => exact hbc'
        | dynRefl => exact hbc'
        | dynToTrait tr => exact absurd ⟨tr, .refl⟩ hclear.left
        | unionRight h => exact absurd h id
        | atom h => exact absurd h id
      | _ => exact absurd trivial hp

theorem subtypeAt_trans {a b c : Ty} (ha : a.Full arity) (hb : b.Full arity) (hc : c.Full arity)
    (hclear : Clear a b c) (hab : subtypeAt rules a b ok = true)
    (hbc : subtypeAt rules b c ok = true) : subtypeAt rules a c ok = true :=
  transBelow _ a b c ok (Nat.lt_succ_self _) ha hb hc hclear hab hbc

/-! ### Joins -/

/-- The members a type contributes to a union. -/
def Ty.parts : Ty → List Ty
  | .never => []
  | .union ms => ms
  | t => [t]

theorem Ty.Proper.parts (h : t.Proper) : t.parts = [t] := by
  cases t <;> first | rfl | exact absurd h id

/-- The list a union is built in: every member once, none of them `dyn`, `never` or a union, and all
of them as `P` says. -/
structure Flat (P : Ty → Prop) (flat : List Ty) : Prop where
  nodup : flat.Nodup
  holds : ∀ t ∈ flat, P t
  proper : ∀ t ∈ flat, t.Proper

/-- What a type contributes to a union is proper and as `P` says. -/
def Joins (P : Ty → Prop) (t : Ty) : Prop :=
  (t.Proper → P t) ∧ ∀ inner, t = .union inner → ∀ m ∈ inner, P m ∧ m.Proper

theorem parts_eq_nil (h : t.Full arity) : t.parts = [] ↔ t = .never := by
  constructor
  · intro hnil
    cases h with
    | never => rfl
    | union hlen =>
      simp only [Ty.parts] at hnil
      subst hnil
      simp at hlen
    | _ => simp [Ty.parts] at hnil
  · rintro rfl
    rfl

theorem nodup_parts (h : t.Full arity) : t.parts.Nodup := by
  cases h with
  | never => exact List.nodup_nil
  | union _ hnodup => exact hnodup
  | _ => exact List.nodup_singleton _

/-- The type `Type::union` builds from what it has collected. -/
def Ty.ofFlat (sawNever : Bool) : List Ty → Ty
  | [] => if sawNever then .never else .unknown
  | [t] => t
  | flat => .union flat

/-- The members a type brings to the loop of `Type::union`, a `never` among them. -/
def Ty.brought : Ty → List Ty
  | .union ms => ms
  | t => [t]

theorem Ty.mem_parts {t u : Ty} (hn : u ≠ .never) : u ∈ t.parts ↔ u ∈ t.brought := by
  cases t <;> simp [Ty.parts, Ty.brought, hn]

theorem pushInner_append (l r flat : List Ty) (saw : Bool) : Ty.pushInner (l ++ r) flat saw =
    (Ty.pushInner l flat saw).bind fun out => Ty.pushInner r out.1 out.2 := by
  induction l generalizing flat saw with
  | nil => rfl
  | cons t l ih =>
    simp only [List.cons_append, Ty.pushInner, ih]
    split
    · rfl
    · split <;> rfl

theorem pushMembers_eq (ms flat : List Ty) (saw : Bool) :
    Ty.pushMembers ms flat saw = Ty.pushInner (ms.flatMap Ty.brought) flat saw := by
  induction ms generalizing flat saw with
  | nil => rfl
  | cons m ms ih =>
    rw [List.flatMap_cons, pushInner_append]
    cases m with
    | union inner =>
      rw [Ty.pushMembers, Ty.brought]
      cases Ty.pushInner inner flat saw with
      | none => rfl
      | some out => exact ih out.1 out.2
    | dyn => rfl
    | _ => exact ih _ _

theorem pushInner_eq (ts flat : List Ty) (saw : Bool) : Ty.pushInner ts flat saw =
    if .dyn ∈ ts then none
    else some (collect flat (ts.filter (· ≠ .never)), saw || decide (.never ∈ ts)) := by
  induction ts generalizing flat saw with
  | nil => simp [Ty.pushInner]
  | cons t ts ih =>
    by_cases hd : t = .dyn
    · subst hd
      simp [Ty.pushInner]
    · by_cases hn : t = .never
      · subst hn
        simp [Ty.pushInner, ih]
      · have hpush : Ty.pushInner (t :: ts) flat saw = Ty.pushInner ts (insertNew flat t) saw := by
          simp [Ty.pushInner, hd, hn, Ty.pushNew, insertNew]
        simp [hpush, ih, hn, Ne.symm hd, Ne.symm hn]

/-- `Type::union` goes by what its arguments bring: `dyn` absorbs the rest, and of what is not
`never` the first of each is kept. -/
theorem unionOf_eq_ofFlat (ms : List Ty) : Ty.unionOf ms =
    if .dyn ∈ ms.flatMap Ty.brought then .dyn
    else Ty.ofFlat (decide (.never ∈ ms.flatMap Ty.brought))
      (collect [] ((ms.flatMap Ty.brought).filter (· ≠ .never))) := by
  unfold Ty.unionOf
  rw [pushMembers_eq, pushInner_eq]
  by_cases hd : Ty.dyn ∈ ms.flatMap Ty.brought
  · rw [if_pos hd, if_pos hd]
  · rw [if_neg hd, if_neg hd, Bool.false_or]
    generalize collect [] ((ms.flatMap Ty.brought).filter (· ≠ .never)) = flat
    rcases flat with _ | ⟨_, _ | ⟨_, _⟩⟩
    · cases decide (Ty.never ∈ ms.flatMap Ty.brought) <;> rfl
    · rfl
    · rfl

theorem Joins.mem_brought (h : Joins P t) (hu : u ∈ t.brought) :
    u = t ∧ (t = .dyn ∨ t = .never) ∨ u.Proper ∧ P u := by
  cases t with
  | union inner => exact .inr (h.2 inner rfl u hu).symm
  | dyn => exact .inl ⟨List.mem_singleton.1 hu, .inl rfl⟩
  | never => exact .inl ⟨List.mem_singleton.1 hu, .inr rfl⟩
  | _ =>
    obtain rfl := List.mem_singleton.1 hu
    exact .inr ⟨trivial, h.1 trivial⟩

theorem Joins.ne_never (h : Joins P t) {u : Ty} (hu : u ∈ t.parts) : u ≠ .never := by
  cases t with
  | never => exact absurd hu (by simp [Ty.parts])
  | union inner =>
    rintro rfl
    exact (h.2 inner rfl _ hu).2
  | _ => simp_all [Ty.parts]

theorem mem_flatMap_brought {ms : List Ty} {t : Ty} (hms : ∀ m ∈ ms, Joins P m) (ht : ¬ t.Proper)
    (hb : t.brought = [t]) : t ∈ ms.flatMap Ty.brought ↔ t ∈ ms := by
  constructor
  · intro h
    obtain ⟨m, hm, hu⟩ := List.mem_flatMap.1 h
    rcases (hms m hm).mem_brought hu with ⟨rfl, -⟩ | ⟨hp, -⟩
    · exact hm
    · exact absurd hp ht
  · intro h
    exact List.mem_flatMap.2 ⟨t, h, by simp [hb]⟩

theorem unionOf_collects (ms : List Ty) (hms : ∀ m ∈ ms, Joins P m) : (.dyn ∈ ms ∧ Ty.unionOf ms = .dyn) ∨
    (.dyn ∉ ms ∧ ∃ flat saw, Ty.unionOf ms = Ty.ofFlat saw flat ∧ Flat P flat ∧
      (saw = true ↔ .never ∈ ms) ∧ ∀ u, u ∈ flat ↔ ∃ m ∈ ms, u ∈ m.parts) := by
  have hdyn := mem_flatMap_brought (t := .dyn) hms id rfl
  have hnever := mem_flatMap_brought (t := .never) hms id rfl
  rw [unionOf_eq_ofFlat]
  by_cases hd : .dyn ∈ ms
  · exact .inl ⟨hd, if_pos (hdyn.2 hd)⟩
  · have hflat (u : Ty) : u ∈ collect [] ((ms.flatMap Ty.brought).filter (· ≠ .never)) ↔
        (∃ m ∈ ms, u ∈ m.brought) ∧ u ≠ .never := by simp
    have hkept : ∀ u ∈ collect [] ((ms.flatMap Ty.brought).filter (· ≠ .never)), u.Proper ∧ P u := by
      intro u hu
      obtain ⟨⟨m, hm, hu⟩, hn⟩ := (hflat u).1 hu
      rcases (hms m hm).mem_brought hu with ⟨rfl, rfl | rfl⟩ | h
      · exact absurd hm hd
      · exact absurd rfl hn
      · exact h
    refine .inr ⟨hd, _, _, if_neg (mt hdyn.1 hd), ⟨nodup_collect List.nodup_nil,
      fun u hu => (hkept u hu).2, fun u hu => (hkept u hu).1⟩, by simpa using hnever, ?_⟩
    intro u
    rw [hflat]
    constructor
    · rintro ⟨⟨m, hm, hu⟩, hn⟩
      exact ⟨m, hm, (Ty.mem_parts hn).2 hu⟩
    · rintro ⟨m, hm, hu⟩
      have hn := (hms m hm).ne_never hu
      exact ⟨⟨m, hm, (Ty.mem_parts hn).1 hu⟩, hn⟩

theorem Ty.Full.joins (h : t.Full arity) : Joins (Ty.Full arity) t := by
  refine ⟨fun _ => h, ?_⟩
  rintro inner rfl m hm
  exact ⟨(h.member hm).1, (h.member hm).2.1⟩

/-- `Type::union` builds a fully specified type with the members of its arguments, or `dyn` when
one of them is `dyn`. -/
theorem unionOf_spec (ms : List Ty) (hne : ms ≠ []) (hms : ∀ m ∈ ms, m.Full arity) :
    (Ty.unionOf ms).Full arity ∧
      ((.dyn ∈ ms ∧ Ty.unionOf ms = .dyn) ∨
        (.dyn ∉ ms ∧ ∀ u, u ∈ (Ty.unionOf ms).parts ↔ ∃ m ∈ ms, u ∈ m.parts)) := by
  rcases unionOf_collects ms (fun m hm => (hms m hm).joins) with
    ⟨hd, heq⟩ | ⟨hd, flat, saw, heq, hflat, hsaw, hparts⟩
  · rw [heq]
    exact ⟨.dyn, .inl ⟨hd, rfl⟩⟩
  · match flat, hflat, hparts with
    | [], _, hparts =>
      -- nothing was collected, so every member was `never`
      have hnever : saw = true := by
        obtain ⟨m, ms', rfl⟩ := List.exists_cons_of_ne_nil hne
        refine hsaw.2 ?_
        have hm := hms m (by simp)
        have hempty : m.parts = [] := by
          apply List.eq_nil_iff_forall_not_mem.2
          intro u hu
          exact absurd ((hparts u).2 ⟨m, by simp, hu⟩) (by simp)
        rw [(parts_eq_nil hm).1 hempty]
        exact List.mem_cons_self
      rw [heq, Ty.ofFlat, if_pos hnever]
      exact ⟨.never, .inr ⟨hd, hparts⟩⟩
    | [t], hflat, hparts =>
      have hp := hflat.proper t (by simp)
      rw [heq, Ty.ofFlat, hp.parts]
      exact ⟨hflat.holds t (by simp), .inr ⟨hd, hparts⟩⟩
    | t :: u :: rest, hflat, hparts =>
      have hunion : Ty.ofFlat saw (t :: u :: rest) = .union (t :: u :: rest) := rfl
      rw [heq, hunion]
      refine ⟨.union (by simp) hflat.nodup hflat.holds ?_, .inr ⟨hd, hparts⟩⟩
      intro m hm
      have hp := hflat.proper m hm
      refine ⟨?_, ?_, ?_⟩
      · rintro rfl
        exact hp
      · rintro rfl
        exact hp
      · rintro inner rfl
        exact hp

/-- Below anything but a trait object, a type goes member by member. -/
theorem subtypeWith_iff_parts {a t : Ty} (ha : a.Full arity) (ht : t.Full arity)
    (hnt : ∀ tr, t ≠ .dynTrait tr) :
    subtypeWith rules a t = true ↔ ∀ p ∈ a.parts, subtypeWith rules p t = true := by
  unfold subtypeWith
  cases a with
  | never => simp [Ty.parts, subtypeAt_never]
  | union as =>
    constructor
    · intro h x hx
      obtain ⟨hxf, hxp, -⟩ := ha.member hx
      cases Step.of_subtypeAt ha ht h with
      | top => exact subtypeAt_dyn _ (.inl rfl)
      | unions hleft =>
        obtain ⟨y, hy, hxy⟩ := hleft x hx
        exact (Step.unionRight hxp rfl hy hxy).subtypeAt
      | unionLeft _ _ hall => exact hall x hx
      | unionRight hp => exact absurd hp id
      | atom hatom => exact absurd hatom id
    · intro h
      apply Step.subtypeAt
      by_cases hu : ∃ bs, t = .union bs
      · obtain ⟨bs, rfl⟩ := hu
        refine .unions ?_ (by simp)
        intro x hx
        obtain ⟨hxf, hxp, -⟩ := ha.member hx
        cases Step.of_subtypeAt hxf ht (h x hx) with
        | bottom => exact absurd hxp id
        | unions => exact absurd hxp id
        | unionLeft => exact absurd hxp id
        | unionRight _ _ hy hxy => exact ⟨_, hy, hxy⟩
        | atom hatom => exact absurd hatom id
      · exact .unionLeft (fun bs h => hu ⟨bs, h⟩) hnt h
  | _ => simp [Ty.parts]

theorem subtypeWith_dyn_iff (ht : t.Full arity) :
    subtypeWith rules .dyn t = true ↔ t = .dyn ∨ ∃ tr, t = .dynTrait tr := by
  constructor
  · intro h
    cases Step.of_subtypeAt .dyn ht h with
    | top => exact .inl rfl
    | dynRefl => exact .inl rfl
    | dynToTrait tr => exact .inr ⟨tr, rfl⟩
    | unionRight hp => exact absurd hp id
    | atom hatom => exact absurd hatom id
  · rintro (rfl | ⟨tr, rfl⟩)
    · exact subtypeAt_dyn _ (.inr rfl)
    · exact (Step.dynToTrait tr).subtypeAt

/-- What the trait-object arm admits. -/
def AdmittedBy (rules : NominalRules) (tr : String) (t : Ty) : Prop :=
  t = .dyn ∨ t = .never ∨ t = .dynTrait tr ∨
    ∃ n args, t = .named n args ∧ rules.implementsTrait n tr = true

theorem subtypeWith_trait_iff (ht : t.Full arity) (tr : String) :
    subtypeWith rules t (.dynTrait tr) = true ↔ AdmittedBy rules tr t := by
  constructor
  · intro h
    cases Step.of_subtypeAt ht (.dynTrait tr) h with
    | bottom => exact .inr (.inl rfl)
    | dynToTrait => exact .inl rfl
    | traitRefl => exact .inr (.inr (.inl rfl))
    | implementor n args _ _ himp => exact .inr (.inr (.inr ⟨n, args, rfl, himp⟩))
    | unionLeft _ hnt => exact absurd rfl (hnt tr)
    | atom hatom => exact absurd hatom id
  · rintro (rfl | rfl | rfl | ⟨n, args, rfl, himp⟩)
    · exact (Step.dynToTrait tr).subtypeAt
    · exact subtypeAt_never _
    · exact (Step.traitRefl tr).subtypeAt
    · exact (Step.implementor n args tr rfl himp).subtypeAt

/-- When the join law holds at a target: always when that is no trait object; at one, when a `dyn`
argument meets only admitted types, and when otherwise the two arguments are not two different
admitted types. -/
def JoinClear (rules : NominalRules) (a b t : Ty) : Prop :=
  ∀ tr, t = .dynTrait tr →
    ((a = .dyn ∨ b = .dyn) → AdmittedBy rules tr a ∧ AdmittedBy rules tr b) ∧
    (a ≠ .dyn → b ≠ .dyn → a ≠ .never → b ≠ .never → a ≠ b →
      ¬ (AdmittedBy rules tr a ∧ AdmittedBy rules tr b))

theorem admittedBy_iff_parts (ht : t.Full arity) (tr : String) :
    AdmittedBy rules tr t ↔ t.parts = [] ∨ ∃ p, t.parts = [p] ∧ AdmittedBy rules tr p := by
  constructor
  · intro h
    by_cases hn : t = .never
    · exact .inl ((parts_eq_nil ht).2 hn)
    · refine .inr ⟨t, ?_, h⟩
      rcases h with rfl | rfl | rfl | ⟨n, args, rfl, -⟩
      · rfl
      · exact absurd rfl hn
      · rfl
      · rfl
  · rintro (h | ⟨p, hp, hadm⟩)
    · exact .inr (.inl ((parts_eq_nil ht).1 h))
    · have heq : t = p := by
        cases t with
        | never => simp [Ty.parts] at hp
        | union ms =>
          cases ht with
          | union hlen =>
            simp only [Ty.parts] at hp
            subst hp
            simp at hlen
        | _ => simpa [Ty.parts] using hp
      rw [heq]
      exact hadm

theorem eq_nil_or_singleton_of_subset {l l' : List Ty} {p : Ty} (hnodup : l.Nodup)
    (hsub : ∀ u ∈ l, u ∈ l') (hl' : l' = [p]) : l = [] ∨ l = [p] := by
  subst hl'
  cases l with
  | nil => exact .inl rfl
  | cons u rest =>
    have hu : u = p := by simpa using hsub u (by simp)
    subst hu
    right
    cases rest with
    | nil => rfl
    | cons v rest =>
      have hv : v = u := by simpa using hsub v (by simp)
      subst hv
      simp at hnodup

theorem AdmittedBy.of_parts_subset {s t : Ty} {tr : String} (hs : s.Full arity) (ht : t.Full arity)
    (hsub : ∀ u ∈ s.parts, u ∈ t.parts) (h : AdmittedBy rules tr t) : AdmittedBy rules tr s := by
  rw [admittedBy_iff_parts hs]
  rcases (admittedBy_iff_parts ht tr).1 h with hnil | ⟨p, hp, hadm⟩
  · left
    apply List.eq_nil_iff_forall_not_mem.2
    intro u hu
    have := hsub u hu
    rw [hnil] at this
    simp at this
  · rcases eq_nil_or_singleton_of_subset (nodup_parts hs) hsub hp with hnil | hone
    · exact .inl hnil
    · exact .inr ⟨p, hone, hadm⟩

/-- The join law at a trait object, when no argument is `dyn`. -/
theorem admittedBy_join_iff {u a b : Ty} {tr : String} (hu : u.Full arity) (ha : a.Full arity)
    (hb : b.Full arity) (hparts : ∀ p, p ∈ u.parts ↔ p ∈ a.parts ∨ p ∈ b.parts)
    (had : a ≠ .dyn) (hbd : b ≠ .dyn) :
    (AdmittedBy rules tr u ↔ AdmittedBy rules tr a ∧ AdmittedBy rules tr b) ↔
      (a ≠ .never → b ≠ .never → a ≠ b → ¬ (AdmittedBy rules tr a ∧ AdmittedBy rules tr b)) := by
  constructor
  · intro hlaw han hbn hne hboth
    -- both are parts of the union, which has at most one
    have hself : ∀ t : Ty, t ≠ .dyn → t ≠ .never → AdmittedBy rules tr t → t.parts = [t] := by
      intro t htd htn ht
      rcases ht with rfl | rfl | rfl | ⟨n, args, rfl, -⟩
      · exact absurd rfl htd
      · exact absurd rfl htn
      · rfl
      · rfl
    have hpa : a ∈ u.parts := (hparts a).2 (.inl (by rw [hself a had han hboth.1]; simp))
    have hpb : b ∈ u.parts := (hparts b).2 (.inr (by rw [hself b hbd hbn hboth.2]; simp))
    rcases (admittedBy_iff_parts hu tr).1 (hlaw.2 hboth) with hnil | ⟨p, hp, -⟩
    · rw [hnil] at hpa
      simp at hpa
    · rw [hp, List.mem_singleton] at hpa hpb
      exact hne (hpa.trans hpb.symm)
  · intro hclear
    constructor
    · intro h
      exact ⟨.of_parts_subset ha hu (fun p hp => (hparts p).2 (.inl hp)) h,
        .of_parts_subset hb hu (fun p hp => (hparts p).2 (.inr hp)) h⟩
    · intro hboth
      by_cases han : a = .never
      · subst han
        exact .of_parts_subset hu hb (fun p hp => by simpa [Ty.parts] using (hparts p).1 hp) hboth.2
      · by_cases hbn : b = .never
        · subst hbn
          exact .of_parts_subset hu ha (fun p hp => by simpa [Ty.parts] using (hparts p).1 hp) hboth.1
        · by_cases hab : a = b
          · subst hab
            exact .of_parts_subset hu ha (fun p hp => by simpa using (hparts p).1 hp) hboth.1
          · exact absurd hboth (hclear han hbn hab)

/-- The join law, at every target where the trait-object arm does not break it. -/
theorem join_iff {a b t : Ty} (ha : a.Full arity) (hb : b.Full arity) (ht : t.Full arity) :
    (subtypeWith rules (Ty.unionOf [a, b]) t = true ↔
      subtypeWith rules a t = true ∧ subtypeWith rules b t = true) ↔ JoinClear rules a b t := by
  have hms : ∀ m ∈ [a, b], m.Full arity := by
    intro m hm
    simp only [List.mem_cons, List.not_mem_nil, or_false] at hm
    rcases hm with rfl | rfl
    · exact ha
    · exact hb
  obtain ⟨hfull, hcase⟩ := unionOf_spec [a, b] (by simp) hms
  by_cases htr : ∃ tr, t = .dynTrait tr
  · obtain ⟨tr, rfl⟩ := htr
    have hclear : JoinClear rules a b (.dynTrait tr) ↔
        ((a = .dyn ∨ b = .dyn) → AdmittedBy rules tr a ∧ AdmittedBy rules tr b) ∧
        (a ≠ .dyn → b ≠ .dyn → a ≠ .never → b ≠ .never → a ≠ b →
          ¬ (AdmittedBy rules tr a ∧ AdmittedBy rules tr b)) := by
      constructor
      · intro h
        exact h tr rfl
      · intro h tr' heq
        cases heq
        exact h
    rw [hclear, subtypeWith_trait_iff hfull, subtypeWith_trait_iff ha, subtypeWith_trait_iff hb]
    rcases hcase with ⟨hdyn, heq⟩ | ⟨hdyn, hparts⟩
    · have hor : a = .dyn ∨ b = .dyn := by simpa [eq_comm] using hdyn
      have hadm : AdmittedBy rules tr (Ty.unionOf [a, b]) := .inl heq
      constructor
      · intro hlaw
        refine ⟨fun _ => hlaw.1 hadm, ?_⟩
        intro had hbd
        rcases hor with h | h
        · exact absurd h had
        · exact absurd h hbd
      · intro h
        exact iff_of_true hadm (h.1 hor)
    · have had : a ≠ .dyn := by
        rintro rfl
        simp at hdyn
      have hbd : b ≠ .dyn := by
        rintro rfl
        simp at hdyn
      rw [admittedBy_join_iff hfull ha hb (by simpa using hparts) had hbd]
      simp [had, hbd]
  · have hnt : ∀ tr, t ≠ .dynTrait tr := fun tr h => htr ⟨tr, h⟩
    refine iff_of_true ?_ (fun tr h => absurd h (hnt tr))
    rcases hcase with ⟨hdyn, heq⟩ | ⟨hdyn, hparts⟩
    · have hor : a = .dyn ∨ b = .dyn := by simpa [eq_comm] using hdyn
      rw [heq, subtypeWith_dyn_iff ht]
      constructor
      · rintro (rfl | ⟨tr, rfl⟩)
        · exact ⟨subtypeAt_dyn _ (.inl rfl), subtypeAt_dyn _ (.inl rfl)⟩
        · exact absurd rfl (hnt tr)
      · rintro ⟨hat, hbt⟩
        rcases hor with rfl | rfl
        · exact (subtypeWith_dyn_iff ht).1 hat
        · exact (subtypeWith_dyn_iff ht).1 hbt
    · rw [subtypeWith_iff_parts hfull ht hnt, subtypeWith_iff_parts ha ht hnt,
        subtypeWith_iff_parts hb ht hnt]
      have hmem : ∀ p, p ∈ (Ty.unionOf [a, b]).parts ↔ p ∈ a.parts ∨ p ∈ b.parts := by
        simpa using hparts
      constructor
      · intro h
        exact ⟨fun p hp => h p ((hmem p).2 (.inl hp)), fun p hp => h p ((hmem p).2 (.inr hp))⟩
      · intro h p hp
        rcases (hmem p).1 hp with hpa | hpb
        · exact h.1 p hpa
        · exact h.2 p hpb

end Laws

/-- A registry in which `Dog` implements `Speak`. -/
def speakRules : NominalRules where
  isOfKind _ _ := false
  implementsTrait n tr := n == "Dog" && tr == "Speak"
  covariantArg _ _ := false

end Noeta.Types
