import Mathlib.Data.List.Basic
import Mathlib.Data.List.Nodup

/-!
# The type lattice

`Type`, `Type::subtype_at` and `Type::union` of `noeta-types/src/lib.rs`. The registry-dependent
rules are a record of predicates on names, as the walk asks them.
-/

namespace Noeta.Types

/-- The kinds of declared nominal types. -/
inductive TypeKind where
  | enumKind
  | structKind
  | classKind
deriving DecidableEq, Repr

/-- A type in the lattice (`Type` in the source). A type parameter is its declaration's identity:
the spelling a `ParamRef` carries besides is compared by nothing. -/
inductive Ty where
  | unknown
  | dyn
  | never
  | unit
  | int
  | float
  | f32
  | f64
  | intN (signed : Bool) (bits : Nat)
  | bool
  | string
  | bytes
  | list (elem : Ty)
  | map (key value : Ty)
  | set (elem : Ty)
  | option (inner : Ty)
  | result (ok err : Ty)
  | named (name : String) (args : List Ty)
  | param (id : Nat)
  | fn (params : List Ty) (ret : Ty)
  | kind (k : TypeKind)
  | union (members : List Ty)
  | tuple (elems : List Ty)
  | dynTrait (name : String)
deriving Repr

namespace Ty

/-! ### Equality -/

mutual

/-- The derived `PartialEq`. -/
def beq : Ty → Ty → Bool
  | .unknown, .unknown => true
  | .dyn, .dyn => true
  | .never, .never => true
  | .unit, .unit => true
  | .int, .int => true
  | .float, .float => true
  | .f32, .f32 => true
  | .f64, .f64 => true
  | .intN s b, .intN s' b' => s == s' && b == b'
  | .bool, .bool => true
  | .string, .string => true
  | .bytes, .bytes => true
  | .list a, .list b => beq a b
  | .map k v, .map k' v' => beq k k' && beq v v'
  | .set a, .set b => beq a b
  | .option a, .option b => beq a b
  | .result t e, .result t' e' => beq t t' && beq e e'
  | .named n as, .named m bs => n == m && beqList as bs
  | .param a, .param b => a == b
  | .fn ps r, .fn qs s => beqList ps qs && beq r s
  | .kind a, .kind b => a == b
  | .union as, .union bs => beqList as bs
  | .tuple as, .tuple bs => beqList as bs
  | .dynTrait a, .dynTrait b => a == b
  | _, _ => false

def beqList : List Ty → List Ty → Bool
  | [], [] => true
  | a :: as, b :: bs => beq a b && beqList as bs
  | _, _ => false

end

mutual

theorem beq_iff : ∀ a b : Ty, beq a b = true ↔ a = b
  | .unknown, b => by cases b <;> simp [beq]
  | .dyn, b => by cases b <;> simp [beq]
  | .never, b => by cases b <;> simp [beq]
  | .unit, b => by cases b <;> simp [beq]
  | .int, b => by cases b <;> simp [beq]
  | .float, b => by cases b <;> simp [beq]
  | .f32, b => by cases b <;> simp [beq]
  | .f64, b => by cases b <;> simp [beq]
  | .intN _ _, b => by cases b <;> simp [beq]
  | .bool, b => by cases b <;> simp [beq]
  | .string, b => by cases b <;> simp [beq]
  | .bytes, b => by cases b <;> simp [beq]
  | .list a, b => by cases b <;> simp [beq, beq_iff a]
  | .map k v, b => by cases b <;> simp [beq, beq_iff k, beq_iff v]
  | .set a, b => by cases b <;> simp [beq, beq_iff a]
  | .option a, b => by cases b <;> simp [beq, beq_iff a]
  | .result t e, b => by cases b <;> simp [beq, beq_iff t, beq_iff e]
  | .named _ as, b => by cases b <;> simp [beq, beqList_iff as]
  | .param _, b => by cases b <;> simp [beq]
  | .fn ps r, b => by cases b <;> simp [beq, beqList_iff ps, beq_iff r]
  | .kind _, b => by cases b <;> simp [beq]
  | .union as, b => by cases b <;> simp [beq, beqList_iff as]
  | .tuple as, b => by cases b <;> simp [beq, beqList_iff as]
  | .dynTrait _, b => by cases b <;> simp [beq]

theorem beqList_iff : ∀ as bs : List Ty, beqList as bs = true ↔ as = bs
  | [], bs => by cases bs <;> simp [beqList]
  | a :: as, bs => by cases bs <;> simp [beqList, beq_iff a, beqList_iff as]

end

instance : DecidableEq Ty := fun a b => decidable_of_iff _ (beq_iff a b)

def isGradual : Ty → Bool
  | .unknown => true
  | _ => false

def defersToRuntime : Ty → Bool
  | .unknown => true
  | .dyn => true
  | _ => false

end Ty

/-- The registry-dependent rules the lattice cannot decide alone. -/
structure NominalRules where
  isOfKind : String → TypeKind → Bool
  implementsTrait : String → String → Bool
  covariantArg : String → Nat → Bool

set_option linter.unusedVariables false in
open Ty in
/-- The walk, carrying whether a value may be read at a wider type in this position. -/
def subtypeAt (rules : NominalRules) (sub sup : Ty) (wideningOk : Bool) : Bool :=
  if sub.isGradual || sup.isGradual then true
  else if sup == .dyn && (wideningOk || sub == .dyn) then true
  else if sub == .never then true
  else match sub, sup with
    -- the trait-object arm returns before any of the arms below
    | .dynTrait a, .dynTrait tr => a == tr
    | .named n args, .dynTrait tr =>
      if wideningOk then rules.implementsTrait n tr else defersToRuntime (.named n args)
    | other, .dynTrait _ => other.defersToRuntime
    -- narrowing out of `dyn` is never implicit
    | .dyn, _ => false
    | .union a, .union b =>
      a.attach.all (fun ⟨x, hx⟩ => b.attach.any fun ⟨y, hy⟩ => subtypeAt rules x y wideningOk) &&
        (wideningOk ||
          b.attach.all (fun ⟨y, hy⟩ => a.attach.any fun ⟨x, hx⟩ => subtypeAt rules x y wideningOk))
    | .union members, sup => members.attach.all fun ⟨m, hm⟩ => subtypeAt rules m sup wideningOk
    | sub, .union members =>
      wideningOk && members.attach.any fun ⟨m, hm⟩ => subtypeAt rules sub m wideningOk
    | .list a, .list b => subtypeAt rules a b wideningOk
    | .set a, .set b => subtypeAt rules a b wideningOk
    | .tuple a, .tuple b =>
      a.length == b.length &&
        (a.attach.zip b.attach).all fun (⟨x, hx⟩, ⟨y, hy⟩) => subtypeAt rules x y wideningOk
    | .map ak av, .map bk bv => subtypeAt rules ak bk wideningOk && subtypeAt rules av bv wideningOk
    | .option a, .option b => subtypeAt rules a b wideningOk
    | .result at' ae, .result bt be =>
      subtypeAt rules at' bt wideningOk && subtypeAt rules ae be wideningOk
    | .fn ap ar, .fn bp br =>
      ap.length == bp.length &&
        -- contravariant parameters, covariant return
        (ap.attach.zip bp.attach).all (fun (⟨x, hx⟩, ⟨y, hy⟩) => subtypeAt rules y x wideningOk) &&
        subtypeAt rules ar br wideningOk
    | .named an aa, .named bn ba =>
      an == bn &&
        (aa.isEmpty || ba.isEmpty ||
          (aa.length == ba.length &&
            (aa.attach.zip ba.attach).zipIdx.all fun ((⟨x, hx⟩, ⟨y, hy⟩), i) =>
              -- an unspecified argument flows into a concrete instantiation
              x == .dyn || subtypeAt rules x y (wideningOk && rules.covariantArg an i)))
    | .named n _, .kind k => wideningOk && rules.isOfKind n k
    | .param a, .param b => a == b
    | .param _, _ => false
    | _, .param _ => false
    | .kind a, .kind b => a == b
    | sub, sup => sub == sup
termination_by sizeOf sub + sizeOf sup
decreasing_by
  all_goals simp_wf
  all_goals try omega
  all_goals try have hxs := List.sizeOf_lt_of_mem hx
  all_goals try have hys := List.sizeOf_lt_of_mem hy
  all_goals try have hms := List.sizeOf_lt_of_mem hm
  all_goals omega

/-- `Type::subtype_with`: the walk from a position that admits a widening. -/
def subtypeWith (rules : NominalRules) (sub sup : Ty) : Bool :=
  subtypeAt rules sub sup true

/-! ### Building a union -/

namespace Ty

/-- `if !flat.contains(&t) { flat.push(t) }`. -/
def pushNew (flat : List Ty) (t : Ty) : List Ty :=
  if flat.contains t then flat else flat ++ [t]

/-- The inner loop of `Type::union`, over the members of a nested union. `none` is the early
return of `dyn`; the flag is `saw_never`. -/
def pushInner : List Ty → List Ty → Bool → Option (List Ty × Bool)
  | [], flat, sawNever => some (flat, sawNever)
  | t :: ts, flat, sawNever =>
    if t == .dyn then none
    else if t == .never then pushInner ts flat true
    else pushInner ts (pushNew flat t) sawNever

/-- The loop of `Type::union`. -/
def pushMembers : List Ty → List Ty → Bool → Option (List Ty × Bool)
  | [], flat, sawNever => some (flat, sawNever)
  | .dyn :: _, _, _ => none
  | .never :: ms, flat, _ => pushMembers ms flat true
  | .union inner :: ms, flat, sawNever =>
    match pushInner inner flat sawNever with
    | none => none
    | some (flat, sawNever) => pushMembers ms flat sawNever
  | other :: ms, flat, sawNever => pushMembers ms (pushNew flat other) sawNever

/-- `Type::union`. -/
def unionOf (members : List Ty) : Ty :=
  match pushMembers members [] false with
  | none => .dyn
  | some ([], true) => .never
  | some ([], false) => .unknown
  | some ([t], _) => t
  | some (flat, _) => .union flat

end Ty

/-! ### Fully specified types -/

/-- No inference hole anywhere, each nominal name with its own number of arguments and no bare
`dyn` among them, and unions as `Type::union` builds them. -/
inductive Ty.Full (arity : String → Nat) : Ty → Prop
  | dyn : Full arity .dyn
  | never : Full arity .never
  | unit : Full arity .unit
  | int : Full arity .int
  | float : Full arity .float
  | f32 : Full arity .f32
  | f64 : Full arity .f64
  | intN (signed : Bool) (bits : Nat) : Full arity (.intN signed bits)
  | bool : Full arity .bool
  | string : Full arity .string
  | bytes : Full arity .bytes
  | list {a : Ty} : Full arity a → Full arity (.list a)
  | map {k v : Ty} : Full arity k → Full arity v → Full arity (.map k v)
  | set {a : Ty} : Full arity a → Full arity (.set a)
  | option {a : Ty} : Full arity a → Full arity (.option a)
  | result {t e : Ty} : Full arity t → Full arity e → Full arity (.result t e)
  | named {n : String} {args : List Ty} : args.length = arity n →
      (∀ a ∈ args, Full arity a) → (∀ a ∈ args, a ≠ .dyn) → Full arity (.named n args)
  | param (id : Nat) : Full arity (.param id)
  | fn {params : List Ty} {ret : Ty} : (∀ a ∈ params, Full arity a) → Full arity ret →
      Full arity (.fn params ret)
  | kind (k : TypeKind) : Full arity (.kind k)
  | union {ms : List Ty} : 2 ≤ ms.length → ms.Nodup → (∀ m ∈ ms, Full arity m) →
      (∀ m ∈ ms, m ≠ .dyn ∧ m ≠ .never ∧ ∀ inner, m ≠ .union inner) → Full arity (.union ms)
  | tuple {elems : List Ty} : (∀ a ∈ elems, Full arity a) → Full arity (.tuple elems)
  | dynTrait (tr : String) : Full arity (.dynTrait tr)

/-! The parts of a fully specified type are fully specified. -/

section Parts

variable {arity : String → Nat}

theorem Ty.Full.of_list {a : Ty} (h : (Ty.list a).Full arity) : a.Full arity := by
  cases h
  assumption

theorem Ty.Full.of_set {a : Ty} (h : (Ty.set a).Full arity) : a.Full arity := by
  cases h
  assumption

theorem Ty.Full.of_option {a : Ty} (h : (Ty.option a).Full arity) : a.Full arity := by
  cases h
  assumption

theorem Ty.Full.of_map {k v : Ty} (h : (Ty.map k v).Full arity) : k.Full arity ∧ v.Full arity := by
  cases h
  exact ⟨by assumption, by assumption⟩

theorem Ty.Full.of_result {t e : Ty} (h : (Ty.result t e).Full arity) :
    t.Full arity ∧ e.Full arity := by
  cases h
  exact ⟨by assumption, by assumption⟩

theorem Ty.Full.of_tuple {elems : List Ty} (h : (Ty.tuple elems).Full arity) :
    ∀ a ∈ elems, a.Full arity := by
  cases h
  assumption

theorem Ty.Full.of_fn {params : List Ty} {ret : Ty} (h : (Ty.fn params ret).Full arity) :
    (∀ a ∈ params, a.Full arity) ∧ ret.Full arity := by
  cases h
  exact ⟨by assumption, by assumption⟩

theorem Ty.Full.of_named {n : String} {args : List Ty} (h : (Ty.named n args).Full arity) :
    args.length = arity n ∧ (∀ a ∈ args, a.Full arity) ∧ ∀ a ∈ args, a ≠ .dyn := by
  cases h
  exact ⟨by assumption, by assumption, by assumption⟩

end Parts

/-! ### One step of the walk

`Step` says in one place what a positive answer of the walk can rest on. -/

/-- The types the walk relates to nothing of their own shape but themselves. -/
def Ty.Atomic : Ty → Prop
  | .unit | .int | .float | .f32 | .f64 | .intN .. | .bool | .string | .bytes | .param .. | .kind .. =>
    True
  | _ => False

/-- Neither `dyn` nor `never` nor a union: what the arms below the early exits see on the left. -/
def Ty.Proper : Ty → Prop
  | .dyn | .never | .union .. => False
  | _ => True

inductive Step (rules : NominalRules) (ok : Bool) : Ty → Ty → Prop
  | bottom (t : Ty) : Step rules ok .never t
  | top (s : Ty) : ok = true → Step rules ok s .dyn
  | dynRefl : Step rules ok .dyn .dyn
  | dynToTrait (tr : String) : Step rules ok .dyn (.dynTrait tr)
  | traitRefl (tr : String) : Step rules ok (.dynTrait tr) (.dynTrait tr)
  | implementor (n : String) (args : List Ty) (tr : String) : ok = true →
      rules.implementsTrait n tr = true → Step rules ok (.named n args) (.dynTrait tr)
  | unions {a b : List Ty} : (∀ x ∈ a, ∃ y ∈ b, subtypeAt rules x y ok = true) →
      (ok = false → ∀ y ∈ b, ∃ x ∈ a, subtypeAt rules x y ok = true) →
      Step rules ok (.union a) (.union b)
  | unionLeft {a : List Ty} {t : Ty} : (∀ inner, t ≠ .union inner) → (∀ tr, t ≠ .dynTrait tr) →
      (∀ x ∈ a, subtypeAt rules x t ok = true) → Step rules ok (.union a) t
  | unionRight {s y : Ty} {b : List Ty} : s.Proper → ok = true → y ∈ b →
      subtypeAt rules s y ok = true → Step rules ok s (.union b)
  | list {a b : Ty} : subtypeAt rules a b ok = true → Step rules ok (.list a) (.list b)
  | set {a b : Ty} : subtypeAt rules a b ok = true → Step rules ok (.set a) (.set b)
  | option {a b : Ty} : subtypeAt rules a b ok = true → Step rules ok (.option a) (.option b)
  | map {k k' v v' : Ty} : subtypeAt rules k k' ok = true → subtypeAt rules v v' ok = true →
      Step rules ok (.map k v) (.map k' v')
  | result {t t' e e' : Ty} : subtypeAt rules t t' ok = true → subtypeAt rules e e' ok = true →
      Step rules ok (.result t e) (.result t' e')
  | tuple {a b : List Ty} : a.length = b.length →
      (∀ (i : Nat) x y, a[i]? = some x → b[i]? = some y → subtypeAt rules x y ok = true) →
      Step rules ok (.tuple a) (.tuple b)
  | fn {ps qs : List Ty} {r r' : Ty} : ps.length = qs.length →
      (∀ (i : Nat) x y, ps[i]? = some x → qs[i]? = some y → subtypeAt rules y x ok = true) →
      subtypeAt rules r r' ok = true → Step rules ok (.fn ps r) (.fn qs r')
  | named {n : String} {a b : List Ty} : a.length = b.length →
      (∀ (i : Nat) x y, a[i]? = some x → b[i]? = some y →
        subtypeAt rules x y (ok && rules.covariantArg n i) = true) →
      Step rules ok (.named n a) (.named n b)
  | ofKind (n : String) (args : List Ty) (k : TypeKind) : ok = true →
      rules.isOfKind n k = true → Step rules ok (.named n args) (.kind k)
  | atom {t : Ty} : t.Atomic → Step rules ok t t

theorem attach_zip_map (a b : List Ty) :
    (a.attach.zip b.attach).map (fun p => (p.1.1, p.2.1)) = a.zip b := by
  conv_rhs => rw [← List.attach_map_subtype_val a, ← List.attach_map_subtype_val b, List.zip_map]
  rfl

theorem all_attach_zip (a b : List Ty) (f : Ty → Ty → Bool) :
    (a.attach.zip b.attach).all (fun p => f p.1.1 p.2.1) = true ↔
      ∀ (i : Nat) x y, a[i]? = some x → b[i]? = some y → f x y = true := by
  have hzip : (a.attach.zip b.attach).all (fun p => f p.1.1 p.2.1) =
      (a.zip b).all fun p => f p.1 p.2 := by
    rw [← attach_zip_map, List.all_map]
    rfl
  rw [hzip, List.all_eq_true]
  constructor
  · intro h i x y hx hy
    exact h (x, y) (List.mem_of_getElem? (List.getElem?_zip_eq_some.2 ⟨hx, hy⟩))
  · rintro h ⟨x, y⟩ hmem
    obtain ⟨i, hi⟩ := List.mem_iff_getElem?.1 hmem
    obtain ⟨hx, hy⟩ := List.getElem?_zip_eq_some.1 hi
    exact h i x y hx hy

theorem all_attach_zipIdx (a b : List Ty) (f : Nat → Ty → Ty → Bool) :
    (a.attach.zip b.attach).zipIdx.all (fun p => f p.2 p.1.1.1 p.1.2.1) = true ↔
      ∀ (i : Nat) x y, a[i]? = some x → b[i]? = some y → f i x y = true := by
  have hzip : (a.attach.zip b.attach).zipIdx.all (fun p => f p.2 p.1.1.1 p.1.2.1) =
      (a.zip b).zipIdx.all fun p => f p.2 p.1.1 p.1.2 := by
    rw [← attach_zip_map, List.zipIdx_map, List.all_map]
    rfl
  rw [hzip, List.all_eq_true]
  constructor
  · intro h i x y hx hy
    refine h ((x, y), i) (List.mk_mem_zipIdx_iff_getElem?.2 (List.getElem?_zip_eq_some.2 ⟨hx, hy⟩))
  · rintro h ⟨⟨x, y⟩, i⟩ hmem
    obtain ⟨hx, hy⟩ := List.getElem?_zip_eq_some.1 (List.mk_mem_zipIdx_iff_getElem?.1 hmem)
    exact h i x y hx hy

section Step

variable {rules : NominalRules} {ok : Bool} {arity : String → Nat}

theorem Ty.Full.isGradual {t : Ty} (h : t.Full arity) : t.isGradual = false := by
  cases h <;> rfl

/-- A positive answer of the walk rests on one of the steps, when two nominal types of one name have
as many arguments and no escape through `dyn`. -/
theorem Step.of_walk {s t : Ty} (hs : s.isGradual = false) (ht : t.isGradual = false)
    (hnamed : ∀ n a b, s = .named n a → t = .named n b →
      a.length = b.length ∧ ∀ x ∈ a, x ≠ .dyn)
    (h : subtypeAt rules s t ok = true) : Step rules ok s t := by
  revert h
  fun_cases subtypeAt rules s t ok
  case case1 hg => simp [hs, ht] at hg
  case case2 hd =>
    intro _
    simp only [Bool.and_eq_true, Bool.or_eq_true, beq_iff_eq] at hd
    obtain ⟨rfl, hok | rfl⟩ := hd
    · exact .top s hok
    · exact .dynRefl
  case case3 hn _ _ =>
    intro _
    rw [beq_iff_eq] at hn
    exact hn ▸ .bottom t
  case case4 =>
    intro h
    rw [beq_iff_eq] at h
    exact h ▸ .traitRefl _
  case case5 hok _ _ _ => exact fun h => .implementor _ _ _ hok h
  case case6 => exact fun h => by simp [Ty.defersToRuntime] at h
  case case7 hnt hnn _ _ _ =>
    intro h
    cases s <;> simp_all [Ty.defersToRuntime, Ty.isGradual, Step.dynToTrait]
  case case8 => simp
  case case9 =>
    intro h
    simp only [Bool.and_eq_true, Bool.or_eq_true, List.all_eq_true, List.any_eq_true] at h
    obtain ⟨hleft, hright⟩ := h
    refine .unions ?_ ?_
    · intro x hx
      obtain ⟨⟨y, hy⟩, -, hxy⟩ := hleft ⟨x, hx⟩ (List.mem_attach _ _)
      exact ⟨y, hy, hxy⟩
    · intro hok y hy
      rcases hright with hr | hr
      · rw [hok] at hr
        simp at hr
      · obtain ⟨⟨x, hx⟩, -, hxy⟩ := hr ⟨y, hy⟩ (List.mem_attach _ _)
        exact ⟨x, hx, hxy⟩
  case case10 hnt hnu _ _ =>
    intro h
    simp only [List.all_eq_true] at h
    exact .unionLeft hnu hnt fun x hx => h ⟨x, hx⟩ (List.mem_attach _ _)
  case case11 hnd hnu hn _ _ =>
    intro h
    simp only [Bool.and_eq_true, List.any_eq_true] at h
    obtain ⟨hok, ⟨m, hm⟩, -, hsm⟩ := h
    refine .unionRight ?_ hok hm hsm
    cases s <;> simp_all [Ty.Proper]
  case case12 => exact .list
  case case13 => exact .set
  case case14 =>
    intro h
    simp only [Bool.and_eq_true, beq_iff_eq] at h
    exact .tuple h.1 ((all_attach_zip _ _ fun x y => subtypeAt rules x y ok).1 h.2)
  case case15 =>
    intro h
    rw [Bool.and_eq_true] at h
    exact .map h.1 h.2
  case case16 => exact .option
  case case17 =>
    intro h
    rw [Bool.and_eq_true] at h
    exact .result h.1 h.2
  case case18 =>
    intro h
    simp only [Bool.and_eq_true, beq_iff_eq] at h
    exact .fn h.1.1 ((all_attach_zip _ _ fun x y => subtypeAt rules y x ok).1 h.1.2) h.2
  case case19 an aa bn ba _ _ _ =>
    intro h
    rw [Bool.and_eq_true, beq_iff_eq] at h
    obtain ⟨rfl, h⟩ := h
    obtain ⟨hlen, hdyn⟩ := hnamed an aa ba rfl rfl
    refine .named hlen ?_
    intro i x y hx hy
    have hne : x ≠ .dyn := hdyn x (List.mem_of_getElem? hx)
    simp only [Bool.or_eq_true, Bool.and_eq_true, List.isEmpty_iff] at h
    rcases h with (rfl | rfl) | ⟨-, h⟩
    · simp at hx
    · simp at hy
    · have hall := (all_attach_zipIdx aa ba fun i x y =>
        x == .dyn || subtypeAt rules x y (ok && rules.covariantArg an i)).1 h i x y hx hy
      simpa [hne] using hall
  case case20 =>
    intro h
    rw [Bool.and_eq_true] at h
    exact .ofKind _ _ _ h.1 h.2
  case case21 =>
    intro h
    rw [beq_iff_eq] at h
    exact h ▸ .atom trivial
  case case22 => simp
  case case23 => simp
  case case24 =>
    intro h
    rw [beq_iff_eq] at h
    exact h ▸ .atom trivial
  case case25 =>
    intro h
    rw [beq_iff_eq] at h
    subst h
    -- every shape with a rule of its own has been taken by an arm above
    cases s <;> first | exact .atom trivial | grind [Ty.isGradual]

theorem Step.of_subtypeAt {s t : Ty} (hs : s.Full arity) (ht : t.Full arity)
    (h : subtypeAt rules s t ok = true) : Step rules ok s t := by
  refine Step.of_walk hs.isGradual ht.isGradual ?_ h
  rintro n a b rfl rfl
  obtain ⟨hlen, -, hdyn⟩ := hs.of_named
  exact ⟨hlen.trans ht.of_named.1.symm, hdyn⟩

theorem subtypeAt_named_iff {n m : String} {a b : List Ty} (hlen : n = m → a.length = b.length) :
    subtypeAt rules (.named n a) (.named m b) ok = true ↔
      n = m ∧ ∀ (i : Nat) x y, a[i]? = some x → b[i]? = some y →
        x = .dyn ∨ subtypeAt rules x y (ok && rules.covariantArg n i) = true := by
  rw [Types.subtypeAt]
  simp only [Ty.isGradual, Bool.or_self, Bool.false_eq_true, if_false]
  rw [if_neg (by simp), if_neg (by simp)]
  rw [Bool.and_eq_true, beq_iff_eq]
  apply and_congr_right
  intro hname
  have hall := all_attach_zipIdx a b fun i x y =>
    x == .dyn || subtypeAt rules x y (ok && rules.covariantArg n i)
  have hlen := hlen hname
  simp only [Bool.or_eq_true, Bool.and_eq_true, List.isEmpty_iff, beq_iff_eq] at hall ⊢
  constructor
  · rintro ((rfl | rfl) | ⟨-, h⟩)
    · simp
    · simp
    · exact hall.1 h
  · intro h
    exact .inr ⟨hlen, hall.2 h⟩

theorem subtypeAt_never (t : Ty) : subtypeAt rules .never t ok = true := by
  rw [subtypeAt.eq_def]
  split
  · rfl
  · split
    · rfl
    · rfl

theorem subtypeAt_dyn (s : Ty) (h : ok = true ∨ s = .dyn) : subtypeAt rules s .dyn ok = true := by
  rw [subtypeAt.eq_def]
  split
  · rfl
  · rw [if_pos]
    rcases h with rfl | rfl <;> simp

theorem of_arms {c₁ c₂ c₃ : Prop} [Decidable c₁] [Decidable c₂] [Decidable c₃] {b : Bool}
    (h : b = true) : (if c₁ then true else if c₂ then true else if c₃ then true else b) = true := by
  split_ifs <;> first | rfl | exact h

/-- Each step is one the walk accepts. -/
theorem Step.subtypeAt {s t : Ty} (h : Step rules ok s t) : subtypeAt rules s t ok = true := by
  cases h with
  | bottom => exact subtypeAt_never t
  | top s hok => exact subtypeAt_dyn s (.inl hok)
  | dynRefl => exact subtypeAt_dyn _ (.inr rfl)
  | dynToTrait tr => simp [Types.subtypeAt, Ty.defersToRuntime]
  | traitRefl tr => simp [Types.subtypeAt]
  | implementor n args tr hok h => simp [Types.subtypeAt, hok, h]
  | unions hleft hright =>
    rw [Types.subtypeAt]
    refine of_arms ?_
    simp only [Bool.and_eq_true, Bool.or_eq_true, List.all_eq_true, List.any_eq_true]
    refine ⟨?_, ?_⟩
    · rintro ⟨x, hx⟩ -
      obtain ⟨y, hy, hxy⟩ := hleft x hx
      exact ⟨⟨y, hy⟩, List.mem_attach _ _, hxy⟩
    · by_cases hok : ok = true
      · exact .inl hok
      · right
        rintro ⟨y, hy⟩ -
        obtain ⟨x, hx, hxy⟩ := hright (by simpa using hok) y hy
        exact ⟨⟨x, hx⟩, List.mem_attach _ _, hxy⟩
  | unionLeft hnu hnt h =>
    rw [Types.subtypeAt]
    · refine of_arms ?_
      rw [List.all_eq_true]
      rintro ⟨x, hx⟩ -
      exact h x hx
    · exact hnt
    · exact hnu
  | unionRight hp hok hy h =>
    rw [Types.subtypeAt]
    · refine of_arms ?_
      rw [Bool.and_eq_true, List.any_eq_true]
      exact ⟨hok, ⟨_, hy⟩, List.mem_attach _ _, h⟩
    · rintro rfl
      exact hp
    · rintro a rfl
      exact hp
  | list h => simp [Types.subtypeAt, h]
  | set h => simp [Types.subtypeAt, h]
  | option h => simp [Types.subtypeAt, h]
  | map hk hv => simp [Types.subtypeAt, hk, hv]
  | result ht he => simp [Types.subtypeAt, ht, he]
  | tuple hlen h =>
    rw [Types.subtypeAt]
    refine of_arms ?_
    rw [Bool.and_eq_true, beq_iff_eq]
    exact ⟨hlen, (all_attach_zip _ _ fun x y => Types.subtypeAt rules x y ok).2 h⟩
  | fn hlen h hr =>
    rw [Types.subtypeAt]
    refine of_arms ?_
    rw [Bool.and_eq_true, Bool.and_eq_true, beq_iff_eq]
    exact ⟨⟨hlen, (all_attach_zip _ _ fun x y => Types.subtypeAt rules y x ok).2 h⟩, hr⟩
  | @named n a b hlen h =>
    rw [Types.subtypeAt]
    refine of_arms ?_
    rw [Bool.and_eq_true, Bool.or_eq_true, Bool.and_eq_true, beq_iff_eq, beq_iff_eq]
    refine ⟨rfl, .inr ⟨hlen, ?_⟩⟩
    refine (all_attach_zipIdx a b fun i x y =>
      x == .dyn || Types.subtypeAt rules x y (ok && rules.covariantArg n i)).2 ?_
    intro i x y hx hy
    rw [Bool.or_eq_true]
    exact .inr (h i x y hx hy)
  | ofKind n args k hok h => simp [Types.subtypeAt, hok, h]
  | atom h =>
    cases s <;> first | exact absurd h id | simp [Types.subtypeAt]

end Step

end Noeta.Types
