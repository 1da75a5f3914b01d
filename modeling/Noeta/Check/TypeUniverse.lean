import Mathlib.Data.Set.Finite.Lattice
import Mathlib.Data.Set.Finite.List
import Noeta.Check.Forwarding

/-!
# Types over finitely many symbols

A type is its outermost symbol with the list of its parts. Over finitely many symbols, with a bound
on the number of parts and on the depth, there are finitely many types; substitution stays within
them, where a union may hold any number of parts as long as they are different.
-/

namespace Noeta.Check

open Noeta.Types (Ty)

/-! ### Symbols and parts -/

/-- The outermost symbol: the type without its parts. -/
def symbol : Ty → Ty
  | .list _ => .list .unknown
  | .set _ => .set .unknown
  | .option _ => .option .unknown
  | .map _ _ => .map .unknown .unknown
  | .result _ _ => .result .unknown .unknown
  | .named n _ => .named n []
  | .tuple _ => .tuple []
  | .union _ => .union []
  | .fn _ _ => .fn [] .unknown
  | other => other

def parts : Ty → List Ty
  | .list t => [t]
  | .set t => [t]
  | .option t => [t]
  | .map k v => [k, v]
  | .result t e => [t, e]
  | .named _ args => args
  | .tuple es => es
  | .union es => es
  | .fn ps r => r :: ps
  | _ => []

/-- The type with a symbol and parts. -/
def assemble : Ty → List Ty → Ty
  | .list _, [t] => .list t
  | .set _, [t] => .set t
  | .option _, [t] => .option t
  | .map _ _, [k, v] => .map k v
  | .result _ _, [t, e] => .result t e
  | .named n _, args => .named n args
  | .tuple _, es => .tuple es
  | .union _, es => .union es
  | .fn _ _, r :: ps => .fn ps r
  | other, _ => other

theorem assemble_parts (t : Ty) : assemble (symbol t) (parts t) = t := by
  cases t <;> rfl

theorem typeDepth_eq (t : Ty) : typeDepth t = maxDepth (parts t) + 1 := by
  cases t <;> simp [typeDepth, parts, maxDepth]
  omega

theorem typeDepth_le_maxDepth {ts : List Ty} {t : Ty} (h : t ∈ ts) : typeDepth t ≤ maxDepth ts := by
  induction ts with
  | nil => cases h
  | cons u us ih =>
    rw [maxDepth]
    rcases List.mem_cons.1 h with rfl | h
    · omega
    · have := ih h
      omega

theorem typeDepth_part {t p : Ty} (h : p ∈ parts t) : typeDepth p < typeDepth t := by
  have hle := typeDepth_le_maxDepth h
  rw [typeDepth_eq t]
  omega

/-! ### Types over an alphabet -/

/-- Finitely many symbols, and a bound on the number of parts. -/
structure Alphabet where
  symbols : List Ty
  width : Nat

/-- The symbols a union can collapse to. -/
def Alphabet.all (a : Alphabet) : List Ty := [.unknown, .dyn, .never, .union []] ++ a.symbols

structure Alphabet.Le (a b : Alphabet) : Prop where
  symbols : ∀ s ∈ a.symbols, s ∈ b.symbols
  width : a.width ≤ b.width

def Alphabet.join (a b : Alphabet) : Alphabet := ⟨a.symbols ++ b.symbols, max a.width b.width⟩

theorem Alphabet.le_join_left (a b : Alphabet) : a.Le (a.join b) :=
  ⟨fun _ h => List.mem_append_left _ h, Nat.le_max_left _ _⟩

theorem Alphabet.le_join_right (a b : Alphabet) : b.Le (a.join b) :=
  ⟨fun _ h => List.mem_append_right _ h, Nat.le_max_right _ _⟩

/-- Every symbol in the type is one of the alphabet, and it has no more parts than the alphabet
allows, or is a union of different ones. -/
inductive Over (a : Alphabet) : Ty → Prop where
  | node {t : Ty} : symbol t ∈ a.all →
      ((parts t).length ≤ a.width ∨ (symbol t = .union [] ∧ (parts t).Nodup)) →
      (∀ p ∈ parts t, Over a p) → Over a t

theorem Over.part {a : Alphabet} {t p : Ty} (h : Over a t) (hp : p ∈ parts t) : Over a p := by
  cases h with
  | node _ _ hparts => exact hparts p hp

theorem Over.mono {a b : Alphabet} (hle : a.Le b) {t : Ty} (h : Over a t) : Over b t := by
  induction h with
  | @node t hsymbol hwidth _ ih =>
    refine .node ?_ ?_ ih
    · rcases List.mem_append.1 hsymbol with hbase | hsymbol
      · exact List.mem_append_left _ hbase
      · exact List.mem_append_right _ (hle.symbols _ hsymbol)
    · exact hwidth.imp_left fun h => Nat.le_trans h hle.width

theorem exists_alphabet {α : Type} {P : Alphabet → α → Prop}
    (hmono : ∀ a b x, a.Le b → P a x → P b x) : ∀ xs : List α, (∀ x ∈ xs, ∃ a, P a x) →
    ∃ a, ∀ x ∈ xs, P a x := by
  intro xs
  induction xs with
  | nil => exact fun _ => ⟨⟨[], 0⟩, fun _ h => absurd h List.not_mem_nil⟩
  | cons x xs ih =>
    intro h
    obtain ⟨a, ha⟩ := h x List.mem_cons_self
    obtain ⟨b, hb⟩ := ih fun y hy => h y (List.mem_cons_of_mem _ hy)
    refine ⟨a.join b, fun y hy => ?_⟩
    rcases List.mem_cons.1 hy with rfl | hy
    · exact hmono _ _ _ (a.le_join_left b) ha
    · exact hmono _ _ _ (a.le_join_right b) (hb y hy)

theorem exists_over_below (d : Nat) : ∀ t, typeDepth t ≤ d → ∃ a, Over a t := by
  induction d with
  | zero =>
    intro t h
    rw [typeDepth_eq] at h
    omega
  | succ d ih =>
    intro t h
    obtain ⟨a, ha⟩ := exists_alphabet (P := Over) (fun _ _ _ hle => Over.mono hle) (parts t)
      fun p hp => ih p (by have := typeDepth_part hp; omega)
    refine ⟨a.join ⟨[symbol t], (parts t).length⟩, .node ?_ (.inl ?_) fun p hp => ?_⟩
    · exact List.mem_append_right _ (List.mem_append_right _ List.mem_cons_self)
    · exact Nat.le_max_right _ _
    · exact (ha p hp).mono (a.le_join_left _)

theorem exists_over (t : Ty) : ∃ a, Over a t := exists_over_below _ t (Nat.le_refl _)

/-! ### Finitely many types -/

theorem finite_lists {s : Set Ty} (hs : s.Finite) (k : Nat) :
    {l : List Ty | l.length ≤ k ∧ ∀ t ∈ l, t ∈ s}.Finite := by
  induction k with
  | zero =>
    refine (Set.finite_singleton []).subset ?_
    rintro l ⟨hlen, -⟩
    exact List.length_eq_zero_iff.1 (Nat.le_zero.1 hlen)
  | succ k ih =>
    refine ((Set.Finite.image2 List.cons hs ih).insert []).subset ?_
    rintro l ⟨hlen, hmem⟩
    cases l with
    | nil => exact Set.mem_insert _ _
    | cons t ts =>
      refine Set.mem_insert_of_mem _ ⟨t, hmem t List.mem_cons_self, ts, ⟨?_, ?_⟩, rfl⟩
      · exact Nat.le_of_succ_le_succ hlen
      · exact fun u hu => hmem u (List.mem_cons_of_mem _ hu)

theorem length_le_of_nodup {s : Set Ty} (hs : s.Finite) {l : List Ty} (hnodup : l.Nodup)
    (hmem : ∀ t ∈ l, t ∈ s) : l.length ≤ hs.toFinset.card := by
  rw [← List.toFinset_card_of_nodup hnodup]
  refine Finset.card_le_card fun t ht => ?_
  exact hs.mem_toFinset.2 (hmem t (List.mem_toFinset.1 ht))

theorem finite_over (a : Alphabet) (d : Nat) : {t | Over a t ∧ typeDepth t ≤ d}.Finite := by
  induction d with
  | zero =>
    refine Set.finite_empty.subset ?_
    rintro t ⟨-, hdepth⟩
    rw [typeDepth_eq] at hdepth
    omega
  | succ d ih =>
    have hlists := finite_lists ih (max a.width ih.toFinset.card)
    refine (Set.Finite.image2 assemble (List.finite_toSet a.all) hlists).subset ?_
    rintro t ⟨hover, hdepth⟩
    have hparts : ∀ p ∈ parts t, p ∈ {t | Over a t ∧ typeDepth t ≤ d} := by
      intro p hp
      have := typeDepth_part hp
      exact ⟨hover.part hp, by omega⟩
    refine ⟨symbol t, ?_, parts t, ⟨?_, hparts⟩, assemble_parts t⟩
    · cases hover with
      | node hsymbol _ _ => exact hsymbol
    · cases hover with
      | node _ hwidth _ =>
        rcases hwidth with hwidth | ⟨-, hnodup⟩
        · exact Nat.le_trans hwidth (Nat.le_max_left _ _)
        · exact Nat.le_trans (length_le_of_nodup ih hnodup hparts) (Nat.le_max_right _ _)

/-! ### Substitution -/

theorem unionOf_cases {P : Ty → Prop} (ms : List Ty) (hms : ∀ m ∈ ms, ∀ t ∈ m.parts, P t) :
    Ty.unionOf ms = .dyn ∨ Ty.unionOf ms = .never ∨ Ty.unionOf ms = .unknown ∨
      P (Ty.unionOf ms) ∨ ∃ flat, Ty.unionOf ms = .union flat ∧ flat.Nodup ∧ ∀ t ∈ flat, P t := by
  rcases Noeta.Types.unionOf_all ms hms with h | ⟨saw, flat, heq, hnodup, hall⟩
  · exact .inl h
  · rw [heq]
    rcases flat with _ | ⟨t, _ | ⟨u, rest⟩⟩
    · cases saw
      · exact .inr (.inr (.inl rfl))
      · exact .inr (.inl rfl)
    · exact .inr (.inr (.inr (.inl (hall t List.mem_cons_self))))
    · exact .inr (.inr (.inr (.inr ⟨_, rfl, hnodup, hall⟩)))

theorem over_atom {a : Alphabet} {t : Ty} (hparts : parts t = []) (h : symbol t ∈ a.all) :
    Over a t := by
  refine .node h (.inl ?_) fun p hp => ?_
  · rw [hparts]
    exact Nat.zero_le _
  · rw [hparts] at hp
    cases hp

theorem over_unionOf {a : Alphabet} (ms : List Ty) (h : ∀ m ∈ ms, Over a m) :
    Over a (Ty.unionOf ms) := by
  have hjoin : ∀ m ∈ ms, ∀ t ∈ m.parts, Over a t := by
    intro m hm t ht
    cases m with
    | never => cases ht
    | union inner => exact (h _ hm).part ht
    | _ =>
      obtain rfl := List.mem_singleton.1 ht
      exact h _ hm
  rcases unionOf_cases ms hjoin with heq | heq | heq | hover | ⟨flat, heq, hnodup, hall⟩
  · rw [heq]
    exact over_atom rfl (by simp [symbol, Alphabet.all])
  · rw [heq]
    exact over_atom rfl (by simp [symbol, Alphabet.all])
  · rw [heq]
    exact over_atom rfl (by simp [symbol, Alphabet.all])
  · exact hover
  · rw [heq]
    exact .node (by simp [symbol, Alphabet.all]) (.inr ⟨rfl, hnodup⟩) hall

theorem applySubsts_eq_map (subst : Subst) (ts : List Ty) :
    applySubsts subst ts = ts.map (applySubst subst) := by
  induction ts with
  | nil => rfl
  | cons t ts ih => rw [applySubsts, ih, List.map_cons]

theorem applySubst_shape (subst : Subst) (t : Ty) (hparam : ∀ id, t ≠ .param id)
    (hunion : ∀ es, t ≠ .union es) : symbol (applySubst subst t) = symbol t ∧
      parts (applySubst subst t) = (parts t).map (applySubst subst) := by
  cases t with
  | param id => exact absurd rfl (hparam id)
  | union es => exact absurd rfl (hunion es)
  | _ => simp [applySubst, symbol, parts, applySubsts_eq_map]

theorem over_applySubst {a : Alphabet} {subst : Subst} (hsubst : ∀ e ∈ subst, Over a e.2) {t : Ty}
    (h : Over a t) : Over a (applySubst subst t) := by
  induction h with
  | @node t hsymbol hwidth hparts ih =>
    by_cases hparam : ∃ id, t = .param id
    · obtain ⟨id, rfl⟩ := hparam
      rw [applySubst]
      cases hget : subst.get id with
      | none => exact over_atom rfl hsymbol
      | some u =>
        obtain ⟨e, he, rfl⟩ := Option.map_eq_some_iff.1 hget
        exact hsubst e (List.mem_of_find?_eq_some he)
    · by_cases hunion : ∃ es, t = .union es
      · obtain ⟨es, rfl⟩ := hunion
        rw [applySubst, applySubsts_eq_map]
        refine over_unionOf _ fun m hm => ?_
        obtain ⟨e, he, rfl⟩ := List.mem_map.1 hm
        exact ih e he
      · obtain ⟨hsym, hpar⟩ := applySubst_shape subst t (fun id h => hparam ⟨id, h⟩)
          fun es h => hunion ⟨es, h⟩
        refine .node (hsym ▸ hsymbol) (.inl ?_) fun p hp => ?_
        · rw [hpar, List.length_map]
          refine hwidth.resolve_right fun h => ?_
          cases t with
          | union es => exact hunion ⟨es, rfl⟩
          | _ => cases h.1
        · rw [hpar] at hp
          obtain ⟨q, hq, rfl⟩ := List.mem_map.1 hp
          exact ih q hq

end Noeta.Check
