import Mathlib.Data.Set.Finite.Range
import Noeta.Check.ForwardingSites
import Noeta.Check.TypeUniverse

/-!
# When the forwarding loop stops

The slots a program needs are finitely many: substitution only ever builds types over the symbols
of the program, and what is too deep is cut. So all but finitely many rounds offer nothing that an
earlier round did not offer, and the loop stops if and only if all but finitely many of these leave
the lists alone. A list is compared as a list, and a call that permutes the caller's own parameters
permutes it in every round.
-/

namespace Noeta.Check

open Noeta.Types (Ty TypeRef)

variable {tables : Tables} {cs : List Candidate}

/-! ### Finitely many needed slots -/

/-- The types a mark holds are over the alphabet. -/
def Mark.Within (a : Alphabet) : Mark → Prop
  | .template t _ => Over a t
  | .slotsOf _ subst _ => ∀ e ∈ subst, Over a e.2

theorem Mark.Within.mono {a b : Alphabet} {mark : Mark} (hle : a.Le b) (h : mark.Within a) :
    mark.Within b := by
  cases mark with
  | template t _ => exact Over.mono hle h
  | slotsOf _ subst _ => exact fun e he => (h e he).mono hle

theorem exists_within (mark : Mark) : ∃ a, mark.Within a := by
  cases mark with
  | template t _ => exact exists_over t
  | slotsOf _ subst _ =>
    exact exists_alphabet (P := fun a (e : Nat × Ty) => Over a e.2)
      (fun _ _ _ hle h => Over.mono hle h) subst fun e _ => exists_over e.2

theorem Needed.over {a : Alphabet} (hmarks : ∀ c ∈ cs, ∀ mark ∈ c.marks tables, mark.Within a)
    {key : String} {t : Ty} {recipe : Bool} (h : Needed tables cs key t recipe) :
    Over a t ∧ typeDepth t ≤ maxTemplateDepth := by
  induction h with
  | template hc hmark _ hdepth => exact ⟨hmarks _ hc _ hmark, hdepth⟩
  | slot hc hmark _ _ hdepth ih => exact ⟨over_applySubst (hmarks _ hc _ hmark) ih.1, hdepth⟩

theorem Needed.key_mem {key : String} {t : Ty} {recipe : Bool}
    (h : Needed tables cs key t recipe) : key ∈ cs.map Candidate.key := by
  cases h with
  | template hc => exact List.mem_map_of_mem hc
  | slot hc => exact List.mem_map_of_mem hc

theorem finite_needed (tables : Tables) (cs : List Candidate) :
    {x : String × Ty × Bool | Needed tables cs x.1 x.2.1 x.2.2}.Finite := by
  obtain ⟨a, ha⟩ := exists_alphabet (P := Mark.Within) (fun _ _ _ hle => Mark.Within.mono hle)
    (cs.flatMap (Candidate.marks tables)) fun mark _ => exists_within mark
  have hmarks : ∀ c ∈ cs, ∀ mark ∈ c.marks tables, mark.Within a :=
    fun c hc mark hmark => ha mark (List.mem_flatMap.2 ⟨c, hc, hmark⟩)
  have hkeys := List.finite_toSet (cs.map Candidate.key)
  have htypes := finite_over a maxTemplateDepth
  refine (hkeys.prod (htypes.prod (Set.finite_univ (α := Bool)))).subset ?_
  rintro ⟨key, t, recipe⟩ h
  exact ⟨h.key_mem, h.over hmarks, trivial⟩

/-! ### The rounds -/

/-- The state after `n` rounds. -/
def roundsOf (tables : Tables) (cs : List Candidate) : Nat → Fixpoint
  | 0 => ⟨fun _ => [], [], false⟩
  | n + 1 => round tables cs (roundsOf tables cs n).map (roundsOf tables cs n).poisoned

theorem sound_rounds (n : Nat) :
    Sound tables cs (roundsOf tables cs n).map (roundsOf tables cs n).poisoned := by
  induction n with
  | zero => exact sound_init
  | succ n ih => exact sound_round ih

theorem visit_congr {s s' : Fixpoint} (c : Candidate) (hmap : s.map = s'.map)
    (hchanged : s.changed = s'.changed) : (visit tables s c).map = (visit tables s' c).map ∧
      (visit tables s c).changed = (visit tables s' c).changed := by
  unfold visit
  dsimp only
  rw [hmap]
  split
  · exact ⟨rfl, hchanged⟩
  · exact ⟨rfl, rfl⟩

theorem foldl_visit_congr (visited : List Candidate) : ∀ s s' : Fixpoint, s.map = s'.map →
    s.changed = s'.changed →
      (visited.foldl (visit tables) s).changed = (visited.foldl (visit tables) s').changed := by
  induction visited with
  | nil => exact fun _ _ _ hchanged => hchanged
  | cons c visited ih =>
    intro s s' hmap hchanged
    obtain ⟨hmap', hchanged'⟩ := visit_congr c hmap hchanged
    exact ih _ _ hmap' hchanged'

theorem quiet_rounds {n : Nat} (h : (roundsOf tables cs (n + 1)).changed = false) (k : Nat) :
    (roundsOf tables cs (n + k + 1)).changed = false := by
  induction k with
  | zero => exact h
  | succ k ih =>
    have hmap : (roundsOf tables cs (n + k + 1)).map = (roundsOf tables cs (n + k)).map :=
      (stable_round ih).1
    rw [← ih]
    exact foldl_visit_congr cs _ _ hmap rfl

theorem settle_isSome (fuel : Nat) : ∀ n : Nat,
    (settle tables cs fuel (roundsOf tables cs n).map (roundsOf tables cs n).poisoned).isSome = true
      ↔ ∃ k < fuel, (roundsOf tables cs (n + k + 1)).changed = false := by
  induction fuel with
  | zero => simp [settle]
  | succ fuel ih =>
    intro n
    have hstep : settle tables cs (fuel + 1) (roundsOf tables cs n).map (roundsOf tables cs n).poisoned
        = if (roundsOf tables cs (n + 1)).changed then settle tables cs fuel
            (roundsOf tables cs (n + 1)).map (roundsOf tables cs (n + 1)).poisoned
          else some ((roundsOf tables cs (n + 1)).map, (roundsOf tables cs (n + 1)).poisoned) := rfl
    rw [hstep]
    cases hchanged : (roundsOf tables cs (n + 1)).changed with
    | false =>
      rw [if_neg Bool.false_ne_true]
      exact ⟨fun _ => ⟨0, Nat.succ_pos _, hchanged⟩, fun _ => rfl⟩
    | true =>
      rw [if_pos rfl, ih]
      constructor
      · rintro ⟨k, hk, hquiet⟩
        refine ⟨k + 1, Nat.succ_lt_succ hk, ?_⟩
        rw [← hquiet]
        congr 2
        omega
      · rintro ⟨k, hk, hquiet⟩
        cases k with
        | zero =>
          rw [Nat.add_zero, hchanged] at hquiet
          cases hquiet
        | succ k =>
          refine ⟨k, Nat.lt_of_succ_lt_succ hk, ?_⟩
          rw [← hquiet]
          congr 2
          omega

/-- An idle round changes a list and offers nothing that no earlier round offered. -/
def Idle (tables : Tables) (cs : List Candidate) (n : Nat) : Prop :=
  (roundsOf tables cs (n + 1)).changed = true ∧ ∀ key t recipe,
    Table (roundsOf tables cs (n + 1)).map key t recipe →
      ∃ k ≤ n, Table (roundsOf tables cs k).map key t recipe

theorem first_offer {n : Nat} (hchanged : (roundsOf tables cs (n + 1)).changed = true)
    (hidle : ¬ Idle tables cs n) : ∃ x : String × Ty × Bool,
      Table (roundsOf tables cs (n + 1)).map x.1 x.2.1 x.2.2 ∧
        ∀ k ≤ n, ¬ Table (roundsOf tables cs k).map x.1 x.2.1 x.2.2 := by
  by_contra hnone
  refine hidle ⟨hchanged, fun key t recipe htable => ?_⟩
  by_contra hnew
  exact hnone ⟨(key, t, recipe), htable, fun k hk htable' => hnew ⟨k, hk, htable'⟩⟩

theorem exists_quiet {n : Nat} (hidle : ∀ k ≥ n, ¬ Idle tables cs k) :
    ∃ k, (roundsOf tables cs (k + 1)).changed = false := by
  by_contra hnever
  have hchanged : ∀ k, (roundsOf tables cs (k + 1)).changed = true := by
    intro k
    by_contra hquiet
    exact hnever ⟨k, Bool.not_eq_true _ ▸ hquiet⟩
  have hfirst : ∀ k, ∃ x : String × Ty × Bool,
      Table (roundsOf tables cs (n + k + 1)).map x.1 x.2.1 x.2.2 ∧
        ∀ j ≤ n + k, ¬ Table (roundsOf tables cs j).map x.1 x.2.1 x.2.2 :=
    fun k => first_offer (hchanged _) (hidle _ (Nat.le_add_right n k))
  choose x hoffered hnew using hfirst
  have hlt : ∀ j k, j < k → x j ≠ x k := by
    intro j k hjk heq
    refine hnew k (n + j + 1) (by omega) ?_
    rw [← heq]
    exact hoffered j
  have hinj : Function.Injective x := by
    intro j k heq
    rcases Nat.lt_trichotomy j k with h | h | h
    · exact absurd heq (hlt j k h)
    · exact h
    · exact absurd heq.symm (hlt k j h)
  refine Set.infinite_of_injective_forall_mem hinj (fun k => ?_) (finite_needed tables cs)
  exact (sound_rounds _).offers _ _ _ (hoffered k)

/-- `compute_forwarding` returns. -/
def Stops (program : Program) (xt fresh : List (String × String)) : Prop :=
  ∃ fuel, (computeForwarding program xt fresh fuel).isSome = true

theorem stops_iff_quiet (program : Program) (xt fresh : List (String × String)) :
    Stops program xt fresh ↔
      ∃ k, (roundsOf (tablesOf program xt fresh) (candidates program) (0 + k + 1)).changed = false := by
  have hsettle : ∀ fuel, (computeForwarding program xt fresh fuel).isSome = true ↔ ∃ k < fuel,
      (roundsOf (tablesOf program xt fresh) (candidates program) (0 + k + 1)).changed = false := by
    intro fuel
    rw [← settle_isSome fuel 0, computeForwarding, Option.isSome_map]
    rfl
  constructor
  · rintro ⟨fuel, hfuel⟩
    obtain ⟨k, -, hquiet⟩ := (hsettle fuel).1 hfuel
    exact ⟨k, hquiet⟩
  · rintro ⟨k, hquiet⟩
    exact ⟨k + 1, (hsettle _).2 ⟨k, Nat.lt_succ_self k, hquiet⟩⟩

/-! ### The order of the declarations -/

/-- The functions and the types have names of their own. -/
structure DistinctNames (program : Program) : Prop where
  fns : ((genericFns program).map FnDecl.name).Nodup
  types : ((typeDecls program).map TypeDecl.name).Nodup

theorem length_filter_name {α : Type} (name : α → String) (keep : α → Bool) (n : String)
    (hkeep : ∀ x, keep x = true → name x = n) : ∀ xs : List α, (xs.map name).Nodup →
      (xs.filter keep).length ≤ 1 := by
  intro xs
  induction xs with
  | nil => exact fun _ => Nat.zero_le _
  | cons x xs ih =>
    intro hnodup
    rw [List.map_cons, List.nodup_cons] at hnodup
    rw [List.filter_cons]
    split
    · rename_i hx
      have hrest : xs.filter keep = [] := by
        rw [List.filter_eq_nil_iff]
        intro y hy hky
        refine hnodup.1 ?_
        rw [hkeep x hx, ← hkeep y hky]
        exact List.mem_map_of_mem hy
      rw [hrest]
      exact Nat.le_refl 1
    · exact ih hnodup.2

theorem filter_perm {α : Type} (name : α → String) (keep : α → Bool) (n : String)
    (hkeep : ∀ x, keep x = true → name x = n) {xs ys : List α} (h : xs.Perm ys)
    (hnodup : (xs.map name).Nodup) : xs.filter keep = ys.filter keep := by
  have hperm := h.filter keep
  have hlen := length_filter_name name keep n hkeep xs hnodup
  match hxs : xs.filter keep with
  | [] =>
    rw [hxs] at hperm
    exact (List.nil_perm.1 hperm).symm
  | [x] =>
    rw [hxs] at hperm
    exact List.singleton_perm.1 hperm
  | x :: y :: rest =>
    rw [hxs] at hlen
    simp at hlen

section Order

variable {program order : Program}

theorem genericFns_perm (h : order.Perm program) : (genericFns order).Perm (genericFns program) :=
  h.filterMap _

theorem typeDecls_perm (h : order.Perm program) : (typeDecls order).Perm (typeDecls program) :=
  h.filterMap _

theorem mem_candidates_perm (h : order.Perm program) (c : Candidate) :
    c ∈ candidates order ↔ c ∈ candidates program := by
  have hfns := ((genericFns_perm h).map fun f =>
    (⟨f.name, f, paramScope f.typeParams⟩ : Candidate))
  refine (hfns.append ?_).mem_iff
  exact (typeDecls_perm h).flatMap_right _

theorem lastNamed_perm (h : order.Perm program) (hnames : DistinctNames program) (name : String) :
    lastNamed (genericFns order) name = lastNamed (genericFns program) name := by
  unfold lastNamed
  rw [filter_perm FnDecl.name _ name (fun f hf => beq_iff_eq.1 hf) (genericFns_perm h).symm
    hnames.fns]

theorem tablesOf_perm (h : order.Perm program) (hnames : DistinctNames program)
    (xt fresh : List (String × String)) : tablesOf order xt fresh = tablesOf program xt fresh := by
  have hfields : objectFieldTypes order = objectFieldTypes program := by
    funext name
    unfold objectFieldTypes
    rw [filter_perm TypeDecl.name _ name ?_ (typeDecls_perm h).symm hnames.types]
    intro d hd
    rw [Bool.and_eq_true] at hd
    exact beq_iff_eq.1 hd.2
  have hparams : declaredTypeParams order = declaredTypeParams program := by
    funext name
    unfold declaredTypeParams
    rw [filter_perm TypeDecl.name _ name ?_ (typeDecls_perm h).symm hnames.types]
    intro d hd
    rw [Bool.and_eq_true] at hd
    exact beq_iff_eq.1 hd.1
  unfold tablesOf
  rw [hfields, hparams]
  simp only [lastNamed_perm h hnames]

end Order

theorem Needed.of_mem {cs' : List Candidate} (hmem : ∀ c ∈ cs, c ∈ cs') {key : String} {t : Ty}
    {recipe : Bool} (h : Needed tables cs key t recipe) : Needed tables cs' key t recipe := by
  induction h with
  | template hc hmark hrecipe hdepth => exact .template (hmem _ hc) hmark hrecipe hdepth
  | slot hc hmark _ hmentions hdepth ih => exact .slot (hmem _ hc) hmark ih hmentions hdepth

theorem mem_of_offers {slots slots' : List ForwardSlot}
    (hnodup : (slots.map ForwardSlot.template).Nodup)
    (h : ∀ t recipe, Offers slots t recipe ↔ Offers slots' t recipe) {slot : ForwardSlot}
    (hslot : slot ∈ slots) : slot ∈ slots' := by
  obtain ⟨t, recipe⟩ := slot
  obtain ⟨⟨t', recipe'⟩, hslot', rfl, hrecipe⟩ := (h t recipe).1 ⟨_, hslot, rfl, fun hr => hr⟩
  cases hr : recipe' with
  | false =>
    cases recipe with
    | false => exact hr ▸ hslot'
    | true =>
      have := hrecipe rfl
      rw [hr] at this
      cases this
  | true =>
    obtain ⟨other, hother, heq, hneeds⟩ := (h t' true).2 ⟨_, hslot', rfl, fun _ => hr⟩
    have hsame : other = ⟨t', recipe⟩ :=
      List.inj_on_of_nodup_map hnodup hother hslot heq
    rw [hsame] at hneeds
    have hrec : recipe = true := hneeds rfl
    rw [hrec, ← hr]
    exact hslot'

/-- The slots of a function do not depend on the order of the declarations. -/
def OrderIrrelevant (program : Program) (xt fresh : List (String × String)) : Prop :=
  ∀ order : Program, order.Perm program → ∀ fuel fuel' r r',
    computeForwarding program xt fresh fuel = some r →
    computeForwarding order xt fresh fuel' = some r' →
      ∀ key slot, slot ∈ r.map key ↔ slot ∈ r'.map key

theorem orderIrrelevant (program : Program) (xt fresh : List (String × String))
    (hnames : DistinctNames program) : OrderIrrelevant program xt fresh := by
  intro order hperm fuel fuel' r r' hr hr' key slot
  obtain ⟨hsound, hstable⟩ := settled_of_computeForwarding hr
  obtain ⟨hsound', hstable'⟩ := settled_of_computeForwarding hr'
  rw [tablesOf_perm hperm hnames] at hsound' hstable'
  have hoffers : ∀ t recipe, Offers (r.map key) t recipe ↔ Offers (r'.map key) t recipe := by
    intro t recipe
    refine (table_iff_needed hsound hstable key t recipe).trans ?_
    refine Iff.trans ?_ (table_iff_needed hsound' hstable' key t recipe).symm
    constructor
    · exact Needed.of_mem fun c hc => (mem_candidates_perm hperm c).2 hc
    · exact Needed.of_mem fun c hc => (mem_candidates_perm hperm c).1 hc
  constructor
  · exact mem_of_offers (hsound.nodup key) hoffers
  · exact mem_of_offers (hsound'.nodup key) fun t recipe => (hoffers t recipe).symm

/-- `fn swap<A, B>(s: string) { swap::<B, A>(s); json.try_parse::<A>(s); }` -/
def swapDecl : FnDecl :=
  .mk "swap" [⟨"A", 0⟩, ⟨"B", 1⟩] [some (.named "string" [])] [] none false false
    [.expr (.typedCall "swap" [.named "B" [], .named "A" []] [.ident "s"]),
      .expr (.typedModuleCall "json" "try_parse" (.named "A" []) [.ident "s"])]

def swapProgram : Program := [.fn swapDecl]

def swapCandidate : Candidate := ⟨"swap", swapDecl, ⟨[("A", 0), ("B", 1)], none⟩⟩

def slotA : ForwardSlot := ⟨.param 0, true⟩

def slotB : ForwardSlot := ⟨.param 1, true⟩

/-- The lists of `swap` after a round. -/
def nextSwap (slots : List ForwardSlot) : List ForwardSlot :=
  (collectMarks (forwardSlots [(1, .param 0), (0, .param 1)] [0, 1] slots ++ [(.param 0, true)])).1

theorem visit_new (tables : Tables) (s : Fixpoint) (c : Candidate)
    (hne : (c.collect tables s.map).1 ≠ []) (hnew : s.map c.key ≠ (c.collect tables s.map).1) :
    (visit tables s c).map c.key = (c.collect tables s.map).1 ∧
      (visit tables s c).changed = true := by
  unfold visit
  dsimp only
  rw [if_neg fun h => h.elim hne hnew]
  exact ⟨if_pos rfl, rfl⟩

theorem settle_swap (fuel : Nat) : ∀ (map : ForwardingMap) (poisoned : List String),
    map "swap" ∈ [[], [slotA], [slotB, slotA], [slotA, slotB]] →
      settle (tablesOf swapProgram [] []) (candidates swapProgram) fuel map poisoned = none := by
  induction fuel with
  | zero => exact fun _ _ _ => rfl
  | succ fuel ih =>
    intro map poisoned hlist
    -- no list is its own successor, and `[A, B]` and `[B, A]` follow each other
    have hnext : nextSwap (map "swap") ≠ [] ∧ map "swap" ≠ nextSwap (map "swap") ∧
        nextSwap (map "swap") ∈ [[], [slotA], [slotB, slotA], [slotA, slotB]] := by
      generalize map "swap" = slots at hlist
      revert slots
      decide
    obtain ⟨hne, hnew, hmem⟩ := hnext
    obtain ⟨hmap, hchanged⟩ := visit_new (tablesOf swapProgram [] []) ⟨map, poisoned, false⟩
      swapCandidate hne hnew
    have hround : round (tablesOf swapProgram [] []) (candidates swapProgram) map poisoned =
        visit (tablesOf swapProgram [] []) ⟨map, poisoned, false⟩ swapCandidate := rfl
    rw [settle, hround, if_pos hchanged]
    have hkey : (visit (tablesOf swapProgram [] []) ⟨map, poisoned, false⟩ swapCandidate).map "swap" =
        nextSwap (map "swap") := hmap
    refine ih _ _ ?_
    rw [hkey]
    exact hmem

end Noeta.Check
