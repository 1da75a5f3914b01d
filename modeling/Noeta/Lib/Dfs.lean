import Mathlib

/-!
# Depth-first walks that change the state they walk over

A `Walk` enters a node if the current state says it is pending, changes the state at the node (`enter`),
and then crosses each outgoing edge in order (`cross`), walking on from its end. Recursion is bounded by
a depth; a depth above the number of pending nodes is enough.

`R s E C` is the caller's accounting relation: `s` is the state after exactly the nodes of `E` were
entered and exactly the edge ends of `C` were crossed. `run_account` says that a walk keeps it, that
every entered node has all its edges crossed exactly once, and that the entered set is closed.
-/

namespace Dfs

open Relation

variable {σ V : Type} [DecidableEq V]

structure Walk (σ V : Type) where
  kids : V → List V
  pending : σ → V → Bool
  enter : σ → V → σ
  cross : σ → V → σ

namespace Walk

def run (w : Walk σ V) : Nat → σ → V → σ
  | 0, s, _ => s
  | n + 1, s, v =>
    if w.pending s v then (w.kids v).foldl (fun s c => w.run n (w.cross s c) c) (w.enter s v) else s

omit [DecidableEq V] in
/-- Two ways to go through the edges that agree, while `P` holds, on the edges to keep. -/
theorem foldl_filter_eq {P : σ → Prop} {f g : σ → V → σ} {p : V → Bool}
    (hskip : ∀ s c, P s → p c = false → f s c = s)
    (hkeep : ∀ s c, P s → p c = true → f s c = g s c ∧ P (f s c)) (l : List V) (s : σ) (hs : P s) :
    l.foldl f s = (l.filter p).foldl g s ∧ P (l.foldl f s) := by
  induction l generalizing s with
  | nil => exact ⟨rfl, hs⟩
  | cons c l ih =>
    rw [List.foldl_cons]
    cases hc : p c with
    | false =>
      rw [hskip s c hs hc, List.filter_cons_of_neg (by simp [hc])]
      exact ih s hs
    | true =>
      obtain ⟨heq, hP⟩ := hkeep s c hs hc
      rw [List.filter_cons_of_pos hc, List.foldl_cons, ← heq]
      exact ih _ hP

omit [DecidableEq V] in
theorem foldl_eq {P : σ → Prop} {f g : σ → V → σ} (hstep : ∀ s c, P s → f s c = g s c ∧ P (f s c)) (l : List V)
    (s : σ) (hs : P s) : l.foldl f s = l.foldl g s ∧ P (l.foldl f s) := by
  simpa using foldl_filter_eq (p := fun _ => true) (by simp) (fun s c hs _ => hstep s c hs) l s hs

/-- The edge ends crossed when every node of `E` has been entered. -/
def ends (w : Walk σ V) (E : Finset V) : Multiset V := ∑ x ∈ E, (w.kids x : Multiset V)

/-- `c` is an edge end of `v`. -/
def Edge (w : Walk σ V) (v c : V) : Prop := c ∈ w.kids v

/-- The accounting relation of a walk: `start` are the nodes pending before anything was entered. -/
structure Account (w : Walk σ V) (start : V → Prop) (R : σ → Finset V → Multiset V → Prop) : Prop where
  pending : ∀ {s E C v}, R s E C → (w.pending s v = true ↔ start v ∧ v ∉ E)
  enter : ∀ {s E C v}, R s E C → w.pending s v = true → R (w.enter s v) (insert v E) C
  cross : ∀ {s E C c}, R s E C → R (w.cross s c) E (c ::ₘ C)

/-- What a walk from `roots` that started with `E` entered and `C` crossed has achieved: `E'` is
entered, `C'` is crossed, everything new is reachable from a root and its edges lead into `E'`. -/
structure Reached (w : Walk σ V) (start : V → Prop) (roots : List V) (E : Finset V) (C : Multiset V)
    (E' : Finset V) (C' : Multiset V) : Prop where
  mono : E ⊆ E'
  entered : ∀ v ∈ roots, start v → v ∈ E'
  started : ∀ x ∈ E', x ∉ E → start x
  reach : ∀ x ∈ E', x ∉ E → ∃ v ∈ roots, ReflTransGen w.Edge v x
  closed : ∀ x ∈ E', x ∉ E → ∀ c ∈ w.kids x, start c → c ∈ E'
  crossed : C' + w.ends E = C + w.ends E'

omit [DecidableEq V] in
theorem Reached.nil (w : Walk σ V) (start : V → Prop) (E : Finset V) (C : Multiset V) :
    Reached w start [] E C E C :=
  ⟨subset_rfl, by simp, fun _ hx hn => absurd hx hn, fun _ hx hn => absurd hx hn,
    fun _ hx hn => absurd hx hn, rfl⟩

omit [DecidableEq V] in
theorem Reached.skip {w : Walk σ V} {start : V → Prop} {v : V} {E : Finset V} (C : Multiset V)
    (hv : start v → v ∈ E) : Reached w start [v] E C E C :=
  ⟨subset_rfl, by simpa using hv, fun _ hx hn => absurd hx hn, fun _ hx hn => absurd hx hn,
    fun _ hx hn => absurd hx hn, rfl⟩

theorem Reached.append {w : Walk σ V} {start : V → Prop} {l r : List V} {E E' E'' : Finset V}
    {C C' C'' : Multiset V} (h₁ : Reached w start l E C E' C') (h₂ : Reached w start r E' C' E'' C'') :
    Reached w start (l ++ r) E C E'' C'' := by
  refine ⟨h₁.mono.trans h₂.mono, fun v hv hs => ?_, fun x hx hn => ?_, fun x hx hn => ?_,
    fun x hx hn c hc hs => ?_, ?_⟩
  · rcases List.mem_append.mp hv with hv | hv
    · exact h₂.mono (h₁.entered v hv hs)
    · exact h₂.entered v hv hs
  · by_cases hx' : x ∈ E'
    · exact h₁.started x hx' hn
    · exact h₂.started x hx hx'
  · by_cases hx' : x ∈ E'
    · obtain ⟨v, hv, hr⟩ := h₁.reach x hx' hn
      exact ⟨v, List.mem_append_left _ hv, hr⟩
    · obtain ⟨v, hv, hr⟩ := h₂.reach x hx hx'
      exact ⟨v, List.mem_append_right _ hv, hr⟩
  · by_cases hx' : x ∈ E'
    · exact h₂.mono (h₁.closed x hx' hn c hc hs)
    · exact h₂.closed x hx hx' c hc hs
  · have h1 := h₁.crossed
    have h2 := h₂.crossed
    apply add_right_cancel (b := w.ends E')
    calc C'' + w.ends E + w.ends E' = C'' + w.ends E' + w.ends E := by abel
      _ = C' + w.ends E + w.ends E'' := by rw [h2]; abel
      _ = C + w.ends E'' + w.ends E' := by rw [h1]; abel

variable {w : Walk σ V} {start : V → Prop} {R : σ → Finset V → Multiset V → Prop}

theorem card_filter_insert_lt {U E : Finset V} {v : V} {n : Nat} (hU : v ∈ U) (hv : v ∉ E)
    (h : (U.filter (· ∉ E)).card < n + 1) : (U.filter (· ∉ insert v E)).card < n := by
  have hlt : (U.filter (· ∉ insert v E)).card < (U.filter (· ∉ E)).card := by
    apply Finset.card_lt_card
    refine ⟨fun x hx => ?_, fun hsub => ?_⟩
    · simp only [Finset.mem_filter, Finset.mem_insert, not_or] at hx ⊢
      exact ⟨hx.1, hx.2.2⟩
    · have := hsub (Finset.mem_filter.mpr ⟨hU, hv⟩)
      simp at this
  omega

theorem card_filter_mono {U E E' : Finset V} {n : Nat} (hE : E ⊆ E')
    (h : (U.filter (· ∉ E)).card < n) : (U.filter (· ∉ E')).card < n := by
  refine lt_of_le_of_lt (Finset.card_le_card fun x hx => ?_) h
  simp only [Finset.mem_filter] at hx ⊢
  exact ⟨hx.1, fun hxE => hx.2 (hE hxE)⟩

theorem foldl_account (hacc : Account w start R) {U : Finset V} {n : Nat}
    (ih : ∀ s E C v, R s E C → (U.filter (· ∉ E)).card < n →
      ∃ E' C', R (w.run n s v) E' C' ∧ Reached w start [v] E C E' C') :
    ∀ (l : List V) (s : σ) (E : Finset V) (C : Multiset V), R s E C → (U.filter (· ∉ E)).card < n →
      ∃ E' C', R (l.foldl (fun s c => w.run n (w.cross s c) c) s) E' C' ∧
        Reached w start l E (C + l) E' C' := by
  intro l
  induction l with
  | nil =>
    intro s E C hR hfuel
    exact ⟨E, C, hR, by simpa using Reached.nil w start E C⟩
  | cons c l ihl =>
    intro s E C hR hfuel
    obtain ⟨E₁, C₁, hR₁, h₁⟩ := ih _ E _ c (hacc.cross (c := c) hR) hfuel
    obtain ⟨E₂, C₂, hR₂, h₂⟩ := ihl _ E₁ C₁ hR₁ (card_filter_mono h₁.mono hfuel)
    refine ⟨E₂, C₂, hR₂, ?_⟩
    -- the edges of `l` are crossed after those below `c`: move them to the front of the account
    have h₁' : Reached w start [c] E (C + (c :: l : List V)) E₁ (C₁ + l) := by
      refine ⟨h₁.mono, h₁.entered, h₁.started, h₁.reach, h₁.closed, ?_⟩
      have hc := h₁.crossed
      calc C₁ + ↑l + w.ends E = (C₁ + w.ends E) + l := by abel
        _ = (c ::ₘ C + w.ends E₁) + l := by rw [hc]
        _ = C + ↑(c :: l) + w.ends E₁ := by
          rw [← Multiset.cons_coe, ← Multiset.singleton_add, ← Multiset.singleton_add]; abel
    exact h₁'.append h₂

/-- **The walk keeps its account.** With enough depth a walk from `v` enters `v` if it is pending, and
enters a set that is reachable from `v`, closed under pending edge ends, and fully crossed. -/
theorem run_account (hacc : Account w start R) {U : Finset V} (hU : ∀ v, start v → v ∈ U) :
    ∀ (n : Nat) (s : σ) (E : Finset V) (C : Multiset V) (v : V), R s E C →
      (U.filter (· ∉ E)).card < n →
      ∃ E' C', R (w.run n s v) E' C' ∧ Reached w start [v] E C E' C' := by
  intro n
  induction n with
  | zero => intro s E C v _ hfuel; omega
  | succ n ih =>
    intro s E C v hR hfuel
    rw [run]
    split
    · rename_i hp
      obtain ⟨hs, hvE⟩ := (hacc.pending hR).mp hp
      obtain ⟨E', C', hR', h'⟩ := foldl_account hacc ih (w.kids v) _ _ C (hacc.enter hR hp)
        (card_filter_insert_lt (hU v hs) hvE hfuel)
      have hvE' : v ∈ E' := h'.mono (Finset.mem_insert_self v E)
      refine ⟨E', C', hR', (Finset.subset_insert v E).trans h'.mono, by simp [hvE'], ?_, ?_, ?_, ?_⟩
      · intro x hx hn
        by_cases hxv : x = v
        · exact hxv ▸ hs
        · exact h'.started x hx (by simp [hxv, hn])
      · intro x hx hn
        refine ⟨v, by simp, ?_⟩
        by_cases hxv : x = v
        · exact hxv ▸ ReflTransGen.refl
        · obtain ⟨c, hc, hr⟩ := h'.reach x hx (by simp [hxv, hn])
          exact ReflTransGen.head hc hr
      · intro x hx hn c hc hsc
        by_cases hxv : x = v
        · exact h'.entered c (hxv ▸ hc) hsc
        · exact h'.closed x hx (by simp [hxv, hn]) c hc hsc
      · have hcr := h'.crossed
        rw [ends, Finset.sum_insert hvE] at hcr
        apply add_right_cancel (b := (w.kids v : Multiset V))
        calc C' + w.ends E + ↑(w.kids v) = C' + (↑(w.kids v) + w.ends E) := by abel
          _ = C + ↑(w.kids v) + w.ends E' := hcr
          _ = C + w.ends E' + ↑(w.kids v) := by abel
    · rename_i hp
      refine ⟨E, C, hR, Reached.skip C fun hs => ?_⟩
      by_contra hvE
      exact hp ((hacc.pending hR).mpr ⟨hs, hvE⟩)

theorem foldl_run_account (hacc : Account w start R) {U : Finset V} (hU : ∀ v, start v → v ∈ U)
    {n : Nat} (roots : List V) (s : σ) (E : Finset V) (C : Multiset V) (hR : R s E C)
    (hfuel : U.card < n) :
    ∃ E' C', R (roots.foldl (fun s v => w.run n s v) s) E' C' ∧ Reached w start roots E C E' C' := by
  have hcard : ∀ E : Finset V, (U.filter (· ∉ E)).card < n := fun E =>
    lt_of_le_of_lt (Finset.card_filter_le _ _) hfuel
  induction roots generalizing s E C with
  | nil => exact ⟨E, C, hR, Reached.nil w start E C⟩
  | cons v roots ih =>
    obtain ⟨E₁, C₁, hR₁, h₁⟩ := run_account hacc hU n s E C v hR (hcard E)
    obtain ⟨E₂, C₂, hR₂, h₂⟩ := ih _ E₁ C₁ hR₁
    exact ⟨E₂, C₂, hR₂, h₁.append h₂⟩

end Walk

end Dfs
