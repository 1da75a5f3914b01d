import Mathlib.Data.List.Forall2

/-!
# Slices of a buffer

Reading a range of a buffer and overwriting one, with the failure of an index out of range, what
they do to a buffer that is put together from blocks, the invariant rule for a loop that may fail,
and lists related element by element.
-/

namespace Noeta.Lib

variable {α : Type}

/-- `l[a..b]`, where the range lies in the buffer. -/
def slice? (l : List α) (a b : Nat) : Option (List α) :=
  if a ≤ b ∧ b ≤ l.length then some ((l.drop a).take (b - a)) else none

/-- `l[a..b].copy_from_slice(src)`, where the range lies in the buffer and has the length of the
source. -/
def write? (l : List α) (a b : Nat) (src : List α) : Option (List α) :=
  if a ≤ b ∧ b ≤ l.length ∧ src.length = b - a then some (l.take a ++ src ++ l.drop b) else none

theorem slice?_block (before block after : List α) (a b : Nat) (ha : a = before.length)
    (hb : b = a + block.length) : slice? (before ++ block ++ after) a b = some block := by
  subst ha hb
  unfold slice?
  rw [if_pos ⟨by omega, by simp⟩, List.append_assoc, List.drop_left]
  simp

theorem write?_block (before block after src : List α) (a b : Nat) (ha : a = before.length)
    (hb : b = a + block.length) (hsrc : src.length = block.length) :
    write? (before ++ block ++ after) a b src = some (before ++ src ++ after) := by
  subst ha hb
  unfold write?
  rw [if_pos ⟨by omega, by simp, by omega⟩, List.append_assoc before block, List.take_left,
    ← List.append_assoc before block, ← List.length_append, List.drop_left]

theorem write?_next (written rest src : List α) (a b : Nat) (ha : a = written.length)
    (hb : b = a + src.length) (hfit : src.length ≤ rest.length) :
    write? (written ++ rest) a b src = some ((written ++ src) ++ rest.drop src.length) := by
  have hsplit : written ++ rest = written ++ rest.take src.length ++ rest.drop src.length := by
    rw [List.append_assoc, List.take_append_drop]
  have hlen : (rest.take src.length).length = src.length := by
    rw [List.length_take]
    omega
  rw [hsplit, write?_block written _ _ src a b ha (by rw [hlen]; exact hb) hlen.symm]

theorem flatMap_split {β : Type} (f : β → List α) (l : List β) (i : Nat) (x : β)
    (h : l[i]? = some x) :
    l.flatMap f = (l.take i).flatMap f ++ f x ++ (l.drop (i + 1)).flatMap f := by
  obtain ⟨hi, rfl⟩ := List.getElem?_eq_some_iff.1 h
  have hsplit : l.take i ++ l[i] :: l.drop (i + 1) = l := by
    rw [← List.drop_eq_getElem_cons hi, List.take_append_drop]
  calc l.flatMap f = (l.take i ++ l[i] :: l.drop (i + 1)).flatMap f := by rw [hsplit]
    _ = _ := by rw [List.flatMap_append, List.flatMap_cons, List.append_assoc]

theorem length_flatMap_const {β : Type} (f : β → List α) (w : Nat) (l : List β)
    (h : ∀ x ∈ l, (f x).length = w) : (l.flatMap f).length = l.length * w := by
  induction l with
  | nil => simp
  | cons x l ih =>
    rw [List.flatMap_cons, List.length_append, h x (by simp), ih fun y hy => h y (by simp [hy])]
    rw [List.length_cons, Nat.succ_mul]
    omega

theorem flatMap_ranges (l : List α) (bound : Nat → Nat) (h0 : bound 0 = 0)
    (hmono : ∀ i, bound i ≤ bound (i + 1)) (n : Nat) :
    (List.range n).flatMap (fun i => (l.drop (bound i)).take (bound (i + 1) - bound i)) =
      l.take (bound n) := by
  induction n with
  | zero => simp [h0]
  | succ n ih =>
    have hstep := hmono n
    rw [List.range_succ, List.flatMap_append, ih, List.flatMap_cons, List.flatMap_nil,
      List.append_nil, ← List.take_add]
    congr 1
    omega

theorem foldlM_invariant {σ : Type} (f : σ → α → Option σ) (inv : Nat → σ → Prop) (l : List α)
    (hstep : ∀ k x s, l[k]? = some x → inv k s → ∃ s', f s x = some s' ∧ inv (k + 1) s') :
    ∀ s, inv 0 s → ∃ s', l.foldlM f s = some s' ∧ inv l.length s' := by
  induction l generalizing inv with
  | nil =>
    intro s hs
    exact ⟨s, rfl, hs⟩
  | cons x l ih =>
    intro s hs
    obtain ⟨s', hs', hinv⟩ := hstep 0 x s rfl hs
    obtain ⟨s'', hs'', hinv'⟩ := ih (fun k => inv (k + 1))
      (fun k y t hy ht => hstep (k + 1) y t (by simpa using hy) ht) s' hinv
    exact ⟨s'', by simp [List.foldlM_cons, hs', hs''], hinv'⟩

/-! ### Lists related element by element -/

theorem forall₂_getElem? {β : Type} {R : α → β → Prop} {xs : List α} {ys : List β}
    (h : List.Forall₂ R xs ys) : ∀ {i : Nat} {y : β}, ys[i]? = some y →
      ∃ x, xs[i]? = some x ∧ R x y := by
  induction h with
  | nil =>
    intro i y hy
    simp at hy
  | cons hR _ ih =>
    intro i y hy
    cases i with
    | zero =>
      obtain rfl := Option.some.inj hy
      exact ⟨_, rfl, hR⟩
    | succ i => exact ih hy

theorem forall₂_exists {β : Type} {R : α → β → Prop} {xs : List α} {ys : List β} (h : List.Forall₂ R xs ys)
    {y : β} (hy : y ∈ ys) : ∃ x ∈ xs, R x y := by
  obtain ⟨i, hi⟩ := List.mem_iff_getElem?.1 hy
  obtain ⟨x, hx, hR⟩ := forall₂_getElem? h hi
  exact ⟨x, List.mem_of_getElem? hx, hR⟩

theorem forall₂_set {β : Type} {R : α → β → Prop} {xs : List α} {ys : List β}
    (h : List.Forall₂ R xs ys) {x : α} {y : β} (hxy : R x y) :
    ∀ i, List.Forall₂ R (xs.set i x) (ys.set i y) := by
  induction h with
  | nil =>
    intro i
    exact .nil
  | cons hR hrest ih =>
    intro i
    cases i with
    | zero => exact .cons hxy hrest
    | succ i => exact .cons hR (ih i)

theorem mapM_eq_some_iff {β : Type} (f : α → Option β) (l : List α) :
    ∀ r, l.mapM f = some r ↔ List.Forall₂ (fun x y => f x = some y) l r := by
  induction l with
  | nil =>
    intro r
    simp [eq_comm]
  | cons x l ih =>
    intro r
    rw [List.mapM_cons, List.forall₂_cons_left_iff]
    cases hx : f x with
    | none => simp
    | some y =>
      cases hl : l.mapM f with
      | none =>
        simp only [Option.bind_eq_bind, Option.bind_some, Option.bind_none, reduceCtorEq, false_iff]
        rintro ⟨y', r', -, hr', rfl⟩
        rw [(ih r').2 hr'] at hl
        simp at hl
      | some ys =>
        simp only [Option.bind_eq_bind, Option.bind_some, Option.pure_def, Option.some.injEq,
          ← ih, hl]
        constructor
        · intro h
          exact ⟨y, ys, rfl, rfl, h.symm⟩
        · rintro ⟨_, _, rfl, rfl, rfl⟩
          rfl

end Noeta.Lib
