import Mathlib.Data.List.Forall2
import Mathlib.Tactic.Basic

/-!
# Programs over a state that may refuse

A program of `Fallible σ ε` changes a state, may refuse with an error, and may be cut off before it
answers. `Returns` and `Raises` say how a run ends; a bind is peeled apart by `returns_bind` and
`raises_bind`, a loop over a list by `returns_each` and `raises_each`.
-/

abbrev Fallible (σ ε : Type) := StateT σ (ExceptT ε Option)

namespace Fallible

variable {σ ε α β γ : Type} {s s' : σ} {e : ε}

/-- The run is cut off. -/
def cut : Fallible σ ε α := fun _ => (none : Option (Except ε (α × σ)))

def Returns (x : Fallible σ ε α) (s : σ) (a : α) (s' : σ) : Prop :=
  (x.run s).run = some (.ok (a, s'))

def Raises (x : Fallible σ ε α) (s : σ) (e : ε) : Prop := (x.run s).run = some (.error e)

/-- An answer that needs no state. -/
def fromExcept : Except ε α → Fallible σ ε α
  | .ok a => pure a
  | .error e => throw e

def each (f : β → Fallible σ ε γ) : List β → Fallible σ ε (List γ)
  | [] => pure []
  | b :: bs => do
    let c ← f b
    let cs ← each f bs
    pure (c :: cs)

section Peel

variable {x : Fallible σ ε α} {f : α → Fallible σ ε β} {a : α} {b : β}

@[simp] theorem returns_bind :
    (x >>= f).Returns s b s' ↔ ∃ a t, x.Returns s a t ∧ (f a).Returns t b s' := by
  simp only [Returns, StateT.run_bind, ExceptT.run_bind]
  cases h : (x.run s).run with
  | none => simp
  | some r =>
    cases r with
    | error e => simp [pure]
    | ok p =>
      obtain ⟨a, t⟩ := p
      simp only [Option.some.injEq, Except.ok.injEq, Prod.mk.injEq]
      constructor
      · intro hb
        exact ⟨a, t, ⟨rfl, rfl⟩, hb⟩
      · rintro ⟨_, _, ⟨rfl, rfl⟩, hb⟩
        exact hb

@[simp] theorem raises_bind :
    (x >>= f).Raises s e ↔ x.Raises s e ∨ ∃ a t, x.Returns s a t ∧ (f a).Raises t e := by
  simp only [Returns, Raises, StateT.run_bind, ExceptT.run_bind]
  cases h : (x.run s).run with
  | none => simp
  | some r =>
    cases r with
    | error e' => simp [pure]
    | ok p =>
      obtain ⟨a, t⟩ := p
      constructor
      · intro hb
        exact Or.inr ⟨a, t, rfl, hb⟩
      · rintro (hx | ⟨_, _, hx, hb⟩)
        · cases hx
        · cases hx
          exact hb

@[simp] theorem returns_pure {a' : α} :
    (pure a : Fallible σ ε α).Returns s a' s' ↔ a = a' ∧ s = s' := by
  rw [Returns, StateT.run_pure]
  simp [pure, ExceptT.pure, ExceptT.mk, ExceptT.run]

@[simp] theorem raises_pure : ¬ (pure a : Fallible σ ε α).Raises s e := by
  rw [Raises, StateT.run_pure]
  simp [pure, ExceptT.pure, ExceptT.mk, ExceptT.run]

@[simp] theorem returns_throw {e' : ε} :
    ¬ (throw e' : Fallible σ ε α).Returns s a s' := by
  simp [Returns, throw, throwThe, MonadExceptOf.throw, StateT.run, StateT.lift, ExceptT.run,
    ExceptT.mk, bind, ExceptT.bind, ExceptT.bindCont, pure]

@[simp] theorem raises_throw {e' : ε} : (throw e' : Fallible σ ε α).Raises s e ↔ e' = e := by
  simp [Raises, throw, throwThe, MonadExceptOf.throw, StateT.run, StateT.lift, ExceptT.run,
    ExceptT.mk, bind, ExceptT.bind, ExceptT.bindCont, pure]

@[simp] theorem returns_cut : ¬ (cut : Fallible σ ε α).Returns s a s' := by
  simp [Returns, cut, StateT.run, ExceptT.run]

@[simp] theorem raises_cut : ¬ (cut : Fallible σ ε α).Raises s e := by
  simp [Raises, cut, StateT.run, ExceptT.run]

@[simp] theorem returns_get {t : σ} :
    (get : Fallible σ ε σ).Returns s t s' ↔ t = s ∧ s' = s := by
  simp [Returns, get, getThe, MonadStateOf.get, StateT.get, StateT.run, ExceptT.run, pure,
    ExceptT.pure, ExceptT.mk, eq_comm]

theorem returns_get_bind {g : σ → Fallible σ ε β} :
    Returns (get >>= g) s b s' ↔ (g s).Returns s b s' := by
  simp [returns_bind, and_assoc]

@[simp] theorem raises_get : ¬ (get : Fallible σ ε σ).Raises s e := by
  simp [Raises, get, getThe, MonadStateOf.get, StateT.get, StateT.run, ExceptT.run, pure,
    ExceptT.pure, ExceptT.mk]

@[simp] theorem returns_modify {g : σ → σ} {u : PUnit} :
    (modify g : Fallible σ ε PUnit).Returns s u s' ↔ s' = g s := by
  simp [Returns, modify, modifyGet, MonadStateOf.modifyGet, StateT.modifyGet, StateT.run,
    ExceptT.run, pure, ExceptT.pure, ExceptT.mk, eq_comm]

@[simp] theorem raises_modify {g : σ → σ} : ¬ (modify g : Fallible σ ε PUnit).Raises s e := by
  simp [Raises, modify, modifyGet, MonadStateOf.modifyGet, StateT.modifyGet, StateT.run,
    ExceptT.run, pure, ExceptT.pure, ExceptT.mk]

@[simp] theorem returns_fromExcept {r : Except ε α} :
    (fromExcept r : Fallible σ ε α).Returns s a s' ↔ r = .ok a ∧ s = s' := by
  cases r <;> simp [fromExcept]

@[simp] theorem raises_fromExcept {r : Except ε α} :
    (fromExcept r : Fallible σ ε α).Raises s e ↔ r = .error e := by
  cases r <;> simp [fromExcept]

end Peel

section Each

variable {f : β → Fallible σ ε γ} {I : σ → Prop} {R : σ → σ → Prop} {P : β → γ → σ → Prop}
  {bs : List β} {cs : List γ}

/-- What each round leaves holds of the whole loop: the invariant `I`, the growth `R` of the state,
and for each entry the fact `P` of it and its result, which growth keeps. -/
theorem returns_each (hrefl : ∀ s, R s s) (htrans : ∀ s t u, R s t → R t u → R s u)
    (hkeep : ∀ b c s t, R s t → P b c s → P b c t)
    (hstep : ∀ b ∈ bs, ∀ s c t, I s → (f b).Returns s c t → I t ∧ R s t ∧ P b c t)
    (hs : I s) (h : (each f bs).Returns s cs s') :
    I s' ∧ R s s' ∧ List.Forall₂ (fun b c => P b c s') bs cs := by
  induction bs generalizing s cs with
  | nil =>
    simp only [each, returns_pure] at h
    obtain ⟨rfl, rfl⟩ := h
    exact ⟨hs, hrefl _, .nil⟩
  | cons b bs ih =>
    simp only [each, returns_bind, returns_pure] at h
    obtain ⟨c, t, hb, cs', t', hbs, rfl, rfl⟩ := h
    obtain ⟨hI, hR, hP⟩ := hstep b (by simp) s c t hs hb
    obtain ⟨hI', hR', hPs⟩ := ih (fun b' hb' => hstep b' (by simp [hb'])) hI hbs
    exact ⟨hI', htrans _ _ _ hR hR', .cons (hkeep b c t t' hR' hP) hPs⟩

theorem exists_of_forall₂ {Q : β → γ → Prop} (h : List.Forall₂ Q bs cs) {b : β} (hb : b ∈ bs) :
    ∃ c, (b, c) ∈ bs.zip cs ∧ Q b c := by
  induction h with
  | nil => simp at hb
  | @cons b' c' bs cs hq _ ih =>
    obtain heq | hb := List.mem_cons.mp hb
    · rw [heq]
      exact ⟨c', by simp, hq⟩
    · obtain ⟨c, hc, hq'⟩ := ih hb
      exact ⟨c, by simp [hc], hq'⟩

theorem raises_each
    (hstep : ∀ b ∈ bs, ∀ s c t, I s → (f b).Returns s c t → I t)
    (hs : I s) (h : (each f bs).Raises s e) : ∃ b ∈ bs, ∃ t, I t ∧ (f b).Raises t e := by
  induction bs generalizing s with
  | nil => simp [each] at h
  | cons b bs ih =>
    simp only [each, raises_bind, raises_pure, and_false, exists_false, or_false] at h
    obtain h | ⟨c, t, hb, h⟩ := h
    · exact ⟨b, by simp, s, hs, h⟩
    · have hI := hstep b (by simp) s c t hs hb
      obtain ⟨b', hb', t', hI', h'⟩ := ih (fun x hx => hstep x (by simp [hx])) hI h
      exact ⟨b', by simp [hb'], t', hI', h'⟩

end Each

/-! ## Invariants of the state -/

/-- Whenever the run answers, the state still meets `I`. -/
def Keeps (I : σ → Prop) (x : Fallible σ ε α) : Prop :=
  ∀ s a s', I s → x.Returns s a s' → I s'

namespace Keeps

variable {I : σ → Prop} {x : Fallible σ ε α} {f : α → Fallible σ ε β}

theorem bind (hx : Keeps I x) (hf : ∀ a, Keeps I (f a)) : Keeps I (x >>= f) := by
  intro s b s' hs h
  obtain ⟨a, t, hxa, hfa⟩ := returns_bind.mp h
  exact hf a t b s' (hx s a t hs hxa) hfa

theorem pure (a : α) : Keeps I (Pure.pure a : Fallible σ ε α) := by
  intro s a' s' hs h
  rw [← (returns_pure.mp h).2]
  exact hs

theorem throw (e : ε) : Keeps I (MonadExcept.throw e : Fallible σ ε α) :=
  fun _ _ _ _ h => absurd h returns_throw

theorem cut : Keeps I (Fallible.cut : Fallible σ ε α) := fun _ _ _ _ h => absurd h returns_cut

theorem get : Keeps I (MonadState.get : Fallible σ ε σ) := by
  intro s t s' hs h
  rw [(returns_get.mp h).2]
  exact hs

theorem modify {g : σ → σ} (hg : ∀ s, I s → I (g s)) : Keeps I (modify g : Fallible σ ε PUnit) := by
  intro s u s' hs h
  rw [returns_modify.mp h]
  exact hg s hs

theorem fromExcept (r : Except ε α) : Keeps I (Fallible.fromExcept r : Fallible σ ε α) := by
  intro s a s' hs h
  rw [← (returns_fromExcept.mp h).2]
  exact hs

theorem each {f : β → Fallible σ ε γ} {bs : List β} (hf : ∀ b ∈ bs, Keeps I (f b)) :
    Keeps I (each f bs) := by
  intro s cs s' hs h
  exact (returns_each (R := fun _ _ => True) (P := fun _ _ _ => True) (fun _ => trivial)
    (fun _ _ _ _ _ => trivial) (fun _ _ _ _ _ _ => trivial)
    (fun b hb s c t hI hr => ⟨hf b hb s c t hI hr, trivial, trivial⟩) hs h).1

end Keeps

/-! ## Errors that a run never raises -/

/-- No run raises an error of `E`. -/
def Spares (E : ε → Prop) (x : Fallible σ ε α) : Prop := ∀ s e, x.Raises s e → ¬ E e

namespace Spares

variable {E : ε → Prop} {x : Fallible σ ε α} {f : α → Fallible σ ε β}

theorem bind (hx : Spares E x) (hf : ∀ a, Spares E (f a)) : Spares E (x >>= f) := by
  intro s e h
  obtain h | ⟨a, t, _, h⟩ := raises_bind.mp h
  · exact hx s e h
  · exact hf a t e h

theorem pure (a : α) : Spares E (Pure.pure a : Fallible σ ε α) :=
  fun _ _ h => absurd h raises_pure

theorem throw {e : ε} (he : ¬ E e) : Spares E (MonadExcept.throw e : Fallible σ ε α) := by
  intro s e' h
  rw [← raises_throw.mp h]
  exact he

theorem cut : Spares E (Fallible.cut : Fallible σ ε α) := fun _ _ h => absurd h raises_cut

theorem get : Spares E (MonadState.get : Fallible σ ε σ) := fun _ _ h => absurd h raises_get

theorem modify (g : σ → σ) : Spares E (modify g : Fallible σ ε PUnit) :=
  fun _ _ h => absurd h raises_modify

theorem fromExcept {r : Except ε α} (hr : ∀ e, r = .error e → ¬ E e) :
    Spares E (Fallible.fromExcept r : Fallible σ ε α) :=
  fun _ e h => hr e (raises_fromExcept.mp h)

end Spares

end Fallible
