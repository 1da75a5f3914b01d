import Noeta.Sched.Producers

/-!
# Channels close when their last producer ends

The counter of a channel is the number of holds that are counted and not yet released, so it reaches zero when the last
of them is released. Three orders of steps break the connection with the tasks: an isolate runs before its holds are
counted, a task is spawned between the decrement and the close, and a task ends without a release. In the runs without
them, no task that captured a sender of a channel can run when the channel closes by itself, and when all such tasks have
ended and their releases are through, it is closed.
-/

namespace Noeta.Sched.Holds

/-- The step closes the channel because its last producer left. -/
def Closes (w : Holds) (op : Op) (c : Nat) : Prop :=
  match op with
  | .drop i => ∃ t rest, w.parties[i]? = some t ∧ t.dropping = c :: rest ∧ (w.channels c).backing = .local ∧
      (w.channels c).producers - 1 = 0
  | .close i => ∃ t, w.parties[i]? = some t ∧ t.closing = some c
  | _ => False

/-- The last hold on a channel does not end while an isolate that captured one of its senders was started and is not
counted; no task that captured one is spawned between the decrement and the close; and no task with holds ends without
a release. -/
def Orderly (w : Holds) (op : Op) : Prop :=
  match op with
  | .spawn real heap roots => real → ∀ c ∈ roots.flatMap (collectProducerChannels heap), ∀ u ∈ w.parties, u.closing ≠ some c
  | .register i => ∀ t, w.parties[i]? = some t → ∀ c ∈ t.captured, ∀ u ∈ w.parties, u.closing ≠ some c
  | .drop i => ∀ t c rest, w.parties[i]? = some t → t.dropping = c :: rest → (w.channels c).producers = 1 →
      ∀ u ∈ w.parties, u.real → c ∉ u.todo
  | .cancel i => ∀ t, w.parties[i]? = some t → t.holds = []
  | .abandon i => ∀ t, w.parties[i]? = some t → t.todo = [] ∧ t.holds = [] ∧ t.dropping = [] ∧ t.closing = none
  | _ => True

inductive Reachable (P : Holds → Op → Prop) (backing : Nat → Backing) : Holds → Prop
  | init : Reachable P backing { channels := fun c => { backing := backing c } }
  | step {w : Holds} {op : Op} : Reachable P backing w → w.Enabled op → P w op → Reachable P backing (w.step op)

/-- Holds on `c` that are counted and not yet released. -/
def counted (w : Holds) (c : Nat) : Nat := (w.parties.map fun t => (t.holds ++ t.dropping).count c).sum

structure PartyOk (t : Party) : Prop where
  started : t.ended = false → t.holds ++ t.todo = t.captured ∧ t.dropping = [] ∧ t.closing = none
  running : t.stage = .running → t.todo = []
  ended : t.ended = true → t.holds = [] ∧ t.todo = []

structure Inv (w : Holds) : Prop where
  party : ∀ t ∈ w.parties, PartyOk t
  count : ∀ c, (w.channels c).producers = w.counted c
  closing : ∀ t ∈ w.parties, ∀ c, t.closing = some c → ∀ u ∈ w.parties, u.live = true → c ∉ u.captured
  zero : ∀ t ∈ w.parties, ∀ c ∈ t.captured, c ∉ t.todo → (w.channels c).producers = 0 →
    (w.channels c).closed = true ∨ ∃ u ∈ w.parties, u.closing = some c

/-! ### Sums over the tasks -/

variable {α : Type} {l : List α} {i c : Nat} {w : Holds} {t : Party} {rest : List Nat} {f : Party → Party}

theorem sum_map_modify (f : α → Nat) (g : α → α) {a : α} (h : l[i]? = some a) :
    ((l.modify i g).map f).sum + f a = (l.map f).sum + f (g a) := by
  induction l generalizing i with
  | nil => exact absurd h (by simp)
  | cons b l ih =>
    cases i with
    | zero =>
      obtain rfl : b = a := Option.some.inj h
      simp only [List.modify_zero_cons, List.map_cons, List.sum_cons]
      omega
    | succ i =>
      have := ih (i := i) h
      simp only [List.modify_succ_cons, List.map_cons, List.sum_cons]
      omega

theorem le_sum_map (f : α → Nat) {a : α} (h : a ∈ l) : f a ≤ (l.map f).sum :=
  List.le_sum_of_mem (List.mem_map_of_mem h)

theorem two_le_sum_map (f : α → Nat) {a b : α} (ha : a ∈ l) (hb : b ∈ l) (hne : a ≠ b) : f a + f b ≤ (l.map f).sum := by
  induction l with
  | nil => exact absurd ha List.not_mem_nil
  | cons x l ih =>
    rcases List.mem_cons.mp ha with rfl | ha' <;> rcases List.mem_cons.mp hb with rfl | hb' <;>
      simp only [List.map_cons, List.sum_cons]
    · exact absurd rfl hne
    · have := le_sum_map f hb'
      omega
    · have := le_sum_map f ha'
      omega
    · have := ih ha' hb'
      omega

theorem mem_modify {g : α → α} {a b : α} (h : l[i]? = some a) (hb : b ∈ l.modify i g) : b = g a ∨ b ∈ l := by
  obtain ⟨j, hj⟩ := List.mem_iff_getElem?.mp hb
  by_cases hij : i = j
  · rw [← hij, List.getElem?_modify_eq, h] at hj
    exact Or.inl (Option.some.inj hj).symm
  · rw [List.getElem?_modify_ne g l hij] at hj
    exact Or.inr (List.mem_of_getElem? hj)

theorem mem_modify_self {a : α} (g : α → α) (h : l[i]? = some a) : g a ∈ l.modify i g := by
  refine List.mem_of_getElem? (i := i) ?_
  rw [List.getElem?_modify_eq, h]
  rfl

theorem mem_modify_of_mem {a b : α} (g : α → α) (h : l[i]? = some a) (hb : b ∈ l) : b = a ∨ b ∈ l.modify i g := by
  obtain ⟨j, hj⟩ := List.mem_iff_getElem?.mp hb
  by_cases hij : i = j
  · rw [← hij, h] at hj
    exact Or.inl (Option.some.inj hj).symm
  · refine Or.inr (List.mem_of_getElem? (i := j) ?_)
    rw [List.getElem?_modify_ne g l hij, hj]

/-! ### The last hold -/

theorem Inv.counted_pos (h : Inv w) (ht : t ∈ w.parties)
    (hd : t.dropping = c :: rest) : 0 < (w.channels c).producers := by
  have hle := le_sum_map (fun t : Party => (t.holds ++ t.dropping).count c) ht
  have hpos : 0 < (t.holds ++ t.dropping).count c := by
    rw [hd]
    exact List.count_pos_iff.mpr (List.mem_append_right _ List.mem_cons_self)
  rw [h.count]
  unfold counted
  omega

/-- When the last hold on a channel ends, no task that captured one of its senders can run. -/
theorem Inv.last_hold (h : Inv w) (ht : t ∈ w.parties)
    (hd : t.dropping = c :: rest) (hone : (w.channels c).producers = 1)
    (hstarted : ∀ u ∈ w.parties, u.real → c ∉ u.todo) : ∀ u ∈ w.parties, u.live = true → c ∉ u.captured := by
  intro u hu hlive hcap
  have hopen : u.ended = false := by
    unfold Party.live at hlive
    simp only [Bool.and_eq_true] at hlive
    simpa using hlive.1
  obtain ⟨hsplit, hnd, _⟩ := (h.party u hu).started hopen
  have hne : t ≠ u := by
    rintro rfl
    rw [hnd] at hd
    exact absurd hd (by simp)
  rw [← hsplit] at hcap
  rcases List.mem_append.mp hcap with hheld | htodo
  · -- two holds would be counted
    have htwo := two_le_sum_map (fun t : Party => (t.holds ++ t.dropping).count c) ht hu hne
    have h1 : 0 < (t.holds ++ t.dropping).count c := by
      rw [hd]
      exact List.count_pos_iff.mpr (List.mem_append_right _ List.mem_cons_self)
    have h2 : 0 < (u.holds ++ u.dropping).count c := List.count_pos_iff.mpr (List.mem_append_left _ hheld)
    rw [h.count] at hone
    unfold counted at hone
    omega
  · unfold Party.live at hlive
    cases hreal : u.real with
    | true => exact hstarted u hu hreal htodo
    | false =>
      simp only [hreal, Bool.false_or, Bool.and_eq_true, decide_eq_true_eq] at hlive
      rw [(h.party u hu).running hlive.2] at htodo
      exact absurd htodo List.not_mem_nil

/-! ### Steps -/

theorem counted_modify (hi : w.parties[i]? = some t) (f : Party → Party) (c : Nat) :
    (w.modify i f).counted c + (t.holds ++ t.dropping).count c =
      w.counted c + ((f t).holds ++ (f t).dropping).count c :=
  sum_map_modify _ f hi

/-- A step of task `i` that counts no hold and starts no close: its holds only move. -/
theorem Inv.moves (h : Inv w) (hi : w.parties[i]? = some t)
    (hok : PartyOk (f t)) (hcount : ∀ c, ((f t).holds ++ (f t).dropping).count c = (t.holds ++ t.dropping).count c)
    (hclosing : (f t).closing = t.closing) (hcap : (f t).captured = t.captured) (htodo : (f t).todo = t.todo)
    (hlive : (f t).live = true → t.live = true ∨ ∀ c ∈ t.captured, ∀ u ∈ w.parties, u.closing ≠ some c) :
    Inv (w.modify i f) := by
  have hmem := List.mem_of_getElem? hi
  -- a close that is under way is one of before
  have hback : ∀ u ∈ (w.modify i f).parties, ∀ c, u.closing = some c → ∃ v ∈ w.parties, v.closing = some c := by
    intro u hu c hc
    rcases mem_modify hi hu with rfl | hu
    · exact ⟨t, hmem, hclosing ▸ hc⟩
    · exact ⟨u, hu, hc⟩
  refine ⟨fun u hu => ?_, fun c => ?_, fun u hu c hc v hv hl => ?_, fun u hu c hc htd hz => ?_⟩
  · rcases mem_modify hi hu with rfl | hu
    · exact hok
    · exact h.party u hu
  · have := counted_modify hi f c
    rw [hcount] at this
    have hsame : (w.modify i f).counted c = w.counted c := by omega
    rw [hsame]
    exact h.count c
  · obtain ⟨u', hu', hc'⟩ := hback u hu c hc
    rcases mem_modify hi hv with rfl | hv
    · rw [hcap]
      rcases hlive hl with hl | hnone
      · exact h.closing u' hu' c hc' t hmem hl
      · exact fun hct => hnone c hct u' hu' hc'
    · exact h.closing u' hu' c hc' v hv hl
  · have hold : (w.channels c).closed = true ∨ ∃ u ∈ w.parties, u.closing = some c := by
      rcases mem_modify hi hu with rfl | hu
      · rw [hcap] at hc
        rw [htodo] at htd
        exact h.zero t hmem c hc htd hz
      · exact h.zero u hu c hc htd hz
    rcases hold with hcl | ⟨v, hv, hvc⟩
    · exact Or.inl hcl
    · rcases mem_modify_of_mem f hi hv with rfl | hv
      · exact Or.inr ⟨f v, mem_modify_self f hi, by rw [hclosing]; exact hvc⟩
      · exact Or.inr ⟨v, hv, hvc⟩

theorem Inv.ends (h : Inv w) (hi : w.parties[i]? = some t) (hs : t.stage = .running)
    (hended : (f t).ended = true) (hholds : (f t).holds = []) (hdrop : (f t).dropping = t.holds)
    (hclosing : (f t).closing = t.closing) (hcap : (f t).captured = t.captured) (htodo : (f t).todo = t.todo) :
    Inv (w.modify i f) := by
  have hok := h.party t (List.mem_of_getElem? hi)
  have hopen : t.ended = false := by
    unfold Party.ended
    rw [hs]
    rfl
  obtain ⟨_, hnd, _⟩ := hok.started hopen
  have htodo' : (f t).todo = [] := htodo.trans (hok.running hs)
  refine h.moves hi ⟨fun hn => ?_, fun _ => htodo', fun _ => ⟨hholds, htodo'⟩⟩ (fun c => ?_) hclosing hcap htodo
    fun hl => ?_
  · rw [hended] at hn
    exact absurd hn (by simp)
  · rw [hholds, hdrop, hnd]
    simp
  · unfold Party.live at hl
    rw [hended] at hl
    exact absurd hl (by simp)

theorem Inv.spawn (h : Inv w) {real : Bool} {heap : List Object} {roots : List Ref}
    (ho : w.Orderly (.spawn real heap roots)) : Inv (w.step (.spawn real heap roots)) := by
  obtain ⟨t, ht⟩ : ∃ t : Party, t = { real, heap, roots, todo := roots.flatMap (collectProducerChannels heap) } :=
    ⟨_, rfl⟩
  have hstep : w.step (.spawn real heap roots) = { w with parties := w.parties ++ [t] } := by rw [ht]; rfl
  have hcap : t.captured = t.todo := by rw [ht]; rfl
  have hmem : ∀ u ∈ w.parties ++ [t], u ∈ w.parties ∨ u = t := by
    intro u hu
    exact (List.mem_append.mp hu).imp id List.mem_singleton.mp
  rw [hstep]
  refine ⟨fun u hu => ?_, fun c => ?_, fun u hu c hc v hv hl => ?_, fun u hu c hc htd hz => ?_⟩
  · rcases hmem u hu with hu | rfl
    · exact h.party u hu
    · refine ⟨fun _ => ?_, fun hs => ?_, fun he => ?_⟩
      · rw [hcap, ht]
        exact ⟨rfl, rfl, rfl⟩
      · rw [ht] at hs
        exact absurd hs (by simp)
      · rw [ht] at he
        exact absurd he (by simp [Party.ended])
  · rw [h.count c]
    unfold counted
    rw [List.map_append, List.sum_append, ht]
    simp
  · rcases hmem u hu with hu' | rfl
    · rcases hmem v hv with hv | rfl
      · exact h.closing u hu' c hc v hv hl
      · have hreal : real = true := by
          rw [ht] at hl
          simpa [Party.live, Party.ended] using hl
        intro hcv
        refine ho hreal c ?_ u hu' hc
        rw [hcap, ht] at hcv
        exact hcv
    · rw [ht] at hc
      exact absurd hc (by simp)
  · rcases hmem u hu with hu | rfl
    · refine (h.zero u hu c hc htd hz).imp id fun ⟨v, hv, hvc⟩ => ⟨v, List.mem_append_left _ hv, hvc⟩
    · rw [hcap] at hc
      exact absurd hc htd

theorem Inv.hold {w : Holds} (h : Inv w) {i : Nat} {t : Party} (hi : w.parties[i]? = some t)
    (hs : t.stage = .registering) {c : Nat} {rest : List Nat} (htodo : t.todo = c :: rest) :
    Inv ((w.addProducerHold c).modify i fun t => { t with todo := rest, holds := t.holds ++ [c] }) := by
  obtain ⟨f, hf⟩ : ∃ f : Party → Party, f = fun t => { t with todo := rest, holds := t.holds ++ [c] } := ⟨_, rfl⟩
  rw [← hf]
  have hmem := List.mem_of_getElem? hi
  have hok := h.party t hmem
  have hopen : t.ended = false := by
    unfold Party.ended
    rw [hs]
    rfl
  obtain ⟨hsplit, hnd, hnc⟩ := hok.started hopen
  have hchan : ∀ d, (((w.addProducerHold c).modify i f).channels d).producers =
      (w.channels d).producers + if d = c then 1 else 0 := by
    intro d
    show ((Function.update w.channels c _) d).producers = _
    by_cases hd : d = c
    · subst hd
      simp
    · simp [hd]
  have hclosed : ∀ d, (((w.addProducerHold c).modify i f).channels d).closed = (w.channels d).closed := by
    intro d
    show ((Function.update w.channels c _) d).closed = _
    by_cases hd : d = c
    · subst hd
      simp
    · simp [hd]
  have hlive : (f t).live = t.live := by rw [hf]; rfl
  have hcap : (f t).captured = t.captured := by rw [hf]; rfl
  have hcl : (f t).closing = none := by rw [hf]; exact hnc
  have hmem' : ∀ u ∈ ((w.addProducerHold c).modify i f).parties, u = f t ∨ u ∈ w.parties := fun u hu =>
    mem_modify hi hu
  refine ⟨fun u hu => ?_, fun d => ?_, fun u hu d hd v hv hl => ?_, fun u hu d hd htd hz => ?_⟩
  · rcases hmem' u hu with rfl | hu
    · refine ⟨fun _ => ?_, fun hr => ?_, fun he => ?_⟩
      · rw [hcap, ← hsplit, htodo, hf]
        exact ⟨by simp, hnd, hnc⟩
      · rw [hf] at hr
        exact absurd (hs.symm.trans hr) (by simp)
      · rw [hf] at he
        exact absurd (he.symm.trans hopen) (by simp)
    · exact h.party u hu
  · have hm := counted_modify (w := w.addProducerHold c) (i := i) hi f d
    have hsame : (w.addProducerHold c).counted d = w.counted d := rfl
    have hnew : ((f t).holds ++ (f t).dropping).count d = (t.holds ++ t.dropping).count d + if d = c then 1 else 0 := by
      rw [hf]
      simp only [List.count_append, List.count_singleton]
      by_cases hdc : d = c
      · simp [hdc]
        omega
      · simp [hdc, Ne.symm hdc]
    rw [hchan d, h.count d]
    omega
  · rcases hmem' u hu with rfl | hu
    · rw [hcl] at hd
      exact absurd hd (by simp)
    · rcases hmem' v hv with rfl | hv
      · rw [hcap]
        exact h.closing u hu d hd t hmem (hlive ▸ hl)
      · exact h.closing u hu d hd v hv hl
  · rw [hchan d] at hz
    have hdc : d ≠ c := by
      rintro rfl
      simp at hz
    rw [if_neg hdc, Nat.add_zero] at hz
    rw [hclosed d]
    have hold : (w.channels d).closed = true ∨ ∃ u ∈ w.parties, u.closing = some d := by
      rcases hmem' u hu with rfl | hu
      · rw [hcap] at hd
        refine h.zero t hmem d hd (fun hdt => ?_) hz
        rw [htodo] at hdt
        rw [hf] at htd
        exact htd ((List.mem_cons.mp hdt).resolve_left hdc)
      · exact h.zero u hu d hd htd hz
    refine hold.imp id fun ⟨v, hv, hvc⟩ => ?_
    rcases mem_modify_of_mem f hi hv with rfl | hv
    · rw [hnc] at hvc
      exact absurd hvc (by simp)
    · exact ⟨v, hv, hvc⟩

/-- The release of one hold. -/
theorem Inv.release {w u : Holds} (h : Inv w) (hi : w.parties[i]? = some t)
    (hd : t.dropping = c :: rest) (hnone : t.closing = none) {closing : Option Nat}
    (hf : f t = { t with dropping := rest, closing }) (hp : u.parties = w.parties.modify i f)
    (hprod : ∀ d, (u.channels d).producers = (w.channels d).producers - if d = c then 1 else 0)
    (hclosed : ∀ d, (w.channels d).closed = true → (u.channels d).closed = true)
    (hzero : (w.channels c).producers = 1 → (u.channels c).closed = true ∨ closing = some c)
    (hlast : ∀ d, closing = some d → ∀ v ∈ w.parties, v.live = true → d ∉ v.captured) : Inv u := by
  have hmem := List.mem_of_getElem? hi
  have hok := h.party t hmem
  have hended : t.ended = true := by
    by_contra hn
    rw [(hok.started (by simpa using hn)).2.1] at hd
    exact absurd hd (by simp)
  have hend' : (f t).ended = true := by rw [hf]; exact hended
  have hcap : (f t).captured = t.captured := by rw [hf]; rfl
  have hlive : (f t).live = false := by
    unfold Party.live
    rw [hend']
    rfl
  have hmem' : ∀ v ∈ u.parties, v = f t ∨ v ∈ w.parties := by
    intro v hv
    rw [hp] at hv
    exact mem_modify hi hv
  -- no task that can run captured what is being closed
  have hclosing : ∀ v ∈ u.parties, ∀ d, v.closing = some d → ∀ x ∈ w.parties, x.live = true → d ∉ x.captured := by
    intro v hv d hvd
    rcases hmem' v hv with rfl | hv
    · rw [hf] at hvd
      exact hlast d hvd
    · exact h.closing v hv d hvd
  refine ⟨fun v hv => ?_, fun d => ?_, fun v hv d hvd x hx hl => ?_, fun v hv d hdc htd hz => ?_⟩
  · rcases hmem' v hv with rfl | hv
    · refine ⟨fun hn => ?_, fun hr => ?_, fun _ => ?_⟩
      · rw [hend'] at hn
        exact absurd hn (by simp)
      · rw [hf] at hr ⊢
        exact hok.running hr
      · rw [hf]
        exact hok.ended hended
    · exact h.party v hv
  · have hm := counted_modify hi f d
    have hcount : u.counted d = (w.modify i f).counted d := by
      unfold counted
      rw [hp]
      rfl
    have hnew : (t.holds ++ t.dropping).count d =
        ((f t).holds ++ (f t).dropping).count d + if d = c then 1 else 0 := by
      rw [hf, hd]
      simp only [List.count_append, List.count_cons]
      by_cases hdc : d = c
      · simp [hdc]
        omega
      · simp [hdc, Ne.symm hdc]
    have hw := h.count d
    have hpos := h.counted_pos hmem hd
    rw [hprod d, hcount]
    by_cases hdc : d = c
    · subst hdc
      rw [if_pos rfl] at hnew ⊢
      omega
    · rw [if_neg hdc] at hnew ⊢
      omega
  · rcases hmem' x hx with rfl | hx
    · rw [hlive] at hl
      exact absurd hl (by simp)
    · exact hclosing v hv d hvd x hx hl
  · have hkeep : (w.channels d).closed = true ∨ (∃ x ∈ w.parties, x.closing = some d) →
        (u.channels d).closed = true ∨ ∃ x ∈ u.parties, x.closing = some d := by
      rintro (hcl | ⟨x, hx, hxd⟩)
      · exact Or.inl (hclosed d hcl)
      · rcases mem_modify_of_mem f hi hx with rfl | hx
        · rw [hnone] at hxd
          exact absurd hxd (by simp)
        · exact Or.inr ⟨x, hp ▸ hx, hxd⟩
    rw [hprod d] at hz
    by_cases hdc' : d = c
    · subst hdc'
      rw [if_pos rfl] at hz
      have hpos := h.counted_pos hmem hd
      rcases hzero (by omega) with hcl | hcl
      · exact Or.inl hcl
      · refine Or.inr ⟨f t, ?_, by rw [hf]; exact hcl⟩
        rw [hp]
        exact mem_modify_self f hi
    · rw [if_neg hdc', Nat.sub_zero] at hz
      rcases hmem' v hv with rfl | hv
      · rw [hcap] at hdc
        rw [hf] at htd
        exact hkeep (h.zero t hmem d hdc htd hz)
      · exact hkeep (h.zero v hv d hdc htd hz)

theorem Inv.drop (h : Inv w) (hi : w.parties[i]? = some t)
    (hd : t.dropping = c :: rest) (hnone : t.closing = none) (ho : w.Orderly (.drop i)) :
    Inv ((w.modify i fun t => { t with dropping := rest }).endProducerHold i c) := by
  have hmem := List.mem_of_getElem? hi
  have hpos := h.counted_pos hmem hd
  have hlast := fun hone => h.last_hold hmem hd hone (ho t c rest hi hd hone)
  have hprod : ∀ channel : Producers, channel.producers = (w.channels c).producers - 1 → ∀ d,
      ((Function.update w.channels c channel) d).producers = (w.channels d).producers - if d = c then 1 else 0 := by
    intro channel hch d
    by_cases hdc : d = c
    · subst hdc
      simpa using hch
    · simp [hdc]
  have hclosed : ∀ channel : Producers, ((w.channels c).closed = true → channel.closed = true) → ∀ d,
      (w.channels d).closed = true → ((Function.update w.channels c channel) d).closed = true := by
    intro channel hch d hdt
    by_cases hdc : d = c
    · subst hdc
      simpa using hch hdt
    · simpa [hdc] using hdt
  unfold endProducerHold
  cases hb : (w.channels c).backing with
  | «local» =>
    have hb' : ((w.modify i fun t => { t with dropping := rest }).channels c).backing = .local := hb
    simp only [hb']
    refine h.release hi hd hnone (f := fun t => { t with dropping := rest }) (by rw [hnone]) rfl (hprod _ rfl)
      (hclosed _ fun hcl => ?_) (fun hone => Or.inl ?_) (fun d hd' => absurd hd' (by simp))
    · show ((w.channels c).closed || _) = true
      rw [hcl]
      rfl
    · show ((Function.update w.channels c _) c).closed = true
      rw [Function.update_self]
      show ((w.channels c).closed || (w.channels c).producers - 1 == 0) = true
      rw [hone]
      simp
  | shared =>
    have hb' : ((w.modify i fun t => { t with dropping := rest }).channels c).backing = .shared := hb
    simp only [hb']
    split_ifs with hone
    · have hone' : (w.channels c).producers = 1 := hone
      refine h.release hi hd hnone (f := fun t => { t with dropping := rest, closing := some c }) rfl
        ?_ (hprod _ rfl) (hclosed _ id) (fun _ => Or.inr rfl) (fun d hd' => ?_)
      · show (w.parties.modify i _).modify i _ = _
        rw [List.modify_modify_eq]
        rfl
      · obtain rfl := Option.some.inj hd'
        exact hlast hone'
    · exact h.release hi hd hnone (f := fun t => { t with dropping := rest }) (by rw [hnone]) rfl (hprod _ rfl)
        (hclosed _ id) (fun h1 => absurd h1 hone) (fun d hd' => absurd hd' (by simp))

theorem Inv.close (h : Inv w) (hi : w.parties[i]? = some t) (hc : t.closing = some c) :
    Inv ((w.setChannel c { w.channels c with closed := true }).modify i fun t => { t with closing := none }) := by
  obtain ⟨f, hf⟩ : ∃ f : Party → Party, f = fun t => { t with closing := none } := ⟨_, rfl⟩
  rw [← hf]
  have hmem := List.mem_of_getElem? hi
  have hok := h.party t hmem
  have hprod : ∀ d, (((w.setChannel c { w.channels c with closed := true }).modify i f).channels d).producers =
      (w.channels d).producers := by
    intro d
    show ((Function.update w.channels c _) d).producers = _
    by_cases hdc : d = c
    · subst hdc
      simp
    · simp [hdc]
  have hclosed : ∀ d, d = c ∨ (w.channels d).closed = true →
      (((w.setChannel c { w.channels c with closed := true }).modify i f).channels d).closed = true := by
    intro d hd
    show ((Function.update w.channels c _) d).closed = _
    by_cases hdc : d = c
    · subst hdc
      simp
    · simpa [hdc] using hd
  have hmem' : ∀ v ∈ ((w.setChannel c { w.channels c with closed := true }).modify i f).parties,
      v = f t ∨ v ∈ w.parties := fun v hv => mem_modify hi hv
  have hlive : (f t).live = t.live := by rw [hf]; rfl
  have hcap : (f t).captured = t.captured := by rw [hf]; rfl
  refine ⟨fun v hv => ?_, fun d => ?_, fun v hv d hvd x hx hl => ?_, fun v hv d hdc htd hz => ?_⟩
  · rcases hmem' v hv with rfl | hv
    · rw [hf]
      exact ⟨fun hn => ⟨(hok.started hn).1, (hok.started hn).2.1, rfl⟩, hok.running, hok.ended⟩
    · exact h.party v hv
  · have hm := counted_modify (w := w.setChannel c { w.channels c with closed := true }) (i := i) hi f d
    have hsame : (w.setChannel c { w.channels c with closed := true }).counted d = w.counted d := rfl
    have hnew : ((f t).holds ++ (f t).dropping).count d = (t.holds ++ t.dropping).count d := by rw [hf]
    rw [hprod d, h.count d]
    omega
  · rcases hmem' v hv with rfl | hv
    · rw [hf] at hvd
      exact absurd hvd (by simp)
    · rcases hmem' x hx with rfl | hx
      · rw [hcap]
        exact h.closing v hv d hvd t hmem (hlive ▸ hl)
      · exact h.closing v hv d hvd x hx hl
  · by_cases hdc' : d = c
    · exact Or.inl (hclosed d (Or.inl hdc'))
    · rw [hprod d] at hz
      have hold : (w.channels d).closed = true ∨ ∃ x ∈ w.parties, x.closing = some d := by
        rcases hmem' v hv with rfl | hv
        · rw [hcap] at hdc
          rw [hf] at htd
          exact h.zero t hmem d hdc htd hz
        · exact h.zero v hv d hdc htd hz
      rcases hold with hcl | ⟨x, hx, hxd⟩
      · exact Or.inl (hclosed d (Or.inr hcl))
      · rcases mem_modify_of_mem f hi hx with rfl | hx
        · rw [hc] at hxd
          exact absurd (Option.some.inj hxd).symm hdc'
        · exact Or.inr ⟨x, hx, hxd⟩

theorem Inv.step (h : Inv w) {op : Op} (he : w.Enabled op) (ho : w.Orderly op) : Inv (w.step op) := by
  cases op with
  | spawn real heap roots => exact h.spawn ho
  | hold i =>
    obtain ⟨t, hi, hs⟩ := he
    simp only [Holds.step, hi]
    split
    · rename_i c rest htodo
      exact h.hold hi hs htodo
    · exact h
  | register i =>
    obtain ⟨t, hi, hs, htodo⟩ := he
    have hok := h.party t (List.mem_of_getElem? hi)
    have hopen : t.ended = false := by
      unfold Party.ended
      rw [hs]
      rfl
    refine h.moves hi ⟨fun _ => hok.started hopen, fun _ => htodo, fun hn => ?_⟩ (fun _ => rfl) rfl rfl rfl
      (fun _ => Or.inr (ho t hi))
    exact absurd hn (by simp [Party.ended])
  | complete i =>
    obtain ⟨t, hi, hs⟩ := he
    exact h.ends hi hs (f := fun t => { t with stage := .completed, dropping := t.holds, holds := [] }) rfl rfl rfl rfl
      rfl rfl
  | honor i =>
    obtain ⟨t, hi, hs, _⟩ := he
    exact h.ends hi hs (f := fun t => { t with stage := .cancelled, dropping := t.holds, holds := [] }) rfl rfl rfl rfl
      rfl rfl
  | cancel i =>
    obtain ⟨t, hi, hs, _⟩ := he
    have hok := h.party t (List.mem_of_getElem? hi)
    refine h.moves hi ⟨fun hn => ?_, fun hr => ?_, fun _ => ⟨ho t hi, hok.running hs⟩⟩ (fun _ => rfl) rfl rfl rfl
      (fun hl => ?_)
    · exact absurd hn (by simp [Party.ended])
    · exact absurd hr (by simp)
    · exact absurd hl (by simp [Party.live, Party.ended])
  | reclaim i =>
    obtain ⟨t, hi, hend, hnd, hnc⟩ := he
    have hok := h.party t (List.mem_of_getElem? hi)
    refine h.moves hi ⟨fun hn => ?_, hok.running, fun _ => ⟨rfl, (hok.ended hend).2⟩⟩ (fun c => ?_) rfl rfl rfl Or.inl
    · exact absurd (hend.symm.trans hn) (by simp)
    · simp [hnd]
  | drop i =>
    obtain ⟨t, hi, hnc⟩ := he
    simp only [Holds.step, hi]
    split
    · rename_i c rest hd
      exact h.drop hi hd hnc ho
    · exact h
  | close i =>
    simp only [Holds.step]
    split
    · rename_i t hi
      split
      · rename_i c hc
        exact h.close hi hc
      · exact h
    · exact h
  | abandon i =>
    cases hi : w.parties[i]? with
    | none =>
      have hsame : w.step (.abandon i) = w := by
        simp only [Holds.step, Holds.modify]
        rw [List.modify_eq_self (List.getElem?_eq_none_iff.mp hi)]
      rw [hsame]
      exact h
    | some t =>
      obtain ⟨htodo, hholds, hdrop, hclosing⟩ := ho t hi
      have hok := h.party t (List.mem_of_getElem? hi)
      refine h.moves hi ⟨fun hn => ?_, fun _ => rfl, fun _ => ⟨rfl, rfl⟩⟩ (fun c => ?_) hclosing.symm rfl htodo.symm
        (fun hl => ?_)
      · exfalso
        revert hn
        unfold Party.ended
        cases t.stage <;> simp
      · simp [hholds, hdrop]
      · exfalso
        revert hl
        unfold Party.live Party.ended
        cases t.stage <;> simp

/-! ### Runs -/

theorem Reachable.inv {backing : Nat → Backing} (h : Reachable Orderly backing w) : Inv w := by
  induction h with
  | init =>
    refine ⟨fun t ht => ?_, fun c => rfl, fun t ht => ?_, fun t ht => ?_⟩ <;> exact absurd ht List.not_mem_nil
  | step _ he ho ih => exact ih.step he ho

/-- The step closes no channel while a task that captured one of its senders can run, and after it every channel all of
whose capturing tasks have ended, with their releases through, is closed. -/
structure Exact (w : Holds) (op : Op) : Prop where
  early : ∀ c, w.Closes op c → ∀ t ∈ w.parties, t.live = true → ¬ t.Captures c
  soon : ∀ c, (∃ t ∈ (w.step op).parties, t.Captures c) →
    (∀ t ∈ (w.step op).parties, t.Captures c → t.ended = true) →
    (∀ t ∈ (w.step op).parties, c ∉ t.dropping ∧ t.closing ≠ some c) → ((w.step op).channels c).closed = true

theorem Inv.early (h : Inv w) {op : Op} (ho : w.Orderly op) (hc : w.Closes op c) :
    ∀ t ∈ w.parties, t.live = true → ¬ t.Captures c := by
  intro u hu hl
  rw [← Party.mem_captured]
  cases op with
  | drop i =>
    obtain ⟨t, rest, hi, hd, _, hz⟩ := hc
    have hmem := List.mem_of_getElem? hi
    have hpos := h.counted_pos hmem hd
    have hone : (w.channels c).producers = 1 := by omega
    exact h.last_hold hmem hd hone (ho t c rest hi hd hone) u hu hl
  | close i =>
    obtain ⟨t, hi, htc⟩ := hc
    exact h.closing t (List.mem_of_getElem? hi) c htc u hu hl
  | _ => exact absurd hc id

theorem Inv.soon (h : Inv w) (hsome : ∃ t ∈ w.parties, t.Captures c)
    (hended : ∀ t ∈ w.parties, t.Captures c → t.ended = true)
    (hidle : ∀ t ∈ w.parties, c ∉ t.dropping ∧ t.closing ≠ some c) : (w.channels c).closed = true := by
  have hzero : (w.channels c).producers = 0 := by
    rw [h.count]
    unfold counted
    rw [List.sum_eq_zero_iff]
    intro n hn
    obtain ⟨t, ht, rfl⟩ := List.mem_map.mp hn
    rw [List.count_eq_zero, List.mem_append, not_or]
    refine ⟨fun hh => ?_, (hidle t ht).1⟩
    cases he : t.ended with
    | true =>
      rw [((h.party t ht).ended he).1] at hh
      exact List.not_mem_nil hh
    | false =>
      have hcap : c ∈ t.captured := by
        rw [← ((h.party t ht).started he).1]
        exact List.mem_append_left _ hh
      have := hended t ht ((Party.mem_captured t c).mp hcap)
      rw [he] at this
      exact absurd this (by simp)
  obtain ⟨t, ht, hcap⟩ := hsome
  have htodo : c ∉ t.todo := by
    rw [((h.party t ht).ended (hended t ht hcap)).2]
    exact List.not_mem_nil
  rcases h.zero t ht c ((Party.mem_captured t c).mpr hcap) htodo hzero with hcl | ⟨u, hu, huc⟩
  · exact hcl
  · exact absurd huc (hidle u hu).2

/-- **Channels close by themselves exactly when their last producer ends.** -/
theorem closes_with_last_producer (backing : Nat → Backing) {w : Holds} (h : Reachable Orderly backing w) {op : Op}
    (he : w.Enabled op) (ho : w.Orderly op) : w.Exact op :=
  ⟨fun _ => h.inv.early ho, fun _ => (h.inv.step he ho).soon⟩

/-- A shared channel, its only sender captured by the tasks. -/
def senders : List Object := [.sender 0]

theorem oneProducer_closes :
    let w := [Op.spawn false senders [.ptr 0], .hold 0, .register 0, .complete 0, .drop 0].foldl step
      { channels := fun _ => { backing := .shared } }
    w.Exact (.close 0) ∧ ((w.step (.close 0)).channels 0).closed = true := by
  intro w
  have start : Reachable Orderly (fun _ => .shared) { channels := fun _ => { backing := .shared } } := .init
  have spawned := start.step (show Enabled _ (.spawn false senders [.ptr 0]) from trivial) fun h => absurd h (by simp)
  have held := spawned.step (show Enabled _ (.hold 0) from ⟨_, rfl, rfl⟩) trivial
  have registered := held.step (show Enabled _ (.register 0) from ⟨_, rfl, rfl, rfl⟩) fun t ht c _ u hu hc => by
    rw [List.mem_singleton.mp hu] at hc
    exact absurd hc (by simp)
  have completed := registered.step (show Enabled _ (.complete 0) from ⟨_, rfl, rfl⟩) trivial
  have dropped := completed.step (show Enabled _ (.drop 0) from ⟨_, rfl, rfl⟩) fun t c rest _ _ _ u hu _ hc => by
    rw [List.mem_singleton.mp hu] at hc
    exact absurd hc List.not_mem_nil
  exact ⟨closes_with_last_producer (fun _ => .shared) dropped (show Enabled _ (.close 0) from trivial) trivial, by decide⟩

/-- An isolate runs, its holds are not counted yet, and a task spawned inside it completes: the channel closes under the
isolate. -/
theorem startedIsolate_closed : ∃ (w : Holds) (op : Op), Reachable (fun _ _ => True) (fun _ => .shared) w ∧
    w.Enabled op ∧ ¬ w.Exact op := by
  have start : Reachable (fun _ _ => True) (fun _ => .shared) { channels := fun _ => { backing := .shared } } := .init
  have isolate := start.step (show Enabled _ (.spawn true senders [.ptr 0]) from trivial) trivial
  have nested := isolate.step (show Enabled _ (.spawn false senders [.ptr 0]) from trivial) trivial
  have held := nested.step (show Enabled _ (.hold 1) from ⟨_, rfl, rfl⟩) trivial
  have registered := held.step (show Enabled _ (.register 1) from ⟨_, rfl, rfl, rfl⟩) trivial
  have completed := registered.step (show Enabled _ (.complete 1) from ⟨_, rfl, rfl⟩) trivial
  have dropped := completed.step (show Enabled _ (.drop 1) from ⟨_, rfl, rfl⟩) trivial
  refine ⟨_, .close 1, dropped, trivial, fun hex => ?_⟩
  refine hex.early 0 ⟨_, rfl, rfl⟩ _ (List.mem_of_getElem? (i := 0) rfl) (by decide) ?_
  exact ⟨.ptr 0, List.mem_cons_self, .sender rfl⟩

end Noeta.Sched.Holds
