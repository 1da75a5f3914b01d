import Noeta.Sched.Stall

/-!
# No false deadlock

A scheduler that was notified stays counted as parked until it runs again, so a check by another scheduler can find all
parties parked, and the generation where that other scheduler left it, while a message waits for the first. If at the
confirming check no parked scheduler is behind the generation, the verdict is right: a wait that became ready since the
snapshot of its scheduler has moved the generation or is about to, and whoever is about to is not parked.
-/

namespace Noeta.Sched

namespace Phase

/-- The round is over, and nothing was ready. -/
def settled : Phase → Bool
  | .stalled | .outstanding | .clear | .parking _ | .waiting _ | .checking _ | .judging _ _ | .voting | .counting _
  | .leaving _ | .latching => true
  | _ => false

/-- Cross-thread work was found outstanding. -/
def late : Phase → Bool
  | .outstanding | .clear | .parking _ | .waiting _ | .checking _ | .judging _ _ | .voting | .counting _ | .leaving _
  | .latching => true
  | _ => false

/-- Phases in which a `notify` can be owed. -/
def mayOwe : Phase → Bool
  | .polling _ _ | .ending | .stopped => true
  | _ => false

/-- The deadlock is decided. -/
def decided : Phase → Bool
  | .leaving true | .latching => true
  | _ => false

/-- What a scheduler can be at when none can go on. -/
def calm : Phase → Bool
  | .polling true _ | .polling _ true | .pushing _ _ _ | .ending | .stopped => false
  | _ => true

/-- After the snapshot, and not over. -/
def running : Phase → Bool
  | .start | .stopped => false
  | _ => true

/-- Nothing is known of the waits or of the outstanding work. -/
def early : Phase → Bool
  | .start | .polling _ _ | .ending | .stopped => true
  | _ => false

variable {a : Phase}

theorem early_of_mayOwe (h : a.mayOwe) : a.early := by
  cases a <;> simp_all [mayOwe, early]

theorem of_early (h : a.early) : a.settled = false ∧ a.late = false ∧ a.decided = false ∧
    a.isParked = false ∧ ∀ c x b, a ≠ .pushing c x b := by
  cases a <;> simp_all [early, settled, late, decided, isParked]

theorem of_running (h : a.running) : a ≠ .start ∧ a ≠ .stopped := by
  cases a <;> simp_all [running]

theorem mayOwe_of_isParked (h : a.isParked) : a.mayOwe = false := by
  cases a <;> simp_all [isParked, mayOwe]

theorem settled_of_isParked (h : a.isParked) : a.settled ∧ a.late ∧ a.calm ∧ a.running := by
  cases a <;> simp_all [isParked, settled, late, calm, running]

end Phase

namespace Process

variable {M : Type}

/-- What is known of scheduler `j`. -/
structure SchedulerOk (p : Process M) (j : Nat) : Prop where
  seen_le : (p.schedulers j).seen ≤ p.generation
  since_le : (p.schedulers j).since ≤ p.events
  fresh : (p.schedulers j).phase ≠ .start → (p.schedulers j).since < p.events →
    (p.schedulers j).seen < p.generation ∨ ∃ k, (p.schedulers k).owes
  tested : ∀ w ∈ (p.schedulers j).tested, p.ready w → (p.schedulers j).since < p.events
  settled : (p.schedulers j).phase.settled → ∀ w ∈ (p.schedulers j).waits, w ∈ (p.schedulers j).tested
  late : (p.schedulers j).phase.late → p.pending j ∨ (p.schedulers j).since < p.events
  pushing : ∀ c a b, (p.schedulers j).phase = .pushing c a b →
    (p.channels c).accepts ∨ (p.schedulers j).since < p.events
  owes : (p.schedulers j).owes → (p.schedulers j).phase.mayOwe
  idle : (p.schedulers j).registered = false → (p.schedulers j).phase = .stopped ∧ (p.schedulers j).owes = false

variable {p q : Process M} {j i : Nat} {s : Scheduler} {f : Scheduler → Scheduler} {a : Phase} {w : Wait}
  {progressed : Bool}

theorem SchedulerOk.early (ha : (p.schedulers j).phase.early)
    (hseen : (p.schedulers j).seen ≤ p.generation) (hsince : (p.schedulers j).since ≤ p.events)
    (hfresh : (p.schedulers j).phase ≠ .start → (p.schedulers j).since < p.events →
      (p.schedulers j).seen < p.generation ∨ ∃ k, (p.schedulers k).owes)
    (htested : ∀ w ∈ (p.schedulers j).tested, p.ready w → (p.schedulers j).since < p.events)
    (howes : (p.schedulers j).owes → (p.schedulers j).phase.mayOwe) (hreg : (p.schedulers j).registered) :
    SchedulerOk p j := by
  obtain ⟨hset, hlate, -, -, hpush⟩ := Phase.of_early ha
  exact ⟨hseen, hsince, hfresh, htested, fun hs => by simp [hset] at hs, fun hl => by simp [hlate] at hl,
    fun c a b hp => absurd hp (hpush c a b), howes, fun hr => by simp [hreg] at hr⟩

def registeredSet (p : Process M) : Finset Nat := (Finset.range p.size).filter fun j => (p.schedulers j).registered

def parkedSet (p : Process M) : Finset Nat := (Finset.range p.size).filter fun j => (p.schedulers j).phase.isParked

/-- Scheduler `j` cannot go on. -/
def StuckAt (p : Process M) (j : Nat) : Prop :=
  (p.schedulers j).registered → (p.schedulers j).phase.calm ∧ (p.schedulers j).owes = false ∧
    (∀ w ∈ (p.schedulers j).waits, p.ready w = false) ∧ p.pending j

/-- No registered scheduler can go on. -/
def Stuck (p : Process M) : Prop := ∀ j, p.StuckAt j

structure Inv (p : Process M) : Prop where
  scheduler : ∀ j, SchedulerOk p j
  range : ∀ j, (p.schedulers j).registered → j < p.size
  unused : ∀ j, p.size ≤ j → (p.schedulers j).landed = false
  active : p.active = p.registeredSet.card
  parked : p.parked = p.parkedSet.card
  verdict : p.deadlocked = false → ∀ j, (p.schedulers j).phase.decided → p.Stuck

/-- What the steps do to the world that the schedulers share: a change is counted, and it is announced or owed. -/
structure Moves (p q : Process M) : Prop where
  generation : p.generation ≤ q.generation
  events : p.events ≤ q.events
  same : q.events = p.events →
    q.channels = p.channels ∧ ∀ k, (q.schedulers k).landed = (p.schedulers k).landed
  fresh : (q.events = p.events ∧ q.generation = p.generation ∧ ∀ k, (q.schedulers k).owes = (p.schedulers k).owes) ∨
    (∃ k, (q.schedulers k).owes) ∨ p.generation < q.generation

theorem Moves.ready (h : Moves p q) (he : q.events = p.events) (w : Wait) : q.ready w = p.ready w := by
  obtain ⟨hc, hl⟩ := h.same he
  cases w with
  | now => rfl
  | recv c => simp only [Process.ready, hc]
  | send c phase => simp only [Process.ready, hc]
  | result j => simp only [Process.ready, hl]

/-- A scheduler keeps what is known of it when the others act, and when it settles what it owes. -/
theorem SchedulerOk.settle (h : SchedulerOk p j) (hm : Moves p q) {owed : Bool}
    (hj : q.schedulers j = { p.schedulers j with owes := owed }) (ho : owed → (p.schedulers j).owes) :
    SchedulerOk q j := by
  have hchanged : ¬ q.events = p.events → (p.schedulers j).since < q.events := by
    intro hne
    have := h.since_le
    have := hm.events
    omega
  refine ⟨?_, ?_, ?_, ?_, ?_, ?_, ?_, ?_, ?_⟩
  · rw [hj]
    exact h.seen_le.trans hm.generation
  · rw [hj]
    exact h.since_le.trans hm.events
  · rw [hj]
    intro hs hlt
    rcases hm.fresh with ⟨he, hg, hsame⟩ | howes | hg
    · rw [show q.events = _ from he] at hlt
      rw [hg]
      refine (h.fresh hs hlt).imp id fun ⟨k, hk⟩ => ⟨k, ?_⟩
      rw [hsame]
      exact hk
    · exact Or.inr howes
    · exact Or.inl (lt_of_le_of_lt h.seen_le hg)
  · rw [hj]
    intro w hw hr
    by_cases he : q.events = p.events
    · rw [hm.ready he] at hr
      rw [he]
      exact h.tested w hw hr
    · exact hchanged he
  · rw [hj]
    exact h.settled
  · rw [hj]
    intro hl
    by_cases he : q.events = p.events
    · rw [he]
      refine (h.late hl).imp (fun hp => ?_) id
      unfold pending isPending at *
      rw [hj, (hm.same he).1]
      exact hp
    · exact Or.inr (hchanged he)
  · rw [hj]
    intro c a b hp
    by_cases he : q.events = p.events
    · rw [he, (hm.same he).1]
      exact h.pushing c a b hp
    · exact Or.inr (hchanged he)
  · rw [hj]
    exact fun h' => h.owes (ho h')
  · rw [hj]
    intro hr
    obtain ⟨h1, h2⟩ := h.idle hr
    refine ⟨h1, ?_⟩
    by_contra hne
    rw [ho (by simpa using hne)] at h2
    exact absurd h2 (by simp)

theorem SchedulerOk.frame (h : SchedulerOk p j) (hm : Moves p q)
    (hj : q.schedulers j = p.schedulers j) : SchedulerOk q j :=
  h.settle hm (show q.schedulers j = { p.schedulers j with owes := (p.schedulers j).owes } from hj) id

theorem modify_self (p : Process M) (i : Nat) (f : Scheduler → Scheduler) :
    (p.modify i f).schedulers i = f (p.schedulers i) := Function.update_self ..

theorem modify_ne (p : Process M) (f : Scheduler → Scheduler) (h : j ≠ i) :
    (p.modify i f).schedulers j = p.schedulers j := Function.update_of_ne h ..

/-! ### Counting -/

theorem registeredSet_congr (hsize : q.size = p.size)
    (h : ∀ j, (q.schedulers j).registered = (p.schedulers j).registered) : q.registeredSet = p.registeredSet := by
  unfold registeredSet
  rw [hsize]
  exact Finset.filter_congr fun j _ => by rw [h]

theorem parkedSet_congr (hsize : q.size = p.size)
    (h : ∀ j, (q.schedulers j).phase.isParked = (p.schedulers j).phase.isParked) : q.parkedSet = p.parkedSet := by
  unfold parkedSet
  rw [hsize]
  exact Finset.filter_congr fun j _ => by rw [h]

theorem Inv.registered_of_ne (h : Inv p) (hi : (p.schedulers i).phase ≠ .stopped) : (p.schedulers i).registered := by
  by_contra hn
  exact hi ((h.scheduler i).idle (by simpa using hn)).1

theorem Inv.registered_of_phase (h : Inv p) (hi : (p.schedulers i).phase.running) :
    (p.schedulers i).registered := h.registered_of_ne (Phase.of_running hi).2

theorem Inv.all_parked (h : Inv p) (hle : p.active ≤ p.parked)
    (hj : (p.schedulers j).registered) : (p.schedulers j).phase.isParked := by
  have hsub : p.parkedSet ⊆ p.registeredSet := by
    intro k hk
    unfold parkedSet at hk
    unfold registeredSet
    rw [Finset.mem_filter] at hk ⊢
    exact ⟨hk.1, h.registered_of_phase (Phase.settled_of_isParked hk.2).2.2.2⟩
  have heq := Finset.eq_of_subset_of_card_le hsub (by rw [← h.active, ← h.parked]; exact hle)
  have hmem : j ∈ p.registeredSet := by
    unfold registeredSet
    rw [Finset.mem_filter, Finset.mem_range]
    exact ⟨h.range j hj, hj⟩
  rw [← heq] at hmem
  unfold parkedSet at hmem
  exact (Finset.mem_filter.mp hmem).2

/-! ### The verdict -/

/-- The check that confirms the deadlock finds no parked scheduler behind the generation, and the number of registered
schedulers as it was read. -/
def Awake (p : Process M) (op : Op M) : Prop :=
  ∀ i n, op = .count i → (p.schedulers i).phase = .counting n → 0 < n → n ≤ p.parked →
    n = p.active ∧ ∀ j, (p.schedulers j).phase.isParked → (p.schedulers j).seen = p.generation

theorem Inv.registered_of_owes (h : Inv p) (ho : (p.schedulers i).owes) : (p.schedulers i).registered := by
  by_contra hn
  rw [((h.scheduler i).idle (by simpa using hn)).2] at ho
  exact absurd ho (by simp)

theorem Inv.stuck (h : Inv p) (hle : p.active ≤ p.parked)
    (hseen : ∀ j, (p.schedulers j).phase.isParked → (p.schedulers j).seen = p.generation) : p.Stuck := by
  have hparked := fun j => h.all_parked hle (j := j)
  have howes : ∀ k, (p.schedulers k).owes = false := by
    intro k
    by_contra hk
    have ho : (p.schedulers k).owes = true := by simpa using hk
    have hmay := (h.scheduler k).owes ho
    rw [Phase.mayOwe_of_isParked (hparked k (h.registered_of_owes ho))] at hmay
    exact absurd hmay (by simp)
  intro j hr
  have hp := hparked j hr
  have hok := h.scheduler j
  obtain ⟨hsettled, hlate, hcalm, hrun⟩ := Phase.settled_of_isParked hp
  -- nothing has changed since the snapshot
  have hsame : ¬ (p.schedulers j).since < p.events := by
    intro hlt
    rcases hok.fresh (Phase.of_running hrun).1 hlt with hg | ⟨k, hk⟩
    · rw [hseen j hp] at hg
      exact absurd hg (Nat.lt_irrefl _)
    · rw [howes k] at hk
      exact absurd hk (by simp)
  refine ⟨hcalm, howes j, fun w hw => ?_, (hok.late hlate).resolve_right hsame⟩
  by_contra hready
  exact hsame (hok.tested w (hok.settled hsettled w hw) (by simpa using hready))

/-! ### Steps -/

theorem StuckAt.frame (h : p.StuckAt j) (hm : Moves p q) (he : q.events = p.events)
    (hj : q.schedulers j = p.schedulers j) : q.StuckAt j := by
  intro hr
  rw [hj] at hr ⊢
  obtain ⟨hcalm, howes, hwaits, hpend⟩ := h hr
  refine ⟨hcalm, howes, fun w hw => by rw [hm.ready he]; exact hwaits w hw, ?_⟩
  unfold pending isPending at *
  rw [hj, (hm.same he).1]
  exact hpend

/-- A step that changes the record of one scheduler keeps what the others had. -/
theorem field_update (hq : q.schedulers = Function.update p.schedulers i s)
    {α : Type} {g : Scheduler → α} (hg : g s = g (p.schedulers i)) (k : Nat) :
    g (q.schedulers k) = g (p.schedulers k) := by
  rw [hq]
  by_cases hk : k = i
  · rw [hk, Function.update_self, hg]
  · rw [Function.update_of_ne hk]

theorem modify_field (p : Process M) (i : Nat) {α : Type} {g : Scheduler → α}
    (hg : g (f (p.schedulers i)) = g (p.schedulers i)) (k : Nat) : g ((p.modify i f).schedulers k) = g (p.schedulers k) :=
  field_update rfl hg k

/-- A step of scheduler `i` that changes only its own record and the count of parked schedulers. -/
theorem Inv.local (h : Inv p) (n : Nat) (howes : (f (p.schedulers i)).owes = (p.schedulers i).owes)
    (hlanded : (f (p.schedulers i)).landed = (p.schedulers i).landed)
    (hreg : (f (p.schedulers i)).registered = (p.schedulers i).registered)
    (hn : n = ({ p.modify i f with parked := n } : Process M).parkedSet.card)
    (hown : SchedulerOk (p.modify i f) i) (hstuck : p.deadlocked = false → p.Stuck → (p.modify i f).StuckAt i)
    (hdec : (f (p.schedulers i)).phase.decided → p.deadlocked = false → p.Stuck) :
    Inv ({ p.modify i f with parked := n } : Process M) := by
  have hm : Moves p (p.modify i f) :=
    ⟨le_rfl, le_rfl, fun _ => ⟨rfl, modify_field p i (g := Scheduler.landed) hlanded⟩,
      Or.inl ⟨rfl, rfl, modify_field p i (g := Scheduler.owes) howes⟩⟩
  refine ⟨fun j => ?_, fun j hj => ?_, fun j hj => ?_, ?_, hn, ?_⟩
  · have hok : SchedulerOk (p.modify i f) j := by
      by_cases hj : j = i
      · rw [hj]
        exact hown
      · exact (h.scheduler j).frame hm (modify_ne p f hj)
    exact ⟨hok.seen_le, hok.since_le, hok.fresh, hok.tested, hok.settled, hok.late, hok.pushing, hok.owes, hok.idle⟩
  · have hreg' := modify_field p i (g := Scheduler.registered) hreg j
    exact h.range j (hreg' ▸ hj)
  · exact (modify_field p i (g := Scheduler.landed) hlanded j).trans (h.unused j hj)
  · refine h.active.trans (congrArg Finset.card ?_)
    exact (registeredSet_congr (p := p) (q := ({ p.modify i f with parked := n } : Process M)) rfl
      (modify_field p i hreg)).symm
  · intro hd j hj
    have hst : p.Stuck := by
      by_cases hji : j = i
      · rw [hji] at hj
        change ((p.modify i f).schedulers i).phase.decided = true at hj
        rw [modify_self] at hj
        exact hdec hj hd
      · change ((p.modify i f).schedulers j).phase.decided = true at hj
        rw [modify_ne p f hji] at hj
        exact h.verdict hd j hj
    intro k
    have hk : (p.modify i f).StuckAt k := by
      by_cases hki : k = i
      · rw [hki]
        exact hstuck hd hst
      · exact (hst k).frame hm rfl (modify_ne p f hki)
    exact hk

theorem Inv.own (h : Inv p) (howes : (f (p.schedulers i)).owes = (p.schedulers i).owes)
    (hlanded : (f (p.schedulers i)).landed = (p.schedulers i).landed)
    (hreg : (f (p.schedulers i)).registered = (p.schedulers i).registered)
    (hpark : (f (p.schedulers i)).phase.isParked = (p.schedulers i).phase.isParked)
    (hown : SchedulerOk (p.modify i f) i) (hstuck : p.deadlocked = false → p.Stuck → (p.modify i f).StuckAt i)
    (hdec : (f (p.schedulers i)).phase.decided → p.deadlocked = false → p.Stuck) : Inv (p.modify i f) := by
  refine h.local p.parked howes hlanded hreg ?_ hown hstuck hdec
  exact h.parked.trans (congrArg Finset.card (parkedSet_congr (p := p) (q := p.modify i f) rfl
    (modify_field p i (g := fun s => s.phase.isParked) hpark)).symm)

theorem Inv.acts (h : Inv p)
    (hq : q.schedulers = Function.update p.schedulers i s) (hm : Moves p q) (hown : SchedulerOk q i)
    (hsize : q.size = p.size) (hactive : q.active = p.active) (hparked : q.parked = p.parked)
    (hregp : (p.schedulers i).registered) (hreg : s.registered = (p.schedulers i).registered)
    (hpark : s.phase.isParked = (p.schedulers i).phase.isParked)
    (hv : q.deadlocked = false → ∀ j, (q.schedulers j).phase.decided → q.Stuck) : Inv q := by
  have hothers : ∀ j, j ≠ i → q.schedulers j = p.schedulers j := fun j hj => by rw [hq, Function.update_of_ne hj]
  refine ⟨fun j => ?_, fun j hj => ?_, fun j hj => ?_, ?_, ?_, hv⟩
  · by_cases hj : j = i
    · rw [hj]
      exact hown
    · exact (h.scheduler j).frame hm (hothers j hj)
  · rw [hsize]
    rw [field_update (g := Scheduler.registered) hq hreg] at hj
    exact h.range j hj
  · rw [hsize] at hj
    have hji : j ≠ i := by
      rintro rfl
      exact absurd (h.range j hregp) (Nat.not_lt.mpr hj)
    rw [hothers j hji]
    exact h.unused j hj
  · rw [hactive, h.active, registeredSet_congr hsize (field_update hq hreg)]
  · rw [hparked, h.parked, parkedSet_congr hsize (field_update (g := fun s => s.phase.isParked) hq hpark)]

theorem Inv.undecided (h : Inv p) (hns : ¬ p.Stuck)
    (hq : q.schedulers = Function.update p.schedulers i s) (hdead : q.deadlocked = p.deadlocked)
    (hdec : s.phase.decided → (p.schedulers i).phase.decided) :
    q.deadlocked = false → ∀ j, (q.schedulers j).phase.decided → q.Stuck := by
  intro hd j hj
  rw [hdead] at hd
  rw [hq] at hj
  have hj' : (p.schedulers j).phase.decided := by
    by_cases hji : j = i
    · rw [hji, Function.update_self] at hj
      exact hji ▸ hdec hj
    · rwa [Function.update_of_ne hji] at hj
  exact absurd (h.verdict hd j hj') hns

/-- A step that changes a channel or lands a result, by a scheduler that then owes a `notify`. -/
theorem Inv.change (h : Inv p) (hq : q.schedulers = Function.update p.schedulers i s)
    (hevents : q.events = p.events + 1) (hgen : q.generation = p.generation) (hsize : q.size = p.size)
    (hactive : q.active = p.active) (hparked : q.parked = p.parked) (hdead : q.deadlocked = p.deadlocked)
    (howes : s.owes) (hreg : s.registered = (p.schedulers i).registered)
    (hregp : (p.schedulers i).registered) (hseen : s.seen = (p.schedulers i).seen)
    (hsince : s.since = (p.schedulers i).since) (hmay : s.phase.mayOwe)
    (hpark : (p.schedulers i).phase.isParked = false) (hns : ¬ p.Stuck) : Inv q := by
  have hself : q.schedulers i = s := by rw [hq, Function.update_self]
  have howing : ∃ k, (q.schedulers k).owes := ⟨i, by rw [hself, howes]⟩
  have hm : Moves p q := ⟨hgen.ge, by omega, fun he => by omega, Or.inr (Or.inl howing)⟩
  have hearly := Phase.early_of_mayOwe hmay
  obtain ⟨-, -, hdec, hpk, -⟩ := Phase.of_early hearly
  have hok := h.scheduler i
  refine h.acts hq hm ?_ hsize hactive hparked hregp hreg (hpk.trans hpark.symm)
    (h.undecided hns hq hdead fun hd => absurd hd (by rw [hdec]; simp))
  apply SchedulerOk.early <;> rw [hself]
  · exact hearly
  · rw [hseen, hgen]
    exact hok.seen_le
  · rw [hsince, hevents]
    exact Nat.le_succ_of_le hok.since_le
  · exact fun _ _ => Or.inr howing
  · rw [hsince, hevents]
    exact fun _ _ _ => Nat.lt_succ_of_le hok.since_le
  · exact fun _ => hmay
  · exact hreg.trans hregp

theorem modify_ready (p : Process M) (i : Nat)
    (hlanded : (f (p.schedulers i)).landed = (p.schedulers i).landed) (w : Wait) :
    (p.modify i f).ready w = p.ready w := by
  cases w with
  | result j =>
    show ((p.modify i f).schedulers j).landed = (p.schedulers j).landed
    by_cases hj : j = i
    · rw [hj, modify_self, hlanded]
    · rw [modify_ne p f hj]
  | _ => rfl

theorem modify_pending (p : Process M) (i : Nat) (hin : (f (p.schedulers i)).inflight = (p.schedulers i).inflight)
    (htable : (f (p.schedulers i)).table = (p.schedulers i).table) : (p.modify i f).pending i = p.pending i := by
  unfold pending
  rw [modify_self, hin, htable]
  rfl

theorem StuckAt.modify (h : p.StuckAt i) (hreg : (f (p.schedulers i)).registered = (p.schedulers i).registered)
    (howes : (f (p.schedulers i)).owes = (p.schedulers i).owes)
    (hwaits : (f (p.schedulers i)).waits = (p.schedulers i).waits)
    (hlanded : (f (p.schedulers i)).landed = (p.schedulers i).landed)
    (hin : (f (p.schedulers i)).inflight = (p.schedulers i).inflight)
    (htable : (f (p.schedulers i)).table = (p.schedulers i).table) (hcalm : (f (p.schedulers i)).phase.calm) :
    (p.modify i f).StuckAt i := by
  intro hr
  rw [modify_self, hreg] at hr
  obtain ⟨_, ho, hw, hp⟩ := h hr
  rw [modify_self, howes, hwaits, modify_pending p i hin htable]
  exact ⟨hcalm, ho, fun w hmem => by rw [modify_ready p i hlanded]; exact hw w hmem, hp⟩

/-- What scheduler `i` knows when it goes on to phase `a`. -/
theorem SchedulerOk.goto (h : SchedulerOk p i) (hrun : (p.schedulers i).phase.running)
    (hset : a.settled → (p.schedulers i).phase.settled ∨ ∀ w ∈ (p.schedulers i).waits, w ∈ (p.schedulers i).tested)
    (hlate : a.late → (p.schedulers i).phase.late ∨ p.pending i)
    (hpush : ∀ c x b, a = .pushing c x b → (p.channels c).accepts)
    (howes : (p.schedulers i).owes → a.mayOwe) (hreg : (p.schedulers i).registered) : SchedulerOk (p.goto i a) i := by
  have hready := modify_ready p i (f := fun s => { s with phase := a }) rfl
  have hpending := modify_pending p i (f := fun s => { s with phase := a }) rfl rfl
  unfold Process.goto
  refine ⟨?_, ?_, ?_, ?_, ?_, ?_, ?_, ?_, ?_⟩
  · rw [modify_self]
    exact h.seen_le
  · rw [modify_self]
    exact h.since_le
  · rw [modify_self]
    intro _ hlt
    refine (h.fresh (Phase.of_running hrun).1 hlt).imp id fun ⟨k, hk⟩ => ⟨k, ?_⟩
    by_cases hki : k = i
    · rw [hki, modify_self]
      rw [hki] at hk
      exact hk
    · rw [modify_ne p _ hki]
      exact hk
  · rw [modify_self]
    intro w hw hr
    rw [hready] at hr
    exact h.tested w hw hr
  · rw [modify_self]
    exact fun ha => (hset ha).elim h.settled id
  · rw [modify_self, hpending]
    exact fun ha => (hlate ha).elim h.late Or.inl
  · rw [modify_self]
    exact fun c x b ha => Or.inl (hpush c x b ha)
  · rw [modify_self]
    exact howes
  · rw [modify_self]
    intro hr
    rw [show (p.schedulers i).registered = false from hr] at hreg
    exact absurd hreg (by simp)

theorem Inv.goto (h : Inv p) (hrun : (p.schedulers i).phase.running) (n : Nat)
    (hn : n = ({ p.goto i a with parked := n } : Process M).parkedSet.card)
    (hset : a.settled → (p.schedulers i).phase.settled ∨ ∀ w ∈ (p.schedulers i).waits, w ∈ (p.schedulers i).tested)
    (hlate : a.late → (p.schedulers i).phase.late ∨ p.pending i)
    (hpush : ∀ c x b, a = .pushing c x b → (p.channels c).accepts)
    (howes : (p.schedulers i).owes → a.mayOwe) (hcalm : p.deadlocked = false → p.Stuck → a.calm)
    (hdec : a.decided → p.deadlocked = false → p.Stuck) : Inv ({ p.goto i a with parked := n } : Process M) := by
  have hreg := h.registered_of_phase hrun
  refine h.local n rfl rfl rfl hn ((h.scheduler i).goto hrun hset hlate hpush howes hreg) (fun hd hst => ?_) hdec
  exact (hst i).modify rfl rfl rfl rfl rfl rfl (hcalm hd hst)

theorem Inv.go (h : Inv p) (hrun : (p.schedulers i).phase.running)
    (hpark : a.isParked = (p.schedulers i).phase.isParked)
    (hset : a.settled → (p.schedulers i).phase.settled ∨ ∀ w ∈ (p.schedulers i).waits, w ∈ (p.schedulers i).tested)
    (hlate : a.late → (p.schedulers i).phase.late ∨ p.pending i)
    (hpush : ∀ c x b, a = .pushing c x b → (p.channels c).accepts)
    (howes : (p.schedulers i).owes → a.mayOwe) (hcalm : p.deadlocked = false → p.Stuck → a.calm)
    (hdec : a.decided → p.deadlocked = false → p.Stuck) : Inv (p.goto i a) := by
  refine h.goto hrun p.parked ?_ hset hlate hpush howes hcalm hdec
  exact h.parked.trans (congrArg Finset.card (parkedSet_congr (p := p) (q := p.goto i a) rfl
    (modify_field p i (g := fun s => s.phase.isParked) hpark)).symm)

/-- A step to a phase in which nothing is known yet. -/
theorem Inv.goEarly (h : Inv p) (hrun : (p.schedulers i).phase.running)
    (hpark : (p.schedulers i).phase.isParked = false) (ha : a.early) (howes : (p.schedulers i).owes → a.mayOwe)
    (hcalm : p.deadlocked = false → p.Stuck → a.calm) : Inv (p.goto i a) := by
  obtain ⟨hset, hlate, hdec, hpk, hpush⟩ := Phase.of_early ha
  exact h.go hrun (hpk.trans hpark.symm) (fun hs => by simp [hset] at hs) (fun hl => by simp [hlate] at hl)
    (fun c x b heq => absurd heq (hpush c x b)) howes hcalm fun hd => by simp [hdec] at hd

theorem Inv.not_stuck (h : Inv p) (hrun : (p.schedulers i).phase.running)
    (hcalm : (p.schedulers i).phase.calm = false) : ¬ p.Stuck := by
  intro hst
  have := (hst i (h.registered_of_phase hrun)).1
  rw [hcalm] at this
  exact absurd this (by simp)

theorem Inv.not_stuck_of_owes (h : Inv p) (ho : (p.schedulers i).owes) : ¬ p.Stuck := by
  intro hst
  rw [(hst i (h.registered_of_owes ho)).2.1] at ho
  exact absurd ho (by simp)

theorem Inv.not_stuck_of_ready (h : Inv p) (hrun : (p.schedulers i).phase.running)
    (hw : w ∈ (p.schedulers i).waits) (hr : p.ready w) : ¬ p.Stuck := by
  intro hst
  rw [(hst i (h.registered_of_phase hrun)).2.2.1 w hw] at hr
  exact absurd hr (by simp)

/-- A step within a round that changes only the waits of the scheduler. -/
theorem Inv.polls (h : Inv p) (hrun : (p.schedulers i).phase.running) (hpark : (p.schedulers i).phase.isParked = false)
    (howes : (f (p.schedulers i)).owes = (p.schedulers i).owes)
    (hlanded : (f (p.schedulers i)).landed = (p.schedulers i).landed)
    (hreg : (f (p.schedulers i)).registered = (p.schedulers i).registered)
    (hseen : (f (p.schedulers i)).seen = (p.schedulers i).seen)
    (hsince : (f (p.schedulers i)).since = (p.schedulers i).since)
    (hphase : ∃ a b, (f (p.schedulers i)).phase = .polling a b)
    (htested : ∀ w ∈ (f (p.schedulers i)).tested, p.ready w → (p.schedulers i).since < p.events)
    (hstuck : p.Stuck → (p.modify i f).StuckAt i) : Inv (p.modify i f) := by
  obtain ⟨a, b, hphase⟩ := hphase
  have hok := h.scheduler i
  refine h.own howes hlanded hreg ?_ ?_ (fun _ => hstuck) ?_
  · rw [hphase, hpark]
    rfl
  · apply SchedulerOk.early <;> rw [modify_self]
    · rw [hphase]
      rfl
    · rw [hseen]
      exact hok.seen_le
    · rw [hsince]
      exact hok.since_le
    · rw [hseen, hsince]
      intro _ hlt
      refine (hok.fresh (Phase.of_running hrun).1 hlt).imp id fun ⟨k, hk⟩ => ⟨k, ?_⟩
      rwa [field_update (g := Scheduler.owes) (q := p.modify i f) rfl howes]
    · rw [hsince]
      intro w hw hr
      rw [modify_ready p i hlanded] at hr
      exact htested w hw hr
    · rw [hphase]
      exact fun _ => rfl
    · rw [hreg, h.registered_of_phase hrun]
  · rw [hphase]
    exact fun hd => absurd hd (by simp [Phase.decided])

theorem Inv.resume (h : Inv p) (hrun : (p.schedulers i).phase.running)
    (hpark : (p.schedulers i).phase.isParked = false) (w : Wait) (progressed : Bool) (hns : ¬ p.Stuck) :
    Inv (p.resume i w progressed) :=
  h.polls hrun hpark rfl rfl rfl rfl rfl ⟨progressed, true, rfl⟩ (h.scheduler i).tested fun hst => absurd hst hns

theorem Inv.note (h : Inv p) (hrun : (p.schedulers i).phase.running) (hpark : (p.schedulers i).phase.isParked = false)
    (hw : p.ready w → (p.schedulers i).since < p.events)
    (hstuck : p.Stuck → progressed = false) : Inv (p.note i w progressed) := by
  refine h.polls hrun hpark rfl rfl rfl rfl rfl ⟨progressed, false, rfl⟩ ?_ fun hst => ?_
  · intro w' hw' hr
    rcases List.mem_cons.mp hw' with rfl | hw'
    · exact hw hr
    · exact (h.scheduler i).tested w' hw' hr
  · refine (hst i).modify rfl rfl rfl rfl rfl rfl ?_
    rw [hstuck hst]
    rfl

theorem Inv.changes (h : Inv p) {i c : Nat} {channel : Channel M} {g : Scheduler → Scheduler}
    (hrun : (p.schedulers i).phase.running) (hpark : (p.schedulers i).phase.isParked = false) (hns : ¬ p.Stuck)
    (howes : ∀ s, (g s).owes = s.owes) (hreg : ∀ s, (g s).registered = s.registered) (hseen : ∀ s, (g s).seen = s.seen)
    (hsince : ∀ s, (g s).since = s.since) (hmay : (g { p.schedulers i with owes := true }).phase.mayOwe) :
    Inv ((p.change i c channel).modify i g) := by
  have hq : ((p.change i c channel).modify i g).schedulers =
      Function.update p.schedulers i (g { p.schedulers i with owes := true }) := by
    simp [Process.change, Process.modify]
  exact h.change hq rfl rfl rfl rfl rfl rfl (howes _) (hreg _) (h.registered_of_phase hrun) (hseen _) (hsince _) hmay
    hpark hns

/-- A round's poll of one task. -/
theorem Inv.test (h : Inv p)
    (hphase : (p.schedulers i).phase = .polling progressed false) (howes : (p.schedulers i).owes = false)
    (hw : w ∈ (p.schedulers i).waits) : Inv (p.test i w progressed) := by
  have hrun : (p.schedulers i).phase.running := by rw [hphase]; rfl
  have hpark : (p.schedulers i).phase.isParked = false := by rw [hphase]; rfl
  have hready : p.ready w → ¬ p.Stuck := h.not_stuck_of_ready hrun hw
  have hcalm : p.Stuck → progressed = false := by
    intro hst
    have := (hst i (h.registered_of_phase hrun)).1
    rw [hphase] at this
    cases progressed
    · rfl
    · exact absurd this (by simp [Phase.calm])
  have hfalse : p.ready w = false → p.ready w → (p.schedulers i).since < p.events := by
    intro hf hr
    rw [hf] at hr
    exact absurd hr (by simp)
  unfold Process.test
  cases w with
  | now => exact h.resume hrun hpark _ _ (hready rfl)
  | recv c =>
    simp only [Channel.tryRecv]
    cases hb : (p.channels c).buffer with
    | nil =>
      cases hcl : (p.channels c).closed with
      | true => exact h.resume hrun hpark _ _ (hready (by simp [Process.ready, hcl]))
      | false => exact h.note hrun hpark (hfalse (by simp [Process.ready, hb, hcl])) hcalm
    | cons m buffer =>
      have hns := hready (by simp [Process.ready, hb])
      exact h.changes hrun hpark hns (fun _ => rfl) (fun _ => rfl) (fun _ => rfl) (fun _ => rfl) rfl
  | send c phase =>
    have pushes : ∀ {a}, (p.channels c).sendAction phase = a → a = .deposit ∨ a = .deliverBuffered →
        Inv (p.goto i (.pushing c phase progressed)) := by
      intro a ha hpush
      have hns := hready (by rcases hpush with rfl | rfl <;> simp [Process.ready, ha])
      refine h.go hrun (by rw [hpark]; rfl) (fun hs => absurd hs (by simp [Phase.settled]))
        (fun hs => absurd hs (by simp [Phase.late])) ?_ ?_ (fun _ hst => absurd hst hns)
        (fun hd => absurd hd (by simp [Phase.decided]))
      · intro c' x b heq
        injection heq with h1
        rw [← h1]
        exact (Channel.sendAction_push ha hpush).1
      · intro ho
        rw [howes] at ho
        exact absurd ho (by simp)
    simp only
    cases ha : (p.channels c).sendAction phase with
    | closed => exact h.resume hrun hpark _ _ (hready (by simp [Process.ready, ha]))
    | complete => exact h.resume hrun hpark _ _ (hready (by simp [Process.ready, ha]))
    | park => exact h.note hrun hpark (hfalse (by simp [Process.ready, ha])) hcalm
    | deposit => exact pushes ha (by simp)
    | deliverBuffered => exact pushes ha (by simp)
  | result j =>
    simp only
    split_ifs with hl hj
    · have hns := hready hl
      have hin : Inv (p.modify i fun s => { s with inflight := s.inflight - 1 }) :=
        h.polls hrun hpark rfl rfl rfl rfl rfl ⟨progressed, false, hphase⟩ (h.scheduler i).tested
          fun hst => absurd hst hns
      have hphase' : ((p.modify i fun s => { s with inflight := s.inflight - 1 }).schedulers i).phase =
          .polling progressed false := by
        rw [modify_self]
        exact hphase
      have hrun' : ((p.modify i fun s => { s with inflight := s.inflight - 1 }).schedulers i).phase.running := by
        rw [hphase']
        rfl
      refine hin.resume hrun' (by rw [hphase']; rfl) _ _ (hin.not_stuck_of_ready (w := .result j) hrun' ?_ ?_)
      · rw [modify_self]
        exact hw
      · rw [modify_ready p i (f := fun s => { s with inflight := s.inflight - 1 }) rfl]
        exact hl
    · exact h
    · exact h.note hrun hpark (hfalse (by simpa [Process.ready] using hl)) hcalm

theorem Inv.tryPush (h : Inv p) {i c : Nat} {phase : SendPhase}
    (hphase : (p.schedulers i).phase = .pushing c phase progressed) (message : M) :
    Inv (p.tryPush i c phase progressed message) := by
  have hrun : (p.schedulers i).phase.running := by rw [hphase]; rfl
  have hpark : (p.schedulers i).phase.isParked = false := by rw [hphase]; rfl
  have hns : ¬ p.Stuck := h.not_stuck hrun (by rw [hphase]; rfl)
  unfold Process.tryPush
  split_ifs with hacc hcap
  · exact h.changes hrun hpark hns (fun _ => rfl) (fun _ => rfl) (fun _ => rfl) (fun _ => rfl) rfl
  · exact h.changes hrun hpark hns (fun _ => rfl) (fun _ => rfl) (fun _ => rfl) (fun _ => rfl) rfl
  · -- the channel accepted when the send was decided on, so it has changed since
    refine h.note hrun hpark (fun _ => ?_) fun hst => absurd hst hns
    exact ((h.scheduler i).pushing c phase progressed hphase).resolve_left hacc

theorem Inv.snapshot (h : Inv p) (hphase : (p.schedulers i).phase = .start) : Inv (p.modify i fun s =>
      { s with phase := .polling false false, seen := p.generation, since := p.events, tested := [] }) := by
  have hreg := h.registered_of_ne (i := i) (by rw [hphase]; simp)
  refine h.own rfl rfl rfl (by rw [hphase]; rfl) ?_ (fun _ hst => ?_) (fun hd => absurd hd (by simp [Phase.decided]))
  · apply SchedulerOk.early <;> rw [modify_self]
    · rfl
    · exact le_rfl
    · exact le_rfl
    · exact fun _ hlt => absurd hlt (Nat.lt_irrefl _)
    · exact fun w hw => absurd hw List.not_mem_nil
    · exact fun _ => rfl
    · exact hreg
  · exact (hst i).modify rfl rfl rfl rfl rfl rfl rfl

theorem Inv.notify (h : Inv p) (ho : (p.schedulers i).owes) :
    Inv ({ p.modify i fun s => { s with owes := false } with generation := p.generation + 1 } : Process M) := by
  have hland := modify_field p i (f := fun s => { s with owes := false }) (g := Scheduler.landed) rfl
  have hm : Moves p { p.modify i fun s => { s with owes := false } with generation := p.generation + 1 } :=
    ⟨Nat.le_succ _, le_rfl, fun _ => ⟨rfl, hland⟩, Or.inr (Or.inr (Nat.lt_succ_self _))⟩
  have hown := (h.scheduler i).settle hm (modify_self p i fun s => { s with owes := false }) (by simp)
  exact h.acts (i := i) rfl hm hown rfl rfl rfl (h.registered_of_owes ho) rfl rfl
    (h.undecided (h.not_stuck_of_owes ho) rfl rfl id)

theorem Inv.finish (h : Inv p) (hrun : (p.schedulers i).phase.running)
    (hcalm : (p.schedulers i).phase.calm = false) (hpark : (p.schedulers i).phase.isParked = false) :
    Inv ({ p.modify i fun s => { s with phase := .stopped, landed := true, owes := true, waits := [] } with
      events := p.events + 1 } : Process M) :=
  h.change (i := i) rfl rfl rfl rfl rfl rfl rfl rfl rfl (h.registered_of_phase hrun) rfl rfl rfl hpark
    (h.not_stuck hrun hcalm)

theorem Inv.latch (h : Inv p) (hphase : (p.schedulers i).phase = .latching) :
    Inv ({ p.modify i fun s => { s with phase := .ending, owes := true } with deadlocked := true } : Process M) := by
  have hself := modify_self p i fun s => { s with phase := .ending, owes := true }
  have hok := h.scheduler i
  have hreg := h.registered_of_phase (i := i) (by rw [hphase]; rfl)
  have howes : ∃ k, ((p.modify i fun s => { s with phase := .ending, owes := true }).schedulers k).owes :=
    ⟨i, by rw [hself]⟩
  have hland := modify_field p i (f := fun s => { s with phase := .ending, owes := true }) (g := Scheduler.landed) rfl
  have hm : Moves p { p.modify i fun s => { s with phase := .ending, owes := true } with deadlocked := true } :=
    ⟨le_rfl, le_rfl, fun _ => ⟨rfl, hland⟩, Or.inr (Or.inl howes)⟩
  refine h.acts (i := i) rfl hm ?_ rfl rfl rfl hreg rfl (by rw [hphase]; rfl) (fun hd => absurd hd (by simp))
  apply SchedulerOk.early <;> rw [hself]
  · rfl
  · exact hok.seen_le
  · exact hok.since_le
  · exact fun _ _ => Or.inr howes
  · intro w hw hr
    rw [hm.ready rfl] at hr
    exact hok.tested w hw hr
  · exact fun _ => rfl
  · exact hreg

theorem Inv.reap (h : Inv p) (hphase : (p.schedulers i).phase = .stopped)
    (howes : (p.schedulers i).owes = false) (hreg : (p.schedulers i).registered) :
    Inv ({ p.modify i fun s => { s with registered := false } with
      active := p.active - 1
      deadlocked := if p.active = 1 then false else p.deadlocked } : Process M) := by
  obtain ⟨q, hq⟩ : ∃ q : Process M, q = { p.modify i fun s => { s with registered := false } with
      active := p.active - 1
      deadlocked := if p.active = 1 then false else p.deadlocked } := ⟨_, rfl⟩
  rw [← hq]
  have hupd : q.schedulers = Function.update p.schedulers i { p.schedulers i with registered := false } := by
    rw [hq]
    rfl
  have hothers : ∀ k, k ≠ i → q.schedulers k = p.schedulers k := fun k hk => by rw [hupd, Function.update_of_ne hk]
  have hself : q.schedulers i = { p.schedulers i with registered := false } := by rw [hupd, Function.update_self]
  have hsize : q.size = p.size := by rw [hq]; rfl
  have hevents : q.events = p.events := by rw [hq]; rfl
  have howing := field_update (g := Scheduler.owes) hupd rfl
  have hm : Moves p q :=
    ⟨by rw [hq]; exact le_rfl, hevents.ge, fun _ => ⟨by rw [hq]; rfl, field_update (g := Scheduler.landed) hupd rfl⟩,
      Or.inl ⟨hevents, by rw [hq]; rfl, howing⟩⟩
  have hset : q.registeredSet = p.registeredSet.erase i := by
    ext k
    unfold registeredSet
    rw [Finset.mem_erase, Finset.mem_filter, Finset.mem_filter, hsize]
    by_cases hk : k = i
    · rw [hk, hself]
      simp
    · rw [hothers k hk]
      simp [hk]
  have hmem : i ∈ p.registeredSet := by
    unfold registeredSet
    rw [Finset.mem_filter, Finset.mem_range]
    exact ⟨h.range i hreg, hreg⟩
  have hactive : q.active = q.registeredSet.card := by
    rw [hset, Finset.card_erase_of_mem hmem, ← h.active, hq]
  have hrange : ∀ j, (q.schedulers j).registered → j < q.size := by
    intro j hj
    rw [hsize]
    by_cases hji : j = i
    · rw [hji]
      exact h.range i hreg
    · rw [hothers j hji] at hj
      exact h.range j hj
  have hsched : ∀ j, SchedulerOk q j := by
    intro j
    by_cases hji : j = i
    · rw [hji]
      have hok := h.scheduler i
      refine ⟨?_, ?_, ?_, ?_, ?_, ?_, ?_, ?_, ?_⟩ <;> rw [hself]
      · exact hok.seen_le.trans hm.generation
      · exact hok.since_le.trans hm.events
      · intro hs hlt
        rw [hevents] at hlt
        refine (hok.fresh hs hlt).imp (fun hg => hg.trans_le hm.generation) fun ⟨k, hk⟩ => ⟨k, ?_⟩
        rwa [howing]
      · intro w hw hr
        rw [hm.ready hevents] at hr
        exact (hok.tested w hw hr).trans_le hm.events
      · exact fun hs => absurd hs (by simp [hphase, Phase.settled])
      · exact fun hs => absurd hs (by simp [hphase, Phase.late])
      · exact fun c x y hp => absurd hp (by simp [hphase])
      · exact fun _ => by simp [hphase, Phase.mayOwe]
      · exact fun _ => ⟨hphase, howes⟩
    · exact (h.scheduler j).frame hm (hothers j hji)
  refine ⟨hsched, hrange, fun j hj => ?_, hactive, ?_, fun hd j hj => ?_⟩
  · rw [field_update (g := Scheduler.landed) hupd rfl]
    exact h.unused j (hsize ▸ hj)
  · rw [parkedSet_congr hsize (field_update (g := fun s => s.phase.isParked) hupd rfl), ← h.parked, hq]
    rfl
  · have hji : j ≠ i := by
      rintro rfl
      rw [hself, hphase] at hj
      exact absurd hj (by simp [Phase.decided])
    have hjr : (q.schedulers j).registered := by
      by_contra hn
      rw [((hsched j).idle (by simpa using hn)).1] at hj
      exact absurd hj (by simp [Phase.decided])
    by_cases hone : p.active = 1
    · -- the last slot: no other scheduler is registered
      have hzero : q.registeredSet = ∅ := by
        rw [← Finset.card_eq_zero, ← hactive, hq]
        exact Nat.sub_eq_zero_of_le hone.le
      have hjmem : j ∈ q.registeredSet := by
        unfold registeredSet
        rw [Finset.mem_filter, Finset.mem_range]
        exact ⟨hrange j hjr, hjr⟩
      rw [hzero] at hjmem
      exact absurd hjmem (Finset.notMem_empty j)
    · have hd' : p.deadlocked = false := by
        rw [hq] at hd
        simpa [hone] using hd
      rw [hothers j hji] at hj
      have := (h.verdict hd' j hj i hreg).1
      rw [hphase] at this
      exact absurd this (by simp [Phase.calm])

theorem Inv.spawn (h : Inv p)
    (hphase : (p.schedulers i).phase = .polling progressed true) (waits : List Wait) (table : List Nat) :
    Inv (p.step (.spawn i waits table)) := by
  have hrun : (p.schedulers i).phase.running := by rw [hphase]; rfl
  have hns : ¬ p.Stuck := h.not_stuck hrun (by rw [hphase]; cases progressed <;> rfl)
  have hreg := h.registered_of_phase hrun
  have hne : p.size ≠ i := (h.range i hreg).ne'
  -- the count of workers in flight is the spawner's own record
  have h₁ : Inv (p.modify i fun s => { s with inflight := s.inflight + 1 }) :=
    h.polls hrun (by rw [hphase]; rfl) rfl rfl rfl rfl rfl ⟨progressed, true, hphase⟩
      (h.scheduler i).tested fun hst => absurd hst hns
  have hns₁ : ¬ (p.modify i fun s => { s with inflight := s.inflight + 1 }).Stuck := by
    have hphase₁ : ((p.modify i fun s => { s with inflight := s.inflight + 1 }).schedulers i).phase =
        .polling progressed true := by
      rw [modify_self]
      exact hphase
    exact h₁.not_stuck (i := i) (by rw [hphase₁]; rfl) (by rw [hphase₁]; cases progressed <;> rfl)
  obtain ⟨p₁, hp₁⟩ : ∃ p₁, p₁ = p.modify i fun s => { s with inflight := s.inflight + 1 } := ⟨_, rfl⟩
  obtain ⟨q, hq⟩ : ∃ q : Process M, q = { p₁ with
      schedulers := Function.update p₁.schedulers p₁.size { phase := .start, waits, table, registered := true }
      size := p₁.size + 1
      active := p₁.active + 1 } := ⟨_, rfl⟩
  have hstep : p.step (.spawn i waits table) = q := by
    unfold Process.step
    simp only [hphase]
    rw [hq, hp₁]
  rw [hstep]
  rw [← hp₁] at h₁ hns₁
  have hupd : q.schedulers = Function.update p₁.schedulers p₁.size { phase := .start, waits, table, registered := true } :=
    by rw [hq]
  have hothers : ∀ k, k ≠ p₁.size → q.schedulers k = p₁.schedulers k := fun k hk => by rw [hupd, Function.update_of_ne hk]
  have hself : q.schedulers p₁.size = { phase := .start, waits, table, registered := true } := by
    rw [hupd, Function.update_self]
  have hsize : q.size = p₁.size + 1 := by rw [hq]
  have hnew : (p₁.schedulers p₁.size).registered = false := by
    by_contra hn
    exact absurd (h₁.range p₁.size (by simpa using hn)) (Nat.lt_irrefl _)
  obtain ⟨hstopped, howes⟩ := (h₁.scheduler p₁.size).idle hnew
  have hlanded := h₁.unused p₁.size le_rfl
  have hm : Moves p₁ q :=
    ⟨by rw [hq], by rw [hq], fun _ => ⟨by rw [hq], field_update (g := Scheduler.landed) hupd hlanded.symm⟩,
      Or.inl ⟨by rw [hq], by rw [hq], field_update (g := Scheduler.owes) hupd howes.symm⟩⟩
  refine ⟨fun j => ?_, fun j hj => ?_, fun j hj => ?_, ?_, ?_, fun hd j hj => ?_⟩
  · by_cases hj : j = p₁.size
    · rw [hj]
      apply SchedulerOk.early <;> rw [hself]
      · rfl
      · exact Nat.zero_le _
      · exact Nat.zero_le _
      · exact fun hs => absurd rfl hs
      · exact fun w hw => absurd hw List.not_mem_nil
      · exact fun ho => absurd ho (by simp)
    · exact (h₁.scheduler j).frame hm (hothers j hj)
  · rw [hsize]
    by_cases hjs : j = p₁.size
    · omega
    · rw [hothers j hjs] at hj
      exact Nat.lt_succ_of_lt (h₁.range j hj)
  · rw [hsize] at hj
    rw [hothers j (by omega)]
    exact h₁.unused j (by omega)
  · have hset : q.registeredSet = insert p₁.size p₁.registeredSet := by
      ext k
      unfold registeredSet
      rw [hsize, Finset.mem_insert, Finset.mem_filter, Finset.mem_filter,
        Finset.mem_range, Finset.mem_range]
      by_cases hk : k = p₁.size
      · rw [hk, hself]
        simp
      · rw [hothers k hk]
        have : k < p₁.size + 1 ↔ k < p₁.size := by omega
        simp [hk, this]
    have hnot : p₁.size ∉ p₁.registeredSet := by
      unfold registeredSet
      simp
    rw [hset, Finset.card_insert_of_notMem hnot, ← h₁.active, hq]
  · have hset : q.parkedSet = p₁.parkedSet := by
      ext k
      unfold parkedSet
      rw [hsize, Finset.mem_filter, Finset.mem_filter, Finset.mem_range, Finset.mem_range]
      by_cases hk : k = p₁.size
      · rw [hk, hself]
        simp [Phase.isParked]
      · rw [hothers k hk]
        have : k < p₁.size + 1 ↔ k < p₁.size := by omega
        simp [this]
    rw [hset, ← h₁.parked, hq]
  · have hjs : j ≠ p₁.size := by
      rintro rfl
      rw [hself] at hj
      exact absurd hj (by simp [Phase.decided])
    rw [hothers j hjs] at hj
    rw [show q.deadlocked = p₁.deadlocked by rw [hq]] at hd
    exact absurd (h₁.verdict hd j hj) hns₁

theorem parkedSet_goto (p : Process M) (hi : i < p.size) (a : Phase) (n : Nat) :
    ({ p.goto i a with parked := n } : Process M).parkedSet =
      if a.isParked then insert i p.parkedSet else p.parkedSet.erase i := by
  ext k
  have hk : ∀ k, ({ p.goto i a with parked := n } : Process M).schedulers k =
      if k = i then { p.schedulers i with phase := a } else p.schedulers k := by
    intro k
    show (p.goto i a).schedulers k = _
    unfold Process.goto
    split_ifs with hki
    · rw [hki, modify_self]
    · rw [modify_ne p _ hki]
  unfold parkedSet
  rw [Finset.mem_filter, hk]
  show k ∈ Finset.range p.size ∧ _ ↔ _
  by_cases hki : k = i
  · rw [if_pos hki, hki]
    cases ha : a.isParked <;> simp [hi]
  · rw [if_neg hki]
    cases ha : a.isParked <;> simp [hki]

theorem Inv.owes_nothing (h : Inv p) (hmay : (p.schedulers i).phase.mayOwe = false) : (p.schedulers i).owes → a.mayOwe := by
  intro ho
  rw [(h.scheduler i).owes ho] at hmay
  exact absurd hmay (by simp)

theorem Inv.parkedGo (h : Inv p) (hp : (p.schedulers i).phase.isParked)
    (ha : a.isParked) (hdec : a.decided → p.deadlocked = false → p.Stuck) : Inv (p.goto i a) := by
  obtain ⟨hset, hlate, -, hrun⟩ := Phase.settled_of_isParked hp
  refine h.go hrun (by rw [ha, hp]) (fun _ => Or.inl hset) (fun _ => Or.inl hlate) ?_
    (h.owes_nothing (Phase.mayOwe_of_isParked hp)) (fun _ _ => (Phase.settled_of_isParked ha).2.2.1) hdec
  rintro c x b rfl
  simp [Phase.isParked] at ha

theorem Inv.step (h : Inv p) {op : Op M} (ha : p.Awake op) : Inv (p.step op) := by
  cases op with
  | snapshot i =>
    simp only [Process.step]
    split
    · rename_i hphase
      exact h.snapshot hphase
    · exact h
  | test i w =>
    simp only [Process.step]
    split
    · rename_i progressed hphase
      split_ifs with hg
      · exact h.test hphase hg.1 hg.2
      · exact h
    · exact h
  | push i message =>
    simp only [Process.step]
    split
    · rename_i c phase progressed hphase
      exact h.tryPush hphase message
    · exact h
  | unshippable i =>
    simp only [Process.step]
    split
    · rename_i c phase progressed hphase
      exact h.resume (by rw [hphase]; rfl) (by rw [hphase]; rfl) _ _
        (h.not_stuck (i := i) (by rw [hphase]; rfl) (by rw [hphase]; rfl))
    · exact h
  | notify i =>
    simp only [Process.step]
    split_ifs with ho
    · exact h.notify ho
    · exact h
  | close i c =>
    simp only [Process.step]
    split
    · rename_i progressed hphase
      split_ifs
      · exact h
      · have hns := h.not_stuck (i := i) (by rw [hphase]; rfl) (by rw [hphase]; cases progressed <;> rfl)
        exact h.change (i := i) rfl rfl rfl rfl rfl rfl rfl rfl rfl (h.registered_of_phase (by rw [hphase]; rfl)) rfl rfl
          (by rw [hphase]; rfl) (by rw [hphase]; rfl) hns
    · exact h
  | add i w =>
    simp only [Process.step]
    split
    · rename_i progressed hphase
      have hns := h.not_stuck (i := i) (by rw [hphase]; rfl) (by rw [hphase]; cases progressed <;> rfl)
      exact h.polls (by rw [hphase]; rfl) (by rw [hphase]; rfl) rfl rfl rfl rfl rfl
        ⟨progressed, true, hphase⟩ (h.scheduler i).tested fun hst => absurd hst hns
    · exact h
  | spawn i waits table =>
    cases hphase : (p.schedulers i).phase with
    | polling progressed running =>
      cases running with
      | true => exact h.spawn hphase waits table
      | false =>
        simp only [Process.step, hphase]
        exact h
    | _ =>
      simp only [Process.step, hphase]
      exact h
  | rest i =>
    simp only [Process.step]
    split
    · rename_i progressed hphase
      have hns := h.not_stuck (i := i) (by rw [hphase]; rfl) (by rw [hphase]; cases progressed <;> rfl)
      exact h.goEarly (by rw [hphase]; rfl) (by rw [hphase]; rfl) rfl (fun _ => rfl) fun _ hst => absurd hst hns
    · exact h
  | finish i =>
    simp only [Process.step]
    split_ifs with hg
    · rcases hg.1 with hphase | ⟨progressed, hphase⟩
      · exact h.finish (by rw [hphase]; rfl) (by rw [hphase]; rfl) (by rw [hphase]; rfl)
      · exact h.finish (by rw [hphase]; rfl) (by rw [hphase]; cases progressed <;> rfl) (by rw [hphase]; rfl)
    · exact h
  | endRound i =>
    simp only [Process.step]
    split
    · rename_i progressed hphase
      split_ifs with ho hp hall
      · exact h
      · exact h.goEarly (by rw [hphase]; rfl) (by rw [hphase]; rfl) rfl (fun ho' => absurd ho' ho) fun _ _ => rfl
      · exact h.go (by rw [hphase]; rfl) (by rw [hphase]; rfl) (fun _ => Or.inr hall)
          (fun hs => absurd hs (by simp [Phase.late])) (by simp)
          (fun ho' => absurd ho' ho) (fun _ _ => rfl) (fun hd => absurd hd (by simp [Phase.decided]))
      · exact h
    · exact h
  | again i =>
    simp only [Process.step]
    split
    · rename_i hphase
      exact h.goEarly (by rw [hphase]; rfl) (by rw [hphase]; rfl) rfl (h.owes_nothing (by rw [hphase]; rfl)) fun _ _ => rfl
    · exact h
  | assess i =>
    simp only [Process.step]
    split
    · rename_i hphase
      split_ifs with hp
      · exact h.go (by rw [hphase]; rfl) (by rw [hphase]; rfl)
          (fun _ => Or.inl (by rw [hphase]; rfl)) (fun _ => Or.inr hp) (by simp)
          (h.owes_nothing (by rw [hphase]; rfl)) (fun _ _ => rfl) (fun hd => absurd hd (by simp [Phase.decided]))
      · refine h.goEarly (by rw [hphase]; rfl) (by rw [hphase]; rfl) rfl (fun _ => rfl) fun _ hst => ?_
        exact absurd (hst i (h.registered_of_phase (by rw [hphase]; rfl))).2.2.2 hp
    · exact h
  | heed i =>
    simp only [Process.step]
    split
    · rename_i hphase
      split_ifs with hd
      · exact h.goEarly (by rw [hphase]; rfl) (by rw [hphase]; rfl) rfl (fun _ => rfl)
          fun hd' => absurd hd (by rw [hd']; simp)
      · exact h.go (by rw [hphase]; rfl) (by rw [hphase]; rfl)
          (fun _ => Or.inl (by rw [hphase]; rfl)) (fun _ => Or.inl (by rw [hphase]; rfl)) (by simp)
          (h.owes_nothing (by rw [hphase]; rfl)) (fun _ _ => rfl) (fun hd => absurd hd (by simp [Phase.decided]))
    · exact h
  | park i =>
    simp only [Process.step]
    split
    · rename_i hphase
      have hi := h.range i (h.registered_of_phase (by rw [hphase]; rfl))
      refine h.goto (by rw [hphase]; rfl) (p.parked + 1) ?_
        (fun _ => Or.inl (by rw [hphase]; rfl)) (fun _ => Or.inl (by rw [hphase]; rfl)) (by simp)
        (h.owes_nothing (by rw [hphase]; rfl)) (fun _ _ => rfl) (fun hd => absurd hd (by simp [Phase.decided]))
      have hnot : i ∉ p.parkedSet := by
        unfold parkedSet
        rw [Finset.mem_filter, hphase]
        simp [Phase.isParked]
      rw [parkedSet_goto p hi, if_pos (show (Phase.parking _).isParked = true from rfl),
        Finset.card_insert_of_notMem hnot, h.parked]
    · exact h
  | compare i =>
    simp only [Process.step]
    split
    · rename_i parked hphase
      exact h.parkedGo (by rw [hphase]; rfl) rfl (fun hd => absurd hd (by simp [Phase.decided]))
    · exact h
  | wake i | check i =>
    simp only [Process.step]
    split
    · rename_i all hphase
      exact h.parkedGo (by rw [hphase]; rfl) rfl (fun hd => absurd hd (by simp [Phase.decided]))
    · exact h
  | judge i =>
    simp only [Process.step]
    split
    · rename_i all progressed hphase
      refine h.parkedGo (by rw [hphase]; rfl) (by split_ifs <;> rfl) fun hd hf => ?_
      rw [if_neg (by rw [hf]; simp)] at hd
      split_ifs at hd <;> exact absurd hd (by simp [Phase.decided])
    · exact h
  | vote i =>
    simp only [Process.step]
    split
    · rename_i hphase
      exact h.parkedGo (by rw [hphase]; rfl) rfl (fun hd => absurd hd (by simp [Phase.decided]))
    · exact h
  | count i =>
    simp only [Process.step]
    split
    · rename_i n hphase
      refine h.parkedGo (by rw [hphase]; rfl) rfl fun hd _ => ?_
      obtain ⟨hpos, hle⟩ : 0 < n ∧ n ≤ p.parked := by
        by_contra hn
        have hfalse : (decide (0 < n) && decide (n ≤ p.parked)) = false := by simpa using hn
        rw [hfalse] at hd
        exact absurd hd (by simp [Phase.decided])
      obtain ⟨hact, hseen⟩ := ha i n rfl hphase hpos hle
      exact h.stuck (hact ▸ hle) hseen
    · exact h
  | unpark i =>
    simp only [Process.step]
    split
    · rename_i verdict hphase
      have hi := h.range i (h.registered_of_phase (by rw [hphase]; rfl))
      have hmem : i ∈ p.parkedSet := by
        unfold parkedSet
        rw [Finset.mem_filter, hphase, Finset.mem_range]
        exact ⟨hi, rfl⟩
      have hn : ∀ a : Phase, a.isParked = false →
          p.parked - 1 = ({ p.goto i a with parked := p.parked - 1 } : Process M).parkedSet.card := by
        intro a hpark
        rw [parkedSet_goto p hi, hpark, if_neg (by simp), Finset.card_erase_of_mem hmem, h.parked]
      cases verdict with
      | true =>
        refine h.goto (by rw [hphase]; rfl) _ (hn _ rfl)
          (fun _ => Or.inl (by rw [hphase]; rfl)) (fun _ => Or.inl (by rw [hphase]; rfl)) (by simp)
          (h.owes_nothing (by rw [hphase]; rfl)) (fun _ _ => rfl) fun _ hd => ?_
        exact h.verdict hd i (by rw [hphase]; rfl)
      | false =>
        exact h.goto (by rw [hphase]; rfl) _ (hn _ rfl)
          (fun hs => absurd hs (by simp [Phase.settled])) (fun hs => absurd hs (by simp [Phase.late])) (by simp)
          (h.owes_nothing (by rw [hphase]; rfl)) (fun _ _ => rfl) (fun hd => absurd hd (by simp [Phase.decided]))
    · exact h
  | latch i =>
    simp only [Process.step]
    split
    · rename_i hphase
      exact h.latch hphase
    · exact h
  | reap i =>
    simp only [Process.step]
    split
    · rename_i hg
      exact h.reap hg.1 hg.2.1 hg.2.2
    · exact h

/-! ### Runs -/

theorem initial_schedulers (channels : Nat → Channel M) (schedulers : List (List Wait × List Nat)) (j : Nat) :
    (j < schedulers.length ∧ ∃ waits table, (Process.initial channels schedulers).schedulers j =
      { phase := .start, waits, table, registered := true }) ∨
    (¬ j < schedulers.length ∧ (Process.initial channels schedulers).schedulers j = {}) := by
  by_cases hj : j < schedulers.length
  · refine Or.inl ⟨hj, schedulers[j].1, schedulers[j].2, ?_⟩
    simp only [Process.initial, List.getElem?_eq_getElem hj]
  · refine Or.inr ⟨hj, ?_⟩
    simp only [Process.initial, List.getElem?_eq_none (Nat.le_of_not_lt hj)]

theorem Inv.initial (channels : Nat → Channel M) (schedulers : List (List Wait × List Nat)) :
    Inv (Process.initial channels schedulers) := by
  have hcases := initial_schedulers channels schedulers
  have hsize : (Process.initial channels schedulers).size = schedulers.length := rfl
  have hactive : (Process.initial channels schedulers).active = schedulers.length := rfl
  have hparked : (Process.initial channels schedulers).parked = 0 := rfl
  have hevents : (Process.initial channels schedulers).events = 0 := rfl
  generalize Process.initial channels schedulers = p at *
  refine ⟨fun j => ?_, fun j hj => ?_, fun j hj => ?_, ?_, ?_, fun _ j hj => ?_⟩
  · rcases hcases j with ⟨_, waits, table, h⟩ | ⟨_, h⟩ <;> constructor <;> rw [h] <;>
      simp [Phase.settled, Phase.late, hevents]
  · rcases hcases j with ⟨hlt, _⟩ | ⟨_, h⟩
    · rw [hsize]
      exact hlt
    · rw [h] at hj
      exact absurd hj (by simp)
  · rcases hcases j with ⟨hlt, _⟩ | ⟨_, h⟩
    · omega
    · rw [h]
  · have hall : ∀ j ∈ Finset.range p.size, (p.schedulers j).registered = true := by
      intro j hj
      rw [Finset.mem_range, hsize] at hj
      rcases hcases j with ⟨_, waits, table, h⟩ | ⟨hn, _⟩
      · rw [h]
      · exact absurd hj hn
    rw [registeredSet, Finset.filter_true_of_mem hall, Finset.card_range, hactive, hsize]
  · have hnone : ∀ j ∈ Finset.range p.size, ¬ (p.schedulers j).phase.isParked = true := by
      intro j _
      rcases hcases j with ⟨_, waits, table, h⟩ | ⟨_, h⟩ <;> rw [h] <;> simp [Phase.isParked]
    rw [parkedSet, Finset.filter_false_of_mem hnone, hparked, Finset.card_empty]
  · rcases hcases j with ⟨_, waits, table, h⟩ | ⟨_, h⟩ <;> rw [h] at hj <;> simp [Phase.decided] at hj

/-- The states of the runs from schedulers that are about to start, every step of which meets `P`. -/
inductive Reachable (P : Process M → Op M → Prop) (channels : Nat → Channel M)
    (schedulers : List (List Wait × List Nat)) : Process M → Prop
  | init : Reachable P channels schedulers (Process.initial channels schedulers)
  | step {p : Process M} {op : Op M} : Reachable P channels schedulers p → P p op →
    Reachable P channels schedulers (p.step op)

theorem Reachable.foldl {P : Process M → Op M → Prop} {channels : Nat → Channel M}
    {schedulers : List (List Wait × List Nat)} (ops : List (Op M)) (hP : ∀ op ∈ ops, ∀ p, P p op)
    (h : Reachable P channels schedulers p) : Reachable P channels schedulers (ops.foldl Process.step p) := by
  induction ops generalizing p with
  | nil => exact h
  | cons op ops ih =>
    exact ih (fun o ho => hP o (List.mem_cons_of_mem _ ho)) (h.step (hP op List.mem_cons_self p))

theorem Reachable.inv {channels : Nat → Channel M} {schedulers : List (List Wait × List Nat)}
    (h : Reachable Awake channels schedulers p) : Inv p := by
  induction h with
  | init => exact Inv.initial channels schedulers
  | step _ ha ih => exact ih.step ha

/-- Only `latch` raises the flag, and whoever is there has decided. -/
theorem latching_of_raised {op : Op M} (hn : p.deadlocked = false)
    (hl : (p.step op).deadlocked = true) : ∃ i, op = .latch i ∧ (p.schedulers i).phase = .latching := by
  have hkeep : ∀ q : Process M, q.deadlocked = p.deadlocked → q.deadlocked ≠ true := by
    intro q hq
    rw [hq, hn]
    simp
  cases op with
  | latch i =>
    refine ⟨i, rfl, ?_⟩
    by_contra hphase
    simp only [Process.step] at hl
    exact hkeep p rfl hl
  | test i w =>
    refine absurd hl (hkeep _ ?_)
    simp only [Process.step, Process.test]
    repeat' split
    all_goals rfl
  | push i message =>
    refine absurd hl (hkeep _ ?_)
    simp only [Process.step, Process.tryPush]
    repeat' split
    all_goals rfl
  | reap i =>
    simp only [Process.step] at hl
    split at hl
    · split_ifs at hl
      exact absurd hl (hkeep _ rfl)
    · exact absurd hl (hkeep _ rfl)
  | _ =>
    refine absurd hl (hkeep _ ?_)
    simp only [Process.step]
    repeat' split
    all_goals rfl

/-- A scheduler could make progress: something one of its tasks waits for is there. -/
def CouldProgress (p : Process M) (j : Nat) : Prop :=
  (p.schedulers j).registered ∧ ∃ w ∈ (p.schedulers j).waits, p.ready w

/-- When the deadlock is latched, no registered scheduler has a poll that could make progress. -/
theorem latches_only_deadlocks (channels : Nat → Channel M) (schedulers : List (List Wait × List Nat))
    {p : Process M} (h : Reachable Awake channels schedulers p) {op : Op M} (hn : p.deadlocked = false)
    (hl : (p.step op).deadlocked = true) (j : Nat) : ¬ p.CouldProgress j := by
  obtain ⟨i, _, hphase⟩ := latching_of_raised hn hl
  have hstuck := h.inv.verdict hn i (by rw [hphase]; rfl)
  rintro ⟨hr, w, hw, hready⟩
  rw [(hstuck j hr).2.2.1 w hw] at hready
  exact absurd hready (by simp)

/-- The steps of a scheduler that finds `w` not ready, up to its wait. -/
def parks (i : Nat) (w : Wait) : List (Op Nat) :=
  [.snapshot i, .test i w, .endRound i, .assess i, .heed i, .park i, .compare i]

/-- A parked scheduler times out and takes the vote, up to the second read. -/
def votes (i : Nat) : List (Op Nat) := [.wake i, .check i, .judge i, .vote i]

def open₁ : Nat → Channel Nat := fun _ => { backing := .shared, capacity := 1 }

/-- Two schedulers that wait for messages from each other. -/
def crossed : Process Nat :=
  (parks 0 (.recv 0) ++ parks 1 (.recv 1) ++ votes 1).foldl Process.step
    (.initial open₁ [([.recv 0], [0, 1]), ([.recv 1], [0, 1])])

theorem crossed_latches :
    let p := (crossed.step (.count 1)).step (.unpark 1)
    p.deadlocked = false ∧ (p.step (.latch 1)).deadlocked = true ∧ ∀ j, ¬ p.CouldProgress j := by
  intro p
  have hrun : Reachable Awake open₁ [([.recv 0], [0, 1]), ([.recv 1], [0, 1])] crossed := by
    refine Reachable.foldl _ (fun op hop p i n hc => ?_) .init
    subst hc
    revert hop
    simp [parks, votes]
  have hcount : Awake crossed (.count 1) := by
    intro i n hc hphase _ _
    have hi : 1 = i := Op.count.inj hc
    subst hi
    have hn : Phase.counting 2 = .counting n := hphase
    refine ⟨(Phase.counting.inj hn).symm, fun j hj => ?_⟩
    match j with
    | 0 => rfl
    | 1 => rfl
    | j + 2 =>
      have hstopped : (crossed.schedulers (j + 2)).phase = .stopped := rfl
      rw [hstopped] at hj
      exact absurd hj (by decide)
  have hunpark : Awake (crossed.step (.count 1)) (.unpark 1) := fun i n hc => by cases hc
  have hlatch : (((crossed.step (.count 1)).step (.unpark 1)).step (.latch 1)).deadlocked = true := by decide
  exact ⟨by decide, hlatch, latches_only_deadlocks open₁ _ ((hrun.step hcount).step hunpark) (by decide) hlatch⟩

/-- The second scheduler has sent what the first waits for, and then waits for an answer. -/
def notified : List (Op Nat) :=
  parks 0 (.recv 0) ++
    [.snapshot 1, .test 1 (.send 0 .fresh), .push 1 7, .notify 1, .add 1 (.recv 1), .rest 1, .endRound 1] ++
    parks 1 (.recv 1) ++ votes 1 ++ [.count 1, .unpark 1]

/-- The first scheduler was notified and has not run: the second finds both parked, and latches. -/
theorem notified_latches : ∃ p : Process Nat,
    Reachable (fun _ _ => True) open₁ [([.recv 0], [0, 1]), ([.send 0 .fresh], [0, 1])] p ∧
    p.deadlocked = false ∧ (p.step (.latch 1)).deadlocked = true ∧ p.CouldProgress 0 :=
  ⟨_, Reachable.foldl notified (fun _ _ _ => trivial) .init, by decide, by decide, by decide, .recv 0, by decide,
    by decide⟩


end Process

end Noeta.Sched
