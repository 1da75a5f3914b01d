import Noeta.Sched.Tasks

/-!
# What a task handle denotes

The indices of a handle are given out again once its scope has closed, so a handle that is kept can come to name another
task. A task that is in the table is where its handle says, in every run. So a handle is safe exactly while its own task
is in the table or nothing stands at its indices. Results are stored through indices too, by the poll that produced
them: a scope that closes while one of its tasks is polled, as a task that was cancelled in its own poll allows, hands
the result to whichever task is registered there next.
-/

namespace Noeta.Sched.Table

variable {V : Type}

/-- `t` is in the table, as the task with this id. -/
def Has (w : Table V) (id : Nat) (t : Task V) : Prop := ∃ si ti, w.task? si ti = some t ∧ t.id = id

/-- Polling, joining and cancelling `h` read and change the task it was made for and no other, and once the scope of
that task has closed they find nothing. -/
structure DenotesOwn (w : Table V) (unit : V) (h : Handle) : Prop where
  touches : ∀ t, w.task? h.scope h.task = some t → t.id = h.id
  poll : ∀ t, w.Has h.id t → w.pollHandle unit h = (t.result.elim .pending fun a => .ready a.value)
  produced : ∀ t, w.Has h.id t → ∀ a, t.result = some a → a.producer = h.id
  join : ∀ t, w.Has h.id t →
    w.joinTask unit h = t.result.elim (if t.cancelled then some none else none) fun a => some (some a.value)
  cancel : ∀ id, id ≠ h.id → ∀ t, (w.cancelTask h).Has id t ↔ w.Has id t
  signal : ∀ n ∈ (w.cancelTask h).requested, n ∉ w.requested → ∃ t, w.Has h.id t ∧ t.isolate = some n
  gone : (∀ t, ¬ w.Has h.id t) →
    w.pollHandle unit h = .ready unit ∧ w.joinTask unit h = some (some unit) ∧ w.cancelTask h = w

/-- The scope of the task is still open, or no task stands at the indices. -/
def Current (w : Table V) (h : Handle) : Prop := (∃ t, w.Has h.id t) ∨ w.task? h.scope h.task = none

/-- No scope is closed while a task of it is polled. -/
def Orderly (w : Table V) (op : Op V) : Prop := ∀ si, op = .close si → ∀ p ∈ w.polls, p.scope ≠ si

inductive Reachable (P : Table V → Op V → Prop) : Table V → Prop
  | init : Reachable P {}
  | step {w : Table V} {op : Op V} : Reachable P w → w.Enabled op → P w op → Reachable P (w.step op)

/-- Every task is where its handle says, and no two handles are for one task. -/
structure Issued (w : Table V) : Prop where
  wellFormed : w.WellFormed
  issued : ∀ si ti t, w.task? si ti = some t → ⟨si, ti, t.id⟩ ∈ w.handles
  unique : ∀ h ∈ w.handles, ∀ h' ∈ w.handles, h.id = h'.id → h = h'
  fresh : ∀ h ∈ w.handles, h.id < w.next

/-- Polls in progress are of the tasks they started with, and every result is its task's own. -/
structure Produced (w : Table V) : Prop where
  polled : ∀ p ∈ w.polls, ∃ t, w.task? p.scope p.task = some t ∧ t.id = p.id
  own : ∀ si ti t, w.task? si ti = some t → ∀ a, t.result = some a → a.producer = t.id

/-! ### Steps -/

/-- A change of tasks in place. -/
structure InPlace (w u : Table V) : Prop where
  task : ∀ si ti t, u.task? si ti = some t → ∃ t₀, w.task? si ti = some t₀ ∧ t₀.id = t.id
  kept : ∀ si ti t₀, w.task? si ti = some t₀ → ∃ t, u.task? si ti = some t ∧ t₀.id = t.id
  handles : u.handles = w.handles
  next : u.next = w.next

theorem InPlace.refl (w : Table V) : InPlace w w :=
  ⟨fun _ _ t h => ⟨t, h, rfl⟩, fun _ _ t h => ⟨t, h, rfl⟩, rfl, rfl⟩

variable {f : Task V → Task V} {u w : Table V}

theorem InPlace.modifyTask (w : Table V) (si ti : Nat) (hf : ∀ t, (f t).id = t.id)
    (hs : u.scopes = (w.modifyTask si ti f).scopes) (hh : u.handles = w.handles) (hn : u.next = w.next) :
    InPlace w u := by
  have htask : ∀ sj tj, u.task? sj tj = if sj = si ∧ tj = ti then (w.task? si ti).map f else w.task? sj tj := by
    intro sj tj
    rw [← task?_modifyTask]
    unfold task?
    rw [hs]
  refine ⟨fun sj tj t h => ?_, fun sj tj t h => ?_, hh, hn⟩
  · rw [htask] at h
    split_ifs at h with hc
    · obtain ⟨rfl, rfl⟩ := hc
      obtain ⟨t₀, ht₀, rfl⟩ := Option.map_eq_some_iff.mp h
      exact ⟨t₀, ht₀, (hf t₀).symm⟩
    · exact ⟨t, h, rfl⟩
  · rw [htask]
    split_ifs with hc
    · obtain ⟨rfl, rfl⟩ := hc
      exact ⟨f t, by rw [h]; rfl, (hf t).symm⟩
    · exact ⟨t, h, rfl⟩

theorem beginPoll_inPlace (w : Table V) (si ti : Nat) : InPlace w (w.beginPoll si ti) := by
  unfold beginPoll
  split
  · exact .refl w
  · split_ifs
    · exact .modifyTask w si ti (f := fun t => { t with polling := true }) (fun _ => rfl) rfl rfl rfl
    · exact .refl w

theorem endPoll_inPlace (w : Table V) (outcome : Outcome V) : InPlace w (w.endPoll outcome) := by
  unfold endPoll
  split
  · exact .refl w
  · rename_i p polls _
    refine .modifyTask w p.scope p.task (fun t => ?_) rfl rfl rfl
    cases outcome <;> rfl

theorem cancelTask_inPlace (w : Table V) (h : Handle) : InPlace w (w.cancelTask h) := by
  unfold cancelTask
  split
  · exact .refl w
  · split_ifs
    · exact .refl w
    · split
      · exact ⟨fun _ _ t h => ⟨t, h, rfl⟩, fun _ _ t h => ⟨t, h, rfl⟩, rfl, rfl⟩
      · exact .modifyTask w h.scope h.task (f := fun t => { t with cancelled := true }) (fun _ => rfl) rfl rfl rfl

theorem Issued.inPlace (h : Issued w) (hu : InPlace w u) (hwf : u.WellFormed) : Issued u := by
  refine ⟨hwf, fun si ti t ht => ?_, ?_, ?_⟩
  · obtain ⟨t₀, ht₀, hid⟩ := hu.task si ti t ht
    rw [hu.handles, ← hid]
    exact h.issued si ti t₀ ht₀
  · rw [hu.handles]
    exact h.unique
  · rw [hu.handles, hu.next]
    exact h.fresh

theorem Issued.registerTask (h : Issued w) (real : Bool) : Issued (w.registerTask real) := by
  cases hi : w.innermostOpen with
  | none =>
    have : w.registerTask real = w := by
      unfold Table.registerTask
      rw [hi]
    rw [this]
    exact h
  | some si =>
    obtain ⟨_, scope, hs⟩ := h.wellFormed.innermostOpen hi
    have hhandles : (w.registerTask real).handles = w.handles ++ [⟨si, scope.length, w.next⟩] := by
      unfold Table.registerTask
      simp only [hi, hs, Option.getD_some]
    have hnext : (w.registerTask real).next = w.next + 1 := by
      unfold Table.registerTask
      simp only [hi]
    refine ⟨h.wellFormed.registerTask real, fun sj tj t ht => ?_, fun a ha b hb hab => ?_, fun a ha => ?_⟩
    · rw [task?_registerTask real hi hs] at ht
      rw [hhandles]
      by_cases hc : sj = si ∧ tj = scope.length
      · rw [if_pos hc] at ht
        obtain ⟨rfl, rfl⟩ := hc
        obtain rfl := Option.some.inj ht
        exact List.mem_append_right _ List.mem_cons_self
      · rw [if_neg hc] at ht
        exact List.mem_append_left _ (h.issued sj tj t ht)
    · rw [hhandles] at ha hb
      rcases List.mem_append.mp ha with ha | ha <;> rcases List.mem_append.mp hb with hb | hb
      · exact h.unique a ha b hb hab
      · have := h.fresh a ha
        rw [List.mem_singleton.mp hb] at hab
        exact absurd hab this.ne
      · have := h.fresh b hb
        rw [List.mem_singleton.mp ha] at hab
        exact absurd hab this.ne'
      · rw [List.mem_singleton.mp ha, List.mem_singleton.mp hb]
    · rw [hhandles] at ha
      rw [hnext]
      rcases List.mem_append.mp ha with ha | ha
      · exact Nat.lt_succ_of_lt (h.fresh a ha)
      · rw [List.mem_singleton.mp ha]
        exact Nat.lt_succ_self _

theorem Issued.closeScope (h : Issued w) (si : Nat) : Issued (w.closeScope si) := by
  refine ⟨h.wellFormed.closeScope si, fun sj tj t ht => ?_, h.unique, h.fresh⟩
  rw [h.wellFormed.task?_closeScope] at ht
  split_ifs at ht
  exact h.issued sj tj t ht

theorem Issued.step (h : Issued w) (op : Op V) : Issued (w.step op) := by
  have hwf := h.wellFormed.step op
  cases op with
  | «open» =>
    refine ⟨hwf, fun si ti t ht => ?_, h.unique, h.fresh⟩
    exact h.issued si ti t (task?_openScope w si ti ▸ ht)
  | register real => exact h.registerTask real
  | beginPoll si ti => exact h.inPlace (beginPoll_inPlace w si ti) hwf
  | endPoll outcome => exact h.inPlace (endPoll_inPlace w outcome) hwf
  | cancel handle => exact h.inPlace (cancelTask_inPlace w handle) hwf
  | close si => exact h.closeScope si

theorem Produced.registerTask (h : Produced w) (hw : Issued w) (real : Bool) : Produced (w.registerTask real) := by
  cases hi : w.innermostOpen with
  | none =>
    have hsame : w.registerTask real = w := by
      unfold Table.registerTask
      rw [hi]
    rw [hsame]
    exact h
  | some si =>
    obtain ⟨_, scope, hs⟩ := hw.wellFormed.innermostOpen hi
    have hpolls : (w.registerTask real).polls = w.polls := by
      unfold Table.registerTask
      simp only [hi]
    -- the place of the new task was free
    have hfree : w.task? si scope.length = none := by
      unfold Table.task?
      rw [hs]
      exact List.getElem?_eq_none le_rfl
    refine ⟨fun p hp => ?_, fun sj tj t ht => ?_⟩
    · rw [hpolls] at hp
      obtain ⟨t, ht, hid⟩ := h.polled p hp
      refine ⟨t, ?_, hid⟩
      rw [task?_registerTask real hi hs, if_neg ?_]
      · exact ht
      · rintro ⟨hscope, htask⟩
        rw [hscope, htask, hfree] at ht
        exact absurd ht (by simp)
    · rw [task?_registerTask real hi hs] at ht
      by_cases hc : sj = si ∧ tj = scope.length
      · rw [if_pos hc] at ht
        obtain rfl := Option.some.inj ht
        exact fun a ha => absurd ha (by simp)
      · rw [if_neg hc] at ht
        exact h.own sj tj t ht

theorem Produced.modifyTask (h : Produced w) (si ti : Nat) (hid : ∀ t, (f t).id = t.id)
    (hres : ∀ t, w.task? si ti = some t → ∀ a, (f t).result = some a → a.producer = t.id)
    (hs : u.scopes = (w.modifyTask si ti f).scopes)
    (hpolls : ∀ p ∈ u.polls, p ∈ w.polls ∨ ∃ t, w.task? p.scope p.task = some t ∧ t.id = p.id) : Produced u := by
  have htask : ∀ sj tj, u.task? sj tj = if sj = si ∧ tj = ti then (w.task? si ti).map f else w.task? sj tj := by
    intro sj tj
    rw [← task?_modifyTask]
    unfold task?
    rw [hs]
  refine ⟨fun p hp => ?_, fun sj tj t ht => ?_⟩
  · obtain ⟨t, ht, hpid⟩ : ∃ t, w.task? p.scope p.task = some t ∧ t.id = p.id := by
      rcases hpolls p hp with hp | hp
      · exact h.polled p hp
      · exact hp
    rw [htask]
    split_ifs with hc
    · rw [hc.1, hc.2] at ht
      exact ⟨f t, by rw [ht]; rfl, by rw [hid, hpid]⟩
    · exact ⟨t, ht, hpid⟩
  · rw [htask] at ht
    split_ifs at ht with hc
    · obtain ⟨t₀, ht₀, rfl⟩ := Option.map_eq_some_iff.mp ht
      rw [hid]
      exact hres t₀ ht₀
    · exact h.own sj tj t ht

theorem Produced.step (h : Produced w) (hw : Issued w) {op : Op V} (ho : w.Orderly op) : Produced (w.step op) := by
  cases op with
  | «open» =>
    refine ⟨fun p hp => ?_, fun si ti t ht => ?_⟩
    · obtain ⟨t, ht, hid⟩ := h.polled p hp
      exact ⟨t, (task?_openScope w p.scope p.task).trans ht, hid⟩
    · exact h.own si ti t (task?_openScope w si ti ▸ ht)
  | register real => exact h.registerTask hw real
  | beginPoll si ti =>
    simp only [Table.step, Table.beginPoll]
    split
    · exact h
    · rename_i t ht
      split_ifs
      · refine h.modifyTask si ti (f := fun t => { t with polling := true }) (fun _ => rfl) (h.own si ti) rfl
          fun p hp => ?_
        rcases List.mem_cons.mp hp with rfl | hp
        · exact Or.inr ⟨t, ht, rfl⟩
        · exact Or.inl hp
      · exact h
  | endPoll outcome =>
    simp only [Table.step, Table.endPoll]
    split
    · exact h
    · rename_i p polls hpolls
      refine h.modifyTask p.scope p.task (fun t => ?_) (fun t ht a ha => ?_) rfl fun q hq => Or.inl ?_
      · cases outcome <;> rfl
      · cases outcome with
        | ready value =>
          obtain ⟨t₀, ht₀, hid⟩ := h.polled p (by rw [hpolls]; exact List.mem_cons_self)
          obtain rfl := Option.some.inj (ht₀.symm.trans ht)
          obtain rfl := Option.some.inj ha
          exact hid.symm
        | pending => exact h.own p.scope p.task t ht a ha
        | cancelled => exact h.own p.scope p.task t ht a ha
      · rw [hpolls]
        exact List.mem_cons_of_mem _ hq
  | cancel handle =>
    simp only [Table.step, Table.cancelTask]
    split
    · exact h
    · split_ifs
      · exact h
      · split
        · exact ⟨h.polled, h.own⟩
        · exact h.modifyTask handle.scope handle.task (f := fun t => { t with cancelled := true }) (fun _ => rfl)
            (h.own _ _) rfl fun p hp => Or.inl hp
  | close si =>
    refine ⟨fun p hp => ?_, fun sj tj t ht => ?_⟩
    · obtain ⟨t, ht, hid⟩ := h.polled p hp
      refine ⟨t, ?_, hid⟩
      simp only [Table.step]
      rw [hw.wellFormed.task?_closeScope, if_neg (ho si rfl p hp)]
      exact ht
    · simp only [Table.step] at ht
      rw [hw.wellFormed.task?_closeScope] at ht
      split_ifs at ht
      exact h.own sj tj t ht

theorem Reachable.issued {P : Table V → Op V → Prop} (h : Reachable P w) : Issued w := by
  induction h with
  | init =>
    refine ⟨⟨rfl, fun si hsi => absurd hsi (by simp), by simp⟩, fun si ti t ht => absurd ht (by simp [task?]), ?_, ?_⟩
    · exact fun a ha => absurd ha List.not_mem_nil
    · exact fun a ha => absurd ha List.not_mem_nil
  | step _ _ _ ih => exact ih.step _

theorem Reachable.produced (h : Reachable Orderly w) : Produced w := by
  induction h with
  | init => exact ⟨fun p hp => absurd hp List.not_mem_nil, fun si ti t ht => absurd ht (by simp [task?])⟩
  | step hr _ ho ih => exact ih.step hr.issued ho

/-! ### Uses of a handle -/

theorem Issued.place (hw : Issued w) {h : Handle} (hh : h ∈ w.handles) {t : Task V} (ht : w.Has h.id t) :
    w.task? h.scope h.task = some t := by
  obtain ⟨si, ti, hst, hid⟩ := ht
  have heq := hw.unique _ (hw.issued si ti t hst) h hh hid
  rw [← heq]
  exact hst

theorem has_congr (h : ∀ si ti, u.task? si ti = w.task? si ti) (id : Nat) (t : Task V) : u.Has id t ↔ w.Has id t := by
  simp only [Has, h]

theorem has_modifyTask {si ti : Nat} (hf : ∀ t, (f t).id = t.id) {t₀ : Task V}
    (ht₀ : w.task? si ti = some t₀) {id : Nat} (hid : id ≠ t₀.id) (t : Task V) :
    (w.modifyTask si ti f).Has id t ↔ w.Has id t := by
  constructor
  · rintro ⟨sj, tj, ht, htid⟩
    rw [task?_modifyTask, ht₀] at ht
    split_ifs at ht
    · obtain rfl := Option.some.inj ht
      exact absurd (htid.symm.trans (hf t₀)) hid
    · exact ⟨sj, tj, ht, htid⟩
  · rintro ⟨sj, tj, ht, htid⟩
    refine ⟨sj, tj, ?_, htid⟩
    rw [task?_modifyTask, if_neg ?_]
    · exact ht
    · rintro ⟨rfl, rfl⟩
      rw [ht₀] at ht
      obtain rfl := Option.some.inj ht
      exact hid htid.symm

/-- A handle denotes its own task exactly when the scope of that task is still open or no task stands at its indices. -/
theorem denotes_own_iff (unit : V) {w : Table V} (hr : Reachable Orderly w) {h : Handle} (hh : h ∈ w.handles) :
    w.DenotesOwn unit h ↔ w.Current h := by
  have hw := hr.issued
  have hp := hr.produced
  constructor
  · intro hd
    by_contra hcur
    obtain ⟨hgone, hsome⟩ := not_or.mp hcur
    obtain ⟨t, ht⟩ := Option.ne_none_iff_exists'.mp hsome
    exact hgone ⟨t, h.scope, h.task, ht, hd.touches t ht⟩
  · intro hcur
    have htouch : ∀ t, w.task? h.scope h.task = some t → t.id = h.id := by
      intro t ht
      rcases hcur with ⟨t', ht'⟩ | hnone
      · have hplace := hw.place hh ht'
        obtain rfl := Option.some.inj (hplace.symm.trans ht)
        exact ht'.choose_spec.choose_spec.2
      · rw [hnone] at ht
        exact absurd ht (by simp)
    refine ⟨htouch, fun t ht => ?_, fun t ht a ha => ?_, fun t ht => ?_, fun id hid t => ?_, fun n hn hnew => ?_,
      fun hgone => ?_⟩
    · unfold pollHandle
      rw [hw.place hh ht]
      cases ht' : t.result <;> simp [ht']
    · rw [hp.own _ _ t (hw.place hh ht) a ha]
      exact htouch t (hw.place hh ht)
    · unfold joinTask pollHandle handleCancelled
      rw [hw.place hh ht]
      cases ht' : t.result <;> simp [ht']
    · unfold cancelTask
      split
      · exact Iff.rfl
      · rename_i t₀ ht₀
        split_ifs
        · exact Iff.rfl
        · split
          · exact has_congr (fun _ _ => rfl) id t
          · exact has_modifyTask (f := fun t => { t with cancelled := true }) (fun _ => rfl) ht₀ (by rw [htouch t₀ ht₀]; exact hid) t
    · unfold cancelTask at hn
      split at hn
      · exact absurd hn hnew
      · rename_i t₀ ht₀
        split_ifs at hn
        · exact absurd hn hnew
        · split at hn
          · rename_i m hm
            rcases List.mem_cons.mp hn with rfl | hn
            · exact ⟨t₀, ⟨h.scope, h.task, ht₀, htouch t₀ ht₀⟩, hm⟩
            · exact absurd hn hnew
          · exact absurd hn hnew
    · have hnone : w.task? h.scope h.task = none := by
        rcases hcur with ⟨t, ht⟩ | hnone
        · exact absurd ht (hgone t)
        · exact hnone
      unfold joinTask pollHandle cancelTask
      rw [hnone]
      exact ⟨rfl, rfl, rfl⟩

/-- A task is spawned in a scope and completes. -/
def completed : List (Op Nat) := [.open, .register false, .beginPoll 0 0, .endPoll (.ready 7)]

theorem completed_reachable : Reachable Orderly (completed.foldl step ({} : Table Nat)) := by
  have start : Reachable Orderly ({} : Table Nat) := .init
  have opened := start.step (show Enabled _ .open from trivial) fun si h => by cases h
  have spawned := opened.step (show Enabled _ (.register false) from trivial) fun si h => by cases h
  have polled := spawned.step (show Enabled _ (.beginPoll 0 0) from trivial) fun si h => by cases h
  exact polled.step (show Enabled _ (.endPoll (.ready 7)) from fun p hp => by
    obtain rfl := Option.some.inj hp
    rfl) fun si h => by cases h

theorem completed_denotes :
    (completed.foldl step ({} : Table Nat)).DenotesOwn 0 ⟨0, 0, 0⟩ ∧
    (completed.foldl step ({} : Table Nat)).pollHandle 0 ⟨0, 0, 0⟩ = .ready 7 :=
  ⟨(denotes_own_iff 0 completed_reachable (by decide)).mpr (Or.inl ⟨_, 0, 0, rfl, rfl⟩), by decide⟩

/-- The scope closes, and another task is spawned in its slot and completes: the kept handle reads its result. -/
theorem reopened_denotes_other : ∃ (w : Table Nat) (h : Handle), Reachable Orderly w ∧ h ∈ w.handles ∧
    (∀ t, ¬ w.Has h.id t) ∧ w.pollHandle 0 h = .ready 8 ∧ ¬ w.DenotesOwn 0 h := by
  have closed := completed_reachable.step (show Enabled _ (.close 0) from Nat.zero_lt_one) fun si _ p hp =>
    absurd hp List.not_mem_nil
  have opened := closed.step (show Enabled _ .open from trivial) fun si h => by cases h
  have spawned := opened.step (show Enabled _ (.register false) from trivial) fun si h => by cases h
  have polled := spawned.step (show Enabled _ (.beginPoll 0 0) from trivial) fun si h => by cases h
  have ready := polled.step (show Enabled _ (.endPoll (.ready 8)) from fun p hp => by
    obtain rfl := Option.some.inj hp
    rfl) fun si h => by cases h
  refine ⟨_, ⟨0, 0, 0⟩, ready, by decide, fun t ht => ?_, by decide, fun hd => ?_⟩
  · have hplace := ready.issued.place (h := ⟨0, 0, 0⟩) (by decide) ht
    obtain rfl := Option.some.inj hplace
    exact absurd ht.choose_spec.choose_spec.2 (by decide)
  · exact absurd (hd.touches _ rfl) (by decide)

end Noeta.Sched.Table
