import Noeta.Sched.Channel

/-!
# Delivery

Messages are received in the order in which they were pushed, each once, whatever the senders, the receivers and `close`
do in between. What several senders break is the completion of a rendezvous send: a deposited send takes an empty slot
for the sign that its message was taken, so once another sender has deposited it waits on, although its message is gone.
A buffered send that is polled after it completed pushes its message again.
-/

namespace Noeta.Sched.Traffic

variable {M : Type}

/-- How often send `i` has pushed its message. -/
def pushes (t : Traffic M) (i : Nat) : Nat := (t.pushed.map Prod.fst).count i

/-- The message of send `i` was received. -/
def Taken (t : Traffic M) (i : Nat) : Prop := i ∈ (t.pushed.take t.received.length).map Prod.fst

/-- Send `i` is parked on a message that it has deposited. -/
def Waits (t : Traffic M) (i : Nat) : Prop :=
  ∃ s, t.sends[i]? = some s ∧ s.phase = .deposited ∧ s.done = false ∧ s.cancelled = false

/-- The law of a channel. -/
structure Delivers (t : Traffic M) : Prop where
  order : t.received <+: t.pushed.map Prod.snd
  kept : t.pushed.map Prod.snd = t.received ++ t.channel.buffer
  bound : t.channel.buffer.length ≤ max t.channel.capacity 1
  own : ∀ i m, (i, m) ∈ t.pushed → ∃ s, t.sends[i]? = some s ∧ s.message = m
  once : ∀ i s, t.sends[i]? = some s → s.done → t.pushes i = 1
  due : t.channel.capacity = 0 → ∀ i, t.Enabled (.poll i) → (∀ s, t.sends[i]? = some s → s.done = false) → t.Taken i →
    (t.poll i).2 = some .ready
  early : t.channel.capacity = 0 → ∀ i, (t.poll i).2 = some .ready → t.Taken i

/-- The send whose message goes into the buffer in a step. -/
def Pushes (t : Traffic M) (op : Op M) (i : Nat) : Prop :=
  match op with
  | .poll j => j = i ∧ t.channel.backing = .local ∧ ∃ s, t.sends[j]? = some s ∧
      (t.channel.sendAction s.phase = .deposit ∨ t.channel.sendAction s.phase = .deliverBuffered)
  | .push j => j = i ∧ t.channel.accepts
  | _ => False

/-- No message is deposited while another send is parked on its own, and no completed send pushes again. -/
def Orderly (t : Traffic M) (op : Op M) : Prop :=
  ∀ i, t.Pushes op i → (t.channel.capacity = 0 → ∀ j, ¬ t.Waits j) ∧
    ∀ s, t.sends[i]? = some s → s.done = false

/-- The states of the runs from an empty channel whose steps all meet `P`. -/
inductive Reachable (shippable : M → Bool) (P : Traffic M → Op M → Prop) (backing : Backing) (capacity : Nat) :
    Traffic M → Prop
  | init : Reachable shippable P backing capacity { channel := { backing, capacity } }
  | step {t : Traffic M} {op : Op M} : Reachable shippable P backing capacity t → t.Enabled op → P t op →
      Reachable shippable P backing capacity (t.step shippable op)

/-- What is known of one send. `strict` is whether the run was orderly so far. -/
structure SendOk (strict : Prop) (t : Traffic M) (i : Nat) (s : Send M) : Prop where
  buffered : t.channel.capacity ≠ 0 → s.phase = .fresh
  fresh : t.channel.capacity = 0 → s.phase = .fresh → t.pushes i = 0 ∧ s.done = false
  deposited : s.phase = .deposited → t.pushes i = 1 ∧ s.deciding = none
  deciding : ∀ a, s.deciding = some a → t.channel.capacity = 0 → a = .deposit
  deciding' : ∀ a, s.deciding = some a → t.channel.capacity ≠ 0 → a = .deliverBuffered
  taken : t.channel.capacity = 0 → s.done → t.Taken i
  once : strict → t.channel.capacity ≠ 0 → t.pushes i = if s.done then 1 else 0
  prompt : strict → t.channel.capacity = 0 → t.Waits i → t.Taken i → t.channel.buffer = []

structure Inv (strict : Prop) (t : Traffic M) : Prop where
  kept : t.pushed.map Prod.snd = t.received ++ t.channel.buffer
  bound : t.channel.buffer.length ≤ max t.channel.capacity 1
  own : ∀ i m, (i, m) ∈ t.pushed → ∃ s, t.sends[i]? = some s ∧ s.message = m
  send : ∀ i s, t.sends[i]? = some s → SendOk strict t i s

/-! ### The parts of a step -/

/-- The message of send `i` goes into the buffer and `f` is recorded on the send. -/
def pushTo (t : Traffic M) (i : Nat) (s : Send M) (f : Send M → Send M) : Traffic M :=
  ({ t with
    channel := { t.channel with buffer := t.channel.buffer ++ [s.message] }
    pushed := t.pushed ++ [(i, s.message)] } : Traffic M).modify i f

theorem push_eq (t : Traffic M) (i : Nat) (s : Send M) (a : SendAction) :
    t.push i s a =
      if a = .deposit then (t.pushTo i s fun s => { s with phase := .deposited, deciding := none }, some .pending)
      else (t.pushTo i s fun s => { s with done := true, deciding := none }, some .ready) := rfl

theorem modify_sends (t : Traffic M) (i j : Nat) (f : Send M → Send M) :
    (t.modify i f).sends[j]? = (t.sends[j]?).map fun s => if i = j then f s else s := by
  unfold modify
  rw [List.getElem?_modify]
  rfl

variable {t : Traffic M} {i : Nat} {f : Send M → Send M} {s : Send M} {strict : Prop}

theorem modify_cases {i j : Nat} (h : (t.modify i f).sends[j]? = some s) :
    ∃ s₀, t.sends[j]? = some s₀ ∧ s = if i = j then f s₀ else s₀ := by
  rw [modify_sends, Option.map_eq_some_iff] at h
  obtain ⟨s₀, h₀, rfl⟩ := h
  exact ⟨s₀, h₀, rfl⟩

/-- Bookkeeping on a send that changes neither its message nor its phase nor whether it is done. -/
theorem Inv.flags (h : Inv strict t) (i : Nat)
    (hm : ∀ s, (f s).message = s.message) (hp : ∀ s, (f s).phase = s.phase) (hd : ∀ s, (f s).done = s.done)
    (hc : ∀ s, s.cancelled = true → (f s).cancelled = true)
    (hx : ∀ s, t.sends[i]? = some s → (s.phase = .deposited → (f s).deciding = none) ∧
      (∀ a, (f s).deciding = some a → t.channel.capacity = 0 → a = .deposit) ∧
      ∀ a, (f s).deciding = some a → t.channel.capacity ≠ 0 → a = .deliverBuffered) : Inv strict (t.modify i f) := by
  refine ⟨h.kept, h.bound, fun j m hj => ?_, fun j s hs => ?_⟩
  · obtain ⟨s, hs, hm'⟩ := h.own j m hj
    refine ⟨if i = j then f s else s, by rw [modify_sends, hs]; rfl, ?_⟩
    split_ifs
    · rw [hm, hm']
    · exact hm'
  · obtain ⟨s₀, h₀, rfl⟩ := modify_cases hs
    have ho := h.send j s₀ h₀
    have hwaits : (t.modify i f).Waits j → t.Waits j := by
      rintro ⟨s', hs', h1, h2, h3⟩
      obtain ⟨s₁, h₁, rfl⟩ := modify_cases hs'
      refine ⟨s₁, h₁, ?_⟩
      split_ifs at h1 h2 h3 with hij
      · rw [hp] at h1
        rw [hd] at h2
        refine ⟨h1, h2, ?_⟩
        by_contra hcan
        rw [Bool.not_eq_false] at hcan
        rw [hc s₁ hcan] at h3
        exact absurd h3 (by simp)
      · exact ⟨h1, h2, h3⟩
    by_cases hij : i = j
    · subst hij
      obtain ⟨x1, x2, x3⟩ := hx s₀ h₀
      simp only [if_true]
      refine ⟨?_, ?_, ?_, x2, x3, ?_, ?_, ?_⟩
      · rw [hp]; exact ho.buffered
      · rw [hp, hd]; exact ho.fresh
      · rw [hp]; exact fun hd' => ⟨(ho.deposited hd').1, x1 hd'⟩
      · rw [hd]; exact ho.taken
      · rw [hd]; exact ho.once
      · exact fun hst hcap hw => ho.prompt hst hcap (hwaits hw)
    · rw [if_neg hij]
      exact { ho with prompt := fun hst hcap hw => ho.prompt hst hcap (hwaits hw) }

theorem mem_of_taken (h : t.Taken i) : t.pushes i ≠ 0 := by
  unfold Taken at h
  obtain ⟨p, hp, rfl⟩ := List.mem_map.mp h
  exact (List.count_pos_iff.mpr (List.mem_map_of_mem (List.mem_of_mem_take hp))).ne'

theorem Inv.taken_of_empty (h : Inv strict t) (hb : t.channel.buffer = []) (hi : t.pushes i ≠ 0) : t.Taken i := by
  have hk := congrArg List.length h.kept
  rw [hb, List.append_nil, List.length_map] at hk
  unfold Taken
  rw [← hk, List.take_length]
  by_contra hn
  exact hi (List.count_eq_zero.mpr hn)

theorem Inv.complete (h : Inv strict t) (hs : t.sends[i]? = some s) (ha : t.channel.sendAction s.phase = .complete) :
    Inv strict (t.modify i fun s => { s with done := true }) := by
  obtain ⟨hcap, hphase, hb⟩ := Channel.sendAction_complete ha
  refine ⟨h.kept, h.bound, fun j m hj => ?_, fun j s' hs' => ?_⟩
  · obtain ⟨s', hs', hm⟩ := h.own j m hj
    refine ⟨_, by rw [modify_sends, hs']; rfl, ?_⟩
    split_ifs <;> exact hm
  · obtain ⟨s₀, h₀, rfl⟩ := modify_cases hs'
    have ho := h.send j s₀ h₀
    by_cases hij : i = j
    · subst hij
      rw [hs, Option.some.injEq] at h₀
      subst h₀
      simp only [if_true]
      obtain ⟨hone, hdec⟩ := ho.deposited hphase
      refine ⟨ho.buffered, ?_, ho.deposited, ho.deciding, ho.deciding', ?_, fun _ hne => absurd hcap hne, fun _ _ _ _ => hb⟩
      · intro _ hf
        rw [hphase] at hf
        exact absurd hf (by simp)
      · exact fun _ _ => h.taken_of_empty hb (by rw [hone]; exact Nat.one_ne_zero)
    · rw [if_neg hij]
      exact { ho with prompt := fun _ _ _ _ => hb }

theorem pushTo_pushes (t : Traffic M) (i : Nat) (s : Send M) (f : Send M → Send M) (j : Nat) :
    (t.pushTo i s f).pushes j = t.pushes j + if i = j then 1 else 0 := by
  show (List.map Prod.fst (t.pushed ++ [(i, s.message)])).count j = _
  unfold pushes
  simp [List.count_cons]

theorem Inv.pushTo_taken (h : Inv strict t) (i : Nat) (s : Send M)
    (f : Send M → Send M) (j : Nat) : (t.pushTo i s f).Taken j ↔ t.Taken j := by
  have hlen := congrArg List.length h.kept
  rw [List.length_map, List.length_append] at hlen
  unfold Taken
  show j ∈ List.map Prod.fst ((t.pushed ++ [(i, s.message)]).take t.received.length) ↔ _
  rw [List.take_append_of_le_length (by omega)]

theorem accepts_bound {c : Channel M} (h : c.accepts) : c.buffer.length + 1 ≤ max c.capacity 1 := by
  unfold Channel.accepts at h
  by_cases hcap : c.capacity = 0
  · simp only [hcap, if_true, Bool.and_eq_true, List.isEmpty_iff] at h
    rw [h.2, hcap]
    simp
  · simp only [hcap, if_false, Bool.and_eq_true, decide_eq_true_eq] at h
    have := h.2
    omega

/-- A message goes into the buffer. -/
theorem Inv.pushTo (h : Inv strict t) (hs : t.sends[i]? = some s) (hacc : t.channel.accepts)
    (hst : strict → t.channel.capacity = 0 → ∀ j, ¬ t.Waits j)
    (hm : ∀ s, (f s).message = s.message) (hok : SendOk strict (t.pushTo i s f) i (f s)) :
    Inv strict (t.pushTo i s f) := by
  refine ⟨?_, ?_, fun j m hj => ?_, fun j s' hs' => ?_⟩
  · show List.map Prod.snd (t.pushed ++ [(i, s.message)]) = t.received ++ (t.channel.buffer ++ [s.message])
    simp [h.kept]
  · show (t.channel.buffer ++ [s.message]).length ≤ _
    rw [List.length_append]
    exact accepts_bound hacc
  · obtain ⟨s', hs', hm'⟩ : ∃ s', t.sends[j]? = some s' ∧ s'.message = m := by
      rcases List.mem_append.mp hj with hj | hj
      · exact h.own j m hj
      · rw [List.mem_singleton, Prod.mk.injEq] at hj
        exact ⟨s, by rw [hj.1]; exact hs, hj.2.symm⟩
    refine ⟨if i = j then f s' else s', ?_, ?_⟩
    · show (t.modify i f).sends[j]? = _
      rw [modify_sends, hs']
      rfl
    · split_ifs
      · rw [hm, hm']
      · exact hm'
  · obtain ⟨s₀, h₀, rfl⟩ := modify_cases (t := t) hs'
    by_cases hij : i = j
    · subst hij
      rw [hs, Option.some.injEq] at h₀
      subst h₀
      simpa using hok
    · rw [if_neg hij]
      have ho := h.send j s₀ h₀
      have hj : (t.pushTo i s f).pushes j = t.pushes j := by rw [pushTo_pushes, if_neg hij, Nat.add_zero]
      have htk := h.pushTo_taken i s f j
      refine ⟨ho.buffered, ?_, ?_, ho.deciding, ho.deciding', ?_, ?_, ?_⟩
      · rw [hj]; exact ho.fresh
      · rw [hj]; exact ho.deposited
      · rw [htk]; exact ho.taken
      · rw [hj]; exact ho.once
      · rintro hstrict hcap ⟨s₁, h₁, h2, h3, h4⟩
        obtain ⟨s₂, h₂, rfl⟩ := modify_cases (t := t) h₁
        rw [if_neg hij] at h2 h3 h4
        exact absurd ⟨s₂, h₂, h2, h3, h4⟩ (hst hstrict hcap j)

theorem Inv.push (h : Inv strict t) {a : SendAction} (hs : t.sends[i]? = some s) (hacc : t.channel.accepts)
    (ha : t.channel.capacity = 0 → a = .deposit ∧ s.phase = .fresh)
    (ha' : t.channel.capacity ≠ 0 → a = .deliverBuffered)
    (hst : strict → (t.channel.capacity = 0 → ∀ j, ¬ t.Waits j) ∧ s.done = false) : Inv strict (t.push i s a).1 := by
  have ho := h.send i s hs
  rw [push_eq]
  by_cases hcap : t.channel.capacity = 0
  · obtain ⟨rfl, hfresh⟩ := ha hcap
    obtain ⟨hnone, hdone⟩ := ho.fresh hcap hfresh
    rw [if_pos rfl]
    refine h.pushTo hs hacc (fun hstrict => (hst hstrict).1) (fun _ => rfl) ⟨fun hne => absurd hcap hne, ?_, ?_, ?_, ?_, ?_,
      fun _ hne => absurd hcap hne, ?_⟩
    · exact fun _ hf => absurd hf (by simp)
    · intro _
      rw [pushTo_pushes, if_pos rfl, hnone]
      exact ⟨rfl, rfl⟩
    · exact fun a ha => absurd ha (by simp)
    · exact fun a ha => absurd ha (by simp)
    · intro _ hd
      rw [hdone] at hd
      exact absurd hd (by simp)
    · intro _ _ _ htk
      rw [h.pushTo_taken] at htk
      exact absurd hnone (mem_of_taken htk)
  · rw [if_neg (by rw [ha' hcap]; simp)]
    refine h.pushTo hs hacc (fun hstrict => (hst hstrict).1) (fun _ => rfl) ⟨?_, fun h0 => absurd h0 hcap, ?_, ?_, ?_,
      fun h0 => absurd h0 hcap, ?_, fun _ h0 => absurd h0 hcap⟩
    · exact fun _ => ho.buffered hcap
    · intro hd
      have hf := ho.buffered hcap
      rw [hf] at hd
      exact absurd hd (by simp)
    · exact fun a ha => absurd ha (by simp)
    · exact fun a ha => absurd ha (by simp)
    · intro hstrict _
      have hone := ho.once hstrict hcap
      rw [(hst hstrict).2] at hone
      rw [pushTo_pushes, if_pos rfl, hone]
      rfl

theorem Inv.recv (h : Inv strict t) : Inv strict t.recv := by
  unfold Traffic.recv
  rw [Channel.recv_eq_tryRecv]
  unfold Channel.tryRecv
  cases hb : t.channel.buffer with
  | nil => cases t.channel.closed <;> exact h
  | cons m buffer =>
    have hbound := h.bound
    rw [hb, List.length_cons] at hbound
    have hmono : ∀ j, t.Taken j → j ∈ (t.pushed.take (t.received ++ [m]).length).map Prod.fst := by
      intro j hj
      unfold Taken at hj
      obtain ⟨p, hp, rfl⟩ := List.mem_map.mp hj
      exact List.mem_map_of_mem (List.take_subset_take_left _ (by simp) hp)
    simp only
    refine ⟨?_, ?_, h.own, fun j s hs => ?_⟩
    · show t.pushed.map Prod.snd = t.received ++ [m] ++ buffer
      rw [h.kept, hb]
      simp
    · show buffer.length ≤ max t.channel.capacity 1
      omega
    · have ho := h.send j s hs
      refine ⟨ho.buffered, ho.fresh, ho.deposited, ho.deciding, ho.deciding', ?_, ho.once, ?_⟩
      · exact fun hcap hd => hmono j (ho.taken hcap hd)
      · intro _ hcap _ _
        have hcap' : t.channel.capacity = 0 := hcap
        rw [hcap'] at hbound
        have hlen : buffer.length = 0 := by omega
        exact List.length_eq_zero_iff.mp hlen

theorem Inv.newSend (h : Inv strict t) (message : M) : Inv strict { t with sends := t.sends ++ [{ message }] } := by
  have hold : ∀ {j : Nat} {s : Send M}, t.sends[j]? = some s → (t.sends ++ [({ message := message } : Send M)])[j]? = some s := by
    intro j s hs
    rw [List.getElem?_append_left (List.getElem?_eq_some_iff.mp hs).1]
    exact hs
  have hnew : ∀ {j : Nat} {s : Send M}, (t.sends ++ [({ message := message } : Send M)])[j]? = some s → t.sends[j]? = some s ∨
      j = t.sends.length ∧ s = { message := message } := by
    intro j s hs
    rcases Nat.lt_trichotomy j t.sends.length with hlt | heq | hgt
    · rw [List.getElem?_append_left hlt] at hs
      exact Or.inl hs
    · rw [heq, List.getElem?_concat_length, Option.some.injEq] at hs
      exact Or.inr ⟨heq, hs.symm⟩
    · rw [List.getElem?_eq_none (by rw [List.length_append, List.length_singleton]; omega)] at hs
      exact absurd hs (by simp)
  have hpushes : t.pushes t.sends.length = 0 := by
    refine List.count_eq_zero.mpr fun hmem => ?_
    obtain ⟨⟨j, m⟩, hp, heq⟩ := List.mem_map.mp hmem
    obtain ⟨s, hs, _⟩ := h.own j m hp
    have hlt := (List.getElem?_eq_some_iff.mp hs).1
    have heq' : j = t.sends.length := heq
    omega
  refine ⟨h.kept, h.bound, fun j m hj => ?_, fun j s hs => ?_⟩
  · obtain ⟨s, hs, hm⟩ := h.own j m hj
    exact ⟨s, hold hs, hm⟩
  · rcases hnew hs with hs | ⟨rfl, rfl⟩
    · have ho := h.send j s hs
      refine { ho with prompt := fun hst hcap hw => ho.prompt hst hcap ?_ }
      obtain ⟨s', hs', h1⟩ := hw
      rcases hnew hs' with hs' | ⟨rfl, rfl⟩
      · exact ⟨s', hs', h1⟩
      · exact absurd h1.1 (by simp)
    · refine ⟨fun _ => rfl, fun _ _ => ⟨hpushes, rfl⟩, fun hd => absurd hd (by simp), fun a ha => absurd ha (by simp),
        fun a ha => absurd ha (by simp), fun _ hd => absurd hd (by simp), fun _ _ => hpushes, fun _ _ hw _ => ?_⟩
      obtain ⟨s', hs', h1⟩ := hw
      rcases hnew hs' with hs' | ⟨_, rfl⟩
      · exact absurd (List.getElem?_eq_some_iff.mp hs').1 (Nat.lt_irrefl _)
      · exact absurd h1.1 (by simp)

theorem Inv.close (h : Inv strict t) : Inv strict { t with channel := { t.channel with closed := true } } := by
  refine ⟨h.kept, h.bound, h.own, fun j s hs => ?_⟩
  have ho := h.send j s hs
  exact ⟨ho.buffered, ho.fresh, ho.deposited, ho.deciding, ho.deciding', ho.taken, ho.once, ho.prompt⟩

/-! ### Runs -/

theorem Inv.poll {strict : Prop} {t : Traffic M} (h : Inv strict t) {i : Nat} (he : t.Enabled (.poll i))
    (ho : strict → t.Orderly (.poll i)) : Inv strict (t.poll i).1 := by
  obtain ⟨s, hs, hdec, hcan⟩ := he
  have hsend := h.send i s hs
  -- a poll that pushes does it at once on a local channel, and only notes its decision on a shared one
  have pushed : ∀ a, t.channel.sendAction s.phase = a → a = .deposit ∨ a = .deliverBuffered →
      t.channel.backing = .local → Inv strict (t.push i s a).1 := by
    intro a hact ha hb
    obtain ⟨hacc, hzero, hpos⟩ := Channel.sendAction_push hact ha
    refine h.push hs hacc hzero hpos fun hst => ?_
    have hpush : t.Pushes (.poll i) i := ⟨rfl, hb, s, hs, by rw [hact]; exact ha⟩
    exact ⟨(ho hst i hpush).1, (ho hst i hpush).2 s hs⟩
  have decided : ∀ a, t.channel.sendAction s.phase = a → a = .deposit ∨ a = .deliverBuffered →
      Inv strict (t.modify i fun s => { s with deciding := some a }) := by
    intro a hact ha
    obtain ⟨hacc, hzero, hpos⟩ := Channel.sendAction_push hact ha
    refine h.flags i (fun _ => rfl) (fun _ => rfl) (fun _ => rfl) (fun _ hc => hc) fun s' hs' => ?_
    rw [hs, Option.some.injEq] at hs'
    subst hs'
    refine ⟨fun hd => ?_, fun a' ha' hcap => ?_, fun a' ha' hcap => ?_⟩
    · by_cases hcap : t.channel.capacity = 0
      · rw [(hzero hcap).2] at hd
        exact absurd hd (by simp)
      · rw [hsend.buffered hcap] at hd
        exact absurd hd (by simp)
    · rw [← Option.some.inj ha']
      exact (hzero hcap).1
    · rw [← Option.some.inj ha']
      exact hpos hcap
  unfold Traffic.poll
  rw [hs]
  simp only
  cases hact : t.channel.sendAction s.phase with
  | closed => exact h
  | complete => exact h.complete hs hact
  | park => exact h
  | deliverBuffered =>
    cases hb : t.channel.backing with
    | «local» => exact pushed _ hact (Or.inr rfl) hb
    | shared => exact decided _ hact (Or.inr rfl)
  | deposit =>
    cases hb : t.channel.backing with
    | «local» => exact pushed _ hact (Or.inl rfl) hb
    | shared => exact decided _ hact (Or.inl rfl)

theorem Inv.tryPush (shippable : M → Bool) (h : Inv strict t)
    (he : t.Enabled (.push i)) (ho : strict → t.Orderly (.push i)) : Inv strict (t.tryPush shippable i).1 := by
  obtain ⟨s, a, hs, hdec⟩ := he
  have hsend := h.send i s hs
  have reset : Inv strict (t.modify i fun s => { s with deciding := none }) :=
    h.flags i (fun _ => rfl) (fun _ => rfl) (fun _ => rfl) (fun _ hc => hc) fun s' _ =>
      ⟨fun _ => rfl, fun a ha => absurd ha (by simp), fun a ha => absurd ha (by simp)⟩
  unfold Traffic.tryPush
  rw [hs]
  simp only [hdec]
  split_ifs with hship hacc
  · refine h.push hs hacc (fun hcap => ⟨hsend.deciding a hdec hcap, ?_⟩) (hsend.deciding' a hdec) fun hst => ?_
    · cases hphase : s.phase with
      | fresh => rfl
      | deposited =>
        rw [(hsend.deposited hphase).2] at hdec
        exact absurd hdec (by simp)
    · have hpush : t.Pushes (.push i) i := ⟨rfl, hacc⟩
      exact ⟨(ho hst i hpush).1, (ho hst i hpush).2 s hs⟩
  · exact reset
  · exact reset

theorem Inv.step (shippable : M → Bool) (h : Inv strict t) {op : Op M}
    (he : t.Enabled op) (ho : strict → t.Orderly op) : Inv strict (t.step shippable op) := by
  cases op with
  | send message => exact h.newSend message
  | poll i => exact h.poll he ho
  | push i => exact h.tryPush shippable he ho
  | recv => exact h.recv
  | close => exact h.close
  | cancel i =>
    obtain ⟨s, hs, hdec, _⟩ := he
    refine h.flags i (fun _ => rfl) (fun _ => rfl) (fun _ => rfl) (fun _ _ => rfl) fun s' hs' => ?_
    rw [hs, Option.some.injEq] at hs'
    subst hs'
    refine ⟨fun _ => hdec, fun a ha => ?_, fun a ha => ?_⟩ <;>
    · rw [show s.deciding = some a from ha] at hdec
      exact absurd hdec (by simp)

theorem Inv.init (strict : Prop) (backing : Backing) (capacity : Nat) :
    Inv strict ({ channel := { backing, capacity } } : Traffic M) where
  kept := rfl
  bound := Nat.zero_le _
  own := fun i m h => absurd h List.not_mem_nil
  send := fun i s h => absurd h (by simp)

theorem Reachable.inv {shippable : M → Bool} {P : Traffic M → Op M → Prop} {backing : Backing}
    {capacity : Nat} (hP : strict → ∀ t op, P t op → t.Orderly op)
    (h : Reachable shippable P backing capacity t) : Inv strict t := by
  induction h with
  | init => exact Inv.init strict backing capacity
  | step _ he hp ih => exact ih.step shippable he fun hst => hP hst _ _ hp

theorem Inv.early (h : Inv strict t) (hcap : t.channel.capacity = 0) (hr : (t.poll i).2 = some .ready) : t.Taken i := by
  unfold Traffic.poll at hr
  cases hs : t.sends[i]? with
  | none =>
    rw [hs] at hr
    exact absurd hr (by simp)
  | some s =>
    rw [hs] at hr
    simp only at hr
    cases hact : t.channel.sendAction s.phase with
    | closed => simp [hact] at hr
    | park => simp [hact] at hr
    | complete =>
      obtain ⟨_, hphase, hb⟩ := Channel.sendAction_complete hact
      have hone := ((h.send i s hs).deposited hphase).1
      exact h.taken_of_empty hb (by rw [hone]; exact Nat.one_ne_zero)
    | deposit =>
      rw [hact] at hr
      cases hb : t.channel.backing <;> simp [hb, push_eq] at hr
    | deliverBuffered =>
      have := (Channel.sendAction_push hact (Or.inr rfl)).2.1 hcap
      exact absurd this.1 (by simp)

/-- A shared rendezvous channel with two senders: the first has deposited its message and it was received. -/
def handedOver : List (Op Nat) := [.send 7, .send 8, .poll 0, .push 0, .recv]

end Noeta.Sched.Traffic
