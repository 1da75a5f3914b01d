import Noeta.Vm.Sweep

/-!
# Due destructors

What `release_value` owes the program: it frees exactly what the released reference kept alive, and each freed
object with a destructor has it run exactly once, before anything it contains is freed.

`release_value` only looks for destructors below an object when `subtree_owns_destructor` says so, and that gate
knows every kind of payload with children but tuples and bound methods. `releaseAny_runs_due` is the result for
heaps in which no tuple and no bound method that dies holds a dying object with a destructor.
-/

namespace Noeta

open Relation

namespace Heap

variable {h h' h'' : Heap} {ext : Addr → Nat} {dying : Finset Addr} {a : Addr}

/-! ### Paths of a heap that shrinks -/

variable {y x : Addr} {ext₀ : Addr → Nat} {t : Tables}

theorem Shrinks.children_eq (hs : Shrinks h h') (hy : h'.Allocated y) : h'.children y = h.children y :=
  hs.payload_eq hy [] Payload.children

theorem Shrinks.points (hs : Shrinks h h') (hxy : h'.Points x y) : h.Points x y := by
  have hal := allocated_of_points hxy
  rwa [Points, hs.children_eq hal] at hxy

theorem Shrinks.reach (hs : Shrinks h h') (hxy : ReflTransGen h'.Points x y) : ReflTransGen h.Points x y :=
  ReflTransGen.mono (fun _ _ hp => hs.points hp) _ _ hxy

theorem Shrinks.ownDestructor_eq (hs : Shrinks h h') (t : Tables) (hx : h'.Allocated x) :
    t.ownDestructor h' x = t.ownDestructor h x := by
  have hsh : h'.shape? x = h.shape? x := by
    have h1 : ∀ g : Heap, g.shape? x = (g.obj? x).elim none fun o => o.payload.shape? := fun g => by
      rw [shape?]
      cases g.obj? x <;> rfl
    rw [h1, h1]
    exact hs.payload_eq hx none Payload.shape?
  rw [Tables.ownDestructor, Tables.ownDestructor, hsh]

theorem Shrinks.subtreeOwnsDestructor_eq (hs : Shrinks h h') (t : Tables) (hx : h'.Allocated x) :
    t.subtreeOwnsDestructor h' x = t.subtreeOwnsDestructor h x := by
  have hp : h'.payload? x = h.payload? x := by
    have h1 : ∀ g : Heap, g.payload? x = (g.obj? x).elim none fun o => some o.payload := fun g => by
      rw [payload?]
      cases g.obj? x <;> rfl
    rw [h1, h1]
    exact hs.payload_eq hx none some
  rw [Tables.subtreeOwnsDestructor, Tables.subtreeOwnsDestructor, hp]

theorem Owned.mem_owners_of_child (ho : Owned h ext dying) {y c : Addr} (hy : y ∈ h.owners \ dying)
    (hc : c ∈ h.children y) : c ∈ h.owners \ dying := by
  have hpos : 0 < h.edges (h.owners \ dying) c := edges_pos.mpr ⟨y, hy, hc⟩
  refine Finset.mem_sdiff.mpr ⟨mem_owners.mpr ⟨ho.closed y hy c hc, fun hr => ?_⟩, fun hd => ?_⟩
  · have := (ho.orphan c (.inl hr)).2
    omega
  · have := (ho.orphan c (.inr hd)).2
    omega

theorem Owned.reach_shrunk (ho : Owned h' ext dying) (hs : Shrinks h h') (hx : x ∈ h'.owners \ dying)
    (hxy : ReflTransGen h.Points x y) : y ∈ h'.owners \ dying ∧ ReflTransGen h'.Points x y := by
  induction hxy with
  | refl => exact ⟨hx, .refl⟩
  | tail _ hp ih =>
    obtain ⟨hy, hreach⟩ := ih
    rw [Points, ← hs.children_eq (mem_owners.mp (Finset.mem_sdiff.mp hy).1).1] at hp
    exact ⟨ho.mem_owners_of_child hy hp, hreach.tail hp⟩

theorem Owned.mem_of_live (ho : Owned h' ext dying) (hs : Shrinks h h')
    (hle : ∀ x, ext₀ x ≤ ext x) (hx : h.Live ext₀ x) : x ∈ h'.owners \ dying := by
  obtain ⟨r, hr, hrx⟩ := hx
  exact (ho.reach_shrunk hs (ho.mem_owners_of_pos (hr.trans_le (hle r))) hrx).1

/-! ### What a plain release leaves alone -/

/-- Releasing `a` changes only objects that `a` reaches. -/
structure Confined (roots : List Addr) (h h' : Heap) : Prop where
  shell : ∀ x, h'.obj? x = none ∨ (h'.obj? x).map Obj.shell = (h.obj? x).map Obj.shell
  reach : ∀ x, h'.obj? x ≠ h.obj? x → ∃ r ∈ roots, ReflTransGen h.Points r x
  log : ∃ l, h'.log = h.log ++ l ∧ ∀ b, Event.destruct b ∉ l

namespace Confined

variable {l l' roots : List Addr}

theorem refl (roots : List Addr) (h : Heap) : Confined roots h h :=
  ⟨fun _ => .inr rfl, fun _ hx => absurd rfl hx, [], by simp, by simp⟩

theorem points (hc : Confined roots h h') {x y : Addr} (hxy : h'.Points x y) : h.Points x y := by
  rcases hc.shell x with hn | he
  · simp [Points, children, hn] at hxy
  · rcases hb : h.obj? x with _ | o
    · rw [hb, Option.map_none, Option.map_eq_none_iff] at he
      simp [Points, children, he] at hxy
    · rcases hb' : h'.obj? x with _ | o'
      · simp [Points, children, hb'] at hxy
      · rw [hb, hb', Option.map_some, Option.map_some, Option.some.injEq] at he
        have hp : o'.payload = o.payload := congrArg (fun p => p.1) he
        simpa [Points, children, hb, hb', hp] using hxy

theorem trans (h₁ : Confined roots h h') (h₂ : Confined l' h' h'')
    (hl : ∀ r ∈ l', ∃ r' ∈ roots, ReflTransGen h.Points r' r) : Confined roots h h'' := by
  obtain ⟨e₁, he₁, hn₁⟩ := h₁.log
  obtain ⟨e₂, he₂, hn₂⟩ := h₂.log
  refine ⟨fun x => ?_, fun x hx => ?_, e₁ ++ e₂, by rw [he₂, he₁, List.append_assoc], fun b => ?_⟩
  · rcases h₂.shell x with hn | he
    · exact .inl hn
    · rcases h₁.shell x with hn' | he'
      · rw [hn', Option.map_none, Option.map_eq_none_iff] at he
        exact .inl he
      · exact .inr (he.trans he')
  · by_cases hx' : h''.obj? x = h'.obj? x
    · exact h₁.reach x (hx' ▸ hx)
    · obtain ⟨r, hr, hrx⟩ := h₂.reach x hx'
      obtain ⟨r', hr', hrr⟩ := hl r hr
      exact ⟨r', hr', hrr.trans (ReflTransGen.mono (fun _ _ hp => h₁.points hp) _ _ hrx)⟩
  · rw [List.mem_append, not_or]
    exact ⟨hn₁ b, hn₂ b⟩

theorem foldl {f : Heap → Addr → Heap} (hf : ∀ h a, Confined [a] h (f h a)) (l : List Addr) (h : Heap)
    (hl : ∀ r ∈ l, ∃ r' ∈ roots, ReflTransGen h.Points r' r) : Confined roots h (l.foldl f h) := by
  have hgen : ∀ (l : List Addr) (h₁ : Heap), Confined roots h h₁ →
      (∀ r ∈ l, ∃ r' ∈ roots, ReflTransGen h.Points r' r) → Confined roots h (l.foldl f h₁) := by
    intro l
    induction l with
    | nil => exact fun _ hc _ => hc
    | cons c l ih =>
      intro h₁ hc hl
      refine ih _ (hc.trans (hf h₁ c) fun r hr => ?_) fun r hr => hl r (by simp [hr])
      rw [List.mem_singleton] at hr
      exact hl r (by simp [hr])
  exact hgen l h (refl roots h) hl

theorem of_ne (hs : ∀ x, h'.obj? x = none ∨ (h'.obj? x).map Obj.shell = (h.obj? x).map Obj.shell)
    (hne : ∀ x, x ≠ a → h'.obj? x = h.obj? x) (hlog : ∃ l, h'.log = h.log ++ l ∧ ∀ b, Event.destruct b ∉ l) :
    Confined [a] h h' := by
  refine ⟨hs, fun x hx => ⟨a, by simp, ?_⟩, hlog⟩
  by_cases hxa : x = a
  · exact hxa ▸ .refl
  · exact absurd (hne x hxa) hx

theorem modifyHeader (h : Heap) (a : Addr) {f : ObjHeader → ObjHeader} (hs : SameGraph h (h.modifyHeader a f)) :
    Confined [a] h (h.modifyHeader a f) := by
  refine of_ne (fun x => .inr (hs.shell x)) (fun x hx => ?_) ⟨[], by simp [hs.log], by simp⟩
  rw [Heap.modifyHeader, obj?_modify, if_neg (Ne.symm hx)]

theorem dealloc (h : Heap) (a : Addr) : Confined [a] h (h.dealloc a) :=
  of_ne (Shrinks.dealloc h a).shell (fun x hx => by rw [obj?_dealloc, if_neg (Ne.symm hx)]) ⟨[.free a], rfl, by simp⟩

theorem record (h : Heap) (a : Addr) : Confined [a] h (h.record (.fault a)) :=
  of_ne (fun _ => .inr rfl) (fun _ _ => rfl) ⟨[.fault a], rfl, by simp⟩

theorem freeShallow (h : Heap) (a : Addr) : Confined [a] h (h.freeShallow a) := by
  rw [Heap.freeShallow]
  split
  · exact record h a
  split
  · exact modifyHeader h a (.setColor h a _)
  · exact dealloc h a

theorem possibleRoot (h : Heap) (a : Addr) : Confined [a] h (h.possibleRoot a) := by
  have hself : ∀ r ∈ [a], ∃ r' ∈ [a], ReflTransGen h.Points r' r := fun r hr => ⟨r, hr, .refl⟩
  rw [Heap.possibleRoot]
  split
  · dsimp only
    have hcol : Confined [a] h (h.setColor a .purple) := modifyHeader h a (.setColor h a _)
    split
    · exact hcol
    · have hset := hcol.trans (modifyHeader _ a (.setBuffered (h.setColor a .purple) a true)) hself
      exact ⟨hset.shell, hset.reach, hset.log⟩
  · exact refl [a] h

theorem release (n : Nat) (h : Heap) (a : Addr) : Confined [a] h (release n h a) := by
  induction n generalizing h a with
  | zero => exact refl [a] h
  | succ n ih =>
    rw [Heap.release]
    split
    · exact record h a
    split
    · exact refl [a] h
    · rename_i hns
      have hdec : h.decRef a = (h.rcDec a, (h.rcDec a).refcount a == 0) := by
        rw [Heap.decRef, if_neg hns]
      rw [hdec]
      dsimp only
      have hself : ∀ r ∈ [a], ∃ r' ∈ [a], ReflTransGen h.Points r' r := fun r hr => ⟨r, hr, .refl⟩
      have h₁ : Confined [a] h (h.rcDec a) := modifyHeader h a (.rcDec h a)
      have hkids : Confined [a] (h.rcDec a) (((h.rcDec a).children a).foldl (Heap.release n) (h.rcDec a)) :=
        foldl ih _ _ fun r hr => ⟨a, by simp, .single hr⟩
      have h₂ := h₁.trans hkids hself
      split
      · split
        · exact h₂.trans (dealloc _ a) hself
        · exact h₁
      · split
        · exact h₂.trans (freeShallow _ a) hself
        split
        · exact h₁.trans (possibleRoot _ a) hself
        · exact h₁

end Confined

theorem owners_release_of_shared_count (ho : Owned h ext dying) (hpos : 0 < ext a) (hns : h.isShared a = false)
    (hrc : 1 < h.refcount a) (n : Nat) : (release (n + 1) h a).owners = h.owners := by
  have hal := ho.ext_alloc a hpos
  have ha := ho.mem_owners_of_pos hpos
  have haow := (Finset.mem_sdiff.mp ha).1
  have hlast : ((h.rcDec a).refcount a == 0) = false := by
    rw [refcount_rcDec, if_pos rfl, beq_eq_false_iff_ne]
    omega
  have hdec : (h.rcDec a).owners = h.owners := by
    ext x
    simp only [mem_owners, Released, allocated_modifyHeader, buffered_rcDec, color_rcDec]
  rw [release, if_neg (not_not_intro hal), if_neg (by simp [hns]), decRef, if_neg (by simp [hns])]
  simp only [hlast, Bool.false_eq_true, if_false]
  split
  · exact hdec
  · rename_i hm
    split
    · rw [owners_possibleRoot (hdec ▸ haow) ((ho.rcDec ha hpos hns).buffer hm) hm]
      exact hdec
    · exact hdec

/-! ### Destructors along a walk -/

/-- What a destructor-aware release does besides releasing: of the objects outside `dying` that it frees or
defers, each one with a destructor has it run once, before anything reachable from it is freed. -/
structure Destroys (t : Tables) (dying : Finset Addr) (h h' : Heap) : Prop extends Drops dying h h' where
  destructs : ∃ l, Logged h h' l ∧
    (∀ x, l.count (.destruct x) =
      if x ∈ h.owners \ dying ∧ x ∉ h'.owners ∧ t.ownDestructor h x = true then 1 else 0) ∧
    ∀ l₁ x l₂, l = l₁ ++ .destruct x :: l₂ → ∀ y, ReflTransGen h.Points x y → .free y ∉ l₁

theorem Logged.not_freed {l : List Event} (hl : Logged h h' l) (hy : h'.Allocated y) : Event.free y ∉ l := by
  have := hl.frees y
  rw [if_pos hy] at this
  rw [← List.count_eq_zero]
  split at this <;> omega

theorem Destroys.refl (t : Tables) (dying : Finset Addr) (h : Heap) : Destroys t dying h h := by
  refine ⟨Drops.refl dying h, [], .refl h, fun x => ?_, fun l₁ x l₂ hl => ?_⟩
  · rw [if_neg, List.count_nil]
    rintro ⟨hx, hnx, -⟩
    exact hnx (Finset.mem_sdiff.mp hx).1
  · simp at hl

theorem Destroys.trans (ho : Owned h' ext dying) (h₁ : Destroys t dying h h')
    (h₂ : Destroys t dying h' h'') : Destroys t dying h h'' := by
  obtain ⟨l₁, hl₁, hc₁, hord₁⟩ := h₁.destructs
  obtain ⟨l₂, hl₂, hc₂, hord₂⟩ := h₂.destructs
  refine ⟨h₁.toDrops.trans h₂.toDrops, l₁ ++ l₂, hl₁.trans hl₂, fun x => ?_, fun la x lb hl y hxy => ?_⟩
  · -- an object goes in one of the two halves
    rw [List.count_append, hc₁, hc₂]
    by_cases hx' : x ∈ h'.owners
    · have hx := h₁.owners hx'
      rw [h₁.toShrinks.ownDestructor_eq t (mem_owners.mp hx').1]
      simp [hx, hx']
    · have hx'' : x ∉ h''.owners := fun hx => hx' (h₂.owners hx)
      simp [hx', hx'']
  · -- what a destructor of the second half contains is still allocated after the first
    have hlate : ∀ c, l₂ = c ++ .destruct x :: lb → .free y ∉ l₁ ++ c := by
      intro c hc
      have hpos : 0 < l₂.count (.destruct x) := List.count_pos_iff.mpr (by simp [hc])
      rw [hc₂] at hpos
      split at hpos
      · rename_i hx
        obtain ⟨hyow, hreach⟩ := ho.reach_shrunk h₁.toShrinks hx.1 hxy
        rw [List.mem_append, not_or]
        exact ⟨hl₁.not_freed (mem_owners.mp (Finset.mem_sdiff.mp hyow).1).1, hord₂ c x lb hc y hreach⟩
      · exact absurd hpos (lt_irrefl 0)
    rcases List.append_eq_append_iff.mp hl with ⟨c, hla, hlb⟩ | ⟨c, hl₁', hlb⟩
    · rw [hla]
      exact hlate c hlb
    · rcases c with _ | ⟨e, c⟩
      · rw [List.append_nil] at hl₁'
        rw [← hl₁']
        simpa using hlate [] hlb.symm
      · rw [List.cons_append, List.cons.injEq] at hlb
        obtain ⟨rfl, -⟩ := hlb
        exact hord₁ la x c hl₁' y hxy

/-! ### The walk -/

/-- The references `ext₀` that outlive a release of `h₀`, as the calls below see them. -/
structure Outlives (h₀ : Heap) (ext₀ : Addr → Nat) (h : Heap) (ext : Addr → Nat) : Prop where
  unshared : Unshared h
  shrinks : Shrinks h₀ h
  le : ∀ x, ext₀ x ≤ ext x

theorem destroys_spec (t : Tables) (h₀ : Heap) (ext₀ : Addr → Nat) : ReleaseSpec (Outlives h₀ ext₀) (Destroys t) :=
  ⟨Destroys.refl t, fun ho h₁ h₂ => h₁.trans ho h₂, fun hd => hd.toShrinks,
    fun hq x hx => absurd hx (by simp [hq.unshared x]), fun hle hq => ⟨hq.unshared, hq.shrinks, fun x => (hq.le x).trans (hle x)⟩,
    fun hs hq => ⟨hs.unshared hq.unshared, hq.shrinks.trans hs, hq.le⟩⟩

/-- The objects of `h₀` that only the released reference kept alive. -/
def Dying (h₀ : Heap) (ext₀ : Addr → Nat) (x : Addr) : Prop := x ∈ h₀.owners ∧ ¬ h₀.Live ext₀ x

/-- The gate is right about every dying object: where it sees no destructor below, none dies below. -/
def GateRight (t : Tables) (h₀ : Heap) (ext₀ : Addr → Nat) : Prop :=
  ∀ p x, h₀.Dying ext₀ p → h₀.Dying ext₀ x → ReflTransGen h₀.Points p x → t.ownDestructor h₀ p = false →
    t.subtreeOwnsDestructor h₀ p = false → t.ownDestructor h₀ x = false

/-- The fallback to the plain release skips no destructor. -/
theorem Outlives.destroys_plain {h₀ : Heap} (hgate : GateRight t h₀ ext₀)
    (hq : Outlives h₀ ext₀ h (less ext a)) (ho : Owned h ext dying) (hpos : 0 < ext a) (hp : Plain t h a)
    (ho' : Owned (release h.depth h a) (less ext a) dying) (hd : Drops dying h (release h.depth h a)) :
    Destroys t dying h (release h.depth h a) := by
  have hconf := Confined.release h.depth h a
  obtain ⟨l, hl⟩ := hd.events
  obtain ⟨l', hl', hnone⟩ := hconf.log
  have hll : l = l' := List.append_cancel_left (hl.log.symm.trans hl')
  subst hll
  have ha := ho.mem_owners_of_pos hpos
  have hcount := ho.count a ha (hq.unshared a)
  refine ⟨hd, l, hl, fun x => ?_, fun l₁ x l₂ hsplit => ?_⟩
  · rw [List.count_eq_zero.mpr (hnone x), if_neg]
    rintro ⟨hx, hgone, hown⟩
    have hxow := (Finset.mem_sdiff.mp hx).1
    by_cases hrc : 1 < h.refcount a
    · rw [depth, owners_release_of_shared_count ho hpos (hq.unshared a) hrc] at hgone
      exact hgone hxow
    · -- the last reference: `a` and everything that goes with it are dying
      obtain ⟨howna, hsub⟩ := hp.resolve_left hrc
      have hle : ∀ y, ext₀ y ≤ ext y := fun y => (hq.le y).trans (by rw [less]; split <;> omega)
      have hxdying : h₀.Dying ext₀ x :=
        ⟨hq.shrinks.owners hxow, fun hlive =>
          hgone (Finset.mem_sdiff.mp (ho'.mem_of_live (hq.shrinks.trans hd.toShrinks) hq.le hlive)).1⟩
      have hadying : h₀.Dying ext₀ a := by
        refine ⟨hq.shrinks.owners (Finset.mem_sdiff.mp ha).1, ?_⟩
        rintro ⟨r, hr, hra⟩
        rcases ReflTransGen.cases_tail hra with rfl | ⟨y, hry, hya⟩
        · have := hq.le a
          rw [less, if_pos rfl] at this
          omega
        · have hy := ho.mem_of_live hq.shrinks hle ⟨r, hr, hry⟩
          rw [Points, ← hq.shrinks.children_eq (mem_owners.mp (Finset.mem_sdiff.mp hy).1).1] at hya
          have : 0 < h.edges (h.owners \ dying) a := edges_pos.mpr ⟨y, hy, hya⟩
          omega
      have hobj : (release h.depth h a).obj? x ≠ h.obj? x := by
        intro heq
        refine hgone (mem_owners.mpr ?_)
        have := mem_owners.mp hxow
        simpa only [Allocated, Released, buffered, color, heq] using this
      obtain ⟨r, hr, hrx⟩ := hconf.reach x hobj
      rw [List.mem_singleton] at hr
      subst hr
      have hala := (mem_owners.mp (Finset.mem_sdiff.mp ha).1).1
      have hskip := hgate r x hadying hxdying (hq.shrinks.reach hrx)
        ((hq.shrinks.ownDestructor_eq t hala).symm.trans howna)
        ((hq.shrinks.subtreeOwnsDestructor_eq t hala).symm.trans hsub)
      rw [hq.shrinks.ownDestructor_eq t (mem_owners.mp hxow).1, hskip] at hown
      exact absurd hown (by decide)
  · refine absurd ?_ (hnone x)
    rw [hsplit]
    simp

/-- The end of a walk: the destructor came first, then everything below, then the box. -/
theorem Destroys.walk {h₁ : Heap} (ha : a ∈ h.owners \ dying)
    (ht : HeaderOnly {a} h (destructOwn t h a)) (how : (destructOwn t h a).owners = h.owners)
    (hlog : (destructOwn t h a).log = h.log ++ (if t.ownDestructor h a then [.destruct a] else []))
    (ho₁ : Owned h₁ (less ext a) (insert a dying)) (hd : Destroys t (insert a dying) (destructOwn t h a) h₁) :
    Destroys t dying h (h₁.freeShallow a) := by
  have hal₁ : h₁.Allocated a := (mem_owners.mp (ho₁.dying_owners (Finset.mem_insert_self a dying))).1
  obtain ⟨d, hd₀⟩ := ht.logged
  obtain ⟨l, hl, hcount, hord⟩ := hd.destructs
  obtain ⟨e, he⟩ := logged_freeShallow hal₁
  have hdeq : d = if t.ownDestructor h a then [.destruct a] else [] := List.append_cancel_left (hd₀.log.symm.trans hlog)
  have hdfree : ∀ y, Event.free y ∉ d := fun y => by
    rw [hdeq]
    split <;> simp
  have henone : ∀ b, Event.destruct b ∉ e := by
    obtain ⟨e', he', hnone⟩ := (Confined.freeShallow h₁ a).log
    rw [List.append_cancel_left (he.log.symm.trans he')]
    exact hnone
  refine ⟨.last ht ha hd.toDrops hal₁, d ++ l ++ e, (hd₀.trans hl).trans he, fun x => ?_, fun l₁ x l₂ hsplit y hxy => ?_⟩
  · rw [List.count_append, List.count_append, List.count_eq_zero.mpr (henone x), hcount, how, hdeq, Nat.add_zero]
    by_cases hxa : x = a
    · subst hxa
      have hself : ¬ (x ∈ h.owners \ insert x dying ∧ x ∉ h₁.owners ∧
          t.ownDestructor (destructOwn t h x) x = true) := fun hx =>
        (Finset.mem_sdiff.mp hx.1).2 (Finset.mem_insert_self x dying)
      rw [if_neg hself]
      have hgone := not_mem_owners_freeShallow hal₁
      by_cases hown : t.ownDestructor h x = true
      · simp [hown, Finset.mem_sdiff.mp ha, hgone]
      · simp [hown]
    · have hd0 : (if t.ownDestructor h a then [Event.destruct a] else []).count (.destruct x) = 0 := by
        rw [List.count_eq_zero]
        split <;> simp [hxa]
      have hiff : x ∈ (h₁.freeShallow a).owners ↔ x ∈ h₁.owners := by
        rw [mem_owners, mem_owners, Allocated, Allocated, Released, Released, buffered, buffered, color, color,
          obj?_freeShallow_of_ne hxa]
      rw [hd0, Nat.zero_add]
      by_cases hxow : x ∈ h.owners
      · have hx₀ : (destructOwn t h a).Allocated x := (ht.allocated_iff x).mpr (mem_owners.mp hxow).1
        rw [ht.shrinks.ownDestructor_eq t hx₀]
        simp [hiff, hxa]
      · simp [hxow]
  · rw [List.append_assoc] at hsplit
    have hreach : ReflTransGen (destructOwn t h a).Points x y := by
      refine ReflTransGen.mono (fun u w hp => ?_) _ _ hxy
      have hu : (destructOwn t h a).Allocated u := (ht.allocated_iff u).mpr (allocated_of_points hp)
      rwa [Points, ht.shrinks.children_eq hu]
    rcases List.append_eq_append_iff.mp hsplit with ⟨c, hl₁, hrest⟩ | ⟨c, hdc, hrest⟩
    · rw [hl₁, List.mem_append, not_or]
      refine ⟨hdfree y, ?_⟩
      rcases List.append_eq_append_iff.mp hrest with ⟨c', -, he'⟩ | ⟨c', hlc, hrest'⟩
      · exact absurd (by simp [he']) (henone x)
      · rcases c' with _ | ⟨e₀, c'⟩
        · rw [List.nil_append] at hrest'
          exact absurd (by simp [← hrest']) (henone x)
        · rw [List.cons_append, List.cons.injEq] at hrest'
          obtain ⟨rfl, -⟩ := hrest'
          exact hord c x c' hlc y hreach
    · intro hfree
      exact hdfree y (by simp [hdc, hfree])

/-- **The destructor-aware release** of one reference, where the gate is right about what dies. -/
theorem releaseValue_destroys (t : Tables) {h₀ : Heap} (hgate : GateRight t h₀ ext₀) (n : Nat) :
    Releases (Outlives h₀ ext₀) (Destroys t) n (releaseValue t n) :=
  releaseValue_releases t (destroys_spec t h₀ ext₀) (fun hq => hq.unshared)
    (fun hq ho hpos hp ho' hd => hq.destroys_plain hgate ho hpos hp ho' hd)
    (fun ha ht how hlog ho₁ hd => .walk ha ht how hlog ho₁ hd) n

/-! ### What dies -/

theorem Owned.live_of_acyclic (ho : Owned h ext ∅) (hu : Unshared h) (hpos : ∀ x ∈ h.owners, 0 < h.refcount x)
    (hac : ∀ x, ¬ TransGen h.Points x x) (hx : x ∈ h.owners) : h.Live ext x := by
  classical
  -- by induction on the number of objects that reach `x`
  induction hn : (h.dom.filter fun y => TransGen h.Points y x).card using Nat.strong_induction_on generalizing x with
  | _ n ih =>
    have hcount := ho.count x (by rwa [Finset.sdiff_empty]) (hu x)
    have := hpos x hx
    rw [Finset.sdiff_empty] at hcount
    by_cases hext : 0 < ext x
    · exact ⟨x, hext, .refl⟩
    · obtain ⟨y, hy, hyx⟩ := edges_pos.mp (show 0 < h.edges h.owners x by omega)
      have hlt : (h.dom.filter fun z => TransGen h.Points z y).card < n := by
        rw [← hn]
        apply Finset.card_lt_card
        refine ⟨fun z hz => ?_, fun hsub => ?_⟩
        · obtain ⟨hz1, hz2⟩ := Finset.mem_filter.mp hz
          exact Finset.mem_filter.mpr ⟨hz1, hz2.tail hyx⟩
        · have hyin := hsub (Finset.mem_filter.mpr ⟨mem_dom.mpr (mem_owners.mp hy).1, .single hyx⟩)
          exact hac y (Finset.mem_filter.mp hyin).2
      obtain ⟨r, hr, hry⟩ := ih _ hlt hy rfl
      exact ⟨r, hr, hry.tail hyx⟩

theorem Drops.gone_iff (hd : Drops ∅ h h') (ho' : Owned h' ext₀ ∅) (hu : Unshared h)
    (hpos : ∀ x ∈ h.owners, 0 < h.refcount x) (hac : ∀ x, ¬ TransGen h.Points x x) (hx : x ∈ h.owners) :
    x ∉ h'.owners ↔ h.Dying ext₀ x := by
  have hpos' : ∀ y ∈ h'.owners, 0 < h'.refcount y := by
    have := hd.positive (by simpa using hpos)
    simpa using this
  have hac' : ∀ y, ¬ TransGen h'.Points y y := fun y hy => hac y (TransGen.mono (fun _ _ hp => hd.toShrinks.points hp) _ _ hy)
  constructor
  · intro hgone
    refine ⟨hx, fun hlive => hgone ?_⟩
    exact (Finset.mem_sdiff.mp (ho'.mem_of_live hd.toShrinks (fun _ => le_rfl) hlive)).1
  · rintro ⟨-, hdead⟩ hx'
    obtain ⟨r, hr, hrx⟩ := ho'.live_of_acyclic (hd.toShrinks.unshared hu) hpos' hac' hx'
    exact hdead ⟨r, hr, hd.toShrinks.reach hrx⟩

/-! ### The gate -/

end Heap

/-- What the checker promises about the tables: a type with a destructor reaches one, and below an object or
enum of a type that is not listed there is no destructor. -/
structure Tables.Sound (t : Tables) (h : Heap) : Prop where
  own : ∀ name ∈ t.destructors, name ∈ t.destructReachable
  fields : ∀ p shape, h.shape? p = some shape → shape.name ∉ t.destructReachable →
    ∀ x, TransGen h.Points p x → t.ownDestructor h x = false

/-- A tuple or a bound method: it holds values, and the gate takes it for a leaf. -/
def Payload.isUngated : Payload → Bool
  | .tuple _ | .boundMethod _ _ => true
  | _ => false

namespace Heap

variable {h : Heap} {ext : Addr → Nat}

/-- No tuple and no bound method that dies holds a dying object with a destructor. -/
def UngatedClean (t : Tables) (h : Heap) (ext₀ : Addr → Nat) : Prop :=
  ∀ p x, h.Dying ext₀ p → h.Dying ext₀ x → (h.payload? p).any Payload.isUngated = true →
    ReflTransGen h.Points p x → t.ownDestructor h x = false

/-- Tuples and bound methods are all the gate misses. -/
theorem UngatedClean.gateRight {t : Tables} {ext₀ : Addr → Nat} (hc : UngatedClean t h ext₀) (ht : t.Sound h) :
    GateRight t h ext₀ := by
  intro p x hp hx hpx hown hsub
  obtain ⟨o, ho⟩ := allocated_iff.mp (mem_owners.mp hp.1).1
  have hpay : h.payload? p = some o.payload := by rw [payload?, ho, Option.map_some]
  have hstep : x = p ∨ TransGen h.Points p x := (reflTransGen_iff_eq_or_transGen.mp hpx).imp_left id
  rcases hstep with rfl | hstep
  · exact hown
  by_cases hun : o.payload.isUngated = true
  · exact hc p x hp hx (by rw [hpay]; exact hun) hpx
  by_cases hempty : t.destructReachable = []
  · -- no destructor in the whole program
    have hnone : t.destructors = [] := by
      rw [List.eq_nil_iff_forall_not_mem]
      intro name hname
      have := ht.own name hname
      rw [hempty] at this
      exact absurd this List.not_mem_nil
    rw [Tables.ownDestructor, hnone]
    split <;> rfl
  -- every other payload with children passes the gate, or is an object or enum of a type that is not listed
  obtain ⟨c, hpc, -⟩ := TransGen.head'_iff.mp hstep
  have hchild : c ∈ o.payload.children := by simpa [Points, children, ho] using hpc
  have hshape : h.shape? p = o.payload.shape? := by rw [shape?, ho, Option.bind_some]
  rw [Tables.subtreeOwnsDestructor, hpay] at hsub
  dsimp only at hsub
  rcases hsh : o.payload.shape? with _ | shape
  · rw [hsh] at hsub
    have hne : t.destructReachable.isEmpty = false := by
      rw [Bool.eq_false_iff, ne_eq, List.isEmpty_iff]
      exact hempty
    dsimp only at hsub
    rw [hne] at hsub
    cases hpl : o.payload <;>
      simp [hpl, Payload.children, Payload.slots, Payload.isUngated, Payload.shape?, Payload.isList, Payload.isMap,
        Payload.isSet, Payload.isClosure, Payload.isCell, Payload.isFuture, Payload.isIter] at hchild hsub hsh hun
  · rw [hsh] at hsub
    refine ht.fields p shape (hshape.trans hsh) ?_ x hstep
    simpa using hsub

/-! ### The result -/

/-- The references that are left when the caller has given up `v`. -/
def lessValue (ext : Addr → Nat) : Value → Addr → Nat
  | .ptr a => less ext a
  | _ => ext

/-- A release of `v` by a caller that holds a reference to it, in a heap without cycles and with exact counts. -/
structure ReleaseOf (t : Tables) (h : Heap) (ext : Addr → Nat) (v : Value) : Prop where
  owned : Owned h ext ∅
  unshared : ∀ x, h.isShared x = false
  referenced : ∀ x ∈ h.owners, 0 < h.refcount x
  acyclic : ∀ x, ¬ TransGen h.Points x x
  held : ∀ a, v = .ptr a → 0 < ext a
  tables : t.Sound h

/-- The release from `h` to `h'` frees exactly the objects that the references `ext₀` do not reach (in
trial-deletion mode it may defer the deallocation of a buffered one), touches no freed box, and runs the
destructor of each of them exactly once, before anything reachable from it is freed. -/
structure RunsDue (t : Tables) (h : Heap) (ext₀ : Addr → Nat) (h' : Heap) (l : List Event) : Prop where
  log : h'.log = h.log ++ l
  faults : ∀ a, Event.fault a ∉ l
  gone : ∀ x ∈ h.owners, x ∉ h'.owners ↔ h.Dying ext₀ x
  frees : ∀ x, l.count (.free x) ≤ 1 ∧ (.free x ∈ l → h.Dying ext₀ x) ∧
    (h.mode = .trace → h.Dying ext₀ x → .free x ∈ l)
  destructs : ∀ x, l.count (.destruct x) ≤ 1 ∧ (.destruct x ∈ l ↔ h.Dying ext₀ x ∧ t.ownDestructor h x = true)
  order : ∀ l₁ x l₂, l = l₁ ++ .destruct x :: l₂ → ∀ y, ReflTransGen h.Points x y → .free y ∉ l₁

theorem Drops.runsDue_frees {ext₀ : Addr → Nat} {l : List Event} (hd : Drops ∅ h h') (hl : Logged h h' l)
    (hquiet : h.mode = .trace → ∀ x, h'.buffered x = false)
    (hgone : ∀ x ∈ h.owners, x ∉ h'.owners ↔ h.Dying ext₀ x) (x : Addr) :
    l.count (.free x) ≤ 1 ∧ (.free x ∈ l → h.Dying ext₀ x) ∧ (h.mode = .trace → h.Dying ext₀ x → .free x ∈ l) := by
  have hcount := hl.frees x
  refine ⟨?_, fun hx => ?_, fun hm hx => ?_⟩
  · by_cases hal : h.Allocated x
    · rw [if_pos hal] at hcount
      omega
    · rw [if_neg hal] at hcount
      omega
  · have hpos := List.count_pos_iff.mpr hx
    have hal' : ¬ h'.Allocated x := fun hal' => hl.not_freed hal' hx
    have hal : h.Allocated x := by
      by_contra hal
      rw [if_neg hal] at hcount
      omega
    have hrel : ¬ h.Released x := fun hr => by
      rw [Allocated, hd.kept x (.inr hr)] at hal'
      exact hal' hal
    exact (hgone x (mem_owners.mpr ⟨hal, hrel⟩)).mp fun hx' => hal' (mem_owners.mp hx').1
  · have hx' := (hgone x hx.1).mpr hx
    have hal' : ¬ h'.Allocated x := fun hal' => hx' (mem_owners.mpr ⟨hal', fun hr => by
      have := hr.1
      rw [hquiet hm x] at this
      exact absurd this (by decide)⟩)
    rw [if_neg hal', if_pos (mem_owners.mp hx.1).1] at hcount
    exact List.count_pos_iff.mp (by omega)

/-- **`release_value` frees exactly what dies and runs every due destructor once, container before contained**,
in every heap without cycles and with exact counts in which no tuple and no bound method that dies holds a dying
object with a destructor. -/
theorem releaseAny_runs_due (t : Tables) {h : Heap} {ext : Addr → Nat} {v : Value} (hr : ReleaseOf t h ext v)
    (hc : UngatedClean t h (lessValue ext v)) :
    ∃ l, RunsDue t h (lessValue ext v) (h.releaseAny t v) l := by
  have hstep : Owned (h.releaseAny t v) (lessValue ext v) ∅ ∧ Destroys t ∅ h (h.releaseAny t v) := by
    cases v with
    | ptr a =>
      refine releaseValue_destroys t (hc.gateRight hr.tables) h.depth h ext ∅ a ⟨hr.unshared, .refl h, fun _ => le_rfl⟩
        hr.owned (hr.held a rfl) ?_
      exact lt_of_le_of_lt (Finset.card_le_card (Finset.sdiff_subset.trans (Finset.filter_subset _ _)))
        h.card_dom_lt_depth
    | _ => exact ⟨hr.owned, .refl t ∅ h⟩
  obtain ⟨ho', hd⟩ := hstep
  obtain ⟨l, hl, hcount, horder⟩ := hd.destructs
  have hgone : ∀ x ∈ h.owners, x ∉ (h.releaseAny t v).owners ↔ h.Dying (lessValue ext v) x := fun x hx =>
    hd.toDrops.gone_iff ho' hr.unshared hr.referenced hr.acyclic hx
  have hquiet : h.mode = .trace → ∀ x, (h.releaseAny t v).buffered x = false := fun hm =>
    ho'.quiet (hd.mode.trans hm)
  refine ⟨l, hl.log, hl.faults, hgone, hd.toDrops.runsDue_frees hl hquiet hgone, fun x => ?_, horder⟩
  have hcx := hcount x
  rw [Finset.sdiff_empty] at hcx
  refine ⟨?_, fun hx => ?_, fun hx => ?_⟩
  · rw [hcx]
    split <;> omega
  · have hpos := List.count_pos_iff.mpr hx
    rw [hcx] at hpos
    split at hpos
    · rename_i hdue
      exact ⟨(hgone x hdue.1).mp hdue.2.1, hdue.2.2⟩
    · exact absurd hpos (lt_irrefl 0)
  · rw [if_pos ⟨hx.1.1, (hgone x hx.1.1).mpr hx.1, hx.2⟩] at hcx
    exact List.count_pos_iff.mp (by omega)

/-- An instance of a type with a destructor in slot 0, held by the container `p` in slot 1. -/
def resourceIn (p : Payload) : Heap where
  objs := [some ⟨⟨1, 0, .black, false, false, true⟩, .object ⟨"Resource"⟩ []⟩,
    some ⟨⟨1, 1, .black, false, false, true⟩, p⟩]
  candidates := []
  registry := [0, 1]
  mode := .trace
  nextSeq := 2
  anomalies := 0
  log := []

def resourceTables : Tables := ⟨["Resource"], ["Resource"]⟩

/-- The caller's reference to the container. -/
def containerRef (x : Addr) : Nat := if x = 1 then 1 else 0

theorem releaseOf_of_dom {t : Tables} {h : Heap} {ext : Addr → Nat} {v : Value} (hm : h.mode = .trace)
    (hex : Exact h ext) (halloc : ∀ x, 0 < ext x → h.Allocated x)
    (hobj : ∀ x ∈ h.dom, h.isShared x = false ∧ h.buffered x = false ∧ 0 < h.refcount x ∧
      (∀ c ∈ h.children x, c < x) ∧ ∀ shape ∈ h.shape? x, shape.name ∈ t.destructReachable)
    (hown : ∀ name ∈ t.destructors, name ∈ t.destructReachable) (hheld : ∀ a, v = .ptr a → 0 < ext a) :
    ReleaseOf t h ext v := by
  have hsh : ∀ x, h.isShared x = false := fun x => by
    by_cases hal : h.Allocated x
    · exact (hobj x (mem_dom.mpr hal)).1
    · exact isShared_of_not_allocated hal
  have hbuf : ∀ x, h.buffered x = false := fun x => by
    by_contra hb
    rw [Bool.not_eq_false] at hb
    rw [(hobj x (mem_dom.mpr (allocated_of_buffered hb))).2.1] at hb
    exact absurd hb (by decide)
  have hlt : ∀ x y, TransGen h.Points x y → y < x := by
    intro x y hxy
    induction hxy with
    | single hp => exact (hobj _ (mem_dom.mpr (allocated_of_points hp))).2.2.2.1 _ hp
    | tail _ hp ih => exact ((hobj _ (mem_dom.mpr (allocated_of_points hp))).2.2.2.1 _ hp).trans ih
  refine ⟨hex.owned hm halloc hsh hbuf, hsh, fun x hx => ?_, fun x hx => lt_irrefl x (hlt x x hx), hheld, hown,
    fun p shape hp hn => ?_⟩
  · exact (hobj x (mem_dom.mpr (mem_owners.mp hx).1)).2.2.1
  · have hal : h.Allocated p := by
      by_contra hal
      rw [Allocated, Option.not_isSome_iff_eq_none] at hal
      rw [shape?, hal] at hp
      exact absurd hp (by simp)
    exact absurd ((hobj p (mem_dom.mpr hal)).2.2.2.2 shape hp) hn

theorem releaseOf_tuple : ReleaseOf resourceTables (resourceIn (.tuple [.ptr 0])) containerRef (.ptr 1) := by
  refine releaseOf_of_dom rfl (exact_of_dom (by decide) (by decide) (by decide)) (fun x hx => ?_) (by decide)
    (by decide) fun a ha => ?_
  · by_cases hx1 : x = 1
    · subst hx1
      decide
    · simp [containerRef, hx1] at hx
  · cases ha
    decide

theorem releaseOf_list : ReleaseOf resourceTables (resourceIn (.list [.ptr 0])) containerRef (.ptr 1) := by
  refine releaseOf_of_dom rfl (exact_of_dom (by decide) (by decide) (by decide)) (fun x hx => ?_) (by decide)
    (by decide) fun a ha => ?_
  · by_cases hx1 : x = 1
    · subst hx1
      decide
    · simp [containerRef, hx1] at hx
  · cases ha
    decide

/-- A tuple that holds the resource: both are freed, and the destructor never runs. -/
theorem tuple_skips_destructor :
    ReleaseOf resourceTables (resourceIn (.tuple [.ptr 0])) containerRef (.ptr 1) ∧
      ((resourceIn (.tuple [.ptr 0])).releaseAny resourceTables (.ptr 1)).log = [.free 0, .free 1] ∧
      ¬ ∃ l, RunsDue resourceTables (resourceIn (.tuple [.ptr 0])) (lessValue containerRef (.ptr 1))
        ((resourceIn (.tuple [.ptr 0])).releaseAny resourceTables (.ptr 1)) l := by
  have hlog : ((resourceIn (.tuple [.ptr 0])).releaseAny resourceTables (.ptr 1)).log = [.free 0, .free 1] := by decide
  refine ⟨releaseOf_tuple, hlog, ?_⟩
  rintro ⟨l, hdue⟩
  have hl : l = [.free 0, .free 1] := hdue.log.symm.trans hlog
  have hdying := (hdue.gone 0 (by decide)).mp (by decide)
  have hrun := (hdue.destructs 0).2.mpr ⟨hdying, by decide⟩
  rw [hl] at hrun
  exact absurd hrun (by decide)

/-- In a list it runs, before the instance and the list are freed. -/
theorem list_runs_destructor :
    ((resourceIn (.list [.ptr 0])).releaseAny resourceTables (.ptr 1)).log = [.destruct 0, .free 0, .free 1] ∧
      ∃ l, RunsDue resourceTables (resourceIn (.list [.ptr 0])) (lessValue containerRef (.ptr 1))
        ((resourceIn (.list [.ptr 0])).releaseAny resourceTables (.ptr 1)) l := by
  refine ⟨by decide, releaseAny_runs_due resourceTables releaseOf_list fun p x hp _ hun _ => ?_⟩
  have hall : ∀ p ∈ (resourceIn (.list [.ptr 0])).owners,
      ((resourceIn (.list [.ptr 0])).payload? p).any Payload.isUngated = false := by decide
  rw [hall p hp.1] at hun
  exact absurd hun (by decide)

end Heap

end Noeta
