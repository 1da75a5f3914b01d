import Noeta.Ext.CookieLives
import Mathlib.Data.List.Pairwise

/-!
# What the jar sends

The jar after any calls of `store` holds one entry for each key that is kept, as old as its life
since the last deletion. So what it sends are the cookies of the last calls; their order is that of
their true lives exactly when no cookie that came back after it had expired stands before one whose
life began in between.
-/

namespace Noeta.Ext

open Noeta.Lib.Rfc3986 Noeta.Lib.Utf8

/-! ### The jar after some calls -/

def replay (calls : List StoreCall) : Option CookieJar :=
  calls.foldlM (fun jar call => (jar.store call.url call.setCookie call.nowMs).map Prod.fst)
    CookieJar.new

structure Tracks (calls : List StoreCall) (jar : CookieJar) : Prop where
  once : (jar.entries.map StoredCookie.key).Nodup
  entry : ∀ e ∈ jar.entries, ∃ l, keptLife calls e.key = some l ∧
    e = l.last.stored l.birth.1 e.seq
  held : ∀ key l, keptLife calls key = some l → ∃ e ∈ jar.entries, e.key = key
  bound : ∀ e ∈ jar.entries, e.seq ≤ jar.nextSeq
  ordered : ∀ e ∈ jar.entries, ∀ f ∈ jar.entries, ∀ l m, keptLife calls e.key = some l →
    keptLife calls f.key = some m → (e.seq < f.seq ↔ l.birth.2 < m.birth.2)

variable {jar : CookieJar} {nowMs : Nat} {a : Arrival}

theorem mem_without {key : CookieKey} {e : StoredCookie} :
    e ∈ jar.without key ↔ e ∈ jar.entries ∧ e.key ≠ key := by
  simp [CookieJar.without]

theorem once_without (h : (jar.entries.map StoredCookie.key).Nodup)
    (key : CookieKey) : ((jar.without key).map StoredCookie.key).Nodup :=
  h.sublist (List.filter_sublist.map _)

namespace Tracks

variable {calls : List StoreCall} {jar : CookieJar}

theorem new : Tracks [] CookieJar.new where
  once := List.nodup_nil
  entry e he := absurd he List.not_mem_nil
  held key l h := by simp [keptLife, life_nil] at h
  bound e he := absurd he List.not_mem_nil
  ordered e he := absurd he List.not_mem_nil

variable {call : StoreCall} {a : Arrival}

theorem refused (h : Tracks calls jar) (harrival : call.arrival = none) :
    Tracks (calls ++ [call]) jar := by
  have hlife : keptLife (calls ++ [call]) = keptLife calls := funext (life_refused harrival)
  exact ⟨h.once, hlife ▸ h.entry, hlife ▸ h.held, h.bound, hlife ▸ h.ordered⟩

theorem delete (h : Tracks calls jar) (harrival : call.arrival = some a) (hdeletes : a.deletes = true) :
    Tracks (calls ++ [call]) { jar with entries := jar.without a.key } := by
  have hown : keptLife (calls ++ [call]) a.key = none := by
    rw [keptLife, life_own harrival]
    exact if_pos hdeletes
  have hother : ∀ key, a.key ≠ key → keptLife (calls ++ [call]) key = keptLife calls key :=
    fun key => life_other harrival
  refine ⟨once_without h.once a.key, ?_, ?_, ?_, ?_⟩
  · intro e he
    obtain ⟨hmem, hkey⟩ := mem_without.1 he
    rw [hother e.key (Ne.symm hkey)]
    exact h.entry e hmem
  · intro key l hl
    have hkey : a.key ≠ key := by
      rintro rfl
      rw [hown] at hl
      simp at hl
    rw [hother key hkey] at hl
    obtain ⟨e, hmem, heq⟩ := h.held key l hl
    exact ⟨e, mem_without.2 ⟨hmem, heq ▸ Ne.symm hkey⟩, heq⟩
  · intro e he
    exact h.bound e (mem_without.1 he).1
  · intro e he f hf
    obtain ⟨hmem, hkey⟩ := mem_without.1 he
    obtain ⟨hmem', hkey'⟩ := mem_without.1 hf
    rw [hother e.key (Ne.symm hkey), hother f.key (Ne.symm hkey')]
    exact h.ordered e hmem f hmem'

/-- A new entry whose number stands to the others as its birth stands to theirs. -/
theorem push (h : Tracks calls jar) (harrival : call.arrival = some a) {birth : Nat × Nat} {seq n : Nat}
    (hown : keptLife (calls ++ [call]) a.key = some ⟨birth, a⟩)
    (hseq : seq ≤ n) (hn : jar.nextSeq ≤ n)
    (horder : ∀ f ∈ jar.entries, f.key ≠ a.key → ∀ m, keptLife calls f.key = some m →
      (seq < f.seq ↔ birth.2 < m.birth.2) ∧ (f.seq < seq ↔ m.birth.2 < birth.2)) :
    Tracks (calls ++ [call]) ⟨jar.without a.key ++ [a.stored birth.1 seq], n⟩ := by
  have hother : ∀ key, a.key ≠ key → keptLife (calls ++ [call]) key = keptLife calls key :=
    fun key => life_other harrival
  refine ⟨?_, ?_, ?_, ?_, ?_⟩
  · rw [List.map_append, List.map_singleton]
    refine List.nodup_append.2 ⟨once_without h.once a.key, List.nodup_singleton _, ?_⟩
    intro key hkey key' hkey'
    obtain ⟨e, he, rfl⟩ := List.mem_map.1 hkey
    rw [List.mem_singleton.1 hkey']
    exact (mem_without.1 he).2
  · intro e he
    obtain he | he := List.mem_append.1 he
    · obtain ⟨hmem, hkey⟩ := mem_without.1 he
      rw [hother e.key (Ne.symm hkey)]
      exact h.entry e hmem
    · rw [List.mem_singleton.1 he]
      exact ⟨⟨birth, a⟩, hown, rfl⟩
  · intro key l hl
    by_cases hkey : a.key = key
    · exact ⟨_, List.mem_append_right _ List.mem_cons_self, hkey⟩
    · rw [hother key hkey] at hl
      obtain ⟨e, hmem, heq⟩ := h.held key l hl
      exact ⟨e, List.mem_append_left _ (mem_without.2 ⟨hmem, heq ▸ Ne.symm hkey⟩), heq⟩
  · intro e he
    obtain he | he := List.mem_append.1 he
    · exact Nat.le_trans (h.bound e (mem_without.1 he).1) hn
    · rw [List.mem_singleton.1 he]
      exact hseq
  · intro e he f hf l m hl hm
    obtain he | he := List.mem_append.1 he
    · obtain ⟨hmem, hkey⟩ := mem_without.1 he
      rw [hother e.key (Ne.symm hkey)] at hl
      obtain hf | hf := List.mem_append.1 hf
      · obtain ⟨hmem', hkey'⟩ := mem_without.1 hf
        rw [hother f.key (Ne.symm hkey')] at hm
        exact h.ordered e hmem f hmem' l m hl hm
      · rw [List.mem_singleton.1 hf] at hm ⊢
        rw [Arrival.key_stored, hown, Option.some.injEq] at hm
        subst hm
        exact (horder e hmem hkey l hl).2
    · rw [List.mem_singleton.1 he] at hl ⊢
      rw [Arrival.key_stored, hown, Option.some.injEq] at hl
      subst hl
      obtain hf | hf := List.mem_append.1 hf
      · obtain ⟨hmem, hkey⟩ := mem_without.1 hf
        rw [hother f.key (Ne.symm hkey)] at hm
        exact (horder f hmem hkey m hm).1
      · rw [List.mem_singleton.1 hf] at hm ⊢
        rw [Arrival.key_stored, hown, Option.some.injEq] at hm
        subst hm
        simp

theorem take (h : Tracks calls jar)
    (harrival : call.arrival = some a) : Tracks (calls ++ [call]) (jar.take a).1 := by
  unfold CookieJar.take
  cases hdeletes : a.deletes with
  | true => exact h.delete harrival hdeletes
  | false =>
    have hnext := @life_own (fun _ _ => true) calls call a harrival
    unfold Life.next at hnext
    rw [hdeletes] at hnext
    simp only [Bool.false_eq_true, if_false, if_true] at hnext ⊢
    cases hheld : jar.held a.key with
    | some previous =>
      have hmem : previous ∈ jar.entries := List.mem_of_find?_eq_some hheld
      have hkey : previous.key = a.key := by simpa using List.find?_some hheld
      obtain ⟨l, hl, heq⟩ := h.entry previous hmem
      have hcreated : previous.createdMs = l.birth.1 := by rw [heq]; rfl
      have hlife : keptLife calls a.key = some l := hkey ▸ hl
      rw [show life (fun _ _ => true) calls a.key = some l from hlife] at hnext
      simp only [hcreated]
      refine h.push harrival hnext (h.bound previous hmem) (Nat.le_refl _) ?_
      intro f hf _ m hm
      exact ⟨h.ordered previous hmem f hf l m hl hm, h.ordered f hf previous hmem m l hm hl⟩
    | none =>
      have hlife : keptLife calls a.key = none := by
        cases hl : keptLife calls a.key with
        | none => rfl
        | some l =>
          obtain ⟨e, hmem, hkey⟩ := h.held a.key l hl
          exact absurd hkey (by simpa using List.find?_eq_none.1 hheld e hmem)
      rw [show life (fun _ _ => true) calls a.key = none from hlife] at hnext
      refine h.push harrival hnext (Nat.le_refl _) (Nat.le_succ _) ?_
      intro f hf _ m hm
      have hbound := h.bound f hf
      have hplace := birth_lt hm
      constructor
      · simp only
        omega
      · simp only
        omega

theorem store (h : Tracks calls jar) (call : StoreCall) :
    ∃ next stored, jar.store call.url call.setCookie call.nowMs = some (next, stored) ∧
      Tracks (calls ++ [call]) next := by
  refine ⟨_, _, store_eq h.once call, ?_⟩
  cases harrival : call.arrival with
  | none => exact h.refused harrival
  | some a => exact h.take harrival

end Tracks

theorem replay_snoc (calls : List StoreCall) (call : StoreCall) :
    replay (calls ++ [call]) = (replay calls).bind fun jar =>
      (jar.store call.url call.setCookie call.nowMs).map Prod.fst := by
  rw [replay, List.foldlM_append]
  simp only [List.foldlM_cons, List.foldlM_nil, bind_pure]
  rfl

theorem replay_tracks (calls : List StoreCall) : ∃ jar, replay calls = some jar ∧ Tracks calls jar := by
  induction calls using List.reverseRecOn with
  | nil => exact ⟨CookieJar.new, rfl, Tracks.new⟩
  | append_singleton calls call ih =>
    obtain ⟨jar, hreplay, htracks⟩ := ih
    obtain ⟨next, stored, hstore, hnext⟩ := htracks.store call
    refine ⟨next, ?_, hnext⟩
    rw [replay_snoc, hreplay, Option.bind_some, hstore]
    rfl

/-! ### What goes with a request -/

/-- A cookie belongs to a request. -/
structure Matches (url : Text) (nowMs : Nat) (a : Arrival) : Prop where
  live : a.expiredAt nowMs = false
  host : if a.hostOnly then a.domain = toAsciiLowercase (hostOf url)
    else Covers a.domain (toAsciiLowercase (hostOf url))
  path : PathCovers a.path (pathOf url)
  secure : a.cookie.secure = true → isSecure url = true

/-- The filters answer for every entry, and keep what belongs to the request. -/
theorem sentTo_spec (url : Text) (nowMs : Nat) (e : StoredCookie) :
    ∃ wanted : Bool,
      e.sentTo (toAsciiLowercase (hostOf url)) (pathOf url) (isSecure url) nowMs = some wanted ∧
        (wanted = true ↔
          Matches url nowMs ⟨e.cookie, e.domain, e.hostOnly, e.path, e.expiresMs, e.createdMs⟩) := by
  unfold StoredCookie.sentTo
  cases hlive : e.expiredAt nowMs with
  | true =>
    refine ⟨false, rfl, iff_of_false (by simp) fun h => ?_⟩
    exact absurd (hlive.symm.trans h.live) (by simp)
  | false =>
    obtain ⟨hostOk, hhost, hhostIff⟩ : ∃ hostOk : Bool,
        e.hostMatches (toAsciiLowercase (hostOf url)) = some hostOk ∧
        (hostOk = true ↔ if e.hostOnly then e.domain = toAsciiLowercase (hostOf url)
          else Covers e.domain (toAsciiLowercase (hostOf url))) := by
      unfold StoredCookie.hostMatches
      cases e.hostOnly with
      | true => exact ⟨_, rfl, by simp⟩
      | false => exact domainMatches_spec _ _
    obtain ⟨pathOk, hpath, hpathIff⟩ := pathMatches_spec (pathOf url) e.path
    rw [hhost, hpath]
    cases hostOk with
    | false =>
      refine ⟨false, rfl, iff_of_false (by simp) fun h => ?_⟩
      exact absurd (hhostIff.2 h.host) (by simp)
    | true =>
      refine ⟨pathOk && (isSecure url || !e.cookie.secure), rfl, ?_⟩
      rw [Bool.and_eq_true, hpathIff, Bool.or_eq_true, Bool.not_eq_true']
      constructor
      · rintro ⟨hcovers, hsecure⟩
        refine ⟨hlive, hhostIff.1 rfl, hcovers, ?_⟩
        intro h
        obtain hs | hs := hsecure
        · exact hs
        · exact absurd (h.symm.trans hs) (by simp)
      · intro h
        refine ⟨h.path, ?_⟩
        cases hs : e.cookie.secure with
        | true => exact .inl (h.secure hs)
        | false => exact .inr rfl

def wanted (url : Text) (nowMs : Nat) (e : StoredCookie) : Bool :=
  (e.sentTo (toAsciiLowercase (hostOf url)) (pathOf url) (isSecure url) nowMs).getD false

theorem wanted_stored {url : Text} {createdMs seq : Nat} :
    wanted url nowMs (a.stored createdMs seq) = true ↔ Matches url nowMs a := by
  obtain ⟨w, hw, hiff⟩ := sentTo_spec url nowMs (a.stored createdMs seq)
  rw [wanted, hw, Option.getD_some, hiff]
  exact ⟨fun h => ⟨h.live, h.host, h.path, h.secure⟩, fun h => ⟨h.live, h.host, h.path, h.secure⟩⟩

theorem filterAuxM_some {α : Type} (f : α → Option Bool) (p : α → Bool) :
    ∀ (l acc : List α), (∀ x ∈ l, f x = some (p x)) →
      l.filterAuxM f acc = some ((l.filter p).reverse ++ acc)
  | [], acc, _ => rfl
  | x :: l, acc, h => by
    have hx := h x List.mem_cons_self
    have ih := fun acc => filterAuxM_some f p l acc fun y hy => h y (List.mem_cons_of_mem _ hy)
    rw [List.filterAuxM, hx, List.filter_cons]
    cases p x with
    | true =>
      refine (ih (x :: acc)).trans ?_
      simp
    | false => exact ih acc

theorem matching_eq (jar : CookieJar) (url : Text) (nowMs : Nat) :
    jar.matching url nowMs =
      some ((jar.entries.filter (wanted url nowMs)).mergeSort StoredCookie.notAfter) := by
  have hfilter : (jar.entries.filterM fun e =>
      e.sentTo (toAsciiLowercase (hostOf url)) (pathOf url) (isSecure url) nowMs) =
      some (jar.entries.filter (wanted url nowMs)) := by
    rw [List.filterM, filterAuxM_some _ (wanted url nowMs)]
    · simp
    · intro e _
      obtain ⟨w, hw, -⟩ := sentTo_spec url nowMs e
      rw [wanted, hw]
      rfl
  unfold CookieJar.matching
  simp only [hfilter]
  rfl

theorem notAfter_iff {a b : StoredCookie} :
    a.notAfter b = true ↔ byteLen b.path < byteLen a.path ∨ (byteLen b.path = byteLen a.path ∧
      (a.createdMs < b.createdMs ∨ (a.createdMs = b.createdMs ∧ a.seq ≤ b.seq))) := by
  simp [StoredCookie.notAfter]

theorem notAfter_trans (a b c : StoredCookie) (hab : a.notAfter b = true)
    (hbc : b.notAfter c = true) : a.notAfter c = true := by
  rw [notAfter_iff] at *
  omega

theorem notAfter_total (a b : StoredCookie) : (a.notAfter b || b.notAfter a) = true := by
  rw [Bool.or_eq_true, notAfter_iff, notAfter_iff]
  omega

theorem pairwise_sent (entries : List StoredCookie) :
    (entries.mergeSort StoredCookie.notAfter).Pairwise fun a b => a.notAfter b = true :=
  List.pairwise_mergeSort notAfter_trans notAfter_total entries

/-! ### The order of the lives -/

/-- One life began before another, by time and then by place. -/
def Earlier (x y : Option Life) : Prop :=
  ∃ l ∈ x, ∃ m ∈ y, l.birth.1 < m.birth.1 ∨ (l.birth.1 = m.birth.1 ∧ l.birth.2 < m.birth.2)

theorem Earlier.asymm {x y : Option Life} (h : Earlier x y) : ¬ Earlier y x := by
  obtain ⟨l, hl, m, hm, hlt⟩ := h
  rintro ⟨m', hm', l', hl', hlt'⟩
  rw [Option.mem_unique hm' hm, Option.mem_unique hl' hl] at hlt'
  omega

/-- The cookies that belong to a request: of each key that of the last call. -/
def Assigned (calls : List StoreCall) (url : Text) (nowMs : Nat) (a : Arrival) : Prop :=
  current calls a.key = some a ∧ Matches url nowMs a

theorem trueLife_of_assigned {calls : List StoreCall} {url : Text}
    (ha : Assigned calls url nowMs a) : ∃ l, trueLife calls a.key = some l := by
  have hlast := @life_last (fun previous a => !previous.expiredAt a.nowMs) calls a.key
  rw [ha.1, Option.map_eq_some_iff] at hlast
  obtain ⟨l, hl, -⟩ := hlast
  exact ⟨l, hl⟩

/-- The order to send two keys' cookies in. -/
def SentBefore (calls : List StoreCall) (key key' : CookieKey) : Prop :=
  byteLen key'.path < byteLen key.path ∨
    (byteLen key'.path = byteLen key.path ∧ Earlier (trueLife calls key) (trueLife calls key'))

/-- A cookie was stored before another and came back, after it had expired, only when the other's
life had begun. -/
def Overtaken (calls : List StoreCall) (url : Text) (nowMs : Nat) : Prop :=
  ∃ a b, Assigned calls url nowMs a ∧ Assigned calls url nowMs b ∧
    byteLen a.path = byteLen b.path ∧
    Earlier (keptLife calls a.key) (keptLife calls b.key) ∧
    Earlier (trueLife calls b.key) (trueLife calls a.key)

namespace Tracks

variable {calls : List StoreCall} {jar : CookieJar} (h : Tracks calls jar)

include h

theorem eq_of_key {e f : StoredCookie} (he : e ∈ jar.entries) (hf : f ∈ jar.entries)
    (hkey : e.key = f.key) : e = f := List.inj_on_of_nodup_map h.once he hf hkey

theorem earlier_iff {e f : StoredCookie} (he : e ∈ jar.entries) (hf : f ∈ jar.entries) :
    Earlier (keptLife calls e.key) (keptLife calls f.key) ↔
      e.createdMs < f.createdMs ∨ (e.createdMs = f.createdMs ∧ e.seq < f.seq) := by
  obtain ⟨l, hl, heq⟩ := h.entry e he
  obtain ⟨m, hm, hfeq⟩ := h.entry f hf
  have hcreated : e.createdMs = l.birth.1 := by rw [heq]; rfl
  have hcreated' : f.createdMs = m.birth.1 := by rw [hfeq]; rfl
  rw [hcreated, hcreated', h.ordered e he f hf l m hl hm]
  constructor
  · rintro ⟨l', hl', m', hm', hlt⟩
    rw [hl, Option.mem_some_iff] at hl'
    rw [hm, Option.mem_some_iff] at hm'
    subst hl' hm'
    exact hlt
  · exact fun hlt => ⟨l, hl, m, hm, hlt⟩

theorem seq_ne {e f : StoredCookie} (he : e ∈ jar.entries) (hf : f ∈ jar.entries) (hne : e ≠ f) :
    e.seq ≠ f.seq := by
  obtain ⟨l, hl, -⟩ := h.entry e he
  obtain ⟨m, hm, -⟩ := h.entry f hf
  have hbirth := birth_ne hl hm fun hkey => hne (h.eq_of_key he hf hkey)
  have hlt := h.ordered e he f hf l m hl hm
  have hgt := h.ordered f hf e he m l hm hl
  omega

theorem entry_of_assigned {url : Text} {nowMs : Nat} {a : Arrival}
    (ha : Assigned calls url nowMs a) :
    ∃ e ∈ jar.entries, wanted url nowMs e = true ∧ e = a.stored e.createdMs e.seq := by
  obtain ⟨hcurrent, hmatches⟩ := ha
  rw [← @life_last (fun _ _ => true), Option.map_eq_some_iff] at hcurrent
  obtain ⟨l, hl, rfl⟩ := hcurrent
  obtain ⟨e, he, hkey⟩ := h.held l.last.key l hl
  obtain ⟨m, hm, heq⟩ := h.entry e he
  rw [hkey] at hm
  have hlm : l = m := Option.some.inj (hl.symm.trans hm)
  subst hlm
  have hcreated : e.createdMs = l.birth.1 := by rw [heq]; rfl
  refine ⟨e, he, ?_, hcreated ▸ heq⟩
  rw [heq]
  exact wanted_stored.2 hmatches

theorem assigned_of_entry {url : Text} {nowMs : Nat} {e : StoredCookie} (he : e ∈ jar.entries)
    (hwanted : wanted url nowMs e = true) :
    ∃ a, Assigned calls url nowMs a ∧ e = a.stored e.createdMs e.seq := by
  obtain ⟨l, hl, heq⟩ := h.entry e he
  have hkey := last_key hl
  have hcreated : e.createdMs = l.birth.1 := by rw [heq]; rfl
  refine ⟨l.last, ⟨?_, ?_⟩, hcreated ▸ heq⟩
  · rw [← @life_last (fun _ _ => true), hkey, show life (fun _ _ => true) calls e.key = some l from hl]
    rfl
  · rw [heq] at hwanted
    exact wanted_stored.1 hwanted

end Tracks

theorem pairwise_or {α : Type} {R : α → α → Prop} {l : List α} (h : l.Pairwise R) {x y : α}
    (hx : x ∈ l) (hy : y ∈ l) (hne : x ≠ y) : R x y ∨ R y x := by
  have hsymm : Std.Symm fun a b => R a b ∨ R b a := ⟨fun _ _ => Or.symm⟩
  have heither : l.Pairwise fun a b => R a b ∨ R b a := h.imp fun hab => .inl hab
  exact heither.forall hx hy hne

/-- What goes with a request, in the order it goes. -/
def CookieJar.sent (jar : CookieJar) (url : Text) (nowMs : Nat) : List StoredCookie :=
  (jar.entries.filter (wanted url nowMs)).mergeSort StoredCookie.notAfter

namespace Tracks

variable {calls : List StoreCall} {jar : CookieJar} (h : Tracks calls jar)

theorem mem_sent {url : Text} {nowMs : Nat} {e : StoredCookie} :
    e ∈ jar.sent url nowMs ↔ e ∈ jar.entries ∧ wanted url nowMs e = true := by
  rw [CookieJar.sent, List.mem_mergeSort, List.mem_filter]

include h

theorem once_sent (url : Text) (nowMs : Nat) :
    ((jar.sent url nowMs).map StoredCookie.key).Nodup := by
  have hfilter : ((jar.entries.filter (wanted url nowMs)).map StoredCookie.key).Nodup :=
    h.once.sublist (List.filter_sublist.map _)
  exact ((List.mergeSort_perm _ _).map StoredCookie.key).nodup_iff.2 hfilter

theorem sent_iff (url : Text) (nowMs : Nat) (key : CookieKey) (cookie : Cookie) :
    (∃ e ∈ jar.sent url nowMs, e.key = key ∧ e.cookie = cookie) ↔
      ∃ a, Assigned calls url nowMs a ∧ a.key = key ∧ a.cookie = cookie := by
  constructor
  · rintro ⟨e, he, rfl, rfl⟩
    obtain ⟨hmem, hwanted⟩ := mem_sent.1 he
    obtain ⟨a, ha, heq⟩ := h.assigned_of_entry hmem hwanted
    refine ⟨a, ha, ?_, ?_⟩
    · rw [heq, Arrival.key_stored]
    · rw [heq]
      rfl
  · rintro ⟨a, ha, rfl, rfl⟩
    obtain ⟨e, he, hwanted, heq⟩ := h.entry_of_assigned ha
    refine ⟨e, mem_sent.2 ⟨he, hwanted⟩, ?_, ?_⟩
    · rw [heq, Arrival.key_stored]
    · rw [heq]
      rfl

/-- The order is that of the true lives exactly when none was overtaken. -/
theorem order_iff (url : Text) (nowMs : Nat) :
    ((jar.sent url nowMs).Pairwise fun e f => SentBefore calls e.key f.key) ↔
      ¬ Overtaken calls url nowMs := by
  have hsorted : (jar.sent url nowMs).Pairwise fun e f => e.notAfter f = true := pairwise_sent _
  constructor
  · rintro horder ⟨a, b, ha, hb, hlen, hkept, htrue⟩
    obtain ⟨e, he, hwanted, heq⟩ := h.entry_of_assigned ha
    obtain ⟨f, hf, hwanted', hfeq⟩ := h.entry_of_assigned hb
    have hkey : e.key = a.key := by rw [heq, Arrival.key_stored]
    have hkey' : f.key = b.key := by rw [hfeq, Arrival.key_stored]
    have hpath : e.path = a.path := congrArg CookieKey.path hkey
    have hpath' : f.path = b.path := congrArg CookieKey.path hkey'
    have hne : e ≠ f := by
      rintro rfl
      rw [← hkey, ← hkey'] at hkept
      exact hkept.asymm hkept
    rw [← hkey, ← hkey', h.earlier_iff he hf] at hkept
    obtain ⟨hbefore, hnot⟩ | ⟨-, hnot⟩ :=
      pairwise_or (horder.and hsorted) (mem_sent.2 ⟨he, hwanted⟩) (mem_sent.2 ⟨hf, hwanted'⟩) hne
    · obtain hlt | ⟨-, hearlier⟩ := hbefore
      · change byteLen f.path < byteLen e.path at hlt
        rw [hpath, hpath'] at hlt
        omega
      · rw [hkey, hkey'] at hearlier
        exact htrue.asymm hearlier
    · rw [notAfter_iff, hpath, hpath'] at hnot
      omega
  · intro hfree
    have hnodup : (jar.sent url nowMs).Nodup := (h.once_sent url nowMs).of_map _
    refine (hsorted.and hnodup).imp_of_mem ?_
    rintro e f he hf ⟨hnot, hne⟩
    obtain ⟨hmem, hwanted⟩ := mem_sent.1 he
    obtain ⟨hmem', hwanted'⟩ := mem_sent.1 hf
    obtain ⟨a, ha, heq⟩ := h.assigned_of_entry hmem hwanted
    obtain ⟨b, hb, hfeq⟩ := h.assigned_of_entry hmem' hwanted'
    have hkey : e.key = a.key := by rw [heq, Arrival.key_stored]
    have hkey' : f.key = b.key := by rw [hfeq, Arrival.key_stored]
    have hpath : e.path = a.path := congrArg CookieKey.path hkey
    have hpath' : f.path = b.path := congrArg CookieKey.path hkey'
    have hseq := h.seq_ne hmem hmem' hne
    obtain ⟨l, hl⟩ := trueLife_of_assigned ha
    obtain ⟨m, hm⟩ := trueLife_of_assigned hb
    have hbirth := birth_ne hl hm fun hkeys =>
      hne (h.eq_of_key hmem hmem' (hkey.trans (hkeys.trans hkey'.symm)))
    rw [SentBefore, hkey, hkey']
    rw [notAfter_iff, hpath, hpath'] at hnot
    obtain hlt | ⟨hlen, hcreated⟩ := hnot
    · exact .inl hlt
    · refine .inr ⟨hlen, ?_⟩
      by_contra hlater
      refine hfree ⟨a, b, ha, hb, hlen.symm, ?_, ?_⟩
      · rw [← hkey, ← hkey', h.earlier_iff hmem hmem']
        omega
      · refine ⟨m, hm, l, hl, ?_⟩
        by_contra hle
        refine hlater ⟨l, hl, m, hm, ?_⟩
        omega

theorem filter_sent (url : Text) (nowMs : Nat) (p : StoredCookie → Bool) :
    (jar.sent url nowMs).filter p =
      ((jar.entries.filter p).filter (wanted url nowMs)).mergeSort StoredCookie.notAfter := by
  have hsorted : (jar.sent url nowMs).Pairwise fun e f => e.notAfter f = true := pairwise_sent _
  refine List.Perm.eq_of_pairwise ?_ (hsorted.sublist List.filter_sublist) (pairwise_sent _) ?_
  · intro e f he hf hef hfe
    have hmem := (mem_sent.1 (List.mem_filter.1 he).1).1
    have hmem' := (List.mem_filter.1 (List.mem_filter.1 (List.mem_mergeSort.1 hf)).1).1
    by_contra hne
    have hseq := h.seq_ne hmem hmem' hne
    rw [notAfter_iff] at hef hfe
    omega
  · refine ((List.mergeSort_perm _ _).filter p).trans ?_
    rw [List.filter_filter, List.filter_filter]
    refine ((List.mergeSort_perm _ _).trans (List.Perm.of_eq ?_)).symm
    refine List.filter_congr ?_
    intro e _
    exact Bool.and_comm _ _

end Tracks

/-! ### Stores from elsewhere -/

theorem covers_of_arrival {call : StoreCall} (h : call.arrival = some a) :
    Covers a.domain call.host := by
  unfold StoreCall.arrival at h
  split at h
  · simp at h
  · simp only at h
    split at h
    · split at h
      · rename_i hcovers
        split at h
        · simp at h
        · rw [Option.some.injEq] at h
          subst h
          exact hcovers
      · simp at h
    · split at h
      · simp at h
      · rw [Option.some.injEq] at h
        subst h
        exact .inl rfl

theorem entries_outside {call : StoreCall}
    (h : call.arrival = some a) {domain : Text} (houtside : ¬ Covers domain call.host) :
    (jar.take a).1.entries.filter (fun e => e.domain = domain) =
      jar.entries.filter fun e => e.domain = domain := by
  have hne : a.domain ≠ domain := fun heq => houtside (heq ▸ covers_of_arrival h)
  have hwithout : (jar.without a.key).filter (fun e => e.domain = domain) =
      jar.entries.filter fun e => e.domain = domain := by
    rw [CookieJar.without, List.filter_filter]
    refine List.filter_congr ?_
    intro e _
    by_cases heq : e.domain = domain
    · have hkey : e.key ≠ a.key := fun hkey =>
        hne ((congrArg CookieKey.domain hkey).symm.trans heq)
      simp [heq, hkey]
    · simp [heq]
  have hnew : ∀ createdMs seq, (jar.without a.key ++ [a.stored createdMs seq]).filter
      (fun e => e.domain = domain) = jar.entries.filter fun e => e.domain = domain := by
    intro createdMs seq
    rw [List.filter_append, hwithout]
    simp [Arrival.stored, hne]
  unfold CookieJar.take
  split
  · exact hwithout
  · split
    · exact hnew _ _
    · exact hnew _ _

/-- The jar that some calls of `store` leave sends what it should: the cookies that belong to the
request, once each and in their order, and to no domain what a call from outside it changed. -/
def SendsAssigned (calls : List StoreCall) (url : Text) (nowMs : Nat) : Prop :=
  ∃ jar sent, replay calls = some jar ∧ jar.matching url nowMs = some sent ∧
    (sent.map StoredCookie.key).Nodup ∧
    (∀ key cookie, (∃ e ∈ sent, e.key = key ∧ e.cookie = cookie) ↔
      ∃ a, Assigned calls url nowMs a ∧ a.key = key ∧ a.cookie = cookie) ∧
    (sent.Pairwise fun e f => SentBefore calls e.key f.key) ∧
    ∀ call domain, ¬ Covers domain call.host →
      ∃ jar' sent', replay (calls ++ [call]) = some jar' ∧ jar'.matching url nowMs = some sent' ∧
        sent'.filter (fun e => e.domain = domain) = sent.filter fun e => e.domain = domain

theorem sendsAssigned_iff_order {calls : List StoreCall}
    (hreplay : replay calls = some jar) (h : Tracks calls jar) (url : Text) (nowMs : Nat) :
    SendsAssigned calls url nowMs ↔
      (jar.sent url nowMs).Pairwise fun e f => SentBefore calls e.key f.key := by
  constructor
  · rintro ⟨jar', sent, hreplay', hmatching, -, -, horder, -⟩
    rw [hreplay, Option.some.injEq] at hreplay'
    subst hreplay'
    rw [matching_eq, Option.some.injEq] at hmatching
    subst hmatching
    exact horder
  · intro horder
    refine ⟨jar, jar.sent url nowMs, hreplay, matching_eq jar url nowMs, h.once_sent url nowMs,
      h.sent_iff url nowMs, horder, ?_⟩
    intro call domain houtside
    obtain ⟨jar', hreplay', htracks'⟩ := replay_tracks (calls ++ [call])
    refine ⟨jar', jar'.sent url nowMs, hreplay', matching_eq jar' url nowMs, ?_⟩
    rw [htracks'.filter_sent, h.filter_sent]
    rw [replay_snoc, hreplay, Option.bind_some, store_eq h.once, Option.map_some,
      Option.some.injEq] at hreplay'
    rw [← hreplay']
    cases harrival : call.arrival with
    | none => rfl
    | some a => rw [Option.map_some, Option.getD_some, entries_outside harrival houtside]

/-- After any calls, and for any request, the jar sends what it should exactly when no cookie that
goes with the request was overtaken. -/
theorem sendsAssigned_iff (calls : List StoreCall) (url : Text) (nowMs : Nat) :
    SendsAssigned calls url nowMs ↔ ¬ Overtaken calls url nowMs := by
  obtain ⟨jar, hreplay, htracks⟩ := replay_tracks calls
  exact (sendsAssigned_iff_order hreplay htracks url nowMs).trans (htracks.order_iff url nowMs)

/-- **A cookie stays with its setter**: whatever was stored, each cookie that goes with a request is what the last call for
its key set, from a host that its domain covers, and it goes to a host, a path and a scheme that it was set for. -/
theorem sent_cookies_confined (calls : List StoreCall) (url : Text) (nowMs : Nat) :
    ∃ jar sent, replay calls = some jar ∧ jar.matching url nowMs = some sent ∧
      ∀ e ∈ sent, ∃ call ∈ calls, ∃ a, call.arrival = some a ∧ current calls e.key = some a ∧
        e = a.stored e.createdMs e.seq ∧ Covers a.domain call.host ∧ Matches url nowMs a := by
  obtain ⟨jar, hreplay, h⟩ := replay_tracks calls
  refine ⟨jar, _, hreplay, matching_eq jar url nowMs, fun e he => ?_⟩
  obtain ⟨hmem, hwanted⟩ := Tracks.mem_sent.mp he
  obtain ⟨a, ⟨hcurrent, hmatches⟩, heq⟩ := h.assigned_of_entry hmem hwanted
  have hkey : e.key = a.key := by
    rw [heq, Arrival.key_stored]
  obtain ⟨hlast, -⟩ := Option.filter_eq_some_iff.mp hcurrent
  obtain ⟨call, hcall, harrival⟩ := List.mem_filterMap.mp (List.mem_filter.mp (List.mem_of_getLast? hlast)).1
  exact ⟨call, hcall, a, harrival, hkey ▸ hcurrent, heq, covers_of_arrival harrival, hmatches⟩

/-- `a` for a second, `b`, and `a` again when it has expired. -/
def revived : List StoreCall :=
  [⟨"http://x/".toList, "a=1; Max-Age=1".toList, 1000⟩, ⟨"http://x/".toList, "b=2".toList, 1500⟩,
    ⟨"http://x/".toList, "a=3".toList, 3000⟩]

/-- The cookie of a header without attributes that comes from `http://x/`. -/
def plainArrival (name value : Text) (nowMs : Nat) : Arrival where
  cookie := {
    name, value, path := some ['/'], domain := none, maxAge := none, httpOnly := false
    secure := false, sameSite := .lax }
  domain := ['x']
  hostOnly := true
  path := ['/']
  expiresMs := none
  nowMs := nowMs

theorem assigned_plain {name value : Text}
    (h : current revived (plainArrival name value nowMs).key = some (plainArrival name value nowMs)) :
    Assigned revived "http://x/".toList 3000 (plainArrival name value nowMs) := by
  have hhost : toAsciiLowercase (hostOf "http://x/".toList) = ['x'] := by decide +kernel
  have hpath : pathOf "http://x/".toList = ['/'] := by decide +kernel
  exact ⟨h, rfl, hhost.symm, .inl hpath, fun hsecure => absurd hsecure Bool.false_ne_true⟩

theorem overtaken_revived : Overtaken revived "http://x/".toList 3000 := by
  refine ⟨plainArrival ['a'] ['3'] 3000, plainArrival ['b'] ['2'] 1500,
    assigned_plain (by decide +kernel), assigned_plain (by decide +kernel), rfl, ?_, ?_⟩
  · refine ⟨⟨(1000, 0), plainArrival ['a'] ['3'] 3000⟩, ?_, ⟨(1500, 1), plainArrival ['b'] ['2'] 1500⟩,
      ?_, .inl (by decide)⟩
    · exact Option.mem_def.2 (by decide +kernel)
    · exact Option.mem_def.2 (by decide +kernel)
  · refine ⟨⟨(1500, 1), plainArrival ['b'] ['2'] 1500⟩, ?_, ⟨(3000, 2), plainArrival ['a'] ['3'] 3000⟩,
      ?_, .inl (by decide)⟩
    · exact Option.mem_def.2 (by decide +kernel)
    · exact Option.mem_def.2 (by decide +kernel)

/-- The jar sends `a` before `b`, whose life began first. -/
theorem sendsAssigned_fails : ¬ SendsAssigned revived "http://x/".toList 3000 := by
  obtain ⟨jar, hreplay, htracks⟩ := replay_tracks revived
  rw [sendsAssigned_iff_order hreplay htracks]
  exact fun horder => (htracks.order_iff _ _).1 horder overtaken_revived

end Noeta.Ext
