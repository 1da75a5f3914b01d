import Noeta.Ext.CookieJar
import Mathlib.Data.List.Induction

/-!
# The lives of a cookie

What a jar sends, from the calls of `store` that filled it. A key's cookie is the one of its last
call; its life began with the call that stored it first since it last was deleted or had expired.
The jar gives an expired cookie that is stored again the place it had before, so two cookies can
stand in an order that their lives do not have.
-/

namespace Noeta.Ext

open Noeta.Lib.Rfc3986 Noeta.Lib.Utf8

/-! ### Calls and what they bring -/

structure StoreCall where
  url : Text
  setCookie : Text
  nowMs : Nat
deriving DecidableEq, Repr

def StoreCall.host (call : StoreCall) : Text := toAsciiLowercase (hostOf call.url)

/-- A cookie that is not refused, where it goes, and when it came. -/
structure Arrival where
  cookie : Cookie
  domain : Text
  hostOnly : Bool
  path : Text
  expiresMs : Option Nat
  nowMs : Nat
deriving DecidableEq, Repr

namespace Arrival

def key (a : Arrival) : CookieKey := ⟨a.cookie.name, a.domain, a.hostOnly, a.path⟩

def expiredAt (a : Arrival) (nowMs : Nat) : Bool := a.expiresMs.any (· ≤ nowMs)

/-- A cookie that has expired when it comes deletes. -/
def deletes (a : Arrival) : Bool := a.expiredAt a.nowMs

def stored (a : Arrival) (createdMs seq : Nat) : StoredCookie :=
  ⟨a.cookie, a.domain, a.hostOnly, a.path, a.expiresMs, createdMs, seq⟩

@[simp] theorem key_stored (a : Arrival) (createdMs seq : Nat) :
    (a.stored createdMs seq).key = a.key := rfl

@[simp] theorem seq_stored (a : Arrival) (createdMs seq : Nat) :
    (a.stored createdMs seq).seq = seq := rfl

end Arrival

instance (domain host : Text) : Decidable (Covers domain host) :=
  decidable_of_iff (domainMatches host domain = some true) (by
    obtain ⟨covers, heq, hiff⟩ := domainMatches_spec host domain
    rw [heq, Option.some.injEq, hiff])

/-- What a call brings, if it is not refused: the domain has to cover the host that sets it. -/
def StoreCall.arrival (call : StoreCall) : Option Arrival :=
  match parseSetCookie call.setCookie with
  | none => none
  | some parsed =>
    let arrive (domain : Text) (hostOnly : Bool) : Option Arrival :=
      if domain = [] then none
      else
        some ⟨parsed.cookie, domain, hostOnly, cookiePath call.url parsed, parsed.expiryMs call.nowMs,
          call.nowMs⟩
    match parsed.domain with
    | some domain => if Covers domain call.host then arrive domain false else none
    | none => arrive call.host true

/-! ### The jar after a call -/

def CookieJar.without (jar : CookieJar) (key : CookieKey) : List StoredCookie :=
  jar.entries.filter fun e => e.key ≠ key

def CookieJar.held (jar : CookieJar) (key : CookieKey) : Option StoredCookie :=
  jar.entries.find? fun e => e.key = key

/-- An arrival goes into the jar: in place of the entry of its key, whose age it takes. -/
def CookieJar.take (jar : CookieJar) (a : Arrival) : CookieJar × Bool :=
  if a.deletes then ({ jar with entries := jar.without a.key }, false)
  else
    match jar.held a.key with
    | some previous =>
      ({ jar with entries := jar.without a.key ++ [a.stored previous.createdMs previous.seq] }, true)
    | none =>
      (⟨jar.without a.key ++ [a.stored a.nowMs (jar.nextSeq + 1)], jar.nextSeq + 1⟩, true)

theorem eraseP_eq_filter {entries : List StoredCookie} (h : (entries.map StoredCookie.key).Nodup)
    (key : CookieKey) :
    entries.eraseP (fun e => e.key = key) = entries.filter fun e => e.key ≠ key := by
  induction entries with
  | nil => rfl
  | cons e entries ih =>
    rw [List.map_cons, List.nodup_cons] at h
    by_cases he : e.key = key
    · rw [List.eraseP_cons_of_pos (by simpa using he), List.filter_cons_of_neg (by simpa using he)]
      refine (List.filter_eq_self.2 ?_).symm
      intro f hf
      simp only [ne_eq, decide_not, Bool.not_eq_true', decide_eq_false_iff_not]
      intro heq
      exact h.1 (List.mem_map.2 ⟨f, hf, heq.trans he.symm⟩)
    · rw [List.eraseP_cons_of_neg (by simpa using he), List.filter_cons_of_pos (by simpa using he),
        ih h.2]

theorem put_eq {jar : CookieJar} (h : (jar.entries.map StoredCookie.key).Nodup) (a : Arrival) :
    jar.put a.cookie a.domain a.hostOnly a.path a.expiresMs a.nowMs = some (jar.take a) := by
  have hkey : (fun e : StoredCookie => e.cookie.name = a.cookie.name && e.domain = a.domain &&
      e.hostOnly = a.hostOnly && e.path = a.path) = fun e => decide (e.key = a.key) := by
    funext e
    rw [Bool.eq_iff_iff]
    simp [StoredCookie.key, Arrival.key, CookieKey.mk.injEq, and_assoc]
  have herase := eraseP_eq_filter h a.key
  rw [List.eraseP_eq_eraseIdx] at herase
  have hfind : jar.held a.key =
      (jar.entries.findIdx? fun e => decide (e.key = a.key)).bind (jar.entries[·]?) :=
    List.find?_eq_bind_findIdx?_getElem?
  unfold CookieJar.put
  simp only [hkey]
  unfold CookieJar.take Arrival.deletes Arrival.expiredAt CookieJar.without
  rw [hfind, ← herase]
  cases hindex : jar.entries.findIdx? fun e => decide (e.key = a.key) with
  | none =>
    simp only [Option.bind_none]
    split <;> rfl
  | some index =>
    obtain ⟨hlt, -⟩ := List.findIdx?_eq_some_iff_getElem.1 hindex
    simp only [Option.bind_some, List.getElem?_eq_getElem hlt]
    split <;> rfl

/-- A call of `store` never fails, and takes in what the call brings. -/
theorem store_eq {jar : CookieJar} (h : (jar.entries.map StoredCookie.key).Nodup)
    (call : StoreCall) :
    jar.store call.url call.setCookie call.nowMs =
      some ((call.arrival.map jar.take).getD (jar, false)) := by
  have harrive : ∀ (parsed : SetCookie) (domain : Text) (hostOnly : Bool), domain ≠ [] →
      jar.put parsed.cookie domain hostOnly (cookiePath call.url parsed)
        (parsed.expiryMs call.nowMs) call.nowMs =
      some (jar.take ⟨parsed.cookie, domain, hostOnly, cookiePath call.url parsed,
        parsed.expiryMs call.nowMs, call.nowMs⟩) :=
    fun parsed domain hostOnly _ => put_eq h ⟨parsed.cookie, domain, hostOnly,
      cookiePath call.url parsed, parsed.expiryMs call.nowMs, call.nowMs⟩
  unfold CookieJar.store StoreCall.arrival
  cases parseSetCookie call.setCookie with
  | none => rfl
  | some parsed =>
    simp only [cookieScope]
    cases parsed.domain with
    | none =>
      change (if call.host.isEmpty = true then _ else _) = _
      by_cases hempty : call.host = []
      · rw [if_pos (by simp [hempty]), if_pos hempty]
        rfl
      · rw [if_neg (by simp [hempty]), if_neg hempty]
        exact harrive parsed call.host true hempty
    | some domain =>
      obtain ⟨covers, heq, hiff⟩ := domainMatches_spec call.host domain
      change ((domainMatches call.host domain).map _ >>= _) = _
      rw [heq]
      cases covers with
      | false =>
        simp only [if_neg fun hcovers => Bool.false_ne_true (hiff.2 hcovers)]
        rfl
      | true =>
        simp only [if_pos (hiff.1 rfl)]
        change (if domain.isEmpty = true then _ else _) = _
        by_cases hempty : domain = []
        · rw [if_pos (by simp [hempty]), if_pos hempty]
          rfl
        · rw [if_neg (by simp [hempty]), if_neg hempty]
          exact harrive parsed domain false hempty

/-! ### Lives -/

/-- A key's cookie and the call that began its life, by time and place. -/
structure Life where
  birth : Nat × Nat
  last : Arrival
deriving DecidableEq, Repr

/-- The life after one more arrival of the key; `carries` says whether it goes on. -/
def Life.next (carries : Arrival → Arrival → Bool) (position : Nat) (a : Arrival)
    (life : Option Life) : Option Life :=
  if a.deletes then none
  else
    match life with
    | some l => if carries l.last a then some ⟨l.birth, a⟩ else some ⟨(a.nowMs, position), a⟩
    | none => some ⟨(a.nowMs, position), a⟩

def lifeStep (carries : Arrival → Arrival → Bool) (key : CookieKey) (life : Option Life)
    (call : StoreCall × Nat) : Option Life :=
  match call.1.arrival with
  | some a => if a.key = key then Life.next carries call.2 a life else life
  | none => life

def life (carries : Arrival → Arrival → Bool) (calls : List StoreCall) (key : CookieKey) :
    Option Life :=
  calls.zipIdx.foldl (lifeStep carries key) none

/-- The life since the key was last deleted. -/
def keptLife : List StoreCall → CookieKey → Option Life := life fun _ _ => true

/-- The life since the key was last deleted or had expired. -/
def trueLife : List StoreCall → CookieKey → Option Life :=
  life fun previous a => !previous.expiredAt a.nowMs

/-- The cookie of the last call with the key, where that call did not delete it. -/
def current (calls : List StoreCall) (key : CookieKey) : Option Arrival :=
  ((calls.filterMap StoreCall.arrival).filter (·.key = key)).getLast?.filter fun a => !a.deletes

section Lives

variable {carries : Arrival → Arrival → Bool}

theorem life_nil (key : CookieKey) : life carries [] key = none := rfl

theorem life_snoc (calls : List StoreCall) (call : StoreCall) (key : CookieKey) :
    life carries (calls ++ [call]) key =
      lifeStep carries key (life carries calls key) (call, calls.length) := by
  rw [life, List.zipIdx_append, List.foldl_append, Nat.zero_add]
  rfl

variable {calls : List StoreCall} {call : StoreCall} {a : Arrival} {key : CookieKey}

theorem life_refused (h : call.arrival = none)
    (key : CookieKey) : life carries (calls ++ [call]) key = life carries calls key := by
  rw [life_snoc, lifeStep, h]

theorem life_other (h : call.arrival = some a) (hkey : a.key ≠ key) :
    life carries (calls ++ [call]) key = life carries calls key := by
  rw [life_snoc, lifeStep, h]
  exact if_neg hkey

theorem life_own (h : call.arrival = some a) : life carries (calls ++ [call]) a.key =
      Life.next carries calls.length a (life carries calls a.key) := by
  rw [life_snoc, lifeStep, h]
  exact if_pos rfl

theorem current_snoc (calls : List StoreCall) (call : StoreCall) (key : CookieKey) :
    current (calls ++ [call]) key =
      match call.arrival with
      | some a => if a.key = key then (if a.deletes then none else some a) else current calls key
      | none => current calls key := by
  unfold current
  rw [List.filterMap_append]
  cases harrival : call.arrival with
  | none => simp [harrival]
  | some a =>
    by_cases hkey : a.key = key
    · rw [List.filter_append]
      cases hdeletes : a.deletes <;> simp [harrival, hkey, hdeletes, Option.filter]
    · rw [List.filter_append]
      simp [harrival, hkey]

theorem life_last (calls : List StoreCall) (key : CookieKey) :
    (life carries calls key).map Life.last = current calls key := by
  induction calls using List.reverseRecOn with
  | nil => rfl
  | append_singleton calls call ih =>
    rw [current_snoc]
    cases harrival : call.arrival with
    | none =>
      rw [life_refused harrival]
      exact ih
    | some a =>
      by_cases hkey : a.key = key
      · subst hkey
        rw [life_own harrival]
        unfold Life.next
        simp only [if_true]
        cases a.deletes with
        | true => rfl
        | false =>
          cases life carries calls a.key with
          | none => rfl
          | some l =>
            simp only [Bool.false_eq_true, if_false]
            split <;> rfl
      · rw [life_other harrival hkey]
        simp only [if_neg hkey]
        exact ih

theorem current_key (h : current calls key = some a) : a.key = key := by
  obtain ⟨hlast, -⟩ := Option.filter_eq_some_iff.1 h
  have hmem := List.mem_of_getLast? hlast
  simpa using (List.mem_filter.1 hmem).2

theorem last_key {l : Life} (h : life carries calls key = some l) : l.last.key = key := by
  have hlast := @life_last carries calls key
  rw [h, Option.map_some] at hlast
  exact current_key hlast.symm

/-- A life begins with a call of its key. -/
theorem birth_call (calls : List StoreCall) (key : CookieKey) (l : Life)
    (h : life carries calls key = some l) :
    ∃ call a, calls[l.birth.2]? = some call ∧ call.arrival = some a ∧ a.key = key := by
  induction calls using List.reverseRecOn generalizing l with
  | nil => simp [life_nil] at h
  | append_singleton calls call ih =>
    have hearlier : ∀ m : Life, life carries calls key = some m →
        ∃ call' a, (calls ++ [call])[m.birth.2]? = some call' ∧ call'.arrival = some a ∧
          a.key = key := by
      intro m hm
      obtain ⟨call', a, hcall, hrest⟩ := ih m hm
      obtain ⟨hlt, -⟩ := List.getElem?_eq_some_iff.1 hcall
      exact ⟨call', a, by rw [List.getElem?_append_left hlt]; exact hcall, hrest⟩
    cases harrival : call.arrival with
    | none =>
      rw [life_refused harrival] at h
      exact hearlier l h
    | some a =>
      by_cases hkey : a.key = key
      · subst hkey
        have hnow : ∃ call' b, (calls ++ [call])[calls.length]? = some call' ∧
            call'.arrival = some b ∧ b.key = a.key := ⟨call, a, by simp, harrival, rfl⟩
        rw [life_own harrival] at h
        unfold Life.next at h
        split at h
        · simp at h
        · split at h
          · rename_i m hm
            split at h
            · rw [Option.some.injEq] at h
              subst h
              exact hearlier m hm
            · rw [Option.some.injEq] at h
              subst h
              exact hnow
          · rw [Option.some.injEq] at h
            subst h
            exact hnow
      · rw [life_other harrival hkey] at h
        exact hearlier l h

theorem birth_lt {l : Life} (h : life carries calls key = some l) : l.birth.2 < calls.length := by
  obtain ⟨call, a, hcall, -⟩ := birth_call calls key l h
  exact (List.getElem?_eq_some_iff.1 hcall).1

theorem birth_ne {key key' : CookieKey} {l l' : Life}
    (h : life carries calls key = some l) (h' : life carries calls key' = some l')
    (hne : key ≠ key') : l.birth.2 ≠ l'.birth.2 := by
  intro heq
  obtain ⟨call, a, hcall, ha, hkey⟩ := birth_call calls key l h
  obtain ⟨call', a', hcall', ha', hkey'⟩ := birth_call calls key' l' h'
  rw [heq, hcall', Option.some.injEq] at hcall
  subst hcall
  rw [ha, Option.some.injEq] at ha'
  subst ha'
  exact hne (hkey.symm.trans hkey')

end Lives

end Noeta.Ext
