import Noeta.Ext.SetCookie
import Mathlib.Data.List.Nodup
import Mathlib.Data.List.Sort

/-!
# The cookie jar

What a client keeps of the `Set-Cookie` headers it gets, and what it sends of it with a request. An
index that is out of range is `none`.
-/

namespace Noeta.Ext

open Noeta.Lib.Rfc3986 Noeta.Lib.Utf8

/-- `str::len`: the number of bytes. -/
def byteLen (t : Text) : Nat := (encode t).length

/-- `as_bytes()[i]`. -/
def byteAt (t : Text) (i : Nat) : Option UInt8 := (encode t)[i]?

structure StoredCookie where
  cookie : Cookie
  domain : Text
  hostOnly : Bool
  path : Text
  expiresMs : Option Nat
  createdMs : Nat
  seq : Nat
deriving DecidableEq, Repr

structure CookieJar where
  entries : List StoredCookie
  nextSeq : Nat
deriving DecidableEq, Repr

def CookieJar.new : CookieJar := ⟨[], 0⟩

def StoredCookie.expiredAt (e : StoredCookie) (nowMs : Nat) : Bool := e.expiresMs.any (· ≤ nowMs)

/-- What a cookie replaces another by. -/
structure CookieKey where
  name : Text
  domain : Text
  hostOnly : Bool
  path : Text
deriving DecidableEq, Repr

def StoredCookie.key (e : StoredCookie) : CookieKey := ⟨e.cookie.name, e.domain, e.hostOnly, e.path⟩

def defaultPath (requestPath : Text) : Text :=
  if requestPath.head? ≠ some '/' then ['/']
  else
    match rsplitOnce '/' requestPath with
    | none => ['/']
    | some ([], _) => ['/']
    | some (before, _) => before

/-- The structural test for an address. -/
def isIp (host : Text) : Bool :=
  host.head? = some '[' || (!host.isEmpty && host.all fun c => c.isDigit || c = '.')

def domainMatches (host domain : Text) : Option Bool :=
  if host = domain then some true
  else if isIp host || !domain.isSuffixOf host then some false
  else if byteLen host < byteLen domain + 1 then none
  else (byteAt host (byteLen host - byteLen domain - 1)).map (· = 0x2E)

def pathMatches (requestPath cookiePath : Text) : Option Bool :=
  if requestPath = cookiePath then some true
  else if !cookiePath.isPrefixOf requestPath then some false
  else if cookiePath.getLast? = some '/' then some true
  else (byteAt requestPath (byteLen cookiePath)).map (· = 0x2F)

/-! ### Storing -/

/-- The domain of a cookie and whether it is exact; nothing where the domain does not cover the host
that is setting it. -/
def cookieScope (requestHost : Text) (parsed : SetCookie) : Option (Option (Text × Bool)) :=
  match parsed.domain with
  | some domain =>
    (domainMatches requestHost domain).map fun covers => if covers then some (domain, false) else none
  | none => some (some (requestHost, true))

def cookiePath (url : Text) (parsed : SetCookie) : Text :=
  match parsed.path with
  | some path => if path.head? = some '/' then path else defaultPath (pathOf url)
  | none => defaultPath (pathOf url)

/-- The entry goes in for the one of its key, and is not kept where it has expired already. -/
def CookieJar.put (jar : CookieJar) (cookie : Cookie) (domain : Text) (hostOnly : Bool) (path : Text)
    (expiresMs : Option Nat) (nowMs : Nat) : Option (CookieJar × Bool) :=
  let existing := jar.entries.findIdx? fun e =>
    e.cookie.name = cookie.name && e.domain = domain && e.hostOnly = hostOnly && e.path = path
  if expiresMs.any (· ≤ nowMs) then
    match existing with
    | some index => some ({ jar with entries := jar.entries.eraseIdx index }, false)
    | none => some (jar, false)
  else
    match existing with
    | some index => do
      let previous ← jar.entries[index]?
      let entry := ⟨cookie, domain, hostOnly, path, expiresMs, previous.createdMs, previous.seq⟩
      return ({ jar with entries := jar.entries.eraseIdx index ++ [entry] }, true)
    | none =>
      let seq := jar.nextSeq + 1
      let entry := ⟨cookie, domain, hostOnly, path, expiresMs, nowMs, seq⟩
      some (⟨jar.entries ++ [entry], seq⟩, true)

def CookieJar.store (jar : CookieJar) (url setCookie : Text) (nowMs : Nat) :
    Option (CookieJar × Bool) :=
  match parseSetCookie setCookie with
  | none => some (jar, false)
  | some parsed => do
    let scope ← cookieScope (toAsciiLowercase (hostOf url)) parsed
    match scope with
    | none => return (jar, false)
    | some (domain, hostOnly) =>
      if domain.isEmpty then return (jar, false)
      else
        jar.put parsed.cookie domain hostOnly (cookiePath url parsed) (parsed.expiryMs nowMs) nowMs

/-! ### Sending -/

def StoredCookie.hostMatches (host : Text) (e : StoredCookie) : Option Bool :=
  if e.hostOnly then some (e.domain = host) else domainMatches host e.domain

/-- The filters of `matching`. -/
def StoredCookie.sentTo (host path : Text) (secure : Bool) (nowMs : Nat) (e : StoredCookie) :
    Option Bool :=
  if e.expiredAt nowMs then some false
  else do
    if ← e.hostMatches host then
      return (← pathMatches path e.path) && (secure || !e.cookie.secure)
    else return false

/-- The send order, as "not after". -/
def StoredCookie.notAfter (a b : StoredCookie) : Bool :=
  byteLen b.path < byteLen a.path ||
    (byteLen b.path = byteLen a.path &&
      (a.createdMs < b.createdMs || (a.createdMs = b.createdMs && a.seq ≤ b.seq)))

def CookieJar.matching (jar : CookieJar) (url : Text) (nowMs : Nat) : Option (List StoredCookie) := do
  let host := toAsciiLowercase (hostOf url)
  let sent ← jar.entries.filterM fun e => e.sentTo host (pathOf url) (isSecure url) nowMs
  return sent.mergeSort StoredCookie.notAfter

/-! ### The matches -/

/-- A host is in a domain: they are one, or the host is a name that ends in a dot and the domain. -/
def Covers (domain host : Text) : Prop :=
  host = domain ∨ (isIp host = false ∧ ∃ before, host = before ++ '.' :: domain)

/-- A path is under a cookie's at a segment boundary. -/
def PathCovers (cookiePath requestPath : Text) : Prop :=
  requestPath = cookiePath ∨
    ∃ rest, requestPath = cookiePath ++ rest ∧
      (cookiePath.getLast? = some '/' ∨ rest.head? = some '/')

theorem byteLen_append (s t : Text) : byteLen (s ++ t) = byteLen s + byteLen t := by
  rw [byteLen, encode_append, List.length_append]
  rfl

theorem byteLen_pos {t : Text} (h : t ≠ []) : 0 < byteLen t := by
  cases t with
  | nil => exact absurd rfl h
  | cons c t =>
    have hone : 0 < (String.utf8EncodeChar c).length := by
      obtain ⟨-, hbytes⟩ | ⟨-, hne, -⟩ := utf8EncodeChar_cases c
      · simp [hbytes]
      · exact List.length_pos_of_ne_nil hne
    rw [byteLen, encode_cons, List.length_append]
    omega

theorem byteAt_before {before : Text} (h : before ≠ []) (domain : Text) :
    ¬ byteLen (before ++ domain) < byteLen domain + 1 ∧
      byteAt (before ++ domain) (byteLen (before ++ domain) - byteLen domain - 1) =
        (encode before).getLast? := by
  have hpos := byteLen_pos h
  have hlen := byteLen_append before domain
  have hindex : byteLen (before ++ domain) - byteLen domain - 1 = byteLen before - 1 := by omega
  refine ⟨by omega, ?_⟩
  rw [hindex, byteAt, encode_append, List.getLast?_eq_getElem?]
  exact List.getElem?_append_left (by unfold byteLen at *; omega)

theorem byteAt_after (cookiePath rest : Text) :
    byteAt (cookiePath ++ rest) (byteLen cookiePath) = (encode rest).head? := by
  rw [byteAt, encode_append, byteLen, List.getElem?_append_right (Nat.le_refl _), Nat.sub_self,
    List.head?_eq_getElem?]

theorem encode_ne_nil {t : Text} (h : t ≠ []) : encode t ≠ [] :=
  List.ne_nil_of_length_pos (byteLen_pos h)

/-- The domain match answers in every case, and says what it should. -/
theorem domainMatches_spec (host domain : Text) :
    ∃ covers : Bool, domainMatches host domain = some covers ∧ (covers = true ↔ Covers domain host) := by
  unfold domainMatches
  split
  · rename_i heq
    exact ⟨true, rfl, iff_of_true rfl (.inl heq)⟩
  · rename_i hne
    split
    · rename_i hno
      refine ⟨false, rfl, iff_of_false (by simp) ?_⟩
      rintro (heq | ⟨hname, before, hhost⟩)
      · exact hne heq
      · have hsuffix : domain <:+ host := ⟨before ++ ['.'], by simp [hhost]⟩
        rw [hname, List.isSuffixOf_iff_suffix.2 hsuffix] at hno
        simp at hno
    · rename_i hno
      simp only [Bool.or_eq_true, Bool.not_eq_true', not_or, Bool.not_eq_true,
        Bool.not_eq_false, List.isSuffixOf_iff_suffix] at hno
      obtain ⟨hname, before, rfl⟩ := hno
      have hbefore : before ≠ [] := by
        rintro rfl
        exact hne rfl
      obtain ⟨hrange, hbyte⟩ := byteAt_before hbefore domain
      obtain ⟨b, hb⟩ := Option.isSome_iff_exists.1 (List.getLast?_isSome.2 (encode_ne_nil hbefore))
      rw [if_neg hrange, hbyte, hb]
      refine ⟨decide (b = 0x2E), rfl, ?_⟩
      have hdot : b = 0x2E ↔ before.getLast? = some '.' := by
        rw [← getLast?_encode (d := '.') (by decide), hb, Option.some.injEq]
        rfl
      rw [decide_eq_true_iff, hdot, List.getLast?_eq_some_iff]
      constructor
      · rintro ⟨front, rfl⟩
        exact .inr ⟨hname, front, by simp⟩
      · rintro (heq | ⟨-, front, hfront⟩)
        · exact absurd heq hne
        · refine ⟨front, ?_⟩
          rw [List.append_cons] at hfront
          exact List.append_cancel_right hfront

theorem pathMatches_spec (requestPath cookiePath : Text) :
    ∃ covers : Bool, pathMatches requestPath cookiePath = some covers ∧
      (covers = true ↔ PathCovers cookiePath requestPath) := by
  unfold pathMatches
  split
  · rename_i heq
    exact ⟨true, rfl, iff_of_true rfl (.inl heq)⟩
  · rename_i hne
    split
    · rename_i hno
      refine ⟨false, rfl, iff_of_false (by simp) ?_⟩
      rintro (heq | ⟨rest, heq, -⟩)
      · exact hne heq
      · rw [List.isPrefixOf_iff_prefix.2 ⟨rest, heq.symm⟩] at hno
        simp at hno
    · rename_i hyes
      simp only [Bool.not_eq_true, Bool.not_eq_false', List.isPrefixOf_iff_prefix] at hyes
      obtain ⟨rest, rfl⟩ := hyes
      split
      · rename_i hslash
        exact ⟨true, rfl, iff_of_true rfl (.inr ⟨rest, rfl, .inl hslash⟩)⟩
      · rename_i hslash
        have hrest : rest ≠ [] := by
          rintro rfl
          exact hne (List.append_nil _)
        obtain ⟨b, bytes, hbytes⟩ := List.exists_cons_of_ne_nil (encode_ne_nil hrest)
        have hb : (encode rest).head? = some b := by rw [hbytes, List.head?_cons]
        rw [byteAt_after, hb]
        refine ⟨decide (b = 0x2F), rfl, ?_⟩
        have hbyte : b = 0x2F ↔ rest.head? = some '/' := by
          rw [← head?_encode (d := '/') (by decide), hb, Option.some.injEq]
          rfl
        rw [decide_eq_true_iff, hbyte]
        constructor
        · exact fun h => .inr ⟨rest, rfl, .inr h⟩
        · rintro (heq | ⟨other, heq, hends | hstarts⟩)
          · exact absurd heq hne
          · exact absurd hends hslash
          · rw [List.append_cancel_left heq]
            exact hstarts

end Noeta.Ext
