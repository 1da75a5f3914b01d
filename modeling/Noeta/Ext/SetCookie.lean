import Noeta.Ext.Uri
import Noeta.Lib.ParseInt
import Noeta.Lib.Utf8

/-!
# `Set-Cookie`

Reading a `Set-Cookie` header value: the cookie itself, validated as `Cookie::new` validates every
cookie, and the attributes that decide where it goes and how long it lives.
-/

namespace Noeta.Ext

open Noeta.Lib.Rfc3986 Noeta.Lib.Utf8

/-! ### The cookie -/

inductive SameSite where
  | strict
  | lax
  | none
deriving DecidableEq, Repr

/-- What a cookie is refused for. -/
inductive CookieError where
  | emptyName
  | nameByte (byte : UInt8) (name : Text)
  | valueByte (byte : UInt8)
  | sameSite (other : Text)
deriving DecidableEq, Repr

def SameSite.parse (raw : Text) : Except CookieError SameSite :=
  let spelling := toAsciiLowercase raw
  if spelling = "strict".toList then .ok .strict
  else if spelling = "lax".toList then .ok .lax
  else if spelling = "none".toList then .ok .none
  else .error (.sameSite spelling)

structure Cookie where
  name : Text
  value : Text
  path : Option Text
  domain : Option Text
  maxAge : Option Int
  httpOnly : Bool
  secure : Bool
  sameSite : SameSite
deriving DecidableEq, Repr

/-- The separators that no cookie name has. -/
def nameSeparators : List Char :=
  ['(', ')', '<', '>', '@', ',', ';', ':', '\\', '"', '/', '[', ']', '?', '=', '{', '}', ' ', '\t']

def valueSeparators : List Char := ['"', ',', ';', '\\']

def printable (byte : UInt8) : Bool := 0x21 ≤ byte && byte ≤ 0x7E

def isOneOf (byte : UInt8) (set : List Char) : Bool := set.any fun c => c.toNat = byte.toNat

def validateName (name : Text) : Except CookieError Unit :=
  if name.isEmpty then .error .emptyName
  else
    match (encode name).find? fun byte => !printable byte || isOneOf byte nameSeparators with
    | some byte => .error (.nameByte byte name)
    | none => .ok ()

def validateValue (value : Text) : Except CookieError Unit :=
  match (encode value).find? fun byte => !printable byte || isOneOf byte valueSeparators with
  | some byte => .error (.valueByte byte)
  | none => .ok ()

/-- `Cookie::new`: the safe defaults. -/
def Cookie.new (name value : Text) : Except CookieError Cookie := do
  validateName name
  validateValue value
  return {
    name, value, path := some ['/'], domain := none, maxAge := none, httpOnly := true
    secure := false, sameSite := .lax }

/-! ### Dates -/

/-- A `u64` operation that saturates. -/
def saturated (n : Nat) : Nat := min n (2 ^ 64 - 1)

def months : List Text :=
  ["jan".toList, "feb".toList, "mar".toList, "apr".toList, "may".toList, "jun".toList,
    "jul".toList, "aug".toList, "sep".toList, "oct".toList, "nov".toList, "dec".toList]

/-- The leading run of at most `limit` digits. -/
def leadingNumber (token : Text) (limit : Nat) : Option Nat :=
  let digits := token.takeWhile Char.isDigit
  if digits.isEmpty || limit < digits.length then none else some (Nat.ofDigitChars 10 digits 0)

/-- An `hh:mm:ss` token. -/
def parseTime (token : Text) : Option (Nat × Nat × Nat) := do
  let (hour, rest) ← splitOnce ':' token
  let (minute, second) ← splitOnce ':' rest
  return (← leadingNumber hour 2, ← leadingNumber minute 2, ← leadingNumber second 2)

def monthOf (token : Text) : Option Nat :=
  let head := if token.length < 3 then [] else toAsciiLowercase (token.take 3)
  (months.findIdx? fun month => month = head).map (· + 1)

/-- Days since 1970-01-01 of a Gregorian date. -/
def daysFromCivil (year : Int) (month day : Nat) : Int :=
  let year := if month ≤ 2 then year - 1 else year
  let yearOfEra := year % 400
  let dayOfYear := (153 * ((month : Int) + if 2 < month then -3 else 9) + 2) / 5 + day - 1
  let dayOfEra := yearOfEra * 365 + yearOfEra / 4 - yearOfEra / 100 + dayOfYear
  year / 400 * 146097 + dayOfEra - 719468

/-- What the tokens of a date have given so far. -/
structure DateParts where
  time : Option (Nat × Nat × Nat)
  day : Option Nat
  month : Option Nat
  year : Option Nat
deriving DecidableEq, Repr

/-- One token: the first part that is missing and that it can be. -/
def DateParts.take (parts : DateParts) (token : Text) : DateParts :=
  if token.isEmpty then parts
  else if parts.time.isNone && (parseTime token).isSome then
    { parts with time := parseTime token }
  else if parts.day.isNone && (leadingNumber token 2).isSome then
    { parts with day := leadingNumber token 2 }
  else if parts.month.isNone && (monthOf token).isSome then
    { parts with month := monthOf token }
  else if parts.year.isNone && (leadingNumber token 4).isSome then
    { parts with year := leadingNumber token 4 }
  else parts

def parseCookieDate (value : Text) : Option Nat := do
  let tokens := value.splitOnP fun c => !(c.isAlphanum || c = ':')
  let parts := tokens.foldl DateParts.take ⟨none, none, none, none⟩
  let (hour, minute, second) ← parts.time
  let day ← parts.day
  let month ← parts.month
  let year ← parts.year
  -- a two-digit year is one of 1970 to 2069
  let year := if 70 ≤ year ∧ year ≤ 99 then year + 1900 else if year ≤ 69 then year + 2000 else year
  if day < 1 ∨ 31 < day ∨ year < 1601 ∨ 23 < hour ∨ 59 < minute ∨ 59 < second then none
  else
    let seconds := daysFromCivil year month day * 86400 + (hour * 3600 + minute * 60 + second : Nat)
    some (saturated (seconds.toNat * 1000))

/-! ### The header -/

structure SetCookie where
  cookie : Cookie
  domain : Option Text
  path : Option Text
  maxAge : Option Int
  expiresUnixMs : Option Nat
deriving DecidableEq, Repr

def SetCookie.expiryMs (parsed : SetCookie) (nowMs : Nat) : Option Nat :=
  match parsed.maxAge with
  | some maxAge =>
    some (if maxAge > 0 then saturated (nowMs + saturated (maxAge.toNat * 1000)) else 0)
  | none => parsed.expiresUnixMs

/-- One `key=value` attribute. -/
def SetCookie.take (parsed : SetCookie) (part : Text) : SetCookie :=
  let (key, value) :=
    match splitOnce '=' part with
    | some (key, value) => (trim key, trim value)
    | none => (trim part, [])
  let key := toAsciiLowercase key
  if key = "domain".toList then
    let domain := toAsciiLowercase (value.dropWhile (· = '.'))
    if domain.isEmpty then parsed
    else { parsed with domain := some domain, cookie := { parsed.cookie with domain := some domain } }
  else if key = "path".toList then
    { parsed with path := some value, cookie := { parsed.cookie with path := some value } }
  else if key = "max-age".toList then
    match parseI64 value with
    | some seconds =>
      { parsed with maxAge := some seconds, cookie := { parsed.cookie with maxAge := some seconds } }
    | none => parsed
  else if key = "expires".toList then { parsed with expiresUnixMs := parseCookieDate value }
  else if key = "secure".toList then { parsed with cookie := { parsed.cookie with secure := true } }
  else if key = "httponly".toList then
    { parsed with cookie := { parsed.cookie with httpOnly := true } }
  else if key = "samesite".toList then
    match SameSite.parse value with
    | .ok sameSite => { parsed with cookie := { parsed.cookie with sameSite := sameSite } }
    | .error _ => parsed
  else parsed

def parseSetCookie (header : Text) : Option SetCookie := do
  let pair :: parts := header.splitOn ';' | none
  let (name, value) ← splitOnce '=' pair
  let cookie ← (Cookie.new (trim name) (trim value)).toOption
  let parsed : SetCookie := {
    cookie := { cookie with httpOnly := false, sameSite := .lax }
    domain := none, path := none, maxAge := none, expiresUnixMs := none }
  return parts.foldl SetCookie.take parsed

end Noeta.Ext
