import Noeta.Ext.Redirect
import Noeta.Lib.ParseInt
import Noeta.Lib.Utf8

/-!
# HTTP message signatures

Signing a request and verifying the signature on one: the parameters, the components they cover, the
text that is signed, and the parsers of the two headers. Arithmetic that overflows and a slice that is
out of range are `none`.
-/

namespace Noeta.Ext

open Noeta.Lib.Rfc3986 (Text upTo beyond)
open Noeta.Lib.Utf8 (encode)

/-! ### Algorithms -/

inductive SignatureAlg where
  | hmacSha256
  | hmacSha512
deriving DecidableEq, Repr

inductive SignatureError where
  | unsupportedAlg (other : Text)
  | missingComponent (component : Text)
deriving DecidableEq, Repr

def SignatureAlg.label : SignatureAlg → Text
  | .hmacSha256 => "hmac-sha256".toList
  | .hmacSha512 => "hmac-sha512".toList

def SignatureAlg.parse (raw : Text) : Except SignatureError SignatureAlg :=
  if raw = "hmac-sha256".toList then .ok .hmacSha256
  else if raw = "hmac-sha512".toList then .ok .hmacSha512
  else .error (.unsupportedAlg raw)

/-- What the hash, HMAC and base64 libraries and the Unicode tables of the standard library give. -/
structure Primitives where
  hmacSha256 : List UInt8 → List UInt8 → List UInt8
  hmacSha512 : List UInt8 → List UInt8 → List UInt8
  sha256 : List UInt8 → List UInt8
  encode64 : List UInt8 → Text
  decode64 : Text → Option (List UInt8)
  toLowercase : Text → Text
  decode_encode : ∀ bytes, decode64 (encode64 bytes) = some bytes
  encode_alphabet : ∀ bytes, ∀ c ∈ encode64 bytes, c.isAlphanum ∨ c = '+' ∨ c = '/' ∨ c = '='
  toLowercase_lower : ∀ t, ∀ c ∈ toLowercase t, c.isUpper = false

variable (prim : Primitives)

def SignatureAlg.tag (alg : SignatureAlg) (key data : List UInt8) : List UInt8 :=
  match alg with
  | .hmacSha256 => prim.hmacSha256 key data
  | .hmacSha512 => prim.hmacSha512 key data

def SignatureAlg.verify (alg : SignatureAlg) (key data tag : List UInt8) : Bool :=
  alg.tag prim key data = tag

structure SigningKey where
  keyId : Text
  secret : List UInt8
  alg : SignatureAlg
  components : List Text
deriving DecidableEq, Repr

def contentDigest : Text := "content-digest".toList

def SigningKey.coversContentDigest (key : SigningKey) : Bool :=
  key.components.any fun c => eqIgnoreAsciiCase c contentDigest

/-! ### Parameters -/

structure SignatureParams where
  components : List Text
  created : Option Int
  expires : Option Int
  keyId : Option Text
  alg : Option Text
  nonce : Option Text
  tag : Option Text
deriving DecidableEq, Repr

def quoted (t : Text) : Text := '"' :: t ++ ['"']

namespace SignatureParams

/-- The parameters that are there, by name, as they are written. -/
def stated (p : SignatureParams) : List (Text × Text) :=
  (p.created.map fun n => ("created".toList, intText n)).toList ++
    (p.expires.map fun n => ("expires".toList, intText n)).toList ++
    (p.keyId.map fun t => ("keyid".toList, quoted t)).toList ++
    (p.alg.map fun t => ("alg".toList, quoted t)).toList ++
    (p.nonce.map fun t => ("nonce".toList, quoted t)).toList ++
    (p.tag.map fun t => ("tag".toList, quoted t)).toList

def toValue (p : SignatureParams) : Text :=
  '(' :: [' '].intercalate (p.components.map quoted) ++ ')' ::
    p.stated.flatMap fun s => ';' :: s.1 ++ '=' :: s.2

end SignatureParams

/-! ### Components -/

def toAsciiUppercase (t : Text) : Text := t.map Char.toUpper

def queryOf (url : Text) : Option Text := (splitOnce '?' (stripFragment url)).map (·.2)

def headersNamed (request : NetRequest) (name : Text) : List Text :=
  (request.headers.filter fun h => eqIgnoreAsciiCase h.1 name).map (·.2)

/-- `authority_of`: the `Host` header, or what the URL gives. -/
def requestAuthority (request : NetRequest) : Text :=
  match headersNamed request "host".toList with
  | host :: _ => toAsciiLowercase (trim host)
  | [] =>
    let host := toAsciiLowercase (hostOf request.url)
    let scheme := toAsciiLowercase ((schemeOf request.url).getD "https".toList)
    let default : UInt16 := if scheme = "http".toList ∨ scheme = "ws".toList then 80 else 443
    match (portOf request.url).filter (· ≠ default) with
    | some port => host ++ ':' :: showPort port
    | none => host

def derivedComponent (request : NetRequest) (derived : Text) : Option Text :=
  let url := request.url
  if derived = "method".toList then some (toAsciiUppercase request.method)
  else if derived = "target-uri".toList then some url
  else if derived = "authority".toList then some (requestAuthority request)
  else if derived = "scheme".toList then
    some (toAsciiLowercase ((schemeOf url).getD "https".toList))
  else if derived = "request-target".toList then
    match queryOf url with
    | some query => some (pathOf url ++ '?' :: query)
    | none => some (pathOf url)
  else if derived = "path".toList then some (pathOf url)
  else if derived = "query".toList then some ('?' :: (queryOf url).getD [])
  else none

def componentValue (request : NetRequest) (component : Text) : Option Text :=
  match component with
  | '@' :: derived => derivedComponent request derived
  | _ =>
    let values := (headersNamed request component).map trim
    if values.isEmpty then none else some (", ".toList.intercalate values)

def componentLine (request : NetRequest) (component : Text) : Except SignatureError Text :=
  let component := toAsciiLowercase component
  match componentValue request component with
  | some value => .ok (quoted component ++ ": ".toList ++ value)
  | none => .error (.missingComponent component)

def signatureBase (request : NetRequest) (params : SignatureParams) : Except SignatureError Text := do
  let lines ← params.components.mapM (componentLine request)
  return ['\n'].intercalate (lines ++ [quoted "@signature-params".toList ++ ": ".toList ++ params.toValue])

/-! ### Signing -/

def setHeader (request : NetRequest) (name value : Text) : NetRequest :=
  { request with
    headers := (request.headers.filter fun h => !eqIgnoreAsciiCase h.1 name) ++ [(name, value)] }

def contentDigestValue (body : List UInt8) : Text :=
  "sha-256=:".toList ++ prim.encode64 (prim.sha256 body) ++ [':']

def defaultLabel : Text := "sig1".toList

def signatureInputName : Text := "signature-input".toList

def signatureName : Text := "signature".toList

/-- The parameters that are signed. -/
def SigningKey.params (key : SigningKey) (created : Int) : SignatureParams where
  components := key.components.map prim.toLowercase
  created := some created
  expires := none
  keyId := some key.keyId
  alg := some key.alg.label
  nonce := none
  tag := none

/-- `sign_request`: the request afterwards, and whether it was signed. -/
def signRequest (request : NetRequest) (key : SigningKey) (created : Int) :
    NetRequest × Except SignatureError Unit :=
  let request :=
    if key.coversContentDigest then
      setHeader request contentDigest (contentDigestValue prim request.body)
    else request
  let params := key.params prim created
  match signatureBase request params with
  | .error e => (request, .error e)
  | .ok base =>
    let tag := key.alg.tag prim key.secret (encode base)
    let request := setHeader request signatureInputName (defaultLabel ++ '=' :: params.toValue)
    (setHeader request signatureName (defaultLabel ++ "=:".toList ++ prim.encode64 tag ++ [':']), .ok ())

/-! ### Reading the headers -/

/-- Where the scan of a dictionary stands. -/
structure Scan where
  depth : Nat
  inBytes : Bool
  inQuotes : Bool
deriving DecidableEq, Repr

namespace Scan

def start : Scan := ⟨0, false, false⟩

def separates (s : Scan) (ch : Char) : Bool :=
  ch = ',' && !s.inQuotes && !s.inBytes && s.depth = 0

def next (s : Scan) (ch : Char) : Scan :=
  if ch = '"' then { s with inQuotes := !s.inQuotes }
  else if ch = '(' && !s.inQuotes then { s with depth := s.depth + 1 }
  else if ch = ')' && !s.inQuotes then { s with depth := s.depth - 1 }
  else if ch = ':' && !s.inQuotes && s.depth = 0 then { s with inBytes := !s.inBytes }
  else s

end Scan

/-- The text between the commas that separate. -/
def splitMembers : Scan → Text → List Text
  | _, [] => [[]]
  | s, ch :: rest =>
    if s.separates ch then [] :: splitMembers s rest
    else
      match splitMembers (s.next ch) rest with
      | member :: members => (ch :: member) :: members
      | [] => [[ch]]

def splitDictionary (header : Text) : List Text :=
  ((splitMembers .start header).map trim).filter (· ≠ [])

/-- `trim_matches('"')`. -/
def trimQuotes (t : Text) : Text := ((t.dropWhile (· = '"')).reverse.dropWhile (· = '"')).reverse

def splitWhitespace (t : Text) : List Text := (t.splitOnP isWhitespace).filter (· ≠ [])

/-- `&t[..n]` -/
def sliceTo (t : Text) (n : Nat) : Option Text := if n ≤ t.length then some (t.take n) else none

/-- `&t[n..]` -/
def sliceFrom (t : Text) (n : Nat) : Option Text := if n ≤ t.length then some (t.drop n) else none

def readComponents (inner : Text) : List Text :=
  ((splitWhitespace inner).map fun c => toAsciiLowercase (trimQuotes c)).filter (· ≠ [])

/-- One `name=value` parameter. -/
def readParameter (params : SignatureParams) (parameter : Text) : SignatureParams :=
  match splitOnce '=' parameter with
  | none => params
  | some (name, raw) =>
    let name := trim name
    let raw := trim raw
    let unquoted := trimQuotes raw
    if name = "created".toList then { params with created := parseI64 raw }
    else if name = "expires".toList then { params with expires := parseI64 raw }
    else if name = "keyid".toList then { params with keyId := some unquoted }
    else if name = "alg".toList then { params with alg := some unquoted }
    else if name = "nonce".toList then { params with nonce := some unquoted }
    else if name = "tag".toList then { params with tag := some unquoted }
    else params

def readParams (components : List Text) (rest : Text) : SignatureParams :=
  (rest.splitOn ';').foldl readParameter ⟨components, none, none, none, none, none, none⟩

/-- One member of `Signature-Input`; nothing where it does not parse. -/
def parseInputMember (member : Text) : Option (Option (Text × SignatureParams)) :=
  match splitOnce '=' member with
  | none => some none
  | some (label, value) =>
    let value := trim value
    match value.idxOf? ')' with
    | none => some none
    | some close =>
      match value with
      | '(' :: inner => do
        let stop ← if close = 0 then none else some (close - 1)
        let listed ← sliceTo inner stop
        let rest ← sliceFrom value (close + 1)
        return some (trim label, readParams (readComponents listed) rest)
      | _ => some none

def parseSignatureInput (header : Text) : Option (List (Text × SignatureParams)) :=
  ((splitDictionary header).mapM parseInputMember).map (·.filterMap id)

def parseTagMember (member : Text) : Option (Text × List UInt8) := do
  let (label, value) ← splitOnce '=' member
  match trim value with
  | ':' :: rest =>
    match rest.reverse with
    | ':' :: encoded => return (trim label, ← prim.decode64 encoded.reverse)
    | _ => none
  | _ => none

def parseSignature (header : Text) : List (Text × List UInt8) :=
  (splitDictionary header).filterMap (parseTagMember prim)

/-! ### Verifying -/

inductive VerifyFailure where
  | absent
  | malformed
  | unsupportedAlg
  | missingComponent
  | stale
  | mismatch
deriving DecidableEq, Repr

/-- An `i64` result, if it is one. -/
def checkedI64 (n : Int) : Option Int := if -2 ^ 63 ≤ n ∧ n < 2 ^ 63 then some n else none

/-- The freshness checks; nothing is left to say against the parameters where they pass. -/
def freshness (params : SignatureParams) (now : Int) (maxAge : Option Int) :
    Option (Option VerifyFailure) :=
  if params.expires.any (· < now) then some (some .stale)
  else
    match maxAge with
    | none => some none
    | some window =>
      match params.created with
      | none => some (some .stale)
      | some created => do
        let age ← checkedI64 (now - created)
        let age ← checkedI64 (age.natAbs : Int)
        return if age > window then some .stale else none

/-- The algorithm of the parameters, where this build has it. -/
def SignatureParams.algorithm (params : SignatureParams) : Option SignatureAlg :=
  match params.alg with
  | some alg => (SignatureAlg.parse alg).toOption
  | none => some .hmacSha256

def verifyOne (request : NetRequest) (secret : List UInt8) (params : SignatureParams)
    (tag : List UInt8) (now : Int) (maxAge : Option Int) : Option (Except VerifyFailure Unit) :=
  match params.algorithm with
  | none => some (.error .unsupportedAlg)
  | some alg => do
    match ← freshness params now maxAge with
    | some failure => return .error failure
    | none =>
      match signatureBase request params with
      | .error _ => return .error .missingComponent
      | .ok base =>
        return if alg.verify prim secret (encode base) tag then .ok () else .error .mismatch

def headerValue (request : NetRequest) (name : Text) : Option Text :=
  (headersNamed request name).head?

/-- The labels in order, until one verifies. -/
def verifyFrom (request : NetRequest) (secret : List UInt8) (now : Int) (maxAge : Option Int)
    (signatures : List (Text × List UInt8)) :
    VerifyFailure → List (Text × SignatureParams) → Option (Except VerifyFailure Unit)
  | worst, [] => some (.error worst)
  | worst, (label, params) :: inputs =>
    match signatures.find? fun s => s.1 = label with
    | none => verifyFrom request secret now maxAge signatures worst inputs
    | some (_, tag) =>
      match verifyOne prim request secret params tag now maxAge with
      | none => none
      | some (.ok ()) => some (.ok ())
      | some (.error failure) => verifyFrom request secret now maxAge signatures failure inputs

def verifyRequest (request : NetRequest) (secret : List UInt8) (now : Int) (maxAge : Option Int) :
    Option (Except VerifyFailure Unit) :=
  match headerValue request signatureInputName, headerValue request signatureName with
  | some input, some signature => do
    let inputs ← parseSignatureInput input
    let signatures := parseSignature prim signature
    if inputs.isEmpty || signatures.isEmpty then return .error .malformed
    else verifyFrom prim request secret now maxAge signatures .malformed inputs
  | _, _ => some (.error .absent)

/-! ### Base64 -/

def base64Alphabet : Text := "ABCDEFGHIJKLMNOPQRSTUVWXYZabcdefghijklmnopqrstuvwxyz0123456789+/".toList

def sextet (n : Nat) : Char := base64Alphabet.getD n '='

def sextetOf (c : Char) : Option Nat := base64Alphabet.idxOf? c

def encodeBase64 : List UInt8 → Text
  | [] => []
  | [a] => [sextet (a.toNat / 4), sextet (a.toNat % 4 * 16), '=', '=']
  | [a, b] =>
    [sextet (a.toNat / 4), sextet (a.toNat % 4 * 16 + b.toNat / 16), sextet (b.toNat % 16 * 4), '=']
  | a :: b :: c :: rest =>
    sextet (a.toNat / 4) :: sextet (a.toNat % 4 * 16 + b.toNat / 16) ::
      sextet (b.toNat % 16 * 4 + c.toNat / 64) :: sextet (c.toNat % 64) :: encodeBase64 rest

/-- The standard alphabet with canonical padding. -/
def decodeBase64 : Text → Option (List UInt8)
  | [] => some []
  | a :: b :: c :: d :: rest => do
    let w ← sextetOf a
    let x ← sextetOf b
    if c = '=' then
      if d = '=' ∧ rest = [] ∧ x % 16 = 0 then return [UInt8.ofNat (w * 4 + x / 16)] else none
    else
      let y ← sextetOf c
      if d = '=' then
        if rest = [] ∧ y % 4 = 0 then
          return [UInt8.ofNat (w * 4 + x / 16), UInt8.ofNat (x % 16 * 16 + y / 4)]
        else none
      else
        let z ← sextetOf d
        let bytes ← decodeBase64 rest
        return UInt8.ofNat (w * 4 + x / 16) :: UInt8.ofNat (x % 16 * 16 + y / 4) ::
          UInt8.ofNat (y % 4 * 64 + z) :: bytes
  | _ => none

theorem sextet_spec {n : Nat} (h : n < 64) :
    sextetOf (sextet n) = some n ∧ sextet n ≠ '=' ∧
      ((sextet n).isAlphanum ∨ sextet n = '+' ∨ sextet n = '/') := by
  have hall : ∀ m : Fin 64, sextetOf (sextet m) = some (m : Nat) ∧ sextet m ≠ '=' ∧
      ((sextet m).isAlphanum ∨ sextet m = '+' ∨ sextet m = '/') := by decide +kernel
  exact hall ⟨n, h⟩

theorem byte_eq {b : UInt8} {n : Nat} (h : n = b.toNat) : UInt8.ofNat n = b := by
  rw [h, UInt8.ofNat_toNat]

theorem decodeBase64_encodeBase64 (bytes : List UInt8) :
    decodeBase64 (encodeBase64 bytes) = some bytes := by
  induction bytes using encodeBase64.induct with
  | case1 => rfl
  | case2 a =>
    have ha := UInt8.toNat_lt a
    have hw := @sextet_spec (a.toNat / 4) (by omega)
    have hx := @sextet_spec (a.toNat % 4 * 16) (by omega)
    rw [encodeBase64, decodeBase64, hw.1, hx.1]
    simp only [Option.bind_eq_bind, Option.bind_some, if_true]
    rw [if_pos ⟨trivial, trivial, by omega⟩, @byte_eq a _ (by omega)]
    rfl
  | case3 a b =>
    have ha := UInt8.toNat_lt a
    have hb := UInt8.toNat_lt b
    have hw := @sextet_spec (a.toNat / 4) (by omega)
    have hx := @sextet_spec (a.toNat % 4 * 16 + b.toNat / 16) (by omega)
    have hy := @sextet_spec (b.toNat % 16 * 4) (by omega)
    rw [encodeBase64, decodeBase64, hw.1, hx.1]
    simp only [Option.bind_eq_bind, Option.bind_some, if_neg hy.2.1, hy.1, if_true]
    rw [if_pos ⟨trivial, by omega⟩, @byte_eq a _ (by omega), @byte_eq b _ (by omega)]
    rfl
  | case4 a b c rest ih =>
    have ha := UInt8.toNat_lt a
    have hb := UInt8.toNat_lt b
    have hc := UInt8.toNat_lt c
    have hw := @sextet_spec (a.toNat / 4) (by omega)
    have hx := @sextet_spec (a.toNat % 4 * 16 + b.toNat / 16) (by omega)
    have hy := @sextet_spec (b.toNat % 16 * 4 + c.toNat / 64) (by omega)
    have hz := @sextet_spec (c.toNat % 64) (by omega)
    rw [encodeBase64, decodeBase64, hw.1, hx.1]
    simp only [Option.bind_eq_bind, Option.bind_some, if_neg hy.2.1, hy.1, if_neg hz.2.1, hz.1, ih]
    rw [@byte_eq a _ (by omega), @byte_eq b _ (by omega), @byte_eq c _ (by omega)]
    rfl

theorem encodeBase64_alphabet (bytes : List UInt8) :
    ∀ c ∈ encodeBase64 bytes, c.isAlphanum ∨ c = '+' ∨ c = '/' ∨ c = '=' := by
  have hone {n : Nat} (h : n < 64) : (sextet n).isAlphanum ∨ sextet n = '+' ∨ sextet n = '/' ∨ sextet n = '=' := by
    rcases (sextet_spec h).2.2 with h | h | h
    · exact .inl h
    · exact .inr (.inl h)
    · exact .inr (.inr (.inl h))
  induction bytes using encodeBase64.induct with
  | case1 => simp [encodeBase64]
  | case2 a =>
    have ha := UInt8.toNat_lt a
    simp only [encodeBase64, List.forall_mem_cons]
    exact ⟨hone (by omega), hone (by omega), by simp⟩
  | case3 a b =>
    have ha := UInt8.toNat_lt a
    have hb := UInt8.toNat_lt b
    simp only [encodeBase64, List.forall_mem_cons]
    exact ⟨hone (by omega), hone (by omega), hone (by omega), by simp⟩
  | case4 a b c rest ih =>
    have ha := UInt8.toNat_lt a
    have hb := UInt8.toNat_lt b
    have hc := UInt8.toNat_lt c
    simp only [encodeBase64, List.forall_mem_cons]
    exact ⟨hone (by omega), hone (by omega), hone (by omega), hone (by omega), ih⟩

theorem toAsciiLowercase_lower (t : Text) : ∀ c ∈ toAsciiLowercase t, c.isUpper = false := by
  intro c hc
  obtain ⟨d, -, rfl⟩ := List.mem_map.1 hc
  unfold Char.isUpper Char.toLower
  split <;> grind [UInt32.toNat_add]

/-- Base64, lowercasing in ASCII, and no hash of anything. -/
def base64Primitives : Primitives where
  hmacSha256 _ _ := []
  hmacSha512 _ _ := []
  sha256 _ := []
  encode64 := encodeBase64
  decode64 := decodeBase64
  toLowercase := toAsciiLowercase
  decode_encode := decodeBase64_encodeBase64
  encode_alphabet := encodeBase64_alphabet
  toLowercase_lower := toAsciiLowercase_lower

end Noeta.Ext
