import Noeta.Lib.Utf8
import Noeta.Ext.Uri

/-!
# Form encoding

The codec of query strings and form bodies in `noeta-ext-abi/src/net.rs`. Escapes are written for each byte of a text in
UTF-8 and are read back as bytes, which become text at the end.
-/

namespace Noeta.Ext

open Noeta.Lib.Utf8
open Noeta.Lib.Rfc3986 (Text upTo beyond upTo_append beyond_append beyond_eq_nil)

/-! ## The codec -/

/-- The value of a hex digit. -/
def hexNibble (byte : UInt8) : Option UInt8 :=
  if 0x30 ≤ byte ∧ byte ≤ 0x39 then some (byte - 0x30)
  else if 0x61 ≤ byte ∧ byte ≤ 0x66 then some (byte - 0x61 + 10)
  else if 0x41 ≤ byte ∧ byte ≤ 0x46 then some (byte - 0x41 + 10)
  else none

/-- The loop of `percent_decode`. A percent sign that begins no escape stays. -/
def percentDecodeBytes : List UInt8 → List UInt8
  | 0x25 :: hi :: lo :: more =>
    match hexNibble hi, hexNibble lo with
    | some hi, some lo => (hi * 16 + lo) :: percentDecodeBytes more
    | _, _ => 0x25 :: percentDecodeBytes (hi :: lo :: more)
  | byte :: rest => byte :: percentDecodeBytes rest
  | [] => []

def percentDecode (raw : Text) : Text := fromUtf8Lossy (percentDecodeBytes (encode raw))

/-- The bytes that stand for themselves: letters, digits, `-`, `.`, `_` and `~`. -/
def unreserved (byte : UInt8) : Bool :=
  (0x41 ≤ byte && byte ≤ 0x5A) || (0x61 ≤ byte && byte ≤ 0x7A) || (0x30 ≤ byte && byte ≤ 0x39) ||
    byte = 0x2D || byte = 0x2E || byte = 0x5F || byte = 0x7E

/-- A digit as the format `X` writes it. -/
def hexUpper (n : Nat) : Char := (Nat.digitChar n).toUpper

def percentEncodeByte (byte : UInt8) : Text :=
  if unreserved byte then [Char.ofNat byte.toNat]
  else ['%', hexUpper (byte.toNat / 16), hexUpper (byte.toNat % 16)]

def percentEncode (raw : Text) : Text := (encode raw).flatMap percentEncodeByte

/-- A plus sign is a space in a form, and is read as one before any escape is. -/
def plusToSpace (byte : UInt8) : UInt8 := if byte = 0x2B then 0x20 else byte

def formDecode (raw : Text) : Text := percentDecode (fromUtf8Lossy ((encode raw).map plusToSpace))

def formPairs (body : Text) : List (Text × Text) :=
  ((body.splitOn '&').filter (· ≠ [])).map fun pair =>
    let (key, value) := (splitOnce '=' pair).getD (pair, [])
    (formDecode key, formDecode value)

def formValue (body name : Text) : Option Text :=
  (formPairs body).findSome? fun (key, value) => if key = name then some value else none

def queryValue (url name : Text) : Option Text :=
  (splitOnce '?' url).bind fun (_, query) =>
    formValue (((splitOnce '#' query).map Prod.fst).getD query) name

/-- The text of some pairs: `key=value` for each, joined with `&`. -/
def encodePair (pair : Text × Text) : Text := percentEncode pair.1 ++ '=' :: percentEncode pair.2

def encodePairs (pairs : List (Text × Text)) : Text := ['&'].intercalate (pairs.map encodePair)

/-! ## One byte -/

theorem hexNibble_hexUpper : ∀ n < 16, hexNibble (UInt8.ofNat (hexUpper n).toNat) = some (UInt8.ofNat n) := by
  decide

/-- The characters an encoded text is made of. -/
def Encoded (c : Char) : Prop := c.toNat < 0x80 ∧ c ∉ ['&', '=', '+', '?', '#']

theorem encoded_hexUpper : ∀ n < 16, Encoded (hexUpper n) := by
  unfold Encoded
  decide

theorem unreserved_iff {byte : UInt8} :
    unreserved byte = true ↔
      ((0x41 ≤ byte.toNat ∧ byte.toNat ≤ 0x5A) ∨ (0x61 ≤ byte.toNat ∧ byte.toNat ≤ 0x7A) ∨
        (0x30 ≤ byte.toNat ∧ byte.toNat ≤ 0x39) ∨ byte.toNat = 0x2D ∨ byte.toNat = 0x2E ∨ byte.toNat = 0x5F ∨
        byte.toNat = 0x7E) := by
  simp only [unreserved, Bool.or_eq_true, Bool.and_eq_true, decide_eq_true_eq, UInt8.le_iff_toNat_le,
    ← UInt8.toNat_inj, or_assoc]
  rfl

theorem toNat_ofNat_ascii : ∀ {n : Nat}, n < 0x80 → (Char.ofNat n).toNat = n := by
  decide

theorem encoded_percentEncodeByte (byte : UInt8) : ∀ c ∈ percentEncodeByte byte, Encoded c := by
  intro c hc
  have hlt := byte.toNat_lt
  unfold percentEncodeByte at hc
  split_ifs at hc with hu
  · rw [unreserved_iff] at hu
    rw [List.mem_singleton] at hc
    subst hc
    have hcode : (Char.ofNat byte.toNat).toNat = byte.toNat := toNat_ofNat_ascii (by omega)
    refine ⟨by omega, fun hmem => ?_⟩
    simp only [List.mem_cons, List.not_mem_nil, or_false] at hmem
    obtain h | h | h | h | h := hmem <;>
    · rw [h] at hcode
      simp at hcode
      omega
  · simp only [List.mem_cons, List.not_mem_nil, or_false] at hc
    obtain rfl | rfl | rfl := hc
    · exact ⟨by decide, by decide⟩
    · exact encoded_hexUpper _ (by omega)
    · exact encoded_hexUpper _ (by omega)

theorem percentDecodeBytes_encodeByte (byte : UInt8) (rest : List UInt8) :
    percentDecodeBytes ((percentEncodeByte byte).map (fun c => UInt8.ofNat c.toNat) ++ rest) =
      byte :: percentDecodeBytes rest := by
  have hlt := byte.toNat_lt
  unfold percentEncodeByte
  split_ifs with hu
  · rw [unreserved_iff] at hu
    have hcode : (Char.ofNat byte.toNat).toNat = byte.toNat := toNat_ofNat_ascii (by omega)
    rw [List.map_cons, List.map_nil, List.cons_append, List.nil_append, hcode, UInt8.ofNat_toNat]
    rw [percentDecodeBytes]
    rintro hi lo more rfl -
    revert hu
    decide
  · simp only [List.map_cons, List.map_nil, List.cons_append, List.nil_append]
    change percentDecodeBytes (0x25 :: _ :: _ :: rest) = _
    rw [percentDecodeBytes, hexNibble_hexUpper _ (by omega), hexNibble_hexUpper _ (by omega)]
    simp only
    congr 1
    apply UInt8.toNat_inj.mp
    rw [UInt8.toNat_add, UInt8.toNat_mul, toNat_ofNat (by omega), toNat_ofNat (by omega)]
    change (byte.toNat / 16 * 16 % 256 + byte.toNat % 16) % 256 = byte.toNat
    omega

/-! ## Texts -/

theorem encoded_percentEncode (raw : Text) : ∀ c ∈ percentEncode raw, Encoded c := by
  intro c hc
  obtain ⟨byte, -, hbyte⟩ := List.mem_flatMap.mp hc
  exact encoded_percentEncodeByte byte c hbyte

theorem not_mem_percentEncode {c : Char} (h : c ∈ ['&', '=', '+', '?', '#']) (raw : Text) : c ∉ percentEncode raw :=
  fun hmem => (encoded_percentEncode raw c hmem).2 h

theorem encode_percentEncode (raw : Text) :
    encode (percentEncode raw) = (percentEncode raw).map fun c => UInt8.ofNat c.toNat :=
  encode_ascii fun c hc => (encoded_percentEncode raw c hc).1

theorem percentDecodeBytes_encode (bytes : List UInt8) :
    percentDecodeBytes ((bytes.flatMap percentEncodeByte).map fun c => UInt8.ofNat c.toNat) = bytes := by
  induction bytes with
  | nil => rfl
  | cons byte bytes ih => rw [List.flatMap_cons, List.map_append, percentDecodeBytes_encodeByte, ih]

theorem percentDecode_percentEncode (raw : Text) : percentDecode (percentEncode raw) = raw := by
  rw [percentDecode, encode_percentEncode, percentEncode, percentDecodeBytes_encode, fromUtf8Lossy_encode]

theorem formDecode_percentEncode (raw : Text) : formDecode (percentEncode raw) = raw := by
  have hplus : (encode (percentEncode raw)).map plusToSpace = encode (percentEncode raw) := by
    rw [encode_percentEncode, List.map_map]
    apply List.map_congr_left
    intro c hc
    obtain ⟨hlt, hnot⟩ := encoded_percentEncode raw c hc
    rw [Function.comp_apply, plusToSpace, if_neg]
    intro heq
    have hcode : c.toNat = 0x2B := by
      rw [← toNat_ofNat (n := c.toNat) (by omega), heq]
      rfl
    have hc : c = '+' := Char.toNat_inj.mp hcode
    exact hnot (by rw [hc]; decide)
  rw [formDecode, hplus, fromUtf8Lossy_encode, percentDecode_percentEncode]

/-! ## Pairs -/

theorem splitOnce_append {sep : Char} {before : Text} (h : sep ∉ before) (after : Text) :
    splitOnce sep (before ++ sep :: after) = some (before, after) := by
  have hclear : ∀ c ∈ before, c ∉ [sep] := fun c hc hmem => h (List.mem_singleton.mp hmem ▸ hc)
  have hbegins : Lib.Rfc3986.Begins [sep] (sep :: after) := by
    intro c hc
    cases hc
    exact List.mem_singleton_self _
  rw [splitOnce, beyond_append hclear hbegins, upTo_append hclear hbegins]

theorem amp_not_mem_encodePair (pair : Text × Text) : '&' ∉ encodePair pair := by
  rw [encodePair, List.mem_append, List.mem_cons]
  rintro (h | h | h)
  · exact not_mem_percentEncode (by decide) _ h
  · exact absurd h (by decide)
  · exact not_mem_percentEncode (by decide) _ h

theorem formPairs_encodePairs (pairs : List (Text × Text)) : formPairs (encodePairs pairs) = pairs := by
  cases pairs with
  | nil => rfl
  | cons first pairs =>
    have hsplit : (encodePairs (first :: pairs)).splitOn '&' = (first :: pairs).map encodePair := by
      apply List.splitOn_intercalate
      · intro t ht
        obtain ⟨pair, -, rfl⟩ := List.mem_map.mp ht
        exact amp_not_mem_encodePair pair
      · exact List.cons_ne_nil _ _
    have hkeep : ((first :: pairs).map encodePair).filter (· ≠ []) = (first :: pairs).map encodePair := by
      rw [List.filter_eq_self]
      intro t ht
      obtain ⟨pair, -, rfl⟩ := List.mem_map.mp ht
      simp [encodePair]
    rw [formPairs, hsplit, hkeep, List.map_map]
    conv_rhs => rw [← List.map_id (first :: pairs)]
    apply List.map_congr_left
    intro pair _
    rw [Function.comp_apply, encodePair, splitOnce_append (not_mem_percentEncode (by decide) _)]
    simp only [Option.getD_some, formDecode_percentEncode, id_eq]

theorem not_mem_encodePair {c : Char} (h : c ∈ ['?', '#']) (pair : Text × Text) : c ∉ encodePair pair := by
  have hsep : c ∈ ['&', '=', '+', '?', '#'] := by
    simp only [List.mem_cons, List.not_mem_nil, or_false] at h ⊢
    tauto
  rw [encodePair, List.mem_append, List.mem_cons]
  rintro (hmem | rfl | hmem)
  · exact not_mem_percentEncode hsep _ hmem
  · exact absurd h (by decide)
  · exact not_mem_percentEncode hsep _ hmem

theorem not_mem_encodePairs {c : Char} (h : c ∈ ['?', '#']) (pairs : List (Text × Text)) : c ∉ encodePairs pairs := by
  have hamp : c ≠ '&' := by
    rintro rfl
    exact absurd h (by decide)
  rw [encodePairs]
  induction pairs with
  | nil => exact List.not_mem_nil
  | cons first pairs ih =>
    cases pairs with
    | nil =>
      rw [List.map_cons, List.map_nil, List.intercalate_singleton]
      exact not_mem_encodePair h first
    | cons second pairs =>
      rw [List.map_cons, List.map_cons, List.intercalate_cons_cons, List.mem_append, List.mem_append, List.mem_singleton]
      rintro ((hmem | hmem) | hmem)
      · exact not_mem_encodePair h first hmem
      · exact hamp hmem
      · exact ih hmem

theorem formValue_encodePairs (pairs : List (Text × Text)) (name : Text) :
    formValue (encodePairs pairs) name = (pairs.find? (·.1 = name)).map Prod.snd := by
  rw [formValue, formPairs_encodePairs]
  induction pairs with
  | nil => rfl
  | cons pair pairs ih =>
    rw [List.findSome?_cons, List.find?_cons]
    by_cases heq : pair.1 = name
    · simp only [heq, if_pos, decide_true, Option.map_some]
    · simp only [heq, if_false, decide_false]
      exact ih

theorem splitOnce_eq_none {sep : Char} {t : Text} (h : sep ∉ t) : splitOnce sep t = none := by
  have hclear : ∀ c ∈ t, c ∉ [sep] := fun c hc hmem => h (List.mem_singleton.mp hmem ▸ hc)
  rw [splitOnce, beyond_eq_nil hclear]

theorem queryValue_encodePairs {before : Text} (h : '?' ∉ before) (pairs : List (Text × Text)) (name : Text) :
    queryValue (before ++ '?' :: encodePairs pairs) name = (pairs.find? (·.1 = name)).map Prod.snd := by
  have hnone : splitOnce '#' (encodePairs pairs) = none :=
    splitOnce_eq_none (not_mem_encodePairs (by decide) pairs)
  rw [queryValue, splitOnce_append h, Option.bind_some]
  simp only [hnone, Option.map_none, Option.getD_none]
  exact formValue_encodePairs pairs name

/-- Encoding is undone by decoding, for a text, for the pairs of a form and for the query of a URL. -/
theorem form_roundtrip :
    (∀ pairs, formPairs (encodePairs pairs) = pairs) ∧
      (∀ raw, percentDecode (percentEncode raw) = raw) ∧
      ∀ url before pairs name, '#' ∉ url → '?' ∉ before → url = before ++ '?' :: encodePairs pairs →
        queryValue url name = (pairs.find? (·.1 = name)).map Prod.snd := by
  refine ⟨formPairs_encodePairs, percentDecode_percentEncode, ?_⟩
  rintro url before pairs name - hquery rfl
  exact queryValue_encodePairs hquery pairs name

/-- A key given twice and a value that holds each of the separators. -/
theorem form_roundtrip_repeated :
    queryValue "/p?a=%26%3D%3F&b=&a=x".toList ['a'] = some "&=?".toList := by
  have hurl : "/p?a=%26%3D%3F&b=&a=x".toList =
      "/p".toList ++ '?' :: encodePairs [(['a'], "&=?".toList), (['b'], []), (['a'], ['x'])] := by
    decide
  have hfound := form_roundtrip.2.2 _ "/p".toList _ ['a'] (by decide) (by decide) hurl
  exact hfound

end Noeta.Ext
