import Mathlib.Data.List.Basic

/-!
# JSON text

`json_string`, `json_array` and `json_object` of `noeta-ext-abi`, and the texts that are put together
from them and from bare words. Such texts can be told apart where they stand: two of them, each with
a delimiter or nothing behind it, agree only when they are the same text (`Text.told`), so a list of
texts can be read off the array or the object it was written into.
-/

namespace Noeta.Json

/-! ### Strings -/

/-- `{:04x}`. -/
def fourHex (n : Nat) : List Char :=
  [Nat.digitChar (n / 4096 % 16), Nat.digitChar (n / 256 % 16), Nat.digitChar (n / 16 % 16),
    Nat.digitChar (n % 16)]

/-- One character of `json_string`. -/
def escape (c : Char) : List Char :=
  if c = '"' then ['\\', '"']
  else if c = '\\' then ['\\', '\\']
  else if c = '\n' then ['\\', 'n']
  else if c = '\r' then ['\\', 'r']
  else if c = '\t' then ['\\', 't']
  else if c.toNat < 0x20 then '\\' :: 'u' :: fourHex c.toNat
  else [c]

def jsonString (s : List Char) : List Char := '"' :: s.flatMap escape ++ ['"']

/-- The two low digits of a `\\u` escape, the first of them below ten. -/
def hexPair (a b : Char) : Nat :=
  (a.toNat - '0'.toNat) * 16 +
    (if b.isDigit then b.toNat - '0'.toNat else b.toNat - 'a'.toNat + 10)

/-- What an escape stands for, and what is left: the reading of `escape` and of nothing else. -/
def unescape : List Char → Option (Char × List Char)
  | [] => none
  | c :: rest =>
    if c = '"' then none
    else if c = '\\' then
      match rest with
      | '"' :: rest => some ('"', rest)
      | '\\' :: rest => some ('\\', rest)
      | 'n' :: rest => some ('\n', rest)
      | 'r' :: rest => some ('\r', rest)
      | 't' :: rest => some ('\t', rest)
      | 'u' :: _ :: _ :: a :: b :: rest =>
        some (Char.ofNat (hexPair a b), rest)
      | _ => none
    else some (c, rest)

theorem unescape_escape (c : Char) (rest : List Char) :
    unescape (escape c ++ rest) = some (c, rest) := by
  unfold escape
  split_ifs with hquote hslash hn hr ht hctrl
  · subst hquote
    rfl
  · subst hslash
    rfl
  · subst hn
    rfl
  · subst hr
    rfl
  · subst ht
    rfl
  · have hread : ∀ n, unescape ('\\' :: 'u' :: fourHex n ++ rest) =
        some (Char.ofNat (hexPair (Nat.digitChar (n / 16 % 16)) (Nat.digitChar (n % 16))), rest) :=
      fun n => rfl
    have hpair : ∀ n : Fin 32,
        hexPair (Nat.digitChar (n / 16 % 16)) (Nat.digitChar (n % 16)) = n := by decide
    rw [hread, hpair ⟨c.toNat, hctrl⟩, Char.ofNat_toNat]
  · rw [List.singleton_append, unescape.eq_def]
    simp only [if_neg hquote, if_neg hslash]

theorem unescape_quote (rest : List Char) : unescape ('"' :: rest) = none := rfl

/-- A quoted text ends where its string does. -/
theorem jsonString_told {s s' r r' : List Char} (h : jsonString s ++ r = jsonString s' ++ r') :
    s = s' ∧ r = r' := by
  have hbody : ∀ {s s' : List Char}, s.flatMap escape ++ '"' :: r = s'.flatMap escape ++ '"' :: r' →
      s = s' ∧ r = r' := by
    intro s
    induction s with
    | nil =>
      intro s' h
      cases s' with
      | nil => simpa using h
      | cons c' s' =>
        have hread := congrArg unescape h
        rw [List.flatMap_cons, List.append_assoc, unescape_escape] at hread
        exact absurd hread (by simp [unescape_quote])
    | cons c s ih =>
      intro s' h
      cases s' with
      | nil =>
        have hread := congrArg unescape h
        rw [List.flatMap_cons, List.append_assoc, unescape_escape] at hread
        exact absurd hread (by simp [unescape_quote])
      | cons c' s' =>
        have hread := congrArg unescape h
        rw [List.flatMap_cons, List.flatMap_cons, List.append_assoc, List.append_assoc,
          unescape_escape, unescape_escape] at hread
        simp only [Option.some.injEq, Prod.mk.injEq] at hread
        obtain ⟨rfl, hrest⟩ := hread
        obtain ⟨rfl, hr⟩ := ih hrest
        exact ⟨rfl, hr⟩
  refine hbody ?_
  simpa [jsonString] using h

/-! ### Arrays and objects -/

def commaJoin (parts : List (List Char)) : List Char := [','].intercalate parts

def jsonArray (parts : List (List Char)) : List Char := '[' :: commaJoin parts ++ [']']

def jsonObject (entries : List (List Char × List Char)) : List Char :=
  '{' :: commaJoin (entries.map fun e => e.1 ++ ':' :: e.2) ++ ['}']

/-! ### Texts -/

/-- A character of a word that is neither quoted nor bracketed. -/
def isBare (c : Char) : Bool :=
  c != '"' && c != '[' && c != ']' && c != '{' && c != '}' && c != ',' && c != ':'

/-- What may stand behind a text. -/
def Delimited : List Char → Prop
  | [] => True
  | c :: _ => c = ',' ∨ c = ']' ∨ c = '}'

/-- The texts of values: bare words, strings, arrays and objects. -/
inductive Text : List Char → Prop
  | bare {word : List Char} : word ≠ [] → (∀ c ∈ word, isBare c = true) → Text word
  | string (s : List Char) : Text (jsonString s)
  | array {parts : List (List Char)} : (∀ part ∈ parts, Text part) → Text (jsonArray parts)
  | object {entries : List (List Char × List Char)} : (∀ e ∈ entries, Text e.2) →
      Text (jsonObject (entries.map fun e => (jsonString e.1, e.2)))

theorem isBare_delimited {c : Char} {rest : List Char} (h : isBare c = true) :
    ¬Delimited (c :: rest) := by
  rintro (rfl | rfl | rfl) <;> exact absurd h (by decide)

theorem bare_told {word word' r r' : List Char} (hword : ∀ c ∈ word, isBare c = true)
    (hword' : ∀ c ∈ word', isBare c = true) (hr : Delimited r) (hr' : Delimited r')
    (h : word ++ r = word' ++ r') : word = word' ∧ r = r' := by
  induction word generalizing word' with
  | nil =>
    cases word' with
    | nil => exact ⟨rfl, h⟩
    | cons c word' =>
      rw [List.nil_append, List.cons_append] at h
      exact absurd (h ▸ hr) (isBare_delimited (hword' c List.mem_cons_self))
  | cons c word ih =>
    cases word' with
    | nil =>
      rw [List.nil_append, List.cons_append] at h
      exact absurd (h.symm ▸ hr') (isBare_delimited (hword c List.mem_cons_self))
    | cons c' word' =>
      rw [List.cons_append, List.cons_append, List.cons.injEq] at h
      obtain ⟨rfl, h⟩ := h
      obtain ⟨rfl, hrest⟩ := ih (fun x hx => hword x (List.mem_cons_of_mem _ hx))
        (fun x hx => hword' x (List.mem_cons_of_mem _ hx)) h
      exact ⟨rfl, hrest⟩

theorem delimited_append {a r : List Char} (h : ¬Delimited a) : ¬Delimited (a ++ r) := by
  cases a with
  | nil => exact absurd trivial h
  | cons c a => exact h

theorem Text.not_delimited {a : List Char} (h : Text a) : ¬Delimited a := by
  cases h with
  | bare hne hword =>
    cases a with
    | nil => exact absurd rfl hne
    | cons c word => exact isBare_delimited (hword c List.mem_cons_self)
  | string s => simp [jsonString, Delimited]
  | array hparts => simp [jsonArray, Delimited]
  | object hentries => simp [jsonObject, Delimited]

/-- Two texts of which each ends where the other does, whatever delimiter follows. -/
def Told (a a' : List Char) : Prop :=
  ∀ r r', Delimited r → Delimited r' → a ++ r = a' ++ r' → a = a' ∧ r = r'

theorem commaJoin_cons_append (part : List Char) (parts : List (List Char)) (r : List Char) :
    commaJoin (part :: parts) ++ r =
      part ++ if parts = [] then r else ',' :: (commaJoin parts ++ r) := by
  cases parts with
  | nil => simp [commaJoin]
  | cons next parts =>
    rw [if_neg (List.cons_ne_nil _ _), commaJoin, List.intercalate_cons_cons, ← commaJoin]
    simp

/-- The parts of a bracketed list can be read off it. -/
theorem commaJoin_told {parts parts' : List (List Char)}
    (htold : ∀ part ∈ parts, ∀ part' ∈ parts', Told part part')
    (hopen : ∀ part ∈ parts, ¬Delimited part) (hopen' : ∀ part ∈ parts', ¬Delimited part)
    {close : Char} (hclose : close = ']' ∨ close = '}') {r r' : List Char}
    (h : commaJoin parts ++ close :: r = commaJoin parts' ++ close :: r') :
    parts = parts' ∧ r = r' := by
  have hdelim : ∀ r, Delimited (close :: r) := fun r => .inr hclose
  have hcomma : ∀ r, Delimited (',' :: r) := fun r => .inl rfl
  have hne : close ≠ ',' := by
    rintro rfl
    exact absurd hclose (by decide)
  induction parts generalizing parts' with
  | nil =>
    cases parts' with
    | nil => exact ⟨rfl, by simpa [commaJoin] using h⟩
    | cons part' parts' =>
      have hhead : close :: r = commaJoin (part' :: parts') ++ close :: r' := h
      rw [commaJoin_cons_append] at hhead
      exact absurd (hhead ▸ hdelim r) (delimited_append (hopen' part' List.mem_cons_self))
  | cons part parts ih =>
    cases parts' with
    | nil =>
      have hhead : commaJoin (part :: parts) ++ close :: r = close :: r' := h
      rw [commaJoin_cons_append] at hhead
      exact absurd (hhead ▸ hdelim r') (delimited_append (hopen part List.mem_cons_self))
    | cons part' parts' =>
      rw [commaJoin_cons_append, commaJoin_cons_append] at h
      have hrest : ∀ (ps : List (List Char)) (x : List Char),
          Delimited (if ps = [] then close :: x else ',' :: (commaJoin ps ++ close :: x)) := by
        intro ps x
        split
        · exact hdelim x
        · exact hcomma _
      obtain ⟨rfl, htail⟩ := htold part List.mem_cons_self part' List.mem_cons_self _ _
        (hrest parts r) (hrest parts' r') h
      by_cases hps : parts = []
      · by_cases hps' : parts' = []
        · rw [if_pos hps, if_pos hps', List.cons.injEq] at htail
          exact ⟨by rw [hps, hps'], htail.2⟩
        · rw [if_pos hps, if_neg hps', List.cons.injEq] at htail
          exact absurd htail.1 hne
      · by_cases hps' : parts' = []
        · rw [if_neg hps, if_pos hps', List.cons.injEq] at htail
          exact absurd htail.1.symm hne
        · rw [if_neg hps, if_neg hps', List.cons.injEq] at htail
          obtain ⟨rfl, hr⟩ := ih
            (fun p hp p' hp' => htold p (List.mem_cons_of_mem _ hp) p' (List.mem_cons_of_mem _ hp'))
            (fun p hp => hopen p (List.mem_cons_of_mem _ hp))
            (fun p hp => hopen' p (List.mem_cons_of_mem _ hp)) htail.2
          exact ⟨rfl, hr⟩

theorem entry_told {k k' v v' : List Char} (h : Told v v') :
    Told (jsonString k ++ ':' :: v) (jsonString k' ++ ':' :: v') := by
  intro r r' hr hr' heq
  rw [List.append_assoc, List.append_assoc] at heq
  obtain ⟨rfl, hrest⟩ := jsonString_told heq
  rw [List.cons_append, List.cons_append, List.cons.injEq] at hrest
  obtain ⟨rfl, hr⟩ := h r r' hr hr' hrest.2
  exact ⟨rfl, hr⟩

theorem entry_not_delimited (k v : List Char) : ¬Delimited (jsonString k ++ ':' :: v) := by
  simp [jsonString, Delimited]

theorem entries_told {entries entries' : List (List Char × List Char)}
    (htold : ∀ e ∈ entries, ∀ e' ∈ entries', Told e.2 e'.2) {r r' : List Char}
    (h : commaJoin (entries.map fun e => jsonString e.1 ++ ':' :: e.2) ++ '}' :: r =
      commaJoin (entries'.map fun e => jsonString e.1 ++ ':' :: e.2) ++ '}' :: r') :
    entries = entries' ∧ r = r' := by
  have hopen : ∀ entries : List (List Char × List Char),
      ∀ part ∈ entries.map fun e => jsonString e.1 ++ ':' :: e.2, ¬Delimited part := by
    intro entries part hpart
    obtain ⟨e, he, rfl⟩ := List.mem_map.1 hpart
    exact entry_not_delimited e.1 e.2
  have hparts : ∀ part ∈ entries.map fun e => jsonString e.1 ++ ':' :: e.2,
      ∀ part' ∈ entries'.map fun e => jsonString e.1 ++ ':' :: e.2, Told part part' := by
    intro part hpart part' hpart'
    obtain ⟨e, he, rfl⟩ := List.mem_map.1 hpart
    obtain ⟨e', he', rfl⟩ := List.mem_map.1 hpart'
    exact entry_told (htold e he e' he')
  obtain ⟨heq, hr⟩ := commaJoin_told hparts (hopen entries) (hopen entries') (.inr rfl) h
  refine ⟨List.map_injective_iff.2 ?_ heq, hr⟩
  intro e e' hentry
  obtain ⟨hkey, hrest⟩ := jsonString_told hentry
  rw [List.cons.injEq] at hrest
  exact Prod.ext hkey hrest.2

theorem bare_not_opening {word r rest : List Char} {c : Char} (hne : word ≠ [])
    (hword : ∀ c ∈ word, isBare c = true) (hc : isBare c = false) : word ++ r ≠ c :: rest := by
  cases word with
  | nil => exact absurd rfl hne
  | cons d word =>
    intro h
    rw [List.cons_append, List.cons.injEq] at h
    have hd := hword d List.mem_cons_self
    rw [h.1, hc] at hd
    exact absurd hd (by decide)

/-- **Texts can be told apart**: by cases on the first character, which says what kind of text it
is, and by induction on the parts. -/
theorem Text.told {a a' : List Char} (h : Text a) (h' : Text a') : Told a a' := by
  induction h generalizing a' with
  | bare hne hword =>
    intro r r' hr hr' heq
    cases h' with
    | bare hne' hword' => exact bare_told hword hword' hr hr' heq
    | string s => exact absurd heq (bare_not_opening hne hword (by decide))
    | array hparts => exact absurd heq (bare_not_opening hne hword (by decide))
    | object hentries => exact absurd heq (bare_not_opening hne hword (by decide))
  | string s =>
    intro r r' hr hr' heq
    cases h' with
    | bare hne' hword' => exact absurd heq.symm (bare_not_opening hne' hword' (by decide))
    | string s' =>
      obtain ⟨rfl, hrest⟩ := jsonString_told heq
      exact ⟨rfl, hrest⟩
    | array hparts => simp [jsonString, jsonArray] at heq
    | object hentries => simp [jsonString, jsonObject] at heq
  | @array parts hparts ih =>
    intro r r' hr hr' heq
    cases h' with
    | bare hne' hword' => exact absurd heq.symm (bare_not_opening hne' hword' (by decide))
    | string s => simp [jsonString, jsonArray] at heq
    | @array parts' hparts' =>
      have hjoin : commaJoin parts ++ ']' :: r = commaJoin parts' ++ ']' :: r' := by
        simpa [jsonArray] using heq
      obtain ⟨rfl, hrest⟩ := commaJoin_told
        (fun part hpart part' hpart' => ih part hpart (hparts' part' hpart'))
        (fun part hpart => (hparts part hpart).not_delimited)
        (fun part hpart => (hparts' part hpart).not_delimited) (.inl rfl) hjoin
      exact ⟨rfl, hrest⟩
    | object hentries => simp [jsonArray, jsonObject] at heq
  | @object entries hentries ih =>
    intro r r' hr hr' heq
    cases h' with
    | bare hne' hword' => exact absurd heq.symm (bare_not_opening hne' hword' (by decide))
    | string s => simp [jsonString, jsonObject] at heq
    | array hparts => simp [jsonArray, jsonObject] at heq
    | @object entries' hentries' =>
      have hjoin : commaJoin (entries.map fun e => jsonString e.1 ++ ':' :: e.2) ++ '}' :: r =
          commaJoin (entries'.map fun e => jsonString e.1 ++ ':' :: e.2) ++ '}' :: r' := by
        simpa [jsonObject, Function.comp_def] using heq
      obtain ⟨rfl, rfl⟩ := entries_told (fun e he e' he' => ih e he (hentries' e' he')) hjoin
      exact ⟨rfl, rfl⟩

theorem jsonArray_eq_iff {parts parts' : List (List Char)} (h : ∀ part ∈ parts, Text part)
    (h' : ∀ part ∈ parts', Text part) : jsonArray parts = jsonArray parts' ↔ parts = parts' := by
  refine ⟨?_, fun heq => heq ▸ rfl⟩
  intro heq
  have hjoin : commaJoin parts ++ ']' :: [] = commaJoin parts' ++ ']' :: [] := by
    simpa [jsonArray] using heq
  exact (commaJoin_told (fun part hpart part' hpart' => (h part hpart).told (h' part' hpart'))
    (fun part hpart => (h part hpart).not_delimited)
    (fun part hpart => (h' part hpart).not_delimited) (.inl rfl) hjoin).1

theorem jsonObject_eq_iff {entries entries' : List (List Char × List Char)}
    (h : ∀ e ∈ entries, Text e.2) (h' : ∀ e ∈ entries', Text e.2) :
    jsonObject (entries.map fun e => (jsonString e.1, e.2)) =
        jsonObject (entries'.map fun e => (jsonString e.1, e.2)) ↔ entries = entries' := by
  refine ⟨?_, fun heq => heq ▸ rfl⟩
  intro heq
  have hjoin : commaJoin (entries.map fun e => jsonString e.1 ++ ':' :: e.2) ++ '}' :: [] =
      commaJoin (entries'.map fun e => jsonString e.1 ++ ':' :: e.2) ++ '}' :: [] := by
    simpa [jsonObject, Function.comp_def] using heq
  exact (entries_told (fun e he e' he' => (h e he).told (h' e' he')) hjoin).1

end Noeta.Json
