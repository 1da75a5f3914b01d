import Noeta.Json.Text
import Noeta.Lib.ParseInt
import Mathlib.Algebra.Group.Int.Defs
import Mathlib.Algebra.Group.Nat.Defs

/-!
# The serializer

`NativeValue` and `json_text::stringify` of `noeta-ext-abi`: the tree both backends marshal a value
into, and the one walk that writes it. An integer is the number its word is read as; a float is
written by the standard library's formatter, of which only the characters matter here.
-/

namespace Noeta.Json

/-- The float types and `format_float`, `format_f32`: words of digits, signs and letters. -/
structure FloatFormat where
  F64 : Type
  F32 : Type
  formatFloat : F64 → List Char
  formatF32 : F32 → List Char
  formatFloat_bare : ∀ f, formatFloat f ≠ [] ∧ ∀ c ∈ formatFloat f, isBare c = true
  formatF32_bare : ∀ f, formatF32 f ≠ [] ∧ ∀ c ∈ formatF32 f, isBare c = true

inductive NativeValue (fl : FloatFormat) where
  | int (n : Int)
  | bool (b : Bool)
  | float (f : fl.F64)
  | f32 (f : fl.F32)
  | str (s : List Char)
  | unit
  | list (items : List (NativeValue fl))
  | map (entries : List (List Char × NativeValue fl))
  /-- An extern-type value, by its display form. -/
  | externValue (display : List Char)
  | variant (enumName variant : List Char) (variantIndex : Nat) (fields : List (NativeValue fl))
  /-- `Instance`: a native class instance, its fields in declared order. -/
  | inst (fields : List (List Char × NativeValue fl))
  | bytes (bytes : List UInt8)

def boolText (b : Bool) : List Char := if b then "true".toList else "false".toList

variable {fl : FloatFormat}

mutual

def stringify : NativeValue fl → List Char
  | .int n => intText n
  | .bool b => boolText b
  | .float f => fl.formatFloat f
  | .f32 f => fl.formatF32 f
  | .str s => jsonString s
  | .unit => "null".toList
  | .list items => jsonArray (stringifyAll items)
  | .map entries => jsonObject (stringifyEntries entries)
  | .externValue display => jsonString display
  | .variant _ variant _ fields =>
    if fields.isEmpty then jsonString variant
    else jsonObject [(jsonString variant, jsonArray (stringifyAll fields))]
  | .inst fields => jsonObject (stringifyEntries fields)
  | .bytes bytes => jsonArray (bytes.map fun b => Nat.toDigits 10 b.toNat)

def stringifyAll : List (NativeValue fl) → List (List Char)
  | [] => []
  | item :: items => stringify item :: stringifyAll items

def stringifyEntries : List (List Char × NativeValue fl) → List (List Char × List Char)
  | [] => []
  | (key, value) :: entries => (jsonString key, stringify value) :: stringifyEntries entries

end

theorem stringifyAll_eq (items : List (NativeValue fl)) :
    stringifyAll items = items.map stringify := by
  induction items with
  | nil => rfl
  | cons item items ih => rw [stringifyAll, List.map_cons, ih]

theorem stringifyEntries_eq (entries : List (List Char × NativeValue fl)) :
    stringifyEntries entries = entries.map fun e => (jsonString e.1, stringify e.2) := by
  induction entries with
  | nil => rfl
  | cons e entries ih =>
    obtain ⟨key, value⟩ := e
    rw [stringifyEntries, List.map_cons, ih]

/-! ### What is written is a text -/

theorem digit_bare {n : Nat} {c : Char} (h : c ∈ Nat.toDigits 10 n) : isBare c = true := by
  have hdigit : c.isDigit = true := Nat.isDigit_of_mem_toDigits (by omega) (by omega) h
  unfold isBare
  simp only [Bool.and_eq_true, bne_iff_ne, ne_eq]
  refine ⟨⟨⟨⟨⟨⟨?_, ?_⟩, ?_⟩, ?_⟩, ?_⟩, ?_⟩, ?_⟩ <;> rintro rfl <;> exact absurd hdigit (by decide)

theorem text_toDigits (n : Nat) : Text (Nat.toDigits 10 n) :=
  .bare Nat.toDigits_ne_nil fun _ hc => digit_bare hc

theorem text_intText (n : Int) : Text (intText n) := by
  unfold intText
  split
  · refine .bare (List.cons_ne_nil _ _) ?_
    intro c hc
    obtain rfl | hc := List.mem_cons.1 hc
    · decide
    · exact digit_bare hc
  · exact text_toDigits _

theorem text_boolText (b : Bool) : Text (boolText b) := by
  refine .bare ?_ ?_ <;> cases b <;> simp [boolText, isBare]

theorem text_null : Text "null".toList := by
  refine .bare ?_ ?_ <;> simp [isBare]

theorem text_payload (variant : List Char) {parts : List (List Char)}
    (h : ∀ part ∈ parts, Text part) : Text (jsonObject [(jsonString variant, jsonArray parts)]) := by
  have hobject : Text (jsonObject
      ([(variant, jsonArray parts)].map fun e : List Char × List Char => (jsonString e.1, e.2))) := by
    refine .object ?_
    intro e he
    rw [List.mem_singleton] at he
    rw [he]
    exact .array h
  exact hobject

theorem text_stringifyEntries {entries : List (List Char × NativeValue fl)}
    (h : ∀ e ∈ entries, Text (stringify e.2)) : Text (jsonObject (stringifyEntries entries)) := by
  have hentries : stringifyEntries entries =
      (entries.map fun e => (e.1, stringify e.2)).map fun e => (jsonString e.1, e.2) := by
    rw [stringifyEntries_eq, List.map_map]
    rfl
  rw [hentries]
  refine .object ?_
  intro e he
  obtain ⟨e, hmem, rfl⟩ := List.mem_map.1 he
  exact h e hmem

mutual

theorem text_stringify : ∀ value : NativeValue fl, Text (stringify value)
  | .int n => text_intText n
  | .bool b => text_boolText b
  | .float f => .bare (fl.formatFloat_bare f).1 (fl.formatFloat_bare f).2
  | .f32 f => .bare (fl.formatF32_bare f).1 (fl.formatF32_bare f).2
  | .str s => .string s
  | .unit => text_null
  | .list items => .array (text_stringifyAll items)
  | .map entries => text_stringifyEntries (text_values entries)
  | .externValue display => .string display
  | .variant _ variant _ fields => by
    rw [stringify]
    split
    · exact .string variant
    · exact text_payload variant (text_stringifyAll fields)
  | .inst fields => text_stringifyEntries (text_values fields)
  | .bytes bytes => by
    refine .array ?_
    intro part hpart
    obtain ⟨b, -, rfl⟩ := List.mem_map.1 hpart
    exact text_toDigits _

theorem text_stringifyAll :
    ∀ items : List (NativeValue fl), ∀ part ∈ stringifyAll items, Text part
  | [] => fun part h => absurd h List.not_mem_nil
  | item :: items => fun part h => by
    obtain rfl | h := List.mem_cons.1 h
    · exact text_stringify item
    · exact text_stringifyAll items part h

theorem text_values : ∀ entries : List (List Char × NativeValue fl),
    ∀ e ∈ entries, Text (stringify e.2)
  | [] => fun e h => absurd h List.not_mem_nil
  | (key, value) :: entries => fun e h => by
    obtain rfl | h := List.mem_cons.1 h
    · exact text_stringify value
    · exact text_values entries e h

end

/-- **No text breaks out of its place**: whatever strings they hold, two lists are written alike only when their items are,
and two maps only when they have the same keys, in order, with values that are written alike. -/
theorem stringify_members_iff (items items' : List (NativeValue fl)) (entries entries' : List (List Char × NativeValue fl)) :
    (stringify (.list items) = stringify (.list items') ↔ items.map stringify = items'.map stringify) ∧
      (stringify (.map entries) = stringify (.map entries') ↔
        entries.map (fun e => (e.1, stringify e.2)) = entries'.map fun e => (e.1, stringify e.2)) := by
  have hmap : ∀ es : List (List Char × NativeValue fl), stringify (.map es) =
      jsonObject ((es.map fun e => (e.1, stringify e.2)).map fun e => (jsonString e.1, e.2)) := by
    intro es
    rw [stringify, stringifyEntries_eq, List.map_map]
    rfl
  have htext : ∀ es : List (List Char × NativeValue fl), ∀ e ∈ es.map fun e => (e.1, stringify e.2), Text e.2 := by
    intro es e he
    obtain ⟨e, -, rfl⟩ := List.mem_map.1 he
    exact text_stringify e.2
  constructor
  · rw [stringify, stringify, ← stringifyAll_eq, ← stringifyAll_eq]
    exact jsonArray_eq_iff (text_stringifyAll items) (text_stringifyAll items')
  · rw [hmap, hmap]
    exact jsonObject_eq_iff (htext entries) (htext entries')

end Noeta.Json
