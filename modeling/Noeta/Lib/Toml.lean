import Mathlib.Algebra.Group.Nat.Defs
import Mathlib.Data.List.Basic
import Mathlib.Data.List.TakeWhile
import Mathlib.Tactic.Common

/-!
# A line-oriented fragment of TOML

Comments, headers of tables and of arrays of tables, and entries whose value is a basic string or a
decimal integer. A basic string holds no control character but the tab, and an integer fits in 64 signed
bits; text that breaks either rule is not a document. Printing quotes a string by escaping the quote and
the backslash only, and the law of the module says when what is printed reads back.
-/

namespace Noeta.Lib.Toml

inductive Value where
  | str (s : String)
  | int (n : Nat)
deriving DecidableEq, Repr

inductive Statement where
  | blank
  | comment (text : String)
  | table (key : String)
  | arrayTable (key : String)
  | entry (key : String) (value : Value)
deriving DecidableEq, Repr

/-! ## Printing -/

def escape (cs : List Char) : List Char :=
  cs.flatMap fun c => if c = '\\' then ['\\', '\\'] else if c = '"' then ['\\', '"'] else [c]

def Value.print : Value → List Char
  | .str s => '"' :: (escape s.toList ++ ['"'])
  | .int n => Nat.toDigits 10 n

def Statement.print : Statement → List Char
  | .blank => ['\n']
  | .comment text => '#' :: (text.toList ++ ['\n'])
  | .table key => '[' :: (key.toList ++ [']', '\n'])
  | .arrayTable key => '[' :: '[' :: (key.toList ++ [']', ']', '\n'])
  | .entry key value => key.toList ++ ' ' :: '=' :: ' ' :: (value.print ++ ['\n'])

/-! ## Reading -/

def isControl (c : Char) : Bool := c ≠ '\t' && c.toNat < 0x20 || c.toNat = 0x7f

def isBare (c : Char) : Bool := c.isAlphanum || c = '_' || c = '-'

/-- A basic string, after its opening quote. -/
def basicString : List Char → Option (List Char × List Char)
  | [] => none
  | '"' :: rest => some ([], rest)
  | '\\' :: '\\' :: rest => (basicString rest).map fun r => ('\\' :: r.1, r.2)
  | '\\' :: '"' :: rest => (basicString rest).map fun r => ('"' :: r.1, r.2)
  | '\\' :: _ => none
  | c :: rest =>
    if isControl c then none else (basicString rest).map fun r => (c :: r.1, r.2)

def integer (cs : List Char) : Option (Nat × List Char) :=
  let digits := cs.takeWhile Char.isDigit
  let n := Nat.ofDigitChars 10 digits 0
  if digits = [] ∨ 2 ^ 63 ≤ n then none else some (n, cs.dropWhile Char.isDigit)

def value : List Char → Option (Value × List Char)
  | '"' :: rest => (basicString rest).map fun r => (.str (String.ofList r.1), r.2)
  | cs => (integer cs).map fun r => (.int r.1, r.2)

def key (cs : List Char) : Option (String × List Char) :=
  if cs.takeWhile isBare = [] then none
  else some (String.ofList (cs.takeWhile isBare), cs.dropWhile isBare)

def comment (cs : List Char) : Option (Statement × List Char) :=
  let text := cs.takeWhile (· ≠ '\n')
  if text.any isControl then none
  else
    match cs.dropWhile (· ≠ '\n') with
    | [] => none
    | _ :: rest => some (.comment (String.ofList text), rest)

def entry (cs : List Char) : Option (Statement × List Char) :=
  match key cs with
  | some (k, ' ' :: '=' :: ' ' :: rest) =>
    match value rest with
    | some (v, '\n' :: rest) => some (.entry k v, rest)
    | _ => none
  | _ => none

def statement : List Char → Option (Statement × List Char)
  | '\n' :: rest => some (.blank, rest)
  | '#' :: rest => comment rest
  | '[' :: '[' :: rest =>
    match key rest with
    | some (k, ']' :: ']' :: '\n' :: rest) => some (.arrayTable k, rest)
    | _ => none
  | '[' :: rest =>
    match key rest with
    | some (k, ']' :: '\n' :: rest) => some (.table k, rest)
    | _ => none
  | cs => entry cs

/-- The statements of a text; the fuel is its length. -/
def statements : Nat → List Char → Option (List Statement)
  | _, [] => some []
  | 0, _ :: _ => none
  | fuel + 1, cs => do
    let (s, rest) ← statement cs
    let ss ← statements fuel rest
    return s :: ss

/-! ## Documents -/

abbrev Entries := List (String × Value)

structure Section where
  isArray : Bool
  name : String
  entries : Entries
deriving DecidableEq, Repr

structure Document where
  root : Entries
  sections : List Section
deriving DecidableEq, Repr

/-- Entries belong to the header they follow. -/
def document : List Statement → Document
  | [] => ⟨[], []⟩
  | .blank :: ss | .comment _ :: ss => document ss
  | .entry k v :: ss => { document ss with root := (k, v) :: (document ss).root }
  | .table k :: ss => ⟨[], ⟨false, k, (document ss).root⟩ :: (document ss).sections⟩
  | .arrayTable k :: ss => ⟨[], ⟨true, k, (document ss).root⟩ :: (document ss).sections⟩

namespace Document

def tableNames (d : Document) : List String :=
  (d.sections.filter (!·.isArray)).map (·.name)

def arrayNames (d : Document) : List String :=
  (d.sections.filter (·.isArray)).map (·.name)

/-- No key or table is defined twice. -/
def Unambiguous (d : Document) : Prop :=
  (d.root.map Prod.fst).Nodup ∧ (∀ s ∈ d.sections, (s.entries.map Prod.fst).Nodup) ∧
    d.tableNames.Nodup ∧ (∀ k ∈ d.tableNames, k ∉ d.arrayNames ∧ k ∉ d.root.map Prod.fst) ∧
    ∀ k ∈ d.arrayNames, k ∉ d.root.map Prod.fst

instance (d : Document) : Decidable d.Unambiguous := inferInstanceAs (Decidable (_ ∧ _))

/-- The tables of the array `name`, in order. -/
def array (d : Document) (name : String) : List Entries :=
  (d.sections.filter fun s => s.isArray && s.name = name).map (·.entries)

def table (d : Document) (name : String) : Option Entries :=
  (d.sections.find? fun s => !s.isArray && s.name = name).map (·.entries)

end Document

def parse (text : List Char) : Option Document := do
  let ss ← statements text.length text
  if (document ss).Unambiguous then some (document ss) else none

/-- The string stored under a key. -/
def getStr (entries : Entries) (k : String) : Option String :=
  match entries.lookup k with
  | some (.str s) => some s
  | _ => none

def getInt (entries : Entries) (k : String) : Option Nat :=
  match entries.lookup k with
  | some (.int n) => some n
  | _ => none

/-! ## What is printed reads back -/

theorem escape_cons (c : Char) (cs : List Char) :
    escape (c :: cs) =
      (if c = '\\' then ['\\', '\\'] else if c = '"' then ['\\', '"'] else [c]) ++ escape cs := rfl

theorem basicString_cons {c : Char} (hquote : c ≠ '"') (hslash : c ≠ '\\') (rest : List Char) :
    basicString (c :: rest) =
      if isControl c then none else (basicString rest).map fun r => (c :: r.1, r.2) := by
  rw [basicString.eq_def]
  split <;> simp_all

theorem basicString_escape {cs : List Char} (h : ∀ c ∈ cs, isControl c = false)
    (rest : List Char) : basicString (escape cs ++ '"' :: rest) = some (cs, rest) := by
  induction cs with
  | nil => rfl
  | cons c cs ih =>
    have htail := ih fun x hx => h x (List.mem_cons_of_mem c hx)
    rw [escape_cons, List.append_assoc]
    by_cases hslash : c = '\\'
    · rw [if_pos hslash]
      simp [basicString, htail, hslash]
    · by_cases hquote : c = '"'
      · rw [if_neg hslash, if_pos hquote]
        simp [basicString, htail, hquote]
      · rw [if_neg hslash, if_neg hquote, List.singleton_append, basicString_cons hquote hslash,
          h c List.mem_cons_self, htail]
        rfl

theorem basicString_escape_eq_none {cs : List Char} (h : ∃ c ∈ cs, isControl c = true)
    (rest : List Char) : basicString (escape cs ++ rest) = none := by
  induction cs with
  | nil => simp at h
  | cons c cs ih =>
    rw [escape_cons, List.append_assoc]
    by_cases hslash : c = '\\'
    · have htail := ih (by simpa [hslash, show isControl '\\' = false from by decide] using h)
      rw [if_pos hslash]
      simp [basicString, htail]
    · by_cases hquote : c = '"'
      · have htail := ih (by simpa [hquote, show isControl '"' = false from by decide] using h)
        rw [if_neg hslash, if_pos hquote]
        simp [basicString, htail]
      · rw [if_neg hslash, if_neg hquote, List.singleton_append, basicString_cons hquote hslash]
        by_cases hc : isControl c = true
        · rw [if_pos hc]
        · rw [if_neg hc, ih (by simpa [hc] using h)]
          rfl

theorem takeWhile_append_stop {p : Char → Bool} {cs : List Char} {c : Char} (rest : List Char)
    (h : ∀ x ∈ cs, p x = true) (hc : p c = false) :
    (cs ++ c :: rest).takeWhile p = cs ∧ (cs ++ c :: rest).dropWhile p = c :: rest := by
  rw [List.takeWhile_append_of_pos h, List.dropWhile_append_of_pos h]
  simp [hc]

theorem integer_print {n : Nat} {c : Char} (hc : c.isDigit = false) (rest : List Char) :
    integer (Nat.toDigits 10 n ++ c :: rest) = if n < 2 ^ 63 then some (n, c :: rest) else none := by
  have hdigits : ∀ x ∈ Nat.toDigits 10 n, x.isDigit = true := fun x hx =>
    Nat.isDigit_of_mem_toDigits (by omega) (by omega) hx
  obtain ⟨htake, hdrop⟩ := takeWhile_append_stop rest hdigits hc
  simp only [integer, htake, hdrop, Nat.ofDigitChars_ten_toDigits, Nat.toDigits_ne_nil, false_or]
  by_cases hn : n < 2 ^ 63
  · rw [if_neg (by omega), if_pos hn]
  · rw [if_pos (by omega), if_neg hn]

/-- A value that reads back: no control character, and no integer above 63 bits. -/
def Value.Readable : Value → Prop
  | .str s => ∀ c ∈ s.toList, isControl c = false
  | .int n => n < 2 ^ 63

instance : DecidablePred Value.Readable
  | .str s => List.decidableBAll (isControl · = false) s.toList
  | .int n => inferInstanceAs (Decidable (n < 2 ^ 63))

theorem toDigits_head_ne_quote (n : Nat) (rest : List Char) :
    ∀ cs, Nat.toDigits 10 n ++ rest ≠ '"' :: cs := by
  intro cs h
  cases hd : Nat.toDigits 10 n with
  | nil => exact Nat.toDigits_ne_nil hd
  | cons d ds =>
    have hdigit : d.isDigit = true :=
      Nat.isDigit_of_mem_toDigits (b := 10) (by omega) (by omega) (hd ▸ List.mem_cons_self)
    rw [hd, List.cons_append, List.cons.injEq] at h
    rw [h.1] at hdigit
    exact absurd hdigit (by decide)

theorem value_print (v : Value) (rest : List Char) :
    value (v.print ++ '\n' :: rest) = if v.Readable then some (v, '\n' :: rest) else none := by
  cases v with
  | str s =>
    rw [Value.print, List.cons_append, List.append_assoc, List.singleton_append, value]
    by_cases h : (Value.str s).Readable
    · rw [basicString_escape h, if_pos h, Option.map_some, String.ofList_toList]
    · rw [basicString_escape_eq_none (by simpa [Value.Readable] using h), if_neg h]
      rfl
  | int n =>
    rw [Value.print, value.eq_2 _ (toDigits_head_ne_quote n _), integer_print (by decide)]
    by_cases h : n < 2 ^ 63
    · rw [if_pos h, if_pos (show (Value.int n).Readable from h)]
      rfl
    · rw [if_neg h, if_neg (show ¬ (Value.int n).Readable from h)]
      rfl

/-- A key that needs no quotes. -/
def BareKey (k : String) : Prop := k.toList ≠ [] ∧ ∀ c ∈ k.toList, isBare c = true

instance (k : String) : Decidable (BareKey k) :=
  @instDecidableAnd _ _ inferInstance (List.decidableBAll (isBare · = true) k.toList)

/-- A statement whose own words are fit to print; its value need not be. -/
def Statement.Plain : Statement → Prop
  | .blank => True
  | .comment text => ∀ c ∈ text.toList, isControl c = false
  | .table k | .arrayTable k | .entry k _ => BareKey k

instance : DecidablePred Statement.Plain
  | .blank => inferInstanceAs (Decidable True)
  | .comment text => List.decidableBAll (isControl · = false) text.toList
  | .table k | .arrayTable k | .entry k _ => inferInstanceAs (Decidable (BareKey k))

def Statement.Readable : Statement → Prop
  | .entry _ v => v.Readable
  | _ => True

instance : DecidablePred Statement.Readable
  | .entry _ v => inferInstanceAs (Decidable v.Readable)
  | .blank | .comment _ | .table _ | .arrayTable _ => inferInstanceAs (Decidable True)

theorem key_print {k : String} (hk : BareKey k) {c : Char} (hc : isBare c = false)
    (rest : List Char) : key (k.toList ++ c :: rest) = some (k, c :: rest) := by
  obtain ⟨htake, hdrop⟩ := takeWhile_append_stop rest hk.2 hc
  rw [key, htake, hdrop, if_neg hk.1, String.ofList_toList]

theorem comment_print {text : String} (h : ∀ c ∈ text.toList, isControl c = false)
    (rest : List Char) :
    comment (text.toList ++ '\n' :: rest) = some (.comment text, rest) := by
  have hline : ∀ c ∈ text.toList, (decide (c ≠ '\n')) = true := by
    intro c hc
    rw [decide_eq_true_iff]
    intro heq
    have := h c hc
    rw [heq] at this
    exact absurd this (by decide)
  obtain ⟨htake, hdrop⟩ := takeWhile_append_stop rest hline (c := '\n') (by decide)
  have hany : text.toList.any isControl = false := by
    rw [List.any_eq_false]
    intro c hc
    rw [h c hc]
    decide
  rw [comment, htake, hdrop, hany, String.ofList_toList]
  rfl

theorem entry_print {k : String} (hk : BareKey k) (v : Value) (rest : List Char) :
    entry (k.toList ++ ' ' :: '=' :: ' ' :: (v.print ++ '\n' :: rest)) =
      if v.Readable then some (.entry k v, rest) else none := by
  rw [entry, key_print hk (by decide)]
  simp only [value_print]
  by_cases h : v.Readable
  · rw [if_pos h, if_pos h]
    rfl
  · rw [if_neg h, if_neg h]

theorem statement_of_bareKey {k : String} (hk : BareKey k) (rest : List Char) :
    statement (k.toList ++ rest) = entry (k.toList ++ rest) := by
  obtain ⟨hne, hbare⟩ := hk
  cases hcs : k.toList with
  | nil => exact absurd hcs hne
  | cons c cs =>
    have hc : isBare c = true := hbare c (hcs ▸ List.mem_cons_self)
    rw [List.cons_append, statement.eq_def]
    split
    · simp_all [show isBare '\n' = false from by decide]
    · simp_all [show isBare '#' = false from by decide]
    · simp_all [show isBare '[' = false from by decide]
    · simp_all [show isBare '[' = false from by decide]
    · rfl

theorem statement_print {s : Statement} (hs : s.Plain) (rest : List Char) :
    statement (s.print ++ rest) = if s.Readable then some (s, rest) else none := by
  cases s with
  | blank => rfl
  | comment text =>
    rw [Statement.print, List.cons_append, List.append_assoc, List.singleton_append]
    exact comment_print hs rest
  | table k =>
    have hhead : ∀ cs, k.toList ++ ']' :: '\n' :: rest ≠ '[' :: cs := by
      intro cs h
      cases hk : k.toList with
      | nil => exact hs.1 hk
      | cons c _ =>
        have hc : isBare c = true := hs.2 c (hk ▸ List.mem_cons_self)
        rw [hk, List.cons_append, List.cons.injEq] at h
        rw [h.1] at hc
        exact absurd hc (by decide)
    rw [Statement.print, List.cons_append, List.append_assoc]
    simp only [List.cons_append, List.nil_append]
    rw [statement.eq_4 _ hhead, key_print hs (by decide)]
    rfl
  | arrayTable k =>
    rw [Statement.print, List.cons_append, List.cons_append, List.append_assoc]
    simp only [List.cons_append, List.nil_append]
    rw [statement, key_print hs (by decide)]
    rfl
  | entry k v =>
    rw [Statement.print, List.append_assoc, statement_of_bareKey hs]
    simp only [List.cons_append, List.append_assoc, List.nil_append]
    exact entry_print hs v rest

theorem print_ne_nil (s : Statement) : s.print ≠ [] := by
  cases s <;> simp [Statement.print]

theorem statements_print {ss : List Statement} (hss : ∀ s ∈ ss, s.Plain) {fuel : Nat}
    (hfuel : (ss.flatMap Statement.print).length ≤ fuel) :
    statements fuel (ss.flatMap Statement.print) =
      if ∀ s ∈ ss, s.Readable then some ss else none := by
  induction ss generalizing fuel with
  | nil =>
    rw [List.flatMap_nil, statements]
    simp
  | cons s ss ih =>
    have hpos : 0 < s.print.length := List.length_pos_iff.mpr (print_ne_nil s)
    rw [List.flatMap_cons, List.length_append] at hfuel
    obtain ⟨fuel, rfl⟩ : ∃ f, fuel = f + 1 := ⟨fuel - 1, by omega⟩
    have hne : s.print ++ ss.flatMap Statement.print ≠ [] := by
      simp [print_ne_nil s]
    rw [List.flatMap_cons, statements.eq_3 _ _ hne, statement_print (hss s List.mem_cons_self)]
    have htail := ih (fun x hx => hss x (List.mem_cons_of_mem s hx))
      (show (ss.flatMap Statement.print).length ≤ fuel by omega)
    by_cases hs : s.Readable
    · rw [if_pos hs]
      simp only [Option.bind_eq_bind, Option.bind_some, htail, List.forall_mem_cons, hs, true_and]
      split <;> rfl
    · rw [if_neg hs, if_neg (by simp [hs])]
      rfl

theorem parse_print {ss : List Statement} (hss : ∀ s ∈ ss, s.Plain)
    (hdoc : (document ss).Unambiguous) :
    parse (ss.flatMap Statement.print) =
      if ∀ s ∈ ss, s.Readable then some (document ss) else none := by
  rw [parse, statements_print hss le_rfl]
  split
  · simp [hdoc]
  · rfl

/-! ## Documents by sections -/

def entriesOf (es : Entries) : List Statement := es.map fun e => .entry e.1 e.2

/-- A section after a blank line. -/
def Section.statements (s : Section) : List Statement :=
  .blank :: (if s.isArray then .arrayTable s.name else .table s.name) :: entriesOf s.entries

theorem document_entries (es : Entries) (ss : List Statement) :
    document (entriesOf es ++ ss) =
      { document ss with root := es ++ (document ss).root } := by
  induction es with
  | nil => rfl
  | cons e es ih => simp only [entriesOf, List.map_cons, List.cons_append, document] at ih ⊢; rw [ih]

theorem document_sections (sections : List Section) :
    document (sections.flatMap Section.statements) = ⟨[], sections⟩ := by
  induction sections with
  | nil => rfl
  | cons s sections ih =>
    obtain ⟨isArray, name, entries⟩ := s
    cases isArray <;>
      simp [List.flatMap_cons, Section.statements, document, document_entries, ih]

/-- Every key and header is a bare key. -/
def Document.Plain (d : Document) : Prop :=
  (∀ e ∈ d.root, BareKey e.1) ∧
    ∀ s ∈ d.sections, BareKey s.name ∧ ∀ e ∈ s.entries, BareKey e.1

def Document.Readable (d : Document) : Prop :=
  (∀ e ∈ d.root, e.2.Readable) ∧ ∀ s ∈ d.sections, ∀ e ∈ s.entries, e.2.Readable

instance (d : Document) : Decidable d.Readable := inferInstanceAs (Decidable (_ ∧ _))

/-- The statements of a document under a comment line. -/
def Document.statements (remark : String) (d : Document) : List Statement :=
  .comment remark :: (entriesOf d.root ++ d.sections.flatMap Section.statements)

theorem document_statements (remark : String) (d : Document) :
    document (d.statements remark) = d := by
  rw [Document.statements, document, document_entries, document_sections, List.append_nil]

theorem plain_statements {remark : String} (hremark : ∀ c ∈ remark.toList, isControl c = false)
    {d : Document} (hd : d.Plain) : ∀ s ∈ d.statements remark, s.Plain := by
  intro s hs
  simp only [Document.statements, entriesOf, Section.statements, List.mem_cons, List.mem_append,
    List.mem_map, List.mem_flatMap] at hs
  obtain rfl | ⟨e, he, rfl⟩ | ⟨t, ht, rfl | rfl | ⟨e, he, rfl⟩⟩ := hs
  · exact hremark
  · exact hd.1 e he
  · trivial
  · cases hArray : t.isArray
    · exact (hd.2 t ht).1
    · exact (hd.2 t ht).1
  · exact (hd.2 t ht).2 e he

theorem readable_statements_iff (remark : String) (d : Document) :
    (∀ s ∈ d.statements remark, s.Readable) ↔ d.Readable := by
  simp only [Document.statements, entriesOf, Section.statements, List.mem_cons, List.mem_append,
    List.mem_map, List.mem_flatMap]
  constructor
  · intro h
    refine ⟨?_, ?_⟩
    · intro e he
      exact h _ (.inr (.inl ⟨e, he, rfl⟩))
    · intro t ht e he
      exact h _ (.inr (.inr ⟨t, ht, .inr (.inr ⟨e, he, rfl⟩)⟩))
  · intro h s hs
    obtain rfl | ⟨e, he, rfl⟩ | ⟨t, ht, rfl | rfl | ⟨e, he, rfl⟩⟩ := hs
    · trivial
    · exact h.1 e he
    · trivial
    · cases t.isArray <;> trivial
    · exact h.2 t ht e he

theorem parse_document {remark : String} (hremark : ∀ c ∈ remark.toList, isControl c = false)
    {d : Document} (hplain : d.Plain) (hd : d.Unambiguous) :
    parse ((d.statements remark).flatMap Statement.print) = if d.Readable then some d else none := by
  rw [parse_print (plain_statements hremark hplain) (by rwa [document_statements]),
    document_statements]
  simp only [readable_statements_iff]

end Noeta.Lib.Toml
