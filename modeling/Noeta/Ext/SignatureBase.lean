import Noeta.Ext.Signature
import Noeta.Ext.Form
import Noeta.Lib.Slices
import Noeta.Lib.Terminated
import Mathlib.Data.List.Basic

/-!
# What a signature covers

Parameters that were read from a header are written in one way only, and so are the lines of the text
that is signed, as long as no line feed stands in a header value or in the URL.
-/

namespace Noeta.Ext

open Noeta.Lib
open Noeta.Lib.Rfc3986 (Text upTo beyond)

/-! ### Characters -/

theorem isLower_toUpper (c : Char) : c.toUpper.isLower = false := by
  unfold Char.isLower Char.toUpper
  split <;> grind [UInt32.toNat_add]

variable {c : Char} {t url : Text} {α : Type} {p : SignatureParams} {request : NetRequest}

theorem toLower_eq_self (h : c.isUpper = false) : c.toLower = c := by
  unfold Char.isUpper at h
  unfold Char.toLower
  grind

theorem toAsciiLowercase_eq_self (h : ∀ c ∈ t, c.isUpper = false) : toAsciiLowercase t = t := by
  rw [toAsciiLowercase]
  exact (List.map_congr_left (g := id) fun c hc => toLower_eq_self (h c hc)).trans (List.map_id t)

theorem mem_of_mem_trimQuotes (h : c ∈ trimQuotes t) : c ∈ t := by
  rw [trimQuotes, List.mem_reverse] at h
  have hinner := List.mem_reverse.1 ((List.dropWhile_sublist _).subset h)
  exact (List.dropWhile_sublist _).subset hinner

theorem mem_of_mem_splitOnP {p : α → Bool} {t word : List α} {x : α}
    (h : word ∈ t.splitOnP p) (hx : x ∈ word) : x ∈ t := by
  induction t generalizing word with
  | nil =>
    rw [List.splitOnP_nil, List.mem_singleton] at h
    exact h ▸ hx
  | cons c t ih =>
    rw [List.splitOnP_cons_eq_if_modifyHead] at h
    split at h
    · rw [List.mem_cons] at h
      obtain rfl | h := h
      · cases hx
      · exact List.mem_cons_of_mem _ (ih h hx)
    · cases hsplit : t.splitOnP p with
      | nil => exact absurd hsplit (List.splitOnP_ne_nil _ _)
      | cons first rest =>
        rw [hsplit, List.modifyHead_cons, List.mem_cons] at h
        rw [hsplit] at ih
        obtain rfl | h := h
        · rw [List.mem_cons] at hx ⊢
          exact hx.imp_right (ih List.mem_cons_self)
        · exact List.mem_cons_of_mem _ (ih (List.mem_cons_of_mem _ h) hx)

theorem splitOnce_eq_some {sep : Char} {t before after : Text} (h : splitOnce sep t = some (before, after)) :
    t = before ++ sep :: after ∧ sep ∉ before := by
  have hjoin := @Rfc3986.upTo_append_beyond [sep] t
  unfold splitOnce at h
  cases hb : beyond [sep] t with
  | nil =>
    rw [hb] at h
    cases h
  | cons c rest =>
    rw [hb] at h hjoin
    cases h
    have hc := List.mem_singleton.1 (Rfc3986.mem_stops_of_beyond_cons hb)
    subst hc
    exact ⟨hjoin.symm, fun hmem => Rfc3986.not_mem_of_mem_upTo hmem (List.mem_singleton_self _)⟩

/-! ### The parameters as text -/

namespace SignatureParams

/-- No component has what ends one, or an uppercase letter, and no parameter what ends one. -/
structure Plain (p : SignatureParams) : Prop where
  component : ∀ c ∈ p.components, ' ' ∉ c ∧ '\n' ∉ c ∧ ')' ∉ c
  lower : ∀ c ∈ p.components, toAsciiLowercase c = c
  stated : ∀ s ∈ p.stated, ';' ∉ s.2

def listed (components : List Text) : Text := [' '].intercalate (components.map quoted)

def written (stated : List (Text × Text)) : Text := stated.flatMap fun s => ';' :: s.1 ++ '=' :: s.2

theorem toValue_eq (p : SignatureParams) :
    p.toValue = '(' :: listed p.components ++ ')' :: written p.stated := rfl

theorem not_mem_quoted {c : Char} (hc : c ≠ '"') {t : Text} (h : c ∉ t) : c ∉ quoted t := by
  rw [quoted, List.cons_append, List.mem_cons, List.mem_append, List.mem_singleton]
  rintro (rfl | hmem | rfl)
  · exact hc rfl
  · exact h hmem
  · exact hc rfl

theorem quoted_injective : Function.Injective quoted := by
  intro s t h
  rw [quoted, quoted, List.cons_append, List.cons_append, List.cons.injEq] at h
  exact List.append_cancel_right h.2

theorem mem_intercalate {c : Char} {sep : Text} {l : List Text} (h : c ∈ sep.intercalate l) :
    c ∈ sep ∨ ∃ t ∈ l, c ∈ t := by
  induction l with
  | nil => simp at h
  | cons t l ih =>
    cases l with
    | nil => exact .inr ⟨t, List.mem_cons_self, by simpa using h⟩
    | cons u l =>
      rw [List.intercalate_cons_cons, List.mem_append, List.mem_append] at h
      rcases h with (h | h) | h
      · exact .inr ⟨t, List.mem_cons_self, h⟩
      · exact .inl h
      · obtain hsep | ⟨v, hv, hcv⟩ := ih h
        · exact .inl hsep
        · exact .inr ⟨v, List.mem_cons_of_mem _ hv, hcv⟩

theorem not_mem_listed {components : List Text} (h : ∀ c ∈ components, ')' ∉ c) :
    ')' ∉ listed components := by
  intro hmem
  obtain hsep | ⟨t, ht, hmem⟩ := mem_intercalate hmem
  · exact absurd hsep (by decide)
  · obtain ⟨c, hc, rfl⟩ := List.mem_map.1 ht
    exact not_mem_quoted (by decide) (h c hc) hmem

theorem listed_injective {cs ds : List Text} (hcs : ∀ c ∈ cs, ' ' ∉ c) (hds : ∀ d ∈ ds, ' ' ∉ d)
    (h : listed cs = listed ds) : cs = ds := by
  have hsplit : ∀ ls : List Text, (∀ l ∈ ls, ' ' ∉ l) → ls ≠ [] →
      (listed ls).splitOn ' ' = ls.map quoted := by
    intro ls hls hne
    refine List.splitOn_intercalate ' ' (fun l hl => ?_) (by simpa using hne)
    obtain ⟨c, hc, rfl⟩ := List.mem_map.1 hl
    exact not_mem_quoted (by decide) (hls c hc)
  have hempty : ∀ ls : List Text, listed ls = [] → ls = [] := by
    intro ls hls
    cases ls with
    | nil => rfl
    | cons l ls =>
      cases ls with
      | nil => simp [listed, quoted] at hls
      | cons m ls => simp [listed, quoted, List.intercalate_cons_cons] at hls
  by_cases hne : cs = []
  · rw [hne] at h
    rw [hne, hempty ds h.symm]
  · have hne' : ds ≠ [] := fun hds => hne (hempty cs (by rw [h, hds]; rfl))
    have hquoted := (hsplit cs hcs hne).symm.trans ((congrArg _ h).trans (hsplit ds hds hne'))
    exact List.map_injective_iff.2 quoted_injective hquoted

theorem splitOn_written {stated : List (Text × Text)} (h : ∀ s ∈ stated, ';' ∉ s.1 ∧ ';' ∉ s.2) :
    (written stated).splitOn ';' = [] :: stated.map fun s => s.1 ++ '=' :: s.2 := by
  have hrest : ∀ l : List (Text × Text), (∀ s ∈ l, ';' ∉ s.1 ∧ ';' ∉ s.2) → ∀ piece : Text, ';' ∉ piece →
      (piece ++ written l).splitOn ';' = piece :: l.map fun s => s.1 ++ '=' :: s.2 := by
    intro l
    induction l with
    | nil =>
      intro _ piece hpiece
      rw [written, List.flatMap_nil, List.append_nil, List.splitOn_eq_singleton hpiece]
      rfl
    | cons s l ih =>
      intro hl piece hpiece
      obtain ⟨hname, hvalue⟩ := hl s List.mem_cons_self
      have hnext : ';' ∉ s.1 ++ '=' :: s.2 := by
        rw [List.mem_append, List.mem_cons]
        rintro (h | h | h)
        · exact hname h
        · exact absurd h (by decide)
        · exact hvalue h
      rw [written, List.flatMap_cons, ← written, List.cons_append, List.cons_append,
        List.splitOn_append_cons_self_of_not_mem hpiece,
        ih (fun t ht => hl t (List.mem_cons_of_mem _ ht)) _ hnext]
      rfl
  exact hrest stated h [] List.not_mem_nil

theorem stated_name (p : SignatureParams) : ∀ s ∈ p.stated, ';' ∉ s.1 ∧ '=' ∉ s.1 := by
  intro s hs
  simp only [SignatureParams.stated, List.mem_append, Option.mem_toList, Option.map_eq_some_iff] at hs
  rcases hs with ((((⟨_, -, rfl⟩ | ⟨_, -, rfl⟩) | ⟨_, -, rfl⟩) | ⟨_, -, rfl⟩) | ⟨_, -, rfl⟩) | ⟨_, -, rfl⟩ <;>
    simp

theorem written_injective {p q : SignatureParams} (hp : ∀ s ∈ p.stated, ';' ∉ s.2)
    (hq : ∀ s ∈ q.stated, ';' ∉ s.2) (h : written p.stated = written q.stated) :
    p.stated = q.stated := by
  have hsplit := congrArg (List.splitOn ';') h
  rw [splitOn_written fun s hs => ⟨(p.stated_name s hs).1, hp s hs⟩,
    splitOn_written fun s hs => ⟨(q.stated_name s hs).1, hq s hs⟩, List.cons.injEq] at hsplit
  have hread : ∀ r : SignatureParams,
      (r.stated.map fun s => s.1 ++ '=' :: s.2).map (splitOnce '=') = r.stated.map some := by
    intro r
    rw [List.map_map]
    refine List.map_congr_left fun s hs => ?_
    exact splitOnce_append (r.stated_name s hs).2 s.2
  have hsome := (hread p).symm.trans ((congrArg _ hsplit.2).trans (hread q))
  exact List.map_injective_iff.2 (fun _ _ => Option.some.inj) hsome

theorem lookup_written {α : Type} (field : Option α) (name key : Text) (write : α → Text) :
    ((field.map fun x => (name, write x)).toList).lookup key =
      if key = name then field.map write else none := by
  cases field with
  | none => simp
  | some x =>
    simp only [Option.map_some, Option.toList_some, List.lookup_cons, List.lookup_nil]
    by_cases hkey : key = name
    · simp [hkey]
    · rw [beq_false_of_ne hkey, if_neg hkey]

theorem stated_injective {p q : SignatureParams} (hcomponents : p.components = q.components)
    (h : p.stated = q.stated) : p = q := by
  have hlookup (key : Text) := congrArg (List.lookup key) h
  simp only [stated, List.lookup_append, lookup_written] at hlookup
  have hint := Option.map_injective (f := intText) fun _ _ => intText_injective
  have hquoted := Option.map_injective quoted_injective
  have hcreated := hint (by simpa using hlookup "created".toList)
  have hexpires := hint (by simpa using hlookup "expires".toList)
  have hkeyId := hquoted (by simpa using hlookup "keyid".toList)
  have halg := hquoted (by simpa using hlookup "alg".toList)
  have hnonce := hquoted (by simpa using hlookup "nonce".toList)
  have htag := hquoted (by simpa using hlookup "tag".toList)
  obtain ⟨_, _, _, _, _, _, _⟩ := p
  simp only at hcomponents hcreated hexpires hkeyId halg hnonce htag
  subst hcomponents hcreated hexpires hkeyId halg hnonce htag
  rfl

theorem toValue_injective {p q : SignatureParams} (hp : p.Plain) (hq : q.Plain)
    (h : p.toValue = q.toValue) : p = q := by
  rw [toValue_eq, toValue_eq, List.cons_append, List.cons_append, List.cons.injEq] at h
  have hsplit := congrArg (splitOnce ')') h.2
  rw [splitOnce_append (not_mem_listed fun c hc => (hp.component c hc).2.2),
    splitOnce_append (not_mem_listed fun c hc => (hq.component c hc).2.2), Option.some.injEq,
    Prod.mk.injEq] at hsplit
  have hcomponents := listed_injective (fun c hc => (hp.component c hc).1)
    (fun c hc => (hq.component c hc).1) hsplit.1
  exact stated_injective hcomponents (written_injective hp.stated hq.stated hsplit.2)

end SignatureParams

/-! ### Quotes at the ends -/

theorem ends_trimQuotes (t : Text) :
    (∀ c ∈ (trimQuotes t).head?, c ≠ '"') ∧ ∀ c ∈ (trimQuotes t).getLast?, c ≠ '"' := by
  constructor
  · intro c hc
    obtain ⟨tail, htail⟩ : trimQuotes t <+: t.dropWhile (· = '"') := by
      rw [trimQuotes, ← List.reverse_suffix, List.reverse_reverse]
      exact List.dropWhile_suffix _
    have hnot := List.head?_dropWhile_not (· = '"') t
    cases hu : trimQuotes t with
    | nil => simp [hu] at hc
    | cons d u =>
      rw [hu] at hc htail
      cases hc
      rw [← htail] at hnot
      simpa using hnot
  · intro c hc
    simpa using getLast?_trimmed (· = '"') hc

theorem trimQuotes_eq_self_iff : trimQuotes t = t ↔ (∀ c ∈ t.head?, c ≠ '"') ∧ ∀ c ∈ t.getLast?, c ≠ '"' := by
  constructor
  · intro h
    have hends := ends_trimQuotes t
    rwa [h] at hends
  · rintro ⟨hhead, hlast⟩
    exact trimmed_eq_self (· = '"') (by simpa using hhead) (by simpa using hlast)

theorem trimQuotes_trimQuotes (t : Text) : trimQuotes (trimQuotes t) = trimQuotes t :=
  trimQuotes_eq_self_iff.2 (ends_trimQuotes t)

theorem trimQuotes_toAsciiLowercase (t : Text) :
    trimQuotes (toAsciiLowercase (trimQuotes t)) = toAsciiLowercase (trimQuotes t) := by
  have hquote {c : Char} (hc : c ≠ '"') : c.toLower ≠ '"' := by
    intro heq
    rcases toLower_eq_self_or c with hself | hlower
    · exact hc (hself.symm.trans heq)
    · rw [heq] at hlower
      exact absurd hlower (by decide)
  obtain ⟨hhead, hlast⟩ := ends_trimQuotes t
  rw [trimQuotes_eq_self_iff, toAsciiLowercase, List.head?_map, List.getLast?_map]
  constructor
  · intro c hc
    obtain ⟨d, hd, rfl⟩ := Option.map_eq_some_iff.1 hc
    exact hquote (hhead d hd)
  · intro c hc
    obtain ⟨d, hd, rfl⟩ := Option.map_eq_some_iff.1 hc
    exact hquote (hlast d hd)

theorem not_whitespace_of_isLower (h : c.isLower = true) : isWhitespace c = false := by
  unfold Char.isLower at h
  rw [Bool.and_eq_true, decide_eq_true_iff, decide_eq_true_iff, ge_iff_le, UInt32.le_iff_toNat_le,
    UInt32.le_iff_toNat_le] at h
  change 97 ≤ c.toNat ∧ c.toNat ≤ 122 at h
  rw [isWhitespace, Bool.eq_false_iff]
  intro hspace
  simp only [Bool.or_eq_true, Bool.and_eq_true, decide_eq_true_eq] at hspace
  omega

/-! ### What a header can state -/

theorem toAsciiLowercase_idem (t : Text) : toAsciiLowercase (toAsciiLowercase t) = toAsciiLowercase t :=
  toAsciiLowercase_eq_self (toAsciiLowercase_lower t)

theorem readComponents_spec {inner : Text} {c : Text} (h : c ∈ readComponents inner) :
    c ≠ [] ∧ trimQuotes c = c ∧ (∀ ch ∈ c, isWhitespace ch = false) ∧ toAsciiLowercase c = c ∧
      ∀ ch, ch.isLower = false → ch ∈ c → ch ∈ inner := by
  rw [readComponents, List.mem_filter, List.mem_map] at h
  obtain ⟨⟨word, hword, rfl⟩, hne⟩ := h
  rw [splitWhitespace, List.mem_filter] at hword
  have hclear := not_mem_of_mem_splitOnP hword.1
  have hback {ch : Char} (hch : ch.isLower = false) (hmem : ch ∈ toAsciiLowercase (trimQuotes word)) :
      ch ∈ word := mem_of_mem_trimQuotes (mem_of_mem_lowercase hch hmem)
  refine ⟨by simpa using hne, trimQuotes_toAsciiLowercase word, fun ch hmem => ?_, toAsciiLowercase_idem _,
    fun ch hch hmem => mem_of_mem_splitOnP hword.1 (hback hch hmem)⟩
  cases hlower : ch.isLower with
  | false => exact hclear ch (hback hlower hmem)
  | true => exact not_whitespace_of_isLower hlower

namespace SignatureParams

/-- A text that ends where the quotes around it are, and before a semicolon. -/
def Enclosed (t : Text) : Prop := ';' ∉ t ∧ trimQuotes t = t

/-- The texts that are stated. -/
def texts (p : SignatureParams) : List Text :=
  p.keyId.toList ++ p.alg.toList ++ p.nonce.toList ++ p.tag.toList

variable {p : SignatureParams}

theorem stated_clear (h : ∀ t ∈ p.texts, Enclosed t) : ∀ s ∈ p.stated, ';' ∉ s.2 := by
  intro s hs
  have hint (n : Int) : ';' ∉ intText n := fun hmem => by
    rcases mem_intText hmem with hc | hc <;> exact absurd hc (by decide)
  have htext (t : Text) (ht : t ∈ p.texts) : ';' ∉ quoted t := not_mem_quoted (by decide) (h t ht).1
  simp only [texts, List.mem_append, Option.mem_toList] at htext
  simp only [stated, List.mem_append, Option.mem_toList, Option.map_eq_some_iff] at hs
  rcases hs with ((((⟨n, -, rfl⟩ | ⟨n, -, rfl⟩) | ⟨t, ht, rfl⟩) | ⟨t, ht, rfl⟩) | ⟨t, ht, rfl⟩) | ⟨t, ht, rfl⟩
  · exact hint n
  · exact hint n
  · exact htext t (.inl (.inl (.inl ht)))
  · exact htext t (.inl (.inl (.inr ht)))
  · exact htext t (.inl (.inr ht))
  · exact htext t (.inr ht)

theorem mem_texts {t : Text} :
    t ∈ p.texts ↔ p.keyId = some t ∨ p.alg = some t ∨ p.nonce = some t ∨ p.tag = some t := by
  simp only [texts, List.mem_append, Option.mem_toList, or_assoc]

theorem texts_readParameter {parameter : Text} (hp : ∀ t ∈ p.texts, Enclosed t)
    (hparameter : ';' ∉ parameter) :
    (readParameter p parameter).components = p.components ∧
      ∀ t ∈ (readParameter p parameter).texts, Enclosed t := by
  simp only [mem_texts] at hp ⊢
  unfold readParameter
  split
  · exact ⟨rfl, hp⟩
  · rename_i name raw hsplit
    have hraw : ';' ∉ trimQuotes (trim raw) := fun hmem =>
      by
      rw [(splitOnce_eq_some hsplit).1] at hparameter
      exact hparameter (List.mem_append_right _
        (List.mem_cons_of_mem _ (mem_of_mem_trim (mem_of_mem_trimQuotes hmem))))
    have hnew (t : Text) (h : some (trimQuotes (trim raw)) = some t) : Enclosed t :=
      Option.some.inj h ▸ ⟨hraw, trimQuotes_trimQuotes _⟩
    simp only
    split
    · exact ⟨rfl, hp⟩
    split
    · exact ⟨rfl, hp⟩
    split
    · exact ⟨rfl, fun t ht => ht.elim (hnew t) fun h => hp t (.inr h)⟩
    split
    · exact ⟨rfl, fun t ht => ht.elim (fun h => hp t (.inl h)) fun h =>
        h.elim (hnew t) fun h => hp t (.inr (.inr h))⟩
    split
    · exact ⟨rfl, fun t ht => ht.elim (fun h => hp t (.inl h)) fun h =>
        h.elim (fun h => hp t (.inr (.inl h))) fun h =>
          h.elim (hnew t) fun h => hp t (.inr (.inr (.inr h)))⟩
    split
    · exact ⟨rfl, fun t ht => ht.elim (fun h => hp t (.inl h)) fun h =>
        h.elim (fun h => hp t (.inr (.inl h))) fun h =>
          h.elim (fun h => hp t (.inr (.inr (.inl h)))) (hnew t)⟩
    · exact ⟨rfl, hp⟩

theorem readParams_spec (components : List Text) (rest : Text) :
    (readParams components rest).components = components ∧
      ∀ t ∈ (readParams components rest).texts, Enclosed t := by
  have hrun : ∀ pieces : List Text, (∀ piece ∈ pieces, ';' ∉ piece) → ∀ p : SignatureParams,
      (∀ t ∈ p.texts, Enclosed t) → (pieces.foldl readParameter p).components = p.components ∧
        ∀ t ∈ (pieces.foldl readParameter p).texts, Enclosed t := by
    intro pieces
    induction pieces with
    | nil => exact fun _ p hp => ⟨rfl, hp⟩
    | cons piece pieces ih =>
      intro hpieces p hp
      obtain ⟨hcomponents, htexts⟩ := texts_readParameter hp (hpieces piece List.mem_cons_self)
      have hrest := ih (fun q hq => hpieces q (List.mem_cons_of_mem _ hq)) _ htexts
      exact ⟨hrest.1.trans hcomponents, hrest.2⟩
  exact hrun (rest.splitOn ';') (fun _ => not_mem_of_mem_splitOn) _ (by simp [mem_texts])

end SignatureParams

theorem parseInputMember_of_split {member label value inner rest : Text}
    (hsplit : splitOnce '=' member = some (label, value))
    (hvalue : trim value = '(' :: (inner ++ ')' :: rest)) (hinner : ')' ∉ inner) :
    parseInputMember member = some (some (trim label, readParams (readComponents inner) rest)) := by
  have hclose : ('(' :: (inner ++ ')' :: rest)).idxOf? ')' = some (inner.length + 1) := by
    rw [List.idxOf?_eq_some_iff]
    refine ⟨by simp, by simp, fun j hj => ?_⟩
    cases j with
    | zero => simp
    | succ j =>
      simp only [List.getElem_cons_succ]
      rw [List.getElem_append_left (by omega)]
      intro heq
      exact hinner (by rw [← heq]; exact List.getElem_mem _)
  have hstop : sliceTo (inner ++ ')' :: rest) inner.length = some inner := by
    rw [sliceTo, if_pos (by simp), List.take_left]
  have hrest : sliceFrom ('(' :: (inner ++ ')' :: rest)) (inner.length + 2) = some rest := by
    rw [sliceFrom, if_pos (by simp), List.drop_succ_cons, ← List.drop_drop, List.drop_left]
    rfl
  unfold parseInputMember
  rw [hsplit]
  simp only [hvalue, hclose]
  rw [if_neg (by omega)]
  simp only [Option.bind_eq_bind, Option.bind_some, Nat.add_sub_cancel, hstop, hrest]
  rfl

theorem parseInputMember_split {member label : Text} (h : parseInputMember member = some (some (label, p))) :
    ∃ before value inner rest, splitOnce '=' member = some (before, value) ∧
      trim value = '(' :: (inner ++ ')' :: rest) ∧ ')' ∉ inner ∧ label = trim before ∧
      p = readParams (readComponents inner) rest := by
  cases hsplit : splitOnce '=' member with
  | none => simp [parseInputMember, hsplit] at h
  | some pair =>
    obtain ⟨before, value⟩ := pair
    cases hclose : (trim value).idxOf? ')' with
    | none => simp [parseInputMember, hsplit, hclose] at h
    | some close =>
      have hmem : ')' ∈ trim value := by
        obtain ⟨hlt, heq, -⟩ := List.idxOf?_eq_some_iff.1 hclose
        rw [← heq]
        exact List.getElem_mem hlt
      cases hvalue : trim value with
      | nil => simp [hvalue] at hmem
      | cons c tail =>
        by_cases hc : c = '('
        · subst hc
          rw [hvalue, List.mem_cons] at hmem
          have hmem := hmem.resolve_left (by decide)
          obtain ⟨inner, rest, rfl, hinner⟩ := List.eq_append_cons_of_mem hmem
          rw [parseInputMember_of_split hsplit hvalue hinner, Option.some.injEq, Option.some.injEq,
            Prod.mk.injEq] at h
          exact ⟨before, value, inner, rest, rfl, hvalue, hinner, h.1.symm, h.2.symm⟩
        · unfold parseInputMember at h
          rw [hsplit] at h
          simp only [hclose] at h
          split at h
          · rename_i heq
            rw [hvalue, List.cons.injEq] at heq
            exact absurd heq.1 hc
          · cases h

theorem plain_of_parseInputMember {member label : Text}
    (h : parseInputMember member = some (some (label, p))) : p.Plain := by
  obtain ⟨_, _, inner, rest, -, -, hinner, -, rfl⟩ := parseInputMember_split h
  obtain ⟨hcomponents, htexts⟩ := SignatureParams.readParams_spec (readComponents inner) rest
  constructor
  · intro c hc
    rw [hcomponents] at hc
    obtain ⟨-, -, hspace, -, hback⟩ := readComponents_spec hc
    exact ⟨fun hmem => absurd (hspace _ hmem) (by decide), fun hmem => absurd (hspace _ hmem) (by decide),
      fun hmem => hinner (hback ')' (by decide) hmem)⟩
  · intro c hc
    rw [hcomponents] at hc
    exact (readComponents_spec hc).2.2.2.1
  · exact SignatureParams.stated_clear htexts

theorem mem_of_mapM {α β : Type} {f : α → Option β} {l : List α} {ys : List β} (h : l.mapM f = some ys)
    {y : β} (hy : y ∈ ys) : ∃ x ∈ l, f x = some y :=
  forall₂_exists ((mapM_eq_some_iff f l ys).1 h) hy

/-- Parameters that some header states. -/
def Stated (p : SignatureParams) : Prop :=
  ∃ header inputs label, parseSignatureInput header = some inputs ∧ (label, p) ∈ inputs

theorem Stated.plain (h : Stated p) : p.Plain := by
  obtain ⟨header, inputs, label, hparse, hmem⟩ := h
  rw [parseSignatureInput, Option.map_eq_some_iff] at hparse
  obtain ⟨members, hmembers, rfl⟩ := hparse
  rw [List.mem_filterMap] at hmem
  obtain ⟨parsed, hparsed, hid⟩ := hmem
  obtain ⟨member, -, hmember⟩ := mem_of_mapM hmembers hparsed
  exact plain_of_parseInputMember (hmember.trans (congrArg some hid))

/-! ### Values of one line -/

theorem mem_afterScheme (h : c ∈ afterScheme url) : c ∈ url := by
  unfold afterScheme at h
  split at h
  · exact List.mem_of_mem_drop h
  · exact h

theorem mem_pathOf (h : c ∈ pathOf url) : c = '/' ∨ c ∈ url := by
  unfold pathOf at h
  dsimp only at h
  split at h
  · exact .inl (List.mem_singleton.1 h)
  · have hd := Rfc3986.mem_of_mem_upTo h
    split at hd
    · split at hd
      · rename_i path hpath
        exact .inr (mem_afterScheme (Rfc3986.mem_of_mem_beyond (hpath ▸ hd)))
      · exact .inl (List.mem_singleton.1 hd)
    · exact .inr (mem_afterScheme hd)

theorem mem_of_rsplitOnce {sep : Char} {t before after : Text} (h : rsplitOnce sep t = some (before, after))
    (hc : c ∈ before ∨ c ∈ after) : c ∈ t := by
  rw [rsplitOnce, Option.map_eq_some_iff] at h
  obtain ⟨⟨x, y⟩, hsplit, heq⟩ := h
  cases heq
  rw [← List.mem_reverse, (splitOnce_eq_some hsplit).1, List.mem_append, List.mem_cons]
  rcases hc with hc | hc
  · exact .inr (.inr (List.mem_reverse.1 hc))
  · exact .inl (List.mem_reverse.1 hc)

theorem mem_hostPort (h : c ∈ hostPort url) : c ∈ url := by
  have hauthority {d : Char} (hd : d ∈ authorityOf url) : d ∈ url := by
    unfold authorityOf at hd
    split at hd
    · exact List.mem_of_mem_drop (Rfc3986.mem_of_mem_upTo hd)
    · cases hd
  unfold hostPort at h
  split at h
  · rename_i hsplit
    exact hauthority (mem_of_rsplitOnce hsplit (.inr h))
  · exact hauthority h

theorem mem_hostOf (h : c ∈ hostOf url) : c = ']' ∨ c ∈ url := by
  unfold hostOf at h
  simp only at h
  split at h
  · rw [List.mem_append, List.mem_singleton] at h
    rcases h with h | h
    · exact .inr (mem_hostPort (Rfc3986.mem_of_mem_upTo h))
    · exact .inl h
  · split at h
    · rename_i hsplit
      exact .inr (mem_hostPort (mem_of_rsplitOnce hsplit (.inl h)))
    · exact .inr (mem_hostPort h)

theorem mem_schemeOf {url scheme : Text} (h : schemeOf url = some scheme) (hc : c ∈ scheme) : c ∈ url := by
  obtain ⟨-, rest, rfl⟩ := schemeOf_eq_some_iff.1 h
  simp [hc]

theorem mem_queryOf {url query : Text} (h : queryOf url = some query) (hc : c ∈ query) : c ∈ url := by
  rw [queryOf, Option.map_eq_some_iff] at h
  obtain ⟨⟨before, after⟩, hsplit, rfl⟩ := h
  have hmem : c ∈ stripFragment url := by
    rw [(splitOnce_eq_some hsplit).1]
    exact List.mem_append_right _ (List.mem_cons_of_mem _ hc)
  rw [stripFragment_eq] at hmem
  exact Rfc3986.mem_of_mem_upTo hmem

/-- No line feed in the URL or in a header value. -/
structure OneLine (request : NetRequest) : Prop where
  url : '\n' ∉ request.url
  headers : ∀ h ∈ request.headers, '\n' ∉ h.2

namespace OneLine

variable {request : NetRequest} (h : OneLine request)

include h

theorem headersNamed {name value : Text} (hvalue : value ∈ headersNamed request name) : '\n' ∉ value := by
  rw [Ext.headersNamed, List.mem_map] at hvalue
  obtain ⟨hd, hmem, rfl⟩ := hvalue
  exact h.headers hd (List.mem_of_mem_filter hmem)

theorem path : '\n' ∉ pathOf request.url := fun hmem =>
  (mem_pathOf hmem).elim (fun heq => absurd heq (by decide)) h.url

theorem query {query : Text} (hquery : queryOf request.url = some query) : '\n' ∉ query := fun hmem =>
  h.url (mem_queryOf hquery hmem)

theorem scheme : '\n' ∉ toAsciiLowercase ((schemeOf request.url).getD "https".toList) := by
  intro hmem
  have hmem := mem_of_mem_lowercase (by decide) hmem
  cases hscheme : schemeOf request.url with
  | none =>
    rw [hscheme, Option.getD_none] at hmem
    exact absurd hmem (by decide)
  | some scheme =>
    rw [hscheme, Option.getD_some] at hmem
    exact h.url (mem_schemeOf hscheme hmem)

theorem authority : '\n' ∉ requestAuthority request := by
  have hhost : '\n' ∉ toAsciiLowercase (hostOf request.url) := fun hmem =>
    (mem_hostOf (mem_of_mem_lowercase (by decide) hmem)).elim (fun heq => absurd heq (by decide)) h.url
  unfold requestAuthority
  split
  · rename_i host rest heq
    have hvalue : host ∈ Ext.headersNamed request "host".toList := heq ▸ List.mem_cons_self
    exact fun hmem => h.headersNamed hvalue (mem_of_mem_trim (mem_of_mem_lowercase (by decide) hmem))
  · simp only
    split
    · rename_i port _
      rw [List.mem_append, List.mem_cons]
      rintro (hmem | hmem | hmem)
      · exact hhost hmem
      · exact absurd hmem (by decide)
      · have hdigit := Nat.isDigit_of_mem_toDigits (b := 10) (by omega) (by omega) hmem
        exact absurd hdigit (by decide)
    · exact hhost

theorem componentValue {component value : Text} (hmethod : component ≠ "@method".toList)
    (hvalue : componentValue request component = some value) : '\n' ∉ value := by
  unfold Ext.componentValue at hvalue
  split at hvalue
  · rename_i derived
    unfold derivedComponent at hvalue
    simp only at hvalue
    split at hvalue
    · rename_i hderived
      exact absurd (hderived ▸ rfl) hmethod
    split at hvalue
    · exact Option.some.inj hvalue ▸ h.url
    split at hvalue
    · exact Option.some.inj hvalue ▸ h.authority
    split at hvalue
    · exact Option.some.inj hvalue ▸ h.scheme
    split at hvalue
    · split at hvalue
      · rename_i query hquery
        rw [← Option.some.inj hvalue, List.mem_append, List.mem_cons]
        rintro (hmem | hmem | hmem)
        · exact h.path hmem
        · exact absurd hmem (by decide)
        · exact h.query hquery hmem
      · exact Option.some.inj hvalue ▸ h.path
    split at hvalue
    · exact Option.some.inj hvalue ▸ h.path
    split at hvalue
    · rw [← Option.some.inj hvalue, List.mem_cons]
      rintro (hmem | hmem)
      · exact absurd hmem (by decide)
      · cases hquery : queryOf request.url with
        | none => simp [hquery] at hmem
        | some query => exact h.query hquery (by simpa [hquery] using hmem)
    · cases hvalue
  · simp only at hvalue
    split at hvalue
    · cases hvalue
    · rw [← Option.some.inj hvalue]
      intro hmem
      obtain hsep | ⟨v, hv, hmem⟩ := SignatureParams.mem_intercalate hmem
      · exact absurd hsep (by decide)
      · obtain ⟨w, hw, rfl⟩ := List.mem_map.1 hv
        exact h.headersNamed hw (mem_of_mem_trim hmem)

end OneLine

/-! ### The lines that are signed -/

def lineOf (request : NetRequest) (component : Text) : Text :=
  quoted component ++ ": ".toList ++ (componentValue request component).getD []

def paramsMark : Text := quoted "@signature-params".toList ++ ": ".toList

theorem mapM_componentLine {components : List Text}
    (hlower : ∀ c ∈ components, toAsciiLowercase c = c) {lines : List Text} :
    components.mapM (componentLine request) = .ok lines ↔
      (∀ c ∈ components, componentValue request c ≠ none) ∧ lines = components.map (lineOf request) := by
  induction components generalizing lines with
  | nil =>
    rw [List.mapM_nil]
    exact ⟨fun h => ⟨by simp, by cases h; rfl⟩, fun h => by rw [h.2]; rfl⟩
  | cons c components ih =>
    have hrest := @ih (fun d hd => hlower d (List.mem_cons_of_mem _ hd))
    rw [List.mapM_cons, componentLine, hlower c List.mem_cons_self]
    cases hvalue : componentValue request c with
    | none =>
      refine iff_of_false (by simp [bind, Except.bind]) fun h => ?_
      exact h.1 c List.mem_cons_self hvalue
    | some value =>
      have hline : lineOf request c = quoted c ++ ": ".toList ++ value := by
        rw [lineOf, hvalue, Option.getD_some]
      simp only [bind, Except.bind, List.map_cons, hline, List.forall_mem_cons, hvalue]
      cases hlines : components.mapM (componentLine request) with
      | error e =>
        refine iff_of_false (by simp) fun h => ?_
        have hok := (@hrest (components.map (lineOf request))).2 ⟨h.1.2, rfl⟩
        rw [hlines] at hok
        cases hok
      | ok rest =>
        have hrest := (@hrest rest).1 hlines
        simp only [pure, Except.pure, Except.ok.injEq]
        exact ⟨fun h => ⟨⟨by simp, hrest.1⟩, by rw [← h, hrest.2]⟩, fun h => by rw [h.2, hrest.2]⟩

theorem signatureBase_eq_ok (hlower : ∀ c ∈ p.components, toAsciiLowercase c = c) {base : Text} :
    signatureBase request p = .ok base ↔ (∀ c ∈ p.components, componentValue request c ≠ none) ∧
      base = ['\n'].intercalate (p.components.map (lineOf request) ++ [paramsMark ++ p.toValue]) := by
  unfold signatureBase
  cases hlines : p.components.mapM (componentLine request) with
  | error e =>
    refine iff_of_false (by simp [bind, Except.bind]) fun h => ?_
    have hok := (mapM_componentLine hlower).2 ⟨h.1, rfl⟩
    rw [hlines] at hok
    cases hok
  | ok lines =>
    obtain ⟨hpresent, rfl⟩ := (mapM_componentLine hlower).1 hlines
    simp only [bind, Except.bind, pure, Except.pure, Except.ok.injEq]
    exact ⟨fun h => ⟨hpresent, h.symm⟩, fun h => h.2.symm⟩

theorem splitOn_lineOf {component first : Text} {rest : List Text} (hline : '\n' ∉ component)
    (h : ((componentValue request component).getD []).splitOn '\n' = first :: rest) :
    (lineOf request component).splitOn '\n' = (quoted component ++ ": ".toList ++ first) :: rest := by
  refine splitOn_append_of_not_mem ?_ h
  rw [List.mem_append]
  rintro (hmem | hmem)
  · exact SignatureParams.not_mem_quoted (by decide) hline hmem
  · exact absurd hmem (by decide)

/-- No line of a component is taken for the one of the parameters. -/
theorem not_mark_of_mem_splitOn (h : OneLine request) {component : Text}
    (hspace : ' ' ∉ component) (hline : '\n' ∉ component)
    (hpresent : componentValue request component ≠ none) {line : Text}
    (hmem : line ∈ (lineOf request component).splitOn '\n') : ¬ paramsMark <+: line := by
  obtain ⟨value, hvalue⟩ := Option.ne_none_iff_exists'.1 hpresent
  cases hsplit : value.splitOn '\n' with
  | nil => exact absurd hsplit (List.splitOn_ne_nil _ _)
  | cons first rest =>
    rw [splitOn_lineOf hline (by rw [hvalue]; exact hsplit), List.mem_cons] at hmem
    rintro ⟨tail, htail⟩
    rcases hmem with rfl | hmem
    · have hname : splitOnce ' ' (quoted component ++ ": ".toList ++ first) =
          some (quoted component ++ [':'], first) := by
        rw [show quoted component ++ ": ".toList ++ first =
          (quoted component ++ [':']) ++ ' ' :: first by simp]
        refine splitOnce_append ?_ _
        rw [List.mem_append]
        rintro (hmem | hmem)
        · exact SignatureParams.not_mem_quoted (by decide) hspace hmem
        · exact absurd hmem (by decide)
      rw [← htail, show paramsMark ++ tail =
        (quoted "@signature-params".toList ++ [':']) ++ ' ' :: tail by simp [paramsMark],
        splitOnce_append (by decide), Option.some.injEq, Prod.mk.injEq] at hname
      have hquoted := SignatureParams.quoted_injective (List.append_cancel_right hname.1)
      exact hpresent (hquoted ▸ rfl)
    · by_cases hmethod : component = "@method".toList
      · have hupper : value = toAsciiUppercase request.method := by
          rw [hmethod] at hvalue
          exact (Option.some.inj hvalue).symm
        have hs : 's' ∈ line := by
          rw [← htail]
          exact List.mem_append_left _ (by decide)
        have hword : line ∈ value.splitOnP (· == '\n') := by
          rw [← List.splitOn_eq_splitOnP, hsplit]
          exact List.mem_cons_of_mem _ hmem
        have hs := mem_of_mem_splitOnP hword hs
        rw [hupper, toAsciiUppercase, List.mem_map] at hs
        obtain ⟨d, -, hd⟩ := hs
        have hlower := isLower_toUpper d
        rw [hd] at hlower
        exact absurd hlower (by decide)
      · rw [List.splitOn_eq_singleton (h.componentValue hmethod hvalue), List.cons.injEq] at hsplit
        rw [← hsplit.2] at hmem
        cases hmem

theorem append_eq_of_first {P : α → Prop} {s₁ s₂ t₁ t₂ : List α} {x₁ x₂ : α}
    (hs₁ : ∀ x ∈ s₁, ¬ P x) (hs₂ : ∀ x ∈ s₂, ¬ P x) (hx₁ : P x₁) (hx₂ : P x₂)
    (h : s₁ ++ x₁ :: t₁ = s₂ ++ x₂ :: t₂) : s₁ = s₂ ∧ x₁ :: t₁ = x₂ :: t₂ := by
  induction s₁ generalizing s₂ with
  | nil =>
    cases s₂ with
    | nil => exact ⟨rfl, h⟩
    | cons y s₂ =>
      rw [List.nil_append, List.cons_append, List.cons.injEq] at h
      exact absurd (h.1 ▸ hx₁) (hs₂ y List.mem_cons_self)
  | cons y s₁ ih =>
    cases s₂ with
    | nil =>
      rw [List.nil_append, List.cons_append, List.cons.injEq] at h
      exact absurd (h.1 ▸ hx₂) (hs₁ y List.mem_cons_self)
    | cons z s₂ =>
      rw [List.cons_append, List.cons_append, List.cons.injEq] at h
      obtain ⟨hinit, htail⟩ := ih (fun x hx => hs₁ x (List.mem_cons_of_mem _ hx))
        (fun x hx => hs₂ x (List.mem_cons_of_mem _ hx)) h.2
      exact ⟨by rw [h.1, hinit], htail⟩

/-- Where no line feed stands in the values, the text tells the parameters. -/
theorem lines_of_base {r₁ r₂ : NetRequest} (h₁ : OneLine r₁) (h₂ : OneLine r₂) {p₁ p₂ : SignatureParams}
    (hp₁ : p₁.Plain) (hp₂ : p₂.Plain) {base : Text} (hb₁ : signatureBase r₁ p₁ = .ok base)
    (hb₂ : signatureBase r₂ p₂ = .ok base) :
    p₁ = p₂ ∧ fieldLines '\n' (p₁.components.map (lineOf r₁)) =
      fieldLines '\n' (p₂.components.map (lineOf r₂)) := by
  have hcut (r : NetRequest) (p : SignatureParams) : ∃ first rest,
      p.toValue.splitOn '\n' = first :: rest ∧
      fieldLines '\n' (p.components.map (lineOf r) ++ [paramsMark ++ p.toValue]) =
        fieldLines '\n' (p.components.map (lineOf r)) ++ (paramsMark ++ first) :: rest := by
    cases hsplit : p.toValue.splitOn '\n' with
    | nil => exact absurd hsplit (List.splitOn_ne_nil _ _)
    | cons first rest =>
      refine ⟨first, rest, rfl, ?_⟩
      rw [fieldLines_append, fieldLines, fieldLines, List.flatMap_singleton,
        splitOn_append_of_not_mem (by decide) hsplit]
  have hclear {r : NetRequest} (hr : OneLine r) {p : SignatureParams} (hp : p.Plain)
      (hpresent : ∀ c ∈ p.components, componentValue r c ≠ none) :
      ∀ line ∈ fieldLines '\n' (p.components.map (lineOf r)), ¬ paramsMark <+: line := by
    intro line hline
    obtain ⟨field, hfield, hline⟩ := List.mem_flatMap.1 hline
    obtain ⟨c, hc, rfl⟩ := List.mem_map.1 hfield
    exact not_mark_of_mem_splitOn hr (hp.component c hc).1 (hp.component c hc).2.1 (hpresent c hc) hline
  obtain ⟨hpresent₁, htext₁⟩ := (signatureBase_eq_ok hp₁.lower).1 hb₁
  obtain ⟨hpresent₂, htext₂⟩ := (signatureBase_eq_ok hp₂.lower).1 hb₂
  have hlines := fieldLines_eq_of_intercalate (by simp) (by simp) (htext₁.symm.trans htext₂)
  obtain ⟨first₁, rest₁, hsplit₁, hcut₁⟩ := hcut r₁ p₁
  obtain ⟨first₂, rest₂, hsplit₂, hcut₂⟩ := hcut r₂ p₂
  rw [hcut₁, hcut₂] at hlines
  obtain ⟨hinit, htail⟩ := append_eq_of_first (hclear h₁ hp₁ hpresent₁) (hclear h₂ hp₂ hpresent₂)
    (List.prefix_append _ _) (List.prefix_append _ _) hlines
  rw [List.cons.injEq] at htail
  have hfirst := List.append_cancel_left htail.1
  have hvalue : p₁.toValue = p₂.toValue := by
    apply @splitOn_injective _ _ '\n'
    rw [hsplit₁, hsplit₂, hfirst, htail.2]
  exact ⟨SignatureParams.toValue_injective hp₁ hp₂ hvalue, hinit⟩

/-- Requests that compare on the lines of their method and have the same lines have the same values. -/
theorem values_of_lines {r₁ r₂ : NetRequest} (h₁ : OneLine r₁) (h₂ : OneLine r₂) {components : List Text}
    (hline : ∀ c ∈ components, '\n' ∉ c) (hpresent₁ : ∀ c ∈ components, componentValue r₁ c ≠ none)
    (hpresent₂ : ∀ c ∈ components, componentValue r₂ c ≠ none)
    (hmethod : ((toAsciiUppercase r₁.method).splitOn '\n').length ≤
      ((toAsciiUppercase r₂.method).splitOn '\n').length)
    (hlines : fieldLines '\n' (components.map (lineOf r₁)) = fieldLines '\n' (components.map (lineOf r₂))) :
    ∀ c ∈ components, componentValue r₁ c = componentValue r₂ c := by
  have hlength (r : NetRequest) {c : Text} (hc : '\n' ∉ c) : ((lineOf r c).splitOn '\n').length =
      (((componentValue r c).getD []).splitOn '\n').length := by
    cases hsplit : ((componentValue r c).getD []).splitOn '\n' with
    | nil => exact absurd hsplit (List.splitOn_ne_nil _ _)
    | cons first rest => rw [splitOn_lineOf hc hsplit, List.length_cons, List.length_cons]
  have hone {r : NetRequest} (hr : OneLine r) {c : Text} (hc : c ≠ "@method".toList)
      (hpresent : componentValue r c ≠ none) :
      (((componentValue r c).getD []).splitOn '\n').length = 1 := by
    obtain ⟨value, hvalue⟩ := Option.ne_none_iff_exists'.1 hpresent
    rw [length_splitOn_eq_one_iff, hvalue]
    exact hr.componentValue hc hvalue
  have hle : ∀ c ∈ components,
      ((lineOf r₁ c).splitOn '\n').length ≤ ((lineOf r₂ c).splitOn '\n').length := by
    intro c hc
    rw [hlength r₁ (hline c hc), hlength r₂ (hline c hc)]
    by_cases hm : c = "@method".toList
    · subst hm
      exact hmethod
    · rw [hone h₁ hm (hpresent₁ c hc), hone h₂ hm (hpresent₂ c hc)]
  intro c hc
  have heq := eq_of_fieldLines_map hle hlines c hc
  obtain ⟨value₁, hvalue₁⟩ := Option.ne_none_iff_exists'.1 (hpresent₁ c hc)
  obtain ⟨value₂, hvalue₂⟩ := Option.ne_none_iff_exists'.1 (hpresent₂ c hc)
  rw [lineOf, lineOf, hvalue₁, hvalue₂] at heq
  rw [hvalue₁, hvalue₂, Option.some.injEq]
  exact List.append_cancel_left heq

/-- The text that is signed determines the parameters and the value of every component. -/
theorem signatureBase_commits {r₁ r₂ : NetRequest} (h₁ : OneLine r₁) (h₂ : OneLine r₂)
    {p₁ p₂ : SignatureParams} (hp₁ : Stated p₁) (hp₂ : Stated p₂) {base : Text}
    (hb₁ : signatureBase r₁ p₁ = .ok base) (hb₂ : signatureBase r₂ p₂ = .ok base) :
    p₁ = p₂ ∧ ∀ c ∈ p₁.components, componentValue r₁ c = componentValue r₂ c := by
  obtain ⟨rfl, hlines⟩ := lines_of_base h₁ h₂ hp₁.plain hp₂.plain hb₁ hb₂
  have hpresent₁ := ((signatureBase_eq_ok hp₁.plain.lower).1 hb₁).1
  have hpresent₂ := ((signatureBase_eq_ok hp₁.plain.lower).1 hb₂).1
  have hline : ∀ c ∈ p₁.components, '\n' ∉ c := fun c hc => (hp₁.plain.component c hc).2.1
  refine ⟨rfl, fun c hc => ?_⟩
  rcases Nat.le_total ((toAsciiUppercase r₁.method).splitOn '\n').length
    ((toAsciiUppercase r₂.method).splitOn '\n').length with hle | hle
  · exact values_of_lines h₁ h₂ hline hpresent₁ hpresent₂ hle hlines c hc
  · exact (values_of_lines h₂ h₁ hline hpresent₂ hpresent₁ hle hlines.symm c hc).symm

/-! ### A line feed in the URL -/

def queryFirst : SignatureParams :=
  ⟨["@query".toList, "@path".toList], none, none, none, none, none, none⟩

def requestTo (url : Text) : NetRequest := ⟨"GET".toList, url, [], [], none, none⟩

def queryFirstBase (url : Text) : Text :=
  ['\n'].intercalate [quoted "@query".toList ++ ": ".toList ++ '?' :: (queryOf url).getD [],
    quoted "@path".toList ++ ": ".toList ++ pathOf url, paramsMark ++ queryFirst.toValue]

theorem signatureBase_requestTo (url : Text) :
    signatureBase (requestTo url) queryFirst = .ok (queryFirstBase url) := rfl

theorem stated_queryFirst : Stated queryFirst := by
  refine ⟨"sig1=(\"@query\" \"@path\")".toList, [("sig1".toList, queryFirst)], "sig1".toList, ?_,
    List.mem_singleton_self _⟩
  decide +kernel

/-- One text is the base of two requests: a line feed is in the query of one and in the path of the other. -/
theorem signatureBase_ambiguous :
    ¬ ∀ (r₁ r₂ : NetRequest) (p₁ p₂ : SignatureParams) (base : Text),
      (∀ h ∈ r₁.headers, '\n' ∉ h.2) → (∀ h ∈ r₂.headers, '\n' ∉ h.2) → Stated p₁ → Stated p₂ →
      signatureBase r₁ p₁ = .ok base → signatureBase r₂ p₂ = .ok base →
      p₁ = p₂ ∧ ∀ c ∈ p₁.components, componentValue r₁ c = componentValue r₂ c := by
  intro h
  let inQuery : Text := "https://h/p?q\n\"@path\": /x".toList
  let inPath : Text := "https://h/x\n\"@path\": /p?q".toList
  have hbase : queryFirstBase inPath = queryFirstBase inQuery := by decide +kernel
  have hpath : pathOf inQuery ≠ pathOf inPath := by decide +kernel
  obtain ⟨-, hvalues⟩ := h (requestTo inQuery) (requestTo inPath) queryFirst queryFirst
    (queryFirstBase inQuery) (by simp [requestTo]) (by simp [requestTo]) stated_queryFirst
    stated_queryFirst (signatureBase_requestTo inQuery) (hbase ▸ signatureBase_requestTo inPath)
  exact hpath (Option.some.inj (hvalues "@path".toList (by decide)))

theorem signatureBase_commits_queryFirst :
    OneLine (requestTo "https://h/p?q".toList) ∧ OneLine (requestTo "http://k/p?q#f".toList) ∧
      Stated queryFirst ∧ ∀ c ∈ queryFirst.components,
        componentValue (requestTo "https://h/p?q".toList) c =
          componentValue (requestTo "http://k/p?q#f".toList) c := by
  have hsecure : OneLine (requestTo "https://h/p?q".toList) := ⟨by decide, by simp [requestTo]⟩
  have hplain : OneLine (requestTo "http://k/p?q#f".toList) := ⟨by decide, by simp [requestTo]⟩
  have hbase : queryFirstBase "http://k/p?q#f".toList = queryFirstBase "https://h/p?q".toList := by
    decide +kernel
  exact ⟨hsecure, hplain, stated_queryFirst,
    (signatureBase_commits hsecure hplain stated_queryFirst stated_queryFirst
      (signatureBase_requestTo _) (hbase ▸ signatureBase_requestTo "http://k/p?q#f".toList)).2⟩

end Noeta.Ext
