import Noeta.Ext.Uri
import Noeta.Lib.Terminated

/-!
# Resolution against RFC 3986

The loop over the segments of a path does what the loop of 5.2.4 does, and a resolved reference is the
target of 5.2.2, apart from its fragment and from white space around it.
-/

namespace Noeta.Ext

open Noeta.Lib

open Noeta.Lib.Rfc3986 (Text Reference upTo beyond Begins upTo_append beyond_append slashed component
  parse)

/-! ## The segments of a path -/

variable {segs : List Text} {s t rest url : Text} {c : Char}

theorem slashed_eq_intercalate (h : segs ≠ []) : slashed segs = '/' :: ['/'].intercalate segs := by
  induction segs with
  | nil => exact absurd rfl h
  | cons seg rest ih =>
    cases rest with
    | nil => simp [slashed]
    | cons next rest =>
      rw [slashed, List.flatMap_cons, ← slashed, ih (List.cons_ne_nil _ _),
        List.intercalate_cons_cons]
      simp

theorem slashed_splitOn (body : Text) : slashed (body.splitOn '/') = '/' :: body := by
  rw [slashed_eq_intercalate (List.splitOn_ne_nil _ _), List.intercalate_splitOn]

def IsDots (segment : Text) : Prop := segment = ['.'] ∨ segment = ['.', '.']

instance : DecidablePred IsDots := fun _ => inferInstanceAs (Decidable (_ ∨ _))

theorem mem_keepSegments {segs out : List Text} {seg : Text} (h : seg ∈ keepSegments segs out) :
    seg ∈ out ∨ ¬ IsDots seg ∧ (seg ∈ segs ∨ seg = []) := by
  induction segs generalizing out with
  | nil => exact Or.inl h
  | cons first rest ih =>
    have hempty : ¬ IsDots [] := by
      rintro (h | h) <;> cases h
    have hpop : seg ∈ out.dropLast → seg ∈ out := fun h => (List.dropLast_sublist out).subset h
    rw [keepSegments] at h
    split at h
    · obtain hout | ⟨hdots, hseg⟩ := ih h
      · split at hout
        · rw [List.mem_append, List.mem_singleton] at hout
          obtain hout | rfl := hout
          · exact Or.inl hout
          · exact Or.inr ⟨hempty, Or.inr rfl⟩
        · exact Or.inl hout
      · exact Or.inr ⟨hdots, hseg.imp_left (List.mem_cons_of_mem _)⟩
    · split at h
      · obtain hout | ⟨hdots, hseg⟩ := ih h
        · split at hout
          · rw [List.mem_append, List.mem_singleton] at hout
            obtain hout | rfl := hout
            · exact Or.inl (hpop hout)
            · exact Or.inr ⟨hempty, Or.inr rfl⟩
          · exact Or.inl (hpop hout)
        · exact Or.inr ⟨hdots, hseg.imp_left (List.mem_cons_of_mem _)⟩
      · rename_i hdot hdotdot
        obtain hout | ⟨hdots, hseg⟩ := ih h
        · rw [List.mem_append, List.mem_singleton] at hout
          obtain hout | rfl := hout
          · exact Or.inl hout
          · exact Or.inr ⟨fun h => h.elim hdot hdotdot, Or.inl List.mem_cons_self⟩
        · exact Or.inr ⟨hdots, hseg.imp_left (List.mem_cons_of_mem _)⟩

theorem getLast?_keepSegments (h : segs ≠ []) (out : List Text) : (keepSegments segs out).getLast? = some [] ∨
      (keepSegments segs out).getLast? = segs.getLast? := by
  induction segs generalizing out with
  | nil => exact absurd rfl h
  | cons first rest ih =>
    rw [keepSegments]
    by_cases hrest : rest = []
    · subst hrest
      simp only [if_true, keepSegments]
      split
      · exact Or.inl List.getLast?_concat
      · split
        · exact Or.inl List.getLast?_concat
        · exact Or.inr List.getLast?_concat
    · have hlast : (first :: rest).getLast? = rest.getLast? := by
        rw [List.getLast?_cons_of_ne_nil hrest]
      rw [hlast]
      split
      · exact ih hrest _
      · split
        · exact ih hrest _
        · exact ih hrest _

theorem keepSegments_ne_nil (h : segs ≠ []) (out : List Text) : keepSegments segs out ≠ [] := by
  intro hnil
  have hlast := getLast?_keepSegments h out
  rw [hnil] at hlast
  obtain hlast | hlast := hlast
  · cases hlast
  · exact h (List.getLast?_eq_none_iff.mp hlast.symm)

theorem keepSegments_eq_append (h : ∀ s ∈ segs, ¬ IsDots s) (out : List Text) :
    keepSegments segs out = out ++ segs := by
  induction segs generalizing out with
  | nil => rw [keepSegments, List.append_nil]
  | cons first rest ih =>
    have hfirst := h first List.mem_cons_self
    rw [keepSegments, if_neg fun heq => hfirst (Or.inl heq),
      if_neg fun heq => hfirst (Or.inr heq), ih fun s hs => h s (List.mem_cons_of_mem _ hs)]
    exact List.append_cons out first rest |>.symm

/-- The loop of the RFC on the text of some segments. -/
theorem dots_slashed (h : ∀ s ∈ segs, '/' ∉ s) (out : List Text) (hout : ∀ s ∈ out, '/' ∉ s) :
    Rfc3986.dots (slashed segs) (slashed out) = slashed (keepSegments segs out) := by
  have hempty : ∀ out : List Text, slashed (out ++ [[]]) = slashed out ++ ['/'] := by
    intro out
    simp [slashed]
  induction segs generalizing out with
  | nil => simp [slashed, Rfc3986.dots, keepSegments]
  | cons first rest ih =>
    have hrest : ∀ s ∈ rest, '/' ∉ s := fun s hs => h s (List.mem_cons_of_mem _ hs)
    have hpop : ∀ s ∈ out.dropLast, '/' ∉ s := 
      fun s hs => hout s ((List.dropLast_sublist out).subset hs)
    rw [keepSegments]
    by_cases hdot : first = ['.']
    · subst hdot
      rw [if_pos rfl]
      cases rest with
      | nil => rw [Rfc3986.dots_dot_last, if_pos rfl, keepSegments, hempty]
      | cons next rest =>
        rw [Rfc3986.dots_dot, if_neg (List.cons_ne_nil _ _)]
        exact ih hrest out hout
    · rw [if_neg hdot]
      by_cases hdotdot : first = ['.', '.']
      · subst hdotdot
        rw [if_pos rfl]
        cases rest with
        | nil =>
          rw [Rfc3986.dots_dotdot_last, Rfc3986.dropLastSegment_slashed hout, if_pos rfl,
            keepSegments, hempty]
        | cons next rest =>
          rw [Rfc3986.dots_dotdot, Rfc3986.dropLastSegment_slashed hout,
            if_neg (List.cons_ne_nil _ _)]
          exact ih hrest out.dropLast hpop
      · have hfirst := h first List.mem_cons_self
        have hpush : slashed out ++ '/' :: first = slashed (out ++ [first]) := by
          simp [slashed]
        rw [if_neg hdotdot, Rfc3986.dots_segment hfirst hdot hdotdot, hpush]
        apply ih hrest
        intro s hs
        rw [List.mem_append, List.mem_singleton] at hs
        obtain hs | rfl := hs
        · exact hout s hs
        · exact hfirst

theorem removeDotSegments_eq (body : Text) :
    removeDotSegments ('/' :: body) = Rfc3986.removeDotSegments ('/' :: body) := by
  have hkept := keepSegments_ne_nil (List.splitOn_ne_nil '/' body) []
  have hdots := @dots_slashed (body.splitOn '/') (fun s hs => not_mem_of_mem_splitOn hs) []
    fun s hs => nomatch hs
  rw [removeDotSegments, Rfc3986.removeDotSegments, ← slashed_eq_intercalate hkept, ← hdots,
    slashed_splitOn]
  rfl

/-- No segment of the path is a dot segment. -/
def NoDots (path : Text) : Prop := ∀ seg ∈ path.splitOn '/', ¬ IsDots seg

instance (path : Text) : Decidable (NoDots path) :=
  inferInstanceAs (Decidable (∀ seg ∈ path.splitOn '/', ¬ IsDots seg))

theorem splitOn_slash_cons (body : Text) :
    ('/' :: body).splitOn '/' = [] :: body.splitOn '/' := by
  rw [List.splitOn_cons_eq_if_modifyHead, if_pos (beq_self_eq_true _)]

theorem noDots_removeDotSegments (body : Text) : NoDots (removeDotSegments ('/' :: body)) := by
  intro seg hseg
  have hkept := keepSegments_ne_nil (List.splitOn_ne_nil '/' body) []
  have hslash : ∀ s ∈ keepSegments (body.splitOn '/') [], '/' ∉ s := by
    intro s hs
    obtain hs | ⟨_, hs | rfl⟩ := mem_keepSegments hs
    · cases hs
    · exact not_mem_of_mem_splitOn hs
    · exact List.not_mem_nil
  rw [removeDotSegments, splitOn_slash_cons, List.splitOn_intercalate '/' hslash hkept,
    List.mem_cons] at hseg
  obtain rfl | hseg := hseg
  · intro h
    obtain h | h := h <;> cases h
  · obtain hs | ⟨hdots, _⟩ := mem_keepSegments hseg
    · cases hs
    · exact hdots

theorem removeDotSegments_eq_self {body : Text} (h : NoDots ('/' :: body)) :
    removeDotSegments ('/' :: body) = '/' :: body := by
  rw [NoDots, splitOn_slash_cons] at h
  rw [removeDotSegments, keepSegments_eq_append fun s hs => h s (List.mem_cons_of_mem _ hs),
    List.nil_append, List.intercalate_splitOn]

theorem getLast?_removeDotSegments (body : Text) :
    (removeDotSegments ('/' :: body)).getLast? = some '/' ∨
      (removeDotSegments ('/' :: body)).getLast? = ('/' :: body).getLast? := by
  have hne := List.splitOn_ne_nil '/' body
  have hkept := keepSegments_ne_nil hne []
  have hlast : ∀ segs : List Text, segs.getLast? = some [] →
      (slashed segs).getLast? = some '/' := by
    intro segs h
    obtain ⟨init, rfl⟩ := List.getLast?_eq_some_iff.mp h
    simp [slashed]
  have hsame : ∀ (segs segs' : List Text) (s : Text), segs.getLast? = some s →
      segs'.getLast? = some s → (slashed segs).getLast? = (slashed segs').getLast? := by
    intro segs segs' s h h'
    obtain ⟨init, rfl⟩ := List.getLast?_eq_some_iff.mp h
    obtain ⟨init', rfl⟩ := List.getLast?_eq_some_iff.mp h'
    simp [slashed, List.getLast?_append, List.getLast?_cons]
  rw [removeDotSegments, ← slashed_eq_intercalate hkept, ← slashed_splitOn body]
  obtain h | h := getLast?_keepSegments hne []
  · exact Or.inl (hlast _ h)
  · right
    have hs := List.getLast?_eq_some_getLast hne
    exact hsame _ _ _ (h.trans hs) hs

/-! ## Where the parts of a URL stand -/

theorem not_mem_of_validScheme (h : validScheme s = true) : s ≠ [] ∧ ∀ c ∈ s, c ∉ [':', '/', '?', '#'] := by
  cases s with
  | nil => cases h
  | cons first rest =>
    refine ⟨List.cons_ne_nil _ _, ?_⟩
    have hclear : ∀ c : Char, c.isAlphanum || c = '+' || c = '-' || c = '.' →
        c ∉ [':', '/', '?', '#'] := by
      intro c hc hmem
      simp only [List.mem_cons, List.not_mem_nil, or_false] at hmem
      obtain rfl | rfl | rfl | rfl := hmem <;> revert hc <;> decide
    rw [validScheme, Bool.and_eq_true, List.all_eq_true] at h
    intro c hc
    rw [List.mem_cons] at hc
    obtain rfl | hc := hc
    · apply hclear
      simp [Char.isAlphanum, h.1]
    · exact hclear c (h.2 c hc)

theorem splitScheme_append (h : ':' ∉ s) (rest : Text) :
    splitScheme (s ++ ':' :: '/' :: '/' :: rest) = some (s, rest) := by
  induction s with
  | nil => rw [List.nil_append, splitScheme]
  | cons c s ih =>
    rw [List.mem_cons, not_or] at h
    rw [List.cons_append, splitScheme, ih h.2]
    · rfl
    · rintro rest' rfl
      exact absurd rfl h.1

theorem splitScheme_eq_some (h : splitScheme t = some (s, rest)) : t = s ++ ':' :: '/' :: '/' :: rest := by
  induction t generalizing s with
  | nil => cases h
  | cons c t ih =>
    unfold splitScheme at h
    split at h
    · rename_i rest' heq
      cases h
      exact heq
    · rename_i c' t' hne heq
      cases heq
      cases hsplit : splitScheme t with
      | none =>
        rw [hsplit] at h
        cases h
      | some p =>
        rw [hsplit] at h
        cases h
        rw [List.cons_append, ← ih hsplit]
    · cases h

/-- `scheme://` and anything. -/
def Absolute (url : Text) : Prop :=
  ∃ scheme rest, validScheme scheme = true ∧ url = scheme ++ "://".toList ++ rest

theorem schemeOf_eq_some_iff : schemeOf url = some s ↔
      validScheme s = true ∧ ∃ rest, url = s ++ "://".toList ++ rest := by
  have happend : ∀ rest, s ++ "://".toList ++ rest = s ++ ':' :: '/' :: '/' :: rest := by
    intro rest
    rw [List.append_assoc]
    rfl
  constructor
  · intro h
    rw [schemeOf] at h
    split at h
    · rename_i s' rest hsplit
      split at h
      · rename_i hvalid
        cases h
        exact ⟨hvalid, rest, (splitScheme_eq_some hsplit).trans (happend rest).symm⟩
      · cases h
    · cases h
  · rintro ⟨hvalid, rest, rfl⟩
    have hcolon : ':' ∉ s := fun hmem =>
      (not_mem_of_validScheme hvalid).2 ':' hmem List.mem_cons_self
    rw [schemeOf, happend, splitScheme_append hcolon]
    exact if_pos hvalid

theorem hasScheme_iff : hasScheme url = true ↔ Absolute url := by
  rw [hasScheme, Option.isSome_iff_exists]
  constructor
  · intro ⟨s, hs⟩
    obtain ⟨hvalid, rest, h⟩ := schemeOf_eq_some_iff.mp hs
    exact ⟨s, rest, hvalid, h⟩
  · intro ⟨s, rest, hvalid, h⟩
    exact ⟨s, schemeOf_eq_some_iff.mpr ⟨hvalid, rest, h⟩⟩

theorem splitQuery_append {path : Text} (h : '?' ∉ path) (query : Option Text) :
    splitQuery (path ++ component ['?'] query []) = (path, query) := by
  have hpath : ∀ c ∈ path, c ∉ ['?'] := by
    intro c hc hmem
    rw [List.mem_singleton.mp hmem] at hc
    exact h hc
  rw [splitQuery, splitOnce]
  cases query with
  | none => rw [component, List.append_nil, Rfc3986.beyond_eq_nil hpath]
  | some q =>
    have hb : Begins ['?'] (component ['?'] (some q) []) := by
      intro c hc
      cases hc
      exact List.mem_cons_self
    rw [beyond_append hpath hb, upTo_append hpath hb]
    simp [component]

/-- A URL with scheme and authority, by its components. -/
structure Located (r : Reference) (s a : Text) : Prop where
  wellFormed : r.WellFormed
  scheme : r.scheme = some s
  authority : r.authority = some a
  fragment : r.fragment = none
  valid : validScheme s = true

namespace Located

variable {r : Reference} {s a : Text} (h : Located r s a)

include h

theorem recompose_eq :
    r.recompose = s ++ "://".toList ++ (a ++ (r.path ++ component ['?'] r.query [])) := by
  rw [Reference.recompose, h.scheme, h.authority, h.fragment]
  simp [component]

theorem begins : Begins ['/', '?', '#'] (r.path ++ component ['?'] r.query []) := by
  have hpath := h.wellFormed.rooted (by rw [h.authority]; rfl)
  have hquery : Begins ['?', '#'] (component ['?'] r.query []) := by
    have htail := Rfc3986.begins_tail r.query none
    have hnone : component ['#'] none [] = [] := rfl
    rwa [hnone, List.append_nil] at htail
  exact hpath.append hquery

theorem schemeOf_eq : schemeOf r.recompose = some s :=
  schemeOf_eq_some_iff.mpr ⟨h.valid, _, h.recompose_eq⟩

theorem drop_scheme :
    r.recompose.drop (s.length + 3) = a ++ (r.path ++ component ['?'] r.query []) := by
  have hlen : s.length + 3 = (s ++ "://".toList).length := by simp
  rw [h.recompose_eq, hlen, List.drop_left]

theorem afterScheme_eq :
    afterScheme r.recompose = a ++ (r.path ++ component ['?'] r.query []) := by
  rw [afterScheme, h.schemeOf_eq]
  exact h.drop_scheme

theorem authorityOf_eq : authorityOf r.recompose = a := by
  rw [authorityOf, h.schemeOf_eq]
  change upTo _ (r.recompose.drop (s.length + 3)) = a
  rw [h.drop_scheme]
  exact upTo_append (h.wellFormed.authority a h.authority) h.begins

theorem originPrefix_eq : originPrefix r.recompose = s ++ "://".toList ++ a := by
  rw [originPrefix, h.schemeOf_eq, h.authorityOf_eq]

theorem splitQuery_eq :
    splitQuery (r.path ++ component ['?'] r.query []) = (r.path, r.query) :=
  splitQuery_append (fun hmem => h.wellFormed.path '?' hmem List.mem_cons_self) r.query

theorem afterPathStart_eq :
    afterPathStart r.recompose = r.path ++ component ['?'] r.query [] := by
  have hauth : ∀ c ∈ a, c ∉ ['/', '?'] := by
    intro c hc hmem
    apply h.wellFormed.authority a h.authority c hc
    simp only [List.mem_cons, List.not_mem_nil, or_false] at hmem ⊢
    exact hmem.imp_right Or.inl
  have hbegins : Begins ['/', '?'] (r.path ++ component ['?'] r.query []) := by
    have hpath := h.wellFormed.rooted (by rw [h.authority]; rfl)
    apply hpath.append
    intro c hc
    cases hq : r.query with
    | none =>
      rw [hq] at hc
      cases hc
    | some q =>
      rw [hq] at hc
      cases hc
      exact List.mem_cons_self
  rw [afterPathStart, h.afterScheme_eq, beyond_append hauth hbegins]

theorem normalize_eq :
    normalize r.recompose =
      ({ r with path := Rfc3986.removeDotSegments r.path } : Reference).filled.recompose := by
  have hroot := h.wellFormed.rooted (by rw [h.authority]; rfl)
  have hpath : removeDotSegments (if r.path = [] then ['/'] else r.path) =
      if Rfc3986.removeDotSegments r.path = [] then ['/'] else Rfc3986.removeDotSegments r.path := by
    cases hp : r.path with
    | nil =>
      have hnil : Rfc3986.removeDotSegments [] = [] := by
        simp [Rfc3986.removeDotSegments, Rfc3986.dots]
      rw [hnil, if_pos rfl, removeDotSegments_eq, Rfc3986.removeDotSegments,
        Rfc3986.dots_slash]
      rfl
    | cons c body =>
      rw [hp] at hroot
      have hc : c = '/' := List.mem_singleton.mp (hroot c rfl)
      subst hc
      rw [if_neg (List.cons_ne_nil _ _), removeDotSegments_eq, if_neg]
      rw [← removeDotSegments_eq]
      exact List.cons_ne_nil _ _
  rw [normalize, h.afterPathStart_eq, h.splitQuery_eq, h.originPrefix_eq]
  simp only [hpath, Reference.filled, Reference.recompose, h.scheme, h.authority, h.fragment]
  cases r.query <;> simp [withQuery, component]

theorem pathOf_eq : pathOf r.recompose = r.filled.path := by
  have hroot := h.wellFormed.rooted (by rw [h.authority]; rfl)
  have hbeyond : beyond ['/', '?', '#'] (afterScheme r.recompose) =
      r.path ++ component ['?'] r.query [] := by
    rw [h.afterScheme_eq, beyond_append (h.wellFormed.authority a h.authority) h.begins]
  have hquery : Begins ['?', '#'] (component ['?'] r.query []) := by
    intro c hc
    cases hq : r.query <;> rw [hq] at hc <;> cases hc
    exact List.mem_cons_self
  rw [pathOf, h.schemeOf_eq]
  simp only [hbeyond]
  rw [Reference.filled]
  cases hp : r.path with
  | nil =>
    cases hq : r.query with
    | none => simp [component, upTo]
    | some q => simp [component, upTo]
  | cons c body =>
    rw [hp] at hroot
    have hc : c = '/' := List.mem_singleton.mp (hroot c rfl)
    subst hc
    have hchars : ∀ c ∈ '/' :: body, c ∉ ['?', '#'] := hp ▸ h.wellFormed.path
    have hupTo := upTo_append hchars hquery
    simp only [List.cons_append] at hupTo ⊢
    rw [hupTo]
    rfl

theorem normalize_eq_self (hroot : r.path ≠ []) (hdots : NoDots r.path) :
    normalize r.recompose = r.recompose := by
  have hbegins := h.wellFormed.rooted (by rw [h.authority]; rfl)
  obtain ⟨c, body, hp⟩ := List.exists_cons_of_ne_nil hroot
  rw [hp] at hbegins hdots
  have hc : c = '/' := List.mem_singleton.mp (hbegins c rfl)
  subst hc
  have hsame : ({ r with path := Rfc3986.removeDotSegments r.path } : Reference).filled = r := by
    rw [hp, ← removeDotSegments_eq, removeDotSegments_eq_self hdots, Reference.filled,
      if_neg (List.cons_ne_nil _ _), ← hp]
  rw [h.normalize_eq, hsame]

end Located

/-! ## White space and fragments -/

theorem trimmed_eq_self (p : Char → Bool) (hhead : ∀ c ∈ t.head?, p c = false)
    (hlast : ∀ c ∈ t.getLast?, p c = false) : ((t.dropWhile p).reverse.dropWhile p).reverse = t := by
  have hdrop : ∀ u : Text, (∀ c ∈ u.head?, p c = false) → u.dropWhile p = u := by
    intro u hu
    cases u with
    | nil => rfl
    | cons c u =>
      have hc := hu c rfl
      rw [List.dropWhile_cons_of_neg]
      rw [hc]
      exact Bool.false_ne_true
  rw [hdrop t hhead, hdrop, List.reverse_reverse]
  rw [List.head?_reverse]
  exact hlast

theorem getLast?_trimmed (p : Char → Bool)
    (h : c ∈ (((t.dropWhile p).reverse.dropWhile p).reverse).getLast?) : p c = false := by
  rw [List.getLast?_reverse] at h
  have hnot := List.head?_dropWhile_not p (t.dropWhile p).reverse
  rw [Option.mem_def.mp h] at hnot
  simpa using hnot

theorem trim_eq_self (hhead : ∀ c ∈ t.head?, isWhitespace c = false)
    (hlast : ∀ c ∈ t.getLast?, isWhitespace c = false) : trim t = t :=
  trimmed_eq_self isWhitespace hhead hlast

theorem getLast?_trim (h : c ∈ (trim t).getLast?) : isWhitespace c = false :=
  getLast?_trimmed isWhitespace h

theorem mem_of_mem_trim (h : c ∈ trim t) : c ∈ t := by
  rw [trim, List.mem_reverse] at h
  have hinner := List.mem_reverse.mp ((List.dropWhile_sublist _).subset h)
  exact (List.dropWhile_sublist _).subset hinner

theorem stripFragment_eq (t : Text) : stripFragment t = upTo ['#'] t := by
  rw [stripFragment, splitOnce]
  cases hb : beyond ['#'] t with
  | nil =>
    have hsplit := @Rfc3986.upTo_append_beyond ['#'] t
    rw [hb, List.append_nil] at hsplit
    exact hsplit.symm
  | cons c rest => rfl

theorem not_mem_stripFragment (t : Text) : '#' ∉ stripFragment t := by
  rw [stripFragment_eq]
  intro hmem
  exact Rfc3986.not_mem_of_mem_upTo hmem List.mem_cons_self

theorem fragment_eq_none (h : '#' ∉ t) : (parse t).fragment = none := by
  have htext := Rfc3986.recompose_parse t
  cases hf : (parse t).fragment with
  | none => rfl
  | some f =>
    rw [Reference.recompose, hf] at htext
    apply absurd _ h
    rw [← htext]
    simp [component]

theorem not_mem_recompose {r : Reference} (h : r.WellFormed) (hfragment : r.fragment = none) :
    '#' ∉ r.recompose := by
  intro hmem
  rw [Reference.recompose, hfragment] at hmem
  have hpath : '#' ∉ r.path := fun hp =>
    h.path '#' hp (List.mem_cons_of_mem _ List.mem_cons_self)
  have hscheme : '#' ∉ component [] r.scheme [':'] := by
    cases hs : r.scheme with
    | none => exact List.not_mem_nil
    | some s =>
      have hclear : '#' ∉ s := fun hm => (h.scheme s hs).2 '#' hm (by decide)
      simp [component, hclear]
  have hauthority : '#' ∉ component ['/', '/'] r.authority [] := by
    cases ha : r.authority with
    | none => exact List.not_mem_nil
    | some a =>
      have hclear : '#' ∉ a := fun hm => h.authority a ha '#' hm (by decide)
      simp [component, hclear]
  have hquery : '#' ∉ component ['?'] r.query [] := by
    cases hq : r.query with
    | none => exact List.not_mem_nil
    | some q => simp [component, h.query q hq]
  simp only [List.mem_append] at hmem
  obtain (((hmem | hmem) | hmem) | hmem) | hmem := hmem
  · exact hscheme hmem
  · exact hauthority hmem
  · exact hpath hmem
  · exact hquery hmem
  · cases hmem

theorem wellFormed_withoutFragment {r : Reference} (h : r.WellFormed) :
    r.withoutFragment.WellFormed :=
  ⟨h.scheme, h.authority, h.path, h.query, h.rooted⟩

theorem stripFragment_parse (t : Text) : stripFragment t = (parse t).withoutFragment.recompose := by
  have hwell := wellFormed_withoutFragment (Rfc3986.wellFormed_parse t)
  have hclear : ∀ c ∈ (parse t).withoutFragment.recompose, c ∉ ['#'] := by
    intro c hc hmem
    rw [List.mem_singleton.mp hmem] at hc
    exact not_mem_recompose hwell rfl hc
  have hsplit : t = (parse t).withoutFragment.recompose ++ component ['#'] (parse t).fragment [] := by
    conv_lhs => rw [← Rfc3986.recompose_parse t]
    simp [Reference.recompose, Reference.withoutFragment, component]
  have hbegins : Begins ['#'] (component ['#'] (parse t).fragment []) := by
    intro c hc
    cases hf : (parse t).fragment with
    | none =>
      rw [hf] at hc
      cases hc
    | some f =>
      rw [hf] at hc
      cases hc
      exact List.mem_cons_self
  rw [stripFragment_eq]
  conv_lhs => rw [hsplit]
  exact upTo_append hclear hbegins

/-! ## Absolute URLs and relative references -/

theorem parse_absolute (hvalid : validScheme s = true) (rest : Text) : parse (s ++ "://".toList ++ rest) =
      Rfc3986.parsePath (some s) (some (upTo ['/', '?', '#'] rest)) (beyond ['/', '?', '#'] rest) := by
  obtain ⟨hne, hclear⟩ := not_mem_of_validScheme hvalid
  have hbegins : Begins [':', '/', '?', '#'] (':' :: '/' :: '/' :: rest) := by
    intro c hc
    cases hc
    exact List.mem_cons_self
  have happend : s ++ "://".toList ++ rest = s ++ ':' :: '/' :: '/' :: rest := by
    rw [List.append_assoc]
    rfl
  obtain ⟨c, s', rfl⟩ := List.exists_cons_of_ne_nil hne
  rw [parse, happend, upTo_append hclear hbegins, beyond_append hclear hbegins]
  rfl

theorem located_of_absolute (h : Absolute url) : ∃ s a, Located (parse url).withoutFragment s a := by
  obtain ⟨s, rest, hvalid, rfl⟩ := h
  have hwell := wellFormed_withoutFragment
    (Rfc3986.wellFormed_parse (s ++ "://".toList ++ rest))
  obtain ⟨hs, ha, _⟩ := Rfc3986.parseTail_scheme (some s) (some (upTo ['/', '?', '#'] rest))
    (upTo ['?', '#'] (beyond ['/', '?', '#'] rest)) (beyond ['?', '#'] (beyond ['/', '?', '#'] rest))
  refine ⟨s, upTo ['/', '?', '#'] rest, hwell, ?_, ?_, rfl, hvalid⟩
  · rw [parse_absolute hvalid]
    exact hs
  · rw [parse_absolute hvalid]
    exact ha

/-- No colon stands before the first slash, question mark or number sign. -/
def NoColon (reference : Text) : Prop := ':' ∉ upTo ['/', '?', '#'] reference

theorem not_absolute_of_noColon (h : NoColon t) : ¬ Absolute t := by
  rintro ⟨s, rest, hvalid, rfl⟩
  have hclear : ∀ c ∈ s ++ [':'], c ∉ ['/', '?', '#'] := by
    intro c hc
    rw [List.mem_append, List.mem_singleton] at hc
    obtain hc | rfl := hc
    · exact fun hmem => (not_mem_of_validScheme hvalid).2 c hc (List.mem_cons_of_mem _ hmem)
    · decide
  have hbegins : Begins ['/', '?', '#'] ('/' :: '/' :: rest) := by
    intro c hc
    cases hc
    exact List.mem_cons_self
  have happend : s ++ "://".toList ++ rest = (s ++ [':']) ++ '/' :: '/' :: rest := by
    simp
  rw [NoColon, happend, upTo_append hclear hbegins] at h
  exact h (List.mem_append_right _ (List.mem_singleton_self _))

theorem rsplitOnce_of_mem {sep : Char} (h : sep ∈ t) :
    ∃ before after, t = before ++ sep :: after ∧ rsplitOnce sep t = some (before, after) ∧
      (beyond [sep] t.reverse).reverse = before ++ [sep] := by
  have hsplit := @Rfc3986.upTo_append_beyond [sep] t.reverse
  cases hb : beyond [sep] t.reverse with
  | nil =>
    rw [hb, List.append_nil] at hsplit
    rw [← List.mem_reverse, ← hsplit] at h
    exact absurd List.mem_cons_self (Rfc3986.not_mem_of_mem_upTo h)
  | cons c rest =>
    have hc : c = sep := List.mem_singleton.mp (Rfc3986.mem_stops_of_beyond_cons hb)
    subst hc
    refine ⟨rest.reverse, (upTo [c] t.reverse).reverse, ?_, ?_, ?_⟩
    · rw [hb] at hsplit
      have ht := congrArg List.reverse hsplit
      simp only [List.reverse_append, List.reverse_cons, List.reverse_reverse, List.append_assoc,
        List.singleton_append] at ht
      exact ht.symm
    · rw [rsplitOnce, splitOnce, hb]
      rfl
    · rw [List.reverse_cons]

theorem parse_of_noColon (h : NoColon t) : parse t = Rfc3986.parseHier none t := by
  unfold parse
  split
  · rename_i c s rest hupTo hbeyond
    have hsplit := @Rfc3986.upTo_append_beyond [':', '/', '?', '#'] t
    rw [hupTo, hbeyond] at hsplit
    have hclear : ∀ d ∈ c :: s, d ∉ ['/', '?', '#'] := by
      intro d hd hmem
      rw [← hupTo] at hd
      exact Rfc3986.not_mem_of_mem_upTo hd (List.mem_cons_of_mem _ hmem)
    have hcolon : ':' ∈ upTo ['/', '?', '#'] (c :: s ++ ':' :: rest) := by
      rw [upTo, List.takeWhile_append_of_pos (by simpa using hclear), List.mem_append]
      right
      rw [List.takeWhile_cons_of_pos (by decide)]
      exact List.mem_cons_self
    rw [NoColon, ← hsplit] at h
    exact absurd hcolon h
  · rfl

/-- The base path up to its last slash stands before a merged path. -/
theorem mergePaths_eq {B : Reference} {s a : Text} (h : Located B s a) (path : Text) :
    mergePaths B.filled.path path = Rfc3986.merge B path ∧
      ∃ before, Rfc3986.merge B path = before ++ path ∧ Begins ['/'] before ∧ before ≠ [] ∧
        ∀ c ∈ before, c ∉ ['?', '#'] := by
  have hroot := h.wellFormed.rooted (by rw [h.authority]; rfl)
  rw [Reference.filled, Rfc3986.merge, h.authority]
  by_cases hpath : B.path = []
  · simp only [hpath, if_true, Option.isSome_some, and_self]
    refine ⟨by rfl, ['/'], rfl, ?_, List.cons_ne_nil _ _, by simp⟩
    intro c hc
    cases hc
    exact List.mem_cons_self
  · obtain ⟨c, body, hp⟩ := List.exists_cons_of_ne_nil hpath
    have hc : c = '/' := by
      rw [hp] at hroot
      exact List.mem_singleton.mp (hroot c rfl)
    have hmem : '/' ∈ B.path := by
      rw [hp, hc]
      exact List.mem_cons_self
    obtain ⟨before, after, hsplit, hrsplit, hbeyond⟩ := rsplitOnce_of_mem hmem
    simp only [hpath, if_false, and_false]
    rw [mergePaths, hrsplit, hbeyond]
    refine ⟨rfl, before ++ ['/'], rfl, ?_, by simp, ?_⟩
    · intro d hd
      apply hroot
      rw [hsplit]
      cases before <;> exact hd
    · intro d hd
      apply h.wellFormed.path
      rw [hsplit]
      simp only [List.mem_append, List.mem_cons, List.not_mem_nil, or_false] at hd ⊢
      exact hd.imp_right Or.inl

/-- What stands at the place of a reference before its dot segments are removed. -/
structure Unresolved (base r : Text) (Y : Reference) (s a w : Text) : Prop where
  located : Located Y s a
  text : Y.recompose = w ++ r
  target : Rfc3986.target (parse base) (parse r) =
    { Y with path := Rfc3986.removeDotSegments Y.path }

/-- A reference that names a place of its own. -/
def Own (r : Text) : Prop :=
  (parse r).scheme.isSome ∨ (parse r).authority.isSome ∨ (parse r).path ≠ []

theorem resolveReference_absolute (base reference : Text) (hvalid : validScheme s = true)
    (hr : trim (stripFragment reference) = s ++ "://".toList ++ rest) :
    ∃ Y s a w, Unresolved base (trim (stripFragment reference)) Y s a w ∧
      resolveReference base reference = normalize Y.recompose := by
  have habs : Absolute (trim (stripFragment reference)) := ⟨s, rest, hvalid, hr⟩
  obtain ⟨s, a, hlocated⟩ := located_of_absolute habs
  have hfragment : (parse (trim (stripFragment reference))).fragment = none :=
    fragment_eq_none fun hmem => not_mem_stripFragment _ (mem_of_mem_trim hmem)
  have hsame : (parse (trim (stripFragment reference))).withoutFragment =
      parse (trim (stripFragment reference)) := by
    rw [Reference.withoutFragment, ← hfragment]
  rw [hsame] at hlocated
  refine ⟨parse (trim (stripFragment reference)), s, a, [], ⟨hlocated, ?_, ?_⟩, ?_⟩
  · rw [Rfc3986.recompose_parse, List.nil_append]
  · rw [Rfc3986.target, hlocated.scheme]
  · rw [resolveReference, if_pos (hasScheme_iff.mpr habs), Rfc3986.recompose_parse]

/-- A scheme before a text that begins with an authority. -/
theorem resolveReference_network {base : Text} (hbase : Absolute base) (reference : Text)
    (hr : trim (stripFragment reference) = '/' :: '/' :: rest) :
    ∃ Y s a w, Unresolved base (trim (stripFragment reference)) Y s a w ∧
      resolveReference base reference = normalize Y.recompose := by
  obtain ⟨s, _, hB⟩ := located_of_absolute hbase
  have hno : NoColon (trim (stripFragment reference)) := by
    rw [hr, NoColon, Rfc3986.upTo_cons_of_mem List.mem_cons_self]
    exact List.not_mem_nil
  have hfragment : (parse (trim (stripFragment reference))).fragment = none :=
    fragment_eq_none fun hmem => not_mem_stripFragment _ (mem_of_mem_trim hmem)
  have hwell := Rfc3986.wellFormed_parse (trim (stripFragment reference))
  have htext := Rfc3986.recompose_parse (trim (stripFragment reference))
  have hparse : parse (trim (stripFragment reference)) = Rfc3986.parsePath none
      (some (upTo ['/', '?', '#'] rest)) (beyond ['/', '?', '#'] rest) := by
    rw [parse_of_noColon hno, hr]
    rfl
  obtain ⟨hscheme, hauthority, _⟩ := Rfc3986.parseTail_scheme none
    (some (upTo ['/', '?', '#'] rest)) (upTo ['?', '#'] (beyond ['/', '?', '#'] rest))
    (beyond ['?', '#'] (beyond ['/', '?', '#'] rest))
  rw [← Rfc3986.parsePath, ← hparse] at hscheme hauthority
  have hnot : hasScheme (trim (stripFragment reference)) = false := by
    rw [Bool.eq_false_iff, ne_eq, hasScheme_iff]
    exact not_absolute_of_noColon hno
  have hB' : schemeOf (stripFragment base) = some s := by
    rw [stripFragment_parse, hB.schemeOf_eq]
  have hY : ({ parse (trim (stripFragment reference)) with scheme := some s } : Reference).recompose =
      s ++ [':'] ++ trim (stripFragment reference) := by
    conv_rhs => rw [← htext]
    simp [Reference.recompose, component, hscheme]
  refine ⟨{ parse (trim (stripFragment reference)) with scheme := some s }, s, _, s ++ [':'],
    ⟨⟨⟨?_, hwell.authority, hwell.path, hwell.query, hwell.rooted⟩, rfl, hauthority, hfragment,
      hB.valid⟩, hY, ?_⟩, ?_⟩
  · intro s' hs'
    cases hs'
    exact not_mem_of_validScheme hB.valid
  · rw [Rfc3986.target, hscheme, hauthority]
    have hs : (parse base).scheme = some s := hB.scheme
    rw [hs]
  · rw [hY, resolveReference, hnot, hr, if_neg Bool.false_ne_true]
    simp only [hB', Option.getD_some]
    simp

/-- A path of its own is merged with the path of the base. -/
theorem resolveReference_path {base : Text} (hbase : Absolute base) (reference : Text)
    (hr : trim (stripFragment reference) = c :: rest)
    (hno : NoColon (c :: rest)) (hquery : c ≠ '?') (hnetwork : ∀ t, c :: rest ≠ '/' :: '/' :: t) :
    ∃ Y s a w, Unresolved base (c :: rest) Y s a w ∧
      resolveReference base reference = normalize Y.recompose := by
  obtain ⟨s, a, hB⟩ := located_of_absolute hbase
  have hhash : '#' ∉ c :: rest := by
    rw [← hr]
    exact fun hmem => not_mem_stripFragment _ (mem_of_mem_trim hmem)
  have hfragment := fragment_eq_none hhash
  have hwell := Rfc3986.wellFormed_parse (c :: rest)
  have hparse : parse (c :: rest) = Rfc3986.parsePath none none (c :: rest) := by
    rw [parse_of_noColon hno, Rfc3986.parseHier]
    exact hnetwork
  obtain ⟨hscheme, hauthority, hpath⟩ := Rfc3986.parseTail_scheme none none
    (upTo ['?', '#'] (c :: rest)) (beyond ['?', '#'] (c :: rest))
  rw [← Rfc3986.parsePath, ← hparse] at hscheme hauthority hpath
  have hclear : c ∉ ['?', '#'] := by
    have hc : c ≠ '#' := fun heq => hhash (heq ▸ List.mem_cons_self)
    simp [hquery, hc]
  rw [Rfc3986.upTo_cons_of_not_mem hclear] at hpath
  have hne : (parse (c :: rest)).path ≠ [] := by
    rw [hpath]
    exact List.cons_ne_nil _ _
  have htext : c :: rest = (parse (c :: rest)).path ++ component ['?'] (parse (c :: rest)).query [] := by
    have h := Rfc3986.recompose_parse (c :: rest)
    rw [Reference.recompose, hscheme, hauthority, hfragment] at h
    simpa [component] using h.symm
  have hsplit : splitQuery (c :: rest) = ((parse (c :: rest)).path, (parse (c :: rest)).query) := by
    have hmark : '?' ∉ (parse (c :: rest)).path := fun hmem =>
      hwell.path '?' hmem List.mem_cons_self
    conv_lhs => rw [htext]
    exact splitQuery_append hmark _
  -- the path before its dot segments are removed
  obtain ⟨merged, hcode, hrfc, before, hmerged, hbegins, hchars⟩ : ∃ merged,
      (if (parse (c :: rest)).path.head? = some '/' then (parse (c :: rest)).path
        else mergePaths (pathOf (stripFragment base)) (parse (c :: rest)).path) = merged ∧
      Rfc3986.mergedPath (parse base) (parse (c :: rest)) = Rfc3986.removeDotSegments merged ∧
      ∃ before, merged = before ++ (parse (c :: rest)).path ∧ Begins ['/'] merged ∧
        ∀ d ∈ before, d ∉ ['?', '#'] := by
    rw [Rfc3986.mergedPath, if_neg hne]
    by_cases hhead : (parse (c :: rest)).path.head? = some '/'
    · rw [if_pos hhead, if_pos hhead]
      refine ⟨_, rfl, rfl, [], rfl, ?_, fun d hd => absurd hd List.not_mem_nil⟩
      intro d hd
      rw [hhead] at hd
      cases hd
      exact List.mem_cons_self
    · obtain ⟨hmerge, before, hbefore, hroot, hnil, hclear⟩ :=
        mergePaths_eq hB (parse (c :: rest)).path
      rw [if_neg hhead, if_neg hhead, stripFragment_parse, hB.pathOf_eq, hmerge]
      refine ⟨_, rfl, rfl, before, hbefore, ?_, hclear⟩
      rw [hbefore]
      intro d hd
      cases before with
      | nil => exact absurd rfl hnil
      | cons e before => exact hroot d hd
  have hmergedNe : merged ≠ [] := by
    rw [hmerged]
    exact fun h => hne (List.append_eq_nil_iff.mp h).2
  have hY : Located ⟨some s, some a, merged, (parse (c :: rest)).query, none⟩ s a := by
    refine ⟨⟨?_, ?_, ?_, hwell.query, fun _ => hbegins⟩, rfl, rfl, rfl, hB.valid⟩
    · intro s' hs'
      cases hs'
      exact not_mem_of_validScheme hB.valid
    · intro a' ha'
      cases ha'
      exact hB.wellFormed.authority a hB.authority
    · intro d hd
      rw [hmerged, List.mem_append] at hd
      exact hd.elim (hchars d) (hwell.path d)
  refine ⟨_, s, a, s ++ "://".toList ++ a ++ before, ⟨hY, ?_, ?_⟩, ?_⟩
  · rw [hY.recompose_eq, hmerged]
    conv_rhs => rw [htext]
    simp
  · have hs : (parse base).scheme = some s := hB.scheme
    have ha : (parse base).authority = some a := hB.authority
    rw [Rfc3986.target, hscheme, hauthority, hs, ha, hrfc, if_neg hne, hfragment]
  · have hnot : hasScheme (c :: rest) = false := by
      rw [Bool.eq_false_iff, ne_eq, hasScheme_iff]
      exact not_absolute_of_noColon hno
    rw [resolveReference, hr, hnot, if_neg Bool.false_ne_true, normalize, hY.afterPathStart_eq,
      hY.splitQuery_eq, hY.originPrefix_eq]
    simp only [hmergedNe, if_false]
    split
    · rename_i t heq
      exact absurd heq (hnetwork t)
    · rename_i heq
      cases heq
    · rename_i t heq
      cases heq
      exact absurd rfl hquery
    · rename_i hq
      rw [hsplit]
      simp only [hcode]
      rw [stripFragment_parse, hB.originPrefix_eq]

/-! ## Resolving once and again -/

theorem nonspace_of_validScheme (h : validScheme s = true) : ∀ c ∈ s.head?, isWhitespace c = false := by
  intro c hc
  cases s with
  | nil => cases hc
  | cons d s =>
    cases hc
    rw [validScheme, Bool.and_eq_true] at h
    have hrange : c.toNat < 0x80 ∧ 0x20 < c.toNat := by
      have halpha := h.1
      change (decide (c.val ≥ 'A'.val ∧ c.val ≤ 'Z'.val) ||
        (decide (c.val ≥ 'a'.val) && decide (c.val ≤ 'z'.val))) = true at halpha
      simp only [Bool.or_eq_true, Bool.and_eq_true, decide_eq_true_eq, ge_iff_le, UInt32.le_iff_toNat_le] at halpha
      change c.val.toNat < 0x80 ∧ 0x20 < c.val.toNat
      have h1 : 'A'.val.toNat = 65 := rfl
      have h2 : 'Z'.val.toNat = 90 := rfl
      have h3 : 'a'.val.toNat = 97 := rfl
      have h4 : 'z'.val.toNat = 122 := rfl
      omega
    simp only [isWhitespace, Bool.or_eq_false_iff, Bool.and_eq_false_iff, decide_eq_false_iff_not]
    omega

theorem mem_removeDotSegments {body : Text} (h : c ∈ removeDotSegments ('/' :: body)) : c ∈ '/' :: body := by
  have hkept := keepSegments_ne_nil (List.splitOn_ne_nil '/' body) []
  rw [removeDotSegments, ← slashed_eq_intercalate hkept, slashed, List.mem_flatMap] at h
  obtain ⟨seg, hseg, hc⟩ := h
  rw [List.mem_cons] at hc
  obtain rfl | hc := hc
  · exact List.mem_cons_self
  · obtain hs | ⟨_, hs | rfl⟩ := mem_keepSegments hseg
    · cases hs
    · rw [← slashed_splitOn body, slashed, List.mem_flatMap]
      exact ⟨seg, hs, List.mem_cons_of_mem _ hc⟩
    · cases hc

/-- A reference with the dot segments of its path removed. -/
def undotted (Y : Reference) : Reference :=
  ({ Y with path := Rfc3986.removeDotSegments Y.path } : Reference).filled

namespace Located

variable {Y : Reference} {s a : Text} (h : Located Y s a)

include h

theorem path_undotted :
    ∃ body, (undotted Y).path = removeDotSegments ('/' :: body) ∧
      (Y.path = '/' :: body ∨ Y.path = [] ∧ body = []) := by
  have hroot := h.wellFormed.rooted (by rw [h.authority]; rfl)
  cases hp : Y.path with
  | nil =>
    refine ⟨[], ?_, Or.inr ⟨rfl, rfl⟩⟩
    have hnil : Rfc3986.removeDotSegments [] = [] := by
      simp [Rfc3986.removeDotSegments, Rfc3986.dots]
    rw [undotted, Reference.filled, hp, hnil, if_pos rfl, removeDotSegments_eq,
      Rfc3986.removeDotSegments, Rfc3986.dots_slash]
    rfl
  | cons c body =>
    rw [hp] at hroot
    have hc : c = '/' := List.mem_singleton.mp (hroot c rfl)
    subst hc
    refine ⟨body, ?_, Or.inl rfl⟩
    have hne : removeDotSegments ('/' :: body) ≠ [] := List.cons_ne_nil _ _
    rw [undotted, Reference.filled, hp, ← removeDotSegments_eq]
    simp only [hne, if_false]

theorem undotted_located : Located (undotted Y) s a := by
  obtain ⟨body, hpath, hbody⟩ := h.path_undotted
  refine ⟨⟨h.wellFormed.scheme, h.wellFormed.authority, ?_, h.wellFormed.query, ?_⟩, h.scheme,
    h.authority, h.fragment, h.valid⟩
  · intro c hc
    rw [hpath] at hc
    have hmem := mem_removeDotSegments hc
    obtain hY | ⟨_, rfl⟩ := hbody
    · rw [← hY] at hmem
      exact h.wellFormed.path c hmem
    · rw [List.mem_singleton.mp hmem]
      decide
  · intro _ c hc
    rw [hpath, removeDotSegments] at hc
    cases hc
    exact List.mem_cons_self

theorem undotted_ne_nil : (undotted Y).path ≠ [] := by
  obtain ⟨body, hpath, _⟩ := h.path_undotted
  rw [hpath]
  exact List.cons_ne_nil _ _

theorem undotted_noDots : NoDots (undotted Y).path := by
  obtain ⟨body, hpath, _⟩ := h.path_undotted
  rw [hpath]
  exact noDots_removeDotSegments body

theorem getLast?_undotted :
    (undotted Y).recompose.getLast? = some '/' ∨
      (undotted Y).recompose.getLast? = Y.recompose.getLast? := by
  have hquery : (undotted Y).query = Y.query := rfl
  rw [h.undotted_located.recompose_eq, h.recompose_eq, hquery]
  cases hq : Y.query with
  | some q =>
    right
    have hne : component ['?'] (some q) [] ≠ [] := List.cons_ne_nil _ _
    simp only [← List.append_assoc, List.getLast?_append_of_ne_nil _ hne]
  | none =>
    obtain ⟨body, hpath, hbody⟩ := h.path_undotted
    have hne := h.undotted_ne_nil
    have hnone : component ['?'] none [] = [] := rfl
    rw [hnone, List.append_nil, List.append_nil, ← List.append_assoc, ← List.append_assoc,
      List.getLast?_append_of_ne_nil _ hne, hpath]
    obtain hlast | hlast := getLast?_removeDotSegments body
    · exact Or.inl hlast
    · obtain hY | ⟨_, rfl⟩ := hbody
      · right
        rw [hlast, hY, List.getLast?_append_of_ne_nil _ (List.cons_ne_nil _ _)]
      · exact Or.inl hlast

theorem resolveReference_eq_self (hroot : Y.path ≠ []) (hdots : NoDots Y.path)
    (hlast : ∀ c ∈ Y.recompose.getLast?, isWhitespace c = false) (other : Text) :
    resolveReference other Y.recompose = Y.recompose := by
  have hstrip : stripFragment Y.recompose = Y.recompose := by
    rw [stripFragment_eq]
    apply Rfc3986.upTo_eq_self
    intro c hc hmem
    rw [List.mem_singleton.mp hmem] at hc
    exact not_mem_recompose h.wellFormed h.fragment hc
  have hhead : ∀ c ∈ Y.recompose.head?, isWhitespace c = false := by
    rw [h.recompose_eq, List.append_assoc,
      List.head?_append_of_ne_nil _ (not_mem_of_validScheme h.valid).1]
    exact nonspace_of_validScheme h.valid
  have habs : hasScheme Y.recompose = true := by
    rw [hasScheme, h.schemeOf_eq]
    rfl
  rw [resolveReference, hstrip, trim_eq_self hhead hlast, habs]
  exact h.normalize_eq_self hroot hdots

end Located

/-- What is resolved: the reference without its fragment and without white space around it. -/
def bare (reference : Text) : Text := trim (stripFragment reference)

theorem resolveReference_own {base reference : Text} (hbase : Absolute base)
    (href : Absolute (bare reference) ∨ NoColon (bare reference)) (hown : Own (bare reference)) :
    ∃ Y s a w, Unresolved base (bare reference) Y s a w ∧
      resolveReference base reference = normalize Y.recompose := by
  obtain ⟨s, rest, hvalid, hr⟩ | hno := href
  · exact resolveReference_absolute base reference hvalid hr
  · cases hr : bare reference with
    | nil =>
      rw [hr] at hown
      obtain h | h | h := hown
      · cases h
      · cases h
      · exact absurd rfl h
    | cons c rest =>
      rw [hr] at hown hno
      by_cases hnetwork : ∃ t, c :: rest = '/' :: '/' :: t
      · obtain ⟨t, ht⟩ := hnetwork
        rw [← hr]
        exact resolveReference_network hbase reference (hr.trans ht)
      · by_cases hquery : c = '?'
        · subst hquery
          exfalso
          have hparse : parse ('?' :: rest) =
              Rfc3986.parseTail none none [] ('?' :: rest) := by
            rw [parse_of_noColon hno]
            rfl
          rw [Own, hparse] at hown
          obtain h | h | h := hown
          · cases h
          · cases h
          · exact h rfl
        · exact resolveReference_path hbase reference hr hno hquery
            fun t ht => hnetwork ⟨t, ht⟩

theorem Unresolved.resolved {base r : Text} {Y : Reference} {s a w : Text}
    (h : Unresolved base r Y s a w) :
    normalize Y.recompose = (Rfc3986.target (parse base) (parse r)).withoutFragment.filled.recompose ∧
      (Rfc3986.target (parse base) (parse r)).withoutFragment.filled = undotted Y := by
  have hsame : (Rfc3986.target (parse base) (parse r)).withoutFragment.filled = undotted Y := by
    rw [h.target, Reference.withoutFragment, undotted, ← h.located.fragment]
  rw [hsame]
  exact ⟨h.located.normalize_eq, rfl⟩

/-- The reference takes the path of the base. -/
theorem resolveReference_query {base reference q : Text} (hbase : Absolute base)
    (hr : bare reference = '?' :: q) :
    ∃ s a, Located (Rfc3986.target (parse base) (parse ('?' :: q))).withoutFragment.filled s a ∧
      (Rfc3986.target (parse base) (parse ('?' :: q))).withoutFragment.filled.path =
        (parse base).filled.path ∧
      (Rfc3986.target (parse base) (parse ('?' :: q))).withoutFragment.filled.query = some q ∧
      resolveReference base reference =
        (Rfc3986.target (parse base) (parse ('?' :: q))).withoutFragment.filled.recompose := by
  obtain ⟨s, a, hB⟩ := located_of_absolute hbase
  have hhash : '#' ∉ '?' :: q := by
    rw [← hr]
    exact fun hmem => not_mem_stripFragment _ (mem_of_mem_trim hmem)
  have hq : ∀ c ∈ q, c ∉ ['#'] := by
    intro c hc hmem
    rw [List.mem_singleton.mp hmem] at hc
    exact hhash (List.mem_cons_of_mem _ hc)
  have hno : NoColon ('?' :: q) := by
    rw [NoColon, Rfc3986.upTo_cons_of_mem (by decide)]
    exact List.not_mem_nil
  have hparse : parse ('?' :: q) = ⟨none, none, [], some q, none⟩ := by
    rw [parse_of_noColon hno]
    change Rfc3986.Reference.mk none none [] (some (upTo ['#'] q)) (beyond ['#'] q).tail? = _
    rw [Rfc3986.upTo_eq_self hq, Rfc3986.beyond_eq_nil hq]
    rfl
  have htarget : (Rfc3986.target (parse base) (parse ('?' :: q))).withoutFragment.filled =
      { (parse base).withoutFragment.filled with query := some q } := by
    rw [hparse]
    rfl
  have hZ : Located { (parse base).withoutFragment.filled with query := some q } s a := by
    refine ⟨⟨hB.wellFormed.scheme, hB.wellFormed.authority, ?_, ?_, ?_⟩, hB.scheme, hB.authority,
      rfl, hB.valid⟩
    · intro c hc
      change c ∈ (if (parse base).path = [] then ['/'] else (parse base).path) at hc
      split at hc
      · rw [List.mem_singleton.mp hc]
        decide
      · exact hB.wellFormed.path c hc
    · intro q' hq'
      cases hq'
      exact fun hmem => hhash (List.mem_cons_of_mem _ hmem)
    · intro hsome c hc
      change c ∈ (if (parse base).path = [] then ['/'] else (parse base).path).head? at hc
      split at hc
      · cases hc
        exact List.mem_cons_self
      · exact hB.wellFormed.rooted hsome c hc
  rw [htarget]
  refine ⟨s, a, hZ, rfl, rfl, ?_⟩
  have hnot : hasScheme ('?' :: q) = false := by
    rw [Bool.eq_false_iff, ne_eq, hasScheme_iff]
    exact not_absolute_of_noColon hno
  have hr' : trim (stripFragment reference) = '?' :: q := hr
  rw [resolveReference, hr', hnot, if_neg Bool.false_ne_true, hZ.recompose_eq]
  change withQuery (originPrefix (stripFragment base)) (pathOf (stripFragment base)) (some q) = _
  rw [stripFragment_parse, hB.originPrefix_eq, hB.pathOf_eq]
  simp [withQuery, component]

theorem own_of_absolute {r : Text} (h : Absolute r) : Own r := by
  obtain ⟨s, a, hlocated⟩ := located_of_absolute h
  have hs : (parse r).scheme = some s := hlocated.scheme
  left
  rw [hs]
  rfl

theorem own_of_noColon (h : NoColon (c :: rest)) (hc : c ∉ ['?', '#']) : Own (c :: rest) := by
  right
  rw [parse_of_noColon h]
  by_cases hnetwork : ∃ t, c :: rest = '/' :: '/' :: t
  · obtain ⟨t, ht⟩ := hnetwork
    left
    obtain ⟨_, ha, _⟩ := Rfc3986.parseTail_scheme none (some (upTo ['/', '?', '#'] t))
      (upTo ['?', '#'] (beyond ['/', '?', '#'] t)) (beyond ['?', '#'] (beyond ['/', '?', '#'] t))
    rw [ht, Rfc3986.parseHier, Rfc3986.parsePath, ha]
    rfl
  · right
    obtain ⟨_, _, hpath⟩ := Rfc3986.parseTail_scheme none none (upTo ['?', '#'] (c :: rest))
      (beyond ['?', '#'] (c :: rest))
    rw [Rfc3986.parseHier, Rfc3986.parsePath, hpath, Rfc3986.upTo_cons_of_not_mem hc]
    · exact List.cons_ne_nil _ _
    · intro t ht
      exact hnetwork ⟨t, ht⟩

theorem resolveReference_empty {base reference : Text} (hr : bare reference = []) :
    resolveReference base reference = stripFragment base ∧
      (Rfc3986.target (parse base) (parse [])).withoutFragment.recompose = stripFragment base := by
  have hr' : trim (stripFragment reference) = [] := hr
  constructor
  · rw [resolveReference, hr']
    rfl
  · rw [stripFragment_parse]
    rfl

/-- A resolved reference is the target of the RFC, with an empty path filled in; a path of its own leaves
no dot segment; and the result stands for itself, unless it has taken over a path with dot segments. -/
theorem resolveReference_rfc {base reference : Text} (hbase : Absolute base)
    (href : Absolute (bare reference) ∨ NoColon (bare reference)) :
    let target := (Rfc3986.target (parse base) (parse (bare reference))).withoutFragment
    let resolved := resolveReference base reference
    (bare reference ≠ [] → resolved = target.filled.recompose) ∧
    (bare reference = [] → resolved = target.recompose) ∧
    ((parse (bare reference)).path ≠ [] → NoDots (parse resolved).path) ∧
    (Own (bare reference) ∨ NoDots (parse base).path ∧ (bare reference = [] →
        (parse base).path ≠ [] ∧ ∀ c ∈ (stripFragment base).getLast?, isWhitespace c = false) →
      ∀ other, resolveReference other resolved = resolved) := by
  intro target resolved
  have hlast : ∀ c ∈ (bare reference).getLast?, isWhitespace c = false :=
    fun c hc => getLast?_trim hc
  by_cases hown : Own (bare reference)
  · obtain ⟨Y, s, a, w, hY, hresolved⟩ := resolveReference_own hbase href hown
    obtain ⟨hnormal, hundotted⟩ := hY.resolved
    have hZ := hY.located.undotted_located
    have heq : resolved = (undotted Y).recompose := by
      rw [← hundotted, ← hnormal]
      exact hresolved
    have hne : bare reference ≠ [] := by
      intro hnil
      rw [hnil] at hown
      obtain h | h | h := hown
      · cases h
      · cases h
      · exact absurd rfl h
    refine ⟨fun _ => hresolved.trans hnormal, fun hnil => absurd hnil hne, fun _ => ?_, fun _ => ?_⟩
    · rw [heq, Rfc3986.parse_recompose hZ.wellFormed (by rw [hZ.scheme]; rfl)
        (by rw [hZ.authority]; rfl)]
      exact hY.located.undotted_noDots
    · rw [heq]
      apply hZ.resolveReference_eq_self hY.located.undotted_ne_nil hY.located.undotted_noDots
      intro c hc
      obtain h | h := hY.located.getLast?_undotted
      · rw [h] at hc
        cases hc
        decide
      · rw [h, hY.text, List.getLast?_append_of_ne_nil _ hne] at hc
        exact hlast c hc
  · have hpath : (parse (bare reference)).path = [] := by
      by_contra hne
      exact hown (Or.inr (Or.inr hne))
    obtain ⟨s, a, hB⟩ := located_of_absolute hbase
    have hhash : '#' ∉ bare reference := fun hmem =>
      not_mem_stripFragment _ (mem_of_mem_trim hmem)
    cases hr : bare reference with
    | nil =>
      obtain ⟨hempty, htarget⟩ := @resolveReference_empty base reference hr
      have heq : resolved = (parse base).withoutFragment.recompose :=
        hempty.trans (stripFragment_parse base)
      refine ⟨fun h => absurd rfl h, fun _ => ?_, fun h => absurd rfl h, fun h other => ?_⟩
      · rw [show target.recompose = stripFragment base by rw [← htarget, ← hr]]
        exact hempty
      · obtain h | ⟨hdots, hfine⟩ := h
        · rw [hr] at hown
          exact absurd h hown
        · obtain ⟨hroot, hspace⟩ := hfine rfl
          rw [stripFragment_parse] at hspace
          rw [heq]
          exact hB.resolveReference_eq_self hroot hdots hspace other
    | cons c q =>
      have hc : c = '?' := by
        rw [hr] at href hown hhash
        have hne : c ≠ '#' := fun heq => hhash (heq ▸ List.mem_cons_self)
        obtain habs | hno := href
        · exact absurd (own_of_absolute habs) hown
        · by_contra hmark
          exact hown (own_of_noColon hno (by simp [hmark, hne]))
      subst hc
      obtain ⟨s, a, hZ, hpathZ, hqueryZ, hresolved⟩ := resolveReference_query hbase hr
      rw [hr] at hpath
      have heq : resolved = target.filled.recompose := by
        rw [show target = (Rfc3986.target (parse base) (parse ('?' :: q))).withoutFragment by
          rw [← hr]]
        exact hresolved
      refine ⟨fun _ => heq, fun h => absurd h (List.cons_ne_nil _ _), fun h => absurd hpath h,
        fun h other => ?_⟩
      obtain h | ⟨hdots, _⟩ := h
      · rw [hr] at hown
        exact absurd h hown
      · rw [heq, show target = (Rfc3986.target (parse base) (parse ('?' :: q))).withoutFragment by
          rw [← hr]]
        apply hZ.resolveReference_eq_self
        · rw [hpathZ, Reference.filled]
          simp only
          split
          · exact List.cons_ne_nil _ _
          · assumption
        · rw [hpathZ, Reference.filled]
          simp only
          split
          · decide +kernel
          · exact hdots
        · intro c hc
          have hne : component ['?'] (some q) [] ≠ [] := List.cons_ne_nil _ _
          rw [hZ.recompose_eq, hqueryZ] at hc
          simp only [← List.append_assoc, List.getLast?_append_of_ne_nil _ hne] at hc
          apply hlast
          rw [hr]
          simpa [component] using hc

theorem resolveReference_rfc_up :
    resolveReference "http://a/b/c/d;p?q".toList "../g".toList =
      (Rfc3986.target (parse "http://a/b/c/d;p?q".toList)
        (parse "../g".toList)).withoutFragment.filled.recompose := by
  have hbase : Absolute "http://a/b/c/d;p?q".toList :=
    ⟨"http".toList, "a/b/c/d;p?q".toList, by decide +kernel, by decide +kernel⟩
  have hbare : bare "../g".toList = "../g".toList := by decide +kernel
  have href : NoColon (bare "../g".toList) := by
    rw [hbare, NoColon]
    decide +kernel
  have h := (resolveReference_rfc hbase (Or.inr href)).1
  rw [hbare] at h
  exact h (by decide +kernel)

/-- A query alone takes the path of the base with its dot segments, and these go the next time. -/
theorem resolveReference_changes :
    ¬ ∀ base reference other, Absolute base → Absolute reference ∨ NoColon reference →
      resolveReference other (resolveReference base reference) =
        resolveReference base reference := by
  intro h
  have hbase : Absolute "http://a/b/../c?q".toList :=
    ⟨"http".toList, "a/b/../c?q".toList, by decide +kernel, by decide +kernel⟩
  have href : NoColon "?y".toList := by
    rw [NoColon]
    decide +kernel
  have hy := h _ _ "http://a/".toList hbase (Or.inr href)
  revert hy
  decide +kernel

end Noeta.Ext
