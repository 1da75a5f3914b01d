import Mathlib.Data.List.Basic
import Mathlib.Data.List.TakeWhile

/-!
# URI references

References as RFC 3986 has them: the five components, how a text falls into them (Appendix B), how they
are put together (5.3), and the target of a reference against a base (5.2).
-/

namespace Noeta.Lib.Rfc3986

abbrev Text := List Char

/-! ## Delimited text -/

/-- The text before the first of the given characters. -/
def upTo (stops : List Char) (t : Text) : Text := t.takeWhile (· ∉ stops)

/-- The text from the first of the given characters on. -/
def beyond (stops : List Char) (t : Text) : Text := t.dropWhile (· ∉ stops)

variable {stops : List Char} {t a b : Text}

theorem upTo_append_beyond : upTo stops t ++ beyond stops t = t := List.takeWhile_append_dropWhile

variable {c : Char} {scheme authority : Option Text}

theorem upTo_cons_of_mem (h : c ∈ stops) : upTo stops (c :: t) = [] := by
  simp [upTo, h]

theorem upTo_cons_of_not_mem (h : c ∉ stops) : upTo stops (c :: t) = c :: upTo stops t := by
  simp [upTo, h]

theorem not_mem_of_mem_upTo (h : c ∈ upTo stops t) : c ∉ stops := by
  have hc := List.mem_takeWhile_imp h
  simpa using hc

theorem mem_stops_of_beyond_cons (h : beyond stops t = c :: b) : c ∈ stops := by
  have hne : t.dropWhile (· ∉ stops) ≠ [] := by
    intro hnil
    rw [beyond, hnil] at h
    cases h
  have hhead := List.head_dropWhile_not (fun c => decide (c ∉ stops)) hne
  have hc : (t.dropWhile (· ∉ stops)).head hne = c := by
    have hh : (t.dropWhile (· ∉ stops)).head? = some c := by
      rw [show t.dropWhile (· ∉ stops) = c :: b from h]
      rfl
    rw [List.head?_eq_some_head hne] at hh
    exact Option.some_inj.mp hh
  rw [hc] at hhead
  simpa using hhead

/-- `b` is empty or begins with one of the given characters. -/
def Begins (stops : List Char) (b : Text) : Prop := ∀ c ∈ b.head?, c ∈ stops

theorem begins_beyond : Begins stops (beyond stops t) := by
  intro c hc
  cases hb : beyond stops t with
  | nil =>
    rw [hb] at hc
    cases hc
  | cons d b =>
    rw [hb] at hc
    cases hc
    exact mem_stops_of_beyond_cons hb

theorem upTo_append (ha : ∀ c ∈ a, c ∉ stops) (hb : Begins stops b) :
    upTo stops (a ++ b) = a := by
  rw [upTo, List.takeWhile_append_of_pos (by simpa using ha)]
  cases b with
  | nil => simp
  | cons c b =>
    have hc := hb c rfl
    rw [List.takeWhile_cons_of_neg (by simpa using hc), List.append_nil]

theorem beyond_append (ha : ∀ c ∈ a, c ∉ stops) (hb : Begins stops b) :
    beyond stops (a ++ b) = b := by
  rw [beyond, List.dropWhile_append_of_pos (by simpa using ha)]
  cases b with
  | nil => rfl
  | cons c b =>
    have hc := hb c rfl
    rw [List.dropWhile_cons_of_neg (by simpa using hc)]

theorem upTo_eq_self (ha : ∀ c ∈ a, c ∉ stops) : upTo stops a = a := by
  have h := upTo_append (b := []) ha (fun c hc => nomatch hc)
  rwa [List.append_nil] at h

theorem beyond_eq_nil (ha : ∀ c ∈ a, c ∉ stops) : beyond stops a = [] := by
  have h := beyond_append (b := []) ha (fun c hc => nomatch hc)
  rwa [List.append_nil] at h

theorem mem_of_mem_beyond (h : c ∈ beyond stops t) : c ∈ t :=
  List.dropWhile_subset _ h

theorem mem_of_mem_upTo (h : c ∈ upTo stops t) : c ∈ t :=
  List.takeWhile_subset _ h

/-! ## Components -/

structure Reference where
  scheme : Option Text
  authority : Option Text
  path : Text
  query : Option Text
  fragment : Option Text
deriving DecidableEq

/-- An optional component between its delimiters. -/
def component (before : Text) (x : Option Text) (after : Text) : Text :=
  match x with
  | some x => before ++ x ++ after
  | none => []

namespace Reference

def recompose (r : Reference) : Text :=
  component [] r.scheme [':'] ++ component ['/', '/'] r.authority [] ++ r.path ++
    component ['?'] r.query [] ++ component ['#'] r.fragment []

def withoutFragment (r : Reference) : Reference := { r with fragment := none }

end Reference

/-- The query and the fragment at the end of a reference. -/
def parseTail (scheme authority : Option Text) (path tail : Text) : Reference :=
  match tail with
  | '?' :: rest =>
    { scheme, authority, path, query := some (upTo ['#'] rest)
      fragment := (beyond ['#'] rest).tail? }
  | '#' :: fragment => { scheme, authority, path, query := none, fragment := some fragment }
  | _ => { scheme, authority, path, query := none, fragment := none }

def parsePath (scheme authority : Option Text) (t : Text) : Reference :=
  parseTail scheme authority (upTo ['?', '#'] t) (beyond ['?', '#'] t)

def parseHier (scheme : Option Text) (t : Text) : Reference :=
  match t with
  | '/' :: '/' :: rest =>
    parsePath scheme (some (upTo ['/', '?', '#'] rest)) (beyond ['/', '?', '#'] rest)
  | _ => parsePath scheme none t

/-- The components of a text. -/
def parse (t : Text) : Reference :=
  match upTo [':', '/', '?', '#'] t, beyond [':', '/', '?', '#'] t with
  | c :: scheme, ':' :: rest => parseHier (some (c :: scheme)) rest
  | _, _ => parseHier none t

/-! ## Texts and components -/

theorem recompose_parseTail {path tail : Text} (h : Begins ['?', '#'] tail) :
    (parseTail scheme authority path tail).recompose =
      component [] scheme [':'] ++ component ['/', '/'] authority [] ++ path ++ tail := by
  unfold parseTail
  split
  · rename_i rest
    have hsplit := @upTo_append_beyond ['#'] rest
    cases hb : beyond ['#'] rest with
    | nil =>
      rw [hb, List.append_nil] at hsplit
      simp [Reference.recompose, component, hsplit]
    | cons c fragment =>
      have hc : c = '#' := List.mem_singleton.mp (mem_stops_of_beyond_cons hb)
      rw [hb, hc] at hsplit
      simp [Reference.recompose, component, hsplit]
  · simp [Reference.recompose, component]
  · rename_i hquery hfragment
    cases tail with
    | nil => simp [Reference.recompose, component]
    | cons c rest =>
      have hc := h c rfl
      simp only [List.mem_cons, List.not_mem_nil, or_false] at hc
      obtain rfl | rfl := hc
      · exact absurd rfl (hquery rest)
      · exact absurd rfl (hfragment rest)

theorem recompose_parsePath (scheme authority : Option Text) (t : Text) :
    (parsePath scheme authority t).recompose =
      component [] scheme [':'] ++ component ['/', '/'] authority [] ++ t := by
  rw [parsePath, recompose_parseTail begins_beyond, List.append_assoc, upTo_append_beyond]

theorem recompose_parseHier (scheme : Option Text) (t : Text) :
    (parseHier scheme t).recompose = component [] scheme [':'] ++ t := by
  unfold parseHier
  split
  · rename_i rest
    rw [recompose_parsePath, List.append_assoc]
    simp [component, upTo_append_beyond]
  · rw [recompose_parsePath]
    simp [component]

theorem recompose_parse (t : Text) : (parse t).recompose = t := by
  unfold parse
  split
  · rename_i c scheme rest hupTo hbeyond
    have hsplit := @upTo_append_beyond [':', '/', '?', '#'] t
    rw [hupTo, hbeyond] at hsplit
    rw [recompose_parseHier, ← hsplit]
    simp [component]
  · rw [recompose_parseHier]
    rfl

/-- Each component keeps clear of the characters that end it. -/
structure Reference.WellFormed (r : Reference) : Prop where
  scheme : ∀ s ∈ r.scheme, s ≠ [] ∧ ∀ c ∈ s, c ∉ [':', '/', '?', '#']
  authority : ∀ a ∈ r.authority, ∀ c ∈ a, c ∉ ['/', '?', '#']
  path : ∀ c ∈ r.path, c ∉ ['?', '#']
  query : ∀ q ∈ r.query, '#' ∉ q
  rooted : r.authority.isSome → Begins ['/'] r.path

theorem parseTail_scheme (scheme authority : Option Text) (path tail : Text) :
    (parseTail scheme authority path tail).scheme = scheme ∧
      (parseTail scheme authority path tail).authority = authority ∧
      (parseTail scheme authority path tail).path = path := by
  unfold parseTail
  split <;> exact ⟨rfl, rfl, rfl⟩

theorem query_parseTail {path tail q : Text}
    (h : q ∈ (parseTail scheme authority path tail).query) : '#' ∉ q := by
  unfold parseTail at h
  split at h
  · cases h
    intro hmem
    exact not_mem_of_mem_upTo hmem List.mem_cons_self
  · cases h
  · cases h

theorem wellFormed_parsePath {t : Text}
    (hscheme : ∀ s ∈ scheme, s ≠ [] ∧ ∀ c ∈ s, c ∉ [':', '/', '?', '#'])
    (hauthority : ∀ a ∈ authority, ∀ c ∈ a, c ∉ ['/', '?', '#'])
    (hrooted : authority.isSome → Begins ['/', '?', '#'] t) :
    (parsePath scheme authority t).WellFormed := by
  obtain ⟨hs, ha, hp⟩ := parseTail_scheme scheme authority (upTo ['?', '#'] t) (beyond ['?', '#'] t)
  rw [parsePath]
  refine ⟨?_, ?_, ?_, ?_, ?_⟩
  · rw [hs]
    exact hscheme
  · rw [ha]
    exact hauthority
  · rw [hp]
    intro c hc
    exact not_mem_of_mem_upTo hc
  · intro q hq
    exact query_parseTail hq
  · rw [ha, hp]
    intro hsome c hc
    cases t with
    | nil => cases hc
    | cons d t =>
      have hd := hrooted hsome d rfl
      by_cases hstop : d ∈ ['?', '#']
      · rw [upTo_cons_of_mem hstop] at hc
        cases hc
      · rw [upTo_cons_of_not_mem hstop] at hc
        cases hc
        rw [List.mem_cons] at hd
        obtain rfl | hd := hd
        · exact List.mem_cons_self
        · exact absurd hd hstop

theorem wellFormed_parseHier (t : Text)
    (hscheme : ∀ s ∈ scheme, s ≠ [] ∧ ∀ c ∈ s, c ∉ [':', '/', '?', '#']) :
    (parseHier scheme t).WellFormed := by
  unfold parseHier
  split
  · apply wellFormed_parsePath hscheme
    · intro a ha c hc
      cases ha
      exact not_mem_of_mem_upTo hc
    · intro _
      exact begins_beyond
  · apply wellFormed_parsePath hscheme
    · intro a ha
      cases ha
    · intro hsome
      cases hsome

theorem wellFormed_parse (t : Text) : (parse t).WellFormed := by
  unfold parse
  split
  · rename_i c scheme rest hupTo hbeyond
    apply wellFormed_parseHier
    intro s hs
    cases hs
    refine ⟨List.cons_ne_nil _ _, ?_⟩
    intro d hd
    rw [← hupTo] at hd
    exact not_mem_of_mem_upTo hd
  · apply wellFormed_parseHier
    intro s hs
    cases hs

theorem parseTail_recompose (r : Reference) (hquery : ∀ q ∈ r.query, '#' ∉ q) :
    parseTail r.scheme r.authority r.path
      (component ['?'] r.query [] ++ component ['#'] r.fragment []) = r := by
  obtain ⟨scheme, authority, path, query, fragment⟩ := r
  cases query with
  | none => cases fragment <;> simp [parseTail, component]
  | some q =>
    have hq : ∀ c ∈ q, c ∉ ['#'] := by
      intro c hc hmem
      rw [List.mem_singleton.mp hmem] at hc
      exact hquery q rfl hc
    cases fragment with
    | none => simp [parseTail, component, upTo_eq_self hq, beyond_eq_nil hq]
    | some f =>
      have hb : Begins ['#'] ('#' :: f) := by
        intro c hc
        cases hc
        exact List.mem_cons_self
      simp [parseTail, component, upTo_append hq hb, beyond_append hq hb]

theorem begins_tail (query fragment : Option Text) :
    Begins ['?', '#'] (component ['?'] query [] ++ component ['#'] fragment []) := by
  intro c hc
  cases query with
  | none =>
    cases fragment with
    | none => cases hc
    | some f =>
      cases hc
      decide
  | some q =>
    cases hc
    decide

theorem Begins.append {stops more : List Char} {a b : Text} (ha : Begins stops a)
    (hb : Begins more b) : Begins (stops ++ more) (a ++ b) := by
  intro c hc
  cases a with
  | nil => exact List.mem_append_right _ (hb c hc)
  | cons d a => exact List.mem_append_left _ (ha c hc)

theorem parse_recompose {r : Reference} (h : r.WellFormed) (hscheme : r.scheme.isSome)
    (hauthority : r.authority.isSome) : parse r.recompose = r := by
  obtain ⟨s, hs⟩ := Option.isSome_iff_exists.mp hscheme
  obtain ⟨a, ha⟩ := Option.isSome_iff_exists.mp hauthority
  obtain ⟨hne, hchars⟩ := h.scheme s hs
  have htail := begins_tail r.query r.fragment
  have hrest := (h.rooted hauthority).append htail
  have hrecompose : r.recompose = s ++ (':' :: '/' :: '/' :: (a ++ (r.path ++
      (component ['?'] r.query [] ++ component ['#'] r.fragment [])))) := by
    simp [Reference.recompose, component, hs, ha]
  have hbegin : Begins [':', '/', '?', '#'] (':' :: '/' :: '/' :: (a ++ (r.path ++
      (component ['?'] r.query [] ++ component ['#'] r.fragment [])))) := by
    intro c hc
    cases hc
    decide
  obtain ⟨c, s', rfl⟩ := List.exists_cons_of_ne_nil hne
  rw [parse, hrecompose, upTo_append hchars hbegin, beyond_append hchars hbegin]
  change parseHier (some (c :: s')) ('/' :: '/' :: _) = r
  rw [parseHier, upTo_append (h.authority a ha) hrest, beyond_append (h.authority a ha) hrest,
    parsePath, upTo_append h.path htail, beyond_append h.path htail, ← hs, ← ha]
  exact parseTail_recompose r h.query

/-! ## Dot segments -/

/-- The output buffer without its last segment and the slash before it. -/
def dropLastSegment (out : Text) : Text := ((out.reverse.dropWhile (· ≠ '/')).drop 1).reverse

/-- The loop of 5.2.4, on the input and the output buffer. -/
def dots (input out : Text) : Text :=
  match input with
  | [] => out
  | '.' :: '.' :: '/' :: rest => dots rest out
  | '.' :: '/' :: rest => dots rest out
  | '/' :: '.' :: '/' :: rest => dots ('/' :: rest) out
  | ['/', '.'] => dots ['/'] out
  | '/' :: '.' :: '.' :: '/' :: rest => dots ('/' :: rest) (dropLastSegment out)
  | ['/', '.', '.'] => dots ['/'] (dropLastSegment out)
  | ['.'] => dots [] out
  | ['.', '.'] => dots [] out
  | c :: rest => dots (beyond ['/'] rest) (out ++ c :: upTo ['/'] rest)
termination_by input.length
decreasing_by
  all_goals simp only [List.length_cons, List.length_nil]
  all_goals first
    | omega
    | have := List.length_dropWhile_le (fun c => decide (c ∉ ['/'])) rest
      rw [beyond]
      omega

def removeDotSegments (path : Text) : Text := dots path []

/-- Some segments, each after a slash. -/
def slashed (segs : List Text) : Text := segs.flatMap ('/' :: ·)

theorem dropLastSegment_append {seg : Text} (h : '/' ∉ seg) (out : Text) :
    dropLastSegment (out ++ '/' :: seg) = out := by
  have hseg : ∀ c ∈ seg.reverse, decide (c ≠ '/') = true := by
    intro c hc
    rw [decide_eq_true_iff]
    intro heq
    exact h (heq ▸ List.mem_reverse.mp hc)
  rw [dropLastSegment, List.reverse_append, List.reverse_cons, List.append_assoc,
    List.dropWhile_append_of_pos hseg]
  simp

theorem dropLastSegment_slashed {segs : List Text} (h : ∀ s ∈ segs, '/' ∉ s) :
    dropLastSegment (slashed segs) = slashed segs.dropLast := by
  obtain rfl | ⟨init, last, rfl⟩ := List.eq_nil_or_concat' segs
  · rfl
  · have hlast := h last (List.mem_append_right _ (List.mem_singleton_self last))
    rw [slashed, slashed, List.flatMap_append, List.dropLast_concat, List.flatMap_singleton,
      dropLastSegment_append hlast]

theorem begins_slashed (segs : List Text) : Begins ['/'] (slashed segs) := by
  intro c hc
  cases segs with
  | nil => cases hc
  | cons s segs =>
    cases hc
    exact List.mem_cons_self

theorem dots_slash (out : Text) : dots ['/'] out = out ++ ['/'] := by
  simp [dots, upTo, beyond]

theorem dots_dot (seg : Text) (segs : List Text) (out : Text) :
    dots (slashed (['.'] :: seg :: segs)) out = dots (slashed (seg :: segs)) out := by
  change dots ('/' :: '.' :: '/' :: _) out = dots ('/' :: _) out
  rw [dots]

theorem dots_dot_last (out : Text) : dots (slashed [['.']]) out = out ++ ['/'] := by
  change dots ['/', '.'] out = _
  rw [dots, dots_slash]

theorem dots_dotdot (seg : Text) (segs : List Text) (out : Text) :
    dots (slashed (['.', '.'] :: seg :: segs)) out =
      dots (slashed (seg :: segs)) (dropLastSegment out) := by
  change dots ('/' :: '.' :: '.' :: '/' :: _) out = dots ('/' :: _) _
  rw [dots]

theorem dots_dotdot_last (out : Text) :
    dots (slashed [['.', '.']]) out = dropLastSegment out ++ ['/'] := by
  change dots ['/', '.', '.'] out = _
  rw [dots, dots_slash]

/-- A segment that is not made of dots moves to the output. -/
theorem dots_segment {seg : Text} (hslash : '/' ∉ seg) (hdot : seg ≠ ['.'])
    (hdotdot : seg ≠ ['.', '.']) (segs : List Text) (out : Text) :
    dots (slashed (seg :: segs)) out = dots (slashed segs) (out ++ '/' :: seg) := by
  have hseg : ∀ c ∈ seg, c ∉ ['/'] := by
    intro c hc hmem
    exact hslash (List.mem_singleton.mp hmem ▸ hc)
  have hsegs := begins_slashed segs
  have hseg_eq : ∀ (w : Text) (rest : Text), (∀ c ∈ w, c ∉ ['/']) → Begins ['/'] rest →
      seg ++ slashed segs = w ++ rest → seg = w := by
    intro w rest hw hrest heq
    have hupTo := congrArg (upTo ['/']) heq
    rwa [upTo_append hseg hsegs, upTo_append hw hrest] at hupTo
  have hslashRest : ∀ rest, Begins ['/'] ('/' :: rest) := by
    intro rest c hc
    cases hc
    exact List.mem_cons_self
  have hnil : Begins ['/'] [] := fun c hc => nomatch hc
  have hmove : dots ('/' :: (seg ++ slashed segs)) out =
      dots (beyond ['/'] (seg ++ slashed segs)) (out ++ '/' :: upTo ['/'] (seg ++ slashed segs)) := by
    -- the text up to the next slash is neither of the dot segments
    have hne : '/' ≠ '.' := by decide
    rw [dots]
    · exact fun _ h => absurd h hne
    · exact fun _ h => absurd h hne
    · intro rest _ h
      exact hdot (hseg_eq ['.'] ('/' :: rest) (by simp) (hslashRest rest) h)
    · intro _ h
      exact hdot (hseg_eq ['.'] [] (by simp) hnil h)
    · intro rest _ h
      exact hdotdot (hseg_eq ['.', '.'] ('/' :: rest) (by simp) (hslashRest rest) h)
    · intro _ h
      exact hdotdot (hseg_eq ['.', '.'] [] (by simp) hnil h)
    · exact fun h => absurd h hne
    · exact fun h => absurd h hne
  change dots ('/' :: (seg ++ slashed segs)) out = _
  rw [hmove, upTo_append hseg hsegs, beyond_append hseg hsegs]

/-! ## Resolution -/

/-- The merge of 5.2.3. -/
def merge (base : Reference) (path : Text) : Text :=
  if base.authority.isSome ∧ base.path = [] then '/' :: path
  else (beyond ['/'] base.path.reverse).reverse ++ path

/-- The path of a reference without scheme and authority, against a base. -/
def mergedPath (base r : Reference) : Text :=
  if r.path = [] then base.path
  else if r.path.head? = some '/' then removeDotSegments r.path
  else removeDotSegments (merge base r.path)

/-- The target of 5.2.2. -/
def target (base r : Reference) : Reference :=
  match r.scheme, r.authority with
  | some _, _ => { r with path := removeDotSegments r.path }
  | none, some _ => { r with scheme := base.scheme, path := removeDotSegments r.path }
  | none, none =>
    { scheme := base.scheme
      authority := base.authority
      path := mergedPath base r
      query := if r.path = [] then r.query.or base.query else r.query
      fragment := r.fragment }

/-- An empty path is the root (6.2.3). -/
def Reference.filled (r : Reference) : Reference :=
  { r with path := if r.path = [] then ['/'] else r.path }

end Noeta.Lib.Rfc3986
