import Noeta.Lexer.Holes

/-!
# Bodies of expression tiers

The body of `@t { … }` is found by `matching_brace` of `noeta-lexer/src/lib.rs`, which counts braces
and knows three escapes, split by `parse_tier_expr_body` of `noeta-parser/src/literals.rs`, which
knows four and hands the holes to `find_hole_end`, and written by `encode_tier_static` of
`noeta-fmt/src/print.rs`. The three agree on a body exactly when its holes are nested text and all its
braces balance, those inside the string literals of the holes included.
-/

namespace Noeta.Lexer

/-! ## The code -/

def isBraceEscape (c : Char) : Bool :=
  c == '{' || c == '}' || c == '\\'

/-- The loop of `matching_brace`: the text from the closing brace on. -/
def matchingBraceFrom (depth : Nat) : List Char → Option (List Char)
  | [] => none
  | c :: rest =>
    if c = '\\' then
      match rest with
      | [] => none
      | c' :: rest' =>
        if isBraceEscape c' then matchingBraceFrom depth rest'
        else matchingBraceFrom depth (c' :: rest')
    else if c = '{' then matchingBraceFrom (depth + 1) rest
    else if c = '}' then
      if depth = 1 then some (c :: rest) else matchingBraceFrom (depth - 1) rest
    else matchingBraceFrom depth rest

def matchingBrace (text : List Char) : Option (List Char) :=
  matchingBraceFrom 1 text

/-- `str::replace` of one character. -/
def replaceChar (c : Char) (new : List Char) (s : List Char) : List Char :=
  s.flatMap fun d => if d = c then new else [d]

def encodeTierStatic (s : List Char) : List Char :=
  replaceChar '$' ['\\', '$'] (replaceChar '}' ['\\', '}'] (replaceChar '{' ['\\', '{']
    (replaceChar '\\' ['\\', '\\'] s)))

/-- The length in bytes. -/
def width (text : List Char) : Nat :=
  (text.map Char.utf8Size).sum

theorem findHoleEnd_length (inner : List Char) : (findHoleEnd inner).length ≤ inner.length := by
  rw [findHoleEnd_eq]
  cases hend : interpolationHoleEnd inner with
  | none => simp
  | some r =>
    have := (loops_shrink _).1 _ _ _ hend
    simp only [Option.map_some, Option.getD_some, List.length_cons]
    omega

/-- What is parsed so far: the literal being read, the statics and the holes before it. -/
structure TierParts (ε : Type) where
  literal : List Char
  statics : List (List Char)
  holes : List ε

/-- The loop of `parse_tier_expr_body`, at a byte offset of the source. -/
def tierBodyLoop {ε : Type} (parseHole : List Char → Nat → ε) (offset : Nat) (inner : List Char)
    (acc : TierParts ε) : List (List Char) × List ε :=
  match inner with
  | [] => (acc.statics ++ [acc.literal], acc.holes)
  | c :: rest =>
    if c = '\\' then
      match rest with
      | [] => tierBodyLoop parseHole (offset + 1) [] { acc with literal := acc.literal ++ ['\\'] }
      | c' :: rest' =>
        if isBraceEscape c' || c' == '$' then
          tierBodyLoop parseHole (offset + 2) rest' { acc with literal := acc.literal ++ [c'] }
        else
          tierBodyLoop parseHole (offset + 1) (c' :: rest')
            { acc with literal := acc.literal ++ ['\\'] }
    else if c = '$' ∧ rest.head? = some '{' then
      let close := findHoleEnd rest.tail
      let hole := rest.tail.take (rest.tail.length - close.length)
      tierBodyLoop parseHole (offset + 2 + width (hole ++ close.take 1)) (close.drop 1)
        { literal := [], statics := acc.statics ++ [acc.literal],
          holes := acc.holes ++ [parseHole hole (offset + 2)] }
    else
      tierBodyLoop parseHole (offset + c.utf8Size) rest { acc with literal := acc.literal ++ [c] }
termination_by inner.length
decreasing_by
  all_goals simp_wf
  all_goals try omega
  have := findHoleEnd_length rest.tail
  rw [List.length_tail] at this
  omega

/-- `parse_tier_expr_body`: the statics and the holes. -/
def parseTierExprBody {ε : Type} (parseHole : List Char → Nat → ε) (base : Nat)
    (inner : List Char) : List (List Char) × List ε :=
  tierBodyLoop parseHole base inner ⟨[], [], []⟩

/-! ## Bodies that are written -/

/-- The body with a first static text, and a static text behind each hole. -/
def writeBody (s : List Char) : List (List Char × List Char) → List Char
  | [] => encodeTierStatic s
  | (hole, s') :: rest => encodeTierStatic s ++ '$' :: '{' :: (hole ++ '}' :: writeBody s' rest)

/-- The expressions of the holes, each at the offset where it is written. -/
def holesAt {ε : Type} (parseHole : List Char → Nat → ε) (offset : Nat) (s : List Char) :
    List (List Char × List Char) → List ε
  | [] => []
  | (hole, s') :: rest =>
    parseHole hole (offset + width (encodeTierStatic s) + 2) ::
      holesAt parseHole (offset + width (encodeTierStatic s) + 2 + width hole + 1) s' rest

/-- The lexer captures the body, whatever follows it, and the parser returns what was written. -/
structure Agrees (s : List Char) (pairs : List (List Char × List Char)) : Prop where
  captured : ∀ rest, matchingBrace (writeBody s pairs ++ '}' :: rest) = some ('}' :: rest)
  split : ∀ (ε : Type) (parseHole : List Char → Nat → ε) (base : Nat),
    parseTierExprBody parseHole base (writeBody s pairs) =
      (s :: pairs.map Prod.snd, holesAt parseHole base s pairs)

/-- The braces of a text but for the three escapes, `true` for an opening one. -/
def marks : List Char → List Bool
  | [] => []
  | c :: rest =>
    if c = '\\' then
      match rest with
      | [] => []
      | c' :: rest' => if isBraceEscape c' then marks rest' else marks (c' :: rest')
    else if c = '{' then true :: marks rest
    else if c = '}' then false :: marks rest
    else marks rest

/-- No brace is closed that was not opened, and every one is closed in the end. -/
def Balanced (ms : List Bool) : Prop :=
  (∀ before after, ms = before ++ after → before.count false ≤ before.count true) ∧
    ms.count false = ms.count true

/-! ## Counting braces -/

theorem marks_escape (c : Char) (rest : List Char) :
    marks ('\\' :: c :: rest) = if isBraceEscape c then marks rest else marks (c :: rest) := by
  rw [marks.eq_def]
  simp

theorem marks_cons {c : Char} (hc : c ≠ '\\') (rest : List Char) :
    marks (c :: rest) =
      if c = '{' then true :: marks rest
      else if c = '}' then false :: marks rest
      else marks rest := by
  rw [marks.eq_def]
  simp [hc]

theorem matchingBraceFrom_escape (depth : Nat) (c : Char) (rest : List Char) :
    matchingBraceFrom depth ('\\' :: c :: rest) =
      if isBraceEscape c then matchingBraceFrom depth rest
      else matchingBraceFrom depth (c :: rest) := by
  rw [matchingBraceFrom.eq_def]
  simp

theorem matchingBraceFrom_cons {c : Char} (hc : c ≠ '\\') (depth : Nat) (rest : List Char) :
    matchingBraceFrom depth (c :: rest) =
      if c = '{' then matchingBraceFrom (depth + 1) rest
      else if c = '}' then
        if depth = 1 then some (c :: rest) else matchingBraceFrom (depth - 1) rest
      else matchingBraceFrom depth rest := by
  rw [matchingBraceFrom.eq_def]
  simp [hc]

/-- The text ends in a backslash that the next character may complete. -/
def endsOpen : List Char → Bool
  | [] => false
  | c :: rest =>
    if c = '\\' then
      match rest with
      | [] => true
      | c' :: rest' => if isBraceEscape c' then endsOpen rest' else endsOpen (c' :: rest')
    else endsOpen rest

/-- The count behind marks that are met with some braces open. -/
def depthAfter : Nat → List Bool → Option Nat
  | depth, [] => some depth
  | depth, true :: ms => depthAfter (depth + 1) ms
  | 0, false :: _ => none
  | depth + 1, false :: ms => depthAfter depth ms

theorem matchingBraceFrom_length {depth : Nat} {text r : List Char}
    (h : matchingBraceFrom depth text = some r) : r.length ≤ text.length := by
  fun_induction matchingBraceFrom depth text with
  | case1 => cases h
  | case2 => cases h
  | case3 depth c' rest' hesc ih =>
    have := ih h
    simp only [List.length_cons]
    omega
  | case4 depth c' rest' hesc ih =>
    have := ih h
    simp only [List.length_cons] at this ⊢
    omega
  | case5 depth rest hesc ih =>
    have := ih h
    rw [List.length_cons]
    omega
  | case6 =>
    obtain rfl := Option.some.inj h
    exact Nat.le_refl _
  | case7 depth rest _ _ hone ih =>
    have := ih h
    rw [List.length_cons]
    omega
  | case8 depth c rest _ _ _ ih =>
    have := ih h
    rw [List.length_cons]
    omega

/-- The count goes through a text, unless that closes a brace too many. -/
theorem matchingBraceFrom_append {a : List Char} (b : List Char) (depth : Nat)
    (h : endsOpen a = false) :
    match depthAfter depth (marks a) with
    | some d => matchingBraceFrom (depth + 1) (a ++ b) = matchingBraceFrom (d + 1) b
    | none => ∃ x, x ≠ [] ∧ matchingBraceFrom (depth + 1) (a ++ b) = some (x ++ b) := by
  fun_induction endsOpen a generalizing depth with
  | case1 => rfl
  | case2 => cases h
  | case3 c' rest' hesc ih =>
    rw [marks_escape, if_pos hesc, List.cons_append, List.cons_append, matchingBraceFrom_escape,
      if_pos hesc]
    exact ih depth h
  | case4 c' rest' hesc ih =>
    rw [marks_escape, if_neg hesc, List.cons_append, List.cons_append, matchingBraceFrom_escape,
      if_neg hesc]
    exact ih depth h
  | case5 c rest hc ih =>
    rw [marks_cons hc, List.cons_append, matchingBraceFrom_cons hc]
    by_cases hopen : c = '{'
    · rw [if_pos hopen, if_pos hopen]
      exact ih (depth + 1) h
    · rw [if_neg hopen, if_neg hopen]
      by_cases hclose : c = '}'
      · rw [if_pos hclose, if_pos hclose]
        cases depth with
        | zero => exact ⟨c :: rest, by simp, rfl⟩
        | succ depth =>
          rw [if_neg (by omega)]
          exact ih depth h
      · rw [if_neg hclose, if_neg hclose]
        exact ih depth h

theorem matchingBraceFrom_close (depth : Nat) (r : List Char) :
    matchingBraceFrom depth ('}' :: r) =
      if depth = 1 then some ('}' :: r) else matchingBraceFrom (depth - 1) r := by
  rw [matchingBraceFrom_cons (by decide), if_neg (by decide), if_pos rfl]

theorem matchingBrace_iff {a r : List Char} (h : endsOpen a = false) :
    matchingBrace (a ++ '}' :: r) = some ('}' :: r) ↔ depthAfter 0 (marks a) = some 0 := by
  have happend := matchingBraceFrom_append ('}' :: r) 0 h
  rw [matchingBrace]
  split at happend
  · rename_i d hd
    rw [happend, hd, matchingBraceFrom_close]
    cases d with
    | zero => exact iff_of_true rfl rfl
    | succ d =>
      refine iff_of_false ?_ (by simp)
      intro hr
      rw [if_neg (by omega)] at hr
      have := matchingBraceFrom_length hr
      rw [List.length_cons] at this
      omega
  · rename_i hd
    obtain ⟨x, hx, hres⟩ := happend
    rw [hres, hd]
    refine iff_of_false ?_ (by simp)
    intro hr
    have hlen := congrArg List.length (Option.some.inj hr)
    rw [List.length_append] at hlen
    exact hx (List.length_eq_zero_iff.1 (by omega))

theorem depthAfter_iff {ms : List Bool} {depth d : Nat} :
    depthAfter depth ms = some d ↔
      (∀ before after, ms = before ++ after → before.count false ≤ depth + before.count true) ∧
        depth + ms.count true = d + ms.count false := by
  induction ms generalizing depth with
  | nil =>
    simp only [depthAfter, Option.some.injEq, List.count_nil, Nat.add_zero]
    constructor
    · rintro rfl
      refine ⟨?_, rfl⟩
      intro before after hsplit
      rw [(List.append_eq_nil_iff.1 hsplit.symm).1]
      simp
    · exact fun h => h.2
  | cons m ms ih =>
    have hcons : ∀ (n : Nat), (∀ before after, m :: ms = before ++ after →
        before.count false ≤ depth + before.count true) ↔
        ∀ before after, ms = before ++ after →
          (m :: before).count false ≤ depth + (m :: before).count true := by
      intro _
      constructor
      · intro h before after hsplit
        exact h (m :: before) after (by rw [hsplit]; rfl)
      · intro h before after hsplit
        cases before with
        | nil => simp
        | cons m' before =>
          rw [List.cons_append, List.cons.injEq] at hsplit
          obtain ⟨rfl, hsplit⟩ := hsplit
          exact h before after hsplit
    rw [hcons 0]
    cases m with
    | true =>
      rw [depthAfter, ih]
      simp only [List.count_cons_self, List.count_cons_of_ne (show (true : Bool) ≠ false by decide)]
      constructor
      · rintro ⟨h, hsum⟩
        exact ⟨fun before after hs => by have := h before after hs; omega, by omega⟩
      · rintro ⟨h, hsum⟩
        exact ⟨fun before after hs => by have := h before after hs; omega, by omega⟩
    | false =>
      simp only [List.count_cons_self, List.count_cons_of_ne (show (false : Bool) ≠ true by decide)]
      cases depth with
      | zero =>
        refine iff_of_false (by simp [depthAfter]) ?_
        rintro ⟨h, -⟩
        have := h [] ms rfl
        simp at this
      | succ depth =>
        rw [depthAfter, ih]
        constructor
        · rintro ⟨h, hsum⟩
          exact ⟨fun before after hs => by have := h before after hs; omega, by omega⟩
        · rintro ⟨h, hsum⟩
          exact ⟨fun before after hs => by have := h before after hs; omega, by omega⟩

theorem depthAfter_zero_iff (ms : List Bool) : depthAfter 0 ms = some 0 ↔ Balanced ms := by
  rw [depthAfter_iff, Balanced]
  simp only [Nat.zero_add]
  exact and_congr_right fun _ => eq_comm

/-! ## Static texts -/

/-- What is written for one character of a static text. -/
def escapeChar (c : Char) : List Char :=
  if isBraceEscape c || c == '$' then ['\\', c] else [c]

theorem encodeTierStatic_append (s t : List Char) :
    encodeTierStatic (s ++ t) = encodeTierStatic s ++ encodeTierStatic t := by
  simp only [encodeTierStatic, replaceChar, List.flatMap_append]

theorem encodeTierStatic_singleton (c : Char) : encodeTierStatic [c] = escapeChar c := by
  by_cases h₁ : c = '\\'
  · subst h₁
    decide
  · by_cases h₂ : c = '{'
    · subst h₂
      decide
    · by_cases h₃ : c = '}'
      · subst h₃
        decide
      · by_cases h₄ : c = '$'
        · subst h₄
          decide
        · simp [encodeTierStatic, replaceChar, escapeChar, isBraceEscape, h₁, h₂, h₃, h₄]

theorem encodeTierStatic_cons (c : Char) (s : List Char) :
    encodeTierStatic (c :: s) = escapeChar c ++ encodeTierStatic s := by
  rw [← List.singleton_append, encodeTierStatic_append, encodeTierStatic_singleton]

theorem escapeChar_cases (c : Char) :
    (escapeChar c = ['\\', c] ∧ (isBraceEscape c || c == '$') = true) ∨
      (escapeChar c = [c] ∧ c ≠ '\\' ∧ c ≠ '{' ∧ c ≠ '}' ∧ c ≠ '$') := by
  by_cases h : (isBraceEscape c || c == '$') = true
  · exact .inl ⟨if_pos h, h⟩
  · refine .inr ⟨if_neg h, ?_⟩
    simp only [isBraceEscape, Bool.or_eq_true, beq_iff_eq, not_or] at h
    exact ⟨h.1.2, h.1.1.1, h.1.1.2, h.2⟩

theorem endsOpen_escape (c : Char) (rest : List Char) :
    endsOpen ('\\' :: c :: rest) = if isBraceEscape c then endsOpen rest else endsOpen (c :: rest) := by
  rw [endsOpen.eq_def]
  simp

theorem endsOpen_cons {c : Char} (hc : c ≠ '\\') (rest : List Char) :
    endsOpen (c :: rest) = endsOpen rest := by
  rw [endsOpen.eq_def]
  simp [hc]

theorem endsOpen_encode (s x : List Char) : endsOpen (encodeTierStatic s ++ x) = endsOpen x := by
  induction s with
  | nil => rfl
  | cons c s ih =>
    rw [encodeTierStatic_cons, List.append_assoc]
    rcases escapeChar_cases c with ⟨heq, hc⟩ | ⟨heq, hc, -⟩
    · rw [heq, List.cons_append, List.cons_append, List.nil_append, endsOpen_escape]
      split
      · exact ih
      · rename_i hesc
        rw [endsOpen_cons, ih]
        rintro rfl
        exact hesc (by decide)
    · rw [heq, List.cons_append, List.nil_append, endsOpen_cons hc, ih]

theorem endsOpen_close (a x : List Char) : endsOpen (a ++ '}' :: x) = endsOpen x := by
  fun_induction endsOpen a with
  | case1 => exact endsOpen_cons (by decide) x
  | case2 =>
    rw [List.cons_append, List.nil_append, endsOpen_escape, if_pos (by decide)]
  | case3 c' rest' hesc ih =>
    rw [List.cons_append, List.cons_append, endsOpen_escape, if_pos hesc, ih]
  | case4 c' rest' hesc ih =>
    rw [List.cons_append, List.cons_append, endsOpen_escape, if_neg hesc]
    exact ih
  | case5 c rest hc ih =>
    rw [List.cons_append, endsOpen_cons hc, ih]

theorem endsOpen_writeBody (s : List Char) (pairs : List (List Char × List Char)) :
    endsOpen (writeBody s pairs) = false := by
  induction pairs generalizing s with
  | nil =>
    rw [writeBody, ← List.append_nil (encodeTierStatic s), endsOpen_encode]
    rfl
  | cons p rest ih =>
    obtain ⟨hole, s'⟩ := p
    rw [writeBody, endsOpen_encode, endsOpen_cons (by decide), endsOpen_cons (by decide),
      endsOpen_close, ih]

theorem captured_iff (s : List Char) (pairs : List (List Char × List Char)) (rest : List Char) :
    matchingBrace (writeBody s pairs ++ '}' :: rest) = some ('}' :: rest) ↔
      Balanced (marks (writeBody s pairs)) := by
  rw [matchingBrace_iff (endsOpen_writeBody s pairs), depthAfter_zero_iff]

/-! ## Splitting the body -/

section Split

variable {ε : Type} (parseHole : List Char → Nat → ε)

theorem width_append (a b : List Char) : width (a ++ b) = width a + width b := by
  simp [width]

theorem tierBodyLoop_escape (offset : Nat) {c : Char} (hc : (isBraceEscape c || c == '$') = true)
    (rest : List Char) (acc : TierParts ε) :
    tierBodyLoop parseHole offset ('\\' :: c :: rest) acc =
      tierBodyLoop parseHole (offset + 2) rest { acc with literal := acc.literal ++ [c] } := by
  rw [tierBodyLoop.eq_def]
  simp [hc]

theorem tierBodyLoop_plain (offset : Nat) {c : Char} (hc : c ≠ '\\') (hd : c ≠ '$')
    (rest : List Char) (acc : TierParts ε) :
    tierBodyLoop parseHole offset (c :: rest) acc =
      tierBodyLoop parseHole (offset + c.utf8Size) rest { acc with literal := acc.literal ++ [c] } := by
  rw [tierBodyLoop.eq_def]
  simp [hc, hd]

theorem tierBodyLoop_hole (offset : Nat) (rest : List Char) (acc : TierParts ε) :
    tierBodyLoop parseHole offset ('$' :: '{' :: rest) acc =
      tierBodyLoop parseHole
        (offset + 2 + width (rest.take (rest.length - (findHoleEnd rest).length) ++
          (findHoleEnd rest).take 1))
        ((findHoleEnd rest).drop 1)
        { literal := [], statics := acc.statics ++ [acc.literal],
          holes := acc.holes ++
            [parseHole (rest.take (rest.length - (findHoleEnd rest).length)) (offset + 2)] } := by
  rw [tierBodyLoop.eq_def]
  simp

theorem tierBodyLoop_encode (offset : Nat) (s x : List Char) (acc : TierParts ε) :
    tierBodyLoop parseHole offset (encodeTierStatic s ++ x) acc =
      tierBodyLoop parseHole (offset + width (encodeTierStatic s)) x
        { acc with literal := acc.literal ++ s } := by
  induction s generalizing offset acc with
  | nil =>
    have hnil : encodeTierStatic [] = [] := rfl
    rw [hnil, List.nil_append, List.append_nil]
    rfl
  | cons c s ih =>
    rw [encodeTierStatic_cons, List.append_assoc, width_append]
    rcases escapeChar_cases c with ⟨heq, hc⟩ | ⟨heq, hc, -, -, hd⟩
    · have htwo : width ['\\', c] = 2 := by
        have hone : c.utf8Size = 1 := by
          simp only [isBraceEscape, Bool.or_eq_true, beq_iff_eq] at hc
          rcases hc with ((rfl | rfl) | rfl) | rfl <;> decide
        have hback : Char.utf8Size '\\' = 1 := by decide
        simp [width, hone, hback]
      rw [heq, htwo, List.cons_append, List.cons_append, List.nil_append,
        tierBodyLoop_escape parseHole offset hc, ih]
      simp [Nat.add_assoc]
    · have hone : width [c] = c.utf8Size := by simp [width]
      rw [heq, hone, List.cons_append, List.nil_append, tierBodyLoop_plain parseHole offset hc hd, ih]
      simp [Nat.add_assoc]

theorem tierBodyLoop_nested (offset : Nat) {h : List Char} (hh : Nested h) (x : List Char)
    (acc : TierParts ε) :
    tierBodyLoop parseHole offset ('$' :: '{' :: (h ++ '}' :: x)) acc =
      tierBodyLoop parseHole (offset + 2 + width h + 1) x
        { literal := [], statics := acc.statics ++ [acc.literal],
          holes := acc.holes ++ [parseHole h (offset + 2)] } := by
  have hend : findHoleEnd (h ++ '}' :: x) = '}' :: x := findHoleEnd_iff.2 hh
  have hlen : (h ++ '}' :: x).length - ('}' :: x).length = h.length := by
    rw [List.length_append]
    omega
  have hbrace : width ['}'] = 1 := by decide
  have htake : (h ++ '}' :: x).take h.length = h := List.take_left
  have hone : ('}' :: x).take 1 = ['}'] := rfl
  have hdrop : ('}' :: x).drop 1 = x := rfl
  rw [tierBodyLoop_hole, hend, hlen, htake, hone, hdrop, width_append, hbrace, ← Nat.add_assoc]

theorem tierBodyLoop_writeBody {pairs : List (List Char × List Char)}
    (hn : ∀ p ∈ pairs, Nested p.1) (offset : Nat) (s : List Char) (acc : TierParts ε) :
    tierBodyLoop parseHole offset (writeBody s pairs) acc =
      (acc.statics ++ (acc.literal ++ s) :: pairs.map Prod.snd,
        acc.holes ++ holesAt parseHole offset s pairs) := by
  induction pairs generalizing offset s acc with
  | nil =>
    rw [writeBody, ← List.append_nil (encodeTierStatic s), tierBodyLoop_encode, tierBodyLoop.eq_def]
    simp [holesAt]
  | cons p rest ih =>
    obtain ⟨hole, s'⟩ := p
    have hhole : Nested hole := hn (hole, s') (by simp)
    rw [writeBody, tierBodyLoop_encode, tierBodyLoop_nested parseHole _ hhole,
      ih fun q hq => hn q (by simp [hq])]
    simp [holesAt]

theorem tierBodyLoop_holes (offset : Nat) (inner : List Char) (acc : TierParts ε) :
    ∃ more, (tierBodyLoop parseHole offset inner acc).2 = acc.holes ++ more := by
  fun_induction tierBodyLoop parseHole offset inner acc with
  | case1 => exact ⟨[], by simp⟩
  | case2 _ _ ih => exact ih
  | case3 _ _ _ _ _ ih => exact ih
  | case4 _ _ _ _ _ ih => exact ih
  | case5 offset acc c rest _ _ close hole ih =>
    obtain ⟨more, hmore⟩ := ih
    exact ⟨parseHole hole (offset + 2) :: more, by rw [hmore]; simp⟩
  | case6 _ _ _ _ _ _ ih => exact ih

end Split

theorem nested_of_cut {h x : List Char}
    (hcut : (h ++ '}' :: x).take ((h ++ '}' :: x).length - (findHoleEnd (h ++ '}' :: x)).length) = h) :
    Nested h := by
  have hlen := congrArg List.length hcut
  rw [findHoleEnd_eq] at hlen
  simp only [List.length_take, List.length_append, List.length_cons] at hlen
  cases hend : interpolationHoleEnd (h ++ '}' :: x) with
  | none =>
    rw [hend] at hlen
    simp at hlen
  | some r =>
    rw [hend] at hlen
    simp only [Option.map_some, Option.getD_some, List.length_cons] at hlen
    have hshrink := (loops_shrink _).1 _ _ _ hend
    rw [List.length_append, List.length_cons] at hshrink
    obtain ⟨h', m, -, hsplit, rfl⟩ := (scanned _).1 0 _ _ (Nat.lt_succ_self _) hend
    have hlen' := congrArg List.length hsplit
    simp only [List.length_append, List.length_cons] at hlen'
    have hsame : h.length = h'.length := by omega
    have htail := (List.append_inj hsplit hsame).2
    rw [← List.tail_eq_of_cons_eq htail] at hend
    exact interpolationHoleEnd_iff.1 hend

theorem nested_of_split {pairs : List (List Char × List Char)} {offset : Nat} {s : List Char}
    {acc : TierParts (List Char)}
    (h : (tierBodyLoop (fun hole _ => hole) offset (writeBody s pairs) acc).2 =
      acc.holes ++ pairs.map Prod.fst) : ∀ p ∈ pairs, Nested p.1 := by
  induction pairs generalizing offset s acc with
  | nil => simp
  | cons p rest ih =>
    obtain ⟨hole, s'⟩ := p
    rw [writeBody, tierBodyLoop_encode] at h
    have hhole : Nested hole := by
      apply nested_of_cut (x := writeBody s' rest)
      rw [tierBodyLoop_hole] at h
      obtain ⟨more, hmore⟩ := tierBodyLoop_holes (fun hole _ => hole)
        (offset + width (encodeTierStatic s) + 2 + width
          ((hole ++ '}' :: writeBody s' rest).take ((hole ++ '}' :: writeBody s' rest).length -
            (findHoleEnd (hole ++ '}' :: writeBody s' rest)).length) ++
              (findHoleEnd (hole ++ '}' :: writeBody s' rest)).take 1))
        ((findHoleEnd (hole ++ '}' :: writeBody s' rest)).drop 1) _
      rw [hmore] at h
      simp only [List.append_assoc, List.append_cancel_left_eq, List.map_cons, List.cons_append,
        List.nil_append, List.cons.injEq] at h
      exact h.1
    rw [tierBodyLoop_nested _ _ hhole] at h
    intro q hq
    rcases List.mem_cons.1 hq with rfl | hq
    · exact hhole
    · refine ih (h.trans ?_) q hq
      simp

theorem holesAt_text (offset : Nat) (s : List Char) (pairs : List (List Char × List Char)) :
    holesAt (fun hole _ => hole) offset s pairs = pairs.map Prod.fst := by
  induction pairs generalizing offset s with
  | nil => rfl
  | cons p rest ih =>
    obtain ⟨hole, s'⟩ := p
    rw [holesAt, ih]
    rfl

/-- **The lexer and the parser agree on a written body** exactly when each of its holes is nested text
and the braces of the whole body balance. -/
theorem agrees_iff (s : List Char) (pairs : List (List Char × List Char)) :
    Agrees s pairs ↔ Balanced (marks (writeBody s pairs)) ∧ ∀ p ∈ pairs, Nested p.1 := by
  constructor
  · intro h
    refine ⟨(captured_iff s pairs []).1 (h.captured []), ?_⟩
    have hsplit := congrArg Prod.snd (h.split (List Char) (fun hole _ => hole) 0)
    rw [holesAt_text] at hsplit
    exact nested_of_split hsplit
  · rintro ⟨hb, hn⟩
    refine ⟨fun rest => (captured_iff s pairs rest).2 hb, ?_⟩
    intro ε parseHole base
    rw [parseTierExprBody, tierBodyLoop_writeBody parseHole hn]
    rfl

/-- A hole with the literal `"}"` is nested text, but the lexer ends the body inside it. -/
theorem literal_brace_ends_body :
    ¬ ∀ (s : List Char) (pairs : List (List Char × List Char)), (∀ p ∈ pairs, Nested p.1) →
      Agrees s pairs := by
  intro h
  have hn : Nested ['"', '}', '"'] := by
    have hbody : Body '"' ['}'] := .plain (by decide) (by decide) (by simp) .nil
    exact .literal (by decide) hbody .nil
  have hagrees := h [] [(['"', '}', '"'], [])] (by simpa using hn)
  exact absurd (hagrees.captured []) (by decide)

end Noeta.Lexer
