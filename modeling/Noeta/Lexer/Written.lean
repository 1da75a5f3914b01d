import Noeta.Lexer.Pass

/-!
# Literals as they are written

The code of a hole: tokens, groups of braces, bodies of text tiers, comments, and literals with holes
of their own. `interpolation_hole_end`, the string token, `interpolation_holes`, the parser's
`find_hole_end` and the comments collected all agree with what is written exactly when every hole is
also nested text for scanners that take the characters of a comment for code, no hole starts as a
shebang does, and the string pattern of `logos` matches.
-/

namespace Noeta.Lexer

mutual

/-- The code of a hole. -/
inductive Code where
  | nil
  | space (c : Char) (rest : Code)
  /-- A token without a brace, a quote or a comment in it. -/
  | word (kind : TokenKind) (w : List Char) (rest : Code)
  /-- Code in braces, opened by a brace or by a dot and a brace. -/
  | group (dotted : Bool) (inner rest : Code)
  /-- The braces of a text block and its body. -/
  | verbatim (body : List Char) (rest : Code)
  | literal (quote : Char) (body : Literal) (rest : Code)
  | line (comment : List Char) (rest : Code)
  | block (comment : List Char) (rest : Code)

/-- What is between the quotes of a literal. -/
inductive Literal where
  | nil
  | char (c : Char) (rest : Literal)
  | escape (c : Char) (rest : Literal)
  | hole (code : Code) (rest : Literal)

end

def opener (dotted : Bool) : List Char := if dotted then ['.', '{'] else ['{']

mutual

def Code.text : Code → List Char
  | .nil => []
  | .space c rest => c :: rest.text
  | .word _ w rest => w ++ rest.text
  | .group dotted inner rest => opener dotted ++ (inner.text ++ '}' :: rest.text)
  | .verbatim body rest => '{' :: (body ++ '}' :: rest.text)
  | .literal quote body rest => quote :: (body.text ++ quote :: rest.text)
  | .line comment rest => '/' :: '/' :: (comment ++ rest.text)
  | .block comment rest => '/' :: '*' :: (comment ++ '*' :: '/' :: rest.text)

def Literal.text : Literal → List Char
  | .nil => []
  | .char c rest => c :: rest.text
  | .escape c rest => '\\' :: c :: rest.text
  | .hole code rest => '$' :: '{' :: (code.text ++ '}' :: rest.text)

end

mutual

/-- The comments written in code at an offset, in order. -/
def Code.comments (pos : Nat) : Code → List Comment
  | .nil => []
  | .space _ rest => rest.comments (pos + 1)
  | .word _ w rest => rest.comments (pos + w.length)
  | .group dotted inner rest =>
    inner.comments (pos + (opener dotted).length) ++
      rest.comments (pos + (opener dotted).length + inner.text.length + 1)
  | .verbatim body rest => rest.comments (pos + 1 + body.length + 1)
  | .literal _ body rest =>
    body.comments (pos + 1) ++ rest.comments (pos + 1 + body.text.length + 1)
  | .line comment rest =>
    ⟨.line, pos, pos + (2 + comment.length)⟩ :: rest.comments (pos + (2 + comment.length))
  | .block comment rest =>
    ⟨.block, pos, pos + (2 + comment.length + 2)⟩ :: rest.comments (pos + (2 + comment.length + 2))

def Literal.comments (pos : Nat) : Literal → List Comment
  | .nil => []
  | .char _ rest => rest.comments (pos + 1)
  | .escape _ rest => rest.comments (pos + 2)
  | .hole code rest => code.comments (pos + 2) ++ rest.comments (pos + 2 + code.text.length + 1)

end

mutual

/-- The literals in code, at any depth. -/
def Code.literals : Code → List (Char × Literal)
  | .nil => []
  | .space _ rest => rest.literals
  | .word _ _ rest => rest.literals
  | .group _ inner rest => inner.literals ++ rest.literals
  | .verbatim _ rest => rest.literals
  | .literal quote body rest => (quote, body) :: (body.literals ++ rest.literals)
  | .line _ rest => rest.literals
  | .block _ rest => rest.literals

/-- The literals in the holes, at any depth. -/
def Literal.literals : Literal → List (Char × Literal)
  | .nil => []
  | .char _ rest => rest.literals
  | .escape _ rest => rest.literals
  | .hole code rest => code.literals ++ rest.literals

end

/-- The tokens behind code, the latest first. -/
def Code.tokens (pos : Nat) (tokens : List Token) : Code → List Token
  | .nil => tokens
  | .space _ rest => rest.tokens (pos + 1) tokens
  | .word kind w rest => rest.tokens (pos + w.length) (⟨kind, pos, w⟩ :: tokens)
  | .group dotted inner rest =>
    let openKind := if dotted then .dotLBrace else .lBrace
    let inside := inner.tokens (pos + (opener dotted).length) (⟨openKind, pos, opener dotted⟩ :: tokens)
    let close := pos + (opener dotted).length + inner.text.length
    rest.tokens (close + 1) (⟨.rBrace, close, ['}']⟩ :: inside)
  | .verbatim body rest =>
    rest.tokens (pos + 1 + body.length + 1)
      (⟨.rBrace, pos + 1 + body.length, ['}']⟩ :: ⟨.docText, pos + 1, body⟩ ::
        ⟨.lBrace, pos, ['{']⟩ :: tokens)
  | .literal quote body rest =>
    rest.tokens (pos + 1 + body.text.length + 1)
      (⟨literalKind quote, pos, quote :: (body.text ++ [quote])⟩ :: tokens)
  | .line comment rest => rest.tokens (pos + (2 + comment.length)) tokens
  | .block comment rest => rest.tokens (pos + (2 + comment.length + 2)) tokens

/-- The kinds that the grammar has forms of its own for. -/
def TokenKind.plain : TokenKind → Bool
  | .stringLit | .rawStr | .templateStr | .lBrace | .dotLBrace | .rBrace | .docText
  | .blockCommentOpen | .lineComment => false
  | _ => true

section WellFormed

variable (tiers : List (List Char))

mutual

/-- The code is read as it is written: in front of `after`, behind `tokens`. -/
def Code.WellFormed (pos : Nat) (tokens : List Token) (after : List Char) : Code → Prop
  | .nil => True
  | .space c rest => isSpace c = true ∧ rest.WellFormed (pos + 1) tokens after
  | .word kind w rest =>
    w ≠ [] ∧ logosMatch (w ++ (rest.text ++ after)) = some (kind, w.length) ∧ kind.plain = true ∧
      rest.WellFormed (pos + w.length) (⟨kind, pos, w⟩ :: tokens) after
  | .group dotted inner rest =>
    (dotted = false → opensTextBlock tiers tokens = false) ∧
      inner.WellFormed (pos + (opener dotted).length)
        (⟨if dotted then .dotLBrace else .lBrace, pos, opener dotted⟩ :: tokens)
        ('}' :: (rest.text ++ after)) ∧
      rest.WellFormed (pos + (opener dotted).length + inner.text.length + 1)
        (⟨.rBrace, pos + (opener dotted).length + inner.text.length, ['}']⟩ ::
          inner.tokens (pos + (opener dotted).length)
            (⟨if dotted then .dotLBrace else .lBrace, pos, opener dotted⟩ :: tokens)) after
  | .verbatim body rest =>
    opensTextBlock tiers tokens = true ∧ matchingBrace (body ++ ['}']) = some ['}'] ∧
      rest.WellFormed (pos + 1 + body.length + 1)
        (⟨.rBrace, pos + 1 + body.length, ['}']⟩ :: ⟨.docText, pos + 1, body⟩ ::
          ⟨.lBrace, pos, ['{']⟩ :: tokens) after
  | .literal quote body rest =>
    isQuote quote = true ∧ body.WellFormed quote ∧
      rest.WellFormed (pos + 1 + body.text.length + 1)
        (⟨literalKind quote, pos, quote :: (body.text ++ [quote])⟩ :: tokens) after
  | .line comment rest =>
    '\n' ∉ comment ∧ rest.text.head? = some '\n' ∧
      rest.WellFormed (pos + (2 + comment.length)) tokens after
  | .block comment rest =>
    blockCommentEnd (comment ++ ['*', '/']) = some [] ∧
      rest.WellFormed (pos + (2 + comment.length + 2)) tokens after

/-- Each hole is well formed code by itself. -/
def Literal.WellFormed (quote : Char) : Literal → Prop
  | .nil => True
  | .char c rest =>
    c ≠ '\\' ∧ c ≠ quote ∧ ¬ (quote ≠ '\'' ∧ c = '$' ∧ rest.text.head? = some '{') ∧
      rest.WellFormed quote
  | .escape c rest => c ≠ '\n' ∧ rest.WellFormed quote
  | .hole code rest => quote ≠ '\'' ∧ code.WellFormed 0 [] [] ∧ rest.WellFormed quote

end

end WellFormed

/-- A hole directly in a literal: where its code starts, the code, and what follows the brace. -/
structure Hole where
  start : Nat
  code : Code
  following : List Char

def Literal.holes (pos : Nat) : Literal → List Hole
  | .nil => []
  | .char _ rest => rest.holes (pos + 1)
  | .escape _ rest => rest.holes (pos + 2)
  | .hole code rest => ⟨pos + 2, code, rest.text⟩ :: rest.holes (pos + 2 + code.text.length + 1)

/-- The code of each hole. -/
def Literal.codes : Literal → List Code
  | .nil => []
  | .char _ rest => rest.codes
  | .escape _ rest => rest.codes
  | .hole code rest => code :: rest.codes

theorem Literal.code_length : ∀ {l : Literal} {code : Code}, code ∈ l.codes →
    code.text.length < l.text.length
  | .nil, _, h => absurd h List.not_mem_nil
  | .char _ _, _, h => Nat.lt_succ_of_lt (Literal.code_length h)
  | .escape _ _, _, h => Nat.lt_succ_of_lt (Nat.lt_succ_of_lt (Literal.code_length h))
  | .hole inner rest, code, h => by
    simp only [Literal.text, List.length_cons, List.length_append]
    obtain rfl | h := List.mem_cons.1 h
    · omega
    · have := Literal.code_length h
      omega

section Exact

variable (recover : List Char → Nat) (tiers : List (List Char))

/-- The scanners, the lexer and the parser read the literal as it is written, whatever follows it. -/
structure Exact (quote : Char) (body : Literal) (pos : Nat) (after : List Char) : Prop where
  ends : ∀ h ∈ body.holes pos,
    interpolationHoleEnd (h.code.text ++ '}' :: (h.following ++ quote :: after)) =
      some (h.following ++ quote :: after)
  token : ∃ n, logosMatch (quote :: (body.text ++ quote :: after)) = some (literalKind quote, n) ∧
    literalLength quote (body.text ++ quote :: after) n = body.text.length + 2
  ranges : interpolationHoles quote pos (body.text ++ quote :: after) =
    (body.holes pos).map fun h => (h.start, h.code.text)
  parsed : ∀ h ∈ body.holes pos,
    findHoleEnd (h.code.text ++ '}' :: h.following) = '}' :: h.following
  comments : (interpolationHoles quote pos (body.text ++ quote :: after)).flatMap
    (fun h => holeComments recover tiers h.1 h.2) = body.comments pos

/-- Every hole is nested text that starts no shebang, and the pattern of the literal matches. -/
def Readable (quote : Char) (body : Literal) : Prop :=
  (∀ code ∈ body.codes, Nested code.text ∧ ['#', '!'].isPrefixOf code.text = false) ∧
    (Pattern.quotedTail quote (body.text ++ [quote])).isSome

end Exact

/-! ## The string pattern -/

namespace Pattern

theorem quotedTail_escape (quote c : Char) (rest : List Char) :
    quotedTail quote ('\\' :: c :: rest) =
      if c = '\n' then none else (quotedTail quote rest).map (2 + ·) := by
  rw [quotedTail.eq_def]
  simp

theorem quotedTail_cons (quote : Char) {c : Char} (hc : c ≠ '\\') (rest : List Char) :
    quotedTail quote (c :: rest) =
      if c = quote then some 1 else (quotedTail quote rest).map (1 + ·) := by
  rw [quotedTail.eq_def]
  simp [hc]

theorem quotedTail_le {quote : Char} {text : List Char} {n : Nat}
    (h : quotedTail quote text = some n) : 0 < n ∧ n ≤ text.length := by
  fun_induction quotedTail quote text generalizing n with
  | case1 => cases h
  | case2 => cases h
  | case3 => cases h
  | case4 d rest' hd ih =>
    obtain ⟨m, hm, rfl⟩ := Option.map_eq_some_iff.1 h
    have := ih hm
    simp only [List.length_cons]
    omega
  | case5 =>
    obtain rfl := Option.some.inj h
    simp
  | case6 c rest hc hquote ih =>
    obtain ⟨m, hm, rfl⟩ := Option.map_eq_some_iff.1 h
    have := ih hm
    simp only [List.length_cons]
    omega

theorem quotedTail_append {quote : Char} {text : List Char} {n : Nat}
    (h : quotedTail quote text = some n) (x : List Char) : quotedTail quote (text ++ x) = some n := by
  fun_induction quotedTail quote text generalizing n with
  | case1 => cases h
  | case2 => cases h
  | case3 => cases h
  | case4 d rest' hd ih =>
    obtain ⟨m, hm, rfl⟩ := Option.map_eq_some_iff.1 h
    rw [List.cons_append, List.cons_append, quotedTail_escape, if_neg hd, ih hm]
    rfl
  | case5 rest hquote =>
    rw [List.cons_append, quotedTail_cons _ hquote, if_pos rfl]
    exact h
  | case6 c rest hc hquote ih =>
    obtain ⟨m, hm, rfl⟩ := Option.map_eq_some_iff.1 h
    rw [List.cons_append, quotedTail_cons _ hc, if_neg hquote, ih hm]
    rfl

theorem quotedTail_of_append {quote : Char} {text x : List Char} {n : Nat}
    (h : quotedTail quote (text ++ x) = some n) (hn : n ≤ text.length) :
    quotedTail quote text = some n := by
  fun_induction quotedTail quote text generalizing n with
  | case1 =>
    have := quotedTail_le h
    simp only [List.length_nil] at hn
    omega
  | case2 =>
    cases x with
    | nil => exact h
    | cons d x =>
      rw [List.cons_append, List.nil_append, quotedTail_escape] at h
      split at h
      · cases h
      · obtain ⟨m, hm, rfl⟩ := Option.map_eq_some_iff.1 h
        simp only [List.length_singleton] at hn
        omega
  | case3 => 
    rw [List.cons_append, List.cons_append, quotedTail_escape, if_pos rfl] at h
    exact h
  | case4 d rest' hd ih =>
    rw [List.cons_append, List.cons_append, quotedTail_escape, if_neg hd] at h
    obtain ⟨m, hm, rfl⟩ := Option.map_eq_some_iff.1 h
    simp only [List.length_cons] at hn
    rw [ih hm (by omega)]
    rfl
  | case5 rest hquote =>
    rw [List.cons_append, quotedTail_cons _ hquote, if_pos rfl] at h
    exact h
  | case6 c rest hc hquote ih =>
    rw [List.cons_append, quotedTail_cons _ hc, if_neg hquote] at h
    obtain ⟨m, hm, rfl⟩ := Option.map_eq_some_iff.1 h
    simp only [List.length_cons] at hn
    rw [ih hm (by omega)]
    rfl

end Pattern

/-! ## The scanners -/

section Scan

variable {tiers : List (List Char)} {quote : Char}

theorem Literal.holes_code (l : Literal) (pos : Nat) : (l.holes pos).map Hole.code = l.codes := by
  match l with
  | .nil => rfl
  | .char c rest => exact rest.holes_code (pos + 1)
  | .escape c rest => exact rest.holes_code (pos + 2)
  | .hole code rest => exact congrArg (code :: ·) (rest.holes_code _)

theorem Literal.code_mem {l : Literal} {pos : Nat} {h : Hole} (hh : h ∈ l.holes pos) :
    h.code ∈ l.codes :=
  l.holes_code pos ▸ List.mem_map_of_mem hh

theorem Literal.exists_hole {l : Literal} {code : Code} (hc : code ∈ l.codes) (pos : Nat) :
    ∃ h ∈ l.holes pos, h.code = code :=
  List.mem_map.1 (l.holes_code pos ▸ hc)

theorem Literal.body {l : Literal} (hl : l.WellFormed tiers quote)
    (hn : ∀ code ∈ l.codes, Nested code.text) : Body quote l.text := by
  match l with
  | .nil => exact .nil
  | .char c rest =>
    obtain ⟨hescape, hquote, hhole, hrest⟩ := hl
    exact .plain hescape hquote hhole (rest.body hrest hn)
  | .escape c rest => exact .escape (rest.body hl.2 hn)
  | .hole code rest =>
    obtain ⟨hraw, -, hrest⟩ := hl
    rw [Literal.codes, List.forall_mem_cons] at hn
    exact .hole hraw hn.1 (rest.body hrest hn.2)

theorem quote_ne_backslash (hq : isQuote quote = true) : quote ≠ '\\' := by
  rintro rfl
  exact absurd hq (by decide)

theorem Literal.quotedTail_raw {l : Literal} (hl : l.WellFormed tiers '\'') (after : List Char) :
    Pattern.quotedTail '\'' (l.text ++ '\'' :: after) = some (l.text.length + 1) := by
  match l with
  | .nil =>
    rw [Literal.text, List.nil_append, Pattern.quotedTail_cons _ (by decide), if_pos rfl]
    rfl
  | .char c rest =>
    obtain ⟨hescape, hquote, -, hrest⟩ := hl
    rw [Literal.text, List.cons_append, Pattern.quotedTail_cons _ hescape, if_neg hquote,
      rest.quotedTail_raw hrest after]
    simp [Nat.add_comm]
  | .escape c rest =>
    rw [Literal.text, List.cons_append, List.cons_append, Pattern.quotedTail_escape, if_neg hl.1,
      rest.quotedTail_raw hl.2 after]
    simp
    omega
  | .hole code rest => exact absurd rfl hl.1

/-- The ranges of nested holes are their contents. -/
theorem Literal.holesLoop_eq (hq : isQuote quote = true) (hraw : quote ≠ '\'') {l : Literal}
    (hl : l.WellFormed tiers quote) (hn : ∀ code ∈ l.codes, Nested code.text) (pos : Nat)
    (after : List Char) (fuel : Nat) (hfuel : (l.text ++ quote :: after).length < fuel) :
    holesLoop quote fuel pos (l.text ++ quote :: after) =
      (l.holes pos).map fun h => (h.start, h.code.text) := by
  match fuel, l with
  | fuel + 1, .nil =>
    rw [Literal.text, List.nil_append, holesLoop, if_neg (quote_ne_backslash hq), if_pos rfl]
    rfl
  | fuel + 1, .char c rest =>
    obtain ⟨hescape, hquote, hhole, hrest⟩ := hl
    have hhole' : ¬ (c = '$' ∧ (rest.text ++ quote :: after).head? = some '{') := by
      rw [head?_append_quote hq]
      exact fun h => hhole ⟨hraw, h⟩
    rw [Literal.text, List.cons_append, holesLoop, if_neg hescape, if_neg hquote, if_neg hhole']
    exact rest.holesLoop_eq hq hraw hrest hn (pos + 1) after fuel
      (by simpa [Literal.text] using hfuel)
  | fuel + 1, .escape c rest =>
    rw [Literal.text, List.cons_append, holesLoop, if_pos rfl]
    exact rest.holesLoop_eq hq hraw hl.2 hn (pos + 2) after fuel
      (by simp [Literal.text] at hfuel ⊢; omega)
  | fuel + 1, .hole code rest =>
    obtain ⟨-, -, hrest⟩ := hl
    rw [Literal.codes, List.forall_mem_cons] at hn
    have hdollar : '$' ≠ quote := by
      rintro rfl
      exact absurd hq (by decide)
    have hsplit : (Literal.hole code rest).text ++ quote :: after =
        '$' :: '{' :: (code.text ++ '}' :: (rest.text ++ quote :: after)) := by
      simp [Literal.text]
    have hlength : (code.text ++ '}' :: (rest.text ++ quote :: after)).length -
        (rest.text ++ quote :: after).length - 1 = code.text.length := by
      simp only [List.length_append, List.length_cons]
      omega
    rw [hsplit] at hfuel
    rw [hsplit, holesLoop, if_neg (by decide), if_neg hdollar, if_pos ⟨rfl, rfl⟩, List.tail_cons,
      interpolationHoleEnd_iff.2 hn.1]
    simp only [hlength, List.take_left]
    rw [rest.holesLoop_eq hq hraw hrest hn.2 _ after fuel (by simp at hfuel ⊢; omega)]
    rfl

theorem token_iff (hq : isQuote quote = true) {l : Literal} (hbody : Body quote l.text)
    (after : List Char) :
    (∃ n, logosMatch (quote :: (l.text ++ quote :: after)) = some (literalKind quote, n) ∧
      literalLength quote (l.text ++ quote :: after) n = l.text.length + 2) ↔
        (Pattern.quotedTail quote (l.text ++ [quote])).isSome := by
  have hend := (interpolatedStringEnd_iff hq (r := after)).2 hbody
  have hlength : 1 + (l.text ++ quote :: after).length - after.length = l.text.length + 2 := by
    simp only [List.length_append, List.length_cons]
    omega
  have hsplit : l.text ++ quote :: after = (l.text ++ [quote]) ++ after := by simp
  rw [logosMatch_quote hq]
  simp only [literalLength, hend, hlength, Option.map_eq_some_iff, Prod.mk.injEq, true_and]
  constructor
  · rintro ⟨n, ⟨m, hm, rfl⟩, hmax⟩
    rw [hsplit] at hm
    have hle : m ≤ (l.text ++ [quote]).length := by
      simp only [List.length_append, List.length_singleton]
      omega
    rw [Pattern.quotedTail_of_append hm hle]
    rfl
  · intro h
    obtain ⟨m, hm⟩ := Option.isSome_iff_exists.1 h
    have hle := (Pattern.quotedTail_le hm).2
    simp only [List.length_append, List.length_singleton] at hle
    refine ⟨1 + m, ⟨m, ?_, rfl⟩, by omega⟩
    rw [hsplit]
    exact Pattern.quotedTail_append hm after

end Scan

/-! ## The comments -/

mutual

theorem Code.comments_add : ∀ (c : Code) (pos k : Nat),
    c.comments (pos + k) = (c.comments pos).map (Comment.rebase k)
  | .nil, _, _ => rfl
  | .space _ rest, pos, k | .word _ w rest, pos, k => by
    rw [Code.comments, Code.comments, ← rest.comments_add, Nat.add_right_comm]
  | .group dotted inner rest, pos, k => by
    rw [Code.comments, Code.comments, List.map_append, ← inner.comments_add, ← rest.comments_add]
    congr 2 <;> omega
  | .verbatim body rest, pos, k => by
    rw [Code.comments, Code.comments, ← rest.comments_add]
    congr 1
    omega
  | .literal _ body rest, pos, k => by
    rw [Code.comments, Code.comments, List.map_append, ← body.comments_add, ← rest.comments_add]
    congr 2 <;> omega
  | .line comment rest, pos, k | .block comment rest, pos, k => by
    rw [Code.comments, Code.comments, List.map_cons, ← rest.comments_add]
    simp only [Comment.rebase]
    congr 2 <;> omega

theorem Literal.comments_add : ∀ (l : Literal) (pos k : Nat),
    l.comments (pos + k) = (l.comments pos).map (Comment.rebase k)
  | .nil, _, _ => rfl
  | .char _ rest, pos, k | .escape _ rest, pos, k => by
    rw [Literal.comments, Literal.comments, ← rest.comments_add, Nat.add_right_comm]
  | .hole code rest, pos, k => by
    rw [Literal.comments, Literal.comments, List.map_append, ← code.comments_add,
      ← rest.comments_add]
    congr 2 <;> omega

end

theorem blockCommentFrom_other {depth : Nat} {c d : Char} (hopen : ¬ (c = '/' ∧ d = '*'))
    (hclose : ¬ (c = '*' ∧ d = '/')) (rest : List Char) :
    blockCommentFrom depth (c :: d :: rest) = blockCommentFrom depth (d :: rest) := by
  rw [blockCommentFrom.eq_def]
  split
  · rename_i heq
    simp only [List.cons.injEq] at heq
    exact absurd ⟨heq.1, heq.2.1⟩ hopen
  · rename_i heq
    simp only [List.cons.injEq] at heq
    exact absurd ⟨heq.1, heq.2.1⟩ hclose
  · rename_i heq
    simp only [List.cons.injEq] at heq
    rw [heq.2]
  · rename_i heq
    cases heq

theorem blockCommentFrom_append {depth : Nat} {text r : List Char}
    (h : blockCommentFrom depth text = some r) (x : List Char) :
    blockCommentFrom depth (text ++ x) = some (r ++ x) := by
  fun_induction blockCommentFrom depth text with
  | case1 depth rest ih => exact ih h
  | case2 rest =>
    obtain rfl := Option.some.inj h
    rfl
  | case3 depth rest hd ih =>
    rw [List.cons_append, List.cons_append, blockCommentFrom, if_neg hd]
    exact ih h
  | case4 depth c rest hopen hclose ih =>
    cases rest with
    | nil => cases h
    | cons d rest =>
      rw [List.cons_append, List.cons_append, blockCommentFrom_other]
      · exact ih h
      · rintro ⟨rfl, rfl⟩
        exact hopen rest rfl rfl
      · rintro ⟨rfl, rfl⟩
        exact hclose rest rfl rfl
  | case5 => cases h

theorem matchingBraceFrom_extend {depth : Nat} {text r : List Char}
    (h : matchingBraceFrom depth text = some r) (x : List Char) :
    matchingBraceFrom depth (text ++ x) = some (r ++ x) := by
  fun_induction matchingBraceFrom depth text with
  | case1 => cases h
  | case2 => cases h
  | case3 depth c' rest' hesc ih =>
    rw [List.cons_append, List.cons_append, matchingBraceFrom_escape, if_pos hesc]
    exact ih h
  | case4 depth c' rest' hesc ih =>
    rw [List.cons_append, List.cons_append, matchingBraceFrom_escape, if_neg hesc]
    exact ih h
  | case5 depth rest hescape ih =>
    rw [List.cons_append, matchingBraceFrom_cons hescape, if_pos rfl]
    exact ih h
  | case6 rest hescape _ =>
    obtain rfl := Option.some.inj h
    rw [List.cons_append, matchingBraceFrom_close, if_pos rfl]
  | case7 depth rest hd _ _ ih =>
    rw [List.cons_append, matchingBraceFrom_close, if_neg hd]
    exact ih h
  | case8 depth c rest hescape hopen hclose ih =>
    rw [List.cons_append, matchingBraceFrom_cons hescape, if_neg hopen, if_neg hclose]
    exact ih h

section Lexed

variable {recover : List Char → Nat} {tiers : List (List Char)}

theorem logosMatch_space {c : Char} (hc : isSpace c = true) (rest : List Char) :
    logosMatch (c :: rest) = none := by
  have hspaces : c = ' ' ∨ c = '\t' ∨ c = '\r' ∨ c = '\n' := by
    simpa [isSpace, or_assoc] using hc
  obtain rfl | rfl | rfl | rfl := hspaces <;> rfl

theorem isSpace_of_match {c : Char} {rest : List Char} {m : TokenKind × Nat}
    (h : logosMatch (c :: rest) = some m) : isSpace c = false := by
  by_contra hspace
  rw [logosMatch_space (by simpa using hspace)] at h
  cases h

theorem reads_space {c : Char} (hc : isSpace c = true) (st : LexState) (after : List Char) :
    ReadsTo recover tiers true st (st.skip 1) [c] after := by
  apply ReadsTo.round
  intro fuel _
  rw [lexLoop, if_pos hc]
  rfl

theorem reads_word {kind : TokenKind} {w after : List Char} (hw : w ≠ [])
    (hm : logosMatch (w ++ after) = some (kind, w.length)) (hk : kind.plain = true)
    (st : LexState) : ReadsTo recover tiers true st (st.push kind w) w after := by
  obtain ⟨c, w, rfl⟩ := List.exists_cons_of_ne_nil hw
  rw [List.cons_append] at hm
  apply ReadsTo.round
  intro fuel _
  have htake : (c :: (w ++ after)).take (c :: w).length = c :: w := List.take_left
  have hdrop : (c :: (w ++ after)).drop (c :: w).length = after := List.drop_left
  rw [lexLoop, if_neg (by simp [isSpace_of_match hm]), hm]
  cases kind <;> first
    | exact absurd hk (by decide)
    | simp only [htake, hdrop, reduceCtorEq, or_self, if_false]

theorem reads_opener (dotted : Bool) (st : LexState) (after : List Char)
    (h : dotted = false → opensTextBlock tiers st.tokens = false) :
    ReadsTo recover tiers true st (st.push (if dotted then .dotLBrace else .lBrace) (opener dotted))
      (opener dotted) after := by
  cases dotted with
  | true =>
    apply ReadsTo.round
    intro fuel _
    rw [List.singleton_append, lexLoop, if_neg (by decide), logosMatch_dotLBrace]
    rfl
  | false =>
    apply ReadsTo.round
    intro fuel _
    rw [List.nil_append, lexLoop, if_neg (by decide), logosMatch_lBrace]
    simp [h rfl, opener]

theorem reads_close (st : LexState) (after : List Char) :
    ReadsTo recover tiers true st (st.push .rBrace ['}']) ['}'] after := by
  apply ReadsTo.round
  intro fuel _
  rw [List.nil_append, lexLoop, if_neg (by decide), logosMatch_rBrace]
  rfl

theorem reads_verbatim {body : List Char} (hbody : matchingBrace (body ++ ['}']) = some ['}'])
    {st : LexState} (hopens : opensTextBlock tiers st.tokens = true) (after : List Char) :
    ReadsTo recover tiers true st (((st.push .lBrace ['{']).push .docText body).push .rBrace ['}'])
      ('{' :: (body ++ ['}'])) after := by
  apply ReadsTo.round
  intro fuel _
  have hclose : matchingBrace (body ++ ['}'] ++ after) = some ('}' :: after) :=
    matchingBraceFrom_extend hbody after
  have hlength : (body ++ ['}'] ++ after).length - ('}' :: after).length = body.length := by
    simp only [List.length_append, List.length_cons, List.length_nil]
    omega
  have htake : (body ++ ['}'] ++ after).take body.length = body := by
    rw [List.append_assoc, List.take_left]
  rw [lexLoop, if_neg (by decide), logosMatch_lBrace]
  simp only [List.drop_succ_cons, List.drop_zero, List.take_succ_cons, List.take_zero, hopens, if_true,
    hclose, hlength, htake]

theorem reads_line {comment after : List Char} (hc : '\n' ∉ comment)
    (hafter : after.head? = some '\n') (st : LexState) :
    ReadsTo recover tiers true st (st.comment true .line (2 + comment.length)) ('/' :: '/' :: comment)
      after := by
  obtain ⟨after, rfl⟩ : ∃ l, after = '\n' :: l := by
    cases after with
    | nil => cases hafter
    | cons c l => exact ⟨l, by rw [Option.some.inj hafter]⟩
  apply ReadsTo.round
  intro fuel _
  have hdrop : ('/' :: '/' :: (comment ++ '\n' :: after)).drop (2 + comment.length) =
      '\n' :: after := by
    rw [Nat.add_comm, List.drop_succ_cons, List.drop_succ_cons, List.drop_left]
  rw [List.cons_append, lexLoop, if_neg (by decide), logosMatch_lineComment hc]
  simp only [hdrop]

theorem reads_block {comment : List Char} (hc : blockCommentEnd (comment ++ ['*', '/']) = some [])
    (st : LexState) (after : List Char) :
    ReadsTo recover tiers true st (st.comment true .block (2 + comment.length + 2))
      ('/' :: '*' :: (comment ++ ['*', '/'])) after := by
  apply ReadsTo.round
  intro fuel _
  have hend : blockCommentEnd (comment ++ ['*', '/'] ++ after) = some after :=
    blockCommentFrom_append hc after
  have hlength : ('/' :: '*' :: (comment ++ ['*', '/'] ++ after)).length - after.length =
      2 + comment.length + 2 := by
    simp only [List.length_append, List.length_cons, List.length_nil]
    omega
  rw [List.cons_append, lexLoop, if_neg (by decide), logosMatch_blockCommentOpen]
  simp only [List.drop_succ_cons, List.drop_zero, hend, hlength]

theorem reads_raw {l : Literal} (hl : l.WellFormed tiers '\'') (st : LexState) (after : List Char) :
    ReadsTo recover tiers true st (st.push .rawStr ('\'' :: (l.text ++ ['\'']))) ('\'' :: (l.text ++ ['\'']))
      after := by
  apply ReadsTo.round
  intro fuel _
  have hsplit : l.text ++ ['\''] ++ after = l.text ++ '\'' :: after := by simp
  have hm : logosMatch ('\'' :: (l.text ++ ['\''] ++ after)) = some (.rawStr, l.text.length + 2) := by
    rw [hsplit, logosMatch_quote (by decide), l.quotedTail_raw hl after, Option.map_some, literalKind]
    simp
    omega
  have htake : ('\'' :: (l.text ++ ['\''] ++ after)).take (l.text.length + 2) =
      '\'' :: (l.text ++ ['\'']) := by
    rw [List.take_succ_cons, List.take_left' (by simp)]
  have hdrop : ('\'' :: (l.text ++ ['\''] ++ after)).drop (l.text.length + 2) = after := by
    rw [List.drop_succ_cons, List.drop_left' (by simp)]
  rw [lexLoop, if_neg (by decide), hm]
  simp only [reduceCtorEq, or_self, if_false, htake, hdrop]

theorem reads_literal {quote : Char} (hq : isQuote quote = true) (hraw : quote ≠ '\'') {l : Literal}
    (hl : l.WellFormed tiers quote) (hread : Readable quote l)
    (hinner : ∀ fuel pos, l.text.length < fuel → (l.holes pos).flatMap (fun h =>
      (lexLoop recover tiers true fuel (lexStart true h.code.text).1
        (lexStart true h.code.text).2).comments.map (Comment.rebase h.start)) = l.comments pos)
    (st : LexState) (after : List Char) :
    ReadsTo recover tiers true st
      ((st.push (literalKind quote) (quote :: (l.text ++ [quote]))).addComments
        (l.comments (st.pos + 1))) (quote :: (l.text ++ [quote])) after := by
  have hnested := fun code hc => (hread.1 code hc).1
  apply ReadsTo.round
  intro fuel hfuel
  have hsplit : l.text ++ [quote] ++ after = l.text ++ quote :: after := by simp
  rw [hsplit] at hfuel ⊢
  obtain ⟨n, hm, hlength⟩ := (token_iff hq (l.body hl hnested) after).2 hread.2
  have htake : (quote :: (l.text ++ quote :: after)).take (l.text.length + 2) =
      quote :: (l.text ++ [quote]) := by
    rw [← hsplit, List.take_succ_cons, List.take_left' (by simp)]
  have hdrop : (quote :: (l.text ++ quote :: after)).drop (l.text.length + 2) = after := by
    rw [← hsplit, List.drop_succ_cons, List.drop_left' (by simp)]
  have hholes : interpolationHoles quote (st.pos + 1) (l.text ++ quote :: after) =
      (l.holes (st.pos + 1)).map fun h => (h.start, h.code.text) := by
    rw [interpolationHoles, if_neg hraw]
    exact l.holesLoop_eq hq hraw hl hnested _ after _ (Nat.lt_succ_self _)
  have hkind : literalKind quote = .stringLit ∨ literalKind quote = .templateStr := by
    rw [literalKind, if_neg hraw]
    split <;> simp
  have hfuel' : l.text.length < fuel := by
    rw [List.length_append] at hfuel
    omega
  rw [lexLoop, if_neg (by simp [isSpace_of_match hm]), hm]
  obtain hk | hk := hkind
  · simp only [hk, true_or, if_true, hlength, htake, hdrop, hholes, List.flatMap_map]
    rw [hinner fuel _ hfuel']
  · simp only [hk, or_true, if_true, hlength, htake, hdrop, hholes, List.flatMap_map]
    rw [hinner fuel _ hfuel']

/-- The state behind code. -/
def Code.behind (c : Code) (st : LexState) : LexState :=
  ⟨st.pos + c.text.length, c.tokens st.pos st.tokens, st.comments ++ c.comments st.pos,
    st.diagnostics⟩

theorem Literal.comments_raw : ∀ {l : Literal}, l.WellFormed tiers '\'' → ∀ pos, l.comments pos = []
  | .nil, _, _ => rfl
  | .char _ _, hl, pos => comments_raw hl.2.2.2 (pos + 1)
  | .escape _ _, hl, pos => comments_raw hl.2 (pos + 2)
  | .hole _ _, hl, _ => absurd rfl hl.1

theorem ReadsTo.code {st st' : LexState} {piece : List Char} {c rest : Code} {after : List Char}
    (hpiece : ReadsTo recover tiers true st st' piece (rest.text ++ after))
    (hrest : ReadsTo recover tiers true st' (rest.behind st') rest.text after)
    (htext : c.text = piece ++ rest.text) (hbehind : rest.behind st' = c.behind st) :
    ReadsTo recover tiers true st (c.behind st) c.text after := by
  rw [htext, ← hbehind]
  exact hpiece.append hrest

mutual

/-- Well formed code is read as it is written, when the literals in it are readable. -/
theorem Code.reads : ∀ (c : Code) (st : LexState) (after : List Char),
    c.WellFormed tiers st.pos st.tokens after →
    (∀ l ∈ c.literals, l.1 ≠ '\'' → Readable l.1 l.2) →
    ReadsTo recover tiers true st (c.behind st) c.text after
  | .nil, st, after, _, _ => by
    have hbehind : Code.nil.behind st = st := by
      simp [Code.behind, Code.text, Code.tokens, Code.comments]
    rw [hbehind]
    exact .nil st after
  | .space c rest, st, after, hc, hl => by
    refine .code (reads_space hc.1 st _) (rest.reads _ after hc.2 hl) rfl ?_
    simp [Code.behind, LexState.skip, Code.text, Code.tokens, Code.comments]
    omega
  | .word kind w rest, st, after, hc, hl => by
    obtain ⟨hw, hm, hk, hrest⟩ := hc
    refine .code (reads_word hw hm hk st) (rest.reads _ after hrest hl) rfl ?_
    simp [Code.behind, LexState.push, Code.text, Code.tokens, Code.comments]
    omega
  | .group dotted inner rest, st, after, hc, hl => by
    obtain ⟨hopens, hinner, hrest⟩ := hc
    rw [Code.literals, List.forall_mem_append] at hl
    let opened := st.push (if dotted then .dotLBrace else .lBrace) (opener dotted)
    have hinside : ReadsTo recover tiers true opened ((inner.behind opened).push .rBrace ['}'])
        (inner.text ++ ['}']) (rest.text ++ after) :=
      (inner.reads opened _ hinner hl.1).append (reads_close _ _)
    have hgroup := (reads_opener dotted st _ hopens).append hinside
    refine .code hgroup (rest.reads _ after hrest hl.2) ?_ ?_
    · simp [Code.text]
    · simp [opened, Code.behind, LexState.push, Code.text, Code.tokens, Code.comments]
      omega
  | .verbatim body rest, st, after, hc, hl => by
    obtain ⟨hopens, hbody, hrest⟩ := hc
    refine .code (reads_verbatim hbody hopens _) (rest.reads _ after hrest hl) ?_ ?_
    · simp [Code.text]
    · simp [Code.behind, LexState.push, Code.text, Code.tokens, Code.comments]
      omega
  | .literal quote body rest, st, after, hc, hl => by
    obtain ⟨hq, hbody, hrest⟩ := hc
    rw [Code.literals, List.forall_mem_cons, List.forall_mem_append] at hl
    have hlength : st.pos + 1 + body.text.length + 1 =
        st.pos + (quote :: (body.text ++ [quote])).length := by
      simp only [List.length_cons, List.length_append, List.length_nil]
      omega
    rw [hlength] at hrest
    by_cases hraw : quote = '\''
    · subst hraw
      refine .code (reads_raw hbody st _) (rest.reads _ after hrest hl.2.2) (by simp [Code.text]) ?_
      simp only [Code.behind, LexState.push, Code.text, Code.tokens, Code.comments, ← hlength,
        Literal.comments_raw hbody]
      simp [literalKind]
      omega
    · refine .code (reads_literal hq hraw hbody (hl.1 hraw) ?_ st _) (rest.reads _ after hrest hl.2.2)
        (by simp [Code.text]) ?_
      · refine fun fuel pos hfuel => body.inner hbody (fun c hc => ((hl.1 hraw).1 c hc).2) hl.2.1
          (fun _ => fuel) pos fun code hcode => ?_
        exact Nat.lt_trans (Literal.code_length hcode) hfuel
      · simp only [Code.behind, LexState.push, LexState.addComments, Code.text, Code.tokens,
          Code.comments, ← hlength]
        simp
        omega
  | .line comment rest, st, after, hc, hl => by
    obtain ⟨hcomment, hnewline, hrest⟩ := hc
    have hafter : (rest.text ++ after).head? = some '\n' := by
      rw [List.head?_append, hnewline]
      rfl
    refine .code (reads_line hcomment hafter st) (rest.reads _ after hrest hl) rfl ?_
    simp [Code.behind, LexState.comment, Code.text, Code.tokens, Code.comments]
    omega
  | .block comment rest, st, after, hc, hl => by
    refine .code (reads_block hc.1 st _) (rest.reads _ after hc.2 hl) ?_ ?_
    · simp [Code.text]
    · simp [Code.behind, LexState.comment, Code.text, Code.tokens, Code.comments]
      omega

theorem Literal.inner : ∀ {quote : Char} (l : Literal), l.WellFormed tiers quote →
    (∀ code ∈ l.codes, ['#', '!'].isPrefixOf code.text = false) →
    (∀ l' ∈ l.literals, l'.1 ≠ '\'' → Readable l'.1 l'.2) →
    ∀ (fuel : List Char → Nat) (pos : Nat), (∀ code ∈ l.codes, code.text.length < fuel code.text) →
    (l.holes pos).flatMap (fun h =>
      (lexLoop recover tiers true (fuel h.code.text) (lexStart true h.code.text).1
        (lexStart true h.code.text).2).comments.map (Comment.rebase h.start)) = l.comments pos
  | _, .nil, _, _, _, _, _, _ => rfl
  | _, .char _ rest, hl, hs, hr, fuel, pos, hfuel =>
    rest.inner hl.2.2.2 hs hr fuel (pos + 1) hfuel
  | _, .escape _ rest, hl, hs, hr, fuel, pos, hfuel => rest.inner hl.2 hs hr fuel (pos + 2) hfuel
  | _, .hole code rest, hl, hs, hr, fuel, pos, hfuel => by
    obtain ⟨-, hcode, hrest⟩ := hl
    rw [Literal.codes, List.forall_mem_cons] at hs hfuel
    rw [Literal.literals, List.forall_mem_append] at hr
    have hstart : lexStart true code.text = (⟨0, [], [], []⟩, code.text) :=
      if_neg (by simp [hs.1])
    have hread := (code.reads ⟨0, [], [], []⟩ [] hcode hr.1).finish hfuel.1
    rw [Literal.holes, List.flatMap_cons, Literal.comments,
      rest.inner hrest hs.2 hr.2 fuel _ hfuel.2]
    have hcomments : code.comments (pos + 2) = (code.comments 0).map (Comment.rebase (pos + 2)) := by
      rw [← code.comments_add, Nat.zero_add]
    simp only [hstart, hread, hcomments]
    simp [Code.behind]

end

/-! ### A shebang -/

theorem comments_grow (fuel : Nat) : ∀ (st : LexState) (text : List Char),
    st.comments <+: (lexLoop recover tiers true fuel st text).comments := by
  induction fuel with
  | zero => exact fun st text => List.prefix_refl _
  | succ fuel ih =>
    intro st text
    cases text with
    | nil => exact List.prefix_refl _
    | cons c rest =>
      rw [lexLoop]
      split
      · exact ih (st.skip 1) rest
      · split
        · exact ih ((st.report _).skip _) _
        · exact (List.prefix_append _ _).trans (ih (st.comment true .line _) _)
        · split
          · split
            · exact ih (((st.push _ _).push _ _).push _ _) _
            · exact ih ((st.report _).push _ _) _
          · exact ih (st.push _ _) _
        · split
          · exact (List.prefix_append _ _).trans (ih (st.comment true .block _) _)
          · exact List.prefix_refl _
        · split
          · exact (List.prefix_append _ _).trans (ih ((st.push _ _).addComments _) _)
          · exact ih (st.push _ _) _

theorem shebang_collected {text : List Char} (h : ['#', '!'].isPrefixOf text = true) (start : Nat) :
    ∃ c ∈ holeComments recover tiers start text, c.kind = .shebang := by
  refine ⟨Comment.rebase start ⟨.shebang, 0, 0 + (text.takeWhile (· != '\n')).length⟩, ?_, rfl⟩
  have hstart : (lexStart true text).1.comments =
      [⟨.shebang, 0, 0 + (text.takeWhile (· != '\n')).length⟩] := by
    rw [lexStart]
    simp [h, LexState.comment]
  refine List.mem_map_of_mem ((comments_grow _ _ _).subset ?_)
  rw [hstart]
  exact List.mem_singleton_self _

end Lexed

mutual

theorem Code.no_shebang : ∀ (c : Code) (pos : Nat), ∀ x ∈ c.comments pos, x.kind ≠ .shebang
  | .nil, _, _, hx => absurd hx List.not_mem_nil
  | .space _ rest, _, x, hx => rest.no_shebang _ x hx
  | .word _ _ rest, _, x, hx => rest.no_shebang _ x hx
  | .group _ inner rest, _, x, hx =>
    (List.mem_append.1 hx).elim (inner.no_shebang _ x) (rest.no_shebang _ x)
  | .verbatim _ rest, _, x, hx => rest.no_shebang _ x hx
  | .literal _ body rest, _, x, hx =>
    (List.mem_append.1 hx).elim (body.no_shebang _ x) (rest.no_shebang _ x)
  | .line _ rest, _, x, hx =>
    (List.mem_cons.1 hx).elim (fun h => by simp [h]) (rest.no_shebang _ x)
  | .block _ rest, _, x, hx =>
    (List.mem_cons.1 hx).elim (fun h => by simp [h]) (rest.no_shebang _ x)

theorem Literal.no_shebang : ∀ (l : Literal) (pos : Nat), ∀ x ∈ l.comments pos, x.kind ≠ .shebang
  | .nil, _, _, hx => absurd hx List.not_mem_nil
  | .char _ rest, _, x, hx => rest.no_shebang _ x hx
  | .escape _ rest, _, x, hx => rest.no_shebang _ x hx
  | .hole code rest, _, x, hx =>
    (List.mem_append.1 hx).elim (code.no_shebang _ x) (rest.no_shebang _ x)

end

/-! ## Literals in literals -/

section Inside

variable {tiers : List (List Char)}

mutual

theorem Code.literal_wellFormed : ∀ {c : Code} {pos : Nat} {tokens : List Token}
    {after : List Char}, c.WellFormed tiers pos tokens after →
    ∀ l ∈ c.literals, isQuote l.1 = true ∧ l.2.WellFormed tiers l.1
  | .nil, _, _, _, _, _, hl => absurd hl List.not_mem_nil
  | .space _ rest, _, _, _, hc, l, hl => rest.literal_wellFormed hc.2 l hl
  | .word _ _ rest, _, _, _, hc, l, hl => rest.literal_wellFormed hc.2.2.2 l hl
  | .group _ inner rest, _, _, _, hc, l, hl =>
    (List.mem_append.1 hl).elim (inner.literal_wellFormed hc.2.1 l)
      (rest.literal_wellFormed hc.2.2 l)
  | .verbatim _ rest, _, _, _, hc, l, hl => rest.literal_wellFormed hc.2.2 l hl
  | .literal _ body rest, _, _, _, hc, l, hl =>
    (List.mem_cons.1 hl).elim (fun h => h ▸ ⟨hc.1, hc.2.1⟩) fun hl =>
      (List.mem_append.1 hl).elim (body.literal_wellFormed hc.2.1 l)
        (rest.literal_wellFormed hc.2.2 l)
  | .line _ rest, _, _, _, hc, l, hl => rest.literal_wellFormed hc.2.2 l hl
  | .block _ rest, _, _, _, hc, l, hl => rest.literal_wellFormed hc.2 l hl

theorem Literal.literal_wellFormed : ∀ {l : Literal} {quote : Char}, l.WellFormed tiers quote →
    ∀ l' ∈ l.literals, isQuote l'.1 = true ∧ l'.2.WellFormed tiers l'.1
  | .nil, _, _, _, hl' => absurd hl' List.not_mem_nil
  | .char _ rest, _, hl, l', hl' => rest.literal_wellFormed hl.2.2.2 l' hl'
  | .escape _ rest, _, hl, l', hl' => rest.literal_wellFormed hl.2 l' hl'
  | .hole code rest, _, hl, l', hl' =>
    (List.mem_append.1 hl').elim (code.literal_wellFormed hl.2.1 l')
      (rest.literal_wellFormed hl.2.2 l')

end

mutual

theorem Code.literals_of_mem : ∀ {c : Code}, ∀ l ∈ c.literals, ∀ l' ∈ l.2.literals,
    l' ∈ c.literals
  | .nil, _, hl, _, _ => absurd hl List.not_mem_nil
  | .space _ rest, l, hl, l', hl' => rest.literals_of_mem l hl l' hl'
  | .word _ _ rest, l, hl, l', hl' => rest.literals_of_mem l hl l' hl'
  | .group _ inner rest, l, hl, l', hl' =>
    (List.mem_append.1 hl).elim
      (fun hl => List.mem_append_left _ (inner.literals_of_mem l hl l' hl'))
      (fun hl => List.mem_append_right _ (rest.literals_of_mem l hl l' hl'))
  | .verbatim _ rest, l, hl, l', hl' => rest.literals_of_mem l hl l' hl'
  | .literal quote body rest, l, hl, l', hl' => by
    apply List.mem_cons_of_mem
    obtain rfl | hl := List.mem_cons.1 hl
    · exact List.mem_append_left _ hl'
    · exact (List.mem_append.1 hl).elim
        (fun hl => List.mem_append_left _ (body.literals_of_mem l hl l' hl'))
        (fun hl => List.mem_append_right _ (rest.literals_of_mem l hl l' hl'))
  | .line _ rest, l, hl, l', hl' => rest.literals_of_mem l hl l' hl'
  | .block _ rest, l, hl, l', hl' => rest.literals_of_mem l hl l' hl'

theorem Literal.literals_of_mem : ∀ {l : Literal}, ∀ l' ∈ l.literals, ∀ l'' ∈ l'.2.literals,
    l'' ∈ l.literals
  | .nil, _, hl', _, _ => absurd hl' List.not_mem_nil
  | .char _ rest, l', hl', l'', hl'' => rest.literals_of_mem l' hl' l'' hl''
  | .escape _ rest, l', hl', l'', hl'' => rest.literals_of_mem l' hl' l'' hl''
  | .hole code rest, l', hl', l'', hl'' =>
    (List.mem_append.1 hl').elim
      (fun hl' => List.mem_append_left _ (code.literals_of_mem l' hl' l'' hl''))
      (fun hl' => List.mem_append_right _ (rest.literals_of_mem l' hl' l'' hl''))

end

end Inside

/-! ## Exactness -/

section Exactness

variable {recover : List Char → Nat} {tiers : List (List Char)} {quote : Char} {l : Literal}

theorem Exact.readable (hq : isQuote quote = true) (hl : l.WellFormed tiers quote) {pos : Nat}
    {after : List Char} (h : Exact recover tiers quote l pos after) : Readable quote l := by
  have hnested : ∀ code ∈ l.codes, Nested code.text := by
    intro code hcode
    obtain ⟨hole, hhole, rfl⟩ := Literal.exists_hole hcode pos
    exact interpolationHoleEnd_iff.1 (h.ends hole hhole)
  refine ⟨fun code hcode => ⟨hnested code hcode, ?_⟩,
    (token_iff hq (l.body hl hnested) after).1 h.token⟩
  by_contra hshebang
  rw [Bool.not_eq_false] at hshebang
  obtain ⟨hole, hhole, rfl⟩ := Literal.exists_hole hcode pos
  obtain ⟨c, hc, hkind⟩ : ∃ c ∈ holeComments recover tiers hole.start hole.code.text,
      c.kind = .shebang := shebang_collected hshebang hole.start
  have hcomments := h.comments
  rw [h.ranges] at hcomments
  refine l.no_shebang pos c (hcomments ▸ List.mem_flatMap.2 ?_) hkind
  exact ⟨(hole.start, hole.code.text), List.mem_map_of_mem hhole, hc⟩

theorem exact_of_readable (hq : isQuote quote = true) (hraw : quote ≠ '\'')
    (hl : l.WellFormed tiers quote) (hread : Readable quote l)
    (hinside : ∀ l' ∈ l.literals, l'.1 ≠ '\'' → Readable l'.1 l'.2) (pos : Nat) (after : List Char) :
    Exact recover tiers quote l pos after := by
  have hnested : ∀ code ∈ l.codes, Nested code.text := fun code hc => (hread.1 code hc).1
  have hranges : interpolationHoles quote pos (l.text ++ quote :: after) =
      (l.holes pos).map fun h => (h.start, h.code.text) := by
    rw [interpolationHoles, if_neg hraw]
    exact l.holesLoop_eq hq hraw hl hnested _ after _ (Nat.lt_succ_self _)
  constructor
  · exact fun h hh => interpolationHoleEnd_iff.2 (hnested _ (Literal.code_mem hh))
  · exact (token_iff hq (l.body hl hnested) after).2 hread.2
  · exact hranges
  · exact fun h hh => findHoleEnd_iff.2 (hnested _ (Literal.code_mem hh))
  · rw [hranges, List.flatMap_map]
    exact l.inner hl (fun code hc => (hread.1 code hc).2) hinside (fun text => text.length + 1) pos
      fun code _ => Nat.lt_succ_self _

/-- **The literals of a source are read as they are written** exactly when each is readable. -/
theorem literals_exact_iff (hq : isQuote quote = true) (hl : l.WellFormed tiers quote) :
    (∀ l' ∈ (quote, l) :: l.literals, l'.1 ≠ '\'' →
      ∀ pos after, Exact recover tiers l'.1 l'.2 pos after) ↔
        ∀ l' ∈ (quote, l) :: l.literals, l'.1 ≠ '\'' → Readable l'.1 l'.2 := by
  have hwf : ∀ l' ∈ (quote, l) :: l.literals, isQuote l'.1 = true ∧ l'.2.WellFormed tiers l'.1 :=
    List.forall_mem_cons.2 ⟨⟨hq, hl⟩, l.literal_wellFormed hl⟩
  have hinside : ∀ l' ∈ (quote, l) :: l.literals, ∀ l'' ∈ l'.2.literals,
      l'' ∈ (quote, l) :: l.literals := by
    refine List.forall_mem_cons.2 ⟨fun _ => List.mem_cons_of_mem _, fun l' hl' l'' hl'' => ?_⟩
    exact List.mem_cons_of_mem _ (l.literals_of_mem l' hl' l'' hl'')
  constructor
  · exact fun h l' hl' hraw' => (h l' hl' hraw' 0 []).readable (hwf l' hl').1 (hwf l' hl').2
  · intro h l' hl' hraw' pos after
    exact exact_of_readable (hwf l' hl').1 hraw' (hwf l' hl').2 (h l' hl' hraw')
      (fun l'' hl'' => h l'' (hinside l' hl' l'' hl'')) pos after

/-- `"a${f("x") /* c */}"`. -/
def callLiteral : Literal :=
  .char 'a' (.hole (.word .ident ['f'] (.word .lParen ['('] (.literal '"' (.char 'x' .nil)
    (.word .rParen [')'] (.space ' ' (.block [' ', 'c', ' '] .nil)))))) .nil)

theorem callLiteral_wellFormed : callLiteral.WellFormed [] '"' := by
  refine ⟨by decide, by decide, by decide, by decide, ⟨by decide, by decide +kernel, rfl, ?_⟩,
    trivial⟩
  refine ⟨by decide, by decide +kernel, rfl, rfl, ⟨by decide, by decide, by decide, trivial⟩, ?_⟩
  exact ⟨by decide, by decide +kernel, rfl, rfl, by decide, trivial⟩

theorem callLiteral_readable : ∀ l ∈ ('"', callLiteral) :: callLiteral.literals, l.1 ≠ '\'' →
    Readable l.1 l.2 := by
  refine List.forall_mem_cons.2 ⟨fun _ => ⟨?_, by decide⟩, List.forall_mem_cons.2 ⟨fun _ => ?_, ?_⟩⟩
  · refine List.forall_mem_cons.2 ⟨⟨(@interpolationHoleEnd_iff _ []).1 (by decide), by decide⟩, ?_⟩
    exact fun code hcode => absurd hcode List.not_mem_nil
  · exact ⟨fun code hcode => absurd hcode List.not_mem_nil, by decide⟩
  · exact fun l hl => absurd hl List.not_mem_nil

theorem callLiteral_exact : Exact (fun _ => 0) [] '"' callLiteral 1 [] ∧
    Exact (fun _ => 0) [] '"' (.char 'x' .nil) 7 [')'] := by
  have hexact := (@literals_exact_iff (fun _ => 0) _ _ _ rfl callLiteral_wellFormed).2
    callLiteral_readable
  exact ⟨hexact ('"', callLiteral) (List.mem_cons_self ..) (by decide) 1 [],
    hexact ('"', .char 'x' .nil) (List.mem_cons_of_mem _ (List.mem_singleton_self _)) (by decide) 7
      [')']⟩

/-- `"${x /* " */}"`. -/
def quoteInComment : Literal :=
  .hole (.word .ident ['x'] (.space ' ' (.block [' ', '"', ' '] .nil))) .nil

/-- The quote in the comment is taken for the start of a literal. -/
theorem quote_in_comment_is_read : quoteInComment.WellFormed [] '"' ∧
    ¬ Exact (fun _ => 0) [] '"' quoteInComment 1 [] := by
  refine ⟨⟨by decide, ⟨by decide, by decide +kernel, rfl, rfl, by decide, trivial⟩, trivial⟩, ?_⟩
  intro h
  have hend := h.ends ⟨3, _, []⟩ (List.mem_singleton.2 rfl)
  exact absurd hend (by decide)

end Exactness

end Noeta.Lexer
