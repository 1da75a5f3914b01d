import Noeta.Lexer.TierBody

/-!
# Tokens

The token table of `noeta-lexer/src/lib.rs`. `logos` takes the longest match of all rules at the front
of the text, and a spelled token before a pattern of the same length.
-/

namespace Noeta.Lexer

/-- The kinds of `TokenKind` that the lexer tells apart; `other` stands for the rest of them. -/
inductive TokenKind where
  | stringLit
  | rawStr
  | templateStr
  | ident
  | colon
  | lParen
  | rParen
  | lBrace
  | dotLBrace
  | rBrace
  | atSign
  | docText
  | blockCommentOpen
  | lineComment
  | other
deriving DecidableEq, Repr

/-! ## Patterns

A pattern is given by the length of its longest match at the front of a text. -/

abbrev Pattern := List Char → Option Nat

namespace Pattern

def one (p : Char → Bool) : Pattern
  | [] => none
  | c :: _ => if p c then some 1 else none

/-- `[…]*`. -/
def many (p : Char → Bool) : Pattern := fun text => some (text.takeWhile p).length

def seq (a b : Pattern) : Pattern := fun text => (a text).bind fun n => (b (text.drop n)).map (n + ·)

def optional (a : Pattern) : Pattern := fun text => some ((a text).getD 0)

def spelled (s : List Char) : Pattern := fun text => if s.isPrefixOf text then some s.length else none

def either (alternatives : List Pattern) : Pattern := fun text => alternatives.findSome? (· text)

/-- `[a][a_]*`, where `p` is the class `a`. -/
def digitRun (p : Char → Bool) : Pattern := seq (one p) (many fun c => p c || c == '_')

def decimal : Pattern := digitRun Char.isDigit

/-- `[eE][+-]?[0-9][0-9_]*`. -/
def exponent : Pattern :=
  seq (one fun c => c == 'e' || c == 'E') (seq (optional (one fun c => c == '+' || c == '-')) decimal)

def fraction : Pattern := seq decimal (seq (one (· == '.')) (seq decimal (optional exponent)))

def radix (marks : List Char) (p : Char → Bool) : Pattern :=
  seq (one (· == '0')) (seq (one marks.contains) (digitRun p))

def hexadecimal : Pattern :=
  radix ['x', 'X'] fun c => c.isDigit || ('A' ≤ c && c ≤ 'F') || ('a' ≤ c && c ≤ 'f')

def octal : Pattern := radix ['o', 'O'] fun c => '0' ≤ c && c ≤ '7'

def binary : Pattern := radix ['b', 'B'] fun c => c == '0' || c == '1'

def intWidth : Pattern :=
  either [spelled ['i', '8'], spelled ['i', '1', '6'], spelled ['i', '3', '2'],
    spelled ['i', '6', '4'], spelled ['u', '8'], spelled ['u', '1', '6'], spelled ['u', '3', '2'],
    spelled ['u', '6', '4']]

/-- `[A-Za-z_][A-Za-z0-9_]*`. -/
def identifier : Pattern :=
  seq (one fun c => c.isAlpha || c == '_') (many fun c => c.isAlphanum || c == '_')

/-- `([^q\\]|\\.)*q`, from inside a literal; the dot is no newline. -/
def quotedTail (quote : Char) : Pattern
  | [] => none
  | c :: rest =>
    if c = '\\' then
      match rest with
      | [] => none
      | d :: rest' => if d = '\n' then none else (quotedTail quote rest').map (2 + ·)
    else if c = quote then some 1
    else (quotedTail quote rest).map (1 + ·)

def quoted (quote : Char) : Pattern := seq (one (· == quote)) (quotedTail quote)

/-- `//[^\n]*`. -/
def lineComment : Pattern := seq (spelled ['/', '/']) (many (· != '\n'))

end Pattern

open Pattern in
/-- The `#[regex]` rules. -/
def patterns : List (TokenKind × Pattern) :=
  [(.stringLit, quoted '"'), (.rawStr, quoted '\''), (.templateStr, quoted '\x60'),
    (.other, fraction), (.other, seq decimal exponent),
    (.other, seq fraction (spelled ['f', '3', '2'])),
    (.other, seq decimal (seq (optional exponent) (spelled ['f', '3', '2']))),
    (.other, seq fraction (spelled ['f', '6', '4'])),
    (.other, seq decimal (seq (optional exponent) (spelled ['f', '6', '4']))),
    (.other, seq decimal intWidth), (.other, seq hexadecimal intWidth),
    (.other, seq octal intWidth), (.other, seq binary intWidth),
    (.other, decimal), (.other, hexadecimal), (.other, octal), (.other, binary),
    (.ident, identifier), (.lineComment, lineComment)]

/-- The `#[token]` rules that are words. -/
def keywords : List String :=
  ["echo", "mut", "true", "false", "fn", "return", "yield", "async", "static", "await", "concurrent",
    "spawn", "isolate", "if", "then", "else", "for", "while", "break", "continue", "in", "enum",
    "match", "struct", "type", "class", "destruct", "impl", "trait", "namespace", "use", "pub", "as",
    "is", "attributes_of", "type_of", "type_name", "fields_of", "traits_of", "from_bytes", "roles_of",
    "params_of", "returns_of", "invoke", "field_specs_of", "variants_of", "construct"]

/-- The other `#[token]` rules. -/
def operators : List (TokenKind × List Char) :=
  [(.other, [';']), (.other, [',']), (.other, ['.', '.', '.']), (.other, ['.', '.', '=']),
    (.other, ['.', '.']), (.dotLBrace, ['.', '{']), (.other, ['.']), (.other, [':', ':']),
    (.colon, [':']), (.other, ['?', '?', '=']), (.other, ['?', '?']), (.other, ['?']),
    (.lParen, ['(']), (.rParen, [')']), (.lBrace, ['{']), (.rBrace, ['}']), (.other, ['[']),
    (.other, [']']), (.other, ['=', '>']), (.other, ['-', '>']), (.other, ['|', '>']),
    (.other, ['=', '=', '=']), (.other, ['!', '=', '=']), (.other, ['=', '=']),
    (.other, ['!', '=']), (.other, ['<', '=']), (.other, ['>', '=']), (.other, ['+', '=']),
    (.other, ['-', '=']), (.other, ['*', '=']), (.other, ['/', '=']), (.other, ['%', '=']),
    (.other, ['~', '=']), (.other, ['&', '&']), (.other, ['|', '|']), (.other, ['|']),
    (.other, ['&']), (.other, ['^']), (.other, ['<', '<']), (.other, ['=']), (.other, ['<']),
    (.other, ['>']), (.other, ['+']), (.other, ['-']), (.other, ['*']), (.other, ['/']),
    (.other, ['%']), (.other, ['~']), (.other, ['!']), (.other, ['#']), (.atSign, ['@']),
    (.docText, ['\x00', '\x00', '_', '_', 'd', 'o', 'c', 't', 'e', 'x', 't', '_', '_', '\x00', '\x00']),
    (.blockCommentOpen, ['/', '*'])]

def tokenRules : List (TokenKind × Pattern) :=
  operators.map (fun r => (r.1, Pattern.spelled r.2)) ++
    keywords.map fun w => (.other, Pattern.spelled w.toList)

/-- All rules, the spelled ones first. -/
def rules : List (TokenKind × Pattern) :=
  tokenRules ++ patterns

/-- What a rule matches at the front of a text. -/
def ruleMatch (text : List Char) (rule : TokenKind × Pattern) : Option (TokenKind × Nat) :=
  (rule.2 text).map fun n => (rule.1, n)

/-- The longest match, the earliest of those of the same length. -/
def longest : List (TokenKind × Nat) → Option (TokenKind × Nat)
  | [] => none
  | m :: ms =>
    match longest ms with
    | some best => if m.2 < best.2 then some best else some m
    | none => some m

/-- The match of `TokenKind::lexer`. -/
def logosMatch (text : List Char) : Option (TokenKind × Nat) :=
  longest (rules.filterMap (ruleMatch text))

example : logosMatch "echo2 + 1".toList = some (.ident, 5) := by decide +kernel
example : logosMatch "1.5e3f32)".toList = some (.other, 8) := by decide +kernel

/-! ## First characters -/

theorem logosMatch_lBrace (rest : List Char) : logosMatch ('{' :: rest) = some (.lBrace, 1) := rfl

theorem logosMatch_rBrace (rest : List Char) : logosMatch ('}' :: rest) = some (.rBrace, 1) := rfl

theorem logosMatch_dotLBrace (rest : List Char) :
    logosMatch ('.' :: '{' :: rest) = some (.dotLBrace, 2) := rfl

theorem logosMatch_blockCommentOpen (rest : List Char) :
    logosMatch ('/' :: '*' :: rest) = some (.blockCommentOpen, 2) := rfl

theorem longest_single {text : List Char} {before after : List (TokenKind × Pattern)}
    {rule : TokenKind × Pattern} (h : rules = before ++ rule :: after)
    (hbefore : before.filterMap (ruleMatch text) = []) (hafter : after.filterMap (ruleMatch text) = []) :
    logosMatch text = ruleMatch text rule := by
  have hrules : rules.filterMap (ruleMatch text) = (ruleMatch text rule).toList := by
    rw [h, List.filterMap_append, hbefore, List.nil_append, List.filterMap_cons, hafter]
    cases ruleMatch text rule <;> rfl
  rw [logosMatch, hrules]
  cases ruleMatch text rule <;> rfl

/-- The kind of a literal with this quote. -/
def literalKind (quote : Char) : TokenKind :=
  if quote = '"' then .stringLit else if quote = '\'' then .rawStr else .templateStr

theorem logosMatch_quote {quote : Char} (hq : isQuote quote = true) (rest : List Char) :
    logosMatch (quote :: rest) =
      (Pattern.quotedTail quote rest).map fun n => (literalKind quote, 1 + n) := by
  have hquoted : Pattern.quoted quote (quote :: rest) =
      (Pattern.quotedTail quote rest).map (1 + ·) := by
    simp [Pattern.quoted, Pattern.seq, Pattern.one]
  have hrule : ∀ kind, ruleMatch (quote :: rest) (kind, Pattern.quoted quote) =
      (Pattern.quotedTail quote rest).map fun n => (kind, 1 + n) := by
    intro kind
    rw [ruleMatch]
    dsimp only
    rw [hquoted, Option.map_map]
    rfl
  have hquotes : quote = '"' ∨ quote = '\'' ∨ quote = '\x60' := by
    simpa [isQuote, or_assoc] using hq
  obtain rfl | rfl | rfl := hquotes
  · rw [@longest_single _ (tokenRules ++ patterns.take 0) (patterns.drop 1)
      (.stringLit, Pattern.quoted '"') rfl rfl rfl, hrule]
    rfl
  · rw [@longest_single _ (tokenRules ++ patterns.take 1) (patterns.drop 2)
      (.rawStr, Pattern.quoted '\'') rfl rfl rfl, hrule]
    rfl
  · rw [@longest_single _ (tokenRules ++ patterns.take 2) (patterns.drop 3)
      (.templateStr, Pattern.quoted '\x60') rfl rfl rfl, hrule]
    rfl

theorem logosMatch_lineComment {comment rest : List Char} (hc : '\n' ∉ comment) :
    logosMatch ('/' :: '/' :: (comment ++ '\n' :: rest)) =
      some (.lineComment, 2 + comment.length) := by
  have htake : (comment ++ '\n' :: rest).takeWhile (· != '\n') = comment := by
    rw [List.takeWhile_append_of_pos]
    · simp
    · intro c hmem
      exact bne_iff_ne.2 fun h => hc (h ▸ hmem)
  have hrules : rules.filterMap (ruleMatch ('/' :: '/' :: (comment ++ '\n' :: rest))) =
      [(.other, 1), (.lineComment,
        2 + ((comment ++ '\n' :: rest).takeWhile (· != '\n')).length)] := rfl
  rw [logosMatch, hrules, htake]
  simp only [longest]
  rw [if_pos (by omega)]

end Noeta.Lexer
