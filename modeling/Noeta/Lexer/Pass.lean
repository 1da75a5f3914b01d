import Noeta.Lexer.Tokens

/-!
# A pass of the lexer

`lex_pass` and `lex_impl` of `noeta-lexer/src/lib.rs`. Text-tier bodies are captured without reading
them as code, string literals are read on to their true end, and the holes of a literal are lexed once
more for their comments. Offsets count characters.
-/

namespace Noeta.Lexer

/-- A token with the text it spans. -/
structure Token where
  kind : TokenKind
  start : Nat
  text : List Char
deriving DecidableEq, Repr

inductive CommentKind where
  | line
  | block
  | shebang
deriving DecidableEq, Repr

structure Comment where
  kind : CommentKind
  start : Nat
  stop : Nat
deriving DecidableEq, Repr

/-- What `lex_error`, `unterminated_text_block` and `unterminated_block_comment` report. -/
inductive LexDiagnostic where
  | lexError (start : Nat) (text : List Char)
  | unterminatedTextBlock (start : Nat) (tier : List Char)
  | unterminatedBlockComment (start : Nat)
deriving DecidableEq, Repr

/-- What a pass has read so far: its offset, and the tokens, the latest first. -/
structure LexState where
  pos : Nat
  tokens : List Token
  comments : List Comment
  diagnostics : List LexDiagnostic
deriving DecidableEq, Repr

/-- `block_comment_end`, at a depth of comments: what follows the comment. -/
def blockCommentFrom (depth : Nat) : List Char → Option (List Char)
  | '/' :: '*' :: rest => blockCommentFrom (depth + 1) rest
  | '*' :: '/' :: rest => if depth = 1 then some rest else blockCommentFrom (depth - 1) rest
  | _ :: rest => blockCommentFrom depth rest
  | [] => none

/-- `block_comment_end`, from just past the opener. -/
def blockCommentEnd (text : List Char) : Option (List Char) :=
  blockCommentFrom 1 text

def opensTextBlock (tiers : List (List Char)) : List Token → Bool
  | name :: sign :: _ => sign.kind == .atSign && name.kind == .ident && tiers.contains name.text
  | _ => false

/-- The loop of `interpolation_holes`: the offset and the text of each hole. -/
def holesLoop (quote : Char) : Nat → Nat → List Char → List (Nat × List Char)
  | 0, _, _ => []
  | _ + 1, _, [] => []
  | fuel + 1, pos, c :: rest =>
    if c = '\\' then holesLoop quote fuel (pos + 1 + (rest.take 1).length) (rest.drop 1)
    else if c = quote then []
    else if c = '$' ∧ rest.head? = some '{' then
      match interpolationHoleEnd rest.tail with
      | none => []
      | some after =>
        let hole := rest.tail.take (rest.tail.length - after.length - 1)
        (pos + 2, hole) :: holesLoop quote fuel (pos + 2 + hole.length + 1) after
    else holesLoop quote fuel (pos + 1) rest

/-- `interpolation_holes`, from just past the opening quote. -/
def interpolationHoles (quote : Char) (pos : Nat) (text : List Char) : List (Nat × List Char) :=
  if quote = '\'' then [] else holesLoop quote (text.length + 1) pos text

/-- The length of an interpolating literal of which `logos` has matched `n` characters. -/
def literalLength (quote : Char) (rest : List Char) (n : Nat) : Nat :=
  match interpolatedStringEnd quote rest with
  | some after => max n (1 + rest.length - after.length)
  | none => n

namespace LexState

variable (st : LexState)

def skip (n : Nat) : LexState := { st with pos := st.pos + n }

def push (kind : TokenKind) (text : List Char) : LexState :=
  { st with pos := st.pos + text.length, tokens := ⟨kind, st.pos, text⟩ :: st.tokens }

def comment (collectTrivia : Bool) (kind : CommentKind) (n : Nat) : LexState :=
  { st with
    pos := st.pos + n
    comments := st.comments ++ if collectTrivia then [⟨kind, st.pos, st.pos + n⟩] else [] }

def report (d : LexDiagnostic) : LexState := { st with diagnostics := st.diagnostics ++ [d] }

def addComments (comments : List Comment) : LexState :=
  { st with comments := st.comments ++ comments }

end LexState

/-- A pass starts behind the line of a shebang. -/
def lexStart (collectTrivia : Bool) (text : List Char) : LexState × List Char :=
  let st : LexState := ⟨0, [], [], []⟩
  if ['#', '!'].isPrefixOf text then
    let n := (text.takeWhile (· != '\n')).length
    (st.comment collectTrivia .shebang n, text.drop n)
  else (st, text)

def Comment.rebase (offset : Nat) (c : Comment) : Comment :=
  { c with start := c.start + offset, stop := c.stop + offset }

/-- The skip rule of `logos`. -/
def isSpace (c : Char) : Bool := c == ' ' || c == '\t' || c == '\r' || c == '\n'

section Pass

-- `recover` is how many characters besides the first `logos` takes into an error.
variable (recover : List Char → Nat) (tiers : List (List Char))

/-- The loop of `lex_pass`. The first argument bounds the number of rounds. -/
def lexLoop (collectTrivia : Bool) : Nat → LexState → List Char → LexState
  | 0, st, _ => st
  | _ + 1, st, [] => st
  | fuel + 1, st, c :: rest =>
    if isSpace c then lexLoop collectTrivia fuel (st.skip 1) rest
    else
      match logosMatch (c :: rest) with
      | none =>
        let n := 1 + recover (c :: rest)
        lexLoop collectTrivia fuel
          ((st.report (.lexError st.pos ((c :: rest).take n))).skip n) ((c :: rest).drop n)
      | some (.lineComment, n) =>
        lexLoop collectTrivia fuel (st.comment collectTrivia .line n) ((c :: rest).drop n)
      | some (.lBrace, n) =>
        if opensTextBlock tiers st.tokens then
          match matchingBrace ((c :: rest).drop n) with
          | some closing =>
            let body := ((c :: rest).drop n).take (((c :: rest).drop n).length - closing.length)
            lexLoop collectTrivia fuel
              (((st.push .lBrace ((c :: rest).take n)).push .docText body).push .rBrace
                (closing.take 1)) (closing.drop 1)
          | none =>
            let name := (st.tokens.head?.map Token.text).getD ['d', 'o', 'c']
            lexLoop collectTrivia fuel
              ((st.report (.unterminatedTextBlock st.pos name)).push .lBrace ((c :: rest).take n))
              ((c :: rest).drop n)
        else lexLoop collectTrivia fuel (st.push .lBrace ((c :: rest).take n)) ((c :: rest).drop n)
      | some (.blockCommentOpen, n) =>
        match blockCommentEnd ((c :: rest).drop n) with
        | some after =>
          lexLoop collectTrivia fuel
            (st.comment collectTrivia .block ((c :: rest).length - after.length)) after
        | none => (st.report (.unterminatedBlockComment st.pos)).skip (c :: rest).length
      | some (kind, n) =>
        if kind = .stringLit ∨ kind = .templateStr then
          let m := literalLength c rest n
          -- `hole_comments` of each hole
          let inner := if collectTrivia then
              (interpolationHoles c (st.pos + 1) rest).flatMap fun hole =>
                (lexLoop true fuel (lexStart true hole.2).1 (lexStart true hole.2).2).comments.map
                  (Comment.rebase hole.1)
            else []
          lexLoop collectTrivia fuel ((st.push kind ((c :: rest).take m)).addComments inner)
            ((c :: rest).drop m)
        else lexLoop collectTrivia fuel (st.push kind ((c :: rest).take n)) ((c :: rest).drop n)

def lexPass (collectTrivia : Bool) (text : List Char) : LexState :=
  lexLoop recover tiers collectTrivia (text.length + 1) (lexStart collectTrivia text).1
    (lexStart collectTrivia text).2

def holeComments (start : Nat) (hole : List Char) : List Comment :=
  (lexPass recover tiers true hole).comments.map (Comment.rebase start)

end Pass

section Reads

variable {recover : List Char → Nat} {tiers : List (List Char)} {collectTrivia : Bool}

/-- A pass from a state reads a piece of text, and goes on behind it. -/
def ReadsTo (recover : List Char → Nat) (tiers : List (List Char)) (collectTrivia : Bool)
    (st st' : LexState) (piece after : List Char) : Prop :=
  ∀ fuel, (piece ++ after).length < fuel → ∃ fuel', after.length < fuel' ∧
    lexLoop recover tiers collectTrivia fuel st (piece ++ after) =
      lexLoop recover tiers collectTrivia fuel' st' after

theorem ReadsTo.nil (st : LexState) (after : List Char) :
    ReadsTo recover tiers collectTrivia st st [] after :=
  fun fuel h => ⟨fuel, h, rfl⟩

theorem ReadsTo.append {st st' st'' : LexState} {a b after : List Char}
    (ha : ReadsTo recover tiers collectTrivia st st' a (b ++ after))
    (hb : ReadsTo recover tiers collectTrivia st' st'' b after) :
    ReadsTo recover tiers collectTrivia st st'' (a ++ b) after := by
  intro fuel hfuel
  rw [List.append_assoc] at hfuel ⊢
  obtain ⟨fuel', hfuel', heq⟩ := ha fuel hfuel
  obtain ⟨fuel'', hfuel'', heq'⟩ := hb fuel' hfuel'
  exact ⟨fuel'', hfuel'', heq.trans heq'⟩

theorem ReadsTo.round {st st' : LexState} {c : Char} {rest after : List Char}
    (h : ∀ fuel, (rest ++ after).length < fuel →
      lexLoop recover tiers collectTrivia (fuel + 1) st (c :: (rest ++ after)) =
        lexLoop recover tiers collectTrivia fuel st' after) :
    ReadsTo recover tiers collectTrivia st st' (c :: rest) after := by
  intro fuel hfuel
  cases fuel with
  | zero => simp at hfuel
  | succ fuel =>
    rw [List.cons_append, List.length_cons] at hfuel
    refine ⟨fuel, ?_, h fuel (by omega)⟩
    rw [List.length_append] at hfuel
    omega

theorem ReadsTo.finish {st st' : LexState} {text : List Char}
    (h : ReadsTo recover tiers collectTrivia st st' text []) {fuel : Nat} (hfuel : text.length < fuel) :
    lexLoop recover tiers collectTrivia fuel st text = st' := by
  obtain ⟨fuel', hfuel', heq⟩ := h fuel (by rwa [List.append_nil])
  obtain ⟨fuel', rfl⟩ := Nat.exists_eq_succ_of_ne_zero (Nat.ne_of_gt hfuel')
  rw [List.append_nil] at heq
  rw [heq, lexLoop]

end Reads

end Noeta.Lexer
