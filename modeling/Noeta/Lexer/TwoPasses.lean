import Noeta.Lexer.Written

/-!
# Two passes

`lex_impl` of `noeta-lexer/src/lib.rs` lexes a file, collects the text tiers it declares, and lexes it
once more when there are new ones. The first pass reads the bodies of these tiers as code. Where every
item of the file is read by itself in both passes, and declares no tier in the second one that it did
not declare in the first, the result is a fixed point, and the items may stand in any order.
-/

namespace Noeta.Lexer

/-! ## The code -/

/-- Kind and text of a token. -/
def Token.bare (t : Token) : TokenKind × List Char := (t.kind, t.text)

/-- Whether a `text` or `expr` key follows within the parentheses of the directive. -/
def marksText : Nat → List (TokenKind × List Char) → Bool
  | _, [] => false
  | depth, t :: rest =>
    if t.1 = .lParen then marksText (depth + 1) rest
    else if t.1 = .rParen then
      if depth = 1 then false else marksText (depth - 1) rest
    else if t.1 = .ident ∧ depth = 1 ∧ (t.2 = ['t', 'e', 'x', 't'] ∨ t.2 = ['e', 'x', 'p', 'r']) ∧
        rest.head?.map Prod.fst = some .colon then true
    else marksText depth rest

/-- The tier declared by a directive that starts here. -/
def declarationAt : List (TokenKind × List Char) → Option (List Char)
  | [] => none
  | sign :: rest =>
    if sign.1 = .atSign then
      match rest with
      | kw :: paren :: name :: rest =>
        if kw = (.ident, ['t', 'i', 'e', 'r']) ∧ paren.1 = .lParen ∧ name.1 = .ident ∧
            marksText 1 rest = true then some name.2
        else none
      | _ => none
    else none

def declaredTextTiers : List (TokenKind × List Char) → List (List Char)
  | [] => []
  | t :: rest => (declarationAt (t :: rest)).toList ++ declaredTextTiers rest

structure Lexed where
  tokens : List Token
  diagnostics : List LexDiagnostic
  comments : List Comment
  textTierDecls : List (List Char)
deriving DecidableEq

def LexState.bare (st : LexState) : List (TokenKind × List Char) := st.tokens.reverse.map Token.bare

section Impl

variable (recover : List Char → Nat) (tiers : List (List Char)) (collectTrivia : Bool)

/-- The tiers that the first pass finds declared. -/
def firstDeclared (text : List Char) : List (List Char) :=
  declaredTextTiers (lexPass recover tiers collectTrivia text).bare

/-- The pass that gives the result. -/
def lastPass (text : List Char) : LexState :=
  let declared := firstDeclared recover tiers collectTrivia text
  if declared.any fun name => !tiers.contains name then
    lexPass recover (tiers ++ declared) collectTrivia text
  else lexPass recover tiers collectTrivia text

def lexImpl (text : List Char) : Lexed :=
  let last := lastPass recover tiers collectTrivia text
  ⟨last.tokens.reverse, last.diagnostics, last.comments,
    firstDeclared recover tiers collectTrivia text⟩

end Impl

/-! ## Captured bodies -/

/-- Each text block of these tiers has its body as one token, or is reported as unterminated. -/
def Captured (names : List (List Char)) (tokens : List Token) (diagnostics : List LexDiagnostic) :
    Prop :=
  ∀ before sign name brace after, tokens = before ++ sign :: name :: brace :: after →
    sign.kind = .atSign → name.kind = .ident → name.text ∈ names → brace.kind = .lBrace →
      (∃ body close rest, after = body :: close :: rest ∧ body.kind = .docText ∧
        close.kind = .rBrace) ∨
      ∃ tier, .unterminatedTextBlock brace.start tier ∈ diagnostics

/-- The result declares no tier that is not listed, and captures the bodies of those it declares. -/
structure FixedPoint (lexed : Lexed) : Prop where
  declared : ∀ name ∈ declaredTextTiers (lexed.tokens.map Token.bare), name ∈ lexed.textTierDecls
  captured : Captured (declaredTextTiers (lexed.tokens.map Token.bare)) lexed.tokens
    lexed.diagnostics

namespace LexState

/-- `Captured`, of tokens with the latest first. -/
def Captures (st : LexState) (names : List (List Char)) : Prop :=
  ∀ after brace name sign before, st.tokens = after ++ brace :: name :: sign :: before →
    sign.kind = .atSign → name.kind = .ident → name.text ∈ names → brace.kind = .lBrace →
      (∃ rest close body, after = rest ++ [close, body] ∧ body.kind = .docText ∧
        close.kind = .rBrace) ∨
      ∃ tier, .unterminatedTextBlock brace.start tier ∈ st.diagnostics

variable {names : List (List Char)} {st : LexState}

theorem Captures.push (h : st.Captures names) {kind : TokenKind} (text : List Char)
    (hopens : kind = .lBrace → opensTextBlock names st.tokens = false ∨
      ∃ tier, .unterminatedTextBlock st.pos tier ∈ st.diagnostics) :
    (st.push kind text).Captures names := by
  intro after brace name sign before htokens hsign hname hmem hbrace
  cases after with
  | nil =>
    obtain ⟨rfl, hst⟩ := List.cons.inj htokens
    obtain hopens | hreported := hopens hbrace
    · rw [hst, opensTextBlock] at hopens
      simp [hsign, hname, hmem] at hopens
    · exact .inr hreported
  | cons t after =>
    obtain ⟨rfl, hst⟩ := List.cons.inj htokens
    obtain ⟨rest, close, body, rfl, hbody, hclose⟩ | hreported :=
      h after brace name sign before hst hsign hname hmem hbrace
    · exact .inl ⟨_ :: rest, close, body, rfl, hbody, hclose⟩
    · exact .inr hreported

theorem Captures.verbatim (h : st.Captures names) (brace body close : List Char) :
    (((st.push .lBrace brace).push .docText body).push .rBrace close).Captures names := by
  intro after open' name sign before htokens hsign hname hmem hbrace
  cases after with
  | nil =>
    obtain ⟨rfl, -⟩ := List.cons.inj htokens
    cases hbrace
  | cons c after =>
    obtain ⟨rfl, hpushed⟩ := List.cons.inj htokens
    cases after with
    | nil =>
      obtain ⟨rfl, -⟩ := List.cons.inj hpushed
      cases hbrace
    | cons b after =>
      obtain ⟨rfl, hopened⟩ := List.cons.inj hpushed
      cases after with
      | nil => exact .inl ⟨[], _, _, rfl, rfl, rfl⟩
      | cons o after =>
        obtain ⟨rfl, hst⟩ := List.cons.inj hopened
        obtain ⟨rest, close, body, rfl, hbody, hclose⟩ | hreported :=
          h after open' name sign before hst hsign hname hmem hbrace
        · exact .inl ⟨_ :: _ :: _ :: rest, close, body, rfl, hbody, hclose⟩
        · exact .inr hreported

theorem Captures.report (h : st.Captures names) (d : LexDiagnostic) :
    (st.report d).Captures names := by
  intro after brace name sign before htokens hsign hname hmem hbrace
  obtain hbody | ⟨tier, htier⟩ := h after brace name sign before htokens hsign hname hmem hbrace
  · exact .inl hbody
  · exact .inr ⟨tier, List.mem_append_left _ htier⟩

end LexState

section Run

variable {recover : List Char → Nat} {tiers : List (List Char)} {collectTrivia : Bool}

/-- A pass captures the bodies of its tiers. -/
theorem lexLoop_captures (fuel : Nat) : ∀ (st : LexState) (text : List Char), st.Captures tiers →
    (lexLoop recover tiers collectTrivia fuel st text).Captures tiers := by
  induction fuel with
  | zero => exact fun st text h => h
  | succ fuel ih =>
    intro st text h
    cases text with
    | nil => exact h
    | cons c rest =>
      rw [lexLoop]
      split
      · exact ih (st.skip 1) rest h
      · split
        · exact ih ((st.report _).skip _) _ (h.report _)
        · exact ih (st.comment collectTrivia .line _) _ h
        · split
          · split
            · exact ih _ _ (h.verbatim _ _ _)
            · refine ih _ _ ((h.report _).push _ fun _ =>
                .inr ⟨(st.tokens.head?.map Token.text).getD ['d', 'o', 'c'], ?_⟩)
              exact List.mem_append_right _ (List.mem_singleton_self _)
          · rename_i hopens
            exact ih _ _ (h.push _ fun _ => .inl (by simpa using hopens))
        · split
          · exact ih (st.comment collectTrivia .block _) _ h
          · exact h.report _
        · rename_i kind n hline hbrace hblock hmatch
          have hkind : kind ≠ .lBrace := by
            rintro rfl
            exact hbrace rfl
          split
          · exact ih ((st.push _ _).addComments _) _ (h.push _ fun hk => absurd hk hkind)
          · exact ih (st.push _ _) _ (h.push _ fun hk => absurd hk hkind)

theorem Captured.mono {names names' : List (List Char)} {tokens : List Token}
    {diagnostics : List LexDiagnostic} (h : Captured names' tokens diagnostics)
    (hsub : ∀ n ∈ names, n ∈ names') : Captured names tokens diagnostics :=
  fun before sign name brace after htokens hsign hname hmem hbrace =>
    h before sign name brace after htokens hsign hname (hsub _ hmem) hbrace

theorem lexPass_captured (text : List Char) :
    Captured tiers (lexPass recover tiers collectTrivia text).tokens.reverse
      (lexPass recover tiers collectTrivia text).diagnostics := by
  have hstart : (lexStart collectTrivia text).1.tokens = [] := by
    rw [lexStart]
    split <;> rfl
  have hcaptures : (lexPass recover tiers collectTrivia text).Captures tiers := by
    apply lexLoop_captures
    intro after brace name sign before htokens
    rw [hstart] at htokens
    exact absurd htokens.symm (by simp)
  intro before sign name brace after htokens hsign hname hmem hbrace
  have hreverse : (lexPass recover tiers collectTrivia text).tokens =
      after.reverse ++ brace :: name :: sign :: before.reverse := by
    rw [← List.reverse_reverse (lexPass recover tiers collectTrivia text).tokens, htokens]
    simp
  obtain ⟨rest, close, body, hafter, hbody, hclose⟩ | hreported :=
    hcaptures _ _ _ _ _ hreverse hsign hname hmem hbrace
  · refine .inl ⟨body, close, rest.reverse, ?_, hbody, hclose⟩
    rw [← List.reverse_reverse after, hafter]
    simp
  · exact .inr hreported

variable {tiers tiers' items : List (List Char)} {lexed : List Char → List (TokenKind × List Char)}

theorem opensTextBlock_congr (h : ∀ n, n ∈ tiers ↔ n ∈ tiers')
    (tokens : List Token) : opensTextBlock tiers tokens = opensTextBlock tiers' tokens := by
  have hcontains : ∀ n, tiers.contains n = tiers'.contains n := fun n => by
    rw [Bool.eq_iff_iff, List.contains_iff_mem, List.contains_iff_mem, h n]
  match tokens with
  | [] => rfl
  | [_] => rfl
  | name :: sign :: _ => rw [opensTextBlock, opensTextBlock, hcontains]

theorem lexLoop_congr (h : ∀ n, n ∈ tiers ↔ n ∈ tiers')
    (collectTrivia : Bool) (fuel : Nat) : ∀ (st : LexState) (text : List Char),
    lexLoop recover tiers collectTrivia fuel st text =
      lexLoop recover tiers' collectTrivia fuel st text := by
  induction fuel generalizing collectTrivia with
  | zero => exact fun st text => rfl
  | succ fuel ih =>
    intro st text
    cases text with
    | nil => rfl
    | cons c rest => simp only [lexLoop, ih, opensTextBlock_congr h]

theorem lexPass_congr (h : ∀ n, n ∈ tiers ↔ n ∈ tiers') (text : List Char) :
    lexPass recover tiers collectTrivia text = lexPass recover tiers' collectTrivia text :=
  lexLoop_congr h collectTrivia _ _ _

/-! ## Items -/

/-- An item is read by itself: whatever is in front of it and behind it, its tokens are these, and so
are the tiers declared. -/
structure Lexes (recover : List Char → Nat) (tiers : List (List Char)) (collectTrivia : Bool)
    (item : List Char) (ts : List (TokenKind × List Char)) : Prop where
  reads : ∀ st after, ∃ st', ReadsTo recover tiers collectTrivia st st' item after ∧
    st'.bare = st.bare ++ ts
  settled : ∀ us, declaredTextTiers (ts ++ us) = declaredTextTiers ts ++ declaredTextTiers us

theorem reads_items (h : ∀ item ∈ items, Lexes recover tiers collectTrivia item (lexed item)) (st : LexState) :
    ∃ st', ReadsTo recover tiers collectTrivia st st' items.flatten [] ∧
      st'.bare = st.bare ++ items.flatMap lexed := by
  induction items generalizing st with
  | nil => exact ⟨st, .nil st [], by simp⟩
  | cons item items ih =>
    rw [List.forall_mem_cons] at h
    obtain ⟨st', hitem, hbare⟩ := h.1.reads st (items.flatten ++ [])
    obtain ⟨st'', hitems, hbare'⟩ := ih h.2 st'
    refine ⟨st'', hitem.append hitems, ?_⟩
    rw [hbare', hbare, List.flatMap_cons, List.append_assoc]

theorem declared_items (h : ∀ item ∈ items, Lexes recover tiers collectTrivia item (lexed item)) :
    declaredTextTiers (items.flatMap lexed) =
      items.flatMap fun item => declaredTextTiers (lexed item) := by
  induction items with
  | nil => rfl
  | cons item items ih =>
    rw [List.forall_mem_cons] at h
    rw [List.flatMap_cons, h.1.settled, ih h.2, List.flatMap_cons]

theorem lexPass_items {text : List Char} (htext : (lexStart collectTrivia text).2 = items.flatten)
    (h : ∀ item ∈ items, Lexes recover tiers collectTrivia item (lexed item)) :
    (lexPass recover tiers collectTrivia text).bare = items.flatMap lexed := by
  obtain ⟨st', hreads, hbare⟩ := reads_items h (lexStart collectTrivia text).1
  have hlength : items.flatten.length < text.length + 1 := by
    rw [← htext, lexStart]
    split
    · simp only [List.length_drop]
      omega
    · exact Nat.lt_succ_self _
  have hstart : (lexStart collectTrivia text).1.bare = [] := by
    rw [lexStart]
    split <;> rfl
  rw [lexPass, htext, hreads.finish hlength, hbare, hstart, List.nil_append]

theorem lastPass_captured (text : List Char) :
    Captured (firstDeclared recover tiers collectTrivia text)
      (lastPass recover tiers collectTrivia text).tokens.reverse
      (lastPass recover tiers collectTrivia text).diagnostics := by
  rw [lastPass]
  split
  · exact (lexPass_captured text).mono fun n hn => List.mem_append_right _ hn
  · rename_i hknown
    refine (lexPass_captured text).mono fun n hn => ?_
    by_contra hnew
    exact hknown (List.any_eq_true.2 ⟨n, hn, by simpa using hnew⟩)

/-- Every item is read by itself in both passes. -/
structure StandAlone (recover : List Char → Nat) (tiers : List (List Char)) (collectTrivia : Bool)
    (items : List (List Char)) (first last : List Char → List (TokenKind × List Char)) : Prop where
  alone : ∀ item ∈ items, Lexes recover tiers collectTrivia item (first item)
  again : ∀ item ∈ items,
    Lexes recover (tiers ++ items.flatMap fun item => declaredTextTiers (first item)) collectTrivia
      item (last item)

/-- In whatever order the items stand, each lexes to the same tokens. -/
def Movable (recover : List Char → Nat) (tiers : List (List Char)) (collectTrivia : Bool)
    (items : List (List Char)) (last : List Char → List (TokenKind × List Char)) : Prop :=
  ∀ (text : List Char) (items' : List (List Char)), items'.Perm items → (lexStart collectTrivia text).2 = items'.flatten →
    (lexImpl recover tiers collectTrivia text).tokens.map Token.bare = items'.flatMap last

section StandAlone

variable {items : List (List Char)} {first last : List Char → List (TokenKind × List Char)}

theorem StandAlone.firstDeclared (h : StandAlone recover tiers collectTrivia items first last)
    {items' : List (List Char)} (hperm : items'.Perm items) {text : List Char}
    (htext : (lexStart collectTrivia text).2 = items'.flatten) :
    firstDeclared recover tiers collectTrivia text =
      items'.flatMap fun item => declaredTextTiers (first item) := by
  have hfirst := fun item hitem => h.alone item (hperm.mem_iff.1 hitem)
  rw [Lexer.firstDeclared, lexPass_items htext hfirst, declared_items hfirst]

theorem StandAlone.movable (h : StandAlone recover tiers collectTrivia items first last) :
    Movable recover tiers collectTrivia items last := by
  intro text items' hperm htext
  have hlast := fun item hitem => h.again item (hperm.mem_iff.1 hitem)
  have hmem : ∀ n, n ∈ Lexer.firstDeclared recover tiers collectTrivia text ↔
      n ∈ items.flatMap fun item => declaredTextTiers (first item) := by
    intro n
    rw [h.firstDeclared hperm htext]
    exact (hperm.flatMap_right _).mem_iff
  have hpass : lastPass recover tiers collectTrivia text = lexPass recover
      (tiers ++ items.flatMap fun item => declaredTextTiers (first item)) collectTrivia text := by
    rw [lastPass]
    split
    · exact lexPass_congr (fun n => by rw [List.mem_append, List.mem_append, hmem]) text
    · rename_i hknown
      refine lexPass_congr (fun n => ?_) text
      rw [List.mem_append, ← hmem]
      refine ⟨.inl, fun hn => hn.elim id fun hn => ?_⟩
      by_contra hnew
      exact hknown (List.any_eq_true.2 ⟨n, hn, by simpa using hnew⟩)
  rw [lexImpl, hpass]
  exact lexPass_items htext hlast

end StandAlone

end Run

theorem Lexes.of_code {recover : List Char → Nat} {tiers : List (List Char)} (c : Code)
    {ts : List (TokenKind × List Char)}
    (hc : ∀ pos tokens after, c.WellFormed tiers pos tokens after)
    (hread : ∀ l ∈ c.literals, l.1 ≠ '\'' → Readable l.1 l.2)
    (hts : ∀ pos tokens, (c.tokens pos tokens).reverse.map Token.bare =
      tokens.reverse.map Token.bare ++ ts)
    (hsettled : ∀ us, declaredTextTiers (ts ++ us) = declaredTextTiers ts ++ declaredTextTiers us) :
    Lexes recover tiers true c.text ts :=
  ⟨fun st after => ⟨c.behind st, c.reads st after (hc _ _ after) hread, hts _ _⟩, hsettled⟩

/-- `@tier(a, text: "x")` and a newline. -/
def tierItem : Code :=
  .word .atSign ['@'] (.word .ident ['t', 'i', 'e', 'r'] (.word .lParen ['('] (.word .ident ['a']
    (.word .other [','] (.space ' ' (.word .ident ['t', 'e', 'x', 't'] (.word .colon [':']
      (.space ' ' (.literal '"' (.char 'x' .nil) (.word .rParen [')'] (.space '\n' .nil)))))))))))

/-- `@a { it }` and a newline, read as code. -/
def useItem : Code :=
  .word .atSign ['@'] (.word .ident ['a'] (.space ' ' (.group false
    (.space ' ' (.word .ident ['i', 't'] (.space ' ' .nil))) (.space '\n' .nil))))

/-- The same item with its body captured. -/
def capturedItem : Code :=
  .word .atSign ['@'] (.word .ident ['a'] (.space ' ' (.verbatim [' ', 'i', 't', ' ']
    (.space '\n' .nil))))

def tierTokens : List (TokenKind × List Char) :=
  [(.atSign, ['@']), (.ident, ['t', 'i', 'e', 'r']), (.lParen, ['(']), (.ident, ['a']),
    (.other, [',']), (.ident, ['t', 'e', 'x', 't']), (.colon, [':']),
    (.stringLit, ['"', 'x', '"']), (.rParen, [')'])]

theorem tierItem_lexes (tiers : List (List Char)) :
    Lexes (fun _ => 0) tiers true tierItem.text tierTokens := by
  apply Lexes.of_code
  · intro pos tokens after
    refine ⟨by decide, rfl, rfl, by decide, rfl, rfl, by decide, rfl, rfl, by decide, rfl, rfl,
      by decide, rfl, rfl, rfl, by decide, rfl, rfl, by decide, rfl, rfl, rfl, rfl,
      ⟨by decide, by decide, by decide, trivial⟩, by decide, rfl, rfl, rfl, trivial⟩
  · refine List.forall_mem_cons.2 ⟨fun _ => ?_, fun l hl => absurd hl List.not_mem_nil⟩
    exact ⟨fun code hcode => absurd hcode List.not_mem_nil, by decide⟩
  · intro pos tokens
    simp [tierItem, tierTokens, Code.tokens, Token.bare, Literal.text, literalKind]
  · intro us
    simp [tierTokens, declaredTextTiers, declarationAt, marksText]

theorem useItem_lexes : Lexes (fun _ => 0) [['d', 'o', 'c']] true useItem.text
    [(.atSign, ['@']), (.ident, ['a']), (.lBrace, ['{']), (.ident, ['i', 't']), (.rBrace, ['}'])] := by
  apply Lexes.of_code
  · intro pos tokens after
    exact ⟨by decide, rfl, rfl, by decide, rfl, rfl, rfl, fun _ => rfl,
      ⟨rfl, by decide, rfl, rfl, rfl, trivial⟩, rfl, trivial⟩
  · exact fun l hl => absurd hl List.not_mem_nil
  · intro pos tokens
    simp [useItem, Code.tokens, Token.bare, opener]
  · intro us
    simp [declaredTextTiers, declarationAt]

theorem capturedItem_lexes : Lexes (fun _ => 0) [['d', 'o', 'c'], ['a']] true useItem.text
    [(.atSign, ['@']), (.ident, ['a']), (.lBrace, ['{']), (.docText, [' ', 'i', 't', ' ']),
      (.rBrace, ['}'])] := by
  have htext : useItem.text = capturedItem.text := rfl
  rw [htext]
  apply Lexes.of_code
  · intro pos tokens after
    exact ⟨by decide, rfl, rfl, by decide, rfl, rfl, rfl, rfl, by decide, rfl, trivial⟩
  · exact fun l hl => absurd hl List.not_mem_nil
  · intro pos tokens
    simp [capturedItem, Code.tokens, Token.bare]
  · intro us
    simp [declaredTextTiers, declarationAt]

end Noeta.Lexer
