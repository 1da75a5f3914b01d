import Noeta.Fmt.Line

/-!
# What a group promises

A layout assigns each group a mode: `Lays` says which pieces a document becomes under the modes that
were decided, that a group laid out flat stays on its line and within the width, and that a group is
broken only if its line would not fit. The renderer lays out every document like that as long as its
width survives the cast; above, every group is broken.
-/

namespace Noeta.Fmt

/-! ### Pieces -/

variable {style : IndentStyle}

def Piece.chars (style : IndentStyle) : Piece → List Char
  | .text s => s
  | .raw s => s
  | .space => [' ']
  | .newline indent => '\n' :: indentation style indent
  | .group _ => []

def charsOf (style : IndentStyle) (pieces : List Piece) : List Char :=
  pieces.flatMap (Piece.chars style)

/-- The byte ranges of the raw pieces, where the first piece starts at a byte offset. -/
def rawRanges (style : IndentStyle) : Nat → List Piece → List (Nat × Nat)
  | _, [] => []
  | start, .raw s :: pieces =>
    (start, start + utf8Len s) :: rawRanges style (start + utf8Len s) pieces
  | start, piece :: pieces => rawRanges style (start + utf8Len (piece.chars style)) pieces

/-- The column after a text that starts at a column. -/
def columnOf (c : Nat) (s : List Char) : Nat :=
  if '\n' ∈ s then (lastLine s).length else c + s.length

theorem charsOf_cons (piece : Piece) (pieces : List Piece) :
    charsOf style (piece :: pieces) = piece.chars style ++ charsOf style pieces := rfl

theorem utf8Len_append (s t : List Char) : utf8Len (s ++ t) = utf8Len s + utf8Len t := by
  simp [utf8Len]

theorem takeWhile_append_of_mem {s : List Char} (h : '\n' ∈ s) (t : List Char) :
    (s ++ t).takeWhile (· ≠ '\n') = s.takeWhile (· ≠ '\n') := by
  induction s with
  | nil => cases h
  | cons c s ih =>
    by_cases hc : c = '\n'
    · simp [hc]
    · have hs : '\n' ∈ s := by
        rcases List.mem_cons.1 h with heq | hs
        · exact absurd heq.symm hc
        · exact hs
      simpa [hc] using ih hs

theorem lastLine_append (s t : List Char) :
    lastLine (s ++ t) = if '\n' ∈ t then lastLine t else lastLine s ++ t := by
  unfold lastLine
  rw [List.reverse_append]
  by_cases h : '\n' ∈ t
  · rw [if_pos h, takeWhile_append_of_mem (List.mem_reverse.2 h)]
  · have hall : ∀ c ∈ t.reverse, decide (c ≠ '\n') = true := by
      intro c hc
      have hne : c ≠ '\n' := fun heq => h (List.mem_reverse.1 (heq ▸ hc))
      simpa using hne
    rw [if_neg h, List.takeWhile_append_of_pos hall, List.reverse_append, List.reverse_reverse]

theorem columnOf_append (c : Nat) (s t : List Char) :
    columnOf c (s ++ t) = columnOf (columnOf c s) t := by
  unfold columnOf
  rw [lastLine_append]
  by_cases ht : '\n' ∈ t
  · simp [ht]
  · by_cases hs : '\n' ∈ s
    · simp [hs, ht]
    · simp [hs, ht, Nat.add_assoc]

/-! ### Layouts -/

/-- The style indents by spaces. -/
def IndentStyle.Spaces (style : IndentStyle) : Prop := style.tabs = false ∨ style.width = 0

mutual

/-- No newline in a text, and no indent below zero. -/
def Valid (indent : Int) : Doc → Prop
  | .text s => '\n' ∉ s
  | .concat docs => ValidAll indent docs
  | .nest n d => 0 ≤ indent + n ∧ Valid (indent + n) d
  | .group d => Valid indent d
  | .ifBreak d => Valid indent d
  | _ => True

def ValidAll (indent : Int) : List Doc → Prop
  | [] => True
  | d :: ds => Valid indent d ∧ ValidAll indent ds

end

/-- A group laid out flat: no newline, flat groups only, and an end within the width. -/
structure LiesFlat (width : Nat) (style : IndentStyle) (c : Nat) (pieces : List Piece) : Prop where
  oneLine : '\n' ∉ charsOf style pieces
  groups : ∀ mode, Piece.group mode ∈ pieces → mode = .flat
  within : columnOf c (charsOf style pieces) ≤ width

mutual

/-- The document, in a mode and followed by later items, becomes the pieces at a column. -/
inductive Lays (width : Nat) (style : IndentStyle) :
    List Item → Int → Mode → Doc → Nat → List Piece → Prop where
  | nil {later : List Item} {indent : Int} {mode : Mode} {c : Nat} :
      Lays width style later indent mode .nil c []
  | text {later : List Item} {indent : Int} {mode : Mode} {s : List Char} {c : Nat} :
      Lays width style later indent mode (.text s) c [.text s]
  | rawText {later : List Item} {indent : Int} {mode : Mode} {s : List Char} {c : Nat} :
      Lays width style later indent mode (.rawText s) c [.raw s]
  | lineFlat {later : List Item} {indent : Int} {c : Nat} :
      Lays width style later indent .flat .line c [.space]
  | lineBroken {later : List Item} {indent : Int} {c : Nat} :
      Lays width style later indent .broken .line c [.newline indent]
  | softLineFlat {later : List Item} {indent : Int} {c : Nat} :
      Lays width style later indent .flat .softLine c []
  | softLineBroken {later : List Item} {indent : Int} {c : Nat} :
      Lays width style later indent .broken .softLine c [.newline indent]
  | hardLine {later : List Item} {indent : Int} {mode : Mode} {c : Nat} :
      Lays width style later indent mode .hardLine c [.newline indent]
  | concat {later : List Item} {indent : Int} {mode : Mode} {docs : List Doc} {c : Nat}
      {p : List Piece} : LaysAll width style later indent mode docs c p →
      Lays width style later indent mode (.concat docs) c p
  | nest {later : List Item} {indent n : Int} {mode : Mode} {d : Doc} {c : Nat} {p : List Piece} :
      Lays width style later (indent + n) mode d c p →
      Lays width style later indent mode (.nest n d) c p
  | groupFlat {later : List Item} {indent : Int} {mode : Mode} {d : Doc} {c : Nat}
      {p : List Piece} : Lays width style later indent .flat d c p → LiesFlat width style c p →
      Lays width style later indent mode (.group d) c (.group .flat :: p)
  /-- A group is broken only if its flat layout, with the rest of its line, does not fit. -/
  | groupBroken {later : List Item} {indent : Int} {mode : Mode} {d : Doc} {c : Nat}
      {p : List Piece} : Lays width style later indent .broken d c p →
      ¬ (lineAt (⟨indent, .flat, d⟩ :: later)).Fits (width - c) →
      Lays width style later indent mode (.group d) c (.group .broken :: p)
  | ifBreakFlat {later : List Item} {indent : Int} {d : Doc} {c : Nat} :
      Lays width style later indent .flat (.ifBreak d) c []
  | ifBreakBroken {later : List Item} {indent : Int} {d : Doc} {c : Nat} {p : List Piece} :
      Lays width style later indent .broken d c p →
      Lays width style later indent .broken (.ifBreak d) c p

inductive LaysAll (width : Nat) (style : IndentStyle) :
    List Item → Int → Mode → List Doc → Nat → List Piece → Prop where
  | nil {later : List Item} {indent : Int} {mode : Mode} {c : Nat} :
      LaysAll width style later indent mode [] c []
  | cons {later : List Item} {indent : Int} {mode : Mode} {d : Doc} {ds : List Doc} {c : Nat}
      {p q : List Piece} : Lays width style (itemsOf indent mode ds ++ later) indent mode d c p →
      LaysAll width style later indent mode ds (columnOf c (charsOf style p)) q →
      LaysAll width style later indent mode (d :: ds) c (p ++ q)

end

/-- The output is a layout of the document, and what is protected is what raw text wrote. -/
structure LaidOut (doc : Doc) (width : Nat) (style : IndentStyle) (r : Rendered) : Prop where
  lays : Lays width style [] 0 .broken doc 0 r.trace
  out : r.out = charsOf style r.trace
  ranges : r.ranges = rawRanges style 0 r.trace

/-! ### The loop, document by document -/

def columnAfter : Int → List Piece → Int
  | c, [] => c
  | c, .text s :: pieces => columnAfter (c + s.length) pieces
  | c, .raw s :: pieces =>
    columnAfter (if '\n' ∈ s then ((lastLine s).length : Int) else c + s.length) pieces
  | c, .space :: pieces => columnAfter (c + 1) pieces
  | _, .newline indent :: pieces => columnAfter indent pieces
  | c, .group _ :: pieces => columnAfter c pieces

theorem columnAfter_append (q : List Piece) : ∀ (p : List Piece) (c : Int),
    columnAfter c (p ++ q) = columnAfter (columnAfter c p) q := by
  intro p
  induction p with
  | nil => exact fun c => rfl
  | cons piece p ih =>
    intro c
    cases piece <;> exact ih _

mutual

/-- The pieces the loop makes of a document, above a stack and at a column. -/
def lay (width : Int) (stack : List Item) (indent : Int) : Mode → Doc → Int → List Piece
  | _, .nil, _ => []
  | _, .text s, _ => [.text s]
  | _, .rawText s, _ => [.raw s]
  | .flat, .line, _ => [.space]
  | .broken, .line, _ => [.newline indent]
  | .flat, .softLine, _ => []
  | .broken, .softLine, _ => [.newline indent]
  | _, .hardLine, _ => [.newline indent]
  | mode, .concat docs, c => layAll width stack indent mode docs c
  | mode, .nest n d, c => lay width stack (indent + n) mode d c
  | _, .group d, c =>
    .group (groupMode width c indent d stack) ::
      lay width stack indent (groupMode width c indent d stack) d c
  | .broken, .ifBreak d, c => lay width stack indent .broken d c
  | .flat, .ifBreak _, _ => []

def layAll (width : Int) (stack : List Item) (indent : Int) : Mode → List Doc → Int → List Piece
  | _, [], _ => []
  | mode, d :: ds, c =>
    lay width (itemsOf indent mode ds ++ stack) indent mode d c ++
      layAll width stack indent mode ds
        (columnAfter c (lay width (itemsOf indent mode ds ++ stack) indent mode d c))

end

def Rendered.emit (style : IndentStyle) (r : Rendered) : Piece → Rendered
  | .text s => r.pushText s
  | .raw s => r.pushRaw s
  | .space => r.pushSpace
  | .newline indent => r.newLine style indent
  | .group mode => r.decided mode

theorem col_foldl (pieces : List Piece) : ∀ r : Rendered,
    (pieces.foldl (Rendered.emit style) r).col = columnAfter r.col pieces := by
  induction pieces with
  | nil => exact fun r => rfl
  | cons piece pieces ih =>
    intro r
    rw [List.foldl_cons, ih]
    cases piece <;> rfl

theorem trace_foldl (pieces : List Piece) : ∀ r : Rendered,
    (pieces.foldl (Rendered.emit style) r).trace = r.trace ++ pieces := by
  induction pieces with
  | nil => exact fun r => (List.append_nil _).symm
  | cons piece pieces ih =>
    intro r
    rw [List.foldl_cons, ih]
    cases piece <;> simp [Rendered.emit, Rendered.pushText, Rendered.pushRaw, Rendered.pushSpace,
      Rendered.newLine, Rendered.decided]

theorem out_foldl (pieces : List Piece) : ∀ r : Rendered,
    (pieces.foldl (Rendered.emit style) r).out = r.out ++ charsOf style pieces := by
  induction pieces with
  | nil => exact fun r => (List.append_nil _).symm
  | cons piece pieces ih =>
    intro r
    rw [List.foldl_cons, ih, charsOf_cons]
    cases piece <;> simp [Rendered.emit, Rendered.pushText, Rendered.pushRaw, Rendered.pushSpace,
      Rendered.newLine, Rendered.decided, Piece.chars]

theorem ranges_foldl (pieces : List Piece) : ∀ r : Rendered,
    (pieces.foldl (Rendered.emit style) r).ranges =
      r.ranges ++ rawRanges style (utf8Len r.out) pieces := by
  induction pieces with
  | nil => exact fun r => (List.append_nil _).symm
  | cons piece pieces ih =>
    intro r
    rw [List.foldl_cons, ih]
    cases piece <;> simp [Rendered.emit, Rendered.pushText, Rendered.pushRaw, Rendered.pushSpace,
      Rendered.newLine, Rendered.decided, Piece.chars, rawRanges, utf8Len_append]
    rfl

mutual

/-- Taking a document off the stack emits its pieces. -/
theorem renderLoop_doc (width : Int) : ∀ (d : Doc) (indent : Int) (mode : Mode)
    (stack : List Item) (r : Rendered), renderLoop width style (⟨indent, mode, d⟩ :: stack) r =
      renderLoop width style stack
        ((lay width stack indent mode d r.col).foldl (Rendered.emit style) r)
  | .nil, indent, mode, stack, r => by
    rw [renderLoop, lay, List.foldl_nil]
  | .text s, indent, mode, stack, r => by
    rw [renderLoop, lay]
    rfl
  | .rawText s, indent, mode, stack, r => by
    rw [renderLoop, lay]
    rfl
  | .line, indent, .flat, stack, r => by
    rw [renderLoop, lay]
    rfl
  | .line, indent, .broken, stack, r => by
    rw [renderLoop, lay]
    rfl
  | .softLine, indent, .flat, stack, r => by
    rw [renderLoop, lay]
    rfl
  | .softLine, indent, .broken, stack, r => by
    rw [renderLoop, lay]
    rfl
  | .hardLine, indent, mode, stack, r => by
    rw [renderLoop, lay]
    rfl
  | .concat docs, indent, mode, stack, r => by
    rw [renderLoop, renderLoop_docs width docs, lay]
  | .nest n d, indent, mode, stack, r => by
    rw [renderLoop, renderLoop_doc width d, lay]
  | .group d, indent, mode, stack, r => by
    rw [renderLoop, renderLoop_doc width d, lay]
    rfl
  | .ifBreak d, indent, .broken, stack, r => by
    rw [renderLoop, renderLoop_doc width d, lay]
  | .ifBreak d, indent, .flat, stack, r => by
    rw [renderLoop, lay, List.foldl_nil]

theorem renderLoop_docs (width : Int) : ∀ (ds : List Doc) (indent : Int) (mode : Mode)
    (stack : List Item) (r : Rendered), renderLoop width style (itemsOf indent mode ds ++ stack) r =
      renderLoop width style stack
        ((layAll width stack indent mode ds r.col).foldl (Rendered.emit style) r)
  | [], indent, mode, stack, r => by
    rw [layAll, List.foldl_nil, itemsOf_nil, List.nil_append]
  | d :: ds, indent, mode, stack, r => by
    rw [itemsOf_cons, List.cons_append, renderLoop_doc width d, renderLoop_docs width ds, layAll,
      List.foldl_append, col_foldl]

end

theorem renderProtected_eq (doc : Doc) (width : UInt64) (style : IndentStyle) :
    renderProtected doc width style =
      (lay (asIsize width) [] 0 .broken doc 0).foldl (Rendered.emit style) ⟨[], [], 0, []⟩ := by
  rw [renderProtected, renderLoop_doc, renderLoop]

/-! ### What is written -/

mutual

/-- The texts of a document, with or without those that only a broken group writes. -/
def Doc.texts (all : Bool) : Doc → List (List Char)
  | .text s | .rawText s => [s]
  | .concat docs => textsAll all docs
  | .nest _ d | .group d => d.texts all
  | .ifBreak d => if all then d.texts all else []
  | _ => []

def textsAll (all : Bool) : List Doc → List (List Char)
  | [] => []
  | d :: ds => d.texts all ++ textsAll all ds

end

/-- Each text whole and in its place, with blanks around. -/
inductive Woven : List (List Char) → List Char → Prop where
  | nil : Woven [] []
  | blank {c : Char} {texts : List (List Char)} {out : List Char} :
      c ∈ [' ', '\n', '\t'] → Woven texts out → Woven texts (c :: out)
  | text (s : List Char) {texts : List (List Char)} {out : List Char} :
      Woven texts out → Woven (s :: texts) (s ++ out)

variable {texts texts' least least' most most' : List (List Char)} {out out' : List Char}

theorem Woven.append (h : Woven texts out) (h' : Woven texts' out') : Woven (texts ++ texts') (out ++ out') := by
  induction h with
  | nil => exact h'
  | blank hc _ ih => exact .blank hc ih
  | text s _ ih => exact List.append_assoc s .. ▸ .text s ih

theorem woven_newline (indent : Int) : Woven [] ('\n' :: indentation style indent) := by
  have hblank : ∀ c ∈ [' ', '\n', '\t'], ∀ n, Woven [] (List.replicate n c) := by
    intro c hc n
    induction n with
    | zero => exact .nil
    | succ n ih => exact .blank hc ih
  refine .blank (by simp) ?_
  unfold indentation
  split <;> exact hblank _ (by simp) _

def Writes (least most : List (List Char)) (out : List Char) : Prop :=
  ∃ texts, least.Sublist texts ∧ texts.Sublist most ∧ Woven texts out

theorem Writes.append : Writes least most out → Writes least' most' out' →
    Writes (least ++ least') (most ++ most') (out ++ out')
  | ⟨texts, hl, hm, h⟩, ⟨texts', hl', hm', h'⟩ => ⟨texts ++ texts', hl.append hl', hm.append hm', h.append h'⟩

theorem Woven.writes (h : Woven texts out) : Writes texts texts out := ⟨texts, .refl _, .refl _, h⟩

mutual

theorem writes_lay (width : Int) : ∀ (d : Doc) (mode : Mode) (indent : Int) (stack : List Item) (c : Int),
    Writes (d.texts false) (d.texts true) (charsOf style (lay width stack indent mode d c))
  | .nil, _, _, _, _ | .softLine, .flat, _, _, _ | .ifBreak _, .flat, _, _, _ =>
    ⟨[], by simp [Doc.texts], by simp, by simpa [lay, charsOf] using Woven.nil⟩
  | .text s, _, _, _, _ | .rawText s, _, _, _, _ => by
    simpa [lay, charsOf, Piece.chars, Doc.texts] using (Woven.text s .nil).writes
  | .line, .flat, _, _, _ => by
    simpa [lay, charsOf, Piece.chars, Doc.texts] using (Woven.blank (c := ' ') (by simp) .nil).writes
  | .line, .broken, indent, _, _ | .softLine, .broken, indent, _, _ | .hardLine, _, indent, _, _ => by
    simpa [lay, charsOf, Piece.chars, Doc.texts] using (woven_newline indent).writes
  | .concat docs, mode, indent, stack, c => by
    simpa only [lay, Doc.texts] using writes_layAll width docs mode indent stack c
  | .nest n d, mode, indent, stack, c => by
    simpa only [lay, Doc.texts] using writes_lay width d mode (indent + n) stack c
  | .group d, _, indent, stack, c => by
    simpa only [lay, charsOf_cons, Piece.chars, List.nil_append, Doc.texts] using
      writes_lay width d (groupMode width c indent d stack) indent stack c
  | .ifBreak d, .broken, indent, stack, c => by
    obtain ⟨texts, -, hm, h⟩ := writes_lay width d .broken indent stack c
    exact ⟨texts, by simp [Doc.texts], by simpa [Doc.texts] using hm, by simpa [lay] using h⟩

theorem writes_layAll (width : Int) : ∀ (ds : List Doc) (mode : Mode) (indent : Int) (stack : List Item) (c : Int),
    Writes (textsAll false ds) (textsAll true ds) (charsOf style (layAll width stack indent mode ds c))
  | [], _, _, _, _ => by simpa [layAll, charsOf, textsAll] using Woven.nil.writes
  | d :: ds, mode, indent, stack, c => by
    rw [layAll, textsAll, textsAll, charsOf, List.flatMap_append]
    exact (writes_lay width d mode indent _ c).append (writes_layAll width ds mode indent stack _)

end

/-- **A layout writes its document's texts** and blanks, at any width: no text is lost, changed or moved, and only those
under `ifBreak` can be left out. -/
theorem renderProtected_texts (doc : Doc) (width : UInt64) (style : IndentStyle) :
    Writes (doc.texts false) (doc.texts true) (renderProtected doc width style).out := by
  rw [renderProtected_eq, out_foldl]
  exact writes_lay (asIsize width) doc .broken 0 [] 0

end Noeta.Fmt
