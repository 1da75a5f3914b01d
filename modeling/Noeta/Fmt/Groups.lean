import Noeta.Fmt.Layout

/-!
# The renderer keeps what a group promises

Below `2 ^ 63` columns the renderer lays out every document as its groups promise. The invariant is
the one line the lookahead measures: once a group fits, what is left of its line fits at every later
item of it, so the lookahead of a nested group decides the same way. A larger width is negative after
the cast, and every group is broken.
-/

namespace Noeta.Fmt

variable {style : IndentStyle}

/-! ### Columns -/

/-- A piece whose width in columns is that of its characters. -/
def Piece.Real : Piece → Prop
  | .text s => '\n' ∉ s
  | .newline indent => 0 ≤ indent
  | _ => True

theorem newline_notMem_indentation (indent : Int) : '\n' ∉ indentation style indent := by
  unfold indentation
  split
  · simp
  · simp

theorem length_indentation (hstyle : style.Spaces) {indent : Int} (h : 0 ≤ indent) :
    ((indentation style indent).length : Int) = indent := by
  have hspaces : ¬ (style.tabs = true ∧ 0 < style.width) := by
    rintro ⟨htabs, hwidth⟩
    rcases hstyle with h | h
    · rw [h] at htabs
      cases htabs
    · omega
  rw [indentation, if_neg hspaces, List.length_replicate]
  omega

theorem columnOf_newline (c : Nat) (indent : Int) :
    columnOf c ('\n' :: indentation style indent) = (indentation style indent).length := by
  have hnl : '\n' ∉ indentation style indent := newline_notMem_indentation indent
  have hlast := lastLine_append ['\n'] (indentation style indent)
  rw [if_neg hnl, List.singleton_append] at hlast
  rw [columnOf, if_pos List.mem_cons_self, hlast]
  rfl

theorem columnAfter_eq (hstyle : style.Spaces) (pieces : List Piece) :
    ∀ c : Nat, (∀ piece ∈ pieces, piece.Real) →
      columnAfter c pieces = columnOf c (charsOf style pieces) := by
  induction pieces with
  | nil => simp [columnAfter, charsOf, columnOf]
  | cons piece pieces ih =>
    intro c hreal
    have hpiece := hreal piece List.mem_cons_self
    have hrest : ∀ piece ∈ pieces, piece.Real :=
      fun piece hpiece => hreal piece (List.mem_cons_of_mem _ hpiece)
    rw [charsOf_cons, columnOf_append]
    have hstep : ∀ k : Nat, (k : Int) = columnOf c (piece.chars style) →
        columnAfter k pieces = columnOf (columnOf c (piece.chars style)) (charsOf style pieces) := by
      intro k hk
      rw [ih k hrest, Int.ofNat_inj.1 hk]
    cases piece with
    | text s =>
      refine hstep (c + s.length) ?_
      rw [Piece.chars, columnOf, if_neg hpiece]
    | raw s =>
      rw [← hstep (columnOf c s) rfl, columnAfter, columnOf]
      split <;> rfl
    | space => exact hstep (c + 1) rfl
    | newline indent =>
      have hlength := length_indentation hstyle (show 0 ≤ indent from hpiece)
      have hcol := hstep (indentation style indent).length (by rw [Piece.chars, columnOf_newline])
      rw [hlength] at hcol
      exact hcol
    | group mode => exact hstep c rfl

mutual

theorem real_lay (width : Int) : ∀ (d : Doc) (stack : List Item) (indent : Int) (mode : Mode)
    (c : Int), 0 ≤ indent → Valid indent d → ∀ piece ∈ lay width stack indent mode d c, piece.Real
  | .nil, _, _, _, _, _, _ => by simp [lay]
  | .text s, _, _, _, _, _, hvalid => by simpa [lay, Piece.Real, Valid] using hvalid
  | .rawText s, _, _, _, _, _, _ => by simp [lay, Piece.Real]
  | .line, _, _, mode, _, hindent, _ => by cases mode <;> simp [lay, Piece.Real, hindent]
  | .softLine, _, _, mode, _, hindent, _ => by cases mode <;> simp [lay, Piece.Real, hindent]
  | .hardLine, _, _, _, _, hindent, _ => by simp [lay, Piece.Real, hindent]
  | .concat docs, stack, indent, mode, c, hindent, hvalid => by
    rw [Valid] at hvalid
    rw [lay]
    exact real_layAll width docs stack indent mode c hindent hvalid
  | .nest n d, stack, indent, mode, c, _, hvalid => by
    rw [Valid] at hvalid
    rw [lay]
    exact real_lay width d stack (indent + n) mode c hvalid.1 hvalid.2
  | .group d, stack, indent, mode, c, hindent, hvalid => by
    rw [Valid] at hvalid
    rw [lay, List.forall_mem_cons]
    exact ⟨trivial, real_lay width d stack indent _ c hindent hvalid⟩
  | .ifBreak d, stack, indent, .broken, c, hindent, hvalid => by
    rw [Valid] at hvalid
    rw [lay]
    exact real_lay width d stack indent .broken c hindent hvalid
  | .ifBreak d, _, _, .flat, _, _, _ => by simp [lay]

theorem real_layAll (width : Int) : ∀ (ds : List Doc) (stack : List Item) (indent : Int)
    (mode : Mode) (c : Int), 0 ≤ indent → ValidAll indent ds →
      ∀ piece ∈ layAll width stack indent mode ds c, piece.Real
  | [], _, _, _, _, _, _ => by simp [layAll]
  | d :: ds, stack, indent, mode, c, hindent, hvalid => by
    rw [layAll, List.forall_mem_append]
    exact ⟨real_lay width d _ indent mode c hindent hvalid.1,
      real_layAll width ds stack indent mode _ hindent hvalid.2⟩

end

/-! ### A group that fits -/

/-- A piece of a flat layout. -/
def Piece.Flat : Piece → Prop
  | .raw s => '\n' ∉ s
  | .newline _ => False
  | .group mode => mode = .flat
  | _ => True

theorem groupMode_eq (width c indent : Int) (d : Doc) (stack : List Item) :
    groupMode width c indent d stack = .flat ↔
      (lineAt (⟨indent, .flat, d⟩ :: stack)).Fits (width - c) := by
  have hfits := fits_iff (width - c) [⟨indent, .flat, d⟩] stack
  rw [List.singleton_append] at hfits
  rw [groupMode, ← hfits]
  split <;> simp_all

mutual

/-- Where the rest of the line fits, a document in flat mode is laid out flat, and what follows it
on the line still fits. -/
theorem lay_flat (width : Int) : ∀ (d : Doc) (stack : List Item) (indent c : Int),
    (lineAt (⟨indent, .flat, d⟩ :: stack)).Fits (width - c) →
      (∀ piece ∈ lay width stack indent .flat d c, piece.Flat) ∧
        (lineAt stack).Fits (width - columnAfter c (lay width stack indent .flat d c))
  | .nil, stack, indent, c, hfits => by
    rw [lineAt, lineOf, Line.runsOn_andThen, Line.fits_add] at hfits
    simpa [lay, columnAfter] using hfits
  | .text s, stack, indent, c, hfits => by
    rw [lineAt, lineOf, Line.runsOn_andThen, Line.fits_add] at hfits
    simpa [lay, columnAfter, Piece.Flat, Int.sub_sub] using hfits
  | .rawText s, stack, indent, c, hfits => by
    rw [lineAt, lineOf] at hfits
    by_cases hnl : '\n' ∈ s
    · rw [if_pos hnl] at hfits
      exact absurd rfl hfits.1
    · rw [if_neg hnl, Line.runsOn_andThen, Line.fits_add] at hfits
      simpa [lay, columnAfter, Piece.Flat, hnl, Int.sub_sub] using hfits
  | .line, stack, indent, c, hfits => by
    rw [lineAt, lineOf, Line.runsOn_andThen, Line.fits_add] at hfits
    simpa [lay, columnAfter, Piece.Flat, Int.sub_sub] using hfits
  | .softLine, stack, indent, c, hfits => by
    rw [lineAt, lineOf, Line.runsOn_andThen, Line.fits_add] at hfits
    simpa [lay, columnAfter] using hfits
  | .hardLine, stack, indent, c, hfits => absurd rfl hfits.1
  | .concat docs, stack, indent, c, hfits => by
    rw [lineAt, lineOf, ← lineAt_itemsOf indent] at hfits
    rw [lay]
    exact layAll_flat width docs stack indent c hfits
  | .nest n d, stack, indent, c, hfits => by
    rw [lay]
    refine lay_flat width d stack (indent + n) c ?_
    rw [lineAt, lineOf] at hfits
    exact hfits
  | .group d, stack, indent, c, hfits => by
    rw [lineAt, lineOf] at hfits
    have hmode : groupMode width c indent d stack = .flat := (groupMode_eq _ _ _ _ _).2 hfits
    obtain ⟨hflat, hrest⟩ := lay_flat width d stack indent c hfits
    rw [lay, hmode, List.forall_mem_cons]
    exact ⟨⟨rfl, hflat⟩, hrest⟩
  | .ifBreak d, stack, indent, c, hfits => by
    rw [lineAt, lineOf, Line.runsOn_andThen, Line.fits_add] at hfits
    simpa [lay, columnAfter] using hfits

theorem layAll_flat (width : Int) : ∀ (ds : List Doc) (stack : List Item) (indent c : Int),
    (lineAt (itemsOf indent .flat ds ++ stack)).Fits (width - c) →
      (∀ piece ∈ layAll width stack indent .flat ds c, piece.Flat) ∧
        (lineAt stack).Fits (width - columnAfter c (layAll width stack indent .flat ds c))
  | [], stack, indent, c, hfits => by
    simpa [layAll, columnAfter] using hfits
  | d :: ds, stack, indent, c, hfits => by
    obtain ⟨hflat, hrest⟩ := lay_flat width d (itemsOf indent .flat ds ++ stack) indent c hfits
    obtain ⟨hflat', hrest'⟩ := layAll_flat width ds stack indent _ hrest
    rw [layAll, List.forall_mem_append, columnAfter_append]
    exact ⟨⟨hflat, hflat'⟩, hrest'⟩

end

/-! ### Widths below `2 ^ 63` -/

theorem oneLine_of_flat {pieces : List Piece} (hflat : ∀ piece ∈ pieces, piece.Flat)
    (hreal : ∀ piece ∈ pieces, piece.Real) : '\n' ∉ charsOf style pieces := by
  intro hmem
  obtain ⟨piece, hpiece, hchar⟩ := List.mem_flatMap.1 hmem
  have hf := hflat piece hpiece
  have hr := hreal piece hpiece
  cases piece with
  | text s => exact hr hchar
  | raw s => exact hf hchar
  | space => simp [Piece.chars] at hchar
  | newline indent => exact hf
  | group mode => cases hchar

theorem liesFlat_lay (hstyle : style.Spaces) {width c : Nat} {d : Doc} {stack : List Item}
    {indent : Int} (hindent : 0 ≤ indent) (hvalid : Valid indent d)
    (hfits : (lineAt (⟨indent, .flat, d⟩ :: stack)).Fits (width - c)) :
    LiesFlat width style c (lay width stack indent .flat d c) := by
  obtain ⟨hflat, hrest⟩ := lay_flat width d stack indent c hfits
  have hreal := real_lay width d stack indent .flat c hindent hvalid
  refine ⟨oneLine_of_flat hflat hreal, fun mode hmode => hflat _ hmode, ?_⟩
  have hcolumns := hrest.2
  rw [columnAfter_eq hstyle _ c hreal] at hcolumns
  omega

mutual

theorem lays_lay (hstyle : style.Spaces) (width : Nat) : ∀ (d : Doc) (stack : List Item)
    (indent : Int) (mode : Mode) (c : Nat), 0 ≤ indent → Valid indent d →
      Lays width style stack indent mode d c (lay width stack indent mode d c)
  | .nil, _, _, _, _, _, _ => by
    rw [lay]
    exact .nil
  | .text s, _, _, _, _, _, _ => by
    rw [lay]
    exact .text
  | .rawText s, _, _, _, _, _, _ => by
    rw [lay]
    exact .rawText
  | .line, _, _, .flat, _, _, _ => by
    rw [lay]
    exact .lineFlat
  | .line, _, _, .broken, _, _, _ => by
    rw [lay]
    exact .lineBroken
  | .softLine, _, _, .flat, _, _, _ => by
    rw [lay]
    exact .softLineFlat
  | .softLine, _, _, .broken, _, _, _ => by
    rw [lay]
    exact .softLineBroken
  | .hardLine, _, _, _, _, _, _ => by
    rw [lay]
    exact .hardLine
  | .concat docs, stack, indent, mode, c, hindent, hvalid => by
    rw [lay]
    exact .concat (laysAll_lay hstyle width docs stack indent mode c hindent hvalid)
  | .nest n d, stack, indent, mode, c, _, hvalid => by
    rw [Valid] at hvalid
    rw [lay]
    exact .nest (lays_lay hstyle width d stack (indent + n) mode c hvalid.1 hvalid.2)
  | .group d, stack, indent, mode, c, hindent, hvalid => by
    rw [Valid] at hvalid
    rw [lay]
    cases hmode : groupMode width c indent d stack with
    | flat =>
      refine .groupFlat (lays_lay hstyle width d stack indent .flat c hindent hvalid) ?_
      exact liesFlat_lay hstyle hindent hvalid ((groupMode_eq _ _ _ _ _).1 hmode)
    | broken =>
      refine .groupBroken (lays_lay hstyle width d stack indent .broken c hindent hvalid) ?_
      intro hfits
      rw [(groupMode_eq _ _ _ _ _).2 hfits] at hmode
      cases hmode
  | .ifBreak d, stack, indent, .broken, c, hindent, hvalid => by
    rw [Valid] at hvalid
    rw [lay]
    exact .ifBreakBroken (lays_lay hstyle width d stack indent .broken c hindent hvalid)
  | .ifBreak d, _, _, .flat, _, _, _ => by
    rw [lay]
    exact .ifBreakFlat

theorem laysAll_lay (hstyle : style.Spaces) (width : Nat) : ∀ (ds : List Doc) (stack : List Item)
    (indent : Int) (mode : Mode) (c : Nat), 0 ≤ indent → ValidAll indent ds →
      LaysAll width style stack indent mode ds c (layAll width stack indent mode ds c)
  | [], _, _, _, _, _, _ => by
    rw [layAll]
    exact .nil
  | d :: ds, stack, indent, mode, c, hindent, hvalid => by
    have hreal := real_lay width d (itemsOf indent mode ds ++ stack) indent mode c hindent hvalid.1
    rw [layAll, columnAfter_eq hstyle _ c hreal]
    exact .cons (lays_lay hstyle width d _ indent mode c hindent hvalid.1)
      (laysAll_lay hstyle width ds stack indent mode _ hindent hvalid.2)

end

/-! ### Larger widths -/

mutual

/-- The pieces when every group is broken. -/
def brokenPieces (indent : Int) : Doc → List Piece
  | .nil => []
  | .text s => [.text s]
  | .rawText s => [.raw s]
  | .line => [.newline indent]
  | .softLine => [.newline indent]
  | .hardLine => [.newline indent]
  | .concat docs => brokenAll indent docs
  | .nest n d => brokenPieces (indent + n) d
  | .group d => .group .broken :: brokenPieces indent d
  | .ifBreak d => brokenPieces indent d

def brokenAll (indent : Int) : List Doc → List Piece
  | [] => []
  | d :: ds => brokenPieces indent d ++ brokenAll indent ds

end

mutual

/-- With every group broken, no group's flat layout with the rest of its line fits. -/
def NoGroupFits (width : Nat) (style : IndentStyle) (later : List Item) (indent : Int) :
    Doc → Nat → Prop
  | .concat docs, c => NoneFits width style later indent docs c
  | .nest n d, c => NoGroupFits width style later (indent + n) d c
  | .group d, c => ¬ (lineAt (⟨indent, .flat, d⟩ :: later)).Fits (width - c) ∧
      NoGroupFits width style later indent d c
  | .ifBreak d, c => NoGroupFits width style later indent d c
  | _, _ => True

def NoneFits (width : Nat) (style : IndentStyle) (later : List Item) (indent : Int) :
    List Doc → Nat → Prop
  | [], _ => True
  | d :: ds, c => NoGroupFits width style (itemsOf indent .broken ds ++ later) indent d c ∧
      NoneFits width style later indent ds (columnOf c (charsOf style (brokenPieces indent d)))

end

mutual

theorem lay_broken (hstyle : style.Spaces) {width : Int} (hwidth : width < 0) : ∀ (d : Doc)
    (stack : List Item) (indent : Int) (c : Nat), 0 ≤ indent → Valid indent d →
      lay width stack indent .broken d c = brokenPieces indent d
  | .nil, _, _, _, _, _ => by rw [lay, brokenPieces]
  | .text s, _, _, _, _, _ => by rw [lay, brokenPieces]
  | .rawText s, _, _, _, _, _ => by rw [lay, brokenPieces]
  | .line, _, _, _, _, _ => by rw [lay, brokenPieces]
  | .softLine, _, _, _, _, _ => by rw [lay, brokenPieces]
  | .hardLine, _, _, _, _, _ => by rw [lay, brokenPieces]
  | .concat docs, stack, indent, c, hindent, hvalid => by
    rw [lay, brokenPieces, layAll_broken hstyle hwidth docs stack indent c hindent hvalid]
  | .nest n d, stack, indent, c, _, hvalid => by
    rw [Valid] at hvalid
    rw [lay, brokenPieces, lay_broken hstyle hwidth d stack (indent + n) c hvalid.1 hvalid.2]
  | .group d, stack, indent, c, hindent, hvalid => by
    rw [Valid] at hvalid
    have hmode : groupMode width c indent d stack = .broken := by
      cases hmode : groupMode width c indent d stack with
      | flat =>
        have hcolumns := ((groupMode_eq _ _ _ _ _).1 hmode).2
        omega
      | broken => rfl
    rw [lay, hmode, brokenPieces, lay_broken hstyle hwidth d stack indent c hindent hvalid]
  | .ifBreak d, stack, indent, c, hindent, hvalid => by
    rw [Valid] at hvalid
    rw [lay, brokenPieces, lay_broken hstyle hwidth d stack indent c hindent hvalid]

theorem layAll_broken (hstyle : style.Spaces) {width : Int} (hwidth : width < 0) :
    ∀ (ds : List Doc) (stack : List Item) (indent : Int) (c : Nat), 0 ≤ indent →
      ValidAll indent ds → layAll width stack indent .broken ds c = brokenAll indent ds
  | [], _, _, _, _, _ => by rw [layAll, brokenAll]
  | d :: ds, stack, indent, c, hindent, hvalid => by
    have hreal := real_lay width d (itemsOf indent .broken ds ++ stack) indent .broken c hindent
      hvalid.1
    rw [layAll, columnAfter_eq hstyle _ c hreal, brokenAll,
      lay_broken hstyle hwidth d _ indent c hindent hvalid.1,
      layAll_broken hstyle hwidth ds stack indent _ hindent hvalid.2]

end

mutual

theorem groups_brokenPieces : ∀ (d : Doc) (indent : Int) (mode : Mode),
    .group mode ∈ brokenPieces indent d → mode = .broken
  | .nil, _, _, h => by simp [brokenPieces] at h
  | .text s, _, _, h => by simp [brokenPieces] at h
  | .rawText s, _, _, h => by simp [brokenPieces] at h
  | .line, _, _, h => by simp [brokenPieces] at h
  | .softLine, _, _, h => by simp [brokenPieces] at h
  | .hardLine, _, _, h => by simp [brokenPieces] at h
  | .concat docs, indent, mode, h => groups_brokenAll docs indent mode (by rwa [brokenPieces] at h)
  | .nest n d, indent, mode, h =>
    groups_brokenPieces d (indent + n) mode (by rwa [brokenPieces] at h)
  | .group d, indent, mode, h => by
    rw [brokenPieces, List.mem_cons] at h
    rcases h with h | h
    · exact Piece.group.inj h
    · exact groups_brokenPieces d indent mode h
  | .ifBreak d, indent, mode, h => groups_brokenPieces d indent mode (by rwa [brokenPieces] at h)

theorem groups_brokenAll : ∀ (ds : List Doc) (indent : Int) (mode : Mode),
    .group mode ∈ brokenAll indent ds → mode = .broken
  | [], _, _, h => by simp [brokenAll] at h
  | d :: ds, indent, mode, h => by
    rw [brokenAll, List.mem_append] at h
    rcases h with h | h
    · exact groups_brokenPieces d indent mode h
    · exact groups_brokenAll ds indent mode h

end

mutual

/-- A layout with every group broken is the one, and its groups do not fit. -/
theorem Lays.broken {width : Nat} : ∀ (d : Doc) {later : List Item} {indent : Int} {c : Nat}
    {p : List Piece}, Lays width style later indent .broken d c p →
      (∀ mode, .group mode ∈ p → mode = .broken) →
      p = brokenPieces indent d ∧ NoGroupFits width style later indent d c
  | .nil, _, _, _, _, h, _ => by
    cases h
    exact ⟨rfl, trivial⟩
  | .text s, _, _, _, _, h, _ => by
    cases h
    exact ⟨rfl, trivial⟩
  | .rawText s, _, _, _, _, h, _ => by
    cases h
    exact ⟨rfl, trivial⟩
  | .line, _, _, _, _, h, _ => by
    cases h
    exact ⟨rfl, trivial⟩
  | .softLine, _, _, _, _, h, _ => by
    cases h
    exact ⟨rfl, trivial⟩
  | .hardLine, _, _, _, _, h, _ => by
    cases h
    exact ⟨rfl, trivial⟩
  | .concat docs, _, _, _, _, h, hgroups => by
    cases h with
    | concat hall =>
      rw [brokenPieces, NoGroupFits]
      exact LaysAll.broken docs hall hgroups
  | .nest n d, _, _, _, _, h, hgroups => by
    cases h with
    | nest hd =>
      rw [brokenPieces, NoGroupFits]
      exact Lays.broken d hd hgroups
  | .group d, _, _, _, _, h, hgroups => by
    cases h with
    | groupFlat _ _ => cases hgroups .flat List.mem_cons_self
    | groupBroken hd hfits =>
      obtain ⟨heq, hnone⟩ := Lays.broken d hd fun mode hmode =>
        hgroups mode (List.mem_cons_of_mem _ hmode)
      rw [brokenPieces, NoGroupFits, ← heq]
      exact ⟨rfl, hfits, hnone⟩
  | .ifBreak d, _, _, _, _, h, hgroups => by
    cases h with
    | ifBreakBroken hd =>
      rw [brokenPieces, NoGroupFits]
      exact Lays.broken d hd hgroups

theorem LaysAll.broken {width : Nat} : ∀ (ds : List Doc) {later : List Item} {indent : Int}
    {c : Nat} {p : List Piece}, LaysAll width style later indent .broken ds c p →
      (∀ mode, .group mode ∈ p → mode = .broken) →
      p = brokenAll indent ds ∧ NoneFits width style later indent ds c
  | [], _, _, _, _, h, _ => by
    cases h
    exact ⟨rfl, trivial⟩
  | d :: ds, _, _, _, _, h, hgroups => by
    cases h with
    | cons hd hds =>
      obtain ⟨heq, hnone⟩ := Lays.broken d hd fun mode hmode =>
        hgroups mode (List.mem_append_left _ hmode)
      obtain ⟨heq', hnone'⟩ := LaysAll.broken ds hds fun mode hmode =>
        hgroups mode (List.mem_append_right _ hmode)
      rw [brokenAll, NoneFits, ← heq, ← heq']
      exact ⟨rfl, hnone, hnone'⟩

end

mutual

theorem lays_brokenPieces {width : Nat} : ∀ (d : Doc) {later : List Item} {indent : Int} {c : Nat},
    NoGroupFits width style later indent d c →
      Lays width style later indent .broken d c (brokenPieces indent d)
  | .nil, _, _, _, _ => .nil
  | .text s, _, _, _, _ => .text
  | .rawText s, _, _, _, _ => .rawText
  | .line, _, _, _, _ => .lineBroken
  | .softLine, _, _, _, _ => .softLineBroken
  | .hardLine, _, _, _, _ => .hardLine
  | .concat docs, _, _, _, h => by
    rw [NoGroupFits] at h
    rw [brokenPieces]
    exact .concat (lays_brokenAll docs h)
  | .nest n d, _, _, _, h => by
    rw [NoGroupFits] at h
    rw [brokenPieces]
    exact .nest (lays_brokenPieces d h)
  | .group d, _, _, _, h => by
    rw [NoGroupFits] at h
    rw [brokenPieces]
    exact .groupBroken (lays_brokenPieces d h.2) h.1
  | .ifBreak d, _, _, _, h => by
    rw [NoGroupFits] at h
    rw [brokenPieces]
    exact .ifBreakBroken (lays_brokenPieces d h)

theorem lays_brokenAll {width : Nat} : ∀ (ds : List Doc) {later : List Item} {indent : Int}
    {c : Nat}, NoneFits width style later indent ds c →
      LaysAll width style later indent .broken ds c (brokenAll indent ds)
  | [], _, _, _, _ => .nil
  | d :: ds, _, _, _, h => by
    rw [NoneFits] at h
    rw [brokenAll]
    exact .cons (lays_brokenPieces d h.1) (lays_brokenAll ds h.2)

end

/-! ### The renderer -/

theorem asIsize_of_lt {width : UInt64} (h : width.toNat < 2 ^ 63) :
    asIsize width = (width.toNat : Int) := by
  rw [asIsize, BitVec.toInt_eq_toNat_cond, if_pos (by rw [UInt64.toNat_toBitVec]; omega),
    UInt64.toNat_toBitVec]

theorem asIsize_neg {width : UInt64} (h : ¬ width.toNat < 2 ^ 63) : asIsize width < 0 := by
  have hlt := width.toNat_lt
  rw [asIsize, BitVec.toInt_eq_toNat_cond, if_neg (by rw [UInt64.toNat_toBitVec]; omega),
    UInt64.toNat_toBitVec]
  omega

theorem laidOut_iff_lays (doc : Doc) (width : UInt64) (style : IndentStyle) :
    LaidOut doc width.toNat style (renderProtected doc width style) ↔
      Lays width.toNat style [] 0 .broken doc 0 (lay (asIsize width) [] 0 .broken doc 0) := by
  rw [renderProtected_eq]
  constructor
  · rintro ⟨hlays, -, -⟩
    rwa [trace_foldl, List.nil_append] at hlays
  · intro hlays
    refine ⟨?_, ?_, ?_⟩
    · rwa [trace_foldl, List.nil_append]
    · rw [trace_foldl, out_foldl, List.nil_append, List.nil_append]
    · rw [trace_foldl, ranges_foldl, List.nil_append, List.nil_append]
      rfl

theorem laidOut_of_lt {doc : Doc} {width : UInt64} (hstyle : style.Spaces) (hvalid : Valid 0 doc)
    (h : width.toNat < 2 ^ 63) :
    LaidOut doc width.toNat style (renderProtected doc width style) := by
  rw [laidOut_iff_lays, asIsize_of_lt h]
  exact lays_lay hstyle width.toNat doc [] 0 .broken 0 (Int.le_refl 0) hvalid

theorem laidOut_wide {doc : Doc} {width : UInt64} (hstyle : style.Spaces) (hvalid : Valid 0 doc)
    (h : ¬ width.toNat < 2 ^ 63) :
    LaidOut doc width.toNat style (renderProtected doc width style) ↔
      NoGroupFits width.toNat style [] 0 doc 0 := by
  have hlay : lay (asIsize width) [] 0 .broken doc 0 = brokenPieces 0 doc :=
    lay_broken hstyle (asIsize_neg h) doc [] 0 0 (Int.le_refl 0) hvalid
  rw [laidOut_iff_lays, hlay]
  constructor
  · exact fun hlays => (Lays.broken doc hlays (groups_brokenPieces doc 0)).2
  · exact lays_brokenPieces doc

/-- `a` and `b` with a line between, as a group. -/
def pairDoc : Doc := .group (.concat [.text ['a'], .line, .text ['b']])

theorem pairDoc_valid : Valid 0 pairDoc := by
  simp [pairDoc, Valid, ValidAll]

end Noeta.Fmt
