import Noeta.Fmt.Doc

/-!
# The line a group stands on

What `fits` looks at is a line: the columns up to the first line end, and whether that end is a
break in broken mode or one that cannot lie flat. Lines compose, so the lookahead over the stacks is
one measure of their items in order, and a group inside a flat group is measured by a suffix of the
outer line.
-/

namespace Noeta.Fmt

/-- How a stretch of a document ends its line: not at all, at a break in broken mode, or at one that
cannot lie flat. -/
inductive LineEnd where
  | runsOn
  | ended
  | forced
deriving DecidableEq, Repr

structure Line where
  columns : Nat
  stop : LineEnd
deriving DecidableEq, Repr

namespace Line

def andThen (a b : Line) : Line :=
  match a.stop with
  | .runsOn => ⟨a.columns + b.columns, b.stop⟩
  | _ => a

/-- The line has no forced break and is not wider than the columns that remain. -/
def Fits (remaining : Int) (line : Line) : Prop :=
  line.stop ≠ .forced ∧ (line.columns : Int) ≤ remaining

theorem andThen_assoc (a b c : Line) : (a.andThen b).andThen c = a.andThen (b.andThen c) := by
  obtain ⟨n, stop⟩ := a
  cases stop with
  | runsOn =>
    obtain ⟨m, stop⟩ := b
    cases stop <;> simp [andThen, Nat.add_assoc]
  | ended => rfl
  | forced => rfl

@[simp] theorem runsOn_andThen (n : Nat) (b : Line) :
    (⟨n, .runsOn⟩ : Line).andThen b = ⟨n + b.columns, b.stop⟩ := rfl

@[simp] theorem ended_andThen (n : Nat) (b : Line) :
    (⟨n, .ended⟩ : Line).andThen b = ⟨n, .ended⟩ := rfl

@[simp] theorem forced_andThen (n : Nat) (b : Line) :
    (⟨n, .forced⟩ : Line).andThen b = ⟨n, .forced⟩ := rfl

theorem fits_add (remaining : Int) (n : Nat) (b : Line) :
    Fits remaining ⟨n + b.columns, b.stop⟩ ↔ b.Fits (remaining - n) := by
  unfold Fits
  refine and_congr_right fun _ => ?_
  push_cast
  omega

end Line

mutual

/-- The line a document in a mode begins; groups are taken flat. -/
def lineOf : Mode → Doc → Line
  | _, .nil => ⟨0, .runsOn⟩
  | _, .text s => ⟨s.length, .runsOn⟩
  | mode, .rawText s =>
    if '\n' ∈ s then ⟨0, if mode = .broken then .ended else .forced⟩ else ⟨s.length, .runsOn⟩
  | .flat, .line => ⟨1, .runsOn⟩
  | .broken, .line => ⟨0, .ended⟩
  | .flat, .softLine => ⟨0, .runsOn⟩
  | .broken, .softLine => ⟨0, .ended⟩
  | .flat, .hardLine => ⟨0, .forced⟩
  | .broken, .hardLine => ⟨0, .ended⟩
  | mode, .concat docs => linesOf mode docs
  | mode, .nest _ d => lineOf mode d
  | _, .group d => lineOf .flat d
  | .broken, .ifBreak d => lineOf .broken d
  | .flat, .ifBreak _ => ⟨0, .runsOn⟩

def linesOf : Mode → List Doc → Line
  | _, [] => ⟨0, .runsOn⟩
  | mode, d :: ds => (lineOf mode d).andThen (linesOf mode ds)

end

/-- The line the items of a stack begin, in order. -/
def lineAt : List Item → Line
  | [] => ⟨0, .runsOn⟩
  | item :: items => (lineOf item.mode item.doc).andThen (lineAt items)

theorem lineAt_itemsOf (indent : Int) (mode : Mode) (docs : List Doc) (items : List Item) :
    lineAt (itemsOf indent mode docs ++ items) = (linesOf mode docs).andThen (lineAt items) := by
  induction docs with
  | nil => simp [linesOf]
  | cons d ds ih =>
    rw [itemsOf_cons, List.cons_append, lineAt, ih, linesOf, Line.andThen_assoc]

theorem eq_of_popNext {own rest own' rest' : List Item} {item : Item}
    (h : popNext own rest = some (item, own', rest')) : own ++ rest = item :: (own' ++ rest') := by
  match own, rest, h with
  | x :: own, rest, h =>
    cases h
    rfl
  | [], x :: rest, h =>
    cases h
    rfl

theorem nil_of_popNext {own rest : List Item} (h : popNext own rest = none) : own ++ rest = [] := by
  match own, rest, h with
  | [], [], _ => rfl

/-- The lookahead holds the line of its items against the columns that remain. -/
theorem fits_iff (remaining : Int) (own rest : List Item) :
    fits remaining own rest = true ↔ (lineAt (own ++ rest)).Fits remaining := by
  fun_induction fits remaining own rest with
  | case1 remaining own rest hneg =>
    have hcolumns : ¬ ((lineAt (own ++ rest)).columns : Int) ≤ remaining := by omega
    simp [Line.Fits, hcolumns]
  | case2 remaining own rest hneg hpop =>
    have hpos : 0 ≤ remaining := by omega
    simp [nil_of_popNext hpop, lineAt, Line.Fits, hpos]
  | case3 remaining own rest hneg indent mode own' rest' hpop ih =>
    rw [ih, eq_of_popNext hpop, lineAt]
    simp [lineOf, Line.Fits]
  | case4 remaining own rest hneg indent mode s own' rest' hpop ih =>
    rw [ih, eq_of_popNext hpop, lineAt, lineOf, Line.runsOn_andThen, Line.fits_add]
  | case5 remaining own rest hneg indent mode s own' rest' hpop hnl =>
    have hpos : 0 ≤ remaining := by omega
    rw [eq_of_popNext hpop, lineAt, lineOf, if_pos hnl]
    cases mode <;> simp [Line.Fits, hpos]
  | case6 remaining own rest hneg indent mode s own' rest' hpop hnl ih =>
    rw [ih, eq_of_popNext hpop, lineAt, lineOf, if_neg hnl, Line.runsOn_andThen, Line.fits_add]
  | case7 remaining own rest hneg indent mode docs own' rest' hpop ih =>
    rw [ih, eq_of_popNext hpop, List.append_assoc, lineAt_itemsOf, lineAt, lineOf]
  | case8 remaining own rest hneg indent mode n d own' rest' hpop ih =>
    rw [ih, eq_of_popNext hpop, List.cons_append, lineAt, lineAt, lineOf]
  | case9 remaining own rest hneg indent own' rest' hpop ih =>
    rw [ih, eq_of_popNext hpop, lineAt, lineOf, Line.runsOn_andThen, Line.fits_add]
    rfl
  | case10 remaining own rest hneg indent own' rest' hpop =>
    have hpos : 0 ≤ remaining := by omega
    rw [eq_of_popNext hpop, lineAt]
    simp [lineOf, Line.Fits, hpos]
  | case11 remaining own rest hneg indent own' rest' hpop ih =>
    rw [ih, eq_of_popNext hpop, lineAt]
    simp [lineOf, Line.Fits]
  | case12 remaining own rest hneg indent own' rest' hpop =>
    have hpos : 0 ≤ remaining := by omega
    rw [eq_of_popNext hpop, lineAt]
    simp [lineOf, Line.Fits, hpos]
  | case13 remaining own rest hneg indent own' rest' hpop =>
    rw [eq_of_popNext hpop, lineAt]
    simp [lineOf, Line.Fits]
  | case14 remaining own rest hneg indent own' rest' hpop =>
    have hpos : 0 ≤ remaining := by omega
    rw [eq_of_popNext hpop, lineAt]
    simp [lineOf, Line.Fits, hpos]
  | case15 remaining own rest hneg indent mode d own' rest' hpop ih =>
    rw [ih, eq_of_popNext hpop, List.cons_append, lineAt, lineAt, lineOf]
  | case16 remaining own rest hneg indent d own' rest' hpop ih =>
    rw [ih, eq_of_popNext hpop, List.cons_append, lineAt, lineAt, lineOf]
  | case17 remaining own rest hneg indent d own' rest' hpop ih =>
    rw [ih, eq_of_popNext hpop, lineAt]
    simp [lineOf, Line.Fits]

end Noeta.Fmt
