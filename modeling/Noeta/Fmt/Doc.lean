import Mathlib.Algebra.Group.Int.Defs
import Mathlib.Algebra.GroupWithZero.Nat
import Mathlib.Data.List.Basic

/-!
# The layout renderer

`noeta-fmt/src/doc.rs`: documents, the lookahead `fits` and the loop of `render_protected`. A string
is the list of its characters, measured in bytes by its UTF-8 length; a stack is a list with its top
at the head. `isize` and `usize` have 64 bits; columns and indents are exact, and only the cast of
the width can wrap.
-/

namespace Noeta.Fmt

inductive Doc where
  | nil
  | text (s : List Char)
  | rawText (s : List Char)
  | line
  | softLine
  | hardLine
  | concat (docs : List Doc)
  | nest (n : Int) (d : Doc)
  | group (d : Doc)
  | ifBreak (d : Doc)

/-- `Mode`; `broken` is `Break`. -/
inductive Mode where
  | flat
  | broken
deriving DecidableEq, Repr

/-- An entry of the work stack. -/
structure Item where
  indent : Int
  mode : Mode
  doc : Doc

structure IndentStyle where
  width : Nat
  tabs : Bool

mutual

/-- The number of times a document and its parts are taken off a work stack. -/
def Doc.weight : Doc → Nat
  | .concat docs => weightAll docs + 1
  | .nest _ d => d.weight + 1
  | .group d => d.weight + 1
  | .ifBreak d => d.weight + 1
  | _ => 1

def weightAll : List Doc → Nat
  | [] => 0
  | d :: ds => d.weight + weightAll ds

end

def weightOf : List Item → Nat
  | [] => 0
  | item :: items => item.doc.weight + weightOf items

/-- The parts of a sequence under the indent and the mode of the sequence. -/
def itemsOf (indent : Int) (mode : Mode) (docs : List Doc) : List Item :=
  docs.map fun d => ⟨indent, mode, d⟩

@[simp] theorem itemsOf_nil (indent : Int) (mode : Mode) : itemsOf indent mode [] = [] := rfl

@[simp] theorem itemsOf_cons (indent : Int) (mode : Mode) (d : Doc) (ds : List Doc) :
    itemsOf indent mode (d :: ds) = ⟨indent, mode, d⟩ :: itemsOf indent mode ds := rfl

@[simp] theorem weightOf_append (xs ys : List Item) :
    weightOf (xs ++ ys) = weightOf xs + weightOf ys := by
  induction xs with
  | nil => simp [weightOf]
  | cons x xs ih => simp [weightOf, ih, Nat.add_assoc]

@[simp] theorem weightOf_itemsOf (indent : Int) (mode : Mode) (docs : List Doc) :
    weightOf (itemsOf indent mode docs) = weightAll docs := by
  induction docs with
  | nil => rfl
  | cons d ds ih => simp [weightOf, weightAll, ih]

/-! ### Looking ahead -/

/-- The next item: from the local stack, then from the rest. -/
def popNext : List Item → List Item → Option (Item × List Item × List Item)
  | item :: own, rest => some (item, own, rest)
  | [], item :: rest => some (item, [], rest)
  | [], [] => none

theorem weight_popNext {own rest own' rest' : List Item} {item : Item}
    (h : popNext own rest = some (item, own', rest')) :
    weightOf own + weightOf rest = item.doc.weight + (weightOf own' + weightOf rest') := by
  match own, rest, h with
  | x :: own, rest, h =>
    cases h
    rw [weightOf]
    omega
  | [], x :: rest, h =>
    cases h
    simp [weightOf]

def fits (remaining : Int) (own rest : List Item) : Bool :=
  if remaining < 0 then false
  else
    match _h : popNext own rest with
    | none => true
    | some (⟨_, _, .nil⟩, own, rest) => fits remaining own rest
    | some (⟨_, _, .text s⟩, own, rest) => fits (remaining - s.length) own rest
    | some (⟨_, mode, .rawText s⟩, own, rest) =>
      if '\n' ∈ s then mode == .broken else fits (remaining - s.length) own rest
    | some (⟨indent, mode, .concat docs⟩, own, rest) =>
      fits remaining (itemsOf indent mode docs ++ own) rest
    | some (⟨indent, mode, .nest n d⟩, own, rest) =>
      fits remaining (⟨indent + n, mode, d⟩ :: own) rest
    | some (⟨_, .flat, .line⟩, own, rest) => fits (remaining - 1) own rest
    | some (⟨_, .broken, .line⟩, _, _) => true
    | some (⟨_, .flat, .softLine⟩, own, rest) => fits remaining own rest
    | some (⟨_, .broken, .softLine⟩, _, _) => true
    | some (⟨_, .flat, .hardLine⟩, _, _) => false
    | some (⟨_, .broken, .hardLine⟩, _, _) => true
    | some (⟨indent, _, .group d⟩, own, rest) => fits remaining (⟨indent, .flat, d⟩ :: own) rest
    | some (⟨indent, .broken, .ifBreak d⟩, own, rest) =>
      fits remaining (⟨indent, .broken, d⟩ :: own) rest
    | some (⟨_, .flat, .ifBreak _⟩, own, rest) => fits remaining own rest
  termination_by weightOf own + weightOf rest
  decreasing_by
    all_goals
      rw [weight_popNext _h]
      simp only [weightOf, Doc.weight, weightOf_append, weightOf_itemsOf]
      omega

/-! ### Rendering -/

def utf8Len (s : List Char) : Nat := (s.map Char.utf8Size).sum

/-- `width as isize`. -/
def asIsize (width : UInt64) : Int := width.toBitVec.toInt

/-- What `new_line` writes after the newline. -/
def indentation (style : IndentStyle) (indent : Int) : List Char :=
  if style.tabs ∧ 0 < style.width then
    List.replicate ((indent % 2 ^ 64).toNat / style.width) '\t'
  else List.replicate indent.toNat ' '

/-- What the loop emits for an item, and the mode it decides on at a group. -/
inductive Piece where
  | text (s : List Char)
  | raw (s : List Char)
  | space
  | newline (indent : Int)
  | group (mode : Mode)
deriving DecidableEq, Repr

/-- The state of the loop. The trace is not part of the program: it records what is emitted and
decided. -/
structure Rendered where
  out : List Char
  ranges : List (Nat × Nat)
  col : Int
  trace : List Piece

/-- The text after the last newline. -/
def lastLine (s : List Char) : List Char := (s.reverse.takeWhile (· ≠ '\n')).reverse

namespace Rendered

def pushText (r : Rendered) (s : List Char) : Rendered :=
  { r with out := r.out ++ s, col := r.col + s.length, trace := r.trace ++ [.text s] }

/-- The arm of `RawText`. -/
def pushRaw (r : Rendered) (s : List Char) : Rendered :=
  { out := r.out ++ s
    ranges := r.ranges ++ [(utf8Len r.out, utf8Len (r.out ++ s))]
    col := if '\n' ∈ s then (lastLine s).length else r.col + s.length
    trace := r.trace ++ [.raw s] }

def pushSpace (r : Rendered) : Rendered :=
  { r with out := r.out ++ [' '], col := r.col + 1, trace := r.trace ++ [.space] }

def newLine (r : Rendered) (style : IndentStyle) (indent : Int) : Rendered :=
  { r with
    out := r.out ++ '\n' :: indentation style indent
    col := indent
    trace := r.trace ++ [.newline indent] }

def decided (r : Rendered) (mode : Mode) : Rendered := { r with trace := r.trace ++ [.group mode] }

end Rendered

/-- The mode the loop takes for the contents of a group. -/
def groupMode (width col indent : Int) (d : Doc) (stack : List Item) : Mode :=
  if fits (width - col) [⟨indent, .flat, d⟩] stack then .flat else .broken

/-- The loop of `render_protected`. -/
def renderLoop (width : Int) (style : IndentStyle) : List Item → Rendered → Rendered
  | [], r => r
  | ⟨_, _, .nil⟩ :: stack, r => renderLoop width style stack r
  | ⟨_, _, .text s⟩ :: stack, r => renderLoop width style stack (r.pushText s)
  | ⟨_, _, .rawText s⟩ :: stack, r => renderLoop width style stack (r.pushRaw s)
  | ⟨indent, mode, .concat docs⟩ :: stack, r =>
    renderLoop width style (itemsOf indent mode docs ++ stack) r
  | ⟨indent, mode, .nest n d⟩ :: stack, r =>
    renderLoop width style (⟨indent + n, mode, d⟩ :: stack) r
  | ⟨_, .flat, .line⟩ :: stack, r => renderLoop width style stack r.pushSpace
  | ⟨indent, .broken, .line⟩ :: stack, r => renderLoop width style stack (r.newLine style indent)
  | ⟨_, .flat, .softLine⟩ :: stack, r => renderLoop width style stack r
  | ⟨indent, .broken, .softLine⟩ :: stack, r =>
    renderLoop width style stack (r.newLine style indent)
  | ⟨indent, _, .hardLine⟩ :: stack, r => renderLoop width style stack (r.newLine style indent)
  | ⟨indent, _, .group d⟩ :: stack, r =>
    let mode := groupMode width r.col indent d stack
    renderLoop width style (⟨indent, mode, d⟩ :: stack) (r.decided mode)
  | ⟨indent, .broken, .ifBreak d⟩ :: stack, r =>
    renderLoop width style (⟨indent, .broken, d⟩ :: stack) r
  | ⟨_, .flat, .ifBreak _⟩ :: stack, r => renderLoop width style stack r
  termination_by stack => weightOf stack
  decreasing_by
    all_goals simp [weightOf, Doc.weight]

def renderProtected (doc : Doc) (width : UInt64) (style : IndentStyle) : Rendered :=
  renderLoop (asIsize width) style [⟨0, .broken, doc⟩] ⟨[], [], 0, []⟩

end Noeta.Fmt
