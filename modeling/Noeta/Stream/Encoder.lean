import Noeta.Lib.Terminated
import Noeta.Stream.Decoder

/-!
# Writing server-sent events

`Frame::to_sse_wire` and `sse_comment_wire` of `noeta-ext-abi/src/stream.rs`, and the lines the
decoder's splitter cuts out of what they write. Both split a text at `\n` only, while the splitter
ends a line at `\n`, `\r` and `\r\n`: a `\r` inside a piece cuts the piece into a first line, with
the prefix the encoder gave it, and stray lines that stand on their own.
-/

namespace Noeta.Stream

open Lib FrameDecoder

/-! ### The encoder -/

/-- A `Frame` on its way out, whose `retry` may be any `i64`. -/
structure Sent where
  event : List Char := []
  data : List Char := []
  id : List Char := []
  retry : Option (BitVec 64) := none
deriving DecidableEq, Repr

/-- `i64::to_string`. -/
def decimal (n : BitVec 64) : List Char :=
  if n.toInt < 0 then '-' :: Nat.toDigits 10 n.toInt.natAbs else Nat.toDigits 10 n.toInt.natAbs

def splitDataLines (data : List Char) : List (List Char) := data.splitOn '\n'

def Sent.toSseWire (f : Sent) : List Char :=
  (if f.event.isEmpty then [] else "event: ".toList ++ f.event ++ ['\n']) ++
  (if f.id.isEmpty then [] else "id: ".toList ++ f.id ++ ['\n']) ++
  (match f.retry with
    | none => []
    | some retry => "retry: ".toList ++ decimal retry ++ ['\n']) ++
  -- an empty payload still gets its line: the split of `""` is one empty piece
  (splitDataLines f.data).flatMap (fun line => "data: ".toList ++ line ++ ['\n']) ++
  ['\n']

/-- What a piece of a comment is written as, less its terminator. -/
def commentLine (line : List Char) : List Char :=
  ':' :: (if line.isEmpty then [] else ' ' :: line)

def sseCommentWire (text : List Char) : List Char :=
  (text.splitOn '\n').flatMap fun line => commentLine line ++ ['\n']

/-- What a server writes: a frame, or a comment with this text. -/
inductive Item where
  | frame (f : Sent)
  | comment (text : List Char)

def Item.wire : Item → List Char
  | .frame f => f.toSseWire
  | .comment text => sseCommentWire text

/-! ### The splitter on a line -/

variable {line : List Char} {c : Char}

theorem findTerminator_line (h : ∀ c ∈ line, c ≠ '\n' ∧ c ≠ '\r') {term : Char}
    (hterm : term = '\n' ∨ term = '\r') (rest : List Char) :
    findTerminator (line ++ term :: rest) = some (line, term, rest) := by
  induction line with
  | nil => rw [List.nil_append, findTerminator, if_pos hterm]
  | cons c line ih =>
    have hc : ¬(c = '\n' ∨ c = '\r') := by
      have := h c List.mem_cons_self
      tauto
    rw [List.cons_append, findTerminator, if_neg hc, ih fun x hx => h x (List.mem_cons_of_mem _ hx)]
    rfl

theorem findTerminator_clean {buffer line rest : List Char}
    (h : findTerminator buffer = some (line, c, rest)) : ∀ x ∈ line, x ≠ '\n' ∧ x ≠ '\r' := by
  induction buffer generalizing line with
  | nil => simp [findTerminator] at h
  | cons d buffer ih =>
    unfold findTerminator at h
    split at h
    · simp only [Option.some.injEq, Prod.mk.injEq] at h
      obtain ⟨rfl, -, -⟩ := h
      simp
    · rename_i hd
      rw [Option.map_eq_some_iff] at h
      obtain ⟨⟨l, c', r⟩, hp, heq⟩ := h
      simp only [Prod.mk.injEq] at heq
      obtain ⟨rfl, rfl, rfl⟩ := heq
      intro x hx
      rcases List.mem_cons.1 hx with rfl | hx
      · tauto
      · exact ih hp x hx

theorem takeLine_lf (h : ∀ c ∈ line, c ≠ '\n' ∧ c ≠ '\r') (rest : List Char) :
    takeLine false (line ++ '\n' :: rest) = some (line, rest) := by
  rw [takeLine, findTerminator_line h (.inl rfl)]
  rfl

theorem takeLine_crlf (h : ∀ c ∈ line, c ≠ '\n' ∧ c ≠ '\r')
    (rest : List Char) : takeLine false (line ++ '\r' :: '\n' :: rest) = some (line, rest) := by
  rw [takeLine, findTerminator_line h (.inr rfl)]
  rfl

theorem takeLine_cr (h : ∀ c ∈ line, c ≠ '\n' ∧ c ≠ '\r') (hc : c ≠ '\n') (rest : List Char) :
    takeLine false (line ++ '\r' :: c :: rest) = some (line, c :: rest) := by
  rw [takeLine, findTerminator_line h (.inr rfl)]
  simp [hc]

theorem takeLine_clean {buffer line rest : List Char}
    (h : takeLine false buffer = some (line, rest)) : ∀ x ∈ line, x ≠ '\n' ∧ x ≠ '\r' := by
  unfold takeLine at h
  cases hfind : findTerminator buffer with
  | none => simp [hfind] at h
  | some p =>
    obtain ⟨l, term, r⟩ := p
    have hclean := findTerminator_clean hfind
    simp only [hfind] at h
    have hline : l = line := by
      split at h
      · cases r with
        | nil => simp at h
        | cons c r' =>
          simp only at h
          split at h <;> exact congrArg Prod.fst (Option.some.inj h)
      · exact congrArg Prod.fst (Option.some.inj h)
    exact hline ▸ hclean

theorem run_clean (buffer : List Char) :
    ∀ line ∈ (lineCutter.run buffer).1, ∀ c ∈ line, c ≠ '\n' ∧ c ≠ '\r' := by
  induction buffer using lineCutter.run_induction with
  | wait buffer h => simp [lineCutter.run_none h]
  | cut buffer line rest h ih =>
    rw [lineCutter.run_some h]
    intro l hl
    rcases List.mem_cons.1 hl with rfl | hl
    · exact takeLine_clean h
    · exact ih l hl

/-! ### Lines cut at `\r` -/

/-- The lines after the first one of a text cut at `\r`: a last empty one is not there, the `\r`
before it and the encoder's `\n` being one terminator. -/
def dropBlankEnd (cut : List (List Char)) : List (List Char) :=
  if cut.getLast? = some [] then cut.dropLast else cut

/-- The lines of a `\n`-terminated piece. -/
def crLines (piece : List Char) : List (List Char) :=
  match piece.splitOn '\r' with
  | [] => []
  | first :: cut => first :: dropBlankEnd cut

/-- The lines of a comment's piece that lack the comment's prefix. -/
def strays (piece : List Char) : List (List Char) := dropBlankEnd (piece.splitOn '\r').tail

theorem splitOn_cons_ne {c x : Char} (h : x ≠ c) {text first : List Char} {cut : List (List Char)}
    (hs : text.splitOn c = first :: cut) : (x :: text).splitOn c = (x :: first) :: cut := by
  rw [List.splitOn_cons_eq_if_modifyHead, if_neg (by simpa using h), hs, List.modifyHead_cons]

theorem mem_of_mem_splitOn {c x : Char} {text piece : List Char} (hp : piece ∈ text.splitOn c)
    (hx : x ∈ piece) : x ∈ text ∧ x ≠ c := by
  have hne : x ≠ c := by
    rintro rfl
    exact not_mem_of_mem_splitOn hp hx
  have hmem : x ∈ terminated c (text.splitOn c) :=
    List.mem_flatMap.2 ⟨piece, hp, List.mem_append_left _ hx⟩
  rw [terminated_splitOn, List.mem_append, List.mem_singleton] at hmem
  exact ⟨hmem.resolve_right hne, hne⟩

theorem dropBlankEnd_cons {cut : List (List Char)} (h : line ≠ [] ∨ cut ≠ []) :
    dropBlankEnd (line :: cut) = line :: dropBlankEnd cut := by
  unfold dropBlankEnd
  cases cut with
  | nil =>
    have hline : line ≠ [] := h.resolve_right (· rfl)
    simp [hline]
  | cons next cut =>
    rw [List.getLast?_cons_cons, List.dropLast_cons_cons]
    split <;> rfl

theorem crLines_cr {first : List Char} (h : '\r' ∉ first) (rest : List Char) :
    crLines (first ++ '\r' :: rest) = first :: if rest = [] then [] else crLines rest := by
  unfold crLines
  rw [List.splitOn_append_cons_self_of_not_mem h]
  cases rest with
  | nil => rfl
  | cons c rest =>
    rw [if_neg (List.cons_ne_nil c rest)]
    cases hs : (c :: rest).splitOn '\r' with
    | nil => exact absurd hs (List.splitOn_ne_nil _ _)
    | cons line cut =>
      refine congrArg (first :: ·) (dropBlankEnd_cons ?_)
      by_contra hblank
      push Not at hblank
      obtain ⟨rfl, rfl⟩ := hblank
      have htext : ['\r'].intercalate ((c :: rest).splitOn '\r') = c :: rest :=
        List.intercalate_splitOn '\r'
      rw [hs] at htext
      simp at htext

theorem crLines_clean (h : '\r' ∉ line) : crLines line = [line] := by
  unfold crLines
  rw [List.splitOn_eq_singleton h]
  rfl

/-- What the splitter cuts a `\n`-terminated piece into. -/
theorem run_piece (piece : List Char) (h : '\n' ∉ piece) (rest : List Char) :
    lineCutter.run (piece ++ '\n' :: rest) =
      (crLines piece ++ (lineCutter.run rest).1, (lineCutter.run rest).2) := by
  induction hlen : piece.length using Nat.strongRecOn generalizing piece with
  | _ n ih =>
    by_cases hcr : '\r' ∈ piece
    · obtain ⟨first, more, rfl, hfirst⟩ := List.eq_append_cons_of_mem hcr
      have hclean : ∀ c ∈ first, c ≠ '\n' ∧ c ≠ '\r' := by
        intro c hc
        refine ⟨?_, ?_⟩
        · rintro rfl
          exact h (List.mem_append_left _ hc)
        · rintro rfl
          exact hfirst hc
      rw [crLines_cr hfirst, List.append_assoc, List.cons_append]
      cases more with
      | nil =>
        rw [List.nil_append, lineCutter.run_some (takeLine_crlf hclean rest)]
        rfl
      | cons c more =>
        have hc : c ≠ '\n' := by
          rintro rfl
          exact h (by simp)
        have hmore : '\n' ∉ c :: more := fun hmem =>
          h (List.mem_append_right _ (List.mem_cons_of_mem _ hmem))
        have hshort : (c :: more).length < n := by
          rw [← hlen, List.length_append]
          simp only [List.length_cons]
          omega
        rw [List.cons_append, lineCutter.run_some (takeLine_cr hclean hc _), ← List.cons_append,
          ih _ hshort _ hmore rfl, if_neg (List.cons_ne_nil c more)]
        rfl
    · have hclean : ∀ c ∈ piece, c ≠ '\n' ∧ c ≠ '\r' := by
        intro c hc
        refine ⟨?_, ?_⟩
        · rintro rfl
          exact h hc
        · rintro rfl
          exact hcr hc
      rw [lineCutter.run_some (takeLine_lf hclean rest), crLines_clean hcr]
      rfl

theorem run_terminated {lines : List (List Char)} (h : ∀ line ∈ lines, '\n' ∉ line)
    (rest : List Char) :
    lineCutter.run (terminated '\n' lines ++ rest) =
      (lines.flatMap crLines ++ (lineCutter.run rest).1, (lineCutter.run rest).2) := by
  induction lines with
  | nil => rfl
  | cons line lines ih =>
    rw [terminated, List.flatMap_cons, ← terminated, List.append_assoc, List.append_assoc,
      List.singleton_append, run_piece line (h line List.mem_cons_self),
      ih fun l hl => h l (List.mem_cons_of_mem _ hl), List.flatMap_cons, List.append_assoc]

theorem crLines_commentLine (piece : List Char) :
    ∃ first, crLines (commentLine piece) = (':' :: first) :: strays piece := by
  unfold crLines commentLine strays
  cases piece with
  | nil => exact ⟨[], rfl⟩
  | cons c piece =>
    cases hs : (c :: piece).splitOn '\r' with
    | nil => exact absurd hs (List.splitOn_ne_nil _ _)
    | cons first cut =>
      refine ⟨' ' :: first, ?_⟩
      have hsplit := splitOn_cons_ne (by decide : ':' ≠ '\r')
        (splitOn_cons_ne (by decide : ' ' ≠ '\r') hs)
      simp only [List.isEmpty_cons, Bool.false_eq_true, if_false, hsplit, List.tail_cons]

/-! ### The lines of what is written -/

/-- No terminator where the encoder does not split, no NUL in the id, no sign in the hint. -/
structure Sent.Writable (f : Sent) : Prop where
  event : ∀ c ∈ f.event, c ≠ '\n' ∧ c ≠ '\r'
  data : ∀ c ∈ f.data, c ≠ '\r'
  id : ∀ c ∈ f.id, c ≠ '\n' ∧ c ≠ '\r' ∧ c ≠ '\x00'
  retry : ∀ n ∈ f.retry, 0 ≤ n.toInt

def Sent.lines (f : Sent) : List (List Char) :=
  (if f.event.isEmpty then [] else ["event: ".toList ++ f.event]) ++
  (if f.id.isEmpty then [] else ["id: ".toList ++ f.id]) ++
  f.retry.elim [] (fun retry => ["retry: ".toList ++ decimal retry]) ++
  (splitDataLines f.data).map ("data: ".toList ++ ·) ++ [[]]

def Item.lines : Item → List (List Char)
  | .frame f => f.lines
  | .comment text => (text.splitOn '\n').flatMap fun line => crLines (commentLine line)

theorem Sent.toSseWire_eq (f : Sent) : f.toSseWire = terminated '\n' f.lines := by
  have hdata : (splitDataLines f.data).flatMap (fun line => "data: ".toList ++ line ++ ['\n']) =
      terminated '\n' ((splitDataLines f.data).map ("data: ".toList ++ ·)) := by
    rw [terminated, List.flatMap_map]
  unfold toSseWire lines
  simp only [terminated_append, hdata]
  congr 2
  · congr 1
    · congr 1 <;> split <;> simp [terminated]
    · cases f.retry <;> simp [terminated]

theorem isDigit_ne (h : c.isDigit = true) : c ≠ '\n' ∧ c ≠ '\r' := by
  constructor <;> rintro rfl <;> exact absurd h (by decide)

theorem decimal_nonneg {n : BitVec 64} (h : 0 ≤ n.toInt) :
    decimal n = Nat.toDigits 10 n.toInt.natAbs := by
  rw [decimal, if_neg (by omega)]

theorem Sent.Writable.lines_clean {f : Sent} (h : f.Writable) :
    ∀ line ∈ f.lines, ∀ c ∈ line, c ≠ '\n' ∧ c ≠ '\r' := by
  have hname : ∀ name ∈ ["event: ".toList, "id: ".toList, "retry: ".toList, "data: ".toList],
      ∀ c ∈ name, c ≠ '\n' ∧ c ≠ '\r' := by simp
  intro line hline c hc
  simp only [lines, List.mem_append] at hline
  obtain (((hline | hline) | hline) | hline) | hline := hline
  · split at hline
    · simp at hline
    · rw [List.mem_singleton] at hline
      subst hline
      obtain hc | hc := List.mem_append.1 hc
      · exact hname _ (by simp) c hc
      · exact h.event c hc
  · split at hline
    · simp at hline
    · rw [List.mem_singleton] at hline
      subst hline
      obtain hc | hc := List.mem_append.1 hc
      · exact hname _ (by simp) c hc
      · exact ⟨(h.id c hc).1, (h.id c hc).2.1⟩
  · cases hretry : f.retry with
    | none => simp [hretry] at hline
    | some retry =>
      rw [hretry, Option.elim_some, List.mem_singleton] at hline
      subst hline
      obtain hc | hc := List.mem_append.1 hc
      · exact hname _ (by simp) c hc
      · rw [decimal_nonneg (h.retry retry hretry)] at hc
        exact isDigit_ne (Nat.isDigit_of_mem_toDigits (by omega) (by omega) hc)
  · obtain ⟨piece, hpiece, rfl⟩ := List.mem_map.1 hline
    obtain hc | hc := List.mem_append.1 hc
    · exact hname _ (by simp) c hc
    · obtain ⟨hmem, hlf⟩ := mem_of_mem_splitOn hpiece hc
      exact ⟨hlf, h.data c hmem⟩
  · rw [List.mem_singleton] at hline
    subst hline
    simp at hc

/-- An item's frames can be written; a comment has none. -/
def Item.Writable : Item → Prop
  | .frame f => f.Writable
  | .comment _ => True

theorem Item.run_wire {item : Item} (h : item.Writable) (rest : List Char) :
    lineCutter.run (item.wire ++ rest) =
      (item.lines ++ (lineCutter.run rest).1, (lineCutter.run rest).2) := by
  cases item with
  | frame f =>
    have hclean := Sent.Writable.lines_clean h
    have hlf : ∀ line ∈ f.lines, '\n' ∉ line := fun line hline hmem =>
      (hclean line hline _ hmem).1 rfl
    have hcr : f.lines.flatMap crLines = f.lines := by
      rw [List.flatMap_congr fun line hline =>
        crLines_clean fun hmem => (hclean line hline _ hmem).2 rfl]
      exact List.flatMap_singleton' f.lines
    rw [wire, Sent.toSseWire_eq, run_terminated hlf, hcr]
    rfl
  | comment text =>
    have hlf : ∀ line ∈ (text.splitOn '\n').map commentLine, '\n' ∉ line := by
      intro line hline hmem
      obtain ⟨piece, hpiece, rfl⟩ := List.mem_map.1 hline
      unfold commentLine at hmem
      have hpiece := not_mem_of_mem_splitOn hpiece
      split at hmem <;> simp_all
    have hwire : (Item.comment text).wire =
        terminated '\n' ((text.splitOn '\n').map commentLine) := by
      rw [wire, sseCommentWire, terminated, List.flatMap_map]
    rw [hwire, run_terminated hlf, List.flatMap_map]
    rfl

theorem run_wire {items : List Item} (h : ∀ item ∈ items, item.Writable) :
    lineCutter.run (items.flatMap Item.wire) = (items.flatMap Item.lines, []) := by
  induction items with
  | nil => exact lineCutter.run_none rfl
  | cons item items ih =>
    rw [List.flatMap_cons, Item.run_wire (h item List.mem_cons_self),
      ih fun i hi => h i (List.mem_cons_of_mem _ hi)]
    rfl

end Noeta.Stream
