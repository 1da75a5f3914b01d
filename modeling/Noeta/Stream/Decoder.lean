import Noeta.Lib.Utf8
import Mathlib.Algebra.Group.Nat.Defs
import Mathlib.Data.List.Induction

/-!
# Decoding a streamed body

`Utf8Chunker` and `FrameDecoder` of `noeta-ext-abi/src/stream.rs`: bytes arrive in chunks, the
chunker holds an incomplete UTF-8 sequence back, and the decoder cuts the text into lines and the
lines into frames. Text is a list of characters.

Both machines keep an unconsumed rest in front of the next piece, and both are cutters: what they
take off the front does not depend on what follows. The only waiting of the line splitter that needs
care is a trailing `\r`, which may be half of a `\r\n`.
-/

namespace Noeta.Stream

open Lib Lib.Utf8

/-! ### The chunker -/

/-- `Utf8Chunker`: the incomplete sequence held back. -/
structure Utf8Chunker where
  pending : List UInt8 := []
deriving DecidableEq, Repr

/-- The loop of `push` over what is left of the bytes: the text so far and the held-back tail. -/
def pushLoop (rest : List UInt8) (out : List Char) : List Char × List UInt8 :=
  match _h : fromUtf8 rest with
  | none => (out ++ fromUtf8Lossy rest, [])
  | some error =>
    let good := error.validUpTo
    let out := out ++ fromUtf8Lossy (rest.take good)
    match _hlen : error.errorLen with
    -- a genuinely invalid sequence: consume it and keep scanning
    | some bad => pushLoop (rest.drop (good + bad)) (out ++ [replacement])
    -- an incomplete tail: hold exactly that back
    | none => (out, rest.drop good)
termination_by rest.length
decreasing_by
  obtain ⟨hle, hhead⟩ := head_of_fromUtf8 rest error _h
  rw [_hlen] at hhead
  have hbad := head_invalid hhead
  rw [List.length_drop] at hbad ⊢
  omega

def Utf8Chunker.push (u : Utf8Chunker) (bytes : List UInt8) : List Char × Utf8Chunker :=
  let r := pushLoop (u.pending ++ bytes) []
  (r.1, { pending := r.2 })

def Utf8Chunker.finish (u : Utf8Chunker) : List Char :=
  if u.pending.isEmpty then [] else fromUtf8Lossy u.pending

/-! ### Frames -/

inductive Framing where
  | sse
  | ndjson
  | lines
deriving DecidableEq, Repr

structure Frame where
  event : List Char := []
  data : List Char := []
  id : List Char := []
  retry : Option Nat := none
deriving DecidableEq, Repr

structure FrameDecoder where
  framing : Framing
  buffer : List Char := []
  ready : List Frame := []
  data : List Char := []
  sawData : Bool := false
  event : List Char := []
  lastId : List Char := []
  retry : Option Nat := none
  bomChecked : Bool := false
  finished : Bool := false
deriving DecidableEq, Repr

namespace FrameDecoder

def resetEvent (d : FrameDecoder) : FrameDecoder :=
  { d with data := [], sawData := false, event := [], retry := none }

def dispatch (d : FrameDecoder) : FrameDecoder :=
  if !d.sawData then d.resetEvent
  else resetEvent
    { d with
      ready := d.ready ++ [{ event := d.event, data := d.data, id := d.lastId, retry := d.retry }]
      event := []
      data := [] }

/-- `str::split_once(':')`. -/
def splitColon : List Char → Option (List Char × List Char)
  | [] => none
  | c :: rest =>
    if c = ':' then some ([], rest) else (splitColon rest).map fun p => (c :: p.1, p.2)

/-- `value.strip_prefix(' ').unwrap_or(value)`. -/
def stripSpace : List Char → List Char
  | ' ' :: rest => rest
  | raw => raw

/-- `value.parse::<i64>().ok()` for a text of ASCII digits. -/
def parseMillis (value : List Char) : Option Nat :=
  let n := value.foldl (fun acc c => acc * 10 + (c.toNat - '0'.toNat)) 0
  if n < 2 ^ 63 then some n else none

def sseLine (d : FrameDecoder) (line : List Char) : FrameDecoder :=
  if line.isEmpty then d.dispatch
  else if line.head? = some ':' then d
  else
    let (field, raw) := (splitColon line).getD (line, [])
    let value := stripSpace raw
    if field = "event".toList then { d with event := value }
    else if field = "data".toList then
      { d with
        data := (if d.sawData then d.data ++ ['\n'] else d.data) ++ value
        sawData := true }
    else if field = "id".toList then
      if value.contains '\x00' then d else { d with lastId := value }
    else if field = "retry".toList ∧ !value.isEmpty ∧ value.all Char.isDigit then
      { d with retry := parseMillis value }
    else d

/-- One line, by framing: the body of the loop of `drain_lines`. -/
def takeFrameLine (d : FrameDecoder) (line : List Char) : FrameDecoder :=
  match d.framing with
  | .sse => d.sseLine line
  | .ndjson => if line.isEmpty then d else { d with ready := d.ready ++ [{ data := line }] }
  | .lines => { d with ready := d.ready ++ [{ data := line }] }

end FrameDecoder

/-- The buffer up to its first terminator, and what stands from that terminator on. -/
def findTerminator : List Char → Option (List Char × Char × List Char)
  | [] => none
  | c :: rest =>
    if c = '\n' ∨ c = '\r' then some ([], c, rest)
    else (findTerminator rest).map fun p => (c :: p.1, p.2.1, p.2.2)

/-- `take_line`: one line off the buffer with its terminator. A trailing `\r` waits unless the body
has ended. -/
def takeLine (atEnd : Bool) (buffer : List Char) : Option (List Char × List Char) :=
  match findTerminator buffer with
  | none => if atEnd && !buffer.isEmpty then some (buffer, []) else none
  | some (line, term, rest) =>
    if term = '\r' then
      match rest with
      | [] => if atEnd then some (line, []) else none
      -- a `\r` directly followed by `\n` is one terminator
      | c :: rest' => if c = '\n' then some (line, rest') else some (line, c :: rest')
    else some (line, rest)

variable {buffer line rest : List Char}

theorem findTerminator_length {c : Char}
    (h : findTerminator buffer = some (line, c, rest)) : rest.length < buffer.length := by
  induction buffer generalizing line with
  | nil => simp [findTerminator] at h
  | cons d buffer ih =>
    unfold findTerminator at h
    split at h
    · simp only [Option.some.injEq, Prod.mk.injEq] at h
      obtain ⟨-, -, rfl⟩ := h
      simp
    · rw [Option.map_eq_some_iff] at h
      obtain ⟨⟨l, c', r⟩, hp, heq⟩ := h
      simp only [Prod.mk.injEq] at heq
      obtain ⟨-, rfl, rfl⟩ := heq
      have := ih hp
      simp only [List.length_cons]
      omega

theorem takeLine_length {atEnd : Bool}
    (h : takeLine atEnd buffer = some (line, rest)) : rest.length < buffer.length := by
  unfold takeLine at h
  split at h
  · split at h
    · rename_i hcond
      simp only [Option.some.injEq, Prod.mk.injEq] at h
      obtain ⟨-, rfl⟩ := h
      cases buffer with
      | nil => simp at hcond
      | cons c buffer => simp
    · simp at h
  · rename_i l term r hfind
    have hlen := findTerminator_length hfind
    split at h
    · split at h
      · split at h
        · simp only [Option.some.injEq, Prod.mk.injEq] at h
          obtain ⟨-, rfl⟩ := h
          simpa using hlen
        · simp at h
      · split at h
        · simp only [Option.some.injEq, Prod.mk.injEq] at h
          obtain ⟨-, rfl⟩ := h
          simp only [List.length_cons] at hlen
          omega
        · simp only [Option.some.injEq, Prod.mk.injEq] at h
          obtain ⟨-, rfl⟩ := h
          exact hlen
    · simp only [Option.some.injEq, Prod.mk.injEq] at h
      obtain ⟨-, rfl⟩ := h
      exact hlen

namespace FrameDecoder

def withBuffer (d : FrameDecoder) (buffer : List Char) : FrameDecoder :=
  { d with buffer := buffer }

@[simp]
theorem withBuffer_withBuffer (d : FrameDecoder) (b b' : List Char) :
    (d.withBuffer b).withBuffer b' = d.withBuffer b' := rfl

@[simp]
theorem withBuffer_buffer (d : FrameDecoder) (b : List Char) : (d.withBuffer b).buffer = b := rfl

theorem takeFrameLine_withBuffer (d : FrameDecoder) (buffer line : List Char) :
    (d.withBuffer buffer).takeFrameLine line = (d.takeFrameLine line).withBuffer buffer := by
  obtain ⟨framing, _, _, _, _, _, _, _, _, _⟩ := d
  unfold takeFrameLine withBuffer
  cases framing with
  | sse =>
    simp only [sseLine, dispatch, resetEvent]
    split_ifs <;> rfl
  | ndjson =>
    simp only
    split <;> rfl
  | lines => rfl

theorem takeFrameLine_frame (d : FrameDecoder) (line : List Char) :
    (d.takeFrameLine line).buffer = d.buffer ∧ (d.takeFrameLine line).bomChecked = d.bomChecked ∧
      (d.takeFrameLine line).finished = d.finished ∧
      d.ready <+: (d.takeFrameLine line).ready := by
  unfold takeFrameLine
  cases d.framing with
  | sse =>
    simp only [sseLine, dispatch, resetEvent]
    split_ifs <;> simp
  | ndjson =>
    simp only
    split <;> simp
  | lines => simp

/-- `drain_lines`: every line the buffer holds, and the last partial one `atEnd`. -/
def drainLines (d : FrameDecoder) (atEnd : Bool) : FrameDecoder :=
  match _h : takeLine atEnd d.buffer with
  | none => d
  | some (line, rest) => drainLines ((d.withBuffer rest).takeFrameLine line) atEnd
termination_by d.buffer.length
decreasing_by
  rw [(takeFrameLine_frame _ _).1]
  exact takeLine_length _h

/-- `buffer.strip_prefix('\u{feff}')`, where there is one. -/
def stripBom : List Char → List Char
  | '\ufeff' :: rest => rest
  | buffer => buffer

/-- The one-time check for a byte-order mark: an empty buffer does not spend it. -/
def checkBom (d : FrameDecoder) : FrameDecoder :=
  if d.bomChecked then d
  else if d.buffer.isEmpty then d
  else { d with bomChecked := true, buffer := stripBom d.buffer }

def feedStr (d : FrameDecoder) (text : List Char) : FrameDecoder :=
  if d.finished then d
  else (checkBom (d.withBuffer (d.buffer ++ text))).drainLines false

def finish (d : FrameDecoder) : FrameDecoder :=
  if d.finished then d
  else resetEvent { d.drainLines true with finished := true, buffer := [] }

end FrameDecoder

/-! ### Lines are cut off the front -/

theorem findTerminator_append {c : Char}
    (h : findTerminator buffer = some (line, c, rest)) (more : List Char) :
    findTerminator (buffer ++ more) = some (line, c, rest ++ more) := by
  induction buffer generalizing line with
  | nil => simp [findTerminator] at h
  | cons d buffer ih =>
    unfold findTerminator at h
    rw [List.cons_append, findTerminator]
    split at h
    · rename_i hterm
      rw [if_pos hterm]
      simp only [Option.some.injEq, Prod.mk.injEq] at h
      obtain ⟨rfl, rfl, rfl⟩ := h
      rfl
    · rename_i hterm
      rw [if_neg hterm]
      rw [Option.map_eq_some_iff] at h
      obtain ⟨⟨l, c', r⟩, hp, heq⟩ := h
      simp only [Prod.mk.injEq] at heq
      obtain ⟨rfl, rfl, rfl⟩ := heq
      rw [ih hp]
      rfl

/-- A line that is taken before the end of the body is taken whatever follows: its terminator is
there, and a `\r` is only taken with the character after it. -/
theorem takeLine_append (more : List Char) (h : takeLine false buffer = some (line, rest)) :
    takeLine false (buffer ++ more) = some (line, rest ++ more) := by
  unfold takeLine at h
  cases hfind : findTerminator buffer with
  | none => simp [hfind] at h
  | some p =>
    obtain ⟨l, term, r⟩ := p
    simp only [hfind] at h
    unfold takeLine
    simp only [findTerminator_append hfind more]
    split at h
    · rename_i hcr
      rw [if_pos hcr]
      cases r with
      | nil => simp at h
      | cons c r' =>
        simp only [List.cons_append] at h ⊢
        split at h
        · rename_i hlf
          rw [if_pos hlf]
          simp only [Option.some.injEq, Prod.mk.injEq] at h
          obtain ⟨rfl, rfl⟩ := h
          rfl
        · rename_i hlf
          rw [if_neg hlf]
          simp only [Option.some.injEq, Prod.mk.injEq] at h
          obtain ⟨rfl, rfl⟩ := h
          rfl
    · rename_i hcr
      rw [if_neg hcr]
      simp only [Option.some.injEq, Prod.mk.injEq] at h
      obtain ⟨rfl, rfl⟩ := h
      rfl

def lineCutter : Cutter Char (List Char) where
  next := takeLine false
  shrinks := takeLine_length
  stable := takeLine_append

namespace FrameDecoder

theorem foldl_withBuffer (lines : List (List Char)) (d : FrameDecoder) (buffer : List Char) :
    lines.foldl takeFrameLine (d.withBuffer buffer) =
      (lines.foldl takeFrameLine d).withBuffer buffer := by
  induction lines generalizing d with
  | nil => rfl
  | cons line lines ih => rw [List.foldl_cons, List.foldl_cons, takeFrameLine_withBuffer, ih]

variable {d : FrameDecoder}

theorem drainLines_none {atEnd : Bool} (h : takeLine atEnd d.buffer = none) :
    d.drainLines atEnd = d := by
  rw [drainLines]
  split
  · rfl
  · rename_i hs
    rw [h] at hs
    simp at hs

theorem drainLines_some {atEnd : Bool} {line rest : List Char}
    (h : takeLine atEnd d.buffer = some (line, rest)) :
    d.drainLines atEnd = ((d.withBuffer rest).takeFrameLine line).drainLines atEnd := by
  rw [drainLines]
  split
  · rename_i hs
    rw [h] at hs
    simp at hs
  · rename_i l r hs
    rw [h] at hs
    simp only [Option.some.injEq, Prod.mk.injEq] at hs
    obtain ⟨rfl, rfl⟩ := hs
    rfl

theorem drainLines_eq (buffer : List Char) : ∀ d : FrameDecoder, d.buffer = buffer →
    d.drainLines false =
      ((lineCutter.run buffer).1.foldl takeFrameLine d).withBuffer (lineCutter.run buffer).2 := by
  induction buffer using lineCutter.run_induction with
  | wait buffer h =>
    intro d hd
    subst hd
    rw [lineCutter.run_none h, drainLines_none h]
    rfl
  | cut buffer line rest h ih =>
    intro d hd
    subst hd
    rw [lineCutter.run_some h, drainLines_some h, ih _ (takeFrameLine_frame _ _).1,
      takeFrameLine_withBuffer, foldl_withBuffer]
    rfl

theorem foldl_frame (lines : List (List Char)) (d : FrameDecoder) :
    (lines.foldl takeFrameLine d).bomChecked = d.bomChecked ∧
      (lines.foldl takeFrameLine d).finished = d.finished ∧
      d.ready <+: (lines.foldl takeFrameLine d).ready := by
  induction lines generalizing d with
  | nil => exact ⟨rfl, rfl, List.prefix_rfl⟩
  | cons line lines ih =>
    obtain ⟨hb, hf, hr⟩ := ih (d.takeFrameLine line)
    obtain ⟨-, hb', hf', hr'⟩ := takeFrameLine_frame d line
    exact ⟨hb.trans hb', hf.trans hf', hr'.trans hr⟩

theorem drainLines_append (d : FrameDecoder) (more : List Char) :
    ((d.drainLines false).withBuffer ((d.drainLines false).buffer ++ more)).drainLines false =
      (d.withBuffer (d.buffer ++ more)).drainLines false := by
  have hfirst := drainLines_eq _ d rfl
  rw [hfirst, withBuffer_withBuffer, withBuffer_buffer, drainLines_eq _ _ rfl,
    drainLines_eq _ (d.withBuffer _) rfl, withBuffer_buffer, withBuffer_buffer,
    lineCutter.run_append d.buffer more, foldl_withBuffer, foldl_withBuffer, List.foldl_append,
    withBuffer_withBuffer, withBuffer_withBuffer]

theorem drainLines_frame (d : FrameDecoder) :
    (d.drainLines false).bomChecked = d.bomChecked ∧ (d.drainLines false).finished = d.finished := by
  rw [drainLines_eq _ d rfl]
  exact ⟨(foldl_frame _ d).1, (foldl_frame _ d).2.1⟩

theorem drainLines_ready (atEnd : Bool) (d : FrameDecoder) :
    d.ready <+: (d.drainLines atEnd).ready := by
  induction h : d.buffer.length using Nat.strongRecOn generalizing d with
  | _ n ih =>
    cases hline : takeLine atEnd d.buffer with
    | none =>
      have hsame := drainLines_none hline
      simp [hsame]
    | some p =>
      obtain ⟨line, rest⟩ := p
      rw [drainLines_some hline]
      obtain ⟨hbuf, -, -, hready⟩ := takeFrameLine_frame (d.withBuffer rest) line
      refine hready.trans (ih rest.length ?_ _ (by rw [hbuf, withBuffer_buffer]))
      have := takeLine_length hline
      omega

/-! ### Feeding -/

theorem stripBom_append {buffer : List Char} (hne : buffer ≠ []) (more : List Char) :
    stripBom (buffer ++ more) = stripBom buffer ++ more := by
  cases buffer with
  | nil => exact absurd rfl hne
  | cons c rest =>
    unfold stripBom
    simp only [List.cons_append]
    split
    · rename_i h
      simp only [List.cons.injEq] at h
      obtain ⟨rfl, rfl⟩ := h
      rfl
    · rename_i h
      split
      · rename_i h'
        simp only [List.cons.injEq] at h'
        obtain ⟨rfl, rfl⟩ := h'
        exact absurd rfl (h _)
      · rfl

theorem checkBom_checked (h : d.bomChecked = true) : d.checkBom = d := by
  rw [checkBom, if_pos h]

theorem checkBom_withBuffer (h : d.bomChecked = true) (buffer : List Char) :
    checkBom (d.withBuffer buffer) = d.withBuffer buffer :=
  checkBom_checked h

theorem checkBom_finished (d : FrameDecoder) : d.checkBom.finished = d.finished := by
  unfold checkBom
  split_ifs <;> rfl

theorem checkBom_drain_append (d : FrameDecoder) (more : List Char) :
    (checkBom ((d.checkBom.drainLines false).withBuffer
        ((d.checkBom.drainLines false).buffer ++ more))).drainLines false =
      (checkBom (d.withBuffer (d.buffer ++ more))).drainLines false := by
  by_cases hbom : d.bomChecked = true
  · rw [checkBom_checked hbom, checkBom_withBuffer ((drainLines_frame d).1.trans hbom),
      checkBom_withBuffer hbom, drainLines_append]
  · by_cases hempty : d.buffer = []
    · -- nothing has arrived yet, so nothing has been spent
      have hcheck : d.checkBom = d := by
        unfold checkBom
        rw [if_neg hbom, if_pos (by rw [hempty]; rfl)]
      have hdrain : d.drainLines false = d := drainLines_none (by rw [hempty]; rfl)
      rw [hcheck, hdrain]
    · have hcheck : d.checkBom = { d with bomChecked := true, buffer := stripBom d.buffer } := by
        unfold checkBom
        rw [if_neg hbom, if_neg (by simpa using hempty)]
      have hcheck' : checkBom (d.withBuffer (d.buffer ++ more)) =
          d.checkBom.withBuffer (d.checkBom.buffer ++ more) := by
        rw [hcheck]
        unfold checkBom withBuffer
        rw [if_neg hbom, if_neg (by simp [hempty]), stripBom_append hempty]
      have hchecked : d.checkBom.bomChecked = true := by rw [hcheck]
      rw [hcheck', checkBom_withBuffer ((drainLines_frame d.checkBom).1.trans hchecked),
        drainLines_append]

theorem feedStr_append (d : FrameDecoder) (a b : List Char) :
    (d.feedStr a).feedStr b = d.feedStr (a ++ b) := by
  by_cases hfin : d.finished = true
  · simp [feedStr, hfin]
  · have hfin' : (d.feedStr a).finished = d.finished := by
      rw [feedStr, if_neg hfin, (drainLines_frame _).2, checkBom_finished]
      rfl
    rw [feedStr, hfin', if_neg hfin, feedStr, if_neg hfin, feedStr, if_neg hfin,
      checkBom_drain_append, withBuffer_withBuffer, withBuffer_buffer, List.append_assoc]

theorem feedStr_ready (d : FrameDecoder) (text : List Char) :
    d.ready <+: (d.feedStr text).ready := by
  unfold feedStr
  split
  · exact List.prefix_rfl
  · refine List.IsPrefix.trans ?_ (drainLines_ready false _)
    unfold checkBom
    split_ifs <;> exact List.prefix_rfl

theorem finish_ready (d : FrameDecoder) : d.ready <+: d.finish.ready := by
  unfold finish
  split
  · exact List.prefix_rfl
  · exact drainLines_ready true d

end FrameDecoder

/-! ### The chunker decodes what the whole does -/

theorem pushLoop_eq (rest : List UInt8) : ∀ out : List Char,
    pushLoop rest out = (out ++ (cutter.run rest).1, (cutter.run rest).2) := by
  induction h : rest.length using Nat.strongRecOn generalizing rest with
  | _ n ih =>
    intro out
    rw [pushLoop]
    split
    · rename_i hok
      have hrun := run_of_validUpTo rest rest.length (by rw [hok]; rfl)
      rw [hrun, List.take_length, List.drop_length, cutter_nil, List.append_nil]
    · rename_i error herr
      have hrun := run_of_validUpTo rest error.validUpTo (by rw [herr]; rfl)
      obtain ⟨hle, hhead⟩ := head_of_fromUtf8 rest error herr
      split
      · rename_i bad hlen
        rw [hlen] at hhead
        have hbad := head_invalid hhead
        rw [List.length_drop] at hbad
        rw [ih _ (by rw [List.length_drop]; omega) _ rfl, hrun, cutter_invalid hhead,
          List.drop_drop]
        simp only [List.append_assoc, List.cons_append, List.nil_append]
      · rename_i hlen
        rw [hlen] at hhead
        rw [hrun, cutter_truncated hhead, List.append_nil]

theorem push_eq (u : Utf8Chunker) (bytes : List UInt8) :
    u.push bytes = ((cutter.run (u.pending ++ bytes)).1, ⟨(cutter.run (u.pending ++ bytes)).2⟩) := by
  simp only [Utf8Chunker.push, pushLoop_eq, List.nil_append]

theorem finish_eq (u : Utf8Chunker) : u.finish = fromUtf8Lossy u.pending := by
  unfold Utf8Chunker.finish
  split
  · rename_i h
    rw [List.isEmpty_iff.1 h, fromUtf8Lossy_nil]
  · rfl

/-! ### A body in chunks -/

/-- The two machines of a byte-fed host. -/
structure Host where
  chunker : Utf8Chunker
  decoder : FrameDecoder

def Host.new (framing : Framing) : Host :=
  { chunker := {}, decoder := { framing := framing } }

/-- One chunk: through the chunker into the decoder. -/
def Host.feed (h : Host) (bytes : List UInt8) : Host :=
  let r := h.chunker.push bytes
  { chunker := r.2, decoder := h.decoder.feedStr r.1 }

/-- The end of the body: the chunker's tail, then the decoder's. -/
def Host.finish (h : Host) : FrameDecoder :=
  (h.decoder.feedStr h.chunker.finish).finish

/-- The frames of a body that arrives as `chunks`. -/
def decodeChunks (framing : Framing) (chunks : List (List UInt8)) : List Frame :=
  (chunks.foldl Host.feed (Host.new framing)).finish.ready

/-- The frames of a body decoded lossily and fed at once. -/
def decodeWhole (framing : Framing) (body : List UInt8) : List Frame :=
  (({ framing := framing } : FrameDecoder).feedStr (fromUtf8Lossy body)).finish.ready

theorem foldl_feed (framing : Framing) (chunks : List (List UInt8)) :
    chunks.foldl Host.feed (Host.new framing) =
      { chunker := ⟨(cutter.run chunks.flatten).2⟩
        decoder := ({ framing := framing } : FrameDecoder).feedStr (cutter.run chunks.flatten).1 } := by
  induction chunks using List.reverseRecOn with
  | nil =>
    rw [List.flatten_nil, cutter_nil]
    have hnil : ({ framing := framing } : FrameDecoder).feedStr [] = { framing := framing } :=
      FrameDecoder.drainLines_none rfl
    rw [hnil]
    rfl
  | append_singleton chunks bytes ih =>
    rw [List.foldl_append, ih, List.foldl_cons, List.foldl_nil, List.flatten_append,
      List.flatten_singleton, cutter.run_append chunks.flatten bytes]
    simp only [Host.feed, push_eq, FrameDecoder.feedStr_append]

theorem foldl_feed_ready (chunks : List (List UInt8)) (h : Host) :
    h.decoder.ready <+: (chunks.foldl Host.feed h).decoder.ready := by
  induction chunks generalizing h with
  | nil => exact List.prefix_rfl
  | cons bytes chunks ih => exact (h.decoder.feedStr_ready _).trans (ih (h.feed bytes))

theorem Host.finish_ready (h : Host) : h.decoder.ready <+: h.finish.ready :=
  (h.decoder.feedStr_ready _).trans (FrameDecoder.finish_ready _)

/-- **Stream decoding does not depend on chunking**: however the bytes are cut into chunks, the
frames are those of the whole body, and those ready after any number of chunks are the first of
them. -/
theorem decodeChunks_eq (framing : Framing) (chunks : List (List UInt8)) :
    decodeChunks framing chunks = decodeWhole framing chunks.flatten ∧
      ∀ k, ((chunks.take k).foldl Host.feed (Host.new framing)).decoder.ready <+:
        decodeWhole framing chunks.flatten := by
  have heq : ∀ cs : List (List UInt8), decodeChunks framing cs = decodeWhole framing cs.flatten := by
    intro cs
    unfold decodeChunks decodeWhole Host.finish
    rw [foldl_feed, finish_eq, FrameDecoder.feedStr_append, ← fromUtf8Lossy_eq_run]
  refine ⟨heq chunks, ?_⟩
  intro k
  rw [← heq chunks]
  unfold decodeChunks
  refine List.IsPrefix.trans ?_ (Host.finish_ready _)
  have hsplit := foldl_feed_ready (chunks.drop k) ((chunks.take k).foldl Host.feed (Host.new framing))
  rwa [← List.foldl_append, List.take_append_drop] at hsplit

end Noeta.Stream
