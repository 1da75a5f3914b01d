import Noeta.Stream.Encoder

/-!
# What a decoder reads back of a server's events

A server writes frames and comments, a decoder of the same stream dispatches frames. A frame arrives
as it was sent when its fields can be written and the stray lines before it, which comments with a
`\r` leave behind, say nothing about it; no other frame arrives when no blank stray line follows a
stray `data` line.
-/

namespace Noeta.Stream

open Lib FrameDecoder

/-! ### What a line says -/

/-- The value a line gives the field `name`. -/
def fieldValue (name line : List Char) : Option (List Char) :=
  let (field, raw) := (splitColon line).getD (line, [])
  if field = name then some (stripSpace raw) else none

def eventValue (line : List Char) : Option (List Char) := fieldValue "event".toList line

def dataValue (line : List Char) : Option (List Char) := fieldValue "data".toList line

/-- An id with a NUL in it is no id. -/
def idValue (line : List Char) : Option (List Char) :=
  (fieldValue "id".toList line).bind fun value =>
    if value.contains '\x00' then none else some value

/-- A hint is digits only; one too large for its type clears the hint. -/
def retryValue (line : List Char) : Option (Option Nat) :=
  (fieldValue "retry".toList line).bind fun value =>
    if !value.isEmpty ∧ value.all Char.isDigit then some (parseMillis value) else none

theorem fieldValue_comment {name : List Char} (h : name ≠ []) (line : List Char) :
    fieldValue name (':' :: line) = none := by
  simp [fieldValue, splitColon, h.symm]

variable {line : List Char} {d : FrameDecoder} {lines : List (List Char)} {items : List Item}

/-- What a line that ends no block does to the decoder. -/
theorem sseLine_of_ne_nil (d : FrameDecoder) (h : line ≠ []) : d.sseLine line = { d with
        event := (eventValue line).getD d.event
        data := (dataValue line).elim d.data
          ((if d.sawData then d.data ++ ['\n'] else d.data) ++ ·)
        sawData := d.sawData || (dataValue line).isSome
        lastId := (idValue line).getD d.lastId
        retry := (retryValue line).getD d.retry } := by
  cases line with
  | nil => exact absurd rfl h
  | cons c line =>
    unfold sseLine
    rw [if_neg (by simp)]
    by_cases hc : c = ':'
    · subst hc
      simp [eventValue, dataValue, idValue, retryValue, fieldValue_comment]
    · rw [if_neg (by simpa using hc)]
      simp only [eventValue, dataValue, idValue, retryValue, fieldValue]
      generalize (splitColon (c :: line)).getD (c :: line, []) = p
      obtain ⟨field, raw⟩ := p
      by_cases hevent : field = "event".toList
      · subst hevent
        simp
      · by_cases hdata : field = "data".toList
        · subst hdata
          simp
        · by_cases hid : field = "id".toList
          · subst hid
            by_cases hnul : '\x00' ∈ stripSpace raw <;> simp [hnul]
          · by_cases hretry : field = "retry".toList
            · subst hretry
              simp only [if_neg hevent, if_neg hdata, if_neg hid, true_and, if_true,
                Option.bind_some, Option.bind_none, Option.elim_none, Option.getD_none,
                Option.isSome_none, Bool.or_false]
              split <;> rfl
            · simp only [if_neg hevent, if_neg hdata, if_neg hid, hretry, false_and,
                if_false, Option.bind_none, Option.elim_none, Option.getD_none,
                Option.isSome_none, Bool.or_false]

theorem sseLine_nil (d : FrameDecoder) : d.sseLine [] = d.dispatch := rfl

theorem sseLine_comment (d : FrameDecoder) (line : List Char) : d.sseLine (':' :: line) = d := rfl

theorem sseLine_framing (d : FrameDecoder) (line : List Char) :
    (d.sseLine line).framing = d.framing := by
  cases line with
  | nil =>
    rw [sseLine_nil]
    unfold dispatch
    split <;> rfl
  | cons c line => rw [sseLine_of_ne_nil d (List.cons_ne_nil c line)]

theorem foldl_takeFrameLine (lines : List (List Char)) (h : d.framing = .sse) :
    lines.foldl takeFrameLine d = lines.foldl sseLine d := by
  induction lines generalizing d with
  | nil => rfl
  | cons line lines ih =>
    have hline : d.takeFrameLine line = d.sseLine line := by
      unfold takeFrameLine
      rw [h]
    rw [List.foldl_cons, List.foldl_cons, hline, ih ((sseLine_framing d line).trans h)]

/-! ### Stray lines -/

/-- No blank line follows a `data` line: the lines dispatch nothing. -/
def Undispatched (lines : List (List Char)) : Prop :=
  lines.Pairwise fun line later => (dataValue line).isSome → later ≠ []

/-- What the lines after the last blank one leave for the next frame's name. -/
def pendingEvent (lines : List (List Char)) : List Char :=
  ((lines.reverse.takeWhile (· ≠ [])).findSome? eventValue).getD []

def pendingRetry (lines : List (List Char)) : Option Nat :=
  ((lines.reverse.takeWhile (· ≠ [])).findSome? retryValue).getD none

/-- The last id of the lines, or the one before them: a blank line does not end an id. -/
def pendingId (last : List Char) (lines : List (List Char)) : List Char :=
  (lines.reverse.findSome? idValue).getD last

theorem undispatched_append : Undispatched (lines ++ [line]) ↔
      Undispatched lines ∧ ∀ l ∈ lines, (dataValue l).isSome → line ≠ [] := by
  unfold Undispatched
  rw [List.pairwise_append]
  simp

/-- Lines dispatch a frame, or leave the frames as they are and remember whether there was data. -/
theorem foldl_sseLine_ready (lines : List (List Char)) (h : d.sawData = false) :
    (Undispatched lines → (lines.foldl sseLine d).ready = d.ready ∧
        (lines.foldl sseLine d).sawData = lines.any fun line => (dataValue line).isSome) ∧
      (¬Undispatched lines → d.ready.length < (lines.foldl sseLine d).ready.length) := by
  induction lines using List.reverseRecOn with
  | nil => exact ⟨fun _ => ⟨rfl, h⟩, fun hnot => absurd List.Pairwise.nil hnot⟩
  | append_singleton lines line ih =>
    rw [List.foldl_append, List.foldl_cons, List.foldl_nil, List.any_append, undispatched_append]
    obtain ⟨hquiet, hmore⟩ := ih
    generalize lines.foldl sseLine d = e at hquiet hmore ⊢
    by_cases hline : line = []
    · subst hline
      rw [sseLine_nil]
      have hgrow : e.ready.length ≤ e.dispatch.ready.length := by
        unfold dispatch
        split <;> simp [resetEvent]
      constructor
      · rintro ⟨hu, hnone⟩
        obtain ⟨hready, hsaw⟩ := hquiet hu
        have hany : (lines.any fun line => (dataValue line).isSome) = false := by
          rw [List.any_eq_false]
          intro l hl hdata
          exact hnone l hl hdata rfl
        rw [hany] at hsaw ⊢
        unfold dispatch
        rw [hsaw]
        exact ⟨hready, rfl⟩
      · intro hnot
        by_cases hu : Undispatched lines
        · obtain ⟨hready, hsaw⟩ := hquiet hu
          have hany : (lines.any fun line => (dataValue line).isSome) = true := by
            by_contra hany
            rw [Bool.not_eq_true, List.any_eq_false] at hany
            exact hnot ⟨hu, fun l hl hdata => absurd hdata (hany l hl)⟩
          rw [hany] at hsaw
          unfold dispatch
          rw [hsaw, ← hready]
          simp [resetEvent]
        · have := hmore hu
          omega
    · rw [sseLine_of_ne_nil e hline]
      constructor
      · rintro ⟨hu, -⟩
        obtain ⟨hready, hsaw⟩ := hquiet hu
        refine ⟨hready, ?_⟩
        simp [hsaw]
      · intro hnot
        exact hmore fun hu => hnot ⟨hu, fun _ _ _ => hline⟩

/-- Between frames: nothing of a block is there. -/
structure Idle (d : FrameDecoder) : Prop where
  data : d.data = []
  sawData : d.sawData = false
  event : d.event = []
  retry : d.retry = none

theorem idle_resetEvent (d : FrameDecoder) : Idle d.resetEvent := ⟨rfl, rfl, rfl, rfl⟩

theorem foldl_sseLine_pending (hd : Idle d) (h : ∀ line ∈ lines, dataValue line = none) :
    lines.foldl sseLine d =
      { d with
        event := pendingEvent lines
        retry := pendingRetry lines
        lastId := pendingId d.lastId lines } := by
  induction lines using List.reverseRecOn with
  | nil =>
    obtain ⟨framing, buffer, ready, data, sawData, event, lastId, retry, bom, finished⟩ := d
    obtain ⟨rfl, rfl, rfl, rfl⟩ := hd
    rfl
  | append_singleton lines line ih =>
    rw [List.foldl_append, List.foldl_cons, List.foldl_nil,
      ih fun l hl => h l (List.mem_append_left _ hl)]
    by_cases hline : line = []
    · subst hline
      obtain ⟨framing, buffer, ready, data, sawData, event, lastId, retry, bom, finished⟩ := d
      obtain ⟨rfl, rfl, rfl, rfl⟩ := hd
      have hid : idValue [] = none := rfl
      simp [sseLine_nil, dispatch, resetEvent, pendingEvent, pendingRetry, pendingId, hid]
    · rw [sseLine_of_ne_nil _ hline, h line (by simp)]
      simp only [pendingEvent, pendingRetry, pendingId, List.reverse_append, List.reverse_singleton,
        List.singleton_append, List.takeWhile_cons, hline, ne_eq, not_false_eq_true, decide_true,
        if_true, List.findSome?_cons, Option.elim_none, Option.isSome_none, Bool.or_false]
      cases eventValue line <;> cases retryValue line <;> cases idValue line <;> rfl

/-! ### A frame -/

theorem sseLine_event (d : FrameDecoder) (value : List Char) :
    d.sseLine ("event: ".toList ++ value) = { d with event := value } := rfl

theorem sseLine_data (d : FrameDecoder) (value : List Char) :
    d.sseLine ("data: ".toList ++ value) =
      { d with
        data := (if d.sawData then d.data ++ ['\n'] else d.data) ++ value
        sawData := true } := rfl

theorem sseLine_id (d : FrameDecoder) {value : List Char} (h : '\x00' ∉ value) :
    d.sseLine ("id: ".toList ++ value) = { d with lastId := value } := by
  have hnul : value.contains '\x00' = false := by simpa using h
  have hline : d.sseLine ("id: ".toList ++ value) =
      if value.contains '\x00' then d else { d with lastId := value } := rfl
  rw [hline, hnul]
  rfl

theorem parseMillis_toDigits {n : Nat} (h : n < 2 ^ 63) :
    parseMillis (Nat.toDigits 10 n) = some n := by
  have hfold : ∀ (text : List Char) (acc : Nat),
      text.foldl (fun acc c => acc * 10 + (c.toNat - '0'.toNat)) acc =
        Nat.ofDigitChars 10 text acc := by
    intro text
    induction text with
    | nil => exact fun acc => rfl
    | cons c text ih =>
      intro acc
      rw [List.foldl_cons, ih, Nat.ofDigitChars_cons, Nat.mul_comm]
  unfold parseMillis
  simp only [hfold, Nat.ofDigitChars_ten_toDigits]
  rw [if_pos h]

theorem sseLine_retry (d : FrameDecoder) {n : BitVec 64} (h : 0 ≤ n.toInt) :
    d.sseLine ("retry: ".toList ++ decimal n) = { d with retry := some n.toInt.natAbs } := by
  rw [decimal_nonneg h]
  have hbound : n.toInt.natAbs < 2 ^ 63 := by
    have := BitVec.toInt_lt (x := n)
    omega
  have hdigits : (!(Nat.toDigits 10 n.toInt.natAbs).isEmpty) = true ∧
      (Nat.toDigits 10 n.toInt.natAbs).all Char.isDigit = true := by
    refine ⟨by simp [Nat.toDigits_ne_nil], ?_⟩
    rw [List.all_eq_true]
    exact fun c hc => Nat.isDigit_of_mem_toDigits (by omega) (by omega) hc
  have hline : ∀ value : List Char, d.sseLine ("retry: ".toList ++ value) =
      if "retry".toList = "retry".toList ∧ (!value.isEmpty) = true ∧ value.all Char.isDigit = true
      then { d with retry := parseMillis value } else d := fun value => rfl
  rw [hline, if_pos ⟨rfl, hdigits⟩, parseMillis_toDigits hbound]

theorem foldl_dataLines (pieces : List (List Char)) (h : pieces ≠ []) (d : FrameDecoder) :
    (pieces.map ("data: ".toList ++ ·)).foldl sseLine d =
      { d with
        data := (if d.sawData then d.data ++ ['\n'] else d.data) ++ ['\n'].intercalate pieces
        sawData := true } := by
  induction pieces generalizing d with
  | nil => exact absurd rfl h
  | cons piece pieces ih =>
    rw [List.map_cons, List.foldl_cons, sseLine_data]
    cases pieces with
    | nil => simp
    | cons next pieces =>
      rw [ih (List.cons_ne_nil _ _), List.intercalate_cons_cons]
      simp

/-- The frame that arrives, for a decoder that something may have been left in. -/
def Sent.arrives (f : Sent) (d : FrameDecoder) : Frame where
  event := if f.event.isEmpty then d.event else f.event
  data := (if d.sawData then d.data ++ ['\n'] else d.data) ++ f.data
  id := if f.id.isEmpty then d.lastId else f.id
  retry := f.retry.elim d.retry fun n => some n.toInt.natAbs

theorem foldl_lines {f : Sent} (h : f.Writable) (d : FrameDecoder) :
    f.lines.foldl sseLine d =
      resetEvent
        { d with ready := d.ready ++ [f.arrives d], lastId := (f.arrives d).id } := by
  have hevent : (if f.event.isEmpty then [] else ["event: ".toList ++ f.event]).foldl sseLine d =
      { d with event := if f.event.isEmpty then d.event else f.event } := by
    split
    · rfl
    · rw [List.foldl_cons, sseLine_event]
      rfl
  have hid : ∀ d : FrameDecoder,
      (if f.id.isEmpty then [] else ["id: ".toList ++ f.id]).foldl sseLine d =
        { d with lastId := if f.id.isEmpty then d.lastId else f.id } := by
    intro d
    split
    · rfl
    · rw [List.foldl_cons, sseLine_id d fun hmem => (h.id _ hmem).2.2 rfl]
      rfl
  have hretry : ∀ d : FrameDecoder,
      (f.retry.elim [] fun retry => ["retry: ".toList ++ decimal retry]).foldl sseLine d =
        { d with retry := f.retry.elim d.retry fun n => some n.toInt.natAbs } := by
    intro d
    cases hn : f.retry with
    | none => rfl
    | some n =>
      have hn : 0 ≤ n.toInt := h.retry n (by simp [hn])
      rw [Option.elim_some, List.foldl_cons, sseLine_retry d hn]
      rfl
  have hdata := foldl_dataLines (splitDataLines f.data) (List.splitOn_ne_nil _ _)
  have hjoin : ['\n'].intercalate (splitDataLines f.data) = f.data := List.intercalate_splitOn '\n'
  unfold Sent.lines
  rw [List.foldl_append, List.foldl_append, List.foldl_append, List.foldl_append, hevent, hid,
    hretry, hdata, hjoin, List.foldl_cons, List.foldl_nil, sseLine_nil]
  rfl

/-! ### A server's items -/

/-- What a reader is given of a frame. -/
structure Seen where
  event : List Char
  data : List Char
  id : List Char
  retry : Option Int
deriving DecidableEq, Repr

def Frame.seen (f : Frame) : Seen :=
  { event := f.event, data := f.data, id := f.id, retry := f.retry.map Int.ofNat }

/-- The frame as it was sent, after frames whose last non-empty id is `last`. -/
def Sent.seen (f : Sent) (last : List Char) : Seen :=
  { event := f.event
    data := f.data
    id := if f.id.isEmpty then last else f.id
    retry := f.retry.map BitVec.toInt }

/-- One frame for each frame, none for a comment. -/
def expected : List Char → List Item → List Seen
  | _, [] => []
  | last, .frame f :: items => f.seen last :: expected (f.seen last).id items
  | last, .comment _ :: items => expected last items

/-- What a decoder dispatches when it is fed all that was written. -/
def decoded (items : List Item) : List Frame :=
  (({ framing := .sse } : FrameDecoder).feedStr (items.flatMap Item.wire)).ready

def RoundTrips (items : List Item) : Prop :=
  (decoded items).map Frame.seen = expected [] items

/-- The stray lines since the last frame say nothing about this one. -/
structure Quiet (last : List Char) (stray : List (List Char)) (f : Sent) : Prop where
  data : ∀ line ∈ stray, dataValue line = none
  event : f.event = [] → pendingEvent stray = []
  retry : f.retry = none → pendingRetry stray = none
  id : f.id = [] → pendingId last stray = last

/-- The stray lines since the last frame do nothing, and so do those to come. -/
def Harmless : List Char → List (List Char) → List Item → Prop
  | _, stray, [] => Undispatched stray
  | last, stray, .frame f :: items => Quiet last stray f ∧ Harmless (f.seen last).id [] items
  | last, stray, .comment text :: items =>
    Harmless last (stray ++ (text.splitOn '\n').flatMap strays) items

theorem sseLine_ready (d : FrameDecoder) (line : List Char) : d.ready <+: (d.sseLine line).ready := by
  cases line with
  | nil =>
    rw [sseLine_nil]
    unfold dispatch
    split
    · exact List.prefix_rfl
    · exact List.prefix_append _ _
  | cons c line => simp [sseLine_of_ne_nil d (List.cons_ne_nil c line)]

theorem foldl_sseLine_ready_le (lines : List (List Char)) (d : FrameDecoder) :
    d.ready <+: (lines.foldl sseLine d).ready := by
  induction lines generalizing d with
  | nil => exact List.prefix_rfl
  | cons line lines ih => exact (sseLine_ready d line).trans (ih _)

theorem foldl_comment (text : List Char) (d : FrameDecoder) :
    (Item.comment text).lines.foldl sseLine d =
      ((text.splitOn '\n').flatMap strays).foldl sseLine d := by
  have hpieces : ∀ (pieces : List (List Char)) (d : FrameDecoder),
      (pieces.flatMap fun line => crLines (commentLine line)).foldl sseLine d =
        (pieces.flatMap strays).foldl sseLine d := by
    intro pieces
    induction pieces with
    | nil => exact fun d => rfl
    | cons piece pieces ih =>
      intro d
      obtain ⟨first, hfirst⟩ := crLines_commentLine piece
      rw [List.flatMap_cons, List.flatMap_cons, List.foldl_append, List.foldl_append, hfirst,
        List.foldl_cons, sseLine_comment, ih]
  exact hpieces _ d

theorem expected_length_le (h : ∀ item ∈ items, item.Writable) (last : List Char) (d : FrameDecoder) :
    d.ready.length + (expected last items).length ≤
      ((items.flatMap Item.lines).foldl sseLine d).ready.length := by
  induction items generalizing last d with
  | nil => exact Nat.le_refl _
  | cons item items ih =>
    have hrest := ih fun i hi => h i (List.mem_cons_of_mem _ hi)
    rw [List.flatMap_cons, List.foldl_append]
    cases item with
    | frame f =>
      have hframe := foldl_lines (h _ List.mem_cons_self : f.Writable) d
      have hlen := hrest (f.seen last).id ((Item.frame f).lines.foldl sseLine d)
      have hready : ((Item.frame f).lines.foldl sseLine d).ready.length = d.ready.length + 1 := by
        rw [Item.lines, hframe]
        simp [resetEvent]
      rw [expected, List.length_cons]
      omega
    | comment text =>
      have hlen := hrest last ((Item.comment text).lines.foldl sseLine d)
      have hgrow := (foldl_sseLine_ready_le (Item.comment text).lines d).length_le
      rw [expected]
      omega

/-- A frame after lines without data is the frame that was sent exactly when they are quiet. -/
theorem seen_arrives_iff {stray : List (List Char)} (hd : Idle d) (f : Sent)
    (hdata : ∀ line ∈ stray, dataValue line = none) (hretry : ∀ n ∈ f.retry, 0 ≤ n.toInt) :
    (f.arrives (stray.foldl sseLine d)).seen = f.seen d.lastId ↔ Quiet d.lastId stray f := by
  rw [foldl_sseLine_pending hd hdata]
  simp only [Sent.arrives, Frame.seen, Sent.seen, Seen.mk.injEq, hd.sawData, hd.data]
  have hdigits : (f.retry.elim (pendingRetry stray) fun n => some n.toInt.natAbs).map Int.ofNat =
      f.retry.map BitVec.toInt ↔ (f.retry = none → pendingRetry stray = none) := by
    cases hn : f.retry with
    | none => simp
    | some n =>
      have := hretry n (by simp [hn])
      simp only [Option.elim_some, Option.map_some, reduceCtorEq, false_implies, iff_true]
      congr 1
      simp only [Int.ofNat_eq_natCast]
      omega
  rw [hdigits]
  constructor
  · rintro ⟨hevent, -, hid, hretry⟩
    refine ⟨hdata, ?_, hretry, ?_⟩
    · rintro hempty
      simpa [hempty] using hevent
    · rintro hempty
      simpa [hempty] using hid
  · rintro ⟨-, hevent, hretry, hid⟩
    refine ⟨?_, rfl, ?_, hretry⟩
    · by_cases hempty : f.event = []
      · simpa [hempty] using hevent hempty
      · simp [hempty]
    · by_cases hempty : f.id = []
      · simpa [hempty] using hid hempty
      · simp [hempty]

/-- From lines left over by comments on: the frames arrive as they were sent exactly when no stray
line does harm. -/
theorem foldl_items_iff (h : ∀ item ∈ items, item.Writable) (stray : List (List Char)) (hd : Idle d) :
    ((items.flatMap Item.lines).foldl sseLine (stray.foldl sseLine d)).ready.map Frame.seen =
        d.ready.map Frame.seen ++ expected d.lastId items ↔
      Harmless d.lastId stray items := by
  induction items generalizing stray d with
  | nil =>
    obtain ⟨hquiet, hmore⟩ := foldl_sseLine_ready stray hd.sawData
    rw [List.flatMap_nil, List.foldl_nil, expected, List.append_nil, Harmless]
    by_cases hu : Undispatched stray
    · rw [(hquiet hu).1]
      exact iff_of_true rfl hu
    · refine iff_of_false ?_ hu
      intro heq
      have hlen := congrArg List.length heq
      rw [List.length_map, List.length_map] at hlen
      have := hmore hu
      omega
  | cons item items ih =>
    have hitems : ∀ item ∈ items, item.Writable := fun i hi => h i (List.mem_cons_of_mem _ hi)
    rw [List.flatMap_cons, List.foldl_append]
    cases item with
    | comment text =>
      have hrest := ih hitems (stray ++ (text.splitOn '\n').flatMap strays) hd
      rw [List.foldl_append] at hrest
      rw [foldl_comment, expected, Harmless]
      exact hrest
    | frame f =>
      have hf : f.Writable := h _ List.mem_cons_self
      obtain ⟨hquiet, hmore⟩ := foldl_sseLine_ready stray hd.sawData
      rw [Item.lines, foldl_lines hf, expected, Harmless]
      generalize harrives : f.arrives (stray.foldl sseLine d) = frame
      -- the decoder after the frame: nothing is left in it but the last id
      generalize hafter : resetEvent { stray.foldl sseLine d with
        ready := (stray.foldl sseLine d).ready ++ [frame], lastId := frame.id } = after
      have hidle : Idle after := hafter ▸ idle_resetEvent _
      have hready : after.ready = (stray.foldl sseLine d).ready ++ [frame] := hafter ▸ rfl
      have hlast : after.lastId = frame.id := hafter ▸ rfl
      have hrest := ih hitems [] hidle
      rw [List.foldl_nil, hlast] at hrest
      by_cases hu : Undispatched stray
      · obtain ⟨hsame, hsaw⟩ := hquiet hu
        obtain ⟨more, hmore⟩ := foldl_sseLine_ready_le (items.flatMap Item.lines) after
        rw [← hmore, hready, hsame] at hrest ⊢
        simp only [List.map_append, List.append_assoc, List.append_cancel_left_eq, List.map_cons,
          List.map_nil, List.cons_append, List.nil_append, List.cons.injEq, true_and] at hrest ⊢
        by_cases hdata : ∀ line ∈ stray, dataValue line = none
        · have hseen := seen_arrives_iff hd f hdata hf.retry
          rw [harrives] at hseen
          rw [← hseen]
          refine and_congr_right ?_
          intro heq
          have hid : frame.id = (f.seen d.lastId).id := heq ▸ rfl
          rw [← hid]
          exact hrest
        · -- data is still there: the frame's payload is not its own
          have hany : (stray.any fun line => (dataValue line).isSome) = true := by
            push Not at hdata
            obtain ⟨line, hline, hsome⟩ := hdata
            exact List.any_eq_true.2 ⟨line, hline, Option.isSome_iff_ne_none.2 hsome⟩
          rw [hany] at hsaw
          refine iff_of_false ?_ fun hharm => hdata hharm.1.data
          rintro ⟨heq, -⟩
          have hpayload : frame.data = f.data := congrArg Seen.data heq
          rw [← harrives] at hpayload
          have hlen := congrArg List.length hpayload
          simp only [Sent.arrives, hsaw, if_true, List.length_append, List.length_singleton] at hlen
          omega
      · -- a frame more than were sent
        refine iff_of_false ?_ ?_
        · intro heq
          have hlen := congrArg List.length heq
          have hcount := expected_length_le hitems (f.seen d.lastId).id after
          have := hmore hu
          rw [hready] at hcount
          simp only [List.length_map, List.length_append, List.length_cons, List.length_nil] at *
          omega
        · rintro ⟨hquiet, -⟩
          refine hu (List.pairwise_of_forall_mem_list ?_)
          intro line hline later _ hdata
          rw [hquiet.data line hline] at hdata
          exact absurd hdata (by simp)

/-! ### What can be read at all -/

/-- What a dispatched frame never holds. -/
structure Legible (event data id : List Char) : Prop where
  event : ∀ c ∈ event, c ≠ '\n' ∧ c ≠ '\r'
  data : ∀ c ∈ data, c ≠ '\r'
  id : ∀ c ∈ id, c ≠ '\n' ∧ c ≠ '\r' ∧ c ≠ '\x00'

/-- The same of what a decoder has and of what it is putting together. -/
structure Reads (d : FrameDecoder) : Prop where
  ready : ∀ f ∈ d.ready, Legible f.event f.data f.id
  block : Legible d.event d.data d.lastId

theorem mem_splitColon {line name raw : List Char} (h : splitColon line = some (name, raw)) :
    ∀ c ∈ raw, c ∈ line := by
  induction line generalizing name with
  | nil => simp [splitColon] at h
  | cons x line ih =>
    unfold splitColon at h
    split at h
    · simp only [Option.some.injEq, Prod.mk.injEq] at h
      obtain ⟨-, rfl⟩ := h
      exact fun c hc => List.mem_cons_of_mem _ hc
    · rw [Option.map_eq_some_iff] at h
      obtain ⟨⟨name', raw'⟩, hsplit, heq⟩ := h
      simp only [Prod.mk.injEq] at heq
      obtain ⟨-, rfl⟩ := heq
      exact fun c hc => List.mem_cons_of_mem _ (ih hsplit c hc)

theorem mem_stripSpace (raw : List Char) : ∀ c ∈ stripSpace raw, c ∈ raw := by
  intro c hc
  unfold stripSpace at hc
  split at hc
  · exact List.mem_cons_of_mem _ hc
  · exact hc

theorem mem_fieldValue {name line value : List Char} (h : fieldValue name line = some value) :
    ∀ c ∈ value, c ∈ line := by
  unfold fieldValue at h
  cases hsplit : splitColon line with
  | none =>
    simp only [hsplit, Option.getD_none] at h
    split at h
    · cases h
      exact fun c hc => absurd (mem_stripSpace [] c hc) List.not_mem_nil
    · simp at h
  | some p =>
    obtain ⟨field, raw⟩ := p
    simp only [hsplit, Option.getD_some] at h
    split at h
    · cases h
      exact fun c hc => mem_splitColon hsplit c (mem_stripSpace raw c hc)
    · simp at h

theorem sseLine_reads (h : Reads d)
    (hline : ∀ c ∈ line, c ≠ '\n' ∧ c ≠ '\r') : Reads (d.sseLine line) := by
  by_cases hempty : line = []
  · subst hempty
    rw [sseLine_nil]
    have hblank : Legible [] [] d.lastId := ⟨by simp, by simp, h.block.id⟩
    unfold dispatch
    split
    · exact ⟨h.ready, hblank⟩
    · refine ⟨?_, hblank⟩
      intro f hf
      obtain hf | hf := List.mem_append.1 hf
      · exact h.ready f hf
      · rw [List.mem_singleton] at hf
        subst hf
        exact h.block
  · rw [sseLine_of_ne_nil d hempty]
    refine ⟨h.ready, ?_, ?_, ?_⟩
    · cases hvalue : eventValue line with
      | none => exact h.block.event
      | some value => exact fun c hc => hline c (mem_fieldValue hvalue c hc)
    · cases hvalue : dataValue line with
      | none => exact h.block.data
      | some value =>
        intro c hc
        obtain hc | hc := List.mem_append.1 hc
        · split at hc
          · obtain hc | hc := List.mem_append.1 hc
            · exact h.block.data c hc
            · rw [List.mem_singleton] at hc
              subst hc
              decide
          · exact h.block.data c hc
        · exact (hline c (mem_fieldValue hvalue c hc)).2
    · cases hvalue : idValue line with
      | none => exact h.block.id
      | some value =>
        unfold idValue at hvalue
        rw [Option.bind_eq_some_iff] at hvalue
        obtain ⟨value', hfield, hvalue⟩ := hvalue
        split at hvalue
        · simp at hvalue
        · rename_i hnul
          cases hvalue
          intro c hc
          obtain ⟨hlf, hcr⟩ := hline c (mem_fieldValue hfield c hc)
          refine ⟨hlf, hcr, ?_⟩
          rintro rfl
          exact hnul (by simpa using hc)

theorem foldl_sseLine_reads (hlines : ∀ line ∈ lines, ∀ c ∈ line, c ≠ '\n' ∧ c ≠ '\r') (h : Reads d) :
    Reads (lines.foldl sseLine d) := by
  induction lines generalizing d with
  | nil => exact h
  | cons line lines ih =>
    exact ih (fun l hl => hlines l (List.mem_cons_of_mem _ hl))
      (sseLine_reads h (hlines line List.mem_cons_self))

theorem wire_head (item : Item) : ∃ c rest, item.wire = c :: rest ∧ c ≠ '\ufeff' := by
  cases item with
  | frame f =>
    obtain ⟨event, data, id, retry⟩ := f
    cases event with
    | cons c event => exact ⟨'e', _, rfl, by decide⟩
    | nil =>
      cases id with
      | cons c id => exact ⟨'i', _, rfl, by decide⟩
      | nil =>
        cases retry with
        | some n => exact ⟨'r', _, rfl, by decide⟩
        | none =>
          simp only [Item.wire, Sent.toSseWire, splitDataLines]
          cases data.splitOn '\n' with
          | nil => exact ⟨'\n', _, rfl, by decide⟩
          | cons piece pieces => exact ⟨'d', _, rfl, by decide⟩
  | comment text =>
    simp only [Item.wire, sseCommentWire]
    cases htext : text.splitOn '\n' with
    | nil => exact absurd htext (List.splitOn_ne_nil _ _)
    | cons piece pieces => exact ⟨':', _, rfl, by decide⟩

/-- Decoding what was written is taking its lines, from a decoder with nothing in it. -/
theorem decoded_eq (items : List Item) :
    ∃ d : FrameDecoder, Idle d ∧ d.ready = [] ∧ d.lastId = [] ∧
      decoded items =
        ((lineCutter.run (items.flatMap Item.wire)).1.foldl sseLine d).ready := by
  cases items with
  | nil =>
    refine ⟨{ framing := .sse }, ⟨rfl, rfl, rfl, rfl⟩, rfl, rfl, ?_⟩
    rw [List.flatMap_nil, lineCutter.run_none rfl]
    have hnone : takeLine false ({ framing := .sse } : FrameDecoder).buffer = none := rfl
    exact congrArg FrameDecoder.ready (drainLines_none hnone)
  | cons item items =>
    generalize hwire : (item :: items).flatMap Item.wire = wire
    have hhead : ∃ c rest, wire = c :: rest ∧ c ≠ '\ufeff' := by
      obtain ⟨c, rest, hitem, hc⟩ := wire_head item
      rw [List.flatMap_cons, hitem] at hwire
      exact ⟨c, _, hwire.symm, hc⟩
    obtain ⟨c, rest, hcons, hc⟩ := hhead
    have hbom : stripBom wire = wire := by
      rw [hcons]
      unfold stripBom
      split
      · rename_i heq
        simp only [List.cons.injEq] at heq
        exact absurd heq.1 hc
      · rfl
    have hcheck : checkBom (({ framing := .sse } : FrameDecoder).withBuffer wire) =
        { framing := .sse, buffer := wire, bomChecked := true } := by
      unfold checkBom withBuffer
      rw [if_neg (by simp), if_neg (by simp [hcons]), hbom]
    refine ⟨{ framing := .sse, buffer := wire, bomChecked := true }, ⟨rfl, rfl, rfl, rfl⟩, rfl,
      rfl, ?_⟩
    have hfeed : ({ framing := .sse } : FrameDecoder).feedStr wire =
        (checkBom (({ framing := .sse } : FrameDecoder).withBuffer wire)).drainLines false := rfl
    unfold decoded
    rw [hwire, hfeed, hcheck, drainLines_eq wire _ rfl, foldl_takeFrameLine _ rfl]
    rfl

theorem mem_expected {f : Sent} (h : Item.frame f ∈ items)
    (last : List Char) : ∃ last', f.seen last' ∈ expected last items := by
  induction items generalizing last with
  | nil => simp at h
  | cons item items ih =>
    obtain heq | hmem := List.mem_cons.1 h
    · subst heq
      exact ⟨last, List.mem_cons_self⟩
    · cases item with
      | frame g =>
        obtain ⟨last', hseen⟩ := ih hmem (g.seen last).id
        exact ⟨last', List.mem_cons_of_mem _ hseen⟩
      | comment text => exact ih hmem last

/-- Only frames that can be written come back. -/
theorem writable_of_roundTrips (h : RoundTrips items) : ∀ item ∈ items, item.Writable := by
  intro item hitem
  cases item with
  | comment text => trivial
  | frame f =>
    obtain ⟨d, hidle, hready, hlast, hdecoded⟩ := decoded_eq items
    have hreads : Reads d := by
      refine ⟨?_, ?_, ?_, ?_⟩
      · simp [hready]
      · simp [hidle.event]
      · simp [hidle.data]
      · simp [hlast]
    have hall := foldl_sseLine_reads (run_clean (items.flatMap Item.wire)) hreads
    obtain ⟨last, hmem⟩ := mem_expected hitem []
    rw [← h, hdecoded] at hmem
    obtain ⟨frame, hframe, hseen⟩ := List.mem_map.1 hmem
    have hlegible := hall.ready frame hframe
    simp only [Frame.seen, Sent.seen, Seen.mk.injEq] at hseen
    obtain ⟨hevent, hdata, hid, hretry⟩ := hseen
    refine ⟨hevent ▸ hlegible.event, hdata ▸ hlegible.data, ?_, ?_⟩
    · by_cases hempty : f.id = []
      · simp [hempty]
      · rw [if_neg (by simpa using hempty)] at hid
        exact hid ▸ hlegible.id
    · intro n hn
      have hn : f.retry = some n := hn
      rw [hn, Option.map_some, Option.map_eq_some_iff] at hretry
      obtain ⟨m, -, hm⟩ := hretry
      rw [Int.ofNat_eq_natCast] at hm
      omega

theorem roundTrips_iff_harmless (h : ∀ item ∈ items, item.Writable) :
    RoundTrips items ↔ Harmless [] [] items := by
  obtain ⟨d, hidle, hready, hlast, hdecoded⟩ := decoded_eq items
  have hitems := foldl_items_iff h [] hidle
  rw [hready, hlast, List.foldl_nil, List.map_nil, List.nil_append] at hitems
  rw [← hitems, RoundTrips, hdecoded, run_wire h]

/-- **When server-sent events round-trip**: what is written comes back, frame for frame, exactly
when every frame can be written and every stray line that a `\r` leaves in a comment is harmless. -/
theorem roundTrips_iff (items : List Item) :
    RoundTrips items ↔ (∀ item ∈ items, item.Writable) ∧ Harmless [] [] items := by
  constructor
  · intro h
    exact ⟨writable_of_roundTrips h, (roundTrips_iff_harmless (writable_of_roundTrips h)).1 h⟩
  · rintro ⟨hwritable, hharmless⟩
    exact (roundTrips_iff_harmless hwritable).2 hharmless

/-- A name with a line feed comes back cut short, and a comment with a `\r` in it writes an event. -/
theorem roundTrips_fails :
    ¬RoundTrips [.frame { event := "a\nb".toList, data := "x".toList }] ∧
      ¬RoundTrips [.comment "keepalive\rdata: injected\r\r".toList] := by
  constructor
  · intro h
    have hwritable : Sent.Writable _ := writable_of_roundTrips h _ List.mem_cons_self
    exact (hwritable.event '\n' (by decide)).1 rfl
  · intro h
    have hharmless := (roundTrips_iff_harmless (writable_of_roundTrips h)).1 h
    have hstray : Undispatched ["data: injected".toList, []] := hharmless
    revert hstray
    unfold Undispatched
    decide

end Noeta.Stream
