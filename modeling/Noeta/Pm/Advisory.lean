import Noeta.Lib.Terminated
import Mathlib.Data.List.Sort
import Mathlib.Data.String.Basic

/-!
# Signed records

The bytes that are signed for an advisory, for a release in the transparency log and for the advisory
feed: fields with a newline after each and nothing escaped. A field may hold newlines itself, so the bytes
of a record may be those of another record, or of several.
-/

namespace Noeta.Pm

open Noeta.Lib

/-! ## Records -/

inductive AdvisoryTier where
  | operator
  | publisher
  | imported
deriving DecidableEq

def AdvisoryTier.asStr : AdvisoryTier → String
  | .operator => "operator"
  | .publisher => "publisher"
  | .imported => "imported"

/-- An advisory, as far as its canonical bytes read it. -/
structure Advisory where
  id : String
  package : String
  ranges : String
  severity : String
  summary : String
  details : String
  url : String
  withdrawn : Bool
  tier : AdvisoryTier
deriving DecidableEq

def hexDigit (n : Nat) : Char := if n < 10 then Char.ofNat (n + 48) else Char.ofNat (n + 87)

def hexEncode (bytes : List UInt8) : List Char :=
  bytes.flatMap fun b => [hexDigit (b.toNat / 16), hexDigit (b.toNat % 16)]

def advisoryPrefix : String := "noeta-advisory-v1"

def logPrefix : String := "noeta-transparency-log-v1"

def Advisory.state (a : Advisory) : String := if a.withdrawn then "withdrawn" else "active"

/-- A text of fields, each with a newline at its end. -/
abbrev linesOf (fields : List (List Char)) : List Char := terminated '\n' fields

section Digest

variable (sha256 : String → List UInt8)

def Advisory.detailsHash (a : Advisory) : List Char := hexEncode (sha256 a.details)

/-- The fields of the signed record, in their order. -/
def Advisory.fields (a : Advisory) : List (List Char) :=
  [advisoryPrefix.toList, a.id.toList, a.package.toList, a.ranges.toList, a.severity.toList,
    a.state.toList, a.summary.toList, a.detailsHash sha256, a.url.toList, a.tier.asStr.toList]

def Advisory.canonicalBytes (a : Advisory) : List Char := linesOf (a.fields sha256)

/-- What the feed digest is taken of. -/
def feedBytes (advisories : List Advisory) : List Char :=
  (advisories.mergeSort fun a b => a.id ≤ b.id).flatMap (·.canonicalBytes sha256)

end Digest

def logRecord (name version url tag sha provenance license : String) : List Char :=
  linesOf [logPrefix.toList, name.toList, version.toList, url.toList, tag.toList, sha.toList,
    provenance.toList, license.toList]

/-! ## Lines -/

theorem not_mem_hexEncode (bytes : List UInt8) : '\n' ∉ hexEncode bytes := by
  have hdigit : ∀ n < 16, hexDigit n ≠ '\n' := by decide
  intro hmem
  obtain ⟨b, _, hc⟩ := List.mem_flatMap.mp hmem
  have hb := b.toNat_lt
  simp only [List.mem_cons, List.not_mem_nil, or_false] at hc
  obtain hc | hc := hc
  · exact hdigit _ (by omega) hc.symm
  · exact hdigit _ (by omega) hc.symm

theorem not_mem_stateWord (w : Bool) :
    '\n' ∉ (if w then "withdrawn" else "active").toList := by
  cases w <;> decide

theorem not_mem_tier (t : AdvisoryTier) : '\n' ∉ t.asStr.toList := by
  cases t <;> decide

theorem asStr_injective : Function.Injective AdvisoryTier.asStr := by
  intro s t h
  cases s <;> cases t <;> first | rfl | exact absurd h (by decide)

/-- The text of some lines. -/
def joined (lines : List (List Char)) : String := String.ofList (['\n'].intercalate lines)

theorem splitOn_joined {lines : List (List Char)} (hne : lines ≠ [])
    (h : ∀ line ∈ lines, '\n' ∉ line) : (joined lines).toList.splitOn '\n' = lines := by
  rw [joined, String.toList_ofList, List.splitOn_intercalate '\n' h hne]

theorem eq_of_splitOn_eq {s t : String} (h : s.toList.splitOn '\n' = t.toList.splitOn '\n') :
    s = t := String.toList_inj.mp (splitOn_injective h)

section Digest

variable (sha256 : String → List UInt8)

/-- The state line of an advisory. -/
def stateLine (w : Bool) : List Char := (if w then "withdrawn" else "active").toList

/-- The lines of a record from four fields, a state, a summary, a digest, a link and a tier. -/
def recordLines (front : List (List Char)) (w : Bool) (middle : List (List Char)) (details : String)
    (back : List (List Char)) (t : AdvisoryTier) : List (List Char) :=
  advisoryPrefix.toList :: (front ++ stateLine w :: (middle ++ hexEncode (sha256 details) ::
    (back ++ [t.asStr.toList])))

/-- The lines of the four fields before the state. -/
def Advisory.front (a : Advisory) : List (List Char) :=
  fieldLines '\n' [a.id.toList, a.package.toList, a.ranges.toList, a.severity.toList]

theorem fieldLines_fields (a : Advisory) :
    fieldLines '\n' (a.fields sha256) =
      recordLines sha256 a.front a.withdrawn (a.summary.toList.splitOn '\n') a.details
        (a.url.toList.splitOn '\n') a.tier := by
  have hprefix : advisoryPrefix.toList.splitOn '\n' = [advisoryPrefix.toList] :=
    List.splitOn_eq_singleton (by decide)
  have hstate : a.state.toList.splitOn '\n' = [stateLine a.withdrawn] :=
    List.splitOn_eq_singleton (not_mem_stateWord a.withdrawn)
  have hhash : (a.detailsHash sha256).splitOn '\n' = [hexEncode (sha256 a.details)] :=
    List.splitOn_eq_singleton (not_mem_hexEncode _)
  have htier : a.tier.asStr.toList.splitOn '\n' = [a.tier.asStr.toList] :=
    List.splitOn_eq_singleton (not_mem_tier a.tier)
  simp [Advisory.fields, Advisory.front, fieldLines, recordLines, hprefix, hstate, hhash, htier]

theorem canonicalBytes_eq_iff (a b : Advisory) :
    a.canonicalBytes sha256 = b.canonicalBytes sha256 ↔
      fieldLines '\n' (a.fields sha256) = fieldLines '\n' (b.fields sha256) :=
  terminated_eq_iff

/-! ## One advisory -/

/-- The signed fields of two advisories are equal. -/
structure SameRecord (a b : Advisory) : Prop where
  id : a.id = b.id
  package : a.package = b.package
  ranges : a.ranges = b.ranges
  severity : a.severity = b.severity
  withdrawn : a.withdrawn = b.withdrawn
  summary : a.summary = b.summary
  details : a.detailsHash sha256 = b.detailsHash sha256
  url : a.url = b.url
  tier : a.tier = b.tier

/-- The lines of the record can be read in one way: a line with a state word that has four lines or more
before it, and a later line with a digest, are the state and the digest of the record itself. -/
def OneReading (a : Advisory) : Prop :=
  ∀ front w middle details back t,
    fieldLines '\n' (a.fields sha256) = recordLines sha256 front w middle details back t →
    4 ≤ front.length → middle ≠ [] → back ≠ [] →
    front.length = 4 ∧ middle.length = (a.summary.toList.splitOn '\n').length

theorem length_front (a : Advisory) : 4 ≤ a.front.length :=
  length_le_fieldLines [a.id.toList, a.package.toList, a.ranges.toList, a.severity.toList]

theorem front_eq_of_length {a : Advisory} (h : a.front.length = 4) :
    a.front = [a.id.toList, a.package.toList, a.ranges.toList, a.severity.toList] :=
  fieldLines_eq_self (not_mem_of_length_fieldLines h)

theorem stateLine_injective {w w' : Bool} (h : stateLine w = stateLine w') : w = w' := by
  cases w <;> cases w' <;> first | rfl | exact absurd h (by decide)

theorem recordLines_inj {front front' middle middle' back back' : List (List Char)} {w w' : Bool}
    {details details' : String} {t t' : AdvisoryTier}
    (h : recordLines sha256 front w middle details back t =
      recordLines sha256 front' w' middle' details' back' t')
    (hfront : front.length = front'.length) (hmiddle : middle.length = middle'.length) :
    front = front' ∧ w = w' ∧ middle = middle' ∧
      hexEncode (sha256 details) = hexEncode (sha256 details') ∧ back = back' ∧ t = t' := by
  obtain ⟨hfronts, hrest⟩ := List.append_inj (List.cons.inj h).2 hfront
  obtain ⟨hstate, hrest⟩ := List.cons.inj hrest
  obtain ⟨hmiddles, hrest⟩ := List.append_inj hrest hmiddle
  obtain ⟨hdigest, hrest⟩ := List.cons.inj hrest
  obtain ⟨hbacks, htier⟩ := List.append_inj' hrest rfl
  have hasStr := String.toList_inj.mp (List.singleton_inj.mp htier)
  exact ⟨hfronts, stateLine_injective hstate, hmiddles, hdigest, hbacks, asStr_injective hasStr⟩

theorem not_mem_of_reading {a : Advisory} {lines : List (List Char)}
    (h : fieldLines '\n' (a.fields sha256) = lines) : ∀ line ∈ lines, '\n' ∉ line := by
  intro line hline
  rw [← h] at hline
  exact not_mem_of_mem_fieldLines hline

theorem exists_of_reading {one two three four middle back : List (List Char)} (w : Bool)
    (details : String) (t : AdvisoryTier)
    (hclear : ∀ line ∈ recordLines sha256 (one ++ (two ++ (three ++ four))) w middle details back t,
      '\n' ∉ line)
    (hone : one ≠ []) (htwo : two ≠ []) (hthree : three ≠ []) (hfour : four ≠ [])
    (hmiddle : middle ≠ []) (hback : back ≠ []) :
    ∃ b : Advisory, fieldLines '\n' (b.fields sha256) =
        recordLines sha256 (one ++ (two ++ (three ++ four))) w middle details back t ∧
      b.id.toList.splitOn '\n' = one ∧ b.severity.toList.splitOn '\n' = four ∧
      b.summary.toList.splitOn '\n' = middle := by
  have hmem : ∀ lines : List (List Char), lines ⊆
      recordLines sha256 (one ++ (two ++ (three ++ four))) w middle details back t →
      ∀ line ∈ lines, '\n' ∉ line := fun lines hsub line hline => hclear line (hsub hline)
  have h1 := splitOn_joined hone (hmem one (by intro x hx; simp [recordLines, hx]))
  have h2 := splitOn_joined htwo (hmem two (by intro x hx; simp [recordLines, hx]))
  have h3 := splitOn_joined hthree (hmem three (by intro x hx; simp [recordLines, hx]))
  have h4 := splitOn_joined hfour (hmem four (by intro x hx; simp [recordLines, hx]))
  have h5 := splitOn_joined hmiddle (hmem middle (by intro x hx; simp [recordLines, hx]))
  have h6 := splitOn_joined hback (hmem back (by intro x hx; simp [recordLines, hx]))
  refine ⟨⟨joined one, joined two, joined three, joined four, joined middle, details, joined back, w,
    t⟩, ?_, h1, h4, h5⟩
  rw [fieldLines_fields, h5, h6, Advisory.front]
  simp only [fieldLines, List.flatMap_cons, List.flatMap_nil, h1, h2, h3, h4, List.append_nil]

/-- The bytes of an advisory determine its signed fields exactly when its lines have one reading. -/
theorem canonicalBytes_determine_iff (a : Advisory) :
    (∀ b : Advisory, b.canonicalBytes sha256 = a.canonicalBytes sha256 → SameRecord sha256 b a) ↔
      OneReading sha256 a := by
  have hown := fieldLines_fields sha256 a
  constructor
  · intro hdetermined front w middle details back t hlines hfront hmiddle hback
    have hclear := not_mem_of_reading sha256 hlines
    match front, hfront with
    | one :: two :: three :: four :: rest, _ =>
      have hsplit : one :: two :: three :: four :: rest = [one] ++ ([two] ++ ([three] ++ (four :: rest))) :=
        rfl
      rw [hsplit] at hlines hclear
      obtain ⟨b, hb, hid, hseverity, hsummary⟩ := exists_of_reading sha256 w details t hclear
        (List.cons_ne_nil _ _) (List.cons_ne_nil _ _) (List.cons_ne_nil _ _) (List.cons_ne_nil _ _)
        hmiddle hback
      have hsame := hdetermined b ((canonicalBytes_eq_iff sha256 b a).mpr (hb.trans hlines.symm))
      refine ⟨?_, by rw [← hsummary, hsame.summary]⟩
      -- with a fifth line the identity could as well take two lines
      cases rest with
      | nil => rfl
      | cons five rest =>
        have hsplit : [one] ++ ([two] ++ ([three] ++ (four :: five :: rest))) =
            [one, two] ++ ([three] ++ ([four] ++ (five :: rest))) := rfl
        rw [hsplit] at hlines hclear
        obtain ⟨c, hc, hid', _, _⟩ := exists_of_reading sha256 w details t hclear
          (List.cons_ne_nil _ _) (List.cons_ne_nil _ _) (List.cons_ne_nil _ _)
          (List.cons_ne_nil _ _) hmiddle hback
        have hsame' := hdetermined c ((canonicalBytes_eq_iff sha256 c a).mpr (hc.trans hlines.symm))
        rw [hsame'.id, ← hsame.id, hid] at hid'
        cases hid'
  · intro hone b hb
    have hlines := (canonicalBytes_eq_iff sha256 b a).mp hb
    have hblines := fieldLines_fields sha256 b
    obtain ⟨hfrontA, _⟩ := hone _ _ _ _ _ _ hown (length_front a) (List.splitOn_ne_nil _ _)
      (List.splitOn_ne_nil _ _)
    obtain ⟨hfrontB, hmiddle⟩ := hone _ _ _ _ _ _ (hlines.symm.trans hblines) (length_front b)
      (List.splitOn_ne_nil _ _) (List.splitOn_ne_nil _ _)
    obtain ⟨hfront, hwithdrawn, hsummary, hdetails, hurl, htier⟩ := recordLines_inj sha256
      (hblines.symm.trans (hlines.trans hown)) (hfrontB.trans hfrontA.symm) hmiddle
    rw [front_eq_of_length hfrontA, front_eq_of_length hfrontB] at hfront
    simp only [List.cons.injEq, String.toList_inj, and_true] at hfront
    obtain ⟨hid, hpackage, hranges, hseverity⟩ := hfront
    exact ⟨hid, hpackage, hranges, hseverity, hwithdrawn, eq_of_splitOn_eq hsummary, hdetails,
      eq_of_splitOn_eq hurl, htier⟩

/-! ## The feed -/

theorem exists_canonicalBytes_append (a b : Advisory) :
    ∃ c : Advisory, c.canonicalBytes sha256 = a.canonicalBytes sha256 ++ b.canonicalBytes sha256 ∧
      c.id = a.id := by
  refine ⟨{ a with
    url := String.ofList (a.url.toList ++ '\n' :: (a.tier.asStr.toList ++ '\n' ::
      (linesOf [advisoryPrefix.toList, b.id.toList, b.package.toList, b.ranges.toList,
        b.severity.toList, b.state.toList, b.summary.toList, b.detailsHash sha256] ++ b.url.toList)))
    tier := b.tier }, ?_, rfl⟩
  simp [Advisory.canonicalBytes, Advisory.fields, Advisory.state, Advisory.detailsHash, terminated]

theorem exists_canonicalBytes_flatten (a : Advisory) (rest : List Advisory) :
    ∃ c : Advisory, c.canonicalBytes sha256 =
      (a :: rest).flatMap (·.canonicalBytes sha256) ∧ c.id = a.id := by
  induction rest generalizing a with
  | nil =>
    refine ⟨a, ?_, rfl⟩
    rw [List.flatMap_cons, List.flatMap_nil, List.append_nil]
  | cons b rest ih =>
    obtain ⟨c, hc, _⟩ := ih b
    obtain ⟨d, hd, hid⟩ := exists_canonicalBytes_append sha256 a c
    refine ⟨d, ?_, hid⟩
    rw [hd, hc]
    rfl

/-- The lines of the record are those of two, in the order of their identities. -/
def Splits (a : Advisory) : Prop :=
  ∃ b c : Advisory, b.id ≤ c.id ∧ fieldLines '\n' (a.fields sha256) =
    fieldLines '\n' (b.fields sha256) ++ fieldLines '\n' (c.fields sha256)

theorem splits_iff (a : Advisory) :
    Splits sha256 a ↔ ∃ b c : Advisory, b.id ≤ c.id ∧
      a.canonicalBytes sha256 = b.canonicalBytes sha256 ++ c.canonicalBytes sha256 := by
  have hiff : ∀ b c : Advisory, fieldLines '\n' (a.fields sha256) =
        fieldLines '\n' (b.fields sha256) ++ fieldLines '\n' (c.fields sha256) ↔
      a.canonicalBytes sha256 = b.canonicalBytes sha256 ++ c.canonicalBytes sha256 := by
    intro b c
    rw [← fieldLines_append, ← terminated_eq_iff]
    simp only [terminated_append, Advisory.canonicalBytes]
  simp only [Splits, hiff]

theorem canonicalBytes_ne_nil (a : Advisory) : a.canonicalBytes sha256 ≠ [] := by
  simp [Advisory.canonicalBytes, Advisory.fields, terminated]

theorem pairwise_feed (advisories : List Advisory) :
    (advisories.mergeSort fun a b => a.id ≤ b.id).Pairwise fun a b => decide (a.id ≤ b.id) = true := by
  apply List.pairwise_mergeSort
  · intro a b c hab hbc
    simp only [decide_eq_true_eq] at hab hbc ⊢
    exact le_trans hab hbc
  · intro a b
    rw [Bool.or_eq_true, decide_eq_true_eq, decide_eq_true_eq]
    exact le_total a.id b.id

/-- The bytes of a feed determine its records exactly when it is empty or has one advisory that does not
fall into two. -/
theorem feedBytes_determine_iff (as : List Advisory) :
    (∀ bs, feedBytes sha256 bs = feedBytes sha256 as →
        (bs.map (·.canonicalBytes sha256)).Perm (as.map (·.canonicalBytes sha256))) ↔
      as = [] ∨ ∃ a, as = [a] ∧ ¬ Splits sha256 a := by
  have hsingle : ∀ a : Advisory, feedBytes sha256 [a] = a.canonicalBytes sha256 := by
    intro a
    rw [feedBytes, List.mergeSort_singleton, List.flatMap_cons, List.flatMap_nil, List.append_nil]
  constructor
  · intro h
    match as with
    | [] => exact Or.inl rfl
    | [a] =>
      refine Or.inr ⟨a, rfl, fun hsplits => ?_⟩
      obtain ⟨b, c, hle, hbytes⟩ := (splits_iff sha256 a).mp hsplits
      have hsorted : [b, c].mergeSort (fun a b => decide (a.id ≤ b.id)) = [b, c] := by
        apply List.mergeSort_of_pairwise
        simpa using hle
      have hperm := h [b, c] (by simp [feedBytes, hsorted, hbytes])
      have hlength := hperm.length_eq
      cases hlength
    | a :: b :: rest =>
      have hsortedLength := (List.mergeSort_perm (a :: b :: rest) fun a b =>
        decide (a.id ≤ b.id)).length_eq
      cases hsorted : (a :: b :: rest).mergeSort (fun a b => decide (a.id ≤ b.id)) with
      | nil =>
        rw [hsorted] at hsortedLength
        cases hsortedLength
      | cons first others =>
        obtain ⟨c, hc, _⟩ := exists_canonicalBytes_flatten sha256 first others
        have hperm := h [c] (by rw [hsingle, hc, feedBytes, hsorted])
        have hlength := hperm.length_eq
        simp only [List.length_map, List.length_cons, List.length_nil] at hlength
        omega
  · intro h bs hbytes
    have hperm := List.mergeSort_perm bs fun a b => decide (a.id ≤ b.id)
    have hmap := hperm.map (·.canonicalBytes sha256)
    have hpairwise := pairwise_feed bs
    rw [feedBytes] at hbytes
    cases hsorted : bs.mergeSort (fun a b => decide (a.id ≤ b.id)) with
    | nil =>
      rw [hsorted, List.flatMap_nil] at hbytes
      obtain rfl | ⟨a, rfl, _⟩ := h
      · rw [hsorted] at hmap
        exact hmap.symm
      · rw [hsingle] at hbytes
        exact absurd hbytes.symm (canonicalBytes_ne_nil sha256 a)
    | cons b rest =>
      rw [hsorted] at hbytes hmap hpairwise
      obtain rfl | ⟨a, rfl, hwhole⟩ := h
      · have hempty : feedBytes sha256 [] = [] := by
          rw [feedBytes, List.mergeSort_nil, List.flatMap_nil]
        rw [List.flatMap_cons, hempty] at hbytes
        exact absurd (List.append_eq_nil_iff.mp hbytes).1 (canonicalBytes_ne_nil sha256 b)
      · rw [hsingle] at hbytes
        cases rest with
        | nil =>
          rw [List.flatMap_cons, List.flatMap_nil, List.append_nil] at hbytes
          rw [List.map_singleton, hbytes] at hmap
          exact hmap.symm
        | cons c rest =>
          obtain ⟨d, hd, hid⟩ := exists_canonicalBytes_flatten sha256 c rest
          have hle : b.id ≤ d.id := by
            rw [hid]
            exact of_decide_eq_true ((List.pairwise_cons.mp hpairwise).1 c List.mem_cons_self)
          refine absurd ((splits_iff sha256 a).mpr ⟨b, d, hle, ?_⟩) hwhole
          rw [← hbytes, hd, List.flatMap_cons]

end Digest

/-! ## Releases -/

theorem logRecord_determine_iff (name version url tag sha provenance license : String) :
    (∀ name' version' url' tag' sha' provenance' license',
        logRecord name' version' url' tag' sha' provenance' license' =
          logRecord name version url tag sha provenance license →
        name' = name ∧ version' = version ∧ url' = url ∧ tag' = tag ∧ sha' = sha ∧
          provenance' = provenance ∧ license' = license) ↔
      ∀ field ∈ [name, version, url, tag, sha, provenance, license], '\n' ∉ field.toList := by
  have hrecord : ∀ a b c d e f g : String, logRecord a b c d e f g =
      logPrefix.toList ++ ['\n'] ++ terminated '\n' ([a, b, c, d, e, f, g].map String.toList) :=
    fun _ _ _ _ _ _ _ => rfl
  have hiff := @terminated_determined_iff Char _ '\n'
    ([name, version, url, tag, sha, provenance, license].map String.toList) (by simp)
  rw [List.forall_mem_map] at hiff
  rw [← hiff]
  constructor
  · intro h gs hlen hbytes
    match gs, hlen with
    | [a, b, c, d, e, f, g], _ =>
      obtain ⟨ha, hb, hc, hd, he, hf, hg⟩ := h (String.ofList a) (String.ofList b)
        (String.ofList c) (String.ofList d) (String.ofList e) (String.ofList f) (String.ofList g) (by
          rw [hrecord, hrecord, ← hbytes]
          simp)
      subst ha hb hc hd he hf hg
      simp
  · intro h a b c d e f g hbytes
    rw [hrecord, hrecord] at hbytes
    have hsame := h ([a, b, c, d, e, f, g].map String.toList) rfl (List.append_cancel_left hbytes)
    simpa [String.toList_inj] using hsame

/-- What the signed bytes determine: one advisory with one reading, a release without newlines, and a feed
that is no more than one advisory which does not fall into two. -/
theorem signed_bytes_determine_iff (sha256 : String → List UInt8) :
    (∀ a : Advisory,
      (∀ b : Advisory, b.canonicalBytes sha256 = a.canonicalBytes sha256 → SameRecord sha256 b a) ↔
        OneReading sha256 a) ∧
    (∀ name version url tag sha provenance license : String,
      (∀ name' version' url' tag' sha' provenance' license',
          logRecord name' version' url' tag' sha' provenance' license' =
            logRecord name version url tag sha provenance license →
          name' = name ∧ version' = version ∧ url' = url ∧ tag' = tag ∧ sha' = sha ∧
            provenance' = provenance ∧ license' = license) ↔
        ∀ field ∈ [name, version, url, tag, sha, provenance, license], '\n' ∉ field.toList) ∧
    ∀ as : List Advisory,
      (∀ bs, feedBytes sha256 bs = feedBytes sha256 as →
          (bs.map (·.canonicalBytes sha256)).Perm (as.map (·.canonicalBytes sha256))) ↔
        as = [] ∨ ∃ a, as = [a] ∧ ¬ Splits sha256 a :=
  ⟨canonicalBytes_determine_iff sha256, logRecord_determine_iff, feedBytes_determine_iff sha256⟩

/-- An advisory that is in force, and one that is withdrawn, with the same signed bytes. -/
theorem canonicalBytes_hide_withdrawal :
    ¬ ∃ sha256 : String → List UInt8, ∀ a b : Advisory,
      a.canonicalBytes sha256 = b.canonicalBytes sha256 → SameRecord sha256 a b := by
  intro ⟨sha256, h⟩
  have hsame := h
    ⟨"NOETA-2026-0001", "acme/json", "<1.2.3", "high", "withdrawn\nOverflow", "", "", false,
      .operator⟩
    ⟨"NOETA-2026-0001", "acme/json", "<1.2.3", "high\nactive", "Overflow", "", "", true, .operator⟩
    (by simp [Advisory.canonicalBytes, Advisory.fields, Advisory.state, Advisory.detailsHash,
      terminated])
  cases hsame.withdrawn

end Noeta.Pm
