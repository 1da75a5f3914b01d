import Mathlib.Algebra.Order.Group.Unbundled.Int
import Noeta.Ext.Signature

/-!
# Verification on hostile headers

What an attacker writes into the headers is parsed before the tag is checked. The parsers never slice
out of range, and what verifies is fresh; only the age of a signature can be too large a number.
-/

namespace Noeta.Ext

open Noeta.Lib.Rfc3986 (Text)
open Noeta.Lib.Utf8 (encode)

/-! ### The parsers answer -/

theorem parseInputMember_total (member : Text) : ∃ parsed, parseInputMember member = some parsed := by
  unfold parseInputMember
  split
  · exact ⟨none, rfl⟩
  · rename_i label value _
    simp only
    generalize trim value = value
    split
    · exact ⟨none, rfl⟩
    · rename_i close hclose
      split
      · rename_i inner
        obtain ⟨hlt, hparen, -⟩ := List.idxOf?_eq_some_iff.1 hclose
        have hpos : close ≠ 0 := by
          rintro rfl
          simp at hparen
        rw [List.length_cons] at hlt
        have hstop : sliceTo inner (close - 1) = some (inner.take (close - 1)) :=
          if_pos (by omega)
        have hrest : sliceFrom ('(' :: inner) (close + 1) = some (('(' :: inner).drop (close + 1)) :=
          if_pos (by rw [List.length_cons]; omega)
        rw [if_neg hpos, hrest]
        simp only [Option.bind_eq_bind, Option.bind_some, hstop]
        exact ⟨_, rfl⟩
      · exact ⟨none, rfl⟩

theorem mapM_total {α β : Type} {f : α → Option β} (h : ∀ x, ∃ y, f x = some y) (l : List α) :
    ∃ ys, l.mapM f = some ys := by
  induction l with
  | nil => exact ⟨[], rfl⟩
  | cons x l ih =>
    obtain ⟨y, hy⟩ := h x
    obtain ⟨ys, hys⟩ := ih
    exact ⟨y :: ys, by rw [List.mapM_cons, hy, hys]; rfl⟩

theorem parseSignatureInput_total (header : Text) :
    ∃ inputs, parseSignatureInput header = some inputs := by
  obtain ⟨members, hmembers⟩ := mapM_total parseInputMember_total (splitDictionary header)
  exact ⟨members.filterMap id, by rw [parseSignatureInput, hmembers]; rfl⟩

/-! ### One label -/

section

variable (prim : Primitives) (request : NetRequest) (secret : List UInt8) (now : Int)
  (maxAge : Option Int)

/-- What it takes for a signature to verify. -/
structure Verifies (params : SignatureParams) (tag : List UInt8) : Prop where
  unexpired : ∀ expires ∈ params.expires, now ≤ expires
  fresh : ∀ window ∈ maxAge, ∃ created ∈ params.created, |now - created| ≤ window
  signed : ∃ alg base, params.algorithm = some alg ∧ signatureBase request params = .ok base ∧
    alg.tag prim secret (encode base) = tag

/-- The age is computed, and it is too large a number. -/
structure TooOld (params : SignatureParams) : Prop where
  known : params.algorithm ≠ none
  unexpired : ∀ expires ∈ params.expires, now ≤ expires
  window : maxAge ≠ none
  age : ∃ created ∈ params.created, 2 ^ 63 ≤ |now - created|

variable {prim request secret}

theorem checkedI64_natAbs (n : Int) :
    ((checkedI64 n).bind fun n => checkedI64 (n.natAbs : Int)) =
      if |n| < 2 ^ 63 then some |n| else none := by
  have hnonneg := abs_nonneg n
  unfold checkedI64
  by_cases hlt : |n| < 2 ^ 63
  · obtain ⟨hlo, hhi⟩ := abs_lt.1 hlt
    rw [if_pos hlt, if_pos ⟨by omega, hhi⟩, Option.bind_some, Int.natCast_natAbs,
      if_pos ⟨by omega, hlt⟩]
  · rw [if_neg hlt]
    split
    · rw [Option.bind_some, Int.natCast_natAbs, if_neg fun h => hlt h.2]
    · rfl

theorem freshness_eq (params : SignatureParams) :
    freshness params now maxAge =
      if params.expires.any (· < now) then some (some .stale)
      else
        match maxAge, params.created with
        | none, _ => some none
        | some _, none => some (some .stale)
        | some window, some created =>
          if |now - created| < 2 ^ 63 then
            some (if |now - created| > window then some .stale else none)
          else none := by
  unfold freshness
  split
  · rfl
  · cases maxAge with
    | none => rfl
    | some window =>
      cases params.created with
      | none => rfl
      | some created =>
        have hage := checkedI64_natAbs (now - created)
        have hassoc (f : Int → Option (Option VerifyFailure)) :
            ((checkedI64 (now - created)).bind fun n => (checkedI64 (n.natAbs : Int)).bind f) =
              ((checkedI64 (now - created)).bind fun n => checkedI64 (n.natAbs : Int)).bind f := by
          rw [Option.bind_assoc]
        simp only [Option.bind_eq_bind, pure]
        rw [hassoc, hage]
        split
        · rfl
        · rfl

theorem any_expired (params : SignatureParams) :
    params.expires.any (· < now) = true ↔ ¬ ∀ expires ∈ params.expires, now ≤ expires := by
  cases params.expires <;> simp

theorem freshness_eq_none (params : SignatureParams) :
    freshness params now maxAge = none ↔ (∀ expires ∈ params.expires, now ≤ expires) ∧
      maxAge ≠ none ∧ ∃ created ∈ params.created, 2 ^ 63 ≤ |now - created| := by
  rw [freshness_eq]
  by_cases hexp : params.expires.any (· < now) = true
  · rw [if_pos hexp]
    exact iff_of_false (by simp) fun h => (any_expired now params).1 hexp h.1
  · have hyes := not_not.1 (mt (any_expired now params).2 hexp)
    rw [if_neg hexp]
    cases maxAge <;> cases params.created
    · simp
    · simp
    · simp
    · rename_i window created
      simp only [Option.mem_some_iff, exists_eq_left']
      by_cases hage : |now - created| < 2 ^ 63
      · rw [if_pos hage]
        exact iff_of_false (by simp) fun h => absurd h.2.2 (by omega)
      · rw [if_neg hage]
        exact iff_of_true rfl ⟨hyes, by simp, by omega⟩

theorem freshness_eq_passed (hwindow : ∀ window ∈ maxAge, window < 2 ^ 63) (params : SignatureParams) :
    freshness params now maxAge = some none ↔ (∀ expires ∈ params.expires, now ≤ expires) ∧
      ∀ window ∈ maxAge, ∃ created ∈ params.created, |now - created| ≤ window := by
  rw [freshness_eq]
  by_cases hexp : params.expires.any (· < now) = true
  · rw [if_pos hexp]
    exact iff_of_false (by simp) fun h => (any_expired now params).1 hexp h.1
  · have hyes := not_not.1 (mt (any_expired now params).2 hexp)
    rw [if_neg hexp]
    cases maxAge with
    | none => simpa using hyes
    | some window =>
      have hlt := hwindow window rfl
      cases params.created with
      | none => simp
      | some created =>
        simp only [Option.mem_some_iff, forall_eq', exists_eq_left']
        by_cases hage : |now - created| ≤ window
        · have hlt : |now - created| < 2 ^ 63 := by omega
          rw [if_pos hlt, if_neg (not_lt.2 hage)]
          exact iff_of_true rfl ⟨hyes, hage⟩
        · refine iff_of_false ?_ fun h => hage h.2
          split
          · rw [if_pos (by omega)]
            simp
          · simp

variable (prim request secret)

theorem verifyOne_eq_none (params : SignatureParams) (tag : List UInt8) :
    verifyOne prim request secret params tag now maxAge = none ↔ TooOld now maxAge params := by
  unfold verifyOne
  cases halg : params.algorithm with
  | none => exact iff_of_false (by simp) fun h => h.known halg
  | some alg =>
    have hfresh := freshness_eq_none now maxAge params
    have hold : TooOld now maxAge params ↔ freshness params now maxAge = none := by
      rw [hfresh]
      exact ⟨fun h => ⟨h.unexpired, h.window, h.age⟩, fun h => ⟨by simp [halg], h.1, h.2.1, h.2.2⟩⟩
    rw [hold]
    cases freshness params now maxAge with
    | none => exact iff_of_true rfl rfl
    | some verdict =>
      refine iff_of_false ?_ (by simp)
      cases verdict with
      | some failure => simp
      | none =>
        simp only [Option.bind_eq_bind, Option.bind_some]
        split <;> simp

variable {maxAge}

theorem verifyOne_eq_ok (hwindow : ∀ window ∈ maxAge, window < 2 ^ 63) (params : SignatureParams)
    (tag : List UInt8) :
    verifyOne prim request secret params tag now maxAge = some (.ok ()) ↔
      Verifies prim request secret now maxAge params tag := by
  unfold verifyOne
  have hfresh := freshness_eq_passed now maxAge hwindow params
  cases halg : params.algorithm with
  | none =>
    refine iff_of_false (by simp) fun h => ?_
    obtain ⟨alg, _, h, -⟩ := h.signed
    simp [halg] at h
  | some alg =>
    have hverifies : Verifies prim request secret now maxAge params tag ↔
        freshness params now maxAge = some none ∧
          ∃ base, signatureBase request params = .ok base ∧ alg.tag prim secret (encode base) = tag := by
      rw [hfresh]
      constructor
      · intro h
        obtain ⟨alg', base, halg', hsigned⟩ := h.signed
        rw [halg, Option.some.injEq] at halg'
        exact ⟨⟨h.unexpired, h.fresh⟩, base, halg' ▸ hsigned⟩
      · rintro ⟨h, base, hsigned⟩
        exact ⟨h.1, h.2, alg, base, halg, hsigned⟩
    rw [hverifies]
    cases freshness params now maxAge with
    | none => exact iff_of_false (by simp) (by simp)
    | some verdict =>
      cases verdict with
      | some failure => exact iff_of_false (by simp) (by simp)
      | none =>
        simp only [Option.bind_eq_bind, Option.bind_some, true_and]
        cases hbase : signatureBase request params with
        | error e => simp
        | ok base =>
          simp only [SignatureAlg.verify, Except.ok.injEq, exists_eq_left', pure, Option.some.injEq,
            decide_eq_true_eq]
          split <;> simp_all

/-! ### The labels in order -/

/-- The tag a `Signature` header has for a label. -/
def tagOf (signatures : List (Text × List UInt8)) (label : Text) : Option (List UInt8) :=
  (signatures.find? fun s => s.1 = label).map (·.2)

variable (maxAge)

/-- The loop comes to these parameters and this tag: no label before them verifies. -/
inductive Reached (signatures : List (Text × List UInt8)) :
    List (Text × SignatureParams) → SignatureParams → List UInt8 → Prop
  | here {label params tag inputs} (found : tagOf signatures label = some tag) :
      Reached signatures ((label, params) :: inputs) params tag
  | later {label earlier inputs params tag}
      (fails : ∀ t, tagOf signatures label = some t → ¬ Verifies prim request secret now maxAge earlier t)
      (rest : Reached signatures inputs params tag) :
      Reached signatures ((label, earlier) :: inputs) params tag

variable {maxAge}

theorem verifyFrom_cons (signatures : List (Text × List UInt8)) (worst : VerifyFailure) (label : Text)
    (params : SignatureParams) (inputs : List (Text × SignatureParams)) :
    verifyFrom prim request secret now maxAge signatures worst ((label, params) :: inputs) =
      match tagOf signatures label with
      | none => verifyFrom prim request secret now maxAge signatures worst inputs
      | some tag =>
        match verifyOne prim request secret params tag now maxAge with
        | none => none
        | some (.ok ()) => some (.ok ())
        | some (.error failure) =>
          verifyFrom prim request secret now maxAge signatures failure inputs := by
  rw [verifyFrom, tagOf]
  cases signatures.find? fun s => s.1 = label <;> rfl

theorem verifyFrom_eq_none (hwindow : ∀ window ∈ maxAge, window < 2 ^ 63)
    (signatures : List (Text × List UInt8)) (worst : VerifyFailure)
    (inputs : List (Text × SignatureParams)) :
    verifyFrom prim request secret now maxAge signatures worst inputs = none ↔
      ∃ params tag, Reached prim request secret now maxAge signatures inputs params tag ∧
        TooOld now maxAge params := by
  induction inputs generalizing worst with
  | nil =>
    refine iff_of_false (by simp [verifyFrom]) ?_
    rintro ⟨params, tag, hreached, -⟩
    cases hreached
  | cons input inputs ih =>
    obtain ⟨label, params⟩ := input
    have hlater (fails : ∀ t, tagOf signatures label = some t →
        ¬ Verifies prim request secret now maxAge params t)
        (hold : ∀ t, tagOf signatures label = some t → ¬ TooOld now maxAge params) :
        (∃ p tag, Reached prim request secret now maxAge signatures inputs p tag ∧
          TooOld now maxAge p) ↔
        ∃ p tag, Reached prim request secret now maxAge signatures ((label, params) :: inputs) p tag ∧
          TooOld now maxAge p := by
      constructor
      · rintro ⟨p, tag, hreached, hp⟩
        exact ⟨p, tag, .later fails hreached, hp⟩
      · rintro ⟨p, tag, hreached, hp⟩
        cases hreached with
        | here found => exact absurd hp (hold tag found)
        | later _ rest => exact ⟨p, tag, rest, hp⟩
    rw [verifyFrom_cons]
    cases htag : tagOf signatures label with
    | none =>
      rw [ih]
      exact hlater (by simp [htag]) (by simp [htag])
    | some tag =>
      have hnone := verifyOne_eq_none prim request secret now maxAge params tag
      have hok := verifyOne_eq_ok prim request secret now hwindow params tag
      cases hone : verifyOne prim request secret params tag now maxAge with
      | none => exact iff_of_true (by simp only [hone]) ⟨params, tag, .here htag, hnone.1 hone⟩
      | some answer =>
        have hold : ¬ TooOld now maxAge params := fun h => by simp [hnone.2 h] at hone
        cases answer with
        | ok =>
          refine iff_of_false (by simp [hone]) ?_
          rintro ⟨p, t, hreached, hp⟩
          cases hreached with
          | here => exact hold hp
          | later fails _ => exact fails tag htag (hok.1 hone)
        | error failure =>
          simp only [hone]
          rw [ih]
          refine hlater (fun t ht hverifies => ?_) fun _ _ => hold
          rw [htag, Option.some.injEq] at ht
          simp [hok.2 (ht ▸ hverifies)] at hone

theorem verifyFrom_eq_ok (hwindow : ∀ window ∈ maxAge, window < 2 ^ 63)
    (signatures : List (Text × List UInt8)) (worst : VerifyFailure)
    (inputs : List (Text × SignatureParams))
    (h : verifyFrom prim request secret now maxAge signatures worst inputs = some (.ok ())) :
    ∃ params tag, Reached prim request secret now maxAge signatures inputs params tag ∧
      verifyOne prim request secret params tag now maxAge = some (.ok ()) := by
  induction inputs generalizing worst with
  | nil => simp [verifyFrom] at h
  | cons input inputs ih =>
    obtain ⟨label, params⟩ := input
    have hlater (fails : ∀ t, tagOf signatures label = some t →
        ¬ Verifies prim request secret now maxAge params t) (worst : VerifyFailure)
        (h : verifyFrom prim request secret now maxAge signatures worst inputs = some (.ok ())) :
        ∃ p tag, Reached prim request secret now maxAge signatures ((label, params) :: inputs) p tag ∧
          verifyOne prim request secret p tag now maxAge = some (.ok ()) := by
      obtain ⟨p, tag, hreached, hp⟩ := ih worst h
      exact ⟨p, tag, .later fails hreached, hp⟩
    rw [verifyFrom_cons] at h
    cases htag : tagOf signatures label with
    | none =>
      rw [htag] at h
      exact hlater (by simp [htag]) worst h
    | some tag =>
      rw [htag] at h
      simp only at h
      cases hone : verifyOne prim request secret params tag now maxAge with
      | none => simp [hone] at h
      | some answer =>
        cases answer with
        | ok => exact ⟨params, tag, .here htag, hone⟩
        | error failure =>
          rw [hone] at h
          refine hlater (fun t ht hverifies => ?_) failure h
          rw [htag, Option.some.injEq] at ht
          rw [ht, (verifyOne_eq_ok prim request secret now hwindow params t).2 hverifies] at hone
          simp at hone

/-! ### The whole request -/

/-- What the two headers of a request say. -/
def Presents (inputs : List (Text × SignatureParams)) (signatures : List (Text × List UInt8)) : Prop :=
  ∃ input signature, headerValue request signatureInputName = some input ∧
    headerValue request signatureName = some signature ∧
    parseSignatureInput input = some inputs ∧ parseSignature prim signature = signatures

variable (maxAge)

/-- Verification answers, and the label it accepts is fresh. -/
def AnswersFresh : Prop :=
  ∃ answer, verifyRequest prim request secret now maxAge = some answer ∧
    (answer = .ok () → ∃ inputs signatures params tag, Presents prim request inputs signatures ∧
      Reached prim request secret now maxAge signatures inputs params tag ∧
      verifyOne prim request secret params tag now maxAge = some (.ok ()) ∧
      (∀ window ∈ maxAge, ∃ created ∈ params.created, |now - created| ≤ window) ∧
      ∀ expires ∈ params.expires, now ≤ expires)

/-- The loop comes to a label whose age is too large a number. -/
def ReachesTooOld : Prop :=
  ∃ inputs signatures params tag, Presents prim request inputs signatures ∧
    Reached prim request secret now maxAge signatures inputs params tag ∧ TooOld now maxAge params

theorem verifyRequest_of_presents {inputs : List (Text × SignatureParams)}
    {signatures : List (Text × List UInt8)} (h : Presents prim request inputs signatures) :
    verifyRequest prim request secret now maxAge =
      if inputs.isEmpty || signatures.isEmpty then some (.error .malformed)
      else verifyFrom prim request secret now maxAge signatures .malformed inputs := by
  obtain ⟨input, signature, hinput, hsignature, hinputs, rfl⟩ := h
  unfold verifyRequest
  rw [hinput, hsignature]
  simp only [hinputs, Option.bind_eq_bind, Option.bind_some]
  rfl

theorem Presents.unique {inputs inputs' : List (Text × SignatureParams)}
    {signatures signatures' : List (Text × List UInt8)} (h : Presents prim request inputs signatures)
    (h' : Presents prim request inputs' signatures') : inputs' = inputs ∧ signatures' = signatures := by
  obtain ⟨input, signature, hinput, hsignature, hinputs, rfl⟩ := h
  obtain ⟨_, _, hinput', hsignature', hinputs', rfl⟩ := h'
  simp_all

theorem Reached.nonempty {inputs : List (Text × SignatureParams)}
    {signatures : List (Text × List UInt8)} {params : SignatureParams} {tag : List UInt8}
    (h : Reached prim request secret now maxAge signatures inputs params tag) :
    (inputs.isEmpty || signatures.isEmpty) = false := by
  have hsignatures : signatures ≠ [] := by
    induction h with
    | here found =>
      rintro rfl
      simp [tagOf] at found
    | later _ _ ih => exact ih
  have hinputs : inputs ≠ [] := by
    rintro rfl
    cases h
  simp [hsignatures, hinputs]

/-- Verification is total and fresh exactly where no age it comes to is too large a number. -/
theorem answersFresh_iff (hwindow : ∀ window ∈ maxAge, window < 2 ^ 63) :
    AnswersFresh prim request secret now maxAge ↔
      ¬ ReachesTooOld prim request secret now maxAge := by
  by_cases hpresents : ∃ inputs signatures, Presents prim request inputs signatures
  · obtain ⟨inputs, signatures, hpresents⟩ := hpresents
    have hreaches : ReachesTooOld prim request secret now maxAge ↔
        ∃ params tag, Reached prim request secret now maxAge signatures inputs params tag ∧
          TooOld now maxAge params := by
      constructor
      · rintro ⟨_, _, params, tag, hpresents', hreached, hold⟩
        obtain ⟨rfl, rfl⟩ := hpresents.unique prim request hpresents'
        exact ⟨params, tag, hreached, hold⟩
      · rintro ⟨params, tag, hreached, hold⟩
        exact ⟨inputs, signatures, params, tag, hpresents, hreached, hold⟩
    have hnone := verifyFrom_eq_none prim request secret now hwindow signatures .malformed inputs
    have hanswer := verifyRequest_of_presents prim request secret now maxAge hpresents
    by_cases hempty : (inputs.isEmpty || signatures.isEmpty) = true
    · rw [if_pos hempty] at hanswer
      refine iff_of_true ⟨_, hanswer, by simp⟩ fun h => ?_
      obtain ⟨params, tag, hreached, -⟩ := hreaches.1 h
      rw [hreached.nonempty] at hempty
      simp at hempty
    · rw [if_neg hempty] at hanswer
      rw [hreaches, ← hnone, ← hanswer]
      constructor
      · rintro ⟨answer, h, -⟩
        simp [h]
      · intro hsome
        obtain ⟨answer, h⟩ := Option.ne_none_iff_exists'.1 hsome
        refine ⟨answer, h, ?_⟩
        rintro rfl
        obtain ⟨params, tag, hreached, hone⟩ := verifyFrom_eq_ok prim request secret now hwindow
          signatures .malformed inputs (hanswer ▸ h)
        have hverifies := (verifyOne_eq_ok prim request secret now hwindow params tag).1 hone
        exact ⟨inputs, signatures, params, tag, hpresents, hreached, hone, hverifies.fresh,
          hverifies.unexpired⟩
  · have hanswer : verifyRequest prim request secret now maxAge = some (.error .absent) := by
      unfold verifyRequest
      split
      · rename_i input signature hinput hsignature
        obtain ⟨inputs, hinputs⟩ := parseSignatureInput_total input
        exact absurd ⟨inputs, _, input, signature, hinput, hsignature, hinputs, rfl⟩ hpresents
      · rfl
    refine iff_of_true ⟨_, hanswer, by simp⟩ ?_
    rintro ⟨inputs, signatures, _, _, h, -⟩
    exact hpresents ⟨inputs, signatures, h⟩

end

/-! ### A hostile `created` -/

/-- The smallest `created` there is, and a tag of no bytes. -/
def ancientRequest : NetRequest where
  method := "GET".toList
  url := "https://api.test/".toList
  headers := [(signatureInputName, "sig1=();created=-9223372036854775808".toList),
    (signatureName, "sig1=::".toList)]
  body := []
  timeoutMs := none
  redirectLimit := none

theorem ancient_overflows : verifyRequest base64Primitives ancientRequest [] 0 (some 300) = none := by
  have hnone : (verifyRequest base64Primitives ancientRequest [] 0 (some 300)).isNone = true := by
    decide +kernel
  simpa using hnone

theorem answersFresh_fails : ¬ AnswersFresh base64Primitives ancientRequest [] 0 (some 300) := by
  rintro ⟨answer, hanswer, -⟩
  rw [ancient_overflows] at hanswer
  cases hanswer

theorem answersFresh_iff_ancient : (∀ window ∈ some (300 : Int), window < 2 ^ 63) ∧
    (AnswersFresh base64Primitives ancientRequest [] 0 (some 300) ↔
      ¬ ReachesTooOld base64Primitives ancientRequest [] 0 (some 300)) :=
  ⟨by simp, answersFresh_iff base64Primitives ancientRequest [] 0 (some 300) (by simp)⟩

end Noeta.Ext
