import Noeta.Ext.SignatureFresh
import Noeta.Ext.SignatureText

/-!
# Signing and then verifying

Which keys and requests have a signature that verifies: the header that is written is read as one member
with the same names and the same key id, and the components have the same values once the two headers of
the signature are there.
-/

namespace Noeta.Ext

open Noeta.Lib
open Noeta.Lib.Rfc3986 (Text upTo beyond)
open Noeta.Lib.Utf8 (encode)
open SignatureParams (listed written)

/-! ### What the key states -/

section

variable (prim : Primitives) (key : SigningKey) (created : Int)

/-- The parameters over other components. -/
def SignatureParams.over (p : SignatureParams) (names : List Text) : SignatureParams :=
  { p with components := names }

/-- What `sign_request` writes into `Signature-Input`. -/
def signatureInput : Text := defaultLabel ++ '=' :: (key.params prim created).toValue

/-- The names that the written list of components is read as. -/
structure ReadAs (names : List Text) : Prop where
  same : listed names = listed (key.components.map prim.toLowercase)
  word : ∀ c ∈ names, c ≠ [] ∧ trimQuotes c = c ∧ ∀ ch ∈ c, isWhitespace ch = false ∧ ch ≠ ')'

/-- The header is one member, and the key id ends where it was ended. -/
structure Legible : Prop where
  undivided : splitMembers .start (signatureInput prim key created) = [signatureInput prim key created]
  keyId : SignatureParams.Enclosed key.keyId

variable {prim key created}

theorem stated_params : (key.params prim created).stated =
    [("created".toList, intText created), ("keyid".toList, quoted key.keyId),
      ("alg".toList, quoted key.alg.label)] := rfl

theorem toValue_params : ∃ middle d, (key.params prim created).toValue = '(' :: middle ++ [d, '"'] ∧
    heavy d = true ∧ d ≠ ',' ∧ isWhitespace d = false := by
  have hend : ∃ start d, quoted key.alg.label = start ++ [d, '"'] ∧ heavy d = true ∧ d ≠ ',' ∧
      isWhitespace d = false := by
    cases key.alg with
    | hmacSha256 => exact ⟨"\"hmac-sha25".toList, '6', by decide, by decide, by decide, by decide⟩
    | hmacSha512 => exact ⟨"\"hmac-sha51".toList, '2', by decide, by decide, by decide, by decide⟩
  obtain ⟨start, d, hquoted, hd⟩ := hend
  refine ⟨listed (key.components.map prim.toLowercase) ++ ')' :: (';' :: "created".toList ++ '=' ::
    intText created ++ (';' :: "keyid".toList ++ '=' :: quoted key.keyId ++ (';' :: "alg".toList ++
      '=' :: start))), d, ?_, hd⟩
  rw [SignatureParams.toValue_eq, stated_params]
  simp [written, hquoted, SigningKey.params]

theorem trim_toValue : trim (key.params prim created).toValue = (key.params prim created).toValue := by
  obtain ⟨middle, d, hvalue, -⟩ := @toValue_params prim key created
  rw [hvalue]
  apply trim_eq_self
  · intro c hc
    cases hc
    decide
  · intro c hc
    rw [show '(' :: middle ++ [d, '"'] = ('(' :: middle ++ [d]) ++ ['"'] by simp,
      List.getLast?_concat] at hc
    cases hc
    decide

theorem trim_signatureInput : trim (signatureInput prim key created) = signatureInput prim key created := by
  obtain ⟨middle, d, hvalue, -⟩ := @toValue_params prim key created
  rw [signatureInput, hvalue]
  apply trim_eq_self
  · intro c hc
    cases hc
    decide
  · intro c hc
    rw [show defaultLabel ++ '=' :: ('(' :: middle ++ [d, '"']) =
      (defaultLabel ++ '=' :: ('(' :: middle ++ [d])) ++ ['"'] by simp, List.getLast?_concat] at hc
    cases hc
    decide

theorem splitOnce_signatureInput : splitOnce '=' (signatureInput prim key created) =
    some (defaultLabel, (key.params prim created).toValue) :=
  splitOnce_append (by decide) _

theorem splitDictionary_of_one
    (h : splitMembers .start (signatureInput prim key created) = [signatureInput prim key created]) :
    splitDictionary (signatureInput prim key created) = [signatureInput prim key created] := by
  rw [splitDictionary, h, List.map_singleton, trim_signatureInput]
  rfl

variable {p : SignatureParams} {names : List Text}

/-- Parameters read back from one member are the only ones. -/
theorem member_of_read {inputs : List (Text × SignatureParams)}
    (hparse : parseSignatureInput (signatureInput prim key created) = some inputs)
    (hmem : (defaultLabel, p) ∈ inputs) (hvalue : p.toValue = (key.params prim created).toValue) :
    splitMembers .start (signatureInput prim key created) = [signatureInput prim key created] ∧
      parseInputMember (signatureInput prim key created) = some (some (defaultLabel, p)) ∧
      inputs = [(defaultLabel, p)] := by
  rw [parseSignatureInput, Option.map_eq_some_iff] at hparse
  obtain ⟨members, hmembers, rfl⟩ := hparse
  obtain ⟨parsed, hparsed, hid⟩ := List.mem_filterMap.1 hmem
  obtain ⟨member, hmember, hread⟩ := mem_of_mapM hmembers hparsed
  rw [show parsed = some (defaultLabel, p) from hid] at hread
  rw [splitDictionary, List.mem_filter, List.mem_map] at hmember
  obtain ⟨⟨part, hpart, rfl⟩, -⟩ := hmember
  have hweight := weight_parseInputMember hread
  have htrim := weight_trim part
  obtain ⟨middle, d, hshape, hd⟩ := @toValue_params prim key created
  have htotal : weight (signatureInput prim key created) = weight defaultLabel + 1 + weight p.toValue := by
    rw [signatureInput, weight_append, weight_cons, if_pos (by decide), hvalue]
    omega
  have hone : splitMembers .start (signatureInput prim key created) = [signatureInput prim key created] := by
    refine (@weight_member _ _ 's' d ("ig1=(".toList ++ middle) ?_ (by decide)
      ⟨hd.1, hd.2.1⟩ hpart).resolve_right (by omega)
    rw [signatureInput, hshape]
    rfl
  rw [hone, List.mem_singleton] at hpart
  subst hpart
  rw [trim_signatureInput] at hread
  refine ⟨hone, hread, ?_⟩
  rw [splitDictionary_of_one hone, List.mapM_cons, List.mapM_nil, hread] at hmembers
  cases hmembers
  rfl

/-! ### What the header is read as -/

/-- The names of parameters, in the order they are written. -/
def parameterNames : List Text :=
  ["created".toList, "expires".toList, "keyid".toList, "alg".toList, "nonce".toList, "tag".toList]

theorem names_sublist (p : SignatureParams) : (p.stated.map (·.1)).Sublist parameterNames := by
  have hone {α : Type} (field : Option α) (name : Text) (write : α → Text) :
      (((field.map fun x => (name, write x)).toList).map (·.1)).Sublist [name] := by
    cases field <;> simp
  simp only [SignatureParams.stated, List.map_append]
  exact (((((hone _ _ _).append (hone _ _ _)).append (hone _ _ _)).append (hone _ _ _)).append
    (hone _ _ _)).append (hone _ _ _)

theorem nil_of_sublist {α : Type} {a : α} {before after l : List α}
    (h : (before ++ a :: after).Sublist (a :: l)) (ha : a ∉ l) : before = [] ∧ after.Sublist l := by
  cases before with
  | nil => exact ⟨rfl, List.cons_sublist_cons.1 h⟩
  | cons b before =>
    have htail : (before ++ a :: after).Sublist l := by
      rw [List.cons_append] at h
      exact List.Sublist.of_cons_cons h
    exact absurd (htail.subset (List.mem_append_right _ List.mem_cons_self)) ha

def nameOf (piece : Text) : Option Text := (splitOnce '=' piece).map (·.1)

/-- The pieces of what is stated are the parameters of the key only when nothing else cuts. -/
theorem pieces_of_stated {start : Text} (hp : ∀ s ∈ p.stated, ';' ∉ s.2)
    (h : written p.stated = start ++ written (key.params prim created).stated) :
    start = [] ∧ ';' ∉ key.keyId := by
  have hsplit := congrArg (List.splitOn ';') h
  rw [SignatureParams.splitOn_written fun s hs => ⟨(p.stated_name s hs).1, hp s hs⟩] at hsplit
  have hcut : written (key.params prim created).stated =
      ';' :: ("created".toList ++ '=' :: intText created ++ ';' :: ("keyid".toList ++
        '=' :: quoted key.keyId ++ ';' :: ("alg".toList ++ '=' :: quoted key.alg.label))) := by
    rw [stated_params]
    simp [written]
  have hcreated : ';' ∉ "created".toList ++ '=' :: intText created := by
    rw [List.mem_append, List.mem_cons]
    rintro (h | h | h)
    · exact absurd h (by decide)
    · exact absurd h (by decide)
    · rcases mem_intText h with hc | hc <;> exact absurd hc (by decide)
  have halg : ';' ∉ "alg".toList ++ '=' :: quoted key.alg.label := by
    cases key.alg <;> decide
  have hright : (start ++ written (key.params prim created).stated).splitOn ';' =
      start.splitOn ';' ++ ("created".toList ++ '=' :: intText created) ::
        (("keyid".toList ++ '=' :: quoted key.keyId).splitOn ';' ++
          ["alg".toList ++ '=' :: quoted key.alg.label]) := by
    rw [hcut, List.splitOn_append_cons_self, List.splitOn_append_cons_self_of_not_mem hcreated,
      List.splitOn_append_cons_self, List.splitOn_eq_singleton halg]
  rw [hright] at hsplit
  obtain ⟨first, early, hearly⟩ := List.exists_cons_of_ne_nil (List.splitOn_ne_nil ';' start)
  obtain ⟨last, late, hlate⟩ := List.exists_cons_of_ne_nil (List.splitOn_ne_nil ';' (key.keyId ++ ['"']))
  have hkeyId : ("keyid".toList ++ '=' :: quoted key.keyId).splitOn ';' =
      ("keyid".toList ++ '=' :: '"' :: last) :: late := by
    rw [show "keyid".toList ++ '=' :: quoted key.keyId = "keyid=\"".toList ++ (key.keyId ++ ['"']) by
      simp [quoted], splitOn_append_of_not_mem (by decide) hlate]
    simp
  rw [hearly, hkeyId, List.cons_append, List.cons.injEq] at hsplit
  obtain ⟨rfl, hpieces⟩ := hsplit
  -- the names, in their order
  have hread : (p.stated.map fun s => s.1 ++ '=' :: s.2).map nameOf = (p.stated.map (·.1)).map some := by
    rw [List.map_map, List.map_map]
    refine List.map_congr_left fun s hs => ?_
    rw [Function.comp_apply, nameOf, splitOnce_append (p.stated_name s hs).2]
    rfl
  have hname (name value : Text) (hname : '=' ∉ name) : nameOf (name ++ '=' :: value) = some name := by
    rw [nameOf, splitOnce_append hname]
    rfl
  have hnames := (names_sublist p).map some
  rw [← hread, hpieces, List.map_append, List.map_cons, List.map_append, List.map_cons,
    hname _ _ (by decide), hname _ _ (by decide), List.map_singleton, hname _ _ (by decide)] at hnames
  obtain ⟨hstart, hnames⟩ := nil_of_sublist hnames (by decide)
  have hnames := List.cons_sublist_cons.1 (List.Sublist.of_cons_of_ne (by decide) hnames)
  obtain ⟨hlast, -⟩ := nil_of_sublist hnames (by decide)
  rw [List.map_eq_nil_iff] at hstart hlast
  subst hstart hlast
  constructor
  · have hempty : [';'].intercalate (start.splitOn ';') = start := List.intercalate_splitOn ';'
    rw [hearly] at hempty
    exact hempty.symm
  · have hclear := length_splitOn_eq_one_iff.1 (congrArg List.length hlate)
    exact fun hmem => hclear (List.mem_append_left _ hmem)

theorem stated_params_clear (h : ';' ∉ key.keyId) :
    ∀ s ∈ (key.params prim created).stated, ';' ∉ s.2 := by
  rw [stated_params]
  intro s hs
  simp only [List.mem_cons, List.not_mem_nil, or_false] at hs
  rcases hs with rfl | rfl | rfl
  · intro hmem
    rcases mem_intText hmem with hc | hc <;> exact absurd hc (by decide)
  · exact SignatureParams.not_mem_quoted (by decide) h
  · cases key.alg <;> decide

/-- Parameters read back from the header are those that were written, but for the names of components. -/
theorem read_back {inputs : List (Text × SignatureParams)}
    (hparse : parseSignatureInput (signatureInput prim key created) = some inputs)
    (hmem : (defaultLabel, p) ∈ inputs) (hvalue : p.toValue = (key.params prim created).toValue) :
    Legible prim key created ∧ ReadAs prim key p.components ∧
      p = (key.params prim created).over p.components ∧ inputs = [(defaultLabel, p)] := by
  obtain ⟨hone, hread, hinputs⟩ := member_of_read hparse hmem hvalue
  have hplain := plain_of_parseInputMember hread
  obtain ⟨_, _, inner, rest, -, -, hinner, -, hp⟩ := parseInputMember_split hread
  obtain ⟨hcomponents, htexts⟩ := SignatureParams.readParams_spec (readComponents inner) rest
  rw [← hp] at hcomponents htexts
  have htext := hvalue
  rw [SignatureParams.toValue_eq, SignatureParams.toValue_eq, List.cons_append, List.cons_append,
    List.cons.injEq] at htext
  have hclose := SignatureParams.not_mem_listed fun c hc => (hplain.component c hc).2.2
  have hsplit := (splitOnce_append hclose (written p.stated)).symm.trans (congrArg (splitOnce ')') htext.2)
  have hcut : listed p.components = listed (key.components.map prim.toLowercase) ∧
      written p.stated = [] ++ written (key.params prim created).stated ∧ ';' ∉ key.keyId := by
    by_cases hlisted : ')' ∈ listed (key.components.map prim.toLowercase)
    · obtain ⟨before, after, heq, hbefore⟩ := List.eq_append_cons_of_mem hlisted
      rw [show (key.params prim created).components = key.components.map prim.toLowercase from rfl, heq,
        List.append_assoc, List.cons_append, splitOnce_append hbefore, Option.some.injEq,
        Prod.mk.injEq] at hsplit
      have hstated : written p.stated = (after ++ [')']) ++ written (key.params prim created).stated := by
        rw [hsplit.2, List.append_assoc]
        rfl
      have hnil := (pieces_of_stated hplain.stated hstated).1
      simp at hnil
    · rw [show (key.params prim created).components = key.components.map prim.toLowercase from rfl,
        splitOnce_append hlisted, Option.some.injEq, Prod.mk.injEq] at hsplit
      have hstated : written p.stated = [] ++ written (key.params prim created).stated := hsplit.2
      exact ⟨hsplit.1, hstated, (pieces_of_stated hplain.stated hstated).2⟩
  obtain ⟨hlisted, hwritten, hkeyId⟩ := hcut
  have hstated := SignatureParams.written_injective hplain.stated (stated_params_clear hkeyId) hwritten
  have heq : p = (key.params prim created).over p.components :=
    SignatureParams.stated_injective rfl hstated
  refine ⟨⟨hone, htexts key.keyId (SignatureParams.mem_texts.2 (.inl ?_))⟩, ⟨hlisted, fun c hc => ?_⟩, heq,
    hinputs⟩
  · rw [heq]
    rfl
  · have hclose := (hplain.component c hc).2.2
    rw [hcomponents] at hc
    obtain ⟨hne, htrim, hspace, -, -⟩ := readComponents_spec hc
    exact ⟨hne, htrim, fun ch hch => ⟨hspace ch hch, fun heq => hclose (heq ▸ hch)⟩⟩

theorem mem_listed {c : Text} (hc : c ∈ names) {ch : Char} (hch : ch ∈ c) : ch ∈ listed names := by
  induction names with
  | nil => cases hc
  | cons d names ih =>
    have hquoted : ch ∈ quoted c := by
      rw [quoted, List.cons_append, List.mem_cons, List.mem_append]
      exact .inr (.inl hch)
    cases names with
    | nil =>
      rw [List.mem_singleton.1 hc] at hquoted
      rw [listed, List.map_singleton, List.intercalate_singleton]
      exact hquoted
    | cons e names =>
      rw [listed, List.map_cons, List.map_cons, List.intercalate_cons_cons, List.mem_append,
        List.mem_append]
      rw [List.mem_cons] at hc
      obtain rfl | hc := hc
      · exact .inl (.inl hquoted)
      · exact .inr (ih hc)

theorem trimQuotes_quoted {t : Text} (h : trimQuotes t = t) : trimQuotes (quoted t) = t := by
  cases t with
  | nil => rfl
  | cons c t =>
    obtain ⟨hhead, hlast⟩ := trimQuotes_eq_self_iff.1 h
    have hc : c ≠ '"' := hhead c rfl
    rw [trimQuotes, quoted, List.cons_append, List.dropWhile_cons_of_pos (by decide), List.cons_append,
      List.dropWhile_cons_of_neg (by simpa using hc), ← List.cons_append, List.reverse_append,
      List.reverse_singleton, List.singleton_append, List.dropWhile_cons_of_pos (by decide)]
    have hdrop : (c :: t).reverse.dropWhile (· = '"') = (c :: t).reverse := by
      have hlast' : ∀ d ∈ (c :: t).reverse.head?, d ≠ '"' := by
        rw [List.head?_reverse]
        exact hlast
      cases hrev : (c :: t).reverse with
      | nil => rfl
      | cons d u =>
        rw [hrev] at hlast'
        exact List.dropWhile_cons_of_neg (by simpa using hlast' d rfl)
    rw [hdrop, List.reverse_reverse]

theorem trim_quoted (t : Text) : trim (quoted t) = quoted t := by
  apply trim_eq_self
  · intro c hc
    cases hc
    decide
  · intro c hc
    rw [quoted, List.getLast?_concat] at hc
    cases hc
    decide

theorem splitOnP_intercalate {p : Char → Bool} {sep : Char} (hsep : p sep = true) {words : List Text}
    (h : ∀ word ∈ words, ∀ c ∈ word, p c = false) (hne : words ≠ []) :
    ([sep].intercalate words).splitOnP p = words := by
  induction words with
  | nil => exact absurd rfl hne
  | cons word words ih =>
    have hword := h word List.mem_cons_self
    cases words with
    | nil => rw [List.intercalate_singleton, List.splitOnP_eq_singleton hword]
    | cons next words =>
      rw [List.intercalate_cons_cons, List.append_assoc, List.singleton_append,
        List.splitOnP_append_cons_of_forall_mem hword sep hsep,
        ih (fun w hw => h w (List.mem_cons_of_mem _ hw)) (List.cons_ne_nil _ _)]

theorem readComponents_listed
    (h : ∀ c ∈ names, c ≠ [] ∧ trimQuotes c = c ∧ (∀ ch ∈ c, isWhitespace ch = false) ∧
      toAsciiLowercase c = c) : readComponents (listed names) = names := by
  have hwords : splitWhitespace (listed names) = names.map quoted := by
    by_cases hne : names = []
    · rw [hne]
      rfl
    · rw [splitWhitespace, listed, splitOnP_intercalate (by decide) _ (by simpa using hne),
        List.filter_eq_self]
      · intro word hword
        obtain ⟨c, -, rfl⟩ := List.mem_map.1 hword
        simp [quoted]
      · intro word hword ch hch
        obtain ⟨c, hc, rfl⟩ := List.mem_map.1 hword
        rw [quoted, List.cons_append, List.mem_cons, List.mem_append, List.mem_singleton] at hch
        rcases hch with rfl | hch | rfl
        · decide
        · exact (h c hc).2.2.1 ch hch
        · decide
  rw [readComponents, hwords, List.map_map]
  have hmap : names.map ((fun c => toAsciiLowercase (trimQuotes c)) ∘ quoted) = names := by
    refine (List.map_congr_left (g := id) fun c hc => ?_).trans (List.map_id names)
    obtain ⟨-, htrim, -, hlower⟩ := h c hc
    rw [Function.comp_apply, trimQuotes_quoted htrim, hlower]
    rfl
  rw [hmap, List.filter_eq_self]
  intro c hc
  simpa using (h c hc).1

theorem trim_intText (n : Int) : trim (intText n) = intText n := by
  have hclear : ∀ c ∈ intText n, isWhitespace c = false := by
    intro c hc
    rcases mem_intText hc with rfl | hdigit
    · decide
    · have hheavy := heavy_of_isDigit hdigit
      rw [heavy, Bool.and_eq_true, Bool.not_eq_true'] at hheavy
      exact hheavy.2
  apply trim_eq_self
  · exact fun c hc => hclear c (List.mem_of_mem_head? hc)
  · exact fun c hc => hclear c (List.mem_of_mem_getLast? hc)

theorem readParams_written (hlo : -2 ^ 63 ≤ created) (hhi : created < 2 ^ 63)
    (h : SignatureParams.Enclosed key.keyId) (names : List Text) :
    readParams names (written (key.params prim created).stated) =
      (key.params prim created).over names := by
  rw [readParams, SignatureParams.splitOn_written fun s hs =>
    ⟨(SignatureParams.stated_name _ s hs).1, stated_params_clear h.1 s hs⟩, stated_params]
  simp only [List.map_cons, List.map_nil, List.foldl_cons, List.foldl_nil]
  have hnil (p : SignatureParams) : readParameter p [] = p := rfl
  have hcreated (p : SignatureParams) :
      readParameter p ("created".toList ++ '=' :: intText created) = { p with created := some created } := by
    rw [readParameter, splitOnce_append (by decide)]
    simp only [show trim "created".toList = "created".toList by decide, trim_intText, if_true,
      parseI64_intText hlo hhi]
  have hkeyId (p : SignatureParams) :
      readParameter p ("keyid".toList ++ '=' :: quoted key.keyId) = { p with keyId := some key.keyId } := by
    rw [readParameter, splitOnce_append (by decide)]
    simp only [show trim "keyid".toList = "keyid".toList by decide, trim_quoted, trimQuotes_quoted h.2]
    rfl
  have halg (p : SignatureParams) : readParameter p ("alg".toList ++ '=' :: quoted key.alg.label) =
      { p with alg := some key.alg.label } := by
    have hlabel : trimQuotes key.alg.label = key.alg.label := by cases key.alg <;> decide
    rw [readParameter, splitOnce_append (by decide)]
    simp only [show trim "alg".toList = "alg".toList by decide, trim_quoted, trimQuotes_quoted hlabel]
    rfl
  rw [hnil, hcreated, hkeyId, halg]
  rfl

theorem ReadAs.lower (h : ReadAs prim key names) : ∀ c ∈ names, toAsciiLowercase c = c := by
  intro c hc
  apply toAsciiLowercase_eq_self
  intro ch hch
  have hmem : ch ∈ listed names := mem_listed hc hch
  rw [h.same] at hmem
  obtain hsep | ⟨t, ht, hmem⟩ := SignatureParams.mem_intercalate hmem
  · rw [List.mem_singleton.1 hsep]
    decide
  · obtain ⟨d, hd, rfl⟩ := List.mem_map.1 ht
    obtain ⟨raw, -, rfl⟩ := List.mem_map.1 hd
    rw [quoted, List.cons_append, List.mem_cons, List.mem_append, List.mem_singleton] at hmem
    rcases hmem with rfl | hmem | rfl
    · decide
    · exact prim.toLowercase_lower raw ch hmem
    · decide

theorem parse_of_legible (hlo : -2 ^ 63 ≤ created) (hhi : created < 2 ^ 63) (h : Legible prim key created)
    (hnames : ReadAs prim key names) :
    parseSignatureInput (signatureInput prim key created) =
      some [(defaultLabel, ((key.params prim created).over names))] := by
  have hlower := hnames.lower
  have hclose : ')' ∉ listed names :=
    SignatureParams.not_mem_listed fun c hc hmem => (((hnames.word c hc).2.2) _ hmem).2 rfl
  have hvalue : (key.params prim created).toValue =
      '(' :: (listed names ++ ')' :: written (key.params prim created).stated) := by
    rw [SignatureParams.toValue_eq, hnames.same]
    rfl
  have hmember : parseInputMember (signatureInput prim key created) =
      some (some (defaultLabel, ((key.params prim created).over names))) := by
    rw [parseInputMember_of_split splitOnce_signatureInput (trim_toValue.trans hvalue) hclose,
      readComponents_listed fun c hc => ⟨(hnames.word c hc).1, (hnames.word c hc).2.1,
        fun ch hch => ((hnames.word c hc).2.2 ch hch).1, hlower c hc⟩,
      readParams_written hlo hhi h.keyId]
    rfl
  rw [parseSignatureInput, splitDictionary_of_one h.undivided, List.mapM_cons, List.mapM_nil, hmember]
  rfl

end

/-! ### Headers that are set -/

section

variable {request : NetRequest} {name value : Text}

theorem headersNamed_setHeader : headersNamed (setHeader request name value) name = [value] := by
  have hname : eqIgnoreAsciiCase name name = true := decide_eq_true rfl
  rw [headersNamed, setHeader, List.filter_append, List.filter_filter]
  have hnone : (request.headers.filter fun h => eqIgnoreAsciiCase h.1 name && !eqIgnoreAsciiCase h.1 name) =
      [] := by
    rw [List.filter_eq_nil_iff]
    intro h _
    simp
  rw [hnone, List.nil_append, List.filter_cons, if_pos hname]
  rfl

theorem headersNamed_setHeader_of_ne {other : Text} (h : toAsciiLowercase name ≠ toAsciiLowercase other) :
    headersNamed (setHeader request name value) other = headersNamed request other := by
  have hname : eqIgnoreAsciiCase name other = false := decide_eq_false h
  rw [headersNamed, headersNamed, setHeader, List.filter_append, List.filter_filter,
    List.filter_cons_of_neg (by simpa using hname), List.filter_nil, List.append_nil]
  congr 1
  refine List.filter_congr fun hd _ => ?_
  by_cases heq : eqIgnoreAsciiCase hd.1 other = true
  · have hne : eqIgnoreAsciiCase hd.1 name = false :=
      decide_eq_false fun hsame => h (hsame.symm.trans (of_decide_eq_true heq))
    rw [heq, hne]
    rfl
  · rw [Bool.not_eq_true] at heq
    rw [heq]
    rfl

theorem requestAuthority_setHeader (h : toAsciiLowercase name ≠ "host".toList) :
    requestAuthority (setHeader request name value) = requestAuthority request := by
  rw [requestAuthority, requestAuthority, headersNamed_setHeader_of_ne h]
  rfl

theorem componentValue_setHeader {component : Text} (hhost : toAsciiLowercase name ≠ "host".toList)
    (h : toAsciiLowercase name ≠ toAsciiLowercase component) :
    componentValue (setHeader request name value) component = componentValue request component := by
  unfold componentValue
  split
  · unfold derivedComponent
    rw [requestAuthority_setHeader hhost]
    rfl
  · rw [headersNamed_setHeader_of_ne h]

theorem signatureBase_setHeader {p : SignatureParams} {base : Text}
    (hhost : toAsciiLowercase name ≠ "host".toList) (hlower : ∀ c ∈ p.components, toAsciiLowercase c = c)
    (h : toAsciiLowercase name ∉ p.components) :
    signatureBase (setHeader request name value) p = .ok base ↔ signatureBase request p = .ok base := by
  have hvalue : ∀ c ∈ p.components,
      componentValue (setHeader request name value) c = componentValue request c := by
    intro c hc
    refine componentValue_setHeader hhost fun heq => h ?_
    rw [heq, hlower c hc]
    exact hc
  have hlines : p.components.map (lineOf (setHeader request name value)) =
      p.components.map (lineOf request) := by
    refine List.map_congr_left fun c hc => ?_
    rw [lineOf, lineOf, hvalue c hc]
  rw [signatureBase_eq_ok hlower, signatureBase_eq_ok hlower, hlines]
  refine and_congr_left' (forall₂_congr fun c hc => ?_)
  rw [hvalue c hc]

end

/-! ### The signature as a header -/

section

variable (prim : Primitives)

def signatureHeader (tag : List UInt8) : Text := defaultLabel ++ "=:".toList ++ prim.encode64 tag ++ [':']

variable {prim}

theorem mem_signatureHeader {tag : List UInt8} {c : Char} (h : c ∈ signatureHeader prim tag) :
    c.isAlphanum ∨ c = '+' ∨ c = '/' ∨ c = '=' ∨ c = ':' := by
  have hclear : ((defaultLabel ++ "=:".toList).all fun d => d.isAlphanum || d = '=' || d = ':') = true := by
    decide
  rw [signatureHeader, List.mem_append, List.mem_append, List.mem_singleton] at h
  rcases h with (h | h) | h
  · have hc := List.all_eq_true.1 hclear c h
    simp only [Bool.or_eq_true, decide_eq_true_eq] at hc
    rcases hc with (hc | hc) | hc
    · exact .inl hc
    · exact .inr (.inr (.inr (.inl hc)))
    · exact .inr (.inr (.inr (.inr hc)))
  · rcases prim.encode_alphabet tag c h with h | h | h | h
    · exact .inl h
    · exact .inr (.inl h)
    · exact .inr (.inr (.inl h))
    · exact .inr (.inr (.inr (.inl h)))
  · exact .inr (.inr (.inr (.inr h)))

theorem trim_signatureHeader (tag : List UInt8) :
    trim (signatureHeader prim tag) = signatureHeader prim tag := by
  apply trim_eq_self
  · intro c hc
    cases hc
    decide
  · intro c hc
    rw [signatureHeader, List.getLast?_concat] at hc
    cases hc
    decide

theorem signatureHeader_injective {tag tag' : List UInt8}
    (h : signatureHeader prim tag = signatureHeader prim tag') : tag = tag' := by
  have hencoded := List.append_cancel_left (List.append_cancel_right h)
  have hdecoded := congrArg prim.decode64 hencoded
  rw [prim.decode_encode, prim.decode_encode] at hdecoded
  exact Option.some.inj hdecoded

theorem parseSignature_signatureHeader (tag : List UInt8) :
    parseSignature prim (signatureHeader prim tag) = [(defaultLabel, tag)] := by
  have hcomma : ',' ∉ signatureHeader prim tag := fun hmem => by
    rcases mem_signatureHeader hmem with h | h | h | h | h <;> exact absurd h (by decide)
  have hmember : parseTagMember prim (signatureHeader prim tag) = some (defaultLabel, tag) := by
    have hsplit : splitOnce '=' (signatureHeader prim tag) =
        some (defaultLabel, ':' :: (prim.encode64 tag ++ [':'])) := by
      rw [signatureHeader, show defaultLabel ++ "=:".toList ++ prim.encode64 tag ++ [':'] =
        defaultLabel ++ '=' :: (':' :: (prim.encode64 tag ++ [':'])) by simp]
      exact splitOnce_append (by decide) _
    have htrim : trim (':' :: (prim.encode64 tag ++ [':'])) = ':' :: (prim.encode64 tag ++ [':']) := by
      apply trim_eq_self
      · intro c hc
        cases hc
        decide
      · intro c hc
        rw [← List.cons_append, List.getLast?_concat] at hc
        cases hc
        decide
    have hlabel : trim defaultLabel = defaultLabel := by decide
    unfold parseTagMember
    rw [hsplit]
    simp only [Option.bind_eq_bind, Option.bind_some, htrim, List.reverse_append, List.reverse_singleton,
      List.singleton_append, List.reverse_reverse, prim.decode_encode, hlabel]
    rfl
  rw [parseSignature, splitDictionary, splitMembers_of_not_mem hcomma, List.map_singleton,
    trim_signatureHeader, List.filter_cons_of_pos (by simp [signatureHeader]), List.filter_nil,
    List.filterMap_cons_some hmember, List.filterMap_nil]

end

/-! ### The signed request -/

section

variable (prim : Primitives) (request : NetRequest) (key : SigningKey) (created : Int)

/-- The request whose base is signed. -/
def digested : NetRequest :=
  if key.coversContentDigest then
    setHeader request contentDigest (contentDigestValue prim request.body)
  else request

/-- The request with both headers. -/
def signedRequest (tag : List UInt8) : NetRequest :=
  setHeader (setHeader (digested prim request key) signatureInputName (signatureInput prim key created))
    signatureName (signatureHeader prim tag)

variable {prim request key created}

theorem signRequest_eq_ok {signed : NetRequest} :
    signRequest prim request key created = (signed, .ok ()) ↔
      ∃ base, signatureBase (digested prim request key) (key.params prim created) = .ok base ∧
        signed = signedRequest prim request key created (key.alg.tag prim key.secret (encode base)) := by
  unfold signRequest
  dsimp only
  rw [← digested]
  cases signatureBase (digested prim request key) (key.params prim created) with
  | error e => simp
  | ok base =>
    simp only [Prod.mk.injEq, and_true, Except.ok.injEq, exists_eq_left']
    exact eq_comm

theorem headerValue_signatureInput (tag : List UInt8) :
    headerValue (signedRequest prim request key created tag) signatureInputName =
      some (signatureInput prim key created) := by
  rw [headerValue, signedRequest, headersNamed_setHeader_of_ne (by decide), headersNamed_setHeader]
  rfl

theorem headerValue_signature (tag : List UInt8) :
    headerValue (signedRequest prim request key created tag) signatureName =
      some (signatureHeader prim tag) := by
  rw [headerValue, signedRequest, headersNamed_setHeader]
  rfl

theorem verifyRequest_signedRequest {p : SignatureParams} (tag : List UInt8)
    (hparse : parseSignatureInput (signatureInput prim key created) = some [(defaultLabel, p)])
    (now : Int) (maxAge : Option Int) :
    verifyRequest prim (signedRequest prim request key created tag) key.secret now maxAge =
      verifyOne prim (signedRequest prim request key created tag) key.secret p tag now maxAge := by
  rw [verifyRequest, headerValue_signatureInput, headerValue_signature]
  simp only [hparse, parseSignature_signatureHeader, Option.bind_eq_bind, Option.bind_some]
  rw [if_neg (by simp), verifyFrom]
  have hfind : [(defaultLabel, tag)].find? (fun s => s.1 = defaultLabel) = some (defaultLabel, tag) := rfl
  simp only [hfind]
  cases verifyOne prim (signedRequest prim request key created tag) key.secret p tag now maxAge with
  | none => rfl
  | some answer =>
    cases answer with
    | ok => rfl
    | error failure => rfl

theorem algorithm_params (names : List Text) :
    ((key.params prim created).over names).algorithm = some key.alg := by
  have hparse : SignatureAlg.parse key.alg.label = .ok key.alg := by cases key.alg <;> rfl
  rw [SignatureParams.algorithm]
  change (SignatureAlg.parse key.alg.label).toOption = _
  rw [hparse]
  rfl

theorem verifyOne_params {signed : NetRequest} {names : List Text} {tag : List UInt8} {now : Int}
    {maxAge : Option Int} (hwindow : ∀ window ∈ maxAge, |now - created| ≤ window ∧ window < 2 ^ 63) :
    verifyOne prim signed key.secret ((key.params prim created).over names) tag now maxAge =
        some (.ok ()) ↔
      ∃ base, signatureBase signed ((key.params prim created).over names) = .ok base ∧
        key.alg.tag prim key.secret (encode base) = tag := by
  rw [verifyOne_eq_ok prim signed key.secret now fun window hw => (hwindow window hw).2]
  constructor
  · intro h
    obtain ⟨alg, base, halg, hbase, htag⟩ := h.signed
    rw [algorithm_params, Option.some.injEq] at halg
    exact ⟨base, hbase, halg ▸ htag⟩
  · rintro ⟨base, hbase, htag⟩
    refine ⟨?_, fun window hw => ⟨created, rfl, (hwindow window hw).1⟩, key.alg, base,
      algorithm_params names, hbase, htag⟩
    intro expires hexpires
    cases hexpires

end

/-! ### Signing, then verifying -/

section

variable (prim : Primitives) (request : NetRequest) (key : SigningKey) (created : Int)

/-- The same library with other functions for HMAC. -/
def Primitives.withHmac (hmacSha256 hmacSha512 : List UInt8 → List UInt8 → List UInt8) : Primitives :=
  { prim with hmacSha256 := hmacSha256, hmacSha512 := hmacSha512 }

/-- A signed request verifies as long as it is fresh, and the header states what was signed. -/
def Verifies.AfterSigning : Prop :=
  ∀ signed, signRequest prim request key created = (signed, .ok ()) →
    (∀ now maxAge, (∀ window ∈ maxAge, |now - created| ≤ window ∧ window < 2 ^ 63) →
      verifyRequest prim signed key.secret now maxAge = some (.ok ())) ∧
    ∃ header inputs params, headerValue signed signatureInputName = some header ∧
      parseSignatureInput header = some inputs ∧ (defaultLabel, params) ∈ inputs ∧
      params.toValue = (key.params prim created).toValue

/-- The header is legible, no component is the signature itself, and the components are signed with the
values they have once the header is there. -/
structure Consistent : Prop where
  legible : Legible prim key created
  stable : ∃ names, ReadAs prim key names ∧ signatureName ∉ names ∧
    signatureBase (setHeader (digested prim request key) signatureInputName (signatureInput prim key created))
      ((key.params prim created).over names) =
        signatureBase (digested prim request key) (key.params prim created)

variable {prim request key created}

theorem encode_injective {s t : Text} (h : encode s = encode t) : s = t := by
  have hdecoded := congrArg Utf8.fromUtf8Lossy h
  rwa [Utf8.fromUtf8Lossy_encode, Utf8.fromUtf8Lossy_encode] at hdecoded

variable {base : Text} {mac₁ mac₂ : List UInt8 → List UInt8 → List UInt8}

theorem signatureBase_signedRequest {p : SignatureParams} (tag : List UInt8)
    (hlower : ∀ c ∈ p.components, toAsciiLowercase c = c) (h : signatureName ∉ p.components) :
    signatureBase (signedRequest prim request key created tag) p = .ok base ↔
      signatureBase (setHeader (digested prim request key) signatureInputName
        (signatureInput prim key created)) p = .ok base :=
  signatureBase_setHeader (by decide) hlower h

theorem afterSigning_of_consistent (hlo : -2 ^ 63 ≤ created) (hhi : created < 2 ^ 63)
    (h : Consistent prim request key created) : Verifies.AfterSigning prim request key created := by
  obtain ⟨names, hnames, hsignature, hstable⟩ := h.stable
  have hparse := parse_of_legible hlo hhi h.legible hnames
  intro signed hsigned
  obtain ⟨base, hbase, rfl⟩ := signRequest_eq_ok.1 hsigned
  have hsame : signatureBase (signedRequest prim request key created
      (key.alg.tag prim key.secret (encode base))) ((key.params prim created).over names) = .ok base :=
    (signatureBase_signedRequest _ hnames.lower hsignature).2 (hstable.trans hbase)
  constructor
  · intro now maxAge hwindow
    rw [verifyRequest_signedRequest _ hparse]
    exact (verifyOne_params hwindow).2 ⟨base, hsame, rfl⟩
  · refine ⟨_, _, _, headerValue_signatureInput _, hparse, List.mem_singleton_self _, ?_⟩
    rw [SignatureParams.toValue_eq, SignatureParams.toValue_eq]
    change '(' :: listed names ++ _ = _
    rw [hnames.same]
    rfl

/-- Two tags for one base are one, where a component is the signature itself. -/
theorem tag_of_signatureBase {p : SignatureParams} {tag tag' : List UInt8}
    (hlower : ∀ c ∈ p.components, toAsciiLowercase c = c) (hmem : signatureName ∈ p.components)
    (h : signatureBase (signedRequest prim request key created tag) p = .ok base)
    (h' : signatureBase (signedRequest prim request key created tag') p = .ok base) : tag = tag' := by
  have hvalue (t : List UInt8) : componentValue (signedRequest prim request key created t) signatureName =
      some (signatureHeader prim t) := by
    change (if ((headersNamed _ signatureName).map trim).isEmpty then none else _) = _
    rw [signedRequest, headersNamed_setHeader, List.map_singleton, trim_signatureHeader]
    rw [List.intercalate_singleton]
    rfl
  have hother {c : Text} (hc : c ∈ p.components) (hne : c ≠ signatureName) :
      lineOf (signedRequest prim request key created tag) c =
        lineOf (signedRequest prim request key created tag') c := by
    have hcase : toAsciiLowercase signatureName ≠ toAsciiLowercase c := by
      rw [hlower c hc]
      exact fun heq => hne (heq.symm.trans (by decide))
    rw [lineOf, lineOf, signedRequest, signedRequest, componentValue_setHeader (by decide) hcase,
      componentValue_setHeader (by decide) hcase]
  have hone (t : List UInt8) :
      ((lineOf (signedRequest prim request key created t) signatureName).splitOn '\n').length = 1 := by
    rw [length_splitOn_eq_one_iff, lineOf, hvalue, Option.getD_some, List.mem_append]
    rintro (hmem | hmem)
    · exact absurd hmem (by decide)
    · rcases mem_signatureHeader hmem with h | h | h | h | h <;> exact absurd h (by decide)
  have hle : ∀ c ∈ p.components,
      ((lineOf (signedRequest prim request key created tag) c).splitOn '\n').length ≤
        ((lineOf (signedRequest prim request key created tag') c).splitOn '\n').length := by
    intro c hc
    by_cases hsig : c = signatureName
    · rw [hsig, hone, hone]
    · rw [hother hc hsig]
  obtain ⟨-, htext⟩ := (signatureBase_eq_ok hlower).1 h
  obtain ⟨-, htext'⟩ := (signatureBase_eq_ok hlower).1 h'
  have hlines := fieldLines_eq_of_intercalate (by simp) (by simp) (htext.symm.trans htext')
  rw [fieldLines_append, fieldLines_append] at hlines
  have heq := eq_of_fieldLines_map hle (List.append_cancel_right hlines) signatureName hmem
  rw [lineOf, lineOf, hvalue, hvalue] at heq
  exact signatureHeader_injective (List.append_cancel_left heq)

theorem legible_withHmac : Legible (prim.withHmac mac₁ mac₂) key created ↔ Legible prim key created :=
  ⟨fun h => ⟨h.undivided, h.keyId⟩, fun h => ⟨h.undivided, h.keyId⟩⟩

theorem readAs_withHmac {names : List Text} :
    ReadAs (prim.withHmac mac₁ mac₂) key names ↔ ReadAs prim key names :=
  ⟨fun h => ⟨h.same, h.word⟩, fun h => ⟨h.same, h.word⟩⟩

theorem consistent_withHmac :
    Consistent (prim.withHmac mac₁ mac₂) request key created ↔ Consistent prim request key created := by
  constructor
  · rintro ⟨hlegible, names, hnames, hsignature, hbase⟩
    exact ⟨legible_withHmac.1 hlegible, names, readAs_withHmac.1 hnames, hsignature, hbase⟩
  · rintro ⟨hlegible, names, hnames, hsignature, hbase⟩
    exact ⟨legible_withHmac.2 hlegible, names, readAs_withHmac.2 hnames, hsignature, hbase⟩

theorem read_of_afterSigning {mac : List UInt8 → List UInt8 → List UInt8}
    (hmac : ∀ key, Function.Injective (mac key))
    (h : Verifies.AfterSigning (prim.withHmac mac mac) request key created)
    (hbase : signatureBase (digested prim request key) (key.params prim created) = .ok base) :
    ∃ names, Legible prim key created ∧ ReadAs prim key names ∧
      parseSignatureInput (signatureInput prim key created) =
        some [(defaultLabel, (key.params prim created).over names)] ∧
      signatureBase (signedRequest prim request key created (mac key.secret (encode base)))
        ((key.params prim created).over names) = .ok base := by
  have htag (data : List UInt8) :
      key.alg.tag (prim.withHmac mac mac) key.secret data = mac key.secret data := by
    cases key.alg <;> rfl
  have hsigned : signRequest (prim.withHmac mac mac) request key created =
      (signedRequest (prim.withHmac mac mac) request key created (mac key.secret (encode base)), .ok ()) :=
    signRequest_eq_ok.2 ⟨base, hbase, by rw [htag]⟩
  obtain ⟨hverify, header, inputs, p, hheader, hparse, hmem, hvalue⟩ := h _ hsigned
  rw [headerValue_signatureInput, Option.some.injEq] at hheader
  subst hheader
  obtain ⟨hlegible, hread, hover, rfl⟩ := read_back hparse hmem hvalue
  have hok := hverify created none (by simp)
  rw [verifyRequest_signedRequest _ hparse, hover] at hok
  obtain ⟨base', hbase', hsame⟩ := (verifyOne_params (by simp)).1 hok
  rw [htag] at hsame
  rw [encode_injective (hmac key.secret hsame)] at hbase'
  rw [hover] at hparse
  exact ⟨p.components, legible_withHmac.1 hlegible, readAs_withHmac.1 hread, hparse, hbase'⟩

end

/-! ### A semicolon in the key id -/

def getRequest : NetRequest := ⟨"GET".toList, "https://api.test/a".toList, [], [], none, none⟩

def semicolonKey : SigningKey := ⟨"a;b".toList, [1], .hmacSha256, []⟩

def methodKey : SigningKey := ⟨"a=b, c".toList, [1], .hmacSha256, ["@Method".toList]⟩

end Noeta.Ext
