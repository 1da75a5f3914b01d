import Noeta.Ext.SignatureBase
import Mathlib.Algebra.Order.BigOperators.Group.List
import Mathlib.Algebra.GroupWithZero.Nat
import Mathlib.Algebra.Order.Group.Nat

/-!
# Reading the written parameters

What the parser of `Signature-Input` makes of a text is hardly longer than the text: so a header that reads
back as what was written is read as one member, and its names and values end where they were ended.
-/

namespace Noeta.Ext

open Noeta.Lib
open Noeta.Lib.Rfc3986 (Text upTo beyond)

/-! ### Weights -/

/-- Neither dropped nor added around a name or a value. -/
def heavy (c : Char) : Bool := c ≠ '"' && !isWhitespace c

/-- The number of characters that the parser does not drop. -/
def weight (t : Text) : Nat := t.countP heavy

def weights (ts : List Text) : Nat := (ts.map weight).sum

@[simp] theorem weight_nil : weight [] = 0 := rfl

@[simp] theorem weight_append (s t : Text) : weight (s ++ t) = weight s + weight t := List.countP_append

theorem weight_cons (c : Char) (t : Text) : weight (c :: t) = weight t + if heavy c then 1 else 0 :=
  List.countP_cons

theorem weight_sublist {s t : Text} (h : s.Sublist t) : weight s ≤ weight t := h.countP_le

theorem weight_trim (t : Text) : weight (trim t) ≤ weight t := by
  rw [trim, weight, List.countP_reverse, ← weight]
  refine (weight_sublist (List.dropWhile_sublist _)).trans ?_
  rw [weight, List.countP_reverse, ← weight]
  exact weight_sublist (List.dropWhile_sublist _)

theorem weight_trimQuotes (t : Text) : weight (trimQuotes t) ≤ weight t := by
  rw [trimQuotes, weight, List.countP_reverse, ← weight]
  refine (weight_sublist (List.dropWhile_sublist _)).trans ?_
  rw [weight, List.countP_reverse, ← weight]
  exact weight_sublist (List.dropWhile_sublist _)

theorem weight_quoted (t : Text) : weight (quoted t) = weight t := by
  rw [quoted, List.cons_append, weight_cons, weight_append]
  rfl

theorem not_isUpper_of_light {c : Char} (h : heavy c = false) : c.isUpper = false := by
  rw [heavy, Bool.and_eq_false_iff] at h
  rcases h with h | h
  · have hc : c = '"' := by simpa using h
    rw [hc]
    decide
  · rw [Bool.not_eq_false', isWhitespace] at h
    unfold Char.isUpper
    rw [decide_eq_false_iff_not, ge_iff_le, UInt32.le_iff_toNat_le, UInt32.le_iff_toNat_le]
    change ¬ (65 ≤ c.toNat ∧ c.toNat ≤ 90)
    simp only [Bool.or_eq_true, Bool.and_eq_true, decide_eq_true_eq] at h
    omega

theorem weight_toAsciiLowercase (t : Text) : weight (toAsciiLowercase t) ≤ weight t := by
  rw [weight, toAsciiLowercase, List.countP_map]
  refine List.countP_mono_left fun c _ hc => ?_
  by_contra hlight
  rw [Function.comp_apply, toLower_eq_self (not_isUpper_of_light (Bool.eq_false_iff.2 hlight))] at hc
  exact hlight hc

theorem weight_intercalate {sep : Char} (hsep : heavy sep = false) (ts : List Text) :
    weight ([sep].intercalate ts) = weights ts := by
  induction ts with
  | nil => rfl
  | cons t ts ih =>
    cases ts with
    | nil => simp [weights]
    | cons u ts =>
      rw [List.intercalate_cons_cons, weight_append, weight_append, ih, weight_cons, hsep]
      rfl

theorem weight_listed (names : List Text) : weight (SignatureParams.listed names) = weights names := by
  rw [SignatureParams.listed, weight_intercalate (by decide), weights, List.map_map]
  exact congrArg List.sum (List.map_congr_left fun t _ => weight_quoted t)

theorem weights_splitOn {sep : Char} (hsep : heavy sep = true) (t : Text) :
    ((t.splitOn sep).map fun piece => weight piece + 1).sum = weight t + 1 := by
  have hone : weight [sep] = 1 := by rw [weight_cons, if_pos hsep]; rfl
  have htext : weight (terminated sep (t.splitOn sep)) = weight t + 1 := by
    rw [terminated_splitOn, weight_append, hone]
  rw [← htext]
  generalize t.splitOn sep = pieces
  induction pieces with
  | nil => rfl
  | cons piece pieces ih =>
    rw [terminated, List.flatMap_cons, ← terminated, weight_append, weight_append, hone, ← ih]
    rfl

theorem weights_splitWhitespace (t : Text) : weights (splitWhitespace t) ≤ weight t := by
  have hsplit : weights (t.splitOnP isWhitespace) ≤ weight t := by
    induction t with
    | nil => exact Nat.le_refl 0
    | cons c t ih =>
      rw [List.splitOnP_cons_eq_if_modifyHead, weight_cons]
      split
      · rw [weights, List.map_cons, List.sum_cons, ← weights, weight_nil]
        omega
      · cases hs : t.splitOnP isWhitespace with
        | nil => exact absurd hs (List.splitOnP_ne_nil _ _)
        | cons first rest =>
          rw [hs] at ih
          rw [weights, List.map_cons, List.sum_cons] at ih
          rw [List.modifyHead_cons, weights, List.map_cons, List.sum_cons, weight_cons]
          omega
  have hfilter : ∀ words : List Text, weights (words.filter (· ≠ [])) ≤ weights words := by
    intro words
    exact List.Sublist.sum_le_sum (List.filter_sublist.map weight) (by simp)
  exact (hfilter _).trans hsplit

theorem weights_readComponents (inner : Text) : weights (readComponents inner) ≤ weight inner := by
  refine (List.Sublist.sum_le_sum (List.filter_sublist.map weight) (by simp)).trans ?_
  refine le_trans ?_ (weights_splitWhitespace inner)
  rw [weights, List.map_map]
  refine List.sum_le_sum fun word _ => ?_
  exact (weight_toAsciiLowercase _).trans (weight_trimQuotes word)

/-! ### The parameters weigh what they were read from -/

/-- What a parameter adds to the text, where it is there. -/
def cost (name : Text) : Option Text → Nat
  | none => 0
  | some value => 2 + weight name + weight value

theorem weight_written (stated : List (Text × Text)) :
    weight (SignatureParams.written stated) = (stated.map fun s => 2 + weight s.1 + weight s.2).sum := by
  induction stated with
  | nil => rfl
  | cons s stated ih =>
    rw [SignatureParams.written, List.flatMap_cons, ← SignatureParams.written, weight_append, ih,
      List.cons_append, weight_cons, weight_append, weight_cons, if_pos (by decide), if_pos (by decide),
      List.map_cons, List.sum_cons]
    omega

theorem sum_stated {α : Type} (field : Option α) (name : Text) (write : α → Text) :
    (((field.map fun x => (name, write x)).toList).map fun s => 2 + weight s.1 + weight s.2).sum =
      cost name (field.map write) := by
  cases field <;> simp [cost]

theorem weight_stated (p : SignatureParams) : weight (SignatureParams.written p.stated) =
    cost "created".toList (p.created.map intText) + cost "expires".toList (p.expires.map intText) +
      cost "keyid".toList (p.keyId.map quoted) + cost "alg".toList (p.alg.map quoted) +
      cost "nonce".toList (p.nonce.map quoted) + cost "tag".toList (p.tag.map quoted) := by
  rw [weight_written]
  simp only [SignatureParams.stated, List.map_append, List.sum_append, sum_stated]

theorem heavy_of_isDigit {c : Char} (hc : c.isDigit = true) : heavy c = true := by
  by_contra hlight
  rw [Bool.not_eq_true, heavy, Bool.and_eq_false_iff] at hlight
  rw [Char.isDigit, Bool.and_eq_true, decide_eq_true_iff, decide_eq_true_iff, ge_iff_le,
    UInt32.le_iff_toNat_le, UInt32.le_iff_toNat_le] at hc
  change 48 ≤ c.toNat ∧ c.toNat ≤ 57 at hc
  rcases hlight with hquote | hspace
  · have hc' : c = '"' := by simpa using hquote
    subst hc'
    exact absurd hc (by decide)
  · rw [Bool.not_eq_false', isWhitespace] at hspace
    simp only [Bool.or_eq_true, Bool.and_eq_true, decide_eq_true_eq] at hspace
    omega

theorem weight_intText {raw : Text} {n : Int} (h : parseI64 raw = some n) : weight (intText n) ≤ weight raw := by
  obtain ⟨sign, digits, rfl, -, hall, hsign⟩ := parseI64_eq_some h
  have hsigned : ∀ c ∈ sign, heavy c = true := by
    rcases hsign with ⟨rfl, -⟩ | ⟨rfl | rfl, -⟩
    · exact List.forall_mem_singleton.2 (by decide)
    · exact fun c hc => absurd hc List.not_mem_nil
    · exact List.forall_mem_singleton.2 (by decide)
  have hfull : weight (sign ++ digits) = (sign ++ digits).length := by
    rw [weight, List.countP_eq_length]
    intro c hc
    rw [List.mem_append] at hc
    exact hc.elim (hsigned c) fun hc => heavy_of_isDigit (List.all_eq_true.1 hall c hc)
  rw [hfull]
  exact List.countP_le_length.trans (length_intText_le h)

theorem weight_readParameter (p : SignatureParams) (piece : Text) :
    weight (SignatureParams.written (readParameter p piece).stated) ≤
      weight (SignatureParams.written p.stated) + (weight piece + 1) := by
  unfold readParameter
  split
  · omega
  · rename_i name raw hsplit
    have hpiece : weight piece = weight name + 1 + weight raw := by
      rw [(splitOnce_eq_some hsplit).1, weight_append, weight_cons, if_pos (by decide)]
      omega
    have hname := weight_trim name
    have hraw := weight_trim raw
    have htext : weight (quoted (trimQuotes (trim raw))) ≤ weight raw := by
      rw [weight_quoted]
      exact (weight_trimQuotes _).trans hraw
    have hint (key : Text) (hkey : trim name = key) :
        cost key ((parseI64 (trim raw)).map intText) ≤ weight piece + 1 := by
      cases hparse : parseI64 (trim raw) with
      | none => exact Nat.zero_le _
      | some n =>
        have hn := weight_intText hparse
        rw [Option.map_some, cost, ← hkey]
        omega
    have hquoted (key : Text) (hkey : trim name = key) :
        cost key ((some (trimQuotes (trim raw))).map quoted) ≤ weight piece + 1 := by
      rw [Option.map_some, cost, ← hkey]
      omega
    simp only [weight_stated]
    split
    · rename_i hkey
      have := hint _ hkey
      simp only
      omega
    split
    · rename_i hkey
      have := hint _ hkey
      simp only
      omega
    split
    · rename_i hkey
      have := hquoted _ hkey
      simp only
      omega
    split
    · rename_i hkey
      have := hquoted _ hkey
      simp only
      omega
    split
    · rename_i hkey
      have := hquoted _ hkey
      simp only
      omega
    split
    · rename_i hkey
      have := hquoted _ hkey
      simp only
      omega
    · omega

theorem weight_readParams (components : List Text) (rest : Text) :
    weight (SignatureParams.written (readParams components rest).stated) ≤ weight rest + 1 := by
  have hrun : ∀ (pieces : List Text) (p : SignatureParams),
      weight (SignatureParams.written (pieces.foldl readParameter p).stated) ≤
        weight (SignatureParams.written p.stated) + (pieces.map fun piece => weight piece + 1).sum := by
    intro pieces
    induction pieces with
    | nil => exact fun p => Nat.le_refl _
    | cons piece pieces ih =>
      intro p
      have hpiece := weight_readParameter p piece
      have hpieces := ih (readParameter p piece)
      rw [List.foldl_cons, List.map_cons, List.sum_cons]
      omega
  have hrest := hrun (rest.splitOn ';') ⟨components, none, none, none, none, none, none⟩
  rw [weights_splitOn (by decide)] at hrest
  refine hrest.trans ?_
  rw [show weight (SignatureParams.written (⟨components, none, none, none, none, none, none⟩ :
    SignatureParams).stated) = 0 from rfl, Nat.zero_add]

theorem weight_parseInputMember {member label : Text} {p : SignatureParams}
    (h : parseInputMember member = some (some (label, p))) :
    weight p.toValue + weight label ≤ weight member := by
  obtain ⟨before, value, inner, rest, hsplit, hvalue, -, rfl, rfl⟩ := parseInputMember_split h
  have hlabel := weight_trim before
  have htrim := weight_trim value
  rw [hvalue, weight_cons, weight_append, weight_cons, if_pos (by decide), if_pos (by decide)] at htrim
  have hcomponents := weights_readComponents inner
  have hparams := weight_readParams (readComponents inner) rest
  rw [(splitOnce_eq_some hsplit).1, weight_append, weight_cons, if_pos (by decide),
    SignatureParams.toValue_eq, List.cons_append, weight_cons, weight_append, weight_cons, weight_listed,
    if_pos (by decide), if_pos (by decide), (SignatureParams.readParams_spec _ _).1]
  omega

/-! ### Members -/

theorem splitMembers_ne_nil (s : Scan) (t : Text) : splitMembers s t ≠ [] := by
  cases t with
  | nil => simp [splitMembers]
  | cons c t =>
    rw [splitMembers]
    split
    · simp
    · split <;> simp

theorem intercalate_splitMembers (s : Scan) (t : Text) : [','].intercalate (splitMembers s t) = t := by
  induction t generalizing s with
  | nil => rfl
  | cons c t ih =>
    rw [splitMembers]
    split
    · rename_i hsep
      have hc : c = ',' := by
        rw [Scan.separates] at hsep
        simp only [Bool.and_eq_true, decide_eq_true_eq] at hsep
        exact hsep.1.1.1
      obtain ⟨member, members, hmembers⟩ := List.exists_cons_of_ne_nil (splitMembers_ne_nil s t)
      have hrest := ih s
      rw [hmembers] at hrest ⊢
      rw [List.intercalate_cons_cons, hrest, hc]
      rfl
    · obtain ⟨member, members, hmembers⟩ := List.exists_cons_of_ne_nil (splitMembers_ne_nil (s.next c) t)
      have hrest := ih (s.next c)
      rw [hmembers] at hrest ⊢
      simp only
      cases members with
      | nil => simpa using hrest
      | cons m members =>
        rw [List.intercalate_cons_cons] at hrest ⊢
        rw [← hrest]
        rfl

theorem splitMembers_of_not_mem {t : Text} (h : ',' ∉ t) (s : Scan) : splitMembers s t = [t] := by
  induction t generalizing s with
  | nil => rfl
  | cons c t ih =>
    rw [List.mem_cons, not_or] at h
    have hsep : s.separates c = false := by
      rw [Scan.separates, decide_eq_false (Ne.symm h.1)]
      rfl
    rw [splitMembers, if_neg (by rw [hsep]; decide), ih h.2]

theorem weight_le_intercalate (sep : Char) {t : Text} {ts : List Text} (h : t ∈ ts) :
    weight t ≤ weight ([sep].intercalate ts) := by
  induction ts with
  | nil => cases h
  | cons u ts ih =>
    cases ts with
    | nil =>
      rw [List.mem_singleton.1 h, List.intercalate_singleton]
    | cons v ts =>
      rw [List.intercalate_cons_cons, weight_append, weight_append]
      rw [List.mem_cons] at h
      obtain rfl | h := h
      · omega
      · have := ih h
        omega

/-- One member of several lacks two characters of the header at least, where they are at its ends. -/
theorem weight_member {header member : Text} {c d : Char} {middle : Text}
    (hheader : header = c :: middle ++ [d, '"']) (hc : heavy c = true ∧ c ≠ ',')
    (hd : heavy d = true ∧ d ≠ ',') (hmember : member ∈ splitMembers .start header) :
    splitMembers .start header = [header] ∨ weight member + 2 ≤ weight header := by
  obtain ⟨before, after, hsplit⟩ := List.append_of_mem hmember
  have hjoin := intercalate_splitMembers .start header
  rw [hsplit] at hjoin ⊢
  cases before with
  | nil =>
    cases after with
    | nil =>
      left
      rw [List.nil_append] at hjoin ⊢
      rw [← hjoin, List.intercalate_singleton]
    | cons next after =>
      right
      rw [List.nil_append, List.intercalate_cons_cons] at hjoin
      generalize [','].intercalate (next :: after) = rest at hjoin
      have hrest : 1 ≤ weight rest := by
        rw [hheader] at hjoin
        rcases List.append_eq_append_iff.1 hjoin with ⟨tail, hinit, htail⟩ | ⟨tail, hinit, htail⟩
        · rw [htail, weight_append, weight_cons, if_pos hd.1]
          omega
        -- the comma would be one of the last two characters
        · have hcomma {x : Char} {init : Text} (heq : member ++ [','] = init ++ [x]) : x = ',' :=
            (List.append_inj' heq rfl).2 |> List.singleton_inj.1 |> Eq.symm
          match tail, htail with
          | [], htail =>
            rw [List.nil_append] at htail
            rw [← htail, weight_cons, if_pos hd.1]
            omega
          | [x], htail =>
            rw [List.singleton_append, List.cons.injEq] at htail
            exact absurd (htail.1.trans (hcomma hinit)) hd.2
          | [x, y], htail =>
            rw [List.cons_append, List.singleton_append, List.cons.injEq, List.cons.injEq] at htail
            rw [show c :: middle ++ [x, y] = (c :: middle ++ [x]) ++ [y] by simp] at hinit
            exact absurd (htail.2.1.trans (hcomma hinit)) (by decide)
          | x :: y :: z :: tail, htail => simp at htail
      rw [← hjoin, weight_append, weight_append, show weight [','] = 1 by decide]
      omega
  | cons first before =>
    right
    have hrest := weight_le_intercalate ','
      (List.mem_append_right before (@List.mem_cons_self _ member after))
    obtain ⟨next, later, hlater⟩ := List.exists_cons_of_ne_nil
      (show before ++ member :: after ≠ [] by simp)
    rw [List.cons_append, hlater, List.intercalate_cons_cons, ← hlater] at hjoin
    have hfirst : 1 ≤ weight first := by
      cases first with
      | nil =>
        rw [hheader] at hjoin
        exact absurd (List.cons.inj hjoin).1.symm hc.2
      | cons x first =>
        rw [hheader] at hjoin
        rw [(List.cons.inj hjoin).1, weight_cons, if_pos hc.1]
        omega
    rw [← hjoin, weight_append, weight_append, show weight [','] = 1 by decide]
    omega

end Noeta.Ext
