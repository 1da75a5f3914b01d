import Noeta.Lib.Cutter

/-!
# Lossy UTF-8

The decoding `str::from_utf8`, `Utf8Error` and `String::from_utf8_lossy` document, one sequence at a
time: what stands at the head of a byte string is a character, an invalid sequence of one to three
bytes, or the beginning of a character whose end is missing.
-/

namespace Noeta.Lib.Utf8

/-- What stands at the head of a non-empty byte string. -/
inductive Head where
  | char (c : Char) (width : Nat)
  | invalid (len : Nat)
  | truncated
deriving DecidableEq, Repr

/-- A continuation byte. -/
def isCont (b : UInt8) : Bool := 0x80 ≤ b && b ≤ 0xBF

/-- The second bytes a three-byte sequence may have. -/
def second3 (a b : UInt8) : Bool :=
  if a = 0xE0 then 0xA0 ≤ b && b ≤ 0xBF
  else if a = 0xED then 0x80 ≤ b && b ≤ 0x9F
  else isCont b

/-- The second bytes a four-byte sequence may have. -/
def second4 (a b : UInt8) : Bool :=
  if a = 0xF0 then 0x90 ≤ b && b ≤ 0xBF
  else if a = 0xF4 then 0x80 ≤ b && b ≤ 0x8F
  else isCont b

/-- The payload bits of a continuation byte. -/
def low6 (b : UInt8) : Nat := b.toNat % 64

/-- The sequence a first byte opens. -/
inductive Lead where
  | one
  | two
  | three
  | four
  | bad
deriving DecidableEq, Repr

def lead (a : UInt8) : Lead :=
  if a < 0x80 then .one
  else if 0xC2 ≤ a && a ≤ 0xDF then .two
  else if 0xE0 ≤ a && a ≤ 0xEF then .three
  else if 0xF0 ≤ a && a ≤ 0xF4 then .four
  else .bad

def char1 (a : UInt8) : Char := .ofNat a.toNat

def char2 (a b : UInt8) : Char := .ofNat ((a.toNat % 32) * 64 + low6 b)

def char3 (a b c : UInt8) : Char := .ofNat (((a.toNat % 16) * 64 + low6 b) * 64 + low6 c)

def char4 (a b c d : UInt8) : Char :=
  .ofNat ((((a.toNat % 8) * 64 + low6 b) * 64 + low6 c) * 64 + low6 d)

/-- One sequence, as the validation reads it: each byte that is missing makes the sequence
truncated, each byte that does not fit ends an invalid one before it. -/
def headFrom (a : UInt8) : Lead → List UInt8 → Head
  | .one, _ => .char (char1 a) 1
  | .two, [] => .truncated
  | .two, b :: _ => if isCont b then .char (char2 a b) 2 else .invalid 1
  | .three, [] => .truncated
  | .three, b :: rest =>
    if second3 a b then
      match rest with
      | [] => .truncated
      | c :: _ => if isCont c then .char (char3 a b c) 3 else .invalid 2
    else .invalid 1
  | .four, [] => .truncated
  | .four, b :: rest =>
    if second4 a b then
      match rest with
      | [] => .truncated
      | c :: rest =>
        if isCont c then
          match rest with
          | [] => .truncated
          | d :: _ => if isCont d then .char (char4 a b c d) 4 else .invalid 3
        else .invalid 2
    else .invalid 1
  | .bad, _ => .invalid 1

def head : List UInt8 → Option Head
  | [] => none
  | a :: rest => some (headFrom a (lead a) rest)

variable {bs rest : List UInt8} {a : UInt8} {l : Lead} {c : Char} {w n : Nat} {t : List Char}

theorem head_eq_none (h : head bs = none) : bs = [] := by
  cases bs with
  | nil => rfl
  | cons a rest => simp [head] at h

theorem headFrom_char (h : headFrom a l rest = .char c w) : 1 ≤ w ∧ w ≤ rest.length + 1 ∧
      ∀ more, headFrom a l (rest.take (w - 1) ++ more) = .char c w := by
  revert h
  fun_cases headFrom a l rest
  all_goals simp_all
  all_goals
    rintro rfl rfl
    simp_all [headFrom]

theorem headFrom_invalid (h : headFrom a l rest = .invalid n) : 1 ≤ n ∧ n ≤ rest.length + 1 := by
  revert h
  fun_cases headFrom a l rest
  all_goals simp_all
  all_goals
    rintro rfl
    simp

theorem headFrom_append (h : headFrom a l rest ≠ .truncated) (more : List UInt8) :
    headFrom a l (rest ++ more) = headFrom a l rest := by
  revert h
  fun_cases headFrom a l rest
  all_goals simp_all [headFrom]

theorem head_char (h : head bs = some (.char c w)) :
    1 ≤ w ∧ w ≤ bs.length ∧ ∀ more, head (bs.take w ++ more) = some (.char c w) := by
  cases bs with
  | nil => simp [head] at h
  | cons a rest =>
    obtain ⟨hpos, hle, hown⟩ := headFrom_char (Option.some.inj h)
    refine ⟨hpos, by simpa using hle, ?_⟩
    intro more
    obtain ⟨k, rfl⟩ : ∃ k, w = k + 1 := ⟨w - 1, by omega⟩
    simpa [head] using hown more

theorem head_invalid (h : head bs = some (.invalid n)) : 1 ≤ n ∧ n ≤ bs.length := by
  cases bs with
  | nil => simp [head] at h
  | cons a rest => simpa using headFrom_invalid (Option.some.inj h)

theorem head_append {s : Head} (h : head bs = some s) (hs : s ≠ .truncated)
    (more : List UInt8) : head (bs ++ more) = some s := by
  cases bs with
  | nil => simp [head] at h
  | cons a rest =>
    have hhead : headFrom a (lead a) rest = s := Option.some.inj h
    rw [List.cons_append, head, headFrom_append (by rw [hhead]; exact hs), hhead]

/-! ### The decodings of the standard library -/

/-- The replacement character. -/
def replacement : Char := Char.ofNat 0xFFFD

/-- What an error of `str::from_utf8` reports: how far the text was valid, and the length of the
invalid sequence, `none` for one that the end of the input cut off. -/
structure Utf8Error where
  validUpTo : Nat
  errorLen : Option Nat
deriving DecidableEq, Repr

/-- `str::from_utf8`: the error, if there is one. -/
def fromUtf8 (bs : List UInt8) : Option Utf8Error :=
  match _hhead : head bs with
  | none => none
  | some (.char _ w) => (fromUtf8 (bs.drop w)).map fun e => { e with validUpTo := w + e.validUpTo }
  | some (.invalid n) => some { validUpTo := 0, errorLen := some n }
  | some .truncated => some { validUpTo := 0, errorLen := none }
termination_by bs.length
decreasing_by
  have := head_char _hhead
  rw [List.length_drop]
  omega

/-- `String::from_utf8_lossy`: every invalid sequence, and a sequence that the end cut off, becomes
one replacement character. -/
def fromUtf8Lossy (bs : List UInt8) : List Char :=
  match _hhead : head bs with
  | none => []
  | some (.char c w) => c :: fromUtf8Lossy (bs.drop w)
  | some (.invalid n) => replacement :: fromUtf8Lossy (bs.drop n)
  | some .truncated => [replacement]
termination_by bs.length
decreasing_by
  · have := head_char _hhead
    rw [List.length_drop]
    omega
  · have := head_invalid _hhead
    rw [List.length_drop]
    omega

section Equations

variable {bs : List UInt8}

theorem fromUtf8_nil : fromUtf8 [] = none := by
  rw [fromUtf8]
  rfl

theorem fromUtf8_char {c : Char} {w : Nat} (h : head bs = some (.char c w)) :
    fromUtf8 bs =
      (fromUtf8 (bs.drop w)).map fun e => { e with validUpTo := w + e.validUpTo } := by
  rw [fromUtf8]
  split <;> simp_all

theorem fromUtf8_invalid {n : Nat} (h : head bs = some (.invalid n)) :
    fromUtf8 bs = some { validUpTo := 0, errorLen := some n } := by
  rw [fromUtf8]
  split <;> simp_all

theorem fromUtf8_truncated (h : head bs = some .truncated) :
    fromUtf8 bs = some { validUpTo := 0, errorLen := none } := by
  rw [fromUtf8]
  split <;> simp_all

theorem fromUtf8Lossy_nil : fromUtf8Lossy [] = [] := by
  rw [fromUtf8Lossy]
  rfl

theorem fromUtf8Lossy_char {c : Char} {w : Nat} (h : head bs = some (.char c w)) :
    fromUtf8Lossy bs = c :: fromUtf8Lossy (bs.drop w) := by
  rw [fromUtf8Lossy]
  split <;> simp_all

theorem fromUtf8Lossy_invalid {n : Nat} (h : head bs = some (.invalid n)) :
    fromUtf8Lossy bs = replacement :: fromUtf8Lossy (bs.drop n) := by
  rw [fromUtf8Lossy]
  split <;> simp_all

end Equations

/-! ### Cutting bytes into characters -/

/-- One character at a time, a replacement for each invalid sequence; it waits on a sequence whose
end is missing. -/
def cutter : Cutter UInt8 Char where
  next bs :=
    match head bs with
    | some (.char c w) => some (c, bs.drop w)
    | some (.invalid n) => some (replacement, bs.drop n)
    | _ => none
  shrinks {bs x r} h := by
    split at h
    · rename_i c w hhead
      simp only [Option.some.injEq, Prod.mk.injEq] at h
      obtain ⟨-, rfl⟩ := h
      have := head_char hhead
      rw [List.length_drop]
      omega
    · rename_i n hhead
      simp only [Option.some.injEq, Prod.mk.injEq] at h
      obtain ⟨-, rfl⟩ := h
      have := head_invalid hhead
      rw [List.length_drop]
      omega
    · simp at h
  stable {bs x r} more h := by
    split at h
    · rename_i c w hhead
      simp only [Option.some.injEq, Prod.mk.injEq] at h
      obtain ⟨rfl, rfl⟩ := h
      simp only [head_append hhead (by simp) more]
      rw [List.drop_append_of_le_length (head_char hhead).2.1]
    · rename_i n hhead
      simp only [Option.some.injEq, Prod.mk.injEq] at h
      obtain ⟨rfl, rfl⟩ := h
      simp only [head_append hhead (by simp) more]
      rw [List.drop_append_of_le_length (head_invalid hhead).2]
    · simp at h

theorem cutter_char (h : head bs = some (.char c w)) :
    cutter.run bs = (c :: (cutter.run (bs.drop w)).1, (cutter.run (bs.drop w)).2) :=
  cutter.run_some (by simp only [cutter, h])

theorem cutter_invalid (h : head bs = some (.invalid n)) :
    cutter.run bs = (replacement :: (cutter.run (bs.drop n)).1, (cutter.run (bs.drop n)).2) :=
  cutter.run_some (by simp only [cutter, h])

theorem cutter_truncated (h : head bs = some .truncated) : cutter.run bs = ([], bs) :=
  cutter.run_none (by simp only [cutter, h])

theorem cutter_nil : cutter.run [] = ([], []) :=
  cutter.run_none rfl

theorem head_induction {motive : List UInt8 → Prop} (nil : motive [])
    (char : ∀ bs c w, head bs = some (.char c w) → motive (bs.drop w) → motive bs)
    (invalid : ∀ bs n, head bs = some (.invalid n) → motive (bs.drop n) → motive bs)
    (truncated : ∀ bs, head bs = some .truncated → motive bs) (bs : List UInt8) : motive bs := by
  induction bs using cutter.run_induction with
  | wait bs h =>
    cases hhead : head bs with
    | none =>
      rw [head_eq_none hhead]
      exact nil
    | some s =>
      cases s with
      | truncated => exact truncated bs hhead
      | char c w => simp [cutter, hhead] at h
      | invalid n => simp [cutter, hhead] at h
  | cut bs x r h ih =>
    cases hhead : head bs with
    | none => simp [cutter, hhead] at h
    | some s =>
      cases s with
      | truncated => simp [cutter, hhead] at h
      | char c w =>
        simp only [cutter, hhead, Option.some.injEq, Prod.mk.injEq] at h
        exact char bs c w hhead (h.2 ▸ ih)
      | invalid n =>
        simp only [cutter, hhead, Option.some.injEq, Prod.mk.injEq] at h
        exact invalid bs n hhead (h.2 ▸ ih)

theorem fromUtf8Lossy_eq_run (bs : List UInt8) :
    fromUtf8Lossy bs = (cutter.run bs).1 ++ fromUtf8Lossy (cutter.run bs).2 := by
  induction bs using head_induction with
  | nil => rw [cutter_nil, List.nil_append]
  | char bs c w h ih => rw [fromUtf8Lossy_char h, cutter_char h, List.cons_append, ← ih]
  | invalid bs n h ih => rw [fromUtf8Lossy_invalid h, cutter_invalid h, List.cons_append, ← ih]
  | truncated bs h => rw [cutter_truncated h, List.nil_append]

/-- The valid part of a byte string is cut whole, and the rest from where it ends. -/
theorem run_of_validUpTo (bs : List UInt8) (good : Nat)
    (h : (fromUtf8 bs).elim bs.length Utf8Error.validUpTo = good) :
    cutter.run bs = (fromUtf8Lossy (bs.take good) ++ (cutter.run (bs.drop good)).1,
      (cutter.run (bs.drop good)).2) := by
  induction bs using head_induction generalizing good with
  | nil => simp [fromUtf8Lossy_nil, cutter_nil]
  | char bs c w hhead ih =>
    obtain ⟨hpos, hle, hown⟩ := head_char hhead
    have hgood : good = w + (fromUtf8 (bs.drop w)).elim (bs.drop w).length Utf8Error.validUpTo := by
      rw [← h, fromUtf8_char hhead]
      cases fromUtf8 (bs.drop w) with
      | none =>
        simp only [Option.map_none, Option.elim_none, List.length_drop]
        omega
      | some e => rfl
    have hih := ih _ rfl
    rw [cutter_char hhead, hih, hgood]
    have htake : bs.take (w + (fromUtf8 (bs.drop w)).elim (bs.drop w).length Utf8Error.validUpTo) =
        bs.take w ++
          (bs.drop w).take ((fromUtf8 (bs.drop w)).elim (bs.drop w).length Utf8Error.validUpTo) :=
      List.take_add
    rw [htake, fromUtf8Lossy_char (hown _), ← List.drop_drop, List.cons_append]
    have hdrop : ∀ more : List UInt8, (bs.take w ++ more).drop w = more := by
      intro more
      rw [List.drop_append_of_le_length (by rw [List.length_take]; omega)]
      simp
    rw [hdrop]
  | invalid bs n hhead ih =>
    rw [fromUtf8_invalid hhead] at h
    simp only [Option.elim_some] at h
    subst h
    simp [fromUtf8Lossy_nil]
  | truncated bs hhead =>
    rw [fromUtf8_truncated hhead] at h
    simp only [Option.elim_some] at h
    subst h
    simp [fromUtf8Lossy_nil]

theorem head_of_fromUtf8 (bs : List UInt8) (e : Utf8Error) (h : fromUtf8 bs = some e) :
    e.validUpTo ≤ bs.length ∧ head (bs.drop e.validUpTo) =
      some (e.errorLen.elim .truncated Head.invalid) := by
  induction bs using head_induction generalizing e with
  | nil => simp [fromUtf8_nil] at h
  | char bs c w hhead ih =>
    rw [fromUtf8_char hhead, Option.map_eq_some_iff] at h
    obtain ⟨e', he', rfl⟩ := h
    obtain ⟨hle, hrest⟩ := ih e' he'
    have hw := (head_char hhead).2.1
    rw [List.length_drop] at hle
    refine ⟨by simp only; omega, ?_⟩
    rw [List.drop_drop] at hrest
    exact hrest
  | invalid bs n hhead ih =>
    rw [fromUtf8_invalid hhead, Option.some.injEq] at h
    subst h
    exact ⟨Nat.zero_le _, hhead⟩
  | truncated bs hhead =>
    rw [fromUtf8_truncated hhead, Option.some.injEq] at h
    subst h
    exact ⟨Nat.zero_le _, hhead⟩

/-! ### Encoding -/

def encode (t : List Char) : List UInt8 := t.flatMap String.utf8EncodeChar

theorem toNat_ofNat (h : n < 256) : (UInt8.ofNat n).toNat = n := by
  rw [UInt8.toNat_ofNat']
  omega

theorem isCont_ofNat (h : n < 64) : isCont (UInt8.ofNat (n + 0x80)) = true := by
  simp only [isCont, Bool.and_eq_true, decide_eq_true_eq, UInt8.le_iff_toNat_le]
  rw [toNat_ofNat (by omega)]
  exact ⟨Nat.le_add_left _ _, by change n + 0x80 ≤ 0xBF; omega⟩

theorem low6_ofNat (h : n < 64) : low6 (UInt8.ofNat (n + 0x80)) = n := by
  rw [low6, toNat_ofNat (by omega)]
  omega

theorem lead_eq (a : UInt8) :
    lead a =
      if a.toNat < 0x80 then .one
      else if 0xC2 ≤ a.toNat ∧ a.toNat ≤ 0xDF then .two
      else if 0xE0 ≤ a.toNat ∧ a.toNat ≤ 0xEF then .three
      else if 0xF0 ≤ a.toNat ∧ a.toNat ≤ 0xF4 then .four
      else .bad := by
  simp only [lead, UInt8.lt_iff_toNat_lt, UInt8.le_iff_toNat_le, Bool.and_eq_true, decide_eq_true_eq]
  rfl

theorem second3_eq (a b : UInt8) :
    second3 a b =
      if a.toNat = 0xE0 then decide (0xA0 ≤ b.toNat ∧ b.toNat ≤ 0xBF)
      else if a.toNat = 0xED then decide (0x80 ≤ b.toNat ∧ b.toNat ≤ 0x9F)
      else isCont b := by
  simp only [second3, ← UInt8.toNat_inj, UInt8.le_iff_toNat_le, Bool.decide_and]
  rfl

theorem second4_eq (a b : UInt8) :
    second4 a b =
      if a.toNat = 0xF0 then decide (0x90 ≤ b.toNat ∧ b.toNat ≤ 0xBF)
      else if a.toNat = 0xF4 then decide (0x80 ≤ b.toNat ∧ b.toNat ≤ 0x8F)
      else isCont b := by
  simp only [second4, ← UInt8.toNat_inj, UInt8.le_iff_toNat_le, Bool.decide_and]
  rfl

theorem char_bounds (c : Char) : c.toNat < 0xD800 ∨ (0xDFFF < c.toNat ∧ c.toNat < 0x110000) := c.valid

theorem head_one (h : n ≤ 0x7F) (rest : List UInt8) : head (UInt8.ofNat n :: rest) = some (.char (.ofNat n) 1) := by
  have hn : (UInt8.ofNat n).toNat = n := toNat_ofNat (by omega)
  have hlead : lead (UInt8.ofNat n) = .one := by
    rw [lead_eq, hn, if_pos (by omega)]
  rw [head, hlead, headFrom, char1, hn]

theorem head_two (hlow : 0x80 ≤ n) (hhigh : n ≤ 0x7FF) (rest : List UInt8) :
    head (UInt8.ofNat (n / 64 % 0x20 + 0xC0) :: UInt8.ofNat (n % 0x40 + 0x80) :: rest) =
      some (.char (.ofNat n) 2) := by
  have hn : (UInt8.ofNat (n / 64 % 0x20 + 0xC0)).toNat = n / 64 % 0x20 + 0xC0 := toNat_ofNat (by omega)
  have hmod : n % 0x40 < 64 := Nat.mod_lt _ (by omega)
  have hlead : lead (UInt8.ofNat (n / 64 % 0x20 + 0xC0)) = .two := by
    rw [lead_eq, hn, if_neg (by omega), if_pos (by omega)]
  have hvalue : (n / 64 % 0x20 + 0xC0) % 32 * 64 + n % 0x40 = n := by omega
  rw [head, hlead, headFrom, if_pos (isCont_ofNat hmod), char2, hn, low6_ofNat hmod, hvalue]

theorem head_three (hlow : 0x800 ≤ n) (hhigh : n ≤ 0xFFFF) (hvalid : n < 0xD800 ∨ 0xDFFF < n) (rest : List UInt8) :
    head (UInt8.ofNat (n / 4096 % 0x10 + 0xE0) :: UInt8.ofNat (n / 64 % 0x40 + 0x80) ::
      UInt8.ofNat (n % 0x40 + 0x80) :: rest) = some (.char (.ofNat n) 3) := by
  have hn : (UInt8.ofNat (n / 4096 % 0x10 + 0xE0)).toNat = n / 4096 % 0x10 + 0xE0 := toNat_ofNat (by omega)
  have hmid : n / 64 % 0x40 < 64 := Nat.mod_lt _ (by omega)
  have hmod : n % 0x40 < 64 := Nat.mod_lt _ (by omega)
  have hlead : lead (UInt8.ofNat (n / 4096 % 0x10 + 0xE0)) = .three := by
    rw [lead_eq, hn, if_neg (by omega), if_neg (by omega), if_pos (by omega)]
  have hsecond : second3 (UInt8.ofNat (n / 4096 % 0x10 + 0xE0)) (UInt8.ofNat (n / 64 % 0x40 + 0x80)) = true := by
    rw [second3_eq, hn, isCont_ofNat hmid, toNat_ofNat (by omega)]
    split_ifs with hlowest hsurrogate
    · exact decide_eq_true (by omega)
    · exact decide_eq_true (by omega)
    · rfl
  have hvalue : ((n / 4096 % 0x10 + 0xE0) % 16 * 64 + n / 64 % 0x40) * 64 + n % 0x40 = n := by omega
  rw [head, hlead, headFrom, if_pos hsecond, if_pos (isCont_ofNat hmod), char3, hn, low6_ofNat hmid, low6_ofNat hmod, hvalue]

theorem head_four (hlow : 0x10000 ≤ n) (hhigh : n < 0x110000) (rest : List UInt8) :
    head (UInt8.ofNat (n / 262144 % 0x08 + 0xF0) :: UInt8.ofNat (n / 4096 % 0x40 + 0x80) ::
      UInt8.ofNat (n / 64 % 0x40 + 0x80) :: UInt8.ofNat (n % 0x40 + 0x80) :: rest) =
      some (.char (.ofNat n) 4) := by
  have hn : (UInt8.ofNat (n / 262144 % 0x08 + 0xF0)).toNat = n / 262144 % 0x08 + 0xF0 := toNat_ofNat (by omega)
  have hhi : n / 4096 % 0x40 < 64 := Nat.mod_lt _ (by omega)
  have hmid : n / 64 % 0x40 < 64 := Nat.mod_lt _ (by omega)
  have hmod : n % 0x40 < 64 := Nat.mod_lt _ (by omega)
  have hlead : lead (UInt8.ofNat (n / 262144 % 0x08 + 0xF0)) = .four := by
    rw [lead_eq, hn, if_neg (by omega), if_neg (by omega), if_neg (by omega), if_pos (by omega)]
  have hsecond : second4 (UInt8.ofNat (n / 262144 % 0x08 + 0xF0)) (UInt8.ofNat (n / 4096 % 0x40 + 0x80)) = true := by
    rw [second4_eq, hn, isCont_ofNat hhi, toNat_ofNat (by omega)]
    split_ifs with hlowest hhighest
    · exact decide_eq_true (by omega)
    · exact decide_eq_true (by omega)
    · rfl
  have hvalue : (((n / 262144 % 0x08 + 0xF0) % 8 * 64 + n / 4096 % 0x40) * 64 + n / 64 % 0x40) * 64 + n % 0x40 = n := by
    omega
  rw [head, hlead, headFrom, if_pos hsecond, if_pos (isCont_ofNat hmid), if_pos (isCont_ofNat hmod), char4, hn, low6_ofNat hhi, low6_ofNat hmid, low6_ofNat hmod, hvalue]

theorem head_encodeChar (c : Char) (rest : List UInt8) :
    head (String.utf8EncodeChar c ++ rest) = some (.char c (String.utf8EncodeChar c).length) := by
  have hbounds := char_bounds c
  have hchar : Char.ofNat c.val.toNat = c := Char.ofNat_toNat c
  change c.val.toNat < 0xD800 ∨ (0xDFFF < c.val.toNat ∧ c.val.toNat < 0x110000) at hbounds
  unfold String.utf8EncodeChar
  simp only
  split_ifs with h1 h2 h3
  · exact (head_one h1 rest).trans (by rw [hchar]; rfl)
  · exact (head_two (by omega) h2 rest).trans (by rw [hchar]; rfl)
  · exact (head_three (by omega) h3 (by omega) rest).trans (by rw [hchar]; rfl)
  · exact (head_four (by omega) (by omega) rest).trans (by rw [hchar]; rfl)

theorem encode_cons (c : Char) (t : List Char) : encode (c :: t) = String.utf8EncodeChar c ++ encode t :=
  List.flatMap_cons

theorem encode_append (s t : List Char) : encode (s ++ t) = encode s ++ encode t :=
  List.flatMap_append

theorem fromUtf8Lossy_encode (t : List Char) : fromUtf8Lossy (encode t) = t := by
  induction t with
  | nil => exact fromUtf8Lossy_nil
  | cons c t ih =>
    rw [encode_cons, fromUtf8Lossy_char (head_encodeChar c (encode t)), List.drop_left, ih]

theorem utf8EncodeChar_cases (c : Char) :
    (c.toNat < 0x80 ∧ String.utf8EncodeChar c = [UInt8.ofNat c.toNat]) ∨
      (0x80 ≤ c.toNat ∧ String.utf8EncodeChar c ≠ [] ∧
        ∀ b ∈ String.utf8EncodeChar c, 0x80 ≤ b.toNat) := by
  have hbyte : ∀ n : Nat, 0x80 ≤ n → n < 0x100 → 0x80 ≤ (UInt8.ofNat n).toNat := by
    intro n hlow hhigh
    rw [toNat_ofNat hhigh]
    exact hlow
  have hbounds := char_bounds c
  change c.val.toNat < 0xD800 ∨ (0xDFFF < c.val.toNat ∧ c.val.toNat < 0x110000) at hbounds
  change (c.val.toNat < 0x80 ∧ String.utf8EncodeChar c = [UInt8.ofNat c.val.toNat]) ∨
    (0x80 ≤ c.val.toNat ∧ String.utf8EncodeChar c ≠ [] ∧
      ∀ b ∈ String.utf8EncodeChar c, 0x80 ≤ b.toNat)
  unfold String.utf8EncodeChar
  simp only
  split_ifs with h1 h2 h3
  · exact .inl ⟨by omega, rfl⟩
  all_goals
    refine .inr ⟨by omega, by simp, ?_⟩
    simp only [List.mem_cons, List.not_mem_nil, or_false, forall_eq_or_imp, forall_eq]
    and_intros <;> exact hbyte _ (by omega) (by omega)

theorem byte_eq_iff {c d : Char} (hd : d.toNat < 0x80) {b : UInt8} (hb : b ∈ String.utf8EncodeChar c) :
    b = UInt8.ofNat d.toNat ↔ c = d := by
  have hnat : (UInt8.ofNat d.toNat).toNat = d.toNat := toNat_ofNat (by omega)
  obtain ⟨hc, hbytes⟩ | ⟨hc, -, habove⟩ := utf8EncodeChar_cases c
  · rw [hbytes, List.mem_singleton] at hb
    rw [hb]
    constructor
    · intro h
      have hnats := congrArg UInt8.toNat h
      rw [hnat, toNat_ofNat (by omega)] at hnats
      exact Char.toNat_inj.1 hnats
    · intro h
      rw [h]
  · have hbelow := habove b hb
    constructor
    · intro h
      rw [h, hnat] at hbelow
      omega
    · intro h
      rw [h] at hc
      omega

theorem head?_encode {d : Char} (hd : d.toNat < 0x80) :
    (encode t).head? = some (UInt8.ofNat d.toNat) ↔ t.head? = some d := by
  cases t with
  | nil => simp [encode]
  | cons c t =>
    have hne := String.utf8EncodeChar_ne_nil (c := c)
    rw [encode_cons, List.head?_append_of_ne_nil _ hne, List.head?_eq_some_head hne, List.head?_cons,
      Option.some.injEq, Option.some.injEq]
    exact byte_eq_iff hd (List.head_mem hne)

theorem getLast?_encode {d : Char} (hd : d.toNat < 0x80) :
    (encode t).getLast? = some (UInt8.ofNat d.toNat) ↔ t.getLast? = some d := by
  obtain rfl | ⟨t, c, rfl⟩ := List.eq_nil_or_concat t
  · simp [encode]
  · have hne := String.utf8EncodeChar_ne_nil (c := c)
    have hone : encode [c] = String.utf8EncodeChar c := by simp [encode]
    rw [List.concat_eq_append, encode_append, hone, List.getLast?_append_of_ne_nil _ hne, List.getLast?_eq_some_getLast hne,
      List.getLast?_append, List.getLast?_singleton, Option.some_or, Option.some.injEq,
      Option.some.injEq]
    exact byte_eq_iff hd (List.getLast_mem hne)

theorem encode_ascii (h : ∀ c ∈ t, c.toNat < 0x80) : encode t = t.map fun c => UInt8.ofNat c.toNat := by
  induction t with
  | nil => rfl
  | cons c t ih =>
    have hc := h c List.mem_cons_self
    rw [encode_cons, ih fun d hd => h d (List.mem_cons_of_mem _ hd), List.map_cons]
    unfold String.utf8EncodeChar
    simp only
    rw [if_pos (by change c.toNat ≤ 0x7F; omega)]
    rfl

end Noeta.Lib.Utf8
