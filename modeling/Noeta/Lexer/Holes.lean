import Mathlib.Algebra.GroupWithZero.Nat
import Mathlib.Data.List.Basic

/-!
# Holes of interpolating strings

`interpolated_string_end` and `interpolation_hole_end` of `noeta-lexer/src/lib.rs`, and the parser's
own pair `find_hole_end` and `nested_string_end` of `noeta-parser/src/literals.rs`. An offset into a
text is the text from there on. Both pairs end a hole at the same place, and they end it where it is
written exactly when the hole is well nested as these scanners read it.
-/

namespace Noeta.Lexer

def isQuote (c : Char) : Bool :=
  c == '"' || c == '\'' || c == '\x60'

/-! ## The code

The loops call each other on what is left of the text. The first argument bounds the number of
rounds, and each round gets past a character. -/

mutual

/-- The loop of `interpolation_hole_end`. -/
def holeLoop : Nat → Nat → List Char → Option (List Char)
  | 0, _, _ => none
  | _ + 1, _, [] => none
  | fuel + 1, depth, c :: rest =>
    if c = '{' then holeLoop fuel (depth + 1) rest
    else if c = '}' then
      if depth = 1 then some rest else holeLoop fuel (depth - 1) rest
    else if isQuote c then (stringLoop fuel c rest).bind (holeLoop fuel depth)
    else holeLoop fuel depth rest

/-- The loop of `interpolated_string_end`. -/
def stringLoop : Nat → Char → List Char → Option (List Char)
  | 0, _, _ => none
  | _ + 1, _, [] => none
  | fuel + 1, quote, c :: rest =>
    if c = '\\' then stringLoop fuel quote (rest.drop 1)
    else if c = quote then some rest
    else if quote ≠ '\'' ∧ c = '$' ∧ rest.head? = some '{' then
      (holeLoop fuel 1 rest.tail).bind (stringLoop fuel quote)
    else stringLoop fuel quote rest

end

/-- From inside a hole, at a depth of braces. -/
def holeFrom (depth : Nat) (text : List Char) : Option (List Char) :=
  holeLoop (text.length + 1) depth text

/-- `interpolation_hole_end`: what follows the closing brace. -/
def interpolationHoleEnd (text : List Char) : Option (List Char) :=
  holeFrom 1 text

/-- `interpolated_string_end`, from just past the opening quote: what follows the closing one. -/
def interpolatedStringEnd (quote : Char) (text : List Char) : Option (List Char) :=
  stringLoop (text.length + 1) quote text

mutual

/-- The loop of `find_hole_end`. -/
def findHoleLoop : Nat → Nat → List Char → List Char
  | 0, _, _ => []
  | _ + 1, _, [] => []
  | fuel + 1, depth, c :: rest =>
    if c = '{' then findHoleLoop fuel (depth + 1) rest
    else if c = '}' then
      if depth = 1 then c :: rest else findHoleLoop fuel (depth - 1) rest
    else if isQuote c then findHoleLoop fuel depth (nestedStringLoop fuel c rest)
    else findHoleLoop fuel depth rest

/-- The loop of `nested_string_end`. -/
def nestedStringLoop : Nat → Char → List Char → List Char
  | 0, _, _ => []
  | _ + 1, _, [] => []
  | fuel + 1, quote, c :: rest =>
    if c = '\\' then nestedStringLoop fuel quote (rest.drop 1)
    else if c = quote then rest
    else if quote ≠ '\'' ∧ c = '$' ∧ rest.head? = some '{' then
      nestedStringLoop fuel quote ((findHoleLoop fuel 1 rest.tail).drop 1)
    else nestedStringLoop fuel quote rest

end

/-- `find_hole_end`: the text from the closing brace on, nothing when there is none. -/
def findHoleEnd (inner : List Char) : List Char :=
  findHoleLoop (inner.length + 1) 1 inner

/-! ## The rounds suffice -/

theorem loops_shrink (fuel : Nat) :
    (∀ depth text r, holeLoop fuel depth text = some r → r.length < text.length) ∧
    (∀ quote text r, stringLoop fuel quote text = some r → r.length < text.length) := by
  induction fuel with
  | zero => exact ⟨fun _ _ _ h => by simp [holeLoop] at h, fun _ _ _ h => by simp [stringLoop] at h⟩
  | succ fuel ih =>
    obtain ⟨ihHole, ihString⟩ := ih
    constructor
    · intro depth text r h
      cases text with
      | nil => simp [holeLoop] at h
      | cons c rest =>
        rw [holeLoop] at h
        rw [List.length_cons]
        split_ifs at h
        · have := ihHole _ _ _ h
          omega
        · obtain rfl := Option.some.inj h
          omega
        · have := ihHole _ _ _ h
          omega
        · obtain ⟨m, hm, hr⟩ := Option.bind_eq_some_iff.1 h
          have h₁ := ihString _ _ _ hm
          have h₂ := ihHole _ _ _ hr
          omega
        · have := ihHole _ _ _ h
          omega
    · intro quote text r h
      cases text with
      | nil => simp [stringLoop] at h
      | cons c rest =>
        rw [stringLoop] at h
        rw [List.length_cons]
        split_ifs at h
        · have := ihString _ _ _ h
          rw [List.length_drop] at this
          omega
        · obtain rfl := Option.some.inj h
          omega
        · obtain ⟨m, hm, hr⟩ := Option.bind_eq_some_iff.1 h
          have h₁ := ihHole _ _ _ hm
          have h₂ := ihString _ _ _ hr
          rw [List.length_tail] at h₁
          omega
        · have := ihString _ _ _ h
          omega

/-- More rounds than characters make no difference. -/
theorem loops_stable (fuel : Nat) : ∀ fuel' : Nat,
    (∀ depth text, text.length < fuel → text.length < fuel' →
      holeLoop fuel depth text = holeLoop fuel' depth text) ∧
    (∀ quote text, text.length < fuel → text.length < fuel' →
      stringLoop fuel quote text = stringLoop fuel' quote text) := by
  induction fuel with
  | zero => exact fun _ => ⟨fun _ _ h => by omega, fun _ _ h => by omega⟩
  | succ fuel ih =>
    intro fuel'
    cases fuel' with
    | zero => exact ⟨fun _ _ _ h => by omega, fun _ _ _ h => by omega⟩
    | succ fuel' =>
      obtain ⟨ihHole, ihString⟩ := ih fuel'
      have hbindHole : ∀ (depth : Nat) (o : Option (List Char)) (n : Nat), n < fuel → n < fuel' →
          (∀ m, o = some m → m.length < n) →
          o.bind (holeLoop fuel depth) = o.bind (holeLoop fuel' depth) := by
        intro depth o n hn hn' hm
        cases o with
        | none => rfl
        | some m =>
          have := hm m rfl
          exact ihHole depth m (by omega) (by omega)
      have hbindString : ∀ (quote : Char) (o : Option (List Char)) (n : Nat), n < fuel →
          n < fuel' → (∀ m, o = some m → m.length < n) →
          o.bind (stringLoop fuel quote) = o.bind (stringLoop fuel' quote) := by
        intro quote o n hn hn' hm
        cases o with
        | none => rfl
        | some m =>
          have := hm m rfl
          exact ihString quote m (by omega) (by omega)
      constructor
      · intro depth text h h'
        cases text with
        | nil => rfl
        | cons c rest =>
          rw [List.length_cons] at h h'
          rw [holeLoop, holeLoop, ihHole _ rest (by omega) (by omega),
            ihHole _ rest (by omega) (by omega), ihHole _ rest (by omega) (by omega),
            ihString _ rest (by omega) (by omega)]
          rw [hbindHole depth _ rest.length (by omega) (by omega)
            fun m hm => (loops_shrink fuel').2 _ _ _ hm]
      · intro quote text h h'
        cases text with
        | nil => rfl
        | cons c rest =>
          rw [List.length_cons] at h h'
          have htail : rest.tail.length ≤ rest.length := by
            rw [List.length_tail]
            omega
          rw [stringLoop, stringLoop, ihString _ rest (by omega) (by omega),
            ihString _ (rest.drop 1) (by rw [List.length_drop]; omega)
              (by rw [List.length_drop]; omega), ihHole _ rest.tail (by omega) (by omega)]
          rw [hbindString quote _ rest.length (by omega) (by omega) fun m hm => by
            have := (loops_shrink fuel').1 _ _ _ hm
            omega]

@[simp] theorem holeFrom_nil (depth : Nat) : holeFrom depth [] = none := rfl

@[simp] theorem interpolatedStringEnd_nil (quote : Char) : interpolatedStringEnd quote [] = none :=
  rfl

theorem holeLoop_eq {fuel depth : Nat} {text : List Char} (h : text.length < fuel) :
    holeLoop fuel depth text = holeFrom depth text :=
  (loops_stable fuel _).1 depth text h (Nat.lt_succ_self _)

theorem stringLoop_eq {fuel : Nat} {quote : Char} {text : List Char} (h : text.length < fuel) :
    stringLoop fuel quote text = interpolatedStringEnd quote text :=
  (loops_stable fuel _).2 quote text h (Nat.lt_succ_self _)

theorem holeFrom_cons (depth : Nat) (c : Char) (rest : List Char) :
    holeFrom depth (c :: rest) =
      if c = '{' then holeFrom (depth + 1) rest
      else if c = '}' then
        if depth = 1 then some rest else holeFrom (depth - 1) rest
      else if isQuote c then (interpolatedStringEnd c rest).bind (holeFrom depth)
      else holeFrom depth rest := by
  have hbind : (stringLoop (rest.length + 1) c rest).bind (holeLoop (rest.length + 1) depth) =
      (interpolatedStringEnd c rest).bind (holeFrom depth) := by
    rw [stringLoop_eq (Nat.lt_succ_self _)]
    cases hm : interpolatedStringEnd c rest with
    | none => rfl
    | some m =>
      have := (loops_shrink _).2 _ _ _ hm
      exact holeLoop_eq (by omega)
  rw [holeFrom, List.length_cons, holeLoop, hbind, holeLoop_eq (Nat.lt_succ_self _),
    holeLoop_eq (Nat.lt_succ_self _), holeLoop_eq (Nat.lt_succ_self _)]

theorem interpolatedStringEnd_cons (quote c : Char) (rest : List Char) :
    interpolatedStringEnd quote (c :: rest) =
      if c = '\\' then interpolatedStringEnd quote (rest.drop 1)
      else if c = quote then some rest
      else if quote ≠ '\'' ∧ c = '$' ∧ rest.head? = some '{' then
        (interpolationHoleEnd rest.tail).bind (interpolatedStringEnd quote)
      else interpolatedStringEnd quote rest := by
  have htail : rest.tail.length ≤ rest.length := by
    rw [List.length_tail]
    omega
  have hbind : (holeLoop (rest.length + 1) 1 rest.tail).bind (stringLoop (rest.length + 1) quote) =
      (interpolationHoleEnd rest.tail).bind (interpolatedStringEnd quote) := by
    rw [holeLoop_eq (by omega), interpolationHoleEnd]
    cases hm : holeFrom 1 rest.tail with
    | none => rfl
    | some m =>
      have := (loops_shrink _).1 _ _ _ hm
      exact stringLoop_eq (by omega)
  rw [interpolatedStringEnd, List.length_cons, stringLoop, hbind, stringLoop_eq (Nat.lt_succ_self _),
    stringLoop_eq (by rw [List.length_drop]; omega)]

/-- The parser's loops end where the lexer's do, and at the end of the text where these fail. -/
theorem findLoops_eq (fuel : Nat) :
    (∀ depth inner, findHoleLoop fuel depth inner =
      ((holeLoop fuel depth inner).map fun r => '}' :: r).getD []) ∧
    (∀ quote inner, nestedStringLoop fuel quote inner =
      (stringLoop fuel quote inner).getD []) := by
  induction fuel with
  | zero => exact ⟨fun _ _ => rfl, fun _ _ => rfl⟩
  | succ fuel ih =>
    obtain ⟨ihHole, ihString⟩ := ih
    have hnil : ∀ depth, findHoleLoop fuel depth [] = [] := by
      intro depth
      cases fuel <;> rfl
    have hnil' : ∀ quote, nestedStringLoop fuel quote [] = [] := by
      intro quote
      cases fuel <;> rfl
    constructor
    · intro depth inner
      cases inner with
      | nil => rfl
      | cons c rest =>
        rw [findHoleLoop, holeLoop]
        split_ifs with h₁ h₂ h₃ h₄
        · exact ihHole _ _
        · rw [h₂]
          rfl
        · exact ihHole _ _
        · rw [ihString]
          cases hm : stringLoop fuel c rest with
          | none => exact hnil depth
          | some m => exact ihHole _ _
        · exact ihHole _ _
    · intro quote inner
      cases inner with
      | nil => rfl
      | cons c rest =>
        rw [nestedStringLoop, stringLoop]
        split_ifs with h₁ h₂ h₃
        · exact ihString _ _
        · rfl
        · rw [ihHole]
          cases hm : holeLoop fuel 1 rest.tail with
          | none => exact hnil' quote
          | some m => exact ihString _ _
        · exact ihString _ _

theorem findHoleEnd_eq (inner : List Char) :
    findHoleEnd inner = ((interpolationHoleEnd inner).map fun r => '}' :: r).getD [] :=
  (findLoops_eq _).1 1 inner

/-! ## What the scanners read

Ordinary characters, braces that nest, and string literals that are opaque but for their own
holes. -/

mutual

/-- The text of a hole as the scanners read it. -/
inductive Nested : List Char → Prop
  | nil : Nested []
  | plain {c : Char} {l : List Char} : c ≠ '{' → c ≠ '}' → isQuote c = false → Nested l →
      Nested (c :: l)
  | group {a l : List Char} : Nested a → Nested l → Nested ('{' :: (a ++ '}' :: l))
  | literal {quote : Char} {b l : List Char} : isQuote quote = true → Body quote b → Nested l →
      Nested (quote :: (b ++ quote :: l))

/-- The text between the quotes of a literal. -/
inductive Body : Char → List Char → Prop
  | nil {quote : Char} : Body quote []
  | escape {quote c : Char} {l : List Char} : Body quote l → Body quote ('\\' :: c :: l)
  | plain {quote c : Char} {l : List Char} : c ≠ '\\' → c ≠ quote →
      ¬ (quote ≠ '\'' ∧ c = '$' ∧ l.head? = some '{') → Body quote l → Body quote (c :: l)
  | hole {quote : Char} {a l : List Char} : quote ≠ '\'' → Nested a → Body quote l →
      Body quote ('$' :: '{' :: (a ++ '}' :: l))

end

theorem head?_append_quote {quote : Char} (hq : isQuote quote = true) (l r : List Char) :
    (l ++ quote :: r).head? = some '{' ↔ l.head? = some '{' := by
  cases l with
  | nil =>
    simp only [List.nil_append, List.head?_cons, List.head?_nil, Option.some.injEq, reduceCtorEq,
      iff_false]
    rintro rfl
    exact absurd hq (by decide)
  | cons c l => rfl

mutual

theorem Nested.passed : ∀ {h : List Char}, Nested h → ∀ (depth : Nat) (r : List Char), 0 < depth →
    holeFrom depth (h ++ r) = holeFrom depth r
  | _, .nil, _, _, _ => rfl
  | _, .plain hopen hclose hquote hl, depth, r, hd => by
    rw [List.cons_append, holeFrom_cons, if_neg hopen, if_neg hclose, if_neg (by simp [hquote])]
    exact hl.passed depth r hd
  | _, @Nested.group a l ha hl, depth, r, hd => by
    have hsplit : '{' :: (a ++ '}' :: l) ++ r = '{' :: (a ++ '}' :: (l ++ r)) := by simp
    have hclose : holeFrom (depth + 1) ('}' :: (l ++ r)) = holeFrom depth (l ++ r) := by
      rw [holeFrom_cons, if_neg (by decide), if_pos rfl, if_neg (by omega), Nat.add_sub_cancel]
    rw [hsplit, holeFrom_cons, if_pos rfl, ha.passed _ _ (Nat.succ_pos _), hclose]
    exact hl.passed depth r hd
  | _, @Nested.literal quote b l hq hb hl, depth, r, hd => by
    have hsplit : quote :: (b ++ quote :: l) ++ r = quote :: (b ++ quote :: (l ++ r)) := by simp
    have hopen : quote ≠ '{' := by
      rintro rfl
      exact absurd hq (by decide)
    have hclose : quote ≠ '}' := by
      rintro rfl
      exact absurd hq (by decide)
    rw [hsplit, holeFrom_cons, if_neg hopen, if_neg hclose, if_pos hq, hb.closed hq, Option.bind_some]
    exact hl.passed depth r hd

theorem Body.closed : ∀ {quote : Char} {b : List Char}, Body quote b → ∀ {r : List Char},
    isQuote quote = true → interpolatedStringEnd quote (b ++ quote :: r) = some r
  | quote, _, .nil, r, hq => by
    have hescape : quote ≠ '\\' := by
      rintro rfl
      exact absurd hq (by decide)
    rw [List.nil_append, interpolatedStringEnd_cons, if_neg hescape, if_pos rfl]
  | _, _, .escape hl, r, hq => by
    rw [List.cons_append, interpolatedStringEnd_cons, if_pos rfl]
    exact hl.closed hq
  | quote, _, @Body.plain _ c l hescape hquote hhole hl, r, hq => by
    have hhole' : ¬ (quote ≠ '\'' ∧ c = '$' ∧ (l ++ quote :: r).head? = some '{') := by
      rw [head?_append_quote hq]
      exact hhole
    rw [List.cons_append, interpolatedStringEnd_cons, if_neg hescape, if_neg hquote, if_neg hhole']
    exact hl.closed hq
  | quote, _, @Body.hole _ a l hraw ha hl, r, hq => by
    have hsplit : '$' :: '{' :: (a ++ '}' :: l) ++ quote :: r =
        '$' :: '{' :: (a ++ '}' :: (l ++ quote :: r)) := by simp
    have hdollar : '$' ≠ quote := by
      rintro rfl
      exact absurd hq (by decide)
    have hend : interpolationHoleEnd (a ++ '}' :: (l ++ quote :: r)) = some (l ++ quote :: r) := by
      rw [interpolationHoleEnd, ha.passed _ _ Nat.one_pos, holeFrom_cons]
      rfl
    rw [hsplit, interpolatedStringEnd_cons, if_neg (by decide), if_neg hdollar,
      if_pos ⟨hraw, rfl, rfl⟩, List.tail_cons, hend, Option.bind_some]
    exact hl.closed hq

end

/-- A text that closes the braces that are open one after the other, with nested text between. -/
def Closes : Nat → List Char → List Char → Prop
  | 0, text, r => text = r
  | depth + 1, text, r => ∃ h m, Nested h ∧ text = h ++ '}' :: m ∧ Closes depth m r

theorem Closes.before {depth : Nat} {text r : List Char} (f : List Char → List Char)
    (hf : ∀ h, Nested h → Nested (f h)) (happend : ∀ h m, f (h ++ m) = f h ++ m)
    (hc : Closes (depth + 1) text r) : Closes (depth + 1) (f text) r := by
  obtain ⟨h, m, hh, rfl, hm⟩ := hc
  exact ⟨f h, m, hf h hh, happend h _, hm⟩

/-- What the scanners pass over is nested text. -/
theorem scanned (n : Nat) :
    (∀ depth text r, text.length < n → holeFrom (depth + 1) text = some r →
      Closes (depth + 1) text r) ∧
    (∀ quote text r, text.length < n → interpolatedStringEnd quote text = some r →
      ∃ b, Body quote b ∧ text = b ++ quote :: r) := by
  induction n with
  | zero => exact ⟨fun _ _ _ h => by omega, fun _ _ _ h => by omega⟩
  | succ n ih =>
    obtain ⟨ihHole, ihString⟩ := ih
    constructor
    · intro depth text r hlen h
      cases text with
      | nil => simp at h
      | cons c rest =>
        rw [List.length_cons] at hlen
        rw [holeFrom_cons] at h
        split_ifs at h with hopen hclose hone hquote
        · subst hopen
          obtain ⟨a, m, ha, rfl, l, m', hl, rfl, hm'⟩ := ihHole _ _ _ (by omega) h
          exact ⟨'{' :: (a ++ '}' :: l), m', .group ha hl, by simp, hm'⟩
        · subst hclose
          obtain rfl := Option.some.inj h
          obtain rfl : depth = 0 := by omega
          exact ⟨[], rest, .nil, rfl, rfl⟩
        · subst hclose
          obtain ⟨depth, rfl⟩ : ∃ d, depth = d + 1 := ⟨depth - 1, by omega⟩
          exact ⟨[], rest, .nil, rfl, ihHole _ _ _ (by omega) h⟩
        · obtain ⟨m, hm, hr⟩ := Option.bind_eq_some_iff.1 h
          obtain ⟨b, hb, rfl⟩ := ihString _ _ _ (by omega) hm
          rw [List.length_append, List.length_cons] at hlen
          have hc := ihHole _ _ _ (by omega) hr
          have := hc.before (fun x => c :: (b ++ c :: x)) (fun x hx => .literal hquote hb hx)
            (by simp)
          simpa using this
        · have hc := ihHole _ _ _ (by omega) h
          exact hc.before (fun x => c :: x) (fun x hx => .plain hopen hclose (by simpa using hquote) hx)
            (by simp)
    · intro quote text r hlen h
      cases text with
      | nil => simp at h
      | cons c rest =>
        rw [List.length_cons] at hlen
        rw [interpolatedStringEnd_cons] at h
        split_ifs at h with hescape hquote hhole
        · subst hescape
          cases rest with
          | nil => simp at h
          | cons d rest =>
            rw [List.length_cons] at hlen
            obtain ⟨b, hb, hrest⟩ := ihString _ _ _ (by simp; omega) h
            rw [List.drop_one, List.tail_cons] at hrest
            exact ⟨'\\' :: d :: b, .escape hb, by rw [hrest]; rfl⟩
        · subst hquote
          obtain rfl := Option.some.inj h
          exact ⟨[], .nil, rfl⟩
        · obtain ⟨hraw, rfl, hhead⟩ := hhole
          obtain ⟨rest, rfl⟩ : ∃ l, rest = '{' :: l := by
            cases rest with
            | nil => simp at hhead
            | cons d l => exact ⟨l, by simpa using hhead⟩
          rw [List.length_cons] at hlen
          obtain ⟨m, hm, hr⟩ := Option.bind_eq_some_iff.1 h
          obtain ⟨a, m', ha, hsplit, rfl⟩ := ihHole 0 _ _ (by simp; omega) hm
          rw [List.tail_cons] at hsplit
          subst hsplit
          rw [List.length_append, List.length_cons] at hlen
          obtain ⟨b, hb, rfl⟩ := ihString _ _ _ (by omega) hr
          exact ⟨'$' :: '{' :: (a ++ '}' :: b), .hole hraw ha hb, by simp⟩
        · obtain ⟨b, hb, rfl⟩ := ihString _ _ _ (by omega) h
          refine ⟨c :: b, .plain hescape hquote ?_ hb, rfl⟩
          rintro ⟨hraw, hc, hhead⟩
          refine hhole ⟨hraw, hc, ?_⟩
          cases b with
          | nil => simp at hhead
          | cons d b => exact hhead

/-- **A hole ends where it is written** exactly when its text is nested as the scanners read it. -/
theorem interpolationHoleEnd_iff {h r : List Char} :
    interpolationHoleEnd (h ++ '}' :: r) = some r ↔ Nested h := by
  constructor
  · intro hend
    obtain ⟨h', m, hh', hsplit, rfl⟩ := (scanned _).1 0 _ _ (Nat.lt_succ_self _) hend
    have hlen : h.length = h'.length := by
      have := congrArg List.length hsplit
      simp only [List.length_append, List.length_cons] at this
      omega
    exact (List.append_inj hsplit hlen).1 ▸ hh'
  · intro hh
    rw [interpolationHoleEnd, hh.passed _ _ Nat.one_pos, holeFrom_cons]
    rfl

theorem interpolatedStringEnd_iff {quote : Char} {b r : List Char} (hq : isQuote quote = true) :
    interpolatedStringEnd quote (b ++ quote :: r) = some r ↔ Body quote b := by
  constructor
  · intro hend
    obtain ⟨b', hb', hsplit⟩ := (scanned _).2 _ _ _ (Nat.lt_succ_self _) hend
    exact List.append_cancel_right hsplit ▸ hb'
  · exact fun hb => hb.closed hq

theorem findHoleEnd_iff {h r : List Char} :
    findHoleEnd (h ++ '}' :: r) = '}' :: r ↔ Nested h := by
  rw [findHoleEnd_eq, ← interpolationHoleEnd_iff (r := r)]
  cases interpolationHoleEnd (h ++ '}' :: r) with
  | none => simp
  | some m => simp

end Noeta.Lexer
