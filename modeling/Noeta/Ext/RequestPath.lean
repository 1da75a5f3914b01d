import Noeta.Ext.Resolve

/-!
# The path a request is routed by

`request_path` of `noeta-ext-abi/src/net.rs` and `path_of` of `uri.rs` find the path of a URL each in its own way. Where
`path_of` wants a scheme before `://` and an authority before the path, `request_path` goes by the first `://` of the text
and the first slash after it, which may stand in the query.
-/

namespace Noeta.Ext

open Noeta.Lib.Rfc3986

/-- The text from the first slash on, up to the query or the fragment. -/
def pathIn (rest : Text) : Text :=
  match beyond ['/'] rest with
  | [] => ['/']
  | fromPath => upTo ['?', '#'] fromPath

def requestPath (url : Text) : Text :=
  match splitScheme url with
  | some (_, afterScheme) => pathIn afterScheme
  | none => pathIn url

/-! ## The first slash -/

theorem upTo_eq_nil_iff {stops : List Char} {t : Text} : upTo stops t = [] ↔ Begins stops t := by
  cases t with
  | nil => simp [upTo, Begins]
  | cons c t => by_cases h : c ∈ stops <;> simp [upTo, Begins, h]

theorem clear_of_not_mem {d : Char} {t : Text} (h : d ∉ t) : ∀ c ∈ t, c ∉ [d] := by
  intro c hc hmem
  exact h (List.mem_singleton.mp hmem ▸ hc)

theorem begins_cons {d : Char} {stops : List Char} (h : d ∈ stops) (t : Text) : Begins stops (d :: t) := by
  intro c hc
  cases hc
  exact h

theorem pathIn_of_not_mem {rest : Text} (h : '/' ∉ rest) : pathIn rest = ['/'] := by
  rw [pathIn, beyond_eq_nil (clear_of_not_mem h)]

variable {before scheme : Text}

theorem beyond_slash (h : '/' ∉ before) (after : Text) : beyond ['/'] (before ++ '/' :: after) = '/' :: after :=
  beyond_append (clear_of_not_mem h) (begins_cons (List.mem_singleton_self _) after)

theorem pathIn_append (h : '/' ∉ before) (after : Text) :
    pathIn (before ++ '/' :: after) = '/' :: upTo ['?', '#'] after := by
  rw [pathIn, beyond_slash h]
  exact upTo_cons_of_not_mem (by decide)

/-! ## Absolute URLs -/

/-- After the scheme of an absolute URL: neither the query nor the fragment opens before the first slash, or nothing follows
that slash before they do. -/
def PathFirst (rest : Text) : Prop :=
  (∀ c ∈ upTo ['/'] rest, c ∉ ['?', '#']) ∨ Begins ['?', '#'] (beyond ['/'] rest).tail

theorem splitScheme_absolute (h : validScheme scheme = true) (rest : Text) :
    splitScheme (scheme ++ "://".toList ++ rest) = some (scheme, rest) := by
  have hcolon : ':' ∉ scheme := fun hmem => (not_mem_of_validScheme h).2 ':' hmem List.mem_cons_self
  rw [List.append_assoc]
  exact splitScheme_append hcolon rest

theorem requestPath_absolute (h : validScheme scheme = true) (rest : Text) :
    requestPath (scheme ++ "://".toList ++ rest) = pathIn rest := by
  rw [requestPath, splitScheme_absolute h]

theorem afterScheme_absolute (h : validScheme scheme = true) (rest : Text) :
    schemeOf (scheme ++ "://".toList ++ rest) = some scheme ∧
      afterScheme (scheme ++ "://".toList ++ rest) = rest := by
  have hscheme : schemeOf (scheme ++ "://".toList ++ rest) = some scheme :=
    schemeOf_eq_some_iff.mpr ⟨h, rest, rfl⟩
  refine ⟨hscheme, ?_⟩
  rw [afterScheme, hscheme]
  exact List.drop_left' (by simp)

theorem pathOf_of_mem (h : validScheme scheme = true) (after : Text)
    (hslash : '/' ∉ before) (hclear : ∀ c ∈ before, c ∉ ['?', '#']) :
    pathOf (scheme ++ "://".toList ++ (before ++ '/' :: after)) = '/' :: upTo ['?', '#'] after := by
  obtain ⟨hscheme, hafter⟩ := afterScheme_absolute h (before ++ '/' :: after)
  have hfrom : beyond ['/', '?', '#'] (before ++ '/' :: after) = '/' :: after := by
    apply beyond_append
    · intro c hc hmem
      obtain rfl | hmem := List.mem_cons.mp hmem
      · exact hslash hc
      · exact hclear c hc hmem
    · exact begins_cons List.mem_cons_self after
  simp only [pathOf, hscheme, hafter, hfrom]
  rw [upTo_cons_of_not_mem (by decide)]

theorem pathOf_of_head (h : validScheme scheme = true) {rest : Text}
    (hrest : (beyond ['/', '?', '#'] rest).head? ≠ some '/') :
    pathOf (scheme ++ "://".toList ++ rest) = ['/'] := by
  obtain ⟨hscheme, hafter⟩ := afterScheme_absolute h rest
  simp only [pathOf, hscheme, hafter]
  cases hb : beyond ['/', '?', '#'] rest with
  | nil => rfl
  | cons c t =>
    rw [hb] at hrest
    have hc : c ≠ '/' := fun heq => hrest (congrArg some heq)
    simp only [List.cons.injEq, hc, false_and, imp_self, implies_true]
    rfl

theorem head?_beyond_append (hslash : '/' ∉ before) (hopen : ∃ c ∈ before, c ∈ ['?', '#'])
    (after : Text) : (beyond ['/', '?', '#'] (before ++ after)).head? ≠ some '/' := by
  induction before with
  | nil =>
    obtain ⟨c, hc, -⟩ := hopen
    cases hc
  | cons d before ih =>
    rw [List.mem_cons, not_or] at hslash
    by_cases hd : d ∈ ['?', '#']
    · have hstop : beyond ['/', '?', '#'] (d :: before ++ after) = d :: before ++ after := by
        rw [List.cons_append, beyond]
        exact List.dropWhile_cons_of_neg (by simp [List.mem_cons_of_mem '/' hd])
      rw [hstop]
      intro hhead
      exact hslash.1 (Option.some.inj hhead).symm
    · have hskip : beyond ['/', '?', '#'] (d :: before ++ after) = beyond ['/', '?', '#'] (before ++ after) := by
        rw [List.cons_append, beyond, beyond]
        apply List.dropWhile_cons_of_pos
        simp [List.mem_cons, Ne.symm hslash.1, hd]
      rw [hskip]
      apply ih hslash.2
      obtain ⟨c, hc, hmem⟩ := hopen
      obtain rfl | hc := List.mem_cons.mp hc
      · exact absurd hmem hd
      · exact ⟨c, hc, hmem⟩

theorem requestPath_absolute_iff (h : validScheme scheme = true) (rest : Text) :
    requestPath (scheme ++ "://".toList ++ rest) = pathOf (scheme ++ "://".toList ++ rest) ↔ PathFirst rest := by
  rw [requestPath_absolute h]
  by_cases hmem : '/' ∈ rest
  · obtain ⟨before, after, rfl, hslash⟩ := List.eq_append_cons_of_mem hmem
    have hupTo : upTo ['/'] (before ++ '/' :: after) = before :=
      upTo_append (clear_of_not_mem hslash) (begins_cons (List.mem_singleton_self _) after)
    rw [pathIn_append hslash, PathFirst, hupTo, beyond_slash hslash, List.tail_cons]
    by_cases hclear : ∀ c ∈ before, c ∉ ['?', '#']
    · rw [pathOf_of_mem h after hslash hclear]
      exact iff_of_true rfl (Or.inl hclear)
    · -- the query or the fragment opens before the slash
      have hopen : ∃ c ∈ before, c ∈ ['?', '#'] := by
        rw [not_forall] at hclear
        obtain ⟨c, hc⟩ := hclear
        rw [Classical.not_imp, not_not] at hc
        exact ⟨c, hc⟩
      rw [pathOf_of_head h (head?_beyond_append hslash hopen _), List.cons.injEq, upTo_eq_nil_iff]
      simp only [true_and, hclear, false_or]
  · have hroot : pathOf (scheme ++ "://".toList ++ rest) = ['/'] := by
      apply pathOf_of_head h
      intro hhead
      exact hmem (mem_of_mem_beyond (List.mem_of_mem_head? hhead))
    have hnone : (beyond ['/'] rest).tail = [] := by
      rw [beyond_eq_nil (clear_of_not_mem hmem)]
      rfl
    rw [pathIn_of_not_mem hmem, hroot, PathFirst, hnone]
    exact iff_of_true rfl (Or.inr fun c hc => nomatch hc)

/-! ## Targets in origin form -/

/-- Where the path `path` is spelled in a text: after its first slash, or nowhere if it is the root. -/
def Spells (rest path : Text) : Prop :=
  (path = ['/'] ∧ '/' ∉ rest) ∨
    ∃ before after, rest = before ++ path ++ after ∧ '/' ∉ before ∧ Begins ['?', '#'] after

theorem pathIn_eq_iff {rest path : Text} (hpath : ∀ c ∈ path, c ∉ ['?', '#']) (hroot : path.head? = some '/') :
    pathIn rest = path ↔ Spells rest path := by
  constructor
  · rintro rfl
    by_cases hmem : '/' ∈ rest
    · obtain ⟨before, after, rfl, hslash⟩ := List.eq_append_cons_of_mem hmem
      rw [pathIn_append hslash]
      refine Or.inr ⟨before, beyond ['?', '#'] after, ?_, hslash, begins_beyond⟩
      rw [List.append_assoc, List.cons_append, upTo_append_beyond]
    · exact Or.inl ⟨pathIn_of_not_mem hmem, hmem⟩
  · rintro (⟨rfl, hmem⟩ | ⟨before, after, rfl, hslash, hafter⟩)
    · exact pathIn_of_not_mem hmem
    · cases path with
      | nil => exact absurd hroot (by simp)
      | cons c t =>
        cases hroot
        rw [List.append_assoc, List.cons_append, pathIn_append hslash, upTo_append _ hafter]
        exact fun d hd => hpath d (List.mem_cons_of_mem _ hd)

theorem schemeOf_origin {target : Text} (h : target.head? = some '/') : schemeOf target = none := by
  rw [Option.eq_none_iff_forall_not_mem]
  intro s hs
  obtain ⟨hvalid, rest, rfl⟩ := schemeOf_eq_some_iff.mp hs
  obtain ⟨hne, hclear⟩ := not_mem_of_validScheme hvalid
  cases s with
  | nil => exact hne rfl
  | cons c s =>
    cases h
    exact hclear _ List.mem_cons_self (by decide)

theorem pathOf_origin {target : Text} (h : target.head? = some '/') : pathOf target = upTo ['?', '#'] target := by
  have hscheme := schemeOf_origin h
  cases target with
  | nil => cases h
  | cons c t =>
    cases h
    simp only [pathOf, afterScheme, hscheme]
    rw [upTo_cons_of_not_mem (by decide)]

/-! ## Agreement -/

/-- No text that looks like a scheme or a path stands where `request_path` takes it for one: in an absolute URL the path is
first, and in a target in origin form the text after a `://`, if there is one, spells the path of the target again. -/
def Straight (url : Text) : Prop :=
  match schemeOf url, splitScheme url with
  | some _, some (_, rest) => PathFirst rest
  | none, some (_, rest) => Spells rest (upTo ['?', '#'] url)
  | _, none => True

/-- For an absolute URL or a target in origin form the two readers agree, and on a target find what stands before the
query and the fragment, exactly if nothing in it is mistaken for a scheme or a path. -/
theorem requestPath_agrees_iff {url : Text} (h : Absolute url ∨ url.head? = some '/') :
    (requestPath url = pathOf url ∧ (url.head? = some '/' → requestPath url = upTo ['?', '#'] url)) ↔
      Straight url := by
  rcases h with ⟨scheme, rest, hvalid, rfl⟩ | h
  · obtain ⟨hscheme, -⟩ := afterScheme_absolute hvalid rest
    have hsplit := splitScheme_absolute hvalid rest
    have hhead : (scheme ++ "://".toList ++ rest).head? ≠ some '/' := by
      obtain ⟨hne, hclear⟩ := not_mem_of_validScheme hvalid
      cases scheme with
      | nil => exact absurd rfl hne
      | cons c scheme =>
        intro heq
        cases heq
        exact hclear _ List.mem_cons_self (by decide)
    rw [Straight, hscheme, hsplit]
    exact (and_iff_left fun heq => absurd heq hhead).trans (requestPath_absolute_iff hvalid rest)
  · have hagree : (requestPath url = pathOf url ∧ (url.head? = some '/' → requestPath url = upTo ['?', '#'] url)) ↔
        requestPath url = upTo ['?', '#'] url := by
      rw [pathOf_origin h]
      exact ⟨fun ⟨heq, _⟩ => heq, fun heq => ⟨heq, fun _ => heq⟩⟩
    have hhead : (upTo ['?', '#'] url).head? = some '/' := by
      cases url with
      | nil => cases h
      | cons c t =>
        cases h
        rw [upTo_cons_of_not_mem (by decide)]
        rfl
    rw [hagree, Straight, schemeOf_origin h]
    cases hsplit : splitScheme url with
    | some p =>
      obtain ⟨before, rest⟩ := p
      simp only [requestPath, hsplit]
      exact pathIn_eq_iff (fun c hc => not_mem_of_mem_upTo hc) hhead
    | none =>
      simp only [requestPath, hsplit, iff_true]
      cases url with
      | nil => cases h
      | cons c t =>
        cases h
        have hfrom := pathIn_append (List.not_mem_nil (a := '/')) t
        rw [List.nil_append] at hfrom
        rw [hfrom, upTo_cons_of_not_mem (by decide)]

theorem requestPath_agrees_target :
    (requestPath "/cb?to=/x".toList = pathOf "/cb?to=/x".toList ∧
        ("/cb?to=/x".toList.head? = some '/' → requestPath "/cb?to=/x".toList = upTo ['?', '#'] "/cb?to=/x".toList)) ↔
      Straight "/cb?to=/x".toList :=
  requestPath_agrees_iff (Or.inr rfl)

/-- A target whose query carries a URL is routed by the path of that URL. -/
theorem requestPath_redirected :
    ¬∀ url : Text, Absolute url ∨ url.head? = some '/' →
      requestPath url = pathOf url ∧ (url.head? = some '/' → requestPath url = upTo ['?', '#'] url) := by
  intro h
  have hpath := (h "/cb?to=https://evil.example/admin".toList (Or.inr rfl)).1
  exact absurd hpath (by decide)

end Noeta.Ext
