import Noeta.Check.Forwarding

/-!
# The forwarding table as a least relation

What a slot list offers is looked at apart from its order. Over the bodies of the candidates there is
a least relation of needed slots (`Needed`), and a table the loop returns offers exactly what it
holds of: every round only ever offers needed slots, and a round that changes nothing leaves none
out. The same goes for the functions reported as diverging.
-/

namespace Noeta.Check

open Noeta.Types (Ty)

/-! ### The marks of one walk -/

/-- A slot of the template is there, with a recipe if one is asked for. -/
def Offers (slots : List ForwardSlot) (t : Ty) (recipe : Bool) : Prop :=
  ∃ s ∈ slots, s.template = t ∧ (recipe = true → s.needsRecipe = true)

/-- A template is marked, with a recipe if one is asked for. -/
def Marks (marks : List (Ty × Bool)) (t : Ty) (recipe : Bool) : Prop :=
  ∃ b, (t, b) ∈ marks ∧ (recipe = true → b = true)

variable {t : Ty} {recipe : Bool} {map : ForwardingMap} {c : Candidate} {poisoned : List String}

theorem marks_cons {mark : Ty × Bool} {marks : List (Ty × Bool)} : Marks (mark :: marks) t recipe ↔
      (mark.1 = t ∧ (recipe = true → mark.2 = true)) ∨ Marks marks t recipe := by
  constructor
  · rintro ⟨b, hb, hrecipe⟩
    rcases List.mem_cons.1 hb with rfl | hb
    · exact .inl ⟨rfl, hrecipe⟩
    · exact .inr ⟨b, hb, hrecipe⟩
  · rintro (⟨rfl, hrecipe⟩ | ⟨b, hb, hrecipe⟩)
    · exact ⟨mark.2, List.mem_cons_self, hrecipe⟩
    · exact ⟨b, List.mem_cons_of_mem _ hb, hrecipe⟩

theorem offers_markFn (state : List ForwardSlot × Bool) (mark : Ty × Bool) (t : Ty)
    (recipe : Bool) :
    Offers (markFn state mark).1 t recipe ↔ Offers state.1 t recipe ∨
      (typeDepth t ≤ maxTemplateDepth ∧ mark.1 = t ∧ (recipe = true → mark.2 = true)) := by
  unfold markFn
  by_cases hdepth : maxTemplateDepth < typeDepth mark.1
  · rw [if_pos hdepth]
    constructor
    · exact .inl
    · rintro (h | ⟨hle, rfl, -⟩)
      · exact h
      · omega
  · rw [if_neg hdepth]
    by_cases hknown : (state.1.map ForwardSlot.template).contains mark.1 = true
    · rw [if_pos hknown]
      constructor
      · rintro ⟨updated, hupdated, rfl, hrecipe⟩
        obtain ⟨s, hs, rfl⟩ := List.mem_map.1 hupdated
        by_cases hsame : s.template = mark.1
        · simp only [hsame, if_true] at hrecipe ⊢
          by_cases hneeds : s.needsRecipe = true
          · exact .inl ⟨s, hs, hsame, fun _ => hneeds⟩
          · refine .inr ⟨by omega, trivial, fun hr => ?_⟩
            simpa [hneeds] using hrecipe hr
        · simp only [hsame, if_false] at hrecipe ⊢
          exact .inl ⟨s, hs, rfl, hrecipe⟩
      · rintro (⟨s, hs, rfl, hrecipe⟩ | ⟨-, rfl, hrecipe⟩)
        · refine ⟨_, List.mem_map_of_mem hs, ?_, fun hr => ?_⟩
          · split <;> rfl
          · split
            · simp [hrecipe hr]
            · exact hrecipe hr
        · obtain ⟨s, hs, hsame⟩ := List.mem_map.1 (List.contains_iff_mem.1 hknown)
          refine ⟨_, List.mem_map_of_mem hs, ?_, fun hr => ?_⟩
          · rw [if_pos hsame]
            exact hsame
          · rw [if_pos hsame]
            simp [hrecipe hr]
    · rw [if_neg hknown]
      constructor
      · rintro ⟨s, hs, rfl, hrecipe⟩
        rcases List.mem_append.1 hs with hs | hs
        · exact .inl ⟨s, hs, rfl, hrecipe⟩
        · obtain rfl := List.mem_singleton.1 hs
          exact .inr ⟨by dsimp only; omega, rfl, hrecipe⟩
      · rintro (⟨s, hs, rfl, hrecipe⟩ | ⟨-, rfl, hrecipe⟩)
        · exact ⟨s, List.mem_append_left _ hs, rfl, hrecipe⟩
        · exact ⟨⟨mark.1, mark.2⟩, by simp, rfl, hrecipe⟩

theorem offers_foldl (marks : List (Ty × Bool)) (t : Ty) (recipe : Bool) :
    ∀ state, Offers (marks.foldl markFn state).1 t recipe ↔ Offers state.1 t recipe ∨
      (typeDepth t ≤ maxTemplateDepth ∧ Marks marks t recipe) := by
  induction marks with
  | nil => simp [Marks]
  | cons mark marks ih =>
    intro state
    rw [List.foldl_cons, ih, offers_markFn, marks_cons]
    tauto

theorem offers_collectMarks (marks : List (Ty × Bool)) (t : Ty) (recipe : Bool) :
    Offers (collectMarks marks).1 t recipe ↔
      typeDepth t ≤ maxTemplateDepth ∧ Marks marks t recipe := by
  rw [collectMarks, offers_foldl]
  simp [Offers]

theorem overflow_foldl (marks : List (Ty × Bool)) :
    ∀ state, (marks.foldl markFn state).2 = true ↔
      state.2 = true ∨ ∃ mark ∈ marks, maxTemplateDepth < typeDepth mark.1 := by
  induction marks with
  | nil => simp
  | cons mark marks ih =>
    intro state
    rw [List.foldl_cons, ih, List.exists_mem_cons_iff]
    unfold markFn
    by_cases hdepth : maxTemplateDepth < typeDepth mark.1
    · simp [hdepth]
    · rw [if_neg hdepth]
      split <;> simp [hdepth]

theorem overflow_collectMarks (marks : List (Ty × Bool)) :
    (collectMarks marks).2 = true ↔ ∃ mark ∈ marks, maxTemplateDepth < typeDepth mark.1 := by
  rw [collectMarks, overflow_foldl]
  simp

theorem nodup_markFn {state : List ForwardSlot × Bool}
    (h : (state.1.map ForwardSlot.template).Nodup) (mark : Ty × Bool) :
    ((markFn state mark).1.map ForwardSlot.template).Nodup := by
  unfold markFn
  split
  · exact h
  · split
    · have hsame : ∀ s : ForwardSlot, (if s.template = mark.1 then
          { s with needsRecipe := s.needsRecipe || mark.2 } else s).template = s.template := by
        intro s
        split <;> rfl
      rw [List.map_map]
      simpa [Function.comp_def, hsame] using h
    · rename_i hnew
      rw [List.map_append, List.map_singleton, List.nodup_append]
      refine ⟨h, List.nodup_singleton _, fun a ha b hb hab => hnew ?_⟩
      obtain rfl : a = mark.1 := by rw [hab, List.mem_singleton.1 hb]
      exact List.contains_iff_mem.2 ha

theorem nodup_collectMarks (marks : List (Ty × Bool)) :
    ((collectMarks marks).1.map ForwardSlot.template).Nodup := by
  have hfold : ∀ state : List ForwardSlot × Bool, (state.1.map ForwardSlot.template).Nodup →
      ((marks.foldl markFn state).1.map ForwardSlot.template).Nodup := by
    induction marks with
    | nil => exact fun state h => h
    | cons mark marks ih => exact fun state h => ih _ (nodup_markFn h mark)
  exact hfold _ List.nodup_nil

/-! ### What a mark asks for under a table -/

/-- The slots a mark asks for, where the table offers what `offers` says. -/
def Mark.Asks (offers : String → Ty → Bool → Prop) : Mark → Ty → Bool → Prop
  | .template t needsRecipe, u, recipe => u = t ∧ (recipe = true → needsRecipe = true)
  | .slotsOf callee subst visible, u, recipe =>
    ∃ t, offers callee t recipe ∧ u = applySubst subst t ∧ mentionsParam u visible = true

/-- What a table offers. -/
def Table (map : ForwardingMap) (key : String) : Ty → Bool → Prop := Offers (map key)

theorem marks_emit (map : ForwardingMap) (mark : Mark) (u : Ty) (recipe : Bool) :
    Marks (mark.emit map) u recipe ↔ mark.Asks (Table map) u recipe := by
  cases mark with
  | template t needsRecipe =>
    rw [Mark.emit, marks_cons]
    constructor
    · rintro (⟨rfl, hrecipe⟩ | ⟨b, hb, -⟩)
      · exact ⟨rfl, hrecipe⟩
      · cases hb
    · rintro ⟨rfl, hrecipe⟩
      exact .inl ⟨rfl, hrecipe⟩
  | slotsOf callee subst visible =>
    constructor
    · rintro ⟨b, hb, hrecipe⟩
      obtain ⟨slot, hslot, heq⟩ := List.mem_filterMap.1 hb
      dsimp only at heq
      by_cases hmentions : mentionsParam (applySubst subst slot.template) visible = true
      · rw [if_pos hmentions] at heq
        cases heq
        exact ⟨slot.template, ⟨slot, hslot, rfl, hrecipe⟩, rfl, hmentions⟩
      · rw [if_neg hmentions] at heq
        cases heq
    · rintro ⟨t, ⟨slot, hslot, rfl, hrecipe⟩, rfl, hmentions⟩
      refine ⟨slot.needsRecipe, List.mem_filterMap.2 ⟨slot, hslot, ?_⟩, hrecipe⟩
      dsimp only
      rw [if_pos hmentions]

theorem marks_flatMap {marks : List Mark} {u : Ty} : Marks (marks.flatMap (Mark.emit map)) u recipe ↔
      ∃ mark ∈ marks, mark.Asks (Table map) u recipe := by
  constructor
  · rintro ⟨b, hb, hrecipe⟩
    obtain ⟨mark, hmark, hb⟩ := List.mem_flatMap.1 hb
    exact ⟨mark, hmark, (marks_emit map mark u recipe).1 ⟨b, hb, hrecipe⟩⟩
  · rintro ⟨mark, hmark, hasks⟩
    obtain ⟨b, hb, hrecipe⟩ := (marks_emit map mark u recipe).2 hasks
    exact ⟨b, List.mem_flatMap.2 ⟨mark, hmark, hb⟩, hrecipe⟩

theorem Mark.Asks.mono {offers offers' : String → Ty → Bool → Prop}
    (hle : ∀ key t recipe, offers key t recipe → offers' key t recipe) {mark : Mark} {u : Ty}
    (h : mark.Asks offers u recipe) : mark.Asks offers' u recipe := by
  cases mark with
  | template t needsRecipe => exact h
  | slotsOf callee subst visible =>
    obtain ⟨t, ht, heq, hmentions⟩ := h
    exact ⟨t, hle _ _ _ ht, heq, hmentions⟩

/-! ### The needed slots -/

variable {tables : Tables} {cs : List Candidate}

/-- The slots the candidates need: what a mark in a body asks for, with the callee's own. -/
inductive Needed (tables : Tables) (cs : List Candidate) : String → Ty → Bool → Prop where
  | template {c : Candidate} {t : Ty} {b recipe : Bool} : c ∈ cs →
      Mark.template t b ∈ c.marks tables → (recipe = true → b = true) →
      typeDepth t ≤ maxTemplateDepth → Needed tables cs c.key t recipe
  | slot {c : Candidate} {callee : String} {subst : Subst} {visible : List Nat} {t : Ty}
      {recipe : Bool} : c ∈ cs → Mark.slotsOf callee subst visible ∈ c.marks tables →
      Needed tables cs callee t recipe → mentionsParam (applySubst subst t) visible = true →
      typeDepth (applySubst subst t) ≤ maxTemplateDepth →
      Needed tables cs c.key (applySubst subst t) recipe

theorem Needed.of_asks (hc : c ∈ cs) {mark : Mark} (hmark : mark ∈ c.marks tables)
    (hasks : mark.Asks (Needed tables cs) t recipe)
    (hdepth : typeDepth t ≤ maxTemplateDepth) : Needed tables cs c.key t recipe := by
  cases mark with
  | template u b =>
    obtain ⟨rfl, hrecipe⟩ := hasks
    exact .template hc hmark hrecipe hdepth
  | slotsOf callee subst visible =>
    obtain ⟨u, hu, rfl, hmentions⟩ := hasks
    exact .slot hc hmark hu hmentions hdepth

/-- A candidate that asks for a template that is too deep. -/
def Diverges (tables : Tables) (cs : List Candidate) (key : String) : Prop :=
  ∃ c ∈ cs, c.key = key ∧ ∃ mark ∈ c.marks tables, ∃ t recipe,
    mark.Asks (Needed tables cs) t recipe ∧ maxTemplateDepth < typeDepth t

theorem offers_collect (map : ForwardingMap) (c : Candidate) (t : Ty) (recipe : Bool) :
    Offers (c.collect tables map).1 t recipe ↔ typeDepth t ≤ maxTemplateDepth ∧
      ∃ mark ∈ c.marks tables, mark.Asks (Table map) t recipe := by
  rw [Candidate.collect, offers_collectMarks, marks_flatMap]

theorem overflow_collect (map : ForwardingMap) (c : Candidate) :
    (c.collect tables map).2 = true ↔ ∃ mark ∈ c.marks tables, ∃ t recipe,
      mark.Asks (Table map) t recipe ∧ maxTemplateDepth < typeDepth t := by
  rw [Candidate.collect, overflow_collectMarks]
  constructor
  · rintro ⟨⟨t, b⟩, hmem, hdepth⟩
    obtain ⟨mark, hmark, hasks⟩ := marks_flatMap.1 ⟨b, hmem, fun h => h⟩
    exact ⟨mark, hmark, t, b, hasks, hdepth⟩
  · rintro ⟨mark, hmark, t, recipe, hasks, hdepth⟩
    obtain ⟨b, hb, -⟩ := marks_flatMap.2 ⟨mark, hmark, hasks⟩
    exact ⟨(t, b), hb, hdepth⟩

/-! ### Rounds -/

/-- The table offers needed slots only, and only diverging candidates are reported. -/
structure Sound (tables : Tables) (cs : List Candidate) (map : ForwardingMap)
    (poisoned : List String) : Prop where
  offers : ∀ key t recipe, Table map key t recipe → Needed tables cs key t recipe
  poisoned : ∀ key ∈ poisoned, Diverges tables cs key
  nodup : ∀ key, ((map key).map ForwardSlot.template).Nodup

theorem sound_init : Sound tables cs (fun _ => []) [] :=
  ⟨fun _ _ _ ⟨_, hs, _⟩ => absurd hs List.not_mem_nil,
    fun _ h => absurd h List.not_mem_nil, fun _ => List.nodup_nil⟩

theorem sound_collect (h : Sound tables cs map poisoned) (hc : c ∈ cs) (t : Ty) (recipe : Bool)
    (hoffers : Offers (c.collect tables map).1 t recipe) : Needed tables cs c.key t recipe := by
  obtain ⟨hdepth, mark, hmark, hasks⟩ := (offers_collect map c t recipe).1 hoffers
  exact .of_asks hc hmark (hasks.mono h.offers) hdepth

theorem sound_visit {s : Fixpoint} (h : Sound tables cs s.map s.poisoned)
    (hc : c ∈ cs) : Sound tables cs (visit tables s c).map (visit tables s c).poisoned := by
  have hpoisoned : ∀ key ∈ (if (c.collect tables s.map).2 then c.key :: s.poisoned else s.poisoned),
      Diverges tables cs key := by
    intro key hkey
    by_cases hover : (c.collect tables s.map).2 = true
    · rw [if_pos hover] at hkey
      rcases List.mem_cons.1 hkey with rfl | hkey
      · obtain ⟨mark, hmark, t, recipe, hasks, hdepth⟩ := (overflow_collect s.map c).1 hover
        exact ⟨c, hc, rfl, mark, hmark, t, recipe, hasks.mono h.offers, hdepth⟩
      · exact h.poisoned key hkey
    · rw [if_neg hover] at hkey
      exact h.poisoned key hkey
  unfold visit
  dsimp only
  split
  · exact ⟨h.offers, hpoisoned, h.nodup⟩
  · refine ⟨fun key t recipe hoffers => ?_, hpoisoned, fun key => ?_⟩
    · by_cases hkey : key = c.key
      · subst hkey
        simp only [Table, if_true] at hoffers
        exact sound_collect h hc t recipe hoffers
      · simp only [Table, if_neg hkey] at hoffers
        exact h.offers key t recipe hoffers
    · dsimp only
      split
      · exact nodup_collectMarks _
      · exact h.nodup key

theorem sound_foldl {visited : List Candidate} (hvisited : ∀ c ∈ visited, c ∈ cs) :
    ∀ s : Fixpoint, Sound tables cs s.map s.poisoned →
      Sound tables cs (visited.foldl (visit tables) s).map
        (visited.foldl (visit tables) s).poisoned := by
  induction visited with
  | nil => exact fun s h => h
  | cons c visited ih =>
    intro s h
    exact ih (fun c' hc' => hvisited c' (List.mem_cons_of_mem _ hc')) _
      (sound_visit h (hvisited c List.mem_cons_self))

theorem sound_round (h : Sound tables cs map poisoned) :
    Sound tables cs (round tables cs map poisoned).map (round tables cs map poisoned).poisoned :=
  sound_foldl (fun _ hc => hc) _ h

/-- A candidate the table has nothing to learn from. -/
def Stable (tables : Tables) (map : ForwardingMap) (poisoned : List String) (c : Candidate) : Prop :=
  ((c.collect tables map).1 = [] ∨ map c.key = (c.collect tables map).1) ∧
    ((c.collect tables map).2 = true → c.key ∈ poisoned)

theorem changed_visit (s : Fixpoint) (c : Candidate) (h : s.changed = true) :
    (visit tables s c).changed = true := by
  unfold visit
  dsimp only
  split
  · exact h
  · rfl

theorem changed_foldl (visited : List Candidate) : ∀ s : Fixpoint, s.changed = true →
    (visited.foldl (visit tables) s).changed = true := by
  induction visited with
  | nil => exact fun s h => h
  | cons c visited ih => exact fun s h => ih _ (changed_visit s c h)

theorem poisoned_visit (s : Fixpoint) (c : Candidate) :
    s.poisoned ⊆ (visit tables s c).poisoned := by
  intro key hkey
  have hmem : key ∈ (if (c.collect tables s.map).2 then c.key :: s.poisoned else s.poisoned) := by
    split
    · exact List.mem_cons_of_mem _ hkey
    · exact hkey
  unfold visit
  dsimp only
  split <;> exact hmem

theorem poisoned_foldl (visited : List Candidate) : ∀ s : Fixpoint,
    s.poisoned ⊆ (visited.foldl (visit tables) s).poisoned := by
  induction visited with
  | nil => exact fun s key hkey => hkey
  | cons c visited ih => exact fun s key hkey => ih _ (poisoned_visit s c hkey)

theorem stable_visit {s : Fixpoint} (h : (visit tables s c).changed = false) :
    (visit tables s c).map = s.map ∧ Stable tables s.map (visit tables s c).poisoned c := by
  unfold visit at h ⊢
  dsimp only at h ⊢
  split at h
  · rename_i hsame
    rw [if_pos hsame]
    refine ⟨rfl, hsame, fun hover => ?_⟩
    rw [if_pos hover]
    exact List.mem_cons_self
  · cases h

theorem stable_foldl {visited : List Candidate} : ∀ s : Fixpoint,
    (visited.foldl (visit tables) s).changed = false →
      (visited.foldl (visit tables) s).map = s.map ∧
      ∀ c ∈ visited, Stable tables s.map (visited.foldl (visit tables) s).poisoned c := by
  induction visited with
  | nil => exact fun s _ => ⟨rfl, fun c hc => absurd hc List.not_mem_nil⟩
  | cons c visited ih =>
    intro s h
    rw [List.foldl_cons] at h ⊢
    have hvisit : (visit tables s c).changed = false := by
      cases hchanged : (visit tables s c).changed with
      | true => rw [changed_foldl visited _ hchanged] at h; cases h
      | false => rfl
    obtain ⟨hmap, hstable⟩ := stable_visit hvisit
    obtain ⟨hmap', hstable'⟩ := ih _ h
    refine ⟨hmap'.trans hmap, fun c' hc' => ?_⟩
    rcases List.mem_cons.1 hc' with rfl | hc'
    · exact ⟨hstable.1, fun hover => poisoned_foldl visited _ (hstable.2 hover)⟩
    · rw [← hmap]
      exact hstable' c' hc'

theorem stable_round (h : (round tables cs map poisoned).changed = false) :
    (round tables cs map poisoned).map = map ∧
      ∀ c ∈ cs, Stable tables map (round tables cs map poisoned).poisoned c :=
  stable_foldl _ h

theorem settle_spec : ∀ (fuel : Nat) {map map' : ForwardingMap} {poisoned poisoned' : List String},
    Sound tables cs map poisoned → settle tables cs fuel map poisoned = some (map', poisoned') →
      Sound tables cs map' poisoned' ∧ ∀ c ∈ cs, Stable tables map' poisoned' c := by
  intro fuel
  induction fuel with
  | zero =>
    intro map map' poisoned poisoned' _ h
    cases h
  | succ fuel ih =>
    intro map map' poisoned poisoned' hsound h
    rw [settle] at h
    have hround := sound_round hsound
    split at h
    · exact ih hround h
    · rename_i hchanged
      obtain ⟨hmap, hstable⟩ := stable_round (Bool.not_eq_true _ ▸ hchanged)
      cases h
      refine ⟨hround, fun c hc => ?_⟩
      rw [hmap]
      exact hstable c hc

/-! ### A settled table -/

theorem offers_of_stable (h : Stable tables map poisoned c)
    (hoffers : Offers (c.collect tables map).1 t recipe) : Table map c.key t recipe := by
  rcases h.1 with hempty | hsame
  · rw [hempty] at hoffers
    obtain ⟨s, hs, -⟩ := hoffers
    cases hs
  · rw [Table, hsame]
    exact hoffers

theorem table_of_needed (hstable : ∀ c ∈ cs, Stable tables map poisoned c) {key : String}
    (h : Needed tables cs key t recipe) : Table map key t recipe := by
  induction h with
  | template hc hmark hrecipe hdepth =>
    refine offers_of_stable (hstable _ hc) ((offers_collect map _ _ _).2 ⟨hdepth, _, hmark, ?_⟩)
    exact ⟨rfl, hrecipe⟩
  | slot hc hmark _ hmentions hdepth ih =>
    refine offers_of_stable (hstable _ hc) ((offers_collect map _ _ _).2 ⟨hdepth, _, hmark, ?_⟩)
    exact ⟨_, ih, rfl, hmentions⟩

theorem table_iff_needed
    (hsound : Sound tables cs map poisoned) (hstable : ∀ c ∈ cs, Stable tables map poisoned c)
    (key : String) (t : Ty) (recipe : Bool) :
    Table map key t recipe ↔ Needed tables cs key t recipe :=
  ⟨hsound.offers key t recipe, table_of_needed hstable⟩

theorem mem_poisoned_iff
    (hsound : Sound tables cs map poisoned) (hstable : ∀ c ∈ cs, Stable tables map poisoned c)
    (key : String) : key ∈ poisoned ↔ Diverges tables cs key := by
  refine ⟨hsound.poisoned key, ?_⟩
  rintro ⟨c, hc, rfl, mark, hmark, t, recipe, hasks, hdepth⟩
  refine (hstable c hc).2 ((overflow_collect map c).2 ⟨mark, hmark, t, recipe, ?_, hdepth⟩)
  exact hasks.mono fun key t recipe h => table_of_needed hstable h

end Noeta.Check
