import Noeta.Json.Native
import Noeta.Lib.ParseInt

/-!
# Writing under a hint

`RenderHint` and `json_stringify` of `noeta-ext-abi/src/render_hint.rs`: the hint says where, under a
static type, an erased word is an unsigned 64-bit integer. The walk follows the hint and the
marshalled value together, and hands every branch without a hint to `stringify`.
-/

namespace Noeta.Json

/-- `RenderHint`, without the parameters that a generic body's hint is resolved of first. -/
inductive RenderHint where
  | unsigned
  | elements (inner : RenderHint)
  | entries (key value : Option RenderHint)
  | slots (hs : List (Nat × RenderHint))
  | variants (vs : List (List Char × List (Nat × RenderHint)))

namespace RenderHint

/-- `iter().find(|(i, _)| *i == index)`, on a slot list. -/
def slotAt : List (Nat × RenderHint) → Nat → Option RenderHint
  | [], _ => none
  | (i, hint) :: hs, index => if i = index then some hint else slotAt hs index

/-- `hint.slot(index)`. -/
def slot : Option RenderHint → Nat → Option RenderHint
  | some (.slots hs), index => slotAt hs index
  | _, _ => none

/-- The slots of the variant of this name, if the list has it. -/
def variantAt : List (List Char × List (Nat × RenderHint)) → List Char →
    List (Nat × RenderHint)
  | [], _ => []
  | (name, hs) :: vs, variant => if name = variant then hs else variantAt vs variant

/-- `hint.variant(variant).unwrap_or(&[])`. -/
def variant : Option RenderHint → List Char → List (Nat × RenderHint)
  | some (.variants vs), name => variantAt vs name
  | _, _ => []

/-- Only the slots that have a hint, with their numbers. -/
def sparse (hints : List (Option RenderHint)) : List (Nat × RenderHint) :=
  hints.zipIdx.filterMap fun h => h.1.map (h.2, ·)

/-- `RenderHint::slots`: no hint at all where no slot has one. -/
def ofSlots (hints : List (Option RenderHint)) : Option RenderHint :=
  if (sparse hints).isEmpty then none else some (.slots (sparse hints))

end RenderHint

open RenderHint (slotAt variantAt)

/-- `unsigned_digits`: the word read as a `u64`. -/
def unsignedDigits (word : Int) : List Char := Nat.toDigits 10 (word % 2 ^ 64).toNat

/-- The comparator of `ordered_entries`, as "not greater". -/
def keyLe (a b : List Char) : Bool :=
  match parseI64 a, parseI64 b with
  | some x, some y => x % 2 ^ 64 ≤ y % 2 ^ 64
  | _, _ => true

def orderedEntries {α : Type} (entries : List (List Char × α)) (keyHint : Option RenderHint) :
    List (List Char × α) :=
  match keyHint with
  | some .unsigned => entries.mergeSort fun a b => keyLe a.1 b.1
  | _ => entries

/-- The text of a key before it is quoted. -/
def readKey (key : List Char) (hint : Option RenderHint) : List Char :=
  match hint with
  | some .unsigned => (parseI64 key).elim key unsignedDigits
  | _ => key

def jsonMapKey (key : List Char) (hint : Option RenderHint) : List Char :=
  jsonString (readKey key hint)

variable {fl : FloatFormat}

mutual

/-- `json_stringify` where there is a hint. -/
def hinted : RenderHint → NativeValue fl → List Char
  | .unsigned, .int word => unsignedDigits word
  | .elements inner, .list items => jsonArray (items.map fun item => hinted inner item)
  | .entries key none, .map entries =>
    jsonObject ((orderedEntries entries key).map fun e => (jsonMapKey e.1 key, stringify e.2))
  | .entries key (some value), .map entries =>
    jsonObject ((orderedEntries entries key).map fun e => (jsonMapKey e.1 key, hinted value e.2))
  | .slots hs, .list items => jsonArray (items.mapIdx fun i item => slotHinted hs i item)
  | .slots hs, .map entries =>
    jsonObject (entries.mapIdx fun i e => (jsonString e.1, slotHinted hs i e.2))
  | .slots hs, .inst fields =>
    jsonObject (fields.mapIdx fun i e => (jsonString e.1, slotHinted hs i e.2))
  | .variants vs, .variant _ variant _ fields =>
    if fields.isEmpty then jsonString variant
    else
      jsonObject [(jsonString variant,
        jsonArray (fields.mapIdx fun i field => variantHinted vs variant i field))]
  -- an `Option` marshals through its payload: the hint of that payload, or none
  | .variants vs, value => variantHinted vs "some".toList 0 value
  | _, value => stringify value

/-- The value under the slot's hint, where the slot has one. -/
def slotHinted : List (Nat × RenderHint) → Nat → NativeValue fl → List Char
  | [], _, value => stringify value
  | (i, hint) :: hs, index, value =>
    if i = index then hinted hint value else slotHinted hs index value

/-- The value under the hint of the variant's slot. -/
def variantHinted : List (List Char × List (Nat × RenderHint)) → List Char → Nat →
    NativeValue fl → List Char
  | [], _, _, value => stringify value
  | (name, hs) :: vs, variant, index, value =>
    if name = variant then slotHinted hs index value
    else variantHinted vs variant index value

end

def jsonStringify (value : NativeValue fl) (hint : Option RenderHint) : List Char :=
  match hint with
  | none => stringify value
  | some hint => hinted hint value

theorem slotHinted_eq (hs : List (Nat × RenderHint)) (index : Nat) (value : NativeValue fl) :
    slotHinted hs index value = jsonStringify value (slotAt hs index) := by
  induction hs with
  | nil => rfl
  | cons h hs ih =>
    obtain ⟨i, hint⟩ := h
    rw [slotHinted, slotAt, ih]
    split <;> rfl

theorem variantHinted_eq (vs : List (List Char × List (Nat × RenderHint))) (variant : List Char)
    (index : Nat) (value : NativeValue fl) :
    variantHinted vs variant index value =
      jsonStringify value (slotAt (variantAt vs variant) index) := by
  induction vs with
  | nil => rfl
  | cons v vs ih =>
    obtain ⟨name, hs⟩ := v
    rw [variantHinted, variantAt, ih]
    split
    · exact slotHinted_eq hs index value
    · rfl

/-! ### The hint that reaches a part -/

mutual

/-- The hint a value that is no enum case is written under: an `Option`'s hint gives way to its
payload's. -/
def RenderHint.settle : RenderHint → Option RenderHint
  | .variants vs => settleVariants vs
  | hint => some hint

def settleSlots : List (Nat × RenderHint) → Option RenderHint
  | [] => none
  | (i, hint) :: hs => if i = 0 then hint.settle else settleSlots hs

def settleVariants : List (List Char × List (Nat × RenderHint)) → Option RenderHint
  | [] => none
  | (name, hs) :: vs => if name = "some".toList then settleSlots hs else settleVariants vs

end

def settled (hint : Option RenderHint) : Option RenderHint := hint.bind RenderHint.settle

def itemHint : Option RenderHint → Nat → Option RenderHint
  | some (.elements inner), _ => some inner
  | some (.slots hs), i => slotAt hs i
  | _, _ => none

def keyHint : Option RenderHint → Option RenderHint
  | some (.entries key _) => key
  | _ => none

def fieldHint : Option RenderHint → Nat → Option RenderHint
  | some (.entries _ value), _ => value
  | some (.slots hs), i => slotAt hs i
  | _, _ => none

def payloadHint (hint : Option RenderHint) (variant : List Char) (i : Nat) : Option RenderHint :=
  slotAt (RenderHint.variant hint variant) i

def isUnsigned : Option RenderHint → Bool
  | some .unsigned => true
  | _ => false

def NativeValue.isVariant : NativeValue fl → Bool
  | .variant .. => true
  | _ => false

mutual

theorem hinted_settle {value : NativeValue fl} (h : value.isVariant = false) :
    ∀ hint : RenderHint, hinted hint value = jsonStringify value hint.settle
  | .variants vs => by
    have hstep : hinted (.variants vs) value = variantHinted vs "some".toList 0 value := by
      cases value with
      | variant e v i fs => exact absurd h (by simp [NativeValue.isVariant])
      | _ => rfl
    rw [hstep]
    exact variantHinted_settle h vs
  | .unsigned => rfl
  | .elements _ => rfl
  | .entries _ _ => rfl
  | .slots _ => rfl

theorem slotHinted_settle {value : NativeValue fl} (h : value.isVariant = false) :
    ∀ hs : List (Nat × RenderHint),
      slotHinted hs 0 value = jsonStringify value (settleSlots hs)
  | [] => rfl
  | (i, hint) :: hs => by
    rw [slotHinted, settleSlots]
    split
    · exact hinted_settle h hint
    · exact slotHinted_settle h hs

theorem variantHinted_settle {value : NativeValue fl} (h : value.isVariant = false) :
    ∀ vs : List (List Char × List (Nat × RenderHint)),
      variantHinted vs "some".toList 0 value = jsonStringify value (settleVariants vs)
  | [] => rfl
  | (name, hs) :: vs => by
    rw [variantHinted, settleVariants]
    split
    · exact slotHinted_settle h hs
    · exact variantHinted_settle h vs

end

theorem jsonStringify_settled {value : NativeValue fl} (h : value.isVariant = false)
    (hint : Option RenderHint) : jsonStringify value hint = jsonStringify value (settled hint) := by
  cases hint with
  | none => rfl
  | some hint => exact hinted_settle h hint

mutual

theorem settle_not_variants :
    ∀ (hint : RenderHint) (vs : List (List Char × List (Nat × RenderHint))),
      hint.settle ≠ some (.variants vs)
  | .variants ws => fun vs => settleVariants_not_variants ws vs
  | .unsigned => fun vs => by simp [RenderHint.settle]
  | .elements _ => fun vs => by simp [RenderHint.settle]
  | .entries _ _ => fun vs => by simp [RenderHint.settle]
  | .slots _ => fun vs => by simp [RenderHint.settle]

theorem settleSlots_not_variants :
    ∀ (hs : List (Nat × RenderHint)) (vs : List (List Char × List (Nat × RenderHint))),
      settleSlots hs ≠ some (.variants vs)
  | [] => fun vs => by simp [settleSlots]
  | (i, hint) :: hs => fun vs => by
    rw [settleSlots]
    split
    · exact settle_not_variants hint vs
    · exact settleSlots_not_variants hs vs

theorem settleVariants_not_variants :
    ∀ (ws vs : List (List Char × List (Nat × RenderHint))),
      settleVariants ws ≠ some (.variants vs)
  | [] => fun vs => by simp [settleVariants]
  | (name, hs) :: ws => fun vs => by
    rw [settleVariants]
    split
    · exact settleSlots_not_variants hs vs
    · exact settleVariants_not_variants ws vs

end

theorem settled_not_variants (hint : Option RenderHint)
    (vs : List (List Char × List (Nat × RenderHint))) : settled hint ≠ some (.variants vs) := by
  cases hint with
  | none => simp [settled]
  | some hint => exact settle_not_variants hint vs

/-! ### Writing by parts -/

theorem jsonStringify_int (n : Int) (hint : Option RenderHint) :
    jsonStringify (.int n : NativeValue fl) hint =
      if isUnsigned (settled hint) then unsignedDigits n else intText n := by
  rw [jsonStringify_settled rfl]
  have hvs := settled_not_variants hint
  generalize settled hint = hint at hvs ⊢
  cases hint with
  | none => rfl
  | some hint =>
    cases hint with
    | variants vs => exact absurd rfl (hvs vs)
    | entries key value => cases value <;> rfl
    | _ => rfl

/-- A value without parts and without an integer in it. -/
def NativeValue.isLeaf : NativeValue fl → Bool
  | .bool _ => true
  | .float _ => true
  | .f32 _ => true
  | .str _ => true
  | .unit => true
  | .externValue _ => true
  | .bytes _ => true
  | _ => false

theorem jsonStringify_leaf {value : NativeValue fl} (h : value.isLeaf = true)
    (hint : Option RenderHint) : jsonStringify value hint = stringify value := by
  have hvariant : value.isVariant = false := by
    cases value <;> first | rfl | exact absurd h (by simp [NativeValue.isLeaf])
  have hvs := settled_not_variants hint
  rw [jsonStringify_settled hvariant]
  generalize settled hint = hint at hvs ⊢
  cases hint with
  | none => rfl
  | some hint =>
    cases hint with
    | variants vs => exact absurd rfl (hvs vs)
    | entries key val =>
      cases val <;> cases value <;> first | rfl | exact absurd h (by simp [NativeValue.isLeaf])
    | _ => cases value <;> first | rfl | exact absurd h (by simp [NativeValue.isLeaf])

theorem mapIdx_const {α β : Type} (f : α → β) (items : List α) :
    items.mapIdx (fun _ item => f item) = items.map f := by
  induction items with
  | nil => rfl
  | cons item items ih => rw [List.mapIdx_cons, List.map_cons, ih]

theorem map_mapIdx {α β γ : Type} (f : Nat → α → β) (g : β → γ) (items : List α) :
    (items.mapIdx f).map g = items.mapIdx fun i item => g (f i item) := by
  rw [← mapIdx_const, List.mapIdx_mapIdx]
  rfl

theorem mapIdx_map {α β γ : Type} (f : Nat → β → γ) (g : α → β) (items : List α) :
    (items.map g).mapIdx f = items.mapIdx fun i item => f i (g item) := by
  rw [← mapIdx_const, List.mapIdx_mapIdx]
  rfl

theorem jsonStringify_list (items : List (NativeValue fl)) (hint : Option RenderHint) :
    jsonStringify (.list items) hint =
      jsonArray (items.mapIdx fun i item => jsonStringify item (itemHint (settled hint) i)) := by
  rw [jsonStringify_settled rfl]
  have hvs := settled_not_variants hint
  generalize settled hint = hint at hvs ⊢
  have hplain : stringify (.list items) =
      jsonArray (items.mapIdx fun _ item => jsonStringify item none) := by
    rw [stringify, stringifyAll_eq, mapIdx_const]
    rfl
  cases hint with
  | none => exact hplain
  | some hint =>
    cases hint with
    | variants vs => exact absurd rfl (hvs vs)
    | elements inner =>
      simp only [jsonStringify, hinted, itemHint, mapIdx_const]
    | slots hs => simp only [jsonStringify, hinted, itemHint, slotHinted_eq]
    | unsigned => exact hplain
    | entries key value => cases value <;> exact hplain

theorem jsonStringify_map (entries : List (List Char × NativeValue fl))
    (hint : Option RenderHint) :
    jsonStringify (.map entries) hint =
      jsonObject ((orderedEntries entries (keyHint (settled hint))).mapIdx fun i e =>
        (jsonMapKey e.1 (keyHint (settled hint)),
          jsonStringify e.2 (fieldHint (settled hint) i))) := by
  rw [jsonStringify_settled rfl]
  have hvs := settled_not_variants hint
  generalize settled hint = hint at hvs ⊢
  have hplain : stringify (.map entries) =
      jsonObject (entries.mapIdx fun _ e => (jsonString e.1, jsonStringify e.2 none)) := by
    rw [stringify, stringifyEntries_eq, mapIdx_const]
    rfl
  cases hint with
  | none => exact hplain
  | some hint =>
    cases hint with
    | variants vs => exact absurd rfl (hvs vs)
    | elements inner => exact hplain
    | unsigned => exact hplain
    | slots hs =>
      simp only [jsonStringify, hinted, keyHint, fieldHint, slotHinted_eq]
      rfl
    | entries key value =>
      cases value with
      | none => simp only [jsonStringify, hinted, keyHint, fieldHint, mapIdx_const]
      | some value => simp only [jsonStringify, hinted, keyHint, fieldHint, mapIdx_const]

theorem jsonStringify_variant (enumName variant : List Char) (index : Nat)
    (fields : List (NativeValue fl)) (hint : Option RenderHint) :
    jsonStringify (.variant enumName variant index fields) hint =
      if fields.isEmpty then jsonString variant
      else jsonObject [(jsonString variant, jsonArray (fields.mapIdx fun i field =>
        jsonStringify field (payloadHint hint variant i)))] := by
  have hplain : stringify (.variant enumName variant index fields) =
      if fields.isEmpty then jsonString variant
      else jsonObject [(jsonString variant,
        jsonArray (fields.mapIdx fun _ field => jsonStringify field none))] := by
    rw [stringify, stringifyAll_eq, mapIdx_const]
    rfl
  cases hint with
  | none => exact hplain
  | some hint =>
    cases hint with
    | variants vs =>
      simp only [jsonStringify, hinted, variantHinted_eq]
      rfl
    | elements inner => exact hplain
    | unsigned => exact hplain
    | slots hs => exact hplain
    | entries key value => cases value <;> exact hplain

theorem jsonStringify_inst (fields : List (List Char × NativeValue fl))
    (hint : Option RenderHint) :
    ∃ hs : Nat → Option RenderHint, jsonStringify (.inst fields) hint =
      jsonObject (fields.mapIdx fun i e => (jsonString e.1, jsonStringify e.2 (hs i))) := by
  rw [jsonStringify_settled rfl]
  have hvs := settled_not_variants hint
  generalize settled hint = hint at hvs ⊢
  have hplain : stringify (.inst fields) =
      jsonObject (fields.mapIdx fun _ e => (jsonString e.1, jsonStringify e.2 none)) := by
    rw [stringify, stringifyEntries_eq, mapIdx_const]
    rfl
  cases hint with
  | none => exact ⟨fun _ => none, hplain⟩
  | some hint =>
    cases hint with
    | variants vs => exact absurd rfl (hvs vs)
    | elements inner => exact ⟨fun _ => none, hplain⟩
    | unsigned => exact ⟨fun _ => none, hplain⟩
    | slots hs =>
      refine ⟨slotAt hs, ?_⟩
      simp only [jsonStringify, hinted, slotHinted_eq]
    | entries key value => exact ⟨fun _ => none, by cases value <;> exact hplain⟩

theorem mem_orderedEntries {α : Type} {entries : List (List Char × α)} {hint : Option RenderHint}
    {e : List Char × α} : e ∈ orderedEntries entries hint ↔ e ∈ entries := by
  unfold orderedEntries
  split
  · exact List.mem_mergeSort
  · exact Iff.rfl

theorem text_object {entries : List (List Char × List Char)} (h : ∀ e ∈ entries, Text e.2) :
    Text (jsonObject (entries.map fun e => (jsonString e.1, e.2))) := .object h

mutual

/-- Under any hint, what is written is a text. -/
theorem text_jsonStringify :
    ∀ (value : NativeValue fl) (hint : Option RenderHint), Text (jsonStringify value hint)
  | .int n, hint => by
    rw [jsonStringify_int]
    split
    · exact text_toDigits _
    · exact text_intText n
  | .bool b, hint | .float f, hint | .f32 f, hint | .str s, hint | .unit, hint | .externValue d, hint
  | .bytes b, hint => by
    rw [jsonStringify_leaf rfl]
    exact text_stringify _
  | .list items, hint => by
    rw [jsonStringify_list]
    refine .array ?_
    intro part hpart
    obtain ⟨i, hi, rfl⟩ := List.mem_mapIdx.1 hpart
    exact text_items items _ (List.getElem_mem hi) _
  | .map entries, hint => by
    rw [jsonStringify_map]
    have hvalues := text_entries entries
    generalize keyHint (settled hint) = key
    have hobject := @text_object ((orderedEntries entries key).mapIdx fun i e =>
      (readKey e.1 key, jsonStringify e.2 (fieldHint (settled hint) i))) (by
        intro e he
        obtain ⟨i, hi, rfl⟩ := List.mem_mapIdx.1 he
        exact hvalues _ (mem_orderedEntries.1 (List.getElem_mem hi)) _)
    rw [map_mapIdx] at hobject
    exact hobject
  | .inst fields, hint => by
    obtain ⟨hs, heq⟩ := jsonStringify_inst fields hint
    rw [heq]
    have hvalues := text_entries fields
    have hobject := @text_object (fields.mapIdx fun i e =>
      (e.1, jsonStringify e.2 (hs i))) (by
        intro e he
        obtain ⟨i, hi, rfl⟩ := List.mem_mapIdx.1 he
        exact hvalues _ (List.getElem_mem hi) _)
    rw [map_mapIdx] at hobject
    exact hobject
  | .variant e v i fields, hint => by
    rw [jsonStringify_variant]
    split
    · exact .string v
    · refine text_payload v ?_
      intro part hpart
      obtain ⟨i, hi, rfl⟩ := List.mem_mapIdx.1 hpart
      exact text_items fields _ (List.getElem_mem hi) _

theorem text_items : ∀ (items : List (NativeValue fl)), ∀ item ∈ items,
    ∀ hint : Option RenderHint, Text (jsonStringify item hint)
  | [] => fun item h => absurd h List.not_mem_nil
  | first :: items => fun item h => by
    intro hint
    obtain heq | h := List.mem_cons.1 h
    · rw [heq]
      exact text_jsonStringify first hint
    · exact text_items items item h hint

theorem text_entries : ∀ (entries : List (List Char × NativeValue fl)), ∀ e ∈ entries,
    ∀ hint : Option RenderHint, Text (jsonStringify e.2 hint)
  | [] => fun e h => absurd h List.not_mem_nil
  | (key, value) :: entries => fun e h => by
    intro hint
    obtain heq | h := List.mem_cons.1 h
    · rw [heq]
      exact text_jsonStringify value hint
    · exact text_entries entries e h hint

end

end Noeta.Json
