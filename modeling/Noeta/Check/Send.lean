import Mathlib.Logic.Relation
import Noeta.Check.Forwarding

/-!
# What may cross an isolate boundary

`is_send` of `noeta-check/src/effects.rs`, over the symbol tables of a program. The walk opens each
struct and enum once on a path, by its bare name; the types it rejects are those it meets that way.
A type that cannot be sent may be reachable at another instantiation only.
-/

namespace Noeta.Check

open Noeta.Types (Ty TypeKind)
open Relation (ReflTransGen)

/-- The tables of `symbols` the judgement reads, each as the list of its entries. -/
structure Symbols where
  typeKinds : List (String × TypeKind)
  records : List (String × List (String × Ty))
  /-- The payload types of each variant. -/
  enums : List (String × List (List Ty))
  genericTypes : List (String × List TypeParam)

/-- `HashMap::get`. -/
def lookup {α : Type} (table : List (String × α)) (name : String) : Option α :=
  (table.find? fun e => e.1 == name).map Prod.snd

theorem mem_names_of_lookup {α : Type} {table : List (String × α)} {name : String} {a : α}
    (h : lookup table name = some a) : name ∈ table.map Prod.fst := by
  obtain ⟨e, he, -⟩ := Option.map_eq_some_iff.1 h
  have hname : (e.1 == name) = true := by simpa using List.find?_some he
  exact beq_iff_eq.1 hname ▸ List.mem_map_of_mem (List.mem_of_find?_eq_some he)

theorem unvisited_lt {names : List String} {name : String} (hmem : name ∈ names)
    {visited : List String} (hnew : visited.contains name = false) :
    (names.filter fun n => !(name :: visited).contains n).length <
      (names.filter fun n => !visited.contains n).length := by
  have hle : ∀ l : List String, (l.filter fun n => !(name :: visited).contains n).length ≤
      (l.filter fun n => !visited.contains n).length := by
    intro l
    refine (List.Sublist.length_le (List.monotone_filter_right l fun n hn => ?_))
    simp only [List.contains_cons, Bool.not_or, Bool.and_eq_true] at hn
    exact hn.2
  obtain ⟨front, back, rfl⟩ := List.append_of_mem hmem
  have hfront := hle front
  have hback := hle back
  rw [List.filter_append, List.filter_append, List.length_append, List.length_append,
    List.filter_cons_of_neg (by simp), List.filter_cons_of_pos (by simpa using hnew),
    List.length_cons]
  omega

namespace Symbols

variable (sy : Symbols)

def kind (name : String) : Option TypeKind := lookup sy.typeKinds name

def typeArgSubst (name : String) (args : List Ty) : Subst :=
  match lookup sy.genericTypes name with
  | some params => substOf params args
  | none => []

/-- The field types of a struct, at its arguments. -/
def fieldTypes (name : String) (args : List Ty) : List Ty :=
  (((lookup sy.records name).getD []).map Prod.snd).map (applySubst (sy.typeArgSubst name args))

/-- The payload types of an enum, at its arguments. -/
def payloadTypes (name : String) (args : List Ty) : List Ty :=
  (((lookup sy.enums name).getD []).flatten).map (applySubst (sy.typeArgSubst name args))

/-- The declared types that are still to be opened. -/
def unopened (visited : List String) : Nat :=
  ((sy.typeKinds.map Prod.fst).filter fun name => !visited.contains name).length

variable {name : String} {k : TypeKind} {visited : List String} {args : List Ty}

theorem mem_names_of_kind (h : sy.kind name = some k) : name ∈ sy.typeKinds.map Prod.fst :=
  mem_names_of_lookup h

theorem unopened_lt (h : sy.kind name = some k) (hnew : visited.contains name = false) :
    sy.unopened (name :: visited) < sy.unopened visited :=
  unvisited_lt (sy.mem_names_of_kind h) hnew

/-- `SENDER`, `RECEIVER`. -/
def endpoint (name : String) : Bool := name == "Sender" || name == "Receiver"

mutual

def isSend (visited : List String) : Ty → Bool
  | .int => true
  | .float => true
  | .f32 => true
  | .bool => true
  | .string => true
  | .bytes => true
  | .unit => true
  | .unknown => true
  | .list e => isSend visited e
  | .set e => isSend visited e
  | .option e => isSend visited e
  | .map k v => isSend visited k && isSend visited v
  | .result k v => isSend visited k && isSend visited v
  | .tuple elems => areSend visited elems
  | .union elems => areSend visited elems
  | .named name args =>
    match _h : sy.kind name with
    | some .classKind => false
    | some .structKind =>
      if _hseen : visited.contains name then true
      else areSend (name :: visited) (sy.fieldTypes name args)
    | some .enumKind =>
      if _hseen : visited.contains name then true
      else areSend (name :: visited) (sy.payloadTypes name args)
    | none =>
      if endpoint name then
        match args with
        | message :: _ => isSend visited message
        | [] => true
      else name == "Ordering"
  | _ => false
  termination_by t => (sy.unopened visited, sizeOf t)
  decreasing_by
    all_goals first
      | (apply Prod.Lex.left; exact sy.unopened_lt _h (Bool.not_eq_true _ ▸ _hseen))
      | (apply Prod.Lex.right; simp; try omega)

/-- The members of a list, in order. -/
def areSend (visited : List String) : List Ty → Bool
  | [] => true
  | t :: ts => isSend visited t && areSend visited ts
  termination_by ts => (sy.unopened visited, sizeOf ts)
  decreasing_by
    all_goals (apply Prod.Lex.right; simp; try omega)

end

/-! ### Reachable types -/

/-- The element and message types. -/
def elements : Ty → List Ty
  | .list e => [e]
  | .set e => [e]
  | .option e => [e]
  | .map k v => [k, v]
  | .result k v => [k, v]
  | .tuple elems => elems
  | .union elems => elems
  | .named name args => if sy.kind name = none ∧ endpoint name then args.take 1 else []
  | _ => []

/-- The field and payload types, at the arguments of the type. -/
def contents : Ty → List Ty
  | .named name args =>
    match sy.kind name with
    | some .structKind => sy.fieldTypes name args
    | some .enumKind => sy.payloadTypes name args
    | _ => []
  | _ => []

def Steps (t u : Ty) : Prop := u ∈ sy.elements t ∨ u ∈ sy.contents t

/-- A class, a function, a future or an iterator. -/
def Barred : Ty → Prop
  | .named name _ =>
    sy.kind name = some .classKind ∨ (sy.kind name = none ∧ (name = "Future" ∨ name = "Iterator"))
  | .fn _ _ => True
  | _ => False

/-- A type the judgement answers no to without a step. -/
def Rejected : Ty → Prop
  | .named name _ => sy.kind name = some .classKind ∨
      (sy.kind name = none ∧ endpoint name = false ∧ name ≠ "Ordering")
  | .f64 => True
  | .intN _ _ => True
  | .fn _ _ => True
  | .never => True
  | .dyn => True
  | .dynTrait _ => True
  | .param _ => True
  | .kind _ => True
  | _ => False

/-- Reachable on a path that opens no declared name twice. -/
inductive OpensOnce : List String → Ty → Ty → Prop where
  | here {visited : List String} {t : Ty} : OpensOnce visited t t
  | element {visited : List String} {t s u : Ty} : s ∈ sy.elements t → OpensOnce visited s u →
      OpensOnce visited t u
  | content {visited : List String} {name : String} {args : List Ty} {s u : Ty} :
      visited.contains name = false → s ∈ sy.contents (.named name args) →
      OpensOnce (name :: visited) s u → OpensOnce visited (.named name args) u

variable {sy}

variable (sy)

/-- Everything met from a type on is accepted. -/
def Clean (visited : List String) (t : Ty) : Prop :=
  ∀ u, sy.OpensOnce visited t u → ¬ sy.Rejected u

variable {sy}

theorem not_clean {t : Ty} (h : sy.Rejected t) : ¬ sy.Clean visited t :=
  fun hclean => hclean t .here h

theorem clean_elements {t : Ty} (hcontents : sy.contents t = [])
    (ht : ¬ sy.Rejected t) : sy.Clean visited t ↔ ∀ s ∈ sy.elements t, sy.Clean visited s := by
  constructor
  · exact fun h s hs u hu => h u (.element hs hu)
  · intro h u hu
    cases hu with
    | here => exact ht
    | element hs hu => exact h _ hs u hu
    | content _ hs _ =>
      rw [hcontents] at hs
      cases hs

theorem clean_leaf {t : Ty} (hcontents : sy.contents t = [])
    (helements : sy.elements t = []) (ht : ¬ sy.Rejected t) : sy.Clean visited t := by
  rw [clean_elements hcontents ht, helements]
  exact fun s hs => absurd hs List.not_mem_nil

theorem clean_opened
    (helements : sy.elements (.named name args) = []) (ht : ¬ sy.Rejected (.named name args))
    (hnew : visited.contains name = false) : sy.Clean visited (.named name args) ↔
      ∀ s ∈ sy.contents (.named name args), sy.Clean (name :: visited) s := by
  constructor
  · exact fun h s hs u hu => h u (.content hnew hs hu)
  · intro h u hu
    cases hu with
    | here => exact ht
    | element hs hu =>
      rw [helements] at hs
      cases hs
    | content _ hs hu => exact h _ hs u hu

theorem clean_seen
    (helements : sy.elements (.named name args) = []) (ht : ¬ sy.Rejected (.named name args))
    (hseen : visited.contains name = true) : sy.Clean visited (.named name args) := by
  intro u hu
  cases hu with
  | here => exact ht
  | element hs hu =>
    rw [helements] at hs
    cases hs
  | content hnew _ _ =>
    rw [hseen] at hnew
    cases hnew

theorem elements_declared (h : sy.kind name = some k) : sy.elements (.named name args) = [] := by
  rw [elements, if_neg]
  rintro ⟨hnone, -⟩
  rw [h] at hnone
  cases hnone

mutual

/-- The judgement accepts a type when it meets no type it rejects. -/
theorem isSend_iff (visited : List String) (t : Ty) :
    sy.isSend visited t = true ↔ sy.Clean visited t := by
  cases t with
  | int | float | f32 | bool | string | bytes | unit | unknown =>
    rw [isSend]
    exact iff_of_true rfl (clean_leaf rfl rfl fun h => h)
  | f64 | intN signed bits | fn ps r | never | dyn | dynTrait tr | param id | kind k =>
    exact iff_of_false (by simp [isSend]) (not_clean trivial)
  | list e =>
    rw [isSend, isSend_iff visited e]
    refine Iff.trans ?_ (clean_elements (t := .list e) rfl fun h => h).symm
    simp [elements]
  | set e =>
    rw [isSend, isSend_iff visited e]
    refine Iff.trans ?_ (clean_elements (t := .set e) rfl fun h => h).symm
    simp [elements]
  | option e =>
    rw [isSend, isSend_iff visited e]
    refine Iff.trans ?_ (clean_elements (t := .option e) rfl fun h => h).symm
    simp [elements]
  | map k v =>
    rw [isSend, Bool.and_eq_true, isSend_iff visited k, isSend_iff visited v]
    refine Iff.trans ?_ (clean_elements (t := .map k v) rfl fun h => h).symm
    simp [elements]
  | result k v =>
    rw [isSend, Bool.and_eq_true, isSend_iff visited k, isSend_iff visited v]
    refine Iff.trans ?_ (clean_elements (t := .result k v) rfl fun h => h).symm
    simp [elements]
  | tuple elems =>
    rw [isSend, areSend_iff visited elems]
    exact (clean_elements (t := .tuple elems) rfl fun h => h).symm
  | union elems =>
    rw [isSend, areSend_iff visited elems]
    exact (clean_elements (t := .union elems) rfl fun h => h).symm
  | named name args =>
    unfold isSend
    split
    · rename_i hkind
      exact iff_of_false Bool.false_ne_true (not_clean (.inl hkind))
    · rename_i hkind
      have hcontents : sy.contents (.named name args) = sy.fieldTypes name args := by
        rw [contents, hkind]
      have hrejected : ¬ sy.Rejected (.named name args) := by
        simp [Rejected, hkind]
      by_cases hseen : visited.contains name = true
      · rw [dif_pos hseen]
        simp [clean_seen (elements_declared hkind) hrejected hseen]
      · rw [dif_neg hseen]
        rw [areSend_iff (name :: visited) (sy.fieldTypes name args),
          clean_opened (elements_declared hkind) hrejected (Bool.not_eq_true _ ▸ hseen), hcontents]
    · rename_i hkind
      have hcontents : sy.contents (.named name args) = sy.payloadTypes name args := by
        rw [contents, hkind]
      have hrejected : ¬ sy.Rejected (.named name args) := by
        simp [Rejected, hkind]
      by_cases hseen : visited.contains name = true
      · rw [dif_pos hseen]
        simp [clean_seen (elements_declared hkind) hrejected hseen]
      · rw [dif_neg hseen]
        rw [areSend_iff (name :: visited) (sy.payloadTypes name args),
          clean_opened (elements_declared hkind) hrejected (Bool.not_eq_true _ ▸ hseen), hcontents]
    · rename_i hkind
      have hcontents : sy.contents (.named name args) = [] := by
        rw [contents, hkind]
      by_cases hend : endpoint name = true
      · have hrejected : ¬ sy.Rejected (.named name args) := by
          simp [Rejected, hkind, hend]
        rw [if_pos hend, clean_elements hcontents hrejected, elements, if_pos ⟨hkind, hend⟩]
        match args with
        | [] => simp
        | message :: rest =>
          rw [isSend_iff visited message]
          simp
      · rw [if_neg hend, beq_iff_eq]
        by_cases hname : name = "Ordering"
        · have hrejected : ¬ sy.Rejected (.named name args) := by
            rintro (hclass | ⟨-, -, hne⟩)
            · rw [hkind] at hclass
              cases hclass
            · exact hne hname
          rw [clean_elements hcontents hrejected, elements, if_neg (fun h => hend h.2)]
          simp [hname]
        · have hrejected : sy.Rejected (.named name args) :=
            .inr ⟨hkind, Bool.not_eq_true _ ▸ hend, hname⟩
          simp [hname, not_clean hrejected]
  termination_by (sy.unopened visited, sizeOf t)
  decreasing_by
    all_goals first
      | (apply Prod.Lex.left
         exact sy.unopened_lt (by assumption) (Bool.not_eq_true _ ▸ (by assumption)))
      | (apply Prod.Lex.right; simp; try omega)

theorem areSend_iff (visited : List String) (ts : List Ty) :
    sy.areSend visited ts = true ↔ ∀ t ∈ ts, sy.Clean visited t := by
  cases ts with
  | nil => simp [areSend]
  | cons t ts =>
    rw [areSend, Bool.and_eq_true, isSend_iff visited t, areSend_iff visited ts, List.forall_mem_cons]
  termination_by (sy.unopened visited, sizeOf ts)
  decreasing_by
    all_goals (apply Prod.Lex.right; simp; try omega)

end

variable (sy)

/-- A type that cannot be sent is reachable. -/
def ReachesBarred (t : Ty) : Prop := ∃ u, ReflTransGen sy.Steps t u ∧ sy.Barred u

/-- The judgement is exact for the type. -/
def Exact (t : Ty) : Prop := sy.isSend [] t = true ↔ ¬ sy.ReachesBarred t

/-- The judgement is exact if and only if a barred type is reachable just when a rejected one is met
on a path that opens no declared name twice. -/
theorem isSend_exact_iff (t : Ty) :
    sy.Exact t ↔ (sy.ReachesBarred t ↔ ∃ u, sy.OpensOnce [] t u ∧ sy.Rejected u) := by
  have hclean : sy.Clean [] t ↔ ¬ ∃ u, sy.OpensOnce [] t u ∧ sy.Rejected u := by
    constructor
    · rintro h ⟨u, hu, hrejected⟩
      exact h u hu hrejected
    · exact fun h u hu hrejected => h ⟨u, hu, hrejected⟩
  rw [Exact, isSend_iff, hclean]
  exact not_iff_not.trans Iff.comm

/-- `class Conn {}` and `struct Node<T> { value: T, next: ?Node<Conn> }` -/
def nodeSymbols : Symbols where
  typeKinds := [("Conn", .classKind), ("Node", .structKind)]
  records := [("Node", [("value", .param 0), ("next", .option (.named "Node" [.named "Conn" []]))])]
  enums := []
  genericTypes := [("Node", [⟨"T", 0⟩])]

theorem isSend_node : nodeSymbols.Clean [] (.named "Node" [.int]) := by
  rw [clean_opened rfl (by simp [Rejected, kind, lookup, nodeSymbols]) rfl]
  have hcontents : nodeSymbols.contents (.named "Node" [.int]) =
      [.int, .option (.named "Node" [.named "Conn" []])] := rfl
  rw [hcontents, List.forall_mem_cons, List.forall_mem_singleton]
  refine ⟨clean_leaf rfl rfl fun h => h, ?_⟩
  refine (clean_elements (t := .option (.named "Node" [.named "Conn" []])) rfl fun h => h).2 ?_
  refine List.forall_mem_singleton.2 ?_
  exact clean_seen rfl (by simp [Rejected, kind, lookup, nodeSymbols]) rfl

theorem node_reaches_conn : nodeSymbols.ReachesBarred (.named "Node" [.int]) := by
  refine ⟨.named "Conn" [], ?_, .inl rfl⟩
  have hnext : nodeSymbols.Steps (.named "Node" [.int])
      (.option (.named "Node" [.named "Conn" []])) :=
    .inr (List.mem_cons_of_mem _ List.mem_cons_self)
  have hopen : nodeSymbols.Steps (.option (.named "Node" [.named "Conn" []]))
      (.named "Node" [.named "Conn" []]) := .inl List.mem_cons_self
  have hvalue : nodeSymbols.Steps (.named "Node" [.named "Conn" []]) (.named "Conn" []) :=
    .inr List.mem_cons_self
  exact .head hnext (.head hopen (.single hvalue))

theorem not_reachesBarred_intN (signed : Bool) (bits : Nat) :
    ¬ sy.ReachesBarred (.intN signed bits) := by
  rintro ⟨u, hreach, hbarred⟩
  rcases ReflTransGen.cases_head hreach with rfl | ⟨v, hv, -⟩
  · exact hbarred
  · rcases hv with hv | hv
    · cases hv
    · cases hv

/-- An `i32` is rejected, and a class behind another instantiation of a struct is not found. -/
theorem isSend_not_exact : ¬ (⟨[], [], [], []⟩ : Symbols).Exact (.intN true 32) ∧
    ¬ nodeSymbols.Exact (.named "Node" [.int]) := by
  constructor
  · intro h
    have hsend := h.2 (not_reachesBarred_intN _ true 32)
    simp [isSend] at hsend
  · intro h
    exact h.1 ((isSend_iff [] _).2 isSend_node) node_reaches_conn

end Symbols

end Noeta.Check
