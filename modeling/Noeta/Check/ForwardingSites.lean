import Noeta.Check.ForwardingTable

/-!
# Every forwarding site has its slot

The sites a body is checked at, and the slots they need. The walk meets every one of them but those
that stand in the guard of a `match` arm, which it does not visit, or in the default value of a
parameter of a nested function or closure.
-/

namespace Noeta.Check

open Noeta.Types (Ty TypeRef TypeScope)

/-- A site that consumes a type argument: a native turbofish, a name query or a narrow, and the
explicit turbofish of a function. -/
inductive Site where
  | native (ty : TypeRef)
  | name (ty : TypeRef)
  | turbofish (callee : String) (typeArgs : List TypeRef)

/-- A site in a body, with the scope it stands in; `hidden` in a guard or a default value. -/
structure Place where
  hidden : Bool
  scope : TypeScope
  site : Site

def hide (places : List Place) : List Place := places.map fun p => { p with hidden := true }

mutual

/-- The sites of a statement. Where a nested function shadows every parameter there are none. -/
def sitesStmt (scope : TypeScope) : Stmt → List Place
  | .echo value => sitesExpr scope value
  | .yieldOf value => sitesExpr scope value
  | .binding _ _ value => sitesExpr scope value
  | .destructure value => sitesExpr scope value
  | .expr e => sitesExpr scope e
  | .ret (some v) => sitesExpr scope v
  | .ret none => []
  | .ite cond thenBody elseBody =>
    sitesExpr scope cond ++ sitesStmts scope thenBody ++ sitesStmts scope elseBody
  | .forIn iterable body => sitesExpr scope iterable ++ sitesStmts scope body
  | .whileDo cond body => sitesExpr scope cond ++ sitesStmts scope body
  | .concurrent body => sitesStmts scope body
  | .tierBlock items => sitesStmts scope items
  | .fn (.mk _ typeParams _ defaults _ _ _ body) =>
    let visible := nestedScope scope typeParams
    if visible.params = [] ∧ visible.selfTy = none then []
    else hide (sitesExprs visible defaults) ++ sitesStmts visible body
  | .decl => []
  | .brk => []
  | .cont => []

def sitesStmts (scope : TypeScope) : List Stmt → List Place
  | [] => []
  | s :: ss => sitesStmt scope s ++ sitesStmts scope ss

/-- The sites of an expression: its own, and those of its parts. -/
def sitesExpr (scope : TypeScope) : Expr → List Place
  | .leaf => []
  | .ident _ => []
  | .node _ operands => sitesExprs scope operands
  | .tryOf operand => sitesExpr scope operand
  | .call callee args => sitesExpr scope callee ++ sitesExprs scope args
  | .member receiver _ => sitesExpr scope receiver
  | .closure defaults body => hide (sitesExprs scope defaults) ++ sitesBody scope body
  | .matchOn scrutinee arms => sitesExpr scope scrutinee ++ sitesArms scope arms
  | .object _ fields none => sitesFields scope fields
  | .object _ fields (some spread) => sitesExpr scope spread ++ sitesFields scope fields
  | .narrow _ e ty => [⟨false, scope, .name ty⟩] ++ sitesExpr scope e
  | .reflect byName types operands =>
    (if byName then types.map fun ty => ⟨false, scope, .name ty⟩ else []) ++
      sitesExprs scope operands
  | .typedModuleCall _ _ ty args => [⟨false, scope, .native ty⟩] ++ sitesExprs scope args
  | .typedCall name typeArgs args =>
    [⟨false, scope, .turbofish name typeArgs⟩] ++ sitesExprs scope args
  | .typedMethodCall recv _ _ args => sitesExpr scope recv ++ sitesExprs scope args
  | .instantiatedType recv _ => sitesExpr scope recv
  | .tierExpr holes => sitesExprs scope holes

def sitesExprs (scope : TypeScope) : List Expr → List Place
  | [] => []
  | e :: es => sitesExpr scope e ++ sitesExprs scope es

def sitesBody (scope : TypeScope) : Body → List Place
  | .expr e => sitesExpr scope e
  | .block stmts => sitesStmts scope stmts

def sitesArms (scope : TypeScope) : List Arm → List Place
  | [] => []
  | .mk none body :: arms => sitesBody scope body ++ sitesArms scope arms
  | .mk (some guard) body :: arms =>
    hide (sitesExpr scope guard) ++ sitesBody scope body ++ sitesArms scope arms

def sitesFields (scope : TypeScope) : List FieldInit → List Place
  | [] => []
  | .mk _ value :: fields => sitesExpr scope value ++ sitesFields scope fields

end

def Candidate.places (c : Candidate) : List Place := sitesStmts c.own c.decl.body

/-- The functions a body names with a turbofish. -/
def Candidate.named (c : Candidate) : List String :=
  c.places.filterMap fun p =>
    match p.site with
    | .turbofish callee _ => some callee
    | _ => none

/-- The slots a site needs: a native turbofish its type, with a recipe, a name query its bare
parameter, and a call each slot of the callee under the type arguments; all of them as far as they
mention a parameter in scope. -/
def Demands (tables : Tables) (offers : String → Ty → Bool → Prop) (scope : TypeScope) :
    Site → Ty → Bool → Prop
  | .native ty, t, recipe =>
    t = fromRefQ ty tables.xt scope ∧ mentionsParam t (scopeIds scope) = true ∧ recipe = true
  | .name ty, t, recipe =>
    t = fromRefQ ty tables.xt scope ∧ (∃ id ∈ scopeIds scope, t = .param id) ∧ recipe = false
  | .turbofish callee typeArgs, t, recipe =>
    ∃ params slot, tables.declParams callee = some params ∧ typeArgs.length = params.length ∧
      offers callee slot recipe ∧
      t = applySubst (substOf params (typeArgs.map fun ty => fromRefQ ty tables.xt scope)) slot ∧
      mentionsParam t (scopeIds scope) = true

theorem Demands.imp {tables : Tables} {offers offers' : String → Ty → Bool → Prop}
    (h : ∀ key t recipe, offers key t recipe → offers' key t recipe) {scope : TypeScope} {site : Site}
    {t : Ty} {recipe : Bool} (hd : Demands tables offers scope site t recipe) :
    Demands tables offers' scope site t recipe := by
  cases site with
  | native ty => exact hd
  | name ty => exact hd
  | turbofish callee typeArgs =>
    obtain ⟨params, slot, hparams, hlen, hslot, heq, hmentions⟩ := hd
    exact ⟨params, slot, hparams, hlen, h _ _ _ hslot, heq, hmentions⟩

/-! ### The walk meets the sites that are not hidden -/

/-- The marks ask for whatever the sites in the open need. -/
def Covers (tables : Tables) (offers : String → Ty → Bool → Prop) (marks : List Mark)
    (places : List Place) : Prop :=
  ∀ p ∈ places, p.hidden = false → ∀ t recipe, Demands tables offers p.scope p.site t recipe →
    ∃ mark ∈ marks, mark.Asks offers t recipe

section Covers

variable {tables : Tables} {offers : String → Ty → Bool → Prop} {marks marks' : List Mark}
  {places places' : List Place}

theorem covers_nil : Covers tables offers marks [] :=
  fun _ hp => absurd hp List.not_mem_nil

theorem covers_hide (h : Covers tables offers marks places') :
    Covers tables offers marks (hide places ++ places') := by
  intro p hp hopen
  rcases List.mem_append.1 hp with hp | hp
  · obtain ⟨q, -, rfl⟩ := List.mem_map.1 hp
    cases hopen
  · exact h p hp hopen

theorem Covers.right (h : Covers tables offers marks' places) :
    Covers tables offers (marks ++ marks') places := by
  intro p hp hopen t recipe hd
  obtain ⟨mark, hmark, hasks⟩ := h p hp hopen t recipe hd
  exact ⟨mark, List.mem_append_right _ hmark, hasks⟩

theorem Covers.append (h : Covers tables offers marks places)
    (h' : Covers tables offers marks' places') :
    Covers tables offers (marks ++ marks') (places ++ places') := by
  intro p hp hopen t recipe hd
  rcases List.mem_append.1 hp with hp | hp
  · obtain ⟨mark, hmark, hasks⟩ := h p hp hopen t recipe hd
    exact ⟨mark, List.mem_append_left _ hmark, hasks⟩
  · exact h'.right p hp hopen t recipe hd

theorem covers_native (cx : WalkCx) (ty : TypeRef) :
    Covers cx.tables offers (markMention cx ty) [⟨false, cx.params, .native ty⟩] := by
  intro p hp _ t recipe hd
  obtain rfl := List.mem_singleton.1 hp
  obtain ⟨rfl, hmentions, rfl⟩ := hd
  have hmark : markMention cx ty = [.template (cx.toType ty) true] := if_pos hmentions
  rw [hmark]
  exact ⟨_, List.mem_singleton.2 rfl, rfl, fun h => h⟩

theorem covers_name (cx : WalkCx) (ty : TypeRef) :
    Covers cx.tables offers (markBare cx ty) [⟨false, cx.params, .name ty⟩] := by
  intro p hp _ t recipe hd
  obtain rfl := List.mem_singleton.1 hp
  obtain ⟨ht, ⟨id, -, rfl⟩, rfl⟩ := hd
  have htype : cx.toType ty = .param id := ht.symm
  have hmark : markBare cx ty = [.template (.param id) false] := by
    unfold markBare WalkCx.bareParam
    rw [htype]
  rw [hmark]
  exact ⟨_, List.mem_singleton.2 rfl, rfl, fun h => h⟩

theorem covers_names (cx : WalkCx) (types : List TypeRef) :
    Covers cx.tables offers (types.flatMap (markBare cx))
      (types.map fun ty => ⟨false, cx.params, .name ty⟩) := by
  induction types with
  | nil => exact covers_nil
  | cons ty types ih =>
    rw [List.flatMap_cons, List.map_cons]
    exact (covers_name cx ty).append ih

theorem covers_turbofish (cx : WalkCx) (callee : String) (typeArgs : List TypeRef) :
    Covers cx.tables offers (markTurbofish cx callee typeArgs)
      [⟨false, cx.params, .turbofish callee typeArgs⟩] := by
  intro p hp _ t recipe hd
  obtain rfl := List.mem_singleton.1 hp
  obtain ⟨params, slot, hparams, hlen, hslot, rfl, hmentions⟩ := hd
  have hmark : markTurbofish cx callee typeArgs =
      [.slotsOf callee (substOf params (typeArgs.map cx.toType)) (scopeIds cx.params)] := by
    unfold markTurbofish
    rw [hparams]
    exact if_pos hlen
  rw [hmark]
  exact ⟨_, List.mem_singleton.2 rfl, slot, hslot, rfl, hmentions⟩

end Covers

section Walk

variable {offers : String → Ty → Bool → Prop}

mutual

theorem walkStmt_covers (cx : WalkCx) : ∀ s : Stmt,
    Covers cx.tables offers (walkStmt cx s) (sitesStmt cx.params s)
  | .echo value => walkExpr_covers cx value
  | .yieldOf value => walkExpr_covers cx value
  | .binding _ (some _) value => (walkExpr_covers cx value).right
  | .binding _ none value => walkExpr_covers cx value
  | .destructure value => walkExpr_covers cx value
  | .expr e => walkExpr_covers cx e
  | .ret (some v) => (walkExpr_covers cx v).right
  | .ret none => covers_nil
  | .ite cond thenBody elseBody =>
    ((walkExpr_covers cx cond).append (walkStmts_covers cx thenBody)).append
      (walkStmts_covers cx elseBody)
  | .forIn iterable body => (walkExpr_covers cx iterable).append (walkStmts_covers cx body)
  | .whileDo cond body => (walkExpr_covers cx cond).append (walkStmts_covers cx body)
  | .concurrent body => walkStmts_covers cx body
  | .tierBlock items => walkStmts_covers cx items
  | .fn (.mk _ typeParams _ defaults ret _ _ body) => by
    rw [walkStmt, sitesStmt]
    split
    · exact covers_nil
    · exact covers_hide
        (walkStmts_covers { cx with params := nestedScope cx.params typeParams, ret := ret } body)
  | .decl => covers_nil
  | .brk => covers_nil
  | .cont => covers_nil

theorem walkStmts_covers (cx : WalkCx) : ∀ ss : List Stmt,
    Covers cx.tables offers (walkStmts cx ss) (sitesStmts cx.params ss)
  | [] => covers_nil
  | s :: ss => (walkStmt_covers cx s).append (walkStmts_covers cx ss)

theorem walkExpr_covers (cx : WalkCx) : ∀ e : Expr,
    Covers cx.tables offers (walkExpr cx e) (sitesExpr cx.params e)
  | .leaf => covers_nil
  | .ident _ => covers_nil
  | .node _ operands => walkExprs_covers cx operands
  | .tryOf operand => walkExpr_covers cx operand
  | .call callee args => by
    rw [walkExpr, sitesExpr, List.append_assoc]
    exact ((walkExpr_covers cx callee).append (walkExprs_covers cx args)).right
  | .member receiver _ => walkExpr_covers cx receiver
  | .closure _ body => covers_hide (walkBody_covers cx body)
  | .matchOn scrutinee arms => (walkExpr_covers cx scrutinee).append (walkArms_covers cx arms)
  | .object _ fields none => (walkFields_covers cx fields).right
  | .object _ fields (some spread) => by
    rw [walkExpr, sitesExpr, List.append_assoc]
    exact ((walkExpr_covers cx spread).append (walkFields_covers cx fields)).right
  | .narrow _ e ty => (covers_name cx ty).append (walkExpr_covers cx e)
  | .reflect byName types operands => by
    rw [walkExpr, sitesExpr]
    cases byName with
    | true => exact (covers_names cx types).append (walkExprs_covers cx operands)
    | false => exact (covers_nil.append (walkExprs_covers cx operands))
  | .typedModuleCall _ _ ty args => (covers_native cx ty).append (walkExprs_covers cx args)
  | .typedCall name typeArgs args =>
    (covers_turbofish cx name typeArgs).append (walkExprs_covers cx args)
  | .typedMethodCall recv _ _ args => by
    rw [walkExpr, sitesExpr, List.append_assoc]
    exact ((walkExpr_covers cx recv).append (walkExprs_covers cx args)).right
  | .instantiatedType recv _ => walkExpr_covers cx recv
  | .tierExpr holes => walkExprs_covers cx holes

theorem walkExprs_covers (cx : WalkCx) : ∀ es : List Expr,
    Covers cx.tables offers (walkExprs cx es) (sitesExprs cx.params es)
  | [] => covers_nil
  | e :: es => (walkExpr_covers cx e).append (walkExprs_covers cx es)

theorem walkBody_covers (cx : WalkCx) : ∀ body : Body,
    Covers cx.tables offers (walkBody cx body) (sitesBody cx.params body)
  | .expr e => walkExpr_covers cx e
  | .block stmts => walkStmts_covers cx stmts

theorem walkArms_covers (cx : WalkCx) : ∀ arms : List Arm,
    Covers cx.tables offers (walkArms cx arms) (sitesArms cx.params arms)
  | [] => covers_nil
  | .mk none body :: arms => (walkBody_covers cx body).append (walkArms_covers cx arms)
  | .mk (some _) body :: arms => by
    rw [walkArms, sitesArms, List.append_assoc]
    exact covers_hide ((walkBody_covers cx body).append (walkArms_covers cx arms))

theorem walkFields_covers (cx : WalkCx) : ∀ fields : List FieldInit,
    Covers cx.tables offers (walkFields cx fields) (sitesFields cx.params fields)
  | [] => covers_nil
  | .mk _ value :: fields => (walkExpr_covers cx value).append (walkFields_covers cx fields)

end

end Walk

/-! ### Completeness -/

/-- Every site of a candidate has its slots, unless the candidate or a function it names was reported,
and no template stands twice in a list. -/
structure SlotsComplete (tables : Tables) (cs : List Candidate) (map : ForwardingMap)
    (poisoned : List String) : Prop where
  complete : ∀ c ∈ cs, c.key ∉ poisoned → (∀ callee ∈ c.named, callee ∉ poisoned) →
    ∀ p ∈ c.places, ∀ t recipe, Demands tables (Table map) p.scope p.site t recipe →
      Table map c.key t recipe
  nodup : ∀ key, ((map key).map ForwardSlot.template).Nodup

/-- What a hidden site needs is needed by something in the open as well. -/
def HiddenElsewhere (tables : Tables) (cs : List Candidate) : Prop :=
  ∀ c ∈ cs, ¬ Diverges tables cs c.key → (∀ callee ∈ c.named, ¬ Diverges tables cs callee) →
    ∀ p ∈ c.places, p.hidden = true → ∀ t recipe,
      Demands tables (Needed tables cs) p.scope p.site t recipe → Needed tables cs c.key t recipe

theorem table_of_open {tables : Tables} {map : ForwardingMap} {poisoned : List String}
    {c : Candidate} (hstable : Stable tables map poisoned c) (hkey : c.key ∉ poisoned) {p : Place}
    (hp : p ∈ c.places) (hopen : p.hidden = false) {t : Ty} {recipe : Bool}
    (hd : Demands tables (Table map) p.scope p.site t recipe) : Table map c.key t recipe := by
  obtain ⟨mark, hmark, hasks⟩ :=
    walkStmts_covers ⟨tables, c.own, c.decl.ret⟩ c.decl.body p hp hopen t recipe hd
  have hdepth : typeDepth t ≤ maxTemplateDepth := by
    by_contra hdeep
    refine hkey (hstable.2 ((overflow_collect map c).2 ⟨mark, hmark, t, recipe, hasks, ?_⟩))
    omega
  exact offers_of_stable hstable ((offers_collect map c t recipe).2 ⟨hdepth, mark, hmark, hasks⟩)

theorem slotsComplete_iff_of_settled {tables : Tables} {cs : List Candidate} {map : ForwardingMap}
    {poisoned : List String} (hsound : Sound tables cs map poisoned)
    (hstable : ∀ c ∈ cs, Stable tables map poisoned c) :
    SlotsComplete tables cs map poisoned ↔ HiddenElsewhere tables cs := by
  have htable : ∀ key t recipe, Table map key t recipe ↔ Needed tables cs key t recipe :=
    table_iff_needed hsound hstable
  have hpoisoned : ∀ key, key ∈ poisoned ↔ Diverges tables cs key :=
    mem_poisoned_iff hsound hstable
  constructor
  · intro h c hc hkey hnamed p hp _ t recipe hd
    rw [← htable]
    refine h.complete c hc (fun hmem => hkey ((hpoisoned _).1 hmem))
      (fun callee hcallee hmem => hnamed callee hcallee ((hpoisoned _).1 hmem)) p hp t recipe ?_
    exact hd.imp fun key t recipe => (htable key t recipe).2
  · intro h
    refine ⟨fun c hc hkey hnamed p hp t recipe hd => ?_, hsound.nodup⟩
    cases hidden : p.hidden with
    | false => exact table_of_open (hstable c hc) hkey hp hidden hd
    | true =>
      rw [htable]
      refine h c hc (fun hdiv => hkey ((hpoisoned _).2 hdiv))
        (fun callee hcallee hdiv => hnamed callee hcallee ((hpoisoned _).2 hdiv)) p hp hidden t
        recipe ?_
      exact hd.imp fun key t recipe => (htable key t recipe).1

theorem settled_of_computeForwarding {program : Program} {xt fresh : List (String × String)}
    {fuel : Nat} {r : Forwarding} (h : computeForwarding program xt fresh fuel = some r) :
    Sound (tablesOf program xt fresh) (candidates program) r.map r.poisoned ∧
      ∀ c ∈ candidates program, Stable (tablesOf program xt fresh) r.map r.poisoned c := by
  obtain ⟨⟨map, poisoned⟩, hsettle, rfl⟩ := Option.map_eq_some_iff.1 h
  exact settle_spec fuel sound_init hsettle

/-- Where the loop returns, its table is complete if and only if what every site in a guard or a
default value needs a slot for is needed in the open as well. -/
theorem slotsComplete_iff (program : Program) (xt fresh : List (String × String)) (fuel : Nat)
    (r : Forwarding) (h : computeForwarding program xt fresh fuel = some r) :
    SlotsComplete (tablesOf program xt fresh) (candidates program) r.map r.poisoned ↔
      HiddenElsewhere (tablesOf program xt fresh) (candidates program) :=
  slotsComplete_iff_of_settled (settled_of_computeForwarding h).1 (settled_of_computeForwarding h).2

/-- `fn load<T>(s: string): List<T> { return json.parse::<List<T>>(s); }` -/
def loadProgram : Program :=
  [.fn (.mk "load" [⟨"T", 0⟩] [some (.named "string" [])] []
    (some (.named "List" [.named "T" []])) false false
    [.ret (some (.typedModuleCall "json" "parse" (.named "List" [.named "T" []]) [.ident "s"]))])]

theorem loadProgram_returns : (computeForwarding loadProgram [] [] 2).isSome = true := by
  decide

theorem slotsComplete_iff_load : ∃ r, computeForwarding loadProgram [] [] 2 = some r ∧
    (SlotsComplete (tablesOf loadProgram [] []) (candidates loadProgram) r.map r.poisoned ↔
      HiddenElsewhere (tablesOf loadProgram [] []) (candidates loadProgram)) := by
  obtain ⟨r, hr⟩ := Option.isSome_iff_exists.1 loadProgram_returns
  exact ⟨r, hr, slotsComplete_iff loadProgram [] [] 2 r hr⟩

/-- `fn pick<T>(x: dyn) { match x { y if type_name::<T>() == "Todo" => 1, _ => 0 }; }` -/
def pickProgram : Program :=
  [.fn (.mk "pick" [⟨"T", 0⟩] [some (.named "dyn" [])] [] none false false
    [.expr (.matchOn (.ident "x")
      [.mk (some (.node .binary [.reflect true [.named "T" []] [], .leaf])) (.expr .leaf),
        .mk none (.expr .leaf)])])]

theorem pickProgram_returns :
    (computeForwarding pickProgram [] [] 1).map (fun r => (r.map "pick", r.poisoned)) =
      some ([], []) := by
  decide

/-- The query in the guard has no slot. -/
theorem pickProgram_incomplete : ∃ r, computeForwarding pickProgram [] [] 1 = some r ∧
    ¬ SlotsComplete (tablesOf pickProgram [] []) (candidates pickProgram) r.map r.poisoned := by
  obtain ⟨r, hr, heq⟩ := Option.map_eq_some_iff.1 pickProgram_returns
  obtain ⟨hmap, hpoisoned⟩ := Prod.mk.inj heq
  refine ⟨r, hr, fun hcomplete => ?_⟩
  have hslot := hcomplete.complete _ List.mem_cons_self (by rw [hpoisoned]; exact List.not_mem_nil)
    (by rw [hpoisoned]; exact fun _ _ => List.not_mem_nil) _ List.mem_cons_self (.param 0) false
    ⟨rfl, ⟨0, List.mem_singleton.2 rfl, rfl⟩, rfl⟩
  obtain ⟨slot, hmem, -⟩ := hslot
  have hempty : r.map "pick" = [] := hmap
  rw [show (Candidate.key _) = "pick" from rfl, hempty] at hmem
  cases hmem

end Noeta.Check
