import Noeta.Lib.Overwrite
import Mathlib.Data.List.Dedup
import Mathlib.Data.String.Basic

/-!
# The hot-swap differ

`noeta-compiler/src/hotswap.rs`: `diff_programs` compares two parsed versions of a program and
answers that nothing changed, that a fragment of the new version can be registered in the running
session, or that only a restart will do.

The differ reads the parsed declarations together with the slices of source text their spans cover.
Up to spans, what the parser makes of a slice is a function of the slice, so a declaration is here the
text of its span, and `Frontend` says what that text parses to. What the syntax attaches to a
declaration from outside its span (the decorators of a type, the `@tier` of a runner) is a field
beside the text. Tier blocks are left out.
-/

namespace Noeta.Hotswap

open Noeta.Lib

/-! ## Declarations -/

/-- `FnDecl` up to spans. The parts that the differ compares by their source text are that text. -/
structure FnDecl where
  name : String
  isPublic : Bool
  isAsync : Bool
  isStatic : Bool
  typeParams : List String
  params : List String
  ret : Option { text : String // text ≠ "" }
  attrs : List String
  directives : List String
  tier : Option String
  captures : List String
  /-- The decorators of the body's first statement, which lie before that statement's span. -/
  lead : List String
  /-- From the start of the first statement's span to the end of the last one's. -/
  body : String
deriving DecidableEq

/-- A function or method as the differ meets it. -/
structure FnItem where
  text : String
  tier : Option String := none
deriving DecidableEq

/-- A method of a type declaration, with its span inside the declaration's text. `conversion` is the
counterpart named by the `From` or `To` block around it. -/
structure Method where
  start : Nat
  stop : Nat
  text : String
  conversion : Option String
deriving DecidableEq

structure Token where
  start : Nat
  text : String
deriving DecidableEq

/-- The header of an in-body `impl` block. -/
structure ImplBlock where
  traitName : String
  traitArgs : List String
deriving DecidableEq

/-- A `struct`, `class` or `enum` from its keyword to its closing brace. The parser has already copied
the methods of the in-body `impl` blocks into `methods`. -/
structure TypeBody where
  name : String
  tokens : List Token
  methods : List Method
  impls : List ImplBlock
deriving DecidableEq

/-- One argument of `@derive(…)`. -/
structure DeriveSpec where
  name : String
  args : List String
  via : Option String
deriving DecidableEq

/-- A type declaration: `span` starts at the keyword, so the derives stand beside the text. -/
structure TypeDecl where
  text : String
  derives : List DeriveSpec
deriving DecidableEq

structure TraitMethod where
  sig : FnDecl
  hasDefault : Bool
deriving DecidableEq

structure TraitDecl where
  name : String
  methods : List TraitMethod
deriving DecidableEq

/-- A body in a method table with the key it goes under: its name, and for a conversion the
counterpart it converts. -/
structure Entry where
  decl : FnDecl
  conversion : Option String
deriving DecidableEq

/-- `table_key`. -/
abbrev Key := String × Option String

def Entry.key (e : Entry) : Key := (e.decl.name, e.conversion)

/-- A standalone `impl Trait for Target`. -/
structure ImplDecl where
  traitName : String
  traitArgs : List String
  target : String
  methods : List Entry
deriving DecidableEq

/-- What the parser makes of the text of a declaration's span, and the two functions of
`noeta-ast/src/derive.rs` that hoisting calls. A plan that fails contributes nothing. -/
structure Frontend where
  fn : String → FnDecl
  typeDecl : String → TypeBody
  traitDecl : String → TraitDecl
  implDecl : String → ImplDecl
  /-- `instantiate_trait`: the trait's methods at the arguments, or the arity error. -/
  instantiateTrait : TraitDecl → List String → Option (List TraitMethod)
  /-- `plan_derive` for the user trait of that name, a spec and the text of the deriving type. -/
  planDerive : Option TraitDecl → DeriveSpec → String → List FnDecl

inductive Stmt
  | fnDecl (item : FnItem)
  | typeDecl (decl : TypeDecl)
  | traitDecl (text : String)
  | implDecl (text : String)
  | useDecl (text : String)
  | namespaceDecl (text : String)
  /-- Any other statement; `anchor` is `reactive_anchor_name`. -/
  | other (text : String) (anchor : Option String)
deriving DecidableEq

variable (F : Frontend)

def Frontend.fnDecl (item : FnItem) : FnDecl := { F.fn item.text with tier := item.tier }

def Frontend.method (m : Method) : Entry :=
  { decl := F.fnDecl { text := m.text }, conversion := m.conversion }

/-! ## Buckets -/

/-- `Items`. A map filled by `insert` is the list of its insertions, read with `lastAt`. -/
structure Items where
  fns : List (String × FnItem)
  types : List (String × TypeDecl)
  impls : List (String × String)
  uses : List String
  namespaces : List String
  others : List String
  decls : List String

def Stmt.fnRow : Stmt → Option (String × FnItem)
  | .fnDecl item => some ((F.fnDecl item).name, item)
  | _ => none

def Stmt.typeRow : Stmt → Option (String × TypeDecl)
  | .typeDecl decl => some ((F.typeDecl decl.text).name, decl)
  | _ => none

/-- The trait, and the target with the whole text. -/
def Stmt.implRow : Stmt → Option (String × String)
  | .implDecl text =>
    some ((F.implDecl text).traitName, (F.implDecl text).target ++ " :: " ++ text)
  | _ => none

def Stmt.useText : Stmt → Option String
  | .useDecl text => some text
  | _ => none

def Stmt.namespaceText : Stmt → Option String
  | .namespaceDecl text => some text
  | _ => none

def Stmt.otherText : Stmt → Option String
  | .traitDecl text => some text
  | .other text _ => some text
  | _ => none

def Stmt.declName : Stmt → Option String
  | .fnDecl item => some (F.fnDecl item).name
  | .typeDecl decl => some (F.typeDecl decl.text).name
  | .implDecl text => some (F.implDecl text).target
  | _ => none

def classify (stmts : List Stmt) : Items where
  fns := stmts.filterMap (Stmt.fnRow F)
  types := stmts.filterMap (Stmt.typeRow F)
  impls := stmts.filterMap (Stmt.implRow F)
  uses := stmts.filterMap Stmt.useText
  namespaces := stmts.filterMap Stmt.namespaceText
  others := stmts.filterMap Stmt.otherText
  decls := stmts.filterMap (Stmt.declName F)

/-! ## Functions -/

inductive FnChange
  | unchanged
  | bodyChanged
  | signatureChanged
deriving DecidableEq

/-- `fn_signature`. -/
def FnDecl.signature (decl : FnDecl) : List String :=
  [decl.name, toString decl.isPublic, toString decl.isAsync] ++ decl.typeParams ++ decl.params ++
    [decl.ret.elim "" Subtype.val] ++ decl.attrs

def compareFn (old new : FnItem) : FnChange :=
  if old.text = new.text then .unchanged
  else if (F.fnDecl old).signature ≠ (F.fnDecl new).signature then .signatureChanged
  else if (F.fnDecl old).body ≠ (F.fnDecl new).body then .bodyChanged
  else .unchanged

/-! ## Types -/

inductive SwapBlocker
  | signatureChanged (name : String)
  | layoutChanged (typeName : String)
  | typeRemoved (typeName : String)
  | implChanged (traitName target : String)
  | namespaceChanged
deriving DecidableEq

/-- `residual_fingerprint`: the tokens that do not start inside a method. -/
def TypeBody.residualFingerprint (body : TypeBody) : List String :=
  let cuts := body.methods.filter fun m => m.start < m.stop
  (body.tokens.filter fun t =>
    !cuts.any fun m => decide (m.start ≤ t.start) && decide (t.start < m.stop)).map Token.text

/-- What `diff_type` adds to the differ's lists, and whether it includes the type. -/
structure TypeDiff where
  blockers : List SwapBlocker := []
  changed : List String := []
  added : List String := []
  removed : List String := []
  included : Bool := false

/-- A type's methods by name. -/
def Frontend.methodsByName (decl : TypeDecl) : List (String × Method) :=
  (F.typeDecl decl.text).methods.map fun m => ((F.method m).decl.name, m)

/-- What the loop of `diff_type` finds about one method of the new version: `none` when the old version
has no method of that name. -/
def methodChange (old : TypeDecl) (m : Method) : Option FnChange :=
  (lastAt (F.method m).decl.name (F.methodsByName old)).map fun m' =>
    compareFn F { text := m'.text } { text := m.text }

/-- The qualified names of the new version's methods about which the loop finds `change`. -/
def methodsWith (change : Option FnChange) (name : String) (old new : TypeDecl) : List String :=
  ((F.typeDecl new.text).methods.filter fun m => methodChange F old m = change).map fun m =>
    name ++ "." ++ (F.method m).decl.name

def methodsRemoved (name : String) (old new : TypeDecl) : List String :=
  (((F.methodsByName old).map Prod.fst).dedup.filter fun n =>
    n ∉ (F.methodsByName new).map Prod.fst).map fun n => name ++ "." ++ n

def diffType (name : String) (old new : TypeDecl) : TypeDiff :=
  if old.text = new.text then {}
  else if (F.typeDecl old.text).residualFingerprint ≠ (F.typeDecl new.text).residualFingerprint then
    { blockers := [.layoutChanged name] }
  else
    let changed := methodsWith F (some .bodyChanged) name old new
    let added := methodsWith F none name old new
    let removed := methodsRemoved F name old new
    { blockers := (methodsWith F (some .signatureChanged) name old new).map .signatureChanged
      changed, added, removed
      included := !(changed.isEmpty && added.isEmpty && removed.isEmpty) }

/-! ## Programs -/

/-- The declarations both versions have were reordered, or a new one stands before an old one. -/
def declarationRegionMoved (old new : List String) : Bool :=
  decide (old.filter (· ∈ new) ≠ new.filter (· ∈ old)) ||
    (new.reverse.dropWhile (· ∉ old)).any (· ∉ old)

structure SwapPlan where
  fragment : List Stmt
  changed : List String
  added : List String
  removed : List String
  rerunTopLevel : Bool
  declarationsReordered : Bool
  preserved : List String
deriving DecidableEq

inductive SwapDiff
  | unchanged
  | swap (plan : SwapPlan)
  | needsRestart (blockers : List SwapBlocker)
deriving DecidableEq

/-- The free functions of the new version by what `compare_fn` says; `none` for an added one. -/
def fnsWith (change : Option FnChange) (old new : Items) : List String :=
  ((entries new.fns).filter fun e =>
    (lastAt e.1 old.fns).map (fun f => compareFn F f e.2) = change).map Prod.fst

def fnsRemoved (old new : Items) : List String :=
  (old.fns.map Prod.fst).dedup.filter fun n => n ∉ new.fns.map Prod.fst

/-- The types of both versions, each with its `diff_type`. -/
def typeDiffs (old new : Items) : List (String × TypeDiff) :=
  (entries new.types).filterMap fun e =>
    (lastAt e.1 old.types).map fun d => (e.1, diffType F e.1 d e.2)

def typesAdded (old new : Items) : List String :=
  ((entries new.types).filter fun e => (lastAt e.1 old.types).isNone).map Prod.fst

def typesRemoved (old new : Items) : List String :=
  (old.types.map Prod.fst).dedup.filter fun n => n ∉ new.types.map Prod.fst

def implBlockers (old new : Items) : List SwapBlocker :=
  ((new.impls.filter (· ∉ old.impls)) ++ (old.impls.filter (· ∉ new.impls))).map fun key =>
    .implChanged key.1 key.2

/-- The blockers, in the order the differ finds them; it reports them sorted. -/
def blockers (old new : Items) : List SwapBlocker :=
  (if old.namespaces ≠ new.namespaces then [.namespaceChanged] else []) ++
    (fnsWith F (some .signatureChanged) old new).map .signatureChanged ++
    (typeDiffs F old new).flatMap (fun e => e.2.blockers) ++
    (typesRemoved old new).map .typeRemoved ++ implBlockers old new

/-- `include`, with the whole region when it moved. -/
def included (old new : Items) : List String :=
  fnsWith F none old new ++ fnsWith F (some .bodyChanged) old new ++ typesAdded old new ++
    ((typeDiffs F old new).filter fun e => e.2.included).map Prod.fst ++
    if declarationRegionMoved old.decls new.decls then new.decls else []

/-- Whether a top-level statement of the new version is an anchor that a re-run withholds. -/
def withheld (old : Items) (text : String) (anchor : Option String) : Bool :=
  anchor.isSome && decide (text ∈ old.others)

/-- The filter that assembles the fragment. -/
def inFragment (old new : Items) : Stmt → Bool
  | .fnDecl item => decide ((F.fnDecl item).name ∈ included F old new)
  | .typeDecl decl => decide ((F.typeDecl decl.text).name ∈ included F old new)
  | .traitDecl text => decide (old.others ≠ new.others) && !withheld old text none
  | .implDecl _ => declarationRegionMoved old.decls new.decls
  | .useDecl text => decide (text ∉ old.uses)
  | .namespaceDecl _ => false
  | .other text anchor => decide (old.others ≠ new.others) && !withheld old text anchor

def preservedAnchor (old new : Items) : Stmt → Option String
  | .other text anchor =>
    if old.others ≠ new.others ∧ text ∈ old.others then anchor else none
  | _ => none

def sorted (names : List String) : List String := names.mergeSort fun a b => decide (a ≤ b)

def diffPrograms (old new : List Stmt) : SwapDiff :=
  let oldItems := classify F old
  let newItems := classify F new
  if blockers F oldItems newItems ≠ [] then .needsRestart (blockers F oldItems newItems).dedup
  else
    let fragment := new.filter (inFragment F oldItems newItems)
    let diffs := typeDiffs F oldItems newItems
    let removed := fnsRemoved oldItems newItems ++ diffs.flatMap fun e => e.2.removed
    let rerun := decide (oldItems.others ≠ newItems.others)
    if !rerun && fragment.isEmpty && removed.isEmpty then .unchanged
    else .swap
      { fragment
        changed := sorted (fnsWith F (some .bodyChanged) oldItems newItems ++
          diffs.flatMap fun e => e.2.changed)
        added := sorted (fnsWith F none oldItems newItems ++ typesAdded oldItems newItems ++
          diffs.flatMap fun e => e.2.added)
        removed := sorted removed
        rerunTopLevel := rerun
        declarationsReordered := declarationRegionMoved oldItems.decls newItems.decls
        preserved := sorted (new.filterMap (preservedAnchor oldItems newItems)) }

/-- What the driver registers: the plan's fragment, nothing when nothing changed. -/
def SwapDiff.fragment? : SwapDiff → Option (List Stmt)
  | .unchanged => some []
  | .swap plan => some plan.fragment
  | .needsRestart _ => none

end Noeta.Hotswap
