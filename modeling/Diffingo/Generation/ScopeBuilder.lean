import Diffingo.Library.Traversal
import Diffingo.Spec.ScopeHeap

/-!
# The passes that fill the scopes

`ScopeBuilder` enters the declarations of a module into its scope, `IdResolver` then puts what the
declared names stand for in the place of types, fields and expressions, and `UnitScopeBuilder` gives
the declared units and their items their scopes. The syntax tree is a store of cells, as for the
resolver alone, but here the nodes keep their names and own scopes in memory: the scope of a node is
the one that a pass has written last, or else the empty one that the node was created with.

Both builders act on declarations only, and these hang on nothing but the module, so that going over
the tree is going over the declarations. Names of lambda variables are not among the names here.
-/

namespace Diffingo.Names

open Traversal

/-- `expression::ParserState::Kind`, as far as the builder uses it. -/
inductive StateKind
  | self
  | parameter
  | dollarDollar
  deriving DecidableEq

/-- The type of a parser state: that of a cell, the type of byte strings, or an unknown one. -/
inductive StateType
  | cell (c : Nat)
  | bytes
  | unknown
  deriving DecidableEq

inductive Node
  | module (id : String) (properties : Nat) (declarations : List Nat)
  | typeDecl (id : Path) (type : Nat)
  | constantDecl (id : Path) (value : Nat)
  | functionDecl (id : Path) (function : Nat)
  | transformDecl (id : Path) (transform : Nat)
  | instantiation (unitId : Path) (children : List Nat)
  | unit (params : List (String × Nat)) (items : List Nat)
  | labelled (labels : List String)
  | unknownType (id : Option Path)
  | listType (elementType : Nat)
  | regExp
  | type (children : List Nat)
  | item (id : String) (type parent : Option Nat) (cases : List (List Nat)) (children : List Nat)
  | unknownField (id : String) (parent : Option Nat) (referencedId : Path)
      (attributes params sinks : List Nat)
  | id (path : Path)
  | typeExpr (containedType : Nat)
  | ctorExpr (ctor : Nat)
  | constantExpr (constant : Nat)
  | labelExpr (type : Nat) (label : String)
  | functionExpr (function : Nat)
  | transformExpr (transform : Nat)
  | parserState (kind : StateKind) (id : Option String) (unit : Nat) (type : StateType)
  | constant (type : Nat) (children : List Nat)
  | expression (children : List Nat)
  | other (children : List Nat)
  deriving DecidableEq

namespace Node

def children : Node → List Nat
  | module _ p ds => p :: ds
  | typeDecl _ c | constantDecl _ c | functionDecl _ c | transformDecl _ c => [c]
  | unit ps is => ps.map Prod.snd ++ is
  | item _ t _ cases cs => t.toList ++ cs ++ cases.flatten
  | unknownField _ _ _ attributes params sinks => attributes ++ params ++ sinks
  | listType c | typeExpr c | ctorExpr c | constantExpr c | labelExpr c _ => [c]
  | functionExpr c | transformExpr c => [c]
  | parserState _ _ u (.cell t) => [u, t]
  | parserState _ _ u _ => [u]
  | constant t cs => t :: cs
  | instantiation _ cs | type cs | expression cs | other cs => cs
  | labelled _ | unknownType _ | regExp | id _ => []

/-- The scope that a node is created with. -/
def created : Node → ScopeData
  | item _ _ parent _ _ | unknownField _ parent _ _ _ _ => { parent }
  | _ => {}

/-- `Switch::cases`, by the items of the cases. -/
def cases : Node → List (List Nat)
  | item _ _ _ cases _ => cases
  | _ => []

/-- `Item::id`. -/
def itemId : Node → String
  | item name _ _ _ _ | unknownField name _ _ _ _ _ => name
  | _ => ""

/-- `Item::type`; it is null for a property, a switch and a field that is not resolved. -/
def itemType : Node → Option Nat
  | item _ t _ _ _ => t
  | _ => none

/-- Items and units have scopes of their own. -/
def hasScope : Node → Bool
  | item _ _ _ _ _ | unknownField _ _ _ _ _ _ | unit _ _ => true
  | _ => false

/-- `Declaration::id`, for the declarations that a scope takes up. -/
def declaredId : Node → Option Path
  | typeDecl path _ | constantDecl path _ | functionDecl path _ | transformDecl path _ => some path
  | _ => none

/-- `declaration::Type::type`. -/
def declaredType : Node → Option Nat
  | typeDecl _ t => some t
  | _ => none

def isUnknownField : Node → Bool
  | unknownField _ _ _ _ _ _ => true
  | _ => false

/-- What the resolver has a visit for that redirects the cell. -/
def isUnresolved : Node → Bool
  | id _ | unknownType _ | unknownField _ _ _ _ _ _ => true
  | _ => false

end Node

/-- The tree and the scopes that passes have written. -/
structure World where
  store : Store Node
  written : Nat → Option ScopeData

/-- The scopes of the nodes of a tree. -/
def scopesOf (written : Nat → Option ScopeData) (s : Store Node) : Scopes :=
  fun a => (written a).getD (s.nodes a).created

namespace World

def scopes (w : World) : Scopes := scopesOf w.written w.store

/-- Changes a scope. -/
def modify (w : World) (a : Nat) (f : ScopeData → ScopeData) : World :=
  { w with written := Function.update w.written a (some (f (w.scopes a))) }

/-- Enters a new expression into a scope. -/
def insertNew (w : World) (a : Nat) (name : String) (n : Node) : World :=
  { w with store := w.store.alloc n }.modify a (·.insert name w.store.size)

/-- The scope of an enumeration or a bit set, which gets its labels when it is first asked for. -/
def typeScope (w : World) (t : Nat) (labels : List String) : World :=
  let a := w.store.pointee t
  if (w.written a).isSome then w
  else labels.foldl (fun w label => w.insertNew a label (.labelExpr t label)) w

end World

/-! ## `ScopeBuilder` -/

/-- `ScopeBuilder::visit` of a declaration in the module `r`. -/
def ScopeBuilder.visit (r : Nat) (w : World) (d : Nat) : World :=
  match w.store.node d with
  | .typeDecl id t =>
    let w := w.insertNew r id.pathAsString (.typeExpr t)
    match w.store.node t with
    | .labelled labels =>
      ((w.typeScope t labels).modify (w.store.pointee t) (·.setParent r)).modify r
        (·.addChild id.pathAsString (w.store.pointee t))
    | _ => w
  | .constantDecl id v => w.modify r (·.insert id.pathAsString v)
  | .functionDecl id f => w.insertNew r id.pathAsString (.functionExpr f)
  | .transformDecl id t => w.insertNew r id.pathAsString (.transformExpr t)
  | _ => w

def ScopeBuilder.run (r : Nat) (declarations : List Nat) (w : World) : World :=
  declarations.foldl (ScopeBuilder.visit r) w

/-! ## `UnitScopeBuilder` -/

/-- `_flatten`: the items of the cases stand before their switch. -/
def flatten (s : Store Node) : Nat → Nat → Option (List Nat)
  | 0, _ => none
  | fuel + 1, i => do
    let nested ← (s.node i).cases.flatten.mapM (flatten s fuel)
    return nested.flatten ++ [i]

/-- `Unit::flattenedItems`. -/
def flattenedItems (s : Store Node) (fuel : Nat) (items : List Nat) : Option (List Nat) := do
  let nested ← items.mapM (flatten s fuel)
  return nested.flatten

namespace UnitScopeBuilder

/-- The type of `$$`. -/
def dollarType (s : Store Node) (i : Nat) : StateType :=
  match (s.node i).itemType with
  | none => .unknown
  | some t => if s.node t = .regExp then .bytes else .cell t

/-- The part of the visit for one item. -/
def addItem (u t : Nat) (w : World) (i : Nat) : World :=
  let a := w.store.pointee i
  ((w.modify a (·.setParent u)).modify u
      (·.addChild ("__item_" ++ (w.store.node i).itemId) a)).insertNew a "$$"
    (.parserState .dollarDollar none t (dollarType w.store i))

def addParam (u t : Nat) (w : World) (p : String × Nat) : World :=
  w.insertNew u p.1 (.parserState .parameter (some p.1) t (.cell p.2))

/-- `UnitScopeBuilder::visit` of a declaration in the module `r`. -/
def visit (fuel r : Nat) (w : World) (d : Nat) : Option World :=
  match (w.store.node d).declaredType with
  | none => some w
  | some t =>
    match w.store.node t with
    | .unit params items => do
      let u := w.store.pointee t
      let w := (w.insertNew u "self" (.parserState .self none t (.cell t))).modify u (·.setParent r)
      let w := params.foldl (addParam u t) w
      let is ← flattenedItems w.store fuel items
      return is.foldl (addItem u t) w
    | _ => some w

def run (fuel r : Nat) (declarations : List Nat) (w : World) : Option World :=
  declarations.foldlM (visit fuel r) w

end UnitScopeBuilder

/-! ## `IdResolver` -/

namespace IdResolver

abbrev State := Walk Node

def setStore (w : State) (s : Store Node) : State := { w with store := s }

variable (written : Nat → Option ScopeData)

/-- `current<ast::Module>()`, by its name and its node. -/
def currentModule (s : Store Node) (nodes : List Nat) : Option (String × Nat) :=
  nodes.findSome? fun c =>
    match s.node c with
    | .module id _ _ => some (id, s.pointee c)
    | _ => none

def moduleValues (fuel : Nat) (s : Store Node) (nodes : List Nat) (path : Path) :
    Option (List Nat) := do
  let m ← currentModule s nodes
  (scopesOf written s).lookup fuel m.2 path

/-- What the scope of the nearest item or unit, or else of the module, holds for a name. A name that
is not found and starts with the name of the module is looked up without it. -/
def values (fuel : Nat) (s : Store Node) (nodes : List Nat) (path : Path) :
    Option (List Nat) := do
  let m ← currentModule s nodes
  let nearest := nodes.findSome? fun c => if (s.node c).hasScope then some (s.pointee c) else none
  let vals ← (scopesOf written s).lookup fuel (nearest.getD m.2) path
  if vals.isEmpty && path.isScoped && path.head? == some m.1 then
    (scopesOf written s).lookup fuel (nearest.getD m.2) path.tail
  else some vals

/-- Goes on with the one value. No value is an error only if unresolved names are reported. -/
def withValue (report : Bool) (unknown ambiguous : String) (vals : List Nat) (w : State)
    (visit : Nat → Option State) : Option State :=
  match vals with
  | [] => some (if report then w.log unknown else w)
  | [v] => visit v
  | _ => some (w.log ambiguous)

def visitId (fuel : Nat) (report : Bool) (nodes : List Nat) (c : Nat) (path : Path) (w : State) :
    Option State := do
  let vals ← values written fuel w.store nodes path
  withValue report s!"unknown ID {path.pathAsString}"
    s!"ID {path.pathAsString} defined more than once" vals w
    fun v => some (setStore w (w.store.replace c v))

def visitUnknownType (fuel : Nat) (report : Bool) (nodes : List Nat) (c : Nat) (path : Path)
    (w : State) : Option State := do
  let vals ← moduleValues written fuel w.store nodes path
  withValue report s!"unknown type ID {path.pathAsString}"
    s!"ID {path.pathAsString} defined more than once" vals w fun v =>
      match w.store.node v with
      | .typeExpr t => some (setStore w (w.store.replace c t))
      | _ => some (w.log s!"ID {path.pathAsString} does not reference a type")

def visitInstantiation (fuel : Nat) (report : Bool) (nodes : List Nat) (path : Path) (w : State) :
    Option State := do
  let vals ← moduleValues written fuel w.store nodes path
  withValue report s!"unknown type ID {path.pathAsString}"
    s!"ID {path.pathAsString} defined more than once" vals w fun v =>
      match w.store.node v with
      | .typeExpr t =>
        match w.store.node t with
        | .unit _ _ => some w
        | _ => some (w.log s!"ID {path.pathAsString} does not reference a unit")
      | _ => some (w.log s!"ID {path.pathAsString} does not reference a type")

/-- `Field::createByType`. The new field is the first new node; the scope of the field contained in
a list has that of the list as its parent. The number in the name of a contained field is left out. -/
def createByType : Nat → Store Node → Nat → String → Option Nat → List Nat → List Nat → List Nat →
    Option (Store Node)
  | 0, _, _, _, _, _, _, _ => none
  | fuel + 1, s, type, id, parent, attributes, params, sinks =>
    match s.node type with
    | .unit _ _ =>
      some (s.alloc (.item id (some type) parent [] (attributes ++ params ++ sinks)))
    | .listType element =>
      let list := .item id (some (s.size + 1)) parent [] (attributes ++ sinks ++ [s.size + 2])
      createByType fuel ((s.alloc list).alloc (.type [])) element "__anon" (some s.size) [] [] []
    | _ => some (s.alloc (.item id (some type) parent [] (attributes ++ sinks)))

/-- The field that takes the place of one with a name for its type; the first new node. -/
def newField (fuel : Nat) (s : Store Node) (v : Nat) (id : String) (parent : Option Nat)
    (attributes params sinks : List Nat) : Option (Option (Store Node)) :=
  match s.node v with
  | .ctorExpr ctor =>
    let field := .item id (some (s.size + 1)) parent [] (attributes ++ sinks ++ [ctor])
    some (some ((s.alloc field).alloc (.type [])))
  | .constantExpr k =>
    match s.node k with
    | .constant type _ =>
      some (some (s.alloc (.item id (some type) parent [] (attributes ++ sinks ++ [k]))))
    | _ => none
  | .labelExpr type _ =>
    some (some (s.alloc (.item id (some type) parent [] (attributes ++ sinks ++ [v]))))
  | .typeExpr t => (createByType fuel s t id parent attributes params sinks).map some
  | _ => some none

def visitUnknownField (fuel : Nat) (report : Bool) (nodes : List Nat) (c : Nat) (id : String)
    (parent : Option Nat) (path : Path) (attributes params sinks : List Nat) (w : State) :
    Option State := do
  let vals ← moduleValues written fuel w.store nodes path
  withValue report s!"unknown field ID {path.pathAsString}"
    s!"ID {path.pathAsString} references more than one object" vals w fun v => do
      match ← newField fuel w.store v id parent attributes params sinks with
      | some s => some (setStore w (s.replace c w.store.size))
      | none => some (w.log s!"ID {path.pathAsString} references unexpected type of expression")

def visit (fuel : Nat) (report : Bool) (current : List Nat) (c : Nat) (w : State) : Option State :=
  match w.store.node c with
  | .id path => visitId written fuel report (c :: current) c path w
  | .unknownType (some path) => visitUnknownType written fuel report (c :: current) c path w
  | .instantiation path _ => visitInstantiation written fuel report (c :: current) path w
  | .unknownField id parent path attributes params sinks =>
    visitUnknownField written fuel report (c :: current) c id parent path attributes params sinks w
  | _ => some w

/-- `IdResolver::run`. The pass succeeds if it logs no error. -/
def run (lookup : Lookup Node) (fuel : Nat) (report : Bool) (r : Nat) (w : World) : Option State :=
  preOrder Node.children lookup (visit w.written fuel report) fuel [] r ⟨w.store, [], []⟩

end IdResolver

end Diffingo.Names
