import Diffingo.Library.Traversal
import Diffingo.Spec.Scope

/-!
# Resolving names

`IdResolver` goes over the syntax tree of a module and replaces every name by what the nearest scope
holds for it. The tree is a store of cells: a `node_ptr` is a cell that all its copies share, and
`replace` redirects it. Nodes are modelled with what the resolver reads of them and with their
children; `ast::ID` nodes and the placeholder types of names are leaves it passes over and are left
out. The condition of a field is held by the field, but is not one of its children.
-/

namespace Diffingo.IdResolver

open Traversal

inductive Node
  | module (name : String) (scope : Scope) (children : List Nat)
  | unit (scope : Scope) (children : List Nat)
  | item (scope : Scope) (condition : Option Nat) (children : List Nat)
  | unknownField (scope : Scope) (referencedId : Path) (condition : Option Nat)
      (attributes : Nat) (params sinks : List Nat)
  | attributeMap (attrs : List (String × Nat))
  | unknownType (id : Option Path)
  | listType (elementType : Nat)
  | type (children : List Nat)
  | id (path : Path)
  | typeExpr (containedType : Nat)
  | ctorExpr (ctor : Nat)
  | constantExpr (constant : Nat)
  | constant (type : Nat) (children : List Nat)
  | find (listExpr : Nat) (others : List Nat)
  | lambda (elemId : Path) (elemExpr : Nat)
  | expression (children : List Nat)
  | instantiation (unitId : Path) (children : List Nat)
  | other (children : List Nat)

/-- The classes of nodes that a cell is declared for. -/
inductive Kind
  | expression
  | type
  | item
  | other
  deriving DecidableEq

namespace Node

def children : Node → List Nat
  | module _ _ cs | unit _ cs | item _ _ cs | type cs | expression cs => cs
  | instantiation _ cs | other cs => cs
  | unknownField _ _ _ attributes params sinks => attributes :: params ++ sinks
  | attributeMap attrs => attrs.map Prod.snd
  | unknownType _ | id _ => []
  | listType c | typeExpr c | ctorExpr c | constantExpr c | lambda _ c => [c]
  | constant c cs | find c cs => c :: cs

def condition : Node → Option Nat
  | item _ condition _ | unknownField _ _ condition _ _ _ => condition
  | _ => none

/-- Everything a node leads to. -/
def links (n : Node) : List Nat := n.children ++ n.condition.toList

/-- The scope of a unit or of an item. -/
def scope : Node → Option Scope
  | item scope _ _ | unknownField scope _ _ _ _ _ | unit scope _ => some scope
  | _ => none

def isId : Node → Bool
  | id _ => true
  | _ => false

def isUnknownField : Node → Bool
  | unknownField _ _ _ _ _ _ => true
  | _ => false

def isUnknownType : Node → Bool
  | unknownType _ => true
  | _ => false

def kind : Node → Kind
  | id _ | typeExpr _ | ctorExpr _ | constantExpr _ | find _ _ | lambda _ _ | expression _ =>
    .expression
  | unknownType _ | listType _ | type _ | unit _ _ => .type
  | item _ _ _ | unknownField _ _ _ _ _ _ => .item
  | _ => .other

/-- `AttributeMap::attributes`, in the order of the keys. -/
def attributes : Node → List (String × Nat)
  | attributeMap attrs => attrs.mergeSort fun a b => a.1 ≤ b.1
  | _ => []

end Node

/-! ## The visits -/

abbrev State := Walk Node

def setStore (w : State) (s : Store Node) : State := { w with store := s }

/-- `current<ast::Module>()`, by its name and its scope. -/
def currentModule (s : Store Node) (nodes : List Nat) : Option (String × Scope) :=
  nodes.findSome? fun c =>
    match s.node c with
    | .module name scope _ => some (name, scope)
    | _ => none

def moduleValues (s : Store Node) (nodes : List Nat) (path : Path) : Option (List Nat) :=
  (currentModule s nodes).map fun m => m.2.lookup path

/-- What the scope of the nearest item or unit, or else of the module, holds for a name. A name that
is not found and starts with the name of the module is looked up without it. -/
def values (s : Store Node) (nodes : List Nat) (path : Path) : Option (List Nat) :=
  (currentModule s nodes).map fun m =>
    let scope := (nodes.findSome? fun c => (s.node c).scope).getD m.2
    let vals := scope.lookup path
    if vals.isEmpty && path.isScoped && path.head? == some m.1 then scope.lookup path.tail else vals

/-- Goes on with the one value. No value is an error only if unresolved names are reported. -/
def withValue (report : Bool) (unknown ambiguous : String) (vals : List Nat) (w : State)
    (visit : Nat → Option State) : Option State :=
  match vals with
  | [] => some (if report then w.log unknown else w)
  | [v] => visit v
  | _ => some (w.log ambiguous)

def visitId (report : Bool) (nodes : List Nat) (c : Nat) (path : Path) (w : State) :
    Option State := do
  let vals ← values w.store nodes path
  withValue report s!"unknown ID {path.pathAsString}"
    s!"ID {path.pathAsString} defined more than once" vals w
    fun v => some (setStore w (w.store.replace c v))

def visitUnknownType (report : Bool) (nodes : List Nat) (c : Nat) (path : Path) (w : State) :
    Option State := do
  let vals ← moduleValues w.store nodes path
  withValue report s!"unknown type ID {path.pathAsString}"
    s!"ID {path.pathAsString} defined more than once" vals w fun v =>
      match w.store.node v with
      | .typeExpr t => some (setStore w (w.store.replace c t))
      | _ => some (w.log s!"ID {path.pathAsString} does not reference a type")

/-- Checks the unit of an instantiation. The unit is recorded beside the tree. -/
def visitInstantiation (report : Bool) (nodes : List Nat) (path : Path) (w : State) :
    Option State := do
  let vals ← moduleValues w.store nodes path
  withValue report s!"unknown type ID {path.pathAsString}"
    s!"ID {path.pathAsString} defined more than once" vals w fun v =>
      match w.store.node v with
      | .typeExpr t =>
        match w.store.node t with
        | .unit _ _ => some w
        | _ => some (w.log s!"ID {path.pathAsString} does not reference a unit")
      | _ => some (w.log s!"ID {path.pathAsString} does not reference a type")

/-- A new field: its type, its own attribute map and what else hangs below it. -/
def createField (s : Store Node) (scope : Scope) (condition : Option Nat) (type : Nat)
    (attrs : List (String × Nat)) (rest : List Nat) : Store Node × Nat :=
  let s₁ := s.alloc (.attributeMap attrs)
  (s₁.alloc (.item scope condition (type :: s.size :: rest)), s₁.size)

/-- `Field::createByType`. The field contained in a list gets a scope inside that of the list. -/
def createByType : Nat → Store Node → Nat → Scope → Option Nat → List (String × Nat) →
    List Nat → List Nat → Option (Store Node × Nat)
  | 0, _, _, _, _, _, _, _ => none
  | fuel + 1, s, type, scope, condition, attrs, params, sinks =>
    match s.node type with
    | .unit _ _ => some (createField s scope condition type attrs (params ++ sinks))
    | .listType element => do
      let (s₁, field) ← createByType fuel s element (.mk [] [] (some scope)) none [] [] []
      some (createField (s₁.alloc (.type [])) scope condition s₁.size attrs (sinks ++ [field]))
    | _ => some (createField s scope condition type attrs sinks)

def visitUnknownField (fuel : Nat) (report : Bool) (nodes : List Nat) (c : Nat) (scope : Scope)
    (path : Path) (condition : Option Nat) (attributes : Nat) (params sinks : List Nat)
    (w : State) : Option State := do
  let vals ← moduleValues w.store nodes path
  withValue report s!"unknown field ID {path.pathAsString}"
    s!"ID {path.pathAsString} references more than one object" vals w fun v => do
      let s := w.store
      let attrs := (s.node attributes).attributes
      let scope := .mk [] [] scope.parent
      match s.node v with
      | .ctorExpr ctor =>
        let (s₁, field) := createField (s.alloc (.type [])) scope condition s.size attrs
          (sinks ++ [ctor])
        some (setStore w (s₁.replace c field))
      | .constantExpr k =>
        match s.node k with
        | .constant type _ =>
          let (s₁, field) := createField s scope condition type attrs (sinks ++ [k])
          some (setStore w (s₁.replace c field))
        | _ => none
      | .typeExpr t =>
        let (s₁, field) ← createByType fuel s t scope condition attrs params sinks
        some (setStore w (s₁.replace c field))
      | _ => some (w.log s!"ID {path.pathAsString} references unexpected type of expression")

/-- `IdExprReplacer::visit`. -/
def visitReplacer (old : Path) (new : Nat) (_ : List Nat) (c : Nat) (w : State) : Option State :=
  match w.store.node c with
  | .id path =>
    some (if path.pathAsString = old.pathAsString then setStore w (w.store.replace c new) else w)
  | _ => some w

/-- The list searched by the nearest `find`, if the lambda is one of its children. -/
def searchedList (s : Store Node) (nodes : List Nat) (c : Nat) : Option Nat := do
  let (listExpr, children) ← nodes.findSome? fun d =>
    match s.node d with
    | .find l others => some (l, l :: others)
    | _ => none
  if children.any fun d => s.pointee d == s.pointee c then some listExpr else none

/-- A new local variable, of a type that may be missing, and the expression that stands for it. -/
def addVariable (s : Store Node) (type : List Nat) : Store Node × Nat :=
  let s₁ := s.alloc (.other type)
  (s₁.alloc (.expression [s.size]), s₁.size)

/-- Puts a new local variable in the place of the lambda's own name. -/
def visitLambda (lookup : Lookup Node) (fuel : Nat) (nodes : List Nat) (c : Nat) (elemId : Path)
    (elemExpr : Nat) (w : State) : Option State :=
  let (w₁, type) :=
    match searchedList w.store nodes c with
    | some l => (setStore w (w.store.alloc (.type [l])), [w.store.size])
    | none => (w.log "lambda outside find expression", [])
  let (s₂, new) := addVariable w₁.store type
  (preOrder Node.children lookup (visitReplacer elemId new) fuel [] elemExpr ⟨s₂, [], []⟩).map
    fun r => setStore w₁ r.store

def visit (lookup : Lookup Node) (fuel : Nat) (report : Bool) (current : List Nat) (c : Nat)
    (w : State) : Option State :=
  match w.store.node c with
  | .id path => visitId report (c :: current) c path w
  | .unknownType (some path) => visitUnknownType report (c :: current) c path w
  | .instantiation path _ => visitInstantiation report (c :: current) path w
  | .unknownField scope path condition attributes params sinks =>
    visitUnknownField fuel report (c :: current) c scope path condition attributes params sinks w
  | .lambda elemId elemExpr => visitLambda lookup fuel (c :: current) c elemId elemExpr w
  | _ => some w

/-- `IdResolver::run`. The pass succeeds if it logs no error. -/
def run (lookup : Lookup Node) (fuel : Nat) (report : Bool) (s : Store Node) (module : Nat) :
    Option State :=
  preOrder Node.children lookup (visit lookup fuel report) fuel [] module ⟨s, [], []⟩

end Diffingo.IdResolver
