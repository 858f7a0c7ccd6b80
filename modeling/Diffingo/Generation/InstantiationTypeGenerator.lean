import Diffingo.Generation.DependencyResolver

/-!
# The compact unit of an instantiation

`InstantiationTypeGenerator` copies the items an instantiation depends on. Fields it does not depend
on are collected and replaced by one bytes field whose length is the sum of theirs; variables it
does not depend on are left out. At the end every `self` is redirected to the new unit.
-/

namespace Diffingo.Spec

namespace Expr

/-- `SelfReplacerVisitor`: `self` becomes the unit `u`. The elements of tuples are not visited. -/
def replaceSelf (u : String) : Expr → Expr
  | .assign a b => .assign (a.replaceSelf u) (b.replaceSelf u)
  | .conditional a b c => .conditional (a.replaceSelf u) (b.replaceSelf u) (c.replaceSelf u)
  | .conditionalThen a b => .conditionalThen (a.replaceSelf u) (b.replaceSelf u)
  | .find a b c d =>
    .find (a.replaceSelf u) (b.replaceSelf u) (c.replaceSelf u) (d.replaceSelf u)
  | .lambda x a => .lambda x (a.replaceSelf u)
  | .unary k a => .unary k (a.replaceSelf u)
  | .binary k a b => .binary k (a.replaceSelf u) (b.replaceSelf u)
  | .ternary k a b c => .ternary k (a.replaceSelf u) (b.replaceSelf u) (c.replaceSelf u)
  | .parserState (.self _) => .parserState (.self u)
  | e => e

end Expr

def Attribute.replaceSelf (u : String) (a : Attribute) : Attribute :=
  { a with value := a.value.map (·.replaceSelf u) }

/-- The expressions of an item that the visitor reaches; the fields of a switch are not among
them. -/
def Item.replaceSelf (u : String) : Item → Item
  | .field f => .field { f with attributes := f.attributes.map (·.replaceSelf u) }
  | .switch s => .switch { s with expression := s.expression.map (·.replaceSelf u) }
  | .var v => .var { v with
      defaultValue := v.defaultValue.map (·.replaceSelf u)
      attributes := v.attributes.map (·.replaceSelf u) }
  | .property p => .property (p.replaceSelf u)

/-- `AtomicType::clone`. -/
def AtomicField.clone (f : AtomicField) : AtomicField := { f with applicationAccessible := true }

/-- `Case::clone`; whether the case is the default one is not copied. -/
def Case.clone (c : Case) : Case := { c with items := c.items.map (·.clone), default_ := false }

def Switch.clone (s : Switch) : Switch := { s with cases := s.cases.map (·.clone) }

/-- `Item::clone`. -/
def Item.clone : Item → Item
  | .field f => .field f.clone
  | .switch s => .switch s.clone
  | .var v => .var v
  | .property p => .property p

def Item.setParsingOnly : Item → Item
  | .field f => .field { f with parsingOnly := true }
  | .switch s => .switch { s with parsingOnly := true }
  | .var v => .var { v with parsingOnly := true }
  | .property p => .property p

/-- `Field::serialized_length`, for the items that are fields. -/
def Item.serializedLength : Item → Option Expr
  | .field f => f.serializedLength
  | .switch s => s.serializedLength
  | .var _ | .property _ => none

/-- The name that an item without one gets. -/
def anonymousId (n : Nat) : String := "__anon" ++ toString n

end Diffingo.Spec

namespace Diffingo.Generation

open Diffingo.Spec

/-- The state of the visitor, with `Item::id_counter_`. -/
structure InstantiationTypeGenerator where
  curUnitItems : List Item := []
  curCompactableFields : List Item := []
  idCounter : Nat

namespace InstantiationTypeGenerator

/-- The constructor of a switch takes an anonymous name before `clone` sets the name. -/
def addCopy (g : InstantiationTypeGenerator) (i copy : Item) : InstantiationTypeGenerator :=
  { g with
    curUnitItems := g.curUnitItems ++ [copy]
    idCounter := match i with
      | .switch _ => g.idCounter + 1
      | _ => g.idCounter }

/-- The field that stands for a range of the input. -/
def rangeField (n : Nat) (length : Expr) : AtomicField where
  id := anonymousId n
  type := .bytes
  applicationAccessible := false
  attributes := [⟨"length", some length⟩]

def addFieldOfLength (g : InstantiationTypeGenerator) (length : Option Expr) :
    InstantiationTypeGenerator :=
  match length with
  | none => g
  | some e => { g with
      curUnitItems := g.curUnitItems ++ [.field (rangeField (g.idCounter + 1) e)]
      idCounter := g.idCounter + 1 }

/-- The length of the current range with one more field. -/
def addLength (len : Option Expr) (e : Expr) : Expr :=
  match len with
  | none => e
  | some e' => .binary .plus e' e

/-- The loop of `compactAndAddItems`; `len` is the length of the current range. -/
def compactLoop (g : InstantiationTypeGenerator) : Option Expr → List Item → InstantiationTypeGenerator
  | len, [] => g.addFieldOfLength len
  | len, i :: rest =>
    match i.serializedLength with
    | some e => compactLoop g (some (addLength len e)) rest
    | none => compactLoop ((g.addFieldOfLength len).addCopy i i.clone) none rest

def compactAndAddItems (g : InstantiationTypeGenerator) : InstantiationTypeGenerator :=
  { compactLoop g none g.curCompactableFields with curCompactableFields := [] }

/-- The copy of an item that is needed in the given context. -/
def copyFor (context : Finset DependencyContext) (i : Item) : Item :=
  if context = {.parsing} then i.clone.setParsingOnly else i.clone

/-- `visit(Item)`. -/
def visitItem (deps : List Dependency) (g : InstantiationTypeGenerator) (i : Item) :
    InstantiationTypeGenerator :=
  let context := dependencyContextFor deps [i.id]
  if context ≠ ∅ then
    match i with
    | .var _ => g.addCopy i (copyFor context i)
    | _ => g.compactAndAddItems.addCopy i (copyFor context i)
  else
    match i with
    | .field _ | .switch _ => { g with curCompactableFields := g.curCompactableFields ++ [i] }
    | .var _ => g
    | .property _ => g.addCopy i i.clone

/-- `visit(Unit)` with the dependencies of the instantiation; the new unit is not part of a
module. -/
def run (deps : List Dependency) (name : String) (idCounter : Nat) (u : UnitType) : UnitType where
  id := name
  items := ((u.items.foldl (visitItem deps) { idCounter }).compactAndAddItems.curUnitItems).map
    (·.replaceSelf name)

end InstantiationTypeGenerator

/-- The unit generated for an instantiation of `u` with the given items. -/
def instantiate (name : String) (idCounter : Nat) (u : UnitType) (items : List Path) : UnitType :=
  InstantiationTypeGenerator.run (InstantiationDependencyResolver.visit u items) name idCounter u

end Diffingo.Generation
