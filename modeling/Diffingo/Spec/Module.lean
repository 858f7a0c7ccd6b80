import Mathlib.Data.String.Basic
import Diffingo.Spec.Unit

/-!
# Modules

A module (`spec/ast/module.h`) has properties and declarations. Declaring a unit in a module makes
the module the one whose properties the unit inherits.
-/

namespace Diffingo.Spec

/-- `AttributeMap::add`: a new entry replaces an old one of the same key. -/
def addAttribute (attributes : List Attribute) (a : Attribute) : List Attribute :=
  match attributes with
  | [] => [a]
  | b :: bs =>
    if a.key = b.key then a :: bs
    else if a.key < b.key then a :: b :: bs
    else b :: addAttribute bs a

theorem lookupAttribute_addAttribute (attributes : List Attribute) (a : Attribute) (key : String) :
    lookupAttribute (addAttribute attributes a) key =
      if a.key = key then some a else lookupAttribute attributes key := by
  unfold lookupAttribute
  induction attributes with
  | nil => by_cases ha : a.key = key <;> simp [addAttribute, ha]
  | cons b bs ih =>
    unfold addAttribute
    split
    · rename_i hkey
      by_cases hb : b.key = key <;> simp [hkey, hb]
    · rename_i hne
      split
      · by_cases ha : a.key = key <;> simp [ha]
      · by_cases hb : b.key = key
        · have ha : a.key ≠ key := fun ha => hne (ha.trans hb.symm)
          simp [hb, ha]
        · simp [hb, ih]

/-- The declarations of `spec/ast/declaration`. The bodies of functions are C++ code. -/
inductive Declaration
  | unit (u : UnitType)
  | type (id : String) (t : SpecType)
  | constant (id : String) (value : Expr)
  | function (id : String)
  | instantiation (id unit : String) (items : List (List String))
  deriving DecidableEq, Repr

/-- `Unit::set_module`; other declarations do not refer to their module. -/
def Declaration.setModule (properties : List Attribute) : Declaration → Declaration
  | .unit u => .unit { u with module_ := some properties }
  | d => d

theorem Declaration.setModule_setModule (p q : List Attribute) (d : Declaration) :
    (d.setModule p).setModule q = d.setModule q := by
  cases d <;> rfl

structure Module where
  id : String
  properties : List Attribute := []
  declarations : List Declaration := []
  deriving DecidableEq, Repr

namespace Module

def property (m : Module) (key : String) : Option Attribute := lookupAttribute m.properties key

def addProperty (m : Module) (prop : Attribute) : Module :=
  { m with properties := addAttribute m.properties prop }

def addDeclaration (m : Module) (decl : Declaration) : Module :=
  { m with declarations := m.declarations ++ [decl.setModule m.properties] }

def addDeclarations (m : Module) (decls : List Declaration) : Module :=
  decls.foldl addDeclaration m

theorem addDeclarations_eq (m : Module) (decls : List Declaration) : m.addDeclarations decls =
    { m with declarations := m.declarations ++ decls.map (·.setModule m.properties) } := by
  unfold addDeclarations
  induction decls generalizing m with
  | nil => simp
  | cons d decls ih => simp [ih, addDeclaration]

end Module

end Diffingo.Spec
