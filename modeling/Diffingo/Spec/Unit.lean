import Diffingo.Spec.Expression

/-!
# Units

The items of a unit (`spec/ast/type/unit.h`): atomic fields, switches over atomic fields, variables
and properties. Embedded units, containers, constants and constructors as fields are outside the
model; the generators emit no code for them.
-/

namespace Diffingo.Spec

structure Attribute where
  key : String
  value : Option Expr
  deriving DecidableEq, Repr

/-- `AttributeMap::lookup`; the list holds the map's entries in key order. -/
def lookupAttribute (attributes : List Attribute) (key : String) : Option Attribute :=
  attributes.find? fun a => a.key = key

def hasAttribute (attributes : List Attribute) (key : String) : Bool :=
  (lookupAttribute attributes key).isSome

/-- `item::field::AtomicType`. `serializedType` is set when a transform separates the type on the
wire from the type of the member. -/
structure AtomicField where
  id : String
  type : SpecType
  serializedType : Option SpecType := none
  condition : Option Expr := none
  attributes : List Attribute := []
  parsingOnly : Bool := false
  applicationAccessible : Bool := true
  deriving DecidableEq, Repr

/-- `item::field::switch_::Case`. -/
structure Case where
  expressions : List Expr
  items : List AtomicField
  default_ : Bool := false
  deriving DecidableEq, Repr

/-- `item::field::switch_::Switch`; without an expression it is a look-ahead switch. -/
structure Switch where
  id : String
  expression : Option Expr
  cases : List Case
  condition : Option Expr := none
  parsingOnly : Bool := false
  deriving DecidableEq, Repr

/-- `item::Variable`. -/
structure Variable where
  id : String
  type : SpecType
  defaultValue : Option Expr := none
  attributes : List Attribute := []
  parsingOnly : Bool := false
  deriving DecidableEq, Repr

inductive Item
  | field (f : AtomicField)
  | switch (s : Switch)
  | var (v : Variable)
  | property (p : Attribute)
  deriving DecidableEq, Repr

/-- `type::unit::Unit`. `module_` holds the properties of the module the unit was declared in; a
unit that was never declared in a module has none. -/
structure UnitType where
  id : String
  items : List Item
  module_ : Option (List Attribute) := none
  deriving DecidableEq, Repr

namespace AtomicField

/-- `Field::serialized_type`. -/
def serialized (f : AtomicField) : SpecType := f.serializedType.getD f.type

/-- The value of the `length` attribute. -/
def length (f : AtomicField) : Option Expr :=
  (lookupAttribute f.attributes "length").bind (·.value)

/-- `AtomicType::static_serialized_length`. -/
def staticSerializedLength (f : AtomicField) : Int :=
  let typeLen := f.serialized.staticSerializedLength
  if typeLen ≥ 0 then typeLen
  else
    match f.length with
    | some (.constant (.integer n)) => n
    | _ => -1

/-- `AtomicType::serialized_length`. -/
def serializedLength (f : AtomicField) : Option Expr :=
  if f.staticSerializedLength ≥ 0 then some (.int f.staticSerializedLength) else f.length

end AtomicField

namespace Switch

/-- The length of a case as `Switch::static_serialized_length` adds it up. -/
def caseLength : List AtomicField → Option Int
  | [] => some 0
  | f :: fs =>
    if f.staticSerializedLength < 0 then none
    else (caseLength fs).map (f.staticSerializedLength + ·)

/-- The loop of `Switch::static_serialized_length`; `lastLen` is an `int`. -/
def staticLengthLoop : Option Int → List Case → Int
  | lastLen, [] => lastLen.getD 0
  | lastLen, c :: cs =>
    match caseLength c.items, lastLen with
    | none, _ => -1
    | some n, none => staticLengthLoop (some (CInteger.IntTy.int.wrap n)) cs
    | some n, some last =>
      if last ≠ n then -1 else staticLengthLoop (some (CInteger.IntTy.int.wrap n)) cs

def staticSerializedLength (s : Switch) : Int := staticLengthLoop none s.cases

/-- `Switch::serialized_length`. -/
def serializedLength (s : Switch) : Option Expr :=
  if s.staticSerializedLength ≥ 0 then some (.int s.staticSerializedLength) else none

def fields (s : Switch) : List AtomicField := s.cases.flatMap (·.items)

end Switch

namespace Item

/-- The id of an item; a property is called after its key. -/
def id : Item → String
  | .field f => f.id
  | .switch s => s.id
  | .var v => v.id
  | .property p => "%" ++ p.key

/-- `Field::static_serialized_length`, for the items that are fields. -/
def staticSerializedLength : Item → Option Int
  | .field f => some f.staticSerializedLength
  | .switch s => some s.staticSerializedLength
  | .var _ | .property _ => none

/-- The atomic fields of an item. -/
def fields : Item → List AtomicField
  | .field f => [f]
  | .switch s => s.fields
  | .var _ | .property _ => []

/-- The struct members an item contributes. -/
def memberIds : Item → List String
  | .field f => [f.id]
  | .switch s => s.fields.map (·.id)
  | .var v => [v.id]
  | .property _ => []

end Item

namespace UnitType

/-- The loop of `Unit::static_serialized_length` over the fields of the unit. -/
def staticLengthLoop (len : Int) : List Item → Int
  | [] => len
  | i :: rest =>
    match i.staticSerializedLength with
    | none => staticLengthLoop len rest
    | some n => if n < 0 then -1 else staticLengthLoop (len + n) rest

def staticSerializedLength (u : UnitType) : Int := staticLengthLoop 0 u.items

/-- `Unit::property`. -/
def property (u : UnitType) (key : String) : Option Attribute :=
  u.items.findSome? fun
    | .property p => if p.key = key then some p else none
    | _ => none

/-- `Unit::inheritedProperty` for a field: its own attribute, then the unit's property, then the
module's. -/
def inheritedProperty (u : UnitType) (key : String) (attributes : List Attribute) : Option Expr :=
  match lookupAttribute attributes key, u.property key, u.module_.bind (lookupAttribute · key) with
  | some a, _, _ => a.value
  | none, some a, _ => a.value
  | none, none, some a => a.value
  | none, none, none => none

end UnitType

end Diffingo.Spec
