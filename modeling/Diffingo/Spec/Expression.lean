import Diffingo.Library.CInteger

/-!
# Types and expressions of a specification

The atomic types a field or variable can have and the expression forms of `spec/ast/expression`.
The element list of a tuple constant is spelled out with `tupleNil` and `tupleCons`, and an
operator's operand list with one constructor per arity, so that `Expr` is a plain inductive type.
-/

namespace Diffingo.Spec

open CInteger

/-- `type::Enum`: the labels with their values. -/
structure EnumType where
  id : String
  labels : List (String × Int)
  deriving DecidableEq, Repr

/-- Every enumeration has the reserved label `UNDEF` besides its own ones. -/
def EnumType.labelValue (t : EnumType) (label : String) : Option Int :=
  if label = "UNDEF" then some (-1) else t.labels.lookup label

/-- The types of `spec/ast/type` that an atomic field or a variable can have. -/
inductive SpecType
  | any
  | bool
  | bytes
  | caddr
  | double
  | enum (t : EnumType)
  | integer (width : Nat) (signed : Bool)
  | string
  | unknown
  | void
  deriving DecidableEq, Repr

/-- `Type::static_serialized_length`; `-1` stands for an unknown length. -/
def SpecType.staticSerializedLength : SpecType → Int
  | .bool => 1
  | .caddr => 8
  | .double => 8
  | .integer w _ => ((w / 8 : Nat) : Int)
  | .void => 0
  | .any | .bytes | .enum _ | .string | .unknown => -1

/-- The constants an expression can hold, tuples apart. -/
inductive Constant
  | bitset (type : String) (bits : List String)
  | bool (value : Bool)
  | double (literal : String)
  | enum (type : EnumType) (label : String)
  | integer (value : Int)
  | none
  | string (value : String)
  deriving DecidableEq, Repr

/-- `expression::Operator::Kind`. -/
inductive Operator
  | attribute | attributeAssign | bitAnd | bitOr | bitXor | call | coerce | cast | decrPostfix
  | decrPrefix | deref | div | equal | greater | hasAttribute | incrPostfix | incrPrefix | in_
  | index | indexAssign | less | logicalAnd | logicalOr | methodCall | minus | minusAssign | mod
  | mult | not | plus | plusAssign | power | shiftLeft | shiftRight | signNeg | signPos | size
  deriving DecidableEq, Repr

/-- The operators that neither change an operand nor call code. -/
def Operator.pure : Operator → Bool
  | .attributeAssign | .call | .decrPostfix | .decrPrefix | .incrPostfix | .incrPrefix
  | .indexAssign | .methodCall | .minusAssign | .plusAssign => false
  | _ => true

/-- `expression::ParserState`: `self` with the unit it refers to, `$$` with the item's type, or a
unit parameter. -/
inductive ParserState
  | self (unit : String)
  | dollarDollar (type : SpecType)
  | parameter (id : String) (type : SpecType)
  deriving DecidableEq, Repr

inductive Expr
  | assign (dst src : Expr)
  | conditional (cond true_ false_ : Expr)
  | conditionalThen (cond true_ : Expr)
  | constant (c : Constant)
  | tupleNil
  | tupleCons (head tail : Expr)
  | ctor
  | find (list cond found notFound : Expr)
  | function (id : String)
  | id (path : List String)
  | lambda (elem : String) (body : Expr)
  | listComprehension
  | memberAttribute (name : String)
  | unary (kind : Operator) (a : Expr)
  | binary (kind : Operator) (a b : Expr)
  | ternary (kind : Operator) (a b c : Expr)
  | parserState (state : ParserState)
  | type (t : SpecType)
  | lambdaVariable (id : String)
  deriving DecidableEq, Repr

namespace Expr

/-- `self.x` in unit `u`. -/
abbrev selfMember (u x : String) : Expr :=
  .binary .attribute (.parserState (.self u)) (.memberAttribute x)

/-- `self.x = e` in unit `u`. -/
abbrev selfAssign (u x : String) (e : Expr) : Expr :=
  .ternary .attributeAssign (.parserState (.self u)) (.memberAttribute x) e

abbrev int (n : Int) : Expr := .constant (.integer n)

/-- The members an expression names, whether it reads or writes them. -/
def members : Expr → List String
  | .assign a b | .tupleCons a b => a.members ++ b.members
  | .conditional a b c => a.members ++ b.members ++ c.members
  | .conditionalThen a b => a.members ++ b.members
  | .find a b c d => a.members ++ b.members ++ c.members ++ d.members
  | .lambda _ a => a.members
  | .memberAttribute x => [x]
  | .unary _ a => a.members
  | .binary _ a b => a.members ++ b.members
  | .ternary _ a b c => a.members ++ b.members ++ c.members
  | .constant _ | .tupleNil | .ctor | .function _ | .id _ | .listComprehension | .parserState _
  | .type _ | .lambdaVariable _ => []

/-- No assignment, no increment or decrement and no call. -/
def sideEffectFree : Expr → Bool
  | .assign _ _ => false
  | .tupleCons a b | .conditionalThen a b => a.sideEffectFree && b.sideEffectFree
  | .conditional a b c => a.sideEffectFree && b.sideEffectFree && c.sideEffectFree
  | .find a b c d =>
    a.sideEffectFree && b.sideEffectFree && c.sideEffectFree && d.sideEffectFree
  | .lambda _ a => a.sideEffectFree
  | .unary k a => k.pure && a.sideEffectFree
  | .binary k a b => k.pure && a.sideEffectFree && b.sideEffectFree
  | .ternary k a b c => k.pure && a.sideEffectFree && b.sideEffectFree && c.sideEffectFree
  | .constant _ | .tupleNil | .ctor | .function _ | .id _ | .listComprehension
  | .memberAttribute _ | .parserState _ | .type _ | .lambdaVariable _ => true

end Expr

end Diffingo.Spec
