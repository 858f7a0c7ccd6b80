import Diffingo.Spec.Expression
import Diffingo.Runtime.Serializing
import Diffingo.Runtime.UnitMemory

/-!
# The C expressions of a specification

`TypeTranslator` and `ExpressionTranslator` print types and expressions as C. Here a type becomes
its C type and an expression gets the meaning of the C expression it is printed as: operands are
promoted and converted as in C, signed overflow is undefined, and assignments change the unit.
Forms the translator does not support, or whose output does not compile, have no value.
-/

namespace Diffingo.Generation

open CInteger Diffingo.Spec Diffingo.Runtime

/-- `TypeTranslator`. The runtime has integer types of the supported widths only. -/
def cType : SpecType → Option CType
  | .bool => some .bool
  | .bytes => some .varBytes
  | .double => some .double
  | .enum t => some (.enum t.id)
  | .integer w s => if w ∈ supportedWidths then some (.int ⟨w, s⟩) else none
  | .string => some .varString
  | .void => some .void
  | .any | .caddr | .unknown => none

/-- What an expression can refer to: the struct of the unit that `SELF` names, and the member that
`dollar` points to. -/
structure Env where
  unit : String
  members : String → Option CType
  dollar : Option String := none

/-- The member an expression designates: `(SELF(T).x)` or `DOLLAR(T)`. -/
def lvalue (env : Env) : Expr → Option (String × CType)
  | .binary .attribute (.parserState (.self u)) (.memberAttribute x) =>
    if u = env.unit then (env.members x).map (x, ·) else none
  | .parserState (.dollarDollar t) =>
    env.dollar.bind fun x =>
      (env.members x).bind fun ty => if cType t = some ty then some (x, ty) else none
  | _ => none

/-- The type of an integer literal. -/
def literalType (n : Int) : Option CType :=
  if n.natAbs < 2 ^ 31 then some (.int .int)
  else if n.natAbs < 2 ^ 63 then some (.int .long)
  else none

def constantType : Constant → Option CType
  | .bool _ => some .bool
  | .enum t _ => some (.enum t.id)
  | .integer n => literalType n
  | .bitset _ _ | .double _ | .none | .string _ => none

def constantValue : Constant → Option Value
  | .bool b => some (.int (if b then 1 else 0))
  | .enum t l => (t.labelValue l).map .int
  | .integer n => (literalType n).map fun _ => .int n
  | .bitset _ _ | .double _ | .none | .string _ => none

/-- The type of `c ? a : b`. -/
def conditionalType (a b : CType) : Option CType :=
  if a = b then some a
  else
    match a.arith, b.arith with
    | some ta, some tb => some (.int (ta.common tb))
    | _, _ => none

/-- The type of a sum or difference. -/
def arithType (a b : CType) : Option IntTy :=
  match a.arith, b.arith with
  | some ta, some tb => some (ta.common tb)
  | _, _ => none

/-- The target type of a cast. -/
def castType : Expr → Option CType
  | .type t => cType t
  | _ => none

/-- The static type of an expression. -/
def typeOf (env : Env) : Expr → Option CType
  | .constant c => constantType c
  | .parserState s => (lvalue env (.parserState s)).map (·.2)
  | .unary k a =>
    match k with
    | .not => some .bool
    | .incrPostfix | .decrPostfix | .decrPrefix => (lvalue env a).map (·.2)
    | _ => none
  | .binary k a b =>
    match k with
    | .attribute => (lvalue env (.binary .attribute a b)).map (·.2)
    | .cast => castType b
    | .plus | .minus =>
      (typeOf env a).bind fun ta => (typeOf env b).bind fun tb => (arithType ta tb).map .int
    | .equal | .less | .greater | .logicalAnd | .logicalOr => some .bool
    | _ => none
  | .ternary k a b _ =>
    match k with
    | .attributeAssign => (lvalue env (.binary .attribute a b)).map (·.2)
    | _ => none
  | .assign d _ => (lvalue env d).map (·.2)
  | .conditional _ a b =>
    (typeOf env a).bind fun ta => (typeOf env b).bind fun tb => conditionalType ta tb
  | .conditionalThen _ a => (typeOf env a).bind fun ta => conditionalType ta (.int .int)
  | _ => none

/-- An expression evaluated in a unit gives a value and the unit after. -/
abbrev Eval := UnitMemory → Option (Value × UnitMemory)

/-- Read the designated member. -/
def load (l : Option (String × CType)) : Eval := fun m =>
  l.bind fun p => ((m p.1).read p.2).map (·, m)

/-- Store into a member; the value of an assignment is that of the member after it. -/
def assignMember (x : String) (ty : CType) (v : Value) : Eval := fun m =>
  ((m x).store ty v).bind fun c => (c.read ty).map (·, Function.update m x c)

/-- `dst = src` for the member `dst` and the value of a source of type `tsrc`. -/
def assignTo (l : Option (String × CType)) (tsrc : Option CType) (src : Eval) : Eval := fun m =>
  l.bind fun p => tsrc.bind fun ts =>
    if p.2.accepts ts then (src m).bind fun r => assignMember p.1 p.2 r.1 r.2 else none

/-- Add `d` to a member; `old` says whether the value is the one before (`x++`) or after (`--x`). -/
def bump (l : Option (String × CType)) (d : Int) (old : Bool) : Eval := fun m =>
  l.bind fun p =>
    match p.2 with
    | .int t => ((m p.1).read p.2).bind fun v => v.toInt.bind fun n =>
        (t.promote.result (n + d)).bind fun n' =>
          (assignMember p.1 p.2 (.int n') m).map fun r => (if old then v else r.1, r.2)
    | _ => none

def ofBool (b : Bool) : Value := .int (if b then 1 else 0)

/-- The operators that evaluate both operands and combine the two values. -/
def combine (k : Operator) (ta tb : CType) (a b : Int) : Option Value :=
  match k with
  | .plus => (arithType ta tb).bind fun t => (t.result (t.wrap a + t.wrap b)).map .int
  | .minus => (arithType ta tb).bind fun t => (t.result (t.wrap a - t.wrap b)).map .int
  | .equal =>
    if ta = tb && ta.isScalar then some (ofBool (a = b))
    else (arithType ta tb).map fun t => ofBool (t.wrap a = t.wrap b)
  | .less =>
    if ta = tb && ta.isScalar then some (ofBool (a < b))
    else (arithType ta tb).map fun t => ofBool (t.wrap a < t.wrap b)
  | .greater =>
    if ta = tb && ta.isScalar then some (ofBool (b < a))
    else (arithType ta tb).map fun t => ofBool (t.wrap b < t.wrap a)
  | _ => none

def strict (k : Operator) (ta tb : Option CType) (ea eb : Eval) : Eval := fun m =>
  ta.bind fun ta => tb.bind fun tb => (ea m).bind fun ra => (eb ra.2).bind fun rb =>
    ra.1.toInt.bind fun va => rb.1.toInt.bind fun vb => (combine k ta tb va vb).map (·, rb.2)

/-- The truth value of an operand, which must have an arithmetic type. -/
def test (ty : Option CType) (e : Eval) (m : UnitMemory) : Option (Bool × UnitMemory) :=
  (ty.bind (·.arith)).bind fun _ => (e m).bind fun r => r.1.toInt.map fun v => (v ≠ 0, r.2)

def testValue (ty : Option CType) (e : Eval) : Eval := fun m =>
  (test ty e m).map fun p => (ofBool p.1, p.2)

/-- `c ? a : b`, with the result converted to the common type. -/
def choose (tc ty : Option CType) (ec ea eb : Eval) : Eval := fun m =>
  ty.bind fun ty => (test tc ec m).bind fun p =>
    ((if p.1 then ea else eb) p.2).bind fun r => (r.1.convert ty).map (·, r.2)

def castTo (ty ta : Option CType) (ea : Eval) : Eval := fun m =>
  ty.bind fun ty => ta.bind fun ta =>
    if ta.isScalar then (ea m).bind fun r => (r.1.convert ty).map (·, r.2) else none

def literal (v : Option Value) : Eval := fun m => v.map (·, m)

/-- The value of an expression as the C program computes it. Operands are evaluated from left to
right. -/
def eval (env : Env) : Expr → Eval
  | .constant c => literal (constantValue c)
  | .parserState s => load (lvalue env (.parserState s))
  | .unary k a =>
    match k with
    | .not => choose (typeOf env a) (some .bool) (eval env a) (literal (some (ofBool false)))
        (literal (some (ofBool true)))
    | .incrPostfix => bump (lvalue env a) 1 true
    | .decrPostfix => bump (lvalue env a) (-1) true
    | .decrPrefix => bump (lvalue env a) (-1) false
    | _ => fun _ => none
  | .binary k a b =>
    match k with
    | .attribute => load (lvalue env (.binary .attribute a b))
    | .cast => castTo (castType b) (typeOf env a) (eval env a)
    | .logicalAnd => choose (typeOf env a) (some .bool) (eval env a)
        (testValue (typeOf env b) (eval env b)) (literal (some (ofBool false)))
    | .logicalOr => choose (typeOf env a) (some .bool) (eval env a)
        (literal (some (ofBool true))) (testValue (typeOf env b) (eval env b))
    | k => strict k (typeOf env a) (typeOf env b) (eval env a) (eval env b)
  | .ternary k a b c =>
    match k with
    | .attributeAssign =>
      assignTo (lvalue env (.binary .attribute a b)) (typeOf env c) (eval env c)
    | _ => fun _ => none
  | .assign d s => assignTo (lvalue env d) (typeOf env s) (eval env s)
  | .conditional c a b =>
    choose (typeOf env c) (typeOf env (.conditional c a b)) (eval env c) (eval env a) (eval env b)
  | .conditionalThen c a =>
    choose (typeOf env c) (typeOf env (.conditionalThen c a)) (eval env c) (eval env a)
      (literal (some (.int 0)))
  | _ => fun _ => none

end Diffingo.Generation
