import Diffingo.Library.CInteger
import Mathlib.Logic.Function.Basic

/-!
# Unit structs in memory

A parsed unit is a C struct with one member per field and variable. A member is a cell that can be
viewed as a number, as a `var_bytes` (a length and a block of the unit area) or as a
`var_stream_range` (a length and an address in the input). The memory of a unit is not initialised,
so a cell can hold anything; `Cell.read` is what the program sees at the member's type.
-/

namespace Diffingo.Runtime

open CInteger

/-- The C types of struct members and expressions. -/
inductive CType
  | int (t : IntTy)
  | bool
  | double
  | enum (id : String)
  | varBytes
  | varString
  | varStreamRange
  | void
  deriving DecidableEq, Repr

/-- The value of an expression or member. -/
inductive Value
  | int (v : Int)
  | bytes (len : Nat) (data : List UInt8)
  | range (start : Int) (len : Nat)
  deriving DecidableEq, Repr

structure Cell where
  int : Int
  len_ : Nat
  data_ : List UInt8
  start_ : Int

/-- The struct behind a unit pointer. -/
abbrev UnitMemory := String → Cell

namespace CType

/-- The conversion of a number to a scalar type. The underlying type of an enumeration is `int`. -/
def convert : CType → Int → Option Int
  | .int t, v => some (t.wrap v)
  | .bool, v => some (if v = 0 then 0 else 1)
  | .enum _, v => some (IntTy.int.wrap v)
  | .double, _ | .varBytes, _ | .varString, _ | .varStreamRange, _ | .void, _ => none

def isScalar : CType → Bool
  | .int _ | .bool | .enum _ => true
  | _ => false

/-- The integer type an arithmetic operand has before promotion; scoped enumerations take no part
in arithmetic. -/
def arith : CType → Option IntTy
  | .int t => some t
  | .bool => some ⟨8, false⟩
  | _ => none

/-- The types that share the layout of `var_bytes`. -/
def isVarBytes : CType → Bool
  | .varBytes | .varString => true
  | _ => false

/-- Whether a value of type `src` can be assigned to an object of type `dst` without a cast. -/
def accepts (dst src : CType) : Bool :=
  (dst.arith.isSome && src.arith.isSome) || (dst.isScalar && dst = src) ||
    (dst = .varBytes && src.isVarBytes) || (dst = .varString && src = .varString)

end CType

namespace Value

def toInt : Value → Option Int
  | .int v => some v
  | _ => none

/-- The value seen at another type. -/
def convert (ty : CType) : Value → Option Value
  | .int v => (ty.convert v).map .int
  | .bytes n d => if ty.isVarBytes then some (.bytes n d) else none
  | .range _ _ => none

end Value

namespace Cell

def read (ty : CType) (c : Cell) : Option Value :=
  match ty with
  | .varBytes | .varString => some (.bytes c.len_ c.data_)
  | .varStreamRange => some (.range c.start_ c.len_)
  | ty => (ty.convert c.int).map .int

def store (ty : CType) (v : Value) (c : Cell) : Option Cell :=
  match v.convert ty with
  | some (.int n) => some { c with int := n }
  | some (.bytes n d) => some { c with len_ := n, data_ := d }
  | _ => none

end Cell

theorem CType.convert_convert {ty : CType} {v w : Int} (h : ty.convert v = some w) :
    ty.convert w = some w := by
  cases ty with
  | int t =>
    obtain rfl : t.wrap v = w := by simpa [CType.convert] using h
    simp [CType.convert]
  | bool =>
    simp only [CType.convert, Option.some.injEq] at h
    subst h
    by_cases hv : v = 0 <;> simp [CType.convert, hv]
  | enum id =>
    obtain rfl : IntTy.int.wrap v = w := by simpa [CType.convert] using h
    simp [CType.convert]
  | _ => simp [CType.convert] at h

/-- Reading back what was stored gives the value as the member's type holds it. -/
theorem Cell.read_store {ty : CType} {v : Value} {c c' : Cell} (h : c.store ty v = some c') :
    c'.read ty = v.convert ty := by
  cases v with
  | int n =>
    cases hn : ty.convert n with
    | none => simp [Cell.store, Value.convert, hn] at h
    | some w =>
      simp only [Cell.store, Value.convert, hn, Option.map_some, Option.some.injEq] at h
      subst h
      have hw := CType.convert_convert hn
      cases ty <;> simp_all [Cell.read, Value.convert, CType.convert]
  | bytes n d =>
    cases hty : ty.isVarBytes with
    | false => simp [Cell.store, Value.convert, hty] at h
    | true =>
      simp only [Cell.store, Value.convert, hty, if_true, Option.some.injEq] at h
      subst h
      cases ty <;> simp_all [Cell.read, Value.convert, CType.isVarBytes]
  | range p n => simp [Cell.store, Value.convert] at h

/-- Whether a store succeeds does not depend on the cell. -/
theorem Cell.store_isSome (ty : CType) (v : Value) (c c' : Cell) :
    (c.store ty v).isSome = (c'.store ty v).isSome := by
  unfold Cell.store
  rcases v.convert ty with _ | (_ | _ | _) <;> rfl

end Diffingo.Runtime
