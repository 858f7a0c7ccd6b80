import Diffingo.Spec.Clone

/-!
# Serialized lengths

`static_serialized_length` and `serialized_length` of the items of a syntax tree. A length that is not
static is an expression of the unit itself: the value of the `length` attribute is handed out, not a
copy of it.
-/

namespace Diffingo.Ast

open Spec

/-- What lengths depend on besides the unit's own tree: the units that are embedded in it, and the
types of the integers in tuples. -/
structure Sizes where
  integer : Int → Int
  staticUnit : String → Int
  unit : String → Option (Expr Nat)

section Static

variable {σ : Type} (sizes : Sizes)

def Ty.staticSerializedLength : Ty → Int
  | .atomic t => t.staticSerializedLength
  | .unit id => sizes.staticUnit id
  | .tupleNil => 0
  | .tupleCons t ts =>
    let len := t.staticSerializedLength
    let rest := ts.staticSerializedLength
    if len < 0 ∨ rest < 0 then -1 else len + rest
  | .bitfield w => w
  | .list _ | .map _ _ | .set _ | .vector _ | .bitset _ | .sink | .anonymousEnum _ => -1

/-- `Constant::static_serialized_length`. -/
def constantLength : Constant → Int
  | .bool _ => 1
  | .double _ => 8
  | .bitset _ _ | .enum _ _ | .none => -1
  | .integer n => sizes.integer n
  | .string s => s.utf8ByteSize

/-- `Tuple::static_serialized_length`, for the elements that are constants. -/
def Expr.staticSerializedLength : Expr σ → Int
  | .constant c => constantLength sizes c
  | .tupleNil => 0
  | .tupleCons e es =>
    let len := e.staticSerializedLength
    let rest := es.staticSerializedLength
    if len < 0 ∨ rest < 0 then -1 else len + rest
  | _ => -1

def FieldConstant.staticSerializedLength (type : Ty) : FieldConstant σ → Int
  | .simple (.string s) => s.utf8ByteSize
  | .simple _ => type.staticSerializedLength sizes
  | .tuple es => (FieldConstant.tuple es).toExpr.staticSerializedLength sizes

/-- The value of the `length` attribute. -/
def FieldInfo.length (i : FieldInfo σ) : Option (Expr σ) :=
  (i.attributes.find? fun a => a.key = "length").bind (·.value)

/-- `AtomicType::static_serialized_length`. -/
def FieldInfo.staticSerializedLength (i : FieldInfo σ) : Int :=
  let typeLen := ((i.serializedType.or i.type).map (·.staticSerializedLength sizes)).getD (-1)
  if typeLen ≥ 0 then typeLen
  else
    match i.length with
    | some (.constant (.integer n)) => n
    | _ => -1

def Field.staticSerializedLength : Field σ → Int
  | .atomic i => i.staticSerializedLength sizes
  | .constant _ c t => c.staticSerializedLength sizes t
  | .unit i _ => (i.type.map (·.staticSerializedLength sizes)).getD (-1)
  | .vector _ (.constant (.integer n)) c =>
    let len := c.staticSerializedLength
    if len ≥ 0 then n * len else -1
  | .vector _ _ _ | .ctor _ _ | .unknown _ _ _ | .list _ _ => -1

/-- The length of a case as `Switch::static_serialized_length` adds it up. -/
def caseLength : List (Field σ) → Option Int
  | [] => some 0
  | f :: fs =>
    if f.staticSerializedLength sizes < 0 then none
    else (caseLength fs).map (f.staticSerializedLength sizes + ·)

/-- The loop of `Switch::static_serialized_length`; `lastLen` is an `int`. -/
def staticLengthLoop : Option Int → List (Case σ) → Int
  | lastLen, [] => lastLen.getD 0
  | lastLen, c :: cs =>
    match caseLength sizes c.items, lastLen with
    | none, _ => -1
    | some n, none => staticLengthLoop (some (CInteger.IntTy.int.wrap n)) cs
    | some n, some last =>
      if last ≠ n then -1 else staticLengthLoop (some (CInteger.IntTy.int.wrap n)) cs

def Switch.staticSerializedLength (s : Switch σ) : Int := staticLengthLoop sizes none s.cases

end Static

/-- `Field::serialized_length`. -/
def ofStatic {σ : Type} (len : Int) : Option (Expr σ) :=
  if len ≥ 0 then some (.constant (.integer len)) else none

def Ty.serializedLength (sizes : Sizes) : Ty → Option (Expr Nat)
  | .unit id => sizes.unit id
  | _ => none

/-- `serialized_length` of the classes of `item::field`. -/
def Field.serializedLength (sizes : Sizes) : Field Nat → Option (Expr Nat)
  | .atomic i => (ofStatic (i.staticSerializedLength sizes)).or i.length
  | .unit i _ => i.type.bind (·.serializedLength sizes)
  | .vector i n c =>
    (ofStatic ((Field.vector i n c).staticSerializedLength sizes)).or
      ((c.serializedLength sizes).map (.binary .mult n ·))
  | f => ofStatic (f.staticSerializedLength sizes)

/-- `serialized_length` of the items that are fields. -/
def Item.serializedLength (sizes : Sizes) : Item Nat → Option (Expr Nat)
  | .field f => f.serializedLength sizes
  | .switch s => ofStatic (s.staticSerializedLength sizes)
  | .var _ | .property _ _ => none

/-- The parser states in the lengths of embedded units have been created. -/
def Sizes.Below (sizes : Sizes) (h : Heap) : Prop :=
  ∀ id e, sizes.unit id = some e → Ast.Below h [e]

theorem below_ofStatic {h : Heap} {len : Int} {e : Expr Nat} (he : ofStatic len = some e) :
    Below h [e] := by
  unfold ofStatic at he
  split_ifs at he
  cases he
  simp [Below, Expr.states]

theorem FieldInfo.mem_visited_of_length {i : FieldInfo Nat} {e : Expr Nat}
    (he : i.length = some e) : e ∈ i.visited := by
  obtain ⟨a, ha, hvalue⟩ := Option.bind_eq_some_iff.mp he
  have hmem := List.mem_of_find?_eq_some ha
  exact List.mem_append_left _ (List.mem_filterMap.mpr ⟨a, hmem, hvalue⟩)

theorem Field.below_serializedLength {sizes : Sizes} {h : Heap} (hsizes : sizes.Below h)
    {f : Field Nat} (hf : Below h f.exprs) {e : Expr Nat}
    (he : f.serializedLength sizes = some e) : Below h [e] := by
  induction f generalizing e with
  | atomic i =>
    rcases Option.or_eq_some_iff.mp he with he | ⟨-, he⟩
    · exact below_ofStatic he
    · have hmem : e ∈ i.exprs := List.mem_append_left _ (FieldInfo.mem_visited_of_length he)
      simpa [Below] using hf e hmem
  | unit i ps =>
    obtain ⟨t, -, ht⟩ := Option.bind_eq_some_iff.mp he
    cases t with
    | unit id => exact hsizes id e ht
    | _ => cases ht
  | vector i n c ih =>
    rcases Option.or_eq_some_iff.mp he with he | ⟨-, he⟩
    · exact below_ofStatic he
    · obtain ⟨len, hlen, rfl⟩ := Option.map_eq_some_iff.mp he
      have hc : Below h c.exprs := fun a ha => hf a (by simp [Field.exprs, ha])
      have hn := hf n (by simp [Field.exprs])
      have hlen := ih hc hlen
      simp only [Below, List.mem_singleton, forall_eq, Expr.states, List.mem_append] at hlen ⊢
      rintro x (hx | hx)
      · exact hn x hx
      · exact hlen x hx
  | constant | ctor | unknown | list => exact below_ofStatic he

theorem Item.below_serializedLength {sizes : Sizes} {h : Heap} (hsizes : sizes.Below h)
    {i : Item Nat} (hi : Below h i.exprs) {e : Expr Nat}
    (he : i.serializedLength sizes = some e) : Below h [e] := by
  cases i with
  | field f => exact f.below_serializedLength hsizes hi he
  | switch s => exact below_ofStatic he
  | var | property => cases he

end Diffingo.Ast
