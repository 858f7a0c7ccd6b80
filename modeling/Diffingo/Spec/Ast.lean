import Diffingo.Spec.Unit

/-!
# The syntax tree

The tree of `spec/ast` with all kinds of items and expressions the grammar builds. Parser states
(`self`, `$$` and parameters) are nodes that a pass changes in place, so a tree refers to them by
`σ`: an address in the heap of nodes, or the state itself when the tree is looked at as a value.
Types, constants and identifiers are never changed and are values in both cases.

What a constructor of the source fixes is not part of the tree: only fields of an embedded or unknown
unit have parameters, a switch has no type and no attributes, a property has nothing but its
attribute.
-/

namespace Diffingo.Ast

open Spec

/-- The types of `spec/ast/type`. The element types of a tuple are spelled out with `tupleNil` and
`tupleCons`; an enumeration that is written where a type is used has no name. -/
inductive Ty
  | atomic (t : SpecType)
  | unit (id : String)
  | list (element : Ty)
  | map (key value : Ty)
  | set (element : Ty)
  | vector (element : Ty)
  | tupleNil
  | tupleCons (head tail : Ty)
  | bitfield (width : Nat)
  | bitset (labels : List (String × Int))
  | sink
  | anonymousEnum (labels : List (String × Int))
  deriving DecidableEq, Repr

inductive StateKind
  | self | dollarDollar | parameter (id : String)
  deriving DecidableEq, Repr

/-- `expression::ParserState`. -/
structure ParserState where
  kind : StateKind
  unit : Ty
  type : Ty
  deriving DecidableEq, Repr

/-- `ctor::Ctor`. -/
inductive Ctor
  | bytes (value : String)
  | regExp (patterns : List String)
  deriving DecidableEq, Repr

inductive Expr (σ : Type)
  | assign (dst src : Expr σ)
  | conditional (cond true_ false_ : Expr σ)
  | conditionalThen (cond true_ : Expr σ)
  | constant (c : Constant)
  | tupleNil
  | tupleCons (head tail : Expr σ)
  | ctor (c : Ctor)
  | find (list cond found notFound : Expr σ)
  | function (id : String)
  | id (path : List String)
  | lambda (elem : String) (body : Expr σ)
  | listComprehension (output : Expr σ) (var : String) (input : Expr σ)
  | listComprehensionIf (output : Expr σ) (var : String) (input predicate : Expr σ)
  | memberAttribute (name : String)
  | unary (kind : Operator) (a : Expr σ)
  | binary (kind : Operator) (a b : Expr σ)
  | ternary (kind : Operator) (a b c : Expr σ)
  | parserState (state : σ)
  | transform (id : String)
  | type (t : Ty)
  | lambdaVariable (id : String)
  deriving DecidableEq, Repr

structure Attribute (σ : Type) where
  key : String
  value : Option (Expr σ)
  internal : Bool := false
  deriving DecidableEq, Repr

/-- What all fields but switches have, besides the members of their class. -/
structure FieldInfo (σ : Type) where
  id : String
  anonymous : Bool := false
  parsingOnly : Bool := false
  applicationAccessible : Bool := true
  type : Option Ty
  serializedType : Option Ty := none
  attributes : List (Attribute σ) := []
  condition : Option (Expr σ) := none
  sinks : List (Expr σ) := []
  deriving DecidableEq, Repr

/-- `constant::Constant` as the value of a field. -/
inductive FieldConstant (σ : Type)
  | simple (c : Constant)
  | tuple (elements : List (Expr σ))
  deriving DecidableEq, Repr

/-- The classes of `item::field`, switches apart. -/
inductive Field (σ : Type)
  | atomic (i : FieldInfo σ)
  | constant (i : FieldInfo σ) (c : FieldConstant σ) (constantType : Ty)
  | ctor (i : FieldInfo σ) (c : Ctor)
  | unknown (i : FieldInfo σ) (referencedId : List String) (parameters : List (Expr σ))
  | unit (i : FieldInfo σ) (parameters : List (Expr σ))
  | vector (i : FieldInfo σ) (length : Expr σ) (contained : Field σ)
  | list (i : FieldInfo σ) (contained : Field σ)
  deriving DecidableEq, Repr

structure Case (σ : Type) where
  expressions : List (Expr σ)
  items : List (Field σ)
  default_ : Bool := false
  deriving DecidableEq, Repr

structure Switch (σ : Type) where
  id : String
  anonymous : Bool := true
  parsingOnly : Bool := false
  applicationAccessible : Bool := true
  expression : Option (Expr σ)
  cases : List (Case σ)
  condition : Option (Expr σ) := none
  deriving DecidableEq, Repr

structure Variable (σ : Type) where
  id : String
  parsingOnly : Bool := false
  applicationAccessible : Bool := true
  type : Ty
  serializedType : Option Ty := none
  attributes : List (Attribute σ) := []
  defaultValue : Option (Expr σ) := none
  deriving DecidableEq, Repr

inductive Item (σ : Type)
  | field (f : Field σ)
  | switch (s : Switch σ)
  | var (v : Variable σ)
  | property (a : Attribute σ) (parsingOnly : Bool)
  deriving DecidableEq, Repr

structure UnitType (σ : Type) where
  id : String
  items : List (Item σ)
  deriving DecidableEq, Repr

/-! ## Expressions -/

namespace Expr

variable {σ τ υ : Type}

def map (f : σ → τ) : Expr σ → Expr τ
  | .assign a b => .assign (a.map f) (b.map f)
  | .conditional a b c => .conditional (a.map f) (b.map f) (c.map f)
  | .conditionalThen a b => .conditionalThen (a.map f) (b.map f)
  | .constant c => .constant c
  | .tupleNil => .tupleNil
  | .tupleCons a b => .tupleCons (a.map f) (b.map f)
  | .ctor c => .ctor c
  | .find a b c d => .find (a.map f) (b.map f) (c.map f) (d.map f)
  | .function x => .function x
  | .id p => .id p
  | .lambda x a => .lambda x (a.map f)
  | .listComprehension a x b => .listComprehension (a.map f) x (b.map f)
  | .listComprehensionIf a x b c => .listComprehensionIf (a.map f) x (b.map f) (c.map f)
  | .memberAttribute x => .memberAttribute x
  | .unary k a => .unary k (a.map f)
  | .binary k a b => .binary k (a.map f) (b.map f)
  | .ternary k a b c => .ternary k (a.map f) (b.map f) (c.map f)
  | .parserState s => .parserState (f s)
  | .transform x => .transform x
  | .type t => .type t
  | .lambdaVariable x => .lambdaVariable x

/-- All parser states in an expression. -/
def states : Expr σ → List σ
  | .assign a b | .conditionalThen a b | .tupleCons a b | .listComprehension a _ b | .binary _ a b =>
    a.states ++ b.states
  | .conditional a b c | .listComprehensionIf a _ b c | .ternary _ a b c =>
    a.states ++ b.states ++ c.states
  | .find a b c d => a.states ++ b.states ++ c.states ++ d.states
  | .lambda _ a | .unary _ a => a.states
  | .parserState s => [s]
  | .constant _ | .tupleNil | .ctor _ | .function _ | .id _ | .memberAttribute _ | .transform _
  | .type _ | .lambdaVariable _ => []

/-- The parser states that are not elements of a tuple. -/
def own : Expr σ → List σ
  | .assign a b | .conditionalThen a b | .listComprehension a _ b | .binary _ a b => a.own ++ b.own
  | .conditional a b c | .listComprehensionIf a _ b c | .ternary _ a b c => a.own ++ b.own ++ c.own
  | .find a b c d => a.own ++ b.own ++ c.own ++ d.own
  | .lambda _ a | .unary _ a => a.own
  | .parserState s => [s]
  | .constant _ | .tupleNil | .tupleCons _ _ | .ctor _ | .function _ | .id _ | .memberAttribute _
  | .transform _ | .type _ | .lambdaVariable _ => []

/-- The parser states in the elements of tuples. -/
def shared : Expr σ → List σ
  | .assign a b | .conditionalThen a b | .listComprehension a _ b | .binary _ a b =>
    a.shared ++ b.shared
  | .conditional a b c | .listComprehensionIf a _ b c | .ternary _ a b c =>
    a.shared ++ b.shared ++ c.shared
  | .find a b c d => a.shared ++ b.shared ++ c.shared ++ d.shared
  | .lambda _ a | .unary _ a => a.shared
  | .tupleCons a b => a.states ++ b.states
  | .parserState _ | .constant _ | .tupleNil | .ctor _ | .function _ | .id _ | .memberAttribute _
  | .transform _ | .type _ | .lambdaVariable _ => []

attribute [local simp] map states own shared

theorem map_congr {f g : σ → τ} {e : Expr σ} (h : ∀ s ∈ e.states, f s = g s) :
    e.map f = e.map g := by
  induction e with
  | _ => grind [map, states]

@[simp] theorem map_map (f : σ → τ) (g : τ → υ) (e : Expr σ) :
    (e.map f).map g = e.map (g ∘ f) := by
  induction e with
  | _ => simp_all

theorem mem_states {e : Expr σ} {s : σ} : s ∈ e.states ↔ s ∈ e.own ∨ s ∈ e.shared := by
  induction e with
  | _ => grind [states, own, shared]

@[simp] theorem states_map (f : σ → τ) (e : Expr σ) : (e.map f).states = e.states.map f := by
  induction e with
  | _ => simp_all

@[simp] theorem own_map (f : σ → τ) (e : Expr σ) : (e.map f).own = e.own.map f := by
  induction e with
  | _ => simp_all

@[simp] theorem shared_map (f : σ → τ) (e : Expr σ) : (e.map f).shared = e.shared.map f := by
  induction e with
  | _ => simp_all

end Expr

/-! ## Items

The expressions of an item (`exprs`) are divided into those that are children of the item's node
(`visited`) and those that a visitor of the item does not come to by itself (`hidden`): the condition,
which is no child, the cases of a switch, the field in a container and the elements of a constant. -/

section Items

variable {σ τ υ : Type}

def Attribute.map (f : σ → τ) (a : Attribute σ) : Attribute τ :=
  ⟨a.key, a.value.map (·.map f), a.internal⟩

def attributeValues (attributes : List (Attribute σ)) : List (Expr σ) :=
  attributes.filterMap (·.value)

namespace FieldInfo

def map (f : σ → τ) (i : FieldInfo σ) : FieldInfo τ :=
  ⟨i.id, i.anonymous, i.parsingOnly, i.applicationAccessible, i.type, i.serializedType,
    i.attributes.map (·.map f), i.condition.map (·.map f), i.sinks.map (·.map f)⟩

def visited (i : FieldInfo σ) : List (Expr σ) := attributeValues i.attributes ++ i.sinks

def hidden (i : FieldInfo σ) : List (Expr σ) := i.condition.toList

def exprs (i : FieldInfo σ) : List (Expr σ) := i.visited ++ i.hidden

end FieldInfo

namespace FieldConstant

def map (f : σ → τ) : FieldConstant σ → FieldConstant τ
  | .simple c => .simple c
  | .tuple es => .tuple (es.map (·.map f))

/-- The constant as an expression. -/
def toExpr : FieldConstant σ → Expr σ
  | .simple c => .constant c
  | .tuple es => es.foldr .tupleCons .tupleNil

end FieldConstant

namespace Field

def map (f : σ → τ) : Field σ → Field τ
  | .atomic i => .atomic (i.map f)
  | .constant i c t => .constant (i.map f) (c.map f) t
  | .ctor i c => .ctor (i.map f) c
  | .unknown i r ps => .unknown (i.map f) r (ps.map (·.map f))
  | .unit i ps => .unit (i.map f) (ps.map (·.map f))
  | .vector i n c => .vector (i.map f) (n.map f) (c.map f)
  | .list i c => .list (i.map f) (c.map f)

def info : Field σ → FieldInfo σ
  | .atomic i | .constant i _ _ | .ctor i _ | .unknown i _ _ | .unit i _ | .vector i _ _
  | .list i _ => i

def exprs : Field σ → List (Expr σ)
  | .atomic i | .ctor i _ => i.exprs
  | .constant i c _ => i.exprs ++ [c.toExpr]
  | .unknown i _ ps | .unit i ps => i.exprs ++ ps
  | .vector i n c => i.exprs ++ (n :: c.exprs)
  | .list i c => i.exprs ++ c.exprs

def visited : Field σ → List (Expr σ)
  | .atomic i | .constant i _ _ | .ctor i _ | .list i _ => i.visited
  | .unknown i _ ps | .unit i ps => i.visited ++ ps
  | .vector i n _ => i.visited ++ [n]

def hidden : Field σ → List (Expr σ)
  | .atomic i | .ctor i _ | .unknown i _ _ | .unit i _ => i.hidden
  | .constant i c _ => i.hidden ++ [c.toExpr]
  | .vector i _ c | .list i c => i.hidden ++ c.exprs

theorem exprs_perm (f : Field σ) : f.exprs.Perm (f.visited ++ f.hidden) := by
  cases f with
  | atomic i => rfl
  | constant i c t => simp [exprs, visited, hidden, FieldInfo.exprs]
  | ctor i c => rfl
  | unknown i r ps | unit i ps =>
    simp only [exprs, visited, hidden, FieldInfo.exprs, List.append_assoc]
    exact (List.perm_append_comm).append_left _
  | vector i n c =>
    simp only [exprs, visited, hidden, FieldInfo.exprs, List.append_assoc, List.singleton_append]
    exact (List.perm_middle).append_left _
  | list i c => simp [exprs, visited, hidden, FieldInfo.exprs]

end Field

def Case.map (f : σ → τ) (c : Case σ) : Case τ :=
  ⟨c.expressions.map (·.map f), c.items.map (·.map f), c.default_⟩

def Case.exprs (c : Case σ) : List (Expr σ) := c.expressions ++ c.items.flatMap Field.exprs

def Switch.map (f : σ → τ) (s : Switch σ) : Switch τ :=
  ⟨s.id, s.anonymous, s.parsingOnly, s.applicationAccessible, s.expression.map (·.map f),
    s.cases.map (·.map f), s.condition.map (·.map f)⟩

def Variable.map (f : σ → τ) (v : Variable σ) : Variable τ :=
  ⟨v.id, v.parsingOnly, v.applicationAccessible, v.type, v.serializedType,
    v.attributes.map (·.map f), v.defaultValue.map (·.map f)⟩

namespace Item

def map (f : σ → τ) : Item σ → Item τ
  | .field g => .field (g.map f)
  | .switch s => .switch (s.map f)
  | .var v => .var (v.map f)
  | .property a p => .property (a.map f) p

/-- The id of an item; a property is called after its key. -/
def id : Item σ → String
  | .field f => f.info.id
  | .switch s => s.id
  | .var v => v.id
  | .property a _ => "%" ++ a.key

def visited : Item σ → List (Expr σ)
  | .field f => f.visited
  | .switch s => s.expression.toList
  | .var v => attributeValues v.attributes ++ v.defaultValue.toList
  | .property a _ => a.value.toList

def hidden : Item σ → List (Expr σ)
  | .field f => f.hidden
  | .switch s => s.condition.toList ++ s.cases.flatMap Case.exprs
  | .var _ | .property _ _ => []

def exprs : Item σ → List (Expr σ)
  | .field f => f.exprs
  | .switch s => s.expression.toList ++ (s.condition.toList ++ s.cases.flatMap Case.exprs)
  | .var v => attributeValues v.attributes ++ v.defaultValue.toList
  | .property a _ => a.value.toList

theorem exprs_perm (i : Item σ) : i.exprs.Perm (i.visited ++ i.hidden) := by
  cases i with
  | field f => exact f.exprs_perm
  | switch s => rfl
  | var v => simp [exprs, visited, hidden]
  | property a p => simp [exprs, visited, hidden]

end Item

/-! ### Maps compose -/

@[simp] theorem Attribute.map_map (f : σ → τ) (g : τ → υ) (a : Attribute σ) :
    (a.map f).map g = a.map (g ∘ f) := by
  simp [Attribute.map, Function.comp_def]

@[simp] theorem FieldInfo.map_map (f : σ → τ) (g : τ → υ) (i : FieldInfo σ) :
    (i.map f).map g = i.map (g ∘ f) := by
  simp [FieldInfo.map, Function.comp_def]

@[simp] theorem FieldConstant.map_map (f : σ → τ) (g : τ → υ) (c : FieldConstant σ) :
    (c.map f).map g = c.map (g ∘ f) := by
  cases c with
  | simple c => rfl
  | tuple es => simp [FieldConstant.map, Function.comp_def]

@[simp] theorem Field.map_map (f : σ → τ) (g : τ → υ) (c : Field σ) :
    (c.map f).map g = c.map (g ∘ f) := by
  induction c with
  | _ => simp_all [Field.map, Function.comp_def]

@[simp] theorem Case.map_map (f : σ → τ) (g : τ → υ) (c : Case σ) :
    (c.map f).map g = c.map (g ∘ f) := by
  simp [Case.map, Function.comp_def]

@[simp] theorem Item.map_map (f : σ → τ) (g : τ → υ) (i : Item σ) :
    (i.map f).map g = i.map (g ∘ f) := by
  cases i with
  | field c => simp [Item.map]
  | switch s => simp [Item.map, Switch.map, Function.comp_def]
  | var v => simp [Item.map, Variable.map, Function.comp_def]
  | property a p => simp [Item.map]

end Items

end Diffingo.Ast
