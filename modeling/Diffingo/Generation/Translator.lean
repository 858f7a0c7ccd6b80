import Diffingo.Library.Infix
import Diffingo.Spec.Ast
import Diffingo.Spec.Visitor

/-!
# Translating expressions and types to text

`ExpressionTranslator` and `TypeTranslator` are visitors whose result is the C++ text of a node. A
node for which no result is set has a default text. For types the caller checks for it and throws;
for expressions nothing does, so the placeholder becomes part of the text around it.
-/

namespace Diffingo.Ast

open Spec Visitor Infix

namespace TypeTranslator

def kDefaultResult : String := "[[TYPE UNSUPPORTED]]"

/-- The result that the visit of a type sets. -/
def visit : Ty → Option String
  | .atomic .bool => some "bool"
  | .atomic .bytes => some "dr::unit::var_bytes"
  | .atomic .double => some "double"
  | .atomic (.enum t) => some t.id
  | .atomic (.integer w signed) =>
    some ((if signed then "" else "u") ++ "int" ++ toString w ++ "_t")
  | .atomic .string => some "dr::unit::var_string"
  | .atomic .void => some "void"
  | .sink => some "SINK"
  | .unit id => some id
  | .atomic .any | .atomic .caddr | .atomic .unknown | .list _ | .map _ _ | .set _ | .vector _
  | .tupleNil | .tupleCons _ _ | .bitfield _ | .bitset _ | .anonymousEnum _ => none

/-- `translate`; none if it fails. -/
def translate (t : Ty) : Option String :=
  let result := (visit t).getD kDefaultResult
  if result = kDefaultResult then none else some result

end TypeTranslator

/-- `Translator::type`. -/
def translateType (t : Ty) : Except Exception String :=
  match TypeTranslator.translate t with
  | some s => .ok s
  | none => .error .runtimeError

namespace ExpressionTranslator

def kDefaultResult : String := "[[EXPRESSION UNSUPPORTED]]"

/-- What `visit(Operator)` does for a kind that it supports: how many operands it reads and what it
makes of their texts. -/
def format : Operator → Option (Nat × (String → String → String → String))
  | .attribute => some (2, fun a b _ => "(" ++ (a ++ ("." ++ (b ++ ")"))))
  | .attributeAssign => some (3, fun a b c => "(" ++ (a ++ ("." ++ (b ++ (" = " ++ (c ++ ")"))))))
  | .call => some (2, fun a b _ => "(" ++ (a ++ (b ++ ")")))
  | .cast => some (2, fun a b _ => "((" ++ (b ++ (") " ++ (a ++ ")"))))
  | .decrPostfix => some (1, fun a _ _ => "(" ++ (a ++ "--)"))
  | .decrPrefix => some (1, fun a _ _ => "(--" ++ (a ++ ")"))
  | .equal => some (2, fun a b _ => "(" ++ (a ++ (" == " ++ (b ++ ")"))))
  | .greater => some (2, fun a b _ => "(" ++ (a ++ (" > " ++ (b ++ ")"))))
  | .incrPostfix => some (1, fun a _ _ => "(" ++ (a ++ "++)"))
  -- the source reads a second operand here
  | .incrPrefix => some (2, fun a _ _ => "(++" ++ (a ++ ")"))
  | .less => some (2, fun a b _ => "(" ++ (a ++ (" < " ++ (b ++ ")"))))
  | .logicalAnd => some (2, fun a b _ => "(" ++ (a ++ (" && " ++ (b ++ ")"))))
  | .logicalOr => some (2, fun a b _ => "(" ++ (a ++ (" || " ++ (b ++ ")"))))
  | .methodCall => some (3, fun a b c => "(" ++ (a ++ ("." ++ (b ++ (c ++ ")")))))
  | .minus => some (2, fun a b _ => "(" ++ (a ++ (" - " ++ (b ++ ")"))))
  | .not => some (1, fun a _ _ => "(!" ++ (a ++ ")"))
  | .plus => some (2, fun a b _ => "(" ++ (a ++ (" + " ++ (b ++ ")"))))
  | .bitAnd | .bitOr | .bitXor | .coerce | .deref | .div | .hasAttribute | .in_ | .index
  | .indexAssign | .minusAssign | .mod | .mult | .plusAssign | .power | .shiftLeft | .shiftRight
  | .signNeg | .signPos | .size => none

abbrev Process (α : Type) := Visitor String → Except Exception (α × Visitor String)

/-- The texts of the first `n` operands. Reading an operand that is not there is undefined. -/
def readOperands : Nat → List (Process String) → Process (List String)
  | 0, _ => fun v => .ok ([], v)
  | _ + 1, [] => fun _ => .error .undefined
  | n + 1, p :: ps => fun v =>
    p v >>= fun r => readOperands n ps r.2 >>= fun rs => .ok (r.1 :: rs.1, rs.2)

/-- A visit that processes operands and sets a text made of theirs. -/
def visitOperands (n : Nat) (format : String → String → String → String)
    (operands : List (Process String)) : Visit String := fun v =>
  readOperands n operands v >>= fun r =>
    .ok (r.2.setResult (format (r.1.getD 0 "") (r.1.getD 1 "") (r.1.getD 2 "")))

def visitOperator (kind : Operator) (operands : List (Process String)) : Visit String :=
  match format kind with
  | some (n, f) => visitOperands n f operands
  | none => fun v => .ok (v.log .error)

/-- `translator_->type` of a node in the text that is set as the result. -/
def setType (t : Ty) (format : String → String) : Visit String := fun v =>
  match translateType t with
  | .ok s => .ok (v.setResult (format s))
  | .error x => .error x

variable (formatDouble : String → String)

/-- The visits of constants other than tuples; `formatDouble` is C's text for a floating point
constant. -/
def visitConstant : Constant → Visit String
  | .bitset _ _ => fun v => .ok v
  | .bool b => fun v => .ok (v.setResult (if b then "true" else "false"))
  | .double literal => fun v => .ok (v.setResult (formatDouble literal))
  | .enum t label => setType (.atomic (.enum t)) fun s => s ++ ("::" ++ label)
  | .integer n => fun v => .ok (v.setResult (toString n))
  | .none => fun v => .ok (v.setResult "nullptr")
  | .string s => fun v => .ok (v.setResult ("\"" ++ (s ++ "\"")))

def visitParserState (s : ParserState) : Visit String :=
  match s.kind with
  | .self => setType s.type fun t => "SELF(" ++ (t ++ ")")
  | .dollarDollar => setType s.type fun t => "DOLLAR(" ++ (t ++ ")")
  | .parameter id => setType s.type fun t => "PARAM(" ++ (id ++ (", " ++ (t ++ ")")))

/-- The loop body of `visit(Tuple)`. -/
def appendElement (tmp e : String) : String := if tmp = "" then e else tmp ++ (", " ++ e)

mutual

/-- The visits of expressions. A constant is processed as a node of its own. -/
def visit : Expr ParserState → Visit String
  | .assign dst src => visitOperands 2 (fun dst src _ => "(" ++ (dst ++ (" = " ++ (src ++ ")"))))
    [processOne (visit dst), processOne (visit src)]
  | .conditional cond true_ false_ =>
    visitOperands 3 (fun c t f => "(" ++ (c ++ (" ? " ++ (t ++ (" : " ++ (f ++ ")"))))))
      [processOne (visit cond), processOne (visit true_), processOne (visit false_)]
  | .conditionalThen cond true_ =>
    visitOperands 2 (fun c t _ => "(" ++ (c ++ (" ? " ++ (t ++ " : 0)"))))
      [processOne (visit cond), processOne (visit true_)]
  | .constant c => fun v => processOne (visitConstant formatDouble c) v >>= fun r =>
    .ok (r.2.setResult r.1)
  | .tupleNil => fun v => processOne (fun v => .ok (v.setResult "()")) v >>= fun r =>
    .ok (r.2.setResult r.1)
  | .tupleCons head tail => fun v =>
    processOne (fun v =>
      (processOne (visit head) v >>= fun r => visitElements tail (appendElement "" r.1) r.2) >>=
        fun r => .ok (r.2.setResult ("(" ++ (r.1 ++ ")")))) v >>= fun r => .ok (r.2.setResult r.1)
  | .id path => fun v => .ok (v.setResult ("::".intercalate path))
  | .memberAttribute name => fun v => .ok (v.setResult name)
  | .unary kind a => visitOperator kind [processOne (visit a)]
  | .binary kind a b => visitOperator kind [processOne (visit a), processOne (visit b)]
  | .ternary kind a b c =>
    visitOperator kind [processOne (visit a), processOne (visit b), processOne (visit c)]
  | .parserState s => visitParserState s
  | .type t => setType t id
  | .ctor _ | .find _ _ _ _ | .function _ | .lambda _ _ | .listComprehension _ _ _
  | .listComprehensionIf _ _ _ _ | .transform _ | .lambdaVariable _ => fun v => .ok v

/-- The elements of a tuple after the first. -/
def visitElements : Expr ParserState → String → Process String
  | .tupleCons head tail => fun tmp v =>
    processOne (visit head) v >>= fun r => visitElements tail (appendElement tmp r.1) r.2
  | _ => fun tmp v => .ok (tmp, v)

end

theorem visit_constant (c : Constant) :
    visit formatDouble (.constant c) = fun v =>
      processOne (visitConstant formatDouble c) v >>= fun r => .ok (r.2.setResult r.1) := rfl

theorem visit_tupleNil :
    visit formatDouble .tupleNil = fun v =>
      processOne (fun v => .ok (v.setResult "()")) v >>= fun r => .ok (r.2.setResult r.1) := rfl

theorem visit_tupleCons (head tail : Expr ParserState) :
    visit formatDouble (.tupleCons head tail) = fun v =>
      processOne (fun v => visitElements formatDouble (.tupleCons head tail) "" v >>= fun r =>
        .ok (r.2.setResult ("(" ++ (r.1 ++ ")")))) v >>= fun r => .ok (r.2.setResult r.1) := rfl

theorem visit_unary (kind : Operator) (a : Expr ParserState) :
    visit formatDouble (.unary kind a) =
      visitOperator kind [processOne (visit formatDouble a)] := rfl

theorem visit_binary (kind : Operator) (a b : Expr ParserState) :
    visit formatDouble (.binary kind a b) =
      visitOperator kind [processOne (visit formatDouble a), processOne (visit formatDouble b)] :=
  rfl

theorem visit_ternary (kind : Operator) (a b c : Expr ParserState) :
    visit formatDouble (.ternary kind a b c) =
      visitOperator kind [processOne (visit formatDouble a), processOne (visit formatDouble b),
        processOne (visit formatDouble c)] := rfl

theorem visit_parserState (s : ParserState) :
    visit formatDouble (.parserState s) = visitParserState s := rfl

theorem visitElements_tupleNil (tmp : String) :
    visitElements formatDouble .tupleNil tmp = fun v => .ok (tmp, v) := rfl

theorem visitElements_tupleCons (head tail : Expr ParserState) (tmp : String) :
    visitElements formatDouble (.tupleCons head tail) tmp = fun v =>
      processOne (visit formatDouble head) v >>= fun r =>
        visitElements formatDouble tail (appendElement tmp r.1) r.2 := rfl

/-- `Translator::expression`. The translator is used for many expressions and keeps its state. -/
def expression (e : Expr ParserState) : Process String := processOne (visit formatDouble e)

/-! ## Expressions of the grammar -/

/-- The number of operands that the grammar gives to an operator. -/
def arity : Operator → Option Nat
  | .decrPostfix | .decrPrefix | .deref | .incrPostfix | .incrPrefix | .not | .size => some 1
  | .attributeAssign | .indexAssign | .methodCall => some 3
  | .coerce | .signNeg | .signPos => none
  | .attribute | .bitAnd | .bitOr | .bitXor | .call | .cast | .div | .equal | .greater
  | .hasAttribute | .in_ | .index | .less | .logicalAnd | .logicalOr | .minus | .minusAssign | .mod
  | .mult | .plus | .plusAssign | .power | .shiftLeft | .shiftRight => some 2

/-- The translator reads as many operands as there are, except for the prefix increment. -/
theorem reads_eq_arity {k : Operator} {m n : Nat} {f : String → String → String → String}
    (hf : format k = some (n, f)) (hk : arity k = some m) :
    n = m ∨ k = .incrPrefix ∧ n = 2 ∧ m = 1 := by
  cases k <;> simp_all [format, arity]

def isTuple {σ : Type} : Expr σ → Bool
  | .tupleNil | .tupleCons _ _ => true
  | _ => false

/-- Operators have the operands that the grammar gives them; the arguments of a call are a tuple. -/
def Grammatical {σ : Type} : Expr σ → Prop
  | .assign a b | .conditionalThen a b | .listComprehension a _ b => Grammatical a ∧ Grammatical b
  | .tupleCons a b => Grammatical a ∧ Grammatical b ∧ isTuple b = true
  | .conditional a b c | .listComprehensionIf a _ b c =>
    Grammatical a ∧ Grammatical b ∧ Grammatical c
  | .find a b c d => Grammatical a ∧ Grammatical b ∧ Grammatical c ∧ Grammatical d
  | .lambda _ a => Grammatical a
  | .unary k a => arity k = some 1 ∧ Grammatical a
  | .binary k a b =>
    arity k = some 2 ∧ (k = .call → isTuple b = true) ∧ Grammatical a ∧ Grammatical b
  | .ternary k a b c => arity k = some 3 ∧ (k = .methodCall → isTuple c = true) ∧
    Grammatical a ∧ Grammatical b ∧ Grammatical c
  | .constant _ | .tupleNil | .ctor _ | .function _ | .id _ | .memberAttribute _ | .parserState _
  | .transform _ | .type _ | .lambdaVariable _ => True

/-- All subexpressions are ones that the translator has a text for. -/
def supported {σ : Type} : Expr σ → Bool
  | .assign a b | .conditionalThen a b | .tupleCons a b => supported a && supported b
  | .conditional a b c => supported a && supported b && supported c
  | .unary k a => (format k).isSome && supported a
  | .binary k a b => (format k).isSome && supported a && supported b
  | .ternary k a b c => (format k).isSome && supported a && supported b && supported c
  | .constant (.bitset _ _) => false
  | .constant _ | .tupleNil | .id _ | .memberAttribute _ | .parserState _ | .type _ => true
  | .ctor _ | .find _ _ _ _ | .function _ | .lambda _ _ | .listComprehension _ _ _
  | .listComprehensionIf _ _ _ _ | .transform _ | .lambdaVariable _ => false

theorem supported_unary {σ : Type} (kind : Operator) (a : Expr σ) :
    supported (.unary kind a) = ((format kind).isSome && supported a) := rfl

theorem supported_binary {σ : Type} (kind : Operator) (a b : Expr σ) :
    supported (.binary kind a b) = ((format kind).isSome && supported a && supported b) := rfl

theorem supported_ternary {σ : Type} (kind : Operator) (a b c : Expr σ) :
    supported (.ternary kind a b c) =
      ((format kind).isSome && supported a && supported b && supported c) := rfl

def typeTexts (t : Ty) : List String := (TypeTranslator.translate t).toList

/-- The texts of the leaves. -/
def texts : Expr ParserState → List String
  | .assign a b | .conditionalThen a b | .tupleCons a b | .binary _ a b => texts a ++ texts b
  | .conditional a b c | .ternary _ a b c => texts a ++ texts b ++ texts c
  | .unary _ a => texts a
  | .constant (.double literal) => [formatDouble literal]
  | .constant (.enum t label) => typeTexts (.atomic (.enum t)) ++ [label]
  | .constant (.integer n) => [toString n]
  | .constant (.string s) => [s]
  | .id path => ["::".intercalate path]
  | .memberAttribute name => [name]
  | .parserState s =>
    match s.kind with
    | .parameter id => id :: typeTexts s.type
    | .self | .dollarDollar => typeTexts s.type
  | .type t => typeTexts t
  | .constant _ | .tupleNil | .ctor _ | .find _ _ _ _ | .function _ | .lambda _ _
  | .listComprehension _ _ _ | .listComprehensionIf _ _ _ _ | .transform _ | .lambdaVariable _ => []

theorem texts_parserState (s : ParserState) :
    texts formatDouble (.parserState s) =
      match s.kind with
      | .parameter id => id :: typeTexts s.type
      | .self | .dollarDollar => typeTexts s.type := rfl

/-- The exception when the first `n` of the operands are read, given those of the operands. -/
def stopsReading : Nat → List (Option Exception) → Option Exception
  | 0, _ => none
  | _ + 1, [] => some .undefined
  | n + 1, x :: xs => x.or (stopsReading n xs)

def typeStops (t : Ty) : Option Exception :=
  if (TypeTranslator.translate t).isSome then none else some .runtimeError

def operatorStops (kind : Operator) (operands : List (Option Exception)) : Option Exception :=
  (format kind).bind fun r => stopsReading r.1 operands

/-- The exception that ends the translation: the first one of a type without a text or of an operand
that is missing, in the order in which the translator comes to them. -/
def stops : Expr ParserState → Option Exception
  | .assign a b | .conditionalThen a b | .tupleCons a b => (stops a).or (stops b)
  | .conditional a b c => (stops a).or ((stops b).or (stops c))
  | .unary k a => operatorStops k [stops a]
  | .binary k a b => operatorStops k [stops a, stops b]
  | .ternary k a b c => operatorStops k [stops a, stops b, stops c]
  | .constant (.enum t _) => typeStops (.atomic (.enum t))
  | .parserState s => typeStops s.type
  | .type t => typeStops t
  | .constant _ | .tupleNil | .id _ | .memberAttribute _ | .ctor _ | .find _ _ _ _ | .function _
  | .lambda _ _ | .listComprehension _ _ _ | .listComprehensionIf _ _ _ _ | .transform _
  | .lambdaVariable _ => none

theorem stops_tupleCons (a b : Expr ParserState) :
    stops (.tupleCons a b) = (stops a).or (stops b) := rfl

theorem stops_unary (kind : Operator) (a : Expr ParserState) :
    stops (.unary kind a) = operatorStops kind [stops a] := rfl

theorem stops_binary (kind : Operator) (a b : Expr ParserState) :
    stops (.binary kind a b) = operatorStops kind [stops a, stops b] := rfl

theorem stops_ternary (kind : Operator) (a b c : Expr ParserState) :
    stops (.ternary kind a b c) = operatorStops kind [stops a, stops b, stops c] := rfl

/-! ## Occurrences of the placeholder -/

/-- The placeholder occurs in the text. -/
def Placeholder (t : String) : Prop := kDefaultResult.toList <:+: t.toList

instance (t : String) : Decidable (Placeholder t) := inferInstanceAs (Decidable (_ <:+: _))

/-- A part of the text that neither ends nor begins a placeholder and is not within one. -/
def Separates (s : String) : Prop := '[' ∉ s.toList ∧ ']' ∉ s.toList ∧
  ∃ c ∈ s.toList, c ∉ kDefaultResult.toList

instance (s : String) : Decidable (Separates s) :=
  -- not the search through all characters
  haveI : Decidable (∃ c ∈ s.toList, c ∉ kDefaultResult.toList) := List.decidableBEx _ _
  inferInstanceAs (Decidable (_ ∧ _ ∧ _))

/-- The texts that the translator puts around and between those of subexpressions. -/
theorem separates_texts :
    Separates "(" ∧ Separates "((" ∧ Separates "(!" ∧ Separates "(++" ∧ Separates "(--" ∧
    Separates ")" ∧ Separates ") " ∧ Separates "++)" ∧ Separates "--)" ∧ Separates "." ∧
    Separates ", " ∧ Separates "::" ∧ Separates " = " ∧ Separates " == " ∧ Separates " > " ∧
    Separates " < " ∧ Separates " && " ∧ Separates " || " ∧ Separates " - " ∧ Separates " + " ∧
    Separates " ? " ∧ Separates " : " ∧ Separates " : 0)" ∧ Separates "\"" ∧ Separates "SELF(" ∧
    Separates "DOLLAR(" ∧ Separates "PARAM(" := by
  simp [Separates, kDefaultResult]

theorem placeholder_letters : kDefaultResult.toList =
    '[' :: "[EXPRESSION UNSUPPORTED]".toList ++ [']'] := by
  decide

theorem placeholder_separates_append {s t : String} (hs : Separates s) :
    Placeholder (s ++ t) ↔ Placeholder t := by
  unfold Placeholder
  rw [String.toList_append, placeholder_letters]
  exact infix_append_left hs.1

theorem placeholder_append_separates {s t : String} (hs : Separates s) :
    Placeholder (t ++ s) ↔ Placeholder t := by
  unfold Placeholder
  rw [String.toList_append, placeholder_letters]
  exact infix_append_right hs.2.1

theorem placeholder_append_append {s t u : String} (hs : Separates s) :
    Placeholder (t ++ (s ++ u)) ↔ Placeholder t ∨ Placeholder u := by
  obtain ⟨hleft, hright, c, hc, hnot⟩ := hs
  unfold Placeholder
  rw [String.toList_append, String.toList_append]
  rw [placeholder_letters] at hnot ⊢
  exact infix_append_append hleft hright hc hnot

theorem placeholder_call {t u : String} (hu : ∃ w, u = "(" ++ w) :
    Placeholder (t ++ (u ++ ")")) ↔ Placeholder t ∨ Placeholder u := by
  obtain ⟨w, rfl⟩ := hu
  rw [String.append_assoc, placeholder_append_append (by simp only [separates_texts]),
    placeholder_append_separates (by simp only [separates_texts]),
    placeholder_separates_append (by simp only [separates_texts])]

/-- The format of an operator brings no placeholder of its own into the text. -/
theorem placeholder_format_one {k : Operator} {f : String → String → String → String}
    (hf : format k = some (1, f)) (a : String) : Placeholder (f a "" "") ↔ Placeholder a := by
  cases k <;> simp [format] at hf <;> subst hf <;>
    simp only [placeholder_separates_append, placeholder_append_separates, separates_texts]

theorem placeholder_format_two {k : Operator} {f : String → String → String → String}
    (hf : format k = some (2, f)) (hk : k ≠ .incrPrefix) {a b : String}
    (hb : k = .call → ∃ w, b = "(" ++ w) :
    Placeholder (f a b "") ↔ Placeholder a ∨ Placeholder b := by
  cases k <;> simp [format] at hf hk <;> subst hf
  case call =>
    rw [placeholder_separates_append (by simp only [separates_texts]), placeholder_call (hb rfl)]
  case cast =>
    simp only [placeholder_separates_append, placeholder_append_separates,
      placeholder_append_append, separates_texts]
    exact or_comm
  all_goals
    simp only [placeholder_separates_append, placeholder_append_separates,
      placeholder_append_append, separates_texts]

theorem placeholder_format_three {k : Operator} {f : String → String → String → String}
    (hf : format k = some (3, f)) {a b c : String} (hc : k = .methodCall → ∃ w, c = "(" ++ w) :
    Placeholder (f a b c) ↔ Placeholder a ∨ Placeholder b ∨ Placeholder c := by
  cases k <;> simp [format] at hf <;> subst hf
  case methodCall =>
    simp only [placeholder_separates_append, placeholder_append_append,
      placeholder_call (hc rfl), separates_texts]
  case attributeAssign =>
    simp only [placeholder_separates_append, placeholder_append_separates,
      placeholder_append_append, separates_texts]

/-! ## What a translation gives -/

/-- There is an unsupported subexpression, or the placeholder is in the text of a leaf. -/
def Unclean (e : Expr ParserState) : Prop :=
  supported e = false ∨ ∃ t ∈ texts formatDouble e, Placeholder t

/-- What the text of an expression looks like. -/
structure Shows (e : Expr ParserState) (t : String) : Prop where
  placeholder : Placeholder t ↔ Unclean formatDouble e
  tuple : isTuple e = true → ∃ u, t = "(" ++ u

/-- The outcome of translating the expression. -/
def Describes (e : Expr ParserState) (outcome : Except Exception String) : Prop :=
  match stops e with
  | some x => outcome = .error x
  | none => ∃ t, outcome = .ok t ∧ Shows formatDouble e t

def Processes (e : Expr ParserState) (p : Process String) : Prop :=
  ∃ outcome, Gives kDefaultResult p outcome ∧ Describes formatDouble e outcome

variable {formatDouble}

theorem gives_readOperands {es : List (Expr ParserState)} {ps : List (Process String)}
    (h : List.Forall₂ (Processes formatDouble) es ps) (n : Nat) :
    ∃ outcome, Gives kDefaultResult (readOperands n ps) outcome ∧
      match stopsReading n (es.map stops) with
      | some x => outcome = .error x
      | none => ∃ ts, outcome = .ok ts ∧ List.Forall₂ (Shows formatDouble) (es.take n) ts := by
  induction h generalizing n with
  | nil =>
    cases n with
    | zero => exact ⟨_, gives_pure [], [], rfl, .nil⟩
    | succ n => exact ⟨.error .undefined, fun v _ => rfl, rfl⟩
  | @cons e p es ps hp _ ih =>
    cases n with
    | zero => exact ⟨_, gives_pure [], [], rfl, .nil⟩
    | succ n =>
      obtain ⟨outcome, hgives, hdescribes⟩ := hp
      obtain ⟨outcomes, hrest, hmatch⟩ := ih n
      simp only [List.map_cons, stopsReading]
      unfold Describes at hdescribes
      cases hstops : stops e with
      | some x =>
        simp only [hstops] at hdescribes
        subst hdescribes
        exact ⟨.error x, hgives.bind_error _, rfl⟩
      | none =>
        simp only [hstops] at hdescribes
        obtain ⟨t, rfl, ht⟩ := hdescribes
        let next (t : String) : Process (List String) := fun v =>
          readOperands n ps v >>= fun rs => .ok (t :: rs.1, rs.2)
        cases hreading : stopsReading n (es.map stops) with
        | some x =>
          simp only [hreading] at hmatch
          subst hmatch
          exact ⟨.error x, hgives.bind_ok next (hrest.bind_error _), rfl⟩
        | none =>
          simp only [hreading] at hmatch
          obtain ⟨ts, rfl, hts⟩ := hmatch
          exact ⟨_, hgives.bind_ok next
            (hrest.bind_ok (fun ts v => .ok (t :: ts, v)) (gives_pure _)),
            t :: ts, rfl, .cons ht hts⟩

/-- An expression that is translated by reading operands. -/
theorem processes_visitOperands {e : Expr ParserState} {es : List (Expr ParserState)}
    {ps : List (Process String)} (h : List.Forall₂ (Processes formatDouble) es ps) {n : Nat}
    {f : String → String → String → String} (hstops : stops e = stopsReading n (es.map stops))
    (hshows : ∀ ts, List.Forall₂ (Shows formatDouble) (es.take n) ts → stops e = none →
      Shows formatDouble e (f (ts.getD 0 "") (ts.getD 1 "") (ts.getD 2 ""))) :
    Processes formatDouble e (processOne (visitOperands n f ps)) := by
  obtain ⟨outcome, hgives, hmatch⟩ := gives_readOperands h n
  refine ⟨_, (hgives.sets fun ts => f (ts.getD 0 "") (ts.getD 1 "") (ts.getD 2 "")).processOne, ?_⟩
  unfold Describes
  rw [← hstops] at hmatch
  cases hreading : stops e with
  | some x =>
    simp only [hreading] at hmatch
    subst hmatch
    rfl
  | none =>
    simp only [hreading] at hmatch
    obtain ⟨ts, rfl, hts⟩ := hmatch
    exact ⟨_, rfl, hshows ts hts hreading⟩

/-- A visit that processes another node and passes on its result. -/
theorem Processes.nested {e : Expr ParserState} {p : Process String}
    (h : Processes formatDouble e p) :
    Processes formatDouble e (processOne fun v => p v >>= fun r => .ok (r.2.setResult r.1)) := by
  obtain ⟨outcome, hgives, hdescribes⟩ := h
  refine ⟨outcome, ?_, hdescribes⟩
  have hnested := (hgives.sets id).processOne
  cases outcome <;> exact hnested

theorem processes_setResult {e : Expr ParserState} {t : String} (hstops : stops e = none)
    (hshows : Shows formatDouble e t) :
    Processes formatDouble e (processOne fun v => .ok (v.setResult t)) := by
  refine ⟨_, (sets_setResult t).processOne, ?_⟩
  unfold Describes
  rw [hstops]
  exact ⟨t, rfl, hshows⟩

/-- Without a result the default text is taken. -/
theorem processes_unsupported {e : Expr ParserState} {visit : Visit String}
    (hvisit : Sets kDefaultResult visit (.ok none)) (hstops : stops e = none)
    (hsupported : supported e = false) (htuple : isTuple e = false) :
    Processes formatDouble e (processOne visit) := by
  refine ⟨_, hvisit.processOne, ?_⟩
  unfold Describes
  rw [hstops]
  refine ⟨kDefaultResult, rfl, ⟨fun _ => .inl hsupported, fun _ => List.infix_rfl⟩, fun h => ?_⟩
  rw [htuple] at h
  cases h

theorem sets_setType (t : Ty) (f : String → String) :
    Sets kDefaultResult (setType t f) ((translateType t).map fun s => some (f s)) := by
  intro v _
  unfold setType
  cases translateType t with
  | error x => rfl
  | ok s => exact ⟨v.errors, rfl⟩

theorem processes_setType {e : Expr ParserState} {t : Ty} {f : String → String}
    (hstops : stops e = typeStops t)
    (hshows : ∀ s, TypeTranslator.translate t = some s → Shows formatDouble e (f s)) :
    Processes formatDouble e (processOne (setType t f)) := by
  refine ⟨_, (sets_setType t f).processOne, ?_⟩
  unfold Describes
  rw [hstops, typeStops, translateType]
  cases htype : TypeTranslator.translate t with
  | none => rfl
  | some s => exact ⟨f s, rfl, hshows s htype⟩

theorem not_placeholder_empty : ¬ Placeholder "" := by decide

theorem placeholder_appendElement (tmp e : String) :
    Placeholder (appendElement tmp e) ↔ Placeholder tmp ∨ Placeholder e := by
  unfold appendElement
  split_ifs with htmp
  · simp [htmp, not_placeholder_empty]
  · exact placeholder_append_append (by simp only [separates_texts])

/-- What the loop over the elements of a tuple gives. -/
def Elements (formatDouble : String → String) (e : Expr ParserState) : Prop :=
  ∀ tmp, ∃ outcome, Gives kDefaultResult (visitElements formatDouble e tmp) outcome ∧
    match stops e with
    | some x => outcome = .error x
    | none => ∃ t, outcome = .ok t ∧ (Placeholder t ↔ Placeholder tmp ∨ Unclean formatDouble e)

/-- A supported leaf is clean unless the placeholder is in one of its texts. -/
theorem unclean_leaf {e : Expr ParserState} (ts : List String) (hsupported : supported e = true)
    (htexts : texts formatDouble e = ts) :
    Unclean formatDouble e ↔ ∃ t ∈ ts, Placeholder t := by
  simp [Unclean, hsupported, htexts]

theorem unclean_text {e : Expr ParserState} {t : String} (hsupported : supported e = true)
    (htexts : texts formatDouble e = [t]) : Placeholder t ↔ Unclean formatDouble e := by
  simp [unclean_leaf [t] hsupported htexts]

theorem unclean_one {e a : Expr ParserState} (hsupported : supported e = supported a)
    (htexts : texts formatDouble e = texts formatDouble a) :
    Unclean formatDouble e ↔ Unclean formatDouble a := by
  simp only [Unclean, hsupported, htexts]

theorem unclean_two {e a b : Expr ParserState}
    (hsupported : supported e = (supported a && supported b))
    (htexts : texts formatDouble e = texts formatDouble a ++ texts formatDouble b) :
    Unclean formatDouble e ↔ Unclean formatDouble a ∨ Unclean formatDouble b := by
  simp only [Unclean, hsupported, htexts, Bool.and_eq_false_iff, List.mem_append, or_and_right,
    exists_or]
  exact or_or_or_comm

theorem elements_tupleNil : Elements formatDouble .tupleNil := by
  intro tmp
  rw [visitElements_tupleNil]
  refine ⟨_, gives_pure tmp, tmp, rfl, ?_⟩
  simp [unclean_leaf (e := .tupleNil) [] rfl rfl]

theorem elements_tupleCons {a b : Expr ParserState}
    (ha : Processes formatDouble a (processOne (visit formatDouble a)))
    (hb : Elements formatDouble b) : Elements formatDouble (.tupleCons a b) := by
  intro tmp
  rw [visitElements_tupleCons]
  obtain ⟨outcome, hgives, hdescribes⟩ := ha
  unfold Describes at hdescribes
  rw [stops_tupleCons]
  cases hstops : stops a with
  | some x =>
    simp only [hstops] at hdescribes
    subst hdescribes
    exact ⟨.error x, hgives.bind_error _, rfl⟩
  | none =>
    simp only [hstops] at hdescribes
    obtain ⟨t, rfl, ht⟩ := hdescribes
    obtain ⟨rest, hrest, hmatch⟩ := hb (appendElement tmp t)
    refine ⟨rest, ?_, ?_⟩
    · exact hgives.bind_ok (fun s => visitElements formatDouble b (appendElement tmp s)) hrest
    · simp only [Option.none_or]
      cases hb : stops b with
      | some x => simpa only [hb] using hmatch
      | none =>
        simp only [hb] at hmatch
        obtain ⟨u, rfl, hu⟩ := hmatch
        refine ⟨u, rfl, ?_⟩
        rw [hu, placeholder_appendElement, ht.placeholder,
          unclean_two (e := .tupleCons a b) rfl rfl, or_assoc]

theorem processes_tupleNil :
    Processes formatDouble .tupleNil (processOne (visit formatDouble .tupleNil)) := by
  rw [visit_tupleNil]
  refine (processes_setResult rfl ⟨?_, fun _ => ⟨")", rfl⟩⟩).nested
  rw [unclean_leaf [] rfl rfl]
  decide

theorem processes_tupleCons {a b : Expr ParserState}
    (h : Elements formatDouble (.tupleCons a b)) :
    Processes formatDouble (.tupleCons a b) (processOne (visit formatDouble (.tupleCons a b))) := by
  obtain ⟨outcome, hgives, hmatch⟩ := h ""
  rw [visit_tupleCons]
  refine Processes.nested ⟨_, (hgives.sets fun t => "(" ++ (t ++ ")")).processOne, ?_⟩
  unfold Describes
  cases hstops : stops (.tupleCons a b) with
  | some x =>
    simp only [hstops] at hmatch
    subst hmatch
    rfl
  | none =>
    simp only [hstops] at hmatch
    obtain ⟨t, rfl, ht⟩ := hmatch
    refine ⟨"(" ++ (t ++ ")"), rfl, ⟨?_, fun _ => ⟨t ++ ")", rfl⟩⟩⟩
    simp only [placeholder_separates_append, placeholder_append_separates, separates_texts]
    simpa [not_placeholder_empty] using ht

theorem sets_log : Sets kDefaultResult (fun v => .ok (v.log .error)) (.ok none) :=
  fun v _ => ⟨v.errors + 1, rfl⟩

theorem sets_nothing : Sets kDefaultResult (fun v => .ok v) (.ok none) := fun v _ => ⟨v.errors, rfl⟩

section Operands

variable {e a b c : Expr ParserState} {f : String → String → String → String} {ts : List String}

/-- An expression that is translated by reading two operands. -/
theorem processes_two {p q : Process String} (ha : Processes formatDouble a p)
    (hb : Processes formatDouble b q) (hstops : stops e = (stops a).or (stops b))
    (hunclean : Unclean formatDouble e ↔ Unclean formatDouble a ∨ Unclean formatDouble b)
    (htuple : isTuple e = false)
    (hf : ∀ t u, (isTuple b = true → ∃ w, u = "(" ++ w) →
      (Placeholder (f t u "") ↔ Placeholder t ∨ Placeholder u)) :
    Processes formatDouble e (processOne (visitOperands 2 f [p, q])) := by
  refine processes_visitOperands (.cons ha (.cons hb .nil)) (by simp [hstops, stopsReading]) ?_
  rintro ts hts -
  obtain _ | ⟨ht, _ | ⟨hu, _ | _⟩⟩ := hts
  refine ⟨?_, fun h => by rw [htuple] at h; cases h⟩
  rw [hunclean, ← ht.placeholder, ← hu.placeholder]
  exact hf _ _ hu.tuple

theorem processes_three {p q r : Process String} (ha : Processes formatDouble a p)
    (hb : Processes formatDouble b q) (hc : Processes formatDouble c r)
    (hstops : stops e = (stops a).or ((stops b).or (stops c)))
    (hunclean : Unclean formatDouble e ↔
      Unclean formatDouble a ∨ Unclean formatDouble b ∨ Unclean formatDouble c)
    (htuple : isTuple e = false)
    (hf : ∀ t u v, (isTuple c = true → ∃ w, v = "(" ++ w) →
      (Placeholder (f t u v) ↔ Placeholder t ∨ Placeholder u ∨ Placeholder v)) :
    Processes formatDouble e (processOne (visitOperands 3 f [p, q, r])) := by
  refine processes_visitOperands (.cons ha (.cons hb (.cons hc .nil)))
    (by simp [hstops, stopsReading]) ?_
  rintro ts hts -
  obtain _ | ⟨ht, _ | ⟨hu, _ | ⟨hv, _ | _⟩⟩⟩ := hts
  refine ⟨?_, fun h => by rw [htuple] at h; cases h⟩
  rw [hunclean, ← ht.placeholder, ← hu.placeholder, ← hv.placeholder]
  exact hf _ _ _ hv.tuple

theorem processes_unary {k : Operator} (hk : arity k = some 1)
    (ha : Processes formatDouble a (processOne (visit formatDouble a))) :
    Processes formatDouble (.unary k a) (processOne (visit formatDouble (.unary k a))) := by
  rw [visit_unary, visitOperator]
  cases hf : format k with
  | none =>
    exact processes_unsupported sets_log (by simp [stops_unary, operatorStops, hf])
      (by simp [supported_unary, hf]) rfl
  | some r =>
    obtain ⟨n, f⟩ := r
    refine processes_visitOperands (.cons ha .nil) (by simp [stops_unary, operatorStops, hf]) ?_
    rcases reads_eq_arity hf hk with rfl | ⟨-, rfl, -⟩
    · rintro ts hts -
      obtain _ | ⟨ht, _ | _⟩ := hts
      refine ⟨?_, fun h => by cases h⟩
      simp only [List.getD_cons_zero, List.getD_cons_succ, List.getD_nil]
      have hsupported : supported (.unary k a) = supported a := by simp [supported_unary, hf]
      rw [placeholder_format_one hf, ht.placeholder, unclean_one hsupported rfl]
    · -- reading the second operand of a prefix increment does not return
      intro ts _ hstops
      simp [stops_unary, operatorStops, hf, stopsReading] at hstops

theorem processes_binary {k : Operator} (hk : arity k = some 2)
    (hcall : k = .call → isTuple b = true)
    (ha : Processes formatDouble a (processOne (visit formatDouble a)))
    (hb : Processes formatDouble b (processOne (visit formatDouble b))) :
    Processes formatDouble (.binary k a b) (processOne (visit formatDouble (.binary k a b))) := by
  rw [visit_binary, visitOperator]
  cases hf : format k with
  | none =>
    exact processes_unsupported sets_log (by simp [stops_binary, operatorStops, hf])
      (by simp [supported_binary, hf]) rfl
  | some r =>
    obtain ⟨n, f⟩ := r
    rcases reads_eq_arity hf hk with rfl | ⟨-, -, h⟩
    · have hincr : k ≠ .incrPrefix := by
        rintro rfl
        cases hk
      exact processes_two ha hb (by simp [stops_binary, operatorStops, hf, stopsReading])
        (unclean_two (by simp [supported_binary, hf]) rfl) rfl
        fun t u hu => placeholder_format_two hf hincr fun h => hu (hcall h)
    · cases h

theorem unclean_three (hsupported : supported e = (supported a && supported b && supported c))
    (htexts : texts formatDouble e =
      texts formatDouble a ++ texts formatDouble b ++ texts formatDouble c) :
    Unclean formatDouble e ↔
      Unclean formatDouble a ∨ Unclean formatDouble b ∨ Unclean formatDouble c := by
  simp only [Unclean, hsupported, htexts, Bool.and_eq_false_iff, List.mem_append, or_and_right,
    exists_or, or_assoc]
  constructor <;> (rintro (h | h | h | h | h | h) <;> simp [h])

theorem processes_ternary {k : Operator} (hk : arity k = some 3)
    (hcall : k = .methodCall → isTuple c = true)
    (ha : Processes formatDouble a (processOne (visit formatDouble a)))
    (hb : Processes formatDouble b (processOne (visit formatDouble b)))
    (hc : Processes formatDouble c (processOne (visit formatDouble c))) :
    Processes formatDouble (.ternary k a b c)
      (processOne (visit formatDouble (.ternary k a b c))) := by
  rw [visit_ternary, visitOperator]
  cases hf : format k with
  | none =>
    exact processes_unsupported sets_log (by simp [stops_ternary, operatorStops, hf])
      (by simp [supported_ternary, hf]) rfl
  | some r =>
    obtain ⟨n, f⟩ := r
    rcases reads_eq_arity hf hk with rfl | ⟨-, -, h⟩
    · exact processes_three ha hb hc (by simp [stops_ternary, operatorStops, hf, stopsReading])
        (unclean_three (by simp [supported_ternary, hf]) rfl) rfl
        fun t u v hv => placeholder_format_three hf fun h => hv (hcall h)
    · cases h

end Operands

theorem processes_constant (c : Constant) :
    Processes formatDouble (.constant c) (processOne (visit formatDouble (.constant c))) := by
  rw [visit_constant]
  refine Processes.nested ?_
  cases c with
  | bitset t bits => exact processes_unsupported sets_nothing rfl rfl rfl
  | bool b =>
    refine processes_setResult rfl ⟨?_, fun h => by cases h⟩
    rw [unclean_leaf [] rfl rfl]
    cases b <;> decide
  | double literal =>
    exact processes_setResult rfl ⟨unclean_text rfl rfl, fun h => by cases h⟩
  | enum t label =>
    refine processes_setType rfl fun s hs => ⟨?_, fun h => by cases h⟩
    rw [placeholder_append_append (by simp only [separates_texts])]
    rw [unclean_leaf (typeTexts (.atomic (.enum t)) ++ [label]) rfl rfl]
    simp [typeTexts, hs]
  | integer n =>
    exact processes_setResult rfl ⟨unclean_text rfl rfl, fun h => by cases h⟩
  | none =>
    refine processes_setResult rfl ⟨?_, fun h => by cases h⟩
    rw [unclean_leaf [] rfl rfl]
    decide
  | string s =>
    refine processes_setResult rfl ⟨?_, fun h => by cases h⟩
    rw [placeholder_separates_append (by simp only [separates_texts]),
      placeholder_append_separates (by simp only [separates_texts])]
    exact unclean_text rfl rfl

theorem processes_parserState (s : ParserState) :
    Processes formatDouble (.parserState s) (processOne (visit formatDouble (.parserState s))) := by
  rw [visit_parserState, visitParserState]
  cases hkind : s.kind with
  | self | dollarDollar =>
    refine processes_setType rfl fun t ht => ⟨?_, fun h => by cases h⟩
    rw [placeholder_separates_append (by simp only [separates_texts]),
      placeholder_append_separates (by simp only [separates_texts]),
      unclean_leaf (typeTexts s.type) rfl (by rw [texts_parserState, hkind])]
    simp [typeTexts, ht]
  | parameter id =>
    refine processes_setType rfl fun t ht => ⟨?_, fun h => by cases h⟩
    rw [placeholder_separates_append (by simp only [separates_texts]),
      placeholder_append_append (by simp only [separates_texts]),
      placeholder_append_separates (by simp only [separates_texts]),
      unclean_leaf (id :: typeTexts s.type) rfl (by rw [texts_parserState, hkind])]
    simp [typeTexts, ht]

/-- The translation of an expression of the grammar ends with the exception that comes first, or it
gives a text with a placeholder exactly if there is an unsupported subexpression or one in a
leaf. -/
theorem processes_visit {e : Expr ParserState} (h : Grammatical e) :
    Processes formatDouble e (processOne (visit formatDouble e)) ∧
      (isTuple e = true → Elements formatDouble e) := by
  induction e with
  | assign a b iha ihb =>
    refine ⟨?_, fun h => by cases h⟩
    rw [visit]
    refine processes_two (iha h.1).1 (ihb h.2).1 rfl (unclean_two rfl rfl) rfl fun t u _ => ?_
    simp only [placeholder_separates_append, placeholder_append_separates,
      placeholder_append_append, separates_texts]
  | conditional a b c iha ihb ihc =>
    refine ⟨?_, fun h => by cases h⟩
    rw [visit]
    refine processes_three (iha h.1).1 (ihb h.2.1).1 (ihc h.2.2).1 rfl (unclean_three rfl rfl) rfl
      fun t u v _ => ?_
    simp only [placeholder_separates_append, placeholder_append_separates,
      placeholder_append_append, separates_texts]
  | conditionalThen a b iha ihb =>
    refine ⟨?_, fun h => by cases h⟩
    rw [visit]
    refine processes_two (iha h.1).1 (ihb h.2).1 rfl (unclean_two rfl rfl) rfl fun t u _ => ?_
    simp only [placeholder_separates_append, placeholder_append_separates,
      placeholder_append_append, separates_texts]
  | constant c => exact ⟨processes_constant c, fun h => by cases h⟩
  | tupleNil => exact ⟨processes_tupleNil, fun _ => elements_tupleNil⟩
  | tupleCons a b iha ihb =>
    have helements := elements_tupleCons (iha h.1).1 ((ihb h.2.1).2 h.2.2)
    exact ⟨processes_tupleCons helements, fun _ => helements⟩
  | id path =>
    refine ⟨?_, fun h => by cases h⟩
    rw [visit]
    exact processes_setResult rfl ⟨unclean_text rfl rfl, fun h => by cases h⟩
  | memberAttribute name =>
    refine ⟨?_, fun h => by cases h⟩
    rw [visit]
    exact processes_setResult rfl ⟨unclean_text rfl rfl, fun h => by cases h⟩
  | unary k a iha => exact ⟨processes_unary h.1 (iha h.2).1, fun h => by cases h⟩
  | binary k a b iha ihb =>
    exact ⟨processes_binary h.1 h.2.1 (iha h.2.2.1).1 (ihb h.2.2.2).1, fun h => by cases h⟩
  | ternary k a b c iha ihb ihc =>
    obtain ⟨hk, hcall, ha, hb, hc⟩ := h
    exact ⟨processes_ternary hk hcall (iha ha).1 (ihb hb).1 (ihc hc).1, fun h => by cases h⟩
  | parserState s => exact ⟨processes_parserState s, fun h => by cases h⟩
  | type t =>
    refine ⟨?_, fun h => by cases h⟩
    rw [visit]
    refine processes_setType rfl fun s hs => ⟨?_, fun h => by cases h⟩
    rw [unclean_leaf (typeTexts t) rfl rfl]
    simp [typeTexts, hs]
  | ctor | find | function | lambda | listComprehension | listComprehensionIf | transform
  | lambdaVariable =>
    refine ⟨?_, fun h => by cases h⟩
    rw [visit]
    exact processes_unsupported sets_nothing rfl rfl rfl

/-! ## Rejecting what is not supported -/

/-- An unsupported expression makes the translator throw, and it never reads past the operands. -/
structure Rejects (formatDouble : String → String) (v : Visitor String) (e : Expr ParserState) :
    Prop where
  result : expression formatDouble e v = .error .runtimeError ∨
    ∃ t v', expression formatDouble e v = .ok (t, v') ∧ ¬ Placeholder t
  unsupported : supported e = false → expression formatDouble e v = .error .runtimeError
  operands : expression formatDouble e v ≠ .error .undefined

/-- The translation of an expression of the grammar is right exactly if a type without a text comes
before any prefix increment, or if everything in it is supported, it has no prefix increment and no
leaf has the placeholder in its text. -/
theorem rejects_iff (formatDouble : String → String) (v : Visitor String)
    (hv : v.default_ = some kDefaultResult) (e : Expr ParserState) (h : Grammatical e) :
    Rejects formatDouble v e ↔ stops e = some .runtimeError ∨
      stops e = none ∧ supported e = true ∧ ∀ t ∈ texts formatDouble e, ¬ Placeholder t := by
  obtain ⟨⟨outcome, hgives, hdescribes⟩, -⟩ := @processes_visit formatDouble e h
  have houtcome := hgives v hv
  unfold Describes at hdescribes
  cases hstops : stops e with
  | some x =>
    simp only [hstops] at hdescribes
    subst hdescribes
    replace houtcome : expression formatDouble e v = .error x := houtcome
    cases x with
    | runtimeError =>
      exact ⟨fun _ => .inl rfl, fun _ => ⟨.inl houtcome, fun _ => houtcome, by simp [houtcome]⟩⟩
    | undefined =>
      refine ⟨fun hr => absurd houtcome hr.operands, ?_⟩
      rintro (h | ⟨h, -⟩) <;> cases h
    | abort =>
      refine ⟨fun hr => ?_, ?_⟩
      · rcases hr.result with hr | ⟨t, v', hr, -⟩ <;> rw [houtcome] at hr <;> cases hr
      · rintro (h | ⟨h, -⟩) <;> cases h
  | none =>
    simp only [hstops] at hdescribes
    obtain ⟨t, rfl, ht⟩ := hdescribes
    obtain ⟨n, houtcome⟩ := houtcome
    replace houtcome : expression formatDouble e v = .ok (t, { v with errors := n }) := houtcome
    have hclean : ¬ Unclean formatDouble e ↔
        supported e = true ∧ ∀ t ∈ texts formatDouble e, ¬ Placeholder t := by
      simp [Unclean]
    constructor
    · intro hr
      refine .inr ⟨rfl, hclean.mp ?_⟩
      rw [← ht.placeholder]
      rcases hr.result with hr | ⟨t', v', hr, hnot⟩ <;> rw [houtcome] at hr <;> cases hr
      exact hnot
    · rintro (h | ⟨-, h⟩)
      · cases h
      · have hnot := ht.placeholder.not.mpr (hclean.mpr h)
        refine ⟨.inr ⟨t, _, houtcome, hnot⟩, fun hsupported => ?_, by simp [houtcome]⟩
        rw [h.1] at hsupported
        cases hsupported

/-- The translator as it is constructed. -/
def newTranslator : Visitor String := { default_ := some kDefaultResult }

/-- `self.x` in the unit `Message`. -/
def messageMember (x : String) : Expr ParserState :=
  .binary .attribute (.parserState ⟨.self, .unit "Message", .unit "Message"⟩) (.memberAttribute x)

theorem grammatical_messageMember (x : String) : Grammatical (messageMember x) :=
  ⟨rfl, fun h => (by cases h), trivial, trivial⟩

theorem rejects_iff_sum :
    Rejects id newTranslator (.binary .plus (messageMember "a") (messageMember "b")) := by
  have hgrammatical : Grammatical (.binary .plus (messageMember "a") (messageMember "b")) :=
    ⟨rfl, fun h => (by cases h), grammatical_messageMember "a", grammatical_messageMember "b"⟩
  exact (rejects_iff id newTranslator rfl _ hgrammatical).mpr (.inr ⟨rfl, rfl, by decide⟩)

/-- `self.a * self.b + self.c` is translated to a text with the placeholder, and the translation of
`++self.a` reads an operand that the grammar has not put there. -/
theorem unsupported_not_rejected :
    (∃ v, expression id (.binary .plus (.binary .mult (messageMember "a") (messageMember "b"))
        (messageMember "c")) newTranslator =
          .ok ("([[EXPRESSION UNSUPPORTED]] + (SELF(Message).c))", v)) ∧
      expression id (.unary .incrPrefix (messageMember "a")) newTranslator = .error .undefined :=
  ⟨⟨_, rfl⟩, rfl⟩

end ExpressionTranslator

end Diffingo.Ast
