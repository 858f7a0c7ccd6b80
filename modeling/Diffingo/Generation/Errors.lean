import Diffingo.Generation.Translator
import Diffingo.Generation.Inheritance

/-!
# Errors that visitors log

A visitor counts the errors it logs, but every `processOne` starts the count again, also the one of a
node within another node or after it. `run` of the four generators looks at the count when all nodes
have been visited, so it sees only the errors since the last node.

What a traversal does is given as a list of events. The visits follow the source as far as they log,
process nodes or call the translators, whose exceptions nobody catches.
-/

namespace Diffingo.Ast

open Spec Generation Grouping

inductive Event
  | processOne
  | log (severity : Severity)
  | raise
  deriving DecidableEq, Repr

/-- The visitor after the events. `processOne` saves and restores the rest of its state. -/
def perform : List Event → Visitor Unit → Except Exception (Visitor Unit)
  | [], v => .ok v
  | .processOne :: es, v => perform es v.reset
  | .log s :: es, v => perform es (v.log s)
  | .raise :: _, _ => .error .runtimeError

/-- An error is logged. After an exception nothing is. -/
def logged : List Event → Bool
  | [] => false
  | .log .error :: _ => true
  | .raise :: _ => false
  | .log _ :: es | .processOne :: es => logged es

/-- The value of `!errors()` after the events; none if there is an exception. -/
def noErrors (es : List Event) (v : Visitor Unit) : Option Bool :=
  match perform es v with
  | .ok v => some (v.errors = 0)
  | .error _ => none

/-! ## The visits of the parser and the serializer generator -/

/-- What the generators know besides the tree. -/
structure VisitContext where
  formatDouble : String → String
  unit : UnitType ParserState
  module_ : Option (List (Attribute ParserState))

def hasAttribute (attributes : List (Attribute ParserState)) (key : String) : Bool :=
  (lookupAttribute attributes key).isSome

/-- `translator_.type`. -/
def translatesType (t : Option Ty) : List Event :=
  if (t.bind TypeTranslator.translate).isSome then [] else [.raise]

namespace VisitContext

variable (cx : VisitContext)

/-- `translator_.expression`. -/
def translates (e : Option (Expr ParserState)) : List Event :=
  match e with
  | none => [.raise]
  | some e =>
    match ExpressionTranslator.expression cx.formatDouble e ExpressionTranslator.newTranslator with
    | .ok _ => []
    | .error _ => [.raise]

def translatesAttribute (attributes : List (Attribute ParserState)) (key : String) : List Event :=
  cx.translates ((lookupAttribute attributes key).bind (·.value))

/-- `byteOrderLabel`. -/
def byteOrder (attributes : List (Attribute ParserState)) : List Event :=
  match cx.unit.inheritedProperty cx.module_ "byteorder" attributes with
  | none => [.log .warning]
  | some e => if (byteOrderLabel (some e)).isSome then [] else [.raise]

/-- `visit(Switch)`; `process` is what is done with the fields of the cases. -/
def visitSwitch (process : Field ParserState → List Event) (s : Switch ParserState) : List Event :=
  match s.expression with
  | none => []
  | some e => cx.translates (some e) ++ s.cases.flatMap fun c =>
      c.expressions.flatMap (fun e => cx.translates (some e)) ++ c.items.flatMap process

end VisitContext

/-- The types that cannot be the type of a field. -/
def isBadType : Option Ty → Bool
  | some (.atomic .any) | some (.atomic .unknown) | some (.atomic .void) => true
  | _ => false

namespace ParserGenerator

variable (cx : VisitContext)

def visitType (i : FieldInfo ParserState) : Option Ty → List Event
  | some (.atomic .any) | some (.atomic .unknown) | some (.atomic .void) => [.log .error]
  | some (.atomic .bytes) | some (.atomic .string) =>
    if hasAttribute i.attributes "length" then cx.translatesAttribute i.attributes "length" else []
  | some (.atomic (.integer _ _)) => cx.byteOrder i.attributes
  | none => [.raise]
  | some _ => []

def visitField : Field ParserState → List Event
  | .atomic i =>
    match i.serializedType with
    | none => .processOne :: visitType cx i i.type
    | some t =>
      translatesType (some t) ++ .processOne :: visitType cx i (some t) ++
        if hasAttribute i.attributes "transform_to" then translatesType i.type
        else if hasAttribute i.attributes "transform" then []
        else [.log .error]
  | .unknown _ _ _ => [.log .error]
  | .constant _ _ _ | .unit _ _ | .ctor _ _ | .list _ _ | .vector _ _ _ => []

/-- `parse` of a field in a case. -/
def parseField (f : Field ParserState) : List Event := .processOne :: visitField cx f

def visitItem : Item ParserState → List Event
  | .field f => visitField cx f
  | .switch s => cx.visitSwitch (parseField cx) s
  | .var v =>
    if hasAttribute v.attributes "parse" then cx.translatesAttribute v.attributes "parse"
    else if v.defaultValue.isSome then cx.translates v.defaultValue
    else []
  | .property _ _ => []

/-- `parse`. -/
def parse (i : Item ParserState) : List Event := .processOne :: visitItem cx i

/-- The visits of `run`. -/
def visits : List Event := (cx.unit.items.filter (!·.isProperty)).flatMap (parse cx)

/-- `run`; none if it does not return. -/
def run (v : Visitor Unit) : Option Bool := noErrors (visits cx) v

end ParserGenerator

namespace SerializerGenerator

variable (cx : VisitContext)

/-- `updateLengthForField`. -/
def updateLengthForField : Item ParserState → List Event
  | .field (.list _ _) => []
  | .field f =>
    let i := f.info
    match i.serializedType.or i.type with
    | some (.atomic .bytes) | some (.atomic .string) =>
      if i.applicationAccessible && hasAttribute i.attributes "length" then
        match (lookupAttribute i.attributes "length").bind (·.value) with
        | some (.binary .attribute a b) => cx.translates (some (.binary .attribute a b))
        | _ => []
      else []
    | _ => []
  | .switch _ | .var _ | .property _ _ => []

def visitType (i : FieldInfo ParserState) : Option Ty → List Event
  | some (.atomic .any) | some (.atomic .unknown) | some (.atomic .void) => [.log .error]
  | some (.atomic (.integer _ _)) => cx.byteOrder i.attributes
  | none => [.raise]
  | some _ => []

def visitField : Field ParserState → List Event
  | .atomic i =>
    match i.serializedType with
    | none => .processOne :: visitType cx i i.type
    | some t =>
      -- here the error comes before the type is processed
      translatesType (some t) ++
        (if hasAttribute i.attributes "transform_to" then []
        else if hasAttribute i.attributes "transform" then []
        else [.log .error]) ++
        .processOne :: visitType cx i (some t)
  | .unknown _ _ _ => [.log .error]
  | .constant _ _ _ | .unit _ _ | .ctor _ _ | .list _ _ | .vector _ _ _ => []

/-- `serialize` of a field in a case. -/
def serializeField (f : Field ParserState) : List Event := .processOne :: visitField cx f

def visitItem : Item ParserState → List Event
  | .field f => visitField cx f
  | .switch s => cx.visitSwitch (serializeField cx) s
  | .var v =>
    if hasAttribute v.attributes "serialize" then cx.translatesAttribute v.attributes "serialize"
    else []
  | .property _ _ => []

/-- `serialize`. -/
def serialize (i : Item ParserState) : List Event := .processOne :: visitItem cx i

/-- The visits of `run`: lengths are updated, then variables are executed, then the fields follow. -/
def visits : List Event :=
  cx.unit.items.flatMap (updateLengthForField cx) ++
    (cx.unit.items.filter (·.isVariable)).flatMap (serialize cx) ++
    (cx.unit.items.filter (·.isField)).flatMap (serialize cx)

/-- `run`; none if it does not return. -/
def run (v : Visitor Unit) : Option Bool := noErrors (visits cx) v

end SerializerGenerator

/-! ## The other two generators -/

namespace InstantiationTypeGenerator

variable (sizes : Sizes)

/-- `addFieldOfLength` logs the length of each range. -/
def rangeLogs (entries : List (Entry (Item Nat))) : List Event :=
  (entries.filter (·.isRange)).map fun _ => .log .informational

/-- The visits of the items of a unit; the buffer holds the fields that can be compacted. -/
def visitsOfItems (deps : List Dependency) : Buffer (Item Nat) → List (Item Nat) → List Event
  | b, [] => rangeLogs (flush (·.known sizes) [] b.held)
  | b, i :: is =>
    .processOne ::
      ((if i.action deps = .cut then rangeLogs (flush (·.known sizes) [] b.held) else []) ++
        visitsOfItems deps (step (·.action deps) (·.known sizes) b i) is)

/-- The visits of `run`, for declarations that are instantiations or something else. -/
def visits (declarations : List (Option Instantiation)) : List Event :=
  declarations.flatMap fun
    | none => [.processOne]
    | some i => .processOne :: .processOne :: visitsOfItems sizes i.dependencies {} i.unit.items

end InstantiationTypeGenerator

/-- The declarations that a visitor of the module comes to. An instantiation has its compact units;
for a type that is not a unit only the number of children matters. -/
inductive Declaration
  | unit (u : UnitType ParserState)
  | type (children : Nat)
  | constant
  | function
  | transform
  | instantiation (compactedUnits : List (UnitType ParserState))

/-- A child of the module: its id, its properties, or a declaration with its linkage. -/
inductive Child
  | id
  | properties
  | declaration (imported : Bool) (d : Declaration)

namespace CodeGenerator

structure Settings where
  formatDouble : String → String
  module_ : List (Attribute ParserState)
  instantiationOnly : Bool
  storeParsingOnly : Bool

/-- The visitors of the two generators that the code generator runs. -/
structure Generators where
  parser : Visitor Unit
  serializer : Visitor Unit

variable (o : Settings)

/-- `addSingleUnitField`. -/
def addSingleUnitField (parsingOnly : Bool) (type : Option Ty) : List Event :=
  if parsingOnly && !o.storeParsingOnly then [] else translatesType type

def visitField : Field ParserState → List Event
  | .atomic i | .unit i _ | .ctor i _ | .list i _ | .vector i _ _ =>
    addSingleUnitField o i.parsingOnly i.type
  | .constant _ _ _ | .unknown _ _ _ => []

/-- The children of a switch are its id, its attributes, its expression and its cases. -/
def visitItem : Item ParserState → List Event
  | .field f => visitField o f
  | .switch s =>
    .processOne :: .processOne :: (s.expression.toList.map fun _ => .processOne) ++
      s.cases.flatMap fun c =>
        .processOne :: (c.expressions.map fun _ => .processOne) ++
          c.items.flatMap fun f => .processOne :: visitField o f
  | .var v => addSingleUnitField o v.parsingOnly (some v.type)
  | .property _ _ => []

/-- The children of a unit: its items and its id, which `set_id` adds. -/
def visitChildren (u : UnitType ParserState) : List Event :=
  u.items.flatMap (fun i => .processOne :: visitItem o i) ++ [.processOne]

/-- The error that is logged if a generator has failed. -/
def failure (v : Visitor Unit) : List Event := if v.errors = 0 then [] else [.log .error]

/-- `visit(declaration::Type)` for a unit. The compact units are in no module. -/
def visitUnit (module_ : Option (List (Attribute ParserState))) (g : Generators)
    (u : UnitType ParserState) : List Event × Generators :=
  let cx : VisitContext := ⟨o.formatDouble, u, module_⟩
  match perform (ParserGenerator.visits cx) g.parser with
  | .error _ => ([.raise], g)
  | .ok parser =>
    match perform (SerializerGenerator.visits cx) g.serializer with
    | .error _ => (failure parser ++ [.raise], { g with parser })
    | .ok serializer =>
      (failure parser ++ failure serializer ++ visitChildren o u, ⟨parser, serializer⟩)

/-- `visit(Instantiation)`. -/
def visitCompactedUnits : Generators → List (UnitType ParserState) → List Event × Generators
  | g, [] => ([], g)
  | g, u :: us =>
    let (es, g) := visitUnit o none g u
    let (fs, g) := visitCompactedUnits g us
    (.processOne :: es ++ fs, g)

/-- The visit of a child of the module. -/
def visitChild (g : Generators) : Child → List Event × Generators
  | .id | .properties | .declaration true _ | .declaration false .constant => ([], g)
  | .declaration false (.unit u) => visitUnit o (some o.module_) g u
  | .declaration false (.type n) => (List.replicate n .processOne, g)
  | .declaration false .function | .declaration false .transform => ([.processOne, .processOne], g)
  | .declaration false (.instantiation us) => visitCompactedUnits o g us

def skipped : Child → Bool
  | .declaration _ (.unit _) => o.instantiationOnly
  | _ => false

/-- The loop of `run`: the events, and the result if it returns. -/
def runChildren (g : Generators) (v : Visitor Unit) (result : Bool) :
    List Child → List Event × Option Bool
  | [] => ([], some result)
  | c :: cs =>
    if skipped o c then runChildren g v result cs
    else
      let (es, g) := visitChild o g c
      match perform (.processOne :: es) v with
      | .error _ => (.processOne :: es, none)
      | .ok v =>
        let (fs, r) := runChildren g v (result && v.errors = 0) cs
        (.processOne :: es ++ fs, r)

/-- `run` for a module with the given declarations. -/
def run (g : Generators) (v : Visitor Unit) (declarations : List (Bool × Declaration)) :
    List Event × Option Bool :=
  runChildren o g v true (.id :: .properties :: declarations.map fun d => .declaration d.1 d.2)

end CodeGenerator

/-! ## Counting errors -/

/-- The number of errors after an event, exceptions apart. -/
def Event.count (n : Nat) : Event → Nat
  | .processOne => 0
  | .log .error => n + 1
  | .log _ | .raise => n

def count (n : Nat) (es : List Event) : Nat := es.foldl Event.count n

@[simp] theorem count_nil (n : Nat) : count n [] = n := rfl

@[simp] theorem count_processOne (n : Nat) (es : List Event) :
    count n (.processOne :: es) = count 0 es := rfl

@[simp] theorem count_raise (n : Nat) (es : List Event) : count n (.raise :: es) = count n es := rfl

theorem count_log (n : Nat) (s : Severity) (es : List Event) :
    count n (.log s :: es) = count (if s = .error then n + 1 else n) es := by
  cases s <;> rfl

@[simp] theorem count_append (n : Nat) (es fs : List Event) :
    count n (es ++ fs) = count (count n es) fs := List.foldl_append

theorem perform_eq (es : List Event) (v : Visitor Unit) :
    perform es v = if .raise ∈ es then .error .runtimeError
      else .ok { v with errors := count v.errors es } := by
  induction es generalizing v with
  | nil => rfl
  | cons e es ih =>
    cases e with
    | processOne =>
      rw [perform, ih, count_processOne]
      simp [Visitor.reset]
    | log s =>
      rw [perform, ih, count_log]
      simp [Visitor.log]
    | raise => simp [perform]

theorem noErrors_eq_false {es : List Event} {v : Visitor Unit} :
    noErrors es v = some false ↔ .raise ∉ es ∧ count v.errors es ≠ 0 := by
  rw [noErrors, perform_eq]
  by_cases h : Event.raise ∈ es <;> simp [h]

/-- Only the last of the nodes that are processed counts. -/
theorem count_flatMap {α : Type} (visit : α → List Event) (n : Nat) (as : List α) :
    count n (as.flatMap fun a => .processOne :: visit a) =
      match as.getLast? with
      | none => n
      | some a => count 0 (visit a) := by
  induction as using List.reverseRecOn with
  | nil => rfl
  | append_singleton as a _ => simp

/-- Events that neither log an error nor start the count again. -/
def Neutral (es : List Event) : Prop := ∀ e ∈ es, e = .raise ∨ e = .log .warning

theorem Neutral.nil : Neutral [] := by simp [Neutral]

theorem Neutral.raise : Neutral [.raise] := by simp [Neutral]

theorem Neutral.append {es fs : List Event} (h : Neutral es) (h' : Neutral fs) :
    Neutral (es ++ fs) := by
  intro e he
  rcases List.mem_append.mp he with he | he
  · exact h e he
  · exact h' e he

theorem Neutral.flatMap {α : Type} {as : List α} {visit : α → List Event}
    (h : ∀ a, Neutral (visit a)) : Neutral (as.flatMap visit) := by
  intro e he
  obtain ⟨a, -, he⟩ := List.mem_flatMap.mp he
  exact h a e he

theorem Neutral.count {es : List Event} (h : Neutral es) (n : Nat) : count n es = n := by
  induction es with
  | nil => rfl
  | cons e es ih =>
    have hrest := ih fun e he => h e (List.mem_cons_of_mem _ he)
    rcases h e List.mem_cons_self with rfl | rfl
    · exact hrest
    · exact hrest

theorem Neutral.notMem {es : List Event} (h : Neutral es) : .log .error ∉ es := by
  intro hmem
  rcases h _ hmem with he | he <;> cases he

theorem logged_of_notMem {es : List Event} (h : .log .error ∉ es) : logged es = false := by
  induction es with
  | nil => rfl
  | cons e es ih =>
    simp only [List.mem_cons, not_or] at h
    cases e with
    | processOne => exact ih h.2
    | raise => rfl
    | log s =>
      cases s with
      | error => exact absurd rfl h.1
      | warning | informational => exact ih h.2

theorem neutral_translatesType (t : Option Ty) : Neutral (translatesType t) := by
  unfold translatesType
  split_ifs
  · exact .nil
  · exact .raise

section Context

variable (cx : VisitContext)

theorem neutral_translates (e : Option (Expr ParserState)) : Neutral (cx.translates e) := by
  unfold VisitContext.translates
  split
  · exact .raise
  · split
    · exact .nil
    · exact .raise

theorem neutral_byteOrder (attributes : List (Attribute ParserState)) :
    Neutral (cx.byteOrder attributes) := by
  unfold VisitContext.byteOrder
  split
  · simp [Neutral]
  · split_ifs
    · exact .nil
    · exact .raise

/-- The switch counts as its fields, one after the other. -/
theorem count_visitSwitch (process : Field ParserState → List Event) (s : Switch ParserState)
    (n : Nat) : count n (cx.visitSwitch process s) =
      if s.expression.isSome then count n ((s.cases.flatMap (·.items)).flatMap process) else n := by
  unfold VisitContext.visitSwitch
  cases s.expression with
  | none => rfl
  | some e =>
    simp only [count_append, (neutral_translates cx _).count, Option.isSome_some, if_true]
    generalize s.cases = cases
    induction cases generalizing n with
    | nil => rfl
    | cons c cases ih =>
      have hexprs : Neutral (c.expressions.flatMap fun e => cx.translates (some e)) :=
        .flatMap fun e => neutral_translates cx (some e)
      simp only [List.flatMap_cons, List.flatMap_append, count_append, hexprs.count, ih]

/-- The field that an item comes to last. -/
def lastVisited : Item ParserState → Option (Field ParserState)
  | .field f => some f
  | .switch s => if s.expression.isSome then (s.cases.flatMap (·.items)).getLast? else none
  | .var _ | .property _ _ => none

/-- The last field of the last item fails. -/
def LastFails (fails : Field ParserState → Bool) (items : List (Item ParserState)) : Prop :=
  ∃ f, items.getLast?.bind lastVisited = some f ∧ fails f = true

/-- Items whose visits log nothing but the errors of their fields. -/
theorem count_items_ne_zero (visitItem : Item ParserState → List Event)
    (visitField : Field ParserState → List Event) {fails : Field ParserState → Bool}
    (hfield : ∀ f, visitItem (.field f) = visitField f)
    (hswitch : ∀ s, visitItem (.switch s) =
      cx.visitSwitch (fun f => .processOne :: visitField f) s)
    (hother : ∀ i, lastVisited i = none → i.isField = false → Neutral (visitItem i))
    (hfails : ∀ f, count 0 (visitField f) ≠ 0 ↔ fails f = true) (n : Nat)
    (items : List (Item ParserState)) :
    count n (items.flatMap fun i => .processOne :: visitItem i) ≠ 0 ↔
      (items = [] ∧ n ≠ 0) ∨ LastFails fails items := by
  rw [count_flatMap]
  cases hlast : items.getLast? with
  | none => simp [List.getLast?_eq_none_iff.mp hlast, LastFails]
  | some i =>
    have hne : items ≠ [] := by
      rintro rfl
      cases hlast
    simp only [hne, false_and, false_or, LastFails, hlast, Option.bind_some]
    cases i with
    | field f => simp [hfield, hfails, lastVisited]
    | switch s =>
      rw [hswitch, count_visitSwitch, count_flatMap]
      by_cases he : s.expression.isSome = true
      · simp only [he, if_true, lastVisited]
        cases hfields : (s.cases.flatMap (·.items)).getLast? with
        | none => simp
        | some f => simp [hfails]
      · simp [he, lastVisited]
    | var v => simp [(hother (.var v) rfl rfl).count, lastVisited]
    | property a p => simp [(hother (.property a p) rfl rfl).count, lastVisited]

end Context

/-- If an error is logged during the run, it returns false. -/
def Reports (es : List Event) (result : Option Bool) : Prop := logged es = true → result = some false

/-- A run that ends with `!errors()`. -/
theorem reports_noErrors_iff {es : List Event} {v : Visitor Unit} {p : Prop}
    (h : logged es = true → (count v.errors es ≠ 0 ↔ p)) :
    Reports es (noErrors es v) ↔ logged es = false ∨ .raise ∉ es ∧ p := by
  unfold Reports
  cases hlogged : logged es with
  | false => simp
  | true => simp [noErrors_eq_false, h hlogged]

namespace ParserGenerator

variable (cx : VisitContext)

/-- The visit of the field leaves an error. -/
def fails : Field ParserState → Bool
  | .atomic i =>
    match i.serializedType with
    | none => isBadType i.type
    | some t => isBadType (some t) ||
        !hasAttribute i.attributes "transform_to" && !hasAttribute i.attributes "transform"
  | .unknown _ _ _ => true
  | .constant _ _ _ | .unit _ _ | .ctor _ _ | .list _ _ | .vector _ _ _ => false

theorem count_visitType (i : FieldInfo ParserState) (t : Option Ty) (n : Nat) :
    count n (visitType cx i t) = if isBadType t = true then n + 1 else n := by
  unfold visitType
  split
  case h_4 | h_5 =>
    split_ifs with hlength hbad hbad
    all_goals first | cases hbad | exact (neutral_translates cx _).count n | rfl
  case h_6 => exact (neutral_byteOrder cx i.attributes).count n
  case h_8 t h1 h2 h3 h4 h5 h6 =>
    have hbad : isBadType (some t) = false := by
      unfold isBadType
      split <;> simp_all
    simp [hbad]
  all_goals rfl

theorem count_visitField (f : Field ParserState) :
    count 0 (visitField cx f) ≠ 0 ↔ fails f = true := by
  cases f with
  | atomic i =>
    simp only [visitField, fails]
    cases i.serializedType with
    | none => simp [count_visitType]
    | some t =>
      simp only [count_append, (neutral_translatesType _).count, count_processOne, count_visitType]
      split_ifs with hbad hto htransform hto htransform <;>
        simp_all [(neutral_translatesType _).count, count_log]
  | unknown i r ps => simp [visitField, fails, count_log]
  | constant | unit | ctor | list | vector => simp [visitField, fails]

theorem count_visits (n : Nat) : count n (visits cx) ≠ 0 ↔
    (cx.unit.items.filter (!·.isProperty) = [] ∧ n ≠ 0) ∨
      LastFails fails (cx.unit.items.filter (!·.isProperty)) := by
  refine count_items_ne_zero cx (visitItem cx) (visitField cx) (fun f => rfl) (fun s => rfl)
    (fun i hlast hfield => ?_) (count_visitField cx) n _
  cases i with
  | var v =>
    simp only [visitItem]
    split_ifs
    · exact neutral_translates cx _
    · exact neutral_translates cx _
    · exact .nil
  | property a p => exact .nil
  | field f => cases hfield
  | switch s => cases hfield

end ParserGenerator

namespace SerializerGenerator

variable (cx : VisitContext)

@[inherit_doc ParserGenerator.fails]
def fails : Field ParserState → Bool
  | .atomic i => isBadType (i.serializedType.or i.type)
  | .unknown _ _ _ => true
  | .constant _ _ _ | .unit _ _ | .ctor _ _ | .list _ _ | .vector _ _ _ => false

theorem count_visitType (i : FieldInfo ParserState) (t : Option Ty) (n : Nat) :
    count n (visitType cx i t) = if isBadType t = true then n + 1 else n := by
  unfold visitType
  split
  case h_4 => exact (neutral_byteOrder cx i.attributes).count n
  case h_6 t h1 h2 h3 h4 =>
    have hbad : isBadType (some t) = false := by
      unfold isBadType
      split <;> simp_all
    simp [hbad]
  all_goals rfl

/-- The error of a missing transformation is lost when the type is processed. -/
theorem count_visitField (f : Field ParserState) :
    count 0 (visitField cx f) ≠ 0 ↔ fails f = true := by
  cases f with
  | atomic i =>
    simp only [visitField, fails]
    cases i.serializedType with
    | none => simp [count_visitType]
    | some t => simp [count_visitType]
  | unknown i r ps => simp [visitField, fails, count_log]
  | constant | unit | ctor | list | vector => simp [visitField, fails]

theorem neutral_visitItem {i : Item ParserState} (hi : i.isField = false) :
    Neutral (visitItem cx i) := by
  cases i with
  | var v =>
    simp only [visitItem]
    split_ifs
    · exact neutral_translates cx _
    · exact .nil
  | property a p => exact .nil
  | field f => cases hi
  | switch s => cases hi

theorem neutral_updateLengthForField (i : Item ParserState) :
    Neutral (updateLengthForField cx i) := by
  unfold updateLengthForField
  split
  · exact .nil
  · dsimp only
    split
    · split_ifs
      · split
        · exact neutral_translates cx _
        · exact .nil
      · exact .nil
    · split_ifs
      · split
        · exact neutral_translates cx _
        · exact .nil
      · exact .nil
    · exact .nil
  all_goals exact .nil

theorem count_visits (n : Nat) (hlogged : logged (visits cx) = true) :
    count n (visits cx) ≠ 0 ↔ LastFails fails (cx.unit.items.filter (·.isField)) := by
  have hlengths : Neutral (cx.unit.items.flatMap (updateLengthForField cx)) :=
    .flatMap (neutral_updateLengthForField cx)
  have hcount := count_items_ne_zero cx (visitItem cx) (visitField cx) (fun f => rfl) (fun s => rfl)
    (fun i _ hfield => neutral_visitItem cx hfield) (count_visitField cx)
    (count n ((cx.unit.items.filter (·.isVariable)).flatMap (serialize cx)))
    (cx.unit.items.filter (·.isField))
  rw [visits, count_append, count_append, hlengths.count]
  refine hcount.trans ⟨?_, .inr⟩
  rintro (⟨hnone, hvars⟩ | hlast)
  · -- variables log no errors, so without fields there is none
    have hnotMem : .log .error ∉ visits cx := by
      simp only [visits, hnone, List.flatMap_nil, List.append_nil, List.mem_append, not_or]
      refine ⟨hlengths.notMem, fun hmem => ?_⟩
      obtain ⟨i, hi, hmem⟩ := List.mem_flatMap.mp hmem
      have hfield : i.isField = false := by
        have hvar := (List.mem_filter.mp hi).2
        cases i <;> first | rfl | cases hvar
      rcases List.mem_cons.mp hmem with hmem | hmem
      · cases hmem
      · exact (neutral_visitItem cx hfield).notMem hmem
    rw [logged_of_notMem hnotMem] at hlogged
    cases hlogged
  · exact hlast

end SerializerGenerator

theorem InstantiationTypeGenerator.notMem_visits (sizes : Sizes)
    (declarations : List (Option Instantiation)) : .log .error ∉ visits sizes declarations := by
  have hranges : ∀ entries, .log .error ∉ rangeLogs entries := by simp [rangeLogs]
  have hitems : ∀ deps b items, .log .error ∉ visitsOfItems sizes deps b items := by
    intro deps b items
    induction items generalizing b with
    | nil => exact hranges _
    | cons i items ih =>
      simp only [visitsOfItems, List.mem_cons, List.mem_append, not_or]
      refine ⟨by simp, ?_, ih _⟩
      split_ifs
      · exact hranges _
      · simp
  intro hmem
  obtain ⟨d, -, hmem⟩ := List.mem_flatMap.mp hmem
  cases d with
  | none => simp at hmem
  | some i =>
    simp only [List.mem_cons, reduceCtorEq, false_or] at hmem
    exact hitems _ _ _ hmem

namespace CodeGenerator

variable (o : Settings)

/-- The id is the last child of a unit, so no error is left, unless there was an exception. -/
theorem count_visitUnit (module_ : Option (List (Attribute ParserState))) (g : Generators)
    (u : UnitType ParserState) (n : Nat) :
    .raise ∈ (visitUnit o module_ g u).1 ∨ count n (visitUnit o module_ g u).1 = 0 := by
  unfold visitUnit
  dsimp only
  split
  · exact .inl (by simp)
  · split
    · exact .inl (by simp)
    · exact .inr (by simp [visitChildren])

theorem count_visitCompactedUnits (g : Generators) (us : List (UnitType ParserState)) :
    .raise ∈ (visitCompactedUnits o g us).1 ∨ count 0 (visitCompactedUnits o g us).1 = 0 := by
  induction us generalizing g with
  | nil => exact .inr rfl
  | cons u us ih =>
    simp only [visitCompactedUnits, List.mem_append, List.mem_cons, reduceCtorEq, false_or,
      count_append, count_processOne]
    rcases count_visitUnit o none g u 0 with h | h
    · exact .inl (.inl h)
    · rcases ih (visitUnit o none g u).2 with h' | h'
      · exact .inl (.inr h')
      · exact .inr (by rw [h, h'])

theorem count_visitChild (g : Generators) (c : Child) :
    .raise ∈ (visitChild o g c).1 ∨ count 0 (visitChild o g c).1 = 0 := by
  unfold visitChild
  split
  case h_5 => exact count_visitUnit o _ g _ 0
  case h_6 n =>
    refine .inr ?_
    induction n with
    | zero => rfl
    | succ n ih => exact ih
  case h_9 us => exact count_visitCompactedUnits o g us
  all_goals exact .inr rfl

/-- The loop does not change the result. -/
theorem runChildren_result (g : Generators) (v : Visitor Unit) (result : Bool) (cs : List Child) :
    (runChildren o g v result cs).2 = none ∨ (runChildren o g v result cs).2 = some result := by
  induction cs generalizing g v result with
  | nil => exact .inr rfl
  | cons c cs ih =>
    unfold runChildren
    split_ifs with hskip
    · exact ih g v result
    · dsimp only
      rw [perform_eq]
      rcases count_visitChild o g c with hraise | hzero
      · simp [hraise]
      · by_cases hraise : Event.raise ∈ (visitChild o g c).1
        · simp [hraise]
        · simp only [List.mem_cons, reduceCtorEq, hraise, or_self, if_false, count_processOne, hzero,
            decide_true, Bool.and_true]
          exact ih _ _ result

end CodeGenerator

/-- When the generators report the errors of their visits. The parser and the serializer generator do
exactly if there are none, or if no exception is thrown and the field that is visited last has one;
the generator of compact units never logs an error; the code generator loses every error. -/
theorem errors_reported_iff (v : Visitor Unit) :
    (∀ cx, Reports (ParserGenerator.visits cx) (ParserGenerator.run cx v) ↔
      logged (ParserGenerator.visits cx) = false ∨ .raise ∉ ParserGenerator.visits cx ∧
        LastFails ParserGenerator.fails (cx.unit.items.filter (!·.isProperty))) ∧
    (∀ cx, Reports (SerializerGenerator.visits cx) (SerializerGenerator.run cx v) ↔
      logged (SerializerGenerator.visits cx) = false ∨ .raise ∉ SerializerGenerator.visits cx ∧
        LastFails SerializerGenerator.fails (cx.unit.items.filter (·.isField))) ∧
    (∀ sizes declarations, Reports (InstantiationTypeGenerator.visits sizes declarations)
      (noErrors (InstantiationTypeGenerator.visits sizes declarations) v)) ∧
    (∀ o g declarations, Reports (CodeGenerator.run o g v declarations).1
        (CodeGenerator.run o g v declarations).2 ↔
      logged (CodeGenerator.run o g v declarations).1 = false) := by
  refine ⟨fun cx => reports_noErrors_iff fun hlogged => ?_,
    fun cx => reports_noErrors_iff (SerializerGenerator.count_visits cx v.errors),
    fun sizes declarations hlogged => ?_, fun o g declarations => ⟨fun h => ?_, fun h => ?_⟩⟩
  · rw [ParserGenerator.count_visits]
    refine ⟨?_, .inr⟩
    rintro (⟨hnone, -⟩ | hlast)
    · rw [ParserGenerator.visits, hnone] at hlogged
      cases hlogged
    · exact hlast
  · rw [logged_of_notMem (InstantiationTypeGenerator.notMem_visits sizes declarations)] at hlogged
    cases hlogged
  · by_contra hlogged
    have hfalse := h (by simpa using hlogged)
    unfold CodeGenerator.run at hfalse
    rcases CodeGenerator.runChildren_result o g v true _ with hr | hr <;> rw [hfalse] at hr <;>
      cases hr
  · intro hlogged
    rw [h] at hlogged
    cases hlogged

/-- A field of a type that no parser can be made for. -/
def voidField : Item ParserState := .field (.atomic { id := "a", type := some (.atomic .void) })

def byteField : Item ParserState :=
  .field (.atomic { id := "b", type := some (.atomic (.integer 8 false)) })

/-- A unit that is visited on its own. -/
def contextOf (items : List (Item ParserState)) : VisitContext := ⟨id, ⟨"Message", items⟩, none⟩

def codeOf (items : List (Item ParserState)) : List Event × Option Bool :=
  CodeGenerator.run ⟨id, [], false, false⟩ ⟨{}, {}⟩ {} [(false, .unit ⟨"Message", items⟩)]

/-- `a: void; b: uint8;`: the parser generator logs an error and succeeds. `b: uint8; a: void;`: the
two generators fail, the code generator logs that and succeeds. -/
theorem errors_lost :
    logged (ParserGenerator.visits (contextOf [voidField, byteField])) = true ∧
      ParserGenerator.run (contextOf [voidField, byteField]) {} = some true ∧
      ParserGenerator.run (contextOf [byteField, voidField]) {} = some false ∧
      SerializerGenerator.run (contextOf [byteField, voidField]) {} = some false ∧
      logged (codeOf [byteField, voidField]).1 = true ∧
      (codeOf [byteField, voidField]).2 = some true := by
  decide

end Diffingo.Ast
