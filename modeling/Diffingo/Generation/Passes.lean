import Diffingo.Generation.Recursion
import Diffingo.Generation.Inheritance
import Diffingo.Generation.IdResolver

/-!
# The passes

`Compiler::executePasses` prepares a module for the code generators. Names that cannot be resolved
are reported by the last run of the resolver only, so the passes before it work on a tree in which
some of them are left. A pass that dereferences a null pointer, fails a checked cast or does not
come to an end has no result.

What the resolver does with the names inside of the units is left open: it is any function that
changes the units and logs errors. Scopes are those that `ScopeBuilder` has filled. The expressions
are trees, as they are unless a constant refers to itself.
-/

namespace Diffingo.Ast

open Spec Generation Recursion DependencyMapBuilder

/-! ## Names -/

/-- What the scope of a module holds for a name. -/
inductive Value (U : Type)
  | unit (u : U)
  | type
  | expression
  deriving DecidableEq, Repr

/-- `IdResolver::visit(Instantiation)`: the unit that is set, and the errors. -/
def visitInstantiation {U : Type} (report : Bool) (path : Diffingo.Path) :
    List (Value U) → Option U × List String
  | [] => (none, if report then [s!"unknown type ID {path.pathAsString}"] else [])
  | [.unit u] => (some u, [])
  | [.type] => (none, [s!"ID {path.pathAsString} does not reference a unit"])
  | [.expression] => (none, [s!"ID {path.pathAsString} does not reference a type"])
  | _ => (none, [s!"ID {path.pathAsString} defined more than once"])

/-- What a cell of the store is as a value of a scope. -/
def valueOf (s : Traversal.Store IdResolver.Node) (v : Nat) : Value Nat :=
  match s.node v with
  | .typeExpr t =>
    match s.node t with
    | .unit _ _ => .unit t
    | _ => .type
  | _ => .expression

/-- The resolver of the store logs the same errors. -/
theorem visitInstantiation_eq (report : Bool) (nodes : List Nat) (path : Diffingo.Path)
    (w : IdResolver.State) :
    IdResolver.visitInstantiation report nodes path w =
      (IdResolver.moduleValues w.store nodes path).map fun vals =>
        (visitInstantiation report path (vals.map (valueOf w.store))).2.foldl
          Traversal.Walk.log w := by
  unfold IdResolver.visitInstantiation
  cases IdResolver.moduleValues w.store nodes path with
  | none => rfl
  | some vals =>
    match vals with
    | [] => cases report <;> rfl
    | [v] =>
      simp only [Option.bind_eq_bind, Option.bind_some, IdResolver.withValue, Option.map_some,
        List.map_cons, List.map_nil, valueOf]
      cases w.store.node v with
      | typeExpr t =>
        dsimp only
        cases w.store.node t <;> rfl
      | _ => rfl
    | v :: v' :: vals => simp [IdResolver.withValue, visitInstantiation]

/-- `unit_instantiation::Instantiation` as it is parsed. -/
structure InstantiationDecl where
  id : String
  unitId : Diffingo.Path
  items : List String
  deriving Repr

/-- An instantiation between two passes; the unit is null until its name is resolved. -/
structure Instantiated extends InstantiationDecl where
  unit : Option String := none
  dependencies : List Dependency := []

/-- The units of a module; their parser states are in the heap. -/
structure Tree where
  units : List (UnitType Nat)
  heap : Heap

/-- A module as it is parsed, with the values of its scope. -/
structure Parsed extends Tree where
  scope : Diffingo.Path → List (Value String)
  idCounter : Nat
  instantiations : List InstantiationDecl

/-- A module between two passes. -/
structure Module extends Tree where
  scope : Diffingo.Path → List (Value String)
  idCounter : Nat
  instantiations : List Instantiated

def Parsed.load (p : Parsed) : Module where
  toTree := p.toTree
  scope := p.scope
  idCounter := p.idCounter
  instantiations := p.instantiations.map fun i => { i with }

/-- What `IdResolver` does with the names in the units, silently or with reports. -/
abbrev Resolver := Bool → Tree → Tree × List String

/-- `IdResolver::run`; the pass succeeds if it logs no error. -/
def idResolver (resolve : Resolver) (report : Bool) (m : Module) : Module × List String :=
  let (tree, log) := resolve report m.toTree
  let visited := m.instantiations.map fun i =>
    (i, visitInstantiation report i.unitId (m.scope i.unitId))
  ({ m with
    toTree := tree
    instantiations := visited.map fun (i, unit, _) => { i with unit := unit.or i.unit } },
    log ++ visited.flatMap fun (_, _, log) => log)

/-! ## Types of transformed items -/

section Transform

variable {σ : Type}

/-- The type that the value of `transform_to` stands for: one that is still unknown for a name. For
any other expression an error is logged, and then a null pointer is dereferenced. -/
def transformTo : Option (Expr σ) → Option (Option Ty)
  | some (.id _) => some none
  | some (.type t) => some (some t)
  | _ => none

/-- `TransformResolver::visit(Item)` for fields. -/
def FieldInfo.resolveTransform (i : FieldInfo σ) : Option (FieldInfo σ) :=
  match lookupAttribute i.attributes "transform_to" with
  | none => some i
  | some a => do
    let type ← transformTo a.value
    return { i with serializedType := i.type, type }

def Field.resolveTransform : Field σ → Option (Field σ)
  | .atomic i => i.resolveTransform.map .atomic
  | .constant i c t => i.resolveTransform.map (.constant · c t)
  | .ctor i c => i.resolveTransform.map (.ctor · c)
  | .unknown i r ps => i.resolveTransform.map (.unknown · r ps)
  | .unit i ps => i.resolveTransform.map (.unit · ps)
  | .vector i n c => do
    let i ← i.resolveTransform
    let c ← c.resolveTransform
    return .vector i n c
  | .list i c => do
    let i ← i.resolveTransform
    let c ← c.resolveTransform
    return .list i c

def Case.resolveTransform (c : Case σ) : Option (Case σ) := do
  let items ← c.items.mapM Field.resolveTransform
  return { c with items }

/-- `TransformResolver::visit(Item)` for variables. A type that is still unknown is not entered: it
is not read before it is known. -/
def Variable.resolveTransform (v : Variable σ) : Option (Variable σ) :=
  match lookupAttribute v.attributes "transform_to" with
  | none => some v
  | some a => do
    let type ← transformTo a.value
    return { v with serializedType := some v.type, type := type.getD v.type }

def Item.resolveTransform : Item σ → Option (Item σ)
  | .field f => f.resolveTransform.map .field
  | .switch s => do
    let cases ← s.cases.mapM Case.resolveTransform
    return .switch { s with cases }
  | .var v => v.resolveTransform.map .var
  | .property a p => some (.property a p)

def UnitType.resolveTransform (u : UnitType σ) : Option (UnitType σ) := do
  let items ← u.items.mapM Item.resolveTransform
  return { u with items }

end Transform

/-- `TransformResolver::run`. -/
def transformResolver (m : Module) : Option Module := do
  let units ← m.units.mapM UnitType.resolveTransform
  return { m with units }

/-! ## Lengths

A field of an embedded unit casts its type to a unit type to find its length. The cast aborts if the
type has been replaced by `transform_to`. -/

section Lengths

variable (sizes : Sizes)

/-- `static_serialized_length` of a field. -/
def Field.checkedLength? {σ : Type} (ask : String → Option Int) : Field σ → Option Int
  | .unit i _ =>
    match i.type with
    | some (.unit id) => ask id
    | _ => none
  | .vector _ (.constant (.integer n)) c => do
    let len ← c.checkedLength? ask
    some (if len ≥ 0 then n * len else -1)
  | f => f.staticSerializedLength? sizes ask

def checkedUnit? (units : List (UnitType StateKind)) : Nat → String → Option Int
  | 0, _ => none
  | fuel + 1, id =>
    unitLengthLoop? (·.checkedLength? sizes (checkedUnit? units fuel)) 0 (itemsOf units id)

def checkedSwitch? {σ : Type} (units : List (UnitType StateKind)) (fuel : Nat) (s : Switch σ) :
    Option Int :=
  staticLengthLoop? (·.checkedLength? sizes (checkedUnit? sizes units fuel)) none s.cases

/-- `serialized_length` of a field; a null expression is a length that is not known. -/
def Field.lengthOf? (ask : String → Option Int) (askUnit : String → Option (Option (Expr Nat))) :
    Field Nat → Option (Option (Expr Nat))
  | .atomic i => do
    let len ← i.staticSerializedLength? ask
    return (ofStatic len).or i.length
  | .unit i _ =>
    match i.type with
    | some (.unit id) => askUnit id
    | _ => none
  | .vector i n c => do
    let len ← (Field.vector i n c).checkedLength? sizes ask
    match ofStatic len with
    | some e => return some e
    | none => do
      let e ← c.lengthOf? ask askUnit
      return e.map (.binary .mult n ·)
  | f => do
    let len ← f.checkedLength? sizes ask
    return ofStatic len

def Item.lengthOf? (ask : String → Option Int) (askUnit : String → Option (Option (Expr Nat))) :
    Item Nat → Option (Option (Expr Nat))
  | .field f => f.lengthOf? sizes ask askUnit
  | .switch s => do
    let len ← staticLengthLoop? (·.checkedLength? sizes ask) none s.cases
    return ofStatic len
  | .var _ | .property _ _ => some none

/-- The loop of `type::unit::Unit::serialized_length`. -/
def unitSerializedLoop? (length : Item Nat → Option (Option (Expr Nat))) :
    Option (Expr Nat) → List (Item Nat) → Option (Option (Expr Nat))
  | len, [] => some len
  | len, i :: is =>
    if i.isField then do
      match ← length i with
      | none => return none
      | some e => unitSerializedLoop? length (some (addLength len e)) is
    else unitSerializedLoop? length len is

namespace Tree

/-- The units with the kinds of their parser states. -/
def kinds (t : Tree) : List (UnitType StateKind) :=
  t.units.map fun u => ⟨u.id, u.items.map (·.map t.heap.kinds)⟩

def serializedUnit? (t : Tree) : Nat → String → Option (Option (Expr Nat))
  | 0, _ => none
  | fuel + 1, id =>
    unitSerializedLoop?
      (·.lengthOf? sizes (checkedUnit? sizes t.kinds fuel) (t.serializedUnit? fuel))
      none (itemsOf t.units id)

def lengthOf? (t : Tree) (fuel : Nat) (i : Item Nat) : Option (Option (Expr Nat)) :=
  i.lengthOf? sizes (checkedUnit? sizes t.kinds fuel) (t.serializedUnit? sizes fuel)

/-- The lengths of the units. -/
def sizesAt (t : Tree) (fuel : Nat) : Sizes where
  integer := sizes.integer
  staticUnit id := (checkedUnit? sizes t.kinds fuel id).getD (-1)
  unit id := (t.serializedUnit? sizes fuel id).getD none

end Tree

/-! ## The instantiations -/

/-- `InstantiationDependencyResolver::visit`. The map builder is given the unit as it is, and
`Visitor::call` dereferences it. -/
def Instantiated.resolveDependencies (units : List (UnitType StateKind)) (fuel : Nat)
    (i : Instantiated) : Option Instantiated := do
  let id ← i.unit
  let w ← visitUnit? (checkedSwitch? sizes units) units fuel [] (itemsOf units id) {}
  return { i with dependencies := Ast.dependencies w.state.map (i.items.map ([·])) }

def instDepResolver (fuel : Nat) (m : Module) : Option Module := do
  let instantiations ← m.instantiations.mapM (·.resolveDependencies sizes m.kinds fuel)
  return { m with instantiations }

/-- The unit of an instantiation. The fields that nothing depends on are asked for their lengths. -/
def Instantiated.compactable (t : Tree) (fuel : Nat) (i : Instantiated) :
    Option Instantiation := do
  let id ← i.unit
  let items := itemsOf t.units id
  let dropped := items.filter fun j => j.isField && !j.kept i.dependencies
  let _ ← dropped.mapM (t.lengthOf? sizes fuel)
  return ⟨i.id, ⟨id, items⟩, i.dependencies⟩

/-- `InstantiationTypeGenerator::run`. -/
def instTypeGenerator (fuel : Nat) (m : Module) : Option Module := do
  let is ← m.instantiations.mapM (·.compactable sizes m.toTree fuel)
  let (_, g) ← InstantiationTypeGenerator.run (m.sizesAt sizes fuel)
    { idCounter := m.idCounter, heap := m.heap } is
  return { m with heap := g.heap, idCounter := g.idCounter }

/-- `Compiler::executePasses`: what it returns and the errors of the last pass. -/
def executePasses (resolve : Resolver) (fuel : Nat) (p : Parsed) : Option (Bool × List String) := do
  let (m, log) := idResolver resolve false p.load
  if log ≠ [] then return (false, log)
  let (m, log) := idResolver resolve false m
  if log ≠ [] then return (false, log)
  let m ← transformResolver m
  let m ← instDepResolver sizes fuel m
  let m ← instTypeGenerator sizes fuel m
  let (_, log) := idResolver resolve true m
  return (log = [], log)

end Lengths

/-! ## Transforms that are resolved -/

section Transform

variable {σ : Type}

/-- The value is a name or a type. -/
def Attribute.NamesType (a : Attribute σ) : Prop :=
  (∃ path, a.value = some (.id path)) ∨ ∃ t, a.value = some (.type t)

def TransformsToType (attributes : List (Attribute σ)) : Prop :=
  ∀ a ∈ lookupAttribute attributes "transform_to", a.NamesType

/-- The attributes of an item and of the fields in it, one list for each of them. -/
def Item.attributeMaps : Item σ → List (List (Attribute σ))
  | .var v => [v.attributes]
  | i => i.parts.map (·.attributes)

def Item.Transformable (i : Item σ) : Prop := ∀ as ∈ i.attributeMaps, TransformsToType as

theorem isSome_transformTo (a : Attribute σ) : (transformTo a.value).isSome ↔ a.NamesType := by
  unfold Attribute.NamesType transformTo
  cases a.value with
  | none => simp
  | some e => cases e <;> simp

theorem isSome_info_transform (i : FieldInfo σ) :
    i.resolveTransform.isSome ↔ TransformsToType i.attributes := by
  unfold FieldInfo.resolveTransform TransformsToType
  cases lookupAttribute i.attributes "transform_to" with
  | none => simp
  | some a => simp [← isSome_transformTo, Option.isSome_bind]

theorem isSome_field_transform (f : Field σ) :
    f.resolveTransform.isSome ↔ ∀ i ∈ f.parts, TransformsToType i.attributes := by
  induction f with
  | vector i n c ih | list i c ih =>
    rw [Field.parts, List.forall_mem_cons, ← ih, ← isSome_info_transform, Field.resolveTransform]
    cases i.resolveTransform <;> cases c.resolveTransform <;> simp
  | _ => simp [Field.resolveTransform, Field.parts, isSome_info_transform]

theorem isSome_item_transform (i : Item σ) : i.resolveTransform.isSome ↔ i.Transformable := by
  unfold Item.Transformable
  cases i with
  | field f => simp [Item.resolveTransform, Item.attributeMaps, Item.parts, isSome_field_transform]
  | property a p => simp [Item.resolveTransform, Item.attributeMaps, Item.parts]
  | var v =>
    simp only [Item.resolveTransform, Variable.resolveTransform, Item.attributeMaps,
      TransformsToType, Option.isSome_map, List.mem_singleton, forall_eq]
    cases lookupAttribute v.attributes "transform_to" with
    | none => simp
    | some a => simp [← isSome_transformTo, Option.isSome_bind]
  | switch s =>
    have hcase (c : Case σ) : c.resolveTransform.isSome ↔
        ∀ f ∈ c.items, ∀ i ∈ f.parts, TransformsToType i.attributes := by
      simp only [← isSome_field_transform, ← isSome_mapM, Case.resolveTransform]
      cases c.items.mapM Field.resolveTransform <;> simp
    have hcases : (s.cases.mapM Case.resolveTransform).isSome ↔
        ∀ c ∈ s.cases, ∀ f ∈ c.items, ∀ i ∈ f.parts, TransformsToType i.attributes := by
      simp only [isSome_mapM, hcase]
    have hitem : (Item.switch s).resolveTransform.isSome ↔
        (s.cases.mapM Case.resolveTransform).isSome := by
      rw [Item.resolveTransform]
      cases s.cases.mapM Case.resolveTransform <;> simp
    rw [hitem, hcases]
    simp only [Item.attributeMaps, Item.parts, List.mem_map, List.mem_flatMap]
    grind

end Transform

/-- Every `transform_to` has a name or a type as its value. -/
def Module.Transformable (m : Module) : Prop := ∀ u ∈ m.units, ∀ i ∈ u.items, i.Transformable

theorem isSome_transformResolver (m : Module) : (transformResolver m).isSome ↔ m.Transformable := by
  have hunit (u : UnitType Nat) : u.resolveTransform.isSome ↔ ∀ i ∈ u.items, i.Transformable := by
    simp only [← isSome_item_transform, ← isSome_mapM, UnitType.resolveTransform]
    cases u.items.mapM Item.resolveTransform <;> simp
  have hunits : (m.units.mapM UnitType.resolveTransform).isSome ↔ m.Transformable := by
    simp only [isSome_mapM, hunit, Module.Transformable]
  rw [← hunits, transformResolver]
  cases m.units.mapM UnitType.resolveTransform <;> simp

theorem transformResolver_instantiations {m m' : Module} (h : transformResolver m = some m') :
    m'.instantiations = m.instantiations := by
  obtain ⟨units, -, h⟩ := Option.bind_eq_some_iff.mp h
  cases h
  rfl

/-! ## Names that are resolved -/

section Silent

variable (resolve : Resolver) (p : Parsed)

/-- The module after the two silent runs of the resolver, and the errors of the last one. -/
def silent : Module × List String :=
  let (m, log) := idResolver resolve false p.load
  if log ≠ [] then (m, log) else idResolver resolve false m

/-- Every instantiation names something that is declared. -/
def Parsed.Named (p : Parsed) : Prop := ∀ i ∈ p.instantiations, p.scope i.unitId ≠ []

theorem isSome_visitInstantiation {U : Type} {path : Diffingo.Path} {vals : List (Value U)}
    (h : (visitInstantiation false path vals).2 = []) :
    (visitInstantiation false path vals).1.isSome ↔ vals ≠ [] := by
  unfold visitInstantiation at h ⊢
  split <;> simp_all

theorem silent_instantiations : (silent resolve p).1.instantiations =
    p.instantiations.map fun i =>
      { i with unit := (visitInstantiation false i.unitId (p.scope i.unitId)).1 } := by
  unfold silent idResolver
  dsimp only
  split_ifs <;> simp [Parsed.load, Function.comp_def]

theorem silent_log {i : InstantiationDecl} (hi : i ∈ p.instantiations)
    (h : (silent resolve p).2 = []) :
    (visitInstantiation false i.unitId (p.scope i.unitId)).2 = [] := by
  unfold silent idResolver at h
  dsimp only at h
  split_ifs at h with hlog
  · exact absurd h hlog
  · simp only [not_not, List.append_eq_nil_iff, List.flatMap_eq_nil_iff, List.mem_map] at hlog
    exact hlog.2 _ ⟨_, List.mem_map.mpr ⟨i, hi, rfl⟩, rfl⟩

end Silent

/-! ## Lengths that are found -/

section Lengths

variable {σ τ : Type} {sizes : Sizes} {ask : String → Option Int}

/-- Fields of embedded units have unit types. -/
def Field.UnitTyped : Field σ → Prop
  | .unit i _ => ∃ id, i.type = some (.unit id)
  | .vector _ _ c | .list _ c => c.UnitTyped
  | _ => True

@[simp] theorem Field.unitTyped_map (g : σ → τ) (f : Field σ) :
    (f.map g).UnitTyped ↔ f.UnitTyped := by
  induction f with
  | vector i n c ih | list i c ih => exact ih
  | _ => rfl

@[simp] theorem Field.asked_map (g : σ → τ) (f : Field σ) : (f.map g).asked = f.asked := by
  induction f with
  | vector i n c ih => exact ih
  | _ => rfl

@[simp] theorem Field.embedded_map (g : σ → τ) (f : Field σ) :
    (f.map g).embedded = f.embedded := by
  induction f with
  | vector i n c ih | list i c ih => exact ih
  | _ => rfl

@[simp] theorem Item.fields_map (g : σ → τ) (i : Item σ) :
    (i.map g).fields = i.fields.map (·.map g) := by
  cases i with
  | switch s =>
    simp [Item.map, Item.fields, Switch.map, Case.map, List.flatMap_map, List.map_flatMap]
  | _ => rfl

@[simp] theorem Item.asked_map (g : σ → τ) (i : Item σ) : (i.map g).asked = i.asked := by
  simp [Item.asked, List.flatMap_map]

@[simp] theorem Item.embedded_map (g : σ → τ) (i : Item σ) : (i.map g).embedded = i.embedded := by
  simp [Item.embedded, List.flatMap_map]

theorem Tree.itemsOf_kinds (t : Tree) (id : String) :
    itemsOf t.kinds id = (itemsOf t.units id).map (·.map t.heap.kinds) := by
  simp only [itemsOf, Tree.kinds, List.find?_map, Function.comp_def]
  cases t.units.find? fun u => u.id = id <;> rfl

theorem isSome_checkedLength {f : Field σ} (hf : f.UnitTyped)
    (h : ∀ id ∈ f.asked, (ask id).isSome) : (f.checkedLength? sizes ask).isSome := by
  induction f with
  | unit i ps =>
    obtain ⟨id, hid⟩ := hf
    simp only [Field.checkedLength?, hid]
    exact h id (by simp [Field.asked, hid, Ty.unitNames])
  | vector i n c ih =>
    obtain ⟨len, hlen⟩ := Option.isSome_iff_exists.mp (ih hf h)
    unfold Field.checkedLength?
    split
    · simp_all
    · next heq =>
      cases heq
      simp [hlen]
    · exact isSome_field h
  | _ => exact isSome_field h

theorem checkedUnit?_returns {units : List (UnitType StateKind)}
    (htyped : ∀ id, ∀ i ∈ itemsOf units id, ∀ f ∈ i.fields, f.UnitTyped) {id : String}
    (h : Acc (fun b a => Asks units a b) id) :
    ∃ n, ∀ m, n ≤ m → (checkedUnit? sizes units m id).isSome := by
  induction h with
  | intro id _ ih =>
    obtain ⟨n, hn⟩ := exists_bound ih
    refine ⟨n + 1, fun m hm => ?_⟩
    obtain ⟨m, rfl⟩ : ∃ k, m = k + 1 := ⟨m - 1, by omega⟩
    refine isSome_unit fun i hi f hf => isSome_checkedLength (htyped id i hi f hf) fun a ha => ?_
    refine hn m (by omega) a (List.mem_flatMap.mpr ⟨i, hi, List.mem_flatMap.mpr ⟨f, hf, ha⟩⟩)

variable {askUnit : String → Option (Option (Expr Nat))}

theorem isSome_field_lengthOf {f : Field Nat} (hf : f.UnitTyped)
    (h : ∀ id ∈ f.asked, (ask id).isSome) (hunit : ∀ id ∈ f.embedded, (askUnit id).isSome) :
    (f.lengthOf? sizes ask askUnit).isSome := by
  induction f with
  | atomic i =>
    have hstatic : ((Field.atomic i).staticSerializedLength? sizes ask).isSome := isSome_field h
    obtain ⟨len, hlen⟩ := Option.isSome_iff_exists.mp hstatic
    rw [Field.lengthOf?, show i.staticSerializedLength? ask = some len from hlen]
    rfl
  | unit i ps =>
    obtain ⟨id, hid⟩ := hf
    simp only [Field.lengthOf?, hid]
    exact hunit id (by simp [Field.embedded, hid])
  | vector i n c ih =>
    have hvector : ((Field.vector i n c).checkedLength? sizes ask).isSome :=
      isSome_checkedLength hf h
    obtain ⟨len, hlen⟩ := Option.isSome_iff_exists.mp hvector
    obtain ⟨e, he⟩ := Option.isSome_iff_exists.mp (ih hf h hunit)
    rw [Field.lengthOf?, hlen, he]
    dsimp only [bind, Option.bind]
    split <;> rfl
  | constant i c t =>
    have hconstant : ((Field.constant i c t).checkedLength? sizes ask).isSome :=
      isSome_checkedLength hf h
    obtain ⟨len, hlen⟩ := Option.isSome_iff_exists.mp hconstant
    rw [Field.lengthOf?, hlen]
    · rfl
    all_goals simp
  | ctor | unknown | list => rfl

theorem isSome_item_lengthOf {i : Item Nat} (hi : ∀ f ∈ i.fields, f.UnitTyped)
    (h : ∀ id ∈ i.asked, (ask id).isSome) (hunit : ∀ id ∈ i.embedded, (askUnit id).isSome) :
    (i.lengthOf? sizes ask askUnit).isSome := by
  cases i with
  | field f =>
    refine isSome_field_lengthOf (hi f (by simp [Item.fields])) (fun id hid => h id ?_)
      fun id hid => hunit id ?_
    · simpa [Item.asked, Item.fields] using hid
    · simpa [Item.embedded, Item.fields] using hid
  | switch s =>
    have hs : (staticLengthLoop? (·.checkedLength? sizes ask) none s.cases).isSome :=
      isSome_loop fun f hf => isSome_checkedLength (hi f hf) fun id hid =>
        h id (List.mem_flatMap.mpr ⟨f, hf, hid⟩)
    obtain ⟨len, hlen⟩ := Option.isSome_iff_exists.mp hs
    rw [Item.lengthOf?, hlen]
    rfl
  | var v => rfl
  | property a p => rfl

theorem isSome_unitSerializedLoop {length : Item Nat → Option (Option (Expr Nat))}
    {is : List (Item Nat)} {len : Option (Expr Nat)} (h : ∀ i ∈ is, (length i).isSome) :
    (unitSerializedLoop? length len is).isSome := by
  induction is generalizing len with
  | nil => rfl
  | cons i is ih =>
    have hrest : ∀ len, (unitSerializedLoop? length len is).isSome := fun len =>
      ih fun j hj => h j (by simp [hj])
    obtain ⟨e, he⟩ := Option.isSome_iff_exists.mp (h i (by simp))
    rw [unitSerializedLoop?, he]
    split_ifs
    · cases e with
      | none => rfl
      | some e => exact hrest _
    · exact hrest _

/-! ### They are the lengths of the units -/

variable {sizes' : Sizes}

theorem Expr.staticSerializedLength_congr (h : sizes.integer = sizes'.integer) (e : Expr σ) :
    e.staticSerializedLength sizes = e.staticSerializedLength sizes' := by
  induction e with
  | constant c => cases c <;> simp [Expr.staticSerializedLength, constantLength, h]
  | tupleCons a b iha ihb => simp only [Expr.staticSerializedLength, iha, ihb]
  | _ => rfl

theorem Field.staticSerializedLength?_congr (h : sizes.integer = sizes'.integer) (f : Field σ) :
    f.staticSerializedLength? sizes ask = f.staticSerializedLength? sizes' ask := by
  induction f with
  | constant i c t =>
    cases c with
    | simple c => cases c <;> rfl
    | tuple es => exact congrArg some (Expr.staticSerializedLength_congr h _)
  | vector i n c ih =>
    unfold Field.staticSerializedLength?
    split
    all_goals first | rfl | simp_all
  | _ => rfl

theorem eq_checkedLength (hint : sizes.integer = sizes'.integer) (hask : Agrees sizes' ask)
    {f : Field σ} {n : Int} (h : f.checkedLength? sizes ask = some n) :
    n = f.staticSerializedLength sizes' := by
  have hstatic {f : Field σ} {n : Int} (h : f.staticSerializedLength? sizes ask = some n) :
      n = f.staticSerializedLength sizes' := by
    rw [Field.staticSerializedLength?_congr hint] at h
    exact hask.field h
  induction f generalizing n with
  | unit i ps =>
    unfold Field.checkedLength? at h
    split at h
    · next id hid =>
      rw [Field.staticSerializedLength, hid]
      exact hask id n h
    · cases h
  | vector i len c ih =>
    unfold Field.checkedLength? at h
    split at h
    · next heq => cases heq
    · next heq =>
      cases heq
      obtain ⟨k, hk, hn⟩ := Option.bind_eq_some_iff.mp h
      obtain rfl := ih hk
      exact (Option.some.inj hn).symm
    · exact hstatic h
  | _ => exact hstatic h

theorem eq_field_lengthOf (hint : sizes.integer = sizes'.integer) (hask : Agrees sizes' ask)
    (hunit : ∀ id e, askUnit id = some e → e = sizes'.unit id) {f : Field Nat}
    {r : Option (Expr Nat)} (h : f.lengthOf? sizes ask askUnit = some r) :
    r = f.serializedLength sizes' := by
  induction f generalizing r with
  | atomic i =>
    obtain ⟨len, hlen, hr⟩ := Option.bind_eq_some_iff.mp h
    obtain rfl := hask.info hlen
    exact (Option.some.inj hr).symm
  | unit i ps =>
    unfold Field.lengthOf? at h
    split at h
    · next id hid =>
      rw [Field.serializedLength, hid]
      exact hunit id r h
    · cases h
  | vector i n c ih =>
    obtain ⟨len, hlen, hr⟩ := Option.bind_eq_some_iff.mp h
    obtain rfl := eq_checkedLength hint hask hlen
    rw [Field.serializedLength]
    cases hstatic : ofStatic (σ := Nat) ((Field.vector i n c).staticSerializedLength sizes') with
    | some e =>
      rw [hstatic] at hr
      exact (Option.some.inj hr).symm
    | none =>
      rw [hstatic] at hr
      obtain ⟨e, he, hr⟩ := Option.bind_eq_some_iff.mp hr
      obtain rfl := ih he
      exact (Option.some.inj hr).symm
  | constant i c t =>
    obtain ⟨len, hlen, hr⟩ := Option.bind_eq_some_iff.mp h
    obtain rfl := eq_checkedLength hint hask hlen
    exact (Option.some.inj hr).symm
  | ctor | unknown | list => exact (Option.some.inj h).symm

theorem eq_item_lengthOf (hint : sizes.integer = sizes'.integer) (hask : Agrees sizes' ask)
    (hunit : ∀ id e, askUnit id = some e → e = sizes'.unit id) {i : Item Nat}
    {r : Option (Expr Nat)} (h : i.lengthOf? sizes ask askUnit = some r) :
    r = i.serializedLength sizes' := by
  cases i with
  | field f => exact eq_field_lengthOf hint hask hunit h
  | switch s =>
    obtain ⟨len, hlen, hr⟩ := Option.bind_eq_some_iff.mp h
    obtain rfl := eq_staticLengthLoop (fun f n hf => eq_checkedLength hint hask hf) hlen
    exact (Option.some.inj hr).symm
  | var | property => exact (Option.some.inj h).symm

theorem Tree.eq_lengthOf {t : Tree} {fuel : Nat} {i : Item Nat} {r : Option (Expr Nat)}
    (h : t.lengthOf? sizes fuel i = some r) : r = i.serializedLength (t.sizesAt sizes fuel) := by
  have hint : sizes.integer = (t.sizesAt sizes fuel).integer := rfl
  refine eq_item_lengthOf hint (fun id n hn => ?_) (fun id e he => ?_) h
  · simp [Tree.sizesAt, hn]
  · simp [Tree.sizesAt, he]

/-! ### They can be cloned -/

theorem clonable_ofStatic {len : Int} {e : Expr Nat} (h : ofStatic len = some e) :
    e.clonable = true := by
  unfold ofStatic at h
  split_ifs at h
  cases h
  rfl

theorem FieldInfo.Clonable.length {i : FieldInfo Nat} (hi : i.Clonable) {e : Expr Nat}
    (he : i.length = some e) : e.clonable = true := by
  obtain ⟨a, ha, hvalue⟩ := Option.bind_eq_some_iff.mp he
  obtain ⟨e', he', hclonable⟩ := hi.attributes a (List.mem_of_find?_eq_some ha)
  rw [hvalue] at he'
  cases he'
  exact hclonable

theorem clonable_field_length (hsizes : ∀ id e, sizes.unit id = some e → e.clonable = true)
    {f : Field Nat} (hf : f.Clonable) {e : Expr Nat} (he : f.serializedLength sizes = some e) :
    e.clonable = true := by
  induction f generalizing e with
  | atomic i =>
    rcases Option.or_eq_some_iff.mp he with he | ⟨-, he⟩
    · exact clonable_ofStatic he
    · exact FieldInfo.Clonable.length hf he
  | unit i ps =>
    obtain ⟨t, -, ht⟩ := Option.bind_eq_some_iff.mp he
    cases t with
    | unit id => exact hsizes id e ht
    | _ => cases ht
  | vector i n c ih =>
    rcases Option.or_eq_some_iff.mp he with he | ⟨-, he⟩
    · exact clonable_ofStatic he
    · obtain ⟨len, hlen, rfl⟩ := Option.map_eq_some_iff.mp he
      simp [Expr.clonable, hf.2.1, ih hf.2.2 hlen]
  | constant | ctor | unknown | list => exact clonable_ofStatic he

theorem clonable_item_length (hsizes : ∀ id e, sizes.unit id = some e → e.clonable = true)
    {i : Item Nat} (hi : i.Clonable) {e : Expr Nat} (he : i.serializedLength sizes = some e) :
    e.clonable = true := by
  cases i with
  | field f => exact clonable_field_length hsizes hi he
  | switch s => exact clonable_ofStatic he
  | var | property => cases he

theorem clonable_addLength {len : Option (Expr Nat)} (hlen : ∀ e ∈ len, e.clonable = true)
    {e : Expr Nat} (he : e.clonable = true) : (addLength len e).clonable = true := by
  cases len with
  | none => exact he
  | some l => simp [addLength, Expr.clonable, hlen l rfl, he]

theorem clonable_unitSerializedLoop {length : Item Nat → Option (Option (Expr Nat))}
    {is : List (Item Nat)} (h : ∀ i ∈ is, ∀ e, length i = some (some e) → e.clonable = true)
    {len : Option (Expr Nat)} (hlen : ∀ e ∈ len, e.clonable = true) {e : Expr Nat}
    (he : unitSerializedLoop? length len is = some (some e)) : e.clonable = true := by
  induction is generalizing len with
  | nil => exact hlen e (Option.some.inj he)
  | cons i is ih =>
    have hrest : ∀ j ∈ is, ∀ e, length j = some (some e) → e.clonable = true := fun j hj =>
      h j (by simp [hj])
    rw [unitSerializedLoop?] at he
    split_ifs at he
    · obtain ⟨r, hr, he⟩ := Option.bind_eq_some_iff.mp he
      cases r with
      | none => cases he
      | some l =>
        refine ih hrest (fun e' he' => ?_) he
        cases he'
        exact clonable_addLength hlen (h i (by simp) l hr)
    · exact ih hrest hlen he

/-- All items of a tree have clones. -/
def Tree.Clonable (t : Tree) : Prop := ∀ u ∈ t.units, ∀ i ∈ u.items, i.Clonable

theorem Tree.Clonable.itemsOf {t : Tree} (ht : t.Clonable) {id : String} {i : Item Nat}
    (hi : i ∈ itemsOf t.units id) : i.Clonable := by
  obtain ⟨u, hu, -, hitems⟩ := mem_of_itemsOf hi
  exact ht u hu i (hitems ▸ hi)

theorem Tree.Clonable.sizesAt {t : Tree} (ht : t.Clonable) (fuel : Nat) :
    ∀ id e, (t.sizesAt sizes fuel).unit id = some e → e.clonable = true := by
  have hunit : ∀ id e, t.serializedUnit? sizes fuel id = some (some e) → e.clonable = true := by
    induction fuel with
    | zero => intro id e he; cases he
    | succ fuel ih =>
      intro id e he
      refine clonable_unitSerializedLoop (fun i hi e hlen => ?_) (by simp) he
      refine clonable_item_length (fun a e ha => ?_) (ht.itemsOf hi) (t.eq_lengthOf hlen).symm
      refine ih a e ?_
      simpa [Tree.sizesAt, Option.getD_eq_iff] using ha
  intro id e he
  refine hunit id e ?_
  simpa [Tree.sizesAt, Option.getD_eq_iff] using he

end Lengths

/-! ## Passes that come to an end -/

/-- Fields of embedded units have unit types. -/
def Tree.UnitTyped (t : Tree) : Prop := ∀ u ∈ t.units, ∀ i ∈ u.items, ∀ f ∈ i.fields, f.UnitTyped

/-- One unit leads to the other, by a field or by a type in a field. -/
def LeadsTo (units : List (UnitType StateKind)) (a b : String) : Prop :=
  Embeds units a b ∨ Asks units a b

section Returns

variable {sizes : Sizes} {t : Tree}

theorem Tree.UnitTyped.itemsOf (ht : t.UnitTyped) {id : String} {i : Item Nat}
    (hi : i ∈ itemsOf t.units id) {f : Field Nat} (hf : f ∈ i.fields) : f.UnitTyped := by
  obtain ⟨u, hu, -, hitems⟩ := mem_of_itemsOf hi
  exact ht u hu i (hitems ▸ hi) f hf

theorem Tree.UnitTyped.kinds (ht : t.UnitTyped) (id : String) :
    ∀ i ∈ Ast.itemsOf t.kinds id, ∀ f ∈ i.fields, f.UnitTyped := by
  rw [t.itemsOf_kinds]
  simp only [List.forall_mem_map, Item.fields_map, Field.unitTyped_map]
  exact fun i hi f hf => ht.itemsOf hi hf

theorem embeds_kinds {a b : String} {i : Item Nat} (hi : i ∈ itemsOf t.units a)
    (hb : b ∈ i.embedded) : Embeds t.kinds a b := by
  rw [Embeds, t.itemsOf_kinds, List.mem_flatMap]
  exact ⟨_, List.mem_map_of_mem hi, by simpa using hb⟩

theorem asks_kinds {a b : String} {i : Item Nat} (hi : i ∈ itemsOf t.units a)
    (hb : b ∈ i.asked) : Asks t.kinds a b := by
  rw [Asks, t.itemsOf_kinds, List.mem_flatMap]
  exact ⟨_, List.mem_map_of_mem hi, by simpa using hb⟩

theorem checkedUnit?_of_leadsTo (ht : t.UnitTyped) {id : String}
    (h : Acc (fun b a => LeadsTo t.kinds a b) id) :
    ∃ n, ∀ m, n ≤ m → (checkedUnit? sizes t.kinds m id).isSome :=
  checkedUnit?_returns ht.kinds (Subrelation.accessible (fun hba => .inr hba) h)

theorem visitUnit?_of_leadsTo (ht : t.UnitTyped) {id : String}
    (h : Acc (fun b a => LeadsTo t.kinds a b) id) : ∃ n, ∀ m, n ≤ m → ∀ p w,
      (visitUnit? (checkedSwitch? sizes t.kinds) t.kinds m p (itemsOf t.kinds id) w).isSome := by
  induction h with
  | intro id hid ih =>
    refine visitUnit?_returns_of (fun s hs => ?_) fun b hb => ih b (.inl hb)
    have hask : ∀ a ∈ (Item.switch s).asked, ∃ n, ∀ m, n ≤ m →
        (checkedUnit? sizes t.kinds m a).isSome := fun a ha =>
      checkedUnit?_of_leadsTo ht (hid a (.inr (List.mem_flatMap.mpr ⟨_, hs, ha⟩)))
    obtain ⟨n, hn⟩ := exists_bound hask
    refine ⟨n, fun m hm => isSome_loop fun f hf => ?_⟩
    exact isSome_checkedLength (ht.kinds id _ hs f hf) fun a ha =>
      hn m hm a (List.mem_flatMap.mpr ⟨f, hf, ha⟩)

/-- The lengths of the items of a unit are found if the units it leads to have lengths. -/
theorem lengthOf?_of (ht : t.UnitTyped) {id : String}
    (hid : ∀ a, LeadsTo t.kinds id a → Acc (fun b a => LeadsTo t.kinds a b) a)
    (hunit : ∀ a, LeadsTo t.kinds id a → ∃ n, ∀ m, n ≤ m → (t.serializedUnit? sizes m a).isSome) :
    ∃ n, ∀ m, n ≤ m → ∀ i ∈ itemsOf t.units id, (t.lengthOf? sizes m i).isSome := by
  have hask : ∀ a ∈ (itemsOf t.units id).flatMap Item.asked,
      ∃ n, ∀ m, n ≤ m → (checkedUnit? sizes t.kinds m a).isSome := by
    intro a ha
    obtain ⟨i, hi, ha⟩ := List.mem_flatMap.mp ha
    exact checkedUnit?_of_leadsTo ht (hid a (.inr (asks_kinds hi ha)))
  have hembedded : ∀ a ∈ (itemsOf t.units id).flatMap Item.embedded,
      ∃ n, ∀ m, n ≤ m → (t.serializedUnit? sizes m a).isSome := by
    intro a ha
    obtain ⟨i, hi, ha⟩ := List.mem_flatMap.mp ha
    exact hunit a (.inl (embeds_kinds hi ha))
  obtain ⟨a, ha⟩ := exists_bound hask
  obtain ⟨b, hb⟩ := exists_bound hembedded
  refine ⟨max a b, fun m hm i hi => isSome_item_lengthOf (fun f hf => ht.itemsOf hi hf)
    (fun id hid => ?_) fun id hid => ?_⟩
  · exact ha m (by omega) id (List.mem_flatMap.mpr ⟨i, hi, hid⟩)
  · exact hb m (by omega) id (List.mem_flatMap.mpr ⟨i, hi, hid⟩)

theorem serializedUnit?_of_leadsTo (ht : t.UnitTyped) {id : String}
    (h : Acc (fun b a => LeadsTo t.kinds a b) id) :
    ∃ n, ∀ m, n ≤ m → (t.serializedUnit? sizes m id).isSome := by
  induction h with
  | intro id hid ih =>
    obtain ⟨n, hn⟩ := @lengthOf?_of sizes t ht id hid ih
    refine ⟨n + 1, fun m hm => ?_⟩
    obtain ⟨m, rfl⟩ : ∃ k, m = k + 1 := ⟨m - 1, by omega⟩
    exact isSome_unitSerializedLoop (hn m (by omega))

theorem lengthOf?_of_leadsTo (ht : t.UnitTyped) {id : String}
    (h : Acc (fun b a => LeadsTo t.kinds a b) id) :
    ∃ n, ∀ m, n ≤ m → ∀ i ∈ itemsOf t.units id, (t.lengthOf? sizes m i).isSome :=
  lengthOf?_of ht (fun _ ha => h.inv ha) fun _ ha => serializedUnit?_of_leadsTo ht (h.inv ha)

variable {m m' : Module}

/-- Every instantiation has a unit, and the unit is at the end of no infinite descent. -/
def Module.Grounded (m : Module) (r : String → String → Prop) : Prop :=
  ∀ i ∈ m.instantiations, ∃ id, i.unit = some id ∧ Acc (fun b a => r a b) id

theorem instDepResolver_returns (ht : m.UnitTyped) (hm : m.Grounded (LeadsTo m.kinds)) :
    ∃ n, ∀ k, n ≤ k → (instDepResolver sizes k m).isSome := by
  have hinst : ∀ i ∈ m.instantiations, ∃ n, ∀ k, n ≤ k →
      (i.resolveDependencies sizes m.kinds k).isSome := by
    intro i hi
    obtain ⟨id, hid, hacc⟩ := hm i hi
    obtain ⟨n, hn⟩ := @visitUnit?_of_leadsTo sizes m.toTree ht id hacc
    refine ⟨n, fun k hk => ?_⟩
    obtain ⟨w, hw⟩ := Option.isSome_iff_exists.mp (hn k hk [] {})
    simp [Instantiated.resolveDependencies, hid, hw]
  obtain ⟨n, hn⟩ := exists_bound hinst
  refine ⟨n, fun k hk => ?_⟩
  obtain ⟨is, his⟩ := Option.isSome_iff_exists.mp (isSome_mapM.mpr (hn k hk))
  simp [instDepResolver, his]

theorem grounded_of_instDepResolver {fuel : Nat} (h : (instDepResolver sizes fuel m).isSome) :
    m.Grounded (Embeds m.kinds) := by
  intro i hi
  obtain ⟨m', hm⟩ := Option.isSome_iff_exists.mp h
  obtain ⟨is, his, -⟩ := Option.bind_eq_some_iff.mp hm
  obtain ⟨i', hi'⟩ := Option.isSome_iff_exists.mp
    (isSome_mapM.mp (Option.isSome_of_eq_some his) i hi)
  obtain ⟨id, hid, hvisit⟩ := Option.bind_eq_some_iff.mp hi'
  obtain ⟨w, hw, -⟩ := Option.bind_eq_some_iff.mp hvisit
  exact ⟨id, hid, ⟨id, fun b hb => acc_of_isSome_visitUnit (Option.isSome_of_eq_some hw) hb⟩⟩

/-- The instantiations get their dependencies, nothing else changes. -/
theorem instDepResolver_units {fuel : Nat} (h : instDepResolver sizes fuel m = some m') :
    m'.toTree = m.toTree ∧
      ∀ i' ∈ m'.instantiations, ∃ i ∈ m.instantiations, i'.unit = i.unit := by
  obtain ⟨is, his, h⟩ := Option.bind_eq_some_iff.mp h
  cases h
  refine ⟨rfl, fun i' hi' => ?_⟩
  obtain ⟨i, hi, hdeps⟩ := exists_of_mapM_eq_some his hi'
  obtain ⟨id, hid, hvisit⟩ := Option.bind_eq_some_iff.mp hdeps
  obtain ⟨w, -, hw⟩ := Option.bind_eq_some_iff.mp hvisit
  cases hw
  exact ⟨i, hi, rfl⟩

theorem compactable_returns {i : Instantiated} {fuel : Nat} {id : String} (hid : i.unit = some id)
    (h : ∀ j ∈ itemsOf t.units id, (t.lengthOf? sizes fuel j).isSome) :
    (i.compactable sizes t fuel).isSome := by
  have hdropped : ((itemsOf t.units id).filter fun j => j.isField && !j.kept i.dependencies)
      |>.mapM (t.lengthOf? sizes fuel) |>.isSome :=
    isSome_mapM.mpr fun j hj => h j (List.mem_of_mem_filter hj)
  obtain ⟨ls, hls⟩ := Option.isSome_iff_exists.mp hdropped
  simp [Instantiated.compactable, hid, hls]

theorem instTypeGenerator_returns (ht : m.Clonable) {fuel : Nat}
    (h : ∀ i ∈ m.instantiations, ∃ id, i.unit = some id ∧
      ∀ j ∈ itemsOf m.units id, (m.lengthOf? sizes fuel j).isSome) :
    (instTypeGenerator sizes fuel m).isSome := by
  have hinst : (m.instantiations.mapM (Instantiated.compactable sizes m.toTree fuel)).isSome :=
    isSome_mapM.mpr fun i hi => by
      obtain ⟨id, hid, hlen⟩ := h i hi
      exact compactable_returns hid hlen
  obtain ⟨is, his⟩ := Option.isSome_iff_exists.mp hinst
  have hcopy : ∀ i ∈ is, ∀ j ∈ i.unit.items, j.Copyable (m.sizesAt sizes fuel) := by
    intro i hi j hj
    obtain ⟨i₀, -, hi₀⟩ := exists_of_mapM_eq_some his hi
    obtain ⟨id, -, hi₀⟩ := Option.bind_eq_some_iff.mp hi₀
    obtain ⟨ls, -, hi₀⟩ := Option.bind_eq_some_iff.mp hi₀
    cases hi₀
    have hclonable := ht.itemsOf hj
    exact ⟨fun h => (runs_item j h).mpr hclonable,
      fun e he => clonable_item_length (ht.sizesAt fuel) hclonable he⟩
  let g : InstantiationTypeGenerator := { idCounter := m.idCounter, heap := m.heap }
  have hg : g.curCompactableFields = [] := rfl
  obtain ⟨⟨us, g'⟩, hr⟩ := InstantiationTypeGenerator.run_runs hg hcopy
  refine Option.isSome_iff_exists.mpr ⟨{ m with heap := g'.heap, idCounter := g'.idCounter }, ?_⟩
  exact Option.bind_eq_some_iff.mpr ⟨is, his, Option.bind_eq_some_iff.mpr ⟨_, hr, rfl⟩⟩

end Returns

/-! ## The whole sequence -/

section Passes

variable (sizes : Sizes) (resolve : Resolver) (p : Parsed)

/-- The passes return true, or they return false after an error has been logged. -/
def Finishes : Prop :=
  ∃ fuel result log, executePasses sizes resolve fuel p = some (result, log) ∧
    (result = false → log ≠ [])

theorem executePasses_eq (fuel : Nat) : executePasses sizes resolve fuel p =
    if (silent resolve p).2 ≠ [] then some (false, (silent resolve p).2)
    else do
      let m ← transformResolver (silent resolve p).1
      let m ← instDepResolver sizes fuel m
      let m ← instTypeGenerator sizes fuel m
      let (_, log) := idResolver resolve true m
      return (log = [], log) := by
  unfold executePasses silent
  dsimp only
  split_ifs <;> simp_all

variable {sizes resolve p} {m : Module}

theorem named_iff (hlog : (silent resolve p).2 = []) :
    p.Named ↔ ∀ i ∈ (silent resolve p).1.instantiations, i.unit.isSome := by
  simp only [silent_instantiations, List.forall_mem_map]
  exact forall₂_congr fun i hi => (isSome_visitInstantiation (silent_log resolve p hi hlog)).symm

theorem finishes_of_log (hlog : (silent resolve p).2 ≠ []) : Finishes sizes resolve p := by
  refine ⟨0, false, _, ?_, fun _ => hlog⟩
  rw [executePasses_eq, if_pos hlog]

theorem finishes_of_ready (hlog : (silent resolve p).2 = [])
    (hm : transformResolver (silent resolve p).1 = some m) (htyped : m.UnitTyped)
    (hclonable : m.Clonable) (hground : m.Grounded (LeadsTo m.kinds)) :
    Finishes sizes resolve p := by
  have hlengths : ∀ i ∈ m.instantiations, ∃ n, ∀ k, n ≤ k → ∃ id, i.unit = some id ∧
      ∀ j ∈ itemsOf m.units id, (m.lengthOf? sizes k j).isSome := by
    intro i hi
    obtain ⟨id, hid, hacc⟩ := hground i hi
    obtain ⟨n, hn⟩ := @lengthOf?_of_leadsTo sizes m.toTree htyped id hacc
    exact ⟨n, fun k hk => ⟨id, hid, hn k hk⟩⟩
  obtain ⟨a, ha⟩ := exists_bound hlengths
  obtain ⟨b, hb⟩ := @instDepResolver_returns sizes m htyped hground
  obtain ⟨m₁, hm₁⟩ := Option.isSome_iff_exists.mp (hb (max a b) (by omega))
  obtain ⟨htree, hinst⟩ := instDepResolver_units hm₁
  have hgen : (instTypeGenerator sizes (max a b) m₁).isSome := by
    refine instTypeGenerator_returns ?_ fun i' hi' => ?_
    · rw [htree]
      exact hclonable
    · obtain ⟨i, hi, hunit⟩ := hinst i' hi'
      rw [hunit, htree]
      exact ha (max a b) (by omega) i hi
  obtain ⟨m₂, hm₂⟩ := Option.isSome_iff_exists.mp hgen
  refine ⟨max a b, (idResolver resolve true m₂).2 = [], (idResolver resolve true m₂).2, ?_, ?_⟩
  · rw [executePasses_eq, if_neg (by simp [hlog]), hm]
    simp [hm₁, hm₂]
  · simp

theorem of_finishes (hlog : (silent resolve p).2 = []) (h : Finishes sizes resolve p) :
    ∃ m, transformResolver (silent resolve p).1 = some m ∧ m.Grounded (Embeds m.kinds) := by
  obtain ⟨fuel, result, log, h, -⟩ := h
  rw [executePasses_eq, if_neg (by simp [hlog])] at h
  obtain ⟨m, hm, h⟩ := Option.bind_eq_some_iff.mp h
  obtain ⟨m₁, hm₁, -⟩ := Option.bind_eq_some_iff.mp h
  exact ⟨m, hm, grounded_of_instDepResolver (Option.isSome_of_eq_some hm₁)⟩

/-- No unit that is instantiated leads back to itself. -/
def Module.Descends (m : Module) (r : String → String → Prop) : Prop :=
  ∀ i ∈ m.instantiations, ∀ id, i.unit = some id → Acc (fun b a => r a b) id

theorem grounded_iff (hlog : (silent resolve p).2 = [])
    (hm : transformResolver (silent resolve p).1 = some m) (r : String → String → Prop) :
    m.Grounded r ↔ p.Named ∧ m.Descends r := by
  rw [named_iff hlog, ← transformResolver_instantiations hm]
  constructor
  · intro hground
    refine ⟨fun i hi => ?_, fun i hi id hid => ?_⟩
    · obtain ⟨id, hid, -⟩ := hground i hi
      exact Option.isSome_of_eq_some hid
    · obtain ⟨id', hid', hacc⟩ := hground i hi
      obtain rfl : id = id' := Option.some.inj (hid.symm.trans hid')
      exact hacc
  · rintro ⟨hunit, hacc⟩ i hi
    obtain ⟨id, hid⟩ := Option.isSome_iff_exists.mp (hunit i hi)
    exact ⟨id, hid, hacc i hi id hid⟩

end Passes

/-- A module that instantiates a unit which is not declared. -/
def missingUnit : Parsed where
  units := []
  heap := ⟨0, fun _ => ⟨.self, .sink, .sink⟩⟩
  scope _ := []
  idCounter := 0
  instantiations := [⟨"View", ["Missing"], ["key"]⟩]

/-- A module with a field that is transformed to a number. -/
def numberTransform : Parsed where
  units := [⟨"Record", [.field (.atomic {
    id := "key"
    type := some bytes
    attributes := [⟨"transform_to", some (.constant (.integer 8)), false⟩] })]⟩]
  heap := ⟨0, fun _ => ⟨.self, .sink, .sink⟩⟩
  scope path := if path = ["Record"] then [.unit "Record"] else []
  idCounter := 0
  instantiations := []

end Diffingo.Ast
