import Diffingo.Generation.Partition

/-!
# Inherited properties

A property of a field can be given for the field, for its unit or for the module the unit is declared
in. The unit that is made for an instantiation has copies of the fields and of the unit's properties,
but it is built without a declaration in the module, so what only the module gives does not reach the
copies.
-/

namespace Diffingo.Ast

open Spec Generation Grouping

section Properties

variable {σ τ : Type}

/-- `AttributeMap::lookup`. -/
def lookupAttribute (attributes : List (Attribute σ)) (key : String) : Option (Attribute σ) :=
  attributes.find? fun a => a.key = key

def Item.property? : Item σ → Option (Attribute σ)
  | .property a _ => some a
  | .field _ | .switch _ | .var _ => none

/-- `Unit::property`. -/
def UnitType.property (u : UnitType σ) (key : String) : Option (Attribute σ) :=
  lookupAttribute (u.items.filterMap Item.property?) key

/-- `Unit::inheritedProperty` for a field with the given attributes. `module_` has the properties of
the module, if the unit is declared in one. -/
def UnitType.inheritedProperty (u : UnitType σ) (module_ : Option (List (Attribute σ)))
    (key : String) (attributes : List (Attribute σ)) : Option (Expr σ) :=
  match lookupAttribute attributes key, u.property key, module_.bind (lookupAttribute · key) with
  | some a, _, _ => a.value
  | none, some a, _ => a.value
  | none, none, some a => a.value
  | none, none, none => none

/-- `byteOrderLabel`. The source reads the label of the property without a check that it is a
constant of an enumeration. -/
def byteOrderLabel : Option (Expr σ) → Option String
  | none => some "big"
  | some (.constant (.enum _ label)) => some label
  | some _ => none

/-- A field with those in it. -/
def Field.parts : Field σ → List (FieldInfo σ)
  | .vector i _ c | .list i c => i :: c.parts
  | .atomic i | .constant i _ _ | .ctor i _ | .unknown i _ _ | .unit i _ => [i]

/-- The fields that refer to the unit of the item (`set_unit`), switches apart. -/
def Item.parts : Item σ → List (FieldInfo σ)
  | .field f => f.parts
  | .switch s => s.cases.flatMap fun c => c.items.flatMap Field.parts
  | .var _ | .property _ _ => []

/-! ## Copies -/

theorem lookupAttribute_map (f : σ → τ) (attributes : List (Attribute σ)) (key : String) :
    lookupAttribute (attributes.map (·.map f)) key =
      (lookupAttribute attributes key).map (·.map f) := by
  simp only [lookupAttribute, List.find?_map]
  rfl

@[simp] theorem Item.property?_map (f : σ → τ) (i : Item σ) :
    (i.map f).property? = i.property?.map (·.map f) := by
  cases i <;> rfl

@[simp] theorem Item.property?_copyView (deps : List Dependency) (i : Item σ) :
    (i.copyView deps).property? = i.property? := by
  simp only [Item.copyView, Item.marked]
  split_ifs <;> cases i <;> rfl

@[simp] theorem Item.id_copyView (deps : List Dependency) (i : Item σ) :
    (i.copyView deps).id = i.id := by
  have hcloned : i.cloned.id = i.id := by
    cases i with
    | field g => cases g <;> rfl
    | switch | var | property => rfl
  rw [← hcloned, Item.copyView, Item.marked]
  split_ifs
  · generalize i.cloned = c
    cases c with
    | field g => cases g <;> rfl
    | switch | var | property => rfl
  · rfl

theorem byteOrderLabel_map (f : σ → τ) (e : Option (Expr σ)) :
    byteOrderLabel (e.map (·.map f)) = byteOrderLabel e := by
  cases e with
  | none => rfl
  | some e =>
    cases e with
    | constant c => cases c <;> rfl
    | _ => rfl

/-- What a copy of a field keeps: its name and its attributes. -/
def FieldInfo.kept (i : FieldInfo σ) : String × List (Attribute σ) := (i.id, i.attributes)

theorem Field.parts_map (f : σ → τ) (g : Field σ) : (g.map f).parts = g.parts.map (·.map f) := by
  induction g with
  | vector i n c ih | list i c ih => simp [Field.map, Field.parts, ih]
  | _ => rfl

theorem Item.parts_map (f : σ → τ) (i : Item σ) : (i.map f).parts = i.parts.map (·.map f) := by
  cases i with
  | field g => exact g.parts_map f
  | switch s =>
    simp [Item.map, Item.parts, Switch.map, Case.map, List.flatMap_map, List.map_flatMap,
      Field.parts_map]
  | var v => rfl
  | property a p => rfl

theorem Field.kept_parts_cloned (g : Field σ) :
    g.cloned.parts.map (·.kept) = g.parts.map (·.kept) := by
  induction g with
  | vector i n c ih | list i c ih =>
    simp only [Field.cloned, Field.parts, List.map_cons, ih]
    rfl
  | _ => rfl

theorem Field.parts_setParsingOnly (g : Field σ) :
    g.setParsingOnly.parts.map (·.kept) = g.parts.map (·.kept) := by
  cases g <;> rfl

theorem Item.kept_parts_copyView (deps : List Dependency) (i : Item σ) :
    (i.copyView deps).parts.map (·.kept) = i.parts.map (·.kept) := by
  have hcloned : i.cloned.parts.map (·.kept) = i.parts.map (·.kept) := by
    cases i with
    | field g => exact g.kept_parts_cloned
    | switch s =>
      simp [Item.cloned, Item.parts, Switch.cloned, Case.cloned, List.flatMap_map,
        List.map_flatMap, Field.kept_parts_cloned]
    | var v => rfl
    | property a p => rfl
  rw [← hcloned, Item.copyView, Item.marked]
  split_ifs
  · generalize i.cloned = c
    cases c with
    | field g => exact g.parts_setParsingOnly
    | switch s => rfl
    | var v => rfl
    | property a p => rfl
  · rfl

theorem filterMap_property?_filter (items : List (Item σ)) :
    (items.filter (·.isProperty)).filterMap Item.property? = items.filterMap Item.property? := by
  induction items with
  | nil => rfl
  | cons i items ih =>
    rw [List.filter_cons, List.filterMap_cons]
    cases i with
    | property a p => exact congrArg (a :: ·) ih
    | field | switch | var => exact ih

end Properties

section Compact

variable {sizes : Sizes} {deps : List Dependency} {f f' : Nat → StateKind}
  {items compact : List (Item Nat)} {entries : List (Entry (Item Nat))}

/-- A range holds fields only, so the entries have the properties of the items made from them. -/
theorem properties_rendered (hr : List.Forall₂ (Renders sizes deps f f') entries compact)
    (hranges : ∀ fields, .range fields ∈ entries → ∀ i ∈ fields, i.isField = true) :
    (compact.filterMap Item.property?).map (·.map f') =
      ((contents entries).filterMap Item.property?).map (·.map f) := by
  induction hr with
  | nil => rfl
  | @cons e c entries compact he _ ih =>
    have ih := ih fun fields hfields => hranges fields (List.mem_cons_of_mem e hfields)
    cases he with
    | @single i c hview =>
      have hproperty := congrArg Item.property? hview
      rw [Item.property?_map, Item.property?_copyView, Item.property?_map] at hproperty
      simp only [contents_cons, Entry.elems, List.singleton_append, List.filterMap_cons]
      rcases hc : c.property? with _ | a <;> rcases hi : i.property? with _ | b <;>
        simp_all
    | @range fields len length n hlen hview =>
      have hnone : ∀ i ∈ fields, i.property? = none := fun i hi => by
        have hfield := hranges fields List.mem_cons_self i hi
        cases i with
        | property a p => cases hfield
        | field | switch | var => rfl
      have hempty := List.filterMap_eq_nil_iff.mpr hnone
      rw [contents_cons, List.filterMap_append, Entry.elems, hempty, List.nil_append, ← ih]
      rfl

theorem Partition.property (hp : Partition sizes deps f f' items compact entries) {id id' : String}
    (key : String) :
    ((UnitType.mk id' compact).property key).map (·.map f') =
      ((UnitType.mk id items).property key).map (·.map f) := by
  have hrendered := properties_rendered hp.rendered fun fields hfields i hi =>
    ((hp.ranges fields hfields).2 i hi).1
  rw [← filterMap_property?_filter (contents entries), hp.properties,
    filterMap_property?_filter] at hrendered
  simp only [UnitType.property, ← lookupAttribute_map, hrendered]

theorem Partition.mem_items (hp : Partition sizes deps f f' items compact entries) {i : Item Nat}
    (hi : i ∈ contents entries) : i ∈ items := by
  cases i with
  | field g =>
    have hmem := List.mem_filter.mpr ⟨hi, (rfl : Item.isField (.field g) = true)⟩
    rw [hp.fields] at hmem
    exact List.mem_of_mem_filter hmem
  | switch s =>
    have hmem := List.mem_filter.mpr ⟨hi, (rfl : Item.isField (.switch s) = true)⟩
    rw [hp.fields] at hmem
    exact List.mem_of_mem_filter hmem
  | var v =>
    have hmem := List.mem_filter.mpr ⟨hi, (rfl : Item.isVariable (.var v) = true)⟩
    rw [hp.vars] at hmem
    exact List.mem_of_mem_filter hmem
  | property a p =>
    have hmem := List.mem_filter.mpr ⟨hi, (rfl : Item.isProperty (.property a p) = true)⟩
    rw [hp.properties] at hmem
    exact List.mem_of_mem_filter hmem

/-- An item of the compact unit stands for a range, or it is a copy of an item. -/
theorem copy_of_rendered (hr : List.Forall₂ (Renders sizes deps f f') entries compact) {c : Item Nat}
    (hc : c ∈ compact) : (∃ n e, c = rangeField n e) ∨
      ∃ i ∈ contents entries, c.id = i.id ∧
        (c.map f').parts.map (·.kept) = (i.map f).parts.map (·.kept) := by
  induction hr with
  | nil => cases hc
  | @cons e c' entries compact he _ ih =>
    rcases List.mem_cons.mp hc with rfl | hc
    · cases he with
      | @single i c hview =>
        refine .inr ⟨i, by simp [Entry.elems], ?_, ?_⟩
        · simpa using congrArg Item.id hview
        · rw [hview, Item.kept_parts_copyView]
      | @range fields len length n hlen hview => exact .inl ⟨n, length, rfl⟩
    · rcases ih hc with hrange | ⟨i, hi, hcopy⟩
      · exact .inl hrange
      · exact .inr ⟨i, by simp [hi], hcopy⟩

end Compact

/-! ## The byte order of the copies -/

/-- The property is given closer to the field than in the module, or the module does not give it
either. -/
def GivenBelow (module_ : List (Attribute Nat)) (u : UnitType Nat) (key : String)
    (attributes : List (Attribute Nat)) : Prop :=
  (lookupAttribute attributes key).isSome ∨ (u.property key).isSome ∨
    (lookupAttribute module_ key).bind (·.value) = none

/-- A unit without a module inherits the same exactly if the module is not needed. -/
theorem inheritedProperty_eq_iff {u u' : UnitType Nat} {key : String} {f f' : Nat → StateKind}
    {attributes attributes' : List (Attribute Nat)} (module_ : List (Attribute Nat))
    (hfield : (lookupAttribute attributes' key).map (·.map f') =
      (lookupAttribute attributes key).map (·.map f))
    (hunit : (u'.property key).map (·.map f') = (u.property key).map (·.map f)) :
    (u'.inheritedProperty none key attributes').map (·.map f') =
        (u.inheritedProperty (some module_) key attributes).map (·.map f) ↔
      GivenBelow module_ u key attributes := by
  unfold UnitType.inheritedProperty GivenBelow
  rcases hf : lookupAttribute attributes key with _ | a <;>
    rcases hf' : lookupAttribute attributes' key with _ | a' <;> simp only [hf, hf'] at hfield
  · rcases hu : u.property key with _ | b <;> rcases hu' : u'.property key with _ | b' <;>
      simp only [hu, hu'] at hunit
    · rcases hm : lookupAttribute module_ key with _ | c <;> simp [hm]
    · cases hunit
    · cases hunit
    · simp only [Option.map_some, Option.some.injEq, Attribute.map, Attribute.mk.injEq] at hunit
      simp [hunit.2.1]
  · cases hfield
  · cases hfield
  · simp only [Option.map_some, Option.some.injEq, Attribute.map, Attribute.mk.injEq] at hfield
    simp [hfield.2.1]

/-- A field of `u` and its copy in `u'` have the same byte order. Parser states in its value are
compared by their kinds. -/
structure KeepsByteOrder (module_ : List (Attribute Nat)) (h h' : Heap) (u u' : UnitType Nat)
    (p p' : FieldInfo Nat) : Prop where
  property : (u'.inheritedProperty none "byteorder" p'.attributes).map (·.map h'.kinds) =
    (u.inheritedProperty (some module_) "byteorder" p.attributes).map (·.map h.kinds)
  label : byteOrderLabel (u'.inheritedProperty none "byteorder" p'.attributes) =
    byteOrderLabel (u.inheritedProperty (some module_) "byteorder" p.attributes)

/-- Every field of a compact unit that does not stand for a range is the copy of a field of the
unit, and it has the same byte order exactly if that is not given by the module alone. -/
theorem keepsByteOrder_iff {sizes : Sizes} {g g' : InstantiationTypeGenerator}
    (hsizes : sizes.Below g.heap) (hg : g.curCompactableFields = []) {is : List Instantiation}
    (his : ∀ i ∈ is, ∀ j ∈ i.unit.items, Below g.heap j.exprs) {us : List (UnitType Nat)}
    (hrun : g.run sizes is = some (us, g')) (module_ : List (Attribute Nat)) :
    List.Forall₂ (fun i u => ∀ c ∈ u.items, (∃ n e, c = rangeField n e) ∨
      ∃ j ∈ i.unit.items, c.id = j.id ∧ List.Forall₂ (fun p' p => p'.id = p.id ∧
        (KeepsByteOrder module_ g.heap g'.heap i.unit u p p' ↔
          GivenBelow module_ i.unit "byteorder" p.attributes)) c.parts j.parts) is us := by
  obtain ⟨-, hall⟩ :=
    InstantiationTypeGenerator.run_produces hsizes (Heap.le_refl _) hg his hrun
  refine hall.imp fun i u ⟨start, made, hu⟩ c hc => ?_
  have hp := Partition.of_groups hu.renders (groups_group _ _ i.unit.items)
  have hunit : (u.property "byteorder").map (·.map g'.heap.kinds) =
      (i.unit.property "byteorder").map (·.map g.heap.kinds) := hp.property "byteorder"
  rcases copy_of_rendered hp.rendered hc with hrange | ⟨j, hj, hid, hparts⟩
  · exact .inl hrange
  refine .inr ⟨j, hp.mem_items hj, hid, ?_⟩
  rw [Item.parts_map, Item.parts_map, List.map_map, List.map_map, ← List.forall₂_eq_eq_eq,
    List.forall₂_map_left_iff, List.forall₂_map_right_iff] at hparts
  refine hparts.imp fun p' p hkept => ?_
  obtain ⟨hname, hattributes⟩ := Prod.mk.inj hkept
  have hfield := congrArg (lookupAttribute · "byteorder") hattributes
  simp only [FieldInfo.map, lookupAttribute_map] at hfield
  have hiff := inheritedProperty_eq_iff module_ hfield hunit
  refine ⟨hname, fun hkeeps => hiff.mp hkeeps.property, fun hgiven => ?_⟩
  have hsame := hiff.mpr hgiven
  refine ⟨hsame, ?_⟩
  rw [← byteOrderLabel_map g'.heap.kinds, hsame, byteOrderLabel_map]

/-- `byteorder = ByteOrder::little` -/
def littleEndian : Attribute Nat :=
  ⟨"byteorder", some (.constant (.enum ⟨"ByteOrder", [("big", 0), ("little", 1)]⟩ "little")), false⟩

/-- `a: uint16;` -/
def wordField : FieldInfo Nat := { id := "a", type := some (.atomic (.integer 16 false)) }

/-- An instantiation that needs the field, in a unit with the given properties. -/
def wordCompact (properties : List (Attribute Nat)) : Instantiation :=
  ⟨"Compact", ⟨"Message", properties.map (.property · false) ++
    [.field (.atomic wordField)]⟩, [⟨["a"], {.parsing, .serializing}⟩]⟩

theorem keepsByteOrder_unit : ∃ us g',
    newGenerator.run noSizes [wordCompact [littleEndian]] = some (us, g') ∧
      List.Forall₂ (fun i u => ∀ c ∈ u.items, (∃ n e, c = rangeField n e) ∨
        ∃ j ∈ i.unit.items, c.id = j.id ∧ List.Forall₂ (fun p' p => p'.id = p.id ∧
          (KeepsByteOrder [littleEndian] newGenerator.heap g'.heap i.unit u p p' ↔
            GivenBelow [littleEndian] i.unit "byteorder" p.attributes)) c.parts j.parts)
        [wordCompact [littleEndian]] us ∧
      GivenBelow [littleEndian] (wordCompact [littleEndian]).unit "byteorder" [] := by
  have hbelow : ∀ i ∈ [wordCompact [littleEndian]], ∀ j ∈ i.unit.items,
      Below newGenerator.heap j.exprs := by
    unfold Below
    decide
  obtain ⟨⟨us, g'⟩, hrun⟩ : ∃ r, newGenerator.run noSizes [wordCompact [littleEndian]] = some r :=
    ⟨_, rfl⟩
  have hsizes : noSizes.Below newGenerator.heap := fun id e he => by cases he
  exact ⟨us, g', hrun, keepsByteOrder_iff hsizes rfl hbelow hrun [littleEndian],
    .inr (.inl (by decide))⟩

/-- A module that is little endian: the parser of the unit reads `a` as such, that of the compact
unit as big endian. -/
theorem module_byteorder_lost :
    (newGenerator.run noSizes [wordCompact []]).map (·.1) =
        some [⟨"Compact", [.field (.atomic wordField)]⟩] ∧
      (UnitType.mk "Compact" [.field (.atomic wordField)]).inheritedProperty none "byteorder"
        wordField.attributes = none ∧
      (wordCompact []).unit.inheritedProperty (some [littleEndian]) "byteorder"
        wordField.attributes = littleEndian.value ∧
      byteOrderLabel (none : Option (Expr Nat)) = some "big" ∧
      byteOrderLabel littleEndian.value = some "little" := by
  decide

end Diffingo.Ast
