import Diffingo.Generation.Instantiation

/-!
# Compaction as a partition

The items of a compact unit stand for the fields of the original unit, in order and without loss: a
field is copied, or it is part of a range whose length is the sum of the lengths. The ranges are as
large as the fields and properties that the instantiation depends on allow.
-/

namespace Diffingo.Ast

open Spec Generation Grouping

section Views

variable {σ τ : Type} (f : σ → τ)

theorem FieldInfo.cloned_map (type : Option Ty) (i : FieldInfo σ) :
    (i.map f).cloned type = (i.cloned type).map f := rfl

theorem Field.cloned_map (g : Field σ) : (g.map f).cloned = g.cloned.map f := by
  induction g with
  | vector i n c ih | list i c ih => simp [Field.map, Field.cloned, ih, FieldInfo.cloned_map]
  | _ => rfl

theorem Item.cloned_map (i : Item σ) : (i.map f).cloned = i.cloned.map f := by
  have hcase : ∀ c : Case σ, (c.map f).cloned = c.cloned.map f := fun c => by
    simp [Case.map, Case.cloned, Function.comp_def, Field.cloned_map]
  cases i with
  | field g => simp [Item.map, Item.cloned, Field.cloned_map]
  | switch s => simp [Item.map, Item.cloned, Switch.map, Switch.cloned, Function.comp_def, hcase]
  | var v => rfl
  | property a p => rfl

theorem Item.copyView_map (deps : List Dependency) (i : Item σ) :
    (i.map f).copyView deps = (i.copyView deps).map f := by
  simp only [Item.copyView, Item.marked, Item.context_map, Item.cloned_map]
  split_ifs
  · rw [Item.map_setParsingOnly]
  · rfl

end Views

/-- The kinds of the parser states; they never change. -/
def Heap.kinds (h : Heap) (x : Nat) : StateKind := (h.cell x).kind

@[simp] theorem ParserState.kind_retarget (unit : Ty) (s : ParserState) :
    (s.retarget unit).kind = s.kind := by
  unfold ParserState.retarget
  split <;> rfl

@[simp] theorem Heap.kinds_replaceSelf (unit : Ty) (items : List (Item Nat)) (h : Heap) :
    (h.replaceSelf unit items).kinds = h.kinds := by
  funext x
  simp only [Heap.kinds, Heap.replaceSelf]
  split_ifs
  · simp
  · rfl

/-- Entries are rendered the same way if only the kinds are looked at. -/
theorem Renders.kinds {sizes : Sizes} {deps : List Dependency} {h h' : Heap}
    {e : Entry (Item Nat)} {c : Item Nat} (hr : Renders sizes deps h.cell h'.cell e c) :
    Renders sizes deps h.kinds h'.kinds e c := by
  cases hr with
  | single hview =>
    refine .single ?_
    have hkind := congrArg (Item.map ParserState.kind) hview
    rw [← Item.copyView_map, Item.map_map, Item.map_map] at hkind
    exact hkind
  | range hlen hview =>
    refine .range hlen ?_
    have hkind := congrArg (Expr.map ParserState.kind) hview
    rw [Expr.map_map, Expr.map_map] at hkind
    exact hkind

theorem Produced.renders {sizes : Sizes} {h₀ h' start made : Heap} {i : Instantiation}
    {u : UnitType Nat} (hu : Produced sizes h₀ h' i u start made) :
    List.Forall₂ (Renders sizes i.dependencies h₀.kinds h'.kinds)
      (group (·.action i.dependencies) (·.known sizes) i.unit.items) u.items := by
  -- The nodes of the compact unit as they were made, in a heap with the kinds of the last one.
  let h₂ : Heap := ⟨h'.next, fun x => if x < made.next then made.cell x else h'.cell x⟩
  have hle : made ≤ h₂ := ⟨hu.le.next, fun x hx => if_pos hx⟩
  have hkinds : h₂.kinds = h'.kinds := by
    funext x
    by_cases hx : x < made.next
    · have hsame := congrArg ParserState.kind (hu.le.cell x hx)
      have hmade := congrFun (made.kinds_replaceSelf (.unit i.id) u.items) x
      simp only [Heap.kinds, h₂, if_pos hx] at hmade ⊢
      rw [← hmade, hsame]
    · simp only [Heap.kinds, h₂, if_neg hx]
  rw [← hkinds]
  exact (hu.follows.renders hle).imp fun _ _ hr => hr.kinds

/-! ## The partition -/

section Kinds

variable {σ : Type}

def Item.isField : Item σ → Bool
  | .field _ | .switch _ => true
  | .var _ | .property _ _ => false

def Item.isVariable : Item σ → Bool
  | .var _ => true
  | .field _ | .switch _ | .property _ _ => false

def Item.isProperty : Item σ → Bool
  | .property _ _ => true
  | .field _ | .switch _ | .var _ => false

end Kinds

/-- An entry that ends a range: a field, or a property that the instantiation depends on. -/
def separates (deps : List Dependency) : Entry (Item Nat) → Bool
  | .single (.var _) => false
  | .single (.property a p) => (Item.property a p).kept deps
  | .single _ | .range _ => true

/-- The items of the compact unit are rendered from a partition of the unit's items. -/
structure Partition (sizes : Sizes) (deps : List Dependency) (f f' : Nat → StateKind)
    (items compact : List (Item Nat)) (entries : List (Entry (Item Nat))) : Prop where
  rendered : List.Forall₂ (Renders sizes deps f f') entries compact
  fields : (contents entries).filter (·.isField) = items.filter (·.isField)
  kept : (contents entries).filter (·.kept deps) = items.filter (·.kept deps)
  vars : (contents entries).filter (·.isVariable) =
    items.filter fun i => i.isVariable && i.kept deps
  properties : (contents entries).filter (·.isProperty) = items.filter (·.isProperty)
  ranges : ∀ fields, .range fields ∈ entries → fields ≠ [] ∧ ∀ i ∈ fields,
    i.isField = true ∧ i.kept deps = false ∧ i.known sizes = true
  alone : ∀ i, .single i ∈ entries → i.isField = true →
    i.kept deps = true ∨ i.known sizes = false
  maximal : Apart (entries.filter (separates deps))

theorem filter_eq_of_imp {α : Type} {p q : α → Bool} {as bs : List α}
    (h : as.filter p = bs.filter p) (hq : ∀ a, q a = true → p a = true) :
    as.filter q = bs.filter q := by
  have hfilter : ∀ cs : List α, (cs.filter p).filter q = cs.filter q := fun cs => by
    rw [List.filter_filter]
    exact List.filter_congr fun a _ => by cases hqa : q a <;> simp [hq a, hqa]
  rw [← hfilter as, ← hfilter bs, h]

/-- A grouping of the items is a partition. -/
theorem Partition.of_groups {sizes : Sizes} {deps : List Dependency} {f f' : Nat → StateKind}
    {items compact : List (Item Nat)} {entries : List (Entry (Item Nat))}
    (hr : List.Forall₂ (Renders sizes deps f f') entries compact)
    (hg : Groups (·.action deps) (·.known sizes) items entries []) :
    Partition sizes deps f f' items compact entries := by
  have hordered := hg.ordered
  rw [List.append_nil] at hordered
  refine ⟨hr, ?_, ?_, ?_, ?_, ?_, ?_, ?_⟩
  · exact filter_eq_of_imp hordered fun i hi => by
      cases hk : i.kept deps <;> cases i <;> simp_all [Item.action, Item.isField]
  · exact filter_eq_of_imp hg.emitted fun i hi => by
      cases i <;> simp_all [Item.action]
  · have hvars : (contents entries).filter (·.isVariable) =
        (contents entries).filter fun i => i.isVariable && i.kept deps :=
      List.filter_congr fun i hi => by
        have hkept := hg.kept i hi
        cases hk : i.kept deps <;> cases i <;> simp_all [Item.action, Item.isVariable]
    rw [hvars]
    exact filter_eq_of_imp hg.emitted fun i hi => by
      cases i <;> simp_all [Item.action, Item.isVariable]
  · exact filter_eq_of_imp hg.emitted fun i hi => by
      cases hk : i.kept deps <;> cases i <;> simp_all [Item.action, Item.isProperty]
  · intro fields hfields
    obtain ⟨hne, hall⟩ := hg.range fields hfields
    refine ⟨hne, fun i hi => ?_⟩
    obtain ⟨haction, hknown⟩ := hall i hi
    cases hk : i.kept deps <;> cases i <;> simp_all [Item.action, Item.isField]
  · intro i hi hfield
    have hsingle := hg.single i hi
    cases hk : i.kept deps <;> cases i <;> simp_all [Item.action, Item.isField]
  · have hplaced : entries.filter (placed (·.action deps)) = entries.filter (separates deps) := by
      refine List.filter_congr fun e he => ?_
      cases e with
      | single i =>
        have hkept := hg.kept i (List.mem_flatMap.mpr ⟨_, he, by simp [Entry.elems]⟩)
        clear hr hg hordered he
        cases hk : i.kept deps <;> cases i <;> simp_all [placed, separates, Item.action]
      | range fields => rfl
    exact hplaced ▸ hg.apart

/-- The compact units of any number of instantiations are partitions of the units' items: all of the
fields are there in order, copied or as part of a range; so are the properties and the variables that
the instantiation depends on, these in the order of the items it depends on; a range is a maximal run
of fields of known length that it does not depend on, ended by the next property that it depends on.
They are built if all items have clones. -/
theorem compaction_partition {sizes : Sizes} {g : InstantiationTypeGenerator}
    (hsizes : sizes.Below g.heap) (hg : g.curCompactableFields = []) {is : List Instantiation}
    (his : ∀ i ∈ is, ∀ j ∈ i.unit.items, Below g.heap j.exprs) :
    ((∀ i ∈ is, ∀ j ∈ i.unit.items, j.Copyable sizes) → ∃ r, g.run sizes is = some r) ∧
      ∀ us g', g.run sizes is = some (us, g') → List.Forall₂ (fun i u => u.id = i.id ∧
        ∃ entries, Partition sizes i.dependencies g.heap.kinds g'.heap.kinds i.unit.items u.items
          entries) is us := by
  refine ⟨InstantiationTypeGenerator.run_runs hg, fun us g' hrun => ?_⟩
  obtain ⟨-, hall⟩ :=
    InstantiationTypeGenerator.run_produces hsizes (Heap.le_refl _) hg his hrun
  refine hall.imp fun i u ⟨start, made, hu⟩ => ⟨hu.id, ?_⟩
  exact ⟨_, .of_groups hu.renders (groups_group _ _ i.unit.items)⟩

/-- `a: uint8; %byteorder = "big"; b: uint8;` -/
def twoBytes : List (Item Nat) :=
  let byte : Option Ty := some (.atomic (.integer 8 false))
  [.field (.atomic { id := "a", type := byte }),
    .property ⟨"byteorder", some (.constant (.string "big")), false⟩ false,
    .field (.atomic { id := "b", type := byte })]

/-- The two bytes are compacted, with or without a dependency on the byte order. -/
def twoBytesCompact (deps : List Dependency) : Instantiation :=
  ⟨"Compact", ⟨"Message", twoBytes⟩, deps⟩

def noSizes : Sizes := ⟨fun _ => -1, fun _ => -1, fun _ => none⟩

def newGenerator : InstantiationTypeGenerator := { idCounter := 0, heap := selfHeap "Message" }

theorem twoBytes_copyable : ∀ j ∈ twoBytes, j.Copyable noSizes := by
  simp only [twoBytes, List.mem_cons, List.not_mem_nil, or_false, forall_eq_or_imp, forall_eq]
  refine ⟨⟨fun h => ⟨_, rfl⟩, ?_⟩, ⟨fun h => ⟨_, rfl⟩, ?_⟩, ⟨fun h => ⟨_, rfl⟩, ?_⟩⟩
  all_goals
    rintro e ⟨⟩
    try rfl

theorem compaction_partition_twoBytes :
    (∃ r, newGenerator.run noSizes [twoBytesCompact []] = some r) ∧
      ∀ us g', newGenerator.run noSizes [twoBytesCompact []] = some (us, g') →
        List.Forall₂ (fun i u => u.id = i.id ∧
          ∃ entries, Partition noSizes i.dependencies newGenerator.heap.kinds g'.heap.kinds
            i.unit.items u.items entries) [twoBytesCompact []] us := by
  have hbelow : ∀ i ∈ [twoBytesCompact []], ∀ j ∈ i.unit.items, Below newGenerator.heap j.exprs := by
    unfold Below
    decide
  have hsizes : noSizes.Below newGenerator.heap := fun id e he => by cases he
  obtain ⟨hruns, hpartition⟩ := compaction_partition hsizes rfl hbelow
  exact ⟨hruns (by simpa [twoBytesCompact] using twoBytes_copyable), hpartition⟩

/-- A property that the instantiation depends on splits the run of fields around it, although it does
not depend on any of them. -/
theorem property_splits_range :
    (newGenerator.run noSizes [twoBytesCompact [⟨["%byteorder"], {.parsing}⟩]]).map (·.1) =
        some [⟨"Compact", [rangeField 1 (.constant (.integer 1)),
          .property ⟨"byteorder", some (.constant (.string "big")), false⟩ true,
          rangeField 2 (.constant (.integer 1))]⟩] ∧
      ∀ j ∈ twoBytes, j.isField = true →
        j.kept [⟨["%byteorder"], {.parsing}⟩] = false ∧ j.known noSizes = true := by
  decide

end Diffingo.Ast
