import Diffingo.Generation.Dependencies
import Diffingo.Generation.Retargeting

/-!
# References in compact units

A compact unit is closed under reference if every member that its items refer to is there, too. The
dependencies that are recorded are followed; so it is closed exactly if every reference that is not
followed goes to an item that stays for another reason.
-/

namespace Diffingo.Ast

open Spec Generation Grouping DependencyContext Saturation InstantiationDependencyResolver

/-! ## What an instantiation needs -/

/-- The contexts in which an instantiation needs an item. -/
inductive Needed (map : List Edge) (requested : List Path) : Path → DependencyContext → Prop
  | length : Needed map requested lengthTrackingId parsing
  | request {p : Path} (hp : p ∈ requested) : Needed map requested p application
  | all {e : Edge} (he : e ∈ map) (hp : Needed map requested e.key.1 application)
      {c : DependencyContext} (hc : c ∈ e.grade) : Needed map requested e.key.2 c
  | shared {e : Edge} (he : e ∈ map) {c : DependencyContext} (hp : Needed map requested e.key.1 c)
      (hc : c ∈ e.grade) : Needed map requested e.key.2 c

section Needed

variable {map : List Edge} {requested : List Path} {p q : Path} {c : DependencyContext}

theorem mem_grades_resolved :
    c ∈ grades (resolved map requested) p ↔ Needed map requested p c := by
  classical
  constructor
  · -- What is needed is closed, and the resolver finds the least closed contexts.
    let A : Path → Finset DependencyContext := fun p => {c | Needed map requested p c}
    have hA : ∀ {p c}, c ∈ A p ↔ Needed map requested p c := by simp [A]
    have hclosed : Closed map requested A := by
      refine ⟨hA.mpr .length, fun i hi => hA.mpr (.request hi), fun e he happ c hc => ?_,
        fun e he _ c hc => ?_⟩
      · exact hA.mpr (.all he (hA.mp happ) hc)
      · obtain ⟨hc, hgrade⟩ := Finset.mem_inter.mp hc
        exact hA.mpr (.shared he (hA.mp hc) hgrade)
    intro hc
    exact hA.mp (resolved_subset hclosed p hc)
  · have hclosed := closed_resolved map requested
    intro hneeded
    induction hneeded with
    | length => exact hclosed.length
    | request hp => exact hclosed.requested _ hp
    | all he _ hc ih => exact hclosed.all _ he ih hc
    | @shared e he c _ hc ih =>
      by_cases happ : application ∈ grades (resolved map requested) e.key.1
      · exact hclosed.all _ he happ hc
      · exact hclosed.shared _ he happ (Finset.mem_inter.mpr ⟨ih, hc⟩)

/-- A recorded dependency is followed if its item is needed in one of its contexts, or by the
application. -/
theorem Needed.follow {c' : Finset DependencyContext} (he : Has map (p, q) c') (hc : c ∈ c')
    (hp : Needed map requested p c ∨ Needed map requested p application) :
    Needed map requested q c := by
  obtain ⟨e, he, hkey, hsub⟩ := he
  obtain ⟨rfl, rfl⟩ : e.key.1 = p ∧ e.key.2 = q := by simp [hkey]
  rcases hp with hp | hp
  · exact .shared he hp (hsub hc)
  · exact .all he hp (hsub hc)

/-- The member is needed; `__length` only counts if it is requested. -/
def Wanted (map : List Edge) (requested : List Path) (x : String) : Prop :=
  (∃ c, Needed map requested [] c) ∨
    if [x] = lengthTrackingId then [x] ∈ requested else ∃ c, Needed map requested [x] c

theorem context_dependencies {x : String} :
    dependencyContextFor (dependencies map requested) [x] ≠ ∅ ↔ Wanted map requested x := by
  have hgrades : dependencyContextFor (dependencies map requested) [x] ≠ ∅ ↔
      (∃ c, c ∈ grades (dependencies map requested) []) ∨
        ∃ c, c ∈ grades (dependencies map requested) [x] := by
    rw [← Finset.nonempty_iff_ne_empty]
    simp only [Finset.Nonempty, mem_dependencyContextFor, mem_grades, List.prefix_cons_iff]
    constructor
    · rintro ⟨c, d, hd, hkey | ⟨t, hkey, ht⟩, hc⟩
      · exact .inl ⟨c, d, hd, hkey, hc⟩
      · rw [List.prefix_nil.mp ht] at hkey
        exact .inr ⟨c, d, hd, hkey, hc⟩
    · rintro (⟨c, d, hd, hkey, hc⟩ | ⟨c, d, hd, hkey, hc⟩)
      · exact ⟨c, d, hd, .inl hkey, hc⟩
      · exact ⟨c, d, hd, .inr ⟨[], hkey, List.prefix_rfl⟩, hc⟩
  rw [hgrades, Wanted]
  refine or_congr ?_ ?_
  · simp [dependencies, grades_tail_resolved, lengthTrackingId, mem_grades_resolved]
  · rw [dependencies, grades_tail_resolved]
    split_ifs with hlength hrequested <;> simp_all [mem_grades_resolved]

end Needed

/-! ## Members -/

section Names

variable {σ τ : Type}

/-- The names under which an item can be referred to: its own, and those of the fields in its
cases. -/
def Item.names : Item σ → List String
  | .switch s => s.id :: (s.cases.flatMap (·.items)).map (·.info.id)
  | i => [i.id]

/-- `application_accessible`; the fields that stand for ranges are not. -/
def Item.accessible : Item σ → Bool
  | .field f => f.info.applicationAccessible
  | .switch s => s.applicationAccessible
  | .var v => v.applicationAccessible
  | .property _ _ => true

theorem Field.id_map (f : σ → τ) (g : Field σ) : (g.map f).info.id = g.info.id := by
  cases g <;> rfl

theorem Field.id_cloned (g : Field σ) : g.cloned.info.id = g.info.id := by
  cases g <;> rfl

theorem Item.names_map (f : σ → τ) (i : Item σ) : (i.map f).names = i.names := by
  cases i with
  | switch s => simp [Item.names, Item.map, Switch.map, List.flatMap_map, List.map_flatMap, Case.map,
      Function.comp_def, Field.id_map]
  | field g => cases g <;> rfl
  | var | property => rfl

theorem Item.accessible_map (f : σ → τ) (i : Item σ) : (i.map f).accessible = i.accessible := by
  cases i with
  | field g => cases g <;> rfl
  | switch | var | property => rfl

theorem Item.names_copyView (deps : List Dependency) (i : Item σ) :
    (i.copyView deps).names = i.names := by
  have hparsing : ∀ j : Item σ, j.setParsingOnly.names = j.names := fun j => by
    cases j with
    | field g => cases g <;> rfl
    | switch | var | property => rfl
  have hcloned : i.cloned.names = i.names := by
    cases i with
    | switch s => simp [Item.names, Item.cloned, Switch.cloned, List.flatMap_map, List.map_flatMap,
        Case.cloned, Function.comp_def, Field.id_cloned]
    | field g => cases g <;> rfl
    | var | property => rfl
  unfold Item.copyView Item.marked
  split_ifs
  · rw [hparsing, hcloned]
  · exact hcloned

theorem Item.accessible_copyView (deps : List Dependency) (i : Item σ) :
    (i.copyView deps).accessible = true := by
  unfold Item.copyView Item.marked
  split_ifs
  all_goals
    cases i with
    | field g => cases g <;> rfl
    | switch | var | property => rfl

theorem Field.allAttributes_cloned (g : Field σ) : g.cloned.allAttributes = g.allAttributes := by
  induction g with
  | vector i n c ih | list i c ih => simp only [Field.cloned, Field.allAttributes, ih]; rfl
  | _ => rfl

theorem Item.places_copyView (deps : List Dependency) (i : Item StateKind) :
    (i.copyView deps).places = i.places := by
  have hparsing : ∀ j : Item StateKind, j.setParsingOnly.places = j.places := fun j => by
    cases j with
    | field g => cases g <;> rfl
    | switch | var | property => rfl
  have hfield : ∀ g : Field StateKind, g.cloned.places = g.places := fun g => by
    rw [Field.places, Field.places, g.id_cloned, g.allAttributes_cloned]
  have hcloned : i.cloned.places = i.places := by
    cases i with
    | field g => exact hfield g
    | switch s => simp [Item.places, Item.cloned, Switch.cloned, List.flatMap_map, List.flatMap_assoc,
        Case.cloned, hfield]
    | var | property => rfl
  unfold Item.copyView Item.marked
  split_ifs
  · rw [hparsing, hcloned]
  · exact hcloned

end Names

/-! ## Closed compact units -/

/-- The members that an item refers to. -/
def Item.references (i : Item StateKind) : List String := i.places.flatMap (·.expr.selfMembers)

/-- Every member that the items refer to is one of them, or stands in one of them. -/
def ReferencesClosed (kinds : Nat → StateKind) (items : List (Item Nat)) : Prop :=
  ∀ c ∈ items, ∀ x ∈ (c.map kinds).references, ∃ d ∈ items, d.accessible = true ∧ x ∈ d.names

instance (kinds : Nat → StateKind) (items : List (Item Nat)) :
    Decidable (ReferencesClosed kinds items) :=
  inferInstanceAs (Decidable (∀ c ∈ items, ∀ x ∈ (c.map kinds).references,
    ∃ d ∈ items, d.accessible = true ∧ x ∈ d.names))

/-- The members that an entry refers to. -/
def entryReferences (sizes : Sizes) (kinds : Nat → StateKind) : Entry (Item Nat) → List String
  | .single j => (j.map kinds).references
  | .range fields => (rangeLength sizes fields).toList.flatMap fun e => (e.map kinds).selfMembers

section Entries

variable {sizes : Sizes} {deps : List Dependency} {f f' : Nat → StateKind}

theorem Renders.references {e : Entry (Item Nat)} {c : Item Nat} (hr : Renders sizes deps f f' e c) :
    (c.map f').references = entryReferences sizes f e := by
  cases hr with
  | single hview =>
    rw [Item.references, hview, Item.places_copyView]
    rfl
  | range hlen hview =>
    simp only [entryReferences, hlen, Option.toList_some, List.flatMap_singleton, ← hview]
    simp [rangeField, Item.map, Field.map, FieldInfo.map, Attribute.map, Item.references, Item.places,
      Field.places, Field.allAttributes, attributePlaces]

theorem Renders.provides {e : Entry (Item Nat)} {c : Item Nat} (hr : Renders sizes deps f f' e c)
    (x : String) : (∃ j, e = .single j ∧ x ∈ j.names) ↔ c.accessible = true ∧ x ∈ c.names := by
  cases hr with
  | @single i c hview =>
    have haccessible : c.accessible = true := by
      rw [← Item.accessible_map f', hview, Item.accessible_copyView]
    have hnames : c.names = i.names := by
      rw [← Item.names_map f', hview, Item.names_copyView, Item.names_map]
    simp [haccessible, hnames]
  | range hlen hview => simp [rangeField, Item.accessible, Field.info]

theorem referencesClosed_iff {es : List (Entry (Item Nat))} {is : List (Item Nat)}
    (hr : List.Forall₂ (Renders sizes deps f f') es is) :
    ReferencesClosed f' is ↔
      ∀ e ∈ es, ∀ x ∈ entryReferences sizes f e, ∃ j, .single j ∈ es ∧ x ∈ j.names := by
  have hprovides : ∀ x, (∃ d ∈ is, d.accessible = true ∧ x ∈ d.names) ↔
      ∃ j, .single j ∈ es ∧ x ∈ j.names := by
    intro x
    have hnone := forall_iff_of_forall₂ hr fun e c hec => not_congr (hec.provides x)
    rw [← not_iff_not]
    push Not at hnone ⊢
    rw [← hnone]
    exact ⟨fun h j hj => h _ hj j rfl, fun h e he j hej => h j (hej ▸ he)⟩
  refine (forall_iff_of_forall₂ hr fun e c hec => ?_).symm
  rw [hec.references]
  exact forall₂_congr fun x _ => (hprovides x).symm

end Entries

/-- An instantiation with the items it requests. -/
structure Request where
  id : String
  unit : UnitType Nat
  items : List Path

section Request

variable (sizes : Sizes) (units : String → List (Item StateKind)) (depth : Nat) (kinds : Nat → StateKind)

/-- The dependency map of the unit. -/
def Request.map (r : Request) : List Edge :=
  DependencyMapBuilder.run sizes units depth ⟨r.unit.id, r.unit.items.map (·.map kinds)⟩

/-- The instantiation after its dependencies have been resolved. -/
def Request.instantiation (r : Request) : Instantiation :=
  ⟨r.id, r.unit, dependencies (r.map sizes units depth kinds) r.items⟩

/-- A copy of the item stands in the compact unit: it is needed, it is a property, or it is a field of
unknown length. -/
def Request.Stays (r : Request) (j : Item Nat) : Prop :=
  Wanted (r.map sizes units depth kinds) r.items j.id ∨ j.isProperty = true ∨
    j.isField = true ∧ j.known sizes = false

/-- The field is part of a range. -/
def Request.Compacted (r : Request) (j : Item Nat) : Prop :=
  ¬ Wanted (r.map sizes units depth kinds) r.items j.id ∧ j.isField = true ∧ j.known sizes = true

/-- The reference is recorded in a context in which its item is needed. -/
def Request.Followed (r : Request) (p : Place) (x : String) : Prop :=
  ∃ c c' b, p.context = some c ∧ (x, c') ∈ p.expr.recorded c ∧ b ∈ c' ∧
    (Needed (r.map sizes units depth kinds) r.items [p.owner] b ∨
      Needed (r.map sizes units depth kinds) r.items [p.owner] application)

/-- The reference in the length of a field is recorded. -/
def LengthFollowed (j : Item StateKind) (x : String) : Prop :=
  ∃ f, j = .field f ∧ ∃ e ∈ f.lengths, ∃ c', (x, c') ∈ e.recorded {parsing, serializingUpdate} ∧
    parsing ∈ c'

/-- The name of an item of the unit, other than the pseudo item `__length`. -/
def Request.Declares (r : Request) (x : String) : Prop :=
  [x] ≠ lengthTrackingId ∧ ∃ d ∈ r.unit.items, d.id = x

/-- Every reference to a declared item is followed, or what it refers to stays anyway. -/
structure Request.Covered (r : Request) : Prop where
  copied : ∀ j ∈ r.unit.items, r.Stays sizes units depth kinds j → ∀ p ∈ (j.map kinds).places,
    ∀ x ∈ p.expr.selfMembers, ¬ (r.Declares x ∧ r.Followed sizes units depth kinds p x) →
      ∃ d ∈ r.unit.items, r.Stays sizes units depth kinds d ∧ x ∈ d.names
  compacted : ∀ j ∈ r.unit.items, r.Compacted sizes units depth kinds j →
    ∀ e, j.serializedLength sizes = some e → ∀ x ∈ (e.map kinds).selfMembers,
      ¬ (r.Declares x ∧ LengthFollowed (j.map kinds) x) →
        ∃ d ∈ r.unit.items, r.Stays sizes units depth kinds d ∧ x ∈ d.names

end Request

section Covered

variable {sizes : Sizes} {units : String → List (Item StateKind)} {depth : Nat}
  {kinds : Nat → StateKind} {r : Request}

theorem Request.kept_iff {j : Item Nat} :
    j.kept (r.instantiation sizes units depth kinds).dependencies = true ↔
      Wanted (r.map sizes units depth kinds) r.items j.id := by
  rw [Item.kept, decide_eq_true_eq]
  exact context_dependencies

theorem Request.copied_iff {j : Item Nat} :
    j.copied sizes (r.instantiation sizes units depth kinds).dependencies ↔
      r.Stays sizes units depth kinds j := by
  rw [Request.Stays, ← Request.kept_iff]
  cases hk : j.kept (r.instantiation sizes units depth kinds).dependencies <;> cases j <;>
    simp [Item.copied, Item.action, hk, Item.isProperty, Item.isField]

theorem Request.compacted_iff {j : Item Nat} :
    j.compacted sizes (r.instantiation sizes units depth kinds).dependencies ↔
      r.Compacted sizes units depth kinds j := by
  rw [Request.Compacted, ← Request.kept_iff]
  cases hk : j.kept (r.instantiation sizes units depth kinds).dependencies <;> cases j <;>
    simp [Item.compacted, Item.action, hk, Item.isField]

/-- A declared item that is needed stays. -/
theorem Request.Declares.stays {x : String} (hx : r.Declares x) {c : DependencyContext}
    (hneeded : Needed (r.map sizes units depth kinds) r.items [x] c) :
    ∃ d ∈ r.unit.items, r.Stays sizes units depth kinds d ∧ x ∈ d.names := by
  obtain ⟨hlength, d, hd, rfl⟩ := hx
  refine ⟨d, hd, .inl (.inr ?_), ?_⟩
  · rw [if_neg hlength]
    exact ⟨c, hneeded⟩
  · cases d <;> simp [Item.names, Item.id]

theorem Request.Followed.stays {j : Item Nat} (hj : j ∈ r.unit.items) {p : Place}
    (hp : p ∈ (j.map kinds).places) {x : String} (hx : r.Declares x)
    (hfollowed : r.Followed sizes units depth kinds p x) :
    ∃ d ∈ r.unit.items, r.Stays sizes units depth kinds d ∧ x ∈ d.names := by
  obtain ⟨c, c', b, hcontext, hrecorded, hb, hneeded⟩ := hfollowed
  have hmem : j.map kinds ∈ r.unit.items.map (·.map kinds) := List.mem_map_of_mem hj
  have hedge : Has (r.map sizes units depth kinds) ([p.owner], [x]) c' :=
    DependencyMapBuilder.run_records hmem hp hcontext hrecorded
  exact hx.stays (Needed.follow hedge hb hneeded)

theorem LengthFollowed.stays {j : Item Nat} (hj : j ∈ r.unit.items) {x : String}
    (hx : r.Declares x) (hfollowed : LengthFollowed (j.map kinds) x) :
    ∃ d ∈ r.unit.items, r.Stays sizes units depth kinds d ∧ x ∈ d.names := by
  obtain ⟨f, hf, e, he, c', hrecorded, hparsing⟩ := hfollowed
  have hmem : .field f ∈ r.unit.items.map (·.map kinds) := hf ▸ List.mem_map_of_mem hj
  have hedge : Has (r.map sizes units depth kinds) (lengthTrackingId, [x]) c' :=
    DependencyMapBuilder.run_records_length hmem he hrecorded
  exact hx.stays (Needed.follow hedge hparsing (.inl .length))

/-- The entries of a compact unit are closed under reference exactly if the request is covered. -/
theorem covered_iff {es : List (Entry (Item Nat))}
    (hes : Groups (·.action (r.instantiation sizes units depth kinds).dependencies) (·.known sizes)
      r.unit.items es []) :
    (∀ e ∈ es, ∀ x ∈ entryReferences sizes kinds e, ∃ j, .single j ∈ es ∧ x ∈ j.names) ↔
      r.Covered sizes units depth kinds := by
  have hsingle : ∀ j, .single j ∈ es ↔ j ∈ r.unit.items ∧ r.Stays sizes units depth kinds j :=
    fun j => hes.mem_single.trans (and_congr_right fun _ => Request.copied_iff)
  have hrange : ∀ j, (∃ fields, .range fields ∈ es ∧ j ∈ fields) ↔
      j ∈ r.unit.items ∧ r.Compacted sizes units depth kinds j :=
    fun j => hes.mem_range.trans (and_congr_right fun _ => Request.compacted_iff)
  have hprovided : ∀ x, (∃ j, .single j ∈ es ∧ x ∈ j.names) ↔
      ∃ d ∈ r.unit.items, r.Stays sizes units depth kinds d ∧ x ∈ d.names := fun x => by
    simp only [hsingle, and_assoc]
  have hparts : ∀ a b : Expr Nat, ((Expr.binary .plus a b).map kinds).selfMembers =
      (a.map kinds).selfMembers ++ (b.map kinds).selfMembers := fun a b => by
    simp [Expr.map, Expr.selfMembers]
  constructor
  · intro hclosed
    refine ⟨fun j hj hstays p hp x hx _ => ?_, fun j hj hcompacted e he x hx _ => ?_⟩
    · rw [← hprovided]
      exact hclosed _ ((hsingle j).mpr ⟨hj, hstays⟩) x (List.mem_flatMap.mpr ⟨p, hp, hx⟩)
    · rw [← hprovided]
      obtain ⟨fields, hfields, hmem⟩ := (hrange j).mpr ⟨hj, hcompacted⟩
      exact hclosed _ hfields x ((mem_rangeLength hparts).mpr ⟨j, hmem, e, he, hx⟩)
  · intro hcovered e he x hx
    rw [hprovided]
    cases e with
    | single j =>
      obtain ⟨hj, hstays⟩ := (hsingle j).mp he
      obtain ⟨p, hp, hx⟩ := List.mem_flatMap.mp hx
      by_cases hfollowed : r.Declares x ∧ r.Followed sizes units depth kinds p x
      · exact hfollowed.2.stays hj hp hfollowed.1
      · exact hcovered.copied j hj hstays p hp x hx hfollowed
    | range fields =>
      obtain ⟨j, hmem, e, hlen, hx⟩ := (mem_rangeLength hparts).mp hx
      obtain ⟨hj, hcompacted⟩ := (hrange j).mp ⟨fields, he, hmem⟩
      by_cases hfollowed : r.Declares x ∧ LengthFollowed (j.map kinds) x
      · exact hfollowed.2.stays hj hfollowed.1
      · exact hcovered.compacted j hj hcompacted e hlen x hx hfollowed

end Covered

/-- The field `data` of a unit whose field `size` holds its length. -/
def sizedRequest : Request := ⟨"Compact", ⟨"Message", sizedData⟩, [["data"]]⟩

theorem sizedRequest_covered :
    sizedRequest.Covered noSizes (fun _ => []) 0 newGenerator.heap.kinds := by
  have hdeclares : sizedRequest.Declares "size" := by
    refine ⟨by decide, ?_⟩
    simp [sizedRequest, sizedData, Item.id, Field.info]
  have hmember : ∀ j ∈ sizedData, ∀ p ∈ (j.map newGenerator.heap.kinds).places,
      ∀ x ∈ p.expr.selfMembers, x = "size" ∧ p.owner = "data" ∧
        p.context = some {parsing, serializingUpdate} ∧
          ("size", {parsing, serializingUpdate}) ∈ p.expr.recorded {parsing, serializingUpdate} := by
    decide
  have hlength : ∀ j ∈ sizedData, ∀ e ∈ j.serializedLength noSizes,
      ∀ x ∈ (e.map newGenerator.heap.kinds).selfMembers, x = "size" ∧ j = sizedData[1] := by
    decide
  refine ⟨fun j hj _ p hp x hx hnot => absurd ?_ hnot, fun j hj _ e he x hx hnot => absurd ?_ hnot⟩
  · obtain ⟨rfl, howner, hcontext, hrecorded⟩ := hmember j hj p hp x hx
    refine ⟨hdeclares, _, _, parsing, hcontext, hrecorded, by simp, .inr ?_⟩
    rw [howner]
    exact .request (by simp [sizedRequest])
  · obtain ⟨rfl, rfl⟩ := hlength j hj e he x hx
    exact ⟨hdeclares, _, rfl, _, List.mem_singleton_self _, {parsing, serializingUpdate},
      by decide, by simp⟩

theorem sizedData_copyable : ∀ j ∈ sizedData, j.Copyable noSizes := by
  simp only [sizedData, List.mem_cons, List.not_mem_nil, or_false, forall_eq_or_imp, forall_eq]
  refine ⟨⟨fun h => ⟨_, rfl⟩, ?_⟩, ⟨fun h => ⟨_, rfl⟩, ?_⟩⟩
  all_goals
    rintro e ⟨⟩
    rfl

/-- `a: uint8; var v: uint8 = self.a;`, of which `v` is requested. -/
def defaultRequest : Request :=
  let byte : Ty := .atomic (.integer 8 false)
  ⟨"Compact", ⟨"Message",
    [.field (.atomic { id := "a", type := some byte }),
      .var
        { id := "v"
          type := byte
          defaultValue := some (.binary .attribute (.parserState 0) (.memberAttribute "a")) }]⟩,
    [["v"]]⟩

end Diffingo.Ast
