import Diffingo.Generation.Partition

/-!
# Which `self` is redirected

`SelfReplacerVisitor` changes the parser states it comes to, all of them new nodes of the compact
unit. It does not come to conditions, to the cases of a switch, to the field in a container and to
the elements of tuples; the elements of tuples even belong to the original unit. So every `self` in a
compact unit is redirected exactly if there is none in those places.
-/

namespace Diffingo.Ast

open Spec Generation Grouping

/-! ## What the visitor does not reach -/

section Unreached

variable {σ τ : Type}

/-- The parser states in an item that the visitor of the item does not reach. -/
def Item.unreached (i : Item σ) : List σ :=
  i.hidden.flatMap Expr.states ++ i.visited.flatMap Expr.shared

theorem attributeValues_map (f : σ → τ) (as : List (Attribute σ)) :
    attributeValues (as.map (·.map f)) = (attributeValues as).map (·.map f) := by
  simp [attributeValues, List.filterMap_map, List.map_filterMap, Attribute.map]

theorem FieldInfo.visited_map (f : σ → τ) (i : FieldInfo σ) :
    (i.map f).visited = i.visited.map (·.map f) := by
  simp [FieldInfo.visited, FieldInfo.map, attributeValues_map]

theorem FieldInfo.hidden_map (f : σ → τ) (i : FieldInfo σ) :
    (i.map f).hidden = i.hidden.map (·.map f) := by
  simp [FieldInfo.hidden, FieldInfo.map, Option.toList_map]

theorem FieldConstant.toExpr_map (f : σ → τ) (c : FieldConstant σ) :
    (c.map f).toExpr = c.toExpr.map f := by
  cases c with
  | simple c => rfl
  | tuple es =>
    induction es with
    | nil => rfl
    | cons e es ih => simpa [FieldConstant.map, FieldConstant.toExpr, Expr.map] using ih

theorem Field.exprs_map (f : σ → τ) (g : Field σ) : (g.map f).exprs = g.exprs.map (·.map f) := by
  induction g with
  | _ => simp_all [Field.map, Field.exprs, FieldInfo.exprs, FieldInfo.visited_map,
      FieldInfo.hidden_map, FieldConstant.toExpr_map]

theorem Case.exprs_map (f : σ → τ) (c : Case σ) : (c.map f).exprs = c.exprs.map (·.map f) := by
  simp [Case.exprs, Case.map, List.flatMap_map, List.map_flatMap, Field.exprs_map]

theorem Item.visited_map (f : σ → τ) (i : Item σ) :
    (i.map f).visited = i.visited.map (·.map f) := by
  cases i with
  | field g =>
    cases g <;> simp [Item.map, Field.map, Item.visited, Field.visited, FieldInfo.visited_map]
  | switch s => simp [Item.map, Switch.map, Item.visited, Option.toList_map]
  | var v => simp [Item.map, Variable.map, Item.visited, attributeValues_map, Option.toList_map]
  | property a p => simp [Item.map, Attribute.map, Item.visited, Option.toList_map]

theorem Item.hidden_map (f : σ → τ) (i : Item σ) : (i.map f).hidden = i.hidden.map (·.map f) := by
  cases i with
  | field g =>
    cases g <;> simp [Item.map, Field.map, Item.hidden, Field.hidden, FieldInfo.hidden_map,
      FieldConstant.toExpr_map, Field.exprs_map]
  | switch s => simp [Item.map, Switch.map, Item.hidden, Option.toList_map, List.flatMap_map,
      List.map_flatMap, Case.exprs_map]
  | var | property => rfl

theorem Item.unreached_map (f : σ → τ) (i : Item σ) : (i.map f).unreached = i.unreached.map f := by
  simp [Item.unreached, Item.visited_map, Item.hidden_map, List.flatMap_map, List.map_flatMap]

theorem Field.exprs_cloned (g : Field σ) : g.cloned.exprs = g.exprs := by
  induction g with
  | vector i n c ih | list i c ih => simp only [Field.cloned, Field.exprs, ih]; rfl
  | _ => rfl

theorem Item.unreached_cloned (i : Item σ) : i.cloned.unreached = i.unreached := by
  have hcase : ∀ c : Case σ, c.cloned.exprs = c.exprs := fun c => by
    simp [Case.cloned, Case.exprs, List.flatMap_map, Field.exprs_cloned]
  cases i with
  | field g =>
    cases g <;> simp only [Item.unreached, Item.cloned, Field.cloned, Item.hidden, Field.hidden,
      Item.visited, Field.visited, Field.exprs_cloned] <;> rfl
  | switch s =>
    simp [Item.unreached, Item.cloned, Switch.cloned, Item.hidden, Item.visited, List.flatMap_map,
      hcase]
  | var | property => rfl

theorem Item.unreached_copyView (deps : List Dependency) (i : Item σ) :
    (i.copyView deps).unreached = i.unreached := by
  rw [Item.copyView, Item.marked, ← i.unreached_cloned]
  split_ifs
  · simp only [Item.unreached, Item.visited_setParsingOnly, Item.hidden_setParsingOnly]
  · rfl

end Unreached

/-! ## The compact unit -/

/-- A `self` is the one of the given unit. -/
def ParserState.Targets (unit : Ty) (s : ParserState) : Prop :=
  s.kind = .self → s.unit = unit ∧ s.type = unit

theorem ParserState.targets_retarget (unit : Ty) (s : ParserState) :
    (s.retarget unit).Targets unit := by
  intro hkind
  rw [ParserState.kind_retarget] at hkind
  simp [ParserState.retarget, hkind]

/-- All parser states in the items. -/
def itemStates (items : List (Item Nat)) : List Nat := (items.flatMap Item.exprs).flatMap Expr.states

theorem mem_itemStates {items : List (Item Nat)} {x : Nat} :
    x ∈ itemStates items ↔ x ∈ reached items ∨ ∃ i ∈ items, x ∈ i.unreached := by
  have hperm : ∀ (i : Item Nat) (e : Expr Nat), e ∈ i.exprs ↔ e ∈ i.visited ∨ e ∈ i.hidden :=
    fun i e => by rw [i.exprs_perm.mem_iff, List.mem_append]
  simp only [itemStates, reached, Item.unreached, List.mem_flatMap, List.mem_append, hperm]
  constructor
  · rintro ⟨e, ⟨i, hi, he | he⟩, hx⟩
    · rcases Expr.mem_states.mp hx with hx | hx
      · exact .inl ⟨e, ⟨i, hi, he⟩, hx⟩
      · exact .inr ⟨i, hi, .inr ⟨e, he, hx⟩⟩
    · exact .inr ⟨i, hi, .inl ⟨e, he, hx⟩⟩
  · rintro (⟨e, ⟨i, hi, he⟩, hx⟩ | ⟨i, hi, ⟨e, he, hx⟩ | ⟨e, he, hx⟩⟩)
    · exact ⟨e, ⟨i, hi, .inl he⟩, Expr.mem_states.mpr (.inl hx)⟩
    · exact ⟨e, ⟨i, hi, .inr he⟩, hx⟩
    · exact ⟨e, ⟨i, hi, .inl he⟩, Expr.mem_states.mpr (.inr hx)⟩

section Follows

variable {sizes : Sizes} {deps : List Dependency} {h₀ h h₁ : Heap} {es : List (Entry (Item Nat))}
  {is : List (Item Nat)}

/-- The new nodes of a compact unit are either reached or not. -/
theorem Follows.reached_disjoint (hf : Follows sizes deps h₀ h es is h₁)
    (hes : Below h₀ (es.flatMap (sources sizes))) {i : Item Nat} (hi : i ∈ is) {x : Nat}
    (hx : x ∈ i.unreached) : x ∉ reached is := by
  intro hreached
  have hfresh := hf.fresh_of_reached hreached
  -- Elements of tuples are nodes of the original unit.
  have hshared : ∀ e ∈ is.flatMap Item.exprs, x ∉ e.shared := by
    intro e he hx
    have hmem : x ∈ (es.flatMap (sources sizes)).flatMap Expr.shared := by
      rw [← hf.copied.shared]
      exact List.mem_flatMap.mpr ⟨e, he, hx⟩
    obtain ⟨e', he', hx'⟩ := List.mem_flatMap.mp hmem
    have hlt := hes e' he' x (Expr.mem_states.mpr (.inr hx'))
    have hle := hf.base.next
    omega
  -- The others are reached at most once.
  have hnodup : ((is.flatMap Item.visited).flatMap Expr.own ++
      (is.flatMap Item.hidden).flatMap Expr.own).Nodup := by
    rw [← List.flatMap_append]
    have hperm : (is.flatMap Item.exprs).Perm (is.flatMap Item.visited ++ is.flatMap Item.hidden) :=
      (List.Perm.flatMap_left is fun i _ => i.exprs_perm).trans
        (List.flatMap_append_perm is Item.visited Item.hidden).symm
    exact (hperm.flatMap_right Expr.own).nodup_iff.mp hf.copied.nodup
  have hmem : ∀ e ∈ i.visited ++ i.hidden, e ∈ is.flatMap Item.exprs := fun e he =>
    List.mem_flatMap.mpr ⟨i, hi, i.exprs_perm.mem_iff.mpr he⟩
  rcases List.mem_append.mp hx with hx | hx
  · obtain ⟨e, he, hx⟩ := List.mem_flatMap.mp hx
    rcases Expr.mem_states.mp hx with hx | hx
    · have hhidden : x ∈ (is.flatMap Item.hidden).flatMap Expr.own :=
        List.mem_flatMap.mpr ⟨e, List.mem_flatMap.mpr ⟨i, hi, he⟩, hx⟩
      exact (List.nodup_append.mp hnodup).2.2 x hreached x hhidden rfl
    · exact hshared e (hmem e (List.mem_append_right _ he)) hx
  · obtain ⟨e, he, hx⟩ := List.mem_flatMap.mp hx
    exact hshared e (hmem e (List.mem_append_left _ he)) hx

end Follows

/-- The parser states that the visitor of a compact unit does not reach, as they stand in the unit it
is made from. -/
def entryUnreached (sizes : Sizes) : Entry (Item Nat) → List Nat
  | .single i => i.unreached
  | .range fields => (rangeLength sizes fields).toList.flatMap Expr.shared

theorem Renders.unreached {sizes : Sizes} {deps : List Dependency} {σ : Type} {f f' : Nat → σ}
    {e : Entry (Item Nat)} {c : Item Nat} (hr : Renders sizes deps f f' e c) :
    c.unreached.map f' = (entryUnreached sizes e).map f := by
  cases hr with
  | single hview =>
    rw [← Item.unreached_map, hview, Item.unreached_copyView, Item.unreached_map]
    rfl
  | range hlen hview =>
    have hshared := congrArg Expr.shared hview
    rw [Expr.shared_map, Expr.shared_map] at hshared
    simpa [entryUnreached, hlen, Item.unreached, visited_rangeField, hidden_rangeField]

/-- What holds of all entries holds of all items they are rendered to, and the other way round. -/
theorem forall_iff_of_forall₂ {α β : Type} {R : α → β → Prop} {P : α → Prop} {Q : β → Prop} {as : List α}
    {bs : List β} (hr : List.Forall₂ R as bs) (hPQ : ∀ a b, R a b → (P a ↔ Q b)) :
    (∀ a ∈ as, P a) ↔ ∀ b ∈ bs, Q b := by
  induction hr with
  | nil => simp
  | cons hab _ ih => simp [hPQ _ _ hab, ih]

theorem forall_unreached {sizes : Sizes} {deps : List Dependency} {σ : Type} {f f' : Nat → σ}
    {es : List (Entry (Item Nat))} {is : List (Item Nat)}
    (hr : List.Forall₂ (Renders sizes deps f f') es is) (P : σ → Prop) :
    (∀ e ∈ es, ∀ x ∈ entryUnreached sizes e, P (f x)) ↔ ∀ c ∈ is, ∀ x ∈ c.unreached, P (f' x) := by
  refine forall_iff_of_forall₂ hr fun e c hec => ?_
  have hstates := congrArg (fun l : List σ => ∀ s ∈ l, P s) hec.unreached
  simpa only [List.mem_map, forall_exists_index, and_imp, forall_apply_eq_imp_iff₂, eq_iff_iff]
    using hstates.symm

/-- What stands in the length of a range stands in the length of one of its fields. -/
theorem mem_rangeLength {sizes : Sizes} {fields : List (Item Nat)} {α : Type}
    {parts : Expr Nat → List α} (hparts : ∀ a b, parts (.binary .plus a b) = parts a ++ parts b)
    {x : α} : x ∈ (rangeLength sizes fields).toList.flatMap parts ↔
      ∃ j ∈ fields, ∃ e, j.serializedLength sizes = some e ∧ x ∈ parts e := by
  induction fields using List.reverseRecOn with
  | nil => simp [rangeLength]
  | append_singleton run i ih =>
    cases he : i.serializedLength sizes with
    | none =>
      have hsame : rangeLength sizes (run ++ [i]) = rangeLength sizes run := by
        simp [rangeLength, he]
      simp [hsame, ih, he]
    | some e =>
      have hadd : parts (addLength (rangeLength sizes run) e) =
          (rangeLength sizes run).toList.flatMap parts ++ parts e := by
        cases rangeLength sizes run <;> simp [addLength, hparts]
      simp [rangeLength_concat he, hadd, ih, he, or_and_right, exists_or]

theorem mem_shared_rangeLength {sizes : Sizes} {fields : List (Item Nat)} {x : Nat} :
    x ∈ (rangeLength sizes fields).toList.flatMap Expr.shared ↔
      ∃ j ∈ fields, ∃ e, j.serializedLength sizes = some e ∧ x ∈ e.shared :=
  mem_rangeLength fun _ _ => rfl

theorem below_rangeLength {sizes : Sizes} {h : Heap} (hsizes : sizes.Below h)
    {fields : List (Item Nat)} (hfields : ∀ i ∈ fields, Below h i.exprs) :
    Below h (rangeLength sizes fields).toList := by
  induction fields using List.reverseRecOn with
  | nil => simp [rangeLength, Below]
  | append_singleton run i ih =>
    have hrun := ih fun j hj => hfields j (by simp [hj])
    cases he : i.serializedLength sizes with
    | none => simpa [rangeLength, he] using hrun
    | some e =>
      rw [rangeLength_concat he]
      exact below_addLength hrun (i.below_serializedLength hsizes (hfields i (by simp)) he)

/-- A copy of the item stands in the compact unit. -/
def Item.copied (sizes : Sizes) (deps : List Dependency) (i : Item Nat) : Prop :=
  i.action deps ≠ .drop ∧ (i.action deps = .hold → i.known sizes = false)

/-- The item is part of a range of the compact unit. -/
def Item.compacted (sizes : Sizes) (deps : List Dependency) (i : Item Nat) : Prop :=
  i.action deps = .hold ∧ i.known sizes = true

/-- No `self` that would have to be redirected stands where the visitor does not come to: in a copied
item, or in the elements of a tuple in the length of a compacted field. -/
structure Retargetable (sizes : Sizes) (h : Heap) (i : Instantiation) : Prop where
  copied : ∀ j ∈ i.unit.items, j.copied sizes i.dependencies → ∀ x ∈ j.unreached,
    (h.cell x).Targets (.unit i.id)
  compacted : ∀ j ∈ i.unit.items, j.compacted sizes i.dependencies →
    ∀ e, j.serializedLength sizes = some e → ∀ x ∈ e.shared, (h.cell x).Targets (.unit i.id)

section Produced

variable {sizes : Sizes} {h₀ h' start made : Heap} {i : Instantiation} {u : UnitType Nat}

theorem below_sources (hsizes : sizes.Below h₀)
    (hitems : ∀ j ∈ i.unit.items, Below h₀ j.exprs) {deps : List Dependency}
    {es : List (Entry (Item Nat))}
    (hes : Groups (·.action deps) (·.known sizes) i.unit.items es []) :
    Below h₀ (es.flatMap (sources sizes)) := by
  intro a ha
  obtain ⟨e, he, ha⟩ := List.mem_flatMap.mp ha
  cases e with
  | single j => exact hitems j (hes.mem_single.mp he).1 a ha
  | range fields =>
    refine below_rangeLength hsizes (fun j hj => ?_) a ha
    exact hitems j (hes.mem_range.mp ⟨fields, he, hj⟩).1

theorem Produced.targets_iff (hu : Produced sizes h₀ h' i u start made)
    (hes : Below h₀ ((group (·.action i.dependencies) (·.known sizes) i.unit.items).flatMap
      (sources sizes))) :
    (∀ x ∈ itemStates u.items, (h'.cell x).Targets (.unit i.id)) ↔
      ∀ c ∈ u.items, ∀ x ∈ c.unreached, (made.cell x).Targets (.unit i.id) := by
  have hbelow := hu.follows.copied.below (hes.mono hu.follows.base)
  have hcell : ∀ x ∈ itemStates u.items,
      h'.cell x = (made.replaceSelf (.unit i.id) u.items).cell x := fun x hx => by
    obtain ⟨e, he, hx⟩ := List.mem_flatMap.mp hx
    exact hu.le.cell x (hbelow e he x hx)
  constructor
  · intro htargets c hc x hx
    have hstate := mem_itemStates.mpr (.inr ⟨c, hc, hx⟩)
    have hunreached := hu.follows.reached_disjoint hes hc hx
    rw [← made.replaceSelf_unreached hunreached (.unit i.id), ← hcell x hstate]
    exact htargets x hstate
  · intro htargets x hstate
    rw [hcell x hstate]
    rcases mem_itemStates.mp hstate with hx | ⟨c, hc, hx⟩
    · rw [made.replaceSelf_reached hx]
      exact ParserState.targets_retarget _ _
    · rw [made.replaceSelf_unreached (hu.follows.reached_disjoint hes hc hx)]
      exact htargets c hc x hx

theorem retargetable_iff {es : List (Entry (Item Nat))}
    (hes : Groups (·.action i.dependencies) (·.known sizes) i.unit.items es []) :
    (∀ e ∈ es, ∀ x ∈ entryUnreached sizes e, (h₀.cell x).Targets (.unit i.id)) ↔
      Retargetable sizes h₀ i := by
  constructor
  · intro htargets
    refine ⟨fun j hj hcopied x hx => ?_, fun j hj hcompacted e he x hx => ?_⟩
    · exact htargets _ (hes.mem_single.mpr ⟨hj, hcopied⟩) x hx
    · obtain ⟨fields, hfields, hmem⟩ := hes.mem_range.mpr ⟨hj, hcompacted⟩
      exact htargets _ hfields x (mem_shared_rangeLength.mpr ⟨j, hmem, e, he, hx⟩)
  · intro hr e he x hx
    cases e with
    | single j =>
      obtain ⟨hj, hcopied⟩ := hes.mem_single.mp he
      exact hr.copied j hj hcopied x hx
    | range fields =>
      obtain ⟨j, hmem, e, hlen, hx⟩ := mem_shared_rangeLength.mp hx
      obtain ⟨hj, hcompacted⟩ := hes.mem_range.mp ⟨fields, he, hmem⟩
      exact hr.compacted j hj hcompacted e hlen x hx

end Produced

/-- Running the generator changes no parser state that existed before, and the compact unit of an
instantiation has only redirected ones exactly if the instantiation is retargetable. -/
theorem retargets_iff {sizes : Sizes} {g g' : InstantiationTypeGenerator}
    (hsizes : sizes.Below g.heap) (hg : g.curCompactableFields = []) {is : List Instantiation}
    (his : ∀ i ∈ is, ∀ j ∈ i.unit.items, Below g.heap j.exprs) {us : List (UnitType Nat)}
    (hrun : g.run sizes is = some (us, g')) :
    (∀ i ∈ is, ∀ x ∈ itemStates i.unit.items, g'.heap.cell x = g.heap.cell x) ∧
      List.Forall₂ (fun i u => (∀ x ∈ itemStates u.items, (g'.heap.cell x).Targets (.unit i.id)) ↔
        Retargetable sizes g.heap i) is us := by
  obtain ⟨hle, hall⟩ :=
    InstantiationTypeGenerator.run_produces hsizes (Heap.le_refl _) hg his hrun
  constructor
  · intro i hi x hx
    obtain ⟨e, he, hx⟩ := List.mem_flatMap.mp hx
    obtain ⟨j, hj, he⟩ := List.mem_flatMap.mp he
    exact hle.cell x (his i hi j hj e he x hx)
  · refine hall.imp fun i u ⟨start, made, hu⟩ => ?_
    have hgroups := groups_group (·.action i.dependencies) (·.known sizes) i.unit.items
    rw [hu.targets_iff (below_sources hsizes hu.below hgroups),
      ← forall_unreached (hu.follows.renders (Heap.le_refl made)), retargetable_iff hgroups]

/-- `size: uint8; data: bytes &length = self.size;` -/
def sizedData : List (Item Nat) :=
  [.field (.atomic { id := "size", type := some (.atomic (.integer 8 false)) }),
    .field (.atomic
      { id := "data"
        type := some bytes
        attributes := [⟨"length",
          some (.binary .attribute (.parserState 0) (.memberAttribute "size")), false⟩] })]

/-- An instantiation of the unit with the given items that needs the field `size`. -/
def compactOf (items : List (Item Nat)) : Instantiation :=
  ⟨"Compact", ⟨"Message", items⟩, [⟨["size"], {.parsing, .serializing}⟩]⟩

theorem below_noSizes (h : Heap) : noSizes.Below h := fun _ _ he => by cases he

theorem sizedData_retargetable : Retargetable noSizes newGenerator.heap (compactOf sizedData) := by
  have hunreached : ∀ j ∈ sizedData, j.unreached = [] := by decide
  have hshared : ∀ j ∈ sizedData, ∀ e ∈ j.serializedLength noSizes, e.shared = [] := by decide
  refine ⟨fun j hj _ x hx => ?_, fun j hj _ e he x hx => ?_⟩
  · simp [hunreached j hj] at hx
  · simp [hshared j hj e he] at hx

theorem retargets_sizedData : ∃ us g', newGenerator.run noSizes [compactOf sizedData] = some (us, g') ∧
    (∀ i ∈ [compactOf sizedData], ∀ x ∈ itemStates i.unit.items,
        g'.heap.cell x = newGenerator.heap.cell x) ∧
      List.Forall₂ (fun i u => (∀ x ∈ itemStates u.items, (g'.heap.cell x).Targets (.unit i.id)) ↔
        Retargetable noSizes newGenerator.heap i) [compactOf sizedData] us ∧
        Retargetable noSizes newGenerator.heap (compactOf sizedData) := by
  have hbelow : ∀ i ∈ [compactOf sizedData], ∀ j ∈ i.unit.items, Below newGenerator.heap j.exprs := by
    unfold Below
    decide
  obtain ⟨⟨us, g'⟩, hrun⟩ : ∃ r, newGenerator.run noSizes [compactOf sizedData] = some r := ⟨_, rfl⟩
  obtain ⟨hframe, hall⟩ := retargets_iff (below_noSizes _) rfl hbelow hrun
  exact ⟨us, g', hrun, hframe, hall, sizedData_retargetable⟩

/-- `kind: uint8; size: uint8; switch (self.kind) { 1 -> data: bytes &length = self.size; }` -/
def switchMessage : List (Item Nat) :=
  let byte : Option Ty := some (.atomic (.integer 8 false))
  [.field (.atomic { id := "kind", type := byte }), .field (.atomic { id := "size", type := byte }),
    payload false]

/-- In the copy of a switch the fields of the cases still refer to the original unit. -/
theorem case_field_not_retargeted : ∃ us g',
    newGenerator.run noSizes [compactOf switchMessage] = some (us, g') ∧
      ∃ u ∈ us, ∃ x ∈ itemStates u.items, (g'.heap.cell x).kind = .self ∧
        (g'.heap.cell x).unit = .unit "Message" := by
  have hany : ((newGenerator.run noSizes [compactOf switchMessage]).any fun r =>
      r.1.any fun u => (itemStates u.items).any fun x =>
        decide ((r.2.heap.cell x).kind = .self ∧ (r.2.heap.cell x).unit = .unit "Message")) =
      true := by
    decide
  obtain ⟨⟨us, g'⟩, hrun, hus⟩ := (Option.any_eq_true _ _).mp hany
  obtain ⟨u, hu, hx⟩ := List.any_eq_true.mp hus
  obtain ⟨x, hx, hcell⟩ := List.any_eq_true.mp hx
  exact ⟨us, g', hrun, u, hu, x, hx, of_decide_eq_true hcell⟩

end Diffingo.Ast
