import Diffingo.Generation.InstantiationTypeGenerator
import Diffingo.Library.Grouping
import Diffingo.Spec.Length

/-!
# Compact units as syntax trees

`InstantiationTypeGenerator` on syntax trees with all kinds of items. The copies of items and lengths
are clones; afterwards `SelfReplacerVisitor` changes the parser states that it comes to. One generator
object processes all instantiations of a module.

What the generator emits for a unit is a grouping of the unit's items: a clone for each entry that
is a single item, and a field of the summed length for each range.
-/

namespace Diffingo.Ast

open Spec Generation Grouping

section Items

variable {σ : Type}

def FieldInfo.setParsingOnly (i : FieldInfo σ) : FieldInfo σ := { i with parsingOnly := true }

def Field.setParsingOnly : Field σ → Field σ
  | .atomic i => .atomic i.setParsingOnly
  | .constant i c t => .constant i.setParsingOnly c t
  | .ctor i c => .ctor i.setParsingOnly c
  | .unknown i r ps => .unknown i.setParsingOnly r ps
  | .unit i ps => .unit i.setParsingOnly ps
  | .vector i n c => .vector i.setParsingOnly n c
  | .list i c => .list i.setParsingOnly c

def Item.setParsingOnly : Item σ → Item σ
  | .field f => .field f.setParsingOnly
  | .switch s => .switch { s with parsingOnly := true }
  | .var v => .var { v with parsingOnly := true }
  | .property a _ => .property a true

/-- What the application needs the item for. -/
def Item.context (deps : List Dependency) (i : Item σ) : Finset DependencyContext :=
  dependencyContextFor deps [i.id]

/-- The mark of an item that is only needed while parsing. -/
def Item.marked (deps : List Dependency) (i : Item σ) (copy : Item σ) : Item σ :=
  if i.context deps = {.parsing} then copy.setParsingOnly else copy

/-- The field that stands for a range of the input. -/
def rangeField (n : Nat) (length : Expr σ) : Item σ :=
  .field (.atomic
    { id := anonymousId n
      anonymous := true
      applicationAccessible := false
      type := some bytes
      attributes := [⟨"length", some length, false⟩] })

theorem visited_rangeField (n : Nat) (length : Expr σ) : (rangeField n length).visited = [length] :=
  rfl

theorem hidden_rangeField (n : Nat) (length : Expr σ) : (rangeField n length).hidden = [] := rfl

theorem exprs_rangeField (n : Nat) (length : Expr σ) : (rangeField n length).exprs = [length] := rfl

/-- The length of the current range with one more field. -/
def addLength (len : Option (Expr σ)) (e : Expr σ) : Expr σ :=
  match len with
  | none => e
  | some e' => .binary .plus e' e

end Items

/-- The visitor of the parser states: `self` becomes the given unit. -/
def ParserState.retarget (unit : Ty) (s : ParserState) : ParserState :=
  match s.kind with
  | .self => { s with unit, type := unit }
  | .dollarDollar | .parameter _ => { s with unit }

/-- The parser states that `SelfReplacerVisitor` comes to: it visits the expressions that are children
of the items. -/
def reached (items : List (Item Nat)) : List Nat := (items.flatMap Item.visited).flatMap Expr.own

/-- `SelfReplacerVisitor`. -/
def Heap.replaceSelf (unit : Ty) (items : List (Item Nat)) (h : Heap) : Heap where
  next := h.next
  cell x := if x ∈ reached items then (h.cell x).retarget unit else h.cell x

theorem Heap.replaceSelf_reached {items : List (Item Nat)} {x : Nat} (hx : x ∈ reached items)
    (unit : Ty) (h : Heap) : (h.replaceSelf unit items).cell x = (h.cell x).retarget unit :=
  if_pos hx

theorem Heap.replaceSelf_unreached {items : List (Item Nat)} {x : Nat} (hx : x ∉ reached items)
    (unit : Ty) (h : Heap) : (h.replaceSelf unit items).cell x = h.cell x :=
  if_neg hx

/-- The state of the visitor, with `Item::id_counter_` and the nodes created so far. -/
structure InstantiationTypeGenerator where
  curUnitItems : List (Item Nat) := []
  curCompactableFields : List (Item Nat) := []
  idCounter : Nat
  heap : Heap

namespace InstantiationTypeGenerator

/-- A copy of the item is added; the constructor of a switch takes an anonymous name. -/
def addCopy (g : InstantiationTypeGenerator) (change : Item Nat → Item Nat) (i : Item Nat) :
    Option InstantiationTypeGenerator := do
  let (copy, heap) ← i.clone g.heap
  return { g with
    curUnitItems := g.curUnitItems ++ [change copy]
    idCounter := match i with
      | .switch _ => g.idCounter + 1
      | _ => g.idCounter
    heap }

def addFieldOfLength (g : InstantiationTypeGenerator) :
    Option (Expr Nat) → Option InstantiationTypeGenerator
  | none => some g
  | some e => do
    let (length, heap) ← e.clone g.heap
    return { g with
      curUnitItems := g.curUnitItems ++ [rangeField (g.idCounter + 1) length]
      idCounter := g.idCounter + 1
      heap }

variable (sizes : Sizes)

/-- The loop of `compactAndAddItems`; `len` is the length of the current range. -/
def compactLoop : InstantiationTypeGenerator → Option (Expr Nat) → List (Item Nat) →
    Option InstantiationTypeGenerator
  | g, len, [] => g.addFieldOfLength len
  | g, len, i :: rest =>
    match i.serializedLength sizes with
    | some e => compactLoop g (some (addLength len e)) rest
    | none => do
      let g ← g.addFieldOfLength len
      let g ← g.addCopy id i
      compactLoop g none rest

def compactAndAddItems (g : InstantiationTypeGenerator) : Option InstantiationTypeGenerator := do
  let g ← compactLoop sizes g none g.curCompactableFields
  return { g with curCompactableFields := [] }

/-- `visit(Item)`. -/
def visitItem (deps : List Dependency) (g : InstantiationTypeGenerator) (i : Item Nat) :
    Option InstantiationTypeGenerator :=
  if i.context deps ≠ ∅ then
    match i with
    | .var _ => g.addCopy (i.marked deps) i
    | _ => do
      let g ← g.compactAndAddItems sizes
      g.addCopy (i.marked deps) i
  else
    match i with
    | .field _ | .switch _ => some { g with curCompactableFields := g.curCompactableFields ++ [i] }
    | .var _ => some g
    | .property _ _ => g.addCopy id i

/-- The items of a unit, one after the other. -/
def visitItems (deps : List Dependency) :
    InstantiationTypeGenerator → List (Item Nat) → Option InstantiationTypeGenerator
  | g, [] => some g
  | g, i :: rest => do
    let g ← visitItem sizes deps g i
    visitItems deps g rest

/-- `visit(Unit)`. -/
def visitUnit (deps : List Dependency) (name : String) (g : InstantiationTypeGenerator)
    (u : UnitType Nat) : Option (UnitType Nat × InstantiationTypeGenerator) := do
  let g ← visitItems sizes deps { g with curUnitItems := [] } u.items
  let g ← g.compactAndAddItems sizes
  return (⟨name, g.curUnitItems⟩,
    { g with heap := g.heap.replaceSelf (.unit name) g.curUnitItems })

end InstantiationTypeGenerator

/-- An instantiation after its dependencies have been resolved. -/
structure Instantiation where
  id : String
  unit : UnitType Nat
  dependencies : List Dependency

namespace InstantiationTypeGenerator

variable (sizes : Sizes)

/-- `run`: the compact units of the instantiations of a module. -/
def run (g : InstantiationTypeGenerator) :
    List Instantiation → Option (List (UnitType Nat) × InstantiationTypeGenerator)
  | [] => some ([], g)
  | i :: rest => do
    let (u, g) ← visitUnit sizes i.dependencies i.id g i.unit
    let (us, g) ← run g rest
    return (u :: us, g)

end InstantiationTypeGenerator

/-! ## Marks -/

section Marks

variable {σ τ : Type}

@[simp] theorem Item.id_map (f : σ → τ) (i : Item σ) : (i.map f).id = i.id := by
  cases i with
  | field g => cases g <;> rfl
  | switch | var | property => rfl

@[simp] theorem Item.context_map (deps : List Dependency) (f : σ → τ) (i : Item σ) :
    (i.map f).context deps = i.context deps := by
  simp [Item.context]

theorem Item.visited_setParsingOnly (i : Item σ) : i.setParsingOnly.visited = i.visited := by
  cases i with
  | field g => cases g <;> rfl
  | switch | var | property => rfl

theorem Item.hidden_setParsingOnly (i : Item σ) : i.setParsingOnly.hidden = i.hidden := by
  cases i with
  | field g => cases g <;> rfl
  | switch | var | property => rfl

theorem Item.exprs_setParsingOnly (i : Item σ) : i.setParsingOnly.exprs = i.exprs := by
  cases i with
  | field g => cases g <;> rfl
  | switch | var | property => rfl

theorem Item.map_setParsingOnly (f : σ → τ) (i : Item σ) :
    i.setParsingOnly.map f = (i.map f).setParsingOnly := by
  cases i with
  | field g => cases g <;> rfl
  | switch | var | property => rfl

/-- A change that leaves the expressions as they are. -/
structure Mark (change : Item Nat → Item Nat) (view : Item ParserState → Item ParserState) :
    Prop where
  exprs : ∀ c, (change c).exprs = c.exprs
  map : ∀ (f : Nat → ParserState) c, (change c).map f = view (c.map f)

theorem mark_marked (deps : List Dependency) (i : Item Nat) (f : Nat → ParserState) :
    Mark (i.marked deps) ((i.map f).marked deps) := by
  constructor
  · intro c
    unfold Item.marked
    split_ifs
    · exact c.exprs_setParsingOnly
    · rfl
  · intro f c
    unfold Item.marked
    rw [Item.context_map]
    split_ifs
    · exact c.map_setParsingOnly f
    · rfl

/-- An item that nothing depends on is not marked. -/
theorem mark_id {deps : List Dependency} {i : Item Nat} (hi : i.context deps = ∅)
    (f : Nat → ParserState) : Mark id ((i.map f).marked deps) := by
  have hid : i.marked deps = id := by
    funext c
    rw [Item.marked, hi, if_neg (by simp), id]
  exact hid ▸ mark_marked deps i f

end Marks

/-! ## The entries of a compact unit -/

section Entries

variable (sizes : Sizes) (deps : List Dependency)

def Item.kept (i : Item Nat) : Bool := i.context deps ≠ ∅

def Item.known (i : Item Nat) : Bool := (i.serializedLength sizes).isSome

/-- What `visit(Item)` does with an item. -/
def Item.action (i : Item Nat) : Action :=
  match i, i.kept deps with
  | .var _, true => .pass
  | .var _, false => .drop
  | .property _ _, false => .pass
  | .field _, false | .switch _, false => .hold
  | _, true => .cut

/-- The length that the loop of `compactAndAddItems` builds for a range. -/
def rangeLength (fields : List (Item Nat)) : Option (Expr Nat) :=
  (fields.filterMap (·.serializedLength sizes)).foldl (fun len e => some (addLength len e)) none

/-- What the copy of an item looks like. -/
def Item.copyView {σ : Type} (i : Item σ) : Item σ := i.marked deps i.cloned

/-- The item of the compact unit that an entry becomes; `f` and `f'` tell what the parser states of
the unit and of the compact unit look like. -/
inductive Renders {σ : Type} (f f' : Nat → σ) : Entry (Item Nat) → Item Nat → Prop
  | single {i c : Item Nat} (hview : c.map f' = (i.map f).copyView deps) : Renders f f' (.single i) c
  | range {fields : List (Item Nat)} {len length : Expr Nat} {n : Nat}
      (hlen : rangeLength sizes fields = some len) (hview : length.map f' = len.map f) :
      Renders f f' (.range fields) (rangeField n length)

/-- The expressions that an entry is cloned from. -/
def sources : Entry (Item Nat) → List (Expr Nat)
  | .single i => i.exprs
  | .range fields => (rangeLength sizes fields).toList

/-- The items of the compact unit have been made from the entries, with new nodes after those of
`h`. The unit itself consists of nodes of `h₀`. -/
structure Follows (h₀ h : Heap) (entries : List (Entry (Item Nat))) (items : List (Item Nat))
    (h' : Heap) : Prop where
  base : h₀ ≤ h
  copied : Copied h (entries.flatMap (sources sizes)) (items.flatMap Item.exprs) h'
  renders : ∀ ⦃h₂⦄, h' ≤ h₂ → List.Forall₂ (Renders sizes deps h₀.cell h₂.cell) entries items

end Entries

section Follows

variable {sizes : Sizes} {deps : List Dependency} {h₀ h h₁ h₂ : Heap}
  {es fs : List (Entry (Item Nat))} {is js : List (Item Nat)}

theorem Follows.nil (hle : h₀ ≤ h) : Follows sizes deps h₀ h [] [] h :=
  ⟨hle, Copied.nil h, fun _ _ => .nil⟩

/-- One more entry, made from the heap that the earlier ones have left. -/
theorem Follows.concat (hf : Follows sizes deps h₀ h es is h₁) {e : Entry (Item Nat)} {c : Item Nat}
    (hcopied : Copied h₁ (sources sizes e) c.exprs h₂)
    (hrenders : ∀ ⦃h₃⦄, h₂ ≤ h₃ → Renders sizes deps h₀.cell h₃.cell e c) :
    Follows sizes deps h₀ h (es ++ [e]) (is ++ [c]) h₂ := by
  refine ⟨hf.base, ?_, ?_⟩
  · rw [List.flatMap_append, List.flatMap_append, List.flatMap_singleton, List.flatMap_singleton]
    exact hf.copied.append hcopied
  · intro h₃ hle
    exact List.rel_append (hf.renders (Heap.le_trans hcopied.le hle)) (.cons (hrenders hle) .nil)

theorem rangeLength_concat {run : List (Item Nat)} {i : Item Nat} {e : Expr Nat}
    (he : i.serializedLength sizes = some e) :
    rangeLength sizes (run ++ [i]) = some (addLength (rangeLength sizes run) e) := by
  simp [rangeLength, he]

theorem below_addLength {len : Option (Expr Nat)} {e : Expr Nat} (hlen : Below h len.toList)
    (he : Below h [e]) : Below h [addLength len e] := by
  cases len with
  | none => exact he
  | some l =>
    simp only [Below, Option.toList_some, List.mem_singleton, forall_eq] at hlen he
    simp only [Below, List.mem_singleton, forall_eq, addLength, Expr.states, List.mem_append]
    rintro x (hx | hx)
    · exact hlen x hx
    · exact he x hx

end Follows

namespace InstantiationTypeGenerator

variable {sizes : Sizes} {deps : List Dependency} {h₀ h : Heap} {es : List (Entry (Item Nat))}
  {g g' : InstantiationTypeGenerator}

/-- The generator has emitted the entries. -/
def Emitted (sizes : Sizes) (deps : List Dependency) (h₀ h : Heap)
    (es : List (Entry (Item Nat))) (g : InstantiationTypeGenerator) : Prop :=
  Follows sizes deps h₀ h es g.curUnitItems g.heap

theorem emitted_addCopy (hg : Emitted sizes deps h₀ h es g) {i : Item Nat} (hi : Below h₀ i.exprs)
    {change : Item Nat → Item Nat} (hchange : Mark change ((i.map h₀.cell).marked deps))
    (hrun : g.addCopy change i = some g') :
    Emitted sizes deps h₀ h (es ++ [.single i]) g' ∧
      g'.curCompactableFields = g.curCompactableFields := by
  obtain ⟨⟨copy, heap⟩, hclone, heq⟩ := Option.bind_eq_some_iff.mp hrun
  obtain ⟨hcopied, hview⟩ := clones_item hclone
  cases heq
  refine ⟨hg.concat (by rw [hchange.exprs]; exact hcopied) fun h₃ hle => .single ?_, rfl⟩
  rw [hchange.map]
  exact congrArg ((i.map h₀.cell).marked deps) (hview (Heap.le_trans hg.base hg.copied.le) hle hi)

theorem emitted_addFieldOfLength (hg : Emitted sizes deps h₀ h es g) {run : List (Item Nat)}
    (hrange : (rangeLength sizes run).isNone ↔ run = [])
    (hbelow : Below h₀ (rangeLength sizes run).toList)
    (hrun : g.addFieldOfLength (rangeLength sizes run) = some g') :
    Emitted sizes deps h₀ h (es ++ close run) g' ∧
      g'.curCompactableFields = g.curCompactableFields := by
  cases hlen : rangeLength sizes run with
  | none =>
    rw [hlen] at hrun
    cases hrun
    simp only [hlen, Option.isNone_none, true_iff] at hrange
    subst hrange
    exact ⟨by simpa [close] using hg, rfl⟩
  | some e =>
    rw [hlen] at hrun hbelow hrange
    obtain ⟨⟨length, heap⟩, hclone, heq⟩ := Option.bind_eq_some_iff.mp hrun
    obtain ⟨hcopied, hview⟩ := clones_expr hclone
    cases heq
    have hclose : close run = [.range run] := by
      cases run with
      | nil => simp at hrange
      | cons i rest => rfl
    rw [hclose]
    refine ⟨hg.concat ?_ fun h₃ hle => .range hlen (hview (Heap.le_trans hg.base hg.copied.le) hle hbelow), rfl⟩
    simpa [sources, hlen, exprs_rangeField] using hcopied

/-- The run is a range of known fields, so there is a length unless it is empty. -/
theorem isNone_rangeLength {run : List (Item Nat)} (hrun : ∀ i ∈ run, i.known sizes = true) :
    (rangeLength sizes run).isNone ↔ run = [] := by
  induction run using List.reverseRecOn with
  | nil => simp [rangeLength]
  | append_singleton run i _ =>
    obtain ⟨e, he⟩ := Option.isSome_iff_exists.mp (hrun i (by simp))
    simp [rangeLength_concat he]

theorem emitted_compactLoop (hsizes : sizes.Below h₀) {run fields : List (Item Nat)}
    (hg : Emitted sizes deps h₀ h es g) (hrun : ∀ i ∈ run, i.known sizes = true)
    (hlen : Below h₀ (rangeLength sizes run).toList) (hfields : ∀ i ∈ fields, Below h₀ i.exprs)
    (hdeps : ∀ i ∈ fields, i.context deps = ∅)
    (hloop : compactLoop sizes g (rangeLength sizes run) fields = some g') :
    Emitted sizes deps h₀ h (es ++ flush (·.known sizes) run fields) g' := by
  -- `run` grows with the fields of known length and is emitted at the next one of unknown length.
  induction fields generalizing run es g with
  | nil => exact (emitted_addFieldOfLength hg (isNone_rangeLength hrun) hlen hloop).1
  | cons i rest ih =>
    have hi := hfields i (by simp)
    have hrest : ∀ j ∈ rest, Below h₀ j.exprs := fun j hj => hfields j (by simp [hj])
    have hdeps' : ∀ j ∈ rest, j.context deps = ∅ := fun j hj => hdeps j (by simp [hj])
    rw [compactLoop] at hloop
    cases he : i.serializedLength sizes with
    | some e =>
      have hknown : i.known sizes = true := by simp [Item.known, he]
      rw [he] at hloop
      have hconcat : rangeLength sizes (run ++ [i]) = _ := rangeLength_concat he
      simp only [← hconcat] at hloop
      rw [flush, if_pos hknown]
      refine ih hg ?_ ?_ hrest hdeps' hloop
      · simpa [or_imp, forall_and, hknown] using hrun
      · rw [rangeLength_concat he]
        exact below_addLength hlen (i.below_serializedLength hsizes hi he)
    | none =>
      have hknown : ¬ i.known sizes = true := by simp [Item.known, he]
      rw [he] at hloop
      obtain ⟨g₁, hrange, hloop⟩ := Option.bind_eq_some_iff.mp hloop
      obtain ⟨g₂, hcopy, hloop⟩ := Option.bind_eq_some_iff.mp hloop
      obtain ⟨hg₁, -⟩ := emitted_addFieldOfLength hg (isNone_rangeLength hrun) hlen hrange
      obtain ⟨hg₂, -⟩ := emitted_addCopy hg₁ hi (mark_id (hdeps i (by simp)) h₀.cell) hcopy
      have hnil : Below h₀ (rangeLength sizes []).toList := by simp [rangeLength, Below]
      rw [flush, if_neg hknown]
      simpa using ih hg₂ (by simp) hnil hrest hdeps' hloop

/-- The generator is in the state of the grouping. -/
structure Simulates (sizes : Sizes) (deps : List Dependency) (h₀ h : Heap) (b : Buffer (Item Nat))
    (g : InstantiationTypeGenerator) : Prop where
  emitted : Emitted sizes deps h₀ h b.out g
  held : g.curCompactableFields = b.held
  below : ∀ i ∈ b.held, Below h₀ i.exprs
  unneeded : ∀ i ∈ b.held, i.context deps = ∅

variable {b : Buffer (Item Nat)}

theorem Simulates.compactAndAddItems (hsizes : sizes.Below h₀) (hg : Simulates sizes deps h₀ h b g)
    (hrun : g.compactAndAddItems sizes = some g') :
    Simulates sizes deps h₀ h ⟨b.out ++ flush (·.known sizes) [] b.held, []⟩ g' := by
  obtain ⟨g₁, hloop, heq⟩ := Option.bind_eq_some_iff.mp hrun
  rw [hg.held] at hloop
  cases heq
  have hnil : Below h₀ (rangeLength sizes []).toList := by simp [rangeLength, Below]
  have hemitted := emitted_compactLoop hsizes hg.emitted (by simp) hnil hg.below hg.unneeded hloop
  exact ⟨hemitted, rfl, by simp, by simp⟩

theorem Simulates.addCopy (hg : Simulates sizes deps h₀ h b g) {i : Item Nat} (hi : Below h₀ i.exprs)
    {change : Item Nat → Item Nat} (hchange : Mark change ((i.map h₀.cell).marked deps))
    (hrun : g.addCopy change i = some g') :
    Simulates sizes deps h₀ h ⟨b.out ++ [.single i], b.held⟩ g' := by
  obtain ⟨hemitted, hfields⟩ := emitted_addCopy hg.emitted hi hchange hrun
  exact ⟨hemitted, hfields.trans hg.held, hg.below, hg.unneeded⟩

theorem Simulates.visitItem (hsizes : sizes.Below h₀) (hg : Simulates sizes deps h₀ h b g)
    {i : Item Nat} (hi : Below h₀ i.exprs) (hrun : visitItem sizes deps g i = some g') :
    Simulates sizes deps h₀ h (step (·.action deps) (·.known sizes) b i) g' := by
  have hmark := mark_marked deps i h₀.cell
  unfold InstantiationTypeGenerator.visitItem at hrun
  by_cases hcontext : i.context deps = ∅
  · have hkept : i.kept deps = false := by simp [Item.kept, hcontext]
    rw [if_neg (not_not.mpr hcontext)] at hrun
    cases i with
    | field f | switch s =>
      cases hrun
      simp only [step, Item.action, hkept]
      refine ⟨hg.emitted, by rw [hg.held], ?_, ?_⟩
      · simpa [or_imp, forall_and, hi] using hg.below
      · simpa [or_imp, forall_and, hcontext] using hg.unneeded
    | var v =>
      cases hrun
      simpa only [step, Item.action, hkept] using hg
    | property a p =>
      simpa only [step, Item.action, hkept] using hg.addCopy hi (mark_id hcontext h₀.cell) hrun
  · have hkept : i.kept deps = true := by simp [Item.kept, hcontext]
    rw [if_pos hcontext] at hrun
    cases i with
    | field f | switch s | property a p =>
      obtain ⟨g₁, hcompact, hcopy⟩ := Option.bind_eq_some_iff.mp hrun
      simpa only [step, Item.action, hkept] using
        (hg.compactAndAddItems hsizes hcompact).addCopy hi hmark hcopy
    | var v => simpa only [step, Item.action, hkept] using hg.addCopy hi hmark hrun

theorem Simulates.visitItems (hsizes : sizes.Below h₀) (hg : Simulates sizes deps h₀ h b g)
    {items : List (Item Nat)} (hitems : ∀ i ∈ items, Below h₀ i.exprs)
    (hrun : visitItems sizes deps g items = some g') :
    Simulates sizes deps h₀ h (items.foldl (step (·.action deps) (·.known sizes)) b) g' := by
  induction items generalizing b g with
  | nil =>
    cases hrun
    exact hg
  | cons i rest ih =>
    obtain ⟨g₁, hvisit, hrest⟩ := Option.bind_eq_some_iff.mp hrun
    exact ih (hg.visitItem hsizes (hitems i (by simp)) hvisit) (fun j hj => hitems j (by simp [hj]))
      hrest

/-- The items of the compact unit before `self` is replaced are those of the unit's grouping. -/
theorem visitUnit_follows (hsizes : sizes.Below h₀) (hle : h₀ ≤ g.heap)
    (hg : g.curCompactableFields = []) {name : String} {u u' : UnitType Nat}
    (hu : ∀ i ∈ u.items, Below h₀ i.exprs)
    (hrun : visitUnit sizes deps name g u = some (u', g')) :
    g'.curCompactableFields = [] ∧ u'.id = name ∧ ∃ h₁ : Heap,
      g'.heap = h₁.replaceSelf (.unit name) u'.items ∧
        Follows sizes deps h₀ g.heap (group (·.action deps) (·.known sizes) u.items) u'.items h₁ := by
  obtain ⟨g₁, hvisit, hrun⟩ := Option.bind_eq_some_iff.mp hrun
  obtain ⟨g₂, hcompact, heq⟩ := Option.bind_eq_some_iff.mp hrun
  have hstart : Simulates sizes deps h₀ g.heap {} { g with curUnitItems := [] } :=
    ⟨Follows.nil hle, hg, by simp, by simp⟩
  have hend := (hstart.visitItems hsizes hu hvisit).compactAndAddItems hsizes hcompact
  cases heq
  exact ⟨hend.held, rfl, g₂.heap, rfl, hend.emitted⟩

end InstantiationTypeGenerator

/-! ## All instantiations of a module -/

theorem mem_exprs_of_visited {items : List (Item Nat)} {e : Expr Nat}
    (he : e ∈ items.flatMap Item.visited) : e ∈ items.flatMap Item.exprs := by
  obtain ⟨i, hi, he⟩ := List.mem_flatMap.mp he
  exact List.mem_flatMap.mpr ⟨i, hi, i.exprs_perm.mem_iff.mpr (List.mem_append_left _ he)⟩

theorem Follows.fresh_of_reached {sizes : Sizes} {deps : List Dependency} {h₀ h h₁ : Heap}
    {es : List (Entry (Item Nat))} {is : List (Item Nat)} (hf : Follows sizes deps h₀ h es is h₁)
    {x : Nat} (hx : x ∈ reached is) : h.next ≤ x := by
  obtain ⟨e, he, hx⟩ := List.mem_flatMap.mp hx
  exact (hf.copied.fresh x (List.mem_flatMap.mpr ⟨e, mem_exprs_of_visited he, hx⟩)).1

/-- No node that existed before is changed. -/
theorem Follows.le_replaceSelf {sizes : Sizes} {deps : List Dependency} {h₀ h h₁ : Heap}
    {es : List (Entry (Item Nat))} {is : List (Item Nat)} (hf : Follows sizes deps h₀ h es is h₁)
    (unit : Ty) : h ≤ h₁.replaceSelf unit is := by
  refine ⟨hf.copied.le.next, fun x hx => ?_⟩
  have hnot : x ∉ reached is := fun hmem => (hf.fresh_of_reached hmem).not_gt hx
  exact (Heap.replaceSelf_unreached hnot unit h₁).trans (hf.copied.le.cell x hx)

/-- The unit is the compact unit of the instantiation: nodes were created from `start` to `made`, and
those reached were changed; nothing has been changed afterwards. -/
structure Produced (sizes : Sizes) (h₀ h' : Heap) (i : Instantiation) (u : UnitType Nat)
    (start made : Heap) : Prop where
  id : u.id = i.id
  below : ∀ j ∈ i.unit.items, Below h₀ j.exprs
  follows : Follows sizes i.dependencies h₀ start
    (group (·.action i.dependencies) (·.known sizes) i.unit.items) u.items made
  le : made.replaceSelf (.unit i.id) u.items ≤ h'

theorem InstantiationTypeGenerator.run_produces {sizes : Sizes} {h₀ : Heap}
    (hsizes : sizes.Below h₀) {g g' : InstantiationTypeGenerator} (hle : h₀ ≤ g.heap)
    (hg : g.curCompactableFields = []) {is : List Instantiation}
    (his : ∀ i ∈ is, ∀ j ∈ i.unit.items, Below h₀ j.exprs) {us : List (UnitType Nat)}
    (hrun : run sizes g is = some (us, g')) :
    g.heap ≤ g'.heap ∧
      List.Forall₂ (fun i u => ∃ start made, Produced sizes h₀ g'.heap i u start made) is us := by
  induction is generalizing g us with
  | nil =>
    cases hrun
    exact ⟨Heap.le_refl _, .nil⟩
  | cons i rest ih =>
    obtain ⟨⟨u, g₁⟩, hvisit, hrun⟩ := Option.bind_eq_some_iff.mp hrun
    obtain ⟨⟨us, g₂⟩, hrest, heq⟩ := Option.bind_eq_some_iff.mp hrun
    cases heq
    have hi := his i (by simp)
    obtain ⟨hg₁, hid, h₁, hheap, hf⟩ := visitUnit_follows hsizes hle hg hi hvisit
    have hle₁ : g.heap ≤ g₁.heap := hheap ▸ hf.le_replaceSelf (.unit i.id)
    obtain ⟨hle₂, hall⟩ := ih (Heap.le_trans hle hle₁) hg₁ (fun j hj => his j (by simp [hj])) hrest
    exact ⟨Heap.le_trans hle₁ hle₂, .cons ⟨g.heap, h₁, hid, hi, hf, hheap ▸ hle₂⟩ hall⟩

/-! ## Termination -/

/-- The item and its length have clones. -/
structure Item.Copyable (sizes : Sizes) (i : Item Nat) : Prop where
  item : ∀ h, Runs i.clone h
  length : ∀ e, i.serializedLength sizes = some e → e.clonable = true

namespace InstantiationTypeGenerator

variable {sizes : Sizes} {g : InstantiationTypeGenerator}

theorem addCopy_runs (change : Item Nat → Item Nat) {i : Item Nat} (hi : ∀ h, Runs i.clone h) :
    ∃ g', g.addCopy change i = some g' ∧ g'.curCompactableFields = g.curCompactableFields := by
  obtain ⟨⟨copy, heap⟩, hclone⟩ := hi g.heap
  exact ⟨_, Option.bind_eq_some_iff.mpr ⟨_, hclone, rfl⟩, rfl⟩

theorem addFieldOfLength_runs {len : Option (Expr Nat)} (hlen : ∀ e ∈ len, e.clonable = true) :
    ∃ g', g.addFieldOfLength len = some g' := by
  cases len with
  | none => exact ⟨g, rfl⟩
  | some e =>
    obtain ⟨⟨length, heap⟩, hclone⟩ := (runs_expr e g.heap).mpr (hlen e rfl)
    exact ⟨_, Option.bind_eq_some_iff.mpr ⟨_, hclone, rfl⟩⟩

theorem clonable_none : ∀ e ∈ (none : Option (Expr Nat)), e.clonable = true := by simp

theorem compactLoop_runs {len : Option (Expr Nat)} (hlen : ∀ e ∈ len, e.clonable = true)
    {fields : List (Item Nat)} (hfields : ∀ i ∈ fields, i.Copyable sizes) :
    ∃ g', compactLoop sizes g len fields = some g' := by
  induction fields generalizing g len with
  | nil => exact addFieldOfLength_runs hlen
  | cons i rest ih =>
    have hi := hfields i (by simp)
    have hrest : ∀ j ∈ rest, j.Copyable sizes := fun j hj => hfields j (by simp [hj])
    rw [compactLoop]
    cases he : i.serializedLength sizes with
    | some e =>
      refine ih (fun l hl => ?_) hrest
      cases hl
      cases len with
      | none => exact hi.length e he
      | some l => simp [addLength, Expr.clonable, hlen l rfl, hi.length e he]
    | none =>
      obtain ⟨g₁, hrange⟩ := addFieldOfLength_runs (g := g) hlen
      obtain ⟨g₂, hcopy, -⟩ := addCopy_runs (g := g₁) id hi.item
      obtain ⟨g₃, hloop⟩ := ih (g := g₂) clonable_none hrest
      exact ⟨g₃, Option.bind_eq_some_iff.mpr
        ⟨g₁, hrange, Option.bind_eq_some_iff.mpr ⟨g₂, hcopy, hloop⟩⟩⟩

theorem compactAndAddItems_runs (hg : ∀ i ∈ g.curCompactableFields, i.Copyable sizes) :
    ∃ g', g.compactAndAddItems sizes = some g' ∧ g'.curCompactableFields = [] := by
  obtain ⟨g₁, hloop⟩ := compactLoop_runs (g := g) clonable_none hg
  exact ⟨_, Option.bind_eq_some_iff.mpr ⟨g₁, hloop, rfl⟩, rfl⟩

theorem visitItem_runs (deps : List Dependency)
    (hg : ∀ i ∈ g.curCompactableFields, i.Copyable sizes) {i : Item Nat} (hi : i.Copyable sizes) :
    ∃ g', visitItem sizes deps g i = some g' ∧ ∀ j ∈ g'.curCompactableFields, j.Copyable sizes := by
  obtain ⟨g₁, hcompact, hnil⟩ := compactAndAddItems_runs hg
  obtain ⟨g₂, hcopy, hsame⟩ := addCopy_runs (g := g₁) (i.marked deps) hi.item
  have hcut : ∃ g', (g.compactAndAddItems sizes >>= fun g => g.addCopy (i.marked deps) i) = some g' ∧
      ∀ j ∈ g'.curCompactableFields, j.Copyable sizes :=
    ⟨g₂, Option.bind_eq_some_iff.mpr ⟨g₁, hcompact, hcopy⟩, by simp [hsame, hnil]⟩
  have hpass : ∀ change, ∃ g', g.addCopy change i = some g' ∧
      ∀ j ∈ g'.curCompactableFields, j.Copyable sizes := fun change => by
    obtain ⟨g₃, hcopy, hsame⟩ := addCopy_runs (g := g) change hi.item
    exact ⟨g₃, hcopy, hsame ▸ hg⟩
  unfold visitItem
  split_ifs
  · cases i with
    | field f | switch s | property a p => exact hcut
    | var v => exact hpass _
  · cases i with
    | field f | switch s => exact ⟨_, rfl, by simpa [or_imp, forall_and, hi] using hg⟩
    | var v => exact ⟨g, rfl, hg⟩
    | property a p => exact hpass _

theorem visitItems_runs (deps : List Dependency)
    (hg : ∀ i ∈ g.curCompactableFields, i.Copyable sizes)
    {items : List (Item Nat)} (hitems : ∀ i ∈ items, i.Copyable sizes) :
    ∃ g', visitItems sizes deps g items = some g' ∧
      ∀ j ∈ g'.curCompactableFields, j.Copyable sizes := by
  induction items generalizing g with
  | nil => exact ⟨g, rfl, hg⟩
  | cons i rest ih =>
    obtain ⟨g₁, hvisit, hg₁⟩ := visitItem_runs deps hg (hitems i (by simp))
    obtain ⟨g₂, hrest, hg₂⟩ := ih hg₁ fun j hj => hitems j (by simp [hj])
    exact ⟨g₂, Option.bind_eq_some_iff.mpr ⟨g₁, hvisit, hrest⟩, hg₂⟩

theorem run_runs (hg : g.curCompactableFields = []) {is : List Instantiation}
    (his : ∀ i ∈ is, ∀ j ∈ i.unit.items, j.Copyable sizes) : ∃ r, run sizes g is = some r := by
  induction is generalizing g with
  | nil => exact ⟨_, rfl⟩
  | cons i rest ih =>
    have hstart : ∀ j ∈ ({ g with curUnitItems := [] } : InstantiationTypeGenerator)
        |>.curCompactableFields, j.Copyable sizes := by simp [hg]
    obtain ⟨g₁, hvisit, hg₁⟩ := visitItems_runs i.dependencies hstart (his i (by simp))
    obtain ⟨g₂, hcompact, hnil⟩ := compactAndAddItems_runs hg₁
    have hunit : visitUnit sizes i.dependencies i.id g i.unit = some (⟨i.id, g₂.curUnitItems⟩,
        { g₂ with heap := g₂.heap.replaceSelf (.unit i.id) g₂.curUnitItems }) :=
      Option.bind_eq_some_iff.mpr ⟨g₁, hvisit, Option.bind_eq_some_iff.mpr ⟨g₂, hcompact, rfl⟩⟩
    obtain ⟨r, hrest⟩ := ih (g := { g₂ with
      heap := g₂.heap.replaceSelf (.unit i.id) g₂.curUnitItems }) hnil fun j hj =>
        his j (by simp [hj])
    exact ⟨_, Option.bind_eq_some_iff.mpr ⟨_, hunit, Option.bind_eq_some_iff.mpr ⟨r, hrest, rfl⟩⟩⟩

end InstantiationTypeGenerator

end Diffingo.Ast
