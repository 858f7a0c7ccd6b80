import Mathlib
import Diffingo.Generation.CodeGenerator
import Diffingo.Generation.SelfReplacer

/-!
# The items of a compact unit

The type generator goes through the items of a unit with a buffer of the fields that it holds back.
Its result is a list of pieces: copies of items, and ranges that stand for the fields that were held
back when the range was closed. A variable that is kept is copied at once, so it comes before the
range of the fields around it.
-/

namespace Diffingo.Generation

open Diffingo.Spec Diffingo.Runtime

namespace InstantiationTypeGenerator

/-- The context in which an instantiation needs an item. -/
def itemContext (deps : List Dependency) (i : Item) : Finset DependencyContext :=
  dependencyContextFor deps [i.id]

/-- The instantiation needs the item. -/
def kept (deps : List Dependency) (i : Item) : Bool := itemContext deps i ≠ ∅

theorem kept_iff {deps : List Dependency} {i : Item} :
    kept deps i = true ↔ itemContext deps i ≠ ∅ := decide_eq_true_iff

/-- A piece of a compact unit: the copy of an item, or a field for the ones that were held back. -/
inductive Piece
  | copy (i : Item)
  | range (n : Nat) (held : List Item) (length : Expr)

/-- The item of the compact unit, before `self` is replaced. -/
def Piece.item (deps : List Dependency) : Piece → Item
  | .copy i => copyFor (itemContext deps i) i
  | .range n _ length => .field (rangeField n length)

/-- The items of the compact unit `name` for some pieces. -/
def render (deps : List Dependency) (name : String) (qs : List Piece) : List Item :=
  qs.map fun q => (q.item deps).replaceSelf name

/-- The lengths of the fields that are held back. -/
def lengths (held : List Item) : List Expr := held.filterMap Item.serializedLength

/-- The sum of the lengths of a range, from left to right. -/
def rangeLength (len : Option Expr) (es : List Expr) : Option Expr :=
  es.foldl (fun len e => some (addLength len e)) len

/-- The range for the fields that are held back; `n` is the last anonymous name. -/
def closeRange (n : Nat) (held : List Item) : List Piece :=
  match rangeLength none (lengths held) with
  | none => []
  | some e => [.range (n + 1) held e]

/-- The last anonymous name after the copy of an item. -/
def nameAfter (n : Nat) : Item → Nat
  | .switch _ => n + 1
  | _ => n

/-- The pieces of a list of items, with the fields that are held back before them. -/
def pieces (deps : List Dependency) : Nat → List Item → List Item → List Piece
  | n, held, [] => closeRange n held
  | n, held, i :: rest =>
    if kept deps i then
      match i with
      | .var _ => .copy i :: pieces deps n held rest
      | _ => closeRange n held ++
          .copy i :: pieces deps (nameAfter (n + (closeRange n held).length) i) [] rest
    else
      match i with
      | .field _ | .switch _ => pieces deps n (held ++ [i]) rest
      | .var _ => pieces deps n held rest
      | .property _ => .copy i :: pieces deps n held rest

/-- A field that can be held back has a known length. -/
def Measured (i : Item) : Prop :=
  match i with
  | .field _ | .switch _ => i.serializedLength.isSome = true
  | _ => True

theorem compactLoop_measured (g : InstantiationTypeGenerator) (len : Option Expr)
    {held : List Item} (h : ∀ i ∈ held, i.serializedLength.isSome = true) :
    compactLoop g len held = g.addFieldOfLength (rangeLength len (lengths held)) := by
  induction held generalizing len with
  | nil => rfl
  | cons i held ih =>
    obtain ⟨e, he⟩ := Option.isSome_iff_exists.mp (h i List.mem_cons_self)
    simp only [compactLoop, lengths, List.filterMap_cons, he]
    exact ih _ fun j hj => h j (List.mem_cons_of_mem _ hj)

/-- The fields that are held back become a range. -/
theorem compactAndAddItems_measured (deps : List Dependency) (g : InstantiationTypeGenerator)
    (h : ∀ i ∈ g.curCompactableFields, i.serializedLength.isSome = true) :
    g.compactAndAddItems =
      { curUnitItems := g.curUnitItems ++
          (closeRange g.idCounter g.curCompactableFields).map (Piece.item deps)
        curCompactableFields := []
        idCounter := g.idCounter + (closeRange g.idCounter g.curCompactableFields).length } := by
  unfold compactAndAddItems closeRange
  rw [compactLoop_measured g none h]
  cases rangeLength none (lengths g.curCompactableFields) <;>
    simp [addFieldOfLength, Piece.item]

/-- The generator produces the pieces of the items that are left. -/
theorem foldl_pieces {deps : List Dependency} {items : List Item}
    (hitems : ∀ i ∈ items, kept deps i = false → Measured i) {g : InstantiationTypeGenerator}
    (hg : ∀ i ∈ g.curCompactableFields, i.serializedLength.isSome = true) :
    (items.foldl (visitItem deps) g).compactAndAddItems.curUnitItems =
      g.curUnitItems ++ (pieces deps g.idCounter g.curCompactableFields items).map
        (Piece.item deps) := by
  induction items generalizing g with
  | nil =>
    rw [List.foldl_nil, compactAndAddItems_measured deps g hg]
    rfl
  | cons i rest ih =>
    have hrest := fun j hj => hitems j (List.mem_cons_of_mem i hj)
    have hflush := compactAndAddItems_measured deps g hg
    rw [List.foldl_cons]
    by_cases hk : kept deps i = true
    · have hctx : dependencyContextFor deps [i.id] ≠ ∅ := kept_iff.mp hk
      cases i with
      | var v =>
        rw [ih hrest (by simpa [visitItem, hctx, addCopy] using hg)]
        simp [visitItem, hctx, addCopy, pieces, hk, Piece.item, itemContext]
      | _ =>
        rw [ih hrest (by simp [visitItem, hctx, addCopy, hflush])]
        simp [visitItem, hctx, addCopy, hflush, pieces, hk, Piece.item, itemContext, nameAfter]
    · have hkept : kept deps i = false := by simpa using hk
      have hctx : dependencyContextFor deps [i.id] = ∅ := not_not.mp fun h => hk (kept_iff.mpr h)
      have hmeasured := hitems i List.mem_cons_self hkept
      have hheld : i.serializedLength.isSome = true → ∀ j ∈ g.curCompactableFields ++ [i],
          j.serializedLength.isSome = true := by
        intro hlen j hj
        rcases List.mem_append.mp hj with hj | hj
        · exact hg j hj
        · rwa [List.mem_singleton.mp hj]
      cases i with
      | field f =>
        rw [ih hrest (by simpa [visitItem, hctx] using hheld hmeasured)]
        simp [visitItem, hctx, pieces, hkept]
      | switch s =>
        rw [ih hrest (by simpa [visitItem, hctx] using hheld hmeasured)]
        simp [visitItem, hctx, pieces, hkept]
      | var v =>
        rw [ih hrest (by simpa [visitItem, hctx] using hg)]
        simp [visitItem, hctx, pieces, hkept]
      | property p =>
        rw [ih hrest (by simpa [visitItem, hctx, addCopy] using hg)]
        simp [visitItem, hctx, addCopy, pieces, hkept, Piece.item, copyFor, itemContext]

/-- The items of the compact unit are the pieces of the unit. -/
theorem run_items {deps : List Dependency} {u : UnitType}
    (hitems : ∀ i ∈ u.items, kept deps i = false → Measured i) (name : String) (n : Nat) :
    (run deps name n u).items = render deps name (pieces deps n [] u.items) := by
  simp only [run]
  rw [foldl_pieces hitems (by simp)]
  simp [render]

/-! ## Where the pieces come from -/

section Pieces

variable {deps : List Dependency}

theorem rangeLength_isSome (len : Option Expr) (e : Expr) (es : List Expr) :
    (rangeLength len (e :: es)).isSome = true := by
  have hsome : ∀ (es : List Expr) (e : Expr), (rangeLength (some e) es).isSome = true := by
    intro es
    induction es with
    | nil => exact fun _ => rfl
    | cons e' es ih => exact fun _ => ih _
  exact hsome es _

theorem mem_closeRange {n : Nat} {held : List Item} {q : Piece} (h : q ∈ closeRange n held) :
    ∃ e, rangeLength none (lengths held) = some e ∧ q = .range (n + 1) held e := by
  unfold closeRange at h
  split at h
  · cases h
  · exact ⟨_, ‹_›, List.mem_singleton.mp h⟩

theorem le_nameAfter (n : Nat) (i : Item) : n ≤ nameAfter n i := by
  cases i <;> simp [nameAfter]

/-- A field or switch that an instantiation does not need. -/
def Omitted (deps : List Dependency) (i : Item) : Prop :=
  kept deps i = false ∧ match i with
    | .field _ | .switch _ => True
    | _ => False

/-- The cuts between the pieces of a list of items. -/
inductive Cut (deps : List Dependency) : Nat → List Item → List Item → List Piece → Prop
  | nil (n : Nat) (held : List Item) : Cut deps n held [] (closeRange n held)
  | var {n : Nat} {held rest : List Item} {qs : List Piece} {v : Variable} :
      kept deps (.var v) = true → Cut deps n held rest qs →
      Cut deps n held (.var v :: rest) (.copy (.var v) :: qs)
  | copy {n : Nat} {held rest : List Item} {qs : List Piece} {i : Item} :
      kept deps i = true → (∀ v, i ≠ .var v) →
      Cut deps (nameAfter (n + (closeRange n held).length) i) [] rest qs →
      Cut deps n held (i :: rest) (closeRange n held ++ .copy i :: qs)
  | hold {n : Nat} {held rest : List Item} {qs : List Piece} {i : Item} :
      Omitted deps i → Cut deps n (held ++ [i]) rest qs → Cut deps n held (i :: rest) qs
  | skip {n : Nat} {held rest : List Item} {qs : List Piece} {v : Variable} :
      kept deps (.var v) = false → Cut deps n held rest qs → Cut deps n held (.var v :: rest) qs
  | property {n : Nat} {held rest : List Item} {qs : List Piece} {a : Attribute} :
      Cut deps n held rest qs → Cut deps n held (.property a :: rest) (.copy (.property a) :: qs)

theorem cut_pieces (n : Nat) (held items : List Item) :
    Cut deps n held items (pieces deps n held items) := by
  induction items generalizing n held with
  | nil => exact .nil n held
  | cons i rest ih =>
    unfold pieces
    split
    · split
      · exact .var ‹_› (ih n held)
      · exact .copy ‹_› ‹_› (ih _ [])
    · rename_i hk
      have hkept : kept deps i = false := by simpa using hk
      split
      · exact .hold ⟨hkept, trivial⟩ (ih n _)
      · exact .hold ⟨hkept, trivial⟩ (ih n _)
      · exact .skip hkept (ih n held)
      · exact .property (ih n held)

/-- A piece is the copy of an item that is needed or is a property, or a range of fields that are not
needed, with a name that has not been used. -/
theorem Cut.mem {n : Nat} {held items : List Item} {qs : List Piece} (h : Cut deps n held items qs)
    {q : Piece} (hq : q ∈ qs) :
    (∃ i ∈ items, q = .copy i ∧ (kept deps i = true ∨ ∃ p, i = .property p)) ∨
      ∃ k as e, q = .range k as e ∧ n < k ∧ rangeLength none (lengths as) = some e ∧
        ∀ i ∈ as, i ∈ held ∨ (i ∈ items ∧ Omitted deps i) := by
  have hclose : ∀ {n held} {rest : List Item}, q ∈ closeRange n held →
      ∃ k as e, q = .range k as e ∧ n < k ∧ rangeLength none (lengths as) = some e ∧
        ∀ i ∈ as, i ∈ held ∨ (i ∈ rest ∧ Omitted deps i) := by
    intro n held rest hq
    obtain ⟨e, he, rfl⟩ := mem_closeRange hq
    exact ⟨n + 1, held, e, rfl, Nat.lt_succ_self n, he, fun i hi => .inl hi⟩
  induction h with
  | nil n held => exact .inr (hclose hq)
  | var hk _ ih =>
    rcases List.mem_cons.mp hq with rfl | hq
    · exact .inl ⟨_, List.mem_cons_self, rfl, .inl hk⟩
    · grind
  | @copy n held rest qs i hk hvar _ ih =>
    rcases List.mem_append.mp hq with hq | hq
    · exact .inr (hclose hq)
    · rcases List.mem_cons.mp hq with rfl | hq
      · exact .inl ⟨i, List.mem_cons_self, rfl, .inl hk⟩
      · have hn := le_nameAfter (n + (closeRange n held).length) i
        grind
  | hold homitted _ ih => grind
  | skip _ _ ih => grind
  | property _ ih =>
    rcases List.mem_cons.mp hq with rfl | hq
    · exact .inl ⟨_, List.mem_cons_self, rfl, .inr ⟨_, rfl⟩⟩
    · grind

theorem Cut.copy_mem {n : Nat} {held items : List Item} {qs : List Piece}
    (h : Cut deps n held items qs) {i : Item} (hi : i ∈ items)
    (hk : kept deps i = true ∨ ∃ p, i = .property p) : .copy i ∈ qs := by
  induction h with
  | nil => cases hi
  | hold homitted _ ih =>
    rcases List.mem_cons.mp hi with rfl | hi
    · rcases hk with hk | ⟨p, rfl⟩
      · simp [homitted.1] at hk
      · exact homitted.2.elim
    · exact ih hi
  | skip hkept _ ih => grind
  | _ => grind

end Pieces

/-! ## Names -/

@[simp] theorem memberIds_copyFor (context : Finset DependencyContext) (i : Item) :
    (copyFor context i).memberIds = i.memberIds := by
  have hclone : i.clone.memberIds = i.memberIds := by
    cases i with
    | switch s =>
      simp [Item.clone, Item.memberIds, Switch.clone, Switch.fields, Case.clone, List.flatMap_map,
        List.map_flatMap, AtomicField.clone, Function.comp_def]
    | _ => rfl
  unfold copyFor
  split
  · rw [← hclone]
    cases i <;> rfl
  · exact hclone

@[simp] theorem memberIds_replaceSelf (name : String) (i : Item) :
    (i.replaceSelf name).memberIds = i.memberIds := by
  cases i <;> rfl

theorem anonymousId_injective {a b : Nat} (h : anonymousId a = anonymousId b) : a = b :=
  Nat.repr_inj.mp ((String.append_right_inj "__anon").mp h)

theorem anonymousId_fresh {names : List String}
    (h : ∀ x ∈ names, ¬ "__anon".toList <+: x.toList) (k : Nat) : anonymousId k ∉ names := by
  intro hmem
  refine h _ hmem ?_
  rw [anonymousId, String.toList_append]
  exact List.prefix_append _ _

/-- The members that a piece contributes. -/
def Piece.memberIds : Piece → List String
  | .copy i => i.memberIds
  | .range n _ _ => [anonymousId n]

theorem Piece.memberIds_item (deps : List Dependency) (name : String) (q : Piece) :
    ((q.item deps).replaceSelf name).memberIds = q.memberIds := by
  cases q with
  | copy i => simp [Piece.item, Piece.memberIds]
  | range n held length => rfl

theorem Cut.mem_memberIds {deps : List Dependency} {n : Nat} {held items : List Item}
    {qs : List Piece} (h : Cut deps n held items qs) {x : String}
    (hx : x ∈ qs.flatMap Piece.memberIds) :
    x ∈ items.flatMap Item.memberIds ∨ ∃ k, n < k ∧ x = anonymousId k := by
  obtain ⟨q, hq, hx⟩ := List.mem_flatMap.mp hx
  rcases h.mem hq with ⟨j, hj, rfl, -⟩ | ⟨k, as, e, rfl, hk, -⟩
  · exact .inl (List.mem_flatMap.mpr ⟨j, hj, hx⟩)
  · exact .inr ⟨k, hk, List.mem_singleton.mp hx⟩

/-- The pieces have distinct names if the items have, and none of them is an anonymous name that is
still to be given. -/
theorem Cut.nodup {deps : List Dependency} {n : Nat} {held items : List Item} {qs : List Piece}
    (h : Cut deps n held items qs) (hnodup : (items.flatMap Item.memberIds).Nodup)
    (hfresh : ∀ k, n < k → anonymousId k ∉ items.flatMap Item.memberIds) :
    (qs.flatMap Piece.memberIds).Nodup := by
  -- the copy of the first item
  have hcopy : ∀ {n n' held' qs i rest}, Cut deps n' held' rest qs → n ≤ n' →
      ((i :: rest).flatMap Item.memberIds).Nodup →
      (∀ k, n < k → anonymousId k ∉ (i :: rest).flatMap Item.memberIds) →
      (qs.flatMap Piece.memberIds).Nodup →
      ((.copy i :: qs).flatMap Piece.memberIds).Nodup := by
    intro n n' held' qs i rest hcut hn hnodup hfresh hqs
    rw [List.flatMap_cons, List.nodup_append] at hnodup ⊢
    refine ⟨hnodup.1, hqs, fun x hx y hy => ?_⟩
    rcases hcut.mem_memberIds hy with hy | ⟨k, hk, rfl⟩
    · exact hnodup.2.2 x hx y hy
    · rintro rfl
      exact hfresh k (by omega) (List.mem_append_left _ hx)
  induction h with
  | nil n held =>
    unfold closeRange
    split <;> simp [Piece.memberIds]
  | @var n held rest qs v hk hcut ih =>
    exact hcopy hcut (le_refl n) hnodup hfresh (ih (List.nodup_append.mp hnodup).2.1
      fun k hk hmem => hfresh k hk (List.mem_append_right _ hmem))
  | @copy n held rest qs i hk hvar hcut ih =>
    have hn := (Nat.le_add_right n _).trans (le_nameAfter (n + (closeRange n held).length) i)
    have hrest := hcopy hcut hn hnodup hfresh (ih (List.nodup_append.mp hnodup).2.1
      fun k hk hmem => hfresh k (by omega) (List.mem_append_right _ hmem))
    rw [List.flatMap_append, List.nodup_append]
    refine ⟨?_, hrest, fun x hx y hy heq => ?_⟩
    · unfold closeRange
      split <;> simp [Piece.memberIds]
    · -- the new name is neither the one of an item nor one that is still to be given
      obtain ⟨q, hq, hx⟩ := List.mem_flatMap.mp hx
      have hlen := List.length_pos_of_mem hq
      obtain ⟨e, -, rfl⟩ := mem_closeRange hq
      obtain rfl := List.mem_singleton.mp hx
      subst heq
      rw [List.flatMap_cons] at hy
      rcases List.mem_append.mp hy with hy | hy
      · exact hfresh (n + 1) (by omega) (List.mem_append_left _ hy)
      · rcases hcut.mem_memberIds hy with hy | ⟨k, hk, heq⟩
        · exact hfresh (n + 1) (by omega) (List.mem_append_right _ hy)
        · have := anonymousId_injective heq
          have := le_nameAfter (n + (closeRange n held).length) i
          omega
  | @hold n held rest qs i homitted hcut ih =>
    exact ih (List.nodup_append.mp hnodup).2.1
      fun k hk hmem => hfresh k hk (List.mem_append_right _ hmem)
  | @skip n held rest qs v hkept hcut ih =>
    exact ih (List.nodup_append.mp hnodup).2.1
      fun k hk hmem => hfresh k hk (List.mem_append_right _ hmem)
  | property hcut ih => exact ih hnodup hfresh

/-! ## The struct of the compact unit -/

section Struct

variable {o : Options} {u : UnitType} {deps : List Dependency} {name : String} {n : Nat}

/-- The compact unit can be named: the fields that are held back have a known length, and the names
of the unit are distinct and not those of the ranges. -/
structure Nameable (deps : List Dependency) (n : Nat) (u : UnitType) : Prop where
  distinct : (u.items.flatMap Item.memberIds).Nodup
  fresh : ∀ k, n < k → anonymousId k ∉ u.items.flatMap Item.memberIds
  measured : ∀ i ∈ u.items, kept deps i = false → Measured i

theorem itemMembers_copy {i : Item} (hi : ∀ f ∈ i.fields, f.applicationAccessible = true)
    (context : Finset DependencyContext) :
    itemMembers o ((copyFor context i).replaceSelf name) = itemMembers o i := by
  have hclone : itemMembers o (i.clone.replaceSelf name) = itemMembers o i := by
    cases i with
    | field f => simp [Item.clone, Item.replaceSelf, itemMembers, fieldMemberType,
        AtomicField.clone, hi f (by simp [Item.fields])]
    | switch s =>
      have hfields : s.clone.fields = s.fields.map AtomicField.clone := by
        simp [Switch.clone, Switch.fields, Case.clone, List.flatMap_map, List.map_flatMap]
      change s.clone.fields.map _ = s.fields.map _
      rw [hfields, List.map_map]
      refine List.map_congr_left fun f hf => ?_
      simp [fieldMemberType, AtomicField.clone, hi f hf]
    | _ => rfl
  unfold copyFor
  split
  · rw [← hclone]
    cases i <;> rfl
  · exact hclone

/-- The property of the given key, for the items that are properties. -/
def withKey (key : String) : Item → Option Attribute
  | .property p => if p.key = key then some p else none
  | _ => none

theorem withKey_copy (key : String) (context : Finset DependencyContext) (i : Item) :
    withKey key ((copyFor context i).replaceSelf name) =
      (withKey key i).map (Attribute.replaceSelf name) := by
  cases i with
  | property p =>
    have hcopy : copyFor context (.property p) = .property p := by
      unfold copyFor
      split <;> rfl
    rw [hcopy]
    by_cases hp : p.key = key <;> simp [withKey, Item.replaceSelf, Attribute.replaceSelf, hp]
  | _ =>
    unfold copyFor
    split <;> rfl

/-- Every property is copied, in the order of the unit. -/
theorem Cut.findSome {held items : List Item} {qs : List Piece} (h : Cut deps n held items qs)
    (key : String) :
    qs.findSome? (fun q => withKey key ((q.item deps).replaceSelf name)) =
      (items.findSome? (withKey key)).map (Attribute.replaceSelf name) := by
  have hclose : ∀ n held, (closeRange n held).findSome?
      (fun q => withKey key ((q.item deps).replaceSelf name)) = none := by
    intro n held
    unfold closeRange
    split <;> rfl
  have hcopy : ∀ i (qs : List Piece) rest, qs.findSome?
      (fun q => withKey key ((q.item deps).replaceSelf name)) =
        (rest.findSome? (withKey key)).map (Attribute.replaceSelf name) →
      (Piece.copy i :: qs).findSome? (fun q => withKey key ((q.item deps).replaceSelf name)) =
        ((i :: rest).findSome? (withKey key)).map (Attribute.replaceSelf name) := by
    intro i qs rest hqs
    rw [List.findSome?_cons, List.findSome?_cons, hqs, Piece.item, withKey_copy]
    cases withKey key i <;> rfl
  induction h with
  | nil n held => exact hclose n held
  | var _ _ ih => exact hcopy _ _ _ ih
  | copy _ _ _ ih =>
    rw [List.findSome?_append, hclose]
    exact hcopy _ _ _ ih
  | @hold _ _ _ _ i homitted _ ih =>
    cases i with
    | property a => exact homitted.2.elim
    | _ => exact ih
  | skip _ _ ih => exact ih
  | property _ ih => exact hcopy _ _ _ ih

variable (h : Nameable deps n u)

include h

theorem Nameable.items (name : String) :
    (run deps name n u).items = render deps name (pieces deps n [] u.items) :=
  run_items h.measured name n

theorem Nameable.compact_distinct (name : String) :
    ((run deps name n u).items.flatMap Item.memberIds).Nodup := by
  rw [h.items, render, List.flatMap_map]
  simp only [Piece.memberIds_item]
  exact (cut_pieces n [] u.items).nodup h.distinct h.fresh

theorem Nameable.mem_items {q : Piece} (hq : q ∈ pieces deps n [] u.items) :
    (q.item deps).replaceSelf name ∈ (run deps name n u).items := by
  rw [h.items]
  exact List.mem_map.mpr ⟨q, hq, rfl⟩

/-- A member of an item that is needed has in the compact unit the type that it has in the unit. -/
theorem Nameable.members (name : String) {i : Item} (hi : i ∈ u.items) (hkept : kept deps i = true)
    (hacc : ∀ f ∈ i.fields, f.applicationAccessible = true) {x : String} {ty : Option CType}
    (hx : (x, ty) ∈ itemMembers o i) :
    (unitEnv o (run deps name n u)).members x = ty ∧ (unitEnv o u).members x = ty := by
  refine ⟨unitEnv_members (h.compact_distinct name)
    (h.mem_items ((cut_pieces n [] u.items).copy_mem hi (.inl hkept))) ?_, unitEnv_members h.distinct hi hx⟩
  rwa [Piece.item, itemMembers_copy hacc]

/-- The compact unit has the properties of the unit. -/
theorem Nameable.property (key : String) :
    (run deps name n u).property key = (u.property key).map (Attribute.replaceSelf name) := by
  change (run deps name n u).items.findSome? (withKey key) = (u.items.findSome? (withKey key)).map _
  rw [h.items, render, List.findSome?_map]
  exact (cut_pieces n [] u.items).findSome key

end Struct

end InstantiationTypeGenerator

end Diffingo.Generation
