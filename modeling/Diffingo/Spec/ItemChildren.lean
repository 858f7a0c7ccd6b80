import Mathlib.Data.Fin.VecNotation
import Mathlib.Data.List.Infix
import Diffingo.Spec.ProcessAll

/-!
# The child list of a unit item

`Item` keeps its id, its type, its serialized type and its attributes both as members and as
children (`spec/ast/type/unit.h`, `spec/ast/node.cpp`). The setters remove the old node from the
child list and append the new one. Only nodes of one class can stand in two of these roles at a
time: the type and the serialized type may be the same node.
-/

namespace Diffingo.Spec.ItemChildren

open ProcessAll

/-- The classes of nodes that the members of an item belong to, and all others. -/
inductive Kind
  | id | type | attributes | other
  deriving DecidableEq

variable {ν : Type} {kind : ν → Kind}

/-- The nodes of one class. -/
abbrev Of (kind : ν → Kind) (k : Kind) := { n : ν // kind n = k }

/-- The node members of `Item` and its child list. `former` records the ids and types it had. -/
structure Item (kind : ν → Kind) where
  id : Option (Of kind .id)
  type : Option (Of kind .type)
  serializedType : Option (Of kind .type)
  attributes : Of kind .attributes
  children : List ν
  former : List ν := []

/-- `Node::addChild`. Its test for duplicates compares the address of its parameter with the
addresses of list elements and never holds. -/
def addChild (children : List ν) : Option ν → List ν
  | none => children
  | some n => children ++ [n]

section

variable [DecidableEq ν]

/-- The loop of `removeChild`, for at most `fuel` erased children. -/
def removeLoop (n : ν) : Nat → List ν → List ν
  | 0, children => children
  | fuel + 1, children =>
    if n ∈ children then removeLoop n fuel (children.erase n) else children

/-- `Node::removeChild`. -/
def removeChild (children : List ν) : Option ν → List ν
  | none => children
  | some n => removeLoop n children.length children

namespace Item

/-- The constructor of an item, followed by the children `rest` that a derived class adds. The id
is never null, an item without one gets a new node. -/
def new (id : Of kind .id) (type : Option (Of kind .type)) (attributes : Of kind .attributes)
    (rest : List ν) : Item kind where
  id := some id
  type := type
  serializedType := none
  attributes := attributes
  children :=
    addChild (addChild (addChild [] (some id.1)) (type.map Subtype.val)) (some attributes.1) ++
      rest

def setId (s : Item kind) (id : Option (Of kind .id)) : Item kind :=
  { s with
    id := id
    children := addChild (removeChild s.children (s.id.map Subtype.val)) (id.map Subtype.val)
    former := (s.id.map Subtype.val).toList ++ s.former }

def setType (s : Item kind) (type : Option (Of kind .type)) : Item kind :=
  { s with
    type := type
    children := addChild (removeChild s.children (s.type.map Subtype.val)) (type.map Subtype.val)
    former := (s.type.map Subtype.val).toList ++ s.former }

def setSerializedType (s : Item kind) (type : Option (Of kind .type)) : Item kind :=
  { s with
    serializedType := type
    children := addChild (removeChild s.children (s.serializedType.map Subtype.val))
      (type.map Subtype.val) }

/-- `serialized_type()`. -/
def getSerializedType (s : Item kind) : Option (Of kind .type) := s.serializedType.or s.type

end Item

/-- The calls that change the members. -/
inductive Op (kind : ν → Kind)
  | setId (id : Option (Of kind .id))
  | setType (type : Option (Of kind .type))
  | setSerializedType (type : Option (Of kind .type))

def Item.apply (s : Item kind) : Op kind → Item kind
  | .setId id => s.setId id
  | .setType type => s.setType type
  | .setSerializedType type => s.setSerializedType type

def Item.run (s : Item kind) (ops : List (Op kind)) : Item kind := ops.foldl Item.apply s

/-- What `TransformResolver` does with an item that has the attribute `transform_to`. -/
def resolveTransform (s : Item kind) (type : Of kind .type) : List (Op kind) :=
  [.setSerializedType s.type, .setType (some type)]

end

/-! ## Members and children -/

/-- The nodes that are members. -/
def Item.members (s : Item kind) : List ν :=
  (s.id.map Subtype.val).toList ++ (s.type.map Subtype.val).toList ++
    (s.serializedType.map Subtype.val).toList ++ [s.attributes.1]

/-- Every member is a child, and no former id or type that is not a member any more. -/
def Item.Mirrors (s : Item kind) : Prop :=
  (∀ n ∈ s.members, n ∈ s.children) ∧ ∀ n ∈ s.former, n ∉ s.members → n ∉ s.children

theorem mem_addChild {children : List ν} {m : Option ν} {n : ν} :
    n ∈ addChild children m ↔ n ∈ children ∨ m = some n := by
  cases m <;> simp [addChild, eq_comm]

theorem mem_removeLoop [DecidableEq ν] {n a : ν} {fuel : Nat} {children : List ν}
    (hfuel : children.length ≤ fuel) :
    a ∈ removeLoop n fuel children ↔ a ∈ children ∧ a ≠ n := by
  induction fuel generalizing children with
  | zero =>
    obtain rfl := List.length_eq_zero_iff.mp (Nat.le_zero.mp hfuel)
    simp [removeLoop]
  | succ fuel ih =>
    rw [removeLoop]
    split_ifs with hn
    · have hlen := List.length_erase_of_mem hn
      rw [ih (by omega)]
      constructor
      · exact fun ⟨ha, hne⟩ => ⟨List.mem_of_mem_erase ha, hne⟩
      · exact fun ⟨ha, hne⟩ => ⟨(List.mem_erase_of_ne hne).mpr ha, hne⟩
    · exact ⟨fun ha => ⟨ha, fun heq => hn (heq ▸ ha)⟩, fun ha => ha.1⟩

theorem mem_removeChild [DecidableEq ν] {children : List ν} {m : Option ν} {n : ν} :
    n ∈ removeChild children m ↔ n ∈ children ∧ m ≠ some n := by
  cases m with
  | none => simp [removeChild]
  | some k =>
    rw [removeChild, mem_removeLoop le_rfl]
    simp [eq_comm]

/-- The children mirror the members that `Member` describes. -/
def MirrorsOn (Member : ν → Prop) (former children : List ν) : Prop :=
  (∀ n, Member n → n ∈ children) ∧ ∀ n ∈ former, ¬ Member n → n ∉ children

theorem mirrorsOn_congr {P Q : ν → Prop} (h : ∀ n, P n ↔ Q n) {former children : List ν} :
    MirrorsOn P former children ↔ MirrorsOn Q former children := by
  simp only [MirrorsOn, h]

/-- Replacing one member keeps the children in step exactly if its old node is none of the other
members, or is put in again. -/
theorem mirrorsOn_replace_iff [DecidableEq ν] {old : Option ν} (new : Option ν)
    {Other : ν → Prop} {children former : List ν}
    (h : MirrorsOn (fun n => old = some n ∨ Other n) former children) (former' : List ν)
    (hformer : ∀ n ∈ former', n ∈ former ∨ old = some n) :
    MirrorsOn (fun n => new = some n ∨ Other n) former'
        (addChild (removeChild children old) new) ↔
      ∀ n, Other n → old = some n → new = some n := by
  obtain ⟨hmember, habsent⟩ := h
  simp only [MirrorsOn, mem_addChild, mem_removeChild]
  constructor
  · intro h n hother hold
    obtain ⟨-, hne⟩ | hnew := h.1 n (.inr hother)
    · exact absurd hold hne
    · exact hnew
  · intro hkeeps
    refine ⟨fun n hn => ?_, fun n hn hnot => ?_⟩
    · obtain hnew | hother := hn
      · exact .inr hnew
      · by_cases hold : old = some n
        · exact .inr (hkeeps n hother hold)
        · exact .inl ⟨hmember n (.inr hother), hold⟩
    · obtain ⟨hnew, hother⟩ := not_or.mp hnot
      rintro (⟨hchild, hold⟩ | hin)
      · have hn : n ∈ former := (hformer n hn).resolve_right hold
        exact habsent n hn (by simp [hold, hother]) hchild
      · exact hnew hin

theorem Of.val_ne {k l : Kind} (hkl : k ≠ l) (a : Of kind k) (b : Of kind l) : a.1 ≠ b.1 := by
  intro h
  exact hkl (a.2.symm.trans ((congrArg kind h).trans b.2))

theorem Item.mem_members {s : Item kind} {n : ν} :
    n ∈ s.members ↔ s.id.map Subtype.val = some n ∨ s.type.map Subtype.val = some n ∨
      s.serializedType.map Subtype.val = some n ∨ n = s.attributes.1 := by
  simp only [Item.members, List.mem_append, Option.mem_toList, List.mem_singleton,
    or_assoc]

theorem map_val_inj {k : Kind} {a b : Option (Of kind k)} :
    a.map Subtype.val = b.map Subtype.val ↔ a = b :=
  (Option.map_injective Subtype.val_injective).eq_iff

theorem map_val_ne {k l : Kind} (hkl : k ≠ l) {a : Option (Of kind k)} {b : Option (Of kind l)}
    {n : ν} (ha : a.map Subtype.val = some n) : b.map Subtype.val ≠ some n := by
  intro hb
  obtain ⟨x, -, rfl⟩ := Option.map_eq_some_iff.mp ha
  obtain ⟨y, -, hy⟩ := Option.map_eq_some_iff.mp hb
  exact Of.val_ne hkl x y hy.symm

theorem Item.new_mirrors (id : Of kind .id) (type : Option (Of kind .type))
    (attributes : Of kind .attributes) (rest : List ν) :
    (Item.new id type attributes rest).Mirrors := by
  refine ⟨fun n hn => ?_, by simp [Item.new]⟩
  rw [mem_members] at hn
  simp only [Item.new, List.mem_append, mem_addChild]
  obtain hid | htype | hser | rfl := hn
  · exact .inl (.inl (.inl (.inr hid)))
  · exact .inl (.inl (.inr htype))
  · cases hser
  · exact .inl (.inr rfl)

variable [DecidableEq ν]

theorem Item.setId_mirrors {s : Item kind} (h : s.Mirrors) (id : Option (Of kind .id)) :
    (s.setId id).Mirrors := by
  have hold : MirrorsOn (fun n => s.id.map Subtype.val = some n ∨
      (s.type.map Subtype.val = some n ∨ s.serializedType.map Subtype.val = some n ∨
        n = s.attributes.1)) s.former s.children :=
    (mirrorsOn_congr fun n => mem_members).mp h
  have hiff := mirrorsOn_replace_iff (id.map Subtype.val) hold
    ((s.id.map Subtype.val).toList ++ s.former) (by simp [or_comm])
  refine (mirrorsOn_congr fun n => ?_).mp (hiff.mpr ?_)
  · exact (mem_members (s := s.setId id)).symm
  · -- an id is no type and no attribute map
    rintro n (htype | htype | rfl) hid
    · exact absurd htype (map_val_ne (by decide) hid)
    · exact absurd htype (map_val_ne (by decide) hid)
    · obtain ⟨i, -, hi⟩ := Option.map_eq_some_iff.mp hid
      exact absurd hi (Of.val_ne (by decide) i s.attributes)

theorem Item.setType_mirrors_iff {s : Item kind} (h : s.Mirrors)
    (type : Option (Of kind .type)) :
    (s.setType type).Mirrors ↔
      (s.type ≠ none → s.type = s.serializedType → type = s.type) := by
  have hold : MirrorsOn (fun n => s.type.map Subtype.val = some n ∨
      (s.id.map Subtype.val = some n ∨ s.serializedType.map Subtype.val = some n ∨
        n = s.attributes.1)) s.former s.children :=
    (mirrorsOn_congr fun n => mem_members.trans or_left_comm).mp h
  have hiff := mirrorsOn_replace_iff (type.map Subtype.val) hold
    ((s.type.map Subtype.val).toList ++ s.former) (by simp [or_comm])
  refine (mirrorsOn_congr fun n => ?_).trans (hiff.trans ⟨fun hkeeps => ?_, fun hkeeps => ?_⟩)
  · exact mem_members.trans or_left_comm
  · intro hne heq
    obtain ⟨t, ht⟩ := Option.ne_none_iff_exists'.mp hne
    have hnew := hkeeps t.1 (.inr (.inl (by rw [← heq, ht]; rfl))) (by rw [ht]; rfl)
    rw [← map_val_inj, hnew, ht]
    rfl
  · rintro n (hid | hser | rfl) htype
    · exact absurd htype (map_val_ne (by decide) hid)
    · have heq : s.type = s.serializedType := map_val_inj.mp (htype.trans hser.symm)
      have hne : s.type ≠ none := by
        intro hnone
        rw [hnone] at htype
        cases htype
      rw [hkeeps hne heq, htype]
    · obtain ⟨t, -, ht⟩ := Option.map_eq_some_iff.mp htype
      exact absurd ht (Of.val_ne (by decide) t s.attributes)

theorem Item.setSerializedType_mirrors_iff {s : Item kind} (h : s.Mirrors)
    (type : Option (Of kind .type)) :
    (s.setSerializedType type).Mirrors ↔
      (s.serializedType ≠ none → s.serializedType = s.type → type = s.serializedType) := by
  have hmove {a b c d : Prop} : a ∨ b ∨ c ∨ d ↔ c ∨ a ∨ b ∨ d := by tauto
  have hold : MirrorsOn (fun n => s.serializedType.map Subtype.val = some n ∨
      (s.id.map Subtype.val = some n ∨ s.type.map Subtype.val = some n ∨
        n = s.attributes.1)) s.former s.children :=
    (mirrorsOn_congr fun n => mem_members.trans hmove).mp h
  have hiff := mirrorsOn_replace_iff (type.map Subtype.val) hold s.former (by simp +contextual)
  refine (mirrorsOn_congr fun n => ?_).trans (hiff.trans ⟨fun hkeeps => ?_, fun hkeeps => ?_⟩)
  · exact mem_members.trans hmove
  · intro hne heq
    obtain ⟨t, ht⟩ := Option.ne_none_iff_exists'.mp hne
    have hnew := hkeeps t.1 (.inr (.inl (by rw [← heq, ht]; rfl))) (by rw [ht]; rfl)
    rw [← map_val_inj, hnew, ht]
    rfl
  · rintro n (hid | htype | rfl) hser
    · exact absurd hser (map_val_ne (by decide) hid)
    · have heq : s.serializedType = s.type := map_val_inj.mp (hser.trans htype.symm)
      have hne : s.serializedType ≠ none := by
        intro hnone
        rw [hnone] at hser
        cases hser
      rw [hkeeps hne heq, hser]
    · obtain ⟨t, -, ht⟩ := Option.map_eq_some_iff.mp hser
      exact absurd ht (Of.val_ne (by decide) t s.attributes)

/-- The call does not replace the type while it is the serialized type as well, or the other way
round. -/
def Item.Keeps (s : Item kind) : Op kind → Prop
  | .setId _ => True
  | .setType type => s.type ≠ none → s.type = s.serializedType → type = s.type
  | .setSerializedType type =>
    s.serializedType ≠ none → s.serializedType = s.type → type = s.serializedType

/-- A call on an item whose children mirror its members keeps them so exactly if it meets the
condition. -/
theorem Item.apply_mirrors_iff {s : Item kind} (h : s.Mirrors) (op : Op kind) :
    (s.apply op).Mirrors ↔ s.Keeps op := by
  cases op with
  | setId id => exact iff_of_true (s.setId_mirrors h id) trivial
  | setType type => exact s.setType_mirrors_iff h type
  | setSerializedType type => exact s.setSerializedType_mirrors_iff h type

theorem Item.run_mirrors_iff {s : Item kind} (h : s.Mirrors) (ops : List (Op kind)) :
    (∀ before, before <+: ops → (s.run before).Mirrors) ↔
      ∀ before op, before ++ [op] <+: ops → (s.run before).Keeps op := by
  constructor
  · intro hall before op hop
    have hbefore : before <+: ops := (List.prefix_append before [op]).trans hop
    refine (apply_mirrors_iff (hall before hbefore) op).mp ?_
    have hafter := hall _ hop
    rwa [run, List.foldl_append] at hafter
  · intro hall before
    induction before using List.reverseRecOn with
    | nil => exact fun _ => h
    | append_singleton before op ih =>
      intro hop
      have hbefore : before <+: ops := (List.prefix_append before [op]).trans hop
      rw [run, List.foldl_append]
      exact (apply_mirrors_iff (ih hbefore) op).mpr (hall before op hop)

/-! ## Traversals from the item -/

/-- Wherever the item stands in a graph, a pre-order traversal from it visits its serialized
type. -/
def Item.ReachesSerializedType [Fintype ν] (s : Item kind) : Prop :=
  ∀ (self : ν) (graph : ν → List ν) (σ : Type) (react : ν → σ → Reaction σ) (v : State ν σ)
    (type : Of kind .type), Calm react → s.getSerializedType = some type →
    ∃ ok v', processAllPreOrder (Function.update graph self s.children) react self false v =
        some (ok, v') ∧ type.1 ∈ v'.accepted

theorem Item.Mirrors.reachesSerializedType [Fintype ν] {s : Item kind} (h : s.Mirrors) :
    s.ReachesSerializedType := by
  intro self graph σ react v type hcalm htype
  have hmember : type.1 ∈ s.members := by
    rw [mem_members]
    obtain hser | ⟨-, htype⟩ := Option.or_eq_some_iff.mp htype
    · exact .inr (.inr (.inl (by rw [hser]; rfl)))
    · exact .inr (.inl (by rw [htype]; rfl))
  obtain ⟨ok, v', l, found, hrun, hexplored, hreach⟩ :=
    processAll_explored hcalm .pre (Function.update graph self s.children) self false v
  refine ⟨ok, v', hrun, ?_⟩
  have hpath : Reaches (Function.update graph self s.children) self type.1 := by
    refine .single ?_
    rw [Function.update_self]
    exact h.1 _ hmember
  rw [hexplored.accepted]
  exact List.mem_append_right _ ((hreach type.1).mpr hpath)

/-- After every call of a sequence the child list mirrors the members, and with it a traversal
from the item reaches the serialized type, exactly if no call replaces the type while the
serialized type is the same node, or the other way round. -/
theorem item_children_mirror_iff [Fintype ν] (id : Of kind .id) (type : Option (Of kind .type))
    (attributes : Of kind .attributes) (rest : List ν) (ops : List (Op kind)) :
    (∀ before, before <+: ops →
        ((Item.new id type attributes rest).run before).Mirrors ∧
        ((Item.new id type attributes rest).run before).ReachesSerializedType) ↔
      ∀ before op, before ++ [op] <+: ops →
        ((Item.new id type attributes rest).run before).Keeps op := by
  rw [← Item.run_mirrors_iff (Item.new_mirrors id type attributes rest)]
  constructor
  · exact fun h before hbefore => (h before hbefore).1
  · exact fun h before hbefore =>
      ⟨h before hbefore, (h before hbefore).reachesSerializedType⟩

/-- Five nodes: an item, its id, its type, its attributes and another type. -/
def fiveNodes : Fin 5 → Kind := ![.other, .id, .type, .attributes, .type]

/-- The calls of `TransformResolver` take the old type, which is the serialized type now, out of
the child list, and a traversal from the item does not come to it. -/
theorem resolveTransform_loses_serializedType :
    let s : Item fiveNodes := Item.new ⟨1, rfl⟩ (some ⟨2, rfl⟩) ⟨3, rfl⟩ []
    let s' := s.run (resolveTransform s ⟨4, rfl⟩)
    s'.serializedType = some ⟨2, rfl⟩ ∧ s'.children = [1, 3, 4] ∧ ¬ s'.Mirrors ∧
      (processAllPreOrder (Function.update (fun _ => []) 0 s'.children)
        (fun _ _ => .returned () 0) 0 false ⟨[], [], 0, 0, (), [], []⟩).map
          (fun r => r.2.accepted) = some [0, 1, 3, 4] := by
  refine ⟨rfl, rfl, fun h => ?_, by decide⟩
  have hmem := h.1 2 (by decide)
  revert hmem
  decide

end Diffingo.Spec.ItemChildren
