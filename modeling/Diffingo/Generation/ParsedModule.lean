import Diffingo.Generation.UnitScopes

/-!
# Modules as they are parsed

The parser makes every node once: each declaration has its own type node, and each item hangs on one
unit or case. A declaration can be added at any place among the others. `ScopeBuilder` adds the
built-in ones at the end, before anything else happens.
-/

namespace Diffingo.Names

open Traversal UnitScopeBuilder

namespace Node

def isItem : Node → Bool
  | item _ _ _ _ _ | unknownField _ _ _ _ _ _ => true
  | _ => false

def isType : Node → Bool
  | unit _ _ | labelled _ | unknownType _ | listType _ | regExp | type _ => true
  | _ => false

def isDeclaration : Node → Bool
  | typeDecl _ _ | constantDecl _ _ | functionDecl _ _ | transformDecl _ _ => true
  | instantiation _ _ => true
  | _ => false

theorem isUnresolved_of_isDeclaration {n : Node} (h : n.isDeclaration) : n.isUnresolved = false := by
  cases n with
  | typeDecl | constantDecl | functionDecl | transformDecl | instantiation => rfl
  | _ => cases h

theorem declaredType_eq_some {n : Node} {t : Nat} (h : n.declaredType = some t) :
    ∃ id, n = .typeDecl id t := by
  cases n with
  | typeDecl id t' => exact ⟨id, by rw [Option.some.inj h]⟩
  | _ => cases h

theorem mem_children_of_cases {n : Node} {i : Nat} (h : i ∈ n.cases.flatten) : i ∈ n.children := by
  cases n with
  | item _ _ _ cases _ => exact List.mem_append_right _ h
  | _ => cases h

end Node

/-- A parsed module and its declarations. -/
structure Parsed where
  store : Store Node
  root : Nat
  name : String
  properties : Nat
  declarations : List Nat
  root_lt : root < store.size
  root_node : store.nodes root = .module name properties declarations
  intact : Intact store
  children_lt : ∀ a < store.size, ∀ c ∈ (store.nodes a).children, c < store.size
  declarations_nodup : declarations.Nodup
  declaration_node : ∀ d ∈ declarations, (store.nodes d).isDeclaration
  type_node : ∀ d ∈ declarations, ∀ t, (store.nodes d).declaredType = some t →
    (store.nodes t).isType
  types_unique : ∀ d ∈ declarations, ∀ d' ∈ declarations, ∀ t,
    (store.nodes d).declaredType = some t → (store.nodes d').declaredType = some t → d = d'
  unit_items : ∀ a < store.size, ∀ params items, store.nodes a = .unit params items →
    ∀ i ∈ items, (store.nodes i).isItem
  case_items : ∀ a < store.size, ∀ i ∈ (store.nodes a).cases.flatten, (store.nodes i).isItem
  items_once : ∀ fuel, ∀ d ∈ declarations, ∀ t params is, UnitOf store fuel d t params is → is.Nodup
  items_disjoint : ∀ fuel, ∀ d ∈ declarations, ∀ d' ∈ declarations, d ≠ d' →
    ∀ t params is t' params' is', UnitOf store fuel d t params is →
      UnitOf store fuel d' t' params' is' → is.Disjoint is'

namespace Parsed

variable (m : Parsed)

/-- The cells of the items. -/
def IsItem (c : Nat) : Prop := c < m.store.size ∧ (m.store.nodes c).isItem

variable {m}

theorem declarations_lt {d : Nat} (hd : d ∈ m.declarations) : d < m.store.size := by
  apply m.children_lt m.root m.root_lt
  rw [m.root_node]
  exact List.mem_cons_of_mem _ hd

theorem holds {c : Nat} (hc : c < m.store.size) : Holds m.store c (m.store.nodes c) :=
  ⟨hc, m.intact c hc, rfl⟩

theorem type_lt {d t : Nat} (hd : d ∈ m.declarations)
    (ht : (m.store.nodes d).declaredType = some t) : t < m.store.size := by
  obtain ⟨id, hnode⟩ := Node.declaredType_eq_some ht
  apply m.children_lt d (declarations_lt hd)
  rw [hnode]
  exact List.mem_singleton.mpr rfl

theorem type_ne_root {d t : Nat} (hd : d ∈ m.declarations)
    (ht : (m.store.nodes d).declaredType = some t) : t ≠ m.root := by
  rintro rfl
  have htype := m.type_node d hd m.root ht
  rw [m.root_node] at htype
  cases htype

theorem declaration_ne_root {d : Nat} (hd : d ∈ m.declarations) : d ≠ m.root := by
  rintro rfl
  have hnode := m.declaration_node m.root hd
  rw [m.root_node] at hnode
  cases hnode

theorem declares (m : Parsed) : Declares m.store m.root m.declarations where
  root := m.root_lt
  nodup := m.declarations_nodup
  holds _ hd := holds (declarations_lt hd)
  types _ hd _ ht := ⟨type_ne_root hd ht, holds (type_lt hd ht)⟩
  types_unique := m.types_unique

theorem isItem_of_items {a : Nat} (ha : a < m.store.size) {params : List (String × Nat)}
    {items : List Nat} (hunit : m.store.nodes a = .unit params items) {i : Nat} (hi : i ∈ items) :
    m.IsItem i := by
  refine ⟨m.children_lt a ha i ?_, m.unit_items a ha params items hunit i hi⟩
  rw [hunit]
  exact List.mem_append_right _ hi

theorem isItem_of_cases {c : Nat} (hc : m.IsItem c) {i : Nat}
    (hi : i ∈ (m.store.node c).cases.flatten) : m.IsItem i := by
  rw [(holds hc.1).node] at hi
  exact ⟨m.children_lt c hc.1 i (Node.mem_children_of_cases hi), m.case_items c hc.1 i hi⟩

end Parsed

/-! ## New declarations -/

/-- A declaration that is added to a module. -/
inductive NewDeclaration
  | labelled (name : String) (labels : List String)
  | function (name : String)
  | transform (name : String)
  | typeAlias (name : String) (target : Path)

namespace NewDeclaration

def name : NewDeclaration → String
  | labelled name _ | function name | transform name | typeAlias name _ => name

/-- What is declared. -/
def node : NewDeclaration → Node
  | labelled _ labels => .labelled labels
  | function _ | transform _ => .other []
  | typeAlias _ target => .unknownType (some target)

def declaration (c : Nat) : NewDeclaration → Node
  | labelled name _ | typeAlias name _ => .typeDecl [name] c
  | function name => .functionDecl [name] c
  | transform name => .transformDecl [name] c

variable (n : NewDeclaration)

@[simp] theorem node_children : n.node.children = [] := by cases n <;> rfl

@[simp] theorem node_cases : n.node.cases = [] := by cases n <;> rfl

theorem node_ne_unit (params : List (String × Nat)) (items : List Nat) :
    n.node ≠ .unit params items := by
  cases n <;> simp [node]

@[simp] theorem declaration_children (c : Nat) : (n.declaration c).children = [c] := by
  cases n <;> rfl

@[simp] theorem declaration_cases (c : Nat) : (n.declaration c).cases = [] := by cases n <;> rfl

theorem declaration_ne_unit (c : Nat) (params : List (String × Nat)) (items : List Nat) :
    n.declaration c ≠ .unit params items := by
  cases n <;> simp [declaration]

@[simp] theorem declaration_isDeclaration (c : Nat) : (n.declaration c).isDeclaration = true := by
  cases n <;> rfl

@[simp] theorem declaredId_declaration (c : Nat) :
    (n.declaration c).declaredId = some [n.name] := by
  cases n <;> rfl

theorem declaredType_declaration {c t : Nat} (h : (n.declaration c).declaredType = some t) :
    t = c ∧ n.node.isType := by
  cases n with
  | labelled | typeAlias => exact ⟨(Option.some.inj h).symm, rfl⟩
  | function | transform => cases h

end NewDeclaration

namespace Parsed

variable (m : Parsed) (k : Nat) (n : NewDeclaration)

/-- The declarations with a new one after the first `k`. -/
def declarationsWith : List Nat :=
  m.declarations.take k ++ (m.store.size + 1) :: m.declarations.drop k

/-- The tree with two new nodes and a longer list in the module. -/
def storeWith : Store Node :=
  let s := (m.store.alloc n.node).alloc (n.declaration m.store.size)
  { s with nodes := Function.update s.nodes m.root (.module m.name m.properties (m.declarationsWith k)) }

variable {m k n}

theorem mem_declarationsWith {d : Nat} :
    d ∈ m.declarationsWith k ↔ d = m.store.size + 1 ∨ d ∈ m.declarations := by
  have hsplit : d ∈ m.declarations ↔ d ∈ m.declarations.take k ∨ d ∈ m.declarations.drop k := by
    rw [← List.mem_append, List.take_append_drop]
  rw [declarationsWith, List.mem_append, List.mem_cons, hsplit]
  tauto

@[simp] theorem storeWith_size : (m.storeWith k n).size = m.store.size + 2 := rfl

theorem storeWith_root :
    (m.storeWith k n).nodes m.root = .module m.name m.properties (m.declarationsWith k) := by
  simp [storeWith]

theorem storeWith_old {a : Nat} (ha : a < m.store.size) (hne : a ≠ m.root) :
    (m.storeWith k n).nodes a = m.store.nodes a := by
  have h₁ : a ≠ m.store.size + 1 := by omega
  have h₂ : a ≠ m.store.size := by omega
  simp [storeWith, Store.alloc, hne, h₁, h₂]

theorem storeWith_node : (m.storeWith k n).nodes m.store.size = n.node := by
  have hne : m.store.size ≠ m.root := m.root_lt.ne'
  simp [storeWith, Store.alloc, hne]

theorem storeWith_declaration :
    (m.storeWith k n).nodes (m.store.size + 1) = n.declaration m.store.size := by
  have hne : m.store.size + 1 ≠ m.root := by
    have := m.root_lt
    omega
  simp [storeWith, Store.alloc, hne]

theorem storeWith_intact : Intact (m.storeWith k n) := by
  have h₁ := Grows.alloc m.store n.node
  have h₂ := Grows.alloc (m.store.alloc n.node) (n.declaration m.store.size)
  intro c hc
  by_cases hold : c < m.store.size
  · exact ((h₁.trans h₂).pointee c hold).trans (m.intact c hold)
  · exact (h₁.trans h₂).fresh c hc (not_lt.mp hold)

/-- The nodes of the new tree. -/
theorem storeWith_cases {a : Nat} (ha : a < (m.storeWith k n).size) :
    (a = m.root ∧ (m.storeWith k n).nodes a =
        .module m.name m.properties (m.declarationsWith k)) ∨
      (a = m.store.size ∧ (m.storeWith k n).nodes a = n.node) ∨
      (a = m.store.size + 1 ∧ (m.storeWith k n).nodes a = n.declaration m.store.size) ∨
      a < m.store.size ∧ a ≠ m.root ∧ (m.storeWith k n).nodes a = m.store.nodes a := by
  rw [storeWith_size] at ha
  by_cases hroot : a = m.root
  · exact .inl ⟨hroot, hroot ▸ storeWith_root⟩
  · by_cases hold : a < m.store.size
    · exact .inr (.inr (.inr ⟨hold, hroot, storeWith_old hold hroot⟩))
    · obtain rfl | rfl : a = m.store.size ∨ a = m.store.size + 1 := by omega
      · exact .inr (.inl ⟨rfl, storeWith_node⟩)
      · exact .inr (.inr (.inl ⟨rfl, storeWith_declaration⟩))

theorem storeWith_isItem {c : Nat} (hc : m.IsItem c) :
    (m.storeWith k n).nodes c = m.store.nodes c := by
  refine storeWith_old hc.1 ?_
  rintro rfl
  have hitem := hc.2
  rw [m.root_node] at hitem
  cases hitem

/-- An old declaration keeps its node and its type. -/
theorem storeWith_declared {d t : Nat} (hd : d ∈ m.declarations)
    (ht : ((m.storeWith k n).nodes d).declaredType = some t) :
    (m.storeWith k n).nodes d = m.store.nodes d ∧
      (m.storeWith k n).nodes t = m.store.nodes t := by
  have hnode := storeWith_old (k := k) (n := n) (declarations_lt hd) (declaration_ne_root hd)
  rw [hnode] at ht
  exact ⟨hnode, storeWith_old (type_lt hd ht) (type_ne_root hd ht)⟩

theorem storeWith_unitOf {fuel d t : Nat} {params : List (String × Nat)} {is : List Nat}
    (hd : d ∈ m.declarationsWith k) (h : UnitOf (m.storeWith k n) fuel d t params is) :
    d ∈ m.declarations ∧ UnitOf m.store fuel d t params is := by
  obtain ⟨items, hty, hunit, hflat⟩ := h
  obtain rfl | hd := mem_declarationsWith.mp hd
  · rw [storeWith_declaration] at hty
    obtain ⟨rfl, -⟩ := n.declaredType_declaration hty
    rw [storeWith_node] at hunit
    exact absurd hunit (n.node_ne_unit params items)
  · obtain ⟨hnode, htype⟩ := storeWith_declared hd hty
    rw [hnode] at hty
    rw [htype] at hunit
    refine ⟨hd, items, hty, hunit, ?_⟩
    rw [← hflat]
    refine (flattenedItems_congr (fun c hc i hi => isItem_of_cases hc hi) (fun c hc => ?_) fuel
      fun i hi => isItem_of_items (type_lt hd hty) hunit hi).symm
    have hlt : c < (m.storeWith k n).size := hc.1.trans_le (Nat.le_add_right _ 2)
    rw [Store.node, storeWith_intact c hlt, storeWith_isItem hc, (holds hc.1).node]

/-- Adds a declaration after the first `k`. -/
def declare (m : Parsed) (k : Nat) (n : NewDeclaration) : Parsed where
  store := m.storeWith k n
  root := m.root
  name := m.name
  properties := m.properties
  declarations := m.declarationsWith k
  root_lt := m.root_lt.trans_le (Nat.le_add_right _ 2)
  root_node := storeWith_root
  intact := storeWith_intact
  children_lt a ha c hc := by
    have hold : ∀ c < m.store.size, c < m.store.size + 2 := fun c hc => by omega
    rw [storeWith_size]
    obtain ⟨-, hn⟩ | ⟨-, hn⟩ | ⟨-, hn⟩ | ⟨hlt, -, hn⟩ := storeWith_cases ha
    · rw [hn] at hc
      obtain rfl | hd := List.mem_cons.mp hc
      · apply hold
        apply m.children_lt m.root m.root_lt
        rw [m.root_node]
        exact List.mem_cons_self
      · obtain rfl | hd := mem_declarationsWith.mp hd
        · omega
        · exact hold c (declarations_lt hd)
    · rw [hn, n.node_children] at hc
      cases hc
    · rw [hn, n.declaration_children, List.mem_singleton] at hc
      omega
    · rw [hn] at hc
      exact hold c (m.children_lt a hlt c hc)
  declarations_nodup := by
    have hfresh : m.store.size + 1 ∉ m.declarations := by
      intro hd
      have := declarations_lt hd
      omega
    refine (List.perm_middle.nodup_iff).mpr ?_
    rw [List.take_append_drop]
    exact List.nodup_cons.mpr ⟨hfresh, m.declarations_nodup⟩
  declaration_node d hd := by
    obtain rfl | hd := mem_declarationsWith.mp hd
    · rw [storeWith_declaration, n.declaration_isDeclaration]
    · rw [storeWith_old (declarations_lt hd) (declaration_ne_root hd)]
      exact m.declaration_node d hd
  type_node d hd t ht := by
    obtain rfl | hd := mem_declarationsWith.mp hd
    · rw [storeWith_declaration] at ht
      obtain ⟨rfl, htype⟩ := n.declaredType_declaration ht
      rw [storeWith_node]
      exact htype
    · obtain ⟨hnode, htype⟩ := storeWith_declared hd ht
      rw [hnode] at ht
      rw [htype]
      exact m.type_node d hd t ht
  types_unique d hd d' hd' t ht ht' := by
    -- the type of the new declaration is new
    have hnew : ∀ e ∈ m.declarations, ((m.storeWith k n).nodes e).declaredType ≠
        some m.store.size := by
      intro e he hte
      obtain ⟨hnode, -⟩ := storeWith_declared he hte
      rw [hnode] at hte
      have := type_lt he hte
      omega
    have hown : ∀ {t}, ((m.storeWith k n).nodes (m.store.size + 1)).declaredType = some t →
        t = m.store.size := by
      intro t ht
      rw [storeWith_declaration] at ht
      exact (n.declaredType_declaration ht).1
    obtain rfl | hd := mem_declarationsWith.mp hd
    · obtain rfl | hd' := mem_declarationsWith.mp hd'
      · rfl
      · exact absurd (hown ht ▸ ht') (hnew d' hd')
    · obtain rfl | hd' := mem_declarationsWith.mp hd'
      · exact absurd (hown ht' ▸ ht) (hnew d hd)
      · rw [(storeWith_declared hd ht).1] at ht
        rw [(storeWith_declared hd' ht').1] at ht'
        exact m.types_unique d hd d' hd' t ht ht'
  unit_items a ha params items hunit i hi := by
    obtain ⟨-, hn⟩ | ⟨-, hn⟩ | ⟨-, hn⟩ | ⟨hlt, -, hn⟩ := storeWith_cases ha
    · rw [hn] at hunit
      cases hunit
    · exact absurd (hn.symm.trans hunit) (n.node_ne_unit params items)
    · exact absurd (hn.symm.trans hunit) (n.declaration_ne_unit _ params items)
    · rw [hn] at hunit
      have hitem := isItem_of_items hlt hunit hi
      rw [storeWith_isItem hitem]
      exact hitem.2
  case_items a ha i hi := by
    obtain ⟨-, hn⟩ | ⟨-, hn⟩ | ⟨-, hn⟩ | ⟨hlt, -, hn⟩ := storeWith_cases ha
    · rw [hn] at hi
      cases hi
    · rw [hn, n.node_cases] at hi
      cases hi
    · rw [hn, n.declaration_cases] at hi
      cases hi
    · rw [hn] at hi
      have hitem : m.IsItem i :=
        ⟨m.children_lt a hlt i (Node.mem_children_of_cases hi), m.case_items a hlt i hi⟩
      rw [storeWith_isItem hitem]
      exact hitem.2
  items_once fuel d hd t params is hu := by
    obtain ⟨hd, hu⟩ := storeWith_unitOf hd hu
    exact m.items_once fuel d hd t params is hu
  items_disjoint fuel d hd d' hd' hne t params is t' params' is' hu hu' := by
    obtain ⟨hd, hu⟩ := storeWith_unitOf hd hu
    obtain ⟨hd', hu'⟩ := storeWith_unitOf hd' hu'
    exact m.items_disjoint fuel d hd d' hd' hne t params is t' params' is' hu hu'

/-- The declarations of `ScopeBuilder::addBuiltins`. -/
def builtins : List NewDeclaration :=
  [.labelled "ByteOrder" ["UNDEF", "big", "little"], .function "uppercase",
    .transform "stringEncodedUint64", .transform "hexStringEncodedUint64",
    .transform "stringEncodedUint32"]

/-- Adds declarations at the end. -/
def append (m : Parsed) (ns : List NewDeclaration) : Parsed :=
  ns.foldl (fun m n => m.declare m.declarations.length n) m

/-- `ScopeBuilder::addBuiltins`. -/
def addBuiltins (m : Parsed) : Parsed := m.append builtins

end Parsed

end Diffingo.Names
