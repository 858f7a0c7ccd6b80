import Mathlib.Data.List.Basic
import Mathlib.Data.Nat.Basic
import Mathlib.Logic.Function.Basic
import Mathlib.Logic.Relation
import Mathlib.Order.Basic

/-!
# Pre-order traversals that redirect what they visit

Cells point to nodes. A traversal visits a cell, goes on to the children of the node the cell then
points to, and skips a cell if a lookup finds a visited one that points to the same node. A visit
may allocate nodes and redirect cells, so that cells come to share a node, and a lookup keyed by
what a visit changes may miss cells it has seen: a `Lookup` is only required never to be wrong
about a cell it finds.

`Discipline` collects what a visit has to respect for the traversal to resolve everything it
reaches nevertheless (`resolved_of_reaches`).
-/

namespace Traversal

/-- Cells `0 … size - 1`, each of them created together with the node of the same number. -/
structure Store (N : Type) where
  size : Nat
  pointee : Nat → Nat
  nodes : Nat → N

variable {N : Type}

namespace Store

/-- The node a cell points to. -/
def node (s : Store N) (c : Nat) : N := s.nodes (s.pointee c)

/-- Lets the cell `c` point to what `d` points to. -/
def replace (s : Store N) (c d : Nat) : Store N :=
  { s with pointee := Function.update s.pointee c (s.pointee d) }

/-- A new node; its cell is `s.size`. -/
def alloc (s : Store N) (n : N) : Store N where
  size := s.size + 1
  pointee := Function.update s.pointee s.size s.size
  nodes := Function.update s.nodes s.size n

@[simp] theorem replace_size (s : Store N) (c d : Nat) : (s.replace c d).size = s.size := rfl

@[simp] theorem replace_nodes (s : Store N) (c d : Nat) : (s.replace c d).nodes = s.nodes := rfl

@[simp] theorem replace_pointee_self (s : Store N) (c d : Nat) :
    (s.replace c d).pointee c = s.pointee d := by simp [replace]

theorem replace_pointee_of_ne (s : Store N) {c e : Nat} (d : Nat) (h : e ≠ c) :
    (s.replace c d).pointee e = s.pointee e := by simp [replace, h]

@[simp] theorem replace_node_self (s : Store N) (c d : Nat) :
    (s.replace c d).node c = s.node d := by simp [node]

@[simp] theorem alloc_size (s : Store N) (n : N) : (s.alloc n).size = s.size + 1 := rfl

theorem alloc_pointee (s : Store N) (n : N) {c : Nat} (h : c < s.size) :
    (s.alloc n).pointee c = s.pointee c := by simp [alloc, Nat.ne_of_lt h]

theorem alloc_nodes (s : Store N) (n : N) {a : Nat} (h : a < s.size) :
    (s.alloc n).nodes a = s.nodes a := by simp [alloc, Nat.ne_of_lt h]

@[simp] theorem alloc_node_new (s : Store N) (n : N) : (s.alloc n).node s.size = n := by
  simp [alloc, node]

end Store

/-- One visit: the cell, the cells above it, the nearest first, and the store the visit found. -/
structure Visit (N : Type) where
  cell : Nat
  current : List Nat
  store : Store N

/-- The state of a traversal: the store, the visits and the errors so far, the last one first. -/
structure Walk (N : Type) where
  store : Store N
  visited : List (Visit N)
  errors : List String

def Walk.log (w : Walk N) (message : String) : Walk N := { w with errors := message :: w.errors }

/-- Starts visiting a cell. -/
def Walk.enter (w : Walk N) (current : List Nat) (c : Nat) : Walk N :=
  { w with visited := ⟨c, current, w.store⟩ :: w.visited }

@[simp] theorem Walk.enter_store (w : Walk N) (current : List Nat) (c : Nat) :
    (w.enter current c).store = w.store := rfl

@[simp] theorem Walk.enter_errors (w : Walk N) (current : List Nat) (c : Nat) :
    (w.enter current c).errors = w.errors := rfl

@[simp] theorem Walk.enter_visited (w : Walk N) (current : List Nat) (c : Nat) :
    (w.enter current c).visited = ⟨c, current, w.store⟩ :: w.visited := rfl

/-- A search among the visited cells. What it finds points to the same node; it may miss cells. -/
structure Lookup (N : Type) where
  find : Store N → List Nat → Nat → Bool
  sound : ∀ s visited c, find s visited c = true → ∃ v ∈ visited, s.pointee v = s.pointee c

/-- The search that misses nothing. -/
def Lookup.exact : Lookup N where
  find s visited c := visited.any fun v => s.pointee v == s.pointee c
  sound s visited c h := by simpa using h

/-- Visits `c` and what lies below it. `none` if the fuel is used up or a visit aborts. -/
def preOrder (children : N → List Nat) (lookup : Lookup N)
    (visit : List Nat → Nat → Walk N → Option (Walk N)) :
    Nat → List Nat → Nat → Walk N → Option (Walk N)
  | 0, _, _, _ => none
  | fuel + 1, current, c, w =>
    if lookup.find w.store (w.visited.map Visit.cell) c then some w
    else do
      let w₁ ← visit current c (w.enter current c)
      (children (w₁.store.node c)).foldlM
        (fun w d => preOrder children lookup visit fuel (c :: current) d w) w₁

section Rules

variable {children : N → List Nat} {lookup : Lookup N}
variable {visit : List Nat → Nat → Walk N → Option (Walk N)}

/-- What one call of the traversal does: it skips the cell, or visits it and then its children. -/
theorem preOrder_succ {fuel : Nat} {current : List Nat} {c : Nat} {w w' : Walk N}
    (h : preOrder children lookup visit (fuel + 1) current c w = some w') :
    (lookup.find w.store (w.visited.map Visit.cell) c = true ∧ w' = w) ∨
      ∃ w₁, visit current c (w.enter current c) = some w₁ ∧
        (children (w₁.store.node c)).foldlM
          (fun w d => preOrder children lookup visit fuel (c :: current) d w) w₁ = some w' := by
  rw [preOrder] at h
  split at h
  · next hfind =>
    cases h
    exact .inl ⟨hfind, rfl⟩
  · obtain ⟨w₁, hvisit, hrest⟩ := Option.bind_eq_some_iff.mp h
    exact .inr ⟨w₁, hvisit, hrest⟩

/-- A reflexive and transitive relation that entering and visiting a cell respect is respected by
the whole traversal. -/
theorem preOrder_rel {R : Walk N → Walk N → Prop} (hrefl : ∀ w, R w w)
    (htrans : ∀ {w₁ w₂ w₃}, R w₁ w₂ → R w₂ w₃ → R w₁ w₃)
    (hvisit : ∀ {current c w w'}, visit current c (w.enter current c) = some w' → R w w')
    {fuel : Nat} {current : List Nat} {c : Nat} {w w' : Walk N}
    (h : preOrder children lookup visit fuel current c w = some w') : R w w' := by
  induction fuel generalizing current c w w' with
  | zero => cases h
  | succ fuel ih =>
    obtain ⟨-, rfl⟩ | ⟨w₁, hv, hrest⟩ := preOrder_succ h
    · exact hrefl w'
    · refine htrans (hvisit hv) ?_
      generalize children (w₁.store.node c) = ds at hrest
      clear hv h
      induction ds generalizing w₁ with
      | nil =>
        cases hrest
        exact hrefl w'
      | cons d ds ihds =>
        rw [List.foldlM_cons] at hrest
        obtain ⟨w₂, hd, hds⟩ := Option.bind_eq_some_iff.mp hrest
        exact htrans (ih hd) (ihds w₂ hds)

/-- A traversal that starts in a set of cells closed under children stays there, so that visits of
these cells are all that an invariant has to survive. -/
theorem preOrder_within {Q : Nat → Prop} {J : Walk N → Prop}
    (hvisit : ∀ {current c w w'}, Q c → J w → visit current c (w.enter current c) = some w' → J w')
    (hchild : ∀ {c w d}, Q c → J w → d ∈ children (w.store.node c) → Q d)
    {fuel : Nat} {current : List Nat} {c : Nat} {w w' : Walk N} (hc : Q c) (hw : J w)
    (h : preOrder children lookup visit fuel current c w = some w') : J w' := by
  induction fuel generalizing current c w w' with
  | zero => cases h
  | succ fuel ih =>
    obtain ⟨-, rfl⟩ | ⟨w₁, hv, hrest⟩ := preOrder_succ h
    · exact hw
    · have hw₁ := hvisit hc hw hv
      have hds : ∀ d ∈ children (w₁.store.node c), Q d := fun d hd => hchild hc hw₁ hd
      generalize children (w₁.store.node c) = ds at hrest hds
      clear hv h
      induction ds generalizing w₁ with
      | nil =>
        cases hrest
        exact hw₁
      | cons d ds ihds =>
        rw [List.foldlM_cons] at hrest
        obtain ⟨w₂, hd, hrest⟩ := Option.bind_eq_some_iff.mp hrest
        refine ihds w₂ (ih (hds d List.mem_cons_self) hw₁ hd) hrest ?_
        exact fun e he => hds e (List.mem_cons_of_mem d he)

/-- Lookups that agree on all stores a traversal can lead to make no difference to it. -/
theorem preOrder_congr {lookup' : Lookup N} {P : Store N → Prop}
    (hvisit : ∀ {current c} {w w' : Walk N}, P w.store →
      visit current c (w.enter current c) = some w' → P w'.store)
    (hfind : ∀ s visited c, P s → lookup'.find s visited c = lookup.find s visited c)
    {fuel : Nat} {current : List Nat} {c : Nat} {w : Walk N} (hw : P w.store) :
    preOrder children lookup' visit fuel current c w =
      preOrder children lookup visit fuel current c w := by
  induction fuel generalizing current c w with
  | zero => rfl
  | succ fuel ih =>
    rw [preOrder, preOrder, hfind _ _ _ hw]
    split
    · rfl
    · cases hv : visit current c (w.enter current c) with
      | none => rfl
      | some w₁ =>
        have hw₁ := hvisit hw hv
        simp only [Option.bind_eq_bind, Option.bind_some]
        generalize children (w₁.store.node c) = ds
        clear hv
        induction ds generalizing w₁ with
        | nil => rfl
        | cons d ds ihds =>
          rw [List.foldlM_cons, List.foldlM_cons, ih hw₁]
          cases hd : preOrder children lookup visit fuel (c :: current) d w₁ with
          | none => rfl
          | some w₂ =>
            refine ihds w₂ (preOrder_within (Q := fun _ => True) (J := fun w => P w.store)
              (fun _ hw hv => hvisit hw hv) (fun _ _ _ => trivial) trivial hw₁ hd)

theorem foldlM_invariant {α β : Type} {f : β → α → Option β} {J : β → Prop}
    (hJ : ∀ {b x b'}, J b → f b x = some b' → J b') {l : List α} {b b' : β} (hb : J b)
    (h : l.foldlM f b = some b') : J b' := by
  induction l generalizing b with
  | nil =>
    cases h
    exact hb
  | cons x l ih =>
    rw [List.foldlM_cons] at h
    obtain ⟨b₁, hx, hrest⟩ := Option.bind_eq_some_iff.mp h
    exact ih (hJ hb hx) hrest

/-- What is established at one element of a list and kept from then on holds in the end. -/
theorem foldlM_reaches {α β : Type} {f : β → α → Option β} {J K : β → Prop} {l : List α} {a : α}
    (hJ : ∀ {b x b'}, J b → f b x = some b' → J b' ∧ (K b → K b'))
    (hreach : ∀ {b b'}, J b → f b a = some b' → K b') (ha : a ∈ l) {b b' : β} (hb : J b)
    (h : l.foldlM f b = some b') : K b' := by
  induction l generalizing b with
  | nil => cases ha
  | cons x l ih =>
    rw [List.foldlM_cons] at h
    obtain ⟨b₁, hx, hrest⟩ := Option.bind_eq_some_iff.mp h
    obtain rfl | ha := List.mem_cons.mp ha
    · refine (foldlM_invariant (J := fun b => J b ∧ K b) (fun hb hx => ?_)
        ⟨(hJ hb hx).1, hreach hb hx⟩ hrest).2
      exact ⟨(hJ hb.1 hx).1, (hJ hb.1 hx).2 hb.2⟩
    · exact ih ha (hJ hb hx).1 hrest

end Rules

/-- The nodes of a store as a traversal that resolves them sees them. An unresolved node has to be
redirected; a transient one is redirected by its own visit only; a settled one may be redirected
again, but nothing hangs on it. -/
structure Discipline (N : Type) where
  children : N → List Nat
  links : N → List Nat
  unresolved : N → Prop
  transient : N → Prop
  settled : N → Prop
  inv : Store N → Prop
  link_of_child : ∀ {n d}, d ∈ children n → d ∈ links n
  settled_leaf : ∀ {n}, settled n → links n = []
  settled_fixed : ∀ {n}, settled n → ¬ unresolved n ∧ ¬ transient n
  pointee_lt : ∀ {s c}, inv s → c < s.size → s.pointee c < s.size
  link_lt : ∀ {s c d}, inv s → c < s.size → d ∈ links (s.node c) → d < s.size

namespace Discipline

variable (D : Discipline N)

/-- The cells that can be reached from a cell. -/
def Reaches (s : Store N) : Nat → Nat → Prop :=
  Relation.ReflTransGen fun c d => d ∈ D.links (s.node c)

/-- The cell needs no visit any more. -/
def Covered (w : Walk N) (c : Nat) : Prop :=
  D.settled (w.store.node c) ∨ ∃ v ∈ w.visited, w.store.pointee v.cell = w.store.pointee c

/-- All children are covered. -/
def Closed (w : Walk N) (c : Nat) : Prop := ∀ d ∈ D.children (w.store.node c), D.Covered w d

/-- Whatever can be reached from the cell before the first covered cell is resolved. -/
def Safe (w : Walk N) (c : Nat) : Prop :=
  ∃ R : Nat → Prop, R c ∧ ∀ x, R x → x < w.store.size ∧
    (D.Covered w x ∨ ¬ D.unresolved (w.store.node x) ∧ ∀ y ∈ D.links (w.store.node x), R y)

/-- What holds between visits. -/
structure Good (w : Walk N) : Prop where
  inv : D.inv w.store
  bound : ∀ v ∈ w.visited, v.cell < w.store.size
  fixed : ∀ v ∈ w.visited,
    ¬ D.unresolved (w.store.node v.cell) ∧ ¬ D.transient (w.store.node v.cell)
  hidden : ∀ v ∈ w.visited, ∀ d ∈ D.links (w.store.node v.cell),
    d ∈ D.children (w.store.node v.cell) ∨ D.Safe w d

/-- What a visit of `c` in the store `s` may do. -/
structure Effect (s : Store N) (c : Nat) (t : Store N) : Prop where
  inv : D.inv t
  size_le : s.size ≤ t.size
  nodes : ∀ a < s.size, t.nodes a = s.nodes a
  moved : ∀ e < s.size, t.pointee e = s.pointee e ∨ D.unresolved (s.node e) ∨
    e = c ∧ (D.transient (s.node c) ∨ D.settled (s.node c))
  fixed : ¬ D.unresolved (t.node c) ∧ ¬ D.transient (t.node c)
  hidden : ∀ d ∈ D.links (t.node c), d ∈ D.children (t.node c) ∨
    d < s.size ∧ ∀ e, D.Reaches s d e → ¬ D.unresolved (s.node e)

/-- What a part of the traversal does. -/
structure Extends (w w' : Walk N) : Prop where
  size_le : w.store.size ≤ w'.store.size
  visited : w.visited ⊆ w'.visited
  nodes : ∀ a < w.store.size, w'.store.nodes a = w.store.nodes a
  covered : ∀ x < w.store.size, D.Covered w x → D.Covered w' x
  kept : ∀ x < w.store.size, w'.store.pointee x = w.store.pointee x ∨
    D.unresolved (w.store.node x) ∨ D.Covered w' x

variable {D}

theorem node_eq {s t : Store N} {c : Nat} (hs : D.inv s) (hc : c < s.size)
    (hnodes : ∀ a < s.size, t.nodes a = s.nodes a) (hp : t.pointee c = s.pointee c) :
    t.node c = s.node c := by
  rw [Store.node, Store.node, hp, hnodes _ (D.pointee_lt hs hc)]

theorem Extends.refl (w : Walk N) : D.Extends w w :=
  ⟨le_rfl, fun _ h => h, fun _ _ => rfl, fun _ _ h => h, fun _ _ => .inl rfl⟩

theorem Extends.trans {w₁ w₂ w₃ : Walk N} (hg : D.Good w₁) (h₁ : D.Extends w₁ w₂)
    (h₂ : D.Extends w₂ w₃) : D.Extends w₁ w₃ where
  size_le := h₁.size_le.trans h₂.size_le
  visited := List.Subset.trans h₁.visited h₂.visited
  nodes a ha := (h₂.nodes a (ha.trans_le h₁.size_le)).trans (h₁.nodes a ha)
  covered x hx h := h₂.covered x (hx.trans_le h₁.size_le) (h₁.covered x hx h)
  kept x hx := by
    have hx₂ := hx.trans_le h₁.size_le
    obtain h | h | h := h₁.kept x hx
    · obtain h' | h' | h' := h₂.kept x hx₂
      · exact .inl (h'.trans h)
      · rw [node_eq hg.inv hx h₁.nodes h] at h'
        exact .inr (.inl h')
      · exact .inr (.inr h')
    · exact .inr (.inl h)
    · exact .inr (.inr (h₂.covered x hx₂ h))

theorem Safe.extends {w w' : Walk N} {c : Nat} (hg : D.Good w) (he : D.Extends w w')
    (h : D.Safe w c) : D.Safe w' c := by
  obtain ⟨R, hc, hR⟩ := h
  refine ⟨R, hc, fun x hx => ?_⟩
  obtain ⟨hlt, hcov | ⟨hres, hlinks⟩⟩ := hR x hx
  · exact ⟨hlt.trans_le he.size_le, .inl (he.covered x hlt hcov)⟩
  · refine ⟨hlt.trans_le he.size_le, ?_⟩
    obtain hp | hu | hcov := he.kept x hlt
    · rw [node_eq hg.inv hlt he.nodes hp]
      exact .inr ⟨hres, hlinks⟩
    · exact absurd hu hres
    · exact .inl hcov

/-- A part of the store without unresolved nodes is safe. -/
theorem Safe.of_reaches {w : Walk N} {c : Nat} (hg : D.Good w) (hc : c < w.store.size)
    (h : ∀ e, D.Reaches w.store c e → ¬ D.unresolved (w.store.node e)) : D.Safe w c := by
  have hlt : ∀ e, D.Reaches w.store c e → e < w.store.size := by
    intro e he
    induction he with
    | refl => exact hc
    | tail _ hlink ih => exact D.link_lt hg.inv ih hlink
  refine ⟨D.Reaches w.store c, .refl, fun x hx => ⟨hlt x hx, .inr ⟨h x hx, ?_⟩⟩⟩
  intro y hy
  exact hx.tail hy

theorem Covered.fixed {w : Walk N} {c : Nat} (hg : D.Good w) (h : D.Covered w c) :
    ¬ D.unresolved (w.store.node c) ∧ ¬ D.transient (w.store.node c) := by
  obtain hs | ⟨v, hv, hp⟩ := h
  · exact D.settled_fixed hs
  · have hnode : w.store.node c = w.store.node v.cell := by rw [Store.node, Store.node, hp]
    rw [hnode]
    exact hg.fixed v hv

section Step

variable {w w₁ : Walk N} {c : Nat} {current : List Nat}

theorem Effect.pointee_eq_of_ne (hg : D.Good w) (he : D.Effect w.store c w₁.store) {v : Visit N}
    (hv : v ∈ w.visited) (hne : v.cell ≠ c) :
    w₁.store.pointee v.cell = w.store.pointee v.cell := by
  obtain h | h | ⟨h, -⟩ := he.moved v.cell (hg.bound v hv)
  · exact h
  · exact absurd h (hg.fixed v hv).1
  · exact absurd h hne

theorem Effect.node_eq_of_ne (hg : D.Good w) (he : D.Effect w.store c w₁.store) {v : Visit N}
    (hv : v ∈ w.visited) (hne : v.cell ≠ c) : w₁.store.node v.cell = w.store.node v.cell :=
  node_eq hg.inv (hg.bound v hv) he.nodes (he.pointee_eq_of_ne hg hv hne)

/-- A cell visited before is redirected only from a settled node, and only by its own visit. -/
theorem Effect.covered (hg : D.Good w) (he : D.Effect w.store c w₁.store)
    (hvisited : w₁.visited = ⟨c, current, w.store⟩ :: w.visited) {x : Nat}
    (hx : x < w.store.size) (h : D.Covered w x) : D.Covered w₁ x := by
  by_cases hxc : x = c
  · exact .inr ⟨⟨c, current, w.store⟩, by simp [hvisited], by rw [hxc]⟩
  have hpx : w₁.store.pointee x = w.store.pointee x := by
    obtain hp | hu | ⟨hc, -⟩ := he.moved x hx
    · exact hp
    · exact absurd hu (h.fixed hg).1
    · exact absurd hc hxc
  have hnx := node_eq hg.inv hx he.nodes hpx
  obtain hs | ⟨v, hv, hp⟩ := h
  · exact .inl (hnx ▸ hs)
  · have hnode : w.store.node v.cell = w.store.node x := by rw [Store.node, Store.node, hp]
    obtain hpv | hu | ⟨hvc, ht | hs⟩ := he.moved v.cell (hg.bound v hv)
    · exact .inr ⟨v, by simp [hvisited, hv], by rw [hpv, hpx, hp]⟩
    · exact absurd hu (hg.fixed v hv).1
    · exact absurd (hvc ▸ ht) (hg.fixed v hv).2
    · rw [← hvc, hnode, ← hnx] at hs
      exact .inl hs

theorem Effect.extends (hg : D.Good w) (he : D.Effect w.store c w₁.store)
    (hvisited : w₁.visited = ⟨c, current, w.store⟩ :: w.visited) : D.Extends w w₁ where
  size_le := he.size_le
  visited := by simp [hvisited]
  nodes := he.nodes
  covered x hx h := he.covered hg hvisited hx h
  kept x hx := by
    obtain h | h | ⟨rfl, -⟩ := he.moved x hx
    · exact .inl h
    · exact .inr (.inl h)
    · exact .inr (.inr (.inr ⟨⟨x, current, w.store⟩, by simp [hvisited], rfl⟩))

theorem Effect.good (hg : D.Good w) (hc : c < w.store.size) (he : D.Effect w.store c w₁.store)
    (hvisited : w₁.visited = ⟨c, current, w.store⟩ :: w.visited) : D.Good w₁ where
  inv := he.inv
  bound v hv := by
    rw [hvisited] at hv
    obtain rfl | hv := List.mem_cons.mp hv
    · exact hc.trans_le he.size_le
    · exact (hg.bound v hv).trans_le he.size_le
  fixed v hv := by
    by_cases hvc : v.cell = c
    · rw [hvc]
      exact he.fixed
    · rw [hvisited] at hv
      obtain rfl | hv := List.mem_cons.mp hv
      · exact absurd rfl hvc
      · rw [he.node_eq_of_ne hg hv hvc]
        exact hg.fixed v hv
  hidden v hv d hd := by
    have hext := he.extends hg hvisited
    by_cases hvc : v.cell = c
    · rw [hvc] at hd ⊢
      refine (he.hidden d hd).imp_right fun h => ?_
      exact (Safe.of_reaches hg h.1 h.2).extends hg hext
    · rw [hvisited] at hv
      obtain rfl | hv := List.mem_cons.mp hv
      · exact absurd rfl hvc
      · rw [he.node_eq_of_ne hg hv hvc] at hd ⊢
        exact (hg.hidden v hv d hd).imp_right fun h => h.extends hg hext

end Step

/-- Every cell visited since, or redirected since, is closed, but for the cells exempted. -/
def Closes (D : Discipline N) (exempt : Nat → Prop) (w w' : Walk N) : Prop :=
  ∀ v ∈ w'.visited, D.Closed w' v.cell ∨ exempt v.cell ∨
    v ∈ w.visited ∧ w'.store.pointee v.cell = w.store.pointee v.cell

theorem Closed.extends {w w' : Walk N} {c : Nat} (hg : D.Good w) (hc : c < w.store.size)
    (he : D.Extends w w') (hp : w'.store.pointee c = w.store.pointee c) (h : D.Closed w c) :
    D.Closed w' c := by
  intro d hd
  rw [node_eq hg.inv hc he.nodes hp] at hd
  exact he.covered d (D.link_lt hg.inv hc (D.link_of_child hd)) (h d hd)

theorem Closes.trans {exempt : Nat → Prop} {w₁ w₂ w₃ : Walk N} (hg : D.Good w₂)
    (h₁ : D.Closes exempt w₁ w₂) (he : D.Extends w₂ w₃) (h₂ : D.Closes (fun _ => False) w₂ w₃) :
    D.Closes exempt w₁ w₃ := by
  intro v hv
  obtain h | h | ⟨hv₂, hp⟩ := h₂ v hv
  · exact .inl h
  · exact h.elim
  · obtain h | h | ⟨hv₁, hp'⟩ := h₁ v hv₂
    · exact .inl (h.extends hg (hg.bound v hv₂) he hp)
    · exact .inr (.inl h)
    · exact .inr (.inr ⟨hv₁, hp.trans hp'⟩)

theorem Effect.closes {w w₁ : Walk N} {c : Nat} {current : List Nat} (hg : D.Good w)
    (he : D.Effect w.store c w₁.store)
    (hvisited : w₁.visited = ⟨c, current, w.store⟩ :: w.visited) : D.Closes (· = c) w w₁ := by
  intro v hv
  by_cases hvc : v.cell = c
  · exact .inr (.inl hvc)
  · rw [hvisited] at hv
    obtain rfl | hv := List.mem_cons.mp hv
    · exact absurd rfl hvc
    · exact .inr (.inr ⟨hv, he.pointee_eq_of_ne hg hv hvc⟩)

section Run

variable {lookup : Lookup N} {visit : List Nat → Nat → Walk N → Option (Walk N)}
variable {ok : Visit N → Prop}

/-- No error so far, and every visit so far was as required. -/
def Accepted (ok : Visit N → Prop) (w : Walk N) : Prop := w.errors = [] ∧ ∀ v ∈ w.visited, ok v

/-- A visit logs errors but removes none, and has the effect `Effect` if it logs none and the state
it found was as required. -/
structure Visits (D : Discipline N) (ok : Visit N → Prop)
    (visit : List Nat → Nat → Walk N → Option (Walk N)) : Prop where
  visited : ∀ {current c w w₁}, visit current c w = some w₁ → w₁.visited = w.visited
  errors : ∀ {current c w w₁}, visit current c w = some w₁ → w.errors <:+ w₁.errors
  effect : ∀ {current c w w₁}, visit current c w = some w₁ → D.inv w.store →
    (∀ d ∈ c :: current, d < w.store.size) → w₁.errors = [] → ok ⟨c, current, w.store⟩ →
    D.Effect w.store c w₁.store

theorem Visits.accepted (hvisit : D.Visits ok visit) {fuel : Nat} {current : List Nat} {c : Nat}
    {w w' : Walk N} (h : preOrder D.children lookup visit fuel current c w = some w')
    (hacc : Accepted ok w') : Accepted ok w := by
  refine preOrder_rel (R := fun w w' => Accepted ok w' → Accepted ok w) (fun _ h => h)
    (fun h₁ h₂ h => h₁ (h₂ h)) ?_ h hacc
  intro current c w w₁ hw hacc
  have herrors := hvisit.errors hw
  rw [Walk.enter_errors, hacc.1] at herrors
  refine ⟨List.suffix_nil.mp herrors, fun v hmem => hacc.2 v ?_⟩
  rw [hvisit.visited hw]
  exact List.mem_cons_of_mem _ hmem

theorem accepted_of_foldlM {call : Nat → Walk N → Option (Walk N)}
    (hback : ∀ {d w w'}, call d w = some w' → Accepted ok w' → Accepted ok w) {ds : List Nat}
    {w w' : Walk N} (h : ds.foldlM (fun w d => call d w) w = some w') (hacc : Accepted ok w') :
    Accepted ok w := by
  induction ds generalizing w with
  | nil =>
    cases h
    exact hacc
  | cons d ds ih =>
    rw [List.foldlM_cons] at h
    obtain ⟨w₁, hd, hrest⟩ := Option.bind_eq_some_iff.mp h
    exact hback hd (ih hrest)

/-- Visiting the children one after the other. -/
theorem foldlM_closes {call : Nat → Walk N → Option (Walk N)} {n : Nat}
    (hback : ∀ {d w w'}, call d w = some w' → Accepted ok w' → Accepted ok w)
    (hcall : ∀ {d w w'}, call d w = some w' → D.Good w → n ≤ w.store.size → d < w.store.size →
      Accepted ok w' →
      D.Good w' ∧ D.Extends w w' ∧ D.Closes (fun _ => False) w w' ∧ D.Covered w' d)
    {ds : List Nat} {w w' : Walk N} (h : ds.foldlM (fun w d => call d w) w = some w')
    (hg : D.Good w) (hn : n ≤ w.store.size) (hds : ∀ d ∈ ds, d < w.store.size)
    (hacc : Accepted ok w') :
    D.Good w' ∧ D.Extends w w' ∧ D.Closes (fun _ => False) w w' ∧ ∀ d ∈ ds, D.Covered w' d := by
  induction ds generalizing w with
  | nil =>
    cases h
    exact ⟨hg, Extends.refl w', fun v hv => .inr (.inr ⟨hv, rfl⟩), by simp⟩
  | cons d ds ih =>
    rw [List.foldlM_cons] at h
    obtain ⟨w₁, hd, hrest⟩ := Option.bind_eq_some_iff.mp h
    have hacc₁ := accepted_of_foldlM hback hrest hacc
    obtain ⟨hg₁, he₁, hc₁, hcov₁⟩ := hcall hd hg hn (hds d List.mem_cons_self) hacc₁
    have hds₁ : ∀ e ∈ ds, e < w₁.store.size := fun e he =>
      (hds e (List.mem_cons_of_mem d he)).trans_le he₁.size_le
    obtain ⟨hg', he', hc', hcov'⟩ := ih hrest hg₁ (hn.trans he₁.size_le) hds₁
    refine ⟨hg', he₁.trans hg he', hc₁.trans hg₁ he' hc', ?_⟩
    intro e he
    obtain rfl | he := List.mem_cons.mp he
    · exact he'.covered e ((hds e List.mem_cons_self).trans_le he₁.size_le) hcov₁
    · exact hcov' e he

/-- The traversal of a cell covers the cell and closes what it visits. -/
theorem Visits.preOrder_closes (hvisit : D.Visits ok visit) {fuel : Nat} {current : List Nat}
    {c : Nat} {w w' : Walk N} (h : preOrder D.children lookup visit fuel current c w = some w')
    (hg : D.Good w) (hcurrent : ∀ d ∈ c :: current, d < w.store.size) (hacc : Accepted ok w') :
    D.Good w' ∧ D.Extends w w' ∧ D.Closes (fun _ => False) w w' ∧ D.Covered w' c := by
  induction fuel generalizing current c w w' with
  | zero => cases h
  | succ fuel ih =>
    have hc : c < w.store.size := hcurrent c List.mem_cons_self
    obtain ⟨hfind, rfl⟩ | ⟨w₁, hv, hrest⟩ := preOrder_succ h
    · obtain ⟨x, hx, hp⟩ := lookup.sound _ _ _ hfind
      obtain ⟨v, hv, rfl⟩ := List.mem_map.mp hx
      exact ⟨hg, Extends.refl w', fun v hv => .inr (.inr ⟨hv, rfl⟩), .inr ⟨v, hv, hp⟩⟩
    · have hvisited := hvisit.visited hv
      rw [Walk.enter_visited] at hvisited
      have hacc₁ := accepted_of_foldlM (fun hd => hvisit.accepted hd) hrest hacc
      have heff := hvisit.effect hv hg.inv hcurrent hacc₁.1 (hacc₁.2 _ (by simp [hvisited]))
      have hg₁ := heff.good hg hc hvisited
      have he₁ := heff.extends hg hvisited
      have hc₁ : c < w₁.store.size := hc.trans_le he₁.size_le
      have hcall : ∀ {d x x'}, preOrder D.children lookup visit fuel (c :: current) d x = some x' →
          D.Good x → w₁.store.size ≤ x.store.size → d < x.store.size → Accepted ok x' →
          D.Good x' ∧ D.Extends x x' ∧ D.Closes (fun _ => False) x x' ∧ D.Covered x' d := by
        intro d x x' hd hgx hn hlt haccx
        refine ih hd hgx (fun e he => ?_) haccx
        obtain rfl | he := List.mem_cons.mp he
        · exact hlt
        · exact (hcurrent e he).trans_le (he₁.size_le.trans hn)
      obtain ⟨hg', he', hclose, hcov⟩ := foldlM_closes (fun hd => hvisit.accepted hd) hcall hrest
        hg₁ le_rfl
        (fun d hd => D.link_lt hg₁.inv hc₁ (D.link_of_child hd)) hacc
      have hcovered : D.Covered w₁ c := .inr ⟨⟨c, current, w.store⟩, by simp [hvisited], rfl⟩
      refine ⟨hg', he₁.trans hg he', fun v hv' => ?_, he'.covered c hc₁ hcovered⟩
      -- The cell itself is exempt until its children have been visited.
      obtain h | h | h := (heff.closes hg hvisited).trans hg₁ he' hclose v hv'
      · exact .inl h
      · obtain h' | h' | ⟨-, hp⟩ := hclose v hv'
        · exact .inl h'
        · exact h'.elim
        · refine .inl fun d hd => hcov d ?_
          rw [h] at hd hp
          rwa [node_eq hg₁.inv hc₁ he'.nodes hp] at hd
      · exact .inr (.inr h)

/-- A traversal that logs no error, and all of whose visits were as required, leaves no unresolved
node that can be reached from where it started. -/
theorem Visits.resolved_of_reaches (hvisit : D.Visits ok visit) {fuel : Nat} {s : Store N}
    {root : Nat} {w : Walk N}
    (h : preOrder D.children lookup visit fuel [] root ⟨s, [], []⟩ = some w)
    (hs : D.inv s) (hroot : root < s.size) (hacc : Accepted ok w) {c : Nat}
    (hc : D.Reaches w.store root c) : ¬ D.unresolved (w.store.node c) := by
  have hg₀ : D.Good ⟨s, [], []⟩ := ⟨hs, by simp, by simp, by simp⟩
  obtain ⟨hg, -, hclose, hcov⟩ := hvisit.preOrder_closes h hg₀ (by simpa using hroot) hacc
  have hlinks : ∀ x, D.Covered w x → ∀ y ∈ D.links (w.store.node x),
      D.Covered w y ∨ D.Safe w y := by
    rintro x (hs | ⟨v, hv, hp⟩) y hy
    · rw [D.settled_leaf hs] at hy
      cases hy
    · rw [Store.node, ← hp] at hy
      obtain hchild | hsafe := hg.hidden v hv y hy
      · obtain hclosed | hf | ⟨hv₀, -⟩ := hclose v hv
        · exact .inl (hclosed y hchild)
        · exact hf.elim
        · cases hv₀
      · exact .inr hsafe
  have hreach : D.Covered w c ∨ D.Safe w c := by
    induction hc with
    | refl => exact .inl hcov
    | @tail x y _ hlink ih =>
      obtain hx | ⟨R, hx, hR⟩ := ih
      · exact hlinks x hx y hlink
      · obtain ⟨-, hx | ⟨-, hy⟩⟩ := hR x hx
        · exact hlinks x hx y hlink
        · exact .inr ⟨R, hy y hlink, hR⟩
  obtain hcov | ⟨R, hRc, hR⟩ := hreach
  · exact (hcov.fixed hg).1
  · obtain ⟨-, hcov | ⟨hres, -⟩⟩ := hR c hRc
    · exact (hcov.fixed hg).1
    · exact hres

end Run

end Discipline

end Traversal
