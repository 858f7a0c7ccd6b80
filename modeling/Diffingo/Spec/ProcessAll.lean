import Mathlib.Data.Fintype.Card
import Mathlib.Data.List.Nodup
import Mathlib.Logic.Relation

/-!
# Whole-graph traversals of a visitor

`Visitor::processAllPreOrder` and `processAllPostOrder` (`spec/ast/visitor.h`) on a graph that the
visitor does not modify. Child lists may repeat nodes and lead back to nodes above. A visit works
on the members of the derived class and may log errors; logging at level `emergency` throws, and
the exception leaves the traversal at once.
-/

namespace Diffingo.Spec.ProcessAll

/-- How a visit ends: with the new members of the derived class and the number of errors it has
logged, or with an emergency after these. -/
inductive Reaction (σ : Type) where
  | returned (own : σ) (errors : Nat)
  | emergency (own : σ) (errors : Nat)

/-- The members of `Visitor` that a traversal uses; the node on top of `current` comes first.
`accepted` and `entered` record the calls of `accept` and, for each node, the stack on which it has
been found first. -/
structure State (α σ : Type) where
  visited : List α
  current : List α
  level : Int
  errors : Nat
  own : σ
  accepted : List α
  entered : List (α × List α)

/-- How a call of the traversal ends; `unfinished` if the recursion is deeper than allowed. -/
inductive Outcome (V : Type) where
  | returned (v : V)
  | thrown (v : V)
  | unfinished

/-- Goes on unless an exception has been thrown. -/
def Outcome.bind {V : Type} (o : Outcome V) (f : V → Outcome V) : Outcome V :=
  match o with
  | .returned v => f v
  | .thrown v => .thrown v
  | .unfinished => .unfinished

@[simp] theorem Outcome.returned_bind {V : Type} (v : V) (f : V → Outcome V) :
    (Outcome.returned v).bind f = f v := rfl

/-- Whether a node is visited before or after its children. -/
inductive Order
  | pre | post
  deriving DecidableEq

variable {α σ : Type}

namespace State

/-- `_visited.insert(node)` and `pushCurrent(node)`. -/
def enter (v : State α σ) (node : α) : State α σ :=
  { v with
    visited := node :: v.visited
    current := node :: v.current
    level := v.level + 1
    entered := v.entered ++ [(node, v.current)] }

def popCurrent (v : State α σ) : State α σ :=
  { v with current := v.current.tail, level := v.level - 1 }

/-- After a visit of `node` that has logged `n` errors. -/
def visit (v : State α σ) (node : α) (own : σ) (n : Nat) : State α σ :=
  { v with own, errors := v.errors + n, accepted := v.accepted ++ [node] }

/-- `node->accept(this, node)`. -/
def accept (react : α → σ → Reaction σ) (node : α) (v : State α σ) : Outcome (State α σ) :=
  match react node v.own with
  | .returned own n => .returned (v.visit node own n)
  | .emergency own n => .thrown (v.visit node own (n + 1))

/-- `reset()`. The stack of current nodes stays as it is. -/
def reset (v : State α σ) : State α σ := { v with visited := [], errors := 0 }

end State

/-- A loop over child nodes. -/
def forEach {V : Type} (f : α → V → Outcome V) : List α → V → Outcome V
  | [], v => .returned v
  | a :: as, v => (f a v).bind (forEach f as)

/-- `preOrder` and `postOrder`, up to the given depth. The recursive calls do not pass on
`reverse`. -/
def walk [DecidableEq α] (order : Order) (children : α → List α) (react : α → σ → Reaction σ) :
    Nat → α → Bool → State α σ → Outcome (State α σ)
  | 0, _, _, _ => .unfinished
  | fuel + 1, node, reverse, v =>
    if node ∈ v.visited then .returned v
    else
      (if order = .pre then (v.enter node).accept react node else .returned (v.enter node)).bind
        fun v =>
      (forEach (fun c v => walk order children react fuel c false v)
        (if reverse then (children node).reverse else children node) v).bind fun v =>
      (if order = .post then v.accept react node else .returned v).bind fun v =>
      .returned v.popCurrent

section

variable [DecidableEq α] [Fintype α]

/-- `processAllPreOrder` and `processAllPostOrder`: what is returned, and the visitor afterwards.
The recursion is never deeper than there are nodes. -/
def processAll (order : Order) (children : α → List α) (react : α → σ → Reaction σ) (node : α)
    (reverse : Bool) (v : State α σ) : Option (Bool × State α σ) :=
  match walk order children react (Fintype.card α + 1) node reverse v.reset with
  | .returned v => some (decide (v.errors = 0), v)
  | .thrown v => some (false, v)
  | .unfinished => none

def processAllPreOrder (children : α → List α) (react : α → σ → Reaction σ) (node : α)
    (reverse : Bool) (v : State α σ) : Option (Bool × State α σ) :=
  processAll .pre children react node reverse v

def processAllPostOrder (children : α → List α) (react : α → σ → Reaction σ) (node : α)
    (reverse : Bool) (v : State α σ) : Option (Bool × State α σ) :=
  processAll .post children react node reverse v

end

/-! ## What a part of a traversal does -/

/-- The node `a` stands before `b`. -/
def Before (l : List α) (a b : α) : Prop := ∃ x y z, l = x ++ a :: (y ++ b :: z)

theorem Before.append_left {l : List α} {a b : α} (h : Before l a b) (l' : List α) :
    Before (l' ++ l) a b := by
  obtain ⟨x, y, z, rfl⟩ := h
  exact ⟨l' ++ x, y, z, by simp⟩

theorem Before.append_right {l : List α} {a b : α} (h : Before l a b) (l' : List α) :
    Before (l ++ l') a b := by
  obtain ⟨x, y, z, rfl⟩ := h
  exact ⟨x, y, z ++ l', by simp⟩

theorem before_cons {l : List α} (a : α) {b : α} (h : b ∈ l) : Before (a :: l) a b := by
  obtain ⟨y, z, rfl⟩ := List.append_of_mem h
  exact ⟨[], y, z, rfl⟩

theorem before_concat {l : List α} {a : α} (b : α) (h : a ∈ l) : Before (l ++ [b]) a b := by
  obtain ⟨x, y, rfl⟩ := List.append_of_mem h
  exact ⟨x, y, [], by simp⟩

/-- The visits of a node and of what is found below it, in their order. -/
def Order.place (order : Order) (node : α) (below : List α) : List α :=
  match order with
  | .pre => node :: below
  | .post => below ++ [node]

/-- In pre-order `above` stands before `below`, in post-order after it. -/
def Order.Respects (order : Order) (l : List α) (above below : α) : Prop :=
  match order with
  | .pre => Before l above below
  | .post => Before l below above

theorem Order.mem_place {order : Order} {node a : α} {below : List α} :
    a ∈ order.place node below ↔ a = node ∨ a ∈ below := by
  cases order <;> simp [Order.place, or_comm]

theorem Order.nodup_place {order : Order} {node : α} {below : List α} :
    (order.place node below).Nodup ↔ node ∉ below ∧ below.Nodup := by
  cases order with
  | pre => exact List.nodup_cons
  | post =>
    simp only [Order.place, List.nodup_append]
    grind

theorem Order.respects_place {order : Order} {node a : α} {below : List α} (h : a ∈ below) :
    order.Respects (order.place node below) node a := by
  cases order with
  | pre => exact before_cons node h
  | post => exact before_concat node h

theorem Order.Respects.place {order : Order} {node a b : α} {below : List α}
    (h : order.Respects below a b) : order.Respects (order.place node below) a b := by
  cases order with
  | pre => exact h.append_left [node]
  | post => exact h.append_right [node]

theorem Order.Respects.append {order : Order} {l l' : List α} {a b : α} :
    (order.Respects l a b → order.Respects (l ++ l') a b) ∧
      (order.Respects l' a b → order.Respects (l ++ l') a b) := by
  cases order <;> exact ⟨fun h => h.append_right l', fun h => h.append_left l⟩

/-- Paths in the graph. -/
def Reaches (children : α → List α) : α → α → Prop :=
  Relation.ReflTransGen fun a b => b ∈ children a

/-- What a part of a traversal that starts at the nodes `starts` has done between the states `v`
and `v'`: it has visited the nodes `l`, each of them found on the stack that `found` gives
relative to the stack of `v`. -/
structure Explored (order : Order) (children : α → List α) (starts : List α) (v v' : State α σ)
    (l : List α) (found : List (α × List α)) : Prop where
  accepted : v'.accepted = v.accepted ++ l
  entered : v'.entered = v.entered ++ found.map fun e => (e.1, e.2 ++ v.current)
  visited : ∀ a, a ∈ v'.visited ↔ a ∈ v.visited ∨ a ∈ l
  fresh : ∀ a ∈ l, a ∉ v.visited
  nodup : l.Nodup
  current : v'.current = v.current
  level : v'.level = v.level
  started : ∀ a ∈ starts, a ∈ v'.visited
  closed : ∀ a ∈ l, ∀ b ∈ children a, b ∈ v'.visited
  reached : ∀ a ∈ l, ∃ s ∈ starts, Reaches children s a
  mem_found : ∀ a, a ∈ l ↔ ∃ above, (a, above) ∈ found
  ordered : ∀ e ∈ found, ∀ w ∈ e.2, order.Respects l w e.1

namespace Explored

variable {order : Order} {children : α → List α} {as bs : List α} {v v₁ v₂ : State α σ}
variable {l l₁ l₂ : List α} {found found₁ found₂ : List (α × List α)}

theorem skip (h : ∀ a ∈ as, a ∈ v.visited) : Explored order children as v v [] [] where
  accepted := by simp
  entered := by simp
  visited := by simp
  fresh := by simp
  nodup := by simp
  current := rfl
  level := rfl
  started := h
  closed := by simp
  reached := by simp
  mem_found := by simp
  ordered := by simp

/-- One part after the other. -/
theorem append (h₁ : Explored order children as v v₁ l₁ found₁)
    (h₂ : Explored order children bs v₁ v₂ l₂ found₂) :
    Explored order children (as ++ bs) v v₂ (l₁ ++ l₂) (found₁ ++ found₂) where
  accepted := by rw [h₂.accepted, h₁.accepted, List.append_assoc]
  entered := by
    rw [h₂.entered, h₁.entered, h₁.current, List.map_append, List.append_assoc]
  visited a := by
    rw [h₂.visited, h₁.visited, List.mem_append, or_assoc]
  fresh a ha := by
    intro hv
    obtain ha | ha := List.mem_append.mp ha
    · exact h₁.fresh a ha hv
    · exact h₂.fresh a ha ((h₁.visited a).mpr (.inl hv))
  nodup := by
    refine List.nodup_append.mpr ⟨h₁.nodup, h₂.nodup, ?_⟩
    rintro a ha b hb rfl
    exact h₂.fresh a hb ((h₁.visited a).mpr (.inr ha))
  current := h₂.current.trans h₁.current
  level := h₂.level.trans h₁.level
  started a ha := by
    obtain ha | ha := List.mem_append.mp ha
    · exact (h₂.visited a).mpr (.inl (h₁.started a ha))
    · exact h₂.started a ha
  closed a ha b hb := by
    obtain ha | ha := List.mem_append.mp ha
    · exact (h₂.visited b).mpr (.inl (h₁.closed a ha b hb))
    · exact h₂.closed a ha b hb
  reached a ha := by
    obtain ha | ha := List.mem_append.mp ha
    · obtain ⟨s, hs, hpath⟩ := h₁.reached a ha
      exact ⟨s, List.mem_append_left _ hs, hpath⟩
    · obtain ⟨s, hs, hpath⟩ := h₂.reached a ha
      exact ⟨s, List.mem_append_right _ hs, hpath⟩
  mem_found a := by
    simp only [List.mem_append, h₁.mem_found, h₂.mem_found, exists_or]
  ordered e he w hw := by
    obtain he | he := List.mem_append.mp he
    · exact Order.Respects.append.1 (h₁.ordered e he w hw)
    · exact Order.Respects.append.2 (h₂.ordered e he w hw)

/-- A node around the part that its children are. Before and after the children the visitor may
have accepted the node, as `order` says. -/
theorem node {node : α} (hnode : node ∉ v.visited)
    (hchildren : ∀ b, b ∈ bs ↔ b ∈ children node)
    (h : Explored order children bs v₁ v₂ l found)
    (hvisited : v₁.visited = node :: v.visited) (hcurrent : v₁.current = node :: v.current)
    (hlevel : v₁.level = v.level + 1) (hentered : v₁.entered = v.entered ++ [(node, v.current)])
    {v' : State α σ} (haccepted : v'.accepted = v.accepted ++ order.place node l)
    (hvisited' : v'.visited = v₂.visited) (hcurrent' : v'.current = v₂.current.tail)
    (hlevel' : v'.level = v₂.level - 1) (hentered' : v'.entered = v₂.entered) :
    Explored order children [node] v v' (order.place node l)
      ((node, []) :: found.map fun e => (e.1, e.2 ++ [node])) where
  accepted := haccepted
  entered := by
    rw [hentered', h.entered, hentered, hcurrent]
    simp
  visited a := by
    rw [hvisited', h.visited, hvisited, List.mem_cons, Order.mem_place]
    tauto
  fresh a ha := by
    intro hv
    obtain rfl | ha := Order.mem_place.mp ha
    · exact hnode hv
    · exact h.fresh a ha (by rw [hvisited]; exact List.mem_cons_of_mem _ hv)
  nodup := by
    refine Order.nodup_place.mpr ⟨fun hmem => ?_, h.nodup⟩
    exact h.fresh node hmem (by rw [hvisited]; exact List.mem_cons_self)
  current := by rw [hcurrent', h.current, hcurrent, List.tail_cons]
  level := by rw [hlevel', h.level, hlevel]; omega
  started a ha := by
    obtain rfl := List.mem_singleton.mp ha
    rw [hvisited', h.visited, hvisited]
    exact .inl List.mem_cons_self
  closed a ha b hb := by
    rw [hvisited']
    obtain rfl | ha := Order.mem_place.mp ha
    · exact h.started b ((hchildren b).mpr hb)
    · exact h.closed a ha b hb
  reached a ha := by
    refine ⟨node, List.mem_singleton_self node, ?_⟩
    obtain rfl | ha := Order.mem_place.mp ha
    · exact .refl
    · obtain ⟨s, hs, hpath⟩ := h.reached a ha
      exact .head ((hchildren s).mp hs) hpath
  mem_found a := by
    rw [Order.mem_place, h.mem_found]
    constructor
    · rintro (rfl | ⟨above, habove⟩)
      · exact ⟨[], List.mem_cons_self⟩
      · exact ⟨above ++ [node],
          List.mem_cons_of_mem _ (List.mem_map.mpr ⟨(a, above), habove, rfl⟩)⟩
    · rintro ⟨above, habove⟩
      obtain heq | hmem := List.mem_cons.mp habove
      · exact .inl (congrArg Prod.fst heq)
      · obtain ⟨e, he, heq⟩ := List.mem_map.mp hmem
        obtain ⟨rfl, -⟩ := Prod.mk.inj heq
        exact .inr ⟨e.2, he⟩
  ordered e he w hw := by
    obtain rfl | he := List.mem_cons.mp he
    · cases hw
    · obtain ⟨e, hfound, rfl⟩ := List.mem_map.mp he
      obtain hw | hw := List.mem_append.mp hw
      · exact (h.ordered e hfound w hw).place
      · obtain rfl := List.mem_singleton.mp hw
        exact Order.respects_place ((h.mem_found e.1).mpr ⟨e.2, hfound⟩)

end Explored

/-! ## Whole traversals -/

/-- No visit ends with an emergency. -/
def Calm (react : α → σ → Reaction σ) : Prop :=
  ∀ a own, ∃ own' n, react a own = .returned own' n

theorem Calm.accept {react : α → σ → Reaction σ} (hcalm : Calm react) (node : α)
    (v : State α σ) :
    ∃ own n, v.accept react node = .returned (v.visit node own n) := by
  obtain ⟨own, n, hreact⟩ := hcalm node v.own
  exact ⟨own, n, by simp only [State.accept, hreact]⟩

variable [DecidableEq α] [Fintype α]

/-- The nodes that have not been visited yet. -/
def unvisited (v : State α σ) : Finset α := Finset.univ.filter (· ∉ v.visited)

theorem unvisited_subset {v v' : State α σ} (h : ∀ a ∈ v.visited, a ∈ v'.visited) :
    (unvisited v').card ≤ (unvisited v).card := by
  apply Finset.card_le_card
  intro a ha
  simp only [unvisited, Finset.mem_filter, Finset.mem_univ, true_and] at ha ⊢
  exact fun hv => ha (h a hv)

theorem unvisited_enter {v v' : State α σ} {node : α} (hnode : node ∉ v.visited)
    (h : v'.visited = node :: v.visited) : (unvisited v').card < (unvisited v).card := by
  apply Finset.card_lt_card
  refine ⟨fun a ha => ?_, fun hsub => ?_⟩
  · simp only [unvisited, h, Finset.mem_filter, Finset.mem_univ, true_and, List.mem_cons] at ha ⊢
    exact fun hv => ha (.inr hv)
  · have hmem := hsub (show node ∈ unvisited v by simp [unvisited, hnode])
    simp [unvisited, h] at hmem

variable {order : Order} {children : α → List α} {react : α → σ → Reaction σ}

theorem forEach_explored {fuel : Nat}
    (ih : ∀ (node : α) (v : State α σ), (unvisited v).card < fuel →
      ∃ v' l found, walk order children react fuel node false v = .returned v' ∧
        Explored order children [node] v v' l found)
    (as : List α) (v : State α σ) (hfuel : (unvisited v).card < fuel) :
    ∃ v' l found, forEach (fun c v => walk order children react fuel c false v) as v =
      .returned v' ∧ Explored order children as v v' l found := by
  induction as generalizing v with
  | nil => exact ⟨v, [], [], rfl, .skip (by simp)⟩
  | cons a as ihas =>
    obtain ⟨v₁, l₁, found₁, hwalk, h₁⟩ := ih a v hfuel
    have hle := unvisited_subset fun b hb => (h₁.visited b).mpr (.inl hb)
    obtain ⟨v₂, l₂, found₂, hrest, h₂⟩ := ihas v₁ (by omega)
    refine ⟨v₂, _, _, ?_, h₁.append h₂⟩
    rw [forEach, hwalk, Outcome.returned_bind, hrest]

/-- A traversal that is allowed to go deeper than there are unvisited nodes ends, having explored
what its start leads to. -/
theorem walk_explored (hcalm : Calm react) (fuel : Nat) (node : α) (reverse : Bool)
    (v : State α σ) (hfuel : (unvisited v).card < fuel) :
    ∃ v' l found, walk order children react fuel node reverse v = .returned v' ∧
      Explored order children [node] v v' l found := by
  induction fuel generalizing node reverse v with
  | zero => omega
  | succ fuel ih =>
    by_cases hnode : node ∈ v.visited
    · exact ⟨v, [], [], by rw [walk, if_pos hnode], .skip (by simpa using hnode)⟩
    have hmem : ∀ b, b ∈ (if reverse then (children node).reverse else children node) ↔
        b ∈ children node := by
      intro b
      cases reverse <;> simp
    cases order with
    | pre =>
      obtain ⟨own, n, haccept⟩ := hcalm.accept node (v.enter node)
      have hless := @unvisited_enter _ _ _ _ v ((v.enter node).visit node own n) node hnode rfl
      obtain ⟨v₂, l, found, hloop, h⟩ := forEach_explored (fun a v => ih a false v)
        (if reverse then (children node).reverse else children node)
        ((v.enter node).visit node own n) (by omega)
      refine ⟨v₂.popCurrent, _, _, ?_, h.node hnode hmem rfl rfl rfl rfl ?_ rfl rfl rfl rfl⟩
      · rw [walk, if_neg hnode, if_pos rfl, haccept, Outcome.returned_bind, hloop]
        rfl
      · exact h.accepted.trans (by simp [Order.place, State.enter, State.visit])
    | post =>
      have hless := @unvisited_enter _ _ _ _ v (v.enter node) node hnode rfl
      obtain ⟨v₂, l, found, hloop, h⟩ := forEach_explored (fun a v => ih a false v)
        (if reverse then (children node).reverse else children node) (v.enter node) (by omega)
      obtain ⟨own, n, haccept⟩ := hcalm.accept node v₂
      refine ⟨(v₂.visit node own n).popCurrent, _, _, ?_,
        h.node hnode hmem rfl rfl rfl rfl ?_ rfl rfl rfl rfl⟩
      · rw [walk, if_neg hnode, if_neg (by decide), Outcome.returned_bind, hloop,
          Outcome.returned_bind, if_pos rfl, haccept, Outcome.returned_bind]
      · simp only [State.popCurrent, State.visit, h.accepted, State.enter, Order.place,
          List.append_assoc]

/-- A whole traversal explores what the start leads to, all of it. -/
theorem processAll_explored (hcalm : Calm react) (order : Order) (children : α → List α)
    (start : α) (reverse : Bool) (v : State α σ) :
    ∃ ok v' l found, processAll order children react start reverse v = some (ok, v') ∧
      Explored order children [start] v.reset v' l found ∧
      ∀ a, a ∈ l ↔ Reaches children start a := by
  have hfuel : (unvisited v.reset).card < Fintype.card α + 1 :=
    Nat.lt_succ_of_le (Finset.card_le_univ _)
  obtain ⟨v', l, found, hwalk, h⟩ :=
    @walk_explored _ _ _ _ order children _ hcalm _ start reverse v.reset hfuel
  refine ⟨decide (v'.errors = 0), v', l, found, by rw [processAll, hwalk], h, fun a => ?_⟩
  constructor
  · intro ha
    obtain ⟨s, hs, hpath⟩ := h.reached a ha
    rwa [List.mem_singleton.mp hs] at hpath
  · -- the visited nodes are closed under children, and the start is one of them
    intro hpath
    have hvisited : ∀ b, b ∈ v'.visited ↔ b ∈ l := by
      intro b
      rw [h.visited]
      simp [State.reset]
    induction hpath with
    | refl => exact (hvisited start).mp (h.started start List.mem_cons_self)
    | tail _ hedge ih => exact (hvisited _).mp (h.closed _ ih _ hedge)

end Diffingo.Spec.ProcessAll
