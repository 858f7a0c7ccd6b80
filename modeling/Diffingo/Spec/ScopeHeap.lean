import Mathlib.Logic.Function.Basic
import Diffingo.Spec.Scope

/-!
# Scopes in memory

Scopes refer to each other: the scope of an item is nested in the scope of its unit, and that one is
its parent. Here a scope is known by the number of the node it belongs to. A name without values is
not in the map of the scope. `Represents` relates these scopes to the trees of `Scope`, which the
resolver's own model reads.
-/

namespace Diffingo

/-- `Scope::Data` and the parent. -/
structure ScopeData where
  values : String → List Nat := fun _ => []
  children : String → Option Nat := fun _ => none
  parent : Option Nat := none

namespace ScopeData

def insert (d : ScopeData) (name : String) (v : Nat) : ScopeData :=
  { d with values := Function.update d.values name (d.values name ++ [v]) }

/-- A child that is there already stays. -/
def addChild (d : ScopeData) (name : String) (child : Nat) : ScopeData :=
  if (d.children name).isSome then d
  else { d with children := Function.update d.children name (some child) }

def setParent (d : ScopeData) (parent : Nat) : ScopeData := { d with parent := some parent }

variable (d : ScopeData) (name : String) (v : Nat)

@[simp] theorem insert_values_self : (d.insert name v).values name = d.values name ++ [v] := by
  simp [insert]

theorem insert_values_of_ne {name' : String} (h : name' ≠ name) :
    (d.insert name v).values name' = d.values name' := by
  simp [insert, h]

@[simp] theorem insert_children : (d.insert name v).children = d.children := rfl

@[simp] theorem insert_parent : (d.insert name v).parent = d.parent := rfl

@[simp] theorem addChild_values : (d.addChild name v).values = d.values := by
  unfold addChild
  split <;> rfl

@[simp] theorem addChild_parent : (d.addChild name v).parent = d.parent := by
  unfold addChild
  split <;> rfl

theorem addChild_children_of_ne {name' : String} (h : name' ≠ name) :
    (d.addChild name v).children name' = d.children name' := by
  unfold addChild
  split <;> simp [h]

theorem addChild_children_self (h : d.children name = none) :
    (d.addChild name v).children name = some v := by
  simp [addChild, h]

/-- A child is one from before or the new one. -/
theorem addChild_children {name' : String} {c : Nat}
    (h : (d.addChild name v).children name' = some c) :
    d.children name' = some c ∨ name' = name ∧ c = v := by
  by_cases hname : name' = name
  · subst hname
    unfold addChild at h
    split at h
    · exact .inl h
    · exact .inr ⟨rfl, by simpa [eq_comm] using h⟩
  · rw [addChild_children_of_ne d name v hname] at h
    exact .inl h

@[simp] theorem setParent_values : (d.setParent v).values = d.values := rfl

@[simp] theorem setParent_children : (d.setParent v).children = d.children := rfl

@[simp] theorem setParent_parent : (d.setParent v).parent = some v := rfl

end ScopeData

abbrev Scopes := Nat → ScopeData

namespace Scopes

variable (scopes : Scopes)

/-- The nested scope under the longest beginning of the path that names one, and the rest. -/
def nested (a : Nat) (path : Path) : Option (Nat × Path) :=
  (List.range path.length).reverse.findSome? fun j =>
    ((scopes a).children (Path.pathAsString (path.take (j + 1)))).map (·, path.drop (j + 1))

/-- The values under a path of one component. -/
def own (a : Nat) : Path → List Nat
  | [name] => (scopes a).values name
  | _ => []

/-- `Scope::find` along the components. -/
def findPath : Nat → Nat → Path → List Nat
  | 0, _, _ => []
  | fuel + 1, a, path =>
    match scopes.own a path, scopes.nested a path with
    | v :: vs, _ => v :: vs
    | [], some (child, tail) => findPath fuel child tail
    | [], none => []

/-- `Scope::find`. Each nested scope takes at least one component, which bounds the recursion. -/
def find (a : Nat) (path : Path) : List Nat :=
  match (scopes a).values path.pathAsString with
  | [] => scopes.findPath (path.length + 1) a path
  | vals => vals

/-- `Scope::lookup`; `none` if the fuel is used up. -/
def lookup : Nat → Nat → Path → Option (List Nat)
  | 0, _, _ => none
  | fuel + 1, a, path =>
    match scopes.find a path, (scopes a).parent with
    | [], some parent => lookup fuel parent path
    | vals, _ => some vals

variable {scopes}

theorem findPath_nil (fuel a : Nat) : scopes.findPath fuel a [] = [] := by
  cases fuel <;> rfl

/-- A path that is itself the name of values stands for these. -/
theorem find_named {a : Nat} {path : Path} (h : (scopes a).values path.pathAsString ≠ []) :
    scopes.find a path = (scopes a).values path.pathAsString := by
  unfold find
  split
  · next hnil => exact absurd hnil h
  · rfl

theorem find_empty {a : Nat} (h : scopes a = {}) (path : Path) : scopes.find a path = [] := by
  have hnested : scopes.nested a path = none := by
    rw [nested, List.findSome?_eq_none_iff]
    simp [h]
  have hown : scopes.own a path = [] := by
    unfold own
    split
    · rw [h]
    · rfl
  unfold find
  rw [h]
  show scopes.findPath (path.length + 1) a path = []
  rw [findPath, hown, hnested]

/-- A nested scope of the same name has nothing under the empty rest of the path. -/
theorem findPath_single (fuel a : Nat) (name : String) :
    scopes.findPath (fuel + 1) a [name] = (scopes a).values name := by
  unfold findPath
  split
  · next v vs hown => exact hown.symm
  · next child tail hown hnested =>
    have htail : tail = [] := by
      simp only [nested, List.length_singleton, List.range_one, List.reverse_singleton,
        List.findSome?_singleton, Option.map_eq_some_iff] at hnested
      obtain ⟨_, -, hpair⟩ := hnested
      cases hpair
      rfl
    rw [htail, findPath_nil]
    exact hown.symm
  · next hown _ => exact hown.symm

@[simp] theorem find_single (a : Nat) (name : String) :
    scopes.find a [name] = (scopes a).values name := by
  have hname : Path.pathAsString [name] = name := by simp [Path.pathAsString]
  unfold find
  rw [hname]
  split
  · next h => rw [findPath_single, h]
  · rfl

/-- A path of two components is a name of its own or leads through a nested scope; a nested scope
that has the whole path as its name hides the one that has the first component. -/
theorem find_pair (a : Nat) (x l : String) :
    scopes.find a [x, l] =
      match (scopes a).values (x ++ "::" ++ l), (scopes a).children (x ++ "::" ++ l),
          (scopes a).children x with
      | [], none, some child => (scopes child).values l
      | vals, _, _ => vals := by
  have hpath : Path.pathAsString [x, l] = x ++ "::" ++ l := by simp [Path.pathAsString]
  have hx : Path.pathAsString [x] = x := by simp [Path.pathAsString]
  have hrange : (List.range 2).reverse = [1, 0] := rfl
  have hnested : scopes.nested a [x, l] =
      (((scopes a).children (x ++ "::" ++ l)).map (·, [])).or
        (((scopes a).children x).map (·, [l])) := by
    unfold nested
    rw [List.length_cons, List.length_singleton, hrange]
    simp only [List.findSome?_cons, List.findSome?_nil, List.take_succ_cons, List.take_zero,
      List.drop_succ_cons, List.drop_zero, hpath, hx]
    cases (scopes a).children (x ++ "::" ++ l) <;> cases (scopes a).children x <;> rfl
  unfold find
  rw [hpath]
  cases hvals : (scopes a).values (x ++ "::" ++ l) with
  | cons v vs => rfl
  | nil =>
    have hown : scopes.own a [x, l] = [] := rfl
    show scopes.findPath 3 a [x, l] = _
    rw [findPath, hown, hnested]
    cases (scopes a).children (x ++ "::" ++ l) with
    | some child => exact findPath_nil 2 child
    | none =>
      cases (scopes a).children x with
      | some child => exact findPath_single 1 child l
      | none => rfl

/-- What the scope itself has ends the search. -/
theorem lookup_found {fuel a : Nat} {path : Path} {v : Nat} {vs : List Nat}
    (h : scopes.find a path = v :: vs) : scopes.lookup (fuel + 1) a path = some (v :: vs) := by
  rw [lookup, h]

theorem lookup_parent {fuel a parent : Nat} {path : Path} (h : scopes.find a path = [])
    (hparent : (scopes a).parent = some parent) :
    scopes.lookup (fuel + 1) a path = scopes.lookup fuel parent path := by
  rw [lookup, h, hparent]

theorem lookup_top {fuel a : Nat} {path : Path} (hparent : (scopes a).parent = none) :
    scopes.lookup (fuel + 1) a path = some (scopes.find a path) := by
  rw [lookup, hparent]
  cases scopes.find a path <;> rfl

/-! ## Scopes as trees -/

/-- The tree has the values and the nested scopes of the scope in memory. -/
inductive Shows (scopes : Scopes) : Nat → Scope → Prop
  | mk {a : Nat} {values children parent}
      (hvalues : ∀ name, (values.lookup name).getD [] = (scopes a).values name)
      (hfilled : ∀ name, values.lookup name ≠ some [])
      (hdomain : ∀ name, (children.lookup name).isSome = ((scopes a).children name).isSome)
      (hchildren : ∀ name s c, children.lookup name = some s → (scopes a).children name = some c →
        Shows scopes c s) :
      Shows scopes a (.mk values children parent)

/-- The tree also has the scopes around it. -/
inductive Represents (scopes : Scopes) : Nat → Scope → Prop
  | top {a : Nat} {values children} (h : Shows scopes a (.mk values children none))
      (hparent : (scopes a).parent = none) : Represents scopes a (.mk values children none)
  | inner {a p : Nat} {values children parent} (h : Shows scopes a (.mk values children (some parent)))
      (hparent : (scopes a).parent = some p) (hp : Represents scopes p parent) :
      Represents scopes a (.mk values children (some parent))

section Shows

variable {a : Nat} {s : Scope}

theorem Shows.values (h : Shows scopes a s) (name : String) :
    s.values.lookup name = none ∧ (scopes a).values name = [] ∨
      ∃ v vs, s.values.lookup name = some (v :: vs) ∧ (scopes a).values name = v :: vs := by
  obtain @⟨_, values, children, parent, hvalues, hfilled, -, -⟩ := h
  rw [Scope.values, ← hvalues name]
  rcases hlookup : values.lookup name with _ | _ | ⟨v, vs⟩
  · exact .inl ⟨rfl, rfl⟩
  · exact absurd hlookup (hfilled name)
  · exact .inr ⟨v, vs, rfl, rfl⟩

theorem Shows.own (h : Shows scopes a s) (path : Path) :
    s.own path = none ∧ scopes.own a path = [] ∨
      ∃ v vs, s.own path = some (v :: vs) ∧ scopes.own a path = v :: vs := by
  match path with
  | [] => exact .inl ⟨rfl, rfl⟩
  | [name] => exact h.values name
  | _ :: _ :: _ => exact .inl ⟨rfl, rfl⟩

theorem Shows.child (h : Shows scopes a s) (name : String) :
    s.children.lookup name = none ∧ (scopes a).children name = none ∨
      ∃ t c, s.children.lookup name = some t ∧ (scopes a).children name = some c ∧
        Shows scopes c t := by
  obtain @⟨_, values, children, parent, -, -, hdomain, hchildren⟩ := h
  have hsome := hdomain name
  rw [Scope.children]
  rcases hs : children.lookup name with _ | t <;>
    rcases hc : (scopes a).children name with _ | c
  · exact .inl ⟨rfl, rfl⟩
  · simp [hs, hc] at hsome
  · simp [hs, hc] at hsome
  · exact .inr ⟨t, c, rfl, rfl, hchildren name t c hs hc⟩

theorem Shows.nested (h : Shows scopes a s) (path : Path) :
    s.nested path = none ∧ scopes.nested a path = none ∨
      ∃ t c tail, s.nested path = some (t, tail) ∧ scopes.nested a path = some (c, tail) ∧
        Shows scopes c t := by
  unfold Scope.nested Scopes.nested
  induction (List.range path.length).reverse with
  | nil => exact .inl ⟨rfl, rfl⟩
  | cons j js ih =>
    rw [List.findSome?_cons, List.findSome?_cons]
    obtain ⟨hs, hc⟩ | ⟨t, c, hs, hc, ht⟩ := h.child (Path.pathAsString (path.take (j + 1)))
    · rw [hs, hc]
      exact ih
    · rw [hs, hc]
      exact .inr ⟨t, c, path.drop (j + 1), rfl, rfl, ht⟩

theorem Shows.findPath (h : Shows scopes a s) (fuel : Nat) (path : Path) :
    scopes.findPath fuel a path = s.findPath fuel path := by
  induction fuel generalizing a s path with
  | zero => rfl
  | succ fuel ih =>
    rw [Scopes.findPath, Scope.findPath]
    obtain ⟨hs, ha⟩ | ⟨v, vs, hs, ha⟩ := h.own path
    · obtain ⟨hs', ha'⟩ | ⟨t, c, tail, hs', ha', ht⟩ := h.nested path
      · rw [hs, ha, hs', ha']
      · rw [hs, ha, hs', ha']
        exact ih ht tail
    · rw [hs, ha]

theorem Shows.find (h : Shows scopes a s) (path : Path) : scopes.find a path = s.find path := by
  unfold Scopes.find Scope.find
  obtain ⟨hs, ha⟩ | ⟨v, vs, hs, ha⟩ := h.values path.pathAsString
  · rw [hs, ha]
    exact h.findPath _ path
  · rw [hs, ha]

/-- A search in memory, with enough fuel to climb to the top, is the search in the tree. -/
theorem Represents.lookup (h : Represents scopes a s) (path : Path) :
    ∃ n, ∀ fuel, scopes.lookup (fuel + n) a path = some (s.lookup path) := by
  induction h with
  | top h hparent =>
    refine ⟨1, fun fuel => ?_⟩
    rw [lookup_top hparent, h.find, Scope.lookup]
  | @inner a p values children parent h hparent _ ih =>
    obtain ⟨n, hn⟩ := ih
    refine ⟨n + 1, fun fuel => ?_⟩
    rw [Scope.lookup, ← h.find]
    cases hfind : scopes.find a path with
    | nil =>
      have hclimb : scopes.lookup (fuel + n + 1) a path = scopes.lookup (fuel + n) p path :=
        lookup_parent hfind hparent
      rw [← Nat.add_assoc, hclimb, hn]
      rfl
    | cons v vs => exact lookup_found hfind

end Shows

end Scopes

end Diffingo
