import Mathlib.Data.List.Basic

/-!
# Names and scopes

Scopes as the preprocessing passes leave them for the resolver: the values a scope holds under its
names, scopes nested under a name (those of the enumerations and bit sets of a module), and the
enclosing scope. Values are the cells of expressions.
-/

namespace Diffingo

/-- `ast::ID`: the components of a name such as `Opcode::GET`. -/
abbrev Path := List String

def Path.pathAsString (path : Path) : String := "::".intercalate path

def Path.isScoped (path : Path) : Bool := 1 < path.length

inductive Scope
  | mk (values : List (String × List Nat)) (children : List (String × Scope))
      (parent : Option Scope)

namespace Scope

def values : Scope → List (String × List Nat)
  | mk vs _ _ => vs

def children : Scope → List (String × Scope)
  | mk _ cs _ => cs

def parent : Scope → Option Scope
  | mk _ _ p => p

/-- The nested scope under the longest beginning of the path that names one, and the rest. -/
def nested (s : Scope) (path : Path) : Option (Scope × Path) :=
  (List.range path.length).reverse.findSome? fun j =>
    (s.children.lookup (Path.pathAsString (path.take (j + 1)))).map (·, path.drop (j + 1))

/-- The values under a path of one component. -/
def own (s : Scope) : Path → Option (List Nat)
  | [name] => s.values.lookup name
  | _ => none

/-- `Scope::find` along the components. -/
def findPath : Nat → Scope → Path → List Nat
  | 0, _, _ => []
  | fuel + 1, s, path =>
    match s.own path, s.nested path with
    | some vals, _ => vals
    | none, some (child, tail) => child.findPath fuel tail
    | none, none => []

/-- Each nested scope takes at least one component, which bounds the recursion. -/
def find (s : Scope) (path : Path) : List Nat :=
  match s.values.lookup path.pathAsString with
  | some vals => vals
  | none => s.findPath (path.length + 1) path

def lookup : Scope → Path → List Nat
  | mk vs cs none, path => (mk vs cs none).find path
  | mk vs cs (some parent), path =>
    let vals := (mk vs cs (some parent)).find path
    if vals.isEmpty then parent.lookup path else vals

/-- Every value of the scope, of the scopes nested in it and of those around it satisfies `P`. -/
inductive All (P : Nat → Prop) : Scope → Prop
  | mk {values children parent} (hvalues : ∀ e ∈ values, ∀ v ∈ e.2, P v)
      (hchildren : ∀ e ∈ children, All P e.2) (hparent : ∀ p ∈ parent, All P p) :
      All P (.mk values children parent)

section All

variable {P : Nat → Prop}

theorem All.imp {Q : Nat → Prop} (himp : ∀ v, P v → Q v) {s : Scope} (h : s.All P) : s.All Q := by
  induction h with
  | mk hvalues _ _ ihchildren ihparent =>
    exact .mk (fun e he v hv => himp v (hvalues e he v hv)) ihchildren ihparent

theorem All.of_lookup {s : Scope} (h : s.All P) {name : String} {vals : List Nat}
    (hname : s.values.lookup name = some vals) : ∀ v ∈ vals, P v := by
  obtain ⟨before, after, heq, -⟩ := List.lookup_eq_some_iff.mp hname
  have hmem : (name, vals) ∈ s.values := by simp [heq]
  obtain ⟨hvalues, -, -⟩ := h
  exact hvalues (name, vals) hmem

theorem All.nested {s : Scope} (h : s.All P) {path tail : Path} {child : Scope}
    (hchild : s.nested path = some (child, tail)) : child.All P := by
  obtain ⟨j, -, hj⟩ := List.exists_of_findSome?_eq_some hchild
  obtain ⟨c, hc, hpair⟩ := Option.map_eq_some_iff.mp hj
  cases hpair
  obtain ⟨before, after, heq, -⟩ := List.lookup_eq_some_iff.mp hc
  have hmem : (Path.pathAsString (path.take (j + 1)), child) ∈ s.children := by simp [heq]
  obtain ⟨-, hchildren, -⟩ := h
  exact hchildren _ hmem

theorem All.own {s : Scope} (h : s.All P) {path : Path} {vals : List Nat}
    (hown : s.own path = some vals) : ∀ v ∈ vals, P v := by
  unfold Scope.own at hown
  split at hown
  · exact h.of_lookup hown
  · cases hown

theorem All.findPath {s : Scope} (h : s.All P) {fuel : Nat} {path : Path} :
    ∀ v ∈ s.findPath fuel path, P v := by
  induction fuel generalizing s path with
  | zero => simp [Scope.findPath]
  | succ fuel ih =>
    rw [Scope.findPath]
    split
    · next hown => exact h.own hown
    · next child tail _ hchild => exact ih (h.nested hchild)
    · simp

theorem All.find {s : Scope} (h : s.All P) (path : Path) : ∀ v ∈ s.find path, P v := by
  rw [Scope.find]
  split
  · next vals hvals => exact h.of_lookup hvals
  · exact h.findPath

/-- A lookup yields values of the scope or of one around it. -/
theorem All.lookup {s : Scope} (h : s.All P) (path : Path) : ∀ v ∈ s.lookup path, P v := by
  induction h with
  | @mk _ _ parent hvalues hchildren hparent _ ihparent =>
    have hfind := (All.mk hvalues hchildren hparent).find path
    cases parent with
    | none => exact hfind
    | some parent =>
      rw [Scope.lookup]
      split
      · exact ihparent parent rfl
      · exact hfind

end All

/-- The scope, or one around it, holds `v` for the name. -/
inductive Yields (path : Path) (v : Nat) : Scope → Prop
  | own {s : Scope} (h : v ∈ s.lookup path) : Yields path v s
  | around {values children parent} (h : Yields path v parent) :
      Yields path v (.mk values children (some parent))

/-- An empty scope adds nothing to the scope around it. -/
theorem lookup_empty {parent : Option Scope} {path : Path} {v : Nat}
    (h : v ∈ (Scope.mk [] [] parent).lookup path) : ∃ p ∈ parent, v ∈ p.lookup path := by
  have hfind : (Scope.mk [] [] parent).find path = [] := by
    have hown : (Scope.mk [] [] parent).own path = none := by
      unfold Scope.own
      split <;> rfl
    have hnested : (Scope.mk [] [] parent).nested path = none := by
      simp [Scope.nested, Scope.children]
    have hpath : ∀ fuel, (Scope.mk [] [] parent).findPath fuel path = [] := by
      rintro (_ | fuel)
      · rfl
      · simp [Scope.findPath, hown, hnested]
    simp [Scope.find, Scope.values, hpath]
  cases parent with
  | none =>
    rw [Scope.lookup, hfind] at h
    cases h
  | some p =>
    rw [Scope.lookup, hfind] at h
    exact ⟨p, rfl, h⟩

end Scope

end Diffingo
