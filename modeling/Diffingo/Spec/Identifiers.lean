import Mathlib.Data.List.Infix
import Diffingo.Library.OrderedMap
import Diffingo.Spec.Scope
import Diffingo.Util.Strings

/-!
# Identifiers

`ast::ID` as the compiler stores and compares it: a list of components, each a string of bytes,
which equality and order look at through the one string of `pathAsString` and `prefixOf` component
by component. The two views agree on the identifiers that can be written, whose components have no
colon in them.
-/

namespace Diffingo.Identifiers

open Util OrderedMap

/-- The bytes of `::`. -/
def separator : List UInt8 := [58, 58]

structure ID where
  path : List (List UInt8)
  deriving DecidableEq, Repr

namespace ID

def ofString (path : List UInt8) : Option ID := (strsplit path separator).map ID.mk

/-- The loop of `pathAsString`, which drops the components that both paths begin with. -/
def dropCommon : List (List UInt8) → List (List UInt8) → List (List UInt8)
  | c :: p1, c' :: p2 => if c = c' then dropCommon p1 p2 else c :: p1
  | p1, _ => p1

def pathAsString (id : ID) (relativeTo : Option ID) : List UInt8 :=
  strjoin (dropCommon id.path ((relativeTo.map path).getD [])) separator

def addComponent (id : ID) (component : List UInt8) : ID := ⟨id.path ++ [component]⟩

def addPath (id : ID) (path : List (List UInt8)) : ID := path.foldl addComponent id

/-- The last component, which an identifier without components does not have. -/
def name (id : ID) : Option (List UInt8) := id.path.getLast?

def isScoped (id : ID) : Bool := 1 < id.path.length

def scope (id : ID) : List UInt8 := strjoin id.path.dropLast separator

/-- `operator==`. -/
def equals (id other : ID) : Bool := id.pathAsString none == other.pathAsString none

/-- `operator<`, which compares strings byte by byte. -/
def less (id other : ID) : Bool := id.pathAsString none < other.pathAsString none

/-- The loop of `prefixOf` over the components of the identifier and those of the other one. -/
def prefixLoop : List (List UInt8) → List (List UInt8) → Bool
  | [], _ => true
  | _ :: _, [] => false
  | e :: path, c :: opath => if c ≠ e then false else prefixLoop path opath

def prefixOf (id other : ID) : Bool := prefixLoop id.path other.path

def combineIDs (first second : ID) : ID := (ID.mk first.path).addPath second.path

theorem dropCommon_nil (p : List (List UInt8)) : dropCommon p [] = p := by
  cases p <;> rfl

theorem pathAsString_none (id : ID) : id.pathAsString none = strjoin id.path separator := by
  simp [pathAsString, dropCommon_nil]

theorem path_addPath (id : ID) (path : List (List UInt8)) :
    (id.addPath path).path = id.path ++ path := by
  induction path generalizing id with
  | nil => simp [addPath]
  | cons c path ih =>
    have := ih (id.addComponent c)
    simpa [addPath, addComponent] using this

theorem path_combineIDs (first second : ID) :
    (combineIDs first second).path = first.path ++ second.path := path_addPath _ _

theorem prefixOf_iff (id other : ID) : id.prefixOf other = true ↔ id.path <+: other.path := by
  obtain ⟨path⟩ := id
  obtain ⟨opath⟩ := other
  simp only [prefixOf]
  induction path generalizing opath with
  | nil => simp [prefixLoop]
  | cons e path ih =>
    cases opath with
    | nil => simp [prefixLoop]
    | cons c opath =>
      by_cases hc : c = e
      · simp [prefixLoop, ih, List.cons_prefix_cons, hc]
      · simp [prefixLoop, List.cons_prefix_cons, hc, Ne.symm hc]

/-- A name is its scope and its last component. -/
theorem pathAsString_scope {id : ID} (h : id.isScoped = true) :
    ∃ n, id.name = some n ∧ id.pathAsString none = id.scope ++ separator ++ n := by
  have hlen : 1 < id.path.length := by simpa [isScoped] using h
  have hne : id.path ≠ [] := List.ne_nil_of_length_pos (by omega)
  have hinit : id.path.dropLast ≠ [] := by
    apply List.ne_nil_of_length_pos
    rw [List.length_dropLast]
    omega
  refine ⟨id.path.getLast hne, List.getLast?_eq_some_getLast hne, ?_⟩
  rw [pathAsString_none, scope, ← strjoin_concat separator hinit, List.dropLast_append_getLast]

theorem dropCommon_append (p q : List (List UInt8)) : dropCommon (p ++ q) p = q := by
  induction p with
  | nil => exact dropCommon_nil q
  | cons c p ih => simp [dropCommon, ih]

/-- Relative to a scope, the names of the scope lose it. -/
theorem pathAsString_relative (first second : ID) :
    (combineIDs first second).pathAsString (some first) = second.pathAsString none := by
  rw [pathAsString_none]
  simp [pathAsString, path_combineIDs, dropCommon_append]

/-- What an identifier of a specification looks like. -/
def Plain (id : ID) : Prop := id.path ≠ [] ∧ ∀ c ∈ id.path, 58 ∉ c

instance (id : ID) : Decidable id.Plain := inferInstanceAs (Decidable (_ ∧ _))

theorem Plain.ofString {id : ID} (h : id.Plain) : ofString (id.pathAsString none) = some id := by
  rw [ID.ofString, pathAsString_none, separator, strsplit_strjoin [58] h.1 h.2]
  rfl

theorem ofString_pathAsString (s : List UInt8) :
    ∃ id, ofString s = some id ∧ id.pathAsString none = s := by
  obtain ⟨l, hl, hjoin⟩ := strjoin_strsplit (List.cons_ne_nil 58 [58]) s
  exact ⟨⟨l⟩, by simp [ofString, separator, hl], by rw [pathAsString_none]; exact hjoin⟩

theorem Plain.eq_of_pathAsString {a b : ID} (ha : a.Plain) (hb : b.Plain)
    (h : a.pathAsString none = b.pathAsString none) : a = b := by
  have := ha.ofString
  rw [h, hb.ofString] at this
  simpa using this.symm

theorem Plain.combineIDs {first second : ID} (h : first.Plain) (h' : second.Plain) :
    (combineIDs first second).Plain := by
  refine ⟨?_, fun c hc => ?_⟩
  · simp [path_combineIDs, h.1]
  · rw [path_combineIDs, List.mem_append] at hc
    exact hc.elim (h.2 c) (h'.2 c)

end ID

/-- An identifier of a specification. -/
structure Name where
  id : ID
  plain : id.Plain

namespace Name

@[ext]
theorem ext {a b : Name} (h : a.id.path = b.id.path) : a = b := by
  obtain ⟨⟨_⟩, _⟩ := a
  obtain ⟨⟨_⟩, _⟩ := b
  obtain rfl := h
  rfl

instance : DecidableEq Name := fun a b =>
  decidable_of_iff (a.id.path = b.id.path) ⟨ext, by rintro rfl; rfl⟩

def less (a b : Name) : Bool := a.id.less b.id

def combineIDs (first second : Name) : Name :=
  ⟨ID.combineIDs first.id second.id, first.plain.combineIDs second.plain⟩

theorem pathAsString_inj {a b : Name} :
    a.id.pathAsString none = b.id.pathAsString none ↔ a.id.path = b.id.path := by
  constructor
  · intro h
    rw [a.plain.eq_of_pathAsString b.plain h]
  · intro h
    rw [ext h]

theorem equals_iff (a b : Name) : a.id.equals b.id = true ↔ a.id.path = b.id.path := by
  rw [← pathAsString_inj]
  simp [ID.equals]

theorem less_strictTotal : StrictTotal less where
  irrefl a := by simp [less, ID.less]
  trans hab hbc := by
    simp only [less, ID.less, decide_eq_true_eq] at hab hbc ⊢
    exact List.lt_trans hab hbc
  eq_of_incomparable hab hba := by
    simp only [less, ID.less, decide_eq_false_iff_not] at hab hba
    exact ext (pathAsString_inj.1 (List.le_antisymm hba hab))

end Name

/-- `DependencyMap`, with any type for what an identifier depends on. -/
abbrev DependencyMap (δ : Type) := Map Name (List δ) Name.less

namespace DependencyMap

variable {δ : Type}

/-- The list `map[id]`, which is empty where the map has nothing under the identifier. -/
def values (m : DependencyMap δ) (id : Name) : List δ := (m.find id).getD []

/-- A change of the list `map[id]` in place. -/
def update (m : DependencyMap δ) (id : Name) (f : List δ → List δ) : DependencyMap δ :=
  m.alter Name.less_strictTotal [] id f

theorem values_update (m : DependencyMap δ) (id id' : Name) (f : List δ → List δ) :
    (m.update id f).values id' =
      if id'.id.path = id.id.path then f (m.values id) else m.values id' := by
  split_ifs with h
  · obtain rfl := Name.ext h
    simp [values, update, Map.find, Map.alter, find_alter_self Name.less_strictTotal]
  · have hne : id' ≠ id := fun heq => h (by rw [heq])
    simp [values, update, Map.find, Map.alter, find_alter_of_ne Name.less_strictTotal hne]

end DependencyMap

/-- Names are faithfully encoded as strings: splitting and joining are inverse to each other, and
what the compiler does with names by way of their strings it does with their paths. -/
theorem names_encoded :
    (∀ s, ∃ l, strsplit s separator = some l ∧ strjoin l separator = s) ∧
    (∀ l, l ≠ [] → (∀ c ∈ l, 58 ∉ c) → strsplit (strjoin l separator) separator = some l) ∧
    (∀ a b : Name, a.id.equals b.id = true ↔ a.id.path = b.id.path) ∧
    StrictTotal Name.less ∧
    (∀ a b : Name, (a.less b = false ∧ b.less a = false) ↔ a.id.equals b.id = true) ∧
    (∀ (δ : Type) (m : DependencyMap δ) (a b : Name) (f : List δ → List δ),
      (m.update a f).values b =
        if b.id.path = a.id.path then f (m.values a) else m.values b) ∧
    (∀ a b : Name, a.id.prefixOf b.id = true ↔ a.id.path <+: b.id.path) ∧
    (∀ a b : Name, (a.combineIDs b).id.path = a.id.path ++ b.id.path ∧
      a.id.prefixOf (a.combineIDs b).id = true) := by
  refine ⟨strjoin_strsplit (List.cons_ne_nil 58 [58]), fun l hl hc => strsplit_strjoin [58] hl hc,
    Name.equals_iff, Name.less_strictTotal, fun a b => ?_, fun δ m a b f => m.values_update a b f,
    fun a b => ID.prefixOf_iff a.id b.id, fun a b => ?_⟩
  · rw [Name.less_strictTotal.incomparable_iff, Name.equals_iff]
    exact ⟨fun h => by rw [h], Name.ext⟩
  · have hpath : (a.combineIDs b).id.path = a.id.path ++ b.id.path :=
      ID.path_combineIDs a.id b.id
    refine ⟨hpath, ?_⟩
    rw [ID.prefixOf_iff, hpath]
    exact List.prefix_append _ _

end Diffingo.Identifiers

namespace Diffingo.Path

theorem strsplit_pathAsString {p : Path} (hp : p ≠ []) (hc : ∀ c ∈ p, ':' ∉ c.toList) :
    Util.strsplit p.pathAsString.toList [':', ':'] = some (p.map String.toList) := by
  have hjoin : p.pathAsString.toList = Util.strjoin (p.map String.toList) [':', ':'] := by
    rw [Util.strjoin_eq_intercalate, pathAsString, String.toList_intercalate]
    rfl
  rw [hjoin]
  apply Util.strsplit_strjoin
  · simpa using hp
  · simpa using hc

/-- The strings under which scopes keep their names keep different names apart as well. -/
theorem pathAsString_injective {p q : Path} (hp : p ≠ []) (hcp : ∀ c ∈ p, ':' ∉ c.toList)
    (hq : q ≠ []) (hcq : ∀ c ∈ q, ':' ∉ c.toList) (h : p.pathAsString = q.pathAsString) :
    p = q := by
  have hsplit := strsplit_pathAsString hp hcp
  rw [h, strsplit_pathAsString hq hcq, Option.some.injEq] at hsplit
  have hinj : Function.Injective String.toList := fun _ _ => String.toList_inj.1
  exact (hinj.list_map hsplit).symm

end Diffingo.Path
