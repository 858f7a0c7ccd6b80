import Diffingo.Spec.Ast

/-!
# Cloning

The `clone` functions of expressions and items. A clone consists of new nodes, except for constants,
identifiers and types, which it shares with the original; so the parser states in the elements of a
tuple are shared, all others are new. A null pointer that the source follows is a failure.
-/

namespace Diffingo.Ast

open Spec

/-- The parser states that have been created. -/
structure Heap where
  next : Nat
  cell : Nat → ParserState

/-- A computation that creates nodes. -/
abbrev Clone := StateT Heap Option

/-- `ParserState::clone`. -/
def cloneState (s : Nat) : Clone Nat := fun h =>
  some (h.next, ⟨h.next + 1, Function.update h.cell h.next (h.cell s)⟩)

/-- Null pointers have no clone. -/
def cloneNull {α : Type} : Clone α := fun _ => none

def cloneList {α : Type} (clone : α → Clone α) : List α → Clone (List α)
  | [] => return []
  | a :: as => do
    let a ← clone a
    let as ← cloneList clone as
    return a :: as

def cloneOption {α : Type} (clone : α → Clone α) : Option α → Clone (Option α)
  | none => return none
  | some a => do
    let a ← clone a
    return some a

/-- `Expression::clone`. The predicate of a list comprehension is cloned even if there is none. -/
def Expr.clone : Expr Nat → Clone (Expr Nat)
  | .assign a b => do
    let a ← a.clone
    let b ← b.clone
    return .assign a b
  | .conditional a b c => do
    let a ← a.clone
    let b ← b.clone
    let c ← c.clone
    return .conditional a b c
  | .conditionalThen a b => do
    let a ← a.clone
    let b ← b.clone
    return .conditionalThen a b
  | .find a b c d => do
    let a ← a.clone
    let b ← b.clone
    let c ← c.clone
    let d ← d.clone
    return .find a b c d
  | .lambda x a => do
    let a ← a.clone
    return .lambda x a
  | .listComprehension _ _ _ => cloneNull
  | .listComprehensionIf a x b c => do
    let a ← a.clone
    let b ← b.clone
    let c ← c.clone
    return .listComprehensionIf a x b c
  | .unary k a => do
    let a ← a.clone
    return .unary k a
  | .binary k a b => do
    let a ← a.clone
    let b ← b.clone
    return .binary k a b
  | .ternary k a b c => do
    let a ← a.clone
    let b ← b.clone
    let c ← c.clone
    return .ternary k a b c
  | .parserState s => do
    let s ← cloneState s
    return .parserState s
  | e => return e

/-- `Attribute::clone`; the value is cloned even if there is none. -/
def Attribute.clone (a : Attribute Nat) : Clone (Attribute Nat) :=
  match a.value with
  | none => cloneNull
  | some e => do
    let e ← e.clone
    return { a with value := some e }

/-- What the `clone` functions of the fields have in common. The constructor is given `type`, and
the flag that the application can access the field has its default. -/
def FieldInfo.clone (i : FieldInfo Nat) (type : Option Ty) : Clone (FieldInfo Nat) := do
  let attributes ← cloneList Attribute.clone i.attributes
  let sinks ← cloneList Expr.clone i.sinks
  let condition ← cloneOption Expr.clone i.condition
  return { i with type, attributes, sinks, condition, applicationAccessible := true }

def bytes : Ty := .atomic .bytes

/-- `clone` of the classes of `item::field`. -/
def Field.clone : Field Nat → Clone (Field Nat)
  | .atomic i => do
    let i ← i.clone i.type
    return .atomic i
  | .constant i c t => do
    let i ← i.clone (some t)
    return .constant i c t
  | .ctor i c => do
    let i ← i.clone (some bytes)
    return .ctor i c
  | .unknown i r ps => do
    let i ← i.clone none
    let ps ← cloneList Expr.clone ps
    return .unknown i r ps
  | .unit i ps => do
    let i ← i.clone i.type
    let ps ← cloneList Expr.clone ps
    return .unit i ps
  | .vector i n c => do
    let i ← i.clone (some bytes)
    let n ← n.clone
    let c ← c.clone
    return .vector i n c
  | .list i c => do
    let i ← i.clone (some bytes)
    let c ← c.clone
    return .list i c

/-- `Case::clone`; the clone is never the default case. -/
def Case.clone (c : Case Nat) : Clone (Case Nat) := do
  let expressions ← cloneList Expr.clone c.expressions
  let items ← cloneList Field.clone c.items
  return { expressions, items }

/-- `Switch::clone`. -/
def Switch.clone (s : Switch Nat) : Clone (Switch Nat) := do
  let expression ← cloneOption Expr.clone s.expression
  let condition ← cloneOption Expr.clone s.condition
  let cases ← cloneList Case.clone s.cases
  return { s with expression, condition, cases, applicationAccessible := true }

/-- `Variable::clone`; the serialized type is not copied. -/
def Variable.clone (v : Variable Nat) : Clone (Variable Nat) := do
  let attributes ← cloneList Attribute.clone v.attributes
  let defaultValue ← cloneOption Expr.clone v.defaultValue
  return { v with attributes, defaultValue, serializedType := none, applicationAccessible := true }

def Item.clone : Item Nat → Clone (Item Nat)
  | .field f => do
    let f ← f.clone
    return .field f
  | .switch s => do
    let s ← s.clone
    return .switch s
  | .var v => do
    let v ← v.clone
    return .var v
  | .property a _ => do
    let a ← a.clone
    return .property a false

/-! ## New nodes -/

/-- The second heap has been made from the first one by creating nodes. -/
structure Heap.Le (h h' : Heap) : Prop where
  next : h.next ≤ h'.next
  cell : ∀ x < h.next, h'.cell x = h.cell x

instance : LE Heap := ⟨Heap.Le⟩

theorem Heap.le_refl (h : Heap) : h ≤ h := ⟨Nat.le_refl _, fun _ _ => rfl⟩

theorem Heap.le_trans {h h₁ h₂ : Heap} (h₀₁ : h ≤ h₁) (h₁₂ : h₁ ≤ h₂) : h ≤ h₂ :=
  ⟨h₀₁.next.trans h₁₂.next, fun x hx =>
    (h₁₂.cell x (hx.trans_le h₀₁.next)).trans (h₀₁.cell x hx)⟩

/-- All parser states in the expressions have been created. -/
def Below (h : Heap) (es : List (Expr Nat)) : Prop := ∀ e ∈ es, ∀ x ∈ e.states, x < h.next

theorem Below.mono {h h' : Heap} {es : List (Expr Nat)} (hes : Below h es) (hle : h ≤ h') :
    Below h' es :=
  fun e he x hx => (hes e he x hx).trans_le hle.next

theorem below_append {h : Heap} {es fs : List (Expr Nat)} :
    Below h (es ++ fs) ↔ Below h es ∧ Below h fs := by
  simp [Below, or_imp, forall_and]

/-- `es'` are clones of `es`: what is not shared has been created in between, and they look the same,
whatever is created before or afterwards. -/
structure Copied (h : Heap) (es es' : List (Expr Nat)) (h' : Heap) : Prop where
  le : h ≤ h'
  fresh : ∀ x ∈ es'.flatMap Expr.own, h.next ≤ x ∧ x < h'.next
  nodup : (es'.flatMap Expr.own).Nodup
  shared : es'.flatMap Expr.shared = es.flatMap Expr.shared
  view : ∀ ⦃h₀ h₂ : Heap⦄, h₀ ≤ h → h' ≤ h₂ → Below h₀ es →
    es'.map (·.map h₂.cell) = es.map (·.map h₀.cell)

namespace Copied

variable {h h₁ h₂ : Heap} {es es' fs fs' : List (Expr Nat)}

theorem nil (h : Heap) : Copied h [] [] h := ⟨h.le_refl, by simp, by simp, rfl, by simp⟩

theorem append (he : Copied h es es' h₁) (hf : Copied h₁ fs fs' h₂) :
    Copied h (es ++ fs) (es' ++ fs') h₂ := by
  refine ⟨Heap.le_trans he.le hf.le, ?_, ?_, ?_, ?_⟩
  · intro x hx
    rw [List.flatMap_append] at hx
    have hle₁ := he.le.next
    have hle₂ := hf.le.next
    rcases List.mem_append.mp hx with hx | hx
    · have := he.fresh x hx
      omega
    · have := hf.fresh x hx
      omega
  · rw [List.flatMap_append]
    refine List.nodup_append.mpr ⟨he.nodup, hf.nodup, fun x hx y hy heq => ?_⟩
    have := he.fresh x hx
    have := hf.fresh y hy
    omega
  · rw [List.flatMap_append, List.flatMap_append, he.shared, hf.shared]
  · intro h₀ h₃ hle₀ hle₃ hbelow
    obtain ⟨hes, hfs⟩ := below_append.mp hbelow
    rw [List.map_append, List.map_append, he.view hle₀ (Heap.le_trans hf.le hle₃) hes,
      hf.view (Heap.le_trans hle₀ he.le) hle₃ hfs]

theorem below (hc : Copied h es es' h₁) (hes : Below h es) : Below h₁ es' := by
  intro e he x hx
  rcases Expr.mem_states.mp hx with hx | hx
  · exact (hc.fresh x (List.mem_flatMap.mpr ⟨e, he, hx⟩)).2
  · have hmem : x ∈ es.flatMap Expr.shared := by
      rw [← hc.shared]
      exact List.mem_flatMap.mpr ⟨e, he, hx⟩
    obtain ⟨e', he', hx'⟩ := List.mem_flatMap.mp hmem
    exact (hes e' he' x (Expr.mem_states.mpr (.inr hx'))).trans_le hc.le.next

/-- A node with the given subexpressions is a clone if they are. -/
theorem node {e e' : Expr Nat} (hc : Copied h es es' h₁) (hown : e'.own = es'.flatMap Expr.own)
    (hshared : e.shared = es.flatMap Expr.shared) (hshared' : e'.shared = es'.flatMap Expr.shared)
    (hstates : e.states = es.flatMap Expr.states)
    (hmap : ∀ f g : Nat → ParserState, es'.map (·.map f) = es.map (·.map g) → e'.map f = e.map g) :
    Copied h [e] [e'] h₁ := by
  refine ⟨hc.le, ?_, ?_, ?_, fun h₀ h₂ hle₀ hle₂ hbelow => ?_⟩
  · simpa [hown] using hc.fresh
  · simpa [hown] using hc.nodup
  · simp [hshared, hshared', hc.shared]
  · have hes : Below h₀ es := by
      intro a ha x hx
      exact hbelow e (by simp) x (by rw [hstates]; exact List.mem_flatMap.mpr ⟨a, ha, hx⟩)
    simp [hmap _ _ (hc.view hle₀ hle₂ hes)]

/-- An expression without parser states of its own is its clone. -/
theorem refl {e : Expr Nat} (h : Heap) (hown : e.own = []) : Copied h [e] [e] h := by
  refine ⟨h.le_refl, by simp [hown], by simp [hown], rfl, fun h₀ h₂ hle₀ hle₂ hbelow => ?_⟩
  have hcell : ∀ x ∈ e.states, h₂.cell x = h₀.cell x := fun x hx =>
    (Heap.le_trans hle₀ hle₂).cell x (hbelow e (by simp) x hx)
  simp [Expr.map_congr hcell]

end Copied

section Bind

variable {α β : Type}

theorem bind_some {x : Clone α} {f : α → Clone β} {h : Heap} {r : β × Heap} :
    (x >>= f) h = some r ↔ ∃ a h₁, x h = some (a, h₁) ∧ f a h₁ = some r := by
  change (x h).bind (fun p => f p.1 p.2) = some r ↔ _
  simp [Option.bind_eq_some_iff]

theorem pure_some {a : α} {h : Heap} {r : α × Heap} :
    (pure a : Clone α) h = some r ↔ (a, h) = r := by
  change some (a, h) = some r ↔ _
  simp

end Bind

/-- The clone of a parser state is a new one. -/
theorem cloneState_copied (s : Nat) (h : Heap) :
    Copied h [.parserState s] [.parserState h.next]
      ⟨h.next + 1, Function.update h.cell h.next (h.cell s)⟩ := by
  refine ⟨⟨by simp, fun x hx => ?_⟩, ?_, ?_, rfl, fun h₀ h₂ hle₀ hle₂ hbelow => ?_⟩
  · exact Function.update_of_ne (by omega) _ _
  · simp [Expr.own]
  · simp [Expr.own]
  · have hs : s < h₀.next := hbelow (.parserState s) (by simp) s (by simp [Expr.states])
    have hcell : h₂.cell h.next = h₀.cell s := by
      rw [hle₂.cell h.next (by simp)]
      exact (Function.update_self _ _ _).trans (hle₀.cell s hs)
    simp [Expr.map, hcell]

theorem Expr.clone_copied {e e' : Expr Nat} {h h' : Heap} (hc : e.clone h = some (e', h')) :
    Copied h [e] [e'] h' := by
  induction e generalizing h e' h' with
  | assign a b iha ihb | conditionalThen a b iha ihb | binary k a b iha ihb =>
    simp only [clone, bind_some, pure_some] at hc
    obtain ⟨a', h₁, ha, b', h₂, hb, heq⟩ := hc
    cases heq
    refine ((iha ha).append (ihb hb)).node ?_ ?_ ?_ ?_ ?_ <;>
      simp +contextual [own, shared, states, map]
  | conditional a b c iha ihb ihc | listComprehensionIf a x b c iha ihb ihc
  | ternary k a b c iha ihb ihc =>
    simp only [clone, bind_some, pure_some] at hc
    obtain ⟨a', h₁, ha, b', h₂, hb, c', h₃, hc, heq⟩ := hc
    cases heq
    refine ((iha ha).append ((ihb hb).append (ihc hc))).node ?_ ?_ ?_ ?_ ?_ <;>
      simp +contextual [own, shared, states, map]
  | find a b c d iha ihb ihc ihd =>
    simp only [clone, bind_some, pure_some] at hc
    obtain ⟨a', h₁, ha, b', h₂, hb, c', h₃, hc, d', h₄, hd, heq⟩ := hc
    cases heq
    refine ((iha ha).append ((ihb hb).append ((ihc hc).append (ihd hd)))).node ?_ ?_ ?_ ?_ ?_ <;>
      simp +contextual [own, shared, states, map]
  | lambda x a iha | unary k a iha =>
    simp only [clone, bind_some, pure_some] at hc
    obtain ⟨a', h₁, ha, heq⟩ := hc
    cases heq
    refine (iha ha).node ?_ ?_ ?_ ?_ ?_ <;> simp +contextual [own, shared, states, map]
  | listComprehension a x b => cases hc
  | parserState s =>
    simp only [clone, bind_some, pure_some] at hc
    obtain ⟨s', h₁, hs, heq⟩ := hc
    cases heq
    cases hs
    exact cloneState_copied s h
  | constant | tupleNil | tupleCons | ctor | function | id | memberAttribute | transform | type
  | lambdaVariable =>
    cases hc
    exact .refl h rfl

/-! ## Clones of items -/

section Clones

variable {α β : Type}

/-- A function clones the expressions of its argument, and the result looks like the argument up to
`norm`, whatever is created before or afterwards. -/
def Clones (exprs : α → List (Expr Nat)) (view : (Nat → ParserState) → α → β) (norm : β → β)
    (clone : α → Clone α) : Prop :=
  ∀ ⦃a : α⦄ ⦃h : Heap⦄ ⦃a' : α⦄ ⦃h' : Heap⦄, clone a h = some (a', h') →
    Copied h (exprs a) (exprs a') h' ∧ ∀ ⦃h₀ h₂ : Heap⦄, h₀ ≤ h → h' ≤ h₂ → Below h₀ (exprs a) →
      view h₂.cell a' = norm (view h₀.cell a)

variable {exprs : α → List (Expr Nat)} {view : (Nat → ParserState) → α → β} {norm : β → β}
  {clone : α → Clone α}

theorem Clones.list (hc : Clones exprs view norm clone) :
    Clones (fun as => as.flatMap exprs) (fun f as => as.map (view f)) (List.map norm)
      (cloneList clone) := by
  intro as
  induction as with
  | nil =>
    intro h as' h' hrun
    cases hrun
    exact ⟨.nil h, fun _ _ _ _ _ => rfl⟩
  | cons a as ih =>
    intro h as' h' hrun
    simp only [cloneList, bind_some, pure_some] at hrun
    obtain ⟨a', h₁, ha, as'', h₂, has, heq⟩ := hrun
    cases heq
    obtain ⟨hcopy, hview⟩ := hc ha
    obtain ⟨hcopies, hviews⟩ := ih has
    refine ⟨hcopy.append hcopies, fun h₀ h₃ hle₀ hle₃ hbelow => ?_⟩
    obtain ⟨hb, hbs⟩ := below_append.mp hbelow
    simp only [List.map_cons]
    rw [hview hle₀ (Heap.le_trans hcopies.le hle₃) hb]
    exact congrArg _ (hviews (Heap.le_trans hle₀ hcopy.le) hle₃ hbs)

theorem Clones.option (hc : Clones exprs view norm clone) :
    Clones (fun o => o.toList.flatMap exprs) (fun f o => o.map (view f)) (Option.map norm)
      (cloneOption clone) := by
  intro o h o' h' hrun
  cases o with
  | none =>
    cases hrun
    exact ⟨.nil h, fun _ _ _ _ _ => rfl⟩
  | some a =>
    simp only [cloneOption, bind_some, pure_some] at hrun
    obtain ⟨a', h₁, ha, heq⟩ := hrun
    cases heq
    obtain ⟨hcopy, hview⟩ := hc ha
    refine ⟨by simpa using hcopy, fun h₀ h₂ hle₀ hle₂ hbelow => ?_⟩
    simp [hview hle₀ hle₂ (by simpa using hbelow)]

end Clones

theorem clones_expr : Clones (fun e => [e]) (fun f e => e.map f) id Expr.clone := by
  intro e h e' h' hrun
  have hcopy := Expr.clone_copied hrun
  refine ⟨hcopy, fun h₀ h₂ hle₀ hle₂ hbelow => ?_⟩
  simpa using hcopy.view hle₀ hle₂ hbelow

theorem clones_attribute :
    Clones (fun a => a.value.toList) (fun f a => a.map f) id Attribute.clone := by
  intro a h a' h' hrun
  obtain ⟨key, value, internal⟩ := a
  cases value with
  | none => cases hrun
  | some e =>
    simp only [Attribute.clone, bind_some, pure_some] at hrun
    obtain ⟨e', h₁, he, heq⟩ := hrun
    cases heq
    obtain ⟨hcopy, hview⟩ := clones_expr he
    refine ⟨hcopy, fun h₀ h₂ hle₀ hle₂ hbelow => ?_⟩
    simp [Attribute.map, hview hle₀ hle₂ hbelow]

theorem flatMap_value {σ : Type} (as : List (Attribute σ)) :
    as.flatMap (fun a => a.value.toList) = attributeValues as := by
  unfold attributeValues
  induction as with
  | nil => rfl
  | cons a as ih => cases h : a.value <;> simp [h, ih]

theorem clones_exprs :
    Clones (fun es => es) (fun f es => es.map (·.map f)) id (cloneList Expr.clone) := by
  intro es h es' h' hrun
  simpa using clones_expr.list hrun

theorem clones_exprOption :
    Clones Option.toList (fun f o => o.map (·.map f)) id (cloneOption Expr.clone) := by
  intro o h o' h' hrun
  simpa using clones_expr.option hrun

theorem clones_attributes :
    Clones attributeValues (fun f as => as.map (·.map f)) id (cloneList Attribute.clone) := by
  intro as h as' h' hrun
  simpa [flatMap_value] using clones_attribute.list hrun

section Cloned

variable {σ : Type}

/-- What a clone looks like. -/
def FieldInfo.cloned (type : Option Ty) (i : FieldInfo σ) : FieldInfo σ :=
  { i with type, applicationAccessible := true }

@[inherit_doc FieldInfo.cloned]
def Field.cloned : Field σ → Field σ
  | .atomic i => .atomic (i.cloned i.type)
  | .constant i c t => .constant (i.cloned (some t)) c t
  | .ctor i c => .ctor (i.cloned (some bytes)) c
  | .unknown i r ps => .unknown (i.cloned none) r ps
  | .unit i ps => .unit (i.cloned i.type) ps
  | .vector i n c => .vector (i.cloned (some bytes)) n c.cloned
  | .list i c => .list (i.cloned (some bytes)) c.cloned

def Case.cloned (c : Case σ) : Case σ :=
  { c with items := c.items.map (·.cloned), default_ := false }

def Switch.cloned (s : Switch σ) : Switch σ :=
  { s with cases := s.cases.map (·.cloned), applicationAccessible := true }

def Variable.cloned (v : Variable σ) : Variable σ :=
  { v with serializedType := none, applicationAccessible := true }

@[inherit_doc FieldInfo.cloned]
def Item.cloned : Item σ → Item σ
  | .field f => .field f.cloned
  | .switch s => .switch s.cloned
  | .var v => .var v.cloned
  | .property a _ => .property a false

end Cloned

theorem clones_info (type : Option Ty) :
    Clones FieldInfo.exprs (fun f i => i.map f) (FieldInfo.cloned type) (·.clone type) := by
  intro i h i' h' hrun
  simp only [FieldInfo.clone, bind_some, pure_some] at hrun
  obtain ⟨as, h₁, has, ss, h₂, hss, c, h₃, hcond, heq⟩ := hrun
  cases heq
  obtain ⟨hcopyA, hviewA⟩ := clones_attributes has
  obtain ⟨hcopyS, hviewS⟩ := clones_exprs hss
  obtain ⟨hcopyC, hviewC⟩ := clones_exprOption hcond
  refine ⟨(hcopyA.append hcopyS).append hcopyC, fun h₀ h₄ hle₀ hle₄ hbelow => ?_⟩
  obtain ⟨hvisited, hhidden⟩ := below_append.mp hbelow
  obtain ⟨hbA, hbS⟩ := below_append.mp hvisited
  have hleS := Heap.le_trans hcopyC.le hle₄
  have hA := hviewA hle₀ (Heap.le_trans hcopyS.le hleS) hbA
  have hS := hviewS (Heap.le_trans hle₀ hcopyA.le) hleS hbS
  have hC := hviewC (Heap.le_trans hle₀ (Heap.le_trans hcopyA.le hcopyS.le)) hle₄ hhidden
  simp [FieldInfo.map, FieldInfo.cloned, hA, hS, hC]

namespace FieldConstant

variable {σ τ : Type}

@[simp] theorem own_toExpr (c : FieldConstant σ) : c.toExpr.own = [] := by
  cases c with
  | simple c => rfl
  | tuple es => cases es <;> rfl

theorem states_tuple (es : List (Expr σ)) :
    (toExpr (.tuple es)).states = es.flatMap Expr.states := by
  induction es with
  | nil => rfl
  | cons e es ih => simpa [toExpr, Expr.states] using ih

theorem map_congr {f g : σ → τ} {c : FieldConstant σ} (h : ∀ x ∈ c.toExpr.states, f x = g x) :
    c.map f = c.map g := by
  cases c with
  | simple c => rfl
  | tuple es =>
    rw [states_tuple] at h
    refine congrArg tuple (List.map_congr_left fun e he => Expr.map_congr fun x hx => ?_)
    exact h x (List.mem_flatMap.mpr ⟨e, he, hx⟩)

end FieldConstant

theorem clones_field : Clones Field.exprs (fun f g => g.map f) Field.cloned Field.clone := by
  intro g
  induction g with
  | atomic i | ctor i c =>
    intro h g' h' hrun
    simp only [Field.clone, bind_some, pure_some] at hrun
    obtain ⟨i', h₁, hi, heq⟩ := hrun
    cases heq
    obtain ⟨hcopy, hview⟩ := clones_info _ hi
    refine ⟨hcopy, fun h₀ h₂ hle₀ hle₂ hbelow => ?_⟩
    simp only [Field.map, hview hle₀ hle₂ hbelow]
    rfl
  | constant i c t =>
    intro h g' h' hrun
    simp only [Field.clone, bind_some, pure_some] at hrun
    obtain ⟨i', h₁, hi, heq⟩ := hrun
    cases heq
    obtain ⟨hcopy, hview⟩ := clones_info _ hi
    refine ⟨hcopy.append (.refl _ c.own_toExpr), fun h₀ h₂ hle₀ hle₂ hbelow => ?_⟩
    obtain ⟨hbi, hbc⟩ := below_append.mp hbelow
    have hcell : ∀ x ∈ c.toExpr.states, h₂.cell x = h₀.cell x := fun x hx =>
      (Heap.le_trans hle₀ (Heap.le_trans hcopy.le hle₂)).cell x (hbc _ (by simp) x hx)
    simp only [Field.map, hview hle₀ hle₂ hbi, FieldConstant.map_congr hcell]
    rfl
  | unknown i r ps | unit i ps =>
    intro h g' h' hrun
    simp only [Field.clone, bind_some, pure_some] at hrun
    obtain ⟨i', h₁, hi, ps', h₂, hps, heq⟩ := hrun
    cases heq
    obtain ⟨hcopy, hview⟩ := clones_info _ hi
    obtain ⟨hcopies, hviews⟩ := clones_exprs hps
    refine ⟨hcopy.append hcopies, fun h₀ h₃ hle₀ hle₃ hbelow => ?_⟩
    obtain ⟨hbi, hbs⟩ := below_append.mp hbelow
    simp only [Field.map, hview hle₀ (Heap.le_trans hcopies.le hle₃) hbi,
      hviews (Heap.le_trans hle₀ hcopy.le) hle₃ hbs]
    rfl
  | vector i n c ih =>
    intro h g' h' hrun
    simp only [Field.clone, bind_some, pure_some] at hrun
    obtain ⟨i', h₁, hi, n', h₂, hn, c', h₃, hc, heq⟩ := hrun
    cases heq
    obtain ⟨hcopyI, hviewI⟩ := clones_info _ hi
    obtain ⟨hcopyN, hviewN⟩ := clones_expr hn
    obtain ⟨hcopyC, hviewC⟩ := ih hc
    refine ⟨hcopyI.append (hcopyN.append hcopyC), fun h₀ h₄ hle₀ hle₄ hbelow => ?_⟩
    obtain ⟨hbi, hbelow⟩ := below_append.mp hbelow
    obtain ⟨hbn, hbc⟩ := below_append.mp (show Below h₀ ([n] ++ c.exprs) from hbelow)
    have hleN := Heap.le_trans hcopyC.le hle₄
    simp only [Field.map, hviewI hle₀ (Heap.le_trans hcopyN.le hleN) hbi,
      hviewN (Heap.le_trans hle₀ hcopyI.le) hleN hbn,
      hviewC (Heap.le_trans hle₀ (Heap.le_trans hcopyI.le hcopyN.le)) hle₄ hbc]
    rfl
  | list i c ih =>
    intro h g' h' hrun
    simp only [Field.clone, bind_some, pure_some] at hrun
    obtain ⟨i', h₁, hi, c', h₂, hc, heq⟩ := hrun
    cases heq
    obtain ⟨hcopyI, hviewI⟩ := clones_info _ hi
    obtain ⟨hcopyC, hviewC⟩ := ih hc
    refine ⟨hcopyI.append hcopyC, fun h₀ h₃ hle₀ hle₃ hbelow => ?_⟩
    obtain ⟨hbi, hbc⟩ := below_append.mp hbelow
    simp only [Field.map, hviewI hle₀ (Heap.le_trans hcopyC.le hle₃) hbi,
      hviewC (Heap.le_trans hle₀ hcopyI.le) hle₃ hbc]
    rfl

theorem clones_case : Clones Case.exprs (fun f c => c.map f) Case.cloned Case.clone := by
  intro c h c' h' hrun
  simp only [Case.clone, bind_some, pure_some] at hrun
  obtain ⟨es, h₁, hes, fs, h₂, hfs, heq⟩ := hrun
  cases heq
  obtain ⟨hcopyE, hviewE⟩ := clones_exprs hes
  obtain ⟨hcopyF, hviewF⟩ := clones_field.list hfs
  refine ⟨hcopyE.append hcopyF, fun h₀ h₃ hle₀ hle₃ hbelow => ?_⟩
  obtain ⟨hbe, hbf⟩ := below_append.mp hbelow
  simp only [Case.map, hviewE hle₀ (Heap.le_trans hcopyF.le hle₃) hbe,
    hviewF (Heap.le_trans hle₀ hcopyE.le) hle₃ hbf]
  rfl

theorem clones_switch {s s' : Switch Nat} {h h' : Heap} (hrun : s.clone h = some (s', h')) :
    Copied h (Item.switch s).exprs (Item.switch s').exprs h' ∧
      ∀ ⦃h₀ h₂ : Heap⦄, h₀ ≤ h → h' ≤ h₂ → Below h₀ (Item.switch s).exprs →
        s'.map h₂.cell = (s.map h₀.cell).cloned := by
  simp only [Switch.clone, bind_some, pure_some] at hrun
  obtain ⟨e, h₁, he, c, h₂, hc, cs, h₃, hcs, heq⟩ := hrun
  cases heq
  obtain ⟨hcopyE, hviewE⟩ := clones_exprOption he
  obtain ⟨hcopyC, hviewC⟩ := clones_exprOption hc
  obtain ⟨hcopies, hviews⟩ := clones_case.list hcs
  refine ⟨hcopyE.append (hcopyC.append hcopies), fun h₀ h₄ hle₀ hle₄ hbelow => ?_⟩
  obtain ⟨hbe, hbelow⟩ := below_append.mp hbelow
  obtain ⟨hbc, hbs⟩ := below_append.mp hbelow
  have hleC := Heap.le_trans hcopies.le hle₄
  simp only [Switch.map, hviewE hle₀ (Heap.le_trans hcopyC.le hleC) hbe,
    hviewC (Heap.le_trans hle₀ hcopyE.le) hleC hbc,
    hviews (Heap.le_trans hle₀ (Heap.le_trans hcopyE.le hcopyC.le)) hle₄ hbs]
  rfl

theorem clones_variable {v v' : Variable Nat} {h h' : Heap} (hrun : v.clone h = some (v', h')) :
    Copied h (Item.var v).exprs (Item.var v').exprs h' ∧
      ∀ ⦃h₀ h₂ : Heap⦄, h₀ ≤ h → h' ≤ h₂ → Below h₀ (Item.var v).exprs →
        v'.map h₂.cell = (v.map h₀.cell).cloned := by
  simp only [Variable.clone, bind_some, pure_some] at hrun
  obtain ⟨as, h₁, has, d, h₂, hd, heq⟩ := hrun
  cases heq
  obtain ⟨hcopyA, hviewA⟩ := clones_attributes has
  obtain ⟨hcopyD, hviewD⟩ := clones_exprOption hd
  refine ⟨hcopyA.append hcopyD, fun h₀ h₃ hle₀ hle₃ hbelow => ?_⟩
  obtain ⟨hba, hbd⟩ := below_append.mp hbelow
  simp only [Variable.map, hviewA hle₀ (Heap.le_trans hcopyD.le hle₃) hba,
    hviewD (Heap.le_trans hle₀ hcopyA.le) hle₃ hbd]
  rfl

/-- The clone of an item consists of clones of its expressions, and it looks like `cloned`. -/
theorem clones_item : Clones Item.exprs (fun f i => i.map f) Item.cloned Item.clone := by
  intro i h i' h' hrun
  cases i with
  | field f =>
    simp only [Item.clone, bind_some, pure_some] at hrun
    obtain ⟨f', h₁, hf, heq⟩ := hrun
    cases heq
    obtain ⟨hcopy, hview⟩ := clones_field hf
    exact ⟨hcopy, fun h₀ h₂ hle₀ hle₂ hbelow => congrArg Item.field (hview hle₀ hle₂ hbelow)⟩
  | switch s =>
    simp only [Item.clone, bind_some, pure_some] at hrun
    obtain ⟨s', h₁, hs, heq⟩ := hrun
    cases heq
    obtain ⟨hcopy, hview⟩ := clones_switch hs
    exact ⟨hcopy, fun h₀ h₂ hle₀ hle₂ hbelow => congrArg Item.switch (hview hle₀ hle₂ hbelow)⟩
  | var v =>
    simp only [Item.clone, bind_some, pure_some] at hrun
    obtain ⟨v', h₁, hv, heq⟩ := hrun
    cases heq
    obtain ⟨hcopy, hview⟩ := clones_variable hv
    exact ⟨hcopy, fun h₀ h₂ hle₀ hle₂ hbelow => congrArg Item.var (hview hle₀ hle₂ hbelow)⟩
  | property a p =>
    simp only [Item.clone, bind_some, pure_some] at hrun
    obtain ⟨a', h₁, ha, heq⟩ := hrun
    cases heq
    obtain ⟨hcopy, hview⟩ := clones_attribute ha
    refine ⟨hcopy, fun h₀ h₂ hle₀ hle₂ hbelow => ?_⟩
    exact congrArg (Item.property · false) (hview hle₀ hle₂ hbelow)

/-! ## Where cloning fails -/

section Runs

variable {α β : Type}

/-- The computation does not fail. -/
def Runs (x : Clone α) (h : Heap) : Prop := ∃ r, x h = some r

theorem runs_pure (a : α) (h : Heap) : Runs (pure a) h ↔ True := by
  refine iff_true_intro ⟨(a, h), rfl⟩

theorem runs_null (h : Heap) : Runs (cloneNull : Clone α) h ↔ False := by
  refine iff_false_intro fun ⟨r, hr⟩ => ?_
  cases hr

theorem runs_bind {x : Clone α} {f : α → Clone β} {h : Heap} {Q : Prop}
    (hf : ∀ a h₁, Runs (f a) h₁ ↔ Q) : Runs (x >>= f) h ↔ Runs x h ∧ Q := by
  constructor
  · rintro ⟨r, hr⟩
    obtain ⟨a, h₁, hx, hfa⟩ := bind_some.mp hr
    exact ⟨⟨_, hx⟩, (hf a h₁).mp ⟨r, hfa⟩⟩
  · rintro ⟨⟨⟨a, h₁⟩, hx⟩, hQ⟩
    obtain ⟨r, hr⟩ := (hf a h₁).mpr hQ
    exact ⟨r, bind_some.mpr ⟨a, h₁, hx, hr⟩⟩

theorem runs_map {x : Clone α} {f : α → β} {h : Heap} :
    Runs (x >>= fun a => pure (f a)) h ↔ Runs x h :=
  (runs_bind fun a h₁ => runs_pure (f a) h₁).trans (and_iff_left trivial)

theorem runs_list {clone : α → Clone α} {P : α → Prop} (hc : ∀ a h, Runs (clone a) h ↔ P a)
    (as : List α) (h : Heap) : Runs (cloneList clone as) h ↔ ∀ a ∈ as, P a := by
  induction as generalizing h with
  | nil => simp [cloneList, runs_pure]
  | cons a as ih =>
    rw [cloneList]
    refine (runs_bind fun _ h₁ => runs_map.trans (ih h₁)).trans ?_
    simp [hc]

theorem runs_option {clone : α → Clone α} {P : α → Prop} (hc : ∀ a h, Runs (clone a) h ↔ P a)
    (o : Option α) (h : Heap) : Runs (cloneOption clone o) h ↔ ∀ a ∈ o, P a := by
  cases o with
  | none => simp [cloneOption, runs_pure]
  | some a =>
    rw [cloneOption]
    refine runs_map.trans ?_
    simp [hc]

end Runs

/-- No list comprehension without a predicate, tuples apart. -/
def Expr.clonable {σ : Type} : Expr σ → Bool
  | .assign a b | .conditionalThen a b | .binary _ a b => a.clonable && b.clonable
  | .conditional a b c | .listComprehensionIf a _ b c | .ternary _ a b c =>
    a.clonable && b.clonable && c.clonable
  | .find a b c d => a.clonable && b.clonable && c.clonable && d.clonable
  | .lambda _ a | .unary _ a => a.clonable
  | .listComprehension _ _ _ => false
  | .constant _ | .tupleNil | .tupleCons _ _ | .ctor _ | .function _ | .id _ | .memberAttribute _
  | .parserState _ | .transform _ | .type _ | .lambdaVariable _ => true

theorem runs_expr (e : Expr Nat) (h : Heap) : Runs e.clone h ↔ e.clonable = true := by
  induction e generalizing h with
  | assign a b iha ihb | conditionalThen a b iha ihb | binary k a b iha ihb =>
    rw [Expr.clone]
    refine (runs_bind fun _ h₁ => runs_map.trans (ihb h₁)).trans ?_
    simp [iha, Expr.clonable]
  | conditional a b c iha ihb ihc | listComprehensionIf a x b c iha ihb ihc
  | ternary k a b c iha ihb ihc =>
    rw [Expr.clone]
    refine (runs_bind fun _ h₁ => (runs_bind fun _ h₂ => runs_map.trans (ihc h₂)).trans
      (and_congr_left' (ihb h₁))).trans ?_
    simp [iha, Expr.clonable, and_assoc]
  | find a b c d iha ihb ihc ihd =>
    rw [Expr.clone]
    refine (runs_bind fun _ h₁ => (runs_bind fun _ h₂ => (runs_bind fun _ h₃ =>
      runs_map.trans (ihd h₃)).trans (and_congr_left' (ihc h₂))).trans
      (and_congr_left' (ihb h₁))).trans ?_
    simp [iha, Expr.clonable, and_assoc]
  | lambda x a iha | unary k a iha =>
    rw [Expr.clone]
    exact runs_map.trans (iha h)
  | listComprehension a x b =>
    rw [Expr.clone, runs_null]
    simp [Expr.clonable]
  | parserState s =>
    rw [Expr.clone]
    exact iff_of_true (runs_map.mpr ⟨_, rfl⟩) rfl
  | constant | tupleNil | tupleCons | ctor | function | id | memberAttribute | transform | type
  | lambdaVariable => exact iff_of_true ⟨_, rfl⟩ rfl

/-- Every attribute has a value that can be cloned. -/
def Attribute.clonable {σ : Type} (a : Attribute σ) : Prop :=
  ∃ e, a.value = some e ∧ e.clonable = true

theorem runs_attribute (a : Attribute Nat) (h : Heap) : Runs a.clone h ↔ a.clonable := by
  unfold Attribute.clone Attribute.clonable
  cases a.value with
  | none => simp [runs_null]
  | some e =>
    refine runs_map.trans ((runs_expr e h).trans ?_)
    simp

section Clonable

variable {σ : Type}

/-- All attributes have values, and all list comprehensions have predicates. -/
structure FieldInfo.Clonable (i : FieldInfo σ) : Prop where
  attributes : ∀ a ∈ i.attributes, a.clonable
  sinks : ∀ e ∈ i.sinks, e.clonable = true
  condition : ∀ e ∈ i.condition, e.clonable = true

@[inherit_doc FieldInfo.Clonable]
def Field.Clonable : Field σ → Prop
  | .atomic i | .constant i _ _ | .ctor i _ => i.Clonable
  | .unknown i _ ps | .unit i ps => i.Clonable ∧ ∀ e ∈ ps, e.clonable = true
  | .vector i n c => i.Clonable ∧ n.clonable = true ∧ c.Clonable
  | .list i c => i.Clonable ∧ c.Clonable

def Case.Clonable (c : Case σ) : Prop :=
  (∀ e ∈ c.expressions, e.clonable = true) ∧ ∀ f ∈ c.items, f.Clonable

/-- The items that have a clone. -/
def Item.Clonable : Item σ → Prop
  | .field f => f.Clonable
  | .switch s => (∀ e ∈ s.expression, e.clonable = true) ∧
      (∀ e ∈ s.condition, e.clonable = true) ∧ ∀ c ∈ s.cases, c.Clonable
  | .var v => (∀ a ∈ v.attributes, a.clonable) ∧ ∀ e ∈ v.defaultValue, e.clonable = true
  | .property a _ => a.clonable

end Clonable

theorem runs_info (i : FieldInfo Nat) (type : Option Ty) (h : Heap) :
    Runs (i.clone type) h ↔ i.Clonable := by
  rw [FieldInfo.clone]
  refine (runs_bind fun _ h₁ => (runs_bind fun _ h₂ =>
    runs_map.trans (runs_option runs_expr _ h₂)).trans
    (and_congr_left' (runs_list runs_expr _ h₁))).trans ?_
  rw [runs_list runs_attribute]
  exact ⟨fun ⟨ha, hs, hc⟩ => ⟨ha, hs, hc⟩, fun hi => ⟨hi.attributes, hi.sinks, hi.condition⟩⟩

theorem runs_field (f : Field Nat) (h : Heap) : Runs f.clone h ↔ f.Clonable := by
  induction f generalizing h with
  | atomic i | constant i c t | ctor i c =>
    rw [Field.clone]
    exact runs_map.trans (runs_info i _ h)
  | unknown i r ps | unit i ps =>
    rw [Field.clone]
    refine (runs_bind fun _ h₁ => runs_map.trans (runs_list runs_expr ps h₁)).trans ?_
    exact and_congr_left' (runs_info i _ h)
  | vector i n c ih =>
    rw [Field.clone]
    refine (runs_bind fun _ h₁ => (runs_bind fun _ h₂ => runs_map.trans (ih h₂)).trans
      (and_congr_left' (runs_expr n h₁))).trans ?_
    exact and_congr_left' (runs_info i _ h)
  | list i c ih =>
    rw [Field.clone]
    refine (runs_bind fun _ h₁ => runs_map.trans (ih h₁)).trans ?_
    exact and_congr_left' (runs_info i _ h)

theorem runs_case (c : Case Nat) (h : Heap) : Runs c.clone h ↔ c.Clonable := by
  rw [Case.clone]
  refine (runs_bind fun _ h₁ => runs_map.trans (runs_list runs_field _ h₁)).trans ?_
  exact and_congr_left' (runs_list runs_expr _ h)

theorem runs_item (i : Item Nat) (h : Heap) : Runs i.clone h ↔ i.Clonable := by
  cases i with
  | field f =>
    rw [Item.clone]
    exact runs_map.trans (runs_field f h)
  | switch s =>
    rw [Item.clone, Switch.clone]
    refine runs_map.trans ((runs_bind fun _ h₁ => (runs_bind fun _ h₂ =>
      runs_map.trans (runs_list runs_case _ h₂)).trans
      (and_congr_left' (runs_option runs_expr _ h₁))).trans ?_)
    exact and_congr_left' (runs_option runs_expr _ h)
  | var v =>
    rw [Item.clone, Variable.clone]
    refine runs_map.trans ((runs_bind fun _ h₁ =>
      runs_map.trans (runs_option runs_expr _ h₁)).trans ?_)
    exact and_congr_left' (runs_list runs_attribute _ h)
  | property a p =>
    rw [Item.clone]
    exact runs_map.trans (runs_attribute a h)

/-! ## Faithful clones -/

section Faithful

variable {σ : Type}

/-- A field is cloned faithfully if all its attributes have values, its list comprehensions have
predicates, its type is the one the constructor is given and the application can access it. -/
structure FieldInfo.Faithful (type : Option Ty) (i : FieldInfo σ) : Prop where
  attributes : ∀ a ∈ i.attributes, a.clonable
  sinks : ∀ e ∈ i.sinks, e.clonable = true
  condition : ∀ e ∈ i.condition, e.clonable = true
  type : i.type = type
  accessible : i.applicationAccessible = true

@[inherit_doc FieldInfo.Faithful]
def Field.Faithful : Field σ → Prop
  | .atomic i => i.Faithful i.type
  | .constant i _ t => i.Faithful (some t)
  | .ctor i _ => i.Faithful (some bytes)
  | .unknown i _ ps => i.Faithful none ∧ ∀ e ∈ ps, e.clonable = true
  | .unit i ps => i.Faithful i.type ∧ ∀ e ∈ ps, e.clonable = true
  | .vector i n c => i.Faithful (some bytes) ∧ n.clonable = true ∧ c.Faithful
  | .list i c => i.Faithful (some bytes) ∧ c.Faithful

/-- A case is cloned faithfully if it is not the default case. -/
structure Case.Faithful (c : Case σ) : Prop where
  expressions : ∀ e ∈ c.expressions, e.clonable = true
  items : ∀ f ∈ c.items, f.Faithful
  default_ : c.default_ = false

structure Switch.Faithful (s : Switch σ) : Prop where
  expression : ∀ e ∈ s.expression, e.clonable = true
  condition : ∀ e ∈ s.condition, e.clonable = true
  cases : ∀ c ∈ s.cases, c.Faithful
  accessible : s.applicationAccessible = true

structure Variable.Faithful (v : Variable σ) : Prop where
  attributes : ∀ a ∈ v.attributes, a.clonable
  defaultValue : ∀ e ∈ v.defaultValue, e.clonable = true
  serializedType : v.serializedType = none
  accessible : v.applicationAccessible = true

/-- The items whose clones are like them. -/
def Item.Faithful : Item σ → Prop
  | .field f => f.Faithful
  | .switch s => s.Faithful
  | .var v => v.Faithful
  | .property a p => a.clonable ∧ p = false

end Faithful

section Faithful

variable (f : Nat → ParserState) (h : Heap)

theorem faithful_info (type : Option Ty) (i : FieldInfo Nat) :
    i.Faithful type ↔ Runs (i.clone type) h ∧ (i.map f).cloned type = i.map f := by
  have hlook : (i.map f).cloned type = i.map f ↔
      i.type = type ∧ i.applicationAccessible = true := by
    constructor
    · intro heq
      exact ⟨(congrArg FieldInfo.type heq).symm,
        (congrArg FieldInfo.applicationAccessible heq).symm⟩
    · rintro ⟨rfl, hacc⟩
      simp [FieldInfo.map, FieldInfo.cloned, hacc]
  rw [runs_info, hlook]
  constructor
  · intro hi
    exact ⟨⟨hi.attributes, hi.sinks, hi.condition⟩, hi.type, hi.accessible⟩
  · rintro ⟨⟨ha, hs, hc⟩, ht, hacc⟩
    exact ⟨ha, hs, hc, ht, hacc⟩

theorem faithful_field (g : Field Nat) :
    g.Faithful ↔ Runs g.clone h ∧ (g.map f).cloned = g.map f := by
  induction g generalizing h with
  | atomic i | constant i c t | ctor i c =>
    simp only [Field.Faithful, Field.clone, Field.map, Field.cloned, Field.atomic.injEq,
      Field.constant.injEq, Field.ctor.injEq, and_true]
    exact (faithful_info f h _ i).trans (and_congr_left' runs_map.symm)
  | unknown i r ps | unit i ps =>
    simp only [Field.Faithful, Field.clone, Field.map, Field.cloned, Field.unknown.injEq,
      Field.unit.injEq, and_true]
    rw [runs_bind fun _ h₁ => runs_map.trans (runs_list runs_expr _ h₁), faithful_info f h _ i]
    exact and_right_comm
  | vector i n c ih =>
    simp only [Field.Faithful, Field.clone, Field.map, Field.cloned, Field.vector.injEq, true_and]
    by_cases hlook : (c.map f).cloned = c.map f
    · have hc : ∀ h₁, Runs c.clone h₁ ↔ c.Faithful := fun h₁ => by simp [ih h₁, hlook]
      rw [runs_bind fun _ h₁ => (runs_bind fun _ h₂ => runs_map.trans (hc h₂)).trans
        (and_congr_left' (runs_expr n h₁)), faithful_info f h _ i, and_iff_left hlook]
      exact and_right_comm
    · simp [ih h, hlook]
  | list i c ih =>
    simp only [Field.Faithful, Field.clone, Field.map, Field.cloned, Field.list.injEq]
    by_cases hlook : (c.map f).cloned = c.map f
    · have hc : ∀ h₁, Runs c.clone h₁ ↔ c.Faithful := fun h₁ => by simp [ih h₁, hlook]
      rw [runs_bind fun _ h₁ => runs_map.trans (hc h₁), faithful_info f h _ i, and_iff_left hlook]
      exact and_right_comm
    · simp [ih h, hlook]

/-- A list is cloned faithfully if its elements are. -/
theorem faithful_list {α β : Type} {clone : α → Clone α} {view : α → β} {norm : β → β}
    {P : α → Prop} (hP : ∀ a h, P a ↔ Runs (clone a) h ∧ norm (view a) = view a) (as : List α) :
    (∀ a ∈ as, P a) ↔ Runs (cloneList clone as) h ∧ (as.map view).map norm = as.map view := by
  induction as generalizing h with
  | nil => simp [cloneList, runs_pure]
  | cons a as ih =>
    by_cases hlook : (as.map view).map norm = as.map view
    · have hc : ∀ h₁, Runs (cloneList clone as) h₁ ↔ ∀ a ∈ as, P a := fun h₁ => by
        rw [ih h₁, and_iff_left hlook]
      rw [List.forall_mem_cons, cloneList, runs_bind fun _ h₁ => runs_map.trans (hc h₁), hP a h]
      simp only [List.map_cons, List.cons.injEq, and_iff_left hlook]
      exact and_right_comm
    · have hno : ¬ ∀ a ∈ as, P a := fun hall => hlook ((ih h).mp hall).2
      refine iff_of_false (fun hall => hno (List.forall_mem_cons.mp hall).2) fun ⟨_, heq⟩ => ?_
      simp only [List.map_cons, List.cons.injEq] at heq
      exact hlook heq.2

/-- Where the elements look like their clones, it does not depend on the heap whether the list can
be cloned. -/
theorem runs_faithful {α β : Type} {clone : α → Clone α} {view : α → β} {norm : β → β}
    {P : α → Prop} (hP : ∀ a h, P a ↔ Runs (clone a) h ∧ norm (view a) = view a) {as : List α}
    (hlook : (as.map view).map norm = as.map view) (h : Heap) :
    Runs (cloneList clone as) h ↔ ∀ a ∈ as, P a := by
  rw [faithful_list h hP, and_iff_left hlook]

theorem faithful_case (c : Case Nat) :
    c.Faithful ↔ Runs c.clone h ∧ (c.map f).cloned = c.map f := by
  have hlook : (c.map f).cloned = c.map f ↔
      (c.items.map (·.map f)).map (·.cloned) = c.items.map (·.map f) ∧ c.default_ = false := by
    simp only [Case.map, Case.cloned, Case.mk.injEq, true_and]
    exact and_congr_right' eq_comm
  have hfaithful : c.Faithful ↔ (∀ e ∈ c.expressions, e.clonable = true) ∧
      (∀ g ∈ c.items, g.Faithful) ∧ c.default_ = false := by
    refine ⟨fun hc => ⟨hc.expressions, hc.items, hc.default_⟩, fun hc => ?_⟩
    obtain ⟨he, hi, hd⟩ := hc
    exact ⟨he, hi, hd⟩
  rw [hlook, hfaithful]
  by_cases hitems : (c.items.map (·.map f)).map (·.cloned) = c.items.map (·.map f)
  · have hruns := runs_faithful (fun g h => faithful_field f h g) hitems
    rw [Case.clone, runs_bind fun _ h₁ => runs_map.trans (hruns h₁), runs_list runs_expr]
    tauto
  · have hno : ¬ ∀ g ∈ c.items, g.Faithful := fun hall =>
      hitems ((faithful_list h (fun g h => faithful_field f h g) c.items).mp hall).2
    tauto

theorem faithful_switch (s : Switch Nat) :
    s.Faithful ↔ Runs s.clone h ∧ (s.map f).cloned = s.map f := by
  have hlook : (s.map f).cloned = s.map f ↔
      (s.cases.map (·.map f)).map (·.cloned) = s.cases.map (·.map f) ∧
        s.applicationAccessible = true := by
    simp only [Switch.map, Switch.cloned, Switch.mk.injEq, true_and, and_true]
    exact and_comm.trans (and_congr_right' eq_comm)
  have hfaithful : s.Faithful ↔ (∀ e ∈ s.expression, e.clonable = true) ∧
      (∀ e ∈ s.condition, e.clonable = true) ∧ (∀ c ∈ s.cases, c.Faithful) ∧
        s.applicationAccessible = true :=
    ⟨fun hs => ⟨hs.expression, hs.condition, hs.cases, hs.accessible⟩,
      fun hs => ⟨hs.1, hs.2.1, hs.2.2.1, hs.2.2.2⟩⟩
  rw [hlook, hfaithful]
  by_cases hcases : (s.cases.map (·.map f)).map (·.cloned) = s.cases.map (·.map f)
  · have hruns := runs_faithful (fun c h => faithful_case f h c) hcases
    rw [Switch.clone, runs_bind fun _ h₁ => (runs_bind fun _ h₂ => runs_map.trans (hruns h₂)).trans
      (and_congr_left' (runs_option runs_expr _ h₁)), runs_option runs_expr]
    tauto
  · have hno : ¬ ∀ c ∈ s.cases, c.Faithful := fun hall =>
      hcases ((faithful_list h (fun c h => faithful_case f h c) s.cases).mp hall).2
    tauto

theorem faithful_variable (v : Variable Nat) :
    v.Faithful ↔ Runs v.clone h ∧ (v.map f).cloned = v.map f := by
  have hlook : (v.map f).cloned = v.map f ↔
      v.applicationAccessible = true ∧ v.serializedType = none := by
    simp only [Variable.map, Variable.cloned, Variable.mk.injEq, true_and, and_true]
    exact and_congr eq_comm eq_comm
  rw [hlook, Variable.clone, runs_bind fun _ h₁ => runs_map.trans (runs_option runs_expr _ h₁),
    runs_list runs_attribute]
  constructor
  · intro hv
    exact ⟨⟨hv.attributes, hv.defaultValue⟩, hv.accessible, hv.serializedType⟩
  · rintro ⟨⟨ha, hd⟩, hacc, ht⟩
    exact ⟨ha, hd, ht, hacc⟩

theorem faithful_item (i : Item Nat) :
    i.Faithful ↔ Runs i.clone h ∧ (i.map f).cloned = i.map f := by
  cases i with
  | field g =>
    rw [Item.clone, runs_map]
    simpa [Item.Faithful, Item.map, Item.cloned] using faithful_field f h g
  | switch s =>
    rw [Item.clone, runs_map]
    simpa [Item.Faithful, Item.map, Item.cloned] using faithful_switch f h s
  | var v =>
    rw [Item.clone, runs_map]
    simpa [Item.Faithful, Item.map, Item.cloned] using faithful_variable f h v
  | property a p =>
    rw [Item.clone, runs_map, runs_attribute]
    simp [Item.Faithful, Item.map, Item.cloned]

end Faithful

/-- Cloning an item is faithful exactly if the item is one of those `Item.Faithful` describes. -/
theorem clone_faithful_iff {i : Item Nat} {h : Heap} (hi : Below h i.exprs) :
    (∃ i' h', i.clone h = some (i', h') ∧ i'.map h'.cell = i.map h.cell) ↔ i.Faithful := by
  rw [faithful_item h.cell h i]
  constructor
  · rintro ⟨i', h', hrun, hlook⟩
    obtain ⟨-, hview⟩ := clones_item hrun
    exact ⟨⟨_, hrun⟩, (hview h.le_refl h'.le_refl hi).symm.trans hlook⟩
  · rintro ⟨⟨⟨i', h'⟩, hrun⟩, hlook⟩
    obtain ⟨-, hview⟩ := clones_item hrun
    exact ⟨i', h', hrun, (hview h.le_refl h'.le_refl hi).trans hlook⟩

/-- `self` of a unit, the only parser state. -/
def selfHeap (unit : String) : Heap := ⟨1, fun _ => ⟨.self, .unit unit, .unit unit⟩⟩

/-- `switch (self.kind) { 1 -> data: bytes &length = self.size; }`, or with `*` in place of `1`. -/
def payload (isDefault : Bool) : Item Nat :=
  .switch
    { id := "__anon0"
      expression := some (.binary .attribute (.parserState 0) (.memberAttribute "kind"))
      cases :=
        [{ expressions := if isDefault then [] else [.constant (.integer 1)]
           items := [.atomic
             { id := "data"
               type := some bytes
               attributes := [⟨"length",
                 some (.binary .attribute (.parserState 0) (.memberAttribute "size")), false⟩] }]
           default_ := isDefault }] }

theorem payload_below (d : Bool) : Below (selfHeap "Message") (payload d).exprs := by
  cases d <;> (unfold Below; decide)

theorem payload_faithful : (payload false).Faithful := by
  refine ⟨?_, ?_, ?_, rfl⟩
  · rintro e ⟨⟩
    rfl
  · rintro e ⟨⟩
  · simp only [List.mem_singleton, forall_eq]
    refine ⟨by simp [Expr.clonable], ?_, rfl⟩
    simp only [List.mem_singleton, forall_eq]
    refine ⟨?_, by simp, by simp, rfl, rfl⟩
    simp [Attribute.clonable, Expr.clonable]

theorem clone_faithful_payload : ∃ i' h',
    (payload false).clone (selfHeap "Message") = some (i', h') ∧
    i'.map h'.cell = (payload false).map (selfHeap "Message").cell :=
  (clone_faithful_iff (payload_below false)).mpr payload_faithful

/-- The clone of a switch has no default case, and a property without a value has no clone. -/
theorem clone_loses_default : (∃ i' h', (payload true).clone (selfHeap "Message") = some (i', h') ∧
      i'.map h'.cell ≠ (payload true).map (selfHeap "Message").cell) ∧
    (Item.property ⟨"skip", none, false⟩ false).clone (selfHeap "Message") = none :=
  ⟨⟨_, _, rfl, by decide⟩, rfl⟩

end Diffingo.Ast
