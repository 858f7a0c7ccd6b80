import Mathlib.Tactic.FinCases
import Mathlib.Tactic.IntervalCases
import Diffingo.Generation.ParsedModule

/-!
# Names find the innermost declaration

After the first three passes, a name that is looked up from an item of a declared unit means `$$`,
`self`, a parameter of the unit or a declaration of the module, the innermost of them, and `X::L` the
label of an enumeration or bit set (`lookup_finds_innermost`). `meaning` says this by the syntax
alone.
-/

namespace Diffingo.Names

open Traversal UnitScopeBuilder

/-- A name without `::`. -/
def Unscoped (name : String) : Prop := ∀ x l, name ≠ x ++ "::" ++ l

theorem unscoped_of_not_mem {name : String} (h : ':' ∉ name.toList) : Unscoped name := by
  rintro x l rfl
  apply h
  simp

namespace Parsed

/-- Unscoped and distinct names, and no type that is declared by a name. -/
structure WellNamed (m : Parsed) : Prop where
  unscoped : ∀ d ∈ m.declarations, ∀ id, (m.store.nodes d).declaredId = some id →
    ∃ name, id = [name] ∧ Unscoped name ∧ name ≠ "$$"
  distinct : ∀ d ∈ m.declarations, ∀ d' ∈ m.declarations, ∀ id,
    (m.store.nodes d).declaredId = some id → (m.store.nodes d').declaredId = some id → d = d'
  own : ∀ d ∈ m.declarations, ∀ t, (m.store.nodes d).declaredType = some t →
    ∀ id, m.store.nodes t ≠ .unknownType id
  params : ∀ d ∈ m.declarations, ∀ t params items, (m.store.nodes d).declaredType = some t →
    m.store.nodes t = .unit params items →
      (params.map Prod.fst).Nodup ∧ ∀ p ∈ params, p.1 ≠ "self" ∧ p.1 ≠ "$$" ∧ Unscoped p.1
  labels : ∀ d ∈ m.declarations, ∀ t labels, (m.store.nodes d).declaredType = some t →
    m.store.nodes t = .labelled labels → labels.Nodup ∧ "$$" ∉ labels

/-- The module before any pass. -/
def world (m : Parsed) : World := ⟨m.store, fun _ => none⟩

theorem world_scopes_root (m : Parsed) : m.world.scopes m.root = {} := by
  simp [world, World.scopes, scopesOf, m.root_node, Node.created]

/-- The first three passes, with the errors of the second. -/
def prepare (m : Parsed) (lookup : Lookup Node) (fuel : Nat) : Option (World × List String) := do
  let m := m.addBuiltins
  let w := ScopeBuilder.run m.root m.declarations m.world
  let r ← IdResolver.run lookup fuel false m.root w
  let w ← UnitScopeBuilder.run fuel m.root m.declarations ⟨r.store, w.written⟩
  return (w, r.errors)

/-- The declaration of a name. -/
def declared (m : Parsed) (name : String) : Option Nat :=
  m.declarations.find? fun d => (m.store.nodes d).declaredId = some [name]

/-- The enumeration or bit set of a name, with its labels. -/
def labelledType (m : Parsed) (name : String) : Option (Nat × List String) := do
  let t ← (m.store.nodes (← m.declared name)).declaredType
  match m.store.nodes t with
  | .labelled labels => some (t, labels)
  | _ => none

end Parsed

/-- What a name can stand for in an item. -/
inductive Meaning
  | dollarDollar
  | self
  | parameter (name : String)
  | declaration (d : Nat)
  | label (t : Nat) (label : String)
  deriving DecidableEq

/-- The meaning of a name in an item of a unit with these parameters. -/
def Parsed.meaning (m : Parsed) (params : List (String × Nat)) : Path → Option Meaning
  | [name] =>
    if name = "$$" then some .dollarDollar
    else if name = "self" then some .self
    else if name ∈ params.map Prod.fst then some (.parameter name)
    else (m.declared name).map .declaration
  | [x, l] => do
    let (t, labels) ← m.labelledType x
    if l ∈ labels then some (.label t l) else none
  | _ => none

/-- The value `v` is what is meant, in the item `i` of the unit `t`. -/
def Stands (m : Parsed) (w : World) (params : List (String × Nat)) (t i v : Nat) : Meaning → Prop
  | .dollarDollar => (w.scopes (w.store.pointee i)).values "$$" = [v] ∧
      ∃ type, Holds w.store v (.parserState .dollarDollar none t type)
  | .self => Holds w.store v (.parserState .self none t (.cell t))
  | .parameter name => ∃ type, (name, type) ∈ params ∧
      Holds w.store v (.parserState .parameter (some name) t (.cell type))
  | .declaration d => Binds w.store v (m.store.nodes d)
  | .label t' l => Holds w.store v (.labelExpr t' l)

/-- The values are the one that is meant, or none. -/
def Answers (m : Parsed) (w : World) (params : List (String × Nat)) (t i : Nat) (vals : List Nat) :
    Option Meaning → Prop
  | none => vals = []
  | some meaning => ∃ v, vals = [v] ∧ Stands m w params t i v meaning

/-! ## Built-in names -/

namespace Parsed

theorem declare_declaredId {m : Parsed} {k : Nat} {n : NewDeclaration} {d : Nat}
    (hd : d ∈ (m.declare k n).declarations) {id : Path}
    (hid : ((m.declare k n).store.nodes d).declaredId = some id) :
    d = m.store.size + 1 ∧ id = [n.name] ∨
      d ∈ m.declarations ∧ (m.store.nodes d).declaredId = some id := by
  obtain rfl | hd := mem_declarationsWith.mp hd
  · left
    have hnode : (m.declare k n).store.nodes (m.store.size + 1) = n.declaration m.store.size :=
      storeWith_declaration
    rw [hnode, n.declaredId_declaration] at hid
    exact ⟨rfl, (Option.some.inj hid).symm⟩
  · right
    refine ⟨hd, ?_⟩
    have hnode := storeWith_old (k := k) (n := n) (declarations_lt hd) (declaration_ne_root hd)
    rw [← hnode]
    exact hid

theorem declare_declaredType {m : Parsed} {k : Nat} {n : NewDeclaration} {d t : Nat}
    (hd : d ∈ (m.declare k n).declarations)
    (ht : ((m.declare k n).store.nodes d).declaredType = some t) :
    (m.declare k n).store.nodes t = n.node ∨
      d ∈ m.declarations ∧ (m.store.nodes d).declaredType = some t ∧
        (m.declare k n).store.nodes t = m.store.nodes t := by
  obtain rfl | hd := mem_declarationsWith.mp hd
  · left
    have hnode : (m.declare k n).store.nodes (m.store.size + 1) = n.declaration m.store.size :=
      storeWith_declaration
    rw [hnode] at ht
    obtain ⟨rfl, -⟩ := n.declaredType_declaration ht
    exact storeWith_node
  · right
    obtain ⟨hnode, htype⟩ := storeWith_declared hd ht
    exact ⟨hd, hnode ▸ ht, htype⟩

/-- A new declaration under a new name, other than one by a name. -/
theorem WellNamed.declare {m : Parsed} (hm : m.WellNamed) {k : Nat} {n : NewDeclaration}
    (hname : Unscoped n.name ∧ n.name ≠ "$$") (hown : ∀ id, n.node ≠ .unknownType id)
    (hlabels : ∀ labels, n.node = .labelled labels → labels.Nodup ∧ "$$" ∉ labels)
    (hfresh : ∀ d ∈ m.declarations, (m.store.nodes d).declaredId ≠ some [n.name]) :
    (m.declare k n).WellNamed where
  unscoped d hd id hid := by
    obtain ⟨-, rfl⟩ | ⟨hd, hid⟩ := declare_declaredId hd hid
    · exact ⟨n.name, rfl, hname⟩
    · exact hm.unscoped d hd id hid
  distinct d hd d' hd' id hid hid' := by
    obtain ⟨rfl, rfl⟩ | ⟨hd, hid⟩ := declare_declaredId hd hid
    · obtain ⟨rfl, -⟩ | ⟨hd', hid'⟩ := declare_declaredId hd' hid'
      · rfl
      · exact absurd hid' (hfresh d' hd')
    · obtain ⟨rfl, rfl⟩ | ⟨hd', hid'⟩ := declare_declaredId hd' hid'
      · exact absurd hid (hfresh d hd)
      · exact hm.distinct d hd d' hd' id hid hid'
  own d hd t ht id := by
    obtain h | ⟨hd, ht, h⟩ := declare_declaredType hd ht
    · rw [h]
      exact hown id
    · rw [h]
      exact hm.own d hd t ht id
  params d hd t params items ht hunit := by
    obtain h | ⟨hd, ht, h⟩ := declare_declaredType hd ht
    · exact absurd (h.symm.trans hunit) (n.node_ne_unit params items)
    · exact hm.params d hd t params items ht (h.symm.trans hunit)
  labels d hd t labels ht hlabelled := by
    obtain h | ⟨hd, ht, h⟩ := declare_declaredType hd ht
    · exact hlabels labels (h.symm.trans hlabelled)
    · exact hm.labels d hd t labels ht (h.symm.trans hlabelled)

/-- A declaration by more than a name, under a name that may be declared. -/
structure Fit (n : NewDeclaration) : Prop where
  name : Unscoped n.name ∧ n.name ≠ "$$"
  own : ∀ id, n.node ≠ .unknownType id
  labels : ∀ labels, n.node = .labelled labels → labels.Nodup ∧ "$$" ∉ labels

theorem WellNamed.append {m : Parsed} (hm : m.WellNamed) {ns : List NewDeclaration}
    (hns : ∀ n ∈ ns, Fit n) (hnodup : (ns.map NewDeclaration.name).Nodup)
    (hfresh : ∀ n ∈ ns, ∀ d ∈ m.declarations, (m.store.nodes d).declaredId ≠ some [n.name]) :
    (m.append ns).WellNamed := by
  induction ns generalizing m with
  | nil => exact hm
  | cons n ns ih =>
    obtain ⟨hn, hns⟩ := List.forall_mem_cons.mp hns
    obtain ⟨hnot, hnodup⟩ := List.nodup_cons.mp hnodup
    obtain ⟨hfreshn, hfresh⟩ := List.forall_mem_cons.mp hfresh
    refine ih (hm.declare hn.name hn.own hn.labels hfreshn) hns hnodup fun n' hn' d hd hid => ?_
    obtain ⟨-, heq⟩ | ⟨hd, hid⟩ := declare_declaredId hd hid
    · exact hnot (List.mem_map.mpr ⟨n', hn', (List.cons.inj heq).1⟩)
    · exact hfresh n' hn' d hd hid

theorem fit_builtins : ∀ n ∈ builtins, Fit n := by
  intro n hn
  have hname : Unscoped n.name ∧ n.name ≠ "$$" := by
    refine ⟨unscoped_of_not_mem ?_, ?_⟩
    · revert n
      decide
    · revert n
      decide
  refine ⟨hname, fun id => ?_, fun labels hlabels => ?_⟩
  · cases n with
    | typeAlias name target => simp [builtins] at hn
    | _ => simp [NewDeclaration.node]
  · cases n with
    | labelled name labels' =>
      obtain ⟨rfl, rfl⟩ : name = "ByteOrder" ∧ labels' = ["UNDEF", "big", "little"] := by
        simpa [builtins] using hn
      cases hlabels
      decide
    | _ => cases hlabels

/-- Names that are not built in can be declared beside the built-in ones. -/
theorem WellNamed.addBuiltins {m : Parsed} (hm : m.WellNamed)
    (hfresh : ∀ n ∈ builtins, ∀ d ∈ m.declarations,
      (m.store.nodes d).declaredId ≠ some [n.name]) : m.addBuiltins.WellNamed :=
  hm.append fit_builtins (by decide) hfresh

/-- A declaration stays when others are added. -/
theorem append_declared {m : Parsed} (ns : List NewDeclaration) {d t : Nat}
    (hd : d ∈ m.declarations) (ht : (m.store.nodes d).declaredType = some t) :
    d ∈ (m.append ns).declarations ∧ (m.append ns).store.nodes d = m.store.nodes d ∧
      (m.append ns).store.nodes t = m.store.nodes t := by
  induction ns generalizing m with
  | nil => exact ⟨hd, rfl, rfl⟩
  | cons n ns ih =>
    have hnode : (m.declare m.declarations.length n).store.nodes d = m.store.nodes d :=
      storeWith_old (declarations_lt hd) (declaration_ne_root hd)
    have htype : (m.declare m.declarations.length n).store.nodes t = m.store.nodes t :=
      storeWith_old (type_lt hd ht) (type_ne_root hd ht)
    obtain ⟨hmem, hd', ht'⟩ := ih (m := m.declare m.declarations.length n)
      (mem_declarationsWith.mpr (.inr hd)) (hnode ▸ ht)
    exact ⟨hmem, hd'.trans hnode, ht'.trans htype⟩

end Parsed

/-! ## The three passes -/

theorem Holds.resolves {s t : Store Node} {c : Nat} {n : Node} (h : Holds s c n)
    (hr : Resolves s t) (hn : n.isUnresolved = false) : Holds t c n where
  lt := h.lt.trans_le hr.size_le
  pointee := (hr.kept c h.lt (by rw [h.node, hn])).trans h.pointee
  nodes := (hr.nodes c h.lt).trans h.nodes

theorem Binds.resolves {s t : Store Node} {v : Nat} {n : Node} (h : Binds s v n)
    (hr : Resolves s t) : Binds t v n := by
  cases n <;> first | exact h.elim | exact h | exact Holds.resolves h hr rfl

/-- The worlds after the first pass and after the third, and the tree after the second. -/
structure Prepared (m : Parsed) (fuel : Nat) (w₁ : World) (s : Store Node) (w : World) : Prop where
  named : m.WellNamed
  scopes : w₁ = ScopeBuilder.run m.root m.declarations m.world
  names : Resolves w₁.store s
  units : UnitScopeBuilder.run fuel m.root m.declarations ⟨s, w₁.written⟩ = some w

namespace Prepared

variable {m : Parsed} {fuel : Nat} {w₁ w : World} {s : Store Node}

theorem enlarges (h : Prepared m fuel w₁ s w) :
    ScopeBuilder.Enlarges m.root m.declarations m.world w₁ := by
  rw [h.scopes]
  exact ScopeBuilder.run_enlarges m.declares

theorem grows (h : Prepared m fuel w₁ s w) : Grows m.store w₁.store := h.enlarges.touches.grows

theorem intact (h : Prepared m fuel w₁ s w) : Intact w₁.store := by
  intro c hc
  by_cases hold : c < m.store.size
  · rw [h.grows.pointee c hold, m.intact c hold]
  · exact h.grows.fresh c hc (not_lt.mp hold)

/-- A node of the module that is no name is still there before the last pass. -/
theorem holds (h : Prepared m fuel w₁ s w) {c : Nat} (hc : c < m.store.size)
    (hn : (m.store.nodes c).isUnresolved = false) : Holds s c (m.store.nodes c) :=
  ((Parsed.holds hc).grows h.grows).resolves h.names hn

theorem holds_declaration (h : Prepared m fuel w₁ s w) {d : Nat} (hd : d ∈ m.declarations)
    {t : Nat} (ht : (m.store.nodes d).declaredType = some t) :
    Holds s d (m.store.nodes d) ∧ Holds s t (m.store.nodes t) := by
  obtain ⟨id, hnode⟩ := Node.declaredType_eq_some ht
  constructor
  · apply h.holds (Parsed.declarations_lt hd)
    rw [hnode]
    rfl
  · apply h.holds (Parsed.type_lt hd ht)
    have htype := m.type_node d hd t ht
    have hown := h.named.own d hd t ht
    cases hn : m.store.nodes t with
    | unknownType id => exact absurd hn (hown id)
    | unit | labelled | listType | regExp | type => rfl
    | _ =>
      rw [hn] at htype
      cases htype

/-- An item is still there, or has a new node. -/
theorem item_cases (h : Prepared m fuel w₁ s w) {c : Nat} (hc : m.IsItem c) :
    (s.pointee c = c ∧ s.node c = m.store.nodes c) ∨
      (m.store.nodes c).isUnknownField ∧ w₁.store.size ≤ s.pointee c ∧ s.pointee c < s.size ∧
        ∃ id type parent cs, s.node c = .item id type parent [] cs := by
  have hholds := (Parsed.holds hc.1).grows h.grows
  by_cases hun : (m.store.nodes c).isUnresolved
  · have hfield : (m.store.nodes c).isUnknownField := by
      have hitem := hc.2
      cases hn : m.store.nodes c with
      | unknownField => rfl
      | item =>
        rw [hn] at hun
        cases hun
      | _ =>
        rw [hn] at hitem
        cases hitem
    obtain ⟨id, parent, path, as, ps, ss, hn⟩ := Node.isUnknownField_iff.mp hfield
    obtain hp | ⟨hle, hlt, type, cs, hnode⟩ := h.names.field c hholds.lt id parent path as ps ss
      (hholds.node.trans hn)
    · left
      have hp : s.pointee c = c := hp.trans hholds.pointee
      refine ⟨hp, ?_⟩
      rw [Store.node, hp, h.names.nodes c hholds.lt, hholds.nodes]
    · exact .inr ⟨hfield, hle, hlt, id, type, parent, cs, hnode⟩
  · have hkept := hholds.resolves h.names ((Bool.not_eq_true _).mp hun)
    exact .inl ⟨hkept.pointee, hkept.node⟩

theorem item_node_cases (h : Prepared m fuel w₁ s w) {c : Nat} (hc : m.IsItem c) :
    (s.node c).cases = (m.store.node c).cases := by
  rw [(Parsed.holds hc.1).node]
  obtain ⟨-, hnode⟩ | ⟨hfield, -, -, id, type, parent, cs, hnode⟩ := h.item_cases hc
  · rw [hnode]
  · obtain ⟨_, _, _, _, _, _, hn⟩ := Node.isUnknownField_iff.mp hfield
    rw [hnode, hn]
    rfl

/-- The resolver changes nothing about the declared units. -/
theorem unitOf_iff (h : Prepared m fuel w₁ s w) {d t : Nat} (hd : d ∈ m.declarations)
    {params : List (String × Nat)} {is : List Nat} :
    UnitOf s fuel d t params is ↔ UnitOf m.store fuel d t params is := by
  have hnodes : s.nodes d = m.store.nodes d := by
    rw [h.names.nodes d ((Parsed.declarations_lt hd).trans_le h.grows.size_le),
      h.grows.nodes d (Parsed.declarations_lt hd)]
  unfold UnitOf
  rw [hnodes]
  refine exists_congr fun items => and_congr_right fun ht => ?_
  have htlt := Parsed.type_lt hd ht
  rw [h.names.nodes t (htlt.trans_le h.grows.size_le), h.grows.nodes t htlt]
  refine and_congr_right fun hunit => ?_
  rw [flattenedItems_congr (fun c hc i hi => Parsed.isItem_of_cases hc hi)
    (fun c hc => h.item_node_cases hc) fuel fun i hi => Parsed.isItem_of_items htlt hunit hi]

theorem nodes_eq (h : Prepared m fuel w₁ s w) {a : Nat} (ha : a < m.store.size) :
    s.nodes a = m.store.nodes a := by
  rw [h.names.nodes a (ha.trans_le h.grows.size_le), h.grows.nodes a ha]

theorem pointee_lt (h : Prepared m fuel w₁ s w) {c : Nat} (hc : m.IsItem c) :
    c < s.size ∧ s.pointee c < s.size := by
  have hlt : c < s.size := hc.1.trans_le (h.grows.size_le.trans h.names.size_le)
  obtain ⟨hp, -⟩ | ⟨-, -, hp, -⟩ := h.item_cases hc
  · exact ⟨hlt, hp.symm ▸ hlt⟩
  · exact ⟨hlt, hp⟩

/-- The nodes of items are no nodes of other kinds. -/
theorem item_apart (h : Prepared m fuel w₁ s w) {c a : Nat} (hc : m.IsItem c)
    (ha : a < m.store.size) (hn : (m.store.nodes a).isItem = false) : s.pointee c ≠ a := by
  rintro rfl
  obtain ⟨hp, -⟩ | ⟨-, hle, -⟩ := h.item_cases hc
  · rw [hp, hc.2] at hn
    cases hn
  · exact absurd (hle.trans_lt ha) (not_lt.mpr h.grows.size_le)

theorem item_injective (h : Prepared m fuel w₁ s w) {c c' : Nat} (hc : m.IsItem c)
    (hc' : m.IsItem c') (heq : s.pointee c = s.pointee c') : c = c' := by
  have hlt := hc.1.trans_le h.grows.size_le
  have hlt' := hc'.1.trans_le h.grows.size_le
  obtain ⟨hp, -⟩ | ⟨hfield, hle, -⟩ := h.item_cases hc
  · obtain ⟨hp', -⟩ | ⟨-, hle', -⟩ := h.item_cases hc'
    · rw [← hp, heq, hp']
    · omega
  · obtain ⟨hp', -⟩ | ⟨hfield', -⟩ := h.item_cases hc'
    · omega
    · by_contra hne
      refine h.names.distinct c hlt c' hlt' hne ?_ ?_ hle heq
      · rw [((Parsed.holds hc.1).grows h.grows).node]
        exact hfield
      · rw [((Parsed.holds hc'.1).grows h.grows).node]
        exact hfield'

theorem toUnits (h : Prepared m fuel w₁ s w) : Units s fuel m.declarations m.IsItem := by
  have hnodes : ∀ d ∈ m.declarations, s.nodes d = m.store.nodes d := fun d hd =>
    h.nodes_eq (Parsed.declarations_lt hd)
  refine ⟨m.declarations_nodup, fun d hd => ?_, fun d hd t ht => ?_, fun d hd d' hd' t ht ht' => ?_,
    fun d hd t params items ht hunit => ?_, fun d hd t params items ht hunit i hi => ?_,
    fun c hc i hi => ?_, fun c hc => h.pointee_lt hc, fun c hc d hd ht => ?_,
    fun c c' hc hc' => h.item_injective hc hc', fun d hd t params is hu => ?_,
    fun d hd d' hd' hne t params is t' params' is' hu hu' => ?_⟩
  · rw [hnodes d hd]
    exact h.holds (Parsed.declarations_lt hd)
      (Node.isUnresolved_of_isDeclaration (m.declaration_node d hd))
  · rw [hnodes d hd] at ht
    rw [h.nodes_eq (Parsed.type_lt hd ht)]
    exact (h.holds_declaration hd ht).2
  · rw [hnodes d hd] at ht
    rw [hnodes d' hd'] at ht'
    exact m.types_unique d hd d' hd' t ht ht'
  · rw [hnodes d hd] at ht
    rw [h.nodes_eq (Parsed.type_lt hd ht)] at hunit
    obtain ⟨hnodup, hnames⟩ := h.named.params d hd t params items ht hunit
    refine ⟨fun hself => ?_, hnodup⟩
    obtain ⟨p, hp, heq⟩ := List.mem_map.mp hself
    exact (hnames p hp).1 heq
  · rw [hnodes d hd] at ht
    rw [h.nodes_eq (Parsed.type_lt hd ht)] at hunit
    exact Parsed.isItem_of_items (Parsed.type_lt hd ht) hunit hi
  · rw [h.item_node_cases hc] at hi
    exact Parsed.isItem_of_cases hc hi
  · rw [hnodes d hd] at ht
    have htype := m.type_node d hd _ ht
    refine h.item_apart hc (Parsed.type_lt hd ht) ?_ rfl
    cases hn : m.store.nodes (s.pointee c) with
    | item | unknownField =>
      rw [hn] at htype
      cases htype
    | _ => rfl
  · exact m.items_once fuel d hd t params is ((h.unitOf_iff hd).mp hu)
  · exact m.items_disjoint fuel d hd d' hd' hne t params is t' params' is'
      ((h.unitOf_iff hd).mp hu) ((h.unitOf_iff hd').mp hu')

theorem touches (h : Prepared m fuel w₁ s w) :
    Touches (fun a => ∃ e ∈ m.declarations, Owned s fuel e a) ⟨s, w₁.written⟩ w :=
  h.toUnits.run_touches (.refl s) (fun _ he => he) h.units

theorem fills (h : Prepared m fuel w₁ s w) {d t : Nat} {params : List (String × Nat)} {is : List Nat}
    (hd : d ∈ m.declarations) (hu : UnitOf m.store fuel d t params is) :
    FillsUnit m.root t params is ⟨s, w₁.written⟩ w :=
  h.toUnits.run_fills (.refl s) h.units hd ((h.unitOf_iff hd).mpr hu)

/-- Before the last pass, only the module, enumerations and bit sets have names. -/
theorem unnamed (h : Prepared m fuel w₁ s w) {a : Nat} (hroot : a ≠ m.root)
    (hlabelled : a < m.store.size → ∀ labels, m.store.nodes a ≠ .labelled labels) (name : String) :
    (World.scopes ⟨s, w₁.written⟩ a).values name = [] ∧
      (World.scopes ⟨s, w₁.written⟩ a).children name = none := by
  have hnew : w₁.written a = none := by
    refine h.enlarges.touches.written a ?_
    rintro (heq | ⟨d, hd, ht, labels, hlabels⟩)
    · exact hroot heq
    · exact hlabelled (Parsed.type_lt hd ht) labels hlabels
  rw [World.scopes, scopesOf, hnew, Option.getD_none]
  cases s.nodes a <;> exact ⟨rfl, rfl⟩

theorem unit_unnamed (h : Prepared m fuel w₁ s w) {d t : Nat} {params : List (String × Nat)}
    {is : List Nat} (hd : d ∈ m.declarations) (hu : UnitOf m.store fuel d t params is)
    (name : String) : (World.scopes ⟨s, w₁.written⟩ t).values name = [] ∧
      (World.scopes ⟨s, w₁.written⟩ t).children name = none := by
  obtain ⟨items, ht, hunit, -⟩ := hu
  refine h.unnamed (Parsed.type_ne_root hd ht) (fun _ labels hlabels => ?_) name
  cases hunit.symm.trans hlabels

theorem item_unnamed (h : Prepared m fuel w₁ s w) {c : Nat} (hc : m.IsItem c) (name : String) :
    (World.scopes ⟨s, w₁.written⟩ (s.pointee c)).values name = [] ∧
      (World.scopes ⟨s, w₁.written⟩ (s.pointee c)).children name = none := by
  refine h.unnamed (h.item_apart hc m.root_lt (by rw [m.root_node]; rfl)) ?_ name
  intro hlt labels hlabels
  exact h.item_apart hc hlt (by rw [hlabels]; rfl) rfl

/-- The last two passes leave the other scopes alone. -/
theorem stays (h : Prepared m fuel w₁ s w) {a : Nat} (ha : a < m.store.size)
    (hitem : (m.store.nodes a).isItem = false)
    (hunit : ∀ params items, m.store.nodes a ≠ .unit params items) :
    w.scopes a = w₁.scopes a := by
  have hlt := ha.trans_le h.grows.size_le
  have hscope : w.scopes a = World.scopes ⟨s, w₁.written⟩ a := by
    refine h.touches.scopes (hlt.trans_le h.names.size_le) ?_
    rintro ⟨e, he, t, params, is, hu, rfl | ⟨i, hi, rfl⟩⟩
    · obtain ⟨items, -, hnode, -⟩ := (h.unitOf_iff he).mp hu
      exact hunit params items hnode
    · exact h.item_apart (h.toUnits.mem he hu i hi) ha hitem rfl
  rw [hscope, World.scopes, World.scopes, scopesOf, scopesOf, h.names.nodes a hlt]

/-! ### The scope of the module -/

theorem module_stays (h : Prepared m fuel w₁ s w) : w.scopes m.root = w₁.scopes m.root :=
  h.stays m.root_lt (by rw [m.root_node]; rfl) (by rw [m.root_node]; exact fun _ _ h => nomatch h)

/-- Values from the first pass are still there in the end. -/
theorem kept (h : Prepared m fuel w₁ s w) {v : Nat} {n : Node} (hv : Holds w₁.store v n)
    (hn : n.isUnresolved = false) : Holds w.store v n :=
  (hv.resolves h.names hn).grows h.touches.grows

end Prepared

namespace Parsed

variable {m : Parsed}

theorem declared_eq_some {name : String} {d : Nat} (h : m.declared name = some d) :
    d ∈ m.declarations ∧ (m.store.nodes d).declaredId = some [name] :=
  ⟨List.mem_of_find?_eq_some h, by simpa using List.find?_some h⟩

theorem declared_eq_none {name : String} (h : m.declared name = none) {d : Nat}
    (hd : d ∈ m.declarations) : (m.store.nodes d).declaredId ≠ some [name] := by
  intro hid
  exact List.find?_eq_none.mp h d hd (by simpa using hid)

theorem WellNamed.declares_iff (hm : m.WellNamed) {d : Nat} (hd : d ∈ m.declarations)
    {name : String} :
    (m.store.nodes d).declares name ↔ (m.store.nodes d).declaredId = some [name] := by
  constructor
  · rintro ⟨id, hid, rfl⟩
    obtain ⟨name, rfl, -⟩ := hm.unscoped d hd id hid
    simpa [Path.pathAsString] using hid
  · exact fun hid => ⟨[name], hid, by simp [Path.pathAsString]⟩

/-- A name is declared once. -/
theorem WellNamed.declares_once (hm : m.WellNamed) {name : String} {d : Nat}
    (h : m.declared name = some d) :
    ∀ e ∈ m.declarations, e ≠ d → ¬ (m.store.nodes e).declares (Path.pathAsString [name]) := by
  obtain ⟨hd, hid⟩ := declared_eq_some h
  have hname : Path.pathAsString [name] = name := by simp [Path.pathAsString]
  intro e he hne hdeclares
  rw [hname, hm.declares_iff he] at hdeclares
  exact hne (hm.distinct e he d hd [name] hdeclares hid)

theorem WellNamed.not_declares_scoped (hm : m.WellNamed) {x l : String} :
    ∀ d ∈ m.declarations, ¬ (m.store.nodes d).declares (x ++ "::" ++ l) := by
  intro d hd hdeclares
  obtain ⟨name, heq, hname, -⟩ := hm.unscoped d hd _ ((hm.declares_iff hd).mp hdeclares)
  exact hname x l (List.cons.inj heq).1.symm

end Parsed

namespace Prepared

/-- The values of a name in the module. -/
theorem module_values (h : Prepared m fuel w₁ s w) (name : String) :
    m.declared name = none ∧ (w.scopes m.root).values name = [] ∨
      ∃ d v, m.declared name = some d ∧ (w.scopes m.root).values name = [v] ∧
        Binds w.store v (m.store.nodes d) := by
  rw [h.module_stays]
  cases hdecl : m.declared name with
  | none =>
    refine .inl ⟨rfl, ?_⟩
    rw [(h.enlarges.others name fun d hd hname => ?_).1, m.world_scopes_root]
    exact Parsed.declared_eq_none hdecl hd ((h.named.declares_iff hd).mp hname)
  | some d =>
    obtain ⟨hd, hid⟩ := Parsed.declared_eq_some hdecl
    have hname : Path.pathAsString [name] = name := by simp [Path.pathAsString]
    obtain ⟨v, hv, hvalues⟩ := ScopeBuilder.run_binds (w := m.world) m.declares hd hid
      (h.named.declares_once hdecl)
    rw [← h.scopes] at hv hvalues
    rw [hname, m.world_scopes_root] at hvalues
    exact .inr ⟨d, v, rfl, hvalues, (hv.resolves h.names).grows h.touches.grows⟩

/-- An enumeration or a bit set is nested in the module under its name, with its labels, and no other
scope is. -/
theorem module_children (h : Prepared m fuel w₁ s w) (x : String) :
    (m.labelledType x = none ∧ (w.scopes m.root).children x = none) ∨
      ∃ t labels, m.labelledType x = some (t, labels) ∧
        (w.scopes m.root).children x = some t ∧ HasLabels w t labels := by
  rw [h.module_stays]
  have hx : Path.pathAsString [x] = x := by simp [Path.pathAsString]
  cases hdecl : m.declared x with
  | none =>
    refine .inl ⟨by simp [Parsed.labelledType, hdecl], ?_⟩
    rw [(h.enlarges.others x fun d hd hname => ?_).2, m.world_scopes_root]
    exact Parsed.declared_eq_none hdecl hd ((h.named.declares_iff hd).mp hname)
  | some d =>
    obtain ⟨hd, hid⟩ := Parsed.declared_eq_some hdecl
    have honce := h.named.declares_once hdecl
    by_cases hlabelled : ∃ t labels, (m.store.nodes d).declaredType = some t ∧
        m.store.nodes t = .labelled labels
    · obtain ⟨t, labels, ht, hlabels⟩ := hlabelled
      refine .inr ⟨t, labels, by simp [Parsed.labelledType, hdecl, ht, hlabels], ?_⟩
      obtain ⟨id, hnode⟩ := Node.declaredType_eq_some ht
      obtain rfl : id = [x] := by
        rw [hnode] at hid
        exact Option.some.inj hid
      obtain ⟨⟨hin, hout⟩, hchild⟩ := ScopeBuilder.run_labelled (w := m.world) m.declares hd hnode
        honce hlabels (h.named.labels d hd t labels ht hlabels).1 rfl (by rw [m.world_scopes_root])
      rw [← h.scopes] at hin hout hchild
      rw [hx] at hchild
      have hstays : w.scopes t = w₁.scopes t := by
        refine h.stays (Parsed.type_lt hd ht) ?_ ?_
        · rw [hlabels]
          rfl
        · rw [hlabels]
          intro _ _ heq
          cases heq
      refine ⟨hchild, fun l hl => ?_, fun l hl => ?_⟩
      · obtain ⟨v, hv, hholds⟩ := hin l hl
        exact ⟨v, hstays ▸ hv, h.kept hholds rfl⟩
      · exact hstays ▸ hout l hl
    · left
      constructor
      · cases ht : (m.store.nodes d).declaredType with
        | none => simp [Parsed.labelledType, hdecl, ht]
        | some t =>
          simp only [Parsed.labelledType, hdecl, ht, Option.bind_eq_bind, Option.bind_some]
          split
          · next labels hlabels => exact absurd ⟨t, labels, ht, hlabels⟩ hlabelled
          · rfl
      · have hplain : ∀ e ∈ m.declarations, (m.store.nodes e).declares x → ∀ t labels,
            (m.store.nodes e).declaredType = some t → m.store.nodes t ≠ .labelled labels := by
          intro e he hname t labels ht hlabels
          obtain rfl := h.named.distinct e he d hd [x] ((h.named.declares_iff he).mp hname) hid
          exact hlabelled ⟨t, labels, ht, hlabels⟩
        have hchildren := ScopeBuilder.run_unlabelled (w := m.world) m.declares hplain
        rw [← h.scopes] at hchildren
        rw [hchildren, m.world_scopes_root]

theorem module_parent (h : Prepared m fuel w₁ s w) : (w.scopes m.root).parent = none := by
  rw [h.module_stays, h.enlarges.parent, m.world_scopes_root]

theorem module_find_pair (h : Prepared m fuel w₁ s w) (x l : String) :
    w.scopes.find m.root [x, l] =
      match (w.scopes m.root).children x with
      | some child => (w.scopes child).values l
      | none => [] := by
  obtain ⟨hvalues, hchildren⟩ := h.enlarges.others (x ++ "::" ++ l) h.named.not_declares_scoped
  rw [Scopes.find_pair, h.module_stays, hvalues, hchildren, m.world_scopes_root]
  cases (w₁.scopes m.root).children x <;> rfl

/-! ### The scopes of units and items -/

section Item

variable {d t i : Nat} {params : List (String × Nat)} {is : List Nat}

theorem unscoped_params (h : Prepared m fuel w₁ s w) (hd : d ∈ m.declarations)
    (hu : UnitOf m.store fuel d t params is) {x l : String} :
    x ++ "::" ++ l ≠ "self" ∧ x ++ "::" ++ l ∉ params.map Prod.fst := by
  constructor
  · exact fun heq => unscoped_of_not_mem (by decide) x l heq.symm
  · intro hmem
    obtain ⟨items, ht, hunit, -⟩ := hu
    obtain ⟨p, hp, heq⟩ := List.mem_map.mp hmem
    exact ((h.named.params d hd t params items ht hunit).2 p hp).2.2 x l heq

/-- Nothing in a unit has a scoped name but the `$$` of its items. -/
theorem unit_find_pair (h : Prepared m fuel w₁ s w) (hd : d ∈ m.declarations)
    (hu : UnitOf m.store fuel d t params is) {x l : String} (hl : l ≠ "$$") :
    w.scopes.find t [x, l] = [] := by
  have hfills := h.fills hd hu
  obtain ⟨hself, hparams⟩ := h.unscoped_params hd hu (x := x) (l := l)
  have hvalues : (w.scopes t).values (x ++ "::" ++ l) = [] :=
    (hfills.others _ hself hparams).trans (h.unit_unnamed hd hu _).1
  have hchild : ∀ k c, (w.scopes t).children k = some c → (w.scopes c).values l = [] := by
    intro k c hc
    obtain hold | ⟨i, hi, rfl⟩ := hfills.children k c hc
    · rw [(h.unit_unnamed hd hu k).2] at hold
      cases hold
    · rw [(hfills.items i hi).others l hl]
      exact (h.item_unnamed (h.toUnits.mem hd ((h.unitOf_iff hd).mpr hu) i hi) l).1
  rw [Scopes.find_pair, hvalues]
  cases (w.scopes t).children (x ++ "::" ++ l) with
  | some _ => rfl
  | none =>
    cases hx : (w.scopes t).children x with
    | none => rfl
    | some c => exact hchild x c hx

theorem item_find_pair (h : Prepared m fuel w₁ s w) (hd : d ∈ m.declarations)
    (hu : UnitOf m.store fuel d t params is) (hi : i ∈ is) (x l : String) :
    w.scopes.find (s.pointee i) [x, l] = [] := by
  have hitem := (h.fills hd hu).items i hi
  have hunnamed := h.item_unnamed (h.toUnits.mem hd ((h.unitOf_iff hd).mpr hu) i hi)
  have hne : x ++ "::" ++ l ≠ "$$" := fun heq => unscoped_of_not_mem (by decide) x l heq.symm
  have hchildren : ∀ k, (w.scopes (s.pointee i)).children k = none := by
    intro k
    rw [hitem.children]
    exact (hunnamed k).2
  have hvalues := (hitem.others _ hne).trans (hunnamed _).1
  rw [Scopes.find_pair, hvalues, hchildren, hchildren]

/-! ### Climbing from an item to the module -/

/-- A name that the item and the unit do not have is looked up in the module. -/
theorem lookup_climbs (h : Prepared m fuel w₁ s w) (hd : d ∈ m.declarations)
    (hu : UnitOf m.store fuel d t params is) (hi : i ∈ is) {path : Path}
    (hitem : w.scopes.find (s.pointee i) path = []) (hunit : w.scopes.find t path = []) (n : Nat) :
    w.scopes.lookup (n + 3) (s.pointee i) path = some (w.scopes.find m.root path) := by
  have hfills := h.fills hd hu
  rw [Scopes.lookup_parent hitem (hfills.items i hi).parent, Scopes.lookup_parent hunit hfills.parent,
    Scopes.lookup_top h.module_parent]

theorem item_find_single (h : Prepared m fuel w₁ s w) (hd : d ∈ m.declarations)
    (hu : UnitOf m.store fuel d t params is) (hi : i ∈ is) {name : String} (hname : name ≠ "$$") :
    w.scopes.find (s.pointee i) [name] = [] := by
  rw [Scopes.find_single, ((h.fills hd hu).items i hi).others name hname]
  exact (h.item_unnamed (h.toUnits.mem hd ((h.unitOf_iff hd).mpr hu) i hi) name).1

/-- The one value that a unit has for a name of its own. -/
theorem unit_find_adds (h : Prepared m fuel w₁ s w) (hd : d ∈ m.declarations)
    (hu : UnitOf m.store fuel d t params is) {name : String} {n : Node}
    (hadds : Adds ⟨s, w₁.written⟩ w t name n) :
    ∃ v, w.scopes.find t [name] = [v] ∧ Holds w.store v n := by
  obtain ⟨v, hv, hn⟩ := hadds
  rw [(h.unit_unnamed hd hu name).1, List.nil_append] at hv
  exact ⟨v, by rw [Scopes.find_single, hv], hn⟩

/-- A value of the unit hides what the module has under the name. -/
theorem lookup_unit (h : Prepared m fuel w₁ s w) (hd : d ∈ m.declarations)
    (hu : UnitOf m.store fuel d t params is) (hi : i ∈ is) {name : String} (hname : name ≠ "$$")
    {v : Nat} (hv : w.scopes.find t [name] = [v]) (n : Nat) :
    w.scopes.lookup (n + 3) (s.pointee i) [name] = some [v] := by
  rw [Scopes.lookup_parent (h.item_find_single hd hu hi hname) ((h.fills hd hu).items i hi).parent]
  exact Scopes.lookup_found hv

theorem lookup_single (h : Prepared m fuel w₁ s w) (hd : d ∈ m.declarations)
    (hu : UnitOf m.store fuel d t params is) (hi : i ∈ is) (name : String) (n : Nat) :
    ∃ vals, w.scopes.lookup (n + 3) (s.pointee i) [name] = some vals ∧
      Answers m w params t i vals (m.meaning params [name]) := by
  have hfills := h.fills hd hu
  have hitem : m.IsItem i := h.toUnits.mem hd ((h.unitOf_iff hd).mpr hu) i hi
  have hpointee : w.store.pointee i = s.pointee i := h.touches.grows.pointee i (h.pointee_lt hitem).1
  unfold Parsed.meaning
  dsimp only
  split
  · next heq =>
    -- the item's own value
    subst heq
    obtain ⟨type, v, hv, hn⟩ := (hfills.items i hi).adds
    rw [(h.item_unnamed hitem "$$").1, List.nil_append] at hv
    refine ⟨[v], Scopes.lookup_found (by rw [Scopes.find_single, hv]), v, rfl, ?_, type, hn⟩
    rw [hpointee]
    exact hv
  · next hname =>
    split
    · next heq =>
      subst heq
      obtain ⟨v, hv, hn⟩ := h.unit_find_adds hd hu hfills.self
      exact ⟨[v], h.lookup_unit hd hu hi hname hv n, v, rfl, hn⟩
    · next hself =>
      split
      · next hparam =>
        obtain ⟨⟨p, type⟩, hp, rfl⟩ := List.mem_map.mp hparam
        obtain ⟨v, hv, hn⟩ := h.unit_find_adds hd hu (hfills.parameters _ hp)
        exact ⟨[v], h.lookup_unit hd hu hi hname hv n, v, rfl, type, hp, hn⟩
      · next hparam =>
        -- what is left is the module
        have hunit : w.scopes.find t [name] = [] := by
          rw [Scopes.find_single, hfills.others name hself hparam]
          exact (h.unit_unnamed hd hu name).1
        refine ⟨_, h.lookup_climbs hd hu hi (h.item_find_single hd hu hi hname) hunit n, ?_⟩
        rw [Scopes.find_single]
        obtain ⟨hdecl, hv⟩ | ⟨e, v, hdecl, hv, hbinds⟩ := h.module_values name
        · rw [hdecl]
          exact hv
        · rw [hdecl, hv]
          exact ⟨v, rfl, hbinds⟩

theorem lookup_pair (h : Prepared m fuel w₁ s w) (hd : d ∈ m.declarations)
    (hu : UnitOf m.store fuel d t params is) (hi : i ∈ is) (x : String) {l : String} (hl : l ≠ "$$")
    (n : Nat) :
    ∃ vals, w.scopes.lookup (n + 3) (s.pointee i) [x, l] = some vals ∧
      Answers m w params t i vals (m.meaning params [x, l]) := by
  refine ⟨_, h.lookup_climbs hd hu hi (h.item_find_pair hd hu hi x l)
    (h.unit_find_pair hd hu hl) n, ?_⟩
  unfold Parsed.meaning
  dsimp only
  rw [h.module_find_pair]
  obtain ⟨htype, hchild⟩ | ⟨t', labels, htype, hchild, hin, hout⟩ := h.module_children x
  · rw [htype, hchild]
    exact rfl
  · rw [htype, hchild]
    by_cases hmem : l ∈ labels
    · obtain ⟨v, hv, hholds⟩ := hin l hmem
      simp only [Option.bind_eq_bind, Option.bind_some, if_pos hmem, hv]
      exact ⟨v, rfl, hholds⟩
    · simp only [Option.bind_eq_bind, Option.bind_some, if_neg hmem]
      exact hout l hmem

end Item

end Prepared

/-- The three passes as they follow each other. -/
theorem Parsed.prepared {m : Parsed} (hm : m.addBuiltins.WellNamed) {lookup : Lookup Node}
    {fuel : Nat} {w : World} {errors : List String} (h : m.prepare lookup fuel = some (w, errors)) :
    ∃ w₁ s, Prepared m.addBuiltins fuel w₁ s w := by
  obtain ⟨r, hr, h⟩ := Option.bind_eq_some_iff.mp h
  obtain ⟨w', hunits, h⟩ := Option.bind_eq_some_iff.mp h
  cases h
  refine ⟨_, r.store, hm, rfl, ?_, hunits⟩
  have henlarges := ScopeBuilder.run_enlarges (w := m.addBuiltins.world) m.addBuiltins.declares
  refine IdResolver.run_resolves (fun c hc => ?_) hr
  by_cases hold : c < m.addBuiltins.store.size
  · exact (henlarges.touches.grows.pointee c hold).trans (m.addBuiltins.intact c hold)
  · exact henlarges.touches.grows.fresh c hc (not_lt.mp hold)

/-- A lookup from an item finds what the name means there, and nothing else. -/
theorem lookup_finds_innermost (m : Parsed) (hm : m.WellNamed)
    (hbuiltin : ∀ n ∈ Parsed.builtins, ∀ d ∈ m.declarations,
      (m.store.nodes d).declaredId ≠ some [n.name])
    {lookup : Lookup Node} {fuel : Nat} {w : World} {errors : List String}
    (h : m.prepare lookup fuel = some (w, errors)) {d t i : Nat} {params : List (String × Nat)}
    {items is : List Nat} (hd : d ∈ m.declarations) (ht : (m.store.nodes d).declaredType = some t)
    (hunit : m.store.nodes t = .unit params items)
    (hflat : flattenedItems w.store fuel items = some is) (hi : i ∈ is) (path : Path)
    (hpath : (∃ name, path = [name]) ∨ ∃ x l, l ≠ "$$" ∧ path = [x, l]) (n : Nat) :
    ∃ vals, w.scopes.lookup (n + 3) (w.store.pointee i) path = some vals ∧
      Answers m.addBuiltins w params t i vals (m.addBuiltins.meaning params path) := by
  obtain ⟨w₁, s, hprep⟩ := Parsed.prepared (hm.addBuiltins hbuiltin) h
  obtain ⟨hd, hnode, htype⟩ := Parsed.append_declared Parsed.builtins hd ht
  rw [← hnode] at ht
  rw [← htype] at hunit
  have hu : UnitOf m.addBuiltins.store fuel d t params is := by
    have hty := (congrArg Node.declaredType (hprep.nodes_eq (Parsed.declarations_lt hd))).trans ht
    have hnode := (hprep.nodes_eq (Parsed.type_lt hd ht)).trans hunit
    refine (hprep.unitOf_iff hd).mp ⟨items, hty, hnode, ?_⟩
    rw [← hflat]
    exact (hprep.toUnits.flattenedItems_grows hd hty hnode hprep.touches.grows).symm
  have hitem := hprep.toUnits.mem hd ((hprep.unitOf_iff hd).mpr hu) i hi
  rw [hprep.touches.grows.pointee i (hprep.pointee_lt hitem).1]
  obtain ⟨name, rfl⟩ | ⟨x, l, hl, rfl⟩ := hpath
  · exact hprep.lookup_single hd hu hi name n
  · exact hprep.lookup_pair hd hu hi x hl n

/-- `type E = enum { L }` and `type U = unit(p : E) { a : uint8; switch (self) { … : b : E; } }`. -/
def switchTree : Store Node where
  size := 12
  pointee c := c
  nodes a := [.other [], .labelled ["UNDEF", "L"], .typeDecl ["E"] 1, .type [],
    .item "a" (some 3) none [] [], .unknownField "b" none ["E"] [] [] [],
    .item "" none none [[5]] [7], .id ["self"], .unit [("p", 9)] [4, 6], .unknownType (some ["E"]),
    .typeDecl ["U"] 8, .module "M" 0 [2, 10]].getD a (.other [])

theorem switchTree_items {fuel : Nat} {is : List Nat}
    (h : flattenedItems switchTree fuel [4, 6] = some is) : is = [4, 5, 6] := by
  match fuel with
  | 0 | 1 => cases h
  | fuel + 2 => exact (Option.some.inj h).symm

theorem switchTree_unitOf {fuel d t : Nat} {params : List (String × Nat)} {is : List Nat}
    (hd : d ∈ [2, 10]) (h : UnitOf switchTree fuel d t params is) : d = 10 ∧ is = [4, 5, 6] := by
  obtain ⟨items, ht, hunit, hflat⟩ := h
  obtain rfl | hd := List.mem_cons.mp hd
  · cases ht
    cases hunit
  · obtain rfl := List.mem_singleton.mp hd
    cases ht
    cases hunit
    exact ⟨rfl, switchTree_items hflat⟩

def switchModule : Parsed where
  store := switchTree
  root := 11
  name := "M"
  properties := 0
  declarations := [2, 10]
  root_lt := by decide
  root_node := rfl
  intact _ _ := rfl
  children_lt := by decide
  declarations_nodup := by decide
  declaration_node := by decide
  type_node d hd t ht := by
    fin_cases hd <;> cases ht <;> rfl
  types_unique d hd d' hd' t ht ht' := by
    fin_cases hd <;> fin_cases hd' <;> cases ht <;> cases ht' <;> rfl
  unit_items a ha params items hunit := by
    have ha : a < 12 := ha
    interval_cases a <;> cases hunit
    decide
  case_items := by decide
  items_once fuel d hd t params is hu := by
    rw [(switchTree_unitOf hd hu).2]
    decide
  items_disjoint fuel d hd d' hd' hne t params is t' params' is' hu hu' :=
    absurd ((switchTree_unitOf hd hu).1.trans (switchTree_unitOf hd' hu').1.symm) hne

theorem switchModule_wellNamed : switchModule.WellNamed where
  unscoped d hd id hid := by
    fin_cases hd <;> cases hid
    · exact ⟨"E", rfl, unscoped_of_not_mem (by decide), by decide⟩
    · exact ⟨"U", rfl, unscoped_of_not_mem (by decide), by decide⟩
  distinct d hd d' hd' id hid hid' := by
    have hall : ∀ d ∈ [2, 10], ∀ d' ∈ [2, 10],
        (switchTree.nodes d).declaredId = (switchTree.nodes d').declaredId → d = d' := by
      decide
    exact hall d hd d' hd' (hid.trans hid'.symm)
  own d hd t ht id := by
    fin_cases hd <;> cases ht <;> exact fun h => nomatch h
  params d hd t params items ht hunit := by
    fin_cases hd <;> cases ht <;> cases hunit
    refine ⟨by decide, fun p hp => ?_⟩
    obtain rfl := List.mem_singleton.mp hp
    exact ⟨by decide, by decide, unscoped_of_not_mem (by decide)⟩
  labels d hd t labels ht hlabels := by
    fin_cases hd <;> cases ht <;> cases hlabels
    decide

theorem lookup_finds_innermost_in_case : ∃ w errors vals,
    switchModule.prepare .exact 20 = some (w, errors) ∧
      w.scopes.lookup 3 (w.store.pointee 5) ["E", "L"] = some vals ∧
      Answers switchModule.addBuiltins w [("p", 9)] 8 5 vals (some (.label 1 "L")) := by
  have hsome : (switchModule.prepare .exact 20).isSome := by decide
  obtain ⟨⟨w, errors⟩, h⟩ := Option.isSome_iff_exists.mp hsome
  have hitems : (switchModule.prepare .exact 20).bind (fun r => flattenedItems r.1.store 20 [4, 6]) =
      some [4, 5, 6] := by
    decide
  rw [h] at hitems
  have hmeaning : switchModule.addBuiltins.meaning [("p", 9)] ["E", "L"] = some (.label 1 "L") := by
    decide
  obtain ⟨vals, hvals, hanswers⟩ := lookup_finds_innermost switchModule switchModule_wellNamed
    (by decide) h (d := 10) (i := 5) (by decide) rfl rfl hitems (by decide) ["E", "L"]
    (.inr ⟨"E", "L", by decide, rfl⟩) 0
  rw [hmeaning] at hanswers
  exact ⟨w, errors, vals, h, hvals, hanswers⟩

end Diffingo.Names
