import Diffingo.Generation.IdResolver
import Mathlib.Tactic.IntervalCases

/-!
# Which names a pass resolves

A pass of the resolver that reports unresolved names can succeed and leave names behind in two ways.
A name whose value is itself a name is replaced by that name: a constant defined by itself stays as
it is in every pass. And the conditions of fields are not visited. `no_id_reachable` says that there
is no third way: if every visit finds a value that is not a name, and no name below a condition,
then a pass that logs no error leaves no name that can be reached from the module.
-/

namespace Diffingo.IdResolver

open Traversal

/-! ## Well-typed stores -/

/-- The scope a node owns. -/
def Node.ownScope : Node → Option Scope
  | .module _ scope _ => some scope
  | n => n.scope

def Node.contained : Node → Option Nat
  | .typeExpr t => some t
  | _ => none

/-- The pointers of a node lead to cells of the store, and to nodes of the declared class. -/
structure Node.Fits (s : Store Node) (n : Node) : Prop where
  links : ∀ d ∈ n.links, d < s.size
  scope : ∀ sc ∈ n.ownScope, sc.All fun v => v < s.size ∧ (s.node v).kind = .expression
  contained : ∀ t ∈ n.contained, (s.node t).kind = .type

structure Typed (s : Store Node) : Prop where
  pointee_lt : ∀ c < s.size, s.pointee c < s.size
  fits : ∀ a < s.size, (s.nodes a).Fits s

/-- The syntax tree of a module. -/
structure Tree where
  store : Store Node
  module : Nat
  typed : Typed store
  module_lt : module < store.size

theorem Typed.node_fits {s : Store Node} (h : Typed s) {c : Nat} (hc : c < s.size) :
    (s.node c).Fits s :=
  h.fits _ (h.pointee_lt c hc)

theorem Node.Fits.contained_lt {s : Store Node} {n : Node} (h : n.Fits s) {t : Nat}
    (ht : t ∈ n.contained) : t < s.size := by
  apply h.links
  cases n <;> simp_all [Node.contained, Node.links, Node.children]

/-- Cells may be redirected to nodes of the same class. -/
structure Keeps (s t : Store Node) : Prop where
  size_le : s.size ≤ t.size
  kind : ∀ c < s.size, (t.node c).kind = (s.node c).kind

theorem Node.Fits.keeps {s t : Store Node} {n : Node} (h : n.Fits s) (hk : Keeps s t) :
    n.Fits t where
  links d hd := (h.links d hd).trans_le hk.size_le
  scope sc hsc := by
    refine (h.scope sc hsc).imp fun v hv => ⟨hv.1.trans_le hk.size_le, ?_⟩
    rw [hk.kind v hv.1, hv.2]
  contained t ht := by rw [hk.kind t (h.contained_lt ht), h.contained t ht]

theorem Typed.replace {s : Store Node} (h : Typed s) {c d : Nat} (hd : d < s.size)
    (hkind : (s.node d).kind = (s.node c).kind) : Typed (s.replace c d) := by
  have hk : Keeps s (s.replace c d) := by
    refine ⟨le_rfl, fun e _ => ?_⟩
    by_cases hec : e = c
    · rw [hec, Store.replace_node_self, hkind]
    · rw [Store.node, Store.replace_pointee_of_ne s d hec, Store.replace_nodes, Store.node]
  refine ⟨fun e he => ?_, fun a ha => (h.fits a ha).keeps hk⟩
  by_cases hec : e = c
  · rw [hec, Store.replace_pointee_self]
    exact h.pointee_lt d hd
  · rw [Store.replace_pointee_of_ne s d hec]
    exact h.pointee_lt e he

/-- Only new nodes. -/
structure Grown (s t : Store Node) : Prop where
  typed : Typed t
  size_le : s.size ≤ t.size
  nodes : ∀ a < s.size, t.nodes a = s.nodes a
  pointee : ∀ c < s.size, t.pointee c = s.pointee c

theorem Grown.refl {s : Store Node} (h : Typed s) : Grown s s :=
  ⟨h, le_rfl, fun _ _ => rfl, fun _ _ => rfl⟩

theorem Grown.trans {s t u : Store Node} (h₁ : Grown s t) (h₂ : Grown t u) : Grown s u where
  typed := h₂.typed
  size_le := h₁.size_le.trans h₂.size_le
  nodes a ha := (h₂.nodes a (ha.trans_le h₁.size_le)).trans (h₁.nodes a ha)
  pointee c hc := (h₂.pointee c (hc.trans_le h₁.size_le)).trans (h₁.pointee c hc)

theorem Grown.node {s t : Store Node} (hs : Typed s) (h : Grown s t) {c : Nat} (hc : c < s.size) :
    t.node c = s.node c := by
  rw [Store.node, Store.node, h.pointee c hc, h.nodes _ (hs.pointee_lt c hc)]

theorem Grown.keeps {s t : Store Node} (hs : Typed s) (h : Grown s t) : Keeps s t :=
  ⟨h.size_le, fun c hc => by rw [h.node hs hc]⟩

theorem Grown.alloc {s : Store Node} (hs : Typed s) {n : Node} (hn : n.Fits s) :
    Grown s (s.alloc n) := by
  have hsize : s.size ≤ (s.alloc n).size := Nat.le_succ _
  have hnode : ∀ c < s.size, (s.alloc n).node c = s.node c := fun c hc => by
    rw [Store.node, Store.alloc_pointee s n hc, Store.alloc_nodes s n (hs.pointee_lt c hc),
      Store.node]
  have hk : Keeps s (s.alloc n) := ⟨hsize, fun c hc => by rw [hnode c hc]⟩
  refine ⟨⟨fun c hc => ?_, fun a ha => ?_⟩, hsize, fun a ha => Store.alloc_nodes s n ha,
    fun c hc => Store.alloc_pointee s n hc⟩
  · obtain hc | rfl := Nat.lt_succ_iff_lt_or_eq.mp hc
    · rw [Store.alloc_pointee s n hc]
      exact (hs.pointee_lt c hc).trans_le hsize
    · simp [Store.alloc]
  · obtain ha | rfl := Nat.lt_succ_iff_lt_or_eq.mp ha
    · rw [Store.alloc_nodes s n ha]
      exact (hs.fits a ha).keeps hk
    · have hnew : (s.alloc n).nodes s.size = n := by simp [Store.alloc]
      rw [hnew]
      exact hn.keeps hk

/-! ## New fields -/

/-- The scope holds expressions of the store. -/
abbrev ScopeFits (s : Store Node) (scope : Scope) : Prop :=
  scope.All fun v => v < s.size ∧ (s.node v).kind = .expression

/-- A new field in the store, with the given scope and condition. -/
structure Creates (s : Store Node) (scope : Scope) (condition : Option Nat)
    (r : Store Node × Nat) : Prop where
  grown : Grown s r.1
  field_lt : r.2 < r.1.size
  node : ∃ children, r.1.node r.2 = .item scope condition children

section Create

variable {s : Store Node} {scope : Scope} {condition : Option Nat} {attrs : List (String × Nat)}

theorem createField_creates (hs : Typed s) (hscope : ScopeFits s scope)
    (hcond : ∀ e ∈ condition, e < s.size) {type : Nat} (htype : type < s.size)
    (hattrs : ∀ a ∈ attrs, a.2 < s.size) {rest : List Nat} (hrest : ∀ d ∈ rest, d < s.size) :
    Creates s scope condition (createField s scope condition type attrs rest) := by
  have hmap : (Node.attributeMap attrs).Fits s := by
    refine ⟨fun d hd => ?_, by simp [Node.ownScope, Node.scope], by simp [Node.contained]⟩
    obtain ⟨a, ha, rfl⟩ : ∃ a ∈ attrs, a.2 = d := by
      simpa [Node.links, Node.children, Node.condition] using hd
    exact hattrs a ha
  have hg₁ := Grown.alloc hs hmap
  have hitem : (Node.item scope condition (type :: s.size :: rest)).Fits
      (s.alloc (.attributeMap attrs)) := by
    refine ⟨fun d hd => ?_, fun sc hsc => ?_, by simp [Node.contained]⟩
    · have hd : d = type ∨ d = s.size ∨ d ∈ rest ∨ condition = some d := by
        simpa [Node.links, Node.children, Node.condition] using hd
      obtain rfl | rfl | hd | hd := hd
      · exact htype.trans_le hg₁.size_le
      · exact Nat.lt_succ_self _
      · exact (hrest d hd).trans_le hg₁.size_le
      · exact (hcond d hd).trans_le hg₁.size_le
    · obtain rfl : scope = sc := by simpa [Node.ownScope, Node.scope] using hsc
      refine hscope.imp fun v hv => ⟨hv.1.trans_le hg₁.size_le, ?_⟩
      rw [hg₁.node hs hv.1, hv.2]
  exact ⟨hg₁.trans (Grown.alloc hg₁.typed hitem), Nat.lt_succ_self _, _,
    Store.alloc_node_new _ _⟩

/-- A type without parts. -/
theorem fits_leafType (s : Store Node) : (Node.type []).Fits s :=
  ⟨by simp [Node.links, Node.children, Node.condition], by simp [Node.ownScope, Node.scope],
    by simp [Node.contained]⟩

theorem ScopeFits.grown {t : Store Node} (hs : Typed s) (h : ScopeFits s scope) (hg : Grown s t) :
    ScopeFits t scope :=
  h.imp fun _ hv => ⟨hv.1.trans_le hg.size_le, by rw [hg.node hs hv.1, hv.2]⟩

theorem createByType_creates {fuel : Nat} {type : Nat} {params sinks : List Nat}
    {r : Store Node × Nat}
    (h : createByType fuel s type scope condition attrs params sinks = some r) (hs : Typed s)
    (hscope : ScopeFits s scope) (hcond : ∀ e ∈ condition, e < s.size) (htype : type < s.size)
    (hattrs : ∀ a ∈ attrs, a.2 < s.size) (hparams : ∀ d ∈ params, d < s.size)
    (hsinks : ∀ d ∈ sinks, d < s.size) : Creates s scope condition r := by
  induction fuel generalizing s type scope condition attrs params sinks r with
  | zero => cases h
  | succ fuel ih =>
    rw [createByType] at h
    split at h
    · cases h
      refine createField_creates hs hscope hcond htype hattrs fun d hd => ?_
      exact (List.mem_append.mp hd).elim (hparams d) (hsinks d)
    · next element hnode =>
      obtain ⟨⟨s₁, field⟩, hinner, hr⟩ := Option.bind_eq_some_iff.mp h
      cases hr
      have helement : element < s.size :=
        (hs.node_fits htype).links element (by simp [hnode, Node.links, Node.children])
      obtain ⟨hg₁, hfield, -⟩ := ih hinner hs (.mk (by simp) (by simp) (by simpa using hscope))
        (by simp) helement (by simp) (by simp) (by simp)
      have hg₂ := hg₁.trans (Grown.alloc hg₁.typed (fits_leafType s₁))
      have hcreated : Creates (s₁.alloc (.type [])) scope condition
          (createField (s₁.alloc (.type [])) scope condition s₁.size attrs (sinks ++ [field])) := by
        refine createField_creates hg₂.typed (hscope.grown hs hg₂)
          (fun e he => (hcond e he).trans_le hg₂.size_le) (Nat.lt_succ_self s₁.size)
          (fun a ha => (hattrs a ha).trans_le hg₂.size_le) fun d hd => ?_
        obtain hd | hd := List.mem_append.mp hd
        · exact (hsinks d hd).trans_le hg₂.size_le
        · rw [List.mem_singleton.mp hd]
          exact Nat.lt_succ_of_lt hfield
      exact ⟨hg₂.trans hcreated.grown, hcreated.field_lt, hcreated.node⟩
    · cases h
      exact createField_creates hs hscope hcond htype hattrs hsinks

end Create

/-! ## What the visits do -/

/-- Names have to go; a field named after a declaration is replaced when it is visited; a named type
may be replaced by another named type. -/
def discipline : Discipline Node where
  children := Node.children
  links := Node.links
  unresolved n := n.isId = true
  transient n := n.isUnknownField = true
  settled n := n.isUnknownType = true
  inv := Typed
  link_of_child h := List.mem_append_left _ h
  settled_leaf {n} h := by
    cases n <;> simp_all [Node.isUnknownType, Node.links, Node.children, Node.condition]
  settled_fixed {n} h := by
    cases n <;> simp_all [Node.isUnknownType, Node.isId, Node.isUnknownField]
  pointee_lt h hc := h.pointee_lt _ hc
  link_lt h hc hd := (h.node_fits hc).links _ hd

/-- The state a visit finds is as required: a name has no value that is itself a name, and no name
can be reached from the condition of a field. -/
structure Resolvable (v : Visit Node) : Prop where
  value : ∀ path, v.store.node v.cell = .id path → ∀ val,
    values v.store (v.cell :: v.current) path = some [val] → (v.store.node val).isId = false
  condition : ∀ e ∈ (v.store.node v.cell).condition, ∀ d, discipline.Reaches v.store e d →
    (v.store.node d).isId = false

/-- Visits keep the record of the visits and only add errors. -/
def Logs (w w' : State) : Prop := w'.visited = w.visited ∧ w.errors <:+ w'.errors

theorem Logs.refl (w : State) : Logs w w := ⟨rfl, List.suffix_rfl⟩

theorem Logs.log (w : State) (message : String) : Logs w (w.log message) :=
  ⟨rfl, List.suffix_cons _ _⟩

theorem Logs.setStore (w : State) (s : Store Node) : Logs w (setStore w s) :=
  ⟨rfl, List.suffix_rfl⟩

section Visits

variable {report : Bool} {nodes current : List Nat} {c : Nat} {w w₁ : State}

theorem withValue_logs {unknown ambiguous : String} {vals : List Nat} {f : Nat → Option State}
    (h : withValue report unknown ambiguous vals w f = some w₁)
    (hf : ∀ v, f v = some w₁ → Logs w w₁) : Logs w w₁ := by
  unfold withValue at h
  split at h
  · cases h
    cases report
    · exact Logs.refl w
    · exact Logs.log w unknown
  · exact hf _ h
  · cases h
    exact Logs.log w ambiguous

/-- If unresolved names are reported and no error is logged, there is exactly one value. -/
theorem withValue_unique {unknown ambiguous : String} {vals : List Nat} {f : Nat → Option State}
    (h : withValue true unknown ambiguous vals w f = some w₁) (he : w₁.errors = []) :
    ∃ v, vals = [v] ∧ f v = some w₁ := by
  unfold withValue at h
  split at h
  · cases h
    cases he
  · next v => exact ⟨v, rfl, h⟩
  · cases h
    cases he

theorem visit_logs {lookup : Lookup Node} {fuel : Nat}
    (h : visit lookup fuel report current c w = some w₁) : Logs w w₁ := by
  unfold visit at h
  split at h
  · obtain ⟨vals, -, h⟩ := Option.bind_eq_some_iff.mp h
    refine withValue_logs h fun v hv => ?_
    cases hv
    exact Logs.setStore w _
  · obtain ⟨vals, -, h⟩ := Option.bind_eq_some_iff.mp h
    refine withValue_logs h fun v hv => ?_
    split at hv <;> cases hv
    · exact Logs.setStore w _
    · exact Logs.log w _
  · obtain ⟨vals, -, h⟩ := Option.bind_eq_some_iff.mp h
    refine withValue_logs h fun v hv => ?_
    split at hv
    · split at hv <;> cases hv
      · exact Logs.refl w
      · exact Logs.log w _
    · cases hv
      exact Logs.log w _
  · obtain ⟨vals, -, h⟩ := Option.bind_eq_some_iff.mp h
    refine withValue_logs h fun v hv => ?_
    dsimp only at hv
    split at hv
    · cases hv
      exact Logs.setStore w _
    · split at hv <;> cases hv
      exact Logs.setStore w _
    · obtain ⟨r, -, hr⟩ := Option.bind_eq_some_iff.mp hv
      cases hr
      exact Logs.setStore w _
    · cases hv
      exact Logs.log w _
  · unfold visitLambda at h
    dsimp only at h
    obtain ⟨r, -, rfl⟩ := Option.map_eq_some_iff.mp h
    split
    · exact Logs.setStore w _
    · exact Logs.log w _
  · cases h
    exact Logs.refl w

/-- The cells above a visit hold scopes of expressions. -/
theorem currentModule_fits {s : Store Node} (hs : Typed s) (hnodes : ∀ d ∈ nodes, d < s.size)
    {m : String × Scope} (hm : currentModule s nodes = some m) : ScopeFits s m.2 := by
  obtain ⟨d, hd, hnode⟩ := List.exists_of_findSome?_eq_some hm
  split at hnode
  · next name scope cs heq =>
    cases hnode
    exact (hs.node_fits (hnodes d hd)).scope scope (by simp [heq, Node.ownScope])
  · cases hnode

theorem moduleValues_fits {s : Store Node} (hs : Typed s) (hnodes : ∀ d ∈ nodes, d < s.size)
    {path : Path} {vals : List Nat} (h : moduleValues s nodes path = some vals) :
    ∀ v ∈ vals, v < s.size ∧ (s.node v).kind = .expression := by
  obtain ⟨m, hm, rfl⟩ := Option.map_eq_some_iff.mp h
  exact (currentModule_fits hs hnodes hm).lookup path

theorem values_fits {s : Store Node} (hs : Typed s) (hnodes : ∀ d ∈ nodes, d < s.size)
    {path : Path} {vals : List Nat} (h : values s nodes path = some vals) :
    ∀ v ∈ vals, v < s.size ∧ (s.node v).kind = .expression := by
  obtain ⟨m, hm, rfl⟩ := Option.map_eq_some_iff.mp h
  have hscope : ScopeFits s ((nodes.findSome? fun c => (s.node c).scope).getD m.2) := by
    cases hfind : nodes.findSome? fun c => (s.node c).scope with
    | none => exact currentModule_fits hs hnodes hm
    | some scope =>
      obtain ⟨d, hd, hnode⟩ := List.exists_of_findSome?_eq_some hfind
      refine (hs.node_fits (hnodes d hd)).scope scope ?_
      cases heq : s.node d <;> simp_all [Node.scope, Node.ownScope]
  dsimp only
  split
  · exact hscope.lookup _
  · exact hscope.lookup _

/-- A visit that leaves the store alone. -/
theorem effect_same {s : Store Node} (hs : Typed s) (hc : c < s.size)
    (hid : (s.node c).isId = false) (hfield : (s.node c).isUnknownField = false)
    (hcond : ∀ e ∈ (s.node c).condition, ∀ d, discipline.Reaches s e d → (s.node d).isId = false) :
    discipline.Effect s c s where
  inv := hs
  size_le := le_rfl
  nodes _ _ := rfl
  moved _ _ := .inl rfl
  fixed := by simp [discipline, hid, hfield]
  hidden d hd := by
    refine (List.mem_append.mp hd).imp_right fun he => ?_
    have he : d ∈ (s.node c).condition := by simpa using he
    refine ⟨(hs.node_fits hc).links d (List.mem_append_right _ (by simpa using he)), ?_⟩
    simpa [discipline] using hcond d he

/-- A visit that adds nodes and then redirects its own cell. -/
theorem effect_replace {s t : Store Node} (hs : Typed s) (hc : c < s.size) (hg : Grown s t)
    {f : Nat} (hf : f < t.size) (hkind : (t.node f).kind = (s.node c).kind)
    (hfrom : (s.node c).isId = true ∨ (s.node c).isUnknownField = true ∨
      (s.node c).isUnknownType = true)
    (hid : (t.node f).isId = false) (hfield : (t.node f).isUnknownField = false)
    (hcond : ∀ e ∈ (t.node f).condition, e < s.size ∧
      ∀ d, discipline.Reaches s e d → (s.node d).isId = false) :
    discipline.Effect s c (t.replace c f) where
  inv := hg.typed.replace hf (by rw [hkind, hg.node hs hc])
  size_le := hg.size_le
  nodes := hg.nodes
  moved e he := by
    by_cases hec : e = c
    · subst hec
      exact .inr (hfrom.imp_right fun h => ⟨rfl, h⟩)
    · left
      rw [Store.replace_pointee_of_ne t f hec, hg.pointee e he]
  fixed := by simp [discipline, hid, hfield]
  hidden d hd := by
    rw [Store.replace_node_self] at hd ⊢
    refine (List.mem_append.mp hd).imp_right fun he => ?_
    simpa [discipline] using hcond d (by simpa using he)

theorem effect_id (hs : Typed w.store) (hcurrent : ∀ d ∈ c :: current, d < w.store.size)
    {path : Path} (hnode : w.store.node c = .id path)
    (hok : Resolvable ⟨c, current, w.store⟩)
    (h : visitId true (c :: current) c path w = some w₁) (he : w₁.errors = []) :
    discipline.Effect w.store c w₁.store := by
  obtain ⟨vals, hvals, h⟩ := Option.bind_eq_some_iff.mp h
  obtain ⟨v, rfl, hv₁⟩ := withValue_unique h he
  cases hv₁
  obtain ⟨hv, hkind⟩ := values_fits hs hcurrent hvals v List.mem_cons_self
  have hid := hok.value path hnode v hvals
  refine effect_replace hs (hcurrent c List.mem_cons_self) (Grown.refl hs) hv ?_ (.inl ?_) hid ?_ ?_
  · rw [hkind, hnode, Node.kind]
  · rw [hnode, Node.isId]
  · cases hn : w.store.node v <;> simp_all [Node.kind, Node.isUnknownField]
  · cases hn : w.store.node v <;> simp_all [Node.kind, Node.condition]

theorem effect_unknownType (hs : Typed w.store) (hcurrent : ∀ d ∈ c :: current, d < w.store.size)
    {path : Path} (hnode : w.store.node c = .unknownType (some path))
    (h : visitUnknownType true (c :: current) c path w = some w₁) (he : w₁.errors = []) :
    discipline.Effect w.store c w₁.store := by
  obtain ⟨vals, hvals, h⟩ := Option.bind_eq_some_iff.mp h
  obtain ⟨v, rfl, hv₁⟩ := withValue_unique h he
  have hv := (moduleValues_fits hs hcurrent hvals v List.mem_cons_self).1
  split at hv₁
  · next t ht =>
    cases hv₁
    have hcontained : t ∈ (w.store.node v).contained := by simp [ht, Node.contained]
    have hkind := (hs.node_fits hv).contained t hcontained
    refine effect_replace hs (hcurrent c List.mem_cons_self) (Grown.refl hs)
      ((hs.node_fits hv).contained_lt hcontained) ?_ (.inr (.inr ?_)) ?_ ?_ ?_
    · rw [hkind, hnode, Node.kind]
    · rw [hnode, Node.isUnknownType]
    · cases hn : w.store.node t <;> simp_all [Node.kind, Node.isId]
    · cases hn : w.store.node t <;> simp_all [Node.kind, Node.isUnknownField]
    · cases hn : w.store.node t <;> simp_all [Node.kind, Node.condition]
  · cases hv₁
    cases he

/-- Redirecting the cell of a field to a new one. -/
theorem effect_creates {s : Store Node} {scope scope' : Scope} {path : Path}
    {condition : Option Nat} {attributes : Nat} {params sinks : List Nat} {r : Store Node × Nat}
    (hs : Typed s) (hc : c < s.size)
    (hnode : s.node c = .unknownField scope path condition attributes params sinks)
    (hok : Resolvable ⟨c, current, s⟩) (hr : Creates s scope' condition r) :
    discipline.Effect s c (r.1.replace c r.2) := by
  obtain ⟨hg, hlt, children, hitem⟩ := hr
  refine effect_replace hs hc hg hlt ?_ (.inr (.inl ?_)) ?_ ?_ ?_
  · rw [hitem, hnode, Node.kind, Node.kind]
  · rw [hnode, Node.isUnknownField]
  · simp [hitem, Node.isId]
  · simp [hitem, Node.isUnknownField]
  · rw [hitem]
    intro e he
    have hcond : e ∈ (s.node c).condition := by rw [hnode]; exact he
    refine ⟨(hs.node_fits hc).links e (List.mem_append_right _ (by simpa using hcond)), ?_⟩
    exact hok.condition e hcond

theorem attributes_lt {s : Store Node} (hs : Typed s) {a : Nat} (ha : a < s.size) :
    ∀ e ∈ (s.node a).attributes, e.2 < s.size := by
  intro e he
  apply (hs.node_fits ha).links
  cases hn : s.node a <;> simp_all [Node.attributes, Node.links, Node.children]
  left
  exact ⟨e.1, he⟩

theorem effect_unknownField {fuel : Nat} {scope : Scope} {path : Path} {condition : Option Nat}
    {attributes : Nat} {params sinks : List Nat} (hs : Typed w.store)
    (hcurrent : ∀ d ∈ c :: current, d < w.store.size)
    (hnode : w.store.node c = .unknownField scope path condition attributes params sinks)
    (hok : Resolvable ⟨c, current, w.store⟩)
    (h : visitUnknownField fuel true (c :: current) c scope path condition attributes params sinks w
      = some w₁) (he : w₁.errors = []) : discipline.Effect w.store c w₁.store := by
  have hc := hcurrent c List.mem_cons_self
  have hfits := hs.node_fits hc
  obtain ⟨vals, hvals, h⟩ := Option.bind_eq_some_iff.mp h
  obtain ⟨v, rfl, hv₁⟩ := withValue_unique h he
  have hv := (moduleValues_fits hs hcurrent hvals v List.mem_cons_self).1
  have hlink : ∀ d ∈ attributes :: params ++ sinks ++ condition.toList, d < w.store.size := by
    simpa [hnode, Node.links, Node.children, Node.condition] using hfits.links
  have hcond : ∀ e ∈ condition, e < w.store.size := fun e he => hlink e (by simp_all)
  have hparams : ∀ d ∈ params, d < w.store.size := fun d hd => hlink d (by simp [hd])
  have hsinks : ∀ d ∈ sinks, d < w.store.size := fun d hd => hlink d (by simp [hd])
  have hattrs := attributes_lt hs (hlink attributes (by simp))
  have hscope : ScopeFits w.store (.mk [] [] scope.parent) := by
    obtain ⟨-, -, hparent⟩ := hfits.scope scope (by simp [hnode, Node.ownScope, Node.scope])
    exact .mk (by simp) (by simp) hparent
  have hsinks' : ∀ e < w.store.size, ∀ d ∈ sinks ++ [e], d < w.store.size := by
    intro e he d hd
    obtain hd | hd := List.mem_append.mp hd
    · exact hsinks d hd
    · rw [List.mem_singleton.mp hd]
      exact he
  dsimp only at hv₁
  split at hv₁
  · next ctor hctor =>
    cases hv₁
    have hlt : ctor < w.store.size :=
      (hs.node_fits hv).links ctor (by simp [hctor, Node.links, Node.children])
    have hg := Grown.alloc hs (fits_leafType w.store)
    have hr := createField_creates hg.typed (hscope.grown hs hg)
      (fun e he => (hcond e he).trans_le hg.size_le) (Nat.lt_succ_self w.store.size)
      (fun a ha => (hattrs a ha).trans_le hg.size_le)
      (fun d hd => (hsinks' ctor hlt d hd).trans_le hg.size_le)
    exact effect_creates hs hc hnode hok ⟨hg.trans hr.grown, hr.field_lt, hr.node⟩
  · next k hk =>
    split at hv₁
    · next type cs hconst =>
      cases hv₁
      have hlt : k < w.store.size :=
        (hs.node_fits hv).links k (by simp [hk, Node.links, Node.children])
      have htype : type < w.store.size :=
        (hs.node_fits hlt).links type (by simp [hconst, Node.links, Node.children])
      exact effect_creates hs hc hnode hok
        (createField_creates hs hscope hcond htype hattrs (hsinks' k hlt))
    · cases hv₁
  · next t ht =>
    obtain ⟨r, hr, hset⟩ := Option.bind_eq_some_iff.mp hv₁
    cases hset
    have hlt : t < w.store.size :=
      (hs.node_fits hv).contained_lt (by simp [ht, Node.contained])
    exact effect_creates hs hc hnode hok
      (createByType_creates hr hs hscope hcond hlt hattrs hparams hsinks)
  · cases hv₁
    cases he

/-- Only the cells of names are redirected. -/
structure Redirects (s t : Store Node) : Prop where
  size : t.size = s.size
  nodes : t.nodes = s.nodes
  pointee : ∀ e, t.pointee e = s.pointee e ∨ (s.node e).isId = true

theorem Redirects.refl (s : Store Node) : Redirects s s := ⟨rfl, rfl, fun _ => .inl rfl⟩

theorem Redirects.trans {s t u : Store Node} (h₁ : Redirects s t) (h₂ : Redirects t u) :
    Redirects s u := by
  refine ⟨h₂.size.trans h₁.size, h₂.nodes.trans h₁.nodes, fun e => ?_⟩
  obtain he | he := h₁.pointee e
  · obtain hu | hu := h₂.pointee e
    · exact .inl (hu.trans he)
    · rw [Store.node, he, h₁.nodes] at hu
      exact .inr hu
  · exact .inr he

/-- A store in which a name may be replaced by the expression in `new`. -/
structure Offers (new : Nat) (s : Store Node) : Prop where
  typed : Typed s
  lt : new < s.size
  kind : (s.node new).kind = .expression
  isId : (s.node new).isId = false

theorem visitReplacer_redirects {old : Path} {new : Nat}
    (h : visitReplacer old new current c w = some w₁) (hs : Offers new w.store) :
    Offers new w₁.store ∧ Redirects w.store w₁.store := by
  unfold visitReplacer at h
  split at h
  · next path hnode =>
    cases h
    split
    · have hne : new ≠ c := by
        rintro rfl
        simpa [hnode, Node.isId] using hs.isId
      have hnew : (w.store.replace c new).node new = w.store.node new := by
        rw [Store.node, Store.replace_pointee_of_ne _ _ hne, Store.replace_nodes, Store.node]
      refine ⟨⟨hs.typed.replace hs.lt ?_, hs.lt, ?_, ?_⟩, rfl, rfl, fun e => ?_⟩
      · rw [hs.kind, hnode, Node.kind]
      · exact hnew ▸ hs.kind
      · exact hnew ▸ hs.isId
      · by_cases hec : e = c
        · exact .inr (by rw [hec, hnode, Node.isId])
        · exact .inl (Store.replace_pointee_of_ne _ _ hec)
    · exact ⟨hs, Redirects.refl _⟩
  · cases h
    exact ⟨hs, Redirects.refl _⟩

/-- `IdExprReplacer::run`. -/
theorem replacer_redirects {lookup : Lookup Node} {fuel : Nat} {old : Path} {new elemExpr : Nat}
    (h : preOrder Node.children lookup (visitReplacer old new) fuel current elemExpr w = some w₁)
    (hs : Offers new w.store) : Offers new w₁.store ∧ Redirects w.store w₁.store := by
  refine preOrder_rel (R := fun w w' => Offers new w.store →
    Offers new w'.store ∧ Redirects w.store w'.store) ?_ ?_ ?_ h hs
  · intro w hw
    exact ⟨hw, Redirects.refl _⟩
  · intro w₁ w₂ w₃ h₁₂ h₂₃ hw₁
    obtain ⟨hw₂, hr₁⟩ := h₁₂ hw₁
    obtain ⟨hw₃, hr₂⟩ := h₂₃ hw₂
    exact ⟨hw₃, hr₁.trans hr₂⟩
  · intro current c w w' hv hw
    exact visitReplacer_redirects (w := w.enter current c) hv hw

theorem searchedList_lt {s : Store Node} (hs : Typed s) (hnodes : ∀ d ∈ nodes, d < s.size)
    {l : Nat} (h : searchedList s nodes c = some l) : l < s.size := by
  obtain ⟨⟨l', children⟩, hfind, hany⟩ := Option.bind_eq_some_iff.mp h
  obtain ⟨d, hd, hnode⟩ := List.exists_of_findSome?_eq_some hfind
  obtain rfl : l' = l := by simpa using (Option.ite_none_right_eq_some.mp hany).2
  split at hnode
  · next others heq =>
    cases hnode
    exact (hs.node_fits (hnodes d hd)).links _ (by simp [heq, Node.links, Node.children])
  · cases hnode

/-- A node without scope whose children are in the store. -/
theorem fits_of_children {s : Store Node} {n : Node} (hscope : n.ownScope = none)
    (hcontained : n.contained = none) (hcond : n.condition = none)
    (h : ∀ d ∈ n.children, d < s.size) : n.Fits s :=
  ⟨by simpa [Node.links, hcond] using h, by simp [hscope], by simp [hcontained]⟩

theorem addVariable_offers {s : Store Node} (hs : Typed s) {type : List Nat}
    (htype : ∀ t ∈ type, t < s.size) :
    Grown s (addVariable s type).1 ∧ Offers (addVariable s type).2 (addVariable s type).1 := by
  have hg₁ : Grown s (s.alloc (.other type)) :=
    Grown.alloc hs (fits_of_children rfl rfl rfl htype)
  have hg₂ := Grown.alloc (n := .expression [s.size]) hg₁.typed
    (fits_of_children rfl rfl rfl (by simp [Node.children]))
  refine ⟨hg₁.trans hg₂, hg₂.typed, Nat.lt_succ_self _, ?_, ?_⟩
  · rw [addVariable, Store.alloc_node_new, Node.kind]
  · rw [addVariable, Store.alloc_node_new]
    rfl

theorem effect_lambda {lookup : Lookup Node} {fuel : Nat} {elemId : Path} {elemExpr : Nat}
    (hs : Typed w.store) (hcurrent : ∀ d ∈ c :: current, d < w.store.size)
    (hnode : w.store.node c = .lambda elemId elemExpr)
    (h : visitLambda lookup fuel (c :: current) c elemId elemExpr w = some w₁)
    (he : w₁.errors = []) : discipline.Effect w.store c w₁.store := by
  unfold visitLambda at h
  cases hl : searchedList w.store (c :: current) c with
  | none =>
    simp only [hl] at h
    obtain ⟨r, -, rfl⟩ := Option.map_eq_some_iff.mp h
    cases he
  | some l =>
    simp only [hl] at h
    obtain ⟨r, hr, rfl⟩ := Option.map_eq_some_iff.mp h
    have hlt := searchedList_lt hs hcurrent hl
    have hg₁ : Grown w.store (w.store.alloc (.type [l])) :=
      Grown.alloc hs (fits_of_children rfl rfl rfl (by simpa [Node.children] using hlt))
    have htype : ∀ t ∈ [w.store.size], t < (w.store.alloc (.type [l])).size := by simp
    obtain ⟨hg₂, hoffers⟩ := addVariable_offers hg₁.typed htype
    have hg := hg₁.trans hg₂
    obtain ⟨hoffers', hred⟩ := replacer_redirects hr hoffers
    have hmoved : ∀ e < w.store.size,
        r.store.pointee e = w.store.pointee e ∨ (w.store.node e).isId = true := by
      intro e he
      rw [← hg.pointee e he, ← hg.node hs he]
      exact hred.pointee e
    have hc := hcurrent c List.mem_cons_self
    have hnode' : r.store.node c = .lambda elemId elemExpr := by
      obtain hp | hid := hmoved c hc
      · rw [Store.node, hp, hred.nodes, ← hg.pointee c hc]
        exact (hg.node hs hc).trans hnode
      · simp [hnode, Node.isId] at hid
    refine ⟨hoffers'.typed, hg.size_le.trans_eq hred.size.symm, fun a ha => ?_,
      fun e he => (hmoved e he).imp_right .inl, ?_, ?_⟩
    · exact (congrFun hred.nodes a).trans (hg.nodes a ha)
    · simp [setStore, discipline, hnode', Node.isId, Node.isUnknownField]
    · intro d hd
      left
      simpa [setStore, discipline, hnode', Node.links, Node.condition] using hd

theorem visitInstantiation_store {path : Path}
    (h : visitInstantiation true nodes path w = some w₁) (he : w₁.errors = []) :
    w₁.store = w.store := by
  obtain ⟨vals, -, h⟩ := Option.bind_eq_some_iff.mp h
  obtain ⟨v, -, hv⟩ := withValue_unique h he
  split at hv
  · split at hv <;> cases hv
    · rfl
    · cases he
  · cases hv
    cases he

/-- One visit, if unresolved names are reported and it logs no error. -/
theorem visit_effect {lookup : Lookup Node} {fuel : Nat} (hs : Typed w.store)
    (hcurrent : ∀ d ∈ c :: current, d < w.store.size) (hok : Resolvable ⟨c, current, w.store⟩)
    (h : visit lookup fuel true current c w = some w₁) (he : w₁.errors = []) :
    discipline.Effect w.store c w₁.store := by
  unfold visit at h
  split at h
  · next path hnode => exact effect_id hs hcurrent hnode hok h he
  · next path hnode => exact effect_unknownType hs hcurrent hnode h he
  · next path _ hnode =>
    rw [visitInstantiation_store h he]
    exact effect_same hs (hcurrent c List.mem_cons_self) (by rw [hnode]; rfl) (by rw [hnode]; rfl)
      hok.condition
  · next hnode => exact effect_unknownField hs hcurrent hnode hok h he
  · next hnode => exact effect_lambda hs hcurrent hnode h he
  · next hid _ _ hfield _ =>
    cases h
    refine effect_same hs (hcurrent c List.mem_cons_self) ?_ ?_ hok.condition
    · cases hn : w.store.node c <;> simp_all [Node.isId]
    · cases hn : w.store.node c with
      | unknownField => exact (hfield _ _ _ _ _ _ hn).elim
      | _ => rfl

theorem visits (lookup : Lookup Node) (fuel : Nat) :
    discipline.Visits Resolvable (visit lookup fuel true) where
  visited h := (visit_logs h).1
  errors h := (visit_logs h).2
  effect h hs hcurrent he hok := visit_effect hs hcurrent hok h he

end Visits

/-- A pass that reports unresolved names and succeeds leaves no name that can be reached from the
module, if every visit found the state as `Resolvable` says. -/
theorem no_id_reachable {lookup : Lookup Node} {fuel : Nat} {tree : Tree} {w : State}
    (hrun : run lookup fuel true tree.store tree.module = some w) (hsuccess : w.errors = [])
    (hvisits : ∀ v ∈ w.visited, Resolvable v) {c : Nat}
    (hc : discipline.Reaches w.store tree.module c) : (w.store.node c).isId = false := by
  have h := (visits lookup fuel).resolved_of_reaches hrun tree.typed tree.module_lt
    ⟨hsuccess, hvisits⟩ hc
  simpa [discipline] using h

/-- A visit of a node without condition that can be checked by evaluation. -/
def Visit.resolvable (v : Visit Node) : Bool :=
  match v.store.node v.cell with
  | .id path =>
    match values v.store (v.cell :: v.current) path with
    | some [val] => !(v.store.node val).isId
    | _ => true
  | n => n.condition.isNone

theorem resolvable_of_check {v : Visit Node} (h : Visit.resolvable v = true) : Resolvable v where
  value path hnode val hval := by simpa [Visit.resolvable, hnode, hval] using h
  condition e he := by
    unfold Visit.resolvable at h
    split at h
    · next heq => simp [heq, Node.condition] at he
    · rw [Option.isNone_iff_eq_none.mp h] at he
      cases he

theorem fits_module {s : Store Node} {name : String} {values : List (String × List Nat)}
    {children : List Nat}
    (hvalues : ∀ e ∈ values, ∀ v ∈ e.2, v < s.size ∧ (s.node v).kind = .expression)
    (hchildren : ∀ d ∈ children, d < s.size) :
    (Node.module name (.mk values [] none) children).Fits s := by
  refine ⟨by simpa [Node.links, Node.children, Node.condition] using hchildren, fun sc hsc => ?_,
    by simp [Node.contained]⟩
  obtain rfl : .mk values [] none = sc := by simpa [Node.ownScope] using hsc
  exact .mk hvalues (by simp) (by simp)

/-- `const A = 5; const B = A;` in a module `M`. -/
def aliasModule : Store Node where
  size := 8
  pointee c := c
  nodes
    | 0 => .module "M" (.mk [("A", [3]), ("B", [6])] [] none) [1, 2, 5]
    | 1 => .attributeMap []
    | 2 => .other [3]
    | 3 => .constantExpr 4
    | 4 => .constant 7 []
    | 5 => .other [6]
    | 6 => .id ["A"]
    | _ => .type []

theorem typed_aliasModule : Typed aliasModule := by
  refine ⟨fun c hc => hc, fun a ha => ?_⟩
  change a < 8 at ha
  interval_cases a
  · exact fits_module (by decide) (by decide)
  all_goals exact fits_of_children rfl rfl rfl (by decide)

def aliasTree : Tree := ⟨aliasModule, 0, typed_aliasModule, by decide⟩

theorem no_id_reachable_aliasTree :
    ∃ w, run Lookup.exact 6 true aliasTree.store aliasTree.module = some w ∧ w.errors = [] ∧
      ∀ c, discipline.Reaches w.store aliasTree.module c → (w.store.node c).isId = false := by
  have hrun : ((run Lookup.exact 6 true aliasModule 0).map fun w =>
      (w.errors, w.visited.all Visit.resolvable)) = some ([], true) := by decide
  obtain ⟨w, hw, heq⟩ := Option.map_eq_some_iff.mp hrun
  obtain ⟨herrors, hall⟩ := Prod.mk.inj heq
  refine ⟨w, hw, herrors, fun c hc => ?_⟩
  exact @no_id_reachable Lookup.exact 6 aliasTree w hw herrors
    (fun v hv => resolvable_of_check (List.all_eq_true.mp hall v hv)) c hc

/-- `const A = A;` in a module `M`. -/
def selfModule : Store Node where
  size := 4
  pointee c := c
  nodes
    | 0 => .module "M" (.mk [("A", [3])] [] none) [1, 2]
    | 1 => .attributeMap []
    | 2 => .other [3]
    | _ => .id ["A"]

theorem typed_selfModule : Typed selfModule := by
  refine ⟨fun c hc => hc, fun a ha => ?_⟩
  change a < 4 at ha
  interval_cases a
  · exact fits_module (by decide) (by decide)
  all_goals exact fits_of_children rfl rfl rfl (by decide)

def selfTree : Tree := ⟨selfModule, 0, typed_selfModule, by decide⟩

theorem visitId_selfModule (report : Bool) (visited : List (Visit Node)) :
    visitId report [3, 2, 0] 3 ["A"] ⟨selfModule, visited, []⟩ =
      some ⟨selfModule, visited, []⟩ := by
  have hvalues : values selfModule [3, 2, 0] ["A"] = some [3] := by decide
  have hreplace : selfModule.replace 3 3 = selfModule := by
    rw [Store.replace, Function.update_eq_self]
  simp [visitId, hvalues, withValue, hreplace, setStore]

/-- The definition of `A` is replaced by the value of `A`, which is the name `A`. All three passes
of the resolver succeed, and the name stays. -/
theorem self_constant_stays : selfTree.store.node 3 = .id ["A"] ∧ ∀ lookup,
    ∃ w, (∀ report, run lookup 4 report selfTree.store selfTree.module = some w) ∧
      w.errors = [] ∧ w.store = selfTree.store ∧ discipline.Reaches w.store selfTree.module 3 ∧
      (w.store.node 3).isId = true := by
  refine ⟨rfl, fun lookup => ?_⟩
  have hmiss : ∀ visited c, c ∉ visited → lookup.find selfModule visited c = false := by
    intro visited c hc
    by_contra hfind
    obtain ⟨v, hv, hp⟩ := lookup.sound _ _ _ (Bool.eq_true_of_not_eq_false hfind)
    change v = c at hp
    exact hc (hp ▸ hv)
  refine ⟨⟨selfModule, [⟨3, [2, 0], selfModule⟩, ⟨2, [0], selfModule⟩, ⟨1, [0], selfModule⟩,
    ⟨0, [], selfModule⟩], []⟩, fun report => ?_, rfl, rfl, ?_, rfl⟩
  · have h₀ : selfModule.node 0 = .module "M" (.mk [("A", [3])] [] none) [1, 2] := rfl
    have h₁ : selfModule.node 1 = .attributeMap [] := rfl
    have h₂ : selfModule.node 2 = .other [3] := rfl
    have h₃ : selfModule.node 3 = .id ["A"] := rfl
    simp [selfTree, run, preOrder, hmiss, Walk.enter, h₀, h₁, h₂, h₃, visit, visitId_selfModule,
      Node.children]
  · refine (Relation.ReflTransGen.single (b := 2) ?_).tail ?_
    · decide
    · decide

end Diffingo.IdResolver
