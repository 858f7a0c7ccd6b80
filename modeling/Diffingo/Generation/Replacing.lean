import Diffingo.Generation.Binding

/-!
# Visits that replace names

What one visit of the resolver does to the occurrences that lambdas bind: the visit of a name
redirects no bound occurrence (`Kept`), the visit of a lambda those whose outermost binder it is
(`Sound.lambda`).
-/

namespace Diffingo.IdResolver

open Traversal

namespace Parsed

variable {p : Parsed}

/-! ## Visits of names -/

section Names

variable {V : Nat → Prop} {s : Store Node} {var : Nat → Nat}

/-- Nothing outside the expressions is enclosed by a lambda. -/
theorem enclosing_eq_nil {c : Nat} (h : ¬ p.inside c) : p.enclosing c = [] := by
  by_contra hne
  obtain ⟨a, ha⟩ := List.exists_mem_of_ne_nil _ hne
  obtain ⟨hlt, elemId, elemExpr, hnode, hunder⟩ := p.enclosing_under c a ha
  have hinside := p.inside_of_lambda a hlt (by simp [hnode, Node.isLambda])
  exact h (Under.inside hinside (.head (by simp [hnode, Node.children]) hunder)).1

/-- A new cell, or one that hangs outside all lambdas. -/
def Hung (p : Parsed) (s : Store Node) (c : Nat) : Prop :=
  (p.store.size ≤ c ∧ c < s.size) ∨ p.Bare c

theorem Hung.lt (hs : p.Shape V s) {c : Nat} (h : p.Hung s c) : c < s.size :=
  h.elim And.right fun h => h.lt.trans_le hs.size_le

theorem Hung.grows {t : Store Node} (hg : Grows s t) {c : Nat} (h : p.Hung s c) : p.Hung t c :=
  h.imp_left fun h => ⟨h.1, h.2.trans_le hg.size_le⟩

theorem Hung.enclosing {c : Nat} (h : p.Hung s c) (hc : c < p.store.size) :
    p.enclosing c = [] := by
  obtain ⟨hle, -⟩ | h := h
  · omega
  · exact h.enclosing

/-- What hangs below a node outside all lambdas that is neither a lambda, nor a `find`, nor a part
of a variable. -/
theorem Shape.child_hung (hs : p.Shape V s) {c d : Nat} (hc : c < s.size)
    (henc : c < p.store.size → p.enclosing c = []) (hpart : (s.node c).isPart = false)
    (hlambda : (s.node c).isLambda = false) (hfind : ∀ l others, s.node c ≠ .find l others)
    (hd : d ∈ (s.node c).children) : p.Hung s d := by
  cases hs.points hc with
  | tree hlt _ hnode =>
    rw [hnode] at hd hlambda hfind
    refine .inr ⟨p.child_lt c hlt d hd, ?_, c, hlt, hd, hfind⟩
    rw [enclosing_of_not_lambda hlt hd hlambda, henc hlt]
  | name a _ _ _ hfree _ hnode =>
    rw [hnode] at hd hfind
    refine .inr ⟨p.child_lt a hfree.lt d hd, ?_, a, hfree.lt, hd, hfind⟩
    rw [enclosing_of_not_lambda hfree.lt hd hfree.isLambda, hfree.enclosing]
  | part _ _ _ hpart' =>
    rw [hpart] at hpart'
    cases hpart'
  | holder _ _ _ _ _ _ hchildren => exact hchildren d hd

/-- A visit adds nodes and may redirect cells. -/
structure Adds (p : Parsed) (var : Nat → Nat) (V : Nat → Prop) (s : Store Node)
    (r : Store Node × Nat) : Prop where
  sound : p.Sound var V r.1
  grows : Grows s r.1
  field_le : p.store.size ≤ r.2
  field_lt : r.2 < r.1.size

theorem createField_adds (hs : p.Sound var V s) {scope : Scope} (hscope : p.Known scope)
    {condition : Option Nat} {type : Nat} (htype : p.Hung s type) {attrs : List (String × Nat)}
    (hattrs : ∀ a ∈ attrs, p.Hung s a.2) {rest : List Nat} (hrest : ∀ d ∈ rest, p.Hung s d) :
    p.Adds var V s (createField s scope condition type attrs rest) := by
  have hmap : p.Added V s (.attributeMap attrs) := by
    refine .holder rfl (by simp [Node.ownScope, Node.scope]) fun c hc => ?_
    obtain ⟨a, ha, rfl⟩ : ∃ a ∈ attrs, a.2 = c := by simpa [Node.children] using hc
    exact hattrs a ha
  have hg := Grows.alloc s (.attributeMap attrs)
  have hs₁ := hs.alloc hmap
  have hitem : p.Added V (s.alloc (.attributeMap attrs))
      (.item scope condition (type :: s.size :: rest)) := by
    refine .holder rfl (fun sc hsc => ?_) fun c hc => ?_
    · obtain rfl : scope = sc := by simpa [Node.ownScope, Node.scope] using hsc
      exact hscope
    · obtain rfl | rfl | hc : c = type ∨ c = s.size ∨ c ∈ rest := by
        simpa [Node.children] using hc
      · exact htype.grows hg
      · exact .inl ⟨hs.shape.size_le, Nat.lt_succ_self _⟩
      · exact (hrest c hc).grows hg
  exact ⟨hs₁.alloc hitem, hg.trans (.alloc _ _), hs₁.shape.size_le, Nat.lt_succ_self _⟩

theorem Known.empty {parent : Option Scope} (h : ∀ scope ∈ parent, p.Known scope) :
    p.Known (.mk [] [] parent) := by
  intro path v hv
  obtain ⟨scope, hscope, hv⟩ := Scope.lookup_empty hv
  exact h scope hscope path v hv

theorem added_leafType (s : Store Node) : p.Added V s (.type []) :=
  .part rfl (by simp [Node.children])

theorem createByType_adds {fuel : Nat} {type : Nat} {scope : Scope} {condition : Option Nat}
    {attrs : List (String × Nat)} {params sinks : List Nat} {r : Store Node × Nat}
    (h : createByType fuel s type scope condition attrs params sinks = some r)
    (hs : p.Sound var V s) (hscope : p.Known scope) (htype : p.Hung s type)
    (hattrs : ∀ a ∈ attrs, p.Hung s a.2) (hparams : ∀ d ∈ params, p.Hung s d)
    (hsinks : ∀ d ∈ sinks, p.Hung s d) : p.Adds var V s r := by
  induction fuel generalizing s type scope condition attrs params sinks r with
  | zero => cases h
  | succ fuel ih =>
    rw [createByType] at h
    split at h
    · cases h
      refine createField_adds hs hscope htype hattrs fun d hd => ?_
      exact (List.mem_append.mp hd).elim (hparams d) (hsinks d)
    · next element hnode =>
      obtain ⟨⟨s₁, field⟩, hinner, hr⟩ := Option.bind_eq_some_iff.mp h
      cases hr
      have helement : p.Hung s element :=
        hs.shape.child_hung (htype.lt hs.shape) htype.enclosing (by simp [hnode, Node.isPart])
          (by simp [hnode, Node.isLambda]) (by simp [hnode]) (by simp [hnode, Node.children])
      obtain ⟨hs₁, hg₁, hle, hlt⟩ := ih hinner hs (.empty (by simpa using hscope)) helement
        (by simp) (by simp) (by simp)
      have hs₂ := hs₁.alloc (added_leafType s₁)
      have hg₂ := hg₁.trans (.alloc s₁ (.type []))
      have hfield : p.Hung (s₁.alloc (.type [])) field := .inl ⟨hle, Nat.lt_succ_of_lt hlt⟩
      have hcreated : p.Adds var V (s₁.alloc (.type []))
          (createField (s₁.alloc (.type [])) scope condition s₁.size attrs (sinks ++ [field])) := by
        refine createField_adds hs₂ hscope (.inl ⟨hs₁.shape.size_le, Nat.lt_succ_self s₁.size⟩)
          (fun a ha => (hattrs a ha).grows hg₂) fun d hd => ?_
        obtain hd | hd := List.mem_append.mp hd
        · exact (hsinks d hd).grows hg₂
        · rwa [List.mem_singleton.mp hd]
      exact ⟨hcreated.sound, hg₂.trans hcreated.grows, hcreated.field_le, hcreated.field_lt⟩
    · cases h
      exact createField_adds hs hscope htype hattrs hsinks

variable {report : Bool} {current : List Nat} {c : Nat} {w w₁ : State}

theorem withValue_cases {unknown ambiguous : String} {vals : List Nat} {f : Nat → Option State}
    (h : withValue report unknown ambiguous vals w f = some w₁) :
    w₁.store = w.store ∨ ∃ v ∈ vals, f v = some w₁ := by
  unfold withValue at h
  split at h
  · cases h
    left
    split <;> rfl
  · exact .inr ⟨_, List.mem_cons_self, h⟩
  · cases h
    exact .inl rfl

/-- What a visit other than that of a lambda does. -/
structure Kept (p : Parsed) (var : Nat → Nat) (V : Nat → Prop) (s t : Store Node) : Prop where
  sound : p.Sound var V t
  grows : Grows s t

theorem Kept.refl (hs : p.Sound var V s) : p.Kept var V s s := ⟨hs, .refl s⟩

/-- The cell of a name of the tree, and the node of the tree it points to. -/
theorem Shape.named (hs : p.Shape V s) (hc : c < s.size) (hname : (s.node c).isName) :
    c < p.store.size ∧ (p.store.nodes c).isName ∧ ∃ a < p.store.size,
      p.store.nodes a = s.node c ∧ (p.inside c → p.inside a) := by
  cases hs.points hc with
  | tree hlt _ hnode => exact ⟨hlt, hnode ▸ hname, c, hlt, hnode.symm, id⟩
  | name a hlt hname' _ hfree hplain hnode =>
    exact ⟨hlt, hname', a, hfree.lt, hnode.symm, fun h => (hplain h).inside⟩
  | part _ _ _ hpart => cases hn : s.node c <;> rw [hn] at hname hpart <;> contradiction
  | holder _ _ _ _ hholder => cases hn : s.node c <;> rw [hn] at hname hholder <;> contradiction

/-- A name is redirected to what another cell points to. -/
theorem Sound.replace_name (hs : p.Sound var V s) (hc : c < s.size)
    (hready : c < p.store.size → p.Ready V c) (hname : (s.node c).isName) {t : Nat}
    (ht : p.Goal s c (s.pointee t)) : p.Kept var V s (s.replace c t) := by
  obtain ⟨hlt, hname', -⟩ := hs.shape.named hc hname
  have hpart : (s.node c).isPart = false := by
    cases hn : s.node c <;> rw [hn] at hname <;> first | rfl | cases hname
  refine ⟨hs.replace hlt hname' ht ?_, le_rfl, fun _ _ => rfl⟩
  exact hs.bound.binders_eq_nil hlt (hready hlt) hpart

section Visit

variable (hsep : p.Separate) (hs : p.Sound var V w.store)
variable (hcurrent : ∀ d ∈ c :: current, d < w.store.size)
variable (hready : c < p.store.size → p.Ready V c)

include hsep hs hcurrent hready

theorem visitId_kept {path : Path} (hnode : w.store.node c = .id path)
    (h : visitId report (c :: current) c path w = some w₁) :
    p.Kept var V w.store w₁.store := by
  obtain ⟨vals, hvals, h⟩ := Option.bind_eq_some_iff.mp h
  obtain hsame | ⟨v, hv, hset⟩ := withValue_cases h
  · rw [hsame]
    exact .refl hs
  cases hset
  have hc := hcurrent c List.mem_cons_self
  have hname : (w.store.node c).isName := by simp [hnode, Node.isName, Node.isId]
  obtain ⟨-, -, a, ha, haeq, -⟩ := hs.shape.named hc hname
  have hplain := hsep.id a ha path (haeq.trans hnode) v (hs.shape.values hcurrent hvals v hv)
  exact hs.replace_name hc hready hname (hs.shape.goal hplain.free fun _ => hplain)

theorem visitUnknownType_kept {path : Path} (hnode : w.store.node c = .unknownType (some path))
    (h : visitUnknownType report (c :: current) c path w = some w₁) :
    p.Kept var V w.store w₁.store := by
  obtain ⟨vals, hvals, h⟩ := Option.bind_eq_some_iff.mp h
  obtain hsame | ⟨v, hv, hset⟩ := withValue_cases h
  · rw [hsame]
    exact .refl hs
  have hc := hcurrent c List.mem_cons_self
  have hname : (w.store.node c).isName := by
    simp [hnode, Node.isName, Node.isId, Node.isUnknownType]
  obtain ⟨-, -, a, ha, haeq, hinside⟩ := hs.shape.named hc hname
  have hoffered := hs.shape.moduleValues hcurrent hvals v hv
  obtain ⟨hvlt, hkind, -⟩ := p.offered path v hoffered
  split at hset
  · next t ht =>
    cases hset
    have hfree : p.Free t ∧ (p.inside c → p.Plain t) := by
      cases hs.shape.points (hvlt.trans_le hs.shape.size_le) with
      | tree _ _ hvnode =>
        obtain ⟨hfree, hplain⟩ := hsep.type a ha path (haeq.trans hnode) v hoffered t
          (hvnode.symm.trans ht)
        exact ⟨hfree, fun hin => hplain (hinside hin)⟩
      | name b hlt hvname _ _ hplain hvnode =>
        -- The value is itself a name, of a type with nothing but plain parts.
        have hid : (p.store.nodes v).isId := by
          cases hn : p.store.nodes v <;> rw [hn] at hkind hvname <;> first | rfl | contradiction
        have hb := hplain (p.inside_of_id v hlt hid)
        have hchild : t ∈ (p.store.nodes b).children := by
          rw [← hvnode, ht]
          exact List.mem_singleton.mpr rfl
        exact ⟨(hb.child hchild).free, fun _ => hb.child hchild⟩
      | part _ _ _ hpart =>
        rw [ht] at hpart
        cases hpart
      | holder _ _ _ _ hholder =>
        rw [ht] at hholder
        cases hholder
    exact hs.replace_name hc hready hname (hs.shape.goal hfree.1 hfree.2)
  · cases hset
    exact .refl hs

omit hsep

theorem visitUnknownField_kept {fuel : Nat} {scope : Scope} {path : Path} {condition : Option Nat}
    {attributes : Nat} {params sinks : List Nat}
    (hnode : w.store.node c = .unknownField scope path condition attributes params sinks)
    (h : visitUnknownField fuel report (c :: current) c scope path condition attributes params sinks
      w = some w₁) : p.Kept var V w.store w₁.store := by
  obtain ⟨vals, hvals, h⟩ := Option.bind_eq_some_iff.mp h
  obtain hsame | ⟨v, hv, hset⟩ := withValue_cases h
  · rw [hsame]
    exact .refl hs
  have hc := hcurrent c List.mem_cons_self
  have hname : (w.store.node c).isName := by simp [hnode, Node.isName, Node.isUnknownField]
  obtain ⟨-, -, a, ha, haeq, hinside⟩ := hs.shape.named hc hname
  have hout : ¬ p.inside c := by
    intro hin
    have hfield := p.inside_field a (hinside hin)
    rw [haeq, hnode] at hfield
    cases hfield
  have hchild : ∀ d ∈ attributes :: params ++ sinks, p.Hung w.store d := by
    intro d hd
    refine hs.shape.child_hung hc (fun _ => enclosing_eq_nil hout) (by simp [hnode, Node.isPart])
      (by simp [hnode, Node.isLambda]) (by simp [hnode]) ?_
    simpa [hnode, Node.children] using hd
  have hsinks : ∀ d ∈ sinks, p.Hung w.store d := fun d hd => hchild d (by simp [hd])
  have hparams : ∀ d ∈ params, p.Hung w.store d := fun d hd => hchild d (by simp [hd])
  have hattrs : ∀ e ∈ (w.store.node attributes).attributes, p.Hung w.store e.2 := by
    have hattributes := hchild attributes (by simp)
    intro e he
    cases hn : w.store.node attributes with
    | attributeMap attrs =>
      rw [hn] at he
      refine hs.shape.child_hung (hattributes.lt hs.shape) hattributes.enclosing
        (by simp [hn, Node.isPart]) (by simp [hn, Node.isLambda]) (by simp [hn]) ?_
      rw [hn]
      exact List.mem_map_of_mem (List.mem_mergeSort.mp he)
    | _ =>
      rw [hn] at he
      cases he
  have hscope : p.Known (.mk [] [] scope.parent) := by
    refine .empty fun parent hparent path v hv => ?_
    obtain ⟨values, children, outer⟩ := scope
    cases outer with
    | none => cases hparent
    | some outer =>
      cases hparent
      refine ⟨a, ha, .mk values children (some parent), ?_, .around (.own hv)⟩
      simp [haeq, hnode, Node.ownScope, Node.scope]
  have hcreated : ∀ {r}, p.Adds var V w.store r →
      p.Kept var V w.store (r.1.replace c r.2) := by
    intro r hr
    obtain ⟨hlt, hname', -⟩ := hs.shape.named hc hname
    have hp := hr.sound.shape.fresh r.2 hr.field_le hr.field_lt
    refine ⟨hr.sound.replace hlt hname' ?_ ?_, hr.grows.size_le, hr.grows.nodes⟩
    · rw [hp]
      exact .new hr.field_le hr.field_lt fun hin => absurd hin hout
    · exact hs.bound.binders_eq_nil hlt (hready hlt) (by simp [hnode, Node.isPart])
  obtain ⟨hvlt, -, hvenc⟩ := p.offered path v (hs.shape.moduleValues hcurrent hvals v hv)
  have hv' := hvlt.trans_le hs.shape.size_le
  have hrest : ∀ {e}, p.Hung w.store e → ∀ d ∈ sinks ++ [e], p.Hung w.store d := by
    intro e he d hd
    obtain hd | hd := List.mem_append.mp hd
    · exact hsinks d hd
    · rwa [List.mem_singleton.mp hd]
  dsimp only at hset
  split at hset
  · next ctor hctor =>
    cases hset
    have hhung : p.Hung w.store ctor :=
      hs.shape.child_hung hv' (fun _ => hvenc) (by simp [hctor, Node.isPart])
        (by simp [hctor, Node.isLambda]) (by simp [hctor]) (by simp [hctor, Node.children])
    have hg := Grows.alloc w.store (.type [])
    have hadds : p.Adds var V (w.store.alloc (.type [])) (createField (w.store.alloc (.type []))
        (.mk [] [] scope.parent) condition w.store.size (w.store.node attributes).attributes
        (sinks ++ [ctor])) :=
      createField_adds (hs.alloc (added_leafType w.store)) hscope
        (.inl ⟨hs.shape.size_le, Nat.lt_succ_self _⟩) (fun e he => (hattrs e he).grows hg)
        fun d hd => (hrest hhung d hd).grows hg
    exact hcreated ⟨hadds.sound, hg.trans hadds.grows, hadds.field_le, hadds.field_lt⟩
  · next k hk =>
    split at hset
    · next type cs hconst =>
      cases hset
      have hhung : p.Hung w.store k :=
        hs.shape.child_hung hv' (fun _ => hvenc) (by simp [hk, Node.isPart])
          (by simp [hk, Node.isLambda]) (by simp [hk]) (by simp [hk, Node.children])
      have htype : p.Hung w.store type :=
        hs.shape.child_hung (hhung.lt hs.shape) hhung.enclosing (by simp [hconst, Node.isPart])
          (by simp [hconst, Node.isLambda]) (by simp [hconst]) (by simp [hconst, Node.children])
      exact hcreated (createField_adds hs hscope htype hattrs (hrest hhung))
    · cases hset
  · next t ht =>
    obtain ⟨r, hr, hset⟩ := Option.bind_eq_some_iff.mp hset
    cases hset
    have hhung : p.Hung w.store t :=
      hs.shape.child_hung hv' (fun _ => hvenc) (by simp [ht, Node.isPart])
        (by simp [ht, Node.isLambda]) (by simp [ht]) (by simp [ht, Node.children])
    exact hcreated (createByType_adds hr hs hscope hhung hattrs hparams hsinks)
  · cases hset
    exact .refl hs

end Visit

end Names

/-! ## Visits of lambdas -/

section Lambdas

variable {V : Nat → Prop} {s : Store Node} {var : Nat → Nat} {current : List Nat} {c : Nat}

theorem Shape.pointee_eq (hs : p.Shape V s) {d : Nat} (hd : d < p.store.size)
    (hname : (p.store.nodes d).isName = false) : s.pointee d = d := by
  obtain hp | ⟨hname', -⟩ := hs.moved d hd
  · exact hp
  · rw [hname] at hname'
    cases hname'

/-- No other cell comes to share the node of a lambda. -/
theorem Shape.eq_of_pointee (hs : p.Shape V s) {d : Nat} (hd : d < s.size) (hc : c < p.store.size)
    (hlambda : (p.store.nodes c).isLambda) (h : s.pointee d = c) : d = c := by
  cases hs.points hd with
  | tree _ hp => exact hp.symm.trans h
  | name a _ _ hp hfree =>
    rw [← hp, h] at hfree
    rw [hfree.isLambda] at hlambda
    cases hlambda
  | part _ hle => omega
  | holder _ _ hle => omega

theorem Shape.find_of_node (hs : p.Shape V s) {e l : Nat} {others : List Nat} (he : e < s.size)
    (hnode : s.node e = .find l others) :
    ∃ a < p.store.size, p.store.nodes a = .find l others := by
  cases hs.points he with
  | tree hlt _ hn => exact ⟨e, hlt, hn.symm.trans hnode⟩
  | name a _ _ _ hfree _ hn => exact ⟨a, hfree.lt, hn.symm.trans hnode⟩
  | part _ _ _ hpart =>
    rw [hnode] at hpart
    cases hpart
  | holder _ _ _ _ hholder =>
    rw [hnode] at hholder
    cases hholder

/-- The resolver comes to a lambda from a `find` only after the list that it searches. -/
def Entered (p : Parsed) (V : Nat → Prop) (current : List Nat) (c : Nat) : Prop :=
  ∃ b < p.store.size, c ∈ (p.store.nodes b).children ∧ ∀ l others,
    p.store.nodes b = .find l others → (∃ rest, current = b :: rest) ∧ p.Done V l

theorem Shape.searchedList (hs : p.Shape V s) (hcurrent : ∀ d ∈ c :: current, d < s.size)
    (hc : c < p.store.size) (hlambda : (p.store.nodes c).isLambda)
    (hentered : p.Entered V current c) :
    (∃ l, p.Searches c l ∧ searchedList s (c :: current) c = some l ∧ p.Done V l ∧
      (p.store.nodes l).isLambda = false) ∨
    (∀ l, ¬ p.Searches c l) ∧ searchedList s (c :: current) c = none := by
  have hname : (p.store.nodes c).isName = false := by
    cases hn : p.store.nodes c <;> rw [hn] at hlambda <;> first | rfl | cases hlambda
  have hp := hs.pointee_eq hc hname
  have hself : ∀ l others, s.node c ≠ .find l others := by
    intro l others heq
    rw [Store.node, hp, hs.nodes c hc] at heq
    rw [heq] at hlambda
    cases hlambda
  by_cases hsearch : ∃ l, p.Searches c l
  · left
    obtain ⟨l, f, hf, others, hfind, hmem⟩ := hsearch
    obtain ⟨b, hb, hchild, hdone⟩ := hentered
    have hbf := p.find_lambda f hf l others hfind c hmem hlambda b hb hchild
    subst hbf
    obtain ⟨⟨rest, rfl⟩, hlist⟩ := hdone l others hfind
    have hnode : s.node b = .find l others := by
      rw [Store.node, hs.pointee_eq hb (by rw [hfind]; rfl), hs.nodes b hb, hfind]
    refine ⟨l, ⟨b, hf, others, hfind, hmem⟩, ?_, hlist, p.find_list b hf l others hfind⟩
    have hany : (l :: others).any (fun d => s.pointee d == s.pointee c) :=
      List.any_eq_true.mpr ⟨c, List.mem_cons_of_mem l hmem, by simp⟩
    unfold IdResolver.searchedList
    rw [List.findSome?_cons]
    split
    · next heq =>
      split at heq
      · next l' others' hn => exact absurd hn (hself l' others')
      · cases heq
    · rw [List.findSome?_cons, hnode]
      simp only [Option.bind_eq_bind, Option.bind_some, hany, if_true]
  · right
    refine ⟨fun l hl => hsearch ⟨l, hl⟩, ?_⟩
    rw [Option.eq_none_iff_forall_ne_some]
    intro l hl
    obtain ⟨⟨l', children⟩, hfind, hif⟩ := Option.bind_eq_some_iff.mp hl
    obtain ⟨e, he, hnode⟩ := List.exists_of_findSome?_eq_some hfind
    split at hnode
    · next l'' others hn =>
      cases hnode
      dsimp only at hif
      split at hif
      · next hany =>
        obtain ⟨d, hd, heq⟩ := List.any_eq_true.mp hany
        obtain ⟨a, ha, hfind'⟩ := hs.find_of_node (hcurrent e he) hn
        have hdlt : d < p.store.size :=
          p.child_lt a ha d (by simpa [hfind', Node.children] using hd)
        have hdc : s.pointee d = c := (beq_iff_eq.mp heq).trans hp
        obtain rfl := hs.eq_of_pointee (hdlt.trans_le hs.size_le) hc hlambda hdc
        obtain rfl | hd := List.mem_cons.mp hd
        · rw [p.find_list a ha d others hfind'] at hlambda
          cases hlambda
        · exact hsearch ⟨l', a, ha, others, hfind', hd⟩
      · cases hif
    · cases hnode

/-! ### The replacer -/

/-- The cells that the replacer comes to in the body of a lambda. -/
def Within (p : Parsed) (V : Nat → Prop) (s : Store Node) (body c : Nat) : Prop :=
  (p.inside c ∧ (Under p.store body c ∨ p.Done V c)) ∨
    (p.store.size ≤ c ∧ c < s.size ∧ (s.nodes c).isPart)

/-- What a replacer does to the store. -/
structure Replaced (p : Parsed) (V : Nat → Prop) (s : Store Node) (old : Path) (body new : Nat)
    (t : Store Node) : Prop where
  size : t.size = s.size
  nodes : t.nodes = s.nodes
  pointee : ∀ c, t.pointee c = s.pointee c ∨
    p.inside c ∧ (Under p.store body c ∨ p.Done V c) ∧ (s.node c).IsNamed old ∧ t.pointee c = new

section Replacer

variable {old : Path} {body new : Nat} {t : Store Node}

theorem Shape.within_of_part (hs : p.Shape V s) (hle : p.store.size ≤ c) (hlt : c < s.size)
    (hpart : (s.nodes c).isPart) {d : Nat} (hd : d ∈ (s.node c).children) :
    p.Within V s body d := by
  cases hs.points hlt with
  | tree hlt' => omega
  | name _ hlt' => omega
  | part _ _ _ _ hchildren =>
    exact (hchildren d hd).symm.imp (fun h => ⟨h.1.inside, .inr h.1⟩) id
  | holder _ _ _ hself hholder =>
    rw [Store.node, hself hle] at hholder
    rw [Node.isPart_of_isHolder hholder] at hpart
    cases hpart

theorem Replaced.within (hs : p.Shape V s) (hnew : p.store.size ≤ new ∧ new < s.size)
    (hpart : (s.nodes new).isPart) (ht : p.Replaced V s old body new t)
    (hc : p.Within V s body c) {d : Nat} (hd : d ∈ (t.node c).children) :
    p.Within V s body d := by
  obtain hp | ⟨-, -, -, hp⟩ := ht.pointee c
  · have hnode : t.node c = s.node c := by rw [Store.node, Store.node, hp, ht.nodes]
    rw [hnode] at hd
    obtain ⟨hinside, hc⟩ | ⟨hle, hlt, hpart⟩ := hc
    · have hlt := p.inside_lt c hinside
      cases hs.points (hlt.trans_le hs.size_le) with
      | tree _ _ hnode =>
        rw [hnode] at hd
        refine .inl ⟨(p.inside_child c hinside d hd).1, ?_⟩
        exact hc.imp (fun h => h.tail hd) fun h => h.child hd
      | name a _ _ _ _ hplain hnode =>
        rw [hnode] at hd
        have hdplain := (hplain hinside).child hd
        exact .inl ⟨hdplain.inside, .inr hdplain.done⟩
      | part _ _ _ _ hchildren =>
        exact (hchildren d hd).symm.imp (fun h => ⟨h.1.inside, .inr h.1⟩) id
      | holder hout => exact absurd hinside hout
    · exact hs.within_of_part hle hlt hpart hd
  · have hnode : t.node c = s.node new := by
      rw [Store.node, Store.node, hp, hs.fresh new hnew.1 hnew.2, ht.nodes]
    rw [hnode] at hd
    exact hs.within_of_part hnew.1 hnew.2 hpart hd

theorem Replaced.visit (hs : p.Shape V s) (hnew : p.store.size ≤ new ∧ new < s.size)
    (hpart : (s.nodes new).isPart) {w w₁ : State} (hw : p.Replaced V s old body new w.store)
    (hc : p.Within V s body c) (h : visitReplacer old new current c w = some w₁) :
    p.Replaced V s old body new w₁.store := by
  have hnewp := hs.fresh new hnew.1 hnew.2
  have hnewp' : w.store.pointee new = new := by
    obtain hp | ⟨-, -, -, hp⟩ := hw.pointee new
    · exact hp.trans hnewp
    · exact hp
  unfold visitReplacer at h
  split at h
  · next path hpath =>
    cases h
    split
    · next hname =>
      have hsame : w.store.pointee c = s.pointee c := by
        obtain hp | ⟨-, -, -, hp⟩ := hw.pointee c
        · exact hp
        · rw [Store.node, hp, hw.nodes] at hpath
          rw [hpath] at hpart
          cases hpart
      have hnode : s.node c = .id path := by
        rw [← hpath, Store.node, Store.node, hsame, hw.nodes]
      refine ⟨hw.size, hw.nodes, fun e => ?_⟩
      by_cases he : e = c
      · subst he
        obtain ⟨hinside, hunder⟩ | ⟨hle, hlt, hpart'⟩ := hc
        · refine .inr ⟨hinside, hunder, ⟨path, hnode, hname⟩, ?_⟩
          exact (w.store.replace_pointee_self e new).trans hnewp'
        · rw [Store.node, hs.fresh e hle hlt] at hnode
          rw [hnode] at hpart'
          cases hpart'
      · have hp : (setStore w (w.store.replace c new)).store.pointee e = w.store.pointee e :=
          w.store.replace_pointee_of_ne new he
        rw [hp]
        exact hw.pointee e
    · exact hw
  · cases h
    exact hw

/-- A store in which occurrences may be replaced by the expression in `new`. -/
structure Replaceable (new : Nat) (s : Store Node) : Prop where
  pointee_lt : ∀ c < s.size, s.pointee c < s.size
  child_lt : ∀ a < s.size, ∀ c ∈ (s.nodes a).children, c < s.size
  new_lt : new < s.size
  isId : (s.node new).isId = false

/-- Occurrences of the name have to go. -/
def replacing (old : Path) (new : Nat) : Discipline Node where
  children := Node.children
  links := Node.children
  unresolved := Node.IsNamed old
  transient _ := False
  settled _ := False
  inv := Replaceable new
  link_of_child h := h
  settled_leaf h := h.elim
  settled_fixed h := h.elim
  pointee_lt h hc := h.pointee_lt _ hc
  link_lt h hc hd := h.child_lt _ (h.pointee_lt _ hc) _ hd

theorem replacing_visits (old : Path) (new : Nat) :
    (replacing old new).Visits (fun _ => True) (visitReplacer old new) where
  visited {current c w w₁} h := by
    unfold visitReplacer at h
    split at h <;> cases h
    · split <;> rfl
    · rfl
  errors {current c w w₁} h := by
    unfold visitReplacer at h
    split at h <;> cases h
    · split <;> exact List.suffix_rfl
    · exact List.suffix_rfl
  effect {current c w w₁} h hs hcurrent _ _ := by
    have hsame : ¬ (w.store.node c).IsNamed old →
        (replacing old new).Effect w.store c w.store := fun hn =>
      ⟨hs, le_rfl, fun _ _ => rfl, fun _ _ => .inl rfl, ⟨hn, id⟩, fun d hd => .inl hd⟩
    unfold visitReplacer at h
    split at h
    · next path hpath =>
      cases h
      split
      · next hname =>
        refine ⟨⟨fun e he => ?_, hs.child_lt, hs.new_lt, ?_⟩, le_rfl, fun _ _ => rfl,
          fun e he => ?_, ⟨?_, id⟩, fun d hd => .inl hd⟩
        · show (w.store.replace c new).pointee e < w.store.size
          by_cases hec : e = c
          · rw [hec, Store.replace_pointee_self]
            exact hs.pointee_lt new hs.new_lt
          · rw [w.store.replace_pointee_of_ne new hec]
            exact hs.pointee_lt e he
        · show ((w.store.replace c new).node new).isId = false
          by_cases hec : new = c
          · rw [← hec, Store.replace_node_self]
            exact hs.isId
          · rw [Store.node, w.store.replace_pointee_of_ne new hec]
            exact hs.isId
        · by_cases hec : e = c
          · exact .inr (.inl ⟨path, by rw [hec, hpath], hname⟩)
          · exact .inl (w.store.replace_pointee_of_ne new hec)
        · show ¬ ((w.store.replace c new).node c).IsNamed old
          rw [Store.replace_node_self]
          rintro ⟨path', hpath', -⟩
          have hid := hs.isId
          rw [hpath'] at hid
          cases hid
      · next hname =>
        refine hsame ?_
        rintro ⟨path', hpath', hname'⟩
        rw [hpath] at hpath'
        cases hpath'
        exact hname hname'
    · next hnot =>
      cases h
      refine hsame ?_
      rintro ⟨path', hpath', -⟩
      exact hnot path' hpath'

theorem Shape.replaceable (hs : p.Shape V s) (hnew : p.store.size ≤ new ∧ new < s.size)
    (hpart : (s.nodes new).isPart) : Replaceable new s where
  pointee_lt _ hc := hs.pointee_lt hc
  child_lt a ha d hd := by
    by_cases hlt : a < p.store.size
    · rw [hs.nodes a hlt] at hd
      exact (p.child_lt a hlt d hd).trans_le hs.size_le
    · cases hs.added a (Nat.le_of_not_lt hlt) ha with
      | part _ hchildren =>
        obtain ⟨-, hd, -⟩ | ⟨hdone, -⟩ := hchildren d hd
        · exact hd
        · exact (p.inside_lt d hdone.inside).trans_le hs.size_le
      | holder _ _ hchildren => exact Hung.lt hs (hchildren d hd)
  new_lt := hnew.2
  isId := by
    rw [Store.node, hs.fresh new hnew.1 hnew.2]
    cases hn : s.nodes new <;> rw [hn] at hpart <;> first | rfl | cases hpart

/-- The replacer changes only cells that it comes to, and replaces the name everywhere in the
body. -/
theorem Shape.replacer (hs : p.Shape V s) (hnew : p.store.size ≤ new ∧ new < s.size)
    (hpart : (s.nodes new).isPart) (hbody : p.inside body) {lookup : Lookup Node} {fuel : Nat}
    {r : State}
    (h : preOrder Node.children lookup (visitReplacer old new) fuel [] body ⟨s, [], []⟩ = some r) :
    p.Replaced V s old body new r.store ∧
      ∀ d, Under p.store body d → ¬ (r.store.node d).IsNamed old := by
  have hreplaced : p.Replaced V s old body new r.store := by
    refine preOrder_within (Q := p.Within V s body)
      (J := fun w => p.Replaced V s old body new w.store) ?_ ?_ (.inl ⟨hbody, .inl .refl⟩)
      ⟨rfl, rfl, fun _ => .inl rfl⟩ h
    · intro current c w w' hc hw hvisit
      exact Replaced.visit hs hnew hpart (w := w.enter current c) hw hc hvisit
    · intro c w d hc hw hd
      exact hw.within hs hnew hpart hc hd
  refine ⟨hreplaced, fun d hd => ?_⟩
  have hreaches : (replacing old new).Reaches r.store body d := by
    induction hd with
    | refl => exact .refl
    | @tail b d hb hd ih =>
      refine ih.tail ?_
      show d ∈ (r.store.node b).children
      -- A cell with children is no name, so that nothing has redirected it.
      have hinside := (Under.inside hbody hb).1
      have hblt := p.inside_lt b hinside
      have hname : (p.store.nodes b).isName = false := by
        by_contra hname
        rw [children_of_isName hinside (by simpa using hname)] at hd
        cases hd
      have hp := hs.pointee_eq hblt hname
      have hnode : s.node b = p.store.nodes b := by rw [Store.node, hp, hs.nodes b hblt]
      obtain hsame | ⟨-, -, ⟨path, hpath, -⟩, -⟩ := hreplaced.pointee b
      · rwa [Store.node, hsame, hreplaced.nodes, hp, hs.nodes b hblt]
      · rw [hnode] at hpath
        rw [hpath] at hname
        cases hname
  have herrors : r.errors = [] := by
    have hsuffix := preOrder_rel (R := fun w w' : State => w'.errors = w.errors)
      (fun _ => rfl) (fun h₁ h₂ => h₂.trans h₁) (fun {current c w w'} hvisit => ?_) h
    · exact hsuffix
    · unfold visitReplacer at hvisit
      split at hvisit <;> cases hvisit
      · split <;> rfl
      · rfl
  exact (replacing_visits old new).resolved_of_reaches h (hs.replaceable hnew hpart)
    ((p.inside_lt body hbody).trans_le hs.size_le) ⟨herrors, fun _ _ => trivial⟩ hreaches

end Replacer

variable {elemId : Path} {elemExpr new : Nat}

/-- The replacer of a lambda takes the occurrences whose outermost binder the lambda is, and no
others that are bound. -/
theorem touched {t : Store Node} {c a e : Nat} {V' : Nat → Prop} (hs : p.Sound var V s)
    (hV' : ∀ x, V' x → x = c ∨ V x) (hc : c < p.store.size)
    (hnode : p.store.nodes c = .lambda elemId elemExpr) (hready : p.Ready V c)
    (ht : p.Replaced V' s elemId elemExpr new t) (he : e < p.store.size)
    (ha : (p.binders e).getLast? = some a) :
    t.pointee e = s.pointee e ∨ t.pointee e = new ∧ a = c ∧ ¬ V c := by
  obtain hsame | ⟨-, hwithin, ⟨path, hpath, hname⟩, hp⟩ := ht.pointee e
  · exact .inl hsame
  refine .inr ⟨hp, ?_⟩
  obtain ⟨path', elemId', elemExpr', hid, hmem, hlambda, -⟩ :=
    mem_binders (List.mem_of_getLast? ha)
  have hVa : ¬ V a := by
    intro hVa
    have hlt := (p.enclosing_under e a hmem).1
    obtain ⟨v, type, hb, -⟩ :=
      (hs.bound.isVariable a hlt (by simp [hlambda, Node.isLambda]) hVa).node
    rw [Store.node, hs.bound.taken e he a ha hVa, hb] at hpath
    cases hpath
  have hpathe : p.store.nodes e = .id path := by
    rw [← hs.shape.nodes e he, ← hpath, Store.node, hs.bound.kept e he a ha hVa]
  have hac : a = c := by
    obtain hunder | hdone := hwithin
    · refine (outermost_binder hc hnode hpathe hname.symm hunder ha).resolve_right fun hmem' => ?_
      exact hVa (hready a hmem')
    · exact (hV' a (hdone.ready a hmem)).resolve_right hVa
  exact ⟨hac, hac ▸ hVa⟩

section Variable

variable {V' : Nat → Prop} {t : Store Node}

theorem Sound.replaced_shape (hs : p.Sound var V s) (hV' : ∀ x, V' x ↔ x = c ∨ V x)
    (hc : c < p.store.size) (hready : p.Ready V c) (hvar : p.IsVariable s c new)
    (ht : p.Replaced V' s elemId elemExpr new t) : p.Shape V' t := by
  have hV : ∀ x, V x → V' x := fun x hx => (hV' x).mpr (.inr hx)
  have hs' : p.Shape V' s := by
    refine hs.shape.visit hV fun x hx => ?_
    obtain rfl | hx := (hV' x).mp hx
    · exact .inr ⟨hc.trans_le hs.shape.size_le, fun _ => hready.mono hV⟩
    · exact .inl hx
  refine hs'.redirect ht.size ht.nodes fun e => (ht.pointee e).imp_right ?_
  rintro ⟨hinside, -, ⟨path, hpath, -⟩, hp⟩
  have he := p.inside_lt e hinside
  have hname : (s.node e).isName := by simp [hpath, Node.isName, Node.isId]
  refine ⟨he, (hs'.named (he.trans_le hs'.size_le) hname).2.1, ?_⟩
  obtain ⟨v, type, hb, -⟩ := hvar.node
  rw [hp]
  exact .new hvar.le hvar.lt fun _ => by simp [hb, Node.isPart]

/-- A lambda that is visited again finds its occurrences replaced. -/
theorem Sound.replaced_again (hs : p.Sound var V s) (hV' : ∀ x, V' x ↔ x = c ∨ V x)
    (hc : c < p.store.size) (hnode : p.store.nodes c = .lambda elemId elemExpr)
    (hready : p.Ready V c) (ht : p.Replaced V' s elemId elemExpr new t) (hVc : V c) :
    p.Bound V' var t := by
  have hV : ∀ x, V' x → V x := by
    intro x hx
    obtain rfl | hx := (hV' x).mp hx
    · exact hVc
    · exact hx
  have hg : Grows s t := ⟨ht.size.ge, fun a _ => by rw [ht.nodes]⟩
  have hsame : ∀ e < p.store.size, ∀ a, (p.binders e).getLast? = some a →
      t.pointee e = s.pointee e := by
    intro e he a ha
    obtain h | ⟨-, -, h⟩ := touched hs (fun x => (hV' x).mp) hc hnode hready ht he ha
    · exact h
    · exact absurd hVc h
  refine ⟨fun a ha hlambda hVa => ?_, fun a ha hla hVa b hb hlb hVb => ?_, fun e he a ha hVa => ?_,
    fun e he a ha hVa => ?_⟩
  · exact (hs.bound.isVariable a ha hlambda (hV a hVa)).mono hg
  · exact hs.bound.injective a ha hla (hV a hVa) b hb hlb (hV b hVb)
  · rw [hsame e he a ha, hs.bound.taken e he a ha (hV a hVa)]
  · rw [hsame e he a ha, hs.bound.kept e he a ha fun h => hVa ((hV' a).mpr (.inr h))]

theorem Sound.replaced_first (hs : p.Sound var V s) (hV' : ∀ x, V' x ↔ x = c ∨ V x)
    (hc : c < p.store.size) (hnode : p.store.nodes c = .lambda elemId elemExpr)
    (hready : p.Ready V c) (hvar : p.IsVariable s c new)
    (hfresh : ∀ a < p.store.size, (p.store.nodes a).isLambda → V a → var a ≠ new)
    (ht : p.Replaced V' s elemId elemExpr new t)
    (hall : ∀ d, Under p.store elemExpr d → ¬ (t.node d).IsNamed elemId) (hVc : ¬ V c) :
    p.Bound V' (Function.update var c new) t := by
  have hg : Grows s t := ⟨ht.size.ge, fun a _ => by rw [ht.nodes]⟩
  have hold : ∀ a, a ≠ c → V' a → V a := fun a hne h => ((hV' a).mp h).resolve_left hne
  have htouched : ∀ e < p.store.size, ∀ a, (p.binders e).getLast? = some a →
      t.pointee e = s.pointee e ∨ t.pointee e = new ∧ a = c := fun e he a ha =>
    (touched hs (fun x => (hV' x).mp) hc hnode hready ht he ha).imp_right fun h => ⟨h.1, h.2.1⟩
  refine ⟨fun a ha hlambda hVa => ?_, fun a ha hla hVa b hb hlb hVb heq => ?_,
    fun e he a ha hVa => ?_, fun e he a ha hVa => ?_⟩
  · by_cases hac : a = c
    · subst hac
      rw [Function.update_self]
      exact hvar.mono hg
    · rw [Function.update_of_ne hac]
      exact (hs.bound.isVariable a ha hlambda (hold a hac hVa)).mono hg
  · by_cases hac : a = c <;> by_cases hbc : b = c
    · rw [hac, hbc]
    · rw [hac, Function.update_self, Function.update_of_ne hbc] at heq
      exact absurd heq.symm (hfresh b hb hlb (hold b hbc hVb))
    · rw [hbc, Function.update_self, Function.update_of_ne hac] at heq
      exact absurd heq (hfresh a ha hla (hold a hac hVa))
    · rw [Function.update_of_ne hac, Function.update_of_ne hbc] at heq
      exact hs.bound.injective a ha hla (hold a hac hVa) b hb hlb (hold b hbc hVb) heq
  · by_cases hac : a = c
    · subst hac
      rw [Function.update_self]
      refine ((htouched e he a ha).resolve_left fun hsame => ?_).1
      obtain ⟨path, elemId', elemExpr', hid, hmem, hlambda, hname⟩ :=
        mem_binders (List.mem_of_getLast? ha)
      obtain ⟨-, elemId'', elemExpr'', hlambda', hunder⟩ := p.enclosing_under e a hmem
      rw [hnode] at hlambda hlambda'
      cases hlambda
      cases hlambda'
      refine hall e hunder ⟨path, ?_, hname.symm⟩
      rw [Store.node, hsame, hs.bound.kept e he a ha hVc, ht.nodes, hs.shape.nodes e he, hid]
    · rw [Function.update_of_ne hac]
      obtain h | ⟨-, h⟩ := htouched e he a ha
      · rw [h, hs.bound.taken e he a ha (hold a hac hVa)]
      · exact absurd h hac
  · have hac : a ≠ c := fun h => hVa ((hV' a).mpr (.inl h))
    obtain h | ⟨-, h⟩ := htouched e he a ha
    · rw [h, hs.bound.kept e he a ha fun h => hVa ((hV' a).mpr (.inr h))]
    · exact absurd h hac

/-- The type of the variable of a lambda. -/
def IsElementType (p : Parsed) (s : Store Node) (c : Nat) (type : List Nat) : Prop :=
  (∃ l t, p.Searches c l ∧ type = [t] ∧ (p.store.size ≤ t ∧ t < s.size) ∧ s.nodes t = .type [l]) ∨
    (∀ l, ¬ p.Searches c l) ∧ type = []

theorem addVariable_sound (hs : p.Sound var V s) {type : List Nat}
    (htype : p.IsElementType s c type) :
    p.Sound var V (addVariable s type).1 ∧ Grows s (addVariable s type).1 ∧
      p.IsVariable (addVariable s type).1 c (addVariable s type).2 ∧
      s.size < (addVariable s type).2 := by
  have hother : p.Added V s (.other type) := by
    refine .part rfl fun d hd => .inl ?_
    obtain ⟨l, t, -, rfl, ⟨hle, hlt⟩, ht⟩ | ⟨-, rfl⟩ := htype
    · obtain rfl := List.mem_singleton.mp hd
      exact ⟨hle, hlt, by simp [ht, Node.isPart]⟩
    · cases hd
  have hs₁ := hs.alloc hother
  have hnode₁ : (s.alloc (.other type)).nodes s.size = .other type := by simp [Store.alloc]
  have hexpr : p.Added V (s.alloc (.other type)) (.expression [s.size]) := by
    refine .part rfl fun d hd => .inl ?_
    obtain rfl := List.mem_singleton.mp hd
    exact ⟨hs.shape.size_le, Nat.lt_succ_self _, by rw [hnode₁]; rfl⟩
  have hg := (Grows.alloc s (.other type)).trans (.alloc _ (.expression [s.size]))
  refine ⟨hs₁.alloc hexpr, hg,
    ⟨hs₁.shape.size_le, Nat.lt_succ_self _, s.size, type, ?_, ?_, ?_, ?_⟩, Nat.lt_succ_self _⟩
  · simp [addVariable, Store.alloc]
  · exact ⟨hs.shape.size_le, Nat.lt_succ_of_lt (Nat.lt_succ_self _)⟩
  · exact ((Grows.alloc _ (.expression [s.size])).nodes s.size (Nat.lt_succ_self _)).trans hnode₁
  · refine htype.imp_left ?_
    rintro ⟨l, t, hsearch, heq, ⟨hle, hlt⟩, ht⟩
    exact ⟨l, t, hsearch, heq, ⟨hle, hlt.trans_le hg.size_le⟩, (hg.nodes t hlt).trans ht⟩

theorem Sound.lambda (hs : p.Sound var V s) (hV' : ∀ x, V' x ↔ x = c ∨ V x)
    (hc : c < p.store.size) (hnode : p.store.nodes c = .lambda elemId elemExpr)
    (hready : p.Ready V c) {type : List Nat} (htype : p.IsElementType s c type)
    {lookup : Lookup Node} {fuel : Nat} {r : State}
    (h : preOrder Node.children lookup (visitReplacer elemId (addVariable s type).2) fuel []
      elemExpr ⟨(addVariable s type).1, [], []⟩ = some r) :
    (∃ var', p.Sound var' V' r.store) ∧ Grows s r.store := by
  obtain ⟨hs₂, hg, hvar, hlt⟩ := addVariable_sound hs htype
  have hV : ∀ x, V x → V' x := fun x hx => (hV' x).mpr (.inr hx)
  have hs' : p.Shape V' (addVariable s type).1 := by
    refine hs₂.shape.visit hV fun x hx => ?_
    obtain rfl | hx := (hV' x).mp hx
    · exact .inr ⟨hc.trans_le hs₂.shape.size_le, fun _ => hready.mono hV⟩
    · exact .inl hx
  have hbody : p.inside elemExpr := by
    have hinside := p.inside_of_lambda c hc (by simp [hnode, Node.isLambda])
    exact (p.inside_child c hinside elemExpr (by simp [hnode, Node.children])).1
  obtain ⟨v, type', hb, -⟩ := hvar.node
  obtain ⟨ht, hall⟩ := hs'.replacer ⟨hvar.le, hvar.lt⟩ (by simp [hb, Node.isPart]) hbody h
  have hshape := hs₂.replaced_shape hV' hc hready hvar ht
  refine ⟨?_, hg.trans ⟨ht.size.ge, fun a _ => by rw [ht.nodes]⟩⟩
  by_cases hVc : V c
  · exact ⟨var, hshape, hs₂.replaced_again hV' hc hnode hready ht hVc⟩
  · refine ⟨_, hshape, hs₂.replaced_first hV' hc hnode hready hvar (fun a ha hlambda hVa => ?_) ht
      hall hVc⟩
    exact Nat.ne_of_lt ((hs.bound.isVariable a ha hlambda hVa).lt.trans hlt)

theorem visitLambda_sound {w w₁ : State} (hs : p.Sound var V w.store)
    (hV' : ∀ x, V' x ↔ x = c ∨ V x) (hcurrent : ∀ d ∈ c :: current, d < w.store.size)
    (hc : c < p.store.size) (hnode : p.store.nodes c = .lambda elemId elemExpr)
    (hready : p.Ready V c) (hentered : p.Entered V current c) {lookup : Lookup Node} {fuel : Nat}
    (h : visitLambda lookup fuel (c :: current) c elemId elemExpr w = some w₁) :
    (∃ var', p.Sound var' V' w₁.store) ∧ Grows w.store w₁.store := by
  unfold visitLambda at h
  obtain ⟨l, hsearch, heq, hdone, hlist⟩ | ⟨hnone, heq⟩ :=
    hs.shape.searchedList hcurrent hc (by simp [hnode, Node.isLambda]) hentered
  · simp only [heq] at h
    obtain ⟨r, hr, rfl⟩ := Option.map_eq_some_iff.mp h
    have hadded : p.Added V w.store (.type [l]) := by
      refine .part rfl fun d hd => .inr ?_
      obtain rfl := List.mem_singleton.mp hd
      exact ⟨hdone, hlist⟩
    have htype : p.IsElementType (w.store.alloc (.type [l])) c [w.store.size] :=
      .inl ⟨l, w.store.size, hsearch, rfl, ⟨hs.shape.size_le, Nat.lt_succ_self _⟩,
        by simp [Store.alloc]⟩
    obtain ⟨hsound, hg⟩ := (hs.alloc hadded).lambda hV' hc hnode hready htype hr
    exact ⟨hsound, (Grows.alloc _ _).trans hg⟩
  · simp only [heq] at h
    obtain ⟨r, hr, rfl⟩ := Option.map_eq_some_iff.mp h
    obtain ⟨hsound, hg⟩ := hs.lambda hV' hc hnode hready (.inr ⟨hnone, rfl⟩) hr
    exact ⟨hsound, hg⟩

end Variable

end Lambdas

end Parsed

end Diffingo.IdResolver
