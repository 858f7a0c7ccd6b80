import Diffingo.Generation.Resolution

/-!
# Lambdas and their occurrences

When the resolver comes to a lambda it makes a new variable and lets an `IdExprReplacer` put it in
the place of the lambda's name, everywhere in the lambda's body. The body may contain further
lambdas of the same name: the replacer does not stop there, so that an occurrence gets the variable
of the outermost lambda around it that has its name.

`Parsed` is a syntax tree as the parser leaves it, with the lambdas around every cell. `Shape` and
`Bound` say what the resolver's visits make of it. The variable of a lambda leads on to the list its
`find` searches, and so does a replacer that meets it. What makes this harmless is that a list is
resolved before the lambdas that search it (`Done`).
-/

namespace Diffingo.IdResolver

open Traversal

def Node.isLambda : Node → Bool
  | lambda _ _ => true
  | _ => false

/-- The nodes a resolver redirects cells from. -/
def Node.isName (n : Node) : Bool := n.isId || n.isUnknownType || n.isUnknownField

/-- An occurrence of a name. -/
def Node.IsNamed (old : Path) (n : Node) : Prop :=
  ∃ path, n = .id path ∧ path.pathAsString = old.pathAsString

/-- The nodes of a variable: the expression, the variable itself and its type. -/
def Node.isPart : Node → Bool
  | expression _ | other _ | type _ => true
  | _ => false

/-- The nodes of a new field. -/
def Node.isHolder : Node → Bool
  | item _ _ _ | attributeMap _ => true
  | _ => false

theorem Node.isPart_of_isHolder {n : Node} (h : n.isHolder) : n.isPart = false := by
  cases n <;> first | rfl | cases h

theorem Node.ownScope_of_isPart {n : Node} (h : n.isPart) : n.ownScope = none := by
  cases n <;> first | rfl | cases h

/-- The scope of a node, or one around it, holds `v` for the name. -/
def Offered (s : Store Node) (path : Path) (v : Nat) : Prop :=
  ∃ a < s.size, ∃ scope ∈ (s.nodes a).ownScope, scope.Yields path v

def Under (s : Store Node) : Nat → Nat → Prop :=
  Relation.ReflTransGen fun a c => c ∈ (s.nodes a).children

/-- The syntax tree of a module, with the lambdas around each cell, the innermost first, and the
cells of its expressions. The parser makes an expression after its parts. -/
structure Parsed where
  store : Store Node
  module : Nat
  enclosing : Nat → List Nat
  inside : Nat → Prop
  module_lt : module < store.size
  module_isLambda : (store.nodes module).isLambda = false
  enclosing_module : enclosing module = []
  pointee_eq : ∀ c < store.size, store.pointee c = c
  child_lt : ∀ a < store.size, ∀ c ∈ (store.nodes a).children, c < store.size
  enclosing_child : ∀ a < store.size, ∀ c ∈ (store.nodes a).children,
    enclosing c = if (store.nodes a).isLambda then a :: enclosing a else enclosing a
  enclosing_under : ∀ c, ∀ a ∈ enclosing c,
    a < store.size ∧ ∃ elemId elemExpr, store.nodes a = .lambda elemId elemExpr ∧
      Under store elemExpr c
  enclosing_nodup : ∀ c, (enclosing c).Nodup
  inside_lt : ∀ c, inside c → c < store.size
  inside_of_id : ∀ a < store.size, (store.nodes a).isId → inside a
  inside_of_lambda : ∀ a < store.size, (store.nodes a).isLambda → inside a
  inside_of_find : ∀ a < store.size, ∀ l others, store.nodes a = .find l others → inside a
  inside_child : ∀ a, inside a → ∀ c ∈ (store.nodes a).children, inside c ∧ c < a
  inside_field : ∀ a, inside a → (store.nodes a).isUnknownField = false
  find_list : ∀ a < store.size, ∀ l others, store.nodes a = .find l others →
    (store.nodes l).isLambda = false
  find_lambda : ∀ a < store.size, ∀ l others, store.nodes a = .find l others → ∀ c ∈ others,
    (store.nodes c).isLambda → ∀ b < store.size, c ∈ (store.nodes b).children → b = a
  offered : ∀ path v, Offered store path v →
    v < store.size ∧ (store.nodes v).kind = .expression ∧ enclosing v = []

namespace Parsed

variable (p : Parsed)

/-- The lambdas around an occurrence that have its name. -/
def binders (c : Nat) : List Nat :=
  match p.store.nodes c with
  | .id path => (p.enclosing c).filter fun a =>
    match p.store.nodes a with
    | .lambda elemId _ => elemId.pathAsString = path.pathAsString
    | _ => false
  | _ => []

/-- The lambda is an argument of a `find` in the list `l`. -/
def Searches (a l : Nat) : Prop :=
  ∃ f < p.store.size, ∃ others, p.store.nodes f = .find l others ∧ a ∈ others

/-- A part of an expression that no lambda encloses and that contains none. -/
structure Plain (c : Nat) : Prop where
  inside : p.inside c
  enclosing : p.enclosing c = []
  below : ∀ d, Under p.store c d → (p.store.nodes d).isLambda = false

/-- A node that is no expression, or a plain one. -/
structure Free (c : Nat) : Prop where
  lt : c < p.store.size
  enclosing : p.enclosing c = []
  plain : p.inside c → p.Plain c

/-- What the names in expressions stand for contains no lambda. -/
structure Separate : Prop where
  id : ∀ a < p.store.size, ∀ path, p.store.nodes a = .id path →
    ∀ v, Offered p.store path v ∨ Offered p.store path.tail v → p.Plain v
  type : ∀ a < p.store.size, ∀ path, p.store.nodes a = .unknownType (some path) →
    ∀ v, Offered p.store path v → ∀ t, p.store.nodes v = .typeExpr t →
      p.Free t ∧ (p.inside a → p.Plain t)

variable {p}

/-! ## The tree -/

theorem enclosing_of_not_lambda {a c : Nat} (ha : a < p.store.size)
    (hc : c ∈ (p.store.nodes a).children) (h : (p.store.nodes a).isLambda = false) :
    p.enclosing c = p.enclosing a := by
  rw [p.enclosing_child a ha c hc, if_neg (by simp [h])]

theorem Under.lt {a c : Nat} (ha : a < p.store.size) (h : Under p.store a c) :
    c < p.store.size := by
  induction h with
  | refl => exact ha
  | tail _ hc ih => exact p.child_lt _ ih _ hc

theorem Under.inside {a c : Nat} (ha : p.inside a) (h : Under p.store a c) :
    p.inside c ∧ c ≤ a := by
  induction h with
  | refl => exact ⟨ha, le_rfl⟩
  | tail _ hc ih =>
    obtain ⟨hin, hlt⟩ := p.inside_child _ ih.1 _ hc
    exact ⟨hin, hlt.le.trans ih.2⟩

/-- What encloses a cell below `a` encloses `a` or is a lambda below `a`. -/
theorem Under.enclosing {a c : Nat} (ha : a < p.store.size) (h : Under p.store a c) :
    ∃ between, p.enclosing c = between ++ p.enclosing a ∧
      ∀ b ∈ between, Under p.store a b ∧ (p.store.nodes b).isLambda := by
  induction h with
  | refl => exact ⟨[], rfl, by simp⟩
  | @tail b c hb hc ih =>
    obtain ⟨between, heq, hbetween⟩ := ih
    rw [p.enclosing_child b (Under.lt ha hb) c hc]
    split
    · next hlambda =>
      refine ⟨b :: between, by rw [heq, List.cons_append], ?_⟩
      rintro d (_ | ⟨_, hd⟩)
      · exact ⟨hb, hlambda⟩
      · exact hbetween d hd
    · exact ⟨between, heq, hbetween⟩

theorem Plain.lt {c : Nat} (h : p.Plain c) : c < p.store.size := p.inside_lt c h.inside

theorem Plain.isLambda {c : Nat} (h : p.Plain c) : (p.store.nodes c).isLambda = false :=
  h.below c .refl

theorem Plain.free {c : Nat} (h : p.Plain c) : p.Free c := ⟨h.lt, h.enclosing, fun _ => h⟩

theorem Plain.child {a c : Nat} (h : p.Plain a) (hc : c ∈ (p.store.nodes a).children) :
    p.Plain c where
  inside := (p.inside_child a h.inside c hc).1
  enclosing := by rw [enclosing_of_not_lambda h.lt hc h.isLambda, h.enclosing]
  below d hd := h.below d (.head hc hd)

theorem Free.isLambda {c : Nat} (h : p.Free c) : (p.store.nodes c).isLambda = false := by
  by_contra hlambda
  rw [Bool.not_eq_false] at hlambda
  rw [(h.plain (p.inside_of_lambda c h.lt hlambda)).isLambda] at hlambda
  cases hlambda

/-- The names in expressions have no parts. -/
theorem children_of_isName {c : Nat} (hc : p.inside c) (h : (p.store.nodes c).isName) :
    (p.store.nodes c).children = [] := by
  have hfield := p.inside_field c hc
  cases hn : p.store.nodes c with
  | id path => rfl
  | unknownType id => rfl
  | unknownField => simp [hn, Node.isUnknownField] at hfield
  | _ => simp [hn, Node.isName, Node.isId, Node.isUnknownType, Node.isUnknownField] at h

/-- A lambda searches one list only. -/
theorem Searches.unique {a l l' : Nat} (ha : (p.store.nodes a).isLambda) (h : p.Searches a l)
    (h' : p.Searches a l') : l = l' := by
  obtain ⟨f, hf, others, hnode, hmem⟩ := h
  obtain ⟨f', hf', others', hnode', hmem'⟩ := h'
  have hchild : a ∈ (p.store.nodes f').children := by
    rw [hnode']
    exact List.mem_cons_of_mem l' hmem'
  have heq := p.find_lambda f hf l others hnode a hmem ha f' hf' hchild
  rw [heq, hnode] at hnode'
  cases hnode'
  rfl

theorem mem_binders {c a : Nat} (h : a ∈ p.binders c) : ∃ path elemId elemExpr,
    p.store.nodes c = .id path ∧ a ∈ p.enclosing c ∧
      p.store.nodes a = .lambda elemId elemExpr ∧ elemId.pathAsString = path.pathAsString := by
  unfold binders at h
  split at h
  · next path hpath =>
    obtain ⟨hmem, hname⟩ := List.mem_filter.mp h
    split at hname
    · next elemId elemExpr hnode =>
      exact ⟨path, elemId, elemExpr, hpath, hmem, hnode, by simpa using hname⟩
    · cases hname
  · cases h

theorem binders_nodup (c : Nat) : (p.binders c).Nodup := by
  unfold binders
  split
  · exact (p.enclosing_nodup c).filter _
  · exact List.nodup_nil

/-- The outermost binder of an occurrence below a lambda of its name is that lambda or one around
it. -/
theorem outermost_binder {a c outer : Nat} {elemId path : Path} {elemExpr : Nat}
    (ha : a < p.store.size) (hnode : p.store.nodes a = .lambda elemId elemExpr)
    (hc : p.store.nodes c = .id path) (hname : elemId.pathAsString = path.pathAsString)
    (hunder : Under p.store elemExpr c) (houter : (p.binders c).getLast? = some outer) :
    outer = a ∨ outer ∈ p.enclosing a := by
  have hchild : elemExpr ∈ (p.store.nodes a).children := by simp [hnode, Node.children]
  obtain ⟨between, heq, -⟩ := Under.enclosing (p.child_lt a ha elemExpr hchild) hunder
  rw [p.enclosing_child a ha elemExpr hchild, if_pos (by simp [hnode, Node.isLambda])] at heq
  unfold binders at houter
  simp only [hc, heq, List.filter_append, List.filter_cons, hnode, hname, decide_true,
    if_true] at houter
  rw [List.getLast?_append_of_ne_nil _ (List.cons_ne_nil _ _)] at houter
  have hmem := List.mem_of_getLast? houter
  obtain rfl | hmem := List.mem_cons.mp hmem
  · exact .inl rfl
  · exact .inr (List.mem_of_mem_filter hmem)

/-! ## What holds between visits -/

section States

variable (p) (V : Nat → Prop)

def Ready (c : Nat) : Prop := ∀ a ∈ p.enclosing c, V a

/-- All lambdas from here on have been visited. -/
def Complete (c : Nat) : Prop := ∀ a, Under p.store c a → (p.store.nodes a).isLambda → V a

/-- A part of an expression in which nothing is left to do for the lambdas in it and around it. -/
structure Done (c : Nat) : Prop where
  inside : p.inside c
  ready : p.Ready V c
  complete : p.Complete V c

/-- A cell that no lambda encloses and that is not the argument of a `find`. -/
structure Bare (c : Nat) : Prop where
  lt : c < p.store.size
  enclosing : p.enclosing c = []
  parent : ∃ b < p.store.size, c ∈ (p.store.nodes b).children ∧
    ∀ l others, p.store.nodes b ≠ .find l others

/-- What the scope holds is held by a scope of the tree. -/
def Known (scope : Scope) : Prop := ∀ path, ∀ v ∈ scope.lookup path, Offered p.store path v

/-- The nodes that visits add: those of variables lead to lists that are done with, those of fields
to cells outside all lambdas. -/
inductive Added (s : Store Node) (n : Node) : Prop
  | part (hpart : n.isPart)
      (hchildren : ∀ c ∈ n.children,
        (p.store.size ≤ c ∧ c < s.size ∧ (s.nodes c).isPart) ∨
          p.Done V c ∧ (p.store.nodes c).isLambda = false)
  | holder (hholder : n.isHolder) (hscope : ∀ scope ∈ n.ownScope, p.Known scope)
      (hchildren : ∀ c ∈ n.children, (p.store.size ≤ c ∧ c < s.size) ∨ p.Bare c)

/-- The nodes that visits redirect the cell `c` to. -/
inductive Goal (s : Store Node) (c a : Nat) : Prop
  | new (hle : p.store.size ≤ a) (hlt : a < s.size) (hpart : p.inside c → (s.nodes a).isPart)
  | old (hfree : p.Free a) (hplain : p.inside c → p.Plain a)

structure Shape (s : Store Node) : Prop where
  size_le : p.store.size ≤ s.size
  nodes : ∀ a < p.store.size, s.nodes a = p.store.nodes a
  fresh : ∀ c, p.store.size ≤ c → c < s.size → s.pointee c = c
  added : ∀ a, p.store.size ≤ a → a < s.size → p.Added V s (s.nodes a)
  moved : ∀ c < p.store.size, s.pointee c = c ∨
    (p.store.nodes c).isName ∧ p.Goal s c (s.pointee c)
  visited_lt : ∀ c, V c → c < s.size
  ready : ∀ c < p.store.size, V c → p.Ready V c

/-- The expression in the cell `b` stands for a variable whose type refers to the list that the
lambda `a` searches. -/
structure IsVariable (s : Store Node) (a b : Nat) : Prop where
  le : p.store.size ≤ b
  lt : b < s.size
  node : ∃ v type, s.nodes b = .expression [v] ∧ (p.store.size ≤ v ∧ v < s.size) ∧
    s.nodes v = .other type ∧
    ((∃ l t, p.Searches a l ∧ type = [t] ∧ (p.store.size ≤ t ∧ t < s.size) ∧
      s.nodes t = .type [l]) ∨ (∀ l, ¬ p.Searches a l) ∧ type = [])

/-- Each visited lambda has a variable of its own, which has taken the place of the occurrences
whose outermost binder the lambda is. -/
structure Bound (var : Nat → Nat) (s : Store Node) : Prop where
  isVariable : ∀ a < p.store.size, (p.store.nodes a).isLambda → V a → p.IsVariable s a (var a)
  injective : ∀ a < p.store.size, (p.store.nodes a).isLambda → V a →
    ∀ b < p.store.size, (p.store.nodes b).isLambda → V b → var a = var b → a = b
  taken : ∀ c < p.store.size, ∀ a, (p.binders c).getLast? = some a → V a → s.pointee c = var a
  kept : ∀ c < p.store.size, ∀ a, (p.binders c).getLast? = some a → ¬ V a → s.pointee c = c

end States

section Changes

variable {V V' : Nat → Prop} {s t : Store Node}

theorem Ready.mono (hV : ∀ c, V c → V' c) {c : Nat} (h : p.Ready V c) : p.Ready V' c :=
  fun a ha => hV a (h a ha)

theorem Complete.mono (hV : ∀ c, V c → V' c) {c : Nat} (h : p.Complete V c) : p.Complete V' c :=
  fun a ha hlambda => hV a (h a ha hlambda)

theorem Done.mono (hV : ∀ c, V c → V' c) {c : Nat} (h : p.Done V c) : p.Done V' c :=
  ⟨h.inside, h.ready.mono hV, h.complete.mono hV⟩

theorem Complete.under {a c : Nat} (h : p.Complete V a) (hc : Under p.store a c) :
    p.Complete V c :=
  fun b hb hlambda => h b (hc.trans hb) hlambda

theorem Done.child {a c : Nat} (h : p.Done V a) (hc : c ∈ (p.store.nodes a).children) :
    p.Done V c where
  inside := (p.inside_child a h.inside c hc).1
  ready b hb := by
    rw [p.enclosing_child a (p.inside_lt a h.inside) c hc] at hb
    split at hb
    · next hlambda =>
      obtain rfl | hb := List.mem_cons.mp hb
      · exact h.complete b .refl hlambda
      · exact h.ready b hb
    · exact h.ready b hb
  complete := h.complete.under (.single hc)

theorem Plain.complete {c : Nat} (h : p.Plain c) : p.Complete V c := by
  intro a ha hlambda
  rw [h.below a ha] at hlambda
  cases hlambda

theorem Plain.done {c : Nat} (h : p.Plain c) : p.Done V c :=
  ⟨h.inside, by simp [Ready, h.enclosing], h.complete⟩

/-- Nodes stay where they are. -/
structure Grows (s t : Store Node) : Prop where
  size_le : s.size ≤ t.size
  nodes : ∀ a < s.size, t.nodes a = s.nodes a

theorem Grows.refl (s : Store Node) : Grows s s := ⟨le_rfl, fun _ _ => rfl⟩

theorem Grows.trans {u : Store Node} (h : Grows s t) (h' : Grows t u) : Grows s u :=
  ⟨h.size_le.trans h'.size_le, fun a ha =>
    (h'.nodes a (ha.trans_le h.size_le)).trans (h.nodes a ha)⟩

theorem Grows.alloc (s : Store Node) (n : Node) : Grows s (s.alloc n) :=
  ⟨Nat.le_succ _, fun _ ha => s.alloc_nodes n ha⟩

theorem Added.mono {n : Node} (h : p.Added V s n) (hV : ∀ c, V c → V' c) (hg : Grows s t) :
    p.Added V' t n := by
  cases h with
  | part hpart hchildren =>
    refine .part hpart fun c hc => ?_
    obtain ⟨hle, hlt, hc⟩ | ⟨hdone, hc⟩ := hchildren c hc
    · exact .inl ⟨hle, hlt.trans_le hg.size_le, by rwa [hg.nodes c hlt]⟩
    · exact .inr ⟨hdone.mono hV, hc⟩
  | holder hholder hscope hchildren =>
    refine .holder hholder hscope fun c hc => ?_
    exact (hchildren c hc).imp_left fun h => ⟨h.1, h.2.trans_le hg.size_le⟩

theorem Goal.mono {c a : Nat} (h : p.Goal s c a) (hg : Grows s t) : p.Goal t c a := by
  cases h with
  | new hle hlt hpart =>
    exact .new hle (hlt.trans_le hg.size_le) fun hc => by rw [hg.nodes a hlt, hpart hc]
  | old hfree hplain => exact .old hfree hplain

theorem IsVariable.mono {a b : Nat} (h : p.IsVariable s a b) (hg : Grows s t) :
    p.IsVariable t a b where
  le := h.le
  lt := h.lt.trans_le hg.size_le
  node := by
    obtain ⟨v, type, hb, ⟨hle, hlt⟩, hv, htype⟩ := h.node
    refine ⟨v, type, by rw [hg.nodes b h.lt, hb], ⟨hle, hlt.trans_le hg.size_le⟩,
      by rw [hg.nodes v hlt, hv], htype.imp_left ?_⟩
    rintro ⟨l, t, hsearch, heq, ⟨hle, hlt⟩, ht⟩
    exact ⟨l, t, hsearch, heq, ⟨hle, hlt.trans_le hg.size_le⟩, by rw [hg.nodes t hlt, ht]⟩

theorem Shape.visit (h : p.Shape V s) (hV : ∀ c, V c → V' c)
    (hnew : ∀ c, V' c → V c ∨ c < s.size ∧ (c < p.store.size → p.Ready V' c)) :
    p.Shape V' s where
  size_le := h.size_le
  nodes := h.nodes
  fresh := h.fresh
  added a hle hlt := (h.added a hle hlt).mono hV (.refl s)
  moved := h.moved
  visited_lt c hVc := (hnew c hVc).elim (h.visited_lt c) And.left
  ready c hc hVc := (hnew c hVc).elim (fun hold => (h.ready c hc hold).mono hV) fun h => h.2 hc

theorem Shape.alloc (h : p.Shape V s) {n : Node} (hn : p.Added V s n) :
    p.Shape V (s.alloc n) where
  size_le := h.size_le.trans (Nat.le_succ _)
  nodes a ha := by rw [s.alloc_nodes n (ha.trans_le h.size_le), h.nodes a ha]
  fresh c hle hlt := by
    obtain hlt | rfl := Nat.lt_succ_iff_lt_or_eq.mp hlt
    · rw [s.alloc_pointee n hlt, h.fresh c hle hlt]
    · simp [Store.alloc]
  added a hle hlt := by
    obtain hlt | rfl := Nat.lt_succ_iff_lt_or_eq.mp hlt
    · rw [s.alloc_nodes n hlt]
      exact (h.added a hle hlt).mono (fun _ => id) (.alloc s n)
    · have hnode : (s.alloc n).nodes s.size = n := by simp [Store.alloc]
      rw [hnode]
      exact hn.mono (fun _ => id) (.alloc s n)
  moved c hc := by
    rw [s.alloc_pointee n (hc.trans_le h.size_le)]
    exact (h.moved c hc).imp_right fun h => ⟨h.1, h.2.mono (.alloc s n)⟩
  visited_lt c hV := Nat.lt_succ_of_lt (h.visited_lt c hV)
  ready := h.ready

/-- Redirecting names to nodes of the store. -/
theorem Shape.redirect (h : p.Shape V s) (hsize : t.size = s.size) (hnodes : t.nodes = s.nodes)
    (hmoved : ∀ c, t.pointee c = s.pointee c ∨
      c < p.store.size ∧ (p.store.nodes c).isName ∧ p.Goal s c (t.pointee c)) :
    p.Shape V t where
  size_le := hsize ▸ h.size_le
  nodes a ha := by rw [hnodes, h.nodes a ha]
  fresh c hle hlt := by
    obtain hc | ⟨hc, -⟩ := hmoved c
    · rw [hc, h.fresh c hle (hsize ▸ hlt)]
    · omega
  added a hle hlt := by
    rw [hnodes]
    exact (h.added a hle (hsize ▸ hlt)).mono (fun _ => id) ⟨hsize.ge, fun _ _ => by rw [hnodes]⟩
  moved c hc := by
    have hg : Grows s t := ⟨hsize.ge, fun _ _ => by rw [hnodes]⟩
    obtain hsame | ⟨-, hname, hgoal⟩ := hmoved c
    · rw [hsame]
      exact (h.moved c hc).imp_right fun h => ⟨h.1, h.2.mono hg⟩
    · exact .inr ⟨hname, hgoal.mono hg⟩
  visited_lt c hV := hsize ▸ h.visited_lt c hV
  ready := h.ready

/-- What a cell points to: its own node, a node of the tree that its name stands for, or a new
one. -/
inductive Points (p : Parsed) (V : Nat → Prop) (s : Store Node) (c : Nat) : Prop
  | tree (hlt : c < p.store.size) (hp : s.pointee c = c) (hnode : s.node c = p.store.nodes c)
  | name (a : Nat) (hlt : c < p.store.size) (hname : (p.store.nodes c).isName)
      (hp : s.pointee c = a) (hfree : p.Free a) (hplain : p.inside c → p.Plain a)
      (hnode : s.node c = p.store.nodes a)
  | part (hc : c < p.store.size → (p.store.nodes c).isName) (hle : p.store.size ≤ s.pointee c)
      (hlt : s.pointee c < s.size) (hpart : (s.node c).isPart)
      (hchildren : ∀ d ∈ (s.node c).children,
        (p.store.size ≤ d ∧ d < s.size ∧ (s.nodes d).isPart) ∨
          p.Done V d ∧ (p.store.nodes d).isLambda = false)
  | holder (hinside : ¬ p.inside c) (hlt : s.pointee c < s.size)
      (hle : p.store.size ≤ s.pointee c) (hc : p.store.size ≤ c → s.pointee c = c)
      (hholder : (s.node c).isHolder) (hscope : ∀ scope ∈ (s.node c).ownScope, p.Known scope)
      (hchildren : ∀ d ∈ (s.node c).children, (p.store.size ≤ d ∧ d < s.size) ∨ p.Bare d)

theorem Shape.points (h : p.Shape V s) {c : Nat} (hc : c < s.size) : p.Points V s c := by
  have hnew : p.store.size ≤ s.pointee c → s.pointee c < s.size →
      (p.inside c → (s.node c).isPart) → (c < p.store.size → (p.store.nodes c).isName) →
      (p.store.size ≤ c → s.pointee c = c) → p.Points V s c := by
    intro hle hlt hinside hname hself
    have hadded := h.added (s.pointee c) hle hlt
    generalize hn : s.nodes (s.pointee c) = n at hadded
    replace hn : s.node c = n := hn
    cases hadded with
    | part hpart hchildren =>
      exact .part hname hle hlt (hn ▸ hpart) (hn ▸ hchildren)
    | holder hholder hscope hchildren =>
      refine .holder (fun hc => ?_) hlt hle hself (hn ▸ hholder) (hn ▸ hscope) (hn ▸ hchildren)
      have hpart := hinside hc
      rw [hn, Node.isPart_of_isHolder hholder] at hpart
      cases hpart
  by_cases hlt : c < p.store.size
  · obtain hp | ⟨hname, hgoal⟩ := h.moved c hlt
    · exact .tree hlt hp (by rw [Store.node, hp, h.nodes c hlt])
    · generalize ha : s.pointee c = a at hgoal
      cases hgoal with
      | new hle hlt' hpart =>
        subst ha
        exact hnew hle hlt' hpart (fun _ => hname) (fun hle' => by omega)
      | old hfree hplain =>
        exact .name a hlt hname ha hfree hplain (by rw [Store.node, ha, h.nodes a hfree.lt])
  · have hle : p.store.size ≤ c := Nat.le_of_not_lt hlt
    have hp := h.fresh c hle hc
    refine hnew (hle.trans hp.ge) (hp.trans_lt hc) (fun hin => ?_) (fun hlt' => ?_) fun _ => hp
    · exact absurd (p.inside_lt c hin) hlt
    · exact absurd hlt' hlt

theorem Shape.pointee_lt (h : p.Shape V s) {c : Nat} (hc : c < s.size) : s.pointee c < s.size := by
  cases h.points hc with
  | tree _ hp => rwa [hp]
  | name a _ _ hp hfree => exact hp ▸ hfree.lt.trans_le h.size_le
  | part _ _ hlt => exact hlt
  | holder _ hlt => exact hlt

/-- Scopes that the resolver meets hold what scopes of the tree hold. -/
theorem Shape.known (h : p.Shape V s) {c : Nat} (hc : c < s.size) {scope : Scope}
    (hscope : scope ∈ (s.node c).ownScope) : p.Known scope := by
  cases h.points hc with
  | tree hlt _ hnode => exact fun path v hv => ⟨c, hlt, scope, hnode ▸ hscope, .own hv⟩
  | name a _ _ _ hfree _ hnode =>
    exact fun path v hv => ⟨a, hfree.lt, scope, hnode ▸ hscope, .own hv⟩
  | part _ _ _ hpart =>
    rw [Node.ownScope_of_isPart hpart] at hscope
    cases hscope
  | holder _ _ _ _ _ hknown => exact hknown scope hscope

theorem Shape.currentModule (h : p.Shape V s) {nodes : List Nat} (hnodes : ∀ d ∈ nodes, d < s.size)
    {m : String × Scope} (hm : currentModule s nodes = some m) : p.Known m.2 := by
  obtain ⟨d, hd, hnode⟩ := List.exists_of_findSome?_eq_some hm
  split at hnode
  · next name scope cs heq =>
    cases hnode
    exact h.known (hnodes d hd) (by simp [heq, Node.ownScope])
  · cases hnode

theorem Shape.moduleValues (h : p.Shape V s) {nodes : List Nat} (hnodes : ∀ d ∈ nodes, d < s.size)
    {path : Path} {vals : List Nat} (hvals : moduleValues s nodes path = some vals) :
    ∀ v ∈ vals, Offered p.store path v := by
  obtain ⟨m, hm, rfl⟩ := Option.map_eq_some_iff.mp hvals
  exact h.currentModule hnodes hm path

theorem Shape.values (h : p.Shape V s) {nodes : List Nat} (hnodes : ∀ d ∈ nodes, d < s.size)
    {path : Path} {vals : List Nat} (hvals : values s nodes path = some vals) :
    ∀ v ∈ vals, Offered p.store path v ∨ Offered p.store path.tail v := by
  obtain ⟨m, hm, rfl⟩ := Option.map_eq_some_iff.mp hvals
  have hscope : p.Known ((nodes.findSome? fun c => (s.node c).scope).getD m.2) := by
    cases hfind : nodes.findSome? fun c => (s.node c).scope with
    | none => exact h.currentModule hnodes hm
    | some scope =>
      obtain ⟨d, hd, hnode⟩ := List.exists_of_findSome?_eq_some hfind
      refine h.known (hnodes d hd) ?_
      cases heq : s.node d <;> simp_all [Node.scope, Node.ownScope]
  intro v hv
  dsimp only at hv
  split at hv
  · exact .inr (hscope _ v hv)
  · exact .inl (hscope _ v hv)

/-- A cell may be redirected to what another one points to. -/
theorem Shape.goal (h : p.Shape V s) {c t : Nat} (ht : p.Free t) (hplain : p.inside c → p.Plain t) :
    p.Goal s c (s.pointee t) := by
  cases h.points (ht.lt.trans_le h.size_le) with
  | tree _ hp => exact hp.symm ▸ .old ht hplain
  | name a _ _ hp hfree hplain' =>
    exact hp.symm ▸ .old hfree fun hc => hplain' (hplain hc).inside
  | part _ hle hlt hpart => exact .new hle hlt fun _ => hpart
  | holder hinside hlt hle => exact .new hle hlt fun hc => absurd (hplain hc).inside hinside

/-! ### Occurrences -/

variable {var : Nat → Nat}

theorem Bound.grows (h : p.Bound V var s) (hg : Grows s t)
    (hp : ∀ c < p.store.size, p.binders c ≠ [] → t.pointee c = s.pointee c) :
    p.Bound V var t where
  isVariable a ha hlambda hV := (h.isVariable a ha hlambda hV).mono hg
  injective := h.injective
  taken c hc a ha hV := by
    rw [hp c hc fun hnil => by simp [hnil] at ha, h.taken c hc a ha hV]
  kept c hc a ha hV := by
    rw [hp c hc fun hnil => by simp [hnil] at ha, h.kept c hc a ha hV]

/-- An occurrence all of whose binders have been visited is no name any more. -/
theorem Bound.binders_eq_nil (h : p.Bound V var s) {c : Nat} (hc : c < p.store.size)
    (hready : p.Ready V c) (hnode : (s.node c).isPart = false) : p.binders c = [] := by
  by_contra hne
  obtain ⟨a, ha⟩ : ∃ a, (p.binders c).getLast? = some a :=
    ⟨_, List.getLast?_eq_some_getLast hne⟩
  obtain ⟨path, elemId, elemExpr, -, hmem, hlambda, -⟩ := mem_binders (List.mem_of_getLast? ha)
  have hVa : V a := hready a hmem
  have hlt := (p.enclosing_under c a hmem).1
  obtain ⟨v, type, hb, -⟩ := (h.isVariable a hlt (by simp [hlambda, Node.isLambda]) hVa).node
  rw [Store.node, h.taken c hc a ha hVa, hb] at hnode
  cases hnode

structure Sound (p : Parsed) (var : Nat → Nat) (V : Nat → Prop) (s : Store Node) : Prop where
  shape : p.Shape V s
  bound : p.Bound V var s

theorem Sound.alloc (h : p.Sound var V s) {n : Node} (hn : p.Added V s n) :
    p.Sound var V (s.alloc n) where
  shape := h.shape.alloc hn
  bound := h.bound.grows (.alloc s n) fun _ hc _ => s.alloc_pointee n (hc.trans_le h.shape.size_le)

theorem Sound.replace (h : p.Sound var V s) {c d : Nat} (hc : c < p.store.size)
    (hname : (p.store.nodes c).isName) (hgoal : p.Goal s c (s.pointee d))
    (hbinders : p.binders c = []) : p.Sound var V (s.replace c d) where
  shape := by
    refine h.shape.redirect rfl rfl fun e => ?_
    by_cases he : e = c
    · subst he
      exact .inr ⟨hc, hname, by rwa [s.replace_pointee_self]⟩
    · exact .inl (s.replace_pointee_of_ne d he)
  bound := by
    refine h.bound.grows ⟨le_rfl, fun _ _ => rfl⟩ fun e _ he => s.replace_pointee_of_ne d ?_
    rintro rfl
    exact he hbinders

end Changes

end Parsed

end Diffingo.IdResolver
