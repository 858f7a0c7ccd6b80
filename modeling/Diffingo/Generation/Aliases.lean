import Diffingo.Generation.NameLookup

/-!
# Type aliases

`type B = A` gives a type another name. `ScopeBuilder` nests no scope of labels under such a name, and
after the first run of the resolver the unit has two declarations, so that `UnitScopeBuilder` enters
`self`, the parameters and `$$` twice. Hence no alias is transparent (`transparent_iff`).

What the visitor has seen already it finds by the addresses of nodes, and these are different in
every run of the compiler: a law about modules is one for all lookups.
-/

namespace Diffingo.Names

open Traversal UnitScopeBuilder

/-! ## All passes -/

/-- The tree and the scopes after a pass, with its errors. -/
abbrev Outcome := Option (World × List String)

/-- The next pass runs only after a success. -/
def Outcome.andThen (r : Outcome) (next : World → Outcome) : Outcome :=
  match r with
  | some (w, []) => next w
  | r => r

/-- The three passes before the last run of the resolver. They leave the scopes alone. -/
structure Later where
  run : World → Outcome
  size_le : ∀ {w w' errors}, run w = some (w', errors) → w.store.size ≤ w'.store.size
  modules : ∀ {w w' errors}, run w = some (w', errors) → ∀ a < w.store.size, ∀ id p ds,
    w.store.nodes a = .module id p ds → w'.store.nodes a = .module id p ds
  scopes : ∀ {w w' errors}, run w = some (w', errors) → ∀ a < w.store.size,
    w'.scopes a = w.scopes a

/-- A run of the resolver as a pass. -/
def resolve (lookup : Lookup Node) (fuel : Nat) (report : Bool) (r : Nat) (w : World) : Outcome :=
  (IdResolver.run lookup fuel report r w).map fun state => (⟨state.store, w.written⟩, state.errors)

/-- `UnitScopeBuilder` logs no errors. -/
def buildUnitScopes (fuel r : Nat) (declarations : List Nat) (w : World) : Outcome :=
  (UnitScopeBuilder.run fuel r declarations w).map (·, [])

/-- The world after the first pass. -/
def Parsed.declaredWorld (p : Parsed) : World := ScopeBuilder.run p.root p.declarations p.world

/-- `Compiler::executePasses` of a module with its built-in declarations. -/
def Parsed.runPasses (m : Parsed) (lookup : Lookup Node) (later : Later) (fuel : Nat) : Outcome :=
  (resolve lookup fuel false m.root m.declaredWorld).andThen fun w =>
  (buildUnitScopes fuel m.root m.declarations w).andThen fun w =>
  (resolve lookup fuel false m.root w).andThen fun w =>
  (later.run w).andThen fun w => resolve lookup fuel true m.root w

/-- `Compiler::executePasses`. -/
def Parsed.executePasses (m : Parsed) (lookup : Lookup Node) (later : Later) (fuel : Nat) :
    Outcome :=
  m.addBuiltins.runPasses lookup later fuel

/-! ## Aliases -/

/-- `type name = target`, after so many other declarations. -/
structure Alias where
  position : Nat
  name : String
  target : Path

def Parsed.addAliases (m : Parsed) (as : List Alias) : Parsed :=
  as.foldl (fun m a => m.declare a.position (.typeAlias a.name a.target)) m

/-- A unit, an enumeration or a bit set. -/
def Node.isAliasable : Node → Bool
  | .unit _ _ => true
  | .labelled labels => !labels.isEmpty
  | _ => false

/-- The path names the unit, enumeration or bit set `t`, by way of any number of aliases. -/
inductive Parsed.Leads (m : Parsed) : Path → Nat → Prop
  | own {path id : Path} {d t : Nat} (hd : d ∈ m.declarations)
      (hnode : m.store.nodes d = .typeDecl id t) (hname : id.pathAsString = path.pathAsString)
      (htype : (m.store.nodes t).isAliasable) : m.Leads path t
  | via {path id target : Path} {d c t : Nat} (hd : d ∈ m.declarations)
      (hnode : m.store.nodes d = .typeDecl id c) (hname : id.pathAsString = path.pathAsString)
      (hc : m.store.nodes c = .unknownType (some target)) (h : m.Leads target t) : m.Leads path t

/-- Aliases under fresh names, each of them leading to a type. -/
structure Parsed.Admits (m : Parsed) (as : List Alias) : Prop where
  unscoped : ∀ a ∈ as, Unscoped a.name
  distinct : (as.map Alias.name).Nodup
  builtins : ∀ a ∈ as, ∀ n ∈ builtins, n.name ≠ a.name
  fresh : ∀ a ∈ as, ∀ d ∈ m.declarations, ∀ id, (m.store.nodes d).declaredId = some id →
    id.pathAsString ≠ a.name ∧ ∀ l, id.pathAsString ≠ a.name ++ "::" ++ l
  leads : ∀ a ∈ as, ∃ t, (m.addAliases as).Leads [a.name] t

/-- The node with other numbers for its cells. -/
def Node.map (f : Nat → Nat) : Node → Node
  | module name p ds => module name (f p) (ds.map f)
  | typeDecl path c => typeDecl path (f c)
  | constantDecl path c => constantDecl path (f c)
  | functionDecl path c => functionDecl path (f c)
  | transformDecl path c => transformDecl path (f c)
  | instantiation path cs => instantiation path (cs.map f)
  | unit ps is => unit (ps.map fun p => (p.1, f p.2)) (is.map f)
  | labelled labels => labelled labels
  | unknownType path => unknownType path
  | listType c => listType (f c)
  | regExp => regExp
  | type cs => type (cs.map f)
  | item name t parent cases cs =>
    item name (t.map f) (parent.map f) (cases.map (List.map f)) (cs.map f)
  | unknownField name parent path attributes params sinks =>
    unknownField name (parent.map f) path (attributes.map f) (params.map f) (sinks.map f)
  | id path => id path
  | typeExpr c => typeExpr (f c)
  | ctorExpr c => ctorExpr (f c)
  | constantExpr c => constantExpr (f c)
  | labelExpr t l => labelExpr (f t) l
  | functionExpr c => functionExpr (f c)
  | transformExpr c => transformExpr (f c)
  | parserState kind name u (.cell t) => parserState kind name (f u) (.cell (f t))
  | parserState kind name u t => parserState kind name (f u) t
  | constant t cs => constant (f t) (cs.map f)
  | expression cs => expression (cs.map f)
  | other cs => other (cs.map f)

@[simp] theorem Node.map_id (n : Node) : n.map (fun c => c) = n := by
  cases n with
  | parserState kind name u t => cases t <;> rfl
  | item name t parent cases cs =>
    have hlists : List.map (fun c : Nat => c) = fun l => l := funext fun l => List.map_id' l
    simp [Node.map, hlists]
  | _ => simp [Node.map]

/-- Every name that stands for one value still does, in the scopes of all nodes that the parser made,
and for the same value. -/
def SameNames (m : Parsed) (w w' : World) : Prop :=
  ∃ f : Nat → Nat, f.Injective ∧ (∀ c < m.store.size, f c = c) ∧
    ∀ c < m.store.size, ∀ path v n, w.scopes.lookup n (w.store.pointee c) path = some [v] →
      ∃ n', w'.scopes.lookup n' (w'.store.pointee c) path = some [f v] ∧
        w'.store.node (f v) = (w.store.node v).map f

/-- An alias of `t` does what the name of the type does: `self` is unambiguous in a unit, and each
label of an enumeration or a bit set is found under the alias. -/
def Serves (w : World) (r : Nat) (name : String) (t : Nat) : Node → Prop
  | .unit _ _ => ∃ v, w.scopes.find t ["self"] = [v]
  | .labelled labels => ∀ l ∈ labels, ∃ v, w.scopes.find r [name, l] = [v] ∧
      Holds w.store v (.labelExpr t l)
  | _ => True

/-- Whenever the module passes, it also passes with the aliases, and all names are as they should
be. -/
def Transparent (later : Later) (m : Parsed) (as : List Alias) : Prop :=
  ∀ lookup fuel w, m.executePasses lookup later fuel = some (w, []) →
    ∃ fuel' w', (m.addAliases as).executePasses lookup later fuel' = some (w', []) ∧
      SameNames m w w' ∧
      ∀ a ∈ as, ∀ t, (m.addAliases as).Leads [a.name] t →
        Serves w' m.root a.name t ((m.addAliases as).store.nodes t)

/-! ## What the passes leave alone -/

/-- The nodes are still there. -/
structure Keeps (s t : Store Node) : Prop where
  size_le : s.size ≤ t.size
  nodes : ∀ a < s.size, t.nodes a = s.nodes a

namespace Keeps

variable {s t u : Store Node}

theorem refl (s : Store Node) : Keeps s s := ⟨le_rfl, fun _ _ => rfl⟩

theorem trans (h : Keeps s t) (h' : Keeps t u) : Keeps s u :=
  ⟨h.size_le.trans h'.size_le, fun a ha =>
    (h'.nodes a (ha.trans_le h.size_le)).trans (h.nodes a ha)⟩

theorem of_redirects {c : Nat} (h : IdResolver.Redirects s c t) : Keeps s t := by
  obtain rfl | ⟨v, -, -, rfl⟩ | ⟨_, _, _, _, _, _, u, -, hg, -, rfl⟩ := h
  · exact refl t
  · exact ⟨le_rfl, fun _ _ => rfl⟩
  · exact ⟨hg.size_le, hg.nodes⟩

end Keeps

section Resolve

variable {lookup : Lookup Node} {fuel r : Nat} {report : Bool} {w w' : World} {errors : List String}

theorem resolve_keeps (h : resolve lookup fuel report r w = some (w', errors)) :
    Keeps w.store w'.store ∧ w'.written = w.written := by
  obtain ⟨state, hrun, heq⟩ := Option.map_eq_some_iff.mp h
  cases heq
  refine ⟨?_, rfl⟩
  refine preOrder_rel (R := fun w w' => Keeps w.store w'.store) (fun w => .refl _)
    (fun h h' => h.trans h') (fun hvisit => ?_) hrun
  exact Keeps.of_redirects (IdResolver.visit_redirects hvisit).1

theorem resolve_scopes (h : resolve lookup fuel report r w = some (w', errors)) {a : Nat}
    (ha : a < w.store.size) : w'.scopes a = w.scopes a := by
  obtain ⟨hkeeps, hwritten⟩ := resolve_keeps h
  rw [World.scopes, World.scopes, scopesOf, scopesOf, hwritten, hkeeps.nodes a ha]

end Resolve

/-- New values come last, and the module `r` gets none but `$$`. -/
structure Enriches (r : Nat) (w w' : World) : Prop where
  grows : Grows w.store w'.store
  values : ∀ a < w.store.size, ∀ name, (w.scopes a).values name <+: (w'.scopes a).values name
  children : (w'.scopes r).children = (w.scopes r).children
  others : ∀ name ≠ "$$", (w'.scopes r).values name = (w.scopes r).values name

namespace Enriches

variable {r : Nat} {w w₁ w' : World}

theorem refl (w : World) : Enriches r w w :=
  ⟨.refl _, fun _ _ _ => List.prefix_rfl, rfl, fun _ _ => rfl⟩

theorem trans (h : Enriches r w w₁) (h' : Enriches r w₁ w') : Enriches r w w' where
  grows := h.grows.trans h'.grows
  values a ha name := (h.values a ha name).trans (h'.values a (ha.trans_le h.grows.size_le) name)
  children := h'.children.trans h.children
  others name hname := (h'.others name hname).trans (h.others name hname)

theorem foldl {α : Type} {f : World → α → World} {l : List α}
    (hstep : ∀ w, r < w.store.size → ∀ x ∈ l, Enriches r w (f w x)) (hr : r < w.store.size) :
    Enriches r w (l.foldl f w) := by
  induction l generalizing w with
  | nil => exact refl w
  | cons x l ih =>
    have hx := hstep w hr x List.mem_cons_self
    exact hx.trans (ih (fun w hr y hy => hstep w hr y (List.mem_cons_of_mem x hy))
      (hr.trans_le hx.grows.size_le))

/-- A change of the scope of a node. -/
theorem modify (a : Nat) {f : ScopeData → ScopeData}
    (hvalues : ∀ d name, d.values name <+: (f d).values name)
    (hmodule : a = r → ∀ d, (f d).children = d.children ∧
      ∀ name ≠ "$$", (f d).values name = d.values name) : Enriches r w (w.modify a f) := by
  refine ⟨.refl _, fun b _ name => ?_, ?_, fun name hname => ?_⟩
  · by_cases hb : b = a
    · subst hb
      rw [modify_scopes_self]
      exact hvalues _ name
    · rw [modify_scopes_of_ne w a f hb]
  · by_cases hr : r = a
    · subst hr
      rw [modify_scopes_self]
      exact (hmodule rfl _).1
    · rw [modify_scopes_of_ne w a f hr]
  · by_cases hr : r = a
    · subst hr
      rw [modify_scopes_self]
      exact (hmodule rfl _).2 name hname
    · rw [modify_scopes_of_ne w a f hr]

theorem insertNew {a : Nat} {name : String} (n : Node) (hr : r < w.store.size)
    (hmodule : a = r → name = "$$") : Enriches r w (w.insertNew a name n) := by
  have halloc : ∀ b < w.store.size,
      World.scopes { w with store := w.store.alloc n } b = w.scopes b := by
    intro b hb
    rw [World.scopes, World.scopes, scopesOf, scopesOf, Store.alloc_nodes _ _ hb]
  have hfirst : Enriches r w { w with store := w.store.alloc n } := by
    refine ⟨.alloc _ n, fun b hb name => ?_, ?_, fun name _ => ?_⟩
    · rw [halloc b hb]
    · rw [halloc r hr]
    · rw [halloc r hr]
  refine hfirst.trans (modify a (fun d name' => ?_) fun ha d => ⟨rfl, fun name' hname' => ?_⟩)
  · by_cases hname : name' = name
    · subst hname
      rw [ScopeData.insert_values_self]
      exact List.prefix_append _ _
    · rw [ScopeData.insert_values_of_ne _ _ _ hname]
  · rw [ScopeData.insert_values_of_ne _ _ _ (hmodule ha ▸ hname')]

theorem addItem {u t i : Nat} (hu : u ≠ r) (hr : r < w.store.size) :
    Enriches r w (UnitScopeBuilder.addItem u t w i) := by
  have hparent : Enriches r w (w.modify (w.store.pointee i) (·.setParent u)) :=
    modify _ (fun _ _ => List.prefix_rfl) fun _ _ => ⟨rfl, fun _ _ => rfl⟩
  refine (hparent.trans (modify u (fun d name => ?_) fun h => absurd h hu)).trans
    (insertNew _ hr fun _ => rfl)
  rw [ScopeData.addChild_values]

end Enriches

/-- A visit of a declaration only adds values, among them `self` for a unit. -/
theorem visit_enriches {fuel r d : Nat} {w w' : World} (hr : r < w.store.size)
    (hmodule : ∀ params items, w.store.nodes r ≠ .unit params items)
    (h : UnitScopeBuilder.visit fuel r w d = some w') :
    Enriches r w w' ∧ ∀ t params items, (w.store.node d).declaredType = some t →
      w.store.node t = .unit params items → w.store.pointee t < w.store.size →
      ((w.scopes (w.store.pointee t)).values "self").length <
        ((w'.scopes (w.store.pointee t)).values "self").length := by
  unfold UnitScopeBuilder.visit at h
  split at h
  · next hty =>
    cases h
    refine ⟨.refl w, fun t params items ht => ?_⟩
    rw [hty] at ht
    cases ht
  · next t hty =>
    split at h
    · next params items hunit =>
      have hu : w.store.pointee t ≠ r := fun heq => hmodule params items (heq ▸ hunit)
      obtain ⟨is, -, heq⟩ := Option.bind_eq_some_iff.mp h
      cases heq
      let n := Node.parserState .self none t (.cell t)
      have hself : Enriches r w (w.insertNew (w.store.pointee t) "self" n) :=
        Enriches.insertNew n hr fun heq => absurd heq hu
      have hr₁ := hr.trans_le hself.grows.size_le
      have hparent : Enriches r (w.insertNew (w.store.pointee t) "self" n)
          ((w.insertNew (w.store.pointee t) "self" n).modify (w.store.pointee t)
            (·.setParent r)) :=
        Enriches.modify _ (fun _ _ => List.prefix_rfl) fun _ _ => ⟨rfl, fun _ _ => rfl⟩
      have hparams := Enriches.foldl (r := r) (l := params) (w := _)
        (f := addParam (w.store.pointee t) t)
        (fun w hr p _ => Enriches.insertNew _ hr fun heq => absurd heq hu)
        (hr₁.trans_le hparent.grows.size_le)
      have hitems := Enriches.foldl (r := r) (l := is) (w := _)
        (f := UnitScopeBuilder.addItem (w.store.pointee t) t)
        (fun w hr i _ => Enriches.addItem hu hr)
        ((hr₁.trans_le hparent.grows.size_le).trans_le hparams.grows.size_le)
      have hrest := (hparent.trans hparams).trans hitems
      refine ⟨hself.trans hrest, fun t' params' items' ht hunit' hlt => ?_⟩
      cases hty.symm.trans ht
      have hadded := (hrest.values (w.store.pointee t)
        (hlt.trans_le hself.grows.size_le) "self").length_le
      refine lt_of_lt_of_le ?_ hadded
      rw [insertNew_scopes_self w _ _ _ hlt, ScopeData.insert_values_self, List.length_append]
      exact Nat.lt_succ_self _
    · next hunit =>
      cases h
      refine ⟨.refl w, fun t' params items ht hn => ?_⟩
      cases hty.symm.trans ht
      exact absurd hn (hunit params items)

theorem run_enriches {fuel r : Nat} {ds : List Nat} {w w' : World} (hr : r < w.store.size)
    (hmodule : ∀ params items, w.store.nodes r ≠ .unit params items)
    (h : UnitScopeBuilder.run fuel r ds w = some w') : Enriches r w w' := by
  refine foldlM_invariant (J := fun w' => Enriches r w w') (fun hb hvisit => ?_) (.refl w) h
  refine hb.trans (visit_enriches (hr.trans_le hb.grows.size_le) ?_ hvisit).1
  rw [hb.grows.nodes r hr]
  exact hmodule

/-- Declarations of one unit enter one `self` each. -/
theorem run_selves {fuel r u : Nat} {params : List (String × Nat)} {items marks ds : List Nat}
    {w w' : World} (hr : r < w.store.size)
    (hmodule : ∀ params items, w.store.nodes r ≠ .unit params items) (hu : u < w.store.size)
    (hunit : w.store.nodes u = .unit params items)
    (hmarks : ∀ d ∈ marks, d < w.store.size ∧ w.store.pointee d < w.store.size ∧
      ∃ t, (w.store.node d).declaredType = some t ∧ t < w.store.size ∧ w.store.pointee t = u)
    (h : UnitScopeBuilder.run fuel r ds w = some w') :
    ((w.scopes u).values "self").length + (ds.filter (· ∈ marks)).length ≤
      ((w'.scopes u).values "self").length := by
  induction ds generalizing w with
  | nil =>
    cases h
    exact le_rfl
  | cons d ds ih =>
    rw [UnitScopeBuilder.run, List.foldlM_cons] at h
    obtain ⟨w₁, hvisit, hrun⟩ := Option.bind_eq_some_iff.mp h
    obtain ⟨hstep, hself⟩ := visit_enriches hr hmodule hvisit
    have hg := hstep.grows
    have hmodule₁ : ∀ params items, w₁.store.nodes r ≠ .unit params items := by
      rw [hg.nodes r hr]
      exact hmodule
    have hmarks₁ : ∀ d ∈ marks, d < w₁.store.size ∧ w₁.store.pointee d < w₁.store.size ∧
        ∃ t, (w₁.store.node d).declaredType = some t ∧ t < w₁.store.size ∧
          w₁.store.pointee t = u := by
      intro d hd
      obtain ⟨hlt, hp, t, hty, htlt, ht⟩ := hmarks d hd
      rw [hg.pointee d hlt, hg.node hlt hp]
      refine ⟨hlt.trans_le hg.size_le, hp.trans_le hg.size_le, t, hty, htlt.trans_le hg.size_le, ?_⟩
      rw [hg.pointee t htlt, ht]
    have hlength := ih (hr.trans_le hg.size_le) hmodule₁ (hu.trans_le hg.size_le)
      ((hg.nodes u hu).trans hunit) hmarks₁ hrun
    by_cases hd : d ∈ marks
    · obtain ⟨-, -, t, hty, -, ht⟩ := hmarks d hd
      have hlt := hself t params items hty (by rw [Store.node, ht, hunit]) (ht.symm ▸ hu)
      rw [ht] at hlt
      rw [List.filter_cons_of_pos (by simpa using hd), List.length_cons]
      omega
    · have hle := (hstep.values u hu "self").length_le
      rw [List.filter_cons_of_neg (by simpa using hd)]
      omega

/-! ## The first run of the resolver -/

/-- The declaration `d` gives another name to the type `t`, which `d'` declares. -/
structure IsAlias (p : Parsed) (d c : Nat) (target : Path) (d' t : Nat) : Prop where
  mem : d ∈ p.declarations
  node : ∃ id, p.store.nodes d = .typeDecl id c
  name : p.store.nodes c = .unknownType (some target)
  target_mem : d' ∈ p.declarations
  target_node : ∃ id, p.store.nodes d' = .typeDecl id t ∧ id.pathAsString = target.pathAsString
  type : (p.store.nodes t).isAliasable

namespace Parsed

variable {p : Parsed} {s : Store Node} {fuel : Nat}

theorem enlarges (p : Parsed) :
    ScopeBuilder.Enlarges p.root p.declarations p.world p.declaredWorld :=
  ScopeBuilder.run_enlarges p.declares

theorem declaredWorld_grows (p : Parsed) : Grows p.store p.declaredWorld.store :=
  p.enlarges.touches.grows

theorem declaredWorld_intact (p : Parsed) : Intact p.declaredWorld.store := by
  intro c hc
  by_cases hold : c < p.store.size
  · exact (p.declaredWorld_grows.pointee c hold).trans (p.intact c hold)
  · exact p.declaredWorld_grows.fresh c hc (not_lt.mp hold)

theorem declaredWorld_root (hs : Keeps p.declaredWorld.store s) :
    scopesOf p.declaredWorld.written s p.root = p.declaredWorld.scopes p.root := by
  rw [World.scopes, scopesOf, scopesOf,
    hs.nodes p.root (p.root_lt.trans_le p.declaredWorld_grows.size_le)]

/-- In no module but this one anything is found. -/
theorem lookup_module (hs : Keeps p.declaredWorld.store s) {a properties : Nat} {name : String}
    {ds vals : List Nat} (ha : s.nodes a = .module name properties ds) {path : Path}
    (h : (scopesOf p.declaredWorld.written s).lookup fuel a path = some vals) :
    a = p.root ∧ vals = (scopesOf p.declaredWorld.written s).find p.root path ∨
      a ≠ p.root ∧ vals = [] := by
  cases fuel with
  | zero => cases h
  | succ fuel =>
    by_cases hroot : a = p.root
    · subst hroot
      have hparent : (scopesOf p.declaredWorld.written s p.root).parent = none := by
        rw [declaredWorld_root hs, p.enlarges.parent, p.world_scopes_root]
      rw [Scopes.lookup_top hparent] at h
      exact .inl ⟨rfl, (Option.some.inj h).symm⟩
    · have hwritten : p.declaredWorld.written a = none := by
        refine p.enlarges.touches.written a ?_
        rintro (heq | ⟨d, hd, ht, labels, hlabels⟩)
        · exact hroot heq
        · have hlt : a < p.store.size := type_lt hd ht
          rw [hs.nodes a (hlt.trans_le p.declaredWorld_grows.size_le),
            p.declaredWorld_grows.nodes a hlt] at ha
          cases ha.symm.trans hlabels
      have hempty : scopesOf p.declaredWorld.written s a = {} := by
        rw [scopesOf, hwritten, ha]
        rfl
      rw [Scopes.lookup_top (by rw [hempty]), Scopes.find_empty hempty] at h
      exact .inr ⟨hroot, (Option.some.inj h).symm⟩

end Parsed

namespace IsAlias

variable {p : Parsed} {d c d' t : Nat} {target : Path}

theorem declared (h : IsAlias p d c target d' t) :
    (p.store.nodes d).declaredType = some c ∧ (p.store.nodes d').declaredType = some t := by
  obtain ⟨id, hnode⟩ := h.node
  obtain ⟨id', hnode', -⟩ := h.target_node
  rw [hnode, hnode']
  exact ⟨rfl, rfl⟩

theorem lt (h : IsAlias p d c target d' t) : c < p.store.size ∧ t < p.store.size :=
  ⟨Parsed.type_lt h.mem h.declared.1, Parsed.type_lt h.target_mem h.declared.2⟩

theorem isUnresolved_type (h : IsAlias p d c target d' t) :
    (p.store.nodes t).isUnresolved = false := by
  have htype := h.type
  cases hn : p.store.nodes t with
  | unit | labelled => rfl
  | _ =>
    rw [hn] at htype
    cases htype

theorem ne (h : IsAlias p d c target d' t) : d ≠ d' := by
  rintro rfl
  obtain rfl : c = t := Option.some.inj (h.declared.1.symm.trans h.declared.2)
  have htype := h.type
  rw [h.name] at htype
  cases htype

/-- The cell of the type still points to it. -/
theorem holds_type (h : IsAlias p d c target d' t) {s : Store Node}
    (hs : Resolves p.declaredWorld.store s) : Holds s t (p.store.nodes t) :=
  ((Parsed.holds h.lt.2).grows p.declaredWorld_grows).resolves hs h.isUnresolved_type

/-- The name of the type has values, the type among them. -/
theorem values (h : IsAlias p d c target d' t) {s : Store Node}
    (hs : Resolves p.declaredWorld.store s) :
    ∃ v ∈ (scopesOf p.declaredWorld.written s).find p.root target, Holds s v (.typeExpr t) := by
  obtain ⟨id, hnode, hname⟩ := h.target_node
  have hnode : p.world.store.nodes d' = .typeDecl id t := hnode
  have hid : (p.world.store.nodes d').declaredId = some id := by
    rw [hnode]
    rfl
  obtain ⟨v, hv, hbinds⟩ := ScopeBuilder.run_binds_mem p.declares h.target_mem hid
  rw [hnode] at hbinds
  rw [hname] at hv
  refine ⟨v, ?_, Holds.resolves hbinds hs rfl⟩
  have hscope := Parsed.declaredWorld_root (p := p) ⟨hs.size_le, hs.nodes⟩
  rw [Scopes.find_named, hscope]
  · exact hv
  · rw [hscope]
    exact List.ne_nil_of_mem hv

/-- The cell is as it was or points to the type. -/
def Inv (p : Parsed) (c t : Nat) (w : IdResolver.State) : Prop :=
  Resolves p.declaredWorld.store w.store ∧ (w.store.pointee c = c ∨ w.store.pointee c = t)

/-- The name is resolved, or has led to an error. -/
def Done (c t : Nat) (w : IdResolver.State) : Prop := w.store.pointee c = t ∨ w.errors ≠ []

variable {fuel : Nat} {current : List Nat} {w w' : IdResolver.State}

/-- A visit of the alias in the module. -/
theorem visit_self (h : IsAlias p d c target d' t) (hw : Resolves p.declaredWorld.store w.store)
    (hc : w.store.pointee c = c)
    (hvisit : IdResolver.visit p.declaredWorld.written fuel false current c w = some w') :
    (w'.store.pointee c = c ∨ w'.store.pointee c = t) ∧
      (IdResolver.currentModule w.store (c :: current) = some (p.name, p.root) → Done c t w') := by
  have hnode : w.store.node c = .unknownType (some target) := by
    have hlt := h.lt.1.trans_le p.declaredWorld_grows.size_le
    rw [Store.node, hc, hw.nodes c hlt, p.declaredWorld_grows.nodes c h.lt.1, h.name]
  have hkeeps : Keeps p.declaredWorld.store w.store := ⟨hw.size_le, hw.nodes⟩
  obtain ⟨v, hv, hholds⟩ := h.values hw
  simp only [IdResolver.visit, hnode, IdResolver.visitUnknownType] at hvisit
  obtain ⟨vals, hvals, hvisit⟩ := Option.bind_eq_some_iff.mp hvisit
  obtain ⟨⟨name, a⟩, hmodule, hlookup⟩ := Option.bind_eq_some_iff.mp hvals
  obtain ⟨e, -, he⟩ := List.exists_of_findSome?_eq_some hmodule
  -- what is found are the values of the module, or nothing
  have hfound : a = p.root ∧ vals = (scopesOf p.declaredWorld.written w.store).find p.root target ∨
      a ≠ p.root ∧ vals = [] := by
    split at he
    · next id properties ds hmod =>
      cases he
      exact Parsed.lookup_module hkeeps hmod hlookup
    · cases he
  obtain ⟨hsame, -, herrors⟩ | ⟨v', hone, hvisit⟩ := IdResolver.withValue_cases hvisit
  · rw [hsame]
    refine ⟨.inl hc, fun hroot => .inr (herrors ?_)⟩
    rw [hroot] at hmodule
    cases hmodule
    obtain ⟨-, hfind⟩ | ⟨hne, -⟩ := hfound
    · rw [hfind]
      exact List.ne_nil_of_mem hv
    · exact absurd rfl hne
  · obtain ⟨-, hfind⟩ | ⟨-, hnil⟩ := hfound
    · rw [hone] at hfind
      rw [← hfind, List.mem_singleton] at hv
      subst hv
      rw [hholds.node] at hvisit
      cases hvisit
      have hp : (IdResolver.setStore w (w.store.replace c t)).store.pointee c = t :=
        (w.store.replace_pointee_self c t).trans (h.holds_type hw).pointee
      exact ⟨.inr hp, fun _ => .inl hp⟩
    · rw [hone] at hnil
      cases hnil

theorem visit_inv (h : IsAlias p d c target d' t) {e : Nat} (hw : Inv p c t w)
    (hvisit : IdResolver.visit p.declaredWorld.written fuel false current e w = some w') :
    Inv p c t w' ∧ (Done c t w → Done c t w') := by
  obtain ⟨hres, hp⟩ := hw
  have hres' := IdResolver.visit_resolves p.declaredWorld_intact hres hvisit
  obtain ⟨hredirects, herrors⟩ := IdResolver.visit_redirects hvisit
  have hlt : c < w.store.size := h.lt.1.trans_le (p.declaredWorld_grows.size_le.trans hres.size_le)
  have hkeep : w'.store.pointee c = w.store.pointee c →
      Inv p c t w' ∧ (Done c t w → Done c t w') := by
    intro heq
    refine ⟨⟨hres', heq.symm ▸ hp⟩, Or.imp (fun hc => heq.trans hc) fun hne hnil => hne ?_⟩
    rw [hnil] at herrors
    exact List.suffix_nil.mp herrors
  by_cases he : e = c
  · subst he
    by_cases hc : w.store.pointee e = e
    · obtain ⟨hp', -⟩ := h.visit_self hres hc hvisit
      refine ⟨⟨hres', hp'⟩, ?_⟩
      rintro (hdone | hne)
      · -- the cell cannot point to the type already
        have hne : e ≠ t := by
          rintro rfl
          have htype := h.type
          rw [h.name] at htype
          cases htype
        exact absurd (hc.symm.trans hdone) hne
      · exact .inr fun hnil => hne (List.suffix_nil.mp (hnil ▸ herrors))
    · have hnode : w.store.node e = p.store.nodes t := by
        rw [Store.node, hp.resolve_left hc]
        exact (h.holds_type hres).nodes
      have hresolved := h.isUnresolved_type
      rw [← hnode] at hresolved
      obtain hsame | ⟨v, hun, -⟩ | ⟨_, _, _, _, _, _, _, hn, -⟩ := hredirects
      · exact hkeep (by rw [hsame])
      · rw [hresolved] at hun
        cases hun
      · rw [hn] at hresolved
        cases hresolved
  · refine hkeep ?_
    obtain hsame | ⟨v, -, -, heq⟩ | ⟨_, _, _, _, _, _, u, -, hg, -, heq⟩ := hredirects
    · rw [hsame]
    · rw [heq, Store.replace_pointee_of_ne _ _ (Ne.symm he)]
    · rw [heq, Store.replace_pointee_of_ne _ _ (Ne.symm he), hg.pointee c hlt]

variable {lookup : Lookup Node}

theorem preOrder_inv (h : IsAlias p d c target d' t) {n e : Nat} (hw : Inv p c t w)
    (hrun : preOrder Node.children lookup (IdResolver.visit p.declaredWorld.written fuel false) n
      current e w = some w') : Inv p c t w' ∧ (Done c t w → Done c t w') := by
  refine preOrder_rel (R := fun w w' => Inv p c t w → Inv p c t w' ∧ (Done c t w → Done c t w'))
    (fun w hw => ⟨hw, id⟩) (fun h₁ h₂ hw => ?_) (fun {current e w w'} hvisit hw => ?_) hrun hw
  · obtain ⟨hw₂, hdone₂⟩ := h₁ hw
    obtain ⟨hw₃, hdone₃⟩ := h₂ hw₂
    exact ⟨hw₃, fun hdone => hdone₃ (hdone₂ hdone)⟩
  · exact h.visit_inv (w := w.enter current e) hw hvisit

/-- A lookup that misses the declarations and the names of types in the module. -/
def Misses (p : Parsed) (lookup : Lookup Node) : Prop :=
  ∀ s visited e, s.nodes p.root = p.store.nodes p.root →
    ((∃ id c, s.node e = .typeDecl id c) ∨ ∃ path, s.node e = .unknownType path) →
      lookup.find s visited e = false

theorem inv_root (hw : Inv p c t w) :
    Holds w.store p.root (.module p.name p.properties p.declarations) :=
  ((p.root_node ▸ Parsed.holds p.root_lt).grows p.declaredWorld_grows).resolves hw.1 rfl

theorem inv_declaration (h : IsAlias p d c target d' t) (hw : Inv p c t w) :
    Holds w.store d (p.store.nodes d) := by
  refine ((Parsed.holds (Parsed.declarations_lt h.mem)).grows p.declaredWorld_grows).resolves
    hw.1 ?_
  exact Node.isUnresolved_of_isDeclaration (p.declaration_node d h.mem)

/-- The name of the type below its declaration. -/
theorem preOrder_name_done (h : IsAlias p d c target d' t) (hmiss : Misses p lookup) {n : Nat}
    (hw : Inv p c t w)
    (hrun : preOrder Node.children lookup (IdResolver.visit p.declaredWorld.written fuel false) n
      [d, p.root] c w = some w') : Done c t w' := by
  obtain ⟨id, hid⟩ := h.node
  have hd := h.inv_declaration hw
  rw [hid] at hd
  have hroot := inv_root hw
  by_cases hc : w.store.pointee c = c
  · have hnode : w.store.node c = .unknownType (some target) := by
      have hlt := h.lt.1.trans_le p.declaredWorld_grows.size_le
      rw [Store.node, hc, hw.1.nodes c hlt, p.declaredWorld_grows.nodes c h.lt.1, h.name]
    cases n with
    | zero => cases hrun
    | succ n =>
      obtain ⟨hfind, -⟩ | ⟨w₁, hvisit, hrest⟩ := preOrder_succ hrun
      · rw [hmiss _ _ _ (hroot.nodes.trans p.root_node.symm) (.inr ⟨_, hnode⟩)] at hfind
        cases hfind
      · have hmodule : IdResolver.currentModule w.store [c, d, p.root] = some (p.name, p.root) := by
          simp only [IdResolver.currentModule, List.findSome?_cons, hnode, hd.node, hroot.node,
            hroot.pointee]
        have hw₁ := (h.visit_inv (w := w.enter [d, p.root] c) hw hvisit).1
        have hdone := (h.visit_self (w := w.enter [d, p.root] c) hw.1 hc hvisit).2 hmodule
        refine (foldlM_invariant (J := fun w => Inv p c t w ∧ Done c t w) (fun hb hx => ?_)
          ⟨hw₁, hdone⟩ hrest).2
        obtain ⟨hb', hkeep⟩ := h.preOrder_inv hb.1 hx
        exact ⟨hb', hkeep hb.2⟩
  · exact (h.preOrder_inv hw hrun).2 (.inl (hw.2.resolve_left hc))

/-- The declaration is reached below the module, and then the name of its type. -/
theorem preOrder_done (h : IsAlias p d c target d' t) (hmiss : Misses p lookup) {n : Nat}
    (hw : Inv p c t w)
    (hrun : preOrder Node.children lookup (IdResolver.visit p.declaredWorld.written fuel false) n
      [p.root] d w = some w') : Done c t w' := by
  obtain ⟨id, hid⟩ := h.node
  have hd := h.inv_declaration hw
  rw [hid] at hd
  have hroot := inv_root hw
  cases n with
  | zero => cases hrun
  | succ n =>
    obtain ⟨hfind, -⟩ | ⟨w₁, hvisit, hrest⟩ := preOrder_succ hrun
    · rw [hmiss _ _ _ (hroot.nodes.trans p.root_node.symm) (.inl ⟨id, c, hd.node⟩)] at hfind
      cases hfind
    · have hsame : w₁ = w.enter [p.root] d := by
        simp only [IdResolver.visit, Walk.enter_store, hd.node] at hvisit
        exact (Option.some.inj hvisit).symm
      have hw₁ : Inv p c t w₁ := hsame ▸ hw
      rw [hsame, Walk.enter_store, hd.node] at hrest
      obtain ⟨w₂, hc, hnil⟩ := Option.bind_eq_some_iff.mp hrest
      cases hnil
      rw [← hsame] at hc
      exact h.preOrder_name_done hmiss hw₁ hc

/-- After the first run the alias has the type of its target, unless there are errors. -/
theorem run_done (h : IsAlias p d c target d' t) (hmiss : Misses p lookup)
    (hrun : IdResolver.run lookup fuel false p.root p.declaredWorld = some w) :
    Resolves p.declaredWorld.store w.store ∧ Done c t w := by
  have hlt := h.lt.1.trans_le p.declaredWorld_grows.size_le
  have hw : Inv p c t ⟨p.declaredWorld.store, [], []⟩ :=
    ⟨.refl p.declaredWorld_intact, .inl (p.declaredWorld_intact c hlt)⟩
  refine ⟨(h.preOrder_inv hw hrun).1.1, ?_⟩
  unfold IdResolver.run at hrun
  cases fuel with
  | zero => cases hrun
  | succ n =>
    have hroot := inv_root hw
    obtain ⟨hfind, -⟩ | ⟨w₁, hvisit, hrest⟩ := preOrder_succ hrun
    · obtain ⟨v, hv, -⟩ := lookup.sound _ _ _ hfind
      cases hv
    · have hsame : w₁ = Walk.enter ⟨p.declaredWorld.store, [], []⟩ [] p.root := by
        simp only [IdResolver.visit, Walk.enter_store, hroot.node] at hvisit
        exact (Option.some.inj hvisit).symm
      have hw₁ : Inv p c t w₁ := hsame ▸ hw
      have hchildren : Node.children (w₁.store.node p.root) = p.properties :: p.declarations := by
        rw [hsame, Walk.enter_store, hroot.node]
        rfl
      rw [hchildren] at hrest
      have hmem : d ∈ p.properties :: p.declarations := List.mem_cons_of_mem _ h.mem
      refine foldlM_reaches (J := Inv p c t) ?_ ?_ hmem hw₁ hrest
      · exact fun hb hx => h.preOrder_inv hb hx
      · exact fun hb hx => h.preOrder_done hmiss hb hx

end IsAlias

/-! ## Modules with aliases -/

theorem Outcome.andThen_eq_success {r : Outcome} {next : World → Outcome} {w : World} :
    r.andThen next = some (w, []) ↔ ∃ w₁, r = some (w₁, []) ∧ next w₁ = some (w, []) := by
  unfold Outcome.andThen
  constructor
  · intro h
    split at h
    · next w₁ => exact ⟨w₁, rfl, h⟩
    · next r hr => exact absurd h (hr w)
  · rintro ⟨w₁, rfl, h⟩
    exact h

/-- The worlds after the first run of the resolver, after `UnitScopeBuilder`, and in the end. -/
structure Passed (p : Parsed) (lookup : Lookup Node) (fuel : Nat) (state : IdResolver.State)
    (w₂ w : World) : Prop where
  run : IdResolver.run lookup fuel false p.root p.declaredWorld = some state
  errors : state.errors = []
  units : UnitScopeBuilder.run fuel p.root p.declarations ⟨state.store, p.declaredWorld.written⟩ =
    some w₂
  scopes : ∀ a < w₂.store.size, w.scopes a = w₂.scopes a

section Passed

variable {p : Parsed} {lookup : Lookup Node} {later : Later} {fuel : Nat} {w w₂ : World}
variable {state : IdResolver.State}

theorem Parsed.passed (h : p.runPasses lookup later fuel = some (w, [])) :
    ∃ state w₂, Passed p lookup fuel state w₂ w := by
  obtain ⟨w₁, h₁, h⟩ := Outcome.andThen_eq_success.mp h
  obtain ⟨w₂, h₂, h⟩ := Outcome.andThen_eq_success.mp h
  obtain ⟨w₃, h₃, h⟩ := Outcome.andThen_eq_success.mp h
  obtain ⟨w₄, h₄, h₅⟩ := Outcome.andThen_eq_success.mp h
  obtain ⟨state, hrun, heq⟩ := Option.map_eq_some_iff.mp h₁
  obtain ⟨_, hunits, heq'⟩ := Option.map_eq_some_iff.mp h₂
  obtain ⟨rfl, herrors⟩ := Prod.mk.inj heq
  cases heq'
  refine ⟨state, w₂, hrun, herrors, hunits, fun a ha => ?_⟩
  have ha₃ := ha.trans_le (resolve_keeps h₃).1.size_le
  have ha₄ := ha₃.trans_le (later.size_le h₄)
  rw [resolve_scopes h₅ ha₄, later.scopes h₄ a ha₃, resolve_scopes h₃ ha]

namespace Passed

theorem keeps (h : Passed p lookup fuel state w₂ w) :
    Keeps p.declaredWorld.store state.store := by
  have hresolves := IdResolver.run_resolves p.declaredWorld_intact h.run
  exact ⟨hresolves.size_le, hresolves.nodes⟩

/-- What `UnitScopeBuilder` has to know about the module. -/
theorem root (h : Passed p lookup fuel state w₂ w) : p.root < state.store.size ∧
    ∀ params items, state.store.nodes p.root ≠ .unit params items := by
  have hlt := p.root_lt.trans_le p.declaredWorld_grows.size_le
  refine ⟨hlt.trans_le h.keeps.size_le, ?_⟩
  rw [h.keeps.nodes p.root hlt, p.declaredWorld_grows.nodes p.root p.root_lt, p.root_node]
  exact fun _ _ h => nomatch h

/-- `self` is entered for the unit and for the alias. -/
theorem two_selves (h : Passed p lookup fuel state w₂ w) (hmiss : IsAlias.Misses p lookup)
    {d c d' t : Nat} {target : Path} (halias : IsAlias p d c target d' t)
    {params : List (String × Nat)} {items : List Nat}
    (hunit : p.store.nodes t = .unit params items) :
    2 ≤ ((w.scopes t).values "self").length := by
  obtain ⟨hres, hdone⟩ := halias.run_done hmiss h.run
  have hc : state.store.pointee c = t := hdone.resolve_right fun hne => hne h.errors
  have ht := halias.holds_type hres
  rw [hunit] at ht
  have hclt : c < state.store.size :=
    halias.lt.1.trans_le (p.declaredWorld_grows.size_le.trans hres.size_le)
  have hdecl : ∀ e ∈ p.declarations, Holds state.store e (p.store.nodes e) := fun e he =>
    ((Parsed.holds (Parsed.declarations_lt he)).grows p.declaredWorld_grows).resolves hres
      (Node.isUnresolved_of_isDeclaration (p.declaration_node e he))
  have hmarks : ∀ e ∈ [d', d], e < state.store.size ∧ state.store.pointee e < state.store.size ∧
      ∃ t', (state.store.node e).declaredType = some t' ∧ t' < state.store.size ∧
        state.store.pointee t' = t := by
    intro e he
    obtain rfl | he := List.mem_cons.mp he
    · have hholds := hdecl e halias.target_mem
      rw [hholds.pointee, hholds.node]
      exact ⟨hholds.lt, hholds.lt, t, halias.declared.2, ht.lt, ht.pointee⟩
    · obtain rfl := List.mem_singleton.mp he
      have hholds := hdecl e halias.mem
      rw [hholds.pointee, hholds.node]
      exact ⟨hholds.lt, hholds.lt, c, halias.declared.1, hclt, hc⟩
  obtain ⟨hroot, hmodule⟩ := h.root
  have henriches := run_enriches hroot hmodule h.units
  have hlength := run_selves hroot hmodule ht.lt ht.nodes hmarks h.units
  have hnodup : [d', d].Nodup := by simpa using halias.ne.symm
  have hsub : [d', d] ⊆ p.declarations.filter (· ∈ [d', d]) := by
    intro e he
    refine List.mem_filter.mpr ⟨?_, by simpa using he⟩
    obtain rfl | he := List.mem_cons.mp he
    · exact halias.target_mem
    · obtain rfl := List.mem_singleton.mp he
      exact halias.mem
  have htwo := (hnodup.subperm hsub).length_le
  rw [h.scopes t (ht.lt.trans_le henriches.grows.size_le)]
  exact htwo.trans (Nat.le_of_add_left_le hlength)

/-- Nothing is found under `B::L` if neither that name nor a type with labels of the name `B` is
declared. -/
theorem find_unlabelled (h : Passed p lookup fuel state w₂ w) {x l : String}
    (hscoped : ∀ d ∈ p.declarations, ¬ (p.store.nodes d).declares (x ++ "::" ++ l))
    (hplain : ∀ d ∈ p.declarations, (p.store.nodes d).declares x → ∀ t labels,
      (p.store.nodes d).declaredType = some t → p.store.nodes t ≠ .labelled labels) :
    w.scopes.find p.root [x, l] = [] := by
  obtain ⟨hroot, hmodule⟩ := h.root
  have henriches := run_enriches hroot hmodule h.units
  have hstart : World.scopes ⟨state.store, p.declaredWorld.written⟩ p.root =
      p.declaredWorld.scopes p.root := Parsed.declaredWorld_root h.keeps
  obtain ⟨hvalues, hnested⟩ := p.enlarges.others (x ++ "::" ++ l) hscoped
  have hchildren : (p.declaredWorld.scopes p.root).children x = none := by
    have hrun := ScopeBuilder.run_unlabelled (w := p.world) p.declares hplain
    rw [p.world_scopes_root] at hrun
    exact hrun
  have hne : x ++ "::" ++ l ≠ "$$" := fun heq => unscoped_of_not_mem (by decide) x l heq.symm
  rw [Scopes.find_pair, h.scopes p.root (hroot.trans_le henriches.grows.size_le),
    henriches.children, henriches.others _ hne, hstart, hvalues, hnested, hchildren,
    p.world_scopes_root]

end Passed

end Passed

/-! ## No alias is transparent -/

namespace Parsed

theorem declare_cases {m : Parsed} {k : Nat} {n : NewDeclaration} {d : Nat}
    (hd : d ∈ (m.declare k n).declarations) :
    ((m.declare k n).store.nodes d = n.declaration m.store.size ∧
        (m.declare k n).store.nodes m.store.size = n.node) ∨
      d ∈ m.declarations ∧ (m.declare k n).store.nodes d = m.store.nodes d ∧
        ∀ t, (m.store.nodes d).declaredType = some t →
          (m.declare k n).store.nodes t = m.store.nodes t := by
  obtain rfl | hd := mem_declarationsWith.mp hd
  · exact .inl ⟨storeWith_declaration, storeWith_node⟩
  · exact .inr ⟨hd, storeWith_old (declarations_lt hd) (declaration_ne_root hd), fun t ht =>
      storeWith_old (type_lt hd ht) (type_ne_root hd ht)⟩

/-- The name has no use but that for aliases. -/
def OnlyAliases (m : Parsed) (x : String) : Prop :=
  ∀ d ∈ m.declarations, (∀ l, ¬ (m.store.nodes d).declares (x ++ "::" ++ l)) ∧
    ((m.store.nodes d).declares x → ∃ c target, (m.store.nodes d).declaredType = some c ∧
      m.store.nodes c = .unknownType (some target))

theorem declares_declaration {n : NewDeclaration} {c : Nat} {name : String} :
    (n.declaration c).declares name ↔ n.name = name := by
  simp [Node.declares, Path.pathAsString]

theorem OnlyAliases.declare {m : Parsed} {x : String} (h : m.OnlyAliases x) {k : Nat}
    {n : NewDeclaration} (hname : Unscoped n.name)
    (hn : n.name = x → ∃ target, n = .typeAlias x target) : (m.declare k n).OnlyAliases x := by
  intro d hd
  obtain ⟨hnode, htype⟩ | ⟨hd, hnode, htype⟩ := declare_cases hd
  · rw [hnode]
    refine ⟨fun l hl => hname x l (declares_declaration.mp hl), fun hx => ?_⟩
    obtain ⟨target, rfl⟩ := hn (declares_declaration.mp hx)
    exact ⟨_, target, rfl, htype⟩
  · rw [hnode]
    obtain ⟨hscoped, halias⟩ := h d hd
    refine ⟨hscoped, fun hx => ?_⟩
    obtain ⟨c, target, hty, hc⟩ := halias hx
    exact ⟨c, target, hty, (htype c hty).trans hc⟩

theorem OnlyAliases.addAliases {m : Parsed} {x : String} (h : m.OnlyAliases x) {as : List Alias}
    (has : ∀ a ∈ as, Unscoped a.name) : (m.addAliases as).OnlyAliases x := by
  induction as generalizing m with
  | nil => exact h
  | cons a as ih =>
    refine ih (h.declare (has a List.mem_cons_self) ?_) fun b hb => has b (List.mem_cons_of_mem a hb)
    rintro rfl
    exact ⟨a.target, rfl⟩

theorem OnlyAliases.append {m : Parsed} {x : String} (h : m.OnlyAliases x)
    {ns : List NewDeclaration} (hns : ∀ n ∈ ns, Unscoped n.name ∧ n.name ≠ x) :
    (m.append ns).OnlyAliases x := by
  induction ns generalizing m with
  | nil => exact h
  | cons n ns ih =>
    obtain ⟨hname, hne⟩ := hns n List.mem_cons_self
    exact ih (h.declare hname fun heq => absurd heq hne) fun n' hn' =>
      hns n' (List.mem_cons_of_mem n hn')

theorem append_root (m : Parsed) (ns : List NewDeclaration) : (m.append ns).root = m.root := by
  induction ns generalizing m with
  | nil => rfl
  | cons n ns ih => exact ih _

theorem addAliases_root (m : Parsed) (as : List Alias) : (m.addAliases as).root = m.root := by
  induction as generalizing m with
  | nil => rfl
  | cons a as ih => exact ih _

theorem declare_length (m : Parsed) (k : Nat) (n : NewDeclaration) :
    (m.declare k n).declarations.length = m.declarations.length + 1 := by
  have hlength : (m.declare k n).declarations.length =
      (m.declarations.take k ++ (m.store.size + 1) :: m.declarations.drop k).length := rfl
  rw [hlength, List.length_append, List.length_cons, List.length_take, List.length_drop]
  omega

theorem append_length (m : Parsed) (ns : List NewDeclaration) :
    (m.append ns).declarations.length = m.declarations.length + ns.length := by
  induction ns generalizing m with
  | nil => rfl
  | cons n ns ih =>
    refine (ih _).trans ?_
    rw [declare_length, List.length_cons]
    omega

theorem addAliases_length (m : Parsed) (as : List Alias) :
    (m.addAliases as).declarations.length = m.declarations.length + as.length := by
  induction as generalizing m with
  | nil => rfl
  | cons a as ih =>
    refine (ih _).trans ?_
    rw [declare_length, List.length_cons]
    omega

/-- A path names a declared type directly, or the last alias on the way does. -/
theorem Leads.last {m : Parsed} {path : Path} {t : Nat} (h : m.Leads path t) :
    (∃ d id, d ∈ m.declarations ∧ m.store.nodes d = .typeDecl id t ∧
        id.pathAsString = path.pathAsString ∧ (m.store.nodes t).isAliasable) ∨
      ∃ d c target d', IsAlias m d c target d' t := by
  induction h with
  | own hd hnode hname htype => exact .inl ⟨_, _, hd, hnode, hname, htype⟩
  | via hd hnode _ hc _ ih =>
    obtain ⟨d', id', hd', hnode', hname', htype⟩ | halias := ih
    · exact .inr ⟨_, _, _, d', hd, ⟨_, hnode⟩, hc, hd', ⟨id', hnode', hname'⟩, htype⟩
    · exact .inr halias

theorem Leads.isAliasable {m : Parsed} {path : Path} {t : Nat} (h : m.Leads path t) :
    (m.store.nodes t).isAliasable := by
  induction h with
  | own _ _ _ htype => exact htype
  | via _ _ _ _ _ ih => exact ih

end Parsed

/-- An alias is one beside the built-in names as well. -/
theorem IsAlias.append {m : Parsed} {d c d' t : Nat} {target : Path} (h : IsAlias m d c target d' t)
    (ns : List NewDeclaration) : IsAlias (m.append ns) d c target d' t := by
  obtain ⟨hd, hnode, hc⟩ := Parsed.append_declared ns h.mem h.declared.1
  obtain ⟨hd', hnode', ht⟩ := Parsed.append_declared ns h.target_mem h.declared.2
  refine ⟨hd, ?_, hc.trans h.name, hd', ?_, ?_⟩
  · rw [hnode]
    exact h.node
  · rw [hnode']
    exact h.target_node
  · rw [ht]
    exact h.type

/-- The lookup for modules with the node `n`; for others it misses declarations and names of types. -/
def forgetful (r : Nat) (n : Node) (lookup : Lookup Node) : Lookup Node where
  find s visited c :=
    if s.nodes r = n then lookup.find s visited c
    else match s.node c with
      | .typeDecl _ _ | .unknownType _ => false
      | _ => Lookup.exact.find s visited c
  sound s visited c h := by
    split at h
    · exact lookup.sound s visited c h
    · split at h
      · cases h
      · cases h
      · exact Lookup.exact.sound s visited c h

theorem forgetful_misses {p : Parsed} {n : Node} (hn : p.store.nodes p.root ≠ n)
    (lookup : Lookup Node) : IsAlias.Misses p (forgetful p.root n lookup) := by
  intro s visited e hroot hnode
  have hne : s.nodes p.root ≠ n := hroot ▸ hn
  obtain ⟨id, c, he⟩ | ⟨path, he⟩ := hnode
  · simp [forgetful, hne, he]
  · simp [forgetful, hne, he]

section Congruence

variable {r a : Nat} {n : Node} {lookup : Lookup Node} {fuel : Nat} {report : Bool} {w : World}

theorem resolve_forgetful (hr : r < w.store.size) (hn : w.store.nodes r = n) :
    resolve (forgetful r n lookup) fuel report a w = resolve lookup fuel report a w := by
  unfold resolve IdResolver.run
  rw [preOrder_congr (P := fun s => r < s.size ∧ s.nodes r = n) (fun hw hvisit => ?_)
    (fun s visited c hs => ?_) ⟨hr, hn⟩]
  · have hkeeps := Keeps.of_redirects (IdResolver.visit_redirects hvisit).1
    exact ⟨hw.1.trans_le hkeeps.size_le, (hkeeps.nodes r hw.1).trans hw.2⟩
  · simp [forgetful, hs.2]

theorem Outcome.andThen_congr {o : Outcome} {f g : World → Outcome}
    (h : ∀ w, o = some (w, []) → f w = g w) : o.andThen f = o.andThen g := by
  unfold Outcome.andThen
  split
  · exact h _ rfl
  · rfl

theorem runPasses_forgetful {p : Parsed} {later : Later} :
    p.runPasses (forgetful p.root (p.store.nodes p.root) lookup) later fuel =
      p.runPasses lookup later fuel := by
  have hlt := p.root_lt.trans_le p.declaredWorld_grows.size_le
  have hnode := p.declaredWorld_grows.nodes p.root p.root_lt
  have hnode' := hnode.trans p.root_node
  unfold Parsed.runPasses
  rw [resolve_forgetful hlt hnode]
  refine Outcome.andThen_congr fun w₁ h₁ => Outcome.andThen_congr fun w₂ h₂ => ?_
  -- the node of the module is never changed
  have hkeeps₁ := (resolve_keeps h₁).1
  have hlt₁ := hlt.trans_le hkeeps₁.size_le
  have hnode₁ := (hkeeps₁.nodes p.root hlt).trans hnode'
  obtain ⟨_, hunits, heq⟩ := Option.map_eq_some_iff.mp h₂
  cases heq
  have henriches := run_enriches hlt₁ (by rw [hnode₁]; exact fun _ _ h => nomatch h) hunits
  have hlt₂ := hlt₁.trans_le henriches.grows.size_le
  have hnode₂ := (henriches.grows.nodes p.root hlt₁).trans hnode₁
  rw [resolve_forgetful hlt₂ (hnode₂.trans p.root_node.symm)]
  refine Outcome.andThen_congr fun w₃ h₃ => Outcome.andThen_congr fun w₄ h₄ => ?_
  have hkeeps₃ := (resolve_keeps h₃).1
  have hlt₃ := hlt₂.trans_le hkeeps₃.size_le
  have hnode₃ := (hkeeps₃.nodes p.root hlt₂).trans hnode₂
  have hnode₄ := later.modules h₄ p.root hlt₃ _ _ _ hnode₃
  exact resolve_forgetful (hlt₃.trans_le (later.size_le h₄)) (hnode₄.trans p.root_node.symm)

end Congruence

/-- Every alias has a unit in which `self` is ambiguous, or labels that it does not lead to. -/
theorem not_serves {later : Later} {m : Parsed} {as : List Alias} (has : m.Admits as)
    {lookup : Lookup Node} (hmiss : IsAlias.Misses (m.addAliases as).addBuiltins lookup) {fuel : Nat}
    {w : World} (hpass : (m.addAliases as).executePasses lookup later fuel = some (w, []))
    {a : Alias} (ha : a ∈ as) {t : Nat} (ht : (m.addAliases as).Leads [a.name] t) :
    ¬ Serves w m.root a.name t ((m.addAliases as).store.nodes t) := by
  obtain ⟨state, w₂, hpassed⟩ := Parsed.passed hpass
  have hroot : (m.addAliases as).addBuiltins.root = m.root :=
    (Parsed.append_root _ _).trans (Parsed.addAliases_root m as)
  have hname : Path.pathAsString [a.name] = a.name := by simp [Path.pathAsString]
  have honly : (m.addAliases as).OnlyAliases a.name := by
    refine Parsed.OnlyAliases.addAliases (fun d hd => ?_) has.unscoped
    refine ⟨fun l hl => ?_, fun hx => ?_⟩
    · obtain ⟨id, hid, heq⟩ := hl
      exact (has.fresh a ha d hd id hid).2 l heq
    · obtain ⟨id, hid, heq⟩ := hx
      exact absurd heq (has.fresh a ha d hd id hid).1
  have haliasable := ht.isAliasable
  cases hn : (m.addAliases as).store.nodes t with
  | unit params items =>
    rintro ⟨v, hv⟩
    obtain ⟨d, id, hd, hnode, hid, -⟩ | ⟨d, c, target, d', halias⟩ := ht.last
    · -- the alias itself does not declare the unit
      obtain ⟨c, target, hty, hc⟩ := (honly d hd).2 ⟨id, by rw [hnode]; rfl, hid.trans hname⟩
      rw [hnode] at hty
      cases hty
      cases hn.symm.trans hc
    · have halias' := halias.append Parsed.builtins
      have hunit : (m.addAliases as).addBuiltins.store.nodes t = .unit params items :=
        (Parsed.append_declared Parsed.builtins halias.target_mem halias.declared.2).2.2.trans hn
      have htwo := hpassed.two_selves hmiss halias' hunit
      rw [Scopes.find_single] at hv
      rw [hv] at htwo
      exact absurd htwo (by simp)
  | labelled labels =>
    intro hserves
    rw [hn] at haliasable
    obtain ⟨l, hl⟩ : ∃ l, l ∈ labels := by
      cases labels with
      | nil => cases haliasable
      | cons l _ => exact ⟨l, List.mem_cons_self⟩
    obtain ⟨v, hv, -⟩ := hserves l hl
    have hbuiltins : ∀ n ∈ Parsed.builtins, Unscoped n.name ∧ n.name ≠ a.name := fun n hn =>
      ⟨(Parsed.fit_builtins n hn).name.1, has.builtins a ha n hn⟩
    have honly' := honly.append hbuiltins
    have hnone := hpassed.find_unlabelled (x := a.name) (l := l) (fun d hd => (honly' d hd).1 l) ?_
    · rw [hroot, hv] at hnone
      cases hnone
    · intro d hd hx t' labels' hty hlabels
      obtain ⟨c, target, hty', hc⟩ := (honly' d hd).2 hx
      cases hty.symm.trans hty'
      cases hlabels.symm.trans hc
  | _ =>
    rw [hn] at haliasable
    cases haliasable

/-- Aliases are transparent only if there are none. -/
theorem transparent_iff (later : Later) (m : Parsed) (as : List Alias) (has : m.Admits as)
    (hpass : ∃ lookup fuel w, m.executePasses lookup later fuel = some (w, [])) :
    Transparent later m as ↔ as = [] := by
  constructor
  · intro h
    obtain ⟨lookup, fuel, w, hw⟩ := hpass
    by_contra hne
    obtain ⟨a, ha⟩ := List.exists_mem_of_ne_nil as hne
    obtain ⟨t, ht⟩ := has.leads a ha
    let p := m.addBuiltins
    -- a lookup that finds its way in the module, but misses the aliases
    have hw' : m.executePasses (forgetful p.root (p.store.nodes p.root) lookup) later fuel =
        some (w, []) := runPasses_forgetful.trans hw
    obtain ⟨fuel', w', hpass', -, hserves⟩ := h _ fuel w hw'
    refine not_serves has ?_ hpass' ha ht (hserves a ha t ht)
    have hroot : p.root = (m.addAliases as).addBuiltins.root := by
      rw [show p.root = m.root from Parsed.append_root _ _,
        show (m.addAliases as).addBuiltins.root = (m.addAliases as).root from
          Parsed.append_root _ _, Parsed.addAliases_root]
    rw [hroot]
    refine forgetful_misses (fun heq => hne ?_) lookup
    rw [(m.addAliases as).addBuiltins.root_node, ← hroot, p.root_node] at heq
    have hlength := congrArg List.length (Node.module.inj heq).2.2
    rw [show (m.addAliases as).addBuiltins.declarations.length = _ from Parsed.append_length _ _,
      show p.declarations.length = _ from Parsed.append_length _ _,
      Parsed.addAliases_length] at hlength
    exact List.length_eq_zero_iff.mp (by omega)
  · rintro rfl lookup fuel w hw
    refine ⟨fuel, w, hw, ⟨fun c => c, Function.injective_id, fun _ _ => rfl, ?_⟩, ?_⟩
    · intro c _ path v n hv
      exact ⟨n, hv, (Node.map_id _).symm⟩
    · intro a ha
      cases ha

/-- In a module without transforms and instantiations these passes change nothing. -/
def Later.skip : Later where
  run w := some (w, [])
  size_le h := by
    cases h
    exact le_rfl
  modules h a _ id p ds hn := by
    cases h
    exact hn
  scopes h a _ := by
    cases h
    rfl

/-- `type V = U`. -/
def unitAlias : Alias := ⟨2, "V", ["U"]⟩

/-- `type F = E`. -/
def enumAlias : Alias := ⟨0, "F", ["E"]⟩

theorem switchModule_passes :
    (switchModule.executePasses .exact .skip 20).map Prod.snd = some [] := by
  decide +kernel

/-- With an alias of its unit the module does not pass any more, and an alias of the enumeration
leads to none of its labels. -/
theorem switchModule_aliases :
    (switchModule.executePasses .exact .skip 20).map Prod.snd = some [] ∧
      ((switchModule.addAliases [unitAlias]).executePasses .exact .skip 20).map Prod.snd =
        some ["ID self defined more than once"] ∧
      ((switchModule.addAliases [enumAlias]).executePasses .exact .skip 20).map
        (fun r => (r.2, r.1.scopes.find 11 ["F", "L"])) = some ([], []) ∧
      ((switchModule.addAliases [enumAlias]).executePasses .exact .skip 20).map
        (fun r => (r.1.scopes.find 11 ["E", "L"]).map r.1.store.node) =
          some [.labelExpr 1 "L"] := by
  decide +kernel

theorem unitAlias_admitted : switchModule.Admits [unitAlias] where
  unscoped a ha := by
    obtain rfl := List.mem_singleton.mp ha
    exact unscoped_of_not_mem (by decide)
  distinct := by decide
  builtins a ha := by
    obtain rfl := List.mem_singleton.mp ha
    decide
  fresh a ha d hd id hid := by
    obtain rfl := List.mem_singleton.mp ha
    obtain ⟨name, rfl, hname, -⟩ := switchModule_wellNamed.unscoped d hd id hid
    have hne : ∀ d ∈ [2, 10], (switchTree.nodes d).declaredId ≠ some ["V"] := by decide
    have hpath : Path.pathAsString [name] = name := by simp [Path.pathAsString]
    rw [hpath]
    refine ⟨?_, hname _⟩
    rintro rfl
    exact hne d hd hid
  leads a ha := by
    obtain rfl := List.mem_singleton.mp ha
    refine ⟨8, .via (d := 13) (c := 12) (by decide) rfl rfl rfl ?_⟩
    exact .own (d := 10) (by decide) rfl rfl rfl

theorem unitAlias_not_transparent : ¬ Transparent .skip switchModule [unitAlias] := by
  intro h
  obtain ⟨⟨w, errors⟩, hw, herrors⟩ := Option.map_eq_some_iff.mp switchModule_passes
  cases herrors
  have hnil := (transparent_iff .skip switchModule [unitAlias] unitAlias_admitted
    ⟨.exact, 20, w, hw⟩).mp h
  cases hnil

end Diffingo.Names
