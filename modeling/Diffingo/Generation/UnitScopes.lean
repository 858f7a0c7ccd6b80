import Diffingo.Library.Recursion
import Diffingo.Generation.ScopeEffects

/-!
# The scopes of units and items

What the resolver leaves of the items of a unit, and what `UnitScopeBuilder` then enters into their
scopes and into the scope of the unit.
-/

namespace Diffingo.Names

open Traversal Recursion

/-! ## `IdResolver` -/

/-- What a run of the resolver does to a tree. Only cells of names are redirected, and a field that
is resolved becomes a new node, with the same name and the same parent for its scope. -/
structure Resolves (s t : Store Node) : Prop where
  size_le : s.size ≤ t.size
  nodes : ∀ a < s.size, t.nodes a = s.nodes a
  kept : ∀ c < s.size, (s.node c).isUnresolved = false → t.pointee c = s.pointee c
  field : ∀ c < s.size, ∀ id parent path as ps ss, s.node c = .unknownField id parent path as ps ss →
    t.pointee c = s.pointee c ∨ s.size ≤ t.pointee c ∧ t.pointee c < t.size ∧
      ∃ type cs, t.node c = .item id type parent [] cs
  distinct : ∀ c < s.size, ∀ d < s.size, c ≠ d → (s.node c).isUnknownField →
    (s.node d).isUnknownField → s.size ≤ t.pointee c → t.pointee c ≠ t.pointee d

theorem Node.isUnknownField_iff {n : Node} : n.isUnknownField ↔
    ∃ id parent path as ps ss, n = .unknownField id parent path as ps ss := by
  cases n <;> simp [Node.isUnknownField]

/-- The cells of a tree that no pass has redirected. -/
def Intact (s : Store Node) : Prop := ∀ c < s.size, s.pointee c = c

namespace Resolves

variable {s t u : Store Node}

theorem refl (hs : Intact s) : Resolves s s where
  size_le := le_rfl
  nodes _ _ := rfl
  kept _ _ _ := rfl
  field _ _ _ _ _ _ _ _ _ := .inl rfl
  distinct c hc _ _ _ _ _ hle := by
    rw [hs c hc] at hle
    omega

theorem node_of_kept (hs : Intact s) (h : Resolves s t) {c : Nat} (hc : c < s.size)
    (hp : t.pointee c = s.pointee c) : t.node c = s.node c := by
  rw [Store.node, Store.node, hp, hs c hc, h.nodes c hc]

theorem grows (h : Resolves s t) (hg : Grows t u) : Resolves s u where
  size_le := h.size_le.trans hg.size_le
  nodes a ha := (hg.nodes a (ha.trans_le h.size_le)).trans (h.nodes a ha)
  kept c hc hr := (hg.pointee c (hc.trans_le h.size_le)).trans (h.kept c hc hr)
  field c hc id parent path as ps ss hn := by
    rw [hg.pointee c (hc.trans_le h.size_le)]
    obtain hp | ⟨hle, hlt, hitem⟩ := h.field c hc id parent path as ps ss hn
    · exact .inl hp
    · refine .inr ⟨hle, hlt.trans_le hg.size_le, ?_⟩
      rw [hg.node (hc.trans_le h.size_le) hlt]
      exact hitem
  distinct c hc d hd hne hfc hfd := by
    rw [hg.pointee c (hc.trans_le h.size_le), hg.pointee d (hd.trans_le h.size_le)]
    exact h.distinct c hc d hd hne hfc hfd

/-- A name, or a type that is one, may be redirected anywhere. -/
theorem replace_name (hs : Intact s) (h : Resolves s t) {c : Nat} (v : Nat)
    (hun : (t.node c).isUnresolved) (hnot : (t.node c).isUnknownField = false) :
    Resolves s (t.replace c v) := by
  have hother : ∀ e, e ≠ c → (t.replace c v).pointee e = t.pointee e := fun e he =>
    t.replace_pointee_of_ne v he
  -- the cell was one of a name from the start
  have hc : ∀ hc : c < s.size, (s.node c).isUnresolved ∧ (s.node c).isUnknownField = false := by
    intro hc
    by_cases hr : (s.node c).isUnresolved
    · refine ⟨hr, ?_⟩
      by_contra hfield
      obtain ⟨id, parent, path, as, ps, ss, hn⟩ :=
        Node.isUnknownField_iff.mp (Bool.of_not_eq_false hfield)
      obtain hp | ⟨-, -, type, cs, hitem⟩ := h.field c hc id parent path as ps ss hn
      · rw [h.node_of_kept hs hc hp, hn] at hnot
        cases hnot
      · rw [hitem] at hun
        cases hun
    · have hkept := h.kept c hc ((Bool.not_eq_true _).mp hr)
      rw [h.node_of_kept hs hc hkept] at hun
      exact absurd hun hr
  refine ⟨h.size_le, h.nodes, fun e he hr => ?_, fun e he id parent path as ps ss hn => ?_, ?_⟩
  · have hne : e ≠ c := by
      rintro rfl
      rw [(hc he).1] at hr
      cases hr
    rw [hother e hne]
    exact h.kept e he hr
  · have hne : e ≠ c := by
      rintro rfl
      have hnot := (hc he).2
      rw [hn] at hnot
      cases hnot
    rw [Store.node, hother e hne]
    exact h.field e he id parent path as ps ss hn
  · intro e he d hd hne hfe hfd
    have hec : e ≠ c := by
      rintro rfl
      rw [(hc he).2] at hfe
      cases hfe
    have hdc : d ≠ c := by
      rintro rfl
      rw [(hc hd).2] at hfd
      cases hfd
    rw [hother e hec, hother d hdc]
    exact h.distinct e he d hd hne hfe hfd

/-- A field is redirected to a new node. -/
theorem replace_field (hs : Intact s) (h : Resolves s t) (hg : Grows t u) {c : Nat} {id : String}
    {parent : Option Nat} {path : Path} {as ps ss : List Nat}
    (hnode : t.node c = .unknownField id parent path as ps ss)
    (hnew : ∃ type cs, Holds u t.size (.item id type parent [] cs)) :
    Resolves s (u.replace c t.size) := by
  obtain ⟨type, cs, hholds⟩ := hnew
  have hu := h.grows hg
  have hself : (u.replace c t.size).pointee c = t.size := by
    rw [Store.replace_pointee_self, hholds.pointee]
  have hother : ∀ e, e ≠ c → (u.replace c t.size).pointee e = u.pointee e := fun e he =>
    u.replace_pointee_of_ne t.size he
  refine ⟨hu.size_le, hu.nodes, fun e he hr => ?_, fun e he id' parent' path' as' ps' ss' hn => ?_,
    ?_⟩
  · have hne : e ≠ c := by
      rintro rfl
      rw [← h.node_of_kept hs he (h.kept e he hr), hnode] at hr
      cases hr
    rw [hother e hne]
    exact hu.kept e he hr
  · by_cases hec : e = c
    · subst hec
      obtain hp | ⟨-, -, type', cs', hitem⟩ := h.field e he id' parent' path' as' ps' ss' hn
      · have heq := (h.node_of_kept hs he hp).symm.trans hnode
        rw [hn] at heq
        cases heq
        rw [Store.node, hself]
        exact .inr ⟨h.size_le, hholds.lt, type, cs, hholds.nodes⟩
      · rw [hnode] at hitem
        cases hitem
    · rw [Store.node, hother e hec]
      exact hu.field e he id' parent' path' as' ps' ss' hn
  · -- the other fields have nodes from before
    have hold : ∀ e < s.size, e ≠ c → (s.node e).isUnknownField → u.pointee e < t.size := by
      intro e he _ hfe
      obtain ⟨id', parent', path', as', ps', ss', hn⟩ := Node.isUnknownField_iff.mp hfe
      rw [hg.pointee e (he.trans_le h.size_le)]
      obtain hp | ⟨-, hlt, -⟩ := h.field e he id' parent' path' as' ps' ss' hn
      · rw [hp, hs e he]
        exact he.trans_le h.size_le
      · exact hlt
    intro e he d hd hne hfe hfd hle
    by_cases hec : e = c
    · subst hec
      rw [hself, hother d hne.symm]
      exact (hold d hd hne.symm hfd).ne'
    · rw [hother e hec] at hle ⊢
      by_cases hdc : d = c
      · subst hdc
        rw [hself]
        exact (hold e he hec hfe).ne
      · rw [hother d hdc]
        exact hu.distinct e he d hd hne hfe hfd hle

end Resolves

namespace IdResolver

section Visits

variable {written : Nat → Option ScopeData} {fuel : Nat} {report : Bool} {w w' : State}

theorem withValue_cases {unknown ambiguous : String} {vals : List Nat} {f : Nat → Option State}
    (h : withValue report unknown ambiguous vals w f = some w') :
    (w'.store = w.store ∧ w.errors <:+ w'.errors ∧ (vals ≠ [] → w'.errors ≠ [])) ∨
      ∃ v, vals = [v] ∧ f v = some w' := by
  unfold withValue at h
  split at h
  · cases h
    left
    cases report
    · exact ⟨rfl, List.suffix_rfl, fun h => absurd rfl h⟩
    · exact ⟨rfl, List.suffix_cons _ _, fun h => absurd rfl h⟩
  · exact .inr ⟨_, rfl, h⟩
  · cases h
    exact .inl ⟨rfl, List.suffix_cons _ _, fun _ => List.cons_ne_nil _ _⟩

theorem createByType_creates {s u : Store Node} {type : Nat} {id : String} {parent : Option Nat}
    {attributes params sinks : List Nat}
    (h : createByType fuel s type id parent attributes params sinks = some u) :
    Grows s u ∧ ∃ type cs, Holds u s.size (.item id type parent [] cs) := by
  induction fuel generalizing s type id parent attributes params sinks with
  | zero => cases h
  | succ fuel ih =>
    unfold createByType at h
    split at h
    · cases h
      exact ⟨.alloc s _, _, _, holds_alloc s _⟩
    · obtain ⟨hg, -⟩ := ih h
      exact ⟨((Grows.alloc s _).trans (.alloc _ _)).trans hg, _, _,
        ((holds_alloc s _).grows (.alloc _ _)).grows hg⟩
    · cases h
      exact ⟨.alloc s _, _, _, holds_alloc s _⟩

theorem newField_creates {s u : Store Node} {v : Nat} {id : String} {parent : Option Nat}
    {attributes params sinks : List Nat}
    (h : newField fuel s v id parent attributes params sinks = some (some u)) :
    Grows s u ∧ ∃ type cs, Holds u s.size (.item id type parent [] cs) := by
  unfold newField at h
  split at h
  · cases h
    exact ⟨(Grows.alloc s _).trans (.alloc _ _), _, _, (holds_alloc s _).grows (.alloc _ _)⟩
  · split at h
    · cases h
      exact ⟨.alloc s _, _, _, holds_alloc s _⟩
    · cases h
  · cases h
    exact ⟨.alloc s _, _, _, holds_alloc s _⟩
  · obtain ⟨u', hu, heq⟩ := Option.map_eq_some_iff.mp h
    cases heq
    exact createByType_creates hu
  · cases h

/-- What a visit does to the tree: nothing, or it redirects a name, or a field to a new node. -/
def Redirects (s : Store Node) (c : Nat) (s' : Store Node) : Prop :=
  s' = s ∨
    (∃ v, (s.node c).isUnresolved ∧ (s.node c).isUnknownField = false ∧ s' = s.replace c v) ∨
    ∃ id parent path as ps ss u, s.node c = .unknownField id parent path as ps ss ∧ Grows s u ∧
      (∃ type cs, Holds u s.size (.item id type parent [] cs)) ∧ s' = u.replace c s.size

theorem visit_redirects {current : List Nat} {c : Nat}
    (h : visit written fuel report current c w = some w') :
    Redirects w.store c w'.store ∧ w.errors <:+ w'.errors := by
  unfold visit at h
  split at h
  · next path hnode =>
    obtain ⟨vals, -, h⟩ := Option.bind_eq_some_iff.mp h
    obtain ⟨hsame, herrors, -⟩ | ⟨v, -, h⟩ := withValue_cases h
    · exact ⟨.inl hsame, herrors⟩
    · cases h
      exact ⟨.inr (.inl ⟨v, by rw [hnode]; rfl, by rw [hnode]; rfl, rfl⟩), List.suffix_rfl⟩
  · next path hnode =>
    obtain ⟨vals, -, h⟩ := Option.bind_eq_some_iff.mp h
    obtain ⟨hsame, herrors, -⟩ | ⟨v, -, h⟩ := withValue_cases h
    · exact ⟨.inl hsame, herrors⟩
    · split at h
      · next t _ =>
        cases h
        exact ⟨.inr (.inl ⟨t, by rw [hnode]; rfl, by rw [hnode]; rfl, rfl⟩), List.suffix_rfl⟩
      · cases h
        exact ⟨.inl rfl, List.suffix_cons _ _⟩
  · obtain ⟨vals, -, h⟩ := Option.bind_eq_some_iff.mp h
    obtain ⟨hsame, herrors, -⟩ | ⟨v, -, h⟩ := withValue_cases h
    · exact ⟨.inl hsame, herrors⟩
    · split at h
      · split at h
        · cases h
          exact ⟨.inl rfl, List.suffix_rfl⟩
        · cases h
          exact ⟨.inl rfl, List.suffix_cons _ _⟩
      · cases h
        exact ⟨.inl rfl, List.suffix_cons _ _⟩
  · next hnode =>
    obtain ⟨vals, -, h⟩ := Option.bind_eq_some_iff.mp h
    obtain ⟨hsame, herrors, -⟩ | ⟨v, -, h⟩ := withValue_cases h
    · exact ⟨.inl hsame, herrors⟩
    · obtain ⟨field, hfield, h⟩ := Option.bind_eq_some_iff.mp h
      cases field with
      | none =>
        cases h
        exact ⟨.inl rfl, List.suffix_cons _ _⟩
      | some u =>
        cases h
        obtain ⟨hg, hnew⟩ := newField_creates hfield
        exact ⟨.inr (.inr ⟨_, _, _, _, _, _, u, hnode, hg, hnew, rfl⟩), List.suffix_rfl⟩
  · cases h
    exact ⟨.inl rfl, List.suffix_rfl⟩

/-- Every visit keeps to what a run of the resolver may do. -/
theorem visit_resolves {s : Store Node} (hs : Intact s) {current : List Nat} {c : Nat}
    (hw : Resolves s w.store) (h : visit written fuel report current c w = some w') :
    Resolves s w'.store := by
  obtain ⟨hsame | ⟨v, hun, hnot, heq⟩ | ⟨_, _, _, _, _, _, u, hnode, hg, hnew, heq⟩, -⟩ :=
    visit_redirects h
  · rw [hsame]
    exact hw
  · rw [heq]
    exact hw.replace_name hs v hun hnot
  · rw [heq]
    exact hw.replace_field hs hg hnode hnew

theorem run_resolves {lookup : Lookup Node} {r : Nat} {world : World} (hs : Intact world.store)
    (h : run lookup fuel report r world = some w) : Resolves world.store w.store := by
  refine preOrder_within (Q := fun _ => True) (J := fun w => Resolves world.store w.store)
    ?_ (fun _ _ _ => trivial) trivial (Resolves.refl hs) h
  intro current c w w' _ hw hvisit
  have hentered : Resolves world.store (w.enter current c).store := hw
  exact visit_resolves hs hentered hvisit

end Visits

end IdResolver

/-! ## The items of a unit -/

theorem mapM_congr {α β : Type} {f g : α → Option β} {l : List α} (h : ∀ x ∈ l, f x = g x) :
    l.mapM f = l.mapM g := by
  induction l with
  | nil => rfl
  | cons x l ih =>
    rw [List.mapM_cons, List.mapM_cons, h x List.mem_cons_self,
      ih fun y hy => h y (List.mem_cons_of_mem x hy)]

/-- The items are the same wherever the same cases hang on them. -/
theorem flatten_congr {s t : Store Node} {P : Nat → Prop}
    (hclosed : ∀ c, P c → ∀ i ∈ (s.node c).cases.flatten, P i)
    (hcases : ∀ c, P c → (t.node c).cases = (s.node c).cases) (fuel : Nat) {i : Nat} (hi : P i) :
    flatten t fuel i = flatten s fuel i := by
  induction fuel generalizing i with
  | zero => rfl
  | succ fuel ih =>
    have hnested : (s.node i).cases.flatten.mapM (flatten t fuel) =
        (s.node i).cases.flatten.mapM (flatten s fuel) :=
      mapM_congr fun j hj => ih (hclosed i hi j hj)
    rw [flatten, flatten, hcases i hi, hnested]

theorem flattenedItems_congr {s t : Store Node} {P : Nat → Prop}
    (hclosed : ∀ c, P c → ∀ i ∈ (s.node c).cases.flatten, P i)
    (hcases : ∀ c, P c → (t.node c).cases = (s.node c).cases) (fuel : Nat) {items : List Nat}
    (hitems : ∀ i ∈ items, P i) : flattenedItems t fuel items = flattenedItems s fuel items := by
  have hnested : items.mapM (flatten t fuel) = items.mapM (flatten s fuel) :=
    mapM_congr fun i hi => flatten_congr hclosed hcases fuel (hitems i hi)
  rw [flattenedItems, flattenedItems, hnested]

namespace UnitScopeBuilder

/-- What an item has in its scope after the visit of its unit `u`. -/
structure FillsItem (u t a : Nat) (w w' : World) : Prop where
  parent : (w'.scopes a).parent = some u
  children : (w'.scopes a).children = (w.scopes a).children
  others : ∀ name ≠ "$$", (w'.scopes a).values name = (w.scopes a).values name
  adds : ∃ type, Adds w w' a "$$" (.parserState .dollarDollar none t type)

section Item

variable {u t i : Nat} {w : World}

theorem addItem_store : (addItem u t w i).store =
    w.store.alloc (.parserState .dollarDollar none t (dollarType w.store i)) := rfl

theorem addItem_touches :
    Touches (fun a => a = u ∨ a = w.store.pointee i) w (addItem u t w i) :=
  ((modify_touches w (w.store.pointee i) (·.setParent u)).mono fun _ h => .inr h).trans
    (((modify_touches _ u _).mono fun _ h => .inl h).trans
      ((insertNew_touches _ (w.store.pointee i) "$$" _).mono fun _ h => .inr h))

/-- The world before `$$` is entered. -/
def linkItem (u : Nat) (w : World) (i : Nat) : World :=
  (w.modify (w.store.pointee i) (·.setParent u)).modify u
    (·.addChild ("__item_" ++ (w.store.node i).itemId) (w.store.pointee i))

theorem addItem_unit (hu : u < w.store.size) (hne : w.store.pointee i ≠ u) :
    (addItem u t w i).scopes u =
      (w.scopes u).addChild ("__item_" ++ (w.store.node i).itemId) (w.store.pointee i) := by
  have hlink : (linkItem u w i).scopes u =
      (w.scopes u).addChild ("__item_" ++ (w.store.node i).itemId) (w.store.pointee i) := by
    rw [linkItem, modify_scopes_self, modify_scopes_of_ne _ _ _ hne.symm]
  rw [← hlink]
  exact (insertNew_touches (linkItem u w i) (w.store.pointee i) "$$" _).scopes hu hne.symm

theorem addItem_item (ha : w.store.pointee i < w.store.size) (hne : w.store.pointee i ≠ u) :
    (addItem u t w i).scopes (w.store.pointee i) =
      ((w.scopes (w.store.pointee i)).setParent u).insert "$$" w.store.size := by
  have hlink : (linkItem u w i).scopes (w.store.pointee i) =
      (w.scopes (w.store.pointee i)).setParent u := by
    rw [linkItem, modify_scopes_of_ne _ _ _ hne, modify_scopes_self]
  rw [← hlink]
  exact insertNew_scopes_self (linkItem u w i) (w.store.pointee i) "$$" _ ha

end Item

/-- What the visit of the unit `u` does for the items `is`. -/
structure FillsItems (u t : Nat) (is : List Nat) (w w' : World) : Prop where
  touches : Touches (fun a => a = u ∨ ∃ i ∈ is, a = w.store.pointee i) w w'
  values : (w'.scopes u).values = (w.scopes u).values
  parent : (w'.scopes u).parent = (w.scopes u).parent
  children : ∀ k c, (w'.scopes u).children k = some c →
    (w.scopes u).children k = some c ∨ ∃ i ∈ is, c = w.store.pointee i
  items : ∀ i ∈ is, FillsItem u t (w.store.pointee i) w w'

theorem addItems_fills {u t : Nat} {w : World} (hu : u < w.store.size) (is : List Nat)
    (hlt : ∀ i ∈ is, i < w.store.size ∧ w.store.pointee i < w.store.size)
    (hne : ∀ i ∈ is, w.store.pointee i ≠ u) (hnodup : (is.map w.store.pointee).Nodup) :
    FillsItems u t is w (is.foldl (addItem u t) w) := by
  induction is generalizing w with
  | nil =>
    exact ⟨.refl w, rfl, rfl, fun _ _ h => .inl h, fun _ h => nomatch h⟩
  | cons i is ih =>
    obtain ⟨hfresh, hnodup⟩ := List.nodup_cons.mp hnodup
    obtain ⟨hilt, hlt⟩ := List.forall_mem_cons.mp hlt
    obtain ⟨hine, hne⟩ := List.forall_mem_cons.mp hne
    have h₁ : Touches (fun a => a = u ∨ a = w.store.pointee i) w (addItem u t w i) :=
      addItem_touches
    have hunit := addItem_unit (t := t) hu hine
    have hitem := addItem_item (t := t) hilt.2 hine
    have hsize := h₁.grows.size_le
    have hpointee : ∀ j ∈ is, (addItem u t w i).store.pointee j = w.store.pointee j := fun j hj =>
      h₁.grows.pointee j (hlt j hj).1
    have hmap : is.map (addItem u t w i).store.pointee = is.map w.store.pointee :=
      List.map_congr_left hpointee
    obtain ⟨htouches, hvalues, hparent, hchildren, hitems⟩ :=
      ih (w := addItem u t w i) (hu.trans_le hsize)
        (fun j hj => ⟨(hlt j hj).1.trans_le hsize,
          hpointee j hj ▸ (hlt j hj).2.trans_le hsize⟩)
        (fun j hj => hpointee j hj ▸ hne j hj) (hmap ▸ hnodup)
    -- the later items do not touch the scope of this one
    have huntouched : ¬ (w.store.pointee i = u ∨
        ∃ j ∈ is, w.store.pointee i = (addItem u t w i).store.pointee j) := by
      rintro (h | ⟨j, hj, h⟩)
      · exact hine h
      · exact hfresh (List.mem_map.mpr ⟨j, hj, (h.trans (hpointee j hj)).symm⟩)
    have hlast := htouches.scopes (hilt.2.trans_le hsize) huntouched
    refine ⟨?_, ?_, ?_, ?_, ?_⟩
    · refine (h₁.mono ?_).trans (htouches.mono ?_)
      · rintro a (h | h)
        · exact .inl h
        · exact .inr ⟨i, List.mem_cons_self, h⟩
      · rintro a (h | ⟨j, hj, h⟩)
        · exact .inl h
        · exact .inr ⟨j, List.mem_cons_of_mem i hj, h.trans (hpointee j hj)⟩
    · rw [List.foldl_cons, hvalues, hunit, ScopeData.addChild_values]
    · rw [List.foldl_cons, hparent, hunit, ScopeData.addChild_parent]
    · intro k c hc
      obtain h | ⟨j, hj, h⟩ := hchildren k c hc
      · rw [hunit] at h
        obtain h | ⟨-, h⟩ := ScopeData.addChild_children _ _ _ h
        · exact .inl h
        · exact .inr ⟨i, List.mem_cons_self, h⟩
      · exact .inr ⟨j, List.mem_cons_of_mem i hj, h.trans (hpointee j hj)⟩
    · intro j hj
      obtain rfl | hj := List.mem_cons.mp hj
      · refine ⟨?_, ?_, ?_, dollarType w.store j, w.store.size, ?_, ?_⟩
        · rw [List.foldl_cons, hlast, hitem]
          rfl
        · rw [List.foldl_cons, hlast, hitem]
          rfl
        · intro name hname
          rw [List.foldl_cons, hlast, hitem, ScopeData.insert_values_of_ne _ _ _ hname]
          rfl
        · rw [List.foldl_cons, hlast, hitem, ScopeData.insert_values_self]
          rfl
        · exact (holds_alloc w.store _).grows htouches.grows
      · obtain ⟨hp, hc, ho, type, v, hv, hn⟩ := hitems j hj
        rw [hpointee j hj] at hp hc ho hv
        have hfirst : (addItem u t w i).scopes (w.store.pointee j) =
            w.scopes (w.store.pointee j) := by
          refine h₁.scopes (hlt j hj).2 ?_
          rintro (h | h)
          · exact hne j hj h
          · exact hfresh (List.mem_map.mpr ⟨j, hj, h⟩)
        rw [hfirst] at hc hv
        exact ⟨hp, hc, fun name hname => (ho name hname).trans (by rw [hfirst]), type, v, hv, hn⟩

/-- The unit `t` and its items `is` have got their scopes. -/
structure FillsUnit (r t : Nat) (params : List (String × Nat)) (is : List Nat) (w w' : World) :
    Prop where
  parent : (w'.scopes t).parent = some r
  self : Adds w w' t "self" (.parserState .self none t (.cell t))
  parameters : ∀ p ∈ params, Adds w w' t p.1 (.parserState .parameter (some p.1) t (.cell p.2))
  others : ∀ name ≠ "self", name ∉ params.map Prod.fst →
    (w'.scopes t).values name = (w.scopes t).values name
  children : ∀ k c, (w'.scopes t).children k = some c →
    (w.scopes t).children k = some c ∨ ∃ i ∈ is, c = w.store.pointee i
  items : ∀ i ∈ is, FillsItem t t (w.store.pointee i) w w'

/-- Whatever leaves these scopes alone may happen before and after. -/
theorem FillsUnit.frame {r t : Nat} {params : List (String × Nat)} {is : List Nat}
    {w w₁ w₂ w' : World} (h : FillsUnit r t params is w₁ w₂)
    (hpointee : ∀ i ∈ is, w₁.store.pointee i = w.store.pointee i)
    (hbefore : ∀ a, (a = t ∨ ∃ i ∈ is, a = w.store.pointee i) → w₁.scopes a = w.scopes a)
    (hafter : ∀ a, (a = t ∨ ∃ i ∈ is, a = w.store.pointee i) → w'.scopes a = w₂.scopes a)
    (hg : Grows w₂.store w'.store) : FillsUnit r t params is w w' := by
  have hb := hbefore t (.inl rfl)
  have ha := hafter t (.inl rfl)
  refine ⟨by rw [ha, h.parent], h.self.frame hb ha hg, fun p hp => (h.parameters p hp).frame hb ha hg,
    fun name hname hparam => ?_, fun k c hc => ?_, fun i hi => ?_⟩
  · rw [ha, h.others name hname hparam, hb]
  · rw [ha] at hc
    obtain h | ⟨i, hi, h⟩ := h.children k c hc
    · exact .inl (hb ▸ h)
    · exact .inr ⟨i, hi, h.trans (hpointee i hi)⟩
  · have hitem := h.items i hi
    rw [hpointee i hi] at hitem
    have hb := hbefore (w.store.pointee i) (.inr ⟨i, hi, rfl⟩)
    have ha := hafter (w.store.pointee i) (.inr ⟨i, hi, rfl⟩)
    obtain ⟨type, hadds⟩ := hitem.adds
    refine ⟨by rw [ha, hitem.parent], by rw [ha, hitem.children, hb], fun name hname => ?_, type,
      hadds.frame hb ha hg⟩
    rw [ha, hitem.others name hname, hb]

section Visit

variable {fuel r d t : Nat} {id : Path} {params : List (String × Nat)} {items is : List Nat}
variable {w : World}

/-- The names of a unit itself. -/
theorem addParams_inserts (hr : t < w.store.size) (hnodup : (params.map Prod.fst).Nodup) :
    InsertsAll w (params.foldl (addParam t t) w) t
      (params.map fun p => (p.1, .parserState .parameter (some p.1) t (.cell p.2))) := by
  have hnames : (params.map fun p =>
      (p.1, Node.parserState .parameter (some p.1) t (.cell p.2))).map Prod.fst =
        params.map Prod.fst := by
    simp [Function.comp_def]
  have hall := insertAll w hr
    (params.map fun p => (p.1, Node.parserState .parameter (some p.1) t (.cell p.2)))
    (hnames.symm ▸ hnodup)
  rw [List.foldl_map] at hall
  exact hall

/-- The world before the items are visited. -/
def enterNames (r t : Nat) (params : List (String × Nat)) (w : World) : World :=
  params.foldl (addParam t t)
    ((w.insertNew t "self" (.parserState .self none t (.cell t))).modify t (·.setParent r))

theorem enterNames_touches : Touches (· = t) w (enterNames r t params w) :=
  ((insertNew_touches w t "self" _).trans (modify_touches _ t _)).trans
    (.foldl (fun w p _ => insertNew_touches w t p.1 _) _)

theorem visit_unit (hd : Holds w.store d (.typeDecl id t))
    (ht : Holds w.store t (.unit params items)) :
    visit fuel r w d = (flattenedItems (enterNames r t params w).store fuel items).map
      fun is => is.foldl (addItem t t) (enterNames r t params w) := by
  rw [visit, hd.node]
  dsimp only [Node.declaredType]
  rw [ht.node]
  dsimp only
  rw [ht.pointee, ← enterNames]
  cases flattenedItems (enterNames r t params w).store fuel items <;> rfl

theorem visit_fills (hd : Holds w.store d (.typeDecl id t))
    (ht : Holds w.store t (.unit params items)) (hself : "self" ∉ params.map Prod.fst)
    (hnodup : (params.map Prod.fst).Nodup)
    (hflat : ∀ s, Grows w.store s → flattenedItems s fuel items = some is)
    (hlt : ∀ i ∈ is, i < w.store.size ∧ w.store.pointee i < w.store.size)
    (hne : ∀ i ∈ is, w.store.pointee i ≠ t) (hitems : (is.map w.store.pointee).Nodup) :
    ∃ w', visit fuel r w d = some w' ∧
      Touches (fun a => a = t ∨ ∃ i ∈ is, a = w.store.pointee i) w w' ∧
        FillsUnit r t params is w w' := by
  let w₁ := w.insertNew t "self" (.parserState .self none t (.cell t))
  let w₂ := w₁.modify t (·.setParent r)
  let w₃ := enterNames r t params w
  have h₁ : Touches (· = t) w w₁ := insertNew_touches w t "self" _
  have h₂ : Touches (· = t) w₁ w₂ := modify_touches w₁ t (·.setParent r)
  have hlt₂ : t < w₂.store.size := ht.lt.trans_le (h₁.trans h₂).grows.size_le
  have h₃ : InsertsAll w₂ w₃ t _ := addParams_inserts hlt₂ hnodup
  have hunit : Touches (· = t) w w₃ := enterNames_touches
  have hsize := hunit.grows.size_le
  have hpointee : ∀ i ∈ is, w₃.store.pointee i = w.store.pointee i := fun i hi =>
    hunit.grows.pointee i (hlt i hi).1
  have hmap : is.map w₃.store.pointee = is.map w.store.pointee := List.map_congr_left hpointee
  have h₄ : FillsItems t t is w₃ (is.foldl (addItem t t) w₃) := by
    refine addItems_fills (ht.lt.trans_le hsize) is (fun i hi => ?_) (fun i hi => ?_) (hmap ▸ hitems)
    · rw [hpointee i hi]
      exact ⟨(hlt i hi).1.trans_le hsize, (hlt i hi).2.trans_le hsize⟩
    · rw [hpointee i hi]
      exact hne i hi
  have hvisit : visit fuel r w d = some (is.foldl (addItem t t) w₃) := by
    rw [visit_unit hd ht, hflat _ hunit.grows]
    rfl
  have hnames : ∀ name, (name ∉ (params.map fun p =>
      (p.1, Node.parserState .parameter (some p.1) t (.cell p.2))).map Prod.fst) ↔
        name ∉ params.map Prod.fst := by
    simp
  -- the scope of the unit before the parameters
  have hscope : w₂.scopes t = ((w.scopes t).insert "self" w.store.size).setParent r := by
    rw [modify_scopes_self, insertNew_scopes_self w t "self" _ ht.lt]
  refine ⟨_, hvisit, ?_, ?_, ?_, ?_, ?_, ?_, ?_⟩
  · refine (hunit.mono fun _ h => .inl h).trans (h₄.touches.mono ?_)
    rintro a (h | ⟨i, hi, h⟩)
    · exact .inl h
    · exact .inr ⟨i, hi, h.trans (hpointee i hi)⟩
  · rw [h₄.parent, h₃.parent, hscope]
    rfl
  · refine ⟨w.store.size, ?_, (holds_alloc w.store _).grows (h₃.touches.grows.trans h₄.touches.grows)⟩
    rw [h₄.values, h₃.others "self" ((hnames _).mpr hself), hscope, ScopeData.setParent_values,
      ScopeData.insert_values_self]
  · intro p hp
    obtain ⟨v, hv, hholds⟩ := h₃.adds _ (List.mem_map_of_mem hp)
    have hpself : p.1 ≠ "self" := by
      intro h
      exact hself (h ▸ List.mem_map_of_mem hp)
    refine ⟨v, ?_, hholds.grows h₄.touches.grows⟩
    rw [h₄.values, hv, hscope, ScopeData.setParent_values, ScopeData.insert_values_of_ne _ _ _ hpself]
  · intro name hname hparam
    rw [h₄.values, h₃.others name ((hnames name).mpr hparam), hscope, ScopeData.setParent_values,
      ScopeData.insert_values_of_ne _ _ _ hname]
  · intro k c hc
    obtain h | ⟨i, hi, h⟩ := h₄.children k c hc
    · rw [h₃.children, hscope] at h
      exact .inl h
    · exact .inr ⟨i, hi, h.trans (hpointee i hi)⟩
  · intro i hi
    obtain ⟨hp, hc, ho, type, v, hv, hn⟩ := h₄.items i hi
    rw [hpointee i hi] at hp hc ho hv
    have hscope := hunit.scopes (hlt i hi).2 (hne i hi)
    rw [hscope] at hc hv
    exact ⟨hp, hc, fun name hname => (ho name hname).trans (by rw [hscope]), type, v, hv, hn⟩

end Visit

/-! ## The whole pass -/

/-- The declaration `d` is that of the unit `t`, with the items `is`. -/
def UnitOf (s : Store Node) (fuel d t : Nat) (params : List (String × Nat)) (is : List Nat) : Prop :=
  ∃ items, (s.nodes d).declaredType = some t ∧ s.nodes t = .unit params items ∧
    flattenedItems s fuel items = some is

/-- The scopes of a declared unit and of its items. -/
def Owned (s : Store Node) (fuel d a : Nat) : Prop :=
  ∃ t params is, UnitOf s fuel d t params is ∧ (a = t ∨ ∃ i ∈ is, a = s.pointee i)

/-- Declared units whose items, all of them among the cells of `P`, stand in one place only. -/
structure Units (s : Store Node) (fuel : Nat) (ds : List Nat) (P : Nat → Prop) : Prop where
  nodup : ds.Nodup
  holds : ∀ d ∈ ds, Holds s d (s.nodes d)
  types : ∀ d ∈ ds, ∀ t, (s.nodes d).declaredType = some t → Holds s t (s.nodes t)
  types_unique : ∀ d ∈ ds, ∀ d' ∈ ds, ∀ t, (s.nodes d).declaredType = some t →
    (s.nodes d').declaredType = some t → d = d'
  names : ∀ d ∈ ds, ∀ t params items, (s.nodes d).declaredType = some t →
    s.nodes t = .unit params items → "self" ∉ params.map Prod.fst ∧ (params.map Prod.fst).Nodup
  roots : ∀ d ∈ ds, ∀ t params items, (s.nodes d).declaredType = some t →
    s.nodes t = .unit params items → ∀ i ∈ items, P i
  closed : ∀ c, P c → ∀ i ∈ (s.node c).cases.flatten, P i
  cells : ∀ c, P c → c < s.size ∧ s.pointee c < s.size
  apart : ∀ c, P c → ∀ d ∈ ds, (s.nodes d).declaredType ≠ some (s.pointee c)
  injective : ∀ c c', P c → P c' → s.pointee c = s.pointee c' → c = c'
  once : ∀ d ∈ ds, ∀ t params is, UnitOf s fuel d t params is → is.Nodup
  disjoint : ∀ d ∈ ds, ∀ d' ∈ ds, d ≠ d' → ∀ t params is t' params' is',
    UnitOf s fuel d t params is → UnitOf s fuel d' t' params' is' → is.Disjoint is'

namespace Units

variable {s : Store Node} {fuel r d t : Nat} {ds : List Nat} {P : Nat → Prop}
variable {params : List (String × Nat)} {is : List Nat} {w w' : World}

theorem flatten_mem (h : Units s fuel ds P) {n i : Nat} (hi : P i) {js : List Nat}
    (hjs : flatten s n i = some js) : ∀ j ∈ js, P j := by
  induction n generalizing i js with
  | zero => cases hjs
  | succ n ih =>
    obtain ⟨nested, hnested, heq⟩ := Option.bind_eq_some_iff.mp hjs
    cases heq
    intro j hj
    obtain hj | hj := List.mem_append.mp hj
    · obtain ⟨ks, hks, hj⟩ := List.mem_flatten.mp hj
      obtain ⟨k, hk, hflat⟩ := exists_of_mapM_eq_some hnested hks
      exact ih (h.closed i hi k hk) hflat j hj
    · rwa [List.mem_singleton.mp hj]

theorem mem (h : Units s fuel ds P) (hd : d ∈ ds) (hu : UnitOf s fuel d t params is) :
    ∀ i ∈ is, P i := by
  obtain ⟨items, hty, hunit, hflat⟩ := hu
  obtain ⟨nested, hnested, heq⟩ := Option.bind_eq_some_iff.mp hflat
  cases heq
  intro i hi
  obtain ⟨ks, hks, hi⟩ := List.mem_flatten.mp hi
  obtain ⟨k, hk, hflat⟩ := exists_of_mapM_eq_some hnested hks
  exact h.flatten_mem (h.roots d hd t params items hty hunit k hk) hflat i hi

/-- The items are the same in a tree that has grown. -/
theorem flattenedItems_grows (h : Units s fuel ds P) (hd : d ∈ ds) {items : List Nat}
    (hty : (s.nodes d).declaredType = some t) (hunit : s.nodes t = .unit params items)
    {s' : Store Node} (hg : Grows s s') :
    flattenedItems s' fuel items = flattenedItems s fuel items := by
  refine flattenedItems_congr h.closed (fun c hc => ?_) fuel (h.roots d hd t params items hty hunit)
  obtain ⟨hlt, hp⟩ := h.cells c hc
  rw [hg.node hlt hp]

theorem visit (h : Units s fuel ds P) (hg : Grows s w.store) (hd : d ∈ ds)
    (hvisit : UnitScopeBuilder.visit fuel r w d = some w') :
    Touches (Owned s fuel d) w w' ∧
      ∀ t params is, UnitOf s fuel d t params is → FillsUnit r t params is w w' := by
  have hdecl := (h.holds d hd).grows hg
  by_cases hunit : ∃ t params items, (s.nodes d).declaredType = some t ∧
      s.nodes t = .unit params items
  · obtain ⟨t, params, items, hty, hunit⟩ := hunit
    have htype := (h.types d hd t hty).grows hg
    obtain ⟨id, hnode⟩ : ∃ id, s.nodes d = .typeDecl id t := by
      cases hn : s.nodes d <;> simp [hn, Node.declaredType] at hty
      exact ⟨_, by rw [hty]⟩
    rw [hnode] at hdecl
    rw [hunit] at htype
    have hgrown : ∀ s', Grows w.store s' →
        flattenedItems s' fuel items = flattenedItems s fuel items := fun s' hg' =>
      h.flattenedItems_grows hd hty hunit (hg.trans hg')
    cases hflat : flattenedItems s fuel items with
    | none =>
      rw [visit_unit hdecl htype, hgrown _ enterNames_touches.grows, hflat] at hvisit
      cases hvisit
    | some is =>
      have hu : UnitOf s fuel d t params is := ⟨items, hty, hunit, hflat⟩
      have hP := h.mem hd hu
      have hpointee : ∀ i ∈ is, w.store.pointee i = s.pointee i := fun i hi =>
        hg.pointee i (h.cells i (hP i hi)).1
      obtain ⟨hself, hnames⟩ := h.names d hd t params items hty hunit
      obtain ⟨w'', hvisit', htouches, hfills⟩ := visit_fills (r := r) hdecl htype hself hnames
        (fun s' hg' => (hgrown s' hg').trans hflat)
        (fun i hi => by
          obtain ⟨hlt, hp⟩ := h.cells i (hP i hi)
          rw [hpointee i hi]
          exact ⟨hlt.trans_le hg.size_le, hp.trans_le hg.size_le⟩)
        (fun i hi heq => h.apart i (hP i hi) d hd (by rw [hty, ← heq, hpointee i hi]))
        (by
          rw [List.map_congr_left hpointee]
          exact (h.once d hd t params is hu).map_on fun i hi j hj heq =>
            h.injective i j (hP i hi) (hP j hj) heq)
      cases hvisit.symm.trans hvisit'
      refine ⟨htouches.mono ?_, fun t' params' is' hu' => ?_⟩
      · rintro a (h | ⟨i, hi, h⟩)
        · exact ⟨t, params, is, hu, .inl h⟩
        · exact ⟨t, params, is, hu, .inr ⟨i, hi, h.trans (hpointee i hi)⟩⟩
      · obtain ⟨items', hty', hunit', hflat'⟩ := hu'
        cases hty.symm.trans hty'
        cases hunit.symm.trans hunit'
        cases hflat.symm.trans hflat'
        exact hfills
  · have hskip : UnitScopeBuilder.visit fuel r w d = some w := by
      rw [UnitScopeBuilder.visit, hdecl.node]
      split
      · rfl
      · next t hty =>
        rw [((h.types d hd t hty).grows hg).node]
        split
        · next params items hnode => exact absurd ⟨t, params, items, hty, hnode⟩ hunit
        · rfl
    cases hskip.symm.trans hvisit
    refine ⟨.refl w, fun t params is hu => ?_⟩
    obtain ⟨items, hty, hnode, -⟩ := hu
    exact absurd ⟨t, params, items, hty, hnode⟩ hunit

/-- Distinct declarations own distinct scopes. -/
theorem owned_apart (h : Units s fuel ds P) (hd : d ∈ ds) (hu : UnitOf s fuel d t params is)
    {e a : Nat} (he : e ∈ ds) (hne : e ≠ d) (howned : Owned s fuel e a) :
    ¬ (a = t ∨ ∃ i ∈ is, a = s.pointee i) := by
  obtain ⟨t', params', is', hu', ha⟩ := howned
  have hP := h.mem hd hu
  have hP' := h.mem he hu'
  have hty : (s.nodes d).declaredType = some t := hu.choose_spec.1
  have hty' : (s.nodes e).declaredType = some t' := hu'.choose_spec.1
  rintro (rfl | ⟨i, hi, rfl⟩)
  · obtain rfl | ⟨j, hj, rfl⟩ := ha
    · exact hne (h.types_unique e he d hd a hty' hty)
    · exact h.apart j (hP' j hj) d hd hty
  · obtain ha | ⟨j, hj, ha⟩ := ha
    · exact h.apart i (hP i hi) e he (ha ▸ hty')
    · obtain rfl := h.injective i j (hP i hi) (hP' j hj) ha
      exact h.disjoint d hd e he hne.symm t params is t' params' is' hu hu' hi hj

theorem run_touches (h : Units s fuel ds P) (hg : Grows s w.store) {es : List Nat}
    (hes : es ⊆ ds) (hrun : run fuel r es w = some w') :
    Touches (fun a => ∃ e ∈ es, Owned s fuel e a) w w' := by
  induction es generalizing w with
  | nil =>
    cases hrun
    exact .refl _
  | cons e es ih =>
    rw [run, List.foldlM_cons] at hrun
    obtain ⟨w₁, hvisit, hrun⟩ := Option.bind_eq_some_iff.mp hrun
    obtain ⟨htouches, -⟩ := h.visit hg (hes List.mem_cons_self) hvisit
    have hrest := ih (hg.trans htouches.grows) (fun x hx => hes (List.mem_cons_of_mem e hx)) hrun
    refine (htouches.mono ?_).trans (hrest.mono ?_)
    · exact fun a ha => ⟨e, List.mem_cons_self, ha⟩
    · rintro a ⟨x, hx, ha⟩
      exact ⟨x, List.mem_cons_of_mem e hx, ha⟩

/-- After the pass, every declared unit and all its items have their scopes. -/
theorem run_fills (h : Units s fuel ds P) (hg : Grows s w.store)
    (hrun : run fuel r ds w = some w') (hd : d ∈ ds) (hu : UnitOf s fuel d t params is) :
    FillsUnit r t params is w w' := by
  obtain ⟨pre, post, hds⟩ := List.append_of_mem hd
  rw [run, hds, List.foldlM_append] at hrun
  obtain ⟨w₁, hpre, hrun⟩ := Option.bind_eq_some_iff.mp hrun
  rw [List.foldlM_cons] at hrun
  obtain ⟨w₂, hvisit, hpost⟩ := Option.bind_eq_some_iff.mp hrun
  have hnodup := h.nodup
  rw [hds] at hnodup
  obtain ⟨-, hnodup', hdisjoint⟩ := List.nodup_append.mp hnodup
  have hpreds : ∀ e ∈ pre, e ∈ ds ∧ e ≠ d := fun e he =>
    ⟨hds ▸ List.mem_append_left _ he, hdisjoint e he d List.mem_cons_self⟩
  have hpostds : ∀ e ∈ post, e ∈ ds ∧ e ≠ d := by
    intro e he
    refine ⟨hds ▸ List.mem_append_right _ (List.mem_cons_of_mem d he), ?_⟩
    rintro rfl
    exact (List.nodup_cons.mp hnodup').1 he
  have hbefore := h.run_touches hg (fun e he => (hpreds e he).1) hpre
  have hg₁ := hg.trans hbefore.grows
  obtain ⟨htouches, hfills⟩ := h.visit hg₁ hd hvisit
  have hafter := h.run_touches (hg₁.trans htouches.grows) (fun e he => (hpostds e he).1) hpost
  -- none of the scopes in question belongs to another declaration
  have hP := h.mem hd hu
  have hpointee : ∀ i ∈ is, w.store.pointee i = s.pointee i := fun i hi =>
    hg.pointee i (h.cells i (hP i hi)).1
  have hmine : ∀ a, (a = t ∨ ∃ i ∈ is, a = w.store.pointee i) →
      (a = t ∨ ∃ i ∈ is, a = s.pointee i) ∧ a < w.store.size := by
    rintro a (rfl | ⟨i, hi, rfl⟩)
    · obtain ⟨items, hty, -, -⟩ := hu
      exact ⟨.inl rfl, (h.types d hd a hty).lt.trans_le hg.size_le⟩
    · rw [hpointee i hi]
      exact ⟨.inr ⟨i, hi, rfl⟩, (h.cells i (hP i hi)).2.trans_le hg.size_le⟩
  refine (hfills t params is hu).frame (fun i hi => ?_) (fun a ha => ?_) (fun a ha => ?_)
    hafter.grows
  · exact hbefore.grows.pointee i ((h.cells i (hP i hi)).1.trans_le hg.size_le)
  · obtain ⟨hmine, hlt⟩ := hmine a ha
    refine hbefore.scopes hlt ?_
    rintro ⟨e, he, howned⟩
    exact h.owned_apart hd hu (hpreds e he).1 (hpreds e he).2 howned hmine
  · obtain ⟨hmine, hlt⟩ := hmine a ha
    refine hafter.scopes (hlt.trans_le (hbefore.grows.trans htouches.grows).size_le) ?_
    rintro ⟨e, he, howned⟩
    exact h.owned_apart hd hu (hpostds e he).1 (hpostds e he).2 howned hmine

end Units

end UnitScopeBuilder

end Diffingo.Names
