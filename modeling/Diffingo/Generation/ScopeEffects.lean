import Mathlib.Data.List.Nodup
import Diffingo.Generation.ScopeBuilder

/-!
# What the passes do with scopes

The two builders create nodes and change the scopes of some nodes (`Touches`), never a cell. The
resolver changes no scope; it redirects the cells of names, and the node that takes the place of an
unresolved field has a new, empty scope (`Resolves`).
-/

namespace Diffingo.Names

open Traversal

/-! ## Trees that grow -/

/-- The cell still points to the node it was created with. -/
structure Holds (s : Store Node) (c : Nat) (n : Node) : Prop where
  lt : c < s.size
  pointee : s.pointee c = c
  nodes : s.nodes c = n

theorem Holds.node {s : Store Node} {c : Nat} {n : Node} (h : Holds s c n) : s.node c = n := by
  rw [Store.node, h.pointee, h.nodes]

/-- The tree has got new nodes, with cells of their own. -/
structure Grows (s t : Store Node) : Prop where
  size_le : s.size ≤ t.size
  nodes : ∀ a < s.size, t.nodes a = s.nodes a
  pointee : ∀ c < s.size, t.pointee c = s.pointee c
  fresh : ∀ c < t.size, s.size ≤ c → t.pointee c = c

namespace Grows

variable {s t u : Store Node}

theorem refl (s : Store Node) : Grows s s :=
  ⟨le_rfl, fun _ _ => rfl, fun _ _ => rfl, fun _ hlt hle => absurd hlt (not_lt.mpr hle)⟩

theorem trans (h : Grows s t) (h' : Grows t u) : Grows s u where
  size_le := h.size_le.trans h'.size_le
  nodes a ha := (h'.nodes a (ha.trans_le h.size_le)).trans (h.nodes a ha)
  pointee c hc := (h'.pointee c (hc.trans_le h.size_le)).trans (h.pointee c hc)
  fresh c hlt hle := by
    by_cases hc : c < t.size
    · rw [h'.pointee c hc, h.fresh c hc hle]
    · exact h'.fresh c hlt (not_lt.mp hc)

theorem alloc (s : Store Node) (n : Node) : Grows s (s.alloc n) where
  size_le := Nat.le_succ _
  nodes _ ha := s.alloc_nodes n ha
  pointee _ hc := s.alloc_pointee n hc
  fresh c hlt hle := by
    obtain rfl : c = s.size := by
      rw [Store.alloc_size] at hlt
      omega
    simp [Store.alloc]

theorem node (h : Grows s t) {c : Nat} (hc : c < s.size) (hp : s.pointee c < s.size) :
    t.node c = s.node c := by
  rw [Store.node, Store.node, h.pointee c hc, h.nodes _ hp]

end Grows

theorem Holds.grows {s t : Store Node} {c : Nat} {n : Node} (h : Holds s c n) (hg : Grows s t) :
    Holds t c n where
  lt := h.lt.trans_le hg.size_le
  pointee := (hg.pointee c h.lt).trans h.pointee
  nodes := (hg.nodes c h.lt).trans h.nodes

theorem holds_alloc (s : Store Node) (n : Node) : Holds (s.alloc n) s.size n where
  lt := Nat.lt_succ_self _
  pointee := by simp [Store.alloc]
  nodes := by simp [Store.alloc]

/-! ## Scopes that change -/

/-- Between two worlds, nodes were created and only the scopes of some nodes were changed. -/
structure Touches (touched : Nat → Prop) (w w' : World) : Prop where
  grows : Grows w.store w'.store
  written : ∀ a, ¬ touched a → w'.written a = w.written a

namespace Touches

variable {touched touched' : Nat → Prop} {w w₁ w' : World}

theorem scopes (h : Touches touched w w') {a : Nat} (ha : a < w.store.size) (hn : ¬ touched a) :
    w'.scopes a = w.scopes a := by
  rw [World.scopes, World.scopes, scopesOf, scopesOf, h.written a hn, h.grows.nodes a ha]

theorem refl (w : World) : Touches touched w w := ⟨.refl _, fun _ _ => rfl⟩

theorem trans (h : Touches touched w w₁) (h' : Touches touched w₁ w') : Touches touched w w' where
  grows := h.grows.trans h'.grows
  written a hn := (h'.written a hn).trans (h.written a hn)

theorem mono (h : Touches touched w w') (himp : ∀ a, touched a → touched' a) :
    Touches touched' w w' :=
  ⟨h.grows, fun a hn => h.written a fun ht => hn (himp a ht)⟩

theorem foldl {α : Type} {f : World → α → World} {l : List α}
    (h : ∀ w, ∀ x ∈ l, Touches touched w (f w x)) (w : World) :
    Touches touched w (l.foldl f w) := by
  induction l generalizing w with
  | nil => exact .refl w
  | cons x l ih =>
    have hx := h w x List.mem_cons_self
    exact hx.trans (ih (fun w y hy => h w y (List.mem_cons_of_mem x hy)) (f w x))

end Touches

section Changes

variable (w : World) (a : Nat)

@[simp] theorem modify_store (f : ScopeData → ScopeData) : (w.modify a f).store = w.store := rfl

@[simp] theorem modify_scopes_self (f : ScopeData → ScopeData) :
    (w.modify a f).scopes a = f (w.scopes a) := by
  simp [World.modify, World.scopes, scopesOf]

theorem modify_scopes_of_ne (f : ScopeData → ScopeData) {b : Nat} (h : b ≠ a) :
    (w.modify a f).scopes b = w.scopes b := by
  simp [World.modify, World.scopes, scopesOf, h]

theorem modify_touches (f : ScopeData → ScopeData) : Touches (· = a) w (w.modify a f) :=
  ⟨.refl _, fun b h => by simp [World.modify, show b ≠ a from h]⟩

variable (name : String) (n : Node)

@[simp] theorem insertNew_store : (w.insertNew a name n).store = w.store.alloc n := rfl

theorem insertNew_scopes_self (ha : a < w.store.size) :
    (w.insertNew a name n).scopes a = (w.scopes a).insert name w.store.size := by
  rw [World.insertNew, modify_scopes_self]
  simp [World.scopes, scopesOf, w.store.alloc_nodes n ha]

theorem insertNew_touches : Touches (· = a) w (w.insertNew a name n) :=
  ⟨.alloc _ n, fun b h => by simp [World.insertNew, World.modify, show b ≠ a from h]⟩

end Changes

/-- The one value under the name is a new node. -/
def Adds (w w' : World) (a : Nat) (name : String) (n : Node) : Prop :=
  ∃ v, (w'.scopes a).values name = (w.scopes a).values name ++ [v] ∧ Holds w'.store v n

theorem Adds.frame {w w₁ w₂ w' : World} {a : Nat} {name : String} {n : Node}
    (h : Adds w₁ w₂ a name n) (hbefore : w₁.scopes a = w.scopes a) (hafter : w'.scopes a = w₂.scopes a)
    (hg : Grows w₂.store w'.store) : Adds w w' a name n := by
  obtain ⟨v, hv, hn⟩ := h
  refine ⟨v, ?_, hn.grows hg⟩
  rw [hafter, hv, hbefore]

/-- New nodes under distinct names. -/
structure InsertsAll (w w' : World) (a : Nat) (entries : List (String × Node)) : Prop where
  touches : Touches (· = a) w w'
  children : (w'.scopes a).children = (w.scopes a).children
  parent : (w'.scopes a).parent = (w.scopes a).parent
  others : ∀ name, name ∉ entries.map Prod.fst →
    (w'.scopes a).values name = (w.scopes a).values name
  adds : ∀ e ∈ entries, Adds w w' a e.1 e.2

theorem insertAll (w : World) {a : Nat} (ha : a < w.store.size) (entries : List (String × Node))
    (hnodup : (entries.map Prod.fst).Nodup) :
    InsertsAll w (entries.foldl (fun w e => w.insertNew a e.1 e.2) w) a entries := by
  induction entries generalizing w with
  | nil => exact ⟨.refl w, rfl, rfl, fun _ _ => rfl, fun _ h => nomatch h⟩
  | cons e entries ih =>
    obtain ⟨name, n⟩ := e
    obtain ⟨hname, hnodup⟩ := List.nodup_cons.mp hnodup
    have hfirst := insertNew_touches w a name n
    have hscope := insertNew_scopes_self w a name n ha
    obtain ⟨htouches, hchildren, hparent, hothers, hadds⟩ :=
      ih (w.insertNew a name n) (ha.trans_le hfirst.grows.size_le) hnodup
    refine ⟨hfirst.trans htouches, ?_, ?_, ?_, ?_⟩
    · rw [List.foldl_cons, hchildren, hscope]
      rfl
    · rw [List.foldl_cons, hparent, hscope]
      rfl
    · intro name' hname'
      simp only [List.map_cons, List.mem_cons, not_or] at hname'
      obtain ⟨hne, hname'⟩ := hname'
      rw [List.foldl_cons, hothers name' hname', hscope, ScopeData.insert_values_of_ne _ _ _ hne]
    · intro e he
      obtain rfl | hmem := List.mem_cons.mp he
      · refine ⟨w.store.size, ?_, (holds_alloc w.store n).grows htouches.grows⟩
        rw [List.foldl_cons, hothers name hname, hscope, ScopeData.insert_values_self]
      · obtain ⟨v, hv, hn⟩ := hadds e hmem
        have hne : e.1 ≠ name := by
          rintro rfl
          exact hname (List.mem_map.mpr ⟨e, hmem, rfl⟩)
        refine ⟨v, ?_, hn⟩
        rw [List.foldl_cons, hv, hscope, ScopeData.insert_values_of_ne _ _ _ hne]

/-! ## `ScopeBuilder` -/

/-- The scope of an enumeration or a bit set has one constant for each of its labels. -/
def HasLabels (w : World) (t : Nat) (labels : List String) : Prop :=
  (∀ l ∈ labels, ∃ v, (w.scopes t).values l = [v] ∧ Holds w.store v (.labelExpr t l)) ∧
    ∀ l ∉ labels, (w.scopes t).values l = []

/-- The value that a declaration enters under its name. -/
def Binds (s : Store Node) (v : Nat) : Node → Prop
  | .typeDecl _ t => Holds s v (.typeExpr t)
  | .constantDecl _ c => v = c
  | .functionDecl _ f => Holds s v (.functionExpr f)
  | .transformDecl _ t => Holds s v (.transformExpr t)
  | _ => False

theorem Binds.grows {s t : Store Node} {v : Nat} {n : Node} (h : Binds s v n) (hg : Grows s t) :
    Binds t v n := by
  cases n <;> first | exact h.elim | exact h | exact Holds.grows h hg

theorem typeScope_touches (w : World) {t : Nat} {labels : List String} {n : Node}
    (ht : Holds w.store t n) : Touches (· = t) w (w.typeScope t labels) := by
  unfold World.typeScope
  rw [ht.pointee]
  dsimp only
  split
  · exact .refl w
  · exact .foldl (fun w l _ => insertNew_touches w t l _) w

/-- The first time, the scope gets all labels. -/
theorem typeScope_hasLabels (w : World) {t : Nat} {labels : List String}
    (ht : Holds w.store t (.labelled labels)) (hnew : w.written t = none)
    (hnodup : labels.Nodup) : HasLabels (w.typeScope t labels) t labels := by
  have hempty : ∀ l, (w.scopes t).values l = [] := by
    intro l
    simp [World.scopes, scopesOf, hnew, ht.nodes, Node.created]
  have hfold : w.typeScope t labels =
      (labels.map fun l => (l, Node.labelExpr t l)).foldl (fun w e => w.insertNew t e.1 e.2) w := by
    simp [World.typeScope, ht.pointee, hnew, List.foldl_map]
  have hnames : (labels.map fun l => (l, Node.labelExpr t l)).map Prod.fst = labels := by
    simp [Function.comp_def]
  have hall := insertAll w ht.lt (labels.map fun l => (l, Node.labelExpr t l))
    (hnames.symm ▸ hnodup)
  rw [← hfold] at hall
  constructor
  · intro l hl
    obtain ⟨v, hv, hn⟩ := hall.adds (l, .labelExpr t l) (List.mem_map_of_mem hl)
    rw [hempty, List.nil_append] at hv
    exact ⟨v, hv, hn⟩
  · intro l hl
    rw [hall.others l (hnames.symm ▸ hl), hempty]

namespace ScopeBuilder

/-- The declaration is that of the enumeration or bit set `a`. -/
def Labels (s : Store Node) (n : Node) (a : Nat) : Prop :=
  n.declaredType = some a ∧ ∃ labels, s.nodes a = .labelled labels

/-- What a visit of the declaration `n` does with the scope of the module `r`. -/
structure Enters (r : Nat) (n : Node) (w w' : World) : Prop where
  touches : Touches (fun a => a = r ∨ Labels w.store n a) w w'
  parent : (w'.scopes r).parent = (w.scopes r).parent
  others : ∀ name, (∀ id, n.declaredId = some id → name ≠ id.pathAsString) →
    (w'.scopes r).values name = (w.scopes r).values name ∧
      (w'.scopes r).children name = (w.scopes r).children name
  binds : ∀ id, n.declaredId = some id → ∃ v, Binds w'.store v n ∧
    (w'.scopes r).values id.pathAsString = (w.scopes r).values id.pathAsString ++ [v]
  unlabelled : (∀ t labels, n.declaredType = some t → w.store.nodes t ≠ .labelled labels) →
    (w'.scopes r).children = (w.scopes r).children
  labelled : ∀ id t labels, n = .typeDecl id t → w.store.nodes t = .labelled labels →
    w.written t = none → labels.Nodup → HasLabels w' t labels ∧
      ((w.scopes r).children id.pathAsString = none →
        (w'.scopes r).children id.pathAsString = some t)

/-- A declaration that only adds a value. -/
theorem enters_value {r : Nat} {n : Node} {w w' : World} {id : Path} {v : Nat}
    (hid : n.declaredId = some id) (htouches : Touches (· = r) w w')
    (hscope : w'.scopes r = (w.scopes r).insert id.pathAsString v) (hbinds : Binds w'.store v n)
    (hplain : ∀ t labels, n.declaredType = some t → w.store.nodes t ≠ .labelled labels) :
    Enters r n w w' where
  touches := htouches.mono fun _ h => .inl h
  parent := by rw [hscope]; rfl
  others name hname := by
    rw [hscope, ScopeData.insert_values_of_ne _ _ _ (hname id hid)]
    exact ⟨rfl, rfl⟩
  binds id' hid' := by
    obtain rfl : id = id' := Option.some.inj (hid.symm.trans hid')
    exact ⟨v, hbinds, by rw [hscope, ScopeData.insert_values_self]⟩
  unlabelled _ := by rw [hscope]; rfl
  labelled id' t labels hn ht := absurd ht (hplain t labels (by rw [hn]; rfl))

theorem visit_enters_labelled {r d t : Nat} {id : Path} {labels : List String} {w : World}
    (hr : r < w.store.size) (hd : Holds w.store d (.typeDecl id t)) (htr : t ≠ r)
    (ht : Holds w.store t (.labelled labels)) :
    Enters r (.typeDecl id t) w (visit r w d) := by
  -- the value, the labels, the parent, and the child
  let w₁ := w.insertNew r id.pathAsString (.typeExpr t)
  let w₂ := w₁.typeScope t labels
  let w₃ := w₂.modify t (·.setParent r)
  have h₁ : Touches (· = r) w w₁ := insertNew_touches w r id.pathAsString (.typeExpr t)
  have ht₁ : Holds w₁.store t (.labelled labels) := ht.grows h₁.grows
  have h₂ : Touches (· = t) w₁ w₂ := typeScope_touches w₁ ht₁
  have h₃ : Touches (· = t) w₂ w₃ := modify_touches w₂ t (·.setParent r)
  have h₄ := modify_touches w₃ r (·.addChild id.pathAsString t)
  have hvisit : visit r w d = w₃.modify r (·.addChild id.pathAsString t) := by
    have hnode : (w.insertNew r id.pathAsString (.typeExpr t)).store.node t = .labelled labels :=
      ht₁.node
    have hpointee : (w.insertNew r id.pathAsString (.typeExpr t)).store.pointee t = t :=
      ht₁.pointee
    unfold visit
    rw [hd.node]
    dsimp only
    rw [hnode, hpointee]
  have hr₁ : r < w₁.store.size := hr.trans_le h₁.grows.size_le
  have hscope : w₃.scopes r = (w.scopes r).insert id.pathAsString w.store.size := by
    rw [(h₂.trans h₃).scopes hr₁ htr.symm, insertNew_scopes_self w r _ _ hr]
  have hscope' : (visit r w d).scopes r =
      ((w.scopes r).insert id.pathAsString w.store.size).addChild id.pathAsString t := by
    rw [hvisit, modify_scopes_self, hscope]
  have hgrows : Grows w₁.store (visit r w d).store := by
    rw [hvisit]
    exact (h₂.trans h₃).grows
  refine ⟨?_, ?_, ?_, ?_, ?_, ?_⟩
  · have hin : ∀ a, a = t → a = r ∨ Labels w.store (.typeDecl id t) a := by
      rintro a rfl
      exact .inr ⟨rfl, labels, ht.nodes⟩
    rw [hvisit]
    exact (h₁.mono fun _ h => .inl h).trans
      (((h₂.trans h₃).mono hin).trans (h₄.mono fun _ h => .inl h))
  · rw [hscope', ScopeData.addChild_parent, ScopeData.insert_parent]
  · intro name hname
    have hne := hname id rfl
    rw [hscope', ScopeData.addChild_values, ScopeData.insert_values_of_ne _ _ _ hne,
      ScopeData.addChild_children_of_ne _ _ _ hne]
    exact ⟨rfl, rfl⟩
  · intro id' hid'
    cases hid'
    refine ⟨w.store.size, (holds_alloc w.store (.typeExpr t)).grows hgrows, ?_⟩
    rw [hscope', ScopeData.addChild_values, ScopeData.insert_values_self]
  · intro h
    exact absurd ht.nodes (h t labels rfl)
  · intro id' t' labels' hn ht' hnew hnodup
    cases hn
    cases ht.nodes.symm.trans ht'
    have hnew₁ : w₁.written t = none := (h₁.written t htr).trans hnew
    obtain ⟨hin, hout⟩ := typeScope_hasLabels w₁ ht₁ hnew₁ hnodup
    have hvalues : ((visit r w d).scopes t).values = (w₂.scopes t).values := by
      rw [hvisit, modify_scopes_of_ne _ _ _ htr, modify_scopes_self, ScopeData.setParent_values]
    refine ⟨⟨fun l hl => ?_, fun l hl => ?_⟩, fun hnone => ?_⟩
    · obtain ⟨v, hv, hholds⟩ := hin l hl
      rw [hvalues]
      refine ⟨v, hv, ?_⟩
      rw [hvisit]
      exact hholds
    · rw [hvalues]
      exact hout l hl
    · rw [hscope']
      exact ScopeData.addChild_children_self _ _ _ hnone

theorem visit_enters {r d : Nat} {n : Node} {w : World} (hr : r < w.store.size)
    (hd : Holds w.store d n)
    (ht : ∀ t, n.declaredType = some t → t ≠ r ∧ Holds w.store t (w.store.nodes t)) :
    Enters r n w (visit r w d) := by
  have hnode := hd.node
  cases n with
  | typeDecl id t =>
    obtain ⟨htr, ht⟩ := ht t rfl
    by_cases hlabelled : ∃ labels, w.store.nodes t = .labelled labels
    · obtain ⟨labels, hlabels⟩ := hlabelled
      exact visit_enters_labelled hr hd htr (hlabels ▸ ht)
    · have hplain : ∀ labels, w.store.nodes t ≠ .labelled labels := fun labels h =>
        hlabelled ⟨labels, h⟩
      have hnode' : (w.insertNew r id.pathAsString (.typeExpr t)).store.node t = w.store.nodes t :=
        (ht.grows (Grows.alloc w.store (.typeExpr t))).node
      have hvisit : visit r w d = w.insertNew r id.pathAsString (.typeExpr t) := by
        unfold visit
        rw [hnode]
        dsimp only
        rw [hnode']
        split
        · next labels h => exact absurd h (hplain labels)
        · rfl
      rw [hvisit]
      refine enters_value rfl (insertNew_touches w r _ _) (insertNew_scopes_self w r _ _ hr)
        (holds_alloc w.store (.typeExpr t)) fun t' labels ht' => ?_
      cases ht'
      exact hplain labels
  | constantDecl id v =>
    have hvisit : visit r w d = w.modify r (·.insert id.pathAsString v) := by
      rw [visit, hnode]
    rw [hvisit]
    exact enters_value rfl (modify_touches w r _) (modify_scopes_self w r _) rfl
      fun _ _ h => nomatch h
  | functionDecl id f =>
    have hvisit : visit r w d = w.insertNew r id.pathAsString (.functionExpr f) := by
      rw [visit, hnode]
    rw [hvisit]
    exact enters_value rfl (insertNew_touches w r _ _) (insertNew_scopes_self w r _ _ hr)
      (holds_alloc w.store (.functionExpr f)) fun _ _ h => nomatch h
  | transformDecl id t =>
    have hvisit : visit r w d = w.insertNew r id.pathAsString (.transformExpr t) := by
      rw [visit, hnode]
    rw [hvisit]
    exact enters_value rfl (insertNew_touches w r _ _) (insertNew_scopes_self w r _ _ hr)
      (holds_alloc w.store (.transformExpr t)) fun _ _ h => nomatch h
  | _ =>
    have hvisit : visit r w d = w := by rw [visit, hnode]
    rw [hvisit]
    exact ⟨.refl w, rfl, fun _ _ => ⟨rfl, rfl⟩, fun _ h => (nomatch h), fun _ => rfl,
      fun _ _ _ h => (nomatch h)⟩

end ScopeBuilder

/-- Declarations that stand in the tree as they were parsed, each with a type of its own. -/
structure Declares (s : Store Node) (r : Nat) (ds : List Nat) : Prop where
  root : r < s.size
  nodup : ds.Nodup
  holds : ∀ d ∈ ds, Holds s d (s.nodes d)
  types : ∀ d ∈ ds, ∀ t, (s.nodes d).declaredType = some t → t ≠ r ∧ Holds s t (s.nodes t)
  types_unique : ∀ d ∈ ds, ∀ d' ∈ ds, ∀ t, (s.nodes d).declaredType = some t →
    (s.nodes d').declaredType = some t → d = d'

/-- The name that a declaration enters. -/
def Node.declares (n : Node) (name : String) : Prop := ∃ id, n.declaredId = some id ∧ id.pathAsString = name

namespace Declares

variable {s t : Store Node} {r : Nat} {ds : List Nat}

theorem nodes_eq (h : Declares s r ds) (hg : Grows s t) {d : Nat} (hd : d ∈ ds) :
    t.nodes d = s.nodes d :=
  hg.nodes d (h.holds d hd).lt

theorem grows (h : Declares s r ds) (hg : Grows s t) : Declares t r ds where
  root := h.root.trans_le hg.size_le
  nodup := h.nodup
  holds d hd := h.nodes_eq hg hd ▸ (h.holds d hd).grows hg
  types d hd ty hty := by
    rw [h.nodes_eq hg hd] at hty
    obtain ⟨hne, hholds⟩ := h.types d hd ty hty
    exact ⟨hne, hg.nodes ty hholds.lt ▸ hholds.grows hg⟩
  types_unique d hd d' hd' ty hty hty' := by
    rw [h.nodes_eq hg hd] at hty
    rw [h.nodes_eq hg hd'] at hty'
    exact h.types_unique d hd d' hd' ty hty hty'

theorem labels_grows (h : Declares s r ds) (hg : Grows s t) {d a : Nat} (hd : d ∈ ds) :
    ScopeBuilder.Labels t (t.nodes d) a ↔ ScopeBuilder.Labels s (s.nodes d) a := by
  unfold ScopeBuilder.Labels
  rw [h.nodes_eq hg hd]
  refine and_congr_right fun hty => ?_
  rw [hg.nodes a (h.types d hd a hty).2.lt]

theorem sublist {ds' : List Nat} (h : Declares s r ds) (hsub : ds'.Sublist ds) :
    Declares s r ds' where
  root := h.root
  nodup := h.nodup.sublist hsub
  holds d hd := h.holds d (hsub.subset hd)
  types d hd := h.types d (hsub.subset hd)
  types_unique d hd d' hd' := h.types_unique d (hsub.subset hd) d' (hsub.subset hd')

end Declares

namespace ScopeBuilder

section Run

variable {r : Nat} {ds : List Nat} {w : World}

/-- What a run does to the rest of the scopes. -/
structure Enlarges (r : Nat) (ds : List Nat) (w w' : World) : Prop where
  touches : Touches (fun a => a = r ∨ ∃ d ∈ ds, Labels w.store (w.store.nodes d) a) w w'
  parent : (w'.scopes r).parent = (w.scopes r).parent
  others : ∀ name, (∀ d ∈ ds, ¬ (w.store.nodes d).declares name) →
    (w'.scopes r).values name = (w.scopes r).values name ∧
      (w'.scopes r).children name = (w.scopes r).children name

theorem run_enlarges (h : Declares w.store r ds) : Enlarges r ds w (run r ds w) := by
  induction ds generalizing w with
  | nil => exact ⟨.refl w, rfl, fun _ _ => ⟨rfl, rfl⟩⟩
  | cons d ds ih =>
    have hd := visit_enters h.root (h.holds d List.mem_cons_self) (h.types d List.mem_cons_self)
    have hg := hd.touches.grows
    have hds : Declares w.store r ds := h.sublist (List.sublist_cons_self d ds)
    have hnodes : ∀ e ∈ ds, (visit r w d).store.nodes e = w.store.nodes e := fun e he =>
      hds.nodes_eq hg he
    obtain ⟨htouches, hparent, hothers⟩ := ih (hds.grows hg)
    refine ⟨?_, hparent.trans hd.parent, fun name hname => ?_⟩
    · refine (hd.touches.mono ?_).trans (htouches.mono ?_)
      · exact fun a ha => ha.imp_right fun h => ⟨d, List.mem_cons_self, h⟩
      · refine fun a ha => ha.imp_right ?_
        rintro ⟨e, he, hlabels⟩
        exact ⟨e, List.mem_cons_of_mem d he, (hds.labels_grows hg he).mp hlabels⟩
    · obtain ⟨hv, hc⟩ := hothers name fun e he => hnodes e he ▸ hname e (List.mem_cons_of_mem d he)
      obtain ⟨hv', hc'⟩ := hd.others name fun id hid heq =>
        hname d List.mem_cons_self ⟨id, hid, heq.symm⟩
      exact ⟨hv.trans hv', hc.trans hc'⟩

theorem Enters.values_mono {n : Node} {w' : World} (h : Enters r n w w') {name : String} {v : Nat}
    (hv : v ∈ (w.scopes r).values name) : v ∈ (w'.scopes r).values name := by
  by_cases hname : n.declares name
  · obtain ⟨id, hid, rfl⟩ := hname
    obtain ⟨_, -, hvalues⟩ := h.binds id hid
    rw [hvalues]
    exact List.mem_append_left _ hv
  · rw [(h.others name fun id hid heq => hname ⟨id, hid, heq.symm⟩).1]
    exact hv

/-- A declaration enters its value, whatever else has the name. -/
theorem run_binds_mem (h : Declares w.store r ds) {d : Nat} (hd : d ∈ ds) {id : Path}
    (hid : (w.store.nodes d).declaredId = some id) :
    ∃ v ∈ ((run r ds w).scopes r).values id.pathAsString,
      Binds (run r ds w).store v (w.store.nodes d) := by
  have hkeep : ∀ {es w v name}, Declares w.store r es → v ∈ (w.scopes r).values name →
      v ∈ ((run r es w).scopes r).values name := by
    intro es
    induction es with
    | nil => exact fun _ hv => hv
    | cons e es ih =>
      intro w v name h hv
      have he := visit_enters h.root (h.holds e List.mem_cons_self) (h.types e List.mem_cons_self)
      have hes := h.sublist (List.sublist_cons_self e es)
      exact ih (hes.grows he.touches.grows) (he.values_mono hv)
  induction ds generalizing w with
  | nil => cases hd
  | cons e es ih =>
    have he := visit_enters h.root (h.holds e List.mem_cons_self) (h.types e List.mem_cons_self)
    have hes := h.sublist (List.sublist_cons_self e es)
    have hes' := hes.grows he.touches.grows
    obtain rfl | hd := List.mem_cons.mp hd
    · obtain ⟨v, hbinds, hvalues⟩ := he.binds id hid
      have hmem : v ∈ ((visit r w d).scopes r).values id.pathAsString := by
        rw [hvalues]
        exact List.mem_append_right _ (List.mem_singleton.mpr rfl)
      have hend := hkeep hes' hmem
      exact ⟨v, hend, hbinds.grows (run_enlarges hes').touches.grows⟩
    · have hnode := hes.nodes_eq he.touches.grows hd
      obtain ⟨v, hv, hbinds⟩ := ih hes' hd (hnode.symm ▸ hid)
      exact ⟨v, hv, hnode ▸ hbinds⟩

/-- Nothing is nested under a name that no enumeration or bit set has. -/
theorem run_unlabelled (h : Declares w.store r ds) {name : String}
    (hplain : ∀ d ∈ ds, (w.store.nodes d).declares name → ∀ t labels,
      (w.store.nodes d).declaredType = some t → w.store.nodes t ≠ .labelled labels) :
    ((run r ds w).scopes r).children name = (w.scopes r).children name := by
  induction ds generalizing w with
  | nil => rfl
  | cons d ds ih =>
    have hd := visit_enters h.root (h.holds d List.mem_cons_self) (h.types d List.mem_cons_self)
    have hg := hd.touches.grows
    have hds := h.sublist (List.sublist_cons_self d ds)
    have hfirst : ((visit r w d).scopes r).children name = (w.scopes r).children name := by
      by_cases hname : (w.store.nodes d).declares name
      · rw [hd.unlabelled (hplain d List.mem_cons_self hname)]
      · exact (hd.others name fun id hid heq => hname ⟨id, hid, heq.symm⟩).2
    refine (ih (hds.grows hg) fun e he hname t labels ht => ?_).trans hfirst
    rw [hds.nodes_eq hg he] at hname ht
    rw [hg.nodes t (hds.types e he t ht).2.lt]
    exact hplain e (List.mem_cons_of_mem d he) hname t labels ht

/-- A run up to a declaration, its visit, and the rest. -/
structure Split (r : Nat) (ds : List Nat) (d : Nat) (w w₁ w₂ w' : World) : Prop where
  before : Touches (fun a => a = r ∨ ∃ e ∈ ds, e ≠ d ∧ Labels w.store (w.store.nodes e) a) w w₁
  visit : Enters r (w.store.nodes d) w₁ w₂
  after : Touches (fun a => a = r ∨ ∃ e ∈ ds, e ≠ d ∧ Labels w.store (w.store.nodes e) a) w₂ w'
  others : ∀ name, (∀ e ∈ ds, e ≠ d → ¬ (w.store.nodes e).declares name) →
    ((w₁.scopes r).values name = (w.scopes r).values name ∧
      (w₁.scopes r).children name = (w.scopes r).children name) ∧
    (w'.scopes r).values name = (w₂.scopes r).values name ∧
      (w'.scopes r).children name = (w₂.scopes r).children name

theorem run_split (h : Declares w.store r ds) {d : Nat} (hd : d ∈ ds) :
    ∃ w₁ w₂, Split r ds d w w₁ w₂ (run r ds w) := by
  obtain ⟨pre, post, rfl⟩ := List.append_of_mem hd
  obtain ⟨-, hnodup, hdisjoint⟩ := List.nodup_append.mp h.nodup
  have hpre : ∀ e ∈ pre, e ∈ pre ++ d :: post ∧ e ≠ d := fun e he =>
    ⟨List.mem_append_left _ he, hdisjoint e he d List.mem_cons_self⟩
  have hpost : ∀ e ∈ post, e ∈ pre ++ d :: post ∧ e ≠ d := fun e he =>
    ⟨List.mem_append_right _ (List.mem_cons_of_mem d he), by
      rintro rfl
      exact (List.nodup_cons.mp hnodup).1 he⟩
  have h₁ := run_enlarges (h.sublist (List.sublist_append_left pre (d :: post)))
  have hdecl₁ := h.grows h₁.touches.grows
  have h₂ := visit_enters hdecl₁.root (hdecl₁.holds d hd) (hdecl₁.types d hd)
  have hg₂ := h₁.touches.grows.trans h₂.touches.grows
  have hsub : post.Sublist (pre ++ d :: post) :=
    (List.sublist_cons_self d post).trans (List.sublist_append_right pre (d :: post))
  have h₃ := run_enlarges ((h.grows hg₂).sublist hsub)
  have hrun : run r (pre ++ d :: post) w = run r post (ScopeBuilder.visit r (run r pre w) d) := by
    rw [run, List.foldl_append, List.foldl_cons]
    rfl
  refine ⟨run r pre w, ScopeBuilder.visit r (run r pre w) d, ?_, ?_, ?_, ?_⟩
  · refine h₁.touches.mono fun a ha => ha.imp_right ?_
    rintro ⟨e, he, hty⟩
    exact ⟨e, (hpre e he).1, (hpre e he).2, hty⟩
  · rw [h.nodes_eq h₁.touches.grows hd] at h₂
    exact h₂
  · rw [hrun]
    refine h₃.touches.mono fun a ha => ha.imp_right ?_
    rintro ⟨e, he, hty⟩
    exact ⟨e, (hpost e he).1, (hpost e he).2, (h.labels_grows hg₂ (hpost e he).1).mp hty⟩
  · intro name hname
    rw [hrun]
    refine ⟨h₁.others name fun e he => hname e (hpre e he).1 (hpre e he).2,
      h₃.others name fun e he => ?_⟩
    rw [h.nodes_eq hg₂ (hpost e he).1]
    exact hname e (hpost e he).1 (hpost e he).2

section Unique

variable {d : Nat} {id : Path}

/-- A name that is declared once gets one more value. -/
theorem run_binds (h : Declares w.store r ds) (hd : d ∈ ds)
    (hid : (w.store.nodes d).declaredId = some id)
    (honly : ∀ e ∈ ds, e ≠ d → ¬ (w.store.nodes e).declares id.pathAsString) :
    ∃ v, Binds (run r ds w).store v (w.store.nodes d) ∧
      ((run r ds w).scopes r).values id.pathAsString =
        (w.scopes r).values id.pathAsString ++ [v] := by
  obtain ⟨w₁, w₂, hsplit⟩ := run_split h hd
  obtain ⟨⟨hv₁, -⟩, hv₂, -⟩ := hsplit.others id.pathAsString honly
  obtain ⟨v, hbinds, hv⟩ := hsplit.visit.binds id hid
  refine ⟨v, hbinds.grows hsplit.after.grows, ?_⟩
  rw [hv₂, hv, hv₁]

/-- An enumeration or a bit set is nested under its name, with its labels. -/
theorem run_labelled {t : Nat} {labels : List String} (h : Declares w.store r ds) (hd : d ∈ ds)
    (hnode : w.store.nodes d = .typeDecl id t)
    (honly : ∀ e ∈ ds, e ≠ d → ¬ (w.store.nodes e).declares id.pathAsString)
    (hlabels : w.store.nodes t = .labelled labels) (hnodup : labels.Nodup)
    (hnew : w.written t = none) (hchild : (w.scopes r).children id.pathAsString = none) :
    HasLabels (run r ds w) t labels ∧
      ((run r ds w).scopes r).children id.pathAsString = some t := by
  obtain ⟨w₁, w₂, hsplit⟩ := run_split h hd
  obtain ⟨⟨-, hc₁⟩, -, hc₂⟩ := hsplit.others id.pathAsString honly
  have hty : (w.store.nodes d).declaredType = some t := by rw [hnode]; rfl
  obtain ⟨htr, ht⟩ := h.types d hd t hty
  -- no other declaration touches the type
  have huntouched : ¬ (t = r ∨ ∃ e ∈ ds, e ≠ d ∧ Labels w.store (w.store.nodes e) t) := by
    rintro (heq | ⟨e, he, hne, hty', -⟩)
    · exact htr heq
    · exact hne (h.types_unique e he d hd t hty' hty)
  have hlt₁ := ht.lt.trans_le hsplit.before.grows.size_le
  have hlt₂ := hlt₁.trans_le hsplit.visit.touches.grows.size_le
  obtain ⟨⟨hin, hout⟩, hnested⟩ := hsplit.visit.labelled id t labels hnode
    ((hsplit.before.grows.nodes t ht.lt).trans hlabels)
    ((hsplit.before.written t huntouched).trans hnew) hnodup
  have hscope := hsplit.after.scopes hlt₂ huntouched
  refine ⟨⟨fun l hl => ?_, fun l hl => ?_⟩, ?_⟩
  · obtain ⟨v, hv, hholds⟩ := hin l hl
    rw [hscope]
    exact ⟨v, hv, hholds.grows hsplit.after.grows⟩
  · rw [hscope]
    exact hout l hl
  · rw [hc₂]
    exact hnested (hc₁.trans hchild)

end Unique

end Run

end ScopeBuilder

end Diffingo.Names
