import Diffingo.Generation.Replacing
import Mathlib.Data.Set.Function
import Mathlib.Tactic.IntervalCases

/-!
# The variables of lambdas

The whole run of the resolver over a module: every bound occurrence in an expression that the
resolver visits becomes the variable of its outermost binder, and so of its innermost one if and
only if there is just one.
-/

namespace Diffingo.IdResolver

open Traversal

namespace Parsed

variable {p : Parsed}

/-! ## The traversal -/

section Traversal

variable {var : Nat → Nat} {lookup : Lookup Node} {report : Bool} {current : List Nat} {c : Nat}
variable {w w₁ : State}

def Visited (w : State) (c : Nat) : Prop := ∃ v ∈ w.visited, v.cell = c

/-- The state in which the resolver comes to a cell. Whatever it has visited of an expression that
it is not inside of is complete. -/
structure Admits (p : Parsed) (w : State) (current : List Nat) (c : Nat) : Prop where
  lt : ∀ d ∈ c :: current, d < w.store.size
  ready : c < p.store.size → p.Ready (Visited w) c
  below : p.inside c → ∀ x, Under p.store c x → Visited w x → p.Complete (Visited w) x
  entered : c < p.store.size → (p.store.nodes c).isLambda → p.Entered (Visited w) current c
  settled : p.inside c ∨ p.store.size ≤ c ∧ (w.store.nodes c).isPart ∨
    ∀ x, p.inside x → Visited w x → p.Complete (Visited w) x

theorem Bound.visit {V V' : Nat → Prop} {s : Store Node} (h : p.Bound V var s)
    (hV : ∀ a < p.store.size, (p.store.nodes a).isLambda → (V' a ↔ V a)) : p.Bound V' var s := by
  have hbinder : ∀ {e a}, (p.binders e).getLast? = some a → (V' a ↔ V a) := by
    intro e a ha
    obtain ⟨path, elemId, elemExpr, -, hmem, hnode, -⟩ := mem_binders (List.mem_of_getLast? ha)
    exact hV a (p.enclosing_under e a hmem).1 (by simp [hnode, Node.isLambda])
  refine ⟨fun a ha hl hVa => ?_, fun a ha hla hVa b hb hlb hVb => ?_, fun e he a ha hVa => ?_,
    fun e he a ha hVa => ?_⟩
  · exact h.isVariable a ha hl ((hV a ha hl).mp hVa)
  · exact h.injective a ha hla ((hV a ha hla).mp hVa) b hb hlb ((hV b hb hlb).mp hVb)
  · exact h.taken e he a ha ((hbinder ha).mp hVa)
  · exact h.kept e he a ha fun hVa' => hVa ((hbinder ha).mpr hVa')

theorem Shape.lambda_of_node {V : Nat → Prop} {s : Store Node} (hs : p.Shape V s)
    (hc : c < s.size) {elemId : Path} {elemExpr : Nat}
    (hnode : s.node c = .lambda elemId elemExpr) :
    c < p.store.size ∧ p.store.nodes c = .lambda elemId elemExpr := by
  cases hs.points hc with
  | tree hlt _ hn => exact ⟨hlt, hn.symm.trans hnode⟩
  | name a _ _ _ hfree _ hn =>
    have hlambda := hfree.isLambda
    rw [← hn, hnode] at hlambda
    cases hlambda
  | part _ _ _ hpart =>
    rw [hnode] at hpart
    cases hpart
  | holder _ _ _ _ hholder =>
    rw [hnode] at hholder
    cases hholder

theorem Shape.node_of_lambda {V : Nat → Prop} {s : Store Node} (hs : p.Shape V s)
    (hc : c < p.store.size) (hlambda : (p.store.nodes c).isLambda) :
    ∃ elemId elemExpr, s.node c = .lambda elemId elemExpr := by
  cases hn : p.store.nodes c with
  | lambda elemId elemExpr =>
    refine ⟨elemId, elemExpr, ?_⟩
    rw [Store.node, hs.pointee_eq hc (by rw [hn]; rfl), hs.nodes c hc, hn]
  | _ =>
    rw [hn] at hlambda
    cases hlambda

theorem visitInstantiation_same {path : Path} {nodes : List Nat}
    (h : visitInstantiation report nodes path w = some w₁) : w₁.store = w.store := by
  obtain ⟨vals, -, h⟩ := Option.bind_eq_some_iff.mp h
  obtain hsame | ⟨v, -, hset⟩ := withValue_cases h
  · exact hsame
  · split at hset
    · split at hset <;> cases hset <;> rfl
    · cases hset
      rfl

theorem visit_sound (hsep : p.Separate) (hs : p.Sound var (Visited w) w.store)
    (hc : p.Admits w current c) {fuel : Nat}
    (h : visit lookup fuel report current c (w.enter current c) = some w₁) :
    (∃ var', p.Sound var' (Visited w₁) w₁.store) ∧ Grows w.store w₁.store ∧
      ∀ x, Visited w₁ x ↔ x = c ∨ Visited w x := by
  have hV' : ∀ x, Visited w₁ x ↔ x = c ∨ Visited w x := by
    intro x
    rw [Visited, (visit_logs h).1, Walk.enter_visited]
    simp [Visited, eq_comm]
  have hV : ∀ x, Visited w x → Visited w₁ x := fun x hx => (hV' x).mpr (.inr hx)
  refine and_assoc.mp ⟨?_, hV'⟩
  have hclt := hc.lt c List.mem_cons_self
  by_cases hlambda : ∃ elemId elemExpr, w.store.node c = .lambda elemId elemExpr
  · obtain ⟨elemId, elemExpr, hnode⟩ := hlambda
    obtain ⟨hlt, hn⟩ := hs.shape.lambda_of_node hclt hnode
    have hvisit : visitLambda lookup fuel (c :: current) c elemId elemExpr (w.enter current c) =
        some w₁ := by simpa [visit, hnode] using h
    exact visitLambda_sound (w := w.enter current c) hs hV' hc.lt hlt hn (hc.ready hlt)
      (hc.entered hlt (by simp [hn, Node.isLambda])) hvisit
  · have hready : c < p.store.size → p.Ready (Visited w₁) c := fun hlt => (hc.ready hlt).mono hV
    have hs' : p.Sound var (Visited w₁) w.store := by
      refine ⟨hs.shape.visit hV fun x hVx => ?_, hs.bound.visit fun a ha hl => ?_⟩
      · obtain rfl | hVx := (hV' x).mp hVx
        · exact .inr ⟨hclt, hready⟩
        · exact .inl hVx
      · refine (hV' a).trans ⟨fun h => h.resolve_left ?_, .inr⟩
        rintro rfl
        exact hlambda (hs.shape.node_of_lambda ha hl)
    have hkept : p.Kept var (Visited w₁) w.store w₁.store := by
      unfold visit at h
      split at h
      · next path hnode =>
        exact visitId_kept (w := w.enter current c) hsep hs' hc.lt hready hnode h
      · next path hnode =>
        exact visitUnknownType_kept (w := w.enter current c) hsep hs' hc.lt hready hnode h
      · rw [visitInstantiation_same h]
        exact .refl hs'
      · next hnode =>
        exact visitUnknownField_kept (w := w.enter current c) hs' hc.lt hready hnode h
      · next elemId elemExpr hnode => exact absurd ⟨elemId, elemExpr, hnode⟩ hlambda
      · cases h
        exact .refl hs'
    exact ⟨⟨var, hkept.sound⟩, hkept.grows⟩

/-- What a part of the traversal does. -/
structure Advances (p : Parsed) (w w' : State) : Prop where
  sound : ∃ var, p.Sound var (Visited w') w'.store
  grows : Grows w.store w'.store
  visited : ∀ x, Visited w x → Visited w' x
  recent : ∀ x, p.inside x → Visited w' x → Visited w x ∨ p.Complete (Visited w') x

theorem Advances.refl (hs : p.Sound var (Visited w) w.store) : p.Advances w w :=
  ⟨⟨var, hs⟩, .refl _, fun _ => id, fun _ _ => .inl⟩

theorem Advances.trans {w' : State} (h : p.Advances w w₁) (h' : p.Advances w₁ w') :
    p.Advances w w' where
  sound := h'.sound
  grows := h.grows.trans h'.grows
  visited x hx := h'.visited x (h.visited x hx)
  recent x hx hV := by
    obtain hV | hcomplete := h'.recent x hx hV
    · exact (h.recent x hx hV).imp_right fun hcomplete => hcomplete.mono h'.visited
    · exact .inr hcomplete

section Child

variable {x : State} (hc : p.Admits w current c) (hs₁ : p.Sound var (Visited w₁) w₁.store)
variable (hg : Grows w.store w₁.store) (hV' : ∀ y, Visited w₁ y ↔ y = c ∨ Visited w y)
variable (hx : p.Advances w₁ x)

include hV' hx in
/-- Outside the expressions nothing incomplete has been visited. -/
theorem settled_child (hout : ¬ p.inside c)
    (hsettled : ∀ y, p.inside y → Visited w y → p.Complete (Visited w) y) :
    ∀ y, p.inside y → Visited x y → p.Complete (Visited x) y := by
  intro y hy hV
  obtain hV | hcomplete := hx.recent y hy hV
  · obtain rfl | hV := (hV' y).mp hV
    · exact absurd hy hout
    · refine (hsettled y hy hV).mono fun z hz => ?_
      exact hx.visited z ((hV' z).mpr (.inr hz))
  · exact hcomplete

include hc hs₁ hg hx in
theorem Admits.lt_child {d : Nat} (hd : d ∈ (w₁.store.node c).children) :
    ∀ e ∈ d :: c :: current, e < x.store.size := by
  intro e he
  obtain rfl | he := List.mem_cons.mp he
  · have hclt := (hc.lt c List.mem_cons_self).trans_le hg.size_le
    refine Nat.lt_of_lt_of_le ?_ hx.grows.size_le
    cases hs₁.shape.points hclt with
    | tree hlt _ hnode =>
      rw [hnode] at hd
      exact (p.child_lt c hlt e hd).trans_le hs₁.shape.size_le
    | name a _ _ _ hfree _ hnode =>
      rw [hnode] at hd
      exact (p.child_lt a hfree.lt e hd).trans_le hs₁.shape.size_le
    | part _ _ _ _ hchildren =>
      obtain ⟨-, hlt, -⟩ | ⟨hdone, -⟩ := hchildren e hd
      · exact hlt
      · exact (p.inside_lt e hdone.inside).trans_le hs₁.shape.size_le
    | holder _ _ _ _ _ _ hchildren => exact Hung.lt hs₁.shape (hchildren e hd)
  · exact (hc.lt e he).trans_le (hg.size_le.trans hx.grows.size_le)

variable {d : Nat} (hlt : ∀ e ∈ d :: c :: current, e < x.store.size)

include hc hV' hx in
theorem Admits.settled_of_not_inside (hclt : c < p.store.size) (hout : ¬ p.inside c) :
    ∀ y, p.inside y → Visited x y → p.Complete (Visited x) y := by
  refine settled_child hV' hx hout ?_
  obtain hin | ⟨hle, -⟩ | hsettled := hc.settled
  · exact absurd hin hout
  · omega
  · exact hsettled

include hc hV' hx hlt in
/-- A child of a node of the tree, entered from its own cell after the children before it. -/
theorem Admits.tree (hclt : c < p.store.size) {before after : List Nat}
    (hchildren : (p.store.nodes c).children = before ++ d :: after)
    (hbefore : ∀ e ∈ before, p.inside e → p.Complete (Visited x) e) :
    p.Admits x (c :: current) d := by
  have hV : ∀ y, Visited w y → Visited x y := fun y hy => hx.visited y ((hV' y).mpr (.inr hy))
  have hVc : Visited x c := hx.visited c ((hV' c).mpr (.inl rfl))
  have hd : d ∈ (p.store.nodes c).children := by simp [hchildren]
  refine ⟨hlt, fun _ a ha => ?_, fun hin y hy hVy => ?_, fun _ hlambda => ?_, ?_⟩
  · rw [p.enclosing_child c hclt d hd] at ha
    split at ha
    · obtain rfl | ha := List.mem_cons.mp ha
      · exact hVc
      · exact hV a (hc.ready hclt a ha)
    · exact hV a (hc.ready hclt a ha)
  · by_cases hinc : p.inside c
    · obtain ⟨hyin, hle⟩ := Under.inside hin hy
      have hne : y ≠ c := by
        have := (p.inside_child c hinc d hd).2
        omega
      obtain hVy | hcomplete := hx.recent y hyin hVy
      · have hVy := ((hV' y).mp hVy).resolve_left hne
        exact (hc.below hinc y (.head hd hy) hVy).mono hV
      · exact hcomplete
    · exact hc.settled_of_not_inside hV' hx hclt hinc y (Under.inside hin hy).1 hVy
  · refine ⟨c, hclt, hd, fun l others hfind => ⟨⟨current, rfl⟩, ?_⟩⟩
    have hinc := p.inside_of_find c hclt l others hfind
    have hl : l ∈ (p.store.nodes c).children := by simp [hfind, Node.children]
    have hlin := (p.inside_child c hinc l hl).1
    refine ⟨hlin, fun a ha => ?_, ?_⟩
    · rw [enclosing_of_not_lambda hclt hl (by rw [hfind]; rfl)] at ha
      exact hV a (hc.ready hclt a ha)
    · -- The list comes first, and is no lambda.
      rw [hfind] at hchildren
      cases before with
      | nil =>
        have hld : l = d := (List.cons.inj hchildren).1
        rw [← hld, p.find_list c hclt l others hfind] at hlambda
        cases hlambda
      | cons b before =>
        have hlb : l = b := (List.cons.inj hchildren).1
        exact hbefore l (hlb ▸ List.mem_cons_self) hlin
  · by_cases hinc : p.inside c
    · exact .inl (p.inside_child c hinc d hd).1
    · exact .inr (.inr (hc.settled_of_not_inside hV' hx hclt hinc))

include hc hV' hx hlt in
/-- A child of a node that a name stands for. -/
theorem Admits.name {a : Nat} (hclt : c < p.store.size) (hfree : p.Free a)
    (hplain : p.inside c → p.Plain a) (hd : d ∈ (p.store.nodes a).children) :
    p.Admits x (c :: current) d := by
  have hout : ¬ p.inside a → ¬ p.inside c := fun ha hinc => ha (hplain hinc).inside
  refine ⟨hlt, fun _ b hb => ?_, fun hin y hy hVy => ?_, fun _ hlambda => ?_, ?_⟩
  · rw [enclosing_of_not_lambda hfree.lt hd hfree.isLambda, hfree.enclosing] at hb
    cases hb
  · by_cases hina : p.inside a
    · exact ((hfree.plain hina).child hd).complete.under hy
    · exact hc.settled_of_not_inside hV' hx hclt (hout hina) y (Under.inside hin hy).1 hVy
  · refine ⟨a, hfree.lt, hd, fun l others hfind => ?_⟩
    have hplain := hfree.plain (p.inside_of_find a hfree.lt l others hfind)
    rw [(hplain.child hd).isLambda] at hlambda
    cases hlambda
  · by_cases hina : p.inside a
    · exact .inl ((hfree.plain hina).child hd).inside
    · exact .inr (.inr (hc.settled_of_not_inside hV' hx hclt (hout hina)))

include hx hlt in
/-- A child of a node of a variable. -/
theorem admits_part (hd : (p.store.size ≤ d ∧ d < w₁.store.size ∧ (w₁.store.nodes d).isPart) ∨
    p.Done (Visited w₁) d ∧ (p.store.nodes d).isLambda = false) :
    p.Admits x (c :: current) d := by
  obtain ⟨hle, hdlt, hpart⟩ | ⟨hdone, hlambda⟩ := hd
  · have hout : ¬ p.inside d := fun hin => by
      have := p.inside_lt d hin
      omega
    refine ⟨hlt, fun h => by omega, fun hin => absurd hin hout, fun h => by omega, .inr (.inl ?_)⟩
    exact ⟨hle, by rwa [hx.grows.nodes d hdlt]⟩
  · refine ⟨hlt, fun _ => hdone.ready.mono hx.visited, fun _ y hy _ => ?_, fun _ h => ?_,
      .inl hdone.inside⟩
    · exact (hdone.complete.under hy).mono hx.visited
    · rw [hlambda] at h
      cases h

include hlt in
/-- A child of a node of a field. -/
theorem admits_holder (hsettled : ∀ y, p.inside y → Visited x y → p.Complete (Visited x) y)
    (hd : p.Hung w₁.store d) : p.Admits x (c :: current) d := by
  refine ⟨hlt, fun hdlt a ha => ?_, fun hin y hy hVy => ?_, fun hdlt _ => ?_, .inr (.inr hsettled)⟩
  · rw [hd.enclosing hdlt] at ha
    cases ha
  · exact hsettled y (Under.inside hin hy).1 hVy
  · obtain ⟨hle, -⟩ | hbare := hd
    · omega
    · obtain ⟨b, hb, hchild, hfind⟩ := hbare.parent
      exact ⟨b, hb, hchild, fun l others h => absurd h (hfind l others)⟩

include hc hs₁ hg hV' hx in
theorem Admits.child {before after : List Nat}
    (hchildren : (w₁.store.node c).children = before ++ d :: after)
    (hbefore : ∀ e ∈ before, p.inside e → p.Complete (Visited x) e) :
    p.Admits x (c :: current) d := by
  have hd : d ∈ (w₁.store.node c).children := by simp [hchildren]
  have hlt := hc.lt_child hs₁ hg hx hd
  have hclt := hc.lt c List.mem_cons_self
  cases hs₁.shape.points (hclt.trans_le hg.size_le) with
  | tree hclt _ hnode => exact hc.tree hV' hx hlt hclt (hnode ▸ hchildren) hbefore
  | name a hclt _ _ hfree hplain hnode => exact hc.name hV' hx hlt hclt hfree hplain (hnode ▸ hd)
  | part _ _ _ _ hparts => exact admits_part hx hlt (hparts d hd)
  | holder hout _ _ hself hholder _ hhung =>
    refine admits_holder hlt (settled_child hV' hx hout ?_) (hhung d hd)
    obtain hin | ⟨hle, hpart⟩ | hsettled := hc.settled
    · exact absurd hin hout
    · rw [Store.node, hself hle, hg.nodes c hclt] at hholder
      rw [Node.isPart_of_isHolder hholder] at hpart
      cases hpart
    · exact hsettled

end Child

/-- A cell that is skipped has been visited, or shares the node of a visited one. -/
theorem Shape.complete_of_find (hs : p.Shape (Visited w) w.store) (hc : p.Admits w current c)
    (hfind : lookup.find w.store (w.visited.map Visit.cell) c = true) (hin : p.inside c) :
    p.Complete (Visited w) c := by
  by_cases hname : (p.store.nodes c).isName
  · intro a ha hlambda
    obtain rfl | ⟨b, hb, -⟩ := Relation.ReflTransGen.cases_head ha
    · cases hn : p.store.nodes c <;> rw [hn] at hname hlambda <;> contradiction
    · rw [children_of_isName hin hname] at hb
      cases hb
  · have hlt := p.inside_lt c hin
    have hp := hs.pointee_eq hlt (by simpa using hname)
    obtain ⟨e, he, heq⟩ := lookup.sound _ _ _ hfind
    obtain ⟨v, hv, rfl⟩ := List.mem_map.mp he
    have hVe : Visited w v.cell := ⟨v, hv, rfl⟩
    rw [hp] at heq
    cases hs.points (hs.visited_lt v.cell hVe) with
    | tree _ hself =>
      rw [hself] at heq
      exact hc.below hin c .refl (heq ▸ hVe)
    | name a _ _ hself hfree =>
      rw [hself] at heq
      exact ((heq ▸ hfree).plain hin).complete
    | part _ hle => omega
    | holder _ _ hle => omega

/-- Visiting children one after the other. -/
theorem foldlM_advances {call : Nat → State → Option State} {cs : List Nat}
    (hcall : ∀ {before d after x x'}, cs = before ++ d :: after → p.Advances w₁ x →
      (∀ e ∈ before, p.inside e → p.Complete (Visited x) e) → call d x = some x' →
      p.Advances x x' ∧ (p.inside d → p.Complete (Visited x') d))
    {before ds : List Nat} {x w' : State} (hcs : cs = before ++ ds) (hx : p.Advances w₁ x)
    (hbefore : ∀ e ∈ before, p.inside e → p.Complete (Visited x) e)
    (h : ds.foldlM (fun w d => call d w) x = some w') :
    p.Advances w₁ w' ∧ ∀ e ∈ cs, p.inside e → p.Complete (Visited w') e := by
  induction ds generalizing before x with
  | nil =>
    cases h
    exact ⟨hx, by simpa [hcs] using hbefore⟩
  | cons d ds ih =>
    rw [List.foldlM_cons] at h
    obtain ⟨x', hd, hrest⟩ := Option.bind_eq_some_iff.mp h
    obtain ⟨hx', hcomplete⟩ := hcall hcs hx hbefore hd
    refine @ih (before ++ [d]) x' (by simp [hcs]) (hx.trans hx') (fun e he hin => ?_) hrest
    obtain he | he := List.mem_append.mp he
    · exact (hbefore e he hin).mono hx'.visited
    · obtain rfl := List.mem_singleton.mp he
      exact hcomplete hin

/-- The whole traversal from a cell. -/
theorem preOrder_advances (hsep : p.Separate) {fuel fuel' : Nat} {w' : State}
    (h : preOrder Node.children lookup (IdResolver.visit lookup fuel' report) fuel current c w =
      some w')
    (hs : ∃ var, p.Sound var (Visited w) w.store) (hc : p.Admits w current c) :
    p.Advances w w' ∧ (p.inside c → p.Complete (Visited w') c) := by
  induction fuel generalizing current c w w' with
  | zero => cases h
  | succ fuel ih =>
    obtain ⟨var, hs⟩ := hs
    obtain ⟨hfind, rfl⟩ | ⟨w₁, hvisit, hrest⟩ := preOrder_succ h
    · exact ⟨.refl hs, hs.shape.complete_of_find hc hfind⟩
    obtain ⟨⟨var₁, hs₁⟩, hg, hV'⟩ := visit_sound hsep hs hc hvisit
    obtain ⟨hadv, hchildren⟩ := foldlM_advances
      (fun {before d after x x'} hcs hx hbefore hcall =>
        ih hcall hx.sound (hc.child hs₁ hg hV' hx hcs hbefore))
      (List.nil_append _).symm (.refl hs₁) (by simp) hrest
    have hcomplete : p.inside c → p.Complete (Visited w') c := by
      intro hin a ha hlambda
      obtain rfl | ⟨b, hb, hba⟩ := Relation.ReflTransGen.cases_head ha
      · exact hadv.visited c ((hV' c).mpr (.inl rfl))
      · have hlt := p.inside_lt c hin
        have hname : (p.store.nodes c).isName = false := by
          by_contra hname
          rw [children_of_isName hin (by simpa using hname)] at hb
          cases hb
        have hnode : w₁.store.node c = p.store.nodes c := by
          rw [Store.node, hs₁.shape.pointee_eq hlt hname, hs₁.shape.nodes c hlt]
        exact hchildren b (hnode ▸ hb) (p.inside_child c hin b hb).1 a hba hlambda
    refine ⟨⟨hadv.sound, hg.trans hadv.grows, fun x hx => ?_, fun x hx hV => ?_⟩, hcomplete⟩
    · exact hadv.visited x ((hV' x).mpr (.inr hx))
    · obtain hV | h := hadv.recent x hx hV
      · obtain rfl | hV := (hV' x).mp hV
        · exact .inr (hcomplete hx)
        · exact .inl hV
      · exact .inr h

end Traversal

/-! ## After the resolver -/

variable {lookup : Lookup Node} {fuel : Nat} {report : Bool} {w : State}

theorem sound_store (p : Parsed) : p.Sound id (fun _ => False) p.store where
  shape :=
    { size_le := le_rfl
      nodes _ _ := rfl
      fresh _ hle hlt := absurd hlt (Nat.not_lt_of_le hle)
      added _ hle hlt := absurd hlt (Nat.not_lt_of_le hle)
      moved c hc := .inl (p.pointee_eq c hc)
      visited_lt _ h := h.elim
      ready _ _ h := h.elim }
  bound := ⟨fun _ _ _ h => h.elim, fun _ _ _ h => h.elim, fun _ _ _ _ h => h.elim,
    fun c hc _ _ _ => p.pointee_eq c hc⟩

theorem run_sound (hsep : p.Separate) (hrun : run lookup fuel report p.store p.module = some w) :
    (∃ var, p.Sound var (Visited w) w.store) ∧
      ∀ c, p.inside c → Visited w c → p.Complete (Visited w) c := by
  have hV : Visited ⟨p.store, [], []⟩ = fun _ => False := by
    funext c
    simp [Visited]
  have hs : p.Sound id (Visited ⟨p.store, [], []⟩) p.store := by
    rw [hV]
    exact p.sound_store
  have hc : p.Admits ⟨p.store, [], []⟩ [] p.module := by
    refine ⟨by simpa using p.module_lt, fun _ a ha => ?_, fun _ x _ hx => ?_, fun _ h => ?_,
      .inr (.inr fun x _ hx => ?_)⟩
    · rw [p.enclosing_module] at ha
      cases ha
    · rw [hV] at hx
      exact hx.elim
    · rw [p.module_isLambda] at h
      cases h
    · rw [hV] at hx
      exact hx.elim
  obtain ⟨hadv, -⟩ := preOrder_advances hsep hrun ⟨id, hs⟩ hc
  refine ⟨hadv.sound, fun c hin hVc => (hadv.recent c hin hVc).resolve_left fun h => ?_⟩
  rw [hV] at h
  exact h

theorem visited_of_mem_binders {var : Nat → Nat} {r c a : Nat}
    (hs : p.Sound var (Visited w) w.store)
    (hcomplete : ∀ c, p.inside c → Visited w c → p.Complete (Visited w) c) (hin : p.inside r)
    (hr : Visited w r) (hc : Under p.store r c) (ha : a ∈ p.binders c) :
    a < p.store.size ∧ (p.store.nodes a).isLambda ∧ Visited w a := by
  obtain ⟨path, elemId, elemExpr, -, hmem, hnode, -⟩ := mem_binders ha
  have hlambda : (p.store.nodes a).isLambda := by simp [hnode, Node.isLambda]
  have hlt := p.inside_lt r hin
  refine ⟨(p.enclosing_under c a hmem).1, hlambda, ?_⟩
  obtain ⟨between, heq, hbetween⟩ := Under.enclosing hlt hc
  rw [heq] at hmem
  obtain hmem | hmem := List.mem_append.mp hmem
  · exact hcomplete r hin hr a (hbetween a hmem).1 hlambda
  · exact hs.shape.ready r hlt hr a hmem

/-- Every bound occurrence in the expression has become the variable of its innermost binder, whose
type refers to the list that the `find` of that binder searches. -/
def Innermost (p : Parsed) (s : Store Node) (r : Nat) : Prop :=
  ∃ var : Nat → Nat, Set.InjOn var {a | ∃ c, Under p.store r c ∧ a ∈ p.binders c} ∧
    ∀ c a, Under p.store r c → (p.binders c).head? = some a →
      s.pointee c = var a ∧ ∃ v t l, s.node c = .expression [v] ∧ s.node v = .other [t] ∧
        s.node t = .type [l] ∧ p.Searches a l

/-- No bound occurrence is inside two lambdas of its name, and the one it is inside of is an
argument of a `find`. -/
def Apart (p : Parsed) (r : Nat) : Prop :=
  ∀ c a, Under p.store r c → a ∈ p.binders c → p.binders c = [a] ∧ ∃ l, p.Searches a l

/-- Lambdas that search the same list are not inside one another. -/
theorem Searches.not_mem_enclosing {a b l : Nat} (ha : p.Searches a l) (hb : p.Searches b l)
    (hlt : b < p.store.size) : b ∉ p.enclosing a := by
  have henclosing : ∀ {e}, p.Searches e l → p.enclosing e = p.enclosing l := by
    rintro e ⟨f, hf, others, hnode, hmem⟩
    have hfind : (p.store.nodes f).isLambda = false := by rw [hnode]; rfl
    rw [enclosing_of_not_lambda hf (c := e) (by simp [hnode, Node.children, hmem]) hfind,
      enclosing_of_not_lambda hf (c := l) (by simp [hnode, Node.children]) hfind]
  rw [henclosing ha, ← henclosing hb]
  intro hmem
  obtain ⟨-, elemId, elemExpr, hnode, hunder⟩ := p.enclosing_under b b hmem
  have hin := p.inside_of_lambda b hlt (by simp [hnode, Node.isLambda])
  obtain ⟨hexpr, hltb⟩ := p.inside_child b hin elemExpr (by simp [hnode, Node.children])
  have hle := (Under.inside hexpr hunder).2
  omega

theorem eq_singleton_of_head?_getLast? {l : List Nat} {a : Nat} (hnodup : l.Nodup)
    (hhead : l.head? = some a) (hlast : l.getLast? = some a) : l = [a] := by
  cases l with
  | nil => cases hhead
  | cons b l =>
    obtain rfl : b = a := by simpa using hhead
    cases l with
    | nil => rfl
    | cons c l =>
      rw [List.getLast?_cons_cons] at hlast
      exact absurd (List.mem_of_getLast? hlast) (List.nodup_cons.mp hnodup).1

theorem IsVariable.node_eq {V : Nat → Prop} {s : Store Node} {c a b : Nat} (hs : p.Shape V s)
    (h : p.IsVariable s a b) (hc : s.pointee c = b) : ∃ v type, s.node c = .expression [v] ∧
      s.node v = .other type ∧
      ((∃ l t, p.Searches a l ∧ type = [t] ∧ s.node t = .type [l]) ∨
        (∀ l, ¬ p.Searches a l) ∧ type = []) := by
  obtain ⟨v, type, hb, ⟨hle, hlt⟩, hv, htype⟩ := h.node
  refine ⟨v, type, by rw [Store.node, hc, hb], by rw [Store.node, hs.fresh v hle hlt, hv],
    htype.imp_left ?_⟩
  rintro ⟨l, t, hsearch, heq, ⟨hle, hlt⟩, ht⟩
  exact ⟨l, t, hsearch, heq, by rw [Store.node, hs.fresh t hle hlt, ht]⟩

/-- `const A = find(…, x => find(x, x => x, x => x, …), x => x, …);` and
`const B = find(…, y => y, y => y, …);` in a module `M`. -/
def nestedNodes : Nat → Node
  | 0 | 6 | 11 | 14 | 19 => .expression []
  | 1 | 2 | 4 | 9 => .id ["x"]
  | 3 => .lambda ["x"] 2
  | 5 => .lambda ["x"] 4
  | 7 => .find 1 [3, 5, 6]
  | 8 => .lambda ["x"] 7
  | 10 => .lambda ["x"] 9
  | 12 => .find 0 [8, 10, 11]
  | 13 => .other [12]
  | 15 | 17 => .id ["y"]
  | 16 => .lambda ["y"] 15
  | 18 => .lambda ["y"] 17
  | 20 => .find 14 [16, 18, 19]
  | 21 => .other [20]
  | 22 => .attributeMap []
  | _ => .module "M" (.mk [("A", [12]), ("B", [20])] [] none) [22, 13, 21]

def nestedStore : Store Node where
  size := 24
  pointee c := c
  nodes := nestedNodes

def nestedEnclosing : Nat → List Nat
  | 1 | 3 | 5 | 6 | 7 => [8]
  | 2 => [3, 8]
  | 4 => [5, 8]
  | 9 => [10]
  | 15 => [16]
  | 17 => [18]
  | _ => []

/-- A search for a cell below another one. -/
def reaches (s : Store Node) : Nat → Nat → Nat → Bool
  | 0, a, c => a == c
  | fuel + 1, a, c => a == c || (s.nodes a).children.any fun b => reaches s fuel b c

theorem under_of_reaches {s : Store Node} {n a c : Nat} (h : reaches s n a c) : Under s a c := by
  induction n generalizing a with
  | zero =>
    obtain rfl : a = c := by simpa [reaches] using h
    exact .refl
  | succ n ih =>
    rw [reaches, Bool.or_eq_true] at h
    obtain h | h := h
    · obtain rfl : a = c := by simpa using h
      exact .refl
    · obtain ⟨b, hb, hbc⟩ := List.any_eq_true.mp h
      exact .head hb (ih hbc)

theorem nested_offered {path : Path} {v : Nat} (h : Offered nestedStore path v) :
    v ∈ (Scope.mk [("A", [12]), ("B", [20])] [] none).lookup path := by
  obtain ⟨a, ha, scope, hscope, hyields⟩ := h
  have heq : scope = .mk [("A", [12]), ("B", [20])] [] none := by
    have ha : a < 24 := ha
    interval_cases a <;> simp_all [nestedStore, nestedNodes, Node.ownScope, Node.scope]
  subst heq
  cases hyields with
  | own h => exact h

theorem nested_enclosing : ∀ c < 24, ∀ a ∈ nestedEnclosing c, a < 24 ∧
    (match nestedNodes a with
      | .lambda _ elemExpr => reaches nestedStore 4 elemExpr c
      | _ => false) = true := by
  decide

theorem nestedEnclosing_of_le {c : Nat} (h : 24 ≤ c) : nestedEnclosing c = [] := by
  unfold nestedEnclosing
  split <;> first | omega | rfl

theorem nested_find {a l : Nat} {others : List Nat} (ha : a < 24)
    (h : nestedNodes a = .find l others) :
    (a = 7 ∧ l = 1 ∧ others = [3, 5, 6]) ∨ (a = 12 ∧ l = 0 ∧ others = [8, 10, 11]) ∨
      (a = 20 ∧ l = 14 ∧ others = [16, 18, 19]) := by
  interval_cases a <;> simp_all [nestedNodes]

theorem nested_id {a : Nat} {path : Path} (ha : a < 24) (h : nestedNodes a = .id path) :
    path = ["x"] ∨ path = ["y"] := by
  interval_cases a <;> simp_all [nestedNodes, eq_comm]

theorem nested_unknownType {a : Nat} {path : Option Path} (ha : a < 24) :
    nestedNodes a ≠ .unknownType path := by
  interval_cases a <;> simp [nestedNodes]

theorem nested_inside : ∀ a < 24, (a < 13 ∨ 14 ≤ a ∧ a < 21) →
    (∀ c ∈ (nestedNodes a).children, (c < 13 ∨ 14 ≤ c ∧ c < 21) ∧ c < a) ∧
      (nestedNodes a).isUnknownField = false := by
  decide

def nestedModule : Parsed where
  store := nestedStore
  module := 23
  enclosing := nestedEnclosing
  inside c := c < 13 ∨ 14 ≤ c ∧ c < 21
  module_lt := by decide
  module_isLambda := rfl
  enclosing_module := rfl
  pointee_eq _ _ := rfl
  child_lt := by decide
  enclosing_child := by decide
  enclosing_under c a ha := by
    obtain hc | hc := Nat.lt_or_ge c 24
    · obtain ⟨hlt, hmatch⟩ := nested_enclosing c hc a ha
      split at hmatch
      · next elemId elemExpr hnode =>
        exact ⟨hlt, elemId, elemExpr, hnode, under_of_reaches hmatch⟩
      · cases hmatch
    · rw [nestedEnclosing_of_le hc] at ha
      cases ha
  enclosing_nodup c := by
    unfold nestedEnclosing
    split <;> decide
  inside_lt c hc := by
    show c < 24
    omega
  inside_of_id := by decide
  inside_of_lambda := by decide
  inside_of_find a ha l others h := by
    obtain ⟨rfl, -⟩ | ⟨rfl, -⟩ | ⟨rfl, -⟩ := nested_find ha h <;> decide
  inside_child a ha := (nested_inside a (by omega) ha).1
  inside_field a ha := (nested_inside a (by omega) ha).2
  find_list a ha l others h := by
    obtain ⟨-, rfl, -⟩ | ⟨-, rfl, -⟩ | ⟨-, rfl, -⟩ := nested_find ha h <;> rfl
  find_lambda a ha l others h := by
    obtain ⟨rfl, -, rfl⟩ | ⟨rfl, -, rfl⟩ | ⟨rfl, -, rfl⟩ := nested_find ha h <;> decide
  offered path v h := by
    have hall : (Scope.mk [("A", [12]), ("B", [20])] [] none).All (fun v => v = 12 ∨ v = 20) :=
      .mk (by simp) (by simp) (by simp)
    obtain rfl | rfl := hall.lookup path v (nested_offered h) <;> decide

theorem separate_nestedModule : nestedModule.Separate where
  id a ha path hnode v hv := by
    have hnone : ∀ path ∈ [["x"], ["y"], []],
        (Scope.mk [("A", [12]), ("B", [20])] [] none).lookup path = [] := by decide
    obtain rfl | rfl := nested_id ha hnode <;> obtain h | h := hv <;>
      · have := nested_offered h
        rw [hnone _ (by simp)] at this
        cases this
  type _ ha _ hnode := absurd hnode (nested_unknownType ha)

theorem apart_nestedModule : nestedModule.Apart 20 := by
  intro c a hc ha
  have hclosed : ∀ b, 14 ≤ b → b < 21 → ∀ d ∈ (nestedNodes b).children, 14 ≤ d ∧ d < 21 := by
    intro b hle hlt
    interval_cases b <;> decide
  have hrange : 14 ≤ c ∧ c < 21 := by
    clear ha
    induction hc with
    | refl => decide
    | tail _ hd ih => exact hclosed _ ih.1 ih.2 _ hd
  have hbinders : ∀ c < 21, 14 ≤ c → ∀ a ∈ nestedModule.binders c, nestedModule.binders c = [a] ∧
      a ∈ [16, 18] := by decide
  obtain ⟨hsingle, hmem⟩ := hbinders c hrange.2 hrange.1 a ha
  refine ⟨hsingle, 14, 20, by decide, [16, 18, 19], rfl, ?_⟩
  simp only [List.mem_cons, List.not_mem_nil, or_false] at hmem ⊢
  omega

end Parsed

end Diffingo.IdResolver
