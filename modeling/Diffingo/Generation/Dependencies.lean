import Diffingo.Generation.DependencyResolver
import Diffingo.Spec.Length
import Diffingo.Spec.Scope

/-!
# The dependency map of a syntax tree

`DependencyMapBuilder` on syntax trees with all kinds of items and expressions. It looks at parser
states only for their kind. The elements of tuples, list comprehensions, plain assignments, default
values and the expression of `find` for the case that nothing is found are not visited.
-/

namespace Diffingo.Ast

open Spec Generation DependencyContext Saturation
open Generation.DependencyMapBuilder (State tracking trackingFindList attributeContext itemContext
  Grows has_tracking tracking_records grows_track grows_foldl foldl_has)

namespace DependencyMapBuilder

/-- `visit` of an expression; `unit` is the path of the unit that `self` is. -/
def visit (unit : Path) (sc : Generation.DependencyMapBuilder.Scope) :
    Finset DependencyContext → Expr StateKind → State → State
  | _, .memberAttribute x, s => s.track [x]
  | _, .lambdaVariable _, s => (s.track (s.curFindList.getD [])).track elementTrackingId
  | _, .parserState .self, s => s.track unit
  | _, .parserState .dollarDollar, s => s.track sc.dollarDollar
  | c, .conditional a b d, s =>
    tracking sc c (visit unit sc c d)
      (tracking sc c (visit unit sc c b) (tracking sc c (visit unit sc c a) s))
  | c, .conditionalThen a b, s =>
    tracking sc c (visit unit sc c b) (tracking sc c (visit unit sc c a) s)
  | c, .find list cond found _, s =>
    tracking sc c (visit unit sc c found)
      (tracking sc c (visit unit sc c cond) (trackingFindList sc c (visit unit sc c list) s))
  | c, .lambda _ body, s => visit unit sc c body s
  | c, .unary _ a, s => tracking sc c (visit unit sc c a) s
  | c, .binary k a b, s =>
    match k with
    | .attribute | .call | .hasAttribute => visit unit sc c b (visit unit sc c a s)
    | .index => tracking sc c (visit unit sc c b) ((visit unit sc c a s).track elementTrackingId)
    | .minusAssign | .plusAssign =>
      if serializing ∈ c then
        visit unit sc c b (tracking sc {serializingUpdate} (visit unit sc {serializingUpdate} a) s)
      else visit unit sc c a s
    | _ => tracking sc c (visit unit sc c b) (tracking sc c (visit unit sc c a) s)
  | c, .ternary k a b d, s =>
    match k with
    | .attributeAssign =>
      if serializing ∈ c then
        visit unit sc c d (tracking sc {serializingUpdate}
          (fun s => visit unit sc {serializingUpdate} b (visit unit sc {serializingUpdate} a s)) s)
      else visit unit sc c a s
    | .indexAssign =>
      if serializing ∈ c then
        visit unit sc c d (tracking sc {serializingUpdate}
          (fun s => (visit unit sc {serializingUpdate} a s).track elementTrackingId) s)
      else visit unit sc c b s
    | .methodCall => visit unit sc c d (visit unit sc c a s)
    | _ =>
      tracking sc c (visit unit sc c d)
        (tracking sc c (visit unit sc c b) (tracking sc c (visit unit sc c a) s))
  | _, _, s => s

/-- `from_` and `cur_dollar_dollar_` change while items are visited. -/
structure Walk where
  state : State := {}
  from_ : List Path := []
  dollarDollar : Path := []

def Walk.scope (w : Walk) : Generation.DependencyMapBuilder.Scope := ⟨w.from_, w.dollarDollar⟩

/-- `pushTracking`, the visit of an expression and `popTracking`. -/
def Walk.trackExpr (w : Walk) (unit : Path) (c : Finset DependencyContext) (e : Expr StateKind) :
    Walk :=
  { w with state := tracking w.scope c (visit unit w.scope c e) w.state }

/-- An expression on which the length depends, too. -/
def Walk.trackLength (w : Walk) (unit : Path) (e : Expr StateKind) : Walk :=
  let sc : Generation.DependencyMapBuilder.Scope := ⟨w.from_ ++ [lengthTrackingId], w.dollarDollar⟩
  { w with
    state := tracking sc {parsing, serializingUpdate}
      (visit unit sc {parsing, serializingUpdate} e) w.state }

/-- One attribute of an item. -/
def visitAttribute (unit : Path) (w : Walk) (a : Attribute StateKind) : Walk :=
  match attributeContext a.key, a.value with
  | some c, some e => if a.key = "length" then w.trackLength unit e else w.trackExpr unit c e
  | _, _ => w

/-- `visit(Item)` and `visit(Field)`: the attributes, then the condition. -/
def visitInfo (unit : Path) (w : Walk) (attributes : List (Attribute StateKind))
    (condition : Option (Expr StateKind)) : Walk :=
  condition.toList.foldl (·.trackExpr unit itemContext ·) (attributes.foldl (visitAttribute unit) w)

/-- The path of what a container contains. -/
def Walk.element (w : Walk) : Walk :=
  let path := w.dollarDollar ++ elementTrackingId
  { w with dollarDollar := path, from_ := w.from_ ++ [path] }

/-- The fields but switches; `embedded` visits a unit under a path. -/
def visitField (embedded : String → Path → Walk → Walk) (unit : Path) :
    Field StateKind → Walk → Walk
  | .atomic i, w | .constant i _ _, w | .ctor i _, w | .unknown i _ _, w =>
    visitInfo unit w i.attributes i.condition
  | .unit i ps, w =>
    let w := ps.foldl (·.trackExpr unit itemContext ·) (visitInfo unit w i.attributes i.condition)
    match i.type with
    | some (.unit id) => embedded id w.dollarDollar w
    | _ => w
  | .vector i n c, w =>
    let w := (visitInfo unit w i.attributes i.condition).trackLength unit n
    visitField embedded unit c w.element
  | .list i c, w => visitField embedded unit c (visitInfo unit w i.attributes i.condition).element

/-- A field in a case of a switch depends on the switch. -/
def visitCaseItem (embedded : String → Path → Walk → Walk) (unit switchId : Path) (w : Walk)
    (f : Field StateKind) : Walk :=
  let path := unit ++ [f.info.id]
  visitField embedded unit f
    { state := { w.state with map := add (path, switchId) itemContext w.state.map }
      from_ := [path]
      dollarDollar := path }

/-- `visit(Switch)`. A switch whose cases differ in length is needed to find the end. -/
def visitSwitch (sizes : Sizes) (embedded : String → Path → Walk → Walk) (unit : Path)
    (s : Switch StateKind) (w : Walk) : Walk :=
  let id := w.dollarDollar
  let w := visitInfo unit w [] s.condition
  let w := if s.staticSerializedLength sizes < 0 then
      let w := { w with from_ := w.from_ ++ [lengthTrackingId] }
      { w with state := tracking w.scope itemContext (·.track id) w.state }
    else w
  let w := s.expression.toList.foldl (·.trackExpr unit itemContext ·) w
  (s.cases.flatMap (·.items)).foldl (visitCaseItem embedded unit id) w

def visitItem (sizes : Sizes) (embedded : String → Path → Walk → Walk) (unit : Path) :
    Item StateKind → Walk → Walk
  | .field f, w => visitField embedded unit f w
  | .switch s, w => visitSwitch sizes embedded unit s w
  | .var v, w => visitInfo unit w v.attributes none
  | .property _ _, w => w

/-- The body of the loop of `visit(Unit)`. -/
def visitNext (sizes : Sizes) (embedded : String → Path → Walk → Walk) (unit : Path) (w : Walk)
    (i : Item StateKind) : Walk :=
  let path := unit ++ [i.id]
  let w := visitItem sizes embedded unit i
    { w with dollarDollar := path, from_ := w.from_ ++ [path] }
  { w with from_ := [] }

/-- `visit(Unit)`; embedded units are entered `depth` levels deep. -/
def visitUnit (sizes : Sizes) (units : String → List (Item StateKind)) :
    Nat → Path → List (Item StateKind) → Walk → Walk
  | 0, _, _, w => w
  | depth + 1, unit, items, w =>
    items.foldl (visitNext sizes (fun id p w => visitUnit sizes units depth p (units id) w) unit) w

/-- `DependencyMapBuilder::run`, for units nested at most `depth` levels deep. -/
def run (sizes : Sizes) (units : String → List (Item StateKind)) (depth : Nat)
    (u : UnitType StateKind) : List Edge :=
  (visitUnit sizes units (depth + 1) [] u.items {}).state.map

end DependencyMapBuilder

/-- `InstantiationDependencyResolver::visit` with the given dependency map. -/
def dependencies (map : List Edge) (requested : List Path) : List Dependency :=
  (InstantiationDependencyResolver.resolved map requested).tail

/-! ## References -/

namespace Expr

/-- The member that `a.b` names if `a` is `self`. -/
def selfAccess : Expr StateKind → Expr StateKind → List String
  | .parserState .self, .memberAttribute x => [x]
  | _, _ => []

/-- The members `x` that the expression refers to as `self.x`, to read, test or assign them. -/
def selfMembers : Expr StateKind → List String
  | .assign a b | .conditionalThen a b | .tupleCons a b | .listComprehension a _ b =>
    a.selfMembers ++ b.selfMembers
  | .conditional a b c | .listComprehensionIf a _ b c => a.selfMembers ++ b.selfMembers ++ c.selfMembers
  | .find a b c d => a.selfMembers ++ b.selfMembers ++ c.selfMembers ++ d.selfMembers
  | .lambda _ a | .unary _ a => a.selfMembers
  | .binary k a b =>
    (if k = .attribute ∨ k = .hasAttribute then selfAccess a b else []) ++ a.selfMembers ++ b.selfMembers
  | .ternary k a b c =>
    (if k = .attributeAssign then selfAccess a b else []) ++
      a.selfMembers ++ b.selfMembers ++ c.selfMembers
  | .constant _ | .tupleNil | .ctor _ | .function _ | .id _ | .memberAttribute _ | .parserState _
  | .transform _ | .type _ | .lambdaVariable _ => []

def isTuple {σ : Type} : Expr σ → Bool
  | .tupleNil | .tupleCons _ _ => true
  | _ => false

/-- The members that are recorded for an expression in the given context, and the context they are
recorded in. -/
def recorded : Finset DependencyContext → Expr StateKind → List (String × Finset DependencyContext)
  | c, .conditional a b d => a.recorded c ++ b.recorded c ++ d.recorded c
  | c, .conditionalThen a b => a.recorded c ++ b.recorded c
  | c, .find a b d _ => a.recorded c ++ b.recorded c ++ d.recorded c
  | c, .lambda _ a => a.recorded c
  | c, .unary _ a => a.recorded c
  | c, .binary k a b =>
    match k with
    | .attribute | .hasAttribute => (selfAccess a b).map (·, c)
    | .call => if b.isTuple then a.recorded c else []
    | .index => b.recorded c
    | .minusAssign | .plusAssign =>
      if serializing ∈ c then a.recorded {serializingUpdate} ++ b.recorded c else []
    | _ => a.recorded c ++ b.recorded c
  | c, .ternary k a b d =>
    match k with
    | .attributeAssign =>
      if serializing ∈ c then (selfAccess a b).map (·, {serializingUpdate}) ++ d.recorded c else []
    | .indexAssign => if serializing ∈ c then d.recorded c else []
    | .methodCall => if d.isTuple then a.recorded c else []
    | _ => a.recorded c ++ b.recorded c ++ d.recorded c
  | _, _ => []

end Expr

/-- A place where an expression stands: the item it belongs to, and the context in which it is
visited, if it is. -/
structure Place where
  owner : String
  context : Option (Finset DependencyContext)
  expr : Expr StateKind

def attributePlaces (owner : String) (attributes : List (Attribute StateKind)) : List Place :=
  attributes.filterMap fun a => a.value.map (⟨owner, attributeContext a.key, ·⟩)

/-- The attributes of a field and of the fields it contains. -/
def Field.allAttributes {σ : Type} : Field σ → List (Attribute σ)
  | .atomic i | .constant i _ _ | .ctor i _ | .unknown i _ _ | .unit i _ => i.attributes
  | .vector i _ c | .list i c => i.attributes ++ c.allAttributes

def Field.places (f : Field StateKind) : List Place := attributePlaces f.info.id f.allAttributes

/-- The attributes, default values and switch expressions of an item and of the fields in it. -/
def Item.places : Item StateKind → List Place
  | .field f => f.places
  | .switch s => s.expression.toList.map (⟨s.id, some itemContext, ·⟩) ++
      (s.cases.flatMap (·.items)).flatMap Field.places
  | .var v => attributePlaces v.id v.attributes ++ v.defaultValue.toList.map (⟨v.id, none, ·⟩)
  | .property a _ => a.value.toList.map (⟨"%" ++ a.key, none, ·⟩)

/-- The expressions that the length of a field depends on. -/
def Field.lengths {σ : Type} : Field σ → List (Expr σ)
  | .atomic i | .constant i _ _ | .ctor i _ | .unknown i _ _ | .unit i _ => i.length.toList
  | .vector i n c => i.length.toList ++ n :: c.lengths
  | .list i c => i.length.toList ++ c.lengths

namespace DependencyMapBuilder

variable {unit : Path} {sc : Generation.DependencyMapBuilder.Scope} {c : Finset DependencyContext}

theorem grows_visit (unit : Path) (sc : Generation.DependencyMapBuilder.Scope)
    (c : Finset DependencyContext) (e : Expr StateKind) : Grows (visit unit sc c e) := by
  induction e generalizing c with
  | conditional a b d iha ihb ihd =>
    exact (((iha c).tracking sc c).comp ((ihb c).tracking sc c)).comp ((ihd c).tracking sc c)
  | conditionalThen a b iha ihb => exact ((iha c).tracking sc c).comp ((ihb c).tracking sc c)
  | find list cond found notFound ihl ihc ihf =>
    have hlist : Grows (trackingFindList sc c (visit unit sc c list)) := (ihl c).tracking sc c
    exact (hlist.comp ((ihc c).tracking sc c)).comp ((ihf c).tracking sc c)
  | lambda x body ih => exact ih c
  | unary k a ih => exact (ih c).tracking sc c
  | binary k a b iha ihb =>
    intro s key c' h
    have hframe := (iha c).comp (ihb c) s key c' h
    simp only [visit]
    split
    · exact hframe
    · exact hframe
    · exact hframe
    · exact ((iha c).comp (grows_track _)).comp ((ihb c).tracking sc c) s key c' h
    · split
      · exact ihb c _ key c' ((iha _).tracking sc _ s key c' h)
      · exact iha c s key c' h
    · split
      · exact ihb c _ key c' ((iha _).tracking sc _ s key c' h)
      · exact iha c s key c' h
    · exact ((iha c).tracking sc c).comp ((ihb c).tracking sc c) s key c' h
  | ternary k a b d iha ihb ihd =>
    intro s key c' h
    simp only [visit]
    split
    · split
      · exact ihd c _ key c' (((iha _).comp (ihb _)).tracking sc _ s key c' h)
      · exact iha c s key c' h
    · split
      · exact ihd c _ key c' (((iha _).comp (grows_track _)).tracking sc _ s key c' h)
      · exact ihb c s key c' h
    · exact (iha c).comp (ihd c) s key c' h
    · exact (((iha c).tracking sc c).comp ((ihb c).tracking sc c)).comp ((ihd c).tracking sc c) s
        key c' h
  | parserState st => cases st <;> exact fun s k c h => h
  | _ => exact fun s k c h => h

theorem selfAccess_eq {a b : Expr StateKind} {x : String} (hx : x ∈ Expr.selfAccess a b) :
    a = .parserState .self ∧ b = .memberAttribute x := by
  unfold Expr.selfAccess at hx
  split at hx
  · exact ⟨rfl, by rw [List.mem_singleton.mp hx]⟩
  · cases hx

theorem visit_tuple {e : Expr StateKind} (he : e.isTuple = true) (s : State) :
    visit unit sc c e s = s := by
  cases e <;> first | rfl | cases he

@[simp] theorem tracked_tracking (f : State → State) (s : State) :
    (tracking sc c f s).tracked = s.tracked := by
  unfold tracking
  dsimp only
  split <;> rfl

/-- What is visited after a part that leaves the tracked path alone is tracked from the start. -/
theorem tracking_after {f g : State → State} (hf : ∀ s, (f s).tracked = s.tracked) (s : State) :
    (tracking sc c (fun s => g (f s)) s).map = (tracking sc c g (f { s with tracked := [] })).map := by
  have hreset : { f { s with tracked := [] } with tracked := [] } = f { s with tracked := [] } := by
    have htracked := hf { s with tracked := [] }
    cases hs : f { s with tracked := [] }
    simp_all
  unfold tracking
  dsimp only
  rw [hreset]
  split <;> rfl

/-- The members that are recorded become dependencies. -/
theorem tracking_recorded {e : Expr StateKind} {x : String} {c' : Finset DependencyContext}
    (hx : (x, c') ∈ e.recorded c) {g : Path} (hg : g ∈ sc.from_) (s : State) :
    Has (tracking sc c (visit [] sc c e) s).map (g, [x]) c' := by
  have hgrows : ∀ (e : Expr StateKind) (c : Finset DependencyContext),
      Grows (tracking sc c (visit [] sc c e)) := fun e c => (grows_visit [] sc c e).tracking sc c
  -- `self.x` itself is tracked by whatever surrounds it.
  have haccess : ∀ {a b : Expr StateKind} {c₁ : Finset DependencyContext}, x ∈ Expr.selfAccess a b →
      ∀ s, Has (tracking sc c₁ (fun s => visit [] sc c₁ b (visit [] sc c₁ a s)) s).map (g, [x]) c₁ := by
    intro a b c₁ hx s
    obtain ⟨rfl, rfl⟩ := selfAccess_eq hx
    have hpath : (visit [] sc c₁ (.memberAttribute x)
        (visit [] sc c₁ (.parserState .self) { s with tracked := [] })).tracked = [x] := rfl
    exact tracking_records hpath (by simp) hg
  induction e generalizing c s with
  | conditional a b d iha ihb ihd =>
    refine has_tracking ?_
    rcases List.mem_append.mp hx with hx | hx
    · rcases List.mem_append.mp hx with hx | hx
      · exact hgrows d c _ _ _ (hgrows b c _ _ _ (iha hx _))
      · exact hgrows d c _ _ _ (ihb hx _)
    · exact ihd hx _
  | conditionalThen a b iha ihb =>
    refine has_tracking ?_
    rcases List.mem_append.mp hx with hx | hx
    · exact hgrows b c _ _ _ (iha hx _)
    · exact ihb hx _
  | find a b d n iha ihb ihd =>
    refine has_tracking ?_
    rcases List.mem_append.mp hx with hx | hx
    · rcases List.mem_append.mp hx with hx | hx
      · exact hgrows d c _ _ _ (hgrows b c _ _ _ (iha hx _))
      · exact hgrows d c _ _ _ (ihb hx _)
    · exact ihd hx _
  | lambda y a iha => exact iha hx s
  | unary k a iha => exact has_tracking (iha hx _)
  | binary k a b iha ihb =>
    change Has (tracking sc c (fun s => visit [] sc c (.binary k a b) s) s).map _ _
    cases k with
    | «attribute» | hasAttribute =>
      obtain ⟨y, hy, heq⟩ := List.mem_map.mp hx
      cases heq
      exact haccess hy s
    | call =>
      simp only [Expr.recorded] at hx
      split_ifs at hx with htuple
      · simpa only [visit, visit_tuple htuple] using iha hx s
      · cases hx
    | index => exact has_tracking (ihb hx _)
    | minusAssign | plusAssign =>
      simp only [Expr.recorded] at hx
      split_ifs at hx with hser
      · simp only [visit, if_pos hser]
        rcases List.mem_append.mp hx with hx | hx
        · exact has_tracking (grows_visit [] sc c b _ _ _ (iha hx _))
        · rw [tracking_after (fun s => tracked_tracking _ s)]
          exact ihb hx _
      · cases hx
    | _ =>
      refine has_tracking ?_
      rcases List.mem_append.mp hx with hx | hx
      · exact hgrows b c _ _ _ (iha hx _)
      · exact ihb hx _
  | ternary k a b d iha ihb ihd =>
    change Has (tracking sc c (fun s => visit [] sc c (.ternary k a b d) s) s).map _ _
    cases k with
    | attributeAssign =>
      simp only [Expr.recorded] at hx
      split_ifs at hx with hser
      · simp only [visit, if_pos hser]
        rcases List.mem_append.mp hx with hx | hx
        · obtain ⟨y, hy, heq⟩ := List.mem_map.mp hx
          cases heq
          exact has_tracking (grows_visit [] sc c d _ _ _ (haccess hy _))
        · rw [tracking_after (fun s => tracked_tracking _ s)]
          exact ihd hx _
      · cases hx
    | indexAssign =>
      simp only [Expr.recorded] at hx
      split_ifs at hx with hser
      · simp only [visit, if_pos hser]
        rw [tracking_after (fun s => tracked_tracking _ s)]
        exact ihd hx _
      · cases hx
    | methodCall =>
      simp only [Expr.recorded] at hx
      split_ifs at hx with htuple
      · simpa only [visit, visit_tuple htuple] using iha hx s
      · cases hx
    | _ =>
      refine has_tracking ?_
      rcases List.mem_append.mp hx with hx | hx
      · rcases List.mem_append.mp hx with hx | hx
        · exact hgrows d c _ _ _ (hgrows b c _ _ _ (iha hx _))
        · exact hgrows d c _ _ _ (ihb hx _)
      · exact ihd hx _
  | _ => cases hx

/-! ### Items -/

/-- A part of the walk that loses no edge. -/
def Walk.Grows (f : Walk → Walk) : Prop :=
  ∀ (w : Walk) k c, Has w.state.map k c → Has (f w).state.map k c

theorem Walk.grows_foldl {α : Type} {f : Walk → α → Walk} (hf : ∀ a, Walk.Grows (f · a))
    (l : List α) : Walk.Grows fun w => l.foldl f w := by
  induction l with
  | nil => exact fun w k c h => h
  | cons a l ih => exact fun w k c h => ih _ k c (hf a w k c h)

theorem Walk.grows_trackExpr (unit : Path) (c : Finset DependencyContext) (e : Expr StateKind) :
    Walk.Grows (·.trackExpr unit c e) :=
  fun w k c' h => (grows_visit unit w.scope c e).tracking w.scope c w.state k c' h

theorem Walk.grows_trackLength (unit : Path) (e : Expr StateKind) :
    Walk.Grows (·.trackLength unit e) :=
  fun _ k c' h => (grows_visit unit _ _ e).tracking _ _ _ k c' h

theorem grows_visitAttribute (unit : Path) (a : Attribute StateKind) :
    Walk.Grows (visitAttribute unit · a) := by
  intro w k c h
  unfold visitAttribute
  split
  · split
    · exact Walk.grows_trackLength unit _ w k c h
    · exact Walk.grows_trackExpr unit _ _ w k c h
  · exact h

theorem grows_visitInfo (unit : Path) (attributes : List (Attribute StateKind))
    (condition : Option (Expr StateKind)) : Walk.Grows (visitInfo unit · attributes condition) := by
  intro w k c h
  exact Walk.grows_foldl (Walk.grows_trackExpr unit itemContext) _ _ k c
    (Walk.grows_foldl (grows_visitAttribute unit) attributes w k c h)

variable {embedded : String → Path → Walk → Walk}

theorem grows_visitField (hembedded : ∀ id p, Walk.Grows (embedded id p)) (unit : Path)
    (f : Field StateKind) : Walk.Grows (visitField embedded unit f) := by
  induction f with
  | atomic i | constant i _ _ | ctor i _ | unknown i _ _ =>
    exact grows_visitInfo unit i.attributes i.condition
  | unit i ps =>
    intro w k c h
    have hps := Walk.grows_foldl (Walk.grows_trackExpr unit itemContext) ps _ k c
      (grows_visitInfo unit i.attributes i.condition w k c h)
    simp only [visitField]
    split
    · exact hembedded _ _ _ k c hps
    · exact hps
  | vector i n f ih =>
    intro w k c h
    exact ih _ k c (Walk.grows_trackLength unit n _ k c
      (grows_visitInfo unit i.attributes i.condition w k c h))
  | list i f ih =>
    intro w k c h
    exact ih _ k c (grows_visitInfo unit i.attributes i.condition w k c h)

theorem grows_visitCaseItem (hembedded : ∀ id p, Walk.Grows (embedded id p)) (unit switchId : Path)
    (f : Field StateKind) : Walk.Grows (visitCaseItem embedded unit switchId · f) :=
  fun _ k c h => grows_visitField hembedded unit f _ k c (h.add _ _)

theorem grows_visitSwitch (hembedded : ∀ id p, Walk.Grows (embedded id p)) (sizes : Sizes)
    (unit : Path) (s : Switch StateKind) : Walk.Grows (visitSwitch sizes embedded unit s) := by
  intro w k c h
  unfold visitSwitch
  refine Walk.grows_foldl (grows_visitCaseItem hembedded unit _) _ _ k c ?_
  refine Walk.grows_foldl (Walk.grows_trackExpr unit itemContext) _ _ k c ?_
  have hinfo := grows_visitInfo unit [] s.condition w k c h
  split
  · exact (grows_track _).tracking _ _ _ k c hinfo
  · exact hinfo

theorem grows_visitItem (hembedded : ∀ id p, Walk.Grows (embedded id p)) (sizes : Sizes)
    (unit : Path) (i : Item StateKind) : Walk.Grows (visitItem sizes embedded unit i) := by
  cases i with
  | field f => exact grows_visitField hembedded unit f
  | switch s => exact grows_visitSwitch hembedded sizes unit s
  | var v => exact grows_visitInfo unit v.attributes none
  | property a p => exact fun w k c h => h

theorem grows_visitNext (hembedded : ∀ id p, Walk.Grows (embedded id p)) (sizes : Sizes)
    (unit : Path) (i : Item StateKind) : Walk.Grows (visitNext sizes embedded unit · i) :=
  fun _ k c h => grows_visitItem hembedded sizes unit i _ k c h

theorem grows_visitUnit (sizes : Sizes) (units : String → List (Item StateKind)) (depth : Nat)
    (unit : Path) (items : List (Item StateKind)) :
    Walk.Grows (visitUnit sizes units depth unit items) := by
  induction depth generalizing unit items with
  | zero => exact fun w k c h => h
  | succ depth ih =>
    have hembedded : ∀ id p, Walk.Grows fun w => visitUnit sizes units depth p (units id) w :=
      fun id p => ih p (units id)
    exact Walk.grows_foldl (grows_visitNext hembedded sizes unit) items

/-! ### What is recorded for an item -/

theorem Walk.foldl_has {α : Type} {f : Walk → α → Walk} (hf : ∀ a, Walk.Grows (f · a)) {l : List α}
    {a : α} (ha : a ∈ l) {k : Path × Path} {c : Finset DependencyContext}
    (hrec : ∀ w, Has (f w a).state.map k c) (w : Walk) : Has (l.foldl f w).state.map k c := by
  induction l generalizing w with
  | nil => cases ha
  | cons b l ih =>
    rcases List.mem_cons.mp ha with rfl | ha
    · exact Walk.grows_foldl hf l _ k c (hrec w)
    · exact ih ha _

@[simp] theorem from_visitAttribute (unit : Path) (w : Walk) (a : Attribute StateKind) :
    (visitAttribute unit w a).from_ = w.from_ := by
  unfold visitAttribute
  split
  · split <;> rfl
  · rfl

@[simp] theorem from_visitInfo (unit : Path) (w : Walk) (attributes : List (Attribute StateKind))
    (condition : Option (Expr StateKind)) :
    (visitInfo unit w attributes condition).from_ = w.from_ := by
  have hattributes : (attributes.foldl (visitAttribute unit) w).from_ = w.from_ := by
    induction attributes generalizing w with
    | nil => rfl
    | cons a rest ih => exact (ih _).trans (from_visitAttribute unit w a)
  cases condition <;> exact hattributes

/-- The items whose dependencies are recorded while an attribute is visited. -/
def Origin (w : Walk) (a : Attribute StateKind) (g : Path) : Prop :=
  g ∈ w.from_ ∨ a.key = "length" ∧ g = lengthTrackingId

variable {x : String} {c' : Finset DependencyContext} {g : Path} {w : Walk}

theorem visitAttribute_records {a : Attribute StateKind} {e : Expr StateKind}
    (hvalue : a.value = some e) (hcontext : attributeContext a.key = some c)
    (hx : (x, c') ∈ e.recorded c) (hg : Origin w a g) :
    Has (visitAttribute [] w a).state.map (g, [x]) c' := by
  simp only [visitAttribute, hcontext, hvalue]
  split_ifs with hkey
  · rw [hkey] at hcontext
    cases hcontext
    refine tracking_recorded hx ?_ w.state
    rcases hg with hg | ⟨-, rfl⟩
    · exact List.mem_append_left _ hg
    · exact List.mem_append_right _ (List.mem_singleton_self _)
  · rcases hg with hg | ⟨hlength, -⟩
    · exact tracking_recorded hx hg w.state
    · exact absurd hlength hkey

theorem visitInfo_records {attributes : List (Attribute StateKind)} {a : Attribute StateKind}
    (ha : a ∈ attributes) {e : Expr StateKind} (hvalue : a.value = some e)
    (hcontext : attributeContext a.key = some c) (hx : (x, c') ∈ e.recorded c) (hg : Origin w a g)
    (condition : Option (Expr StateKind)) :
    Has (visitInfo [] w attributes condition).state.map (g, [x]) c' := by
  refine Walk.grows_foldl (Walk.grows_trackExpr [] itemContext) _ _ _ _ ?_
  induction attributes generalizing w with
  | nil => cases ha
  | cons b rest ih =>
    rcases List.mem_cons.mp ha with rfl | ha
    · exact Walk.grows_foldl (grows_visitAttribute []) rest _ _ _
        (visitAttribute_records hvalue hcontext hx hg)
    · refine ih ha ?_
      rwa [Origin, from_visitAttribute]

theorem visitField_records (hembedded : ∀ id p, Walk.Grows (embedded id p)) {f : Field StateKind}
    {a : Attribute StateKind} (ha : a ∈ f.allAttributes) {e : Expr StateKind}
    (hvalue : a.value = some e) (hcontext : attributeContext a.key = some c)
    (hx : (x, c') ∈ e.recorded c) (hg : Origin w a g) :
    Has (visitField embedded [] f w).state.map (g, [x]) c' := by
  induction f generalizing w with
  | atomic i | constant i _ _ | ctor i _ | unknown i _ _ =>
    exact visitInfo_records ha hvalue hcontext hx hg i.condition
  | unit i ps =>
    have hinfo := visitInfo_records ha hvalue hcontext hx hg i.condition
    have hps := Walk.grows_foldl (Walk.grows_trackExpr [] itemContext) ps _ _ _ hinfo
    simp only [visitField]
    split
    · exact hembedded _ _ _ _ _ hps
    · exact hps
  | vector i n f ih =>
    rcases List.mem_append.mp ha with ha | ha
    · exact grows_visitField hembedded [] f _ _ _ (Walk.grows_trackLength [] n _ _ _
        (visitInfo_records ha hvalue hcontext hx hg i.condition))
    · refine ih ha (hg.imp_left fun hg => List.mem_append_left _ ?_)
      exact (from_visitInfo [] w i.attributes i.condition).symm ▸ hg
  | list i f ih =>
    rcases List.mem_append.mp ha with ha | ha
    · exact grows_visitField hembedded [] f _ _ _
        (visitInfo_records ha hvalue hcontext hx hg i.condition)
    · refine ih ha (hg.imp_left fun hg => List.mem_append_left _ ?_)
      exact (from_visitInfo [] w i.attributes i.condition).symm ▸ hg

theorem length_attribute {i : FieldInfo StateKind} {e : Expr StateKind} (he : e ∈ i.length.toList) :
    ∃ a ∈ i.attributes, a.key = "length" ∧ a.value = some e := by
  obtain ⟨a, ha, hvalue⟩ := Option.bind_eq_some_iff.mp (Option.mem_toList.mp he)
  exact ⟨a, List.mem_of_find?_eq_some ha, by simpa using List.find?_some ha, hvalue⟩

theorem visitField_lengths (hembedded : ∀ id p, Walk.Grows (embedded id p)) {f : Field StateKind}
    {e : Expr StateKind} (he : e ∈ f.lengths)
    (hx : (x, c') ∈ e.recorded {parsing, serializingUpdate}) :
    Has (visitField embedded [] f w).state.map (lengthTrackingId, [x]) c' := by
  -- A `length` attribute is recorded like any attribute, for `__length`.
  have hlength : ∀ {i : FieldInfo StateKind} {f : Field StateKind} {w : Walk},
      i.attributes ⊆ f.allAttributes → e ∈ i.length.toList →
        Has (visitField embedded [] f w).state.map (lengthTrackingId, [x]) c' := by
    intro i f w hsub he
    obtain ⟨a, ha, hkey, hvalue⟩ := length_attribute he
    have hcontext : attributeContext a.key = some {parsing, serializingUpdate} := by
      rw [hkey]
      rfl
    exact visitField_records hembedded (hsub ha) hvalue hcontext hx (.inr ⟨hkey, rfl⟩)
  induction f generalizing w with
  | atomic i | constant i _ _ | ctor i _ | unknown i _ _ | unit i ps =>
    exact hlength (List.Subset.refl _) he
  | vector i n f ih =>
    rcases List.mem_append.mp he with he | he
    · exact hlength (List.subset_append_left _ _) he
    · rcases List.mem_cons.mp he with rfl | he
      · exact grows_visitField hembedded [] f _ _ _
          (tracking_recorded hx (List.mem_append_right _ (List.mem_singleton_self _)) _)
      · exact ih he
  | list i f ih =>
    rcases List.mem_append.mp he with he | he
    · exact hlength (List.subset_append_left _ _) he
    · exact ih he

theorem mem_attributePlaces {owner : String} {attributes : List (Attribute StateKind)} {p : Place}
    (hp : p ∈ attributePlaces owner attributes) : p.owner = owner ∧
      ∃ a ∈ attributes, a.value = some p.expr ∧ p.context = attributeContext a.key := by
  obtain ⟨a, ha, hp⟩ := List.mem_filterMap.mp hp
  obtain ⟨e, he, rfl⟩ := Option.map_eq_some_iff.mp hp
  exact ⟨rfl, a, ha, he, rfl⟩

theorem field_records (hembedded : ∀ id p, Walk.Grows (embedded id p)) {f : Field StateKind}
    {p : Place} (hp : p ∈ f.places) (hcontext : p.context = some c)
    (hx : (x, c') ∈ p.expr.recorded c) (hw : [f.info.id] ∈ w.from_) :
    Has (visitField embedded [] f w).state.map ([p.owner], [x]) c' := by
  obtain ⟨howner, a, ha, hvalue, hkey⟩ := mem_attributePlaces hp
  rw [howner]
  exact visitField_records hembedded ha hvalue (hkey ▸ hcontext) hx (.inl hw)

theorem switch_records (hembedded : ∀ id p, Walk.Grows (embedded id p)) (sizes : Sizes)
    {s : Switch StateKind} {p : Place} (hp : p ∈ (Item.switch s).places)
    (hcontext : p.context = some c) (hx : (x, c') ∈ p.expr.recorded c) (hw : [s.id] ∈ w.from_) :
    Has (visitSwitch sizes embedded [] s w).state.map ([p.owner], [x]) c' := by
  unfold visitSwitch
  rcases List.mem_append.mp hp with hp | hp
  · obtain ⟨e, he, rfl⟩ := List.mem_map.mp hp
    cases hcontext
    refine Walk.grows_foldl (grows_visitCaseItem hembedded [] _) _ _ _ _ ?_
    rw [Option.mem_toList.mp he]
    refine tracking_recorded hx ?_ _
    simp only [Walk.scope]
    split
    · simp [hw]
    · simp [hw]
  · obtain ⟨f, hf, hp⟩ := List.mem_flatMap.mp hp
    refine Walk.foldl_has (grows_visitCaseItem hembedded [] _) hf (fun w => ?_) _
    exact field_records hembedded hp hcontext hx (by simp)

theorem embedded_grows (sizes : Sizes) (units : String → List (Item StateKind)) (depth : Nat) :
    ∀ id p, Walk.Grows fun w => visitUnit sizes units depth p (units id) w :=
  fun id p => grows_visitUnit sizes units depth p (units id)

variable {sizes : Sizes} {units : String → List (Item StateKind)} {depth : Nat}
  {u : UnitType StateKind} {i : Item StateKind}

/-- What is recorded for a place in an item. -/
theorem run_records (hi : i ∈ u.items) {p : Place} (hp : p ∈ i.places) (hcontext : p.context = some c)
    (hx : (x, c') ∈ p.expr.recorded c) : Has (run sizes units depth u) ([p.owner], [x]) c' := by
  have hembedded := embedded_grows sizes units depth
  refine Walk.foldl_has (grows_visitNext hembedded sizes []) hi (fun w => ?_) {}
  cases i with
  | field f => exact field_records hembedded hp hcontext hx (by simp [Item.id])
  | switch s => exact switch_records hembedded sizes hp hcontext hx (by simp [Item.id])
  | var v =>
    rcases List.mem_append.mp hp with hp | hp
    · obtain ⟨howner, a, ha, hvalue, hkey⟩ := mem_attributePlaces hp
      rw [howner]
      exact visitInfo_records ha hvalue (hkey ▸ hcontext) hx (.inl (by simp [Item.id])) none
    · obtain ⟨e, -, rfl⟩ := List.mem_map.mp hp
      cases hcontext
  | property a q =>
    obtain ⟨e, -, rfl⟩ := List.mem_map.mp hp
    cases hcontext

/-- The lengths are recorded for `__length`. -/
theorem run_records_length {f : Field StateKind} (hf : .field f ∈ u.items) {e : Expr StateKind}
    (he : e ∈ f.lengths) (hx : (x, c') ∈ e.recorded {parsing, serializingUpdate}) :
    Has (run sizes units depth u) (lengthTrackingId, [x]) c' :=
  have hembedded := embedded_grows sizes units depth
  Walk.foldl_has (grows_visitNext hembedded sizes []) hf
    (fun _ => visitField_lengths hembedded he hx) {}

end DependencyMapBuilder

end Diffingo.Ast
