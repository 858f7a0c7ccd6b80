import Diffingo.Library.Saturation
import Diffingo.Spec.Unit

/-!
# The items an instantiation needs

`DependencyMapBuilder` records which items the attributes of an item refer to, and in which context.
`InstantiationDependencyResolver` starts with the requested items and the pseudo item `__length` and
adds dependencies until nothing changes. An identifier is its path; the dependency map is kept as
one list of edges, in the order in which they are found.
-/

namespace Diffingo.Generation

open Diffingo.Spec Saturation

/-- The bits of `DependencyContext`. A context is a set of them. -/
inductive DependencyContext
  | application | parsing | serializing | serializingUpdate
  deriving DecidableEq, Repr

open DependencyContext

instance : Fintype DependencyContext where
  elems := {application, parsing, serializing, serializingUpdate}
  complete c := by cases c <;> decide

abbrev Path := List String

/-- What an item depends on. -/
abbrev Dependency := Graded Path DependencyContext

/-- An entry of the dependency map: from an item to what it refers to. -/
abbrev Edge := Graded (Path × Path) DependencyContext

def lengthTrackingId : Path := ["__length"]

def elementTrackingId : Path := ["[]"]

namespace DependencyMapBuilder

/-- The state of the visitor: the map, the path on top of the tracking stack and the list of the
last `find` expression. -/
structure State where
  map : List Edge := []
  tracked : Path := []
  curFindList : Option Path := none

/-- What is fixed while an attribute is visited. -/
structure Scope where
  from_ : List Path
  dollarDollar : Path

def State.track (s : State) (path : Path) : State := { s with tracked := s.tracked ++ path }

def addDependencies (from_ : List Path) (dst : Path) (context : Finset DependencyContext)
    (map : List Edge) : List Edge :=
  from_.foldl (fun m f => add (f, dst) context m) map

/-- `pushTracking`, a visit, and `popTracking`, which records the tracked path. -/
def tracking (sc : Scope) (context : Finset DependencyContext) (visit : State → State)
    (s : State) : State :=
  let s' := visit { s with tracked := [] }
  if s'.tracked = [] then { s' with tracked := s.tracked }
  else { s' with
    map := addDependencies sc.from_ s'.tracked context s'.map
    tracked := s.tracked }

/-- The list that a `find` expression goes through is remembered for its lambda variable. -/
def trackingFindList (sc : Scope) (context : Finset DependencyContext) (visit : State → State)
    (s : State) : State :=
  let list := (visit { s with tracked := [] }).tracked
  { tracking sc context visit s with curFindList := some list }

/-- `visit` of an expression. The first operand of an assignment is an update when serializing. -/
def visit (sc : Scope) : Finset DependencyContext → Expr → State → State
  | _, .memberAttribute x, s => s.track [x]
  | _, .lambdaVariable _, s => (s.track (s.curFindList.getD [])).track elementTrackingId
  | _, .parserState (.dollarDollar _), s => s.track sc.dollarDollar
  | c, .conditional a b d, s =>
    tracking sc c (visit sc c d) (tracking sc c (visit sc c b) (tracking sc c (visit sc c a) s))
  | c, .conditionalThen a b, s => tracking sc c (visit sc c b) (tracking sc c (visit sc c a) s)
  | c, .find list cond found _, s =>
    tracking sc c (visit sc c found)
      (tracking sc c (visit sc c cond) (trackingFindList sc c (visit sc c list) s))
  | c, .lambda _ body, s => visit sc c body s
  | c, .unary _ a, s => tracking sc c (visit sc c a) s
  | c, .binary k a b, s =>
    match k with
    | .attribute | .call | .hasAttribute => visit sc c b (visit sc c a s)
    | .index => tracking sc c (visit sc c b) ((visit sc c a s).track elementTrackingId)
    | .minusAssign | .plusAssign =>
      if serializing ∈ c then
        visit sc c b (tracking sc {serializingUpdate} (visit sc {serializingUpdate} a) s)
      else visit sc c a s
    | _ => tracking sc c (visit sc c b) (tracking sc c (visit sc c a) s)
  | c, .ternary k a b d, s =>
    match k with
    | .attributeAssign =>
      if serializing ∈ c then
        visit sc c d (tracking sc {serializingUpdate}
          (fun s => visit sc {serializingUpdate} b (visit sc {serializingUpdate} a s)) s)
      else visit sc c a s
    | .indexAssign =>
      if serializing ∈ c then
        visit sc c d (tracking sc {serializingUpdate}
          (fun s => (visit sc {serializingUpdate} a s).track elementTrackingId) s)
      else visit sc c b s
    | .methodCall => visit sc c d (visit sc c a s)
    | _ =>
      tracking sc c (visit sc c d) (tracking sc c (visit sc c b) (tracking sc c (visit sc c a) s))
  | _, _, s => s

/-- The context in which an attribute is visited; `none` for the ignored ones. -/
def attributeContext (key : String) : Option (Finset DependencyContext) :=
  if key = "transform" ∨ key = "transform_to" then none
  else if key = "parse" then some {parsing}
  else if key = "serialize" then some {serializing}
  else if key = "length" then some {parsing, serializingUpdate}
  else some {parsing, serializing}

/-- One attribute of an item. A length is a dependency of `__length`, too. -/
def visitAttribute (from_ : List Path) (dollarDollar : Path) (s : State) (a : Attribute) : State :=
  match attributeContext a.key, a.value with
  | some c, some e =>
    let from' := if a.key = "length" then from_ ++ [lengthTrackingId] else from_
    let sc : Scope := ⟨from', dollarDollar⟩
    tracking sc c (visit sc c e) s
  | _, _ => s

/-- The context outside of attributes. -/
def itemContext : Finset DependencyContext := {parsing, serializing}

/-- `visit(Item)` and `visit(Field)`: the attributes, then the condition. -/
def visitField (from_ : List Path) (dollarDollar : Path) (attributes : List Attribute)
    (condition : Option Expr) (s : State) : State :=
  let s' := attributes.foldl (visitAttribute from_ dollarDollar) s
  match condition with
  | some e => tracking ⟨from_, dollarDollar⟩ itemContext (visit ⟨from_, dollarDollar⟩ itemContext e) s'
  | none => s'

/-- A field in a case of a switch depends on the switch. -/
def visitCaseItem (switchId : Path) (s : State) (f : AtomicField) : State :=
  visitField [[f.id]] [f.id] f.attributes f.condition
    { s with map := add ([f.id], switchId) itemContext s.map }

/-- `visit(Switch)`. A switch whose cases differ in length is needed to find the end. -/
def visitSwitch (sw : Switch) (s : State) : State :=
  let id : Path := [sw.id]
  let s := visitField [id] id [] sw.condition s
  let dynamic := sw.staticSerializedLength < 0
  let sc : Scope := ⟨if dynamic then [id, lengthTrackingId] else [id], id⟩
  let s := if dynamic then tracking sc itemContext (·.track id) s else s
  let s := match sw.expression with
    | some e => tracking sc itemContext (visit sc itemContext e) s
    | none => s
  sw.fields.foldl (visitCaseItem id) s

def visitItem (s : State) : Item → State
  | .field f => visitField [[f.id]] [f.id] f.attributes f.condition s
  | .switch sw => visitSwitch sw s
  | .var v => visitField [[v.id]] [v.id] v.attributes none s
  | .property _ => s

/-- `DependencyMapBuilder::run`. -/
def run (u : UnitType) : List Edge := (u.items.foldl visitItem {}).map

end DependencyMapBuilder

namespace InstantiationDependencyResolver

/-- What a dependency adds. A dependency of the application brings in everything, any other only
what it shares a context with. -/
def next (map : List Edge) (dep : Dependency) : List Dependency :=
  (map.filter (·.key.1 = dep.key)).filterMap fun e =>
    if application ∈ dep.grade then some ⟨e.key.2, e.grade⟩
    else if dep.grade ∩ e.grade ≠ ∅ then some ⟨e.key.2, dep.grade ∩ e.grade⟩
    else none

/-- The dependencies before the first round. -/
def initial (items : List Path) : List Dependency :=
  ⟨lengthTrackingId, {parsing}⟩ :: items.map fun i => ⟨i, {application}⟩

def targets (map : List Edge) : List Path := map.map (·.key.2)

/-- The dependencies after the last round, with the entry for `__length` in front. -/
def resolved (map : List Edge) (items : List Path) : List Dependency :=
  saturate (next map) (rounds (targets map) (initial items)) (initial items)

/-- `visit(Instantiation)`. -/
def visit (u : UnitType) (items : List Path) : List Dependency :=
  (resolved (DependencyMapBuilder.run u) items).tail

end InstantiationDependencyResolver

/-- `InstantiationTypeGenerator::dependencyContextFor`. -/
def dependencyContextFor (deps : List Dependency) (id : Path) : Finset DependencyContext :=
  deps.foldl (fun c dep => if dep.key <+: id then c ∪ dep.grade else c) ∅

/-! ## What the map records -/

namespace DependencyMapBuilder

/-- A part of the visit that loses no edge. -/
def Grows (visit : State → State) : Prop :=
  ∀ (s : State) k c, Has s.map k c → Has (visit s).map k c

theorem addDependencies_keeps {k : Path × Path} {c : Finset DependencyContext} {map : List Edge}
    (h : Has map k c) (from_ : List Path) (dst : Path) (c' : Finset DependencyContext) :
    Has (addDependencies from_ dst c' map) k c := by
  unfold addDependencies
  induction from_ generalizing map with
  | nil => exact h
  | cons f from_ ih => exact ih (h.add _ _)

theorem addDependencies_has {from_ : List Path} {f : Path} (hf : f ∈ from_) (dst : Path)
    (c : Finset DependencyContext) (map : List Edge) :
    Has (addDependencies from_ dst c map) (f, dst) c := by
  induction from_ generalizing map with
  | nil => cases hf
  | cons g from_ ih =>
    rcases List.mem_cons.mp hf with rfl | hf
    · exact addDependencies_keeps (has_add (f, dst) c map) from_ dst c
    · exact ih hf _

variable {sc : Scope} {c : Finset DependencyContext}

theorem has_tracking {f : State → State} {s : State} {k : Path × Path}
    {c' : Finset DependencyContext} (h : Has (f { s with tracked := [] }).map k c') :
    Has (tracking sc c f s).map k c' := by
  unfold tracking
  dsimp only
  split
  · exact h
  · exact addDependencies_keeps h _ _ _

theorem Grows.tracking {f : State → State} (hf : Grows f) (sc : Scope)
    (c : Finset DependencyContext) : Grows (tracking sc c f) :=
  fun s k c' h => has_tracking (hf { s with tracked := [] } k c' h)

theorem Grows.comp {f g : State → State} (hf : Grows f) (hg : Grows g) :
    Grows fun s => g (f s) := fun s k c h => hg _ k c (hf s k c h)

theorem grows_track (path : Path) : Grows (·.track path) := fun _ _ _ h => h

theorem grows_visit (sc : Scope) (c : Finset DependencyContext) (e : Expr) :
    Grows (visit sc c e) := by
  induction e generalizing c with
  | conditional a b d iha ihb ihd =>
    exact (((iha c).tracking sc c).comp ((ihb c).tracking sc c)).comp ((ihd c).tracking sc c)
  | conditionalThen a b iha ihb => exact ((iha c).tracking sc c).comp ((ihb c).tracking sc c)
  | find list cond found notFound ihl ihc ihf =>
    have hlist : Grows (trackingFindList sc c (visit sc c list)) := (ihl c).tracking sc c
    exact (hlist.comp ((ihc c).tracking sc c)).comp ((ihf c).tracking sc c)
  | lambda x body ih => exact ih c
  | unary k a ih => exact (ih c).tracking sc c
  | binary k a b iha ihb =>
    intro s key c' h
    have hframe := (iha c).comp (ihb c) s key c' h
    simp only [visit]
    split
    · exact hframe
    · exact hframe
    · exact hframe
    · exact ((iha c).comp (grows_track _)).comp ((ihb c).tracking sc c) s key c' h
    · split
      · exact ihb c _ key c' ((iha _).tracking sc _ s key c' h)
      · exact iha c s key c' h
    · split
      · exact ihb c _ key c' ((iha _).tracking sc _ s key c' h)
      · exact iha c s key c' h
    · exact ((iha c).tracking sc c).comp ((ihb c).tracking sc c) s key c' h
  | ternary k a b d iha ihb ihd =>
    intro s key c' h
    simp only [visit]
    split
    · split
      · exact ihd c _ key c' (((iha _).comp (ihb _)).tracking sc _ s key c' h)
      · exact iha c s key c' h
    · split
      · exact ihd c _ key c' (((iha _).comp (grows_track _)).tracking sc _ s key c' h)
      · exact ihb c s key c' h
    · exact (iha c).comp (ihd c) s key c' h
    · exact (((iha c).tracking sc c).comp ((ihb c).tracking sc c)).comp ((ihd c).tracking sc c) s
        key c' h
  | parserState st => cases st <;> exact fun s k c h => h
  | _ => exact fun s k c h => h

theorem tracking_records {f : State → State} {s : State} {path : Path}
    (hpath : (f { s with tracked := [] }).tracked = path) (hne : path ≠ []) {g : Path}
    (hg : g ∈ sc.from_) : Has (tracking sc c f s).map (g, path) c := by
  subst hpath
  unfold tracking
  dsimp only
  rw [if_neg hne]
  exact addDependencies_has hg _ _ _

theorem tracking_selfMember (s : State) (u x : String) {g : Path} (hg : g ∈ sc.from_) :
    Has (tracking sc c (visit sc c (.selfMember u x)) s).map (g, [x]) c :=
  have hpath : (visit sc c (.selfMember u x) { s with tracked := [] }).tracked = [x] := rfl
  tracking_records hpath (by simp) hg

theorem grows_foldl {α : Type} {f : State → α → State} (hf : ∀ a, Grows (f · a)) (l : List α) :
    Grows fun s => l.foldl f s := by
  induction l with
  | nil => exact fun s k c h => h
  | cons a l ih => exact fun s k c h => ih _ k c (hf a s k c h)

/-- An edge that visiting one element records is there after all of them. -/
theorem foldl_has {α : Type} {f : State → α → State} (hf : ∀ a, Grows (f · a)) {l : List α} {a : α}
    (ha : a ∈ l) {k : Path × Path} {c : Finset DependencyContext}
    (hrec : ∀ s, Has (f s a).map k c) (s : State) : Has (l.foldl f s).map k c := by
  induction l generalizing s with
  | nil => cases ha
  | cons b l ih =>
    rcases List.mem_cons.mp ha with rfl | ha
    · exact grows_foldl hf l _ k c (hrec s)
    · exact ih ha _

theorem grows_visitAttribute (from_ : List Path) (dd : Path) (a : Attribute) :
    Grows (visitAttribute from_ dd · a) := by
  intro s k c h
  unfold visitAttribute
  split
  · exact (grows_visit _ _ _).tracking _ _ s k c h
  · exact h

theorem grows_visitField (from_ : List Path) (dd : Path) (attributes : List Attribute)
    (condition : Option Expr) : Grows (visitField from_ dd attributes condition) := by
  intro s k c h
  have h' := grows_foldl (grows_visitAttribute from_ dd) attributes s k c h
  cases condition with
  | none => exact h'
  | some e => exact (grows_visit _ _ _).tracking _ _ _ k c h'

theorem grows_visitCaseItem (switchId : Path) (f : AtomicField) :
    Grows (visitCaseItem switchId · f) :=
  fun _ k c h => grows_visitField _ _ _ _ _ k c (h.add _ _)

theorem grows_visitSwitch (sw : Switch) : Grows (visitSwitch sw) := by
  intro s k c h
  unfold visitSwitch
  refine grows_foldl (grows_visitCaseItem _) _ _ k c ?_
  have h₁ := grows_visitField [[sw.id]] [sw.id] [] sw.condition s k c h
  have h₂ : ∀ sc : Scope, Has (if sw.staticSerializedLength < 0 then
      tracking sc itemContext (·.track [sw.id]) (visitField [[sw.id]] [sw.id] [] sw.condition s)
      else visitField [[sw.id]] [sw.id] [] sw.condition s).map k c := by
    intro sc
    split
    · exact (grows_track _).tracking _ _ _ k c h₁
    · exact h₁
  split
  · exact (grows_visit _ _ _).tracking _ _ _ k c (h₂ _)
  · exact h₂ _

theorem grows_visitItem (i : Item) : Grows (visitItem · i) := by
  cases i with
  | field f => exact grows_visitField _ _ _ _
  | switch sw => exact grows_visitSwitch sw
  | var v => exact grows_visitField _ _ _ _
  | property p => exact fun s k c h => h

theorem mem_of_length {attributes : List Attribute} {e : Expr}
    (h : (lookupAttribute attributes "length").bind (·.value) = some e) :
    ⟨"length", some e⟩ ∈ attributes := by
  obtain ⟨a, ha, hv⟩ := Option.bind_eq_some_iff.mp h
  have hkey : a.key = "length" := by simpa using List.find?_some ha
  have hmem := List.mem_of_find?_eq_some ha
  obtain ⟨k, v⟩ := a
  dsimp only at hkey hv
  subst hkey hv
  exact hmem

/-- The expressions whose members are recorded one by one: those that are built from members of
`self` with operators that the expression translator supports. -/
def simple : Expr → Bool
  | .constant _ | .type _ | .parserState _ => true
  | .unary _ a => simple a
  | .binary .attribute (.parserState (.self _)) (.memberAttribute _) => true
  | .binary k a b =>
    k ∈ [.cast, .plus, .minus, .equal, .less, .greater, .logicalAnd, .logicalOr] && simple a && simple b
  | .ternary .attributeAssign (.parserState (.self _)) (.memberAttribute _) e => simple e
  | .conditional a b d => simple a && simple b && simple d
  | .conditionalThen a b => simple a && simple b
  | _ => false

/-- A field with a length makes `__length` depend on the member that holds it. -/
theorem visitField_length {f : AtomicField} {u x : String} (h : f.length = some (.selfMember u x))
    (from_ : List Path) (dd : Path) (s : State) :
    Has (visitField from_ dd f.attributes f.condition s).map (lengthTrackingId, [x])
      {parsing, serializingUpdate} := by
  have hrec : ∀ s, Has (visitAttribute from_ dd s ⟨"length", some (.selfMember u x)⟩).map
      (lengthTrackingId, [x]) {parsing, serializingUpdate} := fun s =>
    tracking_selfMember s u x (by simp)
  have hattrs := foldl_has (grows_visitAttribute from_ dd) (mem_of_length h) hrec s
  cases hc : f.condition with
  | none => simpa only [visitField, hc] using hattrs
  | some e => exact (grows_visit _ _ _).tracking _ _ _ _ _ hattrs

variable {u : UnitType}

theorem run_has {i : Item} (hi : i ∈ u.items) {k : Path × Path} {c : Finset DependencyContext}
    (hrec : ∀ s, Has (visitItem s i).map k c) : Has (run u) k c :=
  foldl_has grows_visitItem hi hrec {}

theorem run_length {i : Item} (hi : i ∈ u.items) {f : AtomicField} (hf : f ∈ i.fields)
    {x : String} {w : String} (h : f.length = some (.selfMember w x)) :
    Has (run u) (lengthTrackingId, [x]) {parsing, serializingUpdate} := by
  refine run_has hi fun s => ?_
  cases i with
  | field g =>
    obtain rfl : f = g := by simpa [Item.fields] using hf
    exact visitField_length h _ _ s
  | switch sw =>
    have hcase : ∀ s, Has (visitCaseItem [sw.id] s f).map (lengthTrackingId, [x])
        {parsing, serializingUpdate} := fun s => visitField_length h _ _ _
    exact foldl_has (grows_visitCaseItem _) hf hcase _
  | var v => cases hf
  | property p => cases hf

end DependencyMapBuilder

/-! ## What the resolver finds -/

namespace InstantiationDependencyResolver

variable {map : List Edge} {items : List Path} {p q : Path} {c c' : Finset DependencyContext}

theorem next_targets (map : List Edge) (dep d : Dependency) (h : d ∈ next map dep) :
    d.key ∈ targets map := by
  obtain ⟨e, he, hd⟩ := List.mem_filterMap.mp h
  have hmem : e.key.2 ∈ targets map := List.mem_map_of_mem (List.mem_of_mem_filter he)
  split at hd
  · cases hd
    exact hmem
  · split at hd
    · cases hd
      exact hmem
    · cases hd

/-- The result is closed under the edges of the map. -/
theorem resolved_closed (hp : Has (resolved map items) p c) (he : Has map (p, q) c') :
    (application ∈ c → Has (resolved map items) q c') ∧
      (c ∩ c' ≠ ∅ → Has (resolved map items) q (c ∩ c')) := by
  obtain ⟨dep, hdep, rfl, hc⟩ := hp
  obtain ⟨e, he, hkey, hc'⟩ := he
  have hfilter : e ∈ map.filter (·.key.1 = dep.key) := by
    simpa [hkey] using he
  have hadded : ∀ d : Dependency, (if application ∈ dep.grade then some ⟨e.key.2, e.grade⟩
      else if dep.grade ∩ e.grade ≠ ∅ then some ⟨e.key.2, dep.grade ∩ e.grade⟩
      else none) = some d → Has (resolved map items) d.key d.grade := fun d hd =>
    saturate_closed (next_targets map) hdep (List.mem_filterMap.mpr ⟨e, hfilter, hd⟩)
  rw [hkey] at hadded
  by_cases happ : application ∈ dep.grade
  · have hq := hadded ⟨q, e.grade⟩ (by simp [happ])
    exact ⟨fun _ => hq.mono hc', fun _ => hq.mono (Finset.inter_subset_right.trans hc')⟩
  · refine ⟨fun h => absurd (hc h) happ, fun hne => ?_⟩
    have hsub : c ∩ c' ⊆ dep.grade ∩ e.grade := Finset.inter_subset_inter hc hc'
    have hne' : dep.grade ∩ e.grade ≠ ∅ := fun hempty =>
      hne (Finset.subset_empty.mp (hempty ▸ hsub))
    exact (hadded ⟨q, dep.grade ∩ e.grade⟩ (by simp [happ, hne'])).mono hsub

theorem resolved_length : Has (resolved map items) lengthTrackingId {parsing} :=
  Has.saturate ⟨_, List.mem_cons_self, rfl, subset_rfl⟩ _

theorem resolved_requested (h : p ∈ items) : Has (resolved map items) p {application} := by
  refine Has.saturate ⟨⟨p, {application}⟩, ?_, rfl, subset_rfl⟩ _
  exact List.mem_cons_of_mem _ (List.mem_map_of_mem h)

/-- Only the entry for `__length` is removed at the end. -/
theorem visit_has {u : UnitType} (h : Has (resolved (DependencyMapBuilder.run u) items) p c)
    (hp : p ≠ lengthTrackingId) : Has (visit u items) p c := by
  obtain ⟨dep, hdep, hkey, hc⟩ := h
  have hwithin : Within ((initial items).map (·.key)) (targets (DependencyMapBuilder.run u))
      (resolved (DependencyMapBuilder.run u) items) :=
    Within.saturate (next_targets _) ⟨[], by simp⟩ _
  obtain ⟨extra, hmap, -⟩ := hwithin
  refine ⟨dep, ?_, hkey, hc⟩
  unfold visit
  generalize resolved (DependencyMapBuilder.run u) items = l at hdep hmap
  cases l with
  | nil => cases hdep
  | cons d l =>
    rcases List.mem_cons.mp hdep with rfl | hdep
    · have : dep.key = lengthTrackingId := (List.cons.inj hmap).1
      exact absurd (hkey ▸ this) hp
    · exact hdep

/-- The contexts that an instantiation has to give to the items. -/
structure Closed (map : List Edge) (items : List Path) (A : Path → Finset DependencyContext) :
    Prop where
  length : parsing ∈ A lengthTrackingId
  requested : ∀ i ∈ items, application ∈ A i
  all : ∀ e ∈ map, application ∈ A e.key.1 → e.grade ⊆ A e.key.2
  shared : ∀ e ∈ map, application ∉ A e.key.1 → A e.key.1 ∩ e.grade ⊆ A e.key.2

theorem loop_resolved (map : List Edge) (items : List Path) :
    Loop (next map) (initial items) (resolved map items) :=
  loop_saturate (next_targets map) (initial items)

theorem mem_grades_items {k : Path} {c : DependencyContext} :
    c ∈ grades (items.map fun i => (⟨i, {application}⟩ : Dependency)) k ↔
      k ∈ items ∧ c = application := by
  rw [mem_grades]
  constructor
  · rintro ⟨g, hg, rfl, hc⟩
    obtain ⟨i, hi, rfl⟩ := List.mem_map.mp hg
    exact ⟨hi, Finset.mem_singleton.mp hc⟩
  · rintro ⟨hk, rfl⟩
    exact ⟨⟨k, {application}⟩, List.mem_map_of_mem hk, rfl, Finset.mem_singleton_self _⟩

theorem closed_resolved (map : List Edge) (items : List Path) :
    Closed map items (grades (resolved map items)) := by
  refine ⟨resolved_length.subset_grades (Finset.mem_singleton_self _),
    fun i hi => (resolved_requested hi).subset_grades (Finset.mem_singleton_self _),
    fun e he happ => ?_, fun e he _ c hc => ?_⟩
  · obtain ⟨g, hg, hkey, hmem⟩ := mem_grades.mp happ
    have hedge : Has map (g.key, e.key.2) e.grade := ⟨e, he, by rw [hkey], subset_rfl⟩
    exact ((resolved_closed ⟨g, hg, rfl, subset_rfl⟩ hedge).1 hmem).subset_grades
  · obtain ⟨hc, hce⟩ := Finset.mem_inter.mp hc
    obtain ⟨g, hg, hkey, hmem⟩ := mem_grades.mp hc
    have hedge : Has map (g.key, e.key.2) e.grade := ⟨e, he, by rw [hkey], subset_rfl⟩
    have hcommon : c ∈ g.grade ∩ e.grade := Finset.mem_inter.mpr ⟨hmem, hce⟩
    have hne : g.grade ∩ e.grade ≠ ∅ := Finset.ne_empty_of_mem hcommon
    exact ((resolved_closed ⟨g, hg, rfl, subset_rfl⟩ hedge).2 hne).subset_grades hcommon

theorem resolved_subset {A : Path → Finset DependencyContext} (hA : Closed map items A) (k : Path) :
    grades (resolved map items) k ⊆ A k := by
  refine (loop_resolved map items).least (fun k c hc => ?_) (fun g hg d hd => ?_) k
  · rw [initial, grades_cons] at hc
    split at hc
    · rename_i hk
      subst hk
      rcases Finset.mem_union.mp hc with hc | hc
      · rw [Finset.mem_singleton.mp hc]
        exact hA.length
      · obtain ⟨hk, rfl⟩ := mem_grades_items.mp hc
        exact hA.requested _ hk
    · obtain ⟨hk, rfl⟩ := mem_grades_items.mp hc
      exact hA.requested _ hk
  · obtain ⟨e, he, hd⟩ := List.mem_filterMap.mp hd
    obtain ⟨he, hkey⟩ := List.mem_filter.mp he
    rw [decide_eq_true_eq] at hkey
    -- an entry may lack the context `application` that another one of the same item has
    have hshared : g.grade ∩ e.grade ⊆ A e.key.2 := by
      by_cases happ : application ∈ A e.key.1
      · exact Finset.inter_subset_right.trans (hA.all e he happ)
      · refine subset_trans ?_ (hA.shared e he happ)
        exact Finset.inter_subset_inter_right (hkey ▸ hg)
    split at hd
    · rename_i happ
      cases hd
      exact hA.all e he (hkey ▸ hg happ)
    · split at hd
      · cases hd
        exact hshared
      · cases hd

/-- Only the first entry is removed at the end. Others of the same name are those requested. -/
theorem grades_tail_resolved (map : List Edge) (items : List Path) (k : Path) :
    grades (resolved map items).tail k = if k = lengthTrackingId then
      (if lengthTrackingId ∈ items then {application} else ∅) else grades (resolved map items) k := by
  obtain ⟨g, rest, hrest, hkey, hgrades⟩ := (loop_resolved map items).grades_tail
  rw [hrest, List.tail_cons]
  change g.key = lengthTrackingId at hkey
  split
  · rename_i hk
    subst hk
    rw [hgrades]
    ext c
    rw [mem_grades_items]
    split <;> simp_all
  · rename_i hk
    rw [grades_cons, if_neg (fun h => hk (h.symm.trans hkey))]

theorem Closed.perm {map' : List Edge} {items' : List Path} {A : Path → Finset DependencyContext}
    (h : Closed map items A) (hmap : map.Perm map') (hitems : items.Perm items') :
    Closed map' items' A where
  length := h.length
  requested i hi := h.requested i (hitems.mem_iff.mpr hi)
  all e he := h.all e (hmap.mem_iff.mpr he)
  shared e he := h.shared e (hmap.mem_iff.mpr he)

theorem grades_resolved_perm {map' : List Edge} {items' : List Path} (hmap : map.Perm map')
    (hitems : items.Perm items') : grades (resolved map items) = grades (resolved map' items') := by
  funext k
  refine Finset.Subset.antisymm (resolved_subset ?_ k) (resolved_subset ?_ k)
  · exact (closed_resolved map' items').perm hmap.symm hitems.symm
  · exact (closed_resolved map items).perm hmap hitems

/-- The loop ends, and the contexts it ends with are the least ones. They do not depend on the order
of the map and of the requested items. -/
theorem resolved_least (map : List Edge) (items : List Path) :
    Loop (next map) (initial items) (resolved map items) ∧
    IsLeast {A | Closed map items A} (grades (resolved map items)) ∧
    (∀ k, grades (resolved map items).tail k = if k = lengthTrackingId then
      (if lengthTrackingId ∈ items then {application} else ∅) else grades (resolved map items) k) ∧
    (∀ map' items', map.Perm map' → items.Perm items' →
      grades (resolved map' items') = grades (resolved map items) ∧
      grades (resolved map' items').tail = grades (resolved map items).tail) := by
  refine ⟨loop_resolved map items, ⟨closed_resolved map items, fun A hA k => resolved_subset hA k⟩,
    grades_tail_resolved map items, fun map' items' hmap hitems => ?_⟩
  have hgrades := grades_resolved_perm hmap hitems
  refine ⟨hgrades.symm, ?_⟩
  funext k
  rw [grades_tail_resolved, grades_tail_resolved, hgrades]
  simp only [hitems.mem_iff]

theorem resolved_least_cycle :
    let map : List Edge := [⟨(["key"], ["key_len"]), {parsing, serializingUpdate}⟩,
      ⟨(["key_len"], ["key"]), {serializing}⟩, ⟨(lengthTrackingId, ["key_len"]), {parsing}⟩]
    grades (resolved map.reverse [["key"]]) = grades (resolved map [["key"]]) ∧
      grades (resolved map [["key"]]) ["key_len"] = {parsing, serializingUpdate} :=
  ⟨((resolved_least _ _).2.2.2 _ _ (List.reverse_perm _).symm (List.Perm.refl _)).1,
    by decide⟩

end InstantiationDependencyResolver

theorem mem_dependencyContextFor {deps : List Dependency} {id : Path} {c : DependencyContext} :
    c ∈ dependencyContextFor deps id ↔ ∃ d ∈ deps, d.key <+: id ∧ c ∈ d.grade := by
  suffices ∀ c₀, c ∈ deps.foldl (fun c dep => if dep.key <+: id then c ∪ dep.grade else c) c₀ ↔
      c ∈ c₀ ∨ ∃ d ∈ deps, d.key <+: id ∧ c ∈ d.grade by
    simpa [dependencyContextFor] using this ∅
  induction deps with
  | nil => simp
  | cons d deps ih =>
    intro c₀
    rw [List.foldl_cons, ih]
    split_ifs with hpath
    · simp [hpath, or_assoc]
    · simp [hpath]

theorem dependencyContextFor_has {deps : List Dependency} {p : Path}
    {c : Finset DependencyContext} (h : Has deps p c) : c ⊆ dependencyContextFor deps p := by
  obtain ⟨dep, hdep, rfl, hc⟩ := h
  exact fun b hb => mem_dependencyContextFor.mpr ⟨dep, hdep, List.prefix_rfl, hc hb⟩

end Diffingo.Generation
