import Diffingo.Library.Recursion
import Diffingo.Generation.Dependencies

/-!
# Recursive units

The static length of a unit and its dependency map are computed by following the units embedded in
it, and no record is kept of the units that have been entered. Here both recursions are run with
fuel for the nesting of units, and have no result if it is used up. Loops leave off where the source
returns.
-/

namespace Diffingo.Ast

open Spec Generation DependencyContext Recursion
open Generation.DependencyMapBuilder (tracking itemContext)

/-- The items of the unit with the given name. -/
def itemsOf {σ : Type} (units : List (UnitType σ)) (id : String) : List (Item σ) :=
  ((units.find? fun u => u.id = id).map (·.items)).getD []

/-! ## Static lengths -/

section Static

variable {σ : Type} (sizes : Sizes) (ask : String → Option Int)

def Ty.staticSerializedLength? : Ty → Option Int
  | .atomic t => some t.staticSerializedLength
  | .unit id => ask id
  | .tupleNil => some 0
  | .tupleCons t ts => do
    let len ← t.staticSerializedLength?
    if len < 0 then some (-1)
    else
      let rest ← ts.staticSerializedLength?
      some (if rest < 0 then -1 else len + rest)
  | .bitfield w => some w
  | .list _ | .map _ _ | .set _ | .vector _ | .bitset _ | .sink | .anonymousEnum _ => some (-1)

def FieldConstant.staticSerializedLength? (type : Ty) : FieldConstant σ → Option Int
  | .simple (.string s) => some s.utf8ByteSize
  | .simple _ => type.staticSerializedLength? ask
  | .tuple es => some ((FieldConstant.tuple es).toExpr.staticSerializedLength sizes)

def FieldInfo.staticSerializedLength? (i : FieldInfo σ) : Option Int := do
  let typeLen ← ((i.serializedType.or i.type).map (·.staticSerializedLength? ask)).getD (some (-1))
  if typeLen ≥ 0 then some typeLen
  else
    match i.length with
    | some (.constant (.integer n)) => some n
    | _ => some (-1)

def Field.staticSerializedLength? : Field σ → Option Int
  | .atomic i => i.staticSerializedLength? ask
  | .constant _ c t => c.staticSerializedLength? sizes ask t
  | .unit i _ => (i.type.map (·.staticSerializedLength? ask)).getD (some (-1))
  | .vector _ (.constant (.integer n)) c => do
    let len ← c.staticSerializedLength?
    some (if len ≥ 0 then n * len else -1)
  | .vector _ _ _ | .ctor _ _ | .unknown _ _ _ | .list _ _ => some (-1)

end Static

section Loops

variable {σ : Type} (field : Field σ → Option Int)

/-- The fields of a case; `none` inside stands for the early return. -/
def caseLength? : List (Field σ) → Option (Option Int)
  | [] => some (some 0)
  | f :: fs => do
    let len ← field f
    if len < 0 then some none else (caseLength? fs).map (·.map (len + ·))

/-- The loop of `Switch::static_serialized_length`. -/
def staticLengthLoop? : Option Int → List (Case σ) → Option Int
  | lastLen, [] => some (lastLen.getD 0)
  | lastLen, c :: cs => do
    match ← caseLength? field c.items, lastLen with
    | none, _ => some (-1)
    | some n, none => staticLengthLoop? (some (CInteger.IntTy.int.wrap n)) cs
    | some n, some last =>
      if last ≠ n then some (-1) else staticLengthLoop? (some (CInteger.IntTy.int.wrap n)) cs

/-- The loop of `type::unit::Unit::static_serialized_length`. -/
def unitLengthLoop? : Int → List (Item σ) → Option Int
  | len, [] => some len
  | len, .field f :: is => do
    let n ← field f
    if n < 0 then some (-1) else unitLengthLoop? (len + n) is
  | len, .switch s :: is => do
    let n ← staticLengthLoop? field none s.cases
    if n < 0 then some (-1) else unitLengthLoop? (len + n) is
  | len, .var _ :: is | len, .property _ _ :: is => unitLengthLoop? len is

end Loops

def Switch.staticSerializedLength? {σ : Type} (sizes : Sizes) (ask : String → Option Int)
    (s : Switch σ) : Option Int :=
  staticLengthLoop? (·.staticSerializedLength? sizes ask) none s.cases

/-- `static_serialized_length` of a declared unit. -/
def staticUnit? (sizes : Sizes) (units : List (UnitType StateKind)) : Nat → String → Option Int
  | 0, _ => none
  | fuel + 1, id =>
    unitLengthLoop? (·.staticSerializedLength? sizes (staticUnit? sizes units fuel)) 0
      (itemsOf units id)

/-! ## The dependency map -/

namespace DependencyMapBuilder

section Visit

variable (len : Switch StateKind → Option Int)
variable (embedded : String → Path → Walk → Option Walk) (unit : Path)

def visitField? : Field StateKind → Walk → Option Walk
  | .atomic i, w | .constant i _ _, w | .ctor i _, w | .unknown i _ _, w =>
    some (visitInfo unit w i.attributes i.condition)
  | .unit i ps, w =>
    let w := ps.foldl (·.trackExpr unit itemContext ·) (visitInfo unit w i.attributes i.condition)
    match i.type with
    | some (.unit id) => embedded id w.dollarDollar w
    | _ => some w
  | .vector i n c, w =>
    let w := (visitInfo unit w i.attributes i.condition).trackLength unit n
    visitField? c w.element
  | .list i c, w => visitField? c (visitInfo unit w i.attributes i.condition).element

def visitCaseItem? (switchId : Path) (w : Walk) (f : Field StateKind) : Option Walk :=
  let path := unit ++ [f.info.id]
  visitField? embedded unit f
    { state := { w.state with map := Saturation.add (path, switchId) itemContext w.state.map }
      from_ := [path]
      dollarDollar := path }

/-- `visit(Switch)`; `len` gives the static length. -/
def visitSwitch? (s : Switch StateKind) (w : Walk) : Option Walk := do
  let id := w.dollarDollar
  let w := visitInfo unit w [] s.condition
  let n ← len s
  let w := if n < 0 then
      let w := { w with from_ := w.from_ ++ [lengthTrackingId] }
      { w with state := tracking w.scope itemContext (·.track id) w.state }
    else w
  let w := s.expression.toList.foldl (·.trackExpr unit itemContext ·) w
  (s.cases.flatMap (·.items)).foldlM (visitCaseItem? embedded unit id) w

def visitItem? : Item StateKind → Walk → Option Walk
  | .field f, w => visitField? embedded unit f w
  | .switch s, w => visitSwitch? len embedded unit s w
  | .var v, w => some (visitInfo unit w v.attributes none)
  | .property _ _, w => some w

def visitNext? (w : Walk) (i : Item StateKind) : Option Walk := do
  let path := unit ++ [i.id]
  let w ← visitItem? len embedded unit i
    { w with dollarDollar := path, from_ := w.from_ ++ [path] }
  some { w with from_ := [] }

end Visit

def visitUnit? (len : Nat → Switch StateKind → Option Int) (units : List (UnitType StateKind)) :
    Nat → Path → List (Item StateKind) → Walk → Option Walk
  | 0, _, _, _ => none
  | fuel + 1, unit, items, w =>
    items.foldlM (visitNext? (len fuel)
      (fun id p w => visitUnit? len units fuel p (itemsOf units id) w) unit) w

/-- The static length of a switch, as far as the fuel goes. -/
def switchLength (sizes : Sizes) (units : List (UnitType StateKind)) (fuel : Nat)
    (s : Switch StateKind) : Option Int :=
  s.staticSerializedLength? sizes (staticUnit? sizes units fuel)

/-- `DependencyMapBuilder::run`. -/
def run? (sizes : Sizes) (units : List (UnitType StateKind)) (fuel : Nat) (u : UnitType StateKind) :
    Option (List Edge) :=
  (visitUnit? (switchLength sizes units) units fuel [] u.items {}).map (·.state.map)

end DependencyMapBuilder

/-! ## Results agree with the total functions -/

section Agrees

variable {σ : Type} {sizes : Sizes} {ask : String → Option Int} {n : Int}

/-- The answers are the lengths that `sizes` has. -/
def Agrees (sizes : Sizes) (ask : String → Option Int) : Prop :=
  ∀ id n, ask id = some n → n = sizes.staticUnit id

theorem Agrees.ty (h : Agrees sizes ask) {t : Ty} (ht : t.staticSerializedLength? ask = some n) :
    n = t.staticSerializedLength sizes := by
  induction t generalizing n with
  | unit id => exact h id n ht
  | tupleCons t ts iht ihts =>
    obtain ⟨len, hlen, hrest⟩ := Option.bind_eq_some_iff.mp ht
    obtain rfl := iht hlen
    rw [Ty.staticSerializedLength]
    split_ifs at hrest with hneg
    · cases hrest
      simp [hneg]
    · obtain ⟨rest, hts, hn⟩ := Option.bind_eq_some_iff.mp hrest
      obtain rfl := ihts hts
      cases hn
      simp [hneg]
  | _ =>
    cases ht
    rfl

theorem Agrees.type (h : Agrees sizes ask) {t : Option Ty}
    (ht : (t.map (·.staticSerializedLength? ask)).getD (some (-1)) = some n) :
    n = (t.map (·.staticSerializedLength sizes)).getD (-1) := by
  cases t with
  | none =>
    cases ht
    rfl
  | some t => exact h.ty ht

theorem Agrees.info (h : Agrees sizes ask) {i : FieldInfo σ}
    (hi : i.staticSerializedLength? ask = some n) : n = i.staticSerializedLength sizes := by
  obtain ⟨len, hlen, hn⟩ := Option.bind_eq_some_iff.mp hi
  obtain rfl := h.type hlen
  unfold FieldInfo.staticSerializedLength
  dsimp only
  split_ifs at hn ⊢
  · exact (Option.some.inj hn).symm
  · split at hn <;> simp_all

theorem Agrees.constant (h : Agrees sizes ask) {type : Ty} {c : FieldConstant σ}
    (hc : c.staticSerializedLength? sizes ask type = some n) :
    n = c.staticSerializedLength sizes type := by
  cases c with
  | tuple es => exact (Option.some.inj hc).symm
  | simple c =>
    cases c with
    | string s => exact (Option.some.inj hc).symm
    | _ => exact h.ty hc

theorem Agrees.field (h : Agrees sizes ask) {f : Field σ}
    (hf : f.staticSerializedLength? sizes ask = some n) : n = f.staticSerializedLength sizes := by
  induction f generalizing n with
  | atomic i => exact h.info hf
  | constant i c t => exact h.constant hf
  | unit i ps => exact h.type hf
  | vector i len c ih =>
    cases len with
    | constant k =>
      cases k with
      | integer k =>
        obtain ⟨len, hlen, hn⟩ := Option.bind_eq_some_iff.mp hf
        obtain rfl := ih hlen
        exact (Option.some.inj hn).symm
      | _ =>
        cases hf
        rfl
    | _ =>
      cases hf
      rfl
  | _ =>
    cases hf
    rfl

variable {field : Field σ → Option Int}

theorem eq_caseLength (h : ∀ f n, field f = some n → n = f.staticSerializedLength sizes)
    {fs : List (Field σ)} {r : Option Int} (hr : caseLength? field fs = some r) :
    r = caseLength sizes fs := by
  induction fs generalizing r with
  | nil => exact (Option.some.inj hr).symm
  | cons f fs ih =>
    obtain ⟨len, hlen, hrest⟩ := Option.bind_eq_some_iff.mp hr
    obtain rfl := h f len hlen
    rw [caseLength]
    split_ifs at hrest ⊢
    · exact (Option.some.inj hrest).symm
    · obtain ⟨q, hq, rfl⟩ := Option.map_eq_some_iff.mp hrest
      rw [ih hq]

theorem eq_staticLengthLoop (h : ∀ f n, field f = some n → n = f.staticSerializedLength sizes)
    {cs : List (Case σ)} {last : Option Int} (hn : staticLengthLoop? field last cs = some n) :
    n = staticLengthLoop sizes last cs := by
  induction cs generalizing last with
  | nil => exact (Option.some.inj hn).symm
  | cons c cs ih =>
    obtain ⟨q, hq, hn⟩ := Option.bind_eq_some_iff.mp hn
    obtain rfl := eq_caseLength h hq
    unfold staticLengthLoop
    cases hcase : caseLength sizes c.items with
    | none =>
      rw [hcase] at hn
      exact (Option.some.inj hn).symm
    | some m =>
      rw [hcase] at hn
      cases last with
      | none => exact ih hn
      | some k =>
        dsimp only at hn ⊢
        split_ifs at hn ⊢
        · exact (Option.some.inj hn).symm
        · exact ih hn

end Agrees

namespace DependencyMapBuilder

section Visit

variable {sizes : Sizes} {len : Switch StateKind → Option Int} {unit : Path} {w w' : Walk}
variable {embedded? : String → Path → Walk → Option Walk} {embedded : String → Path → Walk → Walk}

theorem visitField?_eq (he : ∀ id p w w', embedded? id p w = some w' → embedded id p w = w')
    {f : Field StateKind} (h : visitField? embedded? unit f w = some w') :
    visitField embedded unit f w = w' := by
  induction f generalizing w with
  | unit i ps =>
    unfold visitField? at h
    unfold visitField
    dsimp only at h ⊢
    cases hty : i.type with
    | none =>
      rw [hty] at h
      exact Option.some.inj h
    | some t =>
      rw [hty] at h
      cases t with
      | unit id => exact he id _ _ _ h
      | _ => exact Option.some.inj h
  | vector i n c ih => exact ih h
  | list i c ih => exact ih h
  | _ => exact Option.some.inj h

theorem foldlM_eq {α : Type} {f : Walk → α → Option Walk} {g : Walk → α → Walk}
    (hfg : ∀ w a w', f w a = some w' → g w a = w') {l : List α}
    (h : l.foldlM f w = some w') : l.foldl g w = w' := by
  induction l generalizing w with
  | nil => exact Option.some.inj h
  | cons a l ih =>
    obtain ⟨w₁, ha, hl⟩ := Option.bind_eq_some_iff.mp h
    rw [List.foldl_cons, hfg w a w₁ ha]
    exact ih hl

theorem visitNext?_eq (hlen : ∀ s n, len s = some n → n = s.staticSerializedLength sizes)
    (he : ∀ id p w w', embedded? id p w = some w' → embedded id p w = w') {i : Item StateKind}
    (h : visitNext? len embedded? unit w i = some w') :
    visitNext sizes embedded unit w i = w' := by
  obtain ⟨w₁, hitem, hw⟩ := Option.bind_eq_some_iff.mp h
  suffices hvisit : visitItem sizes embedded unit i
      { w with dollarDollar := unit ++ [i.id], from_ := w.from_ ++ [unit ++ [i.id]] } = w₁ by
    rw [visitNext, hvisit]
    exact Option.some.inj hw
  cases i with
  | field f => exact visitField?_eq he hitem
  | var v => exact Option.some.inj hitem
  | property a p => exact Option.some.inj hitem
  | switch s =>
    obtain ⟨n, hn, hcases⟩ := Option.bind_eq_some_iff.mp hitem
    obtain rfl := hlen s n hn
    exact foldlM_eq (fun w f w' h => visitField?_eq he h) hcases

/-- What the recursion finds is the dependency map for the static lengths that it finds. -/
theorem run?_eq {units : List (UnitType StateKind)} {u : UnitType StateKind} {fuel : Nat}
    {map : List Edge} (hsizes : ∀ n, Agrees sizes (staticUnit? sizes units n))
    (h : run? sizes units (fuel + 1) u = some map) : run sizes (itemsOf units) fuel u = map := by
  have hlen : ∀ fuel s n, switchLength sizes units fuel s = some n →
      n = s.staticSerializedLength sizes := fun fuel s n hn =>
    eq_staticLengthLoop (fun f n hf => (hsizes fuel).field hf) hn
  have hvisit : ∀ fuel path items w w',
      visitUnit? (switchLength sizes units) units fuel path items w = some w' →
      visitUnit sizes (itemsOf units) fuel path items w = w' := by
    intro fuel
    induction fuel with
    | zero => intro _ _ _ _ h; cases h
    | succ fuel ih =>
      intro path items w w' h
      exact foldlM_eq
        (fun w i w' h => visitNext?_eq (hlen fuel) (fun _ _ _ _ h => ih _ _ _ _ h) h) h
  obtain ⟨w, hw, rfl⟩ := Option.map_eq_some_iff.mp h
  rw [run, hvisit _ _ _ _ _ hw]

end Visit

end DependencyMapBuilder

/-! ## When the recursions come to an end -/

section Names

variable {σ : Type}

/-- The units whose static length a type asks for. -/
def Ty.unitNames : Ty → List String
  | .unit id => [id]
  | .tupleCons t ts => t.unitNames ++ ts.unitNames
  | _ => []

/-- The units whose static length a field asks for. -/
def Field.asked : Field σ → List String
  | .atomic i => (i.serializedType.or i.type).toList.flatMap Ty.unitNames
  | .constant _ _ t => t.unitNames
  | .unit i _ => i.type.toList.flatMap Ty.unitNames
  | .vector _ _ c => c.asked
  | .ctor _ _ | .unknown _ _ _ | .list _ _ => []

/-- The units that the dependency map of a field enters. -/
def Field.embedded : Field σ → List String
  | .unit i _ =>
    match i.type with
    | some (.unit id) => [id]
    | _ => []
  | .vector _ _ c | .list _ c => c.embedded
  | _ => []

/-- The field itself, or the fields in the cases of a switch. -/
def Item.fields : Item σ → List (Field σ)
  | .field f => [f]
  | .switch s => s.cases.flatMap (·.items)
  | .var _ | .property _ _ => []

def Item.asked (i : Item σ) : List String := i.fields.flatMap Field.asked

def Item.embedded (i : Item σ) : List String := i.fields.flatMap Field.embedded

end Names

/-- A unit has a field of the other unit, possibly in a list, a vector or a switch. -/
def Embeds (units : List (UnitType StateKind)) (a b : String) : Prop :=
  b ∈ (itemsOf units a).flatMap Item.embedded

/-- The static length of a unit depends on that of the other. -/
def Asks (units : List (UnitType StateKind)) (a b : String) : Prop :=
  b ∈ (itemsOf units a).flatMap Item.asked

section Returns

variable {σ : Type} {sizes : Sizes} {ask : String → Option Int}

theorem isSome_ty {t : Ty} (h : ∀ id ∈ t.unitNames, (ask id).isSome) :
    (t.staticSerializedLength? ask).isSome := by
  induction t with
  | unit id => exact h id (by simp [Ty.unitNames])
  | tupleCons t ts iht ihts =>
    obtain ⟨len, hlen⟩ := Option.isSome_iff_exists.mp
      (iht fun id hid => h id (by simp [Ty.unitNames, hid]))
    obtain ⟨rest, hrest⟩ := Option.isSome_iff_exists.mp
      (ihts fun id hid => h id (by simp [Ty.unitNames, hid]))
    rw [Ty.staticSerializedLength?, hlen, hrest]
    dsimp only [bind, Option.bind]
    split_ifs <;> rfl
  | _ => rfl

theorem isSome_type {t : Option Ty} (h : ∀ id ∈ t.toList.flatMap Ty.unitNames, (ask id).isSome) :
    ((t.map (·.staticSerializedLength? ask)).getD (some (-1))).isSome := by
  cases t with
  | none => rfl
  | some t => exact isSome_ty fun id hid => h id (by simpa using hid)

theorem isSome_field {f : Field σ} (h : ∀ id ∈ f.asked, (ask id).isSome) :
    (f.staticSerializedLength? sizes ask).isSome := by
  induction f with
  | atomic i =>
    obtain ⟨len, hlen⟩ := Option.isSome_iff_exists.mp (isSome_type h)
    rw [Field.staticSerializedLength?, FieldInfo.staticSerializedLength?, hlen]
    dsimp only [bind, Option.bind]
    split_ifs
    · rfl
    · split <;> rfl
  | constant i c t =>
    cases c with
    | tuple es => rfl
    | simple c =>
      cases c with
      | string s => rfl
      | _ => exact isSome_ty h
  | unit i ps => exact isSome_type h
  | vector i len c ih =>
    obtain ⟨m, hm⟩ := Option.isSome_iff_exists.mp (ih h)
    unfold Field.staticSerializedLength?
    split <;> simp_all
  | _ => rfl

variable {field : Field σ → Option Int}

theorem isSome_case {fs : List (Field σ)} (h : ∀ f ∈ fs, (field f).isSome) :
    (caseLength? field fs).isSome := by
  induction fs with
  | nil => rfl
  | cons f fs ih =>
    obtain ⟨len, hlen⟩ := Option.isSome_iff_exists.mp (h f (by simp))
    obtain ⟨r, hr⟩ := Option.isSome_iff_exists.mp (ih fun g hg => h g (by simp [hg]))
    rw [caseLength?, hlen, hr]
    dsimp only [bind, Option.bind]
    split_ifs <;> rfl

theorem isSome_loop {cs : List (Case σ)} {last : Option Int}
    (h : ∀ f ∈ cs.flatMap (·.items), (field f).isSome) :
    (staticLengthLoop? field last cs).isSome := by
  induction cs generalizing last with
  | nil => rfl
  | cons c cs ih =>
    rw [List.flatMap_cons] at h
    have hc : (caseLength? field c.items).isSome :=
      isSome_case fun f hf => h f (List.mem_append_left _ hf)
    obtain ⟨r, hr⟩ := Option.isSome_iff_exists.mp hc
    have hrest : ∀ last, (staticLengthLoop? field last cs).isSome := fun last =>
      ih fun f hf => h f (List.mem_append_right _ hf)
    rw [staticLengthLoop?, hr]
    dsimp only [bind, Option.bind]
    split
    · rfl
    · exact hrest _
    · split_ifs
      · rfl
      · exact hrest _

theorem isSome_unit {is : List (Item σ)} {len : Int}
    (h : ∀ i ∈ is, ∀ f ∈ i.fields, (field f).isSome) : (unitLengthLoop? field len is).isSome := by
  induction is generalizing len with
  | nil => rfl
  | cons i is ih =>
    have hi := h i (by simp)
    have hrest : ∀ len, (unitLengthLoop? field len is).isSome := fun len =>
      ih fun j hj => h j (by simp [hj])
    cases i with
    | field f =>
      obtain ⟨n, hn⟩ := Option.isSome_iff_exists.mp (hi f (by simp [Item.fields]))
      rw [unitLengthLoop?, hn]
      dsimp only [bind, Option.bind]
      split_ifs
      · rfl
      · exact hrest _
    | switch s =>
      have hs : (staticLengthLoop? field none s.cases).isSome := isSome_loop hi
      obtain ⟨n, hn⟩ := Option.isSome_iff_exists.mp hs
      rw [unitLengthLoop?, hn]
      dsimp only [bind, Option.bind]
      split_ifs
      · rfl
      · exact hrest _
    | var v => exact hrest len
    | property a p => exact hrest len

end Returns

namespace DependencyMapBuilder

section Visit

variable {len : Switch StateKind → Option Int} {unit : Path} {w : Walk}
variable {embedded : String → Path → Walk → Option Walk} {i : Item StateKind} {f : Field StateKind}

theorem isSome_visitField (h : ∀ id ∈ f.embedded, ∀ p w, (embedded id p w).isSome) :
    (visitField? embedded unit f w).isSome := by
  induction f generalizing w with
  | unit i ps =>
    unfold visitField?
    dsimp only
    split
    · next id hid => exact h id (by simp [Field.embedded, hid]) _ _
    · rfl
  | vector i n c ih => exact ih h
  | list i c ih => exact ih h
  | _ => rfl

theorem exists_of_isSome_visitField (h : (visitField? embedded unit f w).isSome) {id : String}
    (hid : id ∈ f.embedded) : ∃ p w, (embedded id p w).isSome := by
  induction f generalizing w with
  | unit i ps =>
    unfold visitField? at h
    dsimp only at h
    simp only [Field.embedded] at hid
    split at h
    · next id' hid' =>
      obtain rfl : id = id' := by simpa [hid'] using hid
      exact ⟨_, _, h⟩
    · next hno =>
      split at hid
      · next id' hid' => exact absurd hid' (hno id')
      · cases hid
  | vector i n c ih => exact ih h hid
  | list i c ih => exact ih h hid
  | _ => cases hid

theorem isSome_visitNext (hlen : ∀ s, i = .switch s → (len s).isSome)
    (h : ∀ id ∈ i.embedded, ∀ p w, (embedded id p w).isSome) :
    (visitNext? len embedded unit w i).isSome := by
  suffices hitem : ∀ w, (visitItem? len embedded unit i w).isSome by
    obtain ⟨w', hw⟩ := Option.isSome_iff_exists.mp (hitem _)
    rw [visitNext?, hw]
    rfl
  intro w
  cases i with
  | field f =>
    exact isSome_visitField fun id hid => h id (by simpa [Item.embedded, Item.fields] using hid)
  | var v => rfl
  | property a p => rfl
  | switch s =>
    obtain ⟨n, hn⟩ := Option.isSome_iff_exists.mp (hlen s rfl)
    rw [visitItem?, visitSwitch?, hn]
    refine isSome_foldlM fun f hf w => isSome_visitField fun id hid => h id ?_
    exact List.mem_flatMap.mpr ⟨f, hf, hid⟩

theorem exists_of_isSome_visitNext (h : (visitNext? len embedded unit w i).isSome)
    {id : String} (hid : id ∈ i.embedded) : ∃ p w, (embedded id p w).isSome := by
  have hitem : ∃ w, (visitItem? len embedded unit i w).isSome := by
    obtain ⟨w', hw⟩ := Option.isSome_iff_exists.mp h
    obtain ⟨w₁, hw₁, -⟩ := Option.bind_eq_some_iff.mp hw
    exact ⟨_, by rw [hw₁]; rfl⟩
  obtain ⟨w, hw⟩ := hitem
  cases i with
  | field f =>
    exact exists_of_isSome_visitField hw (by simpa [Item.embedded, Item.fields] using hid)
  | var v => cases hid
  | property a p => cases hid
  | switch s =>
    obtain ⟨f, hf, hid⟩ := List.mem_flatMap.mp hid
    obtain ⟨w', hw⟩ := Option.isSome_iff_exists.mp hw
    obtain ⟨n, -, hcases⟩ := Option.bind_eq_some_iff.mp hw
    obtain ⟨w₁, hw₁⟩ := exists_of_isSome_foldlM (Option.isSome_of_eq_some hcases) hf
    exact exists_of_isSome_visitField hw₁ hid

end Visit

end DependencyMapBuilder

section Module

variable {sizes : Sizes} {units : List (UnitType StateKind)}

open DependencyMapBuilder

theorem mem_of_itemsOf {σ : Type} {units : List (UnitType σ)} {id : String} {i : Item σ}
    (h : i ∈ itemsOf units id) : ∃ u ∈ units, u.id = id ∧ itemsOf units id = u.items := by
  cases hfind : units.find? fun u => u.id = id with
  | none => simp [itemsOf, hfind] at h
  | some u =>
    have hid := List.find?_some hfind
    exact ⟨u, List.mem_of_find?_eq_some hfind, by simpa using hid, by simp [itemsOf, hfind]⟩

theorem staticUnit?_returns {id : String} (h : Acc (fun b a => Asks units a b) id) :
    ∃ n, ∀ m, n ≤ m → (staticUnit? sizes units m id).isSome := by
  induction h with
  | intro id _ ih =>
    obtain ⟨n, hn⟩ := exists_bound ih
    refine ⟨n + 1, fun m hm => ?_⟩
    obtain ⟨m, rfl⟩ : ∃ k, m = k + 1 := ⟨m - 1, by omega⟩
    refine isSome_unit fun i hi f hf => isSome_field fun id hid => hn m (by omega) id ?_
    exact List.mem_flatMap.mpr ⟨i, hi, List.mem_flatMap.mpr ⟨f, hf, hid⟩⟩

section Visit

variable {len : Nat → Switch StateKind → Option Int}

theorem visitUnit?_returns_of {items : List (Item StateKind)}
    (hlen : ∀ s, .switch s ∈ items → ∃ n, ∀ m, n ≤ m → (len m s).isSome)
    (h : ∀ id ∈ items.flatMap Item.embedded, ∃ n, ∀ m, n ≤ m →
      ∀ p w, (visitUnit? len units m p (itemsOf units id) w).isSome) :
    ∃ n, ∀ m, n ≤ m → ∀ p w, (visitUnit? len units m p items w).isSome := by
  have hswitch : ∀ i ∈ items, ∃ n, ∀ m, n ≤ m → ∀ s, i = .switch s → (len m s).isSome := by
    intro i hi
    cases i with
    | switch s =>
      obtain ⟨n, hn⟩ := hlen s hi
      refine ⟨n, fun m hm t ht => ?_⟩
      cases ht
      exact hn m hm
    | _ => exact ⟨0, fun _ _ _ h => nomatch h⟩
  obtain ⟨a, ha⟩ := exists_bound hswitch
  obtain ⟨b, hb⟩ := exists_bound h
  refine ⟨max a b + 1, fun m hm p w => ?_⟩
  obtain ⟨m, rfl⟩ : ∃ k, m = k + 1 := ⟨m - 1, by omega⟩
  refine isSome_foldlM fun i hi w => isSome_visitNext (ha m (by omega) i hi) fun id hid => ?_
  exact hb m (by omega) id (List.mem_flatMap.mpr ⟨i, hi, hid⟩)

/-- Every unit that a finished recursion has entered is at the end of no infinite descent. -/
theorem acc_of_isSome_visitUnit {fuel : Nat} {p : Path} {items : List (Item StateKind)} {w : Walk}
    (h : (visitUnit? len units fuel p items w).isSome) {id : String}
    (hid : id ∈ items.flatMap Item.embedded) : Acc (fun b a => Embeds units a b) id := by
  induction fuel generalizing p items w id with
  | zero => cases h
  | succ fuel ih =>
    obtain ⟨i, hi, hid⟩ := List.mem_flatMap.mp hid
    obtain ⟨w', hw⟩ := exists_of_isSome_foldlM h hi
    obtain ⟨p', w₁, hvisit⟩ := exists_of_isSome_visitNext hw hid
    exact ⟨id, fun b hb => ih hvisit hb⟩

end Visit

theorem switchLength_returns {s : Switch StateKind}
    (h : ∀ id, ∃ n, ∀ m, n ≤ m → (staticUnit? sizes units m id).isSome) :
    ∃ n, ∀ m, n ≤ m → (switchLength sizes units m s).isSome := by
  obtain ⟨n, hn⟩ :=
    exists_bound (l := (s.cases.flatMap (·.items)).flatMap Field.asked) fun id _ => h id
  refine ⟨n, fun m hm => isSome_loop fun f hf => isSome_field fun id hid => hn m hm id ?_⟩
  exact List.mem_flatMap.mpr ⟨f, hf, hid⟩

/-- Building dependencies and computing static lengths comes to an end everywhere in a module. -/
structure Returns (sizes : Sizes) (units : List (UnitType StateKind)) : Prop where
  run : ∀ u ∈ units, ∃ fuel, (run? sizes units fuel u).isSome
  unit : ∀ id, ∃ fuel, (staticUnit? sizes units fuel id).isSome
  field : ∀ f : Field StateKind, ∃ fuel,
    (f.staticSerializedLength? sizes (staticUnit? sizes units fuel)).isSome
  switch : ∀ s : Switch StateKind, ∃ fuel,
    (s.staticSerializedLength? sizes (staticUnit? sizes units fuel)).isSome

theorem returns_of_acyclic (h : Acyclic fun a b => Embeds units a b ∨ Asks units a b) :
    Returns sizes units := by
  have hwf : WellFounded fun b a => Embeds units a b ∨ Asks units a b := by
    refine @Acyclic.wellFounded _ _ h (units.map (·.id)) fun a b hab => ?_
    obtain ⟨i, hi⟩ : ∃ i, i ∈ itemsOf units a := by
      rcases hab with hab | hab <;> obtain ⟨i, hi, -⟩ := List.mem_flatMap.mp hab <;> exact ⟨i, hi⟩
    obtain ⟨u, hu, rfl, -⟩ := mem_of_itemsOf hi
    exact List.mem_map_of_mem hu
  have hstatic : ∀ id, ∃ n, ∀ m, n ≤ m → (staticUnit? sizes units m id).isSome := fun id =>
    staticUnit?_returns (Subrelation.accessible (fun hba => .inr hba) (hwf.apply id))
  have hvisit : ∀ id, ∃ n, ∀ m, n ≤ m →
      ∀ p w, (visitUnit? (switchLength sizes units) units m p (itemsOf units id) w).isSome := by
    intro id
    induction id using hwf.induction with
    | _ id ih =>
      exact visitUnit?_returns_of (fun _ _ => switchLength_returns hstatic) fun b hb =>
        ih b (.inl hb)
  refine ⟨fun u hu => ?_, fun id => ?_, fun f => ?_, fun s => ?_⟩
  · have hu : ∃ n, ∀ m, n ≤ m →
        ∀ p w, (visitUnit? (switchLength sizes units) units m p u.items w).isSome :=
      visitUnit?_returns_of (fun _ _ => switchLength_returns hstatic) fun b _ => hvisit b
    obtain ⟨n, hn⟩ := hu
    exact ⟨n, by simpa [run?] using hn n le_rfl [] {}⟩
  · obtain ⟨n, hn⟩ := hstatic id
    exact ⟨n, hn n le_rfl⟩
  · obtain ⟨n, hn⟩ := exists_bound (l := f.asked) fun id _ => hstatic id
    exact ⟨n, isSome_field (hn n le_rfl)⟩
  · obtain ⟨n, hn⟩ := @switchLength_returns sizes units s hstatic
    exact ⟨n, hn n le_rfl⟩

theorem acyclic_of_returns (h : Returns sizes units) : Acyclic (Embeds units) := by
  refine Acyclic.of_wellFounded ⟨fun a => ⟨a, fun b hab => ?_⟩⟩
  obtain ⟨i, hi, -⟩ := List.mem_flatMap.mp hab
  obtain ⟨u, hu, -, hitems⟩ := mem_of_itemsOf hi
  obtain ⟨fuel, hrun⟩ := h.run u hu
  have hvisit : (visitUnit? (switchLength sizes units) units fuel [] u.items {}).isSome := by
    simpa [run?] using hrun
  exact acc_of_isSome_visitUnit hvisit (hitems ▸ hab)

end Module

open DependencyMapBuilder

/-- A record that ends with a list of records. -/
def chain : UnitType StateKind where
  id := "Chain"
  items := [
    .field (.atomic { id := "tag", type := some (.atomic (.integer 8 false)) }),
    .field (.list { id := "rest", type := some (.atomic .bytes) }
      (.unit { id := "__anon1", type := some (.unit "Chain") } []))]

/-- A unit with a field of its own type. -/
def nested : UnitType StateKind where
  id := "Nested"
  items := [.field (.unit { id := "inner", type := some (.unit "Nested") } [])]

end Diffingo.Ast
