import Diffingo.Codec.RangeLength
import Diffingo.Codec.RoundTrip
import Diffingo.Codec.StaticLength

/-!
# Reading a compact unit

A unit and the compact unit of an instantiation read the same input. The compact unit knows only some
of the members, and it takes the fields between them in one step. The two readers are at the same
place whenever no field is held back. In between, the reader of the unit is ahead by the length of the
fields that are held back. If all sums of lengths fit, one reader comes to the end exactly if the other
does.
-/

namespace Diffingo.Codec

open CInteger ByteMemory Diffingo.Spec Diffingo.Runtime Diffingo.Generation
open InstantiationTypeGenerator (Piece pieces closeRange kept itemContext lengths rangeLength copyFor
  rangeField Nameable Omitted Measured nameAfter)

/-! ## Two structs -/

/-- Reads that end at the same position with units that agree on the members in `S`. -/
def ReadMatches (env : Env) (S : Set String) : Read → Read → Prop
  | .short, .short => True
  | .next m p, .next m' p' => p = p' ∧ Agree env S m m'
  | _, _ => False

section Structs

variable {c d : Schema} {S : Set String} {memory : Memory} {e p : Int} {m m' : UnitMemory}

theorem evalLength_related {env env' : Env} (hsame : env.Same env' S) {ex : Expr}
    (hex : ∀ x ∈ ex.members, x ∈ S) (h : Agree env S m m') :
    Option.Rel (fun r r' => r.1 = r'.1 ∧ Agree env S r.2 r'.2) (evalLength env ex m)
      (evalLength env' ex m') := by
  unfold evalLength
  rw [typeOf_same hsame hex]
  refine rel_bind_same fun _ => rel_bind (eval_related hsame hex m m' h) fun r r' hr => ?_
  rw [hr.1]
  exact rel_map fun _ => ⟨rfl, hr.2⟩

/-- What a field stores does not depend on what was there before. -/
theorem stored_read {k : FieldKind} {ty : CType} (hk : k.HasMember ty) (n : Nat) (a b : Cell) :
    (k.stored memory p n a).read ty = (k.stored memory p n b).read ty := by
  cases k with
  | int t bo =>
    obtain ⟨rfl, -⟩ := hk
    rfl
  | cast t bo ty' =>
    obtain ⟨rfl, hscalar, -⟩ := hk
    cases ty <;> first | rfl | simp [CType.isScalar] at hscalar
  | copy ex =>
    rw [read_bytes hk, read_bytes hk]
    rfl
  | range ex =>
    obtain rfl : ty = .varStreamRange := hk
    rfl

theorem size_related (hsame : c.env.Same d.env S) {k : FieldKind}
    (hlen : ∀ ex ∈ k.length, ∀ x ∈ ex.members, x ∈ S) (h : Agree c.env S m m') :
    Option.Rel (fun r r' => r.1 = r'.1 ∧ Agree c.env S r.2 r'.2) (k.size c.env m)
      (k.size d.env m') := by
  cases k with
  | int t bo => exact .some ⟨rfl, h⟩
  | cast t bo ty => exact .some ⟨rfl, h⟩
  | copy ex => exact evalLength_related hsame (hlen ex rfl) h
  | range ex => exact evalLength_related hsame (hlen ex rfl) h

theorem readField_related (hsame : c.env.Same d.env S) {k : FieldKind} {x : String} {ty : CType}
    (hx : c.env.members x = some ty) (hk : k.HasMember ty)
    (hlen : ∀ ex ∈ k.length, ∀ y ∈ ex.members, y ∈ S) (h : Agree c.env S m m') :
    Option.Rel (ReadMatches c.env S) (c.readField memory e k x m p)
      (d.readField memory e k x m' p) := by
  refine rel_map_rel (size_related hsame hlen h) fun r r' hr => ?_
  rw [hr.1]
  split
  · trivial
  · exact ⟨rfl, hr.2.update hx (stored_read hk _ _ _)⟩

theorem readVariable_related (hsame : c.env.Same d.env S) {v : Variable} (hv : v.id ∈ S)
    (hmem : ∀ ex ∈ parseExpression v, ∀ y ∈ ex.members, y ∈ S) (h : Agree c.env S m m') :
    Option.Rel (Agree c.env S) (c.readVariable v m) (d.readVariable v m') := by
  unfold Schema.readVariable
  cases hex : parseExpression v with
  | none => exact .some h
  | some ex =>
    have hex' := hmem ex hex
    dsimp only
    rw [hsame.members v.id hv, typeOf_same hsame hex']
    refine rel_map_rel (assignTo_related (fun q hq => ?_) _ (eval_related hsame hex') m m' h)
      fun r r' hr => hr.2
    obtain ⟨ty, hty, rfl⟩ := Option.map_eq_some_iff.mp hq
    exact hty

end Structs

/-- A member belongs to one item. -/
theorem item_unique {items : List Item} (hnodup : (items.flatMap Item.memberIds).Nodup)
    {i j : Item} (hi : i ∈ items) (hj : j ∈ items) {x : String} (hx : x ∈ i.memberIds)
    (hx' : x ∈ j.memberIds) : i = j := by
  by_contra hne
  have : Std.Symm (Function.onFun List.Disjoint Item.memberIds) := ⟨fun _ _ hab => hab.symm⟩
  exact (List.nodup_flatMap.mp hnodup).2.forall hi hj hne hx hx'

/-! ## Copies -/

/-- The kind of a field whose length refers to the compact unit. -/
def FieldKind.replaceSelf (name : String) : FieldKind → FieldKind
  | .int t bo => .int t bo
  | .cast t bo ty => .cast t bo ty
  | .copy e => .copy (e.replaceSelf name)
  | .range e => .range (e.replaceSelf name)

/-- The copy of a field. -/
def copyField (name : String) (parsingOnly : Bool) (f : AtomicField) : AtomicField :=
  { f with
    attributes := f.attributes.map (·.replaceSelf name)
    applicationAccessible := true
    parsingOnly }

/-- The copy of a variable. -/
def copyVariable (name : String) (parsingOnly : Bool) (v : Variable) : Variable :=
  { v with
    defaultValue := v.defaultValue.map (·.replaceSelf name)
    attributes := v.attributes.map (·.replaceSelf name)
    parsingOnly }

section Copies

variable {name : String}

theorem copyFor_field (name : String) (context : Finset DependencyContext) (f : AtomicField) :
    ∃ b, (copyFor context (.field f)).replaceSelf name = .field (copyField name b f) := by
  unfold InstantiationTypeGenerator.copyFor
  split
  · exact ⟨true, rfl⟩
  · exact ⟨f.parsingOnly, rfl⟩

theorem copyFor_var (name : String) (context : Finset DependencyContext) (v : Variable) :
    ∃ b, (copyFor context (.var v)).replaceSelf name = .var (copyVariable name b v) := by
  unfold InstantiationTypeGenerator.copyFor
  split
  · exact ⟨true, rfl⟩
  · exact ⟨v.parsingOnly, rfl⟩

theorem copyFor_property (name : String) (context : Finset DependencyContext) (a : Attribute) :
    (copyFor context (.property a)).replaceSelf name = .property (a.replaceSelf name) := by
  unfold InstantiationTypeGenerator.copyFor
  split <;> rfl

theorem lookupAttribute_replaceSelf (attributes : List Attribute) (key : String) :
    lookupAttribute (attributes.map (·.replaceSelf name)) key =
      (lookupAttribute attributes key).map (·.replaceSelf name) := by
  unfold lookupAttribute
  rw [List.find?_map]
  rfl

theorem hasAttribute_replaceSelf (attributes : List Attribute) (key : String) :
    hasAttribute (attributes.map (·.replaceSelf name)) key = hasAttribute attributes key := by
  simp [hasAttribute, lookupAttribute_replaceSelf]

theorem length_copyField (b : Bool) (f : AtomicField) :
    (copyField name b f).length = f.length.map (·.replaceSelf name) := by
  unfold AtomicField.length copyField
  rw [lookupAttribute_replaceSelf, Option.bind_map, Option.map_bind]
  rfl

theorem parseExpression_copyVariable (b : Bool) (v : Variable) :
    parseExpression (copyVariable name b v) = (parseExpression v).map (·.replaceSelf name) := by
  unfold parseExpression copyVariable
  rw [lookupAttribute_replaceSelf]
  cases lookupAttribute v.attributes "parse" <;> rfl

/-- The copy of a field is of the field's kind, provided that it has the field's byte order. -/
theorem fieldKind_copyField {o : Options} {u K : UnitType} {f : AtomicField} (b : Bool)
    (hacc : f.applicationAccessible = true)
    (hbo : ParserGenerator.byteOrder K (f.attributes.map (·.replaceSelf name)) =
      ParserGenerator.byteOrder u f.attributes) :
    fieldKind o K (copyField name b f) = (fieldKind o u f).map (FieldKind.replaceSelf name) := by
  have hlength : (copyField name b f).length = _ := length_copyField b f
  have hattr : hasAttribute (f.attributes.map (·.replaceSelf name)) "transform_to" = _ :=
    hasAttribute_replaceSelf f.attributes "transform_to"
  unfold fieldKind
  rw [hlength, hacc]
  simp only [copyField, hattr, hbo, Bool.not_true, Bool.false_and, Bool.false_eq_true, if_false]
  split
  · simp [Option.map_map, Function.comp_def, FieldKind.replaceSelf]
  · simp [Option.map_map, Function.comp_def, FieldKind.replaceSelf]
  · split <;> simp [Option.map_map, Function.comp_def, FieldKind.replaceSelf]
  · split
    · cases ParserGenerator.byteOrder u f.attributes with
      | none => rfl
      | some bo =>
        cases cType f.type with
        | none => rfl
        | some ty => by_cases hty : ty.isScalar = true <;> simp [hty, FieldKind.replaceSelf]
    · rfl
  · rfl

variable {u : String}

theorem evalLength_replaceSelf (env : Env) {ex : Expr} (h : ex.within u = true) (m : UnitMemory) :
    evalLength env (ex.replaceSelf env.unit) m = evalLength (env.named u) ex m := by
  unfold evalLength
  rw [typeOf_replaceSelf env h, eval_replaceSelf env h]

theorem readField_replaceSelf {c d : Schema} (hc : d.env = c.env.named u) {k : FieldKind}
    (hk : ∀ ex ∈ k.length, ex.within u = true) (memory : Memory) (e : Int) (x : String)
    (m : UnitMemory) (p : Int) :
    c.readField memory e (k.replaceSelf c.env.unit) x m p = d.readField memory e k x m p := by
  have hsize : (k.replaceSelf c.env.unit).size c.env m = k.size d.env m := by
    rw [hc]
    cases k with
    | int t bo => rfl
    | cast t bo ty => rfl
    | copy ex => exact evalLength_replaceSelf c.env (hk ex rfl) m
    | range ex => exact evalLength_replaceSelf c.env (hk ex rfl) m
  have hstored : ∀ n cell, (k.replaceSelf c.env.unit).stored memory p n cell =
      k.stored memory p n cell := by
    intro n cell
    cases k <;> rfl
  unfold Schema.readField
  simp only [hsize, hstored]

theorem readVariable_replaceSelf {c d : Schema} (hc : d.env = c.env.named u) {v : Variable}
    (hv : ∀ ex ∈ parseExpression v, ex.within u = true) (b : Bool) (m : UnitMemory) :
    c.readVariable (copyVariable c.env.unit b v) m = d.readVariable v m := by
  unfold Schema.readVariable
  rw [parseExpression_copyVariable]
  cases hex : parseExpression v with
  | none => rfl
  | some ex =>
    dsimp only [Option.map_some]
    rw [typeOf_replaceSelf c.env (hv ex hex), eval_replaceSelf c.env (hv ex hex), hc]
    rfl

end Copies

/-! ## Items that are left out -/

section Omitted

variable {o : Options} {u : UnitType} {memory : Memory} {e : Int}

/-- The fields of a case need the bytes that its length says. -/
theorem readFields_short {fs : List AtomicField} {n : Int} (h : Switch.caseLength fs = some n)
    {m : UnitMemory} {p : Int}
    (hread : (schema o u).readFields memory e fs m p = some .short) : e - p < n := by
  induction fs generalizing n m p with
  | nil => cases hread
  | cons f fs ih =>
    unfold Switch.caseLength at h
    split at h
    · cases h
    · rename_i hf
      obtain ⟨k', hk', rfl⟩ := Option.map_eq_some_iff.mp h
      obtain ⟨k, hk, hread⟩ := Option.bind_eq_some_iff.mp hread
      obtain ⟨r, hr, hread⟩ := Option.bind_eq_some_iff.mp hread
      obtain ⟨x, hx, rfl⟩ := Option.map_eq_some_iff.mp hr
      have hlen := size_static hk (by omega) hx
      have hrest := caseLength_nonneg hk'
      split at hread
      · omega
      · have := ih hk' hread
        omega

/-- What reading an item that is left out does: the input is too short for its length, or the reader
moves on by its length and sets its members. -/
def Skips (env : Env) (e : Int) (i : Item) (ex : Expr) (m : UnitMemory) (p : Int) (r : Read) : Prop :=
  ∃ len : Nat, evalLength env ex m = some (len, m) ∧ match r with
    | .short => e - p < len
    | .next m' q => q = p + len ∧ ∀ x ∉ i.memberIds, m' x = m x

/-- A field without a static length has the length of its attribute. -/
theorem fieldKind_dynamic {f : AtomicField} {k : FieldKind} (hk : fieldKind o u f = some k)
    (hn : f.staticSerializedLength < 0) :
    ∃ ex, f.length = some ex ∧ (k = .copy ex ∨ k = .range ex) := by
  have hint : ∀ w s, f.serialized ≠ .integer w s := by
    intro w s htype
    have hnonneg : (0 : Int) ≤ (SpecType.integer w s).staticSerializedLength :=
      Int.natCast_nonneg _
    simp only [AtomicField.staticSerializedLength, htype, ge_iff_le, hnonneg, if_true] at hn
    omega
  unfold fieldKind at hk
  split at hk
  · split at hk
    · obtain ⟨ex, hex, rfl⟩ := Option.map_eq_some_iff.mp hk
      exact ⟨ex, hex, .inr rfl⟩
    · cases hk
  · split at hk
    · obtain ⟨ex, hex, rfl⟩ := Option.map_eq_some_iff.mp hk
      exact ⟨ex, hex, .inl rfl⟩
    · obtain ⟨ex, hex, rfl⟩ := Option.map_eq_some_iff.mp hk
      exact ⟨ex, hex, .inl rfl⟩
    · rename_i w s hst hty
      exact absurd (by simp [AtomicField.serialized, hst, hty]) (hint w s)
    · rename_i w s hst
      exact absurd (by simp [AtomicField.serialized, hst]) (hint w s)
    · cases hk

theorem width_small {t : IntTy} (ht : t.width ∈ supportedWidths) : t.width / 8 < 2 ^ 63 := by
  have hwidth : t.width ≤ 64 := (by decide : ∀ w ∈ supportedWidths, w ≤ 64) _ ht
  omega

/-- The length of a field is the one that its kind has. -/
theorem evalLength_serializedLength (hu : Flat o u) {f : AtomicField} (hf : .field f ∈ u.items)
    {k : FieldKind} (hk : fieldKind o u f = some k) {ex : Expr} (hex : f.serializedLength = some ex)
    {m : UnitMemory} {r : Nat × UnitMemory} (hr : k.size (unitEnv o u) m = some r) :
    evalLength (unitEnv o u) ex m = some r := by
  have hmem : f ∈ (Item.field f).fields := List.mem_singleton.mpr rfl
  have hkeeps : r.2 = m := size_keeps
    (fun ex hex => (hu.lengths _ hf f hmem ex (by simpa [hk] using hex)).pure) hr
  unfold AtomicField.serializedLength at hex
  split at hex
  · rename_i hn
    cases hex
    have hlen := size_static hk hn hr
    have hsmall : r.1 < 2 ^ 63 := by
      obtain ⟨k', ty, hk', -, hmember⟩ := hu.declared hf hmem
      obtain rfl : k = k' := Option.some.inj (hk.symm.trans hk')
      rcases fieldKind_static hk hn with ⟨t, bo, rfl | ⟨ty, rfl⟩, -⟩ | rfl | rfl
      · cases hr
        exact width_small hmember.2
      · cases hr
        exact width_small hmember.2.2
      · exact (evalLength_static hn hr).2
      · exact (evalLength_static hn hr).2
    rw [← hlen, evalLength_constant, if_pos hsmall, ← hkeeps]
  · rename_i hn
    obtain ⟨ex', hex', rfl | rfl⟩ := fieldKind_dynamic hk (not_le.mp hn)
    · cases hex.symm.trans hex'
      exact hr
    · cases hex.symm.trans hex'
      exact hr

theorem Flat.readField_skips (hu : Flat o u) {f : AtomicField} (hf : .field f ∈ u.items) {ex : Expr}
    (hex : f.serializedLength = some ex) {m : UnitMemory} {p : Int} {r : Read}
    (hread : (schema o u).readItem memory e (.field f) m p = some r) :
    Skips (unitEnv o u) e (.field f) ex m p r := by
  have hmem : f ∈ (Item.field f).fields := List.mem_singleton.mpr rfl
  have hpure := fun g hg ex hex => (hu.lengths _ hf g hg ex hex).pure
  have hkeeps : ∀ m' q, r = .next m' q → ∀ x ∉ (Item.field f).memberIds, m' x = m x := by
    rintro m' q rfl x hx
    exact readFields_keeps hpure hread hx
  obtain ⟨k, hk, hfield⟩ := Option.bind_eq_some_iff.mp hread
  obtain ⟨r', hr, hnext⟩ := Option.bind_eq_some_iff.mp hfield
  obtain ⟨⟨len, m₁⟩, hsize, rfl⟩ := Option.map_eq_some_iff.mp hr
  have hlen := evalLength_serializedLength hu hf hk hex hsize
  rw [show m₁ = m from size_keeps
    (fun ex hex => hpure f hmem ex (by simpa [show fieldKind o u f = _ from hk] using hex)) hsize]
    at hlen
  refine ⟨len, hlen, ?_⟩
  split at hnext
  · rename_i hshort
    cases hnext
    exact hshort
  · cases hnext
    exact ⟨rfl, hkeeps _ _ rfl⟩

/-- The static length of a switch is an `int`. -/
theorem staticLengthLoop_lt {last : Option Int} (hlast : ∀ n ∈ last, n < 2 ^ 31) (cs : List Case) :
    Switch.staticLengthLoop last cs < 2 ^ 31 := by
  have hwrap : ∀ n : Int, IntTy.int.wrap n < 2 ^ 31 := fun n => IntTy.wrap_lt .int n
  induction cs generalizing last with
  | nil =>
    cases last with
    | none => decide
    | some n => exact hlast n rfl
  | cons c cs ih =>
    have hnext : ∀ n, Switch.staticLengthLoop (some (IntTy.int.wrap n)) cs < 2 ^ 31 := by
      refine fun n => ih ?_
      rintro _ ⟨⟩
      exact hwrap n
    unfold Switch.staticLengthLoop
    split
    · decide
    · exact hnext _
    · split
      · decide
      · exact hnext _

theorem Flat.readSwitch_skips (hu : Flat o u) {s : Switch} (hs : .switch s ∈ u.items)
    (hpure : ∀ ex ∈ s.expression, ex.sideEffectFree = true) {ex : Expr}
    (hex : s.serializedLength = some ex) {m : UnitMemory} (hexact : SwitchExact (unitEnv o u) m s)
    {p : Int} {r : Read} (hread : (schema o u).readItem memory e (.switch s) m p = some r) :
    Skips (unitEnv o u) e (.switch s) ex m p r := by
  unfold Switch.serializedLength at hex
  split at hex
  · rename_i hn
    cases hex
    have hsmall : s.staticSerializedLength < 2 ^ 31 := staticLengthLoop_lt (by simp) s.cases
    obtain ⟨len, hlen⟩ := Int.eq_ofNat_of_zero_le hn
    have heval : evalLength (unitEnv o u) (.int s.staticSerializedLength) m = some (len, m) := by
      rw [hlen, evalLength_constant, if_pos (by omega)]
    -- the fields of the case that is entered
    obtain ⟨fs, hfs, hcase, hread⟩ : ∃ fs, (∀ f ∈ fs, f ∈ s.fields) ∧
        Switch.caseLength fs = some s.staticSerializedLength ∧
        (schema o u).readFields memory e fs m p = some r := by
      unfold Schema.readItem at hread
      unfold SwitchExact at hexact
      cases hexpr : s.expression with
      | none =>
        simp only [entered, hexpr, Option.bind_none] at hexact
        simp only [hexpr] at hread
        exact ⟨[], by simp, by simp [Switch.caseLength, hexact], hread⟩
      | some ex =>
        simp only [hexpr] at hread
        obtain ⟨_, hsel, hfields⟩ := Option.bind_eq_some_iff.mp hread
        obtain ⟨⟨m₁, i⟩, hguard, rfl⟩ := Option.map_eq_some_iff.mp hsel
        obtain ⟨rfl, -⟩ := select_stable rfl (hpure ex hexpr) m (fun _ _ => rfl) hguard
        refine ⟨_, selectedFields_sub s.cases i, ?_, hfields⟩
        change (switchGuard ex s).select (unitEnv o u) m₁ = _ at hguard
        simp only [entered, hexpr, Option.bind_some, hguard] at hexact
        unfold selectedFields
        generalize i.bind (s.cases[·]?) = c at hexact ⊢
        cases c with
        | none => simp [Switch.caseLength, hexact]
        | some c => exact hexact
    refine ⟨len, heval, ?_⟩
    cases r with
    | short =>
      have := readFields_short hcase hread
      dsimp only
      omega
    | next m' q =>
      have := readFields_static hcase hread
      refine ⟨by omega, fun x hx => readFields_keeps
        (fun f hf ex hex => (hu.lengths _ hs f (hfs f hf) ex hex).pure) hread fun hx' => hx ?_⟩
      obtain ⟨f, hf, rfl⟩ := List.mem_map.mp hx'
      exact List.mem_map.mpr ⟨f, hfs f hf, rfl⟩
  · cases hex

end Omitted

end Diffingo.Codec
