import Diffingo.Codec.Wire

/-!
# What a parsed unit says about its input

`Describes` relates a unit to a run of bytes of the input: every field holds what the bytes at its
place say. A parser that returns `DONE` leaves a unit that describes the bytes it has read, and the
encoding of such a unit is these bytes.
-/

namespace Diffingo.Codec

open CInteger ByteMemory Resumable Diffingo.Spec Diffingo.Runtime Diffingo.Generation

/-- In the unit `m`, the field `x` holds what the bytes from `p` to `q` say. -/
def FieldDescribes (env : Env) (memory : Memory) (m : UnitMemory) (k : FieldKind) (x : String)
    (p q : Int) : Prop :=
  match k with
  | .int t bo =>
    (m x).read (.int t) = some (.int (parsedInt t bo memory p)) ∧ q = p + (t.width / 8 : Nat)
  | .cast t bo ty =>
    (m x).read ty = (ty.convert (parsedInt t bo memory p)).map .int ∧ q = p + (t.width / 8 : Nat)
  | .copy e =>
    evalLength env e m = some ((m x).len_, m) ∧ (m x).len_ < 2 ^ 63 ∧
      (m x).data_ = slice memory p (m x).len_ ∧ q = p + (m x).len_
  | .range e =>
    evalLength env e m = some ((m x).len_, m) ∧ (m x).len_ < 2 ^ 63 ∧
      (m x).start_ = p ∧ q = p + (m x).len_

/-- The expression a variable is initialised with. -/
def parseExpression (v : Variable) : Option Expr :=
  match lookupAttribute v.attributes "parse" with
  | some a => a.value
  | none => v.defaultValue

/-- In the unit `m`, the variable holds the value of its expression, as far as this expression is
free of side effects and names none of the members `later`. -/
def VariableDescribes (env : Env) (m : UnitMemory) (v : Variable) (later : List String) : Prop :=
  ∀ e ∈ parseExpression v, e.sideEffectFree = true → (∀ x ∈ e.members, x ∉ later) →
    ∃ ty val, env.members v.id = some ty ∧ eval env e m = some (val, m) ∧
      (m v.id).read ty = val.convert ty

section Items

variable (o : Options) (u : UnitType) (memory : Memory) (m : UnitMemory)

inductive FieldsDescribe : List AtomicField → Int → Int → Prop
  | nil (p : Int) : FieldsDescribe [] p p
  | cons {f : AtomicField} {fs : List AtomicField} {k : FieldKind} {p q r : Int} :
      fieldKind o u f = some k → FieldDescribes (unitEnv o u) memory m k f.id p q →
      FieldsDescribe fs q r → FieldsDescribe (f :: fs) p r

/-- The names of the members of a list of items. -/
def memberIds (items : List Item) : List String := items.flatMap Item.memberIds

/-- The unit `m` holds what the bytes from `p` to `q` say about the items. -/
inductive Describes : List Item → Int → Int → Prop
  | nil (p : Int) : Describes [] p p
  | property {a : Attribute} {rest : List Item} {p q : Int} :
      Describes rest p q → Describes (.property a :: rest) p q
  | field {f : AtomicField} {rest : List Item} {p q r : Int} :
      FieldsDescribe o u memory m [f] p q → Describes rest q r → Describes (.field f :: rest) p r
  | var {v : Variable} {rest : List Item} {p q : Int} :
      VariableDescribes (unitEnv o u) m v (v.id :: memberIds rest) → Describes rest p q →
      Describes (.var v :: rest) p q
  | lookAhead {s : Switch} {rest : List Item} {p q : Int} : s.expression = none →
      Describes rest p q → Describes (.switch s :: rest) p q
  | switch {s : Switch} {e : Expr} {fs : List AtomicField} {rest : List Item} {p q r : Int} :
      s.expression = some e → switchCase o u e s m = some (m, fs) →
      FieldsDescribe o u memory m fs p q → Describes rest q r → Describes (.switch s :: rest) p r

end Items

section Order

variable (o : Options) (u : UnitType)

/-- An expression that can be evaluated again after the members `later` have been set. -/
structure Undisturbed (later : List String) (e : Expr) : Prop where
  pure : e.sideEffectFree = true
  members : ∀ x ∈ e.members, x ∉ later

/-- A length that is never `2 ^ 63` or more. -/
def SmallLength (env : Env) (e : Expr) : Prop :=
  ∀ m r, evalLength env e m = some r → r.1 < 2 ^ 63

/-- The fields of a case, before the members `later`: their lengths depend on earlier members
only. -/
def FieldsOrdered : List AtomicField → List String → Prop
  | [], _ => True
  | f :: fs, later =>
    (∀ e ∈ (fieldKind o u f).bind FieldKind.length,
      Undisturbed (f.id :: (fs.map (·.id) ++ later)) e) ∧
    FieldsOrdered fs later

/-- The lengths of the given fields are small. -/
def SmallLengths (fs : List AtomicField) : Prop :=
  ∀ f ∈ fs, ∀ e ∈ (fieldKind o u f).bind FieldKind.length, SmallLength (unitEnv o u) e

/-- The lengths and switch expressions depend on earlier members only, and no expression has side
effects. -/
def ItemsOrdered : List Item → Prop
  | [] => True
  | .property _ :: rest => ItemsOrdered rest
  | .field f :: rest => FieldsOrdered o u [f] (memberIds rest) ∧ ItemsOrdered rest
  | .var v :: rest => (∀ e ∈ parseExpression v, e.sideEffectFree = true) ∧ ItemsOrdered rest
  | .switch s :: rest =>
    (∀ e ∈ s.expression, Undisturbed (s.fields.map (·.id) ++ memberIds rest) e) ∧
    (∀ c ∈ s.cases, FieldsOrdered o u c.items (memberIds rest)) ∧ ItemsOrdered rest

instance (later : List String) (e : Expr) : Decidable (Undisturbed later e) :=
  decidable_of_iff (e.sideEffectFree = true ∧ ∀ x ∈ e.members, x ∉ later)
    ⟨fun h => ⟨h.1, h.2⟩, fun h => ⟨h.1, h.2⟩⟩

instance decidableFieldsOrdered :
    (fs : List AtomicField) → (later : List String) → Decidable (FieldsOrdered o u fs later)
  | [], _ => isTrue trivial
  | _ :: fs, later =>
    have := decidableFieldsOrdered fs later
    inferInstanceAs (Decidable (_ ∧ _))

instance decidableItemsOrdered : (items : List Item) → Decidable (ItemsOrdered o u items)
  | [] => isTrue trivial
  | .property _ :: rest => decidableItemsOrdered rest
  | .field _ :: rest | .var _ :: rest =>
    have := decidableItemsOrdered rest
    inferInstanceAs (Decidable (_ ∧ _))
  | .switch _ :: rest =>
    have := decidableItemsOrdered rest
    inferInstanceAs (Decidable (_ ∧ _ ∧ _))

end Order

theorem evalLength_stable {env : Env} (hdollar : env.dollar = none) {e : Expr}
    (hpure : e.sideEffectFree = true) {m m₁ : UnitMemory} {n : Nat} (m' : UnitMemory)
    (hm : ∀ x ∈ e.members, m' x = m x) (h : evalLength env e m = some (n, m₁)) :
    m₁ = m ∧ evalLength env e m' = some (n, m') := by
  obtain ⟨t, ht, h⟩ := Option.bind_eq_some_iff.mp h
  obtain ⟨⟨v, m₂⟩, hv, h⟩ := Option.bind_eq_some_iff.mp h
  obtain ⟨z, hz, heq⟩ := Option.map_eq_some_iff.mp h
  obtain ⟨rfl, rfl⟩ := Prod.mk.inj heq
  obtain ⟨rfl, hv'⟩ := eval_stable hdollar hpure hm hv
  dsimp only at hz
  exact ⟨rfl, by simp [evalLength, ht, hv', hz]⟩

theorem select_stable {env : Env} (hdollar : env.dollar = none) {g : SwitchGuard}
    (hpure : g.expression.sideEffectFree = true) {m m₁ : UnitMemory} {i : Option Nat}
    (m' : UnitMemory) (hm : ∀ x ∈ g.expression.members, m' x = m x)
    (h : g.select env m = some (m₁, i)) : m₁ = m ∧ g.select env m' = some (m', i) := by
  obtain ⟨ty, hty, h⟩ := Option.bind_eq_some_iff.mp h
  split at h
  · rename_i hlabels
    obtain ⟨⟨v, m₂⟩, hv, h⟩ := Option.bind_eq_some_iff.mp h
    obtain ⟨z, hz, heq⟩ := Option.map_eq_some_iff.mp h
    obtain ⟨rfl, rfl⟩ := Prod.mk.inj heq
    obtain ⟨rfl, hv'⟩ := eval_stable hdollar hpure hm hv
    dsimp only at hz
    exact ⟨rfl, by simp only [SwitchGuard.select, hty, Option.bind_some, hlabels, if_true, hv', hz,
      Option.map_some]⟩
  · cases h

/-- A description stays true when members it does not depend on change. -/
theorem FieldDescribes.stable {env : Env} (hdollar : env.dollar = none) {memory : Memory}
    {m m' : UnitMemory} {k : FieldKind} {x : String} {p q : Int}
    (h : FieldDescribes env memory m k x p q) (hx : m' x = m x)
    (hk : ∀ e ∈ k.length, e.sideEffectFree = true ∧ ∀ y ∈ e.members, m' y = m y) :
    FieldDescribes env memory m' k x p q := by
  cases k with
  | int t bo => simpa [FieldDescribes, hx] using h
  | cast t bo ty => simpa [FieldDescribes, hx] using h
  | copy e =>
    obtain ⟨hpure, hmem⟩ := hk e rfl
    obtain ⟨hlen, hrest⟩ := h
    have hlen' := (evalLength_stable hdollar hpure _ hmem hlen).2
    simpa only [FieldDescribes, hx] using And.intro hlen' hrest
  | range e =>
    obtain ⟨hpure, hmem⟩ := hk e rfl
    obtain ⟨hlen, hrest⟩ := h
    have hlen' := (evalLength_stable hdollar hpure _ hmem hlen).2
    simpa only [FieldDescribes, hx] using And.intro hlen' hrest

theorem visitVariable_cases {v : Variable} {body : List ParseStmt}
    (h : ParserGenerator.visitVariable v = some body) :
    (parseExpression v = none ∧ body = []) ∨
      ∃ ex, parseExpression v = some ex ∧ body = [.assign v.id ex] := by
  unfold ParserGenerator.visitVariable at h
  unfold parseExpression
  split at h
  · rename_i a ha
    obtain ⟨ex, hex, rfl⟩ := Option.map_eq_some_iff.mp h
    exact .inr ⟨ex, by simp [ha, hex], rfl⟩
  · rename_i ha
    cases hv : v.defaultValue with
    | none => exact .inl ⟨by simp [ha], by simpa [hv] using h.symm⟩
    | some ex => exact .inr ⟨ex, by simp [ha], by simpa [hv] using h.symm⟩

/-- What initialising a variable does. -/
theorem assign_variable {env : Env} {x : String} {ex : Expr} (hpure : ex.sideEffectFree = true)
    {m : UnitMemory} {r : Value × UnitMemory}
    (h : assignTo ((env.members x).map (x, ·)) (typeOf env ex) (eval env ex) m = some r) :
    ∃ ty val, env.members x = some ty ∧ eval env ex m = some (val, m) ∧
      (∀ y ≠ x, r.2 y = m y) ∧ (r.2 x).read ty = val.convert ty := by
  obtain ⟨p, hp, hassign⟩ := Option.bind_eq_some_iff.mp h
  obtain ⟨ty, hty, rfl⟩ := Option.map_eq_some_iff.mp hp
  obtain ⟨ts, -, hassign⟩ := Option.bind_eq_some_iff.mp hassign
  split at hassign
  · obtain ⟨⟨val, m₁⟩, hval, hstore⟩ := Option.bind_eq_some_iff.mp hassign
    have hm := eval_pure hpure hval
    subst hm
    obtain ⟨c, hc, hread⟩ := Option.bind_eq_some_iff.mp hstore
    obtain ⟨w, -, rfl⟩ := Option.map_eq_some_iff.mp hread
    refine ⟨ty, val, hty, hval, fun y hy => by simp [hy], ?_⟩
    simpa using Cell.read_store hc
  · cases hassign

/-- A cast that a cast back undoes. -/
def Lossless (t : IntTy) (ty : CType) : Prop :=
  ∀ v w, ty.convert (t.wrap v) = some w → t.wrap w = t.wrap v

def FieldKind.Lossless : FieldKind → Prop
  | .cast t _ ty => Codec.Lossless t ty
  | _ => True

/-- The casts that only widen: to an integer type at least as wide, or to an enumeration from at
most 32 bits. -/
def FieldKind.widens : FieldKind → Bool
  | .cast t _ (.int t') => t.width ≤ t'.width
  | .cast t _ (.enum _) => t.width ≤ 32
  | .cast _ _ _ => false
  | _ => true

theorem FieldKind.lossless_of_widens {k : FieldKind} (h : k.widens = true) : k.Lossless := by
  cases k with
  | cast t bo ty =>
    intro v w hw
    cases ty with
    | int t' =>
      obtain rfl : t'.wrap (t.wrap v) = w := by simpa [CType.convert] using hw
      rw [IntTy.wrap_wrap_of_le (by simpa [FieldKind.widens] using h), IntTy.wrap_wrap]
    | enum id =>
      obtain rfl : IntTy.int.wrap (t.wrap v) = w := by simpa [CType.convert] using hw
      rw [IntTy.wrap_wrap_of_le (by simpa [FieldKind.widens] using h), IntTy.wrap_wrap]
    | _ => simp [FieldKind.widens] at h
  | _ => trivial

section Wire

variable {o : Options} {u : UnitType} {memory : Memory} {m : UnitMemory}

/-- The encoding of a described field is the bytes it describes. -/
theorem FieldDescribes.wire {env : Env} {k : FieldKind} {x : String} {ty : CType} {p q : Int}
    (h : FieldDescribes env memory m k x p q) (hx : env.members x = some ty) (hk : k.HasMember ty)
    (hloss : k.Lossless) :
    ∃ n : Nat, q = p + n ∧ fieldWire env memory k x m = some (slice memory p n) := by
  have hint : ∀ {t : IntTy} (bo : ByteOrder), t.width ∈ supportedWidths →
      intBytes t bo (parsedInt t bo memory p) = slice memory p (t.width / 8) := fun bo ht =>
    intBytes_parsed ht bo (length_slice _ _ _)
  cases k with
  | int t bo =>
    obtain ⟨rfl, ht⟩ := hk
    obtain ⟨hread, rfl⟩ := h
    exact ⟨t.width / 8, rfl, by simp [fieldWire, hx, hread, FieldKind.encode, hint bo ht]⟩
  | cast t bo ty' =>
    obtain ⟨rfl, hscalar, ht⟩ := hk
    obtain ⟨hread, rfl⟩ := h
    obtain ⟨w, hw⟩ : ∃ w, ty.convert (parsedInt t bo memory p) = some w := by
      cases ty <;> simp_all [CType.convert, CType.isScalar]
    have hback : t.wrap w = parsedInt t bo memory p := by
      have hwrap : t.wrap (parsedInt t bo memory p) = parsedInt t bo memory p := by simp [parsedInt]
      rw [← hwrap]
      exact hloss _ w (hwrap.symm ▸ hw)
    exact ⟨t.width / 8, rfl, by
      simp [fieldWire, hx, hread, hw, FieldKind.encode, hback, hint bo ht]⟩
  | copy e =>
    obtain ⟨-, -, hdata, rfl⟩ := h
    refine ⟨(m x).len_, rfl, ?_⟩
    have hread := read_bytes (c := m x) hk
    have hlen : (m x).data_.length = (m x).len_ := by rw [hdata, length_slice]
    have htake : (m x).data_.take (m x).len_ = slice memory p (m x).len_ := by
      rw [← hlen, List.take_length, hlen, ← hdata]
    simp only [fieldWire, hx, Option.bind_some, hread, FieldKind.encode, hlen.ge, if_true, htake]
  | range e =>
    obtain rfl : ty = .varStreamRange := hk
    obtain ⟨-, -, hstart, rfl⟩ := h
    exact ⟨(m x).len_, rfl, by simp [fieldWire, hx, Cell.read, FieldKind.encode, hstart]⟩

theorem FieldsDescribe.wire {fs : List AtomicField} {p q : Int}
    (h : FieldsDescribe o u memory m fs p q) (hfs : ∀ f ∈ fs, Declared o u f)
    (hloss : ∀ f ∈ fs, ∀ k ∈ fieldKind o u f, k.Lossless) :
    ∃ n : Nat, q = p + n ∧ fieldsWire o u memory fs m = some (slice memory p n) := by
  induction h with
  | nil p => exact ⟨0, by simp, rfl⟩
  | @cons f fs k p q r hk hdesc _ ih =>
    obtain ⟨k', ty, hk', hty, hmem⟩ := hfs f (by simp)
    obtain rfl : k' = k := by simpa [hk] using hk'.symm
    obtain ⟨n₁, rfl, hwire₁⟩ := hdesc.wire hty hmem (hloss f (by simp) _ hk)
    obtain ⟨n₂, rfl, hwire₂⟩ := ih (fun g hg => hfs g (List.mem_cons_of_mem _ hg))
      fun g hg => hloss g (List.mem_cons_of_mem _ hg)
    refine ⟨n₁ + n₂, by push_cast; omega, ?_⟩
    simp [fieldsWire, hk, hwire₁, hwire₂, slice_add]

/-- The encoding of a described unit is the bytes it describes. -/
theorem Describes.wire {items : List Item} {p q : Int} (h : Describes o u memory m items p q)
    (hitems : ∀ i ∈ items, ∀ f ∈ i.fields, Declared o u f)
    (hloss : ∀ i ∈ items, ∀ f ∈ i.fields, ∀ k ∈ fieldKind o u f, k.Lossless) :
    ∃ n : Nat, q = p + n ∧ unitWire o u memory items m = some (slice memory p n, m) := by
  induction h with
  | nil p => exact ⟨0, by simp, rfl⟩
  | property _ ih =>
    exact ih (fun i hi => hitems i (List.mem_cons_of_mem _ hi))
      fun i hi => hloss i (List.mem_cons_of_mem _ hi)
  | var _ _ ih =>
    exact ih (fun i hi => hitems i (List.mem_cons_of_mem _ hi))
      fun i hi => hloss i (List.mem_cons_of_mem _ hi)
  | lookAhead he _ ih =>
    simp only [unitWire, he]
    exact ih (fun i hi => hitems i (List.mem_cons_of_mem _ hi))
      fun i hi => hloss i (List.mem_cons_of_mem _ hi)
  | @field f rest p q r hdesc _ ih =>
    obtain ⟨n₁, rfl, hwire₁⟩ := hdesc.wire (hitems (.field f) (by simp)) (hloss (.field f) (by simp))
    obtain ⟨n₂, rfl, hwire₂⟩ := ih (fun i hi => hitems i (List.mem_cons_of_mem _ hi))
      fun i hi => hloss i (List.mem_cons_of_mem _ hi)
    refine ⟨n₁ + n₂, by push_cast; omega, ?_⟩
    simp [unitWire, hwire₁, hwire₂, slice_add]
  | @switch s e fs rest p q r he hsel hdesc _ ih =>
    have hsub : ∀ f ∈ fs, f ∈ (Item.switch s).fields := by
      obtain ⟨x, -, hx⟩ := Option.map_eq_some_iff.mp hsel
      cases hx
      exact selectedFields_sub s.cases x.2
    obtain ⟨n₁, rfl, hwire₁⟩ := hdesc.wire (fun f hf => hitems _ (by simp) f (hsub f hf))
      fun f hf => hloss _ (by simp) f (hsub f hf)
    obtain ⟨n₂, rfl, hwire₂⟩ := ih (fun i hi => hitems i (List.mem_cons_of_mem _ hi))
      fun i hi => hloss i (List.mem_cons_of_mem _ hi)
    refine ⟨n₁ + n₂, by push_cast; omega, ?_⟩
    simp [unitWire, he, hsel, hwire₁, hwire₂, slice_add]

end Wire

end Diffingo.Codec
