import Diffingo.Codec.Boundaries
import Diffingo.Codec.Encoding

/-!
# Input pointers

With the option `input_pointers` a range of a compact unit is a `var_stream_range`, a position in the
input, and without it a `var_bytes`, a copy of the bytes. The struct, the parser and the serializer
choose between the two at the same fields. So both parsers read the same, and as long as the input
stays as it is, both serializers write the same.
-/

namespace Diffingo.Codec

open CInteger ByteMemory Resumable Diffingo.Spec Diffingo.Runtime Diffingo.Generation
open InstantiationDependencyResolver (visit)
open InstantiationTypeGenerator (Piece pieces kept itemContext lengths rangeLength copyFor rangeField
  Nameable Omitted)

/-- The options without `input_pointers`. -/
abbrev copying : Options := {}

/-- The options with `input_pointers`. -/
abbrev pointing : Options := { inputPointers := true }

/-- The fields that the application cannot access. -/
def rangeIds (K : UnitType) : Set String :=
  {x | ∃ f, .field f ∈ K.items ∧ f.applicationAccessible = false ∧ f.id = x}

/-- A unit that compiles with both options. Its lengths are ordinary ones, and its expressions name
only what the application can access. -/
structure Bimodal (K : UnitType) : Prop where
  supported : ∀ o, Supported o K
  small : ∀ o, ∀ i ∈ K.items, SmallLengths o K i.fields
  cases : ∀ s, .switch s ∈ K.items → ∀ f ∈ s.fields, f.applicationAccessible = true
  lengths : ∀ i ∈ K.items, ∀ f ∈ i.fields, ∀ ex ∈ (fieldKind copying K f).bind FieldKind.length,
    ∀ x ∈ ex.members, x ∉ rangeIds K
  parse : ∀ v, .var v ∈ K.items → ∀ ex ∈ parseExpression v, ∀ x ∈ ex.members, x ∉ rangeIds K
  serialize : ∀ v, .var v ∈ K.items →
    ∀ ex ∈ (lookupAttribute v.attributes "serialize").bind (·.value),
      ∀ x ∈ ex.members, x ∉ rangeIds K
  switches : ∀ s, .switch s ∈ K.items → ∀ ex ∈ s.expression, ∀ x ∈ ex.members, x ∉ rangeIds K

/-- A range of the input and a copy of it. -/
def RangeMatches (memory : Memory) (c c' : Cell) : Prop :=
  c'.len_ = c.len_ ∧ c'.data_ = slice memory c.start_ c.len_

/-- A unit with pointers and one with copies: the same values for the application, and the same bytes
for the ranges in `R`. -/
structure Paired (K : UnitType) (memory : Memory) (R : Set String) (m m' : UnitMemory) : Prop where
  agree : Agree (unitEnv pointing K) (rangeIds K)ᶜ m m'
  ranges : ∀ x ∈ R, RangeMatches memory (m x) (m' x)

/-- Reads that end at the same place with a pair of units. -/
def PairedRead (K : UnitType) (memory : Memory) (R : Set String) : Read → Read → Prop
  | .short, .short => True
  | .next m p, .next m' p' => p = p' ∧ Paired K memory R m m'
  | _, _ => False

/-! ## The fields -/

section Evaluations

variable {env : Env} {S : Set String}

theorem evalLength_keeps {ex : Expr} (h : Confined env S ex) {m : UnitMemory}
    {r : Nat × UnitMemory} (hr : evalLength env ex m = some r) {x : String} (hx : x ∉ S) :
    r.2 x = m x := by
  obtain ⟨_, -, hr⟩ := Option.bind_eq_some_iff.mp hr
  obtain ⟨v, hv, hr⟩ := Option.bind_eq_some_iff.mp hr
  obtain ⟨_, -, rfl⟩ := Option.map_eq_some_iff.mp hr
  exact eval_keeps h hv x hx

theorem select_keeps {g : SwitchGuard} (h : Confined env S g.expression) {m : UnitMemory}
    {r : UnitMemory × Option Nat} (hr : g.select env m = some r) {x : String} (hx : x ∉ S) :
    r.1 x = m x := by
  obtain ⟨_, -, hr⟩ := Option.bind_eq_some_iff.mp hr
  split at hr
  · obtain ⟨v, hv, hr⟩ := Option.bind_eq_some_iff.mp hr
    obtain ⟨_, -, rfl⟩ := Option.map_eq_some_iff.mp hr
    exact eval_keeps h hv x hx
  · cases hr

/-- A relation between the results can use where they come from. -/
theorem rel_of_eq {α β : Type} {P Q : α → β → Prop} {a : Option α} {b : Option β}
    (h : Option.Rel P a b) (hq : ∀ x y, a = some x → b = some y → P x y → Q x y) :
    Option.Rel Q a b := by
  cases h with
  | none => exact .none
  | some hab => exact .some (hq _ _ rfl rfl hab)

end Evaluations

section Fields

variable {K : UnitType} {f : AtomicField}

theorem fieldKind_mode (hf : f.applicationAccessible = true) (o o' : Options) :
    fieldKind o K f = fieldKind o' K f := by
  unfold fieldKind
  simp only [hf, Bool.not_true, Bool.false_and, Bool.false_eq_true, if_false]

theorem fieldMemberType_mode (hf : f.applicationAccessible = true) (o o' : Options) :
    fieldMemberType o f = fieldMemberType o' f := by
  unfold fieldMemberType
  simp only [hf, Bool.not_true, Bool.false_and, Bool.false_eq_true, if_false]

/-- A field that the application cannot access is a range or a copy. -/
theorem fieldKind_inaccessible (hf : f.applicationAccessible = false)
    (hkind : (fieldKind pointing K f).isSome = true) :
    ∃ ex, fieldKind pointing K f = some (.range ex) ∧ fieldKind copying K f = some (.copy ex) ∧
      fieldMemberType pointing f = some .varStreamRange ∧
      fieldMemberType copying f = some .varBytes := by
  unfold fieldKind fieldMemberType at *
  simp only [hf, Bool.not_false, Bool.true_and, if_true, Bool.false_eq_true, if_false] at hkind ⊢
  split at hkind
  · rename_i hst hty
    obtain ⟨ex, hex⟩ := Option.isSome_iff_exists.mp (by simpa using hkind)
    exact ⟨ex, by simp [hex], by simp [hst, hty, hex], by simp [hty, cType], by simp [hty, cType]⟩
  · cases hkind

end Fields

section Modes

variable {K : UnitType} {memory : Memory} {e : Int} {R : Set String}

variable (h : Bimodal K)

include h

/-- What the application can access has the same type in both structs. -/
theorem Bimodal.same : (unitEnv pointing K).Same (unitEnv copying K) (rangeIds K)ᶜ where
  unit := rfl
  dollar := rfl
  dollar_mem := fun x hx => by cases hx
  members := by
    intro x hx
    have hlookup : ∀ items : List Item, (∀ i ∈ items, i ∈ K.items) →
        (items.flatMap (itemMembers copying)).lookup x =
          (items.flatMap (itemMembers pointing)).lookup x := by
      intro items
      induction items with
      | nil => exact fun _ => rfl
      | cons i rest ih =>
        intro hsub
        have hi := hsub i List.mem_cons_self
        rw [List.flatMap_cons, List.flatMap_cons, List.lookup_append, List.lookup_append,
          ih fun j hj => hsub j (List.mem_cons_of_mem i hj)]
        congr 1
        cases i with
        | field f =>
          cases hf : f.applicationAccessible with
          | true => simp only [itemMembers, fieldMemberType_mode hf copying pointing]
          | false =>
            have hne : (x == f.id) = false :=
              beq_eq_false_iff_ne.mpr fun heq => hx ⟨f, hi, hf, heq.symm⟩
            simp [itemMembers, List.lookup_cons, hne]
        | switch s =>
          have hmap : s.fields.map (fun f => (f.id, fieldMemberType copying f)) =
              s.fields.map fun f => (f.id, fieldMemberType pointing f) :=
            List.map_congr_left fun f hf => by
              rw [fieldMemberType_mode (h.cases s hi f hf) copying pointing]
          simp only [itemMembers, hmap]
        | var v => rfl
        | property a => rfl
    simp only [unitEnv, unitMembers, hlookup K.items fun _ hi => hi]

/-- The members of an item that the application can access are no ranges. -/
theorem Bimodal.not_range {i : Item} (hi : i ∈ K.items)
    (hacc : ∀ f, i = .field f → f.applicationAccessible = true) {x : String}
    (hx : x ∈ i.memberIds) : x ∉ rangeIds K := by
  rintro ⟨g, hg, hgacc, rfl⟩
  obtain rfl : i = .field g :=
    item_unique (h.supported copying).distinct hi hg hx (List.mem_singleton.mpr rfl)
  rw [hacc g rfl] at hgacc
  cases hgacc

theorem Bimodal.field_not_range {i : Item} (hi : i ∈ K.items) {f : AtomicField} (hf : f ∈ i.fields)
    (hacc : f.applicationAccessible = true) : f.id ∉ rangeIds K := by
  cases i with
  | field g =>
    obtain rfl := List.mem_singleton.mp hf
    exact h.not_range hi (fun g hg => by cases hg; exact hacc) (List.mem_singleton.mpr rfl)
  | switch s => exact h.not_range hi (fun g hg => by cases hg) (List.mem_map.mpr ⟨f, hf, rfl⟩)
  | var v => cases hf
  | property a => cases hf

/-- The kind of an accessible field, in both modes. -/
theorem Bimodal.kind {i : Item} (hi : i ∈ K.items) {f : AtomicField} (hf : f ∈ i.fields)
    (hacc : f.applicationAccessible = true) :
    ∃ k ty, fieldKind pointing K f = some k ∧ fieldKind copying K f = some k ∧
      (unitEnv pointing K).members f.id = some ty ∧ k.HasMember ty ∧
      ∀ ex ∈ k.length, ∀ x ∈ ex.members, x ∈ (rangeIds K)ᶜ := by
  obtain ⟨k, ty, hk, hty, hmem⟩ := (h.supported pointing).declared hi hf
  have hk' := (fieldKind_mode hacc copying pointing).trans hk
  exact ⟨k, ty, hk, hk', hty, hmem, fun ex hex => h.lengths i hi f hf ex (by simpa [hk'] using hex)⟩

/-! ## The readers -/

omit h in
/-- An expression that names no range changes none. -/
theorem confined_ranges (o : Options) {ex : Expr} (hex : ∀ x ∈ ex.members, x ∈ (rangeIds K)ᶜ) :
    Confined (unitEnv o K) (rangeIds K)ᶜ ex := by
  refine .inr fun x hx => ?_
  rcases hx with hx | hx
  · exact hex x hx
  · cases hx

omit h in
theorem Paired.step {m m' m₁ m₁' : UnitMemory} (hpair : Paired K memory R m m')
    (hagree : Agree (unitEnv pointing K) (rangeIds K)ᶜ m₁ m₁') (hm : ∀ x ∈ R, m₁ x = m x)
    (hm' : ∀ x ∈ R, m₁' x = m' x) : Paired K memory R m₁ m₁' := by
  refine ⟨hagree, fun x hx => ?_⟩
  rw [hm x hx, hm' x hx]
  exact hpair.ranges x hx

theorem Bimodal.evalLength_paired (hR : R ⊆ rangeIds K) {ex : Expr}
    (hex : ∀ x ∈ ex.members, x ∈ (rangeIds K)ᶜ) {m m' : UnitMemory}
    (hpair : Paired K memory R m m') :
    Option.Rel (fun r r' => r.1 = r'.1 ∧ Paired K memory R r.2 r'.2)
      (evalLength (unitEnv pointing K) ex m) (evalLength (unitEnv copying K) ex m') :=
  rel_of_eq (evalLength_related h.same hex hpair.agree) fun _ _ hr hr' hrel => ⟨hrel.1,
    hpair.step hrel.2
      (fun _ hx => evalLength_keeps (confined_ranges _ hex) hr (not_not.mpr (hR hx)))
      fun _ hx => evalLength_keeps (confined_ranges _ hex) hr' (not_not.mpr (hR hx))⟩

theorem Bimodal.select_paired (hR : R ⊆ rangeIds K) {g : SwitchGuard}
    (hg : ∀ x ∈ g.expression.members, x ∈ (rangeIds K)ᶜ) {m m' : UnitMemory}
    (hpair : Paired K memory R m m') :
    Option.Rel (fun r r' => r.2 = r'.2 ∧ Paired K memory R r.1 r'.1)
      (g.select (unitEnv pointing K) m) (g.select (unitEnv copying K) m') :=
  rel_of_eq (select_same h.same hg hpair.agree) fun _ _ hr hr' hrel => ⟨hrel.1,
    hpair.step hrel.2
      (fun _ hx => select_keeps (confined_ranges _ hg) hr (not_not.mpr (hR hx)))
      fun _ hx => select_keeps (confined_ranges _ hg) hr' (not_not.mpr (hR hx))⟩

omit h in
theorem pairedRead_bind {a b : Option Read} (hab : Option.Rel (PairedRead K memory R) a b)
    {R' : Set String} {k k' : UnitMemory → Int → Option Read}
    (hk : ∀ m m' p, Paired K memory R m m' → Option.Rel (PairedRead K memory R') (k m p) (k' m' p)) :
    Option.Rel (PairedRead K memory R') (a.bind (·.andThen k)) (b.bind (·.andThen k')) := by
  refine rel_bind hab fun r r' hr => ?_
  cases r with
  | short =>
    cases r' with
    | short => exact .some trivial
    | next m' q => cases hr
  | next m p =>
    cases r' with
    | short => cases hr
    | next m' q =>
      obtain ⟨rfl, hpair⟩ := hr
      exact hk m m' p hpair

/-- Fields that the application can access are read alike. -/
theorem Bimodal.readFields_paired {i : Item} (hi : i ∈ K.items) {fs : List AtomicField}
    (hfs : ∀ f ∈ fs, f ∈ i.fields ∧ f.applicationAccessible = true) (hR : R ⊆ rangeIds K)
    {m m' : UnitMemory} (hpair : Paired K memory R m m') (p : Int) :
    Option.Rel (PairedRead K memory R) ((schema pointing K).readFields memory e fs m p)
      ((schema copying K).readFields memory e fs m' p) := by
  induction fs generalizing m m' p with
  | nil => exact .some ⟨rfl, hpair⟩
  | cons f fs ih =>
    obtain ⟨hf, hacc⟩ := hfs f List.mem_cons_self
    obtain ⟨k, ty, hk, hk', hty, hmem, hlen⟩ := h.kind hi hf hacc
    have hsize : Option.Rel (fun r r' => r.1 = r'.1 ∧ Paired K memory R r.2 r'.2)
        (k.size (unitEnv pointing K) m) (k.size (unitEnv copying K) m') := by
      cases k with
      | int t bo => exact .some ⟨rfl, hpair⟩
      | cast t bo ty => exact .some ⟨rfl, hpair⟩
      | copy ex => exact h.evalLength_paired hR (hlen ex rfl) hpair
      | range ex => exact h.evalLength_paired hR (hlen ex rfl) hpair
    have hother : ∀ x ∈ R, x ≠ f.id := fun x hx heq =>
      h.field_not_range hi hf hacc (heq ▸ hR hx)
    change Option.Rel _ ((fieldKind pointing K f).bind _) ((fieldKind copying K f).bind _)
    rw [hk, hk', Option.bind_some, Option.bind_some]
    refine pairedRead_bind (rel_map_rel hsize fun r r' hr => ?_) fun m m' q hpair =>
      ih (fun g hg => hfs g (List.mem_cons_of_mem f hg)) hpair q
    rw [hr.1]
    split
    · trivial
    · exact ⟨rfl, hr.2.step (hr.2.agree.update hty (stored_read hmem _ _ _))
        (fun x hx => Function.update_of_ne (hother x hx) _ _)
        fun x hx => Function.update_of_ne (hother x hx) _ _⟩

/-- The ranges that an item adds. -/
def itemRanges (i : Item) : Set String :=
  {x | ∃ f, i = .field f ∧ f.applicationAccessible = false ∧ f.id = x}

omit h in
theorem PairedRead.mono {R' : Set String} (hR : ∀ x ∈ R', x ∈ R) {r r' : Read}
    (hr : PairedRead K memory R r r') : PairedRead K memory R' r r' := by
  cases r with
  | short =>
    cases r' with
    | short => trivial
    | next m' p' => cases hr
  | next m p =>
    cases r' with
    | short => cases hr
    | next m' p' => exact ⟨hr.1, hr.2.agree, fun x hx => hr.2.ranges x (hR x hx)⟩

/-- A range is read by one parser as a position and by the other as a copy. -/
theorem Bimodal.readRange_paired {f : AtomicField} (hi : .field f ∈ K.items)
    (hf : f.applicationAccessible = false) (hR : R ⊆ rangeIds K) {m m' : UnitMemory}
    (hpair : Paired K memory R m m') (p : Int) :
    Option.Rel (PairedRead K memory (R ∪ itemRanges (.field f)))
      ((schema pointing K).readItem memory e (.field f) m p)
      ((schema copying K).readItem memory e (.field f) m' p) := by
  obtain ⟨ex, hk, hk', -⟩ := fieldKind_inaccessible hf
    ((h.supported pointing).kinds _ hi f (List.mem_singleton.mpr rfl))
  have hlen : ∀ x ∈ ex.members, x ∈ (rangeIds K)ᶜ := h.lengths _ hi f (List.mem_singleton.mpr rfl) ex
    (by rw [hk']; rfl)
  rw [readItem_field (schema pointing K) hk, readItem_field (schema copying K) hk']
  refine rel_map_rel (h.evalLength_paired hR hlen hpair) fun r r' hr => ?_
  obtain ⟨heq, hagree, hranges⟩ := hr
  rw [← heq]
  split
  · trivial
  · have hother : ∀ x ∈ (rangeIds K)ᶜ, x ≠ f.id := fun x hx heq => hx ⟨f, hi, hf, heq.symm⟩
    refine ⟨rfl, agree_other hagree (fun x hx => Function.update_of_ne (hother x hx) _ _)
      (fun x hx => Function.update_of_ne (hother x hx) _ _), fun x hx => ?_⟩
    by_cases hxf : x = f.id
    · subst hxf
      rw [Function.update_self, Function.update_self]
      exact ⟨rfl, rfl⟩
    · rw [Function.update_of_ne hxf, Function.update_of_ne hxf]
      refine hranges x (hx.resolve_right ?_)
      rintro ⟨g, hg, -, rfl⟩
      cases hg
      exact hxf rfl

/-- Both parsers read an item alike. -/
theorem Bimodal.readItem_paired {i : Item} (hi : i ∈ K.items) (hR : R ⊆ rangeIds K)
    {m m' : UnitMemory} (hpair : Paired K memory R m m') (p : Int) :
    Option.Rel (PairedRead K memory (R ∪ itemRanges i))
      ((schema pointing K).readItem memory e i m p)
      ((schema copying K).readItem memory e i m' p) := by
  have hsame : (∀ f, i ≠ .field f ∨ f.applicationAccessible = true) → ∀ {a b},
      Option.Rel (PairedRead K memory R) a b →
        Option.Rel (PairedRead K memory (R ∪ itemRanges i)) a b := by
    intro hacc a b hab
    refine rel_of_eq hab fun r r' _ _ hr => PairedRead.mono (fun x hx => ?_) hr
    refine hx.resolve_right ?_
    rintro ⟨f, hf, hfalse, -⟩
    exact (hacc f).elim (fun hne => hne hf) fun htrue => by rw [htrue] at hfalse; cases hfalse
  cases i with
  | property a => exact hsame (by simp) (.some ⟨rfl, hpair⟩)
  | field f =>
    cases hf : f.applicationAccessible with
    | false => exact h.readRange_paired hi hf hR hpair p
    | true =>
      refine hsame (fun g => ?_) (h.readFields_paired hi (fun g hg => ?_) hR hpair p)
      · by_cases hg : g = f
        · exact .inr (hg ▸ hf)
        · exact .inl fun heq => hg (by cases heq; rfl)
      · obtain rfl := List.mem_singleton.mp hg
        exact ⟨List.mem_singleton.mpr rfl, hf⟩
  | var v =>
    have hv := h.not_range hi (fun g hg => by cases hg) (List.mem_singleton.mpr rfl)
    have hkeeps : ∀ o {m m₁ : UnitMemory}, (schema o K).readVariable v m = some m₁ →
        ∀ x ∈ R, m₁ x = m x := by
      intro o m m₁ hm₁ x hx
      unfold Schema.readVariable at hm₁
      split at hm₁
      · cases hm₁
        rfl
      · rename_i ex hex
        obtain ⟨r, hr, rfl⟩ := Option.map_eq_some_iff.mp hm₁
        refine assignTo_keeps (fun y hy => ?_) _
          (eval_keeps (confined_ranges o (h.parse v hi ex hex))) hr x (not_not.mpr (hR hx))
        obtain ⟨ty, -, rfl⟩ := Option.map_eq_some_iff.mp hy
        exact hv
    refine hsame (by simp) (rel_map_rel (rel_of_eq (readVariable_related (c := schema pointing K)
      (d := schema copying K) h.same hv (h.parse v hi) hpair.agree) fun m₁ m₂ hm₁ hm₂ hagree =>
        hpair.step hagree (hkeeps pointing hm₁) (hkeeps copying hm₂)) fun m₁ m₂ hpair => ⟨rfl, hpair⟩)
  | switch s =>
    refine hsame (by simp) ?_
    simp only [Schema.readItem]
    split
    · exact .some ⟨rfl, hpair⟩
    · rename_i ex hex
      have hsel : Option.Rel (fun r r' => r.2 = r'.2 ∧ (∀ f ∈ r.2, f ∈ s.fields) ∧
            Paired K memory R r.1 r'.1)
          ((schema pointing K).selectCase ex s m) ((schema copying K).selectCase ex s m') :=
        rel_map_rel (h.select_paired hR (g := switchGuard ex s) (h.switches s hi ex hex) hpair)
          fun r r' hr => ⟨by rw [hr.1], selectedFields_sub s.cases r.2, hr.2⟩
      refine rel_bind hsel fun r r' hr => ?_
      obtain ⟨heq, hsub, hpair⟩ := hr
      rw [← heq]
      exact h.readFields_paired hi (fun f hf => ⟨hsub f hf, h.cases s hi f (hsub f hf)⟩) hR hpair p

/-- Both parsers read the unit alike. -/
theorem Bimodal.readItems_paired {items : List Item} (hitems : ∀ i ∈ items, i ∈ K.items)
    (hR : R ⊆ rangeIds K) {m m' : UnitMemory} (hpair : Paired K memory R m m') (p : Int) :
    Option.Rel (PairedRead K memory {x | x ∈ R ∨ ∃ i ∈ items, x ∈ itemRanges i})
      ((schema pointing K).readItems memory e items m p)
      ((schema copying K).readItems memory e items m' p) := by
  induction items generalizing R m m' p with
  | nil =>
    refine .some ⟨rfl, hpair.agree, fun x hx => hpair.ranges x (hx.resolve_right ?_)⟩
    rintro ⟨i, hi, -⟩
    cases hi
  | cons i rest ih =>
    have hi := hitems i List.mem_cons_self
    have hR' : R ∪ itemRanges i ⊆ rangeIds K := by
      rintro x (hx | ⟨f, rfl, hf, rfl⟩)
      · exact hR hx
      · exact ⟨f, hi, hf, rfl⟩
    have hset : {x | x ∈ R ∨ ∃ j ∈ i :: rest, x ∈ itemRanges j} =
        {x | x ∈ R ∪ itemRanges i ∨ ∃ j ∈ rest, x ∈ itemRanges j} := by
      ext x
      simp [or_assoc]
    rw [hset]
    exact pairedRead_bind (h.readItem_paired hi hR hpair p) fun m m' q hpair =>
      ih (fun j hj => hitems j (List.mem_cons_of_mem i hj)) hR' hpair q

/-! ## The serializers -/

theorem Bimodal.update_names {a : Update} (ha : a ∈ updates K) : ∀ x ∈ a.names, x ∉ rangeIds K := by
  rcases mem_updates ha with ⟨f, hf, hup⟩ | ⟨v, ex, hv, hex, rfl⟩
  · obtain ⟨hacc, hser, b, c, hlen, rfl⟩ := lengthUpdate_spec hup
    have hmem : f ∈ (Item.field f).fields := List.mem_singleton.mpr rfl
    obtain ⟨k, -, -, hk, -⟩ := h.kind hf hmem hacc
    obtain ⟨ex, hex, rfl⟩ := fieldKind_accessible hk hacc hser
    obtain rfl : .binary .attribute b c = ex := Option.some.inj (hlen.symm.trans hex)
    intro x hx
    rcases List.mem_cons.mp hx with rfl | hx
    · exact h.field_not_range hf hmem hacc
    · exact h.lengths _ hf f hmem _ (by rw [hk]; rfl) x hx
  · intro x hx
    rcases List.mem_cons.mp hx with rfl | hx
    · exact h.not_range hv (fun g hg => by cases hg) (List.mem_singleton.mpr rfl)
    · exact h.serialize v hv ex hex x hx

theorem Bimodal.runUpdates_paired {m m' : UnitMemory} (hpair : Paired K memory (rangeIds K) m m') :
    Option.Rel (Paired K memory (rangeIds K)) (runUpdates (unitEnv pointing K) (updates K) m)
      (runUpdates (unitEnv copying K) (updates K) m') := by
  refine rel_of_eq (runUpdates_same h.same (fun a ha => h.update_names ha) hpair.agree)
    fun m₁ m₂ hm₁ hm₂ hagree => hpair.step hagree (fun x hx => ?_) fun x hx => ?_
  · exact runUpdates_other rfl hm₁ fun a ha hmem => h.update_names ha x hmem hx
  · exact runUpdates_other rfl hm₂ fun a ha hmem => h.update_names ha x hmem hx

theorem Bimodal.fieldsWire_same {i : Item} (hi : i ∈ K.items) {fs : List AtomicField}
    (hfs : ∀ f ∈ fs, f ∈ i.fields ∧ f.applicationAccessible = true) {m m' : UnitMemory}
    (hagree : Agree (unitEnv pointing K) (rangeIds K)ᶜ m m') (input : Memory) :
    fieldsWire pointing K input fs m = fieldsWire copying K input fs m' := by
  induction fs with
  | nil => rfl
  | cons f fs ih =>
    obtain ⟨hf, hfacc⟩ := hfs f List.mem_cons_self
    simp only [fieldsWire, fieldKind_mode hfacc pointing copying,
      fieldWire_same h.same (h.field_not_range hi hf hfacc) hagree, ih fun g hg => hfs g (List.mem_cons_of_mem f hg)]

/-- A range is written from the input or from its copy. -/
theorem Bimodal.rangeWire_same {f : AtomicField} (hi : .field f ∈ K.items)
    (hf : f.applicationAccessible = false) {m m' : UnitMemory}
    (hrange : RangeMatches memory (m f.id) (m' f.id)) :
    fieldsWire pointing K memory [f] m = fieldsWire copying K memory [f] m' := by
  have hmem : f ∈ (Item.field f).fields := List.mem_singleton.mpr rfl
  obtain ⟨ex, hk, hk', hty, hty'⟩ := fieldKind_inaccessible hf
    ((h.supported pointing).kinds _ hi f hmem)
  have hm : (unitEnv pointing K).members f.id = some .varStreamRange :=
    unitEnv_members (h.supported pointing).distinct hi (by simp [itemMembers, hty])
  have hm' : (unitEnv copying K).members f.id = some .varBytes :=
    unitEnv_members (h.supported copying).distinct hi (by simp [itemMembers, hty'])
  obtain ⟨hlen, hdata⟩ := hrange
  simp [fieldsWire, fieldWire, hk, hk', hm, hm', Cell.read, FieldKind.encode, hlen, hdata]

/-- Both serializers write the same. -/
theorem Bimodal.unitWire_paired {items : List Item} (hitems : ∀ i ∈ items, i ∈ K.items)
    {m m' : UnitMemory} (hpair : Paired K memory (rangeIds K) m m') :
    Option.Rel (fun r r' => r.1 = r'.1 ∧ Paired K memory (rangeIds K) r.2 r'.2)
      (unitWire pointing K memory items m) (unitWire copying K memory items m') := by
  induction items generalizing m m' with
  | nil => exact .some ⟨rfl, hpair⟩
  | cons i rest ih =>
    have hi := hitems i List.mem_cons_self
    have ih := @ih fun j hj => hitems j (List.mem_cons_of_mem i hj)
    cases i with
    | property a => exact ih hpair
    | var v => exact ih hpair
    | field f =>
      have hwire : fieldsWire pointing K memory [f] m = fieldsWire copying K memory [f] m' := by
        cases hf : f.applicationAccessible with
        | false => exact h.rangeWire_same hi hf (hpair.ranges f.id ⟨f, hi, hf, rfl⟩)
        | true =>
          refine h.fieldsWire_same hi (fun g hg => ?_) hpair.agree memory
          obtain rfl := List.mem_singleton.mp hg
          exact ⟨List.mem_singleton.mpr rfl, hf⟩
      simp only [unitWire, hwire]
      exact rel_bind_same fun bs => rel_map_rel (ih hpair) fun r r' hr => ⟨by rw [hr.1], hr.2⟩
    | switch s =>
      simp only [unitWire]
      split
      · exact ih hpair
      · rename_i ex hex
        have hsel : Option.Rel (fun r r' => r.2 = r'.2 ∧ (∀ f ∈ r.2, f ∈ s.fields) ∧
              Paired K memory (rangeIds K) r.1 r'.1)
            (switchCase pointing K ex s m) (switchCase copying K ex s m') :=
          rel_map_rel (h.select_paired subset_rfl (g := switchGuard ex s) (h.switches s hi ex hex)
            hpair) fun r r' hr => ⟨by rw [hr.1], selectedFields_sub s.cases r.2, hr.2⟩
        refine rel_bind hsel fun r r' hr => ?_
        obtain ⟨heq, hsub, hpair⟩ := hr
        rw [← heq, h.fieldsWire_same hi
          (fun f hf => ⟨hsub f hf, h.cases s hi f (hsub f hf)⟩) hpair.agree memory]
        exact rel_bind_same fun bs => rel_map_rel (ih hpair) fun q q' hq => ⟨by rw [hq.1], hq.2⟩

/-- The unit with pointers and the one with copies are encoded alike. -/
theorem Bimodal.encoding_eq {m m' : UnitMemory} (hpair : Paired K memory (rangeIds K) m m') :
    encoding pointing K memory m = encoding copying K memory m' := by
  have hrel : Option.Rel Eq (encoding pointing K memory m) (encoding copying K memory m') :=
    rel_bind (h.runUpdates_paired hpair) fun m₁ m₂ hpair =>
      rel_map_rel (h.unitWire_paired (fun _ hi => hi) hpair) fun r r' hr => hr.1
  generalize encoding pointing K memory m = a at hrel ⊢
  generalize encoding copying K memory m' = b at hrel ⊢
  cases hrel with
  | none => rfl
  | some heq => rw [heq]

end Modes

/-! ## Compact units -/

theorem members_none {o : Options} {K : UnitType} {x : String}
    (hx : x ∉ K.items.flatMap Item.memberIds) : (unitEnv o K).members x = none := by
  have hlookup : (unitMembers o K).lookup x = none := by
    rw [List.lookup_eq_none_iff]
    intro p hp
    rw [bne_iff_ne]
    rintro rfl
    rw [← unitMembers_ids o K] at hx
    exact hx (List.mem_map.mpr ⟨p, hp, rfl⟩)
  simp [unitEnv, hlookup]

/-- The lengths that a reader evaluates are those of bytes and strings. -/
theorem fieldKind_length_iff {o : Options} {u : UnitType} {f : AtomicField}
    (hacc : f.applicationAccessible = true) {ex : Expr} :
    ex ∈ (fieldKind o u f).bind FieldKind.length ↔
      f.length = some ex ∧ f.serializedType = none ∧ (f.type = .bytes ∨ f.type = .string) := by
  constructor
  · intro hex
    refine ⟨fieldKind_length hex, ?_⟩
    obtain ⟨k, hk, hlen⟩ := Option.bind_eq_some_iff.mp hex
    unfold fieldKind at hk
    simp only [hacc, Bool.not_true, Bool.false_and, Bool.false_eq_true, if_false] at hk
    split at hk
    · rename_i hst hty
      exact ⟨hst, .inl hty⟩
    · rename_i hst hty
      exact ⟨hst, .inr hty⟩
    · split at hk
      · obtain ⟨bo, -, rfl⟩ := Option.map_eq_some_iff.mp hk
        cases hlen
      · cases hk
    · split at hk
      · obtain ⟨bo, -, hk⟩ := Option.bind_eq_some_iff.mp hk
        obtain ⟨ty, -, hk⟩ := Option.bind_eq_some_iff.mp hk
        split at hk
        · cases hk
          cases hlen
        · cases hk
      · cases hk
    · cases hk
  · rintro ⟨hlen, hst, hty | hty⟩ <;> simp [fieldKind, hacc, hlen, hst, hty, FieldKind.length]

theorem copyFor_switch (name : String) (context : Finset DependencyContext) {s : Switch}
    (hacc : ∀ f ∈ s.fields, f.applicationAccessible = true) :
    ∃ s', (copyFor context (.switch s)).replaceSelf name = .switch s' ∧ s'.fields = s.fields ∧
      s'.expression = s.expression.map (·.replaceSelf name) := by
  have hfields : s.clone.fields = s.fields := by
    have hclone : s.clone.fields = s.fields.map AtomicField.clone := by
      simp [Switch.clone, Switch.fields, Case.clone, List.flatMap_map, List.map_flatMap]
    rw [hclone]
    refine (List.map_congr_left fun f hf => ?_).trans (List.map_id _)
    rw [AtomicField.clone, ← hacc f hf]
    rfl
  unfold InstantiationTypeGenerator.copyFor
  split
  · exact ⟨_, rfl, hfields, rfl⟩
  · exact ⟨_, rfl, hfields, rfl⟩

/-- A flat unit whose fields are all accessible, and whose compact unit compiles. No expression names
a range. -/
structure Pointable (deps : List Dependency) (name : String) (n : Nat) (u : UnitType) : Prop
    extends Flat copying u, Nameable deps n u where
  accessible : ∀ i ∈ u.items, ∀ f ∈ i.fields, f.applicationAccessible = true
  compiles : ∀ i ∈ (compactUnit deps name n u).items, ∀ f ∈ i.fields,
    (fieldKind copying (compactUnit deps name n u) f).isSome = true
  parse : ∀ v, .var v ∈ u.items → ∀ ex ∈ parseExpression v, ∀ k, n < k → anonymousId k ∉ ex.members
  serialize : ∀ v, .var v ∈ u.items →
    ∀ ex ∈ (lookupAttribute v.attributes "serialize").bind (·.value),
      ∀ k, n < k → anonymousId k ∉ ex.members
  switches : ∀ s, .switch s ∈ u.items → ∀ ex ∈ s.expression, ∀ k, n < k → anonymousId k ∉ ex.members

section Compact

variable {u : UnitType} {deps : List Dependency} {name : String} {n : Nat}

/-- Where an item of the compact unit comes from. -/
inductive Origin (name : String) (n : Nat) (u : UnitType) : Item → Prop
  | field {f : AtomicField} (b : Bool) : .field f ∈ u.items →
      Origin name n u (.field (copyField name b f))
  | var {v : Variable} (b : Bool) : .var v ∈ u.items →
      Origin name n u (.var (copyVariable name b v))
  | switch {s s' : Switch} : .switch s ∈ u.items → s'.fields = s.fields →
      s'.expression = s.expression.map (·.replaceSelf name) → Origin name n u (.switch s')
  | property (a : Attribute) : Origin name n u (.property a)
  | range {k : Nat} {ex : Expr} : n < k → SumLength (unitEnv copying u) ex →
      Origin name n u (.field (rangeField k (ex.replaceSelf name)))

theorem unitEnv_mode (hacc : ∀ i ∈ u.items, ∀ f ∈ i.fields, f.applicationAccessible = true)
    (o o' : Options) : unitEnv o u = unitEnv o' u := by
  have hitem : ∀ i ∈ u.items, itemMembers o i = itemMembers o' i := by
    intro i hi
    cases i with
    | field f =>
      rw [itemMembers, fieldMemberType_mode (hacc _ hi f (List.mem_singleton.mpr rfl)) o o']
      rfl
    | switch s =>
      exact List.map_congr_left fun f hf => by rw [fieldMemberType_mode (hacc _ hi f hf) o o']
    | var v => rfl
    | property a => rfl
  have hmembers : unitMembers o u = unitMembers o' u := List.flatMap_congr hitem
  simp only [unitEnv, hmembers]

variable (h : Pointable deps name n u)

include h

theorem Pointable.origin {i : Item} (hi : i ∈ (compactUnit deps name n u).items) :
    Origin name n u i := by
  rw [h.toNameable.items] at hi
  obtain ⟨q, hq, rfl⟩ := List.mem_map.mp hi
  rcases (InstantiationTypeGenerator.cut_pieces n [] u.items).mem hq with ⟨i, hj, rfl, -⟩ |
    ⟨k, held, ex, rfl, hk, hex, hheld⟩
  · rw [Piece.item]
    cases i with
    | field f =>
      obtain ⟨b, hb⟩ := copyFor_field name (itemContext deps (.field f)) f
      rw [hb]
      exact .field b hj
    | var v =>
      obtain ⟨b, hb⟩ := copyFor_var name (itemContext deps (.var v)) v
      rw [hb]
      exact .var b hj
    | switch s =>
      obtain ⟨s', hs', hfields, hex⟩ := copyFor_switch name
        (itemContext deps (.switch s)) (h.accessible (.switch s) hj)
      rw [hs']
      exact .switch hj hfields hex
    | property a =>
      rw [copyFor_property]
      exact .property _
  · refine .range hk (rangeLength_sum (fun s hs => ?_) hex).1
    obtain ⟨i, hi, hlen⟩ := List.mem_filterMap.mp hs
    exact h.toFlat.serializedLength_plain ((hheld i hi).resolve_left (by simp)).1 hlen

/-- The ranges of the compact unit have generated names. -/
theorem Pointable.range_id {x : String} (hx : x ∈ rangeIds (compactUnit deps name n u)) :
    ∃ k, n < k ∧ x = anonymousId k := by
  obtain ⟨f, hf, hacc, rfl⟩ := hx
  cases h.origin hf with
  | field b hi => cases hacc
  | range hk _ => exact ⟨_, hk, rfl⟩

/-- A length of the compact unit is a sum of lengths of the unit. -/
theorem Pointable.length {o : Options} {i : Item} (hi : i ∈ (compactUnit deps name n u).items)
    {f : AtomicField} (hf : f ∈ i.fields) {ex : Expr}
    (hex : ex ∈ (fieldKind o (compactUnit deps name n u) f).bind FieldKind.length) :
    ∃ unit, SumLength ((unitEnv copying u).named unit) ex := by
  have hplain : ∀ j ∈ u.items, ∀ g ∈ j.fields, ∀ ex', g.length = some ex' →
      g.serializedType = none → g.type = .bytes ∨ g.type = .string →
      PlainLength (unitEnv copying u) ex' := fun j hj g hg ex' hlen hst hty =>
    h.toFlat.lengths j hj g hg ex'
      ((fieldKind_length_iff (h.accessible j hj g hg)).mpr ⟨hlen, hst, hty⟩)
  cases h.origin hi with
  | @field g b hj =>
    obtain rfl := List.mem_singleton.mp hf
    obtain ⟨hlen, hst, hty⟩ := (fieldKind_length_iff rfl).mp hex
    rw [length_copyField] at hlen
    obtain ⟨ex', hlen', rfl⟩ := Option.map_eq_some_iff.mp hlen
    have hlen'' : PlainLength (((unitEnv copying u).named name).named u.id) ex' :=
      hplain _ hj g (List.mem_singleton.mpr rfl) ex' hlen' hst hty
    exact ⟨name, .plain hlen''.replaceSelf⟩
  | var b hj => cases hf
  | @switch s s' hj hfields _ =>
    have hf : f ∈ s.fields := hfields ▸ hf
    obtain ⟨hlen, hst, hty⟩ := (fieldKind_length_iff (h.accessible _ hj f hf)).mp hex
    exact ⟨u.id, .plain (hplain _ hj f hf ex hlen hst hty)⟩
  | property a => cases hf
  | @range k ex' hk hsum =>
    obtain rfl := List.mem_singleton.mp hf
    obtain rfl : ex = ex'.replaceSelf name := by
      rw [fieldKind_rangeField] at hex
      split at hex <;> cases hex <;> rfl
    have hsum' : SumLength (((unitEnv copying u).named name).named u.id) ex' := hsum
    exact ⟨name, hsum'.replaceSelf⟩

/-- A member of the unit has the same type in the compact unit, or is not there. -/
theorem Pointable.members (o : Options) {x : String} (hx : x ∈ u.items.flatMap Item.memberIds) :
    (unitEnv o (compactUnit deps name n u)).members x = (unitEnv copying u).members x ∨
      (unitEnv o (compactUnit deps name n u)).members x = none := by
  by_cases hkept : x ∈ keptMembers deps u
  · obtain ⟨i, hi, hkept, hx⟩ := hkept
    obtain ⟨ty, hty⟩ := exists_itemMembers (o := o) hx
    obtain ⟨h₁, h₂⟩ := h.toNameable.members name hi hkept (h.accessible i hi) hty
    rw [unitEnv_mode h.accessible copying o]
    exact .inl (h₁.trans h₂.symm)
  · refine .inr (members_none fun hmem => ?_)
    rw [h.toNameable.items, InstantiationTypeGenerator.render, List.flatMap_map] at hmem
    obtain ⟨q, hq, hmem⟩ := List.mem_flatMap.mp hmem
    rw [Piece.memberIds_item] at hmem
    rcases (InstantiationTypeGenerator.cut_pieces n [] u.items).mem hq with
      ⟨i, hi, rfl, hi' | ⟨a, rfl⟩⟩ | ⟨k, held, ex, rfl, hk, -⟩
    · exact hkept ⟨i, hi, hi', hmem⟩
    · cases hmem
    · exact h.fresh k hk (List.mem_singleton.mp hmem ▸ hx)

theorem Pointable.length_members {o : Options} {i : Item}
    (hi : i ∈ (compactUnit deps name n u).items) {f : AtomicField} (hf : f ∈ i.fields) {ex : Expr}
    (hex : ex ∈ (fieldKind o (compactUnit deps name n u) f).bind FieldKind.length) :
    ∀ x ∈ ex.members, x ∈ u.items.flatMap Item.memberIds := by
  intro x hx
  obtain ⟨unit, hsum⟩ := h.length hi hf hex
  obtain ⟨ty, hty⟩ := hsum.declared x hx
  by_contra hnone
  have hnone := members_none (o := copying) hnone
  cases hnone.symm.trans hty

/-- The compact unit works with both options. -/
theorem Pointable.bimodal : Bimodal (compactUnit deps name n u) where
  supported o := by
    refine ⟨h.toNameable.compact_distinct name, fun i hi f hf => ?_⟩
    cases hacc : f.applicationAccessible with
    | true =>
      rw [fieldKind_mode hacc o copying]
      exact h.compiles i hi f hf
    | false =>
      cases h.origin hi with
      | field b hj => cases List.mem_singleton.mp hf ▸ hacc
      | var b hj => cases hf
      | @switch s s' hj hfields _ =>
        have hf : f ∈ s.fields := hfields ▸ hf
        cases (h.accessible _ hj f hf).symm.trans hacc
      | property a => cases hf
      | range hk _ =>
        obtain rfl := List.mem_singleton.mp hf
        rw [fieldKind_rangeField]
        rfl
  small o := by
    intro i hi f hf ex hex m r hr
    obtain ⟨unit, hsum⟩ := h.length hi hf hex
    rcases hsum.elsewhere fun x hx => h.members o (h.length_members hi hf hex x hx) with hsum | hnone
    · exact hsum.small hr
    · rw [hnone] at hr
      cases hr
  cases s hs f hf := by
    cases h.origin hs with
    | @switch s s' hj hfields _ =>
      have hf : f ∈ s.fields := hfields ▸ hf
      exact h.accessible _ hj f hf
  lengths i hi f hf ex hex x hx hrange := by
    obtain ⟨k, hk, rfl⟩ := h.range_id hrange
    exact h.fresh k hk (h.length_members hi hf hex _ hx)
  parse v hv ex hex x hx hrange := by
    obtain ⟨k, hk, rfl⟩ := h.range_id hrange
    cases h.origin hv with
    | var b hj =>
      rw [parseExpression_copyVariable] at hex
      obtain ⟨ex', hex', rfl⟩ := Option.map_eq_some_iff.mp hex
      rw [Expr.members_replaceSelf] at hx
      exact h.parse _ hj ex' hex' k hk hx
  serialize v hv ex hex x hx hrange := by
    obtain ⟨k, hk, rfl⟩ := h.range_id hrange
    cases h.origin hv with
    | @var v b hj =>
      rw [show (copyVariable name b v).attributes = v.attributes.map (·.replaceSelf name) from rfl,
        lookupAttribute_replaceSelf, Option.bind_map] at hex
      obtain ⟨a, ha, hex⟩ := Option.bind_eq_some_iff.mp hex
      obtain ⟨ex', hex', rfl⟩ := Option.map_eq_some_iff.mp hex
      rw [Expr.members_replaceSelf] at hx
      exact h.serialize _ hj ex' (by simp [ha, hex']) k hk hx
  switches s hs ex hex x hx hrange := by
    obtain ⟨k, hk, rfl⟩ := h.range_id hrange
    cases h.origin hs with
    | switch hj hfields hexpr =>
      rw [hexpr] at hex
      obtain ⟨ex', hex', rfl⟩ := Option.map_eq_some_iff.mp hex
      rw [Expr.members_replaceSelf] at hx
      exact h.switches _ hj ex' hex' k hk hx

end Compact

/-! ## Calls -/

/-- A call that does not return `DONE` leaves `bytes_read` as it is. -/
theorem parse_bytesRead {p : Parser} {memory : Memory} {inBufStart inBufEnd : Int} {w : ParserWorld}
    {r : ParseResult × ParserWorld} (h : p.parse memory inBufStart inBufEnd w = some r)
    (hr : r.1 ≠ .done) : r.2.bytesRead = w.bytesRead := by
  have hfinish : ∀ {w₁ : ParserWorld} {unit : Nat} {oc : Outcome Label ParserData ParseResult},
      w₁.bytesRead = w.bytesRead → Parser.finish w₁ unit inBufStart oc = r →
      r.2.bytesRead = w.bytesRead := by
    rintro w₁ unit oc hw₁ rfl
    cases oc with
    | done l d => exact absurd rfl hr
    | stopped res l d => exact hw₁
  unfold Parser.parse at h
  split at h
  · obtain ⟨unit, -, h⟩ := Option.bind_eq_some_iff.mp h
    obtain ⟨oc, -, h⟩ := Option.map_eq_some_iff.mp h
    exact hfinish rfl h
  · obtain ⟨st, -, h⟩ := Option.bind_eq_some_iff.mp h
    split at h
    · cases h
      rfl
    · obtain ⟨oc, -, h⟩ := Option.map_eq_some_iff.mp h
      exact hfinish (by rfl) h

/-- The two units after the application has changed them alike, where it can, and first calls of the
two serializers for them. -/
structure ChangedAlike (K : UnitType) (m m' : UnitMemory) (w w' : SerializerWorld)
    (unit unit' : Nat) : Prop where
  fresh : w.state.instruction = none
  fresh' : w'.state.instruction = none
  space : Runtime.ParserState.blockSize < w.state.space
  space' : Runtime.ParserState.blockSize < w'.state.space
  out : w.out = w'.out
  alike : Agree (unitEnv pointing K) (rangeIds K)ᶜ (w.heap unit) (w'.heap unit')
  ranges : ∀ x ∈ rangeIds K, w.heap unit x = m x
  ranges' : ∀ x ∈ rangeIds K, w'.heap unit' x = m' x

/-- The calls `r` of the parser with pointers and `r'` of the one with copies have the same result,
and what they have parsed can be serialized to the same bytes. -/
structure PointersAgree (K : UnitType) (memory : Memory) (s s' : Serializer)
    (r r' : ParseResult × ParserWorld) : Prop where
  result : r.1 = r'.1
  bytesRead : r.2.bytesRead = r'.2.bytesRead
  values : r.1 = .done → Agree (unitEnv pointing K) (rangeIds K)ᶜ (parsedUnit r) (parsedUnit r')
  written : r.1 = .done → ∀ w w' unit unit',
    ChangedAlike K (parsedUnit r) (parsedUnit r') w w' unit unit' →
    ∀ outBufStart outBufEnd, outBufStart ≤ outBufEnd → outBufEnd - outBufStart < 2 ^ 63 →
      SameOutput (s.serialize memory unit outBufStart outBufEnd w)
        (s'.serialize memory unit' outBufStart outBufEnd w')

section Calls

variable {K : UnitType} {memory : Memory}

theorem Bimodal.sameOutput (h : Bimodal K) {s s' : Serializer}
    (hs : SerializerGenerator.run pointing K = some s)
    (hs' : SerializerGenerator.run copying K = some s') {m m' : UnitMemory}
    (hpair : Paired K memory (rangeIds K) m m') {w w' : SerializerWorld} {unit unit' : Nat}
    (hchanged : ChangedAlike K m m' w w' unit unit') {outBufStart outBufEnd : Int}
    (hle : outBufStart ≤ outBufEnd) (hsize : outBufEnd - outBufStart < 2 ^ 63) :
    SameOutput (s.serialize memory unit outBufStart outBufEnd w)
      (s'.serialize memory unit' outBufStart outBufEnd w') := by
  have hpair' := hpair.step hchanged.alike hchanged.ranges hchanged.ranges'
  exact sameOutput_of_encoding ⟨h.supported pointing, hs, hchanged.fresh, hchanged.space⟩
    ⟨h.supported copying, hs', hchanged.fresh', hchanged.space'⟩ hchanged.out
    (h.encoding_eq hpair') hle hsize

/-- With and without pointers the calls agree. -/
theorem Bimodal.parse_agree (h : Bimodal K) {p p' : Parser} {s s' : Serializer}
    (hp : ParserGenerator.run pointing K = some p) (hp' : ParserGenerator.run copying K = some p')
    (hs : SerializerGenerator.run pointing K = some s)
    (hs' : SerializerGenerator.run copying K = some s') {inBufStart inBufEnd : Int}
    {w w' : ParserWorld} (hw : FreshCall p inBufStart inBufEnd w)
    (hw' : FreshCall p' inBufStart inBufEnd w') (hbytes : w.bytesRead = w'.bytesRead)
    (hinit : Agree (unitEnv pointing K) (rangeIds K)ᶜ (w.heap w.area.allocated)
      (w'.heap w'.area.allocated)) :
    Option.Rel (PointersAgree K memory s s') (p.parse memory inBufStart inBufEnd w)
      (p'.parse memory inBufStart inBufEnd w') := by
  have hcall := parse_reads (h.supported pointing) (h.small pointing) memory hp hw
  have hcall' := parse_reads (h.supported copying) (h.small copying) memory hp' hw'
  have hpair : Paired K memory ∅ (w.heap w.area.allocated) (w'.heap w'.area.allocated) :=
    ⟨hinit, fun x hx => by cases hx⟩
  have hread := h.readItems_paired (e := inBufEnd) (fun _ (hi : _ ∈ K.items) => hi)
    (Set.empty_subset _) hpair inBufStart
  generalize (schema pointing K).readItems memory inBufEnd K.items _ inBufStart = a at hcall hread
  generalize (schema copying K).readItems memory inBufEnd K.items _ inBufStart = b at hcall' hread
  generalize hr : p.parse memory inBufStart inBufEnd w = c at hcall ⊢
  generalize hr' : p'.parse memory inBufStart inBufEnd w' = c' at hcall' ⊢
  cases hread with
  | none =>
    cases hcall
    cases hcall'
    exact .none
  | @some a b hab =>
    cases hcall with | @some _ r hmatch => ?_
    cases hcall' with | @some _ r' hmatch' => ?_
    refine .some ?_
    cases a with
    | short =>
      cases b with
      | next m' q' => cases hab
      | short =>
        have hout : r.1 ≠ .done := by rw [show r.1 = _ from hmatch]; decide
        have hout' : r'.1 ≠ .done := by rw [show r'.1 = _ from hmatch']; decide
        exact ⟨(show r.1 = _ from hmatch).trans (show r'.1 = _ from hmatch').symm,
          (parse_bytesRead hr hout).trans (hbytes.trans (parse_bytesRead hr' hout').symm),
          fun hdone => absurd hdone hout, fun hdone => absurd hdone hout⟩
    | next m q =>
      cases b with
      | short => cases hab
      | next m' q' =>
        obtain ⟨rfl, hpair⟩ := hab
        have hranges : Paired K memory (rangeIds K) (parsedUnit r) (parsedUnit r') := by
          rw [parsedUnit_of_call hmatch, parsedUnit_of_call hmatch']
          refine ⟨hpair.agree, fun x hx => hpair.ranges x (.inr ?_)⟩
          obtain ⟨f, hf, hacc, rfl⟩ := hx
          exact ⟨.field f, hf, f, rfl, hacc, rfl⟩
        exact ⟨hmatch.1.trans hmatch'.1.symm, hmatch.2.1.trans hmatch'.2.1.symm,
          fun _ => hranges.agree, fun _ w w' unit unit' hchanged outBufStart outBufEnd hle hsize =>
            h.sameOutput hs hs' hranges hchanged hle hsize⟩

end Calls

theorem chunked_pointable : Pointable
    (visit (chunked 16) [["first"], ["tail"]]) "Tail" 0
    (chunked 16) where
  distinct := by decide
  kinds := by decide
  lengths := by decide
  fresh := chunked_instantiable.fresh
  measured := chunked_instantiable.compactable.measured
  accessible := chunked_instantiable.accessible
  compiles := by decide
  parse := by
    have hall : ∀ i ∈ (chunked 16).items, ∀ v, i = .var v → ∀ ex ∈ parseExpression v,
        ex = .selfMember "Chunked" "a" := by
      simp [chunked, parseExpression, lookupAttribute]
    intro v hv ex hex k _
    rw [hall _ hv v rfl ex hex]
    exact InstantiationTypeGenerator.anonymousId_fresh (by decide) k
  serialize := by
    intro v hv ex hex
    have hnone : ∀ i ∈ (chunked 16).items, ∀ v, i = .var v →
        lookupAttribute v.attributes "serialize" = none := by
      simp [chunked, lookupAttribute]
    rw [hnone _ hv v rfl] at hex
    cases hex
  switches := by simp [chunked]

/-- Some bytes with a negative number of them. -/
def negative : UnitType where
  id := "Negative"
  items := [
    .field { id := "data", type := .bytes, attributes := [⟨"length", some (.int (-1))⟩] },
    .field { id := "tail", type := .integer 8 false }]

end Diffingo.Codec
