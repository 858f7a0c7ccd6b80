import Diffingo.Codec.Reading
import Diffingo.Codec.RoundTrip
import Diffingo.Codec.Truthful

/-!
# Building a unit, writing it and reading it back

An application fills in a unit without looking at the members that hold lengths. The serializer sets
them before it writes the first byte, so the parser finds every boundary again. The values that come
back are those of the unit after the lengths have been written back (`settled`).
-/

namespace Diffingo.Codec

open CInteger ByteMemory Resumable Diffingo.Spec Diffingo.Runtime Diffingo.Generation

/-- The value of a field is a number or a byte string. -/
inductive FieldValue
  | number (v : Int)
  | bytes (bs : List UInt8)
  deriving DecidableEq

/-- The value of a field; a range refers to `memory`. -/
def fieldValue (env : Env) (memory : Memory) (k : FieldKind) (x : String) (m : UnitMemory) :
    Option FieldValue :=
  match k with
  | .int _ _ | .cast _ _ _ =>
    (env.members x).bind fun ty => ((m x).read ty).bind fun v => v.toInt.map .number
  | .copy _ | .range _ => (fieldWire env memory k x m).map .bytes

theorem fieldValue_congr {env : Env} {memory : Memory} {k : FieldKind} {x : String}
    {m m' : UnitMemory}
    (h : ∀ ty, env.members x = some ty → (m' x).read ty = (m x).read ty) :
    fieldValue env memory k x m' = fieldValue env memory k x m := by
  cases hx : env.members x with
  | none => cases k <;> simp [fieldValue, fieldWire, hx]
  | some ty => cases k <;> simp [fieldValue, fieldWire, hx, h ty hx]

/-- A length that is known when the field is reached: the number in one of the unsigned members
`earlier`. A field the application has no access to may have a constant length. -/
inductive Announced (env : Env) (earlier : List String) (accessible : Bool) : Expr → Prop
  | constant (n : Nat) : accessible = false → Announced env earlier accessible (.int n)
  | member {x : String} {w : Nat} : x ∈ earlier → env.members x = some (.int ⟨w, false⟩) → w ≤ 64 →
      Announced env earlier accessible (.selfMember env.unit x)

/-- The items are fields, and their lengths are announced by earlier ones. -/
def LengthsAnnounced (o : Options) (u : UnitType) : List String → List Item → Prop
  | _, [] => True
  | earlier, .field f :: rest =>
    (∀ e ∈ (fieldKind o u f).bind FieldKind.length,
      Announced (unitEnv o u) earlier f.applicationAccessible e) ∧
      LengthsAnnounced o u (f.id :: earlier) rest
  | earlier, .property _ :: rest => LengthsAnnounced o u earlier rest
  | _, .switch _ :: _ | _, .var _ :: _ => False

/-- A unit that can be built without care for its lengths: each bytes or string field has a length
member of its own in front of it. -/
structure Buildable (o : Options) (u : UnitType) : Prop extends Supported o u where
  announced : LengthsAnnounced o u [] u.items
  own : ∀ f g, .field f ∈ u.items → .field g ∈ u.items → f.applicationAccessible = true →
    g.applicationAccessible = true → ∀ e ∈ (fieldKind o u f).bind FieldKind.length,
      (fieldKind o u g).bind FieldKind.length = some e → f = g

/-- The values of a unit have encodings: the blocks hold as many bytes as they say, a length fits in
its member, a transformed value is one of the serialized type, and a field that the application has
no access to has the length its expression gives. -/
structure Fits (o : Options) (u : UnitType) (m : UnitMemory) : Prop where
  blocks : ∀ f e, .field f ∈ u.items → fieldKind o u f = some (.copy e) →
    (m f.id).len_ ≤ (m f.id).data_.length
  lengths : ∀ f g w, .field f ∈ u.items → f.applicationAccessible = true →
    (fieldKind o u f).bind FieldKind.length = some (.selfMember u.id g) →
      (unitEnv o u).members g = some (.int ⟨w, false⟩) → (m f.id).len_ < 2 ^ w
  casts : ∀ f t bo ty, .field f ∈ u.items → fieldKind o u f = some (.cast t bo ty) →
    ∀ v, (settled u m u.items f.id).read ty = some (.int v) → ty.convert (t.wrap v) = some v
  inaccessible : ∀ f, .field f ∈ u.items → f.applicationAccessible = false →
    ∀ e ∈ (fieldKind o u f).bind FieldKind.length,
      evalLength (unitEnv o u) e (settled u m u.items) = some ((m f.id).len_, settled u m u.items)

/-- The number of bytes a field takes in the output. -/
def FieldKind.wireLength (c : Cell) : FieldKind → Nat
  | .int t _ | .cast t _ _ => t.width / 8
  | .copy _ | .range _ => c.len_

/-- The number of bytes the fields among the items take in the output. -/
def wireLength (o : Options) (u : UnitType) (m : UnitMemory) : List Item → Nat
  | [] => 0
  | .field f :: rest =>
    (fieldKind o u f).elim 0 (·.wireLength (m f.id)) + wireLength o u m rest
  | _ :: rest => wireLength o u m rest

section Lengths

variable {o : Options} {u : UnitType}

theorem Announced.evalLength_congr {env : Env} {earlier : List String} {a : Bool} {e : Expr}
    (h : Announced env earlier a e) {m m' : UnitMemory} {n : Nat}
    (hearlier : ∀ y ∈ earlier, ∀ t, env.members y = some (.int t) →
      t.wrap (m' y).int = t.wrap (m y).int) (hm : evalLength env e m = some (n, m)) :
    evalLength env e m' = some (n, m') := by
  cases h with
  | constant c =>
    rw [evalLength_constant] at hm ⊢
    split at hm
    · rename_i hc
      cases hm
      rw [if_pos hc]
    · cases hm
  | member hx hty hw =>
    rw [evalLength_member hty hw] at hm ⊢
    cases hm
    rw [hearlier _ hx _ hty]

theorem lastHolder_mem {g : String} {items : List Item} {x : AtomicField}
    (h : lastHolder u g items = some x) : .field x ∈ items ∧ heldIn u g x = true := by
  induction items with
  | nil => cases h
  | cons i rest ih =>
    simp only [lastHolder, Option.or_eq_some_iff] at h
    rcases h with h | ⟨-, h⟩
    · exact ⟨List.mem_cons_of_mem _ (ih h).1, (ih h).2⟩
    · split at h
      · split at h
        · rename_i hheld
          cases h
          exact ⟨List.mem_cons_self, hheld⟩
        · cases h
      · cases h

theorem lastHolder_isSome {g : String} {items : List Item} {x : AtomicField}
    (hx : .field x ∈ items) (hheld : heldIn u g x = true) :
    (lastHolder u g items).isSome = true := by
  induction items with
  | nil => cases hx
  | cons i rest ih =>
    simp only [lastHolder, Option.isSome_or, Bool.or_eq_true]
    rcases List.mem_cons.mp hx with rfl | hx
    · simp [hheld]
    · exact .inl (ih hx)

/-- A field with a length is a bytes or string field. -/
theorem fieldKind_serialized {f : AtomicField} {e : Expr}
    (h : (fieldKind o u f).bind FieldKind.length = some e) :
    f.serialized = .bytes ∨ f.serialized = .string := by
  obtain ⟨k, hk, hlen⟩ := Option.bind_eq_some_iff.mp h
  unfold fieldKind at hk
  unfold AtomicField.serialized
  split at hk
  · split at hk
    · simp_all
    · cases hk
  · split at hk
    · simp_all
    · simp_all
    · split at hk
      · obtain ⟨bo, -, rfl⟩ := Option.map_eq_some_iff.mp hk
        cases hlen
      · cases hk
    · split at hk
      · obtain ⟨bo, -, hk⟩ := Option.bind_eq_some_iff.mp hk
        obtain ⟨ty, -, hk⟩ := Option.bind_eq_some_iff.mp hk
        split at hk
        · cases hk
          cases hlen
        · cases hk
      · cases hk
    · cases hk

theorem heldIn_of_length {f : AtomicField} {g : String} (hacc : f.applicationAccessible = true)
    (h : (fieldKind o u f).bind FieldKind.length = some (.selfMember u.id g)) :
    heldIn u g f = true := by
  simp [heldIn, hacc, fieldKind_length h, fieldKind_serialized h]

theorem length_of_heldIn (hu : Supported o u) {f : AtomicField} {g : String}
    (hf : .field f ∈ u.items) (h : heldIn u g f = true) : f.applicationAccessible = true ∧
      (fieldKind o u f).bind FieldKind.length = some (.selfMember u.id g) := by
  simp only [heldIn, Bool.and_eq_true, Bool.or_eq_true, decide_eq_true_eq] at h
  obtain ⟨⟨hser, hacc⟩, hlen⟩ := h
  obtain ⟨k, hk⟩ := Option.isSome_iff_exists.mp (hu.kinds _ hf f (by simp [Item.fields]))
  obtain ⟨e, he, rfl⟩ := fieldKind_accessible hk hacc hser
  obtain rfl : e = .selfMember u.id g := Option.some.inj (he.symm.trans hlen)
  exact ⟨hacc, by simp [hk, FieldKind.length]⟩

theorem LengthsAnnounced.plain {earlier : List String} {items : List Item}
    (h : LengthsAnnounced o u earlier items) :
    ∀ i ∈ items, (∃ f, i = .field f) ∨ ∃ a, i = .property a := by
  induction items generalizing earlier with
  | nil => simp
  | cons i rest ih =>
    cases i with
    | field f => exact List.forall_mem_cons.mpr ⟨.inl ⟨f, rfl⟩, ih h.2⟩
    | property a => exact List.forall_mem_cons.mpr ⟨.inr ⟨a, rfl⟩, ih h⟩
    | switch s => exact h.elim
    | var v => exact h.elim

/-- The length of a field is announced somewhere. -/
theorem LengthsAnnounced.mem {earlier : List String} {items : List Item}
    (h : LengthsAnnounced o u earlier items) {f : AtomicField} (hf : .field f ∈ items) {e : Expr}
    (he : (fieldKind o u f).bind FieldKind.length = some e) :
    ∃ earlier', Announced (unitEnv o u) earlier' f.applicationAccessible e := by
  induction items generalizing earlier with
  | nil => cases hf
  | cons i rest ih =>
    cases i with
    | field g =>
      rcases List.mem_cons.mp hf with heq | hf
      · cases heq
        exact ⟨_, h.1 e he⟩
      · exact ih h.2 hf
    | property a =>
      rcases List.mem_cons.mp hf with heq | hf
      · cases heq
      · exact ih h hf
    | switch s => exact h.elim
    | var v => exact h.elim

end Lengths

section Updates

variable {o : Options} {u : UnitType}

/-- Length updates of bytes members succeed if they go to integers. -/
theorem runUpdates_some {env : Env} {as : List Update}
    (has : ∀ a ∈ as, ∃ x e tx f t, a = .length x e ∧ env.members x = some tx ∧
      tx.isVarBytes = true ∧ lvalue env e = some (f, .int t)) (m : UnitMemory) :
    ∃ m', runUpdates env as m = some m' := by
  induction as generalizing m with
  | nil => exact ⟨m, rfl⟩
  | cons a as ih =>
    obtain ⟨x, e, tx, f, t, rfl, hx, htx, hl⟩ := has a List.mem_cons_self
    obtain ⟨m₁, hm₁⟩ : ∃ m₁, (Update.length x e).run env m = some m₁ := by
      simp [Update.run, hx, htx, assignTo, hl, CType.accepts, CType.arith, literal, assignMember,
        Cell.store, Value.convert, CType.convert, Cell.read]
    obtain ⟨m', hm'⟩ := ih (fun b hb => has b (List.mem_cons_of_mem _ hb)) m₁
    exact ⟨m', by simp [runUpdates, hm₁, hm']⟩

theorem Buildable.updates_eq (hu : Buildable o u) : updates u = lengthUpdates u.items := by
  have hnone : serializeUpdates u.items = [] := by
    refine List.filterMap_eq_nil_iff.mpr fun i hi => ?_
    rcases hu.announced.plain i hi with ⟨f, rfl⟩ | ⟨a, rfl⟩ <;> rfl
  rw [updates, hnone, List.append_nil]

theorem Buildable.updates_some (hu : Buildable o u) (m : UnitMemory) :
    ∃ m', runUpdates (unitEnv o u) (updates u) m = some m' := by
  rw [hu.updates_eq]
  refine runUpdates_some (fun a ha => ?_) m
  obtain ⟨i, hi, hia⟩ := List.mem_filterMap.mp ha
  rcases hu.announced.plain i hi with ⟨f, rfl⟩ | ⟨p, rfl⟩
  · simp only [lengthUpdate] at hia
    split at hia
    · rename_i hcond
      simp only [Bool.and_eq_true, Bool.or_eq_true, decide_eq_true_eq] at hcond
      obtain ⟨k, tx, hk, hx, hmem⟩ := hu.declared hi (f := f) (by simp [Item.fields])
      obtain ⟨e, he, rfl⟩ := fieldKind_accessible hk hcond.2 hcond.1
      obtain ⟨earlier, hann⟩ := hu.announced.mem hi (e := e) (by simp [hk, FieldKind.length])
      cases hann with
      | constant n hacc => simp [hcond.2] at hacc
      | @member g w hg hty hw =>
        simp only [he, Option.some.injEq] at hia
        exact ⟨f.id, _, tx, g, ⟨w, false⟩, hia.symm, hx, hmem, by simp [lvalue, hty]⟩
    · cases hia
  · cases hia

/-- The unit in which the lengths have been written back, up to the integers its members hold. -/
theorem Buildable.agree (hu : Buildable o u) {m m' : UnitMemory}
    (h : runUpdates (unitEnv o u) (updates u) m = some m') :
    SameBytes m m' ∧ ∀ y ty, (unitEnv o u).members y = some ty →
      (m' y).read ty = (settled u m u.items y).read ty := by
  rw [hu.updates_eq] at h
  obtain ⟨hsame, hint⟩ := runUpdates_lengths h
  exact ⟨hsame, fun y ty hy => hsame.read (hint y ty hy)⟩

/-- The length member of a field holds its length after the lengths have been written back. -/
theorem Buildable.lengthAfter (hu : Buildable o u) (m : UnitMemory) {f : AtomicField}
    (hf : .field f ∈ u.items) (hacc : f.applicationAccessible = true) {g : String}
    (hlen : (fieldKind o u f).bind FieldKind.length = some (.selfMember u.id g)) :
    lengthAfter u m g u.items = (m f.id).len_ := by
  obtain ⟨x, hx⟩ := Option.isSome_iff_exists.mp (lastHolder_isSome hf (heldIn_of_length hacc hlen))
  obtain ⟨hmem, hheld⟩ := lastHolder_mem hx
  obtain ⟨hacc', hlen'⟩ := length_of_heldIn hu.toSupported hmem hheld
  obtain rfl : f = x := hu.own f x hf hmem hacc hacc' _ hlen hlen'
  simp [Codec.lengthAfter, hx]

/-- After the lengths have been written back, every length expression gives the length of its
field. -/
theorem Buildable.lengths_settled (hu : Buildable o u) {m m' : UnitMemory} (hm : Fits o u m)
    (h : runUpdates (unitEnv o u) (updates u) m = some m') {f : AtomicField}
    (hf : .field f ∈ u.items) {e : Expr} (he : (fieldKind o u f).bind FieldKind.length = some e) :
    evalLength (unitEnv o u) e m' = some ((m f.id).len_, m') := by
  obtain ⟨hsame, hread⟩ := hu.agree h
  have hwrap : ∀ y t, (unitEnv o u).members y = some (.int t) →
      t.wrap (m' y).int = t.wrap (settled u m u.items y).int := fun y t hy => by
    simpa [Cell.read, CType.convert] using hread y _ hy
  obtain ⟨earlier, hann⟩ := hu.announced.mem hf he
  refine hann.evalLength_congr (fun y _ t hy => hwrap y t hy) ?_
  by_cases hacc : f.applicationAccessible = true
  · cases hann with
    | constant n hno => simp [hacc] at hno
    | @member g w hg hty hw =>
      rw [evalLength_member hty hw]
      have hlt := hm.lengths f g w hf hacc he hty
      simp only [settled, hu.lengthAfter m hf hacc he]
      rw [IntTy.wrap_unsigned_of_lt (by omega) (by exact_mod_cast hlt), Int.toNat_natCast]
  · exact hm.inaccessible f hf (by simpa using hacc) e he

end Updates

section ReadBack

variable {o : Options} {u : UnitType} {input memory : Memory}

/-- A field whose block is complete has an encoding of the expected length. -/
theorem fieldWire_some (input : Memory) {env : Env} {k : FieldKind} {x : String} {ty : CType}
    (hx : env.members x = some ty) (hk : k.HasMember ty) {m : UnitMemory}
    (hblock : ∀ e, k = .copy e → (m x).len_ ≤ (m x).data_.length) :
    ∃ bs, fieldWire env input k x m = some bs ∧ bs.length = k.wireLength (m x) := by
  cases k with
  | int t bo =>
    obtain ⟨rfl, -⟩ := hk
    exact ⟨_, by simp [fieldWire, hx, Cell.read, CType.convert, FieldKind.encode]; rfl,
      length_intBytes _ _ _⟩
  | cast t bo ty' =>
    obtain ⟨rfl, hscalar, -⟩ := hk
    obtain ⟨v, hv⟩ := read_scalar (c := m x) hscalar
    exact ⟨_, by simp [fieldWire, hx, hv, FieldKind.encode]; rfl, length_intBytes _ _ _⟩
  | copy e =>
    have hle := hblock e rfl
    exact ⟨(m x).data_.take (m x).len_,
      by simp [fieldWire, hx, read_bytes hk, FieldKind.encode, hle],
      by simpa [FieldKind.wireLength] using hle⟩
  | range e =>
    obtain rfl : ty = .varStreamRange := hk
    exact ⟨slice input (m x).start_ (m x).len_,
      by simp [fieldWire, hx, Cell.read, FieldKind.encode], by simp [FieldKind.wireLength]⟩

/-- A field is read back from its encoding. -/
theorem readField_wire {env : Env} {k : FieldKind} {x : String} {ty : CType}
    (hx : env.members x = some ty) (hk : k.HasMember ty) {m m₂ : UnitMemory} {bs : List UInt8}
    (hwire : fieldWire env input k x m = some bs) {p e : Int}
    (hbs : slice memory p bs.length = bs) (hend : p + bs.length ≤ e)
    (hlen : ∀ ex ∈ k.length, evalLength env ex m₂ = some ((m x).len_, m₂))
    (hcast : ∀ t bo ty', k = .cast t bo ty' → ∀ v, (m x).read ty' = some (.int v) →
      ty'.convert (t.wrap v) = some v) (kind : AtomicField → Option FieldKind) :
    ∃ m', Schema.readField ⟨env, kind⟩ memory e k x m₂ p = some (.next m' (p + bs.length)) ∧
      (∀ y, y ≠ x → m' y = m₂ y) ∧
      fieldValue env memory k x m' = fieldValue env input k x m := by
  -- the field takes `bs.length` bytes and stores what it reads
  have hread : ∀ n : Nat, n = bs.length → k.size env m₂ = some (n, m₂) →
      Schema.readField ⟨env, kind⟩ memory e k x m₂ p =
        some (.next (Function.update m₂ x (k.stored memory p n (m₂ x))) (p + bs.length)) := by
    rintro n rfl hsize
    simp only [Schema.readField, hsize, Option.map_some]
    rw [if_neg (by omega)]
  cases k with
  | int t bo =>
    obtain ⟨rfl, ht⟩ := hk
    obtain rfl : intBytes t bo (t.wrap (m x).int) = bs := by
      simpa [fieldWire, hx, Cell.read, CType.convert, FieldKind.encode] using hwire
    rw [length_intBytes] at hbs
    refine ⟨_, hread (t.width / 8) (length_intBytes _ _ _).symm rfl, fun y hy => by simp [hy], ?_⟩
    simp [fieldValue, hx, Cell.read, CType.convert, FieldKind.stored, parsedInt, hbs,
      parsed_intBytes ht]
  | cast t bo ty' =>
    obtain ⟨rfl, hscalar, ht⟩ := hk
    obtain ⟨v, hv⟩ := read_scalar (c := m x) hscalar
    obtain rfl : intBytes t bo (t.wrap v) = bs := by
      simpa [fieldWire, hx, hv, FieldKind.encode] using hwire
    rw [length_intBytes] at hbs
    refine ⟨_, hread (t.width / 8) (length_intBytes _ _ _).symm rfl, fun y hy => by simp [hy], ?_⟩
    have hconv := hcast t bo ty rfl v hv
    have hstored : (castCell ty (t.wrap v) (m₂ x)).read ty = some (.int v) := by
      have hv' := CType.convert_convert hconv
      cases ty <;> simp_all [castCell, Cell.read, CType.isScalar]
    simp [fieldValue, hx, FieldKind.stored, parsedInt, hbs, parsed_intBytes ht, hstored, hv]
  | copy ex =>
    obtain ⟨hmem, hn⟩ := @fieldWire_bytes ⟨env, input⟩ _ _ _ .varBytes (.inl ⟨rfl, ex, rfl⟩) hx hk m
    have hn := hn bs (hmem.symm.trans hwire)
    refine ⟨_, hread _ hn.symm (hlen ex rfl), fun y hy => by simp [hy], ?_⟩
    simp only [fieldValue, hwire, Option.map_some]
    simp [fieldWire, hx, read_bytes hk, FieldKind.stored, FieldKind.encode, ← hn, hbs]
  | range ex =>
    obtain rfl : ty = .varStreamRange := hk
    obtain ⟨hmem, hn⟩ := @fieldWire_bytes ⟨env, input⟩ _ _ _ .varStreamRange
      (.inr ⟨rfl, ex, rfl⟩) hx rfl m
    have hn := hn bs (hmem.symm.trans hwire)
    refine ⟨_, hread _ hn.symm (hlen ex rfl), fun y hy => by simp [hy], ?_⟩
    simp only [fieldValue, hwire, Option.map_some]
    simp [fieldWire, hx, Cell.read, FieldKind.stored, FieldKind.encode, ← hn, hbs]

/-- A number that has been read back is the one that was written. -/
theorem wrap_of_fieldValue {env : Env} {k : FieldKind} {x : String} {t : IntTy}
    (hx : env.members x = some (.int t)) (hk : k.HasMember (.int t)) {m m' : UnitMemory}
    (h : fieldValue env memory k x m' = fieldValue env input k x m) :
    t.wrap (m' x).int = t.wrap (m x).int := by
  cases k with
  | int | cast => simpa [fieldValue, hx, Cell.read, CType.convert, Value.toInt] using h
  | copy => simp [FieldKind.HasMember, CType.isVarBytes] at hk
  | range => simp [FieldKind.HasMember] at hk

/-- A field that has been read is no longer than the rest of the buffer. -/
theorem readField_next_le {c : Schema} {k : FieldKind} {x : String} {m m' : UnitMemory} {p p' e : Int}
    (h : c.readField memory e k x m p = some (.next m' p')) {ex : Expr} (hex : k.length = some ex)
    {r : Nat × UnitMemory} (hr : evalLength c.env ex m = some r) : (r.1 : Int) ≤ e - p := by
  have hsize : k.size c.env m = some r := by
    cases k <;> simp_all [FieldKind.length, FieldKind.size]
  simp only [Schema.readField, hsize, Option.map_some, Option.some.injEq] at h
  split at h
  · cases h
  · omega

/-- Fields with complete blocks have an encoding. -/
theorem unitWire_some (input : Memory) {earlier : List String} {items : List Item}
    (hann : LengthsAnnounced o u earlier items)
    (hitems : ∀ i ∈ items, ∀ f ∈ i.fields, Declared o u f) {m : UnitMemory}
    (hblocks : ∀ f e, .field f ∈ items → fieldKind o u f = some (.copy e) →
      (m f.id).len_ ≤ (m f.id).data_.length) :
    ∃ bs, unitWire o u input items m = some (bs, m) ∧ bs.length = wireLength o u m items := by
  induction items generalizing earlier with
  | nil => exact ⟨[], rfl, rfl⟩
  | cons i rest ih =>
    have hrest := fun j hj => hitems j (List.mem_cons_of_mem i hj)
    have hblocks' := fun f e hf => hblocks f e (List.mem_cons_of_mem i hf)
    cases i with
    | property a => exact ih hann hrest hblocks'
    | switch s => exact hann.elim
    | var v => exact hann.elim
    | field f =>
      obtain ⟨k, ty, hk, hx, hmem⟩ := hitems _ List.mem_cons_self f (by simp [Item.fields])
      obtain ⟨b₁, hb₁, hlen₁⟩ := fieldWire_some input hx hmem (m := m)
        fun e he => hblocks f e List.mem_cons_self (he ▸ hk)
      obtain ⟨b₂, hb₂, hlen₂⟩ := ih hann.2 hrest hblocks'
      refine ⟨b₁ ++ b₂, by simp [unitWire, fieldsWire, hk, hb₁, hb₂], ?_⟩
      simp [wireLength, hk, hlen₁, hlen₂]

/-- The parser reads the fields back from their encoding. -/
theorem run_read_back {n : Nat} {earlier : List String} {items : List Item}
    (hann : LengthsAnnounced o u earlier items)
    (hitems : ∀ i ∈ items, ∀ f ∈ i.fields, Declared o u f)
    (hdistinct : (earlier ++ items.flatMap Item.memberIds).Nodup) {m : UnitMemory}
    (hlens : ∀ f, .field f ∈ items → ∀ e ∈ (fieldKind o u f).bind FieldKind.length,
      evalLength (unitEnv o u) e m = some ((m f.id).len_, m))
    (hcasts : ∀ f t bo ty, .field f ∈ items → fieldKind o u f = some (.cast t bo ty) →
      ∀ v, (m f.id).read ty = some (.int v) → ty.convert (t.wrap v) = some v)
    {bs : List UInt8} (hwire : unitWire o u input items m = some (bs, m))
    {code : List ParserInstr} (hemit : ParserGenerator.parseItems o u n items = some code)
    (l : Option Label) {e : Int} {d : ParserData} (hd : Roomy e d)
    (hslice : slice memory d.pos bs.length = bs) (hend : d.pos + bs.length ≤ e)
    (hearlier : ∀ y ∈ earlier, ∀ t, (unitEnv o u).members y = some (.int t) →
      t.wrap (d.unit y).int = t.wrap (m y).int) :
    ∃ l' d', run (parserSemantics ⟨unitEnv o u, memory⟩) e code l d = some (.done l' d') ∧
      d'.pos = d.pos + bs.length ∧
      (∀ y, y ∉ items.flatMap Item.memberIds → d'.unit y = d.unit y) ∧
      ∀ f k, .field f ∈ items → fieldKind o u f = some k →
        fieldValue (unitEnv o u) memory k f.id d'.unit =
          fieldValue (unitEnv o u) input k f.id m := by
  unfold ParserGenerator.parseItems at hemit
  induction items generalizing n earlier bs code l d with
  | nil =>
    cases hemit
    cases hwire
    exact ⟨l, d, rfl, by simp, fun _ _ => rfl, by simp⟩
  | cons i rest ih =>
    have hrest := fun j hj => hitems j (List.mem_cons_of_mem i hj)
    have hlens' := fun f hf => hlens f (List.mem_cons_of_mem i hf)
    have hcasts' := fun f t bo ty hf => hcasts f t bo ty (List.mem_cons_of_mem i hf)
    cases i with
    | switch s => exact hann.elim
    | var v => exact hann.elim
    | property a =>
      obtain ⟨l', d', hrun, hpos, hkeep, hval⟩ := ih hann hrest hdistinct hlens' hcasts' hwire hemit
        l hd hslice hend hearlier
      refine ⟨l', d', hrun, hpos, hkeep, fun f k hf => ?_⟩
      rcases List.mem_cons.mp hf with heq | hf
      · cases heq
      · exact hval f k hf
    | field f =>
      obtain ⟨body, hbody, hemit⟩ := Option.bind_eq_some_iff.mp hemit
      obtain ⟨code', hcode', rfl⟩ := Option.map_eq_some_iff.mp hemit
      obtain ⟨k, ty, hk, hx, hmem⟩ := hitems _ List.mem_cons_self f (by simp [Item.fields])
      obtain rfl : k.parseCode f.id = body := by
        rw [(fieldKind_code hk).1] at hbody
        exact Option.some.inj hbody
      obtain ⟨b₁, hb₁, hwire⟩ := Option.bind_eq_some_iff.mp hwire
      obtain ⟨⟨b₂, m'⟩, hb₂, heq⟩ := Option.map_eq_some_iff.mp hwire
      simp only [Prod.mk.injEq] at heq
      obtain ⟨rfl, hm'⟩ := heq
      rw [hm'] at hb₂
      simp only [fieldsWire, hk, Option.bind_some, Option.map_some, List.append_nil] at hb₁
      obtain ⟨b, hb, heq⟩ := Option.bind_eq_some_iff.mp hb₁
      cases heq
      rw [List.length_append, slice_add] at hslice
      rw [List.length_append] at hend
      obtain ⟨hs₁, hs₂⟩ := List.append_inj hslice (by simp)
      -- the field itself
      have hlen : ∀ ex ∈ k.length,
          evalLength (unitEnv o u) ex d.unit = some ((m f.id).len_, d.unit) := by
        intro ex hex
        have hex' : (fieldKind o u f).bind FieldKind.length = some ex := by simpa [hk] using hex
        exact (hann.1 ex hex').evalLength_congr hearlier (hlens f List.mem_cons_self ex hex')
      have hend₁ : d.pos + b₁.length ≤ e := by omega
      obtain ⟨m₂, hread, hkeep₂, hval₂⟩ := readField_wire hx hmem hb hs₁ hend₁ hlen
        (fun t bo ty' hk' => hcasts f t bo ty' List.mem_cons_self (hk' ▸ hk)) (fieldKind o u)
      have hsmall : ∀ ex ∈ k.length, ∀ r, evalLength (unitEnv o u) ex d.unit = some r →
          r.1 < 2 ^ 63 := by
        intro ex hex r hr
        have hle := readField_next_le hread hex hr
        have hsize := hd.size
        omega
      have hstep := (run_read_field ⟨unitEnv o u, memory⟩ hx hmem hsmall (fieldKind o u)
        hd).resolve_left (by simp)
      dsimp only at hstep
      rw [hread] at hstep
      obtain ⟨d₁, hbody, rfl, hpos₁, hd₁⟩ : ∃ d₁, runParseBody ⟨unitEnv o u, memory⟩ e
          (k.parseCode f.id) {} d = some (.next d₁) ∧ Reached True e m₂ (d.pos + b₁.length) d₁ := by
        generalize runParseBody ⟨unitEnv o u, memory⟩ e (k.parseCode f.id) {} d = b at hstep ⊢
        cases hstep with
        | @some _ b hab =>
          cases b with
          | next d₁ => exact ⟨d₁, rfl, hab⟩
          | stop r d₁ => cases hab
      -- the remaining items
      have hdistinct' : (f.id :: earlier ++ rest.flatMap Item.memberIds).Nodup := by
        rw [List.flatMap_cons] at hdistinct
        exact List.nodup_middle.mp hdistinct
      have hfresh := hdistinct'.notMem
      have hearlier₁ : ∀ y ∈ f.id :: earlier, ∀ t, (unitEnv o u).members y = some (.int t) →
          t.wrap (d₁.unit y).int = t.wrap (m y).int := by
        intro y hy t ht
        by_cases hyf : y = f.id
        · subst hyf
          obtain rfl : ty = .int t := Option.some.inj (hx.symm.trans ht)
          exact wrap_of_fieldValue ht hmem hval₂
        · rw [hkeep₂ y hyf]
          exact hearlier y ((List.mem_cons.mp hy).resolve_left hyf) t ht
      obtain ⟨l', d', hrun, hpos, hkeep, hval⟩ := ih hann.2 hrest hdistinct' hlens' hcasts' hb₂ hcode'
        (some (ParserGenerator.label u (n + 1) f.id)) hd₁ (by rw [hpos₁]; exact hs₂)
        (by rw [hpos₁]; push_cast at hend; omega) hearlier₁
      refine ⟨l', d', ?_, ?_, fun y hy => ?_, fun g k' hg hk' => ?_⟩
      · rw [run_eq_runFrom, runFrom_enter, runFrom_cons]
        change (runParseBody ⟨unitEnv o u, memory⟩ e (k.parseCode f.id) {} d).bind _ = _
        rw [hbody]
        exact (run_eq_runFrom _ _ _ _ _).symm.trans hrun
      · rw [hpos, hpos₁, List.length_append]
        push_cast
        ring
      · rw [List.flatMap_cons, List.mem_append, not_or] at hy
        rw [hkeep y hy.2, hkeep₂ y (by simpa [Item.memberIds] using hy.1)]
      · rcases List.mem_cons.mp hg with heq | hg
        · cases heq
          obtain rfl : k = k' := Option.some.inj (hk.symm.trans hk')
          rw [← hval₂]
          refine fieldValue_congr fun ty _ => ?_
          rw [hkeep _ (fun hmem => hfresh (List.mem_append_right _ hmem))]
        · exact hval g k' hg hk'

end ReadBack

section Build

variable {o : Options} {u : UnitType} {s : Serializer} {p : Parser} {input : Memory}

theorem wireLength_congr {m m' : UnitMemory} (h : SameBytes m m') (items : List Item) :
    wireLength o u m' items = wireLength o u m items := by
  induction items with
  | nil => rfl
  | cons i rest ih =>
    cases i with
    | field f =>
      simp only [wireLength, ih]
      cases fieldKind o u f with
      | none => rfl
      | some k => cases k <;> simp [FieldKind.wireLength, h.len]
    | _ => exact ih

/-- A unit that has been written is read back from the output. -/
theorem parse_written (hu : Buildable o u) (hp : ParserGenerator.run o u = some p)
    {m m₁ : UnitMemory} (hm : Fits o u m)
    (hup : runUpdates (unitEnv o u) (updates u) m = some m₁) {bs : List UInt8}
    (hwire : unitWire o u input u.items m₁ = some (bs, m₁)) {out : Memory} {start inBufEnd : Int}
    (hout : slice out start bs.length = bs) (hend : start + bs.length ≤ inBufEnd)
    {w : ParserWorld} (hw : FreshCall p start inBufEnd w) :
    ∃ w', p.parse out start inBufEnd w = some (.done, w') ∧ w'.bytesRead = bs.length ∧
      w'.state.peek = some w.area.allocated ∧
      ∀ f k, .field f ∈ u.items → fieldKind o u f = some k →
        fieldValue (unitEnv o u) out k f.id (w'.heap w.area.allocated) =
          fieldValue (unitEnv o u) input k f.id m₁ := by
  obtain ⟨code, hcode, rfl⟩ := Option.map_eq_some_iff.mp hp
  obtain ⟨w₁, area, hunit, hroomy, hparse⟩ := hw.parse_eq out
  obtain ⟨hsame, hread⟩ := hu.agree hup
  obtain ⟨l', d', hrun, hpos, -, hval⟩ := run_read_back hu.announced
    (fun i hi f hf => hu.declared hi hf) (by simpa using hu.distinct)
    (fun f hf e he => by rw [hsame.len]; exact hu.lengths_settled hm hup hf he)
    (fun f t bo ty hf hk v hv => by
      obtain ⟨k, ty', hk', hty, hmem⟩ := hu.declared hf (f := f) (by simp [Item.fields])
      obtain rfl : .cast t bo ty = k := Option.some.inj (hk.symm.trans hk')
      rw [hread _ _ (hmem.1 ▸ hty)] at hv
      exact hm.casts f t bo ty hf hk v hv) hwire hcode none hroomy hout hend (by simp)
  change _ = Option.map _ (run (parserSemantics ⟨unitEnv o u, out⟩) inBufEnd code none _) at hparse
  rw [hrun] at hparse
  refine ⟨_, hparse, by simp [hpos], hunit, fun f k hf hk => ?_⟩
  simpa using hval f k hf hk

/-- Two blocks of data; their lengths stand in front of both. -/
def twoBlocks : UnitType where
  id := "TwoBlocks"
  items := [
    .field { id := "first_size", type := .integer 8 false },
    .field { id := "second_size", type := .integer 16 false },
    .field { id := "kind", type := .enum recordKind, serializedType := some (.integer 8 false),
             attributes := [⟨"transform_to", some (.type (.enum recordKind))⟩] },
    .field { id := "second", type := .string,
             attributes := [⟨"length", some (.selfMember "TwoBlocks" "second_size")⟩] },
    .field { id := "first", type := .bytes,
             attributes := [⟨"length", some (.selfMember "TwoBlocks" "first_size")⟩] }]

theorem twoBlocks_buildable : Buildable {} twoBlocks where
  distinct := by decide
  kinds := by decide
  announced := by
    have hnone : ∀ {e : Expr} {P : Prop}, none = some e → P := fun h => by cases h
    refine ⟨fun e he => hnone he, fun e he => hnone he, fun e he => hnone he, fun e he => ?_,
      fun e he => ?_, trivial⟩
    · obtain rfl : .selfMember "TwoBlocks" "second_size" = e := Option.some.inj he
      exact .member (by decide) (w := 16) rfl (by decide)
    · obtain rfl : .selfMember "TwoBlocks" "first_size" = e := Option.some.inj he
      exact .member (by decide) (w := 8) rfl (by decide)
  own := by
    have hown : ∀ i ∈ twoBlocks.items, ∀ f ∈ i.fields, ∀ j ∈ twoBlocks.items, ∀ g ∈ j.fields,
        ((fieldKind {} twoBlocks f).bind FieldKind.length).isSome = true →
        (fieldKind {} twoBlocks f).bind FieldKind.length =
          (fieldKind {} twoBlocks g).bind FieldKind.length → f = g := by decide
    intro f g hf hg _ _ e he he'
    exact hown _ hf f (by simp [Item.fields]) _ hg g (by simp [Item.fields])
      (by rw [he]; rfl) (he.trans he'.symm)

/-- Two blocks with lengths that are both out of date. -/
def blocksMemory (kind : Int) : UnitMemory := fun x =>
  if x = "kind" then ⟨kind, 0, [], 0⟩
  else if x = "first" then ⟨0, 2, [1, 2], 0⟩
  else if x = "second" then ⟨0, 3, [7, 8, 9], 0⟩
  else ⟨99, 0, [], 0⟩

theorem twoBlocks_fits : Fits {} twoBlocks (blocksMemory 1) := by
  have hcells : ∀ i ∈ twoBlocks.items, ∀ f ∈ i.fields, f.applicationAccessible = true ∧
      (blocksMemory 1 f.id).len_ ≤ (blocksMemory 1 f.id).data_.length ∧
      (blocksMemory 1 f.id).len_ < 2 ^ 8 := by decide
  have hsizes : ∀ i ∈ twoBlocks.items, ∀ f ∈ i.fields,
      ∀ e ∈ (fieldKind {} twoBlocks f).bind FieldKind.length,
        e = .selfMember "TwoBlocks" "first_size" ∨ e = .selfMember "TwoBlocks" "second_size" := by
    decide
  refine ⟨fun f e hf _ => (hcells _ hf f (by simp [Item.fields])).2.1,
    fun f g w hf _ hlen hg => ?_, fun f t bo ty hf hk v hv => ?_, fun f hf hacc => ?_⟩
  · have hlt := (hcells _ hf f (by simp [Item.fields])).2.2
    have hw : 8 ≤ w := by
      rcases hsizes _ hf f (by simp [Item.fields]) _ hlen with heq | heq
      · cases heq
        cases (show some (CType.int ⟨8, false⟩) = _ from hg)
        decide
      · cases heq
        cases (show some (CType.int ⟨16, false⟩) = _ from hg)
        decide
    exact hlt.trans_le (Nat.pow_le_pow_right (by decide) hw)
  · have hkind : f.id = "kind" ∧ FieldKind.cast t bo ty =
        .cast ⟨8, false⟩ .big (.enum "RecordKind") := by
      simp only [twoBlocks, List.mem_cons, List.not_mem_nil, or_false] at hf
      rcases hf with hf | hf | hf | hf | hf <;> cases hf
      · cases (show some (FieldKind.int ⟨8, false⟩ .big) = _ from hk)
      · cases (show some (FieldKind.int ⟨16, false⟩ .big) = _ from hk)
      · cases (show some (FieldKind.cast ⟨8, false⟩ .big (.enum "RecordKind")) = _ from hk)
        exact ⟨rfl, rfl⟩
      · cases (show some (FieldKind.copy _) = _ from hk)
      · cases (show some (FieldKind.copy _) = _ from hk)
    obtain ⟨hid, heq⟩ := hkind
    cases heq
    rw [hid] at hv
    cases (show some (Value.int 1) = _ from hv)
    decide
  · have hyes := (hcells _ hf f (by simp [Item.fields])).1
    simp [hyes] at hacc

end Build

end Diffingo.Codec
