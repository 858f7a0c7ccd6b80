import Diffingo.Codec.FieldCode

/-!
# The wire format of a unit

What a unit is for: a byte string. `fieldWire` is the encoding of one field, `unitWire` that of a
list of items, with a switch contributing the fields of the case it selects. The wire format is
stated on the values of the members only; areas, positions, labels and return codes do not occur.
The serializer writes this byte string (`run_serialize_items`).
-/

namespace Diffingo.Codec

open CInteger ByteMemory Resumable Diffingo.Spec Diffingo.Runtime Diffingo.Generation

/-- The encoding of a value by a field of the given kind. -/
def FieldKind.encode (input : Memory) : FieldKind → Value → Option (List UInt8)
  | .int t bo, .int v => some (intBytes t bo v)
  | .cast t bo _, .int v => some (intBytes t bo (t.wrap v))
  | .copy _, .bytes n data => if n ≤ data.length then some (data.take n) else none
  | .range _, .range start n => some (slice input start n)
  | _, _ => none

/-- The encoding of a field of a unit. -/
def fieldWire (env : Env) (input : Memory) (k : FieldKind) (x : String) (m : UnitMemory) :
    Option (List UInt8) :=
  (env.members x).bind fun ty => ((m x).read ty).bind (k.encode input)

/-- The fields of a case, one after the other. -/
def fieldsWire (o : Options) (u : UnitType) (input : Memory) :
    List AtomicField → UnitMemory → Option (List UInt8)
  | [], _ => some []
  | f :: fs, m =>
    (fieldKind o u f).bind fun k => (fieldWire (unitEnv o u) input k f.id m).bind fun bs =>
      (fieldsWire o u input fs m).map (bs ++ ·)

/-- The case a switch selects, and the unit after its expression has been evaluated. -/
def switchCase (o : Options) (u : UnitType) (e : Expr) (s : Switch) (m : UnitMemory) :
    Option (UnitMemory × List AtomicField) :=
  ((switchGuard e s).select (unitEnv o u) m).map fun r =>
    (r.1, selectedFields s.cases r.2)

/-- The encoding of a list of items, and the unit after the switch expressions have been
evaluated. -/
def unitWire (o : Options) (u : UnitType) (input : Memory) :
    List Item → UnitMemory → Option (List UInt8 × UnitMemory)
  | [], m => some ([], m)
  | .field f :: rest, m =>
    (fieldsWire o u input [f] m).bind fun bs =>
      (unitWire o u input rest m).map fun r => (bs ++ r.1, r.2)
  | .switch s :: rest, m =>
    match s.expression with
    | none => unitWire o u input rest m
    | some e =>
      (switchCase o u e s m).bind fun c => (fieldsWire o u input c.2 c.1).bind fun bs =>
        (unitWire o u input rest c.1).map fun r => (bs ++ r.1, r.2)
  | .var _ :: rest, m => unitWire o u input rest m
  | .property _ :: rest, m => unitWire o u input rest m

section Field

variable {cx : SerializerContext} {outBufEnd : Int} {x : String} {d d' : SerializerData}
  {k : FieldKind} {ty : CType}

/-- Writing `bs` at the position of `d`, if there is room. -/
def writeStep (outBufEnd : Int) (bs : List UInt8) (d : SerializerData) :
    Step SerializerData SerializeResult :=
  if outBufEnd - d.pos < bs.length then .stop .outBufFull d
  else .next ⟨d.unit, blit d.out d.pos bs, d.pos + bs.length⟩

/-- The effect of a primitive, once its result has been checked. -/
def written (d : SerializerData) :
    Except SerializeResult (Memory × Int) → Step SerializerData SerializeResult
  | .error r => .stop r d
  | .ok p => .next ⟨d.unit, p.1, p.2⟩

theorem check_serializeInt (cx : SerializerContext) (l : SerializeLocals) (t : IntTy)
    (bo : ByteOrder) (v : Int) :
    runSerializeBody cx outBufEnd [.checkSerializeResult]
        (l.record d (serializeInt t bo v d.out d.pos outBufEnd)).1
        (l.record d (serializeInt t bo v d.out d.pos outBufEnd)).2 =
      some (written d (serializeInt t bo v d.out d.pos outBufEnd)) := by
  cases h : shortOf outBufEnd d.pos (t.width / 8) <;>
    simp [serializeInt, h, SerializeLocals.record, runSerializeBody, written]

theorem check_copyBytes (cx : SerializerContext) (l : SerializeLocals)
    (src : Option (List UInt8)) (len : Nat) :
    ((copyBytes src len d.out d.pos outBufEnd).bind fun r =>
        runSerializeBody cx outBufEnd [.checkSerializeResult] (l.record d r).1 (l.record d r).2) =
      (copyBytes src len d.out d.pos outBufEnd).map (written d) := by
  unfold copyBytes
  split
  · rfl
  · split
    · cases src <;> rfl
    · rfl

theorem run_serialize_int {t : IntTy} (bo : ByteOrder) (hx : cx.env.members x = some (.int t)) :
    runSerializeBody cx outBufEnd ((FieldKind.int t bo).serializeCode x) {} d =
      some (written d (serializeInt t bo (t.wrap (d.unit x).int) d.out d.pos outBufEnd)) := by
  simp only [FieldKind.serializeCode, runSerializeBody, SerializeStmt.run, hx, Option.map_some,
    Option.bind_some, SerializeLocals.intSrc, if_true]
  exact check_serializeInt cx _ t bo _

theorem run_serialize_cast {t : IntTy} (bo : ByteOrder) (hx : cx.env.members x = some ty) {v : Int}
    (hv : (d.unit x).read ty = some (.int v)) :
    runSerializeBody cx outBufEnd ((FieldKind.cast t bo ty).serializeCode x) {} d =
      some (written d (serializeInt t bo (t.wrap v) d.out d.pos outBufEnd)) := by
  simp only [FieldKind.serializeCode, runSerializeBody, SerializeStmt.run, runCastTemp, hx,
    Option.map_some, Option.bind_some, hv, Value.toInt, CType.convert, SerializeLocals.intSrc]
  exact check_serializeInt cx _ t bo _

theorem run_serialize_bytes (view : BytesView) (hx : cx.env.members x = some ty)
    (hty : view.fits ty = true) :
    runSerializeBody cx outBufEnd [.srcField x, .copyBytes view, .checkSerializeResult] {} d =
      (copyBytes (memberBytes cx.input view (d.unit x)) (d.unit x).len_ d.out d.pos
        outBufEnd).map (written d) := by
  rw [← check_copyBytes cx { serializeSrc := some (.field x) }]
  simp only [runSerializeBody, SerializeStmt.run, hx, Option.map_some, Option.bind_some,
    SerializeLocals.bytesSrc, hty, if_true, Option.bind_map, Function.comp_def]

theorem read_scalar {c : Cell} (hty : ty.isScalar = true) : ∃ v, c.read ty = some (.int v) := by
  cases ty <;> simp_all [Cell.read, CType.convert, CType.isScalar]

theorem read_bytes {c : Cell} (hty : ty.isVarBytes = true) :
    c.read ty = some (.bytes c.len_ c.data_) := by
  cases ty <;> simp_all [Cell.read, CType.isVarBytes]

theorem written_serializeInt (t : IntTy) (bo : ByteOrder) (v : Int) (hle : d.pos ≤ outBufEnd)
    (hend : outBufEnd - d.pos < 2 ^ 63) :
    written d (serializeInt t bo v d.out d.pos outBufEnd) =
      writeStep outBufEnd (intBytes t bo v) d := by
  simp only [serializeInt, shortOf_eq hle hend, decide_eq_true_eq, writeStep, length_intBytes]
  split <;> rfl

theorem written_copyBytes {bs : List UInt8} (hbs : bs.length < 2 ^ 63) :
    (copyBytes (some bs) bs.length d.out d.pos outBufEnd).map (written d) =
      some (writeStep outBufEnd bs d) := by
  simp only [copyBytes, shortOfLength_eq hbs, decide_eq_true_eq, hbs, if_true, writeStep]
  split <;> rfl

/-- The encoding of a bytes member is what the serializer copies, and its length is `len_`. -/
theorem fieldWire_bytes (view : BytesView) (hk : (view = .varBytes ∧ ∃ e, k = .copy e) ∨
      (view = .varStreamRange ∧ ∃ e, k = .range e)) (hx : cx.env.members x = some ty)
    (hty : view.fits ty = true) (m : UnitMemory) :
    fieldWire cx.env cx.input k x m = memberBytes cx.input view (m x) ∧
      ∀ bs, memberBytes cx.input view (m x) = some bs → bs.length = (m x).len_ := by
  rcases hk with ⟨rfl, e, rfl⟩ | ⟨rfl, e, rfl⟩
  · simp only [fieldWire, hx, Option.bind_some, read_bytes hty, FieldKind.encode, memberBytes]
    refine ⟨trivial, fun bs h => ?_⟩
    split at h
    · cases h
      simpa
    · cases h
  · obtain rfl : ty = .varStreamRange := by simpa [BytesView.fits] using hty
    simp only [fieldWire, hx, Option.bind_some, Cell.read, FieldKind.encode, memberBytes]
    refine ⟨trivial, fun bs h => ?_⟩
    cases h
    simp

/-- How the instruction of a bytes field relates to its encoding. -/
theorem run_serialize_bytes_cases (view : BytesView) (hx : cx.env.members x = some ty)
    (hty : view.fits ty = true) {r : Step SerializerData SerializeResult}
    (h : runSerializeBody cx outBufEnd [.srcField x, .copyBytes view, .checkSerializeResult] {} d =
      some r) :
    r = .stop .outBufFull d ∨ ∃ bs, memberBytes cx.input view (d.unit x) = some bs ∧
      (d.unit x).len_ < 2 ^ 63 ∧ r = .next ⟨d.unit, blit d.out d.pos bs, d.pos + (d.unit x).len_⟩ ∧
      ¬ outBufEnd - d.pos < (d.unit x).len_ := by
  rw [run_serialize_bytes view hx hty, copyBytes] at h
  split at h
  · exact .inl (by simpa [written] using h.symm)
  · rename_i hshort
    split at h
    · rename_i hlen
      cases hsrc : memberBytes cx.input view (d.unit x) with
      | none => simp [hsrc] at h
      | some bs =>
        refine .inr ⟨bs, rfl, hlen, by simpa [hsrc, written] using h.symm, ?_⟩
        simpa [shortOfLength_eq hlen] using hshort
    · cases h

/-- The instruction of a field writes its encoding if there is room for it and changes nothing
otherwise. -/
theorem run_serialize_field (hx : cx.env.members x = some ty) (hk : k.HasMember ty)
    {bs : List UInt8} (hwire : fieldWire cx.env cx.input k x d.unit = some bs)
    (hle : d.pos ≤ outBufEnd) (hend : outBufEnd - d.pos < 2 ^ 63) (hbs : bs.length < 2 ^ 63) :
    runSerializeBody cx outBufEnd (k.serializeCode x) {} d = some (writeStep outBufEnd bs d) := by
  cases k with
  | int t bo =>
    obtain ⟨rfl, -⟩ := hk
    have hbs' : intBytes t bo (t.wrap (d.unit x).int) = bs := by
      simpa [fieldWire, hx, Cell.read, CType.convert, FieldKind.encode] using hwire
    rw [run_serialize_int bo hx, written_serializeInt t bo _ hle hend, hbs']
  | cast t bo ty' =>
    obtain ⟨rfl, hscalar, -⟩ := hk
    obtain ⟨v, hv⟩ := read_scalar (c := d.unit x) hscalar
    have hbs' : intBytes t bo (t.wrap v) = bs := by
      simpa [fieldWire, hx, hv, FieldKind.encode] using hwire
    rw [run_serialize_cast bo hx hv, written_serializeInt t bo _ hle hend, hbs']
  | copy e =>
    obtain ⟨hmem, hlen⟩ := fieldWire_bytes .varBytes (.inl ⟨rfl, e, rfl⟩) hx hk d.unit
    rw [hmem] at hwire
    rw [FieldKind.serializeCode, run_serialize_bytes .varBytes hx hk, hwire, ← hlen bs hwire]
    exact written_copyBytes hbs
  | range e =>
    have hty : BytesView.varStreamRange.fits ty = true := by
      simpa [BytesView.fits, FieldKind.HasMember] using hk
    obtain ⟨hmem, hlen⟩ := fieldWire_bytes .varStreamRange (.inr ⟨rfl, e, rfl⟩) hx hty d.unit
    rw [hmem] at hwire
    rw [FieldKind.serializeCode, run_serialize_bytes .varStreamRange hx hty, hwire,
      ← hlen bs hwire]
    exact written_copyBytes hbs

/-- A field that has been written had an encoding, and that is what was written. -/
theorem run_serialize_next (hx : cx.env.members x = some ty) (hk : k.HasMember ty)
    (hle : d.pos ≤ outBufEnd) (hend : outBufEnd - d.pos < 2 ^ 63)
    (h : runSerializeBody cx outBufEnd (k.serializeCode x) {} d = some (.next d')) :
    ∃ bs, fieldWire cx.env cx.input k x d.unit = some bs ∧ bs.length < 2 ^ 63 ∧
      writeStep outBufEnd bs d = .next d' := by
  have hbytes : ∀ view, view.fits ty = true → ((view = .varBytes ∧ ∃ e, k = .copy e) ∨
      (view = .varStreamRange ∧ ∃ e, k = .range e)) →
      runSerializeBody cx outBufEnd [.srcField x, .copyBytes view, .checkSerializeResult] {} d =
        some (.next d') → ∃ bs, fieldWire cx.env cx.input k x d.unit = some bs ∧
          bs.length < 2 ^ 63 ∧ writeStep outBufEnd bs d = .next d' := by
    intro view hfits hview h
    obtain ⟨hmem, hlen⟩ := fieldWire_bytes view hview hx hfits d.unit
    rcases run_serialize_bytes_cases view hx hfits h with hstop | ⟨bs, hbs, hlt, hnext, hroom⟩
    · cases hstop
    · refine ⟨bs, by rw [hmem, hbs], by rw [hlen bs hbs]; exact hlt, ?_⟩
      rw [writeStep, hlen bs hbs, if_neg hroom, ← hnext]
  cases k with
  | int t bo =>
    obtain ⟨rfl, ht⟩ := hk
    rw [run_serialize_int bo hx, written_serializeInt t bo _ hle hend] at h
    refine ⟨_, by simp [fieldWire, hx, Cell.read, CType.convert, FieldKind.encode], ?_,
      Option.some.inj h⟩
    rw [length_intBytes]
    exact width_lt ht
  | cast t bo ty' =>
    obtain ⟨rfl, hscalar, ht⟩ := hk
    obtain ⟨v, hv⟩ := read_scalar (c := d.unit x) hscalar
    rw [run_serialize_cast bo hx hv, written_serializeInt t bo _ hle hend] at h
    refine ⟨_, by simp [fieldWire, hx, hv, FieldKind.encode], ?_, Option.some.inj h⟩
    rw [length_intBytes]
    exact width_lt ht
  | copy e => exact hbytes .varBytes hk (.inl ⟨rfl, e, rfl⟩) h
  | range e =>
    exact hbytes .varStreamRange (by simpa [BytesView.fits, FieldKind.HasMember] using hk)
      (.inr ⟨rfl, e, rfl⟩) h

/-- A field that has not been written has changed nothing. -/
theorem run_serialize_stop {r : SerializeResult} (hx : cx.env.members x = some ty)
    (hk : k.HasMember ty)
    (h : runSerializeBody cx outBufEnd (k.serializeCode x) {} d = some (.stop r d')) :
    r = .outBufFull ∧ d' = d := by
  have hint : ∀ t bo v, written d (serializeInt t bo v d.out d.pos outBufEnd) = .stop r d' →
      r = .outBufFull ∧ d' = d := by
    intro t bo v h
    unfold serializeInt at h
    split at h
    · cases h
      exact ⟨rfl, rfl⟩
    · cases h
  have hbytes : ∀ view, view.fits ty = true →
      runSerializeBody cx outBufEnd [.srcField x, .copyBytes view, .checkSerializeResult] {} d =
        some (.stop r d') → r = .outBufFull ∧ d' = d := by
    intro view hfits h
    rcases run_serialize_bytes_cases view hx hfits h with hstop | ⟨_, _, _, hnext, _⟩
    · cases hstop
      exact ⟨rfl, rfl⟩
    · cases hnext
  cases k with
  | int t bo =>
    obtain ⟨rfl, -⟩ := hk
    rw [run_serialize_int bo hx] at h
    exact hint _ _ _ (Option.some.inj h)
  | cast t bo ty' =>
    obtain ⟨rfl, hscalar, -⟩ := hk
    obtain ⟨v, hv⟩ := read_scalar (c := d.unit x) hscalar
    rw [run_serialize_cast bo hx hv] at h
    exact hint _ _ _ (Option.some.inj h)
  | copy e => exact hbytes .varBytes hk h
  | range e =>
    exact hbytes .varStreamRange (by simpa [BytesView.fits, FieldKind.HasMember] using hk) h

end Field

section Items

variable {o : Options} {u : UnitType} {input : Memory} {outBufEnd : Int}

theorem run_serialize_fields {n : Nat} {fs : List AtomicField} (hfs : ∀ f ∈ fs, Declared o u f)
    {blocks : List (Block Label (List SerializeStmt))}
    (hemit : emitFields (SerializerGenerator.visitAtomicType o u) (SerializerGenerator.label u) n
      fs = some blocks) {d : SerializerData} {bs : List UInt8}
    (hwire : fieldsWire o u input fs d.unit = some bs) (hroom : d.pos + bs.length ≤ outBufEnd)
    (hend : outBufEnd - d.pos < 2 ^ 63) (l : Option Label) :
    ∃ l', runBlocks (serializerSemantics ⟨unitEnv o u, input⟩) outBufEnd blocks l d =
      some (.done l' ⟨d.unit, blit d.out d.pos bs, d.pos + bs.length⟩) := by
  induction fs generalizing n blocks d bs l with
  | nil =>
    cases hemit
    cases hwire
    exact ⟨l, by simp [runBlocks, blit]⟩
  | cons f fs ih =>
    obtain ⟨k, ty, hk, hty, hmem⟩ := hfs f (by simp)
    obtain ⟨body, hbody, hemit⟩ := Option.bind_eq_some_iff.mp hemit
    obtain ⟨blocks', hblocks', rfl⟩ := Option.map_eq_some_iff.mp hemit
    obtain rfl : k.serializeCode f.id = body := by
      rw [(fieldKind_code hk).2.1] at hbody
      exact Option.some.inj hbody
    simp only [fieldsWire, hk, Option.bind_some] at hwire
    obtain ⟨b₁, hb₁, hwire⟩ := Option.bind_eq_some_iff.mp hwire
    obtain ⟨b₂, hb₂, rfl⟩ := Option.map_eq_some_iff.mp hwire
    rw [List.length_append] at hroom
    have hnext : (serializerSemantics ⟨unitEnv o u, input⟩).body (k.serializeCode f.id) outBufEnd d =
        some (.next ⟨d.unit, blit d.out d.pos b₁, d.pos + b₁.length⟩) :=
      (run_serialize_field hty hmem hb₁ (by omega) hend (by omega)).trans
        (congrArg some (if_neg (by omega)))
    obtain ⟨l', hrest⟩ := ih (d := ⟨d.unit, blit d.out d.pos b₁, d.pos + b₁.length⟩)
      (fun g hg => hfs g (List.mem_cons_of_mem _ hg)) hblocks' hb₂ (by push_cast at *; omega)
      (by dsimp only; omega) (some (SerializerGenerator.label u (n + 1) f.id))
    refine ⟨l', ?_⟩
    simp only [runBlocks, hnext]
    simpa [blit_append, Int.add_assoc] using hrest

/-- The serializer writes the encoding of a unit. -/
theorem run_serialize_items {n : Nat} {items : List Item}
    (hitems : ∀ i ∈ items, ∀ f ∈ i.fields, Declared o u f) {code : List SerializerInstr}
    (hemit : SerializerGenerator.serializeItems o u n items = some code) {d : SerializerData}
    {bs : List UInt8} {m : UnitMemory} (hwire : unitWire o u input items d.unit = some (bs, m))
    (hroom : d.pos + bs.length ≤ outBufEnd) (hend : outBufEnd - d.pos < 2 ^ 63)
    (l : Option Label) :
    ∃ l', run (serializerSemantics ⟨unitEnv o u, input⟩) outBufEnd code l d =
      some (.done l' ⟨m, blit d.out d.pos bs, d.pos + bs.length⟩) := by
  unfold SerializerGenerator.serializeItems at hemit
  induction items generalizing n code d bs m l with
  | nil =>
    cases hemit
    cases hwire
    exact ⟨l, by simp [run, blit]⟩
  | cons i rest ih =>
    have hrest := fun j hj => hitems j (List.mem_cons_of_mem i hj)
    -- the fields of an instruction are written first, then the remaining items
    have seq : ∀ {n₁ n₂ blocks code' fs b₁ b₂ m₁}, (∀ f ∈ fs, f ∈ i.fields) →
        emitFields (SerializerGenerator.visitAtomicType o u) (SerializerGenerator.label u) n₁ fs =
          some blocks →
        emitItems (SerializerGenerator.visitAtomicType o u) (fun _ => some none) []
          (SerializerGenerator.label u) n₂ rest = some code' →
        fieldsWire o u input fs m₁ = some b₁ → unitWire o u input rest m₁ = some (b₂, m) →
        bs = b₁ ++ b₂ → ∀ l₁, ∃ l',
          runFrom (serializerSemantics ⟨unitEnv o u, input⟩) outBufEnd (blocks, code') l₁
            ⟨m₁, d.out, d.pos⟩ = some (.done l' ⟨m, blit d.out d.pos bs, d.pos + bs.length⟩) := by
      intro n₁ n₂ blocks code' fs b₁ b₂ m₁ hfs hblocks hcode hb₁ hb₂ hbs l₁
      subst hbs
      rw [List.length_append] at hroom
      obtain ⟨l₂, h₁⟩ := run_serialize_fields (d := ⟨m₁, d.out, d.pos⟩)
        (fun f hf => hitems i (by simp) f (hfs f hf)) hblocks hb₁ (by dsimp only; omega) hend l₁
      obtain ⟨l', h₂⟩ := ih (d := ⟨m₁, blit d.out d.pos b₁, d.pos + b₁.length⟩) hrest hcode hb₂
        (by dsimp only; push_cast at *; omega) (by dsimp only; omega) l₂
      refine ⟨l', ?_⟩
      simp only [runFrom, h₁, Option.bind_some, Outcome.andThen_done]
      simpa [blit_append, Int.add_assoc] using h₂
    cases i with
    | property p => exact ih hrest hemit hwire hroom hend l
    | var v => exact ih hrest hemit hwire hroom hend l
    | field f =>
      obtain ⟨body, hbody, hemit⟩ := Option.bind_eq_some_iff.mp hemit
      obtain ⟨code', hcode', rfl⟩ := Option.map_eq_some_iff.mp hemit
      obtain ⟨b₁, hb₁, hwire⟩ := Option.bind_eq_some_iff.mp hwire
      obtain ⟨⟨b₂, m'⟩, hb₂, heq⟩ := Option.map_eq_some_iff.mp hwire
      cases heq
      rw [run_eq_runFrom, runFrom_enter]
      have hblocks : emitFields (SerializerGenerator.visitAtomicType o u)
          (SerializerGenerator.label u) n [f] =
            some [⟨SerializerGenerator.label u (n + 1) f.id, body⟩] := by
        simp [emitFields, hbody]
      exact seq (fun g hg => hg) hblocks hcode' hb₁ hb₂ rfl l
    | switch s =>
      simp only [emitItems] at hemit
      simp only [unitWire] at hwire
      cases he : s.expression with
      | none =>
        simp only [he] at hemit hwire
        obtain ⟨code', hcode', rfl⟩ := Option.map_eq_some_iff.mp hemit
        rw [run_eq_runFrom, runFrom_enter]
        simpa [serializerSemantics, runSerializeBody, runFrom, runBlocks] using
          ih hrest hcode' hwire hroom hend (some (SerializerGenerator.label u (n + 1) s.id))
      | some e =>
        simp only [he] at hemit hwire
        obtain ⟨cases, hcases, hemit⟩ := Option.bind_eq_some_iff.mp hemit
        obtain ⟨code', hcode', rfl⟩ := Option.map_eq_some_iff.mp hemit
        obtain ⟨⟨m₁, fs⟩, hsel, hwire⟩ := Option.bind_eq_some_iff.mp hwire
        obtain ⟨⟨m₁', i⟩, hguard, heq⟩ := Option.map_eq_some_iff.mp hsel
        cases heq
        obtain ⟨b₁, hb₁, hwire⟩ := Option.bind_eq_some_iff.mp hwire
        obtain ⟨⟨b₂, m'⟩, hb₂, heq⟩ := Option.map_eq_some_iff.mp hwire
        cases heq
        obtain ⟨n', hblocks⟩ := emitCases_chosen hcases i
        have hg : (serializerSemantics ⟨unitEnv o u, input⟩).guard (switchGuard e s) d =
            some (⟨m₁', d.out, d.pos⟩, i) := by
          simp [serializerSemantics, hguard]
        rw [run_eq_runFrom, runFrom_select, hg, Option.bind_some]
        exact seq (selectedFields_sub s.cases i) hblocks hcode' hb₁ hb₂ rfl _

end Items

end Diffingo.Codec
