import Diffingo.Codec.RoundTrip
import Diffingo.Codec.Truthful

/-!
# The output of a serializer

What a call of a serializer writes is a function of the unit: the encoding of the unit after its
updates. The call returns `DONE` if and only if there is such an encoding and the buffer has room for
it. So two serializers write the same if the encodings of their units are the same.
-/

namespace Diffingo.Codec

open CInteger ByteMemory Resumable Diffingo.Spec Diffingo.Runtime Diffingo.Generation

/-- The bytes that the serializer of `u` writes for a unit. -/
def encoding (o : Options) (u : UnitType) (input : Memory) (m : UnitMemory) : Option (List UInt8) :=
  (runUpdates (unitEnv o u) (updates u) m).bind fun m' =>
    (unitWire o u input u.items m').map (·.1)

section Wire

variable {o : Options} {u : UnitType} {input : Memory}

theorem fieldsWire_written (fs : List AtomicField) (m : UnitMemory) :
    fieldsWire o u input fs m = (fieldsWritten o u input fs m).map outputOf := by
  induction fs with
  | nil => rfl
  | cons f fs ih =>
    simp only [fieldsWire, fieldsWritten, ih, Option.map_bind]
    congr 1
    funext k
    simp [Function.comp_def, Option.map_map]

/-- The encoding of a unit is the encodings of the fields that are written. -/
theorem unitWire_written (items : List Item) (m : UnitMemory) :
    unitWire o u input items m =
      (unitWritten o u input items m).map fun r => (outputOf r.1, r.2) := by
  induction items generalizing m with
  | nil => rfl
  | cons i rest ih =>
    cases i with
    | property a => exact ih m
    | var v => exact ih m
    | field f =>
      simp only [unitWire, unitWritten, ih, fieldsWire_written, Option.map_bind, Option.bind_map,
        Option.map_map, Function.comp_def, outputOf_append]
    | switch s =>
      cases he : s.expression with
      | none => simpa only [unitWire, unitWritten, he] using ih m
      | some e =>
        simp only [unitWire, unitWritten, he, ih, fieldsWire_written, Option.map_bind,
          Option.bind_map, Option.map_map, Function.comp_def, outputOf_append]

end Wire

section Calls

variable {o : Options} {u : UnitType} {s : Serializer} {input : Memory} {w w' : SerializerWorld}
  {unit : Nat} {outBufStart outBufEnd : Int}

/-- A call that returns `DONE` has written the encoding of the unit. -/
theorem serialize_writes (hu : Supported o u) (hs : SerializerGenerator.run o u = some s)
    (hfresh : w.state.instruction = none) (hle : outBufStart ≤ outBufEnd)
    (hsize : outBufEnd - outBufStart < 2 ^ 63)
    (h : s.serialize input unit outBufStart outBufEnd w = some (.done, w')) :
    ∃ bs, encoding o u input (w.heap unit) = some bs ∧ outBufStart + bs.length ≤ outBufEnd ∧
      w'.out = blit w.out outBufStart bs ∧ w'.bytesWritten = bs.length := by
  obtain ⟨hok, -, -, hcode⟩ := serializer_code_ok hu hs
  obtain ⟨m, l, d, hup, hrun, hout, hwritten⟩ := serialize_done hs hfresh h
  obtain ⟨ws, hws, hout', hpos⟩ := run_items_written (fun i hi f hf => hu.declared hi hf) hcode
    (d := ⟨m, w.out, outBufStart⟩) hle hsize hrun
  have hinside := (serializer_confined ⟨unitEnv o u, input⟩ outBufStart w.out).runFrom hok
    (fun _ => ⟨le_refl _, hle, fun _ _ => rfl⟩) (by rw [← run_eq_runFrom]; exact hrun) hsize
  refine ⟨outputOf ws, ?_, ?_, by rw [hout, hout'], by rw [hwritten, hpos]; simp⟩
  · simp [encoding, hup, unitWire_written, hws]
  · rw [← hpos]
    exact hinside.2.1

/-- A call whose buffer has room for the encoding of the unit returns `DONE`. -/
theorem serialize_encoding (hu : Supported o u) (hs : SerializerGenerator.run o u = some s)
    (hfresh : w.state.instruction = none)
    (hspace : Runtime.ParserState.blockSize < w.state.space) {bs : List UInt8}
    (hsize : outBufEnd - outBufStart < 2 ^ 63)
    (hbs : encoding o u input (w.heap unit) = some bs)
    (hroom : outBufStart + bs.length ≤ outBufEnd) :
    ∃ w', s.serialize input unit outBufStart outBufEnd w = some (.done, w') ∧
      w'.out = blit w.out outBufStart bs ∧ w'.bytesWritten = bs.length := by
  obtain ⟨m, hup, hwire⟩ := Option.bind_eq_some_iff.mp hbs
  obtain ⟨⟨bs', m'⟩, hunit, rfl⟩ := Option.map_eq_some_iff.mp hwire
  obtain ⟨-, -, -, hcode⟩ := serializer_code_ok hu hs
  obtain ⟨w₁, -, -, hstart⟩ := serialize_fresh input outBufStart hs hfresh hspace hup
  obtain ⟨l, hrun⟩ := run_serialize_items (fun i hi f hf => hu.declared hi hf) hcode
    (d := ⟨m, w.out, outBufStart⟩) hunit hroom hsize none
  exact ⟨_, by rw [hstart, hrun]; rfl, rfl, by simp⟩

end Calls

/-! ## Updates -/

theorem lengthUpdate_spec {f : AtomicField} {a : Update} (h : lengthUpdate f = some a) :
    f.applicationAccessible = true ∧ (f.serialized = .bytes ∨ f.serialized = .string) ∧
      ∃ b c, f.length = some (.binary .attribute b c) ∧ a = .length f.id (.binary .attribute b c) := by
  unfold lengthUpdate at h
  split at h
  · rename_i hacc
    simp only [Bool.and_eq_true, Bool.or_eq_true, decide_eq_true_eq] at hacc
    split at h
    · rename_i b c hlen
      exact ⟨hacc.2, hacc.1, b, c, hlen, (Option.some.inj h).symm⟩
    · cases h
  · cases h

/-- The updates of a unit come from its fields and its variables. -/
theorem mem_updates {u : UnitType} {a : Update} (h : a ∈ updates u) :
    (∃ f, .field f ∈ u.items ∧ lengthUpdate f = some a) ∨
      ∃ v ex, .var v ∈ u.items ∧
        (lookupAttribute v.attributes "serialize").bind (·.value) = some ex ∧
        a = .serialize v.id ex := by
  rcases List.mem_append.mp h with h | h
  · obtain ⟨i, hi, hia⟩ := List.mem_filterMap.mp h
    split at hia
    · exact .inl ⟨_, hi, hia⟩
    · cases hia
  · obtain ⟨i, hi, hia⟩ := List.mem_filterMap.mp h
    split at hia
    · obtain ⟨ex, hex, rfl⟩ := Option.map_eq_some_iff.mp hia
      exact .inr ⟨_, ex, hi, hex, rfl⟩
    · cases hia

section Updates

variable {env : Env} {m m' : UnitMemory}

/-- An update changes only what it names. -/
theorem Update.run_keeps (hdollar : env.dollar = none) {a : Update} (hrun : a.run env m = some m')
    {y : String} (hy : y ∉ a.names) : m' y = m y := by
  cases a with
  | length x e =>
    obtain ⟨ty, -, hrun⟩ := Option.bind_eq_some_iff.mp hrun
    split at hrun
    · obtain ⟨r, hr, rfl⟩ := Option.map_eq_some_iff.mp hrun
      refine assignTo_keeps (S := {z | z ≠ y}) (fun p hp heq => ?_) _ (literal_keeps _) hr y (by simp)
      rcases (lvalue_spec hp).2 with hmem | hnone
      · exact hy (List.mem_cons_of_mem x (heq ▸ hmem))
      · rw [hdollar] at hnone
        cases hnone
    · cases hrun
  | serialize x e =>
    obtain ⟨ty, -, hrun⟩ := Option.bind_eq_some_iff.mp hrun
    obtain ⟨r, hr, rfl⟩ := Option.map_eq_some_iff.mp hrun
    refine eval_keeps (S := {z | z ≠ y}) (.inr fun z hz heq => hy ?_) hr y (by simp)
    rcases hz with hz | hz
    · exact List.mem_cons_of_mem x (heq ▸ hz)
    · rw [← heq, ← Option.some.inj hz]
      exact List.mem_cons_self

theorem runUpdates_other (hdollar : env.dollar = none) {as : List Update}
    (hrun : runUpdates env as m = some m') {y : String} (hy : ∀ a ∈ as, y ∉ a.names) :
    m' y = m y := by
  induction as generalizing m with
  | nil =>
    cases hrun
    rfl
  | cons a as ih =>
    obtain ⟨m₁, hm₁, hrun⟩ := Option.bind_eq_some_iff.mp hrun
    rw [ih hrun fun b hb => hy b (List.mem_cons_of_mem a hb),
      Update.run_keeps hdollar hm₁ (hy a List.mem_cons_self)]

end Updates

/-! ## Calls that write the same -/

/-- Two calls that write the same bytes, or do not return `DONE`. -/
def SameOutput (r r' : Option (SerializeResult × SerializerWorld)) : Prop :=
  ∀ out n, (∃ w, r = some (.done, w) ∧ w.out = out ∧ w.bytesWritten = n) ↔
    ∃ w, r' = some (.done, w) ∧ w.out = out ∧ w.bytesWritten = n

/-- A first call of a serializer on the unit at `unit`. -/
structure FreshOutput (o : Options) (u : UnitType) (s : Serializer) (w : SerializerWorld) : Prop where
  supported : Supported o u
  run : SerializerGenerator.run o u = some s
  fresh : w.state.instruction = none
  space : Runtime.ParserState.blockSize < w.state.space

/-- Units with one encoding are written alike. -/
theorem sameOutput_of_encoding {o o' : Options} {u u' : UnitType} {s s' : Serializer}
    {w w' : SerializerWorld} (hw : FreshOutput o u s w) (hw' : FreshOutput o' u' s' w')
    {input : Memory} {unit unit' : Nat} (hout : w.out = w'.out)
    (h : encoding o u input (w.heap unit) = encoding o' u' input (w'.heap unit'))
    {outBufStart outBufEnd : Int} (hle : outBufStart ≤ outBufEnd)
    (hsize : outBufEnd - outBufStart < 2 ^ 63) :
    SameOutput (s.serialize input unit outBufStart outBufEnd w)
      (s'.serialize input unit' outBufStart outBufEnd w') := by
  intro out n
  constructor
  · rintro ⟨w₁, hcall, rfl, rfl⟩
    obtain ⟨bs, hbs, hroom, hw₁, hn⟩ :=
      serialize_writes hw.supported hw.run hw.fresh hle hsize hcall
    obtain ⟨w₂, hcall', hw₂, hn'⟩ :=
      serialize_encoding hw'.supported hw'.run hw'.fresh hw'.space hsize (h ▸ hbs) hroom
    exact ⟨w₂, hcall', by rw [hw₂, hw₁, hout], by rw [hn, hn']⟩
  · rintro ⟨w₂, hcall', rfl, rfl⟩
    obtain ⟨bs, hbs, hroom, hw₂, hn⟩ :=
      serialize_writes hw'.supported hw'.run hw'.fresh hle hsize hcall'
    obtain ⟨w₁, hcall, hw₁, hn'⟩ :=
      serialize_encoding hw.supported hw.run hw.fresh hw.space hsize (h ▸ hbs) hroom
    exact ⟨w₁, hcall, by rw [hw₁, hw₂, hout], by rw [hn, hn']⟩

end Diffingo.Codec
