import Diffingo.Codec.Describes
import Diffingo.Codec.WriteBack

/-!
# Truthful lengths

The lengths on the wire should say how many bytes follow. They do if the fields that share a length
member have one length, which fits the member, and if a length that only a field in a case of a
switch uses was right before.
-/

namespace Diffingo.Codec

open CInteger ByteMemory Resumable Diffingo.Spec Diffingo.Runtime Diffingo.Generation

/-- The number that the bytes of an integer field stand for. -/
def wireNumber (t : IntTy) (bo : ByteOrder) (bs : List UInt8) : Int :=
  t.wrap (fromByteOrder bo (t.width / 8) (leValue bs))

/-- The field has as many bytes as the integer field `g` of type `t` says. -/
def MeasuredBy (o : Options) (u : UnitType) (x g : AtomicField) (t : IntTy) (bo : ByteOrder) : Prop :=
  (fieldKind o u x).bind FieldKind.length = some (.selfMember u.id g.id) ∧
    fieldKind o u g = some (.int t bo)

/-- Among the fields that were written, the lengths say how many bytes were written. -/
def Truthful (o : Options) (u : UnitType) (ws : List (AtomicField × List UInt8)) : Prop :=
  ∀ x ∈ ws, ∀ g ∈ ws, ∀ t bo, MeasuredBy o u x.1 g.1 t bo → wireNumber t bo g.2 = x.2.length

/-- The member holds the length of a field, or is the field. -/
def lengthRelated (u : UnitType) (y : String) : Prop :=
  ∃ i ∈ u.items, ∃ f ∈ i.fields, (f.id = y ∧ f.length.isSome = true) ∨
    f.length = some (.selfMember u.id y)

/-- No expression that is evaluated for serializing changes a length or a field with a length. -/
structure Quiet (u : UnitType) : Prop where
  serialize : ∀ x e, .serialize x e ∈ updates u →
    e.sideEffectFree = true ∨ ∀ y ∈ x :: e.members, ¬ lengthRelated u y
  switch : ∀ s, .switch s ∈ u.items → ∀ e ∈ s.expression, e.sideEffectFree = true

theorem runUpdates_append (env : Env) (as bs : List Update) (m : UnitMemory) :
    runUpdates env (as ++ bs) m = (runUpdates env as m).bind (runUpdates env bs) := by
  induction as generalizing m with
  | nil => rfl
  | cons a as ih =>
    simp only [List.cons_append, runUpdates, Option.bind_assoc]
    congr 1
    funext m'
    exact ih m'

/-- A member that no `serialize` expression can change. -/
theorem runUpdates_keeps {env : Env} {as : List Update} {y : String}
    (has : ∀ a ∈ as, ∃ x e, a = .serialize x e ∧ (e.sideEffectFree = true ∨ y ∉ x :: e.members))
    {m m' : UnitMemory} (h : runUpdates env as m = some m') : m' y = m y := by
  induction as generalizing m with
  | nil =>
    cases h
    rfl
  | cons a as ih =>
    obtain ⟨x, e, rfl, hquiet⟩ := has a List.mem_cons_self
    obtain ⟨m₁, hm₁, h⟩ := Option.bind_eq_some_iff.mp h
    rw [ih (fun b hb => has b (List.mem_cons_of_mem _ hb)) h]
    obtain ⟨ty, -, hm₁⟩ := Option.bind_eq_some_iff.mp hm₁
    obtain ⟨⟨v, m₂⟩, hv, rfl⟩ := Option.map_eq_some_iff.mp hm₁
    have hconfined : Confined { env with dollar := some x } {z | z ≠ y} e := by
      refine hquiet.imp id fun hy z hz hzy => hy ?_
      rw [← hzy, List.mem_cons]
      rcases hz with hz | hz
      · exact .inr hz
      · exact .inl (Option.some.inj hz).symm
    exact eval_keeps hconfined hv y (by simp)

section Written

variable {o : Options} {u : UnitType} {input : Memory} {m : UnitMemory}

theorem fieldsWritten_mem {fs : List AtomicField} {ws : List (AtomicField × List UInt8)}
    (h : fieldsWritten o u input fs m = some ws) {w : AtomicField × List UInt8} (hw : w ∈ ws) :
    w.1 ∈ fs ∧ ∃ k, fieldKind o u w.1 = some k ∧
      fieldWire (unitEnv o u) input k w.1.id m = some w.2 := by
  induction fs generalizing ws with
  | nil =>
    cases h
    cases hw
  | cons f fs ih =>
    obtain ⟨k, hk, h⟩ := Option.bind_eq_some_iff.mp h
    obtain ⟨bs, hbs, h⟩ := Option.bind_eq_some_iff.mp h
    obtain ⟨ws', hws', rfl⟩ := Option.map_eq_some_iff.mp h
    rcases List.mem_cons.mp hw with rfl | hw
    · exact ⟨List.mem_cons_self, k, hk, hbs⟩
    · obtain ⟨hmem, hkind⟩ := ih hws' hw
      exact ⟨List.mem_cons_of_mem f hmem, hkind⟩

/-- Without side effects in switch expressions, all fields are written from the same unit. -/
theorem unitWritten_mem {items : List Item}
    (hpure : ∀ s, .switch s ∈ items → ∀ e ∈ s.expression, e.sideEffectFree = true)
    {ws : List (AtomicField × List UInt8)} {m' : UnitMemory}
    (h : unitWritten o u input items m = some (ws, m')) : m' = m ∧
      ∀ w ∈ ws, (∃ i ∈ items, w.1 ∈ i.fields) ∧ ∃ k, fieldKind o u w.1 = some k ∧
        fieldWire (unitEnv o u) input k w.1.id m = some w.2 := by
  induction items generalizing ws with
  | nil =>
    cases h
    exact ⟨rfl, fun w hw => by cases hw⟩
  | cons i rest ih =>
    have hpure' := fun s hs => hpure s (List.mem_cons_of_mem i hs)
    -- the fields of the item, followed by those of the rest
    have seq : ∀ {fs ws₁}, (∀ f ∈ fs, f ∈ i.fields) → fieldsWritten o u input fs m = some ws₁ →
        ∀ r, unitWritten o u input rest m = some r → (ws₁ ++ r.1, r.2) = (ws, m') → m' = m ∧
          ∀ w ∈ ws, (∃ j ∈ i :: rest, w.1 ∈ j.fields) ∧ ∃ k, fieldKind o u w.1 = some k ∧
            fieldWire (unitEnv o u) input k w.1.id m = some w.2 := by
      intro fs ws₁ hfs hws₁ r hr heq
      cases heq
      obtain ⟨hm, hrest⟩ := ih hpure' hr
      refine ⟨hm, fun w hw => ?_⟩
      rcases List.mem_append.mp hw with hw | hw
      · obtain ⟨hmem, hkind⟩ := fieldsWritten_mem hws₁ hw
        exact ⟨⟨i, List.mem_cons_self, hfs _ hmem⟩, hkind⟩
      · obtain ⟨⟨j, hj, hmem⟩, hkind⟩ := hrest w hw
        exact ⟨⟨j, List.mem_cons_of_mem i hj, hmem⟩, hkind⟩
    have skip : unitWritten o u input rest m = some (ws, m') → m' = m ∧
        ∀ w ∈ ws, (∃ j ∈ i :: rest, w.1 ∈ j.fields) ∧ ∃ k, fieldKind o u w.1 = some k ∧
          fieldWire (unitEnv o u) input k w.1.id m = some w.2 := fun h =>
      seq (fun f hf => by cases hf) (rfl : fieldsWritten o u input [] m = some []) _ h rfl
    cases i with
    | property a => exact skip h
    | var v => exact skip h
    | field f =>
      obtain ⟨ws₁, hws₁, h⟩ := Option.bind_eq_some_iff.mp h
      obtain ⟨r, hr, heq⟩ := Option.map_eq_some_iff.mp h
      exact seq (fun g hg => hg) hws₁ r hr heq
    | switch s =>
      simp only [unitWritten] at h
      cases he : s.expression with
      | none =>
        simp only [he] at h
        exact skip h
      | some e =>
        simp only [he] at h
        obtain ⟨⟨m₁, fs⟩, hsel, hfields⟩ := Option.bind_eq_some_iff.mp h
        obtain ⟨⟨m₂, j⟩, hguard, heq⟩ := Option.map_eq_some_iff.mp hsel
        cases heq
        obtain ⟨rfl, -⟩ := select_stable rfl (hpure s List.mem_cons_self e he) m (fun _ _ => rfl)
          hguard
        obtain ⟨ws₁, hws₁, hrest⟩ := Option.bind_eq_some_iff.mp hfields
        obtain ⟨r, hr, heq⟩ := Option.map_eq_some_iff.mp hrest
        exact seq (selectedFields_sub s.cases j) hws₁ r hr heq

end Written

theorem runSerializeBody_stop {cx : SerializerContext} {e : Int} {b : List SerializeStmt}
    {l : SerializeLocals} {d t : SerializerData} {r : SerializeResult}
    (h : runSerializeBody cx e b l d = some (.stop r t)) : r ≠ .done := by
  fun_induction runSerializeBody cx e b l d with
  | case1 => cases h
  | case2 => cases h
  | case3 rest l d hres ih => exact ih h
  | case4 rest l d r' hres hne =>
    cases h
    assumption
  | case5 l d s rest hs ih =>
    obtain ⟨x, -, h⟩ := Option.bind_eq_some_iff.mp h
    exact ih x h

section Serialize

variable {o : Options} {u : UnitType} {s : Serializer} {input : Memory}

/-- What a call from the beginning that returns `DONE` has done. -/
theorem serialize_done (hs : SerializerGenerator.run o u = some s) {w w' : SerializerWorld}
    {unit : Nat} {outBufStart outBufEnd : Int} (hfresh : w.state.instruction = none)
    (h : s.serialize input unit outBufStart outBufEnd w = some (.done, w')) :
    ∃ m l d, runUpdates (unitEnv o u) (updates u) (w.heap unit) = some m ∧
      run (serializerSemantics ⟨unitEnv o u, input⟩) outBufEnd s.code none
        ⟨m, w.out, outBufStart⟩ = some (.done l d) ∧
      w'.out = d.out ∧ w'.bytesWritten = d.pos - outBufStart := by
  simp only [Serializer.serialize, hfresh] at h
  obtain ⟨st, -, h⟩ := Option.bind_eq_some_iff.mp h
  obtain ⟨oc, hoc, h⟩ := Option.map_eq_some_iff.mp h
  rw [start_eq hs] at hoc
  obtain ⟨m, hm, hrun⟩ := Option.bind_eq_some_iff.mp hoc
  cases oc with
  | stopped r l d =>
    rw [run_eq_runFrom] at hrun
    obtain ⟨b, bs, rest, t, -, -, hb⟩ := Reaches.of_stopped _ _ hrun
    exact absurd (congrArg Prod.fst h) (runSerializeBody_stop hb)
  | done l d =>
    obtain rfl := (Prod.mk.inj h).2
    exact ⟨m, l, d, hm, hrun, rfl, rfl⟩

theorem fieldKind_length {f : AtomicField} {e : Expr}
    (h : (fieldKind o u f).bind FieldKind.length = some e) : f.length = some e := by
  obtain ⟨k, hk, hlen⟩ := Option.bind_eq_some_iff.mp h
  unfold fieldKind at hk
  split at hk
  · split at hk
    · obtain ⟨e', he', rfl⟩ := Option.map_eq_some_iff.mp hk
      cases hlen
      exact he'
    · cases hk
  · split at hk
    · obtain ⟨e', he', rfl⟩ := Option.map_eq_some_iff.mp hk
      cases hlen
      exact he'
    · obtain ⟨e', he', rfl⟩ := Option.map_eq_some_iff.mp hk
      cases hlen
      exact he'
    · split at hk
      · obtain ⟨bo, -, rfl⟩ := Option.map_eq_some_iff.mp hk
        cases hlen
      · cases hk
    · split at hk
      · obtain ⟨bo, -, hk⟩ := Option.bind_eq_some_iff.mp hk
        obtain ⟨ty, -, hk⟩ := Option.bind_eq_some_iff.mp hk
        split at hk
        · cases hk
          cases hlen
        · cases hk
      · cases hk
    · cases hk

theorem Supported.int_member (hu : Supported o u) {i : Item} (hi : i ∈ u.items) {f : AtomicField}
    (hf : f ∈ i.fields) {t : IntTy} {bo : ByteOrder} (hk : fieldKind o u f = some (.int t bo)) :
    (unitEnv o u).members f.id = some (.int t) ∧ t.width ∈ supportedWidths := by
  obtain ⟨k, ty, hk', hty, hmem⟩ := hu.declared hi hf
  obtain rfl : .int t bo = k := Option.some.inj (hk.symm.trans hk')
  obtain ⟨rfl, ht⟩ := hmem
  exact ⟨hty, ht⟩

/-- The number on the wire is the one in the unit. -/
theorem wire_int {env : Env} {x : String} {t : IntTy} {bo : ByteOrder} {m : UnitMemory}
    {bs : List UInt8} (hx : env.members x = some (.int t)) (ht : t.width ∈ supportedWidths)
    (h : fieldWire env input (.int t bo) x m = some bs) :
    wireNumber t bo bs = t.wrap (m x).int := by
  obtain rfl : intBytes t bo (t.wrap (m x).int) = bs := by
    simpa [fieldWire, hx, Cell.read, CType.convert, FieldKind.encode] using h
  rw [wireNumber, parsed_intBytes ht, IntTy.wrap_wrap]

/-- A field with a length has that many bytes on the wire. -/
theorem wire_bytes_length (hu : Supported o u) {i : Item} (hi : i ∈ u.items) {f : AtomicField}
    (hf : f ∈ i.fields) {k : FieldKind} (hk : fieldKind o u f = some k) {e : Expr}
    (hlen : k.length = some e) {m : UnitMemory} {bs : List UInt8}
    (h : fieldWire (unitEnv o u) input k f.id m = some bs) : bs.length = (m f.id).len_ := by
  obtain ⟨k', ty, hk', hty, hmem⟩ := hu.declared hi hf
  obtain rfl : k = k' := Option.some.inj (hk.symm.trans hk')
  cases k with
  | int t bo => cases hlen
  | cast t bo ty' => cases hlen
  | copy e' =>
    obtain ⟨hwire, hbs⟩ := @fieldWire_bytes ⟨unitEnv o u, input⟩ _ _ _ .varBytes
      (.inl ⟨rfl, e', rfl⟩) hty hmem m
    exact hbs bs (hwire.symm.trans h)
  | range e' =>
    obtain ⟨hwire, hbs⟩ := @fieldWire_bytes ⟨unitEnv o u, input⟩ _ _ _ .varStreamRange
      (.inr ⟨rfl, e', rfl⟩) hty (by simpa [BytesView.fits, FieldKind.HasMember] using hmem) m
    exact hbs bs (hwire.symm.trans h)

/-- Data with a length of eight bits. -/
def shortRecord : UnitType where
  id := "ShortRecord"
  items := [
    .field { id := "size", type := .integer 8 false },
    .field { id := "data", type := .bytes,
             attributes := [⟨"length", some (.selfMember "ShortRecord" "size")⟩] }]

/-- Data with a length of eight bits, in a case of a switch. -/
def optionalRecord : UnitType where
  id := "OptionalRecord"
  items := [
    .field { id := "kind", type := .integer 8 false },
    .field { id := "size", type := .integer 8 false },
    .switch { id := "__anon1", expression := some (.selfMember "OptionalRecord" "kind"), cases := [
      { expressions := [.int 1],
        items := [{ id := "data", type := .bytes,
                    attributes := [⟨"length", some (.selfMember "OptionalRecord" "size")⟩] }] }] }]

/-- A unit of kind 1 with the size 5 and the given data. -/
def recordMemory (data : List UInt8) : UnitMemory := fun x =>
  if x = "kind" then ⟨1, 0, [], 0⟩
  else if x = "size" then ⟨5, 0, [], 0⟩
  else ⟨0, data.length, data, 0⟩

theorem shortRecord_quiet : Quiet shortRecord := by
  refine ⟨fun x e h => ?_, fun s h => ?_⟩
  · have hnone : updates shortRecord =
        [.length "data" (.selfMember "ShortRecord" "size")] := by decide
    simp [hnone] at h
  · simp [shortRecord] at h

end Serialize

end Diffingo.Codec
