import Diffingo.Codec.Incremental

/-!
# Lengths written back

Before a unit is written, the serializer stores the lengths of its bytes and string fields in the
members their `length` attributes name. It does so for the fields of the unit itself, not for those
of the cases of a switch, in the order of the fields; a length is cut off to the width of the member.
What is written afterwards is stated here field by field.
-/

namespace Diffingo.Codec

open CInteger ByteMemory Resumable Diffingo.Spec Diffingo.Runtime Diffingo.Generation

/-! ## The effect of the updates -/

/-- The field keeps its length in the member `f`, and the serializer updates it. -/
def heldIn (u : UnitType) (f : String) (x : AtomicField) : Bool :=
  (x.serialized = .bytes || x.serialized = .string) && x.applicationAccessible &&
    x.length = some (.selfMember u.id f)

/-- The last field among the items that keeps its length in the member `f`. -/
def lastHolder (u : UnitType) (f : String) : List Item → Option AtomicField
  | [] => none
  | i :: rest =>
    (lastHolder u f rest).or
      (match i with
        | .field x => if heldIn u f x then some x else none
        | _ => none)

/-- The number in the member `f` after the lengths have been written back. -/
def lengthAfter (u : UnitType) (m : UnitMemory) (f : String) (items : List Item) : Int :=
  (lastHolder u f items).elim (m f).int fun x => (m x.id).len_

/-- The unit after the lengths have been written back. -/
def settled (u : UnitType) (m : UnitMemory) (items : List Item) : UnitMemory :=
  fun y => { m y with int := lengthAfter u m y items }

/-- The units differ in numbers only. -/
def SameBytes (m m' : UnitMemory) : Prop := ∀ y, m' y = { m y with int := (m' y).int }

theorem SameBytes.len {m m' : UnitMemory} (h : SameBytes m m') (y : String) :
    (m' y).len_ = (m y).len_ := by
  rw [h y]

theorem SameBytes.trans {m m' m'' : UnitMemory} (h : SameBytes m m') (h' : SameBytes m' m'') :
    SameBytes m m'' := by
  intro y
  rw [h' y, h y]

/-- What one length update does. -/
theorem run_length {env : Env} {x : String} {e : Expr} {m m' : UnitMemory}
    (h : (Update.length x e).run env m = some m') :
    ∃ f ty w, lvalue env e = some (f, ty) ∧ ty.convert (m x).len_ = some w ∧
      m' = Function.update m f { m f with int := w } := by
  simp only [Update.run] at h
  obtain ⟨tx, -, h⟩ := Option.bind_eq_some_iff.mp h
  split at h
  · obtain ⟨r, hr, rfl⟩ := Option.map_eq_some_iff.mp h
    obtain ⟨⟨f, ty⟩, hl, hr⟩ := Option.bind_eq_some_iff.mp hr
    obtain ⟨ts, -, hr⟩ := Option.bind_eq_some_iff.mp hr
    split at hr
    · obtain ⟨⟨v, m₁⟩, hv, hr⟩ := Option.bind_eq_some_iff.mp hr
      cases hv
      obtain ⟨c, hc, hr⟩ := Option.bind_eq_some_iff.mp hr
      obtain ⟨w, -, rfl⟩ := Option.map_eq_some_iff.mp hr
      unfold Cell.store Value.convert at hc
      cases hw : ty.convert (m x).len_ with
      | none => simp [hw] at hc
      | some w' =>
        simp only [hw, Option.map_some, Option.some.injEq] at hc
        exact ⟨f, ty, w', hl, hw, by rw [← hc]⟩
    · cases hr
  · cases h

theorem lengthUpdates_cons (i : Item) (rest : List Item) :
    lengthUpdates (i :: rest) = (match i with
      | .field f => (lengthUpdate f).toList
      | _ => []) ++ lengthUpdates rest := by
  cases i with
  | field f => cases h : lengthUpdate f <;> simp [lengthUpdates, h]
  | _ => rfl

/-- The update of a field goes to the member it keeps its length in. -/
theorem heldIn_iff {o : Options} {u : UnitType} {x : AtomicField} {y : String} {e : Expr}
    (h : lengthUpdate x = some (.length y e)) {f : String} {ty : CType}
    (hl : lvalue (unitEnv o u) e = some (f, ty)) (g : String) :
    y = x.id ∧ (heldIn u g x = true ↔ g = f) := by
  unfold lengthUpdate at h
  split at h
  · rename_i hcond
    split at h
    · rename_i a b hlen
      cases h
      unfold lvalue at hl
      split at hl
      · rename_i w z heq
        split at hl
        · rename_i hw
          obtain ⟨ty', -, hp⟩ := Option.map_eq_some_iff.mp hl
          cases hp
          simp only [Expr.binary.injEq, true_and] at heq
          obtain ⟨rfl, rfl⟩ := heq
          obtain rfl : w = u.id := hw
          refine ⟨rfl, ?_⟩
          simp only [heldIn, hcond, hlen, Bool.true_and, decide_eq_true_eq, Option.some.injEq,
            Expr.binary.injEq, Expr.memberAttribute.injEq, true_and]
          exact eq_comm
        · cases hl
      · rename_i heq
        cases heq
      · cases hl
    · cases h
  · cases h

/-- A field without an update keeps no length up to date. -/
theorem heldIn_of_none {u : UnitType} {x : AtomicField} (h : lengthUpdate x = none) (g : String) :
    heldIn u g x = false := by
  unfold lengthUpdate at h
  split at h
  · rename_i hcond
    split at h
    · cases h
    · rename_i hlen
      simp only [heldIn, hcond, Bool.true_and, decide_eq_false_iff_not]
      exact fun heq => hlen _ _ heq
  · rename_i hcond
    simp only [Bool.not_eq_true] at hcond
    simp [heldIn, hcond]

theorem SameBytes.read {m m' : UnitMemory} (h : SameBytes m m') {y : String} {v : Int} {ty : CType}
    (hint : ty.convert (m' y).int = ty.convert v) :
    (m' y).read ty = ({ m y with int := v } : Cell).read ty := by
  rw [h y]
  cases ty <;> simp_all [Cell.read]

/-- The lengths are written back: nothing but numbers changes, and a member has the length of the
last field that keeps its length there. -/
theorem runUpdates_lengths {o : Options} {u : UnitType} {items : List Item} {m m' : UnitMemory}
    (h : runUpdates (unitEnv o u) (lengthUpdates items) m = some m') :
    SameBytes m m' ∧ ∀ f ty, (unitEnv o u).members f = some ty →
      ty.convert (m' f).int = ty.convert (lengthAfter u m f items) := by
  induction items generalizing m with
  | nil =>
    cases h
    exact ⟨fun _ => rfl, fun _ _ _ => rfl⟩
  | cons i rest ih =>
    rw [lengthUpdates_cons] at h
    -- an item without an update
    have hskip : (∀ f, (match i with
        | .field x => if heldIn u f x then some x else none
        | _ => none) = none) → runUpdates (unitEnv o u) (lengthUpdates rest) m = some m' →
        SameBytes m m' ∧ ∀ f ty, (unitEnv o u).members f = some ty →
          ty.convert (m' f).int = ty.convert (lengthAfter u m f (i :: rest)) := by
      intro hnone h
      obtain ⟨hsame, hint⟩ := ih h
      refine ⟨hsame, fun f t hf => ?_⟩
      rw [hint f t hf]
      simp only [lengthAfter, lastHolder, hnone f, Option.or_none]
    cases i with
    | field x =>
      cases hup : lengthUpdate x with
      | none =>
        simp only [hup, Option.toList_none, List.nil_append] at h
        exact hskip (fun f => by simp [heldIn_of_none hup f]) h
      | some a =>
        obtain ⟨y, e, rfl⟩ := lengthUpdates_length [.field x] a (by simp [lengthUpdates, hup])
        simp only [hup, Option.toList_some, List.singleton_append, runUpdates] at h
        obtain ⟨m₁, hm₁, hrest⟩ := Option.bind_eq_some_iff.mp h
        obtain ⟨f₁, ty, w, hl, hw, rfl⟩ := run_length hm₁
        obtain rfl := (heldIn_iff hup hl f₁).1
        have hheld := fun g => (heldIn_iff hup hl g).2
        have hsame₁ : SameBytes m (Function.update m f₁ { m f₁ with int := w }) := by
          intro z
          by_cases hz : z = f₁
          · subst hz
            simp
          · simp [hz]
        obtain ⟨hsame, hint⟩ := ih hrest
        refine ⟨hsame₁.trans hsame, fun f t hf => ?_⟩
        rw [hint f t hf]
        simp only [lengthAfter, lastHolder, hheld f]
        cases hlast : lastHolder u f rest with
        | some z => simp [hsame₁.len]
        | none =>
          by_cases hff : f = f₁
          · subst hff
            have hty := (lvalue_spec hl).1
            rw [hf] at hty
            cases hty
            simp [hw, CType.convert_convert hw]
          · simp [hff]
    | switch s => exact hskip (fun _ => rfl) h
    | var v => exact hskip (fun _ => rfl) h
    | property p => exact hskip (fun _ => rfl) h

/-! ## What is written, field by field -/

/-- The fields of a case with their encodings. -/
def fieldsWritten (o : Options) (u : UnitType) (input : Memory) :
    List AtomicField → UnitMemory → Option (List (AtomicField × List UInt8))
  | [], _ => some []
  | f :: fs, m =>
    (fieldKind o u f).bind fun k => (fieldWire (unitEnv o u) input k f.id m).bind fun bs =>
      (fieldsWritten o u input fs m).map ((f, bs) :: ·)

/-- The fields that are written for a list of items with their encodings, and the unit after the
switch expressions have been evaluated. -/
def unitWritten (o : Options) (u : UnitType) (input : Memory) :
    List Item → UnitMemory → Option (List (AtomicField × List UInt8) × UnitMemory)
  | [], m => some ([], m)
  | .field f :: rest, m =>
    (fieldsWritten o u input [f] m).bind fun ws =>
      (unitWritten o u input rest m).map fun r => (ws ++ r.1, r.2)
  | .switch s :: rest, m =>
    match s.expression with
    | none => unitWritten o u input rest m
    | some e =>
      (switchCase o u e s m).bind fun c => (fieldsWritten o u input c.2 c.1).bind fun ws =>
        (unitWritten o u input rest c.1).map fun r => (ws ++ r.1, r.2)
  | .var _ :: rest, m => unitWritten o u input rest m
  | .property _ :: rest, m => unitWritten o u input rest m

/-- The bytes of the fields, one after the other. -/
def outputOf (ws : List (AtomicField × List UInt8)) : List UInt8 := ws.flatMap (·.2)

@[simp] theorem outputOf_append (ws ws' : List (AtomicField × List UInt8)) :
    outputOf (ws ++ ws') = outputOf ws ++ outputOf ws' := List.flatMap_append

@[simp] theorem outputOf_cons (w : AtomicField × List UInt8) (ws : List (AtomicField × List UInt8)) :
    outputOf (w :: ws) = w.2 ++ outputOf ws := List.flatMap_cons

section Written

variable {o : Options} {u : UnitType} {input : Memory} {outBufEnd : Int}

theorem run_fields_written {n : Nat} {fs : List AtomicField} (hfs : ∀ f ∈ fs, Declared o u f)
    {blocks : List (Block Label (List SerializeStmt))}
    (hemit : emitFields (SerializerGenerator.visitAtomicType o u) (SerializerGenerator.label u) n
      fs = some blocks) {l l' : Option Label} {d d' : SerializerData} (hle : d.pos ≤ outBufEnd)
    (hend : outBufEnd - d.pos < 2 ^ 63)
    (h : runBlocks (serializerSemantics ⟨unitEnv o u, input⟩) outBufEnd blocks l d =
      some (.done l' d')) :
    ∃ ws, fieldsWritten o u input fs d.unit = some ws ∧ d'.unit = d.unit ∧
      d'.out = blit d.out d.pos (outputOf ws) ∧ d'.pos = d.pos + (outputOf ws).length ∧
      d'.pos ≤ outBufEnd := by
  induction fs generalizing n blocks l d with
  | nil =>
    cases hemit
    cases h
    exact ⟨[], rfl, rfl, rfl, by simp [outputOf], hle⟩
  | cons f fs ih =>
    obtain ⟨k, ty, hk, hty, hmem⟩ := hfs f (by simp)
    obtain ⟨body, hbody, hemit⟩ := Option.bind_eq_some_iff.mp hemit
    obtain ⟨blocks', hblocks', rfl⟩ := Option.map_eq_some_iff.mp hemit
    obtain rfl : k.serializeCode f.id = body := by
      rw [(fieldKind_code hk).2.1] at hbody
      exact Option.some.inj hbody
    simp only [runBlocks] at h
    split at h
    · cases h
    · rename_i d₁ hstep
      obtain ⟨bs, hbs, -, hwrite⟩ := run_serialize_next hty hmem hle hend hstep
      unfold writeStep at hwrite
      split at hwrite
      · cases hwrite
      · cases hwrite
        obtain ⟨ws, hws, hunit, hout, hpos, hle'⟩ := ih
          (fun g hg => hfs g (List.mem_cons_of_mem _ hg)) hblocks' (by dsimp only; omega)
          (by dsimp only; omega) h
        have hbs' : fieldWire (unitEnv o u) input k f.id d.unit = some bs := hbs
        refine ⟨(f, bs) :: ws, by simp [fieldsWritten, hk, hbs', hws], hunit, ?_, ?_, hle'⟩
        · rw [hout, outputOf_cons, blit_append]
        · rw [hpos, outputOf_cons, List.length_append]
          push_cast
          ring
    · cases h

/-- A run that ends has written the fields. -/
theorem run_items_written {n : Nat} {items : List Item}
    (hitems : ∀ i ∈ items, ∀ f ∈ i.fields, Declared o u f) {code : List SerializerInstr}
    (hemit : SerializerGenerator.serializeItems o u n items = some code) {l l' : Option Label}
    {d d' : SerializerData} (hle : d.pos ≤ outBufEnd) (hend : outBufEnd - d.pos < 2 ^ 63)
    (h : run (serializerSemantics ⟨unitEnv o u, input⟩) outBufEnd code l d =
      some (.done l' d')) :
    ∃ ws, unitWritten o u input items d.unit = some (ws, d'.unit) ∧
      d'.out = blit d.out d.pos (outputOf ws) ∧ d'.pos = d.pos + (outputOf ws).length := by
  unfold SerializerGenerator.serializeItems at hemit
  induction items generalizing n code l d with
  | nil =>
    cases hemit
    cases h
    exact ⟨[], rfl, rfl, by simp [outputOf]⟩
  | cons i rest ih =>
    have hrest := fun j hj => hitems j (List.mem_cons_of_mem i hj)
    -- the fields of an instruction, followed by the remaining items
    have seq : ∀ {n₁ n₂ blocks code' fs l₁ m₁}, (∀ f ∈ fs, f ∈ i.fields) →
        emitFields (SerializerGenerator.visitAtomicType o u) (SerializerGenerator.label u) n₁ fs =
          some blocks →
        emitItems (SerializerGenerator.visitAtomicType o u) (fun _ => some none) []
          (SerializerGenerator.label u) n₂ rest = some code' →
        runFrom (serializerSemantics ⟨unitEnv o u, input⟩) outBufEnd (blocks, code') l₁
          ⟨m₁, d.out, d.pos⟩ = some (.done l' d') →
        ∃ ws ws', fieldsWritten o u input fs m₁ = some ws ∧
          unitWritten o u input rest m₁ = some (ws', d'.unit) ∧
          d'.out = blit d.out d.pos (outputOf (ws ++ ws')) ∧
          d'.pos = d.pos + (outputOf (ws ++ ws')).length := by
      intro n₁ n₂ blocks code' fs l₁ m₁ hfs hblocks hcode hrun
      obtain ⟨l₂, d₁, hrun₁, hrun₂⟩ := runFrom_done _ _ hrun
      have hstart : (⟨m₁, d.out, d.pos⟩ : SerializerData).pos ≤ outBufEnd := hle
      obtain ⟨ws, hws, hunit, hout, hpos, hle₁⟩ := run_fields_written
        (fun f hf => hitems i List.mem_cons_self f (hfs f hf)) hblocks hstart hend hrun₁
      dsimp only at hunit hout hpos
      obtain ⟨ws', hws', hout', hpos'⟩ := ih hrest hcode hle₁ (by omega) hrun₂
      rw [hunit] at hws'
      refine ⟨ws, ws', hws, hws', ?_, ?_⟩
      · rw [hout', hout, hpos, outputOf_append, blit_append]
      · rw [hpos', hpos, outputOf_append, List.length_append]
        push_cast
        ring
    cases i with
    | property a => exact ih hrest hemit hle hend h
    | var v => exact ih hrest hemit hle hend h
    | field f =>
      obtain ⟨body, hbody, hemit⟩ := Option.bind_eq_some_iff.mp hemit
      obtain ⟨code', hcode', rfl⟩ := Option.map_eq_some_iff.mp hemit
      have hblocks : emitFields (SerializerGenerator.visitAtomicType o u)
          (SerializerGenerator.label u) n [f] =
            some [⟨SerializerGenerator.label u (n + 1) f.id, body⟩] := by
        simp [emitFields, hbody]
      rw [run_eq_runFrom, runFrom_enter] at h
      obtain ⟨ws, ws', hws, hws', hout, hpos⟩ := seq (fun g hg => hg) hblocks hcode' h
      have hws₁ : fieldsWritten o u input [f] d.unit = some ws := hws
      exact ⟨ws ++ ws', by simp only [unitWritten, hws₁, hws', Option.bind_some, Option.map_some],
        hout, hpos⟩
    | switch s =>
      simp only [emitItems] at hemit
      simp only [unitWritten]
      cases he : s.expression with
      | none =>
        simp only [he] at hemit
        obtain ⟨code', hcode', rfl⟩ := Option.map_eq_some_iff.mp hemit
        rw [run_eq_runFrom, runFrom_enter] at h
        obtain ⟨l₁, d₁, hbody, hrun⟩ := runFrom_done _ _ h
        cases hbody
        exact ih hrest hcode' hle hend hrun
      | some e =>
        simp only [he] at hemit
        obtain ⟨cases, hcases, hemit⟩ := Option.bind_eq_some_iff.mp hemit
        obtain ⟨code', hcode', rfl⟩ := Option.map_eq_some_iff.mp hemit
        rw [run_eq_runFrom, runFrom_select] at h
        obtain ⟨⟨d₁, j⟩, hguard, h⟩ := Option.bind_eq_some_iff.mp h
        obtain ⟨⟨m₁, j⟩, hsel, heq⟩ := Option.map_eq_some_iff.mp hguard
        cases heq
        obtain ⟨n', hblocks⟩ := emitCases_chosen hcases j
        obtain ⟨ws, ws', hws, hws', hout, hpos⟩ := seq (selectedFields_sub s.cases j) hblocks
          hcode' h
        refine ⟨ws ++ ws', ?_, hout, hpos⟩
        simp [switchCase, hsel, hws, hws']

end Written

end Diffingo.Codec
