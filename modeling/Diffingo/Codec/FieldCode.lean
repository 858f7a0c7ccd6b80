import Diffingo.Generation.ExpressionLemmas
import Diffingo.Generation.SerializerGenerator

/-!
# The code of one field

The fields the generators support fall into four kinds: an integer, an integer cast to another
scalar type, a bytes or string field copied into the area, and a bytes field kept as a range of the
input. For each kind the instruction of the parser and that of the serializer are short statement
lists; here they are executed once and for all.
-/

namespace Diffingo.Codec

open CInteger ByteMemory Resumable Diffingo.Spec Diffingo.Runtime Diffingo.Generation

/-- How a field is parsed and serialized. -/
inductive FieldKind
  | int (t : IntTy) (bo : ByteOrder)
  | cast (t : IntTy) (bo : ByteOrder) (ty : CType)
  | copy (e : Expr)
  | range (e : Expr)

/-- The kind of a field, for the fields the generators support. -/
def fieldKind (o : Options) (u : UnitType) (f : AtomicField) : Option FieldKind :=
  if !f.applicationAccessible && o.inputPointers then
    match f.serializedType, f.type with
    | none, .bytes => f.length.map .range
    | _, _ => none
  else
    match f.serializedType, f.type with
    | none, .bytes | none, .string => f.length.map .copy
    | none, .integer w s =>
      if w ∈ supportedWidths then
        (ParserGenerator.byteOrder u f.attributes).map (.int ⟨w, s⟩)
      else none
    | some (.integer w s), type =>
      if w ∈ supportedWidths ∧ hasAttribute f.attributes "transform_to" then
        (ParserGenerator.byteOrder u f.attributes).bind fun bo =>
          (cType type).bind fun ty => if ty.isScalar then some (.cast ⟨w, s⟩ bo ty) else none
      else none
    | _, _ => none

namespace FieldKind

/-- The instruction body the parser generator emits. -/
def parseCode (x : String) : FieldKind → List ParseStmt
  | .int t bo => [.destField x, .parseInt t bo, .checkParseResult]
  | .cast t bo ty => [.destTemp, .parseInt t bo, .checkParseResult, .assignTemp x ty]
  | .copy e => [.destField x, .setLength .varBytes e, .allocateCopyBytes, .checkParseResult]
  | .range e =>
    [.destField x, .setLength .varStreamRange e, .setStart, .advance, .checkParseResult]

/-- The instruction body the serializer generator emits. -/
def serializeCode (x : String) : FieldKind → List SerializeStmt
  | .int t bo => [.srcField x, .serializeInt t bo, .checkSerializeResult]
  | .cast t bo _ => [.castTemp (.int t) x, .srcTemp, .serializeInt t bo, .checkSerializeResult]
  | .copy _ => [.srcField x, .copyBytes .varBytes, .checkSerializeResult]
  | .range _ => [.srcField x, .copyBytes .varStreamRange, .checkSerializeResult]

/-- The member of a field of this kind can have the type. -/
def HasMember : FieldKind → CType → Prop
  | .int t _, ty => ty = .int t ∧ t.width ∈ supportedWidths
  | .cast t _ ty', ty => ty = ty' ∧ ty.isScalar = true ∧ t.width ∈ supportedWidths
  | .copy _, ty => ty.isVarBytes = true
  | .range _, ty => ty = .varStreamRange

end FieldKind

theorem hasAttribute_of_length {f : AtomicField} {e : Expr} (h : f.length = some e) :
    hasAttribute f.attributes "length" = true := by
  unfold AtomicField.length at h
  obtain ⟨a, ha, -⟩ := Option.bind_eq_some_iff.mp h
  simp [hasAttribute, ha]

/-- The generators emit the code of the field's kind, and the struct has a member for it. -/
theorem fieldKind_code {o : Options} {u : UnitType} {f : AtomicField} {k : FieldKind}
    (h : fieldKind o u f = some k) :
    ParserGenerator.visitAtomicType o u f = some (k.parseCode f.id) ∧
      SerializerGenerator.visitAtomicType o u f = some (k.serializeCode f.id) ∧
      ∃ ty, fieldMemberType o f = some ty ∧ k.HasMember ty := by
  unfold fieldKind at h
  split at h
  · rename_i hptr
    split at h
    · rename_i hst hty
      obtain ⟨e, he, rfl⟩ := Option.map_eq_some_iff.mp h
      simp [ParserGenerator.visitAtomicType, SerializerGenerator.visitAtomicType, hst, hty,
        ParserGenerator.visitType, SerializerGenerator.visitType, hasAttribute_of_length he, he,
        hptr, FieldKind.parseCode, FieldKind.serializeCode, fieldMemberType, cType,
        FieldKind.HasMember]
    · cases h
  · rename_i hptr
    split at h
    · rename_i hst hty
      obtain ⟨e, he, rfl⟩ := Option.map_eq_some_iff.mp h
      simp [ParserGenerator.visitAtomicType, SerializerGenerator.visitAtomicType, hst, hty,
        ParserGenerator.visitType, SerializerGenerator.visitType, hasAttribute_of_length he, he,
        hptr, FieldKind.parseCode, FieldKind.serializeCode, fieldMemberType, cType,
        FieldKind.HasMember, CType.isVarBytes]
    · rename_i hst hty
      obtain ⟨e, he, rfl⟩ := Option.map_eq_some_iff.mp h
      simp [ParserGenerator.visitAtomicType, SerializerGenerator.visitAtomicType, hst, hty,
        ParserGenerator.visitType, SerializerGenerator.visitType, hasAttribute_of_length he, he,
        hptr, FieldKind.parseCode, FieldKind.serializeCode, fieldMemberType, cType,
        FieldKind.HasMember, CType.isVarBytes]
    · rename_i w s hst hty
      split at h
      · rename_i hw
        obtain ⟨bo, hbo, rfl⟩ := Option.map_eq_some_iff.mp h
        simp [ParserGenerator.visitAtomicType, SerializerGenerator.visitAtomicType, hst, hty,
          ParserGenerator.visitType, SerializerGenerator.visitType, hbo, hptr,
          FieldKind.parseCode, FieldKind.serializeCode, fieldMemberType, cType, hw,
          FieldKind.HasMember]
      · cases h
    · rename_i w s hst
      split at h
      · rename_i hw
        obtain ⟨bo, hbo, h⟩ := Option.bind_eq_some_iff.mp h
        obtain ⟨ty, hcty, h⟩ := Option.bind_eq_some_iff.mp h
        split at h
        · rename_i hscalar
          cases h
          have hst' : cType (.integer w s) = some (.int ⟨w, s⟩) := by simp [cType, hw.1]
          simp [ParserGenerator.visitAtomicType, SerializerGenerator.visitAtomicType, hst,
            ParserGenerator.visitType, SerializerGenerator.visitType, hbo, hptr, hcty,
            FieldKind.parseCode, FieldKind.serializeCode, fieldMemberType, hw,
            FieldKind.HasMember, hscalar, hst']
        · cases h
      · cases h
    · cases h

/-- The number the parser reads at a position. -/
def parsedInt (t : IntTy) (bo : ByteOrder) (m : Memory) (pos : Int) : Int :=
  t.wrap (fromByteOrder bo (t.width / 8) (leValue (slice m pos (t.width / 8))))

theorem parseInt_eq (t : IntTy) (bo : ByteOrder) (m : Memory) (pos inBufEnd : Int) :
    parseInt t bo m pos inBufEnd =
      if shortOf inBufEnd pos (t.width / 8) then .error .outOfData
      else .ok (parsedInt t bo m pos, pos + (t.width / 8 : Nat)) := by
  cases h : shortOf inBufEnd pos (t.width / 8) <;> simp [parseInt, copyAtomicType, h, parsedInt]

section ParseCode

variable {cx : ParserContext} {inBufEnd : Int} {x : String} {d : ParserData}

attribute [local simp] FieldKind.parseCode runParseBody ParseStmt.run

theorem run_parse_int {t : IntTy} (bo : ByteOrder) (hx : cx.env.members x = some (.int t)) :
    runParseBody cx inBufEnd ((FieldKind.int t bo).parseCode x) {} d =
      some (if shortOf inBufEnd d.pos (t.width / 8) then .stop .outOfData d
        else .next ⟨Function.update d.unit x { d.unit x with int := parsedInt t bo cx.memory d.pos },
          d.area, d.pos + (t.width / 8 : Nat)⟩) := by
  have hwrap : t.wrap (parsedInt t bo cx.memory d.pos) = parsedInt t bo cx.memory d.pos := by
    simp [parsedInt]
  cases h : shortOf inBufEnd d.pos (t.width / 8) <;>
    simp [runParseInt, storeParsed, hx, parseInt_eq, h, ParserData.setCell, hwrap]

/-- The cell of a field that is cast after parsing. -/
def castCell (ty : CType) (v : Int) (c : Cell) : Cell :=
  { c with int := (ty.convert v).getD 0 }

theorem run_parse_cast {t : IntTy} (bo : ByteOrder) {ty : CType}
    (hx : cx.env.members x = some ty) (hty : ty.isScalar = true) :
    runParseBody cx inBufEnd ((FieldKind.cast t bo ty).parseCode x) {} d =
      some (if shortOf inBufEnd d.pos (t.width / 8) then .stop .outOfData d
        else .next ⟨Function.update d.unit x
            (castCell ty (parsedInt t bo cx.memory d.pos) (d.unit x)),
          d.area, d.pos + (t.width / 8 : Nat)⟩) := by
  cases h : shortOf inBufEnd d.pos (t.width / 8) with
  | true => simp [runParseInt, parseInt_eq, h]
  | false =>
    obtain ⟨w, hw⟩ : ∃ w, ty.convert (parsedInt t bo cx.memory d.pos) = some w := by
      cases ty <;> simp_all [CType.convert, CType.isScalar]
    have haccepts : ty.accepts ty = true := by
      cases ty <;> simp_all [CType.accepts, CType.isScalar, CType.arith]
    have hassign : assignMember x ty (.int w) d.unit =
        some (.int w, Function.update d.unit x
          (castCell ty (parsedInt t bo cx.memory d.pos) (d.unit x))) := by
      have hw' := CType.convert_convert hw
      cases ty <;> simp_all [assignMember, Cell.store, Value.convert, Cell.read, castCell,
        CType.isScalar, CType.convert]
    simp [runParseInt, storeParsed, parseInt_eq, h, runAssignTemp, hw, hx, haccepts, hassign]

theorem run_parse_copy {e : Expr} {ty : CType} (hx : cx.env.members x = some ty)
    (hty : ty.isVarBytes = true) :
    runParseBody cx inBufEnd ((FieldKind.copy e).parseCode x) {} d =
      (evalLength cx.env e d.unit).map fun r =>
        let m := Function.update r.2 x { r.2 x with len_ := r.1 }
        if shortOfLength inBufEnd d.pos r.1 then .stop .outOfData ⟨m, d.area, d.pos⟩
        else
          match d.area.allocate r.1 with
          | none => .stop .areaFull ⟨m, d.area, d.pos⟩
          | some (_, area) =>
            .next ⟨Function.update r.2 x
              { r.2 x with len_ := r.1, data_ := slice cx.memory d.pos r.1 }, area,
              d.pos + ssize r.1⟩ := by
  cases hlen : evalLength cx.env e d.unit with
  | none =>
    simp [hx, hlen, ParseLocals.bytesDest, BytesView.fits, hty]
  | some r =>
    cases hshort : shortOfLength inBufEnd d.pos r.1 with
    | true =>
      simp [hx, hlen, ParseLocals.bytesDest, BytesView.fits, hty, runAllocateCopyBytes,
        allocateCopyBytes, hshort]
    | false =>
      rcases halloc : d.area.allocate r.1 with _ | ⟨p, area⟩ <;>
        simp [hx, hlen, ParseLocals.bytesDest, BytesView.fits, hty, runAllocateCopyBytes,
          allocateCopyBytes, hshort, halloc, ParserData.setCell]

theorem run_parse_range {e : Expr} (hx : cx.env.members x = some .varStreamRange) :
    runParseBody cx inBufEnd ((FieldKind.range e).parseCode x) {} d =
      (evalLength cx.env e d.unit).map fun r =>
        let m := Function.update r.2 x { r.2 x with len_ := r.1, start_ := d.pos }
        if shortOfLength inBufEnd d.pos r.1 then .stop .outOfData ⟨m, d.area, d.pos⟩
        else .next ⟨m, d.area, d.pos + ssize r.1⟩ := by
  cases hlen : evalLength cx.env e d.unit with
  | none =>
    simp [hx, hlen, ParseLocals.bytesDest, BytesView.fits]
  | some r =>
    cases hshort : shortOfLength inBufEnd d.pos r.1 <;>
      simp [hx, hlen, ParseLocals.bytesDest, BytesView.fits, runAdvance, advance, hshort,
        ParserData.setCell]

theorem run_parse_variable {e : Expr} :
    runParseBody cx inBufEnd [.assign x e] {} d =
      (assignTo ((cx.env.members x).map (x, ·)) (typeOf cx.env e) (eval cx.env e) d.unit).map
        fun r => .next ⟨r.2, d.area, d.pos⟩ := by
  simp only [runParseBody, ParseStmt.run]
  cases assignTo ((cx.env.members x).map (x, ·)) (typeOf cx.env e) (eval cx.env e) d.unit <;> rfl

end ParseCode

/-- A field the generators support and the struct has a member for. -/
def Declared (o : Options) (u : UnitType) (f : AtomicField) : Prop :=
  ∃ k ty, fieldKind o u f = some k ∧ (unitEnv o u).members f.id = some ty ∧ k.HasMember ty

/-- A unit that compiles: the names of its members are distinct and the generators support its
fields. -/
structure Supported (o : Options) (u : UnitType) : Prop where
  distinct : (u.items.flatMap Item.memberIds).Nodup
  kinds : ∀ i ∈ u.items, ∀ f ∈ i.fields, (fieldKind o u f).isSome = true

theorem Supported.declared {o : Options} {u : UnitType} (hu : Supported o u) {i : Item}
    (hi : i ∈ u.items) {f : AtomicField} (hf : f ∈ i.fields) : Declared o u f := by
  obtain ⟨k, hk⟩ := Option.isSome_iff_exists.mp (hu.kinds i hi f hf)
  obtain ⟨-, -, ty, hty, hmem⟩ := fieldKind_code hk
  have hin : (f.id, fieldMemberType o f) ∈ itemMembers o i := by
    cases i with
    | field g =>
      obtain rfl := List.mem_singleton.mp hf
      simp [itemMembers]
    | switch s => exact List.mem_map.mpr ⟨f, hf, rfl⟩
    | var v => cases hf
    | property p => cases hf
  exact ⟨k, ty, hk, by rw [unitEnv_members hu.distinct hi hin, hty], hmem⟩

/-- The length expression of a bytes or string field. -/
def FieldKind.length : FieldKind → Option Expr
  | .int _ _ | .cast _ _ _ => none
  | .copy e | .range e => some e

/-- The instructions of a parser whose length expressions satisfy `P`. -/
inductive ParseOk (env : Env) (P : Expr → Prop) : List ParseStmt → Prop
  | nothing : ParseOk env P []
  | field {k : FieldKind} {x : String} {ty : CType} : env.members x = some ty → k.HasMember ty →
      (∀ e, k.length = some e → P e) → ParseOk env P (k.parseCode x)
  | assign (x : String) (e : Expr) : ParseOk env P [.assign x e]

theorem parseItems_ok {o : Options} {u : UnitType} (hu : Supported o u) {P : Expr → Prop}
    (hP : ∀ i ∈ u.items, ∀ f ∈ i.fields, ∀ e ∈ (fieldKind o u f).bind FieldKind.length, P e) {n : Nat}
    {code : List ParserInstr} (h : ParserGenerator.parseItems o u n u.items = some code) :
    AllOk (ParseOk (unitEnv o u) P) ([], code) := by
  refine ⟨by simp, fun i hi b hb => ?_⟩
  rcases emitItems_blocks h i hi b hb with ⟨j, hj, f, hf, hbody⟩ | ⟨v, -, hbody⟩ | hbody
  · obtain ⟨k, ty, hk, hty, hmem⟩ := hu.declared hj hf
    rw [(fieldKind_code hk).1] at hbody
    rw [← Option.some.inj hbody]
    exact .field hty hmem fun e he => hP j hj f hf e (by simp [hk, he])
  · obtain ⟨body, hv, heq⟩ := Option.map_eq_some_iff.mp hbody
    obtain rfl := Option.some.inj heq
    unfold ParserGenerator.visitVariable at hv
    split at hv
    · obtain ⟨e, -, hbody⟩ := Option.map_eq_some_iff.mp hv
      rw [← hbody]
      exact .assign v.id e
    · rw [← Option.some.inj hv]
      cases v.defaultValue with
      | none => exact .nothing
      | some e => exact .assign v.id e
  · rw [hbody]
    exact .nothing

end Diffingo.Codec
