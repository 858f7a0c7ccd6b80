import Diffingo.Generation.ParserGenerator

/-!
# The serializer generator

`SerializerGenerator` emits a `serialize` function. It first writes the lengths of bytes fields back
into their length members and evaluates the `serialize` expressions of the variables, without any
label; then comes one labelled instruction per field. `$$` is the local variable `dollar`.
-/

namespace Diffingo.Generation

open CInteger ByteMemory Resumable Diffingo.Spec Diffingo.Runtime

/-- The statements of `serialize`. -/
inductive SerializeStmt
  /-- `tmp = (T) UNIT->x;` -/
  | castTemp (ty : CType) (x : String)
  /-- `serialize_src = reinterpret_cast<char*>(&tmp);` -/
  | srcTemp
  /-- `serialize_src = reinterpret_cast<char*>(&UNIT->x);` -/
  | srcField (x : String)
  /-- `serialize_res = serializeInt<W>_<sign>_<byteorder>(serialize_src, POS, out_buf_end);` -/
  | serializeInt (t : IntTy) (bo : ByteOrder)
  /-- `serialize_res = copyBytes((*((V*) serialize_src)).data_ or start_, len_, POS, out_buf_end);` -/
  | copyBytes (view : BytesView)
  /-- `if (serialize_res != DONE) return serialize_res;` -/
  | checkSerializeResult
  /-- `e = (*((var_bytes*) serialize_src)).len_;` -/
  | updateLength (e : Expr)
  /-- `dollar = reinterpret_cast<char*>(&UNIT->x);` -/
  | setDollar (x : String)
  /-- `e;` -/
  | expression (e : Expr)
  deriving DecidableEq, Repr

/-- The local variables of `serialize`. -/
structure SerializeLocals where
  serializeSrc : Option Dest := none
  tmp : Option Int := none
  serializeRes : Option SerializeResult := none
  dollar : Option String := none

/-- What an instruction works on: the unit, the output and `*POS`. -/
structure SerializerData where
  unit : UnitMemory
  out : Memory
  pos : Int

/-- What is fixed during a call: the struct of the unit and the input that stream ranges point
into. -/
structure SerializerContext where
  env : Env
  input : Memory

/-- The bytes member that `serialize_src` points to, if it has the layout of the view. -/
def SerializeLocals.bytesSrc (l : SerializeLocals) (env : Env) (view : BytesView) :
    Option String :=
  match l.serializeSrc with
  | some (.field x) =>
    (env.members x).bind fun ty => if view.fits ty then some x else none
  | _ => none

/-- The number that `serialize_src` points to, if it has the width of `t`. -/
def SerializeLocals.intSrc (l : SerializeLocals) (env : Env) (t : IntTy) (m : UnitMemory) :
    Option Int :=
  match l.serializeSrc with
  | some .temp => l.tmp
  | some (.field x) =>
    match env.members x with
    | some (.int t') => if t'.width = t.width then some (t'.wrap (m x).int) else none
    | _ => none
  | none => none

/-- The bytes a bytes member refers to: the first `len_` bytes of its block, or of the input from
`start_` on. -/
def memberBytes (input : Memory) (view : BytesView) (c : Cell) : Option (List UInt8) :=
  match view with
  | .varBytes => if c.len_ ≤ c.data_.length then some (c.data_.take c.len_) else none
  | .varStreamRange => some (slice input c.start_ c.len_)

/-- Record the result of a primitive. -/
def SerializeLocals.record (l : SerializeLocals) (d : SerializerData) :
    Except SerializeResult (Memory × Int) → SerializeLocals × SerializerData
  | .error r => ({ l with serializeRes := some r }, d)
  | .ok (out, pos) => ({ l with serializeRes := some .done }, { d with out := out, pos := pos })

/-- `tmp = (T) UNIT->x;` -/
def runCastTemp (env : Env) (ty : CType) (x : String) (m : UnitMemory) : Option Int :=
  (env.members x).bind fun ty' => ((m x).read ty').bind fun v => v.toInt.bind ty.convert

/-- One statement, `return` apart. -/
def SerializeStmt.run (cx : SerializerContext) (outBufEnd : Int) :
    SerializeStmt → SerializeLocals → SerializerData → Option (SerializeLocals × SerializerData)
  | .castTemp ty x, l, d =>
    (runCastTemp cx.env ty x d.unit).map fun w => ({ l with tmp := some w }, d)
  | .srcTemp, l, d => some ({ l with serializeSrc := some .temp }, d)
  | .srcField x, l, d =>
    (cx.env.members x).map fun _ => ({ l with serializeSrc := some (.field x) }, d)
  | .serializeInt t bo, l, d =>
    (l.intSrc cx.env t d.unit).map fun v =>
      l.record d (Runtime.serializeInt t bo v d.out d.pos outBufEnd)
  | .copyBytes view, l, d =>
    (l.bytesSrc cx.env view).bind fun x =>
      (Runtime.copyBytes (memberBytes cx.input view (d.unit x)) (d.unit x).len_ d.out d.pos
        outBufEnd).map (l.record d)
  | .checkSerializeResult, _, _ => none
  | .updateLength e, l, d =>
    (l.bytesSrc cx.env .varBytes).bind fun x =>
      (assignTo (lvalue { cx.env with dollar := l.dollar } e) (some (.int .sizeT))
        (literal (some (.int (d.unit x).len_))) d.unit).map fun r => (l, { d with unit := r.2 })
  | .setDollar x, l, d => (cx.env.members x).map fun _ => ({ l with dollar := some x }, d)
  | .expression e, l, d =>
    (eval { cx.env with dollar := l.dollar } e d.unit).map fun r => (l, { d with unit := r.2 })

/-- A sequence of statements, the body of an instruction or the prologue. -/
def runSerializeBody (cx : SerializerContext) (outBufEnd : Int) :
    List SerializeStmt → SerializeLocals → SerializerData →
      Option (Step SerializerData SerializeResult)
  | [], _, d => some (.next d)
  | .checkSerializeResult :: rest, l, d =>
    match l.serializeRes with
    | none => none
    | some .done => runSerializeBody cx outBufEnd rest l d
    | some r => some (.stop r d)
  | s :: rest, l, d =>
    (s.run cx outBufEnd l d).bind fun r => runSerializeBody cx outBufEnd rest r.1 r.2

abbrev SerializerInstr := Instr Label (List SerializeStmt) SwitchGuard

def serializerSemantics (cx : SerializerContext) :
    Semantics (List SerializeStmt) SwitchGuard Int SerializerData SerializeResult where
  body b outBufEnd d := runSerializeBody cx outBufEnd b {} d
  guard g d := (g.select cx.env d.unit).map fun r => ({ d with unit := r.1 }, r.2)

namespace SerializerGenerator

/-- The serialize code for the serialized type of a field. -/
def visitType (o : Options) (u : UnitType) (f : AtomicField) :
    SpecType → Option (List SerializeStmt)
  | .integer w s =>
    (ParserGenerator.byteOrder u f.attributes).map fun bo =>
      [.serializeInt ⟨w, s⟩ bo, .checkSerializeResult]
  | .bytes =>
    some [.copyBytes (if !f.applicationAccessible && o.inputPointers then .varStreamRange
      else .varBytes), .checkSerializeResult]
  | .string => some [.copyBytes .varBytes, .checkSerializeResult]
  | _ => some []

/-- `visit(AtomicType)`. -/
def visitAtomicType (o : Options) (u : UnitType) (f : AtomicField) : Option (List SerializeStmt) :=
  match f.serializedType with
  | none => (visitType o u f f.type).map fun code => .srcField f.id :: code
  | some st =>
    (cType st).bind fun ty => (visitType o u f st).map fun code =>
      if hasAttribute f.attributes "transform_to" then .castTemp ty f.id :: .srcTemp :: code
      else .srcTemp :: code

/-- `visit(Variable)`. -/
def visitVariable (v : Variable) : Option (List SerializeStmt) :=
  match lookupAttribute v.attributes "serialize" with
  | some a => a.value.map fun e => [.setDollar v.id, .expression e]
  | none => some []

/-- `updateLengthForField`. -/
def updateLengthForField (f : AtomicField) : List SerializeStmt :=
  if (f.serialized = .bytes || f.serialized = .string) && f.applicationAccessible then
    match f.length with
    | some (.binary .attribute a b) => [.srcField f.id, .updateLength (.binary .attribute a b)]
    | _ => []
  else []

/-- The unlabelled code at the start: first the length updates, then the variables. -/
def updateLengths : List Item → List SerializeStmt
  | [] => []
  | .field f :: rest => updateLengthForField f ++ updateLengths rest
  | _ :: rest => updateLengths rest

def visitVariables : List Item → Option (List SerializeStmt)
  | [] => some []
  | .var v :: rest => (visitVariable v).bind fun b => (visitVariables rest).map (b ++ ·)
  | _ :: rest => visitVariables rest

def label (u : UnitType) (n : Nat) (id : String) : Label := ⟨n, "serialize_" ++ u.id ++ "_" ++ id⟩

/-- The instructions of the items of a unit; variables have none. -/
def serializeItems (o : Options) (u : UnitType) (n : Nat) (items : List Item) :
    Option (List SerializerInstr) :=
  emitItems (visitAtomicType o u) (fun _ => some none) [] (label u) n items

end SerializerGenerator

/-- A generated serializer class. -/
structure Serializer where
  env : Env
  prologue : List SerializeStmt
  code : List SerializerInstr

/-- `SerializerGenerator::run`; label 1 is the root instruction. -/
def SerializerGenerator.run (o : Options) (u : UnitType) : Option Serializer :=
  (SerializerGenerator.visitVariables u.items).bind fun vars =>
    (SerializerGenerator.serializeItems o u 1 u.items).map fun code =>
      ⟨unitEnv o u, SerializerGenerator.updateLengths u.items ++ vars, code⟩

/-- What a call of `serialize` can change: the units, the output, the parser state and
`*bytes_written`. -/
structure SerializerWorld where
  heap : Nat → UnitMemory
  out : Memory
  state : Runtime.ParserState Label
  bytesWritten : Int

/-- Nothing has been serialized yet; the units are those in `heap`. -/
def SerializerWorld.fresh (heap : Nat → UnitMemory) (stackSize : Nat) : SerializerWorld where
  heap := heap
  out _ := 0
  state := .fresh stackSize
  bytesWritten := 0

theorem SerializerWorld.fresh_space (heap : Nat → UnitMemory) (stackSize : Nat)
    (h : Runtime.ParserState.blockSize < stackSize) :
    Runtime.ParserState.blockSize < (SerializerWorld.fresh heap stackSize).state.space := by
  simpa [SerializerWorld.fresh, Runtime.ParserState.fresh, Runtime.ParserState.space] using h

namespace Serializer

variable (s : Serializer)

def context (input : Memory) : SerializerContext := ⟨s.env, input⟩

/-- The end of a call that worked on the unit at `unit`. -/
def finish (w : SerializerWorld) (unit : Nat) (outBufStart : Int) :
    Outcome Label SerializerData SerializeResult → SerializeResult × SerializerWorld
  | .done l d =>
    (.done, ⟨Function.update w.heap unit d.unit, d.out,
      { w.state with instruction := l, streamPos := d.pos }, d.pos - outBufStart⟩)
  | .stopped r l d =>
    (r, ⟨Function.update w.heap unit d.unit, d.out,
      { w.state with instruction := some l, streamPos := d.pos }, w.bytesWritten⟩)

/-- The unlabelled code followed by the instructions. -/
def start (input : Memory) (outBufEnd : Int) (d : SerializerData) :
    Option (Outcome Label SerializerData SerializeResult) :=
  match runSerializeBody (s.context input) outBufEnd s.prologue {} d with
  | some (.next d') => run (serializerSemantics (s.context input)) outBufEnd s.code none d'
  | _ => none

/-- The generated `serialize`. With a saved instruction it continues there on the unit of the block
state; otherwise it pushes a block state for `unit` and starts at the beginning. -/
def serialize (input : Memory) (unit : Nat) (outBufStart outBufEnd : Int) (w : SerializerWorld) :
    Option (SerializeResult × SerializerWorld) :=
  match w.state.instruction with
  | some l =>
    w.state.peek.bind fun unit =>
      (resume (serializerSemantics (s.context input)) outBufEnd s.code l
        ⟨w.heap unit, w.out, w.state.streamPos⟩).map (finish w unit outBufStart)
  | none =>
    w.state.push.bind fun st =>
      (s.start input outBufEnd ⟨w.heap unit, w.out, outBufStart⟩).map
        (finish { w with state := st.setUnit unit } unit outBufStart)

end Serializer

end Diffingo.Generation
