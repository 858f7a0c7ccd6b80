import Diffingo.Generation.Instructions

/-!
# The parser generator

`ParserGenerator` emits, for every field and variable of a unit, a labelled instruction of the
`parse` function. The statements of these instructions are a small language, and `ParseStmt.run`
says what each of them does to the unit, the area and the stream position. The local variables of
`parse` are not part of the parser state, so an instruction starts with none of them set.
-/

namespace Diffingo.Generation

open CInteger ByteMemory Resumable Diffingo.Spec Diffingo.Runtime

/-- The two views the generated code takes of a bytes member. -/
inductive BytesView
  | varBytes | varStreamRange
  deriving DecidableEq, Repr

/-- Whether a member of the given type has the layout of the view. -/
def BytesView.fits : BytesView → CType → Bool
  | .varBytes, ty => ty.isVarBytes
  | .varStreamRange, ty => ty = .varStreamRange

/-- The statements of a parse instruction. -/
inductive ParseStmt
  /-- `parse_dest = (char*) &tmp;` -/
  | destTemp
  /-- `parse_dest = (char*) &UNIT->x;` -/
  | destField (x : String)
  /-- `parse_res = parseInt<W>_<sign>_<byteorder>(POS, in_buf_end, parse_dest);` -/
  | parseInt (t : IntTy) (bo : ByteOrder)
  /-- `(*((V*) parse_dest)).len_ = e;` -/
  | setLength (view : BytesView) (e : Expr)
  /-- `(*((var_stream_range*) parse_dest)).start_ = *POS;` -/
  | setStart
  /-- `parse_res = allocateCopyBytes(POS, in_buf_end, &data_, len_, area);` -/
  | allocateCopyBytes
  /-- `parse_res = advance(POS, in_buf_end, len_);` -/
  | advance
  /-- `if (parse_res != DONE) return parse_res;` -/
  | checkParseResult
  /-- `UNIT->x = (T) tmp;` -/
  | assignTemp (x : String) (ty : CType)
  /-- `UNIT->x = e;` -/
  | assign (x : String) (e : Expr)
  deriving DecidableEq, Repr

inductive Dest
  | temp
  | field (x : String)
  deriving DecidableEq, Repr

/-- The local variables of `parse`. -/
structure ParseLocals where
  parseDest : Option Dest := none
  tmp : Option Int := none
  parseRes : Option ParseResult := none

/-- What an instruction works on: the unit, the area and `*POS`. -/
structure ParserData where
  unit : UnitMemory
  area : UnitArea
  pos : Int

/-- What is fixed during a call: the struct of the unit and the addressable input. -/
structure ParserContext where
  env : Env
  memory : Memory

namespace ParserData

def setCell (d : ParserData) (x : String) (c : Cell) : ParserData :=
  { d with unit := Function.update d.unit x c }

end ParserData

/-- The bytes member that `parse_dest` points to, if it has the layout of the view. -/
def ParseLocals.bytesDest (l : ParseLocals) (env : Env) (view : BytesView) : Option String :=
  match l.parseDest with
  | some (.field x) =>
    (env.members x).bind fun ty => if view.fits ty then some x else none
  | _ => none

/-- The length an expression gives to a `size_t` member, and the unit after. -/
def evalLength (env : Env) (e : Expr) (m : UnitMemory) : Option (Nat × UnitMemory) :=
  ((typeOf env e).bind (·.arith)).bind fun _ => (eval env e m).bind fun r =>
    r.1.toInt.map fun v => ((IntTy.sizeT.wrap v).toNat, r.2)

/-- Store a parsed number where `parse_dest` points to. -/
def storeParsed (env : Env) (t : IntTy) (v : Int) (pos : Int) (l : ParseLocals) (d : ParserData) :
    Option (ParseLocals × ParserData) :=
  match l.parseDest with
  | some .temp => some ({ l with parseRes := some .done, tmp := some v }, { d with pos := pos })
  | some (.field x) =>
    match env.members x with
    | some (.int t') =>
      if t'.width = t.width then
        some ({ l with parseRes := some .done },
          { d.setCell x { d.unit x with int := t'.wrap v } with pos := pos })
      else none
    | _ => none
  | none => none

def runParseInt (cx : ParserContext) (inBufEnd : Int) (t : IntTy) (bo : ByteOrder)
    (l : ParseLocals) (d : ParserData) : Option (ParseLocals × ParserData) :=
  match parseInt t bo cx.memory d.pos inBufEnd with
  | .error r => some ({ l with parseRes := some r }, d)
  | .ok (v, pos) => storeParsed cx.env t v pos l d

def runAllocateCopyBytes (cx : ParserContext) (inBufEnd : Int) (x : String) (l : ParseLocals)
    (d : ParserData) : ParseLocals × ParserData :=
  match allocateCopyBytes cx.memory d.pos inBufEnd (d.unit x).len_ d.area with
  | .error r => ({ l with parseRes := some r }, d)
  | .ok (bs, pos, area) =>
    ({ l with parseRes := some .done },
      { d.setCell x { d.unit x with data_ := bs } with pos := pos, area := area })

def runAdvance (inBufEnd : Int) (x : String) (l : ParseLocals) (d : ParserData) :
    ParseLocals × ParserData :=
  match advance d.pos inBufEnd (d.unit x).len_ with
  | .error r => ({ l with parseRes := some r }, d)
  | .ok pos => ({ l with parseRes := some .done }, { d with pos := pos })

/-- `UNIT->x = (T) tmp;` -/
def runAssignTemp (env : Env) (x : String) (ty : CType) (l : ParseLocals) (m : UnitMemory) :
    Option UnitMemory :=
  l.tmp.bind fun v => (ty.convert v).bind fun w => (env.members x).bind fun ty' =>
    if ty'.accepts ty then (assignMember x ty' (.int w) m).map (·.2) else none

/-- One statement, `return` apart. -/
def ParseStmt.run (cx : ParserContext) (inBufEnd : Int) :
    ParseStmt → ParseLocals → ParserData → Option (ParseLocals × ParserData)
  | .destTemp, l, d => some ({ l with parseDest := some .temp }, d)
  | .destField x, l, d =>
    (cx.env.members x).map fun _ => ({ l with parseDest := some (.field x) }, d)
  | .parseInt t bo, l, d => runParseInt cx inBufEnd t bo l d
  | .setLength view e, l, d =>
    (l.bytesDest cx.env view).bind fun x => (evalLength cx.env e d.unit).map fun r =>
      (l, { d with unit := Function.update r.2 x { r.2 x with len_ := r.1 } })
  | .setStart, l, d =>
    (l.bytesDest cx.env .varStreamRange).map fun x =>
      (l, d.setCell x { d.unit x with start_ := d.pos })
  | .allocateCopyBytes, l, d =>
    (l.bytesDest cx.env .varBytes).map fun x => runAllocateCopyBytes cx inBufEnd x l d
  | .advance, l, d =>
    (l.bytesDest cx.env .varStreamRange).map fun x => runAdvance inBufEnd x l d
  | .checkParseResult, _, _ => none
  | .assignTemp x ty, l, d =>
    (runAssignTemp cx.env x ty l d.unit).map fun m => (l, { d with unit := m })
  | .assign x e, l, d =>
    (assignTo ((cx.env.members x).map (x, ·)) (typeOf cx.env e) (eval cx.env e) d.unit).map
      fun r => (l, { d with unit := r.2 })

/-- The body of an instruction. -/
def runParseBody (cx : ParserContext) (inBufEnd : Int) :
    List ParseStmt → ParseLocals → ParserData → Option (Step ParserData ParseResult)
  | [], _, d => some (.next d)
  | .checkParseResult :: rest, l, d =>
    match l.parseRes with
    | none => none
    | some .done => runParseBody cx inBufEnd rest l d
    | some r => some (.stop r d)
  | s :: rest, l, d => (s.run cx inBufEnd l d).bind fun r => runParseBody cx inBufEnd rest r.1 r.2

abbrev ParserInstr := Instr Label (List ParseStmt) SwitchGuard

def parserSemantics (cx : ParserContext) :
    Semantics (List ParseStmt) SwitchGuard Int ParserData ParseResult where
  body b inBufEnd d := runParseBody cx inBufEnd b {} d
  guard g d := (g.select cx.env d.unit).map fun r => ({ d with unit := r.1 }, r.2)

namespace ParserGenerator

/-- `byteOrderLabel`: big if no property is given. -/
def byteOrder (u : UnitType) (attributes : List Attribute) : Option ByteOrder :=
  match u.inheritedProperty "byteorder" attributes with
  | none => some .big
  | some (.constant (.enum _ label)) =>
    if label = "big" then some .big else if label = "little" then some .little else none
  | some _ => none

/-- The parse code for the serialized type of a field. -/
def visitType (o : Options) (u : UnitType) (f : AtomicField) : SpecType → Option (List ParseStmt)
  | .integer w s =>
    (byteOrder u f.attributes).map fun bo => [.parseInt ⟨w, s⟩ bo, .checkParseResult]
  | .bytes =>
    if hasAttribute f.attributes "length" then
      f.length.map fun e =>
        if !f.applicationAccessible && o.inputPointers then
          [.setLength .varStreamRange e, .setStart, .advance, .checkParseResult]
        else [.setLength .varBytes e, .allocateCopyBytes, .checkParseResult]
    else some []
  | .string =>
    if hasAttribute f.attributes "length" then
      f.length.map fun e => [.setLength .varBytes e, .allocateCopyBytes, .checkParseResult]
    else some []
  | _ => some []

/-- `visit(AtomicType)`: parse into the field, or into a temporary variable when a transform
separates the two types. -/
def visitAtomicType (o : Options) (u : UnitType) (f : AtomicField) : Option (List ParseStmt) :=
  match f.serializedType with
  | none => (visitType o u f f.type).map fun code => .destField f.id :: code
  | some st =>
    (cType st).bind fun _ => (visitType o u f st).bind fun code =>
      if hasAttribute f.attributes "transform_to" then
        (cType f.type).map fun ty => .destTemp :: code ++ [.assignTemp f.id ty]
      else some (.destTemp :: code)

/-- `visit(Variable)`. -/
def visitVariable (v : Variable) : Option (List ParseStmt) :=
  match lookupAttribute v.attributes "parse" with
  | some a => a.value.map fun e => [.assign v.id e]
  | none => some (v.defaultValue.elim [] fun e => [.assign v.id e])

def label (u : UnitType) (n : Nat) (id : String) : Label := ⟨n, "parse_" ++ u.id ++ "_" ++ id⟩

/-- The instructions of the items of a unit; `n` is the last label id used. -/
def parseItems (o : Options) (u : UnitType) (n : Nat) (items : List Item) :
    Option (List ParserInstr) :=
  emitItems (visitAtomicType o u) (fun v => (visitVariable v).map some) [] (label u) n items

end ParserGenerator

/-- A generated parser class with the struct it fills. -/
structure Parser where
  env : Env
  unitSize : Nat
  unitSize_pos : 0 < unitSize
  code : List ParserInstr

/-- `ParserGenerator::run`; label 1 is the root instruction. -/
def ParserGenerator.run (o : Options) (u : UnitType) : Option Parser :=
  (ParserGenerator.parseItems o u 1 u.items).map fun code =>
    ⟨unitEnv o u, structSize (unitMembers o u), structSize_pos _, code⟩

/-- What a call of `parse` can change: the units in the area, the area, the parser state and
`*bytes_read`. A unit is addressed by its position in the area. -/
structure ParserWorld where
  heap : Nat → UnitMemory
  area : UnitArea
  state : Runtime.ParserState Label
  bytesRead : Int

/-- Nothing has been parsed yet. -/
def ParserWorld.fresh (areaSize stackSize : Nat) (h : areaSize < 2 ^ 63) : ParserWorld where
  heap _ _ := ⟨0, 0, [], 0⟩
  area := ⟨areaSize, 0, Nat.zero_le _, h⟩
  state := .fresh stackSize
  bytesRead := 0

namespace Parser

variable (p : Parser)

def context (memory : Memory) : ParserContext := ⟨p.env, memory⟩

/-- The end of a call that worked on the unit at `unit`. -/
def finish (w : ParserWorld) (unit : Nat) (inBufStart : Int) :
    Outcome Label ParserData ParseResult → ParseResult × ParserWorld
  | .done l d =>
    (.done, ⟨Function.update w.heap unit d.unit, d.area,
      { w.state with instruction := l, streamPos := d.pos }, d.pos - inBufStart⟩)
  | .stopped r l d =>
    (r, ⟨Function.update w.heap unit d.unit, d.area,
      { w.state with instruction := some l, streamPos := d.pos }, w.bytesRead⟩)

/-- The generated `parse`. With a saved instruction it continues there; otherwise it pushes a block
state, allocates the unit and starts at the beginning. -/
def parse (memory : Memory) (inBufStart inBufEnd : Int) (w : ParserWorld) :
    Option (ParseResult × ParserWorld) :=
  match w.state.instruction with
  | some l =>
    w.state.peek.bind fun unit =>
      (resume (parserSemantics (p.context memory)) inBufEnd p.code l
        ⟨w.heap unit, w.area, w.state.streamPos⟩).map (finish w unit inBufStart)
  | none =>
    w.state.push.bind fun st =>
      match w.area.allocate p.unitSize with
      | none => some (.areaFull, { w with state := st })
      | some (unit, area) =>
        (run (parserSemantics (p.context memory)) inBufEnd p.code none
          ⟨w.heap unit, area, inBufStart⟩).map
            (finish { w with area := area, state := st.setUnit unit } unit inBufStart)

end Parser

end Diffingo.Generation
