import Diffingo.Codec.Incremental

/-!
# The parser and the bounds of its input

A parse instruction checks that the bytes it needs are there before it uses them, integers with an
unsigned and bytes with a signed comparison. The signed one takes a length of `2 ^ 63` or more for
a negative number, and this is the only way to leave the input.
-/

namespace Diffingo.Codec

open CInteger ByteMemory Resumable Diffingo.Spec Diffingo.Runtime Diffingo.Generation

/-- Where a call of `parse` begins: at the start of the code on a new unit, or at the saved
instruction on the unit of the block state. -/
inductive CallStart (p : Parser) (inBufStart : Int) (w : ParserWorld) :
    Cont Label (List ParseStmt) SwitchGuard → ParserData → Prop
  | fresh {st : Runtime.ParserState Label} {unit : Nat} {area : UnitArea} :
      w.state.instruction = none → w.state.push = some st →
      w.area.allocate p.unitSize = some (unit, area) →
      CallStart p inBufStart w ([], p.code) ⟨w.heap unit, area, inBufStart⟩
  | resumed {l : Label} {unit : Nat} {c : Cont Label (List ParseStmt) SwitchGuard} :
      w.state.instruction = some l → w.state.peek = some unit → locate l p.code = some c →
      CallStart p inBufStart w c ⟨w.heap unit, w.area, w.state.streamPos⟩

/-- The continuations and states a call of `parse` passes through. -/
def Visits (p : Parser) (memory : Memory) (inBufStart inBufEnd : Int) (w : ParserWorld)
    (c : Cont Label (List ParseStmt) SwitchGuard) (d : ParserData) : Prop :=
  ∃ c₀ d₀, CallStart p inBufStart w c₀ d₀ ∧
    Reaches (parserSemantics (p.context memory)) inBufEnd c₀ d₀ c d

/-- The number of bytes the instruction of a field needs. -/
def fieldSize (env : Env) (m : UnitMemory) (b : List ParseStmt) : Option Nat :=
  b.findSome? fun
    | .parseInt t _ => some (t.width / 8)
    | .setLength _ e => (evalLength env e m).map (·.1)
    | _ => none

section FieldSize

variable (env : Env) (m : UnitMemory) (x : String)

@[simp] theorem fieldSize_int (t : IntTy) (bo : ByteOrder) :
    fieldSize env m ((FieldKind.int t bo).parseCode x) = some (t.width / 8) := rfl

@[simp] theorem fieldSize_cast (t : IntTy) (bo : ByteOrder) (ty : CType) :
    fieldSize env m ((FieldKind.cast t bo ty).parseCode x) = some (t.width / 8) := rfl

@[simp] theorem fieldSize_copy (e : Expr) :
    fieldSize env m ((FieldKind.copy e).parseCode x) = (evalLength env e m).map (·.1) := by
  cases h : evalLength env e m <;> simp [fieldSize, FieldKind.parseCode, h]

@[simp] theorem fieldSize_range (e : Expr) :
    fieldSize env m ((FieldKind.range e).parseCode x) = (evalLength env e m).map (·.1) := by
  cases h : evalLength env e m <;> simp [fieldSize, FieldKind.parseCode, h]

end FieldSize

/-- Every length a call evaluates is below `2 ^ 63`. -/
def LengthsFit (p : Parser) (memory : Memory) (inBufStart inBufEnd : Int) (w : ParserWorld) :
    Prop :=
  ∀ b bs rest d n, Visits p memory inBufStart inBufEnd w (b :: bs, rest) d →
    fieldSize p.env d.unit b.body = some n → n < 2 ^ 63

/-- A call never leaves its input. -/
structure StaysInside (p : Parser) (memory : Memory) (inBufStart inBufEnd : Int)
    (w : ParserWorld) : Prop where
  within : ∀ c d, Visits p memory inBufStart inBufEnd w c d →
    inBufStart ≤ d.pos ∧ d.pos ≤ inBufEnd
  forward : ∀ b bs rest d d', Visits p memory inBufStart inBufEnd w (b :: bs, rest) d →
    runParseBody (p.context memory) inBufEnd b.body {} d = some (.next d') → d.pos ≤ d'.pos
  copied : ∀ b bs rest d d' x e, Visits p memory inBufStart inBufEnd w (b :: bs, rest) d →
    b.body = (FieldKind.copy e).parseCode x →
    runParseBody (p.context memory) inBufEnd b.body {} d = some (.next d') →
    (d'.unit x).data_ = slice memory d.pos (d'.unit x).len_ ∧
      d.pos + (d'.unit x).len_ ≤ inBufEnd
  recorded : ∀ b bs rest d d' x e, Visits p memory inBufStart inBufEnd w (b :: bs, rest) d →
    b.body = (FieldKind.range e).parseCode x →
    runParseBody (p.context memory) inBufEnd b.body {} d = some (.next d') →
    inBufStart ≤ (d'.unit x).start_ ∧ (d'.unit x).start_ + (d'.unit x).len_ ≤ inBufEnd
  tooLong : ∀ b bs rest d n, Visits p memory inBufStart inBufEnd w (b :: bs, rest) d →
    fieldSize p.env d.unit b.body = some n → inBufEnd - d.pos < n →
    ∃ w', p.parse memory inBufStart inBufEnd w = some (.outOfData, w')

theorem evalLength_lt {env : Env} {e : Expr} {m : UnitMemory} {r : Nat × UnitMemory}
    (h : evalLength env e m = some r) : r.1 < 2 ^ 64 := by
  obtain ⟨t, -, h⟩ := Option.bind_eq_some_iff.mp h
  obtain ⟨q, -, h⟩ := Option.bind_eq_some_iff.mp h
  obtain ⟨v, -, rfl⟩ := Option.map_eq_some_iff.mp h
  have hlt : IntTy.sizeT.wrap v < _ := IntTy.wrap_unsigned_lt 64 v
  dsimp only
  push_cast at hlt
  omega

section Step

variable {cx : ParserContext} {e : Int} {b : List ParseStmt} {d d' : ParserData} {P : Expr → Prop}
  {n : Nat}

/-- An instruction whose field has an ordinary length moves forward, inside the input. -/
theorem ParseOk.next_bounds (cx : ParserContext) (hb : ParseOk cx.env P b) (hle : d.pos ≤ e) (hend : e - d.pos < 2 ^ 63)
    (hfit : ∀ n, fieldSize cx.env d.unit b = some n → n < 2 ^ 63)
    (h : runParseBody cx e b {} d = some (.next d')) :
    d.pos ≤ d'.pos ∧ d'.pos ≤ e ∧ ∀ n, fieldSize cx.env d.unit b = some n → d.pos + n ≤ e := by
  cases hb with
  | nothing =>
    cases h
    exact ⟨le_refl _, hle, by simp [fieldSize]⟩
  | assign x ex =>
    rw [run_parse_variable] at h
    obtain ⟨r, -, h⟩ := Option.map_eq_some_iff.mp h
    cases h
    exact ⟨le_refl _, hle, by simp [fieldSize]⟩
  | @field k x ty hx hk hP =>
    cases k with
    | int t bo =>
      obtain ⟨rfl, -⟩ := hk
      rw [run_parse_int bo hx, shortOf_eq hle hend] at h
      simp only [decide_eq_true_eq, Option.some.injEq] at h
      split at h
      · cases h
      · cases h
        simp
        omega
    | cast t bo ty' =>
      obtain ⟨rfl, hscalar, -⟩ := hk
      rw [run_parse_cast bo hx hscalar, shortOf_eq hle hend] at h
      simp only [decide_eq_true_eq, Option.some.injEq] at h
      split at h
      · cases h
      · cases h
        simp
        omega
    | copy ex =>
      rw [run_parse_copy hx hk] at h
      obtain ⟨r, hr, h⟩ := Option.map_eq_some_iff.mp h
      have hn : r.1 < 2 ^ 63 := hfit r.1 (by simp [hr])
      simp only [shortOfLength_eq hn, decide_eq_true_eq] at h
      split at h
      · cases h
      · split at h
        · cases h
        · cases h
          simp [hr, ssize_of_lt hn]
          omega
    | range ex =>
      obtain rfl : ty = .varStreamRange := hk
      rw [run_parse_range hx] at h
      obtain ⟨r, hr, h⟩ := Option.map_eq_some_iff.mp h
      have hn : r.1 < 2 ^ 63 := hfit r.1 (by simp [hr])
      simp only [shortOfLength_eq hn, decide_eq_true_eq] at h
      split at h
      · cases h
      · cases h
        simp [hr, ssize_of_lt hn]
        omega

/-- An instruction that needs more bytes than are left stops with `OUT_OF_DATA`, if the number of
bytes is an ordinary one. -/
theorem ParseOk.tooLong (cx : ParserContext) (hb : ParseOk cx.env P b) (hle : d.pos ≤ e) (hend : e - d.pos < 2 ^ 63)
    (hn : fieldSize cx.env d.unit b = some n) (hfit : n < 2 ^ 63) (hlong : e - d.pos < n) :
    ∃ t, runParseBody cx e b {} d = some (.stop .outOfData t) := by
  cases hb with
  | nothing => simp [fieldSize] at hn
  | assign x ex => simp [fieldSize] at hn
  | @field k x ty hx hk hP =>
    cases k with
    | int t bo =>
      obtain ⟨rfl, -⟩ := hk
      obtain rfl : t.width / 8 = n := by simpa using hn
      exact ⟨d, by rw [run_parse_int bo hx, shortOf_eq hle hend, decide_eq_true hlong]; rfl⟩
    | cast t bo ty' =>
      obtain ⟨rfl, hscalar, -⟩ := hk
      obtain rfl : t.width / 8 = n := by simpa using hn
      exact ⟨d, by
        rw [run_parse_cast bo hx hscalar, shortOf_eq hle hend, decide_eq_true hlong]; rfl⟩
    | copy ex =>
      rw [fieldSize_copy] at hn
      obtain ⟨r, hr, rfl⟩ := Option.map_eq_some_iff.mp hn
      refine ⟨⟨Function.update r.2 x { r.2 x with len_ := r.1 }, d.area, d.pos⟩, ?_⟩
      simp only [run_parse_copy hx hk, hr, Option.map_some, shortOfLength_eq hfit,
        decide_eq_true hlong, if_true]
    | range ex =>
      obtain rfl : ty = .varStreamRange := hk
      rw [fieldSize_range] at hn
      obtain ⟨r, hr, rfl⟩ := Option.map_eq_some_iff.mp hn
      refine ⟨⟨Function.update r.2 x { r.2 x with len_ := r.1, start_ := d.pos }, d.area, d.pos⟩,
        ?_⟩
      simp only [run_parse_range hx, hr, Option.map_some, shortOfLength_eq hfit,
        decide_eq_true hlong, if_true]

/-- A length of `2 ^ 63` or more passes the check. A copied field then does not fit into the area,
and a range moves the position backwards. -/
theorem ParseOk.misfit (cx : ParserContext) (hb : ParseOk cx.env P b) (hle : d.pos ≤ e)
    (hn : fieldSize cx.env d.unit b = some n) (hmisfit : 2 ^ 63 ≤ n) :
    (∃ t, runParseBody cx e b {} d = some (.stop .areaFull t)) ∨
      ∃ d', runParseBody cx e b {} d = some (.next d') ∧ d'.pos < d.pos := by
  cases hb with
  | nothing => simp [fieldSize] at hn
  | assign x ex => simp [fieldSize] at hn
  | @field k x ty hx hk hP =>
    cases k with
    | int t bo =>
      obtain rfl : t.width / 8 = n := by simpa using hn
      exact absurd (width_lt hk.2) (by omega)
    | cast t bo ty' =>
      obtain rfl : t.width / 8 = n := by simpa using hn
      exact absurd (width_lt hk.2.2) (by omega)
    | copy ex =>
      rw [fieldSize_copy] at hn
      obtain ⟨r, hr, rfl⟩ := Option.map_eq_some_iff.mp hn
      have hneg := ssize_neg hmisfit (evalLength_lt hr)
      have hshort : shortOfLength e d.pos r.1 = false := by
        simp only [shortOfLength, decide_eq_false_iff_not]
        omega
      have hfull : d.area.allocate r.1 = none :=
        UnitArea.allocate_eq_none.mpr (d.area.space_lt.trans_le hmisfit)
      refine .inl ⟨⟨Function.update r.2 x { r.2 x with len_ := r.1 }, d.area, d.pos⟩, ?_⟩
      simp [run_parse_copy hx hk, hr, hshort, hfull]
    | range ex =>
      obtain rfl : ty = .varStreamRange := hk
      rw [fieldSize_range] at hn
      obtain ⟨r, hr, rfl⟩ := Option.map_eq_some_iff.mp hn
      have hneg := ssize_neg hmisfit (evalLength_lt hr)
      have hshort : shortOfLength e d.pos r.1 = false := by
        simp only [shortOfLength, decide_eq_false_iff_not]
        omega
      refine .inr ⟨_, by rw [run_parse_range hx, hr, Option.map_some]; simp only [hshort]; rfl, ?_⟩
      dsimp only
      omega

end Step

section Calls

variable {o : Options} {u : UnitType} {p : Parser} {memory : Memory} {inBufStart inBufEnd : Int}
  {w : ParserWorld}

theorem parser_code_bodies (hu : Supported o u) (hp : ParserGenerator.run o u = some p) :
    AllOk (ParseOk p.env fun _ => True) ([], p.code) := by
  obtain ⟨code, hcode, rfl⟩ := Option.map_eq_some_iff.mp hp
  exact parseItems_ok hu (fun _ _ _ _ _ _ => trivial) hcode

theorem CallStart.allOk {Ok : List ParseStmt → Prop}
    {c : Cont Label (List ParseStmt) SwitchGuard} {d : ParserData}
    (h : CallStart p inBufStart w c d) (hok : AllOk Ok ([], p.code)) : AllOk Ok c := by
  cases h with
  | fresh => exact hok
  | resumed _ _ hloc => exact locate_allOk hloc hok

/-- What a block does in a state the call visits decides the call. -/
theorem Visits.parse_stop {b : Block Label (List ParseStmt)} {bs : List (Block Label (List ParseStmt))}
    {rest : List ParserInstr} {d t : ParserData} {r : ParseResult}
    (h : Visits p memory inBufStart inBufEnd w (b :: bs, rest) d)
    (hb : runParseBody (p.context memory) inBufEnd b.body {} d = some (.stop r t)) :
    ∃ w', p.parse memory inBufStart inBufEnd w = some (r, w') := by
  obtain ⟨c₀, d₀, hstart, hreach⟩ := h
  have hrun : ∀ l, runFrom (parserSemantics (p.context memory)) inBufEnd c₀ l d₀ =
      some (.stopped r b.label t) := by
    intro l
    obtain ⟨l', heq⟩ := hreach.runFrom_eq _ _ l
    rw [heq, runFrom_cons]
    simp only [parserSemantics, hb]
    rfl
  cases hstart with
  | fresh hinstr hpush halloc =>
    have := hrun none
    rw [← run_eq_runFrom] at this
    simp [Parser.parse, hinstr, hpush, halloc, this, Parser.finish]
  | @resumed l _ _ hinstr hpeek hloc =>
    simp [Parser.parse, hinstr, hpeek, resume, hloc, hrun, Parser.finish]

theorem visits_within (hu : Supported o u) (hp : ParserGenerator.run o u = some p)
    (hle : inBufStart ≤ inBufEnd) (hsize : inBufEnd - inBufStart < 2 ^ 63)
    (hsaved : w.state.instruction ≠ none →
      inBufStart ≤ w.state.streamPos ∧ w.state.streamPos ≤ inBufEnd)
    (hfit : LengthsFit p memory inBufStart inBufEnd w)
    {c : Cont Label (List ParseStmt) SwitchGuard} {d : ParserData}
    (h : Visits p memory inBufStart inBufEnd w c d) : inBufStart ≤ d.pos ∧ d.pos ≤ inBufEnd := by
  obtain ⟨c₀, d₀, hstart, hreach⟩ := h
  have hok := hstart.allOk (parser_code_bodies hu hp)
  induction hreach with
  | refl =>
    cases hstart with
    | fresh => exact ⟨le_refl _, hle⟩
    | resumed hinstr => exact hsaved (by simp [hinstr])
  | enter _ ih => exact ih
  | select hreach hg ih =>
    obtain ⟨r, -, hg⟩ := Option.map_eq_some_iff.mp hg
    cases hg
    exact ih
  | @next b bs rest s s' hreach hb ih =>
    have hfit' := fun n => hfit b bs rest s n ⟨_, _, hstart, hreach⟩
    obtain ⟨h₁, h₂, -⟩ := (hreach.allOk hok).head.next_bounds (p.context memory) ih.2
      (by omega) hfit' hb
    exact ⟨ih.1.trans h₁, h₂⟩

/-- The block of a bytes field names its member and its length. -/
theorem ParseOk.of_copy {env : Env} {P : Expr → Prop} {x : String} {e : Expr}
    (h : ParseOk env P ((FieldKind.copy e).parseCode x)) :
    ∃ ty, env.members x = some ty ∧ ty.isVarBytes = true := by
  generalize hb : (FieldKind.copy e).parseCode x = b at h
  cases h with
  | nothing => cases hb
  | assign => cases hb
  | @field k y ty hx hk =>
    cases k <;> cases hb
    exact ⟨ty, hx, hk⟩

theorem ParseOk.of_range {env : Env} {P : Expr → Prop} {x : String} {e : Expr}
    (h : ParseOk env P ((FieldKind.range e).parseCode x)) :
    env.members x = some .varStreamRange := by
  generalize hb : (FieldKind.range e).parseCode x = b at h
  cases h with
  | nothing => cases hb
  | assign => cases hb
  | @field k y ty hx hk =>
    cases k <;> cases hb
    rw [hx, show ty = .varStreamRange from hk]

/-- Fitting lengths keep a call inside its input. -/
theorem staysInside_of_fit (hu : Supported o u) (hp : ParserGenerator.run o u = some p)
    (hle : inBufStart ≤ inBufEnd) (hsize : inBufEnd - inBufStart < 2 ^ 63)
    (hsaved : w.state.instruction ≠ none →
      inBufStart ≤ w.state.streamPos ∧ w.state.streamPos ≤ inBufEnd)
    (hfit : LengthsFit p memory inBufStart inBufEnd w) :
    StaysInside p memory inBufStart inBufEnd w := by
  have hwithin := fun c d => visits_within hu hp hle hsize hsaved hfit (c := c) (d := d)
  have hok : ∀ {b bs rest d}, Visits p memory inBufStart inBufEnd w (b :: bs, rest) d →
      ParseOk p.env (fun _ => True) b.body := by
    rintro b bs rest d ⟨c₀, d₀, hstart, hreach⟩
    exact (hreach.allOk (hstart.allOk (parser_code_bodies hu hp))).head
  have hbounds : ∀ {b bs rest d d'}, Visits p memory inBufStart inBufEnd w (b :: bs, rest) d →
      runParseBody (p.context memory) inBufEnd b.body {} d = some (.next d') →
      d.pos ≤ d'.pos ∧ d'.pos ≤ inBufEnd ∧
        ∀ n, fieldSize p.env d.unit b.body = some n → d.pos + n ≤ inBufEnd := by
    intro b bs rest d d' hvis hb
    have hpos := hwithin _ _ hvis
    exact (hok hvis).next_bounds (p.context memory) hpos.2 (by omega)
      (fun n hn => hfit b bs rest d n hvis hn) hb
  refine ⟨hwithin, fun b bs rest d d' hvis hb => (hbounds hvis hb).1, ?_, ?_, ?_⟩
  · intro b bs rest d d' x e hvis hbody hb
    have hroom := (hbounds hvis hb).2.2
    obtain ⟨ty, hx, hty⟩ :
        ∃ ty, (p.context memory).env.members x = some ty ∧ ty.isVarBytes = true :=
      (hbody ▸ hok hvis).of_copy
    rw [hbody] at hb hroom
    rw [run_parse_copy hx hty] at hb
    obtain ⟨r, hr, hb⟩ := Option.map_eq_some_iff.mp hb
    have hend := hroom r.1 (by simpa using ⟨r.2, hr⟩)
    dsimp only at hb
    split at hb
    · cases hb
    · split at hb
      · cases hb
      · cases hb
        simpa [Parser.context] using hend
  · intro b bs rest d d' x e hvis hbody hb
    have hroom := (hbounds hvis hb).2.2
    have hx : (p.context memory).env.members x = some .varStreamRange :=
      (hbody ▸ hok hvis).of_range
    rw [hbody] at hb hroom
    rw [run_parse_range hx] at hb
    obtain ⟨r, hr, hb⟩ := Option.map_eq_some_iff.mp hb
    have hend := hroom r.1 (by simpa using ⟨r.2, hr⟩)
    dsimp only at hb
    split at hb
    · cases hb
    · cases hb
      simpa using ⟨(hwithin _ _ hvis).1, hend⟩
  · intro b bs rest d n hvis hn hlong
    have hpos := hwithin _ _ hvis
    obtain ⟨t, ht⟩ := (hok hvis).tooLong (p.context memory) hpos.2 (by omega) hn
      (hfit b bs rest d n hvis hn) hlong
    exact hvis.parse_stop ht

/-- The lengths of a flat unit fit. -/
theorem Flat.lengthsFit (hu : Flat o u) (hp : ParserGenerator.run o u = some p) :
    LengthsFit p memory inBufStart inBufEnd w := by
  rintro b bs rest d n ⟨c₀, d₀, hstart, hreach⟩ hn
  have hbody := (hreach.allOk (hstart.allOk (hu.code_ok hp).1)).head
  generalize b.body = body at hbody hn
  cases hbody with
  | nothing => simp [fieldSize] at hn
  | assign => simp [fieldSize] at hn
  | @field k x ty hx hk hlen =>
    cases k with
    | int t bo =>
      obtain rfl : t.width / 8 = n := by simpa using hn
      exact width_lt hk.2
    | cast t bo ty' =>
      obtain rfl : t.width / 8 = n := by simpa using hn
      exact width_lt hk.2.2
    | copy e =>
      rw [fieldSize_copy] at hn
      obtain ⟨r, hr, rfl⟩ := Option.map_eq_some_iff.mp hn
      exact ((hlen e rfl).spec hr).1
    | range e =>
      rw [fieldSize_range] at hn
      obtain ⟨r, hr, rfl⟩ := Option.map_eq_some_iff.mp hn
      exact ((hlen e rfl).spec hr).1

/-- A call that returns `DONE` has visited the end of the code. -/
theorem parse_done_visits {w' : ParserWorld}
    (h : p.parse memory inBufStart inBufEnd w = some (.done, w')) :
    ∃ d, Visits p memory inBufStart inBufEnd w ([], []) d ∧ w'.bytesRead = d.pos - inBufStart := by
  have hdone : ∀ {c₀ l d₀ unit w₁}, CallStart p inBufStart w c₀ d₀ →
      (runFrom (parserSemantics (p.context memory)) inBufEnd c₀ l d₀).map
        (Parser.finish w₁ unit inBufStart) = some (.done, w') →
      ∃ d, Visits p memory inBufStart inBufEnd w ([], []) d ∧
        w'.bytesRead = d.pos - inBufStart := by
    intro c₀ l d₀ unit w₁ hstart h
    obtain ⟨oc, hrun, hfin⟩ := Option.map_eq_some_iff.mp h
    cases oc with
    | stopped r l' d => exact absurd (congrArg Prod.fst hfin) (parser_stopped_ne_done hrun)
    | done l' d =>
      refine ⟨d, ⟨c₀, d₀, hstart, Reaches.of_done _ _ hrun⟩, ?_⟩
      rw [← show _ = w' from congrArg Prod.snd hfin]
      rfl
  unfold Parser.parse at h
  split at h
  · rename_i l hinstr
    obtain ⟨unit, hpeek, h⟩ := Option.bind_eq_some_iff.mp h
    cases hloc : locate l p.code with
    | none => simp [resume, hloc] at h
    | some c =>
      simp only [resume, hloc, Option.bind_some] at h
      exact hdone (.resumed hinstr hpeek hloc) h
  · rename_i hinstr
    obtain ⟨st, hpush, h⟩ := Option.bind_eq_some_iff.mp h
    rcases halloc : w.area.allocate p.unitSize with _ | ⟨unit, area⟩
    · simp [halloc] at h
    · simp only [halloc, run_eq_runFrom] at h
      exact hdone (.fresh hinstr hpush halloc) h

/-- A unit with a 64-bit length, compacted for an application that only reads `tail`. -/
def frame : UnitType where
  id := "Frame"
  items := [
    .field { id := "size", type := .integer 64 false },
    .field { id := "data", type := .bytes, applicationAccessible := false,
             attributes := [⟨"length", some (.selfMember "Frame" "size")⟩] },
    .field { id := "tail", type := .integer 8 false }]

end Calls

end Diffingo.Codec
