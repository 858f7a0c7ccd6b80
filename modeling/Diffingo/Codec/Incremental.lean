import Diffingo.Codec.Prologue
import Diffingo.Memcached.Spec

/-!
# Interrupted calls

The instructions of a generated parser and serializer can be interrupted and started again. Both
are instances of `Resumable.Restartable`, so calls against a growing buffer end as one call on the
whole buffer does.
-/

namespace Diffingo.Codec

open CInteger ByteMemory Resumable Diffingo.Spec Diffingo.Runtime Diffingo.Generation

/-- The lengths of a flat unit: a non-negative constant, or an unsigned member of at most 32
bits. -/
inductive PlainLength (env : Env) : Expr → Prop
  | constant (n : Nat) : PlainLength env (.int n)
  | member {x : String} {w : Nat} : env.members x = some (.int ⟨w, false⟩) → w ≤ 32 →
      PlainLength env (.selfMember env.unit x)

def plainLength (env : Env) : Expr → Bool
  | .constant (.integer n) => 0 ≤ n
  | .binary .attribute (.parserState (.self u)) (.memberAttribute x) =>
    u = env.unit && match env.members x with
      | some (.int t) => !t.signed && t.width ≤ 32
      | _ => false
  | _ => false

theorem plainLength_iff (env : Env) (e : Expr) : plainLength env e = true ↔ PlainLength env e := by
  constructor
  · intro h
    unfold plainLength at h
    split at h
    · rename_i n
      obtain ⟨k, rfl⟩ := Int.eq_ofNat_of_zero_le (by simpa using h : 0 ≤ n)
      exact .constant k
    · rename_i u x
      simp only [Bool.and_eq_true, decide_eq_true_eq] at h
      obtain ⟨rfl, h⟩ := h
      split at h
      · rename_i t hx
        simp only [Bool.and_eq_true, Bool.not_eq_true', decide_eq_true_eq] at h
        obtain ⟨w, s⟩ := t
        obtain ⟨rfl, hw⟩ := h
        exact .member hx hw
      · cases h
    · cases h
  · intro h
    cases h with
    | constant n => simp [plainLength]
    | member hx hw => simp [plainLength, hx, hw]

instance (env : Env) (e : Expr) : Decidable (PlainLength env e) :=
  decidable_of_iff _ (plainLength_iff env e)

theorem evalLength_constant (env : Env) (n : Nat) (m : UnitMemory) :
    evalLength env (.int n) m = if n < 2 ^ 63 then some (n, m) else none := by
  have hwrap : n < 2 ^ 63 → IntTy.sizeT.wrap (n : Int) = n := fun h =>
    IntTy.wrap_unsigned_of_lt (by omega) (by push_cast; omega)
  simp only [evalLength, typeOf, constantType, literalType, Int.natAbs_natCast, eval, literal,
    constantValue]
  by_cases hsmall : n < 2 ^ 31
  · have hlt : n < 2 ^ 63 := by omega
    simp only [hsmall, hlt, if_true, Option.bind_some, Option.map_some, CType.arith, Value.toInt,
      hwrap hlt, Int.toNat_natCast]
  · by_cases hlt : n < 2 ^ 63
    · simp only [hsmall, hlt, if_true, if_false, Option.bind_some, Option.map_some, CType.arith,
        Value.toInt, hwrap hlt, Int.toNat_natCast]
    · simp only [hsmall, hlt, if_false, Option.bind_none]

theorem evalLength_member {env : Env} {x : String} {w : Nat}
    (hx : env.members x = some (.int ⟨w, false⟩)) (hw : w ≤ 64) (m : UnitMemory) :
    evalLength env (.selfMember env.unit x) m =
      some ((IntTy.wrap ⟨w, false⟩ (m x).int).toNat, m) := by
  have hlt := IntTy.wrap_unsigned_lt w (m x).int
  have hpow : (2 : Int) ^ w ≤ 2 ^ 64 := by
    exact_mod_cast Nat.pow_le_pow_right (by omega) hw
  have hwrap : IntTy.sizeT.wrap (IntTy.wrap ⟨w, false⟩ (m x).int) =
      IntTy.wrap ⟨w, false⟩ (m x).int :=
    IntTy.wrap_unsigned_of_lt (IntTy.wrap_unsigned_nonneg w _) (by push_cast at *; omega)
  simp [evalLength, typeOf, eval, lvalue, hx, load, CType.arith, Cell.read, CType.convert,
    Value.toInt, hwrap]

/-- Evaluating a plain length changes nothing, and the length is an ordinary one. -/
theorem PlainLength.spec {env : Env} {e : Expr} (h : PlainLength env e) {m : UnitMemory}
    {r : Nat × UnitMemory} (hr : evalLength env e m = some r) : r.1 < 2 ^ 63 ∧ r.2 = m := by
  cases h with
  | constant n =>
    rw [evalLength_constant] at hr
    split at hr
    · cases hr
      exact ⟨by assumption, rfl⟩
    · cases hr
  | @member x w hx hw =>
    rw [evalLength_member hx (by omega)] at hr
    cases hr
    have hlt := IntTy.wrap_unsigned_lt w (m x).int
    have hpow : (2 : Int) ^ w ≤ 2 ^ 32 := by
      exact_mod_cast Nat.pow_le_pow_right (by omega) hw
    refine ⟨?_, rfl⟩
    dsimp only
    push_cast at hlt
    omega

/-- A plain length depends on the numbers in the unit only. -/
theorem PlainLength.congr {env : Env} {e : Expr} (h : PlainLength env e) {m m' : UnitMemory}
    (hm : ∀ y, (m' y).int = (m y).int) :
    evalLength env e m' = (evalLength env e m).map fun r => (r.1, m') := by
  cases h with
  | constant n =>
    rw [evalLength_constant, evalLength_constant]
    split <;> rfl
  | member hx hw => simp [evalLength_member hx (by omega : _ ≤ 64), hm]

/-- What an instruction of a flat unit does in state `d`: it needs `n` bytes. With less it stops in
the state `t`, from where it can be started again as from `d`; otherwise it ends as `r`. -/
structure ParseShape (cx : ParserContext) (b : List ParseStmt) (d : ParserData) (n : Nat)
    (short : Int → Bool) (t : ParserData) (r : Step ParserData ParseResult) : Prop where
  small : n < 2 ^ 63
  short_eq : ∀ e, d.pos ≤ e → e - d.pos < 2 ^ 63 → short e = decide (e - d.pos < n)
  body : ∀ e, runParseBody cx e b {} d = some (if short e then .stop .outOfData t else r)
  pos : t.pos = d.pos
  restart : ∀ e, runParseBody cx e b {} t = runParseBody cx e b {} d
  next : ∀ d', r = .next d' → d'.pos = d.pos + n
  stop : ∀ t', r ≠ .stop .outOfData t'

section Shape

variable {cx : ParserContext} {d : ParserData}

theorem parseShape_copy {x : String} {ty : CType} {e : Expr} (hx : cx.env.members x = some ty)
    (hty : ty.isVarBytes = true) (he : PlainLength cx.env e) {r : Nat × UnitMemory}
    (hr : evalLength cx.env e d.unit = some r) :
    ∃ short t s, ParseShape cx ((FieldKind.copy e).parseCode x) d r.1 short t s := by
  obtain ⟨n, m⟩ := r
  obtain ⟨hn, rfl⟩ : n < 2 ^ 63 ∧ m = d.unit := he.spec hr
  have hr' : evalLength cx.env e (Function.update d.unit x { d.unit x with len_ := n }) =
      some (n, Function.update d.unit x { d.unit x with len_ := n }) := by
    rw [he.congr (m := d.unit) fun y => by by_cases hy : y = x <;> simp [Function.update, hy], hr]
    rfl
  refine ⟨fun e => shortOfLength e d.pos n,
    ⟨Function.update d.unit x { d.unit x with len_ := n }, d.area, d.pos⟩,
    (d.area.allocate n).elim
      (.stop .areaFull ⟨Function.update d.unit x { d.unit x with len_ := n }, d.area, d.pos⟩)
      fun p => .next ⟨Function.update d.unit x
        { d.unit x with len_ := n, data_ := slice cx.memory d.pos n }, p.2, d.pos + ssize n⟩,
    hn, fun e _ _ => shortOfLength_eq hn e d.pos, fun e => ?_, rfl, fun e => ?_, fun d' h => ?_,
    fun t' h => ?_⟩
  · rw [run_parse_copy hx hty, hr]
    rw [Option.map_some]
    rcases d.area.allocate n with _ | ⟨p, area⟩ <;> simp
  · rw [run_parse_copy hx hty, run_parse_copy hx hty, hr, hr']
    simp
  · rcases halloc : d.area.allocate n with _ | ⟨p, area⟩
    · simp [halloc] at h
    · simp only [halloc, Option.elim_some, Step.next.injEq] at h
      rw [← h, ssize_of_lt hn]
  · rcases halloc : d.area.allocate n with _ | ⟨p, area⟩ <;> simp [halloc] at h

theorem parseShape_range {x : String} {e : Expr} (hx : cx.env.members x = some .varStreamRange)
    (he : PlainLength cx.env e) {r : Nat × UnitMemory}
    (hr : evalLength cx.env e d.unit = some r) :
    ∃ short t s, ParseShape cx ((FieldKind.range e).parseCode x) d r.1 short t s := by
  obtain ⟨n, m⟩ := r
  obtain ⟨hn, rfl⟩ : n < 2 ^ 63 ∧ m = d.unit := he.spec hr
  have hr' : evalLength cx.env e
      (Function.update d.unit x { d.unit x with len_ := n, start_ := d.pos }) =
      some (n, Function.update d.unit x { d.unit x with len_ := n, start_ := d.pos }) := by
    rw [he.congr (m := d.unit) fun y => by by_cases hy : y = x <;> simp [Function.update, hy], hr]
    rfl
  refine ⟨fun e => shortOfLength e d.pos n,
    ⟨Function.update d.unit x { d.unit x with len_ := n, start_ := d.pos }, d.area, d.pos⟩,
    .next ⟨Function.update d.unit x { d.unit x with len_ := n, start_ := d.pos }, d.area,
      d.pos + ssize n⟩,
    hn, fun e _ _ => shortOfLength_eq hn e d.pos, fun e => ?_, rfl, fun e => ?_, fun d' h => ?_,
    fun t' h => nomatch h⟩
  · rw [run_parse_range hx, hr]
    rfl
  · rw [run_parse_range hx, run_parse_range hx, hr, hr']
    simp
  · cases h
    rw [ssize_of_lt hn]

/-- An instruction that reads an integer. -/
theorem parseShape_int {b : List ParseStmt} {t : IntTy} (ht : t.width ∈ supportedWidths)
    {m : UnitMemory} (hb : ∀ e, runParseBody cx e b {} d =
      some (if shortOf e d.pos (t.width / 8) then .stop .outOfData d
        else .next ⟨m, d.area, d.pos + (t.width / 8 : Nat)⟩)) :
    ∃ short t' s, ParseShape cx b d (t.width / 8) short t' s :=
  ⟨fun e => shortOf e d.pos (t.width / 8), d, _, width_lt ht,
    fun e hle hlt => shortOf_eq hle hlt _, hb, rfl, fun _ => rfl,
    fun d' h => by cases h; rfl, fun t' h => nomatch h⟩

theorem parseShape {b : List ParseStmt} (hb : ParseOk cx.env (PlainLength cx.env) b) :
    (∀ e, runParseBody cx e b {} d = none) ∨ ∃ n short t r, ParseShape cx b d n short t r := by
  cases hb with
  | nothing =>
    exact .inr ⟨0, fun _ => false, d, .next d, by decide, fun e h _ => by simp [h], fun e => rfl,
      rfl, fun _ => rfl, fun d' h => by cases h; simp, fun t' h => nomatch h⟩
  | assign x e =>
    cases he : assignTo ((cx.env.members x).map (x, ·)) (typeOf cx.env e) (eval cx.env e) d.unit with
    | none => exact .inl fun _ => by rw [run_parse_variable, he]; rfl
    | some r =>
      exact .inr ⟨0, fun _ => false, d, .next ⟨r.2, d.area, d.pos⟩, by decide,
        fun e h _ => by simp [h], fun _ => by rw [run_parse_variable, he]; rfl, rfl, fun _ => rfl,
        fun d' h => by cases h; simp, fun t' h => nomatch h⟩
  | @field k x ty hx hk hlen =>
    cases k with
    | int t bo =>
      obtain ⟨rfl, ht⟩ := hk
      exact .inr ⟨_, parseShape_int ht fun e => run_parse_int bo hx⟩
    | cast t bo ty' =>
      obtain ⟨rfl, hscalar, ht⟩ := hk
      exact .inr ⟨_, parseShape_int ht fun e => run_parse_cast bo hx hscalar⟩
    | copy e =>
      cases hr : evalLength cx.env e d.unit with
      | none => exact .inl fun _ => by rw [run_parse_copy hx hk, hr]; rfl
      | some r => exact .inr ⟨_, parseShape_copy hx hk (hlen e rfl) hr⟩
    | range e =>
      obtain rfl : ty = .varStreamRange := hk
      cases hr : evalLength cx.env e d.unit with
      | none => exact .inl fun _ => by rw [run_parse_range hx, hr]; rfl
      | some r => exact .inr ⟨_, parseShape_range hx (hlen e rfl) hr⟩

end Shape

theorem parser_restartable (cx : ParserContext) {lo hi : Int} (hsize : hi - lo < 2 ^ 63) :
    Restartable (parserSemantics cx) (·.pos) lo hi .outOfData (ParseOk cx.env (PlainLength cx.env)) where
  next_pos := by
    intro b e s s' hb hlo he hhi h
    change runParseBody cx e b {} s = _ at h
    rcases parseShape (d := s) hb with hnone | ⟨n, short, t, r, hs⟩
    · simp [hnone] at h
    · have hshort := hs.short_eq e he (by omega)
      have := hs.next s'
      grind [hs.body e]
  next_limit := by
    intro b e e' s s' hb hlo he hhi hhi' h hroom
    change runParseBody cx e b {} s = _ at h
    change runParseBody cx e' b {} s = _
    rcases parseShape (d := s) hb with hnone | ⟨n, short, t, r, hs⟩
    · simp [hnone] at h
    · have hshort := hs.short_eq e he (by omega)
      have := hs.next s'
      have := hs.short_eq e'
      grind [hs.body e, hs.body e']
  next_short := by
    intro b e e' s s' hb hlo he hhi he' h hshort'
    change runParseBody cx e b {} s = _ at h
    change ∃ t, runParseBody cx e' b {} s = _
    rcases parseShape (d := s) hb with hnone | ⟨n, short, t, r, hs⟩
    · simp [hnone] at h
    · refine ⟨t, ?_⟩
      have hshort := hs.short_eq e he (by omega)
      have := hs.next s'
      have := hs.short_eq e'
      grind [hs.body e, hs.body e']
  stop_pos := by
    intro b e s t' hb h
    change runParseBody cx e b {} s = _ at h
    rcases parseShape (d := s) hb with hnone | ⟨n, short, t, r, hs⟩
    · simp [hnone] at h
    · have := hs.stop t'
      have := hs.pos
      grind [hs.body e]
  stop_restart := by
    intro b e s t' hb h e'
    change runParseBody cx e b {} s = _ at h
    change runParseBody cx e' b {} t' = runParseBody cx e' b {} s
    rcases parseShape (d := s) hb with hnone | ⟨n, short, t, r, hs⟩
    · simp [hnone] at h
    · have := hs.stop t'
      have := hs.restart e'
      grind [hs.body e]
  guard_pos := by
    intro g s s' i h
    obtain ⟨r, -, h⟩ := Option.map_eq_some_iff.mp h
    cases h
    rfl

/-- A flat unit: one that compiles, with plain lengths. -/
structure Flat (o : Options) (u : UnitType) : Prop extends Supported o u where
  lengths : ∀ i ∈ u.items, ∀ f ∈ i.fields, ∀ e ∈ (fieldKind o u f).bind FieldKind.length,
    PlainLength (unitEnv o u) e

section ParserCalls

variable {o : Options} {u : UnitType} {p : Parser} {memory : Memory} {inBufStart whole : Int}

theorem Flat.code_ok (hu : Flat o u) (hp : ParserGenerator.run o u = some p) :
    AllOk (ParseOk p.env (PlainLength p.env)) ([], p.code) ∧ (labels p.code).Nodup := by
  obtain ⟨code, hcode, rfl⟩ := Option.map_eq_some_iff.mp hp
  exact ⟨parseItems_ok hu.toSupported hu.lengths hcode, emitItems_nodup (fun _ _ => rfl) hcode⟩

theorem runParseBody_stop {cx : ParserContext} {e : Int} {b : List ParseStmt} {l : ParseLocals}
    {d t : ParserData} {r : ParseResult} (h : runParseBody cx e b l d = some (.stop r t)) :
    r ≠ .done := by
  fun_induction runParseBody cx e b l d with
  | case1 => cases h
  | case2 => cases h
  | case3 rest l d hres ih => exact ih h
  | case4 rest l d r' hres hne =>
    cases h
    assumption
  | case5 l d s rest hs ih =>
    obtain ⟨x, -, h⟩ := Option.bind_eq_some_iff.mp h
    exact ih x h

/-- The generated code returns in the middle only with another result than `DONE`. -/
theorem parser_stopped_ne_done {cx : ParserContext} {e : Int}
    {c : Cont Label (List ParseStmt) SwitchGuard} {l : Option Label} {lab : Label}
    {d t : ParserData} {r : ParseResult}
    (h : runFrom (parserSemantics cx) e c l d = some (.stopped r lab t)) : r ≠ .done := by
  obtain ⟨b, bs, rest, s, -, -, hb⟩ := Reaches.of_stopped _ _ h
  exact runParseBody_stop hb

/-- The world between two calls of `parse`: the work on `unit` stands at label `l` in state `d`. -/
def parserSuspended (w : ParserWorld) (unit : Nat) (l : Label) (d : ParserData) : ParserWorld :=
  ⟨Function.update w.heap unit d.unit, d.area,
    { w.state with instruction := some l, streamPos := d.pos }, w.bytesRead⟩

theorem parser_finish_stopped (w : ParserWorld) (unit : Nat) (r : ParseResult) (l : Label)
    (d : ParserData) :
    Parser.finish w unit inBufStart (.stopped r l d) = (r, parserSuspended w unit l d) := rfl

theorem parser_finish_suspended (w : ParserWorld) (unit : Nat) (l : Label) (d : ParserData)
    (r : Outcome Label ParserData ParseResult) :
    Parser.finish (parserSuspended w unit l d) unit inBufStart r =
      Parser.finish w unit inBufStart r := by
  cases r <;> simp [Parser.finish, parserSuspended]

theorem parse_suspended {w : ParserWorld} {unit : Nat} (hunit : w.state.peek = some unit)
    (l : Label) (d : ParserData) (e : Int) :
    p.parse memory inBufStart e (parserSuspended w unit l d) =
      (resume (parserSemantics (p.context memory)) e p.code l d).map
        (Parser.finish w unit inBufStart) := by
  have hpeek : (parserSuspended w unit l d).state.peek = some unit := hunit
  have hfinish : Parser.finish (parserSuspended w unit l d) unit inBufStart =
      Parser.finish w unit inBufStart := funext (parser_finish_suspended w unit l d)
  simp only [Parser.parse, parserSuspended] at hpeek hfinish ⊢
  simp [hpeek, hfinish]

/-- A call from the beginning that gets its unit works on it in a world `w₁`. -/
theorem parse_fresh {w w' : ParserWorld} {e : Int} {r : ParseResult}
    (hfresh : w.state.instruction = none) (h : p.parse memory inBufStart e w = some (r, w'))
    (hr : r ≠ .areaFull) :
    ∃ unit w₁, w₁.state.peek = some unit ∧ ∀ e,
      p.parse memory inBufStart e w =
        (run (parserSemantics (p.context memory)) e p.code none
          ⟨w.heap unit, w₁.area, inBufStart⟩).map (Parser.finish w₁ unit inBufStart) := by
  simp only [Parser.parse, hfresh] at h ⊢
  obtain ⟨st, hst, h⟩ := Option.bind_eq_some_iff.mp h
  rcases halloc : w.area.allocate p.unitSize with _ | ⟨unit, area⟩
  · simp only [halloc, Option.some.injEq, Prod.mk.injEq] at h
    exact absurd h.1.symm hr
  · refine ⟨unit, { w with area := area, state := st.setUnit unit }, rfl, fun e => ?_⟩
    simp [hst]

theorem command_flat (o : Options) : Flat o Memcached.command := by
  obtain ⟨b⟩ := o
  cases b <;> exact ⟨⟨by decide, by decide⟩, by decide⟩

end ParserCalls

/-- The instructions of a serializer. -/
inductive SerializeOk (env : Env) : List SerializeStmt → Prop
  | nothing : SerializeOk env []
  | field {k : FieldKind} {x : String} {ty : CType} : env.members x = some ty → k.HasMember ty →
      SerializeOk env (k.serializeCode x)

/-- A completed instruction has written some bytes for which there was room. -/
theorem SerializeOk.next {cx : SerializerContext} {b : List SerializeStmt}
    (hb : SerializeOk cx.env b) {e : Int} {d d' : SerializerData} (hle : d.pos ≤ e)
    (hend : e - d.pos < 2 ^ 63) (h : runSerializeBody cx e b {} d = some (.next d')) :
    ∃ bs, d' = ⟨d.unit, blit d.out d.pos bs, d.pos + bs.length⟩ ∧ d.pos + bs.length ≤ e ∧
      ∀ e', d.pos ≤ e' → e' - d.pos < 2 ^ 63 →
        runSerializeBody cx e' b {} d = some (writeStep e' bs d) := by
  cases hb with
  | nothing =>
    cases h
    exact ⟨[], by simp [blit], by simpa using hle, fun e' he' _ => by
      simp [runSerializeBody, writeStep, blit, he']⟩
  | field hx hk =>
    obtain ⟨bs, hwire, hbs, hstep⟩ := run_serialize_next hx hk hle hend h
    by_cases hroom : e - d.pos < bs.length
    · simp [writeStep, hroom] at hstep
    · simp only [writeStep, hroom, if_false, Step.next.injEq] at hstep
      exact ⟨bs, hstep.symm, by omega, fun e' hle' hend' =>
        run_serialize_field hx hk hwire hle' hend' hbs⟩

theorem SerializeOk.stop {cx : SerializerContext} {b : List SerializeStmt}
    (hb : SerializeOk cx.env b) {e : Int} {d d' : SerializerData} {r : SerializeResult}
    (h : runSerializeBody cx e b {} d = some (.stop r d')) : r = .outBufFull ∧ d' = d := by
  cases hb with
  | nothing => cases h
  | field hx hk => exact run_serialize_stop hx hk h

theorem serializer_restartable (cx : SerializerContext) {lo hi : Int} (hsize : hi - lo < 2 ^ 63) :
    Restartable (serializerSemantics cx) (·.pos) lo hi .outBufFull (SerializeOk cx.env) where
  next_pos := by
    intro b e s s' hb hlo he hhi h
    obtain ⟨bs, rfl, hroom, -⟩ := hb.next he (by omega) h
    exact ⟨by dsimp only; omega, hroom⟩
  next_limit := by
    intro b e e' s s' hb hlo he hhi hhi' h hroom
    obtain ⟨bs, rfl, -, hbody⟩ := hb.next he (by omega) h
    dsimp only at hroom
    have hstep := hbody e' (by omega) (by omega)
    rwa [writeStep, if_neg (by omega)] at hstep
  next_short := by
    intro b e e' s s' hb hlo he hhi he' h hshort
    obtain ⟨bs, rfl, hroom, hbody⟩ := hb.next he (by omega) h
    dsimp only at hshort
    have hstep := hbody e' he' (by omega)
    rw [writeStep, if_pos (by omega)] at hstep
    exact ⟨s, hstep⟩
  stop_pos := by
    intro b e s t hb h
    rw [(hb.stop h).2]
  stop_restart := by
    intro b e s t hb h e'
    rw [(hb.stop h).2]
  guard_pos := by
    intro g s s' i h
    obtain ⟨r, -, h⟩ := Option.map_eq_some_iff.mp h
    cases h
    rfl

/-- A call writes nothing at or behind the end of its buffer. -/
theorem serializer_confined (cx : SerializerContext) (lo : Int) (out : Memory) :
    Invariant (serializerSemantics cx) (SerializeOk cx.env) fun e d =>
      e - lo < 2 ^ 63 → lo ≤ d.pos ∧ d.pos ≤ e ∧ ∀ a, e ≤ a → d.out a = out a where
  body := by
    intro b e s x hb hs h hsize
    obtain ⟨hlo, he, hout⟩ := hs hsize
    cases x with
    | next d =>
      obtain ⟨bs, rfl, hroom, -⟩ := hb.next he (by omega) h
      refine ⟨by simp only [Step.state]; omega, hroom, fun a ha => ?_⟩
      exact (blit_of_ge bs (by omega)).trans (hout a ha)
    | stop r d =>
      rw [(hb.stop h).2]
      exact ⟨hlo, he, hout⟩
  guard := by
    intro g e s s' i hs h hsize
    obtain ⟨r, -, h⟩ := Option.map_eq_some_iff.mp h
    cases h
    exact hs hsize
  mono := by
    intro e e' s hle hs hsize
    obtain ⟨hlo, he, hout⟩ := hs (by omega)
    exact ⟨hlo, by omega, fun a ha => hout a (by omega)⟩

section SerializerCalls

variable {o : Options} {u : UnitType} {s : Serializer} {input : Memory} {outBufStart : Int}

theorem serializer_code_ok (hu : Supported o u) (hs : SerializerGenerator.run o u = some s) :
    AllOk (SerializeOk (unitEnv o u)) ([], s.code) ∧ (labels s.code).Nodup ∧
      s.env = unitEnv o u ∧ SerializerGenerator.serializeItems o u 1 u.items = some s.code := by
  obtain ⟨vars, -, h⟩ := Option.bind_eq_some_iff.mp hs
  obtain ⟨code, hcode, rfl⟩ := Option.map_eq_some_iff.mp h
  refine ⟨⟨by simp, fun i hi b hb => ?_⟩, emitItems_nodup (fun _ _ => rfl) hcode, rfl, hcode⟩
  rcases emitItems_blocks hcode i hi b hb with ⟨j, hj, f, hf, hbody⟩ | ⟨v, -, hbody⟩ | hbody
  · obtain ⟨k, ty, hk, hty, hmem⟩ := hu.declared hj hf
    rw [(fieldKind_code hk).2.1] at hbody
    rw [← Option.some.inj hbody]
    exact .field hty hmem
  · cases hbody
  · rw [hbody]
    exact .nothing

/-- The world between two calls of `serialize`: the work on `unit` stands at label `l` in state
`d`. -/
def serializerSuspended (w : SerializerWorld) (unit : Nat) (l : Label) (d : SerializerData) :
    SerializerWorld :=
  ⟨Function.update w.heap unit d.unit, d.out,
    { w.state with instruction := some l, streamPos := d.pos }, w.bytesWritten⟩

theorem serializer_finish_stopped (w : SerializerWorld) (unit : Nat) (r : SerializeResult)
    (l : Label) (d : SerializerData) :
    Serializer.finish w unit outBufStart (.stopped r l d) =
      (r, serializerSuspended w unit l d) := rfl

theorem serializer_finish_suspended (w : SerializerWorld) (unit : Nat) (l : Label)
    (d : SerializerData) (r : Outcome Label SerializerData SerializeResult) :
    Serializer.finish (serializerSuspended w unit l d) unit outBufStart r =
      Serializer.finish w unit outBufStart r := by
  cases r <;> simp [Serializer.finish, serializerSuspended]

theorem serialize_suspended {w : SerializerWorld} {unit unit' : Nat}
    (hunit : w.state.peek = some unit) (l : Label) (d : SerializerData) (e : Int) :
    s.serialize input unit' outBufStart e (serializerSuspended w unit l d) =
      (resume (serializerSemantics (s.context input)) e s.code l d).map
        (Serializer.finish w unit outBufStart) := by
  have hpeek : (serializerSuspended w unit l d).state.peek = some unit := hunit
  have hfinish : Serializer.finish (serializerSuspended w unit l d) unit outBufStart =
      Serializer.finish w unit outBufStart := funext (serializer_finish_suspended w unit l d)
  simp only [Serializer.serialize, serializerSuspended] at hpeek hfinish ⊢
  simp [hpeek, hfinish]

/-- A call from the beginning on a unit whose updates are defined. -/
theorem serialize_fresh (input : Memory) (outBufStart : Int)
    (hs : SerializerGenerator.run o u = some s) {w : SerializerWorld} {unit : Nat} (hfresh : w.state.instruction = none)
    (hspace : Runtime.ParserState.blockSize < w.state.space) {m : UnitMemory}
    (hup : runUpdates (unitEnv o u) (updates u) (w.heap unit) = some m) :
    ∃ w₁, w₁.state.peek = some unit ∧ w₁.heap = w.heap ∧ ∀ e,
      s.serialize input unit outBufStart e w =
        (run (serializerSemantics ⟨unitEnv o u, input⟩) e s.code none
          ⟨m, w.out, outBufStart⟩).map (Serializer.finish w₁ unit outBufStart) := by
  refine ⟨⟨w.heap, w.out, { w.state with stack := some unit :: w.state.stack }, w.bytesWritten⟩,
    rfl, rfl, fun e => ?_⟩
  simp only [Serializer.serialize, hfresh, Runtime.ParserState.push, gt_iff_lt, hspace, if_true,
    Option.bind_some, start_eq hs, hup, Runtime.ParserState.setUnit, List.tail_cons]

end SerializerCalls

end Diffingo.Codec
