import Diffingo.Codec.RoundTrip

/-!
# The memcached round trip

The `serialize` expressions of `opcode` and `value_len` compute `opcode_binary` and `total_len` from
the variables. After parsing they undo what the `parse` expressions did, also when the subtraction
that gives `value_len` wraps around.
-/

namespace Diffingo.Memcached

open CInteger ByteMemory Resumable Diffingo.Spec Diffingo.Runtime Diffingo.Generation Diffingo.Codec

variable {o : Options} {memory : Memory} {m : UnitMemory} {p q : Int}

/-- All members of the struct are accessible, so the options do not change it. -/
theorem command_members (o : Options) : unitEnv o command = unitEnv {} command := by
  obtain ⟨_ | _⟩ := o <;> rfl

theorem command_ordered (o : Options) : ItemsOrdered o command command.items := by
  obtain ⟨_ | _⟩ := o <;> decide

theorem command_lossless (o : Options) : ∀ i ∈ command.items, ∀ f ∈ i.fields,
    ∀ k ∈ fieldKind o command f, k.Lossless := by
  have hwidens : ∀ i ∈ command.items, ∀ f ∈ i.fields, ∀ k ∈ fieldKind o command f,
      k.widens = true := by
    obtain ⟨_ | _⟩ := o <;> decide
  exact fun i hi f hf k hk => FieldKind.lossless_of_widens (hwidens i hi f hf k hk)

/-- The struct members that the variables are computed from. -/
structure Layout (env : Env) : Prop where
  unit : env.unit = "MemcachedCommand"
  opcodeBinary : env.members "opcode_binary" = some (.int ⟨8, false⟩)
  opcode : env.members "opcode" = some (.enum "MemcachedOpCode")
  keyLen : env.members "key_len" = some (.int ⟨16, false⟩)
  extrasLen : env.members "extras_len" = some (.int ⟨8, false⟩)
  totalLen : env.members "total_len" = some (.int ⟨32, false⟩)
  valueLen : env.members "value_len" = some (.int ⟨32, false⟩)

theorem command_layout (o : Options) : Layout (unitEnv o command) := by
  rw [command_members]
  constructor <;> rfl

/-- The value of an unsigned member. -/
def unsigned (m : UnitMemory) (w : Nat) (x : String) : Int := IntTy.wrap ⟨w, false⟩ (m x).int

section Variables

variable {env : Env}

theorem lvalue_self (hunit : env.unit = "MemcachedCommand") {x : String} {ty : CType}
    (hx : env.members x = some ty) : lvalue env (self x) = some (x, ty) := by
  simp [self, lvalue, hunit, hx]

theorem typeOf_self (hunit : env.unit = "MemcachedCommand") {x : String} {ty : CType}
    (hx : env.members x = some ty) : typeOf env (self x) = some ty :=
  congrArg (Option.map _) (lvalue_self hunit hx)

theorem eval_self (hunit : env.unit = "MemcachedCommand") {x : String} {w : Nat}
    (hx : env.members x = some (.int ⟨w, false⟩)) :
    eval env (self x) m = some (.int (unsigned m w x), m) := by
  change load (lvalue env (self x)) m = _
  rw [lvalue_self hunit hx]
  rfl

theorem unsigned_int_wrap {w : Nat} (hw : w < 32) (x : String) :
    IntTy.int.wrap (unsigned m w x) = unsigned m w x := by
  have hnonneg := IntTy.wrap_unsigned_nonneg w (m x).int
  have hlt := IntTy.wrap_unsigned_lt w (m x).int
  have hpow : ((2 ^ w : Nat) : Int) * 2 ≤ ((2 ^ 32 : Nat) : Int) := by
    have := Nat.pow_le_pow_right (n := 2) (by omega) hw
    rw [Nat.succ_eq_add_one, pow_succ] at this
    exact_mod_cast this
  unfold unsigned
  exact IntTy.wrap_signed_of_lt (by omega) (by omega)

theorem eval_opcodeParse (h : Layout env) : eval env opcodeParse m =
    some (.int (IntTy.int.wrap (unsigned m 8 "opcode_binary")), m) := by
  have hcast : castType (.type (.enum opCode)) = some (.enum "MemcachedOpCode") := rfl
  simp only [opcodeParse, eval, hcast, typeOf_self h.unit h.opcodeBinary,
    castTo, Option.bind_some, CType.isScalar, if_true, eval_self h.unit h.opcodeBinary,
    Value.convert, CType.convert, Option.map_some]

/-- The two lengths are added as `int`, without overflow. -/
theorem eval_plus_lengths (hunit : env.unit = "MemcachedCommand") {x y : String} {v w : Nat}
    (hx : env.members x = some (.int ⟨v, false⟩)) (hy : env.members y = some (.int ⟨w, false⟩))
    (hv : v ≤ 16) (hw : w ≤ 16) :
    typeOf env (.binary .plus (self x) (self y)) = some (.int .int) ∧
      eval env (.binary .plus (self x) (self y)) m =
        some (.int (unsigned m v x + unsigned m w y), m) := by
  have hcommon : arithType (.int ⟨v, false⟩) (.int ⟨w, false⟩) = some .int := by
    have hpromote : ∀ n ≤ 16, IntTy.promote ⟨n, false⟩ = .int := fun n hn =>
      if_pos (by dsimp only; omega)
    simp [arithType, CType.arith, IntTy.common, hpromote v hv, hpromote w hw]
  have hlt : ∀ n ≤ 16, ∀ z : Int, 0 ≤ IntTy.wrap ⟨n, false⟩ z ∧ IntTy.wrap ⟨n, false⟩ z < 2 ^ 16 := by
    intro n hn z
    have hpow : ((2 ^ n : Nat) : Int) ≤ 2 ^ 16 := by
      exact_mod_cast Nat.pow_le_pow_right (by omega) hn
    exact ⟨IntTy.wrap_unsigned_nonneg n z, (IntTy.wrap_unsigned_lt n z).trans_le hpow⟩
  have hresult : IntTy.int.result (unsigned m v x + unsigned m w y) =
      some (unsigned m v x + unsigned m w y) := by
    have hx' := hlt v hv (m x).int
    have hy' := hlt w hw (m y).int
    have hfits : IntTy.int.wrap (unsigned m v x + unsigned m w y) =
        unsigned m v x + unsigned m w y := by
      unfold unsigned
      exact IntTy.wrap_signed_of_lt (by omega) (by omega)
    simp only [IntTy.result, if_true, hfits]
  constructor
  · simp only [typeOf, typeOf_self hunit hx, typeOf_self hunit hy, Option.bind_some, hcommon,
      Option.map_some]
  · simp only [eval, strict, typeOf_self hunit hx, typeOf_self hunit hy, eval_self hunit hx,
      eval_self hunit hy, Option.bind_some, Value.toInt, combine, hcommon,
      unsigned_int_wrap (show v < 32 by omega), unsigned_int_wrap (show w < 32 by omega), hresult,
      Option.map_some]

theorem eval_valueLenParse (h : Layout env) : eval env valueLenParse m =
    some (.int (IntTy.wrap ⟨32, false⟩ (unsigned m 32 "total_len" -
      IntTy.wrap ⟨32, false⟩ (unsigned m 8 "extras_len" + unsigned m 16 "key_len"))), m) := by
  obtain ⟨htype, heval⟩ := eval_plus_lengths (m := m) h.unit h.extrasLen h.keyLen (by omega) (by omega)
  have hcommon : arithType (.int ⟨32, false⟩) (.int .int) = some ⟨32, false⟩ := rfl
  change strict .minus (typeOf env _) (typeOf env _) (eval env _) (eval env _) m = _
  simp only [strict, typeOf_self h.unit h.totalLen, htype, eval_self h.unit h.totalLen, heval, Option.bind_some, Value.toInt, combine, hcommon,
    IntTy.result, Bool.false_eq_true, if_false, Option.map_some, unsigned, IntTy.wrap_wrap]

/-- `opcode` holds the opcode byte, as long as it is parsed from it. -/
theorem opcode_parsed (h : Layout env) {ty : CType} {val : Value}
    (hty : env.members "opcode" = some ty) (hval : eval env opcodeParse m = some (val, m))
    (hread : (m "opcode").read ty = val.convert ty) :
    IntTy.int.wrap (m "opcode").int = unsigned m 8 "opcode_binary" := by
  rw [eval_opcodeParse h, unsigned_int_wrap (by omega)] at hval
  cases hval
  obtain rfl : .enum "MemcachedOpCode" = ty := Option.some.inj (h.opcode.symm.trans hty)
  simpa [Cell.read, Value.convert, CType.convert, unsigned_int_wrap] using hread

theorem valueLen_parsed (h : Layout env) {ty : CType} {val : Value}
    (hty : env.members "value_len" = some ty) (hval : eval env valueLenParse m = some (val, m))
    (hread : (m "value_len").read ty = val.convert ty) :
    unsigned m 32 "value_len" = (unsigned m 32 "total_len" -
      (unsigned m 8 "extras_len" + unsigned m 16 "key_len")) % 2 ^ 32 := by
  rw [eval_valueLenParse h] at hval
  cases hval
  obtain rfl : .int ⟨32, false⟩ = ty := Option.some.inj (h.valueLen.symm.trans hty)
  simpa [Cell.read, Value.convert, CType.convert, unsigned, IntTy.wrap_unsigned] using hread

theorem Layout.withDollar (h : Layout env) (x : String) : Layout { env with dollar := some x } :=
  ⟨h.unit, h.opcodeBinary, h.opcode, h.keyLen, h.extrasLen, h.totalLen, h.valueLen⟩

theorem lvalue_dollar {x : String} {t : SpecType} {ty : CType} (hdollar : env.dollar = some x)
    (hx : env.members x = some ty) (ht : cType t = some ty) :
    lvalue env (.parserState (.dollarDollar t)) = some (x, ty) := by
  simp [lvalue, hdollar, hx, ht]

theorem assign_self (hunit : env.unit = "MemcachedCommand") {x : String} {w : Nat}
    (hx : env.members x = some (.int ⟨w, false⟩)) {e : Expr} {t : IntTy} {v : Int}
    (ht : typeOf env e = some (.int t)) (he : eval env e m = some (.int v, m)) :
    eval env (.selfAssign "MemcachedCommand" x e) m = some (.int (IntTy.wrap ⟨w, false⟩ v),
      Function.update m x { m x with int := IntTy.wrap ⟨w, false⟩ v }) := by
  change assignTo (lvalue env (self x)) (typeOf env e) (eval env e) m = _
  rw [lvalue_self hunit hx, ht]
  simp [assignTo, he, CType.accepts, CType.arith, assignMember, Cell.store, Value.convert,
    CType.convert, Cell.read]

theorem run_serialize {x : String} {ty : CType} (hx : env.members x = some ty) {e : Expr}
    {r : Value × UnitMemory} (he : eval { env with dollar := some x } e m = some r) :
    (Update.serialize x e).run env m = some r.2 := by
  simp [Update.run, hx, he]

/-- Serializing `value_len` restores `total_len`. -/
theorem valueLen_balanced (h : Layout env)
    (hlen : unsigned m 32 "value_len" = (unsigned m 32 "total_len" -
      (unsigned m 8 "extras_len" + unsigned m 16 "key_len")) % 2 ^ 32) :
    Balanced env m (.serialize "value_len" valueLenSerialize) := by
  have h' := h.withDollar "value_len"
  obtain ⟨htype, heval⟩ :=
    eval_plus_lengths (m := m) h'.unit h'.keyLen h'.extrasLen (by omega) (by omega)
  have hdollar : lvalue { env with dollar := some "value_len" }
      (.parserState (.dollarDollar uint32)) = some ("value_len", .int ⟨32, false⟩) :=
    lvalue_dollar rfl h.valueLen rfl
  have hcommon : arithType (.int .int) (.int ⟨32, false⟩) = some ⟨32, false⟩ := rfl
  have hsumType : typeOf { env with dollar := some "value_len" }
      (.binary .plus (.binary .plus (self "key_len") (self "extras_len"))
        (.parserState (.dollarDollar uint32))) = some (.int ⟨32, false⟩) := by
    change (typeOf _ _).bind (fun ta => ((lvalue _ _).map (·.2)).bind _) = _
    rw [htype, hdollar]
    rfl
  have hsum : eval { env with dollar := some "value_len" }
      (.binary .plus (.binary .plus (self "key_len") (self "extras_len"))
        (.parserState (.dollarDollar uint32))) m =
      some (.int (IntTy.wrap ⟨32, false⟩ (IntTy.wrap ⟨32, false⟩
        (unsigned m 16 "key_len" + unsigned m 8 "extras_len") + unsigned m 32 "value_len")), m) := by
    change strict .plus (typeOf _ _) ((lvalue _ _).map (·.2)) (eval _ _) (load (lvalue _ _)) m = _
    rw [htype, hdollar]
    simp only [strict, Option.map_some, Option.bind_some, heval, load, Cell.read, CType.convert,
      Value.toInt, combine, hcommon, IntTy.result, Bool.false_eq_true, if_false, IntTy.wrap_wrap,
      unsigned]
  have hrestored : IntTy.wrap ⟨32, false⟩ (IntTy.wrap ⟨32, false⟩ (IntTy.wrap ⟨32, false⟩
      (unsigned m 16 "key_len" + unsigned m 8 "extras_len") + unsigned m 32 "value_len")) =
      IntTy.wrap ⟨32, false⟩ (m "total_len").int := by
    rw [hlen]
    simp only [unsigned, IntTy.wrap_unsigned]
    norm_num
    omega
  exact ⟨_, run_serialize h.valueLen (assign_self h'.unit h'.totalLen hsumType hsum),
    agree_update_same h.totalLen hrestored⟩

/-- Serializing `opcode` restores `opcode_binary`. -/
theorem opcode_balanced (h : Layout env)
    (hopcode : IntTy.int.wrap (m "opcode").int = unsigned m 8 "opcode_binary") :
    Balanced env m (.serialize "opcode" opcodeSerialize) := by
  have h' := h.withDollar "opcode"
  have hdollar : lvalue { env with dollar := some "opcode" }
      (.parserState (.dollarDollar (.enum opCode))) = some ("opcode", .enum "MemcachedOpCode") :=
    lvalue_dollar rfl h.opcode rfl
  have hload : eval { env with dollar := some "opcode" }
      (.parserState (.dollarDollar (.enum opCode))) m =
        some (.int (unsigned m 8 "opcode_binary"), m) := by
    change load (lvalue _ _) m = _
    rw [hdollar, ← hopcode]
    rfl
  have hcast : eval { env with dollar := some "opcode" }
      (.binary .cast (.parserState (.dollarDollar (.enum opCode))) (.type uint8)) m =
        some (.int (unsigned m 8 "opcode_binary"), m) := by
    change castTo (some (.int ⟨8, false⟩)) ((lvalue _ _).map (·.2)) (eval _ _) m = _
    rw [hdollar]
    simp only [castTo, Option.map_some, Option.bind_some, CType.isScalar, if_true, hload,
      Value.convert, CType.convert, unsigned, IntTy.wrap_wrap]
  -- the opcode byte is never the value of `UNDEF`
  have hguard : eval { env with dollar := some "opcode" }
      (.unary .not (.binary .equal (.parserState (.dollarDollar (.enum opCode)))
        (.constant (.enum opCode "UNDEF")))) m = some (ofBool true, m) := by
    have hne : unsigned m 8 "opcode_binary" ≠ -1 := by
      have := IntTy.wrap_unsigned_nonneg 8 (m "opcode_binary").int
      unfold unsigned
      omega
    change choose (some .bool) (some .bool)
      (strict .equal ((lvalue _ _).map (·.2)) (some (.enum "MemcachedOpCode")) (eval _ _)
        (literal (some (.int (-1))))) _ _ m = _
    rw [hdollar]
    simp [choose, test, CType.arith, strict, hload, literal, Value.toInt, combine, CType.isScalar,
      ofBool, hne, Value.convert, CType.convert]
  have hassign := assign_self h'.unit h'.opcodeBinary rfl hcast
  have heval : eval { env with dollar := some "opcode" } opcodeSerialize m =
      some (.int (IntTy.int.wrap (IntTy.wrap ⟨8, false⟩ (unsigned m 8 "opcode_binary"))),
        Function.update m "opcode_binary" { m "opcode_binary" with
          int := IntTy.wrap ⟨8, false⟩ (unsigned m 8 "opcode_binary") }) := by
    have htype : typeOf { env with dollar := some "opcode" } (.conditionalThen
        (.unary .not (.binary .equal (.parserState (.dollarDollar (.enum opCode)))
          (.constant (.enum opCode "UNDEF"))))
        (.selfAssign "MemcachedCommand" "opcode_binary"
          (.binary .cast (.parserState (.dollarDollar (.enum opCode))) (.type uint8)))) =
        some (.int .int) := by
      change (((lvalue _ (self "opcode_binary")).map (·.2)).bind fun ta =>
        conditionalType ta (.int .int)) = _
      rw [lvalue_self h'.unit h'.opcodeBinary]
      rfl
    change choose (some .bool) (typeOf _ (.conditionalThen _ _)) (eval _ _) (eval _ _) _ m = _
    rw [htype]
    simp [choose, test, CType.arith, hguard, ofBool, Value.toInt, hassign, Value.convert,
      CType.convert]
  exact ⟨_, run_serialize h.opcode heval, agree_update_same h.opcodeBinary (by simp [unsigned])⟩

end Variables

/-- The variables of `MemcachedCommand`, with what follows them. -/
theorem command_opcode : command.items = command.items.take 3 ++ .var
    { id := "opcode", type := .enum opCode,
      attributes := [⟨"parse", some opcodeParse⟩, ⟨"serialize", some opcodeSerialize⟩] } ::
      command.items.drop 4 := rfl

theorem command_valueLen : command.items = command.items.take 11 ++ .var
    { id := "value_len", type := uint32,
      attributes := [⟨"parse", some valueLenParse⟩, ⟨"serialize", some valueLenSerialize⟩] } ::
      command.items.drop 12 := rfl

/-- No update changes a parsed command. -/
theorem command_balanced (h : Describes o command memory m command.items p q) :
    ∀ a ∈ updates command, Balanced (unitEnv o command) m a := by
  have hlayout := command_layout o
  have hserialize : serializeUpdates command.items =
      [.serialize "opcode" opcodeSerialize, .serialize "value_len" valueLenSerialize] := rfl
  intro a ha
  rw [updates, hserialize, List.mem_append, List.mem_cons, List.mem_singleton] at ha
  rcases ha with hlength | rfl | rfl
  · exact lengthUpdates_balanced (command_flat o) h a hlength
  · rw [command_opcode] at h
    obtain ⟨ty, val, hty, hval, hread⟩ := h.var_mem opcodeParse rfl rfl (by decide)
    exact opcode_balanced hlayout (opcode_parsed hlayout hty hval hread)
  · rw [command_valueLen] at h
    obtain ⟨ty, val, hty, hval, hread⟩ := h.var_mem valueLenParse rfl rfl (by decide)
    exact valueLen_balanced hlayout (valueLen_parsed hlayout hty hval hread)

variable {parser : Parser} {serializer : Serializer}

/-- Every command that is parsed is serialized to the bytes it was parsed from. -/
theorem command_roundTrip (hp : ParserGenerator.run o command = some parser)
    (hs : SerializerGenerator.run o command = some serializer) {inBufStart inBufEnd : Int}
    (hle : inBufStart ≤ inBufEnd) (hsize : inBufEnd - inBufStart < 2 ^ 63) {w w' : ParserWorld}
    (hfresh : w.state.instruction = none)
    (hparse : parser.parse memory inBufStart inBufEnd w = some (.done, w')) {unit : Nat}
    (hunit : w'.state.peek = some unit) {ws : SerializerWorld} (hheap : ws.heap = w'.heap)
    (hsfresh : ws.state.instruction = none)
    (hspace : Runtime.ParserState.blockSize < ws.state.space) {outBufStart outBufEnd : Int}
    (hroom : outBufStart + w'.bytesRead ≤ outBufEnd)
    (hosize : outBufEnd - outBufStart < 2 ^ 63) :
    ∃ ws', serializer.serialize memory unit outBufStart outBufEnd ws = some (.done, ws') ∧
      ws'.bytesWritten = w'.bytesRead ∧
      ws'.out = blit ws.out outBufStart (slice memory inBufStart w'.bytesRead.toNat) := by
  have hflat := command_flat o
  obtain ⟨unit', n, hunit', hread, -, hdesc⟩ := parse_describes hflat.toSupported hp
    (command_ordered o) hflat.smallLengths hle hsize hfresh hparse
  obtain rfl : unit' = unit := by simpa [hunit] using hunit'.symm
  rw [hread] at hroom ⊢
  rw [← hheap] at hdesc
  exact serialize_described hflat.toSupported hs hdesc (command_lossless o)
    (command_balanced hdesc) hsfresh hspace hroom hosize

theorem command_roundTrip_getRequest :
    ∃ parser serializer w' ws', ParserGenerator.run {} command = some parser ∧
      SerializerGenerator.run {} command = some serializer ∧
      parser.parse (holding getRequest) 0 29 (.fresh 4096 64 (by decide)) = some (.done, w') ∧
      w'.bytesRead = 29 ∧
      serializer.serialize (holding getRequest) 0 0 64 (.fresh w'.heap 64) = some (.done, ws') ∧
      ws'.bytesWritten = 29 ∧ ws'.out = blit (fun _ => 0) 0 getRequest := by
  obtain ⟨parser, hp⟩ : ∃ parser, ParserGenerator.run {} command = some parser :=
    Option.isSome_iff_exists.mp (by decide)
  obtain ⟨serializer, hs⟩ : ∃ serializer, SerializerGenerator.run {} command = some serializer :=
    Option.isSome_iff_exists.mp (by decide)
  have hrun : ((ParserGenerator.run {} command).bind fun parser =>
      (parser.parse (holding getRequest) 0 29 (.fresh 4096 64 (by decide))).map
        fun r => (r.1, r.2.bytesRead, r.2.state.peek)) = some (.done, 29, some 0) := by
    decide +kernel
  rw [hp, Option.bind_some] at hrun
  obtain ⟨⟨r, w'⟩, hparse, hres⟩ := Option.map_eq_some_iff.mp hrun
  simp only [Prod.mk.injEq] at hres
  obtain ⟨rfl, hread, hpeek⟩ := hres
  have hroom : (0 : Int) + w'.bytesRead ≤ 64 := by
    rw [hread]
    decide
  obtain ⟨ws', hser, hwritten, hout⟩ := command_roundTrip hp hs (by decide) (by decide) rfl hparse
    hpeek rfl rfl (SerializerWorld.fresh_space w'.heap 64 (by decide)) hroom (by decide)
  refine ⟨parser, serializer, w', ws', hp, hs, hparse, hread, hser, by rw [hwritten, hread], ?_⟩
  rw [hout, hread]
  rfl

end Diffingo.Memcached
