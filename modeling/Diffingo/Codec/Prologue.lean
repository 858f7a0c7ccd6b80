import Diffingo.Codec.Wire

/-!
# The unlabelled code of the serializer

Before the first instruction the serializer writes the lengths of bytes fields back and evaluates
the `serialize` expressions of the variables. This is a sequence of updates of the unit; neither the
output nor the room in it matters.
-/

namespace Diffingo.Codec

open CInteger ByteMemory Resumable Diffingo.Spec Diffingo.Runtime Diffingo.Generation

/-- An update of the unit before it is written. -/
inductive Update
  /-- The length of the bytes field `x` is assigned to `e`. -/
  | length (x : String) (e : Expr)
  /-- The `serialize` expression `e` of the variable `x` is evaluated. -/
  | serialize (x : String) (e : Expr)
  deriving DecidableEq

namespace Update

def code : Update → List SerializeStmt
  | .length x e => [.srcField x, .updateLength e]
  | .serialize x e => [.setDollar x, .expression e]

def run (env : Env) : Update → UnitMemory → Option UnitMemory
  | .length x e, m =>
    (env.members x).bind fun ty =>
      if ty.isVarBytes then
        (assignTo (lvalue env e) (some (.int .sizeT)) (literal (some (.int (m x).len_))) m).map (·.2)
      else none
  | .serialize x e, m =>
    (env.members x).bind fun _ => (eval { env with dollar := some x } e m).map (·.2)

end Update

def runUpdates (env : Env) : List Update → UnitMemory → Option UnitMemory
  | [], m => some m
  | a :: as, m => (a.run env m).bind (runUpdates env as)

/-- The length update of a field that the application can change. -/
def lengthUpdate (f : AtomicField) : Option Update :=
  if (f.serialized = .bytes || f.serialized = .string) && f.applicationAccessible then
    match f.length with
    | some (.binary .attribute a b) => some (.length f.id (.binary .attribute a b))
    | _ => none
  else none

def lengthUpdates (items : List Item) : List Update :=
  items.filterMap fun
    | .field f => lengthUpdate f
    | _ => none

def serializeUpdates (items : List Item) : List Update :=
  items.filterMap fun
    | .var v => ((lookupAttribute v.attributes "serialize").bind (·.value)).map (.serialize v.id)
    | _ => none

/-- The updates of a unit, in order. -/
def updates (u : UnitType) : List Update := lengthUpdates u.items ++ serializeUpdates u.items

theorem updateLengths_code (items : List Item) :
    SerializerGenerator.updateLengths items = (lengthUpdates items).flatMap Update.code := by
  induction items with
  | nil => rfl
  | cons i rest ih =>
    cases i with
    | field f =>
      have hf : SerializerGenerator.updateLengthForField f =
          ((lengthUpdate f).map Update.code).getD [] := by
        unfold SerializerGenerator.updateLengthForField lengthUpdate
        split
        · split <;> simp_all [Update.code]
        · rfl
      cases h : lengthUpdate f <;>
        simp [SerializerGenerator.updateLengths, lengthUpdates, ih, hf, h]
    | _ => simpa [SerializerGenerator.updateLengths, lengthUpdates] using ih

theorem visitVariables_code {items : List Item} {ss : List SerializeStmt}
    (h : SerializerGenerator.visitVariables items = some ss) :
    ss = (serializeUpdates items).flatMap Update.code := by
  induction items generalizing ss with
  | nil =>
    cases h
    rfl
  | cons i rest ih =>
    cases i with
    | var v =>
      obtain ⟨b, hb, h⟩ := Option.bind_eq_some_iff.mp h
      obtain ⟨ss', hss', rfl⟩ := Option.map_eq_some_iff.mp h
      rw [ih hss']
      unfold SerializerGenerator.visitVariable at hb
      split at hb
      · rename_i a ha
        obtain ⟨e, he, rfl⟩ := Option.map_eq_some_iff.mp hb
        simp [serializeUpdates, ha, he, Update.code]
      · rename_i ha
        cases hb
        simp [serializeUpdates, ha]
    | _ => simpa [serializeUpdates] using ih h

section Run

variable {cx : SerializerContext} {outBufEnd : Int}

theorem run_length_code (hdollar : cx.env.dollar = none) (x : String) (e : Expr)
    (rest : List SerializeStmt) {l : SerializeLocals} (hl : l.dollar = none) (d : SerializerData) :
    runSerializeBody cx outBufEnd ((Update.length x e).code ++ rest) l d =
      ((Update.length x e).run cx.env d.unit).bind fun m =>
        runSerializeBody cx outBufEnd rest { l with serializeSrc := some (.field x) }
          ⟨m, d.out, d.pos⟩ := by
  have henv : { cx.env with dollar := none } = cx.env := by rw [← hdollar]
  cases hx : cx.env.members x with
  | none => simp [Update.code, Update.run, runSerializeBody, SerializeStmt.run, hx]
  | some ty =>
    cases hty : ty.isVarBytes <;>
      simp [Update.code, Update.run, runSerializeBody, SerializeStmt.run, hx, hty, hl, henv,
        SerializeLocals.bytesSrc, BytesView.fits, Option.bind_map]

theorem run_serialize_code (x : String) (e : Expr) (rest : List SerializeStmt)
    (l : SerializeLocals) (d : SerializerData) :
    runSerializeBody cx outBufEnd ((Update.serialize x e).code ++ rest) l d =
      ((Update.serialize x e).run cx.env d.unit).bind fun m =>
        runSerializeBody cx outBufEnd rest { l with dollar := some x } ⟨m, d.out, d.pos⟩ := by
  cases hx : cx.env.members x <;>
    simp [Update.code, Update.run, runSerializeBody, SerializeStmt.run, hx, Option.bind_map]

/-- The unlabelled code performs its updates and touches nothing else. -/
theorem run_updates (hdollar : cx.env.dollar = none) {as bs : List Update}
    (has : ∀ a ∈ as, ∃ x e, a = .length x e) (hbs : ∀ b ∈ bs, ∃ x e, b = .serialize x e)
    {l : SerializeLocals} (hl : l.dollar = none) (d : SerializerData) :
    runSerializeBody cx outBufEnd ((as ++ bs).flatMap Update.code) l d =
      (runUpdates cx.env (as ++ bs) d.unit).map fun m => .next ⟨m, d.out, d.pos⟩ := by
  have hserialize : ∀ l d, runSerializeBody cx outBufEnd (bs.flatMap Update.code) l d =
      (runUpdates cx.env bs d.unit).map fun m => .next ⟨m, d.out, d.pos⟩ := by
    clear has
    induction bs with
    | nil => exact fun l d => rfl
    | cons b bs ih =>
      intro l d
      obtain ⟨x, e, rfl⟩ := hbs b (by simp)
      rw [List.flatMap_cons, run_serialize_code, runUpdates, Option.map_bind]
      congr 1
      funext m
      exact ih (fun c hc => hbs c (List.mem_cons_of_mem _ hc)) _ _
  induction as generalizing l d with
  | nil => exact hserialize l d
  | cons a as ih =>
    obtain ⟨x, e, rfl⟩ := has a (by simp)
    rw [List.cons_append, List.flatMap_cons, run_length_code hdollar x e _ hl, runUpdates,
      Option.map_bind]
    congr 1
    funext m
    refine ih (fun c hc => has c (List.mem_cons_of_mem _ hc)) ?_ ⟨m, d.out, d.pos⟩
    exact hl

end Run

theorem lengthUpdates_length (items : List Item) :
    ∀ a ∈ lengthUpdates items, ∃ x e, a = .length x e := by
  intro a ha
  obtain ⟨i, -, hi⟩ := List.mem_filterMap.mp ha
  split at hi
  · rename_i f
    unfold lengthUpdate at hi
    split at hi
    · split at hi
      · exact ⟨_, _, (Option.some.inj hi).symm⟩
      · cases hi
    · cases hi
  · cases hi

theorem serializeUpdates_serialize (items : List Item) :
    ∀ a ∈ serializeUpdates items, ∃ x e, a = .serialize x e := by
  intro a ha
  obtain ⟨i, -, hi⟩ := List.mem_filterMap.mp ha
  split at hi
  · obtain ⟨e, -, rfl⟩ := Option.map_eq_some_iff.mp hi
    exact ⟨_, e, rfl⟩
  · cases hi

/-- A call from the beginning performs the updates and then runs the instructions. -/
theorem start_eq {o : Options} {u : UnitType} {s : Serializer}
    (hs : SerializerGenerator.run o u = some s) (input : Memory) (outBufEnd : Int)
    (d : SerializerData) :
    s.start input outBufEnd d = (runUpdates (unitEnv o u) (updates u) d.unit).bind fun m =>
      Resumable.run (serializerSemantics ⟨unitEnv o u, input⟩) outBufEnd s.code none
        ⟨m, d.out, d.pos⟩ := by
  obtain ⟨vars, hvars, h⟩ := Option.bind_eq_some_iff.mp hs
  obtain ⟨code, hcode, rfl⟩ := Option.map_eq_some_iff.mp h
  have hpro : SerializerGenerator.updateLengths u.items ++ vars =
      (updates u).flatMap Update.code := by
    rw [updates, List.flatMap_append, ← updateLengths_code, ← visitVariables_code hvars]
  have hrun : runSerializeBody ⟨unitEnv o u, input⟩ outBufEnd ((updates u).flatMap Update.code) {} d =
      (runUpdates (unitEnv o u) (updates u) d.unit).map fun m => .next ⟨m, d.out, d.pos⟩ :=
    run_updates rfl (lengthUpdates_length u.items) (serializeUpdates_serialize u.items) rfl d
  simp only [Serializer.start, Serializer.context, hpro, hrun]
  cases runUpdates (unitEnv o u) (updates u) d.unit <;> rfl

end Diffingo.Codec
