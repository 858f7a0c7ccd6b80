import Diffingo.Codec.Incremental
import Diffingo.Codec.Reading

/-!
# Parse, then serialize

A parsed unit describes the bytes that were read, and its encoding is these bytes. Before the
serializer writes the encoding it updates the unit. The updates of a parsed unit store what is
there already, so the serializer writes the bytes the parser has read.
-/

namespace Diffingo.Codec

open CInteger ByteMemory Resumable Diffingo.Spec Diffingo.Runtime Diffingo.Generation

/-! ## Two structs -/

/-- The members that an update names. -/
def Update.names : Update → List String
  | .length x e | .serialize x e => x :: e.members

section Structs

variable {env env' : Env} {S : Set String} {m m' : UnitMemory}

theorem fieldWire_same (hsame : env.Same env' S) {x : String} (hx : x ∈ S) (h : Agree env S m m')
    (input : Memory) (k : FieldKind) :
    fieldWire env input k x m = fieldWire env' input k x m' := by
  unfold fieldWire
  rw [hsame.members x hx]
  cases hty : env.members x with
  | none => rfl
  | some ty => simp [h x hx ty hty]

/-- An update that names members of both structs has the same effect on both units. -/
theorem Update.run_same (hsame : env.Same env' S) {a : Update} (ha : ∀ x ∈ a.names, x ∈ S)
    (h : Agree env S m m') : Option.Rel (Agree env S) (a.run env m) (a.run env' m') := by
  cases a with
  | length x e =>
    have hx : x ∈ S := ha x List.mem_cons_self
    have he : ∀ y ∈ e.members, y ∈ S := fun y hy => ha y (List.mem_cons_of_mem x hy)
    simp only [Update.run, hsame.members x hx, lvalue_same hsame he]
    cases hty : env.members x with
    | none => exact .none
    | some ty =>
      simp only [Option.bind_some]
      split
      · rename_i hbytes
        have hlen : (m x).len_ = (m' x).len_ := by
          have := h x hx ty hty
          rw [read_bytes hbytes, read_bytes hbytes] at this
          simp only [Option.some.injEq, Value.bytes.injEq] at this
          exact this.1
        rw [hlen]
        exact rel_map_rel (assignTo_related (fun p hp => (lvalue_spec hp).1) _
          (literal_related _) m m' h) fun p q hpq => hpq.2
      · exact .none
  | serialize x e =>
    have hx : x ∈ S := ha x List.mem_cons_self
    have he : ∀ y ∈ e.members, y ∈ S := fun y hy => ha y (List.mem_cons_of_mem x hy)
    have hdollar : Env.Same { env with dollar := some x } { env' with dollar := some x } S :=
      ⟨hsame.unit, rfl, fun y hy => Option.some.inj hy ▸ hx, hsame.members⟩
    simp only [Update.run, hsame.members x hx]
    exact rel_bind_same fun _ =>
      rel_map_rel (eval_related hdollar he m m' h) fun p q hpq => hpq.2

theorem runUpdates_same (hsame : env.Same env' S) {as : List Update}
    (has : ∀ a ∈ as, ∀ x ∈ a.names, x ∈ S) (h : Agree env S m m') :
    Option.Rel (Agree env S) (runUpdates env as m) (runUpdates env' as m') := by
  induction as generalizing m m' with
  | nil => exact .some h
  | cons a as ih =>
    exact rel_bind (Update.run_same hsame (has a List.mem_cons_self) h) fun _ _ h' =>
      ih (fun b hb => has b (List.mem_cons_of_mem a hb)) h'

theorem select_same (hsame : env.Same env' S) {g : SwitchGuard}
    (hg : ∀ x ∈ g.expression.members, x ∈ S) (h : Agree env S m m') :
    Option.Rel (fun r r' => r.2 = r'.2 ∧ Agree env S r.1 r'.1) (g.select env m)
      (g.select env' m') := by
  unfold SwitchGuard.select
  rw [typeOf_same hsame hg]
  refine rel_bind_same fun ty => ?_
  split
  · refine rel_bind (eval_related hsame hg m m' h) fun r r' hr => ?_
    rw [hr.1]
    exact rel_map fun _ => ⟨rfl, hr.2⟩
  · exact .none

end Structs

/-! ## One struct -/

section Agree

variable {env : Env} {m m' : UnitMemory}

theorem same_univ (env : Env) : env.Same env Set.univ :=
  ⟨rfl, rfl, fun _ _ => trivial, fun _ _ => rfl⟩

theorem fieldsWire_agree {o : Options} {u : UnitType} (h : Agree (unitEnv o u) Set.univ m m')
    (input : Memory) (fs : List AtomicField) :
    fieldsWire o u input fs m = fieldsWire o u input fs m' := by
  induction fs with
  | nil => rfl
  | cons f fs ih => simp only [fieldsWire, ih, fieldWire_same (same_univ _) trivial h]

theorem switchCase_related {o : Options} {u : UnitType} (h : Agree (unitEnv o u) Set.univ m m')
    (e : Expr) (s : Switch) :
    Option.Rel (fun p q => p.2 = q.2 ∧ Agree (unitEnv o u) Set.univ p.1 q.1)
      (switchCase o u e s m) (switchCase o u e s m') :=
  rel_map_rel (select_same (same_univ _) (fun _ _ => trivial) h) fun _ _ hpq => ⟨by rw [hpq.1], hpq.2⟩

/-- The encoding depends on the values of the members only. -/
theorem unitWire_related {o : Options} {u : UnitType} (input : Memory) (items : List Item)
    (h : Agree (unitEnv o u) Set.univ m m') :
    Option.Rel (fun p q => p.1 = q.1 ∧ Agree (unitEnv o u) Set.univ p.2 q.2)
      (unitWire o u input items m) (unitWire o u input items m') := by
  induction items generalizing m m' with
  | nil => exact .some ⟨rfl, h⟩
  | cons i rest ih =>
    cases i with
    | property a => exact ih h
    | var v => exact ih h
    | field f =>
      simp only [unitWire, fieldsWire_agree h]
      exact rel_bind_same fun bs => rel_map_rel (ih h) fun p q hpq => ⟨by rw [hpq.1], hpq.2⟩
    | switch s =>
      simp only [unitWire]
      split
      · exact ih h
      · refine rel_bind (switchCase_related h _ s) fun p q hpq => ?_
        rw [hpq.1, fieldsWire_agree hpq.2]
        exact rel_bind_same fun bs => rel_map_rel (ih hpq.2) fun x y hxy => ⟨by rw [hxy.1], hxy.2⟩

/-- An update that stores what is there already. -/
def Balanced (env : Env) (m : UnitMemory) (a : Update) : Prop :=
  ∃ m', a.run env m = some m' ∧ Agree env Set.univ m m'

theorem runUpdates_balanced {as : List Update} (h : ∀ a ∈ as, Balanced env m a) :
    ∃ m', runUpdates env as m = some m' ∧ Agree env Set.univ m m' := by
  induction as with
  | nil => exact ⟨m, rfl, .refl _ _ _⟩
  | cons a as ih =>
    obtain ⟨m₁, hrun, hagree⟩ := h a (by simp)
    obtain ⟨m₂, hrest, hagree₂⟩ := ih fun b hb => h b (List.mem_cons_of_mem _ hb)
    have hrel := runUpdates_same (same_univ env)
      (fun b (_ : b ∈ as) _ _ => trivial) hagree
    rw [hrest] at hrel
    generalize hm₃ : runUpdates env as m₁ = r at hrel
    cases hrel with
    | @some _ m₃ h₃ => exact ⟨m₃, by simp [runUpdates, hrun, hm₃], hagree₂.trans h₃⟩

end Agree

section Described

variable {o : Options} {u : UnitType} {p : Parser} {s : Serializer} {memory : Memory}

/-- A unit that describes `n` bytes, with balanced updates, is serialized to these bytes. -/
theorem serialize_described (hu : Supported o u) (hs : SerializerGenerator.run o u = some s)
    {ws : SerializerWorld} {unit : Nat} {inBufStart : Int} {n : Nat}
    (hdesc : Describes o u memory (ws.heap unit) u.items inBufStart (inBufStart + n))
    (hloss : ∀ i ∈ u.items, ∀ f ∈ i.fields, ∀ k ∈ fieldKind o u f, k.Lossless)
    (hbal : ∀ a ∈ updates u, Balanced (unitEnv o u) (ws.heap unit) a)
    (hfresh : ws.state.instruction = none)
    (hspace : Runtime.ParserState.blockSize < ws.state.space) {outBufStart outBufEnd : Int}
    (hroom : outBufStart + n ≤ outBufEnd) (hsize : outBufEnd - outBufStart < 2 ^ 63) :
    ∃ ws', s.serialize memory unit outBufStart outBufEnd ws = some (.done, ws') ∧
      ws'.bytesWritten = n ∧ ws'.out = blit ws.out outBufStart (slice memory inBufStart n) := by
  obtain ⟨n', hn', hwire⟩ := hdesc.wire (fun i hi f hf => hu.declared hi hf) hloss
  obtain rfl : n' = n := by omega
  obtain ⟨m, hup, hagree⟩ := runUpdates_balanced hbal
  have hrel := unitWire_related memory u.items hagree
  rw [hwire] at hrel
  generalize hr : unitWire o u memory u.items m = r at hrel
  cases hrel with
  | @some _ q hq =>
    obtain ⟨bs, m'⟩ := q
    obtain rfl : slice memory inBufStart n' = bs := hq.1
    obtain ⟨-, -, -, hcode⟩ := serializer_code_ok hu hs
    obtain ⟨w₁, -, -, hstart⟩ := serialize_fresh memory outBufStart hs hfresh hspace hup
    obtain ⟨l, hrun⟩ := run_serialize_items
      (fun i hi f hf => hu.declared hi hf) hcode (d := ⟨m, ws.out, outBufStart⟩) hr
      (by simpa using hroom) hsize none
    refine ⟨_, by rw [hstart, hrun]; rfl, by simp, rfl⟩

/-- A completed call from the beginning leaves a unit that describes what it has read. -/
theorem parse_describes (hu : Supported o u) (hp : ParserGenerator.run o u = some p)
    (hord : ItemsOrdered o u u.items) (hsmall : ∀ i ∈ u.items, SmallLengths o u i.fields)
    {inBufStart inBufEnd : Int} (hle : inBufStart ≤ inBufEnd)
    (hsize : inBufEnd - inBufStart < 2 ^ 63) {w w' : ParserWorld}
    (hfresh : w.state.instruction = none)
    (hparse : p.parse memory inBufStart inBufEnd w = some (.done, w')) :
    ∃ unit, ∃ n : Nat, w'.state.peek = some unit ∧ w'.bytesRead = n ∧ inBufStart + n ≤ inBufEnd ∧
      Describes o u memory (w'.heap unit) u.items inBufStart (inBufStart + n) := by
  obtain ⟨code, hcode, rfl⟩ := Option.map_eq_some_iff.mp hp
  obtain ⟨unit, w₁, hunit, hrunEq⟩ := parse_fresh hfresh hparse (by decide)
  rw [hrunEq] at hparse
  obtain ⟨oc, hrun, hfin⟩ := Option.map_eq_some_iff.mp hparse
  cases oc with
  | stopped r l d =>
    rw [run_eq_runFrom] at hrun
    exact absurd (congrArg Prod.fst hfin) (parser_stopped_ne_done hrun)
  | done l d =>
    obtain rfl : (Parser.finish w₁ unit inBufStart (.done l d)).2 = w' := by rw [hfin]
    have hread := run_items_read (fun i hi f hf => hu.declared hi hf) hsmall hcode ⟨hle, hsize⟩ hrun
    obtain ⟨h₁, h₂⟩ := readItems_inside hle hread
    have hdesc := readItems_describes (fun i hi f hf => hu.declared hi hf) hu.distinct hord hsmall
      hread
    refine ⟨unit, (d.pos - inBufStart).toNat, hunit, ?_, by omega, ?_⟩
    · simp only [Parser.finish]
      omega
    · simpa [Parser.finish, Int.toNat_of_nonneg (sub_nonneg.mpr h₁)] using hdesc

end Described

section WriteBack

variable {o : Options} {u : UnitType} {memory : Memory} {m : UnitMemory}

theorem Describes.suffix {pre rest : List Item} {p q : Int}
    (h : Describes o u memory m (pre ++ rest) p q) : ∃ p', Describes o u memory m rest p' q := by
  induction pre generalizing p with
  | nil => exact ⟨p, h⟩
  | cons i pre ih => cases h <;> exact ih ‹_›

theorem Describes.field_mem {items : List Item} {p q : Int} (h : Describes o u memory m items p q)
    {f : AtomicField} (hf : Item.field f ∈ items) :
    ∃ k p' q', fieldKind o u f = some k ∧ FieldDescribes (unitEnv o u) memory m k f.id p' q' := by
  obtain ⟨pre, rest, rfl⟩ := List.append_of_mem hf
  obtain ⟨p', h⟩ := h.suffix
  cases h with
  | field hdesc _ =>
    cases hdesc with
    | cons hk hdesc _ => exact ⟨_, _, _, hk, hdesc⟩

theorem Describes.var_mem {pre rest : List Item} {v : Variable} {p q : Int}
    (h : Describes o u memory m (pre ++ .var v :: rest) p q) :
    VariableDescribes (unitEnv o u) m v (v.id :: memberIds rest) := by
  obtain ⟨p', h⟩ := h.suffix
  cases h with
  | var hdesc _ => exact hdesc

/-- A bytes field that the application can access is copied. -/
theorem fieldKind_accessible {f : AtomicField} {k : FieldKind} (hk : fieldKind o u f = some k)
    (hacc : f.applicationAccessible = true)
    (hser : f.serialized = .bytes ∨ f.serialized = .string) :
    ∃ e, f.length = some e ∧ k = .copy e := by
  unfold fieldKind at hk
  simp only [hacc, Bool.not_true, Bool.false_and, Bool.false_eq_true, if_false] at hk
  unfold AtomicField.serialized at hser
  split at hk
  · obtain ⟨e, he, rfl⟩ := Option.map_eq_some_iff.mp hk
    exact ⟨e, he, rfl⟩
  · obtain ⟨e, he, rfl⟩ := Option.map_eq_some_iff.mp hk
    exact ⟨e, he, rfl⟩
  · simp_all
  · simp_all
  · cases hk

/-- Storing the value that a member has already keeps the unit. -/
theorem agree_update_same {env : Env} {t : IntTy} {x : String} (hx : env.members x = some (.int t))
    {v : Int} (hv : t.wrap v = t.wrap (m x).int) :
    Agree env Set.univ m (Function.update m x { m x with int := t.wrap v }) := by
  intro y _ ty hty
  by_cases hy : y = x
  · subst hy
    obtain rfl : .int t = ty := Option.some.inj (hx.symm.trans hty)
    simp [Cell.read, CType.convert, hv]
  · simp [hy]

/-- Writing the length of a parsed field back stores the length it was parsed with. -/
theorem lengthUpdate_balanced {x f : String} {w : Nat} {ty : CType} {p q : Int} {env : Env}
    (hx : env.members x = some ty) (hty : ty.isVarBytes = true)
    (hf : env.members f = some (.int ⟨w, false⟩)) (hw : w ≤ 32)
    (h : FieldDescribes env memory m (.copy (.selfMember env.unit f)) x p q) :
    Balanced env m (.length x (.selfMember env.unit f)) := by
  obtain ⟨hlen, -⟩ := h
  rw [evalLength_member hf (by omega)] at hlen
  have hint : ((m x).len_ : Int) = IntTy.wrap ⟨w, false⟩ (m f).int := by
    have hnonneg := IntTy.wrap_unsigned_nonneg w (m f).int
    have := congrArg Prod.fst (Option.some.inj hlen)
    dsimp only at this
    omega
  refine ⟨_, ?_, agree_update_same hf rfl⟩
  simp [Update.run, hx, hty, assignTo, lvalue, hf, CType.accepts, CType.arith, literal,
    assignMember, Cell.store, Value.convert, CType.convert, Cell.read, hint]

/-- The length updates of a parsed flat unit change nothing. -/
theorem lengthUpdates_balanced (hu : Flat o u) {p q : Int}
    (h : Describes o u memory m u.items p q) :
    ∀ a ∈ lengthUpdates u.items, Balanced (unitEnv o u) m a := by
  intro a ha
  obtain ⟨i, hi, hia⟩ := List.mem_filterMap.mp ha
  split at hia
  · rename_i f
    unfold lengthUpdate at hia
    split at hia
    · rename_i hacc
      simp only [Bool.and_eq_true, Bool.or_eq_true, decide_eq_true_eq] at hacc
      obtain ⟨k, p', q', hk, hdesc⟩ := h.field_mem hi
      obtain ⟨e, he, rfl⟩ := fieldKind_accessible hk hacc.2 hacc.1
      have hplain : PlainLength (unitEnv o u) e :=
        hu.lengths _ hi f (by simp [Item.fields]) e (by simp [hk, FieldKind.length])
      obtain ⟨k', ty, hk', hty, hmem⟩ := hu.declared hi (f := f) (by simp [Item.fields])
      obtain rfl : k' = .copy e := by simpa [hk] using hk'.symm
      split at hia
      · rename_i a' b' hlen
        obtain rfl : e = .binary .attribute a' b' := by simpa [he] using hlen
        cases hia
        cases hplain with
        | member hx hw => exact lengthUpdate_balanced hty hmem hx hw hdesc
      · cases hia
    · cases hia
  · cases hia

/-- The units of the round trip: flat, with lossless casts, variables that are not serialized, and
no expression with side effects; the switch expressions and lengths depend on earlier members. -/
structure Invertible (o : Options) (u : UnitType) : Prop extends Flat o u where
  ordered : ItemsOrdered o u u.items
  lossless : ∀ i ∈ u.items, ∀ f ∈ i.fields, ∀ k ∈ fieldKind o u f, k.Lossless
  parsedOnly : ∀ v, Item.var v ∈ u.items → lookupAttribute v.attributes "serialize" = none

theorem Flat.smallLengths (hu : Flat o u) : ∀ i ∈ u.items, SmallLengths o u i.fields :=
  fun i hi f hf e he _ _ hr => ((hu.lengths i hi f hf e he).spec hr).1

theorem Invertible.updates_eq (hu : Invertible o u) : updates u = lengthUpdates u.items := by
  have hnone : serializeUpdates u.items = [] := by
    refine List.filterMap_eq_nil_iff.mpr fun i hi => ?_
    split
    · simp [hu.parsedOnly _ hi]
    · rfl
  rw [updates, hnone, List.append_nil]

variable {p : Parser} {s : Serializer}

def recordKind : EnumType where
  id := "RecordKind"
  labels := [("SHORT", 1), ("LONG", 2)]

/-- A record whose kind selects a number and whose body has a length. -/
def record : UnitType where
  id := "Record"
  items := [
    .field { id := "kind", type := .enum recordKind, serializedType := some (.integer 8 false),
             attributes := [⟨"transform_to", some (.type (.enum recordKind))⟩] },
    .field { id := "size", type := .integer 16 false },
    .var { id := "half", type := .integer 32 false,
           defaultValue := some (.binary .minus (.selfMember "Record" "size") (.int 1)) },
    .switch { id := "number", expression := some (.selfMember "Record" "kind"), cases := [
      { expressions := [.constant (.enum recordKind "SHORT")],
        items := [{ id := "short", type := .integer 16 true }] },
      { expressions := [], default_ := true,
        items := [{ id := "long", type := .integer 32 true }] }] },
    .field { id := "body", type := .bytes,
             attributes := [⟨"length", some (.selfMember "Record" "size")⟩] }]

theorem record_invertible : Invertible {} record where
  distinct := by decide
  kinds := by decide
  lengths := by decide
  ordered := by decide
  lossless i hi f hf k hk :=
    have hwidens : ∀ i ∈ record.items, ∀ f ∈ i.fields, ∀ k ∈ fieldKind {} record f,
        k.widens = true := by decide
    FieldKind.lossless_of_widens (hwidens i hi f hf k hk)
  parsedOnly := by simp [record, lookupAttribute]

/-- A unit whose variable overwrites a field that has been parsed. -/
def overwriting : UnitType where
  id := "Overwriting"
  items := [
    .field { id := "a", type := .integer 8 false },
    .var { id := "v", type := .integer 8 false,
           attributes := [⟨"parse", some (.selfAssign "Overwriting" "a" (.int 7))⟩] }]

end WriteBack

end Diffingo.Codec
