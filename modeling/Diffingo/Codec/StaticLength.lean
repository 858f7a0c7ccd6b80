import Diffingo.Codec.Incremental
import Diffingo.Codec.Reading

/-!
# Static lengths

`static_serialized_length` predicts the number of bytes a field takes from the input. For atomic
fields the prediction is right. For a switch it is the length of a case, while the parser reads
nothing if no case is entered; it also passes through a variable of type `int`, so that the length
of a large case is cut off.
-/

namespace Diffingo.Codec

open CInteger ByteMemory Resumable Diffingo.Spec Diffingo.Runtime Diffingo.Generation

/-! ## The lengths of fields -/

section Fields

variable {o : Options} {u : UnitType} {f : AtomicField} {k : FieldKind}

/-- The kinds of field that have a static length. -/
theorem fieldKind_static (hk : fieldKind o u f = some k) (hn : 0 ≤ f.staticSerializedLength) :
    (∃ t bo, (k = .int t bo ∨ ∃ ty, k = .cast t bo ty) ∧
      f.staticSerializedLength = (t.width / 8 : Nat)) ∨
    k = .copy (.int f.staticSerializedLength) ∨ k = .range (.int f.staticSerializedLength) := by
  -- the length of bytes and strings is static if it is a constant
  have hlength : ∀ ex, f.length = some ex → f.serialized = .bytes ∨ f.serialized = .string →
      ex = .int f.staticSerializedLength := by
    intro ex hex htype
    have htype' : ¬ f.serialized.staticSerializedLength ≥ 0 := by
      rcases htype with htype | htype <;> rw [htype] <;> decide
    unfold AtomicField.staticSerializedLength at hn ⊢
    dsimp only at hn ⊢
    rw [if_neg htype', hex] at hn ⊢
    split at hn
    · rename_i n heq
      simp_all
    · exact absurd hn (by decide)
  have hint : ∀ w s, f.serialized = .integer w s →
      f.staticSerializedLength = ((⟨w, s⟩ : IntTy).width / 8 : Nat) := by
    intro w s htype
    simp only [AtomicField.staticSerializedLength, htype, SpecType.staticSerializedLength]
    rw [if_pos (Int.natCast_nonneg _)]
  unfold fieldKind at hk
  split at hk
  · split at hk
    · rename_i hst hty
      obtain ⟨ex, hex, rfl⟩ := Option.map_eq_some_iff.mp hk
      rw [hlength ex hex (.inl (by simp [AtomicField.serialized, hst, hty]))]
      exact .inr (.inr rfl)
    · cases hk
  · split at hk
    · rename_i hst hty
      obtain ⟨ex, hex, rfl⟩ := Option.map_eq_some_iff.mp hk
      rw [hlength ex hex (.inl (by simp [AtomicField.serialized, hst, hty]))]
      exact .inr (.inl rfl)
    · rename_i hst hty
      obtain ⟨ex, hex, rfl⟩ := Option.map_eq_some_iff.mp hk
      rw [hlength ex hex (.inr (by simp [AtomicField.serialized, hst, hty]))]
      exact .inr (.inl rfl)
    · rename_i w s hst hty
      split at hk
      · obtain ⟨bo, -, rfl⟩ := Option.map_eq_some_iff.mp hk
        exact .inl ⟨_, bo, .inl rfl, hint w s (by simp [AtomicField.serialized, hst, hty])⟩
      · cases hk
    · rename_i w s hst
      split at hk
      · obtain ⟨bo, -, hk⟩ := Option.bind_eq_some_iff.mp hk
        obtain ⟨ty, -, hk⟩ := Option.bind_eq_some_iff.mp hk
        split at hk
        · cases hk
          exact .inl ⟨_, bo, .inr ⟨ty, rfl⟩, hint w s (by simp [AtomicField.serialized, hst])⟩
        · cases hk
      · cases hk
    · cases hk

theorem evalLength_static {env : Env} {n : Int} (hn : 0 ≤ n) {m : UnitMemory}
    {r : Nat × UnitMemory} (h : evalLength env (.int n) m = some r) : (r.1 : Int) = n ∧ r.1 < 2 ^ 63 := by
  obtain ⟨k, rfl⟩ := Int.eq_ofNat_of_zero_le hn
  rw [evalLength_constant] at h
  split at h
  · cases h
    exact ⟨rfl, by assumption⟩
  · cases h

theorem size_static (hk : fieldKind o u f = some k) (hn : 0 ≤ f.staticSerializedLength) {env : Env}
    {m : UnitMemory} {r : Nat × UnitMemory} (hr : k.size env m = some r) :
    (r.1 : Int) = f.staticSerializedLength := by
  rcases fieldKind_static hk hn with ⟨t, bo, hk | ⟨ty, hk⟩, hlen⟩ | hk | hk
  · subst hk
    cases hr
    exact hlen.symm
  · subst hk
    cases hr
    exact hlen.symm
  · rw [hk] at hr
    exact (evalLength_static hn hr).1
  · rw [hk] at hr
    exact (evalLength_static hn hr).1

theorem smallLength_static (hk : fieldKind o u f = some k) (hn : 0 ≤ f.staticSerializedLength)
    {ex : Expr} (hex : ex ∈ k.length) (env : Env) : SmallLength env ex := by
  intro m r hr
  rcases fieldKind_static hk hn with ⟨t, bo, hk | ⟨ty, hk⟩, -⟩ | hk | hk
  · subst hk
    cases hex
  · subst hk
    cases hex
  · rw [hk] at hex
    cases hex
    exact (evalLength_static hn hr).2
  · rw [hk] at hex
    cases hex
    exact (evalLength_static hn hr).2

theorem caseLength_nonneg {fs : List AtomicField} {n : Int} (h : Switch.caseLength fs = some n) :
    0 ≤ n := by
  induction fs generalizing n with
  | nil =>
    cases h
    exact le_refl 0
  | cons f fs ih =>
    unfold Switch.caseLength at h
    split at h
    · cases h
    · obtain ⟨k, hk, rfl⟩ := Option.map_eq_some_iff.mp h
      have := ih hk
      omega

theorem caseLength_mem {fs : List AtomicField} {n : Int} (h : Switch.caseLength fs = some n)
    (hf : f ∈ fs) : 0 ≤ f.staticSerializedLength := by
  induction fs generalizing n with
  | nil => cases hf
  | cons g fs ih =>
    unfold Switch.caseLength at h
    split at h
    · cases h
    · rename_i hg
      obtain ⟨k, hk, -⟩ := Option.map_eq_some_iff.mp h
      rcases List.mem_cons.mp hf with rfl | hf
      · omega
      · exact ih hk hf

/-- The fields of a case take as many bytes as its length says. -/
theorem readFields_static {memory : Memory} {e : Int} {fs : List AtomicField} {n : Int}
    (h : Switch.caseLength fs = some n) {m m' : UnitMemory} {p q : Int}
    (hread : (schema o u).readFields memory e fs m p = some (.next m' q)) : q - p = n := by
  induction fs generalizing n m p with
  | nil =>
    cases h
    cases hread
    omega
  | cons f fs ih =>
    unfold Switch.caseLength at h
    split at h
    · cases h
    · rename_i hf
      obtain ⟨k', hk', rfl⟩ := Option.map_eq_some_iff.mp h
      obtain ⟨k, hk, hread⟩ := Option.bind_eq_some_iff.mp hread
      obtain ⟨r, hr, hread⟩ := Option.bind_eq_some_iff.mp hread
      obtain ⟨x, hx, rfl⟩ := Option.map_eq_some_iff.mp hr
      have hlen := size_static hk (by omega) hx
      by_cases hshort : e - p < x.1
      · rw [if_pos hshort] at hread
        cases hread
      · rw [if_neg hshort] at hread
        have := ih hk' hread
        omega

end Fields

/-! ## The lengths of switches -/

section Switches

/-- One round of the loop over the cases. -/
theorem staticLengthLoop_cons {last : Option Int} {c : Case} {cs : List Case}
    (h : 0 ≤ Switch.staticLengthLoop last (c :: cs)) :
    ∃ n, Switch.caseLength c.items = some n ∧ (∀ l ∈ last, l = n) ∧
      Switch.staticLengthLoop last (c :: cs) =
        Switch.staticLengthLoop (some (IntTy.int.wrap n)) cs := by
  cases hn : Switch.caseLength c.items with
  | none =>
    simp only [Switch.staticLengthLoop, hn] at h
    exact absurd h (by decide)
  | some n =>
    cases last with
    | none => exact ⟨n, rfl, fun l hl => (by cases hl), by simp only [Switch.staticLengthLoop, hn]⟩
    | some l =>
      by_cases hl : l = n
      · subst hl
        refine ⟨l, rfl, fun l' hl' => (Option.some.inj hl').symm, ?_⟩
        simp only [Switch.staticLengthLoop, hn, ne_eq, not_true_eq_false, if_false]
      · simp only [Switch.staticLengthLoop, hn, ne_eq, hl, not_false_eq_true, if_true] at h
        exact absurd h (by decide)

theorem staticLengthLoop_known {last : Option Int} {cs : List Case}
    (h : 0 ≤ Switch.staticLengthLoop last cs) {c : Case} (hc : c ∈ cs) :
    ∃ n, Switch.caseLength c.items = some n := by
  induction cs generalizing last with
  | nil => cases hc
  | cons c' cs ih =>
    obtain ⟨n, hn, -, hloop⟩ := staticLengthLoop_cons h
    rcases List.mem_cons.mp hc with rfl | hc
    · exact ⟨n, hn⟩
    · exact ih (hloop ▸ h) hc

/-- A switch none of whose cases is too large for an `int` has cases of one length. -/
theorem staticLengthLoop_small {last : Option Int} {cs : List Case}
    (h : 0 ≤ Switch.staticLengthLoop last cs)
    (hsmall : ∀ c ∈ cs, ∀ n ∈ Switch.caseLength c.items, n < 2 ^ 31) :
    (∀ n ∈ last, n = Switch.staticLengthLoop last cs) ∧
      ∀ c ∈ cs, Switch.caseLength c.items = some (Switch.staticLengthLoop last cs) := by
  induction cs generalizing last with
  | nil =>
    refine ⟨fun n hn => ?_, fun c hc => by cases hc⟩
    rw [Option.mem_def.mp hn]
    rfl
  | cons c cs ih =>
    obtain ⟨n, hn, hlast, hloop⟩ := staticLengthLoop_cons h
    have hnonneg := caseLength_nonneg hn
    have hlt := hsmall c List.mem_cons_self n hn
    have hwrap : IntTy.int.wrap n = n := IntTy.wrap_signed_of_lt (by omega) (by push_cast; omega)
    rw [hloop] at h ⊢
    rw [hwrap] at h ⊢
    obtain ⟨hsame, hcases⟩ := ih h fun c' hc' => hsmall c' (List.mem_cons_of_mem c hc')
    have hn' := hsame n rfl
    refine ⟨fun l hl => (hlast l hl).trans hn', fun c' hc' => ?_⟩
    rcases List.mem_cons.mp hc' with rfl | hc'
    · rw [← hn', hn]
    · exact hcases c' hc'

/-- The case that a switch enters. -/
def entered (env : Env) (s : Switch) (m : UnitMemory) : Option Case :=
  s.expression.bind fun ex => ((switchGuard ex s).select env m).bind fun r => r.2.bind (s.cases[·]?)

/-- The switch enters a case of its static length, or none if this is zero. -/
def SwitchExact (env : Env) (m : UnitMemory) (s : Switch) : Prop :=
  match entered env s m with
  | some c => Switch.caseLength c.items = some s.staticSerializedLength
  | none => s.staticSerializedLength = 0

def SmallCases (s : Switch) : Prop := ∀ c ∈ s.cases, ∀ n ∈ Switch.caseLength c.items, n < 2 ^ 31

theorem entered_mem {env : Env} {s : Switch} {m : UnitMemory} {c : Case}
    (h : entered env s m = some c) : c ∈ s.cases := by
  obtain ⟨ex, -, h⟩ := Option.bind_eq_some_iff.mp h
  obtain ⟨r, -, h⟩ := Option.bind_eq_some_iff.mp h
  obtain ⟨i, -, h⟩ := Option.bind_eq_some_iff.mp h
  exact List.mem_of_getElem? h

theorem switchExact_iff {env : Env} {s : Switch} {m : UnitMemory}
    (hn : 0 ≤ s.staticSerializedLength) (hsmall : SmallCases s) :
    SwitchExact env m s ↔ (entered env s m).isSome = true ∨ s.staticSerializedLength = 0 := by
  unfold SwitchExact
  cases hc : entered env s m with
  | none => simp
  | some c => exact ⟨fun _ => .inl rfl, fun _ => (staticLengthLoop_small hn hsmall).2 c (entered_mem hc)⟩

/-- What a switch reads. -/
theorem readItem_switch {o : Options} {u : UnitType} {memory : Memory} {e : Int} {s : Switch}
    (hn : 0 ≤ s.staticSerializedLength) {m m' : UnitMemory} {p q : Int}
    (hread : (schema o u).readItem memory e (.switch s) m p = some (.next m' q)) :
    Switch.caseLength (((entered (unitEnv o u) s m).map (·.items)).getD []) = some (q - p) := by
  unfold Schema.readItem at hread
  cases he : s.expression with
  | none =>
    simp only [he, Option.some.injEq, Read.next.injEq] at hread
    obtain ⟨-, rfl⟩ := hread
    simp [entered, he, Switch.caseLength]
  | some ex =>
    simp only [he] at hread
    obtain ⟨⟨m₁, fs⟩, hsel, hread⟩ := Option.bind_eq_some_iff.mp hread
    obtain ⟨⟨m₂, i⟩, hguard, heq⟩ := Option.map_eq_some_iff.mp hsel
    cases heq
    change (switchGuard ex s).select (unitEnv o u) m = _ at hguard
    have hentered : entered (unitEnv o u) s m = i.bind (s.cases[·]?) := by
      simp [entered, he, hguard]
    have hfields : selectedFields s.cases i =
        ((entered (unitEnv o u) s m).map (·.items)).getD [] := by
      rw [hentered]
      rfl
    dsimp only at hread
    rw [hfields] at hread
    cases hc : entered (unitEnv o u) s m with
    | none =>
      rw [hc] at hread
      cases hread
      simp [Switch.caseLength]
    | some c =>
      obtain ⟨n, hlen⟩ := staticLengthLoop_known hn (entered_mem hc)
      rw [hc] at hread
      rw [readFields_static hlen hread]
      exact hlen

end Switches

/-! ## The lengths of units -/

section Units

variable {o : Options} {u : UnitType} {memory : Memory} {e : Int}

/-- The static length of an item; one that is not a field takes nothing from the input. -/
def itemLength (i : Item) : Int := i.staticSerializedLength.getD 0

/-- An item with the unit before it: a switch has to enter a case of its static length. -/
def ItemExact (env : Env) (m : UnitMemory) : Item → Prop
  | .switch s => SwitchExact env m s
  | _ => True

/-- Every item that is read is exact at its place. -/
def ItemsExact (c : Schema) (memory : Memory) (e : Int) : List Item → UnitMemory → Int → Prop
  | [], _, _ => True
  | i :: rest, m, p => ItemExact c.env m i ∧
      ∀ m' q, c.readItem memory e i m p = some (.next m' q) → ItemsExact c memory e rest m' q

theorem readItem_static {i : Item} (hn : 0 ≤ itemLength i) {m m' : UnitMemory} {p q : Int}
    (hread : (schema o u).readItem memory e i m p = some (.next m' q)) :
    q - p = itemLength i ↔ ItemExact (unitEnv o u) m i := by
  cases i with
  | property a =>
    cases hread
    exact ⟨fun _ => trivial, fun _ => sub_self _⟩
  | var v =>
    obtain ⟨m₁, -, heq⟩ := Option.map_eq_some_iff.mp hread
    cases heq
    exact ⟨fun _ => trivial, fun _ => sub_self _⟩
  | field f =>
    have hlen : Switch.caseLength [f] = some f.staticSerializedLength := by
      have hn' : ¬ f.staticSerializedLength < 0 := not_lt.mpr hn
      simp [Switch.caseLength, hn']
    exact ⟨fun _ => trivial, fun _ => readFields_static hlen hread⟩
  | switch s =>
    have hlen := readItem_switch hn hread
    change q - p = s.staticSerializedLength ↔ SwitchExact (unitEnv o u) m s
    unfold SwitchExact
    cases hc : entered (unitEnv o u) s m with
    | none =>
      rw [hc] at hlen
      have hzero : q - p = 0 := (Option.some.inj hlen).symm
      rw [hzero]
      exact eq_comm
    | some c =>
      rw [hc] at hlen
      change Switch.caseLength c.items = _ at hlen
      dsimp only
      rw [hlen, Option.some.injEq]

theorem readItem_le {i : Item} (hn : 0 ≤ itemLength i) (hsmall : ∀ s, i = .switch s → SmallCases s)
    {m m' : UnitMemory} {p q : Int}
    (hread : (schema o u).readItem memory e i m p = some (.next m' q)) : q - p ≤ itemLength i := by
  by_cases hexact : ItemExact (unitEnv o u) m i
  · exact ((readItem_static hn hread).mpr hexact).le
  · cases i with
    | switch s =>
      -- no case is entered, and nothing is read
      have hnone : entered (unitEnv o u) s m = none := by
        by_contra hsome
        exact hexact ((switchExact_iff hn (hsmall s rfl)).mpr (.inl (Option.isSome_iff_ne_none.mpr hsome)))
      have hlen := readItem_switch hn hread
      rw [hnone] at hlen
      have hzero : q - p = 0 := (Option.some.inj hlen).symm
      rwa [hzero]
    | field f => exact absurd trivial hexact
    | var v => exact absurd trivial hexact
    | property a => exact absurd trivial hexact

/-- One round of the loop over the items. -/
theorem unitLengthLoop_cons {len : Int} {i : Item} {rest : List Item}
    (h : 0 ≤ UnitType.staticLengthLoop len (i :: rest)) : 0 ≤ itemLength i ∧
      UnitType.staticLengthLoop len (i :: rest) =
        UnitType.staticLengthLoop (len + itemLength i) rest := by
  unfold itemLength
  cases hn : i.staticSerializedLength with
  | none => simp [UnitType.staticLengthLoop, hn]
  | some n =>
    by_cases hneg : n < 0
    · simp only [UnitType.staticLengthLoop, hn, hneg, if_true] at h
      exact absurd h (by decide)
    · simp only [UnitType.staticLengthLoop, hn, hneg, if_false]
      exact ⟨not_lt.mp hneg, rfl⟩

theorem readItems_andThen {c : Schema} {i : Item} {rest : List Item} {m m' : UnitMemory} {p q : Int}
    (h : c.readItems memory e (i :: rest) m p = some (.next m' q)) :
    ∃ m₁ p₁, c.readItem memory e i m p = some (.next m₁ p₁) ∧
      c.readItems memory e rest m₁ p₁ = some (.next m' q) := by
  obtain ⟨r, hr, h⟩ := Option.bind_eq_some_iff.mp h
  cases r with
  | short => cases h
  | next m₁ p₁ => exact ⟨m₁, p₁, hr, h⟩

theorem readItems_exact {items : List Item} {len : Int}
    (hn : 0 ≤ UnitType.staticLengthLoop len items) {m m' : UnitMemory} {p q : Int}
    (hread : (schema o u).readItems memory e items m p = some (.next m' q))
    (hexact : ItemsExact (schema o u) memory e items m p) :
    len + (q - p) = UnitType.staticLengthLoop len items := by
  induction items generalizing len m p with
  | nil =>
    cases hread
    simp [UnitType.staticLengthLoop]
  | cons i rest ih =>
    obtain ⟨hi, hloop⟩ := unitLengthLoop_cons hn
    obtain ⟨m₁, p₁, hstep, hread⟩ := readItems_andThen hread
    have hlen := (readItem_static hi hstep).mpr hexact.1
    rw [hloop] at hn ⊢
    rw [← ih hn hread (hexact.2 m₁ p₁ hstep)]
    omega

/-- If the cases are small, the static length is an upper bound, and it is only reached if every
switch enters a case. -/
theorem readItems_le {items : List Item} {len : Int}
    (hn : 0 ≤ UnitType.staticLengthLoop len items)
    (hsmall : ∀ s, .switch s ∈ items → SmallCases s) {m m' : UnitMemory} {p q : Int}
    (hread : (schema o u).readItems memory e items m p = some (.next m' q)) :
    len + (q - p) ≤ UnitType.staticLengthLoop len items ∧
      (len + (q - p) = UnitType.staticLengthLoop len items →
        ItemsExact (schema o u) memory e items m p) := by
  induction items generalizing len m p with
  | nil =>
    cases hread
    simp [UnitType.staticLengthLoop, ItemsExact]
  | cons i rest ih =>
    obtain ⟨hi, hloop⟩ := unitLengthLoop_cons hn
    obtain ⟨m₁, p₁, hstep, hread⟩ := readItems_andThen hread
    have hle := readItem_le hi (fun s hs => hsmall s (hs ▸ List.mem_cons_self)) hstep
    rw [hloop] at hn ⊢
    obtain ⟨hrest, hexact⟩ := ih hn (fun s hs => hsmall s (List.mem_cons_of_mem i hs)) hread
    refine ⟨by omega, fun heq => ⟨(readItem_static hi hstep).mp (by omega), fun m₂ p₂ hstep' => ?_⟩⟩
    obtain ⟨rfl, rfl⟩ : m₁ = m₂ ∧ p₁ = p₂ := by simpa [hstep] using hstep'
    exact hexact (by omega)

theorem smallLengths_static {i : Item} (hi : ∀ f ∈ i.fields, Declared o u f)
    (hn : 0 ≤ itemLength i) : SmallLengths o u i.fields := by
  intro f hf ex hex
  obtain ⟨k, -, hk, -⟩ := hi f hf
  have hstatic : 0 ≤ f.staticSerializedLength := by
    cases i with
    | field g =>
      obtain rfl := List.mem_singleton.mp hf
      exact hn
    | switch s =>
      obtain ⟨c, hc, hf⟩ := List.mem_flatMap.mp hf
      obtain ⟨n, hlen⟩ := staticLengthLoop_known hn hc
      exact caseLength_mem hlen hf
    | var v => cases hf
    | property a => cases hf
  exact smallLength_static hk hstatic (by simpa [hk] using hex) _

theorem itemLength_nonneg {items : List Item} {len : Int}
    (hn : 0 ≤ UnitType.staticLengthLoop len items) {i : Item} (hi : i ∈ items) :
    0 ≤ itemLength i := by
  induction items generalizing len with
  | nil => cases hi
  | cons j rest ih =>
    obtain ⟨hj, hloop⟩ := unitLengthLoop_cons hn
    rcases List.mem_cons.mp hi with rfl | hi
    · exact hj
    · exact ih (hloop ▸ hn) hi

/-- A call of a generated parser that returns `DONE` has read the items. -/
theorem parse_done_reads (hu : Supported o u) (hsmall : ∀ i ∈ u.items, SmallLengths o u i.fields)
    {p : Parser} (hp : ParserGenerator.run o u = some p) {inBufStart inBufEnd : Int}
    (hle : inBufStart ≤ inBufEnd) (hsize : inBufEnd - inBufStart < 2 ^ 63) {w w' : ParserWorld}
    (hw : w.state.instruction = none)
    (h : p.parse memory inBufStart inBufEnd w = some (.done, w')) :
    ∃ m, (schema o u).readItems memory inBufEnd u.items (w.heap w.area.allocated) inBufStart =
      some (.next m (inBufStart + w'.bytesRead)) := by
  obtain ⟨code, hcode, rfl⟩ := Option.map_eq_some_iff.mp hp
  simp only [Parser.parse, hw] at h
  obtain ⟨st, -, h⟩ := Option.bind_eq_some_iff.mp h
  split at h
  · cases h
  · rename_i unit area halloc
    obtain ⟨oc, hoc, h⟩ := Option.map_eq_some_iff.mp h
    cases oc with
    | stopped r l d =>
      rw [run_eq_runFrom] at hoc
      exact absurd (congrArg Prod.fst h) (parser_stopped_ne_done hoc)
    | done l d =>
      have hinside : Inside inBufEnd ⟨w.heap unit, area, inBufStart⟩ := ⟨hle, hsize⟩
      have hread := run_items_read (fun i hi f hf => hu.declared hi hf) hsmall hcode hinside hoc
      obtain rfl : unit = w.area.allocated := (UnitArea.allocate_some halloc).2.1
      obtain rfl := (Prod.mk.inj h).2
      exact ⟨d.unit, by simpa [Parser.finish] using hread⟩

/-- The bytes that the parser takes for a field with a static length are those if and only if the
field, being a switch, enters a case of this length, or none for the length zero. The same holds for
a unit all of whose switches do so; if no case is longer than an `int` can tell, for no other. -/
theorem static_length_iff (hu : Supported o u) :
    (∀ i ∈ u.items, ∀ n, i.staticSerializedLength = some n → 0 ≤ n →
      ∀ memory e k code l l' d d', ParserGenerator.parseItems o u k [i] = some code → Inside e d →
      run (parserSemantics ⟨unitEnv o u, memory⟩) e code l d = some (.done l' d') →
      (d'.pos - d.pos = n ↔ ItemExact (unitEnv o u) d.unit i)) ∧
    (0 ≤ u.staticSerializedLength → ∀ p, ParserGenerator.run o u = some p →
      ∀ memory inBufStart inBufEnd w w', inBufStart ≤ inBufEnd → inBufEnd - inBufStart < 2 ^ 63 →
      w.state.instruction = none → p.parse memory inBufStart inBufEnd w = some (.done, w') →
      (ItemsExact (schema o u) memory inBufEnd u.items (w.heap w.area.allocated) inBufStart →
        w'.bytesRead = u.staticSerializedLength) ∧
      ((∀ s, .switch s ∈ u.items → SmallCases s) → (w'.bytesRead = u.staticSerializedLength ↔
        ItemsExact (schema o u) memory inBufEnd u.items (w.heap w.area.allocated) inBufStart))) := by
  constructor
  · intro i hi n hn hnonneg memory e k code l l' d d' hcode hd hrun
    have hlen : itemLength i = n := by simp [itemLength, hn]
    have hfields : ∀ j ∈ [i], ∀ f ∈ j.fields, Declared o u f := by
      intro j hj f hf
      rw [List.mem_singleton.mp hj] at hf
      exact hu.declared hi hf
    have hsmall : ∀ j ∈ [i], SmallLengths o u j.fields := by
      intro j hj
      rw [List.mem_singleton.mp hj]
      exact smallLengths_static (hfields i (List.mem_singleton_self i)) (hlen ▸ hnonneg)
    have hread := run_items_read hfields hsmall hcode hd hrun
    obtain ⟨m₁, p₁, hstep, hrest⟩ := readItems_andThen hread
    cases hrest
    rw [← hlen]
    exact readItem_static (hlen ▸ hnonneg) hstep
  · intro hn p hp memory inBufStart inBufEnd w w' hle hsize hw h
    have hsmall : ∀ i ∈ u.items, SmallLengths o u i.fields := fun i hi =>
      smallLengths_static (fun f hf => hu.declared hi hf) (itemLength_nonneg hn hi)
    obtain ⟨m, hread⟩ := parse_done_reads hu hsmall hp hle hsize hw h
    have hexact : ItemsExact (schema o u) memory inBufEnd u.items (w.heap w.area.allocated)
        inBufStart → w'.bytesRead = u.staticSerializedLength := by
      intro hexact
      have hlen := readItems_exact hn hread hexact
      rwa [zero_add, add_sub_cancel_left] at hlen
    refine ⟨hexact, fun hcases => ⟨fun heq => (readItems_le hn hcases hread).2 ?_, hexact⟩⟩
    rw [zero_add, add_sub_cancel_left, heq]
    rfl

end Units

/-- A tag that selects a number. -/
def taggedUnit : UnitType where
  id := "Tagged"
  items := [
    .field { id := "tag", type := .integer 8 false },
    .switch { id := "__anon1", expression := some (.selfMember "Tagged" "tag"), cases := [
      { expressions := [.int 1], items := [{ id := "number", type := .integer 16 false }] }] }]

theorem static_length_case : ∃ p w', ParserGenerator.run {} taggedUnit = some p ∧
    p.parse (fun _ => 1) 0 3 (.fresh 4096 256 (by decide)) = some (.done, w') ∧
    w'.bytesRead = taggedUnit.staticSerializedLength ∧
    ItemsExact (schema {} taggedUnit) (fun _ => 1) 3 taggedUnit.items (fun _ => ⟨0, 0, [], 0⟩) 0 := by
  have hsupported : Supported {} taggedUnit := ⟨by decide, by decide⟩
  have hrun : ((ParserGenerator.run {} taggedUnit).bind fun p =>
      (p.parse (fun _ => 1) 0 3 (.fresh 4096 256 (by decide))).map
        fun r => (r.1, r.2.bytesRead)) = some (.done, 3) := by decide
  obtain ⟨p, hp, hrun⟩ := Option.bind_eq_some_iff.mp hrun
  obtain ⟨⟨r, w'⟩, hparse, heq⟩ := Option.map_eq_some_iff.mp hrun
  obtain ⟨rfl, hread⟩ := Prod.mk.inj heq
  have hlen : w'.bytesRead = taggedUnit.staticSerializedLength :=
    hread.trans (by decide)
  refine ⟨p, w', hp, hparse, hlen, ?_⟩
  have hsmall : ∀ s, .switch s ∈ taggedUnit.items → SmallCases s := by
    intro s hs
    simp only [taggedUnit, List.mem_cons, reduceCtorEq, List.not_mem_nil, or_false, false_or,
      Item.switch.injEq] at hs
    subst hs
    unfold SmallCases
    decide
  exact (((static_length_iff hsupported).2 (by decide) p hp _ 0 3 _ w' (by decide)
    (by decide) rfl hparse).2 hsmall).mp hlen

/-- An input whose tag selects no case is one byte long, although the static length is three. A case
of `2 ^ 32` bytes has the static length zero. -/
theorem static_length_no_case :
    taggedUnit.staticSerializedLength = 3 ∧
    ((ParserGenerator.run {} taggedUnit).bind fun p =>
      (p.parse (fun _ => 2) 0 3 (.fresh 4096 256 (by decide))).map
        fun r => (r.1, r.2.bytesRead)) = some (.done, 1) ∧
    Switch.staticSerializedLength { id := "__anon2", expression := none, cases := [
      { expressions := [.int 1]
        items := [{ id := "data", type := .bytes
                    attributes := [⟨"length", some (.int 4294967296)⟩] }] }] } = 0 := by
  refine ⟨by decide, by decide, by decide⟩

end Diffingo.Codec
