import Diffingo.Codec.Incremental
import Diffingo.Generation.CompactUnit

/-!
# The length of a range

The length of a range is one C expression, the sum of the lengths of its fields from left to right.
Every addition happens in the common type of its operands. As long as the numbers fit into these
types the sum is the exact one. Otherwise an unsigned sum is smaller, and a signed one undefined.
-/

namespace Diffingo.Codec

open CInteger Diffingo.Spec Diffingo.Runtime Diffingo.Generation

/-- The expressions that a sum adds up. -/
def summands : Expr → List Expr
  | .binary .plus a b => summands a ++ [b]
  | e => [e]

/-- The sum of lengths of a flat unit. -/
inductive SumLength (env : Env) : Expr → Prop
  | plain {e : Expr} : PlainLength env e → SumLength env e
  | plus {a b : Expr} : SumLength env a → PlainLength env b → SumLength env (.binary .plus a b)

/-- The number of bytes that a length stands for. -/
def lengthOf (env : Env) (m : UnitMemory) (e : Expr) : Nat :=
  ((evalLength env e m).map (·.1)).getD 0

/-- The exact sum. -/
def total (env : Env) (m : UnitMemory) (es : List Expr) : Nat := (es.map (lengthOf env m)).sum

/-- Each addition has a sum that its type holds. -/
def SumFits (env : Env) (m : UnitMemory) : Expr → Prop
  | .binary .plus a b => SumFits env m a ∧ ∀ t, typeOf env (.binary .plus a b) = some (.int t) →
      total env m (summands (.binary .plus a b)) < t.capacity
  | _ => True

@[simp] theorem total_append (env : Env) (m : UnitMemory) (es es' : List Expr) :
    total env m (es ++ es') = total env m es + total env m es' := by
  simp [total]

@[simp] theorem total_singleton (env : Env) (m : UnitMemory) (e : Expr) :
    total env m [e] = lengthOf env m e := by
  simp [total]

theorem lengthOf_eq {env : Env} {m : UnitMemory} {e : Expr} {r : Nat × UnitMemory}
    (h : evalLength env e m = some r) : lengthOf env m e = r.1 := by
  simp [lengthOf, h]

/-- In the unit `m` the expression has the type `t` and the value `v`, a number of bytes. -/
structure HasLength (env : Env) (m : UnitMemory) (e : Expr) (t : IntTy) (v : Int) : Prop where
  type : typeOf env e = some (.int t)
  eval : eval env e m = some (.int v, m)
  nonneg : 0 ≤ v
  lt : v < t.capacity
  small : t.capacity ≤ 2 ^ 63

section Evaluation

variable {env : Env} {m : UnitMemory} {a b e : Expr}

theorem HasLength.evalLength {t : IntTy} {v : Int} (h : HasLength env m e t v) :
    evalLength env e m = some (v.toNat, m) := by
  have hlt := h.lt
  have hsmall := h.small
  have hwrap : IntTy.sizeT.wrap v = v :=
    IntTy.wrap_unsigned_of_lt h.nonneg (by push_cast; omega)
  simp [Generation.evalLength, h.type, h.eval, CType.arith, Value.toInt, hwrap]

theorem PlainLength.hasLength (h : PlainLength env e) {r : Nat × UnitMemory}
    (hr : Generation.evalLength env e m = some r) : ∃ t, HasLength env m e t r.1 := by
  cases h with
  | constant n =>
    rw [evalLength_constant] at hr
    split at hr
    · rename_i hn
      cases hr
      by_cases hsmall : n < 2 ^ 31
      · have htype : literalType n = some (.int .int) := by
          rw [literalType, Int.natAbs_natCast, if_pos hsmall]
        refine ⟨.int, htype, ?_, by simp, ?_, by decide⟩
        · simp [eval, constantValue, htype, literal]
        · exact_mod_cast hsmall
      · have htype : literalType n = some (.int .long) := by
          rw [literalType, Int.natAbs_natCast, if_neg hsmall, if_pos hn]
        refine ⟨.long, htype, ?_, by simp, ?_, by decide⟩
        · simp [eval, constantValue, htype, literal]
        · exact_mod_cast hn
    · cases hr
  | @member x w hx hw =>
    rw [evalLength_member hx (by omega)] at hr
    cases hr
    have hnonneg := IntTy.wrap_unsigned_nonneg w (m x).int
    have hlt := IntTy.wrap_unsigned_lt w (m x).int
    refine ⟨⟨w, false⟩, ?_, ?_, by simp, ?_, ?_⟩
    · simp [typeOf, lvalue, hx]
    · simp [eval, lvalue, hx, load, Cell.read, CType.convert, Int.toNat_of_nonneg hnonneg]
    · simpa [IntTy.capacity, Int.toNat_of_nonneg hnonneg] using hlt
    · simp only [IntTy.capacity, Bool.false_eq_true, if_false]
      exact Nat.pow_le_pow_right (by omega) (by omega)

/-- A sum of two lengths, in the common type. -/
theorem HasLength.plus {ta tb : IntTy} {va vb : Int} (ha : HasLength env m a ta va)
    (hb : HasLength env m b tb vb) :
    typeOf env (.binary .plus a b) = some (.int (ta.common tb)) ∧
      (ta.common tb).capacity ≤ 2 ^ 63 ∧
      Generation.eval env (.binary .plus a b) m =
        ((ta.common tb).result (va + vb)).map fun v => (.int v, m) := by
  obtain ⟨hca, hcb⟩ := IntTy.capacity_common ta tb
  have hwa : (ta.common tb).wrap va = va :=
    (IntTy.wrap_eq_iff ha.nonneg).mpr (ha.lt.trans_le (by exact_mod_cast hca))
  have hwb : (ta.common tb).wrap vb = vb :=
    (IntTy.wrap_eq_iff hb.nonneg).mpr (hb.lt.trans_le (by exact_mod_cast hcb))
  refine ⟨?_, ?_, ?_⟩
  · simp [typeOf, ha.type, hb.type, arithType, CType.arith]
  · have hpromote : ∀ t : IntTy, t.capacity ≤ 2 ^ 63 → t.promote.capacity ≤ 2 ^ 63 := by
      intro t ht
      unfold IntTy.promote
      split
      · decide
      · exact ht
    rcases IntTy.common_cases ta tb with h | h <;> rw [h]
    · exact hpromote ta ha.small
    · exact hpromote tb hb.small
  · simp only [Generation.eval, strict, ha.type, hb.type, ha.eval, hb.eval, Option.bind_some,
      Value.toInt, combine, arithType, CType.arith, hwa, hwb, Option.map_map]
    rfl

/-- The operands of a sum that has a value have one, too. -/
theorem evalLength_plus {r : Nat × UnitMemory}
    (h : Generation.evalLength env (.binary .plus a b) m = some r) :
    ∃ ra rb, Generation.evalLength env a m = some ra ∧
      Generation.evalLength env b ra.2 = some rb := by
  obtain ⟨_, -, h⟩ := Option.bind_eq_some_iff.mp h
  obtain ⟨_, h, -⟩ := Option.bind_eq_some_iff.mp h
  obtain ⟨ta, hta, h⟩ := Option.bind_eq_some_iff.mp h
  obtain ⟨tb, htb, h⟩ := Option.bind_eq_some_iff.mp h
  obtain ⟨ra, hra, h⟩ := Option.bind_eq_some_iff.mp h
  obtain ⟨rb, hrb, h⟩ := Option.bind_eq_some_iff.mp h
  obtain ⟨va, hva, h⟩ := Option.bind_eq_some_iff.mp h
  obtain ⟨vb, hvb, h⟩ := Option.bind_eq_some_iff.mp h
  obtain ⟨_, hsum, -⟩ := Option.map_eq_some_iff.mp h
  obtain ⟨t, ht, -⟩ := Option.bind_eq_some_iff.mp hsum
  unfold arithType at ht
  split at ht
  · rename_i ta' tb' hta' htb'
    exact ⟨((IntTy.sizeT.wrap va).toNat, ra.2), ((IntTy.sizeT.wrap vb).toNat, rb.2),
      by simp [Generation.evalLength, hta, hta', hra, hva],
      by simp [Generation.evalLength, htb, htb', hrb, hvb]⟩
  · cases ht

theorem SumLength.summands_plain (h : SumLength env e) : ∀ s ∈ summands e, PlainLength env s := by
  induction h with
  | @plain e he =>
    have hsingle : summands e = [e] := by cases he <;> rfl
    rw [hsingle]
    exact fun s hs => List.mem_singleton.mp hs ▸ he
  | plus _ hb ih =>
    intro s hs
    rcases List.mem_append.mp hs with hs | hs
    · exact ih s hs
    · exact List.mem_singleton.mp hs ▸ hb

theorem PlainLength.summands (h : PlainLength env e) : summands e = [e] := by
  cases h <;> rfl

theorem PlainLength.sumFits (h : PlainLength env e) : SumFits env m e := by
  cases h <;> trivial

/-- The value of a sum of lengths: at most the exact sum, and the exact sum if and only if every
addition fits. -/
theorem SumLength.spec (h : SumLength env e) {r : Nat × UnitMemory}
    (hr : Generation.evalLength env e m = some r) :
    r.2 = m ∧ (∃ t, HasLength env m e t r.1) ∧ r.1 ≤ total env m (Codec.summands e) ∧
      (r.1 = total env m (Codec.summands e) ↔ SumFits env m e) := by
  induction h generalizing r with
  | plain he =>
    rw [he.summands, total_singleton, lengthOf_eq hr]
    exact ⟨(he.spec hr).2, he.hasLength hr, le_refl _, ⟨fun _ => he.sumFits, fun _ => rfl⟩⟩
  | @plus a b ha hb ih =>
    obtain ⟨ra, rb, hra, hrb⟩ := evalLength_plus hr
    obtain ⟨hm, ⟨ta, hta⟩, hle, hiff⟩ := ih hra
    rw [hm] at hrb
    obtain ⟨tb, htb⟩ := hb.hasLength hrb
    obtain ⟨htype, hsmall, heval⟩ := hta.plus htb
    have hsum : total env m (Codec.summands (.binary .plus a b)) =
        total env m (Codec.summands a) + rb.1 := by
      rw [Codec.summands, total_append, total_singleton, lengthOf_eq hrb]
    have hnonneg : (0 : Int) ≤ ra.1 + rb.1 := by omega
    obtain ⟨v, hv, hr'⟩ : ∃ v, (ta.common tb).result (ra.1 + rb.1) = some v ∧
        HasLength env m (.binary .plus a b) (ta.common tb) v := by
      cases hres : (ta.common tb).result (ra.1 + rb.1) with
      | none =>
        rw [hres] at heval
        simp [Generation.evalLength, heval] at hr
      | some v =>
        obtain ⟨h₀, -, hlt⟩ := IntTy.result_le hnonneg hres
        exact ⟨v, rfl, htype, by rw [heval, hres]; rfl, h₀, hlt, hsmall⟩
    obtain rfl : (v.toNat, m) = r := Option.some.inj (hr'.evalLength.symm.trans hr)
    obtain ⟨h₀, hvle, -⟩ := IntTy.result_le hnonneg hv
    have hexact := IntTy.result_eq_iff (t := ta.common tb) hnonneg
    refine ⟨rfl, ⟨ta.common tb, by rwa [Int.toNat_of_nonneg h₀]⟩, by rw [hsum]; dsimp only; omega,
      ?_⟩
    dsimp only
    rw [SumFits, ← hiff, hsum]
    constructor
    · -- the exact sum is the sum of exact operands, which has not been cut
      intro h
      have hra' : ra.1 = total env m (Codec.summands a) := by omega
      refine ⟨hra', fun t ht => ?_⟩
      obtain rfl : ta.common tb = t := by simpa using htype.symm.trans ht
      have hv' : v = ra.1 + rb.1 := by omega
      have := hexact.mp (hv.trans (by rw [hv']))
      omega
    · rintro ⟨hra', hfits⟩
      have hlt := hfits _ htype
      have := hv.symm.trans (hexact.mpr (by omega))
      simp only [Option.some.injEq] at this
      omega

theorem PlainLength.pure (h : PlainLength env e) : e.sideEffectFree = true := by
  cases h <;> rfl

theorem SumLength.pure (h : SumLength env e) : e.sideEffectFree = true := by
  induction h with
  | plain he => exact he.pure
  | plus ha hb ih => simp [Expr.sideEffectFree, ih, hb.pure, Operator.pure]

theorem SumLength.mem_members (h : SumLength env e) {x : String} :
    x ∈ e.members ↔ ∃ s ∈ Codec.summands e, x ∈ s.members := by
  induction h with
  | plain he => simp [he.summands]
  | plus ha hb ih => simp [Expr.members, Codec.summands, ih, or_and_right, exists_or]

theorem SumLength.small (h : SumLength env e) {r : Nat × UnitMemory}
    (hr : Generation.evalLength env e m = some r) : r.1 < 2 ^ 63 := by
  obtain ⟨-, ⟨t, ht⟩, -⟩ := h.spec hr
  have hlt := ht.lt
  have hsmall := ht.small
  omega

/-- Lengths that have values and fit have a sum, and it is the exact one. -/
theorem SumLength.exact (h : SumLength env e)
    (hdef : ∀ s ∈ Codec.summands e, (Generation.evalLength env s m).isSome = true)
    (hfits : SumFits env m e) :
    Generation.evalLength env e m = some (total env m (Codec.summands e), m) := by
  induction h with
  | plain he =>
    rw [he.summands] at hdef ⊢
    obtain ⟨r, hr⟩ := Option.isSome_iff_exists.mp (hdef _ List.mem_cons_self)
    rw [total_singleton, lengthOf_eq hr, hr, ← (he.spec hr).2]
  | @plus a b ha hb ih =>
    obtain ⟨hfa, hfits⟩ := hfits
    have hra := ih (fun s hs => hdef s (List.mem_append_left _ hs)) hfa
    obtain ⟨-, ⟨ta, hta⟩, -⟩ := ha.spec hra
    obtain ⟨rb, hrb⟩ := Option.isSome_iff_exists.mp (hdef b (by simp [Codec.summands]))
    obtain ⟨tb, htb⟩ := hb.hasLength hrb
    obtain ⟨htype, hsmall, heval⟩ := hta.plus htb
    have hlt := hfits _ htype
    rw [Codec.summands, total_append, total_singleton, lengthOf_eq hrb] at hlt ⊢
    dsimp only at heval
    have hnonneg : (0 : Int) ≤ total env m (Codec.summands a) + rb.1 := by omega
    have hres := (IntTy.result_eq_iff (t := ta.common tb) hnonneg).mpr (by exact_mod_cast hlt)
    rw [hres, Option.map_some] at heval
    have hsum : HasLength env m (.binary .plus a b) (ta.common tb)
        (total env m (Codec.summands a) + rb.1 : Nat) :=
      ⟨htype, by rw [heval]; push_cast; rfl, by omega, by exact_mod_cast hlt, hsmall⟩
    rw [hsum.evalLength, Int.toNat_natCast]

/-- A plain length depends on the members that it names. -/
theorem PlainLength.evalLength_congr (h : PlainLength env e) {m' : UnitMemory}
    (hm : ∀ x ∈ e.members, m' x = m x) :
    Generation.evalLength env e m' = (Generation.evalLength env e m).map fun r => (r.1, m') := by
  cases h with
  | constant n =>
    rw [evalLength_constant, evalLength_constant]
    split <;> rfl
  | @member x w hx hw =>
    simp [evalLength_member hx (by omega : w ≤ 64), hm x (by simp [Expr.members])]

theorem total_congr {es : List Expr} (hes : ∀ e ∈ es, PlainLength env e) {m' : UnitMemory}
    (hm : ∀ e ∈ es, ∀ x ∈ e.members, m' x = m x) : total env m' es = total env m es := by
  refine congrArg List.sum (List.map_congr_left fun e he => ?_)
  simp [lengthOf, (hes e he).evalLength_congr (hm e he), Option.map_map, Function.comp_def]

end Evaluation

theorem rangeLength_from {env : Env} {es : List Expr} (hes : ∀ e ∈ es, PlainLength env e)
    {e₀ e : Expr} (he₀ : SumLength env e₀)
    (h : InstantiationTypeGenerator.rangeLength (some e₀) es = some e) :
    SumLength env e ∧ summands e = summands e₀ ++ es := by
  induction es generalizing e₀ with
  | nil =>
    cases h
    exact ⟨he₀, (List.append_nil _).symm⟩
  | cons e₁ es ih =>
    obtain ⟨hsum, heq⟩ := ih (fun s hs => hes s (List.mem_cons_of_mem _ hs))
      (.plus he₀ (hes e₁ List.mem_cons_self)) h
    refine ⟨hsum, heq.trans ?_⟩
    simp [summands]

/-- The length of a range adds up the lengths of its fields. -/
theorem rangeLength_sum {env : Env} {es : List Expr} (hes : ∀ e ∈ es, PlainLength env e) {e : Expr}
    (h : InstantiationTypeGenerator.rangeLength none es = some e) :
    SumLength env e ∧ summands e = es := by
  cases es with
  | nil => cases h
  | cons e₁ es =>
    have he₁ := hes e₁ List.mem_cons_self
    obtain ⟨hsum, heq⟩ := rangeLength_from (fun s hs => hes s (List.mem_cons_of_mem _ hs))
      (.plain he₁) h
    exact ⟨hsum, by rw [heq, he₁.summands, List.singleton_append]⟩

/-! ## Sums that always fit -/

/-- The largest value of a plain length. -/
def lengthBound (env : Env) : Expr → Nat
  | .constant (.integer n) => n.toNat
  | .binary .attribute (.parserState (.self _)) (.memberAttribute x) =>
    match env.members x with
    | some (.int t) => t.capacity
    | _ => 0
  | _ => 0

/-- Each addition has a type that holds the largest values of the lengths. -/
def sumBounded (env : Env) : Expr → Bool
  | .binary .plus a b => sumBounded env a &&
      match typeOf env (.binary .plus a b) with
      | some (.int t) => ((summands (.binary .plus a b)).map (lengthBound env)).sum < t.capacity
      | _ => true
  | _ => true

theorem PlainLength.lengthOf_le {env : Env} {e : Expr} (h : PlainLength env e) (m : UnitMemory) :
    lengthOf env m e ≤ lengthBound env e := by
  cases h with
  | constant n =>
    rw [lengthOf, evalLength_constant]
    split <;> simp [lengthBound]
  | @member x w hx hw =>
    have hlt := IntTy.wrap_unsigned_lt w (m x).int
    simp only [lengthOf, evalLength_member hx (by omega : w ≤ 64), lengthBound, hx, Option.map_some,
      Option.getD_some, IntTy.capacity, Bool.false_eq_true, if_false]
    exact Int.toNat_le.mpr hlt.le

/-- Lengths whose largest values can be added fit in every unit. -/
theorem SumLength.sumFits_of_bounded {env : Env} {e : Expr} (h : SumLength env e)
    (hb : sumBounded env e = true) (m : UnitMemory) : SumFits env m e := by
  induction h with
  | plain he => exact he.sumFits
  | @plus a b ha hb' ih =>
    rw [sumBounded, Bool.and_eq_true] at hb
    refine ⟨ih hb.1, fun t ht => ?_⟩
    have hlt := hb.2
    rw [ht] at hlt
    refine lt_of_le_of_lt ?_ (of_decide_eq_true hlt)
    refine List.sum_le_sum fun s hs => ?_
    exact ((SumLength.plus ha hb').summands_plain s hs).lengthOf_le m

/-! ## Sums in another unit -/

section Redirected

variable {env : Env} {m : UnitMemory} {e : Expr}

theorem PlainLength.within (h : PlainLength env e) : e.within env.unit = true := by
  cases h with
  | constant n => rfl
  | member hx hw => simp [Expr.within]

theorem SumLength.within (h : SumLength env e) : e.within env.unit = true := by
  induction h with
  | plain he => exact he.within
  | plus ha hb ih => simp [Expr.within, ih, hb.within]

theorem PlainLength.same {env' : Env} {S : Set String} (hsame : env.Same env' S)
    (h : PlainLength env e) (hmem : ∀ x ∈ e.members, x ∈ S) : PlainLength env' e := by
  cases h with
  | constant n => exact .constant n
  | @member x w hx hw =>
    rw [← hsame.unit]
    exact .member ((hsame.members x (hmem x (by simp [Expr.members]))).trans hx) hw

theorem PlainLength.declared (h : PlainLength env e) :
    ∀ x ∈ e.members, ∃ ty, env.members x = some ty := by
  cases h with
  | constant n => exact fun x hx => by cases hx
  | @member x w hx hw =>
    intro y hy
    obtain rfl : y = x := by simpa [Expr.members] using hy
    exact ⟨_, hx⟩

theorem SumLength.declared (h : SumLength env e) :
    ∀ x ∈ e.members, ∃ ty, env.members x = some ty := by
  intro x hx
  obtain ⟨s, hs, hx⟩ := h.mem_members.mp hx
  exact (h.summands_plain s hs).declared x hx

/-- In a struct that lacks some members a length is a length or has no value. -/
theorem PlainLength.elsewhere {env' : Env} (h : PlainLength env e)
    (hm : ∀ x ∈ e.members, env'.members x = env.members x ∨ env'.members x = none) :
    PlainLength env' e ∨ ∀ m, Generation.evalLength env' e m = none := by
  cases h with
  | constant n => exact .inl (.constant n)
  | @member x w hx hw =>
    by_cases hunit : env.unit = env'.unit
    · rcases hm x (by simp [Expr.members]) with hsame | hnone
      · exact .inl (hunit ▸ .member (hsame.trans hx) hw)
      · exact .inr fun m => by simp [Generation.evalLength, typeOf, lvalue, hnone]
    · exact .inr fun m => by simp [Generation.evalLength, typeOf, lvalue, hunit]

theorem SumLength.elsewhere {env' : Env} (h : SumLength env e)
    (hm : ∀ x ∈ e.members, env'.members x = env.members x ∨ env'.members x = none) :
    SumLength env' e ∨ ∀ m, Generation.evalLength env' e m = none := by
  induction h with
  | plain he => exact (he.elsewhere hm).imp .plain id
  | @plus a b ha hb ih =>
    have hundefined : (∀ m, Generation.evalLength env' a m = none) ∨
        (∀ m, Generation.evalLength env' b m = none) →
        ∀ m, Generation.evalLength env' (.binary .plus a b) m = none := by
      intro hnone m
      rw [Option.eq_none_iff_forall_not_mem]
      intro r hr
      obtain ⟨ra, rb, hra, hrb⟩ := evalLength_plus hr
      rcases hnone with hnone | hnone
      · rw [hnone] at hra
        cases hra
      · rw [hnone] at hrb
        cases hrb
    rcases ih fun x hx => hm x (List.mem_append_left _ hx) with ha | ha
    · rcases hb.elsewhere fun x hx => hm x (List.mem_append_right _ hx) with hb | hb
      · exact .inl (.plus ha hb)
      · exact .inr (hundefined (.inr hb))
    · exact .inr (hundefined (.inl ha))

theorem SumLength.summands_replaceSelf (h : SumLength env e) (name : String) :
    Codec.summands (e.replaceSelf name) = (Codec.summands e).map (Expr.replaceSelf name) := by
  induction h with
  | plain he => cases he <;> rfl
  | plus ha hb ih => simp [Expr.replaceSelf, Codec.summands, ih]

/-- A sum fits in the struct of the new unit if it fits under the name of the old one. -/
theorem SumLength.sumFits_replaceSelf {u : String} (h : SumLength (env.named u) e) :
    SumFits env m (e.replaceSelf env.unit) ↔ SumFits (env.named u) m e := by
  induction h with
  | plain he => cases he <;> exact Iff.rfl
  | @plus a b ha hb ih =>
    have hsum : SumLength (env.named u) (.binary .plus a b) := .plus ha hb
    have hlength : ∀ s ∈ Codec.summands (.binary .plus a b),
        lengthOf env m (s.replaceSelf env.unit) = lengthOf (env.named u) m s := by
      intro s hs
      have hwithin : s.within u = true := (hsum.summands_plain s hs).within
      unfold lengthOf Generation.evalLength
      rw [typeOf_replaceSelf env hwithin, eval_replaceSelf env hwithin]
    have htotal : total env m (Codec.summands ((Expr.binary .plus a b).replaceSelf env.unit)) =
        total (env.named u) m (Codec.summands (.binary .plus a b)) := by
      unfold total
      rw [hsum.summands_replaceSelf, List.map_map]
      exact congrArg List.sum (List.map_congr_left hlength)
    have htype := typeOf_replaceSelf env (show (Expr.binary .plus a b).within u = true from
      hsum.within)
    change (_ ∧ ∀ t, typeOf env ((Expr.binary .plus a b).replaceSelf env.unit) = _ →
      total env m (Codec.summands ((Expr.binary .plus a b).replaceSelf env.unit)) < _) ↔ _
    rw [htype, htotal, ih]
    rfl

theorem PlainLength.replaceSelf {u : String} (h : PlainLength (env.named u) e) :
    PlainLength env (e.replaceSelf env.unit) := by
  cases h with
  | constant n => exact .constant n
  | member hx hw => exact .member hx hw

theorem SumLength.replaceSelf {u : String} (h : SumLength (env.named u) e) :
    SumLength env (e.replaceSelf env.unit) := by
  induction h with
  | plain he => exact .plain he.replaceSelf
  | plus ha hb ih => exact .plus ih hb.replaceSelf

theorem SumLength.sumFits_congr (h : SumLength env e) {m' : UnitMemory}
    (hm : ∀ x ∈ e.members, m' x = m x) : SumFits env m' e ↔ SumFits env m e := by
  induction h with
  | plain he => exact ⟨fun _ => he.sumFits, fun _ => he.sumFits⟩
  | @plus a b ha hb ih =>
    have hsum : SumLength env (.binary .plus a b) := .plus ha hb
    have hmembers : ∀ s ∈ Codec.summands (.binary .plus a b), ∀ x ∈ s.members, m' x = m x := by
      exact fun s hs x hx => hm x (hsum.mem_members.mpr ⟨s, hs, hx⟩)
    rw [SumFits, SumFits, ih fun x hx => hm x (List.mem_append_left _ hx),
      total_congr hsum.summands_plain hmembers]

end Redirected

end Diffingo.Codec
