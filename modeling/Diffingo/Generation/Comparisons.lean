import Diffingo.Generation.ExpressionLemmas

/-!
# Derived comparisons

The grammar has no tree nodes of its own for `>`, `<=`, `>=` and `!=`. It builds them from `<`, `>`,
`==`, `||` and `!`, with the same operand nodes in every place. A `Form` is such a combination; it is
run with a count of how often the operands are evaluated.
-/

namespace Diffingo.Generation

open CInteger Diffingo.Spec Diffingo.Runtime

/-- How a comparison is built from others on the same operands. -/
inductive Form
  | compare (k : Operator)
  | not (f : Form)
  | or (f g : Form)

namespace Form

/-- The expression for the operands `a` and `b`. -/
def expr (a b : Expr) : Form → Expr
  | .compare k => .binary k a b
  | .not f => .unary .not (f.expr a b)
  | .or f g => .binary .logicalOr (f.expr a b) (g.expr a b)

/-- The comparison operators that the translator prints. -/
def Basic : Form → Prop
  | .compare k => k = .equal ∨ k = .less ∨ k = .greater
  | .not f => f.Basic
  | .or f g => f.Basic ∧ g.Basic

/-- The value of a form, the unit after it, and how often each operand has been evaluated. -/
def run (env : Env) (a b : Expr) : Form → UnitMemory → Option (Value × UnitMemory × Nat)
  | .compare k, m =>
    (strict k (typeOf env a) (typeOf env b) (eval env a) (eval env b) m).map fun r =>
      (r.1, r.2, 1)
  | .not f, m => (f.run env a b m).bind fun r => r.1.toInt.map fun v => (ofBool (v = 0), r.2)
  | .or f g, m => (f.run env a b m).bind fun r => r.1.toInt.bind fun v =>
      if v ≠ 0 then some (ofBool true, r.2)
      else (g.run env a b r.2.1).bind fun q => q.1.toInt.map fun w =>
        (ofBool (w ≠ 0), q.2.1, r.2.2 + q.2.2)

end Form

/-- The comparisons that the grammar derives. -/
inductive Comparison
  | greater | leq | geq | neq

namespace Comparison

/-- The actions of the rules of `expr2`. -/
def form : Comparison → Form
  | .greater => .not (.or (.compare .less) (.compare .equal))
  | .leq => .not (.compare .greater)
  | .geq => .not (.compare .less)
  | .neq => .not (.compare .equal)

/-- The comparison of two integers. -/
def holds : Comparison → Int → Int → Bool
  | .greater, x, y => y < x
  | .leq, x, y => x ≤ y
  | .geq, x, y => y ≤ x
  | .neq, x, y => x ≠ y

end Comparison

/-- What C does to the operands before it compares them: nothing if they have the same type, and the
conversion to the common type otherwise. -/
def compared (ta tb : CType) : Option (Int → Int) :=
  if ta = tb && ta.isScalar then some id else (arithType ta tb).map IntTy.wrap

section Combine

variable (ta tb : CType) (x y : Int)

theorem combine_equal : combine .equal ta tb x y =
    (compared ta tb).map fun w => ofBool (w x = w y) := by
  unfold combine compared
  dsimp only
  split <;> simp [Function.comp_def]

theorem combine_less : combine .less ta tb x y =
    (compared ta tb).map fun w => ofBool (w x < w y) := by
  unfold combine compared
  dsimp only
  split <;> simp [Function.comp_def]

theorem combine_greater : combine .greater ta tb x y =
    (compared ta tb).map fun w => ofBool (w y < w x) := by
  unfold combine compared
  dsimp only
  split <;> simp [Function.comp_def]

end Combine

@[simp] theorem toInt_ofBool (p : Bool) : (ofBool p).toInt = some (if p then 1 else 0) := rfl

theorem ofBool_inj {p q : Bool} : ofBool p = ofBool q ↔ p = q := by
  cases p <;> cases q <;> decide

section Eval

variable {env : Env} {e e' : Expr}

theorem convert_ofBool (p : Bool) : (ofBool p).convert .bool = some (ofBool p) := by
  cases p <;> rfl

theorem eval_not (he : typeOf env e = some .bool) (m : UnitMemory) :
    eval env (.unary .not e) m =
      (eval env e m).bind fun r => r.1.toInt.map fun v => (ofBool (v = 0), r.2) := by
  simp only [eval, choose, test, he, Option.bind_some, CType.arith, Option.bind_assoc]
  refine Option.bind_congr fun r _ => ?_
  cases r.1.toInt with
  | none => rfl
  | some v => by_cases hv : v = 0 <;> simp [hv, literal, convert_ofBool]

theorem eval_or (he : typeOf env e = some .bool) (he' : typeOf env e' = some .bool)
    (m : UnitMemory) :
    eval env (.binary .logicalOr e e') m = (eval env e m).bind fun r => r.1.toInt.bind fun v =>
      if v ≠ 0 then some (ofBool true, r.2)
      else (eval env e' r.2).bind fun q => q.1.toInt.map fun w => (ofBool (w ≠ 0), q.2) := by
  simp only [eval, choose, test, he, Option.bind_some, CType.arith, Option.bind_assoc]
  refine Option.bind_congr fun r _ => ?_
  cases r.1.toInt with
  | none => rfl
  | some v =>
    by_cases hv : v = 0
    · simp only [hv, ne_eq, not_true_eq_false, decide_false, Bool.false_eq_true, if_false,
        testValue, test, he', CType.arith, Option.bind_some, Option.map_some]
      cases eval env e' r.2 with
      | none => rfl
      | some q => cases hq : q.1.toInt <;> simp [hq, convert_ofBool]
    · simp [hv, literal, convert_ofBool]

end Eval

namespace Form

variable {env : Env} {a b : Expr}

attribute [local simp] run

theorem typeOf_expr {f : Form} (hf : f.Basic) : typeOf env (f.expr a b) = some .bool := by
  cases f with
  | compare k => rcases hf with rfl | rfl | rfl <;> rfl
  | not f => rfl
  | or f g => rfl

/-- The run of a form is the evaluation of its expression. -/
theorem run_eval {f : Form} (hf : f.Basic) (m : UnitMemory) :
    (f.run env a b m).map (fun r => (r.1, r.2.1)) = eval env (f.expr a b) m := by
  induction f generalizing m with
  | compare k =>
    rw [run, Option.map_map]
    rcases hf with rfl | rfl | rfl <;> exact Option.map_id'
  | not f ih =>
    have hf : f.Basic := hf
    rw [run, expr, eval_not (typeOf_expr hf), ← ih hf m]
    cases f.run env a b m with
    | none => rfl
    | some r => simp [Function.comp_def]
  | or f g ihf ihg =>
    rw [run, expr, eval_or (typeOf_expr hf.1) (typeOf_expr hf.2), ← ihf hf.1 m]
    cases f.run env a b m with
    | none => rfl
    | some r =>
      simp only [Option.bind_some, Option.map_some, ← ihg hf.2 r.2.1]
      cases r.1.toInt with
      | none => rfl
      | some v =>
        by_cases hv : v = 0
        · cases g.run env a b r.2.1 <;> simp [hv, Function.comp_def]
        · simp [hv]

theorem run_not {f : Form} {m m' : UnitMemory} {p : Bool} {n : Nat}
    (hf : f.run env a b m = some (ofBool p, m', n)) :
    (Form.not f).run env a b m = some (ofBool (!p), m', n) := by
  cases p <;> simp [hf]

theorem run_or_true {f : Form} {m m' : UnitMemory} {n : Nat}
    (hf : f.run env a b m = some (ofBool true, m', n)) (g : Form) :
    (Form.or f g).run env a b m = some (ofBool true, m', n) := by
  simp [hf]

theorem run_or_false {f g : Form} {m m' m'' : UnitMemory} {n n' : Nat} {p : Bool}
    (hf : f.run env a b m = some (ofBool false, m', n))
    (hg : g.run env a b m' = some (ofBool p, m'', n')) :
    (Form.or f g).run env a b m = some (ofBool p, m'', n + n') := by
  cases p <;> simp [hf, hg]

/-- Every comparison evaluates its operands. -/
theorem run_pos {f : Form} {m : UnitMemory} {r : Value × UnitMemory × Nat}
    (h : f.run env a b m = some r) : 1 ≤ r.2.2 := by
  induction f generalizing m r with
  | compare k =>
    obtain ⟨q, -, rfl⟩ := Option.map_eq_some_iff.mp h
    exact le_rfl
  | not f ih =>
    obtain ⟨q, hq, h⟩ := Option.bind_eq_some_iff.mp h
    obtain ⟨v, -, rfl⟩ := Option.map_eq_some_iff.mp h
    have hpos : 1 ≤ q.2.2 := ih hq
    exact hpos
  | or f g ihf ihg =>
    obtain ⟨q, hq, h⟩ := Option.bind_eq_some_iff.mp h
    obtain ⟨v, -, h⟩ := Option.bind_eq_some_iff.mp h
    have hpos := ihf hq
    split at h
    · cases h
      exact hpos
    · obtain ⟨q', -, h⟩ := Option.bind_eq_some_iff.mp h
      obtain ⟨v', -, rfl⟩ := Option.map_eq_some_iff.mp h
      exact hpos.trans (Nat.le_add_right _ _)

/-- A second comparison evaluates the operands again. -/
theorem run_or_again {f g : Form} {m m' : UnitMemory} {n : Nat}
    (hf : f.run env a b m = some (ofBool false, m', n)) {r : Value × UnitMemory × Nat}
    (h : (Form.or f g).run env a b m = some r) : n < r.2.2 := by
  simp only [run, hf, Option.bind_some, toInt_ofBool, Bool.false_eq_true, if_false, ne_eq,
    not_true_eq_false] at h
  obtain ⟨q, hq, h⟩ := Option.bind_eq_some_iff.mp h
  obtain ⟨v, -, rfl⟩ := Option.map_eq_some_iff.mp h
  exact Nat.lt_add_of_pos_right (run_pos hq)

end Form

/-- The expression for a derived comparison evaluates its operands once, leaves the unit as they do,
and compares the integers. -/
def Meets (env : Env) (c : Comparison) (a b : Expr) (m : UnitMemory) : Prop :=
  ∃ va vb m₁ m₂, eval env a m = some (.int va, m₁) ∧ eval env b m₁ = some (.int vb, m₂) ∧
    c.form.run env a b m = some (ofBool (c.holds va vb), m₂, 1)

section Operands

variable {env : Env} {a b : Expr} {ta tb : CType} {w : Int → Int} {m m₁ m₂ : UnitMemory}
  {va vb : Int}

/-- Two operands of comparable types that have values. -/
structure Operands (env : Env) (a b : Expr) (w : Int → Int) (m m₁ m₂ : UnitMemory) (va vb : Int) :
    Prop where
  types : ∃ ta tb, typeOf env a = some ta ∧ typeOf env b = some tb ∧ compared ta tb = some w
  left : eval env a m = some (.int va, m₁)
  right : eval env b m₁ = some (.int vb, m₂)

namespace Operands

variable (h : Operands env a b w m m₁ m₂ va vb)

include h

theorem run_compare {k : Operator} {p : Bool}
    (hk : ∀ ta tb, compared ta tb = some w → combine k ta tb va vb = some (ofBool p)) :
    (Form.compare k).run env a b m = some (ofBool p, m₂, 1) := by
  obtain ⟨ta, tb, hta, htb, hw⟩ := h.types
  simp [Form.run, strict, hta, htb, h.left, h.right, Value.toInt, hk ta tb hw]

theorem run_less : (Form.compare .less).run env a b m = some (ofBool (w va < w vb), m₂, 1) :=
  h.run_compare fun ta tb hw => by rw [combine_less, hw, Option.map_some]

theorem run_equal : (Form.compare .equal).run env a b m = some (ofBool (w va = w vb), m₂, 1) :=
  h.run_compare fun ta tb hw => by rw [combine_equal, hw, Option.map_some]

theorem run_greater : (Form.compare .greater).run env a b m = some (ofBool (w vb < w va), m₂, 1) :=
  h.run_compare fun ta tb hw => by rw [combine_greater, hw, Option.map_some]

theorem meets_iff (c : Comparison) : Meets env c a b m ↔
    c.form.run env a b m = some (ofBool (c.holds va vb), m₂, 1) := by
  constructor
  · rintro ⟨va', vb', m₁', m₂', ha, hb, hrun⟩
    rw [h.left] at ha
    cases ha
    rw [h.right] at hb
    cases hb
    exact hrun
  · exact fun hrun => ⟨va, vb, m₁, m₂, h.left, h.right, hrun⟩

end Operands

end Operands

/-- A struct with an unsigned and a signed number. -/
def pairEnv : Env where
  unit := "Pair"
  members x := if x = "a" then some (.int ⟨32, false⟩) else if x = "b" then some (.int ⟨32, true⟩)
    else none

def pairUnit (a b : Int) : UnitMemory := fun x => ⟨if x = "a" then a else b, 0, [], 0⟩

end Diffingo.Generation
