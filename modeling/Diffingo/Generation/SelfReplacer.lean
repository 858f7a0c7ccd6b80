import Diffingo.Generation.ExpressionLemmas
import Diffingo.Generation.InstantiationTypeGenerator

/-!
# Redirected expressions

An expression whose `self` is the old unit means in the struct of the old unit what the redirected
expression means in the struct of the new one.
-/

namespace Diffingo.Spec.Expr

/-- Every `self` in the expression is the unit `u`. -/
def within (u : String) : Expr → Bool
  | .assign a b | .conditionalThen a b => a.within u && b.within u
  | .conditional a b c => a.within u && b.within u && c.within u
  | .find a b c d => a.within u && b.within u && c.within u && d.within u
  | .lambda _ a => a.within u
  | .unary _ a => a.within u
  | .binary _ a b => a.within u && b.within u
  | .ternary _ a b c => a.within u && b.within u && c.within u
  | .parserState (.self u') => u' = u
  | _ => true

attribute [local simp] replaceSelf members sideEffectFree

@[simp] theorem members_replaceSelf (u : String) (e : Expr) :
    (e.replaceSelf u).members = e.members := by
  induction e with
  | parserState s => cases s <;> rfl
  | _ => simp_all

@[simp] theorem sideEffectFree_replaceSelf (u : String) (e : Expr) :
    (e.replaceSelf u).sideEffectFree = e.sideEffectFree := by
  induction e with
  | parserState s => cases s <;> rfl
  | _ => simp_all

theorem replaceSelf_eq_self {u w : String} {e : Expr}
    (h : e.replaceSelf u = .parserState (.self w)) : ∃ w', e = .parserState (.self w') := by
  cases e with
  | parserState s =>
    cases s with
    | self w' => exact ⟨w', rfl⟩
    | _ => cases h
  | _ => cases h

theorem replaceSelf_eq_memberAttribute {u x : String} {e : Expr}
    (h : e.replaceSelf u = .memberAttribute x) : e = .memberAttribute x := by
  cases e with
  | memberAttribute y => exact h
  | parserState s => cases s <;> cases h
  | _ => cases h

end Diffingo.Spec.Expr

namespace Diffingo.Generation

open CInteger Diffingo.Spec Diffingo.Runtime

/-- The same struct under another name. -/
def Env.named (env : Env) (u : String) : Env := { env with unit := u }

section Replace

variable {u : String}

theorem lvalue_replaceSelf (env : Env) {e : Expr} (h : e.within u = true) :
    lvalue env (e.replaceSelf env.unit) = lvalue (env.named u) e := by
  cases e with
  | parserState s =>
    cases s <;> rfl
  | binary k a b =>
    by_cases hmatch : ∃ w x, k = .attribute ∧ a = .parserState (.self w) ∧ b = .memberAttribute x
    · obtain ⟨w, x, rfl, rfl, rfl⟩ := hmatch
      obtain rfl : w = u := by simpa [Expr.within] using h
      simp [Expr.replaceSelf, lvalue, Env.named]
    · have hright : lvalue (env.named u) (.binary k a b) = none := by
        unfold lvalue
        split
        · rename_i heq
          cases heq
          exact absurd ⟨_, _, rfl, rfl, rfl⟩ hmatch
        · rename_i heq
          cases heq
        · rfl
      rw [hright]
      unfold lvalue
      split
      · rename_i heq
        obtain ⟨rfl, ha, hb⟩ : k = .attribute ∧ _ ∧ _ := by simpa [Expr.replaceSelf] using heq
        obtain ⟨w', rfl⟩ := Expr.replaceSelf_eq_self ha
        exact absurd ⟨_, _, rfl, rfl, Expr.replaceSelf_eq_memberAttribute hb⟩ hmatch
      · rename_i heq
        cases heq
      · rfl
  | _ => rfl

theorem castType_replaceSelf (e : Expr) : castType (e.replaceSelf u) = castType e := by
  cases e with
  | parserState s => cases s <;> rfl
  | _ => rfl

theorem typeOf_replaceSelf (env : Env) {e : Expr} (h : e.within u = true) :
    typeOf env (e.replaceSelf env.unit) = typeOf (env.named u) e := by
  induction e with
  | assign d s ihd ihs =>
    simp only [Expr.within, Bool.and_eq_true] at h
    simp only [Expr.replaceSelf, typeOf, lvalue_replaceSelf env h.1]
  | conditional c a b ihc iha ihb =>
    simp only [Expr.within, Bool.and_eq_true] at h
    simp only [Expr.replaceSelf, typeOf, iha h.1.2, ihb h.2]
  | conditionalThen c a ihc iha =>
    simp only [Expr.within, Bool.and_eq_true] at h
    simp only [Expr.replaceSelf, typeOf, iha h.2]
  | unary k a iha =>
    have ha : a.within u = true := h
    simp only [Expr.replaceSelf, typeOf, lvalue_replaceSelf env ha]
  | binary k a b iha ihb =>
    have hab := lvalue_replaceSelf env
      (show (Expr.binary .attribute a b).within u = true from h)
    simp only [Expr.within, Bool.and_eq_true] at h
    simp only [Expr.replaceSelf, typeOf, iha h.1, ihb h.2, castType_replaceSelf] at hab ⊢
    rw [hab]
  | ternary k a b c iha ihb ihc =>
    simp only [Expr.within, Bool.and_eq_true] at h
    have hab := lvalue_replaceSelf env
      (show (Expr.binary .attribute a b).within u = true by simp [Expr.within, h.1])
    simp only [Expr.replaceSelf, typeOf] at hab ⊢
    rw [hab]
  | parserState s =>
    have hs := lvalue_replaceSelf env h
    cases s <;> simpa only [Expr.replaceSelf, typeOf] using congrArg (Option.map (·.2)) hs
  | _ => rfl

theorem eval_replaceSelf (env : Env) {e : Expr} (h : e.within u = true) :
    eval env (e.replaceSelf env.unit) = eval (env.named u) e := by
  induction e with
  | assign d s ihd ihs =>
    simp only [Expr.within, Bool.and_eq_true] at h
    simp only [Expr.replaceSelf, eval, lvalue_replaceSelf env h.1, typeOf_replaceSelf env h.2, ihs h.2]
  | conditional c a b ihc iha ihb =>
    have htype := typeOf_replaceSelf env h
    simp only [Expr.within, Bool.and_eq_true] at h
    simp only [Expr.replaceSelf, eval] at htype ⊢
    rw [htype, typeOf_replaceSelf env h.1.1, ihc h.1.1, iha h.1.2, ihb h.2]
  | conditionalThen c a ihc iha =>
    have htype := typeOf_replaceSelf env h
    simp only [Expr.within, Bool.and_eq_true] at h
    simp only [Expr.replaceSelf, eval] at htype ⊢
    rw [htype, typeOf_replaceSelf env h.1, ihc h.1, iha h.2]
  | unary k a iha =>
    have ha : a.within u = true := h
    simp only [Expr.replaceSelf, eval, lvalue_replaceSelf env ha, typeOf_replaceSelf env ha, iha ha]
  | binary k a b iha ihb =>
    have hab := lvalue_replaceSelf env
      (show (Expr.binary .attribute a b).within u = true from h)
    simp only [Expr.within, Bool.and_eq_true] at h
    simp only [Expr.replaceSelf, eval, iha h.1, ihb h.2, castType_replaceSelf,
      typeOf_replaceSelf env h.1, typeOf_replaceSelf env h.2] at hab ⊢
    rw [hab]
  | ternary k a b c iha ihb ihc =>
    simp only [Expr.within, Bool.and_eq_true] at h
    have hab := lvalue_replaceSelf env
      (show (Expr.binary .attribute a b).within u = true by simp [Expr.within, h.1])
    simp only [Expr.replaceSelf, eval, typeOf_replaceSelf env h.2, ihc h.2] at hab ⊢
    rw [hab]
  | parserState s =>
    have hs := lvalue_replaceSelf env h
    cases s <;> simpa only [Expr.replaceSelf, eval] using congrArg load hs
  | _ => rfl

end Replace

end Diffingo.Generation
