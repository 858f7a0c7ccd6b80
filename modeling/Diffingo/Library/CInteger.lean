import Mathlib.Data.Int.Basic
import Mathlib.Data.Int.ModEq
import Mathlib.Tactic.Positivity

/-!
# C integer types

The integer types of a C program on a 64-bit two's complement machine: the value an object of a
type holds, the integer promotions, the usual arithmetic conversions and the result of an
arithmetic operation. An operation on a signed type whose mathematical result does not fit is
undefined and has no value here.
-/

namespace CInteger

/-- An integer type: its width in bits and whether it is signed. -/
structure IntTy where
  width : Nat
  signed : Bool
  deriving DecidableEq, Repr

namespace IntTy

abbrev int : IntTy := ⟨32, true⟩
abbrev long : IntTy := ⟨64, true⟩
abbrev sizeT : IntTy := ⟨64, false⟩
abbrev ssizeT : IntTy := ⟨64, true⟩

/-- The value of type `t` that a conversion of `v` produces. -/
def wrap (t : IntTy) (v : Int) : Int :=
  if t.signed then v.bmod (2 ^ t.width) else v % ((2 ^ t.width : Nat) : Int)

/-- The integer promotion: a type narrower than `int` becomes `int`. -/
def promote (t : IntTy) : IntTy :=
  if t.width < 32 then int else t

/-- The type two promoted operands are converted to: the wider one, and at equal width the
unsigned one. -/
def common (a b : IntTy) : IntTy :=
  let a := a.promote
  let b := b.promote
  if a.width < b.width then b
  else if b.width < a.width then a
  else if a.signed then b else a

/-- The result of an arithmetic operation of type `t`: unsigned types wrap, a signed result that
does not fit is undefined. -/
def result (t : IntTy) (v : Int) : Option Int :=
  if t.signed then if t.wrap v = v then some v else none else some (t.wrap v)

@[simp] theorem wrap_wrap (t : IntTy) (v : Int) : t.wrap (t.wrap v) = t.wrap v := by
  unfold wrap
  split <;> simp

/-- Going through a type at least as wide loses nothing. -/
theorem wrap_wrap_of_le {t u : IntTy} (h : t.width ≤ u.width) (v : Int) :
    t.wrap (u.wrap v) = t.wrap v := by
  have hdvd : 2 ^ t.width ∣ 2 ^ u.width := pow_dvd_pow 2 h
  have hdvdInt : ((2 ^ t.width : Nat) : Int) ∣ ((2 ^ u.width : Nat) : Int) :=
    Int.natCast_dvd_natCast.mpr hdvd
  unfold wrap
  by_cases ht : t.signed <;> by_cases hu : u.signed
  · simp only [ht, hu, if_true]
    exact Int.bmod_bmod_of_dvd hdvd
  · simp only [ht, hu, if_true, if_false, Bool.false_eq_true]
    rw [← Int.emod_bmod (v % _), Int.emod_emod_of_dvd v hdvdInt, Int.emod_bmod]
  · simp only [ht, hu, if_true, if_false, Bool.false_eq_true]
    rw [← Int.emod_emod_of_dvd (v.bmod _) hdvdInt, Int.bmod_emod, Int.emod_emod_of_dvd v hdvdInt]
  · simp only [ht, hu, if_false, Bool.false_eq_true]
    exact Int.emod_emod_of_dvd v hdvdInt

theorem wrap_unsigned (w : Nat) (v : Int) :
    (IntTy.mk w false).wrap v = v % ((2 ^ w : Nat) : Int) := by
  simp [wrap]

theorem wrap_unsigned_nonneg (w : Nat) (v : Int) : 0 ≤ (IntTy.mk w false).wrap v := by
  rw [wrap_unsigned]
  exact Int.emod_nonneg v (by positivity)

theorem wrap_unsigned_lt (w : Nat) (v : Int) :
    (IntTy.mk w false).wrap v < ((2 ^ w : Nat) : Int) := by
  rw [wrap_unsigned]
  exact Int.emod_lt_of_pos v (by positivity)

theorem wrap_unsigned_of_lt {w : Nat} {v : Int} (h : 0 ≤ v) (hlt : v < ((2 ^ w : Nat) : Int)) :
    (IntTy.mk w false).wrap v = v := by
  rw [wrap_unsigned]
  exact Int.emod_eq_of_lt h hlt

theorem wrap_signed_of_lt {w : Nat} {v : Int} (h : -((2 ^ w : Nat) : Int) ≤ v * 2)
    (hlt : v * 2 < ((2 ^ w : Nat) : Int)) : (IntTy.mk w true).wrap v = v := by
  simp only [wrap, if_true]
  exact Int.bmod_eq_of_le_mul_two h hlt

/-- One more than the largest number of the type. -/
def capacity (t : IntTy) : Nat := if t.signed then 2 ^ (t.width - 1) else 2 ^ t.width

/-- The numbers that are not negative and that the type holds. -/
theorem wrap_eq_iff {t : IntTy} {v : Int} (hv : 0 ≤ v) : t.wrap v = v ↔ v < t.capacity := by
  obtain ⟨w, s⟩ := t
  cases s with
  | false =>
    simp only [capacity, Bool.false_eq_true, if_false]
    refine ⟨fun h => ?_, fun h => wrap_unsigned_of_lt hv h⟩
    rw [← h]
    exact wrap_unsigned_lt w v
  | true =>
    simp only [capacity, if_true, wrap]
    cases w with
    | zero => simp; omega
    | succ w =>
      have hpow : (2 : Nat) ^ (w + 1) = 2 * 2 ^ w := pow_succ' 2 w
      rw [Nat.add_sub_cancel]
      refine ⟨fun h => ?_, fun h => Int.bmod_eq_of_le_mul_two ?_ ?_⟩
      · have hlt := Int.bmod_lt (x := v) (m := 2 ^ (w + 1)) (by positivity)
        rw [h, hpow] at hlt
        push_cast at hlt ⊢
        omega
      · rw [hpow]
        push_cast at h ⊢
        omega
      · rw [hpow]
        push_cast at h ⊢
        omega

theorem wrap_lt (t : IntTy) (v : Int) : t.wrap v < t.capacity := by
  by_cases hv : 0 ≤ t.wrap v
  · exact (wrap_eq_iff hv).mp (wrap_wrap t v)
  · have : (0 : Int) ≤ t.capacity := Int.natCast_nonneg _
    omega

/-- What an addition of numbers that are not negative gives: the sum if the type holds it, and
otherwise a smaller number or nothing. -/
theorem result_le {t : IntTy} {v r : Int} (hv : 0 ≤ v) (h : t.result v = some r) :
    0 ≤ r ∧ r ≤ v ∧ r < t.capacity := by
  obtain ⟨w, s⟩ := t
  cases s with
  | false =>
    obtain rfl : (IntTy.mk w false).wrap v = r := by simpa [result] using h
    refine ⟨wrap_unsigned_nonneg w v, ?_, wrap_unsigned_lt w v⟩
    obtain ⟨k, rfl⟩ := Int.eq_ofNat_of_zero_le hv
    rw [wrap_unsigned]
    exact_mod_cast Nat.mod_le k (2 ^ w)
  | true =>
    simp only [result, if_true] at h
    split at h
    · rename_i hwrap
      cases h
      exact ⟨hv, le_refl v, (wrap_eq_iff hv).mp hwrap⟩
    · cases h

theorem result_eq_iff {t : IntTy} {v : Int} (hv : 0 ≤ v) :
    t.result v = some v ↔ v < t.capacity := by
  refine ⟨fun h => (result_le hv h).2.2, fun h => ?_⟩
  have hwrap := (wrap_eq_iff hv).mpr h
  simp [result, hwrap]

theorem capacity_promote (t : IntTy) : t.capacity ≤ t.promote.capacity := by
  obtain ⟨w, s⟩ := t
  unfold promote
  split
  · rename_i hw
    cases s <;> exact Nat.pow_le_pow_right (by omega) (by simp at hw ⊢; omega)
  · exact le_refl _

/-- The common type holds what either operand can be, as far as it is not negative. -/
theorem capacity_common (a b : IntTy) :
    a.capacity ≤ (a.common b).capacity ∧ b.capacity ≤ (a.common b).capacity := by
  have hmono : ∀ p q : IntTy, p.width < q.width → p.capacity ≤ q.capacity := by
    intro p q hlt
    unfold capacity
    split <;> split <;> exact Nat.pow_le_pow_right (by omega) (by omega)
  have hsame : ∀ p q : IntTy, p.width = q.width → p.signed = true → p.capacity ≤ q.capacity := by
    intro p q heq hp
    unfold capacity
    rw [hp, if_pos rfl]
    split <;> exact Nat.pow_le_pow_right (by omega) (by omega)
  have ha := capacity_promote a
  have hb := capacity_promote b
  unfold common
  dsimp only
  split
  · exact ⟨ha.trans (hmono _ _ ‹_›), hb⟩
  · split
    · exact ⟨ha, hb.trans (hmono _ _ ‹_›)⟩
    · split
      · exact ⟨ha.trans (hsame _ _ (by omega) ‹_›), hb⟩
      · refine ⟨ha, hb.trans ?_⟩
        have hunsigned : a.promote.signed = false := by simpa using ‹¬ a.promote.signed = true›
        cases hs : b.promote.signed with
        | true => exact hsame _ _ (by omega) hs
        | false => simp [capacity, hunsigned, hs, show a.promote.width = b.promote.width by omega]

theorem common_cases (a b : IntTy) : a.common b = a.promote ∨ a.common b = b.promote := by
  unfold common
  dsimp only
  split
  · exact .inr rfl
  · split
    · exact .inl rfl
    · split
      · exact .inr rfl
      · exact .inl rfl

end IntTy

end CInteger
