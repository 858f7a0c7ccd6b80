import Mathlib.Data.List.TakeWhile
import Mathlib.Tactic.GCongr
import Mathlib.Tactic.Linarith
import Mathlib.Tactic.Ring
import Mathlib.Tactic.SplitIfs
import Diffingo.Library.CInteger

/-!
# Escape sequences of string literals

`expandEscapes` decodes the text of a string literal, `escapeBytes` prints a byte string as one.
A string is the list of its bytes. Positions are indices: the character behind the last one is the
terminating NUL, and a read behind that is out of bounds. The number reader `atoiN` computes in
the type of its result, so that a signed overflow is an outcome of its own.
-/

namespace Diffingo.Util

open CInteger

/-- How a call can end without a result. -/
inductive Failure where
  | runtimeError (what : String)
  | overflow
  | outOfBounds
  | unfinished
  deriving DecidableEq, Repr

/-- The character `*i` of the string `s`. -/
def charAt (s : List UInt8) (i : Nat) : Except Failure UInt8 :=
  if h : i < s.length then .ok s[i]
  else if i = s.length then .ok 0
  else .error .outOfBounds

/-- The value of a `char`, which is signed and eight bits wide. -/
def charValue (c : UInt8) : Int := if c.toNat < 128 then c.toNat else (c.toNat : Int) - 256

/-- The digit that the character `c` is in base `base`. -/
def digitOf (base : Int) (c : UInt8) : Option Int :=
  let v := charValue c
  if 48 ≤ v ∧ v ≤ 57 then some (v - 48)
  else if 97 ≤ v ∧ v < 97 - 10 + base then some (v - 97 + 10)
  else if 65 ≤ v ∧ v < 65 - 10 + base then some (v - 65 + 10)
  else none

/-- The assignment `n = n * base + d` of an object of type `t`, where `base` is an `int` and `d`
an `unsigned int`. -/
def shiftIn (t : IntTy) (base n d : Int) : Except Failure Int :=
  match (IntTy.common t .int).result (n * base) with
  | some product => .ok (t.wrap ((IntTy.mk 32 false).wrap (product + d)))
  | none => .error .overflow

/-- One iteration of the loop of `atoi_n` on the character `c`: the new number, or none where the
loop breaks. -/
def atoiStep (t : IntTy) (base n : Int) (first : Bool) (c : UInt8) :
    Except Failure (Option Int) :=
  match digitOf base c with
  | some d => (shiftIn t base n d).map some
  | none => if first then .error (.runtimeError "cannot decode number") else .ok none

/-- The loop of `atoi_n` over the at most `k` characters from `i` on. -/
def atoiLoop (t : IntTy) (base : Int) (s : List UInt8) :
    Nat → Nat → Int → Bool → Except Failure (Nat × Int)
  | 0, i, n, _ => .ok (i, n)
  | k + 1, i, n, first =>
    match (charAt s i).bind (atoiStep t base n first) with
    | .ok (some m) => atoiLoop t base s k (i + 1) m false
    | .ok none => .ok (i, n)
    | .error e => .error e

/-- Whether there is a character at `i`, before `e`, and it is the sign. -/
def startsNegative (s : List UInt8) (i e : Nat) : Except Failure Bool :=
  if i = e then .ok false else (charAt s i).map fun c => decide (c = '-'.toUInt8)

/-- The assignment `*result = -n`. -/
def negate (t : IntTy) (n : Int) : Except Failure Int :=
  match t.promote.result (-n) with
  | some v => .ok (t.wrap v)
  | none => .error .overflow

/-- `atoi_n` into an object of type `t`: the position it stopped at and the number. -/
def atoiN (t : IntTy) (base : Int) (s : List UInt8) (i e : Nat) : Except Failure (Nat × Int) :=
  (startsNegative s i e).bind fun neg =>
    if neg then
      (atoiLoop t base s (e - (i + 1)) (i + 1) 0 true).bind fun r =>
        (negate t r.2).map fun v => (r.1, v)
    else atoiLoop t base s (e - i) i 0 true

/-- `utf8proc_encode_char`: the bytes of a code point, none if it has no encoding. -/
def encodeChar (uc : Int) : List UInt8 :=
  let n := uc.toNat
  if uc < 0 then []
  else if n < 0x80 then [.ofNat n]
  else if n < 0x800 then [.ofNat (0xC0 + (n >>> 6)), .ofNat (0x80 + (n &&& 0x3F))]
  else if n = 0xFFFF then [0xFF]
  else if n = 0xFFFE then [0xFE]
  else if n < 0x10000 then
    [.ofNat (0xE0 + (n >>> 12)), .ofNat (0x80 + ((n >>> 6) &&& 0x3F)),
      .ofNat (0x80 + (n &&& 0x3F))]
  else if n < 0x110000 then
    [.ofNat (0xF0 + (n >>> 18)), .ofNat (0x80 + ((n >>> 12) &&& 0x3F)),
      .ofNat (0x80 + ((n >>> 6) &&& 0x3F)), .ofNat (0x80 + (n &&& 0x3F))]
  else []

/-- Reads the number of the `k` characters from `c` on, all of which have to belong to it. -/
def readNumber (t : IntTy) (s : List UInt8) (c k : Nat) : Except Failure (Nat × Int) :=
  (atoiN t 16 s c (c + k)).bind fun r =>
    if r.1 = c + k then .ok r else .error (.runtimeError "cannot decode character")

/-- The cases `u` and `U` of `expandEscapes`. -/
def expandUnicode (s : List UInt8) (c k : Nat) : Except Failure (Nat × List UInt8) :=
  (readNumber .int s c k).bind fun r =>
    if encodeChar r.2 = [] then .error (.runtimeError "cannot encode unicode code point")
    else .ok (r.1, encodeChar r.2)

/-- The case `x` of `expandEscapes`. -/
def expandHex (s : List UInt8) (c : Nat) : Except Failure (Nat × List UInt8) :=
  (readNumber ⟨8, true⟩ s c 2).bind fun r => .ok (r.1, [.ofInt r.2])

/-- The escapes of one letter with the bytes they stand for. -/
def simpleEscape (x : UInt8) : Option UInt8 :=
  if x = '\\'.toUInt8 then some '\\'.toUInt8
  else if x = '"'.toUInt8 then some '"'.toUInt8
  else if x = 'n'.toUInt8 then some '\n'.toUInt8
  else if x = 'r'.toUInt8 then some '\r'.toUInt8
  else if x = 't'.toUInt8 then some '\t'.toUInt8
  else none

/-- The `switch` of `expandEscapes` on the character `x` before `c`. -/
def expandSwitch (s : List UInt8) (x : UInt8) (c : Nat) : Except Failure (Nat × List UInt8) :=
  match simpleEscape x with
  | some y => .ok (c, [y])
  | none =>
    if x = 'u'.toUInt8 then expandUnicode s c 4
    else if x = 'U'.toUInt8 then expandUnicode s c 8
    else if x = 'x'.toUInt8 then expandHex s c
    else .error (.runtimeError "unknown escape sequence")

/-- One iteration of `expandEscapes`: the next position and the bytes appended to the result. -/
def expandStep (s : List UInt8) (c : Nat) : Except Failure (Nat × List UInt8) :=
  (charAt s c).bind fun x =>
    if x ≠ '\\'.toUInt8 then .ok (c + 1, [x])
    else if c + 1 = s.length then .error (.runtimeError "broken escape sequence")
    else (charAt s (c + 1)).bind fun x => expandSwitch s x (c + 2)

/-- The loop of `expandEscapes` from position `c` on, for at most `fuel` iterations. -/
def expandLoop (s : List UInt8) : Nat → Nat → List UInt8 → Except Failure (List UInt8)
  | 0, c, d => if c = s.length then .ok d else .error .unfinished
  | fuel + 1, c, d =>
    if c = s.length then .ok d
    else
      match expandStep s c with
      | .ok (next, bytes) => expandLoop s fuel next (d ++ bytes)
      | .error e => .error e

/-- `expandEscapes`. Each iteration takes at least one character, so that the string's length
bounds their number. -/
def expandEscapes (s : List UInt8) : Except Failure (List UInt8) := expandLoop s s.length 0 []

/-- `isprint` of the C locale. -/
def isprint (c : UInt8) : Bool := decide (0x20 ≤ c.toNat ∧ c.toNat ≤ 0x7e)

/-- A digit as `%x` prints it. -/
def hexDigit (n : Nat) : UInt8 := if n < 10 then .ofNat (48 + n) else .ofNat (97 + (n - 10))

/-- What `escapeBytes` appends for one byte. -/
def escapeByte (p : UInt8) : List UInt8 :=
  if p = '\\'.toUInt8 then ['\\'.toUInt8, '\\'.toUInt8]
  else if p = '"'.toUInt8 then ['\\'.toUInt8, '"'.toUInt8]
  else if p = '\n'.toUInt8 then ['\\'.toUInt8, 'n'.toUInt8]
  else if p = '\r'.toUInt8 then ['\\'.toUInt8, 'r'.toUInt8]
  else if p = '\t'.toUInt8 then ['\\'.toUInt8, 't'.toUInt8]
  else if isprint p then [p]
  else ['\\'.toUInt8, 'x'.toUInt8, hexDigit (p.toNat / 16), hexDigit (p.toNat % 16)]

/-- `escapeBytes`. -/
def escapeBytes (s : List UInt8) : List UInt8 := s.flatMap escapeByte

/-! ## Reading characters -/

@[simp] theorem ok_bind {α β : Type} (a : α) (f : α → Except Failure β) :
    (Except.ok a : Except Failure α).bind f = f a := rfl

@[simp] theorem error_bind {α β : Type} (e : Failure) (f : α → Except Failure β) :
    (Except.error e : Except Failure α).bind f = .error e := rfl

@[simp] theorem ok_map {α β : Type} (a : α) (f : α → β) :
    (Except.ok a : Except Failure α).map f = .ok (f a) := rfl

@[simp] theorem error_map {α β : Type} (e : Failure) (f : α → β) :
    (Except.error e : Except Failure α).map f = .error e := rfl

theorem charAt_append_cons (p r : List UInt8) (c : UInt8) :
    charAt (p ++ c :: r) p.length = .ok c := by
  simp [charAt]

theorem charAt_end (p : List UInt8) : charAt p p.length = .ok 0 := by
  simp [charAt]

/-- The hexadecimal digits. -/
def isHex (c : UInt8) : Bool := (digitOf 16 c).isSome

/-- The value of a hexadecimal digit. -/
def hexDigitValue (c : UInt8) : Int := (digitOf 16 c).getD 0

theorem digitOf_of_isHex {c : UInt8} (h : isHex c = true) :
    digitOf 16 c = some (hexDigitValue c) := by
  obtain ⟨d, hd⟩ := Option.isSome_iff_exists.mp h
  simp [hexDigitValue, hd]

theorem digitOf_of_not_isHex {c : UInt8} (h : isHex c = false) : digitOf 16 c = none := by
  simpa [isHex] using h

theorem hexDigitValue_bounds (c : UInt8) : 0 ≤ hexDigitValue c ∧ hexDigitValue c < 16 := by
  unfold hexDigitValue digitOf
  simp only
  split_ifs <;> simp <;> omega

theorem not_isHex_zero : isHex 0 = false := rfl

theorem not_isHex_minus : isHex '-'.toUInt8 = false := rfl

/-! ## The number reader -/

/-- The digits `ds` shifted into `n` one after the other. -/
def shiftInAll (t : IntTy) : Int → List UInt8 → Except Failure Int
  | n, [] => .ok n
  | n, c :: ds => (shiftIn t 16 n (hexDigitValue c)).bind fun n => shiftInAll t n ds

/-- The digits among the next `k` characters that the number reader takes. -/
def digitsOf (k : Nat) (r : List UInt8) : List UInt8 := (r.take k).takeWhile isHex

theorem digitsOf_length_le (k : Nat) (r : List UInt8) : (digitsOf k r).length ≤ k :=
  ((List.takeWhile_sublist _).length_le).trans (by simp)

theorem atoiStep_of_isHex (t : IntTy) (n : Int) (first : Bool) {c : UInt8} (h : isHex c = true) :
    atoiStep t 16 n first c = (shiftIn t 16 n (hexDigitValue c)).map some := by
  simp only [atoiStep, digitOf_of_isHex h]

theorem atoiStep_of_not_isHex (t : IntTy) (n : Int) (first : Bool) {c : UInt8}
    (h : isHex c = false) :
    atoiStep t 16 n first c =
      if first then .error (.runtimeError "cannot decode number") else .ok none := by
  simp only [atoiStep, digitOf_of_not_isHex h]

theorem atoiLoop_eq (t : IntTy) (k : Nat) (p r : List UInt8) (n : Int) (first : Bool) :
    atoiLoop t 16 (p ++ r) k p.length n first =
      (shiftInAll t n (digitsOf k r)).bind fun v =>
        if first ∧ k ≠ 0 ∧ digitsOf k r = [] then .error (.runtimeError "cannot decode number")
        else .ok (p.length + (digitsOf k r).length, v) := by
  induction k generalizing p r n first with
  | zero => simp [atoiLoop, digitsOf, shiftInAll]
  | succ k ih =>
    cases r with
    | nil =>
      rw [List.append_nil, atoiLoop, charAt_end, ok_bind, atoiStep_of_not_isHex t n first
        not_isHex_zero]
      cases first <;> simp [digitsOf, shiftInAll]
    | cons c r =>
      rw [atoiLoop, charAt_append_cons, ok_bind]
      by_cases hc : isHex c
      · have hnext := fun n => ih (p ++ [c]) r n false
        have hds : digitsOf (k + 1) (c :: r) = c :: digitsOf k r := by
          simp [digitsOf, hc]
        simp only [List.append_assoc, List.singleton_append, List.length_append,
          List.length_singleton] at hnext
        rw [atoiStep_of_isHex t n first hc, hds, shiftInAll]
        cases hs : shiftIn t 16 n (hexDigitValue c) with
        | error e => simp
        | ok m => simp [hnext, Nat.add_assoc, Nat.add_comm]
      · have hc : isHex c = false := by simpa using hc
        rw [atoiStep_of_not_isHex t n first hc]
        cases first <;> simp [digitsOf, hc, shiftInAll]

theorem digitsOf_append {ds : List UInt8} (h : ∀ c ∈ ds, isHex c = true) (r : List UInt8) :
    digitsOf ds.length (ds ++ r) = ds := by
  rw [digitsOf, List.take_left, List.takeWhile_eq_self_iff.mpr h]

theorem isHex_of_mem_digitsOf {k : Nat} {r : List UInt8} {c : UInt8} (h : c ∈ digitsOf k r) :
    isHex c = true :=
  List.mem_takeWhile_imp h

theorem eq_append_of_digitsOf_length {k : Nat} {r : List UInt8} (h : (digitsOf k r).length = k) :
    r = digitsOf k r ++ r.drop k := by
  have hsub : digitsOf k r <+: r.take k := List.takeWhile_prefix _
  have htake : digitsOf k r = r.take k := by
    refine hsub.eq_of_length_le ?_
    rw [h]
    exact List.length_take_le k r
  rw [htake, List.take_append_drop]

/-- Digits alone are read as the number they denote. -/
theorem readNumber_digits (t : IntTy) (p r : List UInt8) {ds : List UInt8} (hne : ds ≠ [])
    (h : ∀ c ∈ ds, isHex c = true) :
    readNumber t (p ++ (ds ++ r)) p.length ds.length =
      (shiftInAll t 0 ds).map fun v => (p.length + ds.length, v) := by
  obtain ⟨c, cs, rfl⟩ := List.exists_cons_of_ne_nil hne
  have hc : c ≠ '-'.toUInt8 := by
    rintro rfl
    exact absurd (h _ List.mem_cons_self) (by simp [not_isHex_minus])
  have hneg : startsNegative (p ++ (c :: cs ++ r)) p.length (p.length + (c :: cs).length) =
      .ok false := by
    simp [startsNegative, charAt_append_cons, hc]
  rw [readNumber, atoiN, hneg, ok_bind, if_neg Bool.false_ne_true, Nat.add_sub_cancel_left,
    atoiLoop_eq, digitsOf_append h]
  cases shiftInAll t 0 (c :: cs) <;> simp

/-- A sign before the digits is read as well. -/
theorem readNumber_signed (t : IntTy) (p r : List UInt8) {ds : List UInt8} (hne : ds ≠ [])
    (h : ∀ c ∈ ds, isHex c = true) :
    readNumber t (p ++ ('-'.toUInt8 :: ds ++ r)) p.length (ds.length + 1) =
      ((shiftInAll t 0 ds).bind (negate t)).map fun v => (p.length + (ds.length + 1), v) := by
  have hneg : startsNegative (p ++ ('-'.toUInt8 :: ds ++ r)) p.length
      (p.length + (ds.length + 1)) = .ok true := by
    simp [startsNegative, charAt_append_cons]
  have hloop := atoiLoop_eq t ds.length (p ++ ['-'.toUInt8]) (ds ++ r) 0 true
  rw [digitsOf_append h] at hloop
  simp only [List.append_assoc, List.singleton_append, List.length_append, List.length_singleton]
    at hloop
  have hk : p.length + (ds.length + 1) - (p.length + 1) = ds.length := by omega
  rw [readNumber, atoiN, hneg, ok_bind, if_pos rfl, hk, List.cons_append, hloop]
  cases shiftInAll t 0 ds with
  | error e => simp
  | ok v =>
    cases hv : negate t v with
    | error e => simp [hne, hv]
    | ok w => simp [hne, hv, Nat.add_comm, Nat.add_left_comm]

/-- No number of fewer than `k` digits overflows in the type `t`, nor does its negation. -/
def Fits (t : IntTy) (k : Nat) : Prop :=
  ∀ ds : List UInt8, ds.length < k → ∃ v w, shiftInAll t 0 ds = .ok v ∧ negate t v = .ok w

/-- Anything else than digits behind at most one sign ends in an exception. -/
theorem readNumber_other {t : IntTy} {k : Nat} (hfits : Fits t k) (p r : List UInt8)
    (hdigits : ∀ ds rest, (∀ c ∈ ds, isHex c = true) → ds.length = k → r ≠ ds ++ rest)
    (hsigned : ∀ ds rest, (∀ c ∈ ds, isHex c = true) → ds.length + 1 = k →
      r ≠ '-'.toUInt8 :: ds ++ rest) :
    ∃ what, readNumber t (p ++ r) p.length k = .error (.runtimeError what) := by
  by_cases hminus : ∃ r', r = '-'.toUInt8 :: r'
  · obtain ⟨r, rfl⟩ := hminus
    cases k with
    | zero => exact absurd (List.nil_append _).symm (hdigits [] _ (by simp) rfl)
    | succ k =>
      have hneg : startsNegative (p ++ '-'.toUInt8 :: r) p.length (p.length + (k + 1)) =
          .ok true := by
        simp [startsNegative, charAt_append_cons]
      have hloop := atoiLoop_eq t k (p ++ ['-'.toUInt8]) r 0 true
      simp only [List.append_assoc, List.singleton_append, List.length_append,
        List.length_singleton] at hloop
      have hk : p.length + (k + 1) - (p.length + 1) = k := by omega
      have hle := digitsOf_length_le k r
      obtain ⟨v, w, hv, hw⟩ := hfits (digitsOf k r) (by omega)
      rw [readNumber, atoiN, hneg, ok_bind, if_pos rfl, hk, hloop, hv, ok_bind]
      split
      · exact ⟨_, rfl⟩
      · refine ⟨"cannot decode character", ?_⟩
        have hlen : (digitsOf k r).length ≠ k := fun hlen =>
          hsigned _ _ (fun c => isHex_of_mem_digitsOf) (by omega)
            (congrArg _ (eq_append_of_digitsOf_length hlen))
        have hpos : p.length + 1 + (digitsOf k r).length ≠ p.length + (k + 1) := by omega
        simp [hw, hpos]
  · have hneg : startsNegative (p ++ r) p.length (p.length + k) = .ok false := by
      cases r with
      | nil =>
        have hzero : (0 : UInt8) ≠ '-'.toUInt8 := by decide
        simp [startsNegative, charAt_end, hzero]
      | cons c r =>
        have hc : c ≠ '-'.toUInt8 := fun hc => hminus ⟨r, by rw [hc]⟩
        simp [startsNegative, charAt_append_cons, hc]
    have hlen : (digitsOf k r).length ≠ k := fun hlen =>
      hdigits _ _ (fun c => isHex_of_mem_digitsOf) hlen (eq_append_of_digitsOf_length hlen)
    have hle := digitsOf_length_le k r
    obtain ⟨v, w, hv, -⟩ := hfits (digitsOf k r) (by omega)
    rw [readNumber, atoiN, hneg, ok_bind, if_neg Bool.false_ne_true, Nat.add_sub_cancel_left,
      atoiLoop_eq, hv, ok_bind]
    split
    · exact ⟨_, rfl⟩
    · refine ⟨"cannot decode character", ?_⟩
      simp [hlen]

/-! ## The numbers read -/

/-- The number that the digits `ds` denote behind the number `n`. -/
def digitsFrom (n : Int) (ds : List UInt8) : Int := ds.foldl (fun n c => n * 16 + hexDigitValue c) n

/-- The number that the digits `ds` denote. -/
def hexValue (ds : List UInt8) : Int := digitsFrom 0 ds

theorem digitsFrom_cons (n : Int) (c : UInt8) (ds : List UInt8) :
    digitsFrom n (c :: ds) = digitsFrom (n * 16 + hexDigitValue c) ds := rfl

theorem shiftIn_char {n d : Int} (hn : -128 ≤ n ∧ n ≤ 127) :
    shiftIn ⟨8, true⟩ 16 n d = .ok ((IntTy.mk 8 true).wrap (n * 16 + d)) := by
  have hproduct : IntTy.int.wrap (n * 16) = n * 16 :=
    IntTy.wrap_signed_of_lt (by simp; omega) (by simp; omega)
  have hcommon : IntTy.common ⟨8, true⟩ .int = .int := by decide
  have hresult : IntTy.int.result (n * 16) = some (n * 16) := by
    simp [IntTy.result, hproduct]
  simp only [shiftIn, hcommon, hresult]
  rw [IntTy.wrap_wrap_of_le (by decide)]

theorem shiftIn_int {n d : Int} (hn : 0 ≤ n ∧ n * 16 + 15 < 2 ^ 31) (hd : 0 ≤ d ∧ d < 16) :
    shiftIn .int 16 n d = .ok (n * 16 + d) := by
  have hproduct : IntTy.int.wrap (n * 16) = n * 16 :=
    IntTy.wrap_signed_of_lt (by simp; omega) (by simp; omega)
  have hsum : IntTy.int.wrap (n * 16 + d) = n * 16 + d :=
    IntTy.wrap_signed_of_lt (by simp; omega) (by simp; omega)
  have hcommon : IntTy.common .int .int = .int := by decide
  have hresult : IntTy.int.result (n * 16) = some (n * 16) := by
    simp [IntTy.result, hproduct]
  simp only [shiftIn, hcommon, hresult]
  rw [IntTy.wrap_wrap_of_le (by decide), hsum]

theorem shiftIn_int_overflow {n d : Int} (hn : 2 ^ 27 ≤ n ∧ n < 2 ^ 31) :
    shiftIn .int 16 n d = .error .overflow := by
  have hproduct : IntTy.int.wrap (n * 16) ≠ n * 16 := by
    simp only [IntTy.wrap, if_true]
    have := @Int.bmod_lt (n * 16) (2 ^ 32) (by decide)
    intro heq
    rw [heq] at this
    norm_num at this
    omega
  have hcommon : IntTy.common .int .int = .int := by decide
  have hresult : IntTy.int.result (n * 16) = none := by
    simp [IntTy.result, hproduct]
  simp only [shiftIn, hcommon, hresult]

/-- In a `char` the digits give their number modulo 256. -/
theorem shiftInAll_char (ds : List UInt8) {n m : Int} (hn : -128 ≤ n ∧ n ≤ 127)
    (hnm : n ≡ m [ZMOD 256]) :
    ∃ v, shiftInAll ⟨8, true⟩ n ds = .ok v ∧ (-128 ≤ v ∧ v ≤ 127) ∧
      v ≡ digitsFrom m ds [ZMOD 256] := by
  induction ds generalizing n m with
  | nil => exact ⟨n, rfl, hn, hnm⟩
  | cons c ds ih =>
    have hwrap : (IntTy.mk 8 true).wrap (n * 16 + hexDigitValue c) ≡
        n * 16 + hexDigitValue c [ZMOD 256] := by
      simp only [IntTy.wrap, if_true, Int.ModEq]
      exact Int.bmod_emod
    have hlow : -128 ≤ (IntTy.mk 8 true).wrap (n * 16 + hexDigitValue c) := by
      simp only [IntTy.wrap, if_true]
      exact @Int.le_bmod _ (2 ^ 8) (by decide)
    have hhigh : (IntTy.mk 8 true).wrap (n * 16 + hexDigitValue c) ≤ 127 := by
      simp only [IntTy.wrap, if_true]
      exact Int.le_of_lt_add_one (@Int.bmod_lt _ (2 ^ 8) (by decide))
    obtain ⟨v, hv, hrange, hmod⟩ := ih ⟨hlow, hhigh⟩
      (hwrap.trans ((hnm.mul_right 16).add_right _))
    exact ⟨v, by rw [shiftInAll, shiftIn_char hn, ok_bind, hv], hrange, hmod⟩

theorem digitsFrom_bounds (ds : List UInt8) {n : Int} (hn : 0 ≤ n) :
    0 ≤ digitsFrom n ds ∧ digitsFrom n ds < (n + 1) * 16 ^ ds.length := by
  induction ds generalizing n with
  | nil => simpa [digitsFrom] using hn
  | cons c ds ih =>
    have hd := hexDigitValue_bounds c
    obtain ⟨hlow, hhigh⟩ := @ih (n * 16 + hexDigitValue c) (by omega)
    refine ⟨hlow, hhigh.trans_le ?_⟩
    calc (n * 16 + hexDigitValue c + 1) * 16 ^ ds.length
        ≤ ((n + 1) * 16) * 16 ^ ds.length := by gcongr; omega
      _ = (n + 1) * 16 ^ (c :: ds).length := by rw [List.length_cons]; ring

/-- In an `int` the digits give their number as long as it fits. -/
theorem shiftInAll_int (ds : List UInt8) {n : Int} (hn : 0 ≤ n)
    (hfit : (n + 1) * 16 ^ ds.length ≤ 2 ^ 31) :
    shiftInAll .int n ds = .ok (digitsFrom n ds) := by
  induction ds generalizing n with
  | nil => rfl
  | cons c ds ih =>
    have hd := hexDigitValue_bounds c
    have hone : (1 : Int) ≤ 16 ^ ds.length := one_le_pow₀ (by norm_num)
    have hsplit : (n + 1) * 16 ^ (c :: ds).length = ((n + 1) * 16) * 16 ^ ds.length := by
      rw [List.length_cons]; ring
    have hshift : (n + 1) * 16 ≤ 2 ^ 31 := by nlinarith
    rw [shiftInAll, shiftIn_int ⟨hn, by omega⟩ hd, ok_bind, digitsFrom_cons]
    refine ih (by omega) ?_
    calc (n * 16 + hexDigitValue c + 1) * 16 ^ ds.length
        ≤ ((n + 1) * 16) * 16 ^ ds.length := by gcongr; omega
      _ ≤ 2 ^ 31 := by omega

theorem shiftInAll_int_overflow (ds : List UInt8) {n : Int} (hn : 0 ≤ n ∧ n < 2 ^ 31)
    (hover : 2 ^ 31 ≤ n * 16 ^ ds.length) : shiftInAll .int n ds = .error .overflow := by
  induction ds generalizing n with
  | nil => simp at hover; omega
  | cons c ds ih =>
    by_cases hbig : 2 ^ 27 ≤ n
    · rw [shiftInAll, shiftIn_int_overflow ⟨hbig, hn.2⟩, error_bind]
    · have hd := hexDigitValue_bounds c
      rw [shiftInAll, shiftIn_int ⟨hn.1, by omega⟩ hd, ok_bind]
      refine ih ⟨by omega, by omega⟩ (hover.trans ?_)
      calc n * 16 ^ (c :: ds).length = (n * 16) * 16 ^ ds.length := by
            rw [List.length_cons]; ring
        _ ≤ (n * 16 + hexDigitValue c) * 16 ^ ds.length := by gcongr; omega

theorem negate_char {n : Int} (hn : -128 ≤ n ∧ n ≤ 127) :
    negate ⟨8, true⟩ n = .ok ((IntTy.mk 8 true).wrap (-n)) := by
  have hwrap : IntTy.int.wrap (-n) = -n :=
    IntTy.wrap_signed_of_lt (by simp; omega) (by simp; omega)
  have hpromote : (IntTy.mk 8 true).promote = .int := by decide
  have hresult : IntTy.int.result (-n) = some (-n) := by
    simp [IntTy.result, hwrap]
  simp only [negate, hpromote, hresult]

theorem negate_int {n : Int} (hn : 0 ≤ n ∧ n < 2 ^ 31) : negate .int n = .ok (-n) := by
  have hwrap : IntTy.int.wrap (-n) = -n :=
    IntTy.wrap_signed_of_lt (by simp; omega) (by simp; omega)
  have hpromote : IntTy.int.promote = .int := by decide
  have hresult : IntTy.int.result (-n) = some (-n) := by
    simp [IntTy.result, hwrap]
  simp only [negate, hpromote, hresult, hwrap]

theorem fits_char (k : Nat) : Fits ⟨8, true⟩ k := by
  intro ds _
  obtain ⟨v, hv, hrange, -⟩ := @shiftInAll_char ds 0 0 (by norm_num) rfl
  exact ⟨v, _, hv, negate_char hrange⟩

/-- Seven digits always fit in an `int`. -/
theorem shiftInAll_hexValue {ds : List UInt8} (h : ds.length ≤ 7) :
    shiftInAll .int 0 ds = .ok (hexValue ds) ∧ 0 ≤ hexValue ds ∧ hexValue ds < 2 ^ 31 := by
  have hpow : (16 : Int) ^ ds.length ≤ 16 ^ 7 := pow_le_pow_right₀ (by norm_num) h
  obtain ⟨hlow, hhigh⟩ := @digitsFrom_bounds ds 0 le_rfl
  refine ⟨shiftInAll_int ds le_rfl ?_, hlow, ?_⟩
  · omega
  · exact hhigh.trans_le (by omega)

theorem fits_int {k : Nat} (h : k ≤ 8) : Fits .int k := by
  intro ds hlt
  obtain ⟨hv, hrange⟩ := @shiftInAll_hexValue ds (by omega)
  exact ⟨_, _, hv, negate_int hrange⟩

theorem le_digitsFrom (ds : List UInt8) (n : Int) : n * 16 ^ ds.length ≤ digitsFrom n ds := by
  induction ds generalizing n with
  | nil => simp [digitsFrom]
  | cons c ds ih =>
    have hd := hexDigitValue_bounds c
    calc n * 16 ^ (c :: ds).length = (n * 16) * 16 ^ ds.length := by
          rw [List.length_cons]; ring
      _ ≤ (n * 16 + hexDigitValue c) * 16 ^ ds.length := by gcongr; omega
      _ ≤ digitsFrom n (c :: ds) := ih _

/-- Eight digits fit in an `int` exactly if the first one is below eight. -/
theorem shiftInAll_eight {c : UInt8} {ds : List UInt8} (h : ds.length = 7) :
    shiftInAll .int 0 (c :: ds) =
      if hexDigitValue c < 8 then .ok (hexValue (c :: ds)) else .error .overflow := by
  have hd := hexDigitValue_bounds c
  have hpow : (16 : Int) ^ ds.length = 2 ^ 28 := by rw [h]; norm_num
  rw [shiftInAll, shiftIn_int (by norm_num) hd, ok_bind]
  split_ifs with hc
  · exact shiftInAll_int ds (by omega) (by rw [hpow]; omega)
  · exact shiftInAll_int_overflow ds ⟨by omega, by omega⟩ (by rw [hpow]; omega)

theorem encodeChar_eq_nil_iff (v : Int) : encodeChar v = [] ↔ v < 0 ∨ 0x110000 ≤ v := by
  unfold encodeChar
  simp only
  split_ifs <;> simp <;> omega

end Diffingo.Util
