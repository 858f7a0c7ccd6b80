import Diffingo.Util.Escapes

/-!
# The language of `expandEscapes`

The texts that `expandEscapes` is meant to accept, with the bytes they stand for. The decoder also
takes a sign in place of the first digit of a number, and the number of eight digits can overflow;
with both described, what it does is determined on every text.
-/

namespace Diffingo.Util

open CInteger

/-- The escapes of one letter and the bytes they stand for. -/
def simpleEscapes : List (UInt8 × UInt8) :=
  [('\\'.toUInt8, '\\'.toUInt8), ('"'.toUInt8, '"'.toUInt8), ('n'.toUInt8, '\n'.toUInt8),
    ('r'.toUInt8, '\r'.toUInt8), ('t'.toUInt8, '\t'.toUInt8)]

/-- The letters of the code point escapes and their numbers of digits. -/
def unicodeEscapes : List (UInt8 × Nat) := [('u'.toUInt8, 4), ('U'.toUInt8, 8)]

/-- Exactly `k` hexadecimal digits. -/
def HexDigits (k : Nat) (ds : List UInt8) : Prop := ds.length = k ∧ ∀ c ∈ ds, isHex c = true

/-- One element of the language and its bytes. With `signs` a number may have a sign in place of
its first digit. -/
inductive Escape (signs : Bool) : List UInt8 → List UInt8 → Prop
  | plain {c : UInt8} (h : c ≠ '\\'.toUInt8) : Escape signs [c] [c]
  | simple {x y : UInt8} (h : (x, y) ∈ simpleEscapes) : Escape signs ['\\'.toUInt8, x] [y]
  | hex {ds : List UInt8} (h : HexDigits 2 ds) :
      Escape signs ('\\'.toUInt8 :: 'x'.toUInt8 :: ds) [.ofInt (hexValue ds)]
  | unicode {x : UInt8} {k : Nat} {ds : List UInt8} (hx : (x, k) ∈ unicodeEscapes)
      (h : HexDigits k ds) (encodable : encodeChar (hexValue ds) ≠ []) :
      Escape signs ('\\'.toUInt8 :: x :: ds) (encodeChar (hexValue ds))
  | signedHex {ds : List UInt8} (allowed : signs = true) (h : HexDigits 1 ds) :
      Escape signs ('\\'.toUInt8 :: 'x'.toUInt8 :: '-'.toUInt8 :: ds) [.ofInt (-hexValue ds)]
  | signedUnicode {x : UInt8} {k : Nat} {ds : List UInt8} (allowed : signs = true)
      (hx : (x, k + 1) ∈ unicodeEscapes) (h : HexDigits k ds)
      (encodable : encodeChar (-hexValue ds) ≠ []) :
      Escape signs ('\\'.toUInt8 :: x :: '-'.toUInt8 :: ds) (encodeChar (-hexValue ds))

/-- A concatenation of elements and the bytes it stands for. -/
inductive Expands (signs : Bool) : List UInt8 → List UInt8 → Prop
  | nil : Expands signs [] []
  | cons {t bytes s d : List UInt8} (head : Escape signs t bytes) (tail : Expands signs s d) :
      Expands signs (t ++ s) (bytes ++ d)

/-- An escape whose number does not fit in 32 bits with a sign. -/
def Overflowing (t : List UInt8) : Prop :=
  ∃ c ds, t = '\\'.toUInt8 :: 'U'.toUInt8 :: c :: ds ∧ HexDigits 8 (c :: ds) ∧
    8 ≤ hexDigitValue c

/-- The decoder comes to an escape whose number overflows. -/
def Overflows (s : List UInt8) : Prop :=
  ∃ before t after d, s = before ++ t ++ after ∧ Expands true before d ∧ Overflowing t

theorem Escape.signed {signs : Bool} {t bytes : List UInt8} (h : Escape signs t bytes) :
    Escape true t bytes := by
  cases h with
  | plain h => exact .plain h
  | simple h => exact .simple h
  | hex h => exact .hex h
  | unicode hx h he => exact .unicode hx h he
  | signedHex _ h => exact .signedHex rfl h
  | signedUnicode _ hx h he => exact .signedUnicode rfl hx h he

theorem Expands.signed {signs : Bool} {s d : List UInt8} (h : Expands signs s d) :
    Expands true s d := by
  induction h with
  | nil => exact .nil
  | cons head _ ih => exact .cons head.signed ih

theorem Escape.ne_nil {signs : Bool} {t bytes : List UInt8} (h : Escape signs t bytes) :
    t ≠ [] := by
  cases h <;> simp

/-! ## One iteration -/

theorem simpleEscape_iff (x y : UInt8) : simpleEscape x = some y ↔ (x, y) ∈ simpleEscapes := by
  constructor
  · intro h
    unfold simpleEscape at h
    split_ifs at h with h₁ h₂ h₃ h₄ h₅ <;> cases h <;> subst x <;> simp [simpleEscapes]
  · intro h
    simp only [simpleEscapes, List.mem_cons, Prod.mk.injEq, List.not_mem_nil, or_false] at h
    obtain ⟨rfl, rfl⟩ | ⟨rfl, rfl⟩ | ⟨rfl, rfl⟩ | ⟨rfl, rfl⟩ | ⟨rfl, rfl⟩ := h <;> decide

theorem expandStep_plain (p r : List UInt8) {c : UInt8} (h : c ≠ '\\'.toUInt8) :
    expandStep (p ++ c :: r) p.length = .ok (p.length + 1, [c]) := by
  rw [expandStep, charAt_append_cons, ok_bind, if_pos h]

theorem expandStep_broken (p : List UInt8) :
    expandStep (p ++ ['\\'.toUInt8]) p.length =
      .error (.runtimeError "broken escape sequence") := by
  rw [expandStep, charAt_append_cons, ok_bind, if_neg (by simp), if_pos (by simp)]

theorem expandStep_switch (p r : List UInt8) (x : UInt8) :
    expandStep (p ++ '\\'.toUInt8 :: x :: r) p.length =
      expandSwitch ((p ++ ['\\'.toUInt8, x]) ++ r) x (p ++ ['\\'.toUInt8, x]).length := by
  have hx := charAt_append_cons (p ++ ['\\'.toUInt8]) r x
  simp only [List.append_assoc, List.singleton_append, List.length_append,
    List.length_singleton] at hx
  rw [expandStep, charAt_append_cons, ok_bind, if_neg (by simp), if_neg (by simp), hx, ok_bind]
  simp

/-- The bytes of a `char` depend on its value modulo 256 only. -/
theorem ofInt_congr {v w : Int} (h : v ≡ w [ZMOD 256]) : UInt8.ofInt v = UInt8.ofInt w := by
  have hmod : v % 2 ^ 8 = w % 2 ^ 8 := h
  simp only [UInt8.ofInt, hmod]

theorem expandHex_digits (p r : List UInt8) {ds : List UInt8} (h : HexDigits 2 ds) :
    expandHex (p ++ (ds ++ r)) p.length = .ok (p.length + 2, [.ofInt (hexValue ds)]) := by
  obtain ⟨hlen, hds⟩ := h
  obtain ⟨v, hv, -, hmod⟩ := @shiftInAll_char ds 0 0 (by norm_num) rfl
  have hread := readNumber_digits ⟨8, true⟩ p r (by rintro rfl; simp at hlen) hds
  rw [hlen, hv] at hread
  rw [expandHex, hread]
  simp [ofInt_congr hmod, hexValue]

theorem expandHex_signed (p r : List UInt8) {ds : List UInt8} (h : HexDigits 1 ds) :
    expandHex (p ++ ('-'.toUInt8 :: ds ++ r)) p.length =
      .ok (p.length + 2, [.ofInt (-hexValue ds)]) := by
  obtain ⟨hlen, hds⟩ := h
  obtain ⟨v, hv, hrange, hmod⟩ := @shiftInAll_char ds 0 0 (by norm_num) rfl
  have hread := readNumber_signed ⟨8, true⟩ p r (by rintro rfl; simp at hlen) hds
  have hwrap : (IntTy.mk 8 true).wrap (-v) ≡ -v [ZMOD 256] := by
    simp only [IntTy.wrap, if_true, Int.ModEq]
    exact Int.bmod_emod
  rw [hlen, hv, ok_bind, negate_char hrange] at hread
  rw [expandHex, hread]
  simp [ofInt_congr (hwrap.trans hmod.neg), hexValue]

theorem shiftInAll_of_encodable {k : Nat} {ds : List UInt8} (hk : k ≤ 8) (h : HexDigits k ds)
    (encodable : encodeChar (hexValue ds) ≠ []) :
    shiftInAll .int 0 ds = .ok (hexValue ds) := by
  obtain ⟨hlen, -⟩ := h
  by_cases hshort : ds.length ≤ 7
  · exact (shiftInAll_hexValue hshort).1
  · obtain ⟨c, ds, rfl⟩ := List.exists_cons_of_length_pos (show 0 < ds.length by omega)
    have hseven : ds.length = 7 := by simp only [List.length_cons] at hlen hshort; omega
    have hle := le_digitsFrom ds (hexDigitValue c)
    have hvalue : hexValue (c :: ds) = digitsFrom (hexDigitValue c) ds := by
      simp [hexValue, digitsFrom_cons]
    rw [shiftInAll_eight hseven, if_pos]
    rw [Ne, encodeChar_eq_nil_iff, hvalue] at encodable
    rw [hseven] at hle
    omega

theorem expandUnicode_digits (p r : List UInt8) {k : Nat} {ds : List UInt8} (hk : 0 < k ∧ k ≤ 8)
    (h : HexDigits k ds) (encodable : encodeChar (hexValue ds) ≠ []) :
    expandUnicode (p ++ (ds ++ r)) p.length k =
      .ok (p.length + k, encodeChar (hexValue ds)) := by
  have hread := readNumber_digits .int p r (by rintro rfl; have := h.1; simp at this; omega) h.2
  rw [h.1, shiftInAll_of_encodable hk.2 h encodable, ok_map] at hread
  rw [expandUnicode, hread, ok_bind, if_neg encodable]

theorem expandUnicode_signed (p r : List UInt8) {k : Nat} {ds : List UInt8} (hk : 0 < k ∧ k ≤ 7)
    (h : HexDigits k ds) (encodable : encodeChar (-hexValue ds) ≠ []) :
    expandUnicode (p ++ ('-'.toUInt8 :: ds ++ r)) p.length (k + 1) =
      .ok (p.length + (k + 1), encodeChar (-hexValue ds)) := by
  have hread := readNumber_signed .int p r (by rintro rfl; have := h.1; simp at this; omega) h.2
  obtain ⟨hv, hrange⟩ := @shiftInAll_hexValue ds (by have := h.1; omega)
  rw [h.1, hv, ok_bind, negate_int hrange, ok_map] at hread
  rw [expandUnicode, hread, ok_bind, if_neg encodable]

theorem mem_unicodeEscapes {x : UInt8} {k : Nat} (h : (x, k) ∈ unicodeEscapes) :
    (x = 'u'.toUInt8 ∧ k = 4) ∨ (x = 'U'.toUInt8 ∧ k = 8) := by
  simpa [unicodeEscapes] using h

theorem expandSwitch_unicode (s : List UInt8) (c : Nat) {x : UInt8} {k : Nat}
    (h : (x, k) ∈ unicodeEscapes) : expandSwitch s x c = expandUnicode s c k := by
  have hu : simpleEscape 'u'.toUInt8 = none := by decide
  have hU : simpleEscape 'U'.toUInt8 = none := by decide
  obtain ⟨rfl, rfl⟩ | ⟨rfl, rfl⟩ := mem_unicodeEscapes h
  · simp only [expandSwitch, hu, if_true]
  · simp only [expandSwitch, hU, if_true]
    rw [if_neg (by decide)]

theorem expandSwitch_hex (s : List UInt8) (c : Nat) :
    expandSwitch s 'x'.toUInt8 c = expandHex s c := by
  have hx : simpleEscape 'x'.toUInt8 = none := by decide
  simp only [expandSwitch, hx]
  rw [if_neg (by decide), if_neg (by decide), if_true]

/-- An iteration takes the element that the rest of the text starts with. -/
theorem expandStep_escape (p r : List UInt8) {t bytes : List UInt8} (h : Escape true t bytes) :
    expandStep (p ++ (t ++ r)) p.length = .ok (p.length + t.length, bytes) := by
  cases h with
  | plain h => exact expandStep_plain p r h
  | @simple x y h =>
    have hx : simpleEscape x = some y := (simpleEscape_iff x y).mpr h
    simp only [List.cons_append, List.nil_append, expandStep_switch, expandSwitch, hx]
    simp
  | @hex ds h =>
    simp only [List.cons_append, expandStep_switch]
    rw [expandSwitch_hex, expandHex_digits _ r h]
    simp [h.1]
  | @unicode x k ds hx h encodable =>
    have hk : 0 < k ∧ k ≤ 8 := by have := mem_unicodeEscapes hx; omega
    simp only [List.cons_append, expandStep_switch]
    rw [expandSwitch_unicode _ _ hx, expandUnicode_digits _ r hk h encodable]
    simp [h.1, Nat.add_comm, Nat.add_left_comm]
  | @signedHex ds _ h =>
    simp only [List.cons_append, expandStep_switch]
    rw [expandSwitch_hex, ← List.cons_append, expandHex_signed _ r h]
    simp [h.1]
  | @signedUnicode x k ds _ hx h encodable =>
    have hk : 0 < k ∧ k ≤ 7 := by have := mem_unicodeEscapes hx; omega
    simp only [List.cons_append, expandStep_switch]
    rw [expandSwitch_unicode _ _ hx, ← List.cons_append,
      expandUnicode_signed _ r hk h encodable]
    simp [h.1]
    omega

theorem expandStep_overflowing (p r : List UInt8) {t : List UInt8} (h : Overflowing t) :
    expandStep (p ++ (t ++ r)) p.length = .error .overflow := by
  obtain ⟨c, ds, rfl, hds, hc⟩ := h
  have hlen : ds.length = 7 := by have := hds.1; simpa using this
  simp only [List.cons_append, expandStep_switch]
  have hread := readNumber_digits .int (p ++ ['\\'.toUInt8, 'U'.toUInt8]) r
    (List.cons_ne_nil c ds) hds.2
  have hU : ('U'.toUInt8, 8) ∈ unicodeEscapes := by simp [unicodeEscapes]
  rw [hds.1, shiftInAll_eight hlen, if_neg (by omega), error_map] at hread
  rw [expandSwitch_unicode _ _ hU, expandUnicode,
    ← List.cons_append, hread, error_bind]

/-- A code point escape that is none of the elements, and does not overflow, throws. -/
theorem expandUnicode_other (p r : List UInt8) {x : UInt8} {k : Nat}
    (hx : (x, k) ∈ unicodeEscapes)
    (hother : ∀ t rest bytes, '\\'.toUInt8 :: x :: r = t ++ rest → ¬ Escape true t bytes)
    (hover : ∀ t rest, '\\'.toUInt8 :: x :: r = t ++ rest → ¬ Overflowing t) :
    ∃ what, expandUnicode (p ++ r) p.length k = .error (.runtimeError what) := by
  have hk : 1 < k ∧ k ≤ 8 := by have := mem_unicodeEscapes hx; omega
  by_cases hdigits : ∃ ds rest, HexDigits k ds ∧ r = ds ++ rest
  · obtain ⟨ds, rest, hds, rfl⟩ := hdigits
    have hread := readNumber_digits .int p rest (by rintro rfl; have := hds.1; simp at this; omega)
      hds.2
    have hvalue : shiftInAll .int 0 ds = .ok (hexValue ds) := by
      by_cases hshort : ds.length ≤ 7
      · exact (shiftInAll_hexValue hshort).1
      · obtain ⟨c, ds, rfl⟩ := List.exists_cons_of_length_pos (show 0 < ds.length by omega)
        have hlen := hds.1
        have hseven : ds.length = 7 := by simp only [List.length_cons] at hlen hshort; omega
        rw [shiftInAll_eight hseven, if_pos]
        by_contra hc
        have hU : x = 'U'.toUInt8 ∧ k = 8 := by
          obtain ⟨rfl, rfl⟩ | h := mem_unicodeEscapes hx
          · simp [hseven] at hlen
          · exact h
        obtain ⟨rfl, rfl⟩ := hU
        exact hover ('\\'.toUInt8 :: 'U'.toUInt8 :: c :: ds) rest (by simp)
          ⟨c, ds, rfl, hds, by omega⟩
    have hencode : encodeChar (hexValue ds) = [] := by
      by_contra hne
      exact hother ('\\'.toUInt8 :: x :: ds) rest _ (by simp) (.unicode hx hds hne)
    rw [hds.1, hvalue, ok_map] at hread
    exact ⟨_, by rw [expandUnicode, hread, ok_bind, if_pos hencode]⟩
  by_cases hsigned : ∃ ds rest, HexDigits (k - 1) ds ∧ r = '-'.toUInt8 :: ds ++ rest
  · obtain ⟨ds, rest, hds, rfl⟩ := hsigned
    obtain ⟨k, rfl⟩ : ∃ j, k = j + 2 := ⟨k - 2, by omega⟩
    have hlen : ds.length = k + 1 := by have := hds.1; omega
    have hread := readNumber_signed .int p rest (by rintro rfl; simp at hlen) hds.2
    obtain ⟨hv, hrange⟩ := @shiftInAll_hexValue ds (by omega)
    have hencode : encodeChar (-hexValue ds) = [] := by
      by_contra hne
      exact hother ('\\'.toUInt8 :: x :: '-'.toUInt8 :: ds) rest _ (by simp)
        (.signedUnicode rfl hx ⟨hlen, hds.2⟩ hne)
    rw [hlen, hv, ok_bind, negate_int hrange, ok_map] at hread
    exact ⟨_, by rw [expandUnicode, hread, ok_bind, if_pos hencode]⟩
  · obtain ⟨what, hwhat⟩ := readNumber_other (fits_int hk.2) p r
      (fun ds rest hds hlen heq => hdigits ⟨ds, rest, ⟨hlen, hds⟩, heq⟩)
      (fun ds rest hds hlen heq => hsigned ⟨ds, rest, ⟨by omega, hds⟩, heq⟩)
    exact ⟨what, by rw [expandUnicode, hwhat, error_bind]⟩

theorem expandHex_other (p r : List UInt8)
    (hother : ∀ t rest bytes, '\\'.toUInt8 :: 'x'.toUInt8 :: r = t ++ rest →
      ¬ Escape true t bytes) :
    ∃ what, expandHex (p ++ r) p.length = .error (.runtimeError what) := by
  obtain ⟨what, hwhat⟩ := readNumber_other (fits_char 2) p r
    (fun ds rest hds hlen heq => hother ('\\'.toUInt8 :: 'x'.toUInt8 :: ds) rest _ (by simp [heq])
      (.hex ⟨hlen, hds⟩))
    (fun ds rest hds hlen heq =>
      hother ('\\'.toUInt8 :: 'x'.toUInt8 :: '-'.toUInt8 :: ds) rest _ (by simp [heq])
        (.signedHex rfl ⟨by omega, hds⟩))
  exact ⟨what, by rw [expandHex, hwhat, error_bind]⟩

/-- An iteration on a text that starts with no element and with no overflowing escape throws. -/
theorem expandStep_other (p r : List UInt8) (hne : r ≠ [])
    (hother : ∀ t rest bytes, r = t ++ rest → ¬ Escape true t bytes)
    (hover : ∀ t rest, r = t ++ rest → ¬ Overflowing t) :
    ∃ what, expandStep (p ++ r) p.length = .error (.runtimeError what) := by
  obtain ⟨c, r, rfl⟩ := List.exists_cons_of_ne_nil hne
  obtain rfl : c = '\\'.toUInt8 := by
    by_contra hc
    exact hother [c] r _ rfl (.plain hc)
  cases r with
  | nil => exact ⟨_, expandStep_broken p⟩
  | cons x r =>
    rw [expandStep_switch]
    by_cases hx : ∃ k, (x, k) ∈ unicodeEscapes
    · obtain ⟨k, hx⟩ := hx
      rw [expandSwitch_unicode _ _ hx]
      exact expandUnicode_other _ r hx hother hover
    by_cases hhex : x = 'x'.toUInt8
    · subst hhex
      rw [expandSwitch_hex]
      exact expandHex_other _ r hother
    · refine ⟨"unknown escape sequence", ?_⟩
      have hsimple : simpleEscape x = none := by
        cases hy : simpleEscape x with
        | none => rfl
        | some y =>
          exact absurd (.simple ((simpleEscape_iff x y).mp hy))
            (hother ['\\'.toUInt8, x] r _ rfl)
      have hu : x ≠ 'u'.toUInt8 := fun h => hx ⟨4, by simp [unicodeEscapes, h]⟩
      have hU : x ≠ 'U'.toUInt8 := fun h => hx ⟨8, by simp [unicodeEscapes, h]⟩
      simp only [expandSwitch, hsimple]
      rw [if_neg hu, if_neg hU, if_neg hhex]

/-! ## The loop -/

/-- The loop takes a concatenation of elements, whatever follows it. -/
theorem expandLoop_append {s d : List UInt8} (h : Expands true s d) (p r d₀ : List UInt8)
    {fuel : Nat} (hfuel : (s ++ r).length ≤ fuel) :
    ∃ fuel', r.length ≤ fuel' ∧ expandLoop (p ++ (s ++ r)) fuel p.length d₀ =
      expandLoop ((p ++ s) ++ r) fuel' (p ++ s).length (d₀ ++ d) := by
  induction h generalizing p d₀ fuel with
  | nil => exact ⟨fuel, by simpa using hfuel, by simp⟩
  | @cons t bytes s d head tail ih =>
    have ht : 0 < t.length := List.length_pos_iff.mpr head.ne_nil
    simp only [List.append_assoc, List.length_append] at hfuel
    cases fuel with
    | zero => omega
    | succ fuel =>
      obtain ⟨fuel', hle, hrun⟩ := @ih (p ++ t) (d₀ ++ bytes) fuel (by simp; omega)
      refine ⟨fuel', hle, ?_⟩
      have hstep := expandStep_escape p (s ++ r) head
      have hne : p.length ≠ (p ++ (t ++ (s ++ r))).length := by
        simp only [List.length_append]
        omega
      rw [List.append_assoc t, expandLoop, if_neg hne, hstep]
      simpa using hrun

/-- Every run of the loop ends in one of three ways. -/
theorem expandLoop_total (fuel : Nat) (p r d₀ : List UInt8) (hfuel : r.length ≤ fuel) :
    (∃ d, Expands true r d) ∨ Overflows r ∨
      ∃ what, expandLoop (p ++ r) fuel p.length d₀ = .error (.runtimeError what) := by
  induction fuel generalizing p r d₀ with
  | zero =>
    obtain rfl : r = [] := List.length_eq_zero_iff.mp (by omega)
    exact .inl ⟨[], .nil⟩
  | succ fuel ih =>
    by_cases hnil : r = []
    · subst hnil
      exact .inl ⟨[], .nil⟩
    by_cases hover : ∃ t rest, r = t ++ rest ∧ Overflowing t
    · obtain ⟨t, rest, rfl, ht⟩ := hover
      exact .inr (.inl ⟨[], t, rest, [], by simp, .nil, ht⟩)
    have hne : p.length ≠ (p ++ r).length := by
      have := List.length_pos_iff.mpr hnil
      simp; omega
    by_cases hesc : ∃ t rest bytes, r = t ++ rest ∧ Escape true t bytes
    · obtain ⟨t, rest, bytes, rfl, ht⟩ := hesc
      have hpos : 0 < t.length := List.length_pos_iff.mpr ht.ne_nil
      simp only [List.length_append] at hfuel
      have hstep := expandStep_escape p rest ht
      obtain ⟨d, hd⟩ | ⟨before, t', after, d, rfl, hd, ht'⟩ | ⟨what, hwhat⟩ :=
        ih (p ++ t) rest (d₀ ++ bytes) (by omega)
      · exact .inl ⟨_, .cons ht hd⟩
      · exact .inr (.inl ⟨t ++ before, t', after, _, by simp, .cons ht hd, ht'⟩)
      · refine .inr (.inr ⟨what, ?_⟩)
        rw [expandLoop, if_neg hne, hstep]
        simpa using hwhat
    · obtain ⟨what, hwhat⟩ := expandStep_other p r hnil
        (fun t rest bytes heq ht => hesc ⟨t, rest, bytes, heq, ht⟩)
        (fun t rest heq ht => hover ⟨t, rest, heq, ht⟩)
      refine .inr (.inr ⟨what, ?_⟩)
      rw [expandLoop, if_neg hne, hwhat]

theorem expandLoop_end (s d : List UInt8) (fuel : Nat) : expandLoop s fuel s.length d = .ok d := by
  cases fuel <;> simp [expandLoop]

theorem Expands.expandEscapes {s d : List UInt8} (h : Expands true s d) :
    expandEscapes s = .ok d := by
  obtain ⟨fuel, -, hrun⟩ := expandLoop_append h [] [] [] (le_refl (s ++ []).length)
  simp only [List.append_nil, List.nil_append] at hrun
  rw [Util.expandEscapes]
  exact hrun.trans (expandLoop_end s d fuel)

theorem Overflows.expandEscapes {s : List UInt8} (h : Overflows s) :
    expandEscapes s = .error .overflow := by
  obtain ⟨before, t, after, d, rfl, hbefore, ht⟩ := h
  obtain ⟨fuel, hle, hrun⟩ := expandLoop_append hbefore [] (t ++ after) [] (le_refl _)
  have hpos : 0 < t.length := by
    obtain ⟨c, ds, rfl, -⟩ := ht
    simp
  simp only [List.nil_append, List.length_append] at hrun hle
  rw [Util.expandEscapes, List.append_assoc, List.length_append, List.length_append]
  refine hrun.trans ?_
  cases fuel with
  | zero => omega
  | succ fuel =>
    have hne : before.length ≠ (before ++ (t ++ after)).length := by
      simp only [List.length_append]
      omega
    rw [expandLoop, if_neg hne, expandStep_overflowing before after ht]

/-- What `expandEscapes` does on any text. -/
theorem expandEscapes_total (s : List UInt8) :
    (∃ d, Expands true s d ∧ expandEscapes s = .ok d) ∨
      (Overflows s ∧ expandEscapes s = .error .overflow) ∨
      ∃ what, expandEscapes s = .error (.runtimeError what) := by
  obtain ⟨d, hd⟩ | hover | hwhat := expandLoop_total s.length [] s [] le_rfl
  · exact .inl ⟨d, hd, hd.expandEscapes⟩
  · exact .inr (.inl ⟨hover, hover.expandEscapes⟩)
  · exact .inr (.inr hwhat)

/-! ## The printed form of a byte string -/

theorem isHex_hexDigit : ∀ n < 16, isHex (hexDigit n) = true ∧
    hexDigitValue (hexDigit n) = n := by
  decide

theorem escapeByte_escape (p : UInt8) : Escape false (escapeByte p) [p] := by
  unfold escapeByte
  split_ifs with h₁ h₂ h₃ h₄ h₅ h₆
  · exact .simple (by simp [simpleEscapes, h₁])
  · exact .simple (by simp [simpleEscapes, h₂])
  · exact .simple (by simp [simpleEscapes, h₃])
  · exact .simple (by simp [simpleEscapes, h₄])
  · exact .simple (by simp [simpleEscapes, h₅])
  · exact .plain h₁
  · have hp := p.toNat_lt
    obtain ⟨hhigh, hhighValue⟩ := isHex_hexDigit (p.toNat / 16) (by omega)
    obtain ⟨hlow, hlowValue⟩ := isHex_hexDigit (p.toNat % 16) (by omega)
    have hvalue : UInt8.ofInt (hexValue [hexDigit (p.toNat / 16), hexDigit (p.toNat % 16)]) =
        p := by
      have hsum : ((0 : Int) * 16 + (p.toNat / 16 : Nat)) * 16 + (p.toNat % 16 : Nat) =
          p.toNat := by omega
      simp only [hexValue, digitsFrom, List.foldl_cons, List.foldl_nil, hhighValue, hlowValue,
        hsum]
      have hmod : ((p.toNat : Int) % 2 ^ 8).toNat = p.toNat := by omega
      rw [UInt8.ofInt, hmod, UInt8.ofNat_toNat]
    have hescape := @Escape.hex false [hexDigit (p.toNat / 16), hexDigit (p.toNat % 16)]
      ⟨rfl, by simp [hhigh, hlow]⟩
    rwa [hvalue] at hescape

theorem escapeBytes_expands (s : List UInt8) : Expands false (escapeBytes s) s := by
  induction s with
  | nil => exact .nil
  | cons p s ih => exact .cons (escapeByte_escape p) ih

/-- `expandEscapes` reads back what `escapeBytes` prints. -/
theorem expandEscapes_escapeBytes (s : List UInt8) :
    expandEscapes (escapeBytes s) = .ok s :=
  (escapeBytes_expands s).signed.expandEscapes

/-! ## The accepted texts -/

/-- The texts of the language. -/
def InLanguage (s : List UInt8) : Prop := ∃ d, Expands false s d

/-- On the text `s` the decoder decides membership in the language, by returning or by throwing. -/
def Decides (s : List UInt8) : Prop :=
  ((∃ d, expandEscapes s = .ok d) ↔ InLanguage s) ∧
    (¬ InLanguage s → ∃ what, expandEscapes s = .error (.runtimeError what))

/-- `expandEscapes` never reads behind the terminating NUL and always ends. It decides the
language exactly on the texts that are in it if they are once signs are allowed, and in which no
number overflows. -/
theorem expandEscapes_decides_iff (s : List UInt8) :
    (expandEscapes s ≠ .error .outOfBounds ∧ expandEscapes s ≠ .error .unfinished) ∧
      (∀ d, Expands false s d → expandEscapes s = .ok d) ∧
      (Decides s ↔ ((∃ d, Expands true s d) → InLanguage s) ∧ ¬ Overflows s) := by
  have htotal := expandEscapes_total s
  refine ⟨?_, fun d hd => hd.signed.expandEscapes, ?_, ?_⟩
  · obtain ⟨d, -, h⟩ | ⟨-, h⟩ | ⟨what, h⟩ := htotal <;> simp [h]
  · rintro ⟨hiff, hthrows⟩
    refine ⟨fun ⟨d, hd⟩ => hiff.mp ⟨d, hd.expandEscapes⟩, fun hover => ?_⟩
    by_cases hin : InLanguage s
    · obtain ⟨d, hd⟩ := hiff.mpr hin
      cases hd.symm.trans hover.expandEscapes
    · obtain ⟨what, hwhat⟩ := hthrows hin
      cases hwhat.symm.trans hover.expandEscapes
  · rintro ⟨hsigned, hover⟩
    obtain ⟨d, hd, h⟩ | ⟨hbad, -⟩ | ⟨what, h⟩ := htotal
    · have hin := hsigned ⟨d, hd⟩
      exact ⟨⟨fun _ => hin, fun _ => ⟨d, h⟩⟩, fun hnot => absurd hin hnot⟩
    · exact absurd hbad hover
    · have hnot : ¬ InLanguage s := fun ⟨d, hd⟩ => by
        cases h.symm.trans hd.signed.expandEscapes
      refine ⟨⟨fun ⟨d, hd⟩ => ?_, fun hin => absurd hin hnot⟩, fun _ => ⟨what, h⟩⟩
      cases h.symm.trans hd

/-- No element of the language has a sign behind the letter of a number. -/
theorem not_inLanguage_sign {x : UInt8} (hx : x ∉ simpleEscapes.map Prod.fst) (r : List UInt8) :
    ¬ InLanguage ('\\'.toUInt8 :: x :: '-'.toUInt8 :: r) := by
  rintro ⟨d, hd⟩
  generalize hs : '\\'.toUInt8 :: x :: '-'.toUInt8 :: r = s at hd
  have hminus {k : Nat} {ds : List UInt8} (h : HexDigits (k + 1) ds) (s : List UInt8) :
      '-'.toUInt8 :: r ≠ ds ++ s := by
    obtain ⟨c, ds, rfl⟩ := List.exists_cons_of_length_eq_add_one h.1
    intro heq
    have hc := h.2 c List.mem_cons_self
    rw [← (List.cons.inj heq).1, not_isHex_minus] at hc
    cases hc
  cases hd with
  | nil => cases hs
  | @cons t bytes s d head tail =>
    cases head with
    | plain h => exact h (List.cons.inj hs).1.symm
    | simple h =>
      refine hx (List.mem_map.mpr ⟨_, h, ?_⟩)
      exact (List.cons.inj (List.cons.inj hs).2).1.symm
    | hex h => exact hminus h s (List.cons.inj (List.cons.inj hs).2).2
    | @unicode _ k _ hk h _ =>
      obtain ⟨-, rfl⟩ | ⟨-, rfl⟩ := mem_unicodeEscapes hk <;>
        exact hminus h s (List.cons.inj (List.cons.inj hs).2).2
    | signedHex allowed _ => cases allowed
    | signedUnicode allowed _ _ _ => cases allowed

/-- The text `\x-1` is accepted, and `\U80000000` makes the number overflow. -/
theorem expandEscapes_sign_accepted :
    (expandEscapes ['\\'.toUInt8, 'x'.toUInt8, '-'.toUInt8, '1'.toUInt8] = .ok [0xff] ∧
      ¬ InLanguage ['\\'.toUInt8, 'x'.toUInt8, '-'.toUInt8, '1'.toUInt8]) ∧
    expandEscapes ('\\'.toUInt8 :: 'U'.toUInt8 :: '8'.toUInt8 ::
      List.replicate 7 '0'.toUInt8) = .error .overflow ∧
    ¬ InLanguage ('\\'.toUInt8 :: 'U'.toUInt8 :: '8'.toUInt8 ::
      List.replicate 7 '0'.toUInt8) := by
  have hover : Overflows ('\\'.toUInt8 :: 'U'.toUInt8 :: '8'.toUInt8 ::
      List.replicate 7 '0'.toUInt8) :=
    ⟨[], _, [], [], (List.append_nil _).symm, .nil, _, _, rfl, ⟨rfl, by decide +kernel⟩,
      by decide +kernel⟩
  refine ⟨⟨by decide +kernel, not_inLanguage_sign (by decide +kernel) _⟩, hover.expandEscapes, ?_⟩
  rintro ⟨d, hd⟩
  cases hover.expandEscapes.symm.trans hd.signed.expandEscapes

end Diffingo.Util
