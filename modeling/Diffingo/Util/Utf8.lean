import Diffingo.Util.Escapes

/-!
# Code points and their bytes

`utf8proc_iterate`, which takes the first code point off a string, next to `encodeChar`. Both follow
UTF-8 as Lean defines it for the characters of a string, except at the noncharacters: `iterate`
refuses those, and `encodeChar` has one byte for each of U+FFFE and U+FFFF.
-/

namespace Diffingo.Util

/-- The table `utf8proc_utf8class`. -/
def utf8class (b : UInt8) : Nat :=
  if b.toNat < 0x80 then 1
  else if b.toNat < 0xC0 then 0
  else if b.toNat < 0xE0 then 2
  else if b.toNat < 0xF0 then 3
  else if b.toNat < 0xF8 then 4
  else 0

/-- The `switch` of `utf8proc_iterate` on the number of bytes. -/
def codePoint : List UInt8 → Int
  | [a] => a.toNat
  | [a, b] =>
    let uc := ((a.toNat &&& 0x1F) <<< 6) + (b.toNat &&& 0x3F)
    if uc < 0x80 then -1 else uc
  | [a, b, c] =>
    let uc := ((a.toNat &&& 0x0F) <<< 12) + ((b.toNat &&& 0x3F) <<< 6) + (c.toNat &&& 0x3F)
    if uc < 0x800 ∨ (0xD800 ≤ uc ∧ uc < 0xE000) ∨ (0xFDD0 ≤ uc ∧ uc < 0xFDF0) then -1 else uc
  | [a, b, c, d] =>
    let uc := ((a.toNat &&& 0x07) <<< 18) + ((b.toNat &&& 0x3F) <<< 12) +
      ((c.toNat &&& 0x3F) <<< 6) + (d.toNat &&& 0x3F)
    if uc < 0x10000 ∨ 0x110000 ≤ uc then -1 else uc
  | _ => -1

/-- `utf8proc_iterate`: the code point and the number of its bytes, or none for the error. -/
def utf8procIterate : List UInt8 → Option (Int × Nat)
  | [] => some (-1, 0)
  | b :: str =>
    let length := utf8class b
    if length = 0 then none
    else if str.length + 1 < length then none
    else if (str.take (length - 1)).any fun c => c.toNat &&& 0xC0 ≠ 0x80 then none
    else
      let uc := codePoint (b :: str.take (length - 1))
      if uc < 0 ∨ 0xFFFE ≤ uc.toNat &&& 0xFFFF then none else some (uc, length)

/-- `utf8proc_codepoint_valid`. -/
def codepointValid (uc : Nat) : Bool :=
  !(0x110000 ≤ uc ∨ 0xFFFE ≤ uc &&& 0xFFFF ∨ (0xD800 ≤ uc ∧ uc < 0xE000) ∨
    (0xFDD0 ≤ uc ∧ uc < 0xFDF0))

theorem and_mask (x : Nat) :
    x &&& 0x07 = x % 8 ∧ x &&& 0x0F = x % 16 ∧ x &&& 0x1F = x % 32 ∧ x &&& 0x3F = x % 64 ∧
      x &&& 0xFFFF = x % 65536 :=
  ⟨Nat.and_two_pow_sub_one_eq_mod x 3, Nat.and_two_pow_sub_one_eq_mod x 4,
    Nat.and_two_pow_sub_one_eq_mod x 5, Nat.and_two_pow_sub_one_eq_mod x 6,
    Nat.and_two_pow_sub_one_eq_mod x 16⟩

theorem continuation (x : Nat) : (UInt8.ofNat (x % 64 + 128)).toNat &&& 0xC0 = 0x80 := by
  have hall : ∀ y < 64, (UInt8.ofNat (y + 128)).toNat &&& 0xC0 = 0x80 := by decide
  exact hall (x % 64) (Nat.mod_lt x (by decide))

theorem toNat_ofNat_of_lt {x : Nat} (h : x < 256) : (UInt8.ofNat x).toNat = x := by
  rw [UInt8.toNat_ofNat']
  exact Nat.mod_eq_of_lt h

theorem char_valid (c : Char) :
    c.toNat < 0xD800 ∨ 0xDFFF < c.toNat ∧ c.toNat < 0x110000 := c.valid

/-- The bytes of a character, by the number of them. -/
theorem utf8EncodeChar_cases (c : Char) :
    (c.toNat < 0x80 ∧ String.utf8EncodeChar c = [.ofNat c.toNat]) ∨
    (0x80 ≤ c.toNat ∧ c.toNat < 0x800 ∧ String.utf8EncodeChar c =
      [.ofNat (c.toNat / 64 % 32 + 192), .ofNat (c.toNat % 64 + 128)]) ∨
    (0x800 ≤ c.toNat ∧ c.toNat < 0x10000 ∧ String.utf8EncodeChar c =
      [.ofNat (c.toNat / 4096 % 16 + 224), .ofNat (c.toNat / 64 % 64 + 128),
        .ofNat (c.toNat % 64 + 128)]) ∨
    (0x10000 ≤ c.toNat ∧ c.toNat < 0x110000 ∧ String.utf8EncodeChar c =
      [.ofNat (c.toNat / 262144 % 8 + 240), .ofNat (c.toNat / 4096 % 64 + 128),
        .ofNat (c.toNat / 64 % 64 + 128), .ofNat (c.toNat % 64 + 128)]) := by
  have hvalid := char_valid c
  by_cases h₁ : c.toNat ≤ 127
  · exact .inl ⟨by omega, if_pos h₁⟩
  by_cases h₂ : c.toNat ≤ 2047
  · exact .inr (.inl ⟨by omega, by omega, (if_neg h₁).trans (if_pos h₂)⟩)
  by_cases h₃ : c.toNat ≤ 65535
  · exact .inr (.inr (.inl ⟨by omega, by omega, (if_neg h₁).trans ((if_neg h₂).trans (if_pos h₃))⟩))
  · exact .inr (.inr (.inr ⟨by omega, by omega, (if_neg h₁).trans ((if_neg h₂).trans (if_neg h₃))⟩))

theorem codepointValid_iff (c : Char) :
    codepointValid c.toNat = true ↔
      c.toNat % 65536 < 0xFFFE ∧ (c.toNat < 0xFDD0 ∨ 0xFDF0 ≤ c.toNat) := by
  have hvalid := char_valid c
  simp only [codepointValid, (and_mask c.toNat).2.2.2.2, Bool.not_eq_true', decide_eq_false_iff_not]
  omega

/-- The encoder agrees with UTF-8 on the code points that the library takes for valid. -/
theorem encodeChar_eq {c : Char} (h : codepointValid c.toNat = true) :
    encodeChar c.toNat = String.utf8EncodeChar c := by
  rw [codepointValid_iff] at h
  unfold encodeChar
  simp only [Int.toNat_natCast, (and_mask _).2.2.2.1, Nat.shiftRight_eq_div_pow]
  obtain ⟨hv, heq⟩ | ⟨hlo, hhi, heq⟩ | ⟨hlo, hhi, heq⟩ | ⟨hlo, hhi, heq⟩ := utf8EncodeChar_cases c
  · rw [heq, if_neg (by omega), if_pos hv]
  · rw [heq, if_neg (by omega), if_neg (by omega), if_pos hhi]
    rw [show 0xC0 + c.toNat / 2 ^ 6 = c.toNat / 64 % 32 + 192 by omega,
      Nat.add_comm 0x80]
  · rw [heq, if_neg (by omega), if_neg (by omega), if_neg (by omega), if_neg (by omega),
      if_neg (by omega), if_pos hhi]
    rw [show 0xE0 + c.toNat / 2 ^ 12 = c.toNat / 4096 % 16 + 224 by omega,
      Nat.add_comm 0x80, Nat.add_comm 0x80]
  · rw [heq, if_neg (by omega), if_neg (by omega), if_neg (by omega), if_neg (by omega),
      if_neg (by omega), if_neg (by omega), if_pos hhi]
    rw [show 0xF0 + c.toNat / 2 ^ 18 = c.toNat / 262144 % 8 + 240 by omega,
      Nat.add_comm 0x80, Nat.add_comm 0x80, Nat.add_comm 0x80]

/-- A lead byte with as many continuation bytes behind it as its class says. -/
theorem utf8procIterate_cons {b : UInt8} {t : List UInt8} (hclass : utf8class b = t.length + 1)
    (ht : ∀ c ∈ t, c.toNat &&& 0xC0 = 0x80) (r : List UInt8) :
    utf8procIterate (b :: t ++ r) =
      if codePoint (b :: t) < 0 ∨ 0xFFFE ≤ (codePoint (b :: t)).toNat &&& 0xFFFF then none
      else some (codePoint (b :: t), t.length + 1) := by
  have hcont : (t.any fun c => decide (c.toNat &&& 0xC0 ≠ 0x80)) = false := by
    simpa using ht
  simp only [List.cons_append, utf8procIterate, hclass]
  rw [if_neg (by omega), if_neg (by simp), Nat.add_sub_cancel, List.take_left, hcont,
    if_neg Bool.false_ne_true]

/-- The bytes of a character are a lead byte and its continuation bytes. -/
theorem utf8EncodeChar_lead (c : Char) :
    ∃ b t, String.utf8EncodeChar c = b :: t ∧ utf8class b = t.length + 1 ∧
      ∀ c ∈ t, c.toNat &&& 0xC0 = 0x80 := by
  obtain ⟨hv, heq⟩ | ⟨hlo, hhi, heq⟩ | ⟨hlo, hhi, heq⟩ | ⟨hlo, hhi, heq⟩ := utf8EncodeChar_cases c
  all_goals refine ⟨_, _, heq, ?_, by simp only [List.forall_mem_cons, continuation,
    List.not_mem_nil, false_imp_iff, forall_true_iff, and_self]⟩
  · rw [utf8class, toNat_ofNat_of_lt (by omega), if_pos hv]
    rfl
  · rw [utf8class, toNat_ofNat_of_lt (by omega), if_neg (by omega), if_neg (by omega),
      if_pos (by omega)]
    rfl
  · rw [utf8class, toNat_ofNat_of_lt (by omega), if_neg (by omega), if_neg (by omega),
      if_neg (by omega), if_pos (by omega)]
    rfl
  · rw [utf8class, toNat_ofNat_of_lt (by omega), if_neg (by omega), if_neg (by omega),
      if_neg (by omega), if_neg (by omega), if_pos (by omega)]
    rfl

theorem payload (x : Nat) : (x % 64 + 128) % 64 = x % 64 ∧ (x % 32 + 192) % 32 = x % 32 ∧
    (x % 16 + 224) % 16 = x % 16 ∧ (x % 8 + 240) % 8 = x % 8 := by omega

theorem codePoint_utf8EncodeChar (c : Char) :
    codePoint (String.utf8EncodeChar c) =
      if 0xFDD0 ≤ c.toNat ∧ c.toNat < 0xFDF0 then -1 else (c.toNat : Int) := by
  have hchar := char_valid c
  obtain ⟨hv, heq⟩ | ⟨hlo, hhi, heq⟩ | ⟨hlo, hhi, heq⟩ | ⟨hlo, hhi, heq⟩ := utf8EncodeChar_cases c
  · rw [heq, codePoint, toNat_ofNat_of_lt (by omega), if_neg (by omega)]
  · have huc : c.toNat / 64 % 32 * 2 ^ 6 + c.toNat % 64 = c.toNat := by omega
    rw [heq, codePoint, toNat_ofNat_of_lt (by omega), toNat_ofNat_of_lt (by omega),
      (and_mask _).2.2.1, (and_mask _).2.2.2.1, (payload _).1, (payload _).2.1, Nat.shiftLeft_eq]
    simp only [huc]
    rw [if_neg (by omega), if_neg (by omega)]
  · have huc : c.toNat / 4096 % 16 * 2 ^ 12 + c.toNat / 64 % 64 * 2 ^ 6 + c.toNat % 64 =
        c.toNat := by omega
    rw [heq, codePoint, toNat_ofNat_of_lt (by omega), toNat_ofNat_of_lt (by omega),
      toNat_ofNat_of_lt (by omega), (and_mask _).2.1]
    simp only [(and_mask _).2.2.2.1, (payload _).1, (payload _).2.2.1, Nat.shiftLeft_eq, huc]
    split_ifs <;> omega
  · have huc : c.toNat / 262144 % 8 * 2 ^ 18 + c.toNat / 4096 % 64 * 2 ^ 12 +
        c.toNat / 64 % 64 * 2 ^ 6 + c.toNat % 64 = c.toNat := by omega
    rw [heq, codePoint, toNat_ofNat_of_lt (by omega), toNat_ofNat_of_lt (by omega),
      toNat_ofNat_of_lt (by omega), toNat_ofNat_of_lt (by omega), (and_mask _).1]
    simp only [(and_mask _).2.2.2.1, (payload _).1, (payload _).2.2.2, Nat.shiftLeft_eq, huc]
    rw [if_neg (by omega), if_neg (by omega)]

/-- `iterate` takes the first character off a string, unless it is a noncharacter. -/
theorem utf8procIterate_append (c : Char) (r : List UInt8) :
    utf8procIterate (String.utf8EncodeChar c ++ r) =
      if codepointValid c.toNat then some ((c.toNat : Int), (String.utf8EncodeChar c).length)
      else none := by
  obtain ⟨b, t, heq, hclass, ht⟩ := utf8EncodeChar_lead c
  have hcode := codePoint_utf8EncodeChar c
  rw [heq] at hcode ⊢
  rw [utf8procIterate_cons hclass ht, hcode, (and_mask _).2.2.2.2]
  simp only [codepointValid_iff]
  split_ifs <;> first | omega | rfl

end Diffingo.Util
