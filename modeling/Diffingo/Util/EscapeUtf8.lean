import Diffingo.Util.EscapeLanguage
import Diffingo.Util.Utf8

/-!
# Printing UTF-8 strings

`escapeUTF8` prints a string of UTF-8 as a string literal, code point by code point. Whether a code
point below 65536 is printed as it is depends on its lowest byte, and a code point that is printed
as it is comes out as that byte alone. Reading the literal with `expandEscapes` gives the string
back exactly if this happens to ASCII only.
-/

namespace Diffingo.Util

/-- The last `k` hexadecimal digits of a number, as `%0kx` prints one that has no more. -/
def hexDigits : Nat → Nat → List UInt8
  | 0, _ => []
  | k + 1, n => hexDigits k (n / 16) ++ [hexDigit (n % 16)]

/-- What `escapeUTF8` appends for one code point. The cast to `char` keeps the lowest byte. -/
def escapeCodePoint (cp : Int) : List UInt8 :=
  if cp = 92 then ['\\'.toUInt8, '\\'.toUInt8]
  else if cp = 34 then ['\\'.toUInt8, '"'.toUInt8]
  else if cp = 10 then ['\\'.toUInt8, 'n'.toUInt8]
  else if cp = 13 then ['\\'.toUInt8, 'r'.toUInt8]
  else if cp = 9 then ['\\'.toUInt8, 't'.toUInt8]
  else if 65536 ≤ cp then '\\'.toUInt8 :: 'U'.toUInt8 :: hexDigits 8 cp.toNat
  else if isprint (.ofInt cp) = false then '\\'.toUInt8 :: 'u'.toUInt8 :: hexDigits 4 cp.toNat
  else [.ofInt cp]

/-- The text `<illegal UTF8 sequence>`. -/
def illegalText : List UInt8 := "<illegal UTF8 sequence>".toList.map Char.toUInt8

/-- The loop of `escapeUTF8` with the rest of the string and the text so far. -/
def escapeLoop : Nat → List UInt8 → List UInt8 → Except Failure (List UInt8)
  | 0, s, esc => if s = [] then .ok esc else .error .unfinished
  | fuel + 1, s, esc =>
    if s = [] then .ok esc
    else
      match utf8procIterate s with
      | none => .ok (esc ++ illegalText)
      | some (cp, n) => escapeLoop fuel (s.drop n) (esc ++ escapeCodePoint cp)

/-- `escapeUTF8`. Each iteration takes at least one byte. -/
def escapeUTF8 (s : List UInt8) : Except Failure (List UInt8) := escapeLoop s.length s []

/-- The bytes of a string in UTF-8. -/
def utf8Bytes (s : List Char) : List UInt8 := s.flatMap String.utf8EncodeChar

/-- The text that `escapeUTF8` prints for a string, character by character. -/
def escapedText : List Char → List UInt8
  | [] => []
  | c :: s =>
    if codepointValid c.toNat then escapeCodePoint c.toNat ++ escapedText s else illegalText

theorem escapeLoop_utf8Bytes (s : List Char) {fuel : Nat} (hfuel : (utf8Bytes s).length ≤ fuel)
    (esc : List UInt8) : escapeLoop fuel (utf8Bytes s) esc = .ok (esc ++ escapedText s) := by
  induction s generalizing fuel esc with
  | nil => cases fuel <;> simp [escapeLoop, utf8Bytes, escapedText]
  | cons c s ih =>
    have hpos : 0 < (String.utf8EncodeChar c).length := List.length_pos_of_ne_nil (by simp)
    have hcons : utf8Bytes (c :: s) = String.utf8EncodeChar c ++ utf8Bytes s := rfl
    rw [hcons, List.length_append] at hfuel
    obtain ⟨fuel, rfl⟩ := Nat.exists_eq_add_one_of_ne_zero (show fuel ≠ 0 by omega)
    rw [hcons, escapeLoop, if_neg (by simp), utf8procIterate_append]
    by_cases hvalid : codepointValid c.toNat = true
    · simp only [hvalid, if_true, escapedText, List.drop_left]
      rw [ih (by omega), List.append_assoc]
    · simp [hvalid, escapedText]

/-- `escapeUTF8` ends on every string of UTF-8. -/
theorem escapeUTF8_utf8Bytes (s : List Char) :
    escapeUTF8 (utf8Bytes s) = .ok (escapedText s) := by
  simpa [escapeUTF8] using escapeLoop_utf8Bytes s le_rfl []

/-- A character that the literal keeps: the library takes it for valid, and it is not printed as
one byte that it is not. -/
def Kept (c : Char) : Prop :=
  codepointValid c.toNat = true ∧
    (c.toNat < 128 ∨ 65536 ≤ c.toNat ∨ isprint (.ofNat c.toNat) = false)

instance (c : Char) : Decidable (Kept c) := inferInstanceAs (Decidable (_ ∧ _))

theorem hexDigits_isHex (k n : Nat) : HexDigits k (hexDigits k n) := by
  induction k generalizing n with
  | zero => exact ⟨rfl, by simp [hexDigits]⟩
  | succ k ih =>
    obtain ⟨hlen, hhex⟩ := ih (n / 16)
    obtain ⟨hdigit, -⟩ := isHex_hexDigit (n % 16) (Nat.mod_lt n (by decide))
    refine ⟨by simp [hexDigits, hlen], fun c hc => ?_⟩
    obtain hc | hc := List.mem_append.1 hc
    · exact hhex c hc
    · rwa [List.mem_singleton.1 hc]

theorem hexValue_hexDigits {k n : Nat} (h : n < 16 ^ k) : hexValue (hexDigits k n) = n := by
  induction k generalizing n with
  | zero =>
    obtain rfl : n = 0 := by simpa using h
    rfl
  | succ k ih =>
    obtain ⟨-, hdigit⟩ := isHex_hexDigit (n % 16) (Nat.mod_lt n (by decide))
    have hhigh := ih (n := n / 16) (by rw [pow_succ] at h; omega)
    simp only [hexValue, digitsFrom] at hhigh
    simp only [hexDigits, hexValue, digitsFrom, List.foldl_append, hhigh, List.foldl_cons,
      List.foldl_nil, hdigit]
    omega

theorem utf8EncodeChar_ascii {c : Char} (h : c.toNat < 128) :
    String.utf8EncodeChar c = [.ofNat c.toNat] := by
  obtain ⟨-, heq⟩ | ⟨hlo, -⟩ | ⟨hlo, -⟩ | ⟨hlo, -⟩ := utf8EncodeChar_cases c
  · exact heq
  all_goals omega

theorem unicode_escape {c : Char} (hvalid : codepointValid c.toNat = true) {x : UInt8} {k : Nat}
    (hx : (x, k) ∈ unicodeEscapes) (hk : c.toNat < 16 ^ k) :
    Escape false ('\\'.toUInt8 :: x :: hexDigits k c.toNat) (String.utf8EncodeChar c) := by
  have hencode : encodeChar (hexValue (hexDigits k c.toNat)) = String.utf8EncodeChar c := by
    rw [hexValue_hexDigits hk, encodeChar_eq hvalid]
  rw [← hencode]
  exact .unicode hx (hexDigits_isHex k c.toNat) (by simp [hencode])

theorem simple_escape {c : Char} (hascii : c.toNat < 128) {x : UInt8}
    (h : (x, UInt8.ofNat c.toNat) ∈ simpleEscapes) :
    Escape false ['\\'.toUInt8, x] (String.utf8EncodeChar c) := by
  rw [utf8EncodeChar_ascii hascii]
  exact .simple h

theorem ofInt_toNat (n : Nat) : UInt8.ofInt n = UInt8.ofNat n := by
  apply UInt8.toNat_inj.1
  simp [UInt8.ofInt]
  omega

/-- A kept character is printed as an element of the language that stands for its bytes. -/
theorem escapeCodePoint_escape {c : Char} (h : Kept c) :
    Escape false (escapeCodePoint c.toNat) (String.utf8EncodeChar c) := by
  obtain ⟨hvalid, hkept⟩ := h
  have hchar := char_valid c
  unfold escapeCodePoint
  rw [ofInt_toNat, Int.toNat_natCast]
  split_ifs with h₁ h₂ h₃ h₄ h₅ h₆ h₇
  · obtain h : c.toNat = 92 := by omega
    exact simple_escape (by omega) (by rw [h]; decide)
  · obtain h : c.toNat = 34 := by omega
    exact simple_escape (by omega) (by rw [h]; decide)
  · obtain h : c.toNat = 10 := by omega
    exact simple_escape (by omega) (by rw [h]; decide)
  · obtain h : c.toNat = 13 := by omega
    exact simple_escape (by omega) (by rw [h]; decide)
  · obtain h : c.toNat = 9 := by omega
    exact simple_escape (by omega) (by rw [h]; decide)
  · exact unicode_escape hvalid (by decide) (by norm_num; omega)
  · exact unicode_escape hvalid (by decide) (by norm_num; omega)
  · have hascii : c.toNat < 128 := by
      obtain h | h | h := hkept
      · exact h
      · omega
      · exact absurd h h₇
    rw [utf8EncodeChar_ascii hascii]
    refine .plain fun hslash => ?_
    have h92 := congrArg UInt8.toNat hslash
    rw [toNat_ofNat_of_lt (by omega)] at h92
    exact h₁ (congrArg Nat.cast h92)

theorem escapedText_expands {s : List Char} (h : ∀ c ∈ s, Kept c) :
    Expands false (escapedText s) (utf8Bytes s) := by
  induction s with
  | nil => exact .nil
  | cons c s ih =>
    obtain ⟨hc, hs⟩ := List.forall_mem_cons.1 h
    simp only [escapedText, hc.1, if_true]
    exact .cons (escapeCodePoint_escape hc) (ih hs)

theorem utf8EncodeChar_high {c : Char} (h : 128 ≤ c.toNat) :
    2 ≤ (String.utf8EncodeChar c).length ∧ ∀ b ∈ String.utf8EncodeChar c, 128 ≤ b.toNat := by
  obtain ⟨hv, -⟩ | ⟨-, -, heq⟩ | ⟨-, -, heq⟩ | ⟨-, -, heq⟩ := utf8EncodeChar_cases c
  · omega
  all_goals
    rw [heq]
    refine ⟨by simp, ?_⟩
    simp only [List.forall_mem_cons, List.not_mem_nil, false_imp_iff, forall_true_iff, and_true]
    simp only [UInt8.toNat_ofNat']
    omega

/-- Any other valid character is printed as one byte, in place of several that are not ASCII. -/
theorem escapeCodePoint_lost {c : Char} (hvalid : codepointValid c.toNat = true) (h : ¬ Kept c) :
    128 ≤ c.toNat ∧ ∃ b, escapeCodePoint c.toNat = [b] := by
  have hlost : ¬ c.toNat < 128 ∧ ¬ 65536 ≤ c.toNat ∧ ¬ isprint (.ofNat c.toNat) = false := by
    simpa only [Kept, hvalid, true_and, not_or] using h
  obtain ⟨hhigh, hlow, hprint⟩ := hlost
  refine ⟨by omega, .ofNat c.toNat, ?_⟩
  unfold escapeCodePoint
  rw [ofInt_toNat, if_neg (by omega), if_neg (by omega), if_neg (by omega), if_neg (by omega),
    if_neg (by omega), if_neg (by omega), if_neg hprint]

/-! ## Reading is determined by the text -/

theorem Escape.unique {t t' bytes bytes' r r' : List UInt8} (h : Escape true t bytes)
    (h' : Escape true t' bytes') (heq : t ++ r = t' ++ r') :
    t = t' ∧ bytes = bytes' ∧ r = r' := by
  have hstep := expandStep_escape [] r h
  rw [heq, expandStep_escape [] r' h'] at hstep
  simp only [List.length_nil, Nat.zero_add, Except.ok.injEq, Prod.mk.injEq] at hstep
  obtain ⟨rfl, rfl⟩ := List.append_inj heq hstep.1.symm
  exact ⟨rfl, hstep.2.symm, rfl⟩

theorem Expands.of_append {t bytes r d : List UInt8} (ht : Escape true t bytes)
    (h : Expands true (t ++ r) d) : ∃ d', d = bytes ++ d' ∧ Expands true r d' := by
  generalize hs : t ++ r = s at h
  cases h with
  | nil => exact absurd (List.append_eq_nil_iff.1 hs).1 ht.ne_nil
  | cons head tail =>
    obtain ⟨-, rfl, rfl⟩ := ht.unique head hs
    exact ⟨_, rfl, tail⟩

theorem Expands.of_plain {t d : List UInt8} (ht : ∀ c ∈ t, c ≠ '\\'.toUInt8)
    (h : Expands true t d) : d = t := by
  induction t generalizing d with
  | nil =>
    generalize hs : [] = s at h
    cases h with
    | nil => rfl
    | cons head _ => exact absurd (List.append_eq_nil_iff.1 hs.symm).1 head.ne_nil
  | cons c t ih =>
    obtain ⟨hc, ht⟩ := List.forall_mem_cons.1 ht
    obtain ⟨d, rfl, hd⟩ := Expands.of_append (Escape.plain hc) h
    rw [ih ht hd]
    rfl

theorem isHex_ne {c : UInt8} (h : isHex c = true) : c ≠ '\\'.toUInt8 ∧ c ≠ '<'.toUInt8 := by
  constructor <;> rintro rfl <;> revert h <;> decide

theorem length_encodeChar_le (uc : Int) : (encodeChar uc).length ≤ 4 := by
  unfold encodeChar
  simp only
  split_ifs <;> simp

/-- An escape behind the backslash: another one, or characters that escape nothing by themselves,
for at most as many bytes. -/
theorem Escape.body {body bytes : List UInt8} (h : Escape true ('\\'.toUInt8 :: body) bytes) :
    bytes = ['\\'.toUInt8] ∨
      ((∀ x ∈ body, x ≠ '\\'.toUInt8 ∧ x ≠ '<'.toUInt8) ∧ bytes.length ≤ body.length) := by
  have hletter : ∀ {x : UInt8} {k : Nat}, (x, k) ∈ unicodeEscapes →
      (x ≠ '\\'.toUInt8 ∧ x ≠ '<'.toUInt8) ∧ 4 ≤ k := by
    simp only [unicodeEscapes, List.mem_cons, Prod.mk.injEq, List.not_mem_nil, or_false]
    rintro x k (⟨rfl, rfl⟩ | ⟨rfl, rfl⟩) <;> decide
  generalize ht : '\\'.toUInt8 :: body = t at h
  cases h with
  | plain h => exact absurd (List.cons.inj ht).1.symm h
  | @simple x y h =>
    obtain rfl := (List.cons.inj ht).2
    simp only [simpleEscapes, List.mem_cons, Prod.mk.injEq, List.not_mem_nil, or_false] at h
    obtain ⟨rfl, rfl⟩ | ⟨rfl, rfl⟩ | ⟨rfl, rfl⟩ | ⟨rfl, rfl⟩ | ⟨rfl, rfl⟩ := h
    · exact .inl rfl
    all_goals exact .inr ⟨List.forall_mem_singleton.2 (by decide), by decide⟩
  | @hex ds h =>
    obtain rfl := (List.cons.inj ht).2
    refine .inr ⟨List.forall_mem_cons.2 ⟨by decide, fun x hx => isHex_ne (h.2 x hx)⟩, ?_⟩
    simp
  | @unicode x k ds hx h _ =>
    obtain rfl := (List.cons.inj ht).2
    obtain ⟨hne, hk⟩ := hletter hx
    refine .inr ⟨List.forall_mem_cons.2 ⟨hne, fun x hx => isHex_ne (h.2 x hx)⟩, ?_⟩
    have hlen := length_encodeChar_le (hexValue ds)
    rw [List.length_cons, h.1]
    omega
  | @signedHex ds _ h =>
    obtain rfl := (List.cons.inj ht).2
    refine .inr ⟨List.forall_mem_cons.2 ⟨by decide, List.forall_mem_cons.2
      ⟨by decide, fun x hx => isHex_ne (h.2 x hx)⟩⟩, ?_⟩
    simp
  | @signedUnicode x k ds _ hx h _ =>
    obtain rfl := (List.cons.inj ht).2
    obtain ⟨hne, hk⟩ := hletter hx
    refine .inr ⟨List.forall_mem_cons.2 ⟨hne, List.forall_mem_cons.2
      ⟨by decide, fun x hx => isHex_ne (h.2 x hx)⟩⟩, ?_⟩
    have hlen := length_encodeChar_le (-hexValue ds)
    rw [List.length_cons, List.length_cons, h.1]
    omega

theorem append_shift {x d m b : List UInt8} (h : x ++ d = m ++ b) (hle : x.length ≤ m.length) :
    ∃ m', m = x ++ m' ∧ d = m' ++ b := by
  obtain ⟨m', hm, hd⟩ | ⟨e, hx, hb⟩ := List.append_eq_append_iff.1 h
  · exact ⟨m', hm, hd⟩
  · have he : e = [] := by
      have := congrArg List.length hx
      rw [List.length_append] at this
      exact List.length_eq_zero_iff.1 (by omega)
    subst he
    exact ⟨[], by simpa using hx.symm, by simpa using hb.symm⟩

/-- A character that other text than an escape comes from is printed as one byte. -/
theorem escapedText_cons {c : Char} {s : List Char} {x : UInt8} {r : List UInt8}
    (h : escapedText (c :: s) = x :: r) (hx : x ≠ '\\'.toUInt8 ∧ x ≠ '<'.toUInt8) :
    escapedText s = r ∧ String.utf8EncodeChar c ≠ [] ∧ '\\'.toUInt8 ∉ String.utf8EncodeChar c := by
  by_cases hvalid : codepointValid c.toNat = true
  · simp only [escapedText, hvalid, if_true] at h
    by_cases hkept : Kept c
    · obtain ⟨-, hbytes, hr⟩ :=
        (Escape.plain hx.1).unique (escapeCodePoint_escape hkept).signed h.symm
      rw [← hbytes, hr]
      exact ⟨rfl, by simp, by simpa using hx.1.symm⟩
    · obtain ⟨hhigh, b, hb⟩ := escapeCodePoint_lost hvalid hkept
      rw [hb] at h
      refine ⟨(List.cons.inj h).2, by simp, fun hmem => ?_⟩
      exact absurd ((utf8EncodeChar_high hhigh).2 _ hmem) (by decide)
  · simp only [escapedText, hvalid] at h
    exact absurd (List.cons.inj h).1.symm hx.2

/-- The characters from which text without backslashes comes. -/
theorem escapedText_split {s : List Char} {body r : List UInt8} (h : escapedText s = body ++ r)
    (hbody : ∀ x ∈ body, x ≠ '\\'.toUInt8 ∧ x ≠ '<'.toUInt8) :
    ∃ s₁ s₂, s = s₁ ++ s₂ ∧ escapedText s₂ = r ∧ body.length ≤ (utf8Bytes s₁).length ∧
      '\\'.toUInt8 ∉ utf8Bytes s₁ := by
  induction body generalizing s with
  | nil => exact ⟨[], s, rfl, h, by simp [utf8Bytes], by simp [utf8Bytes]⟩
  | cons x body ih =>
    obtain ⟨hx, hbody⟩ := List.forall_mem_cons.1 hbody
    cases s with
    | nil => simp [escapedText] at h
    | cons c s =>
      obtain ⟨htext, hne, hslash⟩ := escapedText_cons h hx
      obtain ⟨s₁, s₂, rfl, hr, hlen, hmem⟩ := ih htext hbody
      have hpos := List.length_pos_of_ne_nil hne
      refine ⟨c :: s₁, s₂, rfl, hr, ?_, ?_⟩
      · simp only [utf8Bytes, List.flatMap_cons, List.length_append, List.length_cons] at hlen ⊢
        omega
      · simp only [utf8Bytes, List.flatMap_cons, List.mem_append, not_or] at hmem ⊢
        exact ⟨hslash, hmem⟩

theorem utf8EncodeChar_slash {c : Char} (h : '\\'.toUInt8 ∈ String.utf8EncodeChar c) :
    String.utf8EncodeChar c = ['\\'.toUInt8] := by
  by_cases hascii : c.toNat < 128
  · rw [utf8EncodeChar_ascii hascii] at h ⊢
    rw [List.mem_singleton.1 h]
  · exact absurd ((utf8EncodeChar_high (by omega)).2 _ h) (by decide)

/-! ## Lagging behind

Once a character is lost, the bytes read lag behind the bytes of the string. Those of the string
that are not read yet never become none again, and there is no backslash among them, which could
only be read in step with the string. -/

/-- Reading fewer bytes than are there leaves a lag. -/
theorem lag_of_short {x d m b : List UInt8} (h : x ++ d = m ++ b) (hlt : x.length < m.length)
    (hslash : '\\'.toUInt8 ∉ m) :
    ∃ lag, lag ≠ [] ∧ '\\'.toUInt8 ∉ lag ∧ d = lag ++ b := by
  obtain ⟨lag, rfl, hd⟩ := append_shift h hlt.le
  refine ⟨lag, ?_, fun hmem => hslash (List.mem_append_right x hmem), hd⟩
  rintro rfl
  simp at hlt

/-- Reading a character in step keeps the length of the lag. -/
theorem lag_of_kept {c : Char} {lag d b : List UInt8} (hslash : '\\'.toUInt8 ∉ lag)
    (h : String.utf8EncodeChar c ++ d = lag ++ String.utf8EncodeChar c ++ b) :
    ∃ lag', (lag ≠ [] → lag' ≠ []) ∧ '\\'.toUInt8 ∉ lag' ∧ d = lag' ++ b := by
  obtain ⟨lag', hlag', hd⟩ := append_shift h (by simp)
  have hlen : lag'.length = lag.length := by
    have := congrArg List.length hlag'
    simp only [List.length_append] at this
    omega
  refine ⟨lag', fun hne hnil => ?_, fun hmem => ?_, hd⟩
  · rw [hnil, List.length_nil, eq_comm, List.length_eq_zero_iff] at hlen
    exact hne hlen
  · have hc : '\\'.toUInt8 ∈ String.utf8EncodeChar c := by
      have := hlag' ▸ List.mem_append_right (String.utf8EncodeChar c) hmem
      exact (List.mem_append.1 this).resolve_left hslash
    -- the backslash would have been read in place of the first byte of the lag
    rw [utf8EncodeChar_slash hc] at hlag'
    cases lag with
    | nil =>
      rw [List.length_nil, List.length_eq_zero_iff] at hlen
      simp [hlen] at hmem
    | cons b lag =>
      obtain ⟨rfl, -⟩ := List.cons.inj hlag'
      exact hslash List.mem_cons_self

/-- Reading an escape that a lost character has begun leaves a lag as well. -/
theorem lag_of_slash {s : List Char} {m d : List UInt8} (hne : m ≠ []) (hslash : '\\'.toUInt8 ∉ m)
    (h : Expands true ('\\'.toUInt8 :: escapedText s) d) (hd : d = m ++ utf8Bytes s) :
    ∃ s₁ s₂ lag d', s = s₁ ++ s₂ ∧ lag ≠ [] ∧ '\\'.toUInt8 ∉ lag ∧
      Expands true (escapedText s₂) d' ∧ d' = lag ++ utf8Bytes s₂ := by
  generalize ht : '\\'.toUInt8 :: escapedText s = text at h
  cases h with
  | nil => cases ht
  | @cons t bytes r d' head tail =>
    obtain ⟨b, body, rfl⟩ := List.exists_cons_of_ne_nil head.ne_nil
    obtain ⟨rfl, htext⟩ := List.cons.inj ht
    obtain rfl | ⟨hbody, hlen⟩ := head.body
    · obtain ⟨b, m, rfl⟩ := List.exists_cons_of_ne_nil hne
      obtain ⟨rfl, -⟩ := List.cons.inj hd
      exact absurd List.mem_cons_self hslash
    · obtain ⟨s₁, s₂, rfl, rfl, hlen', hslash'⟩ := escapedText_split htext hbody
      have hbytes : utf8Bytes (s₁ ++ s₂) = utf8Bytes s₁ ++ utf8Bytes s₂ := by simp [utf8Bytes]
      rw [hbytes, ← List.append_assoc] at hd
      obtain ⟨lag, hlag, hmem, hd'⟩ := lag_of_short hd
        (by have := List.length_pos_of_ne_nil hne; rw [List.length_append]; omega)
        (by simp [hslash, hslash'])
      exact ⟨s₁, s₂, lag, d', rfl, hlag, hmem, tail, hd'⟩

theorem illegalText_plain : ∀ x ∈ illegalText, x.toNat < 128 ∧ x ≠ '\\'.toUInt8 := by
  have hall : (illegalText.all fun x => decide (x.toNat < 128 ∧ x ≠ '\\'.toUInt8)) = true := by
    decide
  intro x hx
  exact of_decide_eq_true (List.all_eq_true.1 hall x hx)

theorem not_expands_of_lag (s : List Char) (lag d : List UInt8) (hslash : '\\'.toUInt8 ∉ lag)
    (hlag : lag ≠ [] ∨ ∃ c ∈ s, ¬ Kept c) (h : Expands true (escapedText s) d) :
    d ≠ lag ++ utf8Bytes s := by
  intro hd
  match s, h with
  | [], h =>
    have hnil : d = [] := h.of_plain (List.forall_mem_nil _)
    obtain hne | ⟨c, hc, -⟩ := hlag
    · simp [hnil, utf8Bytes, hne] at hd
    · simp at hc
  | c :: s, h =>
    have hcons : utf8Bytes (c :: s) = String.utf8EncodeChar c ++ utf8Bytes s := rfl
    rw [hcons, ← List.append_assoc] at hd
    by_cases hvalid : codepointValid c.toNat = true
    · simp only [escapedText, hvalid, if_true] at h
      by_cases hkept : Kept c
      · obtain ⟨d', rfl, hd'⟩ := h.of_append (escapeCodePoint_escape hkept).signed
        obtain ⟨lag', hne, hslash', hlag'⟩ := lag_of_kept hslash hd
        refine not_expands_of_lag s lag' d' hslash' ?_ hd' hlag'
        grind
      · obtain ⟨hhigh, b, hb⟩ := escapeCodePoint_lost hvalid hkept
        obtain ⟨hlen, hbytes⟩ := utf8EncodeChar_high hhigh
        have hslash' : '\\'.toUInt8 ∉ lag ++ String.utf8EncodeChar c := by
          intro hmem
          obtain hmem | hmem := List.mem_append.1 hmem
          · exact hslash hmem
          · exact absurd (hbytes _ hmem) (by decide)
        rw [hb] at h
        by_cases hb92 : b = '\\'.toUInt8
        · subst hb92
          obtain ⟨s₁, s₂, lag', d', rfl, hne, hslash', hd', hlag'⟩ :=
            lag_of_slash (by simp) hslash' h hd
          exact not_expands_of_lag s₂ lag' d' hslash' (.inl hne) hd' hlag'
        · obtain ⟨d', rfl, hd'⟩ := h.of_append (Escape.plain hb92)
          obtain ⟨lag', hne, hslash', hlag'⟩ := lag_of_short hd
            (by simp only [List.length_append, List.length_singleton]; omega) hslash'
          exact not_expands_of_lag s lag' d' hslash' (.inl hne) hd' hlag'
    · simp only [escapedText, hvalid] at h
      have hhigh : 128 ≤ c.toNat := by
        have := (codepointValid_iff c).not.1 hvalid
        omega
      obtain rfl := h.of_plain fun x hx => (illegalText_plain x hx).2
      obtain ⟨b, hb⟩ := List.exists_mem_of_ne_nil (String.utf8EncodeChar c) (by simp)
      have hmem := hd ▸ List.mem_append_left (utf8Bytes s) (List.mem_append_right lag hb)
      have := (utf8EncodeChar_high hhigh).2 b hb
      have := (illegalText_plain b hmem).1
      omega
termination_by s.length

/-- Reading the literal of a string gives the string back exactly if no character is lost. -/
theorem expandEscapes_escapeUTF8_iff (s : List Char) :
    (escapeUTF8 (utf8Bytes s)).bind expandEscapes = .ok (utf8Bytes s) ↔ ∀ c ∈ s, Kept c := by
  rw [escapeUTF8_utf8Bytes, ok_bind]
  constructor
  · intro h
    by_contra hlost
    push Not at hlost
    obtain ⟨d, hd, hok⟩ | ⟨-, herror⟩ | ⟨what, herror⟩ := expandEscapes_total (escapedText s)
    · refine not_expands_of_lag s [] d (by simp) (.inr hlost) hd ?_
      rw [hok] at h
      simpa using h
    · rw [herror] at h
      cases h
    · rw [herror] at h
      cases h
  · intro hkept
    exact (escapedText_expands hkept).signed.expandEscapes

/-- The literal of `Ł` is the letter `A`. -/
theorem escapeUTF8_loses :
    (escapeUTF8 (utf8Bytes ['Ł'])).bind expandEscapes = .ok (utf8Bytes ['A']) ∧
      utf8Bytes ['A'] ≠ utf8Bytes ['Ł'] := by
  decide

end Diffingo.Util
