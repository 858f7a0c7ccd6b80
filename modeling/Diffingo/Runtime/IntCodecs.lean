import Diffingo.Runtime.Serializing

/-!
# The integer codecs of the runtime

The sixteen `parseInt` and the sixteen `serializeInt` functions on memory: the bytes of the buffer
and of the object lie in one memory, and a codec moves the position it is given. A codec is one of
two function bodies, with or without a swap of the bytes, at the type and the swap that the source
writes out for it.
-/

namespace Diffingo.Runtime.IntCodecs

open CInteger ByteMemory

/-- The memory, and the pointer that a codec moves. -/
structure Cursor where
  mem : Memory
  pos : Int

/-- The object of type `t` at an address, `*reinterpret_cast<T*>(p)`. -/
def load (t : IntTy) (m : Memory) (p : Int) : Int := t.wrap (leValue (slice m p (t.width / 8)))

/-- The assignment of a value to the object of type `t` at an address. -/
def store (t : IntTy) (m : Memory) (p v : Int) : Memory :=
  blit m p (leBytes (t.width / 8) (rawValue t v))

/-- The swap `bswap_N` with its argument converted to the unsigned type of the width. -/
def bswapN (n : Nat) (v : Int) : Int := bswap (n / 8) (rawValue ⟨n, false⟩ v)

abbrev uint8 : IntTy := ⟨8, false⟩
abbrev uint16 : IntTy := ⟨16, false⟩
abbrev uint32 : IntTy := ⟨32, false⟩
abbrev uint64 : IntTy := ⟨64, false⟩
abbrev int8 : IntTy := ⟨8, true⟩
abbrev int16 : IntTy := ⟨16, true⟩
abbrev int32 : IntTy := ⟨32, true⟩
abbrev int64 : IntTy := ⟨64, true⟩

/-- A codec takes the end of the buffer and the address of the object outside it. -/
abbrev Codec (ρ : Type) := Int → Int → Cursor → ρ × Cursor

/-- The body of the parse functions, with what they do to the number on its way. -/
def parseWith (t : IntTy) (swap : Int → Int) : Codec ParseResult := fun inBufEnd parseDest s =>
  if shortOf inBufEnd s.pos (t.width / 8) then (.outOfData, s)
  else (.done, ⟨store t s.mem parseDest (swap (load t s.mem s.pos)), s.pos + (t.width / 8 : Nat)⟩)

/-- `parsing::util::copyAtomicType<T>`. -/
def parseAtomicType (t : IntTy) : Codec ParseResult := parseWith t fun v => v

def parseInt8UnsignedBig : Codec ParseResult := parseAtomicType uint8
def parseInt16UnsignedBig : Codec ParseResult := parseWith uint16 (bswapN 16)
def parseInt32UnsignedBig : Codec ParseResult := parseWith uint32 (bswapN 32)
def parseInt64UnsignedBig : Codec ParseResult := parseWith uint64 (bswapN 64)
def parseInt8UnsignedLittle : Codec ParseResult := parseAtomicType uint8
def parseInt16UnsignedLittle : Codec ParseResult := parseAtomicType uint16
def parseInt32UnsignedLittle : Codec ParseResult := parseAtomicType uint32
def parseInt64UnsignedLittle : Codec ParseResult := parseAtomicType uint64
def parseInt8SignedBig : Codec ParseResult := parseAtomicType int8
def parseInt16SignedBig : Codec ParseResult := parseWith int16 (bswapN 16)
def parseInt32SignedBig : Codec ParseResult := parseWith int32 (bswapN 32)
def parseInt64SignedBig : Codec ParseResult := parseWith int64 (bswapN 64)
def parseInt8SignedLittle : Codec ParseResult := parseAtomicType int8
def parseInt16SignedLittle : Codec ParseResult := parseAtomicType int16
def parseInt32SignedLittle : Codec ParseResult := parseAtomicType int32
def parseInt64SignedLittle : Codec ParseResult := parseAtomicType int64

/-- The body of the serialize functions. -/
def serializeWith (t : IntTy) (swap : Int → Int) : Codec SerializeResult :=
  fun outBufEnd serializeSrc s =>
    if shortOf outBufEnd s.pos (t.width / 8) then (.outBufFull, s)
    else
      (.done, ⟨store t s.mem s.pos (swap (load t s.mem serializeSrc)), s.pos + (t.width / 8 : Nat)⟩)

/-- `serializing::util::copyAtomicType<T>`. -/
def serializeAtomicType (t : IntTy) : Codec SerializeResult := serializeWith t fun v => v

def serializeInt8UnsignedBig : Codec SerializeResult := serializeAtomicType uint8
def serializeInt16UnsignedBig : Codec SerializeResult := serializeWith uint16 (bswapN 16)
def serializeInt32UnsignedBig : Codec SerializeResult := serializeWith uint32 (bswapN 32)
def serializeInt64UnsignedBig : Codec SerializeResult := serializeWith uint64 (bswapN 64)
def serializeInt8UnsignedLittle : Codec SerializeResult := serializeAtomicType uint8
def serializeInt16UnsignedLittle : Codec SerializeResult := serializeAtomicType uint16
def serializeInt32UnsignedLittle : Codec SerializeResult := serializeAtomicType uint32
def serializeInt64UnsignedLittle : Codec SerializeResult := serializeAtomicType uint64
def serializeInt8SignedBig : Codec SerializeResult := serializeAtomicType int8
def serializeInt16SignedBig : Codec SerializeResult := serializeWith int16 (bswapN 16)
def serializeInt32SignedBig : Codec SerializeResult := serializeWith int32 (bswapN 32)
def serializeInt64SignedBig : Codec SerializeResult := serializeWith int64 (bswapN 64)
def serializeInt8SignedLittle : Codec SerializeResult := serializeAtomicType int8
def serializeInt16SignedLittle : Codec SerializeResult := serializeAtomicType int16
def serializeInt32SignedLittle : Codec SerializeResult := serializeAtomicType int32
def serializeInt64SignedLittle : Codec SerializeResult := serializeAtomicType int64

/-- The widths that codecs are written out for. -/
inductive Width
  | w8 | w16 | w32 | w64
  deriving DecidableEq, Repr

namespace Width

def bits : Width → Nat
  | w8 => 8
  | w16 => 16
  | w32 => 32
  | w64 => 64

/-- The integer type of a width. -/
def type (w : Width) (signed : Bool) : IntTy := ⟨w.bits, signed⟩

theorem bits_mem (w : Width) : w.bits ∈ supportedWidths := by
  cases w <;> decide

end Width

/-- The parse function whose name has the width, the sign and the byte order in it. -/
def parseInt : Width → Bool → ByteOrder → Codec ParseResult
  | .w8, false, .big => parseInt8UnsignedBig
  | .w16, false, .big => parseInt16UnsignedBig
  | .w32, false, .big => parseInt32UnsignedBig
  | .w64, false, .big => parseInt64UnsignedBig
  | .w8, false, .little => parseInt8UnsignedLittle
  | .w16, false, .little => parseInt16UnsignedLittle
  | .w32, false, .little => parseInt32UnsignedLittle
  | .w64, false, .little => parseInt64UnsignedLittle
  | .w8, true, .big => parseInt8SignedBig
  | .w16, true, .big => parseInt16SignedBig
  | .w32, true, .big => parseInt32SignedBig
  | .w64, true, .big => parseInt64SignedBig
  | .w8, true, .little => parseInt8SignedLittle
  | .w16, true, .little => parseInt16SignedLittle
  | .w32, true, .little => parseInt32SignedLittle
  | .w64, true, .little => parseInt64SignedLittle

def serializeInt : Width → Bool → ByteOrder → Codec SerializeResult
  | .w8, false, .big => serializeInt8UnsignedBig
  | .w16, false, .big => serializeInt16UnsignedBig
  | .w32, false, .big => serializeInt32UnsignedBig
  | .w64, false, .big => serializeInt64UnsignedBig
  | .w8, false, .little => serializeInt8UnsignedLittle
  | .w16, false, .little => serializeInt16UnsignedLittle
  | .w32, false, .little => serializeInt32UnsignedLittle
  | .w64, false, .little => serializeInt64UnsignedLittle
  | .w8, true, .big => serializeInt8SignedBig
  | .w16, true, .big => serializeInt16SignedBig
  | .w32, true, .big => serializeInt32SignedBig
  | .w64, true, .big => serializeInt64SignedBig
  | .w8, true, .little => serializeInt8SignedLittle
  | .w16, true, .little => serializeInt16SignedLittle
  | .w32, true, .little => serializeInt32SignedLittle
  | .w64, true, .little => serializeInt64SignedLittle

/-- The number that bytes in a byte order stand for, in two's complement where `t` is signed. -/
def value (bo : ByteOrder) (t : IntTy) (bs : List UInt8) : Int :=
  match bo with
  | .big => t.wrap (beValue bs)
  | .little => t.wrap (leValue bs)

section Value

variable {t : IntTy} (ht : t.width ∈ supportedWidths) (bo : ByteOrder)

theorem value_eq {bs : List UInt8} (hlen : bs.length = t.width / 8) :
    value bo t bs = t.wrap (fromByteOrder bo (t.width / 8) (leValue bs)) := by
  cases bo with
  | little => rfl
  | big =>
    by_cases hone : t.width / 8 = 1
    · obtain ⟨b, rfl⟩ := List.length_eq_one_iff.1 (hlen.trans hone)
      simp [value, fromByteOrder, hone, beValue, leValue]
    · simp only [value, fromByteOrder, hone, if_false]
      rw [← hlen, bswap_leValue]

theorem wrap_value (bs : List UInt8) : t.wrap (value bo t bs) = value bo t bs := by
  cases bo <;> exact IntTy.wrap_wrap t _

include ht

theorem value_intBytes (v : Int) : value bo t (intBytes t bo v) = t.wrap v := by
  rw [value_eq bo (length_intBytes t bo v), parsed_intBytes ht]

theorem intBytes_value {bs : List UInt8} (hlen : bs.length = t.width / 8) :
    intBytes t bo (value bo t bs) = bs := by
  rw [value_eq bo hlen, intBytes_parsed ht bo hlen]

theorem load_store (m : Memory) (p v : Int) : load t (store t m p v) p = t.wrap v := by
  have hslice : slice (store t m p v) p (t.width / 8) = intBytes t .little v := by
    have := slice_blit m p (intBytes t .little v)
    rwa [length_intBytes] at this
  rw [load, hslice]
  exact value_intBytes ht .little v

end Value

/-- What a codec does to a number between loading and storing it. -/
def swap (bo : ByteOrder) (w : Width) : Int → Int :=
  match bo, w with
  | .little, _ => fun v => v
  | .big, .w8 => fun v => v
  | .big, w => bswapN w.bits

theorem parseInt_eq (w : Width) (signed : Bool) (bo : ByteOrder) :
    parseInt w signed bo = parseWith (w.type signed) (swap bo w) := by
  cases w <;> cases signed <;> cases bo <;> rfl

theorem serializeInt_eq (w : Width) (signed : Bool) (bo : ByteOrder) :
    serializeInt w signed bo = serializeWith (w.type signed) (swap bo w) := by
  cases w <;> cases signed <;> cases bo <;> rfl

/-- The swap as the model of the generated code has it, on the object representation. -/
theorem wrap_swap (bo : ByteOrder) (w : Width) (signed : Bool) (v : Int) :
    (w.type signed).wrap (swap bo w v) =
      (w.type signed).wrap (fromByteOrder bo (w.bits / 8) (rawValue (w.type signed) v)) := by
  cases bo with
  | little => exact (wrap_rawValue (w.type signed) v).symm
  | big =>
    cases w with
    | w8 => exact (wrap_rawValue (Width.type .w8 signed) v).symm
    | w16 | w32 | w64 => rfl

theorem store_wrap (t : IntTy) (m : Memory) (p v : Int) :
    store t m p (t.wrap v) = store t m p v := by
  rw [store, rawValue_wrap, store]

theorem store_natCast {t : IntTy} (ht : t.width ∈ supportedWidths) (m : Memory) (p : Int)
    (k : Nat) : store t m p k = blit m p (leBytes (t.width / 8) k) := by
  have hraw : rawValue t k = k % 256 ^ (t.width / 8) := by
    rw [pow_width ht, rawValue, ← Int.natCast_emod, Int.toNat_natCast]
  rw [store, hraw, leBytes_mod]

section Codec

variable (w : Width) (signed : Bool) (bo : ByteOrder) (m : Memory) (p q : Int)

/-- A parse function stores the number that the next bytes stand for. -/
theorem store_swap_load :
    store (w.type signed) m q (swap bo w (load (w.type signed) m p)) =
      store (w.type signed) m q (value bo (w.type signed) (slice m p (w.bits / 8))) := by
  have hbound : leValue (slice m p (w.bits / 8)) < 2 ^ w.bits := by
    have := leValue_lt (slice m p (w.bits / 8))
    rwa [length_slice, pow_width w.bits_mem] at this
  have hraw : rawValue (w.type signed) (load (w.type signed) m p) =
      leValue (slice m p (w.bits / 8)) := by
    rw [load, rawValue_wrap]
    exact rawValue_natCast hbound
  have hlen : (slice m p (w.bits / 8)).length = (w.type signed).width / 8 := length_slice _ _ _
  rw [← store_wrap, wrap_swap, hraw, value_eq bo hlen]
  rfl

/-- A serialize function writes the bytes of the number it finds. -/
theorem store_swap (v : Int) :
    store (w.type signed) m p (swap bo w v) = blit m p (intBytes (w.type signed) bo v) := by
  rw [← store_wrap, wrap_swap, store_wrap, store_natCast w.bits_mem]
  rfl

end Codec

/-- A buffer. It lies inside the address space, so its size is below `2 ^ 63`. -/
structure Buffer where
  start : Int
  bufEnd : Int
  start_le : start ≤ bufEnd
  size_lt : bufEnd - start < 2 ^ 63

/-- A position in a buffer that is not beyond its end. -/
def Buffer.Holds (b : Buffer) (pos : Int) : Prop := b.start ≤ pos ∧ pos ≤ b.bufEnd

instance (b : Buffer) (pos : Int) : Decidable (b.Holds pos) := inferInstanceAs (Decidable (_ ∧ _))

theorem Buffer.shortOf {b : Buffer} {pos : Int} (h : b.Holds pos) (n : Nat) :
    shortOf b.bufEnd pos n = decide (b.bufEnd - pos < n) := by
  have := b.size_lt
  obtain ⟨hstart, hend⟩ := h
  exact shortOf_eq hend (by omega) n

theorem parseInt_spec (w : Width) (signed : Bool) (bo : ByteOrder) {b : Buffer} {s : Cursor}
    (h : b.Holds s.pos) (dest : Int) :
    parseInt w signed bo b.bufEnd dest s =
      if b.bufEnd - s.pos < (w.bits / 8 : Nat) then (.outOfData, s)
      else (.done, ⟨store (w.type signed) s.mem dest
          (value bo (w.type signed) (slice s.mem s.pos (w.bits / 8))),
        s.pos + (w.bits / 8 : Nat)⟩) := by
  rw [parseInt_eq, parseWith, Buffer.shortOf h, store_swap_load]
  simp only [decide_eq_true_eq]
  rfl

theorem serializeInt_spec (w : Width) (signed : Bool) (bo : ByteOrder) {b : Buffer} {s : Cursor}
    (h : b.Holds s.pos) (src : Int) :
    serializeInt w signed bo b.bufEnd src s =
      if b.bufEnd - s.pos < (w.bits / 8 : Nat) then (.outBufFull, s)
      else (.done, ⟨blit s.mem s.pos (intBytes (w.type signed) bo (load (w.type signed) s.mem src)),
        s.pos + (w.bits / 8 : Nat)⟩) := by
  rw [serializeInt_eq, serializeWith, Buffer.shortOf h, store_swap]
  simp only [decide_eq_true_eq]
  rfl

/-- The codecs refine the primitives that the model of the generated code uses. -/
theorem parseInt_refines (w : Width) (signed : Bool) (bo : ByteOrder) (inBufEnd dest : Int)
    (s : Cursor) :
    parseInt w signed bo inBufEnd dest s =
      match Runtime.parseInt (w.type signed) bo s.mem s.pos inBufEnd with
      | .error r => (r, s)
      | .ok (v, pos) => (.done, ⟨store (w.type signed) s.mem dest v, pos⟩) := by
  have hlen : (slice s.mem s.pos (w.bits / 8)).length = (w.type signed).width / 8 :=
    length_slice _ _ _
  rw [parseInt_eq, parseWith, store_swap_load, value_eq bo hlen, Runtime.parseInt, copyAtomicType]
  split_ifs <;> rfl

theorem serializeInt_refines (w : Width) (signed : Bool) (bo : ByteOrder) (outBufEnd src : Int)
    (s : Cursor) :
    serializeInt w signed bo outBufEnd src s =
      match Runtime.serializeInt (w.type signed) bo (load (w.type signed) s.mem src) s.mem s.pos
        outBufEnd with
      | .error r => (r, s)
      | .ok (m, pos) => (.done, ⟨m, pos⟩) := by
  rw [serializeInt_eq, serializeWith, store_swap, Runtime.serializeInt]
  split_ifs <;> rfl

/-- Two memories that differ in a run of bytes only. -/
def AgreeOutside (p : Int) (n : Nat) (m m' : Memory) : Prop :=
  ∀ a, a < p ∨ p + n ≤ a → m' a = m a

theorem agreeOutside_blit (m : Memory) (p : Int) (bs : List UInt8) :
    AgreeOutside p bs.length m (blit m p bs) := by
  rintro a (ha | ha)
  · exact blit_of_lt bs ha
  · exact blit_of_ge bs ha

section RoundTrip

variable (w : Width) (signed : Bool) (bo : ByteOrder) {b : Buffer} {s : Cursor}

theorem parseInt_short (h : b.Holds s.pos) (dest : Int) :
    parseInt w signed bo b.bufEnd dest s = (.outOfData, s) ↔
      b.bufEnd - s.pos < (w.bits / 8 : Nat) := by
  rw [parseInt_spec w signed bo h]
  split_ifs with hshort
  · exact iff_of_true rfl hshort
  · exact iff_of_false (by simp) hshort

theorem serializeInt_short (h : b.Holds s.pos) (src : Int) :
    serializeInt w signed bo b.bufEnd src s = (.outBufFull, s) ↔
      b.bufEnd - s.pos < (w.bits / 8 : Nat) := by
  rw [serializeInt_spec w signed bo h]
  split_ifs with hshort
  · exact iff_of_true rfl hshort
  · exact iff_of_false (by simp) hshort

theorem parseInt_done (h : b.Holds s.pos) (hroom : (w.bits / 8 : Nat) ≤ b.bufEnd - s.pos)
    (dest : Int) :
    ∃ m, parseInt w signed bo b.bufEnd dest s = (.done, ⟨m, s.pos + (w.bits / 8 : Nat)⟩) ∧
      load (w.type signed) m dest = value bo (w.type signed) (slice s.mem s.pos (w.bits / 8)) ∧
      AgreeOutside dest (w.bits / 8) s.mem m := by
  have hspec := parseInt_spec w signed bo h dest
  rw [if_neg (by omega)] at hspec
  refine ⟨_, hspec, ?_, ?_⟩
  · rw [load_store w.bits_mem, wrap_value]
  · have := agreeOutside_blit s.mem dest (leBytes (w.bits / 8)
      (rawValue (w.type signed) (value bo (w.type signed) (slice s.mem s.pos (w.bits / 8)))))
    rwa [length_leBytes] at this

theorem serializeInt_done (h : b.Holds s.pos) (hroom : (w.bits / 8 : Nat) ≤ b.bufEnd - s.pos)
    (src : Int) :
    ∃ m, serializeInt w signed bo b.bufEnd src s = (.done, ⟨m, s.pos + (w.bits / 8 : Nat)⟩) ∧
      slice m s.pos (w.bits / 8) =
        intBytes (w.type signed) bo (load (w.type signed) s.mem src) ∧
      AgreeOutside s.pos (w.bits / 8) s.mem m := by
  have hspec := serializeInt_spec w signed bo h src
  rw [if_neg (by omega)] at hspec
  have hlen := length_intBytes (w.type signed) bo (load (w.type signed) s.mem src)
  refine ⟨_, hspec, ?_, ?_⟩
  · have := slice_blit s.mem s.pos (intBytes (w.type signed) bo (load (w.type signed) s.mem src))
    rwa [hlen] at this
  · have := agreeOutside_blit s.mem s.pos
      (intBytes (w.type signed) bo (load (w.type signed) s.mem src))
    rwa [hlen] at this

theorem wrap_load (t : IntTy) (m : Memory) (p : Int) : t.wrap (load t m p) = load t m p :=
  IntTy.wrap_wrap t _

end RoundTrip

/-- Each codec is exact at every position of a buffer, and the two directions undo each other. -/
theorem codecs_exact (w : Width) (signed : Bool) (bo : ByteOrder) (b : Buffer) (s : Cursor)
    (h : b.Holds s.pos) (object : Int) :
    let t := w.type signed
    let n := w.bits / 8
    -- parsing
    (parseInt w signed bo b.bufEnd object s = (.outOfData, s) ↔ b.bufEnd - s.pos < n) ∧
    (n ≤ b.bufEnd - s.pos →
      ∃ m, parseInt w signed bo b.bufEnd object s = (.done, ⟨m, s.pos + n⟩) ∧
        load t m object = value bo t (slice s.mem s.pos n) ∧
        AgreeOutside object n s.mem m ∧
        ∀ b' pos, Buffer.Holds b' pos → n ≤ b'.bufEnd - pos →
          ∃ m', serializeInt w signed bo b'.bufEnd object ⟨m, pos⟩ = (.done, ⟨m', pos + n⟩) ∧
            slice m' pos n = slice s.mem s.pos n) ∧
    -- serializing
    (serializeInt w signed bo b.bufEnd object s = (.outBufFull, s) ↔ b.bufEnd - s.pos < n) ∧
    (n ≤ b.bufEnd - s.pos →
      ∃ m, serializeInt w signed bo b.bufEnd object s = (.done, ⟨m, s.pos + n⟩) ∧
        (∀ bs : List UInt8, bs.length = n →
          (value bo t bs = load t s.mem object ↔ bs = slice m s.pos n)) ∧
        AgreeOutside s.pos n s.mem m ∧
        ∀ dest, ∃ m', parseInt w signed bo b.bufEnd dest ⟨m, s.pos⟩ = (.done, ⟨m', s.pos + n⟩) ∧
          load t m' dest = load t s.mem object) ∧
    -- numbers and their bytes
    (∀ v, t.wrap v = v → value bo t (intBytes t bo v) = v) ∧
    (∀ bs : List UInt8, bs.length = n → intBytes t bo (value bo t bs) = bs) := by
  intro t n
  have hmem : t.width ∈ supportedWidths := w.bits_mem
  refine ⟨parseInt_short w signed bo h object, fun hroom => ?_,
    serializeInt_short w signed bo h object, fun hroom => ?_, fun v hv => ?_, fun bs hbs => ?_⟩
  · obtain ⟨m, hparse, hload, hagree⟩ := parseInt_done w signed bo h hroom object
    refine ⟨m, hparse, hload, hagree, fun b' pos hpos hroom' => ?_⟩
    obtain ⟨m', hserialize, hslice, -⟩ :=
      serializeInt_done w signed bo (s := ⟨m, pos⟩) hpos hroom' object
    refine ⟨m', hserialize, ?_⟩
    rw [hslice, hload]
    exact intBytes_value hmem bo (length_slice _ _ _)
  · obtain ⟨m, hserialize, hslice, hagree⟩ := serializeInt_done w signed bo h hroom object
    have hvalue : value bo t (slice m s.pos n) = load t s.mem object := by
      rw [hslice, value_intBytes hmem, wrap_load]
    refine ⟨m, hserialize, fun bs hbs => ⟨fun hbs' => ?_, fun hbs' => ?_⟩, hagree, fun dest => ?_⟩
    · rw [hslice, ← hbs']
      exact (intBytes_value hmem bo hbs).symm
    · rw [hbs', hvalue]
    · obtain ⟨m', hparse, hload, -⟩ :=
        parseInt_done w signed bo (s := ⟨m, s.pos⟩) h hroom dest
      exact ⟨m', hparse, hload.trans hvalue⟩
  · rw [value_intBytes hmem, hv]
  · exact intBytes_value hmem bo hbs

/-- A buffer of four bytes. -/
def fourBytes : Buffer := ⟨0, 4, by decide, by decide⟩

theorem codecs_exact_minusTwo :
    fourBytes.Holds 1 ∧
      ∃ m, parseInt .w16 true .big 4 16 ⟨holding [7, 0xFF, 0xFE, 9], 1⟩ = (.done, ⟨m, 3⟩) ∧
        load int16 m 16 = -2 := by
  obtain ⟨m, hparse, hload, -⟩ := (codecs_exact .w16 true .big fourBytes
    ⟨holding [7, 0xFF, 0xFE, 9], 1⟩ (by decide) 16).2.1 (by decide)
  exact ⟨by decide, m, hparse, hload.trans (by decide)⟩

end Diffingo.Runtime.IntCodecs
