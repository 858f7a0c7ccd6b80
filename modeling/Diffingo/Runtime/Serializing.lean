import Diffingo.Runtime.Parsing

/-!
# Serializer runtime

The serialize primitives of `runtime/serializing`, and the round trip of the integer codecs.
-/

namespace Diffingo.Runtime

open CInteger ByteMemory

/-- `serializing::SerializeResult`; the generated code never returns `NEXT`. -/
inductive SerializeResult
  | done | next | outBufFull
  deriving DecidableEq, Repr

/-- The object representation of a number of type `t`, as an unsigned number. -/
def rawValue (t : IntTy) (v : Int) : Nat := (v % ((2 ^ t.width : Nat) : Int)).toNat

/-- The bytes `serializeInt<W>_<sign>_<byteorder>` writes for a number. -/
def intBytes (t : IntTy) (bo : ByteOrder) (v : Int) : List UInt8 :=
  leBytes (t.width / 8) (fromByteOrder bo (t.width / 8) (rawValue t v))

/-- `serializing::util::serializeInt<W>_<sign>_<byteorder>`. -/
def serializeInt (t : IntTy) (bo : ByteOrder) (v : Int) (out : Memory) (pos outBufEnd : Int) :
    Except SerializeResult (Memory × Int) :=
  if shortOf outBufEnd pos (t.width / 8) then .error .outBufFull
  else .ok (blit out pos (intBytes t bo v), pos + (t.width / 8 : Nat))

/-- `serializing::util::copyBytes` from the block or stream `src`. Reading past the end of a block is
undefined, and so is a `memcpy` of more bytes than any object has. -/
def copyBytes (src : Option (List UInt8)) (len : Nat) (out : Memory) (pos outBufEnd : Int) :
    Option (Except SerializeResult (Memory × Int)) :=
  if shortOfLength outBufEnd pos len then some (.error .outBufFull)
  else if len < 2 ^ 63 then src.map fun bs => .ok (blit out pos bs, pos + len) else none

@[simp] theorem length_intBytes (t : IntTy) (bo : ByteOrder) (v : Int) :
    (intBytes t bo v).length = t.width / 8 := by
  simp [intBytes]

/-- The widths for which the runtime has primitives. -/
def supportedWidths : List Nat := [8, 16, 32, 64]

theorem pow_width {w : Nat} (h : w ∈ supportedWidths) : 256 ^ (w / 8) = 2 ^ w := by
  simp only [supportedWidths, List.mem_cons, List.not_mem_nil, or_false] at h
  rcases h with rfl | rfl | rfl | rfl <;> norm_num

theorem width_lt {w : Nat} (h : w ∈ supportedWidths) : w / 8 < 2 ^ 63 := by
  simp only [supportedWidths, List.mem_cons, List.not_mem_nil, or_false] at h
  omega

theorem rawValue_wrap (t : IntTy) (v : Int) : rawValue t (t.wrap v) = rawValue t v := by
  unfold rawValue IntTy.wrap
  split
  · rw [Int.bmod_emod]
  · rw [Int.emod_emod_of_dvd v (dvd_refl _)]

theorem rawValue_natCast {t : IntTy} {n : Nat} (h : n < 2 ^ t.width) : rawValue t n = n := by
  unfold rawValue
  rw [← Int.natCast_emod, Int.toNat_natCast, Nat.mod_eq_of_lt h]

/-- Serializing a number that was parsed from `bs` restores `bs`. -/
theorem intBytes_parsed {t : IntTy} (ht : t.width ∈ supportedWidths) (bo : ByteOrder)
    {bs : List UInt8} (hlen : bs.length = t.width / 8) :
    intBytes t bo (t.wrap (fromByteOrder bo (t.width / 8) (leValue bs))) = bs := by
  have hbound : leValue bs < 2 ^ t.width := by
    rw [← pow_width ht, ← hlen]
    exact leValue_lt bs
  have hswap : bswap (t.width / 8) (leValue bs) < 2 ^ t.width := by
    rw [← pow_width ht]
    exact bswap_lt _ _
  unfold intBytes
  rw [rawValue_wrap]
  cases bo with
  | little =>
    simp only [fromByteOrder]
    rw [rawValue_natCast hbound, ← hlen]
    exact leBytes_leValue bs
  | big =>
    by_cases hone : t.width / 8 = 1
    · simp only [fromByteOrder, hone, if_true]
      rw [rawValue_natCast hbound, ← hone, ← hlen]
      exact leBytes_leValue bs
    · simp only [fromByteOrder, hone, if_false]
      rw [rawValue_natCast hswap]
      exact leBytes_bswap_bswap _ bs hlen

theorem wrap_rawValue (t : IntTy) (v : Int) : t.wrap (rawValue t v) = t.wrap v := by
  have hnonneg : 0 ≤ v % ((2 ^ t.width : Nat) : Int) :=
    Int.emod_nonneg v (by have := Nat.two_pow_pos t.width; omega)
  unfold rawValue IntTy.wrap
  rw [Int.toNat_of_nonneg hnonneg]
  split
  · exact Int.emod_bmod v _
  · exact Int.emod_emod_of_dvd v (dvd_refl _)

/-- Parsing the bytes of a number gives the number, as far as the type holds it. -/
theorem parsed_intBytes {t : IntTy} (ht : t.width ∈ supportedWidths) (bo : ByteOrder) (v : Int) :
    t.wrap (fromByteOrder bo (t.width / 8) (leValue (intBytes t bo v))) = t.wrap v := by
  have hraw : rawValue t v < 256 ^ (t.width / 8) := by
    rw [pow_width ht]
    have hpos : (0 : Int) < ((2 ^ t.width : Nat) : Int) := by exact_mod_cast Nat.two_pow_pos _
    have hlt := Int.emod_lt_of_pos v hpos
    have hnonneg := Int.emod_nonneg v hpos.ne'
    unfold rawValue
    omega
  unfold intBytes
  rw [leValue_leBytes]
  cases bo with
  | little =>
    simp only [fromByteOrder]
    rw [Nat.mod_eq_of_lt hraw, wrap_rawValue]
  | big =>
    by_cases hone : t.width / 8 = 1
    · simp only [fromByteOrder, hone, if_true] at hraw ⊢
      rw [Nat.mod_eq_of_lt hraw, wrap_rawValue]
    · simp only [fromByteOrder, hone, if_false]
      rw [Nat.mod_eq_of_lt (bswap_lt _ _), bswap, leBytes_bswap, List.reverse_reverse,
        leValue_leBytes, Nat.mod_eq_of_lt hraw, wrap_rawValue]

/-- Within the address space the unsigned comparison is the comparison of the numbers. -/
theorem shortOf_eq {e p : Int} (hle : p ≤ e) (hlt : e - p < 2 ^ 63) (n : Nat) :
    shortOf e p n = decide (e - p < n) := by
  have h : IntTy.sizeT.wrap (e - p) = e - p :=
    IntTy.wrap_unsigned_of_lt (by omega) (by push_cast; omega)
  simp [shortOf, h]

theorem ssize_of_lt {n : Nat} (h : n < 2 ^ 63) : ssize n = n := by
  simp only [ssize, h, if_true]

theorem ssize_neg {n : Nat} (h : 2 ^ 63 ≤ n) (hlt : n < 2 ^ 64) : ssize n < 0 := by
  simp only [ssize, Nat.not_lt.mpr h, if_false]
  omega

theorem shortOfLength_eq {len : Nat} (h : len < 2 ^ 63) (e p : Int) :
    shortOfLength e p len = decide (e - p < len) := by
  simp [shortOfLength, ssize_of_lt h]

end Diffingo.Runtime
