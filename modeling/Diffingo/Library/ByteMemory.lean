import Mathlib.Data.Nat.Basic
import Mathlib.Data.Int.Basic
import Mathlib.Data.List.Induction
import Mathlib.Tactic.Ring
import Mathlib.Tactic.NormNum

/-!
# Byte-addressed memory

Memory is a map from addresses to bytes. `slice` reads a run of bytes, `blit` writes one, and
`leValue`, `leBytes` are the two directions of a little-endian machine's loads and stores.
-/

namespace ByteMemory

/-- A memory; addresses are integers so that positions can be subtracted freely. -/
abbrev Memory := Int → UInt8

/-- The `n` bytes from address `p` on. -/
def slice (m : Memory) (p : Int) : Nat → List UInt8
  | 0 => []
  | n + 1 => m p :: slice m (p + 1) n

/-- The memory that holds the given bytes from address 0 on. -/
def holding (bs : List UInt8) : Memory := fun a => bs.getD a.toNat 0

/-- The memory after `bs` has been stored from address `p` on. -/
def blit (m : Memory) (p : Int) : List UInt8 → Memory
  | [] => m
  | b :: bs => blit (Function.update m p b) (p + 1) bs

@[simp] theorem slice_zero (m : Memory) (p : Int) : slice m p 0 = [] := rfl

theorem slice_succ (m : Memory) (p : Int) (n : Nat) :
    slice m p (n + 1) = m p :: slice m (p + 1) n := rfl

theorem blit_cons (m : Memory) (p : Int) (b : UInt8) (bs : List UInt8) :
    blit m p (b :: bs) = blit (Function.update m p b) (p + 1) bs := rfl

@[simp] theorem length_slice (m : Memory) (p : Int) (n : Nat) : (slice m p n).length = n := by
  induction n generalizing p with
  | zero => rfl
  | succ n ih => simp [slice_succ, ih]

theorem slice_add (m : Memory) (p : Int) (a b : Nat) :
    slice m p (a + b) = slice m p a ++ slice m (p + a) b := by
  induction a generalizing p with
  | zero => simp
  | succ a ih =>
    have hp : p + ((a + 1 : Nat) : Int) = p + 1 + a := by push_cast; ring
    rw [Nat.succ_add, hp]
    simp [slice_succ, ih]

/-- Two memories that agree on the run read the same bytes. -/
theorem slice_congr {m m' : Memory} {p : Int} {n : Nat}
    (h : ∀ a, p ≤ a → a < p + n → m a = m' a) : slice m p n = slice m' p n := by
  induction n generalizing p with
  | zero => rfl
  | succ n ih =>
    rw [slice_succ, slice_succ, h p (le_refl p) (by push_cast; omega)]
    congr 1
    exact ih fun a ha hlt => h a (by omega) (by push_cast; omega)

theorem blit_append (m : Memory) (p : Int) (bs cs : List UInt8) :
    blit m p (bs ++ cs) = blit (blit m p bs) (p + bs.length) cs := by
  induction bs generalizing m p with
  | nil => simp [blit]
  | cons b bs ih =>
    have hp : p + ((b :: bs).length : Int) = p + 1 + bs.length := by
      simp only [List.length_cons]; push_cast; ring
    rw [hp]
    simp [blit_cons, ih]

theorem blit_of_lt {m : Memory} {p a : Int} (bs : List UInt8) (h : a < p) :
    blit m p bs a = m a := by
  induction bs generalizing m p with
  | nil => rfl
  | cons b bs ih =>
    rw [blit_cons, ih (by omega), Function.update_of_ne (by omega)]

theorem blit_of_ge {m : Memory} {p a : Int} (bs : List UInt8) (h : p + bs.length ≤ a) :
    blit m p bs a = m a := by
  induction bs generalizing m p with
  | nil => rfl
  | cons b bs ih =>
    simp only [List.length_cons] at h
    push_cast at h
    rw [blit_cons, ih (by omega), Function.update_of_ne (by omega)]

/-- Reading back a run that has just been stored. -/
theorem slice_blit (m : Memory) (p : Int) (bs : List UInt8) :
    slice (blit m p bs) p bs.length = bs := by
  induction bs generalizing m p with
  | nil => rfl
  | cons b bs ih =>
    rw [List.length_cons, slice_succ, blit_cons, ih, blit_of_lt bs (by omega), Function.update_self]

/-- The value a little-endian machine loads from `bs`. -/
def leValue : List UInt8 → Nat
  | [] => 0
  | b :: bs => b.toNat + 256 * leValue bs

/-- The `k` bytes a little-endian machine stores for `v`; higher bits are cut off. -/
def leBytes : Nat → Nat → List UInt8
  | 0, _ => []
  | k + 1, v => UInt8.ofNat v :: leBytes k (v / 256)

@[simp] theorem length_leBytes (k v : Nat) : (leBytes k v).length = k := by
  induction k generalizing v with
  | zero => rfl
  | succ k ih => simp [leBytes, ih]

theorem leValue_lt (bs : List UInt8) : leValue bs < 256 ^ bs.length := by
  induction bs with
  | nil => simp [leValue]
  | cons b bs ih =>
    have hb : b.toNat < 256 := b.toNat_lt
    simp only [leValue, List.length_cons, pow_succ]
    omega

theorem leValue_leBytes (k v : Nat) : leValue (leBytes k v) = v % 256 ^ k := by
  induction k generalizing v with
  | zero => simp [leBytes, leValue, Nat.mod_one]
  | succ k ih =>
    rw [leBytes, leValue, ih, pow_succ', Nat.mod_mul]
    simp

theorem leBytes_leValue (bs : List UInt8) : leBytes bs.length (leValue bs) = bs := by
  induction bs with
  | nil => rfl
  | cons b bs ih =>
    have hb : b.toNat < 256 := b.toNat_lt
    have hdiv : (b.toNat + 256 * leValue bs) / 256 = leValue bs := by omega
    have hlow : UInt8.ofNat (b.toNat + 256 * leValue bs) = b := by
      apply UInt8.toNat_inj.mp
      simp only [UInt8.toNat_ofNat']
      omega
    simp only [List.length_cons, leBytes, leValue, hdiv, hlow, ih]

/-- Only the low `8 * k` bits of a value are stored. -/
theorem leBytes_mod (k v : Nat) : leBytes k (v % 256 ^ k) = leBytes k v := by
  have h := leBytes_leValue (leBytes k v)
  rwa [length_leBytes, leValue_leBytes] at h

/-- Reversing the `k` bytes of a value, as the byte-swap instructions do. -/
def bswap (k v : Nat) : Nat := leValue (leBytes k v).reverse

/-- The value a big-endian machine loads from `bs`. -/
def beValue (bs : List UInt8) : Nat := bs.foldl (fun v b => 256 * v + b.toNat) 0

theorem beValue_eq (bs : List UInt8) : beValue bs = leValue bs.reverse := by
  induction bs using List.reverseRecOn with
  | nil => rfl
  | append_singleton bs b ih =>
    simp only [beValue] at ih
    simp [beValue, leValue, ih, Nat.add_comm]

theorem bswap_leValue (bs : List UInt8) : bswap bs.length (leValue bs) = beValue bs := by
  rw [bswap, leBytes_leValue, beValue_eq]

theorem leBytes_bswap (k v : Nat) : leBytes k (bswap k v) = (leBytes k v).reverse := by
  have h := leBytes_leValue (leBytes k v).reverse
  rwa [List.length_reverse, length_leBytes] at h

theorem bswap_lt (k v : Nat) : bswap k v < 256 ^ k := by
  simpa [bswap] using leValue_lt (leBytes k v).reverse

/-- Swapping the loaded value back before storing it restores the bytes. -/
theorem leBytes_bswap_bswap (k : Nat) (bs : List UInt8) (h : bs.length = k) :
    leBytes k (bswap k (bswap k (leValue bs))) = bs := by
  subst h
  rw [leBytes_bswap, leBytes_bswap, leBytes_leValue, List.reverse_reverse]

end ByteMemory
