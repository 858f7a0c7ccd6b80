import Diffingo.Library.ByteMemory
import Diffingo.Library.CInteger

/-!
# Parser runtime

The unit area, the parser state and the parse primitives of `runtime/unit` and `runtime/parsing`.
A primitive returns the new position together with what it stores, or the result the generated
code returns with; in that case nothing has changed. Addresses are integers and `size_t` arithmetic
is that of a 64-bit machine.
-/

namespace Diffingo.Runtime

open CInteger ByteMemory

/-- `unit::UnitArea`. The area lies inside the address space, so its size is below `2 ^ 63`. -/
structure UnitArea where
  size : Nat
  allocated : Nat
  allocated_le : allocated ≤ size
  size_lt : size < 2 ^ 63

namespace UnitArea

def space (a : UnitArea) : Nat := a.size - a.allocated

/-- `UnitArea::allocate`: the position of the block, relative to the contents, and the area after. -/
def allocate (a : UnitArea) (size : Nat) : Option (Nat × UnitArea) :=
  if h : a.space < size then none
  else some (a.allocated, ⟨a.size, a.allocated + size,
    by have := a.allocated_le; simp only [space] at h; omega, a.size_lt⟩)

theorem space_lt (a : UnitArea) : a.space < 2 ^ 63 := by
  have := a.size_lt
  simp only [space]
  omega

theorem allocate_eq_none {a : UnitArea} {n : Nat} : a.allocate n = none ↔ a.space < n := by
  simp [allocate]

theorem allocate_of_le {a : UnitArea} {n : Nat} (h : n ≤ a.space) :
    ∃ a', a.allocate n = some (a.allocated, a') ∧ a'.space = a.space - n := by
  have hlt : ¬ a.space < n := by omega
  simp only [allocate, hlt, dite_false, Option.some.injEq, Prod.mk.injEq, true_and,
    exists_eq_left']
  simp only [space]
  omega

theorem allocate_some {a a' : UnitArea} {n p : Nat} (h : a.allocate n = some (p, a')) :
    n ≤ a.space ∧ p = a.allocated ∧ a'.allocated = a.allocated + n ∧ a'.size = a.size := by
  unfold allocate at h
  split at h
  · cases h
  · simp only [Option.some.injEq, Prod.mk.injEq] at h
    obtain ⟨rfl, rfl⟩ := h
    exact ⟨by omega, rfl, rfl, rfl⟩

end UnitArea

/-- `parsing::ParseResult`; the generated code never returns `NEXT`. -/
inductive ParseResult
  | done | next | outOfData | areaFull
  deriving DecidableEq, Repr

inductive ByteOrder
  | big | little
  deriving DecidableEq, Repr

/-- `parsing::ParserState` with the labels of the generated code as instructions. Each entry of the
stack is a `BlockState`, that is the address of a unit once it has been set, and takes eight
bytes. -/
structure ParserState (L : Type) where
  stack : List (Option Nat) := []
  stackSize : Nat
  instruction : Option L := none
  streamPos : Int := 0

namespace ParserState

variable {L : Type}

def blockSize : Nat := 8

def space (st : ParserState L) : Nat := st.stackSize - blockSize * st.stack.length

/-- `push<BlockState>()`, undefined when its assertion fails. The new entry is not set. -/
def push (st : ParserState L) : Option (ParserState L) :=
  if st.space > blockSize then some { st with stack := none :: st.stack } else none

/-- `peek<BlockState>()->unit`. -/
def peek (st : ParserState L) : Option Nat := st.stack.head?.join

/-- Set `peek<BlockState>()->unit`. -/
def setUnit (st : ParserState L) (unit : Nat) : ParserState L :=
  { st with stack := some unit :: st.stack.tail }

/-- A state on which nothing has been parsed yet. -/
def fresh (stackSize : Nat) : ParserState L := { stackSize := stackSize }

end ParserState

/-- `static_cast<ssize_t>(len)`. -/
def ssize (len : Nat) : Int := if len < 2 ^ 63 then len else (len : Int) - 2 ^ 64

/-- The unsigned comparison `end - pos < n` of a pointer difference with a `size_t`. -/
def shortOf (inBufEnd pos : Int) (n : Nat) : Bool := IntTy.sizeT.wrap (inBufEnd - pos) < n

/-- The signed comparison `end - pos < static_cast<ssize_t>(len)`. -/
def shortOfLength (inBufEnd pos : Int) (len : Nat) : Bool := inBufEnd - pos < ssize len

/-- `parsing::util::copyAtomicType`: the loaded bytes as an unsigned number. -/
def copyAtomicType (n : Nat) (m : Memory) (pos inBufEnd : Int) : Except ParseResult (Nat × Int) :=
  if shortOf inBufEnd pos n then .error .outOfData
  else .ok (leValue (slice m pos n), pos + n)

/-- The `bswap` of the big-endian variants; a single byte is left as it is. -/
def fromByteOrder (bo : ByteOrder) (n raw : Nat) : Nat :=
  match bo with
  | .little => raw
  | .big => if n = 1 then raw else bswap n raw

/-- `parsing::util::parseInt<W>_<sign>_<byteorder>`. -/
def parseInt (t : IntTy) (bo : ByteOrder) (m : Memory) (pos inBufEnd : Int) :
    Except ParseResult (Int × Int) :=
  match copyAtomicType (t.width / 8) m pos inBufEnd with
  | .error r => .error r
  | .ok (raw, pos') => .ok (t.wrap (fromByteOrder bo (t.width / 8) raw), pos')

/-- `parsing::util::advance`. Adding a `size_t` to a pointer wraps around the address space. -/
def advance (pos inBufEnd : Int) (len : Nat) : Except ParseResult Int :=
  if shortOfLength inBufEnd pos len then .error .outOfData
  else .ok (pos + ssize len)

/-- `parsing::util::allocateCopyBytes`. -/
def allocateCopyBytes (m : Memory) (pos inBufEnd : Int) (len : Nat) (area : UnitArea) :
    Except ParseResult (List UInt8 × Int × UnitArea) :=
  if shortOfLength inBufEnd pos len then .error .outOfData
  else
    match area.allocate len with
    | none => .error .areaFull
    | some (_, area') => .ok (slice m pos len, pos + ssize len, area')

end Diffingo.Runtime
