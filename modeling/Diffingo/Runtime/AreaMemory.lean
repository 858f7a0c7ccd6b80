import Mathlib.Data.List.Pairwise
import Diffingo.Runtime.Parsing

/-!
# The unit area in memory

`UnitArea` with the arithmetic it is compiled to: pointers and sizes are 64-bit words, sums and
differences wrap around, and `allocateCopyBytes` compares a signed pointer difference with its
length. A run is any sequence of calls on one area; the ranges handed out since the last reset are
kept next to the state.
-/

namespace Diffingo.Runtime.AreaMemory

/-- The members of `UnitArea` and the address of the object, which is the start of its buffer. -/
structure Area where
  this : UInt64
  nextAllocPos : UInt64
  size : UInt64
  deriving DecidableEq, Repr

namespace Area

/-- `sizeof(UnitArea)`. -/
def sizeOf : UInt64 := 16

/-- The constructor. -/
def new (this bufferSize : UInt64) : Area := ⟨this, this + sizeOf, bufferSize - sizeOf⟩

def contents (a : Area) : UInt64 := a.this + sizeOf

def allocated (a : Area) : UInt64 := a.nextAllocPos - a.contents

def space (a : Area) : UInt64 := a.size - a.allocated

def nextPos (a : Area) : UInt64 := a.nextAllocPos

def reset (a : Area) : Area := { a with nextAllocPos := a.contents }

end Area

/-- What the calls work on: the area, the memory, and the pointers `*pos_ptr` into the input and
`*pos` or `*parse_dest` that a call stores its result to. -/
structure World where
  area : Area
  mem : UInt64 → UInt8
  streamPos : UInt64
  dest : UInt64

/-- `memcpy`. -/
def memcpy (mem : UInt64 → UInt8) (dest src len : UInt64) : UInt64 → UInt8 := fun x =>
  if x - dest < len then mem (src + (x - dest)) else mem x

namespace World

/-- `UnitArea::allocate`. -/
def allocate (w : World) (size : UInt64) : Bool × World :=
  if w.area.space < size then (false, w)
  else
    (true, { w with
      dest := w.area.nextAllocPos
      area := { w.area with nextAllocPos := w.area.nextAllocPos + size } })

/-- `parsing::util::allocateCopyBytes`. -/
def allocateCopyBytes (w : World) (inBufEnd len : UInt64) : ParseResult × World :=
  if (inBufEnd - w.streamPos).toInt64 < len.toInt64 then (.outOfData, w)
  else
    match w.allocate len with
    | (false, w) => (.areaFull, w)
    | (true, w) =>
      (.done, { w with
        mem := memcpy w.mem w.dest w.streamPos len
        streamPos := w.streamPos + len })

def reset (w : World) : World := { w with area := w.area.reset }

end World

/-- A range of memory: its first address and its length. -/
structure Range where
  start : UInt64
  length : UInt64
  deriving DecidableEq, Repr

namespace Range

/-- The two ranges have no address in common. -/
def Disjoint (r s : Range) : Prop :=
  r.start.toNat + r.length.toNat ≤ s.start.toNat ∨ s.start.toNat + s.length.toNat ≤ r.start.toNat

/-- The address `x` lies in the range. -/
def Holds (r : Range) (x : UInt64) : Prop :=
  r.start.toNat ≤ x.toNat ∧ x.toNat < r.start.toNat + r.length.toNat

end Range

/-- The calls of a run. Between them the caller may move the stream position. -/
inductive Op where
  | allocate (size : UInt64)
  | allocateCopyBytes (inBufEnd len : UInt64)
  | reset
  | seek (pos : UInt64)

/-- A world and the ranges handed out since the last reset. -/
structure Trace extends World where
  handed : List Range := []

namespace Trace

/-- The effect of one call. -/
def step (w : Trace) : Op → Trace
  | .allocate size =>
    match w.toWorld.allocate size with
    | (false, w') => ⟨w', w.handed⟩
    | (true, w') => ⟨w', ⟨w'.dest, size⟩ :: w.handed⟩
  | .allocateCopyBytes inBufEnd len =>
    match w.toWorld.allocateCopyBytes inBufEnd len with
    | (.done, w') => ⟨w', ⟨w'.dest, len⟩ :: w.handed⟩
    | (_, w') => ⟨w', w.handed⟩
  | .reset => ⟨w.toWorld.reset, []⟩
  | .seek pos => { w with streamPos := pos }

/-- The effect of a sequence of calls. -/
def run (w : Trace) (ops : List Op) : Trace := ops.foldl step w

end Trace

/-- A buffer that holds at least the area itself and lies inside the address space. -/
structure Buffer where
  this : UInt64
  size : UInt64
  large : 16 ≤ size.toNat
  inside : this.toNat + size.toNat < 2 ^ 64

/-- An area newly built on the buffer. -/
def Buffer.start (b : Buffer) (mem : UInt64 → UInt8) (streamPos dest : UInt64) : Trace where
  area := Area.new b.this b.size
  mem := mem
  streamPos := streamPos
  dest := dest

/-- The area of the buffer `b`, with the position of its next block inside. -/
structure Area.Valid (b : Buffer) (a : Area) : Prop where
  this_eq : a.this = b.this
  size_eq : a.size.toNat + 16 = b.size.toNat
  le_next : b.this.toNat + 16 ≤ a.nextAllocPos.toNat
  next_le : a.nextAllocPos.toNat ≤ b.this.toNat + b.size.toNat

namespace Area.Valid

variable {b : Buffer} {a : Area}

theorem contents_toNat (h : Valid b a) : a.contents.toNat = b.this.toNat + 16 := by
  have hlarge := b.large
  have hinside := b.inside
  simp only [contents, sizeOf, h.this_eq, UInt64.toNat_add, UInt64.reduceToNat]
  omega

theorem allocated_toNat (h : Valid b a) :
    a.allocated.toNat = a.nextAllocPos.toNat - (b.this.toNat + 16) := by
  have hle := h.le_next
  have hnext := a.nextAllocPos.toNat_lt
  have hcontents := h.contents_toNat
  simp only [allocated, UInt64.toNat_sub, hcontents]
  omega

theorem space_toNat (h : Valid b a) :
    a.space.toNat = b.this.toNat + b.size.toNat - a.nextAllocPos.toNat := by
  have hsize := h.size_eq
  have hle := h.le_next
  have hnext := h.next_le
  have hinside := b.inside
  simp only [space, UInt64.toNat_sub, h.allocated_toNat]
  omega

end Area.Valid

/-- The two ways an allocation ends. -/
theorem World.allocate_cases {b : Buffer} {w : World} (h : w.area.Valid b) (n : UInt64) :
    (w.area.space.toNat < n.toNat ∧ w.allocate n = (false, w)) ∨
      (n.toNat ≤ w.area.space.toNat ∧ ∃ w', w.allocate n = (true, w') ∧ w'.area.Valid b ∧
        w'.dest = w.area.nextAllocPos ∧
        w'.area.nextAllocPos.toNat = w.area.nextAllocPos.toNat + n.toNat ∧
        w'.mem = w.mem ∧ w'.streamPos = w.streamPos) := by
  have hspace := h.space_toNat
  have hle := h.le_next
  have hnext := h.next_le
  have hinside := b.inside
  by_cases hn : w.area.space < n
  · exact .inl ⟨UInt64.lt_iff_toNat_lt.mp hn, by simp [allocate, hn]⟩
  · have hroom : n.toNat ≤ w.area.space.toNat := by
      rw [UInt64.lt_iff_toNat_lt] at hn
      omega
    have hsum : (w.area.nextAllocPos + n).toNat = w.area.nextAllocPos.toNat + n.toNat := by
      rw [UInt64.toNat_add]
      omega
    refine .inr ⟨hroom, _, if_neg hn, ⟨h.this_eq, h.size_eq, ?_, ?_⟩, rfl, hsum, rfl, rfl⟩
    · simp only [hsum]
      omega
    · simp only [hsum]
      omega

/-- The two ways `allocateCopyBytes` ends. -/
theorem World.allocateCopyBytes_cases {b : Buffer} {w : World} (h : w.area.Valid b)
    (inBufEnd len : UInt64) :
    (∃ r, r ≠ .done ∧ w.allocateCopyBytes inBufEnd len = (r, w)) ∨
      (len.toNat ≤ w.area.space.toNat ∧ ∃ w', w.allocateCopyBytes inBufEnd len = (.done, w') ∧
        w'.area.Valid b ∧ w'.dest = w.area.nextAllocPos ∧
        w'.area.nextAllocPos.toNat = w.area.nextAllocPos.toNat + len.toNat ∧
        w'.mem = memcpy w.mem w.area.nextAllocPos w.streamPos len ∧
        w'.streamPos = w.streamPos + len) := by
  by_cases hshort : (inBufEnd - w.streamPos).toInt64 < len.toInt64
  · exact .inl ⟨.outOfData, by simp, by rw [allocateCopyBytes, if_pos hshort]⟩
  obtain ⟨-, hfail⟩ | ⟨hroom, w', hok, hvalid, hdest, hnext, hmem, hpos⟩ := w.allocate_cases h len
  · exact .inl ⟨.areaFull, by simp, by rw [allocateCopyBytes, if_neg hshort, hfail]⟩
  · refine .inr ⟨hroom, { w' with
      mem := memcpy w'.mem w'.dest w'.streamPos len
      streamPos := w'.streamPos + len }, ?_, hvalid, hdest, hnext, ?_, ?_⟩
    · rw [allocateCopyBytes, if_neg hshort, hok]
    · simp only [hmem, hdest, hpos]
    · simp only [hpos]

/-- A copy to a free block leaves the bytes before it as they are. -/
theorem memcpy_of_lt (mem : UInt64 → UInt8) {dest src len x : UInt64}
    (hx : x.toNat < dest.toNat) (hlen : dest.toNat + len.toNat < 2 ^ 64) :
    memcpy mem dest src len x = mem x := by
  have hdest := dest.toNat_lt
  have hge : ¬ x - dest < len := by
    rw [UInt64.lt_iff_toNat_lt, UInt64.toNat_sub]
    omega
  rw [memcpy, if_neg hge]

/-- The invariant of a run: the area is valid, and the ranges handed out lie disjoint in its used
part. -/
structure Trace.Sound (b : Buffer) (w : Trace) : Prop where
  area : w.area.Valid b
  used : ∀ r ∈ w.handed, b.this.toNat + 16 ≤ r.start.toNat ∧
    r.start.toNat + r.length.toNat ≤ w.area.nextAllocPos.toNat
  disjoint : w.handed.Pairwise Range.Disjoint

namespace Trace

variable {b : Buffer} {w : Trace}

theorem start_sound (b : Buffer) (mem : UInt64 → UInt8) (pos dest : UInt64) :
    (b.start mem pos dest).Sound b := by
  have hlarge := b.large
  have hinside := b.inside
  refine ⟨⟨rfl, ?_, ?_, ?_⟩, by simp [Buffer.start], by simp [Buffer.start]⟩
  · simp only [Buffer.start, Area.new, Area.sizeOf, UInt64.toNat_sub, UInt64.reduceToNat]
    omega
  · simp only [Buffer.start, Area.new, Area.sizeOf, UInt64.toNat_add, UInt64.reduceToNat]
    omega
  · simp only [Buffer.start, Area.new, Area.sizeOf, UInt64.toNat_add, UInt64.reduceToNat]
    omega

/-- A block at the old position keeps the invariant and is disjoint from every range handed out
before. -/
theorem Sound.hand (h : w.Sound b) {w' : World} {n : UInt64} (hvalid : w'.area.Valid b)
    (hdest : w'.dest = w.area.nextAllocPos)
    (hnext : w'.area.nextAllocPos.toNat = w.area.nextAllocPos.toNat + n.toNat) :
    Sound b ⟨w', ⟨w'.dest, n⟩ :: w.handed⟩ := by
  have hle := h.area.le_next
  refine ⟨hvalid, ?_, List.pairwise_cons.mpr ⟨?_, h.disjoint⟩⟩
  · intro r hr
    obtain rfl | hr := List.mem_cons.mp hr
    · simp only [hdest]
      omega
    · have := h.used r hr
      simp only
      omega
  · intro r hr
    have := h.used r hr
    exact .inr (by simp only [hdest]; omega)

theorem Sound.step (h : w.Sound b) (op : Op) : (w.step op).Sound b := by
  cases op with
  | allocate n =>
    obtain ⟨-, hfail⟩ | ⟨-, w', hok, hvalid, hdest, hnext, -⟩ := w.allocate_cases h.area n
    · simpa only [Trace.step, hfail] using h
    · simp only [Trace.step, hok]
      exact h.hand hvalid hdest hnext
  | allocateCopyBytes inBufEnd len =>
    obtain ⟨r, hr, hfail⟩ | ⟨-, w', hok, hvalid, hdest, hnext, -⟩ :=
      w.allocateCopyBytes_cases h.area inBufEnd len
    · cases r with
      | done => exact absurd rfl hr
      | _ => simpa only [Trace.step, hfail] using h
    · simp only [Trace.step, hok]
      exact h.hand hvalid hdest hnext
  | reset =>
    have hcontents := h.area.contents_toNat
    have hlarge := b.large
    refine ⟨⟨h.area.this_eq, h.area.size_eq, hcontents.ge, ?_⟩, by simp [Trace.step],
      by simp [Trace.step]⟩
    simp only [Trace.step, World.reset, Area.reset, hcontents]
    omega
  | seek pos => exact ⟨h.area, h.used, h.disjoint⟩

theorem Sound.run (h : w.Sound b) (ops : List Op) : (w.run ops).Sound b := by
  induction ops generalizing w with
  | nil => exact h
  | cons op ops ih => exact ih (h.step op)

/-- Until the next reset no call changes a byte of a range handed out. -/
theorem Sound.step_mem (h : w.Sound b) (op : Op) {r : Range} (hr : r ∈ w.handed) {x : UInt64}
    (hx : r.Holds x) : (w.step op).mem x = w.mem x := by
  cases op with
  | allocate n =>
    obtain ⟨-, hfail⟩ | ⟨-, w', hok, -, -, -, hmem, -⟩ := w.allocate_cases h.area n
    · simp only [Trace.step, hfail]
    · simp only [Trace.step, hok, hmem]
  | allocateCopyBytes inBufEnd len =>
    obtain ⟨r, hr, hfail⟩ | ⟨hroom, w', hok, -, -, -, hmem, -⟩ :=
      w.allocateCopyBytes_cases h.area inBufEnd len
    · cases r with
      | done => exact absurd rfl hr
      | _ => simp only [Trace.step, hfail]
    · have hinside := b.inside
      have hnext := h.area.next_le
      have hspace := h.area.space_toNat
      have hused := h.used r hr
      simp only [Trace.step, hok, hmem]
      exact memcpy_of_lt w.mem (hx.2.trans_le hused.2) (by omega)
  | reset => rfl
  | seek pos => rfl

end Trace

/-- The range lies in the contents of the area. -/
def Range.Inside (a : Area) (r : Range) : Prop :=
  a.contents.toNat ≤ r.start.toNat ∧
    r.start.toNat + r.length.toNat ≤ a.contents.toNat + a.size.toNat

/-- On every area, after any sequence of calls, the next position lies in the contents, what is
allocated and the space left add up to the size, and the ranges handed out since the last reset
are disjoint. An allocation fails exactly if it asks for more than the space left; what it hands
out otherwise is inside the area and disjoint from the ranges before. A call that fails changes
nothing. -/
theorem run_hands_out_disjoint (b : Buffer) (mem : UInt64 → UInt8) (pos dest : UInt64)
    (ops : List Op) :
    let w := (b.start mem pos dest).run ops
    (w.area.contents.toNat = b.this.toNat + 16 ∧ w.area.size.toNat = b.size.toNat - 16) ∧
    (w.area.contents ≤ w.area.nextPos ∧
      w.area.nextPos.toNat ≤ w.area.contents.toNat + w.area.size.toNat) ∧
    w.area.allocated.toNat + w.area.space.toNat = w.area.size.toNat ∧
    w.handed.Pairwise Range.Disjoint ∧
    (∀ n, ((w.allocate n).1 = false ↔ w.area.space < n) ∧
      ((w.allocate n).1 = false → (w.allocate n).2 = w.toWorld) ∧
      ((w.allocate n).1 = true → Range.Inside w.area ⟨(w.allocate n).2.dest, n⟩ ∧
        ∀ r ∈ w.handed, Range.Disjoint ⟨(w.allocate n).2.dest, n⟩ r)) ∧
    ∀ inBufEnd n,
      ((w.allocateCopyBytes inBufEnd n).1 ≠ .done →
        (w.allocateCopyBytes inBufEnd n).2 = w.toWorld) ∧
      ((w.allocateCopyBytes inBufEnd n).1 = .done →
        Range.Inside w.area ⟨(w.allocateCopyBytes inBufEnd n).2.dest, n⟩ ∧
        ∀ r ∈ w.handed, Range.Disjoint ⟨(w.allocateCopyBytes inBufEnd n).2.dest, n⟩ r) := by
  intro w
  have h : w.Sound b := (Trace.start_sound b mem pos dest).run ops
  have hsize := h.area.size_eq
  have hle := h.area.le_next
  have hnext := h.area.next_le
  have hcontents := h.area.contents_toNat
  have hspace := h.area.space_toNat
  have hfresh {n : UInt64} (hn : n.toNat ≤ w.area.space.toNat) :
      Range.Inside w.area ⟨w.area.nextAllocPos, n⟩ ∧
        ∀ r ∈ w.handed, Range.Disjoint ⟨w.area.nextAllocPos, n⟩ r := by
    refine ⟨⟨?_, ?_⟩, fun r hr => .inr (h.used r hr).2⟩
    · simp only [hcontents]
      omega
    · simp only [hcontents]
      omega
  refine ⟨⟨hcontents, by omega⟩, ⟨?_, ?_⟩, ?_, h.disjoint, ?_, ?_⟩
  · rw [UInt64.le_iff_toNat_le, hcontents]
    exact hle
  · rw [hcontents]
    exact hnext.trans (by omega)
  · rw [h.area.allocated_toNat, hspace]
    omega
  · intro n
    obtain ⟨hn, hfail⟩ | ⟨hn, w', hok, -, hdest, -⟩ := w.allocate_cases h.area n
    · simp [hfail, UInt64.lt_iff_toNat_lt, hn]
    · have hnot : ¬ w.area.space < n := by
        rw [UInt64.lt_iff_toNat_lt]
        omega
      simpa [hok, hnot, hdest] using hfresh hn
  · intro inBufEnd n
    obtain ⟨r, hr, hfail⟩ | ⟨hn, w', hok, -, hdest, -⟩ :=
      w.allocateCopyBytes_cases h.area inBufEnd n
    · simp [hfail, hr]
    · simpa [hok, hdest] using hfresh hn

-- A size near the end of the address space does not fit, whatever is allocated.
example :
    (((⟨0x1000, 64, by decide, by decide⟩ : Buffer).start (fun _ => 0) 0 0).run
      [.allocate 40, .allocate 0xfffffffffffffff8]).handed = [⟨0x1010, 40⟩] := by
  decide

/-! ## The area as the parser's model sees it -/

/-- An area that is smaller than half the address space, in terms of its sizes alone. -/
def Area.Valid.abs {b : Buffer} {a : Area} (h : a.Valid b) (hb : b.size.toNat < 2 ^ 63) :
    UnitArea where
  size := a.size.toNat
  allocated := a.allocated.toNat
  allocated_le := by
    have hsize := h.size_eq
    have hnext := h.next_le
    rw [h.allocated_toNat]
    omega
  size_lt := by
    have hsize := h.size_eq
    omega

/-- `allocate` in memory does what `UnitArea.allocate` says. -/
theorem World.allocate_refines {b : Buffer} {w : World} (h : w.area.Valid b)
    (hb : b.size.toNat < 2 ^ 63) (n : UInt64) :
    ((w.allocate n).1 = false ↔ (h.abs hb).allocate n.toNat = none) ∧
      ∀ w', w.allocate n = (true, w') → ∃ h' : w'.area.Valid b,
        (h.abs hb).allocate n.toNat =
          some (w'.dest.toNat - w.area.contents.toNat, h'.abs hb) := by
  have hsize := h.size_eq
  have hle := h.le_next
  have hnext := h.next_le
  have hspace : (h.abs hb).space = w.area.space.toNat := by
    simp only [UnitArea.space, Area.Valid.abs, h.allocated_toNat, h.space_toNat]
    omega
  obtain ⟨hn, hfail⟩ | ⟨hn, w', hok, hvalid, hdest, hadvance, -⟩ := w.allocate_cases h n
  · simp [hfail, UnitArea.allocate_eq_none, hspace, hn]
  · refine ⟨by simp [hok, UnitArea.allocate_eq_none, hspace, hn], ?_⟩
    intro w'' hw
    obtain rfl : w' = w'' := congrArg Prod.snd (hok.symm.trans hw)
    refine ⟨hvalid, ?_⟩
    have hnot : ¬ (h.abs hb).space < n.toNat := by omega
    have hsizes := hvalid.size_eq
    simp only [UnitArea.allocate, dif_neg hnot, Option.some.injEq, Prod.mk.injEq]
    simp only [Area.Valid.abs, h.allocated_toNat, hvalid.allocated_toNat, hdest,
      h.contents_toNat, hadvance, true_and, UnitArea.mk.injEq]
    omega

end Diffingo.Runtime.AreaMemory
