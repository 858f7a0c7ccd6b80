import Diffingo.Generation.ParserGenerator

/-!
# Parsing again after a failed allocation

A call of a generated parser that cannot allocate the unit returns `AREA_FULL` after it has pushed
a block state. The entry stays on the stack: the next call pushes another one. Such calls leave
everything else as it was, so that what a later call does is the same as long as the stack has
room for the entries left behind.
-/

namespace Diffingo.Generation

open ByteMemory Diffingo.Spec Diffingo.Runtime

/-- The arguments of one call of `parse`, the parser state apart. -/
structure Attempt where
  memory : Memory
  inBufStart : Int
  inBufEnd : Int
  area : UnitArea

namespace Parser

variable (p : Parser)

/-- One call with its own input and area. -/
def attempt (a : Attempt) (w : ParserWorld) : Option (ParseResult × ParserWorld) :=
  p.parse a.memory a.inBufStart a.inBufEnd { w with area := a.area }

/-- Consecutive calls on one parser state. -/
def attempts : List Attempt → ParserWorld → Option (List ParseResult × ParserWorld)
  | [], w => some ([], w)
  | a :: as, w =>
    (p.attempt a w).bind fun r => (attempts as r.2).map fun rest => (r.1 :: rest.1, rest.2)

/-- The unit itself does not fit the area. -/
def TooSmall (a : Attempt) : Prop := a.area.space < p.unitSize

end Parser

/-- The state with `k` entries on the stack that have not been set. -/
def ParserWorld.abandoned (w : ParserWorld) (k : Nat) : ParserWorld :=
  { w with state := { w.state with stack := List.replicate k none ++ w.state.stack } }

/-- The state with `k` entries that have not been set below the one on top. -/
def ParserWorld.leftBelow (w : ParserWorld) (k : Nat) : ParserWorld :=
  { w with
    state := { w.state with
      stack := w.state.stack.take 1 ++ List.replicate k none ++ w.state.stack.drop 1 } }

namespace Parser

variable {p : Parser} {w : ParserWorld}

theorem attempt_tooSmall (hstart : w.state.instruction = none) {a : Attempt}
    (ha : p.TooSmall a) {r : ParseResult × ParserWorld} (h : p.attempt a w = some r) :
    r = (.areaFull, { w.abandoned 1 with area := a.area }) := by
  simp only [attempt, parse, hstart] at h
  obtain ⟨st, hpush, h⟩ := Option.bind_eq_some_iff.mp h
  rw [UnitArea.allocate_eq_none.mpr ha] at h
  simp only [ParserState.push, Option.ite_none_right_eq_some, Option.some.injEq] at hpush
  obtain ⟨-, rfl⟩ := hpush
  exact (Option.some.inj h).symm

/-- Each failed call leaves one more entry on the stack, and nothing else. -/
theorem attempts_tooSmall (hstart : w.state.instruction = none) {as : List Attempt}
    (has : ∀ a ∈ as, p.TooSmall a) {r : List ParseResult × ParserWorld}
    (h : p.attempts as w = some r) :
    r.1 = List.replicate as.length .areaFull ∧
      ∃ area, r.2 = { w.abandoned as.length with area := area } := by
  induction as generalizing w r with
  | nil =>
    cases h
    exact ⟨rfl, w.area, rfl⟩
  | cons a as ih =>
    obtain ⟨r₁, hr₁, h⟩ := Option.bind_eq_some_iff.mp h
    obtain ⟨r₂, hr₂, rfl⟩ := Option.map_eq_some_iff.mp h
    obtain rfl := attempt_tooSmall hstart (has a List.mem_cons_self) hr₁
    obtain ⟨hres, area, hworld⟩ := ih (by exact hstart)
      (fun b hb => has b (List.mem_cons_of_mem _ hb)) hr₂
    refine ⟨by simp [hres, List.replicate_succ], area, ?_⟩
    rw [hworld]
    simp [ParserWorld.abandoned, List.replicate_succ']

/-- A call with enough room does the same on a stack with entries left behind, if they leave room
for one more. -/
theorem attempt_abandoned (hstart : w.state.instruction = none) {a : Attempt}
    {r : ParseResult} {w₁ : ParserWorld} (ha : ¬ p.TooSmall a)
    (h : p.attempt a w = some (r, w₁)) (k : Nat) (area : UnitArea) :
    p.attempt a { w.abandoned k with area := area } =
      if ParserState.blockSize * (w.state.stack.length + k + 1) < w.state.stackSize then
        some (r, w₁.leftBelow k)
      else none := by
  simp only [attempt, parse, hstart] at h
  obtain ⟨st, hpush, h⟩ := Option.bind_eq_some_iff.mp h
  simp only [ParserState.push, Option.ite_none_right_eq_some, Option.some.injEq] at hpush
  obtain ⟨-, rfl⟩ := hpush
  have hspace : (w.abandoned k).state.space > ParserState.blockSize ↔
      ParserState.blockSize * (w.state.stack.length + k + 1) < w.state.stackSize := by
    simp only [ParserState.space, ParserWorld.abandoned, List.length_append,
      List.length_replicate, ParserState.blockSize]
    omega
  cases halloc : a.area.allocate p.unitSize with
  | none => exact absurd (UnitArea.allocate_eq_none.mp halloc) ha
  | some block =>
    obtain ⟨unit, rest⟩ := block
    simp only [halloc] at h
    obtain ⟨o, ho, hfinish⟩ := Option.map_eq_some_iff.mp h
    have hinstr : (w.abandoned k).state.instruction = none := hstart
    simp only [attempt, parse, hinstr, ParserState.push, hspace]
    split_ifs with hroom
    · simp only [Option.bind_some, halloc]
      have hheap : (w.abandoned k).heap = w.heap := rfl
      rw [hheap, ho, Option.map_some, Option.some.injEq]
      cases o with
      | done l d =>
        obtain ⟨rfl, rfl⟩ := Prod.mk.inj hfinish
        simp [finish, ParserWorld.leftBelow, ParserWorld.abandoned, ParserState.setUnit]
      | stopped s l d =>
        obtain ⟨rfl, rfl⟩ := Prod.mk.inj hfinish
        simp [finish, ParserWorld.leftBelow, ParserWorld.abandoned, ParserState.setUnit]
    · rfl

/-- Calls that fail because the unit does not fit the area leave the parser state as it was only
if there are none of them. What a later call with an adequate area returns, stores and reads is
nevertheless that of a first call, exactly as long as the stack has room for the entries left
behind. -/
theorem retry_after_areaFull_iff (hstart : w.state.instruction = none) {as : List Attempt}
    (has : ∀ a ∈ as, p.TooSmall a) {rs : List ParseResult} {w' : ParserWorld}
    (h : p.attempts as w = some (rs, w')) :
    rs = List.replicate as.length .areaFull ∧
      w'.state = { w.state with stack := List.replicate as.length none ++ w.state.stack } ∧
      (w'.state = w.state ↔ as = []) ∧
      ∀ a r w₁, ¬ p.TooSmall a → p.attempt a w = some (r, w₁) →
        (p.attempt a w' = some (r, w₁.leftBelow as.length) ↔
          ParserState.blockSize * (w.state.stack.length + as.length + 1) < w.state.stackSize) ∧
        (p.attempt a w' = none ↔
          w.state.stackSize ≤
            ParserState.blockSize * (w.state.stack.length + as.length + 1)) := by
  obtain ⟨hres, area, rfl⟩ := attempts_tooSmall hstart has h
  refine ⟨hres, rfl, ⟨fun heq => ?_, ?_⟩, fun a r w₁ ha hfirst => ?_⟩
  · have hlen := congrArg (fun st => st.stack.length) heq
    simp only [ParserWorld.abandoned, List.length_append, List.length_replicate] at hlen
    exact List.length_eq_zero_iff.mp (by omega)
  · rintro rfl
    rfl
  · rw [attempt_abandoned hstart ha hfirst]
    split_ifs with hroom
    · exact ⟨iff_of_true rfl hroom, iff_of_false (by simp) (by omega)⟩
    · exact ⟨iff_of_false (by simp) hroom, iff_of_true rfl (by omega)⟩

end Parser

/-- A unit of one byte. -/
def oneByte : UnitType where
  id := "OneByte"
  items := [.field { id := "a", type := .integer 8 false }]

/-- An attempt to parse one byte into an area of the given size. -/
def oneByteAttempt (size : Nat) (h : size < 2 ^ 63) : Attempt where
  memory := holding [7]
  inBufStart := 0
  inBufEnd := 1
  area := ⟨size, 0, Nat.zero_le _, h⟩

theorem retry_after_areaFull_oneByte :
    ∃ p r w', ParserGenerator.run {} oneByte = some p ∧
      p.attempts [oneByteAttempt 0 (by decide)] (.fresh 0 64 (by decide)) = some (r, w') ∧
      w'.state = { ParserState.fresh 64 with stack := [none] } ∧
      ∃ w₁, p.attempt (oneByteAttempt 64 (by decide)) (.fresh 0 64 (by decide)) =
          some (.done, w₁) ∧
        p.attempt (oneByteAttempt 64 (by decide)) w' = some (.done, w₁.leftBelow 1) := by
  obtain ⟨p, hp⟩ : ∃ p, ParserGenerator.run {} oneByte = some p :=
    Option.isSome_iff_exists.mp (by decide)
  have hsize : (ParserGenerator.run {} oneByte).map Parser.unitSize = some 1 := by decide
  have hfail : ((ParserGenerator.run {} oneByte).bind fun p =>
      (p.attempts [oneByteAttempt 0 (by decide)] (.fresh 0 64 (by decide))).map fun r => r.1) =
        some [.areaFull] := by decide
  have hfirst : ((ParserGenerator.run {} oneByte).bind fun p =>
      (p.attempt (oneByteAttempt 64 (by decide)) (.fresh 0 64 (by decide))).map fun r => r.1) =
        some .done := by decide
  rw [hp, Option.map_some, Option.some.injEq] at hsize
  rw [hp, Option.bind_some] at hfail hfirst
  obtain ⟨⟨rs, w'⟩, hrun, -⟩ := Option.map_eq_some_iff.mp hfail
  obtain ⟨⟨r, w₁⟩, hcall, rfl⟩ := Option.map_eq_some_iff.mp hfirst
  have hsmall : ∀ a ∈ [oneByteAttempt 0 (by decide)], p.TooSmall a := by
    simp [Parser.TooSmall, hsize, oneByteAttempt, UnitArea.space]
  have hlarge : ¬ p.TooSmall (oneByteAttempt 64 (by decide)) := by
    simp [Parser.TooSmall, hsize, oneByteAttempt, UnitArea.space]
  obtain ⟨-, hstate, -, hretry⟩ := Parser.retry_after_areaFull_iff rfl hsmall hrun
  exact ⟨p, rs, w', hp, hrun, hstate, w₁, hcall, (hretry _ _ _ hlarge hcall).1.mpr (by decide)⟩

/-- On a stack of 24 bytes the first call with an adequate area succeeds. After two failed
allocations two entries are on the stack, and the assertion of the next call fails. -/
theorem areaFull_accumulates :
    (((ParserGenerator.run {} oneByte).bind fun p =>
      p.attempt (oneByteAttempt 64 (by decide)) (.fresh 0 24 (by decide))).map fun r => r.1) =
        some .done ∧
    (((ParserGenerator.run {} oneByte).bind fun p =>
      p.attempts [oneByteAttempt 0 (by decide), oneByteAttempt 0 (by decide)]
        (.fresh 0 24 (by decide))).map fun r => (r.1, r.2.state.stack)) =
        some ([.areaFull, .areaFull], [none, none]) ∧
    (((ParserGenerator.run {} oneByte).bind fun p =>
      p.attempts [oneByteAttempt 0 (by decide), oneByteAttempt 0 (by decide),
        oneByteAttempt 64 (by decide)] (.fresh 0 24 (by decide))).map fun r => r.1) = none := by
  refine ⟨by decide, by decide, by decide⟩

end Diffingo.Generation
