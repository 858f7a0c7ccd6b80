import Diffingo.Codec.Incremental

/-!
# One parser state for a stream of messages

`ParseResult::DONE` is documented as "unit complete, parser state reset", but the generated code
leaves the label of its last instruction and the block state behind. The next call continues at
that label on the old unit. Only a unit without any instruction gets a new unit with every call.
-/

namespace Diffingo.Codec

open CInteger ByteMemory Resumable Diffingo.Spec Diffingo.Runtime Diffingo.Generation

/-- The same area with a fresh parser state. -/
def refresh (w : ParserWorld) : ParserWorld := { w with state := .fresh w.state.stackSize }

section Definitions

variable (p : Parser) (memory : Memory) (inBufEnd : Int)

/-- There are `k` complete messages one after the other from `inBufStart` on: with a fresh state for
each, every call returns `DONE`. -/
def Messages : Nat → Int → ParserWorld → Prop
  | 0, _, _ => True
  | k + 1, inBufStart, w =>
    ∃ f, p.parse memory inBufStart inBufEnd (refresh w) = some (.done, f) ∧
      Messages k (inBufStart + f.bytesRead) f

/-- `k` calls, each starting behind the message of the one before, do what calls with a fresh state
do: they return `DONE` with the same unit, the same contents and the same length. -/
def AsFresh : Nat → Int → ParserWorld → Prop
  | 0, _, _ => True
  | k + 1, inBufStart, w =>
    ∃ w' f, p.parse memory inBufStart inBufEnd w = some (.done, w') ∧
      p.parse memory inBufStart inBufEnd (refresh w) = some (.done, f) ∧
      w'.state.peek = f.state.peek ∧ w'.heap = f.heap ∧ w'.area = f.area ∧
      w'.bytesRead = f.bytesRead ∧ AsFresh k (inBufStart + w'.bytesRead) w'

end Definitions

section Area

variable {cx : ParserContext} {e : Int}

theorem stmt_area {s : ParseStmt} {l : ParseLocals} {d : ParserData} {r : ParseLocals × ParserData}
    (h : s.run cx e l d = some r) : d.area.allocated ≤ r.2.area.allocated := by
  cases s with
  | destTemp =>
    cases h
    exact le_refl _
  | destField x =>
    obtain ⟨ty, -, rfl⟩ := Option.map_eq_some_iff.mp h
    exact le_refl _
  | parseInt t bo =>
    simp only [ParseStmt.run, runParseInt] at h
    split at h
    · cases h
      exact le_refl _
    · unfold storeParsed at h
      split at h
      · cases h
        exact le_refl _
      · split at h
        · split at h <;> cases h
          exact le_refl _
        · cases h
      · cases h
  | setLength view ex =>
    obtain ⟨x, -, h⟩ := Option.bind_eq_some_iff.mp h
    obtain ⟨q, -, rfl⟩ := Option.map_eq_some_iff.mp h
    exact le_refl _
  | setStart =>
    obtain ⟨x, -, rfl⟩ := Option.map_eq_some_iff.mp h
    exact le_refl _
  | allocateCopyBytes =>
    obtain ⟨x, -, rfl⟩ := Option.map_eq_some_iff.mp h
    unfold runAllocateCopyBytes
    split
    · exact le_refl _
    · rename_i bs pos area hcopy
      unfold allocateCopyBytes at hcopy
      split at hcopy
      · cases hcopy
      · split at hcopy
        · cases hcopy
        · rename_i q area' halloc
          cases hcopy
          have := (UnitArea.allocate_some halloc).2.2.1
          dsimp only
          omega
  | advance =>
    obtain ⟨x, -, rfl⟩ := Option.map_eq_some_iff.mp h
    unfold runAdvance
    split <;> exact le_refl _
  | checkParseResult => cases h
  | assignTemp x ty =>
    obtain ⟨m, -, rfl⟩ := Option.map_eq_some_iff.mp h
    exact le_refl _
  | assign x ex =>
    obtain ⟨q, -, rfl⟩ := Option.map_eq_some_iff.mp h
    exact le_refl _

theorem body_area {b : List ParseStmt} {l : ParseLocals} {d : ParserData}
    {x : Step ParserData ParseResult} (h : runParseBody cx e b l d = some x) :
    d.area.allocated ≤ x.state.area.allocated := by
  fun_induction runParseBody cx e b l d with
  | case1 =>
    cases h
    exact le_refl _
  | case2 => cases h
  | case3 rest l d hres ih => exact ih h
  | case4 =>
    cases h
    exact le_refl _
  | case5 l d s rest hs ih =>
    obtain ⟨r, hr, h⟩ := Option.bind_eq_some_iff.mp h
    exact (stmt_area hr).trans (ih r h)

/-- Nothing is ever given back to the area. -/
theorem area_invariant (n : Nat) :
    Invariant (parserSemantics cx) (fun _ => True) fun _ d => n ≤ d.area.allocated where
  body _ hn h := hn.trans (body_area h)
  guard hn h := by
    obtain ⟨r, -, h⟩ := Option.map_eq_some_iff.mp h
    cases h
    exact hn
  mono _ hn := hn

end Area

section Calls

variable {p : Parser} {memory : Memory} {inBufStart inBufEnd : Int} {w w' : ParserWorld} {k : Nat}

/-- A completed call from the beginning: it worked on a new unit at the end of the area. -/
theorem parse_done_fresh (hfresh : w.state.instruction = none)
    (h : p.parse memory inBufStart inBufEnd w = some (.done, w')) :
    w'.state.peek = some w.area.allocated ∧ w.area.allocated < w'.area.allocated ∧
      (p.code ≠ [] → w'.state.instruction.isSome = true) := by
  simp only [Parser.parse, hfresh] at h
  obtain ⟨st, -, h⟩ := Option.bind_eq_some_iff.mp h
  rcases halloc : w.area.allocate p.unitSize with _ | ⟨unit, area⟩
  · simp [halloc] at h
  · simp only [halloc] at h
    obtain ⟨-, rfl, harea, -⟩ := UnitArea.allocate_some halloc
    obtain ⟨oc, hrun, hfin⟩ := Option.map_eq_some_iff.mp h
    rw [run_eq_runFrom] at hrun
    cases oc with
    | stopped r l d => exact absurd (congrArg Prod.fst hfin) (parser_stopped_ne_done hrun)
    | done l d =>
      obtain rfl := congrArg Prod.snd hfin
      have hpos := p.unitSize_pos
      have hgrow : w.area.allocated + p.unitSize ≤ d.area.allocated :=
        (area_invariant _).runFrom ⟨fun _ _ => trivial, fun _ _ _ _ => trivial⟩ harea.ge hrun
      refine ⟨rfl, by simp only [Parser.finish]; omega, fun hcode => ?_⟩
      exact runFrom_label _ _ hrun (.inr (by simpa using hcode))

/-- After a message of a unit with instructions the next call works on the old unit again. -/
theorem not_asFresh (hfresh : w.state.instruction = none) (hcode : p.code ≠ []) :
    ¬ AsFresh p memory inBufEnd (k + 2) inBufStart w := by
  rintro ⟨w₁, f₁, h₁, -, -, -, -, -, w₂, f₂, h₂, hf₂, hpeek, -⟩
  obtain ⟨hunit, hgrow, hinstr⟩ := parse_done_fresh hfresh h₁
  obtain ⟨l, hl⟩ := Option.isSome_iff_exists.mp (hinstr hcode)
  have hold : w₂.state.peek = some w.area.allocated := by
    simp only [Parser.parse, hl, hunit, Option.bind_some] at h₂
    obtain ⟨oc, -, hfin⟩ := Option.map_eq_some_iff.mp h₂
    obtain rfl := congrArg Prod.snd hfin
    cases oc <;> exact hunit
  have hnew : f₂.state.peek = some w₁.area.allocated := (parse_done_fresh rfl hf₂).1
  rw [hold, hnew, Option.some.injEq] at hpeek
  omega

/-- Without instructions a call only allocates a unit. -/
theorem parse_no_code (memory : Memory) (inBufStart inBufEnd : Int) (hcode : p.code = []) (hfresh : w.state.instruction = none)
    (hspace : Runtime.ParserState.blockSize < w.state.space) {unit : Nat} {area : UnitArea}
    (halloc : w.area.allocate p.unitSize = some (unit, area)) :
    p.parse memory inBufStart inBufEnd w = some (.done, ⟨w.heap, area,
      ⟨some unit :: w.state.stack, w.state.stackSize, none, inBufStart⟩, 0⟩) := by
  simp [Parser.parse, hfresh, Runtime.ParserState.push, hspace, halloc, hcode, run, Parser.finish,
    Runtime.ParserState.setUnit]

theorem parse_no_space (p : Parser) (memory : Memory) (inBufStart inBufEnd : Int)
    (hfresh : w.state.instruction = none) (hspace : ¬ Runtime.ParserState.blockSize < w.state.space) :
    p.parse memory inBufStart inBufEnd w = none := by
  simp [Parser.parse, hfresh, Runtime.ParserState.push, hspace]

/-- What messages there are does not depend on the parser state. -/
theorem messages_congr {w₁ w₂ : ParserWorld} (h : refresh w₁ = refresh w₂)
    (hw : Messages p memory inBufEnd k inBufStart w₁) :
    Messages p memory inBufEnd k inBufStart w₂ := by
  cases k with
  | zero => trivial
  | succ k =>
    obtain ⟨f, hf, hrest⟩ := hw
    exact ⟨f, h ▸ hf, hrest⟩

/-- Without instructions all that is needed is a block state for each message. -/
theorem asFresh_no_code (hcode : p.code = []) (hfresh : w.state.instruction = none)
    (hmsgs : Messages p memory inBufEnd k inBufStart w) :
    AsFresh p memory inBufEnd k inBufStart w ↔
      k = 0 ∨ Runtime.ParserState.blockSize * (w.state.stack.length + k) < w.state.stackSize := by
  induction k generalizing inBufStart w with
  | zero => simp [AsFresh]
  | succ k ih =>
    obtain ⟨f, hf, hmsgs⟩ := hmsgs
    have hspace₀ : Runtime.ParserState.blockSize < (refresh w).state.space := by
      by_contra hno
      rw [parse_no_space _ _ _ _ rfl hno] at hf
      cases hf
    rcases halloc : w.area.allocate p.unitSize with _ | ⟨unit, area⟩
    · simp only [Parser.parse, refresh, halloc] at hf
      obtain ⟨st, -, hf⟩ := Option.bind_eq_some_iff.mp hf
      cases hf
    have hf' := hf
    rw [parse_no_code _ _ _ hcode rfl hspace₀ halloc] at hf'
    cases hf'
    by_cases hspace : Runtime.ParserState.blockSize < w.state.space
    · have hw := parse_no_code memory inBufStart inBufEnd hcode hfresh hspace halloc
      have hmsgs' : Messages p memory inBufEnd k (inBufStart + 0) ⟨w.heap, area,
          ⟨some unit :: w.state.stack, w.state.stackSize, none, inBufStart⟩, 0⟩ :=
        messages_congr (by rfl) hmsgs
      have hrest := ih rfl hmsgs'
      simp only [Runtime.ParserState.space, Runtime.ParserState.blockSize, List.length_cons]
        at hspace hrest ⊢
      constructor
      · rintro ⟨w', f', h', hf', -, -, -, -, hk⟩
        rw [hw] at h'
        cases h'
        have := hrest.mp hk
        omega
      · intro hroom
        exact ⟨_, _, hw, hf, rfl, rfl, rfl, rfl, hrest.mpr (by omega)⟩
    · have hw := parse_no_space p memory inBufStart inBufEnd hfresh hspace
      simp only [Runtime.ParserState.space, Runtime.ParserState.blockSize] at hspace ⊢
      constructor
      · rintro ⟨w', f', h', -⟩
        rw [hw] at h'
        cases h'
      · intro hroom
        omega

/-- Every item but a property has an instruction. -/
theorem parseItems_nil {o : Options} {u : UnitType} {n : Nat} {items : List Item}
    {code : List ParserInstr} (h : ParserGenerator.parseItems o u n items = some code) :
    code = [] ↔ ∀ i ∈ items, ∃ a, i = .property a := by
  unfold ParserGenerator.parseItems at h
  induction items with
  | nil =>
    cases h
    simp
  | cons i rest ih =>
    cases i with
    | property a => simpa using ih h
    | field f =>
      obtain ⟨b, -, h⟩ := Option.bind_eq_some_iff.mp h
      obtain ⟨is, -, rfl⟩ := Option.map_eq_some_iff.mp h
      simp
    | var v =>
      obtain ⟨b, hb, h⟩ := Option.bind_eq_some_iff.mp h
      obtain ⟨body, -, rfl⟩ := Option.map_eq_some_iff.mp hb
      obtain ⟨is, -, rfl⟩ := Option.map_eq_some_iff.mp h
      simp
    | switch s =>
      simp only [emitItems] at h
      split at h
      · obtain ⟨is, -, rfl⟩ := Option.map_eq_some_iff.mp h
        simp
      · obtain ⟨bss, -, h⟩ := Option.bind_eq_some_iff.mp h
        obtain ⟨is, -, rfl⟩ := Option.map_eq_some_iff.mp h
        simp

/-- Calls with one parser state treat a stream of messages as calls with fresh states do exactly
when there is at most one message, or the unit has no instructions and the stack has room for a
block state per message. -/
theorem stream_iff {o : Options} {u : UnitType} (hp : ParserGenerator.run o u = some p)
    {stackSize : Nat} (hstate : w.state = .fresh stackSize)
    (hmsgs : Messages p memory inBufEnd k inBufStart w) :
    AsFresh p memory inBufEnd k inBufStart w ↔
      k ≤ 1 ∨ ((∀ i ∈ u.items, ∃ a, i = .property a) ∧
        Runtime.ParserState.blockSize * k < stackSize) := by
  have hcode : p.code = [] ↔ ∀ i ∈ u.items, ∃ a, i = .property a := by
    obtain ⟨code, hcode, rfl⟩ := Option.map_eq_some_iff.mp hp
    exact parseItems_nil hcode
  have hfresh : w.state.instruction = none := by rw [hstate]; rfl
  have hrefresh : refresh w = w := by
    obtain ⟨heap, area, state, read⟩ := w
    cases hstate
    rfl
  rcases k with _ | _ | k
  · simp [AsFresh]
  · obtain ⟨f, hf, -⟩ := hmsgs
    have hw : p.parse memory inBufStart inBufEnd w = some (.done, f) := hrefresh ▸ hf
    simp only [Nat.zero_add, Nat.le_refl, true_or, iff_true]
    exact ⟨f, f, hw, hf, rfl, rfl, rfl, rfl, trivial⟩
  · by_cases hnil : p.code = []
    · have hno := asFresh_no_code hnil hfresh hmsgs
      rw [hno, ← hcode]
      simp [hnil, hstate, Runtime.ParserState.fresh]
    · refine ⟨fun h => absurd h (not_asFresh hfresh hnil), ?_⟩
      rintro (hk | ⟨hprops, -⟩)
      · omega
      · exact absurd (hcode.mpr hprops) hnil

/-- Two requests in a row are two messages. -/
theorem getRequests_messages :
    ∃ p, ParserGenerator.run {} Memcached.command = some p ∧ p.code ≠ [] ∧
      Messages p (holding (Memcached.getRequest ++ Memcached.getRequest)) 58 2 0
        (.fresh 4096 64 (by decide)) := by
  obtain ⟨p, hp⟩ : ∃ p, ParserGenerator.run {} Memcached.command = some p :=
    Option.isSome_iff_exists.mp (by decide)
  have hcode : ((ParserGenerator.run {} Memcached.command).map fun p => p.code.length) =
      some 14 := by decide
  have hrun : ((ParserGenerator.run {} Memcached.command).bind fun p =>
      (p.parse (holding (Memcached.getRequest ++ Memcached.getRequest)) 0 58
        (refresh (.fresh 4096 64 (by decide)))).bind fun r =>
          (p.parse (holding (Memcached.getRequest ++ Memcached.getRequest)) (0 + r.2.bytesRead) 58
            (refresh r.2)).map fun q => (r.1, q.1)) = some (.done, .done) := by decide +kernel
  rw [hp, Option.bind_some] at hrun
  obtain ⟨⟨r₁, f₁⟩, h₁, hrun⟩ := Option.bind_eq_some_iff.mp hrun
  obtain ⟨⟨r₂, f₂⟩, h₂, hres⟩ := Option.map_eq_some_iff.mp hrun
  obtain ⟨rfl, rfl⟩ := Prod.mk.inj hres
  refine ⟨p, hp, fun hnil => ?_, f₁, h₁, f₂, h₂, trivial⟩
  rw [hp, Option.map_some, hnil] at hcode
  cases hcode

theorem stream_getRequest :
    ∃ p, ParserGenerator.run {} Memcached.command = some p ∧
      AsFresh p (holding (Memcached.getRequest ++ Memcached.getRequest)) 58 1 0
        (.fresh 4096 64 (by decide)) := by
  obtain ⟨p, hp, -, f, hf, -⟩ := getRequests_messages
  have hmsgs : Messages p (holding (Memcached.getRequest ++ Memcached.getRequest)) 58 1 0
      (.fresh 4096 64 (by decide)) := ⟨f, hf, trivial⟩
  exact ⟨p, hp, (stream_iff hp rfl hmsgs).mpr (.inl (le_refl 1))⟩

/-- The second of two requests is not parsed as with a fresh state. -/
theorem getRequests_not_asFresh :
    ∃ p, ParserGenerator.run {} Memcached.command = some p ∧
      Messages p (holding (Memcached.getRequest ++ Memcached.getRequest)) 58 2 0
        (.fresh 4096 64 (by decide)) ∧
      ¬ AsFresh p (holding (Memcached.getRequest ++ Memcached.getRequest)) 58 2 0
        (.fresh 4096 64 (by decide)) := by
  obtain ⟨p, hp, hcode, hmsgs⟩ := getRequests_messages
  exact ⟨p, hp, hmsgs, not_asFresh rfl hcode⟩

end Calls

end Diffingo.Codec
