import Diffingo.Runtime.Parsing

/-!
# The stack of the parser state in memory

`ParserState` as a stack of bytes: values of different sizes lie one behind the other, and the
assertions of its methods compare sizes in `size_t`. A method whose assertion fails has no effect
here. Each call leaves behind what it did: the state after it, the memory it accessed or returned
a pointer to, and the bytes it returned.
-/

namespace Diffingo.Runtime.StackMemory

open CInteger ByteMemory

/-- The members of `ParserState` that its stack operations use, with the memory of the stack. -/
structure State where
  stack : Int
  stackSize : UInt64
  top : Int
  mem : Memory
  instruction : UInt64

/-- What a call did. -/
structure Effect where
  state : State
  access : Option (Int × Nat) := none
  value : Option (List UInt8) := none

/-- The size of a `void*`. -/
def pointerSize : Nat := 8

namespace State

/-- The constructor. -/
def new (stack : Int) (stackSize : UInt64) (mem : Memory) : State :=
  ⟨stack, stackSize, stack, mem, 0⟩

def space (s : State) : Int := IntTy.sizeT.wrap (s.stackSize.toNat - (s.top - s.stack))

/-- The assertion `space() > sizeof(T)` of `push`. -/
def PushFits (s : State) (n : Nat) : Prop := s.space > n

/-- The assertion `space() <= stack_size_ - sizeof(T)` of `peek` and the `pop` methods. -/
def PopFits (s : State) (n : Nat) : Prop := s.space ≤ IntTy.sizeT.wrap (s.stackSize.toNat - n)

instance (s : State) (n : Nat) : Decidable (s.PushFits n) := inferInstanceAs (Decidable (_ > _))

instance (s : State) (n : Nat) : Decidable (s.PopFits n) := inferInstanceAs (Decidable (_ ≤ _))

/-- `push(const T&)`, with the bytes of the value. -/
def push (s : State) (t : List UInt8) : Option Effect :=
  if s.PushFits t.length then
    some {
      state := { s with mem := blit s.mem s.top t, top := s.top + t.length }
      access := some (s.top, t.length) }
  else none

/-- `push<T>()`. -/
def reserve (s : State) (n : Nat) : Option Effect :=
  if s.PushFits n then
    some { state := { s with top := s.top + n }, access := some (s.top, n) }
  else none

/-- `peek<T>()` and `peekCopy<T>()`. -/
def peek (s : State) (n : Nat) : Option Effect :=
  if s.PopFits n then
    some { state := s, access := some (s.top - n, n), value := some (slice s.mem (s.top - n) n) }
  else none

/-- `pop<T>()`. -/
def pop (s : State) (n : Nat) : Option Effect :=
  if s.PopFits n then some { state := { s with top := s.top - n } } else none

/-- `popAndGet<T>()`. -/
def popAndGet (s : State) (n : Nat) : Option Effect :=
  if s.PopFits n then
    some {
      state := { s with top := s.top - n }
      access := some (s.top - n, n)
      value := some (slice s.mem (s.top - n) n) }
  else none

def callInstruction (s : State) (call returnTo : UInt64) : Option Effect :=
  (s.push (leBytes pointerSize returnTo.toNat)).map fun e =>
    { e with state := { e.state with instruction := call } }

def returnToInstruction (s : State) : Option Effect :=
  (s.popAndGet pointerSize).map fun e =>
    { e with state := { e.state with
      instruction := UInt64.ofNat (leValue (slice s.mem (s.top - pointerSize) pointerSize)) } }

def reset (s : State) : Effect where
  state := { s with top := s.stack, instruction := 0 }

end State

/-- The methods of `ParserState`. A type is given by its size, a value by its bytes. -/
inductive Op where
  | push (t : List UInt8)
  | reserve (n : UInt64)
  | peek (n : UInt64)
  | pop (n : UInt64)
  | popAndGet (n : UInt64)
  | callInstruction (call returnTo : UInt64)
  | returnToInstruction
  | reset

/-- One call; none if its assertion fails. -/
def exec (s : State) : Op → Option Effect
  | .push t => s.push t
  | .reserve n => s.reserve n.toNat
  | .peek n => s.peek n.toNat
  | .pop n => s.pop n.toNat
  | .popAndGet n => s.popAndGet n.toNat
  | .callInstruction call returnTo => s.callInstruction call returnTo
  | .returnToInstruction => s.returnToInstruction
  | .reset => some s.reset

/-- A sequence of calls, all of whose assertions hold. -/
def run (s : State) : List Op → Option (List Effect)
  | [] => some []
  | op :: ops => (exec s op).bind fun e => (run e.state ops).map (e :: ·)

/-- The size of the type that a call takes from the top of the stack. -/
def Op.taken : Op → Nat
  | .peek n | .pop n | .popAndGet n => n.toNat
  | .returnToInstruction => pointerSize
  | _ => 0

/-! ## Bounds -/

/-- The top of the stack lies within the stack. -/
def State.InRange (s : State) : Prop := s.stack ≤ s.top ∧ s.top ≤ s.stack + s.stackSize.toNat

/-- After the call the top lies within the stack, and so does what it accessed. -/
def Effect.Safe (e : Effect) : Prop :=
  e.state.InRange ∧ ∀ a n, e.access = some (a, n) →
    e.state.stack ≤ a ∧ a + n ≤ e.state.stack + e.state.stackSize.toNat

theorem State.InRange.space_eq {s : State} (h : s.InRange) :
    s.space = s.stackSize.toNat - (s.top - s.stack) := by
  have hlt := s.stackSize.toNat_lt
  obtain ⟨hlow, hhigh⟩ := h
  exact IntTy.wrap_unsigned_of_lt (by omega) (by push_cast; omega)

/-- The assertion of `pop` says that a value of `n` bytes is on the stack, or `n` is more than the
whole stack. -/
theorem State.InRange.popFits_iff {s : State} (h : s.InRange) {n : Nat} (hn : n < 2 ^ 64) :
    s.PopFits n ↔ n ≤ s.top - s.stack ∨ s.stackSize.toNat < n := by
  have hlt := s.stackSize.toNat_lt
  obtain ⟨hlow, hhigh⟩ := h
  have hspace := State.InRange.space_eq ⟨hlow, hhigh⟩
  by_cases hbig : s.stackSize.toNat < n
  · have hwrap : IntTy.sizeT.wrap (s.stackSize.toNat - n) = s.stackSize.toNat - n + 2 ^ 64 := by
      rw [IntTy.wrap_unsigned, ← Int.add_emod_right]
      exact Int.emod_eq_of_lt (by push_cast; omega) (by push_cast; omega)
    simp only [PopFits, hspace, hwrap]
    omega
  · have hwrap : IntTy.sizeT.wrap (s.stackSize.toNat - n) = s.stackSize.toNat - n :=
      IntTy.wrap_unsigned_of_lt (by omega) (by push_cast; omega)
    simp only [PopFits, hspace, hwrap]
    omega

theorem State.InRange.lt_of_pushFits {s : State} (h : s.InRange) {n : Nat} (hn : s.PushFits n) :
    s.top + n < s.stack + s.stackSize.toNat := by
  rw [PushFits, h.space_eq] at hn
  omega

/-- What a call can do to the stack: it puts bytes on it, takes bytes from it, looks at its top or
empties it. -/
theorem exec_cases {s : State} {op : Op} {e : Effect} (h : exec s op = some e) :
    (∃ n, op.taken = 0 ∧ s.PushFits n ∧ e.state.top = s.top + n ∧ e.access = some (s.top, n)) ∨
      (s.PopFits op.taken ∧ e.state.top = s.top - op.taken ∧
        (e.access = none ∨ e.access = some (s.top - op.taken, op.taken))) ∨
      (s.PopFits op.taken ∧ e.state.top = s.top ∧
        e.access = some (s.top - op.taken, op.taken)) ∨
      (op.taken = 0 ∧ e.state.top = s.stack ∧ e.access = none) := by
  cases op with
  | push t =>
    simp only [exec, State.push, Option.ite_none_right_eq_some, Option.some.injEq] at h
    obtain ⟨hfits, rfl⟩ := h
    exact .inl ⟨_, rfl, hfits, rfl, rfl⟩
  | reserve n =>
    simp only [exec, State.reserve, Option.ite_none_right_eq_some, Option.some.injEq] at h
    obtain ⟨hfits, rfl⟩ := h
    exact .inl ⟨_, rfl, hfits, rfl, rfl⟩
  | peek n =>
    simp only [exec, State.peek, Option.ite_none_right_eq_some, Option.some.injEq] at h
    obtain ⟨hfits, rfl⟩ := h
    exact .inr (.inr (.inl ⟨hfits, rfl, rfl⟩))
  | pop n =>
    simp only [exec, State.pop, Option.ite_none_right_eq_some, Option.some.injEq] at h
    obtain ⟨hfits, rfl⟩ := h
    exact .inr (.inl ⟨hfits, rfl, .inl rfl⟩)
  | popAndGet n =>
    simp only [exec, State.popAndGet, Option.ite_none_right_eq_some, Option.some.injEq] at h
    obtain ⟨hfits, rfl⟩ := h
    exact .inr (.inl ⟨hfits, rfl, .inr rfl⟩)
  | callInstruction call returnTo =>
    simp only [exec, State.callInstruction, State.push, Option.map_eq_some_iff,
      Option.ite_none_right_eq_some, Option.some.injEq] at h
    obtain ⟨e, ⟨hfits, rfl⟩, rfl⟩ := h
    exact .inl ⟨_, rfl, hfits, rfl, rfl⟩
  | returnToInstruction =>
    simp only [exec, State.returnToInstruction, State.popAndGet, Option.map_eq_some_iff,
      Option.ite_none_right_eq_some, Option.some.injEq] at h
    obtain ⟨e, ⟨hfits, rfl⟩, rfl⟩ := h
    exact .inr (.inl ⟨hfits, rfl, .inr rfl⟩)
  | reset =>
    simp only [exec, State.reset, Option.some.injEq] at h
    subst h
    exact .inr (.inr (.inr ⟨rfl, rfl, rfl⟩))

theorem exec_stack {s : State} {op : Op} {e : Effect} (h : exec s op = some e) :
    e.state.stack = s.stack ∧ e.state.stackSize = s.stackSize := by
  cases op <;>
    simp only [exec, State.push, State.reserve, State.peek, State.pop, State.popAndGet,
      State.callInstruction, State.returnToInstruction, State.reset, Option.map_eq_some_iff,
      Option.ite_none_right_eq_some, Option.some.injEq] at h
  case callInstruction | returnToInstruction =>
    obtain ⟨e, ⟨-, rfl⟩, rfl⟩ := h
    exact ⟨rfl, rfl⟩
  case reset =>
    subst h
    exact ⟨rfl, rfl⟩
  all_goals
    obtain ⟨-, rfl⟩ := h
    exact ⟨rfl, rfl⟩

theorem Op.taken_lt (op : Op) : op.taken < 2 ^ 64 := by
  cases op with
  | peek n | pop n | popAndGet n => exact n.toNat_lt
  | _ => simp [Op.taken, pointerSize]

/-- A call whose assertion holds is safe exactly if the type it takes is not larger than the whole
stack. -/
theorem exec_safe_iff {s : State} (hs : s.InRange) {op : Op} {e : Effect}
    (h : exec s op = some e) : e.Safe ↔ op.taken ≤ s.stackSize.toNat := by
  obtain ⟨hstack, hsize⟩ := exec_stack h
  have hpop := fun hfits => (hs.popFits_iff op.taken_lt).mp hfits
  obtain ⟨hlow, hhigh⟩ := hs
  simp only [Effect.Safe, State.InRange, hstack, hsize]
  obtain ⟨n, htaken, hfits, htop, haccess⟩ | ⟨hfits, htop, haccess⟩ | ⟨hfits, htop, haccess⟩ |
    ⟨htaken, htop, haccess⟩ := exec_cases h
  · have hroom := State.InRange.lt_of_pushFits ⟨hlow, hhigh⟩ hfits
    refine ⟨fun _ => by omega, fun _ => ⟨by omega, fun a m ham => ?_⟩⟩
    cases haccess.symm.trans ham
    omega
  · have hpop := hpop hfits
    refine ⟨fun hsafe => by omega, fun hle => ⟨by omega, fun a m ham => ?_⟩⟩
    obtain hnone | hsome := haccess
    · cases hnone.symm.trans ham
    · cases hsome.symm.trans ham
      omega
  · have hpop := hpop hfits
    refine ⟨fun hsafe => ?_, fun hle => ⟨by omega, fun a m ham => ?_⟩⟩
    · have := hsafe.2 _ _ haccess
      omega
    · cases haccess.symm.trans ham
      omega
  · refine ⟨fun _ => by omega, fun _ => ⟨by omega, fun a m ham => ?_⟩⟩
    cases haccess.symm.trans ham

/-- The calls of a run are all safe exactly if none takes a type larger than the stack. -/
theorem run_safe_iff {s : State} (hs : s.InRange) {ops : List Op} {es : List Effect}
    (h : run s ops = some es) :
    (∀ e ∈ es, e.Safe) ↔ ∀ op ∈ ops, op.taken ≤ s.stackSize.toNat := by
  induction ops generalizing s es with
  | nil =>
    cases h
    simp
  | cons op ops ih =>
    simp only [run, Option.bind_eq_some_iff, Option.map_eq_some_iff] at h
    obtain ⟨e, he, es, hes, rfl⟩ := h
    have hsafe := exec_safe_iff hs he
    simp only [List.forall_mem_cons, ← hsafe]
    refine and_congr_right fun hsafe => ?_
    rw [ih hsafe.1 hes, (exec_stack he).2]

/-! ## Order -/

/-- The number of bytes a call puts on the stack. -/
def Op.pushedSize : Op → Option Nat
  | .push t => some t.length
  | .reserve n => some n.toNat
  | .callInstruction _ _ => some pointerSize
  | _ => none

/-- The value a call puts on the stack. -/
def Op.pushedValue : Op → Option (List UInt8)
  | .push t => some t
  | .callInstruction _ returnTo => some (leBytes pointerSize returnTo.toNat)
  | _ => none

/-- The number of bytes a call removes from the stack. -/
def Op.poppedSize : Op → Option Nat
  | .pop n | .popAndGet n => some n.toNat
  | .returnToInstruction => some pointerSize
  | _ => none

/-- The number of bytes of the value a call removes and returns. -/
def Op.returnedSize : Op → Option Nat
  | .popAndGet n => some n.toNat
  | .returnToInstruction => some pointerSize
  | _ => none

/-- Every value put on the stack is removed again as a value of the same size. -/
inductive Bracketed : List Op → Prop
  | nil : Bracketed []
  | peek (n : UInt64) {ops : List Op} (h : Bracketed ops) : Bracketed (.peek n :: ops)
  | pair {k : Nat} {opener closer : Op} {inner ops : List Op} (hopen : opener.pushedSize = some k)
      (hclose : closer.poppedSize = some k) (hinner : Bracketed inner) (h : Bracketed ops) :
      Bracketed (opener :: (inner ++ closer :: ops))

/-- The state after the calls with the given effects. -/
def after (s : State) (es : List Effect) : State := es.foldl (fun _ e => e.state) s

theorem run_cons {s : State} {op : Op} {ops : List Op} {es : List Effect}
    (h : run s (op :: ops) = some es) :
    ∃ e es', exec s op = some e ∧ run e.state ops = some es' ∧ es = e :: es' := by
  simp only [run, Option.bind_eq_some_iff, Option.map_eq_some_iff] at h
  obtain ⟨e, he, es', hes, rfl⟩ := h
  exact ⟨e, es', he, hes, rfl⟩

theorem run_append {s : State} {a b : List Op} {es : List Effect}
    (h : run s (a ++ b) = some es) :
    ∃ es₁ es₂, run s a = some es₁ ∧ run (after s es₁) b = some es₂ ∧ es = es₁ ++ es₂ ∧
      es₁.length = a.length := by
  induction a generalizing s es with
  | nil => exact ⟨[], es, rfl, h, rfl, rfl⟩
  | cons op a ih =>
    obtain ⟨e, es', he, hes, rfl⟩ := run_cons h
    obtain ⟨es₁, es₂, h₁, h₂, rfl, hlen⟩ := ih hes
    exact ⟨e :: es₁, es₂, by simp [run, he, h₁], h₂, rfl, by simp [hlen]⟩

/-- The stack reaches up to the same address, and the bytes below are the same. -/
def SameStack (s s' : State) : Prop := s'.top = s.top ∧ ∀ a < s.top, s'.mem a = s.mem a

theorem exec_pushed {s : State} {op : Op} {e : Effect} {k : Nat} (h : exec s op = some e)
    (hk : op.pushedSize = some k) :
    e.state.top = s.top + k ∧ ∀ a < s.top, e.state.mem a = s.mem a := by
  cases op <;> simp only [Op.pushedSize, Option.some.injEq, reduceCtorEq] at hk
  case push t =>
    subst hk
    simp only [exec, State.push, Option.ite_none_right_eq_some, Option.some.injEq] at h
    obtain ⟨-, rfl⟩ := h
    exact ⟨rfl, fun a ha => blit_of_lt t ha⟩
  case reserve n =>
    subst hk
    simp only [exec, State.reserve, Option.ite_none_right_eq_some, Option.some.injEq] at h
    obtain ⟨-, rfl⟩ := h
    exact ⟨rfl, fun a _ => rfl⟩
  case callInstruction call returnTo =>
    subst hk
    simp only [exec, State.callInstruction, State.push, Option.map_eq_some_iff,
      Option.ite_none_right_eq_some, Option.some.injEq] at h
    obtain ⟨e, ⟨-, rfl⟩, rfl⟩ := h
    exact ⟨by simp, fun a ha => blit_of_lt _ ha⟩

theorem exec_popped {s : State} {op : Op} {e : Effect} {k : Nat} (h : exec s op = some e)
    (hk : op.poppedSize = some k) : e.state.top = s.top - k ∧ e.state.mem = s.mem := by
  cases op <;> simp only [Op.poppedSize, Option.some.injEq, reduceCtorEq] at hk
  case pop n =>
    subst hk
    simp only [exec, State.pop, Option.ite_none_right_eq_some, Option.some.injEq] at h
    obtain ⟨-, rfl⟩ := h
    exact ⟨rfl, rfl⟩
  case popAndGet n =>
    subst hk
    simp only [exec, State.popAndGet, Option.ite_none_right_eq_some, Option.some.injEq] at h
    obtain ⟨-, rfl⟩ := h
    exact ⟨rfl, rfl⟩
  case returnToInstruction =>
    subst hk
    simp only [exec, State.returnToInstruction, State.popAndGet, Option.map_eq_some_iff,
      Option.ite_none_right_eq_some, Option.some.injEq] at h
    obtain ⟨e, ⟨-, rfl⟩, rfl⟩ := h
    exact ⟨rfl, rfl⟩

/-- A bracketed sequence leaves the stack as it was. -/
theorem Bracketed.sameStack {ops : List Op} (hops : Bracketed ops) {s : State} {es : List Effect}
    (h : run s ops = some es) : SameStack s (after s es) := by
  induction hops generalizing s es with
  | nil =>
    cases h
    exact ⟨rfl, fun _ _ => rfl⟩
  | peek n _ ih =>
    obtain ⟨e, es', he, hes, rfl⟩ := run_cons h
    simp only [exec, State.peek, Option.ite_none_right_eq_some, Option.some.injEq] at he
    obtain ⟨-, rfl⟩ := he
    have hrest : SameStack s (after s es') := ih hes
    exact hrest
  | @pair k opener closer inner ops hopen hclose _ _ ihinner ih =>
    obtain ⟨e, es', he, hes, rfl⟩ := run_cons h
    obtain ⟨es₁, es₂, h₁, h₂, rfl, -⟩ := run_append hes
    obtain ⟨e', es₃, he', hes', rfl⟩ := run_cons h₂
    obtain ⟨htop, hmem⟩ := exec_pushed he hopen
    obtain ⟨htop', hmem'⟩ := exec_popped he' hclose
    obtain ⟨hin, hinmem⟩ := ihinner h₁
    obtain ⟨hout, houtmem⟩ := ih hes'
    have hlevel : e'.state.top = s.top := by omega
    have hafter : after s (e :: (es₁ ++ e' :: es₃)) = after e'.state es₃ := by
      simp [after]
    rw [hafter]
    refine ⟨hout.trans hlevel, fun a ha => ?_⟩
    rw [houtmem a (by omega), hmem', hinmem a (by omega), hmem a ha]

theorem exec_pushedValue {s : State} {op : Op} {e : Effect} {v : List UInt8}
    (h : exec s op = some e) (hv : op.pushedValue = some v) :
    op.pushedSize = some v.length ∧ slice e.state.mem s.top v.length = v := by
  cases op <;> simp only [Op.pushedValue, Option.some.injEq, reduceCtorEq] at hv
  case push t =>
    subst hv
    simp only [exec, State.push, Option.ite_none_right_eq_some, Option.some.injEq] at h
    obtain ⟨-, rfl⟩ := h
    exact ⟨rfl, slice_blit _ _ _⟩
  case callInstruction call returnTo =>
    subst hv
    simp only [exec, State.callInstruction, State.push, Option.map_eq_some_iff,
      Option.ite_none_right_eq_some, Option.some.injEq] at h
    obtain ⟨e, ⟨-, rfl⟩, rfl⟩ := h
    exact ⟨by simp [Op.pushedSize], slice_blit _ _ _⟩

theorem exec_returned {s : State} {op : Op} {e : Effect} {k : Nat} (h : exec s op = some e)
    (hk : op.returnedSize = some k) :
    op.poppedSize = some k ∧ e.value = some (slice s.mem (s.top - k) k) ∧
      (op = .returnToInstruction →
        e.state.instruction = UInt64.ofNat (leValue (slice s.mem (s.top - k) k))) := by
  cases op <;> simp only [Op.returnedSize, Option.some.injEq, reduceCtorEq] at hk
  case popAndGet n =>
    subst hk
    simp only [exec, State.popAndGet, Option.ite_none_right_eq_some, Option.some.injEq] at h
    obtain ⟨-, rfl⟩ := h
    exact ⟨rfl, rfl, nofun⟩
  case returnToInstruction =>
    subst hk
    simp only [exec, State.returnToInstruction, State.popAndGet, Option.map_eq_some_iff,
      Option.ite_none_right_eq_some, Option.some.injEq] at h
    obtain ⟨e, ⟨-, rfl⟩, rfl⟩ := h
    exact ⟨rfl, rfl, fun _ => rfl⟩

/-- Each call that removes a value returns the one its matching call has put there. -/
def Lifo (ops : List Op) (es : List Effect) : Prop :=
  ∀ before opener inner closer rest v e, ops = before ++ opener :: (inner ++ closer :: rest) →
    opener.pushedValue = some v → Bracketed inner → closer.returnedSize = some v.length →
    es[before.length + inner.length + 1]? = some e →
    e.value = some v ∧ ∀ call returnTo, opener = .callInstruction call returnTo →
      closer = .returnToInstruction → e.state.instruction = returnTo

theorem run_lifo {s : State} {ops : List Op} {es : List Effect} (h : run s ops = some es) :
    Lifo ops es := by
  rintro before opener inner closer rest v e rfl hv hinner hreturned hget
  obtain ⟨es₀, es', -, hes, rfl, hlen₀⟩ := run_append h
  obtain ⟨eo, es'', heo, hinnerRun, rfl⟩ := run_cons hes
  obtain ⟨es₁, es₂, h₁, h₂, rfl, hlen₁⟩ := run_append hinnerRun
  obtain ⟨ec, es₃, hec, -, rfl⟩ := run_cons h₂
  obtain rfl : ec = e := by
    have hindex : before.length + inner.length + 1 = (es₀ ++ eo :: es₁).length := by
      simp [hlen₀, hlen₁, Nat.add_assoc]
    have hsplit : es₀ ++ eo :: (es₁ ++ ec :: es₃) = (es₀ ++ eo :: es₁) ++ ec :: es₃ := by simp
    rw [hsplit, hindex, List.getElem?_append_right le_rfl] at hget
    simpa using hget
  obtain ⟨hsize, hvalue⟩ := exec_pushedValue heo hv
  obtain ⟨htop, -⟩ := exec_pushed heo hsize
  obtain ⟨hsame, hmem⟩ := hinner.sameStack h₁
  obtain ⟨-, hval, hinstr⟩ := exec_returned hec hreturned
  have hbase : (after eo.state es₁).top - v.length = (after s es₀).top := by omega
  have hbytes : slice (after eo.state es₁).mem (after s es₀).top v.length = v := by
    rw [slice_congr fun a _ hlt => hmem a (by omega), hvalue]
  rw [hbase, hbytes] at hval hinstr
  refine ⟨hval, ?_⟩
  rintro call returnTo rfl hclose
  rw [hinstr hclose]
  simp only [Op.pushedValue, Option.some.injEq] at hv
  rw [← hv, leValue_leBytes, pointerSize, Nat.mod_eq_of_lt (by exact returnTo.toNat_lt),
    UInt64.ofNat_toNat]

/-- In every run of calls whose assertions hold, the top of the stack and all accesses stay within
the stack and values come back in order, exactly if no call takes a type larger than the whole
stack. -/
theorem assertions_suffice_iff (stack : Int) (stackSize : UInt64) (mem : Memory) {ops : List Op}
    {es : List Effect} (h : run (State.new stack stackSize mem) ops = some es) :
    ((∀ e ∈ es, e.Safe) ∧ Lifo ops es) ↔ ∀ op ∈ ops, op.taken ≤ stackSize.toNat := by
  have hstart : (State.new stack stackSize mem).InRange := by
    simp [State.InRange, State.new]
  have hiff := run_safe_iff hstart h
  exact ⟨fun hsafe => hiff.mp hsafe.1, fun htaken => ⟨hiff.mpr htaken, run_lifo h⟩⟩

/-- A run on a stack of sixteen bytes: a call, a value inside it, and the return. -/
def callAndReturn : List Op :=
  [.callInstruction 7 9, .push [1, 2], .popAndGet 2, .returnToInstruction]

theorem assertions_suffice_callAndReturn :
    ∃ es, run (State.new 0 16 (fun _ => 0)) callAndReturn = some es ∧
      (∀ e ∈ es, e.Safe) ∧ Lifo callAndReturn es := by
  have hrun : (run (State.new 0 16 (fun _ => 0)) callAndReturn).isSome := by decide
  obtain ⟨es, hes⟩ := Option.isSome_iff_exists.mp hrun
  exact ⟨es, hes, (assertions_suffice_iff 0 16 (fun _ => 0) hes).mpr (by decide)⟩

/-- On a stack of four bytes the assertion of `popAndGet<void*>` holds although nothing has been
pushed, and the call leaves the stack below its start. -/
theorem pop_below_small_stack :
    ∃ e, run (State.new 0x1000 4 (fun _ => 0)) [.returnToInstruction] = some [e] ∧
      e.state.top < e.state.stack ∧ e.access = some (0xff8, 8) ∧ ¬ e.Safe := by
  have hfits : (State.new 0x1000 4 (fun _ => 0)).PopFits pointerSize := by decide
  simp only [run, exec, State.returnToInstruction, State.popAndGet, if_pos hfits,
    Option.map_some, Option.bind_some]
  refine ⟨_, rfl, by decide, by decide, ?_⟩
  intro hsafe
  have hrange := hsafe.1.1
  revert hrange
  decide

/-! ## The stack as the parser's model sees it -/

/-- The state holds one block of eight bytes for each entry of the parser's stack. -/
def Represents {L : Type} (s : State) (st : ParserState L) : Prop :=
  s.stackSize.toNat = st.stackSize ∧
    s.top = s.stack + (ParserState.blockSize * st.stack.length : Nat) ∧ s.InRange

/-- `push<BlockState>()` in memory does what `ParserState.push` says. -/
theorem Represents.push {L : Type} {s : State} {st : ParserState L} (h : Represents s st) :
    (s.reserve ParserState.blockSize = none ↔ st.push = none) ∧
      ∀ e st', s.reserve ParserState.blockSize = some e → st.push = some st' →
        Represents e.state st' := by
  obtain ⟨hsize, htop, hrange⟩ := h
  have hiff : s.PushFits ParserState.blockSize ↔ st.space > ParserState.blockSize := by
    have hhigh := hrange.2
    rw [State.PushFits, hrange.space_eq, ParserState.space]
    omega
  refine ⟨by simp [State.reserve, ParserState.push, hiff], ?_⟩
  intro e st' he hst
  simp only [State.reserve, Option.ite_none_right_eq_some, Option.some.injEq] at he
  simp only [ParserState.push, Option.ite_none_right_eq_some, Option.some.injEq] at hst
  obtain ⟨hfits, rfl⟩ := he
  obtain ⟨-, rfl⟩ := hst
  have hroom := hrange.lt_of_pushFits hfits
  have hlow := hrange.1
  refine ⟨hsize, ?_, ?_, ?_⟩
  · simp only [List.length_cons, htop, ParserState.blockSize]
    push_cast
    omega
  · simp only
    omega
  · simp only
    omega

end Diffingo.Runtime.StackMemory
