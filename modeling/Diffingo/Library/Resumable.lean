import Mathlib.Order.Lattice
import Mathlib.Data.List.Nodup
import Mathlib.Data.List.TakeWhile

/-!
# Resumable labelled programs

A resumable program is a sequence of labelled blocks of code and of branches whose cases are such
blocks. A block runs against an external limit, for example the end of a buffer. It either
completes or stops the run with a result; the program then remembers the label of the block, and
`resume` starts again at that label.

* `Semantics` is what a block and a branch do, `run` and `runFrom` execute a program,
  `locate` finds the continuation of a label.
* `Reaches` is the small-step view: the continuations and states a run passes through.
* `Restartable` collects what makes resuming safe. Its consequences `run_interrupted`,
  `resume_interrupted` and `resume_completed` say that a run interrupted at smaller limits and
  resumed ends as one run does.
-/

namespace Resumable

/-- A labelled piece of straight-line code. -/
structure Block (L B : Type) where
  label : L
  body : B

/-- An instruction: a block, or a branch that selects one list of blocks. -/
inductive Instr (L B G : Type)
  | block (b : Block L B)
  | branch (label : L) (guard : G) (cases : List (List (Block L B)))

/-- What running the body of a block does. -/
inductive Step (σ ρ : Type)
  | next (s : σ)
  | stop (r : ρ) (s : σ)

def Step.state {σ ρ : Type} : Step σ ρ → σ
  | .next s | .stop _ s => s

/-- How a run ends: past its last instruction, or stopped inside the block labelled `l`. -/
inductive Outcome (L σ ρ : Type)
  | done (last : Option L) (s : σ)
  | stopped (r : ρ) (l : L) (s : σ)

def Outcome.state {L σ ρ : Type} : Outcome L σ ρ → σ
  | .done _ s | .stopped _ _ s => s

/-- The meaning of bodies and guards. A guard may change the state and selects a case, or none.
`none` is undefined behaviour. -/
structure Semantics (B G ε σ ρ : Type) where
  body : B → ε → σ → Option (Step σ ρ)
  guard : G → σ → Option (σ × Option Nat)

/-- A sequence of calls against the given limits, each on what the one before left; the results of
the calls with what each left. -/
def calls {ε ω ρ : Type} (call : ε → ω → Option (ρ × ω)) : List ε → ω → Option (List (ρ × ω))
  | [], _ => some []
  | e :: es, w => (call e w).bind fun r => (calls call es r.2).map (r :: ·)

/-- What is left to execute: the rest of the current case, then the rest of the program. -/
abbrev Cont (L B G : Type) := List (Block L B) × List (Instr L B G)

section Execution

variable {L B G ε σ ρ : Type}

def Outcome.andThen (o : Outcome L σ ρ) (k : Option L → σ → Option (Outcome L σ ρ)) :
    Option (Outcome L σ ρ) :=
  match o with
  | .done l s => k l s
  | .stopped r l s => some (.stopped r l s)

@[simp] theorem Outcome.andThen_done (l : Option L) (s : σ)
    (k : Option L → σ → Option (Outcome L σ ρ)) :
    (Outcome.done l s).andThen k = k l s := rfl

@[simp] theorem Outcome.andThen_stopped (r : ρ) (l : L) (s : σ)
    (k : Option L → σ → Option (Outcome L σ ρ)) :
    (Outcome.stopped r l s).andThen k = some (.stopped r l s) := rfl

variable (sem : Semantics B G ε σ ρ)

def runBlocks (e : ε) : List (Block L B) → Option L → σ → Option (Outcome L σ ρ)
  | [], l, s => some (.done l s)
  | b :: bs, _, s =>
    match sem.body b.body e s with
    | none => none
    | some (.next s') => runBlocks e bs (some b.label) s'
    | some (.stop r s') => some (.stopped r b.label s')

/-- The blocks of the selected case. -/
def chosen (cases : List (List (Block L B))) (i : Option Nat) : List (Block L B) :=
  (i.bind (cases[·]?)).getD []

def runInstr (e : ε) : Instr L B G → σ → Option (Outcome L σ ρ)
  | .block b, s => runBlocks sem e [b] none s
  | .branch l g cases, s =>
    match sem.guard g s with
    | none => none
    | some (s', i) => runBlocks sem e (chosen cases i) (some l) s'

/-- Run a program from its start; `l` is the label recorded before. -/
def run (e : ε) : List (Instr L B G) → Option L → σ → Option (Outcome L σ ρ)
  | [], l, s => some (.done l s)
  | i :: rest, _, s => (runInstr sem e i s).bind (·.andThen (run e rest))

def runFrom (e : ε) (c : Cont L B G) (l : Option L) (s : σ) : Option (Outcome L σ ρ) :=
  (runBlocks sem e c.1 l s).bind (·.andThen (run sem e c.2))

/-- The small steps of a run from continuation `c₀` and state `s₀`. -/
inductive Reaches (e : ε) (c₀ : Cont L B G) (s₀ : σ) : Cont L B G → σ → Prop
  | refl : Reaches e c₀ s₀ c₀ s₀
  | enter {b rest s} : Reaches e c₀ s₀ ([], .block b :: rest) s → Reaches e c₀ s₀ ([b], rest) s
  | select {l g cases rest s s' i} : Reaches e c₀ s₀ ([], .branch l g cases :: rest) s →
      sem.guard g s = some (s', i) → Reaches e c₀ s₀ (chosen cases i, rest) s'
  | next {b bs rest s s'} : Reaches e c₀ s₀ (b :: bs, rest) s →
      sem.body b.body e s = some (.next s') → Reaches e c₀ s₀ (bs, rest) s'

/-- The part of a case that starts at a label. -/
def fromLabel [DecidableEq L] (l : L) (bs : List (Block L B)) : Option (List (Block L B)) :=
  match bs.dropWhile fun b => b.label ≠ l with
  | [] => none
  | suffix => some suffix

/-- The continuation that starts at the block or branch labelled `l`. -/
def locate [DecidableEq L] (l : L) : List (Instr L B G) → Option (Cont L B G)
  | [] => none
  | .block b :: rest => if b.label = l then some ([b], rest) else locate l rest
  | .branch l' g cases :: rest =>
    if l' = l then some ([], .branch l' g cases :: rest)
    else
      match cases.findSome? (fromLabel l) with
      | some bs => some (bs, rest)
      | none => locate l rest

/-- Continue a program at a label; jumping to a label it does not have is undefined. -/
def resume [DecidableEq L] (e : ε) (p : List (Instr L B G)) (l : L) (s : σ) :
    Option (Outcome L σ ρ) :=
  (locate l p).bind fun c => runFrom sem e c (some l) s

def blockLabels (bs : List (Block L B)) : List L := bs.map (·.label)

def Instr.labels : Instr L B G → List L
  | .block b => [b.label]
  | .branch l _ cases => l :: cases.flatMap blockLabels

def labels (p : List (Instr L B G)) : List L := p.flatMap Instr.labels

/-- The blocks of a program, wherever they stand. -/
def Instr.blocks : Instr L B G → List (Block L B)
  | .block b => [b]
  | .branch _ _ cases => cases.flatten

end Execution

section Equations

variable {L B G ε σ ρ : Type} (sem : Semantics B G ε σ ρ) (e : ε)

@[simp] theorem runFrom_nil (l : Option L) (s : σ) :
    runFrom sem e (([], []) : Cont L B G) l s = some (.done l s) := rfl

@[simp] theorem runFrom_enter (b : Block L B) (rest : List (Instr L B G)) (l : Option L) (s : σ) :
    runFrom sem e ([], .block b :: rest) l s = runFrom sem e ([b], rest) l s := rfl

@[simp] theorem runFrom_select (l' : L) (g : G) (cases : List (List (Block L B)))
    (rest : List (Instr L B G)) (l : Option L) (s : σ) :
    runFrom sem e ([], .branch l' g cases :: rest) l s =
      (sem.guard g s).bind fun x => runFrom sem e (chosen cases x.2, rest) (some l') x.1 := by
  simp only [runFrom, runBlocks, Option.bind_some, Outcome.andThen_done, run, runInstr]
  cases sem.guard g s <;> rfl

@[simp] theorem runFrom_cons (b : Block L B) (bs : List (Block L B)) (rest : List (Instr L B G))
    (l : Option L) (s : σ) :
    runFrom sem e (b :: bs, rest) l s =
      (sem.body b.body e s).bind fun x =>
        match x with
        | .next s' => runFrom sem e (bs, rest) (some b.label) s'
        | .stop r s' => some (.stopped r b.label s') := by
  simp only [runFrom, runBlocks]
  rcases sem.body b.body e s with _ | (s' | ⟨r, s'⟩) <;> rfl

theorem run_eq_runFrom (p : List (Instr L B G)) (l : Option L) (s : σ) :
    run sem e p l s = runFrom sem e ([], p) l s := by
  simp [runFrom, runBlocks]

theorem runFrom_done {bs : List (Block L B)} {rest : List (Instr L B G)} {l l' : Option L}
    {s s' : σ} (h : runFrom sem e (bs, rest) l s = some (.done l' s')) :
    ∃ l₁ s₁, runBlocks sem e bs l s = some (.done l₁ s₁) ∧
      run sem e rest l₁ s₁ = some (.done l' s') := by
  obtain ⟨oc, hoc, h⟩ := Option.bind_eq_some_iff.mp h
  cases oc with
  | done l₁ s₁ => exact ⟨l₁, s₁, hoc, h⟩
  | stopped r l₁ s₁ => simp at h

/-- Induction along the execution of a continuation. -/
theorem Cont.induction {motive : Cont L B G → Prop} (nil : motive ([], []))
    (enter : ∀ b rest, motive ([b], rest) → motive ([], .block b :: rest))
    (select : ∀ l g cases rest, (∀ i, motive (chosen cases i, rest)) →
      motive ([], .branch l g cases :: rest))
    (cons : ∀ b bs rest, motive (bs, rest) → motive (b :: bs, rest)) (c : Cont L B G) :
    motive c := by
  obtain ⟨bs, rest⟩ := c
  have blocks : ∀ rest, motive ([], rest) → ∀ bs, motive (bs, rest) := by
    intro rest h bs
    induction bs with
    | nil => exact h
    | cons b bs ih => exact cons b bs rest ih
  have program : ∀ rest, motive ([], rest) := by
    intro rest
    induction rest with
    | nil => exact nil
    | cons i rest ih =>
      cases i with
      | block b => exact enter b rest (blocks rest ih [b])
      | branch l g cases => exact select l g cases rest fun i => blocks rest ih _
  exact blocks rest (program rest) bs

/-- A run that stops, stops in a block it reaches. -/
theorem Reaches.of_stopped {c : Cont L B G} {l : Option L} {s s' : σ} {r : ρ} {lab : L}
    (h : runFrom sem e c l s = some (.stopped r lab s')) :
    ∃ b bs rest t, Reaches sem e c s (b :: bs, rest) t ∧ b.label = lab ∧
      sem.body b.body e t = some (.stop r s') := by
  suffices ∀ c₀ s₀, Reaches sem e c₀ s₀ c s → ∃ b bs rest t,
      Reaches sem e c₀ s₀ (b :: bs, rest) t ∧ b.label = lab ∧
      sem.body b.body e t = some (.stop r s') from this c s .refl
  intro c₀ s₀ hreach
  induction c using Cont.induction generalizing l s with
  | nil => simp at h
  | enter b rest ih =>
    rw [runFrom_enter] at h
    exact ih h (.enter hreach)
  | select l' g cases rest ih =>
    rw [runFrom_select] at h
    obtain ⟨⟨t, i⟩, hg, h⟩ := Option.bind_eq_some_iff.mp h
    exact ih i h (.select hreach hg)
  | cons b bs rest ih =>
    rw [runFrom_cons] at h
    obtain ⟨x, hb, h⟩ := Option.bind_eq_some_iff.mp h
    cases x with
    | next t => exact ih h (.next hreach hb)
    | stop r' t =>
      simp only [Option.some.injEq, Outcome.stopped.injEq] at h
      obtain ⟨rfl, rfl, rfl⟩ := h
      exact ⟨b, bs, rest, s, hreach, rfl, hb⟩

/-- A run that ends reaches the empty continuation. -/
theorem Reaches.of_done {c : Cont L B G} {l l' : Option L} {s s' : σ}
    (h : runFrom sem e c l s = some (.done l' s')) : Reaches sem e c s ([], []) s' := by
  suffices ∀ c₀ s₀, Reaches sem e c₀ s₀ c s → Reaches sem e c₀ s₀ ([], []) s' from this c s .refl
  intro c₀ s₀ hreach
  induction c using Cont.induction generalizing l s with
  | nil =>
    simp only [runFrom_nil, Option.some.injEq, Outcome.done.injEq] at h
    exact h.2 ▸ hreach
  | enter b rest ih =>
    rw [runFrom_enter] at h
    exact ih h (.enter hreach)
  | select l' g cases rest ih =>
    rw [runFrom_select] at h
    obtain ⟨⟨t, i⟩, hg, h⟩ := Option.bind_eq_some_iff.mp h
    exact ih i h (.select hreach hg)
  | cons b bs rest ih =>
    rw [runFrom_cons] at h
    obtain ⟨x, hb, h⟩ := Option.bind_eq_some_iff.mp h
    cases x with
    | next t => exact ih h (.next hreach hb)
    | stop r' t => simp at h

/-- A run that has executed an instruction ends with its label. -/
theorem runFrom_label {c : Cont L B G} {l l' : Option L} {s s' : σ}
    (h : runFrom sem e c l s = some (.done l' s')) (hl : l.isSome = true ∨ c ≠ ([], [])) :
    l'.isSome = true := by
  induction c using Cont.induction generalizing l s with
  | nil =>
    cases h
    simpa using hl
  | enter b rest ih =>
    rw [runFrom_enter] at h
    exact ih h (.inr (by simp))
  | select l₂ g cases rest ih =>
    rw [runFrom_select] at h
    obtain ⟨x, -, h⟩ := Option.bind_eq_some_iff.mp h
    exact ih x.2 h (.inl rfl)
  | cons b bs rest ih =>
    rw [runFrom_cons] at h
    obtain ⟨x, -, h⟩ := Option.bind_eq_some_iff.mp h
    cases x with
    | next t => exact ih h (.inl rfl)
    | stop r t => cases h

/-- A run continues from every continuation it reaches. -/
theorem Reaches.runFrom_eq {c₀ c : Cont L B G} {s₀ s : σ} (h : Reaches sem e c₀ s₀ c s)
    (l : Option L) : ∃ l', runFrom sem e c₀ l s₀ = runFrom sem e c l' s := by
  induction h with
  | refl => exact ⟨l, rfl⟩
  | enter _ ih => simpa using ih
  | @select l₂ g cases rest s s' i _ hg ih =>
    obtain ⟨l', ih⟩ := ih
    exact ⟨some l₂, by simp [ih, hg]⟩
  | @next b bs rest s s' _ hb ih =>
    obtain ⟨l', ih⟩ := ih
    exact ⟨some b.label, by simp [ih, hb]⟩

end Equations

section Location

variable {L B G : Type}

/-- The continuations of a program. -/
inductive Located (p : List (Instr L B G)) : Cont L B G → Prop
  | start : Located p ([], p)
  | enter {b rest} : Located p ([], .block b :: rest) → Located p ([b], rest)
  | select {l g cases rest} (i : Option Nat) : Located p ([], .branch l g cases :: rest) →
      Located p (chosen cases i, rest)
  | next {b bs rest} : Located p (b :: bs, rest) → Located p (bs, rest)

/-- Where a continuation stands: right behind an instruction, or inside the one just before its
second part. -/
def Stands (pre : List (Instr L B G)) (bs : List (Block L B)) : Prop :=
  bs = [] ∨ (∃ pre' b, pre = pre' ++ [.block b] ∧ bs = [b]) ∨
    ∃ pre' l g cases cs, pre = pre' ++ [.branch l g cases] ∧ cs ∈ cases ∧ bs <:+ cs

theorem chosen_cases (cases : List (List (Block L B))) (i : Option Nat) :
    chosen cases i = [] ∨ chosen cases i ∈ cases := by
  unfold chosen
  cases h : i.bind (cases[·]?) with
  | none => exact .inl rfl
  | some cs =>
    obtain ⟨n, -, hn⟩ := Option.bind_eq_some_iff.mp h
    exact .inr (List.mem_of_getElem? hn)

theorem Located.stands {p : List (Instr L B G)} {c : Cont L B G} (h : Located p c) :
    ∃ pre, p = pre ++ c.2 ∧ Stands pre c.1 := by
  induction h with
  | start => exact ⟨[], rfl, .inl rfl⟩
  | @enter b rest _ ih =>
    obtain ⟨pre, hp, -⟩ := ih
    exact ⟨pre ++ [.block b], by simpa using hp, .inr (.inl ⟨pre, b, rfl, rfl⟩)⟩
  | @select l g cases rest i _ ih =>
    obtain ⟨pre, hp, -⟩ := ih
    refine ⟨pre ++ [.branch l g cases], by simpa using hp, ?_⟩
    rcases chosen_cases cases i with hnil | hmem
    · exact .inl hnil
    · exact .inr (.inr ⟨pre, l, g, cases, _, rfl, hmem, List.suffix_rfl⟩)
  | @next b bs rest _ ih =>
    obtain ⟨pre, hp, hst⟩ := ih
    refine ⟨pre, hp, ?_⟩
    rcases hst with hnil | ⟨_, _, _, hbs⟩ | ⟨pre', l, g, cases, cs, hpre, hmem, hsuf⟩
    · cases hnil
    · exact .inl (List.cons.inj hbs).2
    · exact .inr (.inr ⟨pre', l, g, cases, cs, hpre, hmem, (List.suffix_cons b bs).trans hsuf⟩)

variable [DecidableEq L]

theorem fromLabel_eq_none {l : L} {bs : List (Block L B)} (h : l ∉ blockLabels bs) :
    fromLabel l bs = none := by
  have hdrop : bs.dropWhile (fun b => b.label ≠ l) = [] := by
    rw [List.dropWhile_eq_nil_iff]
    intro b hb
    have : b.label ≠ l := fun heq => h (heq ▸ List.mem_map_of_mem hb)
    simpa using this
  simp only [fromLabel, hdrop]

theorem fromLabel_append {pre bs : List (Block L B)} {b : Block L B}
    (h : b.label ∉ blockLabels pre) : fromLabel b.label (pre ++ b :: bs) = some (b :: bs) := by
  have hpre : ∀ x ∈ pre, decide (x.label ≠ b.label) = true := fun x hx => by
    have : x.label ≠ b.label := fun heq => h (heq ▸ List.mem_map_of_mem hx)
    simpa using this
  have hdrop : (pre ++ b :: bs).dropWhile (fun x => x.label ≠ b.label) = b :: bs := by
    rw [List.dropWhile_append_of_pos hpre]
    simp
  simp only [fromLabel, hdrop]

theorem locate_append {l : L} {pre : List (Instr L B G)} (h : l ∉ labels pre)
    (p : List (Instr L B G)) : locate l (pre ++ p) = locate l p := by
  induction pre with
  | nil => rfl
  | cons i pre ih =>
    simp only [labels, List.flatMap_cons, List.mem_append, not_or] at h
    obtain ⟨hi, hpre⟩ := h
    cases i with
    | block b =>
      have hb : b.label ≠ l := fun heq => hi (by simp [Instr.labels, heq])
      simp [locate, hb, ih hpre]
    | branch l' g cases =>
      simp only [Instr.labels, List.mem_cons, List.mem_flatMap, not_or] at hi
      have hnone : cases.findSome? (fromLabel l) = none :=
        List.findSome?_eq_none_iff.mpr fun bs hbs =>
          fromLabel_eq_none fun hmem => hi.2 ⟨bs, hbs, hmem⟩
      simp [locate, Ne.symm hi.1, hnone, ih hpre]

/-- With distinct labels, a saved label leads back to the continuation it was saved in. -/
theorem Located.locate_eq {p : List (Instr L B G)} (hp : (labels p).Nodup) {b : Block L B}
    {bs : List (Block L B)} {rest : List (Instr L B G)} (h : Located p (b :: bs, rest)) :
    locate b.label p = some (b :: bs, rest) := by
  obtain ⟨pre, rfl, hst⟩ := h.stands
  rcases hst with hnil | ⟨pre', b', rfl, hbs⟩ | ⟨pre', l, g, cases, cs, rfl, hmem, ⟨q, rfl⟩⟩
  · cases hnil
  · obtain ⟨rfl, rfl⟩ := List.cons.inj hbs
    simp only [labels, List.flatMap_append, List.flatMap_cons, List.flatMap_nil, Instr.labels,
      List.append_nil, List.nodup_append] at hp
    have hpre : b.label ∉ labels pre' := fun hm => hp.1.2.2 _ hm b.label (by simp) rfl
    simp [locate_append hpre, locate]
  · simp only [labels, List.flatMap_append, List.flatMap_cons, List.flatMap_nil, Instr.labels,
      List.append_nil, List.nodup_append] at hp
    obtain ⟨⟨-, hcase, hdisj⟩, -, -⟩ := hp
    obtain ⟨hlab, hcases⟩ := List.nodup_cons.mp hcase
    have hbmem : b.label ∈ blockLabels (q ++ b :: bs) := by simp [blockLabels]
    have hin : b.label ∈ cases.flatMap blockLabels := List.mem_flatMap.mpr ⟨_, hmem, hbmem⟩
    have hpre : b.label ∉ labels pre' := fun hm =>
      hdisj _ hm b.label (List.mem_cons_of_mem _ hin) rfl
    have hl : l ≠ b.label := fun heq => hlab (heq ▸ hin)
    obtain ⟨before, after, rfl⟩ := List.append_of_mem hmem
    simp only [List.flatMap_append, List.flatMap_cons, List.nodup_append] at hcases
    obtain ⟨-, ⟨hcs, -, -⟩, hbefore⟩ := hcases
    have hnone : before.findSome? (fromLabel b.label) = none :=
      List.findSome?_eq_none_iff.mpr fun ds hds => fromLabel_eq_none fun hm =>
        hbefore _ (List.mem_flatMap.mpr ⟨ds, hds, hm⟩) b.label
          (List.mem_append_left _ hbmem) rfl
    have hq : b.label ∉ blockLabels q := fun hm => by
      simp only [blockLabels, List.map_append, List.map_cons, List.nodup_append] at hcs
      exact hcs.2.2 _ hm b.label (by simp) rfl
    simp [locate_append hpre, locate, hl, hnone, fromLabel_append hq]

end Location

section Restart

variable {L B G α σ ρ : Type} [LinearOrder α] {sem : Semantics B G α σ ρ}

/-- Bodies that can be interrupted. A body that completes needs exactly the room up to the position
it ends at; short of that it stops with `out`, keeps the position, and starting it again is
the same as not having started it. -/
structure Restartable (sem : Semantics B G α σ ρ) (pos : σ → α) (lo hi : α) (out : ρ)
    (Ok : B → Prop) : Prop where
  next_pos : ∀ {b e s s'}, Ok b → lo ≤ pos s → pos s ≤ e → e ≤ hi →
    sem.body b e s = some (.next s') → pos s ≤ pos s' ∧ pos s' ≤ e
  next_limit : ∀ {b e e' s s'}, Ok b → lo ≤ pos s → pos s ≤ e → e ≤ hi → e' ≤ hi →
    sem.body b e s = some (.next s') → pos s' ≤ e' → sem.body b e' s = some (.next s')
  next_short : ∀ {b e e' s s'}, Ok b → lo ≤ pos s → pos s ≤ e → e ≤ hi → pos s ≤ e' →
    sem.body b e s = some (.next s') → e' < pos s' → ∃ t, sem.body b e' s = some (.stop out t)
  stop_pos : ∀ {b e s t}, Ok b → sem.body b e s = some (.stop out t) → pos t = pos s
  stop_restart : ∀ {b e s t}, Ok b → sem.body b e s = some (.stop out t) →
    ∀ e', sem.body b e' t = sem.body b e' s
  guard_pos : ∀ {g s s' i}, sem.guard g s = some (s', i) → pos s' = pos s

def AllOk (Ok : B → Prop) (c : Cont L B G) : Prop :=
  (∀ b ∈ c.1, Ok b.body) ∧ ∀ i ∈ c.2, ∀ b ∈ i.blocks, Ok b.body

theorem AllOk.enter {Ok : B → Prop} {b : Block L B} {rest : List (Instr L B G)}
    (h : AllOk Ok ([], .block b :: rest)) : AllOk Ok ([b], rest) :=
  ⟨fun _ hc => h.2 (.block b) (by simp) _ hc, fun i hi => h.2 i (List.mem_cons_of_mem _ hi)⟩

theorem AllOk.select {Ok : B → Prop} {l : L} {g : G} {cases : List (List (Block L B))}
    {rest : List (Instr L B G)} (h : AllOk Ok ([], .branch l g cases :: rest)) (i : Option Nat) :
    AllOk Ok (chosen cases i, rest) := by
  refine ⟨fun b hb => ?_, fun j hj => h.2 j (List.mem_cons_of_mem _ hj)⟩
  rcases chosen_cases cases i with hnil | hmem
  · rw [hnil] at hb
    cases hb
  · exact h.2 (.branch l g cases) (by simp) b (List.mem_flatten.mpr ⟨_, hmem, hb⟩)

theorem AllOk.head {Ok : B → Prop} {b : Block L B} {bs : List (Block L B)}
    {rest : List (Instr L B G)} (h : AllOk Ok (b :: bs, rest)) : Ok b.body :=
  h.1 b (by simp)

theorem AllOk.tail {Ok : B → Prop} {b : Block L B} {bs : List (Block L B)}
    {rest : List (Instr L B G)} (h : AllOk Ok (b :: bs, rest)) : AllOk Ok (bs, rest) :=
  ⟨fun c hc => h.1 c (List.mem_cons_of_mem _ hc), h.2⟩

omit [LinearOrder α] in
theorem Reaches.allOk {Ok : B → Prop} {e : α} {c₀ c : Cont L B G} {s₀ s : σ}
    (h : Reaches sem e c₀ s₀ c s) (h₀ : AllOk Ok c₀) : AllOk Ok c := by
  induction h with
  | refl => exact h₀
  | enter _ ih => exact ih.enter
  | select _ _ ih => exact ih.select _
  | next _ _ ih => exact ih.tail

theorem locate_allOk [DecidableEq L] {Ok : B → Prop} {l : L} {p : List (Instr L B G)}
    {c : Cont L B G} (h : locate l p = some c) (hp : AllOk Ok ([], p)) : AllOk Ok c := by
  induction p with
  | nil => cases h
  | cons i rest ih =>
    have hrest : AllOk Ok ([], rest) := ⟨by simp, fun j hj => hp.2 j (List.mem_cons_of_mem _ hj)⟩
    cases i with
    | block b =>
      simp only [locate] at h
      split at h
      · cases h
        exact hp.enter
      · exact ih h hrest
    | branch l' g cases =>
      simp only [locate] at h
      split at h
      · cases h
        exact hp
      · split at h
        · rename_i bs hbs
          cases h
          obtain ⟨cs, hcs, hfrom⟩ := List.exists_of_findSome?_eq_some hbs
          refine ⟨fun b hb => ?_, hrest.2⟩
          have hsub : b ∈ cs := by
            unfold fromLabel at hfrom
            split at hfrom
            · cases hfrom
            · cases hfrom
              exact (List.dropWhile_sublist _).subset hb
          exact hp.2 (.branch l' g cases) (by simp) b (List.mem_flatten.mpr ⟨cs, hcs, hsub⟩)
        · exact ih h hrest

variable {pos : σ → α} {lo hi : α} {out : ρ} {Ok : B → Prop}
  (hr : Restartable sem pos lo hi out Ok)

include hr

/-- A completed run moves forward and stays within its limit, and every limit that leaves room for
its end position gives the same run. -/
theorem runFrom_limit {c : Cont L B G} (hok : AllOk Ok c) {e : α} {l l' : Option L} {s s' : σ}
    (hlo : lo ≤ pos s) (he : pos s ≤ e) (hhi : e ≤ hi)
    (h : runFrom sem e c l s = some (.done l' s')) :
    pos s ≤ pos s' ∧ pos s' ≤ e ∧
      ∀ e' ≤ hi, pos s' ≤ e' → runFrom sem e' c l s = some (.done l' s') := by
  induction c using Cont.induction generalizing l s with
  | nil =>
    simp only [runFrom_nil, Option.some.injEq, Outcome.done.injEq] at h
    obtain ⟨rfl, rfl⟩ := h
    exact ⟨le_refl _, he, fun e' _ _ => rfl⟩
  | enter b rest ih =>
    rw [runFrom_enter] at h
    simpa using ih hok.enter hlo he h
  | select l₂ g cases rest ih =>
    rw [runFrom_select] at h
    obtain ⟨⟨t, i⟩, hg, h⟩ := Option.bind_eq_some_iff.mp h
    have hpos := hr.guard_pos hg
    obtain ⟨h₁, h₂, h₃⟩ := ih i (hok.select i) (hpos ▸ hlo) (hpos ▸ he) h
    refine ⟨hpos ▸ h₁, h₂, fun e' he' hle => ?_⟩
    simp [hg, h₃ e' he' hle]
  | cons b bs rest ih =>
    rw [runFrom_cons] at h
    obtain ⟨x, hb, h⟩ := Option.bind_eq_some_iff.mp h
    cases x with
    | stop r t => simp at h
    | next t =>
      obtain ⟨hst, hte⟩ := hr.next_pos hok.head hlo he hhi hb
      obtain ⟨h₁, h₂, h₃⟩ := ih hok.tail (hlo.trans hst) hte h
      refine ⟨hst.trans h₁, h₂, fun e' he' hle => ?_⟩
      simp [hr.next_limit hok.head hlo he hhi he' hb (h₁.trans hle), h₃ e' he' hle]

/-- With less room than a completed run needs, the run stops with `out` at a block from which the
completed run can still be had. -/
theorem runFrom_short {c : Cont L B G} (hok : AllOk Ok c) {e e' : α} {l l' : Option L} {s s' : σ}
    (hlo : lo ≤ pos s) (he : pos s ≤ e) (hhi : e ≤ hi)
    (h : runFrom sem e c l s = some (.done l' s'))
    (he' : pos s ≤ e') (hhi' : e' ≤ hi) (hshort : e' < pos s') :
    ∃ b bs rest t, runFrom sem e' c l s = some (.stopped out b.label t) ∧
      (∀ p, Located p c → Located p (b :: bs, rest)) ∧ AllOk Ok (b :: bs, rest) ∧
      pos s ≤ pos t ∧ pos t ≤ e' ∧ ∀ l₂, runFrom sem e (b :: bs, rest) l₂ t = some (.done l' s') := by
  induction c using Cont.induction generalizing l s with
  | nil =>
    simp only [runFrom_nil, Option.some.injEq, Outcome.done.injEq] at h
    exact absurd hshort (by rw [← h.2]; exact not_lt.mpr he')
  | enter b rest ih =>
    rw [runFrom_enter] at h ⊢
    obtain ⟨b', bs, rest', t, hrun, hloc, hrest⟩ := ih hok.enter hlo he h he'
    exact ⟨b', bs, rest', t, hrun, fun p hp => hloc p hp.enter, hrest⟩
  | select l₂ g cases rest ih =>
    rw [runFrom_select] at h ⊢
    obtain ⟨⟨u, i⟩, hg, h⟩ := Option.bind_eq_some_iff.mp h
    have hpos := hr.guard_pos hg
    obtain ⟨b', bs, rest', t, hrun, hloc, hall, hst, hrest⟩ :=
      ih i (hok.select i) (hpos ▸ hlo) (hpos ▸ he) h (hpos ▸ he')
    exact ⟨b', bs, rest', t, by simpa [hg] using hrun, fun p hp => hloc p (hp.select i), hall,
      hpos ▸ hst, hrest⟩
  | cons b bs rest ih =>
    rw [runFrom_cons] at h
    obtain ⟨x, hb, h⟩ := Option.bind_eq_some_iff.mp h
    cases x with
    | stop r u => simp at h
    | next u =>
      obtain ⟨hsu, hue⟩ := hr.next_pos hok.head hlo he hhi hb
      by_cases hue' : pos u ≤ e'
      · have hb' := hr.next_limit hok.head hlo he hhi hhi' hb hue'
        obtain ⟨b', bs', rest', t, hrun, hloc, hall, hst, hrest⟩ :=
          ih hok.tail (hlo.trans hsu) hue h hue'
        exact ⟨b', bs', rest', t, by simpa [hb'] using hrun, fun p hp => hloc p hp.next, hall,
          hsu.trans hst, hrest⟩
      · obtain ⟨t, hstop⟩ := hr.next_short hok.head hlo he hhi he' hb (not_le.mp hue')
        have hpos := hr.stop_pos hok.head hstop
        refine ⟨b, bs, rest, t, by simp [hstop], fun p hp => hp, hok, hpos ▸ le_refl _,
          hpos ▸ he', fun l₂ => ?_⟩
        rw [runFrom_cons, hr.stop_restart hok.head hstop e, hb]
        exact h

omit hr in
/-- An interrupted run of `p` at limit `e`: starting it again at label `l` ends at `l'`, `s'`. -/
def Pending (sem : Semantics B G α σ ρ) (Ok : B → Prop) (p : List (Instr L B G)) (e : α)
    (l : L) (s : σ) (l' : Option L) (s' : σ) : Prop :=
  ∃ b bs rest, b.label = l ∧ Located p (b :: bs, rest) ∧ AllOk Ok (b :: bs, rest) ∧
    ∀ l₂, runFrom sem e (b :: bs, rest) l₂ s = some (.done l' s')

variable {p : List (Instr L B G)} {e e' : α} {l' : Option L} {s s' : σ}

theorem run_completed (hok : AllOk Ok ([], p)) {l : Option L} (hlo : lo ≤ pos s) (he : pos s ≤ e)
    (hhi : e ≤ hi) (h : run sem e p l s = some (.done l' s')) (hhi' : e' ≤ hi)
    (hroom : pos s' ≤ e') : run sem e' p l s = some (.done l' s') := by
  rw [run_eq_runFrom] at h ⊢
  exact (runFrom_limit hr hok hlo he hhi h).2.2 e' hhi' hroom

theorem run_interrupted (hok : AllOk Ok ([], p)) {l : Option L} (hlo : lo ≤ pos s)
    (he : pos s ≤ e) (hhi : e ≤ hi) (h : run sem e p l s = some (.done l' s'))
    (he' : pos s ≤ e') (hhi' : e' ≤ hi) (hshort : e' < pos s') :
    ∃ l₂ t, run sem e' p l s = some (.stopped out l₂ t) ∧ Pending sem Ok p e l₂ t l' s' ∧
      pos s ≤ pos t ∧ pos t ≤ e' := by
  rw [run_eq_runFrom] at h
  obtain ⟨b, bs, rest, t, hrun, hloc, hall, hst, hte, hrest⟩ :=
    runFrom_short hr hok hlo he hhi h he' hhi' hshort
  exact ⟨b.label, t, by rw [run_eq_runFrom, hrun], ⟨b, bs, rest, rfl, hloc p .start, hall, hrest⟩,
    hst, hte⟩

variable [DecidableEq L] {l : L}

theorem resume_completed (hp : (labels p).Nodup) (hpend : Pending sem Ok p e l s l' s')
    (hlo : lo ≤ pos s) (he : pos s ≤ e) (hhi : e ≤ hi) (hhi' : e' ≤ hi) (hroom : pos s' ≤ e') :
    resume sem e' p l s = some (.done l' s') := by
  obtain ⟨b, bs, rest, rfl, hloc, hall, hrun⟩ := hpend
  simp only [resume, hloc.locate_eq hp, Option.bind_some]
  exact (runFrom_limit hr hall hlo he hhi (hrun _)).2.2 e' hhi' hroom

theorem resume_interrupted (hp : (labels p).Nodup) (hpend : Pending sem Ok p e l s l' s')
    (hlo : lo ≤ pos s) (he : pos s ≤ e) (hhi : e ≤ hi) (he' : pos s ≤ e') (hhi' : e' ≤ hi)
    (hshort : e' < pos s') :
    ∃ l₂ t, resume sem e' p l s = some (.stopped out l₂ t) ∧ Pending sem Ok p e l₂ t l' s' ∧
      pos s ≤ pos t ∧ pos t ≤ e' := by
  obtain ⟨b, bs, rest, rfl, hloc, hall, hrun⟩ := hpend
  obtain ⟨b', bs', rest', t, hrun', hloc', hall', hst, hte, hrest⟩ :=
    runFrom_short hr hall hlo he hhi (hrun (some b.label)) he' hhi' hshort
  refine ⟨b'.label, t, ?_, ⟨b', bs', rest', rfl, hloc' p hloc, hall', hrest⟩, hst, hte⟩
  simp only [resume, hloc.locate_eq hp, Option.bind_some, hrun']

end Restart

section Calls

variable {L B G α σ ρ : Type} [LinearOrder α] {sem : Semantics B G α σ ρ} {Ok : B → Prop}

/-- A property of states that every step of a run against the limit keeps. -/
structure Invariant (sem : Semantics B G α σ ρ) (Ok : B → Prop) (I : α → σ → Prop) : Prop where
  body : ∀ {b e s x}, Ok b → I e s → sem.body b e s = some x → I e x.state
  guard : ∀ {g e s s' i}, I e s → sem.guard g s = some (s', i) → I e s'
  mono : ∀ {e e' s}, e ≤ e' → I e s → I e' s

theorem Invariant.runFrom {I : α → σ → Prop} (hI : Invariant sem Ok I) {c : Cont L B G}
    (hok : AllOk Ok c) {e : α} {l : Option L} {s : σ} (hs : I e s) {oc : Outcome L σ ρ}
    (h : runFrom sem e c l s = some oc) : I e oc.state := by
  induction c using Cont.induction generalizing l s with
  | nil =>
    cases h
    exact hs
  | enter b rest ih =>
    rw [runFrom_enter] at h
    exact ih hok.enter hs h
  | select l₂ g cases rest ih =>
    rw [runFrom_select] at h
    obtain ⟨⟨t, i⟩, hg, h⟩ := Option.bind_eq_some_iff.mp h
    exact ih i (hok.select i) (hI.guard hs hg) h
  | cons b bs rest ih =>
    rw [runFrom_cons] at h
    obtain ⟨x, hb, h⟩ := Option.bind_eq_some_iff.mp h
    have hx := hI.body hok.head hs hb
    cases x with
    | next t => exact ih hok.tail hx h
    | stop r t =>
      cases h
      exact hx

variable [DecidableEq L] {pos : σ → α} {lo whole : α} {out : ρ} {I : α → σ → Prop}
  {p : List (Instr L B G)} {ω : Type} {call : α → ω → Option (ρ × ω)}
  {finish : Outcome L σ ρ → ρ × ω} {suspended : L → σ → ω} {s' : σ} {l' : Option L} {last : α}

/-- The calls after a first one that was interrupted. -/
theorem calls_suspended (hr : Restartable sem pos lo whole out Ok) (hI : Invariant sem Ok I)
    (hp : (labels p).Nodup) (hfinish : ∀ r l s, finish (.stopped r l s) = (r, suspended l s))
    (hcall : ∀ l s e, call e (suspended l s) = (resume sem e p l s).map finish) {l : L} {s : σ}
    (hpend : Pending sem Ok p whole l s l' s') (hlo : lo ≤ pos s) {ends : List α}
    (hinc : (pos s :: (ends ++ [last])).Pairwise (· ≤ ·)) (hlast : last ≤ whole)
    (hshort : ∀ e ∈ ends, e < pos s') (hlong : pos s' ≤ last) (hs : ∀ e ∈ ends, I e s) :
    ∃ mid, calls call (ends ++ [last]) (suspended l s) = some (mid ++ [finish (.done l' s')]) ∧
      List.Forall₂ (fun e r => r.1 = out ∧ ∃ l t, r.2 = suspended l t ∧ I e t) ends mid := by
  induction ends generalizing l s with
  | nil =>
    have hle : pos s ≤ last := by simpa using hinc
    have hres := resume_completed hr hp hpend hlo (hle.trans hlast) (le_refl _) hlast hlong
    exact ⟨[], by simp [calls, hcall, hres], .nil⟩
  | cons e ends ih =>
    obtain ⟨hle, hinc⟩ := List.pairwise_cons.mp hinc
    obtain ⟨hle', hrest⟩ := List.pairwise_cons.mp hinc
    have hse : pos s ≤ e := hle e (by simp)
    have hewhole : e ≤ whole := (hle' last (by simp)).trans hlast
    obtain ⟨l₂, t, hres, hpend', hst, hte⟩ := resume_interrupted hr hp hpend hlo
      (hse.trans hewhole) (le_refl _) hse hewhole (hshort e (by simp))
    have ht : I e t := by
      obtain ⟨b, bs, rest, rfl, hloc, hall, -⟩ := hpend
      simp only [resume, hloc.locate_eq hp, Option.bind_some] at hres
      exact hI.runFrom hall (hs e (by simp)) hres
    obtain ⟨mid, hcalls, hmid⟩ := ih hpend' (hlo.trans hst)
      (List.pairwise_cons.mpr ⟨fun a ha => hte.trans (hle' a ha), hrest⟩)
      (fun a ha => hshort a (List.mem_cons_of_mem _ ha))
      fun a ha => hI.mono (hle' a (List.mem_append_left _ ha)) ht
    exact ⟨(out, suspended l₂ t) :: mid, by simp [calls, hcall, hres, hfinish, hcalls],
      .cons ⟨rfl, l₂, t, rfl, ht⟩ hmid⟩

/-- Calls against growing limits, the first from the beginning: while the limit is short of the end
position of the whole run they return `out`, and the first that is not ends as the whole run. -/
theorem calls_started (hr : Restartable sem pos lo whole out Ok) (hI : Invariant sem Ok I)
    (hp : (labels p).Nodup) (hok : AllOk Ok ([], p))
    (hfinish : ∀ r l s, finish (.stopped r l s) = (r, suspended l s))
    (hcall : ∀ l s e, call e (suspended l s) = (resume sem e p l s).map finish) {w : ω} {s : σ}
    (hstart : ∀ e, call e w = (run sem e p none s).map finish)
    (hwhole : run sem whole p none s = some (.done l' s')) (hlo : lo ≤ pos s) {ends : List α}
    (hinc : (pos s :: (ends ++ [last])).Pairwise (· ≤ ·)) (hlast : last ≤ whole)
    (hshort : ∀ e ∈ ends, e < pos s') (hlong : pos s' ≤ last) (hs : ∀ e ∈ ends, I e s) :
    ∃ mid, calls call (ends ++ [last]) w = some (mid ++ [finish (.done l' s')]) ∧
      List.Forall₂ (fun e r => r.1 = out ∧ ∃ l t, r.2 = suspended l t ∧ I e t) ends mid := by
  cases ends with
  | nil =>
    have hle : pos s ≤ last := by simpa using hinc
    have hdone := run_completed hr hok hlo (hle.trans hlast) (le_refl _) hwhole hlast hlong
    exact ⟨[], by simp [calls, hstart, hdone], .nil⟩
  | cons e ends =>
    obtain ⟨hle, hinc⟩ := List.pairwise_cons.mp hinc
    obtain ⟨hle', hrest⟩ := List.pairwise_cons.mp hinc
    have hse : pos s ≤ e := hle e (by simp)
    have hewhole : e ≤ whole := (hle' last (by simp)).trans hlast
    obtain ⟨l₂, t, hstop, hpend, hst, hte⟩ := run_interrupted hr hok hlo (hse.trans hewhole)
      (le_refl _) hwhole hse hewhole (hshort e (by simp))
    have ht : I e t := by
      have hstop' := hstop
      rw [run_eq_runFrom] at hstop'
      exact hI.runFrom hok (hs e (by simp)) hstop'
    obtain ⟨mid, hcalls, hmid⟩ := calls_suspended hr hI hp hfinish hcall hpend (hlo.trans hst)
      (List.pairwise_cons.mpr ⟨fun a ha => hte.trans (hle' a ha), hrest⟩) hlast
      (fun a ha => hshort a (List.mem_cons_of_mem _ ha)) hlong
      fun a ha => hI.mono (hle' a (List.mem_append_left _ ha)) ht
    exact ⟨(out, suspended l₂ t) :: mid, by simp [calls, hstart, hstop, hfinish, hcalls],
      .cons ⟨rfl, l₂, t, rfl, ht⟩ hmid⟩

end Calls

end Resumable
