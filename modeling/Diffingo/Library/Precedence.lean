import Mathlib.Data.List.Basic

/-!
# Shift-reduce parsing of operator expressions

The grammar `e → id | ! e | e o e | ( e )` is ambiguous. A shift-reduce parser for it is fixed by a
table, which says for each rule whose right end is on top of the stack and each operator token that
comes next whether the rule is completed first or the token is shifted. Among the trees with the
same tokens exactly one agrees with the table at every operator, and this is the one the parser
builds.
-/

namespace Precedence

inductive Token (α ω : Type*)
  | id (a : α)
  | bang
  | op (o : ω)
  | lparen
  | rparen
  deriving DecidableEq

/-- The parse trees of the grammar. -/
inductive Tree (α ω : Type*)
  | id (a : α)
  | not (t : Tree α ω)
  | binary (o : ω) (l r : Tree α ω)
  | paren (t : Tree α ω)
  deriving DecidableEq

/-- Is a rule completed before the operator is shifted? The rule `! e` is `none`. -/
abbrev Table (ω : Type*) := Option ω → ω → Bool

variable {α ω : Type*}

namespace Tree

def tokens : Tree α ω → List (Token α ω)
  | .id a => [.id a]
  | .not t => .bang :: t.tokens
  | .binary o l r => l.tokens ++ .op o :: r.tokens
  | .paren t => .lparen :: (t.tokens ++ [.rparen])

/-- The operators whose left operand begins where the tree begins, the innermost first. -/
def leftSpine : Tree α ω → List ω
  | .binary o l _ => l.leftSpine ++ [o]
  | _ => []

/-- The rules whose last operand ends where the tree ends, the outermost first. -/
def rightSpine : Tree α ω → List (Option ω)
  | .binary o _ r => some o :: r.rightSpine
  | .not t => none :: t.rightSpine
  | _ => []

/-- The tree agrees with the table: what stands to the left of an operator was completed before it,
and an operator inside a last operand was shifted. -/
def Resolved (T : Table ω) : Tree α ω → Prop
  | .id _ => True
  | .not t => t.Resolved T ∧ ∀ o ∈ t.leftSpine, T none o = false
  | .binary q l r => l.Resolved T ∧ r.Resolved T ∧ (∀ p ∈ l.rightSpine, T p q = true) ∧
      ∀ o ∈ r.leftSpine, T (some q) o = false
  | .paren t => t.Resolved T

end Tree

/-- What stands on the stack to the left of an operand. -/
inductive Frame (α ω : Type*)
  | op (l : Tree α ω) (o : ω)
  | bang
  | lparen

namespace Frame

/-- The rule that the operand to the right would complete. -/
def rule? : Frame α ω → Option (Option ω)
  | .op _ o => some (some o)
  | .bang => some none
  | .lparen => none

def complete (t : Tree α ω) : Frame α ω → Tree α ω
  | .op l o => .binary o l t
  | .bang => .not t
  | .lparen => .paren t

def tokens : Frame α ω → List (Token α ω)
  | .op l o => l.tokens ++ [.op o]
  | .bang => [.bang]
  | .lparen => [.lparen]

end Frame

/-- Complete rules on the stack as long as `g` allows it. -/
def reduce (g : Option ω → Bool) (t : Tree α ω) : List (Frame α ω) → Tree α ω × List (Frame α ω)
  | [] => (t, [])
  | f :: fs => if f.rule?.any g then reduce g (f.complete t) fs else (t, f :: fs)

/-- A configuration: the operand that has just ended, if any, and the stack to its left. -/
structure State (α ω : Type*) where
  top : Option (Tree α ω)
  frames : List (Frame α ω)

/-- One token. Where no operator comes next every rule on the stack is completed. -/
def step (T : Table ω) : State α ω → Token α ω → Option (State α ω)
  | ⟨none, fs⟩, .id a => some ⟨some (.id a), fs⟩
  | ⟨none, fs⟩, .bang => some ⟨none, .bang :: fs⟩
  | ⟨none, fs⟩, .lparen => some ⟨none, .lparen :: fs⟩
  | ⟨some t, fs⟩, .op o =>
    let r := reduce (T · o) t fs
    some ⟨none, .op r.1 o :: r.2⟩
  | ⟨some t, fs⟩, .rparen =>
    match reduce (fun _ => true) t fs with
    | (t', .lparen :: fs') => some ⟨some (.paren t'), fs'⟩
    | _ => none
  | _, _ => none

def finish : State α ω → Option (Tree α ω)
  | ⟨some t, fs⟩ =>
    match reduce (fun _ => true) t fs with
    | (t', []) => some t'
    | _ => none
  | _ => none

def run (T : Table ω) (st : State α ω) (ts : List (Token α ω)) : Option (State α ω) :=
  ts.foldlM (step T) st

def parse (T : Table ω) (ts : List (Token α ω)) : Option (Tree α ω) :=
  (run T ⟨none, []⟩ ts).bind finish

variable {T : Table ω} {g : Option ω → Bool} {t : Tree α ω} {f : Frame α ω} {fs : List (Frame α ω)}

theorem reduce_cons_of (h : f.rule?.any g = true) :
    reduce g t (f :: fs) = reduce g (f.complete t) fs := by
  simp [reduce, h]

theorem reduce_cons_of_not (h : f.rule?.any g = false) : reduce g t (f :: fs) = (t, f :: fs) := by
  simp [reduce, h]

@[simp] theorem run_nil (st : State α ω) : run T st [] = some st := rfl

@[simp] theorem run_cons (st : State α ω) (k : Token α ω) (ts : List (Token α ω)) :
    run T st (k :: ts) = (step T st k).bind fun s => run T s ts := rfl

theorem run_append (st : State α ω) (ts us : List (Token α ω)) :
    run T st (ts ++ us) = (run T st ts).bind fun s => run T s us := List.foldlM_append

/-! ### The parser finds the tree that agrees with the table -/

section Complete

/-- The stack once a tree has been read: the rules of its right spine are still open. -/
def unwind : Tree α ω → List (Frame α ω) → Tree α ω × List (Frame α ω)
  | .not t, fs => unwind t (.bang :: fs)
  | .binary o l r, fs => unwind r (.op l o :: fs)
  | t, fs => (t, fs)

theorem reduce_unwind (t : Tree α ω) (fs : List (Frame α ω))
    (h : ∀ p ∈ t.rightSpine, g p = true) :
    reduce g (unwind t fs).1 (unwind t fs).2 = reduce g t fs := by
  induction t generalizing fs with
  | id a => rfl
  | paren t => rfl
  | not t ih =>
    rw [unwind, ih _ fun p hp => h p (List.mem_cons_of_mem _ hp)]
    exact reduce_cons_of (h none List.mem_cons_self)
  | binary o l r _ ih =>
    rw [unwind, ih _ fun p hp => h p (List.mem_cons_of_mem _ hp)]
    exact reduce_cons_of (h (some o) List.mem_cons_self)

/-- The rule on top of the stack stays open at each of the operators. -/
def Stops (T : Table ω) (fs : List (Frame α ω)) (os : List ω) : Prop :=
  ∀ f ∈ fs.head?, ∀ p ∈ f.rule?, ∀ o ∈ os, T p o = false

theorem reduce_of_stops {o : ω} (h : Stops T fs [o]) : reduce (T · o) t fs = (t, fs) := by
  cases fs with
  | nil => rfl
  | cons f fs =>
    refine reduce_cons_of_not ?_
    cases hf : f.rule? with
    | none => rfl
    | some p => simpa using h f rfl p hf o (by simp)

theorem Stops.mono {os os' : List ω} (h : Stops T fs os) (hsub : os' ⊆ os) : Stops T fs os' :=
  fun f hf p hp o ho => h f hf p hp o (hsub ho)

theorem run_of_resolved (h : t.Resolved T) (hs : Stops T fs t.leftSpine) :
    run T ⟨none, fs⟩ t.tokens = some ⟨(unwind t fs).1, (unwind t fs).2⟩ := by
  induction t generalizing fs with
  | id a => rfl
  | not t ih =>
    refine ih h.1 ?_
    rintro f ⟨⟩ p ⟨⟩
    exact h.2
  | binary q l r ihl ihr =>
    obtain ⟨hl, hr, hlq, hqr⟩ := h
    have hstop : Stops T fs [q] := hs.mono (by simp [Tree.leftSpine])
    have hread := ihl hl (hs.mono (by simp [Tree.leftSpine]))
    rw [Tree.tokens, run_append, hread, Option.bind_some, run_cons, step,
      reduce_unwind l fs hlq, reduce_of_stops hstop]
    refine ihr hr ?_
    rintro f ⟨⟩ p ⟨⟩
    exact hqr
  | paren t ih =>
    have hread : run T ⟨none, .lparen :: fs⟩ t.tokens = _ := ih h (by rintro f ⟨⟩ p ⟨⟩)
    rw [Tree.tokens, run_cons, step, Option.bind_some, run_append, hread, Option.bind_some,
      run_cons, step, reduce_unwind t _ fun _ _ => rfl, reduce_cons_of_not rfl]
    rfl

theorem parse_of_resolved (h : t.Resolved T) : parse T t.tokens = some t := by
  rw [parse, run_of_resolved h (by rintro f ⟨⟩), Option.bind_some, finish,
    reduce_unwind t _ fun _ _ => rfl, reduce]

end Complete

/-! ### Every expression is accepted, and its tree agrees with the table -/

section Accept

/-- The stack from the innermost open parenthesis on. -/
def outer (fs : List (Frame α ω)) : List (Frame α ω) := fs.dropWhile fun f => f.rule?.isSome

theorem outer_reduce : outer (reduce g t fs).2 = outer fs := by
  induction fs generalizing t with
  | nil => rfl
  | cons f fs ih =>
    by_cases hf : f.rule?.any g = true
    · rw [reduce_cons_of hf, ih]
      cases f <;> simp [outer, Frame.rule?] at hf ⊢
    · rw [reduce_cons_of_not (by simpa using hf)]

theorem reduce_all : (reduce (fun _ => true) t fs).2 = outer fs := by
  induction fs generalizing t with
  | nil => rfl
  | cons f fs ih =>
    cases f with
    | lparen => rfl
    | _ => exact ih

theorem run_tokens (t : Tree α ω) (fs : List (Frame α ω)) :
    ∃ t' fs', run T ⟨none, fs⟩ t.tokens = some ⟨some t', fs'⟩ ∧ outer fs' = outer fs := by
  induction t generalizing fs with
  | id a => exact ⟨.id a, fs, rfl, rfl⟩
  | not t ih => exact ih (.bang :: fs)
  | binary q l r ihl ihr =>
    obtain ⟨l', ls, hl, hls⟩ := ihl fs
    obtain ⟨r', rs, hr, hrs⟩ := ihr (.op (reduce (T · q) l' ls).1 q :: (reduce (T · q) l' ls).2)
    refine ⟨r', rs, ?_, ?_⟩
    · rw [Tree.tokens, run_append, hl, Option.bind_some, run_cons, step, Option.bind_some, hr]
    · rw [hrs, ← hls]
      exact outer_reduce
  | paren t ih =>
    obtain ⟨t', fs', ht, hfs⟩ := ih (.lparen :: fs)
    have hall : (reduce (fun _ => true) t' fs').2 = .lparen :: fs := by rw [reduce_all, hfs]; rfl
    refine ⟨.paren (reduce (fun _ => true) t' fs').1, fs, ?_, rfl⟩
    rw [Tree.tokens, run_cons, step, Option.bind_some, run_append, ht, Option.bind_some, run_cons,
      step]
    split
    · next h => simp_all
    · next h => exact (h _ _ (Prod.ext rfl hall)).elim

/-- The tokens on the stack. -/
def before : List (Frame α ω) → List (Token α ω)
  | [] => []
  | f :: fs => before fs ++ f.tokens

def State.tokens (st : State α ω) : List (Token α ω) :=
  before st.frames ++ (st.top.map Tree.tokens).getD []

theorem tokens_reduce (g : Option ω → Bool) (t : Tree α ω) (fs : List (Frame α ω)) :
    before (reduce g t fs).2 ++ (reduce g t fs).1.tokens = before fs ++ t.tokens := by
  induction fs generalizing t with
  | nil => rfl
  | cons f fs ih =>
    by_cases hf : f.rule?.any g = true
    · rw [reduce_cons_of hf, ih]
      cases f <;> simp [Frame.rule?, Frame.complete, Tree.tokens, before, Frame.tokens] at hf ⊢
    · rw [reduce_cons_of_not (by simpa using hf)]

/-- Every rule on the stack agrees with the table as far as it has been read. -/
def Chain (T : Table ω) : List (Frame α ω) → Prop
  | [] => True
  | .op l o :: fs => l.Resolved T ∧ (∀ p ∈ l.rightSpine, T p o = true) ∧
      Stops T fs (l.leftSpine ++ [o]) ∧ Chain T fs
  | _ :: fs => Chain T fs

/-- The last operand is a single identifier or stands in parentheses, and what has been read agrees
with the table. -/
structure Good (T : Table ω) (st : State α ω) : Prop where
  chain : Chain T st.frames
  top : ∀ t ∈ st.top, t.Resolved T ∧ t.leftSpine = [] ∧ t.rightSpine = []

theorem reduce_good (ht : t.Resolved T) (hs : Stops T fs t.leftSpine)
    (hr : ∀ p ∈ t.rightSpine, g p = true) (hc : Chain T fs) :
    (reduce g t fs).1.Resolved T ∧ (∀ p ∈ (reduce g t fs).1.rightSpine, g p = true) ∧
      Stops T (reduce g t fs).2 (reduce g t fs).1.leftSpine ∧ Chain T (reduce g t fs).2 := by
  induction fs generalizing t with
  | nil => exact ⟨ht, hr, hs, hc⟩
  | cons f fs ih =>
    by_cases hf : f.rule?.any g = true
    · rw [reduce_cons_of hf]
      cases f with
      | lparen => exact absurd hf (by simp [Frame.rule?])
      | bang =>
        refine ih ⟨ht, hs _ rfl _ rfl⟩ (by rintro _ - _ - _ ⟨⟩) ?_ hc
        intro p hp
        rcases List.mem_cons.mp hp with rfl | hp
        · simpa [Frame.rule?] using hf
        · exact hr p hp
      | op l o =>
        obtain ⟨hl, hlo, hstop, hchain⟩ := hc
        refine ih ⟨hl, ht, hlo, hs _ rfl _ rfl⟩ hstop ?_ hchain
        intro p hp
        rcases List.mem_cons.mp hp with rfl | hp
        · simpa [Frame.rule?] using hf
        · exact hr p hp
    · rw [reduce_cons_of_not (by simpa using hf)]
      exact ⟨ht, hr, hs, hc⟩

/-- Where the parser stops completing rules, the one on top of the stack stays open. -/
theorem reduce_stops (o : ω) : Stops T (reduce (T · o) t fs).2 [o] := by
  induction fs generalizing t with
  | nil => rintro f ⟨⟩
  | cons f fs ih =>
    by_cases hf : f.rule?.any (T · o) = true
    · rw [reduce_cons_of hf]
      exact ih
    · rw [reduce_cons_of_not (by simpa using hf)]
      rintro _ ⟨⟩ p hp _ ho
      obtain rfl := List.mem_singleton.mp ho
      rw [Option.mem_def.mp hp] at hf
      simpa using hf

variable {st st' : State α ω} {k : Token α ω} {ts : List (Token α ω)}

theorem step_good (h : Good T st) (hstep : step T st k = some st') :
    Good T st' ∧ st'.tokens = st.tokens ++ [k] := by
  obtain ⟨hc, htop⟩ := h
  unfold step at hstep
  split at hstep
  · cases hstep
    exact ⟨⟨hc, by rintro _ ⟨⟩; exact ⟨trivial, rfl, rfl⟩⟩, by simp [State.tokens, Tree.tokens]⟩
  · cases hstep
    exact ⟨⟨hc, by rintro _ ⟨⟩⟩, by simp [State.tokens, before, Frame.tokens]⟩
  · cases hstep
    exact ⟨⟨hc, by rintro _ ⟨⟩⟩, by simp [State.tokens, before, Frame.tokens]⟩
  · next t fs o =>
    cases hstep
    obtain ⟨ht, hleft, hright⟩ := htop t rfl
    obtain ⟨hres, hspine, hstop, hchain⟩ := reduce_good (g := (T · o)) ht
      (by rw [hleft]; rintro _ - _ - _ ⟨⟩) (by simp [hright]) hc
    refine ⟨⟨⟨hres, hspine, ?_, hchain⟩, by rintro _ ⟨⟩⟩, ?_⟩
    · intro f hf p hp o' ho'
      rcases List.mem_append.mp ho' with ho' | ho'
      · exact hstop f hf p hp o' ho'
      · exact reduce_stops o f hf p hp o' ho'
    · have hkept := tokens_reduce (T · o) t fs
      simp only [State.tokens, before, Frame.tokens, Option.map_none, Option.getD_none,
        List.append_nil, Option.map_some, Option.getD_some, ← List.append_assoc]
      rw [hkept]
  · next t fs =>
    obtain ⟨ht, hleft, hright⟩ := htop t rfl
    have hgood := reduce_good (g := fun _ => true) ht
      (by rw [hleft]; rintro _ - _ - _ ⟨⟩) (by simp [hright]) hc
    have hkept := tokens_reduce (fun _ => true) t fs
    split at hstep
    · next t' fs' hreduce =>
      cases hstep
      rw [hreduce] at hgood hkept
      refine ⟨⟨hgood.2.2.2, by rintro _ ⟨⟩; exact ⟨hgood.1, rfl, rfl⟩⟩, ?_⟩
      simp only [before, Frame.tokens, List.append_assoc] at hkept
      simp [State.tokens, Tree.tokens, ← hkept]
    · cases hstep
  · cases hstep

theorem run_good (h : Good T st) (hrun : run T st ts = some st') :
    Good T st' ∧ st'.tokens = st.tokens ++ ts := by
  induction ts generalizing st with
  | nil =>
    cases hrun
    exact ⟨h, by simp⟩
  | cons k ts ih =>
    rw [run_cons, Option.bind_eq_some_iff] at hrun
    obtain ⟨s, hstep, hrest⟩ := hrun
    obtain ⟨hs, hk⟩ := step_good h hstep
    obtain ⟨hst, hts⟩ := ih hs hrest
    exact ⟨hst, by rw [hts, hk, List.append_assoc, List.singleton_append]⟩

/-- Every expression is accepted. The tree has the same tokens and agrees with the table. -/
theorem parse_tokens (T : Table ω) (t : Tree α ω) :
    ∃ t', parse T t.tokens = some t' ∧ t'.tokens = t.tokens ∧ t'.Resolved T := by
  obtain ⟨top, fs, hrun, houter⟩ := run_tokens (T := T) t []
  have hinit : Good T (⟨none, []⟩ : State α ω) := ⟨trivial, by rintro _ ⟨⟩⟩
  obtain ⟨⟨hc, htop⟩, htokens⟩ := run_good hinit hrun
  obtain ⟨ht, hleft, hright⟩ := htop top rfl
  have hgood := reduce_good (g := fun _ => true) ht
    (by rw [hleft]; rintro _ - _ - _ ⟨⟩) (by simp [hright]) hc
  have hkept := tokens_reduce (fun _ => true) top fs
  have hall : (reduce (fun _ => true) top fs).2 = [] := reduce_all.trans houter
  refine ⟨(reduce (fun _ => true) top fs).1, ?_, ?_, hgood.1⟩
  · rw [parse, hrun, Option.bind_some, finish]
    split
    · next h => rw [h]
    · next h => exact (h _ (Prod.ext rfl hall)).elim
  · rw [hall] at hkept
    simpa [State.tokens, before] using hkept.trans htokens

end Accept

/-- No two trees with the same tokens agree with the table. -/
theorem resolved_unique {t' : Tree α ω} (h : t.Resolved T) (h' : t'.Resolved T)
    (htokens : t.tokens = t'.tokens) : t = t' :=
  Option.some.inj ((parse_of_resolved h).symm.trans (htokens ▸ parse_of_resolved h'))

end Precedence
