import Diffingo.Library.Precedence
import Diffingo.Generation.Comparisons

/-!
# The expression grammar

The rules of `expr` and `expr2` for identifiers, parentheses, `!` and the binary operators. The
rules are ambiguous. The precedence declarations settle a conflict only if both the rule and the
next token have a precedence, and otherwise the token is shifted; `*` and `!` have none, and `&&`
shares its level with `||`.
-/

namespace Diffingo.Spec.Grammar

open Precedence Diffingo.Generation

/-- The binary operator tokens. -/
inductive Infix
  | or | and | eq | neq | leq | geq | less | greater | plus | minus | mult
  deriving DecidableEq, Repr

namespace Infix

/-- The position among the `%left` declarations, where `DARROW` has the first. -/
def precedence : Infix → Option Nat
  | .or | .and => some 2
  | .eq | .neq | .leq | .geq | .less | .greater => some 3
  | .plus | .minus => some 4
  | .mult => none

/-- The actions of the rules `expr op expr`. -/
def action : Infix → Expr → Expr → Expr
  | .or => .binary .logicalOr
  | .and => .binary .logicalAnd
  | .eq => .binary .equal
  | .less => .binary .less
  | .plus => .binary .plus
  | .minus => .binary .minus
  | .mult => .binary .mult
  | .neq => fun a b => Comparison.neq.form.expr a b
  | .leq => fun a b => Comparison.leq.form.expr a b
  | .geq => fun a b => Comparison.geq.form.expr a b
  | .greater => fun a b => Comparison.greater.form.expr a b

end Infix

/-- How the parser generator settles a conflict between a rule and a token. A rule has the
precedence of its last token, and all declarations are `%left`. -/
def conflicts : Table Infix := fun rule token =>
  match rule.bind Infix.precedence, token.precedence with
  | some p, some q => q ≤ p
  | _, _ => false

abbrev Source := Tree (List String) Infix

abbrev Symbol := Token (List String) Infix

/-- The expression that the actions build. -/
def build : Source → Expr
  | .id path => .id path
  | .not t => .unary .not (build t)
  | .binary o l r => o.action (build l) (build r)
  | .paren t => build t

/-- The usual order of the operators, with the loosest first. -/
def rank : Option Infix → Nat
  | some .or => 1
  | some .and => 2
  | some .eq | some .neq | some .leq | some .geq | some .less | some .greater => 3
  | some .plus | some .minus => 4
  | some .mult => 5
  | none => 6

/-- How tightly the outermost rule of a tree binds. -/
def tightness : Source → Nat
  | .binary o _ _ => rank (some o)
  | .not _ => rank none
  | _ => 7

/-- The tree follows the usual precedence: no operand binds looser than its operator, and the right
one binds tighter. -/
def Conventional : Source → Prop
  | .id _ => True
  | .not t => Conventional t ∧ rank none ≤ tightness t
  | .binary o l r => Conventional l ∧ Conventional r ∧ rank (some o) ≤ tightness l ∧
      rank (some o) < tightness r
  | .paren t => Conventional t

/-- A binary operator that comes after the rule at the same level of parentheses is grouped in
another way than usual. -/
def clash : Option Infix → Infix → Bool
  | none, _ => true
  | some .mult, _ => true
  | some .or, .and => true
  | _, _ => false

/-- No token clashes with one before it at the same level of parentheses. The rules that have been
seen at the current level and at those around it are kept. -/
def plain (seen : List (Option Infix)) (around : List (List (Option Infix))) : List Symbol → Bool
  | [] => true
  | .id _ :: ts => plain seen around ts
  | .bang :: ts => plain (none :: seen) around ts
  | .op o :: ts => seen.all (!clash · o) && plain (some o :: seen) around ts
  | .lparen :: ts => plain [] (seen :: around) ts
  | .rparen :: ts => plain (around.headD []) around.tail ts

/-! ### The usual precedence as a table -/

/-- The table of a parser that follows the usual precedence. -/
def usual : Table Infix := fun rule token => rank (some token) ≤ rank rule

section Usual

variable {t : Source} {o : Infix} {p : Option Infix}

theorem rank_le (o : Infix) : rank (some o) ≤ 5 := by
  cases o <;> decide

theorem Conventional.rightSpine (h : Conventional t) (hp : p ∈ t.rightSpine) :
    tightness t ≤ rank p := by
  induction t with
  | id _ => cases hp
  | paren _ => cases hp
  | not t ih =>
    rcases List.mem_cons.mp hp with rfl | hp
    · exact le_rfl
    · exact h.2.trans (ih h.1 hp)
  | binary o l r _ ih =>
    rcases List.mem_cons.mp hp with rfl | hp
    · exact le_rfl
    · exact h.2.2.2.le.trans (ih h.2.1 hp)

theorem Conventional.leftSpine (h : Conventional t) (ho : o ∈ t.leftSpine) :
    tightness t ≤ rank (some o) := by
  induction t with
  | id _ => cases ho
  | paren _ => cases ho
  | not _ => cases ho
  | binary q l r ih _ =>
    rcases List.mem_append.mp ho with ho | ho
    · exact h.2.2.1.trans (ih h.1 ho)
    · rw [List.mem_singleton.mp ho, tightness]

/-- The spines tell how tightly the outermost rule binds. -/
theorem le_tightness_of_rightSpine {n : Nat} (hn : n ≤ 7) (h : ∀ p ∈ t.rightSpine, n ≤ rank p) :
    n ≤ tightness t := by
  cases t with
  | id _ => exact hn
  | paren _ => exact hn
  | not _ => exact h _ List.mem_cons_self
  | binary _ _ _ => exact h _ List.mem_cons_self

theorem le_tightness_of_leftSpine {n : Nat} (hn : n ≤ rank none)
    (h : ∀ o ∈ t.leftSpine, n ≤ rank (some o)) : n ≤ tightness t := by
  cases t with
  | id _ => exact Nat.le_succ_of_le hn
  | paren _ => exact Nat.le_succ_of_le hn
  | not _ => exact hn
  | binary o l r => exact h o (by simp [Tree.leftSpine])

theorem Conventional.resolved (h : Conventional t) : t.Resolved usual := by
  induction t with
  | id _ => trivial
  | paren t ih => exact ih h
  | not t ih =>
    refine ⟨ih h.1, fun o ho => ?_⟩
    exact absurd (h.2.trans (h.1.leftSpine ho)) (not_le.mpr (Nat.lt_succ_of_le (rank_le o)))
  | binary q l r ihl ihr =>
    obtain ⟨hl, hr, hle, hlt⟩ := h
    refine ⟨ihl hl, ihr hr, fun p hp => ?_, fun o ho => ?_⟩
    · exact decide_eq_true (hle.trans (hl.rightSpine hp))
    · exact decide_eq_false (by have := hr.leftSpine ho; omega)

theorem conventional_of_resolved (h : t.Resolved usual) : Conventional t := by
  induction t with
  | id _ => trivial
  | paren t ih => exact ih h
  | not t ih =>
    refine ⟨ih h.1, le_tightness_of_leftSpine le_rfl fun o ho => ?_⟩
    exact (not_le.mp (of_decide_eq_false (h.2 o ho))).le
  | binary q l r ihl ihr =>
    obtain ⟨hl, hr, hlq, hqr⟩ := h
    have hq := rank_le q
    refine ⟨ihl hl, ihr hr, ?_, ?_⟩
    · exact le_tightness_of_rightSpine (by omega) fun p hp => of_decide_eq_true (hlq p hp)
    · refine le_tightness_of_leftSpine (Nat.succ_le_succ hq) fun o ho => ?_
      exact not_le.mp (of_decide_eq_false (hqr o ho))

end Usual

/-! ### When the two tables give the same tree -/

/-- The rules at the outermost level of parentheses, the last first. -/
def level : Source → List (Option Infix)
  | .not t => level t ++ [none]
  | .binary o l r => level r ++ some o :: level l
  | _ => []

/-- No operator clashes with a rule before it at the same level of parentheses. -/
def Separate : Source → Prop
  | .id _ => True
  | .not t => Separate t ∧ ∀ o, some o ∈ level t → clash none o = false
  | .binary q l r => Separate l ∧ Separate r ∧ (∀ x ∈ level l, clash x q = false) ∧
      ∀ x ∈ some q :: level l, ∀ o, some o ∈ level r → clash x o = false
  | .paren t => Separate t

section Agreement

variable {t : Source} {o : Infix} {x : Option Infix}

theorem plain_append (t : Source) (seen : List (Option Infix)) (around : List (List (Option Infix)))
    (ts : List Symbol) : plain seen around (t.tokens ++ ts) = true ↔
      (Separate t ∧ ∀ x ∈ seen, ∀ o, some o ∈ level t → clash x o = false) ∧
        plain (level t ++ seen) around ts = true := by
  induction t generalizing seen around ts with
  | id _ => simp [Tree.tokens, plain, Separate, level]
  | paren t ih => simp [Tree.tokens, plain, ih, Separate, level]
  | not t ih =>
    simp only [Tree.tokens, List.cons_append, plain, ih, Separate, level, List.forall_mem_cons,
      List.append_assoc, List.mem_append, List.mem_singleton, reduceCtorEq, or_false]
    tauto
  | binary q l r ihl ihr =>
    simp only [Tree.tokens, List.append_assoc, List.cons_append, ihl, plain, Bool.and_eq_true,
      ihr, Separate, level, List.mem_append, List.mem_cons, List.all_append, List.all_eq_true,
      Bool.not_eq_true', or_imp, forall_and, forall_eq, Option.some.injEq]
    tauto

theorem mem_level_of_rightSpine (h : x ∈ t.rightSpine) : x ∈ level t := by
  induction t with
  | id _ => cases h
  | paren _ => cases h
  | not t ih =>
    rcases List.mem_cons.mp h with rfl | h
    · simp [level]
    · simp [level, ih h]
  | binary o l r _ ih =>
    rcases List.mem_cons.mp h with rfl | h
    · simp [level]
    · simp [level, ih h]

theorem mem_level_of_leftSpine (h : o ∈ t.leftSpine) : some o ∈ level t := by
  induction t with
  | id _ => cases h
  | paren _ => cases h
  | not _ => cases h
  | binary q l r ih _ =>
    rcases List.mem_append.mp h with h | h
    · simp [level, ih h]
    · simp [level, List.mem_singleton.mp h]

theorem rank_le_of_reduce (h : conflicts x o = true) (hx : clash x o = false) :
    rank (some o) ≤ rank x := by
  rcases x with _ | x
  · cases h
  · revert h hx
    cases x <;> cases o <;> decide

theorem rank_lt_of_shift {q : Infix} (h : conflicts (some q) o = false)
    (hx : clash (some q) o = false) : rank (some q) < rank (some o) := by
  revert h hx
  cases q <;> cases o <;> decide

/-- A rule that clashes with everything can only be followed by its own operand. -/
theorem Separate.rightSpine (h : Separate t) (hx : ∀ o, clash x o = true) (hmem : x ∈ level t) :
    x ∈ t.rightSpine := by
  induction t with
  | id _ => cases hmem
  | paren _ => cases hmem
  | not t ih =>
    rcases List.mem_append.mp hmem with hmem | hmem
    · exact List.mem_cons_of_mem _ (ih h.1 hmem)
    · exact List.mem_cons.mpr (.inl (List.mem_singleton.mp hmem))
  | binary q l r _ ih =>
    rcases List.mem_append.mp hmem with hmem | hmem
    · exact List.mem_cons_of_mem _ (ih h.2.1 hmem)
    · rcases List.mem_cons.mp hmem with rfl | hmem
      · exact List.mem_cons_self
      · exact absurd (h.2.2.1 x hmem) (by simp [hx q])

theorem Conventional.le_of_mem_level (h : Conventional t) (ho : some o ∈ level t) :
    tightness t ≤ rank (some o) := by
  induction t with
  | id _ => cases ho
  | paren _ => cases ho
  | not t ih => exact h.2.trans (ih h.1 (by simpa [level] using ho))
  | binary q l r ihl ihr =>
    rcases List.mem_append.mp ho with ho | ho
    · exact h.2.2.2.le.trans (ihr h.2.1 ho)
    · rcases List.mem_cons.mp ho with ho | ho
      · rw [ho, tightness]
      · exact h.2.2.1.trans (ihl h.1 ho)

/-- No operator comes after a rule that binds at least as tight as every operator. -/
theorem Conventional.notMem_level (h : Conventional t) (ht : 5 < tightness t) :
    some o ∉ level t :=
  fun ho => absurd (h.le_of_mem_level ho) (not_le.mpr ((rank_le o).trans_lt ht))

theorem clash_cases (h : clash x o = true) :
    (x = none ∨ x = some .mult) ∨ x = some .or ∧ o = .and := by
  rcases x with _ | x
  · exact .inl (.inl rfl)
  · cases x <;> cases o <;> simp [clash] at h ⊢

theorem eq_or_of_rank (h : rank (some o) ≤ rank (some .or)) : o = .or := by
  cases o <;> first | rfl | exact absurd h (by decide)

/-- A tree that binds like `&&` has it as its operator. -/
theorem and_mem_leftSpine (h : tightness t = rank (some .and)) : .and ∈ t.leftSpine := by
  cases t with
  | binary o l r =>
    have ho : o = .and := by
      cases o <;> simp [tightness, rank] at h ⊢
    simp [Tree.leftSpine, ho]
  | _ => simp [tightness, rank] at h

/-- Where the declarations and the usual precedence agree nothing clashes. -/
theorem Conventional.separate (h : Conventional t) (hr : t.Resolved conflicts) : Separate t := by
  induction t with
  | id _ => trivial
  | paren t ih => exact ih h hr
  | not t ih => exact ⟨ih h.1 hr.1, fun o ho => absurd ho (h.1.notMem_level h.2)⟩
  | binary q l r ihl ihr =>
    obtain ⟨hl, hright, hle, hlt⟩ := h
    obtain ⟨hrl, hrr, hlq, hqr⟩ := hr
    have hsl := ihl hl hrl
    -- Neither `!` nor `*` gives way to an operator, so they would have swallowed `q`.
    have hnever : ∀ x ∈ level l, ¬ (x = none ∨ x = some .mult) := by
      rintro x hx (rfl | rfl)
      · exact absurd (hlq _ (hsl.rightSpine (fun _ => rfl) hx)) (by simp [conflicts])
      · exact absurd (hlq _ (hsl.rightSpine (fun _ => rfl) hx))
          (by simp [conflicts, Infix.precedence])
    refine ⟨hsl, ihr hright hrr, fun x hx => ?_, fun x hx o ho => ?_⟩
    · by_contra hclash
      rcases clash_cases (by simpa using hclash) with hx' | ⟨rfl, rfl⟩
      · exact hnever x hx hx'
      · exact absurd (hle.trans (hl.le_of_mem_level hx)) (by decide)
    · by_contra hclash
      have hqo : tightness r ≤ rank (some o) := hright.le_of_mem_level ho
      rcases clash_cases (by simpa using hclash) with hx' | ⟨rfl, rfl⟩
      · rcases List.mem_cons.mp hx with rfl | hx
        · obtain rfl : q = .mult := by simpa using hx'
          exact hright.notMem_level hlt ho
        · exact hnever x hx hx'
      · obtain rfl : q = .or := by
          rcases List.mem_cons.mp hx with hx | hx
          · exact (Option.some.inj hx).symm
          · exact eq_or_of_rank (hle.trans (hl.le_of_mem_level hx))
        have hand := hqr .and (and_mem_leftSpine (Nat.le_antisymm hqo hlt))
        exact absurd hand (by decide)

/-- Operators that do not clash are grouped alike by the declarations and the usual precedence. -/
theorem Separate.conventional (h : Separate t) (hr : t.Resolved conflicts) : Conventional t := by
  induction t with
  | id _ => trivial
  | paren t ih => exact ih h hr
  | not t ih =>
    refine ⟨ih h.1 hr.1, le_tightness_of_leftSpine le_rfl fun o ho => ?_⟩
    exact absurd (h.2 o (mem_level_of_leftSpine ho)) (by simp [clash])
  | binary q l r ihl ihr =>
    obtain ⟨hl, hright, hlq, hqr⟩ := h
    obtain ⟨hrl, hrr, hrlq, hrqr⟩ := hr
    refine ⟨ihl hl hrl, ihr hright hrr, ?_, ?_⟩
    · refine le_tightness_of_rightSpine ((rank_le q).trans (by decide)) fun p hp => ?_
      exact rank_le_of_reduce (hrlq p hp) (hlq p (mem_level_of_rightSpine hp))
    · refine le_tightness_of_leftSpine (Nat.succ_le_succ (rank_le q)) fun o ho => ?_
      exact rank_lt_of_shift (hrqr o ho) (hqr _ List.mem_cons_self o (mem_level_of_leftSpine ho))

end Agreement

/-! ### The actions lose nothing but the parentheses -/

/-- What stands around the first operand of an expression. -/
inductive Around
  | bang
  | paren
  | op (o : Infix) (r : Source)

namespace Around

def plug (x : Source) : Around → Source
  | .bang => .not x
  | .paren => .paren x
  | .op o r => .binary o x r

/-- The tokens to the left. -/
def pre : Around → List Symbol
  | .bang => [.bang]
  | .paren => [.lparen]
  | .op _ _ => []

/-- The tokens to the right. -/
def post : Around → List Symbol
  | .bang => []
  | .paren => [.rparen]
  | .op o r => .op o :: r.tokens

end Around

/-- An expression from its first operand and what stands around it, the innermost first. -/
def plug (x : Source) (cs : List Around) : Source := cs.foldl Around.plug x

def pre (cs : List Around) : List Symbol := cs.reverse.flatMap Around.pre

def post (cs : List Around) : List Symbol := cs.flatMap Around.post

section Injective

variable {x : Source} {c : Around} {cs : List Around} {e f g : Expr}

@[simp] theorem plug_cons : plug x (c :: cs) = plug (c.plug x) cs := rfl

@[simp] theorem pre_cons : pre (c :: cs) = pre cs ++ c.pre := by
  simp [pre]

@[simp] theorem post_cons : post (c :: cs) = c.post ++ post cs := rfl

theorem tokens_plug (cs : List Around) (x : Source) :
    (plug x cs).tokens = pre cs ++ x.tokens ++ post cs := by
  induction cs generalizing x with
  | nil => simp [plug, pre, post]
  | cons c cs ih =>
    rw [plug_cons, ih, pre_cons, post_cons]
    cases c <;> simp [Around.plug, Tree.tokens, Around.pre, Around.post]

theorem exists_plug (t : Source) : ∃ a cs, t = plug (.id a) cs := by
  induction t with
  | id a => exact ⟨a, [], rfl⟩
  | not t ih =>
    obtain ⟨a, cs, rfl⟩ := ih
    exact ⟨a, cs ++ [.bang], by simp [plug, Around.plug]⟩
  | binary o l r ih _ =>
    obtain ⟨a, cs, rfl⟩ := ih
    exact ⟨a, cs ++ [.op o r], by simp [plug, Around.plug]⟩
  | paren t ih =>
    obtain ⟨a, cs, rfl⟩ := ih
    exact ⟨a, cs ++ [.paren], by simp [plug, Around.plug]⟩

/-- An expression is met on the way to the first leaf of another. -/
inductive OnLeft (e : Expr) : Expr → Prop
  | refl : OnLeft e e
  | unary {k a} : OnLeft e a → OnLeft e (.unary k a)
  | binary {k a b} : OnLeft e a → OnLeft e (.binary k a b)

/-- The length of the way to the first leaf. -/
def leftDepth : Expr → Nat
  | .unary _ a => leftDepth a + 1
  | .binary _ a _ => leftDepth a + 1
  | _ => 0

theorem OnLeft.le (h : OnLeft e g) : leftDepth e ≤ leftDepth g := by
  induction h with
  | refl => exact le_rfl
  | unary _ ih => exact Nat.le_succ_of_le ih
  | binary _ ih => exact Nat.le_succ_of_le ih

theorem OnLeft.unique (he : OnLeft e g) (hf : OnLeft f g) (h : leftDepth e = leftDepth f) :
    e = f := by
  induction he with
  | refl =>
    cases hf with
    | refl => rfl
    | unary hf => exact absurd hf.le (by rw [← h, leftDepth]; omega)
    | binary hf => exact absurd hf.le (by rw [← h, leftDepth]; omega)
  | unary he ih =>
    cases hf with
    | refl => exact absurd he.le (by rw [h, leftDepth]; omega)
    | unary hf => exact ih hf
  | binary he ih =>
    cases hf with
    | refl => exact absurd he.le (by rw [h, leftDepth]; omega)
    | binary hf => exact ih hf

theorem OnLeft.trans (he : OnLeft e f) (hf : OnLeft f g) : OnLeft e g := by
  induction hf with
  | refl => exact he
  | unary _ ih => exact .unary ih
  | binary _ ih => exact .binary ih

/-- The node nearest to the first leaf that the action of a binary operator builds. -/
def Infix.kernel : Infix → Operator
  | .or => .logicalOr
  | .and => .logicalAnd
  | .eq | .neq => .equal
  | .leq => .greater
  | .less | .geq | .greater => .less
  | .plus => .plus
  | .minus => .minus
  | .mult => .mult

theorem onLeft_action (o : Infix) (e f : Expr) : OnLeft (.binary o.kernel e f) (o.action e f) := by
  cases o
  case greater => exact .unary (.binary .refl)
  case neq | leq | geq => exact .unary .refl
  all_goals exact .refl

theorem onLeft_plug (cs : List Around) (x : Source) : OnLeft (build x) (build (plug x cs)) := by
  induction cs generalizing x with
  | nil => exact .refl
  | cons c cs ih =>
    refine OnLeft.trans ?_ (ih (c.plug x))
    cases c with
    | bang => exact .unary .refl
    | paren => exact .refl
    | op o r => exact OnLeft.trans (.binary .refl) (onLeft_action o (build x) (build r))

/-- The node nearest to the first leaf that a place around the operand `x` adds. -/
def Around.core (x : Source) : Around → Option Expr
  | .bang => some (.unary .not (build x))
  | .paren => none
  | .op o r => some (.binary o.kernel (build x) (build r))

theorem onLeft_core (cs : List Around) (h : c.core x = some e) :
    OnLeft e (build (plug x (c :: cs))) ∧ leftDepth e = leftDepth (build x) + 1 := by
  cases c with
  | paren => cases h
  | bang =>
    cases h
    exact ⟨onLeft_plug cs (.not x), rfl⟩
  | op o r =>
    cases h
    exact ⟨(onLeft_action o _ _).trans (onLeft_plug cs (.binary o x r)), rfl⟩

theorem core_unique {c' : Around} {cs' : List Around}
    (h : build (plug x (c :: cs)) = build (plug x (c' :: cs'))) (he : c.core x = some e)
    (hf : c'.core x = some f) : e = f := by
  obtain ⟨hon, hdepth⟩ := onLeft_core cs he
  obtain ⟨hon', hdepth'⟩ := onLeft_core cs' hf
  exact hon.unique (h ▸ hon') (hdepth.trans hdepth'.symm)

/-- A place around an operand that leaves no token to its left adds a node. -/
theorem build_plug_ne {cs : List Around} (hpre : pre (c :: cs) = []) :
    build x ≠ build (plug x (c :: cs)) := by
  intro h
  cases c with
  | op o r =>
    obtain ⟨hon, hdepth⟩ := onLeft_core (c := .op o r) (x := x) cs rfl
    have := hon.le
    rw [← h, hdepth] at this
    omega
  | _ => simp [Around.pre] at hpre

variable {cs' : List Around} {u u' : List Symbol}

/-- The expressions that begin alike and are built alike have the same rules around their first
operand. The right operands are compared by `ih`. -/
theorem plug_injective
    (ih : ∀ o r, .op o r ∈ cs → ∀ r' u u', r.tokens ++ u = r'.tokens ++ u' →
      build r = build r' → r = r')
    (hpre : pre cs = pre cs') (hpost : post cs ++ u = post cs' ++ u')
    (hbuild : build (plug x cs) = build (plug x cs')) : cs = cs' := by
  induction cs generalizing cs' x with
  | nil =>
    cases cs' with
    | nil => rfl
    | cons c' cs' => exact absurd hbuild (build_plug_ne hpre.symm)
  | cons c cs ihcs =>
    cases cs' with
    | nil => exact absurd hbuild.symm (build_plug_ne hpre)
    | cons c' cs' =>
      rw [pre_cons, pre_cons] at hpre
      rw [post_cons, post_cons] at hpost
      have hrest := fun o r hr => ih o r (List.mem_cons_of_mem c hr)
      have hsame : c = c' := by
        cases c <;> cases c'
        case op.op o r o' r' =>
          obtain ⟨rfl, htokens⟩ : o = o' ∧ _ := by simpa [Around.post] using hpost
          have hr : build r = build r' := by simpa using core_unique hbuild rfl rfl
          rw [ih o r List.mem_cons_self r' _ _ htokens hr]
        case bang.op o r => simpa using core_unique hbuild rfl rfl
        case op.bang o r => simpa using core_unique hbuild rfl rfl
        all_goals simp [Around.pre, Around.post] at hpre hpost ⊢
      subst hsame
      rw [List.append_assoc, List.append_assoc] at hpost
      rw [ihcs hrest (List.append_cancel_right hpre) (List.append_cancel_left hpost) hbuild]

theorem id_notMem_pre (a : List String) : .id a ∉ pre cs := by
  intro h
  obtain ⟨c, -, hc⟩ := List.mem_flatMap.mp h
  cases c <;> simp [Around.pre] at hc

/-- Token sequences are split alike at their first identifier. -/
theorem append_id_inj {v v' : List Symbol} {a a' : List String} (hu : ∀ b, .id b ∉ u)
    (hu' : ∀ b, .id b ∉ u') (h : u ++ .id a :: v = u' ++ .id a' :: v') :
    u = u' ∧ a = a' ∧ v = v' := by
  induction u generalizing u' with
  | nil =>
    cases u' with
    | nil => simpa using h
    | cons k u' =>
      obtain ⟨rfl, -⟩ := List.cons.inj h
      exact absurd List.mem_cons_self (hu' a)
  | cons k u ih =>
    cases u' with
    | nil =>
      obtain ⟨rfl, -⟩ := List.cons.inj h
      exact absurd List.mem_cons_self (hu a')
    | cons k' u' =>
      obtain ⟨rfl, htail⟩ := List.cons.inj h
      obtain ⟨rfl, hrest⟩ := ih (fun b hb => hu b (List.mem_cons_of_mem k hb))
        (fun b hb => hu' b (List.mem_cons_of_mem k hb)) htail
      exact ⟨rfl, hrest⟩

theorem length_lt_of_mem {o : Infix} {r : Source} (a : List String) (h : .op o r ∈ cs) :
    r.tokens.length < (plug (.id a) cs).tokens.length := by
  have hpost : r.tokens.length < (post cs).length := by
    induction cs with
    | nil => cases h
    | cons c cs ih =>
      rcases List.mem_cons.mp h with rfl | h
      · rw [post_cons, Around.post, List.length_append, List.length_cons]
        omega
      · have := ih h
        rw [post_cons, List.length_append]
        omega
  rw [tokens_plug]
  simp
  omega

/-- The expression and the tokens determine the tree. -/
theorem build_injective (t t' : Source) (u u' : List Symbol)
    (htokens : t.tokens ++ u = t'.tokens ++ u') (hbuild : build t = build t') : t = t' := by
  induction hn : t.tokens.length using Nat.strong_induction_on generalizing t t' u u' with
  | _ n ih =>
    obtain ⟨a, cs, rfl⟩ := exists_plug t
    obtain ⟨a', cs', rfl⟩ := exists_plug t'
    simp only [tokens_plug, Tree.tokens, List.append_assoc, List.singleton_append] at htokens
    obtain ⟨hpre, rfl, hpost⟩ := append_id_inj id_notMem_pre id_notMem_pre htokens
    have hsmall : ∀ o r, .op o r ∈ cs → ∀ r' u u', r.tokens ++ u = r'.tokens ++ u' →
        build r = build r' → r = r' := fun o r hr r' u u' h hb =>
      ih _ (hn ▸ length_lt_of_mem a hr) r r' u u' h hb rfl
    rw [plug_injective hsmall hpre hpost hbuild]

end Injective

/-! ### The trees the grammar gives -/

theorem plain_tokens_iff (t : Source) : plain [] [] t.tokens = true ↔ Separate t := by
  have h := plain_append t [] [] []
  simpa [plain] using h

/-- Every sequence of tokens that is an expression has one tree by the usual precedence, and the
grammar accepts it. The grammar builds the same expression exactly if no binary operator comes after
a `!` or a `*`, and no `&&` after a `||`, at the same level of parentheses. -/
theorem conventional_precedence_iff (d : Source) :
    ∃ t c, parse conflicts d.tokens = some t ∧ t.tokens = d.tokens ∧
      (c.tokens = d.tokens ∧ Conventional c) ∧
      (∀ c', c'.tokens = d.tokens → Conventional c' → c' = c) ∧
      (build t = build c ↔ plain [] [] d.tokens = true) := by
  obtain ⟨t, hparse, htokens, hresolved⟩ := parse_tokens conflicts d
  obtain ⟨c, -, hctokens, hc⟩ := parse_tokens usual d
  have hsame : t.tokens = c.tokens := htokens.trans hctokens.symm
  refine ⟨t, c, hparse, htokens, ⟨hctokens, conventional_of_resolved hc⟩, ?_, ?_⟩
  · exact fun c' hc' h => resolved_unique h.resolved hc (hc'.trans hctokens.symm)
  · rw [← htokens, plain_tokens_iff]
    constructor
    · intro hbuild
      obtain rfl := build_injective t c [] [] (by rw [hsame]) hbuild
      exact (conventional_of_resolved hc).separate hresolved
    · intro h
      rw [resolved_unique (h.conventional hresolved).resolved hc hsame]

/-- `a * b + c`, `! a && b` and `a || b && c` are grouped as `a * (b + c)`, `! (a && b)` and
`(a || b) && c`. -/
theorem precedence_not_conventional :
    let a : Source := .id ["a"]
    let b : Source := .id ["b"]
    let c : Source := .id ["c"]
    let wrong (conventional parsed : Source) : Prop := Conventional conventional ∧
      parse conflicts conventional.tokens = some parsed ∧ build parsed ≠ build conventional
    wrong (.binary .plus (.binary .mult a b) c) (.binary .mult a (.binary .plus b c)) ∧
      wrong (.binary .and (.not a) b) (.not (.binary .and a b)) ∧
      wrong (.binary .or a (.binary .and b c)) (.binary .and (.binary .or a b) c) := by
  refine ⟨⟨?_, by decide, by decide⟩, ⟨?_, by decide, by decide⟩, ?_, by decide, by decide⟩ <;>
    simp [Conventional, rank, tightness]

end Diffingo.Spec.Grammar
