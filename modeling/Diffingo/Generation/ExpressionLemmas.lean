import Diffingo.Generation.ExpressionTranslator
import Mathlib.Data.Set.Basic

/-!
# What an evaluation depends on and what it changes

An evaluation changes only members that the expression names, and none if the expression is free of
side effects (`eval_keeps`, `eval_pure`). Its value depends only on the members the expression
names, seen at their types (`eval_related`).
-/

namespace Diffingo.Generation

open CInteger Diffingo.Spec Diffingo.Runtime

/-- The units agree on the members in `S`, each seen at its type. -/
def Agree (env : Env) (S : Set String) (m m' : UnitMemory) : Prop :=
  ∀ x ∈ S, ∀ ty, env.members x = some ty → (m x).read ty = (m' x).read ty

theorem Agree.refl (env : Env) (S : Set String) (m : UnitMemory) : Agree env S m m :=
  fun _ _ _ _ => rfl

theorem Agree.symm {env : Env} {S : Set String} {m m' : UnitMemory} (h : Agree env S m m') :
    Agree env S m' m := fun x hx ty hty => (h x hx ty hty).symm

theorem Agree.trans {env : Env} {S : Set String} {m m' m'' : UnitMemory} (h : Agree env S m m')
    (h' : Agree env S m' m'') : Agree env S m m'' :=
  fun x hx ty hty => (h x hx ty hty).trans (h' x hx ty hty)

theorem Agree.mono {env : Env} {S T : Set String} {m m' : UnitMemory} (h : Agree env T m m')
    (hST : S ⊆ T) : Agree env S m m' := fun x hx => h x (hST hx)

theorem Agree.of_eq {env : Env} {S : Set String} {m m' : UnitMemory} (h : ∀ x ∈ S, m x = m' x) :
    Agree env S m m' := fun x hx _ _ => by rw [h x hx]

/-- Changing the same member to cells that read alike keeps the units in agreement. -/
theorem Agree.update {env : Env} {S : Set String} {m m' : UnitMemory} (h : Agree env S m m')
    {x : String} {ty : CType} (hx : env.members x = some ty) {c c' : Cell}
    (hc : c.read ty = c'.read ty) :
    Agree env S (Function.update m x c) (Function.update m' x c') := by
  intro y hy ty' hty'
  by_cases hyx : y = x
  · subst hyx
    obtain rfl : ty = ty' := Option.some.inj (hx.symm.trans hty')
    simpa using hc
  · simpa [Function.update_of_ne hyx] using h y hy ty' hty'

/-- Only members in `S` change. -/
def Keeps (S : Set String) (f : Eval) : Prop :=
  ∀ ⦃m v m'⦄, f m = some (v, m') → ∀ x ∉ S, m' x = m x

/-- The two evaluations give the same value and keep units in agreement on `S`. -/
def Related (env : Env) (S : Set String) (f g : Eval) : Prop :=
  ∀ m m', Agree env S m m' →
    Option.Rel (fun p q => p.1 = q.1 ∧ Agree env S p.2 q.2) (f m) (g m')

theorem rel_bind {α β γ δ : Type} {R : α → β → Prop} {Q : γ → δ → Prop} {a : Option α}
    {b : Option β} {f : α → Option γ} {g : β → Option δ} (h : Option.Rel R a b)
    (hfg : ∀ x y, R x y → Option.Rel Q (f x) (g y)) : Option.Rel Q (a.bind f) (b.bind g) := by
  cases h with
  | none => exact .none
  | some h => exact hfg _ _ h

theorem rel_bind_same {α γ δ : Type} {Q : γ → δ → Prop} {a : Option α} {f : α → Option γ}
    {g : α → Option δ} (hfg : ∀ x, Option.Rel Q (f x) (g x)) :
    Option.Rel Q (a.bind f) (a.bind g) := by
  cases a with
  | none => exact .none
  | some x => exact hfg x

theorem rel_map {α γ δ : Type} {Q : γ → δ → Prop} {a : Option α} {f : α → γ} {g : α → δ}
    (hfg : ∀ x, Q (f x) (g x)) : Option.Rel Q (a.map f) (a.map g) := by
  cases a with
  | none => exact .none
  | some x => exact .some (hfg x)

theorem rel_map_rel {α β γ δ : Type} {R : α → β → Prop} {Q : γ → δ → Prop} {a : Option α}
    {b : Option β} {f : α → γ} {g : β → δ} (h : Option.Rel R a b)
    (hfg : ∀ x y, R x y → Q (f x) (g y)) : Option.Rel Q (a.map f) (b.map g) := by
  cases h with
  | none => exact .none
  | some h => exact .some (hfg _ _ h)

section Combinators

variable {env : Env} {S : Set String}

theorem literal_keeps (v : Option Value) : Keeps S (literal v) := by
  intro m w m' h x _
  obtain ⟨_, -, h⟩ := Option.map_eq_some_iff.mp h
  cases h
  rfl

theorem load_keeps (l : Option (String × CType)) : Keeps S (load l) := by
  intro m w m' h x _
  obtain ⟨_, -, h⟩ := Option.bind_eq_some_iff.mp h
  obtain ⟨_, -, h⟩ := Option.map_eq_some_iff.mp h
  cases h
  rfl

theorem assignMember_keeps {x : String} (hx : x ∈ S) (ty : CType) (v : Value) :
    Keeps S (assignMember x ty v) := by
  intro m w m' h y hy
  obtain ⟨c, -, h⟩ := Option.bind_eq_some_iff.mp h
  obtain ⟨_, -, h⟩ := Option.map_eq_some_iff.mp h
  cases h
  have hne : y ≠ x := fun heq => hy (heq ▸ hx)
  exact Function.update_of_ne hne _ _

theorem assignTo_keeps {l : Option (String × CType)} (hl : ∀ p, l = some p → p.1 ∈ S)
    (ts : Option CType) {f : Eval} (hf : Keeps S f) : Keeps S (assignTo l ts f) := by
  intro m w m' h x hx
  obtain ⟨p, hp, h⟩ := Option.bind_eq_some_iff.mp h
  obtain ⟨t, -, h⟩ := Option.bind_eq_some_iff.mp h
  split at h
  · obtain ⟨r, hr, h⟩ := Option.bind_eq_some_iff.mp h
    rw [assignMember_keeps (hl p hp) _ _ h x hx, hf hr x hx]
  · cases h

theorem bump_keeps {l : Option (String × CType)} (hl : ∀ p, l = some p → p.1 ∈ S) (d : Int)
    (old : Bool) : Keeps S (bump l d old) := by
  intro m w m' h x hx
  obtain ⟨p, hp, h⟩ := Option.bind_eq_some_iff.mp h
  split at h
  · obtain ⟨v, -, h⟩ := Option.bind_eq_some_iff.mp h
    obtain ⟨n, -, h⟩ := Option.bind_eq_some_iff.mp h
    obtain ⟨n', -, h⟩ := Option.bind_eq_some_iff.mp h
    obtain ⟨r, hr, h⟩ := Option.map_eq_some_iff.mp h
    cases h
    exact assignMember_keeps (hl p hp) _ _ hr x hx
  · cases h

theorem strict_keeps (k : Operator) (ta tb : Option CType) {f g : Eval} (hf : Keeps S f)
    (hg : Keeps S g) : Keeps S (strict k ta tb f g) := by
  intro m w m' h x hx
  obtain ⟨_, -, h⟩ := Option.bind_eq_some_iff.mp h
  obtain ⟨_, -, h⟩ := Option.bind_eq_some_iff.mp h
  obtain ⟨ra, hra, h⟩ := Option.bind_eq_some_iff.mp h
  obtain ⟨rb, hrb, h⟩ := Option.bind_eq_some_iff.mp h
  obtain ⟨_, -, h⟩ := Option.bind_eq_some_iff.mp h
  obtain ⟨_, -, h⟩ := Option.bind_eq_some_iff.mp h
  obtain ⟨_, -, h⟩ := Option.map_eq_some_iff.mp h
  cases h
  rw [hg hrb x hx, hf hra x hx]

theorem test_keeps {ty : Option CType} {f : Eval} (hf : Keeps S f) {m m' : UnitMemory} {b : Bool}
    (h : test ty f m = some (b, m')) : ∀ x ∉ S, m' x = m x := by
  intro x hx
  obtain ⟨_, -, h⟩ := Option.bind_eq_some_iff.mp h
  obtain ⟨r, hr, h⟩ := Option.bind_eq_some_iff.mp h
  obtain ⟨_, -, h⟩ := Option.map_eq_some_iff.mp h
  cases h
  exact hf hr x hx

theorem testValue_keeps (ty : Option CType) {f : Eval} (hf : Keeps S f) :
    Keeps S (testValue ty f) := by
  intro m w m' h x hx
  obtain ⟨p, hp, h⟩ := Option.map_eq_some_iff.mp h
  cases h
  exact test_keeps hf hp x hx

theorem choose_keeps (tc ty : Option CType) {f g h : Eval} (hf : Keeps S f) (hg : Keeps S g)
    (hh : Keeps S h) : Keeps S (choose tc ty f g h) := by
  intro m w m' hrun x hx
  obtain ⟨_, -, hrun⟩ := Option.bind_eq_some_iff.mp hrun
  obtain ⟨⟨b, m₁⟩, hb, hrun⟩ := Option.bind_eq_some_iff.mp hrun
  obtain ⟨⟨v, m₂⟩, hr, hrun⟩ := Option.bind_eq_some_iff.mp hrun
  obtain ⟨_, -, hrun⟩ := Option.map_eq_some_iff.mp hrun
  cases hrun
  rw [← test_keeps hf hb x hx]
  cases b
  · exact hh hr x hx
  · exact hg hr x hx

theorem castTo_keeps (ty ta : Option CType) {f : Eval} (hf : Keeps S f) :
    Keeps S (castTo ty ta f) := by
  intro m w m' h x hx
  obtain ⟨_, -, h⟩ := Option.bind_eq_some_iff.mp h
  obtain ⟨_, -, h⟩ := Option.bind_eq_some_iff.mp h
  split at h
  · obtain ⟨r, hr, h⟩ := Option.bind_eq_some_iff.mp h
    obtain ⟨_, -, h⟩ := Option.map_eq_some_iff.mp h
    cases h
    exact hf hr x hx
  · cases h

theorem literal_related (v : Option Value) : Related env S (literal v) (literal v) :=
  fun _ _ h => rel_map fun _ => ⟨rfl, h⟩

theorem load_related {l : Option (String × CType)}
    (hl : ∀ p, l = some p → env.members p.1 = some p.2 ∧ p.1 ∈ S) :
    Related env S (load l) (load l) := by
  intro m m' h
  cases l with
  | none => exact .none
  | some p =>
    obtain ⟨hty, hmem⟩ := hl p rfl
    simp only [load, Option.bind_some, h p.1 hmem p.2 hty]
    exact rel_map fun _ => ⟨rfl, h⟩

theorem assignMember_related {x : String} {ty : CType} (hx : env.members x = some ty) (v : Value) :
    Related env S (assignMember x ty v) (assignMember x ty v) := by
  intro m m' h
  unfold assignMember
  cases hc : (m x).store ty v with
  | none =>
    have hc' : (m' x).store ty v = none := by
      have := Cell.store_isSome ty v (m x) (m' x)
      rw [hc] at this
      simpa using this.symm
    simp [hc']
  | some c =>
    have hsome := Cell.store_isSome ty v (m x) (m' x)
    rw [hc] at hsome
    obtain ⟨c', hc'⟩ := Option.isSome_iff_exists.mp hsome.symm
    have hread : c.read ty = c'.read ty := (Cell.read_store hc).trans (Cell.read_store hc').symm
    simp only [hc', Option.bind_some, ← hread]
    exact rel_map fun _ => ⟨rfl, h.update hx hread⟩

theorem assignTo_related {l : Option (String × CType)}
    (hl : ∀ p, l = some p → env.members p.1 = some p.2) (ts : Option CType) {f g : Eval}
    (hfg : Related env S f g) : Related env S (assignTo l ts f) (assignTo l ts g) := by
  intro m m' h
  cases l with
  | none => exact .none
  | some p =>
    simp only [assignTo, Option.bind_some]
    refine rel_bind_same fun t => ?_
    split
    · refine rel_bind (hfg m m' h) fun r r' hr => ?_
      rw [hr.1]
      exact assignMember_related (hl p rfl) _ _ _ hr.2
    · exact .none

theorem bump_related {l : Option (String × CType)}
    (hl : ∀ p, l = some p → env.members p.1 = some p.2 ∧ p.1 ∈ S) (d : Int) (old : Bool) :
    Related env S (bump l d old) (bump l d old) := by
  intro m m' h
  cases l with
  | none => exact .none
  | some p =>
    obtain ⟨hty, hmem⟩ := hl p rfl
    simp only [bump, Option.bind_some, h p.1 hmem p.2 hty]
    split
    · refine rel_bind_same fun v => rel_bind_same fun n => rel_bind_same fun n' => ?_
      exact rel_map_rel (assignMember_related hty _ m m' h) fun r r' hr => ⟨by rw [hr.1], hr.2⟩
    · exact .none

theorem strict_related (k : Operator) (ta tb : Option CType) {f f' g g' : Eval}
    (hf : Related env S f f') (hg : Related env S g g') :
    Related env S (strict k ta tb f g) (strict k ta tb f' g') := by
  intro m m' h
  refine rel_bind_same fun _ => rel_bind_same fun _ => rel_bind (hf m m' h) fun r r' hr => ?_
  refine rel_bind (hg _ _ hr.2) fun q q' hq => ?_
  rw [hr.1, hq.1]
  exact rel_bind_same fun _ => rel_bind_same fun _ => rel_map fun _ => ⟨rfl, hq.2⟩

theorem test_related (ty : Option CType) {f g : Eval} (hfg : Related env S f g)
    {m m' : UnitMemory} (h : Agree env S m m') :
    Option.Rel (fun p q => p.1 = q.1 ∧ Agree env S p.2 q.2) (test ty f m) (test ty g m') := by
  refine rel_bind_same fun _ => rel_bind (hfg m m' h) fun r r' hr => ?_
  rw [hr.1]
  exact rel_map fun _ => ⟨rfl, hr.2⟩

theorem testValue_related (ty : Option CType) {f g : Eval} (hfg : Related env S f g) :
    Related env S (testValue ty f) (testValue ty g) := by
  intro m m' h
  exact rel_map_rel (test_related ty hfg h) fun p q hpq => ⟨by rw [hpq.1], hpq.2⟩

theorem choose_related (tc ty : Option CType) {f f' g g' h h' : Eval} (hf : Related env S f f')
    (hg : Related env S g g') (hh : Related env S h h') :
    Related env S (choose tc ty f g h) (choose tc ty f' g' h') := by
  intro m m' hm
  refine rel_bind_same fun _ => rel_bind (test_related tc hf hm) fun p q hpq => ?_
  have hbranch : Option.Rel (fun p q => p.1 = q.1 ∧ Agree env S p.2 q.2)
      ((if p.1 then g else h) p.2) ((if q.1 then g' else h') q.2) := by
    rw [hpq.1]
    split
    · exact hg _ _ hpq.2
    · exact hh _ _ hpq.2
  refine rel_bind hbranch fun r r' hr => ?_
  rw [hr.1]
  exact rel_map fun _ => ⟨rfl, hr.2⟩

theorem castTo_related (ty ta : Option CType) {f g : Eval} (hfg : Related env S f g) :
    Related env S (castTo ty ta f) (castTo ty ta g) := by
  intro m m' h
  refine rel_bind_same fun _ => rel_bind_same fun _ => ?_
  split
  · refine rel_bind (hfg m m' h) fun r r' hr => ?_
    rw [hr.1]
    exact rel_map fun _ => ⟨rfl, hr.2⟩
  · exact .none

end Combinators

/-- A designated member has its declared type and is named by the expression or is `$$`. -/
theorem lvalue_spec {env : Env} {e : Expr} {p : String × CType} (h : lvalue env e = some p) :
    env.members p.1 = some p.2 ∧ (p.1 ∈ e.members ∨ env.dollar = some p.1) := by
  unfold lvalue at h
  split at h
  · split at h
    · obtain ⟨ty, hty, rfl⟩ := Option.map_eq_some_iff.mp h
      exact ⟨hty, .inl (by simp [Expr.members])⟩
    · cases h
  · obtain ⟨x, hx, h⟩ := Option.bind_eq_some_iff.mp h
    obtain ⟨ty, hty, h⟩ := Option.bind_eq_some_iff.mp h
    split at h
    · cases h
      exact ⟨hty, .inr hx⟩
    · cases h
  · cases h

/-- The expression is free of side effects, or everything it can change is in `S`. -/
def Confined (env : Env) (S : Set String) (e : Expr) : Prop :=
  e.sideEffectFree = true ∨ ∀ x, x ∈ e.members ∨ env.dollar = some x → x ∈ S

theorem Confined.sub {env : Env} {S : Set String} {e e' : Expr} (h : Confined env S e)
    (hpure : e.sideEffectFree = true → e'.sideEffectFree = true)
    (hmem : ∀ x ∈ e'.members, x ∈ e.members) : Confined env S e' :=
  h.imp hpure fun h x hx => h x (hx.imp (hmem x) id)

theorem Confined.lvalue_mem {env : Env} {S : Set String} {e e' : Expr} (h : Confined env S e)
    (himpure : e.sideEffectFree = false) (hmem : ∀ x ∈ e'.members, x ∈ e.members)
    {p : String × CType} (hp : lvalue env e' = some p) : p.1 ∈ S := by
  rcases h with h | h
  · simp [himpure] at h
  · exact h _ ((lvalue_spec hp).2.imp (hmem _) id)

/-- An evaluation changes at most the members the expression names and `$$`, and nothing if the
expression is free of side effects. -/
theorem eval_keeps {env : Env} {S : Set String} {e : Expr} (h : Confined env S e) :
    Keeps S (eval env e) := by
  induction e with
  | assign d s ihd ihs =>
    refine assignTo_keeps (fun p hp => h.lvalue_mem rfl ?_ hp) _ (ihs (h.sub ?_ ?_)) <;>
      simp +contextual [Expr.members, Expr.sideEffectFree]
  | conditional c a b ihc iha ihb =>
    refine choose_keeps _ _ (ihc (h.sub ?_ ?_)) (iha (h.sub ?_ ?_)) (ihb (h.sub ?_ ?_)) <;>
      simp +contextual [Expr.members, Expr.sideEffectFree]
  | conditionalThen c a ihc iha =>
    refine choose_keeps _ _ (ihc (h.sub ?_ ?_)) (iha (h.sub ?_ ?_)) (literal_keeps _) <;>
      simp +contextual [Expr.members, Expr.sideEffectFree]
  | constant c => exact literal_keeps _
  | unary k a iha =>
    have ha : Keeps S (eval env a) :=
      iha (h.sub (by simp +contextual [Expr.sideEffectFree]) (by simp [Expr.members]))
    have hmem : ∀ x ∈ a.members, x ∈ (Expr.unary k a).members := by simp [Expr.members]
    unfold eval
    split
    · exact choose_keeps _ _ ha (literal_keeps _) (literal_keeps _)
    · exact bump_keeps (fun p hp => h.lvalue_mem rfl hmem hp) _ _
    · exact bump_keeps (fun p hp => h.lvalue_mem rfl hmem hp) _ _
    · exact bump_keeps (fun p hp => h.lvalue_mem rfl hmem hp) _ _
    · intro _ _ _ h
      cases h
  | binary k a b iha ihb =>
    have ha : Keeps S (eval env a) :=
      iha (h.sub (by simp +contextual [Expr.sideEffectFree]) (by simp +contextual [Expr.members]))
    have hb : Keeps S (eval env b) :=
      ihb (h.sub (by simp +contextual [Expr.sideEffectFree]) (by simp +contextual [Expr.members]))
    unfold eval
    split
    · exact load_keeps _
    · exact castTo_keeps _ _ ha
    · exact choose_keeps _ _ ha (testValue_keeps _ hb) (literal_keeps _)
    · exact choose_keeps _ _ ha (literal_keeps _) (testValue_keeps _ hb)
    · exact strict_keeps _ _ _ ha hb
  | ternary k a b c iha ihb ihc =>
    unfold eval
    split
    · refine assignTo_keeps (fun p hp => h.lvalue_mem rfl ?_ hp) _ (ihc (h.sub ?_ ?_))
      · intro x hx
        simp only [Expr.members, List.mem_append] at hx ⊢
        exact .inl hx
      · simp [Expr.sideEffectFree, Operator.pure]
      · simp +contextual [Expr.members]
    · intro _ _ _ h
      cases h
  | parserState s => exact load_keeps _
  | _ =>
    intro _ _ _ h
    cases h

/-- Evaluating an expression that is free of side effects leaves the unit as it is. -/
theorem eval_pure {env : Env} {e : Expr} (h : e.sideEffectFree = true) {m m' : UnitMemory}
    {v : Value} (hv : eval env e m = some (v, m')) : m' = m :=
  funext fun x => eval_keeps (S := ∅) (.inl h) hv x (by simp)

/-- Two environments that an expression over `S` cannot tell apart. -/
structure Env.Same (env env' : Env) (S : Set String) : Prop where
  unit : env'.unit = env.unit
  dollar : env'.dollar = env.dollar
  dollar_mem : ∀ x, env.dollar = some x → x ∈ S
  members : ∀ x ∈ S, env'.members x = env.members x

section Same

variable {env env' : Env} {S : Set String} (hsame : env.Same env' S)

include hsame

theorem lvalue_same {e : Expr} (h : ∀ x ∈ e.members, x ∈ S) : lvalue env' e = lvalue env e := by
  unfold lvalue
  split
  · rename_i u x
    rw [hsame.unit, hsame.members x (h x (by simp [Expr.members]))]
  · rw [hsame.dollar]
    refine Option.bind_congr fun x hx => ?_
    rw [hsame.members x (hsame.dollar_mem x hx)]
  · rfl

theorem typeOf_same {e : Expr} (h : ∀ x ∈ e.members, x ∈ S) : typeOf env' e = typeOf env e := by
  induction e with
  | assign d s =>
    simp only [typeOf]
    rw [lvalue_same hsame fun x hx => h x (by simp [Expr.members, hx])]
  | conditional c a b _ iha ihb =>
    simp only [typeOf]
    rw [iha fun x hx => h x (by simp [Expr.members, hx]),
      ihb fun x hx => h x (by simp [Expr.members, hx])]
  | conditionalThen c a _ iha =>
    simp only [typeOf]
    rw [iha fun x hx => h x (by simp [Expr.members, hx])]
  | unary k a =>
    unfold typeOf
    split
    · rfl
    all_goals first
      | rw [lvalue_same hsame fun x hx => h x (by simpa [Expr.members] using hx)]
      | rfl
  | binary k a b iha ihb =>
    have ha := iha fun x hx => h x (by simp [Expr.members, hx])
    have hb := ihb fun x hx => h x (by simp [Expr.members, hx])
    unfold typeOf
    split
    · rw [lvalue_same hsame fun x hx => h x (by simpa [Expr.members] using hx)]
    all_goals first
      | rfl
      | rw [ha, hb]
  | ternary k a b c =>
    unfold typeOf
    split
    · rw [lvalue_same hsame fun x hx => h x (by
        simp only [Expr.members, List.mem_append] at hx ⊢
        exact .inl hx)]
    · rfl
  | parserState s =>
    simp only [typeOf]
    rw [lvalue_same hsame h]
  | _ => rfl

/-- The value of an expression over `S` depends only on the members in `S`. -/
theorem eval_related {e : Expr} (h : ∀ x ∈ e.members, x ∈ S) :
    Related env S (eval env e) (eval env' e) := by
  have hload : ∀ {e' : Expr}, (∀ x ∈ e'.members, x ∈ S) → ∀ p, lvalue env e' = some p →
      env.members p.1 = some p.2 ∧ p.1 ∈ S := fun he' p hp =>
    ⟨(lvalue_spec hp).1, (lvalue_spec hp).2.elim (he' _) (hsame.dollar_mem _)⟩
  induction e with
  | assign d s _ ihs =>
    have hd : ∀ x ∈ d.members, x ∈ S := fun x hx => h x (by simp [Expr.members, hx])
    have hs : ∀ x ∈ s.members, x ∈ S := fun x hx => h x (by simp [Expr.members, hx])
    simp only [eval]
    rw [lvalue_same hsame hd, typeOf_same hsame hs]
    exact assignTo_related (fun p hp => (hload hd p hp).1) _ (ihs hs)
  | conditional c a b ihc iha ihb =>
    have hc : ∀ x ∈ c.members, x ∈ S := fun x hx => h x (by simp [Expr.members, hx])
    simp only [eval]
    rw [typeOf_same hsame hc, typeOf_same hsame h]
    exact choose_related _ _ (ihc hc) (iha fun x hx => h x (by simp [Expr.members, hx]))
      (ihb fun x hx => h x (by simp [Expr.members, hx]))
  | conditionalThen c a ihc iha =>
    have hc : ∀ x ∈ c.members, x ∈ S := fun x hx => h x (by simp [Expr.members, hx])
    simp only [eval]
    rw [typeOf_same hsame hc, typeOf_same hsame h]
    exact choose_related _ _ (ihc hc) (iha fun x hx => h x (by simp [Expr.members, hx]))
      (literal_related _)
  | constant c => exact literal_related _
  | unary k a iha =>
    have ha : ∀ x ∈ a.members, x ∈ S := fun x hx => h x (by simpa [Expr.members] using hx)
    unfold eval
    rw [typeOf_same hsame ha, lvalue_same hsame ha]
    split
    · exact choose_related _ _ (iha ha) (literal_related _) (literal_related _)
    · exact bump_related (hload ha) _ _
    · exact bump_related (hload ha) _ _
    · exact bump_related (hload ha) _ _
    · exact fun _ _ _ => .none
  | binary k a b iha ihb =>
    have ha : ∀ x ∈ a.members, x ∈ S := fun x hx => h x (by simp [Expr.members, hx])
    have hb : ∀ x ∈ b.members, x ∈ S := fun x hx => h x (by simp [Expr.members, hx])
    have hab : ∀ x ∈ (Expr.binary .attribute a b).members, x ∈ S := h
    unfold eval
    rw [typeOf_same hsame ha, typeOf_same hsame hb, lvalue_same hsame hab]
    split
    · exact load_related (hload hab)
    · exact castTo_related _ _ (iha ha)
    · exact choose_related _ _ (iha ha) (testValue_related _ (ihb hb)) (literal_related _)
    · exact choose_related _ _ (iha ha) (literal_related _) (testValue_related _ (ihb hb))
    · exact strict_related _ _ _ (iha ha) (ihb hb)
  | ternary k a b c _ _ ihc =>
    have hc : ∀ x ∈ c.members, x ∈ S := fun x hx => h x (by simp [Expr.members, hx])
    have hab : ∀ x ∈ (Expr.binary .attribute a b).members, x ∈ S := fun x hx => h x (by
      simp only [Expr.members, List.mem_append] at hx ⊢
      exact .inl hx)
    unfold eval
    rw [typeOf_same hsame hc, lvalue_same hsame hab]
    split
    · exact assignTo_related (fun p hp => (hload hab p hp).1) _ (ihc hc)
    · exact fun _ _ _ => .none
  | parserState s =>
    simp only [eval]
    rw [lvalue_same hsame h]
    exact load_related (hload h)
  | _ => exact fun _ _ _ => .none

end Same

/-- A side-effect-free expression that has a value keeps it in every unit that agrees on the members
the expression names. -/
theorem eval_stable {env : Env} (hdollar : env.dollar = none) {e : Expr}
    (hpure : e.sideEffectFree = true) {m m' m₁ : UnitMemory} {v : Value}
    (hm : ∀ x ∈ e.members, m' x = m x) (h : eval env e m = some (v, m₁)) :
    m₁ = m ∧ eval env e m' = some (v, m') := by
  obtain rfl := eval_pure hpure h
  have hsame : env.Same env {x | x ∈ e.members} :=
    ⟨rfl, rfl, fun x hx => by simp [hdollar] at hx, fun _ _ => rfl⟩
  have hrel := eval_related hsame (fun x hx => hx) m₁ m' (Agree.of_eq fun x hx => (hm x hx).symm)
  rw [h] at hrel
  generalize hr : eval env e m' = r at hrel
  cases hrel with
  | @some _ q hq =>
    obtain ⟨v', m''⟩ := q
    obtain rfl := eval_pure hpure hr
    exact ⟨rfl, by rw [← show v = v' from hq.1]⟩

end Diffingo.Generation
