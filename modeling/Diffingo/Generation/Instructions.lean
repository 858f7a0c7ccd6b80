import Diffingo.Generation.CodeGenerator
import Diffingo.Library.Resumable

/-!
# Instruction sequences

Both generators walk over the items of a unit and emit one labelled instruction per field, with the
instructions of a switch case inside the switch. The walk is the same for both; what differs is the
code of a field, and that the parser also has instructions for variables.
-/

namespace Diffingo.Generation

open CInteger Resumable Diffingo.Spec Diffingo.Runtime

/-- The labels `lbl<id>_<desc>` of the generated code. -/
structure Label where
  id : Nat
  desc : String
  deriving DecidableEq, Repr

/-- `switch (e) { case ..: .. default: .. }`: the labels of each case and whether it is the
default. -/
structure SwitchGuard where
  expression : Expr
  cases : List (List Expr × Bool)
  deriving DecidableEq, Repr

/-- The value of a case label, which must be a constant of the switched type. -/
def caseLabel (ty : CType) : Expr → Option Int
  | .constant c =>
    (constantType c).bind fun tc =>
      if ty = tc || (ty.arith.isSome && tc.arith.isSome) then
        (constantValue c).bind (·.toInt)
      else none
  | _ => none

/-- The case a value selects: the one with its label, otherwise the default. -/
def SwitchGuard.caseFor (g : SwitchGuard) (ty : CType) (v : Int) : Option Nat :=
  match g.cases.findIdx? fun c => c.1.any fun e => caseLabel ty e = some v with
  | some i => some i
  | none => g.cases.findIdx? (·.2)

def SwitchGuard.select (env : Env) (g : SwitchGuard) (m : UnitMemory) :
    Option (UnitMemory × Option Nat) :=
  (typeOf env g.expression).bind fun ty =>
    if g.cases.all fun c => c.1.all fun e => (caseLabel ty e).isSome then
      (eval env g.expression m).bind fun r => r.1.toInt.map fun v => (r.2, g.caseFor ty v)
    else none

def switchGuard (e : Expr) (s : Switch) : SwitchGuard :=
  ⟨e, s.cases.map fun c => (c.expressions, c.default_)⟩

/-- The fields of the selected case. -/
def selectedFields (cs : List Case) (i : Option Nat) : List AtomicField :=
  ((i.bind (cs[·]?)).map (·.items)).getD []

theorem selectedFields_sub (cs : List Case) (i : Option Nat) :
    ∀ f ∈ selectedFields cs i, f ∈ cs.flatMap (·.items) := by
  intro f hf
  cases hc : i.bind (cs[·]?) with
  | none => simp [selectedFields, hc] at hf
  | some c =>
    obtain ⟨n, -, hn⟩ := Option.bind_eq_some_iff.mp hc
    simp only [selectedFields, hc, Option.map_some, Option.getD_some] at hf
    exact List.mem_flatMap.mpr ⟨c, List.mem_of_getElem? hn, hf⟩

theorem selectedFields_cases (cs : List Case) (i : Option Nat) :
    selectedFields cs i = [] ∨ ∃ c ∈ cs, selectedFields cs i = c.items := by
  unfold selectedFields
  cases h : i.bind (cs[·]?) with
  | none => exact .inl rfl
  | some c =>
    obtain ⟨n, -, hn⟩ := Option.bind_eq_some_iff.mp h
    exact .inr ⟨c, List.mem_of_getElem? hn, rfl⟩

section Emit

variable {B : Type} (field : AtomicField → Option B) (var_ : Variable → Option (Option B))
  (lookAhead : B) (label : Nat → String → Label)

/-- The instructions of the fields of a case; `n` is the last label id used. -/
def emitFields : Nat → List AtomicField → Option (List (Block Label B))
  | _, [] => some []
  | n, f :: fs =>
    (field f).bind fun b => (emitFields (n + 1) fs).map fun bs => ⟨label (n + 1) f.id, b⟩ :: bs

def emitCases : Nat → List Case → Option (List (List (Block Label B)))
  | _, [] => some []
  | n, c :: cs =>
    (emitFields field label n c.items).bind fun bs =>
      (emitCases (n + c.items.length) cs).map (bs :: ·)

/-- The instructions of a list of items. Properties have none, a variable has one if `var_` gives
it code, and a switch without an expression is only a label. -/
def emitItems : Nat → List Item → Option (List (Instr Label B SwitchGuard))
  | _, [] => some []
  | n, .property _ :: rest => emitItems n rest
  | n, .field f :: rest =>
    (field f).bind fun b => (emitItems (n + 1) rest).map fun is =>
      .block ⟨label (n + 1) f.id, b⟩ :: is
  | n, .var v :: rest =>
    (var_ v).bind fun
      | none => emitItems n rest
      | some b => (emitItems (n + 1) rest).map fun is => .block ⟨label (n + 1) v.id, b⟩ :: is
  | n, .switch s :: rest =>
    match s.expression with
    | none =>
      (emitItems (n + 1) rest).map fun is => .block ⟨label (n + 1) s.id, lookAhead⟩ :: is
    | some e =>
      (emitCases field label (n + 1) s.cases).bind fun cs =>
        (emitItems (n + 1 + s.fields.length) rest).map fun is =>
          .branch (label (n + 1) s.id) (switchGuard e s) cs :: is

end Emit

section Labels

variable {B : Type} {field : AtomicField → Option B} {var_ : Variable → Option (Option B)}
  {lookAhead : B} {label : Nat → String → Label} (hlabel : ∀ n x, (label n x).id = n)

include hlabel

theorem emitFields_labels {n : Nat} {fs : List AtomicField} {bs : List (Block Label B)}
    (h : emitFields field label n fs = some bs) :
    (blockLabels bs).map (·.id) = List.range' (n + 1) fs.length := by
  induction fs generalizing n bs with
  | nil => cases h; rfl
  | cons f fs ih =>
    obtain ⟨b, -, h⟩ := Option.bind_eq_some_iff.mp h
    obtain ⟨bs', hbs', rfl⟩ := Option.map_eq_some_iff.mp h
    simp [blockLabels, hlabel, List.range'_succ]
    simpa [blockLabels] using ih hbs'

theorem emitCases_labels {n : Nat} {cs : List Case} {bss : List (List (Block Label B))}
    (h : emitCases field label n cs = some bss) :
    (bss.flatMap blockLabels).map (·.id) =
      List.range' (n + 1) (cs.flatMap (·.items)).length := by
  induction cs generalizing n bss with
  | nil => cases h; rfl
  | cons c cs ih =>
    obtain ⟨bs, hbs, h⟩ := Option.bind_eq_some_iff.mp h
    obtain ⟨bss', hbss', rfl⟩ := Option.map_eq_some_iff.mp h
    rw [List.flatMap_cons, List.map_append, emitFields_labels hlabel hbs, ih hbss',
      List.flatMap_cons, List.length_append, List.range'_append_1.symm]
    congr 2
    omega

theorem emitItems_labels {n : Nat} {items : List Item} {code : List (Instr Label B SwitchGuard)}
    (h : emitItems field var_ lookAhead label n items = some code) :
    (labels code).map (·.id) = List.range' (n + 1) (labels code).length := by
  induction items generalizing n code with
  | nil => cases h; rfl
  | cons i rest ih =>
    -- an instruction takes the next label, and a switch also one for each field of its cases
    have hblock : ∀ {b : Block Label B} {is}, b.label.id = n + 1 →
        emitItems field var_ lookAhead label (n + 1) rest = some is →
        (labels (.block b :: is)).map (·.id) =
          List.range' (n + 1) (labels (.block b :: is)).length := by
      intro b is hb his
      have := ih his
      simp only [labels, List.flatMap_cons, Instr.labels, List.singleton_append, List.map_cons,
        List.length_cons, hb, List.range'_succ] at this ⊢
      rw [this]
    cases i with
    | property p => exact ih h
    | field f =>
      obtain ⟨b, -, h⟩ := Option.bind_eq_some_iff.mp h
      obtain ⟨is, his, rfl⟩ := Option.map_eq_some_iff.mp h
      exact hblock (hlabel _ _) his
    | var v =>
      obtain ⟨b, -, h⟩ := Option.bind_eq_some_iff.mp h
      cases b with
      | none => exact ih h
      | some b =>
        obtain ⟨is, his, rfl⟩ := Option.map_eq_some_iff.mp h
        exact hblock (hlabel _ _) his
    | switch s =>
      simp only [emitItems] at h
      split at h
      · obtain ⟨is, his, rfl⟩ := Option.map_eq_some_iff.mp h
        exact hblock (hlabel _ _) his
      · obtain ⟨bss, hbss, h⟩ := Option.bind_eq_some_iff.mp h
        obtain ⟨is, his, rfl⟩ := Option.map_eq_some_iff.mp h
        have hcases := emitCases_labels hlabel hbss
        have hlen : (bss.flatMap blockLabels).length = s.fields.length := by
          simpa [Switch.fields] using congrArg List.length hcases
        have hrest := ih his
        simp only [labels, List.flatMap_cons, Instr.labels, List.cons_append, List.map_cons,
          List.map_append, List.length_cons, List.length_append, hlabel, List.range'_succ] at hrest ⊢
        rw [hcases, hrest, hlen, List.range'_append_1.symm, Switch.fields]
        congr 3
        omega

/-- The labels of a generated function are distinct. -/
theorem emitItems_nodup {n : Nat} {items : List Item} {code : List (Instr Label B SwitchGuard)}
    (h : emitItems field var_ lookAhead label n items = some code) : (labels code).Nodup := by
  have hids := emitItems_labels hlabel h
  exact List.Nodup.of_map (·.id) (by rw [hids]; exact List.nodup_range')

end Labels

section Blocks

variable {B : Type} {field : AtomicField → Option B} {var_ : Variable → Option (Option B)}
  {lookAhead : B} {label : Nat → String → Label}

/-- The blocks of the selected case are the instructions of its fields. -/
theorem emitCases_chosen {n : Nat} {cs : List Case} {bss : List (List (Block Label B))}
    (h : emitCases field label n cs = some bss) (i : Option Nat) :
    ∃ n', emitFields field label n' (selectedFields cs i) = some (chosen bss i) := by
  cases i with
  | none => exact ⟨n, rfl⟩
  | some i =>
    induction cs generalizing n bss i with
    | nil => cases h; exact ⟨n, by simp [selectedFields, chosen, emitFields]⟩
    | cons c cs ih =>
      obtain ⟨bs, hbs, h⟩ := Option.bind_eq_some_iff.mp h
      obtain ⟨bss', hbss', rfl⟩ := Option.map_eq_some_iff.mp h
      cases i with
      | zero => exact ⟨n, by simpa [selectedFields, chosen] using hbs⟩
      | succ i => simpa [selectedFields, chosen] using ih hbss' i

theorem emitFields_blocks {n : Nat} {fs : List AtomicField} {bs : List (Block Label B)}
    (h : emitFields field label n fs = some bs) :
    ∀ b ∈ bs, ∃ f ∈ fs, field f = some b.body := by
  induction fs generalizing n bs with
  | nil => cases h; simp
  | cons f fs ih =>
    obtain ⟨b, hb, h⟩ := Option.bind_eq_some_iff.mp h
    obtain ⟨bs', hbs', rfl⟩ := Option.map_eq_some_iff.mp h
    intro b' hb'
    rcases List.mem_cons.mp hb' with rfl | hmem
    · exact ⟨f, by simp, hb⟩
    · obtain ⟨f', hf', heq⟩ := ih hbs' b' hmem
      exact ⟨f', List.mem_cons_of_mem _ hf', heq⟩

theorem emitCases_blocks {n : Nat} {cs : List Case} {bss : List (List (Block Label B))}
    (h : emitCases field label n cs = some bss) :
    ∀ b ∈ bss.flatten, ∃ f ∈ cs.flatMap (·.items), field f = some b.body := by
  induction cs generalizing n bss with
  | nil => cases h; simp
  | cons c cs ih =>
    obtain ⟨bs, hbs, h⟩ := Option.bind_eq_some_iff.mp h
    obtain ⟨bss', hbss', rfl⟩ := Option.map_eq_some_iff.mp h
    intro b hb
    rw [List.flatten_cons, List.mem_append] at hb
    rcases hb with hb | hb
    · obtain ⟨f, hf, heq⟩ := emitFields_blocks hbs b hb
      exact ⟨f, by simp [hf], heq⟩
    · obtain ⟨f, hf, heq⟩ := ih hbss' b hb
      exact ⟨f, by rw [List.flatMap_cons]; exact List.mem_append_right _ hf, heq⟩

/-- Where the blocks of a generated function come from. -/
theorem emitItems_blocks {n : Nat} {items : List Item} {code : List (Instr Label B SwitchGuard)}
    (h : emitItems field var_ lookAhead label n items = some code) :
    ∀ c ∈ code, ∀ b ∈ c.blocks, (∃ i ∈ items, ∃ f ∈ i.fields, field f = some b.body) ∨
      (∃ v, Item.var v ∈ items ∧ var_ v = some (some b.body)) ∨ b.body = lookAhead := by
  induction items generalizing n code with
  | nil => cases h; simp
  | cons i rest ih =>
    have hrest : ∀ {n' is}, emitItems field var_ lookAhead label n' rest = some is →
        ∀ c ∈ is, ∀ b ∈ c.blocks, (∃ j ∈ i :: rest, ∃ f ∈ j.fields, field f = some b.body) ∨
          (∃ v, Item.var v ∈ i :: rest ∧ var_ v = some (some b.body)) ∨ b.body = lookAhead := by
      intro n' is his c hc b hb
      rcases ih his c hc b hb with ⟨j, hj, hf⟩ | ⟨v, hv, hb⟩ | hb
      · exact .inl ⟨j, List.mem_cons_of_mem _ hj, hf⟩
      · exact .inr (.inl ⟨v, List.mem_cons_of_mem _ hv, hb⟩)
      · exact .inr (.inr hb)
    intro c hc b hb
    cases i with
    | property p => exact hrest h c hc b hb
    | field f =>
      obtain ⟨body, hbody, h⟩ := Option.bind_eq_some_iff.mp h
      obtain ⟨is, his, rfl⟩ := Option.map_eq_some_iff.mp h
      rcases List.mem_cons.mp hc with rfl | hc
      · obtain rfl := List.mem_singleton.mp hb
        exact .inl ⟨.field f, by simp, f, by simp [Item.fields], hbody⟩
      · exact hrest his c hc b hb
    | var v =>
      obtain ⟨body, hbody, h⟩ := Option.bind_eq_some_iff.mp h
      cases body with
      | none => exact hrest h c hc b hb
      | some body =>
        obtain ⟨is, his, rfl⟩ := Option.map_eq_some_iff.mp h
        rcases List.mem_cons.mp hc with rfl | hc
        · obtain rfl := List.mem_singleton.mp hb
          exact .inr (.inl ⟨v, by simp, hbody⟩)
        · exact hrest his c hc b hb
    | switch s =>
      simp only [emitItems] at h
      split at h
      · obtain ⟨is, his, rfl⟩ := Option.map_eq_some_iff.mp h
        rcases List.mem_cons.mp hc with rfl | hc
        · obtain rfl := List.mem_singleton.mp hb
          exact .inr (.inr rfl)
        · exact hrest his c hc b hb
      · obtain ⟨bss, hbss, h⟩ := Option.bind_eq_some_iff.mp h
        obtain ⟨is, his, rfl⟩ := Option.map_eq_some_iff.mp h
        rcases List.mem_cons.mp hc with rfl | hc
        · obtain ⟨f, hf, heq⟩ := emitCases_blocks hbss b hb
          exact .inl ⟨.switch s, by simp, f, hf, heq⟩
        · exact hrest his c hc b hb

end Blocks

end Diffingo.Generation
