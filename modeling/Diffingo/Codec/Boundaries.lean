import Diffingo.Codec.Compactable
import Diffingo.Codec.Truthful

/-!
# Message boundaries

The parser of a compact unit finds the end of a message where the parser of the unit finds it,
provided that the summed lengths of the ranges fit into the C types they are computed in. The two
readers are at the same place whenever no field is held back.
-/

namespace Diffingo.Codec

open CInteger ByteMemory Diffingo.Spec Diffingo.Runtime Diffingo.Generation
open InstantiationTypeGenerator (Piece pieces closeRange kept itemContext lengths rangeLength copyFor
  rangeField render cut_pieces Cut Nameable Omitted Measured nameAfter)
open InstantiationDependencyResolver (visit)

/-! ## The pieces -/

section Reading

variable {o : Options} {u : UnitType} {deps : List Dependency} {name : String} {n : Nat}
  {memory : Memory} {e : Int}

theorem readItem_field (c : Schema) {f : AtomicField} {k : FieldKind} (hk : c.kind f = some k)
    (m : UnitMemory) (p : Int) :
    c.readItem memory e (.field f) m p = c.readField memory e k f.id m p := by
  simp only [Schema.readItem, Schema.readFields, hk, Option.bind_some]
  have hthen : ∀ r : Read, r.andThen (fun m p => some (.next m p)) = some r := by
    intro r
    cases r <;> rfl
  simp [hthen]

/-- The struct of the compact unit, under the name of the unit. -/
def viewSchema (o : Options) (u K : UnitType) : Schema :=
  ⟨(unitEnv o K).named u.id, fieldKind o u⟩

/-- A copy reads what the item reads. -/
theorem Compactable.readItem_copy (h : Compactable o deps name n u) (memory : Memory) (e : Int)
    {i : Item} (hi : i ∈ u.items)
    (hkept : kept deps i = true ∨ ∃ a, i = .property a) {m m' : UnitMemory}
    (hagree : Agree (unitEnv o u) (keptMembers deps u) m m') (p : Int) :
    Option.Rel (ReadMatches (unitEnv o u) (keptMembers deps u))
      ((schema o u).readItem memory e i m p)
      ((schema o (compactUnit deps name n u)).readItem memory e
        (((Piece.copy i).item deps).replaceSelf name) m' p) := by
  cases i with
  | property a =>
    rw [Piece.item, copyFor_property]
    exact .some ⟨rfl, hagree⟩
  | switch s =>
    rcases hkept with hkept | ⟨a, ha⟩
    · rw [h.switches s hi] at hkept
      cases hkept
    · cases ha
  | var v =>
    have hkept : kept deps (.var v) = true := hkept.resolve_right (by simp)
    obtain ⟨b, hb⟩ := copyFor_var name _ v
    have hv := h.variablesKept v hi hkept
    have hvar : (schema o (compactUnit deps name n u)).readVariable (copyVariable name b v) m' = _ :=
      readVariable_replaceSelf (d := viewSchema o u (compactUnit deps name n u)) rfl
        (fun ex hex => (hv ex hex).1) b m'
    rw [Piece.item, hb]
    simp only [Schema.readItem, hvar]
    exact rel_map_rel (readVariable_related (c := schema o u)
      (d := viewSchema o u (compactUnit deps name n u)) h.same
      ⟨.var v, hi, hkept, List.mem_singleton.mpr rfl⟩ (fun ex hex => (hv ex hex).2) hagree)
      fun m₁ m₂ hm => ⟨rfl, hm⟩
  | field f =>
    have hkept : kept deps (.field f) = true := hkept.resolve_right (by simp)
    obtain ⟨b, hb⟩ := copyFor_field name _ f
    obtain ⟨k, ty, hk, hty, hmember, hlen⟩ := h.kind hi
    have hcopy : fieldKind o (compactUnit deps name n u) (copyField name b f) =
        some (k.replaceSelf name) := by
      rw [fieldKind_copyField b (h.accessible _ hi f (List.mem_singleton.mpr rfl))
        (h.byteOrder f hi hkept), hk, Option.map_some]
    have hfield : (schema o (compactUnit deps name n u)).readField memory e (k.replaceSelf name)
        f.id m' p = _ := readField_replaceSelf
      (d := viewSchema o u (compactUnit deps name n u)) rfl
      (fun ex hex => (hlen ex hex).1.within) memory e f.id m' p
    rw [Piece.item, hb, readItem_field _ hk, readItem_field _ hcopy]
    dsimp only [copyField]
    rw [hfield]
    exact readField_related (c := schema o u)
      (d := viewSchema o u (compactUnit deps name n u)) h.same hty hmember
      (fun ex hex => (hlen ex hex).2) hagree

/-- A range takes as many bytes as its length says. -/
theorem readItem_range (o : Options) (deps : List Dependency) (name : String) (memory : Memory)
    (e : Int) (K : UnitType) (k : Nat) (held : List Item) (ex : Expr) (m : UnitMemory) (p : Int) :
    ∃ cell : Nat → UnitMemory → Cell,
      (schema o K).readItem memory e (((Piece.range k held ex).item deps).replaceSelf name) m p =
        (evalLength (unitEnv o K) (ex.replaceSelf name) m).map fun r =>
          if e - p < r.1 then .short
          else .next (Function.update r.2 (anonymousId k) (cell r.1 r.2)) (p + r.1) := by
  have hkind := fieldKind_rangeField o K k (ex.replaceSelf name)
  split at hkind
  · exact ⟨fun n m => (FieldKind.range (ex.replaceSelf name)).stored memory p n (m (anonymousId k)),
      readItem_field (schema o K) hkind m p⟩
  · exact ⟨fun n m => (FieldKind.copy (ex.replaceSelf name)).stored memory p n (m (anonymousId k)),
      readItem_field (schema o K) hkind m p⟩

/-- A variable of the compact unit changes this variable only. -/
theorem readItem_copy_var_keeps {v : Variable}
    (hpure : ∀ ex ∈ parseExpression v, ex.sideEffectFree = true) {m' m'' : UnitMemory} {p q : Int}
    (hread : (schema o (compactUnit deps name n u)).readItem memory e
      (((Piece.copy (.var v)).item deps).replaceSelf name) m' p = some (.next m'' q)) :
    q = p ∧ ∀ x ≠ v.id, m'' x = m' x := by
  obtain ⟨b, hb⟩ := copyFor_var name _ v
  rw [Piece.item, hb] at hread
  obtain ⟨m₁, hm₁, heq⟩ := Option.map_eq_some_iff.mp hread
  cases heq
  refine ⟨rfl, fun x hx => readVariable_keeps ?_ hm₁ hx⟩
  intro ex hex
  rw [parseExpression_copyVariable] at hex
  obtain ⟨ex', hex', rfl⟩ := Option.map_eq_some_iff.mp hex
  rw [Expr.sideEffectFree_replaceSelf]
  exact hpure ex' hex'

end Reading

/-! ## Two readers -/

/-- The sum of lengths that a reader finds at a field fits into its type, at every field that the
reader comes to. -/
def SumsFit (c : Schema) (memory : Memory) (e : Int) : List Item → UnitMemory → Int → Prop
  | [], _, _ => True
  | i :: rest, m, p =>
    (∀ f ∈ i.fields, ∀ ex ∈ (c.kind f).bind FieldKind.length, SumFits c.env m ex) ∧
      ∀ m' q, c.readItem memory e i m p = some (.next m' q) → SumsFit c memory e rest m' q

/-- The reader of the unit, at `p` with the unit `m`, and the one of the compact unit, at `p'` with
`m'`: what the first one is ahead by are the fields that are held back. -/
structure Behind (o : Options) (deps : List Dependency) (u : UnitType) (e : Int) (held : List Item)
    (m : UnitMemory) (p : Int) (m' : UnitMemory) (p' : Int) : Prop where
  agree : Agree (unitEnv o u) (keptMembers deps u) m m'
  pos : p = p' + total (unitEnv o u) m (lengths held)
  inside : p ≤ e
  defined : ∀ ex ∈ lengths held, (evalLength (unitEnv o u) ex m).isSome = true

theorem Behind.start {o : Options} {deps : List Dependency} {u : UnitType} {e p : Int}
    {m m' : UnitMemory} (h : Agree (unitEnv o u) (keptMembers deps u) m m') (hp : p ≤ e) :
    Behind o deps u e [] m p m' p :=
  ⟨h, by simp [lengths, total], hp, by simp [lengths]⟩

theorem SumsFit.range {o : Options} {K : UnitType} {deps : List Dependency} {name : String}
    {memory : Memory} {e p : Int} {m : UnitMemory} {k : Nat} {held : List Item} {later : List Piece}
    {ex : Expr} (h : SumsFit (schema o K) memory e
      (render deps name (.range k held ex :: later)) m p) :
    SumFits (unitEnv o K) m (ex.replaceSelf name) := by
  refine h.1 (rangeField k (ex.replaceSelf name)) (List.mem_singleton.mpr rfl) _ ?_
  change _ ∈ (fieldKind o K _).bind _
  rw [fieldKind_rangeField]
  split <;> rfl

/-- Sums that fit in every unit fit along the way. -/
theorem sumsFit_of_forall {c : Schema} {memory : Memory} {e : Int} {items : List Item}
    (h : ∀ i ∈ items, ∀ f ∈ i.fields, ∀ ex ∈ (c.kind f).bind FieldKind.length, ∀ m,
      SumFits c.env m ex) (m : UnitMemory) (p : Int) : SumsFit c memory e items m p := by
  induction items generalizing m p with
  | nil => trivial
  | cons i rest ih =>
    exact ⟨fun f hf ex hex => h i List.mem_cons_self f hf ex hex m,
      fun m' q _ => ih (fun j hj => h j (List.mem_cons_of_mem i hj)) m' q⟩

/-- Where the reader of the compact unit gets if the other one gets to `r`. -/
def Arrives (env : Env) (S : Set String) : Read → Option Read → Prop
  | .next m q, r => ∃ m', r = some (.next m' q) ∧ Agree env S m m'
  | .short, r => ∀ m' q, r ≠ some (.next m' q)

section Simulation

variable {o : Options} {u : UnitType} {deps : List Dependency} {name : String} {n : Nat}
  {memory : Memory} {e : Int}

theorem rel_some_left {α β : Type} {R : α → β → Prop} {a : α} {b : Option β}
    (h : Option.Rel R (some a) b) : ∃ b', b = some b' ∧ R a b' := by
  cases h with
  | some hab => exact ⟨_, rfl, hab⟩

theorem rel_some_right {α β : Type} {R : α → β → Prop} {a : Option α} {b : β}
    (h : Option.Rel R a (some b)) : ∃ a', a = some a' ∧ R a' b := by
  cases h with
  | some hab => exact ⟨_, rfl, hab⟩

theorem rangeLength_none {held : List Item} (h : rangeLength none (lengths held) = none) :
    lengths held = [] := by
  cases hlengths : lengths held with
  | nil => rfl
  | cons ex es =>
    have hsome := InstantiationTypeGenerator.rangeLength_isSome none ex es
    rw [← hlengths, h] at hsome
    cases hsome

theorem agree_other {env : Env} {S : Set String} {m m' m₁ m₁' : UnitMemory} (h : Agree env S m m')
    (hm : ∀ x ∈ S, m₁ x = m x) (hm' : ∀ x ∈ S, m₁' x = m' x) : Agree env S m₁ m₁' := by
  intro x hx ty hty
  rw [hm x hx, hm' x hx]
  exact h x hx ty hty

variable (h : Compactable o deps name n u)

include h

/-- Closing a range brings the readers to the same place. -/
theorem Compactable.read_closeRange {held items : List Item} (hl : Left o deps u held items)
    {m m' : UnitMemory} {p p' : Int} (hb : Behind o deps u e held m p m' p') {k : Nat} (hk : n ≤ k)
    (qs : List Piece) (hfit : SumsFit (schema o (compactUnit deps name n u)) memory e
      (render deps name (closeRange k held ++ qs)) m' p') :
    ∃ m'', Agree (unitEnv o u) (keptMembers deps u) m m'' ∧
      SumsFit (schema o (compactUnit deps name n u)) memory e (render deps name qs) m'' p ∧
      (schema o (compactUnit deps name n u)).readItems memory e
        (render deps name (closeRange k held ++ qs)) m' p' =
          (schema o (compactUnit deps name n u)).readItems memory e (render deps name qs) m'' p := by
  cases hex : rangeLength none (lengths held) with
  | none =>
    have hpos : p = p' := by simpa [rangeLength_none hex, total] using hb.pos
    simp only [closeRange, hex, List.nil_append, hpos] at hfit ⊢
    exact ⟨m', hb.agree, hfit, rfl⟩
  | some ex =>
    obtain ⟨hsum, hsummands⟩ := h.range_sum hl.omitted hex
    simp only [closeRange, hex, List.cons_append, List.nil_append] at hfit ⊢
    obtain ⟨cell, hread⟩ := readItem_range o deps name memory e (compactUnit deps name n u) (k + 1)
      held ex m' p'
    -- the lengths have values in the struct of the compact unit, too
    have hdefined : ∀ s ∈ summands ex,
        (evalLength ((unitEnv o (compactUnit deps name n u)).named u.id) s m').isSome = true := by
      rw [hsummands]
      intro s hs
      have hrel := evalLength_related h.same (h.held_lengths hl.omitted hs).2 hb.agree
      have hsome := hb.defined s hs
      generalize evalLength (unitEnv o u) s m = a at hrel hsome
      generalize evalLength _ s m' = b at hrel ⊢
      cases hrel with
      | none => cases hsome
      | some hr => rfl
    have heval : evalLength (unitEnv o (compactUnit deps name n u)) (ex.replaceSelf name) m' =
        some (total (unitEnv o u) m (lengths held), m') := by
      have hexact := hsum.exact hdefined (hsum.sumFits_replaceSelf.mp hfit.range)
      rw [hsummands, h.total_eq hl.omitted hb.agree] at hexact
      exact (evalLength_replaceSelf _ (show ex.within u.id = true from hsum.within) m').trans hexact
    have hpos := hb.pos
    have hinside := hb.inside
    rw [heval, Option.map_some, if_neg (by omega), ← hpos] at hread
    refine ⟨_, ?_, hfit.2 _ _ hread, by rw [render, List.map_cons, Schema.readItems, hread]; rfl⟩
    refine agree_other hb.agree (fun _ _ => rfl) fun x hx => Function.update_of_ne ?_ _ _
    rintro rfl
    exact h.anonymous_not_kept (by omega) hx

/-- A range that needs more than is left ends the reading. -/
theorem Compactable.closeRange_short {held items : List Item} (hl : Left o deps u held items)
    {k : Nat} (qs : List Piece) {m' : UnitMemory} {p' : Int} (hp' : p' ≤ e)
    (hshort : e - p' <
      total ((unitEnv o (compactUnit deps name n u)).named u.id) m' (lengths held))
    (hfit : SumsFit (schema o (compactUnit deps name n u)) memory e
      (render deps name (closeRange k held ++ qs)) m' p') (mc : UnitMemory) (q : Int) :
    (schema o (compactUnit deps name n u)).readItems memory e
      (render deps name (closeRange k held ++ qs)) m' p' ≠ some (.next mc q) := by
  cases hex : rangeLength none (lengths held) with
  | none =>
    rw [rangeLength_none hex] at hshort
    simp [total] at hshort
    omega
  | some ex =>
    simp only [closeRange, hex, List.cons_append, List.nil_append] at hfit ⊢
    obtain ⟨cell, hread⟩ := readItem_range o deps name memory e (compactUnit deps name n u) (k + 1)
      held ex m' p'
    intro hnext
    rw [render, List.map_cons, Schema.readItems, hread] at hnext
    cases hr : evalLength (unitEnv o (compactUnit deps name n u)) (ex.replaceSelf name) m' with
    | none => simp [hr] at hnext
    | some r =>
      obtain ⟨-, hlen⟩ := h.evalLength_range hl.omitted hex hfit.range hr
      rw [hr, Option.map_some, if_pos (by omega)] at hnext
      cases hnext

/-- Once the fields that are held back need more than is left, the reader of the compact unit does
not come to the end. -/
theorem Compactable.doomed {k : Nat} {held items : List Item} {qs : List Piece}
    (hcut : Cut deps k held items qs) (hl : Left o deps u held items) {m' : UnitMemory} {p' : Int}
    (hp' : p' ≤ e) (hshort : e - p' <
      total ((unitEnv o (compactUnit deps name n u)).named u.id) m' (lengths held))
    (hfit : SumsFit (schema o (compactUnit deps name n u)) memory e (render deps name qs) m' p')
    (mc : UnitMemory) (q : Int) :
    (schema o (compactUnit deps name n u)).readItems memory e (render deps name qs) m' p' ≠
      some (.next mc q) := by
  induction hcut generalizing m' with
  | nil k held =>
    rw [← List.append_nil (closeRange k held)] at hfit ⊢
    exact h.closeRange_short hl [] hp' hshort hfit mc q
  | @var k held rest qs v hkept hcut ih =>
    rw [render, List.map_cons, Schema.readItems]
    cases hr : (schema o (compactUnit deps name n u)).readItem memory e
        (((Piece.copy (.var v)).item deps).replaceSelf name) m' p' with
    | none => simp
    | some r =>
      cases r with
      | short => simp [Read.andThen]
      | next m'' q' =>
        obtain ⟨rfl, hkeeps⟩ := readItem_copy_var_keeps hl.ordered.1 hr
        refine ih hl.tail ?_ (hfit.2 _ _ hr)
        rwa [total_congr (fun s hs => (h.held_lengths hl.omitted hs).1.same h.same
          (h.held_lengths hl.omitted hs).2) fun s hs x hx => hkeeps x ?_]
        rintro rfl
        exact hl.later s hs _ hx (by simp [memberIds, Item.memberIds])
  | copy => exact h.closeRange_short hl _ hp' hshort hfit mc q
  | hold homitted hcut ih =>
    obtain ⟨ex, -, hlengths, -, hl'⟩ := h.hold hl homitted
    refine ih hl' ?_ hfit
    rw [hlengths, total_append]
    omega
  | skip _ _ ih => exact ih hl.tail hshort hfit
  | property _ ih =>
    rw [render, List.map_cons, Piece.item, copyFor_property] at hfit ⊢
    exact ih hl.tail hshort (hfit.2 _ _ rfl)

/-- The reader of the unit passes an item that concerns no length that is held back. -/
theorem Compactable.behind_pass {held rest : List Item} {i : Item} {m m' m₁ m₁' : UnitMemory}
    {p p' : Int} (hl : Left o deps u held (i :: rest)) (hb : Behind o deps u e held m p m' p')
    (hm : ∀ x ∉ i.memberIds, m₁ x = m x)
    (hagree : Agree (unitEnv o u) (keptMembers deps u) m₁ m₁') :
    Behind o deps u e held m₁ p m₁' p' := by
  have hplain : ∀ ex ∈ lengths held, PlainLength (unitEnv o u) ex := fun ex hex =>
    (h.held_lengths hl.omitted hex).1
  have hsame : ∀ ex ∈ lengths held, ∀ x ∈ ex.members, m₁ x = m x := fun ex hex x hx =>
    hm x fun hx' => hl.later ex hex x hx (List.mem_append_left _ hx')
  refine ⟨hagree, ?_, hb.inside, fun ex hex => ?_⟩
  · rw [total_congr hplain hsame]
    exact hb.pos
  · rw [(hplain ex hex).evalLength_congr (hsame ex hex), Option.isSome_map]
    exact hb.defined ex hex

/-- The reader of the unit reads an item that the other one holds back. -/
theorem Compactable.behind_hold {held rest : List Item} {i : Item} {m m' m₁ : UnitMemory}
    {p p' q : Int} (hl : Left o deps u held (i :: rest)) (hb : Behind o deps u e held m p m' p')
    (homitted : Omitted deps i) {ex : Expr} (hex : i.serializedLength = some ex) (hq : q ≤ e)
    (hskips : Skips (unitEnv o u) e i ex m p (.next m₁ q)) :
    Behind o deps u e (held ++ [i]) m₁ q m' p' := by
  obtain ⟨len, hlen, rfl, hm⟩ := hskips
  have hagree : Agree (unitEnv o u) (keptMembers deps u) m₁ m' := agree_other hb.agree
    (fun x hx => hm x fun hx' => h.not_kept hl.head homitted.1 hx' hx) fun _ _ => rfl
  obtain ⟨ex', hex', hlengths, hlater, hl'⟩ := h.hold hl homitted
  obtain rfl : ex = ex' := Option.some.inj (hex.symm.trans hex')
  have hplain : ∀ s ∈ lengths held ++ [ex], PlainLength (unitEnv o u) s := fun s hs =>
    (h.held_lengths hl'.omitted (hlengths ▸ hs)).1
  have hsame : ∀ s ∈ lengths held ++ [ex], ∀ x ∈ s.members, m₁ x = m x := fun s hs x hx =>
    hm x fun hx' => hlater s hs x hx (List.mem_append_left _ hx')
  refine ⟨hagree, ?_, hq, ?_⟩ <;> rw [hlengths]
  · rw [total_congr hplain hsame, total_append, total_singleton, lengthOf_eq hlen, hb.pos]
    push_cast
    ring
  · intro s hs
    rw [(hplain s hs).evalLength_congr (hsame s hs), Option.isSome_map]
    rcases List.mem_append.mp hs with hs | hs
    · exact hb.defined s hs
    · rw [List.mem_singleton.mp hs, hlen]
      rfl

/-- The reader of the compact unit comes to the end exactly where the reader of the unit does. -/
theorem Compactable.simulates {k : Nat} {held items : List Item} {qs : List Piece}
    (hcut : Cut deps k held items qs) (hk : n ≤ k) (hl : Left o deps u held items)
    {m m' : UnitMemory} {p p' : Int} (hexact : ItemsExact (schema o u) memory e items m p)
    (hb : Behind o deps u e held m p m' p')
    (hfit : SumsFit (schema o (compactUnit deps name n u)) memory e (render deps name qs) m' p')
    {r : Read} (hread : (schema o u).readItems memory e items m p = some r) :
    Arrives (unitEnv o u) (keptMembers deps u) r
      ((schema o (compactUnit deps name n u)).readItems memory e (render deps name qs) m' p') := by
  -- where the reader of the unit gets with one item
  have hstep : ∀ {held i rest m m' p p' r₁}, Left o deps u held (i :: rest) →
      Behind o deps u e held m p m' p' → (schema o u).readItem memory e i m p = some r₁ →
      ∀ m₁ q, r₁ = .next m₁ q → (∀ x ∉ i.memberIds, m₁ x = m x) ∧ q ≤ e := by
    rintro held i rest m m' p p' r₁ hl hb hr₁ m₁ q rfl
    exact ⟨fun x hx => readItem_keeps hl.ordered hr₁ hx, (readItem_inside hb.inside hr₁).2⟩
  induction hcut generalizing m m' p p' with
  | nil k held =>
    rw [← List.append_nil (closeRange k held)] at hfit ⊢
    obtain ⟨m'', hagree, -, hclose⟩ := h.read_closeRange hl hb hk [] hfit
    cases hread
    exact ⟨m'', hclose, hagree⟩
  | @var k held rest qs v hkept hcut ih =>
    obtain ⟨r₁, hr₁, hread⟩ := Option.bind_eq_some_iff.mp hread
    have hnext := hstep hl hb hr₁
    obtain ⟨m₁, hm₁, rfl⟩ := Option.map_eq_some_iff.mp hr₁
    have hcopy := h.readItem_copy memory e hl.head (.inl hkept) hb.agree p'
    rw [show (schema o u).readItem memory e (.var v) m p' = some (.next m₁ p') by
      simp only [Schema.readItem, hm₁, Option.map_some]] at hcopy
    obtain ⟨r₂, hr₂, hmatch⟩ := rel_some_left hcopy
    cases r₂ with
    | short => cases hmatch
    | next m₂ q =>
      obtain ⟨rfl, hagree⟩ := hmatch
      rw [render, List.map_cons, Schema.readItems, hr₂, Option.bind_some]
      exact ih hk hl.tail (hexact.2 _ _ hr₁) (h.behind_pass hl hb (hnext _ _ rfl).1 hagree)
        (hfit.2 _ _ hr₂) hread
  | @copy k held rest qs i hkept hvar hcut ih =>
    obtain ⟨r₁, hr₁, hread⟩ := Option.bind_eq_some_iff.mp hread
    obtain ⟨m'', hagree, hfit, hclose⟩ := h.read_closeRange hl hb hk _ hfit
    have hcopy := h.readItem_copy memory e hl.head (.inl hkept) hagree p
    rw [hr₁] at hcopy
    obtain ⟨r₂, hr₂, hmatch⟩ := rel_some_left hcopy
    rw [hclose, render, List.map_cons, Schema.readItems, hr₂, Option.bind_some]
    cases r₁ with
    | short =>
      cases r₂ with
      | short =>
        cases hread
        exact fun _ _ => by simp [Read.andThen]
      | next m₂ q => cases hmatch
    | next m₁ q =>
      cases r₂ with
      | short => cases hmatch
      | next m₂ q' =>
        obtain ⟨rfl, hagree⟩ := hmatch
        exact ih (le_nameAfter_closeRange hk held i) hl.tail.close (hexact.2 _ _ hr₁)
          (.start hagree (hstep hl hb hr₁ _ _ rfl).2) (hfit.2 _ _ hr₂) hread
  | @hold k held rest qs i homitted hcut ih =>
    obtain ⟨r₁, hr₁, hread⟩ := Option.bind_eq_some_iff.mp hread
    obtain ⟨ex, hex, hlengths, -, hl'⟩ := h.hold hl homitted
    -- an item that is held back is read by one reader only
    have hskips : Skips (unitEnv o u) e i ex m p r₁ := by
      cases i with
      | field f => exact h.readField_skips hl.head hex hr₁
      | switch s =>
        exact h.readSwitch_skips hl.head (fun ex hex => (hl.ordered.1 ex hex).pure) hex hexact.1 hr₁
      | var v => exact homitted.2.elim
      | property a => exact homitted.2.elim
    cases r₁ with
    | short =>
      obtain ⟨len, hlen, hshort⟩ := hskips
      cases hread
      have hpos := hb.pos
      have hinside := hb.inside
      refine h.doomed hcut hl' (by omega) ?_ hfit
      rw [h.total_eq hl'.omitted hb.agree, hlengths, total_append, total_singleton,
        lengthOf_eq hlen]
      push_cast
      dsimp only at hshort
      omega
    | next m₁ q =>
      exact ih hk hl' (hexact.2 _ _ hr₁)
        (h.behind_hold hl hb homitted hex (hstep hl hb hr₁ _ _ rfl).2 hskips) hfit hread
  | @skip k held rest qs v hkept hcut ih =>
    obtain ⟨r₁, hr₁, hread⟩ := Option.bind_eq_some_iff.mp hread
    have hnext := hstep hl hb hr₁
    obtain ⟨m₁, hm₁, rfl⟩ := Option.map_eq_some_iff.mp hr₁
    have hm := (hnext _ _ rfl).1
    refine ih hk hl.tail (hexact.2 _ _ hr₁) (h.behind_pass hl hb hm ?_) hfit hread
    exact agree_other hb.agree (fun x hx => hm x fun hx' => h.not_kept hl.head hkept hx' hx)
      fun _ _ => rfl
  | property hcut ih =>
    rw [render, List.map_cons, Piece.item, copyFor_property] at hfit ⊢
    exact ih hk hl.tail (hexact.2 _ _ rfl) (h.behind_pass hl hb (fun _ _ => rfl) hb.agree)
      (hfit.2 _ _ rfl) hread

end Simulation

/-! ## What has been read -/

/-- The number of bytes that a reader takes for the item `i`. -/
def consumed (c : Schema) (memory : Memory) (e : Int) (i : Item) : List Item → UnitMemory → Int → Int
  | [], _, _ => 0
  | j :: rest, m, p =>
    match c.readItem memory e j m p with
    | some (.next m' q) => if j = i then q - p else consumed c memory e i rest m' q
    | _ => 0

section Read

variable {o : Options} {u : UnitType} {memory : Memory} {e : Int}

/-- In a unit without switches whose lengths depend on earlier members, the sums fit along the way
if and only if they fit at the end. -/
theorem sumsFit_iff {items : List Item} (hordered : ItemsOrdered o u items)
    (hswitch : ∀ s, .switch s ∉ items)
    (hsum : ∀ i ∈ items, ∀ f ∈ i.fields, ∀ ex ∈ (fieldKind o u f).bind FieldKind.length,
      SumLength (unitEnv o u) ex) {m m' : UnitMemory} {p q : Int}
    (hread : (schema o u).readItems memory e items m p = some (.next m' q)) :
    SumsFit (schema o u) memory e items m p ↔ ∀ i ∈ items, ∀ f ∈ i.fields,
      ∀ ex ∈ (fieldKind o u f).bind FieldKind.length, SumFits (unitEnv o u) m' ex := by
  induction items generalizing m p with
  | nil => simp [SumsFit]
  | cons i rest ih =>
    have hall := hread
    obtain ⟨r, hr, hrest⟩ := Option.bind_eq_some_iff.mp hread
    cases r with
    | short => cases hrest
    | next m₁ p₁ =>
      have ih := ih (itemsOrdered_tail hordered) (fun s hs => hswitch s (List.mem_cons_of_mem i hs))
        (fun j hj => hsum j (List.mem_cons_of_mem i hj)) hrest
      have hfield : ∀ f ∈ i.fields, ∀ ex ∈ (fieldKind o u f).bind FieldKind.length,
          (SumFits (unitEnv o u) m' ex ↔ SumFits (unitEnv o u) m ex) := by
        intro f hf ex hex
        refine (hsum i List.mem_cons_self f hf ex hex).sumFits_congr fun x hx => ?_
        refine readItems_keeps hordered hall ?_
        cases i with
        | field g =>
          obtain rfl := List.mem_singleton.mp hf
          have := (hordered.1.1 ex hex).members x hx
          simpa [memberIds, Item.memberIds] using this
        | switch s => exact absurd List.mem_cons_self (hswitch s)
        | var v => cases hf
        | property a => cases hf
      have hrec : (∀ m'' q', (schema o u).readItem memory e i m p = some (.next m'' q') →
          SumsFit (schema o u) memory e rest m'' q') ↔
            SumsFit (schema o u) memory e rest m₁ p₁ := by
        rw [hr]
        simp
      rw [SumsFit, hrec, ih, List.forall_mem_cons]
      refine and_congr ⟨fun h f hf ex hex => (hfield f hf ex hex).mpr (h f hf ex hex),
        fun h f hf ex hex => (hfield f hf ex hex).mp (h f hf ex hex)⟩ Iff.rfl

/-- The bytes that are read for a field that is left out are its length in the final unit. -/
theorem Compactable.consumed_eq {deps : List Dependency} {name : String} {n : Nat}
    (h : Compactable o deps name n u) {items : List Item} (hsub : ∀ i ∈ items, i ∈ u.items)
    (hordered : ItemsOrdered o u items) {f : AtomicField} (hf : .field f ∈ items)
    (homitted : Omitted deps (.field f)) {ex : Expr} (hex : f.serializedLength = some ex)
    {m m' : UnitMemory} {p q : Int}
    (hread : (schema o u).readItems memory e items m p = some (.next m' q)) :
    consumed (schema o u) memory e (.field f) items m p = lengthOf (unitEnv o u) m' ex := by
  induction items generalizing m p with
  | nil => cases hf
  | cons i rest ih =>
    have hall := hread
    obtain ⟨r, hr, hrest⟩ := Option.bind_eq_some_iff.mp hread
    cases r with
    | short => cases hrest
    | next m₁ p₁ =>
      simp only [consumed, hr]
      split
      · rename_i heq
        subst heq
        have hi := hsub _ List.mem_cons_self
        obtain ⟨len, hlen, rfl, -⟩ := h.readField_skips hi hex hr
        obtain ⟨ex', hex', hplain, -⟩ := h.omitted_length hi homitted
        obtain rfl : ex = ex' := Option.some.inj (hex.symm.trans hex')
        have hlater := h.omitted_later hi hordered hex
        rw [lengthOf, hplain.evalLength_congr fun x hx => readItems_keeps hordered hall (hlater x hx),
          hlen]
        simp
      · rename_i hne
        exact ih (fun j hj => hsub j (List.mem_cons_of_mem i hj)) (itemsOrdered_tail hordered)
          ((List.mem_cons.mp hf).resolve_left (Ne.symm hne)) hrest

end Read

/-! ## Instantiations -/

/-- An instantiation of a flat unit of fields and variables that have the application's names only.
The variables that it needs depend on items that it needs, and the fields keep their byte order. -/
structure Instantiable (o : Options) (items : List Generation.Path) (name : String) (n : Nat)
    (u : UnitType) :
    Prop extends Flat o u where
  ordered : ItemsOrdered o u u.items
  accessible : ∀ i ∈ u.items, ∀ f ∈ i.fields, f.applicationAccessible = true
  noSwitch : ∀ s, .switch s ∉ u.items
  noLength : "__length" ∉ u.items.flatMap Item.memberIds
  fresh : ∀ k, n < k → anonymousId k ∉ u.items.flatMap Item.memberIds
  variablesKept : ∀ v, .var v ∈ u.items →
    kept (visit u items) (.var v) = true →
    ∀ ex ∈ parseExpression v, ex.within u.id = true ∧
      ∀ x ∈ ex.members, x ∈ keptMembers (visit u items) u
  byteOrder : ∀ f, .field f ∈ u.items →
    kept (visit u items) (.field f) = true →
    ParserGenerator.byteOrder (instantiate name n u items) (f.attributes.map (·.replaceSelf name)) =
      ParserGenerator.byteOrder u f.attributes

section Instantiations

open InstantiationDependencyResolver Saturation

variable {o : Options} {u : UnitType} {items : List Generation.Path} {name : String} {n : Nat}

theorem kept_of_has {i : Item} {c : Finset DependencyContext} (hc : c ≠ ∅)
    (hid : i.id ≠ "__length")
    (h : Has (resolved (DependencyMapBuilder.run u) items) [i.id] c) :
    kept (visit u items) i = true := by
  refine InstantiationTypeGenerator.kept_iff.mpr fun hempty => hc ?_
  have hsub := dependencyContextFor_has (visit_has h (by simpa [lengthTrackingId] using hid))
  exact Finset.subset_empty.mp (hempty ▸ hsub)

variable (h : Instantiable o items name n u)

include h

theorem Instantiable.item_id {x : String} {ty : CType} (hx : (unitEnv o u).members x = some ty) :
    ∃ i ∈ u.items, i.id = x ∧ x ∈ i.memberIds ∧ x ≠ "__length" := by
  obtain ⟨a, ha, rfl⟩ : ∃ a, (unitMembers o u).lookup x = some a ∧ a = some ty := by
    simpa [unitEnv, Option.join_eq_some_iff] using hx
  have hmem : x ∈ u.items.flatMap Item.memberIds := by
    obtain ⟨l₁, l₂, hl, -⟩ := List.lookup_eq_some_iff.mp ha
    rw [← unitMembers_ids o u, hl]
    simp
  obtain ⟨i, hi, hxi⟩ := List.mem_flatMap.mp hmem
  refine ⟨i, hi, ?_, hxi, fun heq => h.noLength (heq ▸ hmem)⟩
  cases i with
  | field f => exact (List.mem_singleton.mp hxi).symm
  | switch s => exact absurd hi (h.noSwitch s)
  | var v => exact (List.mem_singleton.mp hxi).symm
  | property a => cases hxi

/-- A member that is requested is needed. -/
theorem Instantiable.requested {x : String} (hx : [x] ∈ items) {ty : CType}
    (hty : (unitEnv o u).members x = some ty) : x ∈ keptMembers (visit u items) u := by
  obtain ⟨i, hi, rfl, hxi, hne⟩ := h.item_id hty
  exact ⟨i, hi, kept_of_has (Finset.singleton_ne_empty _) hne (resolved_requested hx), hxi⟩

theorem Instantiable.compactable : Compactable o (visit u items) name n u where
  toFlat := h.toFlat
  fresh := h.fresh
  measured := by
    intro i hi _
    cases i with
    | field f =>
      obtain ⟨k, ty, hk, -⟩ := h.toFlat.declared hi (List.mem_singleton.mpr rfl)
      change f.serializedLength.isSome = true
      unfold AtomicField.serializedLength
      split
      · rfl
      · rename_i hn
        obtain ⟨ex, hex, -⟩ := fieldKind_dynamic hk (not_le.mp hn)
        rw [hex]
        rfl
    | switch s => exact absurd hi (h.noSwitch s)
    | var v => trivial
    | property a => trivial
  ordered := h.ordered
  accessible := h.accessible
  switches := fun s hs => absurd hs (h.noSwitch s)
  lengthsKept := by
    intro f hf ex hex x hx
    have hmem : f ∈ (Item.field f).fields := List.mem_singleton.mpr rfl
    have hlength := fieldKind_length hex
    cases h.lengths _ hf f hmem ex hex with
    | constant k => cases hx
    | @member y w hy hw =>
      obtain rfl : x = y := by simpa [Expr.members] using hx
      obtain ⟨i, hi, rfl, hxi, hne⟩ := h.item_id hy
      have hedge := DependencyMapBuilder.run_length hf hmem hlength
      have hlength : Has (resolved (DependencyMapBuilder.run u) items) lengthTrackingId _ :=
        resolved_length
      have hclosed := (resolved_closed hlength hedge).2 (by decide)
      exact ⟨i, hi, kept_of_has (by decide) hne hclosed, hxi⟩
  variablesKept := h.variablesKept
  byteOrder := h.byteOrder

end Instantiations

/-- The unit that a call has parsed. -/
def parsedUnit (r : ParseResult × ParserWorld) : UnitMemory := r.2.heap (r.2.state.peek.getD 0)

/-- The calls `r` of the parser of the unit and `r'` of the parser of the compact unit have read the
same message. `size` is what the first one has read for an item. -/
structure SameMessage (o : Options) (items : List Generation.Path) (n : Nat) (u : UnitType)
    (size : Item → Int)
    (r r' : ParseResult × ParserWorld) : Prop where
  done : r'.1 = .done
  bytesRead : r'.2.bytesRead = r.2.bytesRead
  requested : ∀ x, [x] ∈ items → ∀ ty, (unitEnv o u).members x = some ty →
    (parsedUnit r x).read ty = (parsedUnit r' x).read ty
  kept : Agree (unitEnv o u) (keptMembers (visit u items) u)
    (parsedUnit r) (parsedUnit r')
  ranges : ∀ k held ex,
    .range k held ex ∈ pieces (visit u items) n [] u.items →
      ((parsedUnit r' (anonymousId k)).len_ : Int) = (held.map size).sum

/-- The parser of the compact unit ends if and only if the one of the unit does, and then it has read
the same message. -/
def Preserved (o : Options) (items : List Generation.Path) (n : Nat) (u : UnitType)
    (size : Item → Int)
    (r : ParseResult × ParserWorld) (call : Option (ParseResult × ParserWorld)) : Prop :=
  if r.1 = .done then ∃ r', call = some r' ∧ SameMessage o items n u size r r'
  else ∀ r', call = some r' → r'.1 ≠ .done

section Calls

variable {o : Options} {u : UnitType} {items : List Generation.Path} {name : String} {n : Nat}
  {memory : Memory} {e : Int}

theorem itemsExact_of_noSwitch (c : Schema) {items : List Item} (h : ∀ s, .switch s ∉ items)
    (m : UnitMemory) (p : Int) : ItemsExact c memory e items m p := by
  induction items generalizing m p with
  | nil => trivial
  | cons i rest ih =>
    refine ⟨?_, fun m' q _ => ih (fun s hs => h s (List.mem_cons_of_mem i hs)) m' q⟩
    cases i with
    | switch s => exact absurd List.mem_cons_self (h s)
    | _ => trivial

/-- What the reader of the unit takes for the fields of a range is their total length. -/
theorem Instantiable.consumed_total (h : Instantiable o items name n u) {k : Nat} {held : List Item}
    {ex : Expr}
    (hq : .range k held ex ∈ pieces (visit u items) n [] u.items)
    {m m' : UnitMemory} {p q : Int}
    (hread : (schema o u).readItems memory e u.items m p = some (.next m' q)) :
    (held.map fun i => consumed (schema o u) memory e i u.items m p).sum =
      total (unitEnv o u) m' (lengths held) := by
  obtain ⟨-, hheld⟩ := range_held hq
  clear hq
  induction held with
  | nil => rfl
  | cons i held ih =>
    obtain ⟨hi, homitted⟩ := hheld i List.mem_cons_self
    obtain ⟨ex', hex', -⟩ := h.compactable.omitted_length hi homitted
    cases i with
    | field f =>
      have hsize := h.compactable.consumed_eq (fun _ hi => hi) h.ordered hi homitted hex' hread
      rw [List.map_cons, List.sum_cons, hsize, ih fun j hj => hheld j (List.mem_cons_of_mem _ hj)]
      simp [lengths, hex', total]
    | switch s => exact absurd hi (h.noSwitch s)
    | var v => exact homitted.2.elim
    | property a => exact homitted.2.elim

/-- The member of a range holds the C value of the summed length. -/
theorem Compactable.range_len {deps : List Dependency} (h : Compactable o deps name n u)
    {mc : UnitMemory} {p q : Int}
    (hdesc : Describes o (compactUnit deps name n u) memory mc (compactUnit deps name n u).items p q)
    {k : Nat} {held : List Item} {ex : Expr} (hq : .range k held ex ∈ pieces deps n [] u.items) :
    evalLength (unitEnv o (compactUnit deps name n u)) (ex.replaceSelf name) mc =
      some ((mc (anonymousId k)).len_, mc) := by
  have hmem : .field (rangeField k (ex.replaceSelf name)) ∈ (compactUnit deps name n u).items :=
    h.toNameable.mem_items hq
  obtain ⟨kind, p', q', hkind, hfield⟩ := hdesc.field_mem hmem
  rw [fieldKind_rangeField] at hkind
  split at hkind <;> cases hkind <;> exact hfield.1

/-- At the end, the sums fit if and only if each range has the exact length of its fields. -/
theorem Compactable.sumsFit_ranges {deps : List Dependency} (h : Compactable o deps name n u)
    {m m' mc : UnitMemory} {p q : Int}
    (hread : (schema o (compactUnit deps name n u)).readItems memory e
      (compactUnit deps name n u).items m' p = some (.next mc q))
    (hdesc : Describes o (compactUnit deps name n u) memory mc (compactUnit deps name n u).items p q)
    (hagree : Agree (unitEnv o u) (keptMembers deps u) m mc) :
    SumsFit (schema o (compactUnit deps name n u)) memory e (compactUnit deps name n u).items m' p ↔
      ∀ k held ex, .range k held ex ∈ pieces deps n [] u.items →
        (mc (anonymousId k)).len_ = total (unitEnv o u) m (lengths held) := by
  have hrange : ∀ k held ex, .range k held ex ∈ pieces deps n [] u.items →
      ((mc (anonymousId k)).len_ = total (unitEnv o u) m (lengths held) ↔
        SumFits (unitEnv o (compactUnit deps name n u)) mc (ex.replaceSelf name)) := by
    intro k held ex hq
    obtain ⟨hex, hheld⟩ := range_held hq
    obtain ⟨hsum, hsummands⟩ := h.range_sum hheld hex
    have hlen := h.range_len hdesc hq
    rw [show evalLength (unitEnv o (compactUnit deps name n u)) (ex.replaceSelf name) mc = _ from
      evalLength_replaceSelf _ (show ex.within u.id = true from hsum.within) mc] at hlen
    obtain ⟨-, -, -, hiff⟩ := hsum.spec hlen
    rw [hsummands, h.total_eq hheld hagree] at hiff
    exact hiff.trans hsum.sumFits_replaceSelf.symm
  rw [sumsFit_iff h.compact_ordered h.no_switch (fun i hi f hf ex hex => ?_) hread]
  · constructor
    · intro hfits k held ex hq
      refine (hrange k held ex hq).mpr (hfits _ (h.toNameable.mem_items hq)
        (rangeField k (ex.replaceSelf name)) (List.mem_singleton.mpr rfl) _ ?_)
      rw [fieldKind_rangeField]
      split <;> rfl
    · intro hlens i hi f hf ex hex
      rw [h.toNameable.items] at hi
      obtain ⟨q, hq, rfl⟩ := List.mem_map.mp hi
      obtain ⟨kind, hkind, hlength⟩ := h.piece_kind hq hf
      rcases hlength ex (by simpa [hkind] using hex) with hplain | ⟨k, held, ex', rfl, rfl⟩
      · exact hplain.sumFits
      · exact (hrange k held ex' hq).mp (hlens k held ex' hq)
  · obtain ⟨kind, hkind, hlength⟩ := h.compact_field hi hf
    exact hlength ex (by simpa [hkind] using hex)

theorem parsedUnit_of_call {unit : Nat} {inBufStart : Int} {m : UnitMemory} {q : Int}
    {r : ParseResult × ParserWorld} (hmatch : CallMatches unit inBufStart (.next m q) r) :
    parsedUnit r = m := by
  obtain ⟨-, -, hpeek, hheap⟩ := hmatch
  rw [parsedUnit, hpeek, Option.getD_some, hheap]

/-- If the largest values of the lengths can be added, then all sums fit. -/
theorem Compactable.sumsFit_of_bounded {deps : List Dependency} (h : Compactable o deps name n u)
    (hb : ∀ i ∈ (compactUnit deps name n u).items, ∀ f ∈ i.fields,
      ∀ ex ∈ (fieldKind o (compactUnit deps name n u) f).bind FieldKind.length,
        sumBounded (unitEnv o (compactUnit deps name n u)) ex = true) (m : UnitMemory) (p : Int) :
    SumsFit (schema o (compactUnit deps name n u)) memory e (compactUnit deps name n u).items m p := by
  refine sumsFit_of_forall (fun i hi f hf ex hex m => ?_) m p
  change ex ∈ (fieldKind o (compactUnit deps name n u) f).bind FieldKind.length at hex
  obtain ⟨k, hk, hsum⟩ := h.compact_field hi hf
  exact (hsum ex (by simpa [hk] using hex)).sumFits_of_bounded (hb i hi f hf ex hex) m

/-- The unit that a call has parsed describes what has been read. -/
theorem describes_of_call {K : UnitType} (hK : Supported o K) (hord : ItemsOrdered o K K.items)
    (hsmall : ∀ i ∈ K.items, SmallLengths o K i.fields) {p : Parser}
    (hp : ParserGenerator.run o K = some p) {inBufStart inBufEnd : Int} {w : ParserWorld}
    (hw : FreshCall p inBufStart inBufEnd w) {r : ParseResult × ParserWorld}
    (hr : p.parse memory inBufStart inBufEnd w = some r) {m : UnitMemory} {q : Int}
    (hmatch : CallMatches w.area.allocated inBufStart (.next m q) r) :
    Describes o K memory m K.items inBufStart q := by
  obtain ⟨hdone, hbytes, hpeek, hheap⟩ := hmatch
  obtain ⟨unit, k, hunit, hk, -, hdesc⟩ := parse_describes hK hp hord hsmall hw.le hw.size hw.fresh
    (hr.trans (by rw [← hdone]))
  obtain rfl : w.area.allocated = unit := Option.some.inj (hpeek.symm.trans hunit)
  have hq : inBufStart + k = q := by omega
  rwa [hheap, hq] at hdesc

end Calls

/-- Two byte strings with lengths of `w` bits. -/
def chunked (w : Nat) : UnitType where
  id := "Chunked"
  items := [
    .field { id := "a", type := .integer w false },
    .field { id := "b", type := .integer w false },
    .var { id := "first", type := .integer w false,
           defaultValue := some (.selfMember "Chunked" "a") },
    .field { id := "x", type := .bytes,
             attributes := [⟨"length", some (.selfMember "Chunked" "a")⟩] },
    .field { id := "y", type := .bytes,
             attributes := [⟨"length", some (.selfMember "Chunked" "b")⟩] },
    .field { id := "tail", type := .integer 8 false }]

theorem chunked_instantiable : Instantiable {} [["first"], ["tail"]] "Tail" 0 (chunked 16) where
  distinct := by decide
  kinds := by decide
  lengths := by decide
  ordered := by decide
  accessible := by decide
  noSwitch := by simp [chunked]
  noLength := by decide
  fresh := fun k _ => InstantiationTypeGenerator.anonymousId_fresh (by decide) k
  variablesKept := by
    have hall : ∀ i ∈ (chunked 16).items, ∀ v, i = .var v → ∀ ex ∈ parseExpression v,
        ex = .selfMember "Chunked" "a" := by
      simp [chunked, parseExpression, lookupAttribute]
    intro v hv _ ex hex
    rw [hall _ hv v rfl ex hex]
    refine ⟨by decide, fun x hx => ⟨.field { id := "a", type := .integer 16 false }, by decide,
      by decide, hx⟩⟩
  byteOrder := by
    intro f hf _
    have hall : ∀ i ∈ (chunked 16).items, ∀ g ∈ i.fields,
        ParserGenerator.byteOrder (instantiate "Tail" 0 (chunked 16) [["first"], ["tail"]])
          (g.attributes.map (·.replaceSelf "Tail")) =
            ParserGenerator.byteOrder (chunked 16) g.attributes := by decide
    exact hall _ hf f (List.mem_singleton.mpr rfl)

end Diffingo.Codec
