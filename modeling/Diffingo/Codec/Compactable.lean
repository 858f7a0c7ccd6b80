import Diffingo.Codec.Compaction

/-!
# Units that can be compacted

The conditions under which the compact unit of an instantiation can stand for the unit, and the
struct and the lengths of such a compact unit. It compiles, its lengths are ordinary ones and depend
on earlier members.
-/

namespace Diffingo.Codec

open CInteger ByteMemory Diffingo.Spec Diffingo.Runtime Diffingo.Generation
open InstantiationTypeGenerator (Piece pieces closeRange kept itemContext lengths rangeLength copyFor
  rangeField render cut_pieces Cut Nameable Omitted Measured nameAfter)

/-- The members of the items that an instantiation needs. -/
def keptMembers (deps : List Dependency) (u : UnitType) : Set String :=
  {x | ∃ i ∈ u.items, kept deps i = true ∧ x ∈ i.memberIds}

/-- The compact unit. -/
abbrev compactUnit (deps : List Dependency) (name : String) (n : Nat) (u : UnitType) : UnitType :=
  InstantiationTypeGenerator.run deps name n u

/-- A flat unit whose compact unit can stand for it: the lengths and the variables that are needed
depend on members that are needed, and the fields keep their byte order. -/
structure Compactable (o : Options) (deps : List Dependency) (name : String) (n : Nat)
    (u : UnitType) : Prop extends Flat o u, Nameable deps n u where
  ordered : ItemsOrdered o u u.items
  accessible : ∀ i ∈ u.items, ∀ f ∈ i.fields, f.applicationAccessible = true
  switches : ∀ s, .switch s ∈ u.items → kept deps (.switch s) = false
  lengthsKept : ∀ f, .field f ∈ u.items → ∀ ex ∈ (fieldKind o u f).bind FieldKind.length,
    ∀ x ∈ ex.members, x ∈ keptMembers deps u
  variablesKept : ∀ v, .var v ∈ u.items → kept deps (.var v) = true → ∀ ex ∈ parseExpression v,
    ex.within u.id = true ∧ ∀ x ∈ ex.members, x ∈ keptMembers deps u
  byteOrder : ∀ f, .field f ∈ u.items → kept deps (.field f) = true →
    ParserGenerator.byteOrder (compactUnit deps name n u) (f.attributes.map (·.replaceSelf name)) =
      ParserGenerator.byteOrder u f.attributes

section Compact

variable {o : Options} {u : UnitType} {deps : List Dependency} {name : String} {n : Nat}

theorem exists_itemMembers {i : Item} {x : String} (hx : x ∈ i.memberIds) :
    ∃ ty, (x, ty) ∈ itemMembers o i := by
  cases i with
  | field f =>
    obtain rfl := List.mem_singleton.mp hx
    exact ⟨_, List.mem_singleton.mpr rfl⟩
  | switch s =>
    obtain ⟨f, hf, rfl⟩ := List.mem_map.mp hx
    exact ⟨_, List.mem_map.mpr ⟨f, hf, rfl⟩⟩
  | var v =>
    obtain rfl := List.mem_singleton.mp hx
    exact ⟨_, List.mem_singleton.mpr rfl⟩
  | property p => cases hx

theorem fieldKind_rangeField (o : Options) (K : UnitType) (k : Nat) (ex : Expr) :
    fieldKind o K (rangeField k ex) =
      some (if o.inputPointers then .range ex else .copy ex) := by
  cases ho : o.inputPointers <;> simp [fieldKind, rangeField, ho] <;> rfl

/-- The length of an item is a constant or the length of a field. -/
theorem Flat.serializedLength_cases (hu : Flat o u) {i : Item} (hi : i ∈ u.items) {ex : Expr}
    (hex : i.serializedLength = some ex) : (∃ k : Nat, ex = .int k) ∨
      ∃ f, i = .field f ∧ ex ∈ (fieldKind o u f).bind FieldKind.length := by
  cases i with
  | field f =>
    change f.serializedLength = some ex at hex
    unfold AtomicField.serializedLength at hex
    split at hex
    · cases hex
      exact .inl ⟨_, congrArg Expr.int (Int.toNat_of_nonneg ‹_›).symm⟩
    · rename_i hn
      obtain ⟨k, ty, hk, -⟩ := hu.declared hi (List.mem_singleton.mpr rfl)
      refine .inr ⟨f, rfl, ?_⟩
      obtain ⟨ex', hex', rfl | rfl⟩ := fieldKind_dynamic hk (not_le.mp hn) <;>
        cases hex.symm.trans hex' <;> simp [hk, FieldKind.length]
  | switch s =>
    change s.serializedLength = some ex at hex
    unfold Switch.serializedLength at hex
    split at hex
    · cases hex
      exact .inl ⟨_, congrArg Expr.int (Int.toNat_of_nonneg ‹_›).symm⟩
    · cases hex
  | var v => cases hex
  | property a => cases hex

theorem Flat.serializedLength_plain (hu : Flat o u) {i : Item} (hi : i ∈ u.items) {ex : Expr}
    (hex : i.serializedLength = some ex) : PlainLength (unitEnv o u) ex := by
  rcases hu.serializedLength_cases hi hex with ⟨k, rfl⟩ | ⟨f, rfl, hlen⟩
  · exact .constant k
  · exact hu.lengths _ hi f (List.mem_singleton.mpr rfl) ex hlen

/-- The items that are left to a reader of the unit, and the fields that are held back before them. -/
structure Left (o : Options) (deps : List Dependency) (u : UnitType) (held items : List Item) :
    Prop where
  sub : ∀ i ∈ items, i ∈ u.items
  ordered : ItemsOrdered o u items
  omitted : ∀ i ∈ held, i ∈ u.items ∧ Omitted deps i
  later : ∀ ex ∈ lengths held, ∀ x ∈ ex.members, x ∉ memberIds items

theorem Left.head {held rest : List Item} {i : Item} (h : Left o deps u held (i :: rest)) :
    i ∈ u.items := h.sub i List.mem_cons_self

theorem Left.tail {held rest : List Item} {i : Item} (h : Left o deps u held (i :: rest)) :
    Left o deps u held rest :=
  ⟨fun j hj => h.sub j (List.mem_cons_of_mem i hj), itemsOrdered_tail h.ordered, h.omitted,
    fun ex hex x hx hx' => h.later ex hex x hx (List.mem_append_right _ hx')⟩

theorem Left.close {held items : List Item} (h : Left o deps u held items) :
    Left o deps u [] items :=
  ⟨h.sub, h.ordered, by simp, by simp [lengths]⟩

variable (h : Compactable o deps name n u)

include h

theorem Compactable.left : Left o deps u [] u.items :=
  ⟨fun _ hi => hi, h.ordered, by simp, by simp [lengths]⟩

/-- Expressions over the members that are needed mean the same in both structs. -/
theorem Compactable.same : (unitEnv o u).Same ((unitEnv o (compactUnit deps name n u)).named u.id)
    (keptMembers deps u) where
  unit := rfl
  dollar := rfl
  dollar_mem := fun x hx => by cases hx
  members := by
    rintro x ⟨i, hi, hkept, hx⟩
    obtain ⟨ty, hty⟩ := exists_itemMembers (o := o) hx
    obtain ⟨h₁, h₂⟩ := h.toNameable.members name hi hkept (h.accessible i hi) hty
    exact h₁.trans h₂.symm

theorem Compactable.kind {f : AtomicField} (hf : .field f ∈ u.items) :
    ∃ k ty, fieldKind o u f = some k ∧ (unitEnv o u).members f.id = some ty ∧ k.HasMember ty ∧
      ∀ ex ∈ k.length, PlainLength (unitEnv o u) ex ∧ ∀ x ∈ ex.members, x ∈ keptMembers deps u := by
  have hmem : f ∈ (Item.field f).fields := List.mem_singleton.mpr rfl
  obtain ⟨k, ty, hk, hty, hmember⟩ := h.toFlat.declared hf hmem
  refine ⟨k, ty, hk, hty, hmember, fun ex hex => ?_⟩
  have hex' : ex ∈ (fieldKind o u f).bind FieldKind.length := by simpa [hk] using hex
  exact ⟨h.lengths _ hf f hmem ex hex', h.lengthsKept f hf ex hex'⟩

/-- The members of an item that is not needed are not needed. -/
theorem Compactable.not_kept {i : Item} (hi : i ∈ u.items) (hkept : kept deps i = false) {x : String}
    (hx : x ∈ i.memberIds) : x ∉ keptMembers deps u := by
  rintro ⟨j, hj, hkept', hx'⟩
  obtain rfl : i = j := item_unique h.toFlat.distinct hi hj hx hx'
  rw [hkept] at hkept'
  cases hkept'

theorem Compactable.anonymous_not_kept {k : Nat} (hk : n < k) :
    anonymousId k ∉ keptMembers deps u := by
  rintro ⟨i, hi, -, hx⟩
  exact h.fresh k hk (List.mem_flatMap.mpr ⟨i, hi, hx⟩)

/-- The length of an item that is left out is plain and depends on members that are needed. -/
theorem Compactable.omitted_length {i : Item} (hi : i ∈ u.items) (homitted : Omitted deps i) :
    ∃ ex, i.serializedLength = some ex ∧ PlainLength (unitEnv o u) ex ∧
      ∀ x ∈ ex.members, x ∈ keptMembers deps u := by
  have hmeasured := h.measured i hi homitted.1
  obtain ⟨ex, hex⟩ : ∃ ex, i.serializedLength = some ex := by
    cases i with
    | field f => exact Option.isSome_iff_exists.mp hmeasured
    | switch s => exact Option.isSome_iff_exists.mp hmeasured
    | var v => exact homitted.2.elim
    | property a => exact homitted.2.elim
  refine ⟨ex, hex, h.toFlat.serializedLength_plain hi hex, ?_⟩
  rcases h.toFlat.serializedLength_cases hi hex with ⟨k, rfl⟩ | ⟨f, rfl, hlen⟩
  · exact fun x hx => by cases hx
  · exact h.lengthsKept f hi ex hlen

/-- The length of an item that is left out depends on members before the item. -/
theorem Compactable.omitted_later {i : Item} {rest : List Item} (hi : i ∈ u.items)
    (hordered : ItemsOrdered o u (i :: rest)) {ex : Expr} (hex : i.serializedLength = some ex) :
    ∀ x ∈ ex.members, x ∉ memberIds (i :: rest) := by
  rcases h.toFlat.serializedLength_cases hi hex with ⟨k, rfl⟩ | ⟨f, rfl, hlen⟩
  · exact fun x hx => by cases hx
  · intro x hx hlater
    exact (hordered.1.1 ex hlen).members x hx (by simpa [memberIds, Item.memberIds] using hlater)

/-- One more field is held back. -/
theorem Compactable.hold {held rest : List Item} {i : Item} (hl : Left o deps u held (i :: rest))
    (homitted : Omitted deps i) :
    ∃ ex, i.serializedLength = some ex ∧ lengths (held ++ [i]) = lengths held ++ [ex] ∧
      (∀ s ∈ lengths held ++ [ex], ∀ x ∈ s.members, x ∉ memberIds (i :: rest)) ∧
      Left o deps u (held ++ [i]) rest := by
  obtain ⟨ex, hex, -⟩ := h.omitted_length hl.head homitted
  have hlengths : lengths (held ++ [i]) = lengths held ++ [ex] := by simp [lengths, hex]
  have hlater : ∀ s ∈ lengths held ++ [ex], ∀ x ∈ s.members, x ∉ memberIds (i :: rest) := by
    intro s hs x hx
    rcases List.mem_append.mp hs with hs | hs
    · exact hl.later s hs x hx
    · obtain rfl := List.mem_singleton.mp hs
      exact h.omitted_later hl.head hl.ordered hex x hx
  refine ⟨ex, hex, hlengths, hlater, hl.tail.sub, hl.tail.ordered, fun j hj => ?_, ?_⟩
  · rcases List.mem_append.mp hj with hj | hj
    · exact hl.omitted j hj
    · obtain rfl := List.mem_singleton.mp hj
      exact ⟨hl.head, homitted⟩
  · rw [hlengths]
    exact fun s hs x hx hx' => hlater s hs x hx (List.mem_append_right _ hx')

theorem Compactable.held_lengths {held : List Item} (hheld : ∀ i ∈ held, i ∈ u.items ∧ Omitted deps i)
    {ex : Expr} (hex : ex ∈ lengths held) : PlainLength (unitEnv o u) ex ∧
      ∀ x ∈ ex.members, x ∈ keptMembers deps u := by
  obtain ⟨i, hi, hlen⟩ := List.mem_filterMap.mp hex
  obtain ⟨ex', hex', hplain⟩ := h.omitted_length (hheld i hi).1 (hheld i hi).2
  obtain rfl : ex = ex' := Option.some.inj (hlen.symm.trans hex')
  exact hplain

/-- The length of a range adds up the lengths of the fields that are held back, in both structs. -/
theorem Compactable.range_sum {held : List Item} (hheld : ∀ i ∈ held, i ∈ u.items ∧ Omitted deps i)
    {ex : Expr} (hex : rangeLength none (lengths held) = some ex) :
    SumLength ((unitEnv o (compactUnit deps name n u)).named u.id) ex ∧
      summands ex = lengths held :=
  rangeLength_sum (fun _ hs => (h.held_lengths hheld hs).1.same h.same (h.held_lengths hheld hs).2)
    hex

theorem Compactable.total_eq {held : List Item} (hheld : ∀ i ∈ held, i ∈ u.items ∧ Omitted deps i)
    {m m' : UnitMemory} (hagree : Agree (unitEnv o u) (keptMembers deps u) m m') :
    total ((unitEnv o (compactUnit deps name n u)).named u.id) m' (lengths held) =
      total (unitEnv o u) m (lengths held) := by
  refine congrArg List.sum (List.map_congr_left fun ex hex => ?_)
  have hrel := evalLength_related h.same (h.held_lengths hheld hex).2 hagree
  unfold lengthOf
  generalize evalLength (unitEnv o u) ex m = a at hrel ⊢
  generalize evalLength _ ex m' = b at hrel ⊢
  cases hrel with
  | none => rfl
  | some hr => exact hr.1.symm

/-- What a range takes: the exact sum, provided that it fits. -/
theorem Compactable.evalLength_range {held : List Item}
    (hheld : ∀ i ∈ held, i ∈ u.items ∧ Omitted deps i) {ex : Expr}
    (hex : rangeLength none (lengths held) = some ex) {m : UnitMemory}
    (hfits : SumFits (unitEnv o (compactUnit deps name n u)) m (ex.replaceSelf name))
    {r : Nat × UnitMemory}
    (hr : evalLength (unitEnv o (compactUnit deps name n u)) (ex.replaceSelf name) m = some r) :
    r.2 = m ∧
      r.1 = total ((unitEnv o (compactUnit deps name n u)).named u.id) m (lengths held) := by
  obtain ⟨hsum, hsummands⟩ := h.range_sum hheld hex
  have heval : evalLength (unitEnv o (compactUnit deps name n u)) (ex.replaceSelf name) m = _ :=
    evalLength_replaceSelf _ (show ex.within u.id = true from hsum.within) m
  rw [heval] at hr
  obtain ⟨hm, -, -, hiff⟩ := hsum.spec hr
  rw [hsummands] at hiff
  exact ⟨hm, hiff.mpr (hsum.sumFits_replaceSelf.mp hfits)⟩

/-! ## The compact unit -/

/-- A field of the compact unit has a kind, and its length is plain or the one of a range. -/
theorem Compactable.piece_kind {q : Piece} (hq : q ∈ pieces deps n [] u.items) {f : AtomicField}
    (hf : f ∈ ((q.item deps).replaceSelf name).fields) :
    ∃ k, fieldKind o (compactUnit deps name n u) f = some k ∧ ∀ ex ∈ k.length,
      PlainLength (unitEnv o (compactUnit deps name n u)) ex ∨
        ∃ k' held ex', q = .range k' held ex' ∧ ex = ex'.replaceSelf name := by
  rcases (cut_pieces n [] u.items).mem hq with ⟨i, hi, rfl, hkept⟩ |
    ⟨k, held, ex, rfl, -, hex, hheld⟩
  · cases i with
    | property a =>
      rw [Piece.item, copyFor_property] at hf
      cases hf
    | switch s =>
      rcases hkept with hkept | ⟨a, ha⟩
      · rw [h.switches s hi] at hkept
        cases hkept
      · cases ha
    | var v =>
      obtain ⟨b, hb⟩ := copyFor_var name _ v
      rw [Piece.item, hb] at hf
      cases hf
    | field g =>
      have hkept : kept deps (.field g) = true := hkept.resolve_right (by simp)
      obtain ⟨b, hb⟩ := copyFor_field name _ g
      rw [Piece.item, hb] at hf
      obtain rfl := List.mem_singleton.mp hf
      obtain ⟨k, ty, hk, -, -, hlen⟩ := h.kind hi
      refine ⟨k.replaceSelf name, ?_, fun ex hex => ?_⟩
      · rw [fieldKind_copyField b (h.accessible _ hi g (List.mem_singleton.mpr rfl))
          (h.byteOrder g hi hkept), hk, Option.map_some]
      · obtain ⟨ex', hex', rfl⟩ : ∃ ex' ∈ k.length, ex = ex'.replaceSelf name := by
          cases k <;> cases hex <;> exact ⟨_, rfl, rfl⟩
        exact .inl ((hlen ex' hex').1.same h.same (hlen ex' hex').2).replaceSelf
  · obtain rfl : f = rangeField k (ex.replaceSelf name) := List.mem_singleton.mp hf
    refine ⟨_, fieldKind_rangeField o _ k _, fun ex' hex' => .inr ⟨k, held, ex, rfl, ?_⟩⟩
    split at hex' <;> cases hex' <;> rfl

omit h in
theorem range_held {k : Nat} {held : List Item} {ex : Expr}
    (hq : .range k held ex ∈ pieces deps n [] u.items) :
    rangeLength none (lengths held) = some ex ∧ ∀ i ∈ held, i ∈ u.items ∧ Omitted deps i := by
  rcases (cut_pieces n [] u.items).mem hq with ⟨i, -, heq, -⟩ |
    ⟨k', held', ex', heq, -, hex, hheld⟩
  · cases heq
  · cases heq
    exact ⟨hex, fun i hi => (hheld i hi).resolve_left (by simp)⟩

theorem Compactable.compact_field {i : Item} (hi : i ∈ (compactUnit deps name n u).items)
    {f : AtomicField} (hf : f ∈ i.fields) :
    ∃ k, fieldKind o (compactUnit deps name n u) f = some k ∧ ∀ ex ∈ k.length,
      SumLength (unitEnv o (compactUnit deps name n u)) ex := by
  rw [h.toNameable.items] at hi
  obtain ⟨q, hq, rfl⟩ := List.mem_map.mp hi
  obtain ⟨k, hk, hlen⟩ := h.piece_kind hq hf
  refine ⟨k, hk, fun ex hex => ?_⟩
  rcases hlen ex hex with hplain | ⟨k', held, ex', rfl, rfl⟩
  · exact .plain hplain
  · obtain ⟨hex', hheld⟩ := range_held hq
    exact (h.range_sum hheld hex').1.replaceSelf

theorem Compactable.no_switch (s : Switch) : .switch s ∉ (compactUnit deps name n u).items := by
  intro hs
  rw [h.toNameable.items] at hs
  obtain ⟨q, hq, heq⟩ := List.mem_map.mp hs
  rcases (cut_pieces n [] u.items).mem hq with ⟨i, hi, rfl, hkept⟩ | ⟨k, held, ex, rfl, -⟩
  · rw [Piece.item] at heq
    cases i with
    | property a =>
      rw [copyFor_property] at heq
      cases heq
    | switch s' =>
      rcases hkept with hkept | ⟨a, ha⟩
      · rw [h.switches s' hi] at hkept
        cases hkept
      · cases ha
    | var v =>
      obtain ⟨b, hb⟩ := copyFor_var name _ v
      rw [hb] at heq
      cases heq
    | field f =>
      obtain ⟨b, hb⟩ := copyFor_field name _ f
      rw [hb] at heq
      cases heq
  · cases heq

/-- The compact unit compiles. -/
theorem Compactable.supported : Supported o (compactUnit deps name n u) where
  distinct := h.toNameable.compact_distinct name
  kinds := by
    intro i hi f hf
    obtain ⟨k, hk, -⟩ := h.compact_field hi hf
    rw [hk]
    rfl

theorem Compactable.smallLengths : ∀ i ∈ (compactUnit deps name n u).items,
    SmallLengths o (compactUnit deps name n u) i.fields := by
  intro i hi f hf ex hex m r hr
  obtain ⟨k, hk, hlen⟩ := h.compact_field hi hf
  exact (hlen ex (by simpa [hk] using hex)).small hr

omit h in
theorem memberIds_render (qs : List Piece) :
    memberIds (render deps name qs) = qs.flatMap Piece.memberIds := by
  rw [memberIds, render, List.flatMap_map]
  simp only [Piece.memberIds_item]

/-- A member that is needed is not set later if it is not set by a later item. -/
theorem Compactable.not_later {k : Nat} {held items : List Item} {qs : List Piece}
    (hcut : Cut deps k held items qs) (hk : n ≤ k) {x : String} (hx : x ∈ keptMembers deps u)
    (hitems : x ∉ memberIds items) : x ∉ memberIds (render deps name qs) := by
  rw [memberIds_render]
  intro hlater
  rcases hcut.mem_memberIds hlater with hlater | ⟨k', hk', rfl⟩
  · exact hitems hlater
  · exact h.anonymous_not_kept (by omega) hx

theorem Compactable.ordered_closeRange {held : List Item}
    (hheld : ∀ i ∈ held, i ∈ u.items ∧ Omitted deps i) {k : Nat} (hk : n ≤ k) {qs : List Piece}
    (hordered : ItemsOrdered o (compactUnit deps name n u) (render deps name qs))
    (hlater : ∀ ex ∈ lengths held, ∀ x ∈ ex.members, x ∉ memberIds (render deps name qs)) :
    ItemsOrdered o (compactUnit deps name n u) (render deps name (closeRange k held ++ qs)) := by
  cases hex : rangeLength none (lengths held) with
  | none => simpa only [closeRange, hex, List.nil_append] using hordered
  | some ex =>
    obtain ⟨hsum, hsummands⟩ := h.range_sum hheld hex
    simp only [closeRange, hex, List.cons_append, List.nil_append]
    refine ⟨⟨fun ex' hex' => ?_, trivial⟩, hordered⟩
    obtain rfl : ex' = ex.replaceSelf name := by
      change ex' ∈ (fieldKind o _ (rangeField (k + 1) (ex.replaceSelf name))).bind _ at hex'
      rw [fieldKind_rangeField] at hex'
      split at hex' <;> cases hex' <;> rfl
    refine ⟨by rw [Expr.sideEffectFree_replaceSelf]; exact hsum.pure, fun x hx => ?_⟩
    rw [Expr.members_replaceSelf] at hx
    obtain ⟨s, hs, hx⟩ := hsum.mem_members.mp hx
    rw [hsummands] at hs
    intro hset
    rcases List.mem_cons.mp hset with rfl | hset
    · exact h.anonymous_not_kept (Nat.lt_succ_of_le hk) ((h.held_lengths hheld hs).2 _ hx)
    · exact hlater s hs x hx hset

omit h in
theorem le_nameAfter_closeRange {k : Nat} (hk : n ≤ k) (held : List Item) (i : Item) :
    n ≤ nameAfter (k + (closeRange k held).length) i :=
  hk.trans ((Nat.le_add_right k _).trans (InstantiationTypeGenerator.le_nameAfter _ i))

/-- The lengths of the compact unit depend on earlier members. -/
theorem Compactable.ordered_cut {k : Nat} {held items : List Item} {qs : List Piece}
    (hcut : Cut deps k held items qs) (hk : n ≤ k) (hl : Left o deps u held items) :
    ItemsOrdered o (compactUnit deps name n u) (render deps name qs) := by
  induction hcut with
  | nil k held =>
    rw [← List.append_nil (closeRange k held)]
    exact h.ordered_closeRange hl.omitted hk trivial (by simp [memberIds, render])
  | @var k held rest qs v hkept hcut ih =>
    obtain ⟨b, hb⟩ := copyFor_var name (itemContext deps (.var v)) v
    rw [render, List.map_cons, Piece.item, hb]
    refine ⟨fun ex hex => ?_, ih hk hl.tail⟩
    rw [parseExpression_copyVariable] at hex
    obtain ⟨ex', hex', rfl⟩ := Option.map_eq_some_iff.mp hex
    rw [Expr.sideEffectFree_replaceSelf]
    exact hl.ordered.1 ex' hex'
  | @copy k held rest qs i hkept hvar hcut ih =>
    have hk' := le_nameAfter_closeRange hk held i
    have hrest := ih hk' hl.tail.close
    refine h.ordered_closeRange hl.omitted hk ?_ fun ex hex x hx hset => ?_
    · rw [render, List.map_cons]
      cases i with
      | var v => exact absurd rfl (hvar v)
      | switch s =>
        rw [h.switches s hl.head] at hkept
        cases hkept
      | property a =>
        rw [Piece.item, copyFor_property]
        exact hrest
      | field f =>
        obtain ⟨b, hb⟩ := copyFor_field name (itemContext deps (.field f)) f
        obtain ⟨kind, ty, hkind, -, -, hlen⟩ := h.kind hl.head
        rw [Piece.item, hb]
        refine ⟨⟨fun ex hex => ?_, trivial⟩, hrest⟩
        rw [fieldKind_copyField b (h.accessible _ hl.head f (List.mem_singleton.mpr rfl))
          (h.byteOrder f hl.head hkept), hkind, Option.map_some, Option.bind_some] at hex
        obtain ⟨ex', hex', rfl⟩ : ∃ ex' ∈ kind.length, ex = ex'.replaceSelf name := by
          cases kind <;> cases hex <;> exact ⟨_, rfl, rfl⟩
        have hundisturbed := hl.ordered.1.1 ex' (by simpa [hkind] using hex')
        refine ⟨by rw [Expr.sideEffectFree_replaceSelf]; exact hundisturbed.pure, fun x hx => ?_⟩
        rw [Expr.members_replaceSelf] at hx
        have hx' := hundisturbed.members x hx
        simp only [List.map_nil, List.nil_append, List.mem_cons, not_or] at hx' ⊢
        exact ⟨hx'.1, h.not_later hcut hk' ((hlen ex' hex').2 x hx) hx'.2⟩
    · rcases List.mem_append.mp hset with hset | hset
      · rw [Piece.memberIds_item] at hset
        exact hl.later ex hex x hx (List.mem_append_left _ hset)
      · exact h.not_later hcut hk' ((h.held_lengths hl.omitted hex).2 x hx)
          (hl.tail.later ex hex x hx) hset
  | hold homitted hcut ih =>
    obtain ⟨-, -, -, -, hl'⟩ := h.hold hl homitted
    exact ih hk hl'
  | skip _ _ ih => exact ih hk hl.tail
  | property hcut ih =>
    rw [render, List.map_cons, Piece.item, copyFor_property]
    exact ih hk hl.tail

theorem Compactable.compact_ordered :
    ItemsOrdered o (compactUnit deps name n u) (compactUnit deps name n u).items := by
  rw [h.toNameable.items]
  exact h.ordered_cut (cut_pieces n [] u.items) (le_refl n) h.left

end Compact

end Diffingo.Codec
