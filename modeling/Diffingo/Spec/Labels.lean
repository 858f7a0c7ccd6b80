import Mathlib.Data.List.Sort
import Mathlib.Data.String.Basic
import Diffingo.Spec.Expression

/-!
# The labels of enumerations and bitsets

A declaration lists labels, each with or without an integer literal. The constructors of
`type::Enum` and `type::Bitset` number the labels that have none, one more than the largest number
so far, and sort all of them by name. `assigned` is the same numbering over the integers.
-/

namespace Diffingo.Spec

open CInteger

/-- A label of a declaration. -/
structure LabelDecl where
  name : String
  literal : Option Int := none
  deriving DecidableEq, Repr

/-- `strtoll`: a literal that is out of range becomes the nearest `int64_t`. -/
def strtoll (n : Int) : Int := max (-2 ^ 63) (min n (2 ^ 63 - 1))

/-- `id_with_int`: the literal as an `int`, and `-1` if there is none. -/
def idWithInt (d : LabelDecl) : String × Int :=
  (d.name, d.literal.elim (-1) fun n => IntTy.int.wrap (strtoll n))

/-- How a constructor can fail. -/
inductive LabelFailure
  | runtimeError (message : String)
  | overflow
  deriving DecidableEq, Repr

/-- The loop of the constructors; the enumeration has a reserved label. -/
def numberLabels (reserved : Option String) :
    Int → List (String × Int) → Except LabelFailure (List (String × Int))
  | _, [] => .ok []
  | next, (name, i) :: rest =>
    if reserved = some name then
      .error (.runtimeError "enum label 'Undef' is already predefined")
    else
      let v := if i < 0 then next else i
      match IntTy.int.result (v + 1) with
      | none => .error .overflow
      | some after => (numberLabels reserved (max next after) rest).map ((name, v) :: ·)

/-- `labels_.sort` by name; the sort of a list is stable. -/
def sortLabels (labels : List (String × Int)) : List (String × Int) :=
  labels.insertionSort fun a b => ¬ b.1 < a.1

/-- The labels of `Enum::Enum` before they are sorted, without the reserved one. -/
def numberEnum (decls : List LabelDecl) : Except LabelFailure (List (String × Int)) :=
  numberLabels (some "UNDEF") 1 (decls.map idWithInt)

/-- `labels_` after `Enum::Enum`. -/
def enumLabels (numbered : List (String × Int)) : List (String × Int) :=
  sortLabels (numbered ++ [("UNDEF", -1)])

/-- The labels of `Bitset::Bitset` before they are sorted. -/
def numberBitset (decls : List LabelDecl) : Except LabelFailure (List (String × Int)) :=
  numberLabels none 0 (decls.map idWithInt)

/-- `labels_` after `Bitset::Bitset`. -/
def bitsetLabels (numbered : List (String × Int)) : List (String × Int) := sortLabels numbered

/-- `Enum::labelValue`; an unknown label is an `InternalError`. -/
def labelValue (labels : List (String × Int)) (label : String) : Option Int := labels.lookup label

/-- `Bitset::labelBit`. -/
def labelBit (labels : List (String × Int)) (label : String) : Option Int := labels.lookup label

/-- The numbers that the labels should get. -/
def assigned : Int → List LabelDecl → List (String × Int)
  | _, [] => []
  | next, d :: rest =>
    (d.name, d.literal.getD next) :: assigned (max next (d.literal.getD next + 1)) rest

/-- The labels have the numbers of the declaration, and `find` returns them. -/
structure Numbered (decls : List LabelDecl) (labels : List (String × Int))
    (find : String → Option Int) : Prop where
  names : labels.map (·.1) = decls.map (·.name)
  explicit : ∀ (i : Nat) d l, decls[i]? = some d → labels[i]? = some l → ∀ n ∈ d.literal, l.2 = n
  fresh : ∀ (i : Nat) d l, decls[i]? = some d → labels[i]? = some l → d.literal = none →
    l.2 ≠ -1 ∧ ∀ j < i, ∀ l', labels[j]? = some l' → l.2 ≠ l'.2
  found : ∀ l ∈ labels, find l.1 = some l.2

/-! ## The loop -/

/-- A number that can be a label's. -/
def IsLabelNumber (v : Int) : Prop := 0 ≤ v ∧ v + 1 < 2 ^ 31

theorem result_succ {v : Int} (h : 0 ≤ v) :
    IntTy.int.result (v + 1) = if v + 1 < 2 ^ 31 then some (v + 1) else none := by
  by_cases hlt : v + 1 < 2 ^ 31
  · have hwrap : IntTy.int.wrap (v + 1) = v + 1 :=
      IntTy.wrap_signed_of_lt (by omega) (by push_cast; omega)
    rw [if_pos hlt]
    simp [IntTy.result, hwrap]
  · have hwrap : IntTy.int.wrap (v + 1) ≠ v + 1 := by
      simp only [IntTy.wrap, if_true]
      intro h
      have := Int.bmod_lt (x := v + 1) (m := 2 ^ 32) (by norm_num)
      omega
    rw [if_neg hlt]
    simp [IntTy.result, hwrap]

theorem idWithInt_literal {name : String} {n : Int} (h : IsLabelNumber n) :
    idWithInt ⟨name, some n⟩ = (name, n) := by
  obtain ⟨hn, hlt⟩ := h
  have hstr : strtoll n = n := by simp only [strtoll]; omega
  have hwrap : IntTy.int.wrap n = n := IntTy.wrap_signed_of_lt (by omega) (by push_cast; omega)
  simp [idWithInt, hstr, hwrap]

section Loop

variable {reserved : Option String} {next : Int} {decls : List LabelDecl}

/-- One round of the loop, as long as the literals are in range. -/
theorem numberLabels_cons (d : LabelDecl) (ds : List (String × Int))
    (hd : IsLabelNumber (d.literal.getD next)) (hname : reserved ≠ some d.name) :
    numberLabels reserved next (idWithInt d :: ds) =
      (numberLabels reserved (max next (d.literal.getD next + 1)) ds).map
        ((d.name, d.literal.getD next) :: ·) := by
  obtain ⟨name, literal⟩ := d
  have hres := result_succ hd.1
  rw [if_pos hd.2] at hres
  cases literal with
  | none =>
    simp only [Option.getD_none] at hres
    simp [idWithInt, numberLabels, hname, hres]
  | some n =>
    have hn : ¬ n < 0 := not_lt.mpr hd.1
    have hid : idWithInt ⟨name, some n⟩ = (name, n) := idWithInt_literal hd
    simp only [Option.getD_some] at hres
    rw [hid]
    simp [numberLabels, hname, hn, hres]

/-- Numbers in range are assigned as they should be. -/
theorem numberLabels_assigned (hnext : 0 ≤ next) (hname : ∀ d ∈ decls, reserved ≠ some d.name)
    (hrange : ∀ l ∈ assigned next decls, IsLabelNumber l.2) :
    numberLabels reserved next (decls.map idWithInt) = .ok (assigned next decls) := by
  induction decls generalizing next with
  | nil => rfl
  | cons d rest ih =>
    obtain ⟨hd, hrest⟩ := List.forall_mem_cons.mp hrange
    obtain ⟨hne, hname⟩ := List.forall_mem_cons.mp hname
    rw [List.map_cons, numberLabels_cons d _ hd hne, ih (by omega) hname hrest]
    rfl

/-- A label list that is accepted and keeps the literals is in range. -/
theorem assigned_of_numberLabels (hnext : 0 ≤ next) {labels : List (String × Int)}
    (h : numberLabels reserved next (decls.map idWithInt) = .ok labels)
    (hexplicit : ∀ (i : Nat) d l, decls[i]? = some d → labels[i]? = some l →
      ∀ n ∈ d.literal, l.2 = n) :
    (∀ d ∈ decls, reserved ≠ some d.name) ∧ ∀ l ∈ assigned next decls, IsLabelNumber l.2 := by
  induction decls generalizing next labels with
  | nil => exact ⟨by simp, by simp [assigned]⟩
  | cons d rest ih =>
    obtain ⟨name, literal⟩ := d
    simp only [List.map_cons, idWithInt, numberLabels] at h
    split at h
    · cases h
    · rename_i hne
      -- the number of the first label
      generalize hi : literal.elim (-1 : Int) (fun n => IntTy.int.wrap (strtoll n)) = i at h
      generalize hv : (if i < 0 then next else i) = v at h
      have hv₀ : 0 ≤ v := by grind
      rw [result_succ hv₀] at h
      split at h
      · cases h
      · rename_i after hafter
        split at hafter
        · rename_i hlt
          cases hafter
          cases hrest : numberLabels reserved (max next (v + 1)) (rest.map idWithInt) with
          | error e => simp [hrest, Except.map] at h
          | ok labels' =>
            rw [hrest] at h
            cases h
            have hget : literal.getD next = v := by
              cases literal with
              | none =>
                cases hi
                simpa using hv
              | some n => exact (hexplicit 0 _ _ rfl rfl n rfl).symm
            have htail := ih (by omega) hrest fun i d l hd hl => hexplicit (i + 1) d l hd hl
            simp only [assigned, List.forall_mem_cons, hget]
            exact ⟨⟨hne, htail.1⟩, ⟨hv₀, hlt⟩, htail.2⟩
        · cases hafter

theorem assigned_names (next : Int) (decls : List LabelDecl) :
    (assigned next decls).map (·.1) = decls.map (·.name) := by
  induction decls generalizing next with
  | nil => rfl
  | cons d rest ih => simp [assigned, ih]

theorem assigned_literal (next : Int) {i : Nat} {d : LabelDecl} {l : String × Int}
    (hd : decls[i]? = some d) (hl : (assigned next decls)[i]? = some l) :
    ∀ n ∈ d.literal, l.2 = n := by
  induction decls generalizing next i with
  | nil => cases hd
  | cons d' rest ih =>
    cases i with
    | zero =>
      cases hd
      cases hl
      intro n hn
      rw [Option.mem_def.mp hn, Option.getD_some]
    | succ i => exact ih _ hd hl

theorem le_assigned {i : Nat} {d : LabelDecl} {l : String × Int} (hd : decls[i]? = some d)
    (hl : (assigned next decls)[i]? = some l) (hnone : d.literal = none) : next ≤ l.2 := by
  induction decls generalizing next i with
  | nil => cases hd
  | cons d' rest ih =>
    cases i with
    | zero =>
      cases hd
      cases hl
      simp [hnone]
    | succ i => exact (le_max_left _ _).trans (ih hd hl)

/-- A label without a literal gets a number above those before it. -/
theorem assigned_lt {i j : Nat} {d : LabelDecl} {l l' : String × Int} (hd : decls[i]? = some d)
    (hl : (assigned next decls)[i]? = some l) (hnone : d.literal = none) (hj : j < i)
    (hl' : (assigned next decls)[j]? = some l') : l'.2 < l.2 := by
  induction decls generalizing next i j with
  | nil => cases hd
  | cons d' rest ih =>
    cases i with
    | zero => cases hj
    | succ i =>
      cases j with
      | zero =>
        cases hl'
        have hd : rest[i]? = some d := hd
        have hl : (assigned (max next (d'.literal.getD next + 1)) rest)[i]? = some l := hl
        have hle := le_assigned hd hl hnone
        exact Int.lt_of_add_one_le ((le_max_right _ _).trans hle)
      | succ j => exact ih hd hl (by omega) hl'

end Loop

/-! ## Sorting -/

theorem lookup_eq_filter (labels : List (String × Int)) (name : String) :
    labels.lookup name = (labels.filter (·.1 = name)).head?.map (·.2) := by
  induction labels with
  | nil => rfl
  | cons l rest ih =>
    obtain ⟨x, v⟩ := l
    by_cases hx : x = name
    · simp [hx]
    · have hne : (name == x) = false := beq_eq_false_iff_ne.mpr fun h => hx h.symm
      simp [List.lookup_cons, hne, hx, ih]

/-- Labels of the same name keep their order, so the first one is still found. -/
theorem lookup_sortLabels (labels : List (String × Int)) (name : String) :
    (sortLabels labels).lookup name = labels.lookup name := by
  have hsorted : (labels.filter (·.1 = name)).Pairwise fun a b => ¬ b.1 < a.1 := by
    refine List.pairwise_of_forall_mem_list fun a ha b hb => ?_
    have ha : a.1 = name := by simpa using (List.mem_filter.mp ha).2
    have hb : b.1 = name := by simpa using (List.mem_filter.mp hb).2
    simp [ha, hb]
  have hsub : (labels.filter (·.1 = name)).Sublist (sortLabels labels) :=
    List.sublist_insertionSort hsorted List.filter_sublist
  have hfilter : labels.filter (·.1 = name) = (sortLabels labels).filter (·.1 = name) := by
    have hlen : ((sortLabels labels).filter (·.1 = name)).length =
        (labels.filter (·.1 = name)).length :=
      ((List.perm_insertionSort _ labels).filter _).length_eq
    refine List.Sublist.eq_of_length ?_ hlen.symm
    simpa using hsub.filter (·.1 = name)
  rw [lookup_eq_filter, lookup_eq_filter, hfilter]

/-- Every label is found if and only if labels of the same name have the same number. -/
theorem lookup_all_iff (labels : List (String × Int)) :
    (∀ l ∈ labels, labels.lookup l.1 = some l.2) ↔
      ∀ l ∈ labels, ∀ l' ∈ labels, l.1 = l'.1 → l.2 = l'.2 := by
  constructor
  · intro h l hl l' hl' hname
    have heq := (h l hl).symm.trans (hname ▸ h l' hl')
    exact Option.some.inj heq
  · intro h l hl
    rw [lookup_eq_filter]
    cases hf : labels.filter (·.1 = l.1) with
    | nil =>
      have hmem : l ∈ labels.filter (·.1 = l.1) := List.mem_filter.mpr ⟨hl, by simp⟩
      rw [hf] at hmem
      cases hmem
    | cons l' rest =>
      have hmem : l' ∈ labels.filter (·.1 = l.1) := hf ▸ List.mem_cons_self
      obtain ⟨hl', hname⟩ := List.mem_filter.mp hmem
      simp only [List.head?_cons, Option.map_some, Option.some.injEq]
      exact h l' hl' l hl (by simpa using hname)

/-- The labels of the constructed type are those of the specification and the reserved one. -/
theorem labelValue_enumLabels (id : String) {labels : List (String × Int)}
    (h : ∀ l ∈ labels, l.1 ≠ "UNDEF") (label : String) :
    (EnumType.mk id labels).labelValue label = labelValue (enumLabels labels) label := by
  rw [labelValue, enumLabels, lookup_sortLabels, lookup_eq_filter, EnumType.labelValue]
  by_cases hlabel : label = "UNDEF"
  · subst hlabel
    have hnone : labels.filter (·.1 = "UNDEF") = [] :=
      List.filter_eq_nil_iff.mpr fun l hl => by simpa using h l hl
    rw [List.filter_append, hnone]
    rfl
  · have hne : "UNDEF" ≠ label := fun heq => hlabel heq.symm
    simp [hlabel, hne, lookup_eq_filter]

/-! ## The numbering -/

/-- Labels of the same name have the same number. -/
def Consistent (labels : List (String × Int)) : Prop :=
  ∀ l ∈ labels, ∀ l' ∈ labels, l.1 = l'.1 → l.2 = l'.2

section Numbering

variable {reserved : Option String} {next : Int} {decls : List LabelDecl}

theorem numbered_assigned (hnext : 0 ≤ next) {find : String → Option Int}
    (hfind : ∀ l ∈ assigned next decls, find l.1 = some l.2) :
    Numbered decls (assigned next decls) find where
  names := assigned_names next decls
  explicit _ _ _ hd hl := assigned_literal next hd hl
  fresh i d l hd hl hnone := by
    refine ⟨?_, fun j hj l' hl' => (assigned_lt hd hl hnone hj hl').ne'⟩
    have := le_assigned hd hl hnone
    omega
  found := hfind

/-- The loop numbers the labels as it should if and only if the numbers are in range. -/
theorem numbered_iff (hnext : 0 ≤ next) (find : List (String × Int) → String → Option Int)
    (hfind : ∀ labels, (∀ d ∈ decls, reserved ≠ some d.name) →
      labels.map (·.1) = decls.map (·.name) → ∀ l ∈ labels, find labels l.1 = labels.lookup l.1) :
    (∃ labels, numberLabels reserved next (decls.map idWithInt) = .ok labels ∧
        Numbered decls labels (find labels)) ↔
      (∀ d ∈ decls, reserved ≠ some d.name) ∧ (∀ l ∈ assigned next decls, IsLabelNumber l.2) ∧
        Consistent (assigned next decls) := by
  constructor
  · rintro ⟨labels, hok, hnum⟩
    obtain ⟨hname, hrange⟩ := assigned_of_numberLabels hnext hok hnum.explicit
    obtain rfl : assigned next decls = labels := by
      rw [numberLabels_assigned hnext hname hrange] at hok
      exact Except.ok.inj hok
    refine ⟨hname, hrange, (lookup_all_iff _).mp fun l hl => ?_⟩
    rw [← hfind _ hname hnum.names l hl]
    exact hnum.found l hl
  · rintro ⟨hname, hrange, hcons⟩
    refine ⟨_, numberLabels_assigned hnext hname hrange, numbered_assigned hnext fun l hl => ?_⟩
    rw [hfind _ hname (assigned_names next decls) l hl]
    exact (lookup_all_iff _).mpr hcons l hl

end Numbering

/-- The labels of an enumeration or a bitset get the numbers of the declaration if and only if these
are numbers of an `int` that has a successor, no two labels of one name have different numbers and,
in an enumeration, no label has the reserved name. -/
theorem label_numbering_iff (decls : List LabelDecl) :
    ((∃ labels, numberEnum decls = .ok labels ∧
        Numbered decls labels (labelValue (enumLabels labels))) ↔
      (∀ d ∈ decls, d.name ≠ "UNDEF") ∧ (∀ l ∈ assigned 1 decls, IsLabelNumber l.2) ∧
        Consistent (assigned 1 decls)) ∧
    ((∃ labels, numberBitset decls = .ok labels ∧
        Numbered decls labels (labelBit (bitsetLabels labels))) ↔
      (∀ l ∈ assigned 0 decls, IsLabelNumber l.2) ∧ Consistent (assigned 0 decls)) := by
  constructor
  · have hfind : ∀ labels : List (String × Int), (∀ d ∈ decls, some "UNDEF" ≠ some d.name) →
        labels.map (·.1) = decls.map (·.name) →
        ∀ l ∈ labels, labelValue (enumLabels labels) l.1 = labels.lookup l.1 := by
      intro labels hname hnames l hl
      have hundef : ∀ l ∈ labels, l.1 ≠ "UNDEF" := by
        intro l hl h
        have hmem : l.1 ∈ decls.map (·.name) := hnames ▸ List.mem_map_of_mem hl
        obtain ⟨d, hd, heq⟩ := List.mem_map.mp hmem
        exact hname d hd (by rw [heq, h])
      rw [← labelValue_enumLabels "" hundef, EnumType.labelValue, if_neg (hundef l hl)]
    rw [numberEnum, numbered_iff (by omega) (fun labels => labelValue (enumLabels labels)) hfind]
    simp only [ne_eq, Option.some.injEq, eq_comm]
  · have hfind : ∀ labels : List (String × Int), (∀ d ∈ decls, none ≠ some d.name) →
        labels.map (·.1) = decls.map (·.name) →
        ∀ l ∈ labels, labelBit (bitsetLabels labels) l.1 = labels.lookup l.1 :=
      fun labels _ _ l _ => lookup_sortLabels labels l.1
    rw [numberBitset, numbered_iff le_rfl (fun labels => labelBit (bitsetLabels labels)) hfind]
    simp

/-- A negative literal is taken for a missing one, a literal loses its upper half, and the largest
`int` has no successor. -/
theorem literals_not_kept :
    numberEnum [⟨"ERROR", some (-2)⟩, ⟨"OK", none⟩] = .ok [("ERROR", 1), ("OK", 2)] ∧
      labelValue (enumLabels [("ERROR", 1), ("OK", 2)]) "ERROR" = some 1 ∧
      numberBitset [⟨"HIGH", some 4294967296⟩] = .ok [("HIGH", 0)] ∧
      numberEnum [⟨"LAST", some 2147483647⟩] = .error .overflow := by
  decide

end Diffingo.Spec
