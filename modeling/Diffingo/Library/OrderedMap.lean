import Mathlib.Data.List.Basic

/-!
# Maps ordered by a comparison

A map is a list of entries in the order of their keys, and the keys are looked at through a
comparison alone: two keys neither of which is less than the other are one key to it. Where the
comparison is a strict total order, that is equality.
-/

namespace Diffingo.OrderedMap

universe u v

variable {κ : Type u} {ν : Type v} {less : κ → κ → Bool}

/-- A comparison that orders its keys strictly and totally. -/
structure StrictTotal (less : κ → κ → Bool) : Prop where
  irrefl : ∀ a, less a a = false
  trans : ∀ {a b c}, less a b = true → less b c = true → less a c = true
  eq_of_incomparable : ∀ {a b}, less a b = false → less b a = false → a = b

namespace StrictTotal

variable (h : StrictTotal less)
include h

theorem asymm {a b : κ} (hab : less a b = true) : less b a = false := by
  by_contra hba
  have := h.trans hab (by simpa using hba)
  simp [h.irrefl] at this

theorem incomparable_iff (a b : κ) : (less a b = false ∧ less b a = false) ↔ a = b := by
  constructor
  · rintro ⟨hab, hba⟩
    exact h.eq_of_incomparable hab hba
  · rintro rfl
    exact ⟨h.irrefl a, h.irrefl a⟩

end StrictTotal

/-- The value under a key, searched from the least key on. -/
def find (less : κ → κ → Bool) (k : κ) : List (κ × ν) → Option ν
  | [] => none
  | (k', v) :: m =>
    if less k' k then find less k m
    else if less k k' then none
    else some v

/-- Replaces the value under a key, which is `default` where the map has no such key yet. -/
def alter (less : κ → κ → Bool) (default : ν) (k : κ) (f : ν → ν) : List (κ × ν) → List (κ × ν)
  | [] => [(k, f default)]
  | (k', v) :: m =>
    if less k' k then (k', v) :: alter less default k f m
    else if less k k' then (k, f default) :: (k', v) :: m
    else (k', f v) :: m

theorem find_nil (k : κ) : find less k ([] : List (κ × ν)) = none := rfl

theorem find_cons (k k' : κ) (v : ν) (m : List (κ × ν)) :
    find less k ((k', v) :: m) =
      if less k' k then find less k m else if less k k' then none else some v := rfl

theorem alter_nil (default : ν) (k : κ) (f : ν → ν) :
    alter less default k f [] = [(k, f default)] := rfl

theorem alter_cons (default : ν) (k k' : κ) (f : ν → ν) (v : ν) (m : List (κ × ν)) :
    alter less default k f ((k', v) :: m) =
      if less k' k then (k', v) :: alter less default k f m
      else if less k k' then (k, f default) :: (k', v) :: m
      else (k', f v) :: m := rfl

def Sorted (less : κ → κ → Bool) (m : List (κ × ν)) : Prop :=
  m.Pairwise fun e e' => less e.1 e'.1 = true

theorem key_of_mem_alter {default : ν} {k : κ} {f : ν → ν} {m : List (κ × ν)} {e : κ × ν}
    (he : e ∈ alter less default k f m) : e.1 = k ∨ ∃ e' ∈ m, e'.1 = e.1 := by
  induction m with
  | nil => exact .inl (by simp_all [alter_nil])
  | cons e' m ih =>
    rw [alter_cons] at he
    split_ifs at he <;> grind

section Order

variable (h : StrictTotal less)
include h

theorem sorted_alter {default : ν} {k : κ} {f : ν → ν} {m : List (κ × ν)} (hm : Sorted less m) :
    Sorted less (alter less default k f m) := by
  induction m with
  | nil => simp [Sorted, alter_nil]
  | cons e m ih =>
    obtain ⟨k', v⟩ := e
    obtain ⟨hle, hrest⟩ := List.pairwise_cons.1 hm
    rw [alter_cons]
    split_ifs with hlt hgt
    · refine List.pairwise_cons.2 ⟨fun e he => ?_, ih hrest⟩
      obtain heq | ⟨e', he', heq⟩ := key_of_mem_alter he
      · rw [heq]
        exact hlt
      · rw [← heq]
        exact hle e' he'
    · refine List.pairwise_cons.2 ⟨fun e he => ?_, hm⟩
      obtain rfl | he := List.mem_cons.1 he
      · exact hgt
      · exact h.trans hgt (hle e he)
    · exact List.pairwise_cons.2 ⟨hle, hrest⟩

theorem find_alter_self {default : ν} (k : κ) (f : ν → ν) (m : List (κ × ν)) :
    find less k (alter less default k f m) = some (f ((find less k m).getD default)) := by
  induction m with
  | nil => simp [alter_nil, find_nil, find_cons, h.irrefl]
  | cons e m ih =>
    obtain ⟨x, v⟩ := e
    rw [alter_cons]
    split_ifs with hlt hgt
    · simp [find_cons, hlt, ih]
    · simp [find_cons, hlt, hgt, h.irrefl]
    · simp [find_cons, hlt, hgt]

theorem find_alter_of_ne {default : ν} {k k' : κ} (hk : k' ≠ k) (f : ν → ν) (m : List (κ × ν)) :
    find less k' (alter less default k f m) = find less k' m := by
  have hnew : less k k' = false → less k' k = true := by
    intro hlt
    by_contra hgt
    exact hk (h.eq_of_incomparable (by simpa using hgt) hlt)
  induction m with
  | nil =>
    simp only [alter_nil, find_nil, find_cons]
    split_ifs with hlt hgt
    · rfl
    · rfl
    · exact absurd (hnew (by simpa using hlt)) hgt
  | cons e m ih =>
    obtain ⟨x, v⟩ := e
    rw [alter_cons]
    split_ifs with hlt hgt
    · simp only [find_cons, ih]
    · by_cases hkk : less k k' = true
      · simp [find_cons, hkk]
      · -- the key searched for is less than the new one, and so less than all behind it
        have hlt' := hnew (by simpa using hkk)
        have hx := h.trans hlt' hgt
        simp [find_cons, hkk, hlt', hx, h.asymm hx]
    · obtain rfl := h.eq_of_incomparable (by simpa using hgt) (by simpa using hlt)
      simp only [find_cons]
      split_ifs with hlt' hgt'
      · rfl
      · rfl
      · exact absurd (hnew (by simpa using hlt')) hgt'

end Order

/-- A map whose entries are in order. -/
structure Map (κ : Type u) (ν : Type v) (less : κ → κ → Bool) where
  entries : List (κ × ν)
  sorted : Sorted less entries

namespace Map

def empty : Map κ ν less := ⟨[], List.Pairwise.nil⟩

def find (m : Map κ ν less) (k : κ) : Option ν := OrderedMap.find less k m.entries

/-- `alter` keeps the entries in order. -/
def alter (m : Map κ ν less) (h : StrictTotal less) (default : ν) (k : κ) (f : ν → ν) :
    Map κ ν less :=
  ⟨OrderedMap.alter less default k f m.entries, sorted_alter h m.sorted⟩

end Map

end Diffingo.OrderedMap
