import Mathlib.Algebra.GroupWithZero.Nat
import Mathlib.Data.Finset.Card
import Mathlib.Data.Fintype.Card
import Mathlib.Data.List.Perm.Subperm
import Mathlib.Order.Bounds.Basic

/-!
# Saturating a graded list

A graded list gives keys a set of grades. Adding a grade to a key extends the first entry of the
key, or appends one. `saturate` adds what the entries themselves ask for, round after round, until a
round changes nothing. If the keys asked for are among finitely many, finitely many rounds suffice,
and the result is closed (`saturate_closed`): its grades are the least ones that contain the initial
ones and are kept by what the entries ask for (`Loop.least`).
-/

namespace Saturation

structure Graded (κ γ : Type) where
  key : κ
  grade : Finset γ
  deriving DecidableEq

variable {κ γ : Type}

/-- Some entry of the key has all the grades in `s`. -/
def Has (gs : List (Graded κ γ)) (k : κ) (s : Finset γ) : Prop :=
  ∃ g ∈ gs, g.key = k ∧ s ⊆ g.grade

theorem Has.mono {gs : List (Graded κ γ)} {k : κ} {s t : Finset γ} (h : Has gs k t) (hst : s ⊆ t) :
    Has gs k s := by
  obtain ⟨g, hg, hk, ht⟩ := h
  exact ⟨g, hg, hk, hst.trans ht⟩

theorem Has.cons {gs : List (Graded κ γ)} {k : κ} {s : Finset γ} (h : Has gs k s)
    (g : Graded κ γ) : Has (g :: gs) k s := by
  obtain ⟨g', hg', hk, hs⟩ := h
  exact ⟨g', List.mem_cons_of_mem g hg', hk, hs⟩

/-- What additions make larger. -/
def weight (gs : List (Graded κ γ)) : Nat := (gs.map fun g => 1 + g.grade.card).sum

theorem weight_le [Fintype γ] (gs : List (Graded κ γ)) :
    weight gs ≤ gs.length * (1 + Fintype.card γ) := by
  induction gs with
  | nil => simp [weight]
  | cons g gs ih =>
    have hcard : g.grade.card ≤ Fintype.card γ := Finset.card_le_univ _
    simp only [weight, List.map_cons, List.sum_cons, List.length_cons] at ih ⊢
    rw [Nat.add_mul, Nat.one_mul]
    omega

/-- The keys of the list are the initial ones and some of the targets, each once. -/
def Within (init targets : List κ) (gs : List (Graded κ γ)) : Prop :=
  ∃ extra, gs.map (·.key) = init ++ extra ∧ extra.Nodup ∧ extra ⊆ targets

theorem Within.length_le {init targets : List κ} {gs : List (Graded κ γ)}
    (h : Within init targets gs) : gs.length ≤ init.length + targets.length := by
  obtain ⟨extra, hmap, hnodup, hsub⟩ := h
  have hlen : gs.length = init.length + extra.length := by simpa using congrArg List.length hmap
  have hextra : extra.length ≤ targets.length := (List.subperm_of_subset hnodup hsub).length_le
  omega

variable [DecidableEq κ] [DecidableEq γ]

def add (k : κ) (s : Finset γ) : List (Graded κ γ) → List (Graded κ γ)
  | [] => [⟨k, s⟩]
  | g :: gs => if g.key = k then ⟨g.key, g.grade ∪ s⟩ :: gs else g :: add k s gs

/-- Whether `add` changes the list. -/
def adds (k : κ) (s : Finset γ) : List (Graded κ γ) → Bool
  | [] => true
  | g :: gs => if g.key = k then g.grade ∪ s ≠ g.grade else adds k s gs

theorem has_add (k : κ) (s : Finset γ) (gs : List (Graded κ γ)) : Has (add k s gs) k s := by
  induction gs with
  | nil => exact ⟨⟨k, s⟩, by simp [add], rfl, subset_rfl⟩
  | cons g gs ih =>
    unfold add
    split
    · rename_i hk
      exact ⟨_, List.mem_cons_self, hk, Finset.subset_union_right⟩
    · exact ih.cons g

theorem Has.add {gs : List (Graded κ γ)} {k : κ} {s : Finset γ} (h : Has gs k s) (k' : κ)
    (s' : Finset γ) : Has (add k' s' gs) k s := by
  induction gs with
  | nil =>
    obtain ⟨g, hg, -⟩ := h
    cases hg
  | cons g gs ih =>
    obtain ⟨g', hg', hk, hs⟩ := h
    unfold Saturation.add
    split
    · rcases List.mem_cons.mp hg' with rfl | hg'
      · exact ⟨_, List.mem_cons_self, hk, hs.trans Finset.subset_union_left⟩
      · exact ⟨g', List.mem_cons_of_mem _ hg', hk, hs⟩
    · rcases List.mem_cons.mp hg' with rfl | hg'
      · exact ⟨g', List.mem_cons_self, hk, hs⟩
      · exact (ih ⟨g', hg', hk, hs⟩).cons g

/-- An addition that changes nothing asks for what is there. -/
theorem add_of_not_adds {gs : List (Graded κ γ)} {k : κ} {s : Finset γ}
    (h : adds k s gs = false) : add k s gs = gs ∧ Has gs k s := by
  induction gs with
  | nil => cases h
  | cons g gs ih =>
    unfold adds at h
    unfold add
    split at h
    · rename_i hk
      have hunion : g.grade ∪ s = g.grade := by simpa using h
      rw [if_pos hk, hunion]
      exact ⟨rfl, g, List.mem_cons_self, hk, Finset.union_eq_left.mp hunion⟩
    · rename_i hk
      rw [if_neg hk, (ih h).1]
      exact ⟨rfl, (ih h).2.cons g⟩

theorem weight_add (k : κ) (s : Finset γ) (gs : List (Graded κ γ)) :
    weight gs ≤ weight (add k s gs) ∧ (adds k s gs = true → weight gs < weight (add k s gs)) := by
  induction gs with
  | nil =>
    have hweight : weight (add k s []) = 1 + s.card := rfl
    refine ⟨Nat.zero_le _, fun _ => ?_⟩
    rw [hweight]
    exact Nat.lt_add_right _ Nat.one_pos
  | cons g gs ih =>
    unfold add adds
    split
    · have hsub : g.grade ⊆ g.grade ∪ s := Finset.subset_union_left
      refine ⟨by simpa [weight] using Finset.card_le_card hsub, fun hne => ?_⟩
      have hlt : g.grade.card < (g.grade ∪ s).card :=
        Finset.card_lt_card (hsub.ssubset_of_ne (Ne.symm (by simpa using hne)))
      simpa [weight] using hlt
    · simpa [weight] using ih

theorem add_keys (k : κ) (s : Finset γ) (gs : List (Graded κ γ)) : (add k s gs).map (·.key) =
    if k ∈ gs.map (·.key) then gs.map (·.key) else gs.map (·.key) ++ [k] := by
  induction gs with
  | nil => simp [add]
  | cons g gs ih =>
    unfold add
    split
    · rename_i hk
      simp [hk]
    · rename_i hk
      have hk' : k ≠ g.key := fun h => hk h.symm
      simp only [List.map_cons, ih, List.mem_cons, hk', false_or]
      split <;> rfl

theorem Within.add {init targets : List κ} {gs : List (Graded κ γ)} (h : Within init targets gs)
    {k : κ} (hk : k ∈ targets) (s : Finset γ) : Within init targets (add k s gs) := by
  obtain ⟨extra, hmap, hnodup, hsub⟩ := h
  unfold Within
  rw [add_keys, hmap]
  split
  · exact ⟨extra, rfl, hnodup, hsub⟩
  · rename_i hnew
    rw [List.mem_append, not_or] at hnew
    refine ⟨extra ++ [k], by simp, ?_, ?_⟩
    · exact hnodup.append (List.nodup_singleton k) (List.disjoint_singleton.mpr hnew.2)
    · exact List.append_subset.mpr ⟨hsub, by simpa using hk⟩

section Rounds

variable (next : Graded κ γ → List (Graded κ γ))

/-- Add the entries one after the other, and say whether one of them changed the list. -/
def addAll (new gs : List (Graded κ γ)) : List (Graded κ γ) × Bool :=
  new.foldl (fun r g => (add g.key g.grade r.1, r.2 || adds g.key g.grade r.1)) (gs, false)

/-- One round adds what all present entries ask for. -/
def round (gs : List (Graded κ γ)) : List (Graded κ γ) × Bool := addAll (gs.flatMap next) gs

def saturate : Nat → List (Graded κ γ) → List (Graded κ γ)
  | 0, gs => gs
  | fuel + 1, gs =>
    match round next gs with
    | (gs', true) => saturate fuel gs'
    | (gs', false) => gs'

/-- Enough rounds if all entries ask for the given keys only. -/
def rounds [Fintype γ] (targets : List κ) (gs : List (Graded κ γ)) : Nat :=
  (gs.length + targets.length) * (1 + Fintype.card γ) + 1

end Rounds

theorem addAll_induction {P : List (Graded κ γ) → Prop} {new gs : List (Graded κ γ)}
    (hadd : ∀ g ∈ new, ∀ gs, P gs → P (add g.key g.grade gs)) (h : P gs) :
    P (addAll new gs).1 := by
  suffices ∀ (b : Bool) gs, P gs → P (new.foldl (fun r g =>
      (add g.key g.grade r.1, r.2 || adds g.key g.grade r.1)) (gs, b)).1 from this false gs h
  induction new with
  | nil => exact fun b gs h => h
  | cons g new ih =>
    exact fun b gs h => ih (fun g' hg' => hadd g' (List.mem_cons_of_mem g hg')) _ _
      (hadd g List.mem_cons_self gs h)

/-- A round that changes nothing finds everything it asks for. -/
theorem addAll_unchanged {new gs : List (Graded κ γ)} (h : (addAll new gs).2 = false) :
    (addAll new gs).1 = gs ∧ ∀ g ∈ new, Has gs g.key g.grade := by
  have hmono : ∀ (new : List (Graded κ γ)) gs, (new.foldl (fun r g =>
      (add g.key g.grade r.1, r.2 || adds g.key g.grade r.1)) (gs, true)).2 = true := by
    intro new
    induction new with
    | nil => exact fun _ => rfl
    | cons g new ih => exact fun gs => ih _
  unfold addAll at h ⊢
  induction new with
  | nil => exact ⟨rfl, fun g hg => by cases hg⟩
  | cons g new ih =>
    simp only [List.foldl_cons, Bool.false_or] at h ⊢
    cases hadds : adds g.key g.grade gs with
    | true =>
      rw [hadds, hmono] at h
      cases h
    | false =>
      obtain ⟨hgs, hhas⟩ := add_of_not_adds hadds
      rw [hadds, hgs] at h
      rw [hgs]
      refine ⟨(ih h).1, fun g' hg' => ?_⟩
      rcases List.mem_cons.mp hg' with rfl | hg'
      · exact hhas
      · exact (ih h).2 g' hg'

theorem addAll_weight (new gs : List (Graded κ γ)) :
    weight gs ≤ weight (addAll new gs).1 ∧
      ((addAll new gs).2 = true → weight gs < weight (addAll new gs).1) := by
  suffices ∀ (b : Bool) gs, let r := new.foldl (fun r g =>
      (add g.key g.grade r.1, r.2 || adds g.key g.grade r.1)) (gs, b)
      weight gs ≤ weight r.1 ∧ (r.2 = true → b = true ∨ weight gs < weight r.1) by
    obtain ⟨hle, hlt⟩ := this false gs
    exact ⟨hle, fun h => (hlt h).resolve_left (by simp)⟩
  induction new with
  | nil => exact fun b gs => ⟨le_rfl, fun h => .inl h⟩
  | cons g new ih =>
    intro b gs
    obtain ⟨hle, hlt⟩ := ih (b || adds g.key g.grade gs) (add g.key g.grade gs)
    obtain ⟨hle', hlt'⟩ := weight_add g.key g.grade gs
    refine ⟨hle'.trans hle, fun h => ?_⟩
    rcases hlt h with hb | hlt
    · rcases Bool.or_eq_true_iff.mp hb with hb | hadds
      · exact .inl hb
      · exact .inr ((hlt' hadds).trans_le hle)
    · exact .inr (hle'.trans_lt hlt)

section Closed

variable {next : Graded κ γ → List (Graded κ γ)} {gs : List (Graded κ γ)}

theorem Has.addAll {k : κ} {s : Finset γ} (h : Has gs k s) (new : List (Graded κ γ)) :
    Has (addAll new gs).1 k s :=
  addAll_induction (P := fun gs => Has gs k s) (fun g _ _ h' => h'.add g.key g.grade) h

/-- Saturating loses nothing. -/
theorem Has.saturate {k : κ} {s : Finset γ} (h : Has gs k s) (fuel : Nat) :
    Has (saturate next fuel gs) k s := by
  induction fuel generalizing gs with
  | zero => exact h
  | succ fuel ih =>
    have hround : Has (round next gs).1 k s := h.addAll _
    unfold Saturation.saturate
    split
    · rename_i gs' heq
      rw [heq] at hround
      exact ih hround
    · rename_i gs' heq
      rw [heq] at hround
      exact hround

theorem Within.round {init targets : List κ} (htargets : ∀ g, ∀ h ∈ next g, h.key ∈ targets)
    (h : Within init targets gs) : Within init targets (round next gs).1 := by
  refine addAll_induction (P := Within init targets) (fun g hg gs' h' => ?_) h
  obtain ⟨g', -, hg'⟩ := List.mem_flatMap.mp hg
  exact h'.add (htargets g' g hg') g.grade

theorem Within.saturate {init targets : List κ} (htargets : ∀ g, ∀ h ∈ next g, h.key ∈ targets)
    (h : Within init targets gs) (fuel : Nat) : Within init targets (saturate next fuel gs) := by
  induction fuel generalizing gs with
  | zero => exact h
  | succ fuel ih =>
    have hround := h.round htargets
    unfold Saturation.saturate
    split
    · rename_i gs' heq
      rw [heq] at hround
      exact ih hround
    · rename_i gs' heq
      rw [heq] at hround
      exact hround

end Closed

/-! ## The grades of a key -/

/-- The union of the grades of all entries of a key. -/
def grades (gs : List (Graded κ γ)) (k : κ) : Finset γ :=
  gs.foldr (fun g s => if g.key = k then g.grade ∪ s else s) ∅

section Grades

variable {gs gs' : List (Graded κ γ)} {k k' : κ} {s : Finset γ} {c : γ}

theorem mem_grades : c ∈ grades gs k ↔ ∃ g ∈ gs, g.key = k ∧ c ∈ g.grade := by
  induction gs with
  | nil => simp [grades]
  | cons g gs ih =>
    simp only [grades, List.foldr_cons, List.exists_mem_cons_iff] at ih ⊢
    rw [← ih]
    split
    · rename_i hk
      simp [hk]
    · rename_i hk
      simp [hk]

theorem Has.subset_grades (h : Has gs k s) : s ⊆ grades gs k := by
  obtain ⟨g, hg, hk, hs⟩ := h
  exact fun c hc => mem_grades.mpr ⟨g, hg, hk, hs hc⟩

theorem grade_subset_grades {g : Graded κ γ} (hg : g ∈ gs) : g.grade ⊆ grades gs g.key :=
  Has.subset_grades ⟨g, hg, rfl, subset_rfl⟩

theorem grades_cons (g : Graded κ γ) : grades (g :: gs) k =
    if g.key = k then g.grade ∪ grades gs k else grades gs k := rfl

theorem grades_add : grades (add k s gs) k' = if k = k' then s ∪ grades gs k' else grades gs k' := by
  induction gs with
  | nil => rfl
  | cons g gs ih =>
    unfold add
    by_cases hk : g.key = k
    · subst hk
      rw [if_pos rfl, grades_cons, grades_cons]
      dsimp only
      split
      · rw [← Finset.union_assoc, Finset.union_comm s]
      · rfl
    · rw [if_neg hk, grades_cons, grades_cons, ih]
      split
      · split
        · exact Finset.union_left_comm ..
        · rfl
      · rfl

end Grades

/-- Rounds until one of them changes nothing. -/
inductive Loop (next : Graded κ γ → List (Graded κ γ)) :
    List (Graded κ γ) → List (Graded κ γ) → Prop
  | stop {gs : List (Graded κ γ)} : (round next gs).2 = false → Loop next gs (round next gs).1
  | again {gs gs' : List (Graded κ γ)} : (round next gs).2 = true →
      Loop next (round next gs).1 gs' → Loop next gs gs'

section Loop

variable {next : Graded κ γ → List (Graded κ γ)} {gs gs' : List (Graded κ γ)}

/-- With enough rounds, `saturate` is the whole loop. -/
theorem loop_saturate [Fintype γ] {targets : List κ}
    (htargets : ∀ g, ∀ h ∈ next g, h.key ∈ targets) (gs : List (Graded κ γ)) :
    Loop next gs (saturate next (rounds targets gs) gs) := by
  suffices ∀ (fuel : Nat) (gs' : List (Graded κ γ)), Within (gs.map (·.key)) targets gs' →
      (gs.length + targets.length) * (1 + Fintype.card γ) < fuel + weight gs' →
      Loop next gs' (saturate next fuel gs') from
    this _ gs ⟨[], by simp⟩ (by unfold rounds; omega)
  intro fuel
  induction fuel with
  | zero =>
    intro gs' h hfuel
    have hweight := (weight_le gs').trans (Nat.mul_le_mul_right _ h.length_le)
    rw [List.length_map] at hweight
    omega
  | succ fuel ih =>
    intro gs' h hfuel
    have hround := h.round htargets
    have hweight := (addAll_weight (gs'.flatMap next) gs').2
    change (round next gs').2 = true → weight gs' < weight (round next gs').1 at hweight
    unfold saturate
    split
    · rename_i l heq
      -- a round that changes something adds weight
      have hchanged : (round next gs').2 = true := congrArg Prod.snd heq
      have hrest := ih _ hround (by have := hweight hchanged; omega)
      have hl : (round next gs').1 = l := congrArg Prod.fst heq
      exact .again hchanged (hl ▸ hrest)
    · rename_i l heq
      have hl : (round next gs').1 = l := congrArg Prod.fst heq
      exact hl ▸ .stop (congrArg Prod.snd heq)

theorem Loop.invariant {P : List (Graded κ γ) → Prop} (hround : ∀ gs, P gs → P (round next gs).1)
    (h : Loop next gs gs') (hgs : P gs) : P gs' := by
  induction h with
  | stop _ => exact hround _ hgs
  | again _ _ ih => exact ih (hround _ hgs)

/-- The loop ends with a list that has all that its entries ask for. -/
theorem Loop.closed (h : Loop next gs gs') {g : Graded κ γ} (hg : g ∈ gs') {d : Graded κ γ}
    (hd : d ∈ next g) : Has gs' d.key d.grade := by
  induction h with
  | stop hstop =>
    obtain ⟨hsame, hhas⟩ := addAll_unchanged hstop
    unfold round at hg ⊢
    rw [hsame] at hg ⊢
    exact hhas d (List.mem_flatMap.mpr ⟨g, hg, hd⟩)
  | again _ _ ih => exact ih hg

/-- The saturated list has all that its entries ask for. -/
theorem saturate_closed [Fintype γ] {targets : List κ}
    (htargets : ∀ g, ∀ h ∈ next g, h.key ∈ targets) {g : Graded κ γ}
    (hg : g ∈ saturate next (rounds targets gs) gs) {h : Graded κ γ} (hh : h ∈ next g) :
    Has (saturate next (rounds targets gs) gs) h.key h.grade :=
  (loop_saturate htargets gs).closed hg hh

/-- The loop adds nothing to grades that what the entries ask for does not leave. -/
theorem Loop.least (h : Loop next gs gs') {A : κ → Finset γ} (hinit : ∀ k, grades gs k ⊆ A k)
    (hnext : ∀ g, g.grade ⊆ A g.key → ∀ d ∈ next g, d.grade ⊆ A d.key) (k : κ) :
    grades gs' k ⊆ A k := by
  refine h.invariant (P := fun l => ∀ k, grades l k ⊆ A k) (fun l hl => ?_) hinit k
  refine addAll_induction (P := fun l => ∀ k, grades l k ⊆ A k) (fun d hd l' hl' k => ?_) hl
  obtain ⟨g, hg, hd⟩ := List.mem_flatMap.mp hd
  rw [grades_add]
  split
  · rename_i hk
    subst hk
    exact Finset.union_subset (hnext g ((grade_subset_grades hg).trans (hl g.key)) d hd) (hl' _)
  · exact hl' k

/-- Nothing is added to later entries of the key of the first entry. -/
theorem Loop.grades_tail {g : Graded κ γ} (h : Loop next (g :: gs) gs') :
    ∃ g' rest, gs' = g' :: rest ∧ g'.key = g.key ∧ grades rest g.key = grades gs g.key := by
  refine h.invariant (P := fun l => ∃ g' rest, l = g' :: rest ∧ g'.key = g.key ∧
    grades rest g.key = grades gs g.key) (fun l hl => ?_) ⟨g, gs, rfl, rfl, rfl⟩
  refine addAll_induction (P := fun l => ∃ g' rest, l = g' :: rest ∧ g'.key = g.key ∧
    grades rest g.key = grades gs g.key) (fun d _ l' hl' => ?_) hl
  obtain ⟨g', rest, rfl, hkey, hrest⟩ := hl'
  unfold add
  split
  · exact ⟨_, rest, rfl, hkey, hrest⟩
  · rename_i hne
    refine ⟨g', _, rfl, hkey, ?_⟩
    rw [grades_add, if_neg (fun hd => hne (hkey.trans hd.symm)), hrest]

end Loop

end Saturation
