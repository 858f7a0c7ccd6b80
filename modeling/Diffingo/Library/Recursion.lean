import Mathlib.Data.Finset.Card
import Mathlib.Data.Finset.Filter
import Mathlib.Logic.Relation

/-!
# Recursion along a relation

A recursion that follows a relation from finitely many nodes comes to an end from every node exactly
if no node leads back to itself.
-/

namespace Recursion

variable {ι : Type*} {r : ι → ι → Prop}

/-- No node leads back to itself. -/
def Acyclic (r : ι → ι → Prop) : Prop := ∀ i, ¬ Relation.TransGen r i i

theorem Acyclic.of_wellFounded (h : WellFounded fun j i => r i j) : Acyclic r := by
  have htrans : ∀ i, Acc (fun j i => Relation.TransGen r i j) i := by
    intro i
    induction i using h.induction with
    | _ i ih =>
      refine ⟨i, fun j hj => ?_⟩
      obtain ⟨k, hik, hkj⟩ := Relation.TransGen.head'_iff.mp hj
      rcases Relation.reflTransGen_iff_eq_or_transGen.mp hkj with rfl | hkj
      · exact ih j hik
      · exact (ih k hik).inv hkj
  intro i hi
  induction htrans i with
  | intro i _ ih => exact ih i hi hi

theorem not_acc_of_self {i : ι} (h : r i i) : ¬ Acc (fun j i => r i j) i := by
  intro hacc
  induction hacc with
  | intro i _ ih => exact ih i h h

open Classical in
/-- The nodes with successors that can be reached from a node get fewer along the relation. -/
theorem Acyclic.wellFounded (h : Acyclic r) {sources : List ι} (hs : ∀ i j, r i j → i ∈ sources) :
    WellFounded fun j i => r i j := by
  let reached (i : ι) : Finset ι := sources.toFinset.filter (Relation.ReflTransGen r i)
  refine Subrelation.wf ?_ (measure fun i => (reached i).card).wf
  intro j i hij
  refine Finset.card_lt_card ((Finset.ssubset_iff_of_subset ?_).mpr ⟨i, ?_, ?_⟩)
  · intro k hk
    obtain ⟨hk, hjk⟩ := Finset.mem_filter.mp hk
    exact Finset.mem_filter.mpr ⟨hk, hjk.head hij⟩
  · exact Finset.mem_filter.mpr ⟨List.mem_toFinset.mpr (hs i j hij), .refl⟩
  · intro hi
    exact h i (Relation.TransGen.head' hij (Finset.mem_filter.mp hi).2)

/-- What holds of each of finitely many nodes from some number on holds of all from some number
on. -/
theorem exists_bound {P : Nat → ι → Prop} {l : List ι} (h : ∀ i ∈ l, ∃ n, ∀ m, n ≤ m → P m i) :
    ∃ n, ∀ m, n ≤ m → ∀ i ∈ l, P m i := by
  induction l with
  | nil => exact ⟨0, fun _ _ _ hi => nomatch hi⟩
  | cons i l ih =>
    obtain ⟨a, ha⟩ := h i List.mem_cons_self
    obtain ⟨b, hb⟩ := ih fun j hj => h j (List.mem_cons_of_mem i hj)
    refine ⟨max a b, fun m hm j hj => ?_⟩
    rcases List.mem_cons.mp hj with rfl | hj
    · exact ha m ((Nat.le_max_left a b).trans hm)
    · exact hb m ((Nat.le_max_right a b).trans hm) j hj

section Loop

variable {α β : Type*} {f : β → α → Option β} {l : List α} {b : β}

/-- A loop comes to its end if its body does for every element. -/
theorem isSome_foldlM (h : ∀ a ∈ l, ∀ b, (f b a).isSome) : (l.foldlM f b).isSome := by
  induction l generalizing b with
  | nil => rfl
  | cons a l ih =>
    obtain ⟨b', hb⟩ := Option.isSome_iff_exists.mp (h a List.mem_cons_self b)
    rw [List.foldlM_cons, hb]
    exact ih fun a' ha' => h a' (List.mem_cons_of_mem a ha')

/-- A loop that comes to its end has run its body for every element. -/
theorem exists_of_isSome_foldlM (h : (l.foldlM f b).isSome) {a : α} (ha : a ∈ l) :
    ∃ b', (f b' a).isSome := by
  induction l generalizing b with
  | nil => cases ha
  | cons a' l ih =>
    rw [List.foldlM_cons] at h
    obtain ⟨b', hb⟩ : ∃ b', f b a' = some b' := by
      cases hf : f b a' with
      | none => simp [hf] at h
      | some b' => exact ⟨b', rfl⟩
    rw [hb] at h
    rcases List.mem_cons.mp ha with rfl | ha
    · exact ⟨b, by simp [hb]⟩
    · exact ih h ha

theorem isSome_mapM {g : α → Option β} : (l.mapM g).isSome ↔ ∀ a ∈ l, (g a).isSome := by
  induction l with
  | nil => simp
  | cons a l ih =>
    rw [List.forall_mem_cons, ← ih, List.mapM_cons]
    cases g a with
    | none => simp
    | some b => cases l.mapM g <;> simp

theorem exists_of_mapM_eq_some {g : α → Option β} {l' : List β} (h : l.mapM g = some l') {b : β}
    (hb : b ∈ l') : ∃ a ∈ l, g a = some b := by
  induction l generalizing l' with
  | nil =>
    cases h
    cases hb
  | cons a l ih =>
    rw [List.mapM_cons] at h
    obtain ⟨c, hc, h⟩ := Option.bind_eq_some_iff.mp h
    obtain ⟨cs, hcs, h⟩ := Option.bind_eq_some_iff.mp h
    cases h
    rcases List.mem_cons.mp hb with rfl | hb
    · exact ⟨a, List.mem_cons_self, hc⟩
    · obtain ⟨a', ha', hg⟩ := ih hcs hb
      exact ⟨a', List.mem_cons_of_mem a ha', hg⟩

end Loop

end Recursion
