import Mathlib.Data.List.Infix

/-!
# Occurrences in a concatenation

Where a word can occur in a text that is put together from parts. A part that lacks the first letter
of the word cannot begin an occurrence and one that lacks the last letter cannot end one; if it also
has a letter that is not in the word, no occurrence goes across it.
-/

namespace Infix

variable {α : Type*} {w x y s : List α} {a c : α}

theorem prefix_of_notMem (hc : c ∉ w) (h : w <+: x ++ c :: y) : w <+: x := by
  rcases Nat.le_total w.length x.length with hlen | hlen
  · exact List.prefix_of_prefix_length_le h (List.prefix_append x _) hlen
  · have hx : x <+: w := List.prefix_of_prefix_length_le (List.prefix_append x _) h hlen
    obtain ⟨t, rfl⟩ := hx
    rw [List.prefix_append_right_inj] at h
    cases t with
    | nil => simp
    | cons b t =>
      obtain ⟨rfl, -⟩ := List.cons_prefix_cons.mp h
      simp at hc

/-- No occurrence goes across a letter that is not in the word. -/
theorem infix_append_cons (hc : c ∉ w) : w <:+: x ++ c :: y ↔ w <:+: x ∨ w <:+: y := by
  constructor
  · intro h
    induction x with
    | nil =>
      rcases List.infix_cons_iff.mp h with h | h
      · exact .inl (prefix_of_notMem (x := []) hc h).isInfix
      · exact .inr h
    | cons b x ih =>
      rcases List.infix_cons_iff.mp h with h | h
      · exact .inl (prefix_of_notMem (x := b :: x) hc h).isInfix
      · exact (ih h).imp_left fun h => h.trans (List.suffix_cons b x).isInfix
  · rintro (h | h)
    · exact h.trans (List.prefix_append x _).isInfix
    · exact h.trans ((List.suffix_cons c y).trans (List.suffix_append x _)).isInfix

theorem infix_append_left (ha : a ∉ s) : a :: w <:+: s ++ y ↔ a :: w <:+: y := by
  induction s with
  | nil => rfl
  | cons b s ih =>
    simp only [List.mem_cons, not_or] at ha
    rw [List.cons_append, List.infix_cons_iff, ih ha.2, List.cons_prefix_cons]
    simp [ha.1]

theorem infix_append_right (ha : a ∉ s) : w ++ [a] <:+: x ++ s ↔ w ++ [a] <:+: x := by
  have hreverse : ∀ z : List α, w ++ [a] <:+: z ↔ a :: w.reverse <:+: z.reverse := fun z => by
    rw [← List.reverse_infix]
    simp
  rw [hreverse, hreverse, List.reverse_append]
  exact infix_append_left (by simpa using ha)

/-- No occurrence goes across a part with a letter that is not in the word, and none begins or ends
in it. -/
theorem infix_append_append {b : α} (ha : a ∉ s) (hb : b ∉ s) (hc : c ∈ s)
    (hw : c ∉ a :: w ++ [b]) :
    a :: w ++ [b] <:+: x ++ (s ++ y) ↔ a :: w ++ [b] <:+: x ∨ a :: w ++ [b] <:+: y := by
  obtain ⟨s₁, s₂, rfl⟩ := List.append_of_mem hc
  simp only [List.mem_append, List.mem_cons, not_or] at ha hb
  have hparts : x ++ (s₁ ++ c :: s₂ ++ y) = (x ++ s₁) ++ c :: (s₂ ++ y) := by simp
  rw [hparts, infix_append_cons hw, infix_append_right hb.1, List.cons_append,
    infix_append_left ha.2.2]

end Infix
