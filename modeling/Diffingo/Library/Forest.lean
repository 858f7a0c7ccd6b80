import Mathlib.Data.List.Nodup
import Mathlib.Data.List.Perm.Basic

/-!
# Ordered forests

A forest is a sequence of trees, given by the first root, the forest of its children and the
forest of its right siblings. `preOrder` and `postOrder` list its nodes, `reverse` turns the
sequence of the trees around, `mirror` the sequence of the children of every node as well.

## Main results

* `reverse_preOrder_eq_iff`, `reverse_postOrder_eq_iff` — turning around the roots alone lists the
  nodes like the mirror image exactly if no node has two children.
-/

/-- A sequence of ordered trees. -/
inductive Forest (α : Type*) where
  | nil : Forest α
  | cons (root : α) (children siblings : Forest α) : Forest α

namespace Forest

variable {α : Type*}

/-- The roots of the trees. -/
@[simp, grind =] def roots : Forest α → List α
  | nil => []
  | cons a _ s => a :: s.roots

/-- Every node before its children. -/
@[simp, grind =] def preOrder : Forest α → List α
  | nil => []
  | cons a c s => a :: (c.preOrder ++ s.preOrder)

/-- Every node behind its children. -/
@[simp, grind =] def postOrder : Forest α → List α
  | nil => []
  | cons a c s => c.postOrder ++ a :: s.postOrder

/-- The trees of one forest behind those of another. -/
@[simp, grind =] def append : Forest α → Forest α → Forest α
  | nil, g => g
  | cons a c s, g => cons a c (s.append g)

/-- The trees in reverse order, each of them as it is. -/
@[simp, grind =] def reverse : Forest α → Forest α
  | nil => nil
  | cons a c s => s.reverse.append (cons a c nil)

/-- The mirror image: the trees in reverse order, and so at every node. -/
@[simp, grind =] def mirror : Forest α → Forest α
  | nil => nil
  | cons a c s => s.mirror.append (cons a c.mirror nil)

/-- No node has more than one child. -/
@[simp, grind =] def Thin : Forest α → Prop
  | nil => True
  | cons _ c s => c.roots.length ≤ 1 ∧ c.Thin ∧ s.Thin

/-- Each node has the children that `children` names. -/
@[simp, grind =] def Describes (children : α → List α) : Forest α → Prop
  | nil => True
  | cons a c s => children a = c.roots ∧ c.Describes children ∧ s.Describes children

@[simp] theorem roots_append (f g : Forest α) : (f.append g).roots = f.roots ++ g.roots := by
  induction f with
  | nil => rfl
  | cons a c s _ ih => simp [ih]

@[simp] theorem preOrder_append (f g : Forest α) :
    (f.append g).preOrder = f.preOrder ++ g.preOrder := by
  induction f with
  | nil => rfl
  | cons a c s _ ih => simp [ih]

@[simp] theorem postOrder_append (f g : Forest α) :
    (f.append g).postOrder = f.postOrder ++ g.postOrder := by
  induction f with
  | nil => rfl
  | cons a c s _ ih => simp [ih]

@[simp] theorem roots_reverse (f : Forest α) : f.reverse.roots = f.roots.reverse := by
  induction f with
  | nil => rfl
  | cons a c s _ ih => simp [ih]

@[simp] theorem roots_mirror (f : Forest α) : f.mirror.roots = f.roots.reverse := by
  induction f with
  | nil => rfl
  | cons a c s _ ih => simp [ih]

theorem describes_append {children : α → List α} {f g : Forest α} :
    (f.append g).Describes children ↔ f.Describes children ∧ g.Describes children := by
  induction f with
  | nil => simp
  | cons a c s _ ih => simp [ih, and_assoc]

theorem Describes.reverse {children : α → List α} {f : Forest α} (h : f.Describes children) :
    f.reverse.Describes children := by
  induction f with
  | nil => trivial
  | cons a c s _ ih =>
    obtain ⟨ha, hc, hs⟩ := h
    exact describes_append.mpr ⟨ih hs, ha, hc, trivial⟩

/-- The mirror image is the forest of the reversed child lists. -/
theorem Describes.mirror {children : α → List α} {f : Forest α} (h : f.Describes children) :
    f.mirror.Describes fun a => (children a).reverse := by
  induction f with
  | nil => trivial
  | cons a c s ihc ihs =>
    obtain ⟨ha, hc, hs⟩ := h
    exact describes_append.mpr ⟨ihs hs, by simp [ha], ihc hc, trivial⟩

theorem mem_preOrder_of_mem_roots {f : Forest α} {a : α} (h : a ∈ f.roots) : a ∈ f.preOrder := by
  induction f with
  | nil => exact h
  | cons b c s _ ih =>
    obtain rfl | h := List.mem_cons.mp h
    · exact List.mem_cons_self
    · exact List.mem_cons_of_mem _ (List.mem_append_right _ (ih h))

/-- The children of a node of the forest are nodes of the forest. -/
theorem Describes.mem_preOrder {children : α → List α} {f : Forest α} (h : f.Describes children)
    {a b : α} (ha : a ∈ f.preOrder) (hb : b ∈ children a) : b ∈ f.preOrder := by
  induction f with
  | nil => cases ha
  | cons r c s ihc ihs =>
    obtain ⟨hr, hc, hs⟩ := h
    simp only [preOrder, List.mem_cons, List.mem_append] at ha ⊢
    obtain rfl | ha | ha := ha
    · exact .inr (.inl (mem_preOrder_of_mem_roots (hr ▸ hb)))
    · exact .inr (.inl (ihc hc ha))
    · exact .inr (.inr (ihs hs ha))

theorem Thin.length_children_le {children : α → List α} {f : Forest α} (hthin : f.Thin)
    (h : f.Describes children) {a : α} (ha : a ∈ f.preOrder) : (children a).length ≤ 1 := by
  induction f with
  | nil => cases ha
  | cons r c s ihc ihs =>
    obtain ⟨hr, hc, hs⟩ := h
    obtain ⟨hone, hcthin, hsthin⟩ := hthin
    simp only [preOrder, List.mem_cons, List.mem_append] at ha
    obtain rfl | ha | ha := ha
    · rwa [hr]
    · exact ihc hcthin hc ha
    · exact ihs hsthin hs ha

theorem preOrder_perm_postOrder (f : Forest α) : f.preOrder.Perm f.postOrder := by
  induction f with
  | nil => exact .refl _
  | cons a c s ihc ihs =>
    exact ((ihc.append ihs).cons a).trans List.perm_middle.symm

theorem mirror_preOrder_perm (f : Forest α) : f.mirror.preOrder.Perm f.preOrder := by
  induction f with
  | nil => exact .refl _
  | cons a c s ihc ihs =>
    simp only [mirror, preOrder_append, preOrder, List.append_nil]
    refine (ihs.append (ihc.cons a)).trans ?_
    exact List.perm_append_comm

theorem reverse_preOrder_perm (f : Forest α) : f.reverse.preOrder.Perm f.preOrder := by
  induction f with
  | nil => exact .refl _
  | cons a c s _ ihs =>
    simp only [reverse, preOrder_append, preOrder, List.append_nil]
    refine (ihs.append_right _).trans ?_
    exact List.perm_append_comm

theorem reverse_postOrder_perm (f : Forest α) : f.reverse.postOrder.Perm f.postOrder :=
  f.reverse.preOrder_perm_postOrder.symm.trans
    (f.reverse_preOrder_perm.trans f.preOrder_perm_postOrder)

theorem mirror_postOrder_perm (f : Forest α) : f.mirror.postOrder.Perm f.postOrder :=
  f.mirror.preOrder_perm_postOrder.symm.trans
    (f.mirror_preOrder_perm.trans f.preOrder_perm_postOrder)

theorem preOrder_eq_nil {f : Forest α} : f.preOrder = [] ↔ f = nil := by
  cases f <;> simp

theorem postOrder_eq_nil {f : Forest α} : f.postOrder = [] ↔ f = nil := by
  cases f <;> simp

theorem preOrder_eq_mirror_iff {f : Forest α} (h : f.preOrder.Nodup) :
    f.preOrder = f.mirror.preOrder ↔ f.roots.length ≤ 1 ∧ f.Thin := by
  induction f with
  | nil => simp
  | cons a c s ihc _ =>
    simp only [preOrder, List.nodup_cons, List.nodup_append, List.mem_append, not_or] at h
    cases s with
    | nil =>
      have hc := ihc h.2.1
      simpa using hc
    | cons b c' s' =>
      -- the mirror image starts with a node of the siblings
      refine iff_of_false (fun heq => ?_) (by simp)
      have hperm := (cons b c' s').mirror_preOrder_perm
      have hne : (cons b c' s').mirror.preOrder ≠ [] := by simp
      obtain ⟨x, xs, hx⟩ := List.exists_cons_of_ne_nil hne
      have hmem : x ∈ (cons b c' s').preOrder := hperm.subset (hx ▸ List.mem_cons_self)
      have hmirror : (cons a c (cons b c' s')).mirror.preOrder =
          (cons b c' s').mirror.preOrder ++ a :: c.mirror.preOrder := by
        rw [mirror, preOrder_append]
        simp
      rw [hmirror, hx, preOrder, List.cons_append] at heq
      exact h.1.2 ((List.cons.inj heq).1 ▸ hmem)

theorem postOrder_eq_mirror_iff {f : Forest α} (h : f.postOrder.Nodup) :
    f.postOrder = f.mirror.postOrder ↔ f.roots.length ≤ 1 ∧ f.Thin := by
  induction f with
  | nil => simp
  | cons a c s ihc _ =>
    simp only [postOrder, List.nodup_append, List.nodup_cons] at h
    cases s with
    | nil =>
      have hc := ihc h.1
      simpa using hc
    | cons b c' s' =>
      -- the mirror image ends with the root of the first tree
      refine iff_of_false (fun heq => ?_) (by simp)
      have hmirror : (cons a c (cons b c' s')).mirror.postOrder =
          ((cons b c' s').mirror.postOrder ++ c.mirror.postOrder) ++ [a] := by
        rw [mirror, postOrder_append]
        simp
      have hlast : (cons b c' s').postOrder ≠ [] := by simp [postOrder_eq_nil]
      have hsplit : (cons a c (cons b c' s')).postOrder =
          (c.postOrder ++ a :: (cons b c' s').postOrder.dropLast) ++
            [(cons b c' s').postOrder.getLast hlast] := by
        conv_lhs => rw [postOrder, ← List.dropLast_append_getLast hlast]
        simp
      rw [hmirror, hsplit] at heq
      have hroot := (List.append_inj' heq rfl).2
      exact h.2.1.1 ((List.singleton_inj.mp hroot) ▸ List.getLast_mem hlast)

/-- Turning around the roots alone gives the pre-order of the mirror image exactly if no node has
two children. -/
theorem reverse_preOrder_eq_iff {f : Forest α} (h : f.preOrder.Nodup) :
    f.reverse.preOrder = f.mirror.preOrder ↔ f.Thin := by
  induction f with
  | nil => simp
  | cons a c s _ ihs =>
    simp only [preOrder, List.nodup_cons, List.nodup_append] at h
    have hlen : s.reverse.preOrder.length = s.mirror.preOrder.length :=
      s.reverse_preOrder_perm.length_eq.trans s.mirror_preOrder_perm.length_eq.symm
    simp only [reverse, mirror, preOrder_append, preOrder, List.append_nil]
    rw [List.append_eq_append_iff_of_size_eq_left hlen]
    simp only [List.cons.injEq, true_and, ihs h.2.2.1, preOrder_eq_mirror_iff h.2.1, Thin]
    tauto

/-- Turning around the roots alone gives the post-order of the mirror image exactly if no node has
two children. -/
theorem reverse_postOrder_eq_iff {f : Forest α} (h : f.postOrder.Nodup) :
    f.reverse.postOrder = f.mirror.postOrder ↔ f.Thin := by
  induction f with
  | nil => simp
  | cons a c s _ ihs =>
    simp only [postOrder, List.nodup_append, List.nodup_cons] at h
    have hlen : s.reverse.postOrder.length = s.mirror.postOrder.length :=
      s.reverse_postOrder_perm.length_eq.trans s.mirror_postOrder_perm.length_eq.symm
    simp only [reverse, mirror, postOrder_append, postOrder]
    rw [List.append_eq_append_iff_of_size_eq_left hlen]
    simp only [List.append_left_inj, ihs h.2.1.2, postOrder_eq_mirror_iff h.1, Thin]
    tauto

end Forest
