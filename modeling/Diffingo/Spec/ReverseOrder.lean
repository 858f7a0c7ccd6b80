import Diffingo.Library.Forest
import Diffingo.Spec.ProcessAll

/-!
# Reverse traversals

`processAllPreOrder(node, true)` and `processAllPostOrder(node, true)` on a tree, compared with
the forward traversal of the tree in which every child list is reversed. Only the call at the
start sees the flag, so that the order of the children is reversed at the root alone.
-/

namespace Diffingo.Spec.ProcessAll

variable {α σ : Type}

/-- The nodes of a forest in the order of the visits. -/
def Order.nodes (order : Order) (f : Forest α) : List α :=
  match order with
  | .pre => f.preOrder
  | .post => f.postOrder

theorem Order.nodes_nil (order : Order) : order.nodes (.nil : Forest α) = [] := by
  cases order <;> rfl

theorem Order.nodes_cons (order : Order) (a : α) (c s : Forest α) :
    order.nodes (.cons a c s) = order.place a (order.nodes c) ++ order.nodes s := by
  cases order <;> simp [Order.nodes, Order.place]

theorem Order.nodes_reverse_eq_iff {order : Order} {f : Forest α} (h : f.preOrder.Nodup) :
    order.nodes f.reverse = order.nodes f.mirror ↔ f.Thin := by
  cases order with
  | pre => exact Forest.reverse_preOrder_eq_iff h
  | post => exact Forest.reverse_postOrder_eq_iff (f.preOrder_perm_postOrder.nodup_iff.mp h)

theorem Order.place_inj {order : Order} {a : α} {l l' : List α} :
    order.place a l = order.place a l' ↔ l = l' := by
  cases order <;> simp [Order.place]

theorem forEach_congr {V : Type} {f g : α → V → Outcome V} {as : List α}
    (h : ∀ a ∈ as, ∀ v, f a v = g a v) : forEach f as = forEach g as := by
  induction as with
  | nil => rfl
  | cons a as ih =>
    funext v
    rw [forEach, forEach, h a List.mem_cons_self,
      ih fun b hb => h b (List.mem_cons_of_mem _ hb)]

section

variable [DecidableEq α] {order : Order} {children : α → List α} {react : α → σ → Reaction σ}

/-- A call at a node that has not been visited, given what the loop over the children does. -/
theorem walk_node (hcalm : Calm react) {fuel : Nat} {a : α} {reverse : Bool} {v : State α σ}
    {below : List α} {P : State α σ → Prop} (hnode : a ∉ v.visited)
    (hloop : ∀ v₁ : State α σ, v₁.visited = a :: v.visited →
      ∃ v₂, forEach (fun c v => walk order children react fuel c false v)
          (if reverse then (children a).reverse else children a) v₁ = .returned v₂ ∧
        v₂.accepted = v₁.accepted ++ below ∧ P v₂)
    (hP : ∀ {v w : State α σ}, w.visited = v.visited → P v → P w) :
    ∃ v', walk order children react (fuel + 1) a reverse v = .returned v' ∧
      v'.accepted = v.accepted ++ order.place a below ∧ P v' := by
  cases order with
  | pre =>
    obtain ⟨own, n, haccept⟩ := hcalm.accept a (v.enter a)
    obtain ⟨v₂, hrun, haccepted, hv₂⟩ := hloop ((v.enter a).visit a own n) rfl
    refine ⟨v₂.popCurrent, ?_, ?_, hP (v := v₂) rfl hv₂⟩
    · rw [walk, if_neg hnode, if_pos rfl, haccept, Outcome.returned_bind, hrun]
      rfl
    · exact haccepted.trans (by simp [State.visit, State.enter, Order.place])
  | post =>
    obtain ⟨v₂, hrun, haccepted, hv₂⟩ := hloop (v.enter a) rfl
    obtain ⟨own, n, haccept⟩ := hcalm.accept a v₂
    refine ⟨(v₂.visit a own n).popCurrent, ?_, ?_, hP (v := v₂) rfl hv₂⟩
    · rw [walk, if_neg hnode, if_neg (by decide), Outcome.returned_bind, hrun,
        Outcome.returned_bind, if_pos rfl, haccept, Outcome.returned_bind]
    · simp [State.popCurrent, State.visit, haccepted, State.enter, Order.place]

/-- The loop over the roots of a forest of new nodes visits its nodes in their order. -/
theorem forEach_forest (hcalm : Calm react) {f : Forest α} (hf : f.Describes children)
    (hnodup : f.preOrder.Nodup) {v : State α σ} (hfresh : ∀ a ∈ f.preOrder, a ∉ v.visited)
    {fuel : Nat} (hfuel : f.preOrder.length ≤ fuel) :
    ∃ v', forEach (fun c v => walk order children react fuel c false v) f.roots v =
        .returned v' ∧
      v'.accepted = v.accepted ++ order.nodes f ∧
      ∀ a, a ∈ v'.visited ↔ a ∈ v.visited ∨ a ∈ f.preOrder := by
  induction f generalizing v fuel with
  | nil => exact ⟨v, rfl, by simp [Order.nodes_nil], by simp⟩
  | cons a c s ihc ihs =>
    obtain ⟨ha, hc, hs⟩ := hf
    simp only [Forest.preOrder, List.nodup_cons, List.nodup_append, List.mem_append, not_or,
      List.mem_cons, List.length_cons, List.length_append] at hnodup hfresh hfuel
    obtain ⟨⟨hac, has⟩, hcnodup, hsnodup, hdisjoint⟩ := hnodup
    obtain ⟨fuel, rfl⟩ : ∃ k, fuel = k + 1 := ⟨fuel - 1, by omega⟩
    obtain ⟨v₁, hwalk, haccepted, hvisited⟩ :
        ∃ v₁, walk order children react (fuel + 1) a false v = .returned v₁ ∧
          v₁.accepted = v.accepted ++ order.place a (order.nodes c) ∧
          ∀ b, b ∈ v₁.visited ↔ b ∈ a :: v.visited ∨ b ∈ c.preOrder := by
      refine walk_node hcalm (hfresh a (.inl rfl)) (fun v₁ hv₁ => ?_) ?_
      · have hnew : ∀ b ∈ c.preOrder, b ∉ v₁.visited := by
          intro b hb
          rw [hv₁, List.mem_cons, not_or]
          exact ⟨fun heq => hac (heq ▸ hb), hfresh b (.inr (.inl hb))⟩
        obtain ⟨v₂, hrun, hacc, hvis⟩ := @ihc hc hcnodup v₁ hnew fuel (by omega)
        refine ⟨v₂, by simpa [ha] using hrun, hacc, fun b => ?_⟩
        rw [hvis, hv₁]
      · intro v w hw hv b
        rw [hw]
        exact hv b
    have hrest : ∀ b ∈ s.preOrder, b ∉ v₁.visited := by
      intro b hb hmem
      obtain hmem | hmem := (hvisited b).mp hmem
      · obtain rfl | hmem := List.mem_cons.mp hmem
        · exact has hb
        · exact hfresh b (.inr (.inr hb)) hmem
      · exact hdisjoint b hmem b hb rfl
    obtain ⟨v₂, hrun, hacc, hvis⟩ := @ihs hs hsnodup v₁ hrest (fuel + 1) (by omega)
    refine ⟨v₂, ?_, ?_, fun b => ?_⟩
    · rw [Forest.roots, forEach, hwalk, Outcome.returned_bind, hrun]
    · rw [hacc, haccepted, Order.nodes_cons, List.append_assoc]
    · rw [hvis, hvisited]
      simp only [Forest.preOrder, List.mem_cons, List.mem_append]
      tauto

/-- Graphs that agree on a set of nodes closed under children are traversed alike from there. -/
theorem walk_congr {children' : α → List α} {S : α → Prop}
    (hclosed : ∀ a, S a → ∀ b ∈ children a, S b) (heq : ∀ a, S a → children' a = children a)
    (fuel : Nat) {a : α} (ha : S a) (v : State α σ) :
    walk order children' react fuel a false v = walk order children react fuel a false v := by
  induction fuel generalizing a v with
  | zero => rfl
  | succ fuel ih =>
    have hloop := forEach_congr fun b hb w => ih (hclosed a ha b hb) w
    simp only [walk, heq a ha, Bool.false_eq_true, if_false, hloop]

end

section

variable [DecidableEq α] [Fintype α]

/-- The visits of a whole traversal of a tree. -/
theorem processAll_tree (order : Order) {children : α → List α} {react : α → σ → Reaction σ}
    (hcalm : Calm react) {root : α} {c : Forest α}
    (htree : (Forest.cons root c .nil).Describes children)
    (hnodup : (Forest.cons root c .nil).preOrder.Nodup) (reverse : Bool) (v : State α σ) :
    ∃ ok v', processAll order children react root reverse v = some (ok, v') ∧
      v'.accepted = v.accepted ++
        order.place root (order.nodes (if reverse then c.reverse else c)) := by
  obtain ⟨hroot, hc, -⟩ := htree
  simp only [Forest.preOrder, List.append_nil, List.nodup_cons] at hnodup
  have hperm : (if reverse then c.reverse else c).preOrder.Perm c.preOrder := by
    cases reverse with
    | false => exact .refl _
    | true => exact c.reverse_preOrder_perm
  have hdescribes : (if reverse then c.reverse else c).Describes children := by
    cases reverse with
    | false => exact hc
    | true => exact hc.reverse
  have hroots : (if reverse then (children root).reverse else children root) =
      (if reverse then c.reverse else c).roots := by
    cases reverse <;> simp [hroot]
  have hfuel : (if reverse then c.reverse else c).preOrder.length ≤ Fintype.card α :=
    hperm.length_eq.trans_le hnodup.2.length_le_card
  obtain ⟨v', hwalk, haccepted, -⟩ :
      ∃ v', walk order children react (Fintype.card α + 1) root reverse v.reset = .returned v' ∧
        v'.accepted = v.reset.accepted ++
          order.place root (order.nodes (if reverse then c.reverse else c)) ∧ True := by
    refine walk_node hcalm (by simp [State.reset]) (fun v₁ hv₁ => ?_) fun _ _ => trivial
    have hfresh : ∀ a ∈ (if reverse then c.reverse else c).preOrder, a ∉ v₁.visited := by
      intro a ha
      rw [hv₁, State.reset, List.mem_singleton]
      exact fun heq => hnodup.1 (heq ▸ hperm.subset ha)
    obtain ⟨v₂, hrun, hacc, -⟩ := @forEach_forest _ _ _ order _ _ hcalm _ hdescribes
      (hperm.nodup_iff.mpr hnodup.2) _ hfresh _ hfuel
    exact ⟨v₂, by rw [hroots, hrun], hacc, trivial⟩
  exact ⟨_, v', by rw [processAll, hwalk], haccepted⟩

/-- A tree is traversed in reverse like its mirror image is traversed forward, whatever the
visitor does, if no node below the root has two children; and if no visit raises an emergency,
this is the only case in which the visits come in that order. -/
theorem processAll_reverse_mirror_iff (order : Order) {children : α → List α} {root : α}
    {c : Forest α} (htree : (Forest.cons root c .nil).Describes children)
    (hnodup : (Forest.cons root c .nil).preOrder.Nodup) :
    (c.Thin → ∀ (react : α → σ → Reaction σ) (v : State α σ),
      processAll order children react root true v =
        processAll order (fun a => (children a).reverse) react root false v) ∧
    ∀ (react : α → σ → Reaction σ) (v : State α σ), Calm react →
      ∃ ok v₁ ok' v₂, processAll order children react root true v = some (ok, v₁) ∧
        processAll order (fun a => (children a).reverse) react root false v = some (ok', v₂) ∧
        (v₁.accepted = v₂.accepted ↔ c.Thin) := by
  have hc := htree.2.1
  have hcnodup : c.preOrder.Nodup := by
    simp only [Forest.preOrder, List.append_nil, List.nodup_cons] at hnodup
    exact hnodup.2
  refine ⟨fun hthin react v => ?_, fun react v hcalm => ?_⟩
  · have hsame : ∀ a, a ∈ c.preOrder → (children a).reverse = children a := by
      intro a ha
      have hle := hthin.length_children_le hc ha
      match children a, hle with
      | [], _ => rfl
      | [b], _ => rfl
    have hwalk : ∀ fuel, ∀ b ∈ (children root).reverse, ∀ w : State α σ,
        walk order (fun a => (children a).reverse) react fuel b false w =
          walk order children react fuel b false w := by
      intro fuel b hb w
      have hb : b ∈ c.preOrder := by
        rw [List.mem_reverse, htree.1] at hb
        exact Forest.mem_preOrder_of_mem_roots hb
      exact walk_congr (fun a ha d hd => hc.mem_preOrder ha hd) hsame fuel hb w
    have hloop := forEach_congr (hwalk (Fintype.card α))
    simp only [processAll, walk, if_true, Bool.false_eq_true, if_false, hloop]
  · obtain ⟨ok, v₁, hrun₁, hacc₁⟩ := processAll_tree order hcalm htree hnodup true v
    have hmirror : (Forest.cons root c.mirror .nil).Describes fun a => (children a).reverse :=
      ⟨by simp [htree.1], hc.mirror, trivial⟩
    have hmirrorNodup : (Forest.cons root c.mirror .nil).preOrder.Nodup := by
      have hperm : (root :: c.mirror.preOrder).Perm (root :: c.preOrder) :=
        c.mirror_preOrder_perm.cons root
      simp only [Forest.preOrder, List.append_nil] at hnodup ⊢
      exact hperm.nodup_iff.mpr hnodup
    obtain ⟨ok', v₂, hrun₂, hacc₂⟩ :=
      processAll_tree order hcalm hmirror hmirrorNodup false v
    refine ⟨ok, v₁, ok', v₂, hrun₁, hrun₂, ?_⟩
    rw [hacc₁, hacc₂, List.append_right_inj, Order.place_inj]
    exact Order.nodes_reverse_eq_iff hcnodup

end

/-- A root with two leaves. -/
def twoLeaves : Forest (Fin 3) := .cons 1 .nil (.cons 2 .nil .nil)

theorem processAll_reverse_mirror_twoLeaves :
    twoLeaves.Thin ∧ ∀ v : State (Fin 3) Nat,
      processAll .pre (fun a => if a = 0 then [1, 2] else []) (fun _ n => .returned (n + 1) 0) 0
        true v =
      processAll .pre (fun a => (if a = 0 then [1, 2] else [] : List (Fin 3)).reverse)
        (fun _ n => .returned (n + 1) 0) 0 false v := by
  have hthin : twoLeaves.Thin := by simp [twoLeaves]
  refine ⟨hthin, fun v => ?_⟩
  exact (processAll_reverse_mirror_iff .pre (c := twoLeaves) (by simp [twoLeaves])
    (by simp [twoLeaves])).1 hthin _ v

/-- A visitor without members of its own before its first traversal. -/
def idle (α : Type) : State α Unit := ⟨[], [], 0, 0, (), [], []⟩

/-- The root has one child, which has two: the reverse traversal visits these two in their order. -/
theorem processAll_reverse_not_mirror :
    let children : Fin 4 → List (Fin 4) :=
      fun a => if a = 0 then [1] else if a = 1 then [2, 3] else []
    (processAllPreOrder children (fun _ _ => .returned () 0) 0 true (idle (Fin 4))).map
        (fun r => r.2.accepted) = some [0, 1, 2, 3] ∧
      (processAllPreOrder (fun a => (children a).reverse) (fun _ _ => .returned () 0) 0 false
        (idle (Fin 4))).map (fun r => r.2.accepted) = some [0, 1, 3, 2] ∧
      (processAllPostOrder children (fun _ _ => .returned () 0) 0 true (idle (Fin 4))).map
        (fun r => r.2.accepted) = some [2, 3, 1, 0] ∧
      (processAllPostOrder (fun a => (children a).reverse) (fun _ _ => .returned () 0) 0 false
        (idle (Fin 4))).map (fun r => r.2.accepted) = some [3, 2, 1, 0] := by
  decide

end Diffingo.Spec.ProcessAll
