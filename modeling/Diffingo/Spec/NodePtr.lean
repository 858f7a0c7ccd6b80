import Mathlib.Data.List.Basic
import Mathlib.Logic.Function.Basic

/-!
# Handles of nodes

A `node_ptr` is a handle on a shared cell, and the cell holds the node. Copies of a handle share its
cell, so that a replacement in the cell is seen by all of them. A node has a weak reference back to
one of the cells that hold it, which `nodePtr` turns into a handle.
-/

namespace Diffingo.Spec.NodePtr

/-- Handles, cells and nodes are numbered. A handle that has been destroyed has no cell, and a null
handle has a cell without a node. -/
structure Heap where
  handles : List (Option Nat)
  cells : List (Option Nat)
  /-- `node_ptr__` of each node. -/
  backRef : Nat → Option Nat

/-- What a pass does with handles. -/
inductive Op
  /-- `node_ptr()` and `node_ptr(nullptr)`. -/
  | null
  /-- `node_ptr(std::shared_ptr<S>)`, in particular `newNodePtr`. -/
  | create (n : Nat)
  /-- `node_ptr(std::shared_ptr<ptr>)`. -/
  | attach (h : Nat)
  /-- The copy constructors and the casts. -/
  | copy (h : Nat)
  /-- `Node::nodePtr`. -/
  | nodePtr (n : Nat)
  /-- `operator=(const node_ptr<T>&)`. -/
  | assign (h other : Nat)
  /-- `operator=(const std::shared_ptr<S>&)`. -/
  | assignNode (h n : Nat)
  | replace (h other : Nat)
  | destroy (h : Nat)

namespace Heap

def empty : Heap := ⟨[], [], fun _ => none⟩

/-- The cell of a live handle. -/
def cell (s : Heap) (h : Nat) : Option Nat := s.handles[h]?.join

def content (s : Heap) (c : Nat) : Option Nat := s.cells[c]?.join

/-- The node that a live handle stands for. -/
def target (s : Heap) (h : Nat) : Option Nat := (s.cell h).bind s.content

/-- `weak_ptr::expired`: no handle has the cell. -/
def expired (s : Heap) (c : Nat) : Bool := !s.handles.contains (some c)

/-- A new handle on a cell. -/
def point (s : Heap) (c : Nat) : Heap := { s with handles := s.handles ++ [some c] }

/-- A new cell. -/
def allocate (s : Heap) (v : Option Nat) : Heap := { s with cells := s.cells ++ [v] }

def aim (s : Heap) (h : Nat) (c : Option Nat) : Heap := { s with handles := s.handles.set h c }

def store (s : Heap) (c : Nat) (v : Option Nat) : Heap := { s with cells := s.cells.set c v }

def setRef (s : Heap) (n : Nat) (c : Option Nat) : Heap :=
  { s with backRef := Function.update s.backRef n c }

/-- Both dereference the node of the cell. -/
def setNodePtrRef (s : Heap) (c : Nat) : Option Heap := (s.content c).map (s.setRef · (some c))

def clearNodePtrRef (s : Heap) (c : Nat) : Option Heap := (s.content c).map (s.setRef · none)

/-- One operation. There is no result if a null pointer is dereferenced, if `nodePtr` aborts or if a
handle does not live. -/
def step (s : Heap) : Op → Option Heap
  | .null => some ((s.allocate none).point s.cells.length)
  | .create n => ((s.allocate (some n)).point s.cells.length).setNodePtrRef s.cells.length
  | .attach h => (s.cell h).bind fun c => (s.point c).setNodePtrRef c
  | .copy h => (s.cell h).map s.point
  | .nodePtr n => (s.backRef n).bind fun c => if s.expired c then none else some (s.point c)
  | .assign h other => (s.cell h).bind fun _ => (s.cell other).map fun c => s.aim h (some c)
  | .assignNode h n => (s.cell h).bind fun c => (s.clearNodePtrRef c).bind fun s =>
      (s.store c (some n)).setNodePtrRef c
  | .replace h other => (s.cell h).bind fun c => (s.cell other).bind fun c' =>
      (s.clearNodePtrRef c).map fun s => s.store c (s.content c')
  | .destroy h => (s.cell h).map fun _ => s.aim h none

def run (s : Heap) (ops : List Op) : Option Heap := ops.foldlM step s

/-- `nodePtr` on the target of a live handle gives a handle with the same target. -/
def BackReferenced (s : Heap) : Prop :=
  ∀ h n, s.target h = some n →
    ∃ s', s.step (.nodePtr n) = some s' ∧ s'.target s.handles.length = some n

/-- No live handle outside of the cell stands for the node. -/
def OnlyIn (s : Heap) (c n : Nat) : Prop := ∀ k, s.target k = some n → s.cell k = some c

/-- When a handle leaves its cell, the cell has other handles, or no node refers back to it that is
held by another cell. -/
def MayLeave (s : Heap) (h : Nat) : Prop :=
  ∀ c n, s.cell h = some c → (∀ k, s.cell k = some c → k = h) → s.backRef n = some c → s.OnlyIn c n

/-- What has to hold before an operation so that it leaves the back references intact. -/
def Keeps (s : Heap) : Op → Prop
  | .assign h other => s.cell other = s.cell h ∨ s.MayLeave h
  | .destroy h => s.MayLeave h
  | .assignNode h n => ∀ c m, s.cell h = some c → s.content c = some m → m = n ∨ s.OnlyIn c m
  | .replace h other => ∀ c m, s.cell h = some c → s.content c = some m →
      s.target other ≠ some m ∧ s.OnlyIn c m
  | _ => True

/-- Every operation of a sequence meets its condition. -/
def Meets (s : Heap) : List Op → Prop
  | [] => True
  | op :: ops => ∀ s', s.step op = some s' → s.Keeps op ∧ Meets s' ops

/-! ### What the operations change -/

section Observe

variable {s : Heap} {h k c c' n m : Nat} {v : Option Nat}

theorem cell_lt (hc : s.cell h = some c) : h < s.handles.length := by
  by_contra hh
  simp [cell, List.getElem?_eq_none (Nat.le_of_not_lt hh)] at hc

theorem mem_handles_iff : some c ∈ s.handles ↔ ∃ h, s.cell h = some c := by
  simp [List.mem_iff_getElem?, cell, Option.join_eq_some_iff]

theorem join_append (l : List (Option Nat)) (v : Option Nat) (i : Nat) :
    (l ++ [v])[i]?.join = if i = l.length then v else l[i]?.join := by
  split_ifs with hi
  · simp [hi]
  · rcases Nat.lt_or_gt_of_ne hi with hlt | hgt
    · rw [List.getElem?_append_left hlt]
    · rw [List.getElem?_eq_none (by simp; omega), List.getElem?_eq_none (Nat.le_of_lt hgt)]

theorem join_set {l : List (Option Nat)} {i : Nat} (hi : i < l.length) (v : Option Nat) (j : Nat) :
    (l.set i v)[j]?.join = if j = i then v else l[j]?.join := by
  by_cases hj : j = i
  · simp [hj, hi]
  · rw [List.getElem?_set_ne (Ne.symm hj), if_neg hj]

theorem cell_point : (s.point c).cell k = if k = s.handles.length then some c else s.cell k :=
  join_append _ _ _

theorem cell_aim (hc : s.cell h = some c) :
    (s.aim h v).cell k = if k = h then v else s.cell k :=
  join_set (cell_lt hc) _ _

theorem content_allocate :
    (s.allocate v).content c = if c = s.cells.length then v else s.content c :=
  join_append _ _ _

theorem content_lt (hn : s.content c = some n) : c < s.cells.length := by
  by_contra hc
  simp [content, List.getElem?_eq_none (Nat.le_of_not_lt hc)] at hn

theorem content_store (hn : s.content c = some n) :
    (s.store c v).content c' = if c' = c then v else s.content c' :=
  join_set (content_lt hn) _ _

@[simp] theorem content_point : (s.point c).content k = s.content k := rfl
@[simp] theorem content_aim : (s.aim h v).content k = s.content k := rfl
@[simp] theorem content_setRef : (s.setRef n v).content k = s.content k := rfl
@[simp] theorem cell_allocate : (s.allocate v).cell k = s.cell k := rfl
@[simp] theorem cell_store : (s.store c v).cell k = s.cell k := rfl
@[simp] theorem cell_setRef : (s.setRef n v).cell k = s.cell k := rfl

theorem not_expired (hc : s.cell h = some c) : s.expired c = false := by
  simpa [expired] using mem_handles_iff.mpr ⟨h, hc⟩

end Observe

/-! ### Back references -/

/-- The weak reference of the node is alive and leads back to it. -/
def Referred (s : Heap) (n : Nat) : Prop :=
  ∃ c, s.backRef n = some c ∧ (∃ h, s.cell h = some c) ∧ s.content c = some n

/-- The targets of all live handles, but for those in `X`, are referred to. -/
def GoodBut (s : Heap) (X : Nat → Prop) : Prop :=
  ∀ h n, s.target h = some n → ¬ X n → s.Referred n

abbrev Good (s : Heap) : Prop := s.GoodBut fun _ => False

/-- Every handle has a cell that has been allocated. -/
def Allocated (s : Heap) : Prop := ∀ h c, s.cell h = some c → c < s.cells.length

section BackReferences

variable {s s' : Heap} {h k c n m : Nat} {v : Option Nat} {X : Nat → Prop}

theorem target_eq_some : s.target h = some n ↔ ∃ c, s.cell h = some c ∧ s.content c = some n :=
  Option.bind_eq_some_iff

theorem backReferenced_iff : s.BackReferenced ↔ s.Good := by
  refine forall₂_congr fun h n => imp_congr_right fun htarget => ?_
  simp only [step, not_false_eq_true, forall_const, Option.bind_eq_some_iff]
  constructor
  · rintro ⟨s', ⟨c, hc, hstep⟩, hn⟩
    split_ifs at hstep with hexpired
    cases hstep
    refine ⟨c, hc, mem_handles_iff.mp (by simpa [expired] using hexpired), ?_⟩
    simpa [target, cell_point] using hn
  · rintro ⟨c, hc, ⟨k, hk⟩, hn⟩
    refine ⟨s.point c, ⟨c, hc, by simp [not_expired hk]⟩, ?_⟩
    simpa [target, cell_point] using hn

theorem Referred.mono (hn : s.Referred n) (href : s'.backRef n = s.backRef n)
    (hcell : ∀ h c, s.cell h = some c → ∃ k, s'.cell k = some c)
    (hcontent : ∀ h c, s.cell h = some c → s'.content c = s.content c) : s'.Referred n := by
  obtain ⟨c, hc, ⟨h, hh⟩, hn⟩ := hn
  exact ⟨c, href.trans hc, hcell h c hh, (hcontent h c hh).trans hn⟩

theorem Referred.point (hn : s.Referred n) (c : Nat) : (s.point c).Referred n := by
  refine hn.mono rfl (fun h c' hh => ⟨h, ?_⟩) fun _ _ _ => rfl
  rw [cell_point, if_neg (Nat.ne_of_lt (cell_lt hh)), hh]

theorem GoodBut.point (hs : s.GoodBut X) (hc : ∀ n, s.content c = some n → ¬ X n → s.Referred n) :
    (s.point c).GoodBut X := by
  intro k n hk hX
  obtain ⟨c', hk, hn⟩ := target_eq_some.mp hk
  rw [cell_point] at hk
  split_ifs at hk with hlast
  · cases hk
    exact (hc n hn hX).point _
  · exact (hs k n (target_eq_some.mpr ⟨c', hk, hn⟩) hX).point _

theorem GoodBut.allocate (hs : s.GoodBut X) (ha : s.Allocated) (v : Option Nat) :
    (s.allocate v).GoodBut X := by
  have hsame : ∀ h c, s.cell h = some c → (s.allocate v).content c = s.content c := by
    intro h c hc
    rw [content_allocate, if_neg (Nat.ne_of_lt (ha h c hc))]
  intro k n hk hX
  obtain ⟨c, hc, hn⟩ := target_eq_some.mp hk
  have htarget : s.target k = some n := target_eq_some.mpr ⟨c, hc, (hsame k c hc).symm.trans hn⟩
  exact (hs k n htarget hX).mono rfl (fun h c hh => ⟨h, hh⟩) hsame

/-- A reference to a live cell that holds the node puts it in order, and no other one changes. -/
theorem good_setRef_iff (hc : s.cell h = some c) (hn : s.content c = some n) :
    (s.setRef n (some c)).Good ↔ s.GoodBut (· = n) := by
  have hother : ∀ m, m ≠ n → (s.setRef n (some c)).backRef m = s.backRef m := fun m hm =>
    Function.update_of_ne hm _ _
  constructor
  · intro hs k m hk hm
    obtain ⟨d, hd, hlive, hcontent⟩ := hs k m hk id
    exact ⟨d, (hother m hm).symm.trans hd, hlive, hcontent⟩
  · intro hs k m hk _
    by_cases hm : m = n
    · subst hm
      exact ⟨c, Function.update_self _ _ _, ⟨h, hc⟩, hn⟩
    · obtain ⟨d, hd, hlive, hcontent⟩ := hs k m hk hm
      exact ⟨d, (hother m hm).trans hd, hlive, hcontent⟩

/-- The cell that an operation stores into, once the reference of its old node is cleared. -/
theorem target_clear_store (hm : s.content c = some m) :
    ((s.setRef m none).store c v).target k = if s.cell k = some c then v else s.target k := by
  have hm' : (s.setRef m none).content c = some m := hm
  unfold target
  cases hk : s.cell k with
  | none => simp [hk]
  | some d => by_cases hd : d = c <;> simp [hk, hd, content_store hm']

theorem Referred.clear_store (hn : s.Referred n) (hm : s.content c = some m) (hne : n ≠ m) :
    ((s.setRef m none).store c v).Referred n := by
  have hm' : (s.setRef m none).content c = some m := hm
  obtain ⟨d, hd, hlive, hcontent⟩ := hn
  refine ⟨d, (Function.update_of_ne hne _ _).trans hd, hlive, ?_⟩
  rw [content_store hm', if_neg]
  · exact hcontent
  · rintro rfl
    exact hne (Option.some.inj (hcontent.symm.trans hm))

/-- After it the old node must not be in use any more. -/
theorem goodBut_clear_store_iff (hs : s.Good) (hc : s.cell h = some c) (hm : s.content c = some m)
    (hv : ∀ n, v = some n → ¬ X n → s.Referred n) :
    ((s.setRef m none).store c v).GoodBut X ↔ X m ∨ v ≠ some m ∧ s.OnlyIn c m := by
  constructor
  · intro hgood
    by_contra! hX
    obtain ⟨hX, huse⟩ := hX
    have hbad : ¬ ((s.setRef m none).store c v).Referred m := by
      rintro ⟨d, hd, -⟩
      simp [store, setRef] at hd
    refine hbad ?_
    by_cases hv : v = some m
    · exact hgood h m (by rw [target_clear_store hm, if_pos hc, hv]) hX
    · have hk := huse hv
      simp only [OnlyIn, not_forall] at hk
      obtain ⟨k, hk, hkc⟩ := hk
      exact hgood k m (by rw [target_clear_store hm, if_neg hkc, hk]) hX
  · rintro hX k n hk hXn
    rw [target_clear_store hm] at hk
    have hne : n ≠ m := by
      rintro rfl
      obtain ⟨hvm, honly⟩ := hX.resolve_left hXn
      split_ifs at hk with hkc
      · exact hvm hk
      · exact hkc (honly k hk)
    have hn : s.Referred n := by
      split_ifs at hk with hkc
      · exact hv n hk hXn
      · exact hs k n hk id
    exact hn.clear_store hm hne

/-- A handle that leaves its cell may be the last one there. -/
theorem good_aim_iff (hs : s.Good) (hc : s.cell h = some c) (hv : v ≠ some c)
    (hlive : ∀ d, v = some d → ∃ k, k ≠ h ∧ s.cell k = some d) :
    (s.aim h v).Good ↔ s.MayLeave h := by
  have hcell : ∀ k, k ≠ h → (s.aim h v).cell k = s.cell k := fun k hk => by
    rw [cell_aim hc, if_neg hk]
  constructor
  · intro hgood c' n hc' hlast hn k hk
    obtain rfl := Option.some.inj (hc.symm.trans hc')
    by_contra hkc
    have hkh : k ≠ h := by
      rintro rfl
      exact hkc hc
    have htarget : (s.aim h v).target k = some n := by
      obtain ⟨d, hd, hcontent⟩ := target_eq_some.mp hk
      exact target_eq_some.mpr ⟨d, (hcell k hkh).trans hd, hcontent⟩
    obtain ⟨d, hd, ⟨l, hl⟩, -⟩ := hgood k n htarget id
    obtain rfl : c = d := Option.some.inj (hn.symm.trans hd)
    rw [cell_aim hc] at hl
    split_ifs at hl with hlh
    · exact hv hl
    · exact hlh (hlast l hl)
  · intro hleave k n hk _
    obtain ⟨d, hd, hn⟩ := target_eq_some.mp hk
    -- The node is also the target of a handle that stays where it is.
    obtain ⟨l, hlh, hl⟩ : ∃ l, l ≠ h ∧ s.cell l = some d := by
      rw [cell_aim hc] at hd
      split_ifs at hd with hkh
      · exact hlive d hd
      · exact ⟨k, hkh, hd⟩
    have hln : s.target l = some n := target_eq_some.mpr ⟨d, hl, hn⟩
    obtain ⟨e, he, ⟨i, hi⟩, hcontent⟩ := hs l n hln id
    by_cases hother : ∃ j, j ≠ h ∧ s.cell j = some e
    · obtain ⟨j, hjh, hj⟩ := hother
      exact ⟨e, he, ⟨j, (hcell j hjh).trans hj⟩, hcontent⟩
    · push Not at hother
      have hih : i = h := by
        by_contra hih
        exact hother i hih hi
      subst hih
      obtain rfl := Option.some.inj (hc.symm.trans hi)
      have hlc := hleave c n hc (fun j hj => by_contra fun hji => hother j hji hj) he l hln
      exact absurd hlc (hother l hlh)

end BackReferences

/-! ### Steps and runs -/

section Run

variable {s s' : Heap} {op : Op} {h k c n : Nat}

theorem Allocated.point (ha : s.Allocated) (hc : c < s.cells.length) : (s.point c).Allocated := by
  intro k d hk
  rw [cell_point] at hk
  split_ifs at hk
  · cases hk
    exact hc
  · exact ha k d hk

theorem Allocated.allocate (ha : s.Allocated) (v : Option Nat) :
    ((s.allocate v).point s.cells.length).Allocated :=
  Allocated.point (fun k d hk => Nat.lt_of_lt_of_le (ha k d hk) (by simp [Heap.allocate]))
    (by simp [Heap.allocate])

theorem Allocated.aim (ha : s.Allocated) (hc : s.cell h = some c) {v : Option Nat}
    (hv : ∀ d, v = some d → d < s.cells.length) : (s.aim h v).Allocated := by
  intro k d hk
  rw [cell_aim hc] at hk
  split_ifs at hk
  · exact hv d hk
  · exact ha k d hk

theorem Allocated.store (ha : s.Allocated) (v : Option Nat) : (s.store c v).Allocated := by
  intro k d hk
  simpa [Heap.store] using ha k d hk

theorem Allocated.step (ha : s.Allocated) (hstep : s.step op = some s') : s'.Allocated := by
  cases op with
  | null =>
    cases hstep
    exact ha.allocate none
  | create n =>
    obtain ⟨m, -, rfl⟩ := Option.map_eq_some_iff.mp hstep
    exact ha.allocate (some n)
  | attach h =>
    obtain ⟨c, hc, hstep⟩ := Option.bind_eq_some_iff.mp hstep
    obtain ⟨m, -, rfl⟩ := Option.map_eq_some_iff.mp hstep
    exact ha.point (ha h c hc)
  | copy h =>
    obtain ⟨c, hc, rfl⟩ := Option.map_eq_some_iff.mp hstep
    exact ha.point (ha h c hc)
  | nodePtr n =>
    obtain ⟨c, hc, hstep⟩ := Option.bind_eq_some_iff.mp hstep
    split_ifs at hstep with hexpired
    cases hstep
    obtain ⟨k, hk⟩ := mem_handles_iff.mp (by simpa [expired] using hexpired)
    exact ha.point (ha k c hk)
  | assign h other =>
    obtain ⟨c, hc, hstep⟩ := Option.bind_eq_some_iff.mp hstep
    obtain ⟨d, hd, rfl⟩ := Option.map_eq_some_iff.mp hstep
    exact ha.aim hc (by rintro _ ⟨⟩; exact ha other d hd)
  | assignNode h n =>
    obtain ⟨c, -, hstep⟩ := Option.bind_eq_some_iff.mp hstep
    obtain ⟨s₁, hclear, hstep⟩ := Option.bind_eq_some_iff.mp hstep
    obtain ⟨m, -, rfl⟩ := Option.map_eq_some_iff.mp hclear
    obtain ⟨m', -, rfl⟩ := Option.map_eq_some_iff.mp hstep
    exact Allocated.store (s := s.setRef m none) ha (some n)
  | replace h other =>
    obtain ⟨c, -, hstep⟩ := Option.bind_eq_some_iff.mp hstep
    obtain ⟨c', -, hstep⟩ := Option.bind_eq_some_iff.mp hstep
    obtain ⟨s₁, hclear, rfl⟩ := Option.map_eq_some_iff.mp hstep
    obtain ⟨m, -, rfl⟩ := Option.map_eq_some_iff.mp hclear
    exact Allocated.store (s := s.setRef m none) ha _
  | destroy h =>
    obtain ⟨c, hc, rfl⟩ := Option.map_eq_some_iff.mp hstep
    exact ha.aim hc (by rintro _ ⟨⟩)

theorem forall_held_iff {m : Nat} {P : Nat → Nat → Prop} (hc : s.cell h = some c)
    (hm : s.content c = some m) :
    (∀ c' m', s.cell h = some c' → s.content c' = some m' → P c' m') ↔ P c m := by
  constructor
  · exact fun hP => hP c m hc hm
  · intro hP c' m' hc' hm'
    obtain rfl := Option.some.inj (hc.symm.trans hc')
    obtain rfl := Option.some.inj (hm.symm.trans hm')
    exact hP

/-- An operation leaves intact back references intact exactly if it meets its condition. -/
theorem good_step_iff (ha : s.Allocated) (hs : s.Good) (hstep : s.step op = some s') :
    s'.Good ↔ s.Keeps op := by
  have hcontent : ∀ k c, s.cell k = some c → ∀ n, s.content c = some n → s.Referred n :=
    fun k c hk n hn => hs k n (target_eq_some.mpr ⟨c, hk, hn⟩) id
  cases op with
  | null =>
    cases hstep
    refine iff_of_true ((hs.allocate ha none).point fun n hn => ?_) trivial
    simp [content_allocate] at hn
  | create n =>
    obtain ⟨m, hm, rfl⟩ := Option.map_eq_some_iff.mp hstep
    obtain rfl : n = m := by simpa [content_allocate] using hm
    have hnew : ((s.allocate (some n)).point s.cells.length).cell s.handles.length =
        some s.cells.length := cell_point.trans (if_pos rfl)
    refine iff_of_true ((good_setRef_iff hnew hm).mpr ?_) trivial
    refine GoodBut.point (GoodBut.allocate (fun k p hk _ => hs k p hk id) ha (some n)) ?_
    intro p hp hne
    exact absurd (by simpa [content_allocate] using hp.symm) hne
  | attach h =>
    obtain ⟨c, hc, hstep⟩ := Option.bind_eq_some_iff.mp hstep
    obtain ⟨m, hm, rfl⟩ := Option.map_eq_some_iff.mp hstep
    have hnew : (s.point c).cell s.handles.length = some c := cell_point.trans (if_pos rfl)
    refine iff_of_true ((good_setRef_iff hnew hm).mpr ?_) trivial
    exact GoodBut.point (fun k p hk _ => hs k p hk id) fun n hn _ => hcontent h c hc n hn
  | copy h =>
    obtain ⟨c, hc, rfl⟩ := Option.map_eq_some_iff.mp hstep
    exact iff_of_true (hs.point fun n hn _ => hcontent h c hc n hn) trivial
  | nodePtr n =>
    obtain ⟨c, hc, hstep⟩ := Option.bind_eq_some_iff.mp hstep
    split_ifs at hstep with hexpired
    cases hstep
    obtain ⟨k, hk⟩ := mem_handles_iff.mp (by simpa [expired] using hexpired)
    exact iff_of_true (hs.point fun n hn _ => hcontent k c hk n hn) trivial
  | assign h other =>
    obtain ⟨c, hc, hstep⟩ := Option.bind_eq_some_iff.mp hstep
    obtain ⟨d, hd, rfl⟩ := Option.map_eq_some_iff.mp hstep
    by_cases hdc : d = c
    · subst hdc
      have hcell : ∀ k, (s.aim h (some d)).cell k = s.cell k := fun k => by
        rw [cell_aim hc]
        split_ifs with hk
        · rw [hk, hc]
        · rfl
      refine iff_of_true (fun k n hk _ => ?_) (.inl (hd.trans hc.symm))
      have hn : s.Referred n := hs k n (by rwa [target, hcell] at hk) id
      exact hn.mono rfl (fun j e hj => ⟨j, (hcell j).trans hj⟩) fun _ _ _ => rfl
    · have hother : other ≠ h := by
        rintro rfl
        exact hdc (Option.some.inj (hd.symm.trans hc))
      refine (good_aim_iff hs hc (by simpa using hdc) ?_).trans ?_
      · rintro _ ⟨⟩
        exact ⟨other, hother, hd⟩
      · simp [Keeps, hc, hd, hdc]
  | assignNode h n =>
    obtain ⟨c, hc, hstep⟩ := Option.bind_eq_some_iff.mp hstep
    obtain ⟨s₁, hclear, hstep⟩ := Option.bind_eq_some_iff.mp hstep
    obtain ⟨m, hm, rfl⟩ := Option.map_eq_some_iff.mp hclear
    obtain ⟨m', hm', rfl⟩ := Option.map_eq_some_iff.mp hstep
    have hm₁ : (s.setRef m none).content c = some m := hm
    obtain rfl : n = m' := by simpa [content_store hm₁] using hm'
    have hc₁ : ((s.setRef m none).store c (some n)).cell h = some c := hc
    refine (good_setRef_iff hc₁ hm').trans ?_
    refine (goodBut_clear_store_iff hs hc hm fun p hp hne => ?_).trans ?_
    · exact absurd (Option.some.inj hp).symm hne
    · refine Iff.trans ?_ (forall_held_iff hc hm).symm
      by_cases hmn : m = n
      · simp [hmn]
      · simp [hmn, Ne.symm hmn]
  | replace h other =>
    obtain ⟨c, hc, hstep⟩ := Option.bind_eq_some_iff.mp hstep
    obtain ⟨c', hc', hstep⟩ := Option.bind_eq_some_iff.mp hstep
    obtain ⟨s₁, hclear, rfl⟩ := Option.map_eq_some_iff.mp hstep
    obtain ⟨m, hm, rfl⟩ := Option.map_eq_some_iff.mp hclear
    refine (goodBut_clear_store_iff hs hc hm fun p hp _ => hcontent other c' hc' p hp).trans ?_
    refine Iff.trans ?_ (forall_held_iff hc hm).symm
    simp [target, hc']
  | destroy h =>
    obtain ⟨c, hc, rfl⟩ := Option.map_eq_some_iff.mp hstep
    exact good_aim_iff hs hc (by simp) (by rintro _ ⟨⟩)

theorem run_cons (s : Heap) (op : Op) (ops : List Op) :
    s.run (op :: ops) = (s.step op).bind fun s' => s'.run ops := rfl

theorem good_run_iff (ha : s.Allocated) (hs : s.Good) (ops : List Op) :
    (∀ before, before <+: ops → ∀ s', s.run before = some s' → s'.Good) ↔ s.Meets ops := by
  induction ops generalizing s with
  | nil =>
    refine iff_of_true (fun before hbefore s' hrun => ?_) trivial
    rw [List.prefix_nil.mp hbefore] at hrun
    cases hrun
    exact hs
  | cons op ops ih =>
    constructor
    · intro hall s' hstep
      have hs' : s'.Good := hall [op] (by simp) s' (by rw [run_cons, hstep]; rfl)
      refine ⟨(good_step_iff ha hs hstep).mp hs', (ih (ha.step hstep) hs').mp ?_⟩
      intro before hbefore t hrun
      refine hall (op :: before) (by simpa using hbefore) t ?_
      rwa [run_cons, hstep, Option.bind_some]
    · intro hmeets before hbefore t hrun
      cases before with
      | nil =>
        cases hrun
        exact hs
      | cons op' before =>
        obtain ⟨rfl, hrestBefore⟩ := List.cons_prefix_cons.mp hbefore
        obtain ⟨s', hstep, hrun⟩ := Option.bind_eq_some_iff.mp hrun
        obtain ⟨hkeeps, hrest⟩ := hmeets s' hstep
        have hs' := (good_step_iff ha hs hstep).mpr hkeeps
        exact (ih (ha.step hstep) hs').mpr hrest before hrestBefore t hrun

end Run

end Heap

open Heap

/-- The back references are intact after every part of a sequence of operations exactly if no
operation takes away the reference of a node that another cell holds: no handle leaves a cell as the
last one while a node that refers back to it is held elsewhere, and no replaced node is still in
use. -/
theorem back_references_intact_iff (ops : List Op) :
    (∀ before, before <+: ops → ∀ s, Heap.empty.run before = some s → s.BackReferenced) ↔
      Heap.empty.Meets ops := by
  simp only [backReferenced_iff]
  exact good_run_iff (fun _ _ h => by simp [cell, empty] at h)
    (fun _ _ h => by simp [target, cell, empty] at h) ops

/-- `IdResolver::visit(field::Unknown)`: the field `1` is created under a local handle and replaces
the field `0` of the unit. When the local handles are gone, `nodePtr` on the new field aborts. -/
theorem back_reference_lost :
    ((Heap.empty.run [.create 0, .null, .create 1, .assign 1 2, .destroy 2, .replace 0 1,
        .destroy 1]).map fun s => (s.target 0, (s.step (.nodePtr 1)).isNone)) =
      some (some 1, true) := by
  decide

end Diffingo.Spec.NodePtr
