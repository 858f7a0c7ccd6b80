import Mathlib.Data.List.Chain
import Mathlib.Tactic.Cases

/-!
# Grouping the elements of a list

A list is processed from left to right with a buffer. An element is passed on, dropped or held back;
an element that cuts closes the buffer first. When the buffer is closed, the elements it holds become
entries: each maximal run of known ones is one range, the others stand alone.

The result is a rearrangement of the list in which the elements that are held back or cut keep their
order, and so do those that are emitted at once.
-/

namespace Grouping

variable {α : Type*}

/-- What is done with an element. -/
inductive Action
  | cut | pass | hold | drop
  deriving DecidableEq

/-- An entry of the result: an element alone or a range of elements. -/
inductive Entry (α : Type*)
  | single (a : α)
  | range (as : List α)

namespace Entry

def elems : Entry α → List α
  | .single a => [a]
  | .range as => as

def isRange : Entry α → Bool
  | .single _ => false
  | .range _ => true

end Entry

/-- The elements of the entries, one after the other. -/
def contents (entries : List (Entry α)) : List α := entries.flatMap Entry.elems

@[simp, grind =] theorem contents_nil : contents ([] : List (Entry α)) = [] := rfl

@[simp, grind =] theorem contents_cons (e : Entry α) (es : List (Entry α)) :
    contents (e :: es) = e.elems ++ contents es := rfl

@[simp, grind =] theorem contents_append (es es' : List (Entry α)) :
    contents (es ++ es') = contents es ++ contents es' := List.flatMap_append

/-- The current range as an entry. -/
@[grind] def close : List α → List (Entry α)
  | [] => []
  | a :: as => [.range (a :: as)]

/-- The entries of the elements that are held; `run` is the current range. -/
@[grind] def flush (known : α → Bool) : List α → List α → List (Entry α)
  | run, [] => close run
  | run, a :: rest =>
    if known a then flush known (run ++ [a]) rest
    else close run ++ .single a :: flush known [] rest

/-- The entries so far and the elements that are held. -/
structure Buffer (α : Type*) where
  out : List (Entry α) := []
  held : List α := []

section Group

variable (action : α → Action) (known : α → Bool)

@[grind] def step (b : Buffer α) (a : α) : Buffer α :=
  match action a with
  | .cut => ⟨b.out ++ flush known [] b.held ++ [.single a], []⟩
  | .pass => ⟨b.out ++ [.single a], b.held⟩
  | .hold => ⟨b.out, b.held ++ [a]⟩
  | .drop => b

def finish (b : Buffer α) : List (Entry α) := b.out ++ flush known [] b.held

def group (items : List α) : List (Entry α) := finish known (items.foldl (step action known) {})

end Group

/-! ## Closing the buffer -/

section Flush

variable {known : α → Bool}

@[simp, grind =] theorem contents_close (run : List α) : contents (close run) = run := by
  cases run <;> simp [close, Entry.elems]

@[simp, grind =] theorem contents_flush (run held : List α) :
    contents (flush known run held) = run ++ held := by
  fun_induction flush known run held <;> simp_all [Entry.elems]

/-- The ranges of a closed buffer hold known elements, and those that stand alone are unknown. -/
theorem mem_flush {run held : List α} (hrun : ∀ a ∈ run, known a = true) {e : Entry α}
    (h : e ∈ flush known run held) :
    (∃ as, e = .range as ∧ as ≠ [] ∧ ∀ a ∈ as, a ∈ run ++ held ∧ known a = true) ∨
      ∃ a ∈ held, e = .single a ∧ known a = false := by
  have hclose : ∀ {run : List α}, e ∈ close run → e = .range run ∧ run ≠ [] := by
    intro run h
    cases run with
    | nil => cases h
    | cons a as => exact ⟨List.mem_singleton.mp h, by simp⟩
  fun_induction flush known run held with
  | case1 run =>
    obtain ⟨rfl, hne⟩ := hclose h
    exact .inl ⟨run, rfl, hne, fun a ha => ⟨by simp [ha], hrun a ha⟩⟩
  | case2 run a rest ha ih =>
    have hrun' : ∀ b ∈ run ++ [a], known b = true := by grind
    rcases ih hrun' h with ⟨as, rfl, hne, hmem⟩ | ⟨b, hb, rfl, hno⟩
    · exact .inl ⟨as, rfl, hne, fun b hb => by grind⟩
    · exact .inr ⟨b, by simp [hb], rfl, hno⟩
  | case3 run a rest ha ih =>
    rcases List.mem_append.mp h with h | h
    · obtain ⟨rfl, hne⟩ := hclose h
      exact .inl ⟨run, rfl, hne, fun b hb => ⟨by simp [hb], hrun b hb⟩⟩
    · rcases List.mem_cons.mp h with rfl | h
      · exact .inr ⟨a, by simp, rfl, by simpa using ha⟩
      · rcases ih (by simp) h with ⟨as, rfl, hne, hmem⟩ | ⟨b, hb, rfl, hno⟩
        · exact .inl ⟨as, rfl, hne, fun b hb => by grind⟩
        · exact .inr ⟨b, by simp [hb], rfl, hno⟩

/-- No two ranges stand next to each other. -/
def Apart (es : List (Entry α)) : Prop :=
  es.IsChain fun e e' => ¬ (e.isRange = true ∧ e'.isRange = true)

theorem Apart.cons_single {es : List (Entry α)} (h : Apart es) (a : α) :
    Apart (.single a :: es) := by
  cases es with
  | nil => exact .singleton _
  | cons e es => exact .cons_cons (by simp [Entry.isRange]) h

theorem Apart.concat_single {es : List (Entry α)} (h : Apart es) (a : α) :
    Apart (es ++ [.single a]) := by
  refine List.isChain_append.mpr ⟨h, .singleton _, fun e _ e' he' hranges => ?_⟩
  cases (show some (Entry.single a) = some e' from he')
  simp [Entry.isRange] at hranges

theorem apart_close (run : List α) : Apart (close run) := by
  cases run with
  | nil => exact .nil
  | cons a as => exact .singleton _

theorem Apart.append {es es' : List (Entry α)} (h : Apart es) (h' : Apart es')
    (hlast : ∀ e ∈ es.getLast?, e.isRange = false) : Apart (es ++ es') := by
  refine List.isChain_append.mpr ⟨h, h', fun e he e' _ hranges => ?_⟩
  simp [hlast e he] at hranges

theorem apart_flush (run held : List α) : Apart (flush known run held) := by
  fun_induction flush known run held with
  | case1 run => exact apart_close run
  | case2 run a rest ha ih => exact ih
  | case3 run a rest ha ih =>
    refine List.isChain_append.mpr ⟨apart_close run, ih.cons_single a, fun e _ e' he' hranges => ?_⟩
    cases (show some (Entry.single a) = some e' from he')
    simp [Entry.isRange] at hranges

end Flush

/-! ## The result -/

section Result

variable {action : α → Action} {known : α → Bool}

/-- An entry that was not passed on while elements were held. -/
def placed (action : α → Action) : Entry α → Bool
  | .single a => action a ≠ .pass
  | .range _ => true

/-- The entries have to do with the items: the elements that are held back or cut are in order, and
so are those that are emitted at once; nothing is dropped that should not be; the ranges are as
large as possible. -/
structure Groups (action : α → Action) (known : α → Bool) (items : List α)
    (entries : List (Entry α)) (held : List α) : Prop where
  ordered : (contents entries ++ held).filter (fun a => action a = .cut ∨ action a = .hold) =
    items.filter fun a => action a = .cut ∨ action a = .hold
  emitted : (contents entries).filter (fun a => action a = .cut ∨ action a = .pass) =
    items.filter fun a => action a = .cut ∨ action a = .pass
  kept : ∀ a ∈ contents entries, action a ≠ .drop
  range : ∀ as, .range as ∈ entries → as ≠ [] ∧ ∀ a ∈ as, action a = .hold ∧ known a = true
  single : ∀ a, .single a ∈ entries → action a = .hold → known a = false
  apart : Apart (entries.filter (placed action))

/-- What holds while the list is processed. -/
structure Inv (action : α → Action) (known : α → Bool) (items : List α) (b : Buffer α) : Prop
    extends Groups action known items b.out b.held where
  held : ∀ a ∈ b.held, action a = .hold
  last : ∀ e ∈ (b.out.filter (placed action)).getLast?, e.isRange = false

/-- The buffer can be closed at any time. -/
theorem Inv.close {items : List α} {b : Buffer α} (h : Inv action known items b) :
    Groups action known items (b.out ++ flush known [] b.held) [] := by
  have hheld := h.held
  have hmem : ∀ e ∈ flush known [] b.held,
      (∃ as, e = .range as ∧ as ≠ [] ∧ ∀ a ∈ as, a ∈ b.held ∧ known a = true) ∨
        ∃ a ∈ b.held, e = .single a ∧ known a = false := fun e he => by
    have hnil : ∀ a ∈ ([] : List α), known a = true := by simp
    simpa using mem_flush hnil he
  have hplaced : (flush known [] b.held).filter (placed action) = flush known [] b.held := by
    refine List.filter_eq_self.mpr fun e he => ?_
    rcases hmem e he with ⟨as, rfl, -⟩ | ⟨a, ha, rfl, -⟩
    · rfl
    · simp [placed, hheld a ha]
  constructor
  · rw [← h.ordered]
    simp
  · rw [← h.emitted]
    have hnone : b.held.filter (fun a => action a = .cut ∨ action a = .pass) = [] := by
      refine List.filter_eq_nil_iff.mpr fun a ha => ?_
      simp [hheld a ha]
    rw [contents_append, List.filter_append, contents_flush, List.nil_append, hnone,
      List.append_nil]
  · intro a ha
    rcases List.mem_append.mp (by simpa using ha) with ha | ha
    · exact h.kept a ha
    · simp [hheld a ha]
  · intro as has
    rcases List.mem_append.mp has with has | has
    · exact h.range as has
    · rcases hmem _ has with ⟨as', heq, hne, hall⟩ | ⟨a, -, heq, -⟩
      · cases heq
        exact ⟨hne, fun a ha => ⟨hheld a (hall a ha).1, (hall a ha).2⟩⟩
      · cases heq
  · intro a ha hact
    rcases List.mem_append.mp ha with ha | ha
    · exact h.single a ha hact
    · rcases hmem _ ha with ⟨as', heq, -⟩ | ⟨a', -, heq, hno⟩
      · cases heq
      · cases heq
        exact hno
  · rw [List.filter_append, hplaced]
    exact h.apart.append (apart_flush [] b.held) h.last

/-- An element is emitted. Elements that are held come after it in the list of entries but before it
in the items, so it must not be a cut then. -/
theorem Groups.emit {items held : List α} {es : List (Entry α)}
    (h : Groups action known items es held) {a : α}
    (ha : action a = .cut ∧ held = [] ∨ action a = .pass) :
    Groups action known (items ++ [a]) (es ++ [.single a]) held := by
  have hcontents : contents (es ++ [.single a]) = contents es ++ [a] := by simp [Entry.elems]
  refine ⟨?_, ?_, fun b hb => ?_, fun as has => ?_, fun b hb hact => ?_, ?_⟩
  · have hitems := List.filter_append (p := fun a => action a = .cut ∨ action a = .hold) items [a]
    rw [hcontents, hitems, ← h.ordered]
    rcases ha with ⟨hcut, rfl⟩ | hpass
    · simp
    · simp [hpass]
  · rw [hcontents, List.filter_append, List.filter_append, h.emitted]
  · rw [hcontents] at hb
    rcases List.mem_append.mp hb with hb | hb
    · exact h.kept b hb
    · obtain rfl := List.mem_singleton.mp hb
      rcases ha with ⟨hcut, -⟩ | hpass <;> simp [*]
  · exact h.range as (by simpa using has)
  · rcases List.mem_append.mp hb with hb | hb
    · exact h.single b hb hact
    · cases List.mem_singleton.mp hb
      rcases ha with ⟨hcut, -⟩ | hpass <;> simp_all
  · rcases ha with ⟨hcut, -⟩ | hpass
    · rw [List.filter_append, show [Entry.single a].filter (placed action) = [.single a] by
        simp [placed, hcut]]
      exact h.apart.concat_single a
    · simpa [placed, hpass] using h.apart

/-- An element that is held back or dropped. -/
theorem Groups.skip {items held : List α} {es : List (Entry α)}
    (h : Groups action known items es held) {a : α} {held' : List α}
    (ha : action a = .hold ∧ held' = held ++ [a] ∨ action a = .drop ∧ held' = held) :
    Groups action known (items ++ [a]) es held' := by
  refine ⟨?_, ?_, h.kept, h.range, h.single, h.apart⟩
  · have hitems := List.filter_append (p := fun a => action a = .cut ∨ action a = .hold) items [a]
    rw [hitems, ← h.ordered]
    rcases ha with ⟨hact, rfl⟩ | ⟨hact, rfl⟩ <;> simp [hact]
  · rw [List.filter_append, h.emitted]
    rcases ha with ⟨hact, -⟩ | ⟨hact, -⟩ <;> simp [hact]

theorem Inv.step {items : List α} {b : Buffer α} (h : Inv action known items b) (a : α) :
    Inv action known (items ++ [a]) (step action known b a) := by
  unfold Grouping.step
  cases hact : action a with
  | cut =>
    refine ⟨h.close.emit (.inl ⟨hact, rfl⟩), by simp, fun e he => ?_⟩
    have hlast : (((b.out ++ flush known [] b.held) ++ [Entry.single a]).filter
        (placed action)).getLast? = some (.single a) := by
      rw [List.filter_append, show [Entry.single a].filter (placed action) = [.single a] by
        simp [placed, hact]]
      simp
    rw [hlast] at he
    cases he
    rfl
  | pass =>
    refine ⟨h.toGroups.emit (.inr hact), h.held, ?_⟩
    simpa [placed, hact] using h.last
  | hold =>
    refine ⟨h.toGroups.skip (.inl ⟨hact, rfl⟩), ?_, h.last⟩
    simpa [or_imp, forall_and, hact] using h.held
  | drop => exact ⟨h.toGroups.skip (.inr ⟨hact, rfl⟩), h.held, h.last⟩

theorem Inv.foldl {items : List α} {b : Buffer α} (h : Inv action known items b) (rest : List α) :
    Inv action known (items ++ rest) (rest.foldl (Grouping.step action known) b) := by
  induction rest generalizing items b with
  | nil => simpa using h
  | cons a rest ih => simpa using ih (h.step a)

theorem groups_group (action : α → Action) (known : α → Bool) (items : List α) :
    Groups action known items (group action known items) [] := by
  have hstart : Inv action known [] ({} : Buffer α) := by
    refine ⟨⟨rfl, rfl, ?_, ?_, ?_, .nil⟩, ?_, ?_⟩ <;> simp
  simpa [group, finish] using (hstart.foldl items).close

namespace Groups

variable {items : List α} {entries : List (Entry α)} {a : α}

theorem mem_contents (h : Groups action known items entries []) :
    a ∈ contents entries ↔ a ∈ items ∧ action a ≠ .drop := by
  have hordered := congrArg (a ∈ ·) h.ordered
  have hemitted := congrArg (a ∈ ·) h.emitted
  have hkept := h.kept a
  simp only [List.append_nil, List.mem_filter, decide_eq_true_eq] at hordered hemitted
  cases hact : action a <;> simp_all

/-- The elements that stand alone. -/
theorem mem_single (h : Groups action known items entries []) : .single a ∈ entries ↔
    a ∈ items ∧ action a ≠ .drop ∧ (action a = .hold → known a = false) := by
  constructor
  · intro ha
    have hmem : a ∈ contents entries := List.mem_flatMap.mpr ⟨_, ha, by simp [Entry.elems]⟩
    obtain ⟨hitems, hdrop⟩ := h.mem_contents.mp hmem
    exact ⟨hitems, hdrop, h.single a ha⟩
  · rintro ⟨hitems, hdrop, hunknown⟩
    obtain ⟨e, he, ha⟩ := List.mem_flatMap.mp (h.mem_contents.mpr ⟨hitems, hdrop⟩)
    cases e with
    | single b =>
      obtain rfl := List.mem_singleton.mp ha
      exact he
    | range as =>
      obtain ⟨hhold, hknown⟩ := (h.range as he).2 a ha
      simp [hunknown hhold] at hknown

/-- The elements of ranges. -/
theorem mem_range (h : Groups action known items entries []) :
    (∃ as, .range as ∈ entries ∧ a ∈ as) ↔ a ∈ items ∧ action a = .hold ∧ known a = true := by
  constructor
  · rintro ⟨as, has, ha⟩
    obtain ⟨hitems, -⟩ := h.mem_contents.mp (List.mem_flatMap.mpr ⟨_, has, ha⟩)
    exact ⟨hitems, (h.range as has).2 a ha⟩
  · rintro ⟨hitems, hhold, hknown⟩
    obtain ⟨e, he, ha⟩ := List.mem_flatMap.mp (h.mem_contents.mpr ⟨hitems, by simp [hhold]⟩)
    cases e with
    | single b =>
      obtain rfl := List.mem_singleton.mp ha
      simp [h.single a he hhold] at hknown
    | range as => exact ⟨as, he, ha⟩

end Groups

end Result

end Grouping
