import Mathlib.Data.List.Basic
import Mathlib.Tactic.SplitIfs

/-!
# Splitting and joining strings

`strsplit` and `strjoin` on strings over any type of characters. The loop of `strsplit` need not
end: it runs forever on an empty delimiter, which has a length of fuel end it without a result.
-/

namespace Diffingo.Util

variable {α : Type*}

/-- `std::string::find`: where the leftmost occurrence of `delim` starts. -/
def find [DecidableEq α] (delim : List α) : List α → Option Nat
  | [] => if delim = [] then some 0 else none
  | c :: s => if delim.isPrefixOf (c :: s) then some 0 else (find delim s).map (· + 1)

/-- The loop of `strsplit` with the components `l` found so far and the rest `s` of the string. -/
def splitLoop [DecidableEq α] (delim : List α) : Nat → List (List α) → List α →
    Option (List (List α))
  | 0, _, _ => none
  | fuel + 1, l, s =>
    match find delim s with
    | none => some (l ++ [s])
    | some p => splitLoop delim fuel (l ++ [s.take p]) (s.drop (p + delim.length))

/-- Each iteration takes a delimiter off the string, so that its length bounds their number. -/
def strsplit [DecidableEq α] (s delim : List α) : Option (List (List α)) :=
  splitLoop delim (s.length + 1) [] s

/-- The loop of `strjoin`: the result so far, and whether the component is the first one. -/
def joinStep (delim : List α) (state : List α × Bool) (c : List α) : List α × Bool :=
  let result := if state.2 then state.1 else state.1 ++ delim
  (result ++ c, false)

def strjoin (l : List (List α)) (delim : List α) : List α := (l.foldl (joinStep delim) ([], true)).1

section Join

variable (delim : List α)

theorem foldl_joinStep (l : List (List α)) (result : List α) :
    (l.foldl (joinStep delim) (result, false)).1 = result ++ l.flatMap (delim ++ ·) := by
  induction l generalizing result with
  | nil => simp
  | cons c l ih => simp [joinStep, ih]

theorem strjoin_cons (c : List α) (l : List (List α)) :
    strjoin (c :: l) delim = c ++ l.flatMap (delim ++ ·) := by
  simp [strjoin, joinStep, foldl_joinStep]

theorem strjoin_cons_of_ne_nil (c : List α) {l : List (List α)} (hl : l ≠ []) :
    strjoin (c :: l) delim = c ++ delim ++ strjoin l delim := by
  obtain ⟨c', l, rfl⟩ := List.exists_cons_of_ne_nil hl
  simp [strjoin_cons]

theorem strjoin_concat {l : List (List α)} (hl : l ≠ []) (c : List α) :
    strjoin (l ++ [c]) delim = strjoin l delim ++ delim ++ c := by
  obtain ⟨c', l, rfl⟩ := List.exists_cons_of_ne_nil hl
  simp [strjoin_cons]

theorem strjoin_eq_intercalate (l : List (List α)) : strjoin l delim = delim.intercalate l := by
  induction l with
  | nil => rfl
  | cons c l ih =>
    cases l with
    | nil => simp [strjoin_cons]
    | cons c' l =>
      rw [strjoin_cons_of_ne_nil delim c (List.cons_ne_nil c' l), ih, List.intercalate_cons_cons]

end Join

section Split

variable [DecidableEq α]

theorem find_some {delim s : List α} {p : Nat} (h : find delim s = some p) :
    ∃ t rest, s = t ++ delim ++ rest ∧ t.length = p := by
  induction s generalizing p with
  | nil =>
    simp only [find] at h
    split_ifs at h with hd
    exact ⟨[], [], by simp [hd], by simpa using h⟩
  | cons c s ih =>
    simp only [find] at h
    split_ifs at h with hd
    · obtain ⟨rest, hrest⟩ := List.isPrefixOf_iff_prefix.1 hd
      exact ⟨[], rest, by simp [hrest], by simpa using h⟩
    · obtain ⟨q, hq, rfl⟩ := Option.map_eq_some_iff.1 h
      obtain ⟨t, rest, rfl, rfl⟩ := ih hq
      exact ⟨c :: t, rest, by simp, by simp⟩

theorem splitLoop_of_find {delim t rest : List α}
    (h : find delim (t ++ delim ++ rest) = some t.length) (fuel : Nat) (l : List (List α)) :
    splitLoop delim (fuel + 1) l (t ++ delim ++ rest) = splitLoop delim fuel (l ++ [t]) rest := by
  simp only [splitLoop, h]
  simp

/-- One iteration ends the loop, or takes a component and a delimiter off the string. -/
theorem splitLoop_succ (delim : List α) (fuel : Nat) (l : List (List α)) (s : List α) :
    splitLoop delim (fuel + 1) l s = some (l ++ [s]) ∨
      ∃ t rest, s = t ++ delim ++ rest ∧
        splitLoop delim (fuel + 1) l s = splitLoop delim fuel (l ++ [t]) rest := by
  cases h : find delim s with
  | none => exact .inl (by simp [splitLoop, h])
  | some p =>
    obtain ⟨t, rest, rfl, rfl⟩ := find_some h
    exact .inr ⟨t, rest, rfl, splitLoop_of_find h fuel l⟩

theorem splitLoop_join {delim : List α} (hdelim : delim ≠ []) {fuel : Nat} (l : List (List α))
    {s : List α} (hfuel : s.length < fuel) :
    ∃ l', splitLoop delim fuel l s = some (l ++ l') ∧ l' ≠ [] ∧ strjoin l' delim = s := by
  induction fuel generalizing l s with
  | zero => exact absurd hfuel (Nat.not_lt_zero _)
  | succ fuel ih =>
    obtain h | ⟨t, rest, rfl, h⟩ := splitLoop_succ delim fuel l s
    · exact ⟨[s], h, List.cons_ne_nil s [], by simp [strjoin_cons]⟩
    · have hpos := List.length_pos_of_ne_nil hdelim
      have hrest : rest.length < fuel := by
        simp only [List.length_append] at hfuel
        omega
      obtain ⟨l', hl', hne, hjoin⟩ := ih (l ++ [t]) hrest
      refine ⟨t :: l', ?_, List.cons_ne_nil t l', ?_⟩
      · rw [h, hl']
        simp
      · rw [strjoin_cons_of_ne_nil delim t hne, hjoin]

/-- The loop of `strsplit` ends on every string, and joining its components gives the string. -/
theorem strjoin_strsplit {delim : List α} (hdelim : delim ≠ []) (s : List α) :
    ∃ l, strsplit s delim = some l ∧ strjoin l delim = s := by
  obtain ⟨l, hl, -, hjoin⟩ := splitLoop_join hdelim [] (Nat.lt_succ_self s.length)
  exact ⟨l, by simpa [strsplit] using hl, hjoin⟩

variable {d : α} (ds : List α)

/-- No occurrence of a delimiter starts in a string without its first character. -/
theorem find_append {t : List α} (ht : d ∉ t) (s : List α) :
    find (d :: ds) (t ++ s) = (find (d :: ds) s).map (· + t.length) := by
  induction t with
  | nil => simp
  | cons c t ih =>
    obtain ⟨hc, ht⟩ := not_or.1 (List.mem_cons.not.1 ht)
    have hd : (d :: ds).isPrefixOf (c :: (t ++ s)) = false := by simp [List.isPrefixOf, hc]
    simp [find, hd, ih ht, Function.comp_def, Nat.add_assoc]

theorem find_delim (rest : List α) : find (d :: ds) (d :: ds ++ rest) = some 0 := by
  have hd : (d :: ds).isPrefixOf (d :: (ds ++ rest)) = true :=
    List.isPrefixOf_iff_prefix.2 (List.prefix_append (d :: ds) rest)
  simp [find, hd]

theorem splitLoop_strjoin {l' : List (List α)} (hl' : l' ≠ []) (hd : ∀ t ∈ l', d ∉ t) {fuel : Nat}
    (hfuel : (strjoin l' (d :: ds)).length < fuel) (l : List (List α)) :
    splitLoop (d :: ds) fuel l (strjoin l' (d :: ds)) = some (l ++ l') := by
  induction l' generalizing fuel l with
  | nil => exact absurd rfl hl'
  | cons t l' ih =>
    obtain ⟨fuel, rfl⟩ := Nat.exists_eq_add_one_of_ne_zero (Nat.ne_zero_of_lt hfuel)
    have ht := hd t List.mem_cons_self
    by_cases hnil : l' = []
    · have hfind : find (d :: ds) t = none := by simpa [find] using find_append ds ht []
      simp [hnil, strjoin_cons, splitLoop, hfind]
    · rw [strjoin_cons_of_ne_nil _ t hnil] at hfuel ⊢
      have hfind : find (d :: ds) (t ++ (d :: ds) ++ strjoin l' (d :: ds)) = some t.length := by
        rw [List.append_assoc, find_append ds ht, find_delim]
        simp
      have hrest : (strjoin l' (d :: ds)).length < fuel := by
        simp only [List.length_append, List.length_cons] at hfuel
        omega
      have hmem : ∀ t ∈ l', d ∉ t := fun t ht => hd t (List.mem_cons_of_mem _ ht)
      rw [splitLoop_of_find hfind, ih hnil hmem hrest]
      simp

/-- Splitting a joined list gives the list back where no component has the delimiter's first
character in it. -/
theorem strsplit_strjoin {l : List (List α)} (hl : l ≠ []) (hd : ∀ t ∈ l, d ∉ t) :
    strsplit (strjoin l (d :: ds)) (d :: ds) = some l := by
  simpa [strsplit] using splitLoop_strjoin ds hl hd (Nat.lt_succ_self _) []

end Split

end Diffingo.Util
