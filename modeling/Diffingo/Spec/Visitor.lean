import Mathlib.Logic.Basic

/-!
# Visitors

The part of `Visitor` (`spec/ast/visitor.h`) that the generators share: the result of a visit, with a
stack on which `processOne` keeps the results of the visits around it, and the number of errors that
have been logged. A visit changes the visitor or ends with an exception.
-/

namespace Diffingo.Spec

/-- The severities that the generators log with. -/
inductive Severity
  | error | warning | informational
  deriving DecidableEq, Repr

/-- How a visit ends if it does not return. -/
inductive Exception
  | runtimeError | undefined | abort
  deriving DecidableEq, Repr

/-- `Visitor<Result>`: a result that has not been set is `none`. -/
structure Visitor (ρ : Type) where
  result : Option ρ := none
  default_ : Option ρ := none
  savedArgs : List (Option ρ × Option ρ) := []
  errors : Nat := 0
  deriving DecidableEq, Repr

namespace Visitor

variable {ρ : Type}

def setResult (r : ρ) (v : Visitor ρ) : Visitor ρ := { v with result := some r }

def log (s : Severity) (v : Visitor ρ) : Visitor ρ :=
  { v with errors := if s = .error then v.errors + 1 else v.errors }

def reset (v : Visitor ρ) : Visitor ρ := { v with errors := 0 }

def saveArgs (v : Visitor ρ) : Visitor ρ :=
  { v with savedArgs := (v.result, v.default_) :: v.savedArgs }

def restoreArgs (v : Visitor ρ) : Visitor ρ :=
  match v.savedArgs with
  | [] => v
  | (result, default_) :: savedArgs => { v with result, default_, savedArgs }

abbrev Visit (ρ : Type) := Visitor ρ → Except Exception (Visitor ρ)

/-- `processOneInternal` with a result. The errors that were logged have no influence on it. -/
def processOneInternal (visit : Visit ρ) (v : Visitor ρ) : Except Exception (ρ × Visitor ρ) := do
  let v ← visit { v.reset with result := none }
  match v.result.or v.default_ with
  | some r => return (r, v)
  | none => throw .abort

/-- `processOne` with a result. -/
def processOne (visit : Visit ρ) (v : Visitor ρ) : Except Exception (ρ × Visitor ρ) := do
  let (r, v) ← processOneInternal visit v.saveArgs
  return (r, v.restoreArgs)

/-! ## What a visit amounts to -/

section Outcome

variable {α β : Type} {d : ρ}

/-- If `d` is the default result, the visit sets the result, leaves it as it is or throws; nothing
else that lasts is changed. -/
def Sets (d : ρ) (visit : Visit ρ) (outcome : Except Exception (Option ρ)) : Prop :=
  ∀ v, v.default_ = some d → match outcome with
    | .error x => visit v = .error x
    | .ok r => ∃ n, visit v = .ok { v with result := r.or v.result, errors := n }

/-- If `d` is the default result, the outcome is a value that does not depend on the visitor, or an
exception. -/
def Gives (d : ρ) (process : Visitor ρ → Except Exception (α × Visitor ρ))
    (outcome : Except Exception α) : Prop :=
  ∀ v, v.default_ = some d → match outcome with
    | .error x => process v = .error x
    | .ok a => ∃ n, process v = .ok (a, { v with errors := n })

theorem Sets.processOne {visit : Visit ρ} {outcome : Except Exception (Option ρ)}
    (h : Sets d visit outcome) : Gives d (processOne visit) (outcome.map (·.getD d)) := by
  intro v hv
  have hvisit := h { v.saveArgs.reset with result := none } hv
  cases outcome with
  | error x =>
    simp only [Except.map, Visitor.processOne, processOneInternal] at hvisit ⊢
    rw [hvisit]
    rfl
  | ok r =>
    obtain ⟨n, hvisit⟩ := hvisit
    refine ⟨n, ?_⟩
    simp only [Visitor.processOne, processOneInternal]
    rw [hvisit]
    cases r <;> simp [saveArgs, reset, restoreArgs, hv, bind, Except.bind, pure, Except.pure]

theorem sets_setResult (r : ρ) : Sets d (fun v => .ok (v.setResult r)) (.ok (some r)) :=
  fun v _ => ⟨v.errors, rfl⟩

theorem gives_pure (a : α) : Gives d (fun v => .ok (a, v)) (.ok a) := fun v _ => ⟨v.errors, rfl⟩

theorem Gives.bind_error {process : Visitor ρ → Except Exception (α × Visitor ρ)} {x : Exception}
    (h : Gives d process (.error x))
    (next : α × Visitor ρ → Except Exception (β × Visitor ρ)) :
    Gives d (fun v => process v >>= next) (.error x) := by
  intro v hv
  have hprocess := h v hv
  simp only at hprocess ⊢
  rw [hprocess]
  rfl

/-- One process after the other. -/
theorem Gives.bind_ok {process : Visitor ρ → Except Exception (α × Visitor ρ)} {a : α}
    (h : Gives d process (.ok a)) (next : α → Visitor ρ → Except Exception (β × Visitor ρ))
    {outcome : Except Exception β} (hnext : Gives d (next a) outcome) :
    Gives d (fun v => process v >>= fun r => next r.1 r.2) outcome := by
  intro v hv
  obtain ⟨n, hprocess⟩ := h v hv
  have hrest := hnext { v with errors := n } hv
  cases outcome with
  | error x =>
    simp only [hprocess]
    exact hrest
  | ok b =>
    obtain ⟨m, hrest⟩ := hrest
    refine ⟨m, ?_⟩
    simp only [hprocess]
    exact hrest

/-- A visit that ends by setting the result. -/
theorem Gives.sets {process : Visitor ρ → Except Exception (α × Visitor ρ)}
    {outcome : Except Exception α} (h : Gives d process outcome) (r : α → ρ) :
    Sets d (fun v => process v >>= fun x => .ok (x.2.setResult (r x.1)))
      (outcome.map fun a => some (r a)) := by
  intro v hv
  have hprocess := h v hv
  cases outcome with
  | error x =>
    simp only [Except.map] at hprocess ⊢
    rw [hprocess]
    rfl
  | ok a =>
    obtain ⟨n, hprocess⟩ := hprocess
    refine ⟨n, ?_⟩
    simp only [hprocess]
    rfl

end Outcome

end Visitor

end Diffingo.Spec
