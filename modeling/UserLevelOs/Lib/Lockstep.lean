import Mathlib.Logic.Basic

/-!
# Two computations side by side

A computation that may fail gives a value and a new state.  Two of them go in lockstep, up to
a relation between the states, when they fail together or end with the same value in related
states.  A program made of such pairs is such a pair again.

## Main definitions

* `Lockstep`.

## Main statements

* `Lockstep.bind`, `Lockstep.map` — sequencing.
-/

namespace UserLevelOs.Lib

variable {α β σ : Type*} {R : σ → σ → Prop}

inductive Lockstep (R : σ → σ → Prop) : Option (α × σ) → Option (α × σ) → Prop
  | failed : Lockstep R none none
  | done {a : α} {s t : σ} (h : R s t) : Lockstep R (some (a, s)) (some (a, t))

namespace Lockstep

variable {x y : Option (α × σ)}

theorem bind {f g : α × σ → Option (β × σ)} (h : Lockstep R x y)
    (hfg : ∀ a s t, R s t → Lockstep R (f (a, s)) (g (a, t))) :
    Lockstep R (x.bind f) (y.bind g) := by
  cases h with
  | failed => exact .failed
  | done h => exact hfg _ _ _ h

theorem map {f : α → β} (h : Lockstep R x y) :
    Lockstep R (x.map fun p => (f p.1, p.2)) (y.map fun p => (f p.1, p.2)) := by
  cases h with
  | failed => exact .failed
  | done h => exact .done h

theorem ite {c : Prop} [Decidable c] {x' y' : Option (α × σ)} (h : Lockstep R x y)
    (h' : Lockstep R x' y') : Lockstep R (if c then x else x') (if c then y else y') := by
  split
  · exact h
  · exact h'

/-- One side has ended. -/
theorem of_some {a : α} {s : σ} (h : Lockstep R x y) (hx : x = some (a, s)) :
    ∃ t, y = some (a, t) ∧ R s t := by
  cases h with
  | failed => cases hx
  | done h =>
    cases hx
    exact ⟨_, rfl, h⟩

/-- What both sides show of their states is the same. -/
theorem map_eq {f : σ → β} (h : Lockstep R x y) (hf : ∀ s t, R s t → f s = f t) :
    x.map (fun p => (p.1, f p.2)) = y.map fun p => (p.1, f p.2) := by
  cases h with
  | failed => rfl
  | done h => rw [Option.map_some, Option.map_some, hf _ _ h]

end Lockstep

end UserLevelOs.Lib
