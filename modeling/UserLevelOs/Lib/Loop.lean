import Mathlib.Logic.Basic
import Mathlib.Tactic.Common

/-!
# Counted loops that may fail

`iterate n f a` is `for (i = 0; i < n; i++)` around a body that threads a state and may fail.

## Main definitions

* `iterate n f a` — run `f 0`, `f 1`, …, `f (n - 1)`, threading an accumulator.

## Main statements

* `iterate_induction` — the loop invariant, with the body's success as part of the step.
-/

namespace UserLevelOs.Lib

variable {α : Type*}

/-- Run `f 0`, `f 1`, …, `f (n - 1)` in order, threading an accumulator. -/
def iterate : ℕ → (ℕ → α → Option α) → α → Option α
  | 0, _, a => some a
  | n + 1, f, a => do
    let a ← iterate n f a
    f n a

@[simp] theorem iterate_zero (f : ℕ → α → Option α) (a : α) : iterate 0 f a = some a := rfl

/-- **Induction along a loop.**  Where the body runs from every state the invariant allows and
re-establishes it one index further, the loop runs and leaves the invariant at `n`. -/
theorem iterate_induction {n : ℕ} {f : ℕ → α → Option α} {a : α} (P : ℕ → α → Prop) (h0 : P 0 a)
    (hstep : ∀ i < n, ∀ x, P i x → ∃ y, f i x = some y ∧ P (i + 1) y) :
    ∃ y, iterate n f a = some y ∧ P n y := by
  induction n with
  | zero => exact ⟨a, rfl, h0⟩
  | succ n ih =>
    obtain ⟨x, hx, hP⟩ := ih fun i hi => hstep i (Nat.lt_succ_of_lt hi)
    obtain ⟨y, hy, hP'⟩ := hstep n (Nat.lt_succ_self n) x hP
    refine ⟨y, ?_, hP'⟩
    rw [iterate, hx]
    exact hy

end UserLevelOs.Lib
