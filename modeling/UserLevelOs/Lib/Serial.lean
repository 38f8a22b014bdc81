import Mathlib.Data.List.Basic

/-!
# Calls made in steps and calls made at once

A call that is made in steps, each of which may fail, has at each point a rest: what is left to
do, as one function of the state.  A step leaves the rest of what was left, so a call made in
steps does what the call does at once.

## Main definitions

* `Stepwise` — a step function with its rests.
* `Serial` — calls made at once, one after the other.

## Main statements

* `Stepwise.rest_next`, `Stepwise.rest_last` — a step keeps the rest.
* `Serial.invariant`.
-/

namespace UserLevelOs.Lib

/-- The step function on the points of a call, which gives the next point or the result, and what
is left to do at a point. -/
structure Stepwise (σ P R : Type*) where
  step : P → σ → Option ((P ⊕ R) × σ)
  rest : P → σ → Option (R × σ)
  rest_eq : ∀ p s, rest p s =
    (step p s).bind fun x => x.1.elim (fun p' => rest p' x.2) fun r => some (r, x.2)

namespace Stepwise

variable {σ P R : Type*} (S : Stepwise σ P R) {p p' : P} {r : R} {s s' : σ}

theorem rest_next (h : S.step p s = some (.inl p', s')) : S.rest p s = S.rest p' s' := by
  rw [S.rest_eq, h]
  rfl

theorem rest_last (h : S.step p s = some (.inr r, s')) : S.rest p s = some (r, s') := by
  rw [S.rest_eq, h]
  rfl

end Stepwise

variable {ι κ R σ : Type*} {exec : σ → κ → Option (R × σ)} {ok ok' : σ → κ → Prop} {init s : σ}
  {log : List (ι × κ × R)}

/-- The state after the calls of the log, each made at once and under its condition, if they gave
the results of the log. -/
inductive Serial (exec : σ → κ → Option (R × σ)) (ok : σ → κ → Prop) (init : σ) :
    List (ι × κ × R) → σ → Prop
  | start : Serial exec ok init [] init
  | call {log : List (ι × κ × R)} {s s' : σ} {i : ι} {c : κ} {r : R}
    (h : Serial exec ok init log s) (hok : ok s c) (hexec : exec s c = some (r, s')) :
    Serial exec ok init (log ++ [(i, c, r)]) s'

theorem Serial.invariant {I : σ → Prop} (h : Serial exec ok init log s) (hinit : I init)
    (hkeep : ∀ s c r s', I s → ok s c → exec s c = some (r, s') → I s') : I s := by
  induction h with
  | start => exact hinit
  | call _ hok hexec ih => exact hkeep _ _ _ _ ih hok hexec

end UserLevelOs.Lib
