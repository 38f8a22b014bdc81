import Mathlib.Algebra.BigOperators.Group.Finset.Basic
import Mathlib.Data.Nat.ModEq

/-!
# Work shared out by strides

`n` workers share the numbers below `size` between them: worker `w` starts at `w` and goes on in
steps of `n`, so that between them they visit each number once.

## Main definitions

* `stride` — what a worker has visited when it stands at a number.

## Main statements

* `stride_step`, `stride_succ` — the next number.
* `exists_mem_stride` — at the end each number has been visited.
-/

namespace UserLevelOs.Lib

open Finset

/-- The numbers below `size` that worker `w` of `n` has visited when it stands at `j`. -/
def stride (n w size j : ℕ) : Finset ℕ := (range size).filter fun k => k % n = w ∧ k < j

variable {n w size j k : ℕ}

@[simp] theorem mem_stride : k ∈ stride n w size j ↔ k < size ∧ k % n = w ∧ k < j := by
  simp [stride]

/-- Below its first number there is none of the worker's. -/
theorem stride_of_le (hw : w < n) (hj : j ≤ w) : stride n w size j = ∅ := by
  ext k
  simp only [mem_stride, notMem_empty, iff_false, not_and, not_lt]
  intro _ hk
  by_contra hlt
  rw [Nat.mod_eq_of_lt (by omega)] at hk
  omega

/-- Numbers of one worker are `n` apart. -/
theorem add_le_of_mod_eq (hj : j % n = w) (hk : k % n = w) (hlt : j < k) : j + n ≤ k := by
  have hmod : j ≡ k [MOD n] := hj.trans hk.symm
  have hdvd : n ∣ k - j := (Nat.modEq_iff_dvd' hlt.le).mp hmod
  have hle : n ≤ k - j := Nat.le_of_dvd (by omega) hdvd
  omega

/-- There is nothing of the worker's between a number of its own and the next one. -/
theorem stride_step (hn : 0 < n) (hj : j % n = w) :
    stride n w size (j + n) = stride n w size (j + 1) := by
  ext k
  simp only [mem_stride]
  refine and_congr_right fun _ => and_congr_right fun hk => ⟨fun hlt => ?_, fun hlt => by omega⟩
  by_contra hle
  have := add_le_of_mod_eq hj hk (by omega)
  omega

theorem stride_succ (hj : j % n = w) (hlt : j < size) :
    stride n w size (j + 1) = insert j (stride n w size j) := by
  ext k
  simp only [mem_stride, mem_insert]
  constructor
  · rintro ⟨hk, hmod, hle⟩
    rcases Nat.lt_succ_iff_lt_or_eq.mp hle with hlt' | rfl
    · exact .inr ⟨hk, hmod, hlt'⟩
    · exact .inl rfl
  · rintro (rfl | ⟨hk, hmod, hlt'⟩)
    · exact ⟨hlt, hj, Nat.lt_succ_self _⟩
    · exact ⟨hk, hmod, Nat.lt_succ_of_lt hlt'⟩

/-- Past the end everything has been visited. -/
theorem stride_of_size_le (hj : size ≤ j) :
    stride n w size j = (range size).filter fun k => k % n = w := by
  ext k
  simp only [mem_stride, mem_filter, mem_range]
  exact and_congr_right fun hk => and_iff_left (by omega)

/-- At the end each number has been visited by one of the workers. -/
theorem exists_mem_stride (hn : 0 < n) : (∃ w < n, k ∈ stride n w size size) ↔ k < size := by
  constructor
  · rintro ⟨w, -, hk⟩
    exact (mem_stride.mp hk).1
  · intro hk
    exact ⟨k % n, Nat.mod_lt k hn, mem_stride.mpr ⟨hk, rfl, hk⟩⟩

end UserLevelOs.Lib
