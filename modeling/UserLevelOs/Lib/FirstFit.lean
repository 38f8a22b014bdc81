import UserLevelOs.Lib.Bitmap

/-!
# First fit

An allocator that takes the lowest clear flag takes the clear flags in ascending order.  The
list of them is therefore all its state: one allocation drops the first of the list, and there
are as many as a count of the clear flags says.

## Main definitions

* `clearBelow` — the clear flags below a bound.

## Main statements

* `clearBelow_eq_cons` — taking the first of the list leaves the rest of it.
-/

namespace UserLevelOs.Lib

/-- The positions below `n` whose flag is clear, in ascending order. -/
def clearBelow (f : ℕ → Bool) (n : ℕ) : List ℕ := (List.range n).filter fun p => !f p

variable {f : ℕ → Bool} {n p : ℕ} {ps : List ℕ}

@[simp] theorem mem_clearBelow : p ∈ clearBelow f n ↔ p < n ∧ f p = false := by
  simp [clearBelow]

theorem pairwise_clearBelow (f : ℕ → Bool) (n : ℕ) : (clearBelow f n).Pairwise (· < ·) :=
  List.pairwise_lt_range.filter _

@[simp] theorem length_clearBelow (f : ℕ → Bool) (n : ℕ) :
    (clearBelow f n).length = Nat.count (fun p => f p = false) n := by
  induction n with
  | zero => simp [clearBelow]
  | succ n ih =>
    rw [clearBelow] at ih
    rw [clearBelow, List.range_succ, List.filter_append, List.length_append, ih, Nat.count_succ]
    cases h : f n <;> simp [h]

/-- Raising flag `p` takes it off the list. -/
theorem clearBelow_raise (f : ℕ → Bool) (n p : ℕ) :
    clearBelow (fun q => decide (q = p) || f q) n = (clearBelow f n).filter fun q => q ≠ p := by
  simp only [clearBelow, List.filter_filter]
  apply List.filter_congr
  intro q _
  simp

/-- The first of the clear flags is the lowest, and raising it leaves the others. -/
theorem clearBelow_eq_cons (h : clearBelow f n = p :: ps) :
    p < n ∧ f p = false ∧ (∀ q < p, f q = true) ∧
      clearBelow (fun q => decide (q = p) || f q) n = ps := by
  have hmem : p ∈ clearBelow f n := by simp [h]
  have hsorted := pairwise_clearBelow f n
  rw [h, List.pairwise_cons] at hsorted
  obtain ⟨hlt, hclear⟩ := mem_clearBelow.mp hmem
  refine ⟨hlt, hclear, ?_, ?_⟩
  · intro q hq
    by_contra hne
    have hin : q ∈ clearBelow f n := mem_clearBelow.mpr ⟨by omega, by simpa using hne⟩
    rw [h, List.mem_cons] at hin
    rcases hin with rfl | hin
    · omega
    · have := hsorted.1 q hin
      omega
  · rw [clearBelow_raise, h, List.filter_cons_of_neg (by simp), List.filter_eq_self]
    intro q hq
    have := hsorted.1 q hq
    simp only [ne_eq, decide_not, Bool.not_eq_eq_eq_not, Bool.not_true, decide_eq_false_iff_not]
    omega

end UserLevelOs.Lib
