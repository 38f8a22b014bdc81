import Mathlib.Data.List.Basic

/-!
# Slots in rows

A list kept in rows of `n` slots, the last of them perhaps not full.  Searching the rows
one after the other is searching the slots in order, and that is searching the list.

## Main statements

* `findSome?_grid`, `filterMap_grid` — a search through rows.
* `findSome?_slots`, `filterMap_slots` — a search through the slots of a list.
-/

namespace UserLevelOs.Lib

variable {α β γ : Type*}

theorem findSome?_congr {f g : α → Option β} {l : List α} (h : ∀ a ∈ l, f a = g a) :
    l.findSome? f = l.findSome? g := by
  induction l with
  | nil => rfl
  | cons a l ih =>
    rw [List.findSome?_cons, List.findSome?_cons, h a List.mem_cons_self,
      ih fun b hb => h b (List.mem_cons_of_mem a hb)]

theorem findSome?_grid (f : ℕ → Option β) (m n : ℕ) :
    ((List.range m).findSome? fun i => (List.range n).findSome? fun j => f (n * i + j)) =
      (List.range (n * m)).findSome? f := by
  induction m with
  | zero => simp
  | succ m ih =>
    rw [List.range_succ, List.findSome?_append, ih, Nat.mul_succ, List.range_add,
      List.findSome?_append, List.findSome?_map]
    simp [Function.comp_def]

theorem filterMap_grid (f : ℕ → Option β) (m n : ℕ) :
    ((List.range m).flatMap fun i => (List.range n).filterMap fun j => f (n * i + j)) =
      (List.range (n * m)).filterMap f := by
  induction m with
  | zero => simp
  | succ m ih =>
    rw [List.range_succ, List.flatMap_append, ih, Nat.mul_succ, List.range_add,
      List.filterMap_append, List.filterMap_map]
    simp

theorem findSome?_slots (f : α → Option β) {l : List α} {n : ℕ} (h : l.length ≤ n) :
    ((List.range n).findSome? fun t => l[t]?.bind f) = l.findSome? f := by
  induction l generalizing n with
  | nil => simp
  | cons a l ih =>
    obtain ⟨n, rfl⟩ : ∃ m, n = m + 1 := ⟨n - 1, by rw [List.length_cons] at h; omega⟩
    rw [List.length_cons] at h
    rw [List.range_succ_eq_map, List.findSome?_cons, List.findSome?_map, List.findSome?_cons,
      ← ih (n := n) (by omega)]
    simp [Function.comp_def]

theorem filterMap_slots (f : α → Option β) {l : List α} {n : ℕ} (h : l.length ≤ n) :
    ((List.range n).filterMap fun t => l[t]?.bind f) = l.filterMap f := by
  induction l generalizing n with
  | nil => simp
  | cons a l ih =>
    obtain ⟨n, rfl⟩ : ∃ m, n = m + 1 := ⟨n - 1, by rw [List.length_cons] at h; omega⟩
    rw [List.length_cons] at h
    rw [List.range_succ_eq_map, List.filterMap_cons, List.filterMap_map, List.filterMap_cons,
      ← ih (n := n) (by omega)]
    simp

/-- Searching stops at the first index that answers. -/
theorem findSome?_range_eq_some {f : ℕ → Option β} {n k : ℕ} {b : β} (hk : k < n)
    (hbefore : ∀ i < k, f i = none) (hat : f k = some b) :
    (List.range n).findSome? f = some b := by
  have hn : n = k + (1 + (n - k - 1)) := by omega
  have hnone : (List.range k).findSome? f = none := by
    rw [List.findSome?_eq_none_iff]
    intro i hi
    exact hbefore i (List.mem_range.mp hi)
  rw [hn, List.range_add, List.findSome?_append, hnone, Option.none_or, Nat.add_comm 1,
    List.range_succ_eq_map]
  simp [hat]

theorem find?_map (p : α → Bool) (f : α → γ) (l : List α) :
    (l.find? p).map f = l.findSome? fun a => if p a then some (f a) else none := by
  rw [List.find?_eq_findSome?_guard, List.map_findSome?]
  congr 1
  funext a
  by_cases h : p a
  · simp [Option.guard, h]
  · simp [Option.guard, h]

end UserLevelOs.Lib
