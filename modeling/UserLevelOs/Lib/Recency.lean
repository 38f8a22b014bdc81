import Mathlib.Data.List.Dedup
import Mathlib.Data.List.Nodup

/-!
# Caches that forget what was used longest ago

A cache of `n` keys sees a sequence of uses.  It holds the keys used last, the last one first,
when each use puts its key in front and a key too many falls off at the end.

## Main definitions

* `recency` — the keys used so far, the last one first.

## Main statements

* `take_recency_hit` — a use of a key that is held.
* `take_recency_miss` — a use of another key.
-/

namespace UserLevelOs.Lib

variable {α : Type*} [DecidableEq α] {l log : List α} {a : α} {n : ℕ}

def recency (log : List α) : List α := log.dedup.reverse

theorem nodup_recency (log : List α) : (recency log).Nodup :=
  List.nodup_reverse.mpr (List.nodup_dedup log)

@[simp] theorem mem_recency : a ∈ recency log ↔ a ∈ log := by simp [recency]

theorem dedup_snoc (log : List α) (a : α) : (log ++ [a]).dedup = log.dedup.erase a ++ [a] := by
  induction log with
  | nil => simp
  | cons b log ih =>
    by_cases hba : b = a
    · subst hba
      have hmem : b ∈ log ++ [b] := by simp
      rw [List.cons_append, List.dedup_cons_of_mem hmem, ih]
      by_cases hlog : b ∈ log
      · rw [List.dedup_cons_of_mem hlog]
      · have hdedup : b ∉ log.dedup := by simpa using hlog
        rw [List.dedup_cons_of_notMem hlog, List.erase_cons_head, List.erase_of_not_mem hdedup]
    · by_cases hlog : b ∈ log
      · have hmem : b ∈ log ++ [a] := by simp [hlog]
        rw [List.cons_append, List.dedup_cons_of_mem hmem, List.dedup_cons_of_mem hlog, ih]
      · have hmem : b ∉ log ++ [a] := by simp [hlog, hba]
        rw [List.cons_append, List.dedup_cons_of_notMem hmem, List.dedup_cons_of_notMem hlog, ih,
          List.erase_cons_tail (by simpa using hba), List.cons_append]

/-- A use puts its key in front. -/
theorem recency_snoc (log : List α) (a : α) :
    recency (log ++ [a]) = a :: (recency log).erase a := by
  have hnodup : log.dedup.reverse.Nodup := nodup_recency log
  have herase : (log.dedup.erase a).reverse = log.dedup.reverse.erase a := by
    rw [(List.nodup_dedup log).erase_eq_filter, hnodup.erase_eq_filter, List.filter_reverse]
  rw [recency, dedup_snoc, List.reverse_append, List.reverse_singleton, List.singleton_append,
    herase, recency]

theorem take_erase_of_mem (h : a ∈ l.take (n + 1)) :
    (l.erase a).take n = (l.take (n + 1)).erase a := by
  induction l generalizing n with
  | nil => simp
  | cons b l ih =>
    by_cases hba : b = a
    · simp [hba]
    · have hne : ¬ (b == a) = true := by simpa using hba
      have hmem : a ∈ l.take n := by
        rw [List.take_succ_cons, List.mem_cons] at h
        exact h.resolve_left fun heq => hba heq.symm
      cases n with
      | zero => simp at hmem
      | succ n =>
        rw [List.take_succ_cons, List.erase_cons_tail hne, List.erase_cons_tail hne,
          List.take_succ_cons, ih hmem]

theorem take_erase_of_notMem (h : a ∉ l.take n) : (l.erase a).take n = l.take n := by
  induction l generalizing n with
  | nil => simp
  | cons b l ih =>
    cases n with
    | zero => simp
    | succ n =>
      simp only [List.take_succ_cons, List.mem_cons, not_or] at h
      have hne : ¬ (b == a) = true := fun heq => h.1 (beq_iff_eq.mp heq).symm
      rw [List.erase_cons_tail hne, List.take_succ_cons, List.take_succ_cons, ih h.2]

theorem take_recency_hit (h : a ∈ (recency log).take (n + 1)) :
    (recency (log ++ [a])).take (n + 1) = a :: ((recency log).take (n + 1)).erase a := by
  rw [recency_snoc, List.take_succ_cons, take_erase_of_mem h]

theorem take_recency_miss (h : a ∉ (recency log).take (n + 1)) :
    (recency (log ++ [a])).take (n + 1) = a :: (recency log).take n := by
  have hn : a ∉ (recency log).take n :=
    fun hmem => h (List.take_subset_take_left _ (Nat.le_succ n) hmem)
  rw [recency_snoc, List.take_succ_cons, take_erase_of_notMem hn]

end UserLevelOs.Lib
