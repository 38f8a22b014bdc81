import Mathlib.Data.List.Basic
import Mathlib.Data.List.TakeWhile
import Mathlib.Logic.Function.Basic
import Mathlib.Order.Basic

/-!
# Waiting lines of several levels

A server looks at the lines in the order of their levels and takes the first element that is
ready out of the first line that has one; those ahead of it go to the back of the line.  An
element that is ready in the first line is served after at most as many turns as there are
elements ahead of it, whoever joins the lines in the meantime.

## Main definitions

* `Levels` — one line for each level.
* `Levels.join`, `Levels.gather` — elements join a line; some lines move to the first one.
* `Levels.serve` — one turn of the server.
* `Levels.Ahead` — at most so many are ahead of an element of the first line.

## Main statements

* `Levels.serve_eq_none` — the server finds nobody exactly when nobody is ready.
* `Levels.Ahead.serve` — a turn serves the element or takes one of those ahead of it.
-/

namespace UserLevelOs.Lib

variable {α : Type*}

/-- The lines of the levels, each from its front. -/
abbrev Levels (α : Type*) := ℕ → List α

namespace Levels

/-- The elements `xs` join the line of a level. -/
def join (q : Levels α) (level : ℕ) (xs : List α) : Levels α :=
  Function.update q level (q level ++ xs)

/-- The lines of some levels, one after another, move to the end of line 0. -/
def gather (q : Levels α) (levels : List ℕ) : Levels α := fun k =>
  if k = 0 then (0 :: levels).flatMap q else if k ∈ levels then [] else q k

/-- The first element of the line that is ready, and the line it leaves. -/
def serveLine (ready : α → Bool) (line : List α) : Option (α × List α) :=
  match line.dropWhile fun x => !ready x with
  | [] => none
  | x :: behind => some (x, behind ++ line.takeWhile fun x => !ready x)

/-- One turn of the server, over the levels of the list. -/
def serve (ready : α → Bool) : List ℕ → Levels α → Option (α × Levels α)
  | [], _ => none
  | level :: levels, q =>
    match serveLine ready (q level) with
    | some (x, line) => some (x, Function.update q level line)
    | none => serve ready levels q

/-- At most `n` elements of line 0 are ahead of `x`. -/
def Ahead (q : Levels α) (x : α) (n : ℕ) : Prop :=
  ∃ ahead behind, q 0 = ahead ++ x :: behind ∧ ahead.length ≤ n

variable {q q' : Levels α} {ready : α → Bool} {x y : α} {n level : ℕ} {line ahead behind : List α}

/-! ## One line -/

theorem serveLine_eq_none (h : ∀ y ∈ line, ready y = false) : serveLine ready line = none := by
  have hdrop : line.dropWhile (fun x => !ready x) = [] := by
    rw [List.dropWhile_eq_nil_iff]
    intro y hy
    simp [h y hy]
  rw [serveLine, hdrop]

theorem serveLine_eq_some (hahead : ∀ y ∈ ahead, ready y = false) (hx : ready x = true) :
    serveLine ready (ahead ++ x :: behind) = some (x, behind ++ ahead) := by
  have hall : ∀ y ∈ ahead, (!ready y) = true := fun y hy => by simp [hahead y hy]
  have hdrop : (ahead ++ x :: behind).dropWhile (fun x => !ready x) = x :: behind := by
    rw [List.dropWhile_append_of_pos hall, List.dropWhile_cons_of_neg (by simp [hx])]
  have htake : (ahead ++ x :: behind).takeWhile (fun x => !ready x) = ahead := by
    rw [List.takeWhile_append_of_pos hall, List.takeWhile_cons_of_neg (by simp [hx]),
      List.append_nil]
  rw [serveLine, hdrop, htake]

/-- A line has no element that is ready, or a first one. -/
theorem exists_first (ready : α → Bool) (line : List α) :
    (∀ y ∈ line, ready y = false) ∨ ∃ ahead x behind, line = ahead ++ x :: behind ∧
      (∀ y ∈ ahead, ready y = false) ∧ ready x = true := by
  induction line with
  | nil => exact .inl (by simp)
  | cons x line ih =>
    cases hx : ready x with
    | true => exact .inr ⟨[], x, line, rfl, by simp, hx⟩
    | false =>
      rcases ih with hall | ⟨ahead, y, behind, rfl, hahead, hy⟩
      · exact .inl (by simpa [hx] using hall)
      · exact .inr ⟨x :: ahead, y, behind, rfl, by simpa [hx] using hahead, hy⟩

/-! ## All lines -/

/-- The server finds nobody exactly when nobody is ready. -/
theorem serve_eq_none {levels : List ℕ} :
    serve ready levels q = none ↔ ∀ level ∈ levels, ∀ x ∈ q level, ready x = false := by
  induction levels with
  | nil => simp [serve]
  | cons level levels ih =>
    rcases exists_first ready (q level) with hall | ⟨ahead, x, behind, hsplit, hahead, hx⟩
    · rw [serve, serveLine_eq_none hall, ih]
      exact ⟨fun h => List.forall_mem_cons.mpr ⟨hall, h⟩, fun h => (List.forall_mem_cons.mp h).2⟩
    · rw [serve, hsplit, serveLine_eq_some hahead hx]
      refine ⟨fun h => absurd h (Option.some_ne_none _), fun h => ?_⟩
      have hnot := h level List.mem_cons_self x (by rw [hsplit]; simp)
      simp [hx] at hnot

/-! ## How long an element waits -/

namespace Ahead

/-- Whoever joins a line goes behind. -/
theorem join (h : Ahead q x n) (level : ℕ) (xs : List α) : Ahead (q.join level xs) x n := by
  obtain ⟨ahead, behind, hq, hlen⟩ := h
  by_cases h0 : level = 0
  · subst h0
    exact ⟨ahead, behind ++ xs, by simp [Levels.join, hq], hlen⟩
  · exact ⟨ahead, behind, by simp [Levels.join, Ne.symm h0, hq], hlen⟩

theorem gather (h : Ahead q x n) (levels : List ℕ) : Ahead (q.gather levels) x n := by
  obtain ⟨ahead, behind, hq, hlen⟩ := h
  refine ⟨ahead, behind ++ levels.flatMap q, ?_, hlen⟩
  rw [Levels.gather, if_pos rfl, List.flatMap_cons, hq, List.append_assoc, List.cons_append]

/-- Once the lines are one, at most the other elements are ahead. -/
theorem of_gather {levels : List ℕ} (hlevel : level ∈ 0 :: levels) (hx : x ∈ q level) :
    Ahead (q.gather levels) x (((0 :: levels).flatMap q).length - 1) := by
  obtain ⟨ahead, behind, hsplit⟩ := List.append_of_mem (List.mem_flatMap.mpr ⟨level, hlevel, hx⟩)
  refine ⟨ahead, behind, by rw [Levels.gather, if_pos rfl, hsplit], ?_⟩
  rw [hsplit, List.length_append, List.length_cons]
  omega

/-- A turn serves the element, or one of those ahead of it, which leaves fewer. -/
theorem serve {levels : List ℕ} (h : Ahead q x n) (hx : ready x = true)
    (hserve : Levels.serve ready (0 :: levels) q = some (y, q')) :
    y = x ∨ ∃ m < n, Ahead q' x m := by
  obtain ⟨ahead, behind, hq, hlen⟩ := h
  rw [Levels.serve, hq] at hserve
  rcases exists_first ready ahead with hall | ⟨before, z, after, rfl, hbefore, hz⟩
  · rw [serveLine_eq_some hall hx] at hserve
    cases hserve
    exact .inl rfl
  · rw [List.append_assoc, List.cons_append, serveLine_eq_some hbefore hz] at hserve
    cases hserve
    refine .inr ⟨after.length, ?_, after, behind ++ before, by simp, le_rfl⟩
    rw [List.length_append, List.length_cons] at hlen
    omega

end Ahead

end Levels

end UserLevelOs.Lib
