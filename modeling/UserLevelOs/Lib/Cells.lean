import Mathlib.Data.List.Nodup
import Mathlib.Logic.Function.Basic

/-!
# Cells linked in a heap

A heap has cells at some of its addresses; a cell holds a value and a pointer.  Following the
pointers visits a list of cells.  Two uses of that: a chain, which a null pointer ends, and a
ring, which leads back to where it began and is held by its last cell.

## Main definitions

* `Cell`, `Cells` — a heap.
* `Segment` — the cells visited from one pointer until another is met.
* `Chain`, `Ring`.

## Main statements

* `Segment.append`, `Segment.congr` — composition, and what a segment depends on.
* `Chain.cons`, `Chain.free`, `Chain.relink` — a cell put in front, the first taken out, a later
  one taken out.
* `Ring.single`, `Ring.push`, `Ring.pop` — a cell put behind the last, the first taken out.
-/

namespace UserLevelOs.Lib

variable {α : Type*}

structure Cell (α : Type*) where
  data : α
  next : Option ℕ
  deriving DecidableEq, Repr

/-- A heap of cells. -/
abbrev Cells (α : Type*) := ℕ → Option (Cell α)

/-- From `p` the pointers lead through the cells of the list, with their values, to `q`. -/
def Segment (h : Cells α) : Option ℕ → List (ℕ × α) → Option ℕ → Prop
  | p, [], q => p = q
  | p, c :: l, q => p = some c.1 ∧ ∃ r, h c.1 = some ⟨c.2, r⟩ ∧ Segment h r l q

/-- A list that a null pointer ends. -/
structure Chain (h : Cells α) (p : Option ℕ) (l : List (ℕ × α)) : Prop where
  segment : Segment h p l none
  nodup : (l.map Prod.fst).Nodup

/-- A list whose last cell leads to the first. -/
structure Ring (h : Cells α) (rear : Option ℕ) (l : List (ℕ × α)) : Prop where
  rear : rear = l.getLast?.map Prod.fst
  segment : Segment h (l.head?.map Prod.fst) l (l.head?.map Prod.fst)
  nodup : (l.map Prod.fst).Nodup

variable {h h' : Cells α} {p q : Option ℕ} {l l₁ l₂ : List (ℕ × α)} {x y : ℕ × α} {n m : ℕ}
  {a : α} {c : Cell α}

namespace Segment

@[simp] theorem nil : Segment h p [] q ↔ p = q := Iff.rfl

@[simp] theorem cons :
    Segment h p (x :: l) q ↔ p = some x.1 ∧ ∃ r, h x.1 = some ⟨x.2, r⟩ ∧ Segment h r l q := Iff.rfl

theorem append : Segment h p (l₁ ++ l₂) q ↔ ∃ r, Segment h p l₁ r ∧ Segment h r l₂ q := by
  induction l₁ generalizing p with
  | nil => simp
  | cons x l₁ ih =>
    simp only [List.cons_append, cons, ih]
    constructor
    · rintro ⟨rfl, s, hc, r, h₁, h₂⟩
      exact ⟨r, ⟨rfl, s, hc, h₁⟩, h₂⟩
    · rintro ⟨r, ⟨rfl, s, hc, h₁⟩, h₂⟩
      exact ⟨rfl, s, hc, r, h₁, h₂⟩

/-- Only the cells visited matter. -/
theorem congr (hs : Segment h p l q) (hsame : ∀ n ∈ l.map Prod.fst, h' n = h n) :
    Segment h' p l q := by
  induction l generalizing p with
  | nil => exact hs
  | cons x l ih =>
    obtain ⟨rfl, r, hc, hs⟩ := hs
    simp only [List.map_cons, List.mem_cons, forall_eq_or_imp] at hsame
    exact ⟨rfl, r, hsame.1.trans hc, ih hs hsame.2⟩

theorem update (hs : Segment h p l q) (hn : n ∉ l.map Prod.fst) (o : Option (Cell α)) :
    Segment (Function.update h n o) p l q := by
  apply hs.congr
  intro m hm
  have hne : m ≠ n := fun heq => hn (heq ▸ hm)
  simp [hne]

/-- A free address is not visited. -/
theorem notMem_of_none (hs : Segment h p l q) (hn : h n = none) : n ∉ l.map Prod.fst := by
  induction l generalizing p with
  | nil => simp
  | cons x l ih =>
    obtain ⟨rfl, r, hc, hs⟩ := hs
    have hne : n ≠ x.1 := fun heq => by simp [← heq, hn] at hc
    simpa [hne] using ih hs

/-- Where a nonempty segment begins. -/
theorem head (hs : Segment h p (x :: l) q) : p = some x.1 := hs.1

theorem last (hs : Segment h p (l ++ [(n, a)]) q) : h n = some ⟨a, q⟩ := by
  obtain ⟨r, -, -, s, hn, rfl⟩ := append.mp hs
  exact hn

/-- The last cell leads somewhere else. -/
theorem redirect (hs : Segment h p (l ++ [(n, a)]) q) (hn : n ∉ l.map Prod.fst) (r : Option ℕ) :
    Segment (Function.update h n (some ⟨a, r⟩)) p (l ++ [(n, a)]) r := by
  obtain ⟨s, h₁, rfl, -⟩ := append.mp hs
  exact append.mpr ⟨_, h₁.update hn _, by simp⟩

end Segment

/-! ## Chains -/

namespace Chain

theorem nil : Chain h none [] := ⟨rfl, by simp⟩

theorem unique (hl : Chain h p l₁) (hl' : Chain h p l₂) : l₁ = l₂ := by
  have hs := hl.segment
  have hs' := hl'.segment
  clear hl hl'
  induction l₁ generalizing p l₂ with
  | nil =>
    cases l₂ with
    | nil => rfl
    | cons y l₂ => cases hs.symm.trans hs'.head
  | cons x l₁ ih =>
    obtain ⟨rfl, r, hx, hs⟩ := hs
    cases l₂ with
    | nil => cases hs'
    | cons y l₂ =>
      obtain ⟨hxy, r', hy, hs'⟩ := hs'
      rw [Option.some.injEq] at hxy
      simp only [← hxy, hx, Option.some.injEq, Cell.mk.injEq] at hy
      obtain ⟨hdata, rfl⟩ := hy
      rw [Prod.ext hxy hdata, ih hs hs']

theorem cons (hl : Chain h p l) (hn : h n = none) :
    Chain (Function.update h n (some ⟨a, p⟩)) (some n) ((n, a) :: l) where
  segment := ⟨rfl, p, by simp, hl.segment.update (hl.segment.notMem_of_none hn) _⟩
  nodup := List.nodup_cons.mpr ⟨hl.segment.notMem_of_none hn, hl.nodup⟩

theorem uncons (hl : Chain h p (x :: l)) :
    ∃ r, p = some x.1 ∧ h x.1 = some ⟨x.2, r⟩ ∧ Chain h r l := by
  obtain ⟨⟨rfl, r, hx, hs⟩, hnodup⟩ := hl
  exact ⟨r, rfl, hx, hs, hnodup.of_cons⟩

/-- The first cell is given back. -/
theorem free (hl : Chain h p (x :: l)) :
    ∃ r, p = some x.1 ∧ h x.1 = some ⟨x.2, r⟩ ∧ Chain (Function.update h x.1 none) r l := by
  obtain ⟨r, hp, hx, hrest⟩ := hl.uncons
  exact ⟨r, hp, hx, hrest.segment.update (List.nodup_cons.mp hl.nodup).1 _, hrest.nodup⟩

/-- A later cell is given back, and the one before it leads past it. -/
theorem relink (hl : Chain h p (l₁ ++ y :: x :: l₂)) :
    ∃ r, h y.1 = some ⟨y.2, some x.1⟩ ∧ y.1 ≠ x.1 ∧ h x.1 = some ⟨x.2, r⟩ ∧
      Chain (Function.update (Function.update h y.1 (some ⟨y.2, r⟩)) x.1 none) p
        (l₁ ++ y :: l₂) := by
  obtain ⟨-, h₁, rfl, -, hy, rfl, r, hx, h₂⟩ := Segment.append.mp hl.segment
  have hnodup : (l₁.map Prod.fst ++ y.1 :: x.1 :: l₂.map Prod.fst).Nodup := by
    simpa using hl.nodup
  have hrelinked : ((l₁ ++ y :: l₂).map Prod.fst).Nodup := by
    simp only [List.map_append, List.map_cons]
    exact hnodup.sublist (by simp)
  obtain ⟨-, hrest, hapart⟩ := List.nodup_append.mp hnodup
  simp only [List.nodup_cons, List.mem_cons, not_or] at hrest
  obtain ⟨⟨hyx, hy₂⟩, hx₂, -⟩ := hrest
  have hy₁ : y.1 ∉ l₁.map Prod.fst := fun hin => hapart y.1 hin y.1 (by simp) rfl
  have hx₁ : x.1 ∉ l₁.map Prod.fst := fun hin => hapart x.1 hin x.1 (by simp) rfl
  refine ⟨r, hy, hyx, hx, Segment.append.mpr ⟨some y.1, (h₁.update hy₁ _).update hx₁ _, rfl, r,
    by simp [hyx], (h₂.update hy₂ _).update hx₂ _⟩, hrelinked⟩

end Chain

/-! ## Rings -/

namespace Ring

/-- The last address does not come before. -/
theorem notMem_of_nodup (hnodup : ((l ++ [(n, a)]).map Prod.fst).Nodup) : n ∉ l.map Prod.fst := by
  simp only [List.map_append, List.nodup_append] at hnodup
  intro hin
  exact hnodup.2.2 n hin n (by simp) rfl

theorem nil : Ring h none [] := ⟨rfl, rfl, by simp⟩

theorem single : Ring (Function.update h n (some ⟨a, some n⟩)) (some n) [(n, a)] :=
  ⟨rfl, by simp, by simp⟩

/-- The last cell has the last value and leads to the first. -/
theorem rear_cell (hl : Ring h (some n) l) (hn : h n = some c) :
    l.getLast? = some (n, c.data) ∧ c.next = l.head?.map Prod.fst := by
  obtain ⟨hrear, hs, -⟩ := hl
  obtain ⟨x, hlast, rfl⟩ := Option.map_eq_some_iff.mp hrear.symm
  obtain ⟨l, rfl⟩ := List.getLast?_eq_some_iff.mp hlast
  have hx := hs.last
  rw [hn, Option.some.injEq] at hx
  subst hx
  exact ⟨hlast, rfl⟩

theorem exists_rear (hl : Ring h p l) (hne : l ≠ []) : ∃ n c, p = some n ∧ h n = some c := by
  obtain ⟨x, hlast⟩ := Option.isSome_iff_exists.mp (List.getLast?_isSome.mpr hne)
  obtain ⟨l, rfl⟩ := List.getLast?_eq_some_iff.mp hlast
  exact ⟨x.1, _, by simp [hl.rear], hl.segment.last⟩

/-- A new cell behind the last. -/
theorem push (hl : Ring h (some n) l) (hn : h n = some c) (hm : h m = none) :
    Ring (Function.update (Function.update h m (some ⟨a, c.next⟩)) n
      (some { c with next := some m })) (some m) (l ++ [(m, a)]) := by
  obtain ⟨hlast, hnext⟩ := hl.rear_cell hn
  obtain ⟨l, rfl⟩ := List.getLast?_eq_some_iff.mp hlast
  have hfresh := hl.segment.notMem_of_none hm
  have hfirst : (l ++ [(n, c.data)] ++ [(m, a)]).head? = (l ++ [(n, c.data)]).head? := by
    cases l <;> rfl
  have hlater := notMem_of_nodup hl.nodup
  have hmn : m ≠ n := by
    rintro rfl
    simp at hfresh
  refine ⟨by simp, ?_, ?_⟩
  · rw [hfirst]
    apply Segment.append.mpr
    exact ⟨some m, (hl.segment.update hfresh _).redirect hlater _, by simp [hmn, hnext]⟩
  · rw [List.map_append, List.nodup_append]
    refine ⟨hl.nodup, by simp, ?_⟩
    rintro k hk k' hk' rfl
    simp only [List.map_cons, List.map_nil, List.mem_singleton] at hk'
    exact hfresh (hk' ▸ hk)

/-- The first cell is given back, and the last leads past it. -/
theorem pop (hl : Ring h (some n) ((m, a) :: l)) (hne : l ≠ []) (hn : h n = some c) :
    ∃ r, c.next = some m ∧ m ≠ n ∧ h m = some ⟨a, r⟩ ∧
      Ring (Function.update (Function.update h n (some { c with next := r })) m none) (some n) l := by
  obtain ⟨hlast, hnext⟩ := hl.rear_cell hn
  have hlast' : l.getLast? = some (n, c.data) := by
    rwa [List.getLast?_cons_of_ne_nil hne] at hlast
  obtain ⟨l, rfl⟩ := List.getLast?_eq_some_iff.mp hlast'
  obtain ⟨-, r, hm, hs⟩ := hl.segment
  have hnodup := hl.nodup
  simp only [List.map_cons, List.nodup_cons] at hnodup
  obtain ⟨hmem, hnodup⟩ := hnodup
  have hlater := notMem_of_nodup hnodup
  have hfirst : (l ++ [(n, c.data)]).head?.map Prod.fst = r := by
    cases l with
    | nil => exact hs.head.symm
    | cons x l => exact hs.head.symm
  have hmn : m ≠ n := by
    rintro rfl
    simp at hmem
  refine ⟨r, hnext, hmn, hm, by simp, ?_, hnodup⟩
  rw [hfirst]
  exact (hs.redirect hlater r).update hmem none

end Ring

end UserLevelOs.Lib
