import UserLevelOs.Lib.Logged

/-!
# Computations that may be cut off

A computation shows the states in which it may be cut off.  A triple about it has one condition
more than usual: what holds in every state shown.

## Main definitions

* `Logged.Crash` — precondition, postcondition and crash condition.

## Main statements

* `Crash.bind`, `Crash.ite`, `Crash.consequence`.
-/

namespace UserLevelOs.Lib

namespace Logged

variable {σ α β : Type}

/-- From a state with `P` the computation is cut off only in states with `C`, and the state it
ends in has `Q` for the value returned. -/
def Crash (P : σ → Prop) (m : Traced σ α) (Q : α → σ → Prop) (C : σ → Prop) : Prop :=
  ∀ s, P s → (∀ t ∈ m.log s, C t) ∧ ∀ a s', m.run s = some (a, s') → Q a s'

namespace Crash

variable {P P' : σ → Prop} {m m' : Traced σ α} {Q Q' : α → σ → Prop} {C C' : σ → Prop}
  {f : α → Traced σ β} {R : β → σ → Prop}

theorem consequence (h : Crash P m Q C) (hP : ∀ s, P' s → P s) (hQ : ∀ a s, Q a s → Q' a s)
    (hC : ∀ s, C s → C' s) : Crash P' m Q' C' := by
  intro s hs
  obtain ⟨hlog, hrun⟩ := h s (hP s hs)
  exact ⟨fun t ht => hC t (hlog t ht), fun a s' heq => hQ a s' (hrun a s' heq)⟩

/-- What every state with the precondition has in common may be assumed. -/
theorem given {F : Prop} (hF : ∀ s, P s → F) (h : F → Crash P m Q C) : Crash P m Q C :=
  fun s hs => h (hF s hs) s hs

theorem pure {a : α} (h : ∀ s, P s → Q a s) : Crash P (Pure.pure a) Q C := by
  intro s hs
  constructor
  · intro t ht
    cases ht
  · intro b s' heq
    cases heq
    exact h s hs

/-- The continuation starts where the first computation has ended. -/
theorem bind (h : Crash P m Q C) (hf : ∀ a, Crash (Q a) (f a) R C) : Crash P (m >>= f) R C := by
  intro s hs
  obtain ⟨hlog, hrun⟩ := h s hs
  constructor
  · intro t ht
    rcases mem_log_bind m f s |>.mp ht with ht | ⟨p, heq, ht⟩
    · exact hlog t ht
    · exact (hf p.1 p.2 (hrun p.1 p.2 heq)).1 t ht
  · intro b s' heq
    rw [run_bind, Option.bind_eq_some_iff] at heq
    obtain ⟨p, heq, hrest⟩ := heq
    exact (hf p.1 p.2 (hrun p.1 p.2 heq)).2 b s' hrest

theorem ite {c : Prop} [Decidable c] (h : c → Crash P m Q C) (h' : ¬c → Crash P m' Q C) :
    Crash P (if c then m else m') Q C := by
  by_cases hc : c
  · rw [if_pos hc]
    exact h hc
  · rw [if_neg hc]
    exact h' hc

theorem lift {g : σ → Option (α × σ)} (h : ∀ s a s', P s → g s = some (a, s') → Q a s') :
    Crash P (lift g) Q C := by
  intro s hs
  constructor
  · intro t ht
    cases ht
  · intro a s' heq
    exact h s a s' hs heq

theorem reads {g : σ → Option α} (h : ∀ s a, P s → g s = some a → Q a s) :
    Crash P (reads g) Q C := by
  apply lift
  intro s a s' hs heq
  obtain ⟨b, hb, heq⟩ := Option.bind_eq_some_iff.mp heq
  cases heq
  exact h s _ hs hb

theorem update {g : σ → Option σ} {Q : Unit → σ → Prop} (h : ∀ s s', P s → g s = some s' → Q () s') :
    Crash P (update g) Q C := by
  apply lift
  intro s a s' hs heq
  obtain ⟨t, ht, heq⟩ := Option.bind_eq_some_iff.mp heq
  cases heq
  exact h s _ hs ht

theorem mark {Q : Unit → σ → Prop} (h : ∀ s, P s → C s ∧ Q () s) : Crash P mark Q C := by
  intro s hs
  obtain ⟨hC, hQ⟩ := h s hs
  constructor
  · intro t ht
    rw [log_mark, List.mem_singleton] at ht
    exact ht ▸ hC
  · intro a s' heq
    cases heq
    exact hQ

/-- A change to the state, shown at once. -/
theorem update_mark {g : σ → Option σ} {Q : Unit → σ → Prop}
    (h : ∀ s s', P s → g s = some s' → C s' ∧ Q () s') :
    Crash P (Logged.update g >>= fun _ => Logged.mark) Q C :=
  (update (Q := fun _ s => C s ∧ Q () s) h).bind fun _ => mark fun _ hs => hs

end Crash

end Logged

end UserLevelOs.Lib
