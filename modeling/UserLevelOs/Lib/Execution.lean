import Mathlib.Data.List.Basic

/-!
# Executions of a machine that may fault

A machine takes an event in a state and gives the next state or a fault.  An execution is a
list of events the machine takes one after another without a fault, where each event meets a
condition in the state in which it occurs.

## Main definitions

* `Yields` — what a computation gives if it does not fault; `Raises` — how it may fault.
* `Execution`, `replay`.
* `observe` — what is seen of the steps of a run.

## Main statements

* `Yields.bind`, `Raises.bind`, `bind_eq_ok` — sequencing.
* `Execution.invariant` — what each step keeps holds all along.
* `Execution.invariant_of_count` — the same while fewer than `n` events of a kind occur.
* `Execution.append`, `Execution.head` — executions one after the other.
* `Execution.of_replay`, `Execution.of_observed` — a replay that does not fault is an execution.
* `Execution.observe_snoc` — what is seen of one more step.
-/

namespace UserLevelOs.Lib

section Yields

universe u

variable {φ : Type*} {α β : Type u} {x : Except φ α} {f : α → Except φ β} {P : α → Prop}
  {R : β → Prop}

/-- Partial correctness: the value, if there is one, has the property. -/
def Yields (x : Except φ α) (P : α → Prop) : Prop := ∀ a, x = .ok a → P a

@[simp] theorem ok_bind (a : α) (f : α → Except φ β) : (.ok a >>= f) = f a := rfl

theorem bind_of_ok {a : α} (h : x = .ok a) : (x >>= f) = f a := by
  subst h
  exact ok_bind a f

theorem bind_eq_ok {b : β} : (x >>= f) = .ok b ↔ ∃ a, x = .ok a ∧ f a = .ok b := by
  cases x with
  | error e => simp [bind, Except.bind]
  | ok a => simp [bind, Except.bind]

theorem map_eq_ok {g : α → β} {b : β} : x.map g = .ok b ↔ ∃ a, x = .ok a ∧ g a = b := by
  cases x <;> simp [Except.map]

namespace Yields

theorem ok {a : α} (h : P a) : Yields (.ok a : Except φ α) P := by
  intro b hb
  cases hb
  exact h

theorem error (e : φ) : Yields (.error e : Except φ α) P := by
  intro b hb
  cases hb

theorem bind (hx : Yields x P) (hf : ∀ a, P a → Yields (f a) R) : Yields (x >>= f) R := by
  intro b hb
  obtain ⟨a, ha, hb⟩ := bind_eq_ok.mp hb
  exact hf a (hx a ha) b hb

/-- Whatever the first computation gives. -/
theorem of_bind (hf : ∀ a, Yields (f a) R) : Yields (x >>= f) R := by
  intro b hb
  obtain ⟨a, -, hb⟩ := bind_eq_ok.mp hb
  exact hf a b hb

theorem ite {c : Prop} [Decidable c] {y : Except φ α} (hx : c → Yields x P)
    (hy : ¬ c → Yields y P) : Yields (if c then x else y) P := by
  split
  · next h => exact hx h
  · next h => exact hy h

end Yields

/-- The faults that may come up. -/
def Raises (x : Except φ α) (E : φ → Prop) : Prop := ∀ e, x = .error e → E e

namespace Raises

variable {E : φ → Prop}

theorem ok (a : α) : Raises (.ok a) E := by
  intro e he
  cases he

theorem error {e : φ} (h : E e) : Raises (.error e : Except φ α) E := by
  intro e' he
  cases he
  exact h

theorem bind (hx : Raises x E) (hf : ∀ a, x = .ok a → Raises (f a) E) : Raises (x >>= f) E := by
  intro e he
  cases h : x with
  | error e' =>
    rw [h] at he
    cases he
    exact hx _ h
  | ok a =>
    rw [h] at he
    exact hf a h e he

theorem mono {F : φ → Prop} (hx : Raises x E) (himp : ∀ e, E e → F e) : Raises x F :=
  fun e he => himp e (hx e he)

theorem ite {c : Prop} [Decidable c] {y : Except φ α} (hx : c → Raises x E)
    (hy : ¬ c → Raises y E) : Raises (if c then x else y) E := by
  split
  · next h => exact hx h
  · next h => exact hy h

end Raises

end Yields

variable {ε φ : Type*} {σ : Type*} {step : σ → ε → Except φ σ} {ok : σ → ε → Prop} {init s : σ}
  {es : List ε}

inductive Execution (step : σ → ε → Except φ σ) (ok : σ → ε → Prop) (init : σ) : List ε → σ → Prop
  | start : Execution step ok init [] init
  | snoc {es : List ε} {s s' : σ} {e : ε} (h : Execution step ok init es s) (hok : ok s e)
      (hstep : step s e = .ok s') : Execution step ok init (es ++ [e]) s'

/-- The events one after another. -/
def replay (step : σ → ε → Except φ σ) : σ → List ε → Except φ σ
  | s, [] => .ok s
  | s, e :: es => step s e >>= fun s' => replay step s' es

/-- What `seen` shows of the events, one after another. -/
def observe {α : Type*} (step : σ → ε → Except φ σ) (seen : σ → ε → List α) : σ → List ε → List α
  | _, [] => []
  | s, e :: es =>
    seen s e ++ match step s e with
      | .ok s' => observe step seen s' es
      | .error _ => []

theorem replay_append {s' : σ} {es' : List ε} (h : replay step s es = .ok s') :
    replay step s (es ++ es') = replay step s' es' := by
  induction es generalizing s with
  | nil =>
    cases h
    rfl
  | cons e es ih =>
    obtain ⟨t, ht, h⟩ := bind_eq_ok.mp h
    rw [List.cons_append, replay, bind_of_ok ht]
    exact ih h

theorem observe_append {α : Type*} {seen : σ → ε → List α} {s' : σ} {es' : List ε}
    (h : replay step s es = .ok s') :
    observe step seen s (es ++ es') = observe step seen s es ++ observe step seen s' es' := by
  induction es generalizing s with
  | nil =>
    cases h
    rfl
  | cons e es ih =>
    obtain ⟨t, ht, h⟩ := bind_eq_ok.mp h
    simp only [List.cons_append, observe, ht, ih h, List.append_assoc]

namespace Execution

theorem replay_eq (h : Execution step ok init es s) : replay step init es = .ok s := by
  induction h with
  | start => rfl
  | snoc _ _ hstep ih =>
    rw [replay_append ih, replay, bind_of_ok hstep]
    rfl

/-- One more event is seen in the state in which it occurs. -/
theorem observe_snoc {α : Type*} {seen : σ → ε → List α} {e : ε}
    (h : Execution step ok init es s) :
    observe step seen init (es ++ [e]) = observe step seen init es ++ seen s e := by
  rw [observe_append h.replay_eq, observe]
  cases step s e <;> simp [observe]

theorem invariant {I : σ → Prop} (h : Execution step ok init es s) (hinit : I init)
    (hkeep : ∀ s e s', I s → ok s e → step s e = .ok s' → I s') : I s := by
  induction h with
  | start => exact hinit
  | snoc _ hok hstep ih => exact hkeep _ _ _ ih hok hstep

/-- An invariant may rest on the number of events of a kind that are still allowed. -/
theorem invariant_of_count {I : σ → Prop} {p : ε → Bool} {n : ℕ}
    (h : Execution step ok init es s) (hn : es.countP p < n) (hinit : I init)
    (hkeep : ∀ es s e s', Execution step ok init es s → (es ++ [e]).countP p < n → I s → ok s e →
      step s e = .ok s' → I s') : I s := by
  induction h with
  | start => exact hinit
  | @snoc es s s' e hes hok hstep ih =>
    have hle : es.countP p ≤ (es ++ [e]).countP p := by
      rw [List.countP_append]
      exact Nat.le_add_right _ _
    exact hkeep _ _ _ _ hes hn (ih (by omega)) hok hstep

/-- An execution that goes on where another one ends; conditions may be dropped. -/
theorem append {ok' ok'' : σ → ε → Prop} {s' : σ} {es' : List ε}
    (h : Execution step ok init es s) (h' : Execution step ok' s es' s')
    (hok : ∀ s e, ok s e → ok'' s e) (hok' : ∀ s e, ok' s e → ok'' s e) :
    Execution step ok'' init (es ++ es') s' := by
  induction h' with
  | start =>
    rw [List.append_nil]
    induction h with
    | start => exact .start
    | snoc _ he hstep ih => exact ih.snoc (hok _ _ he) hstep
  | snoc _ he hstep ih =>
    rw [← List.append_assoc]
    exact ih.snoc (hok' _ _ he) hstep

theorem trans {s' : σ} {es' : List ε} (h : Execution step ok init es s)
    (h' : Execution step ok s es' s') : Execution step ok init (es ++ es') s' :=
  h.append h' (fun _ _ => id) fun _ _ => id

/-- The first event of an execution, if there is one, and the execution after it. -/
theorem head (h : Execution step ok init es s) : es = [] ∧ s = init ∨
    ∃ e es' t, es = e :: es' ∧ ok init e ∧ step init e = .ok t ∧ Execution step ok t es' s := by
  induction h with
  | start => exact .inl ⟨rfl, rfl⟩
  | snoc _ hok hstep ih =>
    refine .inr ?_
    rcases ih with ⟨rfl, rfl⟩ | ⟨e, es', t, rfl, he, ht, h⟩
    · exact ⟨_, [], _, rfl, hok, hstep, .start⟩
    · exact ⟨e, es' ++ [_], t, rfl, he, ht, h.snoc hok hstep⟩

theorem append_replay {s' : σ} (h : Execution step ok init es s) (es' : List ε)
    (hok : ∀ s e, ok s e) (hs' : replay step s es' = .ok s') :
    Execution step ok init (es ++ es') s' := by
  induction es' generalizing es s with
  | nil =>
    cases hs'
    simpa using h
  | cons e es' ih =>
    obtain ⟨t, ht, hs'⟩ := bind_eq_ok.mp hs'
    have := ih (h.snoc (hok s e) ht) hs'
    simpa using this

theorem of_replay (hok : ∀ s e, ok s e) (h : replay step init es = .ok s) :
    Execution step ok init es s := by
  simpa using Execution.start.append_replay es hok h

/-- A replay that also tests a condition before each event. -/
def replayIf (step : σ → ε → Except φ σ) (test : σ → ε → Bool) : σ → List ε → Option (Except φ σ)
  | s, [] => some (.ok s)
  | s, e :: es =>
    if test s e then
      match step s e with
      | .ok s' => replayIf step test s' es
      | .error x => some (.error x)
    else none

theorem append_replayIf {s' : σ} {test : σ → ε → Bool} (h : Execution step ok init es s)
    (es' : List ε) (hok : ∀ s e, test s e = true → ok s e)
    (hs' : replayIf step test s es' = some (.ok s')) :
    Execution step ok init (es ++ es') s' := by
  induction es' generalizing es s with
  | nil =>
    cases hs'
    simpa using h
  | cons e es' ih =>
    unfold replayIf at hs'
    split at hs'
    · next htest =>
      split at hs'
      · next t ht =>
        have := ih (h.snoc (hok s e htest) ht) hs'
        simpa using this
      · cases hs'
    · cases hs'

/-- The same for a replay that tests a condition. -/
theorem of_observedIf {α : Type*} {f : σ → α} {a : α} {test : σ → ε → Bool}
    (hok : ∀ s e, test s e = true → ok s e)
    (h : (replayIf step test init es).map (Except.map f) = some (.ok a)) :
    ∃ s, Execution step ok init es s ∧ f s = a := by
  obtain ⟨r, hr, hra⟩ := Option.map_eq_some_iff.mp h
  cases r with
  | error e => cases hra
  | ok s =>
    cases hra
    exact ⟨s, by simpa using Execution.start.append_replayIf es hok hr, rfl⟩

/-- What can be seen of the state in which a replay ends. -/
theorem of_observed {α : Type*} {f : σ → α} {a : α}
    (h : (replay step init es).map f = .ok a) :
    ∃ s, replay step init es = .ok s ∧ Execution step (fun _ _ => True) init es s ∧ f s = a := by
  cases hs : replay step init es with
  | error e =>
    rw [hs] at h
    cases h
  | ok s =>
    rw [hs] at h
    cases h
    exact ⟨s, rfl, of_replay (fun _ _ => trivial) hs, rfl⟩

end Execution

end UserLevelOs.Lib
