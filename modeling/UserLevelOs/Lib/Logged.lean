import Mathlib.Logic.Basic

/-!
# Computations that keep a log

A computation that may fail gives a value and a new state.  Here it also writes a log, which
has no influence on it.  An invariant may speak of the state and of all that has been logged
since the beginning, and may rely on what holds of everything logged.

## Main definitions

* `Logged`, with `pure`, `bind`, `lift`, `emit` and `mark`.
* `Traced` — computations that log states they pass.
* `Logged.Keeps` — the invariant of state and log is kept.
* `Logged.Returns` — an execution does not fail, with `P` of all it logs.

## Main statements

* `Logged.Keeps.bind`, `Logged.Keeps.ite` — sequencing and branching.
-/

namespace UserLevelOs.Lib

/-- A computation on states, with what it logs in each one. -/
structure Logged (σ ω α : Type) where
  run : σ → Option (α × σ)
  log : σ → List ω

namespace Logged

variable {σ ω α β : Type}

def pure (a : α) : Logged σ ω α := ⟨fun s => some (a, s), fun _ => []⟩

/-- The continuation logs after what is logged already. -/
def bind (m : Logged σ ω α) (f : α → Logged σ ω β) : Logged σ ω β where
  run := fun s => (m.run s).bind fun p => (f p.1).run p.2
  log := fun s => m.log s ++ (m.run s).elim [] fun p => (f p.1).log p.2

instance : Monad (Logged σ ω) where
  pure := pure
  bind := bind

/-- Embed a computation, logging nothing. -/
def lift (f : σ → Option (α × σ)) : Logged σ ω α := ⟨f, fun _ => []⟩

def reads (f : σ → Option α) : Logged σ ω α := lift fun s => (f s).bind fun a => some (a, s)

def update (f : σ → Option σ) : Logged σ ω Unit := lift fun s => (f s).bind fun s => some ((), s)

def emit (x : ω) : Logged σ ω Unit := ⟨fun s => some ((), s), fun _ => [x]⟩

/-- Log the present state. -/
def mark : Logged σ σ Unit := ⟨fun s => some ((), s), fun s => [s]⟩

variable (m : Logged σ ω α) (f : α → Logged σ ω β) (s : σ)

@[simp] theorem run_pure (a : α) : (Pure.pure a : Logged σ ω α).run s = some (a, s) := rfl

@[simp] theorem log_pure (a : α) : (Pure.pure a : Logged σ ω α).log s = [] := rfl

@[simp] theorem run_bind : (m >>= f).run s = (m.run s).bind fun p => (f p.1).run p.2 := rfl

theorem log_bind : (m >>= f).log s = m.log s ++ (m.run s).elim [] fun p => (f p.1).log p.2 := rfl

theorem log_bind_of_run {a : α} {s' : σ} (h : m.run s = some (a, s')) :
    (m >>= f).log s = m.log s ++ (f a).log s' := by
  simp [log_bind, h]

@[simp] theorem run_lift (g : σ → Option (α × σ)) : (lift g : Logged σ ω α).run s = g s := rfl

@[simp] theorem log_lift (g : σ → Option (α × σ)) : (lift g : Logged σ ω α).log s = [] := rfl

@[simp] theorem run_reads (g : σ → Option α) :
    (reads g : Logged σ ω α).run s = (g s).bind fun a => some (a, s) := rfl

@[simp] theorem log_reads (g : σ → Option α) : (reads g : Logged σ ω α).log s = [] := rfl

@[simp] theorem run_update (g : σ → Option σ) :
    (update g : Logged σ ω Unit).run s = (g s).bind fun s => some ((), s) := rfl

@[simp] theorem log_update (g : σ → Option σ) : (update g : Logged σ ω Unit).log s = [] := rfl

@[simp] theorem run_emit (x : ω) : (emit x : Logged σ ω Unit).run s = some ((), s) := rfl

@[simp] theorem log_emit (x : ω) : (emit x : Logged σ ω Unit).log s = [x] := rfl

@[simp] theorem run_mark : (mark : Logged σ σ Unit).run s = some ((), s) := rfl

@[simp] theorem log_mark : (mark : Logged σ σ Unit).log s = [s] := rfl

@[simp] theorem run_ite {c : Prop} [Decidable c] (m m' : Logged σ ω α) :
    (if c then m else m').run s = if c then m.run s else m'.run s := by
  split <;> rfl

@[simp] theorem log_ite {c : Prop} [Decidable c] (m m' : Logged σ ω α) :
    (if c then m else m').log s = if c then m.log s else m'.log s := by
  split <;> rfl

/-- A sequence logs what its parts log. -/
@[simp] theorem mem_log_bind {x : ω} :
    x ∈ (m >>= f).log s ↔ x ∈ m.log s ∨ ∃ p, m.run s = some p ∧ x ∈ (f p.1).log p.2 := by
  rw [log_bind, List.mem_append]
  cases h : m.run s with
  | none => simp
  | some p => simp

/-- What is logged on the way is logged by the first part, or by the rest, which ends as the whole
does. -/
theorem log_bind_cases {m : Logged σ ω α} {f : α → Logged σ ω β} {s : σ} {x : ω}
    (h : x ∈ (m >>= f).log s) : x ∈ m.log s ∨
      ∃ a s', m.run s = some (a, s') ∧ x ∈ (f a).log s' ∧ (m >>= f).run s = (f a).run s' := by
  rcases (mem_log_bind m f s).mp h with h | ⟨⟨a, s'⟩, hrun, h⟩
  · exact Or.inl h
  · refine Or.inr ⟨a, s', hrun, h, ?_⟩
    rw [run_bind, hrun, Option.bind_some]

theorem log_reads_bind {g : σ → Option α} {f : α → Logged σ ω β} {s : σ} {x : ω}
    (h : x ∈ (reads g >>= f).log s) :
    ∃ a, g s = some a ∧ x ∈ (f a).log s ∧ (reads g >>= f).run s = (f a).run s := by
  rcases log_bind_cases h with h | ⟨a, s', hrun, h, heq⟩
  · cases h
  · obtain ⟨b, hb, hrun⟩ := Option.bind_eq_some_iff.mp hrun
    cases hrun
    exact ⟨_, hb, h, heq⟩

/-- Branching before a continuation. -/
theorem ite_bind {c : Prop} [Decidable c] (x y : Option α) (g : α → Option β) :
    (if c then x else y).bind g = if c then x.bind g else y.bind g := by
  split <;> rfl

/-- From a state and a log with the invariant `I`, an execution that logs only what is in `K`
logs only what is in `J`, and ends in a state that has the invariant with the longer log. -/
def Keeps (K J : ω → Prop) (I : σ → List ω → Prop) (m : Logged σ ω α) : Prop :=
  ∀ s log, I s log → (∀ x ∈ m.log s, K x) →
    (∀ x ∈ m.log s, J x) ∧ ∀ a s', m.run s = some (a, s') → I s' (log ++ m.log s)

namespace Keeps

variable {K J : ω → Prop} {I : σ → List ω → Prop} {m m' : Logged σ ω α} {f : α → Logged σ ω β}

theorem pure (a : α) : Keeps K J I (Pure.pure a : Logged σ ω α) := by
  intro s log hI _
  refine ⟨by simp, fun b s' h => ?_⟩
  cases h
  simpa using hI

/-- The continuation runs on values the first computation has returned. -/
theorem bind' (h : Keeps K J I m)
    (hf : ∀ a, (∃ s log s', I s log ∧ m.run s = some (a, s')) → Keeps K J I (f a)) :
    Keeps K J I (m >>= f) := by
  intro s log hI hlog
  obtain ⟨hfirst, hrun⟩ := h s log hI fun x hx => hlog x ((mem_log_bind m f s).mpr (Or.inl hx))
  cases hm : m.run s with
  | none =>
    refine ⟨fun x hx => hfirst x (by simpa [hm] using hx), fun b s' hb => ?_⟩
    rw [run_bind, hm] at hb
    cases hb
  | some p =>
    obtain ⟨a, t⟩ := p
    have hbind := log_bind_of_run m f s hm
    rw [hbind] at hlog ⊢
    obtain ⟨hnext, hrun'⟩ := hf a ⟨s, log, t, hI, hm⟩ t _ (hrun a t hm)
      fun x hx => hlog x (List.mem_append_right _ hx)
    refine ⟨fun x hx => (List.mem_append.mp hx).elim (hfirst x) (hnext x), fun b s' hb => ?_⟩
    rw [run_bind, hm, Option.bind_some] at hb
    rw [← List.append_assoc]
    exact hrun' b s' hb

theorem bind (h : Keeps K J I m) (hf : ∀ a, Keeps K J I (f a)) : Keeps K J I (m >>= f) :=
  h.bind' fun a _ => hf a

theorem ite {c : Prop} [Decidable c] (h : Keeps K J I m) (h' : Keeps K J I m') :
    Keeps K J I (if c then m else m') := by
  split
  · exact h
  · exact h'

theorem lift {g : σ → Option (α × σ)}
    (h : ∀ s log a s', I s log → g s = some (a, s') → I s' log) : Keeps K J I (lift g) := by
  intro s log hI _
  refine ⟨by simp, fun a s' hrun => ?_⟩
  simpa using h s log a s' hI hrun

theorem reads {g : σ → Option α} : Keeps K J I (reads g) := by
  refine lift fun s log a s' hI h => ?_
  obtain ⟨b, -, heq⟩ := Option.bind_eq_some_iff.mp h
  cases heq
  exact hI

theorem update {g : σ → Option σ} (h : ∀ s log s', I s log → g s = some s' → I s' log) :
    Keeps K J I (update g) := by
  refine lift fun s log a s' hI hs => ?_
  obtain ⟨t, ht, heq⟩ := Option.bind_eq_some_iff.mp hs
  cases heq
  exact h s log _ hI ht

end Keeps

/-- From `s` the computation returns, and `P` holds of everything it logs. -/
structure Returns (P : ω → Prop) (m : Logged σ ω α) (s : σ) : Prop where
  run : ∃ a s', m.run s = some (a, s')
  log : ∀ x ∈ m.log s, P x

namespace Returns

variable {P : ω → Prop} {m : Logged σ ω α} {f : α → Logged σ ω β} {s s' : σ} {a : α}

theorem pure (a : α) (s : σ) : Returns P (Pure.pure a : Logged σ ω α) s :=
  ⟨⟨a, s, rfl⟩, by simp⟩

theorem bind (hrun : m.run s = some (a, s')) (hlog : ∀ x ∈ m.log s, P x)
    (hf : Returns P (f a) s') : Returns P (m >>= f) s where
  run := by
    obtain ⟨b, s'', h⟩ := hf.run
    exact ⟨b, s'', by rw [run_bind, hrun, Option.bind_some, h]⟩
  log := by
    intro x hx
    rw [log_bind_of_run m f s hrun, List.mem_append] at hx
    rcases hx with hx | hx
    · exact hlog x hx
    · exact hf.log x hx

theorem reads_bind {g : σ → Option α} (hread : g s = some a) (hf : Returns P (f a) s) :
    Returns P (reads g >>= f) s :=
  bind (by rw [run_reads, hread, Option.bind_some]) (by simp) hf

theorem update_bind {g : σ → Option σ} {f : Unit → Logged σ ω β} (hstep : g s = some s')
    (hf : Returns P (f ()) s') : Returns P (update g >>= f) s :=
  bind (by rw [run_update, hstep, Option.bind_some]) (by simp) hf

theorem reads {g : σ → Option α} (hread : g s = some a) : Returns P (reads g) s :=
  ⟨⟨a, s, by rw [run_reads, hread, Option.bind_some]⟩, by simp⟩

theorem imp {Q : ω → Prop} (h : Returns P m s) (himp : ∀ x, P x → Q x) : Returns Q m s :=
  ⟨h.run, fun x hx => himp x (h.log x hx)⟩

end Returns

end Logged

/-- A computation that logs states it passes. -/
abbrev Traced (σ : Type) : Type → Type := Logged σ σ

end UserLevelOs.Lib
