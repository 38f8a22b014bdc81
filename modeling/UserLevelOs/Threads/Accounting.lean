import UserLevelOs.Threads.Usage
import UserLevelOs.Threads.Accounts

/-!
# The account of run times

`worker_yield` adds the time since the dispatch to what the thread has used of its quantum, and
if that comes to a quantum or more, counts one quantum and starts again from zero.  What goes
beyond one quantum is lost.

## Main definitions

* `Clocked` — a machine with an exact clock.
* `Clocked.Accounted` — quantums and remainder tell the time a thread has executed.
* `Clocked.OrderedByTime` — `compareUsage` compares these times.
* `Clocked.OnlyYields`, `Clocked.WithinQuantum`.
* `Clocked.Balanced` — the invariant.

## Main statements

* `accounted_of_execution`.
* `accounted_fails`.
-/

namespace UserLevelOs.Threads

open UserLevelOs.Lib Machine

/-- A machine, and the microseconds each thread has executed from a dispatch to a reading of the
clock in `worker_yield`. -/
structure Clocked where
  machine : Machine
  ran : TcbPtr → ℕ

/-- An event, and the microseconds since the running thread was dispatched. -/
structure TimedEvent where
  event : Event
  micros : ℕ

/-- The event, with what `worker_yield` makes of the time. -/
def TimedEvent.measured (e : TimedEvent) : Event :=
  match e.event with
  | .proceed _ => .proceed (UInt32.ofNat e.micros)
  | event => event

namespace Clocked

variable {policy : Policy} {c c' : Clocked} {s s' : Machine} {p q : TcbPtr} {e : TimedEvent}
  {garbage : Garbage} {es : List TimedEvent}

/-- The next step reads the clock for the thread. -/
def reads (s : Machine) (e : Event) (p : TcbPtr) : Bool :=
  match s.cpu, e, s.ctl p with
  | .thread, .proceed _, .yield .add _ => s.running == some p
  | _, _, _ => false

def exec (policy : Policy) (c : Clocked) (e : TimedEvent) : Except Fault Clocked := do
  let machine ← c.machine.exec policy e.measured
  return { machine, ran := fun p => if reads c.machine e.event p then c.ran p + e.micros else c.ran p }

def init (garbage : Garbage) : Clocked := { machine := initLibrary garbage, ran := fun _ => 0 }

/-- The thread is not between the statements of a `worker_yield`. -/
def Settled (s : Machine) (p : TcbPtr) : Prop := ∀ pc caller, s.ctl p = .yield pc caller → pc = .add

/-- After each yield, quantums and remainder make up the time the thread has executed. -/
def Accounted (c : Clocked) : Prop :=
  ∀ p < c.machine.allocated, Settled c.machine p →
    (c.machine.tcbAt p).quantumsElapsed.toNat * TIME_QUANTUM +
      (c.machine.tcbAt p).quantumAmtUsed.toNat = c.ran p

/-- The thread that goes first is one that has executed no longer. -/
def OrderedByTime (c : Clocked) : Prop :=
  ∀ p < c.machine.allocated, ∀ q < c.machine.allocated,
    Settled c.machine p → Settled c.machine q →
      (compareUsage (c.machine.tcbAt p) (c.machine.tcbAt q) = true ↔ c.ran p ≤ c.ran q)

/-- Threads leave the processor by a call of the library, not by the signal. -/
def OnlyYields (_ : Clocked) (e : TimedEvent) : Prop := e.event ≠ .signal

/-- What is added at a yield does not take the thread beyond its quantum, and the quantums can be
counted; with multilevel queues no boost is due. -/
def WithinQuantum (policy : Policy) (c : Clocked) (e : TimedEvent) : Prop :=
  (∀ p, reads c.machine e.event p = true →
    (c.machine.tcbAt p).quantumAmtUsed.toNat + e.micros < TIME_QUANTUM ∨
      (c.machine.tcbAt p).quantumAmtUsed.toNat + e.micros = TIME_QUANTUM ∧
        (c.machine.tcbAt p).quantumsElapsed.toNat + 1 < 2 ^ 32) ∧
  (policy = .mlfq → e.event = .schedule →
    c.machine.totalQuantumsElapsed.toNat < sValueDecayUsageConst)

/-- What quantums and remainder say, by where the thread stands. -/
def Balance (quantums amt ran : ℕ) : Ctl → Prop
  | .yield .test _ => quantums * TIME_QUANTUM + amt = ran ∧
      (amt < TIME_QUANTUM ∨ amt = TIME_QUANTUM ∧ quantums + 1 < 2 ^ 32)
  | .yield .setFull _ => quantums * TIME_QUANTUM + amt = ran ∧ amt = TIME_QUANTUM ∧
      quantums + 1 < 2 ^ 32
  | .yield .reset _ => quantums * TIME_QUANTUM + amt = ran ∧ amt = TIME_QUANTUM ∧
      quantums + 1 < 2 ^ 32
  | .yield .countOwn _ => (quantums + 1) * TIME_QUANTUM = ran ∧ amt = 0 ∧ quantums + 1 < 2 ^ 32
  | _ => quantums * TIME_QUANTUM + amt = ran ∧ amt < TIME_QUANTUM

/-- What a quantum used up says, with multilevel queues: the scheduler has yet to hear of it. -/
def Reported (amt : ℕ) (cpu : Cpu) : Ctl → Prop
  | .yield .reset _ => cpu = .thread
  | .yield .countOwn _ | .yield .countAll _ | .yield .swap _ => cpu = .thread ∧ amt = 0
  | .resume _ => cpu = .scheduler ∧ amt = 0
  | _ => False

/-- The account of each thread is in order. -/
structure Balanced (policy : Policy) (c : Clocked) : Prop where
  balance : ∀ p, Balance (c.machine.tcbAt p).quantumsElapsed.toNat
    (c.machine.tcbAt p).quantumAmtUsed.toNat (c.ran p) (c.machine.ctl p)
  unknown : ∀ p, c.machine.allocated ≤ p → c.ran p = 0
  reported : policy = .mlfq → ∀ p, (c.machine.tcbAt p).timeQuantumUsedUpFully = true →
    c.machine.running = some p ∧
      Reported (c.machine.tcbAt p).quantumAmtUsed.toNat c.machine.cpu (c.machine.ctl p)

theorem reads_eq {e : Event} (h : reads s e p = true) :
    s.cpu = .thread ∧ s.running = some p ∧ ∃ x caller, e = .proceed x ∧ s.ctl p = .yield .add caller := by
  unfold reads at h
  split at h
  · next x caller hcpu hctl => exact ⟨hcpu, by simpa using h, x, caller, rfl, hctl⟩
  · cases h

theorem balance_of_settled {quantums amt ran : ℕ} (h : Balance quantums amt ran (s.ctl p))
    (hsettled : Settled s p) : quantums * TIME_QUANTUM + amt = ran ∧ amt < TIME_QUANTUM := by
  unfold Settled at hsettled
  cases hctl : s.ctl p with
  | yield pc caller =>
    obtain rfl := hsettled pc caller hctl
    simpa [hctl, Balance] using h
  | _ => simpa [hctl, Balance] using h

/-- Quantums and remainder in order compare like the times they stand for. -/
theorem compareUsage_iff_time {a b : Tcb} {m n : ℕ} (ha : a.quantumAmtUsed.toNat < TIME_QUANTUM)
    (hb : b.quantumAmtUsed.toNat < TIME_QUANTUM)
    (hm : a.quantumsElapsed.toNat * TIME_QUANTUM + a.quantumAmtUsed.toNat = m)
    (hn : b.quantumsElapsed.toNat * TIME_QUANTUM + b.quantumAmtUsed.toNat = n) :
    compareUsage a b = true ↔ m ≤ n := by
  rw [compareUsage_iff, Tcb.usage, Tcb.usage, Prod.Lex.toLex_le_toLex]
  simp only [TIME_QUANTUM] at *
  omega

namespace Balanced

theorem accounted (h : Balanced policy c) : c.Accounted := fun p _ hsettled =>
  (balance_of_settled (h.balance p) hsettled).1

theorem orderedByTime (h : Balanced policy c) : c.OrderedByTime := by
  intro p _ q _ hp hq
  obtain ⟨hsum, hlt⟩ := balance_of_settled (h.balance p) hp
  obtain ⟨hsum', hlt'⟩ := balance_of_settled (h.balance q) hq
  exact compareUsage_iff_time hlt hlt' hsum hsum'

/-! ### Steps of a thread -/

/-- A step in which no clock is read. -/
theorem unread (h : Balanced policy c) {s' : Machine} (hread : ∀ p, reads c.machine e.event p = false)
    (hbalance : ∀ p, Balance (s'.tcbAt p).quantumsElapsed.toNat (s'.tcbAt p).quantumAmtUsed.toNat
      (c.ran p) (s'.ctl p))
    (hallocated : c.machine.allocated ≤ s'.allocated)
    (hreported : policy = .mlfq → ∀ p, (s'.tcbAt p).timeQuantumUsedUpFully = true →
      s'.running = some p ∧ Reported (s'.tcbAt p).quantumAmtUsed.toNat s'.cpu (s'.ctl p)) :
    Balanced policy
      ⟨s', fun p => if reads c.machine e.event p then c.ran p + e.micros else c.ran p⟩ := by
  refine ⟨fun p => ?_, fun p hp => ?_, hreported⟩
  · simpa [hread] using hbalance p
  · simpa [hread] using h.unknown p (hallocated.trans hp)

/-- The thread that runs has told the scheduler before it runs again. -/
theorem not_reported (h : Balanced policy c) (hpol : policy = .mlfq)
    (hcpu : c.machine.cpu = .thread) (hctl : ∀ pc caller, c.machine.ctl p ≠ .yield pc caller) :
    (c.machine.tcbAt p).timeQuantumUsedUpFully = false := by
  by_contra hflag
  obtain ⟨-, hreported⟩ := h.reported hpol p (by simpa using hflag)
  cases hp : c.machine.ctl p with
  | yield pc caller => exact hctl pc caller hp
  | resume caller => simp [hp, Reported, hcpu] at hreported
  | _ => simp [hp, Reported] at hreported

/-- A thread that does not run has nothing to tell. -/
theorem not_reported_other (h : Balanced policy c) (hpol : policy = .mlfq)
    (hrun : c.machine.running ≠ some p) :
    (c.machine.tcbAt p).timeQuantumUsedUpFully = false := by
  by_contra hflag
  exact hrun (h.reported hpol p (by simpa using hflag)).1

theorem steady (h : Balanced policy c) {s' : Machine} (hcpu : c.machine.cpu = .thread)
    (hrun : c.machine.running = some p)
    (hnot : ∀ pc caller, c.machine.ctl p ≠ .yield pc caller) (hsteady : Steady p c.machine s')
    (hread : ∀ p, reads c.machine e.event p = false) :
    Balanced policy
      ⟨s', fun p => if reads c.machine e.event p then c.ran p + e.micros else c.ran p⟩ := by
  have hspent : ∀ q, (s'.tcbAt q).quantumsElapsed = (c.machine.tcbAt q).quantumsElapsed ∧
      (s'.tcbAt q).quantumAmtUsed = (c.machine.tcbAt q).quantumAmtUsed ∧
      (s'.tcbAt q).timeQuantumUsedUpFully = (c.machine.tcbAt q).timeQuantumUsedUpFully :=
    fun q => by simpa [Tcb.spent] using hsteady.spent q
  refine h.unread hread (fun q => ?_) hsteady.allocated.ge fun hpol q hflag => ?_
  · obtain ⟨hquantums, hamt, -⟩ := hspent q
    rw [hquantums, hamt]
    by_cases hq : q = p
    · subst hq
      have hsettled : Settled c.machine q := fun pc caller hctl => absurd hctl (hnot pc caller)
      obtain ⟨hsum, hlt⟩ := balance_of_settled (h.balance q) hsettled
      have hsettled' : ∀ pc caller, s'.ctl q = .yield pc caller → pc = .add := fun pc caller hctl =>
        (hsteady.fresh pc caller hctl).resolve_right (hnot pc caller)
      cases hctl : s'.ctl q with
      | yield pc caller =>
        obtain rfl := hsettled' pc caller hctl
        exact ⟨hsum, hlt⟩
      | _ => exact ⟨hsum, hlt⟩
    · rw [hsteady.ctl q hq]
      exact h.balance q
  · rw [(hspent q).2.2] at hflag
    by_cases hq : q = p
    · rw [hq, h.not_reported hpol hcpu hnot] at hflag
      cases hflag
    · rw [h.not_reported_other hpol (by simpa [hrun, eq_comm] using hq)] at hflag
      cases hflag

/-- A step that concerns the running thread `p` alone. -/
theorem alone (h : Balanced policy c) {s' : Machine} (hrun : c.machine.running = some p)
    (hpa : p < c.machine.allocated) (hallocated : s'.allocated = c.machine.allocated)
    (hother : ∀ q ≠ p, s'.tcbAt q = c.machine.tcbAt q ∧ s'.ctl q = c.machine.ctl q)
    (hself : Balance (s'.tcbAt p).quantumsElapsed.toNat (s'.tcbAt p).quantumAmtUsed.toNat
      (if reads c.machine e.event p then c.ran p + e.micros else c.ran p) (s'.ctl p))
    (hreported : policy = .mlfq → (s'.tcbAt p).timeQuantumUsedUpFully = true →
      s'.running = some p ∧ Reported (s'.tcbAt p).quantumAmtUsed.toNat s'.cpu (s'.ctl p)) :
    Balanced policy
      ⟨s', fun p => if reads c.machine e.event p then c.ran p + e.micros else c.ran p⟩ := by
  have hread : ∀ q ≠ p, reads c.machine e.event q = false := fun q hq => by
    by_contra hread
    obtain ⟨-, hrun', -⟩ := reads_eq (by simpa using hread)
    exact hq (by simpa [hrun, eq_comm] using hrun')
  refine ⟨fun q => ?_, fun q hq => ?_, fun hpol q hflag => ?_⟩
  · by_cases hq : q = p
    · exact hq ▸ hself
    · obtain ⟨htcb, hctl⟩ := hother q hq
      simpa [hread q hq, htcb, hctl] using h.balance q
  · have hqa : c.machine.allocated ≤ q := hallocated ▸ hq
    have hne : q ≠ p := fun heq => absurd hpa (heq ▸ hqa).not_gt
    simpa [hread q hne] using h.unknown q hqa
  · by_cases hq : q = p
    · exact hq ▸ hreported hpol (hq ▸ hflag)
    · have hflag' : (c.machine.tcbAt q).timeQuantumUsedUpFully = true := (hother q hq).1 ▸ hflag
      rw [h.not_reported_other hpol (by simpa [hrun, eq_comm] using hq)] at hflag'
      cases hflag'

/-- The statements of `worker_yield`. -/
theorem yieldStmt {pc : YieldAt} {caller : Caller} {x : UInt32} (h : Balanced policy c)
    (hcpu : c.machine.cpu = .thread) (hrun : c.machine.running = some p)
    (hpa : p < c.machine.allocated) (hctl : c.machine.ctl p = .yield pc caller)
    (he : e.event = .proceed x) (hwithin : WithinQuantum policy c e) :
    Balanced policy ⟨c.machine.yieldStmt p (UInt32.ofNat e.micros) caller pc,
      fun p => if reads c.machine e.event p then c.ran p + e.micros else c.ran p⟩ := by
  have hread : reads c.machine e.event p = decide (pc = .add) := by
    cases pc <;> simp [reads, hcpu, he, hctl, hrun]
  have hbalance := h.balance p
  have hreported : policy = .mlfq → (c.machine.tcbAt p).timeQuantumUsedUpFully = true →
      Reported (c.machine.tcbAt p).quantumAmtUsed.toNat .thread (.yield pc caller) :=
    fun hpol hflag => hcpu ▸ hctl ▸ (h.reported hpol p hflag).2
  rw [hctl] at hbalance
  have hother : ∀ q ≠ p, (c.machine.yieldStmt p (UInt32.ofNat e.micros) caller pc).tcbAt q =
      c.machine.tcbAt q ∧ (c.machine.yieldStmt p (UInt32.ofNat e.micros) caller pc).ctl q =
        c.machine.ctl q := fun q hq => by
    cases pc <;> simp [Machine.yieldStmt, hq]
  have hallocated : (c.machine.yieldStmt p (UInt32.ofNat e.micros) caller pc).allocated =
      c.machine.allocated := by
    cases pc <;> rfl
  refine h.alone hrun hpa hallocated hother ?_ ?_
  · rw [hread]
    cases pc with
    | add =>
      obtain ⟨hsum, -⟩ := hbalance
      have hbound := hwithin.1 p (by simp [hread])
      have hadd : ((c.machine.tcbAt p).quantumAmtUsed + UInt32.ofNat e.micros).toNat =
          (c.machine.tcbAt p).quantumAmtUsed.toNat + e.micros := by
        rw [UInt32.toNat_add, UInt32.toNat_ofNat']
        simp only [TIME_QUANTUM] at hbound
        omega
      simp only [Machine.yieldStmt, setTcb_tcbAt, goto_tcbAt, goto_ctl, Function.update_self,
        decide_true, if_true, Balance, hadd]
      exact ⟨by omega, hbound⟩
    | test =>
      obtain ⟨hsum, hbound⟩ := hbalance
      by_cases hfull : TIME_QUANTUM ≤ (c.machine.tcbAt p).quantumAmtUsed.toNat
      · have heq := hbound.resolve_left hfull.not_gt
        simpa [Machine.yieldStmt, hfull, Balance] using ⟨hsum, heq⟩
      · simpa [Machine.yieldStmt, hfull, Balance] using ⟨hsum, Nat.lt_of_not_le hfull⟩
    | setFull => simpa [Machine.yieldStmt, Balance] using hbalance
    | reset =>
      obtain ⟨hsum, hfull, hlt⟩ := hbalance
      simp only [Machine.yieldStmt, setTcb_tcbAt, goto_tcbAt, goto_ctl, Function.update_self,
        Balance]
      refine ⟨?_, rfl, hlt⟩
      simp only [hfull] at hsum
      simpa [Nat.add_mul] using hsum
    | countOwn =>
      obtain ⟨hsum, hzero, hlt⟩ := hbalance
      have hone : ((c.machine.tcbAt p).quantumsElapsed + 1).toNat =
          (c.machine.tcbAt p).quantumsElapsed.toNat + 1 := by
        rw [UInt32.toNat_add]
        exact Nat.mod_eq_of_lt hlt
      simp only [Machine.yieldStmt, setTcb_tcbAt, goto_tcbAt, goto_ctl, Function.update_self,
        Balance, hone, hzero]
      exact ⟨by simpa using hsum, by decide⟩
    | countAll => simpa [Machine.yieldStmt, Balance] using hbalance
    | swap => simpa [Machine.yieldStmt, Balance] using hbalance
  · intro hpol hflag
    cases pc with
    | add => exact (hreported hpol (by simpa [Machine.yieldStmt] using hflag)).elim
    | test => exact (hreported hpol (by simpa [Machine.yieldStmt] using hflag)).elim
    | setFull => exact ⟨hrun, by simpa [Machine.yieldStmt, Reported] using hcpu⟩
    | reset => exact ⟨hrun, by simpa [Machine.yieldStmt, Reported] using hcpu⟩
    | countOwn =>
      have hold := hreported hpol (by simpa [Machine.yieldStmt] using hflag)
      exact ⟨hrun, by simpa [Machine.yieldStmt, Reported, hcpu] using hold⟩
    | countAll =>
      have hold := hreported hpol (by simpa [Machine.yieldStmt] using hflag)
      exact ⟨hrun, by simpa [Machine.yieldStmt, Reported, hcpu] using hold⟩
    | swap =>
      have hold := hreported hpol (by simpa [Machine.yieldStmt] using hflag)
      exact ⟨hrun, by simpa [Machine.yieldStmt, Reported] using hold⟩

theorem workerCreate {thread : Addr} (h : Balanced policy c) (hcpu : c.machine.cpu = .thread)
    (hrun : c.machine.running = some p) (hctl : c.machine.ctl p = .program)
    (hfree : c.machine.ctl c.machine.allocated = .program)
    (hread : ∀ p, reads c.machine e.event p = false) :
    Balanced policy ⟨c.machine.workerCreate p thread,
      fun p => if reads c.machine e.event p then c.ran p + e.micros else c.ran p⟩ := by
  have hold : ∀ q ≠ c.machine.allocated,
      (c.machine.workerCreate p thread).tcbAt q = c.machine.tcbAt q := fun q hq => by
    simp [Machine.workerCreate, hq]
  refine h.unread hread (fun q => ?_) (Nat.le_succ _) fun hpol q hflag => ?_
  · have hctl' : (c.machine.workerCreate p thread).ctl q = c.machine.ctl q ∨
        c.machine.ctl q = .program ∧ (c.machine.workerCreate p thread).ctl q =
          .create c.machine.allocated := by
      by_cases hq : q = p
      · exact .inr ⟨hq ▸ hctl, by simp [Machine.workerCreate, hq]⟩
      · exact .inl (by simp [Machine.workerCreate, hq])
    by_cases hnew : q = c.machine.allocated
    · have hzero := h.unknown q hnew.ge
      have hprogram : c.machine.ctl q = .program := hnew ▸ hfree
      rcases hctl' with heq | ⟨-, heq⟩
      · rw [heq, hprogram, hzero]
        simp [Machine.workerCreate, hnew, newTcb, Balance]
      · rw [heq, hzero]
        simp [Machine.workerCreate, hnew, newTcb, Balance]
    · rw [hold q hnew]
      have hbalance := h.balance q
      rcases hctl' with heq | ⟨hprogram, heq⟩
      · rwa [heq]
      · rw [heq]
        rw [hprogram] at hbalance
        exact hbalance
  · by_cases hnew : q = c.machine.allocated
    · simp [Machine.workerCreate, hnew, newTcb] at hflag
    · rw [hold q hnew] at hflag
      by_cases hq : q = p
      · rw [hq, h.not_reported hpol hcpu (by simp [hctl])] at hflag
        cases hflag
      · rw [h.not_reported_other hpol (by simpa [hrun, eq_comm] using hq)] at hflag
        cases hflag

/-! ### The other contexts -/

/-- The remainder that goes when a thread is put a level down is zero already. -/
theorem requeued (h : Balanced .mlfq c) (hcpu : c.machine.cpu = .scheduler) (q : TcbPtr) :
    (c.machine.requeued q).quantumsElapsed = (c.machine.tcbAt q).quantumsElapsed ∧
      (c.machine.requeued q).quantumAmtUsed = (c.machine.tcbAt q).quantumAmtUsed ∧
      (Policy.mlfq = .mlfq → (c.machine.requeued q).timeQuantumUsedUpFully = false) := by
  by_cases hrun : c.machine.running = some q
  · have hdemoted : c.machine.requeued q = demote (c.machine.tcbAt q) := by
      simp [Machine.requeued, hrun]
    rw [hdemoted]
    unfold demote
    split
    · next hflag =>
      have hreported := (h.reported rfl q hflag).2
      have hzero : (c.machine.tcbAt q).quantumAmtUsed = 0 := by
        rw [hcpu] at hreported
        cases hctl : c.machine.ctl q with
        | yield pc caller => cases pc <;> simp [hctl, Reported] at hreported
        | resume caller =>
          rw [hctl] at hreported
          exact UInt32.toNat_inj.mp hreported.2
        | _ => simp [hctl, Reported] at hreported
      exact ⟨rfl, hzero.symm, fun _ => rfl⟩
    · next hflag => exact ⟨rfl, rfl, fun _ => by simpa using hflag⟩
  · have hsame : c.machine.requeued q = c.machine.tcbAt q := by
      cases hnow : c.machine.running with
      | none => simp [Machine.requeued, hnow]
      | some r =>
        have hne : q ≠ r := fun heq => hrun (heq ▸ hnow)
        simp [Machine.requeued, hnow, hne]
    rw [hsame]
    exact ⟨rfl, rfl, fun _ => h.not_reported_other rfl hrun⟩

/-- A round of the scheduler, when no boost is due. -/
theorem schedule {s' : Machine} (h : Balanced policy c) (hcpu : c.machine.cpu = .scheduler)
    (hdue : policy = .mlfq → c.machine.totalQuantumsElapsed.toNat < sValueDecayUsageConst)
    (hround : Rescheduled c.machine s') (hok : c.machine.schedule policy = .ok s')
    (hread : ∀ p, reads c.machine e.event p = false) :
    Balanced policy
      ⟨s', fun p => if reads c.machine e.event p then c.ran p + e.micros else c.ran p⟩ := by
  have htcb := schedule_requeued hdue hok
  have hsame : ∀ q, (s'.tcbAt q).quantumsElapsed = (c.machine.tcbAt q).quantumsElapsed ∧
      (s'.tcbAt q).quantumAmtUsed = (c.machine.tcbAt q).quantumAmtUsed ∧
      (policy = .mlfq → (s'.tcbAt q).timeQuantumUsedUpFully = false) := fun q => by
    rw [htcb]
    cases policy with
    | psjf => exact ⟨rfl, rfl, fun hpol => by cases hpol⟩
    | mlfq =>
      rw [if_pos rfl]
      exact h.requeued hcpu q
  refine h.unread hread (fun q => ?_) hround.allocated.ge fun hpol q hflag => ?_
  · obtain ⟨hquantums, hamt, -⟩ := hsame q
    rw [hquantums, hamt, hround.ctl]
    exact h.balance q
  · rw [(hsame q).2.2 hpol] at hflag
    cases hflag

theorem clean {s' : Machine} (h : Balanced policy c)
    (hok : c.machine.cleanExitedWorkerThread p = .ok s')
    (hctl : ∀ q, c.machine.running = some q → c.machine.ctl q = .program)
    (hread : ∀ p, reads c.machine e.event p = false) :
    Balanced policy
      ⟨s', fun p => if reads c.machine e.event p then c.ran p + e.micros else c.ran p⟩ := by
  obtain ⟨l, notes, -, -, rfl⟩ := cleanExitedWorkerThread_ok hok
  have hsame : ∀ q, (woken c.machine.tcbAt (c.machine.tcbAt p).threadId l.nodes q).spent =
      (c.machine.tcbAt q).spent := fun q => by
    rw [woken_eq]
    rfl
  simp only [Tcb.spent, Prod.mk.injEq] at hsame
  refine h.unread hread (fun q => ?_) le_rfl fun hpol q hflag => ?_
  · obtain ⟨hquantums, hamt, -⟩ := hsame q
    change Balance (woken c.machine.tcbAt (c.machine.tcbAt p).threadId l.nodes q).quantumsElapsed.toNat
      (woken c.machine.tcbAt (c.machine.tcbAt p).threadId l.nodes q).quantumAmtUsed.toNat (c.ran q)
      (c.machine.ctl q)
    rw [hquantums, hamt]
    exact h.balance q
  · have hflag' : (c.machine.tcbAt q).timeQuantumUsedUpFully = true := (hsame q).2.2 ▸ hflag
    obtain ⟨hrun, hreported⟩ := h.reported hpol q hflag'
    rw [hctl q hrun] at hreported
    exact hreported.elim

theorem exec (h : Balanced policy c) (hp : c.machine.Placed policy)
    (hfree : c.machine.ctl c.machine.allocated = .program) (hyields : OnlyYields c e)
    (hwithin : WithinQuantum policy c e) (hok : c.exec policy e = .ok c') : Balanced policy c' := by
  obtain ⟨s', hstep, hok⟩ := bind_eq_ok.mp hok
  cases hok
  have hidle : c.machine.cpu ≠ .thread → ∀ p, reads c.machine e.event p = false := fun hcpu p => by
    by_contra hread
    exact hcpu (reads_eq (by simpa using hread)).1
  rcases exec_cases hstep with ⟨p, hcpu, hrun, hok⟩ | ⟨he, hcpu, hok⟩ | ⟨p, -, hcpu, hrun, hok⟩
  · have hpa := hp.lt_allocated (Placed.mem_running hrun)
    have hunread : (∀ pc caller, c.machine.ctl p ≠ .yield pc caller) →
        ∀ q, reads c.machine e.event q = false := fun hnot q => by
      by_contra hread
      obtain ⟨-, hrun', -, caller, -, hctl⟩ := reads_eq (by simpa using hread)
      obtain rfl : q = p := by simpa [hrun, eq_comm] using hrun'
      exact hnot _ _ hctl
    rcases execThread_spends hok with ⟨pc, caller, elapsed, hctl, he, rfl⟩ | ⟨he, -⟩ |
      ⟨thread, hctl, rfl⟩ | ⟨hnot, hsteady⟩
    · obtain ⟨x, hevent, rfl⟩ : ∃ x, e.event = .proceed x ∧ elapsed = UInt32.ofNat e.micros := by
        unfold TimedEvent.measured at he
        split at he
        · next x hevent =>
          cases he
          exact ⟨x, hevent, rfl⟩
        · next hother => exact absurd he (hother elapsed)
      exact h.yieldStmt hcpu hrun hpa hctl hevent hwithin
    · unfold TimedEvent.measured at he
      split at he
      · cases he
      · exact absurd he hyields
    · exact h.workerCreate hcpu hrun hctl hfree (hunread (by simp [hctl]))
    · exact h.steady hcpu hrun hnot hsteady (hunread hnot)
  · have hevent : e.event = .schedule := by
      unfold TimedEvent.measured at he
      split at he
      · cases he
      · exact he
    exact h.schedule hcpu (fun hpol => hwithin.2 hpol hevent) (hp.rescheduled hok) hok
      (hidle (by simp [hcpu]))
  · refine h.clean hok (fun q hq => ?_) (hidle (by simp [hcpu]))
    exact (hp.cleaning hcpu q hq).2

end Balanced

/-- The machine alone. -/
theorem machine_of_execution {ok : Clocked → TimedEvent → Prop}
    (h : Execution (Clocked.exec policy) ok (init garbage) es c) :
    Execution (Machine.exec policy) (fun _ _ => True) (initLibrary garbage)
      (es.map TimedEvent.measured) c.machine := by
  induction h with
  | start => exact .start
  | snoc _ _ hstep ih =>
    obtain ⟨s', hmachine, hok⟩ := bind_eq_ok.mp hstep
    cases hok
    simpa using ih.snoc trivial hmachine

/-- If no yield takes a thread beyond its quantum, quantums and remainder tell the run time of
each thread, and the order by usage is the order by run time. -/
theorem accounted_of_execution
    (h : Execution (Clocked.exec policy) (fun c e => OnlyYields c e ∧ WithinQuantum policy c e)
      (init garbage) es c) : c.Accounted ∧ c.OrderedByTime := by
  have hbalanced : Balanced policy c := by
    induction h with
    | start =>
      refine ⟨fun p => ?_, fun _ _ => rfl, fun _ p hflag => ?_⟩
      · simp [init, initLibrary, newTcb, Balance]
      · simp [init, initLibrary, newTcb] at hflag
    | snoc hes hok hstep ih =>
      have hmachine := machine_of_execution hes
      exact ih.exec (placed_of_execution hmachine) (ctl_of_execution hmachine le_rfl) hok.1 hok.2
        hstep
  exact ⟨hbalanced.accounted, hbalanced.orderedByTime⟩

/-- The main thread makes a thread and waits for it; the thread, alone and with the timer off,
yields `micros` microseconds after its dispatch. -/
def yieldAfter (micros : ℕ) : List TimedEvent :=
  [⟨.call (.create 100), 0⟩, ⟨.proceed 0, 0⟩, ⟨.call (.join 2 200), 0⟩, ⟨.proceed 0, 0⟩,
    ⟨.proceed 0, 0⟩, ⟨.proceed 0, 5⟩, ⟨.proceed 0, 0⟩, ⟨.proceed 0, 0⟩, ⟨.schedule, 0⟩,
    ⟨.call .yield, 0⟩, ⟨.proceed 0, micros⟩, ⟨.proceed 0, 0⟩] ++
  (if micros < TIME_QUANTUM then []
    else [⟨.proceed 0, 0⟩, ⟨.proceed 0, 0⟩, ⟨.proceed 0, 0⟩, ⟨.proceed 0, 0⟩]) ++
  [⟨.proceed 0, 0⟩, ⟨.schedule, 0⟩]

/-- A test that suffices in the build with one queue. -/
def timely (c : Clocked) (e : TimedEvent) : Bool :=
  !(e.event matches .signal) &&
    match c.machine.running with
    | some p => !reads c.machine e.event p ||
        decide ((c.machine.tcbAt p).quantumAmtUsed.toNat + e.micros < TIME_QUANTUM)
    | none => true

theorem withinQuantum_of_test (h : timely c e = true) :
    OnlyYields c e ∧ WithinQuantum .psjf c e := by
  simp only [timely, Bool.and_eq_true] at h
  refine ⟨fun he => ?_, fun p hread => .inl ?_, fun hpol => by cases hpol⟩
  · simp [he] at h
  · obtain ⟨-, hrun, -⟩ := reads_eq hread
    simpa [hrun, hread] using h.2

theorem accounted_yieldAfter :
    ∃ c, Execution (Clocked.exec .psjf) (fun c e => OnlyYields c e ∧ WithinQuantum .psjf c e)
      (init ⟨0, 0, none⟩) (yieldAfter 4000) c ∧ c.machine.running = some 1 ∧
        c.ran 1 = 4000 ∧ c.Accounted ∧ c.OrderedByTime := by
  have hseen : (Execution.replayIf (Clocked.exec .psjf) timely (init ⟨0, 0, none⟩)
      (yieldAfter 4000)).map (Except.map fun c => (c.machine.running, c.ran 1)) =
      some (.ok (some 1, 4000)) := rfl
  obtain ⟨c, hc, hobs⟩ := Execution.of_observedIf (fun _ _ => withinQuantum_of_test) hseen
  simp only [Prod.mk.injEq] at hobs
  exact ⟨c, hc, hobs.1, hobs.2, accounted_of_execution hc⟩

theorem accounted_fails : ¬ ∀ policy garbage es c,
    Execution (Clocked.exec policy) OnlyYields (init garbage) es c → c.Accounted := by
  intro hclaim
  have hseen : (Execution.replayIf (Clocked.exec .psjf) (fun _ e => !(e.event matches .signal))
      (init ⟨0, 0, none⟩) (yieldAfter 25000)).map (Except.map fun c =>
        (decide (1 < c.machine.allocated), c.machine.ctl 1,
          (c.machine.tcbAt 1).quantumsElapsed, (c.machine.tcbAt 1).quantumAmtUsed, c.ran 1)) =
      some (.ok (true, .resume .program, 1, 0, 25000)) := rfl
  have hok : ∀ (c : Clocked) (e : TimedEvent), (!(e.event matches .signal)) = true →
      OnlyYields c e := by
    intro c e htest he
    simp [he] at htest
  obtain ⟨c, hc, hobs⟩ := Execution.of_observedIf hok hseen
  simp only [Prod.mk.injEq, decide_eq_true_eq] at hobs
  obtain ⟨hallocated, hctl, hquantums, hamt, hran⟩ := hobs
  have hsum := hclaim .psjf _ _ c hc 1 hallocated (by simp [Settled, hctl])
  simp [hquantums, hamt, hran] at hsum

end Clocked

end UserLevelOs.Threads
