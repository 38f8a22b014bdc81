import UserLevelOs.Threads.Usage
import UserLevelOs.Threads.Joins

/-!
# The timer

Each round of the scheduler sets the timer for what is left of the quantum of the thread it
dispatches, unless all other threads in `tcbs` wait for a thread to end.  A thread that is made
while the timer is off does not turn it on.

## Main definitions

* `Machine.Elsewhere` — the thread has been made, has not ended and does not run.
* `Machine.Armed` — the timer is on while a thread that is not blocked does not run.
* `Machine.MadeWhileArmed` — no thread is made while the timer is off.
* `Machine.TimerInRange` — the value the timer was set to.
* `Machine.Quota`, `Machine.Idle` — the invariants.

## Main statements

* `timerInRange_of_execution`.
* `armed_of_execution`.
* `armed_fails`.
-/

namespace UserLevelOs.Threads

open UserLevelOs.Lib

namespace Machine

variable {policy : Policy} {s s' : Machine} {p q : TcbPtr} {e : Event} {fuel : ℕ}
  {garbage : Garbage} {es : List Event} {ok : Machine → Event → Prop}

/-- In `tcbs`, in a queue of a level or still in `q_arrival`. -/
def Elsewhere (s : Machine) (q : TcbPtr) : Prop :=
  q ∈ s.tcbs.nodes ∨ q ∈ s.queued ∨ q ∈ s.qArrival.nodes

/-- After the first dispatch, if another thread than the one that runs is not blocked, the timer
is set and its signal has not been handled. -/
def Armed (s : Machine) : Prop :=
  s.schedulerEntered = true → s.cpu = .thread → ∀ p, s.running = some p →
    (∃ q, q ≠ p ∧ s.Elsewhere q ∧ isBlocked (s.tcbAt q) = false) → 0 < s.timer

/-- A thread comes to `q_arrival` only before the first dispatch or while the timer is set, and a
round of the scheduler finds no more threads there than an `unsigned short` can count. -/
def MadeWhileArmed (s : Machine) (e : Event) : Prop :=
  (∀ p q elapsed, s.schedulerEntered = true → s.running = some p → s.ctl p = .create q →
    e = .proceed elapsed → 0 < s.timer) ∧
  (e = .schedule → s.qArrival.nodes.length < 65536)

/-- The statements of `worker_yield` between the reading of the clock and the reset. -/
def Ctl.counts : Ctl → Bool
  | .yield .test _ | .yield .setFull _ | .yield .reset _ => true
  | _ => false

/-- No thread has used up a quantum, except one that is about to be told so. -/
def Quota (s : Machine) : Prop :=
  ∀ p, (s.tcbAt p).quantumAmtUsed.toNat < TIME_QUANTUM ∨
    s.running = some p ∧ s.cpu = .thread ∧ Ctl.counts (s.ctl p) = true

/-- A call of `set_timer` for the thread `next` has led here: `next` has not used up its quantum,
and the timer gets what is left of it unless it is to be off. -/
def TimerInRange (s' : Machine) : Prop :=
  ∃ t next, s' = dispatch t next ∧ (t.tcbAt next).quantumAmtUsed.toNat < TIME_QUANTUM ∧
    (t.remainingThreadsBlocked next = false → 1 ≤ s'.timer ∧ s'.timer ≤ TIME_QUANTUM)

/-- While the timer is off all other threads wait for a thread to end. -/
structure Idle (policy : Policy) (s : Machine) : Prop where
  nonneg : 0 ≤ s.timer
  queued : policy = .psjf → s.queued = 0
  others : s.schedulerEntered = true → s.cpu = .thread → ∀ p, s.running = some p → s.timer = 0 →
    ∀ q, q ≠ p → s.Elsewhere q → (s.tcbAt q).joinTid ≠ NONEXISTENT_THREAD

namespace Quota

/-- Only the running thread may have used more. -/
theorem lt (h : s.Quota) (hnot : s.running = some p → s.cpu = .thread →
    Ctl.counts (s.ctl p) = false) : (s.tcbAt p).quantumAmtUsed.toNat < TIME_QUANTUM := by
  rcases h p with hlt | ⟨hrun, hcpu, hcounts⟩
  · exact hlt
  · simp [hnot hrun hcpu] at hcounts

theorem yieldStmt {pc : YieldAt} {caller : Caller} {elapsed : UInt32} (h : s.Quota)
    (hrun : s.running = some p) (hcpu : s.cpu = .thread) (hctl : s.ctl p = .yield pc caller) :
    (s.yieldStmt p elapsed caller pc).Quota := by
  have hother : ∀ q, q ≠ p → (s.tcbAt q).quantumAmtUsed.toNat < TIME_QUANTUM := fun q hq =>
    h.lt fun hrun' => absurd (by simpa [hrun, eq_comm] using hrun') hq
  intro q
  by_cases hq : q = p
  · subst hq
    have hlow : Ctl.counts (s.ctl q) = false →
        (s.tcbAt q).quantumAmtUsed.toNat < TIME_QUANTUM := fun hnot => h.lt fun _ _ => hnot
    cases pc with
    | add => exact .inr ⟨hrun, hcpu, by simp [Machine.yieldStmt, Ctl.counts]⟩
    | test =>
      by_cases hfull : TIME_QUANTUM ≤ (s.tcbAt q).quantumAmtUsed.toNat
      · exact .inr ⟨hrun, hcpu, by simp [Machine.yieldStmt, hfull, Ctl.counts]⟩
      · exact .inl (Nat.lt_of_not_le hfull)
    | setFull => exact .inr ⟨hrun, hcpu, by simp [Machine.yieldStmt, Ctl.counts]⟩
    | reset => exact .inl (by simp [Machine.yieldStmt])
    | countOwn => exact .inl (by simpa [Machine.yieldStmt] using hlow (by rw [hctl]; rfl))
    | countAll => exact .inl (hlow (by rw [hctl]; rfl))
    | swap => exact .inl (hlow (by rw [hctl]; rfl))
  · left
    have := hother q hq
    cases pc <;> simpa [Machine.yieldStmt, hq] using this

theorem steady (h : s.Quota) (hrun : s.running = some p)
    (hnot : ∀ pc caller, s.ctl p ≠ .yield pc caller) (hsteady : Steady p s s') : s'.Quota := by
  intro q
  have hsame : (s'.tcbAt q).quantumAmtUsed = (s.tcbAt q).quantumAmtUsed :=
    congrArg (fun spent => spent.2.1) (hsteady.spent q)
  left
  rw [hsame]
  refine h.lt fun hrun' _ => ?_
  obtain rfl : q = p := by simpa [hrun, eq_comm] using hrun'
  cases hctl : s.ctl q with
  | yield pc caller => exact absurd hctl (hnot pc caller)
  | _ => rfl

/-- After a round no thread at all has used up a quantum. -/
theorem rescheduled (h : s.Quota) (hcpu : s.cpu = .scheduler) (hok : s.schedule policy = .ok s')
    (q : TcbPtr) : (s'.tcbAt q).quantumAmtUsed.toNat < TIME_QUANTUM := by
  have hlt : (s.tcbAt q).quantumAmtUsed.toNat < TIME_QUANTUM := h.lt (by simp [hcpu])
  rcases schedule_spares hok q with heq | hzero
  · rwa [heq]
  · simp [hzero]

theorem schedule (h : s.Quota) (hcpu : s.cpu = .scheduler) (hok : s.schedule policy = .ok s') :
    s'.Quota :=
  fun q => .inl (h.rescheduled hcpu hok q)

theorem exec (h : s.Quota) (hok : s.exec policy e = .ok s') : s'.Quota := by
  rcases exec_cases hok with ⟨p, hcpu, hrun, hok⟩ | ⟨-, hcpu, hok⟩ | ⟨p, -, hcpu, -, hok⟩
  · rcases execThread_spends hok with ⟨pc, caller, elapsed, hctl, -, rfl⟩ | ⟨-, rfl⟩ |
      ⟨thread, hctl, rfl⟩ | ⟨hnot, hsteady⟩
    · exact h.yieldStmt hrun hcpu hctl
    · intro q
      left
      by_cases hq : q = p
      · simp [timerSignalHandler, hq]
      · have hlt : (s.tcbAt q).quantumAmtUsed.toNat < TIME_QUANTUM :=
          h.lt fun hrun' => absurd (by simpa [hrun, eq_comm] using hrun') hq
        simpa [timerSignalHandler, hq] using hlt
    · intro q
      left
      by_cases hnew : q = s.allocated
      · simp [workerCreate, hnew, newTcb]
      · have hlt : (s.tcbAt q).quantumAmtUsed.toNat < TIME_QUANTUM := h.lt fun hrun' _ => by
          obtain rfl : q = p := by simpa [hrun, eq_comm] using hrun'
          rw [hctl]
          rfl
        simpa [workerCreate, hnew] using hlt
    · exact h.steady hrun hnot hsteady
  · exact h.schedule hcpu hok
  · obtain ⟨l, notes, -, -, rfl⟩ := cleanExitedWorkerThread_ok hok
    intro q
    left
    have hlt : (s.tcbAt q).quantumAmtUsed.toNat < TIME_QUANTUM := h.lt (by simp [hcpu])
    change (woken s.tcbAt (s.tcbAt p).threadId l.nodes q).quantumAmtUsed.toNat < TIME_QUANTUM
    rwa [woken_eq]

end Quota

theorem quota_of_execution (h : Execution (Machine.exec policy) ok (initLibrary garbage) es s) :
    s.Quota :=
  h.invariant (fun p => .inl (by simp [initLibrary, newTcb])) fun _ _ _ hs _ hok => hs.exec hok

/-! ## The value of the timer -/

theorem toInt_of_lt {v : UInt32} (h : v.toNat < TIME_QUANTUM) :
    v.toInt32.toInt = (v.toNat : ℤ) := by
  have hlt : v.toNat < 10000 := h
  have hsmall : 2 * v.toBitVec.toNat < 2 ^ 32 := by
    change 2 * v.toNat < 2 ^ 32
    omega
  exact BitVec.toInt_eq_toNat_of_lt hsmall

/-- Nothing is left of no quantum, and no more than all of it. -/
theorem setTimer_of_lt {v : UInt32} (h : v.toNat < TIME_QUANTUM) :
    1 ≤ (s.setTimer true v).timer ∧ (s.setTimer true v).timer ≤ TIME_QUANTUM := by
  have hlt : v.toNat < 10000 := h
  simp only [setTimer_timer, if_true, toInt_of_lt h]
  constructor <;> omega

/-- Whatever the clock says and wherever the signal strikes, a round never arms the timer with
zero or less. -/
theorem timerInRange_of_execution
    (h : Execution (Machine.exec policy) (fun _ _ => True) (initLibrary garbage) es s)
    (hok : s.exec policy .schedule = .ok s') : s'.TimerInRange := by
  rcases exec_cases hok with ⟨_, -, -, hstep⟩ | ⟨-, hcpu, hstep⟩ | ⟨_, hstep, -⟩
  · cases hstep
  · have hlow := (quota_of_execution h).rescheduled hcpu hstep
    obtain ⟨t, next, rfl⟩ := schedule_dispatch hstep
    refine ⟨t, next, rfl, hlow next, fun hfree => ?_⟩
    have hset : (t.dispatch next).timer = (t.setTimer true (t.tcbAt next).quantumAmtUsed).timer := by
      simp [dispatch, hfree]
    rw [hset]
    exact setTimer_of_lt (hlow next)
  · cases hstep

/-- The signal comes between the addition and the test of `worker_yield`, after more than a
quantum; the other thread yields after five microseconds. -/
def signalInYield : List Event :=
  [.call (.create 100), .proceed 0, .call .yield, .proceed 123456, .signal, .schedule,
    .call .yield, .proceed 5, .proceed 0, .proceed 0]

theorem timerInRange_signalInYield :
    ∃ s s', Execution (Machine.exec .psjf) (fun _ _ => True) (initLibrary ⟨0, 0, none⟩)
        signalInYield s ∧
      s.exec .psjf .schedule = .ok s' ∧ s'.timer = 9995 ∧ s'.TimerInRange := by
  have hseen : (replay (Machine.exec .psjf) (initLibrary ⟨0, 0, none⟩) signalInYield).map
      (fun s => (s.exec .psjf .schedule).map timer) = .ok (.ok 9995) := rfl
  obtain ⟨s, -, hs, hnext⟩ := Execution.of_observed hseen
  obtain ⟨s', hs', htimer⟩ := map_eq_ok.mp hnext
  exact ⟨s, s', hs, hs', htimer, timerInRange_of_execution hs hs'⟩

/-! ## A round of the scheduler -/

theorem mlfqArrivals_length (h : mlfqArrivals fuel s = .ok s') :
    s'.qArrival.nodes.length ≤ s.qArrival.nodes.length := by
  induction fuel generalizing s with
  | zero => cases h
  | succ fuel ih =>
    unfold mlfqArrivals at h
    split at h
    · cases h
      exact le_rfl
    · obtain ⟨⟨x, q⟩, hdeq, h⟩ := bind_eq_ok.mp h
      have hle := Multiset.card_le_card (dequeue_le hdeq)
      simp only [Multiset.card_cons, Multiset.coe_card] at hle
      exact (ih h).trans (Nat.le_of_succ_le hle)

/-- All arrivals are taken out of `q_arrival`. -/
theorem Placed.arrivals_taken (hp : s.Placed policy) (hlt : s.qArrival.nodes.length < 65536)
    (hok : s.schedule policy = .ok s') : s'.qArrival.nodes = [] := by
  cases policy with
  | psjf =>
    obtain ⟨xs, q, l, l', first, next, timer, hround, rfl⟩ := schedPsjf_ok hok
    exact (hround.leaves.empty hp.counted.1 hlt hround.emptied).1
  | mlfq =>
    have hp' := hp.mlfq hok
    obtain ⟨s₁, h₁, hok⟩ := bind_eq_ok.mp hok
    obtain ⟨l, -, rfl⟩ := enterMlfq_ok h₁
    obtain ⟨s₂, h₂, hok⟩ := bind_eq_ok.mp hok
    obtain ⟨s₃, h₃, hok⟩ := bind_eq_ok.mp hok
    obtain ⟨s₄, h₄, hok⟩ := bind_eq_ok.mp hok
    obtain ⟨s₅, h₅, hok⟩ := bind_eq_ok.mp hok
    obtain ⟨-, hempty, -⟩ := mlfqArrivals_ok h₂
    obtain ⟨hflow₃, hrun₃⟩ := requeueRunning_ok h₃
    obtain ⟨hflow₄, hrun₄⟩ := boostWhenDue_ok hrun₃ h₄
    obtain ⟨hflow₅, -, -⟩ := selectFrom_ok hrun₄ (by simp) h₅
    have hsame := (hflow₃.trans (hflow₄.trans hflow₅)).drained hempty
    split at hok
    · cases hok
    · cases hok
      have hlen : s₅.qArrival.nodes.length < 65536 := by
        rw [hsame]
        exact (mlfqArrivals_length h₂).trans_lt hlt
      have hzero : isEmpty s₅.qArrival = true := by rw [hsame, hempty]
      have hsize : s₅.qArrival.size = 0 := by simpa [isEmpty] using hzero
      exact (hp'.counted.1.eq_zero hlen).mp hsize

/-- A round turns the timer off only if all other threads wait for one to end. -/
theorem Placed.timer_off (hp : s.Placed policy) (ht : s.Tracked policy) (hquota : s.Quota)
    (hlt : s.allocated < 2 ^ 32) (hroom : s.qArrival.nodes.length < 65536)
    (hqueued : policy = .psjf → s.queued = 0) (hcpu : s.cpu = .scheduler)
    (hok : s.schedule policy = .ok s') :
    0 ≤ s'.timer ∧ ∀ p, s'.running = some p → s'.timer = 0 →
      ∀ q, q ≠ p → s'.Elsewhere q → (s'.tcbAt q).joinTid ≠ NONEXISTENT_THREAD := by
  obtain ⟨next, hnext, htimer⟩ := schedule_timer hok
  have hlow := hquota.rescheduled hcpu hok next
  rw [toInt_of_lt hlow] at htimer
  have hround := hp.rescheduled hok
  have ht' := ht.schedule hp hok
  have hp' : s'.Placed policy := by
    cases policy with
    | psjf => exact hp.psjf hok
    | mlfq => exact hp.mlfq hok
  split at htimer
  · next hblocked =>
    refine ⟨htimer.ge, fun p hrun _ q hq helse => ?_⟩
    obtain rfl : p = next := by simpa [hnext, eq_comm] using hrun
    -- whoever is anywhere is in `tcbs`
    have hin : q ∈ s'.tcbs.nodes := by
      rcases helse with hin | hin | hin
      · exact hin
      · cases policy with
        | psjf =>
          obtain ⟨xs, q₀, l, l', first, next, timer, -, rfl⟩ := schedPsjf_ok hok
          have hnone : s.queued = 0 := hqueued rfl
          change q ∈ s.queued at hin
          simp [hnone] at hin
        | mlfq => exact ht'.listed rfl hround.schedulerEntered q (Multiset.mem_add.mpr (.inl hin))
      · rw [hp.arrivals_taken hroom hok] at hin
        cases hin
    have hall := List.all_eq_true.mp hblocked q hin
    rcases Bool.or_eq_true_iff.mp hall with hwait | hsame
    · simpa [isWaitingOnAThread] using hwait
    · have hqa := ht'.known q hin
      have hpa := hp'.lt_allocated (Placed.mem_running hrun)
      have heq : (s'.tcbAt q).threadId = (s'.tcbAt p).threadId := by simpa using hsame
      exact absurd (hp'.threadId_inj (hround.allocated ▸ hlt) hqa hpa heq) hq
  · have hpos : 0 < s'.timer := by
      rw [htimer]
      omega
    exact ⟨hpos.le, fun _ _ hzero => absurd hzero hpos.ne'⟩

/-! ## The invariant -/

/-- A thread sets the timer only by way of the scheduler. -/
theorem execThread_timer (h : s.execThread p e = .ok s') :
    s'.timer = s.timer ∨ s'.cpu = .scheduler ∧ s'.timer = 0 := by
  rcases execThread_spends h with ⟨pc, caller, elapsed, -, -, rfl⟩ | ⟨-, rfl⟩ | ⟨thread, -, rfl⟩ |
    ⟨-, hsteady⟩
  · left
    cases pc <;> rfl
  · exact .inr ⟨rfl, rfl⟩
  · exact .inl rfl
  · exact .inl hsteady.timer

namespace Idle

theorem lt_allocated (h : s.Idle policy) (hp : s.Placed policy) (ht : s.Tracked policy)
    (hq : s.Elsewhere q) : q < s.allocated := by
  rcases hq with hq | hq | hq
  · exact ht.known q hq
  · cases policy with
    | psjf => simp [h.queued rfl] at hq
    | mlfq => exact hp.lt_allocated (by simp [pool, ready, hq])
  · exact hp.lt_allocated (by simp [pool, hq])

theorem thread (h : s.Idle policy) (hp : s.Placed policy) (ht : s.Tracked policy)
    (hcpu : s.cpu = .thread) (hrun : s.running = some p) (hmade : s.MadeWhileArmed e)
    (hok : s.execThread p e = .ok s') : s'.Idle policy := by
  have htimer := execThread_timer hok
  have hnonneg : 0 ≤ s'.timer := by
    rcases htimer with heq | ⟨-, hzero⟩
    · exact heq ▸ h.nonneg
    · exact hzero.ge
  rcases execThread_cases hok with ⟨thread, -, -, rfl⟩ | ⟨elapsed, q, he, hctl, rfl⟩ |
    ⟨-, -, -, rfl⟩ | hown
  · refine ⟨hnonneg, h.queued, fun hentered _ r hr hzero q hq helse => ?_⟩
    have hlt : q < s.allocated := h.lt_allocated hp ht helse
    have hsame : (s.workerCreate p thread).tcbAt q = s.tcbAt q := by
      simp [workerCreate, hlt.ne]
    rw [hsame]
    exact h.others hentered hcpu r hr hzero q hq helse
  · refine ⟨hnonneg, h.queued, fun hentered _ r hr hzero => ?_⟩
    have hpos := hmade.1 p q elapsed hentered hrun hctl he
    exact absurd hzero hpos.ne'
  · exact ⟨hnonneg, h.queued, fun _ hcpu' => by simp at hcpu'⟩
  · refine ⟨hnonneg, fun hpol => ?_, fun hentered hcpu' r hr hzero q hq helse => ?_⟩
    · simpa only [Machine.queued, hown.allQueue] using h.queued hpol
    · have hsame : s'.timer = s.timer := htimer.resolve_right fun hsched => by
        simp [hcpu'] at hsched
      obtain rfl : r = p := by simpa [hown.running, hrun, eq_comm] using hr
      rw [hown.joinTid_eq hq]
      refine h.others (hown.schedulerEntered ▸ hentered) hcpu r hrun (hsame ▸ hzero) q hq ?_
      simpa only [Elsewhere, Machine.queued, hown.tcbs, hown.allQueue, hown.qArrival] using helse

theorem exec (h : s.Idle policy) (hp : s.Placed policy) (ht : s.Tracked policy)
    (hquota : s.Quota) (hlt : s.allocated < 2 ^ 32) (hmade : s.MadeWhileArmed e)
    (hok : s.exec policy e = .ok s') : s'.Idle policy := by
  rcases exec_cases hok with ⟨p, hcpu, hrun, hok⟩ | ⟨he, hcpu, hok⟩ | ⟨p, -, hcpu, hrun, hok⟩
  · exact h.thread hp ht hcpu hrun hmade hok
  · obtain ⟨hnonneg, hothers⟩ := hp.timer_off ht hquota hlt (hmade.2 he) h.queued hcpu hok
    refine ⟨hnonneg, fun hpol => ?_, fun _ _ => hothers⟩
    subst hpol
    obtain ⟨xs, q, l, l', first, next, timer, -, rfl⟩ := schedPsjf_ok hok
    exact h.queued rfl
  · obtain ⟨l, notes, -, -, rfl⟩ := cleanExitedWorkerThread_ok hok
    exact ⟨h.nonneg, h.queued, fun _ hcpu' => by simp at hcpu'⟩

end Idle

/-- If no thread is made while the timer is off, the timer is on whenever another thread could
run. -/
theorem armed_of_execution
    (h : Execution (Machine.exec policy) MadeWhileArmed (initLibrary garbage) es s)
    (hn : es.countP creates < 2 ^ 32 - 1) : s.Armed := by
  have hinit : (initLibrary garbage).Idle policy :=
    ⟨le_rfl, fun _ => by simp [Machine.queued, initLibrary], by simp [initLibrary]⟩
  have hidle : s.Idle policy := by
    refine h.invariant_of_count hn hinit fun es s e s' hes hcount hs hmade hok => ?_
    rw [List.countP_append] at hcount
    have hlt : s.allocated < 2 ^ 32 := by
      rw [allocated_of_execution hes]
      omega
    exact hs.exec (placed_of_execution hes) (tracked_of_execution hes (by omega))
      (quota_of_execution hes) hlt hmade hok
  rintro hentered hcpu p hrun ⟨q, hq, helse, hfree⟩
  refine hidle.nonneg.lt_of_ne fun hzero => ?_
  exact hidle.others hentered hcpu p hrun hzero.symm q hq helse (isBlocked_eq_false.mp hfree).1

/-- The main thread makes two threads and waits for the first; one of them runs while the other
could. -/
def twoWorkers : List Event :=
  [.call (.create 100), .proceed 0, .call (.create 101), .proceed 0, .call (.join 2 200),
    .proceed 0, .proceed 0, .proceed 5, .proceed 0, .proceed 0, .schedule]

/-- A test that suffices. -/
def armedForCreate (s : Machine) (e : Event) : Bool :=
  (match e with
    | .proceed _ => !s.schedulerEntered || decide (0 < s.timer) ||
      (match s.running.map s.ctl with
        | some (.create _) => false
        | _ => true)
    | _ => true) &&
  decide (s.qArrival.nodes.length < 65536)

theorem madeWhileArmed_of_test (h : s.armedForCreate e = true) : s.MadeWhileArmed e := by
  simp only [armedForCreate, Bool.and_eq_true, decide_eq_true_eq] at h
  refine ⟨fun p q elapsed hentered hrun hctl he => ?_, fun _ => h.2⟩
  subst he
  simpa [hentered, hrun, hctl] using h.1

theorem armed_twoWorkers :
    ∃ s, Execution (Machine.exec .psjf) MadeWhileArmed (initLibrary ⟨0, 0, none⟩) twoWorkers s ∧
      s.running = some 2 ∧ s.tcbs.nodes = [1, 0] ∧ s.timer = 10000 ∧ s.Armed := by
  have hseen : (Execution.replayIf (Machine.exec .psjf) armedForCreate (initLibrary ⟨0, 0, none⟩)
      twoWorkers).map (Except.map fun s => (s.running, s.tcbs.nodes, s.timer)) =
      some (.ok (some 2, [1, 0], 10000)) := rfl
  obtain ⟨s, hs, hobs⟩ := Execution.of_observedIf (fun _ _ => madeWhileArmed_of_test) hseen
  simp only [Prod.mk.injEq] at hobs
  exact ⟨s, hs, hobs.1, hobs.2.1, hobs.2.2, armed_of_execution hs (by decide)⟩

/-- The main thread makes a thread and waits for it; the thread, alone, makes another one. -/
def madeUnarmed : List Event :=
  [.call (.create 100), .proceed 0, .call (.join 2 200), .proceed 0, .proceed 0, .proceed 5,
    .proceed 0, .proceed 0, .schedule, .call (.create 101), .proceed 0]

theorem armed_fails : ¬ ∀ policy garbage es s,
    Execution (Machine.exec policy) (fun _ _ => True) (initLibrary garbage) es s → s.Armed := by
  intro hclaim
  have hseen : (replay (Machine.exec .psjf) (initLibrary ⟨0, 0, none⟩) madeUnarmed).map
      (fun s => (s.schedulerEntered, s.cpu, s.running, s.timer, s.qArrival.nodes,
        isBlocked (s.tcbAt 2))) = .ok (true, .thread, some 1, 0, [2], false) := rfl
  obtain ⟨s, -, hs, hobs⟩ := Execution.of_observed hseen
  simp only [Prod.mk.injEq] at hobs
  obtain ⟨hentered, hcpu, hrun, htimer, harrival, hfree⟩ := hobs
  have hpos := hclaim .psjf _ _ s hs hentered hcpu 1 hrun
    ⟨2, by decide, .inr (.inr (by simp [harrival])), hfree⟩
  simp [htimer] at hpos

end Machine

end UserLevelOs.Threads
