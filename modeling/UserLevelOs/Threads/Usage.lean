import UserLevelOs.Threads.MutexSteps

/-!
# What the usage of a thread depends on

The quantums of a thread and the part of a quantum it has used are written by `worker_yield`, by
the signal handler and, with multilevel queues, by the scheduler.  No other step of a thread
changes them or the timer.

## Main definitions

* `Tcb.spent` — the members of a block that tell the usage.
* `Machine.requeued` — the blocks after the running thread has been put back into a queue.
* `Machine.Steady` — what the other steps of a thread leave alone.

## Main statements

* `schedule_requeued`, `schedule_spares` — a round of the scheduler.
* `execThread_spends` — a step of a thread.
-/

namespace UserLevelOs.Threads

open UserLevelOs.Lib

/-- The members of a block that tell the usage. -/
def Tcb.spent (t : Tcb) : UInt32 × UInt32 × Bool :=
  (t.quantumsElapsed, t.quantumAmtUsed, t.timeQuantumUsedUpFully)

namespace Machine

variable {policy : Policy} {s s' s'' : Machine} {p q : TcbPtr} {e : Event} {fuel level : ℕ}

/-! ## A round of the scheduler -/

/-- The blocks after the running thread has been put back into a queue. -/
def requeued (s : Machine) : Tcbs :=
  match s.running with
  | none => s.tcbAt
  | some p => Function.update s.tcbAt p (demote (s.tcbAt p))

theorem mlfqArrivals_tcbAt (h : mlfqArrivals fuel s = .ok s') :
    s'.tcbAt = s.tcbAt ∧ s'.totalQuantumsElapsed = s.totalQuantumsElapsed := by
  induction fuel generalizing s with
  | zero => cases h
  | succ fuel ih =>
    unfold mlfqArrivals at h
    split at h
    · cases h
      exact ⟨rfl, rfl⟩
    · obtain ⟨⟨x, q⟩, -, h⟩ := bind_eq_ok.mp h
      obtain ⟨htcb, htotal⟩ := ih h
      exact ⟨htcb, htotal⟩

theorem requeueRunning_tcbAt (h : s.requeueRunning = .ok s') :
    s'.tcbAt = s.requeued ∧ s'.totalQuantumsElapsed = s.totalQuantumsElapsed := by
  unfold requeueRunning at h
  cases hrun : s.running with
  | none =>
    simp only [hrun] at h
    cases h
    exact ⟨by simp only [requeued, hrun], rfl⟩
  | some r =>
    simp only [hrun] at h
    split at h
    · cases h
      exact ⟨by simp only [requeued, hrun]; rfl, rfl⟩
    · cases h

/-- A boost takes what has been used of a quantum off the account, or leaves it. -/
theorem boostLevel_spares (h : boostLevel level fuel s = .ok s') (p : TcbPtr) :
    (s'.tcbAt p).quantumAmtUsed = (s.tcbAt p).quantumAmtUsed ∨
      (s'.tcbAt p).quantumAmtUsed = 0 := by
  induction fuel generalizing s with
  | zero => cases h
  | succ fuel ih =>
    unfold boostLevel at h
    split at h
    · cases h
      exact .inl rfl
    · obtain ⟨⟨x, q⟩, -, h⟩ := bind_eq_ok.mp h
      rcases ih h with hrest | hrest
      · rw [hrest]
        by_cases hp : p = x
        · exact .inr (by simp [hp, boosted])
        · exact .inl (by simp [hp])
      · exact .inr hrest

theorem boostLevels_spares {levels : List ℕ} (h : boostLevels levels s = .ok s') (p : TcbPtr) :
    (s'.tcbAt p).quantumAmtUsed = (s.tcbAt p).quantumAmtUsed ∨
      (s'.tcbAt p).quantumAmtUsed = 0 := by
  induction levels generalizing s with
  | nil =>
    cases h
    exact .inl rfl
  | cons level levels ih =>
    obtain ⟨s₁, h₁, h⟩ := bind_eq_ok.mp h
    rcases ih h with hrest | hrest
    · rw [hrest]
      exact boostLevel_spares h₁ p
    · exact .inr hrest

theorem boostWhenDue_spares (h : s.boostWhenDue = .ok s') (p : TcbPtr) :
    (s'.tcbAt p).quantumAmtUsed = (s.tcbAt p).quantumAmtUsed ∨
      (s'.tcbAt p).quantumAmtUsed = 0 := by
  unfold boostWhenDue at h
  split at h
  · obtain ⟨s₁, h₁, h⟩ := bind_eq_ok.mp h
    obtain ⟨-, h⟩ := assert_bind_eq_ok.mp h
    cases h
    exact boostLevels_spares h₁ p
  · cases h
    exact .inl rfl

theorem boostWhenDue_eq (h : s.totalQuantumsElapsed.toNat < sValueDecayUsageConst) :
    s.boostWhenDue = .ok s :=
  if_neg (by omega)

/-- The blocks in a round of `sched_mlfq`: the running thread goes back to a queue, and then
there may be a boost. -/
theorem schedMlfq_parts (h : s.schedMlfq = .ok s') :
    ∃ t u v : Machine, ∃ next, t.tcbAt = s.requeued ∧
      t.totalQuantumsElapsed = s.totalQuantumsElapsed ∧ t.boostWhenDue = .ok u ∧
      v.tcbAt = u.tcbAt ∧ s' = v.dispatch next := by
  obtain ⟨s₁, h₁, h⟩ := bind_eq_ok.mp h
  obtain ⟨s₂, h₂, h⟩ := bind_eq_ok.mp h
  obtain ⟨s₃, h₃, h⟩ := bind_eq_ok.mp h
  obtain ⟨s₄, h₄, h⟩ := bind_eq_ok.mp h
  obtain ⟨-, -, hrun₁⟩ := mlfqArrivals_ok h₁
  obtain ⟨htcb₁, htotal₁⟩ := mlfqArrivals_tcbAt h₁
  obtain ⟨htcb₂, htotal₂⟩ := requeueRunning_tcbAt h₂
  obtain ⟨-, hrun₂⟩ := requeueRunning_ok h₂
  obtain ⟨-, hrun₃⟩ := boostWhenDue_ok hrun₂ h₃
  obtain ⟨-, htcb₄, -⟩ := selectFrom_ok hrun₃ (by simp) h₄
  have hsame : s₁.requeued = s.requeued := by
    unfold requeued
    rw [hrun₁, htcb₁]
  split at h
  · cases h
  · next next _ =>
    cases h
    exact ⟨s₂, s₃, s₄, next, htcb₂.trans hsame, htotal₂.trans htotal₁, h₃, htcb₄, rfl⟩

theorem enterMlfq_requeued (h : s.enterMlfq = .ok s') :
    s'.requeued = s.requeued ∧ s'.totalQuantumsElapsed = s.totalQuantumsElapsed := by
  obtain ⟨l, -, rfl⟩ := Placed.enterMlfq_ok h
  exact ⟨rfl, rfl⟩

/-- Without a boost a round changes no block but that of the thread that ran. -/
theorem schedule_requeued
    (hdue : policy = .mlfq → s.totalQuantumsElapsed.toNat < sValueDecayUsageConst)
    (h : s.schedule policy = .ok s') :
    s'.tcbAt = if policy = .mlfq then s.requeued else s.tcbAt := by
  cases policy with
  | psjf =>
    obtain ⟨xs, q, l, l', first, next, timer, -, rfl⟩ := schedPsjf_ok h
    rfl
  | mlfq =>
    obtain ⟨s₁, h₁, h⟩ := bind_eq_ok.mp h
    obtain ⟨htcb₁, htotal₁⟩ := enterMlfq_requeued h₁
    obtain ⟨t, u, v, next, htcb, htotal, hboost, hsame, rfl⟩ := schedMlfq_parts h
    rw [boostWhenDue_eq (by rw [htotal, htotal₁]; exact hdue rfl)] at hboost
    cases hboost
    change v.tcbAt = _
    rw [hsame, htcb, htcb₁, if_pos rfl]

theorem demote_spares (t : Tcb) :
    (demote t).quantumAmtUsed = t.quantumAmtUsed ∨ (demote t).quantumAmtUsed = 0 := by
  unfold demote
  split
  · exact .inr rfl
  · exact .inl rfl

theorem requeued_spares (p : TcbPtr) :
    (s.requeued p).quantumAmtUsed = (s.tcbAt p).quantumAmtUsed ∨
      (s.requeued p).quantumAmtUsed = 0 := by
  cases hrun : s.running with
  | none => exact .inl (by simp [requeued, hrun])
  | some r =>
    by_cases hp : p = r
    · simpa [requeued, hrun, hp] using demote_spares (s.tcbAt r)
    · exact .inl (by simp [requeued, hrun, hp])

/-- A round takes what has been used of a quantum off the account, or leaves it. -/
theorem schedule_spares (h : s.schedule policy = .ok s') (p : TcbPtr) :
    (s'.tcbAt p).quantumAmtUsed = (s.tcbAt p).quantumAmtUsed ∨
      (s'.tcbAt p).quantumAmtUsed = 0 := by
  cases policy with
  | psjf =>
    obtain ⟨xs, q, l, l', first, next, timer, -, rfl⟩ := schedPsjf_ok h
    exact .inl rfl
  | mlfq =>
    obtain ⟨s₁, h₁, h⟩ := bind_eq_ok.mp h
    obtain ⟨htcb₁, -⟩ := enterMlfq_requeued h₁
    obtain ⟨t, u, v, next, htcb, -, hboost, hsame, rfl⟩ := schedMlfq_parts h
    change (v.tcbAt p).quantumAmtUsed = _ ∨ (v.tcbAt p).quantumAmtUsed = 0
    rw [hsame]
    rcases boostWhenDue_spares hboost p with heq | hzero
    · rw [heq, htcb, htcb₁]
      exact requeued_spares p
    · exact .inr hzero

/-- A round ends with the dispatch of a thread. -/
theorem schedule_dispatch (h : s.schedule policy = .ok s') : ∃ t next, s' = dispatch t next := by
  cases policy with
  | psjf =>
    obtain ⟨s₁, -, h⟩ := bind_eq_ok.mp h
    obtain ⟨s₂, -, h⟩ := bind_eq_ok.mp h
    obtain ⟨first, -, h⟩ := bind_eq_ok.mp h
    obtain ⟨⟨next, tcbs⟩, -, h⟩ := bind_eq_ok.mp h
    cases h
    exact ⟨_, next, rfl⟩
  | mlfq =>
    obtain ⟨s₁, -, h⟩ := bind_eq_ok.mp h
    obtain ⟨t, u, v, next, -, -, -, -, rfl⟩ := schedMlfq_parts h
    exact ⟨v, next, rfl⟩

/-- The timer that a round sets. -/
theorem schedule_timer (h : s.schedule policy = .ok s') :
    ∃ next, s'.running = some next ∧ s'.timer =
      if s'.remainingThreadsBlocked next then 0
      else TIME_QUANTUM - (s'.tcbAt next).quantumAmtUsed.toInt32.toInt := by
  obtain ⟨t, next, rfl⟩ := schedule_dispatch h
  refine ⟨next, rfl, ?_⟩
  have hsame : (t.dispatch next).remainingThreadsBlocked next = t.remainingThreadsBlocked next := rfl
  rw [hsame]
  cases hblocked : t.remainingThreadsBlocked next <;> simp [dispatch, hblocked]

/-! ## A step of a thread -/

/-- A step of the thread `p` in the middle of a statement that counts no usage: `p` stays on the
processor unless it ends. -/
structure Steady (p : TcbPtr) (s s' : Machine) : Prop where
  spent : ∀ q, (s'.tcbAt q).spent = (s.tcbAt q).spent
  timer : s'.timer = s.timer
  running : s'.running = s.running
  allocated : s'.allocated = s.allocated
  schedulerEntered : s'.schedulerEntered = s.schedulerEntered
  cpu : s'.cpu = s.cpu ∨ s'.cpu = .cleanup
  ctl : ∀ q ≠ p, s'.ctl q = s.ctl q
  /-- The first statement of `worker_yield` comes first. -/
  fresh : ∀ pc caller, s'.ctl p = .yield pc caller → pc = .add ∨ s.ctl p = .yield pc caller
  resume : ∀ caller, s'.ctl p = .resume caller → s.ctl p = .resume caller

namespace Steady

variable {c : Ctl} {t : Tcb} {n : Note}

theorem refl (p : TcbPtr) (s : Machine) : Steady p s s :=
  ⟨fun _ => rfl, rfl, rfl, rfl, rfl, .inl rfl, fun _ _ => rfl, fun _ _ => .inr, fun _ h => h⟩

theorem trans (h : Steady p s s') (h' : Steady p s' s'') : Steady p s s'' where
  spent q := (h'.spent q).trans (h.spent q)
  timer := h'.timer.trans h.timer
  running := h'.running.trans h.running
  allocated := h'.allocated.trans h.allocated
  schedulerEntered := h'.schedulerEntered.trans h.schedulerEntered
  cpu := by
    rcases h'.cpu with h' | h'
    · exact h.cpu.imp h'.trans h'.trans
    · exact .inr h'
  ctl q hq := (h'.ctl q hq).trans (h.ctl q hq)
  fresh pc caller hctl := by
    rcases h'.fresh pc caller hctl with hadd | hctl
    · exact .inl hadd
    · exact h.fresh pc caller hctl
  resume caller hctl := h.resume caller (h'.resume caller hctl)

theorem setTcb (h : t.spent = (s.tcbAt p).spent) : Steady p s (s.setTcb p t) where
  __ := refl p s
  spent q := by
    by_cases hq : q = p
    · simp [hq, h]
    · simp [hq]

theorem goto (hyield : ∀ pc caller, c = .yield pc caller → pc = .add)
    (hresume : ∀ caller, c ≠ .resume caller) : Steady p s (s.goto p c) where
  __ := refl p s
  ctl q hq := by simp [hq]
  fresh pc caller hctl := .inl (hyield pc caller (by simpa using hctl))
  resume caller hctl := absurd (by simpa using hctl) (hresume caller)

/-- Fields that neither a block nor a thread's place depends on. -/
theorem of_eq (h : Steady p s s') (hsame : s''.tcbAt = s'.tcbAt ∧ s''.timer = s'.timer ∧
      s''.running = s'.running ∧ s''.allocated = s'.allocated ∧
      s''.schedulerEntered = s'.schedulerEntered ∧ s''.ctl = s'.ctl ∧
      (s''.cpu = s'.cpu ∨ s''.cpu = .cleanup)) : Steady p s s'' := by
  obtain ⟨htcb, htimer, hrun, halloc, hentered, hctl, hcpu⟩ := hsame
  refine h.trans ⟨fun q => by rw [htcb], htimer, hrun, halloc, hentered, hcpu,
    fun q _ => by rw [hctl], fun pc caller => ?_, fun caller => ?_⟩
  · rw [hctl]
    exact .inr
  · rw [hctl]
    exact fun hr => hr

theorem note : Steady p s (s.note n) := (refl p s).of_eq (by simp)

theorem storeIf {b : Bool} {valuePtr : Addr} {value : Value} :
    Yields (s.storeIf b p valuePtr value) (Steady p s) := by
  intro s' h
  rcases storeIf_ok h with ⟨-, -, rfl⟩ | ⟨-, rfl⟩
  · exact note
  · exact refl p _

theorem workerJoin {thread : Worker} {valuePtr : Addr} :
    Steady p s (s.workerJoin p thread valuePtr) := by
  unfold Machine.workerJoin
  dsimp only
  split
  · exact note.trans (goto (by simp) (by simp))
  · exact note.trans (goto (by simp) (by simp))

theorem workerMutexInit {mutex : Addr} {item : NodePtr}
    (h : s.workerMutexInit mutex item = .ok s') : Steady p s s' := by
  obtain ⟨-, rfl⟩ := workerMutexInit_ok h
  exact (refl p s).of_eq (by simp)

theorem workerMutexLock {mutex : Addr} (h : s.workerMutexLock p mutex = .ok s') :
    Steady p s s' := by
  obtain ⟨n, node, -, -, ⟨-, rfl⟩ | ⟨-, rfl⟩⟩ := workerMutexLock_ok h
  · have hholder : Steady p s (s.setHolder n node (s.tcbAt p).threadId) :=
      (refl p s).of_eq (by simp)
    exact (hholder.trans note).trans (goto (by simp) (by simp))
  · exact (setTcb (by rfl)).trans (goto (by simp [eq_comm]) (by simp))

theorem workerMutexUnlock {mutex : Addr} (h : s.workerMutexUnlock p mutex = .ok s') :
    Steady p s s' := by
  obtain ⟨n, node, -, -, -, rfl⟩ := workerMutexUnlock_ok h
  set t := (s.setHolder n node NONEXISTENT_THREAD).note (.unlocking p n)
  refine { refl p s with
    spent := fun q => ?_
    fresh := fun _ _ => .inr
    resume := fun _ hr => hr }
  rw [broadcastLockRelease_tcbAt]
  split <;> rfl

theorem workerMutexDestroy {mutex : Addr} (h : s.workerMutexDestroy p mutex = .ok s') :
    Steady p s s' := by
  obtain ⟨n, node, -, -, -, rfl | ⟨s₁, hunlock, rfl⟩⟩ := workerMutexDestroy_ok h
  · exact goto (by simp) (by simp)
  · exact (workerMutexUnlock hunlock).trans (goto (by simp) (by simp))

theorem destroyStmt {masked : Bool} {mutex : Addr} {num : WorkerMutex} {pc : DestroyAt}
    (h : s.destroyStmt p masked mutex num pc = .ok s') : Steady p s s' := by
  rcases destroyStmt_ok h with ⟨pc', t, hstep, rfl⟩ | ⟨-, rfl⟩
  · have hsame : Steady p s t := by
      rw [hstep.eq]
      exact (refl p s).of_eq (by simp)
    exact hsame.trans (goto (by simp) (by simp))
  · exact note.trans (goto (by simp) (by simp))

theorem joinStep (h : JoinStep s p e s') : Steady p s s' := by
  cases h with
  | call thread valuePtr _ => exact workerJoin
  | store _ ended thread valuePtr s₁ _ hstore =>
    exact ((storeIf _ hstore).trans note).trans (goto (by simp) (by simp))
  | register _ thread valuePtr _ => exact (setTcb (by rfl)).trans (goto (by simp) (by simp))
  | retval _ thread valuePtr _ =>
    exact (setTcb (by rfl)).trans (goto (by simp [eq_comm]) (by simp))
  | done _ thread valuePtr _ => exact note.trans (goto (by simp) (by simp))

theorem mutexStep (h : MutexStep s p e s') : Steady p s s' := by
  cases h with
  | init mutex item _ h => exact workerMutexInit h
  | lock mutex _ h => exact workerMutexLock h
  | relock _ mutex _ h => exact workerMutexLock h
  | unlock mutex _ h => exact workerMutexUnlock h
  | destroy mutex _ h => exact workerMutexDestroy h
  | destroyStmt _ _ _ _ _ _ h => exact destroyStmt h

end Steady

theorem JoinStep.not_yield (h : JoinStep s p e s') (pc : YieldAt) (caller : Caller) :
    s.ctl p ≠ .yield pc caller := by
  cases h <;> simp [*]

theorem MutexStep.not_yield (h : MutexStep s p e s') (pc : YieldAt) (caller : Caller) :
    s.ctl p ≠ .yield pc caller := by
  cases h <;> simp [*]

/-- What an event in a thread's context does to its usage. -/
theorem execThread_spends (h : s.execThread p e = .ok s') :
    (∃ pc caller elapsed, s.ctl p = .yield pc caller ∧ e = .proceed elapsed ∧
        s' = s.yieldStmt p elapsed caller pc) ∨
      (e = .signal ∧ s' = s.timerSignalHandler p) ∨
      (∃ thread, s.ctl p = .program ∧ s' = s.workerCreate p thread) ∨
      ((∀ pc caller, s.ctl p ≠ .yield pc caller) ∧ Steady p s s') := by
  cases execThread_ok h with
  | yieldStmt elapsed pc caller hctl => exact .inl ⟨pc, caller, elapsed, hctl, rfl, rfl⟩
  | signal hmask => exact .inr (.inl ⟨rfl, rfl⟩)
  | create thread hctl => exact .inr (.inr (.inl ⟨thread, hctl, rfl⟩))
  | yield hctl =>
    exact .inr (.inr (.inr ⟨by simp [hctl], .goto (by simp [eq_comm]) (by simp)⟩))
  | exit valuePtr hctl => exact .inr (.inr (.inr ⟨by simp [hctl], .setTcb (by rfl)⟩))
  | join hjoin => exact .inr (.inr (.inr ⟨hjoin.not_yield, .joinStep hjoin⟩))
  | mutex hmutex => exact .inr (.inr (.inr ⟨hmutex.not_yield, .mutexStep hmutex⟩))
  | assign a v hctl => exact .inr (.inr (.inr ⟨by simp [hctl], (Steady.refl p s).of_eq (by simp)⟩))
  | finish hctl hmain =>
    exact .inr (.inr (.inr ⟨by simp [hctl], (Steady.refl p s).of_eq (by simp)⟩))
  | enqueue elapsed q hctl =>
    refine .inr (.inr (.inr ⟨by simp [hctl], Steady.trans ?_ (.goto (by simp) (by simp))⟩))
    exact (Steady.refl p s).of_eq (by simp)
  | resume elapsed hctl =>
    exact .inr (.inr (.inr ⟨by simp [hctl], .goto (by simp) (by simp)⟩))

end Machine

end UserLevelOs.Threads
