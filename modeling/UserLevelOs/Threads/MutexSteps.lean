import UserLevelOs.Threads.Places

/-!
# Steps that concern a mutex

The mutexes are read and written only by the functions that take one.  Whatever else a thread
does in its own context leaves the list of mutexes and every `seeking_lock` alone, and a thread
is in `worker_mutex_lock` or `worker_mutex_destroy` after such a step if it was before.

## Main definitions

* `Note.aboutMutex`, `Ctl.seeks`, `Ctl.destroys`.
* `Machine.Aside` — what the other steps of a thread leave alone.

## Main statements

* `Machine.execThread_mutex`.
-/

namespace UserLevelOs.Threads

open UserLevelOs.Lib

/-- A note of what happens to a mutex. -/
def Note.aboutMutex : Note → Bool
  | .locked _ _ | .unlocking _ _ | .inited _ | .destroyed _ => true
  | _ => false

/-- In `worker_mutex_lock`, waiting for the mutex. -/
def Ctl.seeks : Ctl → Bool
  | .yield _ (.lock _) => true
  | .resume (.lock _) => true
  | _ => false

/-- In `worker_mutex_destroy`, past the test of the holder. -/
def Ctl.destroys : Ctl → Bool
  | .destroy _ _ _ _ => true
  | _ => false

namespace Machine

variable {p q : TcbPtr} {s s' : Machine} {e : Event}

/-- A step of the thread `p` that does nothing about a mutex. -/
structure Aside (p : TcbPtr) (s s' : Machine) : Prop where
  mutexes : s'.mutexes = s.mutexes
  currentMutexNum : s'.currentMutexNum = s.currentMutexNum
  tcbs : s'.tcbs = s.tcbs
  running : s'.running = s.running
  allocated : s.allocated ≤ s'.allocated
  threadId : ∀ q < s.allocated, (s'.tcbAt q).threadId = (s.tcbAt q).threadId
  seekingLock : ∀ q, (s'.tcbAt q).seekingLock ≠ NONEXISTENT_MUTEX →
    (s'.tcbAt q).seekingLock = (s.tcbAt q).seekingLock
  seeks : ∀ q, (s'.ctl q).seeks = (s.ctl q).seeks
  /-- A thread comes to wait for the scheduler only by leaving the processor. -/
  resume : ∀ mutex, s'.ctl p = .resume (.lock mutex) → s'.cpu = .scheduler
  destroys : ∀ q, (s.ctl q).destroys ∨ (s'.ctl q).destroys → s'.ctl q = s.ctl q
  history : ∃ notes, s'.history = notes ++ s.history ∧ ∀ n ∈ notes, n.aboutMutex = false

namespace Aside

variable {t : Tcb} {c : Ctl} {n : Note} {valuePtr : Addr} {value : Value} {thread : Worker}

/-- A step that changes only the block of `p`, where `p` stands, and the notes; in the block
`seeking_lock` stays. -/
theorem of_eq (hmutexes : s'.mutexes = s.mutexes)
    (hnum : s'.currentMutexNum = s.currentMutexNum) (htcbs : s'.tcbs = s.tcbs)
    (hrunning : s'.running = s.running) (hallocated : s'.allocated = s.allocated)
    (htcb : ∀ q, (s'.tcbAt q).threadId = (s.tcbAt q).threadId ∧
      (s'.tcbAt q).seekingLock = (s.tcbAt q).seekingLock)
    (hctl : ∀ q ≠ p, s'.ctl q = s.ctl q) (hseeks : (s'.ctl p).seeks = (s.ctl p).seeks)
    (hresume : ∀ mutex, s'.ctl p = .resume (.lock mutex) → s'.cpu = .scheduler)
    (hdestroys : s'.ctl p = s.ctl p ∨
      (s.ctl p).destroys = false ∧ (s'.ctl p).destroys = false)
    (hhistory : ∃ notes, s'.history = notes ++ s.history ∧ ∀ n ∈ notes, n.aboutMutex = false) :
    Aside p s s' := by
  refine ⟨hmutexes, hnum, htcbs, hrunning, hallocated.ge, fun q _ => (htcb q).1,
    fun q _ => (htcb q).2, fun q => ?_, hresume, fun q hq => ?_, hhistory⟩
  · by_cases hqp : q = p
    · rw [hqp, hseeks]
    · rw [hctl q hqp]
  · by_cases hqp : q = p
    · subst hqp
      exact hdestroys.resolve_right fun hnone => by simp [hnone] at hq
    · exact hctl q hqp

theorem workerCreate {a : Addr} (hctl : s.ctl p = .program) : Aside p s (s.workerCreate p a) where
  mutexes := rfl
  currentMutexNum := rfl
  tcbs := rfl
  running := rfl
  allocated := Nat.le_succ _
  threadId q hq := by simp [Machine.workerCreate, hq.ne]
  seekingLock q hq := by
    by_cases hnew : q = s.allocated
    · exact absurd (by simp [Machine.workerCreate, hnew, newTcb]) hq
    · simp [Machine.workerCreate, hnew]
  seeks q := by
    by_cases hq : q = p
    · simp [Machine.workerCreate, hq, hctl, Ctl.seeks]
    · simp [Machine.workerCreate, hq]
  resume mutex hr := by simp [Machine.workerCreate] at hr
  destroys q hq := by
    by_cases hqp : q = p
    · simp [Machine.workerCreate, hqp, hctl, Ctl.destroys] at hq
    · simp [Machine.workerCreate, hqp]
  history := ⟨[], rfl, by simp⟩

theorem workerJoin (hctl : s.ctl p = .program) :
    Aside p s (s.workerJoin p thread valuePtr) := by
  unfold Machine.workerJoin
  dsimp only
  split <;>
  · refine of_eq rfl rfl rfl rfl rfl (fun _ => ⟨rfl, rfl⟩) (fun q hq => by simp [hq])
      (by simp [hctl, Ctl.seeks]) (by simp) (.inr (by simp [hctl, Ctl.destroys]))
      ⟨[.joining p thread valuePtr], rfl, by simp [Note.aboutMutex]⟩

/-- Only the place of such a thread. -/
theorem goto (hseeks : c.seeks = (s.ctl p).seeks) (hresume : ∀ mutex, c ≠ .resume (.lock mutex))
    (hold : (s.ctl p).destroys = false) (hnew : c.destroys = false) : Aside p s (s.goto p c) :=
  of_eq rfl rfl rfl rfl rfl (fun _ => ⟨rfl, rfl⟩) (fun q hq => by simp [hq]) (by simp [hseeks])
    (fun mutex hr => absurd (by simpa using hr) (hresume mutex)) (.inr (by simp [hold, hnew]))
    ⟨[], rfl, by simp⟩

/-- Also the notes. -/
theorem noteGoto (hn : n.aboutMutex = false) (hseeks : c.seeks = (s.ctl p).seeks)
    (hresume : ∀ mutex, c ≠ .resume (.lock mutex)) (hold : (s.ctl p).destroys = false)
    (hnew : c.destroys = false) : Aside p s ((s.note n).goto p c) :=
  of_eq rfl rfl rfl rfl rfl (fun _ => ⟨rfl, rfl⟩) (fun q hq => by simp [hq]) (by simp [hseeks])
    (fun mutex hr => absurd (by simpa using hr) (hresume mutex)) (.inr (by simp [hold, hnew]))
    ⟨[n], rfl, by simp [hn]⟩

/-- The block and the place of a thread that is neither in `worker_mutex_lock` nor in
`worker_mutex_destroy`, and is not left waiting for the scheduler. -/
theorem own (hid : t.threadId = (s.tcbAt p).threadId)
    (hseek : t.seekingLock = (s.tcbAt p).seekingLock) (hseeks : c.seeks = (s.ctl p).seeks)
    (hresume : ∀ mutex, c ≠ .resume (.lock mutex)) (hold : (s.ctl p).destroys = false)
    (hnew : c.destroys = false) : Aside p s ((s.setTcb p t).goto p c) := by
  refine of_eq rfl rfl rfl rfl rfl (fun q => ?_) (fun q hq => by simp [hq]) (by simp [hseeks])
    (fun mutex hr => absurd (by simpa using hr) (hresume mutex)) (.inr (by simp [hold, hnew]))
    ⟨[], rfl, by simp⟩
  by_cases hq : q = p
  · simp [hq, hid, hseek]
  · simp [hq]

theorem workerExit (hctl : s.ctl p = .program) : Aside p s (s.workerExit p valuePtr) := by
  refine of_eq rfl rfl rfl rfl rfl (fun q => ?_) (fun _ _ => rfl) rfl ?_ (.inl rfl)
    ⟨[], rfl, by simp⟩
  · by_cases hq : q = p <;> simp [Machine.workerExit, hq]
  · simp [Machine.workerExit, hctl]

theorem enqueueCreated (hctl : s.ctl p = .create q) : Aside p s (s.enqueueCreated p q) := by
  refine of_eq rfl rfl rfl rfl rfl (fun _ => ⟨rfl, rfl⟩) (fun r hr => ?_) ?_ ?_ (.inr ?_)
    ⟨[.enqueued q], rfl, by simp [Note.aboutMutex]⟩
  · simp [Machine.enqueueCreated, hr]
  · simp [Machine.enqueueCreated, hctl, Ctl.seeks]
  · simp [Machine.enqueueCreated]
  · simp [Machine.enqueueCreated, hctl, Ctl.destroys]

theorem joinStep (h : JoinStep s p e s') : Aside p s s' := by
  cases h with
  | call thread valuePtr hctl => exact workerJoin hctl
  | store _ ended thread valuePtr s₁ hctl hstore =>
    rcases storeIf_ok hstore with ⟨-, -, rfl⟩ | ⟨-, rfl⟩
    · exact of_eq rfl rfl rfl rfl rfl (fun _ => ⟨rfl, rfl⟩) (fun r hr => by simp [hr])
        (by simp [hctl, Ctl.seeks]) (by simp) (.inr (by simp [hctl, Ctl.destroys]))
        ⟨[.joined p thread valuePtr, .stored p valuePtr _], rfl, by simp [Note.aboutMutex]⟩
    · exact noteGoto rfl (by rw [hctl]; rfl) (by simp) (by rw [hctl]; rfl) rfl
  | register _ thread valuePtr hctl =>
    exact own rfl rfl (by rw [hctl]; rfl) (by simp) (by rw [hctl]; rfl) rfl
  | retval _ thread valuePtr hctl =>
    exact own rfl rfl (by rw [hctl]; rfl) (by simp) (by rw [hctl]; rfl) rfl
  | done _ thread valuePtr hctl =>
    exact noteGoto rfl (by rw [hctl]; rfl) (by simp) (by rw [hctl]; rfl) rfl

theorem yieldStmt {elapsed : UInt32} {caller : Caller} {pc : YieldAt}
    (hctl : s.ctl p = .yield pc caller) : Aside p s (s.yieldStmt p elapsed caller pc) := by
  have hseeks : ∀ pc', (Ctl.yield pc' caller).seeks = (s.ctl p).seeks := fun pc' => by
    rw [hctl]
    cases caller <;> rfl
  have hold : (s.ctl p).destroys = false := by
    rw [hctl]
    rfl
  cases pc with
  | add | setFull | reset | countOwn =>
    exact own (by rfl) (by rfl) (hseeks _) (by simp) hold rfl
  | test | countAll =>
    exact of_eq rfl rfl rfl rfl rfl (fun _ => ⟨rfl, rfl⟩)
      (fun q hq => by simp [Machine.yieldStmt, hq]) (by simp [Machine.yieldStmt, hseeks])
      (by simp [Machine.yieldStmt]) (.inr ⟨hold, by simp [Machine.yieldStmt, Ctl.destroys]⟩)
      ⟨[], rfl, by simp⟩
  | swap =>
    refine of_eq rfl rfl rfl rfl rfl (fun _ => ⟨rfl, rfl⟩)
      (fun q hq => by simp [Machine.yieldStmt, hq]) ?_ (fun _ _ => rfl)
      (.inr ⟨hold, by simp [Machine.yieldStmt, Ctl.destroys]⟩) ⟨[], rfl, by simp⟩
    rw [hctl]
    cases caller <;> simp [Machine.yieldStmt, Ctl.seeks]

theorem timerSignalHandler : Aside p s (s.timerSignalHandler p) where
  mutexes := rfl
  currentMutexNum := rfl
  tcbs := rfl
  running := rfl
  allocated := le_rfl
  threadId q _ := by
    by_cases hq : q = p <;> simp [Machine.timerSignalHandler, hq]
  seekingLock q _ := by
    by_cases hq : q = p <;> simp [Machine.timerSignalHandler, hq]
  seeks _ := rfl
  resume _ _ := rfl
  destroys _ _ := rfl
  history := ⟨[], rfl, by simp⟩

end Aside

/-! ## The functions that take a mutex -/

section

variable {mutex : Addr} {item : NodePtr}

/-- The mutex, found in `node`, is held by the thread from now on. -/
@[simps -fullyApplied]
def setHolder (s : Machine) (n : NodePtr) (node : MutexNode) (tid : Worker) : Machine :=
  { s with mutexes := s.mutexes.setNode n { node with holderTid := tid } }

theorem workerMutexInit_ok (h : s.workerMutexInit mutex item = .ok s') :
    s.mutexes.nodes item = none ∧
      s' = (({ s with
        currentMutexNum := s.currentMutexNum + 1
        mutexes :=
          { front := some item
            nodes := Function.update s.mutexes.nodes item (some
              { lockNum := s.currentMutexNum + 1
                holderTid := NONEXISTENT_THREAD
                next := s.mutexes.front })
            mallocs := s.mutexes.mallocs + 1 } }.assign mutex (s.currentMutexNum + 1)).note
          (.inited (s.currentMutexNum + 1))) := by
  unfold workerMutexInit at h
  split at h
  · cases h
  · next hfree =>
    cases h
    exact ⟨hfree, rfl⟩

theorem workerMutexLock_ok (h : s.workerMutexLock p mutex = .ok s') :
    ∃ n node, s.mutexes.nodes n = some node ∧ node.lockNum = s.vars mutex ∧
      ((node.holderTid = NONEXISTENT_THREAD ∧
          s' = ((s.setHolder n node (s.tcbAt p).threadId).note (.locked p n)).goto p .program) ∨
        (node.holderTid ≠ NONEXISTENT_THREAD ∧
          s' = (s.setTcb p { s.tcbAt p with seekingLock := s.vars mutex }).goto p
            (.yield .add (.lock mutex)))) := by
  obtain ⟨held, hheld, h⟩ := bind_eq_ok.mp h
  obtain ⟨n, node, hfetch, hnode, hnum, hfree⟩ := isHeldBy_ok hheld
  refine ⟨n, node, hnode, hnum, ?_⟩
  split at h
  · next htrue =>
    obtain ⟨found, hfound, h⟩ := bind_eq_ok.mp h
    rw [hfetch] at hfound
    cases hfound
    obtain ⟨node', hderef, h⟩ := bind_eq_ok.mp h
    have heq := Mutexes.deref_ok hderef
    rw [hnode] at heq
    cases heq
    cases h
    exact .inl ⟨hfree.mp htrue, rfl⟩
  · next hfalse =>
    cases h
    exact .inr ⟨fun hzero => hfalse (hfree.mpr hzero), rfl⟩

theorem workerMutexUnlock_ok (h : s.workerMutexUnlock p mutex = .ok s') :
    ∃ n node, s.mutexes.nodes n = some node ∧ node.lockNum = s.vars mutex ∧
      node.holderTid = (s.tcbAt p).threadId ∧
      s' = (((s.setHolder n node NONEXISTENT_THREAD).note (.unlocking p n)).broadcastLockRelease
        (s.vars mutex)).2 := by
  obtain ⟨held, hheld, h⟩ := bind_eq_ok.mp h
  obtain ⟨n, node, hfetch, hnode, hnum, hholds⟩ := isHeldBy_ok hheld
  obtain ⟨hassert, h⟩ := assert_bind_eq_ok.mp h
  obtain ⟨found, hfound, h⟩ := bind_eq_ok.mp h
  rw [hfetch] at hfound
  cases hfound
  obtain ⟨node', hderef, h⟩ := bind_eq_ok.mp h
  have heq := Mutexes.deref_ok hderef
  rw [hnode] at heq
  cases heq
  cases h
  exact ⟨n, node, hnode, hnum, hholds.mp hassert, rfl⟩

theorem workerMutexDestroy_ok (h : s.workerMutexDestroy p mutex = .ok s') :
    ∃ n node, fetchFromMutexes s.mutexes (s.vars mutex) = .ok (some n) ∧
      s.mutexes.nodes n = some node ∧ node.lockNum = s.vars mutex ∧
      (s' = s.goto p (.destroy true mutex (s.vars mutex) .readFront) ∨
        ∃ s₁, s.workerMutexUnlock p mutex = .ok s₁ ∧
          s' = s₁.goto p (.destroy false mutex (s.vars mutex) .readFront)) := by
  obtain ⟨held, hheld, h⟩ := bind_eq_ok.mp h
  obtain ⟨n, node, hfetch, hnode, hnum, -⟩ := isHeldBy_ok hheld
  refine ⟨n, node, hfetch, hnode, hnum, ?_⟩
  split at h
  · cases h
    exact .inl rfl
  · obtain ⟨s₁, hunlock, h⟩ := bind_eq_ok.mp h
    cases h
    exact .inr ⟨s₁, hunlock, rfl⟩

end

/-! ## Which steps they are -/

/-- What an event in a thread's context does about the mutexes. -/
theorem execThread_mutex (h : s.execThread p e = .ok s') :
    MutexStep s p e s' ∨ Aside p s s' := by
  cases execThread_ok h with
  | create thread hctl => exact .inr (.workerCreate hctl)
  | yield hctl => exact .inr (.goto (by rw [hctl]; rfl) (by simp) (by rw [hctl]; rfl) rfl)
  | exit valuePtr hctl => exact .inr (.workerExit hctl)
  | join hjoin => exact .inr (.joinStep hjoin)
  | mutex hmutex => exact .inl hmutex
  | assign a v hctl =>
    exact .inr (.of_eq rfl rfl rfl rfl rfl (fun _ => ⟨rfl, rfl⟩) (fun _ _ => rfl) rfl
      (by simp [hctl]) (.inl rfl) ⟨[], rfl, by simp⟩)
  | finish hctl hmain =>
    exact .inr (.of_eq rfl rfl rfl rfl rfl (fun _ => ⟨rfl, rfl⟩) (fun _ _ => rfl) rfl
      (by simp [hctl]) (.inl rfl) ⟨[.finished p _], rfl, by simp [Note.aboutMutex]⟩)
  | enqueue elapsed q hctl => exact .inr (.enqueueCreated hctl)
  | yieldStmt elapsed pc caller hctl => exact .inr (.yieldStmt hctl)
  | resume elapsed hctl =>
    exact .inr (.goto (by rw [hctl]; rfl) (by simp) (by rw [hctl]; rfl) rfl)
  | signal hmask => exact .inr .timerSignalHandler

end Machine

end UserLevelOs.Threads
