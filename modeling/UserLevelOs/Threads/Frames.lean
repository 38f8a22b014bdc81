import UserLevelOs.Threads.Scheduler

/-!
# What a step of a thread leaves alone

Apart from the two steps of `worker_create` and its end, whatever a thread does in its own
context leaves the lists and queues of threads as they are; the other threads stay where they
are, and of their blocks at most `seeking_lock` is cleared.

## Main definitions

* `Machine.Own` — what any other step of a thread changes.
* `JoinStage` — how far a call of `worker_join` has got.
* `Machine.JoinStep`, `Machine.Apart` — the steps that have to do with a join, and what the
  others change.
* `Machine.MutexStep` — the steps that concern a mutex.
* `Machine.DestroyStep` — the statements of `worker_mutex_destroy`.
* `Machine.ThreadStep` — every step of a thread in its own context.

## Main statements

* `Machine.destroyStmt_ok`, `Machine.broadcastLockRelease_tcbAt`.
* `Machine.execThread_ok`, `Machine.execThread_steps`, `Machine.exec_cases`.
-/

namespace UserLevelOs.Threads

open UserLevelOs.Lib

/-- A note of something that the thread `p` does between its beginning and its end. -/
def Note.tells (p : TcbPtr) : Note → Prop
  | .enqueued _ | .finished _ _ => False
  | .joining c _ _ | .joined c _ _ | .stored c _ _ | .locked c _ | .unlocking c _ => c = p
  | .inited _ | .destroyed _ => True

/-- A note of what happens to a call of `worker_join`. -/
def Note.aboutJoin : Note → Bool
  | .joining _ _ _ | .joined _ _ _ | .stored _ _ _ => true
  | _ => false

/-- How far a call of `worker_join` has got. -/
inductive JoinStage
  /-- The thread has been found in `ended_tcbs`. -/
  | storing (ended : TcbPtr) (thread : Worker) (valuePtr : Addr)
  /-- It has not, and `join_tid` is not set yet. -/
  | registering (thread : Worker) (valuePtr : Addr)
  /-- `join_tid` has been set. -/
  | pending (thread : Worker) (valuePtr : Addr)
  deriving DecidableEq, Repr

def Ctl.joinStage : Ctl → Option JoinStage
  | .joinStore ended thread valuePtr => some (.storing ended thread valuePtr)
  | .joinTid thread valuePtr => some (.registering thread valuePtr)
  | .joinRetval thread valuePtr => some (.pending thread valuePtr)
  | .yield _ (.join thread valuePtr) => some (.pending thread valuePtr)
  | .resume (.join thread valuePtr) => some (.pending thread valuePtr)
  | _ => none

namespace Machine

/-- A step of the thread `p`: the lists of threads stay, and of another thread at most
`seeking_lock` is cleared. -/
structure Own (p : TcbPtr) (s s' : Machine) : Prop where
  qArrival : s'.qArrival = s.qArrival
  tcbs : s'.tcbs = s.tcbs
  endedTcbs : s'.endedTcbs = s.endedTcbs
  allQueue : s'.allQueue = s.allQueue
  running : s'.running = s.running
  cpu : s'.cpu = s.cpu ∨ s'.cpu = .scheduler
  schedulerEntered : s'.schedulerEntered = s.schedulerEntered
  allocated : s'.allocated = s.allocated
  lastCreatedWorkerTid : s'.lastCreatedWorkerTid = s.lastCreatedWorkerTid
  ctl : ∀ q ≠ p, s'.ctl q = s.ctl q
  create : ∀ q, s'.ctl p = .create q → s.ctl p = .create q
  other : ∀ q ≠ p,
    s'.tcbAt q = s.tcbAt q ∨ s'.tcbAt q = { s.tcbAt q with seekingLock := NONEXISTENT_MUTEX }
  threadId : (s'.tcbAt p).threadId = (s.tcbAt p).threadId
  priorityLevel : (s'.tcbAt p).priorityLevel = (s.tcbAt p).priorityLevel
  history : ∃ notes, s'.history = notes ++ s.history ∧ ∀ n ∈ notes, n.tells p

/-- A step of the thread `p` that does nothing about a join. -/
structure Apart (p : TcbPtr) (s s' : Machine) : Prop extends Own p s s' where
  joinTid : (s'.tcbAt p).joinTid = (s.tcbAt p).joinTid
  joinRetval : (s'.tcbAt p).joinRetval = (s.tcbAt p).joinRetval
  stage : (s'.ctl p).joinStage = (s.ctl p).joinStage
  /-- A thread comes to wait for the scheduler only by leaving the processor. -/
  resume : ∀ c, s'.ctl p = .resume c → s'.cpu = .scheduler ∨ s.ctl p = .resume c
  silent : ∃ notes, s'.history = notes ++ s.history ∧ ∀ n ∈ notes, n.aboutJoin = false

/-- A step of the thread `p` in `worker_join`, other than those of `worker_yield`. -/
inductive JoinStep (s : Machine) (p : TcbPtr) : Event → Machine → Prop
  | call (thread : Worker) (valuePtr : Addr) (hctl : s.ctl p = .program) :
    JoinStep s p (.call (.join thread valuePtr)) (s.workerJoin p thread valuePtr)
  | store (elapsed : UInt32) (ended : TcbPtr) (thread : Worker) (valuePtr : Addr) (s₁ : Machine)
    (hctl : s.ctl p = .joinStore ended thread valuePtr)
    (hstore : s.storeIf (valuePtr != NULL) p valuePtr (s.tcbAt ended).retValue = .ok s₁) :
    JoinStep s p (.proceed elapsed) ((s₁.note (.joined p thread valuePtr)).goto p .program)
  | register (elapsed : UInt32) (thread : Worker) (valuePtr : Addr)
    (hctl : s.ctl p = .joinTid thread valuePtr) :
    JoinStep s p (.proceed elapsed)
      ((s.setTcb p { s.tcbAt p with joinTid := thread }).goto p (.joinRetval thread valuePtr))
  | retval (elapsed : UInt32) (thread : Worker) (valuePtr : Addr)
    (hctl : s.ctl p = .joinRetval thread valuePtr) :
    JoinStep s p (.proceed elapsed)
      ((s.setTcb p { s.tcbAt p with joinRetval := valuePtr }).goto p
        (.yield .add (.join thread valuePtr)))
  | done (elapsed : UInt32) (thread : Worker) (valuePtr : Addr)
    (hctl : s.ctl p = .resume (.join thread valuePtr)) :
    JoinStep s p (.proceed elapsed) ((s.note (.joined p thread valuePtr)).goto p .program)

/-- A step of the thread `p` that looks at the mutexes. -/
inductive MutexStep (s : Machine) (p : TcbPtr) : Event → Machine → Prop
  | init (mutex : Addr) (item : NodePtr) {s' : Machine} (hctl : s.ctl p = .program)
    (h : s.workerMutexInit mutex item = .ok s') :
    MutexStep s p (.call (.mutexInit mutex item)) s'
  | lock (mutex : Addr) {s' : Machine} (hctl : s.ctl p = .program)
    (h : s.workerMutexLock p mutex = .ok s') : MutexStep s p (.call (.mutexLock mutex)) s'
  | relock (elapsed : UInt32) (mutex : Addr) {s' : Machine}
    (hctl : s.ctl p = .resume (.lock mutex)) (h : s.workerMutexLock p mutex = .ok s') :
    MutexStep s p (.proceed elapsed) s'
  | unlock (mutex : Addr) {s' : Machine} (hctl : s.ctl p = .program)
    (h : s.workerMutexUnlock p mutex = .ok s') : MutexStep s p (.call (.mutexUnlock mutex)) s'
  | destroy (mutex : Addr) {s' : Machine} (hctl : s.ctl p = .program)
    (h : s.workerMutexDestroy p mutex = .ok s') : MutexStep s p (.call (.mutexDestroy mutex)) s'
  | destroyStmt (elapsed : UInt32) (masked : Bool) (mutex : Addr) (num : WorkerMutex)
    (pc : DestroyAt) {s' : Machine} (hctl : s.ctl p = .destroy masked mutex num pc)
    (h : s.destroyStmt p masked mutex num pc = .ok s') : MutexStep s p (.proceed elapsed) s'

/-- The statements of `worker_mutex_destroy` but the last: which comes next, and the state but for
that. -/
inductive DestroyStep (s : Machine) (mutex : Addr) : DestroyAt → DestroyAt → Machine → Prop
  | readFront {front : NodePtr} (hfront : s.mutexes.front = some front) :
    DestroyStep s mutex .readFront (.testFront front) s
  | frontIs {front : NodePtr} {node : MutexNode} (hnode : s.mutexes.nodes front = some node)
    (hnum : node.lockNum = s.vars mutex) :
    DestroyStep s mutex (.testFront front) (.clearFront front) s
  | frontIsNot {front : NodePtr} {node : MutexNode} (hnode : s.mutexes.nodes front = some node)
    (hnum : node.lockNum ≠ s.vars mutex) :
    DestroyStep s mutex (.testFront front) (.startWalk front) s
  | clearFront (front : NodePtr) :
    DestroyStep s mutex (.clearFront front) (.unlinkFront front) (s.assign mutex NONEXISTENT_MUTEX)
  | unlinkFront {front : NodePtr} {node : MutexNode} (hnode : s.mutexes.nodes front = some node) :
    DestroyStep s mutex (.unlinkFront front) (.release front)
      { s with mutexes := { s.mutexes with front := node.next } }
  | startWalk {front : NodePtr} {node : MutexNode} (hnode : s.mutexes.nodes front = some node) :
    DestroyStep s mutex (.startWalk front) (.testPtr (some front) node.next) s
  | giveUp (prev : Option NodePtr) : DestroyStep s mutex (.testPtr prev none) .unblock s
  | ptrIs {prev : Option NodePtr} {ptr : NodePtr} {node : MutexNode}
    (hnode : s.mutexes.nodes ptr = some node) (hnum : node.lockNum = s.vars mutex) :
    DestroyStep s mutex (.testPtr prev (some ptr)) (.clearPtr prev ptr) s
  | ptrIsNot {prev : Option NodePtr} {ptr : NodePtr} {node : MutexNode}
    (hnode : s.mutexes.nodes ptr = some node) (hnum : node.lockNum ≠ s.vars mutex) :
    DestroyStep s mutex (.testPtr prev (some ptr)) (.advance prev ptr) s
  | clearPtr (prev : Option NodePtr) (ptr : NodePtr) :
    DestroyStep s mutex (.clearPtr prev ptr) (.unlinkPtr prev ptr)
      (s.assign mutex NONEXISTENT_MUTEX)
  | unlinkPtr {prev ptr : NodePtr} {before node : MutexNode}
    (hnode : s.mutexes.nodes ptr = some node) (hbefore : s.mutexes.nodes prev = some before) :
    DestroyStep s mutex (.unlinkPtr (some prev) ptr) (.release ptr)
      { s with mutexes := s.mutexes.setNode prev { before with next := node.next } }
  | advance {prev ptr : NodePtr} {before node : MutexNode}
    (hbefore : s.mutexes.nodes prev = some before) (hnode : s.mutexes.nodes ptr = some node) :
    DestroyStep s mutex (.advance (some prev) ptr) (.testPtr before.next node.next) s
  | release (ptr : NodePtr) :
    DestroyStep s mutex (.release ptr) .unblock
      { s with mutexes :=
        { s.mutexes with nodes := Function.update s.mutexes.nodes ptr none } }

/-- A step of the thread `p` in its own context. -/
inductive ThreadStep (s : Machine) (p : TcbPtr) : Event → Machine → Prop
  | create (thread : Addr) (hctl : s.ctl p = .program) :
    ThreadStep s p (.call (.create thread)) (s.workerCreate p thread)
  | yield (hctl : s.ctl p = .program) :
    ThreadStep s p (.call .yield) (s.goto p (.yield .add .program))
  | exit (valuePtr : Value) (hctl : s.ctl p = .program) :
    ThreadStep s p (.call (.exit valuePtr)) (s.workerExit p valuePtr)
  | join {e : Event} {s' : Machine} (h : JoinStep s p e s') : ThreadStep s p e s'
  | mutex {e : Event} {s' : Machine} (h : MutexStep s p e s') : ThreadStep s p e s'
  | assign (a : Addr) (v : UInt32) (hctl : s.ctl p = .program) :
    ThreadStep s p (.assign a v) (s.assign a v)
  | finish (hctl : s.ctl p = .program) (hmain : p ≠ mainTcb) :
    ThreadStep s p .finish { s.note (.finished p (s.tcbAt p).retValue) with cpu := .cleanup }
  | enqueue (elapsed : UInt32) (q : TcbPtr) (hctl : s.ctl p = .create q) :
    ThreadStep s p (.proceed elapsed) (s.enqueueCreated p q)
  | yieldStmt (elapsed : UInt32) (pc : YieldAt) (caller : Caller)
    (hctl : s.ctl p = .yield pc caller) :
    ThreadStep s p (.proceed elapsed) (s.yieldStmt p elapsed caller pc)
  | resume (elapsed : UInt32) (hctl : s.ctl p = .resume .program) :
    ThreadStep s p (.proceed elapsed) (s.goto p .program)
  | signal (hmask : (s.ctl p).masked = false) : ThreadStep s p .signal (s.timerSignalHandler p)

theorem destroyStmt_ok {s s' : Machine} {p : TcbPtr} {masked : Bool} {mutex : Addr}
    {num : WorkerMutex} {pc : DestroyAt} (h : s.destroyStmt p masked mutex num pc = .ok s') :
    (∃ pc' t, s.DestroyStep mutex pc pc' t ∧ s' = t.goto p (.destroy masked mutex num pc')) ∨
      (pc = .unblock ∧ s' = (s.note (.destroyed num)).goto p .program) := by
  cases pc with
  | readFront =>
    simp only [destroyStmt] at h
    split at h
    · cases h
    · next hfront =>
      cases h
      exact .inl ⟨_, _, .readFront hfront, rfl⟩
  | testFront front =>
    obtain ⟨node, hderef, h⟩ := bind_eq_ok.mp h
    have hnode := Mutexes.deref_ok hderef
    cases h
    split
    · next hnum => exact .inl ⟨_, _, .frontIs hnode hnum, rfl⟩
    · next hnum => exact .inl ⟨_, _, .frontIsNot hnode hnum, rfl⟩
  | clearFront front =>
    cases h
    exact .inl ⟨_, _, .clearFront front, rfl⟩
  | unlinkFront front =>
    obtain ⟨node, hderef, h⟩ := bind_eq_ok.mp h
    cases h
    exact .inl ⟨_, _, .unlinkFront (Mutexes.deref_ok hderef), rfl⟩
  | startWalk front =>
    obtain ⟨node, hderef, h⟩ := bind_eq_ok.mp h
    cases h
    exact .inl ⟨_, _, .startWalk (Mutexes.deref_ok hderef), rfl⟩
  | testPtr prev ptr =>
    cases ptr with
    | none =>
      cases h
      exact .inl ⟨_, _, .giveUp prev, rfl⟩
    | some ptr =>
      obtain ⟨node, hderef, h⟩ := bind_eq_ok.mp h
      have hnode := Mutexes.deref_ok hderef
      cases h
      split
      · next hnum => exact .inl ⟨_, _, .ptrIs hnode hnum, rfl⟩
      · next hnum => exact .inl ⟨_, _, .ptrIsNot hnode hnum, rfl⟩
  | clearPtr prev ptr =>
    cases h
    exact .inl ⟨_, _, .clearPtr prev ptr, rfl⟩
  | unlinkPtr prev ptr =>
    cases prev with
    | none => cases h
    | some prev =>
      obtain ⟨node, hderef, h⟩ := bind_eq_ok.mp h
      obtain ⟨before, hderef', h⟩ := bind_eq_ok.mp h
      cases h
      exact .inl ⟨_, _, .unlinkPtr (Mutexes.deref_ok hderef) (Mutexes.deref_ok hderef'), rfl⟩
  | advance prev ptr =>
    cases prev with
    | none => cases h
    | some prev =>
      obtain ⟨before, hderef, h⟩ := bind_eq_ok.mp h
      obtain ⟨node, hderef', h⟩ := bind_eq_ok.mp h
      cases h
      exact .inl ⟨_, _, .advance (Mutexes.deref_ok hderef) (Mutexes.deref_ok hderef'), rfl⟩
  | release ptr =>
    obtain ⟨node, -, h⟩ := bind_eq_ok.mp h
    cases h
    exact .inl ⟨_, _, .release ptr, rfl⟩
  | unblock =>
    cases h
    exact .inr ⟨rfl, rfl⟩

/-- They change at most the list of mutexes and the caller's variable. -/
theorem DestroyStep.eq {s t : Machine} {mutex : Addr} {pc pc' : DestroyAt}
    (h : s.DestroyStep mutex pc pc' t) : t = { s with mutexes := t.mutexes, vars := t.vars } := by
  cases h <;> rfl

theorem broadcastLoop_eq (mutex : WorkerMutex) (ps : List TcbPtr) (result : Bool) (tcbAt : Tcbs)
    (q : TcbPtr) : (broadcastLoop mutex ps result tcbAt).2 q =
      if q ∈ ps ∧ (tcbAt q).seekingLock = mutex then
        { tcbAt q with seekingLock := NONEXISTENT_MUTEX }
      else tcbAt q := by
  induction ps generalizing result tcbAt with
  | nil => simp [broadcastLoop]
  | cons ptr ps ih =>
    unfold broadcastLoop
    by_cases hq : q = ptr
    · subst hq
      by_cases hm : (tcbAt q).seekingLock = mutex
      · simp [ih, hm]
      · simp [ih, hm]
    · split <;> simp [ih, hq]

/-- The threads in `tcbs` that seek the mutex no longer do. -/
theorem broadcastLockRelease_tcbAt (s : Machine) (mutex : WorkerMutex) (q : TcbPtr) :
    (s.broadcastLockRelease mutex).2.tcbAt q =
      if q ∈ s.tcbs.nodes ∧ (s.tcbAt q).seekingLock = mutex then
        { s.tcbAt q with seekingLock := NONEXISTENT_MUTEX }
      else s.tcbAt q :=
  broadcastLoop_eq _ _ _ _ _

namespace Own

variable {p : TcbPtr} {s s' s'' : Machine} {t : Tcb} {c : Ctl} {n : Note} {a : Addr} {v : UInt32}

theorem refl (p : TcbPtr) (s : Machine) : Own p s s where
  qArrival := rfl
  tcbs := rfl
  endedTcbs := rfl
  allQueue := rfl
  running := rfl
  cpu := .inl rfl
  schedulerEntered := rfl
  allocated := rfl
  lastCreatedWorkerTid := rfl
  ctl _ _ := rfl
  create _ h := h
  other _ _ := .inl rfl
  threadId := rfl
  priorityLevel := rfl
  history := ⟨[], by simp⟩

theorem trans (h : Own p s s') (h' : Own p s' s'') : Own p s s'' where
  qArrival := h'.qArrival.trans h.qArrival
  tcbs := h'.tcbs.trans h.tcbs
  endedTcbs := h'.endedTcbs.trans h.endedTcbs
  allQueue := h'.allQueue.trans h.allQueue
  running := h'.running.trans h.running
  cpu := by
    rcases h'.cpu with h' | h'
    · exact h.cpu.imp h'.trans h'.trans
    · exact .inr h'
  schedulerEntered := h'.schedulerEntered.trans h.schedulerEntered
  allocated := h'.allocated.trans h.allocated
  lastCreatedWorkerTid := h'.lastCreatedWorkerTid.trans h.lastCreatedWorkerTid
  ctl q hq := (h'.ctl q hq).trans (h.ctl q hq)
  create q hq := h.create q (h'.create q hq)
  other q hq := by
    rcases h'.other q hq with h₂ | h₂ <;> rcases h.other q hq with h₁ | h₁ <;> simp [h₁, h₂]
  threadId := h'.threadId.trans h.threadId
  priorityLevel := h'.priorityLevel.trans h.priorityLevel
  history := by
    obtain ⟨ns, hns, htells⟩ := h.history
    obtain ⟨ns', hns', htells'⟩ := h'.history
    refine ⟨ns' ++ ns, by simp [hns, hns'], fun n hn => ?_⟩
    rcases List.mem_append.mp hn with hn | hn
    · exact htells' n hn
    · exact htells n hn

theorem setTcb (hid : t.threadId = (s.tcbAt p).threadId)
    (hlevel : t.priorityLevel = (s.tcbAt p).priorityLevel) : Own p s (s.setTcb p t) where
  __ := refl p s
  other q hq := .inl (by simp [hq])
  threadId := by simp [hid]
  priorityLevel := by simp [hlevel]

theorem goto (hc : ∀ q, c ≠ .create q) : Own p s (s.goto p c) where
  __ := refl p s
  ctl q hq := by simp [hq]
  create q hq := absurd (by simpa using hq) (hc q)

theorem note (hn : n.tells p) : Own p s (s.note n) where
  __ := refl p s
  history := ⟨[n], rfl, by simpa using hn⟩

/-- Fields that no thread list, block or location depends on. -/
theorem of_eq (h : Own p s s') (hsame : s''.tcbAt = s'.tcbAt ∧ s''.ctl = s'.ctl ∧
      s''.qArrival = s'.qArrival ∧ s''.tcbs = s'.tcbs ∧ s''.endedTcbs = s'.endedTcbs ∧
      s''.allQueue = s'.allQueue ∧ s''.running = s'.running ∧
      s''.schedulerEntered = s'.schedulerEntered ∧ s''.allocated = s'.allocated ∧
      s''.lastCreatedWorkerTid = s'.lastCreatedWorkerTid ∧ s''.history = s'.history ∧
      (s''.cpu = s'.cpu ∨ s''.cpu = .scheduler)) : Own p s s'' := by
  obtain ⟨h₁, h₂, h₃, h₄, h₅, h₆, h₇, h₈, h₉, h₁₀, h₁₁, h₁₂⟩ := hsame
  refine h.trans ?_
  constructor <;> simp_all

theorem storeIf {b : Bool} {valuePtr : Addr} {value : Value} :
    Yields (s.storeIf b p valuePtr value) (Own p s) :=
  .ite (fun _ => .ite (fun _ => .error _) fun _ => .ok (note (by simp [Note.tells]))) fun _ =>
    .ok (refl p s)

theorem workerJoin {thread : Worker} {valuePtr : Addr} :
    Own p s (s.workerJoin p thread valuePtr) := by
  unfold Machine.workerJoin
  dsimp only
  split
  · exact (note (by simp [Note.tells])).trans (goto (by simp))
  · exact (note (by simp [Note.tells])).trans (goto (by simp))

/-! ### What it gives for any thread -/

theorem threadId_eq (h : Own p s s') (q : TcbPtr) :
    (s'.tcbAt q).threadId = (s.tcbAt q).threadId := by
  by_cases hq : q = p
  · exact hq ▸ h.threadId
  · rcases h.other q hq with h | h <;> simp [h]

theorem priorityLevel_eq (h : Own p s s') (q : TcbPtr) :
    (s'.tcbAt q).priorityLevel = (s.tcbAt q).priorityLevel := by
  by_cases hq : q = p
  · exact hq ▸ h.priorityLevel
  · rcases h.other q hq with h | h <;> simp [h]

theorem create_eq (h : Own p s s') {q r : TcbPtr} (hr : s'.ctl r = .create q) :
    s.ctl r = .create q := by
  by_cases hrp : r = p
  · subst hrp
    exact h.create q hr
  · rwa [← h.ctl r hrp]

/-- Usage is counted for the thread that runs. -/
theorem goesBefore {q r : TcbPtr} (h : Own p s s') (hq : q ≠ p) (hr : r ≠ p)
    (hqr : GoesBefore s.tcbAt q r) : GoesBefore s'.tcbAt q r := by
  rcases h.other q hq with h₁ | h₁ <;> rcases h.other r hr with h₂ | h₂ <;>
    simpa [GoesBefore, compareUsage, h₁, h₂] using hqr

end Own

namespace Apart

variable {p : TcbPtr} {s s' s'' : Machine} {t : Tcb} {c : Ctl} {n : Note} {a : Addr} {v : UInt32}

theorem refl (p : TcbPtr) (s : Machine) : Apart p s s :=
  ⟨.refl p s, rfl, rfl, rfl, fun _ => .inr, [], by simp⟩

theorem trans (h : Apart p s s') (h' : Apart p s' s'') : Apart p s s'' := by
  obtain ⟨ns, hns, hsilent⟩ := h.silent
  obtain ⟨ns', hns', hsilent'⟩ := h'.silent
  refine ⟨h.toOwn.trans h'.toOwn, h'.joinTid.trans h.joinTid, h'.joinRetval.trans h.joinRetval,
    h'.stage.trans h.stage, fun c hc => ?_, ns' ++ ns, by simp [hns, hns'], fun n hn => ?_⟩
  · rcases h'.resume c hc with hcpu | hc
    · exact .inl hcpu
    · refine (h.resume c hc).imp_left fun hcpu => ?_
      rcases h'.cpu with hsame | hsame
      · rw [hsame, hcpu]
      · exact hsame
  · rcases List.mem_append.mp hn with hn | hn
    · exact hsilent' n hn
    · exact hsilent n hn

theorem setTcb (hid : t.threadId = (s.tcbAt p).threadId)
    (hlevel : t.priorityLevel = (s.tcbAt p).priorityLevel)
    (htid : t.joinTid = (s.tcbAt p).joinTid) (hretval : t.joinRetval = (s.tcbAt p).joinRetval) :
    Apart p s (s.setTcb p t) :=
  ⟨.setTcb hid hlevel, by simp [htid], by simp [hretval], rfl, fun _ => .inr, [], by simp⟩

theorem goto (hcreate : ∀ q, c ≠ .create q) (hstage : c.joinStage = (s.ctl p).joinStage)
    (hresume : ∀ d, c = .resume d → s.cpu = .scheduler) : Apart p s (s.goto p c) :=
  ⟨.goto hcreate, rfl, rfl, by simpa using hstage,
    fun d hd => .inl (hresume d (by simpa using hd)), [], by simp⟩

theorem note (hn : n.tells p) (hjoin : n.aboutJoin = false) : Apart p s (s.note n) :=
  ⟨.note hn, rfl, rfl, rfl, fun _ => .inr, [n], by simp [hjoin]⟩

/-- Fields that neither a block nor a thread's place depends on. -/
theorem of_eq (h : Apart p s s') (hsame : s''.tcbAt = s'.tcbAt ∧ s''.ctl = s'.ctl ∧
      s''.qArrival = s'.qArrival ∧ s''.tcbs = s'.tcbs ∧ s''.endedTcbs = s'.endedTcbs ∧
      s''.allQueue = s'.allQueue ∧ s''.running = s'.running ∧
      s''.schedulerEntered = s'.schedulerEntered ∧ s''.allocated = s'.allocated ∧
      s''.lastCreatedWorkerTid = s'.lastCreatedWorkerTid ∧ s''.history = s'.history ∧
      (s''.cpu = s'.cpu ∨ s''.cpu = .scheduler)) : Apart p s s'' := by
  have hown := h.toOwn.of_eq hsame
  obtain ⟨htcb, hctl, -, -, -, -, -, -, -, -, hhist, hcpu⟩ := hsame
  refine ⟨hown, by rw [htcb, h.joinTid], by rw [htcb, h.joinRetval], by rw [hctl, h.stage],
    fun c hc => ?_, by rw [hhist]; exact h.silent⟩
  refine (h.resume c (hctl ▸ hc)).imp_left fun hsched => ?_
  rcases hcpu with hsame | hsame
  · rw [hsame, hsched]
  · exact hsame

theorem workerMutexInit {mutex : Addr} {item : NodePtr} :
    Yields (s.workerMutexInit mutex item) (Apart p s) := by
  unfold Machine.workerMutexInit
  split
  · exact .error _
  · have hnote : Apart p s (s.note (.inited (s.currentMutexNum + 1))) :=
      note (by simp [Note.tells]) rfl
    exact .ok (hnote.trans ((refl p _).of_eq (by simp)))

theorem workerMutexLock {mutex : Addr} (hctl : (s.ctl p).joinStage = none) :
    Yields (s.workerMutexLock p mutex) (Apart p s) := by
  refine .of_bind fun held => .ite (fun _ => .of_bind fun found => ?_) fun _ => ?_
  · cases found with
    | none => exact .error _
    | some n =>
      refine .of_bind fun node => .ok (Apart.trans (Apart.trans ?_ (note ?_ rfl))
        (goto (by simp) hctl.symm (by simp)))
      · exact (refl p s).of_eq (by simp)
      · simp [Note.tells]
  · exact .ok ((setTcb (by rfl) (by rfl) (by rfl) (by rfl)).trans
      (goto (by simp) hctl.symm (by simp)))

theorem broadcastLockRelease {mutex : WorkerMutex} :
    Apart p s (s.broadcastLockRelease mutex).2 := by
  have hother : ∀ q, (s.broadcastLockRelease mutex).2.tcbAt q = s.tcbAt q ∨
      (s.broadcastLockRelease mutex).2.tcbAt q =
        { s.tcbAt q with seekingLock := NONEXISTENT_MUTEX } := fun q => by
    rw [broadcastLockRelease_tcbAt]
    split
    · exact .inr rfl
    · exact .inl rfl
  have hown : Own p s (s.broadcastLockRelease mutex).2 :=
    { Own.refl p s with
      other := fun q _ => hother q
      threadId := by rcases hother p with h | h <;> rw [h]
      priorityLevel := by rcases hother p with h | h <;> rw [h] }
  refine ⟨hown, ?_, ?_, rfl, fun _ => .inr, [], by simp [Machine.broadcastLockRelease]⟩
  · rcases hother p with h | h <;> rw [h]
  · rcases hother p with h | h <;> rw [h]

theorem workerMutexUnlock {mutex : Addr} : Yields (s.workerMutexUnlock p mutex) (Apart p s) := by
  refine .of_bind fun held => .of_bind fun _ => .of_bind fun found => ?_
  cases found with
  | none => exact .error _
  | some n =>
    refine .of_bind fun node => .ok (Apart.trans (Apart.trans ?_ (note ?_ rfl)) broadcastLockRelease)
    · exact (refl p s).of_eq (by simp)
    · simp [Note.tells]

theorem workerMutexDestroy {mutex : Addr} (hctl : (s.ctl p).joinStage = none) :
    Yields (s.workerMutexDestroy p mutex) (Apart p s) := by
  refine .of_bind fun held => .ite (fun _ => .ok ?_) fun _ => ?_
  · exact goto (by simp) hctl.symm (by simp)
  · exact workerMutexUnlock.bind fun s' h =>
      .ok (h.trans (goto (by simp) (h.stage.trans hctl).symm (by simp)))

theorem yieldStmt {elapsed : UInt32} {caller : Caller} {pc : YieldAt}
    (hctl : s.ctl p = .yield pc caller) : Apart p s (s.yieldStmt p elapsed caller pc) := by
  have hyield : ∀ pc', (Ctl.yield pc' caller).joinStage = (s.ctl p).joinStage := fun pc' => by
    rw [hctl]
    cases caller <;> rfl
  have hresume : (Ctl.resume caller).joinStage = (s.ctl p).joinStage := by
    rw [hctl]
    cases caller <;> rfl
  cases pc with
  | add | setFull | reset | countOwn =>
    exact (setTcb (by rfl) (by rfl) (by rfl) (by rfl)).trans
      (goto (by simp) (by simpa using hyield _) (by simp))
  | test => exact goto (by simp) (hyield _) (by simp)
  | countAll => exact ((refl p s).of_eq (by simp)).trans (goto (by simp) (hyield _) (by simp))
  | swap => exact ((refl p s).of_eq (by simp)).trans (goto (by simp) hresume (by simp))

/-- Statements of `worker_mutex_destroy` move on within it. -/
theorem destroyStmt {masked : Bool} {mutex : Addr} {num : WorkerMutex} {pc : DestroyAt}
    (hctl : (s.ctl p).joinStage = none) (h : s.destroyStmt p masked mutex num pc = .ok s') :
    Apart p s s' := by
  rcases destroyStmt_ok h with ⟨pc', t, hstep, rfl⟩ | ⟨-, rfl⟩
  · have hsame : Apart p s t := by
      rw [hstep.eq]
      exact (refl p s).of_eq (by simp)
    exact hsame.trans (goto (by simp) (hsame.stage.trans hctl).symm (by simp))
  · exact (note (by simp [Note.tells]) rfl).trans (goto (by simp) hctl.symm (by simp))

theorem timerSignalHandler : Apart p s (s.timerSignalHandler p) := by
  have hset : Apart p s (s.setTcb p ((s.timerSignalHandler p).tcbAt p)) :=
    setTcb (by simp [Machine.timerSignalHandler]) (by simp [Machine.timerSignalHandler])
      (by simp [Machine.timerSignalHandler]) (by simp [Machine.timerSignalHandler])
  exact hset.trans ((refl p _).of_eq (by simp [Machine.timerSignalHandler]))

end Apart

theorem JoinStep.own {p : TcbPtr} {s s' : Machine} {e : Event} (h : JoinStep s p e s') :
    Own p s s' := by
  cases h with
  | call thread valuePtr _ => exact .workerJoin
  | store _ ended thread valuePtr s₁ _ hstore =>
    exact ((Own.storeIf _ hstore).trans (.note (by simp [Note.tells]))).trans (.goto (by simp))
  | register _ thread valuePtr _ => exact (Own.setTcb (by rfl) (by rfl)).trans (.goto (by simp))
  | retval _ thread valuePtr _ => exact (Own.setTcb (by rfl) (by rfl)).trans (.goto (by simp))
  | done _ thread valuePtr _ => exact (Own.note (by simp [Note.tells])).trans (.goto (by simp))

theorem MutexStep.apart {p : TcbPtr} {s s' : Machine} {e : Event} (h : MutexStep s p e s') :
    Apart p s s' := by
  cases h with
  | init mutex item _ h => exact Apart.workerMutexInit _ h
  | lock mutex hctl h => exact Apart.workerMutexLock (by rw [hctl]; rfl) _ h
  | relock _ mutex hctl h => exact Apart.workerMutexLock (by rw [hctl]; rfl) _ h
  | unlock mutex _ h => exact Apart.workerMutexUnlock _ h
  | destroy mutex hctl h => exact Apart.workerMutexDestroy (by rw [hctl]; rfl) _ h
  | destroyStmt _ _ _ _ _ hctl h => exact Apart.destroyStmt (by rw [hctl]; rfl) h

/-! ## What a thread can do -/

/-- A call from the program's code. -/
theorem call_ok {p : TcbPtr} {s s' : Machine} {c : Call} (hctl : s.ctl p = .program)
    (h : s.call p c = .ok s') : ThreadStep s p (.call c) s' := by
  cases c with
  | create thread =>
    cases h
    exact .create thread hctl
  | yield =>
    cases h
    exact .yield hctl
  | exit valuePtr =>
    cases h
    exact .exit valuePtr hctl
  | join thread valuePtr =>
    cases h
    exact .join (.call thread valuePtr hctl)
  | mutexInit mutex item => exact .mutex (.init mutex item hctl h)
  | mutexLock mutex => exact .mutex (.lock mutex hctl h)
  | mutexUnlock mutex => exact .mutex (.unlock mutex hctl h)
  | mutexDestroy mutex => exact .mutex (.destroy mutex hctl h)

/-- The next statement of a function of the library. -/
theorem proceed_ok {p : TcbPtr} {s s' : Machine} {elapsed : UInt32}
    (h : s.proceed p elapsed = .ok s') : ThreadStep s p (.proceed elapsed) s' := by
  unfold proceed at h
  split at h
  · cases h
  · next q hctl =>
    cases h
    exact .enqueue elapsed q hctl
  · next ended thread valuePtr hctl =>
    obtain ⟨s₁, hstore, h⟩ := bind_eq_ok.mp h
    cases h
    exact .join (.store elapsed ended thread valuePtr s₁ hctl hstore)
  · next thread valuePtr hctl =>
    cases h
    exact .join (.register elapsed thread valuePtr hctl)
  · next thread valuePtr hctl =>
    cases h
    exact .join (.retval elapsed thread valuePtr hctl)
  · next pc caller hctl =>
    cases h
    exact .yieldStmt elapsed pc caller hctl
  · next hctl =>
    cases h
    exact .resume elapsed hctl
  · next thread valuePtr hctl =>
    cases h
    exact .join (.done elapsed thread valuePtr hctl)
  · next mutex hctl => exact .mutex (.relock elapsed mutex hctl h)
  · next hctl => exact .mutex (.destroyStmt elapsed _ _ _ _ hctl h)

/-- What an event does in a thread's context. -/
theorem execThread_ok {p : TcbPtr} {s s' : Machine} {e : Event} (h : s.execThread p e = .ok s') :
    ThreadStep s p e s' := by
  cases e with
  | call c =>
    simp only [execThread] at h
    split at h
    · next hctl => exact call_ok hctl h
    · cases h
  | assign a v =>
    simp only [execThread] at h
    split at h
    · next hctl =>
      cases h
      exact .assign a v hctl
    · cases h
  | finish =>
    simp only [execThread] at h
    split at h
    · next hctl =>
      cases h
      exact .finish hctl.1 hctl.2
    · cases h
  | proceed elapsed => exact proceed_ok h
  | signal =>
    simp only [execThread] at h
    split at h
    · cases h
    · next hmask =>
      cases h
      exact .signal (by simpa using hmask)
  | schedule => cases h
  | cleanup => cases h

/-- The steps that concern the lists of threads, those of a join, and the others. -/
theorem execThread_steps {p : TcbPtr} {s s' : Machine} {e : Event} (h : s.execThread p e = .ok s') :
    (∃ thread, e = .call (.create thread) ∧ s.ctl p = .program ∧ s' = s.workerCreate p thread) ∨
      (∃ elapsed q, e = .proceed elapsed ∧ s.ctl p = .create q ∧ s' = s.enqueueCreated p q) ∨
      (e = .finish ∧ s.ctl p = .program ∧ p ≠ mainTcb ∧
        s' = { s.note (.finished p (s.tcbAt p).retValue) with cpu := .cleanup }) ∨
      JoinStep s p e s' ∨ Apart p s s' := by
  cases execThread_ok h with
  | create thread hctl => exact .inl ⟨thread, rfl, hctl, rfl⟩
  | enqueue elapsed q hctl => exact .inr (.inl ⟨elapsed, q, rfl, hctl, rfl⟩)
  | finish hctl hmain => exact .inr (.inr (.inl ⟨rfl, hctl, hmain, rfl⟩))
  | join hjoin => exact .inr (.inr (.inr (.inl hjoin)))
  | yield hctl =>
    exact .inr (.inr (.inr (.inr (.goto (by simp) (by rw [hctl]; rfl) (by simp)))))
  | exit valuePtr hctl =>
    exact .inr (.inr (.inr (.inr (.setTcb (by rfl) (by rfl) (by rfl) (by rfl)))))
  | mutex hmutex => exact .inr (.inr (.inr (.inr hmutex.apart)))
  | assign a v hctl => exact .inr (.inr (.inr (.inr ((Apart.refl p s).of_eq (by simp)))))
  | yieldStmt elapsed pc caller hctl => exact .inr (.inr (.inr (.inr (.yieldStmt hctl))))
  | resume elapsed hctl =>
    exact .inr (.inr (.inr (.inr (.goto (by simp) (by rw [hctl]; rfl) (by simp)))))
  | signal hmask => exact .inr (.inr (.inr (.inr .timerSignalHandler)))

/-- The same when it does not matter whether the step is part of a join. -/
theorem execThread_cases {p : TcbPtr} {s s' : Machine} {e : Event} (h : s.execThread p e = .ok s') :
    (∃ thread, e = .call (.create thread) ∧ s.ctl p = .program ∧ s' = s.workerCreate p thread) ∨
      (∃ elapsed q, e = .proceed elapsed ∧ s.ctl p = .create q ∧ s' = s.enqueueCreated p q) ∨
      (e = .finish ∧ s.ctl p = .program ∧ p ≠ mainTcb ∧
        s' = { s.note (.finished p (s.tcbAt p).retValue) with cpu := .cleanup }) ∨
      Own p s s' := by
  refine (execThread_steps h).imp_right (Or.imp_right (Or.imp_right fun hrest => ?_))
  exact hrest.elim JoinStep.own Apart.toOwn

/-- Which context an event occurs in. -/
theorem exec_cases {policy : Policy} {s s' : Machine} {e : Event} (h : s.exec policy e = .ok s') :
    (∃ p, s.cpu = .thread ∧ s.running = some p ∧ s.execThread p e = .ok s') ∨
      (e = .schedule ∧ s.cpu = .scheduler ∧ s.schedule policy = .ok s') ∨
      (∃ p, e = .cleanup ∧ s.cpu = .cleanup ∧ s.running = some p ∧
        s.cleanExitedWorkerThread p = .ok s') := by
  unfold exec at h
  split at h
  · next p hcpu hrun => exact .inl ⟨p, hcpu, hrun, h⟩
  · next hcpu => exact .inr (.inl ⟨rfl, hcpu, h⟩)
  · next p hcpu hrun => exact .inr (.inr ⟨p, rfl, hcpu, hrun, h⟩)
  · cases h

end Machine

end UserLevelOs.Threads
