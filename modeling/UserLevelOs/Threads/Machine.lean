import UserLevelOs.Threads.Mutexes
import Mathlib.Tactic.Simps.Basic

/-!
# The threads library as a machine

One processor runs the context of the running thread, the scheduler's or the cleanup's.  What
a thread does with `SIGPROF` blocked and without leaving its context is one step; elsewhere
each statement that reads or writes something shared is a step of its own, and the timer's
signal may come before any of them.

## Main definitions

* `Ctl` — where a thread stands in the library's code.
* `Machine` — the globals of the library, the contexts, the program's variables.
* `Machine.call` — the first step of each function of the library.
* `Machine.proceed` — the next step of a function that has not returned.
* `Machine.timerSignalHandler`, `Machine.cleanExitedWorkerThread`.
-/

namespace UserLevelOs.Threads

open UserLevelOs.Lib

/-! ## Contexts -/

/-- The statement of `worker_yield` that comes next. -/
inductive YieldAt
  | add | test | setFull | reset | countOwn | countAll | swap
  deriving DecidableEq, Repr

/-- Who called `worker_yield`. -/
inductive Caller
  | program
  | join (thread : Worker) (valuePtr : Addr)
  | lock (mutex : Addr)
  deriving DecidableEq, Repr

/-- The statement of `worker_mutex_destroy` that comes next, once the mutex is free. -/
inductive DestroyAt
  | readFront
  | testFront (front : NodePtr)
  | clearFront (front : NodePtr)
  | unlinkFront (front : NodePtr)
  | startWalk (front : NodePtr)
  | testPtr (prev ptr : Option NodePtr)
  | clearPtr (prev : Option NodePtr) (ptr : NodePtr)
  | unlinkPtr (prev : Option NodePtr) (ptr : NodePtr)
  | advance (prev : Option NodePtr) (ptr : NodePtr)
  | release (node : NodePtr)
  | unblock
  deriving DecidableEq, Repr

inductive Ctl
  /-- In the program's own code. -/
  | program
  /-- In `worker_create`, with a block that is not in `q_arrival` yet. -/
  | create (newTcb : TcbPtr)
  /-- In `worker_join`, with the block of a thread that has ended. -/
  | joinStore (ended : TcbPtr) (thread : Worker) (valuePtr : Addr)
  /-- In `worker_join`, about to set `join_tid`. -/
  | joinTid (thread : Worker) (valuePtr : Addr)
  /-- In `worker_join`, about to set `join_retval`. -/
  | joinRetval (thread : Worker) (valuePtr : Addr)
  | yield (pc : YieldAt) (caller : Caller)
  /-- Back from the scheduler in `worker_yield`. -/
  | resume (caller : Caller)
  /-- In `worker_mutex_destroy` of the mutex that had the number `num` at the call. -/
  | destroy (masked : Bool) (mutex : Addr) (num : WorkerMutex) (pc : DestroyAt)
  deriving DecidableEq, Repr

/-- `SIGPROF` is blocked. -/
def Ctl.masked : Ctl → Bool
  | .yield _ (.lock _) => true
  | .resume (.lock _) => true
  | .destroy masked _ _ _ => masked
  | _ => false

inductive Cpu
  | thread
  | scheduler
  | cleanup
  deriving DecidableEq, Repr

/-- What the program can tell has happened. -/
inductive Note
  | enqueued (newTcb : TcbPtr)
  | joining (caller : TcbPtr) (thread : Worker) (valuePtr : Addr)
  | joined (caller : TcbPtr) (thread : Worker) (valuePtr : Addr)
  | stored (caller : TcbPtr) (valuePtr : Addr) (value : Value)
  | finished (thread : TcbPtr) (retValue : Value)
  | locked (caller : TcbPtr) (mutex : NodePtr)
  | unlocking (caller : TcbPtr) (mutex : NodePtr)
  | inited (num : WorkerMutex)
  | destroyed (num : WorkerMutex)
  deriving DecidableEq, Repr

structure Machine where
  tcbAt : Tcbs
  /-- How many blocks are allocated. -/
  allocated : ℕ
  lastCreatedWorkerTid : Worker
  currentMutexNum : WorkerMutex
  mutexes : Mutexes
  qArrival : Queue
  tcbs : ThreadList
  endedTcbs : ThreadList
  allQueue : ℕ → Queue
  totalQuantumsElapsed : UInt32
  running : Option TcbPtr
  /-- `it_value` of the timer. -/
  timer : ℤ
  cpu : Cpu
  /-- The scheduler's context has run before. -/
  schedulerEntered : Bool
  ctl : TcbPtr → Ctl
  /-- The program's `worker_t` and `worker_mutex_t` variables. -/
  vars : Addr → UInt32
  /-- Read by no function of the library; the last is first. -/
  history : List Note

namespace Machine

@[simps -fullyApplied]
def setTcb (s : Machine) (p : TcbPtr) (t : Tcb) : Machine :=
  { s with tcbAt := Function.update s.tcbAt p t }

@[simps -fullyApplied]
def goto (s : Machine) (p : TcbPtr) (c : Ctl) : Machine :=
  { s with ctl := Function.update s.ctl p c }

@[simps -fullyApplied]
def note (s : Machine) (n : Note) : Machine := { s with history := n :: s.history }

@[simps -fullyApplied]
def assign (s : Machine) (a : Addr) (v : UInt32) : Machine :=
  { s with vars := Function.update s.vars a v }

/-- `*valuePtr = value`, on behalf of the thread `p` that has called `worker_join`. -/
def store (s : Machine) (p : TcbPtr) (valuePtr : Addr) (value : Value) : Except Fault Machine :=
  if valuePtr = NULL then .error .nullStore else .ok (s.note (.stored p valuePtr value))

/-- A store that is made only under the condition `c`. -/
def storeIf (s : Machine) (c : Bool) (p : TcbPtr) (valuePtr : Addr) (value : Value) :
    Except Fault Machine :=
  if c then s.store p valuePtr value else .ok s

/-! ## Functions called by threads -/

/-- The block that `worker_create` makes. -/
def newTcb (tid : Worker) : Tcb where
  threadId := tid
  retValue := NULL
  joinTid := NONEXISTENT_THREAD
  joinRetval := NULL
  seekingLock := NONEXISTENT_MUTEX
  quantumsElapsed := 0
  quantumAmtUsed := 0
  timeQuantumUsedUpFully := false
  priorityLevel := 0

/-- `worker_create` up to the signal mask: the block is made and its number given out. -/
def workerCreate (s : Machine) (p : TcbPtr) (thread : Addr) : Machine :=
  let tid := s.lastCreatedWorkerTid + 1
  let s := { s with lastCreatedWorkerTid := tid, allocated := s.allocated + 1 }
  ((s.setTcb (s.allocated - 1) (newTcb tid)).assign thread tid).goto p (.create (s.allocated - 1))

/-- The rest of `worker_create`. -/
def enqueueCreated (s : Machine) (p newTcb : TcbPtr) : Machine :=
  ({ s with qArrival := enqueue s.qArrival newTcb }.note (.enqueued newTcb)).goto p .program

def workerExit (s : Machine) (p : TcbPtr) (valuePtr : Value) : Machine :=
  s.setTcb p { s.tcbAt p with retValue := valuePtr }

/-- `worker_join` up to the test of what was found in `ended_tcbs`. -/
def workerJoin (s : Machine) (p : TcbPtr) (thread : Worker) (valuePtr : Addr) : Machine :=
  let s := s.note (.joining p thread valuePtr)
  match contains s.tcbAt s.endedTcbs thread with
  | some ended => s.goto p (.joinStore ended thread valuePtr)
  | none => s.goto p (.joinTid thread valuePtr)

/-- `malloc` puts the new node at `item`, where there is none. -/
def workerMutexInit (s : Machine) (mutex : Addr) (item : NodePtr) : Except Fault Machine :=
  match s.mutexes.nodes item with
  | some _ => .error .notNow
  | none =>
    let num := s.currentMutexNum + 1
    let node : MutexNode :=
      { lockNum := num, holderTid := NONEXISTENT_THREAD, next := s.mutexes.front }
    let mutexes : Mutexes :=
      { front := some item
        nodes := Function.update s.mutexes.nodes item (some node)
        mallocs := s.mutexes.mallocs + 1 }
    .ok ((({ s with currentMutexNum := num, mutexes }).assign mutex num).note (.inited num))

/-- `worker_mutex_lock` from the loop's test on, until it returns or yields. -/
def workerMutexLock (s : Machine) (p : TcbPtr) (mutex : Addr) : Except Fault Machine := do
  if ← isHeldBy s.mutexes NONEXISTENT_THREAD (s.vars mutex) then
    match ← fetchFromMutexes s.mutexes (s.vars mutex) with
    | none => .error (.assertion .lockFetched)
    | some n =>
      let m ← s.mutexes.deref (some n)
      let mutexes := s.mutexes.setNode n { m with holderTid := (s.tcbAt p).threadId }
      return (({ s with mutexes }).note (.locked p n)).goto p .program
  else
    return (s.setTcb p { s.tcbAt p with seekingLock := s.vars mutex }).goto p
      (.yield .add (.lock mutex))

def broadcastLoop (mutex : WorkerMutex) : List TcbPtr → Bool → Tcbs → Bool × Tcbs
  | [], result, tcbAt => (result, tcbAt)
  | ptr :: rest, result, tcbAt =>
    if (tcbAt ptr).seekingLock = mutex then
      broadcastLoop mutex rest true
        (Function.update tcbAt ptr { tcbAt ptr with seekingLock := NONEXISTENT_MUTEX })
    else broadcastLoop mutex rest result tcbAt

def broadcastLockRelease (s : Machine) (mutex : WorkerMutex) : Bool × Machine :=
  let (result, tcbAt) := broadcastLoop mutex s.tcbs.nodes false s.tcbAt
  (result, { s with tcbAt })

def workerMutexUnlock (s : Machine) (p : TcbPtr) (mutex : Addr) : Except Fault Machine := do
  assert (← isHeldBy s.mutexes (s.tcbAt p).threadId (s.vars mutex)) .unlockHeld
  match ← fetchFromMutexes s.mutexes (s.vars mutex) with
  | none => .error .wild
  | some n =>
    let m ← s.mutexes.deref (some n)
    let mutexes := s.mutexes.setNode n { m with holderTid := NONEXISTENT_THREAD }
    return ((({ s with mutexes }).note (.unlocking p n)).broadcastLockRelease (s.vars mutex)).2

/-- `worker_mutex_destroy` until the mutex is free.  The nested `worker_mutex_unlock` unblocks
the signal for what follows. -/
def workerMutexDestroy (s : Machine) (p : TcbPtr) (mutex : Addr) : Except Fault Machine := do
  let num := s.vars mutex
  if ← isHeldBy s.mutexes NONEXISTENT_THREAD num then
    return s.goto p (.destroy true mutex num .readFront)
  else
    let s ← s.workerMutexUnlock p mutex
    return s.goto p (.destroy false mutex num .readFront)

/-- The functions of the library, with their arguments. -/
inductive Call
  | create (thread : Addr)
  | yield
  | exit (valuePtr : Value)
  | join (thread : Worker) (valuePtr : Addr)
  | mutexInit (mutex : Addr) (item : NodePtr)
  | mutexLock (mutex : Addr)
  | mutexUnlock (mutex : Addr)
  | mutexDestroy (mutex : Addr)
  deriving DecidableEq, Repr

/-- The running thread `p`, in the program's code, calls a function of the library. -/
def call (s : Machine) (p : TcbPtr) : Call → Except Fault Machine
  | .create thread => .ok (s.workerCreate p thread)
  | .yield => .ok (s.goto p (.yield .add .program))
  | .exit valuePtr => .ok (s.workerExit p valuePtr)
  | .join thread valuePtr => .ok (s.workerJoin p thread valuePtr)
  | .mutexInit mutex item => s.workerMutexInit mutex item
  | .mutexLock mutex => s.workerMutexLock p mutex
  | .mutexUnlock mutex => s.workerMutexUnlock p mutex
  | .mutexDestroy mutex => s.workerMutexDestroy p mutex

/-! ## The statements of functions that have not returned -/

/-- A statement of `worker_yield`, called by `p`; the clock says that `elapsed` microseconds
have passed since `p` was scheduled. -/
def yieldStmt (s : Machine) (p : TcbPtr) (elapsed : UInt32) (caller : Caller) : YieldAt → Machine
  | .add =>
    (s.setTcb p { s.tcbAt p with quantumAmtUsed := (s.tcbAt p).quantumAmtUsed + elapsed }).goto p
      (.yield .test caller)
  | .test =>
    s.goto p (.yield (if TIME_QUANTUM ≤ (s.tcbAt p).quantumAmtUsed.toNat then .setFull else .swap)
      caller)
  | .setFull =>
    (s.setTcb p { s.tcbAt p with timeQuantumUsedUpFully := true }).goto p (.yield .reset caller)
  | .reset =>
    (s.setTcb p { s.tcbAt p with quantumAmtUsed := 0 }).goto p (.yield .countOwn caller)
  | .countOwn =>
    (s.setTcb p { s.tcbAt p with quantumsElapsed := (s.tcbAt p).quantumsElapsed + 1 }).goto p
      (.yield .countAll caller)
  | .countAll =>
    { s with totalQuantumsElapsed := s.totalQuantumsElapsed + 1 }.goto p (.yield .swap caller)
  | .swap => { s with cpu := .scheduler }.goto p (.resume caller)

/-- A statement of `worker_mutex_destroy`, called by `p`. -/
def destroyStmt (s : Machine) (p : TcbPtr) (masked : Bool) (mutex : Addr) (num : WorkerMutex) :
    DestroyAt → Except Fault Machine
  | .readFront =>
    match s.mutexes.front with
    | none => .error (.assertion .destroyFront)
    | some front => .ok (s.goto p (.destroy masked mutex num (.testFront front)))
  | .testFront front => do
    let node ← s.mutexes.deref (some front)
    return s.goto p (.destroy masked mutex num
      (if node.lockNum = s.vars mutex then .clearFront front else .startWalk front))
  | .clearFront front =>
    .ok ((s.assign mutex NONEXISTENT_MUTEX).goto p (.destroy masked mutex num (.unlinkFront front)))
  | .unlinkFront front => do
    let node ← s.mutexes.deref (some front)
    return { s with mutexes := { s.mutexes with front := node.next } }.goto p
      (.destroy masked mutex num (.release front))
  | .startWalk front => do
    let node ← s.mutexes.deref (some front)
    return s.goto p (.destroy masked mutex num (.testPtr (some front) node.next))
  | .testPtr _ none => .ok (s.goto p (.destroy masked mutex num .unblock))
  | .testPtr prev (some ptr) => do
    let node ← s.mutexes.deref (some ptr)
    return s.goto p (.destroy masked mutex num
      (if node.lockNum = s.vars mutex then .clearPtr prev ptr else .advance prev ptr))
  | .clearPtr prev ptr =>
    .ok ((s.assign mutex NONEXISTENT_MUTEX).goto p
      (.destroy masked mutex num (.unlinkPtr prev ptr)))
  | .unlinkPtr none _ => .error .wild
  | .unlinkPtr (some prev) ptr => do
    let node ← s.mutexes.deref (some ptr)
    let before ← s.mutexes.deref (some prev)
    return { s with mutexes := s.mutexes.setNode prev { before with next := node.next } }.goto p
      (.destroy masked mutex num (.release ptr))
  | .advance prev ptr => do
    let before ← s.mutexes.deref prev
    let node ← s.mutexes.deref (some ptr)
    return s.goto p (.destroy masked mutex num (.testPtr before.next node.next))
  | .release ptr => do
    let _ ← s.mutexes.deref (some ptr)
    let nodes := Function.update s.mutexes.nodes ptr none
    return { s with mutexes := { s.mutexes with nodes } }.goto p
      (.destroy masked mutex num .unblock)
  | .unblock => .ok ((s.note (.destroyed num)).goto p .program)

/-- The next statement of the running thread `p`. -/
def proceed (s : Machine) (p : TcbPtr) (elapsed : UInt32) : Except Fault Machine :=
  match s.ctl p with
  | .program => .error .notNow
  | .create newTcb => .ok (s.enqueueCreated p newTcb)
  | .joinStore ended thread valuePtr => do
    let s ← s.storeIf (valuePtr != NULL) p valuePtr (s.tcbAt ended).retValue
    return (s.note (.joined p thread valuePtr)).goto p .program
  | .joinTid thread valuePtr =>
    .ok ((s.setTcb p { s.tcbAt p with joinTid := thread }).goto p (.joinRetval thread valuePtr))
  | .joinRetval thread valuePtr =>
    .ok ((s.setTcb p { s.tcbAt p with joinRetval := valuePtr }).goto p
      (.yield .add (.join thread valuePtr)))
  | .yield pc caller => .ok (s.yieldStmt p elapsed caller pc)
  | .resume .program => .ok (s.goto p .program)
  | .resume (.join thread valuePtr) =>
    .ok ((s.note (.joined p thread valuePtr)).goto p .program)
  | .resume (.lock mutex) => s.workerMutexLock p mutex
  | .destroy masked mutex num pc => s.destroyStmt p masked mutex num pc

/-! ## The signal handler and the cleanup context -/

/-- `timer_signal_handler`, on the stack of the running thread `p`.  The timer is set once. -/
def timerSignalHandler (s : Machine) (p : TcbPtr) : Machine :=
  { s.setTcb p { s.tcbAt p with
      timeQuantumUsedUpFully := true
      quantumsElapsed := (s.tcbAt p).quantumsElapsed + 1
      quantumAmtUsed := 0 } with
    totalQuantumsElapsed := s.totalQuantumsElapsed + 1
    timer := 0
    cpu := .scheduler }

/-- The loop of `alert_waiting_threads` over the rest of `tcbs`. -/
def alertLoop (ended : Worker) (endedRetvalPtr : Value) :
    List TcbPtr → Machine → Except Fault Machine
  | [], s => .ok s
  | ptr :: rest, s =>
    if (s.tcbAt ptr).joinTid = ended then do
      let s := s.setTcb ptr { s.tcbAt ptr with joinTid := NONEXISTENT_THREAD }
      let s ← s.storeIf (endedRetvalPtr != NULL) ptr (s.tcbAt ptr).joinRetval endedRetvalPtr
      alertLoop ended endedRetvalPtr rest s
    else alertLoop ended endedRetvalPtr rest s

def alertWaitingThreads (s : Machine) (ended : Worker) (endedRetvalPtr : Value) :
    Except Fault Machine :=
  alertLoop ended endedRetvalPtr s.tcbs.nodes s

/-- The assertion of `recompute_benchmarks` on the number of ended threads. -/
def recomputeBenchmarks (s : Machine) : Except Fault Unit :=
  assert (s.endedTcbs.size != 0) .someEnded

/-- The part of `clean_exited_worker_thread` that takes the running thread out of `tcbs`. -/
def removeRunning (s : Machine) (p : TcbPtr) : Except Fault Machine :=
  match contains s.tcbAt s.tcbs (s.tcbAt p).threadId with
  | none => .ok s
  | some _ => do
    let (_, tcbs) ← removeFrom s.tcbAt s.tcbs (s.tcbAt p).threadId
    return { s with tcbs }

/-- One round of `clean_exited_worker_thread`; the running thread `p` has ended. -/
def cleanExitedWorkerThread (s : Machine) (p : TcbPtr) : Except Fault Machine := do
  let s ← s.removeRunning p
  let s := { s with endedTcbs := insertAtFront s.endedTcbs p }
  s.recomputeBenchmarks
  let s ← s.alertWaitingThreads (s.tcbAt p).threadId (s.tcbAt p).retValue
  return { s with running := none, cpu := .scheduler }

end Machine

end UserLevelOs.Threads
