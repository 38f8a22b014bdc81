import UserLevelOs.Threads.Machine

/-!
# The scheduler's context

The two builds of the library differ in what one round of the scheduler does.  Both go from
the moment a context switches to the scheduler's until the scheduler switches to the thread it
has chosen.

## Main definitions

* `Policy` — the two builds.
* `schedPsjf`, `schedMlfq` — one round.
* `schedule`.
* `Event`, `exec` — the whole machine.
* `initLibrary`.
-/

namespace UserLevelOs.Threads

open UserLevelOs.Lib

inductive Policy
  | psjf
  | mlfq
  deriving DecidableEq, Repr

abbrev sValueDecayUsageConst : ℕ := QUEUE_LEVELS * 16

namespace Machine

/-! ## Choosing and starting a thread -/

def remainingThreadsBlocked (s : Machine) (toBeScheduled : TcbPtr) : Bool :=
  s.tcbs.nodes.all fun ptr => isWaitingOnAThread (s.tcbAt ptr) ||
    (s.tcbAt ptr).threadId == (s.tcbAt toBeScheduled).threadId

/-- `set_timer`; `remaining` is an `unsigned int` passed as an `int`. -/
@[simps -fullyApplied]
def setTimer (s : Machine) (toSet : Bool) (remaining : UInt32) : Machine :=
  { s with timer := if toSet then TIME_QUANTUM - remaining.toInt32.toInt else 0 }

/-- The end of a round: the timer is set and the context of `running` goes on. -/
def dispatch (s : Machine) (next : TcbPtr) : Machine :=
  { s.setTimer (!s.remainingThreadsBlocked next) (s.tcbAt next).quantumAmtUsed with
    running := some next
    cpu := .thread
    schedulerEntered := true }

/-! ## Shortest job first -/

/-- The loop over `q_arrival`; each turn takes one thread out. -/
def psjfArrivals : ℕ → Machine → Except Fault Machine
  | 0, _ => .error .endless
  | fuel + 1, s =>
    if isEmpty s.qArrival then .ok s
    else do
      let (newArrival, qArrival) ← dequeue s.qArrival
      let tcbs ← insertByUsage s.tcbAt s.tcbs newArrival
      psjfArrivals fuel { s with qArrival, tcbs }

/-- `insert_by_usage(tcbs, running)` unless the thread got cleaned. -/
def insertRunning (s : Machine) : Except Fault Machine :=
  match s.running with
  | none => .ok s
  | some p => do
    let tcbs ← insertByUsage s.tcbAt s.tcbs p
    return { s with tcbs }

/-- One round of `sched_psjf`. -/
def schedPsjf (s : Machine) : Except Fault Machine := do
  let s ← psjfArrivals (s.qArrival.size.toNat + 1) s
  let s ← s.insertRunning
  let first ← findFirstUnblockedThread s.tcbAt s.tcbs
  let (next, tcbs) ← removeFrom s.tcbAt s.tcbs (s.tcbAt first).threadId
  return { s with tcbs }.dispatch next

/-! ## Multilevel feedback queues -/

@[simps -fullyApplied]
def setLevel (s : Machine) (level : ℕ) (q : Queue) : Machine :=
  { s with allQueue := Function.update s.allQueue level q }

def mlfqArrivals : ℕ → Machine → Except Fault Machine
  | 0, _ => .error .endless
  | fuel + 1, s =>
    if isEmpty s.qArrival then .ok s
    else do
      let (newlyArrivedJob, qArrival) ← dequeue s.qArrival
      let s := s.setLevel 0 (enqueue (s.allQueue 0) newlyArrivedJob)
      mlfqArrivals fuel { s with qArrival, tcbs := insertAtFront s.tcbs newlyArrivedJob }

/-- A thread that has used up its quantum goes down a level. -/
def demote (t : Tcb) : Tcb :=
  if t.timeQuantumUsedUpFully then
    { t with
      timeQuantumUsedUpFully := false
      quantumAmtUsed := 0
      priorityLevel := if t.priorityLevel = QUEUE_LEVELS - 1 then t.priorityLevel
        else t.priorityLevel + 1 }
  else t

/-- The running thread goes back to a queue. -/
def requeueRunning (s : Machine) : Except Fault Machine :=
  match s.running with
  | none => .ok s
  | some p =>
    let s := s.setTcb p (demote (s.tcbAt p))
    let level := (s.tcbAt p).priorityLevel
    if level < QUEUE_LEVELS then
      .ok { s.setLevel level (enqueue (s.allQueue level) p) with running := none }
    else .error .outOfBounds

/-- The attributes that a boost resets. -/
def boosted (t : Tcb) : Tcb :=
  { t with quantumAmtUsed := 0, timeQuantumUsedUpFully := false, priorityLevel := 0 }

/-- The loop of `boost_all_queues` over one level. -/
def boostLevel (level : ℕ) : ℕ → Machine → Except Fault Machine
  | 0, _ => .error .endless
  | fuel + 1, s =>
    if isEmpty (s.allQueue level) then .ok s
    else do
      let (curr, q) ← dequeue (s.allQueue level)
      let s := (s.setLevel level q).setTcb curr (boosted (s.tcbAt curr))
      boostLevel level fuel (s.setLevel 0 (enqueue (s.allQueue 0) curr))

/-- The levels one after another. -/
def boostLevels : List ℕ → Machine → Except Fault Machine
  | [], s => .ok s
  | level :: levels, s => do
    let s ← boostLevel level ((s.allQueue level).size.toNat + 1) s
    boostLevels levels s

def boostAllQueues (s : Machine) : Except Fault Machine := do
  let s ← boostLevels [1, 2, 3] s
  assert ((s.allQueue 0).size == s.tcbs.size) .boostSizes
  return s

def boostWhenDue (s : Machine) : Except Fault Machine :=
  if sValueDecayUsageConst ≤ s.totalQuantumsElapsed.toNat then
    boostAllQueues
      { s with totalQuantumsElapsed := s.totalQuantumsElapsed % UInt32.ofNat sValueDecayUsageConst }
  else .ok s

/-- The inner loop of the selection: each thread of a level is looked at once. -/
def rotate (tcbAt : Tcbs) : ℕ → Queue → Except Fault (Option TcbPtr × Queue)
  | 0, q => .ok (none, q)
  | threadsAtThisPriority + 1, q => do
    let (candidate, q) ← dequeue q
    if isBlocked (tcbAt candidate) then rotate tcbAt threadsAtThisPriority (enqueue q candidate)
    else return (some candidate, q)

/-- The outer loop, over the levels from the highest priority on. -/
def selectFrom : List ℕ → Machine → Except Fault Machine
  | [], s => .ok s
  | level :: levels, s => do
    let (candidate, q) ← rotate s.tcbAt (s.allQueue level).size.toNat (s.allQueue level)
    match candidate with
    | some p => return { s.setLevel level q with running := some p }
    | none => selectFrom levels (s.setLevel level q)

/-- One round of `sched_mlfq`. -/
def schedMlfq (s : Machine) : Except Fault Machine := do
  let s ← mlfqArrivals (s.qArrival.size.toNat + 1) s
  let s ← s.requeueRunning
  let s ← s.boostWhenDue
  let s ← selectFrom (List.range QUEUE_LEVELS) s
  match s.running with
  | none => .error (.assertion .mlfqRunning)
  | some next => return s.dispatch next

/-- The part of `schedule` before `sched_mlfq`, which runs only when the context is entered for
the first time. -/
def enterMlfq (s : Machine) : Except Fault Machine :=
  if s.schedulerEntered then .ok s else s.insertRunning

/-- From the switch to the scheduler's context to the switch to a thread's. -/
def schedule (policy : Policy) (s : Machine) : Except Fault Machine :=
  match policy with
  | .psjf => s.schedPsjf
  | .mlfq => do
    let s ← s.enterMlfq
    s.schedMlfq

/-! ## The whole machine -/

/-- What happens next, as far as it is not decided by the state. -/
inductive Event
  /-- The program calls a function of the library. -/
  | call (c : Call)
  /-- The program writes one of its variables. -/
  | assign (a : Addr) (v : UInt32)
  /-- The thread's function returns. -/
  | finish
  /-- The next statement of the function that was called. -/
  | proceed (elapsed : UInt32)
  /-- The timer's signal comes. -/
  | signal
  | schedule
  | cleanup
  deriving DecidableEq, Repr

/-- The machine in its running thread `p`. -/
def execThread (s : Machine) (p : TcbPtr) : Event → Except Fault Machine
  | .call c => if s.ctl p = .program then s.call p c else .error .notNow
  | .assign a v => if s.ctl p = .program then .ok (s.assign a v) else .error .notNow
  | .finish =>
    -- when the function of the main thread returns, the process ends
    if s.ctl p = .program ∧ p ≠ mainTcb then
      .ok { s.note (.finished p (s.tcbAt p).retValue) with cpu := .cleanup }
    else .error .notNow
  | .proceed elapsed => s.proceed p elapsed
  | .signal => if (s.ctl p).masked then .error .notNow else .ok (s.timerSignalHandler p)
  | .schedule => .error .notNow
  | .cleanup => .error .notNow

def exec (policy : Policy) (s : Machine) (e : Event) : Except Fault Machine :=
  match s.cpu, s.running, e with
  | .thread, some p, e => s.execThread p e
  | .scheduler, _, .schedule => s.schedule policy
  | .cleanup, some p, .cleanup => s.cleanExitedWorkerThread p
  | _, _, _ => .error .notNow

/-- What `init_library` leaves as `malloc` returns it: members of the main thread's block, and
the front of the list of mutexes. -/
structure Garbage where
  retValue : Value
  joinRetval : Addr
  front : Option NodePtr

/-- After `init_library`; the main thread runs. -/
def initLibrary (garbage : Garbage) : Machine where
  tcbAt _ := { newTcb MAIN_THREAD with
    retValue := garbage.retValue, joinRetval := garbage.joinRetval }
  allocated := 1
  lastCreatedWorkerTid := MAIN_THREAD
  currentMutexNum := 0
  mutexes := { front := garbage.front, nodes := fun _ => none, mallocs := 0 }
  qArrival := { size := 0, nodes := [] }
  tcbs := { size := 0, nodes := [] }
  endedTcbs := { size := 0, nodes := [] }
  allQueue _ := { size := 0, nodes := [] }
  totalQuantumsElapsed := 0
  running := some mainTcb
  timer := 0
  cpu := .thread
  schedulerEntered := false
  ctl _ := .program
  vars _ := 0
  history := []

end Machine

end UserLevelOs.Threads
