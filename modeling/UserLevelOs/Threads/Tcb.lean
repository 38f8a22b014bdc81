import Mathlib.Logic.Function.Basic
import Mathlib.Data.Prod.Lex

/-!
# Thread control blocks

The record the library keeps of a worker thread, and the order by usage in which the shortest
job goes first.  A `tcb *` is a number: blocks are handed out one after another and none is
freed before the library is torn down.

## Main definitions

* `Tcb`, `Tcbs`.
* `isBlocked` — the scheduler skips such a thread.
* `compareUsage`.
-/

namespace UserLevelOs.Threads

/-- `worker_t`. -/
abbrev Worker := UInt32

/-- `worker_mutex_t`. -/
abbrev WorkerMutex := UInt32

abbrev MAIN_THREAD : Worker := 1

abbrev NONEXISTENT_THREAD : Worker := 0

abbrev NONEXISTENT_MUTEX : WorkerMutex := 0

abbrev TIME_QUANTUM : ℕ := 10000

abbrev QUEUE_LEVELS : ℕ := 4

/-- A place in the program's memory. -/
abbrev Addr := ℕ

/-- A `void *` that the program hands through the library. -/
abbrev Value := ℕ

abbrev NULL : ℕ := 0

abbrev TcbPtr := ℕ

/-- The block of the main thread, the first to be allocated. -/
abbrev mainTcb : TcbPtr := 0

/-- `tcb`, without the context and the times of the benchmarks. -/
structure Tcb where
  threadId : Worker
  retValue : Value
  joinTid : Worker
  joinRetval : Addr
  seekingLock : WorkerMutex
  quantumsElapsed : UInt32
  quantumAmtUsed : UInt32
  timeQuantumUsedUpFully : Bool
  priorityLevel : ℕ
  deriving DecidableEq, Repr

/-- What the `tcb *`s point to. -/
abbrev Tcbs := TcbPtr → Tcb

def isWaitingOnAThread (thread : Tcb) : Bool := thread.joinTid != NONEXISTENT_THREAD

def isWaitingOnAMutex (thread : Tcb) : Bool := thread.seekingLock != NONEXISTENT_MUTEX

def isBlocked (thread : Tcb) : Bool := isWaitingOnAThread thread || isWaitingOnAMutex thread

@[simp] theorem isBlocked_eq_false {thread : Tcb} :
    isBlocked thread = false ↔ thread.joinTid = 0 ∧ thread.seekingLock = 0 := by
  simp [isBlocked, isWaitingOnAThread, isWaitingOnAMutex]

/-! ## The order by usage -/

/-- `compare_usage`: the first goes before the second. -/
def compareUsage (toBeInserted curr : Tcb) : Bool :=
  toBeInserted.quantumsElapsed < curr.quantumsElapsed ||
    (toBeInserted.quantumsElapsed == curr.quantumsElapsed &&
      toBeInserted.quantumAmtUsed ≤ curr.quantumAmtUsed)

/-- The lexicographic order on quantums and the part of a quantum used. -/
def Tcb.usage (t : Tcb) : ℕ ×ₗ ℕ := toLex (t.quantumsElapsed.toNat, t.quantumAmtUsed.toNat)

theorem compareUsage_iff {a b : Tcb} : compareUsage a b = true ↔ a.usage ≤ b.usage := by
  simp [compareUsage, Tcb.usage, Prod.Lex.toLex_le_toLex, UInt32.lt_iff_toNat_lt,
    UInt32.le_iff_toNat_le, UInt32.toNat_inj]

theorem compareUsage_total (a b : Tcb) : compareUsage a b = true ∨ compareUsage b a = true := by
  simp only [compareUsage_iff]
  exact le_total _ _

theorem compareUsage_trans {a b c : Tcb} (hab : compareUsage a b = true)
    (hbc : compareUsage b c = true) : compareUsage a c = true := by
  rw [compareUsage_iff] at hab hbc ⊢
  exact hab.trans hbc

end UserLevelOs.Threads
