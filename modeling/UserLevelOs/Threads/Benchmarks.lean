import Mathlib.Data.UInt
import UserLevelOs.Lib.Strides
import UserLevelOs.Threads.Locks
import UserLevelOs.Threads.Returns

/-!
# Two programs over the library

The benchmarks `vector_multiply` and `parallel_cal`.  The main thread makes `thread_num` workers
and waits for each of them; the workers share the indices out by strides, and each of them adds
its share to the global `sum`, one index at a time, with the mutex held.  Reading and writing a
variable are two steps, and the timer's signal may come in between.

## Main definitions

* `Benchmark` — a benchmark with its sizes and data; `Benchmark.verify` — its `verify`.
* `Site` — where a thread stands in the code of the benchmark.
* `Program`, `Benchmark.exec` — the library's machine with the variables of the benchmark.
* `Benchmark.CodeStep` — the statements, one by one.

## Main statements

* `Benchmark.code_ok` — every step of a thread in the code is one of these.
-/

namespace UserLevelOs.Threads

open UserLevelOs.Lib

/-! ## The benchmarks -/

/-- What the threads of a benchmark compute, from data that does not change. -/
inductive Kernel
  /-- `vector_multiply`. -/
  | vectorMultiply (r s : ℕ → UInt32)
  /-- `parallel_calculate`. -/
  | parallelCalculate (a : ℕ → ℕ → UInt32)

structure Benchmark where
  kernel : Kernel
  /-- `VECTOR_SIZE` or `R_SIZE`. -/
  size : ℕ
  /-- `C_SIZE`. -/
  cols : ℕ
  threadNum : ℕ

/-- Where a thread stands; `n` is what it has been given, `i` and `j` are the loop variables. -/
inductive Site
  | mutexInit
  | createAt (i : ℕ)
  | joinAt (i : ℕ)
  | joined
  /-- At the inner loop over `pSum[j]`, and in the middle of `pSum[j] += a[j][i] * i`. -/
  | rowLoad (n j i : ℕ)
  | rowStore (n j i : ℕ) (x : UInt32)
  | test (n j : ℕ)
  /-- Past `pthread_mutex_lock`, and in the middle of the addition to `sum`. -/
  | load (n j : ℕ)
  | store (n j : ℕ) (x : UInt32)
  | unlock (n j : ℕ)
  | exit (n : ℕ)
  | ret (n : ℕ)
  | ended (n : ℕ)
  deriving DecidableEq, Repr

/-- `&mutex`. -/
abbrev mutexVar : Addr := 1

/-- `&thread[i]`. -/
abbrev threadVar (i : ℕ) : Addr := i + 2

/-- The library's machine, where the threads stand, and the shared variables. -/
structure Program where
  machine : Machine
  site : TcbPtr → Site
  pSum : ℕ → UInt32
  sum : UInt32

namespace Program

@[simps -fullyApplied]
def goto (b : Program) (p : TcbPtr) (site : Site) : Program :=
  { b with site := Function.update b.site p site }

/-- The library's machine takes an event. -/
def library (policy : Policy) (b : Program) (e : Machine.Event) : Except Fault Program := do
  let machine ← b.machine.exec policy e
  return { b with machine }

/-- At the start of `main`; `pSum` and `sum` are zero. -/
def start (garbage : Machine.Garbage) : Program where
  machine := Machine.initLibrary garbage
  site _ := .mutexInit
  pSum _ := 0
  sum := 0

end Program

/-- What a step of the whole program is. -/
inductive Tick
  /-- The running thread goes on in the code of the benchmark; `malloc` puts a new mutex at
  `item`. -/
  | code (item : NodePtr)
  | library (e : Machine.Event)
  deriving DecidableEq, Repr

/-- What happens by itself: the library goes on, and the signal comes. -/
def Machine.Event.internal : Machine.Event → Bool
  | .proceed _ | .signal | .schedule | .cleanup => true
  | _ => false

namespace Benchmark

variable (bm : Benchmark) (policy : Policy)

/-- The first statement of a worker. -/
def entry (n : ℕ) : Site :=
  match bm.kernel with
  | .vectorMultiply _ _ => .test n n
  | .parallelCalculate _ => .rowLoad n n 0

/-- `a[j][i] * i`. -/
def cell (j i : ℕ) : UInt32 :=
  match bm.kernel with
  | .vectorMultiply _ _ => 0
  | .parallelCalculate a => a j i * UInt32.ofNat i

/-- What is added to `sum` for the index `j`. -/
def addend (pSum : ℕ → UInt32) (j : ℕ) : UInt32 :=
  match bm.kernel with
  | .vectorMultiply r s => r j * s j
  | .parallelCalculate _ => pSum j

/-- The running thread `p`, in the code of the benchmark, makes its next step. -/
def code (b : Program) (p : TcbPtr) (item : NodePtr) : Except Fault Program :=
  match b.site p with
  | .mutexInit => do
    let b ← b.library policy (.call (.mutexInit mutexVar item))
    return b.goto p (.createAt 0)
  | .createAt i =>
    if i < bm.threadNum then do
      let newTcb := b.machine.allocated
      let b ← b.library policy (.call (.create (threadVar i)))
      return (b.goto newTcb (bm.entry i)).goto p (.createAt (i + 1))
    else .ok (b.goto p (.joinAt 0))
  | .joinAt i =>
    if i < bm.threadNum then do
      let b ← b.library policy (.call (.join (b.machine.vars (threadVar i)) NULL))
      return b.goto p (.joinAt (i + 1))
    else .ok (b.goto p .joined)
  | .joined => .error .notNow
  | .rowLoad n j i =>
    if j < bm.size then
      if i < bm.cols then .ok (b.goto p (.rowStore n j i (b.pSum j)))
      else .ok (b.goto p (.rowLoad n (j + bm.threadNum) 0))
    else .ok (b.goto p (.test n n))
  | .rowStore n j i x =>
    .ok ({ b with pSum := Function.update b.pSum j (x + bm.cell j i) }.goto p
      (.rowLoad n j (i + 1)))
  | .test n j =>
    if j < bm.size then do
      let b ← b.library policy (.call (.mutexLock mutexVar))
      return b.goto p (.load n j)
    else .ok (b.goto p (.exit n))
  | .load n j => .ok (b.goto p (.store n j b.sum))
  | .store n j x => .ok ({ b with sum := x + bm.addend b.pSum j }.goto p (.unlock n j))
  | .unlock n j => do
    let b ← b.library policy (.call (.mutexUnlock mutexVar))
    return b.goto p (.test n (j + bm.threadNum))
  | .exit n => do
    let b ← b.library policy (.call (.exit NULL))
    return b.goto p (.ret n)
  | .ret n => do
    let b ← b.library policy .finish
    return b.goto p (.ended n)
  | .ended _ => .error .notNow

/-- A thread is in the code of the benchmark when it is in no function of the library. -/
def exec (b : Program) : Tick → Except Fault Program
  | .code item =>
    match b.machine.cpu, b.machine.running with
    | .thread, some p =>
      if b.machine.ctl p = .program then bm.code policy b p item else .error .notNow
    | _, _ => .error .notNow
  | .library e => if e.internal then b.library policy e else .error .notNow

/-- `verify`, which computes the sum again with one thread. -/
def verify : UInt32 :=
  match bm.kernel with
  | .vectorMultiply r s => (List.range bm.size).foldl (fun sum i => sum + r i * s i) 0
  | .parallelCalculate a =>
    let pSum j := (List.range bm.cols).foldl (fun x i => x + a j i * UInt32.ofNat i) 0
    (List.range bm.size).foldl (fun sum j => sum + pSum j) 0

/-! ## The sum -/

/-- The part of index `j` in the sum. -/
def term (j : ℕ) : UInt32 :=
  match bm.kernel with
  | .vectorMultiply r s => r j * s j
  | .parallelCalculate _ => ∑ i ∈ Finset.range bm.cols, bm.cell j i

theorem foldl_add (f : ℕ → UInt32) (n : ℕ) :
    (List.range n).foldl (fun x i => x + f i) 0 = ∑ i ∈ Finset.range n, f i := by
  induction n with
  | zero => rfl
  | succ n ih =>
    rw [List.range_succ, List.foldl_append, ih, Finset.sum_range_succ, List.foldl_cons,
      List.foldl_nil]

theorem verify_eq : bm.verify = ∑ j ∈ Finset.range bm.size, bm.term j := by
  unfold verify term cell
  cases bm.kernel with
  | vectorMultiply r s => exact foldl_add _ _
  | parallelCalculate a =>
    simp only [foldl_add]

/-- What is added for an index whose row is complete. -/
theorem addend_eq {pSum : ℕ → UInt32} {j : ℕ}
    (h : pSum j = ∑ i ∈ Finset.range bm.cols, bm.cell j i) : bm.addend pSum j = bm.term j := by
  unfold addend term
  split
  · rfl
  · exact h

/-! ## The statements -/

/-- A step of the thread `p` in the code of the benchmark. -/
inductive CodeStep (b : Program) (p : TcbPtr) : Program → Prop
  | mutexInit (item : NodePtr) (m : Machine) (hsite : b.site p = .mutexInit)
    (hm : b.machine.exec policy (.call (.mutexInit mutexVar item)) = .ok m) :
    CodeStep b p ({ b with machine := m }.goto p (.createAt 0))
  | create (i : ℕ) (m : Machine) (hsite : b.site p = .createAt i) (hi : i < bm.threadNum)
    (hm : b.machine.exec policy (.call (.create (threadVar i))) = .ok m) :
    CodeStep b p
      (({ b with machine := m }.goto b.machine.allocated (bm.entry i)).goto p (.createAt (i + 1)))
  | created (i : ℕ) (hsite : b.site p = .createAt i) (hi : ¬ i < bm.threadNum) :
    CodeStep b p (b.goto p (.joinAt 0))
  | join (i : ℕ) (m : Machine) (hsite : b.site p = .joinAt i) (hi : i < bm.threadNum)
    (hm : b.machine.exec policy (.call (.join (b.machine.vars (threadVar i)) NULL)) = .ok m) :
    CodeStep b p ({ b with machine := m }.goto p (.joinAt (i + 1)))
  | joined (i : ℕ) (hsite : b.site p = .joinAt i) (hi : ¬ i < bm.threadNum) :
    CodeStep b p (b.goto p .joined)
  | rowLoad (n j i : ℕ) (hsite : b.site p = .rowLoad n j i) (hj : j < bm.size) (hi : i < bm.cols) :
    CodeStep b p (b.goto p (.rowStore n j i (b.pSum j)))
  | rowEnd (n j i : ℕ) (hsite : b.site p = .rowLoad n j i) (hj : j < bm.size) (hi : ¬ i < bm.cols) :
    CodeStep b p (b.goto p (.rowLoad n (j + bm.threadNum) 0))
  | rowsEnd (n j i : ℕ) (hsite : b.site p = .rowLoad n j i) (hj : ¬ j < bm.size) :
    CodeStep b p (b.goto p (.test n n))
  | rowStore (n j i : ℕ) (x : UInt32) (hsite : b.site p = .rowStore n j i x) :
    CodeStep b p ({ b with pSum := Function.update b.pSum j (x + bm.cell j i) }.goto p
      (.rowLoad n j (i + 1)))
  | lock (n j : ℕ) (m : Machine) (hsite : b.site p = .test n j) (hj : j < bm.size)
    (hm : b.machine.exec policy (.call (.mutexLock mutexVar)) = .ok m) :
    CodeStep b p ({ b with machine := m }.goto p (.load n j))
  | loopEnd (n j : ℕ) (hsite : b.site p = .test n j) (hj : ¬ j < bm.size) :
    CodeStep b p (b.goto p (.exit n))
  | load (n j : ℕ) (hsite : b.site p = .load n j) : CodeStep b p (b.goto p (.store n j b.sum))
  | store (n j : ℕ) (x : UInt32) (hsite : b.site p = .store n j x) :
    CodeStep b p ({ b with sum := x + bm.addend b.pSum j }.goto p (.unlock n j))
  | unlock (n j : ℕ) (m : Machine) (hsite : b.site p = .unlock n j)
    (hm : b.machine.exec policy (.call (.mutexUnlock mutexVar)) = .ok m) :
    CodeStep b p ({ b with machine := m }.goto p (.test n (j + bm.threadNum)))
  | exit (n : ℕ) (m : Machine) (hsite : b.site p = .exit n)
    (hm : b.machine.exec policy (.call (.exit NULL)) = .ok m) :
    CodeStep b p ({ b with machine := m }.goto p (.ret n))
  | ret (n : ℕ) (m : Machine) (hsite : b.site p = .ret n)
    (hm : b.machine.exec policy .finish = .ok m) :
    CodeStep b p ({ b with machine := m }.goto p (.ended n))

variable {bm policy} {b b' : Program} {p : TcbPtr} {item : NodePtr}

theorem library_ok {e : Machine.Event} (h : b.library policy e = .ok b') :
    ∃ m, b.machine.exec policy e = .ok m ∧ b' = { b with machine := m } := by
  obtain ⟨m, hm, h⟩ := bind_eq_ok.mp h
  cases h
  exact ⟨m, hm, rfl⟩

theorem code_ok (h : bm.code policy b p item = .ok b') : bm.CodeStep policy b p b' := by
  unfold code at h
  split at h
  · next hsite =>
    obtain ⟨_, hlib, h⟩ := bind_eq_ok.mp h
    obtain ⟨m, hm, rfl⟩ := library_ok hlib
    cases h
    exact .mutexInit item m hsite hm
  · next i hsite =>
    split at h
    · next hi =>
      obtain ⟨_, hlib, h⟩ := bind_eq_ok.mp h
      obtain ⟨m, hm, rfl⟩ := library_ok hlib
      cases h
      exact .create i m hsite hi hm
    · next hi =>
      cases h
      exact .created i hsite hi
  · next i hsite =>
    split at h
    · next hi =>
      obtain ⟨_, hlib, h⟩ := bind_eq_ok.mp h
      obtain ⟨m, hm, rfl⟩ := library_ok hlib
      cases h
      exact .join i m hsite hi hm
    · next hi =>
      cases h
      exact .joined i hsite hi
  · cases h
  · next n j i hsite =>
    split at h
    · next hj =>
      split at h
      · next hi =>
        cases h
        exact .rowLoad n j i hsite hj hi
      · next hi =>
        cases h
        exact .rowEnd n j i hsite hj hi
    · next hj =>
      cases h
      exact .rowsEnd n j i hsite hj
  · next n j i x hsite =>
    cases h
    exact .rowStore n j i x hsite
  · next n j hsite =>
    split at h
    · next hj =>
      obtain ⟨_, hlib, h⟩ := bind_eq_ok.mp h
      obtain ⟨m, hm, rfl⟩ := library_ok hlib
      cases h
      exact .lock n j m hsite hj hm
    · next hj =>
      cases h
      exact .loopEnd n j hsite hj
  · next n j hsite =>
    cases h
    exact .load n j hsite
  · next n j x hsite =>
    cases h
    exact .store n j x hsite
  · next n j hsite =>
    obtain ⟨_, hlib, h⟩ := bind_eq_ok.mp h
    obtain ⟨m, hm, rfl⟩ := library_ok hlib
    cases h
    exact .unlock n j m hsite hm
  · next n hsite =>
    obtain ⟨_, hlib, h⟩ := bind_eq_ok.mp h
    obtain ⟨m, hm, rfl⟩ := library_ok hlib
    cases h
    exact .exit n m hsite hm
  · next n hsite =>
    obtain ⟨_, hlib, h⟩ := bind_eq_ok.mp h
    obtain ⟨m, hm, rfl⟩ := library_ok hlib
    cases h
    exact .ret n m hsite hm
  · cases h

/-- A step of the whole program. -/
theorem exec_ok {t : Tick} (h : bm.exec policy b t = .ok b') :
    (∃ item p, t = .code item ∧ b.machine.cpu = .thread ∧ b.machine.running = some p ∧
        b.machine.ctl p = .program ∧ bm.CodeStep policy b p b') ∨
      ∃ e m, t = .library e ∧ e.internal = true ∧ b.machine.exec policy e = .ok m ∧
        b' = { b with machine := m } := by
  cases t with
  | code item =>
    simp only [exec] at h
    split at h
    · next p hcpu hrun =>
      split at h
      · next hctl => exact .inl ⟨item, p, rfl, hcpu, hrun, hctl, code_ok h⟩
      · cases h
    · cases h
  | library e =>
    simp only [exec] at h
    split at h
    · next hinternal =>
      obtain ⟨m, hm, rfl⟩ := library_ok h
      exact .inr ⟨e, m, rfl, hinternal, hm, rfl⟩
    · cases h

end Benchmark

end UserLevelOs.Threads
