import UserLevelOs.Threads.Benchmarks

/-!
# Where the threads of a benchmark stand

Each thread is at a statement of its own function, and in the function of the library which that
statement calls or in none.  What the library does by itself, when it goes on or the signal comes,
changes neither the variables of the benchmark nor who holds the mutex, unless the thread that has
asked for it gets it.

## Main definitions

* `Site.Fits` — the statement and the place in the library go together.
* `Machine.Onward` — what the library does by itself.
* `Benchmark.Standing` — the invariant.

## Main statements

* `Machine.locks_of_execution`.
* `Machine.onward_of_exec`.
* `Benchmark.Standing.exec`.
-/

namespace UserLevelOs.Threads

open UserLevelOs.Lib

/-! ## Places in the library -/

/-- Where a thread may be in the library when it stands at a statement of the benchmark. -/
def Site.Fits : Site → Ctl → Prop
  | .createAt _, c => c = .program ∨ ∃ q, c = .create q
  | .joinAt _, c => c = .program ∨ c.joinStage ≠ none
  | .load _ _, c =>
    c = .program ∨ (∃ pc, c = .yield pc (.lock mutexVar)) ∨ c = .resume (.lock mutexVar)
  | _, c => c = .program

namespace Site.Fits

variable {σ : Site} {c : Ctl} {pc : YieldAt} {mutex thread valuePtr : Addr} {q ended : TcbPtr}
  {elapsed : UInt32} {s s' : Machine} {p : TcbPtr}

theorem program (σ : Site) : σ.Fits .program := by
  cases σ <;> simp [Fits]

/-- A thread in `worker_join` stands at a join. -/
theorem joinAt (h : σ.Fits c) (hstage : c.joinStage ≠ none) : ∃ i, σ = .joinAt i := by
  cases σ with
  | joinAt i => exact ⟨i, rfl⟩
  | createAt i =>
    rcases h with rfl | ⟨q, rfl⟩
    · exact absurd rfl hstage
    · exact absurd rfl hstage
  | load n j =>
    rcases h with rfl | ⟨pc, rfl⟩ | rfl
    · exact absurd rfl hstage
    · exact absurd rfl hstage
    · exact absurd rfl hstage
  | _ =>
    rw [show c = .program from h] at hstage
    exact absurd rfl hstage

/-- A thread in `worker_mutex_lock` stands behind the call of it. -/
theorem load (h : σ.Fits c) (hseeks : c.seeks = true) :
    (∃ n j, σ = .load n j) ∧
      ((∃ pc, c = .yield pc (.lock mutexVar)) ∨ c = .resume (.lock mutexVar)) := by
  cases σ with
  | load n j =>
    refine ⟨⟨n, j, rfl⟩, h.resolve_left ?_⟩
    rintro rfl
    cases hseeks
  | createAt i => rcases h with rfl | ⟨q, rfl⟩ <;> cases hseeks
  | joinAt i =>
    rcases h with rfl | h
    · cases hseeks
    · cases c with
      | yield pc caller => cases caller <;> simp_all [Ctl.joinStage, Ctl.seeks]
      | resume caller => cases caller <;> simp_all [Ctl.joinStage, Ctl.seeks]
      | _ => cases hseeks
  | _ =>
    rw [show c = .program from h] at hseeks
    cases hseeks

/-- Nobody destroys the mutex. -/
theorem destroys (h : σ.Fits c) : c.destroys = false := by
  cases σ with
  | createAt i => rcases h with rfl | ⟨q, rfl⟩ <;> rfl
  | joinAt i =>
    rcases h with rfl | h
    · rfl
    · cases c <;> simp_all [Ctl.joinStage, Ctl.destroys]
  | load n j => rcases h with rfl | ⟨pc, rfl⟩ | rfl <;> rfl
  | _ =>
    rw [show c = .program from h]
    rfl

/-- Nobody yields of their own accord. -/
theorem of_yield {caller : Caller} (h : σ.Fits (.yield pc caller)) :
    σ.Fits (.resume caller) ∧ ∀ pc', σ.Fits (.yield pc' caller) := by
  cases σ with
  | createAt i => rcases h with h | ⟨q, h⟩ <;> cases h
  | joinAt i =>
    have hstage := h.resolve_left (by simp)
    cases caller with
    | join thread valuePtr => simp [Fits, Ctl.joinStage]
    | _ => exact absurd rfl hstage
  | load n j =>
    rcases h with h | ⟨pc, h⟩ | h
    · cases h
    · cases h
      exact ⟨.inr (.inr rfl), fun pc' => .inr (.inl ⟨pc', rfl⟩)⟩
    · cases h
  | _ => cases show Ctl.yield pc caller = .program from h

/-- The next statement of the library. -/
theorem proceed (h : σ.Fits (s.ctl p)) (hstep : s.ThreadStep p (.proceed elapsed) s') :
    σ.Fits (s'.ctl p) := by
  cases hstep with
  | join hjoin =>
    cases hjoin with
    | store _ ended thread valuePtr s₁ hctl hstore => simp [program]
    | register _ thread valuePtr hctl =>
      obtain ⟨i, rfl⟩ := h.joinAt (by simp [hctl, Ctl.joinStage])
      simp [Fits, Ctl.joinStage]
    | retval _ thread valuePtr hctl =>
      obtain ⟨i, rfl⟩ := h.joinAt (by simp [hctl, Ctl.joinStage])
      simp [Fits, Ctl.joinStage]
    | done _ thread valuePtr hctl => simp [program]
  | mutex hmutex =>
    cases hmutex with
    | relock _ mutex hctl hok =>
      obtain ⟨⟨n, j, rfl⟩, hctl'⟩ := h.load (by simp [hctl, Ctl.seeks])
      have hmutex : mutex = mutexVar := by
        rcases hctl' with ⟨pc, hctl'⟩ | hctl'
        · rw [hctl] at hctl'
          cases hctl'
        · rw [hctl] at hctl'
          cases hctl'
          rfl
      obtain ⟨n, node, -, -, ⟨-, rfl⟩ | ⟨-, rfl⟩⟩ := Machine.workerMutexLock_ok hok
      · simp [program]
      · simp [Fits, hmutex]
    | destroyStmt _ masked mutex num pc hctl _ =>
      have hnot := h.destroys
      simp [hctl, Ctl.destroys] at hnot
  | enqueue _ q hctl => simp [Machine.enqueueCreated, program]
  | yieldStmt _ pc caller hctl =>
    rw [hctl] at h
    obtain ⟨hresume, hyield⟩ := h.of_yield
    cases pc <;> simpa [Machine.yieldStmt] using by first | exact hyield _ | exact hresume
  | resume _ hctl => simp [program]

end Site.Fits

namespace Machine

variable {policy : Policy} {s s' : Machine} {p q : TcbPtr} {e : Event} {elapsed : UInt32}
  {garbage : Garbage} {es : List Event} {mutex : Addr}

/-- No mutex is destroyed. -/
def KeepsMutexes (_ : Machine) (e : Event) : Prop := ∀ mutex, e ≠ .call (.mutexDestroy mutex)

theorem locks_of_execution
    (h : Execution (Machine.exec policy) KeepsMutexes (initLibrary garbage) es s)
    (hempty : garbage.front = none) (hn : es.countP creates < 65535) : s.Locks := by
  have hinit : (initLibrary garbage).Locks := by
    refine ⟨⟨[], ?_, by simp [initLibrary]⟩, ?_, ?_, ?_, ?_, ?_⟩
    · simpa [initLibrary, hempty] using Linked.nil
    all_goals simp [initLibrary, newTcb, Holds, HoldsIn]
  have hboth : s.Locks ∧ ∀ p, (s.ctl p).destroys = false := by
    refine h.invariant_of_count (I := fun s => s.Locks ∧ ∀ p, (s.ctl p).destroys = false) hn
      ⟨hinit, by simp [initLibrary, Ctl.destroys]⟩ fun es s e s' hes hcount hs he hok => ?_
    rw [List.countP_append] at hcount
    have hlt := allocated_lt hes (by omega)
    have hp := placed_of_execution hes
    have hroom : s.Roomy policy := fun hpol => by
      subst hpol
      exact (hp.psjf_length_le hlt).le
    exact ⟨hs.1.exec hp (tracked_of_execution hes (by omega)) (hlt.trans (by decide)) hroom hs.2 he
      hok, destroys_exec hp hs.2 he hok⟩
  exact hboth.1

/-- What the library does by itself. -/
structure Onward (s s' : Machine) : Prop where
  allocated : s'.allocated = s.allocated
  vars : s'.vars = s.vars
  nodes : ∀ k, s'.mutexes.nodes k ≠ none → s.mutexes.nodes k ≠ none
  holds : ∀ q k, s.Holds q k → s'.Holds q k
  retired : ∀ q ∈ s'.endedTcbs.nodes,
    q ∈ s.endedTcbs.nodes ∨ s.cpu = .cleanup ∧ s.running = some q
  hasEnded : ∀ t, s.HasEnded t → s'.HasEnded t
  active : s'.cpu ≠ .cleanup
  ctl : ∀ q, s'.ctl q = s.ctl q ∨ s.cpu = .thread ∧ s.running = some q ∧
    ∃ elapsed, s.ThreadStep q (.proceed elapsed) s'

theorem vars_proceed (hstep : s.ThreadStep p (.proceed elapsed) s')
    (hnot : (s.ctl p).destroys = false) : s'.vars = s.vars := by
  cases hstep with
  | join hjoin =>
    cases hjoin with
    | store _ ended thread valuePtr s₁ hctl hstore =>
      rcases storeIf_ok hstore with ⟨-, -, rfl⟩ | ⟨-, rfl⟩ <;> rfl
    | register => rfl
    | retval => rfl
    | done => rfl
  | mutex hmutex =>
    cases hmutex with
    | relock _ mutex hctl hok =>
      obtain ⟨n, node, -, -, ⟨-, rfl⟩ | ⟨-, rfl⟩⟩ := workerMutexLock_ok hok <;> rfl
    | destroyStmt _ masked mutex num pc hctl _ => simp [hctl, Ctl.destroys] at hnot
  | enqueue => rfl
  | yieldStmt _ pc caller hctl => cases pc <;> rfl
  | resume => rfl

theorem holdsIn_mono {notes earlier : List Note} {k : NodePtr}
    (h : ∀ n ∈ notes, ∀ q k, n ≠ .unlocking q k) (hold : HoldsIn q k earlier) :
    HoldsIn q k (notes ++ earlier) := by
  induction notes with
  | nil => exact hold
  | cons n notes ih =>
    have hrest := ih fun m hm => h m (by simp [hm])
    have hn := h n (by simp)
    cases n with
    | locked r m => exact .inr hrest
    | unlocking r m => exact absurd rfl (hn r m)
    | _ => exact hrest

/-- The call of `worker_mutex_lock` returns with the mutex, or goes to sleep. -/
theorem workerMutexLock_beside (h : s.workerMutexLock p mutex = .ok s') :
    (∀ k, s'.mutexes.nodes k ≠ none → s.mutexes.nodes k ≠ none) ∧
      (∀ q k, s.Holds q k → s'.Holds q k) ∧ (s'.ctl p = .program → ∃ k, s'.Holds p k) := by
  obtain ⟨n, node, hn, -, ⟨-, rfl⟩ | ⟨-, rfl⟩⟩ := workerMutexLock_ok h
  · refine ⟨fun k hk => ?_, fun q k hq => .inr hq, fun _ => ⟨n, .inl ⟨rfl, rfl⟩⟩⟩
    by_cases hkn : k = n
    · simp [hkn, hn]
    · simpa [Mutexes.setNode, hkn] using hk
  · exact ⟨fun _ => id, fun _ _ => id, fun hctl => by simp at hctl⟩

/-- The lists of threads, who is where and who holds what after a step of a thread. -/
theorem onward_of_own (hown : Own p s s') (hcpu : s.cpu = .thread) (hvars : s'.vars = s.vars)
    (hnodes : ∀ k, s'.mutexes.nodes k ≠ none → s.mutexes.nodes k ≠ none)
    (hholds : ∀ q k, s.Holds q k → s'.Holds q k)
    (hctl : s'.ctl p = s.ctl p ∨ s.cpu = .thread ∧ s.running = some p ∧
      ∃ elapsed, s.ThreadStep p (.proceed elapsed) s') : s.Onward s' where
  allocated := hown.allocated
  vars := hvars
  nodes := hnodes
  holds := hholds
  retired q hq := .inl (hown.endedTcbs ▸ hq)
  hasEnded t ht := ht.mono fun q hq => ⟨hown.endedTcbs ▸ hq, hown.threadId_eq q⟩
  active := by rcases hown.cpu with h | h <;> simp [h, hcpu]
  ctl q := by
    by_cases hq : q = p
    · exact hq ▸ hctl
    · exact .inl (hown.ctl q hq)

/-- The running thread goes on in the library. -/
theorem onward_of_proceed (hcpu : s.cpu = .thread) (hrun : s.running = some p)
    (hnot : (s.ctl p).destroys = false) (hok : s.execThread p (.proceed elapsed) = .ok s') :
    s.Onward s' := by
  have hstep := execThread_ok hok
  have hvars := vars_proceed hstep hnot
  have hctl : s'.ctl p = s.ctl p ∨ s.cpu = .thread ∧ s.running = some p ∧
      ∃ elapsed, s.ThreadStep p (.proceed elapsed) s' := .inr ⟨hcpu, hrun, elapsed, hstep⟩
  -- who holds what, and what is on the list of mutexes
  have hmutex : (∀ k, s'.mutexes.nodes k ≠ none → s.mutexes.nodes k ≠ none) ∧
      ∀ q k, s.Holds q k → s'.Holds q k := by
    rcases execThread_mutex hok with hmutex | haside
    · cases hmutex with
      | relock _ mutex hctl hok =>
        exact ⟨(workerMutexLock_beside hok).1, (workerMutexLock_beside hok).2.1⟩
      | destroyStmt _ masked mutex num pc hctl _ => simp [hctl, Ctl.destroys] at hnot
    · obtain ⟨notes, hnotes, hsilent⟩ := haside.history
      refine ⟨fun k hk => haside.mutexes ▸ hk, fun q k hq => ?_⟩
      rw [Holds, hnotes]
      exact (holdsIn_append hsilent).mpr hq
  rcases execThread_cases hok with ⟨_, he, -⟩ | ⟨_, q, -, -, rfl⟩ | ⟨he, -⟩ | hown
  · cases he
  · refine ⟨rfl, hvars, hmutex.1, hmutex.2, fun _ => .inl, fun _ => id, ?_, fun r => ?_⟩
    · simp [enqueueCreated, hcpu]
    · by_cases hr : r = p
      · exact hr ▸ hctl
      · exact .inl (by simp [enqueueCreated, hr])
  · cases he
  · exact onward_of_own hown hcpu hvars hmutex.1 hmutex.2 hctl

/-- What happens by itself, in any context. -/
theorem onward_of_exec (hp : s.Placed policy) (hinternal : e.internal = true)
    (hnot : ∀ p, (s.ctl p).destroys = false) (hok : s.exec policy e = .ok s') : s.Onward s' := by
  rcases exec_cases hok with ⟨p, hcpu, hrun, hok⟩ | ⟨-, -, hok⟩ | ⟨p, -, hcpu, hrun, hok⟩
  · cases e with
    | proceed elapsed => exact onward_of_proceed hcpu hrun (hnot p) hok
    | signal =>
      cases execThread_ok hok with
      | join h => cases h
      | mutex h => cases h
      | signal hmask =>
        exact onward_of_own Apart.timerSignalHandler.toOwn hcpu rfl (fun _ => id)
          (fun _ _ => id) (.inl rfl)
    | schedule => cases hok
    | cleanup => cases hok
    | _ => cases hinternal
  · have hround := hp.rescheduled hok
    refine ⟨hround.allocated, hround.vars, fun k hk => hround.mutexes ▸ hk, fun q k hq => ?_,
      fun q hq => .inl (hround.endedTcbs ▸ hq),
      fun t ht => ht.mono fun q hq => ⟨hround.endedTcbs ▸ hq, hround.threadId q⟩,
      by simp [hround.cpu], fun q => .inl (by rw [hround.ctl])⟩
    rw [Holds, hround.history]
    exact hq
  · obtain ⟨l, notes, -, hstores, rfl⟩ := cleanExitedWorkerThread_ok hok
    refine ⟨rfl, rfl, fun _ => id, fun q k hq => ?_, fun q hq => ?_,
      fun t ht => ht.mono fun q hq => ⟨List.mem_cons_of_mem p hq, ?_⟩, by simp, fun _ => .inl rfl⟩
    · refine holdsIn_mono (fun n hn r m heq => ?_) hq
      obtain ⟨_, _, _, hstored⟩ := hstores.only n hn
      rw [heq] at hstored
      cases hstored
    · rcases List.mem_cons.mp hq with rfl | hq
      · exact .inr ⟨hcpu, hrun⟩
      · exact .inl hq
    · change (woken s.tcbAt (s.tcbAt p).threadId l.nodes q).threadId = (s.tcbAt q).threadId
      rw [woken_eq]

/-- A function of the library is called from the program's code. -/
theorem exec_call (hcpu : s.cpu = .thread) (hrun : s.running = some p)
    (hctl : s.ctl p = .program) (c : Call) : s.exec policy (.call c) = s.call p c := by
  simp [exec, execThread, hcpu, hrun, hctl]

theorem exec_finish (hcpu : s.cpu = .thread) (hrun : s.running = some p)
    (hctl : s.ctl p = .program) (hmain : p ≠ mainTcb) : s.exec policy .finish =
      .ok { s.note (.finished p (s.tcbAt p).retValue) with cpu := .cleanup } := by
  simp [exec, execThread, hcpu, hrun, hctl, hmain]

/-- A call that makes no thread. -/
theorem own_of_call {c : Call} (hrun : s.running = some p) (hc : ∀ thread, c ≠ .create thread)
    (hok : s.exec policy (.call c) = .ok s') : Own p s s' := by
  rcases exec_cases hok with ⟨q, -, hq, hok⟩ | ⟨he, -⟩ | ⟨q, he, -⟩
  · rw [hrun] at hq
    cases hq
    rcases execThread_cases hok with ⟨thread, he, -⟩ | ⟨_, q, he, -⟩ | ⟨he, -⟩ | hown
    · cases he
      exact absurd rfl (hc thread)
    · cases he
    · cases he
    · exact hown
  · cases he
  · cases he

theorem workerMutexInit_vars {item : NodePtr}
    (h : s.workerMutexInit mutex item = .ok s') :
    (∀ a, a ≠ mutex → s'.vars a = s.vars a) ∧ s'.ctl = s.ctl := by
  obtain ⟨-, rfl⟩ := workerMutexInit_ok h
  exact ⟨fun a ha => Function.update_of_ne ha .., rfl⟩

theorem workerMutexUnlock_vars (h : s.workerMutexUnlock p mutex = .ok s') :
    s'.vars = s.vars ∧ s'.ctl = s.ctl := by
  obtain ⟨n, node, -, -, -, rfl⟩ := workerMutexUnlock_ok h
  exact ⟨rfl, rfl⟩

theorem workerMutexLock_vars (h : s.workerMutexLock p mutex = .ok s') :
    s'.vars = s.vars ∧ (s'.ctl p = .program ∨ s'.ctl p = .yield .add (.lock mutex)) := by
  obtain ⟨n, node, -, -, ⟨-, rfl⟩ | ⟨-, rfl⟩⟩ := workerMutexLock_ok h
  · exact ⟨rfl, .inl (by simp)⟩
  · exact ⟨rfl, .inr (by simp)⟩

theorem workerJoin_vars (s : Machine) (p : TcbPtr) (thread : Worker) (valuePtr : Addr) :
    (s.workerJoin p thread valuePtr).vars = s.vars ∧
      ((s.workerJoin p thread valuePtr).ctl p).joinStage ≠ none := by
  unfold workerJoin
  dsimp only
  split <;> simp [Ctl.joinStage]

end Machine

/-! ## The skeleton of a benchmark -/

namespace Benchmark

open Machine (KeepsMutexes)

variable {bm : Benchmark} {policy : Policy} {b b' : Program} {p : TcbPtr} {n : ℕ} {σ : Site}
  {m : Machine}

variable (bm) in
/-- The main thread has made as many threads as its statement says. -/
def MainAt (m : Machine) : Site → Prop
  | .mutexInit => m.allocated = 1 ∧ ∀ k, m.mutexes.nodes k = none
  | .createAt i => m.allocated = i + 1 ∧ i ≤ bm.threadNum
  | .joinAt i => m.allocated = bm.threadNum + 1 ∧ i ≤ bm.threadNum
  | .joined => m.allocated = bm.threadNum + 1
  | _ => False

variable (bm) in
/-- A worker that has been given `n` is at an index of its own. -/
def WorkerAt (n : ℕ) : Site → Prop
  | .rowLoad n' j i => n' = n ∧ j % bm.threadNum = n ∧ i ≤ bm.cols
  | .rowStore n' j i _ => n' = n ∧ j % bm.threadNum = n ∧ j < bm.size ∧ i < bm.cols
  | .test n' j => n' = n ∧ j % bm.threadNum = n
  | .load n' j | .store n' j _ | .unlock n' j => n' = n ∧ j % bm.threadNum = n ∧ j < bm.size
  | .exit n' | .ret n' | .ended n' => n' = n
  | _ => False

variable (bm policy) in
/-- The library has run so far, and each thread is where its function can be. -/
structure Standing (b : Program) : Prop where
  run : ∃ garbage es, garbage.front = none ∧
    Execution (Machine.exec policy) KeepsMutexes (Machine.initLibrary garbage) es b.machine
  unborn : ∀ q, b.machine.allocated ≤ q → b.site q = .mutexInit
  main : bm.MainAt b.machine (b.site mainTcb)
  worker : ∀ n, n + 1 < b.machine.allocated → bm.WorkerAt n (b.site (n + 1))
  fits : ∀ q, (b.site q).Fits (b.machine.ctl q)
  tids : ∀ n, n + 1 < b.machine.allocated →
    b.machine.vars (threadVar n) = UInt32.ofNat (n + 2)

/-- The new entry of an index that belongs to worker `n`. -/
theorem workerAt_entry (hn : n < bm.threadNum) : bm.WorkerAt n (bm.entry n) := by
  unfold entry
  split
  · exact ⟨rfl, Nat.mod_eq_of_lt hn⟩
  · exact ⟨rfl, Nat.mod_eq_of_lt hn, Nat.zero_le _⟩

namespace Standing

variable (h : bm.Standing policy b)
include h

theorem placed : b.machine.Placed policy := by
  obtain ⟨_, _, -, hrun⟩ := h.run
  exact Machine.placed_of_execution hrun

theorem allocated_le : b.machine.allocated ≤ bm.threadNum + 1 := by
  have hmain := h.main
  revert hmain
  cases b.site mainTcb with
  | mutexInit =>
    intro hmain
    have hone : b.machine.allocated = 1 := hmain.1
    omega
  | createAt i =>
    intro hmain
    have hi : b.machine.allocated = i + 1 := hmain.1
    have hle : i ≤ bm.threadNum := hmain.2
    omega
  | joinAt i => exact fun hmain => hmain.1.le
  | joined => exact fun hmain => (show _ = _ from hmain).le
  | _ => exact fun hmain => absurd hmain (by simp [MainAt])

theorem lt_of_running (hrun : b.machine.running = some p) : p < b.machine.allocated :=
  h.placed.lt_allocated (Machine.Placed.mem_running hrun)

/-- The main thread is in `main`. -/
theorem eq_main (hrun : b.machine.running = some p) (hsite : ∀ n, ¬ bm.WorkerAt n (b.site p)) :
    p = mainTcb := by
  cases p with
  | zero => rfl
  | succ n => exact absurd (h.worker n (h.lt_of_running hrun)) (hsite n)

/-- The others are workers. -/
theorem worker_of_lt (hlt : p < b.machine.allocated) (hsite : ¬ bm.MainAt b.machine (b.site p)) :
    ∃ n, p = n + 1 ∧ n < bm.threadNum ∧ bm.WorkerAt n (b.site p) := by
  cases p with
  | zero => exact absurd h.main hsite
  | succ n =>
    have hn : n + 1 < b.machine.allocated := hlt
    exact ⟨n, rfl, Nat.lt_of_succ_lt_succ (hn.trans_le h.allocated_le), h.worker n hlt⟩

theorem eq_worker (hrun : b.machine.running = some p) (hsite : ¬ bm.MainAt b.machine (b.site p)) :
    ∃ n, p = n + 1 ∧ n < bm.threadNum ∧ bm.WorkerAt n (b.site p) :=
  h.worker_of_lt (h.lt_of_running hrun) hsite

/-- A row belongs to one worker. -/
theorem eq_of_rowStore {n j i : ℕ} {x : UInt32} (hsite : b.site p = .rowStore n j i x) :
    p = j % bm.threadNum + 1 := by
  have hlt : p < b.machine.allocated := by
    by_contra hle
    rw [h.unborn p (not_lt.mp hle)] at hsite
    cases hsite
  obtain ⟨k, rfl, -, hw⟩ := h.worker_of_lt hlt (by simp [hsite, MainAt])
  rw [hsite] at hw
  exact congrArg (· + 1) hw.2.1.symm

/-- The library goes on. -/
theorem library {e : Machine.Event} (hinternal : e.internal = true)
    (hok : b.machine.exec policy e = .ok m) : bm.Standing policy { b with machine := m } := by
  have honward := Machine.onward_of_exec h.placed hinternal (fun q => (h.fits q).destroys) hok
  obtain ⟨garbage, es, hempty, hrun⟩ := h.run
  refine ⟨⟨garbage, _, hempty, hrun.snoc (fun mutex heq => ?_) hok⟩, fun q hq => ?_, ?_,
    fun n hn => ?_, fun q => ?_, fun n hn => ?_⟩
  · rw [heq] at hinternal
    cases hinternal
  · exact h.unborn q (honward.allocated ▸ hq)
  · have hmain := h.main
    revert hmain
    dsimp only
    cases b.site mainTcb with
    | mutexInit =>
      refine fun hmain => ⟨honward.allocated.trans hmain.1, fun k => ?_⟩
      by_contra hk
      exact honward.nodes k hk (hmain.2 k)
    | createAt i => exact fun hmain => ⟨honward.allocated.trans hmain.1, hmain.2⟩
    | joinAt i => exact fun hmain => ⟨honward.allocated.trans hmain.1, hmain.2⟩
    | joined => exact fun hmain => honward.allocated.trans hmain
    | _ => exact id
  · exact h.worker n (honward.allocated ▸ hn)
  · rcases honward.ctl q with hsame | ⟨-, -, elapsed, hstep⟩
    · dsimp only
      rw [hsame]
      exact h.fits q
    · exact (h.fits q).proceed hstep
  · dsimp only
    rw [honward.vars]
    exact h.tids n (honward.allocated ▸ hn)

/-- A worker goes to another statement, and the library makes the step `m`. -/
theorem move (hp : p = n + 1) (hlt : p < b.machine.allocated) {pSum : ℕ → UInt32} {sum : UInt32}
    (hrun : ∃ garbage es, garbage.front = none ∧
      Execution (Machine.exec policy) KeepsMutexes (Machine.initLibrary garbage) es m)
    (hallocated : m.allocated = b.machine.allocated) (hvars : m.vars = b.machine.vars)
    (hctl : ∀ q, q ≠ p → m.ctl q = b.machine.ctl q) (hσ : bm.WorkerAt n σ)
    (hfits : σ.Fits (m.ctl p)) :
    bm.Standing policy ({ b with machine := m, pSum, sum }.goto p σ) := by
  subst hp
  refine ⟨hrun, fun q hq => ?_, ?_, fun k hk => ?_, fun q => ?_, fun k hk => ?_⟩
  · have hq' : b.machine.allocated ≤ q := hallocated ▸ hq
    have hne : q ≠ n + 1 := fun heq => absurd hlt (heq ▸ hq'.not_gt)
    simpa [hne] using h.unborn q hq'
  · have hmain := h.main
    have hne : mainTcb ≠ n + 1 := Nat.succ_ne_zero n |>.symm
    simp only [Program.goto_site, Function.update_of_ne hne, Program.goto_machine]
    revert hmain
    cases b.site mainTcb with
    | mutexInit =>
      intro hmain
      have hone : b.machine.allocated = 1 := hmain.1
      have hn : n + 1 < b.machine.allocated := hlt
      omega
    | createAt i => exact fun hmain => ⟨hallocated.trans hmain.1, hmain.2⟩
    | joinAt i => exact fun hmain => ⟨hallocated.trans hmain.1, hmain.2⟩
    | joined => exact fun hmain => hallocated.trans hmain
    | _ => exact id
  · by_cases hkn : k = n
    · simpa [hkn] using hσ
    · have hne : k + 1 ≠ n + 1 := fun heq => hkn (Nat.succ.inj heq)
      simpa [hne, hkn] using h.worker k (hallocated ▸ hk)
  · by_cases hq : q = n + 1
    · simpa [hq] using hfits
    · simpa [hq, hctl q hq] using h.fits q
  · simpa [hvars] using h.tids k (hallocated ▸ hk)

/-- A worker goes to another statement by itself. -/
theorem moveSelf (hrun : b.machine.running = some (n + 1)) (hctl : b.machine.ctl (n + 1) = .program)
    {pSum : ℕ → UInt32} {sum : UInt32} (hσ : bm.WorkerAt n σ) :
    bm.Standing policy ({ b with pSum, sum }.goto (n + 1) σ) :=
  h.move rfl (h.lt_of_running hrun) h.run rfl rfl (fun _ _ => rfl) hσ (hctl ▸ Site.Fits.program σ)

/-- The main thread goes to another statement and makes no thread. -/
theorem moveMain
    (hrun : ∃ garbage es, garbage.front = none ∧
      Execution (Machine.exec policy) KeepsMutexes (Machine.initLibrary garbage) es m)
    (hallocated : m.allocated = b.machine.allocated)
    (hvars : ∀ n, m.vars (threadVar n) = b.machine.vars (threadVar n))
    (hctl : ∀ q, q ≠ mainTcb → m.ctl q = b.machine.ctl q) (hσ : bm.MainAt m σ)
    (hfits : σ.Fits (m.ctl mainTcb)) :
    bm.Standing policy ({ b with machine := m }.goto mainTcb σ) := by
  have hpos : mainTcb < b.machine.allocated := h.placed.main
  refine ⟨hrun, fun q hq => ?_, by simpa using hσ, fun k hk => ?_, fun q => ?_, fun k hk => ?_⟩
  · have hq' : b.machine.allocated ≤ q := hallocated ▸ hq
    have hne : q ≠ mainTcb := fun heq => absurd hpos (heq ▸ hq'.not_gt)
    simpa [hne] using h.unborn q hq'
  · simpa using h.worker k (hallocated ▸ hk)
  · by_cases hq : q = mainTcb
    · simpa [hq] using hfits
    · simpa [hq, hctl q hq] using h.fits q
  · simpa [hvars] using h.tids k (hallocated ▸ hk)

/-- The library takes a call of the running thread. -/
theorem run_call {c : Machine.Call} (hc : ∀ mutex, c ≠ .mutexDestroy mutex)
    (hok : b.machine.exec policy (.call c) = .ok m) : ∃ garbage es, garbage.front = none ∧
      Execution (Machine.exec policy) KeepsMutexes (Machine.initLibrary garbage) es m := by
  obtain ⟨garbage, es, hempty, hrun⟩ := h.run
  refine ⟨garbage, _, hempty, hrun.snoc (fun mutex heq => ?_) hok⟩
  cases heq
  exact hc mutex rfl

/-- `worker_create` is called for the next worker. -/
theorem create {i : ℕ} (hsite : b.site mainTcb = .createAt i) (hi : i < bm.threadNum)
    (hrun : ∃ garbage es, garbage.front = none ∧
      Execution (Machine.exec policy) KeepsMutexes (Machine.initLibrary garbage) es
        (b.machine.workerCreate mainTcb (threadVar i))) :
    bm.Standing policy (({ b with machine := b.machine.workerCreate mainTcb (threadVar i) }.goto
      b.machine.allocated (bm.entry i)).goto mainTcb (.createAt (i + 1))) := by
  have hmain := h.main
  rw [hsite] at hmain
  have halloc : b.machine.allocated = i + 1 := hmain.1
  -- the control block that `malloc` gives is no thread's yet
  have hnew : b.machine.ctl (i + 1) = .program := by
    have hfits := h.fits (i + 1)
    rwa [h.unborn (i + 1) halloc.le] at hfits
  have hctl : ∀ q, q ≠ mainTcb →
      (b.machine.workerCreate mainTcb (threadVar i)).ctl q = b.machine.ctl q := fun q hq => by
    simp [Machine.workerCreate, hq]
  have hself : (b.machine.workerCreate mainTcb (threadVar i)).ctl mainTcb = .create (i + 1) := by
    simp [Machine.workerCreate, halloc]
  rw [halloc]
  refine ⟨hrun, fun q hq => ?_, ⟨?_, hi⟩, fun k hk => ?_, fun q => ?_, fun k hk => ?_⟩
  · have hq' : b.machine.allocated + 1 ≤ q := hq
    rw [halloc] at hq'
    have hzero : q ≠ mainTcb := fun heq => Nat.not_succ_le_zero _ (heq ▸ hq')
    have hne : q ≠ i + 1 := fun heq => by
      subst heq
      omega
    simpa [hzero, hne] using h.unborn q (halloc.le.trans (Nat.le_of_succ_le hq'))
  · simp [Machine.workerCreate, halloc]
  · have hk' : k + 1 < b.machine.allocated + 1 := hk
    rw [halloc] at hk'
    have hzero : k + 1 ≠ mainTcb := Nat.succ_ne_zero k
    by_cases hki : k = i
    · subst hki
      simpa [hzero] using workerAt_entry hi
    · have hne : k + 1 ≠ i + 1 := fun heq => hki (Nat.succ.inj heq)
      simpa [hzero, hne, hki] using h.worker k (by omega)
  · by_cases hzero : q = mainTcb
    · subst hzero
      simp [hself, Site.Fits]
    · by_cases hne : q = i + 1
      · subst hne
        simp [hctl _ hzero, hnew, Site.Fits.program]
      · simpa [hzero, hne, hctl q hzero] using h.fits q
  · have hk' : k + 1 < b.machine.allocated + 1 := hk
    rw [halloc] at hk'
    by_cases hki : k = i
    · subst hki
      have hlast : b.machine.lastCreatedWorkerTid = UInt32.ofNat (k + 1) := halloc ▸ h.placed.last
      calc (b.machine.workerCreate mainTcb (threadVar k)).vars (threadVar k)
        _ = b.machine.lastCreatedWorkerTid + 1 := Function.update_self ..
        _ = UInt32.ofNat (k + 2) := by
          rw [hlast]
          exact (UInt32.ofNat_add (k + 1) 1).symm
    · have hne : threadVar k ≠ threadVar i := fun heq => hki (Nat.add_right_cancel heq)
      calc (b.machine.workerCreate mainTcb (threadVar i)).vars (threadVar k)
        _ = b.machine.vars (threadVar k) := Function.update_of_ne hne ..
        _ = UInt32.ofNat (k + 2) := h.tids k (by omega)

/-- A step of the running thread in the code of the benchmark. -/
theorem codeStep (hcpu : b.machine.cpu = .thread) (hrun : b.machine.running = some p)
    (hctl : b.machine.ctl p = .program) (hstep : bm.CodeStep policy b p b') :
    bm.Standing policy b' := by
  have hlt := h.lt_of_running hrun
  have hfree : ∀ σ : Site, σ.Fits (b.machine.ctl p) := fun σ => hctl ▸ Site.Fits.program σ
  cases hstep with
  | mutexInit item m hsite hm =>
    obtain rfl := h.eq_main hrun (by simp [hsite, WorkerAt])
    have hmain := h.main
    rw [hsite] at hmain
    have hown := Machine.own_of_call hrun (by simp) hm
    have hrun' := h.run_call (by simp) hm
    rw [Machine.exec_call hcpu hrun hctl] at hm
    obtain ⟨hvars, hctl'⟩ := Machine.workerMutexInit_vars hm
    exact h.moveMain hrun' hown.allocated (fun n => hvars _ (Nat.succ_succ_ne_one n)) hown.ctl
      ⟨hown.allocated.trans hmain.1, Nat.zero_le _⟩ (hctl' ▸ hfree _)
  | create i m hsite hi hm =>
    obtain rfl := h.eq_main hrun (by simp [hsite, WorkerAt])
    have hrun' := h.run_call (by simp) hm
    rw [Machine.exec_call hcpu hrun hctl] at hm
    cases hm
    exact h.create hsite hi hrun'
  | created i hsite hi =>
    obtain rfl := h.eq_main hrun (by simp [hsite, WorkerAt])
    have hmain := h.main
    rw [hsite] at hmain
    have halloc : b.machine.allocated = i + 1 := hmain.1
    have hle : i ≤ bm.threadNum := hmain.2
    exact h.moveMain h.run rfl (fun _ => rfl) (fun _ _ => rfl)
      ⟨by omega, Nat.zero_le _⟩ (hfree _)
  | join i m hsite hi hm =>
    obtain rfl := h.eq_main hrun (by simp [hsite, WorkerAt])
    have hmain := h.main
    rw [hsite] at hmain
    have hown := Machine.own_of_call hrun (by simp) hm
    have hrun' := h.run_call (by simp) hm
    rw [Machine.exec_call hcpu hrun hctl] at hm
    cases hm
    obtain ⟨hvars, hstage⟩ := Machine.workerJoin_vars b.machine mainTcb
      (b.machine.vars (threadVar i)) NULL
    exact h.moveMain hrun' hown.allocated (fun n => by rw [hvars]) hown.ctl
      ⟨hown.allocated.trans hmain.1, hi⟩ (.inr hstage)
  | joined i hsite hi =>
    obtain rfl := h.eq_main hrun (by simp [hsite, WorkerAt])
    have hmain := h.main
    rw [hsite] at hmain
    exact h.moveMain h.run rfl (fun _ => rfl) (fun _ _ => rfl) hmain.1 (hfree _)
  | rowLoad n j i hsite hj hi =>
    obtain ⟨k, rfl, -, hw⟩ := h.eq_worker hrun (by simp [hsite, MainAt])
    rw [hsite] at hw
    exact h.moveSelf hrun hctl ⟨hw.1, hw.2.1, hj, hi⟩
  | rowEnd n j i hsite hj hi =>
    obtain ⟨k, rfl, -, hw⟩ := h.eq_worker hrun (by simp [hsite, MainAt])
    rw [hsite] at hw
    exact h.moveSelf hrun hctl
      ⟨hw.1, (Nat.add_mod_right j _).trans hw.2.1, Nat.zero_le _⟩
  | rowsEnd n j i hsite hj =>
    obtain ⟨k, rfl, hk, hw⟩ := h.eq_worker hrun (by simp [hsite, MainAt])
    rw [hsite] at hw
    obtain ⟨rfl, -⟩ := hw
    exact h.moveSelf hrun hctl ⟨rfl, Nat.mod_eq_of_lt hk⟩
  | rowStore n j i x hsite =>
    obtain ⟨k, rfl, -, hw⟩ := h.eq_worker hrun (by simp [hsite, MainAt])
    rw [hsite] at hw
    exact h.moveSelf hrun hctl ⟨hw.1, hw.2.1, hw.2.2.2⟩
  | lock n j m hsite hj hm =>
    obtain ⟨k, rfl, -, hw⟩ := h.eq_worker hrun (by simp [hsite, MainAt])
    rw [hsite] at hw
    have hown := Machine.own_of_call hrun (by simp) hm
    have hrun' := h.run_call (by simp) hm
    rw [Machine.exec_call hcpu hrun hctl] at hm
    obtain ⟨hvars, hback⟩ := Machine.workerMutexLock_vars hm
    exact h.move rfl hlt hrun' hown.allocated hvars hown.ctl ⟨hw.1, hw.2, hj⟩
      (hback.imp_right fun hyield => .inl ⟨_, hyield⟩)
  | loopEnd n j hsite hj =>
    obtain ⟨k, rfl, -, hw⟩ := h.eq_worker hrun (by simp [hsite, MainAt])
    rw [hsite] at hw
    exact h.moveSelf hrun hctl hw.1
  | load n j hsite =>
    obtain ⟨k, rfl, -, hw⟩ := h.eq_worker hrun (by simp [hsite, MainAt])
    rw [hsite] at hw
    exact h.moveSelf hrun hctl hw
  | store n j x hsite =>
    obtain ⟨k, rfl, -, hw⟩ := h.eq_worker hrun (by simp [hsite, MainAt])
    rw [hsite] at hw
    exact h.moveSelf hrun hctl hw
  | unlock n j m hsite hm =>
    obtain ⟨k, rfl, -, hw⟩ := h.eq_worker hrun (by simp [hsite, MainAt])
    rw [hsite] at hw
    have hown := Machine.own_of_call hrun (by simp) hm
    have hrun' := h.run_call (by simp) hm
    rw [Machine.exec_call hcpu hrun hctl] at hm
    obtain ⟨hvars, hctl'⟩ := Machine.workerMutexUnlock_vars hm
    exact h.move rfl hlt hrun' hown.allocated hvars hown.ctl
      ⟨hw.1, (Nat.add_mod_right j _).trans hw.2.1⟩ (hctl' ▸ hfree _)
  | exit n m hsite hm =>
    obtain ⟨k, rfl, -, hw⟩ := h.eq_worker hrun (by simp [hsite, MainAt])
    rw [hsite] at hw
    have hown := Machine.own_of_call hrun (by simp) hm
    have hrun' := h.run_call (by simp) hm
    rw [Machine.exec_call hcpu hrun hctl] at hm
    cases hm
    exact h.move rfl hlt hrun' hown.allocated rfl hown.ctl hw (hfree _)
  | ret n m hsite hm =>
    obtain ⟨k, rfl, -, hw⟩ := h.eq_worker hrun (by simp [hsite, MainAt])
    rw [hsite] at hw
    obtain ⟨garbage, es, hempty, hes⟩ := h.run
    have hrun' := hes.snoc (fun _ => by simp) hm
    rw [Machine.exec_finish hcpu hrun hctl (Nat.succ_ne_zero k)] at hm
    cases hm
    exact h.move rfl hlt ⟨garbage, _, hempty, hrun'⟩ rfl rfl (fun _ _ => rfl) hw (hfree _)

theorem exec {t : Tick} (hok : bm.exec policy b t = .ok b') : bm.Standing policy b' := by
  rcases exec_ok hok with ⟨-, p, -, hcpu, hrun, hctl, hstep⟩ | ⟨e, m, -, hinternal, hm, rfl⟩
  · exact h.codeStep hcpu hrun hctl hstep
  · exact h.library hinternal hm

end Standing

/-- Before the first statement of `main`. -/
theorem standing_start {garbage : Machine.Garbage} (hempty : garbage.front = none) :
    bm.Standing policy (.start garbage) where
  run := ⟨garbage, [], hempty, .start⟩
  unborn _ _ := rfl
  main := ⟨rfl, fun _ => rfl⟩
  worker n hn := absurd hn (by simp [Program.start, Machine.initLibrary])
  fits _ := rfl
  tids n hn := absurd hn (by simp [Program.start, Machine.initLibrary])

end Benchmark

end UserLevelOs.Threads
