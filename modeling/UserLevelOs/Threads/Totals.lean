import UserLevelOs.Threads.Standing

/-!
# What the threads of a benchmark add up

No addition to `sum` is lost: whatever the scheduler and the timer do, `sum` has the value that
`verify` computes when the main thread has come back from its last join.

## Main definitions

* `Site.guarded` — the statements at which a thread has the mutex.
* `Benchmark.InSection` — between the lock and the unlock.
* `Benchmark.added` — the indices whose addends have been added to `sum`.
* `Benchmark.Guarded`, `Benchmark.Filled`, `Benchmark.Tallied`, `Benchmark.Waited` — the mutex, the
  rows, the sum and the joins.

## Main statements

* `sum_of_execution`.
-/

namespace UserLevelOs.Threads

open UserLevelOs.Lib

/-- Past the call of `worker_mutex_lock` and up to the call of `worker_mutex_unlock`. -/
def Site.guarded : Site → Bool
  | .load _ _ | .store _ _ _ | .unlock _ _ => true
  | _ => false

namespace Machine

variable {policy : Policy} {s s' : Machine} {p : TcbPtr} {mutex : Addr} {item : NodePtr}
  {elapsed : UInt32}

/-- There is one mutex at most. -/
def OneMutex (s : Machine) : Prop :=
  ∀ k l, s.mutexes.nodes k ≠ none → s.mutexes.nodes l ≠ none → k = l

theorem OneMutex.mono (h : s.OneMutex)
    (hnodes : ∀ k, s'.mutexes.nodes k ≠ none → s.mutexes.nodes k ≠ none) : s'.OneMutex :=
  fun k l hk hl => h k l (hnodes k hk) (hnodes l hl)

/-- What a step of `p` in the program's code leaves alone. -/
structure Beside (p : TcbPtr) (s s' : Machine) : Prop where
  ctl : ∀ q, q ≠ p → s'.ctl q = s.ctl q
  holds : ∀ q, q ≠ p → ∀ k, s.Holds q k → s'.Holds q k
  endedTcbs : s'.endedTcbs = s.endedTcbs
  hasEnded : ∀ t, s.HasEnded t → s'.HasEnded t

theorem Beside.of_own (hown : Own p s s')
    (hholds : ∀ q, q ≠ p → ∀ k, s.Holds q k → s'.Holds q k) : Beside p s s' where
  ctl := hown.ctl
  holds := hholds
  endedTcbs := hown.endedTcbs
  hasEnded _ ht := ht.mono fun q hq => ⟨hown.endedTcbs ▸ hq, hown.threadId_eq q⟩

theorem Beside.refl : Beside p s s := ⟨fun _ _ => rfl, fun _ _ _ => id, rfl, fun _ => id⟩

theorem workerMutexUnlock_beside (h : s.workerMutexUnlock p mutex = .ok s') :
    (∀ k, s'.mutexes.nodes k ≠ none → s.mutexes.nodes k ≠ none) ∧
      ∀ q, q ≠ p → ∀ k, s.Holds q k → s'.Holds q k := by
  obtain ⟨n, node, hn, -, -, rfl⟩ := workerMutexUnlock_ok h
  refine ⟨fun k hk => ?_, fun q hne k hq => ⟨fun heq => hne heq.1.symm, hq⟩⟩
  by_cases hkn : k = n
  · simp [hkn, hn]
  · simpa [broadcastLockRelease, Mutexes.setNode, hkn] using hk

theorem workerMutexInit_beside (h : s.workerMutexInit mutex item = .ok s')
    (hnone : ∀ k, s.mutexes.nodes k = none) :
    s'.OneMutex ∧ ∀ q k, s.Holds q k → s'.Holds q k := by
  obtain ⟨-, rfl⟩ := workerMutexInit_ok h
  have honly : ∀ k, Function.update s.mutexes.nodes item (some
      { lockNum := s.currentMutexNum + 1
        holderTid := NONEXISTENT_THREAD
        next := s.mutexes.front }) k ≠ none → k = item := fun k hk => by
    by_contra hne
    simp [hne, hnone] at hk
  exact ⟨fun k l hk hl => (honly k hk).trans (honly l hl).symm, fun _ _ => id⟩

theorem workerJoin_beside (thread : Worker) (valuePtr : Addr) :
    (s.workerJoin p thread valuePtr).mutexes = s.mutexes ∧
      (∀ q k, s.Holds q k → (s.workerJoin p thread valuePtr).Holds q k) ∧
      ∃ stage, ((s.workerJoin p thread valuePtr).ctl p).joinStage = some stage ∧
        stage.thread = thread := by
  unfold workerJoin
  dsimp only
  split
  · next ended _ =>
    exact ⟨rfl, fun _ _ => id, .storing ended thread valuePtr, by simp [Ctl.joinStage], rfl⟩
  · exact ⟨rfl, fun _ _ => id, .registering thread valuePtr, by simp [Ctl.joinStage], rfl⟩

/-- A step of a join that is under way. -/
theorem JoinStep.stage_ne (h : JoinStep s p (.proceed elapsed) s') :
    (s.ctl p).joinStage ≠ none := by
  cases h with
  | store _ ended thread valuePtr s₁ hctl _ => simp [hctl, Ctl.joinStage]
  | register _ thread valuePtr hctl => simp [hctl, Ctl.joinStage]
  | retval _ thread valuePtr hctl => simp [hctl, Ctl.joinStage]
  | done _ thread valuePtr hctl => simp [hctl, Ctl.joinStage]

/-- A thread in `worker_join` comes back from it, or stays in it for the same thread. -/
theorem stage_proceed {stage : JoinStage} (hstage : (s.ctl p).joinStage = some stage)
    (hstep : s.ThreadStep p (.proceed elapsed) s') :
    (JoinStep s p (.proceed elapsed) s' ∧ s'.ctl p = .program) ∨
      ∃ stage', (s'.ctl p).joinStage = some stage' ∧ stage'.thread = stage.thread := by
  cases hstep with
  | join hjoin =>
    cases hjoin with
    | store _ ended thread valuePtr s₁ hctl hstore =>
      exact .inl ⟨.store _ ended thread valuePtr s₁ hctl hstore, by simp⟩
    | register _ thread valuePtr hctl =>
      rw [hctl] at hstage
      cases hstage
      exact .inr ⟨.pending thread valuePtr, by simp [Ctl.joinStage], rfl⟩
    | retval _ thread valuePtr hctl =>
      rw [hctl] at hstage
      cases hstage
      exact .inr ⟨.pending thread valuePtr, by simp [Ctl.joinStage], rfl⟩
    | done _ thread valuePtr hctl => exact .inl ⟨.done _ thread valuePtr hctl, by simp⟩
  | mutex hmutex =>
    cases hmutex with
    | relock _ mutex hctl _ => simp [hctl, Ctl.joinStage] at hstage
    | destroyStmt _ masked mutex num pc hctl _ => simp [hctl, Ctl.joinStage] at hstage
  | enqueue _ q hctl => simp [hctl, Ctl.joinStage] at hstage
  | yieldStmt _ pc caller hctl =>
    rw [hctl] at hstage
    cases caller with
    | join thread valuePtr =>
      cases hstage
      cases pc <;> exact .inr ⟨.pending thread valuePtr, by simp [yieldStmt, Ctl.joinStage], rfl⟩
    | _ => cases hstage
  | resume _ hctl => simp [hctl, Ctl.joinStage] at hstage

theorem workerCreate_beside (hp : s.Placed policy) (thread : Addr) :
    Beside p s (s.workerCreate p thread) where
  ctl q hq := by simp [workerCreate, hq]
  holds _ _ _ := id
  endedTcbs := rfl
  hasEnded _ ht := ht.mono fun q hq => ⟨hq, by
    have hlt : q < s.allocated := hp.lt_allocated (by simp [pool, hq])
    simp [workerCreate, hlt.ne]⟩

end Machine

namespace Benchmark

open Machine (KeepsMutexes)

variable {bm : Benchmark} {policy : Policy} {b b' : Program} {p q : TcbPtr} {t : Tick}

namespace Standing

variable (h : bm.Standing policy b)
include h

theorem lt_two_pow (hT : bm.threadNum < 65535) : b.machine.allocated < 2 ^ 32 :=
  h.allocated_le.trans_lt (by omega)

theorem locks (hT : bm.threadNum < 65535) : b.machine.Locks := by
  obtain ⟨garbage, es, hempty, hrun⟩ := h.run
  refine Machine.locks_of_execution hrun hempty ?_
  have hcount := Machine.allocated_of_execution hrun
  have hle := h.allocated_le
  omega

theorem awaited : b.machine.Awaited := by
  obtain ⟨_, _, -, hrun⟩ := h.run
  exact Machine.awaited_of_execution hrun

theorem awake : b.machine.Awake := by
  obtain ⟨_, _, -, hrun⟩ := h.run
  exact Machine.awake_of_execution hrun

end Standing

/-! ## A step and the other threads -/

/-- The worker that is made stands at its first statement. -/
def Born (bm : Benchmark) (b : Program) (p q : TcbPtr) (σ : Site) : Prop :=
  ∃ i, b.site p = .createAt i ∧ q = i + 1 ∧ i < bm.threadNum ∧ σ = bm.entry i

/-- The other threads stand where they stood. -/
theorem CodeStep.site (h : bm.Standing policy b) (hrun : b.machine.running = some p)
    (hstep : bm.CodeStep policy b p b') (hq : q ≠ p) :
    b'.site q = b.site q ∨ bm.Born b p q (b'.site q) := by
  cases hstep with
  | create i m hsite hi hm =>
    obtain rfl := h.eq_main hrun (by simp [hsite, WorkerAt])
    have hmain := h.main
    rw [hsite] at hmain
    have halloc : b.machine.allocated = i + 1 := hmain.1
    by_cases hnew : q = i + 1
    · exact .inr ⟨i, hsite, hnew, hi, by simp [hnew, halloc]⟩
    · exact .inl (by simp [hq, hnew, halloc])
  | _ => exact .inl (by simp [hq])

theorem CodeStep.beside (h : bm.Standing policy b) (hcpu : b.machine.cpu = .thread)
    (hrun : b.machine.running = some p) (hctl : b.machine.ctl p = .program)
    (hstep : bm.CodeStep policy b p b') : b.machine.Beside p b'.machine := by
  cases hstep with
  | mutexInit item m hsite hm =>
    obtain rfl := h.eq_main hrun (by simp [hsite, WorkerAt])
    have hmain := h.main
    rw [hsite] at hmain
    have hown := Machine.own_of_call hrun (by simp) hm
    rw [Machine.exec_call hcpu hrun hctl] at hm
    exact .of_own hown fun q _ => (Machine.workerMutexInit_beside hm hmain.2).2 q
  | create i m hsite hi hm =>
    rw [Machine.exec_call hcpu hrun hctl] at hm
    cases hm
    exact Machine.workerCreate_beside h.placed _
  | join i m hsite hi hm =>
    have hown := Machine.own_of_call hrun (by simp) hm
    rw [Machine.exec_call hcpu hrun hctl] at hm
    cases hm
    exact .of_own hown fun q _ => (Machine.workerJoin_beside _ _).2.1 q
  | lock n j m hsite hj hm =>
    have hown := Machine.own_of_call hrun (by simp) hm
    rw [Machine.exec_call hcpu hrun hctl] at hm
    exact .of_own hown fun q _ => (Machine.workerMutexLock_beside hm).2.1 q
  | unlock n j m hsite hm =>
    have hown := Machine.own_of_call hrun (by simp) hm
    rw [Machine.exec_call hcpu hrun hctl] at hm
    exact .of_own hown (Machine.workerMutexUnlock_beside hm).2
  | exit n m hsite hm =>
    have hown := Machine.own_of_call hrun (by simp) hm
    rw [Machine.exec_call hcpu hrun hctl] at hm
    cases hm
    exact .of_own hown fun _ _ _ => id
  | ret n m hsite hm =>
    obtain ⟨k, rfl, -, -⟩ := h.eq_worker hrun (by simp [hsite, MainAt])
    rw [Machine.exec_finish hcpu hrun hctl (Nat.succ_ne_zero k)] at hm
    cases hm
    exact ⟨fun _ _ => rfl, fun _ _ _ => id, rfl, fun _ => id⟩
  | _ => exact .refl

theorem CodeStep.oneMutex (h : bm.Standing policy b) (hcpu : b.machine.cpu = .thread)
    (hrun : b.machine.running = some p) (hctl : b.machine.ctl p = .program)
    (hone : b.machine.OneMutex) (hstep : bm.CodeStep policy b p b') : b'.machine.OneMutex := by
  cases hstep with
  | mutexInit item m hsite hm =>
    obtain rfl := h.eq_main hrun (by simp [hsite, WorkerAt])
    have hmain := h.main
    rw [hsite] at hmain
    rw [Machine.exec_call hcpu hrun hctl] at hm
    exact (Machine.workerMutexInit_beside hm hmain.2).1
  | create i m hsite hi hm =>
    rw [Machine.exec_call hcpu hrun hctl] at hm
    cases hm
    exact hone
  | join i m hsite hi hm =>
    rw [Machine.exec_call hcpu hrun hctl] at hm
    cases hm
    refine hone.mono fun k hk => ?_
    rwa [Program.goto_machine, (Machine.workerJoin_beside _ _).1] at hk
  | lock n j m hsite hj hm =>
    rw [Machine.exec_call hcpu hrun hctl] at hm
    exact hone.mono (Machine.workerMutexLock_beside hm).1
  | unlock n j m hsite hm =>
    rw [Machine.exec_call hcpu hrun hctl] at hm
    exact hone.mono (Machine.workerMutexUnlock_beside hm).1
  | exit n m hsite hm =>
    rw [Machine.exec_call hcpu hrun hctl] at hm
    cases hm
    exact hone
  | ret n m hsite hm =>
    obtain ⟨k, rfl, -, -⟩ := h.eq_worker hrun (by simp [hsite, MainAt])
    rw [Machine.exec_finish hcpu hrun hctl (Nat.succ_ne_zero k)] at hm
    cases hm
    exact hone
  | _ => exact hone

/-- The cleanup comes when the thread's function has returned. -/
theorem CodeStep.cleaning (h : bm.Standing policy b) (hcpu : b.machine.cpu = .thread)
    (hrun : b.machine.running = some p) (hctl : b.machine.ctl p = .program) (hstep : bm.CodeStep policy b p b')
    (hcpu' : b'.machine.cpu = .cleanup) :
    b'.machine.running = some p ∧ ∃ n, b'.site p = .ended n := by
  have hcall : ∀ {c m}, (∀ thread, c ≠ .create thread) →
      b.machine.exec policy (.call c) = .ok m → m.cpu ≠ .cleanup := fun hc hm => by
    rcases (Machine.own_of_call hrun hc hm).cpu with hsame | hsched
    · simp [hsame, hcpu]
    · simp [hsched]
  cases hstep with
  | mutexInit item m hsite hm => exact absurd hcpu' (hcall (by simp) hm)
  | create i m hsite hi hm =>
    rw [Machine.exec_call hcpu hrun hctl] at hm
    cases hm
    exact absurd (hcpu.symm.trans hcpu') (by simp)
  | join i m hsite hi hm => exact absurd hcpu' (hcall (by simp) hm)
  | lock n j m hsite hj hm => exact absurd hcpu' (hcall (by simp) hm)
  | unlock n j m hsite hm => exact absurd hcpu' (hcall (by simp) hm)
  | exit n m hsite hm => exact absurd hcpu' (hcall (by simp) hm)
  | ret n m hsite hm =>
    obtain ⟨k, rfl, -, -⟩ := h.eq_worker hrun (by simp [hsite, MainAt])
    rw [Machine.exec_finish hcpu hrun hctl (Nat.succ_ne_zero k)] at hm
    cases hm
    exact ⟨hrun, n, by simp⟩
  | _ => exact absurd (hcpu.symm.trans hcpu') (by simp)

theorem CodeStep.sum (hstep : bm.CodeStep policy b p b') :
    (b'.sum = b.sum ∧ ∀ n j x, b.site p ≠ .store n j x) ∨
      ∃ n j x, b.site p = .store n j x ∧ b'.sum = x + bm.addend b.pSum j := by
  cases hstep with
  | store n j x hsite => exact .inr ⟨n, j, x, hsite, rfl⟩
  | _ =>
    have hsite := ‹b.site p = _›
    exact .inl ⟨rfl, by simp [hsite]⟩

theorem CodeStep.pSum (hstep : bm.CodeStep policy b p b') :
    (b'.pSum = b.pSum ∧ ∀ n j i x, b.site p ≠ .rowStore n j i x) ∨
      ∃ n j i x, b.site p = .rowStore n j i x ∧ b'.site p = .rowLoad n j (i + 1) ∧
        b'.pSum = Function.update b.pSum j (x + bm.cell j i) := by
  cases hstep with
  | rowStore n j i x hsite => exact .inr ⟨n, j, i, x, hsite, by simp, rfl⟩
  | _ =>
    have hsite := ‹b.site p = _›
    exact .inl ⟨rfl, by simp [hsite]⟩

/-! ## The mutex -/

/-- `worker_mutex_lock` has returned to the thread, and `worker_mutex_unlock` is not called yet. -/
def InSection (b : Program) (p : TcbPtr) : Prop :=
  (b.site p).guarded = true ∧ b.machine.ctl p = .program

/-- Who is past the call of `worker_mutex_lock` holds the mutex, and `sum` is what it has read. -/
structure Guarded (b : Program) : Prop where
  one : b.machine.OneMutex
  holds : ∀ q, (b.site q).guarded = true → b.machine.ctl q = .program → ∃ k, b.machine.Holds q k
  read : ∀ q n j x, b.site q = .store n j x → x = b.sum

theorem entry_guarded (bm : Benchmark) (n : ℕ) : (bm.entry n).guarded = false := by
  unfold entry
  split <;> rfl

namespace Guarded

theorem start (garbage : Machine.Garbage) : Guarded (.start garbage) where
  one k _ hk := absurd rfl hk
  holds _ hq := by cases hq
  read _ _ _ _ hq := by cases hq

variable (g : Guarded b)
include g

/-- Two threads are not both there. -/
theorem alone (h : bm.Standing policy b) (hT : bm.threadNum < 65535)
    (hp : (b.site p).guarded = true) (hpc : b.machine.ctl p = .program)
    (hq : (b.site q).guarded = true) (hqc : b.machine.ctl q = .program) : p = q := by
  have hlocks := h.locks hT
  obtain ⟨k, hk⟩ := g.holds p hp hpc
  obtain ⟨l, hl⟩ := g.holds q hq hqc
  obtain ⟨-, node, hnode, -⟩ := hlocks.holder p k hk
  obtain ⟨-, node', hnode', -⟩ := hlocks.holder q l hl
  obtain rfl := g.one k l (by simp [hnode]) (by simp [hnode'])
  exact (hlocks.safe h.placed (h.lt_two_pow hT)).exclusive p q k hk hl

theorem codeStep (h : bm.Standing policy b) (hT : bm.threadNum < 65535)
    (hcpu : b.machine.cpu = .thread) (hrun : b.machine.running = some p)
    (hctl : b.machine.ctl p = .program) (hstep : bm.CodeStep policy b p b') : Guarded b' := by
  have hbeside := hstep.beside h hcpu hrun hctl
  refine ⟨hstep.oneMutex h hcpu hrun hctl g.one, fun q hq hqc => ?_, fun q n j x hq => ?_⟩
  · by_cases hqp : q = p
    · subst hqp
      cases hstep with
      | lock n j m hsite hj hm =>
        rw [Machine.exec_call hcpu hrun hctl] at hm
        exact (Machine.workerMutexLock_beside hm).2.2 hqc
      | load n j hsite => exact g.holds q (by simp [hsite, Site.guarded]) hctl
      | store n j x hsite => exact g.holds q (by simp [hsite, Site.guarded]) hctl
      | _ => simp [Site.guarded] at hq
    · rcases hstep.site h hrun hqp with hsame | ⟨i, -, -, -, hentry⟩
      · obtain ⟨k, hk⟩ := g.holds q (hsame ▸ hq) (hbeside.ctl q hqp ▸ hqc)
        exact ⟨k, hbeside.holds q hqp k hk⟩
      · simp [hentry, entry_guarded] at hq
  · by_cases hqp : q = p
    · subst hqp
      cases hstep with
      | load n' j' hsite =>
        simp only [Program.goto_site, Function.update_self, Site.store.injEq] at hq
        exact hq.2.2.symm
      | _ => simp at hq
    · rcases hstep.site h hrun hqp with hsame | ⟨i, -, -, -, hentry⟩
      · rw [hsame] at hq
        rcases hstep.sum with ⟨hsum, -⟩ | ⟨n', j', x', hsite, -⟩
        · exact hsum ▸ g.read q n j x hq
        · -- the thread that writes `sum` is the only one there
          have hqc : b.machine.ctl q = .program := by
            have hfits := h.fits q
            rwa [hq] at hfits
          exact absurd (g.alone h hT (by simp [hq, Site.guarded]) hqc
            (by simp [hsite, Site.guarded]) hctl) hqp
      · have hnot := entry_guarded bm i
        rw [← hentry, hq] at hnot
        cases hnot

theorem library (h : bm.Standing policy b) {e : Machine.Event} {m : Machine}
    (hinternal : e.internal = true) (hok : b.machine.exec policy e = .ok m) :
    Guarded { b with machine := m } := by
  have honward := Machine.onward_of_exec h.placed hinternal (fun q => (h.fits q).destroys) hok
  refine ⟨g.one.mono honward.nodes, fun q hq hqc => ?_, g.read⟩
  rcases honward.ctl q with hsame | ⟨-, -, elapsed, hproceed⟩
  · obtain ⟨k, hk⟩ := g.holds q hq (hsame ▸ hqc)
    exact ⟨k, honward.holds q k hk⟩
  · -- a thread that comes back from the library there has been given the mutex
    have hfits := h.fits q
    cases hproceed with
    | join hjoin =>
      obtain ⟨i, hi⟩ := hfits.joinAt hjoin.stage_ne
      simp [hi, Site.guarded] at hq
    | mutex hmutex =>
      cases hmutex with
      | relock _ mutex hctl hm => exact (Machine.workerMutexLock_beside hm).2.2 hqc
      | destroyStmt _ masked mutex num pc hctl _ =>
        have hnot := hfits.destroys
        simp [hctl, Ctl.destroys] at hnot
    | enqueue _ r hctl =>
      rw [hctl] at hfits
      cases hsite : b.site q <;> simp_all [Site.Fits, Site.guarded]
    | yieldStmt _ pc caller hctl => cases pc <;> simp [Machine.yieldStmt] at hqc
    | resume _ hctl =>
      rw [hctl] at hfits
      cases hsite : b.site q <;> simp_all [Site.Fits, Site.guarded]

end Guarded

/-! ## The rows -/

/-- How many of the addends of `pSum[j]` its worker, which stands at `σ`, has added. -/
def filled (bm : Benchmark) (j : ℕ) : Site → ℕ
  | .rowLoad _ j' i | .rowStore _ j' i _ => if j < j' then bm.cols else if j = j' then i else 0
  | .test _ _ | .load _ _ | .store _ _ _ | .unlock _ _ | .exit _ | .ret _ | .ended _ => bm.cols
  | _ => 0

/-- Each row has been added up as far as its worker has come. -/
structure Filled (bm : Benchmark) (b : Program) : Prop where
  rows : ∀ j < bm.size, b.pSum j =
    ∑ i ∈ Finset.range (bm.filled j (b.site (j % bm.threadNum + 1))), bm.cell j i
  read : ∀ q n j i x, b.site q = .rowStore n j i x → x = b.pSum j

/-- A worker that has just been made has added nothing. -/
theorem sum_filled_entry (bm : Benchmark) (j : ℕ) :
    ∑ i ∈ Finset.range (bm.filled j (bm.entry (j % bm.threadNum))), bm.cell j i = 0 := by
  unfold entry cell
  cases bm.kernel with
  | vectorMultiply r s => simp
  | parallelCalculate a =>
    have hle : ¬ j < j % bm.threadNum := (Nat.mod_le j _).not_gt
    simp [filled, hle]

theorem entry_ne_rowStore (bm : Benchmark) {n' n j i : ℕ} {x : UInt32} :
    bm.entry n' ≠ .rowStore n j i x := by
  unfold entry
  split <;> simp

/-- What a worker has added to the rows of its own does not change but by its addition. -/
theorem CodeStep.filled (h : bm.Standing policy b) (hrun : b.machine.running = some p)
    (hstep : bm.CodeStep policy b p b') {j : ℕ} (hj : j < bm.size)
    (hp : p = j % bm.threadNum + 1) (hne : ∀ n i x, b.site p ≠ .rowStore n j i x) :
    bm.filled j (b'.site p) = bm.filled j (b.site p) := by
  have hnotmain : p ≠ mainTcb := hp ▸ Nat.succ_ne_zero _
  cases hstep with
  | mutexInit item m hsite hm =>
    exact absurd (h.eq_main hrun (by simp [hsite, WorkerAt])) hnotmain
  | create i m hsite hi hm => exact absurd (h.eq_main hrun (by simp [hsite, WorkerAt])) hnotmain
  | created i hsite hi => exact absurd (h.eq_main hrun (by simp [hsite, WorkerAt])) hnotmain
  | join i m hsite hi hm => exact absurd (h.eq_main hrun (by simp [hsite, WorkerAt])) hnotmain
  | joined i hsite hi => exact absurd (h.eq_main hrun (by simp [hsite, WorkerAt])) hnotmain
  | rowEnd n j' i hsite hj' hi =>
    obtain ⟨k, rfl, hk, hw⟩ := h.eq_worker hrun (by simp [hsite, MainAt])
    rw [hsite] at hw
    obtain ⟨rfl, hmod, hle⟩ := hw
    have hcols : i = bm.cols := le_antisymm hle (not_lt.mp hi)
    have hjmod : j % bm.threadNum = n := (Nat.succ.inj hp).symm
    -- none of its rows lies between the one it has done and the next
    rcases lt_trichotomy j j' with hlt | rfl | hgt
    · simp [hsite, Benchmark.filled, hlt, hlt.trans_le (Nat.le_add_right j' _)]
    · simp [hsite, Benchmark.filled, hcols, Nat.zero_lt_of_lt hk]
    · have hnext : ¬ j < j' + bm.threadNum := (add_le_of_mod_eq hmod hjmod hgt).not_gt
      simp [hsite, Benchmark.filled, hnext, hgt.not_gt, hgt.ne']
  | rowsEnd n j' i hsite hj' =>
    have hlt : j < j' := hj.trans_le (not_lt.mp hj')
    simp [hsite, Benchmark.filled, hlt]
  | rowStore n j' i x hsite =>
    have hjj : j ≠ j' := fun heq => hne n i x (heq ▸ hsite)
    simp [hsite, Benchmark.filled, hjj]
  | _ =>
    have hsite := ‹b.site p = _›
    simp [hsite, Benchmark.filled]

namespace Filled

theorem start (bm : Benchmark) (garbage : Machine.Garbage) : bm.Filled (.start garbage) where
  rows _ _ := rfl
  read _ _ _ _ _ hq := by cases hq

variable (f : bm.Filled b)
include f

theorem codeStep (h : bm.Standing policy b) (hrun : b.machine.running = some p)
    (hstep : bm.CodeStep policy b p b') : bm.Filled b' := by
  refine ⟨fun j hj => ?_, fun q n j i x hq => ?_⟩
  · have hrow := f.rows j hj
    by_cases hp : j % bm.threadNum + 1 = p
    · rw [hp] at hrow ⊢
      rcases hstep.pSum with ⟨hpSum, hne⟩ | ⟨n, j', i, x, hsite, hsite', hpSum⟩
      · rw [hpSum, hstep.filled h hrun hj hp.symm fun n => hne n j]
        exact hrow
      · by_cases hjj : j = j'
        · subst hjj
          rw [hsite] at hrow
          simp [hpSum, hsite', Benchmark.filled, Finset.sum_range_succ, f.read p n j i x hsite,
            hrow]
        · rw [hpSum, Function.update_of_ne hjj,
            hstep.filled h hrun hj hp.symm fun n' i' x' heq => ?_]
          · exact hrow
          · rw [hsite] at heq
            cases heq
            exact hjj rfl
    · -- the row of another worker
      have hpSum : b'.pSum j = b.pSum j := by
        rcases hstep.pSum with ⟨hpSum, -⟩ | ⟨n, j', i, x, hsite, -, hpSum⟩
        · rw [hpSum]
        · have hjj : j ≠ j' := fun heq => hp (heq ▸ (h.eq_of_rowStore hsite).symm)
          rw [hpSum, Function.update_of_ne hjj]
      rw [hpSum, hrow]
      rcases hstep.site h hrun hp with hsame | ⟨i, hsite, hi, -, hentry⟩
      · rw [hsame]
      · have hmain := h.main
        obtain rfl := h.eq_main hrun (by simp [hsite, WorkerAt])
        rw [hsite] at hmain
        have hunborn := h.unborn (j % bm.threadNum + 1) (by rw [hi]; exact hmain.1.le)
        rw [hunborn, hentry, ← Nat.succ.inj hi, sum_filled_entry]
        rfl
  · by_cases hqp : q = p
    · subst hqp
      cases hstep with
      | rowLoad n' j' i' hsite =>
        simp only [Program.goto_site, Function.update_self, Site.rowStore.injEq] at hq
        obtain ⟨-, rfl, -, rfl⟩ := hq
        rfl
      | _ => simp at hq
    · rcases hstep.site h hrun hqp with hsame | ⟨i', -, -, -, hentry⟩
      · rw [hsame] at hq
        rcases hstep.pSum with ⟨hpSum, -⟩ | ⟨n', j', i', x', hsite, -, hpSum⟩
        · exact hpSum ▸ f.read q n j i x hq
        · have hjj : j ≠ j' := fun heq =>
            hqp ((h.eq_of_rowStore hq).trans (heq ▸ (h.eq_of_rowStore hsite).symm))
          rw [hpSum, Function.update_of_ne hjj]
          exact f.read q n j i x hq
      · exact absurd (hentry.symm.trans hq) (entry_ne_rowStore bm)

end Filled

/-! ## The sum -/

/-- A worker that stands there has added its addends below this index to `sum`. -/
def passed (bm : Benchmark) : Site → ℕ
  | .test _ j | .load _ j | .store _ j _ => j
  | .unlock _ j => j + 1
  | .exit _ | .ret _ | .ended _ => bm.size
  | _ => 0

/-- The indices whose addends the worker `n` has added to `sum`. -/
def visited (bm : Benchmark) (n : ℕ) (σ : Site) : Finset ℕ :=
  stride bm.threadNum n bm.size (bm.passed σ)

/-- The index whose addend a step adds to `sum`. -/
def adds (b : Program) : Tick → List ℕ
  | .code _ =>
    match b.machine.running.map b.site with
    | some (.store _ j _) => [j]
    | _ => []
  | .library _ => []

/-- The indices added to `sum`, one after another. -/
def added (bm : Benchmark) (policy : Policy) : Program → List Tick → List ℕ :=
  observe (bm.exec policy) adds

/-- Each index has been added once, by the worker it falls to, and `sum` is what has been added. -/
structure Tallied (bm : Benchmark) (b : Program) (js : List ℕ) : Prop where
  nodup : js.Nodup
  mem_iff : ∀ j, j ∈ js ↔ ∃ n < bm.threadNum, j ∈ bm.visited n (b.site (n + 1))
  sum_eq : b.sum = (js.map bm.term).sum

theorem visited_eq_empty {n : ℕ} {σ : Site} (hn : n < bm.threadNum) (hσ : bm.passed σ ≤ n) :
    bm.visited n σ = ∅ := stride_of_le hn hσ

theorem visited_entry {n : ℕ} (hn : n < bm.threadNum) : bm.visited n (bm.entry n) = ∅ := by
  refine visited_eq_empty hn ?_
  unfold entry
  split
  · exact le_rfl
  · exact Nat.zero_le n

/-- What a worker has visited changes with its addition. -/
theorem CodeStep.visited (h : bm.Standing policy b) (hrun : b.machine.running = some p)
    (hstep : bm.CodeStep policy b p b') {n : ℕ} (hn : n < bm.threadNum) (hp : p = n + 1) :
    (bm.visited n (b'.site p) = bm.visited n (b.site p) ∧ ∀ k j x, b.site p ≠ .store k j x) ∨
      ∃ j x, b.site p = .store n j x ∧ j < bm.size ∧ j % bm.threadNum = n ∧
        bm.visited n (b'.site p) = insert j (bm.visited n (b.site p)) := by
  have hnotmain : p ≠ mainTcb := hp ▸ Nat.succ_ne_zero _
  cases hstep with
  | mutexInit item m hsite hm =>
    exact absurd (h.eq_main hrun (by simp [hsite, WorkerAt])) hnotmain
  | create i m hsite hi hm => exact absurd (h.eq_main hrun (by simp [hsite, WorkerAt])) hnotmain
  | created i hsite hi => exact absurd (h.eq_main hrun (by simp [hsite, WorkerAt])) hnotmain
  | join i m hsite hi hm => exact absurd (h.eq_main hrun (by simp [hsite, WorkerAt])) hnotmain
  | joined i hsite hi => exact absurd (h.eq_main hrun (by simp [hsite, WorkerAt])) hnotmain
  | rowsEnd k j i hsite hj =>
    obtain ⟨k', rfl, -, hw⟩ := h.eq_worker hrun (by simp [hsite, MainAt])
    rw [hsite] at hw
    obtain rfl := Nat.succ.inj hp
    obtain ⟨rfl, -⟩ := hw
    refine .inl ⟨?_, by simp [hsite]⟩
    rw [visited_eq_empty hn (by simp [passed]), visited_eq_empty hn (by simp [hsite, passed])]
  | loopEnd k j hsite hj =>
    refine .inl ⟨?_, by simp [hsite]⟩
    simp only [Program.goto_site, Function.update_self, hsite, Benchmark.visited, passed]
    rw [stride_of_size_le le_rfl, stride_of_size_le (not_lt.mp hj)]
  | store k j x hsite =>
    obtain ⟨k', rfl, -, hw⟩ := h.eq_worker hrun (by simp [hsite, MainAt])
    rw [hsite] at hw
    obtain rfl := Nat.succ.inj hp
    obtain ⟨rfl, hmod, hj⟩ := hw
    refine .inr ⟨j, x, hsite, hj, hmod, ?_⟩
    simp only [Program.goto_site, Function.update_self, hsite, Benchmark.visited, passed]
    exact stride_succ hmod hj
  | unlock k j m hsite hm =>
    obtain ⟨k', rfl, -, hw⟩ := h.eq_worker hrun (by simp [hsite, MainAt])
    rw [hsite] at hw
    obtain rfl := Nat.succ.inj hp
    obtain ⟨rfl, hmod, -⟩ := hw
    refine .inl ⟨?_, by simp [hsite]⟩
    simp only [Program.goto_site, Function.update_self, hsite, Benchmark.visited, passed]
    rw [stride_step (Nat.zero_lt_of_lt hn) hmod]
  | _ =>
    have hsite := ‹b.site p = _›
    exact .inl ⟨by simp [hsite, Benchmark.visited, passed], by simp [hsite]⟩

/-- The other workers have visited what they had visited. -/
theorem CodeStep.visited_of_ne (h : bm.Standing policy b) (hrun : b.machine.running = some p)
    (hstep : bm.CodeStep policy b p b') {n : ℕ} (hn : n < bm.threadNum) (hne : n + 1 ≠ p) :
    bm.visited n (b'.site (n + 1)) = bm.visited n (b.site (n + 1)) := by
  rcases hstep.site h hrun hne with hsame | ⟨i, hsite, hi, -, hentry⟩
  · rw [hsame]
  · have hmain := h.main
    obtain rfl := h.eq_main hrun (by simp [hsite, WorkerAt])
    rw [hsite] at hmain
    have hunborn := h.unborn (n + 1) (by rw [hi]; exact hmain.1.le)
    have hnone : bm.visited n .mutexInit = ∅ := visited_eq_empty hn (Nat.zero_le n)
    rw [hentry, ← Nat.succ.inj hi, hunborn, visited_entry hn, hnone]

theorem adds_of_store (hrun : b.machine.running = some p) {item : NodePtr} {n j : ℕ} {x : UInt32}
    (hsite : b.site p = .store n j x) : adds b (.code item) = [j] := by
  simp [adds, hrun, hsite]

theorem adds_of_ne (hrun : b.machine.running = some p) {item : NodePtr}
    (hnot : ∀ n j x, b.site p ≠ .store n j x) : adds b (.code item) = [] := by
  simp only [adds, hrun, Option.map_some]
  split
  · next n j x heq => exact absurd (Option.some.inj heq) (hnot n j x)
  · rfl

namespace Tallied

variable {js : List ℕ}

theorem start (bm : Benchmark) (garbage : Machine.Garbage) :
    bm.Tallied (.start garbage) [] where
  nodup := List.nodup_nil
  mem_iff j := by
    have hnone : ∀ n < bm.threadNum, j ∉ bm.visited n .mutexInit := fun n hn => by
      have hempty : bm.visited n .mutexInit = ∅ := visited_eq_empty hn (Nat.zero_le n)
      rw [hempty]
      exact Finset.notMem_empty j
    exact ⟨fun hj => absurd hj List.not_mem_nil, fun ⟨n, hn, hj⟩ => absurd hj (hnone n hn)⟩
  sum_eq := rfl

/-- A step that adds nothing. -/
theorem of_same (c : bm.Tallied b js) (hsum : b'.sum = b.sum)
    (hsame : ∀ n < bm.threadNum,
      bm.visited n (b'.site (n + 1)) = bm.visited n (b.site (n + 1))) : bm.Tallied b' js where
  nodup := c.nodup
  mem_iff j := by
    rw [c.mem_iff]
    exact exists_congr fun n => and_congr_right fun hn => by rw [hsame n hn]
  sum_eq := hsum.trans c.sum_eq

theorem codeStep (c : bm.Tallied b js) (g : Guarded b) (f : bm.Filled b)
    (h : bm.Standing policy b) (hrun : b.machine.running = some p)
    (hstep : bm.CodeStep policy b p b') (item : NodePtr) :
    bm.Tallied b' (js ++ adds b (.code item)) := by
  rcases hstep.sum with ⟨hsum, hnot⟩ | ⟨k, j, x, hsite, hsum⟩
  · rw [adds_of_ne hrun hnot, List.append_nil]
    refine c.of_same hsum fun n hn => ?_
    by_cases hp : n + 1 = p
    · rw [hp]
      rcases hstep.visited h hrun hn hp.symm with ⟨hsame, -⟩ | ⟨j, x, hsite, -⟩
      · exact hsame
      · exact absurd hsite (hnot n j x)
    · exact hstep.visited_of_ne h hrun hn hp
  · -- a worker adds the next of its indices
    obtain ⟨k', rfl, hk, hw⟩ := h.eq_worker hrun (by simp [hsite, MainAt])
    rw [hsite] at hw
    obtain rfl : k = k' := hw.1
    obtain ⟨j', x', hsite', hj, hmod, hvisited⟩ :=
      (hstep.visited h hrun hk rfl).resolve_left fun hsame => hsame.2 k j x hsite
    rw [hsite] at hsite'
    cases hsite'
    have hvisit : ∀ n < bm.threadNum, ∀ i, i ∈ bm.visited n (b'.site (n + 1)) ↔
        i ∈ bm.visited n (b.site (n + 1)) ∨ n = k ∧ i = j := fun n hn i => by
      by_cases hnk : n = k
      · subst hnk
        rw [hvisited, Finset.mem_insert]
        tauto
      · rw [hstep.visited_of_ne h hrun hn fun heq => hnk (Nat.succ.inj heq)]
        tauto
    -- nobody has added it before
    have hnew : j ∉ js := fun hjs => by
      obtain ⟨n, -, hj'⟩ := (c.mem_iff j).mp hjs
      obtain ⟨-, hn, hlt⟩ := mem_stride.mp hj'
      rw [← hn, hmod, hsite] at hlt
      exact absurd hlt (lt_irrefl j)
    have hrow : b.pSum j = ∑ i ∈ Finset.range bm.cols, bm.cell j i := by
      have hrow := f.rows j hj
      rwa [hmod, hsite] at hrow
    rw [adds_of_store hrun hsite]
    refine ⟨?_, fun i => ?_, ?_⟩
    · refine List.nodup_append.mpr ⟨c.nodup, List.nodup_singleton j, fun i hi i' hi' heq => ?_⟩
      exact hnew (List.mem_singleton.mp hi' ▸ heq ▸ hi)
    · rw [List.mem_append, List.mem_singleton, c.mem_iff]
      constructor
      · rintro (⟨n, hn, hi⟩ | rfl)
        · exact ⟨n, hn, (hvisit n hn i).mpr (.inl hi)⟩
        · exact ⟨k, hk, (hvisit k hk i).mpr (.inr ⟨rfl, rfl⟩)⟩
      · rintro ⟨n, hn, hi⟩
        rcases (hvisit n hn i).mp hi with hi | ⟨-, rfl⟩
        · exact .inl ⟨n, hn, hi⟩
        · exact .inr rfl
    · rw [hsum, bm.addend_eq hrow, g.read _ k j x hsite, c.sum_eq]
      simp

end Tallied

/-! ## The joins -/

/-- A thread that has been cleaned up is at the end of its function, and the main thread knows that
those have been whose joins it is past. -/
structure Waited (bm : Benchmark) (b : Program) : Prop where
  ended : ∀ q ∈ b.machine.endedTcbs.nodes, ∃ n, b.site q = .ended n
  cleaning : b.machine.cpu = .cleanup → ∀ q, b.machine.running = some q → ∃ n, b.site q = .ended n
  joined : ∀ i, b.site mainTcb = .joinAt i → ∀ k < i, b.machine.HasEnded (UInt32.ofNat (k + 2)) ∨
    k + 1 = i ∧ ∃ stage, (b.machine.ctl mainTcb).joinStage = some stage ∧
      stage.thread = UInt32.ofNat (k + 2)
  done : b.site mainTcb = .joined → ∀ k < bm.threadNum, b.machine.HasEnded (UInt32.ofNat (k + 2))

theorem ofNat_ne_zero {n : ℕ} (hpos : 0 < n) (hlt : n < 2 ^ 32) : UInt32.ofNat n ≠ 0 :=
  fun heq => hpos.ne' (Machine.ofNat_inj hlt le_rfl (Nat.zero_le n) heq)

namespace Waited

theorem start (bm : Benchmark) (garbage : Machine.Garbage) : bm.Waited (.start garbage) where
  ended q hq := by cases hq
  cleaning hcpu := by cases hcpu
  joined i hi := by cases hi
  done hsite := by cases hsite

variable (w : bm.Waited b)
include w

theorem codeStep (h : bm.Standing policy b) (hcpu : b.machine.cpu = .thread)
    (hrun : b.machine.running = some p) (hctl : b.machine.ctl p = .program)
    (hstep : bm.CodeStep policy b p b') : bm.Waited b' := by
  have hbeside := hstep.beside h hcpu hrun hctl
  -- the main thread stands where it stood if another one runs
  have hstay : mainTcb ≠ p → b'.site mainTcb = b.site mainTcb := fun hne =>
    (hstep.site h hrun hne).resolve_right fun ⟨i, _, hi, _⟩ => Nat.succ_ne_zero i hi.symm
  -- in its own code it is in no join
  have hknown : mainTcb = p → ∀ i, b.site mainTcb = .joinAt i → ∀ k < i,
      b'.machine.HasEnded (UInt32.ofNat (k + 2)) := fun heq i hi k hk => by
    rcases w.joined i hi k hk with hended | ⟨-, stage, hstage, -⟩
    · exact hbeside.hasEnded _ hended
    · rw [heq, hctl] at hstage
      cases hstage
  refine ⟨fun q hq => ?_, fun hcpu' q hq => ?_, fun i hi k hk => ?_, fun hsite' k hk => ?_⟩
  · rw [hbeside.endedTcbs] at hq
    obtain ⟨n, hn⟩ := w.ended q hq
    by_cases hqp : q = p
    · subst hqp
      cases hstep <;> simp_all
    · rcases hstep.site h hrun hqp with hsame | ⟨i, hsite, hi, -, -⟩
      · exact ⟨n, hsame.trans hn⟩
      · have hmain := h.main
        obtain rfl := h.eq_main hrun (by simp [hsite, WorkerAt])
        rw [hsite] at hmain
        rw [h.unborn q (by rw [hi]; exact hmain.1.le)] at hn
        cases hn
  · obtain ⟨hrun', hended⟩ := hstep.cleaning h hcpu hrun hctl hcpu'
    rw [hrun'] at hq
    cases hq
    exact hended
  · by_cases hp : mainTcb = p
    · have hback := hknown hp
      subst hp
      cases hstep with
      | created i' hsite hi' =>
        simp only [Program.goto_site, Function.update_self, Site.joinAt.injEq] at hi
        exact absurd hk (hi ▸ Nat.not_lt_zero k)
      | join i' m hsite hi' hm =>
        simp only [Program.goto_site, Function.update_self, Site.joinAt.injEq] at hi
        subst hi
        rcases Nat.lt_succ_iff_lt_or_eq.mp hk with hlt | rfl
        · exact .inl (hback i' hsite k hlt)
        · have hmain := h.main
          rw [hsite] at hmain
          have hlt : k + 1 < b.machine.allocated := by
            rw [hmain.1]
            exact Nat.succ_lt_succ hi'
          rw [Machine.exec_call hcpu hrun hctl] at hm
          cases hm
          obtain ⟨stage, hstage, hthread⟩ := (Machine.workerJoin_beside _ _).2.2
          exact .inr ⟨rfl, stage, hstage, hthread.trans (h.tids k hlt)⟩
      | _ => simp at hi
    · rw [hstay hp] at hi
      rw [hbeside.ctl _ hp]
      exact (w.joined i hi k hk).imp_left (hbeside.hasEnded _)
  · by_cases hp : mainTcb = p
    · have hback := hknown hp
      subst hp
      cases hstep with
      | joined i hsite hi => exact hback i hsite k (hk.trans_le (not_lt.mp hi))
      | _ => simp at hsite'
    · rw [hstay hp] at hsite'
      exact hbeside.hasEnded _ (w.done hsite' k hk)

theorem library (h : bm.Standing policy b) (hT : bm.threadNum < 65535) {e : Machine.Event}
    {m : Machine} (hinternal : e.internal = true) (hok : b.machine.exec policy e = .ok m) :
    bm.Waited { b with machine := m } := by
  have honward := Machine.onward_of_exec h.placed hinternal (fun q => (h.fits q).destroys) hok
  refine ⟨fun q hq => ?_, fun hcpu => absurd hcpu honward.active, fun i hi k hk => ?_,
    fun hsite k hk => honward.hasEnded _ (w.done hsite k hk)⟩
  · rcases honward.retired q hq with hq | ⟨hcpu, hrun⟩
    · exact w.ended q hq
    · exact w.cleaning hcpu q hrun
  · rcases w.joined i hi k hk with hended | ⟨hki, stage, hstage, hthread⟩
    · exact .inl (honward.hasEnded _ hended)
    · rcases honward.ctl mainTcb with hsame | ⟨hcpu, hrun, elapsed, hproceed⟩
      · exact .inr ⟨hki, stage, hsame ▸ hstage, hthread⟩
      · rcases Machine.stage_proceed hstage hproceed with ⟨hjoin, hctl⟩ | ⟨stage', hstage', heq⟩
        · obtain ⟨_, hstage', hdone⟩ := h.awaited.of_joinStep h.awake hrun hcpu hjoin hctl
          rw [hstage] at hstage'
          cases hstage'
          have hmain := h.main
          rw [show b.site mainTcb = _ from hi] at hmain
          have hle : i ≤ bm.threadNum := hmain.2
          rw [hthread] at hdone
          exact .inl (honward.hasEnded _ (hdone (ofNat_ne_zero (by omega) (by omega))))
        · exact .inr ⟨hki, stage', hstage', heq.trans hthread⟩

end Waited

/-! ## Whole runs -/

/-- All that is known of a run. -/
structure Totalled (bm : Benchmark) (policy : Policy) (b : Program) : Prop where
  standing : bm.Standing policy b
  guarded : Guarded b
  filled : bm.Filled b
  waited : bm.Waited b

theorem Totalled.exec (h : bm.Totalled policy b) (hT : bm.threadNum < 65535)
    (hok : bm.exec policy b t = .ok b') : bm.Totalled policy b' := by
  obtain ⟨hst, g, f, w⟩ := h
  refine ⟨hst.exec hok, ?_, ?_, ?_⟩
  all_goals
    rcases exec_ok hok with ⟨-, p, -, hcpu, hrun, hctl, hstep⟩ | ⟨e, m, -, hinternal, hm, rfl⟩
  · exact g.codeStep hst hT hcpu hrun hctl hstep
  · exact g.library hst hinternal hm
  · exact f.codeStep hst hrun hstep
  · exact ⟨f.rows, f.read⟩
  · exact w.codeStep hst hcpu hrun hctl hstep
  · exact w.library hst hT hinternal hm

theorem totalled_of_execution {garbage : Machine.Garbage} {ok : Program → Tick → Prop}
    {ts : List Tick} (h : Execution (bm.exec policy) ok (.start garbage) ts b)
    (hempty : garbage.front = none) (hT : bm.threadNum < 65535) : bm.Totalled policy b :=
  h.invariant
    ⟨standing_start hempty, .start garbage, .start bm garbage, .start bm garbage⟩
    fun _ _ _ hs _ hok => hs.exec hT hok

/-- The worker `n` has come to the end of its function. -/
theorem Totalled.site_of_hasEnded (h : bm.Totalled policy b) (hT : bm.threadNum < 65535) {n : ℕ}
    (hn : n < bm.threadNum) (hended : b.machine.HasEnded (UInt32.ofNat (n + 2))) :
    ∃ k, b.site (n + 1) = .ended k := by
  obtain ⟨q, hq, hid⟩ := hended
  have hlt : q < b.machine.allocated :=
    h.standing.placed.lt_allocated (by simp [Machine.pool, hq])
  rw [h.standing.placed.ids q hlt] at hid
  have hq2 : q + 1 ≤ bm.threadNum + 1 := Nat.le_trans hlt h.standing.allocated_le
  have heq : q + 1 = n + 2 := Machine.ofNat_inj (n := bm.threadNum + 1) (by omega) hq2 (by omega) hid
  obtain rfl := Nat.succ.inj heq
  exact h.waited.ended _ hq

theorem tallied_of_execution {garbage : Machine.Garbage} {ok : Program → Tick → Prop}
    {ts : List Tick} (h : Execution (bm.exec policy) ok (.start garbage) ts b)
    (hempty : garbage.front = none) (hT : bm.threadNum < 65535) :
    bm.Tallied b (bm.added policy (.start garbage) ts) := by
  induction h with
  | start => exact .start bm garbage
  | @snoc ts b b' t hrun _ hstep ih =>
    have htotal := totalled_of_execution hrun hempty hT
    rw [added, hrun.observe_snoc]
    rcases exec_ok hstep with ⟨item, p, rfl, -, hp, -, hcode⟩ | ⟨e, m, rfl, -, -, rfl⟩
    · exact ih.codeStep htotal.guarded htotal.filled htotal.standing hp hcode item
    · rw [adds, List.append_nil]
      exact ih.of_same rfl fun _ _ => rfl

/-- When the workers have ended, every index has been added. -/
theorem Tallied.perm {js : List ℕ} (c : bm.Tallied b js) (hpos : 0 < bm.threadNum)
    (hended : ∀ n < bm.threadNum, ∃ k, b.site (n + 1) = .ended k) :
    js.Perm (List.range bm.size) := by
  refine (List.perm_ext_iff_of_nodup c.nodup List.nodup_range).mpr fun j => ?_
  have hdone : ∀ n < bm.threadNum,
      bm.visited n (b.site (n + 1)) = stride bm.threadNum n bm.size bm.size := fun n hn => by
    obtain ⟨k, hk⟩ := hended n hn
    rw [hk]
    rfl
  calc j ∈ js
    _ ↔ ∃ n < bm.threadNum, j ∈ bm.visited n (b.site (n + 1)) := c.mem_iff j
    _ ↔ ∃ n < bm.threadNum, j ∈ stride bm.threadNum n bm.size bm.size :=
      exists_congr fun n => and_congr_right fun hn => by rw [hdone n hn]
    _ ↔ j ∈ List.range bm.size := (exists_mem_stride hpos).trans List.mem_range.symm

/-- No two threads are between the lock and the unlock, no index is added twice, and past its last
join the main thread finds that every index has been added and that `sum` is what `verify`
computes. -/
theorem sum_of_execution {garbage : Machine.Garbage} {ok : Program → Tick → Prop}
    {ts : List Tick} (h : Execution (bm.exec policy) ok (.start garbage) ts b)
    (hempty : garbage.front = none) (hpos : 0 < bm.threadNum) (hT : bm.threadNum < 65535) :
    (∀ p q, InSection b p → InSection b q → p = q) ∧
      (bm.added policy (.start garbage) ts).Nodup ∧
      (b.site mainTcb = .joined →
        (bm.added policy (.start garbage) ts).Perm (List.range bm.size) ∧ b.sum = bm.verify) := by
  have htotal := totalled_of_execution h hempty hT
  have htally := tallied_of_execution h hempty hT
  refine ⟨fun p q hp hq => ?_, htally.nodup, fun hjoined => ?_⟩
  · exact htotal.guarded.alone htotal.standing hT hp.1 hp.2 hq.1 hq.2
  · have hperm := htally.perm hpos fun n hn =>
      htotal.site_of_hasEnded hT hn (htotal.waited.done hjoined n hn)
    refine ⟨hperm, ?_⟩
    calc b.sum
      _ = ((bm.added policy (.start garbage) ts).map bm.term).sum := htally.sum_eq
      _ = ((List.range bm.size).map bm.term).sum := (hperm.map _).sum_eq
      _ = ∑ j ∈ Finset.range bm.size, bm.term j := rfl
      _ = bm.verify := (verify_eq bm).symm

/-- Two workers and two indices.  The first worker is preempted when it has read `sum`, and the
second has to wait for the mutex. -/
def contended : List Tick :=
  let c : Tick := .code 7
  let l : Tick := .library (.proceed 0)
  [c, c, l, c, l, c, c, l, l, l, l, l, .library .schedule, c, c, .library .signal,
    .library .schedule, c, l, l, l, .library .schedule, c, c, c, c, c, .library .cleanup,
    .library .schedule, l, c, l, l, l, l, l, .library .schedule, l, c, c, c, c, c, c,
    .library .cleanup, .library .schedule, l, c]

theorem sum_contended :
    ∃ b, Execution (exec ⟨.vectorMultiply (fun i => UInt32.ofNat (i + 3)) fun i =>
        UInt32.ofNat (i + 5), 2, 0, 2⟩ .mlfq) (fun _ _ => True) (.start ⟨0, 0, none⟩) contended b ∧
      (∀ p q, InSection b p → InSection b q → p = q) ∧ b.site mainTcb = .joined ∧ b.sum = 39 := by
  have hseen : (replay (exec ⟨.vectorMultiply (fun i => UInt32.ofNat (i + 3)) fun i =>
      UInt32.ofNat (i + 5), 2, 0, 2⟩ .mlfq) (.start ⟨0, 0, none⟩) contended).map
      (fun b => b.site mainTcb) = .ok .joined := by decide +kernel
  obtain ⟨b, -, hb, hsite⟩ := Execution.of_observed hseen
  obtain ⟨halone, -, hjoined⟩ := sum_of_execution hb rfl (by decide) (by decide)
  exact ⟨b, hb, halone, hsite, (hjoined hsite).2⟩

end Benchmark

end UserLevelOs.Threads
