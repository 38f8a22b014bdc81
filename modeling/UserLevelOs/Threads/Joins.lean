import UserLevelOs.Threads.Listing

/-!
# Waiting for a thread to end

A thread in `worker_join` waits as long as its `join_tid` is set, and the cleanup of the thread
it waits for is what clears it.  Between the search of `ended_tcbs` and the setting of
`join_tid` the signal is not blocked: a thread that ends in between is waited for in vain.

## Main definitions

* `Machine.JoinsLive` — nobody waits for a thread that has ended.
* `Machine.InTime` — `join_tid` is set before the thread is put on `ended_tcbs`.
* `Machine.Awake` — a thread is not dispatched while it waits.
* `Machine.Waiters` — the invariant.

## Main statements

* `joinsLive_of_execution` — if every `join_tid` is set in time nobody waits in vain.
* `joinsLive_fails`.
-/

namespace UserLevelOs.Threads

open UserLevelOs.Lib

namespace Machine

variable {policy : Policy} {s s' : Machine} {p q : TcbPtr} {e : Event}
  {ok : Machine → Event → Prop} {garbage : Garbage} {es : List Event}

/-- No thread waits for one that has been put on `ended_tcbs`. -/
def JoinsLive (s : Machine) : Prop :=
  ∀ p, (s.tcbAt p).joinTid ≠ NONEXISTENT_THREAD →
    ∀ q ∈ s.endedTcbs.nodes, (s.tcbAt q).threadId ≠ (s.tcbAt p).joinTid

/-- If the next step sets `join_tid`, the thread it names is not on `ended_tcbs` by now. -/
def InTime (s : Machine) (e : Event) : Prop :=
  ∀ p thread valuePtr elapsed, s.running = some p → s.ctl p = .joinTid thread valuePtr →
    e = .proceed elapsed → ∀ q ∈ s.endedTcbs.nodes, (s.tcbAt q).threadId ≠ thread

/-- A thread that comes back from the scheduler does not wait. -/
def Awake (s : Machine) : Prop :=
  s.cpu = .thread → ∀ p c, s.running = some p → s.ctl p = .resume c →
    (s.tcbAt p).joinTid = NONEXISTENT_THREAD

/-- What a `join_tid` that is set says about its thread. -/
structure Waiters (s : Machine) : Prop where
  pending : ∀ p, (s.tcbAt p).joinTid ≠ NONEXISTENT_THREAD →
    ∃ valuePtr, (s.ctl p).joinStage = some (.pending (s.tcbAt p).joinTid valuePtr)
  listed : ∀ p, (s.tcbAt p).joinTid ≠ NONEXISTENT_THREAD → s.Listed p
  live : s.JoinsLive

theorem Own.joinTid_eq (h : Own p s s') (hq : q ≠ p) :
    (s'.tcbAt q).joinTid = (s.tcbAt q).joinTid := by
  rcases h.other q hq with h | h <;> rw [h]

theorem Own.listed (h : Own p s s') : s'.Listed q ↔ s.Listed q := by
  simp only [Listed, h.tcbs, h.running]

/-! ## Back from the scheduler -/

theorem JoinStep.not_resume (h : JoinStep s p e s') (c : Caller) : s'.ctl p ≠ .resume c := by
  cases h with
  | call thread valuePtr hctl =>
    unfold workerJoin
    dsimp only
    split <;> simp
  | store => simp
  | register => simp
  | retval => simp
  | done => simp

theorem Awake.exec (h : s.Awake) (hp : s.Placed policy) (hok : s.exec policy e = .ok s') :
    s'.Awake := by
  intro hcpu' r c hr hctl
  rcases exec_cases hok with ⟨p, hcpu, hrun, hok⟩ | ⟨-, -, hok⟩ | ⟨p, -, -, -, hok⟩
  · rcases execThread_steps hok with ⟨thread, -, -, rfl⟩ | ⟨_, q, -, -, rfl⟩ | ⟨-, -, -, rfl⟩ |
      hjoin | hapart
    · have heq : r = p := by simpa [workerCreate, hrun, eq_comm] using hr
      simp [workerCreate, heq] at hctl
    · have heq : r = p := by simpa [enqueueCreated, hrun, eq_comm] using hr
      simp [enqueueCreated, heq] at hctl
    · cases hcpu'
    · have heq : r = p := by simpa [hjoin.own.running, hrun, eq_comm] using hr
      exact absurd (heq ▸ hctl) (hjoin.not_resume c)
    · have heq : r = p := by simpa [hapart.running, hrun, eq_comm] using hr
      subst heq
      rw [hapart.joinTid]
      rcases hapart.resume c hctl with hsched | hctl
      · simp [hcpu'] at hsched
      · exact h hcpu r c hrun hctl
  · obtain ⟨next, hnext, hfree⟩ := (hp.rescheduled hok).next
    have heq : r = next := by simpa [hnext, eq_comm] using hr
    exact heq ▸ (isBlocked_eq_false.mp hfree).1
  · obtain ⟨l, notes, -, -, rfl⟩ := cleanExitedWorkerThread_ok hok
    cases hcpu'

theorem awake_of_execution (h : Execution (Machine.exec policy) ok (initLibrary garbage) es s) :
    s.Awake := by
  have hboth : s.Placed policy ∧ s.Awake :=
    h.invariant (I := fun s => s.Placed policy ∧ s.Awake)
      ⟨Placed.init policy garbage, by simp [Awake, initLibrary]⟩
      fun _ _ _ hs _ hok => ⟨hs.1.exec hok, hs.2.exec hs.1 hok⟩
  exact hboth.2

/-! ## Threads that wait -/

namespace Waiters

/-- A thread that has not set its `join_tid` does not wait. -/
theorem joinTid_eq_zero (h : s.Waiters)
    (hctl : ∀ thread valuePtr, (s.ctl p).joinStage ≠ some (.pending thread valuePtr)) :
    (s.tcbAt p).joinTid = NONEXISTENT_THREAD := by
  by_contra hne
  obtain ⟨valuePtr, hstage⟩ := h.pending p hne
  exact hctl _ _ hstage

/-- A step of the running thread `p`: only what it does to `p` matters. -/
theorem own (h : s.Waiters) (hown : Own p s s') (hrun : s.running = some p)
    (hpending : (s'.tcbAt p).joinTid ≠ NONEXISTENT_THREAD →
      (∃ valuePtr, (s'.ctl p).joinStage = some (.pending (s'.tcbAt p).joinTid valuePtr)) ∧
        ∀ q ∈ s.endedTcbs.nodes, (s.tcbAt q).threadId ≠ (s'.tcbAt p).joinTid) : s'.Waiters := by
  refine ⟨fun r hr => ?_, fun r hr => ?_, fun r hr q hq => ?_⟩
  · by_cases hrp : r = p
    · subst hrp
      exact (hpending hr).1
    · rw [hown.joinTid_eq hrp] at hr ⊢
      rw [hown.ctl r hrp]
      exact h.pending r hr
  · rw [hown.listed]
    by_cases hrp : r = p
    · exact .inr (hrp ▸ hrun)
    · exact h.listed r (hown.joinTid_eq hrp ▸ hr)
  · rw [hown.endedTcbs] at hq
    rw [hown.threadId_eq]
    by_cases hrp : r = p
    · subst hrp
      exact (hpending hr).2 q hq
    · rw [hown.joinTid_eq hrp] at hr ⊢
      exact h.live r hr q hq

theorem joinStep (h : s.Waiters) (ha : s.Awake) (hrun : s.running = some p)
    (hcpu : s.cpu = .thread) (hintime : s.InTime e) (hstep : JoinStep s p e s') : s'.Waiters := by
  have hown := hstep.own
  cases hstep with
  | call thread valuePtr hctl =>
    have hzero := h.joinTid_eq_zero (p := p) (by simp [hctl, Ctl.joinStage])
    have hsame : (s.workerJoin p thread valuePtr).tcbAt = s.tcbAt := by
      unfold workerJoin
      dsimp only
      split <;> rfl
    exact h.own hown hrun fun hne => absurd (by rw [hsame, hzero]) hne
  | store elapsed ended thread valuePtr s₁ hctl hstore =>
    have hzero := h.joinTid_eq_zero (p := p) (by simp [hctl, Ctl.joinStage])
    have hsame : s₁.tcbAt = s.tcbAt := by
      rcases storeIf_ok hstore with ⟨-, -, rfl⟩ | ⟨-, rfl⟩ <;> rfl
    exact h.own hown hrun fun hne => absurd hzero (by simpa [hsame] using hne)
  | register elapsed thread valuePtr hctl =>
    refine h.own hown hrun fun _ => ⟨⟨valuePtr, by simp [Ctl.joinStage]⟩, fun q hq => ?_⟩
    simpa using hintime p thread valuePtr elapsed hrun hctl rfl q hq
  | retval elapsed thread valuePtr hctl =>
    refine h.own hown hrun fun hne => ?_
    have hne' : (s.tcbAt p).joinTid ≠ NONEXISTENT_THREAD := by simpa using hne
    obtain ⟨a, hstage⟩ := h.pending p hne'
    rw [hctl] at hstage
    refine ⟨⟨valuePtr, ?_⟩, fun q hq => by simpa using h.live p hne' q hq⟩
    simp_all [Ctl.joinStage]
  | done elapsed thread valuePtr hctl =>
    have hzero := ha hcpu p _ hrun hctl
    exact h.own hown hrun fun hne => absurd hzero (by simpa using hne)

theorem apart (h : s.Waiters) (hrun : s.running = some p) (hapart : Apart p s s') :
    s'.Waiters := by
  refine h.own hapart.toOwn hrun fun hne => ?_
  rw [hapart.joinTid] at hne ⊢
  rw [hapart.stage]
  exact ⟨h.pending p hne, fun q hq => h.live p hne q hq⟩

theorem workerCreate {thread : Addr} (h : s.Waiters) (hp : s.Placed policy)
    (hctl : s.ctl p = .program) : (s.workerCreate p thread).Waiters := by
  have hzero := h.joinTid_eq_zero (p := p) (by simp [hctl, Ctl.joinStage])
  have hold : ∀ r, r ≠ s.allocated → (s.workerCreate p thread).tcbAt r = s.tcbAt r :=
    fun r hr => by simp [Machine.workerCreate, hr]
  have hnew : ((s.workerCreate p thread).tcbAt s.allocated).joinTid = NONEXISTENT_THREAD := by
    simp [Machine.workerCreate, newTcb]
  -- whoever waits is neither the new thread nor the one that makes it
  have hwaits : ∀ r, ((s.workerCreate p thread).tcbAt r).joinTid ≠ NONEXISTENT_THREAD →
      (s.workerCreate p thread).tcbAt r = s.tcbAt r ∧ r ≠ p := fun r hr => by
    have hne : r ≠ s.allocated := fun heq => hr (heq ▸ hnew)
    refine ⟨hold r hne, fun heq => hr ?_⟩
    rw [hold r hne, heq, hzero]
  refine ⟨fun r hr => ?_, fun r hr => ?_, fun r hr q hq => ?_⟩
  · obtain ⟨hsame, hrp⟩ := hwaits r hr
    rw [hsame] at hr ⊢
    simpa [Machine.workerCreate, hrp] using h.pending r hr
  · obtain ⟨hsame, -⟩ := hwaits r hr
    exact h.listed r (hsame ▸ hr)
  · have hqlt : q < s.allocated := hp.lt_allocated (by
      have hq' : q ∈ s.endedTcbs.nodes := hq
      simp [pool, hq'])
    obtain ⟨hsame, -⟩ := hwaits r hr
    rw [hsame] at hr ⊢
    rw [hold q hqlt.ne]
    exact h.live r hr q hq

/-- A new thread, or one that has returned, waits for nobody. -/
theorem of_eq (h : s.Waiters) (htcb : s'.tcbAt = s.tcbAt) (hctl : ∀ r ≠ p, s'.ctl r = s.ctl r)
    (hzero : (s.tcbAt p).joinTid = NONEXISTENT_THREAD) (htcbs : s'.tcbs = s.tcbs)
    (hrunning : s'.running = s.running) (hended : s'.endedTcbs = s.endedTcbs) : s'.Waiters := by
  have hne : ∀ r, (s.tcbAt r).joinTid ≠ NONEXISTENT_THREAD → r ≠ p := fun r hr heq =>
    hr (heq ▸ hzero)
  refine ⟨fun r hr => ?_, fun r hr => ?_, fun r hr q hq => ?_⟩
  · rw [htcb] at hr ⊢
    rw [hctl r (hne r hr)]
    exact h.pending r hr
  · rw [htcb] at hr
    simpa [Listed, htcbs, hrunning] using h.listed r hr
  · rw [htcb] at hr ⊢
    exact h.live r hr q (hended ▸ hq)

theorem schedule (h : s.Waiters) (hp : s.Placed policy) (ht : s.Tracked policy)
    (hroom : s.Roomy policy) (hok : s.schedule policy = .ok s') : s'.Waiters := by
  have hround := hp.rescheduled hok
  refine ⟨fun r hr => ?_, fun r hr => ?_, fun r hr q hq => ?_⟩
  · rw [hround.joinTid] at hr ⊢
    rw [hround.ctl]
    exact h.pending r hr
  · rw [hround.joinTid] at hr
    exact (h.listed r hr).schedule hp ht hroom hok
  · rw [hround.joinTid] at hr ⊢
    rw [hround.threadId]
    exact h.live r hr q (hround.endedTcbs ▸ hq)

/-- Those who wait for the thread that has ended are woken. -/
theorem clean (h : s.Waiters) (hp : s.Placed policy) (ht : s.Tracked policy)
    (hlt : s.allocated < 2 ^ 32) (hrun : s.running = some p) (hcpu : s.cpu = .cleanup)
    (hok : s.cleanExitedWorkerThread p = .ok s') : s'.Waiters := by
  have hlisted : ∀ r, s.Listed r → r ≠ p → s'.Listed r := fun r hr hne =>
    hr.clean hp ht hlt hrun hne hok
  obtain ⟨l, notes, -, -, rfl⟩ := cleanExitedWorkerThread_ok hok
  have hzero : (s.tcbAt p).joinTid = NONEXISTENT_THREAD := by
    have hctl := (hp.cleaning hcpu p hrun).2
    exact h.joinTid_eq_zero (by simp [hctl, Ctl.joinStage])
  have hwaits : ∀ r, (woken s.tcbAt (s.tcbAt p).threadId l.nodes r).joinTid ≠ NONEXISTENT_THREAD →
      (woken s.tcbAt (s.tcbAt p).threadId l.nodes r) = s.tcbAt r ∧
        (r ∈ l.nodes → (s.tcbAt r).joinTid ≠ (s.tcbAt p).threadId) := fun r hr => by
    unfold woken at hr ⊢
    split at hr
    · next hin =>
      rw [if_pos hin]
      unfold wake at hr ⊢
      split at hr
      · exact absurd rfl hr
      · next hne => exact ⟨if_neg hne, fun _ => hne⟩
    · next hout => exact ⟨if_neg hout, fun hin => absurd hin hout⟩
  have hid : ∀ r, (woken s.tcbAt (s.tcbAt p).threadId l.nodes r).threadId =
      (s.tcbAt r).threadId := fun r => by rw [woken_eq]
  refine ⟨fun r hr => ?_, fun r hr => ?_, fun r hr q hq => ?_⟩
  · obtain ⟨hsame, -⟩ := hwaits r hr
    change ∃ valuePtr, (s.ctl r).joinStage = some (.pending
      (woken s.tcbAt (s.tcbAt p).threadId l.nodes r).joinTid valuePtr)
    rw [hsame]
    exact h.pending r (by rwa [← hsame])
  · obtain ⟨hsame, -⟩ := hwaits r hr
    have hr' : (s.tcbAt r).joinTid ≠ NONEXISTENT_THREAD := by rwa [← hsame]
    exact hlisted r (h.listed r hr') fun heq => hr' (heq ▸ hzero)
  · obtain ⟨hsame, hnot⟩ := hwaits r hr
    have hr' : (s.tcbAt r).joinTid ≠ NONEXISTENT_THREAD := by rwa [← hsame]
    change (woken s.tcbAt (s.tcbAt p).threadId l.nodes q).threadId ≠
      (woken s.tcbAt (s.tcbAt p).threadId l.nodes r).joinTid
    rw [hid, hsame]
    rcases List.mem_cons.mp hq with rfl | hq
    · have hin : r ∈ l.nodes := (hlisted r (h.listed r hr') fun heq => hr' (heq ▸ hzero)).resolve_right
        (by simp)
      exact (hnot hin).symm
    · exact h.live r hr' q hq

theorem exec (h : s.Waiters) (hp : s.Placed policy) (ha : s.Awake) (ht : s.Tracked policy)
    (hlt : s.allocated < 2 ^ 32) (hintime : s.InTime e) (hroom : e = .schedule → s.Roomy policy)
    (hok : s.exec policy e = .ok s') : s'.Waiters := by
  rcases exec_cases hok with ⟨p, hcpu, hrun, hok⟩ | ⟨he, -, hok⟩ | ⟨p, -, hcpu, hrun, hok⟩
  · rcases execThread_steps hok with ⟨thread, -, hctl, rfl⟩ | ⟨_, q, -, hctl, rfl⟩ |
      ⟨-, hctl, -, rfl⟩ | hjoin | hapart
    · exact h.workerCreate hp hctl
    · have hzero := h.joinTid_eq_zero (p := p) (by simp [hctl, Ctl.joinStage])
      exact h.of_eq rfl (fun r hr => by simp [enqueueCreated, hr]) hzero rfl rfl rfl
    · have hzero := h.joinTid_eq_zero (p := p) (by simp [hctl, Ctl.joinStage])
      exact h.of_eq rfl (fun _ _ => rfl) hzero rfl rfl rfl
    · exact h.joinStep ha hrun hcpu hintime hjoin
    · exact h.apart hrun hapart
  · exact h.schedule hp ht (hroom he) hok
  · exact h.clean hp ht hlt hrun hcpu hok

end Waiters

/-- If every `join_tid` is set in time, and neither the size of `tcbs` nor the numbers of threads
wrap, nobody waits for a thread that has ended. -/
theorem joinsLive_of_execution
    (h : Execution (Machine.exec policy)
      (fun s e => s.InTime e ∧ (e = .schedule → s.Roomy policy)) (initLibrary garbage) es s)
    (hn : es.countP creates < 2 ^ 32 - 1) : s.JoinsLive := by
  have hinit : (initLibrary garbage).Waiters := by
    constructor <;> simp [initLibrary, newTcb, JoinsLive]
  have hwaiters : s.Waiters := by
    refine h.invariant_of_count hn hinit fun es s e s' hes hcount hs hok hstep => ?_
    rw [List.countP_append] at hcount
    have hlt : s.allocated < 2 ^ 32 := by
      rw [allocated_of_execution hes]
      omega
    exact hs.exec (placed_of_execution hes) (awake_of_execution hes)
      (tracked_of_execution hes (by omega)) hlt hok.1 hok.2 hstep
  exact hwaiters.live

/-- A join that is in time: the thread is listed before it runs. -/
def joinAtOnce : List Event :=
  [.call (.create 100), .proceed 0, .call (.join 2 200), .proceed 0]

theorem joinsLive_joinAtOnce :
    ∃ s, Execution (Machine.exec .psjf)
        (fun s e => s.InTime e ∧ (e = .schedule → s.Roomy .psjf)) (initLibrary ⟨0, 0, none⟩)
        joinAtOnce s ∧ (s.tcbAt mainTcb).joinTid = 2 ∧ s.JoinsLive := by
  -- before any thread has ended every join is in time
  have hok : ∀ (s : Machine) (e : Event), (s.endedTcbs.nodes.isEmpty && e != .schedule) = true →
      s.InTime e ∧ (e = .schedule → s.Roomy .psjf) := fun s e htest => by
    simp only [Bool.and_eq_true, List.isEmpty_iff, bne_iff_ne, ne_eq] at htest
    exact ⟨fun _ _ _ _ _ _ _ q hq => by simp [htest.1] at hq, fun heq => absurd heq htest.2⟩
  have hseen : (Execution.replayIf (Machine.exec .psjf)
      (fun s e => s.endedTcbs.nodes.isEmpty && e != .schedule) (initLibrary ⟨0, 0, none⟩)
      joinAtOnce).map (Except.map fun s => (s.tcbAt mainTcb).joinTid) = some (.ok 2) := rfl
  obtain ⟨s, hs, htid⟩ := Execution.of_observedIf hok hseen
  exact ⟨s, hs, htid, joinsLive_of_execution hs (by decide)⟩

/-- The main thread searches `ended_tcbs` for the thread it has made, and is preempted before it
sets `join_tid`; the thread runs, returns and is cleaned, and then the main thread goes on. -/
def lateJoin : List Event :=
  let yield (elapsed : UInt32) : List Event :=
    [.call .yield, .proceed elapsed, .proceed 0, .proceed 0, .schedule]
  [.call (.create 100), .proceed 0] ++ yield 5 ++ yield 10 ++
    [.proceed 0, .call (.join 2 200), .signal, .schedule, .proceed 0, .finish, .cleanup, .schedule,
      .proceed 0]

/-- The main thread waits for a thread that has ended. -/
theorem joinsLive_fails : ¬ ∀ policy garbage es s,
    Execution (Machine.exec policy) (fun _ _ => True) (initLibrary garbage) es s →
      s.cpu = .thread → (∀ p, s.running = some p → (s.ctl p).masked = false) → s.JoinsLive := by
  intro hclaim
  have hseen : (replay (Machine.exec .psjf) (initLibrary ⟨0, 0, none⟩) lateJoin).map
      (fun s => (s.cpu, s.running, (s.ctl 0).masked, (s.tcbAt 0).joinTid, (s.tcbAt 1).threadId,
        s.endedTcbs.nodes)) = .ok (.thread, some 0, false, 2, 2, [1]) := rfl
  obtain ⟨s, -, hs, hobs⟩ := Execution.of_observed hseen
  simp only [Prod.mk.injEq] at hobs
  obtain ⟨hcpu, hrun, hmask, htid, hid, hended⟩ := hobs
  have hlive := hclaim .psjf _ _ s hs hcpu (by simp [hrun, hmask])
  exact hlive 0 (by rw [htid]; decide) 1 (by simp [hended]) (by rw [hid, htid])

end Machine

end UserLevelOs.Threads
