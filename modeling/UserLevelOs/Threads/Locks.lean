import UserLevelOs.Threads.MutexSteps
import UserLevelOs.Threads.Joins

/-!
# Mutual exclusion

A thread holds a mutex from its return from `worker_mutex_lock` to its next call of
`worker_mutex_unlock`.  The node of the mutex names the holder, so there is at most one.  A
thread that finds the mutex held registers in `seeking_lock` and leaves the processor; the
release wakes those that are listed in `tcbs`, and all that wait are.

## Main definitions

* `HoldsIn`, `Machine.Holds` — who holds a mutex, by the calls alone.
* `Machine.Registered` — the node is on the list of mutexes.
* `Machine.LockSafe` — mutual exclusion, and nobody waits for a free mutex.
* `Machine.Locks` — the invariant.

## Main statements

* `lockSafe_of_execution`.
-/

namespace UserLevelOs.Threads

open UserLevelOs.Lib

/-- The thread has returned from `worker_mutex_lock` of the mutex and has not entered
`worker_mutex_unlock` of it since. -/
def HoldsIn (p : TcbPtr) (n : NodePtr) : List Note → Prop
  | [] => False
  | .locked q m :: notes => q = p ∧ m = n ∨ HoldsIn p n notes
  | .unlocking q m :: notes => ¬ (q = p ∧ m = n) ∧ HoldsIn p n notes
  | _ :: notes => HoldsIn p n notes

theorem holdsIn_append {p : TcbPtr} {n : NodePtr} {notes earlier : List Note}
    (h : ∀ m ∈ notes, m.aboutMutex = false) :
    HoldsIn p n (notes ++ earlier) ↔ HoldsIn p n earlier := by
  induction notes with
  | nil => rfl
  | cons m notes ih =>
    have hm := h m (by simp)
    have hrest := ih fun k hk => h k (by simp [hk])
    cases m <;> simp_all [Note.aboutMutex, HoldsIn]

namespace Machine

variable {policy : Policy} {s s' : Machine} {p q r : TcbPtr} {n k : NodePtr} {e : Event}
  {ok : Machine → Event → Prop} {garbage : Garbage} {es : List Event} {mutex : Addr}

def Holds (s : Machine) (p : TcbPtr) (n : NodePtr) : Prop := HoldsIn p n s.history

/-- `mutexes->front` leads to the node. -/
def Registered (s : Machine) (n : NodePtr) : Prop :=
  ∃ l, Linked s.mutexes.nodes s.mutexes.front l ∧ n ∈ l

/-- The mutex with this number is held by a thread. -/
def HeldNow (s : Machine) (num : WorkerMutex) : Prop :=
  ∃ n node q, s.Registered n ∧ s.mutexes.nodes n = some node ∧ node.lockNum = num ∧ s.Holds q n

/-- At most one thread holds a mutex, and it is the one that the node names; whoever waits for
a mutex is in `worker_mutex_lock` and waits for one that is held. -/
structure LockSafe (s : Machine) : Prop where
  exclusive : ∀ p q n, s.Holds p n → s.Holds q n → p = q
  recorded : ∀ p n, s.Holds p n → s.Registered n ∧
    ∃ node, s.mutexes.nodes n = some node ∧ node.holderTid = (s.tcbAt p).threadId
  waiting : ∀ p, (s.tcbAt p).seekingLock ≠ NONEXISTENT_MUTEX →
    (s.ctl p).seeks = true ∧ s.HeldNow (s.tcbAt p).seekingLock

/-- The mutexes and the calls that are about them. -/
structure Locks (s : Machine) : Prop where
  linked : ∃ l, Linked s.mutexes.nodes s.mutexes.front l ∧ ∀ n, s.mutexes.nodes n ≠ none → n ∈ l
  holder : ∀ p n, s.Holds p n → p < s.allocated ∧
    ∃ node, s.mutexes.nodes n = some node ∧ node.holderTid = (s.tcbAt p).threadId
  held : ∀ n node, s.mutexes.nodes n = some node → node.holderTid ≠ NONEXISTENT_THREAD →
    ∃ p, s.Holds p n
  seeks : ∀ p, (s.tcbAt p).seekingLock ≠ NONEXISTENT_MUTEX → (s.ctl p).seeks = true ∧ s.Listed p
  taken : ∀ p, (s.tcbAt p).seekingLock ≠ NONEXISTENT_MUTEX →
    ∃ n node q, s.mutexes.nodes n = some node ∧ node.lockNum = (s.tcbAt p).seekingLock ∧
      s.Holds q n
  /-- A thread that comes back from the scheduler does not wait. -/
  awake : s.cpu = .thread → ∀ p mutex, s.running = some p → s.ctl p = .resume (.lock mutex) →
    (s.tcbAt p).seekingLock = NONEXISTENT_MUTEX

namespace Locks

/-- Outside `worker_mutex_lock` a thread seeks no mutex. -/
theorem seekingLock_eq_zero (h : s.Locks) (hctl : (s.ctl p).seeks = false) :
    (s.tcbAt p).seekingLock = NONEXISTENT_MUTEX := by
  by_contra hne
  exact absurd (h.seeks p hne).1 (by simp [hctl])

theorem safe (h : s.Locks) (hp : s.Placed policy) (hlt : s.allocated < 2 ^ 32) : s.LockSafe := by
  obtain ⟨l, hl, hall⟩ := h.linked
  have hregistered : ∀ n node, s.mutexes.nodes n = some node → s.Registered n :=
    fun n node hn => ⟨l, hl, hall n (by simp [hn])⟩
  refine ⟨fun p q n hpn hqn => ?_, fun p n hpn => ?_, fun p hne => ?_⟩
  · obtain ⟨hpa, node, hn, hid⟩ := h.holder p n hpn
    obtain ⟨hqa, node', hn', hid'⟩ := h.holder q n hqn
    rw [hn] at hn'
    cases hn'
    exact hp.threadId_inj hlt hpa hqa (hid.symm.trans hid')
  · obtain ⟨-, node, hn, hid⟩ := h.holder p n hpn
    exact ⟨hregistered n node hn, node, hn, hid⟩
  · obtain ⟨n, node, q, hn, hnum, hq⟩ := h.taken p hne
    exact ⟨(h.seeks p hne).1, n, node, q, hregistered n node hn, hn, hnum, hq⟩

/-- A step that is not about a mutex. -/
theorem aside (h : s.Locks) (hrun : s.running = some p) (haside : Aside p s s') :
    s'.Locks := by
  obtain ⟨notes, hnotes, hsilent⟩ := haside.history
  have hholds : ∀ q n, s'.Holds q n ↔ s.Holds q n := fun q n => by
    unfold Holds
    rw [hnotes, holdsIn_append hsilent]
  have hseek : ∀ q, (s'.tcbAt q).seekingLock ≠ NONEXISTENT_MUTEX →
      (s.tcbAt q).seekingLock ≠ NONEXISTENT_MUTEX := fun q hq => haside.seekingLock q hq ▸ hq
  refine ⟨haside.mutexes ▸ h.linked, fun q n hq => ?_, fun n node hn hne => ?_, fun q hq => ?_,
    fun q hq => ?_, fun hcpu' q mutex hq hctl => ?_⟩
  · obtain ⟨hqa, node, hn, hid⟩ := h.holder q n ((hholds q n).mp hq)
    exact ⟨hqa.trans_le haside.allocated, node, haside.mutexes ▸ hn,
      hid.trans (haside.threadId q hqa).symm⟩
  · obtain ⟨q, hq⟩ := h.held n node (haside.mutexes ▸ hn) hne
    exact ⟨q, (hholds q n).mpr hq⟩
  · obtain ⟨hseeks, hlisted⟩ := h.seeks q (hseek q hq)
    refine ⟨(haside.seeks q).trans hseeks, ?_⟩
    simpa only [Listed, haside.tcbs, haside.running] using hlisted
  · obtain ⟨n, node, r, hn, hnum, hr⟩ := h.taken q (hseek q hq)
    exact ⟨n, node, r, haside.mutexes ▸ hn, hnum.trans (haside.seekingLock q hq).symm,
      (hholds r n).mpr hr⟩
  · have heq : q = p := by simpa [haside.running, hrun, eq_comm] using hq
    subst heq
    have := haside.resume mutex hctl
    simp [hcpu'] at this

/-- The node of a new mutex belongs to nobody. -/
theorem init {item : NodePtr} (h : s.Locks) (hrun : s.running = some p)
    (hctl : s.ctl p = .program) (hok : s.workerMutexInit mutex item = .ok s') : s'.Locks := by
  obtain ⟨hfree, rfl⟩ := workerMutexInit_ok hok
  have hne : ∀ n node, s.mutexes.nodes n = some node → n ≠ item := fun n node hn heq => by
    simp [← heq, hn] at hfree
  obtain ⟨l, hl, hall⟩ := h.linked
  refine ⟨⟨item :: l, hl.cons_fresh hfree rfl, fun n hn => ?_⟩, fun q n hq => ?_,
    fun n node hn hheld => ?_, h.seeks, fun q hq => ?_, fun _ q mutex hq hq' => ?_⟩
  · by_cases hitem : n = item
    · simp [hitem]
    · have hn' : s.mutexes.nodes n ≠ none := by simpa [hitem] using hn
      exact List.mem_cons_of_mem _ (hall n hn')
  · obtain ⟨hqa, node, hn, hid⟩ := h.holder q n hq
    exact ⟨hqa, node, by simpa [hne n node hn] using hn, hid⟩
  · by_cases hitem : n = item
    · subst hitem
      obtain rfl : _ = node := by simpa using hn
      exact absurd rfl hheld
    · exact h.held n node (by simpa [hitem] using hn) hheld
  · obtain ⟨n, node, r, hn, hnum, hr⟩ := h.taken q hq
    exact ⟨n, node, r, by simpa [hne n node hn] using hn, hnum, hr⟩
  · have hqp : q = p := by simpa [hrun, eq_comm] using hq
    have hq'' : s.ctl p = .resume (.lock mutex) := hqp ▸ hq'
    simp [hctl] at hq''

/-- A change of the holder leaves the list linked. -/
theorem linked_setHolder {node : MutexNode} {tid : Worker} (h : s.Locks)
    (hn : s.mutexes.nodes n = some node) :
    ∃ l, Linked (s.setHolder n node tid).mutexes.nodes (s.setHolder n node tid).mutexes.front l ∧
      ∀ k, (s.setHolder n node tid).mutexes.nodes k ≠ none → k ∈ l := by
  obtain ⟨l, hl, hall⟩ := h.linked
  refine ⟨l, hl.congr fun k hk => ?_, fun k hk => ?_⟩
  · by_cases hkn : k = n
    · simp [Mutexes.setNode, hkn, hn]
    · simp [Mutexes.setNode, hkn]
  · by_cases hkn : k = n
    · exact hkn ▸ hall n (by simp [hn])
    · exact hall k (by simpa [Mutexes.setNode, hkn] using hk)

/-- `worker_mutex_lock`, when it is called and when the thread is back from the scheduler. -/
theorem lock (h : s.Locks) (hp : s.Placed policy) (hlt : s.allocated < 2 ^ 32)
    (hrun : s.running = some p) (hzero : (s.tcbAt p).seekingLock = NONEXISTENT_MUTEX)
    (hok : s.workerMutexLock p mutex = .ok s') : s'.Locks := by
  have hpa := hp.lt_allocated (Placed.mem_running hrun)
  obtain ⟨n, node, hn, hnum, ⟨hfree, rfl⟩ | ⟨htaken, rfl⟩⟩ := workerMutexLock_ok hok
  · -- nobody held the mutex
    have hnone : ∀ q k, s.Holds q k → k ≠ n := fun q k hq hk => by
      obtain ⟨hqa, node', hn', hid⟩ := h.holder q k hq
      rw [hk, hn] at hn'
      cases hn'
      exact hp.threadId_ne_zero hlt hqa (hid.symm.trans hfree)
    refine ⟨h.linked_setHolder hn, fun q k hq => ?_, fun k node' hk hheld => ?_, fun q hq => ?_,
      fun q hq => ?_, fun _ q mutex hq hq' => ?_⟩
    · rcases hq with ⟨rfl, rfl⟩ | hq
      · exact ⟨hpa, { node with holderTid := (s.tcbAt p).threadId }, by simp [Mutexes.setNode], rfl⟩
      · obtain ⟨hqa, node', hk, hid⟩ := h.holder q k hq
        exact ⟨hqa, node', by simpa [Mutexes.setNode, hnone q k hq] using hk, hid⟩
    · by_cases hkn : k = n
      · exact ⟨p, .inl ⟨rfl, hkn.symm⟩⟩
      · obtain ⟨q, hq⟩ := h.held k node' (by simpa [Mutexes.setNode, hkn] using hk) hheld
        exact ⟨q, .inr hq⟩
    · obtain ⟨hseeks, hlisted⟩ := h.seeks q hq
      have hqp : q ≠ p := fun heq => hq (heq ▸ hzero)
      exact ⟨by simpa [hqp] using hseeks, hlisted⟩
    · obtain ⟨k, node', r, hk, hknum, hr⟩ := h.taken q hq
      exact ⟨k, node', r, by simpa [Mutexes.setNode, hnone r k hr] using hk, hknum, .inr hr⟩
    · have hqp : q = p := by simpa [hrun, eq_comm] using hq
      simp [hqp] at hq'
  · -- somebody holds it, and the thread waits
    obtain ⟨holder, hholder⟩ := h.held n node hn htaken
    have hid : ∀ q, ((s.setTcb p { s.tcbAt p with seekingLock := s.vars mutex }).tcbAt q).threadId =
        (s.tcbAt q).threadId := fun q => by
      by_cases hqp : q = p <;> simp [hqp]
    refine ⟨h.linked, fun q k hq => ?_, h.held, fun q hq => ?_, fun q hq => ?_,
      fun _ q mutex hq hq' => ?_⟩
    · obtain ⟨hqa, node', hk, htid⟩ := h.holder q k hq
      exact ⟨hqa, node', hk, htid.trans (hid q).symm⟩
    · by_cases hqp : q = p
      · exact ⟨by simp [hqp, Ctl.seeks], .inr (hqp ▸ hrun)⟩
      · have hq' : (s.tcbAt q).seekingLock ≠ NONEXISTENT_MUTEX := by simpa [hqp] using hq
        obtain ⟨hseeks, hlisted⟩ := h.seeks q hq'
        exact ⟨by simpa [hqp] using hseeks, hlisted⟩
    · by_cases hqp : q = p
      · exact ⟨n, node, holder, hn, by simpa [hqp] using hnum, hholder⟩
      · have hq' : (s.tcbAt q).seekingLock ≠ NONEXISTENT_MUTEX := by simpa [hqp] using hq
        obtain ⟨k, node', r, hk, hknum, hr⟩ := h.taken q hq'
        exact ⟨k, node', r, hk, by simpa [hqp] using hknum, hr⟩
    · have hqp : q = p := by simpa [hrun, eq_comm] using hq
      simp [hqp] at hq'

/-- The release wakes whoever waits for the mutex: they are all in `tcbs`. -/
theorem unlock (h : s.Locks) (hp : s.Placed policy) (hlt : s.allocated < 2 ^ 32)
    (hrun : s.running = some p) (hctl : s.ctl p = .program)
    (hok : s.workerMutexUnlock p mutex = .ok s') : s'.Locks := by
  have hpa := hp.lt_allocated (Placed.mem_running hrun)
  have hzero := h.seekingLock_eq_zero (p := p) (by simp [hctl, Ctl.seeks])
  obtain ⟨n, node, hn, hnum, hid, rfl⟩ := workerMutexUnlock_ok hok
  set t := (s.setHolder n node NONEXISTENT_THREAD).note (.unlocking p n) with ht
  have htcb : ∀ q, (t.broadcastLockRelease (s.vars mutex)).2.tcbAt q =
      if q ∈ s.tcbs.nodes ∧ (s.tcbAt q).seekingLock = s.vars mutex then
        { s.tcbAt q with seekingLock := NONEXISTENT_MUTEX }
      else s.tcbAt q := broadcastLockRelease_tcbAt t (s.vars mutex)
  have hkept : ∀ q k, s.Holds q k → (q, k) ≠ (p, n) → k ≠ n := fun q k hq hne hk => by
    obtain ⟨hqa, node', hn', hid'⟩ := h.holder q k hq
    rw [hk, hn] at hn'
    cases hn'
    exact hne (by rw [hp.threadId_inj hlt hqa hpa (hid'.symm.trans hid), hk])
  have hstill : ∀ q k, k ≠ n → s.Holds q k →
      (t.broadcastLockRelease (s.vars mutex)).2.Holds q k := fun q k hk hq =>
    ⟨fun heq => hk heq.2.symm, hq⟩
  -- a thread that still waits was not waiting for this mutex
  have hwaits : ∀ q, ((t.broadcastLockRelease (s.vars mutex)).2.tcbAt q).seekingLock ≠
      NONEXISTENT_MUTEX → (t.broadcastLockRelease (s.vars mutex)).2.tcbAt q = s.tcbAt q ∧
        (s.tcbAt q).seekingLock ≠ NONEXISTENT_MUTEX ∧
          (s.tcbAt q).seekingLock ≠ s.vars mutex := fun q hq => by
    rw [htcb] at hq ⊢
    split at hq
    · exact absurd rfl hq
    · next hout =>
      have hin : q ∈ s.tcbs.nodes := (h.seeks q hq).2.resolve_right fun hq' => hq (by
        have hqp : q = p := by simpa [hrun, eq_comm] using hq'
        rw [hqp, hzero])
      exact ⟨if_neg hout, hq, fun heq => hout ⟨hin, heq⟩⟩
  refine ⟨h.linked_setHolder hn, fun q k hq => ?_, fun k node' hk hheld => ?_, fun q hq => ?_,
    fun q hq => ?_, fun _ q mutex hq hq' => ?_⟩
  · obtain ⟨hne, hq⟩ := hq
    obtain ⟨hqa, node', hk, hid'⟩ := h.holder q k hq
    have hkn := hkept q k hq fun heq => by
      simp only [Prod.mk.injEq] at heq
      exact hne ⟨heq.1.symm, heq.2.symm⟩
    refine ⟨hqa, node', by simpa [broadcastLockRelease, ht, Mutexes.setNode, hkn] using hk, ?_⟩
    rw [htcb]
    split <;> exact hid'
  · have hkn : k ≠ n := fun heq => by
      subst heq
      obtain rfl : _ = node' := by simpa [broadcastLockRelease, ht, Mutexes.setNode] using hk
      exact hheld rfl
    have hk' : s.mutexes.nodes k = some node' := by
      simpa [broadcastLockRelease, ht, Mutexes.setNode, hkn] using hk
    obtain ⟨q, hq⟩ := h.held k node' hk' hheld
    exact ⟨q, hstill q k hkn hq⟩
  · obtain ⟨-, hq', -⟩ := hwaits q hq
    exact h.seeks q hq'
  · obtain ⟨hsame, hq', hother⟩ := hwaits q hq
    obtain ⟨k, node', r, hk, hknum, hr⟩ := h.taken q hq'
    have hkn : k ≠ n := fun heq => by
      subst heq
      rw [hn] at hk
      cases hk
      exact hother (hknum.symm.trans hnum)
    refine ⟨k, node', r, by simpa [broadcastLockRelease, ht, Mutexes.setNode, hkn] using hk, ?_,
      hstill r k hkn hr⟩
    rw [hsame, hknum]
  · have hqp : q = p := by
      have hq'' : s.running = some q := hq
      simpa [hrun, eq_comm] using hq''
    have hq'' : s.ctl p = .resume (.lock mutex) := hqp ▸ hq'
    simp [hctl] at hq''

/-- A round of the scheduler. -/
theorem schedule (h : s.Locks) (hp : s.Placed policy) (ht : s.Tracked policy)
    (hroom : s.Roomy policy) (hok : s.schedule policy = .ok s') : s'.Locks := by
  have hround := hp.rescheduled hok
  have hholds : ∀ q n, s'.Holds q n ↔ s.Holds q n := fun q n => by
    unfold Holds
    rw [hround.history]
  refine ⟨hround.mutexes ▸ h.linked, fun q n hq => ?_, fun n node hn hne => ?_, fun q hq => ?_,
    fun q hq => ?_, fun _ q mutex hq _ => ?_⟩
  · rw [hround.allocated, hround.mutexes, hround.threadId]
    exact h.holder q n ((hholds q n).mp hq)
  · obtain ⟨q, hq⟩ := h.held n node (hround.mutexes ▸ hn) hne
    exact ⟨q, (hholds q n).mpr hq⟩
  · rw [hround.seekingLock] at hq
    obtain ⟨hseeks, hlisted⟩ := h.seeks q hq
    exact ⟨by rwa [hround.ctl], hlisted.schedule hp ht hroom hok⟩
  · rw [hround.seekingLock] at hq ⊢
    obtain ⟨n, node, r, hn, hnum, hr⟩ := h.taken q hq
    exact ⟨n, node, r, by rwa [hround.mutexes], hnum, (hholds r n).mpr hr⟩
  · obtain ⟨next, hnext, hfree⟩ := hround.next
    have hqn : q = next := by simpa [hnext, eq_comm] using hq
    exact hqn ▸ (isBlocked_eq_false.mp hfree).2

/-- The cleanup of a thread that has ended. -/
theorem clean (h : s.Locks) (hp : s.Placed policy) (ht : s.Tracked policy)
    (hlt : s.allocated < 2 ^ 32) (hrun : s.running = some p) (hcpu : s.cpu = .cleanup)
    (hok : s.cleanExitedWorkerThread p = .ok s') : s'.Locks := by
  have hlisted : ∀ r, s.Listed r → r ≠ p → s'.Listed r := fun r hr hne =>
    hr.clean hp ht hlt hrun hne hok
  have hctl := (hp.cleaning hcpu p hrun).2
  have hzero := h.seekingLock_eq_zero (p := p) (by simp [hctl, Ctl.seeks])
  obtain ⟨l, notes, -, hstores, rfl⟩ := cleanExitedWorkerThread_ok hok
  have hholds : ∀ q n, HoldsIn q n (notes ++ s.history) ↔ s.Holds q n := fun q n =>
    holdsIn_append fun m hm => by
      obtain ⟨-, -, -, rfl⟩ := hstores.only m hm
      rfl
  have hsame : ∀ q, (woken s.tcbAt (s.tcbAt p).threadId l.nodes q).threadId =
      (s.tcbAt q).threadId ∧ (woken s.tcbAt (s.tcbAt p).threadId l.nodes q).seekingLock =
        (s.tcbAt q).seekingLock := fun q => by
    rw [woken_eq]
    exact ⟨rfl, rfl⟩
  refine ⟨h.linked, fun q n hq => ?_, fun n node hn hne => ?_, fun q hq => ?_, fun q hq => ?_,
    fun hcpu' => by simp at hcpu'⟩
  · obtain ⟨hqa, node, hn, hid⟩ := h.holder q n ((hholds q n).mp hq)
    exact ⟨hqa, node, hn, hid.trans (hsame q).1.symm⟩
  · obtain ⟨q, hq⟩ := h.held n node hn hne
    exact ⟨q, (hholds q n).mpr hq⟩
  · have hq' : (s.tcbAt q).seekingLock ≠ NONEXISTENT_MUTEX := by rwa [← (hsame q).2]
    obtain ⟨hseeks, hlist⟩ := h.seeks q hq'
    exact ⟨hseeks, hlisted q hlist fun heq => hq' (heq ▸ hzero)⟩
  · have hq' : (s.tcbAt q).seekingLock ≠ NONEXISTENT_MUTEX := by rwa [← (hsame q).2]
    obtain ⟨n, node, r, hn, hnum, hr⟩ := h.taken q hq'
    exact ⟨n, node, r, hn, hnum.trans (hsame q).2.symm, (hholds r n).mpr hr⟩

/-- A step of any context; nothing is destroyed. -/
theorem exec (h : s.Locks) (hp : s.Placed policy) (ht : s.Tracked policy)
    (hlt : s.allocated < 2 ^ 32) (hroom : s.Roomy policy) (hnone : ∀ p, (s.ctl p).destroys = false)
    (he : ∀ mutex, e ≠ .call (.mutexDestroy mutex)) (hok : s.exec policy e = .ok s') :
    s'.Locks := by
  rcases exec_cases hok with ⟨p, hcpu, hrun, hok⟩ | ⟨-, -, hok⟩ | ⟨p, -, hcpu, hrun, hok⟩
  · rcases execThread_mutex hok with hmutex | haside
    · cases hmutex with
      | init mutex item hctl hok => exact h.init hrun hctl hok
      | lock mutex hctl hok =>
        have hzero := h.seekingLock_eq_zero (p := p) (by simp [hctl, Ctl.seeks])
        exact h.lock hp hlt hrun hzero hok
      | relock elapsed mutex hctl hok =>
        exact h.lock hp hlt hrun (h.awake hcpu p mutex hrun hctl) hok
      | unlock mutex hctl hok => exact h.unlock hp hlt hrun hctl hok
      | destroy mutex => exact absurd rfl (he mutex)
      | destroyStmt elapsed masked mutex num pc hctl =>
        have := hnone p
        simp [hctl, Ctl.destroys] at this
    · exact h.aside hrun haside
  · exact h.schedule hp ht hroom hok
  · exact h.clean hp ht hlt hrun hcpu hok

end Locks

/-- Nobody gets into `worker_mutex_destroy` without a call of it. -/
theorem destroys_exec (hp : s.Placed policy) (hnone : ∀ p, (s.ctl p).destroys = false)
    (he : ∀ mutex, e ≠ .call (.mutexDestroy mutex)) (hok : s.exec policy e = .ok s') :
    ∀ p, (s'.ctl p).destroys = false := by
  rcases exec_cases hok with ⟨p, -, -, hok⟩ | ⟨-, -, hok⟩ | ⟨p, -, -, -, hok⟩
  · rcases execThread_mutex hok with hmutex | haside
    · have hgoto : ∀ c : Ctl, c.destroys = false →
          ∀ q, (Function.update s.ctl p c q).destroys = false := fun c hc q => by
        by_cases hq : q = p
        · simp [hq, hc]
        · simp [hq, hnone]
      cases hmutex with
      | init mutex item hctl hok =>
        obtain ⟨-, rfl⟩ := workerMutexInit_ok hok
        exact hnone
      | lock mutex hctl hok =>
        obtain ⟨n, node, -, -, ⟨-, rfl⟩ | ⟨-, rfl⟩⟩ := workerMutexLock_ok hok
        · exact hgoto _ rfl
        · exact hgoto _ rfl
      | relock elapsed mutex hctl hok =>
        obtain ⟨n, node, -, -, ⟨-, rfl⟩ | ⟨-, rfl⟩⟩ := workerMutexLock_ok hok
        · exact hgoto _ rfl
        · exact hgoto _ rfl
      | unlock mutex hctl hok =>
        obtain ⟨n, node, -, -, -, rfl⟩ := workerMutexUnlock_ok hok
        exact hnone
      | destroy mutex => exact absurd rfl (he mutex)
      | destroyStmt elapsed masked mutex num pc hctl =>
        have := hnone p
        simp [hctl, Ctl.destroys] at this
    · intro q
      by_contra hq
      have hsame := haside.destroys q (.inr (by simpa using hq))
      exact hq (by rw [hsame, hnone])
  · exact (hp.rescheduled hok).ctl ▸ hnone
  · obtain ⟨l, notes, -, -, rfl⟩ := cleanExitedWorkerThread_ok hok
    exact hnone

/-- Mutual exclusion without lost wake-ups, in every run in which no mutex is destroyed. -/
theorem lockSafe_of_execution
    (h : Execution (Machine.exec policy) (fun _ e => ∀ mutex, e ≠ .call (.mutexDestroy mutex))
      (initLibrary garbage) es s)
    (hempty : garbage.front = none) (hn : es.countP creates < 65535) : s.LockSafe := by
  have hinit : (initLibrary garbage).Locks := by
    refine ⟨⟨[], ?_, by simp [initLibrary]⟩, ?_, ?_, ?_, ?_, ?_⟩
    · simpa [initLibrary, hempty] using Linked.nil
    all_goals simp [initLibrary, newTcb, Holds, HoldsIn]
  have hboth : s.Locks ∧ ∀ p, (s.ctl p).destroys = false := by
    refine h.invariant_of_count (I := fun s => s.Locks ∧ ∀ p, (s.ctl p).destroys = false) hn
      ⟨hinit, by simp [initLibrary, Ctl.destroys]⟩ fun es s e s' hes hcount hs he hok => ?_
    rw [List.countP_append] at hcount
    have hlt := allocated_lt hes (by omega)
    have hp := placed_of_execution hes
    have hroom : s.Roomy policy := fun hpol => by
      subst hpol
      exact (hp.psjf_length_le hlt).le
    exact ⟨hs.1.exec hp (tracked_of_execution hes (by omega)) (hlt.trans (by decide)) hroom hs.2 he
      hok, destroys_exec hp hs.2 he hok⟩
  exact hboth.1.safe (placed_of_execution h) ((allocated_lt h hn).trans (by decide))

/-- The statement takes no mutex off the list. -/
def keepsMutexes : Event → Bool
  | .call (.mutexDestroy _) => false
  | _ => true

/-- The main thread takes a mutex and yields, and the thread it has made comes to wait for it. -/
def contend : List Event :=
  [.call (.mutexInit 300 8), .call (.mutexLock 300), .call (.create 100), .proceed 0,
    .call .yield, .proceed 5, .proceed 0, .proceed 0, .schedule, .call (.mutexLock 300)]

theorem lockSafe_contend :
    ∃ s, Execution (Machine.exec .psjf) (fun _ e => ∀ mutex, e ≠ .call (.mutexDestroy mutex))
        (initLibrary ⟨0, 0, none⟩) contend s ∧ (s.tcbAt 1).seekingLock = 1 ∧ s.Holds mainTcb 8 ∧
      s.LockSafe := by
  have hok : ∀ (s : Machine) (e : Event), keepsMutexes e = true →
      ∀ mutex, e ≠ .call (.mutexDestroy mutex) := by
    rintro s e htest mutex rfl
    simp [keepsMutexes] at htest
  have hseen : (Execution.replayIf (Machine.exec .psjf) (fun _ e => keepsMutexes e)
      (initLibrary ⟨0, 0, none⟩) contend).map
        (Except.map fun s => ((s.tcbAt 1).seekingLock, s.history)) =
      some (.ok (1, [.enqueued 1, .locked 0 8, .inited 1])) := rfl
  obtain ⟨s, hs, hobs⟩ := Execution.of_observedIf hok hseen
  obtain ⟨hseek, hhist⟩ := Prod.mk.inj hobs
  exact ⟨s, hs, hseek, by simp [Holds, hhist, HoldsIn],
    lockSafe_of_execution hs rfl (by decide)⟩

end Machine

end UserLevelOs.Threads
