import UserLevelOs.Threads.Frames
import UserLevelOs.Threads.Feedback
import UserLevelOs.Threads.Cleanup

/-!
# Where the threads are

Wherever a thread is, in `q_arrival`, ready, ended or on the processor, it is there once and
nowhere else, whatever the two builds and a wrapped size may do to the lists.

## Main definitions

* `Machine.ready` — the threads that wait for the processor.
* `Machine.pool` — all threads that are anywhere.
* `Machine.Placed` — the invariant.
* `Machine.Rescheduled` — what a round of the scheduler leaves alone.

## Main statements

* `Placed.init`, `Placed.exec`, `placed_of_execution`.
* `Placed.rescheduled`.
-/

namespace UserLevelOs.Threads

open UserLevelOs.Lib

namespace Machine

variable {policy : Policy} {s s' : Machine} {p q : TcbPtr} {e : Event}

/-- The threads that wait for the processor. -/
def ready (policy : Policy) (s : Machine) : Multiset TcbPtr :=
  match policy with
  | .psjf => s.tcbs.nodes
  | .mlfq => s.queued

def pool (policy : Policy) (s : Machine) : Multiset TcbPtr :=
  s.qArrival.nodes + s.ready policy + s.endedTcbs.nodes + s.running.toList

/-- `worker_create` has put the thread into `q_arrival`. -/
def Enqueued (s : Machine) (p : TcbPtr) : Prop := .enqueued p ∈ s.history

structure Placed (policy : Policy) (s : Machine) : Prop where
  nodup : (s.pool policy).Nodup
  known : ∀ p ∈ s.pool policy, p = mainTcb ∨ s.Enqueued p
  enqueued : ∀ p, s.Enqueued p → p ≠ mainTcb ∧ p < s.allocated
  building : ∀ p q, s.ctl p = .create q →
    ¬ s.Enqueued q ∧ q ≠ mainTcb ∧ q < s.allocated ∧ ∃ tid, s.tcbAt q = newTcb tid
  builders : ∀ p p' q, s.ctl p = .create q → s.ctl p' = .create q → p = p'
  main : 0 < s.allocated
  last : s.lastCreatedWorkerTid = UInt32.ofNat s.allocated
  ids : ∀ p < s.allocated, (s.tcbAt p).threadId = UInt32.ofNat (p + 1)
  cleaning : s.cpu = .cleanup → ∀ p, s.running = some p → p ≠ mainTcb ∧ s.ctl p = .program
  unentered : s.schedulerEntered = false → s.tcbs = { size := 0, nodes := [] } ∧
    s.endedTcbs.nodes = [] ∧ s.running = some mainTcb ∧ s.queued = 0
  counted : s.AllCounted
  countedTcbs : Counted s.tcbs.size s.tcbs.nodes
  distinct : policy = .psjf → Distinct s.tcbAt s.tcbs.nodes
  sorted : policy = .psjf → s.tcbs.nodes.Pairwise (GoesBefore s.tcbAt)
  leveled : policy = .mlfq → s.Leveled

/-! ## What the other fields give -/

theorem ofNat_inj {a b n : ℕ} (hn : n < 2 ^ 32) (ha : a ≤ n) (hb : b ≤ n)
    (h : UInt32.ofNat a = UInt32.ofNat b) : a = b := by
  have hnat := congrArg UInt32.toNat h
  rwa [UInt32.toNat_ofNat_of_lt' (ha.trans_lt hn), UInt32.toNat_ofNat_of_lt' (hb.trans_lt hn)] at hnat

namespace Placed

theorem lt_allocated (h : s.Placed policy) (hp : p ∈ s.pool policy) : p < s.allocated := by
  rcases h.known p hp with rfl | hp
  · exact h.main
  · exact (h.enqueued p hp).2

theorem card_le (h : s.Placed policy) : (s.pool policy).card ≤ s.allocated := by
  have hle : s.pool policy ≤ Multiset.range s.allocated :=
    (Multiset.le_iff_subset h.nodup).mpr fun p hp => Multiset.mem_range.mpr (h.lt_allocated hp)
  simpa using Multiset.card_le_card hle

theorem mem_running (hrun : s.running = some p) : p ∈ s.pool policy := by
  simp [pool, hrun]

/-- A thread that runs is not being made. -/
theorem ne_of_building (h : s.Placed policy) (hrun : s.running = some p) {r : TcbPtr}
    (hr : s.ctl r = .create q) : q ≠ p := by
  rintro rfl
  obtain ⟨hfresh, hmain, -⟩ := h.building r q hr
  exact (h.known q (mem_running hrun)).elim hmain hfresh

theorem not_mem_of_running (h : s.Placed policy) (hrun : s.running = some p) :
    p ∉ s.qArrival.nodes ∧ p ∉ s.ready policy ∧ p ∉ s.endedTcbs.nodes := by
  have hnd := h.nodup
  have hout : p ∉ (s.qArrival.nodes : Multiset TcbPtr) + s.ready policy + s.endedTcbs.nodes :=
    fun hmem => Multiset.disjoint_left.mp (Multiset.nodup_add.mp hnd).2.2 hmem (by simp [hrun])
  simp only [Multiset.mem_add, Multiset.mem_coe, not_or] at hout
  exact ⟨hout.1.1, hout.1.2, hout.2⟩

/-- Numbers tell threads apart as long as they have not wrapped. -/
theorem threadId_inj (h : s.Placed policy) (hlt : s.allocated < 2 ^ 32) (hp : p < s.allocated)
    (hq : q < s.allocated) (heq : (s.tcbAt p).threadId = (s.tcbAt q).threadId) : p = q := by
  rw [h.ids p hp, h.ids q hq] at heq
  exact Nat.succ.inj (ofNat_inj hlt hp hq heq)

theorem threadId_ne_zero (h : s.Placed policy) (hlt : s.allocated < 2 ^ 32)
    (hp : p < s.allocated) : (s.tcbAt p).threadId ≠ 0 := by
  rw [h.ids p hp]
  exact fun hzero => Nat.succ_ne_zero p (ofNat_inj hlt hp (Nat.zero_le _) hzero)

/-! ## Steps of threads -/

theorem enqueued_own (hown : Own p s s') : s'.Enqueued q ↔ s.Enqueued q := by
  obtain ⟨notes, hnotes, htells⟩ := hown.history
  have hout : .enqueued q ∉ notes := fun hmem => htells _ hmem
  simp [Enqueued, hnotes, hout]

theorem pool_own (hown : Own p s s') : s'.pool policy = s.pool policy := by
  simp only [pool, ready, queued, hown.qArrival, hown.tcbs, hown.endedTcbs, hown.allQueue,
    hown.running]

theorem own (h : s.Placed policy) (hrun : s.running = some p) (hown : Own p s s')
    (hcpu : s.cpu = .thread) : s'.Placed policy where
  nodup := by simpa only [pool_own hown] using h.nodup
  known r hr := by
    rw [pool_own hown] at hr
    exact (h.known r hr).imp_right (enqueued_own hown).mpr
  enqueued r hr := by
    rw [hown.allocated]
    exact h.enqueued r ((enqueued_own hown).mp hr)
  building r q hq := by
    obtain ⟨hfresh, hmain, hlt, tid, htid⟩ := h.building r q (hown.create_eq hq)
    refine ⟨fun hin => hfresh ((enqueued_own hown).mp hin), hmain, hown.allocated ▸ hlt, tid, ?_⟩
    rcases hown.other q (h.ne_of_building hrun (hown.create_eq hq)) with hsame | hsame <;>
      simp [hsame, htid, newTcb]
  builders r r' q hr hr' := h.builders r r' q (hown.create_eq hr) (hown.create_eq hr')
  main := hown.allocated ▸ h.main
  last := by rw [hown.lastCreatedWorkerTid, hown.allocated, h.last]
  ids r hr := by
    rw [hown.threadId_eq]
    exact h.ids r (hown.allocated ▸ hr)
  cleaning hclean := by rcases hown.cpu with hsame | hsame <;> simp_all
  unentered he := by
    rw [hown.tcbs, hown.endedTcbs, hown.running, queued, hown.allQueue]
    exact h.unentered (hown.schedulerEntered ▸ he)
  counted := by
    unfold AllCounted
    rw [hown.qArrival, hown.allQueue]
    exact h.counted
  countedTcbs := by
    rw [hown.tcbs]
    exact h.countedTcbs
  distinct hp := by
    rw [hown.tcbs]
    exact (h.distinct hp).imp fun hne => by rwa [hown.threadId_eq, hown.threadId_eq]
  sorted hp := by
    subst hp
    have hout : p ∉ s.tcbs.nodes := by simpa [ready] using (h.not_mem_of_running hrun).2.1
    rw [hown.tcbs]
    refine (h.sorted rfl).imp_of_mem fun ha hb hab => hown.goesBefore ?_ ?_ hab
    · exact fun heq => hout (heq ▸ ha)
    · exact fun heq => hout (heq ▸ hb)
  leveled hp := by
    have hl := h.leveled hp
    refine ⟨fun r hr => ?_, fun level hlt r hr => ?_, fun r hr => ?_⟩
    · rw [hown.priorityLevel_eq]
      exact hl.arrival r (hown.qArrival ▸ hr)
    · rw [hown.priorityLevel_eq]
      exact hl.level level hlt r (hown.allQueue ▸ hr)
    · rw [hown.priorityLevel_eq]
      exact hl.running r (hown.running ▸ hr)

/-- A block is made. -/
theorem workerCreate {thread : Addr} (h : s.Placed policy)
    (hcpu : s.cpu ≠ .cleanup) : (s.workerCreate p thread).Placed policy := by
  have hold : ∀ r < s.allocated, (s.workerCreate p thread).tcbAt r = s.tcbAt r := fun r hr => by
    simp [Machine.workerCreate, hr.ne]
  have hlt : ∀ {r}, r ∈ s.tcbs.nodes → policy = .psjf → r < s.allocated := fun hr hp =>
    h.lt_allocated (by simp [pool, ready, hp, hr])
  have hctl : ∀ r q, (s.workerCreate p thread).ctl r = .create q →
      (r = p ∧ q = s.allocated) ∨ (r ≠ p ∧ s.ctl r = .create q) := fun r q hr => by
    by_cases hrp : r = p
    · subst hrp
      exact .inl ⟨rfl, by simpa [Machine.workerCreate, eq_comm] using hr⟩
    · exact .inr ⟨hrp, by simpa [Machine.workerCreate, hrp] using hr⟩
  refine ⟨h.nodup, h.known, fun r hr => ?_, fun r q hr => ?_, fun r r' q hr hr' => ?_,
    Nat.succ_pos _, ?_, fun r hr => ?_, fun hc => absurd hc hcpu, h.unentered, h.counted,
    h.countedTcbs, fun hp => ?_, fun hp => ?_, fun hp => ?_⟩
  · obtain ⟨hmain, hlt⟩ := h.enqueued r hr
    exact ⟨hmain, Nat.lt_succ_of_lt hlt⟩
  · rcases hctl r q hr with ⟨-, rfl⟩ | ⟨-, hr⟩
    · refine ⟨fun hin => (h.enqueued _ hin).2.ne rfl, h.main.ne', Nat.lt_succ_self _, ?_⟩
      exact ⟨s.lastCreatedWorkerTid + 1, by simp [Machine.workerCreate]⟩
    · obtain ⟨hfresh, hmain, hlt, tid, htid⟩ := h.building r q hr
      exact ⟨hfresh, hmain, Nat.lt_succ_of_lt hlt, tid, (hold q hlt).trans htid⟩
  · rcases hctl r q hr with ⟨hrp, hq⟩ | ⟨-, hr⟩ <;> rcases hctl r' q hr' with ⟨hrp', hq'⟩ | ⟨-, hr'⟩
    · exact hrp.trans hrp'.symm
    · exact absurd (hq ▸ (h.building r' q hr').2.2.1) (lt_irrefl _)
    · exact absurd (hq' ▸ (h.building r q hr).2.2.1) (lt_irrefl _)
    · exact h.builders r r' q hr hr'
  · change s.lastCreatedWorkerTid + 1 = UInt32.ofNat (s.allocated + 1)
    rw [h.last, UInt32.ofNat_add]
    rfl
  · rcases (Nat.lt_succ_iff_lt_or_eq.mp hr) with hr | rfl
    · rw [hold r hr]
      exact h.ids r hr
    · simp [Machine.workerCreate, newTcb, h.last, UInt32.ofNat_add]
  · exact (h.distinct hp).imp_of_mem fun ha hb hab => by
      rwa [hold _ (hlt ha hp), hold _ (hlt hb hp)]
  · exact (h.sorted hp).imp_of_mem fun ha hb hab => by
      rwa [GoesBefore, hold _ (hlt ha hp), hold _ (hlt hb hp)]
  · have hl := h.leveled hp
    subst hp
    have hmem : ∀ r, r ∈ s.qArrival.nodes ∨ r ∈ s.queued ∨ s.running = some r →
        (s.workerCreate p thread).tcbAt r = s.tcbAt r := fun r hr =>
      hold r (h.lt_allocated (by rcases hr with hr | hr | hr <;> simp [pool, ready, hr]))
    refine ⟨fun r hr => ?_, fun level hlevel r hr => ?_, fun r hr => ?_⟩
    · rw [hmem r (.inl hr)]
      exact hl.arrival r hr
    · rw [hmem r (.inr (.inl (mem_queued.mpr ⟨level, hlevel, hr⟩)))]
      exact hl.level level hlevel r hr
    · rw [hmem r (.inr (.inr hr))]
      exact hl.running r hr

/-- A new thread arrives. -/
theorem enqueueCreated (h : s.Placed policy) (hctl : s.ctl p = .create q)
    (hcpu : s.cpu ≠ .cleanup) : (s.enqueueCreated p q).Placed policy := by
  obtain ⟨hfresh, hmain, hlt, tid, htid⟩ := h.building p q hctl
  have hin : ∀ r, (s.enqueueCreated p q).Enqueued r ↔ r = q ∨ s.Enqueued r := fun r => by
    simp [Machine.enqueueCreated, Enqueued]
  have hctl' : ∀ r r', (s.enqueueCreated p q).ctl r = .create r' → r ≠ p ∧ s.ctl r = .create r' :=
    fun r r' hr => by
      by_cases hrp : r = p
      · simp [Machine.enqueueCreated, hrp] at hr
      · exact ⟨hrp, by simpa [Machine.enqueueCreated, hrp] using hr⟩
  have hout : q ∉ s.pool policy := fun hmem => (h.known q hmem).elim hmain hfresh
  have hpool : (s.enqueueCreated p q).pool policy ≤ q ::ₘ s.pool policy := by
    have hle := enqueue_le (q := s.qArrival) (x := q)
    calc
      _ = ((enqueue s.qArrival q).nodes : Multiset TcbPtr) + s.ready policy + s.endedTcbs.nodes +
          s.running.toList := by cases policy <;> rfl
      _ ≤ q ::ₘ s.qArrival.nodes + s.ready policy + s.endedTcbs.nodes + s.running.toList := by gcongr
      _ = q ::ₘ s.pool policy := by simp only [pool, Multiset.cons_add]
  refine ⟨Multiset.nodup_of_le hpool (Multiset.nodup_cons.mpr ⟨hout, h.nodup⟩), fun r hr => ?_,
    fun r hr => ?_, fun r r' hr => ?_, fun r r' r'' hr hr' => ?_, h.main, h.last, h.ids,
    fun hc => absurd hc hcpu, h.unentered, ⟨counted_enqueue h.counted.1, h.counted.2⟩,
    h.countedTcbs, h.distinct, h.sorted, fun hp => ?_⟩
  · rw [hin]
    rcases Multiset.mem_cons.mp (Multiset.mem_of_le hpool hr) with rfl | hr
    · exact .inr (.inl rfl)
    · exact (h.known r hr).imp_right .inr
  · rcases (hin r).mp hr with rfl | hr
    · exact ⟨hmain, hlt⟩
    · exact h.enqueued r hr
  · obtain ⟨hrp, hr⟩ := hctl' r r' hr
    obtain ⟨hfresh', hrest⟩ := h.building r r' hr
    refine ⟨fun hr' => ?_, hrest⟩
    rcases (hin r').mp hr' with heq | hr'
    · exact hrp (h.builders r p q (heq ▸ hr) hctl)
    · exact hfresh' hr'
  · exact h.builders r r' r'' (hctl' r r'' hr).2 (hctl' r' r'' hr').2
  · have hl := h.leveled hp
    refine ⟨fun r hr => ?_, hl.level, hl.running⟩
    rcases mem_enqueue hr with rfl | hr
    · change (s.tcbAt r).priorityLevel = 0
      rw [htid]
      rfl
    · exact hl.arrival r hr

/-! ## Rounds of the other contexts -/

theorem clean (h : s.Placed policy) (hrun : s.running = some p) (hcpu : s.cpu = .cleanup)
    (hok : s.cleanExitedWorkerThread p = .ok s') : s'.Placed policy := by
  obtain ⟨l, notes, hremoved, hstores, rfl⟩ := cleanExitedWorkerThread_ok hok
  set tcbAt := woken s.tcbAt (s.tcbAt p).threadId l.nodes with htcb
  have hsame : ∀ r, tcbAt r = { s.tcbAt r with joinTid := (tcbAt r).joinTid } := woken_eq _ _ _
  have hid : ∀ r, (tcbAt r).threadId = (s.tcbAt r).threadId := fun r => by rw [hsame]
  have hlevel : ∀ r, (tcbAt r).priorityLevel = (s.tcbAt r).priorityLevel := fun r => by rw [hsame]
  have hbefore : ∀ r r', GoesBefore s.tcbAt r r' → GoesBefore tcbAt r r' := fun r r' hr => by
    rw [GoesBefore, hsame r, hsame r']
    exact hr
  have hnew : ∀ r tid, s.tcbAt r = newTcb tid → tcbAt r = newTcb tid := fun r tid hr => by
    rw [htcb, woken, hr, wake]
    split
    · split <;> rfl
    · rfl
  have hin : ∀ r, .enqueued r ∈ notes ++ s.history ↔ s.Enqueued r := fun r => by
    have hout : .enqueued r ∉ notes := fun hmem => by
      obtain ⟨_, _, _, heq⟩ := hstores.only _ hmem
      cases heq
    simp [Enqueued, hout]
  have hsub : ∀ r ∈ l.nodes, r ∈ s.tcbs.nodes := hremoved.sublist.subset
  set s' : Machine := { s with
    tcbs := l, endedTcbs := insertAtFront s.endedTcbs p, tcbAt, history := notes ++ s.history
    running := none, cpu := .scheduler } with hs'
  have hready : s'.ready policy ≤ s.ready policy := by
    cases policy
    · exact Multiset.coe_le.mpr hremoved.sublist.subperm
    · exact le_rfl
  have hpool : s'.pool policy ≤ s.pool policy := calc
    s'.pool policy = s.qArrival.nodes + s'.ready policy + (p ::ₘ s.endedTcbs.nodes) + 0 := rfl
    _ = s.qArrival.nodes + s'.ready policy + s.endedTcbs.nodes + {p} := by
      rw [← Multiset.singleton_add]
      abel
    _ ≤ s.qArrival.nodes + s.ready policy + s.endedTcbs.nodes + {p} := by gcongr
    _ = s.pool policy := by simp [pool, hrun]
  refine ⟨Multiset.nodup_of_le hpool h.nodup, fun r hr => ?_, fun r hr => ?_, fun r q hr => ?_,
    h.builders, h.main, h.last, fun r hr => ?_, by simp [hs'], fun he => ?_, h.counted,
    hremoved.counted h.countedTcbs, fun hp => ?_, fun hp => ?_, fun hp => ?_⟩
  · exact (h.known r (Multiset.mem_of_le hpool hr)).imp_right (hin r).mpr
  · exact h.enqueued r ((hin r).mp hr)
  · obtain ⟨hfresh, hmain, hlt, tid, htid⟩ := h.building r q hr
    exact ⟨fun hr => hfresh ((hin q).mp hr), hmain, hlt, tid, hnew q tid htid⟩
  · exact (hid r).trans (h.ids r hr)
  · have hmain := (h.unentered he).2.2.1
    rw [hrun, Option.some.injEq] at hmain
    exact absurd hmain (h.cleaning hcpu p hrun).1
  · exact ((h.distinct hp).sublist hremoved.sublist).imp fun hne => by rwa [hid, hid]
  · exact ((h.sorted hp).sublist hremoved.sublist).imp fun hr => hbefore _ _ hr
  · have hl := h.leveled hp
    refine ⟨fun r hr => ?_, fun level hlevel' r hr => ?_, by simp [hs']⟩
    · exact (hlevel r).trans (hl.arrival r hr)
    · exact (hlevel r).trans (hl.level level hlevel' r hr)

theorem psjf (h : s.Placed .psjf) (hok : s.schedPsjf = .ok s') : s'.Placed .psjf := by
  obtain ⟨xs, q, l, l', first, next, timer, hround, rfl⟩ := schedPsjf_ok hok
  set s' : Machine := { s with
    qArrival := q, tcbs := l', running := some next, timer, cpu := .thread
    schedulerEntered := true } with hs'
  have hsub : l'.nodes.Sublist l.nodes := by
    rw [(removeFrom_ok hround.removed).2.2]
    exact List.eraseP_sublist
  have hpool : s'.pool .psjf ≤ s.pool .psjf := calc
    s'.pool .psjf = (q.nodes : Multiset TcbPtr) + l'.nodes + s.endedTcbs.nodes + {next} := rfl
    _ = q.nodes + (next ::ₘ l'.nodes) + s.endedTcbs.nodes := by
      rw [← Multiset.singleton_add]
      abel
    _ = q.nodes + l.nodes + s.endedTcbs.nodes := by rw [hround.perm]
    _ ≤ q.nodes + (xs + s.running.toList + s.tcbs.nodes) + s.endedTcbs.nodes := by
      gcongr
      exact hround.inserts.le
    _ = xs + q.nodes + s.tcbs.nodes + s.endedTcbs.nodes + s.running.toList := by abel
    _ ≤ s.qArrival.nodes + s.tcbs.nodes + s.endedTcbs.nodes + s.running.toList := by
      gcongr
      exact hround.leaves.le
    _ = s.pool .psjf := rfl
  refine ⟨Multiset.nodup_of_le hpool h.nodup, fun r hr => h.known r (Multiset.mem_of_le hpool hr),
    h.enqueued, h.building, h.builders, h.main, h.last, h.ids, by simp [hs'], by simp [hs'],
    ⟨hround.leaves.counted h.counted.1, h.counted.2⟩, ?_, fun _ => ?_, fun _ => ?_, by simp⟩
  · exact counted_removeFrom (hround.inserts.counted h.countedTcbs) hround.removed
  · exact (hround.inserts.distinct (h.distinct rfl)).sublist hsub
  · exact (hround.inserts.sorted (h.sorted rfl)).sublist hsub

/-- The first time, the main thread is listed before the round. -/
theorem enterMlfq_ok (hok : s.enterMlfq = .ok s') :
    ∃ l, (s.schedulerEntered = true ∧ l = s.tcbs ∨
      s.schedulerEntered = false ∧ Inserts s.tcbAt s.running.toList s.tcbs l) ∧
        s' = { s with tcbs := l } := by
  unfold enterMlfq at hok
  split at hok
  · next hentered =>
    cases hok
    exact ⟨_, .inl ⟨hentered, rfl⟩, rfl⟩
  · next hentered =>
    obtain ⟨l, rfl, hinserts⟩ := insertRunning_ok hok
    exact ⟨l, .inr ⟨by simpa using hentered, hinserts⟩, rfl⟩

theorem schedule_mlfq_ok (hok : s.schedule .mlfq = .ok s') :
    ∃ l t next, (s.schedulerEntered = true ∧ l = s.tcbs ∨
        s.schedulerEntered = false ∧ Inserts s.tcbAt s.running.toList s.tcbs l) ∧
      Flow { s with tcbs := l } t ∧ isEmpty t.qArrival = true ∧ t.running = some next ∧
      isBlocked (t.tcbAt next) = false ∧ s' = t.dispatch next := by
  obtain ⟨s₁, h₁, hok⟩ := bind_eq_ok.mp hok
  obtain ⟨l, hl, rfl⟩ := enterMlfq_ok h₁
  obtain ⟨t, next, hround⟩ := schedMlfq_ok hok
  exact ⟨l, t, next, hl, hround⟩

/-- The pool is what the queues hold and the threads that have ended. -/
theorem pool_mlfq_eq (u : Machine) : u.pool .mlfq = u.afoot + u.endedTcbs.nodes := by
  simp only [pool, afoot, ready]
  abel

theorem afoot_nodup (h : s.Placed .mlfq) : s.afoot.Nodup :=
  Multiset.nodup_of_le (pool_mlfq_eq s ▸ Multiset.le_add_right _ _) h.nodup

theorem mlfq (h : s.Placed .mlfq) (hok : s.schedule .mlfq = .ok s') : s'.Placed .mlfq := by
  obtain ⟨l, t, next, hl, hflow, -, hnext, -, rfl⟩ := schedule_mlfq_ok hok
  have hcountedl : Counted l.size l.nodes := by
    rcases hl with ⟨-, rfl⟩ | ⟨-, hinserts⟩
    · exact h.countedTcbs
    · exact hinserts.counted h.countedTcbs
  have hframe := hflow.frame
  have hpool : (t.dispatch next).pool .mlfq ≤ s.pool .mlfq := by
    have hsame : (t.dispatch next).pool .mlfq = t.pool .mlfq := by
      simp only [pool, dispatch, hnext]
      rfl
    have hended : t.endedTcbs = s.endedTcbs := by rw [hframe]
    rw [hsame, pool_mlfq_eq, pool_mlfq_eq, hended]
    gcongr
    exact hflow.le
  have hnodup : ({ s with tcbs := l } : Machine).afoot.Nodup := h.afoot_nodup
  have hhist : t.history = s.history := by rw [hframe]
  have hctl : t.ctl = s.ctl := by rw [hframe]
  have halloc : t.allocated = s.allocated := by rw [hframe]
  have hlast : t.lastCreatedWorkerTid = s.lastCreatedWorkerTid := by rw [hframe]
  have hid : ∀ r, (t.tcbAt r).threadId = (s.tcbAt r).threadId := fun r =>
    congrArg Prod.fst (hflow.core r)
  refine ⟨Multiset.nodup_of_le hpool h.nodup, fun r hr => ?_, fun r hr => ?_, fun r q hr => ?_,
    fun r r' q hr hr' => ?_, ?_, ?_, fun r hr => ?_, by simp [dispatch], by simp [dispatch],
    hflow.counted h.counted, hflow.countedTcbs hcountedl, by simp, by simp, fun _ => ?_⟩
  · rw [Enqueued, show (t.dispatch next).history = t.history from rfl, hhist]
    exact h.known r (Multiset.mem_of_le hpool hr)
  · change _ ∧ _ < t.allocated
    rw [halloc]
    refine h.enqueued r ?_
    rwa [Enqueued, ← hhist]
  · change t.ctl r = .create q at hr
    rw [hctl] at hr
    obtain ⟨hfresh, hmain, hlt, tid, htid⟩ := h.building r q hr
    have hout : q ∉ ({ s with tcbs := l } : Machine).afoot := fun hmem =>
      (h.known q (by rw [pool_mlfq_eq]; exact Multiset.mem_add.mpr (.inl hmem))).elim hmain hfresh
    refine ⟨fun hin => hfresh ?_, hmain, halloc.symm ▸ hlt, tid, (hflow.others q hout).trans htid⟩
    rwa [Enqueued, ← hhist]
  · change t.ctl r = .create q at hr
    change t.ctl r' = .create q at hr'
    rw [hctl] at hr hr'
    exact h.builders r r' q hr hr'
  · change 0 < t.allocated
    rw [halloc]
    exact h.main
  · change t.lastCreatedWorkerTid = UInt32.ofNat t.allocated
    rw [hlast, halloc, h.last]
  · change r < t.allocated at hr
    exact (hid r).trans (h.ids r (halloc ▸ hr))
  · have hleveled : ({ s with tcbs := l } : Machine).Leveled := by
      obtain ⟨h₁, h₂, h₃⟩ := h.leveled rfl
      exact ⟨h₁, h₂, h₃⟩
    obtain ⟨h₁, h₂, h₃⟩ := hflow.leveled hnodup hleveled
    exact ⟨h₁, h₂, fun r hr => h₃ r (hnext.trans hr)⟩

/-! ## Every execution -/

theorem init (policy : Policy) (garbage : Garbage) : (initLibrary garbage).Placed policy where
  nodup := by cases policy <;> simp [pool, ready, queued, initLibrary]
  known p hp := by cases policy <;> simp_all [pool, ready, queued, initLibrary]
  enqueued p hp := by simp [Enqueued, initLibrary] at hp
  building p q hq := by simp [initLibrary] at hq
  builders p p' q hq := by simp [initLibrary] at hq
  main := Nat.one_pos
  last := rfl
  ids p hp := by
    have hzero : p = 0 := Nat.lt_one_iff.mp hp
    subst hzero
    rfl
  cleaning hc := by simp [initLibrary] at hc
  unentered _ := by simp [initLibrary, queued]
  counted := ⟨.nil, fun _ => .nil⟩
  countedTcbs := .nil
  distinct _ := .nil
  sorted _ := .nil
  leveled _ := ⟨by simp [initLibrary], by simp [initLibrary], by simp [initLibrary, newTcb]⟩

theorem finish (h : s.Placed policy) (hrun : s.running = some p) (hctl : s.ctl p = .program)
    (hmain : p ≠ mainTcb) {v : Value} :
    ({ s.note (.finished p v) with cpu := .cleanup } : Machine).Placed policy := by
  have hin : ∀ r, .enqueued r ∈ (s.note (.finished p v)).history ↔ s.Enqueued r := fun r => by
    simp [Enqueued]
  refine { h with
    known := fun r hr => (h.known r hr).imp_right (hin r).mpr
    enqueued := fun r hr => h.enqueued r ((hin r).mp hr)
    building := fun r q hr => (h.building r q hr).imp_left fun hq hin' => hq ((hin q).mp hin')
    cleaning := fun _ r hr => ?_
    leveled := fun hp => ⟨(h.leveled hp).arrival, (h.leveled hp).level, (h.leveled hp).running⟩ }
  have heq : r = p := by simpa [hrun, eq_comm] using hr
  subst heq
  exact ⟨hmain, hctl⟩

theorem exec (h : s.Placed policy) (hok : s.exec policy e = .ok s') : s'.Placed policy := by
  rcases exec_cases hok with ⟨p, hcpu, hrun, hok⟩ | ⟨-, -, hok⟩ | ⟨p, -, hcpu, hrun, hok⟩
  · rcases execThread_cases hok with ⟨thread, -, -, rfl⟩ | ⟨_, q, -, hctl, rfl⟩ |
      ⟨-, hctl, hmain, rfl⟩ | hown
    · exact h.workerCreate (by simp [hcpu])
    · exact h.enqueueCreated hctl (by simp [hcpu])
    · exact h.finish hrun hctl hmain
    · exact h.own hrun hown hcpu
  · cases policy with
    | psjf => exact h.psjf hok
    | mlfq => exact h.mlfq hok
  · exact h.clean hrun hcpu hok

end Placed

theorem placed_of_execution {ok : Machine → Event → Prop} {garbage : Garbage} {es : List Event}
    (h : Execution (Machine.exec policy) ok (initLibrary garbage) es s) : s.Placed policy :=
  h.invariant (Placed.init policy garbage) fun _ _ _ hs _ hok => hs.exec hok

/-! ## What no round touches -/

/-- What a round of the scheduler leaves alone, and that it dispatches a thread that is not
blocked. -/
structure Rescheduled (s s' : Machine) : Prop where
  core : ∀ p, (s'.tcbAt p).core = (s.tcbAt p).core
  endedTcbs : s'.endedTcbs = s.endedTcbs
  mutexes : s'.mutexes = s.mutexes
  ctl : s'.ctl = s.ctl
  vars : s'.vars = s.vars
  history : s'.history = s.history
  allocated : s'.allocated = s.allocated
  currentMutexNum : s'.currentMutexNum = s.currentMutexNum
  cpu : s'.cpu = .thread
  schedulerEntered : s'.schedulerEntered = true
  next : ∃ next, s'.running = some next ∧ isBlocked (s'.tcbAt next) = false

theorem Placed.rescheduled (h : s.Placed policy) (hok : s.schedule policy = .ok s') :
    Rescheduled s s' := by
  cases policy with
  | psjf =>
    obtain ⟨xs, q, l, l', first, next, timer, hround, rfl⟩ := schedPsjf_ok hok
    refine ⟨fun _ => rfl, rfl, rfl, rfl, rfl, rfl, rfl, rfl, rfl, rfl, next, rfl, ?_⟩
    rw [(hround.next_eq (h.distinct rfl)).1]
    exact hround.not_blocked
  | mlfq =>
    obtain ⟨l, t, next, -, hflow, -, hnext, hfree, rfl⟩ := schedule_mlfq_ok hok
    rw [hflow.frame]
    exact ⟨hflow.core, rfl, rfl, rfl, rfl, rfl, rfl, rfl, rfl, rfl, next, rfl, hfree⟩

namespace Rescheduled

variable (h : Rescheduled s s') (p : TcbPtr)
include h

theorem threadId : (s'.tcbAt p).threadId = (s.tcbAt p).threadId :=
  congrArg Prod.fst (h.core p)

theorem retValue : (s'.tcbAt p).retValue = (s.tcbAt p).retValue :=
  congrArg (fun c => c.2.1) (h.core p)

theorem joinTid : (s'.tcbAt p).joinTid = (s.tcbAt p).joinTid :=
  congrArg (fun c => c.2.2.1) (h.core p)

theorem joinRetval : (s'.tcbAt p).joinRetval = (s.tcbAt p).joinRetval :=
  congrArg (fun c => c.2.2.2.1) (h.core p)

theorem seekingLock : (s'.tcbAt p).seekingLock = (s.tcbAt p).seekingLock :=
  congrArg (fun c => c.2.2.2.2) (h.core p)

end Rescheduled

end Machine

end UserLevelOs.Threads
