import UserLevelOs.Threads.Assertions

/-!
# What holds whenever a thread is dispatched

With fewer than 65535 threads made, each build keeps every thread in exactly the places it
belongs to, and none of the assertions on its lists and queues fails.

## Main definitions

* `Machine.Arrived`, `Machine.Ended`.
* `Machine.Partitioned` — after a round of `sched_mlfq`.
* `Machine.ShortestFirst` — after a round of `sched_psjf`.

## Main statements

* `partitioned_of_dispatch`, `shortestFirst_of_dispatch`.
-/

namespace UserLevelOs.Threads

open UserLevelOs.Lib

namespace Machine

variable {policy : Policy} {s s' : Machine} {p next : TcbPtr} {e : Event}
  {ok : Machine → Event → Prop} {garbage : Garbage} {es : List Event}

/-- The thread is known to the library and no longer in `q_arrival`. -/
def Arrived (s : Machine) (p : TcbPtr) : Prop :=
  (p = mainTcb ∨ s.Enqueued p) ∧ p ∉ s.qArrival.nodes

/-- The thread's function has returned. -/
def Ended (s : Machine) (p : TcbPtr) : Prop := ∃ v, s.Finished p v

/-- Every thread has its place, and it has it once. -/
structure Partitioned (s : Machine) : Prop where
  listed : ∀ p, s.Arrived p → ¬ s.Ended p → s.tcbs.nodes.count p = 1
  queued : ∀ p, s.Arrived p → ¬ s.Ended p → s.running ≠ some p →
    (s.tcbAt p).priorityLevel < QUEUE_LEVELS ∧ ∀ level < QUEUE_LEVELS,
      (s.allQueue level).nodes.count p = if level = (s.tcbAt p).priorityLevel then 1 else 0
  running : ∃ next, s.running = some next ∧ s.Arrived next ∧ ¬ s.Ended next ∧
    ∀ level < QUEUE_LEVELS, next ∉ (s.allQueue level).nodes
  ended : ∀ p, s.Ended p → p ∉ s.qArrival.nodes ∧ p ∉ s.tcbs.nodes ∧
    ∀ level < QUEUE_LEVELS, p ∉ (s.allQueue level).nodes
  once : ∀ p, s.Enqueued p →
    s.qArrival.nodes.count p + s.tcbs.nodes.count p + s.endedTcbs.nodes.count p = 1

/-- The round that went from `s` to `s'` has dispatched the thread with the least usage of those
that are not blocked. -/
structure ShortestFirst (s s' : Machine) : Prop where
  searched : ∃ t, s.psjfListed = .ok t ∧
    t.tcbs.nodes.Pairwise fun p q => (t.tcbAt p).usage ≤ (t.tcbAt q).usage
  sorted : s'.tcbs.nodes.Pairwise fun p q => (s'.tcbAt p).usage ≤ (s'.tcbAt q).usage
  least : ∃ next, s'.running = some next ∧ isBlocked (s'.tcbAt next) = false ∧
    ∀ p, s'.Arrived p → ¬ s'.Ended p → isBlocked (s'.tcbAt p) = false →
      (s'.tcbAt next).usage ≤ (s'.tcbAt p).usage
  once : ∀ p, s'.Enqueued p → s'.qArrival.nodes.count p + s'.tcbs.nodes.count p +
    s'.endedTcbs.nodes.count p + (if s'.running = some p then 1 else 0) = 1

/-! ## The pool as a partition -/

theorem Placed.count_pool (h : s.Placed policy) (hp : p ∈ s.pool policy) :
    s.qArrival.nodes.count p + (s.ready policy).count p + s.endedTcbs.nodes.count p +
      s.running.toList.count p = 1 := by
  have hone := Multiset.count_eq_one_of_mem h.nodup hp
  simpa [pool, Multiset.count_add] using hone

theorem Covered.mem_pool (h : s.Covered policy) (hp : p = mainTcb ∨ s.Enqueued p) :
    p ∈ s.pool policy := by
  rcases hp with rfl | hp
  · exact h.main
  · exact h.enqueued p hp

/-- An arrived thread that has not ended waits for the processor or has it. -/
theorem Covered.ready_of_arrived (h : s.Covered policy) (hend : s.Endings) (hcpu : s.cpu ≠ .cleanup)
    (hp : s.Arrived p) (hnot : ¬ s.Ended p) : p ∈ s.ready policy + s.running.toList := by
  have hmem := h.mem_pool hp.1
  have hout : p ∉ s.endedTcbs.nodes := fun hin => hnot ((hend.finished_iff hcpu).mpr hin)
  simpa [pool, hp.2, hout] using hmem

/-! ## Multilevel feedback queues -/

theorem Covered.partitioned (h : s.Covered .mlfq) (hp : s.Placed .mlfq) (hend : s.Endings)
    (hcpu : s.cpu = .thread) (hentered : s.schedulerEntered = true)
    (hrun : s.running = some next) : s.Partitioned := by
  have hnot : s.cpu ≠ .cleanup := by simp [hcpu]
  have hlisted := h.listed rfl hentered
  have hl := hp.leveled rfl
  have hcount : ∀ q, s.tcbs.nodes.count q = s.queued.count q + s.running.toList.count q := fun q => by
    rw [← Multiset.coe_count, hlisted, Multiset.count_add, Multiset.coe_count]
  have hended : ∀ q, s.Ended q → q ∈ s.endedTcbs.nodes := fun q =>
    (hend.finished_iff hnot).mp
  have hone : ∀ q, q = mainTcb ∨ s.Enqueued q → s.qArrival.nodes.count q + s.tcbs.nodes.count q +
      s.endedTcbs.nodes.count q = 1 := fun q hq => by
    have hpool := hp.count_pool (h.mem_pool hq)
    have hq := hcount q
    simp only [ready] at hpool
    omega
  have hcountOne : ∀ q, s.Arrived q → ¬ s.Ended q → s.tcbs.nodes.count q = 1 := fun q hq hlive => by
    have hq' := hone q hq.1
    rw [List.count_eq_zero.mpr hq.2,
      List.count_eq_zero.mpr fun hin => hlive ((hend.finished_iff hnot).mpr hin)] at hq'
    omega
  have hclear := hp.not_mem_of_running hrun
  refine ⟨hcountOne, fun q hq hlive hne => ?_, ⟨next, hrun, ⟨?_, hclear.1⟩, ?_, fun level hlevel hin => ?_⟩,
    fun q hq => ?_, fun q hq => hone q (.inr hq)⟩
  · -- the queue of `q` is the one of its level, and it is in no other
    have hmem : q ∈ s.queued := by
      have hready := h.ready_of_arrived hend hnot hq hlive
      have hother : q ∉ s.running.toList := by simpa using hne
      simpa [ready, hother] using hready
    obtain ⟨level, hlevel, hin⟩ := mem_queued.mp hmem
    have hown := hl.level level hlevel q hin
    refine ⟨hown.trans_lt hlevel, fun k hk => ?_⟩
    split
    · next heq =>
      have hsame : k = level := heq.trans hown
      have hnd : (s.allQueue level).nodes.Nodup := by
        refine Multiset.coe_nodup.mp (Multiset.nodup_of_le ?_ hp.afoot_nodup)
        exact (le_queued hlevel).trans
          ((Multiset.le_add_left _ _).trans (Multiset.le_add_right _ _))
      exact hsame ▸ List.count_eq_one_of_mem hnd hin
    · next hne' => exact List.count_eq_zero.mpr fun hin => hne' (hl.level k hk q hin).symm
  · exact hp.known next (Placed.mem_running hrun)
  · exact fun hlive => hclear.2.2 (hended next hlive)
  · exact hclear.2.1 (mem_queued.mpr ⟨level, hlevel, hin⟩)
  · have hin := hended q hq
    have hknown := hp.known q (by simp [pool, hin])
    have hpool := hone q hknown
    have hpos := List.count_pos_iff.mpr hin
    have hzero : s.qArrival.nodes.count q = 0 ∧ s.tcbs.nodes.count q = 0 := by
      constructor <;> omega
    have hqueued : q ∉ s.queued := by
      rw [← Multiset.count_eq_zero]
      have hq := hcount q
      omega
    exact ⟨List.count_eq_zero.mp hzero.1, List.count_eq_zero.mp hzero.2, fun level hlevel hin =>
      hqueued (mem_queued.mpr ⟨level, hlevel, hin⟩)⟩

/-- The event that dispatches a thread is a round of the scheduler. -/
theorem schedule_of_exec (hok : s.exec policy .schedule = .ok s') :
    s.schedule policy = .ok s' := by
  rcases exec_cases hok with ⟨_, -, -, h⟩ | ⟨-, -, h⟩ | ⟨_, h, -⟩
  · cases h
  · exact h
  · cases h

theorem partitioned_of_dispatch
    (h : Execution (Machine.exec .mlfq) (fun _ _ => True) (initLibrary garbage) es s)
    (hn : es.countP creates < 65535) :
    (∀ e, s.exec .mlfq e ≠ .error (.assertion .boostSizes)) ∧
      ∀ s', s.exec .mlfq .schedule = .ok s' → s'.Partitioned := by
  have hplaced := placed_of_execution h
  have hcovered := covered_of_execution h hn
  have hlt := allocated_lt h hn
  refine ⟨fun e hfail => ?_, fun s' hok => ?_⟩
  · simpa [OverMutex] using hcovered.exec_raises hplaced hlt _ hfail
  · have hround := hplaced.rescheduled (schedule_of_exec hok)
    obtain ⟨next, hnext, -⟩ := hround.next
    exact (hcovered.exec hplaced hlt hok).partitioned (hplaced.exec hok)
      ((endings_of_execution h).exec hplaced hok) hround.cpu hround.schedulerEntered hnext

/-- The main thread makes a thread and yields to the scheduler. -/
def createAndYield : List Event :=
  [.call (.create 100), .proceed 0, .call .yield, .proceed 5, .proceed 0, .proceed 0]

/-- In the first round the new thread is dispatched. -/
theorem partitioned_after_yield :
    ∃ s s', Execution (Machine.exec .mlfq) (fun _ _ => True) (initLibrary ⟨0, 0, none⟩)
        createAndYield s ∧
      s.exec .mlfq .schedule = .ok s' ∧ s'.running = some 1 ∧ s'.Partitioned := by
  have hseen : (replay (Machine.exec .mlfq) (initLibrary ⟨0, 0, none⟩) createAndYield).map
      (fun s => (s.exec .mlfq .schedule).map running) = .ok (.ok (some 1)) := rfl
  obtain ⟨s, -, hs, hnext⟩ := Execution.of_observed hseen
  obtain ⟨s', hs', hrun⟩ := map_eq_ok.mp hnext
  exact ⟨s, s', hs, hs', hrun, (partitioned_of_dispatch hs (by decide)).2 s' hs'⟩

/-! ## Shortest job first -/

theorem Placed.shortestFirst (h : s.Placed .psjf) (hc : s.Covered .psjf) (hend : s.Endings)
    (hcpu : s.cpu = .scheduler) (hlt : s.allocated < 65536) (hok : s.schedPsjf = .ok s') :
    ShortestFirst s s' := by
  have hpool := h.pool_psjf hlt hok
  have hround := h.rescheduled hok
  have hendings : ∀ p, s'.Ended p ↔ p ∈ s.endedTcbs.nodes := fun p => by
    have hnot : s.cpu ≠ .cleanup := by simp [hcpu]
    unfold Ended Finished
    rw [hround.history]
    exact hend.finished_iff hnot
  have hplaced' := h.psjf hok
  have hmem : ∀ p, p = mainTcb ∨ s'.Enqueued p → p ∈ s'.pool .psjf := fun p hp => by
    rw [hpool]
    refine hc.mem_pool (hp.imp_right fun hin => ?_)
    rwa [Enqueued, ← hround.history]
  obtain ⟨xs, q, l, l', first, next, timer, hr, rfl⟩ := schedPsjf_ok hok
  have hsorted : l.nodes.Pairwise fun p r => (s.tcbAt p).usage ≤ (s.tcbAt r).usage :=
    (hr.inserts.sorted (h.sorted rfl)).imp compareUsage_iff.mp
  obtain ⟨rfl, herase⟩ := hr.next_eq (h.distinct rfl)
  refine ⟨⟨_, hr.listed, hsorted⟩, ?_, ⟨next, rfl, hr.not_blocked, fun p hp hlive hfree => ?_⟩,
    fun p hp => ?_⟩
  · change l'.nodes.Pairwise _
    rw [herase]
    exact hsorted.sublist List.erase_sublist
  · refine hr.first_le (h.sorted rfl) ?_ hfree
    have hout : p ∉ s.endedTcbs.nodes := fun hin => hlive ((hendings p).mpr hin)
    have hin := hmem p hp.1
    have hq : p ∉ q.nodes := hp.2
    have hnext : next ::ₘ (l'.nodes : Multiset TcbPtr) = l.nodes := hr.perm
    rw [← Multiset.mem_coe, ← hnext, Multiset.mem_cons, Multiset.mem_coe]
    simpa [pool, ready, hq, hout, or_comm] using hin
  · have hone := hplaced'.count_pool (hmem p (.inr hp))
    simpa [ready, List.count_singleton] using hone

theorem shortestFirst_of_dispatch
    (h : Execution (Machine.exec .psjf) (fun _ _ => True) (initLibrary garbage) es s)
    (hn : es.countP creates < 65535) :
    (∀ e, ∀ a ∈ [Assertion.insertFresh, .insertSorted, .insertContained, .removeNonempty,
      .removeContained], s.exec .psjf e ≠ .error (.assertion a)) ∧
      ∀ s', s.exec .psjf .schedule = .ok s' → ShortestFirst s s' := by
  have hplaced := placed_of_execution h
  have hcovered := covered_of_execution h hn
  have hlt := allocated_lt h hn
  refine ⟨fun e a ha hfail => ?_, fun s' hok => ?_⟩
  · have hraised := hcovered.exec_raises hplaced hlt _ hfail
    fin_cases ha <;> simp [OverMutex] at hraised
  · rcases exec_cases hok with ⟨_, -, -, hstep⟩ | ⟨-, hcpu, hstep⟩ | ⟨_, hstep, -⟩
    · cases hstep
    · exact hplaced.shortestFirst hcovered (endings_of_execution h) hcpu hlt hstep
    · cases hstep

/-- The new thread has used no time yet and goes before the one that has made it. -/
theorem shortestFirst_after_yield :
    ∃ s s', Execution (Machine.exec .psjf) (fun _ _ => True) (initLibrary ⟨0, 0, none⟩)
        createAndYield s ∧
      s.exec .psjf .schedule = .ok s' ∧ s'.running = some 1 ∧ ShortestFirst s s' := by
  have hseen : (replay (Machine.exec .psjf) (initLibrary ⟨0, 0, none⟩) createAndYield).map
      (fun s => (s.exec .psjf .schedule).map running) = .ok (.ok (some 1)) := rfl
  obtain ⟨s, -, hs, hnext⟩ := Execution.of_observed hseen
  obtain ⟨s', hs', hrun⟩ := map_eq_ok.mp hnext
  exact ⟨s, s', hs, hs', hrun, (shortestFirst_of_dispatch hs (by decide)).2 s' hs'⟩

end Machine

end UserLevelOs.Threads
