import UserLevelOs.Threads.ShortestFirst
import Mathlib.Algebra.BigOperators.Group.Finset.Basic
import Mathlib.Tactic.Abel
import Mathlib.Tactic.FinCases

/-!
# A round of `sched_mlfq`

Threads move between `q_arrival`, the queues of the levels and the processor, and those that
arrive are listed in `tcbs` as well.  Each part of a round keeps the two accounts in step.

## Main definitions

* `Machine.queued` — the threads in the queues of the levels.
* `Machine.Leveled` — each is in the queue of its level.
* `Machine.Flow` — what a part of a round does.

## Main statements

* `Flow.trans`.
* `schedMlfq_ok` — a round is such a part, and dispatches a thread that is not blocked.
-/

namespace UserLevelOs.Threads

open UserLevelOs.Lib

/-- What the scheduler leaves alone in a block. -/
def Tcb.core (t : Tcb) : Worker × Value × Worker × Addr × WorkerMutex :=
  (t.threadId, t.retValue, t.joinTid, t.joinRetval, t.seekingLock)

namespace Machine

variable {s s' s'' : Machine} {p : TcbPtr} {level : ℕ} {q q' : Queue}

/-- The threads in the queues of the levels. -/
def queued (s : Machine) : Multiset TcbPtr :=
  ∑ level ∈ Finset.range QUEUE_LEVELS, ((s.allQueue level).nodes : Multiset TcbPtr)

theorem mem_queued : p ∈ s.queued ↔ ∃ level < QUEUE_LEVELS, p ∈ (s.allQueue level).nodes := by
  simp [queued, Multiset.mem_sum]

theorem le_queued (h : level < QUEUE_LEVELS) :
    ((s.allQueue level).nodes : Multiset TcbPtr) ≤ s.queued := by
  unfold queued
  rw [← Finset.add_sum_erase _ _ (Finset.mem_range.mpr h)]
  exact Multiset.le_add_right _ _

theorem queued_setLevel (h : level < QUEUE_LEVELS) :
    (s.setLevel level q).queued + (s.allQueue level).nodes = s.queued + q.nodes := by
  have hmem : level ∈ Finset.range QUEUE_LEVELS := Finset.mem_range.mpr h
  have hrest : ∑ l ∈ (Finset.range QUEUE_LEVELS).erase level,
      (((s.setLevel level q).allQueue l).nodes : Multiset TcbPtr) =
        ∑ l ∈ (Finset.range QUEUE_LEVELS).erase level, ((s.allQueue l).nodes : Multiset TcbPtr) := by
    refine Finset.sum_congr rfl fun l hl => ?_
    simp [(Finset.mem_erase.mp hl).1]
  unfold queued
  rw [← Finset.add_sum_erase _ _ hmem, ← Finset.add_sum_erase _ _ hmem, hrest]
  simp
  abel

/-- The sizes of `q_arrival` and of the queues count their threads. -/
def AllCounted (s : Machine) : Prop :=
  Counted s.qArrival.size s.qArrival.nodes ∧
    ∀ level, Counted (s.allQueue level).size (s.allQueue level).nodes

/-- The queue of a thread is the one of its level. -/
structure Leveled (s : Machine) : Prop where
  arrival : ∀ p ∈ s.qArrival.nodes, (s.tcbAt p).priorityLevel = 0
  level : ∀ level < QUEUE_LEVELS, ∀ p ∈ (s.allQueue level).nodes, (s.tcbAt p).priorityLevel = level
  running : ∀ p, s.running = some p → (s.tcbAt p).priorityLevel < QUEUE_LEVELS

/-- The threads that a round of `sched_mlfq` has to do with. -/
def afoot (s : Machine) : Multiset TcbPtr := s.qArrival.nodes + s.queued + s.running.toList

/-- A part of a round of `sched_mlfq`. -/
structure Flow (s s' : Machine) : Prop where
  frame : s' = { s with
    tcbAt := s'.tcbAt
    qArrival := s'.qArrival
    tcbs := s'.tcbs
    allQueue := s'.allQueue
    totalQuantumsElapsed := s'.totalQuantumsElapsed
    running := s'.running }
  core : ∀ p, (s'.tcbAt p).core = (s.tcbAt p).core
  others : ∀ p ∉ s.afoot, s'.tcbAt p = s.tcbAt p
  le : s'.afoot ≤ s.afoot
  listed : (s'.qArrival.nodes + s'.tcbs.nodes : Multiset TcbPtr) ≤ s.qArrival.nodes + s.tcbs.nodes
  keeps : ∀ p ∈ s.tcbs.nodes, p ∈ s'.tcbs.nodes
  counted : s.AllCounted → s'.AllCounted
  countedTcbs : Counted s.tcbs.size s.tcbs.nodes → Counted s'.tcbs.size s'.tcbs.nodes
  exact : s.AllCounted → s.afoot.card < 65536 → s'.afoot = s.afoot ∧
    (s'.qArrival.nodes + s'.tcbs.nodes : Multiset TcbPtr) = s.qArrival.nodes + s.tcbs.nodes
  leveled : s.afoot.Nodup → s.Leveled → s'.Leveled
  drained : isEmpty s.qArrival = true → s'.qArrival = s.qArrival
  /-- A thread that comes to the queues is listed. -/
  enters : ∀ p ∈ s'.queued + s'.running.toList,
    p ∈ s.queued + s.running.toList ∨ p ∈ s'.tcbs.nodes

namespace Flow

theorem refl (s : Machine) : Flow s s where
  frame := rfl
  core _ := rfl
  others _ _ := rfl
  le := le_rfl
  listed := le_rfl
  keeps _ h := h
  counted h := h
  countedTcbs h := h
  exact _ _ := ⟨rfl, rfl⟩
  leveled _ h := h
  drained _ := rfl
  enters _ hp := .inl hp

theorem trans (h : Flow s s') (h' : Flow s' s'') : Flow s s'' where
  frame := by rw [h'.frame, h.frame]
  core p := (h'.core p).trans (h.core p)
  others p hp :=
    (h'.others p fun hmem => hp (Multiset.mem_of_le h.le hmem)).trans (h.others p hp)
  le := h'.le.trans h.le
  listed := h'.listed.trans h.listed
  keeps p hp := h'.keeps p (h.keeps p hp)
  counted hc := h'.counted (h.counted hc)
  countedTcbs hc := h'.countedTcbs (h.countedTcbs hc)
  exact hc hlt := by
    obtain ⟨h₁, h₂⟩ := h.exact hc hlt
    obtain ⟨h₁', h₂'⟩ := h'.exact (h.counted hc) (by rwa [h₁])
    exact ⟨h₁'.trans h₁, h₂'.trans h₂⟩
  leveled hnd hl := h'.leveled (Multiset.nodup_of_le h.le hnd) (h.leveled hnd hl)
  drained he := by
    have heq := h.drained he
    rw [h'.drained (by rwa [heq]), heq]
  enters p hp := by
    rcases h'.enters p hp with hp | hp
    · exact (h.enters p hp).imp_right (h'.keeps p)
    · exact .inr hp

end Flow

/-! ## Moves between the queues -/

section Moves

variable {x : TcbPtr}

theorem mem_enqueue {y : TcbPtr} (h : y ∈ (enqueue q x).nodes) : y = x ∨ y ∈ q.nodes := by
  have hmem := Multiset.mem_of_le (enqueue_le (q := q) (x := x)) (Multiset.mem_coe.mpr h)
  simpa using hmem

theorem mem_dequeue (h : dequeue q = .ok (x, q')) :
    x ∈ q.nodes ∧ ∀ y ∈ q'.nodes, y ∈ q.nodes := by
  have hle := dequeue_le h
  refine ⟨Multiset.mem_coe.mp (Multiset.mem_of_le hle (by simp)), fun y hy => ?_⟩
  exact Multiset.mem_coe.mp (Multiset.mem_of_le hle (by simp [hy]))

theorem length_le_afoot (h : level < QUEUE_LEVELS) :
    s.qArrival.nodes.length + (s.allQueue level).nodes.length ≤ s.afoot.card := by
  have hle := Multiset.card_le_card (le_queued (s := s) h)
  simp only [afoot, Multiset.card_add, Multiset.coe_card] at hle ⊢
  omega

theorem queued_enqueue_le (h : level < QUEUE_LEVELS) :
    (s.setLevel level (enqueue (s.allQueue level) x)).queued ≤ {x} + s.queued := by
  have hset := queued_setLevel (s := s) (q := enqueue (s.allQueue level) x) h
  have hle : ((enqueue (s.allQueue level) x).nodes : Multiset TcbPtr) ≤
      {x} + (s.allQueue level).nodes := by simpa using enqueue_le
  refine le_of_add_le_add_right (a := ((s.allQueue level).nodes : Multiset TcbPtr)) ?_
  calc
    _ = s.queued + (enqueue (s.allQueue level) x).nodes := hset
    _ ≤ s.queued + ({x} + (s.allQueue level).nodes) := add_le_add_right hle _
    _ = {x} + s.queued + (s.allQueue level).nodes := by abel

theorem queued_enqueue (h : level < QUEUE_LEVELS)
    (hc : Counted (s.allQueue level).size (s.allQueue level).nodes)
    (hlt : (s.allQueue level).nodes.length < 65536) :
    (s.setLevel level (enqueue (s.allQueue level) x)).queued = {x} + s.queued := by
  have hset := queued_setLevel (s := s) (q := enqueue (s.allQueue level) x) h
  rw [enqueue_nodes hc hlt, ← Multiset.coe_add, Multiset.coe_singleton] at hset
  refine add_right_cancel (b := ((s.allQueue level).nodes : Multiset TcbPtr)) ?_
  rw [hset]
  abel

theorem queued_leaves_le {xs : Multiset TcbPtr} (h : level < QUEUE_LEVELS)
    (hq : Leaves xs (s.allQueue level) q) : xs + (s.setLevel level q).queued ≤ s.queued := by
  have hset := queued_setLevel (s := s) (q := q) h
  refine le_of_add_le_add_right (a := ((s.allQueue level).nodes : Multiset TcbPtr)) ?_
  calc
    _ = xs + ((s.setLevel level q).queued + (s.allQueue level).nodes) := add_assoc _ _ _
    _ = s.queued + (xs + q.nodes) := by rw [hset]; abel
    _ ≤ s.queued + (s.allQueue level).nodes := add_le_add_right hq.le _

theorem queued_leaves {xs : Multiset TcbPtr} (h : level < QUEUE_LEVELS)
    (hq : Leaves xs (s.allQueue level) q)
    (hc : Counted (s.allQueue level).size (s.allQueue level).nodes)
    (hlt : (s.allQueue level).nodes.length < 65536) :
    xs + (s.setLevel level q).queued = s.queued := by
  have hset := queued_setLevel (s := s) (q := q) h
  rw [← hq.exact hc hlt] at hset
  refine add_right_cancel (b := (q.nodes : Multiset TcbPtr)) ?_
  rw [← hset]
  abel

end Moves

/-! ## The parts of a round -/

/-- One turn of the loop over `q_arrival`. -/
theorem flow_arrival {x : TcbPtr} (h : dequeue s.qArrival = .ok (x, q)) :
    Flow s { s.setLevel 0 (enqueue (s.allQueue 0) x) with
      qArrival := q, tcbs := insertAtFront s.tcbs x } where
  frame := rfl
  core _ := rfl
  others _ _ := rfl
  le := by
    have hleaves := (Leaves.single h).le
    have hqueued := queued_enqueue_le (s := s) (x := x) (by decide : 0 < QUEUE_LEVELS)
    calc
      _ = (q.nodes : Multiset TcbPtr) + (s.setLevel 0 (enqueue (s.allQueue 0) x)).queued +
          s.running.toList := rfl
      _ ≤ q.nodes + ({x} + s.queued) + s.running.toList := by gcongr
      _ = {x} + q.nodes + s.queued + s.running.toList := by abel
      _ ≤ s.afoot := by unfold afoot; gcongr
  listed := by
    have hleaves := (Leaves.single h).le
    calc
      (q.nodes : Multiset TcbPtr) + (x :: s.tcbs.nodes : List TcbPtr) =
          {x} + q.nodes + s.tcbs.nodes := by
        rw [← Multiset.cons_coe, ← Multiset.singleton_add]
        abel
      _ ≤ s.qArrival.nodes + s.tcbs.nodes := by gcongr
  keeps p hp := by simp [insertAtFront, hp]
  counted hc := by
    refine ⟨counted_dequeue hc.1 h, fun level => ?_⟩
    by_cases hl : level = 0
    · subst hl
      simpa using counted_enqueue (hc.2 0)
    · simpa [hl] using hc.2 level
  countedTcbs hc := counted_insertAtFront hc
  exact hc hlt := by
    have hlen := length_le_afoot (s := s) (by decide : 0 < QUEUE_LEVELS)
    have hleaves := (Leaves.single h).exact hc.1 (by omega)
    have hqueued := queued_enqueue (s := s) (x := x) (by decide : 0 < QUEUE_LEVELS) (hc.2 0) (by omega)
    refine ⟨?_, ?_⟩
    · calc
        _ = (q.nodes : Multiset TcbPtr) + (s.setLevel 0 (enqueue (s.allQueue 0) x)).queued +
            s.running.toList := rfl
        _ = {x} + q.nodes + s.queued + s.running.toList := by rw [hqueued]; abel
        _ = s.afoot := by rw [hleaves, afoot]
    · calc
        (q.nodes : Multiset TcbPtr) + (x :: s.tcbs.nodes : List TcbPtr) =
            {x} + q.nodes + s.tcbs.nodes := by
          rw [← Multiset.cons_coe, ← Multiset.singleton_add]
          abel
        _ = s.qArrival.nodes + s.tcbs.nodes := by rw [hleaves]
  leveled _ hl := by
    obtain ⟨hx, hrest⟩ := mem_dequeue h
    refine ⟨fun p hp => hl.arrival p (hrest p hp), fun level hlevel p hp => ?_, hl.running⟩
    by_cases hzero : level = 0
    · subst hzero
      rcases mem_enqueue (by simpa using hp) with rfl | hp
      · exact hl.arrival _ hx
      · exact hl.level 0 hlevel p hp
    · exact hl.level level hlevel p (by simpa [hzero] using hp)
  drained hempty := by simp [dequeue, hempty, assert, bind, Except.bind] at h
  enters p hp := by
    have hqueued := queued_enqueue_le (s := s) (x := x) (by decide : 0 < QUEUE_LEVELS)
    rcases Multiset.mem_add.mp hp with hp | hp
    · rcases Multiset.mem_add.mp (Multiset.mem_of_le hqueued hp) with hp | hp
      · have heq : p = x := by simpa using hp
        exact .inr (by simp [insertAtFront, heq])
      · exact .inl (Multiset.mem_add.mpr (.inl hp))
    · exact .inl (Multiset.mem_add.mpr (.inr hp))

theorem mlfqArrivals_ok {fuel : ℕ} (h : mlfqArrivals fuel s = .ok s') :
    Flow s s' ∧ isEmpty s'.qArrival = true ∧ s'.running = s.running := by
  induction fuel generalizing s with
  | zero => cases h
  | succ fuel ih =>
    unfold mlfqArrivals at h
    split at h
    · next hempty =>
      cases h
      exact ⟨.refl _, hempty, rfl⟩
    · obtain ⟨⟨x, q⟩, hdeq, h⟩ := bind_eq_ok.mp h
      obtain ⟨hflow, hempty, hrun⟩ := ih h
      exact ⟨(flow_arrival hdeq).trans hflow, hempty, hrun⟩

/-- The running thread, its block changed, goes into a queue. -/
theorem flow_put {r : TcbPtr} {t : Tcb} (hrun : s.running = some r)
    (hcore : t.core = (s.tcbAt r).core) (hlt : level < QUEUE_LEVELS)
    (hlevel : t.priorityLevel = level) :
    Flow s { (s.setTcb r t).setLevel level (enqueue (s.allQueue level) r) with running := none } := by
  have hafoot : s.afoot = s.qArrival.nodes + s.queued + {r} := by simp [afoot, hrun]
  refine ⟨rfl, fun p => ?_, fun p hp => ?_, ?_, le_rfl, fun p hp => hp,
    fun hc => ⟨hc.1, fun l => ?_⟩, fun hc => hc, fun hc hroom => ⟨?_, rfl⟩, fun hnd hl => ?_,
    fun _ => rfl, fun p hp => .inl ?_⟩
  · by_cases hp : p = r
    · subst hp
      simpa using hcore
    · simp [hp]
  · have hne : p ≠ r := fun heq => hp (by simp [hafoot, heq])
    simp [hne]
  · have hle := queued_enqueue_le (s := s) (x := r) hlt
    calc
      _ = (s.qArrival.nodes : Multiset TcbPtr) +
          (s.setLevel level (enqueue (s.allQueue level) r)).queued + 0 := rfl
      _ ≤ s.qArrival.nodes + ({r} + s.queued) + 0 := by gcongr
      _ = s.afoot := by rw [hafoot]; abel
  · by_cases hl : l = level
    · subst hl
      simpa using counted_enqueue (hc.2 l)
    · simpa [hl] using hc.2 l
  · have hlen := length_le_afoot (s := s) hlt
    have heq := queued_enqueue (s := s) (x := r) hlt (hc.2 level) (by omega)
    calc
      _ = (s.qArrival.nodes : Multiset TcbPtr) +
          (s.setLevel level (enqueue (s.allQueue level) r)).queued + 0 := rfl
      _ = s.afoot := by rw [heq, hafoot]; abel
  · -- `r` is in no queue, so no thread that is in one has its level changed
    rw [hafoot] at hnd
    have hout : ∀ p ∈ (s.qArrival.nodes : Multiset TcbPtr) + s.queued, p ≠ r := fun p hp heq =>
      Multiset.disjoint_left.mp (Multiset.nodup_add.mp hnd).2.2 hp (by simp [heq])
    refine ⟨fun p hp => ?_, fun l hl' p hp => ?_, by simp⟩
    · have hne : p ≠ r := hout p (Multiset.mem_add.mpr (.inl (by simpa using hp)))
      simpa [hne] using hl.arrival p hp
    · by_cases hp' : p = r
      · subst hp'
        by_cases hll : l = level
        · simpa [hll] using hlevel
        · have hmem : p ∈ s.queued := mem_queued.mpr ⟨l, hl', by simpa [hll] using hp⟩
          exact absurd rfl (hout p (Multiset.mem_add.mpr (.inr hmem)))
      · have hold : p ∈ (s.allQueue l).nodes := by
          by_cases hll : l = level
          · subst hll
            exact (mem_enqueue (by simpa using hp)).resolve_left hp'
          · simpa [hll] using hp
        simpa [hp'] using hl.level l hl' p hold
  · have hle := queued_enqueue_le (s := s) (x := r) hlt
    rcases Multiset.mem_add.mp hp with hp | hp
    · rcases Multiset.mem_add.mp (Multiset.mem_of_le hle hp) with hp | hp
      · exact Multiset.mem_add.mpr (.inr (by simpa [hrun, eq_comm] using hp))
      · exact Multiset.mem_add.mpr (.inl hp)
    · simp at hp

/-- While no thread runs, one is taken out of a queue to run. -/
theorem flow_take {c : Option TcbPtr} (hrun : s.running = none) (hlt : level < QUEUE_LEVELS)
    (h : Leaves c.toList (s.allQueue level) q) :
    Flow s { s.setLevel level q with running := c } := by
  have hafoot : s.afoot = s.qArrival.nodes + s.queued := by simp [afoot, hrun]
  have hmem : ∀ p ∈ (c.toList : Multiset TcbPtr) + q.nodes, p ∈ (s.allQueue level).nodes :=
    fun p hp => Multiset.mem_coe.mp (Multiset.mem_of_le h.le hp)
  refine ⟨rfl, fun p => rfl, fun p _ => rfl, ?_, le_rfl, fun p hp => hp,
    fun hc => ⟨hc.1, fun l => ?_⟩, fun hc => hc, fun hc hroom => ⟨?_, rfl⟩,
    fun hnd hl => ⟨hl.arrival, fun l hl' p hp => ?_, ?_⟩, fun _ => rfl, fun p hp => .inl ?_⟩
  · have hle := queued_leaves_le hlt h
    calc
      _ = (s.qArrival.nodes : Multiset TcbPtr) + (s.setLevel level q).queued + c.toList := rfl
      _ = s.qArrival.nodes + (c.toList + (s.setLevel level q).queued) := by abel
      _ ≤ s.qArrival.nodes + s.queued := by gcongr
      _ = s.afoot := hafoot.symm
  · by_cases hl : l = level
    · subst hl
      simpa using h.counted (hc.2 l)
    · simpa [hl] using hc.2 l
  · have hlen := length_le_afoot (s := s) hlt
    have heq := queued_leaves hlt h (hc.2 level) (by omega)
    calc
      _ = (s.qArrival.nodes : Multiset TcbPtr) + (s.setLevel level q).queued + c.toList := rfl
      _ = s.qArrival.nodes + (c.toList + (s.setLevel level q).queued) := by abel
      _ = s.afoot := by rw [heq, hafoot]
  · by_cases hll : l = level
    · subst hll
      exact hl.level l hl' p (hmem p (by simp_all))
    · exact hl.level l hl' p (by simpa [hll] using hp)
  · intro p hp
    have hc : c = some p := hp
    have hin := hmem p (by simp [hc])
    have hlevel := hl.level level hlt p hin
    exact hlevel.trans_lt hlt
  · have hp' : p ∈ (c.toList : Multiset TcbPtr) + (s.setLevel level q).queued :=
      Multiset.mem_add.mpr (Multiset.mem_add.mp hp).symm
    exact Multiset.mem_add.mpr (.inl (Multiset.mem_of_le (queued_leaves_le hlt h) hp'))

@[simp] theorem core_demote (t : Tcb) : (demote t).core = t.core := by
  unfold demote
  split <;> rfl

theorem requeueRunning_ok (h : s.requeueRunning = .ok s') : Flow s s' ∧ s'.running = none := by
  unfold requeueRunning at h
  split at h
  · next hrun =>
    cases h
    exact ⟨.refl _, hrun⟩
  · next r hrun =>
    dsimp only at h
    split at h
    · next hlt =>
      cases h
      exact ⟨flow_put hrun (core_demote _) hlt (by simp), rfl⟩
    · cases h

/-- One turn of the loop of `boost_all_queues`. -/
theorem flow_boost {x : TcbPtr} (hrun : s.running = none) (hlt : level < QUEUE_LEVELS)
    (h : dequeue (s.allQueue level) = .ok (x, q)) :
    Flow s (((s.setLevel level q).setTcb x (boosted (s.tcbAt x))).setLevel 0
      (enqueue ((s.setLevel level q).allQueue 0) x)) := by
  have htake : Flow s { s.setLevel level q with running := some x } :=
    flow_take hrun hlt (Leaves.single h)
  have hput := flow_put (s := { s.setLevel level q with running := some x })
    (t := boosted (s.tcbAt x)) rfl rfl (by decide : 0 < QUEUE_LEVELS) rfl
  have heq : { ({ s.setLevel level q with running := some x }.setTcb x
      (boosted (s.tcbAt x))).setLevel 0 (enqueue ((s.setLevel level q).allQueue 0) x) with
        running := none } = ((s.setLevel level q).setTcb x (boosted (s.tcbAt x))).setLevel 0
          (enqueue ((s.setLevel level q).allQueue 0) x) := by
    simp [setLevel, setTcb, hrun]
  exact heq ▸ htake.trans hput

theorem boostLevel_ok {fuel : ℕ} (hrun : s.running = none) (hlt : level < QUEUE_LEVELS)
    (h : boostLevel level fuel s = .ok s') :
    Flow s s' ∧ s'.running = none ∧ isEmpty (s'.allQueue level) = true ∧
      ∀ l, l ≠ 0 → l ≠ level → s'.allQueue l = s.allQueue l := by
  induction fuel generalizing s with
  | zero => cases h
  | succ fuel ih =>
    unfold boostLevel at h
    split at h
    · next hempty =>
      cases h
      exact ⟨.refl _, hrun, hempty, fun _ _ _ => rfl⟩
    · obtain ⟨⟨x, q⟩, hdeq, h⟩ := bind_eq_ok.mp h
      obtain ⟨hflow, hrun', hempty, hother⟩ := ih (by simpa using hrun) h
      refine ⟨(flow_boost hrun hlt hdeq).trans hflow, hrun', hempty, fun l hl hl' => ?_⟩
      simp [hother l hl hl', hl, hl']

theorem boostLevels_ok {levels : List ℕ} (hrun : s.running = none)
    (hlevels : ∀ l ∈ levels, l < QUEUE_LEVELS ∧ l ≠ 0) (h : boostLevels levels s = .ok s') :
    Flow s s' ∧ s'.running = none ∧ (∀ l ∈ levels, isEmpty (s'.allQueue l) = true) ∧
      ∀ l, l ≠ 0 → l ∉ levels → s'.allQueue l = s.allQueue l := by
  induction levels generalizing s with
  | nil =>
    cases h
    exact ⟨.refl _, hrun, by simp, fun _ _ _ => rfl⟩
  | cons level levels ih =>
    obtain ⟨s₁, h₁, h⟩ := bind_eq_ok.mp h
    obtain ⟨hlt, hpos⟩ := hlevels level (by simp)
    obtain ⟨hflow₁, hrun₁, hempty₁, hother₁⟩ := boostLevel_ok hrun hlt h₁
    obtain ⟨hflow, hrun', hempty, hother⟩ := ih hrun₁ (fun l hl => hlevels l (by simp [hl])) h
    refine ⟨hflow₁.trans hflow, hrun', fun l hl => ?_, fun l hl hmem => ?_⟩
    · by_cases hmem : l ∈ levels
      · exact hempty l hmem
      · have heq : l = level := by simpa [hmem] using hl
        subst heq
        rw [hother l hpos hmem, hempty₁]
    · simp only [List.mem_cons, not_or] at hmem
      rw [hother l hl hmem.2, hother₁ l hl hmem.1]

/-- After a boost all threads are in the first queue. -/
theorem queued_of_boosted (hc : s.AllCounted) (hroom : s.afoot.card < 65536)
    (hempty : ∀ l ∈ [1, 2, 3], isEmpty (s.allQueue l) = true) :
    s.queued = (s.allQueue 0).nodes := by
  have hnil : ∀ l ∈ [1, 2, 3], (s.allQueue l).nodes = [] := fun l hl => by
    have hlen := length_le_afoot (s := s) (show l < QUEUE_LEVELS by fin_cases hl <;> decide)
    exact ((hc.2 l).eq_zero (by omega)).mp (by simpa [isEmpty] using hempty l hl)
  simp [queued, Finset.sum_range_succ, hnil 1, hnil 2, hnil 3]

theorem flow_total (total : UInt32) : Flow s { s with totalQuantumsElapsed := total } where
  frame := rfl
  core _ := rfl
  others _ _ := rfl
  le := le_rfl
  listed := le_rfl
  keeps _ h := h
  counted h := h
  countedTcbs h := h
  exact _ _ := ⟨rfl, rfl⟩
  leveled _ h := ⟨h.arrival, h.level, h.running⟩
  drained _ := rfl
  enters _ hp := .inl hp

theorem boostAllQueues_ok (hrun : s.running = none) (h : s.boostAllQueues = .ok s') :
    Flow s s' ∧ s'.running = none := by
  obtain ⟨s₁, h₁, h⟩ := bind_eq_ok.mp h
  obtain ⟨hflow, hrun', -, -⟩ := boostLevels_ok hrun (by decide) h₁
  obtain ⟨-, h⟩ := assert_bind_eq_ok.mp h
  cases h
  exact ⟨hflow, hrun'⟩

theorem boostWhenDue_ok (hrun : s.running = none) (h : s.boostWhenDue = .ok s') :
    Flow s s' ∧ s'.running = none := by
  unfold boostWhenDue at h
  split at h
  · obtain ⟨hflow, hrun'⟩ := boostAllQueues_ok (by exact hrun) h
    exact ⟨(flow_total _).trans hflow, hrun'⟩
  · cases h
    exact ⟨.refl _, hrun⟩

/-! ## The selection -/

theorem rotate_ok {tcbAt : Tcbs} {n : ℕ} {c : Option TcbPtr} (h : rotate tcbAt n q = .ok (c, q')) :
    Leaves c.toList q q' ∧ ∀ p, c = some p → isBlocked (tcbAt p) = false := by
  induction n generalizing q with
  | zero =>
    cases h
    exact ⟨.refl _, by simp⟩
  | succ n ih =>
    obtain ⟨⟨x, q₁⟩, hdeq, h⟩ := bind_eq_ok.mp h
    dsimp only at h
    split at h
    · obtain ⟨hleaves, hfree⟩ := ih h
      refine ⟨⟨?_, fun hc => ?_, fun hc hlt => ?_⟩, hfree⟩
      · calc
          _ ≤ ((enqueue q₁ x).nodes : Multiset TcbPtr) := hleaves.le
          _ ≤ x ::ₘ q₁.nodes := enqueue_le
          _ ≤ q.nodes := dequeue_le hdeq
      · exact hleaves.counted (counted_enqueue (counted_dequeue hc hdeq))
      · have hq := dequeue_nodes hc hlt hdeq
        have hc₁ := counted_dequeue hc hdeq
        have hlen : q₁.nodes.length + 1 = q.nodes.length := by simp [hq]
        have henq := enqueue_nodes (x := x) hc₁ (by omega)
        rw [hleaves.exact (counted_enqueue hc₁) (by simp [henq]; omega), henq, hq]
        simp
    · next hfree =>
      cases h
      refine ⟨by simpa using Leaves.single hdeq, fun p hp => ?_⟩
      cases hp
      simpa using hfree

theorem selectFrom_ok {levels : List ℕ} (hrun : s.running = none)
    (hlevels : ∀ l ∈ levels, l < QUEUE_LEVELS) (h : selectFrom levels s = .ok s') :
    Flow s s' ∧ s'.tcbAt = s.tcbAt ∧
      ∀ p, s'.running = some p → isBlocked (s'.tcbAt p) = false := by
  induction levels generalizing s with
  | nil =>
    cases h
    exact ⟨.refl _, rfl, by simp [hrun]⟩
  | cons level levels ih =>
    obtain ⟨⟨c, q⟩, hrot, h⟩ := bind_eq_ok.mp h
    obtain ⟨hleaves, hfree⟩ := rotate_ok hrot
    have htake := flow_take hrun (hlevels level (by simp)) hleaves
    cases c with
    | some p =>
      cases h
      exact ⟨htake, rfl, fun p' hp' => hfree p' hp'⟩
    | none =>
      have hsame : { s.setLevel level q with running := none } = s.setLevel level q := by
        simp [setLevel, hrun]
      rw [hsame] at htake
      obtain ⟨hflow, htcb, hnext⟩ := ih (by simpa using hrun) (fun l hl => hlevels l (by simp [hl])) h
      exact ⟨htake.trans hflow, htcb, hnext⟩

/-! ## The round -/

/-- The parts of a round before the dispatch. -/
theorem schedMlfq_ok (h : s.schedMlfq = .ok s') :
    ∃ t next, Flow s t ∧ isEmpty t.qArrival = true ∧ t.running = some next ∧
      isBlocked (t.tcbAt next) = false ∧ s' = t.dispatch next := by
  obtain ⟨s₁, h₁, h⟩ := bind_eq_ok.mp h
  obtain ⟨s₂, h₂, h⟩ := bind_eq_ok.mp h
  obtain ⟨s₃, h₃, h⟩ := bind_eq_ok.mp h
  obtain ⟨t, h₄, h⟩ := bind_eq_ok.mp h
  obtain ⟨hflow₁, hempty, -⟩ := mlfqArrivals_ok h₁
  obtain ⟨hflow₂, hrun₂⟩ := requeueRunning_ok h₂
  obtain ⟨hflow₃, hrun₃⟩ := boostWhenDue_ok hrun₂ h₃
  obtain ⟨hflow₄, -, hfree⟩ := selectFrom_ok hrun₃ (by simp) h₄
  split at h
  · cases h
  · next next hnext =>
    cases h
    have hrest := hflow₂.trans (hflow₃.trans hflow₄)
    exact ⟨t, next, hflow₁.trans hrest, by rwa [hrest.drained hempty], hnext, hfree next hnext, rfl⟩

end Machine

end UserLevelOs.Threads
