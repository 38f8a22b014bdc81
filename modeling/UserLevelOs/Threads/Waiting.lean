import UserLevelOs.Threads.Rounds
import UserLevelOs.Threads.Listing

/-!
# How long a ready thread waits

A thread that is not blocked and does not run stays so until it is dispatched, since only the
thread itself can block it.  With multilevel queues the number of rounds it waits is bounded by
the number of threads ahead of it in the first queue, and after a boost by the number of threads.

## Main definitions

* `Machine.Waits` — a thread that could run and does not.
* `Machine.Passes` — an event that does not dispatch the thread.
* `Machine.AheadOf` — at most so many threads are ahead of it in the first queue.

## Main statements

* `Waits.exec` — it goes on waiting.
* `AheadOf.round` — each round takes one of those ahead of it.
* `rounds_le_of_aheadOf`, `rounds_lt_of_boostDue`.
-/

namespace UserLevelOs.Threads

open UserLevelOs.Lib

namespace Machine

variable {policy : Policy} {s s' : Machine} {p q : TcbPtr} {e : Event} {n : ℕ}
  {garbage : Garbage} {es es₀ : List Event}

/-- The thread could run, and does not. -/
structure Waits (s : Machine) (p : TcbPtr) : Prop where
  known : p < s.allocated
  idle : s.running ≠ some p
  free : isBlocked (s.tcbAt p) = false

/-- The event does not give the processor to the thread. -/
def Passes (policy : Policy) (p : TcbPtr) (s : Machine) (e : Event) : Prop :=
  ∀ s', s.exec policy e = .ok s' → s'.running ≠ some p

instance : Decidable (Passes policy p s e) :=
  decidable_of_iff (((s.exec policy e).map running).toOption ≠ some (some p)) <| by
    unfold Passes
    cases s.exec policy e <;> simp [Except.map, Except.toOption]

/-- A round of the scheduler. -/
def rounds : Event → Bool
  | .schedule => true
  | _ => false

/-! ## A thread that waits goes on waiting -/

theorem Own.isBlocked (hown : Own q s s') (hne : p ≠ q) (hfree : isBlocked (s.tcbAt p) = false) :
    Threads.isBlocked (s'.tcbAt p) = false := by
  rcases hown.other p hne with hsame | hcleared
  · rw [hsame]
    exact hfree
  · rw [hcleared, isBlocked_eq_false]
    exact ⟨(isBlocked_eq_false.mp hfree).1, rfl⟩

theorem isBlocked_woken {ended : Worker} {ps : List TcbPtr}
    (hfree : Threads.isBlocked (s.tcbAt p) = false) :
    Threads.isBlocked (woken s.tcbAt ended ps p) = false := by
  obtain ⟨hjoin, hseek⟩ := isBlocked_eq_false.mp hfree
  rw [woken_eq, isBlocked_eq_false]
  refine ⟨?_, hseek⟩
  simp only [woken, wake]
  split
  · split
    · rfl
    · exact hjoin
  · exact hjoin

namespace Waits

theorem exec (h : s.Waits p) (hp : s.Placed policy) (hpass : s.Passes policy p e)
    (hok : s.exec policy e = .ok s') : s'.Waits p := by
  have hle : s.allocated ≤ s'.allocated := by
    rw [allocated_exec hp hok]
    exact Nat.le_add_right _ _
  refine ⟨h.known.trans_le hle, hpass s' hok, ?_⟩
  rcases exec_cases hok with ⟨q, -, hrun, hok⟩ | ⟨-, -, hok⟩ | ⟨q, -, -, hrun, hok⟩
  · have hne : p ≠ q := fun heq => h.idle (heq ▸ hrun)
    rcases execThread_cases hok with ⟨thread, -, -, rfl⟩ | ⟨_, r, -, -, rfl⟩ | ⟨-, -, -, rfl⟩ | hown
    · have hold : (s.workerCreate q thread).tcbAt p = s.tcbAt p := by
        simp [workerCreate, h.known.ne]
      rw [hold]
      exact h.free
    · exact h.free
    · exact h.free
    · exact hown.isBlocked hne h.free
  · have hround := hp.rescheduled hok
    rw [isBlocked_eq_false, hround.joinTid, hround.seekingLock]
    exact isBlocked_eq_false.mp h.free
  · obtain ⟨l, notes, -, -, rfl⟩ := cleanExitedWorkerThread_ok hok
    exact isBlocked_woken h.free

end Waits

/-! ## Who is ahead -/

/-- Once those that have arrived are in the first queue, at most `n` threads are ahead of `p` in
it. -/
def AheadOf (s : Machine) (p : TcbPtr) (n : ℕ) : Prop :=
  Levels.Ahead (s.levels.join 0 s.qArrival.nodes) p n

namespace AheadOf

/-- Between two rounds others may arrive, behind it. -/
theorem between (h : s.AheadOf p n) (hp : s.Placed policy) (hlt : s.allocated < 65536)
    (hne : e ≠ .schedule) (hok : s.exec policy e = .ok s') : s'.AheadOf p n := by
  rcases exec_cases hok with ⟨q, -, hrun, hok⟩ | ⟨heq, -, -⟩ | ⟨q, -, -, hrun, hok⟩
  · rcases execThread_cases hok with ⟨thread, -, -, rfl⟩ | ⟨_, r, -, -, rfl⟩ | ⟨-, -, -, rfl⟩ | hown
    · exact h
    · have hroom := hp.length_le hlt
      have hlines : (s.enqueueCreated q r).levels.join 0 (s.enqueueCreated q r).qArrival.nodes =
          (s.levels.join 0 s.qArrival.nodes).join 0 [r] := by
        change s.levels.join 0 (enqueue s.qArrival r).nodes = _
        rw [enqueue_nodes hp.counted.1 (by omega)]
        simp [Levels.join]
      rw [AheadOf, hlines]
      exact h.join 0 [r]
    · exact h
    · have hlevels : s'.levels = s.levels := by
        funext level
        simp only [levels, hown.allQueue]
      rw [AheadOf, hlevels, hown.qArrival]
      exact h
  · exact absurd heq hne
  · obtain ⟨l, notes, -, -, rfl⟩ := cleanExitedWorkerThread_ok hok
    exact h

/-- The turn takes one of those ahead in the lines. -/
theorem of_serve {next : TcbPtr} {rest : Levels TcbPtr} (h : Levels.Ahead s.waiting p n)
    (hfree : Threads.isBlocked (s.tcbAt p) = false)
    (hpass : ((s.gathered.withLines rest).dispatch next).running ≠ some p)
    (hserve : Levels.serve (fun p => !Threads.isBlocked (s.tcbAt p)) (List.range QUEUE_LEVELS)
      s.waiting = some (next, rest)) :
    ∃ m < n, ((s.gathered.withLines rest).dispatch next).AheadOf p m := by
  have hlines : ((s.gathered.withLines rest).dispatch next).levels.join 0
      ((s.gathered.withLines rest).dispatch next).qArrival.nodes = rest := by
    change Levels.join rest 0 [] = rest
    simp [Levels.join]
  rcases h.serve (by simp [hfree]) hserve with heq | ⟨m, hm, hahead⟩
  · exact absurd (congrArg some heq) hpass
  · exact ⟨m, hm, by rw [AheadOf, hlines]; exact hahead⟩

/-- A round that does not dispatch it dispatches one of those ahead. -/
theorem round (h : s.AheadOf p n) (hw : s.Waits p) (hp : s.Placed .mlfq) (hc : s.Covered .mlfq)
    (hlt : s.allocated < 65536) (hpass : s'.running ≠ some p) (hok : s.schedule .mlfq = .ok s') :
    ∃ m < n, s'.AheadOf p m := by
  rw [schedule_mlfq_eq hp hc hlt] at hok
  unfold mlfqRound at hok
  split at hok
  · cases hok
  · next next rest hserve =>
    cases hok
    have hwaiting : Levels.Ahead s.waiting p n := by
      have hjoined : Levels.Ahead s.joined p n := by
        unfold joined rejoined
        split
        · exact h
        · exact h.join _ _
      unfold waiting
      split
      · exact hjoined.gather _
      · exact hjoined
    exact of_serve hwaiting hw.free hpass hserve

/-- After a boost only the other threads can be ahead. -/
theorem of_boostDue (hw : s.Waits p) (hp : s.Placed .mlfq) (hc : s.Covered .mlfq)
    (hlt : s.allocated < 65536) (hdue : s.BoostDue) (hin : p ∈ s.afoot)
    (hpass : s'.running ≠ some p) (hok : s.schedule .mlfq = .ok s') :
    ∃ m, m + 1 < s.afoot.card ∧ s'.AheadOf p m := by
  obtain ⟨-, hafoot, -⟩ := assembled_eq hp hc hlt
  rw [← hafoot, afoot_eq_queued (s := s.assembled) rfl rfl] at hin ⊢
  rw [card_queued (show s.assembled.HasLines s.joined from .withLines _ _)]
  obtain ⟨level, hlevel, hmem⟩ := mem_queued.mp hin
  have hlevel : level ∈ 0 :: [1, 2, 3] := by
    simp only [QUEUE_LEVELS] at hlevel
    simp
    omega
  rw [schedule_mlfq_eq hp hc hlt] at hok
  unfold mlfqRound at hok
  split at hok
  · cases hok
  · next next rest hserve =>
    cases hok
    have hahead : Levels.Ahead s.waiting p (((0 :: [1, 2, 3]).flatMap s.joined).length - 1) := by
      have hwaiting : s.waiting = s.joined.gather [1, 2, 3] := if_pos hdue
      rw [hwaiting]
      exact .of_gather hlevel hmem
    obtain ⟨m, hm, h⟩ := of_serve hahead hw.free hpass hserve
    exact ⟨m, by omega, h⟩

end AheadOf

/-! ## Bounds on the wait -/

/-- What a run from a reachable state has behind it. -/
theorem reachable_append {ok : Machine → Event → Prop} {s₀ : Machine}
    (h₀ : Execution (Machine.exec policy) (fun _ _ => True) (initLibrary garbage) es₀ s₀)
    (h : Execution (Machine.exec policy) ok s₀ es s) :
    Execution (Machine.exec policy) (fun _ _ => True) (initLibrary garbage) (es₀ ++ es) s :=
  h₀.append h (fun _ _ _ => trivial) fun _ _ _ => trivial

/-- Along a run those ahead and the rounds that have passed are together at most `n`. -/
theorem AheadOf.of_execution {s₀ : Machine} (ha : s₀.AheadOf p n) (hw : s₀.Waits p)
    (h₀ : Execution (Machine.exec .mlfq) (fun _ _ => True) (initLibrary garbage) es₀ s₀)
    (h : Execution (Machine.exec .mlfq) (Passes .mlfq p) s₀ es s)
    (hn : (es₀ ++ es).countP creates < 65535) :
    s.Waits p ∧ ∃ m, m + es.countP rounds ≤ n ∧ s.AheadOf p m := by
  induction h with
  | start => exact ⟨hw, n, by simp, ha⟩
  | @snoc es s s' e h hpass hok ih =>
    rw [← List.append_assoc, List.countP_append] at hn
    obtain ⟨hw, m, hm, ha⟩ := ih (by omega)
    have hreach := reachable_append h₀ h
    have hp := placed_of_execution hreach
    have hlt := allocated_lt hreach (by omega)
    refine ⟨hw.exec hp hpass hok, ?_⟩
    rw [List.countP_append]
    by_cases he : e = .schedule
    · subst he
      obtain ⟨k, hk, ha'⟩ := ha.round hw hp (covered_of_execution hreach (by omega)) hlt
        (hpass _ hok) (schedule_of_exec hok)
      refine ⟨k, ?_, ha'⟩
      simp [rounds]
      omega
    · refine ⟨m, ?_, ha.between hp hlt he hok⟩
      have hno : rounds e = false := by cases e <;> simp_all [rounds]
      simp [hno]
      omega

/-- **Bounded waiting.**  A thread that is ready and has at most `n` threads ahead of it in the
first queue, counting those that have arrived, is passed over in at most `n` rounds of
`sched_mlfq`, whoever arrives, yields, blocks or is preempted in the meantime. -/
theorem rounds_le_of_aheadOf {s₀ : Machine}
    (h₀ : Execution (Machine.exec .mlfq) (fun _ _ => True) (initLibrary garbage) es₀ s₀)
    (h : Execution (Machine.exec .mlfq) (Passes .mlfq p) s₀ es s)
    (hn : (es₀ ++ es).countP creates < 65535) (hw : s₀.Waits p) (ha : s₀.AheadOf p n) :
    es.countP rounds ≤ n := by
  obtain ⟨-, m, hm, -⟩ := ha.of_execution hw h₀ h hn
  omega

/-- The main thread makes two others and yields to the first of them. -/
def createTwo : List Event :=
  [.call (.create 100), .proceed 0, .call (.create 200), .proceed 0, .call .yield, .proceed 0,
    .proceed 0, .proceed 0, .schedule]

/-- `rounds_le_of_aheadOf` for the round after the first quantum, in which the second thread is
dispatched and the main thread waits. -/
theorem rounds_le_after_createTwo :
    ∃ s₀ s, Execution (Machine.exec .mlfq) (fun _ _ => True) (initLibrary ⟨0, 0, none⟩)
        createTwo s₀ ∧ Execution (Machine.exec .mlfq) (Passes .mlfq 0) s₀ [.signal, .schedule] s ∧
      [Event.signal, .schedule].countP rounds ≤ 1 := by
  have hseen : (replay (Machine.exec .mlfq) (initLibrary ⟨0, 0, none⟩) createTwo).map (fun s =>
      ((s.allocated, s.running, isBlocked (s.tcbAt 0)), s.levels.join 0 s.qArrival.nodes 0,
        (Execution.replayIf (Machine.exec .mlfq) (fun s e => Passes .mlfq 0 s e) s
          [.signal, .schedule]).map (Except.map running))) =
      .ok ((3, some 1, false), [2, 0], some (.ok (some 2))) := rfl
  obtain ⟨s₀, -, h₀, hobs⟩ := Execution.of_observed hseen
  simp only [Prod.mk.injEq] at hobs
  obtain ⟨⟨hallocated, hrun, hfree⟩, hline, hrest⟩ := hobs
  obtain ⟨s, h, -⟩ := Execution.of_observedIf (fun _ _ => of_decide_eq_true) hrest
  have hw : s₀.Waits 0 := ⟨by rw [hallocated]; decide, by simp [hrun], hfree⟩
  exact ⟨s₀, s, h₀, h, rounds_le_of_aheadOf h₀ h (by decide) hw ⟨[2], [], hline, le_rfl⟩⟩

/-- **After a boost a ready thread waits for each other thread at most once**: a thread that is
ready, enqueued and not ended when a boost is due is passed over in fewer rounds than there are
such threads. -/
theorem rounds_lt_of_boostDue {s₀ : Machine}
    (h₀ : Execution (Machine.exec .mlfq) (fun _ _ => True) (initLibrary garbage) es₀ s₀)
    (hcpu : s₀.cpu = .scheduler) (hdue : s₀.BoostDue)
    (h : Execution (Machine.exec .mlfq) (Passes .mlfq p) s₀ es s)
    (hn : (es₀ ++ es).countP creates < 65535) (hw : s₀.Waits p)
    (hknown : p = mainTcb ∨ s₀.Enqueued p) (hlive : ¬ s₀.Ended p) :
    es.countP rounds < s₀.afoot.card := by
  rw [List.countP_append] at hn
  have hp := placed_of_execution h₀
  have hc := covered_of_execution h₀ (by omega)
  have hlt := allocated_lt h₀ (by omega)
  have hin := (mem_afoot hp hc (endings_of_execution h₀) (by simp [hcpu])).mpr ⟨hknown, hlive⟩
  rcases h.head with ⟨rfl, -⟩ | ⟨e, es, t, rfl, hpass, ht, hrest⟩
  · exact Multiset.card_pos_iff_exists_mem.mpr ⟨p, hin⟩
  have he : e = .schedule := by
    rcases exec_cases ht with ⟨_, hcpu', -⟩ | ⟨he, -⟩ | ⟨_, -, hcpu', -⟩
    · simp [hcpu] at hcpu'
    · exact he
    · simp [hcpu] at hcpu'
  subst he
  obtain ⟨m, hm, ha⟩ := AheadOf.of_boostDue hw hp hc hlt hdue hin (hpass t ht) (schedule_of_exec ht)
  have hfirst : Execution (Machine.exec .mlfq) (fun _ _ => True) (initLibrary garbage)
      (es₀ ++ [.schedule]) t := h₀.snoc trivial ht
  rw [List.countP_cons] at hn
  obtain ⟨-, k, hk, -⟩ := ha.of_execution (hw.exec hp hpass ht) hfirst hrest (by
    simp only [List.countP_append, List.countP_cons, List.countP_nil]
    omega)
  rw [List.countP_cons]
  simp only [rounds, if_true]
  omega

/-- The three threads use up `n` quantums. -/
def useQuantums (n : ℕ) : List Event :=
  createTwo ++ (List.replicate n [Event.signal, .schedule]).flatten ++ [.signal]

set_option maxRecDepth 4000 in
/-- `rounds_lt_of_boostDue` for the three threads after 64 quantums. -/
theorem rounds_lt_after_useQuantums :
    ∃ s₀ s, Execution (Machine.exec .mlfq) (fun _ _ => True) (initLibrary ⟨0, 0, none⟩)
        (useQuantums 63) s₀ ∧ s₀.BoostDue ∧
      Execution (Machine.exec .mlfq) (Passes .mlfq 0) s₀ [.schedule] s ∧
      [Event.schedule].countP rounds < s₀.afoot.card := by
  have hseen : (replay (Machine.exec .mlfq) (initLibrary ⟨0, 0, none⟩) (useQuantums 63)).map
      (fun s => ((s.allocated, s.running, isBlocked (s.tcbAt 0)), (s.cpu, decide s.BoostDue),
        s.history)) =
      .ok ((3, some 1, false), (.scheduler, true), [.enqueued 2, .enqueued 1]) := by
    decide +kernel
  have hnext : (replay (Machine.exec .mlfq) (initLibrary ⟨0, 0, none⟩) (useQuantums 63)).map
      (fun s => (s.exec .mlfq .schedule).map running) = .ok (.ok (some 2)) := by
    decide +kernel
  obtain ⟨s₀, hreplay, h₀, hobs⟩ := Execution.of_observed hseen
  simp only [Prod.mk.injEq, decide_eq_true_eq] at hobs
  obtain ⟨⟨hallocated, hrun, hfree⟩, ⟨hcpu, hdue⟩, hhistory⟩ := hobs
  rw [hreplay] at hnext
  obtain ⟨s, hs, hrunning⟩ := map_eq_ok.mp (Except.ok.inj hnext)
  have hpass : s₀.Passes .mlfq 0 .schedule := fun s' hs' => by
    rw [hs] at hs'
    cases hs'
    simp [hrunning]
  have hw : s₀.Waits 0 := ⟨by rw [hallocated]; decide, by simp [hrun], hfree⟩
  have hlive : ¬ s₀.Ended 0 := by simp [Ended, Finished, hhistory]
  have h := Execution.start.snoc hpass hs
  exact ⟨s₀, s, h₀, hdue, h, rounds_lt_of_boostDue h₀ hcpu hdue h (by decide) hw
    (.inl rfl) hlive⟩

end Machine

end UserLevelOs.Threads
