import UserLevelOs.Threads.Accounts

/-!
# Who is listed in `tcbs`

The wake-ups of the library go through `tcbs`, so a thread that waits must be listed there
while it does not run.  With multilevel queues a thread stays listed until it ends; with the
shortest job first it is taken out to run, and put back by the next round, unless the size of
the list wraps in that round.

## Main definitions

* `Machine.Tracked` — the invariant.
* `Machine.Roomy` — no size of `tcbs` wraps in a round of `sched_psjf`.
* `Machine.Listed` — the thread is listed or runs.

## Main statements

* `Listed.schedule`, `Listed.clean`.
* `tracked_of_execution`.
-/

namespace UserLevelOs.Threads

open UserLevelOs.Lib

namespace Machine

variable {policy : Policy} {s s' : Machine} {p q : TcbPtr} {e : Event}
  {ok : Machine → Event → Prop} {garbage : Garbage} {es : List Event}

/-- The wake-ups reach the thread, or it runs. -/
def Listed (s : Machine) (p : TcbPtr) : Prop := p ∈ s.tcbs.nodes ∨ s.running = some p

/-- With multilevel queues the threads in the queues and the one that runs are listed. -/
structure Tracked (policy : Policy) (s : Machine) : Prop where
  known : ∀ p ∈ s.tcbs.nodes, p < s.allocated
  listed : policy = .mlfq → s.schedulerEntered = true →
    ∀ p ∈ s.queued + s.running.toList, p ∈ s.tcbs.nodes

/-- All threads that a round of `sched_psjf` puts into `tcbs` have room there. -/
def Roomy (policy : Policy) (s : Machine) : Prop :=
  policy = .psjf →
    s.qArrival.nodes.length + s.tcbs.nodes.length + s.running.toList.length ≤ 65536

namespace Tracked

theorem lt_allocated (h : s.Tracked policy) (hp : s.Placed policy) (hq : s.Listed q) :
    q < s.allocated := by
  rcases hq with hq | hq
  · exact h.known q hq
  · exact hp.lt_allocated (Placed.mem_running hq)

end Tracked

/-- A round of `sched_mlfq` begins with all threads listed that wait for the processor or have
had it. -/
theorem Tracked.begins (h : s.Tracked .mlfq) (hp : s.Placed .mlfq) {l : ThreadList}
    (hl : s.schedulerEntered = true ∧ l = s.tcbs ∨
      s.schedulerEntered = false ∧ Inserts s.tcbAt s.running.toList s.tcbs l)
    (hq : s.Listed q ∨ q ∈ s.queued) : q ∈ l.nodes := by
  rcases hl with ⟨he, rfl⟩ | ⟨he, hinserts⟩
  · rcases hq with (hq | hq) | hq
    · exact hq
    · exact h.listed rfl he q (by simp [hq])
    · exact h.listed rfl he q (Multiset.mem_add.mpr (.inl hq))
  · -- only the main thread is there
    obtain ⟨htcbs, -, hrun, hqueued⟩ := hp.unentered he
    have hall := hinserts.exact hp.countedTcbs (by simp [htcbs, hrun])
    have hmain : q = mainTcb := by
      rcases hq with (hq | hq) | hq
      · simp [htcbs] at hq
      · simpa [hrun, eq_comm] using hq
      · simp [hqueued] at hq
    rw [← Multiset.mem_coe, hall]
    simp [hrun, hmain]

namespace Listed

theorem psjf (h : s.Listed q) (hp : s.Placed .psjf) (hroom : s.Roomy .psjf)
    (hok : s.schedPsjf = .ok s') : s'.Listed q := by
  have hlen := hroom rfl
  obtain ⟨xs, qArrival, l, l', first, next, timer, hround, rfl⟩ := schedPsjf_ok hok
  have hcard : xs.card + qArrival.nodes.length ≤ s.qArrival.nodes.length := by
    simpa using Multiset.card_le_card hround.leaves.le
  have hall := hround.inserts.exact hp.countedTcbs (by simp; omega)
  have hq : q ∈ (l.nodes : Multiset TcbPtr) := by
    rw [hall]
    rcases h with hq | hq <;> simp [hq]
  rw [← hround.perm] at hq
  rcases Multiset.mem_cons.mp hq with rfl | hq
  · exact .inr rfl
  · exact .inl hq

/-- A round of the scheduler loses no thread that is listed. -/
theorem schedule (h : s.Listed q) (hp : s.Placed policy) (ht : s.Tracked policy)
    (hroom : s.Roomy policy) (hok : s.schedule policy = .ok s') : s'.Listed q := by
  cases policy with
  | psjf => exact h.psjf hp hroom hok
  | mlfq =>
    obtain ⟨l, t, next, hl, hflow, -, -, -, rfl⟩ := Placed.schedule_mlfq_ok hok
    exact .inl (hflow.keeps q (ht.begins hp hl (.inl h)))

end Listed

/-- A thread other than the one that has ended stays in the list. -/
theorem Removed.mem {l : ThreadList} (h : Removed s p l) (hp : s.Placed policy)
    (hlt : s.allocated < 2 ^ 32) (hpa : p < s.allocated) (hqa : q < s.allocated) (hne : q ≠ p)
    (hq : q ∈ s.tcbs.nodes) : q ∈ l.nodes := by
  cases h with
  | absent => exact hq
  | removed hrem =>
    rw [(removeFrom_ok hrem).2.2, List.mem_eraseP_of_neg]
    · exact hq
    · exact fun heq => hne (hp.threadId_inj hlt hqa hpa (by simpa using heq))

namespace Tracked

theorem own (h : s.Tracked policy) (hown : Own p s s') : s'.Tracked policy where
  known r hr := hown.allocated ▸ h.known r (hown.tcbs ▸ hr)
  listed hpol he := by
    simpa only [queued, hown.allQueue, hown.running, hown.tcbs] using
      h.listed hpol (hown.schedulerEntered ▸ he)

theorem schedule (h : s.Tracked policy) (hp : s.Placed policy) (hok : s.schedule policy = .ok s') :
    s'.Tracked policy := by
  cases policy with
  | psjf =>
    have hp' := hp.psjf hok
    exact ⟨fun r hr => hp'.lt_allocated (by simp [pool, ready, hr]), by simp⟩
  | mlfq =>
    have hround := hp.rescheduled hok
    have hp' := hp.mlfq hok
    obtain ⟨l, t, next, hl, hflow, -, hnext, -, rfl⟩ := Placed.schedule_mlfq_ok hok
    refine ⟨fun r hr => ?_, fun _ _ r hr => ?_⟩
    · -- whoever is listed was listed before, has arrived or ran
      have hin : r ∈ (s.qArrival.nodes : Multiset TcbPtr) + l.nodes :=
        Multiset.mem_of_le hflow.listed (Multiset.mem_add.mpr (.inr hr))
      rw [hround.allocated]
      rcases Multiset.mem_add.mp hin with hr | hr
      · exact hp.lt_allocated (by simp [pool, Multiset.mem_coe.mp hr])
      · rcases hl with ⟨-, rfl⟩ | ⟨-, hinserts⟩
        · exact h.known r hr
        · rcases Multiset.mem_add.mp (Multiset.mem_of_le hinserts.le hr) with hr | hr
          · exact hp.lt_allocated (by simp [pool, Multiset.mem_coe.mp hr])
          · exact h.known r hr
    · have hr' : r ∈ t.queued + t.running.toList := by
        rw [hnext]
        exact hr
      rcases hflow.enters r hr' with hr | hr
      · refine hflow.keeps r (h.begins hp hl ?_)
        rcases Multiset.mem_add.mp hr with hr | hr
        · exact .inr hr
        · exact .inl (.inr (by simpa [eq_comm] using hr))
      · exact hr

theorem clean (h : s.Tracked policy) (hp : s.Placed policy) (hlt : s.allocated < 2 ^ 32)
    (hrun : s.running = some p) (hok : s.cleanExitedWorkerThread p = .ok s') :
    s'.Tracked policy := by
  obtain ⟨l, notes, hremoved, -, rfl⟩ := cleanExitedWorkerThread_ok hok
  have hpa := hp.lt_allocated (Placed.mem_running hrun)
  refine ⟨fun r hr => h.known r (hremoved.sublist.subset hr), fun hpol he r hr => ?_⟩
  subst hpol
  have hr' : r ∈ s.queued := by
    change r ∈ s.queued + 0 at hr
    simpa using hr
  have hne : r ≠ p := fun heq => (hp.not_mem_of_running hrun).2.1 (heq ▸ hr')
  have hin := h.listed rfl he r (Multiset.mem_add.mpr (.inl hr'))
  exact hremoved.mem hp hlt hpa (h.known r hin) hne hin

theorem exec (h : s.Tracked policy) (hp : s.Placed policy) (hlt : s.allocated < 2 ^ 32)
    (hok : s.exec policy e = .ok s') : s'.Tracked policy := by
  rcases exec_cases hok with ⟨p, -, -, hok⟩ | ⟨-, -, hok⟩ | ⟨p, -, -, hrun, hok⟩
  · rcases execThread_cases hok with ⟨thread, -, -, rfl⟩ | ⟨_, q, -, -, rfl⟩ | ⟨-, -, -, rfl⟩ | hown
    · exact ⟨fun r hr => Nat.lt_succ_of_lt (h.known r hr), h.listed⟩
    · exact ⟨h.known, h.listed⟩
    · exact ⟨h.known, h.listed⟩
    · exact h.own hown
  · exact h.schedule hp hok
  · exact h.clean hp hlt hrun hok

end Tracked

/-- What the invariants need of a run as long as the numbers of threads do not wrap. -/
theorem tracked_of_execution (h : Execution (Machine.exec policy) ok (initLibrary garbage) es s)
    (hn : es.countP creates < 2 ^ 32 - 1) : s.Tracked policy := by
  refine h.invariant_of_count hn ⟨by simp [initLibrary], by simp [initLibrary]⟩
    fun es s e s' hes hcount hs _ hok => ?_
  rw [List.countP_append] at hcount
  have hlt : s.allocated < 2 ^ 32 := by
    rw [allocated_of_execution hes]
    omega
  exact hs.exec (placed_of_execution hes) hlt hok

/-- The cleanup takes nobody out of the list but the thread that has ended. -/
theorem Listed.clean (h : s.Listed q) (hp : s.Placed policy) (ht : s.Tracked policy)
    (hlt : s.allocated < 2 ^ 32) (hrun : s.running = some p) (hne : q ≠ p)
    (hok : s.cleanExitedWorkerThread p = .ok s') : s'.Listed q := by
  have hqa := ht.lt_allocated hp h
  obtain ⟨l, notes, hremoved, -, rfl⟩ := cleanExitedWorkerThread_ok hok
  have hin : q ∈ s.tcbs.nodes := h.resolve_right fun heq => hne (by simpa [hrun, eq_comm] using heq)
  exact .inl (hremoved.mem hp hlt (hp.lt_allocated (Placed.mem_running hrun)) hqa hne hin)

end Machine

end UserLevelOs.Threads
