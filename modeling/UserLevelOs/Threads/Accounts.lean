import UserLevelOs.Threads.Places

/-!
# Every thread is accounted for

The threads that have finished are those in `ended_tcbs`, and as long as the sizes of the lists
cannot wrap every thread that was enqueued is somewhere.

## Main definitions

* `Machine.Finished`, `Machine.Endings` — the threads whose function has returned.
* `Machine.Settled` — in a round of `sched_mlfq` the queues and `tcbs` agree.
* `Machine.Covered` — no thread is lost.

## Main statements

* `endings_of_execution`.
* `covered_of_execution` — with fewer than 65535 threads created.
-/

namespace UserLevelOs.Threads

open UserLevelOs.Lib

namespace Machine

variable {policy : Policy} {s s' : Machine} {p q : TcbPtr} {e : Event} {v : Value}
  {ok : Machine → Event → Prop} {garbage : Garbage} {es : List Event}

/-! ## Ended threads -/

/-- The function of the thread has returned. -/
def Finished (s : Machine) (p : TcbPtr) (v : Value) : Prop := .finished p v ∈ s.history

/-- A thread that has finished is in `ended_tcbs`, or about to be put there, and what it
returned stays in its block. -/
structure Endings (s : Machine) : Prop where
  noted : ∀ p v, s.Finished p v → (s.tcbAt p).retValue = v ∧
    (p ∈ s.endedTcbs.nodes ∨ s.cpu = .cleanup ∧ s.running = some p)
  ended : ∀ p ∈ s.endedTcbs.nodes, s.Finished p (s.tcbAt p).retValue
  cleaning : s.cpu = .cleanup → ∀ p, s.running = some p → s.Finished p (s.tcbAt p).retValue

namespace Endings

/-- A thread that runs has not finished. -/
theorem not_finished (h : s.Endings) (hp : s.Placed policy) (hrun : s.running = some p)
    (hcpu : s.cpu = .thread) : ¬ s.Finished p v := by
  intro hfin
  rcases (h.noted p v hfin).2 with hin | ⟨hclean, -⟩
  · exact (hp.not_mem_of_running hrun).2.2 hin
  · rw [hcpu] at hclean
    cases hclean

/-- Outside of the cleanup the threads that have finished are those in the list. -/
theorem finished_iff (h : s.Endings) (hcpu : s.cpu ≠ .cleanup) :
    (∃ v, s.Finished p v) ↔ p ∈ s.endedTcbs.nodes := by
  constructor
  · rintro ⟨v, hfin⟩
    exact (h.noted p v hfin).2.resolve_right fun hclean => hcpu hclean.1
  · exact fun hin => ⟨_, h.ended p hin⟩

theorem finished_own (hown : Own p s s') : s'.Finished q v ↔ s.Finished q v := by
  obtain ⟨notes, hnotes, htells⟩ := hown.history
  have hout : .finished q v ∉ notes := fun hmem => htells _ hmem
  simp [Finished, hnotes, hout]

theorem own (h : s.Endings) (hp : s.Placed policy) (hrun : s.running = some p)
    (hcpu : s.cpu = .thread) (hown : Own p s s') : s'.Endings := by
  have hret : ∀ q ≠ p, (s'.tcbAt q).retValue = (s.tcbAt q).retValue := fun q hq => by
    rcases hown.other q hq with hsame | hsame <;> simp [hsame]
  refine ⟨fun q v hq => ?_, fun q hq => ?_, fun hclean => ?_⟩
  · rw [finished_own hown] at hq
    have hne : q ≠ p := fun heq => h.not_finished hp hrun hcpu (heq ▸ hq)
    obtain ⟨hval, hin⟩ := h.noted q v hq
    refine ⟨(hret q hne).trans hval, .inl ?_⟩
    rw [hown.endedTcbs]
    exact hin.resolve_right fun hclean => by simp [hcpu] at hclean
  · rw [hown.endedTcbs] at hq
    have hne : q ≠ p := fun heq => (hp.not_mem_of_running hrun).2.2 (heq ▸ hq)
    rw [finished_own hown, hret q hne]
    exact h.ended q hq
  · rcases hown.cpu with hsame | hsame <;> simp_all

theorem exec (h : s.Endings) (hp : s.Placed policy) (hok : s.exec policy e = .ok s') :
    s'.Endings := by
  rcases exec_cases hok with ⟨p, hcpu, hrun, hok⟩ | ⟨-, hcpu, hok⟩ | ⟨p, -, hcpu, hrun, hok⟩
  · have hnot : s.cpu ≠ .cleanup := by simp [hcpu]
    rcases execThread_cases hok with ⟨thread, -, -, rfl⟩ | ⟨_, q, -, hctl, rfl⟩ |
      ⟨-, hctl, hmain, rfl⟩ | hown
    · -- the new block is not that of a thread that has ended
      have hold : ∀ q ∈ s.endedTcbs.nodes, (s.workerCreate p thread).tcbAt q = s.tcbAt q :=
        fun q hq => by
          have hlt : q < s.allocated := hp.lt_allocated (by simp [pool, hq])
          simp [workerCreate, hlt.ne]
      refine ⟨fun q v hq => ?_, fun q hq => ?_, fun hclean => absurd hclean hnot⟩
      · have hin := (h.finished_iff hnot).mp ⟨v, hq⟩
        exact ⟨by rw [hold q hin, (h.noted q v hq).1], .inl hin⟩
      · rw [hold q hq]
        exact h.ended q hq
    · have hiff : ∀ r v, (s.enqueueCreated p q).Finished r v ↔ s.Finished r v := fun r v => by
        simp [enqueueCreated, Finished]
      refine ⟨fun r v hr => h.noted r v ((hiff r v).mp hr), fun r hr => ?_,
        fun hclean => absurd hclean hnot⟩
      exact (hiff _ _).mpr (h.ended r hr)
    · refine ⟨fun r v hr => ?_, fun r hr => List.mem_cons_of_mem _ (h.ended r hr), fun _ r hr => ?_⟩
      · change (s.tcbAt r).retValue = v ∧ (r ∈ s.endedTcbs.nodes ∨ Cpu.cleanup = .cleanup ∧ _)
        rcases List.mem_cons.mp hr with heq | hr
        · cases heq
          exact ⟨rfl, .inr ⟨rfl, hrun⟩⟩
        · exact ⟨(h.noted r v hr).1, .inl ((h.finished_iff hnot).mp ⟨v, hr⟩)⟩
      · have heq : r = p := by simpa [hrun, eq_comm] using hr
        subst heq
        exact List.mem_cons_self
    · exact h.own hp hrun hcpu hown
  · have hround := hp.rescheduled hok
    have hnot : s.cpu ≠ .cleanup := by simp [hcpu]
    refine ⟨fun r v hr => ?_, fun r hr => ?_, fun hclean => by simp [hround.cpu] at hclean⟩
    · rw [Finished, hround.history] at hr
      rw [hround.retValue, hround.endedTcbs]
      exact ⟨(h.noted r v hr).1, .inl ((h.finished_iff hnot).mp ⟨v, hr⟩)⟩
    · rw [Finished, hround.history, hround.retValue]
      exact h.ended r (hround.endedTcbs ▸ hr)
  · obtain ⟨l, notes, -, hstores, rfl⟩ := cleanExitedWorkerThread_ok hok
    have hret : ∀ r, (woken s.tcbAt (s.tcbAt p).threadId l.nodes r).retValue =
        (s.tcbAt r).retValue := fun r => by rw [woken_eq]
    have hiff : ∀ r v, .finished r v ∈ notes ++ s.history ↔ s.Finished r v := fun r v => by
      have hout : .finished r v ∉ notes := fun hmem => by
        obtain ⟨_, _, _, heq⟩ := hstores.only _ hmem
        cases heq
      simp [Finished, hout]
    refine ⟨fun r v hr => ?_, fun r hr => ?_, by simp⟩
    · obtain ⟨hval, hin⟩ := h.noted r v ((hiff r v).mp hr)
      refine ⟨(hret r).trans hval, .inl ?_⟩
      rcases hin with hin | ⟨-, hr⟩
      · exact List.mem_cons_of_mem _ hin
      · have heq : p = r := by simpa [hrun] using hr
        exact heq ▸ List.mem_cons_self
    · refine (hiff _ _).mpr ?_
      rw [hret]
      rcases List.mem_cons.mp hr with rfl | hr
      · exact h.cleaning hcpu r hrun
      · exact h.ended r hr

end Endings

theorem endings_of_execution (h : Execution (Machine.exec policy) ok (initLibrary garbage) es s) :
    s.Endings := by
  have hinit : (initLibrary garbage).Endings := by
    constructor <;> simp [initLibrary, Finished]
  have hboth : s.Placed policy ∧ s.Endings :=
    h.invariant (I := fun s => s.Placed policy ∧ s.Endings) ⟨Placed.init policy garbage, hinit⟩
      fun _ _ _ hs _ hok => ⟨hs.1.exec hok, hs.2.exec hs.1 hok⟩
  exact hboth.2

/-! ## No thread is lost -/

/-- The event makes a thread. -/
def creates : Event → Bool
  | .call (.create _) => true
  | _ => false

theorem allocated_exec (hp : s.Placed policy) (hok : s.exec policy e = .ok s') :
    s'.allocated = s.allocated + if creates e then 1 else 0 := by
  rcases exec_cases hok with ⟨p, -, -, hok⟩ | ⟨rfl, -, hok⟩ | ⟨p, rfl, -, -, hok⟩
  · by_cases hc : creates e = true
    · cases e with
      | call c =>
        cases c with
        | create thread =>
          simp only [execThread] at hok
          split at hok
          · cases hok
            rfl
          · cases hok
        | _ => simp [creates] at hc
      | _ => simp [creates] at hc
    · rcases execThread_cases hok with ⟨thread, rfl, -, rfl⟩ | ⟨_, q, rfl, -, rfl⟩ |
        ⟨rfl, -, -, rfl⟩ | hown
      · simp [creates] at hc
      · simp [creates, enqueueCreated]
      · simp [creates]
      · simpa [hc] using hown.allocated
  · simpa [creates] using (hp.rescheduled hok).allocated
  · obtain ⟨l, notes, -, -, rfl⟩ := cleanExitedWorkerThread_ok hok
    simp [creates]

/-- The blocks are that of the main thread and one for each creation. -/
theorem allocated_of_execution
    (h : Execution (Machine.exec policy) ok (initLibrary garbage) es s) :
    s.allocated = 1 + es.countP creates := by
  induction h with
  | start => rfl
  | snoc h _ hok ih =>
    rw [allocated_exec (placed_of_execution h) hok, ih, List.countP_append,
      List.countP_singleton, Nat.add_assoc]

theorem allocated_lt (h : Execution (Machine.exec policy) ok (initLibrary garbage) es s)
    (hn : es.countP creates < 65535) : s.allocated < 65536 := by
  rw [allocated_of_execution h]
  omega

/-- A thread that does not exist yet is nowhere in the library. -/
theorem ctl_of_execution (h : Execution (Machine.exec policy) ok (initLibrary garbage) es s)
    (hq : s.allocated ≤ q) : s.ctl q = .program := by
  induction h generalizing q with
  | start => rfl
  | @snoc es s s' e h _ hok ih =>
    have hp := placed_of_execution h
    have hle : s.allocated ≤ s'.allocated := by
      rw [allocated_exec hp hok]
      exact Nat.le_add_right _ _
    have hold := ih (hle.trans hq)
    rcases exec_cases hok with ⟨p, -, hrun, hok⟩ | ⟨-, -, hok⟩ | ⟨p, -, -, -, hok⟩
    · have hne : q ≠ p := fun heq =>
        absurd (hp.lt_allocated (Placed.mem_running hrun)) (heq ▸ (hle.trans hq).not_gt)
      rcases execThread_cases hok with ⟨thread, -, -, rfl⟩ | ⟨_, r, -, -, rfl⟩ | ⟨-, -, -, rfl⟩ | hown
      · simpa [workerCreate, hne] using hold
      · simpa [enqueueCreated, hne] using hold
      · exact hold
      · rw [hown.ctl q hne, hold]
    · rw [(hp.rescheduled hok).ctl, hold]
    · obtain ⟨l, notes, -, -, rfl⟩ := cleanExitedWorkerThread_ok hok
      exact hold

/-- In a round of `sched_mlfq` the two accounts agree and no size can wrap. -/
structure Settled (s : Machine) : Prop where
  counted : s.AllCounted
  countedTcbs : Counted s.tcbs.size s.tcbs.nodes
  room : s.afoot.card < 65536
  agree : (s.tcbs.nodes : Multiset TcbPtr) = s.queued + s.running.toList

theorem Settled.flow (h : s.Settled) (hflow : Flow s s') : s'.Settled := by
  obtain ⟨hafoot, hlisted⟩ := hflow.exact h.counted h.room
  refine ⟨hflow.counted h.counted, hflow.countedTcbs h.countedTcbs, hafoot ▸ h.room, ?_⟩
  have hsum : (s'.qArrival.nodes : Multiset TcbPtr) + s'.tcbs.nodes =
      s'.qArrival.nodes + (s'.queued + s'.running.toList) := calc
    _ = s.qArrival.nodes + (s.queued + s.running.toList) := by rw [hlisted, h.agree]
    _ = s.afoot := (add_assoc _ _ _).symm
    _ = s'.afoot := hafoot.symm
    _ = _ := add_assoc _ _ _
  exact add_left_cancel hsum

/-- No thread is lost, and with multilevel queues those listed in `tcbs` are those in the
queues and the one that runs. -/
structure Covered (policy : Policy) (s : Machine) : Prop where
  main : mainTcb ∈ s.pool policy
  enqueued : ∀ p, s.Enqueued p → p ∈ s.pool policy
  listed : policy = .mlfq → s.schedulerEntered = true →
    (s.tcbs.nodes : Multiset TcbPtr) = s.queued + s.running.toList

namespace Placed

theorem distinct_of_nodup (h : s.Placed policy) (hlt : s.allocated < 2 ^ 32) {ps : List TcbPtr}
    (hnd : ps.Nodup) (hmem : ∀ r ∈ ps, r < s.allocated) : Distinct s.tcbAt ps :=
  List.Pairwise.imp_of_mem (fun ha hb hne heq =>
    hne (h.threadId_inj hlt (hmem _ ha) (hmem _ hb) heq)) hnd

theorem length_le (h : s.Placed policy) (hlt : s.allocated < 65536) :
    s.qArrival.nodes.length + (s.ready policy).card + s.endedTcbs.nodes.length +
      s.running.toList.length < 65536 := by
  have hle := h.card_le
  simp only [pool, Multiset.card_add, Multiset.coe_card] at hle
  omega

theorem afoot_card (h : s.Placed .mlfq) (hlt : s.allocated < 65536) : s.afoot.card < 65536 := by
  have hle := h.length_le hlt
  simp only [ready, afoot, Multiset.card_add, Multiset.coe_card] at hle ⊢
  omega

/-- No size of `tcbs` wraps in a round of `sched_psjf`. -/
theorem psjf_length_le (h : s.Placed .psjf) (hlt : s.allocated < 65536) :
    s.qArrival.nodes.length + s.tcbs.nodes.length + s.running.toList.length < 65536 := by
  have hle := h.length_le hlt
  simp only [ready, Multiset.coe_card] at hle
  omega

/-- A round of `sched_psjf` loses no thread. -/
theorem pool_psjf (h : s.Placed .psjf) (hlt : s.allocated < 65536) (hok : s.schedPsjf = .ok s') :
    s'.pool .psjf = s.pool .psjf := by
  have hroom := h.length_le hlt
  obtain ⟨xs, q, l, l', first, next, timer, hround, rfl⟩ := schedPsjf_ok hok
  have hleaves := hround.leaves.exact h.counted.1 (by omega)
  have hcard : xs.card + q.nodes.length = s.qArrival.nodes.length := by
    simpa using congrArg Multiset.card hleaves
  have hinserts := hround.inserts.exact h.countedTcbs (by simp [ready] at hroom ⊢; omega)
  calc
    _ = (q.nodes : Multiset TcbPtr) + l'.nodes + s.endedTcbs.nodes + {next} := rfl
    _ = q.nodes + (next ::ₘ l'.nodes) + s.endedTcbs.nodes := by
      rw [← Multiset.singleton_add]
      abel
    _ = q.nodes + (xs + s.running.toList + s.tcbs.nodes) + s.endedTcbs.nodes := by
      rw [hround.perm, hinserts]
    _ = xs + q.nodes + s.tcbs.nodes + s.endedTcbs.nodes + s.running.toList := by abel
    _ = s.pool .psjf := by rw [hleaves]; rfl

/-- A round of `sched_mlfq` loses no thread. -/
theorem pool_mlfq (h : s.Placed .mlfq) (hlt : s.allocated < 65536)
    (hok : s.schedule .mlfq = .ok s') : s'.pool .mlfq = s.pool .mlfq := by
  obtain ⟨l, t, next, -, hflow, -, hnext, -, rfl⟩ := schedule_mlfq_ok hok
  have hsame : t.afoot = s.afoot := (hflow.exact h.counted (h.afoot_card hlt)).1
  have hended : t.endedTcbs = s.endedTcbs := by rw [hflow.frame]
  calc
    (t.dispatch next).pool .mlfq = t.pool .mlfq := by
      simp only [pool, dispatch, hnext]
      rfl
    _ = s.pool .mlfq := by rw [pool_mlfq_eq, pool_mlfq_eq, hsame, hended]

/-- The running thread leaves for `ended_tcbs`. -/
theorem pool_clean (h : s.Placed policy) (hlt : s.allocated < 65536) (hrun : s.running = some p)
    (hok : s.cleanExitedWorkerThread p = .ok s') : s'.pool policy = s.pool policy := by
  obtain ⟨l, notes, hremoved, -, rfl⟩ := cleanExitedWorkerThread_ok hok
  have hsame : ∀ ps : Multiset TcbPtr, (s.qArrival.nodes : Multiset TcbPtr) + ps +
      (p ::ₘ s.endedTcbs.nodes) + 0 = s.qArrival.nodes + ps + s.endedTcbs.nodes + {p} := fun ps => by
    rw [← Multiset.singleton_add]
    abel
  have hpool : s.pool policy =
      s.qArrival.nodes + s.ready policy + s.endedTcbs.nodes + {p} := by simp [pool, hrun]
  rw [hpool]
  cases policy with
  | psjf =>
    cases hremoved with
    | absent _ => exact hsame _
    | @removed q l hrem =>
      -- the thread taken out would be `p` itself, which runs
      obtain ⟨hmem, hid⟩ := contains_eq_some (removeFrom_ok hrem).1
      have hq : q < s.allocated := h.lt_allocated (by simp [pool, ready, hmem])
      have heq := h.threadId_inj (by omega) hq (h.lt_allocated (mem_running hrun)) hid
      exact absurd (heq ▸ Multiset.mem_coe.mpr hmem) (h.not_mem_of_running hrun).2.1
  | mlfq => exact hsame _

/-- The thread that has been made is added. -/
theorem pool_enqueueCreated (h : s.Placed policy) (hlt : s.allocated < 65536) :
    (s.enqueueCreated p q).pool policy = q ::ₘ s.pool policy := by
  have hroom := h.length_le hlt
  calc
    _ = ((enqueue s.qArrival q).nodes : Multiset TcbPtr) + s.ready policy + s.endedTcbs.nodes +
        s.running.toList := by cases policy <;> rfl
    _ = (s.qArrival.nodes + {q}) + s.ready policy + s.endedTcbs.nodes + s.running.toList := by
      rw [enqueue_nodes h.counted.1 (by omega), ← Multiset.coe_add, Multiset.coe_singleton]
    _ = q ::ₘ s.pool policy := by
      rw [← Multiset.singleton_add]
      unfold pool
      abel

end Placed

namespace Covered

/-- Enough for a step that neither makes a thread known nor touches the lists. -/
theorem of_eq (h : s.Covered policy) (hpool : s'.pool policy = s.pool policy)
    (henq : ∀ r, s'.Enqueued r → s.Enqueued r)
    (hlisted : policy = .mlfq → s'.schedulerEntered = true →
      (s'.tcbs.nodes : Multiset TcbPtr) = s'.queued + s'.running.toList) : s'.Covered policy where
  main := hpool ▸ h.main
  enqueued r hr := hpool ▸ h.enqueued r (henq r hr)
  listed := hlisted

theorem enqueueCreated (h : s.Covered policy) (hp : s.Placed policy)
    (hlt : s.allocated < 65536) : (s.enqueueCreated p q).Covered policy where
  main := by
    rw [hp.pool_enqueueCreated hlt]
    exact Multiset.mem_cons_of_mem h.main
  enqueued r hr := by
    rw [hp.pool_enqueueCreated hlt]
    rcases List.mem_cons.mp hr with heq | hr
    · cases heq
      exact Multiset.mem_cons_self _ _
    · exact Multiset.mem_cons_of_mem (h.enqueued r hr)
  listed := h.listed

/-- A round of `sched_mlfq` starts with accounts that agree. -/
theorem settled (h : s.Covered .mlfq) (hp : s.Placed .mlfq) (hlt : s.allocated < 65536)
    {l : ThreadList} (hl : s.schedulerEntered = true ∧ l = s.tcbs ∨
      s.schedulerEntered = false ∧ Inserts s.tcbAt s.running.toList s.tcbs l) :
    ({ s with tcbs := l } : Machine).Settled := by
  refine ⟨hp.counted, ?_, hp.afoot_card hlt, ?_⟩
  · rcases hl with ⟨-, rfl⟩ | ⟨-, hinserts⟩
    · exact hp.countedTcbs
    · exact hinserts.counted hp.countedTcbs
  · rcases hl with ⟨he, rfl⟩ | ⟨he, hinserts⟩
    · exact h.listed rfl he
    · -- the first time no thread is listed and only the main thread is there
      obtain ⟨htcbs, -, hrun, hqueued⟩ := hp.unentered he
      change (l.nodes : Multiset TcbPtr) = s.queued + s.running.toList
      simpa [htcbs, hqueued, hrun] using hinserts.exact hp.countedTcbs (by simp [htcbs, hrun])

theorem mlfq (h : s.Covered .mlfq) (hp : s.Placed .mlfq) (hlt : s.allocated < 65536)
    (hok : s.schedule .mlfq = .ok s') : s'.Covered .mlfq := by
  have hround := hp.rescheduled hok
  refine h.of_eq (hp.pool_mlfq hlt hok) (fun r hr => by rwa [Enqueued, ← hround.history])
    fun _ _ => ?_
  obtain ⟨l, t, next, hl, hflow, -, hnext, -, rfl⟩ := Placed.schedule_mlfq_ok hok
  have hagree := ((h.settled hp hlt hl).flow hflow).agree
  rw [hnext] at hagree
  exact hagree

theorem clean (h : s.Covered policy) (hp : s.Placed policy) (hlt : s.allocated < 65536)
    (hrun : s.running = some p) (hok : s.cleanExitedWorkerThread p = .ok s') :
    s'.Covered policy := by
  have hpool := hp.pool_clean hlt hrun hok
  obtain ⟨l, notes, hremoved, hstores, rfl⟩ := cleanExitedWorkerThread_ok hok
  refine h.of_eq hpool (fun r hr => ?_) fun hpol he => ?_
  · rcases List.mem_append.mp hr with hr | hr
    · obtain ⟨_, _, _, heq⟩ := hstores.only _ hr
      cases heq
    · exact hr
  · subst hpol
    have hlisted : (s.tcbs.nodes : Multiset TcbPtr) = p ::ₘ s.queued := by
      rw [h.listed rfl he, hrun, add_comm]
      rfl
    have hsub : (s.tcbs.nodes : Multiset TcbPtr) ≤ s.pool .mlfq := by
      have hle : s.queued + s.running.toList ≤ s.pool .mlfq := by
        unfold pool ready
        exact add_le_add_left (Multiset.le_add_right _ _ |>.trans' (Multiset.le_add_left _ _)) _
      rwa [h.listed rfl he]
    have hd : Distinct s.tcbAt s.tcbs.nodes := hp.distinct_of_nodup (by omega)
      (Multiset.coe_nodup.mp (Multiset.nodup_of_le hsub hp.nodup))
      fun r hr => hp.lt_allocated (Multiset.mem_of_le hsub hr)
    have hin : p ∈ s.tcbs.nodes := by simp [← Multiset.mem_coe, hlisted]
    have herase := hremoved.nodes_eq hd hin
    change (l.nodes : Multiset TcbPtr) = s.queued + 0
    rw [herase, ← Multiset.coe_erase, hlisted]
    simp

theorem exec (h : s.Covered policy) (hp : s.Placed policy) (hlt : s.allocated < 65536)
    (hok : s.exec policy e = .ok s') : s'.Covered policy := by
  rcases exec_cases hok with ⟨p, hcpu, hrun, hok⟩ | ⟨-, hcpu, hok⟩ | ⟨p, -, hcpu, hrun, hok⟩
  · rcases execThread_cases hok with ⟨thread, -, -, rfl⟩ | ⟨_, q, -, hctl, rfl⟩ |
      ⟨-, hctl, hmain, rfl⟩ | hown
    · exact h.of_eq rfl (fun _ hr => hr) h.listed
    · exact h.enqueueCreated hp hlt
    · refine h.of_eq rfl (fun r hr => ?_) h.listed
      simpa [Enqueued] using hr
    · refine h.of_eq (Placed.pool_own hown) (fun r => (Placed.enqueued_own hown).mp) ?_
      simpa only [hown.tcbs, hown.running, hown.schedulerEntered, queued, hown.allQueue] using h.listed
  · cases policy with
    | psjf =>
      have hround := hp.rescheduled hok
      exact h.of_eq (hp.pool_psjf hlt hok) (fun r hr => by rwa [Enqueued, ← hround.history]) (by simp)
    | mlfq => exact h.mlfq hp hlt hok
  · exact h.clean hp hlt hrun hok

end Covered

/-- As long as fewer threads are made than an `unsigned short` can count, none is lost. -/
theorem covered_of_execution (h : Execution (Machine.exec policy) ok (initLibrary garbage) es s)
    (hn : es.countP creates < 65535) : s.Covered policy := by
  refine h.invariant_of_count hn ⟨?_, ?_, ?_⟩ fun es s e s' hes hcount hs _ hok => ?_
  · cases policy <;> simp [pool, initLibrary]
  · simp [Enqueued, initLibrary]
  · simp [initLibrary]
  · rw [List.countP_append] at hcount
    exact hs.exec (placed_of_execution hes) (allocated_lt hes (by omega)) hok

end Machine

end UserLevelOs.Threads
