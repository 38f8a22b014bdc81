import UserLevelOs.Threads.Preemption
import UserLevelOs.Threads.Dispatch
import UserLevelOs.Threads.Sizes

/-!
# Tearing the library down

`cleanup_library` runs when the process exits.  It gives back the block of the thread that runs
and those of `ended_tcbs`, and asserts that nothing is left in the lists.  In every run with fewer
than 65535 threads made it gets through exactly if the main thread exits after all others have
ended and all mutexes have been destroyed; then every block has been freed once and no signal of
the timer can come.

## Main definitions

* `cleanupLibrary`.
* `Machine.Orderly` — what it rests on.

## Main statements

* `orderly_of_execution`.
* `cleanupLibrary_of_execution`.
-/

namespace UserLevelOs.Threads

open UserLevelOs.Lib

/-! ## `cleanup_library` -/

inductive TeardownFault
  /-- `remove_from(tcbs, MAIN_THREAD)` fails. -/
  | removeMain (f : Fault)
  /-- `running` is `NULL`. -/
  | nobody
  | doubleFree
  | arrivalsEmpty
  | tcbsEmpty
  | endedEmpty
  | mutexesEmpty
  deriving DecidableEq, Repr

/-- `free` of a block and what it points to; the argument and the result are the blocks that have
been freed, the last first. -/
def freeTcb (freed : List TcbPtr) (p : TcbPtr) : Except TeardownFault (List TcbPtr) :=
  if p ∈ freed then .error .doubleFree else .ok (p :: freed)

/-- The loop over `ended_tcbs`. -/
def freeEnded : List TcbPtr → UInt16 → List TcbPtr → Except TeardownFault (UInt16 × List TcbPtr)
  | [], size, freed => .ok (size, freed)
  | temp :: rest, size, freed => do
    let freed ← freeTcb freed temp
    freeEnded rest (size - 1) freed

def expect (c : Bool) (f : TeardownFault) : Except TeardownFault Unit :=
  if c then .ok () else .error f

namespace Machine

/-- The `tcbs` that `cleanup_library` looks at. -/
def tcbsAtExit (policy : Policy) (s : Machine) : Except TeardownFault ThreadList :=
  match policy with
  | .psjf => .ok s.tcbs
  | .mlfq =>
    match removeFrom s.tcbAt s.tcbs MAIN_THREAD with
    | .ok (_, tcbs) => .ok tcbs
    | .error f => .error (.removeMain f)

/-- Gives the blocks that have been freed. -/
def cleanupLibrary (policy : Policy) (s : Machine) : Except TeardownFault (List TcbPtr) := do
  let tcbs ← s.tcbsAtExit policy
  match s.running with
  | none => .error .nobody
  | some p =>
    let freed ← freeTcb [] p
    expect (isEmpty s.qArrival) .arrivalsEmpty
    expect (isEmptyList tcbs) .tcbsEmpty
    let (size, freed) ← freeEnded s.endedTcbs.nodes s.endedTcbs.size freed
    expect (size == 0) .endedEmpty
    expect s.mutexes.front.isNone .mutexesEmpty
    return freed

end Machine

section Loop

variable {freed freed' ps : List TcbPtr} {size size' : UInt16} {p : TcbPtr}

theorem expect_bind_eq_ok {α : Type} {c : Bool} {f : TeardownFault}
    {k : Unit → Except TeardownFault α} {a : α} :
    (expect c f >>= k) = .ok a ↔ c = true ∧ k () = .ok a := by
  cases c <;> simp [expect, bind, Except.bind]

theorem freeTcb_eq (h : p ∉ freed) : freeTcb freed p = .ok (p :: freed) := if_neg h

/-- The loop frees the blocks of the list if they are different and none was freed before. -/
theorem freeEnded_eq (h : (ps.reverse ++ freed).Nodup) (hsize : Counted size ps) :
    freeEnded ps size freed = .ok (0, ps.reverse ++ freed) := by
  induction ps generalizing size freed with
  | nil =>
    rw [freeEnded, show size = 0 from hsize]
    rfl
  | cons p ps ih =>
    rw [List.reverse_cons, List.append_assoc] at h ⊢
    have hp : p ∉ freed := (List.nodup_cons.mp h.of_append_right).1
    rw [freeEnded, freeTcb_eq hp, ok_bind]
    exact ih h (hsize.sub_one rfl)

end Loop

namespace Machine

variable {policy : Policy} {s s' : Machine} {p q r : TcbPtr} {e : Event} {garbage : Garbage}
  {es : List Event}

/-! ## What it rests on -/

/-- Every block that has been made is known or being made, by a thread that is known and has not
ended, and the timer is set only while there is another thread than the one that runs. -/
structure Orderly (s : Machine) : Prop where
  main : ∀ v, ¬ s.Finished mainTcb v
  made : ∀ q < s.allocated, q = mainTcb ∨ s.Enqueued q ∨ ∃ r, s.ctl r = .create q
  calls : ∀ r, s.ctl r ≠ .program → r = mainTcb ∨ s.Enqueued r
  quiet : ∀ r v, s.Finished r v → s.ctl r = .program
  armed : s.cpu = .thread → s.timer ≠ 0 → ∃ q ∈ s.tcbs.nodes, s.running ≠ some q

/-- A thread that is in `worker_create` puts the new thread into `q_arrival` or stays there. -/
theorem execThread_building (hctl : s.ctl p = .create q) (hok : s.execThread p e = .ok s') :
    s' = s.enqueueCreated p q ∨ s'.ctl p = .create q := by
  cases e with
  | proceed elapsed =>
    simp only [execThread, proceed, hctl] at hok
    cases hok
    exact .inl rfl
  | signal =>
    simp only [execThread, hctl] at hok
    cases hok
    exact .inr hctl
  | _ => simp [execThread, hctl] at hok

namespace Orderly

theorem init : (initLibrary garbage).Orderly := by
  refine ⟨by simp [Finished, initLibrary], fun q hq => .inl ?_, by simp [initLibrary],
    by simp [Finished, initLibrary], by simp [initLibrary]⟩
  simpa [initLibrary] using hq

theorem own (h : s.Orderly) (hp : s.Placed policy) (hend : s.Endings) (hcpu : s.cpu = .thread)
    (hrun : s.running = some p) (hown : Own p s s') (hok : s.execThread p e = .ok s') :
    s'.Orderly := by
  have hctl : ∀ r q, s.ctl r = .create q → s'.Enqueued q ∨ s'.ctl r = .create q := by
    intro r q hr
    by_cases hrp : r = p
    · subst hrp
      rcases execThread_building hr hok with rfl | hsame
      · exact .inl List.mem_cons_self
      · exact .inr hsame
    · exact .inr ((hown.ctl r hrp).trans hr)
  refine ⟨fun v hv => h.main v ((Endings.finished_own hown).mp hv), fun q hq => ?_, fun r hr => ?_,
    fun r v hv => ?_, fun hcpu' htimer => ?_⟩
  · rw [hown.allocated] at hq
    rcases h.made q hq with hmain | hin | ⟨r, hr⟩
    · exact .inl hmain
    · exact .inr (.inl ((Placed.enqueued_own hown).mpr hin))
    · exact .inr ((hctl r q hr).imp_right fun hr => ⟨r, hr⟩)
  · rw [Placed.enqueued_own hown]
    by_cases hrp : r = p
    · exact hp.known r (Placed.mem_running (hrp ▸ hrun))
    · exact h.calls r (by rwa [← hown.ctl r hrp])
  · rw [Endings.finished_own hown] at hv
    have hne : r ≠ p := fun heq => hend.not_finished hp hrun hcpu (heq ▸ hv)
    rw [hown.ctl r hne]
    exact h.quiet r v hv
  · rw [hown.tcbs, hown.running]
    rcases execThread_timer hok with hsame | ⟨hsched, -⟩
    · exact h.armed hcpu (hsame ▸ htimer)
    · rw [hcpu'] at hsched
      cases hsched

theorem create (h : s.Orderly) (hp : s.Placed policy) (hend : s.Endings) (hcpu : s.cpu = .thread)
    (hrun : s.running = some p) (hctl : s.ctl p = .program) {thread : Addr} :
    (s.workerCreate p thread).Orderly := by
  have hother : ∀ r ≠ p, (s.workerCreate p thread).ctl r = s.ctl r := fun r hr => by
    simp [workerCreate, hr]
  refine ⟨h.main, fun q hq => ?_, fun r hr => ?_, fun r v hv => ?_, h.armed⟩
  · rcases Nat.lt_succ_iff_lt_or_eq.mp hq with hq | rfl
    · rcases h.made q hq with hmain | hin | ⟨r, hr⟩
      · exact .inl hmain
      · exact .inr (.inl hin)
      · have hne : r ≠ p := fun heq => by simp [heq, hctl] at hr
        exact .inr (.inr ⟨r, (hother r hne).trans hr⟩)
    · exact .inr (.inr ⟨p, by simp [workerCreate]⟩)
  · by_cases hrp : r = p
    · exact hp.known r (Placed.mem_running (hrp ▸ hrun))
    · exact h.calls r (by rwa [← hother r hrp])
  · have hne : r ≠ p := fun heq => hend.not_finished hp hrun hcpu (heq ▸ hv)
    rw [hother r hne]
    exact h.quiet r v hv

theorem enqueueCreated (h : s.Orderly) (hctl : s.ctl p = .create q) :
    (s.enqueueCreated p q).Orderly := by
  have hother : ∀ r ≠ p, (s.enqueueCreated p q).ctl r = s.ctl r := fun r hr => by
    simp [Machine.enqueueCreated, hr]
  have hself : (s.enqueueCreated p q).ctl p = .program := by simp [Machine.enqueueCreated]
  have hfinished : ∀ r v, (s.enqueueCreated p q).Finished r v ↔ s.Finished r v := fun r v => by
    simp [Machine.enqueueCreated, Finished]
  refine ⟨fun v hv => h.main v ((hfinished _ v).mp hv), fun r hr => ?_, fun r hr => ?_,
    fun r v hv => ?_, h.armed⟩
  · rcases h.made r hr with hmain | hin | ⟨t, ht⟩
    · exact .inl hmain
    · exact .inr (.inl (List.mem_cons_of_mem _ hin))
    · by_cases htp : t = p
      · rw [htp, hctl] at ht
        cases ht
        exact .inr (.inl List.mem_cons_self)
      · exact .inr (.inr ⟨t, (hother t htp).trans ht⟩)
  · have hne : r ≠ p := fun heq => hr (heq ▸ hself)
    exact (h.calls r (by rwa [← hother r hne])).imp_right (List.mem_cons_of_mem _)
  · by_cases hrp : r = p
    · exact hrp ▸ hself
    · rw [hother r hrp]
      exact h.quiet r v ((hfinished r v).mp hv)

theorem finish (h : s.Orderly) (hctl : s.ctl p = .program) (hmain : p ≠ mainTcb) :
    { s.note (.finished p (s.tcbAt p).retValue) with cpu := .cleanup }.Orderly := by
  refine ⟨fun v hv => ?_, fun q hq => ?_, fun r hr => ?_, fun r v hv => ?_, fun hcpu => by cases hcpu⟩
  · rcases List.mem_cons.mp hv with heq | hv
    · cases heq
      exact hmain rfl
    · exact h.main v hv
  · exact (h.made q hq).imp_right (Or.imp_left (List.mem_cons_of_mem _))
  · exact (h.calls r hr).imp_right (List.mem_cons_of_mem _)
  · rcases List.mem_cons.mp hv with heq | hv
    · cases heq
      exact hctl
    · exact h.quiet r v hv

/-- The timer is on only if the round has found another thread in `tcbs`. -/
theorem schedule (h : s.Orderly) (hround : Rescheduled s s') (hok : s.schedule policy = .ok s') :
    s'.Orderly := by
  refine ⟨fun v hv => h.main v ?_, fun q hq => ?_, fun r hr => ?_, fun r v hv => ?_,
    fun _ htimer => ?_⟩
  · rwa [Finished, ← hround.history]
  · rw [hround.allocated] at hq
    simpa only [Enqueued, hround.history, hround.ctl] using h.made q hq
  · rw [hround.ctl] at hr
    simpa only [Enqueued, hround.history] using h.calls r hr
  · rw [Finished, hround.history] at hv
    rw [hround.ctl]
    exact h.quiet r v hv
  · obtain ⟨t, next, rfl⟩ := schedule_dispatch hok
    have hfound : t.remainingThreadsBlocked next = false := by
      by_contra hnot
      simp [dispatch, hnot] at htimer
    obtain ⟨q, hq, hne⟩ := List.all_eq_false.mp hfound
    refine ⟨q, hq, fun hsame => hne ?_⟩
    cases hsame
    simp

theorem clean (h : s.Orderly) (hok : s.cleanExitedWorkerThread p = .ok s') : s'.Orderly := by
  obtain ⟨l, notes, -, hstores, rfl⟩ := cleanExitedWorkerThread_ok hok
  have hfinished : ∀ r v, .finished r v ∈ notes ++ s.history → s.Finished r v := fun r v hv => by
    refine (List.mem_append.mp hv).resolve_left fun hin => ?_
    obtain ⟨_, _, _, heq⟩ := hstores.only _ hin
    cases heq
  exact ⟨fun v hv => h.main v (hfinished _ v hv),
    fun q hq => (h.made q hq).imp_right (Or.imp_left (List.mem_append_right _)),
    fun r hr => (h.calls r hr).imp_right (List.mem_append_right _),
    fun r v hv => h.quiet r v (hfinished r v hv), fun hcpu => by cases hcpu⟩

theorem exec (h : s.Orderly) (hp : s.Placed policy) (hend : s.Endings)
    (hok : s.exec policy e = .ok s') : s'.Orderly := by
  rcases exec_cases hok with ⟨p, hcpu, hrun, hok⟩ | ⟨-, -, hok⟩ | ⟨p, -, -, -, hok⟩
  · rcases execThread_cases hok with ⟨thread, -, hctl, rfl⟩ | ⟨_, q, -, hctl, rfl⟩ |
      ⟨-, hctl, hmain, rfl⟩ | hown
    · exact h.create hp hend hcpu hrun hctl
    · exact h.enqueueCreated hctl
    · exact h.finish hctl hmain
    · exact h.own hp hend hcpu hrun hown hok
  · exact h.schedule (hp.rescheduled hok) hok
  · exact h.clean hok

end Orderly

theorem orderly_of_execution
    (h : Execution (Machine.exec policy) (fun _ _ => True) (initLibrary garbage) es s) :
    s.Orderly := by
  induction h with
  | start => exact .init
  | snoc h _ hok ih => exact ih.exec (placed_of_execution h) (endings_of_execution h) hok

/-! ## When it gets through -/

/-- The thread `p` is the main thread, with multilevel queues the scheduler has run, all other
threads have ended, and all mutexes have been destroyed. -/
structure ReadyToExit (policy : Policy) (s : Machine) (p : TcbPtr) : Prop where
  main : p = mainTcb
  entered : policy = .mlfq → s.schedulerEntered = true
  ended : ∀ q, s.Enqueued q → s.Ended q
  mutexes : s.mutexes.front = none

/-- All other threads have ended exactly if nobody waits for the processor. -/
theorem nobody_waits_iff (ho : s.Orderly) (hp : s.Placed policy) (hc : s.Covered policy)
    (hend : s.Endings) (hcpu : s.cpu = .thread) (hrun : s.running = some p) :
    (s.qArrival.nodes = [] ∧ s.ready policy = 0) ↔ p = mainTcb ∧ ∀ q, s.Enqueued q → s.Ended q := by
  have hnot : s.cpu ≠ .cleanup := by simp [hcpu]
  have hended : ∀ q, s.Ended q ↔ q ∈ s.endedTcbs.nodes := fun q => hend.finished_iff hnot
  constructor
  · rintro ⟨harrival, hready⟩
    have hpool : ∀ q, q ∈ s.pool policy ↔ q ∈ s.endedTcbs.nodes ∨ q = p := fun q => by
      simp [pool, harrival, hready, hrun, eq_comm]
    have hmain : p = mainTcb := by
      rcases (hpool _).mp hc.main with hin | heq
      · obtain ⟨v, hv⟩ := (hended _).mpr hin
        exact absurd hv (ho.main v)
      · exact heq.symm
    refine ⟨hmain, fun q hq => ?_⟩
    rcases (hpool q).mp (hc.enqueued q hq) with hin | heq
    · exact (hended q).mpr hin
    · exact absurd (heq.trans hmain) (hp.enqueued q hq).1
  · rintro ⟨hmain, hall⟩
    have hout : ∀ q, q ∉ (s.qArrival.nodes : Multiset TcbPtr) + s.ready policy := by
      intro q hq
      have hin : q ∈ s.pool policy := by
        simp only [pool, Multiset.mem_add] at hq ⊢
        exact .inl (.inl hq)
      rcases hp.known q hin with rfl | hknown
      · obtain ⟨harrival, hready, -⟩ := hp.not_mem_of_running (hmain ▸ hrun)
        exact (Multiset.mem_add.mp hq).elim harrival hready
      · have hnd := hp.nodup
        rw [pool, Multiset.nodup_add, Multiset.nodup_add] at hnd
        exact Multiset.disjoint_left.mp hnd.1.2.2 hq ((hended q).mp (hall q hknown))
    exact ⟨Multiset.coe_eq_zero _ |>.mp (Multiset.eq_zero_of_forall_notMem fun q hq =>
        hout q (Multiset.mem_add.mpr (.inl hq))),
      Multiset.eq_zero_of_forall_notMem fun q hq => hout q (Multiset.mem_add.mpr (.inr hq))⟩

/-- Without the main thread `tcbs` is empty exactly if nobody waits for the processor. -/
theorem tcbsAtExit_psjf (hp : s.Placed .psjf) (hlt : s.allocated < 65536) :
    (∃ l, s.tcbsAtExit .psjf = .ok l ∧ isEmptyList l = true) ↔ s.ready .psjf = 0 := by
  have hroom := hp.length_le hlt
  simp only [ready, Multiset.coe_card] at hroom
  have hempty := hp.countedTcbs.eq_zero (by omega)
  simp [tcbsAtExit, isEmptyList, ready, hempty]

theorem tcbsAtExit_mlfq (hp : s.Placed .mlfq) (hc : s.Covered .mlfq) (hlt : s.allocated < 65536)
    (hrun : s.running = some p) :
    (∃ l, s.tcbsAtExit .mlfq = .ok l ∧ isEmptyList l = true) ↔
      p = mainTcb ∧ s.schedulerEntered = true ∧ s.ready .mlfq = 0 := by
  have hroom := hp.length_le hlt
  have hid : (s.tcbAt mainTcb).threadId = MAIN_THREAD := hp.ids _ hp.main
  have hlisted := hc.listed rfl
  rw [hrun, Option.toList_some, Multiset.coe_singleton] at hlisted
  constructor
  · rintro ⟨l, hl, hempty⟩
    unfold tcbsAtExit at hl
    dsimp only at hl
    split at hl
    · next x l' hrem =>
      cases hl
      have hperm := removeFrom_perm hrem
      have hentered : s.schedulerEntered = true := by
        by_contra hnot
        obtain ⟨htcbs, -⟩ := hp.unentered (by simpa using hnot)
        simp [htcbs] at hperm
      have hcard := congrArg Multiset.card (hlisted hentered)
      have hcard' := congrArg Multiset.card hperm
      simp only [Multiset.coe_card, Multiset.card_add, Multiset.card_cons,
        Multiset.card_singleton] at hcard hcard'
      have hlen : l.nodes.length < 65536 := by
        simp only [ready] at hroom
        omega
      have hnil : l.nodes = [] := ((counted_removeFrom hp.countedTcbs hrem).eq_zero hlen).mp (by
        simpa [isEmptyList] using hempty)
      rw [hlisted hentered, hnil] at hperm
      have hqueued : s.queued = 0 := by
        rw [← Multiset.card_eq_zero]
        simp [hnil] at hcard'
        omega
      have hx : x = p := by simpa [hqueued] using hperm
      have hxid : (s.tcbAt x).threadId = MAIN_THREAD := (contains_eq_some (removeFrom_ok hrem).1).2
      have hxa : x < s.allocated := hx ▸ hp.lt_allocated (Placed.mem_running hrun)
      exact ⟨hx ▸ hp.threadId_inj (by omega) hxa hp.main (hxid.trans hid.symm), hentered, hqueued⟩
    · cases hl
  · rintro ⟨rfl, hentered, hready⟩
    have hnodes : s.tcbs.nodes = [mainTcb] := by
      have hall := hlisted hentered
      rw [show s.queued = 0 from hready, zero_add, ← Multiset.coe_singleton] at hall
      exact List.perm_singleton.mp (Multiset.coe_eq_coe.mp hall)
    have hsize : s.tcbs.size = 1 := by
      have hcounted := hp.countedTcbs
      rwa [hnodes] at hcounted
    have hin : contains s.tcbAt s.tcbs MAIN_THREAD = some mainTcb := by simp [contains, hnodes, hid]
    have hrem := removeFrom_eq (by simp [hsize]) hin
    rw [hsize] at hrem
    refine ⟨{ size := 1 - 1, nodes := s.tcbs.nodes.eraseP fun q =>
      (s.tcbAt q).threadId == MAIN_THREAD }, ?_, rfl⟩
    unfold tcbsAtExit
    dsimp only
    rw [hrem]

/-- What `cleanup_library` asserts of the lists. -/
theorem cleanupLibrary_ok {freed : List TcbPtr} (hok : s.cleanupLibrary policy = .ok freed) :
    (∃ l, s.tcbsAtExit policy = .ok l ∧ isEmptyList l = true) ∧ isEmpty s.qArrival = true ∧
      s.mutexes.front = none := by
  obtain ⟨l, hl, hok⟩ := bind_eq_ok.mp hok
  split at hok
  · cases hok
  · obtain ⟨_, -, hok⟩ := bind_eq_ok.mp hok
    obtain ⟨harrival, hok⟩ := expect_bind_eq_ok.mp hok
    obtain ⟨hempty, hok⟩ := expect_bind_eq_ok.mp hok
    obtain ⟨_, -, hok⟩ := bind_eq_ok.mp hok
    obtain ⟨-, hok⟩ := expect_bind_eq_ok.mp hok
    obtain ⟨hfront, -⟩ := expect_bind_eq_ok.mp hok
    exact ⟨⟨l, hl, hempty⟩, harrival, by simpa using hfront⟩

theorem Placed.freed_nodup (hp : s.Placed policy) (hrun : s.running = some p) :
    (s.endedTcbs.nodes.reverse ++ [p]).Nodup := by
  have hpool := hp.nodup
  rw [pool, add_assoc, Multiset.nodup_add, hrun] at hpool
  have hperm : ((s.endedTcbs.nodes.reverse ++ [p] : List TcbPtr) : Multiset TcbPtr) =
      s.endedTcbs.nodes + ((some p).toList : Multiset TcbPtr) := by
    rw [Multiset.coe_add, Multiset.coe_eq_coe]
    exact (List.reverse_perm _).append_right _
  rw [← Multiset.coe_nodup, hperm]
  exact hpool.2.1

/-- If they hold it frees the block of the thread that runs and those of `ended_tcbs`. -/
theorem cleanupLibrary_eq (hp : s.Placed policy) (hrun : s.running = some p)
    (hcounted : Counted s.endedTcbs.size s.endedTcbs.nodes)
    (htcbs : ∃ l, s.tcbsAtExit policy = .ok l ∧ isEmptyList l = true)
    (harrival : isEmpty s.qArrival = true) (hfront : s.mutexes.front = none) :
    s.cleanupLibrary policy = .ok (s.endedTcbs.nodes.reverse ++ [p]) := by
  obtain ⟨l, hl, hempty⟩ := htcbs
  unfold cleanupLibrary
  rw [hl, ok_bind]
  simp only [hrun]
  rw [freeTcb_eq (by simp), ok_bind, harrival, hempty, freeEnded_eq (hp.freed_nodup hrun) hcounted, hfront]
  rfl

/-- These are all blocks that have been made. -/
theorem freed_perm (ho : s.Orderly) (hp : s.Placed policy) (hend : s.Endings)
    (hcpu : s.cpu = .thread) (hrun : s.running = some p) (hctl : s.ctl p = .program)
    (hexit : s.ReadyToExit policy p) :
    (s.endedTcbs.nodes.reverse ++ [p]).Perm (List.range s.allocated) := by
  have hended : ∀ q, s.Enqueued q → q ∈ s.endedTcbs.nodes := fun q hq =>
    (hend.finished_iff (by simp [hcpu])).mp (hexit.ended q hq)
  rw [List.perm_ext_iff_of_nodup (hp.freed_nodup hrun) List.nodup_range]
  intro q
  rw [List.mem_append, List.mem_reverse, List.mem_singleton, List.mem_range]
  constructor
  · rintro (hin | rfl)
    · exact hp.lt_allocated (by simp [pool, hin])
    · exact hp.lt_allocated (Placed.mem_running hrun)
  · intro hq
    rcases ho.made q hq with hmain | hknown | ⟨r, hr⟩
    · exact .inr (hmain.trans hexit.main.symm)
    · exact .inl (hended q hknown)
    · -- nobody is left who could be in `worker_create`
      have hidle : s.ctl r = .program := by
        by_cases hne : s.ctl r = .program
        · exact hne
        rcases ho.calls r hne with hmain | hknown
        · rw [hmain, ← hexit.main, hctl]
        · obtain ⟨v, hv⟩ := hexit.ended r hknown
          exact ho.quiet r v hv
      rw [hidle] at hr
      cases hr

theorem timer_eq_zero (ho : s.Orderly) (hc : s.Covered policy) (hcpu : s.cpu = .thread)
    (hrun : s.running = some p) (hready : s.ready policy = 0)
    (hentered : policy = .mlfq → s.schedulerEntered = true) : s.timer = 0 := by
  by_contra htimer
  obtain ⟨q, hq, hne⟩ := ho.armed hcpu htimer
  cases policy with
  | psjf =>
    rw [Multiset.coe_eq_zero _ |>.mp hready] at hq
    cases hq
  | mlfq =>
    have hlisted := hc.listed rfl (hentered rfl)
    rw [show s.queued = 0 from hready, zero_add, hrun] at hlisted
    rw [← Multiset.mem_coe, hlisted] at hq
    simp only [Option.toList_some, Multiset.coe_singleton, Multiset.mem_singleton] at hq
    exact hne (hq ▸ hrun)

/-- In every run with fewer than 65535 threads made `cleanup_library` gets through exactly if the
program was ready to exit.  Then each block that was made has been freed, none of them twice, and
the timer is off. -/
theorem cleanupLibrary_of_execution
    (h : Execution (Machine.exec policy) (fun _ _ => True) (initLibrary garbage) es s)
    (hn : es.countP creates < 65535) (hcpu : s.cpu = .thread) (hrun : s.running = some p)
    (hctl : s.ctl p = .program) :
    ((∃ freed, s.cleanupLibrary policy = .ok freed) ↔ s.ReadyToExit policy p) ∧
      ∀ freed, s.cleanupLibrary policy = .ok freed →
        freed.Perm (List.range s.allocated) ∧ s.timer = 0 := by
  have hp := placed_of_execution h
  have hc := covered_of_execution h hn
  have hlt := allocated_lt h hn
  have ho := orderly_of_execution h
  have hend := endings_of_execution h
  obtain ⟨hcounted, -, -⟩ := ended_of_execution h
  have hwait := nobody_waits_iff ho hp hc hend hcpu hrun
  have htcbs : (∃ l, s.tcbsAtExit policy = .ok l ∧ isEmptyList l = true) ↔
      s.ready policy = 0 ∧ (policy = .mlfq → p = mainTcb ∧ s.schedulerEntered = true) := by
    cases policy with
    | psjf => simp [tcbsAtExit_psjf hp hlt]
    | mlfq =>
      rw [tcbsAtExit_mlfq hp hc hlt hrun]
      simp
      tauto
  have harrival : isEmpty s.qArrival = true ↔ s.qArrival.nodes = [] := by
    have hroom := hp.length_le hlt
    rw [← hp.counted.1.eq_zero (by omega)]
    simp [isEmpty]
  have hiff : (∃ freed, s.cleanupLibrary policy = .ok freed) ↔ s.ReadyToExit policy p := by
    constructor
    · rintro ⟨freed, hok⟩
      obtain ⟨hl, hempty, hfront⟩ := cleanupLibrary_ok hok
      obtain ⟨hready, hentered⟩ := htcbs.mp hl
      obtain ⟨hmain, hall⟩ := hwait.mp ⟨harrival.mp hempty, hready⟩
      exact ⟨hmain, fun hpol => (hentered hpol).2, hall, hfront⟩
    · intro hexit
      obtain ⟨hempty, hready⟩ := hwait.mpr ⟨hexit.main, hexit.ended⟩
      exact ⟨_, cleanupLibrary_eq hp hrun hcounted
        (htcbs.mpr ⟨hready, fun hpol => ⟨hexit.main, hexit.entered hpol⟩⟩)
        (harrival.mpr hempty) hexit.mutexes⟩
  refine ⟨hiff, fun freed hok => ?_⟩
  have hexit := hiff.mp ⟨freed, hok⟩
  obtain ⟨hl, hempty, hfront⟩ := cleanupLibrary_ok hok
  rw [cleanupLibrary_eq hp hrun hcounted hl hempty hfront] at hok
  cases hok
  exact ⟨freed_perm ho hp hend hcpu hrun hctl hexit,
    timer_eq_zero ho hc hcpu hrun (htcbs.mp hl).1 hexit.entered⟩

/-- The main thread makes a thread and waits for it to end. -/
def createAndJoin : List Event :=
  [.call (.create 100), .proceed 0, .call (.join 2 300), .proceed 0, .proceed 0, .proceed 5,
    .proceed 0, .proceed 0, .schedule, .finish, .cleanup, .schedule, .proceed 0]

/-- `cleanupLibrary_of_execution` for a run in which the other thread has ended. -/
theorem cleanupLibrary_after_join :
    ∃ s, Execution (Machine.exec .mlfq) (fun _ _ => True) (initLibrary ⟨0, 0, none⟩)
        createAndJoin s ∧ s.cleanupLibrary .mlfq = .ok [1, 0] ∧
      s.ReadyToExit .mlfq mainTcb ∧ [1, 0].Perm (List.range s.allocated) ∧ s.timer = 0 := by
  have hseen : (replay (Machine.exec .mlfq) (initLibrary ⟨0, 0, none⟩) createAndJoin).map
      (fun s => (s.cpu, s.running, s.ctl mainTcb, s.cleanupLibrary .mlfq)) =
      .ok (.thread, some mainTcb, .program, .ok [1, 0]) := rfl
  obtain ⟨s, -, hs, hobs⟩ := Execution.of_observed hseen
  simp only [Prod.mk.injEq] at hobs
  obtain ⟨hcpu, hrun, hctl, hfreed⟩ := hobs
  obtain ⟨hiff, hall⟩ := cleanupLibrary_of_execution hs (by decide) hcpu hrun hctl
  exact ⟨s, hs, hfreed, hiff.mp ⟨_, hfreed⟩, hall _ hfreed⟩

end Machine

end UserLevelOs.Threads
