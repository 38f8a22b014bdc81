import UserLevelOs.Threads.ShortestFirst

/-!
# A round of the cleanup's context

The thread that has ended leaves `tcbs`, goes to the front of `ended_tcbs`, and those in `tcbs`
that wait for it are woken; what it returned is stored for them.

## Main definitions

* `Removed` — the list without the thread that has ended.
* `woken`, `Stores` — what the threads that wait for it get.

## Main statements

* `alertLoop_ok`.
* `cleanExitedWorkerThread_ok` — what a round does.
* `clean_eq` — a round for a thread that nobody waits for.
-/

namespace UserLevelOs.Threads

open UserLevelOs.Lib

namespace Machine

variable {s s' : Machine} {p q : TcbPtr} {ended : Worker} {ret : Value} {ps : List TcbPtr}

/-- A thread that waits for `ended` no longer does. -/
def wake (ended : Worker) (t : Tcb) : Tcb :=
  if t.joinTid = ended then { t with joinTid := NONEXISTENT_THREAD } else t

/-- The blocks after the threads `ps` have been looked at. -/
def woken (tcbAt : Tcbs) (ended : Worker) (ps : List TcbPtr) : Tcbs := fun q =>
  if q ∈ ps then wake ended (tcbAt q) else tcbAt q

@[simp] theorem woken_nil (tcbAt : Tcbs) (ended : Worker) : woken tcbAt ended [] = tcbAt := by
  funext q
  simp [woken]

/-- Only `join_tid` changes. -/
theorem wake_eq (ended : Worker) (t : Tcb) :
    wake ended t = { t with joinTid := (wake ended t).joinTid } := by
  unfold wake
  split <;> rfl

theorem woken_eq (tcbAt : Tcbs) (ended : Worker) (ps : List TcbPtr) (q : TcbPtr) :
    woken tcbAt ended ps q = { tcbAt q with joinTid := (woken tcbAt ended ps q).joinTid } := by
  unfold woken
  split
  · exact wake_eq _ _
  · rfl

/-- What was stored for the waiting threads: only a value that is not `NULL`, and that through
any pointer but `NULL`. -/
structure Stores (s : Machine) (ended : Worker) (ret : Value) (ps : List TcbPtr)
    (notes : List Note) : Prop where
  only : ∀ n ∈ notes, ∃ q ∈ ps, (s.tcbAt q).joinTid = ended ∧
    n = .stored q (s.tcbAt q).joinRetval ret
  all : ret ≠ NULL → ∀ q ∈ ps, (s.tcbAt q).joinTid = ended →
    .stored q (s.tcbAt q).joinRetval ret ∈ notes ∧ (s.tcbAt q).joinRetval ≠ NULL

theorem storeIf_ok {c : Bool} {a : Addr} {v : Value} (h : s.storeIf c p a v = .ok s') :
    (c = true ∧ a ≠ NULL ∧ s' = s.note (.stored p a v)) ∨ (c = false ∧ s' = s) := by
  unfold storeIf at h
  split at h
  · next hc =>
    unfold store at h
    split at h
    · cases h
    · next ha =>
      cases h
      exact .inl ⟨hc, ha, rfl⟩
  · next hc =>
    cases h
    exact .inr ⟨by simpa using hc, rfl⟩

@[simp] theorem wake_joinRetval (t : Tcb) : (wake ended t).joinRetval = t.joinRetval := by
  unfold wake
  split <;> rfl

theorem wake_wake (t : Tcb) : wake ended (wake ended t) = wake ended t := by
  unfold wake
  split
  · split <;> rfl
  · rfl

theorem joinTid_of_wake {t : Tcb} (h : (wake ended t).joinTid = ended) : t.joinTid = ended := by
  unfold wake at h
  split at h
  · assumption
  · exact h

/-- The turn of the loop that comes to the thread `q`. -/
theorem alertLoop_cons (h : alertLoop ended ret (q :: ps) s = .ok s') :
    ∃ notes, Stores s ended ret [q] notes ∧
      alertLoop ended ret ps { s.setTcb q (wake ended (s.tcbAt q)) with
        history := notes ++ s.history } = .ok s' := by
  unfold alertLoop at h
  split at h
  · next hq =>
    have hwake : wake ended (s.tcbAt q) = { s.tcbAt q with joinTid := NONEXISTENT_THREAD } :=
      if_pos hq
    obtain ⟨s₁, hstore, h⟩ := bind_eq_ok.mp h
    rw [hwake]
    rcases storeIf_ok hstore with ⟨hret, ha, rfl⟩ | ⟨hret, rfl⟩
    · exact ⟨[.stored q (s.tcbAt q).joinRetval ret], ⟨by simp [hq], fun _ => by simpa using fun _ => ha⟩,
        by simpa [note] using h⟩
    · exact ⟨[], ⟨by simp, fun hne => absurd (by simpa using hret) hne⟩, h⟩
  · next hq =>
    have hwake : wake ended (s.tcbAt q) = s.tcbAt q := if_neg hq
    exact ⟨[], ⟨by simp, by simp [hq]⟩, by simpa [hwake, setTcb] using h⟩

theorem alertLoop_ok (h : alertLoop ended ret ps s = .ok s') :
    ∃ notes, Stores s ended ret ps notes ∧
      s' = { s with
        tcbAt := woken s.tcbAt ended ps
        history := notes ++ s.history } := by
  induction ps generalizing s with
  | nil =>
    cases h
    exact ⟨[], ⟨by simp, by simp⟩, by simp⟩
  | cons ptr ps ih =>
    obtain ⟨notes₁, hfirst, h⟩ := alertLoop_cons h
    obtain ⟨notes₂, hrest, rfl⟩ := ih h
    have hretval : ∀ q, (Function.update s.tcbAt ptr (wake ended (s.tcbAt ptr)) q).joinRetval =
        (s.tcbAt q).joinRetval := fun q => by
      by_cases hq : q = ptr
      · simp [hq]
      · simp [hq]
    refine ⟨notes₂ ++ notes₁, ⟨fun n hn => ?_, fun hne q hq hjoin => ?_⟩, ?_⟩
    · rcases List.mem_append.mp hn with hn | hn
      · obtain ⟨q, hq, hjoin, heq⟩ := hrest.only n hn
        refine ⟨q, by simp [hq], ?_, by simpa [hretval] using heq⟩
        by_cases hptr : q = ptr
        · subst hptr
          exact joinTid_of_wake (by simpa using hjoin)
        · simpa [hptr] using hjoin
      · obtain ⟨q, hq, hjoin, heq⟩ := hfirst.only n hn
        exact ⟨q, by simp_all, hjoin, heq⟩
    · by_cases hptr : q = ptr
      · obtain ⟨hin, hnull⟩ := hfirst.all hne q (by simp [hptr]) hjoin
        exact ⟨by simp [hin], hnull⟩
      · obtain ⟨hin, hnull⟩ := hrest.all hne q (by simp_all) (by simpa [hptr] using hjoin)
        simp only [setTcb_tcbAt, hretval] at hin hnull
        exact ⟨by simp [hin], hnull⟩
    · simp only [setTcb_tcbAt, List.append_assoc]
      congr 1
      funext q
      by_cases hptr : q = ptr
      · subst hptr
        simp [woken, wake_wake]
      · simp [woken, hptr]

/-! ## The round -/

/-- The list of threads without the running thread `p`. -/
inductive Removed (s : Machine) (p : TcbPtr) : ThreadList → Prop
  | absent (h : contains s.tcbAt s.tcbs (s.tcbAt p).threadId = none) : Removed s p s.tcbs
  | removed {q : TcbPtr} {l : ThreadList}
      (h : removeFrom s.tcbAt s.tcbs (s.tcbAt p).threadId = .ok (q, l)) : Removed s p l

theorem removeRunning_ok (h : s.removeRunning p = .ok s') :
    ∃ l, Removed s p l ∧ s' = { s with tcbs := l } := by
  unfold removeRunning at h
  split at h
  · next hnone =>
    cases h
    exact ⟨_, .absent hnone, rfl⟩
  · obtain ⟨⟨q, l⟩, hrem, h⟩ := bind_eq_ok.mp h
    cases h
    exact ⟨l, .removed hrem, rfl⟩

theorem cleanExitedWorkerThread_ok (h : s.cleanExitedWorkerThread p = .ok s') :
    ∃ l notes, Removed s p l ∧ Stores s (s.tcbAt p).threadId (s.tcbAt p).retValue l.nodes notes ∧
      s' = { s with
        tcbs := l
        endedTcbs := insertAtFront s.endedTcbs p
        tcbAt := woken s.tcbAt (s.tcbAt p).threadId l.nodes
        history := notes ++ s.history
        running := none
        cpu := .scheduler } := by
  obtain ⟨s₁, h₁, h⟩ := bind_eq_ok.mp h
  obtain ⟨l, hremoved, rfl⟩ := removeRunning_ok h₁
  obtain ⟨-, h⟩ := assert_bind_eq_ok.mp h
  obtain ⟨s₂, h₂, h⟩ := bind_eq_ok.mp h
  obtain ⟨notes, hstores, rfl⟩ := alertLoop_ok h₂
  cases h
  exact ⟨l, notes, hremoved, ⟨hstores.only, hstores.all⟩, rfl⟩

/-- Nobody waits for the thread that has ended. -/
theorem alertLoop_unawaited (h : ∀ q ∈ ps, (s.tcbAt q).joinTid ≠ ended) :
    alertLoop ended ret ps s = .ok s := by
  induction ps with
  | nil => rfl
  | cons q ps ih =>
    rw [alertLoop, if_neg (h q List.mem_cons_self)]
    exact ih fun r hr => h r (List.mem_cons_of_mem q hr)

/-- The running thread is not in `tcbs`. -/
theorem removeRunning_eq (hnot : ∀ q ∈ s.tcbs.nodes, (s.tcbAt q).threadId ≠ (s.tcbAt p).threadId) :
    s.removeRunning p = .ok s := by
  rw [removeRunning, contains_eq_none.mpr hnot]

/-- A thread ends that nobody waits for. -/
theorem clean_eq (hnot : ∀ q ∈ s.tcbs.nodes, (s.tcbAt q).threadId ≠ (s.tcbAt p).threadId)
    (hjoin : ∀ q ∈ s.tcbs.nodes, (s.tcbAt q).joinTid ≠ (s.tcbAt p).threadId)
    (hsize : s.endedTcbs.size + 1 ≠ 0) :
    s.cleanExitedWorkerThread p =
      .ok { s with
        endedTcbs := insertAtFront s.endedTcbs p
        running := none
        cpu := .scheduler } := by
  have hremove := removeRunning_eq hnot
  have hassert : ((insertAtFront s.endedTcbs p).size != 0) = true := by
    simpa [insertAtFront] using hsize
  have halert : alertLoop (s.tcbAt p).threadId (s.tcbAt p).retValue s.tcbs.nodes
      { s with endedTcbs := insertAtFront s.endedTcbs p } =
        .ok { s with endedTcbs := insertAtFront s.endedTcbs p } := alertLoop_unawaited hjoin
  unfold cleanExitedWorkerThread
  simp only [hremove, ok_bind, recomputeBenchmarks, assert_bind hassert, alertWaitingThreads,
    halert]
  rfl

namespace Removed

variable {l : ThreadList}

theorem sublist (h : Removed s p l) : l.nodes.Sublist s.tcbs.nodes := by
  cases h with
  | absent h => exact List.Sublist.refl _
  | removed h =>
    rw [(removeFrom_ok h).2.2]
    exact List.eraseP_sublist

theorem counted (h : Removed s p l) (hc : Counted s.tcbs.size s.tcbs.nodes) :
    Counted l.size l.nodes := by
  cases h with
  | absent h => exact hc
  | removed h => exact counted_removeFrom hc h

/-- With distinct numbers it is `p` that is taken out, if it was listed. -/
theorem nodes_eq (h : Removed s p l) (hd : Distinct s.tcbAt s.tcbs.nodes)
    (hp : p ∈ s.tcbs.nodes) : l.nodes = s.tcbs.nodes.erase p := by
  cases h with
  | absent h => exact absurd rfl (contains_eq_none.mp h p hp)
  | removed h => rw [(removeFrom_ok h).2.2, hd.eraseP_eq hp]

end Removed

end Machine

end UserLevelOs.Threads
