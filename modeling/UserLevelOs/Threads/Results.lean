import UserLevelOs.Threads.Assertions
import UserLevelOs.Threads.Returns

/-!
# What a join gives back

What a thread returned reaches the caller of `worker_join` in one of two ways: the caller
stores it if the thread is found in `ended_tcbs`, and otherwise the cleanup of the thread does,
through the `join_retval` that the caller has left.  The cleanup stores only what is not
`NULL`, through whatever `join_retval` is at that time.

## Main definitions

* `Machine.Delivered` — the value that a thread returned has been stored.
* `Machine.JoinResults` — every join that has returned gave its caller that value.
* `Machine.JoinersServed` — the cleanup stores what the waiting threads ask for.

## Main statements

* `joinResults_of_execution`.
* `joinResults_fails`.
-/

namespace UserLevelOs.Threads

open UserLevelOs.Lib

namespace Machine

variable {policy : Policy} {s s' : Machine} {p q c : TcbPtr} {e : Event} {thread : Worker}
  {valuePtr : Addr} {ok : Machine → Event → Prop} {garbage : Garbage} {es : List Event}

/-- The thread has returned, and what it returned has been stored through `valuePtr` on behalf of
`c`, unless that is `NULL`. -/
def Delivered (s : Machine) (notes : List Note) (c : TcbPtr) (thread : Worker) (valuePtr : Addr) :
    Prop :=
  ∃ q r, .finished q r ∈ notes ∧ (s.tcbAt q).threadId = thread ∧
    (valuePtr ≠ NULL → (valuePtr, r) ∈ storedSince c notes)

/-- When a join of a thread returned, its value had been delivered. -/
def JoinResults (s : Machine) : Prop :=
  ∀ later c thread valuePtr earlier, s.history = later ++ .joined c thread valuePtr :: earlier →
    thread ≠ NONEXISTENT_THREAD → s.Delivered earlier c thread valuePtr

/-- What the cleanup of `q` stores for the waiting thread `p` is what the call of `p` asks for. -/
def Served (s : Machine) (q p : TcbPtr) : Prop :=
  ∃ thread valuePtr, (s.ctl p).joinStage = some (.pending thread valuePtr) ∧
    if (s.tcbAt q).retValue = NULL then valuePtr = NULL
    else valuePtr ≠ NULL ∧ (s.tcbAt p).joinRetval = valuePtr

/-- If the next step is a cleanup, every thread in `tcbs` that waits for the one that has ended
is served. -/
def JoinersServed (s : Machine) (e : Event) : Prop :=
  e = .cleanup → ∀ q, s.running = some q → ∀ p ∈ s.tcbs.nodes,
    (s.tcbAt p).joinTid = (s.tcbAt q).threadId → s.Served q p

/-! ## The calls that have returned -/

/-- A thread that finds the other one in `ended_tcbs` stores what that one returned, unless nobody
asks for it. -/
theorem lasting_delivered : Lasting Delivered where
  mono := by
    rintro s s' notes later c thread valuePtr ⟨q, r, hq, rfl, hval⟩ hid - hstored
    exact ⟨q, r, by simp [hq], hid q (.inr ⟨r, hq⟩), fun hne => hstored (hval hne)⟩
  store := by
    intro s s' p ended valuePtr hend hin hstore
    have hfin := hend.ended ended hin
    rcases storeIf_ok hstore with ⟨-, -, rfl⟩ | ⟨hnull, rfl⟩
    · exact ⟨ended, _, List.mem_cons_of_mem _ hfin, rfl, fun _ => by simp [storedSince]⟩
    · exact ⟨ended, _, hfin, rfl, fun hne => absurd (by simpa using hnull) hne⟩

/-- The threads that wait for the one that has ended get what it returned, if they are served. -/
theorem released_of_served (hend : s.Endings) (hcpu : s.cpu = .cleanup) (hrun : s.running = some p)
    (hserved : ∀ q ∈ s.tcbs.nodes, (s.tcbAt q).joinTid = (s.tcbAt p).threadId → s.Served p q)
    (hok : s.cleanExitedWorkerThread p = .ok s') : Released Delivered s s' := by
  obtain ⟨l, notes, hremoved, hstores, rfl⟩ := cleanExitedWorkerThread_ok hok
  intro c t a hstage htid hwoken
  change (woken s.tcbAt (s.tcbAt p).threadId l.nodes c).joinTid ≠ t at hwoken
  have hid : (woken s.tcbAt (s.tcbAt p).threadId l.nodes p).threadId = (s.tcbAt p).threadId := by
    rw [woken_eq]
  have hwaits : c ∈ l.nodes ∧ (s.tcbAt c).joinTid = (s.tcbAt p).threadId := by
    by_contra hnot
    refine hwoken ?_
    unfold woken wake
    split
    · next hin => rw [if_neg fun heq => hnot ⟨hin, heq⟩, htid]
    · exact htid
  obtain ⟨hin, hjoin⟩ := hwaits
  obtain ⟨t', a', hstage', hserve⟩ := hserved c (hremoved.sublist.subset hin) hjoin
  rw [hstage] at hstage'
  cases hstage'
  have hstored : ∀ n ∈ notes, ∃ q a v, n = .stored q a v := fun n hn => by
    obtain ⟨q, -, -, heq⟩ := hstores.only n hn
    exact ⟨q, _, _, heq⟩
  refine ⟨p, (s.tcbAt p).retValue, List.mem_append_right _ (hend.cleaning hcpu p hrun),
    hid.trans (hjoin.symm.trans htid), fun hne => ?_⟩
  split at hserve
  · exact absurd hserve hne
  · next hret =>
    obtain ⟨hnote, -⟩ := hstores.all hret c hin hjoin
    rw [hserve.2] at hnote
    exact (storedSince_append_stored hstored).mpr (.inl hnote)

/-! ## Stores through `NULL` -/

theorem storeIf_sound {b : Bool} {v : Value} (h : b = true → valuePtr ≠ NULL) :
    Sound (s.storeIf b p valuePtr v) :=
  .ite (fun hb => .ite (fun hnull => absurd hnull (h hb)) fun _ => .ok _) fun _ => .ok _

theorem alertLoop_sound {ended : Worker} {ret : Value} {ps : List TcbPtr}
    (h : ret ≠ NULL → ∀ q ∈ ps, (s.tcbAt q).joinTid = ended → (s.tcbAt q).joinRetval ≠ NULL) :
    Sound (alertLoop ended ret ps s) := by
  induction ps generalizing s with
  | nil => exact .ok _
  | cons ptr ps ih =>
    unfold alertLoop
    refine .ite (fun hjoin => ?_) fun _ => ih fun hne q hq => h hne q (by simp [hq])
    refine (storeIf_sound fun hne => ?_).bind fun s₁ hs₁ => ih fun hne q hq hjoin' => ?_
    · simpa using h (by simpa using hne) ptr (by simp) hjoin
    · have hsame : s₁.tcbAt = Function.update s.tcbAt ptr
          { s.tcbAt ptr with joinTid := NONEXISTENT_THREAD } := by
        rcases storeIf_ok hs₁ with ⟨-, -, rfl⟩ | ⟨-, rfl⟩ <;> rfl
      rw [hsame] at hjoin' ⊢
      by_cases hptr : q = ptr
      · subst hptr
        simpa using h hne q (by simp) hjoin
      · rw [Function.update_of_ne hptr] at hjoin' ⊢
        exact h hne q (by simp [hq]) hjoin'

/-- Threads that are served give the cleanup somewhere to store to. -/
theorem exec_noNullStore (hserved : s.JoinersServed e) : NoNullStore (s.exec policy e) := by
  unfold Machine.exec
  split
  · exact execThread_raises.mono fun _ hf => hf.1
  · exact schedule_noNullStore
  · next p _ hrun =>
    have hremove : NoNullStore (s.removeRunning p) := by
      unfold removeRunning
      split
      · exact .ok _
      · exact removeFrom_noNullStore.bind fun _ _ => .ok _
    refine hremove.bind fun s₁ h₁ => assert_noNullStore.bind fun _ _ => ?_
    obtain ⟨l, hremoved, rfl⟩ := removeRunning_ok h₁
    have halert : Sound (alertLoop (s.tcbAt p).threadId (s.tcbAt p).retValue l.nodes
        { s with tcbs := l, endedTcbs := insertAtFront s.endedTcbs p }) := by
      refine alertLoop_sound fun hret q hq hjoin => ?_
      obtain ⟨t, a, -, hserve⟩ := hserved rfl p hrun q (hremoved.sublist.subset hq) hjoin
      rw [if_neg hret] at hserve
      exact hserve.2 ▸ hserve.1
    exact (halert.mono fun _ hf => hf.elim).bind fun _ _ => .ok _
  · exact .error (by simp)

/-! ## Every execution -/

/-- A thread returns once, and numbers tell those that have returned apart. -/
theorem Endings.unique (h : s.Endings) (hp : s.Placed policy) (hlt : s.allocated < 2 ^ 32)
    {v w : Value} (hv : s.Finished p v) (hw : s.Finished q w)
    (hid : (s.tcbAt p).threadId = (s.tcbAt q).threadId) : p = q ∧ v = w := by
  have hmem : ∀ r x, s.Finished r x → r < s.allocated := fun r x hr => by
    rcases (h.noted r x hr).2 with hin | ⟨-, hrun⟩
    · exact hp.lt_allocated (by simp [pool, hin])
    · exact hp.lt_allocated (Placed.mem_running hrun)
  obtain rfl := hp.threadId_inj hlt (hmem p v hv) (hmem q w hw) hid
  exact ⟨rfl, (h.noted p v hv).1.symm.trans (h.noted p w hw).1⟩

/-- If every thread that waits is served by the cleanup, every join that has returned gave its
caller what the thread returned, and nothing is stored through `NULL`; as long as the numbers of
threads do not wrap, there is only one thread that it can be. -/
theorem joinResults_of_execution
    (h : Execution (Machine.exec policy) JoinersServed (initLibrary garbage) es s) :
    s.JoinResults ∧ (∀ e, s.JoinersServed e → s.exec policy e ≠ .error .nullStore) ∧
      (es.countP creates < 2 ^ 32 - 1 → ∀ p q v w, s.Finished p v → s.Finished q w →
        (s.tcbAt p).threadId = (s.tcbAt q).threadId → p = q ∧ v = w) := by
  have hplaced := placed_of_execution h
  have hendings := endings_of_execution h
  have hpromises : s.Promises Delivered :=
    .of_execution lasting_delivered
      (fun hserved hend hcpu hrun hok =>
        released_of_served hend hcpu hrun (hserved rfl _ hrun) hok) h
  refine ⟨fun later c t a earlier hhist hne => ?_, fun e hserved hfail => ?_, fun hn => ?_⟩
  · exact hpromises.results c t a earlier ⟨later, hhist.symm⟩ hne
  · exact exec_noNullStore hserved _ hfail rfl
  · have hlt : s.allocated < 2 ^ 32 := by
      rw [allocated_of_execution h]
      omega
    exact fun p q v w hv hw => hendings.unique hplaced hlt hv hw

instance : Decidable (s.Served p q) :=
  match h : (s.ctl q).joinStage with
  | some (.pending thread valuePtr) =>
    decidable_of_iff (if (s.tcbAt p).retValue = NULL then valuePtr = NULL
      else valuePtr ≠ NULL ∧ (s.tcbAt q).joinRetval = valuePtr) (by simp [Served, h])
  | some (.storing _ _ _) => isFalse (by simp [Served, h])
  | some (.registering _ _) => isFalse (by simp [Served, h])
  | none => isFalse (by simp [Served, h])

instance : Decidable (s.JoinersServed e) :=
  decidable_of_iff (e = .cleanup → ∀ q ∈ s.running, ∀ p ∈ s.tcbs.nodes,
    (s.tcbAt p).joinTid = (s.tcbAt q).threadId → s.Served q p) (by simp [JoinersServed])

/-- The main thread waits, with somewhere to store to, for a thread that returns something. -/
def joinServed (valuePtr : Addr) (r : Value) : List Event :=
  [.call (.create 100), .proceed 0, .call (.join 2 valuePtr), .proceed 0, .proceed 0,
    .proceed 5, .proceed 0, .proceed 0, .schedule] ++ (if r = NULL then [] else [.call (.exit r)]) ++
    [.finish, .cleanup, .schedule, .proceed 0]

theorem joinResults_joinServed :
    ∃ s, Execution (Machine.exec .psjf) JoinersServed (initLibrary ⟨0, 0, none⟩)
        (joinServed 200 7) s ∧ Note.stored 0 200 7 ∈ s.history ∧ s.JoinResults := by
  have hseen : (Execution.replayIf (Machine.exec .psjf) (fun s e => decide (s.JoinersServed e))
      (initLibrary ⟨0, 0, none⟩) (joinServed 200 7)).map (Except.map Machine.history) =
      some (.ok [.joined 0 2 200, .stored 0 200 7, .finished 1 7, .joining 0 2 200,
        .enqueued 1]) := rfl
  obtain ⟨s, hs, hhist⟩ := Execution.of_observedIf (fun _ _ => of_decide_eq_true) hseen
  exact ⟨s, hs, by simp [hhist], (joinResults_of_execution hs).1⟩

/-- Nothing is stored for a thread that waits for one that returns `NULL`, and a thread that
waits without a place for the result has it stored through `NULL`. -/
theorem joinResults_fails :
    (¬ ∀ policy garbage es s,
      Execution (Machine.exec policy) (fun _ _ => True) (initLibrary garbage) es s →
        s.JoinResults) ∧
    ¬ ∀ policy garbage es s e,
      Execution (Machine.exec policy) (fun _ _ => True) (initLibrary garbage) es s →
        s.exec policy e ≠ .error .nullStore := by
  constructor
  · intro hclaim
    have hseen : (replay (Machine.exec .psjf) (initLibrary ⟨0, 0, none⟩) (joinServed 200 0)).map
        Machine.history = .ok [.joined 0 2 200, .finished 1 0, .joining 0 2 200,
          .enqueued 1] := rfl
    obtain ⟨s, -, hs, hhist⟩ := Execution.of_observed hseen
    obtain ⟨q, r, -, -, hstored⟩ := hclaim .psjf _ _ s hs [] 0 2 200 _ hhist (by decide)
    simpa [storedSince] using hstored (by decide)
  · intro hclaim
    have hseen : (replay (Machine.exec .psjf) (initLibrary ⟨0, 0, none⟩)
        ((joinServed 0 7).take 11)).map (fun s => (s.exec .psjf .cleanup).map fun _ => ()) =
          .ok (.error .nullStore) := rfl
    obtain ⟨s, -, hs, hfault⟩ := Execution.of_observed hseen
    refine hclaim .psjf _ _ s .cleanup hs ?_
    cases hexec : s.exec .psjf .cleanup with
    | error fault =>
      rw [hexec] at hfault
      cases hfault
      rfl
    | ok s' =>
      rw [hexec] at hfault
      cases hfault

end Machine

end UserLevelOs.Threads
