import UserLevelOs.Threads.Joins

/-!
# What a join knows when it returns

Whatever else may go wrong with a call of `worker_join`, it comes back only when the thread it is
about has ended: it has found the thread in `ended_tcbs`, or its `join_tid` has been cleared, and
that is done by the cleanup of the thread.  What is true at either point and stays true is true
when the call has returned.

## Main definitions

* `storedSince` — what has been stored for a thread since it last called `worker_join`.
* `Machine.Lasting` — a property of a call that no step takes back.
* `Machine.Promises` — the invariant: every call that has returned has the property.
* `Machine.Released` — the cleanup gives it to the calls it wakes.
* `Machine.HasEnded`, `Machine.Awaited` — its case for the end of the thread.

## Main statements

* `Promises.exec` — only the cleanup has to give the property to the calls it wakes.
* `Awaited.of_joinStep` — what a join that comes back knows.
* `joined_of_execution` — the thread has finished when a join of it returns.
-/

namespace UserLevelOs.Threads

open UserLevelOs.Lib

/-- The thread a call of `worker_join` is about. -/
def JoinStage.thread : JoinStage → Worker
  | .storing _ thread _ => thread
  | .registering thread _ => thread
  | .pending thread _ => thread

/-- What has been stored on behalf of the thread `c` since its last call of `worker_join`, and
where. -/
def storedSince (c : TcbPtr) : List Note → List (Addr × Value)
  | [] => []
  | .joining caller _ _ :: notes => if caller = c then [] else storedSince c notes
  | .stored caller valuePtr value :: notes =>
    if caller = c then (valuePtr, value) :: storedSince c notes else storedSince c notes
  | _ :: notes => storedSince c notes

namespace Machine

variable {policy : Policy} {s s' : Machine} {p c : TcbPtr} {e : Event} {thread : Worker}
  {valuePtr : Addr} {ok : Machine → Event → Prop} {garbage : Garbage} {es : List Event}
  {notes earlier : List Note} {D : Machine → List Note → TcbPtr → Worker → Addr → Prop}

/-! ## Notes -/

theorem storedSince_append_tells (h : ∀ n ∈ notes, n.tells p) (hc : c ≠ p) :
    storedSince c (notes ++ earlier) = storedSince c earlier := by
  induction notes with
  | nil => rfl
  | cons n notes ih =>
    have hn := h n (by simp)
    have hrest := ih fun m hm => h m (by simp [hm])
    cases n <;> simp_all [Note.tells, storedSince, hc.symm]

theorem storedSince_append_silent (h : ∀ n ∈ notes, n.aboutJoin = false) :
    storedSince c (notes ++ earlier) = storedSince c earlier := by
  induction notes with
  | nil => rfl
  | cons n notes ih =>
    have hn := h n (by simp)
    have hrest := ih fun m hm => h m (by simp [hm])
    cases n <;> simp_all [Note.aboutJoin, storedSince]

/-- Stores add to what has been stored. -/
theorem storedSince_append_stored (h : ∀ n ∈ notes, ∃ q a v, n = .stored q a v)
    {x : Addr × Value} : x ∈ storedSince c (notes ++ earlier) ↔
      .stored c x.1 x.2 ∈ notes ∨ x ∈ storedSince c earlier := by
  induction notes with
  | nil => simp
  | cons n notes ih =>
    obtain ⟨q, a, v, rfl⟩ := h n (by simp)
    have hrest := ih fun m hm => h m (by simp [hm])
    by_cases hq : q = c
    · subst hq
      simp [storedSince, hrest, Prod.ext_iff, or_assoc]
    · simp [storedSince, hq, hrest, Ne.symm hq]

/-- A join has returned before unless one of the new notes says so. -/
theorem suffix_of_append {n : Note} {l : List Note} (h : (n :: earlier) <:+ l ++ s.history)
    (hn : n ∉ l) : (n :: earlier) <:+ s.history := by
  induction l with
  | nil => simpa using h
  | cons m l ih =>
    rcases List.suffix_cons_iff.mp h with heq | h
    · cases heq
      simp at hn
    · exact ih h fun hin => hn (by simp [hin])

/-! ## The invariant -/

/-- A property of a call of `worker_join` and of what has been noted so far that holds of a call
that has found its thread in `ended_tcbs`, and that no step takes back. -/
structure Lasting (D : Machine → List Note → TcbPtr → Worker → Addr → Prop) : Prop where
  mono : ∀ {s s' notes later c thread valuePtr}, D s notes c thread valuePtr →
    (∀ q, q ∈ s.endedTcbs.nodes ∨ (∃ r, .finished q r ∈ notes) →
      (s'.tcbAt q).threadId = (s.tcbAt q).threadId) →
    s.endedTcbs.nodes ⊆ s'.endedTcbs.nodes →
    storedSince c notes ⊆ storedSince c (later ++ notes) → D s' (later ++ notes) c thread valuePtr
  store : ∀ {s s' p ended valuePtr}, s.Endings → ended ∈ s.endedTcbs.nodes →
    s.storeIf (valuePtr != NULL) p valuePtr (s.tcbAt ended).retValue = .ok s' →
    D s s'.history p (s.tcbAt ended).threadId valuePtr

/-- What is true of the calls of `worker_join` that have not returned, and of those that have. -/
structure Promises (D : Machine → List Note → TcbPtr → Worker → Addr → Prop) (s : Machine) :
    Prop where
  known : ∀ c, (s.ctl c).joinStage ≠ none → c < s.allocated
  storing : ∀ c ended thread valuePtr,
    (s.ctl c).joinStage = some (.storing ended thread valuePtr) →
      ended ∈ s.endedTcbs.nodes ∧ (s.tcbAt ended).threadId = thread
  pending : ∀ c thread valuePtr, (s.ctl c).joinStage = some (.pending thread valuePtr) →
    (s.tcbAt c).joinTid = thread ∨ D s s.history c thread valuePtr
  results : ∀ c thread valuePtr earlier, (.joined c thread valuePtr :: earlier) <:+ s.history →
    thread ≠ NONEXISTENT_THREAD → D s earlier c thread valuePtr

/-- The calls that need not wait any more after a cleanup have the property. -/
def Released (D : Machine → List Note → TcbPtr → Worker → Addr → Prop) (s s' : Machine) : Prop :=
  ∀ c thread valuePtr, (s.ctl c).joinStage = some (.pending thread valuePtr) →
    (s.tcbAt c).joinTid = thread → (s'.tcbAt c).joinTid ≠ thread →
    D s' s'.history c thread valuePtr

/-- Nothing has been noted. -/
theorem Lasting.same (hD : Lasting D) (h : D s notes c thread valuePtr)
    (hid : ∀ q, q ∈ s.endedTcbs.nodes ∨ (∃ r, .finished q r ∈ notes) →
      (s'.tcbAt q).threadId = (s.tcbAt q).threadId)
    (hended : s.endedTcbs.nodes ⊆ s'.endedTcbs.nodes) : D s' notes c thread valuePtr := by
  have hlater : D s' ([] ++ notes) c thread valuePtr := hD.mono h hid hended (List.Subset.refl _)
  exact hlater

namespace Promises

/-- A step of the running thread `p`: only what it does to `p` matters. -/
theorem own (h : s.Promises D) (hD : Lasting D) (hp : s.Placed policy) (hown : Own p s s')
    (hrun : s.running = some p)
    (hstoring : ∀ ended thread valuePtr,
      (s'.ctl p).joinStage = some (.storing ended thread valuePtr) →
        ended ∈ s.endedTcbs.nodes ∧ (s.tcbAt ended).threadId = thread)
    (hpending : ∀ thread valuePtr, (s'.ctl p).joinStage = some (.pending thread valuePtr) →
      (s'.tcbAt p).joinTid = thread ∨ D s s'.history p thread valuePtr)
    (hresults : ∀ c thread valuePtr earlier,
      (.joined c thread valuePtr :: earlier) <:+ s'.history → thread ≠ NONEXISTENT_THREAD →
        D s earlier c thread valuePtr) : s'.Promises D := by
  have hended : s.endedTcbs.nodes ⊆ s'.endedTcbs.nodes := hown.endedTcbs ▸ List.Subset.refl _
  have hsame : ∀ earlier c thread valuePtr, D s earlier c thread valuePtr →
      D s' earlier c thread valuePtr := fun earlier c thread valuePtr hd =>
    hD.same hd (fun q _ => hown.threadId_eq q) hended
  refine ⟨fun r hr => ?_, fun r ended thread valuePtr hr => ?_, fun r thread valuePtr hr => ?_,
    fun r thread valuePtr earlier hr hne => hsame _ _ _ _ (hresults r thread valuePtr earlier hr hne)⟩
  · rw [hown.allocated]
    by_cases hrp : r = p
    · exact hrp ▸ hp.lt_allocated (Placed.mem_running hrun)
    · exact h.known r (hown.ctl r hrp ▸ hr)
  · rw [hown.endedTcbs, hown.threadId_eq]
    by_cases hrp : r = p
    · exact hstoring ended thread valuePtr (hrp ▸ hr)
    · exact h.storing r ended thread valuePtr (hown.ctl r hrp ▸ hr)
  · by_cases hrp : r = p
    · subst hrp
      exact (hpending thread valuePtr hr).imp_right (hsame _ _ _ _)
    · rw [hown.joinTid_eq hrp]
      refine (h.pending r thread valuePtr (hown.ctl r hrp ▸ hr)).imp_right fun hd => ?_
      obtain ⟨notes, hnotes, htells⟩ := hown.history
      rw [hnotes]
      refine hD.mono hd (fun q _ => hown.threadId_eq q) hended ?_
      rw [storedSince_append_tells htells hrp]
      exact List.Subset.refl _

theorem joinStep (h : s.Promises D) (hD : Lasting D) (hp : s.Placed policy) (hend : s.Endings)
    (ha : s.Awake) (hrun : s.running = some p) (hcpu : s.cpu = .thread)
    (hstep : JoinStep s p e s') : s'.Promises D := by
  have hown := hstep.own
  cases hstep with
  | call thread valuePtr hctl =>
    have hhist : (s.workerJoin p thread valuePtr).history =
        .joining p thread valuePtr :: s.history := by
      unfold workerJoin
      dsimp only
      split <;> rfl
    refine h.own hD hp hown hrun (fun ended t a hstage => ?_) (fun t a hstage => ?_)
      fun c t a earlier hsuf hne => ?_
    · unfold workerJoin at hstage
      dsimp only at hstage
      split at hstage
      · next found hfound =>
        simp only [goto_ctl, Function.update_self, Ctl.joinStage, Option.some.injEq,
          JoinStage.storing.injEq] at hstage
        obtain ⟨rfl, rfl, -⟩ := hstage
        exact contains_eq_some hfound
      · simp [Ctl.joinStage] at hstage
    · unfold workerJoin at hstage
      dsimp only at hstage
      split at hstage <;> simp [Ctl.joinStage] at hstage
    · rw [hhist] at hsuf
      have hsuf' : (.joined c t a :: earlier) <:+ s.history :=
        suffix_of_append (l := [.joining p thread valuePtr]) hsuf (by simp)
      exact h.results c t a earlier hsuf' hne
  | store elapsed ended thread valuePtr s₁ hctl hstore =>
    obtain ⟨hin, rfl⟩ := h.storing p ended thread valuePtr (by rw [hctl]; rfl)
    refine h.own hD hp hown hrun (by simp [Ctl.joinStage]) (by simp [Ctl.joinStage])
      fun c t a earlier hsuf hne => ?_
    rcases List.suffix_cons_iff.mp hsuf with heq | hold
    · cases heq
      exact hD.store hend hin hstore
    · refine h.results c t a earlier ?_ hne
      rcases storeIf_ok hstore with ⟨-, -, rfl⟩ | ⟨-, rfl⟩
      · exact suffix_of_append (l := [.stored p valuePtr _]) hold (by simp)
      · exact hold
  | register elapsed thread valuePtr hctl =>
    refine h.own hD hp hown hrun (by simp [Ctl.joinStage]) (fun t a hstage => .inl ?_) h.results
    simp only [goto_ctl, Function.update_self, Ctl.joinStage, Option.some.injEq,
      JoinStage.pending.injEq] at hstage
    simp [hstage.1]
  | retval elapsed thread valuePtr hctl =>
    refine h.own hD hp hown hrun (by simp [Ctl.joinStage]) (fun t a hstage => ?_) h.results
    simp only [goto_ctl, Function.update_self, Ctl.joinStage, Option.some.injEq,
      JoinStage.pending.injEq] at hstage
    obtain ⟨rfl, rfl⟩ := hstage
    simpa using h.pending p thread valuePtr (by rw [hctl]; rfl)
  | done elapsed thread valuePtr hctl =>
    refine h.own hD hp hown hrun (by simp [Ctl.joinStage]) (by simp [Ctl.joinStage])
      fun c t a earlier hsuf hne => ?_
    rcases List.suffix_cons_iff.mp hsuf with heq | hsuf
    · cases heq
      -- a thread that is back does not wait any more
      refine (h.pending p thread valuePtr (by rw [hctl]; rfl)).resolve_left fun htid => hne ?_
      rw [← htid, ha hcpu p _ hrun hctl]
    · exact h.results c t a earlier hsuf hne

theorem apart (h : s.Promises D) (hD : Lasting D) (hp : s.Placed policy) (hrun : s.running = some p)
    (hapart : Apart p s s') : s'.Promises D := by
  obtain ⟨notes, hnotes, hsilent⟩ := hapart.silent
  refine h.own hD hp hapart.toOwn hrun (fun ended t a hstage => ?_) (fun t a hstage => ?_)
    fun c t a earlier hsuf hne => ?_
  · exact h.storing p ended t a (hapart.stage ▸ hstage)
  · rw [hapart.joinTid, hnotes]
    refine (h.pending p t a (hapart.stage ▸ hstage)).imp_right fun hd => ?_
    refine hD.mono hd (fun _ _ => rfl) (List.Subset.refl _) ?_
    rw [storedSince_append_silent hsilent]
    exact List.Subset.refl _
  · rw [hnotes] at hsuf
    refine h.results c t a earlier (suffix_of_append hsuf fun hin => ?_) hne
    simpa [Note.aboutJoin] using hsilent _ hin

/-- A step of the library that leaves the calls of `worker_join` where they are. -/
theorem keep (h : s.Promises D) (hD : Lasting D) (hp : s.Placed policy) (hend : s.Endings)
    (halloc : s.allocated ≤ s'.allocated)
    (hid : ∀ q < s.allocated, (s'.tcbAt q).threadId = (s.tcbAt q).threadId)
    (hctl : ∀ q, (s'.ctl q).joinStage = (s.ctl q).joinStage)
    (hended : s.endedTcbs.nodes ⊆ s'.endedTcbs.nodes)
    (hhist : ∃ notes, s'.history = notes ++ s.history ∧ (∀ c t a, .joined c t a ∉ notes) ∧
      ∀ c, storedSince c s.history ⊆ storedSince c (notes ++ s.history))
    (hjoin : ∀ c t a, (s.ctl c).joinStage = some (.pending t a) → (s.tcbAt c).joinTid = t →
      (s'.tcbAt c).joinTid = t ∨ D s' s'.history c t a) : s'.Promises D := by
  obtain ⟨notes, hnotes, hnew, hstored⟩ := hhist
  have hknown : ∀ q, q ∈ s.endedTcbs.nodes ∨ (∃ r, .finished q r ∈ s.history) →
      (s'.tcbAt q).threadId = (s.tcbAt q).threadId := fun q hq => by
    have hin : q ∈ s.endedTcbs.nodes ∨ s.cpu = .cleanup ∧ s.running = some q := by
      rcases hq with hin | ⟨r, hr⟩
      · exact .inl hin
      · exact (hend.noted q r hr).2
    refine hid q ?_
    rcases hin with hin | ⟨-, hrun⟩
    · exact hp.lt_allocated (by simp [pool, hin])
    · exact hp.lt_allocated (Placed.mem_running hrun)
  refine ⟨fun c hc => ?_, fun c ended t a hc => ?_, fun c t a hc => ?_,
    fun c t a earlier hsuf hne => ?_⟩
  · exact (h.known c (hctl c ▸ hc)).trans_le halloc
  · obtain ⟨hin, hthread⟩ := h.storing c ended t a (hctl c ▸ hc)
    exact ⟨hended hin, (hknown ended (.inl hin)).trans hthread⟩
  · have hstage := hctl c ▸ hc
    rcases h.pending c t a hstage with htid | hd
    · exact hjoin c t a hstage htid
    · rw [hnotes]
      exact .inr (hD.mono hd hknown hended (hstored c))
  · rw [hnotes] at hsuf
    have hsuf' : (.joined c t a :: earlier) <:+ s.history := suffix_of_append hsuf (hnew c t a)
    refine hD.same (h.results c t a earlier hsuf' hne) (fun q hq => hknown q ?_) hended
    rcases hq with hin | ⟨r, hr⟩
    · exact .inl hin
    · exact .inr ⟨r, hsuf'.subset (List.mem_cons_of_mem _ hr)⟩

/-- A step that has nothing to do with joins. -/
theorem of_eq (h : s.Promises D) (hD : Lasting D) (hp : s.Placed policy) (hend : s.Endings)
    (halloc : s.allocated ≤ s'.allocated)
    (htcb : ∀ q < s.allocated, (s'.tcbAt q).threadId = (s.tcbAt q).threadId ∧
      (s'.tcbAt q).joinTid = (s.tcbAt q).joinTid)
    (hctl : ∀ q, (s'.ctl q).joinStage = (s.ctl q).joinStage)
    (hended : s'.endedTcbs = s.endedTcbs)
    (hhist : ∃ notes, s'.history = notes ++ s.history ∧ ∀ n ∈ notes, n.aboutJoin = false) :
    s'.Promises D := by
  obtain ⟨notes, hnotes, hsilent⟩ := hhist
  refine h.keep hD hp hend halloc (fun q hq => (htcb q hq).1) hctl (hended ▸ List.Subset.refl _)
    ⟨notes, hnotes, fun c t a hin => ?_, fun c => ?_⟩ fun c t a hstage htid => .inl ?_
  · simpa [Note.aboutJoin] using hsilent _ hin
  · rw [storedSince_append_silent hsilent]
    exact List.Subset.refl _
  · exact (htcb c (h.known c (by simp [hstage]))).2.trans htid

/-- The cleanup of a thread clears the `join_tid` of those that wait for it. -/
theorem clean (h : s.Promises D) (hD : Lasting D) (hp : s.Placed policy) (hend : s.Endings)
    (hfree : Released D s s') (hok : s.cleanExitedWorkerThread p = .ok s') :
    s'.Promises D := by
  obtain ⟨l, notes, -, hstores, rfl⟩ := cleanExitedWorkerThread_ok hok
  have hstored : ∀ n ∈ notes, ∃ q a v, n = .stored q a v := fun n hn => by
    obtain ⟨q, -, -, heq⟩ := hstores.only n hn
    exact ⟨q, _, _, heq⟩
  refine h.keep hD hp hend le_rfl (fun q _ => ?_) (fun _ => rfl)
    (fun q hq => List.mem_cons_of_mem p hq) ⟨notes, rfl, fun c t a hin => ?_, fun c x hx => ?_⟩
    fun c t a hstage htid => or_iff_not_imp_left.mpr (hfree c t a hstage htid)
  · change (woken s.tcbAt (s.tcbAt p).threadId l.nodes q).threadId = _
    rw [woken_eq]
  · obtain ⟨_, _, _, heq⟩ := hstored _ hin
    cases heq
  · exact (storedSince_append_stored hstored).mpr (.inr hx)

/-- Only the cleanup has something to show. -/
theorem exec (h : s.Promises D) (hD : Lasting D) (hp : s.Placed policy) (hend : s.Endings)
    (ha : s.Awake) (hfree : ∀ p, e = .cleanup → s.cpu = .cleanup → s.running = some p →
      s.cleanExitedWorkerThread p = .ok s' → Released D s s')
    (hok : s.exec policy e = .ok s') : s'.Promises D := by
  rcases exec_cases hok with ⟨p, hcpu, hrun, hok⟩ | ⟨-, -, hok⟩ | ⟨p, he, hcpu, hrun, hok⟩
  · rcases execThread_steps hok with ⟨thread, -, hctl, rfl⟩ | ⟨_, q, -, hctl, rfl⟩ |
      ⟨-, hctl, -, rfl⟩ | hjoin | hapart
    · have hold : ∀ q < s.allocated, (s.workerCreate p thread).tcbAt q = s.tcbAt q :=
        fun q hq => by simp [workerCreate, hq.ne]
      refine h.of_eq hD hp hend (Nat.le_succ _) (fun q hq => by rw [hold q hq]; exact ⟨rfl, rfl⟩)
        (fun q => ?_) rfl ⟨[], rfl, by simp⟩
      by_cases hq : q = p
      · simp [workerCreate, hq, hctl, Ctl.joinStage]
      · simp [workerCreate, hq]
    · refine h.of_eq hD hp hend le_rfl (fun _ _ => ⟨rfl, rfl⟩) (fun r => ?_) rfl
        ⟨[.enqueued q], rfl, by simp [Note.aboutJoin]⟩
      by_cases hr : r = p
      · simp [enqueueCreated, hr, hctl, Ctl.joinStage]
      · simp [enqueueCreated, hr]
    · exact h.of_eq hD hp hend le_rfl (fun _ _ => ⟨rfl, rfl⟩) (fun _ => rfl) rfl
        ⟨[.finished p _], rfl, by simp [Note.aboutJoin]⟩
    · exact h.joinStep hD hp hend ha hrun hcpu hjoin
    · exact h.apart hD hp hrun hapart
  · have hround := hp.rescheduled hok
    exact h.of_eq hD hp hend hround.allocated.ge
      (fun q _ => ⟨hround.threadId q, hround.joinTid q⟩) (fun q => by rw [hround.ctl])
      hround.endedTcbs ⟨[], hround.history, by simp⟩
  · exact h.clean hD hp hend (hfree p he hcpu hrun hok) hok

theorem of_execution (hD : Lasting D)
    (hfree : ∀ {s s' p}, ok s .cleanup → s.Endings → s.cpu = .cleanup → s.running = some p →
      s.cleanExitedWorkerThread p = .ok s' → Released D s s')
    (h : Execution (Machine.exec policy) ok (initLibrary garbage) es s) : s.Promises D := by
  have hstart : Execution (Machine.exec policy) ok (initLibrary garbage) []
      (initLibrary garbage) := .start
  have hinit : (initLibrary garbage).Promises D := by
    constructor <;> simp [initLibrary, Ctl.joinStage]
  have hall : s.Placed policy ∧ s.Endings ∧ s.Awake ∧ s.Promises D := by
    refine h.invariant (I := fun s => s.Placed policy ∧ s.Endings ∧ s.Awake ∧ s.Promises D)
      ⟨.init policy garbage, endings_of_execution hstart, awake_of_execution hstart, hinit⟩ ?_
    rintro s₁ e s₂ ⟨hp, hend, ha, hs⟩ hok hstep
    refine ⟨hp.exec hstep, hend.exec hp hstep, ha.exec hp hstep, hs.exec hD hp hend ha ?_ hstep⟩
    rintro p rfl hcpu hrun hclean
    exact hfree hok hend hcpu hrun hclean
  exact hall.2.2.2

end Promises

/-! ## No join returns early -/

/-- A thread with this number has been put on `ended_tcbs`. -/
def HasEnded (s : Machine) (thread : Worker) : Prop :=
  ∃ q ∈ s.endedTcbs.nodes, (s.tcbAt q).threadId = thread

theorem HasEnded.mono (h : s.HasEnded thread)
    (hended : ∀ q ∈ s.endedTcbs.nodes, q ∈ s'.endedTcbs.nodes ∧
      (s'.tcbAt q).threadId = (s.tcbAt q).threadId) : s'.HasEnded thread := by
  obtain ⟨q, hq, rfl⟩ := h
  exact ⟨q, (hended q hq).1, (hended q hq).2⟩

/-- Every call of `worker_join` that has come back was about a thread that has ended. -/
abbrev Awaited (s : Machine) : Prop := s.Promises fun s _ _ thread _ => s.HasEnded thread

theorem lasting_hasEnded : Lasting fun s _ _ thread _ => s.HasEnded thread where
  mono := fun hd hid hended _ => hd.mono fun q hq => ⟨hended hq, hid q (.inl hq)⟩
  store := fun _ hin _ => ⟨_, hin, rfl⟩

namespace Awaited

/-- A thread comes out of `worker_join` when the thread it has called it for has ended. -/
theorem of_joinStep (h : s.Awaited) (ha : s.Awake) (hrun : s.running = some p)
    (hcpu : s.cpu = .thread) (hstep : JoinStep s p e s') (hout : s'.ctl p = .program) :
    ∃ stage, (s.ctl p).joinStage = some stage ∧
      (stage.thread ≠ NONEXISTENT_THREAD → s.HasEnded stage.thread) := by
  cases hstep with
  | call t a hctl =>
    unfold workerJoin at hout
    dsimp only at hout
    split at hout <;> simp at hout
  | store elapsed ended t a s₁ hctl hstore =>
    have hstage : (s.ctl p).joinStage = some (.storing ended t a) := by
      rw [hctl]
      rfl
    exact ⟨_, hstage, fun _ => ⟨ended, h.storing p ended t a hstage⟩⟩
  | register elapsed t a hctl => simp at hout
  | retval elapsed t a hctl => simp at hout
  | done elapsed t a hctl =>
    have hstage : (s.ctl p).joinStage = some (.pending t a) := by
      rw [hctl]
      rfl
    refine ⟨_, hstage, fun hne => (h.pending p t a hstage).resolve_left fun htid => hne ?_⟩
    -- a thread that is back from the scheduler does not wait
    exact htid.symm.trans (ha hcpu p _ hrun hctl)

/-- The thread whose cleanup clears a `join_tid` is the one that was waited for. -/
theorem released (hok : s.cleanExitedWorkerThread p = .ok s') :
    Released (fun s _ _ thread _ => s.HasEnded thread) s s' := by
  intro c t a hstage htid hwoken
  obtain ⟨l, notes, -, -, rfl⟩ := cleanExitedWorkerThread_ok hok
  have hsame : (woken s.tcbAt (s.tcbAt p).threadId l.nodes p).threadId = (s.tcbAt p).threadId := by
    rw [woken_eq]
  refine ⟨p, List.mem_cons_self, hsame.trans ?_⟩
  by_contra hne
  refine hwoken ?_
  change (woken s.tcbAt (s.tcbAt p).threadId l.nodes c).joinTid = t
  simp [woken, wake, htid, Ne.symm hne]

end Awaited

theorem awaited_of_execution (h : Execution (Machine.exec policy) ok (initLibrary garbage) es s) :
    s.Awaited :=
  .of_execution lasting_hasEnded (fun _ _ _ _ hok => Awaited.released hok) h

/-- When a join of a thread has returned, the function of that thread has. -/
theorem joined_of_execution (h : Execution (Machine.exec policy) ok (initLibrary garbage) es s)
    (hjoined : .joined c thread valuePtr ∈ s.history) (hthread : thread ≠ NONEXISTENT_THREAD) :
    ∃ q ∈ s.endedTcbs.nodes, (s.tcbAt q).threadId = thread ∧
      s.Finished q (s.tcbAt q).retValue := by
  obtain ⟨later, earlier, hsplit⟩ := List.append_of_mem hjoined
  obtain ⟨q, hq, hid⟩ := (awaited_of_execution h).results c thread valuePtr earlier
    ⟨later, hsplit.symm⟩ hthread
  exact ⟨q, hq, hid, (endings_of_execution h).ended q hq⟩

/-- The main thread waits for the one it has made, which is preempted once. -/
def joinAfterSignal : List Event :=
  [.call (.create 100), .proceed 0, .call .yield, .proceed 0, .proceed 0, .proceed 0, .schedule,
    .signal, .schedule, .proceed 0, .call (.join 2 0), .proceed 0, .signal, .schedule, .finish,
    .cleanup, .schedule, .proceed 0, .proceed 5, .proceed 0, .proceed 0, .schedule, .proceed 0]

theorem joined_joinAfterSignal :
    ∃ s, Execution (Machine.exec .mlfq) (fun _ _ => True) (initLibrary ⟨0, 0, none⟩)
        joinAfterSignal s ∧ .joined 0 2 0 ∈ s.history ∧
      ∃ q ∈ s.endedTcbs.nodes, (s.tcbAt q).threadId = 2 ∧ s.Finished q (s.tcbAt q).retValue := by
  have hseen : (replay (Machine.exec .mlfq) (initLibrary ⟨0, 0, none⟩) joinAfterSignal).map
      Machine.history = .ok [.joined 0 2 0, .finished 1 0, .joining 0 2 0, .enqueued 1] := rfl
  obtain ⟨s, -, hs, hhist⟩ := Execution.of_observed hseen
  have hjoined : .joined 0 2 0 ∈ s.history := by simp [hhist]
  exact ⟨s, hs, hjoined, joined_of_execution hs hjoined (by decide)⟩

end Machine

end UserLevelOs.Threads
