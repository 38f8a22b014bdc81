import UserLevelOs.Threads.Accounts

/-!
# Which assertions can fail

While the sizes cannot wrap, a round of a scheduler fails only if no thread is there to run:
of the assertions on the lists and queues none does.

## Main statements

* `Placed.schedPsjf_raises`, `Covered.schedule_mlfq_raises`.
* `Covered.clean_raises` — a round of the cleanup's context.
* `execThread_raises` — a thread fails only over mutexes.
-/

namespace UserLevelOs.Threads

open UserLevelOs.Lib

/-- What computes `x` does not fault. -/
abbrev Sound {α : Type} (x : Except Fault α) : Prop := Raises x fun _ => False

namespace Machine

variable {policy : Policy} {s s' : Machine} {p : TcbPtr} {tcbAt : Tcbs} {l : ThreadList}
  {q : Queue} {level fuel n : ℕ} {e : Event}

/-! ## Lists and queues -/

theorem dequeue_sound (hc : Counted q.size q.nodes) (hlt : q.nodes.length < 65536)
    (hne : ¬ isEmpty q = true) : Sound (dequeue q) := by
  cases hnodes : q.nodes with
  | nil =>
    have hzero : q.size = 0 := (hc.eq_zero hlt).mpr hnodes
    exact absurd (by simp [isEmpty, hzero]) hne
  | cons x rest =>
    rw [dequeue_cons hc hlt hnodes]
    exact .ok _

theorem dequeue_length (hc : Counted q.size q.nodes) (hlt : q.nodes.length < 65536) {q' : Queue}
    (hdeq : dequeue q = .ok (p, q')) : q'.nodes.length + 1 = q.nodes.length := by
  rw [dequeue_nodes hc hlt hdeq]
  rfl

/-- Fewer threads are distinct as well. -/
theorem distinct_of_le {ps qs : List TcbPtr} (h : Distinct tcbAt ps)
    (hle : (qs : Multiset TcbPtr) ≤ ps) : Distinct tcbAt qs := by
  obtain ⟨rs, hperm, hsub⟩ := Multiset.coe_le.mp hle
  exact (h.sublist hsub).perm hperm

theorem insertByUsage_sound {x : TcbPtr} {xs : List TcbPtr}
    (hd : Distinct tcbAt (x :: xs ++ l.nodes)) (hs : l.nodes.Pairwise (GoesBefore tcbAt)) :
    Sound (insertByUsage tcbAt l x) := by
  have hfresh : ∀ r ∈ l.nodes, (tcbAt r).threadId ≠ (tcbAt x).threadId := fun r hr heq =>
    (List.pairwise_cons.mp hd).1 r (by simp [hr]) heq.symm
  rw [insertByUsage_eq hfresh hs]
  exact .ok _

/-- Inserting a thread leaves those still to come and those in the list distinct. -/
theorem distinct_insertByUsage {x : TcbPtr} {xs : List TcbPtr} {l' : ThreadList}
    (hd : Distinct tcbAt (x :: xs ++ l.nodes)) (h : insertByUsage tcbAt l x = .ok l') :
    Distinct tcbAt (xs ++ l'.nodes) := by
  refine distinct_of_le hd ?_
  calc
    ((xs ++ l'.nodes : List TcbPtr) : Multiset TcbPtr) = xs + l'.nodes := (Multiset.coe_add _ _).symm
    _ ≤ xs + ({x} + l.nodes) := add_le_add_right (Inserts.single h).le _
    _ = {x} + (xs + l.nodes) := by abel
    _ = (x :: xs ++ l.nodes : List TcbPtr) := by simp

theorem removeFrom_sound (hc : Counted l.size l.nodes) (hlt : l.nodes.length < 65536)
    {target : Worker} (hp : contains tcbAt l target = some p) : Sound (removeFrom tcbAt l target) := by
  have hsize : l.size ≠ 0 := fun hzero => by
    simp [contains, (hc.eq_zero hlt).mp hzero] at hp
  rw [removeFrom_eq hsize hp]
  exact .ok _

/-! ## Shortest job first -/

theorem psjfArrivals_sound (hc : Counted s.qArrival.size s.qArrival.nodes)
    (hlt : s.qArrival.nodes.length < 65536) (hfuel : s.qArrival.nodes.length < fuel)
    (hs : s.tcbs.nodes.Pairwise (GoesBefore s.tcbAt))
    (hd : Distinct s.tcbAt (s.qArrival.nodes ++ s.tcbs.nodes)) : Sound (psjfArrivals fuel s) := by
  induction fuel generalizing s with
  | zero => exact absurd hfuel (Nat.not_lt_zero _)
  | succ fuel ih =>
    unfold psjfArrivals
    refine .ite (fun _ => .ok _) fun hne => (dequeue_sound hc hlt hne).bind ?_
    rintro ⟨x, q⟩ hdeq
    have hlen := dequeue_length hc hlt hdeq
    rw [dequeue_nodes hc hlt hdeq] at hd
    refine (insertByUsage_sound hd hs).bind fun l hins => ?_
    exact ih (counted_dequeue hc hdeq) (by simp; omega) (by simp; omega)
      ((Inserts.single hins).sorted hs) (distinct_insertByUsage hd hins)

theorem insertRunning_sound (hs : s.tcbs.nodes.Pairwise (GoesBefore s.tcbAt))
    (hd : Distinct s.tcbAt (s.running.toList ++ s.tcbs.nodes)) : Sound s.insertRunning := by
  unfold insertRunning
  split
  · exact .ok _
  · next p hrun =>
    rw [hrun] at hd
    have hd' : Distinct s.tcbAt (p :: [] ++ s.tcbs.nodes) := hd
    exact (insertByUsage_sound hd' hs).bind fun _ _ => .ok _

theorem findFirstUnblockedThread_raises :
    Raises (findFirstUnblockedThread tcbAt l) (· = .assertion .firstUnblocked) := by
  unfold findFirstUnblockedThread
  split
  · exact .error rfl
  · exact .ok _

/-- A round of `sched_psjf` fails only if every thread is blocked. -/
theorem Placed.schedPsjf_raises (h : s.Placed .psjf) (hlt : s.allocated < 65536) :
    Raises s.schedPsjf (· = .assertion .firstUnblocked) := by
  have hroom := h.length_le hlt
  have hall : Distinct s.tcbAt (s.running.toList ++ (s.qArrival.nodes ++ s.tcbs.nodes)) := by
    have hle : ((s.running.toList ++ (s.qArrival.nodes ++ s.tcbs.nodes) : List TcbPtr) :
        Multiset TcbPtr) ≤ s.pool .psjf := by
      simp only [← Multiset.coe_add]
      calc
        _ = (s.qArrival.nodes : Multiset TcbPtr) + s.tcbs.nodes + 0 + s.running.toList := by abel
        _ ≤ s.pool .psjf := by
          unfold pool ready
          gcongr
          exact Multiset.zero_le _
    exact h.distinct_of_nodup (by omega) (Multiset.coe_nodup.mp (Multiset.nodup_of_le hle h.nodup))
      fun r hr => h.lt_allocated (Multiset.mem_of_le hle hr)
  have harrivals : Sound (psjfArrivals (s.qArrival.size.toNat + 1) s) := by
    refine psjfArrivals_sound h.counted.1 (by omega) ?_ (h.sorted rfl) ?_
    · rw [h.counted.1.toNat (by omega)]
      exact Nat.lt_succ_self _
    · exact hall.sublist (List.sublist_append_right _ _)
  refine (harrivals.mono fun _ hf => hf.elim).bind fun s₁ h₁ => ?_
  obtain ⟨xs, q, l₁, rfl, hleaves, -, hinserts₁⟩ := psjfArrivals_ok h₁
  have hmid : Distinct s.tcbAt (s.running.toList ++ l₁.nodes) := by
    refine distinct_of_le hall ?_
    simp only [← Multiset.coe_add]
    gcongr
    calc
      (l₁.nodes : Multiset TcbPtr) ≤ xs + s.tcbs.nodes := hinserts₁.le
      _ ≤ s.qArrival.nodes + s.tcbs.nodes := by
        gcongr
        exact (Multiset.le_add_right _ _).trans hleaves.le
  have hrunning : Sound ({ s with qArrival := q, tcbs := l₁ } : Machine).insertRunning :=
    insertRunning_sound (hinserts₁.sorted (h.sorted rfl)) hmid
  refine (hrunning.mono fun _ hf => hf.elim).bind fun s₂ h₂ => ?_
  obtain ⟨l, rfl, hinserts₂⟩ := insertRunning_ok h₂
  refine findFirstUnblockedThread_raises.bind fun first hfirst => ?_
  have hmem : first ∈ l.nodes := List.mem_of_find?_eq_some (findFirstUnblockedThread_ok hfirst)
  obtain ⟨r, hr⟩ := Option.isSome_iff_exists.mp (contains_isSome.mpr ⟨first, hmem, rfl⟩)
  have hlen : l.nodes.length < 65536 := by
    have hcard := Multiset.card_le_card (hinserts₁.trans hinserts₂).le
    have hxs := Multiset.card_le_card hleaves.le
    simp [ready] at hcard hxs hroom
    omega
  have hcounted := (hinserts₁.trans hinserts₂).counted h.countedTcbs
  exact ((removeFrom_sound hcounted hlen hr).mono fun _ hf => hf.elim).bind fun _ _ => .ok _

/-! ## Multilevel feedback queues -/

theorem mlfqArrivals_sound (hc : Counted s.qArrival.size s.qArrival.nodes)
    (hlt : s.qArrival.nodes.length < 65536) (hfuel : s.qArrival.nodes.length < fuel) :
    Sound (mlfqArrivals fuel s) := by
  induction fuel generalizing s with
  | zero => exact absurd hfuel (Nat.not_lt_zero _)
  | succ fuel ih =>
    unfold mlfqArrivals
    refine .ite (fun _ => .ok _) fun hne => (dequeue_sound hc hlt hne).bind ?_
    rintro ⟨x, q⟩ hdeq
    have hlen := dequeue_length hc hlt hdeq
    exact ih (counted_dequeue hc hdeq) (by simp; omega) (by simp; omega)

theorem demote_priorityLevel {t : Tcb} (h : t.priorityLevel < QUEUE_LEVELS) :
    (demote t).priorityLevel < QUEUE_LEVELS := by
  unfold demote
  split
  · dsimp only
    split <;> omega
  · exact h

theorem requeueRunning_sound
    (h : ∀ p, s.running = some p → (s.tcbAt p).priorityLevel < QUEUE_LEVELS) :
    Sound s.requeueRunning := by
  unfold requeueRunning
  split
  · exact .ok _
  · next p hrun =>
    have hlevel := demote_priorityLevel (h p hrun)
    exact .ite (fun _ => .ok _) fun hge => absurd (by simpa using hlevel) hge

theorem Settled.length_lt (h : s.Settled) (hlevel : level < QUEUE_LEVELS) :
    s.qArrival.nodes.length < 65536 ∧ (s.allQueue level).nodes.length < 65536 := by
  have hle := length_le_afoot (s := s) hlevel
  have hroom := h.room
  constructor <;> omega

theorem boostLevel_sound (hpos : level ≠ 0)
    (hc : Counted (s.allQueue level).size (s.allQueue level).nodes)
    (hlt : (s.allQueue level).nodes.length < 65536)
    (hfuel : (s.allQueue level).nodes.length < fuel) : Sound (boostLevel level fuel s) := by
  induction fuel generalizing s with
  | zero => exact absurd hfuel (Nat.not_lt_zero _)
  | succ fuel ih =>
    unfold boostLevel
    refine .ite (fun _ => .ok _) fun hne => (dequeue_sound hc hlt hne).bind ?_
    rintro ⟨x, q⟩ hdeq
    have hlen := dequeue_length hc hlt hdeq
    have hc' := counted_dequeue hc hdeq
    exact ih (by simpa [hpos] using hc') (by simp [hpos]; omega) (by simp [hpos]; omega)

theorem boostLevels_sound {levels : List ℕ} (h : s.Settled) (hrun : s.running = none)
    (hlevels : ∀ l ∈ levels, l < QUEUE_LEVELS ∧ l ≠ 0) : Sound (boostLevels levels s) := by
  induction levels generalizing s with
  | nil => exact .ok _
  | cons level levels ih =>
    obtain ⟨hlevel, hpos⟩ := hlevels level (by simp)
    have hlt := (h.length_lt hlevel).2
    have hfirst : Sound (boostLevel level ((s.allQueue level).size.toNat + 1) s) := by
      refine boostLevel_sound hpos (h.counted.2 level) hlt ?_
      rw [(h.counted.2 level).toNat hlt]
      exact Nat.lt_succ_self _
    refine hfirst.bind fun s₁ h₁ => ?_
    obtain ⟨hflow, hrun₁, -, -⟩ := boostLevel_ok hrun hlevel h₁
    exact ih (h.flow hflow) hrun₁ fun l hl => hlevels l (by simp [hl])

/-- Once all threads are in the first queue it is as long as `tcbs`. -/
theorem boostAllQueues_sound (h : s.Settled) (hrun : s.running = none) :
    Sound s.boostAllQueues := by
  refine (boostLevels_sound h hrun (by decide)).bind fun s₁ h₁ => ?_
  obtain ⟨hflow, hrun₁, hempty, -⟩ := boostLevels_ok hrun (by decide) h₁
  have h' := h.flow hflow
  have hall : (s₁.tcbs.nodes : Multiset TcbPtr) = (s₁.allQueue 0).nodes := by
    rw [h'.agree, hrun₁, queued_of_boosted h'.counted h'.room hempty]
    simp
  have hsize : (s₁.allQueue 0).size = s₁.tcbs.size := by
    have hlen : s₁.tcbs.nodes.length = (s₁.allQueue 0).nodes.length := by
      simpa using congrArg Multiset.card hall
    rw [show (s₁.allQueue 0).size = _ from h'.counted.2 0, show s₁.tcbs.size = _ from h'.countedTcbs,
      hlen]
  rw [assert_bind (by simp [hsize])]
  exact .ok _

theorem boostWhenDue_sound (h : s.Settled) (hrun : s.running = none) : Sound s.boostWhenDue := by
  unfold boostWhenDue
  exact .ite (fun _ => boostAllQueues_sound (h.flow (flow_total _)) hrun) fun _ => .ok _

theorem rotate_sound (hc : Counted q.size q.nodes) (hlt : q.nodes.length < 65536)
    (hn : n ≤ q.nodes.length) : Sound (rotate tcbAt n q) := by
  induction n generalizing q with
  | zero => exact .ok _
  | succ n ih =>
    have hne : ¬ isEmpty q = true := fun hempty => by
      have hnil := (hc.eq_zero hlt).mp (by simpa [isEmpty] using hempty)
      simp [hnil] at hn
    refine (dequeue_sound hc hlt hne).bind ?_
    rintro ⟨x, q₁⟩ hdeq
    have hlen := dequeue_length hc hlt hdeq
    have hc₁ := counted_dequeue hc hdeq
    have hnodes := enqueue_nodes (x := x) hc₁ (by omega)
    exact .ite (fun _ => ih (counted_enqueue hc₁) (by simp [hnodes]; omega) (by simp [hnodes]; omega))
      fun _ => .ok _

theorem selectFrom_sound {levels : List ℕ} (h : s.Settled) (hrun : s.running = none)
    (hlevels : ∀ l ∈ levels, l < QUEUE_LEVELS) : Sound (selectFrom levels s) := by
  induction levels generalizing s with
  | nil => exact .ok _
  | cons level levels ih =>
    have hlevel := hlevels level (by simp)
    have hc := h.counted.2 level
    have hlt := (h.length_lt hlevel).2
    refine (rotate_sound hc hlt (hc.toNat hlt).le).bind ?_
    rintro ⟨c, q⟩ hrot
    cases c with
    | some p => exact .ok _
    | none =>
      have htake := flow_take hrun hlevel (rotate_ok hrot).1
      have hsame : { s.setLevel level q with running := none } = s.setLevel level q := by
        simp [setLevel, hrun]
      rw [hsame] at htake
      exact ih (h.flow htake) (by simpa using hrun) fun l hl => hlevels l (by simp [hl])

theorem enterMlfq_sound (h : s.Placed .mlfq) : Sound s.enterMlfq := by
  unfold enterMlfq
  refine .ite (fun _ => .ok _) fun he => ?_
  obtain ⟨htcbs, -, hrun, -⟩ := h.unentered (by simpa using he)
  exact insertRunning_sound (by simp [htcbs]) (by simp [htcbs, hrun, Distinct])

/-- A round of `sched_mlfq` fails only if every thread is blocked. -/
theorem Settled.schedMlfq_raises (h : s.Settled) (hnd : s.afoot.Nodup) (hl : s.Leveled) :
    Raises s.schedMlfq (· = .assertion .mlfqRunning) := by
  have harrivals : Sound (mlfqArrivals (s.qArrival.size.toNat + 1) s) := by
    have hlt := (h.length_lt (by decide : 0 < QUEUE_LEVELS)).1
    refine mlfqArrivals_sound h.counted.1 hlt ?_
    rw [h.counted.1.toNat hlt]
    exact Nat.lt_succ_self _
  refine (harrivals.mono fun _ hf => hf.elim).bind fun s₁ h₁ => ?_
  obtain ⟨hflow₁, -, -⟩ := mlfqArrivals_ok h₁
  have hrequeue := requeueRunning_sound (hflow₁.leveled hnd hl).running
  refine (hrequeue.mono fun _ hf => hf.elim).bind fun s₂ h₂ => ?_
  obtain ⟨hflow₂, hrun₂⟩ := requeueRunning_ok h₂
  have hsettled₂ := (h.flow hflow₁).flow hflow₂
  refine ((boostWhenDue_sound hsettled₂ hrun₂).mono fun _ hf => hf.elim).bind fun s₃ h₃ => ?_
  obtain ⟨hflow₃, hrun₃⟩ := boostWhenDue_ok hrun₂ h₃
  have hselect : Sound (selectFrom (List.range QUEUE_LEVELS) s₃) :=
    selectFrom_sound (hsettled₂.flow hflow₃) hrun₃ (by simp)
  refine (hselect.mono fun _ hf => hf.elim).bind fun t _ => ?_
  split
  · exact .error rfl
  · exact .ok _

theorem Covered.schedule_mlfq_raises (h : s.Covered .mlfq) (hp : s.Placed .mlfq)
    (hlt : s.allocated < 65536) :
    Raises (s.schedule .mlfq) (· = .assertion .mlfqRunning) := by
  refine ((enterMlfq_sound hp).mono fun _ hf => hf.elim).bind fun s₁ h₁ => ?_
  obtain ⟨l, hl, rfl⟩ := Placed.enterMlfq_ok h₁
  refine (h.settled hp hlt hl).schedMlfq_raises ?_ ?_
  · exact hp.afoot_nodup
  · obtain ⟨ha, hq, hr⟩ := hp.leveled rfl
    exact ⟨ha, hq, hr⟩

/-! ## The cleanup's context -/

theorem Covered.tcbs_length_lt (h : s.Covered policy) (hp : s.Placed policy)
    (hlt : s.allocated < 65536) : s.tcbs.nodes.length < 65536 := by
  have hroom := hp.length_le hlt
  cases policy with
  | psjf =>
    simp only [ready, Multiset.coe_card] at hroom
    omega
  | mlfq =>
    by_cases he : s.schedulerEntered = true
    · have hcard := congrArg Multiset.card (h.listed rfl he)
      simp only [ready, Multiset.coe_card, Multiset.card_add] at hcard hroom
      omega
    · simp [(hp.unentered (by simpa using he)).1]

theorem alertLoop_raises {ended : Worker} {ret : Value} {ps : List TcbPtr} :
    Raises (alertLoop ended ret ps s) (· = .nullStore) := by
  induction ps generalizing s with
  | nil => exact .ok _
  | cons ptr ps ih =>
    unfold alertLoop
    refine .ite (fun _ => .bind ?_ fun _ _ => ih) fun _ => ih
    exact .ite (fun _ => .ite (fun _ => .error rfl) fun _ => .ok _) fun _ => .ok _

/-- A thread that has ended is taken out of `tcbs` without a failure. -/
theorem Covered.clean_raises (h : s.Covered policy) (hp : s.Placed policy)
    (hlt : s.allocated < 65536) :
    Raises (s.cleanExitedWorkerThread p)
      fun f => f = .assertion .someEnded ∨ f = .nullStore := by
  have hremove : Sound (s.removeRunning p) := by
    unfold removeRunning
    split
    · exact .ok _
    · next r hr =>
      exact (removeFrom_sound hp.countedTcbs (h.tcbs_length_lt hp hlt) hr).bind fun _ _ => .ok _
  refine (hremove.mono fun _ hf => hf.elim).bind fun s₁ _ => .bind ?_ fun _ _ => ?_
  · exact .ite (fun _ => .ok _) fun _ => .error (.inl rfl)
  · exact (alertLoop_raises.mono fun _ hf => .inr hf).bind fun _ _ => .ok _

/-! ## Threads -/

/-- Nothing is stored through `NULL`, and an assertion that failed is one over a mutex. -/
def OverMutex (f : Fault) : Prop :=
  f ≠ .nullStore ∧
    ∀ a, f = .assertion a → a ∈ [.mutexExists, .lockFetched, .unlockHeld, .destroyFront]

section Mutexes

variable {m : Mutexes} {target : WorkerMutex} {mutex : Addr}

theorem deref_raises {ptr : Option NodePtr} : Raises (m.deref ptr) OverMutex := by
  unfold Mutexes.deref
  split
  · exact .error (by simp [OverMutex])
  · split
    · exact .error (by simp [OverMutex])
    · exact .ok _

theorem fetchFromMutexes_raises : Raises (fetchFromMutexes m target) OverMutex := by
  unfold fetchFromMutexes
  generalize m.front = ptr
  generalize m.mallocs = fuel
  induction fuel generalizing ptr with
  | zero =>
    cases ptr with
    | none => exact .ok _
    | some ptr => exact .error (by simp [OverMutex])
  | succ fuel ih =>
    cases ptr with
    | none => exact .ok _
    | some ptr => exact deref_raises.bind fun _ _ => .ite (fun _ => .ok _) fun _ => ih _

theorem isHeldBy_raises {tid : Worker} : Raises (isHeldBy m tid target) OverMutex := by
  refine fetchFromMutexes_raises.bind fun found _ => ?_
  cases found with
  | none => exact .error (by simp [OverMutex])
  | some n => exact deref_raises.bind fun _ _ => .ok _

theorem workerMutexInit_raises {item : NodePtr} :
    Raises (s.workerMutexInit mutex item) OverMutex := by
  unfold workerMutexInit
  split
  · exact .error (by simp [OverMutex])
  · exact .ok _

theorem workerMutexLock_raises : Raises (s.workerMutexLock p mutex) OverMutex := by
  refine isHeldBy_raises.bind fun _ _ => .ite (fun _ => ?_) fun _ => .ok _
  refine fetchFromMutexes_raises.bind fun found _ => ?_
  cases found with
  | none => exact .error (by simp [OverMutex])
  | some n => exact deref_raises.bind fun _ _ => .ok _

theorem workerMutexUnlock_raises : Raises (s.workerMutexUnlock p mutex) OverMutex := by
  refine isHeldBy_raises.bind fun _ _ => .bind ?_ fun _ _ => ?_
  · exact .ite (fun _ => .ok _) fun _ => .error (by simp [OverMutex])
  · refine fetchFromMutexes_raises.bind fun found _ => ?_
    cases found with
    | none => exact .error (by simp [OverMutex])
    | some n => exact deref_raises.bind fun _ _ => .ok _

theorem workerMutexDestroy_raises : Raises (s.workerMutexDestroy p mutex) OverMutex :=
  isHeldBy_raises.bind fun _ _ => .ite (fun _ => .ok _) fun _ =>
    workerMutexUnlock_raises.bind fun _ _ => .ok _

theorem destroyStmt_raises {masked : Bool} {num : WorkerMutex} {pc : DestroyAt} :
    Raises (s.destroyStmt p masked mutex num pc) OverMutex := by
  cases pc with
  | readFront =>
    simp only [destroyStmt]
    split
    · exact .error (by simp [OverMutex])
    · exact .ok _
  | testFront front => exact deref_raises.bind fun _ _ => .ok _
  | clearFront front => exact .ok _
  | unlinkFront front => exact deref_raises.bind fun _ _ => .ok _
  | startWalk front => exact deref_raises.bind fun _ _ => .ok _
  | testPtr prev ptr =>
    cases ptr with
    | none => exact .ok _
    | some ptr => exact deref_raises.bind fun _ _ => .ok _
  | clearPtr prev ptr => exact .ok _
  | unlinkPtr prev ptr =>
    cases prev with
    | none => exact .error (by simp [OverMutex])
    | some prev => exact deref_raises.bind fun _ _ => deref_raises.bind fun _ _ => .ok _
  | advance prev ptr => exact deref_raises.bind fun _ _ => deref_raises.bind fun _ _ => .ok _
  | release node => exact deref_raises.bind fun _ _ => .ok _
  | unblock => exact .ok _

end Mutexes

theorem call_raises {c : Call} : Raises (s.call p c) OverMutex := by
  cases c with
  | create thread => exact .ok _
  | yield => exact .ok _
  | exit valuePtr => exact .ok _
  | join thread valuePtr => exact .ok _
  | mutexInit mutex item => exact workerMutexInit_raises
  | mutexLock mutex => exact workerMutexLock_raises
  | mutexUnlock mutex => exact workerMutexUnlock_raises
  | mutexDestroy mutex => exact workerMutexDestroy_raises

theorem proceed_raises {elapsed : UInt32} : Raises (s.proceed p elapsed) OverMutex := by
  unfold proceed
  split
  · exact .error (by simp [OverMutex])
  · exact .ok _
  · refine .bind (.ite (fun hne => .ite (fun hnull => ?_) fun _ => .ok _) fun _ => .ok _)
      fun _ _ => .ok _
    simp [hnull] at hne
  · exact .ok _
  · exact .ok _
  · exact .ok _
  · exact .ok _
  · exact .ok _
  · exact workerMutexLock_raises
  · exact destroyStmt_raises

/-- The assertions that a thread's own step may fail are those over mutexes. -/
theorem execThread_raises : Raises (s.execThread p e) OverMutex := by
  have hnow : OverMutex .notNow := by simp [OverMutex]
  cases e with
  | call c => exact .ite (fun _ => call_raises) fun _ => .error hnow
  | assign a v => exact .ite (fun _ => .ok _) fun _ => .error hnow
  | finish => exact .ite (fun _ => .ok _) fun _ => .error hnow
  | proceed elapsed => exact proceed_raises
  | signal => exact .ite (fun _ => .error hnow) fun _ => .ok _
  | schedule => exact .error hnow
  | cleanup => exact .error hnow

/-! ## Stores -/

/-- What a round of a scheduler does never stores through `NULL`. -/
abbrev NoNullStore {α : Type} (x : Except Fault α) : Prop := Raises x (· ≠ .nullStore)

theorem assert_noNullStore {c : Bool} {a : Assertion} : NoNullStore (assert c a) := by
  unfold assert
  exact .ite (fun _ => .ok _) fun _ => .error (by simp)

theorem dequeue_noNullStore : NoNullStore (dequeue q) := by
  refine assert_noNullStore.bind fun _ _ => .ite (fun _ => ?_) fun _ => ?_
  · split
    · exact .error (by simp)
    · exact .ok _
  · split
    · exact .error (by simp)
    · exact .ok _

theorem insertByUsage_noNullStore {x : TcbPtr} : NoNullStore (insertByUsage tcbAt l x) :=
  assert_noNullStore.bind fun _ _ => assert_noNullStore.bind fun _ _ =>
    assert_noNullStore.bind fun _ _ => .ok _

theorem removeFrom_noNullStore {target : Worker} : NoNullStore (removeFrom tcbAt l target) := by
  refine assert_noNullStore.bind fun _ _ => ?_
  split
  · exact .error (by simp)
  · exact .ok _

theorem insertRunning_noNullStore : NoNullStore s.insertRunning := by
  unfold insertRunning
  split
  · exact .ok _
  · exact insertByUsage_noNullStore.bind fun _ _ => .ok _

theorem psjfArrivals_noNullStore : NoNullStore (psjfArrivals fuel s) := by
  induction fuel generalizing s with
  | zero => exact .error (by simp)
  | succ fuel ih =>
    unfold psjfArrivals
    exact .ite (fun _ => .ok _) fun _ => dequeue_noNullStore.bind fun _ _ =>
      insertByUsage_noNullStore.bind fun _ _ => ih

theorem schedPsjf_noNullStore : NoNullStore s.schedPsjf := by
  refine psjfArrivals_noNullStore.bind fun _ _ => insertRunning_noNullStore.bind fun _ _ => ?_
  refine (findFirstUnblockedThread_raises.mono fun _ hf => ?_).bind fun _ _ =>
    removeFrom_noNullStore.bind fun _ _ => .ok _
  simp [hf]

theorem mlfqArrivals_noNullStore : NoNullStore (mlfqArrivals fuel s) := by
  induction fuel generalizing s with
  | zero => exact .error (by simp)
  | succ fuel ih =>
    unfold mlfqArrivals
    exact .ite (fun _ => .ok _) fun _ => dequeue_noNullStore.bind fun _ _ => ih

theorem requeueRunning_noNullStore : NoNullStore s.requeueRunning := by
  unfold requeueRunning
  split
  · exact .ok _
  · exact .ite (fun _ => .ok _) fun _ => .error (by simp)

theorem boostLevel_noNullStore : NoNullStore (boostLevel level fuel s) := by
  induction fuel generalizing s with
  | zero => exact .error (by simp)
  | succ fuel ih =>
    unfold boostLevel
    exact .ite (fun _ => .ok _) fun _ => dequeue_noNullStore.bind fun _ _ => ih

theorem boostLevels_noNullStore {levels : List ℕ} : NoNullStore (boostLevels levels s) := by
  induction levels generalizing s with
  | nil => exact .ok _
  | cons level levels ih => exact boostLevel_noNullStore.bind fun _ _ => ih

theorem boostWhenDue_noNullStore : NoNullStore s.boostWhenDue := by
  unfold boostWhenDue
  exact .ite (fun _ => boostLevels_noNullStore.bind fun _ _ => assert_noNullStore.bind fun _ _ => .ok _)
    fun _ => .ok _

theorem rotate_noNullStore : NoNullStore (rotate tcbAt n q) := by
  induction n generalizing q with
  | zero => exact .ok _
  | succ n ih => exact dequeue_noNullStore.bind fun _ _ => .ite (fun _ => ih) fun _ => .ok _

theorem selectFrom_noNullStore {levels : List ℕ} : NoNullStore (selectFrom levels s) := by
  induction levels generalizing s with
  | nil => exact .ok _
  | cons level levels ih =>
    refine rotate_noNullStore.bind ?_
    rintro ⟨c, q⟩ -
    cases c with
    | none => exact ih
    | some p => exact .ok _

theorem schedule_noNullStore : NoNullStore (s.schedule policy) := by
  cases policy with
  | psjf => exact schedPsjf_noNullStore
  | mlfq =>
    refine .bind (.ite (fun _ => .ok _) fun _ => insertRunning_noNullStore) fun _ _ => ?_
    refine mlfqArrivals_noNullStore.bind fun _ _ => requeueRunning_noNullStore.bind fun _ _ =>
      boostWhenDue_noNullStore.bind fun _ _ => selectFrom_noNullStore.bind fun _ _ => ?_
    split
    · exact .error (by simp)
    · exact .ok _

/-! ## Every step -/

/-- Which assertions can fail at all. -/
theorem Covered.exec_raises (h : s.Covered policy) (hp : s.Placed policy)
    (hlt : s.allocated < 65536) :
    Raises (s.exec policy e) fun f => OverMutex f ∨
      f ∈ [.assertion .firstUnblocked, .assertion .mlfqRunning, .assertion .someEnded, .nullStore] := by
  unfold Machine.exec
  split
  · exact execThread_raises.mono fun _ hf => .inl hf
  · cases policy with
    | psjf => exact (hp.schedPsjf_raises hlt).mono fun _ hf => .inr (by simp [hf])
    | mlfq => exact (h.schedule_mlfq_raises hp hlt).mono fun _ hf => .inr (by simp [hf])
  · exact (h.clean_raises hp hlt).mono fun _ hf => .inr (by rcases hf with hf | hf <;> simp [hf])
  · exact .error (.inl (by simp [OverMutex]))

end Machine

end UserLevelOs.Threads
