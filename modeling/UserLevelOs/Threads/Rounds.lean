import UserLevelOs.Lib.Levels
import UserLevelOs.Threads.Dispatch
import UserLevelOs.Threads.Selection
import UserLevelOs.Threads.Usage

/-!
# A round of `sched_mlfq` as one turn on waiting lines

On queues whose sizes count their threads a whole round is a function of the lists alone: those
that have arrived join the first line, the thread that ran the line of its level, a boost makes
one line of all, and the server takes one turn.

## Main definitions

* `Queue.of`, `ThreadList.of` — a list of threads with its size.
* `Machine.waiting`, `Machine.roundTcbs`, `Machine.roundList` — what the round decides on.
* `Machine.mlfqRound` — the round.

## Main statements

* `mlfqArrivals_eq`, `requeueRunning_eq`, `boostLevels_eq`, `selectFrom_eq` — the parts.
* `schedule_mlfq_eq`, `mlfqRound_of_execution`.
-/

namespace UserLevelOs.Threads

open UserLevelOs.Lib

/-! ## Lists with their sizes -/

/-- The queue of some threads. -/
def Queue.of (nodes : List TcbPtr) : Queue := { size := UInt16.ofNat nodes.length, nodes }

/-- The list of some threads. -/
def ThreadList.of (nodes : List TcbPtr) : ThreadList :=
  { size := UInt16.ofNat nodes.length, nodes }

section Sizes

variable {q : Queue} {l : ThreadList} {nodes : List TcbPtr} {x : TcbPtr}

@[simp] theorem Queue.nodes_of (nodes : List TcbPtr) : (Queue.of nodes).nodes = nodes := rfl

theorem Queue.counted_of (nodes : List TcbPtr) : Counted (Queue.of nodes).size nodes := rfl

theorem Queue.eq_of (h : Counted q.size q.nodes) : q = .of q.nodes := by
  rw [Queue.of, ← show q.size = _ from h]

theorem ThreadList.eq_of (h : Counted l.size l.nodes) : l = .of l.nodes := by
  rw [ThreadList.of, ← show l.size = _ from h]

theorem isEmpty_of (hlt : nodes.length < 65536) :
    isEmpty (.of nodes) = true ↔ nodes = [] := by
  rw [← (Queue.counted_of nodes).eq_zero hlt]
  simp [isEmpty]

theorem enqueue_of (hlt : nodes.length < 65536) (x : TcbPtr) :
    enqueue (.of nodes) x = .of (nodes ++ [x]) := by
  have hnodes := enqueue_nodes (x := x) (Queue.counted_of nodes) hlt
  have hcounted := counted_enqueue (x := x) (q := .of nodes) (Queue.counted_of nodes)
  rw [Queue.eq_of hcounted, hnodes]
  rfl

theorem dequeue_of (hlt : (x :: nodes).length < 65536) :
    dequeue (.of (x :: nodes)) = .ok (x, .of nodes) := by
  have hsize : (UInt16.ofNat (x :: nodes).length) - 1 = UInt16.ofNat nodes.length := by
    simp [UInt16.ofNat_add]
  rw [dequeue_cons (Queue.counted_of (x :: nodes)) hlt rfl]
  exact congrArg (fun size => Except.ok (x, Queue.mk size nodes)) hsize

theorem insertAtFront_of (nodes : List TcbPtr) (x : TcbPtr) :
    insertAtFront (.of nodes) x = .of (x :: nodes) := by
  simp [insertAtFront, ThreadList.of, UInt16.ofNat_add]

end Sizes

namespace Machine

variable {policy : Policy} {s s' : Machine} {p next : TcbPtr} {fuel level : ℕ}
  {xs zs : List TcbPtr} {lines : Levels TcbPtr} {garbage : Garbage} {es : List Event}

/-- The machine with other queues. -/
@[simps -fullyApplied]
def withLines (s : Machine) (lines : Levels TcbPtr) : Machine :=
  { s with allQueue := fun level => .of (lines level) }

/-- The queues of the machine are these lines. -/
def HasLines (s : Machine) (lines : Levels TcbPtr) : Prop :=
  s.allQueue = fun level => .of (lines level)

theorem HasLines.eq (h : s.HasLines lines) (level : ℕ) : s.allQueue level = .of (lines level) :=
  congrFun h level

theorem HasLines.withLines (s : Machine) (lines : Levels TcbPtr) : (s.withLines lines).HasLines lines :=
  rfl

theorem HasLines.self (h : s.HasLines lines) : s.withLines lines = s := by
  rw [Machine.withLines, ← show s.allQueue = _ from h]

/-- A level gets another queue. -/
theorem HasLines.setLevel (h : s.HasLines lines) (level : ℕ) (line : List TcbPtr) :
    s.setLevel level (.of line) = s.withLines (Function.update lines level line) := by
  have hall : Function.update s.allQueue level (.of line) =
      fun k => .of (Function.update lines level line k) := by
    funext k
    by_cases hk : k = level
    · subst hk
      simp
    · simp [hk, h.eq k]
  rw [Machine.setLevel, hall]
  rfl

/-! ## The parts of a round -/

/-- Those that have arrived join the first line and are listed, the last one first. -/
theorem mlfqArrivals_eq (hq : s.qArrival = .of xs) (h : s.HasLines lines) (hl : s.tcbs = .of zs)
    (hroom : xs.length + (lines 0).length < 65536) (hfuel : xs.length < fuel) :
    mlfqArrivals fuel s = .ok ({ s with
      qArrival := .of []
      tcbs := .of (xs.reverse ++ zs) }.withLines (lines.join 0 xs)) := by
  induction xs generalizing s lines zs fuel with
  | nil =>
    obtain ⟨fuel, rfl⟩ := Nat.exists_eq_succ_of_ne_zero hfuel.ne'
    have hlines : lines.join 0 [] = lines := by simp [Levels.join]
    rw [mlfqArrivals, if_pos (by rw [hq]; exact (isEmpty_of (by simp)).mpr rfl), hlines,
      List.reverse_nil, List.nil_append, ← hl, ← hq]
    exact congrArg Except.ok h.self.symm
  | cons x xs ih =>
    rw [List.length_cons] at hroom hfuel
    obtain ⟨fuel, rfl⟩ := Nat.exists_eq_succ_of_ne_zero (show fuel ≠ 0 by omega)
    have hne : ¬ isEmpty s.qArrival = true := by
      rw [hq, isEmpty_of (by rw [List.length_cons]; omega)]
      simp
    have hjoin : (lines.join 0 [x]).join 0 xs = lines.join 0 (x :: xs) := by
      simp [Levels.join]
    let t : Machine := { s with qArrival := .of xs, tcbs := .of (x :: zs) }
    have hturn : mlfqArrivals (fuel + 1) s = mlfqArrivals fuel (t.withLines (lines.join 0 [x])) := by
      rw [mlfqArrivals, if_neg hne, hq, dequeue_of (by rw [List.length_cons]; omega), ok_bind]
      dsimp only
      rw [h.eq, enqueue_of (by omega), h.setLevel, withLines_tcbs, hl, insertAtFront_of]
      rfl
    have hlen : ((lines.join 0 [x]) 0).length = (lines 0).length + 1 := by simp [Levels.join]
    have hrest := ih (s := t.withLines (lines.join 0 [x])) rfl (.withLines t _) rfl
      (by rw [hlen]; omega) (Nat.lt_of_succ_lt_succ hfuel)
    rw [Nat.succ_eq_add_one, hturn, hrest, hjoin, List.reverse_cons, List.append_assoc]
    rfl

/-- The thread that ran joins the line of its level. -/
def rejoined (s : Machine) (lines : Levels TcbPtr) : Levels TcbPtr :=
  match s.running with
  | none => lines
  | some p => lines.join (s.requeued p).priorityLevel [p]

theorem requeueRunning_eq (h : s.HasLines lines)
    (hroom : ∀ level < QUEUE_LEVELS, (lines level).length < 65536)
    (hlevel : ∀ p, s.running = some p → (s.tcbAt p).priorityLevel < QUEUE_LEVELS) :
    s.requeueRunning = .ok ({ s with
      tcbAt := s.requeued
      running := none }.withLines (s.rejoined lines)) := by
  unfold requeueRunning rejoined requeued
  cases hrun : s.running with
  | none =>
    have hself := h.self
    simp only [withLines, ← hrun] at hself ⊢
    rw [hself]
  | some p =>
    have hdemoted := demote_priorityLevel (hlevel p hrun)
    have hlines : (s.setTcb p (demote (s.tcbAt p))).HasLines lines := h
    simp only [setTcb_tcbAt, setTcb_allQueue, Function.update_self, if_pos hdemoted, h.eq,
      enqueue_of (hroom _ hdemoted)]
    rw [hlines.setLevel]
    rfl

/-- The threads of a list are boosted. -/
def boostedIn (ps : List TcbPtr) (tcbAt : Tcbs) : Tcbs := fun p =>
  if p ∈ ps then boosted (tcbAt p) else tcbAt p

theorem boostedIn_cons (x : TcbPtr) (tcbAt : Tcbs) :
    boostedIn xs (Function.update tcbAt x (boosted (tcbAt x))) = boostedIn (x :: xs) tcbAt := by
  funext p
  by_cases hp : p = x
  · subst hp
    simp [boostedIn, boosted]
  · simp [boostedIn, hp]

theorem boostedIn_append (xs ys : List TcbPtr) (tcbAt : Tcbs) :
    boostedIn ys (boostedIn xs tcbAt) = boostedIn (xs ++ ys) tcbAt := by
  funext p
  by_cases hx : p ∈ xs <;> by_cases hy : p ∈ ys <;> simp [boostedIn, boosted, hx, hy]

/-- A level moves to the end of the first line. -/
theorem boostLevel_eq (h : s.HasLines lines) (hxs : lines level = xs) (hpos : level ≠ 0)
    (hroom : xs.length + (lines 0).length < 65536) (hfuel : xs.length < fuel) :
    boostLevel level fuel s = .ok ({ s with tcbAt := boostedIn xs s.tcbAt }.withLines
      (Function.update (lines.join 0 xs) level [])) := by
  induction xs generalizing s lines fuel with
  | nil =>
    obtain ⟨fuel, rfl⟩ := Nat.exists_eq_succ_of_ne_zero hfuel.ne'
    have hlines : Function.update (lines.join 0 []) level [] = lines := by
      rw [Levels.join, List.append_nil, Function.update_eq_self, ← hxs, Function.update_eq_self]
    have hboost : boostedIn [] s.tcbAt = s.tcbAt := by
      funext p
      simp [boostedIn]
    rw [boostLevel, if_pos (by rw [h.eq, hxs]; exact (isEmpty_of (by simp)).mpr rfl), hlines, hboost]
    exact congrArg Except.ok h.self.symm
  | cons x xs ih =>
    rw [List.length_cons] at hroom hfuel
    obtain ⟨fuel, rfl⟩ := Nat.exists_eq_succ_of_ne_zero (show fuel ≠ 0 by omega)
    have hlt : (x :: xs).length < 65536 := by
      rw [List.length_cons]
      omega
    have hne : ¬ isEmpty (s.allQueue level) = true := by
      rw [h.eq, hxs, isEmpty_of hlt]
      simp
    let t : Machine := { s with tcbAt := Function.update s.tcbAt x (boosted (s.tcbAt x)) }
    have hturn : boostLevel level (fuel + 1) s = boostLevel level fuel
        (t.withLines (Function.update (Function.update lines level xs) 0 (lines 0 ++ [x]))) := by
      have hfirst : (t.withLines (Function.update lines level xs)).allQueue 0 = .of (lines 0) := by
        simp [hpos.symm]
      rw [boostLevel, if_neg hne, h.eq, hxs, dequeue_of hlt, ok_bind]
      dsimp only
      rw [h.setLevel]
      change boostLevel level fuel ((t.withLines (Function.update lines level xs)).setLevel 0
        (enqueue ((t.withLines (Function.update lines level xs)).allQueue 0) x)) = _
      rw [hfirst, enqueue_of (by omega), (HasLines.withLines t _).setLevel]
      rfl
    have hlines : Function.update (Levels.join (Function.update (Function.update lines level xs) 0
        (lines 0 ++ [x])) 0 xs) level [] = Function.update (lines.join 0 (x :: xs)) level [] := by
      funext k
      by_cases hk : k = level <;> by_cases h0 : k = 0 <;> simp [Levels.join, hk, h0, hpos.symm]
    have hrest := ih (HasLines.withLines t (Function.update (Function.update lines level xs) 0
      (lines 0 ++ [x]))) (by simp [hpos]) (by simp; omega) (Nat.lt_of_succ_lt_succ hfuel)
    rw [Nat.succ_eq_add_one, hturn, hrest, hlines]
    simp only [withLines, t, boostedIn_cons]

/-- The levels of the list move to the end of the first line, in their order. -/
theorem boostLevels_eq {levels : List ℕ} (h : s.HasLines lines) (hnd : (0 :: levels).Nodup)
    (hroom : ((0 :: levels).flatMap lines).length < 65536) :
    boostLevels levels s = .ok ({ s with
      tcbAt := boostedIn (levels.flatMap lines) s.tcbAt }.withLines (lines.gather levels)) := by
  induction levels generalizing s lines with
  | nil =>
    have hlines : lines.gather [] = lines := by
      funext k
      by_cases hk : k = 0 <;> simp [Levels.gather, hk]
    have hboost : boostedIn [] s.tcbAt = s.tcbAt := by
      funext p
      simp [boostedIn]
    rw [boostLevels, hlines, List.flatMap_nil, hboost]
    exact congrArg Except.ok h.self.symm
  | cons level levels ih =>
    simp only [List.nodup_cons, List.mem_cons, not_or] at hnd
    obtain ⟨⟨hpos, hzero⟩, hlevel, hnd⟩ := hnd
    simp only [List.flatMap_cons, List.length_append] at hroom
    have hfuel : (lines level).length < (s.allQueue level).size.toNat + 1 := by
      rw [h.eq, (Queue.counted_of (lines level)).toNat (by omega)]
      exact Nat.lt_succ_self _
    let q : Levels TcbPtr := Function.update (lines.join 0 (lines level)) level []
    have hq : q 0 = lines 0 ++ lines level := by simp [q, Levels.join, hpos]
    -- the levels that are left have the lines they had
    have hrest : levels.flatMap q = levels.flatMap lines := by
      refine List.flatMap_congr fun k hk => ?_
      have hk0 : k ≠ 0 := fun heq => hzero (heq ▸ hk)
      have hkl : k ≠ level := fun heq => hlevel (heq ▸ hk)
      simp [q, Levels.join, hk0, hkl]
    have hgather : q.gather levels = lines.gather (level :: levels) := by
      funext k
      by_cases hk0 : k = 0
      · simp only [Levels.gather, if_pos hk0, List.flatMap_cons, hrest, hq, List.append_assoc]
      · by_cases hkl : k = level <;> simp [Levels.gather, q, Levels.join, hk0, hkl, Ne.symm hpos]
    rw [boostLevels, boostLevel_eq h rfl (Ne.symm hpos) (by omega) hfuel, ok_bind,
      ih (HasLines.withLines _ q) (List.nodup_cons.mpr ⟨hzero, hnd⟩) (by
        simp only [List.flatMap_cons, List.length_append, hrest, hq]
        omega), hgather, hrest]
    simp only [withLines, boostedIn_append, List.flatMap_cons]

/-! ## The round -/

/-- A boost is due. -/
def BoostDue (s : Machine) : Prop := sValueDecayUsageConst ≤ s.totalQuantumsElapsed.toNat

instance (s : Machine) : Decidable s.BoostDue := by unfold BoostDue; infer_instance

/-- The queues as lines. -/
def levels (s : Machine) : Levels TcbPtr := fun level => (s.allQueue level).nodes

/-- The lines once those that wait have joined them. -/
def joined (s : Machine) : Levels TcbPtr := s.rejoined (s.levels.join 0 s.qArrival.nodes)

/-- The lines that the scheduler selects from. -/
def waiting (s : Machine) : Levels TcbPtr :=
  if s.BoostDue then s.joined.gather [1, 2, 3] else s.joined

/-- The blocks after the round. -/
def roundTcbs (s : Machine) : Tcbs :=
  if s.BoostDue then boostedIn ([1, 2, 3].flatMap s.joined) s.requeued else s.requeued

/-- The list of threads after the round; the main thread gets on it in the first round. -/
def roundList (s : Machine) : List TcbPtr :=
  s.qArrival.nodes.reverse ++ if s.schedulerEntered then s.tcbs.nodes else s.running.toList

/-- The machine before the selection. -/
def gathered (s : Machine) : Machine :=
  { s with
    tcbAt := s.roundTcbs
    qArrival := .of []
    tcbs := .of s.roundList
    totalQuantumsElapsed := if s.BoostDue
      then s.totalQuantumsElapsed % UInt32.ofNat sValueDecayUsageConst else s.totalQuantumsElapsed
    running := none }.withLines s.waiting

/-- One round of `sched_mlfq`, on the lists. -/
def mlfqRound (s : Machine) : Except Fault Machine :=
  match Levels.serve (fun p => !isBlocked (s.tcbAt p)) (List.range QUEUE_LEVELS) s.waiting with
  | none => .error (.assertion .mlfqRunning)
  | some (next, rest) => .ok ((s.gathered.withLines rest).dispatch next)

/-- The selection is a turn of the server. -/
theorem selectFrom_eq {levels : List ℕ} (h : s.HasLines lines)
    (hroom : ∀ level ∈ levels, (lines level).length < 65536) :
    selectFrom levels s =
      match Levels.serve (fun p => !isBlocked (s.tcbAt p)) levels lines with
      | none => .ok s
      | some (next, rest) => .ok { s.withLines rest with running := some next } := by
  induction levels with
  | nil => rfl
  | cons level levels ih =>
    have hlt := hroom level List.mem_cons_self
    have hnodes : (s.allQueue level).nodes = lines level := by rw [h.eq]; rfl
    have hexact : Exact (s.allQueue level) := by
      rw [h.eq]
      exact ⟨Queue.counted_of _, hlt⟩
    rcases selectFrom_cons levels hexact with ⟨hall, hskip⟩ |
      ⟨ahead, p, behind, hsplit, hblocked, hfree, hpick⟩
    · rw [hnodes] at hall
      rw [hskip, ih fun k hk => hroom k (List.mem_cons_of_mem _ hk), Levels.serve,
        Levels.serveLine_eq_none fun y hy => by simp [hall y hy]]
    · rw [hnodes] at hsplit
      have hsize : (s.allQueue level).size - 1 = UInt16.ofNat (behind ++ ahead).length := by
        refine hexact.1.sub_one ?_
        simp [hnodes, hsplit]
        omega
      have hline : ({ size := (s.allQueue level).size - 1, nodes := behind ++ ahead } : Queue) =
          .of (behind ++ ahead) := by rw [hsize]; rfl
      rw [hpick, hline, h.setLevel, Levels.serve, hsplit,
        Levels.serveLine_eq_some (fun y hy => by simp [hblocked y hy]) (by simp [hfree])]

/-! ## The parts together -/

/-- The first time the main thread gets on the list. -/
theorem enterMlfq_eq (hp : s.Placed .mlfq) : s.enterMlfq = .ok { s with
    tcbs := .of (if s.schedulerEntered then s.tcbs.nodes else s.running.toList) } := by
  unfold enterMlfq
  cases he : s.schedulerEntered with
  | true =>
    simp only [if_true, ← ThreadList.eq_of hp.countedTcbs]
    rw [← he]
  | false =>
    obtain ⟨htcbs, -, hrun, -⟩ := hp.unentered he
    have hinsert : insertByUsage s.tcbAt s.tcbs mainTcb = .ok (.of [mainTcb]) := by
      rw [insertByUsage_eq (by simp [htcbs]) (by simp [htcbs]), htcbs]
      rfl
    simp only [Bool.false_eq_true, if_false, insertRunning, hrun, hinsert, ok_bind]
    rw [← he, ← hrun]
    simp only [hrun, Option.toList_some]
    rfl

theorem isBlocked_demote (t : Tcb) : isBlocked (demote t) = isBlocked t := by
  unfold demote
  split <;> rfl

/-- A round blocks nobody and wakes nobody. -/
theorem isBlocked_roundTcbs (s : Machine) (p : TcbPtr) :
    isBlocked (s.roundTcbs p) = isBlocked (s.tcbAt p) := by
  have hrequeued : isBlocked (s.requeued p) = isBlocked (s.tcbAt p) := by
    cases hrun : s.running with
    | none => simp only [requeued, hrun]
    | some r =>
      simp only [requeued, hrun]
      by_cases hr : p = r
      · rw [hr, Function.update_self, isBlocked_demote]
      · rw [Function.update_of_ne hr]
  unfold roundTcbs
  split
  · simp only [boostedIn]
    split
    · exact hrequeued
    · exact hrequeued
  · exact hrequeued

theorem card_queued (h : s.HasLines lines) :
    s.queued.card = ((0 :: [1, 2, 3]).flatMap lines).length := by
  simp only [queued, Finset.sum_range_succ, Finset.sum_range_zero, Multiset.card_add, h.eq,
    Queue.nodes_of, Multiset.coe_card, List.flatMap_cons, List.flatMap_nil, List.length_append]
  simp
  omega

theorem length_lt_of_flatMap {levels : List ℕ} (hroom : (levels.flatMap lines).length < 65536) :
    ∀ level ∈ levels, (lines level).length < 65536 := by
  intro level hlevel
  have hle := ((List.singleton_sublist.mpr hlevel).flatMap lines).length_le
  rw [List.flatMap_singleton] at hle
  omega

/-- The machine once those that wait have joined the lines. -/
def assembled (s : Machine) : Machine :=
  { s with
    tcbAt := s.requeued
    qArrival := .of []
    tcbs := .of s.roundList
    running := none }.withLines s.joined

/-- The parts of a round before the boost. -/
theorem assembled_eq (hp : s.Placed .mlfq) (hc : s.Covered .mlfq) (hlt : s.allocated < 65536) :
    s.assembled.Settled ∧ s.assembled.afoot = s.afoot ∧ s.schedule .mlfq = (do
      let s ← s.assembled.boostWhenDue
      let s ← selectFrom (List.range QUEUE_LEVELS) s
      match s.running with
      | none => .error (.assertion .mlfqRunning)
      | some next => return s.dispatch next) := by
  have hlines : s.HasLines s.levels := funext fun level => Queue.eq_of (hp.counted.2 level)
  have hroom := hp.afoot_card hlt
  simp only [afoot, Multiset.card_add, card_queued hlines, Multiset.coe_card, List.flatMap_cons,
    List.flatMap_nil, List.length_append] at hroom
  let t : Machine := { s with
    tcbs := .of (if s.schedulerEntered then s.tcbs.nodes else s.running.toList) }
  have hsettled : t.Settled := by
    obtain ⟨l, hl, heq⟩ := Placed.enterMlfq_ok (enterMlfq_eq hp)
    rw [show t = { s with tcbs := l } from heq]
    exact hc.settled hp hlt hl
  let t₁ : Machine := { t with qArrival := .of [], tcbs := .of s.roundList }.withLines
    (s.levels.join 0 s.qArrival.nodes)
  have h₁ : mlfqArrivals (t.qArrival.size.toNat + 1) t = .ok t₁ := by
    refine mlfqArrivals_eq (Queue.eq_of hp.counted.1) hlines rfl (by omega) ?_
    change s.qArrival.nodes.length < s.qArrival.size.toNat + 1
    rw [hp.counted.1.toNat (by omega)]
    exact Nat.lt_succ_self _
  have hsettled₁ := hsettled.flow (mlfqArrivals_ok h₁).1
  have hlines₁ : t₁.HasLines (s.levels.join 0 s.qArrival.nodes) := .withLines _ _
  have h₂ : t₁.requeueRunning = .ok s.assembled := by
    refine requeueRunning_eq hlines₁ (fun level hlevel => ?_) (hp.leveled rfl).running
    by_cases h0 : level = 0
    · rw [h0]
      simp [Levels.join]
      omega
    · have hall : ((0 :: [1, 2, 3]).flatMap s.levels).length < 65536 := by simp; omega
      have hold := length_lt_of_flatMap hall level (by simp [QUEUE_LEVELS] at hlevel ⊢; omega)
      simpa [Levels.join, h0] using hold
  refine ⟨hsettled₁.flow (requeueRunning_ok h₂).1, ?_, ?_⟩
  · rw [((requeueRunning_ok h₂).1.exact hsettled₁.counted hsettled₁.room).1,
      ((mlfqArrivals_ok h₁).1.exact hsettled.counted hsettled.room).1]
    rfl
  simp only [schedule, enterMlfq_eq hp, ok_bind, schedMlfq]
  change (mlfqArrivals (t.qArrival.size.toNat + 1) t >>= _) = _
  exact (bind_of_ok h₁).trans (bind_of_ok h₂)

/-- A boost that is due makes one line of all and starts the count of quantums again. -/
theorem boostWhenDue_assembled (h : s.assembled.Settled) :
    s.assembled.boostWhenDue = .ok s.gathered := by
  have hlines : s.assembled.HasLines s.joined := .withLines _ _
  have hroom : ((0 :: [1, 2, 3]).flatMap s.joined).length < 65536 := by
    rw [← card_queued hlines]
    have hroom := h.room
    rw [afoot, Multiset.card_add, Multiset.card_add] at hroom
    omega
  by_cases hdue : s.BoostDue
  · have hdue' : sValueDecayUsageConst ≤ s.assembled.totalQuantumsElapsed.toNat := hdue
    have hsound := boostWhenDue_sound h rfl
    let u : Machine := { s.assembled with
      totalQuantumsElapsed := s.totalQuantumsElapsed % UInt32.ofNat sValueDecayUsageConst }
    have hu : s.assembled.boostWhenDue = u.boostAllQueues := if_pos hdue'
    have hlevels : boostLevels [1, 2, 3] u = .ok s.gathered := by
      rw [boostLevels_eq (s := u) hlines (by decide) hroom]
      unfold gathered waiting roundTcbs
      simp only [if_pos hdue]
      rfl
    rw [hu, boostAllQueues, hlevels, ok_bind] at hsound ⊢
    cases hsizes : (s.gathered.allQueue 0).size == s.gathered.tcbs.size with
    | true => rfl
    | false =>
      rw [hsizes] at hsound
      exact (hsound _ rfl).elim
  · have hdue' : s.assembled.totalQuantumsElapsed.toNat < sValueDecayUsageConst :=
      Nat.lt_of_not_le hdue
    rw [boostWhenDue_eq hdue']
    unfold gathered waiting roundTcbs
    simp only [if_neg hdue]
    rfl

/-- A round of the scheduler is `mlfqRound`. -/
theorem schedule_mlfq_eq (hp : s.Placed .mlfq) (hc : s.Covered .mlfq) (hlt : s.allocated < 65536) :
    s.schedule .mlfq = s.mlfqRound := by
  obtain ⟨hsettled, -, hparts⟩ := assembled_eq hp hc hlt
  have hboost := boostWhenDue_assembled hsettled
  have hlines : s.gathered.HasLines s.waiting := .withLines _ _
  have hroom : ∀ level ∈ List.range QUEUE_LEVELS, (s.waiting level).length < 65536 := by
    intro level hlevel
    have hgathered := hsettled.flow (boostWhenDue_ok rfl hboost).1
    have hlen := (hgathered.length_lt (List.mem_range.mp hlevel)).2
    rwa [hlines.eq] at hlen
  have hfree : (fun p => !isBlocked (s.gathered.tcbAt p)) = fun p => !isBlocked (s.tcbAt p) :=
    funext fun p => congrArg _ (isBlocked_roundTcbs s p)
  rw [hparts, hboost, ok_bind, selectFrom_eq hlines hroom, hfree, mlfqRound]
  cases Levels.serve (fun p => !isBlocked (s.tcbAt p)) (List.range QUEUE_LEVELS) s.waiting with
  | none => rfl
  | some turn => rfl

theorem afoot_eq_queued (hq : s.qArrival.nodes = []) (hrun : s.running = none) :
    s.afoot = s.queued := by
  simp [afoot, hq, hrun]

/-- The lines hold the threads that wait for the processor, those that have arrived and the one
that ran. -/
theorem mem_waiting (hp : s.Placed .mlfq) (hc : s.Covered .mlfq) (hlt : s.allocated < 65536) :
    (∃ level < QUEUE_LEVELS, p ∈ s.waiting level) ↔ p ∈ s.afoot := by
  obtain ⟨hsettled, hafoot, -⟩ := assembled_eq hp hc hlt
  have hflow := (boostWhenDue_ok rfl (boostWhenDue_assembled hsettled)).1
  rw [← hafoot, ← (hflow.exact hsettled.counted hsettled.room).1,
    afoot_eq_queued (s := s.gathered) rfl rfl, mem_queued]
  rfl

/-- Those are the threads that have been enqueued, and the main thread, without those that have
ended. -/
theorem mem_afoot (hp : s.Placed .mlfq) (hc : s.Covered .mlfq) (hend : s.Endings)
    (hcpu : s.cpu ≠ .cleanup) :
    p ∈ s.afoot ↔ (p = mainTcb ∨ s.Enqueued p) ∧ ¬ s.Ended p := by
  have hpool : p ∈ s.pool .mlfq ↔ p ∈ s.afoot ∨ p ∈ s.endedTcbs.nodes := by
    rw [Placed.pool_mlfq_eq, Multiset.mem_add, Multiset.mem_coe]
  have hended : s.Ended p ↔ p ∈ s.endedTcbs.nodes := hend.finished_iff hcpu
  rw [hended]
  constructor
  · intro hin
    refine ⟨hp.known p (hpool.mpr (.inl hin)), fun hout => ?_⟩
    have hnd := hp.nodup
    rw [Placed.pool_mlfq_eq, Multiset.nodup_add] at hnd
    exact Multiset.disjoint_left.mp hnd.2.2 hin hout
  · rintro ⟨hknown, hout⟩
    exact (hpool.mp (hc.mem_pool hknown)).resolve_right hout

/-- In every run with fewer than 65535 threads made, a round of the scheduler is a turn of the
server on the lines that the threads wait in, and it fails exactly when every thread that has been
enqueued and not ended is blocked. -/
theorem mlfqRound_of_execution
    (h : Execution (Machine.exec .mlfq) (fun _ _ => True) (initLibrary garbage) es s)
    (hn : es.countP creates < 65535) (hcpu : s.cpu = .scheduler) :
    s.exec .mlfq .schedule = s.mlfqRound ∧
      (s.mlfqRound = .error (.assertion .mlfqRunning) ↔
        ∀ p, (p = mainTcb ∨ s.Enqueued p) → ¬ s.Ended p → isBlocked (s.tcbAt p) = true) := by
  have hp := placed_of_execution h
  have hc := covered_of_execution h hn
  have hlt := allocated_lt h hn
  have hround : s.exec .mlfq .schedule = s.schedule .mlfq := by
    simp only [Machine.exec, hcpu]
  refine ⟨hround.trans (schedule_mlfq_eq hp hc hlt), ?_⟩
  have hfails : s.mlfqRound = .error (.assertion .mlfqRunning) ↔
      Levels.serve (fun p => !isBlocked (s.tcbAt p)) (List.range QUEUE_LEVELS) s.waiting = none := by
    unfold mlfqRound
    split <;> simp_all
  have hcleanup : s.cpu ≠ .cleanup := by simp [hcpu]
  rw [hfails, Levels.serve_eq_none]
  constructor
  · intro hall p hknown hlive
    obtain ⟨level, hlevel, hin⟩ := (mem_waiting hp hc hlt).mpr
      ((mem_afoot hp hc (endings_of_execution h) hcleanup).mpr ⟨hknown, hlive⟩)
    simpa using hall level (List.mem_range.mpr hlevel) p hin
  · intro hall level hlevel p hin
    obtain ⟨hknown, hlive⟩ := (mem_afoot hp hc (endings_of_execution h) hcleanup).mp
      ((mem_waiting hp hc hlt).mp ⟨level, List.mem_range.mp hlevel, hin⟩)
    simpa using hall p hknown hlive

/-- `mlfqRound_of_execution` for the first round of a run. -/
theorem mlfqRound_after_yield :
    ∃ s, Execution (Machine.exec .mlfq) (fun _ _ => True) (initLibrary ⟨0, 0, none⟩)
        createAndYield s ∧ s.cpu = .scheduler ∧ s.exec .mlfq .schedule = s.mlfqRound ∧
      (s.mlfqRound = .error (.assertion .mlfqRunning) ↔
        ∀ p, (p = mainTcb ∨ s.Enqueued p) → ¬ s.Ended p → isBlocked (s.tcbAt p) = true) := by
  have hseen : (replay (Machine.exec .mlfq) (initLibrary ⟨0, 0, none⟩) createAndYield).map cpu =
      .ok .scheduler := rfl
  obtain ⟨s, -, hs, hcpu⟩ := Execution.of_observed hseen
  exact ⟨s, hs, hcpu, mlfqRound_of_execution hs (by decide) hcpu⟩

end Machine

end UserLevelOs.Threads
