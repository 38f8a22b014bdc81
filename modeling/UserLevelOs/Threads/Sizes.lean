import UserLevelOs.Threads.Assertions
import UserLevelOs.Threads.Nodes

/-!
# The sizes of lists and queues

A size is an `unsigned short`.  As long as there are fewer than 65536 nodes it is their number,
and a queue gives back what was put into it in order; with 65536 nodes it is zero, the nodes
count for nothing and the next `enqueue` lets go of them.  The list of ended threads only grows,
and `recompute_benchmarks` asserts that its size is not zero.

## Main definitions

* `QueueUse`, `ListOp` — sequences of operations on a queue and on a list.
* `QueueUse.AlwaysExact`, `LinkedList.AlwaysExact`, `Machine.AlwaysExact` — what the sizes are
  to be.
* `QueueUse.Room`, `LinkedList.Room`, `Machine.Room` — an `unsigned short` can count that far.

## Main statements

* `QueueUse.holds_of_execution`, `LinkedList.holds_of_execution` — the nodes stay linked, room or
  not.
* `QueueUse.fifo_of_execution` — first in, first out.
* `alwaysExact_iff`, `alwaysExact_fails`.
* `Machine.exists_completes` — a run in which 65536 threads end.
-/

namespace UserLevelOs.Threads

open UserLevelOs.Lib

/-! ## Queues -/

/-- What is done to a queue; `malloc` puts the node for `data` at `item`. -/
inductive QueueOp
  | enqueue (data : TcbPtr) (item : NodePtr)
  | dequeue
  deriving DecidableEq, Repr

def QueueOp.enqueued : QueueOp → Option TcbPtr
  | .enqueue data _ => some data
  | .dequeue => none

/-- The threads put into the queue, in order. -/
def enqueued (ops : List QueueOp) : List TcbPtr := ops.filterMap QueueOp.enqueued

def dequeues (ops : List QueueOp) : ℕ := ops.count .dequeue

section

variable (ops : List QueueOp) (data : TcbPtr) (item : NodePtr)

@[simp] theorem enqueued_enqueue :
    enqueued (ops ++ [.enqueue data item]) = enqueued ops ++ [data] := by
  simp [enqueued, QueueOp.enqueued]

@[simp] theorem enqueued_dequeue : enqueued (ops ++ [.dequeue]) = enqueued ops := by
  simp [enqueued, QueueOp.enqueued]

@[simp] theorem dequeues_enqueue : dequeues (ops ++ [.enqueue data item]) = dequeues ops := by
  simp [dequeues]

@[simp] theorem dequeues_dequeue : dequeues (ops ++ [.dequeue]) = dequeues ops + 1 := by
  simp [dequeues]

end

/-- A queue, and the threads `dequeue` has returned. -/
structure QueueUse where
  queue : LinkedQueue
  returned : List TcbPtr

namespace QueueUse

/-- An empty queue, among whatever nodes there are. -/
def init (nodes : Nodes) : QueueUse where
  queue := { size := 0, rear := none, nodes }
  returned := []

def step (s : QueueUse) : QueueOp → Except Fault QueueUse
  | .enqueue data item => do
    let queue ← s.queue.enqueue data item
    return { s with queue }
  | .dequeue => do
    let (p, queue) ← s.queue.dequeue
    return { queue, returned := s.returned ++ [p] }

/-- The size is the number of nodes that `rear` holds, the queue passes for empty when there is
none, the nodes carry the threads that were put in and have not been returned, in order, and the
next to be returned is the first of them. -/
def Exact (s : QueueUse) (ops : List QueueOp) : Prop :=
  ∃ l, Ring s.queue.nodes s.queue.rear l ∧ s.queue.size.toNat = l.length ∧
    (s.queue.isEmpty = true ↔ l = []) ∧ s.returned ++ l.map Prod.snd = enqueued ops ∧
    ∀ x rest, l = x :: rest → ∃ q, s.queue.dequeue = .ok (x.2, q)

variable {nodes : Nodes} {s : QueueUse} {ops : List QueueOp}

/-- Each `dequeue` has returned a thread, and the nodes are those of a queue. -/
theorem holds_of_execution (h : Execution step (fun _ _ => True) (init nodes) ops s) :
    (∃ c, s.queue.Holds c) ∧ s.returned.length = dequeues ops := by
  induction h with
  | start => exact ⟨⟨⟨0, []⟩, rfl, .nil, [], Ring.nil, rfl⟩, rfl⟩
  | @snoc ops s s' op h _ hstep ih =>
    obtain ⟨⟨c, hc⟩, hreturned⟩ := ih
    cases op with
    | enqueue data item =>
      obtain ⟨q, hok, heq⟩ := bind_eq_ok.mp hstep
      cases heq
      exact ⟨⟨_, hc.of_enqueue hok⟩, by simpa using hreturned⟩
    | dequeue =>
      obtain ⟨⟨p, q⟩, hok, heq⟩ := bind_eq_ok.mp hstep
      cases heq
      obtain ⟨c', -, hc'⟩ := hc.of_dequeue hok
      exact ⟨⟨c', hc'⟩, by simpa using hreturned⟩

/-- In no state so far have the `enqueue`s been 65536 more than the `dequeue`s. -/
def Room (nodes : Nodes) (ops : List QueueOp) : Prop :=
  ∀ pre t, pre <+: ops → Execution step (fun _ _ => True) (init nodes) pre t →
    (enqueued pre).length < dequeues pre + 65536

/-- As long as there is room nothing is lost. -/
theorem fifo_of_execution (h : Execution step (fun _ _ => True) (init nodes) ops s)
    (hroom : Room nodes ops) :
    ∃ c, s.queue.Holds c ∧ s.returned ++ c.nodes = enqueued ops := by
  induction h with
  | start => exact ⟨⟨0, []⟩, ⟨rfl, .nil, [], Ring.nil, rfl⟩, rfl⟩
  | @snoc ops s s' op h _ hstep ih =>
    have hbefore : ops <+: ops ++ [op] := List.prefix_append ops [op]
    obtain ⟨c, hc, hfifo⟩ := ih fun pre t hpre ht => hroom pre t (hpre.trans hbefore) ht
    have hlt : c.nodes.length < 65536 := by
      have hlen := congrArg List.length hfifo
      have hless := hroom ops s hbefore h
      rw [List.length_append, (holds_of_execution h).2] at hlen
      omega
    cases op with
    | enqueue data item =>
      obtain ⟨q, hok, heq⟩ := bind_eq_ok.mp hstep
      cases heq
      refine ⟨_, hc.of_enqueue hok, ?_⟩
      rw [enqueue_nodes hc.counted hlt, enqueued_enqueue, ← hfifo, List.append_assoc]
    | dequeue =>
      obtain ⟨⟨p, q⟩, hok, heq⟩ := bind_eq_ok.mp hstep
      cases heq
      obtain ⟨c', hdeq, hc'⟩ := hc.of_dequeue hok
      refine ⟨c', hc', ?_⟩
      rw [enqueued_dequeue, ← hfifo, dequeue_nodes hc.counted hlt hdeq, List.append_assoc]
      rfl

theorem exact_of_holds {c : Queue} (hc : s.queue.Holds c) (hlt : c.nodes.length < 65536)
    (hfifo : s.returned ++ c.nodes = enqueued ops) : s.Exact ops := by
  obtain ⟨l, hring, hdata⟩ := hc.ring
  have hlen : l.length = c.nodes.length := by rw [← hdata, List.length_map]
  refine ⟨l, hring, ?_, ?_, by rw [hdata, hfifo], ?_⟩
  · rw [hc.size, hc.counted.toNat hlt, hlen]
  · rw [hc.isEmpty_eq, Threads.isEmpty, beq_iff_eq, hc.counted.eq_zero hlt, ← hdata,
      List.map_eq_nil_iff]
  · rintro x rest rfl
    obtain ⟨q, hdeq, -⟩ := hc.dequeue (dequeue_cons hc.counted hlt hdata.symm)
    exact ⟨q, hdeq⟩

/-- In every state so far. -/
def AlwaysExact (nodes : Nodes) (ops : List QueueOp) : Prop :=
  ∀ pre t, pre <+: ops → Execution step (fun _ _ => True) (init nodes) pre t → t.Exact pre

theorem alwaysExact_iff_room (nodes : Nodes) (ops : List QueueOp) :
    AlwaysExact nodes ops ↔ Room nodes ops := by
  constructor
  · intro hexact pre t hpre ht
    obtain ⟨l, -, hsize, -, hfifo, -⟩ := hexact pre t hpre ht
    have hlt := t.queue.size.toNat_lt
    have hlen := congrArg List.length hfifo
    rw [List.length_append, List.length_map, (holds_of_execution ht).2] at hlen
    omega
  · intro hroom pre t hpre ht
    have hroom' : Room nodes pre := fun pre' t' hpre' => hroom pre' t' (hpre'.trans hpre)
    obtain ⟨c, hc, hfifo⟩ := fifo_of_execution ht hroom'
    have hlt := hroom pre t hpre ht
    have hlen := congrArg List.length hfifo
    rw [List.length_append, (holds_of_execution ht).2] at hlen
    exact exact_of_holds hc (by omega) hfifo

end QueueUse

/-! ## Lists -/

/-- What is done to a list. -/
inductive ListOp
  | insertAtFront (toBeInserted : TcbPtr) (item : NodePtr)
  | removeFrom (target : Worker)
  deriving DecidableEq, Repr

def ListOp.inserts : ListOp → Bool
  | .insertAtFront _ _ => true
  | .removeFrom _ => false

def ListOp.removes (op : ListOp) : Bool := !op.inserts

namespace LinkedList

variable (tcbs : Tcbs)

/-- An empty list, among whatever nodes there are. -/
def init (nodes : Nodes) : LinkedList where
  size := 0
  front := none
  nodes := nodes
  mallocs := 0

def step (l : LinkedList) : ListOp → Except Fault LinkedList
  | .insertAtFront toBeInserted item => l.insertAtFront toBeInserted item
  | .removeFrom target => do
    let (_, l) ← l.removeFrom tcbs target
    return l

/-- The size is the number of nodes that `front` leads to, and the list passes for empty when
there is none. -/
def Exact (l : LinkedList) : Prop :=
  ∃ cells, Chain l.nodes l.front cells ∧ l.size.toNat = cells.length ∧
    (l.isEmptyList = true ↔ cells = [])

variable {tcbs} {nodes : Nodes} {l : LinkedList} {ops : List ListOp}

/-- No node is lost. -/
theorem holds_of_execution (h : Execution (step tcbs) (fun _ _ => True) (init nodes) ops l) :
    ∃ c, l.Holds c ∧
      c.nodes.length + ops.countP ListOp.removes = ops.countP ListOp.inserts := by
  induction h with
  | start => exact ⟨⟨0, []⟩, ⟨rfl, .nil, Nat.zero_le _, [], Chain.nil, rfl⟩, rfl⟩
  | @snoc ops l l' op h _ hstep ih =>
    obtain ⟨c, hc, hlen⟩ := ih
    cases op with
    | insertAtFront x item =>
      refine ⟨_, hc.of_insertAtFront hstep, ?_⟩
      simp [Threads.insertAtFront, ListOp.inserts, ListOp.removes, ← hlen]
      omega
    | removeFrom target =>
      obtain ⟨⟨p, l''⟩, hok, heq⟩ := bind_eq_ok.mp hstep
      cases heq
      obtain ⟨c', hrem, hc'⟩ := hc.of_removeFrom hok
      have hperm := congrArg Multiset.card (removeFrom_perm hrem)
      simp only [Multiset.card_cons, Multiset.coe_card] at hperm
      refine ⟨c', hc', ?_⟩
      simp [ListOp.inserts, ListOp.removes, ← hlen]
      omega

/-- In no state so far have the insertions been 65536 more than the removals. -/
def Room (tcbs : Tcbs) (nodes : Nodes) (ops : List ListOp) : Prop :=
  ∀ pre t, pre <+: ops → Execution (step tcbs) (fun _ _ => True) (init nodes) pre t →
    pre.countP ListOp.inserts < pre.countP ListOp.removes + 65536

theorem exact_of_holds {c : ThreadList} (hc : l.Holds c) (hlt : c.nodes.length < 65536) :
    l.Exact := by
  obtain ⟨cells, hchain, hdata⟩ := hc.chain
  have hlen : cells.length = c.nodes.length := by rw [← hdata, List.length_map]
  refine ⟨cells, hchain, ?_, ?_⟩
  · rw [hc.size, hc.counted.toNat hlt, hlen]
  · rw [hc.isEmptyList_eq, Threads.isEmptyList, beq_iff_eq, hc.counted.eq_zero hlt, ← hdata,
      List.map_eq_nil_iff]

/-- In every state so far. -/
def AlwaysExact (tcbs : Tcbs) (nodes : Nodes) (ops : List ListOp) : Prop :=
  ∀ pre t, pre <+: ops → Execution (step tcbs) (fun _ _ => True) (init nodes) pre t → t.Exact

theorem alwaysExact_iff_room (tcbs : Tcbs) (nodes : Nodes) (ops : List ListOp) :
    AlwaysExact tcbs nodes ops ↔ Room tcbs nodes ops := by
  constructor
  · intro hexact pre t hpre ht
    obtain ⟨cells, hchain, hsize, -⟩ := hexact pre t hpre ht
    obtain ⟨c, hc, hlen⟩ := holds_of_execution ht
    obtain ⟨cells', hchain', hdata⟩ := hc.chain
    have hlt := t.size.toNat_lt
    rw [← hdata, List.length_map, hchain'.unique hchain, ← hsize] at hlen
    omega
  · intro hroom pre t hpre ht
    obtain ⟨c, hc, hlen⟩ := holds_of_execution ht
    have hlt := hroom pre t hpre ht
    exact exact_of_holds hc (by omega)

end LinkedList

/-! ## The threads that have ended -/

namespace Machine

variable {policy : Policy} {garbage : Garbage} {s s' t : Machine} {p : TcbPtr} {e : Event}
  {es : List Event}

/-- A worker's completion. -/
def completes : Event → Bool
  | .cleanup => true
  | _ => false

/-- A thread has ended, and the round of the cleanup context gets as far as
`recompute_benchmarks`. -/
def Completes (s : Machine) : Prop :=
  ∃ p t, s.cpu = .cleanup ∧ s.running = some p ∧ s.removeRunning p = .ok t

theorem removeRunning_raises : Raises (s.removeRunning p) (· ≠ .assertion .someEnded) := by
  unfold removeRunning
  split
  · exact .ok _
  · refine .bind ?_ fun _ _ => .ok _
    unfold removeFrom
    refine .bind ?_ fun _ _ => ?_
    · exact .ite (fun _ => .ok _) fun _ => .error (by simp)
    · split
      · exact .error (by simp)
      · exact .ok _

/-- The assertion of `recompute_benchmarks` fails when the size wraps. -/
theorem clean_someEnded : s.cleanExitedWorkerThread p = .error (.assertion .someEnded) ↔
    (∃ t, s.removeRunning p = .ok t) ∧ s.endedTcbs.size + 1 = 0 := by
  unfold cleanExitedWorkerThread
  cases hremove : s.removeRunning p with
  | error f =>
    have hne := removeRunning_raises f hremove
    simp [bind, Except.bind, hne]
  | ok t =>
    obtain ⟨l, -, rfl⟩ := removeRunning_ok hremove
    by_cases hzero : s.endedTcbs.size + 1 = 0
    · simp [recomputeBenchmarks, assert, insertAtFront, hzero]
      rfl
    · have hassert : (insertAtFront s.endedTcbs p).size != 0 := by simpa [insertAtFront] using hzero
      simp only [ok_bind, recomputeBenchmarks, assert_bind hassert, hzero, and_false, iff_false]
      intro hfail
      have hraised := Raises.bind alertLoop_raises (fun _ _ => .ok _) _ hfail
      simp at hraised

theorem exec_someEnded : s.exec policy .cleanup = .error (.assertion .someEnded) ↔
    s.Completes ∧ s.endedTcbs.size + 1 = 0 := by
  cases hcpu : s.cpu <;> cases hrun : s.running <;>
    simp [exec, hcpu, hrun, execThread, Completes, clean_someEnded]

theorem execThread_endedTcbs (h : s.execThread p e = .ok s') :
    s'.endedTcbs = s.endedTcbs ∧ completes e = false := by
  refine ⟨?_, ?_⟩
  · rcases execThread_cases h with ⟨_, -, -, rfl⟩ | ⟨_, _, -, -, rfl⟩ | ⟨-, -, -, rfl⟩ | hown
    · rfl
    · rfl
    · rfl
    · exact hown.endedTcbs
  · cases e with
    | cleanup => cases h
    | _ => rfl

theorem clean_endedTcbs (h : s.cleanExitedWorkerThread p = .ok s') :
    s'.endedTcbs = insertAtFront s.endedTcbs p ∧ s.endedTcbs.size + 1 ≠ 0 := by
  obtain ⟨l, notes, -, -, rfl⟩ := cleanExitedWorkerThread_ok h
  refine ⟨rfl, fun hzero => ?_⟩
  obtain ⟨t, hremove, -⟩ := bind_eq_ok.mp h
  rw [clean_someEnded.mpr ⟨⟨t, hremove⟩, hzero⟩] at h
  cases h

/-- There is a node for each completion, and fewer than 65536. -/
theorem ended_of_execution
    (h : Execution (Machine.exec policy) (fun _ _ => True) (initLibrary garbage) es s) :
    Counted s.endedTcbs.size s.endedTcbs.nodes ∧ s.endedTcbs.nodes.length = es.countP completes ∧
      s.endedTcbs.nodes.length < 65536 := by
  induction h with
  | start => exact ⟨.nil, rfl, by simp [initLibrary]⟩
  | @snoc es s s' e hes _ hok ih =>
    rw [List.countP_append, List.countP_singleton]
    rcases exec_cases hok with ⟨p, -, -, hstep⟩ | ⟨rfl, -, hstep⟩ | ⟨p, rfl, -, -, hstep⟩
    · obtain ⟨hsame, hnot⟩ := execThread_endedTcbs hstep
      simpa [hsame, hnot] using ih
    · have hround := (placed_of_execution hes).rescheduled hstep
      simpa [hround.endedTcbs, completes] using ih
    · obtain ⟨hmore, hsize⟩ := clean_endedTcbs hstep
      obtain ⟨hcounted, hlen, hlt⟩ := ih
      rw [hmore]
      refine ⟨counted_insertAtFront hcounted, by simp [insertAtFront, hlen, completes], ?_⟩
      have hnot : s.endedTcbs.nodes.length ≠ 65535 := by
        intro hfull
        rw [hcounted, hfull] at hsize
        exact hsize rfl
      simp only [insertAtFront, List.length_cons]
      omega

/-- No completion so far was the 65536th. -/
def Room (policy : Policy) (garbage : Garbage) (es : List Event) : Prop :=
  ∀ pre t, pre <+: es →
    Execution (Machine.exec policy) (fun _ _ => True) (initLibrary garbage) pre t →
    t.Completes → pre.countP completes + 1 < 65536

/-- In every state so far the size of `ended_tcbs` is the number of completions, and a completion
that comes next does not fail the assertion of `recompute_benchmarks`. -/
def AlwaysExact (policy : Policy) (garbage : Garbage) (es : List Event) : Prop :=
  ∀ pre t, pre <+: es →
    Execution (Machine.exec policy) (fun _ _ => True) (initLibrary garbage) pre t →
    t.endedTcbs.size.toNat = pre.countP completes ∧
      t.exec policy .cleanup ≠ .error (.assertion .someEnded)

theorem alwaysExact_iff_room (policy : Policy) (garbage : Garbage) (es : List Event) :
    AlwaysExact policy garbage es ↔ Room policy garbage es := by
  constructor
  · intro hexact pre t hpre ht hcompletes
    obtain ⟨hsize, hnot⟩ := hexact pre t hpre ht
    have hlt := t.endedTcbs.size.toNat_lt
    by_contra hfull
    refine hnot (exec_someEnded.mpr ⟨hcompletes, ?_⟩)
    rw [← UInt16.toNat_inj]
    simp only [UInt16.toNat_add, hsize, UInt16.toNat_one, UInt16.toNat_zero]
    omega
  · intro hroom pre t hpre ht
    obtain ⟨hcounted, hlen, hlt⟩ := ended_of_execution ht
    have hsize : t.endedTcbs.size.toNat = pre.countP completes := by rw [hcounted.toNat hlt, hlen]
    refine ⟨hsize, fun hfail => ?_⟩
    obtain ⟨hcompletes, hzero⟩ := exec_someEnded.mp hfail
    have hlt := hroom pre t hpre ht hcompletes
    have hwrap := congrArg UInt16.toNat hzero
    simp only [UInt16.toNat_add, hsize, UInt16.toNat_one, UInt16.toNat_zero] at hwrap
    omega

end Machine

/-! ## All of them -/

/-- The sizes are right, and nothing is lost, exactly as far as an `unsigned short` counts. -/
theorem alwaysExact_iff (nodes nodes' : Nodes) (queueOps : List QueueOp) (tcbs : Tcbs)
    (listOps : List ListOp) (policy : Policy) (garbage : Machine.Garbage)
    (es : List Machine.Event) :
    QueueUse.AlwaysExact nodes queueOps ∧ LinkedList.AlwaysExact tcbs nodes' listOps ∧
        Machine.AlwaysExact policy garbage es ↔
      QueueUse.Room nodes queueOps ∧ LinkedList.Room tcbs nodes' listOps ∧
        Machine.Room policy garbage es := by
  rw [QueueUse.alwaysExact_iff_room, LinkedList.alwaysExact_iff_room,
    Machine.alwaysExact_iff_room]

/-! ## Runs that go too far -/

/-- Each of the threads from 0 on, in a node of the same number. -/
def enqueues (n : ℕ) : List QueueOp := (List.range n).map fun i => .enqueue i i

theorem enqueues_succ (n : ℕ) : enqueues (n + 1) = enqueues n ++ [.enqueue n n] := by
  simp [enqueues, List.range_succ]

theorem execution_enqueues (n : ℕ) :
    ∃ s, Execution QueueUse.step (fun _ _ => True) (QueueUse.init fun _ => none) (enqueues n) s ∧
      ∀ k ≥ n, s.queue.nodes k = none := by
  induction n with
  | zero => exact ⟨_, .start, fun _ _ => rfl⟩
  | succ n ih =>
    obtain ⟨s, hs, hfree⟩ := ih
    obtain ⟨c, hc⟩ := (QueueUse.holds_of_execution hs).1
    obtain ⟨q, hok, -, hfree'⟩ := hc.enqueue (hfree n le_rfl) n
    rw [enqueues_succ]
    refine ⟨{ s with queue := q }, hs.snoc trivial ?_, fun k hk => ?_⟩
    · simp [QueueUse.step, hok]
    · exact hfree' k (Nat.ne_of_gt hk) (hfree k (Nat.le_of_succ_le hk))

theorem enqueued_enqueues (n : ℕ) : enqueued (enqueues n) = List.range n := by
  induction n with
  | zero => rfl
  | succ n ih => rw [enqueues_succ, enqueued_enqueue, ih, List.range_succ]

theorem dequeues_enqueues (n : ℕ) : dequeues (enqueues n) = 0 := by
  induction n with
  | zero => rfl
  | succ n ih => rw [enqueues_succ, dequeues_enqueue, ih]

/-- Each of the threads from 0 on, in a node of the same number. -/
def inserts (n : ℕ) : List ListOp := (List.range n).map fun i => .insertAtFront i i

theorem inserts_succ (n : ℕ) : inserts (n + 1) = inserts n ++ [.insertAtFront n n] := by
  simp [inserts, List.range_succ]

theorem execution_inserts (tcbs : Tcbs) (n : ℕ) :
    ∃ l, Execution (LinkedList.step tcbs) (fun _ _ => True) (LinkedList.init fun _ => none)
        (inserts n) l ∧ ∀ k ≥ n, l.nodes k = none := by
  induction n with
  | zero => exact ⟨_, .start, fun _ _ => rfl⟩
  | succ n ih =>
    obtain ⟨l, hl, hfree⟩ := ih
    obtain ⟨c, hc, -⟩ := LinkedList.holds_of_execution hl
    obtain ⟨l', hok, -, hfree'⟩ := hc.insertAtFront (hfree n le_rfl) n
    rw [inserts_succ]
    refine ⟨l', hl.snoc trivial hok, fun k hk => ?_⟩
    exact hfree' k (Nat.ne_of_gt hk) (hfree k (Nat.le_of_succ_le hk))

theorem countP_inserts (n : ℕ) :
    (inserts n).countP ListOp.inserts = n ∧ (inserts n).countP ListOp.removes = 0 := by
  induction n with
  | zero => exact ⟨rfl, rfl⟩
  | succ n ih => simp [inserts_succ, ih, ListOp.inserts, ListOp.removes]

namespace Machine

variable {s : Machine} {n : ℕ} {es : List Event}

/-- The main thread has run for a microsecond. -/
def mainBlock : Tcb := { newTcb MAIN_THREAD with quantumAmtUsed := 1 }

/-- The thread `n` runs, the last to be created; the main thread waits for the processor, and the
threads between them have ended. -/
structure Relay (n : ℕ) (s : Machine) : Prop where
  cpu : s.cpu = .thread
  running : s.running = some n
  ctl : ∀ p ≥ n, s.ctl p = .program
  qArrival : s.qArrival = ⟨0, []⟩
  tcbs : s.tcbs = ⟨1, [mainTcb]⟩
  allocated : s.allocated = n + 1
  last : s.lastCreatedWorkerTid.toNat = n + 1
  main : s.tcbAt mainTcb = mainBlock
  own : s.tcbAt n = newTcb s.lastCreatedWorkerTid
  ended : s.endedTcbs.size.toNat + 1 = n

/-- The main thread creates a thread and yields to it. -/
def firstThread : List Event :=
  [.call (.create 100), .proceed 0, .call .yield, .proceed 1, .proceed 0, .proceed 0, .schedule]

/-- The running thread creates a thread and ends. -/
def createAndFinish : List Event := [.call (.create 100), .proceed 0, .finish]

theorem relay_firstThread :
    ∃ s, Execution (Machine.exec .psjf) (fun _ _ => True) (initLibrary ⟨0, 0, none⟩) firstThread s ∧
      s.Relay 1 := by
  have hseen : (replay (Machine.exec .psjf) (initLibrary ⟨0, 0, none⟩) firstThread).map (fun s =>
      ((s.cpu, s.running, s.ctl 1, s.qArrival, s.tcbs, s.allocated),
        s.lastCreatedWorkerTid, s.tcbAt mainTcb, s.tcbAt 1, s.endedTcbs.size)) =
      .ok ((.thread, some 1, .program, ⟨0, []⟩, ⟨1, [mainTcb]⟩, 2), 2, mainBlock, newTcb 2, 0) := rfl
  obtain ⟨s, -, hs, hobs⟩ := Execution.of_observed hseen
  simp only [Prod.mk.injEq] at hobs
  obtain ⟨⟨hcpu, hrun, hctl, hq, htcbs, halloc⟩, hlast, hmain, hown, hended⟩ := hobs
  refine ⟨s, hs, hcpu, hrun, fun p hp => ?_, hq, htcbs, halloc, by rw [hlast]; rfl, hmain,
    by rw [hown, hlast], by rw [hended]; rfl⟩
  rcases Nat.eq_or_lt_of_le hp with rfl | hlt
  · exact hctl
  · exact ctl_of_execution hs (halloc ▸ hlt)

namespace Relay

/-- The thread ends, with a new one in `q_arrival`. -/
theorem finish (h : s.Relay n) (hn : 1 ≤ n) (hlt : n ≤ 65536) :
    ∃ s', replay (Machine.exec .psjf) s createAndFinish = .ok s' ∧ s'.cpu = .cleanup ∧
      s'.running = some n ∧ (∀ p ≥ n, s'.ctl p = .program) ∧ s'.qArrival = ⟨1, [n + 1]⟩ ∧
      s'.tcbs = ⟨1, [mainTcb]⟩ ∧ s'.allocated = n + 2 ∧
      s'.lastCreatedWorkerTid.toNat = n + 2 ∧ s'.tcbAt mainTcb = mainBlock ∧
      s'.tcbAt n = newTcb s.lastCreatedWorkerTid ∧
      s'.tcbAt (n + 1) = newTcb s'.lastCreatedWorkerTid ∧ s'.endedTcbs = s.endedTcbs := by
  have hmake : s.exec .psjf (.call (.create 100)) = .ok (s.workerCreate n 100) := by
    simp [exec, h.cpu, h.running, execThread, h.ctl, call]
  have henqueue : (s.workerCreate n 100).exec .psjf (.proceed 0) =
      .ok ((s.workerCreate n 100).enqueueCreated n (n + 1)) := by
    simp [exec, h.cpu, h.running, execThread, proceed, workerCreate, h.allocated]
  let t := (s.workerCreate n 100).enqueueCreated n (n + 1)
  have hfinish : t.exec .psjf .finish =
      .ok { t.note (.finished n (t.tcbAt n).retValue) with cpu := .cleanup } := by
    have hne : n ≠ 0 := by omega
    simp [t, exec, h.cpu, h.running, execThread, workerCreate, enqueueCreated, hne]
  have hid : (s.lastCreatedWorkerTid + 1).toNat = n + 2 := by
    rw [UInt32.toNat_add, h.last]
    exact Nat.mod_eq_of_lt (by change n + 1 + 1 < 2 ^ 32; omega)
  have hctl : ∀ p ≥ n, t.ctl p = .program := by
    intro p hp
    by_cases hpn : p = n
    · simp [t, enqueueCreated, hpn]
    · simp [t, enqueueCreated, workerCreate, hpn, h.ctl p hp]
  refine ⟨{ t.note (.finished n (t.tcbAt n).retValue) with cpu := .cleanup }, ?_, rfl, h.running,
    hctl, ?_⟩
  · simp only [createAndFinish, replay, hmake, henqueue, ok_bind]
    exact bind_eq_ok.mpr ⟨_, hfinish, rfl⟩
  · have hne : mainTcb ≠ n + 1 := (Nat.succ_ne_zero n).symm
    simp [t, workerCreate, enqueueCreated, enqueue, isEmpty, h.qArrival, h.tcbs, h.allocated, hid,
      h.main, h.own, hne]

/-- It is cleaned, and the new thread is dispatched. -/
theorem step {init : Machine} (hs : Execution (Machine.exec .psjf) (fun _ _ => True) init es s)
    (h : s.Relay n) (hn : 1 ≤ n) (hlt : n < 65536) :
    ∃ s', Execution (Machine.exec .psjf) (fun _ _ => True) init
        (es ++ createAndFinish ++ [.cleanup] ++ [.schedule]) s' ∧ s'.Relay (n + 1) := by
  obtain ⟨t, hfinish, hcpu, hrun, hctl, hq, htcbs, halloc, hlast, hmain, hold, hnew, hended⟩ :=
    h.finish hn hlt.le
  have hmainId : (t.tcbAt mainTcb).threadId.toNat = 1 := by rw [hmain]; rfl
  have hmainJoin : (t.tcbAt mainTcb).joinTid.toNat = 0 := by rw [hmain]; rfl
  have holdId : (t.tcbAt n).threadId.toNat = n + 1 := by rw [hold]; exact h.last
  have hnewId : (t.tcbAt (n + 1)).threadId.toNat = n + 2 := by rw [hnew]; exact hlast
  have hsize : (t.endedTcbs.size + 1).toNat = n := by
    rw [hended, UInt16.toNat_add, ← h.ended]
    exact Nat.mod_eq_of_lt (by rw [UInt16.toNat_one, h.ended]; exact hlt)
  have hclean : t.exec .psjf .cleanup = .ok { t with
      endedTcbs := insertAtFront t.endedTcbs n
      running := none
      cpu := .scheduler } := by
    have hne : (t.tcbAt mainTcb).threadId ≠ (t.tcbAt n).threadId := fun heq => by
      rw [heq] at hmainId
      omega
    have hnot : (t.tcbAt mainTcb).joinTid ≠ (t.tcbAt n).threadId := fun heq => by
      rw [heq] at hmainJoin
      omega
    simp only [exec, hcpu, hrun]
    refine clean_eq (by simpa [htcbs] using hne) (by simpa [htcbs] using hnot) fun hzero => ?_
    rw [hzero] at hsize
    exact (Nat.ne_of_gt hn) hsize.symm
  have hfresh : (t.tcbAt mainTcb).threadId ≠ (t.tcbAt (n + 1)).threadId := fun heq => by
    rw [heq] at hmainId
    omega
  have hbefore : GoesBefore t.tcbAt (n + 1) mainTcb := by
    simp [GoesBefore, compareUsage, hmain, hnew, mainBlock, newTcb]
  have hfree : isBlocked (t.tcbAt (n + 1)) = false := by simp [hnew, newTcb]
  have hround := schedPsjf_eq (s := { t with
      endedTcbs := insertAtFront t.endedTcbs n
      running := none
      cpu := .scheduler }) rfl hq htcbs hfresh hbefore hfree
  refine ⟨_, ((hs.append_replay _ (fun _ _ => trivial) hfinish).snoc trivial hclean).snoc trivial
    hround, ?_⟩
  exact ⟨rfl, rfl, fun p hp => hctl p (by omega), rfl, htcbs, halloc, hlast, hmain, hnew,
    congrArg (· + 1) hsize⟩

end Relay

/-- `k` threads have ended, and the next runs. -/
def relay : ℕ → List Event
  | 0 => firstThread
  | k + 1 => relay k ++ createAndFinish ++ [.cleanup] ++ [.schedule]

theorem execution_relay {k : ℕ} (hk : k < 65536) :
    ∃ s, Execution (Machine.exec .psjf) (fun _ _ => True) (initLibrary ⟨0, 0, none⟩) (relay k) s ∧
      s.Relay (k + 1) := by
  induction k with
  | zero => exact relay_firstThread
  | succ k ih =>
    obtain ⟨s, hs, hrelay⟩ := ih (Nat.lt_of_succ_lt hk)
    exact hrelay.step hs (Nat.succ_pos k) hk

theorem completes_relay (k : ℕ) : (relay k ++ createAndFinish).countP completes = k := by
  have hnone : createAndFinish.countP completes = 0 := rfl
  rw [List.countP_append, hnone, Nat.add_zero]
  induction k with
  | zero => rfl
  | succ k ih =>
    rw [relay, List.countP_append, List.countP_append, List.countP_append, ih, hnone]
    rfl

/-- The 65536th thread has ended. -/
theorem exists_completes : ∃ s, Execution (Machine.exec .psjf) (fun _ _ => True)
    (initLibrary ⟨0, 0, none⟩) (relay 65535 ++ createAndFinish) s ∧ s.Completes := by
  obtain ⟨s, hs, hrelay⟩ := execution_relay (k := 65535) (by decide)
  obtain ⟨t, hfinish, hcpu, hrun, -, -, htcbs, -, -, hmain, hown, -⟩ :=
    hrelay.finish (by decide) (by decide)
  refine ⟨t, hs.append_replay _ (fun _ _ => trivial) hfinish, 65536, t, hcpu, hrun,
    removeRunning_eq fun q hq heq => ?_⟩
  obtain rfl : q = mainTcb := by simpa [htcbs] using hq
  rw [hmain, hown] at heq
  exact absurd ((congrArg UInt32.toNat heq).trans hrelay.last) (by decide)

end Machine

/-- The list of the first 65536 nodes passes for empty, the queue too, and the assertion on the
number of ended threads fails for the 65536th. -/
theorem alwaysExact_fails :
    ¬ QueueUse.AlwaysExact (fun _ => none) (enqueues 65536) ∧
      ¬ LinkedList.AlwaysExact (fun _ => Machine.newTcb 0) (fun _ => none) (inserts 65536) ∧
      ¬ Machine.AlwaysExact .psjf ⟨0, 0, none⟩ (Machine.relay 65535 ++ Machine.createAndFinish) := by
  rw [QueueUse.alwaysExact_iff_room, LinkedList.alwaysExact_iff_room, Machine.alwaysExact_iff_room]
  refine ⟨fun hroom => ?_, fun hroom => ?_, fun hroom => ?_⟩
  · obtain ⟨s, hs, -⟩ := execution_enqueues 65536
    have hlt := hroom _ s (List.prefix_refl _) hs
    rw [enqueued_enqueues, dequeues_enqueues, List.length_range] at hlt
    exact hlt.false
  · obtain ⟨l, hl, -⟩ := execution_inserts (fun _ => Machine.newTcb 0) 65536
    have hlt := hroom _ l (List.prefix_refl _) hl
    rw [(countP_inserts 65536).1, (countP_inserts 65536).2] at hlt
    exact hlt.false
  · obtain ⟨s, hs, hcompletes⟩ := Machine.exists_completes
    have hlt := hroom _ s (List.prefix_refl _) hs hcompletes
    rw [Machine.completes_relay] at hlt
    exact hlt.false

end UserLevelOs.Threads
