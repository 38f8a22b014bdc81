import UserLevelOs.Lib.Execution
import UserLevelOs.Threads.Tcb
import Mathlib.Data.List.Sort
import Mathlib.Data.Multiset.AddSub

/-!
# Lists and queues of threads

`List` and `Queue` keep their nodes in order next to a size, an `unsigned short` that is what
the library looks at to tell whether they are empty.  A size that has wrapped makes it drop
the nodes.

## Main definitions

* `ThreadList`, `insertByUsage`, `insertAtFront`, `contains`, `removeFrom`,
  `findFirstUnblockedThread`.
* `Queue`, `enqueue`, `dequeue`.
* `Counted` — the size is the number of nodes.

## Main statements

* `insertByUsage_eq`, `removeFrom_eq` — what they do when their assertions hold.
* `linkByUsage_le`, `enqueue_le`, `dequeue_le` — no operation makes up a thread.
* `enqueue_nodes`, `dequeue_cons` — first in, first out.
-/

namespace UserLevelOs.Threads

open UserLevelOs.Lib

/-- The assertions of the library. -/
inductive Assertion
  /-- `insert_by_usage`: the thread is not in the list yet. -/
  | insertFresh
  | insertSorted
  | insertContained
  | removeNonempty
  | removeContained
  | firstUnblocked
  | dequeueNonempty
  /-- `boost_all_queues`: the first queue is as long as `tcbs`. -/
  | boostSizes
  /-- `sched_mlfq`: a thread to run was found. -/
  | mlfqRunning
  /-- `is_held_by`: the mutex exists. -/
  | mutexExists
  | lockFetched
  /-- `worker_mutex_unlock`: the caller holds the mutex. -/
  | unlockHeld
  | destroyFront
  /-- `recompute_benchmarks`: some thread has ended. -/
  | someEnded
  deriving DecidableEq, Repr

inductive Fault
  | assertion (a : Assertion)
  /-- A store through `NULL`. -/
  | nullStore
  /-- A read or a write through a pointer to nothing, or to a freed node. -/
  | wild
  /-- An index past the end of `all_queue`. -/
  | outOfBounds
  /-- A loop over a list that leads back into itself. -/
  | endless
  /-- The event cannot occur in this state. -/
  | notNow
  deriving DecidableEq, Repr

def assert (c : Bool) (a : Assertion) : Except Fault Unit :=
  if c then .ok () else .error (.assertion a)

theorem assert_bind_eq_ok {α : Type} {c : Bool} {a : Assertion} {f : Unit → Except Fault α}
    {b : α} : (assert c a >>= f) = .ok b ↔ c = true ∧ f () = .ok b := by
  cases c <;> simp [assert, bind, Except.bind]

theorem assert_bind {α : Type} {c : Bool} {a : Assertion} {f : Unit → Except Fault α}
    (h : c = true) : (assert c a >>= f) = f () := by
  simp [assert, h, bind, Except.bind]

/-! ## Lists -/

/-- `List`. -/
structure ThreadList where
  size : UInt16
  /-- The threads of the nodes, from the front. -/
  nodes : List TcbPtr
  deriving DecidableEq, Repr

/-- `Queue`. -/
structure Queue where
  size : UInt16
  /-- The threads of the nodes, from the front; the last is that of `rear`. -/
  nodes : List TcbPtr
  deriving DecidableEq, Repr

variable (tcbs : Tcbs)

def isEmptyList (l : ThreadList) : Bool := l.size == 0

def contains (l : ThreadList) (target : Worker) : Option TcbPtr :=
  l.nodes.find? fun p => (tcbs p).threadId == target

/-- `p` goes before `q` in a list ordered by usage. -/
abbrev GoesBefore (p q : TcbPtr) : Prop := compareUsage (tcbs p) (tcbs q) = true

def sortedByUsage (l : ThreadList) : Bool := decide (l.nodes.IsChain (GoesBefore tcbs))

/-- The new node goes before the first that it may go before; a list whose size has wrapped to
zero passes for empty and loses its nodes. -/
def linkByUsage (l : ThreadList) (toBeInserted : TcbPtr) : ThreadList where
  size := l.size + 1
  nodes := if isEmptyList l then [toBeInserted]
    else l.nodes.orderedInsert (GoesBefore tcbs) toBeInserted

def insertByUsage (l : ThreadList) (toBeInserted : TcbPtr) : Except Fault ThreadList := do
  assert (contains tcbs l (tcbs toBeInserted).threadId).isNone .insertFresh
  let l' := linkByUsage tcbs l toBeInserted
  assert (sortedByUsage tcbs l') .insertSorted
  assert (contains tcbs l' (tcbs toBeInserted).threadId).isSome .insertContained
  return l'

def insertAtFront (l : ThreadList) (toBeInserted : TcbPtr) : ThreadList where
  size := l.size + 1
  nodes := toBeInserted :: l.nodes

def removeFrom (l : ThreadList) (target : Worker) : Except Fault (TcbPtr × ThreadList) := do
  assert (!isEmptyList l) .removeNonempty
  match contains tcbs l target with
  | none => .error (.assertion .removeContained)
  | some p =>
    return (p, { size := l.size - 1, nodes := l.nodes.eraseP fun q => (tcbs q).threadId == target })

def findFirstUnblockedThread (l : ThreadList) : Except Fault TcbPtr :=
  match l.nodes.find? fun p => !isBlocked (tcbs p) with
  | none => .error (.assertion .firstUnblocked)
  | some p => .ok p

/-! ## Queues -/

def isEmpty (q : Queue) : Bool := q.size == 0

def enqueue (q : Queue) (data : TcbPtr) : Queue where
  size := q.size + 1
  nodes := if isEmpty q then [data] else q.nodes ++ [data]

def dequeue (q : Queue) : Except Fault (TcbPtr × Queue) := do
  assert (!isEmpty q) .dequeueNonempty
  if q.size = 1 then
    match q.nodes.getLast? with
    | none => .error .wild
    | some rear => return (rear, { size := 0, nodes := [] })
  else
    match q.nodes with
    | [] => .error .wild
    | front :: rest => return (front, { size := q.size - 1, nodes := rest })

/-! ## Sizes -/

/-- The size field counts the nodes, as far as an `unsigned short` can. -/
def Counted (size : UInt16) (nodes : List TcbPtr) : Prop := size = UInt16.ofNat nodes.length

namespace Counted

variable {size : UInt16} {nodes nodes' : List TcbPtr}

theorem toNat (h : Counted size nodes) (hlt : nodes.length < 65536) :
    size.toNat = nodes.length := by
  rw [h, UInt16.toNat_ofNat_of_lt' hlt]

theorem eq_zero (h : Counted size nodes) (hlt : nodes.length < 65536) :
    size = 0 ↔ nodes = [] := by
  simp [← UInt16.toNat_inj, h.toNat hlt]

theorem add_one (h : Counted size nodes) (hlen : nodes'.length = nodes.length + 1) :
    Counted (size + 1) nodes' := by
  simp [Counted, hlen, UInt16.ofNat_add, ← h.symm]

theorem sub_one (h : Counted size nodes) (hlen : nodes'.length + 1 = nodes.length) :
    Counted (size - 1) nodes' := by
  simp [Counted, ← hlen, UInt16.ofNat_add, show size = _ from h]

theorem nil : Counted 0 [] := rfl

end Counted

/-! ## What the operations do -/

section Operations

variable {tcbs : Tcbs} {l l' : ThreadList} {q q' : Queue} {x p : TcbPtr} {target : Worker}

theorem contains_eq_some (h : contains tcbs l target = some p) :
    p ∈ l.nodes ∧ (tcbs p).threadId = target :=
  ⟨List.mem_of_find?_eq_some h, by simpa using List.find?_some h⟩

theorem contains_eq_none :
    contains tcbs l target = none ↔ ∀ p ∈ l.nodes, (tcbs p).threadId ≠ target := by
  simp [contains]

theorem contains_isSome :
    (contains tcbs l target).isSome = true ↔ ∃ p ∈ l.nodes, (tcbs p).threadId = target := by
  simp [contains]

theorem linkByUsage_le : ((linkByUsage tcbs l x).nodes : Multiset TcbPtr) ≤ x ::ₘ l.nodes := by
  unfold linkByUsage
  dsimp only
  split
  · simp
  · exact (Multiset.coe_eq_coe.mpr (List.perm_orderedInsert _ x l.nodes)).le

theorem mem_linkByUsage : x ∈ (linkByUsage tcbs l x).nodes := by
  unfold linkByUsage
  dsimp only
  split <;> simp

/-- As long as the size has not wrapped, nothing is lost. -/
theorem linkByUsage_nodes (h : Counted l.size l.nodes) (hlt : l.nodes.length < 65536) :
    (linkByUsage tcbs l x).nodes = l.nodes.orderedInsert (GoesBefore tcbs) x := by
  unfold linkByUsage
  dsimp only
  split
  · next hempty =>
    have hnil : l.nodes = [] := (h.eq_zero hlt).mp (by simpa [isEmptyList] using hempty)
    simp [hnil]
  · rfl

theorem counted_linkByUsage (h : Counted l.size l.nodes) :
    Counted (linkByUsage tcbs l x).size (linkByUsage tcbs l x).nodes := by
  unfold linkByUsage
  dsimp only
  split
  · next hempty =>
    have hzero : l.size = 0 := by simpa [isEmptyList] using hempty
    simp [hzero, Counted]
  · exact h.add_one (List.orderedInsert_length _ _ _)

theorem sorted_linkByUsage (h : l.nodes.Pairwise (GoesBefore tcbs)) :
    (linkByUsage tcbs l x).nodes.Pairwise (GoesBefore tcbs) := by
  have htotal : Std.Total (GoesBefore tcbs) := ⟨fun a b => compareUsage_total _ _⟩
  have htrans : IsTrans TcbPtr (GoesBefore tcbs) := ⟨fun a b c => compareUsage_trans⟩
  unfold linkByUsage
  dsimp only
  split
  · simp
  · exact h.orderedInsert x _

theorem sortedByUsage_iff :
    sortedByUsage tcbs l = true ↔ l.nodes.Pairwise (GoesBefore tcbs) := by
  have htrans : IsTrans TcbPtr (GoesBefore tcbs) := ⟨fun a b c => compareUsage_trans⟩
  simp [sortedByUsage, List.isChain_iff_pairwise]

theorem counted_insertAtFront (h : Counted l.size l.nodes) :
    Counted (insertAtFront l x).size (insertAtFront l x).nodes :=
  h.add_one rfl

theorem insertByUsage_ok (h : insertByUsage tcbs l x = .ok l') :
    l' = linkByUsage tcbs l x ∧ (∀ p ∈ l.nodes, (tcbs p).threadId ≠ (tcbs x).threadId) ∧
      l'.nodes.Pairwise (GoesBefore tcbs) := by
  simp only [insertByUsage, assert_bind_eq_ok, Option.isNone_iff_eq_none, contains_eq_none,
    sortedByUsage_iff] at h
  obtain ⟨hfresh, hsorted, -, h⟩ := h
  cases h
  exact ⟨rfl, hfresh, hsorted⟩

/-- On a sorted list that does not have the thread, no assertion fails. -/
theorem insertByUsage_eq (hfresh : ∀ p ∈ l.nodes, (tcbs p).threadId ≠ (tcbs x).threadId)
    (hsorted : l.nodes.Pairwise (GoesBefore tcbs)) :
    insertByUsage tcbs l x = .ok (linkByUsage tcbs l x) := by
  have hin : (contains tcbs (linkByUsage tcbs l x) (tcbs x).threadId).isSome = true :=
    contains_isSome.mpr ⟨x, mem_linkByUsage, rfl⟩
  unfold insertByUsage
  rw [assert_bind (by simpa [contains_eq_none] using hfresh),
    assert_bind (sortedByUsage_iff.mpr (sorted_linkByUsage hsorted)), assert_bind hin]
  rfl

theorem removeFrom_ok (h : removeFrom tcbs l target = .ok (p, l')) :
    contains tcbs l target = some p ∧ l'.size = l.size - 1 ∧
      l'.nodes = l.nodes.eraseP fun q => (tcbs q).threadId == target := by
  simp only [removeFrom, assert_bind_eq_ok] at h
  obtain ⟨-, h⟩ := h
  split at h
  · cases h
  · next hp =>
    cases h
    exact ⟨hp, rfl, rfl⟩

/-- The node found is the node taken out. -/
theorem find?_cons_eraseP (f : TcbPtr → Bool) (ps : List TcbPtr) (h : ps.find? f = some p) :
    (p ::ₘ ps.eraseP f : Multiset TcbPtr) = ps := by
  induction ps with
  | nil => simp at h
  | cons q ps ih =>
    by_cases hq : f q = true
    · simp_all
    · rw [List.find?_cons_of_neg hq] at h
      rw [List.eraseP_cons_of_neg hq, ← Multiset.cons_coe, Multiset.cons_swap, ih h,
        Multiset.cons_coe]

theorem counted_removeFrom (h : Counted l.size l.nodes)
    (hrem : removeFrom tcbs l target = .ok (p, l')) : Counted l'.size l'.nodes := by
  obtain ⟨hp, hsize, hnodes⟩ := removeFrom_ok hrem
  have hperm := congrArg Multiset.card (find?_cons_eraseP _ _ hp)
  rw [hsize]
  exact h.sub_one (by simpa [hnodes] using hperm)

theorem removeFrom_perm (h : removeFrom tcbs l target = .ok (p, l')) :
    (p ::ₘ l'.nodes : Multiset TcbPtr) = l.nodes := by
  obtain ⟨hp, -, hnodes⟩ := removeFrom_ok h
  rw [hnodes]
  exact find?_cons_eraseP _ _ hp

theorem removeFrom_eq (hsize : l.size ≠ 0) (hp : contains tcbs l target = some p) :
    removeFrom tcbs l target =
      .ok (p, { size := l.size - 1
                nodes := l.nodes.eraseP fun q => (tcbs q).threadId == target }) := by
  unfold removeFrom
  rw [assert_bind (by simpa [isEmptyList] using hsize)]
  simp only [hp]
  rfl

theorem findFirstUnblockedThread_ok (h : findFirstUnblockedThread tcbs l = .ok p) :
    l.nodes.find? (fun q => !isBlocked (tcbs q)) = some p := by
  unfold findFirstUnblockedThread at h
  split at h
  · cases h
  · next hp =>
    cases h
    exact hp

/-! ### Queues -/

theorem enqueue_le : ((enqueue q x).nodes : Multiset TcbPtr) ≤ x ::ₘ q.nodes := by
  unfold enqueue
  dsimp only
  split
  · simp
  · exact (Multiset.coe_eq_coe.mpr (List.perm_append_singleton x q.nodes)).le

theorem enqueue_nodes (h : Counted q.size q.nodes) (hlt : q.nodes.length < 65536) :
    (enqueue q x).nodes = q.nodes ++ [x] := by
  unfold enqueue
  dsimp only
  split
  · next hempty =>
    have hnil : q.nodes = [] := (h.eq_zero hlt).mp (by simpa [isEmpty] using hempty)
    simp [hnil]
  · rfl

theorem counted_enqueue (h : Counted q.size q.nodes) :
    Counted (enqueue q x).size (enqueue q x).nodes := by
  unfold enqueue
  dsimp only
  split
  · next hempty =>
    have hzero : q.size = 0 := by simpa [isEmpty] using hempty
    simp [hzero, Counted]
  · exact h.add_one (by simp)

theorem dequeue_le (h : dequeue q = .ok (p, q')) :
    (p ::ₘ q'.nodes : Multiset TcbPtr) ≤ q.nodes := by
  simp only [dequeue, assert_bind_eq_ok] at h
  obtain ⟨-, h⟩ := h
  split at h
  · split at h
    · cases h
    · next hlast =>
      cases h
      simpa using List.mem_of_getLast? hlast
  · split at h
    · cases h
    · next hnodes =>
      cases h
      simp [hnodes]

theorem dequeue_cons {rest : List TcbPtr} (h : Counted q.size q.nodes)
    (hlt : q.nodes.length < 65536) (hq : q.nodes = x :: rest) :
    dequeue q = .ok (x, { size := q.size - 1, nodes := rest }) := by
  have hne : q.size ≠ 0 := by simp [h.eq_zero hlt, hq]
  unfold dequeue
  rw [assert_bind (by simpa [isEmpty] using hne)]
  by_cases hone : q.size = 1
  · have hlen : q.nodes.length = 1 := by simp [← h.toNat hlt, hone]
    have hrest : rest = [] := by simpa [hq] using hlen
    subst hrest
    simp [hone, hq, pure, Except.pure]
  · simp [hone, hq, pure, Except.pure]

theorem counted_dequeue (h : Counted q.size q.nodes) (hdeq : dequeue q = .ok (p, q')) :
    Counted q'.size q'.nodes := by
  simp only [dequeue, assert_bind_eq_ok] at hdeq
  obtain ⟨-, hdeq⟩ := hdeq
  split at hdeq
  · split at hdeq
    · cases hdeq
    · cases hdeq
      exact .nil
  · split at hdeq
    · cases hdeq
    · next hnodes =>
      cases hdeq
      exact h.sub_one (by simp [hnodes])

/-- Nothing is lost on the way out. -/
theorem dequeue_nodes (h : Counted q.size q.nodes) (hlt : q.nodes.length < 65536)
    (hdeq : dequeue q = .ok (p, q')) : q.nodes = p :: q'.nodes := by
  cases hnodes : q.nodes with
  | nil =>
    have hzero : q.size = 0 := (h.eq_zero hlt).mpr hnodes
    simp [dequeue, isEmpty, hzero, assert, bind, Except.bind] at hdeq
  | cons x rest =>
    rw [dequeue_cons h hlt hnodes] at hdeq
    cases hdeq
    rfl

end Operations

end UserLevelOs.Threads
