import UserLevelOs.Lib.Cells
import UserLevelOs.Threads.Mutexes

/-!
# The nodes of lists and queues

`Lists` has a list or a queue as the threads of its nodes in order.  In memory the nodes are
linked: those of a `List` from `front` on to a null pointer, those of a `Queue` in a ring that is
held by its rear.  The functions below follow the pointers and look at nothing but the size to
tell whether there are nodes; what they do to the nodes is what `Lists` says.

## Main definitions

* `Nodes.malloc`, `Nodes.deref`, `Nodes.setNext`, `Nodes.free` — access to the heap.
* `LinkedQueue`, with `enqueue` and `dequeue`.
* `LinkedList`, with `insertAtFront`, `contains` and `removeFrom`.
* `LinkedQueue.Holds`, `LinkedList.Holds` — the nodes carry the threads of a queue, of a list.

## Main statements

* `LinkedQueue.Holds.enqueue`, `LinkedQueue.Holds.dequeue`.
* `LinkedList.Holds.insertAtFront`, `LinkedList.Holds.removeFrom`.
-/

namespace UserLevelOs.Threads

open UserLevelOs.Lib

/-- `Node`. -/
abbrev Node := Cell TcbPtr

/-- The nodes that are allocated. -/
abbrev Nodes := Cells TcbPtr

namespace Nodes

variable {nodes : Nodes} {n : NodePtr} {node : Node}

/-- A new node for `data`; `malloc` puts it at `item`, where there is none. -/
def malloc (nodes : Nodes) (item : NodePtr) (data : TcbPtr) : Except Fault Nodes :=
  match nodes item with
  | some _ => .error .notNow
  | none => .ok (Function.update nodes item (some { data, next := none }))

/-- Reading a node. -/
def deref (nodes : Nodes) : Option NodePtr → Except Fault Node
  | none => .error .wild
  | some n =>
    match nodes n with
    | none => .error .wild
    | some node => .ok node

/-- `p->next = next`. -/
def setNext (nodes : Nodes) (p next : Option NodePtr) : Except Fault Nodes :=
  match p with
  | none => .error .wild
  | some n =>
    match nodes n with
    | none => .error .wild
    | some node => .ok (Function.update nodes n (some { node with next := next }))

def free (nodes : Nodes) (p : Option NodePtr) : Except Fault Nodes :=
  match p with
  | none => .error .wild
  | some n =>
    match nodes n with
    | none => .error .wild
    | some _ => .ok (Function.update nodes n none)

theorem malloc_of_none (h : nodes n = none) (data : TcbPtr) :
    malloc nodes n data = .ok (Function.update nodes n (some { data, next := none })) := by
  simp [malloc, h]

theorem malloc_ok {nodes' : Nodes} {data : TcbPtr} (h : malloc nodes n data = .ok nodes') :
    nodes n = none := by
  cases hn : nodes n with
  | none => rfl
  | some node => simp [malloc, hn] at h

theorem deref_of_some (h : nodes n = some node) : deref nodes (some n) = .ok node := by
  simp [deref, h]

theorem setNext_of_some (h : nodes n = some node) (next : Option NodePtr) :
    setNext nodes (some n) next =
      .ok (Function.update nodes n (some { node with next := next })) := by
  simp [setNext, h]

theorem free_of_some (h : nodes n = some node) :
    free nodes (some n) = .ok (Function.update nodes n none) := by
  simp [free, h]

end Nodes

/-! ## Queues -/

/-- `Queue`, with the nodes that are allocated. -/
structure LinkedQueue where
  size : UInt16
  rear : Option NodePtr
  nodes : Nodes

namespace LinkedQueue

def isEmpty (q : LinkedQueue) : Bool := q.size == 0

def enqueue (q : LinkedQueue) (data : TcbPtr) (item : NodePtr) : Except Fault LinkedQueue := do
  let nodes ← Nodes.malloc q.nodes item data
  if q.isEmpty then
    let nodes ← Nodes.setNext nodes (some item) (some item)
    return { size := q.size + 1, rear := some item, nodes }
  else
    let rear ← Nodes.deref nodes q.rear
    let nodes ← Nodes.setNext nodes (some item) rear.next
    let nodes ← Nodes.setNext nodes q.rear (some item)
    return { size := q.size + 1, rear := some item, nodes }

def dequeue (q : LinkedQueue) : Except Fault (TcbPtr × LinkedQueue) := do
  assert (!q.isEmpty) .dequeueNonempty
  if q.size = 1 then
    let nodes ← Nodes.setNext q.nodes q.rear none
    let front ← Nodes.deref nodes q.rear
    let nodes ← Nodes.free nodes q.rear
    return (front.data, { size := q.size - 1, rear := none, nodes })
  else
    let rear ← Nodes.deref q.nodes q.rear
    let front ← Nodes.deref q.nodes rear.next
    let nodes ← Nodes.setNext q.nodes q.rear front.next
    let result ← Nodes.deref nodes rear.next
    let nodes ← Nodes.free nodes rear.next
    return (result.data, { size := q.size - 1, rear := q.rear, nodes })

/-- The ring that `rear` holds carries the threads of `c`. -/
structure Holds (q : LinkedQueue) (c : Queue) : Prop where
  size : q.size = c.size
  counted : Counted c.size c.nodes
  ring : ∃ l, Ring q.nodes q.rear l ∧ l.map Prod.snd = c.nodes

namespace Holds

variable {q q' : LinkedQueue} {c c' : Queue} {data p : TcbPtr} {item : NodePtr}

theorem isEmpty_eq (h : q.Holds c) : q.isEmpty = Threads.isEmpty c := by
  simp [LinkedQueue.isEmpty, Threads.isEmpty, h.size]

/-- What does not pass for empty has nodes. -/
theorem ne_nil (h : q.Holds c) (hne : q.isEmpty = false) : c.nodes ≠ [] := by
  intro hnil
  have hsize := h.size.trans h.counted
  simp [LinkedQueue.isEmpty, hsize, hnil] at hne

/-- A node that is not in the heap can be put behind the rear; the others stay free. -/
theorem enqueue (h : q.Holds c) (hitem : q.nodes item = none) (data : TcbPtr) :
    ∃ q', q.enqueue data item = .ok q' ∧ q'.Holds (Threads.enqueue c data) ∧
      ∀ n ≠ item, q.nodes n = none → q'.nodes n = none := by
  obtain ⟨l, hring, hdata⟩ := h.ring
  have hcounted := counted_enqueue (x := data) h.counted
  cases hempty : q.isEmpty with
  | true =>
    refine ⟨⟨q.size + 1, some item, Function.update q.nodes item (some ⟨data, some item⟩)⟩,
      ?_, ⟨by simp [Threads.enqueue, h.size], hcounted, [(item, data)], Ring.single, ?_⟩, ?_⟩
    · simp [LinkedQueue.enqueue, hempty, Nodes.malloc_of_none hitem,
        Nodes.setNext_of_some (Function.update_self item _ q.nodes)]
    · simp [Threads.enqueue, ← h.isEmpty_eq, hempty]
    · intro n hn hfree
      simpa [hn] using hfree
  | false =>
    have hne : l ≠ [] := by
      rintro rfl
      exact h.ne_nil hempty hdata.symm
    obtain ⟨r, rear, hrear, hr⟩ := hring.exists_rear hne
    have hri : r ≠ item := by
      rintro rfl
      simp [hitem] at hr
    have hstep : q.enqueue data item = .ok ⟨q.size + 1, some item,
        Function.update (Function.update q.nodes item (some ⟨data, rear.next⟩)) r
          (some { rear with next := some item })⟩ := by
      simp [LinkedQueue.enqueue, hempty, Nodes.malloc_of_none hitem, hrear, Nodes.deref_of_some,
        Nodes.setNext_of_some, hri, hr]
    rw [hrear] at hring
    refine ⟨_, hstep, ⟨by simp [Threads.enqueue, h.size], hcounted, _, hring.push hr hitem, ?_⟩, ?_⟩
    · simp [Threads.enqueue, ← h.isEmpty_eq, hempty, hdata]
    · intro n hn hfree
      have hnr : n ≠ r := by
        rintro rfl
        simp [hfree] at hr
      simpa [hn, hnr] using hfree

/-- The first thread is returned, or the last if the size is 1. -/
theorem dequeue (h : q.Holds c) (hok : Threads.dequeue c = .ok (p, c')) :
    ∃ q', q.dequeue = .ok (p, q') ∧ q'.Holds c' := by
  obtain ⟨l, hring, hdata⟩ := h.ring
  have hcounted := counted_dequeue h.counted hok
  simp only [Threads.dequeue, assert_bind_eq_ok] at hok
  obtain ⟨hnonempty, hok⟩ := hok
  have hempty : q.isEmpty = false := by simpa [h.isEmpty_eq] using hnonempty
  have hne : l ≠ [] := by
    rintro rfl
    exact h.ne_nil hempty hdata.symm
  obtain ⟨r, rear, hrear, hr⟩ := hring.exists_rear hne
  rw [hrear] at hring
  by_cases hone : c.size = 1
  · have hlast : c.nodes.getLast? = some rear.data := by
      rw [← hdata, List.getLast?_map, (hring.rear_cell hr).1]
      rfl
    simp only [hone, if_true, hlast] at hok
    cases hok
    refine ⟨⟨q.size - 1, none, Function.update q.nodes r none⟩, ?_, ?_, hcounted, [], Ring.nil, rfl⟩
    · simp [LinkedQueue.dequeue, assert, hempty, h.size, hone, hrear, Nodes.deref_of_some,
        Nodes.setNext_of_some, Nodes.free_of_some, hr]
    · simp [h.size, hone]
  · cases hl : l with
    | nil => exact absurd hl hne
    | cons x l =>
      subst hl
      simp only [hone, if_false, ← hdata, List.map_cons] at hok
      cases hok
      -- a ring of one node has the size 1
      have hmore : l ≠ [] := by
        rintro rfl
        have hsize := h.counted
        simp [Counted, ← hdata] at hsize
        exact hone hsize
      obtain ⟨s, hnext, hxr, hx, hring⟩ := hring.pop hmore hr
      refine ⟨⟨q.size - 1, q.rear, Function.update (Function.update q.nodes r
        (some { rear with next := s })) x.1 none⟩, ?_, by simp [h.size], hcounted, l, ?_, rfl⟩
      · simp [LinkedQueue.dequeue, assert, hempty, h.size, hone, hrear, Nodes.deref_of_some,
          Nodes.setNext_of_some, Nodes.free_of_some, hr, hnext, hx, hxr]
      · rwa [hrear]

/-- What has size other than 0 gives a thread. -/
theorem exists_dequeue (h : q.Holds c) (hne : q.isEmpty = false) :
    ∃ p c', Threads.dequeue c = .ok (p, c') := by
  have hnodes := h.ne_nil hne
  have hassert : (!Threads.isEmpty c) = true := by simp [← h.isEmpty_eq, hne]
  unfold Threads.dequeue
  rw [assert_bind hassert]
  split
  · exact ⟨c.nodes.getLast hnodes, _, by rw [List.getLast?_eq_some_getLast hnodes]; rfl⟩
  · cases hc : c.nodes with
    | nil => exact absurd hc hnodes
    | cons x rest => exact ⟨x, _, rfl⟩

/-- No other thread is ever returned. -/
theorem of_dequeue (h : q.Holds c) (hok : q.dequeue = .ok (p, q')) :
    ∃ c', Threads.dequeue c = .ok (p, c') ∧ q'.Holds c' := by
  have hne : q.isEmpty = false := by
    simp only [LinkedQueue.dequeue, assert_bind_eq_ok] at hok
    simpa using hok.1
  obtain ⟨p', c', hdeq⟩ := h.exists_dequeue hne
  obtain ⟨q'', hok', hholds⟩ := h.dequeue hdeq
  rw [hok] at hok'
  cases hok'
  exact ⟨c', hdeq, hholds⟩

theorem of_enqueue (h : q.Holds c) (hok : q.enqueue data item = .ok q') :
    q'.Holds (Threads.enqueue c data) := by
  obtain ⟨nodes, hmalloc, -⟩ := bind_eq_ok.mp hok
  obtain ⟨q'', hok', hholds, -⟩ := h.enqueue (Nodes.malloc_ok hmalloc) data
  rw [hok] at hok'
  cases hok'
  exact hholds

end Holds

end LinkedQueue

/-! ## Lists -/

/-- `List`, with the nodes that are allocated. -/
structure LinkedList where
  size : UInt16
  front : Option NodePtr
  nodes : Nodes
  /-- How many nodes were ever put into the list. -/
  mallocs : ℕ

namespace LinkedList

variable (tcbs : Tcbs)

def isEmptyList (l : LinkedList) : Bool := l.size == 0

def insertAtFront (l : LinkedList) (toBeInserted : TcbPtr) (item : NodePtr) :
    Except Fault LinkedList := do
  let nodes ← Nodes.malloc l.nodes item toBeInserted
  let nodes ← Nodes.setNext nodes (some item) l.front
  return { size := l.size + 1, front := some item, nodes, mallocs := l.mallocs + 1 }

/-- The loop of `contains`.  One that passes more nodes than were ever put into the list is going
round in a circle. -/
def containsLoop (nodes : Nodes) (target : Worker) : ℕ → Option NodePtr →
    Except Fault (Option TcbPtr)
  | _, none => .ok none
  | 0, some _ => .error .endless
  | fuel + 1, some ptr => do
    let node ← Nodes.deref nodes (some ptr)
    if (tcbs node.data).threadId = target then return some node.data
    else containsLoop nodes target fuel node.next

def contains (l : LinkedList) (target : Worker) : Except Fault (Option TcbPtr) :=
  containsLoop tcbs l.nodes target l.mallocs l.front

/-- The loop of `remove_from` behind the first node; if it finds nothing, what it returns has
never been set. -/
def removeLoop (nodes : Nodes) (target : Worker) : ℕ → Option NodePtr → Option NodePtr →
    Except Fault (TcbPtr × Nodes)
  | _, _, none => .error .wild
  | 0, _, some _ => .error .endless
  | fuel + 1, prev, some ptr => do
    let node ← Nodes.deref nodes (some ptr)
    if (tcbs node.data).threadId = target then
      let nodes ← Nodes.setNext nodes prev node.next
      let found ← Nodes.deref nodes (some ptr)
      let nodes ← Nodes.free nodes (some ptr)
      return (found.data, nodes)
    else
      let before ← Nodes.deref nodes prev
      let node ← Nodes.deref nodes (some ptr)
      removeLoop nodes target fuel before.next node.next

def removeFrom (l : LinkedList) (target : Worker) : Except Fault (TcbPtr × LinkedList) := do
  assert (!l.isEmptyList) .removeNonempty
  let found ← l.contains tcbs target
  assert found.isSome .removeContained
  let front ← Nodes.deref l.nodes l.front
  if (tcbs front.data).threadId = target then
    let nodes ← Nodes.free l.nodes l.front
    return (front.data, { l with size := l.size - 1, front := front.next, nodes })
  else
    let (targetTcb, nodes) ← removeLoop tcbs l.nodes target l.mallocs l.front front.next
    return (targetTcb, { l with size := l.size - 1, nodes })

/-- The nodes that `front` leads to carry the threads of `c`. -/
structure Holds (l : LinkedList) (c : ThreadList) : Prop where
  size : l.size = c.size
  counted : Counted c.size c.nodes
  bounded : c.nodes.length ≤ l.mallocs
  chain : ∃ cells, Chain l.nodes l.front cells ∧ cells.map Prod.snd = c.nodes

section Loops

variable {tcbs} {nodes : Nodes} {target : Worker} {fuel : ℕ} {p : Option NodePtr}
  {cells before : List (NodePtr × TcbPtr)} {m : NodePtr} {b x : TcbPtr}

/-- The thread of the node has the number. -/
abbrev Bears (tcbs : Tcbs) (target : Worker) (q : TcbPtr) : Bool := (tcbs q).threadId == target

theorem containsLoop_eq (h : Chain nodes p cells) (hfuel : cells.length ≤ fuel) :
    containsLoop tcbs nodes target fuel p =
      .ok ((cells.map Prod.snd).find? (Bears tcbs target)) := by
  induction fuel generalizing p cells with
  | zero =>
    obtain rfl : cells = [] := List.length_eq_zero_iff.mp (Nat.le_zero.mp hfuel)
    obtain rfl : p = none := h.segment
    rfl
  | succ fuel ih =>
    cases cells with
    | nil =>
      obtain rfl : p = none := h.segment
      rfl
    | cons c cells =>
      obtain ⟨r, rfl, hc, hrest⟩ := h.uncons
      have hloop := ih hrest (Nat.le_of_succ_le_succ hfuel)
      by_cases hbears : (tcbs c.2).threadId = target
      · simp [containsLoop, Nodes.deref_of_some hc, hbears, Bears]
        rfl
      · simp [containsLoop, Nodes.deref_of_some hc, hbears, Bears, hloop]

/-- The walk has the node `c` behind it, and none so far has the number. -/
theorem removeLoop_eq {c : NodePtr × TcbPtr} {rest : List (NodePtr × TcbPtr)}
    (h : Chain nodes p (before ++ c :: rest)) (hfuel : rest.length ≤ fuel)
    (hfind : (rest.map Prod.snd).find? (Bears tcbs target) = some x) {ptr : Option NodePtr}
    (hptr : nodes c.1 = some ⟨c.2, ptr⟩) :
    ∃ nodes', removeLoop tcbs nodes target fuel (some c.1) ptr = .ok (x, nodes') ∧
      Chain nodes' p (before ++ c :: rest.eraseP fun y => Bears tcbs target y.2) := by
  induction fuel generalizing before c rest ptr with
  | zero =>
    obtain rfl : rest = [] := List.length_eq_zero_iff.mp (Nat.le_zero.mp hfuel)
    simp at hfind
  | succ fuel ih =>
    cases rest with
    | nil => simp at hfind
    | cons y rest =>
      obtain ⟨r, hc, hne, hy, hrelinked⟩ := h.relink
      rw [hptr] at hc
      cases hc
      by_cases hbears : (tcbs y.2).threadId = target
      · obtain rfl : y.2 = x := by simpa [Bears, hbears] using hfind
        have herase : (y :: rest).eraseP (fun y => Bears tcbs target y.2) = rest := by
          simp [Bears, hbears]
        rw [herase]
        refine ⟨_, ?_, hrelinked⟩
        simp [removeLoop, Nodes.deref_of_some, Nodes.setNext_of_some, Nodes.free_of_some, hptr, hy,
          hne.symm, hbears]
      · have hrest : (rest.map Prod.snd).find? (Bears tcbs target) = some x := by
          simpa [Bears, hbears] using hfind
        have hchain : Chain nodes p ((before ++ [c]) ++ y :: rest) := by simpa using h
        obtain ⟨nodes', hloop, hchain'⟩ :=
          ih hchain (Nat.le_of_succ_le_succ hfuel) hrest hy
        refine ⟨nodes', ?_, by simpa [Bears, hbears] using hchain'⟩
        simp [removeLoop, Nodes.deref_of_some, hptr, hy, hbears, hloop]

end Loops

namespace Holds

variable {tcbs} {l l' : LinkedList} {c c' : ThreadList} {target : Worker} {p x : TcbPtr}
  {item : NodePtr}

theorem isEmptyList_eq (h : l.Holds c) : l.isEmptyList = Threads.isEmptyList c := by
  simp [LinkedList.isEmptyList, Threads.isEmptyList, h.size]

/-- The loops have turns enough. -/
theorem fuel (h : l.Holds c) {cells : List (NodePtr × TcbPtr)}
    (hdata : cells.map Prod.snd = c.nodes) : cells.length ≤ l.mallocs := by
  rw [← List.length_map Prod.snd, hdata]
  exact h.bounded

theorem contains (h : l.Holds c) (target : Worker) :
    l.contains tcbs target = .ok (Threads.contains tcbs c target) := by
  obtain ⟨cells, hchain, hdata⟩ := h.chain
  rw [LinkedList.contains, containsLoop_eq hchain (h.fuel hdata), hdata]
  rfl

theorem insertAtFront (h : l.Holds c) (hitem : l.nodes item = none) (x : TcbPtr) :
    ∃ l', l.insertAtFront x item = .ok l' ∧ l'.Holds (Threads.insertAtFront c x) ∧
      ∀ n ≠ item, l.nodes n = none → l'.nodes n = none := by
  obtain ⟨cells, hchain, hdata⟩ := h.chain
  have hset := Nodes.setNext_of_some (Function.update_self item (some ⟨x, none⟩) l.nodes) l.front
  refine ⟨_, by simp [LinkedList.insertAtFront, Nodes.malloc_of_none hitem, hset]; rfl,
    ⟨by simp [Threads.insertAtFront, h.size], counted_insertAtFront h.counted, ?_, _,
      hchain.cons hitem, ?_⟩, ?_⟩
  · simpa [Threads.insertAtFront] using h.bounded
  · simp [Threads.insertAtFront, hdata]
  · intro n hn hfree
    simpa [hn] using hfree

theorem removeFrom (h : l.Holds c) (hok : Threads.removeFrom tcbs c target = .ok (p, c')) :
    ∃ l', l.removeFrom tcbs target = .ok (p, l') ∧ l'.Holds c' := by
  have hcounted := counted_removeFrom h.counted hok
  obtain ⟨hfound, hsize, hnodes⟩ := removeFrom_ok hok
  have hnonempty : l.isEmptyList = false := by
    simp only [Threads.removeFrom, assert_bind_eq_ok] at hok
    simpa [h.isEmptyList_eq] using hok.1
  have hbounded : c'.nodes.length ≤ l.mallocs := by
    rw [hnodes]
    exact List.length_eraseP_le.trans h.bounded
  have hcontains : l.contains tcbs target = .ok (some p) := by rw [h.contains, hfound]
  obtain ⟨cells, hchain, hdata⟩ := h.chain
  have hfuel := h.fuel hdata
  cases hcells : cells with
  | nil => simp [Threads.contains, ← hdata, hcells] at hfound
  | cons x rest =>
    subst hcells
    have hfind : ((x :: rest).map Prod.snd).find? (Bears tcbs target) = some p := by
      rw [hdata]
      exact hfound
    by_cases hbears : (tcbs x.2).threadId = target
    · obtain ⟨r, hfront, hx, hfree⟩ := hchain.free
      obtain rfl : x.2 = p := by simpa [Bears, hbears] using hfind
      refine ⟨⟨l.size - 1, r, Function.update l.nodes x.1 none, l.mallocs⟩, ?_,
        by simp [h.size, hsize], hcounted, hbounded, rest, hfree, ?_⟩
      · simp [LinkedList.removeFrom, assert, hnonempty, hcontains, hfront,
          Nodes.deref_of_some hx, hbears, Nodes.free_of_some hx]
      · simp [hnodes, ← hdata, hbears]
    · obtain ⟨r, hfront, hx, -⟩ := hchain.free
      have hrest : (rest.map Prod.snd).find? (Bears tcbs target) = some p := by
        simpa [Bears, hbears] using hfind
      have hfirst : Chain l.nodes l.front ([] ++ x :: rest) := hchain
      obtain ⟨nodes', hloop, hchain'⟩ := removeLoop_eq hfirst (Nat.le_of_succ_le hfuel) hrest hx
      refine ⟨⟨l.size - 1, l.front, nodes', l.mallocs⟩, ?_, by simp [h.size, hsize], hcounted,
        hbounded, _, hchain', ?_⟩
      · simp [LinkedList.removeFrom, assert, hnonempty, hcontains, hfront,
          Nodes.deref_of_some hx, hbears, hloop]
      · simp [hnodes, ← hdata, hbears, List.eraseP_map, Function.comp_def, Bears]

theorem of_insertAtFront (h : l.Holds c) (hok : l.insertAtFront x item = .ok l') :
    l'.Holds (Threads.insertAtFront c x) := by
  obtain ⟨nodes, hmalloc, -⟩ := bind_eq_ok.mp hok
  obtain ⟨l'', hok', hholds, -⟩ := h.insertAtFront (Nodes.malloc_ok hmalloc) x
  rw [hok] at hok'
  cases hok'
  exact hholds

/-- No other node is ever taken out. -/
theorem of_removeFrom (h : l.Holds c) (hok : l.removeFrom tcbs target = .ok (p, l')) :
    ∃ c', Threads.removeFrom tcbs c target = .ok (p, c') ∧ l'.Holds c' := by
  have hnonempty := hok
  simp only [LinkedList.removeFrom, assert_bind_eq_ok, h.contains, ok_bind] at hnonempty
  obtain ⟨hsize, hfound, -⟩ := hnonempty
  obtain ⟨x, hx⟩ := Option.isSome_iff_exists.mp hfound
  have hne : c.size ≠ 0 := by simpa [h.isEmptyList_eq, Threads.isEmptyList] using hsize
  have hrem := removeFrom_eq hne hx
  obtain ⟨l'', hok', hholds⟩ := h.removeFrom hrem
  rw [hok] at hok'
  cases hok'
  exact ⟨_, hrem, hholds⟩

end Holds

end LinkedList

end UserLevelOs.Threads
