import UserLevelOs.Threads.Lists
import Mathlib.Data.List.Nodup

/-!
# The list of mutexes

The mutexes that exist are the nodes of a linked list.  Unlike the lists of threads it is
looked at and changed statement by statement while other threads may run, so the nodes lie in
a heap and are linked by pointers.

## Main definitions

* `MutexNode`, `Mutexes` — the nodes, and the `front` of the list.
* `fetchFromMutexes`, `isHeldBy`.
* `Linked` — the list that `front` leads to.

## Main statements

* `fetchFromMutexes_ok`, `isHeldBy_ok`.
* `Linked.cons_fresh`, `Linked.relink` — insertion and removal of a node.
-/

namespace UserLevelOs.Threads

open UserLevelOs.Lib

abbrev NodePtr := ℕ

/-- `mutex_node`. -/
structure MutexNode where
  lockNum : WorkerMutex
  holderTid : Worker
  next : Option NodePtr
  deriving DecidableEq, Repr

/-- `mutex_list`, with the nodes that are allocated. -/
structure Mutexes where
  front : Option NodePtr
  nodes : NodePtr → Option MutexNode
  /-- How many nodes were ever allocated. -/
  mallocs : ℕ

namespace Mutexes

/-- Reading a node. -/
def deref (m : Mutexes) : Option NodePtr → Except Fault MutexNode
  | none => .error .wild
  | some n =>
    match m.nodes n with
    | none => .error .wild
    | some node => .ok node

def setNode (m : Mutexes) (n : NodePtr) (node : MutexNode) : Mutexes :=
  { m with nodes := Function.update m.nodes n (some node) }

end Mutexes

/-- The loop of `fetch_from_mutexes`.  One that passes more nodes than were ever allocated is
going round in a circle. -/
def fetchLoop (m : Mutexes) (target : WorkerMutex) : ℕ → Option NodePtr →
    Except Fault (Option NodePtr)
  | _, none => .ok none
  | 0, some _ => .error .endless
  | fuel + 1, some ptr => do
    let node ← m.deref (some ptr)
    if node.lockNum = target then return some ptr else fetchLoop m target fuel node.next

def fetchFromMutexes (m : Mutexes) (target : WorkerMutex) : Except Fault (Option NodePtr) :=
  fetchLoop m target m.mallocs m.front

def isHeldBy (m : Mutexes) (thisTid : Worker) (target : WorkerMutex) : Except Fault Bool := do
  match ← fetchFromMutexes m target with
  | none => .error (.assertion .mutexExists)
  | some n =>
    let node ← m.deref (some n)
    return node.holderTid == thisTid

section

variable {m : Mutexes} {target : WorkerMutex} {tid : Worker} {n : NodePtr} {node : MutexNode}

theorem Mutexes.deref_ok (h : m.deref (some n) = .ok node) : m.nodes n = some node := by
  unfold Mutexes.deref at h
  split at h
  · cases h
  · next heq =>
    split at h
    · cases h
    · next hnode =>
      cases heq
      cases h
      exact hnode

/-- What the loop finds has the number. -/
theorem fetchLoop_ok {fuel : ℕ} {p : Option NodePtr}
    (h : fetchLoop m target fuel p = .ok (some n)) :
    ∃ node, m.nodes n = some node ∧ node.lockNum = target := by
  induction fuel generalizing p with
  | zero => cases p <;> simp [fetchLoop] at h
  | succ fuel ih =>
    cases p with
    | none => simp [fetchLoop] at h
    | some ptr =>
      unfold fetchLoop at h
      obtain ⟨node, hderef, h⟩ := bind_eq_ok.mp h
      split at h
      · next hnum =>
        cases h
        exact ⟨node, Mutexes.deref_ok hderef, hnum⟩
      · exact ih h

theorem fetchFromMutexes_ok (h : fetchFromMutexes m target = .ok (some n)) :
    ∃ node, m.nodes n = some node ∧ node.lockNum = target :=
  fetchLoop_ok h

theorem isHeldBy_ok {b : Bool} (h : isHeldBy m tid target = .ok b) :
    ∃ n node, fetchFromMutexes m target = .ok (some n) ∧ m.nodes n = some node ∧
      node.lockNum = target ∧ (b = true ↔ node.holderTid = tid) := by
  obtain ⟨found, hfetch, h⟩ := bind_eq_ok.mp h
  cases found with
  | none => cases h
  | some n =>
    obtain ⟨node, hderef, h⟩ := bind_eq_ok.mp h
    cases h
    have hnode := Mutexes.deref_ok hderef
    obtain ⟨node', hnode', hnum⟩ := fetchFromMutexes_ok hfetch
    rw [hnode] at hnode'
    cases hnode'
    exact ⟨n, node, hfetch, hnode, hnum, by simp⟩

end

/-! ## The list in the heap -/

/-- From `p` on, the nodes are those of the list. -/
inductive Linked (nodes : NodePtr → Option MutexNode) : Option NodePtr → List NodePtr → Prop
  | nil : Linked nodes none []
  | cons {n : NodePtr} {node : MutexNode} {l : List NodePtr} (h : nodes n = some node)
      (hnext : Linked nodes node.next l) : Linked nodes (some n) (n :: l)

namespace Linked

variable {nodes nodes' : NodePtr → Option MutexNode} {p : Option NodePtr} {l l' : List NodePtr}
  {n q : NodePtr} {node : MutexNode}

theorem unique (h : Linked nodes p l) (h' : Linked nodes p l') : l = l' := by
  induction h generalizing l' with
  | nil =>
    cases h'
    rfl
  | cons hn _ ih =>
    cases h' with
    | cons hn' hnext' =>
      rw [hn] at hn'
      cases hn'
      rw [ih hnext']

theorem head (h : Linked nodes p l) : p = l.head? := by
  cases h <;> rfl

theorem allocated (h : Linked nodes p l) : ∀ n ∈ l, ∃ node, nodes n = some node := by
  induction h with
  | nil => simp
  | cons hn _ ih => simpa using ⟨⟨_, hn⟩, ih⟩

/-- Only the nodes of the list and where they lead matter. -/
theorem congr (h : Linked nodes p l)
    (hsame : ∀ n ∈ l, (nodes' n).map MutexNode.next = (nodes n).map MutexNode.next) :
    Linked nodes' p l := by
  induction h with
  | nil => exact .nil
  | @cons n node l hn _ ih =>
    have hhere := hsame n (by simp)
    rw [hn, Option.map_some] at hhere
    obtain ⟨node', hn', hnext⟩ := Option.map_eq_some_iff.mp hhere
    exact .cons hn' (hnext ▸ ih fun k hk => hsame k (by simp [hk]))

/-- A node put in front. -/
theorem cons_fresh (h : Linked nodes p l) (hfresh : nodes n = none) (hnext : node.next = p) :
    Linked (Function.update nodes n (some node)) (some n) (n :: l) := by
  refine .cons (by simp) (hnext ▸ h.congr fun k hk => ?_)
  obtain ⟨node', hk'⟩ := h.allocated k hk
  have hne : k ≠ n := fun heq => by simp [← heq, hk'] at hfresh
  simp [hne]

theorem split {l₁ l₂ : List NodePtr} (h : Linked nodes p (l₁ ++ n :: l₂)) :
    ∃ node, nodes n = some node ∧ Linked nodes node.next l₂ := by
  induction l₁ generalizing p with
  | nil =>
    cases h with
    | cons hn hnext => exact ⟨_, hn, hnext⟩
  | cons m l₁ ih =>
    cases h with
    | cons _ hnext => exact ih hnext

theorem behind {l₁ l₂ : List NodePtr} (h : Linked nodes p (l₁ ++ n :: l₂))
    (hn : nodes n = some node) : Linked nodes node.next l₂ := by
  obtain ⟨node', hn', hnext⟩ := h.split
  rw [hn] at hn'
  cases hn'
  exact hnext

theorem tail (h : Linked nodes p (n :: l)) (hn : nodes n = some node) : Linked nodes node.next l :=
  behind (show Linked nodes p ([] ++ n :: l) from h) hn

theorem nodup (h : Linked nodes p l) : l.Nodup := by
  induction l generalizing p with
  | nil => exact .nil
  | cons n l ih =>
    cases h with
    | cons hn hnext =>
      refine List.nodup_cons.mpr ⟨fun hmem => ?_, ih hnext⟩
      -- a node met again would have to lead to a list longer than the one it leads to
      obtain ⟨l₁, l₂, rfl⟩ := List.append_of_mem hmem
      have hrest := hnext.behind hn
      have := congrArg List.length (hnext.unique hrest)
      simp at this
      omega

/-- The node after `q` is taken out. -/
theorem relink {l₁ l₂ : List NodePtr} {before : MutexNode} (h : Linked nodes p (l₁ ++ q :: n :: l₂))
    (hn : nodes n = some node) :
    Linked (Function.update nodes q (some { before with next := node.next })) p (l₁ ++ q :: l₂) := by
  have hnodup := h.nodup
  induction l₁ generalizing p with
  | nil =>
    cases h with
    | cons hq' hnext =>
      have hrest := hnext.tail hn
      refine .cons (Function.update_self _ _ _) (hrest.congr fun k hk => ?_)
      have hne : k ≠ q := fun heq => by simp [← heq, hk] at hnodup
      simp [hne]
  | cons m l₁ ih =>
    cases h with
    | cons hm hnext =>
      obtain ⟨hnot, hrest⟩ := List.nodup_cons.mp hnodup
      have hne : m ≠ q := fun heq => by simp [heq] at hnot
      exact .cons (by simpa [hne] using hm) (ih hnext hrest)

/-- What the loop finds is on the list. -/
theorem fetchLoop_mem {m : Mutexes} {target : WorkerMutex} {fuel : ℕ} (h : Linked m.nodes p l)
    (hok : fetchLoop m target fuel p = .ok (some n)) : n ∈ l := by
  induction fuel generalizing p l with
  | zero => cases p <;> simp [fetchLoop] at hok
  | succ fuel ih =>
    cases h with
    | nil => simp [fetchLoop] at hok
    | cons hnode hnext =>
      unfold fetchLoop at hok
      obtain ⟨node, hderef, hok⟩ := bind_eq_ok.mp hok
      have heq := Mutexes.deref_ok hderef
      rw [hnode] at heq
      cases heq
      split at hok
      · cases hok
        exact List.mem_cons_self
      · exact List.mem_cons_of_mem _ (ih hnext hok)

end Linked

end UserLevelOs.Threads
