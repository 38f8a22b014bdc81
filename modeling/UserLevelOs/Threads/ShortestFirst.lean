import UserLevelOs.Threads.Scheduler
import Mathlib.Algebra.Order.Group.Multiset

/-!
# A round of `sched_psjf`

The threads that have arrived and the running thread go into `tcbs`, each at its place in the
order by usage, and the first that is not blocked comes out.

## Main definitions

* `Distinct` — no two threads of a list have one number.
* `Inserts` — threads have gone into a list by usage.
* `Machine.PsjfRound` — what happens in a round.

## Main statements

* `schedPsjf_ok` — the steps of a round.
* `PsjfRound.first_le` — the shortest job goes first.
-/

namespace UserLevelOs.Threads

open UserLevelOs.Lib

/-- No two threads have one number. -/
def Distinct (tcbAt : Tcbs) (ps : List TcbPtr) : Prop :=
  ps.Pairwise fun p q => (tcbAt p).threadId ≠ (tcbAt q).threadId

namespace Distinct

variable {tcbAt : Tcbs} {ps qs : List TcbPtr} {p x : TcbPtr}

theorem perm (h : Distinct tcbAt ps) (hperm : ps.Perm qs) : Distinct tcbAt qs :=
  hperm.pairwise h fun hne => hne.symm

theorem sublist (h : Distinct tcbAt ps) (hsub : qs.Sublist ps) : Distinct tcbAt qs :=
  List.Pairwise.sublist hsub h

theorem cons (h : Distinct tcbAt ps) (hx : ∀ p ∈ ps, (tcbAt p).threadId ≠ (tcbAt x).threadId) :
    Distinct tcbAt (x :: ps) :=
  List.pairwise_cons.mpr ⟨fun p hp => (hx p hp).symm, h⟩

/-- A number leads back to its thread. -/
theorem find?_eq (h : Distinct tcbAt ps) (hp : p ∈ ps) :
    ps.find? (fun q => (tcbAt q).threadId == (tcbAt p).threadId) = some p := by
  induction ps with
  | nil => simp at hp
  | cons q ps ih =>
    obtain ⟨hq, hps⟩ := List.pairwise_cons.mp h
    rcases List.mem_cons.mp hp with rfl | hp
    · simp
    · simp [hq p hp, ih hps hp]

theorem eraseP_eq (h : Distinct tcbAt ps) (hp : p ∈ ps) :
    (ps.eraseP fun q => (tcbAt q).threadId == (tcbAt p).threadId) = ps.erase p := by
  induction ps with
  | nil => simp at hp
  | cons q ps ih =>
    obtain ⟨hq, hps⟩ := List.pairwise_cons.mp h
    rcases List.mem_cons.mp hp with rfl | hp
    · simp
    · have hne : q ≠ p := fun heq => hq p hp (by rw [heq])
      simp [hq p hp, hne, ih hps hp]

end Distinct

/-! ## Insertions -/

/-- The threads `xs` have gone into the list by usage. -/
structure Inserts (tcbAt : Tcbs) (xs : Multiset TcbPtr) (l l' : ThreadList) : Prop where
  le : (l'.nodes : Multiset TcbPtr) ≤ xs + l.nodes
  counted : Counted l.size l.nodes → Counted l'.size l'.nodes
  exact : Counted l.size l.nodes → xs.card + l.nodes.length ≤ 65536 →
    (l'.nodes : Multiset TcbPtr) = xs + l.nodes
  distinct : Distinct tcbAt l.nodes → Distinct tcbAt l'.nodes
  sorted : l.nodes.Pairwise (GoesBefore tcbAt) → l'.nodes.Pairwise (GoesBefore tcbAt)

namespace Inserts

variable {tcbAt : Tcbs} {xs ys : Multiset TcbPtr} {l l' l'' : ThreadList} {x : TcbPtr}

theorem refl (tcbAt : Tcbs) (l : ThreadList) : Inserts tcbAt 0 l l where
  le := by simp
  counted h := h
  exact _ _ := by simp
  distinct h := h
  sorted h := h

theorem trans (h : Inserts tcbAt xs l l') (h' : Inserts tcbAt ys l' l'') :
    Inserts tcbAt (xs + ys) l l'' where
  le := calc
    (l''.nodes : Multiset TcbPtr) ≤ ys + l'.nodes := h'.le
    _ ≤ ys + (xs + l.nodes) := add_le_add_right h.le ys
    _ = xs + ys + l.nodes := by rw [← add_assoc, add_comm ys xs]
  counted hc := h'.counted (h.counted hc)
  exact hc hroom := by
    rw [Multiset.card_add] at hroom
    have hl' := h.exact hc (by omega)
    have hlen : l'.nodes.length = xs.card + l.nodes.length := by
      simpa using congrArg Multiset.card hl'
    rw [h'.exact (h.counted hc) (by omega), hl', ← add_assoc, add_comm ys xs]
  distinct hd := h'.distinct (h.distinct hd)
  sorted hs := h'.sorted (h.sorted hs)

theorem single (h : insertByUsage tcbAt l x = .ok l') : Inserts tcbAt {x} l l' := by
  obtain ⟨rfl, hfresh, hsorted⟩ := insertByUsage_ok h
  refine ⟨?_, counted_linkByUsage, fun hc hroom => ?_, fun hd => ?_, fun _ => hsorted⟩
  · simpa using linkByUsage_le
  · have hlt : l.nodes.length < 65536 := by simp at hroom; omega
    rw [linkByUsage_nodes hc hlt]
    simpa using List.perm_orderedInsert (GoesBefore tcbAt) x l.nodes
  · unfold linkByUsage
    dsimp only
    split
    · simp [Distinct]
    · exact (hd.cons hfresh).perm (List.perm_orderedInsert _ x l.nodes).symm

end Inserts

/-! ## The loop over `q_arrival` -/

namespace Machine

variable {s s' : Machine} {p : TcbPtr}

/-- The threads `xs` have left the queue. -/
structure Leaves (xs : Multiset TcbPtr) (q q' : Queue) : Prop where
  le : xs + q'.nodes ≤ (q.nodes : Multiset TcbPtr)
  counted : Counted q.size q.nodes → Counted q'.size q'.nodes
  exact : Counted q.size q.nodes → q.nodes.length < 65536 →
    xs + q'.nodes = (q.nodes : Multiset TcbPtr)

namespace Leaves

variable {xs ys : Multiset TcbPtr} {q q' q'' : Queue}

theorem refl (q : Queue) : Leaves 0 q q where
  le := by simp
  counted h := h
  exact _ _ := by simp

theorem trans (h : Leaves xs q q') (h' : Leaves ys q' q'') : Leaves (xs + ys) q q'' where
  le := calc
    xs + ys + q''.nodes = xs + (ys + q''.nodes) := add_assoc _ _ _
    _ ≤ xs + q'.nodes := add_le_add_right h'.le xs
    _ ≤ q.nodes := h.le
  counted hc := h'.counted (h.counted hc)
  exact hc hlt := by
    have hq := h.exact hc hlt
    have hlen : xs.card + q'.nodes.length = q.nodes.length := by
      simpa using congrArg Multiset.card hq
    rw [add_assoc, h'.exact (h.counted hc) (by omega), hq]

theorem single (h : dequeue q = .ok (p, q')) : Leaves {p} q q' where
  le := by simpa using dequeue_le h
  counted hc := counted_dequeue hc h
  exact hc hlt := by
    rw [dequeue_nodes hc hlt h]
    simp

/-- The loop that takes threads out ends when the size is zero. -/
theorem empty (h : Leaves xs q q') (hc : Counted q.size q.nodes) (hlt : q.nodes.length < 65536)
    (hempty : isEmpty q' = true) : q'.nodes = [] ∧ xs = q.nodes := by
  have hq := h.exact hc hlt
  have hlen : xs.card + q'.nodes.length = q.nodes.length := by
    simpa using congrArg Multiset.card hq
  have hnil : q'.nodes = [] :=
    ((h.counted hc).eq_zero (by omega)).mp (by simpa [isEmpty] using hempty)
  exact ⟨hnil, by simpa [hnil] using hq⟩

end Leaves

theorem psjfArrivals_ok {fuel : ℕ} (h : psjfArrivals fuel s = .ok s') :
    ∃ xs q l, s' = { s with qArrival := q, tcbs := l } ∧ Leaves xs s.qArrival q ∧
      isEmpty q = true ∧ Inserts s.tcbAt xs s.tcbs l := by
  induction fuel generalizing s with
  | zero => cases h
  | succ fuel ih =>
    unfold psjfArrivals at h
    split at h
    · next hempty =>
      cases h
      exact ⟨0, _, _, rfl, .refl _, hempty, .refl _ _⟩
    · obtain ⟨⟨x, q₁⟩, hdeq, h⟩ := bind_eq_ok.mp h
      obtain ⟨l₁, hins, h⟩ := bind_eq_ok.mp h
      obtain ⟨xs, q, l, rfl, hleaves, hempty, hinserts⟩ := ih h
      exact ⟨{x} + xs, q, l, rfl, (Leaves.single hdeq).trans hleaves, hempty,
        (Inserts.single hins).trans hinserts⟩

theorem insertRunning_ok (h : s.insertRunning = .ok s') :
    ∃ l, s' = { s with tcbs := l } ∧ Inserts s.tcbAt s.running.toList s.tcbs l := by
  unfold insertRunning at h
  split at h
  · next hrun =>
    cases h
    exact ⟨_, rfl, by simpa [hrun] using Inserts.refl _ _⟩
  · next p hrun =>
    obtain ⟨l, hins, h⟩ := bind_eq_ok.mp h
    cases h
    exact ⟨l, rfl, by simpa [hrun] using Inserts.single hins⟩

/-! ## The round -/

/-- A round up to the search. -/
def psjfListed (s : Machine) : Except Fault Machine :=
  psjfArrivals (s.qArrival.size.toNat + 1) s >>= insertRunning

/-- The threads `xs` have arrived, `l` is `tcbs` before the dispatched thread `next` is taken out,
`first` the one that was looked for. -/
structure PsjfRound (s : Machine) (xs : Multiset TcbPtr) (q : Queue) (l l' : ThreadList)
    (first next : TcbPtr) : Prop where
  leaves : Leaves xs s.qArrival q
  emptied : isEmpty q = true
  inserts : Inserts s.tcbAt (xs + s.running.toList) s.tcbs l
  listed : s.psjfListed = .ok { s with qArrival := q, tcbs := l }
  found : l.nodes.find? (fun p => !isBlocked (s.tcbAt p)) = some first
  removed : removeFrom s.tcbAt l (s.tcbAt first).threadId = .ok (next, l')

theorem schedPsjf_ok (h : s.schedPsjf = .ok s') :
    ∃ xs q l l' first next timer, PsjfRound s xs q l l' first next ∧
      s' = { s with
        qArrival := q
        tcbs := l'
        running := some next
        timer
        cpu := .thread
        schedulerEntered := true } := by
  obtain ⟨s₁, h₁, h⟩ := bind_eq_ok.mp h
  obtain ⟨s₂, h₂, h⟩ := bind_eq_ok.mp h
  obtain ⟨first, hfirst, h⟩ := bind_eq_ok.mp h
  obtain ⟨⟨next, l'⟩, hrem, h⟩ := bind_eq_ok.mp h
  have hlisted : s.psjfListed = .ok s₂ := bind_eq_ok.mpr ⟨s₁, h₁, h₂⟩
  obtain ⟨xs, q, l₁, rfl, hleaves, hempty, hinserts₁⟩ := psjfArrivals_ok h₁
  obtain ⟨l, rfl, hinserts₂⟩ := insertRunning_ok h₂
  cases h
  exact ⟨xs, q, l, l', first, next, _,
    ⟨hleaves, hempty, hinserts₁.trans hinserts₂, hlisted, findFirstUnblockedThread_ok hfirst, hrem⟩, rfl⟩

/-- A round in which a new thread goes before the one that is there. -/
theorem schedPsjf_eq {x y : TcbPtr} (hrun : s.running = none) (hq : s.qArrival = ⟨1, [x]⟩)
    (hl : s.tcbs = ⟨1, [y]⟩) (hid : (s.tcbAt y).threadId ≠ (s.tcbAt x).threadId)
    (hbefore : GoesBefore s.tcbAt x y) (hfree : isBlocked (s.tcbAt x) = false) :
    s.schedPsjf = .ok ({ s with qArrival := ⟨0, []⟩ }.dispatch x) := by
  have hinsert : insertByUsage s.tcbAt ⟨1, [y]⟩ x = .ok ⟨2, [x, y]⟩ := by
    rw [insertByUsage_eq (by simpa using hid) (List.pairwise_singleton _ _)]
    simp [linkByUsage, isEmptyList, hbefore]
  have hfirst : findFirstUnblockedThread s.tcbAt ⟨2, [x, y]⟩ = .ok x := by
    simp [findFirstUnblockedThread, hfree]
  have hremove : removeFrom s.tcbAt ⟨2, [x, y]⟩ (s.tcbAt x).threadId = .ok (x, ⟨1, [y]⟩) := by
    rw [removeFrom_eq (p := x) (show (2 : UInt16) ≠ 0 by decide) (by simp [contains])]
    simp
  have harrivals : psjfArrivals 2 s = .ok { s with qArrival := ⟨0, []⟩, tcbs := ⟨2, [x, y]⟩ } := by
    simp [psjfArrivals, hq, hl, isEmpty, dequeue, assert, hinsert]
  have hfuel : s.qArrival.size.toNat + 1 = 2 := by
    rw [hq]
    rfl
  unfold schedPsjf
  rw [hfuel]
  simp only [harrivals, ok_bind, insertRunning, hrun, hfirst, hremove, ← hl]
  rfl

namespace PsjfRound

variable {xs : Multiset TcbPtr} {q : Queue} {l l' : ThreadList} {first next : TcbPtr}

theorem perm (h : PsjfRound s xs q l l' first next) :
    (next ::ₘ l'.nodes : Multiset TcbPtr) = l.nodes :=
  removeFrom_perm h.removed

/-- The thread that is dispatched is the one that was found. -/
theorem next_eq (h : PsjfRound s xs q l l' first next) (hd : Distinct s.tcbAt s.tcbs.nodes) :
    next = first ∧ l'.nodes = l.nodes.erase first := by
  have hmem : first ∈ l.nodes := List.mem_of_find?_eq_some h.found
  have hl := h.inserts.distinct hd
  obtain ⟨hnext, -, hnodes⟩ := removeFrom_ok h.removed
  have hfound := hl.find?_eq hmem
  rw [contains, hfound] at hnext
  exact ⟨(Option.some.inj hnext).symm, by rw [hnodes, hl.eraseP_eq hmem]⟩

theorem not_blocked (h : PsjfRound s xs q l l' first next) :
    isBlocked (s.tcbAt first) = false := by
  simpa using List.find?_some h.found

/-- Of the threads that are not blocked none goes before the one that is dispatched. -/
theorem first_le (h : PsjfRound s xs q l l' first next)
    (hs : s.tcbs.nodes.Pairwise (GoesBefore s.tcbAt)) {p : TcbPtr} (hp : p ∈ l.nodes)
    (hfree : isBlocked (s.tcbAt p) = false) : (s.tcbAt first).usage ≤ (s.tcbAt p).usage := by
  obtain ⟨-, as, bs, hsplit, hnone⟩ := List.find?_eq_some_iff_append.mp h.found
  have hsorted := h.inserts.sorted hs
  rw [hsplit] at hsorted hp
  rcases List.mem_append.mp hp with hp | hp
  · have hblocked := hnone p hp
    simp [hfree] at hblocked
  · rcases List.mem_cons.mp hp with rfl | hp
    · exact le_rfl
    · have hbefore := (List.pairwise_cons.mp (List.pairwise_append.mp hsorted).2.1).1 p hp
      exact compareUsage_iff.mp hbefore

end PsjfRound

end Machine

end UserLevelOs.Threads
