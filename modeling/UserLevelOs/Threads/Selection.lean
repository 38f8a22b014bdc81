import UserLevelOs.Lib.Levels
import UserLevelOs.Threads.Scheduler

/-!
# The selection of `sched_mlfq`

A level is scanned by rotating its queue: a blocked thread goes from the front to the back, and
the scan ends at the first thread that is not blocked or after as many turns as the queue has
threads.

## Main definitions

* `Machine.Picks` — what the selection does when it finds a thread.

## Main statements

* `rotate_blocked`, `rotate_free`, `rotate_all`.
* `selectFrom_spec`.
-/

namespace UserLevelOs.Threads

open UserLevelOs.Lib

namespace Machine

variable {tcbAt : Tcbs} {q : Queue} {p x : TcbPtr} {ahead behind rest : List TcbPtr} {s s' : Machine}
  {level : ℕ}

/-- The size of the queue tells its length. -/
def Exact (q : Queue) : Prop := Counted q.size q.nodes ∧ q.nodes.length < 65536

/-! ## One level -/

/-- A thread that is taken from the front and put back goes to the back. -/
theorem enqueue_dequeued (h : Exact q) (hq : q.nodes = x :: rest) :
    enqueue { size := q.size - 1, nodes := rest } x = { size := q.size, nodes := rest ++ [x] } := by
  have hcounted : Counted (q.size - 1) rest := h.1.sub_one (by simp [hq])
  have hlt : rest.length < 65536 := by
    have := h.2
    simp only [hq, List.length_cons] at this
    omega
  rw [Queue.mk.injEq]
  exact ⟨by simp [enqueue], enqueue_nodes hcounted hlt⟩

/-- The scan passes blocked threads. -/
theorem rotate_blocked {k : ℕ} (h : Exact q) (hq : q.nodes = ahead ++ behind)
    (hblocked : ∀ y ∈ ahead, isBlocked (tcbAt y) = true) :
    rotate tcbAt (ahead.length + k) q =
      rotate tcbAt k { size := q.size, nodes := behind ++ ahead } := by
  induction ahead generalizing q behind with
  | nil =>
    have hsame : q = { size := q.size, nodes := behind } := by
      rw [← show q.nodes = behind from hq]
    rw [List.length_nil, Nat.zero_add, List.append_nil, ← hsame]
  | cons x ahead ih =>
    have hturn : Exact { size := q.size, nodes := ahead ++ (behind ++ [x]) } := by
      have hlen : (ahead ++ (behind ++ [x])).length = q.nodes.length := by
        simp [hq]
        omega
      exact ⟨by simpa [Counted, hlen] using h.1, by simpa [hlen] using h.2⟩
    have hdeq := dequeue_cons h.1 h.2 (by simpa using hq)
    have hback := enqueue_dequeued h (by simpa using hq)
    calc
      _ = rotate tcbAt (ahead.length + k + 1) q := by
        simp only [List.length_cons]
        congr 1
        omega
      _ = rotate tcbAt (ahead.length + k) { size := q.size, nodes := ahead ++ (behind ++ [x]) } := by
        rw [rotate, hdeq]
        simp [bind, Except.bind, hblocked x (by simp), hback]
      _ = rotate tcbAt k { size := q.size, nodes := (behind ++ [x]) ++ ahead } :=
        ih hturn rfl fun y hy => hblocked y (by simp [hy])
      _ = _ := by simp

/-- The scan ends at a thread that is not blocked. -/
theorem rotate_free (h : Exact q) (hq : q.nodes = ahead ++ p :: behind)
    (hblocked : ∀ y ∈ ahead, isBlocked (tcbAt y) = true) (hfree : isBlocked (tcbAt p) = false) :
    rotate tcbAt q.nodes.length q =
      .ok (some p, { size := q.size - 1, nodes := behind ++ ahead }) := by
  have hturned : Exact { size := q.size, nodes := p :: (behind ++ ahead) } := by
    have hlen : (p :: (behind ++ ahead)).length = q.nodes.length := by
      simp [hq]
      omega
    exact ⟨by simpa [Counted, hlen] using h.1, by simpa [hlen] using h.2⟩
  calc
    _ = rotate tcbAt (ahead.length + (behind.length + 1)) q := by simp [hq]
    _ = rotate tcbAt (behind.length + 1) { size := q.size, nodes := p :: (behind ++ ahead) } :=
      rotate_blocked h hq hblocked
    _ = _ := by
      rw [rotate, dequeue_cons hturned.1 hturned.2 rfl]
      simp [bind, Except.bind, hfree, pure, Except.pure]

/-- A level without such a thread is turned once round. -/
theorem rotate_all (h : Exact q) (hblocked : ∀ y ∈ q.nodes, isBlocked (tcbAt y) = true) :
    rotate tcbAt q.nodes.length q = .ok (none, q) := by
  have hturn := rotate_blocked (k := 0) h (List.append_nil q.nodes).symm hblocked
  simpa [rotate] using hturn

/-! ## All levels -/

/-- The selection takes the thread `p` out of a level: the levels before it have no thread that
is not blocked, and the blocked threads ahead of `p` are now behind the others. -/
structure Picks (s s' : Machine) (level : ℕ) (p : TcbPtr) : Prop where
  running : s'.running = some p
  free : isBlocked (s.tcbAt p) = false
  higher : ∀ k < level, ∀ y ∈ (s.allQueue k).nodes, isBlocked (s.tcbAt y) = true
  first : ∃ ahead behind, (s.allQueue level).nodes = ahead ++ p :: behind ∧
    (∀ y ∈ ahead, isBlocked (s.tcbAt y) = true) ∧
    s'.allQueue level = { size := (s.allQueue level).size - 1, nodes := behind ++ ahead }
  others : ∀ k ≠ level, s'.allQueue k = s.allQueue k
  frame : s' = { s with allQueue := s'.allQueue, running := s'.running }

/-- From a level on, the selection skips levels whose threads are all blocked. -/
theorem selectFrom_cons (levels : List ℕ) (hexact : Exact (s.allQueue level)) :
    ((∀ y ∈ (s.allQueue level).nodes, isBlocked (s.tcbAt y) = true) ∧
      selectFrom (level :: levels) s = selectFrom levels s) ∨
    ∃ ahead p behind, (s.allQueue level).nodes = ahead ++ p :: behind ∧
      (∀ y ∈ ahead, isBlocked (s.tcbAt y) = true) ∧ isBlocked (s.tcbAt p) = false ∧
      selectFrom (level :: levels) s = .ok { s.setLevel level
        { size := (s.allQueue level).size - 1, nodes := behind ++ ahead } with running := some p } := by
  have hsize := hexact.1.toNat hexact.2
  have hfirst := Levels.exists_first (fun y => !isBlocked (s.tcbAt y)) (s.allQueue level).nodes
  simp only [Bool.not_eq_false', Bool.not_eq_true'] at hfirst
  rcases hfirst with hall | ⟨ahead, p, behind, hsplit, hblocked, hfree⟩
  · have hsame : s.setLevel level (s.allQueue level) = s := by simp [setLevel]
    refine .inl ⟨hall, ?_⟩
    rw [selectFrom, hsize, rotate_all hexact hall]
    simp [bind, Except.bind, hsame]
  · refine .inr ⟨ahead, p, behind, hsplit, hblocked, hfree, ?_⟩
    rw [selectFrom, hsize, rotate_free hexact hsplit hblocked hfree]
    simp [bind, Except.bind, pure, Except.pure]

/-- The same for a number of levels one after another, when those before them are all blocked. -/
theorem selectFrom_range' {n m : ℕ} (hexact : ∀ level < n + m, Exact (s.allQueue level))
    (hhigher : ∀ k < n, ∀ y ∈ (s.allQueue k).nodes, isBlocked (s.tcbAt y) = true) :
    ((∀ k < n + m, ∀ y ∈ (s.allQueue k).nodes, isBlocked (s.tcbAt y) = true) ∧
      selectFrom (List.range' n m) s = .ok s) ∨
    ∃ s' level p, level < n + m ∧ Picks s s' level p ∧
      selectFrom (List.range' n m) s = .ok s' := by
  induction m generalizing n with
  | zero => exact .inl ⟨by simpa using hhigher, rfl⟩
  | succ m ih =>
    rw [List.range'_succ]
    rcases selectFrom_cons (List.range' (n + 1) m) (hexact n (by omega)) with
      ⟨hall, hskip⟩ | ⟨ahead, p, behind, hsplit, hblocked, hfree, hpick⟩
    · have hhigher' : ∀ k < n + 1, ∀ y ∈ (s.allQueue k).nodes, isBlocked (s.tcbAt y) = true :=
        fun k hk => by
          rcases Nat.lt_succ_iff_lt_or_eq.mp hk with hk | rfl
          · exact hhigher k hk
          · exact hall
      rw [hskip, show n + (m + 1) = n + 1 + m by omega]
      exact ih (fun level hlevel => hexact level (by omega)) hhigher'
    · refine .inr ⟨_, n, p, by omega, ?_, hpick⟩
      exact ⟨rfl, hfree, hhigher, ⟨ahead, behind, hsplit, hblocked, by simp⟩,
        fun k hk => by simp [hk], rfl⟩

/-- The selection of `sched_mlfq` takes the first thread that is not blocked of the highest level
that has one, and changes nothing if there is none. -/
theorem selectFrom_spec (hrun : s.running = none)
    (hexact : ∀ level < QUEUE_LEVELS, Exact (s.allQueue level)) :
    ((∃ level < QUEUE_LEVELS, ∃ p ∈ (s.allQueue level).nodes, isBlocked (s.tcbAt p) = false) →
      ∃ s' level p, selectFrom (List.range QUEUE_LEVELS) s = .ok s' ∧ level < QUEUE_LEVELS ∧
        Picks s s' level p) ∧
    ((∀ level < QUEUE_LEVELS, ∀ p ∈ (s.allQueue level).nodes, isBlocked (s.tcbAt p) = true) →
      ∃ s', selectFrom (List.range QUEUE_LEVELS) s = .ok s' ∧ s'.allQueue = s.allQueue ∧
        s'.running = none) := by
  rw [List.range_eq_range']
  have hscan := selectFrom_range' (s := s) (n := 0) (m := QUEUE_LEVELS)
    (fun level hlevel => hexact level (by omega)) (by simp)
  refine ⟨fun ⟨level, hlevel, p, hp, hfree⟩ => ?_, fun hall => ?_⟩
  · rcases hscan with ⟨hblocked, -⟩ | ⟨s', level, p, hlevel, hpicks, hok⟩
    · have := hblocked level (by omega) p hp
      simp [hfree] at this
    · exact ⟨s', level, p, hok, by omega, hpicks⟩
  · rcases hscan with ⟨-, hok⟩ | ⟨s', level, p, hlevel, hpicks, -⟩
    · exact ⟨s, hok, rfl, hrun⟩
    · obtain ⟨ahead, behind, hsplit, -, -⟩ := hpicks.first
      have := hall level (by omega) p (by simp [hsplit])
      simp [hpicks.free] at this

/-- Two levels, the first with a blocked thread only, the second with one ahead of two others. -/
def twoLevels : Machine :=
  let s := initLibrary ⟨0, 0, none⟩
  let blocked : Tcb := { newTcb 2 with joinTid := 1 }
  { (((s.setTcb 1 blocked).setTcb 2 { blocked with threadId := 3 }).setLevel 0
      { size := 1, nodes := [1] }).setLevel 1 { size := 3, nodes := [2, 3, 4] } with
    running := none }

theorem selectFrom_twoLevels :
    ∃ s' level p, selectFrom (List.range QUEUE_LEVELS) twoLevels = .ok s' ∧
      level < QUEUE_LEVELS ∧ Picks twoLevels s' level p := by
  have hexact : ∀ level < QUEUE_LEVELS, Exact (twoLevels.allQueue level) := fun level _ => by
    match level with
    | 0 => exact ⟨rfl, by decide⟩
    | 1 => exact ⟨rfl, by decide⟩
    | level + 2 => exact ⟨rfl, by simp [twoLevels, initLibrary]⟩
  have hfree : ∃ level < QUEUE_LEVELS, ∃ p ∈ (twoLevels.allQueue level).nodes,
      isBlocked (twoLevels.tcbAt p) = false := ⟨1, by decide, 3, by decide, rfl⟩
  exact (selectFrom_spec rfl hexact).1 hfree

end Machine

end UserLevelOs.Threads
