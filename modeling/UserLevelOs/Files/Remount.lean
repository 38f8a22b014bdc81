import UserLevelOs.Files.Superblock

/-!
# Restarts between requests

A schedule is a list of requests with restarts between them.  As long as block 0 starts with
the superblock wherever the process restarts, the answers and the disk in the end are those of
the schedule without the restarts; and for requests that the kernel lets through it does.

## Main definitions

* `Request`, `Answer` — all requests, also those that only look.
* `Step`, `play`, `outcome` — schedules.

## Main statements

* `Fs.Alike.play` — two processes through one schedule.
* `outcome_restarts`.
-/

namespace UserLevelOs.Files

open UserLevelOs.Lib

/-! ## Schedules -/

inductive Request where
  | call (c : Call)
  | getattr (path : List UInt8)
  | readdir (filler : List (List UInt8) → List UInt8 → Bool) (path : List UInt8)

/-- What the caller gets: a value with the bytes read, the bytes of `struct stat`, or a value
with the names handed over. -/
inductive Answer where
  | reply (r : Reply)
  | stat (r : Except ℤ (List UInt8))
  | names (ret : ℤ) (names : List (List UInt8))

/-- `sizeof(struct stat)`. -/
abbrev STAT_BYTES : ℕ := 144

def Request.exec (s : Fs) : Request → Option (Answer × Fs)
  | .call c => (c.exec s).map fun p => (.reply p.1, p.2)
  | .getattr path =>
    some (.stat ((rufsGetattr s path).map fun attr => attr.read Inode.vstat STAT_BYTES), s)
  | .readdir filler path =>
    let result := rufsReaddir s filler path
    some (.names result.1 result.2, s)

inductive Step where
  | request (q : Request)
  | restart

def Step.isRequest : Step → Bool
  | .request _ => true
  | .restart => false

/-- The answers and the state in the end. -/
def play : List Step → Fs → Option (List Answer × Fs)
  | [], s => some ([], s)
  | .request q :: steps, s =>
    (q.exec s).bind fun p => (play steps p.2).map fun r => (p.1 :: r.1, r.2)
  | .restart :: steps, s => play steps (rufsInit (rufsDestroy s))

/-- All that can be seen of a schedule: the answers, and the disk in the end. -/
def outcome (steps : List Step) (s : Fs) : Option (List Answer × Disk) :=
  (play steps s).map fun r => (r.1, r.2.disk)

/-- Block 0 starts with the superblock. -/
def Fs.Intact (s : Fs) : Prop :=
  Bytes.copy (fun _ => 0) 0 (bioRead s.disk 0) 0 Superblock.bytes = s.superblock

/-- Wherever the schedule restarts, the run without restarts has an intact superblock. -/
def IntactAtRestarts : List Step → Fs → Prop
  | [], _ => True
  | .request q :: steps, s => ∀ a s', q.exec s = some (a, s') → IntactAtRestarts steps s'
  | .restart :: steps, s => s.Intact ∧ IntactAtRestarts steps s

/-- Every request is let through, and no allocator returns `-1`. -/
def AllowedAlong : List Step → Fs → Prop
  | [], _ => True
  | .request (.call c) :: steps, s =>
    s.Allows c ∧ ∀ r s', c.exec s = some (r, s') → s'.Granted ∧ AllowedAlong steps s'
  | .request _ :: steps, s => AllowedAlong steps s
  | .restart :: steps, s => AllowedAlong steps s

section Schedules

variable {sb : Bytes} {s t : Fs} {steps : List Step}

theorem Fs.Alike.request (h : Alike sb 0 s t) (q : Request) :
    Lockstep (Alike sb 0) (q.exec s) (q.exec t) := by
  cases q with
  | call c => exact (h.exec c).map
  | getattr path =>
    rw [Request.exec, Request.exec, h.rufsGetattr_eq]
    exact .done h
  | readdir filler path =>
    rw [Request.exec, Request.exec, h.rufsReaddir_eq]
    exact .done h

/-- A new process on a disk that starts with the superblock. -/
theorem Fs.Alike.restart (h : Alike sb 0 s t) (hintact : t.Intact) :
    Alike sb 0 (rufsInit (rufsDestroy s)) t where
  disk := h.disk
  left := by
    rw [Intact, h.right.1, ← h.disk] at hintact
    exact ⟨hintact, rfl⟩
  right := h.right

/-- The run with restarts and the run without go in lockstep. -/
theorem Fs.Alike.play (h : Alike sb 0 s t) (hintact : IntactAtRestarts steps t) :
    Lockstep (Alike sb 0) (play steps s) (play (steps.filter Step.isRequest) t) := by
  induction steps generalizing s t with
  | nil => exact .done h
  | cons step steps ih =>
    cases step with
    | restart => exact ih (h.restart hintact.1) hintact.2
    | request q =>
      rw [List.filter_cons_of_pos rfl, Files.play, Files.play]
      have hq := h.request q
      obtain ⟨x, hx⟩ : ∃ x, q.exec s = x := ⟨_, rfl⟩
      obtain ⟨y, hy⟩ : ∃ y, q.exec t = y := ⟨_, rfl⟩
      rw [hx, hy] at hq
      rw [hx, hy]
      cases hq with
      | failed => exact .failed
      | @done a s' t' h => exact (ih h (hintact a t' hy)).map

theorem Fs.Alike.outcome_eq (h : Alike sb 0 s t) (hintact : IntactAtRestarts steps t) :
    outcome steps s = outcome (steps.filter Step.isRequest) t :=
  (h.play hintact).map_eq fun _ _ h => h.disk

theorem initSuperblock_of_le {x : ℕ} (hx : 24 ≤ x) : initSuperblock x = 0 := by
  have hset (f : Field) (m : Bytes) (v : ℕ) (hf : f.offset + f.size ≤ 24) : f.set m 0 v x = m x :=
    Field.set_apply_of_notMem (by omega)
  rw [initSuperblock, hset _ _ _ (by decide), hset _ _ _ (by decide), hset _ _ _ (by decide),
    hset _ _ _ (by decide), hset _ _ _ (by decide), hset _ _ _ (by decide), hset _ _ _ (by decide)]

theorem Run.intact {junk : Bytes} {times : Times} {log : List Event}
    (hrun : Run Fs.Allows junk times s log) (hsb : s.superblock = initSuperblock) : s.Intact := by
  rw [Fs.Intact, hrun.sealed.block_zero, hsb]
  have hbytes : Superblock.bytes = 24 := rfl
  funext x
  by_cases hx : x < 24
  · rw [superblockBlock, hbytes, Bytes.copy_apply_of_mem (Nat.zero_le x) (by omega),
      Bytes.copy_apply_of_mem (by omega) (by omega)]
    simp
  · rw [hbytes, Bytes.copy_apply_of_notMem (by omega), initSuperblock_of_le (by omega)]

theorem Run.intactAtRestarts {junk : Bytes} {times : Times} {log : List Event}
    (hrun : Run Fs.Allows junk times s log) (halike : s.Alike initSuperblock 0 s)
    (hallowed : AllowedAlong steps s) : IntactAtRestarts steps s := by
  induction steps generalizing s log with
  | nil => exact True.intro
  | cons step steps ih =>
    cases step with
    | restart => exact ⟨hrun.intact halike.left.1, ih hrun halike hallowed⟩
    | request q =>
      intro a s' hexec
      cases q with
      | call c =>
        obtain ⟨⟨r, s₁⟩, hcall, hr⟩ := Option.map_eq_some_iff.mp hexec
        cases hr
        obtain ⟨hgranted, hallowed'⟩ := hallowed.2 r _ hcall
        obtain ⟨t, ht, halike'⟩ := (halike.exec c).of_some hcall
        rw [hcall] at ht
        cases ht
        exact ih (.call hrun hallowed.1 hcall hgranted) halike' hallowed'
      | getattr path =>
        cases hexec
        exact ih hrun halike hallowed
      | readdir filler path =>
        cases hexec
        exact ih hrun halike hallowed

theorem outcome_restarts {junk : Bytes} {times : Times} (hs : rufsMkfs junk times = some s)
    (steps : List Step) :
    (IntactAtRestarts steps s → outcome steps s = outcome (steps.filter Step.isRequest) s) ∧
      (AllowedAlong steps s → IntactAtRestarts steps s) := by
  have halike := (sealed_mkfs hs).2
  exact ⟨fun hintact => halike.outcome_eq hintact, fun h => Run.intactAtRestarts (.made hs) halike h⟩

/-- A file that is made, found again after a restart. -/
theorem outcome_restarts_create : ∃ s, rufsMkfs (fun _ => 0) ⟨0, 0⟩ = some s ∧
    outcome [.request (.call (.create slashA ⟨0, 0⟩)), .restart, .request (.getattr slashA)] s =
      outcome [.request (.call (.create slashA ⟨0, 0⟩)), .request (.getattr slashA)] s := by
  obtain ⟨s, hs, hmade⟩ := rufsMkfs_spec (fun _ => 0) ⟨0, 0⟩
  have hlive (i : ℕ) (hi : rootGraph i ≠ none) : i ∈ ({0} : Finset ℕ) := by
    by_contra hne
    exact hi (rootGraph_of_ne (by simpa using hne))
  obtain ⟨s', hcall, hgranted⟩ := rufsCreate_total ⟨0, 0⟩ hmade.layout hmade.rep
    rootGraph_closed (hmade.kept.mayEnter hmade.enters) rfl rootGraph_zero (by decide) hmade.granted
    ⟨1, by decide, by rw [hmade.inodeUsed]; rfl⟩ (hmade.rep.exists_free hlive (by decide))
  obtain ⟨htransparent, hintact⟩ := outcome_restarts hs
    [.request (.call (.create slashA ⟨0, 0⟩)), .restart, .request (.getattr slashA)]
  refine ⟨s, hs, htransparent (hintact ⟨hmade.enters, fun r s₁ hexec => ⟨?_, True.intro⟩⟩)⟩
  obtain ⟨⟨ret, s₂⟩, hcall', hr⟩ := Option.map_eq_some_iff.mp hexec
  rw [hcall, Option.some.injEq] at hcall'
  rw [← hcall'] at hr
  cases hr
  exact hgranted

end Schedules

end UserLevelOs.Files
