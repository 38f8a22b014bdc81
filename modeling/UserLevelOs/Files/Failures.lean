import UserLevelOs.Files.Duplicates
import UserLevelOs.Files.Superblock

/-!
# Creations that fail

`rufs_mkdir` and `rufs_create` take an inode number before they know whether the parent takes
the name.  When it does not, the number stays taken.

## Main definitions

* `Reached` — what any requests can make of a new disk.
* `CreateClean` — a creation that fails leaves the disk alone.
* `Fs.Takes` — the parent has a place for the name.

## Main statements

* `createClean_iff`.
* `createClean_fails` — a file created below a full directory.
-/

namespace UserLevelOs.Files

open UserLevelOs.Lib

variable {junk : Bytes} {times : Times} {s s' : Fs} {path : List UInt8} {nodei : Inode}

/-! ## Any requests -/

/-- The states of a process that has made the file system and served requests since. -/
inductive Reached (junk : Bytes) (times : Times) : Fs → Prop
  | made {s : Fs} (h : rufsMkfs junk times = some s) : Reached junk times s
  | call {s s' : Fs} {c : Call} {r : Reply} (h : Reached junk times s)
      (hexec : c.exec s = some (r, s')) : Reached junk times s'

theorem Run.reached {allows : Fs → Call → Prop} {log : List Event} (hrun : Run allows junk times s log) :
    Reached junk times s := by
  induction hrun with
  | made h => exact .made h
  | call _ _ hexec _ ih => exact .call ih hexec

theorem Fs.Alike.layout (h : s.Alike initSuperblock 0 s) : s.Layout where
  iBitmapBlk := by rw [iBitmapBlk, h.left.1, initSuperblock_fields.1]
  dBitmapBlk := by rw [dBitmapBlk, h.left.1, initSuperblock_fields.2.1]
  iStartBlk := by rw [iStartBlk, h.left.1, initSuperblock_fields.2.2.1]
  rootDirIno := h.left.2

/-- No request touches the globals that say where the tables lie. -/
theorem Reached.layout (h : Reached junk times s) : s.Layout := by
  have halike : s.Alike initSuperblock 0 s := by
    induction h with
    | made h => exact (sealed_mkfs h).2
    | call _ hexec ih =>
      obtain ⟨t, ht, halike⟩ := (ih.exec _).of_some hexec
      rw [hexec] at ht
      cases ht
      exact halike
  exact halike.layout

/-! ## What a failure leaves behind -/

/-- `rufs_mkdir` or `rufs_create` of `path`, returning `ret`. -/
def Fs.Creation (s : Fs) (path : List UInt8) (ret : ℤ) (s' : Fs) : Prop :=
  ∃ times, rufsMkdir s path times = some (ret, s') ∨ rufsCreate s path times = some (ret, s')

/-- A creation that returns an error changes no block of the disk. -/
def CreateClean (s : Fs) (path : List UInt8) : Prop :=
  ∀ ret s', s.Creation path ret s' → ret < 0 → s'.disk = s.disk

namespace Fs

/-- `path` has no parent. -/
def Orphan (s : Fs) (path : List UInt8) : Prop :=
  getNodeByPath s (dirname path) s.rootDirIno = none

/-- The bitmap on the disk has no clear flag for an inode. -/
def InodesFull (s : Fs) : Prop :=
  ∀ i < MAX_INUM, Bitmap.get .lsbFirst (bioRead s.disk s.iBitmapBlk) i = true

theorem inodeUsed_eq (hs : s.Layout) (i : ℕ) :
    Bitmap.get .lsbFirst (bioRead s.disk s.iBitmapBlk) i = s.store.inodeUsed i := by
  rw [hs.iBitmapBlk]
  rfl

/-- Taking an inode number changes the disk when there is one. -/
theorem getAvailIno_disk_eq_iff (hs : s.Layout) : (getAvailIno s).2.disk = s.disk ↔ s.InodesFull := by
  constructor
  · intro hdisk i hi
    by_contra hclear
    rw [inodeUsed_eq hs] at hclear
    have hret : (getAvailIno s).1 ≠ -1 := fun hret => hclear (getAvailIno_exhausted hs hret i hi)
    obtain ⟨j, -, -, hfree, -, hstore⟩ := getAvailIno_spec hs hret
    have hused : (getAvailIno s).2.store.inodeUsed j = s.store.inodeUsed j := by
      simp only [store]
      rw [hdisk]
    rw [hstore, Store.inodeUsed_useInode, Function.update_self, hfree] at hused
    cases hused
  · intro hfull
    have hret : (getAvailIno s).1 = -1 := by
      by_contra hret
      obtain ⟨j, hj, -, hfree, -⟩ := getAvailIno_spec hs hret
      rw [← inodeUsed_eq hs, hfull j hj] at hfree
      cases hfree
    rw [(getAvailIno_disk s).2, ← (getAvailIno_disk s).1, hret, if_neg (by decide)]

end Fs

/-- `dir_add` has a place for the name. -/
def HasPlace (s : Fs) (dirInode : Inode) (fname : List UInt8) : Prop :=
  Inode.valid.get dirInode 0 ≠ 0 ∧ hasDuplicate s dirInode fname = false ∧ findSpot s dirInode ≠ none

section DirAdd

variable {fIno len : ℕ} {fname : List UInt8} {r : ℤ}

/-- Without a place the name is refused and nothing changes. -/
theorem dirAdd_of_not_hasPlace {n l : ℕ} (h : ¬ HasPlace s nodei fname) :
    ∃ r, dirAdd s nodei n fname l = some (r, s) ∧ (r = -1 ∨ r = 0) := by
  rw [dirAdd]
  by_cases hvalid : Inode.valid.get nodei 0 = 0
  · rw [if_pos hvalid]
    exact ⟨0, rfl, Or.inr rfl⟩
  · rw [if_neg hvalid]
    cases hdup : hasDuplicate s nodei fname with
    | true =>
      rw [if_pos rfl]
      exact ⟨0, rfl, Or.inr rfl⟩
    | false =>
      have hspot : findSpot s nodei = none := by
        by_contra hspot
        exact h ⟨hvalid, hdup, hspot⟩
      rw [if_neg Bool.false_ne_true, hspot]
      exact ⟨-1, rfl, Or.inl rfl⟩

/-- With one, it is not. -/
theorem HasPlace.dirAdd_eq (h : HasPlace s nodei fname)
    (hadd : dirAdd s nodei fIno fname len = some (r, s')) : r = 1 := by
  obtain ⟨hvalid, hdup, hspot⟩ := h
  rw [dirAdd, if_neg hvalid, hdup, if_neg Bool.false_ne_true] at hadd
  split at hadd
  · next hnone => exact absurd hnone hspot
  · simp only [Option.bind_eq_bind, Option.bind_eq_some_iff, Option.some.injEq, Prod.mk.injEq] at hadd
    obtain ⟨-, -, hr, -⟩ := hadd
    exact hr.symm
  · simp only [Option.bind_eq_bind, Option.bind_eq_some_iff, Option.some.injEq, Prod.mk.injEq] at hadd
    obtain ⟨-, -, hr, -⟩ := hadd
    exact hr.symm

end DirAdd

/-- The parent of `path` has a place for the name, looked for once the inode number is
taken. -/
def Fs.Takes (s : Fs) (path : List UInt8) : Prop :=
  ∃ nodei, getNodeByPath s (dirname path) s.rootDirIno = some nodei ∧
    HasPlace (getAvailIno s).2 nodei (basename path)

/-- A parent without a place: the inode number stays taken. -/
theorem addToParent_refused (hparent : ¬ s.Orphan path) (htakes : ¬ s.Takes path) :
    ∃ error, addToParent s path = some (.inl error, (getAvailIno s).2) ∧ error < 0 := by
  obtain ⟨nodei, hnodei⟩ := Option.ne_none_iff_exists'.mp hparent
  have hplace : ¬ HasPlace (getAvailIno s).2 nodei (basename path) :=
    fun h => htakes ⟨nodei, hnodei, h⟩
  obtain ⟨r, hadd, hr⟩ := dirAdd_of_not_hasPlace (n := ((getAvailIno s).1 % 2 ^ 16).toNat)
    (l := nameLen (basename path)) hplace
  rw [addToParent, hnodei]
  dsimp only
  rw [hadd, Option.bind_eq_bind, Option.bind_some]
  rcases hr with hr | hr
  · exact ⟨-EFBIG, by rw [hr]; rfl, by decide⟩
  · exact ⟨-EEXIST, by rw [hr]; rfl, by decide⟩

theorem addToParent_orphan (h : s.Orphan path) : addToParent s path = some (.inl (-ENOENT), s) := by
  rw [addToParent, h]

theorem Fs.Takes.addToParent_eq {added : ℤ ⊕ Inode × ℕ} (h : s.Takes path)
    (hadd : addToParent s path = some (added, s')) : ∃ entry, added = .inr entry := by
  obtain ⟨nodei, hnodei, hplace⟩ := h
  rcases addToParent_some hadd with ⟨hnone, -, -⟩ | ⟨nodei', r, hsome, hdir, hadded⟩
  · rw [hnodei] at hnone
    cases hnone
  · rw [hnodei] at hsome
    cases hsome
    rw [hplace.dirAdd_eq hdir] at hadded
    exact ⟨_, hadded⟩

/-! ## Creating -/

/-- An error of the common part is the error of the call. -/
theorem Fs.creation_of_error {error : ℤ} (h : addToParent s path = some (.inl error, s')) :
    s.Creation path error s' := by
  refine ⟨⟨0, 0⟩, Or.inl ?_⟩
  rw [rufsMkdir, h]
  rfl

theorem Fs.Creation.cases {ret : ℤ} (h : s.Creation path ret s') :
    addToParent s path = some (.inl ret, s') ∨
      ret = 0 ∧ ∃ entry s₁, addToParent s path = some (.inr entry, s₁) := by
  obtain ⟨times, hcall | hcall⟩ := h
  · cases rufsMkdir_some hcall with
    | error hadd => exact Or.inl hadd
    | entered hadd _ _ _ => exact Or.inr ⟨rfl, _, _, hadd⟩
  · cases rufsCreate_some hcall with
    | error hadd => exact Or.inl hadd
    | entered hadd => exact Or.inr ⟨rfl, _, _, hadd⟩

theorem createClean_iff (h : Reached junk times s) (path : List UInt8) :
    CreateClean s path ↔ s.Orphan path ∨ s.InodesFull ∨ s.Takes path := by
  have hdisk := Fs.getAvailIno_disk_eq_iff h.layout
  constructor
  · intro hclean
    by_cases hparent : s.Orphan path
    · exact Or.inl hparent
    · by_cases htakes : s.Takes path
      · exact Or.inr (Or.inr htakes)
      · obtain ⟨error, hadd, hneg⟩ := addToParent_refused hparent htakes
        exact Or.inr (Or.inl (hdisk.mp (hclean _ _ (Fs.creation_of_error hadd) hneg)))
  · intro hcond ret s' hcreation hneg
    rcases hcreation.cases with hadd | ⟨hret, -⟩
    · by_cases hparent : s.Orphan path
      · rw [addToParent_orphan hparent] at hadd
        cases hadd
        rfl
      · by_cases htakes : s.Takes path
        · obtain ⟨entry, heq⟩ := htakes.addToParent_eq hadd
          cases heq
        · obtain ⟨error, hrefused, -⟩ := addToParent_refused hparent htakes
          rw [hrefused] at hadd
          cases hadd
          exact hdisk.mpr ((hcond.resolve_left hparent).resolve_right htakes)
    · rw [hret] at hneg
      exact absurd hneg (by decide)

theorem createClean_iff_made : ∃ s, Reached (fun _ => 0) ⟨0, 0⟩ s ∧
    (CreateClean s slashA ↔ s.Orphan slashA ∨ s.InodesFull ∨ s.Takes slashA) := by
  obtain ⟨s, hs, -⟩ := rufsMkfs_spec (fun _ => 0) ⟨0, 0⟩
  exact ⟨s, .made hs, createClean_iff (.made hs) slashA⟩

/-- The root with 304 entries: creating `"/a"` once more fails, and takes an inode number. -/
theorem createClean_fails : ∃ s s', Reached (fun _ => 0) ⟨0, 0⟩ s ∧
    rufsCreate s slashA ⟨0, 0⟩ = some (-EFBIG, s') ∧ s'.disk ≠ s.disk := by
  obtain ⟨s, g, T, entries, hrun, -, h, hcard, hdir, hnames⟩ :=
    exists_repeated (fun _ => 0) ⟨0, 0⟩ 302 (by decide)
  have hcount (n : ℕ) (heq : entries.map Prod.fst = [dot, dotdot] ++ List.replicate n [97]) :
      entries.length = n + 2 := by
    have hlen := congrArg List.length heq
    simpa using hlen
  have hlen : entries.length = 304 := hcount 302 hnames
  have hfull : ¬ s.InodesFull := by
    intro hfull
    have hall : usedInodes s = Finset.range 1024 := by
      refine Finset.filter_true_of_mem fun i hi => ?_
      rw [← Fs.inodeUsed_eq h.layout]
      exact hfull i (Finset.mem_range.mp hi)
    rw [hall, Finset.card_range] at hcard
    omega
  have hret : (getAvailIno s).1 ≠ -1 := by
    intro hret
    refine hfull fun i hi => ?_
    rw [Fs.inodeUsed_eq h.layout, Fs.getAvailIno_exhausted h.layout hret i hi]
  obtain ⟨i, -, -, -, -, hstore⟩ := Fs.getAvailIno_spec h.layout hret
  -- the root is full
  have hmay := h.mayEnter h.enters_slashA
  have hget : getNodeByPath s (dirname slashA) s.rootDirIno = some (s.store.inodes 0) := by
    rw [getNodeByPath_eq h.layout h.rep h.closed (nul_notMem_dirname hmay.string) hmay.searches]
    rfl
  have hrep : Represents (getAvailIno s).2.store g := hstore ▸ h.rep.useInode i
  have hinodes : s.store.inodes 0 = (getAvailIno s).2.store.inodes 0 := by
    rw [hstore, Store.inodes_useInode]
  have hnode := hrep.node 0 (by decide)
  rw [hdir] at hnode
  obtain ⟨hvalid, -, hholds⟩ := hnode
  have hadd : addToParent s slashA = some (.inl (-EFBIG), (getAvailIno s).2) := by
    rw [addToParent, hget]
    dsimp only
    rw [hinodes, dirAdd, if_neg hvalid, hasDuplicate_eq hrep (by decide), if_neg Bool.false_ne_true,
      findSpot_eq hrep (by decide) hholds, if_pos hlen]
    rfl
  refine ⟨s, (getAvailIno s).2, hrun.reached, ?_, fun hdisk => ?_⟩
  · rw [rufsCreate, hadd]
    rfl
  · exact hfull ((Fs.getAvailIno_disk_eq_iff h.layout).mp hdisk)

end UserLevelOs.Files
