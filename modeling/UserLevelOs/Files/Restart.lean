import UserLevelOs.Files.Blocks
import UserLevelOs.Lib.Lockstep

/-!
# Starting again on the same disk

`rufs_init` on a disk file that is already there loads the superblock and nothing else.  Two
processes that agree on the disk, the superblock and the root go in lockstep, whatever their
bitmaps hold: an allocator reads its bitmap from the disk before it looks at it.  So a restart
goes unnoticed for as long as block 0 still holds the superblock.

## Main definitions

* `rufsInit`, `rufsDestroy` — the two ends of a process.
* `Fs.Alike` — two processes on one disk.

## Main statements

* `Fs.Alike.exec` — one call in both processes.
-/

namespace UserLevelOs.Files

open UserLevelOs.Lib

/-! ## Processes -/

/-- `rufs_init` when the disk file is found. -/
def rufsInit (disk : Disk) : Fs where
  disk
  superblock := Bytes.copy (fun _ => 0) 0 (bioRead disk 0) 0 Superblock.bytes
  inodeBitmap := fun _ => 0
  dataBlockBitmap := fun _ => 0
  rootDirIno := 0
  allocs := []

/-- `rufs_destroy` keeps the disk file only. -/
def rufsDestroy (s : Fs) : Disk := s.disk

/-- Two processes with the superblock `superblock` and the root `root`, on one disk. -/
structure Fs.Alike (superblock : Bytes) (root : ℕ) (s t : Fs) : Prop where
  disk : s.disk = t.disk
  left : s.superblock = superblock ∧ s.rootDirIno = root
  right : t.superblock = superblock ∧ t.rootDirIno = root

/-! ## The allocators -/

theorem takeFree_copy (bitmap buf : Bytes) {n bytes : ℕ} (hn : n ≤ 8 * bytes) :
    (takeFree (bitmap.copy 0 buf 0 bytes) n).1 = (takeFree buf n).1 ∧
      buf.copy 0 (takeFree (bitmap.copy 0 buf 0 bytes) n).2 0 bytes = (takeFree buf n).2 := by
  have hcopy {x : ℕ} (hx : x < bytes) : bitmap.copy 0 buf 0 bytes x = buf x := by
    rw [Bytes.copy_apply_of_mem (Nat.zero_le x) (by omega)]
    simp
  have hscan : scan (Bitmap.get .lsbFirst (bitmap.copy 0 buf 0 bytes)) 0 n =
      scan (Bitmap.get .lsbFirst buf) 0 n :=
    scan_congr fun i _ hi => by rw [Bitmap.get, Bitmap.get, hcopy (by omega)]
  rw [takeFree, takeFree, hscan]
  cases hfound : scan (Bitmap.get .lsbFirst buf) 0 n with
  | none =>
    refine ⟨rfl, ?_⟩
    funext x
    dsimp only
    by_cases hx : x < bytes
    · rw [Bytes.copy_apply_of_mem (Nat.zero_le x) (by omega), hcopy (by omega)]
      simp
    · exact Bytes.copy_apply_of_notMem (by omega)
  | some i =>
    obtain ⟨-, hi, -⟩ := scan_eq_some.mp hfound
    refine ⟨rfl, ?_⟩
    funext x
    dsimp only
    by_cases hx : x < bytes
    · rw [Bytes.copy_apply_of_mem (Nat.zero_le x) (by omega)]
      simp only [Bitmap.set, Nat.sub_zero, Nat.zero_add, Function.update_apply, hcopy hx,
        hcopy (by omega : i / 8 < bytes)]
    · have hne : x ≠ i / 8 := by omega
      rw [Bytes.copy_apply_of_notMem (by omega)]
      simp only [Bitmap.set, Function.update_of_ne hne]

theorem getAvailIno_disk (s : Fs) :
    (getAvailIno s).1 = (takeFree (bioRead s.disk s.iBitmapBlk) MAX_INUM).1 ∧
      (getAvailIno s).2.disk = if 0 ≤ (takeFree (bioRead s.disk s.iBitmapBlk) MAX_INUM).1 then
        bioWrite s.disk s.iBitmapBlk (takeFree (bioRead s.disk s.iBitmapBlk) MAX_INUM).2 else s.disk := by
  obtain ⟨hret, hbuf⟩ := takeFree_copy s.inodeBitmap (bioRead s.disk s.iBitmapBlk)
    (by decide : MAX_INUM ≤ 8 * INODE_BITMAP_BYTES)
  rw [getAvailIno]
  exact ⟨hret, by rw [hret, hbuf]⟩

theorem getAvailBlkno_disk (s : Fs) :
    (getAvailBlkno s).1 = (takeFree (bioRead s.disk s.dBitmapBlk) MAX_DNUM).1 ∧
      (getAvailBlkno s).2.disk = if 0 ≤ (takeFree (bioRead s.disk s.dBitmapBlk) MAX_DNUM).1 then
        bioWrite s.disk s.dBitmapBlk (takeFree (bioRead s.disk s.dBitmapBlk) MAX_DNUM).2 else s.disk := by
  obtain ⟨hret, hbuf⟩ := takeFree_copy s.dataBlockBitmap (bioRead s.disk s.dBitmapBlk)
    (by decide : MAX_DNUM ≤ 8 * DATA_BLOCK_BITMAP_BYTES)
  rw [getAvailBlkno]
  exact ⟨hret, by rw [hret, hbuf]⟩

namespace Fs.Alike

variable {sb : Bytes} {root : ℕ} {s t : Fs}

theorem superblock_eq (h : Alike sb root s t) : s.superblock = t.superblock := by
  rw [h.left.1, h.right.1]

theorem rootDirIno_eq (h : Alike sb root s t) : s.rootDirIno = t.rootDirIno := by
  rw [h.left.2, h.right.2]

theorem inodeBlk_eq (h : Alike sb root s t) (i : ℕ) : inodeBlk s i = inodeBlk t i := by
  rw [inodeBlk, inodeBlk, Fs.iStartBlk, Fs.iStartBlk, h.superblock_eq]

theorem readi_eq (h : Alike sb root s t) : readi s = readi t := by
  funext i
  rw [readi, readi, h.inodeBlk_eq, h.disk]

theorem withDisk (h : Alike sb root s t) (disk : Disk) :
    Alike sb root { s with disk } { t with disk } := ⟨rfl, h.left, h.right⟩

theorem writei (h : Alike sb root s t) (i : ℕ) (inode : Inode) :
    Alike sb root (writei s i inode) (writei t i inode) where
  disk := by rw [Fs.disk_writei, Fs.disk_writei, h.inodeBlk_eq, h.disk]
  left := by
    rw [superblock_writei, rootDirIno_writei]
    exact h.left
  right := by
    rw [superblock_writei, rootDirIno_writei]
    exact h.right

theorem getAvailIno (h : Alike sb root s t) : (getAvailIno s).1 = (getAvailIno t).1 ∧
    Alike sb root (getAvailIno s).2 (getAvailIno t).2 := by
  have hblk : s.iBitmapBlk = t.iBitmapBlk := by rw [iBitmapBlk, iBitmapBlk, h.superblock_eq]
  obtain ⟨hs, hs'⟩ := getAvailIno_disk s
  obtain ⟨ht, ht'⟩ := getAvailIno_disk t
  refine ⟨?_, ?_, h.left, h.right⟩
  · rw [hs, ht, hblk, h.disk]
  · rw [hs', ht', hblk, h.disk]

theorem getAvailBlkno (h : Alike sb root s t) : (getAvailBlkno s).1 = (getAvailBlkno t).1 ∧
    Alike sb root (getAvailBlkno s).2 (getAvailBlkno t).2 := by
  have hblk : s.dBitmapBlk = t.dBitmapBlk := by rw [dBitmapBlk, dBitmapBlk, h.superblock_eq]
  obtain ⟨hs, hs'⟩ := getAvailBlkno_disk s
  obtain ⟨ht, ht'⟩ := getAvailBlkno_disk t
  refine ⟨?_, ?_, h.left, h.right⟩
  · rw [hs, ht, hblk, h.disk]
  · rw [hs', ht', hblk, h.disk]

/-! ## Directories and paths -/

theorem dirFind_eq (h : Alike sb root s t) : dirFind s = dirFind t := by
  funext i fname
  rw [dirFind, dirFind, h.readi_eq, h.disk]

theorem hasDuplicate_eq (h : Alike sb root s t) : hasDuplicate s = hasDuplicate t := by
  funext dirInode fname
  rw [hasDuplicate, hasDuplicate, h.disk]

theorem findSpot_eq (h : Alike sb root s t) : findSpot s = findSpot t := by
  funext dirInode
  rw [findSpot, findSpot, h.disk]

theorem walk_eq (h : Alike sb root s t) (i : ℕ) (names : List (List UInt8)) :
    walk s i names = walk t i names := by
  induction names generalizing i with
  | nil => rfl
  | cons name names ih =>
    rw [walk, walk, h.dirFind_eq]
    exact congrArg _ (funext ih)

theorem getNodeByPath_eq (h : Alike sb root s t) (path : List UInt8) :
    getNodeByPath s path s.rootDirIno = getNodeByPath t path t.rootDirIno := by
  rw [getNodeByPath, getNodeByPath, h.readi_eq, h.rootDirIno_eq, h.walk_eq]

theorem dirAdd (h : Alike sb root s t) (dirInode : Inode) (i : ℕ) (fname : List UInt8) (len : ℕ) :
    Lockstep (Alike sb root) (dirAdd s dirInode i fname len) (dirAdd t dirInode i fname len) := by
  rw [Files.dirAdd, Files.dirAdd, h.hasDuplicate_eq, h.findSpot_eq]
  refine .ite (.done h) (.ite (.done h) ?_)
  rcases findSpot t dirInode with _ | ⟨ptrIndex, _ | j⟩
  · exact .done h
  · obtain ⟨hblk, h⟩ := h.getAvailBlkno
    dsimp only
    rw [hblk, h.disk]
    cases putDirent (fun _ => 0) 0 i len fname with
    | none => exact .failed
    | some buf => exact .done ((h.withDisk _).writei _ _)
  · dsimp only
    rw [h.disk]
    cases putDirent (bioRead t.disk (dirInode.ptr ptrIndex)) j i len fname with
    | none => exact .failed
    | some buf => exact .done (h.withDisk _)

/-! ## Requests -/

theorem addToParent (h : Alike sb root s t) (path : List UInt8) :
    Lockstep (Alike sb root) (addToParent s path) (addToParent t path) := by
  rw [Files.addToParent, Files.addToParent, h.getNodeByPath_eq]
  cases Files.getNodeByPath t (dirname path) t.rootDirIno with
  | none => exact .done h
  | some nodei =>
    obtain ⟨hino, h⟩ := h.getAvailIno
    dsimp only
    rw [hino]
    refine (h.dirAdd _ _ _ _).bind fun ret s t h => ?_
    exact .ite (.done h) (.ite (.done h) (.done h))

theorem rufsMkdir (h : Alike sb root s t) (path : List UInt8) (times : Times) :
    Lockstep (Alike sb root) (rufsMkdir s path times) (rufsMkdir t path times) := by
  refine (h.addToParent path).bind fun added s t h => ?_
  cases added with
  | inl error => exact .done h
  | inr added =>
    dsimp only
    rw [h.readi_eq]
    refine ((h.writei _ _).dirAdd _ _ _ _).bind fun _ s t h => ?_
    dsimp only
    rw [h.readi_eq]
    refine (h.dirAdd _ _ _ _).bind fun _ s t h => ?_
    dsimp only
    rw [h.readi_eq]
    exact .done (h.writei _ _)

theorem rufsCreate (h : Alike sb root s t) (path : List UInt8) (times : Times) :
    Lockstep (Alike sb root) (rufsCreate s path times) (rufsCreate t path times) := by
  refine (h.addToParent path).bind fun added s t h => ?_
  cases added with
  | inl error => exact .done h
  | inr added =>
    dsimp only
    rw [h.readi_eq]
    exact .done (h.writei _ _)

theorem ensureBlock (h : Alike sb root s t) (nodei : Inode) (blkIndex : ℕ) :
    (ensureBlock nodei blkIndex s).1 = (ensureBlock nodei blkIndex t).1 ∧
      Alike sb root (ensureBlock nodei blkIndex s).2 (ensureBlock nodei blkIndex t).2 := by
  rw [Files.ensureBlock, Files.ensureBlock]
  split
  · obtain ⟨hblk, h⟩ := h.getAvailBlkno
    dsimp only
    rw [hblk]
    exact ⟨rfl, h⟩
  · exact ⟨rfl, h⟩

theorem writeLoop (h : Alike sb root s t) (buffer : List UInt8)
    (left blkIndex offset remaining bytesWritten : ℕ) (nodei : Inode) :
    (writeLoop buffer left blkIndex offset remaining bytesWritten nodei s).1 =
        (writeLoop buffer left blkIndex offset remaining bytesWritten nodei t).1 ∧
      (writeLoop buffer left blkIndex offset remaining bytesWritten nodei s).2.1 =
        (writeLoop buffer left blkIndex offset remaining bytesWritten nodei t).2.1 ∧
      Alike sb root (writeLoop buffer left blkIndex offset remaining bytesWritten nodei s).2.2
        (writeLoop buffer left blkIndex offset remaining bytesWritten nodei t).2.2 := by
  induction left generalizing blkIndex offset remaining bytesWritten nodei s t with
  | zero => exact ⟨rfl, rfl, h⟩
  | succ left ih =>
    rw [Files.writeLoop, Files.writeLoop]
    split
    · exact ⟨rfl, rfl, h⟩
    · obtain ⟨hnodei, h⟩ := h.ensureBlock nodei blkIndex
      dsimp only
      rw [hnodei, h.disk]
      exact ih (h.withDisk _) _ _ _ _ _

theorem rufsRead (h : Alike sb root s t) (path : List UInt8) (size offset atime : ℕ) :
    Lockstep (Alike sb root) ((rufsRead s path size offset atime).map fun p => ((p.1, p.2.1), p.2.2))
      ((rufsRead t path size offset atime).map fun p => ((p.1, p.2.1), p.2.2)) := by
  rw [Files.rufsRead, Files.rufsRead, h.getNodeByPath_eq, h.disk]
  cases Files.getNodeByPath t path t.rootDirIno with
  | none => exact .done h
  | some nodei =>
    dsimp only
    by_cases hend : Inode.size.get nodei 0 ≤ offset
    · rw [if_pos hend, if_pos hend]
      exact .done h
    · rw [if_neg hend, if_neg hend]
      generalize (if (toInt ((Inode.size.get nodei 0 : ℤ) - offset) % 2 ^ 64).toNat < size then
        toInt ((Inode.size.get nodei 0 : ℤ) - offset) else toInt size) = remaining
      split
      · exact .failed
      · split
        · exact .done (h.writei _ _)
        · exact .done h

theorem rufsWrite (h : Alike sb root s t) (path : List UInt8) (buffer : List UInt8)
    (size offset : ℕ) (times : Times) :
    Lockstep (Alike sb root) (rufsWrite s path buffer size offset times)
      (rufsWrite t path buffer size offset times) := by
  rw [Files.rufsWrite, Files.rufsWrite, h.getNodeByPath_eq]
  cases Files.getNodeByPath t path t.rootDirIno with
  | none => exact .done h
  | some nodei =>
    refine .ite .failed (.ite .failed ?_)
    obtain ⟨hnodei, hbytes, h⟩ := h.writeLoop buffer
      (DIRECT_PTRS - (toInt (offset / BLOCK_SIZE : ℕ)).toNat) (toInt (offset / BLOCK_SIZE : ℕ)).toNat
      offset (toInt size).toNat 0 nodei
    dsimp only
    rw [hnodei, hbytes]
    exact .done (h.writei _ _)

theorem exec (h : Alike sb root s t) (c : Call) :
    Lockstep (Alike sb root) (c.exec s) (c.exec t) := by
  cases c with
  | mkdir path times => exact (h.rufsMkdir path times).map (f := fun ret => (⟨ret, []⟩ : Reply))
  | create path times => exact (h.rufsCreate path times).map (f := fun ret => (⟨ret, []⟩ : Reply))
  | read path size offset atime =>
    have hread := (h.rufsRead path size offset atime).map (f := fun p => (⟨p.1, p.2⟩ : Reply))
    rw [Option.map_map, Option.map_map] at hread
    exact hread
  | write path buffer size offset times =>
    exact (h.rufsWrite path buffer size offset times).map (f := fun ret => (⟨ret, []⟩ : Reply))

theorem rufsGetattr_eq (h : Alike sb root s t) : rufsGetattr s = rufsGetattr t := by
  funext path
  rw [Files.rufsGetattr, Files.rufsGetattr, h.getNodeByPath_eq]

theorem rufsReaddir_eq (h : Alike sb root s t) : rufsReaddir s = rufsReaddir t := by
  funext filler path
  rw [Files.rufsReaddir, Files.rufsReaddir, h.getNodeByPath_eq, h.disk]

end Fs.Alike

end UserLevelOs.Files
