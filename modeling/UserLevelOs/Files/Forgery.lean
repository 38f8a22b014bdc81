import UserLevelOs.Files.Remount

/-!
# A superblock lost

Nothing in `rufs.c` keeps a write off a directory.  Bytes written to the root make up an entry
for inode 1032, which lies in block 67 and so in the root itself, and the inode with it; its
first block is the bitmap of the data blocks.  Once that bitmap is cleared the allocator hands
out block 0.

## Main definitions

* `forgery` — the bytes written to the root.
* `Forged` — what the disk holds from then on.

## Main statements

* `restart_shows`.
-/

namespace UserLevelOs.Files

open UserLevelOs.Lib

variable {s s' : Fs}

/-- A valid inode with number 1032 and block 2. -/
def forgedBytes : List UInt8 :=
  [8, 4, 1, 0] ++ List.replicate 12 0 ++ [2] ++ List.replicate 239 0

def forgedInode : Inode := fun x => forgedBytes.getD x 0

/-- An entry called `x` for slot 2, and the inode for offset 2048. -/
def forgery : List UInt8 := [8, 4, 1, 0, 120] ++ List.replicate 1615 0 ++ forgedBytes

theorem length_forgedBytes : forgedBytes.length = 256 := by
  simp only [forgedBytes, List.length_append, List.length_replicate, List.length_cons, List.length_nil]

theorem length_forgery : forgery.length = 1876 := by
  simp only [forgery, List.length_append, List.length_replicate, List.length_cons, List.length_nil,
    length_forgedBytes]

theorem forgedInode_bounded : forgedInode.Bounded := fun x hx => by
  rw [forgedInode, List.getD_eq_default _ _ (by rw [length_forgedBytes]; exact hx)]

/-- The path `"/x"`. -/
def slashX : List UInt8 := [47, 120]

/-- The root has an entry for inode 1032 in its block 67. -/
structure Forged (s : Fs) : Prop where
  layout : s.Layout
  valid : Inode.valid.get (readi s 0) 0 ≠ 0
  ptr : (readi s 0).ptr 0 = 67
  dot : SlotHolds (bioRead s.disk 67) 0 (some (dot, 0))
  dotdot : SlotHolds (bioRead s.disk 67) 1 (some (dotdot, 0))
  forged : SlotHolds (bioRead s.disk 67) 2 (some ([120], 1032))

theorem findSome?_range_of_head {α : Type*} {f : ℕ → Option α} {n : ℕ} {a : α} (h : f 0 = some a) :
    (List.range (n + 1)).findSome? f = some a := by
  rw [List.range_succ_eq_map, List.findSome?_cons, h]

namespace Forged

theorem dirFind_eq (h : Forged s) : dirFind s 0 [120] = some 1032 := by
  have hslots : List.range DIRENTS_IN_BLOCK = 0 :: 1 :: 2 :: (List.range 16).map (· + 3) := rfl
  have hne : (readi s 0).ptr 0 ≠ 0 := by
    rw [h.ptr]
    decide
  have hother {j : ℕ} {name : Name} {ino : ℕ} (hslot : SlotHolds (bioRead s.disk 67) j (some (name, ino)))
      (hname : Stored name) (hneq : [120] ≠ name) : slotMatches (bioRead s.disk 67) [120] j = false := by
    rw [slotMatches, Bool.and_eq_false_iff]
    refine Or.inr (Bool.eq_false_iff.mpr fun hmatch => hneq ?_)
    exact (Bytes.strEq_iff_eq hslot.2.1 hname.1 (by decide)).mp hmatch
  obtain ⟨hvalid, hstr, hino⟩ := h.forged
  have hmatch : slotMatches (bioRead s.disk 67) [120] 2 = true := by
    rw [slotMatches, hstr, Bool.and_true, decide_eq_true_eq]
    exact hvalid
  have hfind : (List.range DIRENTS_IN_BLOCK).find? (slotMatches (bioRead s.disk 67) [120]) = some 2 := by
    rw [hslots, List.find?_cons_of_neg (by rw [hother h.dot (by decide) (by decide)]; decide),
      List.find?_cons_of_neg (by rw [hother h.dotdot (by decide) (by decide)]; decide),
      List.find?_cons_of_pos hmatch]
  rw [dirFind, if_neg h.valid]
  refine findSome?_range_of_head (n := 15) ?_
  rw [if_pos hne, h.ptr]
  dsimp only
  rw [hfind, Option.map_some, hino]

theorem getNodeByPath_eq (h : Forged s) :
    getNodeByPath s slashX s.rootDirIno = some (readi s 1032) := by
  have htok : strtokAll slashX = [[120]] := by decide
  rw [getNodeByPath, if_neg (by decide), h.layout.rootDirIno, htok, walk, h.dirFind_eq, Option.bind_some,
    walk, Option.map_some]

end Forged

/-- The bytes of the forgery, in place. -/
theorem forged_read (buf : Bytes) : Bytes.copy (fun _ => 0) 0 (buf.write 428 forgery) 2048 256 =
    forgedInode := by
  funext x
  by_cases hx : x < 256
  · have hlen : ([8, 4, 1, 0, 120] ++ List.replicate 1615 0 : List UInt8).length = 1620 := by
      simp only [List.length_append, List.length_replicate, List.length_cons, List.length_nil]
    rw [Bytes.copy_apply_of_mem (Nat.zero_le x) (by omega),
      Bytes.write_apply_of_mem (by omega) (by rw [length_forgery]; omega), forgery,
      List.getD_append_right _ _ _ _ (by omega), hlen, forgedInode]
    have hx : 2048 + (x - 0) - 428 - 1620 = x := by omega
    rw [hx]
  · rw [Bytes.copy_apply_of_notMem (by omega), forgedInode_bounded x (by omega)]

theorem slotHolds_forgery (buf : Bytes) :
    SlotHolds (buf.write 428 forgery) 2 (some ([120], 1032)) := by
  have hread (k n : ℕ) (h : k + n ≤ 1876) :
      (buf.write 428 forgery).read (428 + k) n = (forgery.drop k).take n :=
    Bytes.read_write_part buf 428 (by rw [length_forgery]; exact h)
  have haddr : slotAddr 2 = 428 := rfl
  have hlen : ([120] : List UInt8).length + 1 = 2 := rfl
  refine ⟨?_, ?_, ?_⟩
  · rw [haddr, Field.get, Bytes.loadLE, Dirent.valid, hread 2 2 (by decide)]
    decide
  · rw [haddr, Bytes.strEq_iff, Dirent.name, hlen, hread 4 2 (by decide)]
    decide
  · rw [haddr, Field.get, Bytes.loadLE, Dirent.ino, hread 0 2 (by decide)]
    decide

/-- The root rewritten. -/
theorem exists_forgery (junk : Bytes) (times : Times) : ∃ s s',
    rufsMkfs junk times = some s ∧
      rufsWrite s [SLASH] forgery 1876 428 times = some (((1876 : ℕ) : ℤ), s') ∧ Forged s' ∧
      readi s' 1032 = forgedInode ∧ bioRead s'.disk 0 = superblockBlock junk := by
  obtain ⟨s, hs, hmade, hptr, -⟩ := rufsMkfs_total junk times
  have hlayout := hmade.layout
  obtain ⟨hvalid, -, hdir⟩ := hmade.rep.node 0 (by decide)
  have hget : getNodeByPath s [SLASH] s.rootDirIno = some (s.store.inodes 0) := by
    rw [getNodeByPath, if_pos rfl, hlayout.rootDirIno, Fs.readi_eq (by decide)]
  rw [Store.ptr] at hptr
  have hgot : ensureBlock (s.store.inodes 0) (428 / 4096) s = (s.store.inodes 0, s) := by
    have hne : (s.store.inodes 0).ptr (428 / 4096) ≠ 0 := by
      change (s.store.inodes 0).ptr 0 ≠ 0
      rw [hptr]
      decide
    rw [ensureBlock, if_neg hne]
  have hcall := rufsWrite_one times hget (by decide : 428 < 65536) (by decide : 0 < 1876) (by decide)
    (by rw [length_forgery]) hgot
  have htake : forgery.take 1876 = forgery := List.take_of_length_le (by rw [length_forgery])
  have hzero : 428 / 4096 = 0 := rfl
  have hoff : 428 % 4096 = 428 := rfl
  obtain ⟨hbounded, hino, hvalid', -, hptr'⟩ :=
    writtenInode_spec (Fs.bounded_inodes s 0) 1876 times
  obtain ⟨s₁, hs₁⟩ : ∃ s₁, storeBlock (s.store.inodes 0) 0 s 428 forgery = s₁ := ⟨_, rfl⟩
  obtain ⟨root, hroot⟩ : ∃ root, writtenInode (s.store.inodes 0) 1876 times = root := ⟨_, rfl⟩
  rw [hroot] at hbounded hino hvalid' hptr' hcall
  rw [hino, hmade.rep.ino 0 (by decide), htake, hzero, hoff, hs₁] at hcall
  have hlayout₁ : s₁.Layout := hs₁ ▸ Fs.layout_disk hlayout _
  have hdisk : s₁.disk = bioWrite s.disk 67 ((bioRead s.disk 67).write 428 forgery) := by
    rw [← hs₁, storeBlock, hptr]
  have hblock : bioRead (writei s₁ 0 root).disk 67 = (bioRead s.disk 67).write 428 forgery := by
    rw [Fs.disk_writei, Fs.inodeBlk_eq hlayout₁, bioRead_bioWrite_of_ne (by decide), hdisk]
    exact bioRead_bioWrite_same (by decide)
  have hread : readi (writei s₁ 0 root) 0 = root := by
    rw [Fs.readi_writei hlayout₁ (by decide) (by decide) hbounded, if_pos rfl]
  have hlayout₂ := Fs.layout_writei hlayout₁ 0 root
  have hslot {j : ℕ} {e : Name × ℕ} (hj : j < 2) (he : Stored e.1)
      (hmem : [((dot, 0) : Name × ℕ), (dotdot, 0)][j]? = some e) :
      SlotHolds (bioRead (writei s₁ 0 root).disk 67) j (some e) := by
    have hne : s.store.ptr 0 0 ≠ 0 := by
      rw [Store.ptr, hptr]
      decide
    have hold := hdir.slot 0 (by decide) hne j (by omega)
    rw [Store.ptr, hptr, Nat.mul_zero, Nat.zero_add, hmem, ← Fs.bioRead_eq (by decide)] at hold
    refine hold.congr (fun x _ hx => ?_) fun e' he' => by cases he'; exact he.2
    rw [hblock]
    refine Bytes.write_apply_of_notMem (Or.inl ?_)
    simp only [slotAddr, DIRENT_BYTES] at hx
    omega
  refine ⟨s, writei s₁ 0 root, hs, hcall, ⟨hlayout₂, ?_, ?_, hslot (by decide) (by decide) rfl,
    hslot (by decide) (by decide) rfl, ?_⟩, ?_, ?_⟩
  · rw [hread, hvalid']
    exact hvalid
  · rw [hread, hptr' 0 (by decide), hptr]
  · rw [hblock]
    exact slotHolds_forgery _
  · have hblk : inodeBlk (writei s₁ 0 root) 1032 = 67 := by rw [Fs.inodeBlk_eq hlayout₂]
    have hoffset : inodeOffset 1032 = 2048 := rfl
    rw [readi, hblk, Nat.cast_ofNat, hblock, hoffset]
    exact forged_read _
  · rw [Fs.disk_writei, Fs.inodeBlk_eq hlayout₁, bioRead_bioWrite_of_ne (by decide), hdisk,
      bioRead_bioWrite_of_ne (by decide)]
    exact (sealed_mkfs hs).1.block_zero

/-! ## Block 0 handed out -/

theorem write_zeros (buf : Bytes) (n x : ℕ) :
    buf.write 0 (List.replicate n 0) x = if x < n then 0 else buf x := by
  split
  · next hx =>
    rw [Bytes.write_apply_of_mem (Nat.zero_le x) (by rw [List.length_replicate]; omega),
      List.getD_eq_getElem?_getD, List.getElem?_replicate, if_pos (by omega), Option.getD_some]
  · next hx => exact Bytes.write_apply_of_notMem (by rw [List.length_replicate]; omega)

theorem getAvailBlkno_cleared (hs : s.Layout) (hclear : bioRead s.disk 2 0 = 0) :
    (getAvailBlkno s).1 = 0 := by
  have hscan : scan (Bitmap.get .lsbFirst (bioRead s.disk 2)) 0 MAX_DNUM = some 0 := by
    refine scan_eq_some.mpr ⟨Nat.le_refl 0, by decide, ?_, fun i _ hi => absurd hi (Nat.not_lt_zero i)⟩
    rw [Bitmap.get, Nat.zero_div, hclear]
    simp
  rw [(getAvailBlkno_disk s).1, hs.dBitmapBlk, Nat.cast_ofNat, takeFree, hscan]
  rfl

/-- The forged inode once the allocator has given it block 0. -/
def clearedInode : Inode := forgedInode.setPtr 1 0

theorem clearedInode_bounded : clearedInode.Bounded :=
  Inode.bounded_setPtr (by decide) forgedInode_bounded

/-- A write of zeros through the forged inode clears the bitmap of data blocks, and then, as the
bitmap says that block 0 is free, the superblock. -/
theorem writeLoop_clear (hlayout : s.Layout) :
    ∃ s', writeLoop (List.replicate 4120 0) (DIRECT_PTRS - 0 / 4096) (0 / 4096) 0 4120 0
        forgedInode s = (clearedInode, 4120, s') ∧ s'.Layout ∧
      bioRead s'.disk 0 = (bioRead s.disk 0).write 0 (List.replicate 24 0) ∧
      ∀ c : ℤ, c ≠ 0 → c ≠ 2 → bioRead s'.disk c = bioRead s.disk c := by
  have hptr₀ : forgedInode.ptr 0 = 2 := by decide
  have hptr₁ : forgedInode.ptr 1 = 0 := by decide
  -- the first block is the bitmap
  have hgot₀ : ensureBlock forgedInode 0 s = (forgedInode, s) := by
    rw [ensureBlock, if_neg (by rw [hptr₀]; decide)]
  obtain ⟨s₁, hs₁⟩ : ∃ s₁, storeBlock forgedInode 0 s 0 (List.replicate 4096 0) = s₁ := ⟨_, rfl⟩
  have hlayout₁ : s₁.Layout := hs₁ ▸ Fs.layout_disk hlayout _
  have hdisk₁ : s₁.disk = bioWrite s.disk 2 ((bioRead s.disk 2).write 0 (List.replicate 4096 0)) := by
    rw [← hs₁, storeBlock, hptr₀]
  have hbitmap : bioRead s₁.disk 2 0 = 0 := by
    rw [hdisk₁, bioRead_bioWrite_same (by decide), write_zeros, if_pos (by decide)]
  -- the second is block 0
  have hret := getAvailBlkno_cleared hlayout₁ hbitmap
  obtain ⟨s₂, hs₂⟩ : ∃ s₂, (getAvailBlkno s₁).2 = s₂ := ⟨_, rfl⟩
  have hlayout₂ : s₂.Layout := hs₂ ▸ Fs.layout_getAvailBlkno hlayout₁
  have hdisk₂ (c : ℤ) (hc : 2 ≠ c) : bioRead s₂.disk c = bioRead s₁.disk c := by
    rw [← hs₂, (getAvailBlkno_disk s₁).2, hlayout₁.dBitmapBlk]
    split
    · exact bioRead_bioWrite_of_ne hc
    · rfl
  have hgot₁ : ensureBlock forgedInode 1 s₁ = (clearedInode, s₂) := by
    rw [ensureBlock, if_pos hptr₁]
    dsimp only
    rw [hret, hs₂, clearedInode]
  obtain ⟨s₃, hs₃⟩ : ∃ s₃, storeBlock clearedInode 1 s₂ 0 (List.replicate 24 0) = s₃ := ⟨_, rfl⟩
  have hptr₂ : clearedInode.ptr 1 = 0 := Inode.ptr_setPtr_same (by decide) (by decide)
  have hdisk₃ : s₃.disk = bioWrite s₂.disk 0 ((bioRead s₂.disk 0).write 0 (List.replicate 24 0)) := by
    rw [← hs₃, storeBlock, hptr₂]
  refine ⟨s₃, ?_, hs₃ ▸ Fs.layout_disk hlayout₂ _, ?_, fun c h0 h2 => ?_⟩
  · have hleft : DIRECT_PTRS - 0 / 4096 = 14 + 1 + 1 := rfl
    have hblk : 0 / 4096 = 0 := rfl
    have hmin : min 4120 (4096 - 0 % 4096) = 4096 := rfl
    have hmin' : min (4120 - 4096) (4096 - 0 % 4096) = 24 := rfl
    rw [hleft, hblk, writeLoop_block (by decide) hgot₀, hmin, List.drop_zero, List.take_replicate]
    have hmin₁ : min 4096 4120 = 4096 := rfl
    rw [hmin₁, Nat.zero_mod, hs₁, Nat.zero_add, Nat.zero_add, writeLoop_block (by decide) hgot₁,
      hmin', List.drop_replicate, List.take_replicate]
    have hmin₂ : min 24 (4120 - 4096) = 24 := rfl
    rw [hmin₂, Nat.zero_mod, hs₃, writeLoop_end (Or.inr rfl)]
  · rw [hdisk₃, bioRead_bioWrite_same (by decide), hdisk₂ 0 (by decide), hdisk₁,
      bioRead_bioWrite_of_ne (by decide)]
  · rw [hdisk₃, bioRead_bioWrite_of_ne h0.symm, hdisk₂ c h2.symm, hdisk₁,
      bioRead_bioWrite_of_ne h2.symm]

/-- The bitmap and the superblock overwritten through the forged inode. -/
theorem Forged.clear (h : Forged s) (hinode : readi s 1032 = forgedInode) (times : Times) :
    ∃ s', rufsWrite s slashX (List.replicate 4120 0) 4120 0 times = some (((4120 : ℕ) : ℤ), s') ∧
      Forged s' ∧ bioRead s'.disk 0 = (bioRead s.disk 0).write 0 (List.replicate 24 0) := by
  have hlayout := h.layout
  have hget := h.getNodeByPath_eq
  rw [hinode] at hget
  obtain ⟨s₃, hloop, hlayout₃, hzero, hkept⟩ := writeLoop_clear hlayout
  have hcall := rufsWrite_of_loop times hget (by decide) (by decide)
    (by rw [List.length_replicate]) hloop
  obtain ⟨hbounded, hino, -, -, -⟩ := writtenInode_spec clearedInode_bounded 4120 times
  obtain ⟨inode, hinode'⟩ : ∃ inode, writtenInode clearedInode 4120 times = inode := ⟨_, rfl⟩
  have hino₁ : Inode.ino.get clearedInode 0 = 1032 := by
    rw [clearedInode, Inode.get_setPtr (by decide) (by decide)]
    decide
  rw [hinode', hino₁] at hino
  rw [hinode', hino] at hcall
  -- the inode lies in block 67, behind the entries of the root directory
  have hblk : inodeBlk s₃ 1032 = 67 := by rw [Fs.inodeBlk_eq hlayout₃]
  have hdisk : (writei s₃ 1032 inode).disk = bioWrite s₃.disk 67
      ((bioRead s₃.disk 67).copy 2048 inode 0 256) := by
    rw [Fs.disk_writei, hblk]
    rfl
  have hsame (c : ℤ) (h0 : c ≠ 0) (h2 : c ≠ 2) (h67 : c ≠ 67) :
      bioRead (writei s₃ 1032 inode).disk c = bioRead s.disk c := by
    rw [hdisk, bioRead_bioWrite_of_ne h67.symm, hkept c h0 h2]
  have hroot (x : ℕ) (hx : x < 2048) :
      bioRead (writei s₃ 1032 inode).disk 67 x = bioRead s.disk 67 x := by
    rw [hdisk, bioRead_bioWrite_same (by decide), Bytes.copy_apply_of_notMem (Or.inl hx),
      hkept 67 (by decide) (by decide)]
  have hlayout₄ := Fs.layout_writei hlayout₃ 1032 inode
  have hread : readi (writei s₃ 1032 inode) 0 = readi s 0 := by
    rw [readi, readi, Fs.inodeBlk_eq hlayout₄, Fs.inodeBlk_eq hlayout,
      hsame _ (by decide) (by decide) (by decide)]
  have hslot {j : ℕ} {e : Name × ℕ} (hslot : SlotHolds (bioRead s.disk 67) j (some e)) (hj : j < 3)
      (he : Stored e.1) : SlotHolds (bioRead (writei s₃ 1032 inode).disk 67) j (some e) := by
    refine hslot.congr (fun x _ hx => hroot x ?_) fun e' he' => by cases he'; exact he.2
    simp only [slotAddr, DIRENT_BYTES] at hx
    omega
  refine ⟨_, hcall, ⟨hlayout₄, ?_, ?_, hslot h.dot (by decide) (by decide),
    hslot h.dotdot (by decide) (by decide), hslot h.forged (by decide) (by decide)⟩, ?_⟩
  · rw [hread]
    exact h.valid
  · rw [hread]
    exact h.ptr
  · rw [hdisk, bioRead_bioWrite_of_ne (by decide), hzero]

/-- A process that finds nothing in block 0 finds no file. -/
theorem rufsGetattr_blank {disk : Disk} (hblank : bioRead disk 0 = fun _ => 0) :
    rufsGetattr (rufsInit disk) slashX = .error (-ENOENT) := by
  have hstart : (rufsInit disk).iStartBlk = 0 := by
    rw [Fs.iStartBlk, rufsInit]
    dsimp only
    rw [hblank]
    exact Field.get_of_zero fun k _ _ => by simp [Bytes.copy]
  have hread : readi (rufsInit disk) 0 = fun _ => 0 := by
    have hblk : inodeBlk (rufsInit disk) 0 = 0 := by
      rw [inodeBlk, hstart]
      rfl
    have hdisk : (rufsInit disk).disk = disk := rfl
    rw [readi, hblk, hdisk, Nat.cast_zero, hblank]
    funext x
    simp [Bytes.copy]
  have hfind : dirFind (rufsInit disk) 0 [120] = none := by
    rw [dirFind, hread, if_pos (Field.get_of_zero fun _ _ _ => rfl)]
  have htok : strtokAll slashX = [[120]] := by decide
  have hroot : (rufsInit disk).rootDirIno = 0 := rfl
  rw [rufsGetattr, getNodeByPath, if_neg (by decide), hroot, htok, walk, hfind]
  rfl

/-- The root rewritten, and a file that a restart makes disappear. -/
theorem restart_shows : ∃ s, rufsMkfs (fun _ => 0) ⟨0, 0⟩ = some s ∧
    outcome [.request (.call (.write [SLASH] forgery 1876 428 ⟨0, 0⟩)),
      .request (.call (.write slashX (List.replicate 4120 0) 4120 0 ⟨0, 0⟩)), .restart,
      .request (.getattr slashX)] s ≠
    outcome [.request (.call (.write [SLASH] forgery 1876 428 ⟨0, 0⟩)),
      .request (.call (.write slashX (List.replicate 4120 0) 4120 0 ⟨0, 0⟩)),
      .request (.getattr slashX)] s := by
  obtain ⟨s, s₁, hs, hcall₁, hforged₁, hinode, hzero⟩ := exists_forgery (fun _ => 0) ⟨0, 0⟩
  obtain ⟨s₂, hcall₂, hforged₂, hzero₂⟩ := hforged₁.clear hinode ⟨0, 0⟩
  have hblank : bioRead s₂.disk 0 = fun _ => 0 := by
    rw [hzero₂, hzero]
    funext x
    by_cases hx : x < 24
    · rw [write_zeros, if_pos hx]
    · rw [write_zeros, if_neg hx, superblockBlock,
        Bytes.copy_apply_of_notMem (by have hbytes : Superblock.bytes = 24 := rfl; omega)]
  have hbefore : rufsGetattr s₂ slashX = .ok (Inode.stSize.set (readi s₂ 1032) 0
      (Inode.size.get (readi s₂ 1032) 0)) := by
    rw [rufsGetattr, hforged₂.getNodeByPath_eq]
  have hafter : rufsGetattr (rufsInit (rufsDestroy s₂)) slashX = .error (-ENOENT) :=
    rufsGetattr_blank hblank
  refine ⟨s, hs, fun heq => ?_⟩
  simp only [outcome, play, Request.exec, Call.exec, hcall₁, hcall₂, Option.map_some, Option.bind_some,
    hbefore, hafter, Except.map, Option.some.injEq, Prod.mk.injEq, List.cons.injEq, Answer.stat.injEq,
    reduceCtorEq, false_and, and_false] at heq

end UserLevelOs.Files
