import UserLevelOs.Files.Calls

/-!
# What the disk stores

The disk as four tables: the inodes, the data blocks, and the flags of the two bitmaps.
Where they lie is settled here once; every function that touches the disk is an update of
one table, and later files speak of the tables only.

## Main definitions

* `Fs.Layout` — the superblock is the one `rufs_mkfs` writes.
* `Store`, `Fs.store` — the four tables.
* `Inode.Bounded` — an inode that fits its slot of the table.
-/

namespace UserLevelOs.Files

open UserLevelOs.Lib

/-! ## The block device -/

section Device

variable {disk : Disk} {buf : Bytes} {b c : ℤ} {n m : ℕ}

theorem bioRead_natCast (h : n < 2 ^ 19) : bioRead disk n = disk n := by
  have hin : InFile (n : ℤ) := ⟨by omega, by omega⟩
  rw [bioRead, if_pos hin, Int.toNat_natCast]

theorem bioWrite_natCast (h : n < 2 ^ 19) : bioWrite disk n buf = Function.update disk n buf := by
  have hin : InFile (n : ℤ) := ⟨by omega, by omega⟩
  rw [bioWrite, if_pos hin, Int.toNat_natCast]

theorem bioRead_bioWrite_same (h : InFile b) : bioRead (bioWrite disk b buf) b = buf := by
  rw [bioRead, if_pos h, bioWrite, if_pos h, Function.update_self]

theorem bioRead_bioWrite_of_ne (h : b ≠ c) :
    bioRead (bioWrite disk b buf) c = bioRead disk c := by
  by_cases hb : InFile b
  · by_cases hc : InFile c
    · have hne : c.toNat ≠ b.toNat := by
        obtain ⟨hb, -⟩ := hb
        obtain ⟨hc, -⟩ := hc
        omega
      rw [bioRead, bioRead, if_pos hc, if_pos hc, bioWrite, if_pos hb, Function.update_of_ne hne]
    · rw [bioRead, bioRead, if_neg hc, if_neg hc]
  · rw [bioWrite, if_neg hb]

end Device

/-! ## The tables -/

/-- An inode as bytes has nothing behind its last field. -/
def Inode.Bounded (inode : Inode) : Prop := ∀ x, 256 ≤ x → inode x = 0

/-- The inodes by number, the data blocks by number, and the flags of the bitmaps. -/
@[ext] structure Store where
  inodes : ℕ → Inode
  blocks : ℤ → Bytes
  inodeUsed : ℕ → Bool
  blockUsed : ℕ → Bool

namespace Store

def setInode (st : Store) (i : ℕ) (inode : Inode) : Store :=
  { st with inodes := Function.update st.inodes i inode }

def setBlock (st : Store) (b : ℤ) (buf : Bytes) : Store :=
  { st with blocks := Function.update st.blocks b buf }

def useInode (st : Store) (i : ℕ) : Store :=
  { st with inodeUsed := Function.update st.inodeUsed i true }

def useBlock (st : Store) (b : ℕ) : Store :=
  { st with blockUsed := Function.update st.blockUsed b true }

section Updates

variable (st : Store) (i : ℕ) (inode inode' : Inode) (b : ℤ) (buf : Bytes) (n : ℕ)

@[simp] theorem blocks_setInode : (st.setInode i inode).blocks = st.blocks := rfl

@[simp] theorem inodeUsed_setInode : (st.setInode i inode).inodeUsed = st.inodeUsed := rfl

@[simp] theorem blockUsed_setInode : (st.setInode i inode).blockUsed = st.blockUsed := rfl

@[simp] theorem inodes_setBlock : (st.setBlock b buf).inodes = st.inodes := rfl

@[simp] theorem inodeUsed_setBlock : (st.setBlock b buf).inodeUsed = st.inodeUsed := rfl

@[simp] theorem blockUsed_setBlock : (st.setBlock b buf).blockUsed = st.blockUsed := rfl

@[simp] theorem inodes_useInode : (st.useInode n).inodes = st.inodes := rfl

@[simp] theorem blocks_useInode : (st.useInode n).blocks = st.blocks := rfl

@[simp] theorem blockUsed_useInode : (st.useInode n).blockUsed = st.blockUsed := rfl

@[simp] theorem inodes_useBlock : (st.useBlock n).inodes = st.inodes := rfl

@[simp] theorem blocks_useBlock : (st.useBlock n).blocks = st.blocks := rfl

@[simp] theorem inodeUsed_useBlock : (st.useBlock n).inodeUsed = st.inodeUsed := rfl

theorem blockUsed_useBlock : (st.useBlock n).blockUsed = Function.update st.blockUsed n true := rfl

theorem inodeUsed_useInode : (st.useInode n).inodeUsed = Function.update st.inodeUsed n true := rfl

@[simp] theorem inodes_setInode_same : (st.setInode i inode).inodes i = inode := by
  simp [setInode]

theorem inodes_setInode_of_ne {j : ℕ} (h : j ≠ i) :
    (st.setInode i inode).inodes j = st.inodes j := by
  simp [setInode, Function.update_of_ne h]

@[simp] theorem blocks_setBlock_same : (st.setBlock b buf).blocks b = buf := by
  simp [setBlock]

theorem blocks_setBlock_of_ne {c : ℤ} (h : c ≠ b) :
    (st.setBlock b buf).blocks c = st.blocks c := by
  simp [setBlock, Function.update_of_ne h]

@[simp] theorem setInode_setInode :
    (st.setInode i inode).setInode i inode' = st.setInode i inode' := by
  simp [setInode]

@[simp] theorem setInode_self : st.setInode i (st.inodes i) = st := by
  simp [setInode]

theorem setInode_setBlock :
    (st.setBlock b buf).setInode i inode = (st.setInode i inode).setBlock b buf := rfl

theorem setInode_useBlock :
    (st.useBlock n).setInode i inode = (st.setInode i inode).useBlock n := rfl

end Updates

end Store

namespace Fs

/-- The superblock and the root are those of `rufs_mkfs`. -/
structure Layout (s : Fs) : Prop where
  iBitmapBlk : s.iBitmapBlk = 1
  dBitmapBlk : s.dBitmapBlk = 2
  iStartBlk : s.iStartBlk = 3
  rootDirIno : s.rootDirIno = 0

/-- The four tables of a disk. -/
def store (s : Fs) : Store where
  inodes i := if i < 1024 then readi s i else fun _ => 0
  blocks b := if 67 ≤ b then bioRead s.disk b else fun _ => 0
  inodeUsed := Bitmap.get .lsbFirst (bioRead s.disk 1)
  blockUsed := Bitmap.get .lsbFirst (bioRead s.disk 2)

theorem Layout.congr {s s' : Fs} (hs : s.Layout) (hsb : s'.superblock = s.superblock)
    (hroot : s'.rootDirIno = s.rootDirIno) : s'.Layout where
  iBitmapBlk := by rw [← hs.iBitmapBlk, Fs.iBitmapBlk, Fs.iBitmapBlk, hsb]
  dBitmapBlk := by rw [← hs.dBitmapBlk, Fs.dBitmapBlk, Fs.dBitmapBlk, hsb]
  iStartBlk := by rw [← hs.iStartBlk, Fs.iStartBlk, Fs.iStartBlk, hsb]
  rootDirIno := by rw [hroot, hs.rootDirIno]

variable {s s' : Fs} {i j : ℕ} {inode : Inode} {b : ℤ} {buf : Bytes} {r : ℤ}

theorem readi_eq (hi : i < 1024) : readi s i = s.store.inodes i := by
  simp [store, hi]

theorem bioRead_eq (hb : 67 ≤ b) : bioRead s.disk b = s.store.blocks b := by
  simp only [store, if_pos hb]

theorem bounded_readi (s : Fs) (i : ℕ) : (readi s i).Bounded := fun x hx => by
  rw [readi, Bytes.copy_apply_of_notMem (Or.inr (by simpa using hx))]

theorem bounded_inodes (s : Fs) (i : ℕ) : (s.store.inodes i).Bounded := by
  by_cases hi : i < 1024
  · rw [← readi_eq hi]
    exact bounded_readi s i
  · intro x _
    simp [store, hi]

/-! ## Updates of one table -/

theorem inodeBlk_eq (hs : s.Layout) (i : ℕ) : inodeBlk s i = i / 16 + 3 := by
  simp only [inodeBlk, hs.iStartBlk, INODE_BYTES, BLOCK_SIZE]
  omega

theorem inodeBlk_lt (hs : s.Layout) (hi : i < 1024) : inodeBlk s i < 67 := by
  rw [inodeBlk_eq hs]
  omega

theorem disk_writei (s : Fs) (i : ℕ) (inode : Inode) :
    (writei s i inode).disk = bioWrite s.disk (inodeBlk s i)
      ((bioRead s.disk (inodeBlk s i)).copy (inodeOffset i) inode 0 INODE_BYTES) := by
  unfold writei
  dsimp only

@[simp] theorem superblock_writei (s : Fs) (i : ℕ) (inode : Inode) :
    (writei s i inode).superblock = s.superblock := by
  unfold writei
  rfl

@[simp] theorem inodeBitmap_writei (s : Fs) (i : ℕ) (inode : Inode) :
    (writei s i inode).inodeBitmap = s.inodeBitmap := by
  unfold writei
  rfl

@[simp] theorem dataBlockBitmap_writei (s : Fs) (i : ℕ) (inode : Inode) :
    (writei s i inode).dataBlockBitmap = s.dataBlockBitmap := by
  unfold writei
  rfl

@[simp] theorem rootDirIno_writei (s : Fs) (i : ℕ) (inode : Inode) :
    (writei s i inode).rootDirIno = s.rootDirIno := by
  unfold writei
  rfl

@[simp] theorem allocs_writei (s : Fs) (i : ℕ) (inode : Inode) :
    (writei s i inode).allocs = s.allocs := by
  unfold writei
  rfl

theorem layout_writei (hs : s.Layout) (i : ℕ) (inode : Inode) : (writei s i inode).Layout :=
  hs.congr (superblock_writei s i inode) (rootDirIno_writei s i inode)

theorem layout_disk (hs : s.Layout) (disk : Disk) : ({ s with disk } : Fs).Layout :=
  hs.congr rfl rfl

@[simp] theorem allocs_disk (s : Fs) (disk : Disk) : ({ s with disk } : Fs).allocs = s.allocs := rfl

/-- Writing one inode leaves the others alone, also those in the same block. -/
theorem readi_writei (hs : s.Layout) (hi : i < 1024) (hj : j < 1024)
    (hb : inode.Bounded) :
    readi (writei s i inode) j = if j = i then inode else readi s j := by
  have hbi : inodeBlk s i < 2 ^ 19 := by have := inodeBlk_lt hs hi; omega
  have hbj : inodeBlk s j < 2 ^ 19 := by have := inodeBlk_lt hs hj; omega
  have hblk : inodeBlk (writei s i inode) j = inodeBlk s j := by
    rw [inodeBlk, inodeBlk, iStartBlk, iStartBlk, superblock_writei]
  have hj' : readi s j = Bytes.copy (fun _ => 0) 0 (s.disk (inodeBlk s j)) (inodeOffset j)
      256 := by rw [readi, bioRead_natCast hbj]
  rw [readi, hblk, bioRead_natCast hbj, disk_writei, bioWrite_natCast hbi, bioRead_natCast hbi, hj']
  rw [inodeBlk_eq hs, inodeBlk_eq hs]
  simp only [INODE_BYTES]
  funext x
  by_cases hx : x < 256
  · have hadd : inodeOffset j + (x - 0) = inodeOffset j + x := by omega
    rw [Bytes.copy_apply_of_mem (by omega) (by omega), hadd]
    by_cases hji : j = i
    · subst hji
      rw [if_pos rfl, Function.update_self,
        Bytes.copy_apply_of_mem (by omega) (by omega)]
      congr 1
      omega
    · rw [if_neg hji, Bytes.copy_apply_of_mem (by omega) (by omega), hadd]
      by_cases hsame : j / 16 + 3 = i / 16 + 3
      · rw [hsame, Function.update_self]
        refine Bytes.copy_apply_of_notMem ?_
        simp only [inodeOffset, INODE_BYTES, BLOCK_SIZE]
        omega
      · rw [Function.update_of_ne hsame]
  · have hx : 256 ≤ x := by omega
    rw [Bytes.copy_apply_of_notMem (by omega)]
    split
    · exact (hb x hx).symm
    · rw [Bytes.copy_apply_of_notMem (by omega)]

theorem store_writei (hs : s.Layout) (hi : i < 1024) (hb : inode.Bounded) :
    (writei s i inode).store = s.store.setInode i inode := by
  have hblk := inodeBlk_eq hs i
  have hne (c : ℤ) (hc : c < 3 ∨ 67 ≤ c) :
      bioRead (writei s i inode).disk c = bioRead s.disk c := by
    rw [disk_writei]
    refine bioRead_bioWrite_of_ne ?_
    rw [hblk]
    omega
  ext1
  · funext j
    by_cases hj : j < 1024
    · rw [← readi_eq hj, readi_writei hs hi hj hb]
      by_cases hji : j = i
      · rw [if_pos hji, hji, Store.inodes_setInode_same]
      · rw [if_neg hji, Store.inodes_setInode_of_ne _ _ _ hji, readi_eq hj]
    · have hji : j ≠ i := by omega
      rw [Store.inodes_setInode_of_ne _ _ _ hji]
      simp [store, hj]
  · funext c
    simp only [store, Store.blocks_setInode]
    split
    · next hc => exact hne c (Or.inr hc)
    · rfl
  · simp only [store, Store.inodeUsed_setInode, hne 1 (by omega)]
  · simp only [store, Store.blockUsed_setInode, hne 2 (by omega)]

theorem store_bioWrite {d : Bytes} (hs : s.Layout) (hb : 67 ≤ b) (hb' : b < 16384) :
    ({ s with disk := bioWrite s.disk b d } : Fs).store = s.store.setBlock b d := by
  have hin : InFile b := ⟨by omega, by omega⟩
  have hne (c : ℤ) (hc : c < 67) :
      bioRead (bioWrite s.disk b d) c = bioRead s.disk c :=
    bioRead_bioWrite_of_ne (by omega)
  ext1
  · funext j
    by_cases hj : j < 1024
    · have hblk := inodeBlk_lt hs hj
      have hread : readi { s with disk := bioWrite s.disk b d } j = readi s j := by
        rw [readi, readi]
        change Bytes.copy _ _ (bioRead (bioWrite s.disk b d) (inodeBlk s j)) _ _ = _
        rw [hne _ (by omega)]
      rw [← readi_eq hj, Store.inodes_setBlock, ← readi_eq hj, hread]
    · simp [store, hj]
  · funext c
    by_cases hc : 67 ≤ c
    · rw [← bioRead_eq hc]
      by_cases hcb : c = b
      · rw [hcb, bioRead_bioWrite_same hin, Store.blocks_setBlock_same]
      · rw [bioRead_bioWrite_of_ne (Ne.symm hcb), Store.blocks_setBlock_of_ne _ _ _ hcb,
          bioRead_eq hc]
    · have hcb : c ≠ b := by omega
      rw [Store.blocks_setBlock_of_ne _ _ _ hcb]
      simp [store, hc]
  · simp only [store, Store.inodeUsed_setBlock, hne 1 (by omega)]
  · simp only [store, Store.blockUsed_setBlock, hne 2 (by omega)]

end Fs

/-! ## Allocation -/

/-- A bitmap without a clear flag stays as it is; otherwise the first clear flag is
raised. -/
theorem takeFree_spec (bitmap : Bytes) (n : ℕ) :
    (takeFree bitmap n = (-1, bitmap) ∧ ∀ i < n, Bitmap.get .lsbFirst bitmap i = true) ∨
      ∃ i < n, Bitmap.get .lsbFirst bitmap i = false ∧
        (∀ j < i, Bitmap.get .lsbFirst bitmap j = true) ∧
        takeFree bitmap n = ((i : ℤ), Bitmap.set .lsbFirst bitmap i) := by
  rw [takeFree]
  cases hscan : scan (Bitmap.get .lsbFirst bitmap) 0 n with
  | none => exact Or.inl ⟨rfl, fun i hi => scan_eq_none.mp hscan i (Nat.zero_le i) (by omega)⟩
  | some i =>
    obtain ⟨-, hi, hclear, hbefore⟩ := scan_eq_some.mp hscan
    exact Or.inr ⟨i, by omega, hclear, fun j hj => hbefore j (Nat.zero_le j) hj, rfl⟩

/-- Copying out the first bytes of a bitmap, taking a flag, and copying them back is taking
the flag in place. -/
theorem get_takeFree {bitmap bytes : Bytes} {n i p : ℕ} (hn : i < 8 * n) :
    Bitmap.get .lsbFirst (Bytes.copy bytes 0
      (Bitmap.set .lsbFirst (Bytes.copy bitmap 0 bytes 0 n) i) 0 n) p =
        (decide (p = i) || Bitmap.get .lsbFirst bytes p) := by
  have hcopy (src : Bytes) : Bytes.copy bytes 0 src 0 n = fun x => if x < n then src x else bytes x := by
    funext x
    simp [Bytes.copy]
  by_cases hp : p < 8 * n
  · have hbyte : Bytes.copy bytes 0 (Bitmap.set .lsbFirst (Bytes.copy bitmap 0 bytes 0 n) i) 0 n
        (p / 8) = Bitmap.set .lsbFirst bytes i (p / 8) := by
      rw [Bytes.copy_apply_of_mem (by omega) (by omega)]
      have hi : Bytes.copy bitmap 0 bytes 0 n (i / 8) = bytes (i / 8) := by
        rw [Bytes.copy_apply_of_mem (by omega) (by omega)]
        simp
      have hq : Bytes.copy bitmap 0 bytes 0 n (p / 8) = bytes (p / 8) := by
        rw [Bytes.copy_apply_of_mem (by omega) (by omega)]
        simp
      rw [Bitmap.set, Bitmap.set, hi]
      simp only [Nat.sub_zero, Nat.zero_add, Function.update_apply, hq]
    rw [← Bitmap.get_set, Bitmap.get, hbyte, Bitmap.get]
  · have hpi : p ≠ i := by omega
    have hbyte : Bytes.copy bytes 0 (Bitmap.set .lsbFirst (Bytes.copy bitmap 0 bytes 0 n) i) 0 n
        (p / 8) = bytes (p / 8) := Bytes.copy_apply_of_notMem (by omega)
    rw [Bitmap.get, hbyte]
    simp [hpi, Bitmap.get]

namespace Fs

variable {s s' : Fs} {r : ℤ}

/-- The tables of inodes and data blocks lie behind the bitmaps. -/
theorem tables_congr (hs : s.Layout) (hs' : s'.Layout)
    (h : ∀ c : ℤ, 3 ≤ c → bioRead s'.disk c = bioRead s.disk c) :
    s'.store.inodes = s.store.inodes ∧ s'.store.blocks = s.store.blocks := by
  constructor
  · funext i
    simp only [store]
    split
    · rw [readi, readi, inodeBlk_eq hs, inodeBlk_eq hs', h _ (by omega)]
    · rfl
  · funext b
    simp only [store]
    split
    · next hb => exact h b (by omega)
    · rfl

section Equations

variable {bitmap : Bytes}

theorem getAvailIno_eq (h : takeFree (s.inodeBitmap.copy 0 (bioRead s.disk s.iBitmapBlk) 0
      INODE_BITMAP_BYTES) MAX_INUM = (r, bitmap)) :
    getAvailIno s = (r, { s with
      disk :=
        if 0 ≤ r then
          bioWrite s.disk s.iBitmapBlk
            ((bioRead s.disk s.iBitmapBlk).copy 0 bitmap 0 INODE_BITMAP_BYTES)
        else s.disk
      inodeBitmap := bitmap
      allocs := r :: s.allocs }) := by
  rw [getAvailIno, h]

theorem getAvailBlkno_eq (h : takeFree (s.dataBlockBitmap.copy 0 (bioRead s.disk s.dBitmapBlk) 0
      DATA_BLOCK_BITMAP_BYTES) MAX_DNUM = (r, bitmap)) :
    getAvailBlkno s = (r, { s with
      disk :=
        if 0 ≤ r then
          bioWrite s.disk s.dBitmapBlk
            ((bioRead s.disk s.dBitmapBlk).copy 0 bitmap 0 DATA_BLOCK_BITMAP_BYTES)
        else s.disk
      dataBlockBitmap := bitmap
      allocs := r :: s.allocs }) := by
  rw [getAvailBlkno, h]

end Equations

/-- The flags of the bitmap in memory are those on the disk. -/
theorem inodeFlag (hs : s.Layout) {p : ℕ} (hp : p < 1024) : Bitmap.get .lsbFirst
    (s.inodeBitmap.copy 0 (bioRead s.disk s.iBitmapBlk) 0 INODE_BITMAP_BYTES) p = s.store.inodeUsed p := by
  have hmem : p / 8 < INODE_BITMAP_BYTES := Nat.div_lt_of_lt_mul hp
  rw [hs.iBitmapBlk, Nat.cast_one, Bitmap.get, Bytes.copy_apply_of_mem (by omega) (by omega)]
  simp [store, Bitmap.get]

/-- Allocation fails when all the inode numbers are taken. -/
theorem getAvailIno_exhausted (hs : s.Layout) (h : (getAvailIno s).1 = -1) :
    ∀ i < 1024, s.store.inodeUsed i = true := by
  rcases takeFree_spec (s.inodeBitmap.copy 0 (bioRead s.disk s.iBitmapBlk) 0 INODE_BITMAP_BYTES) MAX_INUM with
    ⟨-, hall⟩ | ⟨i, -, -, -, htake⟩
  · intro i hi
    rw [← inodeFlag hs hi]
    exact hall i hi
  · rw [getAvailIno_eq htake] at h
    exact absurd h (by omega)

@[simp] theorem allocs_getAvailIno (s : Fs) :
    (getAvailIno s).2.allocs = (getAvailIno s).1 :: s.allocs := by
  rcases htake : takeFree (s.inodeBitmap.copy 0 (bioRead s.disk s.iBitmapBlk) 0 INODE_BITMAP_BYTES) MAX_INUM with
    ⟨r, bitmap⟩
  rw [getAvailIno_eq htake]

theorem layout_getAvailIno (hs : s.Layout) : (getAvailIno s).2.Layout := by
  rcases htake : takeFree (s.inodeBitmap.copy 0 (bioRead s.disk s.iBitmapBlk) 0 INODE_BITMAP_BYTES) MAX_INUM with
    ⟨r, bitmap⟩
  rw [getAvailIno_eq htake]
  exact hs.congr rfl rfl

/-- An inode number that is handed out was free. -/
theorem getAvailIno_spec (hs : s.Layout) (h : (getAvailIno s).1 ≠ -1) :
    ∃ i : ℕ, i < 1024 ∧ (getAvailIno s).1 = i ∧ s.store.inodeUsed i = false ∧
      (∀ j < i, s.store.inodeUsed j = true) ∧ (getAvailIno s).2.store = s.store.useInode i := by
  have hlayout := layout_getAvailIno hs
  rcases takeFree_spec (s.inodeBitmap.copy 0 (bioRead s.disk s.iBitmapBlk) 0 INODE_BITMAP_BYTES) MAX_INUM with
    ⟨hnone, -⟩ | ⟨i, hi, hclear, hbefore, htake⟩
  · rw [getAvailIno_eq hnone] at h
    exact absurd rfl h
  · have hret : (getAvailIno s).1 = i := by rw [getAvailIno_eq htake]
    have hdisk := congrArg (fun p => p.2.disk) (getAvailIno_eq htake)
    rw [hs.iBitmapBlk, Nat.cast_one, if_pos (Int.natCast_nonneg i)] at hdisk
    have hne (c : ℤ) (hc : 1 ≠ c) : bioRead (getAvailIno s).2.disk c = bioRead s.disk c := by
      rw [hdisk, bioRead_bioWrite_of_ne hc]
    have hused : (getAvailIno s).2.store.inodeUsed = Function.update s.store.inodeUsed i true := by
      funext p
      simp only [store]
      rw [hdisk, bioRead_bioWrite_same ⟨by omega, by omega⟩, get_takeFree hi, Function.update_apply]
      by_cases hp : p = i
      · simp [hp]
      · simp [hp]
    obtain ⟨hinodes, hblocks⟩ := tables_congr hs hlayout fun c hc => hne c (by omega)
    refine ⟨i, hi, hret, ?_, ?_, ?_⟩
    · rw [← inodeFlag hs hi, hclear]
    · intro j hj
      rw [← inodeFlag hs (Nat.lt_trans hj hi), hbefore j hj]
    · ext1
      · exact hinodes
      · exact hblocks
      · exact hused
      · simp only [store, Store.blockUsed_useInode, hne 2 (by omega)]

/-- The flags of the bitmap in memory are those on the disk. -/
theorem blockFlag (hs : s.Layout) {p : ℕ} (hp : p < 16384) : Bitmap.get .lsbFirst
    (s.dataBlockBitmap.copy 0 (bioRead s.disk s.dBitmapBlk) 0 DATA_BLOCK_BITMAP_BYTES) p = s.store.blockUsed p := by
  have hmem : p / 8 < DATA_BLOCK_BITMAP_BYTES := Nat.div_lt_of_lt_mul hp
  rw [hs.dBitmapBlk, Nat.cast_ofNat, Bitmap.get, Bytes.copy_apply_of_mem (by omega) (by omega)]
  simp [store, Bitmap.get]

/-- Allocation fails when all the blocks are taken. -/
theorem getAvailBlkno_exhausted (hs : s.Layout) (h : (getAvailBlkno s).1 = -1) :
    ∀ b < 16384, s.store.blockUsed b = true := by
  rcases takeFree_spec (s.dataBlockBitmap.copy 0 (bioRead s.disk s.dBitmapBlk) 0 DATA_BLOCK_BITMAP_BYTES) MAX_DNUM with
    ⟨-, hall⟩ | ⟨b, -, -, -, htake⟩
  · intro b hb
    rw [← blockFlag hs hb]
    exact hall b hb
  · rw [getAvailBlkno_eq htake] at h
    exact absurd h (by omega)

@[simp] theorem allocs_getAvailBlkno (s : Fs) :
    (getAvailBlkno s).2.allocs = (getAvailBlkno s).1 :: s.allocs := by
  rcases htake : takeFree (s.dataBlockBitmap.copy 0 (bioRead s.disk s.dBitmapBlk) 0 DATA_BLOCK_BITMAP_BYTES) MAX_DNUM with
    ⟨r, bitmap⟩
  rw [getAvailBlkno_eq htake]

theorem layout_getAvailBlkno (hs : s.Layout) : (getAvailBlkno s).2.Layout := by
  rcases htake : takeFree (s.dataBlockBitmap.copy 0 (bioRead s.disk s.dBitmapBlk) 0 DATA_BLOCK_BITMAP_BYTES) MAX_DNUM with
    ⟨r, bitmap⟩
  rw [getAvailBlkno_eq htake]
  exact hs.congr rfl rfl

/-- A block that is handed out was free. -/
theorem getAvailBlkno_spec (hs : s.Layout) (h : (getAvailBlkno s).1 ≠ -1) :
    ∃ b : ℕ, b < 16384 ∧ (getAvailBlkno s).1 = b ∧ s.store.blockUsed b = false ∧
      (∀ j < b, s.store.blockUsed j = true) ∧ (getAvailBlkno s).2.store = s.store.useBlock b := by
  have hlayout := layout_getAvailBlkno hs
  rcases takeFree_spec (s.dataBlockBitmap.copy 0 (bioRead s.disk s.dBitmapBlk) 0 DATA_BLOCK_BITMAP_BYTES) MAX_DNUM with
    ⟨hnone, -⟩ | ⟨b, hb, hclear, hbefore, htake⟩
  · rw [getAvailBlkno_eq hnone] at h
    exact absurd rfl h
  · have hret : (getAvailBlkno s).1 = b := by rw [getAvailBlkno_eq htake]
    have hdisk := congrArg (fun p => p.2.disk) (getAvailBlkno_eq htake)
    rw [hs.dBitmapBlk, Nat.cast_ofNat, if_pos (Int.natCast_nonneg b)] at hdisk
    have hne (c : ℤ) (hc : 2 ≠ c) : bioRead (getAvailBlkno s).2.disk c = bioRead s.disk c := by
      rw [hdisk, bioRead_bioWrite_of_ne hc]
    have hused : (getAvailBlkno s).2.store.blockUsed = Function.update s.store.blockUsed b true := by
      funext p
      simp only [store]
      rw [hdisk, bioRead_bioWrite_same ⟨by omega, by omega⟩, get_takeFree hb, Function.update_apply]
      by_cases hp : p = b
      · simp [hp]
      · simp [hp]
    obtain ⟨hinodes, hblocks⟩ := tables_congr hs hlayout fun c hc => hne c (by omega)
    refine ⟨b, hb, hret, ?_, ?_, ?_⟩
    · rw [← blockFlag hs hb, hclear]
    · intro j hj
      rw [← blockFlag hs (Nat.lt_trans hj hb), hbefore j hj]
    · ext1
      · exact hinodes
      · exact hblocks
      · simp only [store, Store.inodeUsed_useBlock, hne 1 (by omega)]
      · exact hused

end Fs

end UserLevelOs.Files
