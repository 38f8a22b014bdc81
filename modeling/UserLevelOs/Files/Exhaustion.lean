import UserLevelOs.Files.Failures

/-!
# Nothing left to allocate

Both allocators return `-1` when their bitmap is full, and no caller looks.  A name is entered
for inode 65535 then, and `-1` is stored as a pointer to a block; bytes that go to it are
counted and lost.  So a full disk does no harm exactly when nothing has to be allocated.

## Main definitions

* `Fs.Sound` — disks whose pointers lead to data blocks, each to its own.
* `CreatesSafely`, `WritesSafely`, `AddsSafely`.

## Main statements

* `exhaustion_iff`.
* `exhaustion_fails`.
-/

namespace UserLevelOs.Files

open UserLevelOs.Lib

variable {s s' s₁ : Fs} {path buffer : List UInt8} {nodei nodei' nodei₁ : Inode} {i k : ℕ}

/-! ## No inode number left -/

/-- Both creations of `path` return an error and leave the disk alone.  A call that writes past a
block does neither. -/
def CreatesSafely (s : Fs) (path : List UInt8) : Prop :=
  ∀ times, (∃ ret s', rufsMkdir s path times = some (ret, s') ∧ ret < 0 ∧ s'.disk = s.disk) ∧
    ∃ ret s', rufsCreate s path times = some (ret, s') ∧ ret < 0 ∧ s'.disk = s.disk

/-- The slot `dir_add` would fill ends within its block. -/
def SlotFits (s : Fs) (dirInode : Inode) (fname : List UInt8) : Prop :=
  ∃ k slot, findSpot s dirInode = some (k, slot) ∧
    slotAddr (slot.getD 0) + Dirent.name + fname.length < BLOCK_SIZE

/-- `dir_add` has a place for the name in the parent of `path`. -/
def Fs.Admits (s : Fs) (path : List UInt8) : Prop :=
  ∃ nodei, getNodeByPath s (dirname path) s.rootDirIno = some nodei ∧
    HasPlace s nodei (basename path)

/-- `dir_add` succeeds when it has a place the name fits in. -/
theorem dirAdd_of_fits {n l : ℕ} {fname : List UInt8} (hvalid : Inode.valid.get nodei 0 ≠ 0)
    (hdup : hasDuplicate s nodei fname = false) (hfits : SlotFits s nodei fname) :
    ∃ s', dirAdd s nodei n fname l = some (1, s') := by
  obtain ⟨k, slot, hspot, hfits⟩ := hfits
  rw [dirAdd, if_neg hvalid, hdup, if_neg Bool.false_ne_true, hspot]
  cases slot with
  | none =>
    rw [Option.getD_none] at hfits
    dsimp only
    rw [putDirent, if_pos hfits]
    exact ⟨_, rfl⟩
  | some j =>
    rw [Option.getD_some] at hfits
    dsimp only
    rw [putDirent, if_pos hfits]
    exact ⟨_, rfl⟩

/-- A place the name does not fit in is out of bounds. -/
theorem dirAdd_of_not_fits {fIno len : ℕ} {fname : List UInt8} (hplace : HasPlace s nodei fname)
    (hfits : ¬ SlotFits s nodei fname) : dirAdd s nodei fIno fname len = none := by
  obtain ⟨hvalid, hdup, hspot⟩ := hplace
  obtain ⟨⟨k, slot⟩, hspot⟩ := Option.ne_none_iff_exists'.mp hspot
  have hover : ¬ slotAddr (slot.getD 0) + Dirent.name + fname.length < BLOCK_SIZE :=
    fun h => hfits ⟨k, slot, hspot, h⟩
  rw [dirAdd, if_neg hvalid, hdup, if_neg Bool.false_ne_true, hspot]
  cases slot with
  | none =>
    rw [Option.getD_none] at hover
    dsimp only
    rw [putDirent, if_neg hover]
    rfl
  | some j =>
    rw [Option.getD_some] at hover
    dsimp only
    rw [putDirent, if_neg hover]
    rfl

/-- Nothing happens when no inode number is left. -/
theorem Fs.InodesFull.alike (hs : s.Layout) (hfull : s.InodesFull) :
    s.Alike s.superblock s.rootDirIno (getAvailIno s).2 :=
  ⟨((getAvailIno_disk_eq_iff hs).mpr hfull).symm, ⟨rfl, rfl⟩, ⟨rfl, rfl⟩⟩

/-- Looking for a place comes after the inode number. -/
theorem Fs.InodesFull.admits_iff (hs : s.Layout) (hfull : s.InodesFull) (path : List UInt8) :
    s.Admits path ↔ s.Takes path := by
  have halike := hfull.alike hs
  have hplace (nodei : Inode) : HasPlace s nodei (basename path) ↔
      HasPlace (getAvailIno s).2 nodei (basename path) := by
    rw [HasPlace, HasPlace, halike.hasDuplicate_eq, halike.findSpot_eq]
  simp only [Admits, Takes, hplace]

/-- An error of the common part is the error of both calls. -/
theorem createsSafely_of_error {error : ℤ} (h : addToParent s path = some (.inl error, s'))
    (hneg : error < 0) (hdisk : s'.disk = s.disk) : CreatesSafely s path := by
  intro times
  refine ⟨⟨error, s', ?_, hneg, hdisk⟩, error, s', ?_, hneg, hdisk⟩
  · rw [rufsMkdir, h]
    rfl
  · rw [rufsCreate, h]
    rfl

theorem createsSafely_iff (hs : s.Layout) (hfull : s.InodesFull) (path : List UInt8) :
    CreatesSafely s path ↔ ¬ s.Admits path := by
  rw [hfull.admits_iff hs]
  constructor
  · intro hsafe htakes
    obtain ⟨-, ret, s', hcreate, hneg, -⟩ := hsafe ⟨0, 0⟩
    have hcreation : s.Creation path ret s' := ⟨⟨0, 0⟩, Or.inr hcreate⟩
    rcases hcreation.cases with hadd | ⟨hret, -⟩
    · obtain ⟨entry, hadded⟩ := htakes.addToParent_eq hadd
      cases hadded
    · rw [hret] at hneg
      exact absurd hneg (by decide)
  · intro htakes
    by_cases hparent : s.Orphan path
    · exact createsSafely_of_error (addToParent_orphan hparent) (by decide) rfl
    · obtain ⟨error, hrefused, hneg⟩ := addToParent_refused hparent htakes
      exact createsSafely_of_error hrefused hneg ((Fs.getAvailIno_disk_eq_iff hs).mpr hfull)

/-- A name with a place it fits in is entered for whatever number there is. -/
theorem Fs.InodesFull.create (hfull : s.InodesFull) (hs : s.Layout)
    (hget : getNodeByPath s (dirname path) s.rootDirIno = some nodei)
    (hvalid : Inode.valid.get nodei 0 ≠ 0) (hdup : hasDuplicate s nodei (basename path) = false)
    (hfits : SlotFits s nodei (basename path)) : ∃ s', rufsCreate s path ⟨0, 0⟩ = some (0, s') := by
  have halike := hfull.alike hs
  obtain ⟨k, slot, hspot, hfits⟩ := hfits
  rw [halike.hasDuplicate_eq] at hdup
  rw [halike.findSpot_eq] at hspot
  obtain ⟨s₁, hadd⟩ := dirAdd_of_fits (n := ((getAvailIno s).1 % 2 ^ 16).toNat)
    (l := nameLen (basename path)) hvalid hdup ⟨k, slot, hspot, hfits⟩
  have hparent : addToParent s path =
      some (.inr (nodei, ((getAvailIno s).1 % 2 ^ 16).toNat), s₁) := by
    rw [addToParent, hget]
    dsimp only
    rw [hadd]
    rfl
  rw [rufsCreate, hparent]
  exact ⟨_, rfl⟩

/-! ## No block left -/

/-- A block behind the metadata. -/
def IsData (b : ℤ) : Prop := 67 ≤ b ∧ b < 16384

instance (b : ℤ) : Decidable (IsData b) := by unfold IsData; infer_instance

namespace Fs

/-- The bitmap on the disk has no clear flag for a block. -/
def BlocksFull (s : Fs) : Prop :=
  ∀ b < MAX_DNUM, Bitmap.get .lsbFirst (bioRead s.disk s.dBitmapBlk) b = true

/-- Every inode carries its number, and its pointers are null, `-1` or lead to data blocks, each
to its own. -/
structure Sound (s : Fs) : Prop where
  layout : s.Layout
  ino : ∀ i < 1024, Inode.ino.get (readi s i) 0 = i
  ptr : ∀ i < 1024, ∀ k < 16, IsData (s.ptr i k) ∨ s.ptr i k = 0 ∨ s.ptr i k = -1
  once : ∀ i < 1024, ∀ k < 16, ∀ j < 1024, ∀ l < 16, IsData (s.ptr i k) → s.ptr i k = s.ptr j l →
    i = j ∧ k = l

theorem blockUsed_eq (hs : s.Layout) (b : ℕ) :
    Bitmap.get .lsbFirst (bioRead s.disk s.dBitmapBlk) b = s.store.blockUsed b := by
  rw [hs.dBitmapBlk]
  rfl

/-- The allocator of a full disk. -/
theorem BlocksFull.getAvailBlkno (hs : s.Layout) (hfull : s.BlocksFull) :
    (getAvailBlkno s).1 = -1 ∧ (Files.getAvailBlkno s).2.disk = s.disk := by
  have hret : (Files.getAvailBlkno s).1 = -1 := by
    by_contra hret
    obtain ⟨b, hb, -, hclear, -⟩ := getAvailBlkno_spec hs hret
    rw [← blockUsed_eq hs, hfull b hb] at hclear
    cases hclear
  refine ⟨hret, ?_⟩
  rw [(getAvailBlkno_disk s).2, ← (getAvailBlkno_disk s).1, hret, if_neg (by decide)]

end Fs

/-- The pointers of one inode are null, `-1` or lead to data blocks, each to its own. -/
structure Inode.Linked (inode : Inode) : Prop where
  ptr : ∀ k < 16, IsData (inode.ptr k) ∨ inode.ptr k = 0 ∨ inode.ptr k = -1
  once : ∀ k < 16, ∀ l < 16, IsData (inode.ptr k) → inode.ptr k = inode.ptr l → k = l

theorem Fs.Sound.linked (h : s.Sound) (hi : i < 1024) : (readi s i).Linked where
  ptr := h.ptr i hi
  once k hk l hl hdata heq := (h.once i hi k hk i hi l hl hdata heq).2

theorem not_isData_neg_one : ¬ IsData (-1) := fun h => absurd h.1 (by decide)

theorem not_isData_zero : ¬ IsData 0 := fun h => absurd h.1 (by decide)

theorem IsData.inFile {b : ℤ} (h : IsData b) : InFile b := by
  obtain ⟨hlo, hhi⟩ := h
  exact ⟨by omega, by omega⟩

theorem bioWrite_neg_one (disk : Disk) (buf : Bytes) : bioWrite disk (-1) buf = disk := by
  rw [bioWrite, if_neg (by decide)]

/-- A missing block becomes `-1`, for good. -/
theorem Inode.Linked.setPtr (h : nodei.Linked) (k : ℕ) : (nodei.setPtr k (-1)).Linked where
  ptr l hl := by
    by_cases hlk : l = k
    · rw [hlk, Inode.ptr_setPtr_same (by decide) (by decide)]
      exact Or.inr (Or.inr rfl)
    · rw [Inode.ptr_setPtr_of_ne hlk]
      exact h.ptr l hl
  once l hl m hm := by
    by_cases hlk : l = k
    · rw [hlk, Inode.ptr_setPtr_same (by decide) (by decide)]
      exact fun hdata _ => absurd hdata not_isData_neg_one
    · rw [Inode.ptr_setPtr_of_ne hlk]
      intro hdata heq
      by_cases hmk : m = k
      · rw [hmk, Inode.ptr_setPtr_same (by decide) (by decide)] at heq
        rw [heq] at hdata
        exact absurd hdata not_isData_neg_one
      · rw [Inode.ptr_setPtr_of_ne hmk] at heq
        exact h.once l hl m hm hdata heq

/-- The loop of `rufs_write` from block `blkIndex` on gets to block `l`. -/
def Touches (blkIndex start remaining l : ℕ) : Prop :=
  0 < remaining ∧ blkIndex ≤ l ∧ l < 16 ∧ 4096 * (l - blkIndex) < start + remaining

instance (blkIndex start remaining l : ℕ) : Decidable (Touches blkIndex start remaining l) := by
  unfold Touches
  infer_instance

/-- What one round of the loop leaves to the next. -/
theorem touches_step {blkIndex start remaining l : ℕ} (hstart : start < 4096) (hrem : 0 < remaining)
    (hblk : blkIndex < 16) : Touches blkIndex start remaining l ↔
      l = blkIndex ∨ Touches (blkIndex + 1) 0 (remaining - min remaining (4096 - start)) l := by
  simp only [Touches]
  omega

/-- One round on a full disk. -/
structure FullRound (s s₁ : Fs) (nodei nodei₁ : Inode) (k off : ℕ) (bytes : List UInt8) : Prop where
  layout : s₁.Layout
  full : s₁.BlocksFull
  linked : nodei₁.Linked
  ptr : ∀ l, nodei₁.ptr l = if l = k ∧ nodei.ptr k = 0 then -1 else nodei.ptr l
  ino : Inode.ino.get nodei₁ 0 = Inode.ino.get nodei 0
  bounded : nodei₁.Bounded
  disk : s₁.disk = if IsData (nodei.ptr k) then
    bioWrite s.disk (nodei.ptr k) ((bioRead s.disk (nodei.ptr k)).write off bytes) else s.disk

theorem fullRound (hs : s.Layout) (hfull : s.BlocksFull) (hlinked : nodei.Linked)
    (hbounded : nodei.Bounded) (hk : k < 16) (hgot : ensureBlock nodei k s = (nodei₁, s₁)) (off : ℕ)
    (bytes : List UInt8) : FullRound s (storeBlock nodei₁ k s₁ off bytes) nodei nodei₁ k off bytes := by
  obtain ⟨hret, hdisk⟩ := hfull.getAvailBlkno hs
  have hfullDisk (t : Fs) (ht : t.Layout) (hdisk : ∀ c : ℤ, c = 2 → bioRead t.disk c = bioRead s.disk c) :
      t.BlocksFull := by
    intro b hb
    have hflag := hfull b hb
    rw [hs.dBitmapBlk, Nat.cast_ofNat] at hflag
    rw [ht.dBitmapBlk, Nat.cast_ofNat, hdisk 2 rfl, hflag]
  rw [ensureBlock] at hgot
  split at hgot
  · next hnull =>
    rw [Prod.mk.injEq, hret] at hgot
    obtain ⟨hnodei, hs₁⟩ := hgot
    have hptr : nodei₁.ptr k = -1 := by
      rw [← hnodei]
      exact Inode.ptr_setPtr_same (by decide) (by decide)
    have hdisk' : (storeBlock nodei₁ k s₁ off bytes).disk = s.disk := by
      rw [storeBlock]
      dsimp only
      rw [hptr, bioWrite_neg_one, ← hs₁, hdisk]
    have hlayout : (storeBlock nodei₁ k s₁ off bytes).Layout :=
      Fs.layout_disk (hs₁ ▸ Fs.layout_getAvailBlkno hs) _
    refine ⟨hlayout, hfullDisk _ hlayout fun c _ => by rw [hdisk'], ?_, fun l => ?_, ?_, ?_, ?_⟩
    · rw [← hnodei]
      exact hlinked.setPtr k
    · rw [← hnodei]
      by_cases hl : l = k
      · rw [hl, if_pos ⟨rfl, hnull⟩, Inode.ptr_setPtr_same (by decide) (by decide)]
      · rw [if_neg fun h => hl h.1, Inode.ptr_setPtr_of_ne hl]
    · rw [← hnodei, Inode.get_setPtr (by decide) hk]
    · rw [← hnodei]
      exact Inode.bounded_setPtr hk hbounded
    · rw [hdisk', hnull, if_neg not_isData_zero]
  · next hne =>
    rw [Prod.mk.injEq] at hgot
    rw [← hgot.1, ← hgot.2]
    have hlayout : (storeBlock nodei k s off bytes).Layout := Fs.layout_disk hs _
    have hdisk' : (storeBlock nodei k s off bytes).disk = if IsData (nodei.ptr k) then
        bioWrite s.disk (nodei.ptr k) ((bioRead s.disk (nodei.ptr k)).write off bytes) else s.disk := by
      by_cases hdata : IsData (nodei.ptr k)
      · rw [if_pos hdata, storeBlock]
      · have hptr : nodei.ptr k = -1 := ((hlinked.ptr k hk).resolve_left hdata).resolve_left hne
        rw [if_neg hdata, storeBlock]
        dsimp only
        rw [hptr, bioWrite_neg_one]
    refine ⟨hlayout, hfullDisk _ hlayout fun c hc => ?_, hlinked, fun l => ?_, rfl, hbounded, hdisk'⟩
    · rw [hdisk']
      by_cases hdata : IsData (nodei.ptr k)
      · have hne : nodei.ptr k ≠ c := by
          have hlo := hdata.1
          omega
        rw [if_pos hdata, bioRead_bioWrite_of_ne hne]
      · rw [if_neg hdata]
    · rw [if_neg fun h => hne h.2]

/-- The loop of `rufs_write` on a full disk, with `bytes` to be written from `start` in block
`blkIndex` on: what is missing is missing for good, and only the blocks that are there get
their bytes. -/
structure FullLoop (s s' : Fs) (nodei nodei' : Inode) (blkIndex start remaining : ℕ)
    (bytes : List UInt8) : Prop where
  layout : s'.Layout
  ptr : ∀ l, nodei'.ptr l =
    if Touches blkIndex start remaining l ∧ nodei.ptr l = 0 then -1 else nodei.ptr l
  ino : Inode.ino.get nodei' 0 = Inode.ino.get nodei 0
  bounded : nodei'.Bounded
  byte : ∀ l, Touches blkIndex start remaining l → IsData (nodei.ptr l) → ∀ x < 4096,
    start ≤ 4096 * (l - blkIndex) + x → 4096 * (l - blkIndex) + x < start + remaining →
      bioRead s'.disk (nodei.ptr l) x = bytes.getD (4096 * (l - blkIndex) + x - start) 0
  frame : ∀ c, (∀ l, Touches blkIndex start remaining l → IsData (nodei.ptr l) → nodei.ptr l ≠ c) →
    bioRead s'.disk c = bioRead s.disk c

namespace FullLoop

variable {blkIndex off remaining n₀ : ℕ} {bytes : List UInt8}

/-- No round is left. -/
theorem nil (hs : s.Layout) (hbounded : nodei.Bounded)
    (hnone : ∀ l, ¬ Touches blkIndex off remaining l) :
    FullLoop s s nodei nodei blkIndex off remaining bytes where
  layout := hs
  ptr l := by rw [if_neg fun h => hnone l h.1]
  ino := rfl
  bounded := hbounded
  byte l hl := absurd hl (hnone l)
  frame _ _ := rfl

/-- One round, and the others, which leave its block alone. -/
theorem cons (hround : FullRound s s₁ nodei nodei₁ blkIndex off (bytes.take n₀))
    (hn₀ : min remaining (4096 - off) = n₀) (hlinked : nodei.Linked) (hblk : blkIndex < 16)
    (hoff : off < 4096) (hrem : 0 < remaining) (hlen : remaining ≤ bytes.length)
    (hrest : FullLoop s₁ s' nodei₁ nodei' (blkIndex + 1) 0 (remaining - n₀) (bytes.drop n₀)) :
    FullLoop s s' nodei nodei' blkIndex off remaining bytes := by
  have hstep := fun l => touches_step (l := l) hoff hrem hblk
  rw [hn₀] at hstep
  have hlater {l : ℕ} (hl : Touches (blkIndex + 1) 0 (remaining - n₀) l) : l ≠ blkIndex := by
    have hle := hl.2.1
    omega
  have hptr {l : ℕ} (hl : l ≠ blkIndex) : nodei₁.ptr l = nodei.ptr l := by
    rw [hround.ptr, if_neg fun h => hl h.1]
  refine ⟨hrest.layout, fun l => ?_, hrest.ino.trans hround.ino, hrest.bounded, ?_, ?_⟩
  · rw [hrest.ptr]
    by_cases hl : l = blkIndex
    · rw [if_neg fun h => hlater h.1 hl, hround.ptr]
      refine if_congr ?_ rfl rfl
      rw [hstep, hl]
      simp
    · rw [hptr hl]
      refine if_congr ?_ rfl rfl
      rw [hstep]
      simp [hl]
  · intro l hl hdata x hx hlo hhi
    by_cases hlb : l = blkIndex
    · rw [hlb] at hdata hlo hhi ⊢
      have hframe := hrest.frame (nodei.ptr blkIndex) fun l' hl' hdata' heq => by
        rw [hptr (hlater hl')] at hdata' heq
        exact hlater hl' (hlinked.once l' hl'.2.2.1 blkIndex hblk hdata' heq)
      have htake : (bytes.take n₀).length = n₀ := by
        rw [List.length_take]
        omega
      rw [hframe, hround.disk, if_pos hdata, bioRead_bioWrite_same hdata.inFile,
        Bytes.write_apply_of_mem (by omega) (by omega), List.getD_eq_getElem?_getD,
        List.getElem?_take_of_lt (by omega), ← List.getD_eq_getElem?_getD, Nat.sub_self,
        Nat.mul_zero, Nat.zero_add]
    · have hl' := ((hstep l).mp hl).resolve_left hlb
      have hpos := hl'.2
      have hbyte := hrest.byte l hl' (by rw [hptr hlb]; exact hdata) x hx (by omega) (by omega)
      rw [hptr hlb] at hbyte
      have hindex : n₀ + (4096 * (l - (blkIndex + 1)) + x - 0) =
          4096 * (l - blkIndex) + x - off := by omega
      rw [hbyte, List.getD_eq_getElem?_getD, List.getElem?_drop, hindex,
        ← List.getD_eq_getElem?_getD]
  · intro c hc
    rw [hrest.frame c fun l hl hdata => ?_, hround.disk]
    · split
      · next hdata =>
        exact bioRead_bioWrite_of_ne (hc blkIndex ((hstep blkIndex).mpr (Or.inl rfl)) hdata)
      · rfl
    · rw [hptr (hlater hl)] at hdata ⊢
      exact hc l ((hstep l).mpr (Or.inr hl)) hdata

end FullLoop

theorem writeLoop_full (left : ℕ) :
    ∀ {blkIndex offset remaining bytesWritten n : ℕ} {nodei : Inode} {s : Fs}, s.Layout → s.BlocksFull →
      nodei.Linked → nodei.Bounded → left = 16 - blkIndex → bytesWritten + remaining ≤ buffer.length →
      writeLoop buffer left blkIndex offset remaining bytesWritten nodei s = (nodei', n, s') →
      FullLoop s s' nodei nodei' blkIndex (offset % 4096) remaining (buffer.drop bytesWritten) ∧
        n = bytesWritten + min remaining (4096 * left - offset % 4096) := by
  induction left with
  | zero =>
    intro blkIndex offset remaining bytesWritten n nodei s hs _ _ hbounded hleft _ hloop
    rw [writeLoop_end (Or.inl rfl), Prod.mk.injEq, Prod.mk.injEq] at hloop
    obtain ⟨hnodei, hn, hs'⟩ := hloop
    rw [← hnodei, ← hs', ← hn]
    refine ⟨.nil hs hbounded fun l => ?_, by omega⟩
    simp only [Touches]
    omega
  | succ left ih =>
    intro blkIndex offset remaining bytesWritten n nodei s hs hfull hlinked hbounded hleft hlen hloop
    by_cases hrem : remaining = 0
    · rw [writeLoop_end (Or.inr hrem), Prod.mk.injEq, Prod.mk.injEq] at hloop
      obtain ⟨hnodei, hn, hs'⟩ := hloop
      rw [← hnodei, ← hs', ← hn]
      refine ⟨.nil hs hbounded fun l => ?_, by omega⟩
      simp only [Touches]
      omega
    · have hoff : offset % 4096 < 4096 := Nat.mod_lt _ (by decide)
      have hblk : blkIndex < 16 := by omega
      rcases hgot : ensureBlock nodei blkIndex s with ⟨nodei₁, s₁⟩
      rw [writeLoop_block hrem hgot] at hloop
      obtain ⟨n₀, hn₀⟩ : ∃ n₀, min remaining (4096 - offset % 4096) = n₀ := ⟨_, rfl⟩
      rw [hn₀] at hloop
      have hround := fullRound hs hfull hlinked hbounded hblk hgot (offset % 4096)
        ((buffer.drop bytesWritten).take n₀)
      obtain ⟨hrest, hn⟩ := ih hround.layout hround.full hround.linked hround.bounded (by omega)
        (by omega) hloop
      rw [Nat.zero_mod] at hrest hn
      rw [← List.drop_drop] at hrest
      refine ⟨.cons hround hn₀ hlinked hblk hoff (Nat.pos_of_ne_zero hrem) ?_ hrest, by omega⟩
      rw [List.length_drop]
      omega

/-- What a write through inode `i` of a full disk must keep to: no pointer becomes `-1`, the
bytes it counts lie in data blocks of the file, `blkIndex` being the first, and the blocks of
the others are as before. -/
structure WritesSafely (s s' : Fs) (i blkIndex start : ℕ) (bytes : List UInt8) : Prop where
  pointers : ∀ j < 1024, ∀ k < 16, s'.ptr j k = -1 → s.ptr j k = -1
  stored : ∀ p < bytes.length, IsData (s'.ptr i (blkIndex + (start + p) / 4096)) ∧
    bioRead s'.disk (s'.ptr i (blkIndex + (start + p) / 4096)) ((start + p) % 4096) = bytes.getD p 0
  others : ∀ j < 1024, j ≠ i → ∀ k < 16, IsData (s.ptr j k) →
    bioRead s'.disk (s.ptr j k) = bioRead s.disk (s.ptr j k)

theorem IsData.ne_natCast {c : ℤ} {n : ℕ} (h : IsData c) (hn : n < 67) : (n : ℤ) ≠ c := by
  have hlo := h.1
  omega

/-- Every block the loop gets to has a byte that is counted. -/
theorem Touches.exists_byte {blk start rem k : ℕ} (h : Touches blk start rem k) (hstart : start < 4096) :
    ∃ p < min rem (4096 * (16 - blk) - start), blk + (start + p) / 4096 = k := by
  obtain ⟨hpos, hle, hk, hend⟩ := h
  exact ⟨4096 * (k - blk) - start, by omega, by omega⟩

/-- Every byte that is counted lies in a block the loop gets to. -/
theorem touches_of_byte {blk start rem p : ℕ} (hp : p < min rem (4096 * (16 - blk) - start)) :
    Touches blk start rem (blk + (start + p) / 4096) ∧
      start ≤ 4096 * (blk + (start + p) / 4096 - blk) + (start + p) % 4096 ∧
      4096 * (blk + (start + p) / 4096 - blk) + (start + p) % 4096 < start + rem ∧
      4096 * (blk + (start + p) / 4096 - blk) + (start + p) % 4096 - start = p := by
  simp only [Touches]
  omega

section Write

variable {size offset : ℕ} {times : Times} {ret : ℤ}

/-- What `rufs_write` does to a full disk. -/
theorem rufsWrite_full (hs : s.Sound) (hfull : s.BlocksFull) (hi : i < 1024)
    (hget : getNodeByPath s path s.rootDirIno = some (readi s i))
    (hcall : rufsWrite s path buffer size offset times = some (ret, s')) :
    ∃ nodei' s₁, ∃ n : ℕ, FullLoop s s₁ (readi s i) nodei' (toInt (offset / BLOCK_SIZE : ℕ)).toNat
        (offset % 4096) (toInt size).toNat buffer ∧
      n = min (toInt size).toNat (4096 * (16 - (toInt (offset / BLOCK_SIZE : ℕ)).toNat) - offset % 4096) ∧
      (toInt size).toNat ≤ buffer.length ∧ ret = n ∧ s' = writei s₁ i (writtenInode nodei' n times) := by
  rw [rufsWrite, hget] at hcall
  dsimp only at hcall
  split at hcall
  · cases hcall
  · split at hcall
    · cases hcall
    · next hbuffer =>
      rcases hloop : writeLoop buffer (DIRECT_PTRS - (toInt (offset / BLOCK_SIZE : ℕ)).toNat)
        (toInt (offset / BLOCK_SIZE : ℕ)).toNat offset (toInt size).toNat 0 (readi s i) s with
        ⟨nodei', n, s₁⟩
      rw [hloop, Option.some.injEq, Prod.mk.injEq] at hcall
      have hlen : (toInt size).toNat ≤ buffer.length := by omega
      obtain ⟨hspec, hn⟩ := writeLoop_full _ hs.layout hfull (hs.linked hi) (Fs.bounded_readi s i) rfl
        (by omega) hloop
      rw [List.drop_zero] at hspec
      refine ⟨nodei', s₁, n, hspec, by rw [hn, Nat.zero_add], hlen, hcall.1.symm, ?_⟩
      obtain ⟨-, hino, -⟩ := writtenInode_spec hspec.bounded n times
      have hend : writei s₁ (Inode.ino.get (writtenInode nodei' n times) 0) (writtenInode nodei' n times) = s' :=
        hcall.2
      rw [← hend, hino, hspec.ino, hs.ino i hi]

theorem writesSafely_iff (hs : s.Sound) (hfull : s.BlocksFull) (hi : i < 1024)
    (hget : getNodeByPath s path s.rootDirIno = some (readi s i))
    (hcall : rufsWrite s path buffer size offset times = some (ret, s')) :
    WritesSafely s s' i (toInt (offset / BLOCK_SIZE : ℕ)).toNat (offset % 4096) (buffer.take ret.toNat) ↔
      ∀ k, Touches (toInt (offset / BLOCK_SIZE : ℕ)).toNat (offset % 4096) (toInt size).toNat k →
        IsData (s.ptr i k) := by
  obtain ⟨nodei', s₁, n, hloop, hn, hlen, hret, hs'⟩ := rufsWrite_full hs hfull hi hget hcall
  obtain ⟨blk, hblk⟩ : ∃ blk, (toInt (offset / BLOCK_SIZE : ℕ)).toNat = blk := ⟨_, rfl⟩
  obtain ⟨start, hstart⟩ : ∃ start, offset % 4096 = start := ⟨_, rfl⟩
  obtain ⟨rem, hrem⟩ : ∃ rem, (toInt size).toNat = rem := ⟨_, rfl⟩
  have hlt : start < 4096 := by
    rw [← hstart]
    exact Nat.mod_lt _ (by decide)
  rw [hret, Int.toNat_natCast]
  rw [hblk, hstart, hrem] at hloop hn
  rw [hrem] at hlen
  rw [hblk, hstart, hrem]
  obtain ⟨hbounded, -, -, -, hptr⟩ := writtenInode_spec hloop.bounded n times
  have hdisk {c : ℤ} (hc : IsData c) : bioRead s'.disk c = bioRead s₁.disk c := by
    rw [hs', Fs.disk_writei, bioRead_bioWrite_of_ne (hc.ne_natCast (Fs.inodeBlk_lt hloop.layout hi))]
  -- the table of inodes
  have hother {j : ℕ} (hj : j < 1024) (hji : j ≠ i) (k : ℕ) : s'.ptr j k = s.ptr j k := by
    have hblk : inodeBlk s₁ j = inodeBlk s j := by
      rw [Fs.inodeBlk_eq hloop.layout, Fs.inodeBlk_eq hs.layout]
    have hread : readi s₁ j = readi s j := by
      rw [readi, readi, hblk, hloop.frame _ fun l _ hdata heq =>
        hdata.ne_natCast (Fs.inodeBlk_lt hs.layout hj) heq.symm]
    rw [Fs.ptr, Fs.ptr, hs', Fs.readi_writei hloop.layout hi hj hbounded, if_neg hji, hread]
  have hown {k : ℕ} (hk : k < 16) : s'.ptr i k =
      if Touches blk start rem k ∧ s.ptr i k = 0 then -1 else s.ptr i k := by
    rw [Fs.ptr, hs', Fs.readi_writei hloop.layout hi hi hbounded, if_pos rfl, hptr k hk, hloop.ptr, Fs.ptr]
  have hle : n ≤ buffer.length := (hn ▸ Nat.min_le_left _ _).trans hlen
  have hlength : (buffer.take n).length = n := by rw [List.length_take, Nat.min_eq_left hle]
  constructor
  · intro hsafe k htouch
    have hk := htouch.2.2.1
    by_contra hdata
    have hlost : s'.ptr i k = -1 := by
      rw [hown hk]
      rcases (hs.ptr i hi k hk).resolve_left hdata with hnull | hlost
      · rw [if_pos ⟨htouch, hnull⟩]
      · rw [hlost]
        split
        · rfl
        · rfl
    obtain ⟨p, hp, hindex⟩ := htouch.exists_byte hlt
    obtain ⟨hstored, -⟩ := hsafe.stored p (by rw [hlength, hn]; exact hp)
    rw [hindex, hlost] at hstored
    exact not_isData_neg_one hstored
  · intro hall
    have hsame {k : ℕ} (hk : k < 16) : s'.ptr i k = s.ptr i k := by
      rw [hown hk]
      refine if_neg fun h => ?_
      have hdata := hall k h.1
      rw [h.2] at hdata
      exact not_isData_zero hdata
    refine ⟨fun j hj k hk hlost => ?_, fun p hp => ?_, fun j hj hji k hk hdata => ?_⟩
    · by_cases hji : j = i
      · rw [hji] at hlost ⊢
        rw [← hsame hk, hlost]
      · rw [← hother hj hji k, hlost]
    · rw [hlength, hn] at hp
      obtain ⟨htouch, hlo, hhi, hindex⟩ := touches_of_byte hp
      rw [← hn] at hp
      generalize blk + (start + p) / 4096 = l at htouch hlo hhi hindex ⊢
      have hdata := hall l htouch
      have hbyte := hloop.byte l htouch hdata ((start + p) % 4096) (Nat.mod_lt _ (by decide)) hlo hhi
      rw [hindex] at hbyte
      rw [hsame htouch.2.2.1]
      refine ⟨hdata, ?_⟩
      rw [hdisk hdata, Fs.ptr, hbyte, List.getD_eq_getElem?_getD, List.getD_eq_getElem?_getD,
        List.getElem?_take_of_lt hp]
    · rw [hdisk hdata]
      refine hloop.frame _ fun l htouch hdata' heq => hji ?_
      exact (hs.once i hi l htouch.2.2.1 j hj k hk hdata' heq).1.symm

/-- A write through inode `i` returns, and keeps to `WritesSafely`. -/
def WriteSafe (s : Fs) (i : ℕ) (path buffer : List UInt8) (size offset : ℕ) (times : Times) : Prop :=
  ∃ ret s', rufsWrite s path buffer size offset times = some (ret, s') ∧
    WritesSafely s s' i (toInt (offset / BLOCK_SIZE : ℕ)).toNat (offset % 4096)
      (buffer.take ret.toNat)

theorem rufsWrite_defined (hget : getNodeByPath s path s.rootDirIno = some nodei)
    (hbuffer : toInt size ≤ buffer.length) (times : Times) :
    (∃ ret s', rufsWrite s path buffer size offset times = some (ret, s')) ↔
      ¬ (toInt (offset / BLOCK_SIZE : ℕ) < 0 ∧ 0 < toInt size) := by
  rw [rufsWrite, hget]
  dsimp only
  rw [if_neg (by omega : ¬ (buffer.length : ℤ) < toInt size)]
  by_cases hneg : toInt (offset / BLOCK_SIZE : ℕ) < 0 ∧ 0 < toInt size
  · rw [if_pos hneg]
    refine iff_of_false ?_ (not_not_intro hneg)
    rintro ⟨ret, s', h⟩
    cases h
  · rw [if_neg hneg]
    exact iff_of_true ⟨_, _, rfl⟩ hneg

theorem writeSafe_iff (hs : s.Sound) (hfull : s.BlocksFull) (hi : i < 1024)
    (hget : getNodeByPath s path s.rootDirIno = some (readi s i))
    (hbuffer : toInt size ≤ buffer.length) (times : Times) :
    WriteSafe s i path buffer size offset times ↔
      ¬ (toInt (offset / BLOCK_SIZE : ℕ) < 0 ∧ 0 < toInt size) ∧
        ∀ k, Touches (toInt (offset / BLOCK_SIZE : ℕ)).toNat (offset % 4096) (toInt size).toNat k →
          IsData (s.ptr i k) := by
  rw [← rufsWrite_defined hget hbuffer times]
  constructor
  · rintro ⟨ret, s', hcall, hsafe⟩
    exact ⟨⟨ret, s', hcall⟩, (writesSafely_iff hs hfull hi hget hcall).mp hsafe⟩
  · rintro ⟨⟨ret, s', hcall⟩, hall⟩
    exact ⟨ret, s', hcall, (writesSafely_iff hs hfull hi hget hcall).mpr hall⟩

end Write

/-- What entering a name in directory `i` of a full disk must keep to: no pointer becomes `-1`,
an entry reported lies in a slot of the directory that was free, and the blocks of the others
are as before. -/
structure AddsSafely (s s' : Fs) (i : ℕ) (fname : List UInt8) (r : ℤ) : Prop where
  pointers : ∀ j < 1024, ∀ k < 16, s'.ptr j k = -1 → s.ptr j k = -1
  stored : r = 1 → ∃ k < 16, ∃ j < 19, IsData (s'.ptr i k) ∧
    Dirent.valid.get (bioRead s.disk (s'.ptr i k)) (slotAddr j) = 0 ∧
    slotMatches (bioRead s'.disk (s'.ptr i k)) fname j = true
  others : ∀ j < 1024, j ≠ i → ∀ k < 16, IsData (s.ptr j k) →
    bioRead s'.disk (s.ptr j k) = bioRead s.disk (s.ptr j k)

section Add

variable {fIno len j : ℕ} {fname : List UInt8} {r : ℤ} {buf buf' : Bytes}

theorem slotMatches_putDirent (hput : putDirent buf j fIno len fname = some buf') :
    slotMatches buf' fname j = true := by
  rw [putDirent] at hput
  split at hput
  · rw [Option.some.injEq] at hput
    rw [← hput, slotMatches, Bool.and_eq_true, decide_eq_true_eq]
    refine ⟨?_, ?_⟩
    · rw [Field.get_set_same]
      decide
    · refine (Bytes.strEq_congr fun x hx _ => Field.set_apply_of_notMem ?_).trans
        (Bytes.strEq_strcpy _ (slotAddr j + Dirent.name) fname)
      simp only [Dirent.valid, Dirent.name] at hx ⊢
      omega
  · cases hput

/-- Where `dir_add` looks for a place. -/
theorem findSpot_cases {slot : Option ℕ} (hspot : findSpot s nodei = some (k, slot)) :
    k < 16 ∧ (nodei.ptr k = 0 ∧ slot = none ∨ nodei.ptr k ≠ 0 ∧ ∃ j < 19, slot = some j ∧
      Dirent.valid.get (bioRead s.disk (nodei.ptr k)) (slotAddr j) = 0) := by
  obtain ⟨i, hi, hfound⟩ := List.exists_of_findSome?_eq_some hspot
  rw [DIRECT_PTRS, List.mem_range] at hi
  split at hfound
  · next hnull =>
    cases hfound
    exact ⟨hi, Or.inl ⟨hnull, rfl⟩⟩
  · next hne =>
    obtain ⟨j, hj, heq⟩ := Option.map_eq_some_iff.mp hfound
    cases heq
    have hmem := List.mem_range.mp (List.mem_of_find?_eq_some hj)
    have hfree := List.find?_some hj
    rw [decide_eq_true_eq] at hfree
    exact ⟨hi, Or.inr ⟨hne, j, hmem, rfl, hfree⟩⟩

theorem ptr_congr (hs : s.Layout) (hs' : s'.Layout)
    (h : ∀ c < 67, bioRead s'.disk (c : ℕ) = bioRead s.disk (c : ℕ)) {j : ℕ} (hj : j < 1024) (k : ℕ) :
    s'.ptr j k = s.ptr j k := by
  have hblk : inodeBlk s' j = inodeBlk s j := by rw [Fs.inodeBlk_eq hs, Fs.inodeBlk_eq hs']
  rw [Fs.ptr, Fs.ptr, readi, readi, hblk, h _ (Fs.inodeBlk_lt hs hj)]

theorem addsSafely_iff (hs : s.Sound) (hfull : s.BlocksFull) (hi : i < 1024)
    (hadd : dirAdd s (readi s i) fIno fname len = some (r, s')) :
    AddsSafely s s' i fname r ↔ (HasPlace s (readi s i) fname → ∀ k slot,
      findSpot s (readi s i) = some (k, slot) → slot ≠ none ∧ IsData (s.ptr i k)) := by
  by_cases hplace : HasPlace s (readi s i) fname
  · have hr := hplace.dirAdd_eq hadd
    obtain ⟨hvalid, hdup, hspot⟩ := hplace
    obtain ⟨⟨k, slot⟩, hspot⟩ := Option.ne_none_iff_exists'.mp hspot
    rw [dirAdd, if_neg hvalid, hdup, if_neg Bool.false_ne_true, hspot] at hadd
    have hcond : (HasPlace s (readi s i) fname → ∀ k slot, findSpot s (readi s i) = some (k, slot) →
        slot ≠ none ∧ IsData (s.ptr i k)) ↔ slot ≠ none ∧ IsData (s.ptr i k) := by
      constructor
      · intro hall
        exact hall ⟨hvalid, hdup, by rw [hspot]; exact Option.some_ne_none _⟩ k slot hspot
      · intro hgood _ k' slot' hspot'
        rw [hspot, Option.some.injEq, Prod.mk.injEq] at hspot'
        rw [← hspot'.1, ← hspot'.2]
        exact hgood
    rw [hcond]
    obtain ⟨hk, ⟨hnull, hslot⟩ | ⟨hne, j, hj, hslot, hfree⟩⟩ := findSpot_cases hspot
    · -- a new block: `-1` is stored
      rw [hslot] at hadd
      simp only [Option.bind_eq_bind, Option.bind_eq_some_iff, Option.some.injEq, Prod.mk.injEq] at hadd
      obtain ⟨buf, -, -, hs'⟩ := hadd
      obtain ⟨hret, hdisk⟩ := hfull.getAvailBlkno hs.layout
      refine iff_of_false (fun hsafe => ?_) fun hgood => hgood.1 hslot
      have hbounded := Inode.bounded_setPtr (b := -1) hk (Fs.bounded_readi s i)
      rw [hret, Inode.get_setPtr (by decide) hk, hs.ino i hi] at hs'
      have hlost : s'.ptr i k = -1 := by
        rw [Fs.ptr, ← hs', Fs.readi_writei (Fs.layout_disk (Fs.layout_getAvailBlkno hs.layout) _) hi hi
          hbounded, if_pos rfl]
        exact Inode.ptr_setPtr_same (by decide) (by decide)
      have hold := hsafe.pointers i hi k hk hlost
      rw [Fs.ptr, hnull] at hold
      cases hold
    · rw [hslot] at hadd
      simp only [Option.bind_eq_bind, Option.bind_eq_some_iff, Option.some.injEq, Prod.mk.injEq] at hadd
      obtain ⟨buf, hput, -, hs'⟩ := hadd
      have hlayout : s'.Layout := hs' ▸ Fs.layout_disk hs.layout _
      have hdisk : s'.disk = bioWrite s.disk (s.ptr i k) buf := by rw [← hs', Fs.ptr]
      by_cases hdata : IsData (s.ptr i k)
      · have hptr {l : ℕ} (hl : l < 1024) (m : ℕ) : s'.ptr l m = s.ptr l m :=
          ptr_congr hs.layout hlayout (fun c hc => by
            rw [hdisk, bioRead_bioWrite_of_ne (hdata.ne_natCast hc).symm]) hl m
        refine iff_of_true ⟨fun l hl m _ hlost => ?_, fun _ => ⟨k, hk, j, hj, ?_⟩, ?_⟩ ⟨?_, hdata⟩
        · rw [← hptr hl m, hlost]
        · rw [hptr hi k]
          refine ⟨hdata, hfree, ?_⟩
          rw [hdisk]
          exact (congrArg (fun buf => slotMatches buf fname j) (bioRead_bioWrite_same hdata.inFile)).trans
            (slotMatches_putDirent hput)
        · intro l hl hli m hm hdata'
          rw [hdisk]
          exact bioRead_bioWrite_of_ne fun heq => hli (hs.once i hi k hk l hl m hm hdata heq).1.symm
        · rw [hslot]
          exact Option.some_ne_none j
      · -- the block is `-1` already: the entry is lost
        have hlost : s.ptr i k = -1 := ((hs.ptr i hi k hk).resolve_left hdata).resolve_left hne
        rw [hlost, bioWrite_neg_one] at hdisk
        refine iff_of_false (fun hsafe => ?_) fun hgood => hdata hgood.2
        obtain ⟨l, -, m, -, -, hfree', hmatch⟩ := hsafe.stored hr
        rw [hdisk, slotMatches, hfree'] at hmatch
        exact Bool.noConfusion hmatch
  · obtain ⟨r', hrefused, hr'⟩ := dirAdd_of_not_hasPlace (n := fIno) (l := len) hplace
    rw [hrefused, Option.some.injEq, Prod.mk.injEq] at hadd
    obtain ⟨hr, hs'⟩ := hadd
    refine iff_of_true ⟨fun l _ m _ => ?_, fun h1 => ?_, fun l _ _ m _ _ => ?_⟩ fun h => absurd h hplace
    · rw [← hs']
      exact id
    · rcases hr' with hr' | hr'
      · rw [← hr, hr'] at h1
        exact absurd h1 (by decide)
      · rw [← hr, hr'] at h1
        exact absurd h1 (by decide)
    · rw [← hs']

/-- Entering the name returns, and keeps to `AddsSafely`. -/
def AddSafe (s : Fs) (i fIno : ℕ) (fname : List UInt8) (len : ℕ) : Prop :=
  ∃ r s', dirAdd s (readi s i) fIno fname len = some (r, s') ∧ AddsSafely s s' i fname r

variable (fIno len) in
theorem dirAdd_defined : (∃ r s', dirAdd s nodei fIno fname len = some (r, s')) ↔
    (HasPlace s nodei fname → SlotFits s nodei fname) := by
  by_cases hplace : HasPlace s nodei fname
  · by_cases hfits : SlotFits s nodei fname
    · obtain ⟨s', hadd⟩ := dirAdd_of_fits (n := fIno) (l := len) hplace.1 hplace.2.1 hfits
      exact iff_of_true ⟨1, s', hadd⟩ fun _ => hfits
    · rw [dirAdd_of_not_fits hplace hfits]
      refine iff_of_false ?_ fun h => hfits (h hplace)
      rintro ⟨r, s', h⟩
      cases h
  · obtain ⟨r, hadd, -⟩ := dirAdd_of_not_hasPlace (n := fIno) (l := len) hplace
    exact iff_of_true ⟨r, s, hadd⟩ fun h => absurd h hplace

theorem addSafe_iff (hs : s.Sound) (hfull : s.BlocksFull) (hi : i < 1024) :
    AddSafe s i fIno fname len ↔ (HasPlace s (readi s i) fname → SlotFits s (readi s i) fname ∧
      ∀ k slot, findSpot s (readi s i) = some (k, slot) → slot ≠ none ∧ IsData (s.ptr i k)) := by
  rw [imp_and, ← dirAdd_defined fIno len]
  constructor
  · rintro ⟨r, s', hadd, hsafe⟩
    exact ⟨⟨r, s', hadd⟩, (addsSafely_iff hs hfull hi hadd).mp hsafe⟩
  · rintro ⟨⟨r, s', hadd⟩, hall⟩
    exact ⟨r, s', hadd, (addsSafely_iff hs hfull hi hadd).mpr hall⟩

end Add

theorem exhaustion_iff (hs : s.Layout) :
    (s.InodesFull → ∀ path, CreatesSafely s path ↔ ¬ s.Admits path) ∧
      (s.Sound → s.BlocksFull → ∀ i < 1024,
        (∀ path buffer (size offset : ℕ) times, getNodeByPath s path s.rootDirIno = some (readi s i) →
          toInt size ≤ buffer.length →
          (WriteSafe s i path buffer size offset times ↔
            ¬ (toInt (offset / BLOCK_SIZE : ℕ) < 0 ∧ 0 < toInt size) ∧
              ∀ k, Touches (toInt (offset / BLOCK_SIZE : ℕ)).toNat (offset % 4096)
                (toInt size).toNat k → IsData (s.ptr i k))) ∧
        ∀ fIno fname len, AddSafe s i fIno fname len ↔
          (HasPlace s (readi s i) fname → SlotFits s (readi s i) fname ∧ ∀ k slot,
            findSpot s (readi s i) = some (k, slot) → slot ≠ none ∧ IsData (s.ptr i k))) := by
  refine ⟨fun hfull path => createsSafely_iff hs hfull path, fun hsound hfull i hi => ⟨?_, ?_⟩⟩
  · intro path buffer size offset times hget hbuffer
    exact writeSafe_iff hsound hfull hi hget hbuffer times
  · intro fIno fname len
    exact addSafe_iff hsound hfull hi

/-! ## Full disks -/

/-- A block of raised flags. -/
def ones : Bytes := fun _ => 255

theorem get_ones (p : ℕ) : Bitmap.get .lsbFirst ones p = true := by
  have hslot := BitOrder.lsbFirst.slot_lt (p % 8) (Nat.mod_lt _ (by decide))
  rw [Bitmap.get_eq_getLsbD]
  change (255 : UInt8).toBitVec.getLsbD _ = true
  generalize BitOrder.lsbFirst.slot (p % 8) = k at hslot ⊢
  revert k
  decide

/-- A disk that stores a graph is sound. -/
theorem Represents.sound {g : Graph} (hs : s.Layout) (h : Represents s.store g) : s.Sound where
  layout := hs
  ino i hi := by rw [Fs.readi_eq hi, h.ino i hi]
  ptr i hi k hk := by
    rw [Fs.ptr_eq hi]
    by_cases hnull : s.store.ptr i k = 0
    · exact Or.inr (Or.inl hnull)
    · exact Or.inl (h.owned.ptr_range i hi k hk hnull)
  once i hi k hk j hj l hl hdata heq := by
    rw [Fs.ptr_eq hi] at hdata heq
    rw [Fs.ptr_eq hj] at heq
    refine h.owned.ptr_inj i hi k hk j hj l hl (fun hnull => ?_) heq
    rw [hnull] at hdata
    exact not_isData_zero hdata

/-- All inode numbers taken, the rest as it was. -/
theorem Represents.useAll {st : Store} {g : Graph} (h : Represents st g) :
    Represents { st with inodeUsed := fun _ => true } g where
  owned := h.owned.congr (fun _ _ _ _ => rfl) rfl rfl
  ino := h.ino
  node i hi := (h.node i hi).congr (Agrees.refl _) fun _ _ _ => rfl
  used i hi := ⟨(h.used i hi).1, rfl⟩

/-- The disk with a full bitmap for the inodes. -/
theorem store_inodesFull (hs : s.Layout) :
    ({ s with disk := bioWrite s.disk 1 ones } : Fs).store = { s.store with inodeUsed := fun _ => true } := by
  have hdisk (c : ℤ) (hc : 1 ≠ c) : bioRead (bioWrite s.disk 1 ones) c = bioRead s.disk c :=
    bioRead_bioWrite_of_ne hc
  obtain ⟨hinodes, hblocks⟩ := Fs.tables_congr hs (Fs.layout_disk hs (bioWrite s.disk 1 ones))
    fun c hc => hdisk c (by omega)
  ext1
  · exact hinodes
  · exact hblocks
  · funext p
    simp only [Fs.store]
    rw [bioRead_bioWrite_same (by decide), get_ones]
  · simp only [Fs.store, hdisk 2 (by decide)]

/-- A file is created on a disk without free inode numbers. -/
theorem exists_create_full : ∃ s s', s.Layout ∧ s.InodesFull ∧
    rufsCreate s slashA ⟨0, 0⟩ = some (0, s') := by
  obtain ⟨s₀, hs₀, hmade⟩ := rufsMkfs_spec (fun _ => 0) ⟨0, 0⟩
  obtain ⟨s, hs⟩ : ∃ s, s = ({ s₀ with disk := bioWrite s₀.disk 1 ones } : Fs) := ⟨_, rfl⟩
  have hlayout : s.Layout := hs ▸ Fs.layout_disk hmade.layout _
  have hstore : s.store = { s₀.store with inodeUsed := fun _ => true } := by
    rw [hs, store_inodesFull hmade.layout]
  have hrep : Represents s.store rootGraph := by
    rw [hstore]
    exact hmade.rep.useAll
  have hfull : s.InodesFull := fun i _ => by rw [Fs.inodeUsed_eq hlayout, hstore]
  have hkept : Kept s rootGraph rootPlaces := ⟨hlayout, hrep, rootGraph_closed, rootGraph_placed⟩
  have hmay := hkept.mayEnter hkept.enters_slashA
  have hget : getNodeByPath s (dirname slashA) s.rootDirIno = some (s.store.inodes 0) := by
    rw [getNodeByPath_eq hlayout hrep rootGraph_closed (nul_notMem_dirname hmay.string) hmay.searches]
    rfl
  obtain ⟨hvalid, -, hholds⟩ := hrep.node 0 (by decide)
  have hfits : SlotFits s (s.store.inodes 0) (basename slashA) := by
    refine ⟨0, some 2, ?_, by decide⟩
    rw [findSpot_eq hrep (by decide) hholds]
    rfl
  obtain ⟨s', hcreate⟩ :=
    hfull.create hlayout hget hvalid (hasDuplicate_eq hrep (by decide)) hfits
  exact ⟨s, s', hlayout, hfull, hcreate⟩

/-- What a search finds lies behind the bitmaps. -/
theorem dirFind_congr (hs : s.Sound) (hs' : s'.Layout)
    (h : ∀ c : ℤ, c < 0 ∨ 3 ≤ c → bioRead s'.disk c = bioRead s.disk c) (hi : i < 1024)
    (name : List UInt8) : dirFind s' i name = dirFind s i name := by
  have hread : readi s' i = readi s i := by
    rw [readi, readi, Fs.inodeBlk_eq hs.layout, Fs.inodeBlk_eq hs', h _ (by omega)]
  rw [dirFind, dirFind, hread]
  split
  · rfl
  · refine findSome?_congr fun k hk => ?_
    by_cases hnull : (readi s i).ptr k = 0
    · rw [if_neg (not_not.mpr hnull), if_neg (not_not.mpr hnull)]
    · rw [if_pos hnull, if_pos hnull, h]
      rcases hs.ptr i hi k (List.mem_range.mp hk) with hdata | hzero | hlost
      · exact Or.inr (Int.le_trans (by decide) hdata.1)
      · exact absurd hzero hnull
      · exact Or.inl (lt_of_eq_of_lt hlost (by decide))

/-- A byte is written to an empty file on a disk without free blocks. -/
theorem exists_write_full : ∃ s s' i, s.Sound ∧ s.BlocksFull ∧ i < 1024 ∧
    getNodeByPath s slashA s.rootDirIno = some (readi s i) ∧
    rufsWrite s slashA [7] 1 0 ⟨0, 0⟩ = some (1, s') ∧ ¬ WritesSafely s s' i 0 0 [7] := by
  obtain ⟨s₁, i, hfile⟩ := exists_file (fun _ => 0) ⟨0, 0⟩
  have hkept := hfile.kept
  obtain ⟨s, hs⟩ : ∃ s, s = ({ s₁ with disk := bioWrite s₁.disk 2 ones } : Fs) := ⟨_, rfl⟩
  have hlayout : s.Layout := hs ▸ Fs.layout_disk hkept.layout _
  have hdisk (c : ℤ) (hc : c < 0 ∨ 3 ≤ c) : bioRead s.disk c = bioRead s₁.disk c := by
    have hne : (2 : ℤ) ≠ c := by omega
    rw [hs]
    exact bioRead_bioWrite_of_ne hne
  have hsound₁ := hkept.rep.sound hkept.layout
  have hread {j : ℕ} : readi s j = readi s₁ j := by
    rw [readi, readi, Fs.inodeBlk_eq hkept.layout, Fs.inodeBlk_eq hlayout, hdisk _ (by omega)]
  have hsound : s.Sound := by
    refine ⟨hlayout, fun j hj => ?_, fun j hj k hk => ?_, fun j hj k hk l hl m hm => ?_⟩
    · rw [hread, hsound₁.ino j hj]
    · rw [Fs.ptr, hread]
      exact hsound₁.ptr j hj k hk
    · rw [Fs.ptr, Fs.ptr, hread, hread]
      exact hsound₁.once j hj k hk l hl m hm
  have hfull : s.BlocksFull := by
    intro b _
    rw [hlayout.dBitmapBlk, hs]
    exact (congrArg (fun bytes => Bitmap.get .lsbFirst bytes b) (bioRead_bioWrite_same (by decide))).trans
      (get_ones b)
  -- the file, as before
  have hi := hkept.lt (hkept.node_ne_none_of_walk hfile.walk)
  have hfind : dirFind s 0 [97] = some i := by
    rw [dirFind_congr hsound₁ hlayout hdisk (by decide),
      dirFind_dir hkept.rep (by decide) hfile.dir_root (by decide)]
    rfl
  have htok : strtokAll slashA = [[97]] := by decide
  have hget : getNodeByPath s slashA s.rootDirIno = some (readi s i) := by
    rw [getNodeByPath, if_neg (by decide), hlayout.rootDirIno, htok, walk, hfind, Option.bind_some, walk,
      Option.map_some]
  have hnull : s.ptr i 0 = 0 := by
    have hnode := hkept.rep.node i hi
    rw [fileGraph, link_new] at hnode
    have hblock := hnode.2.2.2 0 (by decide)
    rw [Fs.ptr, hread, Fs.readi_eq hi]
    change s₁.store.ptr i 0 = 0
    by_contra hne
    rw [Store.fileBlock, if_neg hne] at hblock
    cases hblock
  rcases hgot : ensureBlock (readi s i) (0 / 4096) s with ⟨nodei₁, s₂⟩
  have hcall := rufsWrite_one ⟨0, 0⟩ hget (by decide : 0 < 65536) (by decide : 0 < 1) (by decide)
    (Nat.le_refl ([7] : List UInt8).length) hgot
  refine ⟨s, _, i, hsound, hfull, hi, hget, hcall, fun hsafe => ?_⟩
  have hall := (writesSafely_iff hsound hfull hi hget hcall).mp hsafe
  have hdata := hall 0 (by decide)
  rw [hnull] at hdata
  exact not_isData_zero hdata

theorem exhaustion_iff_full :
    (∃ s, s.InodesFull ∧ (CreatesSafely s slashA ↔ ¬ s.Admits slashA)) ∧
    ∃ s i, s.BlocksFull ∧ (WriteSafe s i slashA [7] 1 0 ⟨0, 0⟩ ↔
      ¬ (toInt (0 / BLOCK_SIZE : ℕ) < 0 ∧ 0 < toInt (1 : ℕ)) ∧
        ∀ k, Touches 0 0 1 k → IsData (s.ptr i k)) := by
  obtain ⟨s, s', hs, hfull, -⟩ := exists_create_full
  obtain ⟨t, t', i, hsound, hfull', hi, hget, -⟩ := exists_write_full
  exact ⟨⟨s, hfull, (exhaustion_iff hs).1 hfull slashA⟩, t, i, hfull',
    ((exhaustion_iff hsound.layout).2 hsound hfull' i hi).1 slashA [7] 1 0 ⟨0, 0⟩ hget (by decide)⟩

/-- A full disk on which a file is created, and one on which a byte is counted that is
nowhere. -/
theorem exhaustion_fails :
    (∃ s s', s.Layout ∧ s.InodesFull ∧ rufsCreate s slashA ⟨0, 0⟩ = some (0, s')) ∧
    ∃ s s' i, s.Sound ∧ s.BlocksFull ∧ i < 1024 ∧
      getNodeByPath s slashA s.rootDirIno = some (readi s i) ∧
      rufsWrite s slashA [7] 1 0 ⟨0, 0⟩ = some (1, s') ∧ ¬ WritesSafely s s' i 0 0 [7] :=
  ⟨exists_create_full, exists_write_full⟩

end UserLevelOs.Files
