import UserLevelOs.Files.Entries
import Mathlib.Data.List.GetD

/-!
# The contents of a file

The loops of `rufs_read` and `rufs_write` go over the blocks of a file, a part of the first
and the last of them and all of the others.  Seen from outside they deal with one array of
bytes, in which a missing block reads as zeros.

## Main definitions

* `fileByte` — the byte at a position of a file.
* `Stores` — some bytes have been written at a position.

## Main statements

* `readLoop_spec`, `readLoop_complete` — what is read, and when all of it is there.
* `writeLoop_spec` — what is written.
-/

namespace UserLevelOs.Files

open UserLevelOs.Lib

/-- The byte at position `p`; a missing block is blank. -/
def fileByte (blocks : ℕ → Option Bytes) (p : ℕ) : UInt8 :=
  ((blocks (p / 4096)).getD fun _ => 0) (p % 4096)

/-- The file `blocks` after `bytes` have been written at `pos`. -/
structure Stores (blocks blocks' : ℕ → Option Bytes) (pos : ℕ) (bytes : List UInt8) : Prop where
  byte : ∀ p, fileByte blocks' p =
    if pos ≤ p ∧ p < pos + bytes.length then bytes.getD (p - pos) 0 else fileByte blocks p
  present : ∀ k, blocks' k ≠ none ↔
    blocks k ≠ none ∨ ∃ p, pos ≤ p ∧ p < pos + bytes.length ∧ p / 4096 = k

namespace Stores

variable {blocks blocks' blocks'' : ℕ → Option Bytes} {pos : ℕ} {xs ys : List UInt8}

theorem nil (blocks : ℕ → Option Bytes) (pos : ℕ) : Stores blocks blocks pos [] where
  byte p := by
    rw [if_neg]
    simp only [List.length_nil]
    omega
  present k := by
    simp only [List.length_nil]
    constructor
    · exact Or.inl
    · rintro (h | ⟨p, h₁, h₂, -⟩)
      · exact h
      · omega

/-- Where nothing is written does not matter. -/
theorem of_nil (h : Stores blocks blocks' pos []) (pos' : ℕ) : Stores blocks blocks' pos' [] := by
  have hempty (q p : ℕ) : ¬ (q ≤ p ∧ p < q + ([] : List UInt8).length) := by
    simp only [List.length_nil]
    omega
  refine ⟨fun p => ?_, fun k => ?_⟩
  · rw [h.byte p, if_neg (hempty pos p), if_neg (hempty pos' p)]
  · rw [h.present k]
    refine or_congr_right ⟨?_, ?_⟩
    · rintro ⟨p, h₁, h₂, -⟩
      exact absurd ⟨h₁, h₂⟩ (hempty pos p)
    · rintro ⟨p, h₁, h₂, -⟩
      exact absurd ⟨h₁, h₂⟩ (hempty pos' p)

/-- Two writes one behind the other are one. -/
theorem append (h : Stores blocks blocks' pos xs)
    (h' : Stores blocks' blocks'' (pos + xs.length) ys) : Stores blocks blocks'' pos (xs ++ ys) where
  byte p := by
    rw [h'.byte p, h.byte p, List.length_append]
    by_cases hlo : p < pos + xs.length
    · rw [if_neg (by omega)]
      by_cases hpos : pos ≤ p
      · rw [if_pos ⟨hpos, hlo⟩, if_pos ⟨hpos, by omega⟩]
        rw [List.getD_append _ _ _ _ (by omega)]
      · rw [if_neg (by omega), if_neg (by omega)]
    · by_cases hhi : p < pos + xs.length + ys.length
      · rw [if_pos ⟨by omega, hhi⟩, if_pos ⟨by omega, by omega⟩,
          List.getD_append_right _ _ _ _ (by omega)]
        congr 1
        omega
      · rw [if_neg (by omega), if_neg (by omega), if_neg (by omega)]
  present k := by
    rw [h'.present k, h.present k, List.length_append, or_assoc]
    refine or_congr_right ⟨?_, ?_⟩
    · rintro (⟨p, h₁, h₂, h₃⟩ | ⟨p, h₁, h₂, h₃⟩)
      · exact ⟨p, h₁, by omega, h₃⟩
      · exact ⟨p, by omega, by omega, h₃⟩
    · rintro ⟨p, h₁, h₂, h₃⟩
      by_cases hlo : p < pos + xs.length
      · exact Or.inl ⟨p, h₁, hlo, h₃⟩
      · exact Or.inr ⟨p, by omega, by omega, h₃⟩

/-- A write that stays in one block. -/
theorem block {k off : ℕ} (hoff : off + xs.length ≤ 4096) (hne : 0 < xs.length)
    (hpos : pos = 4096 * k + off) :
    Stores blocks (Function.update blocks k
      (some (((blocks k).getD fun _ => 0).write off xs))) pos xs where
  byte p := by
    rw [fileByte, fileByte, Function.update_apply]
    by_cases hk : p / 4096 = k
    · rw [if_pos hk, hk, Option.getD_some]
      by_cases hin : pos ≤ p ∧ p < pos + xs.length
      · rw [if_pos hin, Bytes.write_apply_of_mem (by omega) (by omega)]
        congr 1
        omega
      · rw [if_neg hin, Bytes.write_apply_of_notMem (by omega)]
    · rw [if_neg hk, if_neg (by omega)]
  present l := by
    rw [Function.update_apply]
    by_cases hl : l = k
    · rw [if_pos hl]
      refine ⟨fun _ => Or.inr ⟨pos, le_rfl, by omega, by omega⟩, fun _ => Option.some_ne_none _⟩
    · rw [if_neg hl]
      constructor
      · exact Or.inl
      · rintro (h | ⟨p, h₁, h₂, h₃⟩)
        · exact h
        · omega

end Stores

/-! ## Reading -/

section Reading

variable {s : Fs} {g : Graph} {i : ℕ} {size : ℕ} {blocks : ℕ → Option Bytes}

@[simp] theorem readLoop_zero_remaining (disk : Disk) (nodei : Inode) (left blkIndex offset : ℕ) :
    readLoop disk nodei left blkIndex offset 0 = ([], true) := by
  cases left <;> rfl

theorem readLoop_null {disk : Disk} {nodei : Inode} {left blkIndex offset remaining : ℕ}
    (hrem : remaining ≠ 0) (hnull : nodei.ptr blkIndex = 0) :
    readLoop disk nodei (left + 1) blkIndex offset remaining = ([], false) := by
  rw [readLoop, if_neg hrem, if_pos hnull]

theorem readLoop_block {disk : Disk} {nodei : Inode} {left blkIndex offset remaining : ℕ}
    (hrem : remaining ≠ 0) (hne : nodei.ptr blkIndex ≠ 0) :
    readLoop disk nodei (left + 1) blkIndex offset remaining =
      ((bioRead disk (nodei.ptr blkIndex)).read (offset % 4096) (min remaining (4096 - offset % 4096)) ++
        (readLoop disk nodei left (blkIndex + 1) 0
          (remaining - min remaining (4096 - offset % 4096))).1,
        (readLoop disk nodei left (blkIndex + 1) 0
          (remaining - min remaining (4096 - offset % 4096))).2) := by
  rw [readLoop, if_neg hrem, if_neg hne]

/-- What the pointers of an inode lead to. -/
def LeadsTo (disk : Disk) (nodei : Inode) (blocks : ℕ → Option Bytes) : Prop :=
  ∀ k < 16, (nodei.ptr k = 0 ∧ blocks k = none) ∨
    (nodei.ptr k ≠ 0 ∧ blocks k = some (bioRead disk (nodei.ptr k)))

theorem Represents.leadsTo (h : Represents s.store g) (hi : i < 1024)
    (hfile : g i = some (.file size blocks)) : LeadsTo s.disk (s.store.inodes i) blocks := by
  have hnode := h.node i hi
  rw [hfile] at hnode
  intro k hk
  have hblock := hnode.2.2.2 k hk
  rw [Store.fileBlock] at hblock
  by_cases hne : s.store.ptr i k = 0
  · rw [if_pos hne] at hblock
    exact Or.inl ⟨hne, hblock⟩
  · rw [if_neg hne, ← h.owned.bioRead_ptr hi hk hne] at hblock
    exact Or.inr ⟨hne, hblock⟩

/-- Every byte read is the byte of the file at its position. -/
theorem readLoop_spec {disk : Disk} {nodei : Inode} (hleads : LeadsTo disk nodei blocks)
    (left : ℕ) : ∀ {blkIndex offset remaining : ℕ}, blkIndex + left ≤ 16 → ∀ {x : ℕ} {b : UInt8},
      (readLoop disk nodei left blkIndex offset remaining).1[x]? = some b →
        fileByte blocks (4096 * blkIndex + offset % 4096 + x) = b ∧ x < remaining := by
  induction left with
  | zero =>
    intro blkIndex offset remaining _ x b hx
    simp [readLoop] at hx
  | succ left ih =>
    intro blkIndex offset remaining hleft x b hx
    by_cases hrem : remaining = 0
    · simp [hrem] at hx
    rcases hleads blkIndex (by omega) with ⟨hnull, -⟩ | ⟨hne, hblock⟩
    · simp [readLoop_null hrem hnull] at hx
    rw [readLoop_block hrem hne] at hx
    by_cases hlo : x < min remaining (4096 - offset % 4096)
    · -- the byte lies in this block
      rw [List.getElem?_append_left (by rwa [Bytes.length_read]),
        List.getElem?_eq_getElem (by rwa [Bytes.length_read]), Bytes.getElem_read,
        Option.some.injEq] at hx
      have hdiv : (4096 * blkIndex + offset % 4096 + x) / 4096 = blkIndex := by omega
      have hmod : (4096 * blkIndex + offset % 4096 + x) % 4096 = offset % 4096 + x := by omega
      rw [fileByte, hdiv, hmod, hblock, Option.getD_some]
      exact ⟨hx, by omega⟩
    · rw [List.getElem?_append_right (by rw [Bytes.length_read]; omega), Bytes.length_read] at hx
      by_cases hlast : remaining ≤ 4096 - offset % 4096
      · have hzero : remaining - min remaining (4096 - offset % 4096) = 0 := by omega
        simp [hzero] at hx
      · obtain ⟨hbyte, hlt⟩ := ih (by omega) hx
        refine ⟨?_, by omega⟩
        rw [← hbyte]
        congr 1
        omega

/-- Where no block is missing, everything asked for is read. -/
theorem readLoop_complete {disk : Disk} {nodei : Inode} (hleads : LeadsTo disk nodei blocks)
    (left : ℕ) : ∀ {blkIndex offset remaining : ℕ}, blkIndex + left = 16 →
      4096 * blkIndex + offset % 4096 + remaining ≤ 65536 →
      (∀ p, 4096 * blkIndex + offset % 4096 ≤ p →
        p < 4096 * blkIndex + offset % 4096 + remaining → blocks (p / 4096) ≠ none) →
      (readLoop disk nodei left blkIndex offset remaining).1.length = remaining := by
  induction left with
  | zero =>
    intro blkIndex offset remaining hleft hfit _
    have hrem : remaining = 0 := by omega
    simp [hrem]
  | succ left ih =>
    intro blkIndex offset remaining hleft hfit hpresent
    by_cases hrem : remaining = 0
    · simp [hrem]
    have hhere := hpresent (4096 * blkIndex + offset % 4096) le_rfl (by omega)
    have hdiv : (4096 * blkIndex + offset % 4096) / 4096 = blkIndex := by omega
    rw [hdiv] at hhere
    rcases hleads blkIndex (by omega) with ⟨-, hnone⟩ | ⟨hne, -⟩
    · exact absurd hnone hhere
    rw [readLoop_block hrem hne, List.length_append, Bytes.length_read]
    by_cases hlast : remaining ≤ 4096 - offset % 4096
    · simp [hlast]
    · rw [ih (by omega) (by omega) fun p h₁ h₂ => hpresent p (by omega) (by omega)]
      omega

end Reading

/-! ## Writing -/

section Writing

variable {s s' s₁ : Fs} {g : Graph} {i k : ℕ} {size : ℕ} {blocks : ℕ → Option Bytes}
  {nodei nodei' nodei₁ : Inode} {buffer : List UInt8}

theorem writeLoop_end {left blkIndex offset remaining bytesWritten : ℕ}
    (h : left = 0 ∨ remaining = 0) :
    writeLoop buffer left blkIndex offset remaining bytesWritten nodei s =
      (nodei, bytesWritten, s) := by
  cases left with
  | zero => rw [writeLoop]
  | succ left =>
    have hrem : remaining = 0 := h.resolve_left (Nat.succ_ne_zero left)
    rw [writeLoop, if_pos hrem]

/-- The state after one block has been written. -/
def storeBlock (nodei : Inode) (k : ℕ) (s : Fs) (off : ℕ) (bytes : List UInt8) : Fs :=
  { s with disk := bioWrite s.disk (nodei.ptr k) ((bioRead s.disk (nodei.ptr k)).write off bytes) }

theorem writeLoop_block {left blkIndex offset remaining bytesWritten : ℕ} (hrem : remaining ≠ 0)
    (hgot : ensureBlock nodei blkIndex s = (nodei₁, s₁)) :
    writeLoop buffer (left + 1) blkIndex offset remaining bytesWritten nodei s =
      writeLoop buffer left (blkIndex + 1) 0 (remaining - min remaining (4096 - offset % 4096))
        (bytesWritten + min remaining (4096 - offset % 4096)) nodei₁
        (storeBlock nodei₁ blkIndex s₁ (offset % 4096)
          ((buffer.drop bytesWritten).take (min remaining (4096 - offset % 4096)))) := by
  rw [writeLoop, if_neg hrem, hgot, storeBlock]

theorem ensureBlock_allocs (hgot : ensureBlock nodei k s = (nodei₁, s₁)) :
    s.allocs ⊆ s₁.allocs := by
  rw [ensureBlock] at hgot
  split at hgot
  · rw [Prod.mk.injEq] at hgot
    rw [← hgot.2, Fs.allocs_getAvailBlkno]
    exact List.subset_cons_self _ _
  · rw [Prod.mk.injEq] at hgot
    rw [hgot.2]
    exact List.Subset.refl _

theorem writeLoop_allocs (left : ℕ) :
    ∀ {blkIndex offset remaining bytesWritten bytesWritten' : ℕ} {nodei : Inode} {s : Fs},
      writeLoop buffer left blkIndex offset remaining bytesWritten nodei s =
        (nodei', bytesWritten', s') → s.allocs ⊆ s'.allocs := by
  induction left with
  | zero =>
    intro blkIndex offset remaining bytesWritten bytesWritten' nodei s h
    rw [writeLoop_end (Or.inl rfl), Prod.mk.injEq, Prod.mk.injEq] at h
    rw [h.2.2]
    exact List.Subset.refl _
  | succ left ih =>
    intro blkIndex offset remaining bytesWritten bytesWritten' nodei s h
    by_cases hrem : remaining = 0
    · rw [writeLoop_end (Or.inr hrem), Prod.mk.injEq, Prod.mk.injEq] at h
      rw [h.2.2]
      exact List.Subset.refl _
    · rcases hgot : ensureBlock nodei blkIndex s with ⟨nodei₁, s₁⟩
      rw [writeLoop_block hrem hgot] at h
      have hrest := ih h
      rw [storeBlock, Fs.allocs_disk] at hrest
      exact List.Subset.trans (ensureBlock_allocs hgot) hrest

/-- The inode in memory, which may have a pointer the disk does not know of yet, in place of
the one on the disk. -/
structure Ensured (s : Fs) (i k : ℕ) (nodei nodei₁ : Inode) (s₁ : Fs) : Prop where
  layout : s₁.Layout
  bounded : nodei₁.Bounded
  inodes : s₁.store.inodes = s.store.inodes
  blocks : s₁.store.blocks = s.store.blocks
  inodeUsed : s₁.store.inodeUsed = s.store.inodeUsed
  plain : ∀ f, Plain f → f.get nodei₁ 0 = f.get nodei 0
  ptr_ne : nodei₁.ptr k ≠ 0
  ptr_other : ∀ l, l ≠ k → nodei₁.ptr l = nodei.ptr l
  old : nodei.ptr k ≠ 0 → nodei₁.ptr k = nodei.ptr k
  new : nodei.ptr k = 0 → s.store.blocks (nodei₁.ptr k) = fun _ => 0
  owned : (s₁.store.setInode i nodei₁).Owned

theorem ensureBlock_spec (hgot : ensureBlock nodei k s = (nodei₁, s₁)) (hs : s.Layout)
    (hi : i < 1024) (hk : k < 16) (hbounded : nodei.Bounded)
    (howned : (s.store.setInode i nodei).Owned) (hgranted : s₁.Granted) :
    Ensured s i k nodei nodei₁ s₁ := by
  rw [ensureBlock] at hgot
  split at hgot
  · next hnull =>
    rw [Prod.mk.injEq] at hgot
    obtain ⟨hnodei, hs₁⟩ := hgot
    have hret : (getAvailBlkno s).1 ≠ -1 := by
      refine hgranted _ ?_
      rw [← hs₁, Fs.allocs_getAvailBlkno]
      exact List.mem_cons_self
    obtain ⟨b, hb, hgot, hfree, -, hused⟩ := Fs.getAvailBlkno_spec hs hret
    rw [hgot] at hnodei
    rw [hs₁] at hused
    have hb67 := howned.le_of_free hb hfree
    have hptr : nodei₁.ptr k = b := by
      rw [← hnodei]
      exact Inode.ptr_setPtr_same (by omega) (by omega)
    have hother (l : ℕ) (hl : l ≠ k) : nodei₁.ptr l = nodei.ptr l := by
      rw [← hnodei]
      exact Inode.ptr_setPtr_of_ne hl
    refine ⟨hs₁ ▸ Fs.layout_getAvailBlkno hs, hnodei ▸ Inode.bounded_setPtr hk hbounded,
      by rw [hused, Store.inodes_useBlock], by rw [hused, Store.blocks_useBlock],
      by rw [hused, Store.inodeUsed_useBlock], ?_, ?_, hother, fun hne => absurd hnull hne,
      fun _ => ?_, ?_⟩
    · intro f hf
      rw [← hnodei, Inode.get_setPtr hf hk]
    · rw [hptr]
      exact Nat.cast_ne_zero.mpr (Nat.ne_of_gt (Nat.lt_of_lt_of_le (by decide : 0 < 67) hb67))
    · rw [hptr]
      exact howned.blank b hb hb67 hfree
    · have hgrow := howned.grow hi hk (by rw [Store.ptr_setInode_same, hnull]) hb hfree hptr
        fun l _ hl => by rw [Store.ptr_setInode_same, hother l hl]
      rw [hused, Store.setInode_useBlock]
      rwa [Store.setInode_setInode] at hgrow
  · next hne =>
    rw [Prod.mk.injEq] at hgot
    obtain ⟨rfl, rfl⟩ := hgot
    exact ⟨hs, hbounded, rfl, rfl, rfl, fun _ _ => rfl, hne, fun _ _ => rfl, fun _ => rfl,
      fun hnull => absurd hnull hne, howned⟩

/-- One block of a file written. -/
theorem storeBlock_spec {o : ℕ} {x : List UInt8} (h : Ensured s i k nodei nodei₁ s₁)
    (hrep : Represents (s.store.setInode i nodei) g) (hi : i < 1024) (hk : k < 16)
    (hfile : g i = some (.file size blocks)) :
    (storeBlock nodei₁ k s₁ o x).Layout ∧
      (storeBlock nodei₁ k s₁ o x).store.inodeUsed = s.store.inodeUsed ∧
      Represents ((storeBlock nodei₁ k s₁ o x).store.setInode i nodei₁)
        (g.set i (.file size (Function.update blocks k
          (some (((blocks k).getD fun _ => 0).write o x))))) := by
  have hnode := hrep.node i hi
  rw [hfile] at hnode
  obtain ⟨hvalid, htype, hsize, hblocks⟩ := hnode
  rw [Store.inodes_setInode_same] at hvalid htype hsize
  have hptr : (s₁.store.setInode i nodei₁).ptr i k = nodei₁.ptr k := Store.ptr_setInode_same _ _ _ _
  have hrange := h.owned.ptr_range i hi k hk (by rw [hptr]; exact h.ptr_ne)
  rw [hptr] at hrange
  -- the block as it was
  have hold : bioRead s₁.disk (nodei₁.ptr k) = (blocks k).getD fun _ => 0 := by
    have hblock := hblocks k hk
    rw [Store.fileBlock, Store.ptr_setInode_same, Store.blocks_setInode] at hblock
    rw [Fs.bioRead_eq hrange.1, h.blocks]
    by_cases hnull : nodei.ptr k = 0
    · rw [if_pos hnull] at hblock
      rw [hblock, h.new hnull, Option.getD_none]
    · rw [if_neg hnull] at hblock
      rw [hblock, h.old hnull, Option.getD_some]
  have hstore : (storeBlock nodei₁ k s₁ o x).store.setInode i nodei₁ =
      (s₁.store.setInode i nodei₁).setBlock (nodei₁.ptr k)
        (((blocks k).getD fun _ => 0).write o x) := by
    rw [storeBlock, Fs.store_bioWrite h.layout hrange.1 hrange.2, hold, Store.setInode_setBlock]
  have howned := h.owned.setBlock hi hk (d := ((blocks k).getD fun _ => 0).write o x)
  rw [hptr] at howned
  refine ⟨Fs.layout_disk h.layout _, ?_, ?_⟩
  · rw [storeBlock, Fs.store_bioWrite h.layout hrange.1 hrange.2, Store.inodeUsed_setBlock,
      h.inodeUsed]
  rw [hstore]
  refine hrep.update hi howned ?_ ?_ ?_ ?_ ?_ ⟨?_, ?_, ?_, ?_⟩
  · rw [Store.inodes_setBlock, Store.inodes_setInode_same, h.plain _ (by decide),
      ← Store.inodes_setInode_same s.store i nodei, hrep.ino i hi]
  · intro j hj
    rw [Store.inodes_setBlock, Store.inodes_setInode_of_ne _ _ _ hj,
      Store.inodes_setInode_of_ne _ _ _ hj, h.inodes]
  · intro b hb
    have hne := hb k hk
    rw [Store.ptr_setBlock, hptr] at hne
    rw [Store.blocks_setBlock_of_ne _ _ _ (Ne.symm hne), Store.blocks_setInode,
      Store.blocks_setInode, h.blocks]
  · intro j hj
    rw [Store.inodeUsed_setBlock, Store.inodeUsed_setInode, h.inodeUsed]
    exact hj
  · rw [Store.inodeUsed_setBlock, Store.inodeUsed_setInode, h.inodeUsed]
    exact (hrep.used i (by rw [hfile]; exact Option.some_ne_none _)).2
  · rw [Store.inodes_setBlock, Store.inodes_setInode_same, h.plain _ (by decide)]
    exact hvalid
  · rw [Store.inodes_setBlock, Store.inodes_setInode_same, h.plain _ (by decide)]
    exact htype
  · rw [Store.inodes_setBlock, Store.inodes_setInode_same, h.plain _ (by decide)]
    exact hsize
  · intro l hl
    rw [Function.update_apply, Store.fileBlock, Store.ptr_setBlock, Store.ptr_setInode_same]
    by_cases hlk : l = k
    · rw [if_pos hlk, hlk, if_neg h.ptr_ne, Store.blocks_setBlock_same]
    · rw [if_neg hlk, hblocks l hl, Store.fileBlock, Store.ptr_setInode_same, h.ptr_other l hlk]
      split
      · rfl
      · next hne =>
        have hapart : nodei.ptr l ≠ nodei₁.ptr k := by
          intro heq
          rw [← h.ptr_other l hlk] at heq hne
          refine hlk (h.owned.ptr_inj i hi l hl i hi k hk ?_ ?_).2
          · rw [Store.ptr_setInode_same]
            exact hne
          · rw [Store.ptr_setInode_same, Store.ptr_setInode_same, heq]
        rw [Store.blocks_setBlock_of_ne _ _ _ hapart, Store.blocks_setInode, Store.blocks_setInode,
          h.blocks]

/-- The loop of `rufs_write` stores the first bytes of the buffer, up to the end of the last
direct block. -/
theorem writeLoop_spec (left : ℕ) :
    ∀ {blkIndex offset remaining bytesWritten bytesWritten' : ℕ} {nodei : Inode} {s : Fs}
      {g : Graph} {blocks : ℕ → Option Bytes}, blkIndex + left = 16 →
      bytesWritten + remaining ≤ buffer.length → s.Layout → nodei.Bounded → i < 1024 →
      Represents (s.store.setInode i nodei) g → g i = some (.file size blocks) →
      writeLoop buffer left blkIndex offset remaining bytesWritten nodei s =
        (nodei', bytesWritten', s') → s'.Granted →
      bytesWritten' =
          bytesWritten + min remaining (65536 - (4096 * blkIndex + offset % 4096)) ∧
        s'.Layout ∧ nodei'.Bounded ∧ s'.store.inodeUsed = s.store.inodeUsed ∧
        ∃ blocks', Stores blocks blocks' (4096 * blkIndex + offset % 4096)
            ((buffer.drop bytesWritten).take
              (min remaining (65536 - (4096 * blkIndex + offset % 4096)))) ∧
          Represents (s'.store.setInode i nodei') (g.set i (.file size blocks')) := by
  induction left with
  | zero =>
    intro blkIndex offset remaining bytesWritten bytesWritten' nodei s g blocks hleft _ hs
      hbounded _ hrep hfile h _
    rw [writeLoop_end (Or.inl rfl), Prod.mk.injEq, Prod.mk.injEq] at h
    obtain ⟨rfl, rfl, rfl⟩ := h
    have hn : min remaining (65536 - (4096 * blkIndex + offset % 4096)) = 0 := by omega
    rw [hn, List.take_zero]
    refine ⟨rfl, hs, hbounded, rfl, blocks, Stores.nil _ _, ?_⟩
    rwa [Graph.set_eq_self hfile]
  | succ left ih =>
    intro blkIndex offset remaining bytesWritten bytesWritten' nodei s g blocks hleft hlen hs
      hbounded hi hrep hfile h hgranted
    by_cases hrem : remaining = 0
    · rw [writeLoop_end (Or.inr hrem), Prod.mk.injEq, Prod.mk.injEq] at h
      obtain ⟨rfl, rfl, rfl⟩ := h
      have hn : min remaining (65536 - (4096 * blkIndex + offset % 4096)) = 0 := by omega
      rw [hn, List.take_zero]
      refine ⟨rfl, hs, hbounded, rfl, blocks, Stores.nil _ _, ?_⟩
      rwa [Graph.set_eq_self hfile]
    rcases hgot : ensureBlock nodei blkIndex s with ⟨nodei₁, s₁⟩
    rw [writeLoop_block hrem hgot] at h
    have hallocs := writeLoop_allocs left h
    rw [storeBlock, Fs.allocs_disk] at hallocs
    have hens := ensureBlock_spec hgot hs hi (by omega : blkIndex < 16) hbounded hrep.owned
      (hgranted.mono hallocs)
    -- the bytes that go to this block
    obtain ⟨chunk, hchunk⟩ : ∃ chunk,
        chunk = (buffer.drop bytesWritten).take (min remaining (4096 - offset % 4096)) := ⟨_, rfl⟩
    have hchunkLen : chunk.length = min remaining (4096 - offset % 4096) := by
      rw [hchunk, List.length_take, List.length_drop]
      omega
    rw [← hchunk] at h
    obtain ⟨hlayout, hused, hrep₁⟩ := storeBlock_spec (o := offset % 4096) (x := chunk) hens
      hrep hi (by omega) hfile
    have hstores : Stores blocks (Function.update blocks blkIndex
        (some (((blocks blkIndex).getD fun _ => 0).write (offset % 4096) chunk)))
        (4096 * blkIndex + offset % 4096) chunk := Stores.block (by omega) (by omega) rfl
    obtain ⟨hwritten, hs', hbounded', hused', blocks', hrest, hrep'⟩ := ih (by omega) (by omega)
      hlayout hens.bounded hi hrep₁ (Graph.set_same _ _ _) h hgranted
    rw [Graph.set_set] at hrep'
    refine ⟨by omega, hs', hbounded', hused'.trans hused, blocks', ?_, hrep'⟩
    by_cases hlast : remaining ≤ 4096 - offset % 4096
    · -- nothing is left for the blocks behind this one
      have hn : min (remaining - min remaining (4096 - offset % 4096))
          (65536 - (4096 * (blkIndex + 1) + 0 % 4096)) = 0 := by omega
      have hn' : min remaining (65536 - (4096 * blkIndex + offset % 4096)) =
          min remaining (4096 - offset % 4096) := by omega
      rw [hn, List.take_zero] at hrest
      rw [hn', ← hchunk]
      have happ := hstores.append (hrest.of_nil _)
      rwa [List.append_nil] at happ
    · have hpos : 4096 * (blkIndex + 1) + 0 % 4096 = 4096 * blkIndex + offset % 4096 + chunk.length := by
        omega
      rw [hpos, ← List.drop_drop] at hrest
      have happ := hstores.append hrest
      have hsum : min remaining (65536 - (4096 * blkIndex + offset % 4096)) =
          min remaining (4096 - offset % 4096) +
            min (remaining - min remaining (4096 - offset % 4096))
              (65536 - (4096 * blkIndex + offset % 4096 + chunk.length)) := by omega
      rw [hsum, List.take_add, ← hchunk]
      exact happ

end Writing

end UserLevelOs.Files
