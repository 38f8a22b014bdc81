import UserLevelOs.Files.Restart

/-!
# Block 0 is never written

The direct pointers of all inodes lead behind the metadata, and the metadata is marked as used.
Every write of a request goes to one of the bitmaps, to the table of inodes or through a direct
pointer, so block 0 stays what `rufs_mkfs` has made it.

## Main definitions

* `Fs.Sealed`.

## Main statements

* `Fs.Sealed.exec`, `Run.sealed`.
-/

namespace UserLevelOs.Files

open UserLevelOs.Lib

/-- Every pointer of the inode leads behind the metadata. -/
def Inode.Apart (inode : Inode) : Prop :=
  ∀ k < 16, inode.ptr k = 0 ∨ 67 ≤ inode.ptr k ∧ inode.ptr k < 16384

theorem Inode.Apart.congr {inode inode' : Inode} (h : inode.Apart)
    (hptr : ∀ k < 16, inode'.ptr k = inode.ptr k) : inode'.Apart := by
  intro k hk
  rw [hptr k hk]
  exact h k hk

theorem Inode.Apart.of_null {inode : Inode} (h : ∀ k < 16, inode.ptr k = 0) : inode.Apart :=
  fun k hk => Or.inl (h k hk)

theorem Inode.Apart.setPtr {inode : Inode} {l b : ℕ} (h : inode.Apart) (hb : 67 ≤ b)
    (hb' : b < 16384) : (inode.setPtr l b).Apart := by
  intro k hk
  by_cases hkl : k = l
  · rw [hkl, Inode.ptr_setPtr_same (by omega) (by omega)]
    exact Or.inr ⟨by omega, by omega⟩
  · rw [Inode.ptr_setPtr_of_ne hkl]
    exact h k hk

/-- The inode fits the table and leaves the metadata alone. -/
structure Inode.Tame (inode : Inode) : Prop where
  bounded : inode.Bounded
  apart : inode.Apart
  ino_lt : Inode.ino.get inode 0 < 1024

namespace Kept

variable {s : Fs} {g : Graph} {T : Places} {i : ℕ} {path : List UInt8} {nodei : Inode}

theorem tame (h : Kept s g T) (hi : g i ≠ none) : (s.store.inodes i).Tame where
  bounded := Fs.bounded_inodes s i
  apart k hk := by
    by_cases hnull : (s.store.inodes i).ptr k = 0
    · exact Or.inl hnull
    · exact Or.inr (h.rep.owned.ptr_range i (h.lt hi) k hk hnull)
  ino_lt := by
    rw [h.rep.ino i (h.lt hi)]
    exact h.lt hi

theorem tame_parent (h : Kept s g T) (hc : s.Enters path)
    (hget : getNodeByPath s (dirname path) s.rootDirIno = some nodei) : nodei.Tame := by
  have hmay := h.mayEnter hc
  rw [getNodeByPath_eq h.layout h.rep h.closed (nul_notMem_dirname hmay.string) hmay.searches] at hget
  obtain ⟨i, hwalk, hnodei⟩ := Option.map_eq_some_iff.mp hget
  exact hnodei ▸ h.tame (h.node_ne_none_of_walk hwalk)

theorem tame_file (h : Kept s g T) (hc : s.Accesses path)
    (hget : getNodeByPath s path s.rootDirIno = some nodei) : nodei.Tame := by
  have hmay := h.mayAccess hc
  rw [getNodeByPath_eq h.layout h.rep h.closed hmay.string hmay.searches] at hget
  obtain ⟨i, hwalk, hnodei⟩ := Option.map_eq_some_iff.mp hget
  exact hnodei ▸ h.tame (h.node_ne_none_of_walk hwalk)

end Kept

namespace Fs

/-- Block 0 is `block`, and nothing leads to the metadata. -/
structure Sealed (block : Bytes) (s : Fs) : Prop where
  layout : s.Layout
  block_zero : bioRead s.disk 0 = block
  metadata : ∀ b < 67, s.store.blockUsed b = true
  apart : ∀ i < 1024, (s.store.inodes i).Apart

namespace Sealed

variable {block : Bytes} {s s' s₁ : Fs} {i : ℕ} {inode : Inode} {b : ℤ}

theorem writei (h : Sealed block s) (i : ℕ) (hbounded : inode.Bounded) (hapart : inode.Apart) :
    Sealed block (writei s i inode) where
  layout := layout_writei h.layout i inode
  block_zero := by
    rw [disk_writei, inodeBlk_eq h.layout, bioRead_bioWrite_of_ne (by omega), h.block_zero]
  metadata := by
    have hused : (Files.writei s i inode).store.blockUsed = s.store.blockUsed := by
      simp only [store]
      rw [disk_writei, inodeBlk_eq h.layout, bioRead_bioWrite_of_ne (by omega)]
    rw [hused]
    exact h.metadata
  apart := by
    intro j hj
    by_cases hi : i < 1024
    · rw [store_writei h.layout hi hbounded]
      by_cases hji : j = i
      · rw [hji, Store.inodes_setInode_same]
        exact hapart
      · rw [Store.inodes_setInode_of_ne _ _ _ hji]
        exact h.apart j hj
    · -- the number is none of the table's
      have hread : readi (Files.writei s i inode) j = readi s j := by
        have hne : ((i / 16 + 3 : ℕ) : ℤ) ≠ ((j / 16 + 3 : ℕ) : ℤ) := by omega
        rw [readi, readi, inodeBlk_eq (layout_writei h.layout i inode), inodeBlk_eq h.layout, disk_writei,
          inodeBlk_eq h.layout, bioRead_bioWrite_of_ne hne]
      rw [← readi_eq hj, hread, readi_eq hj]
      exact h.apart j hj

theorem bioWrite (h : Sealed block s) (hb : 67 ≤ b) (hb' : b < 16384) (buf : Bytes) :
    Sealed block { s with disk := bioWrite s.disk b buf } where
  layout := layout_disk h.layout _
  block_zero := by rw [bioRead_bioWrite_of_ne (by omega), h.block_zero]
  metadata := by
    rw [store_bioWrite h.layout hb hb', Store.blockUsed_setBlock]
    exact h.metadata
  apart := by
    rw [store_bioWrite h.layout hb hb', Store.inodes_setBlock]
    exact h.apart

theorem getAvailIno (h : Sealed block s) (hret : (getAvailIno s).1 ≠ -1) :
    Sealed block (getAvailIno s).2 ∧ ∃ i : ℕ, (Files.getAvailIno s).1 = i ∧ i < 1024 := by
  obtain ⟨i, hi, hgot, -, -, hstore⟩ := getAvailIno_spec h.layout hret
  refine ⟨⟨layout_getAvailIno h.layout, ?_, ?_, ?_⟩, i, hgot, hi⟩
  · rw [(getAvailIno_disk s).2, h.layout.iBitmapBlk]
    split
    · rw [bioRead_bioWrite_of_ne (by decide), h.block_zero]
    · exact h.block_zero
  · rw [hstore, Store.blockUsed_useInode]
    exact h.metadata
  · rw [hstore, Store.inodes_useInode]
    exact h.apart

theorem getAvailBlkno (h : Sealed block s) (hret : (getAvailBlkno s).1 ≠ -1) :
    Sealed block (getAvailBlkno s).2 ∧
      ∃ b : ℕ, (Files.getAvailBlkno s).1 = b ∧ 67 ≤ b ∧ b < 16384 := by
  obtain ⟨b, hb, hgot, hclear, -, hstore⟩ := getAvailBlkno_spec h.layout hret
  refine ⟨⟨layout_getAvailBlkno h.layout, ?_, ?_, ?_⟩, b, hgot, ?_, hb⟩
  · rw [(getAvailBlkno_disk s).2, h.layout.dBitmapBlk]
    split
    · rw [bioRead_bioWrite_of_ne (by decide), h.block_zero]
    · exact h.block_zero
  · intro c hc
    rw [hstore, Store.blockUsed_useBlock, Function.update_apply]
    split
    · rfl
    · exact h.metadata c hc
  · rw [hstore, Store.inodes_useBlock]
    exact h.apart
  · by_contra hlt
    rw [h.metadata b (by omega)] at hclear
    cases hclear

/-- The pointer that `dir_add` found a slot behind is not missing. -/
theorem ptr_of_findSpot {dirInode : Inode} {k : ℕ} {slot : Option ℕ}
    (hspot : findSpot s dirInode = some (k, slot)) :
    k < 16 ∧ ∀ j, slot = some j → dirInode.ptr k ≠ 0 := by
  obtain ⟨i, hi, hfound⟩ := List.exists_of_findSome?_eq_some hspot
  rw [DIRECT_PTRS, List.mem_range] at hi
  split at hfound
  · cases hfound
    exact ⟨hi, fun j hj => by cases hj⟩
  · next hne =>
    obtain ⟨l, -, hl⟩ := Option.map_eq_some_iff.mp hfound
    cases hl
    exact ⟨hi, fun _ _ => hne⟩

theorem dirAdd {dirInode : Inode} {fname : List UInt8} {len : ℕ} {r : ℤ} (h : Sealed block s)
    (hbounded : dirInode.Bounded) (hapart : dirInode.Apart)
    (hadd : dirAdd s dirInode i fname len = some (r, s')) (hgranted : s'.Granted) :
    Sealed block s' := by
  rw [Files.dirAdd] at hadd
  split at hadd
  · cases hadd
    exact h
  · split at hadd
    · cases hadd
      exact h
    · split at hadd
      · cases hadd
        exact h
      · next ptrIndex hspot =>
        simp only [Option.bind_eq_bind, Option.bind_eq_some_iff, Option.some.injEq,
          Prod.mk.injEq] at hadd
        obtain ⟨buf, -, -, hs'⟩ := hadd
        have hret : (Files.getAvailBlkno s).1 ≠ -1 := by
          rw [← hs', Granted, allocs_writei, allocs_disk, allocs_getAvailBlkno] at hgranted
          exact hgranted _ List.mem_cons_self
        obtain ⟨h, b, hb, hlo, hhi⟩ := h.getAvailBlkno hret
        obtain ⟨hk, -⟩ := ptr_of_findSpot hspot
        rw [← hs', hb]
        exact (h.bioWrite (by omega) (by omega) buf).writei _ (Inode.bounded_setPtr hk hbounded)
          (hapart.setPtr hlo hhi)
      · next ptrIndex j hspot =>
        simp only [Option.bind_eq_bind, Option.bind_eq_some_iff, Option.some.injEq,
          Prod.mk.injEq] at hadd
        obtain ⟨buf, -, -, hs'⟩ := hadd
        obtain ⟨hk, hne⟩ := ptr_of_findSpot hspot
        obtain ⟨hlo, hhi⟩ := (hapart _ hk).resolve_left (hne j rfl)
        rw [← hs']
        exact h.bioWrite hlo hhi buf

/-! ## Requests -/

theorem readi_apart (h : Sealed block s) (hi : i < 1024) : (readi s i).Apart := by
  rw [readi_eq hi]
  exact h.apart i hi

theorem addToParent {path : List UInt8} {added : ℤ ⊕ Inode × ℕ} (h : Sealed block s)
    (hnode : ∀ nodei, getNodeByPath s (dirname path) s.rootDirIno = some nodei → nodei.Tame)
    (hadd : addToParent s path = some (added, s')) (hgranted : s'.Granted) :
    Sealed block s' ∧ ∀ nodei newIno, added = .inr (nodei, newIno) → nodei.Tame ∧ newIno < 1024 := by
  rcases addToParent_some hadd with ⟨-, rfl, rfl⟩ | ⟨nodei, r, hget, hdir, rfl⟩
  · exact ⟨h, fun _ _ heq => by cases heq⟩
  · have htame := hnode nodei hget
    obtain ⟨h₁, i, hgot, hi⟩ := h.getAvailIno (hgranted.of_dirAdd hdir).getAvailIno
    refine ⟨h₁.dirAdd htame.bounded htame.apart hdir hgranted, fun nodei' newIno heq => ?_⟩
    split_ifs at heq
    cases heq
    refine ⟨htame, ?_⟩
    rw [hgot]
    omega

theorem rufsCreate {path : List UInt8} {times : Times} {ret : ℤ} (h : Sealed block s)
    (hnode : ∀ nodei, getNodeByPath s (dirname path) s.rootDirIno = some nodei → nodei.Tame)
    (hcall : rufsCreate s path times = some (ret, s')) (hgranted : s'.Granted) :
    Sealed block s' := by
  cases rufsCreate_some hcall with
  | error hadd => exact (h.addToParent hnode hadd hgranted).1
  | @entered nodei i s₁ hadd =>
    obtain ⟨h₁, hinr⟩ := h.addToParent hnode hadd hgranted.of_writei
    obtain ⟨-, hi⟩ := hinr nodei i rfl
    obtain ⟨hbounded, -, -, -, -, hptr⟩ := newFileInode_spec (t := times) (bounded_readi s₁ i) hi
    exact h₁.writei i hbounded (.of_null hptr)

theorem rufsMkdir {path : List UInt8} {times : Times} {ret : ℤ} (h : Sealed block s)
    (hnode : ∀ nodei, getNodeByPath s (dirname path) s.rootDirIno = some nodei → nodei.Tame)
    (hcall : rufsMkdir s path times = some (ret, s')) (hgranted : s'.Granted) :
    Sealed block s' := by
  cases rufsMkdir_some hcall with
  | error hadd => exact (h.addToParent hnode hadd hgranted).1
  | @entered nodei i r₂ r₃ s₁ s₂ s₃ s' hadd hadd₂ hadd₃ hs' =>
    have hgranted₃ : s₃.Granted := (hs' ▸ hgranted).of_writei
    have hgranted₂ := hgranted₃.of_dirAdd hadd₃
    obtain ⟨h₁, hinr⟩ := h.addToParent hnode hadd (hgranted₂.of_dirAdd hadd₂).of_writei
    obtain ⟨htame, hi⟩ := hinr nodei i rfl
    obtain ⟨hbounded, -, -, -, hptr⟩ := newDirInode_spec (t := times) (bounded_readi s₁ i) hi
    have h₂ := (h₁.writei i hbounded (.of_null hptr)).dirAdd hbounded (.of_null hptr) hadd₂ hgranted₂
    have h₃ := h₂.dirAdd (bounded_readi s₂ i) (h₂.readi_apart hi) hadd₃ hgranted₃
    rw [hs']
    exact h₃.writei _ (bounded_countedInode (bounded_readi s₃ _))
      ((h₃.readi_apart htame.ino_lt).congr (agrees_countedInode _).ptr)

theorem ensureBlock {nodei nodei₁ : Inode} {k : ℕ} (h : Sealed block s) (htame : nodei.Tame) (hk : k < 16)
    (hgot : ensureBlock nodei k s = (nodei₁, s₁)) (hgranted : s₁.Granted) :
    Sealed block s₁ ∧ nodei₁.Tame ∧ 67 ≤ nodei₁.ptr k ∧ nodei₁.ptr k < 16384 := by
  rw [Files.ensureBlock] at hgot
  split at hgot
  · rw [Prod.mk.injEq] at hgot
    have hret : (Files.getAvailBlkno s).1 ≠ -1 := by
      rw [← hgot.2, Granted, allocs_getAvailBlkno] at hgranted
      exact hgranted _ List.mem_cons_self
    obtain ⟨h, b, hb, hlo, hhi⟩ := h.getAvailBlkno hret
    rw [hb] at hgot
    rw [← hgot.1, ← hgot.2, Inode.ptr_setPtr_same (by omega) (by omega)]
    refine ⟨h, ⟨Inode.bounded_setPtr hk htame.bounded, htame.apart.setPtr hlo hhi, ?_⟩, by omega, by omega⟩
    rw [Inode.get_setPtr (by decide) hk]
    exact htame.ino_lt
  · next hne =>
    rw [Prod.mk.injEq] at hgot
    rw [← hgot.1, ← hgot.2]
    exact ⟨h, htame, (htame.apart k hk).resolve_left hne⟩

theorem writeLoop {buffer : List UInt8} {nodei' : Inode} (left : ℕ) :
    ∀ {blkIndex offset remaining bytesWritten bytesWritten' : ℕ} {nodei : Inode} {s : Fs},
      Sealed block s → nodei.Tame → blkIndex + left ≤ 16 ∨ left = 0 →
      writeLoop buffer left blkIndex offset remaining bytesWritten nodei s =
        (nodei', bytesWritten', s') → s'.Granted → Sealed block s' ∧ nodei'.Tame := by
  induction left with
  | zero =>
    intro blkIndex offset remaining bytesWritten bytesWritten' nodei s h htame _ hloop _
    rw [writeLoop_end (Or.inl rfl), Prod.mk.injEq, Prod.mk.injEq] at hloop
    rw [← hloop.1, ← hloop.2.2]
    exact ⟨h, htame⟩
  | succ left ih =>
    intro blkIndex offset remaining bytesWritten bytesWritten' nodei s h htame hleft hloop hgranted
    by_cases hrem : remaining = 0
    · rw [writeLoop_end (Or.inr hrem), Prod.mk.injEq, Prod.mk.injEq] at hloop
      rw [← hloop.1, ← hloop.2.2]
      exact ⟨h, htame⟩
    · rcases hgot : Files.ensureBlock nodei blkIndex s with ⟨nodei₁, s₁⟩
      rw [writeLoop_block hrem hgot] at hloop
      have hallocs := writeLoop_allocs left hloop
      rw [storeBlock, allocs_disk] at hallocs
      obtain ⟨h, htame, hlo, hhi⟩ := h.ensureBlock htame (by omega) hgot (hgranted.mono hallocs)
      exact ih (h.bioWrite hlo hhi _) htame (by omega) hloop hgranted

theorem rufsWrite {path buffer : List UInt8} {size offset : ℕ} {times : Times} {ret : ℤ} (h : Sealed block s)
    (hnode : ∀ nodei, getNodeByPath s path s.rootDirIno = some nodei → nodei.Tame)
    (hcall : rufsWrite s path buffer size offset times = some (ret, s')) (hgranted : s'.Granted) :
    Sealed block s' := by
  rw [Files.rufsWrite] at hcall
  cases hget : getNodeByPath s path s.rootDirIno with
  | none =>
    rw [hget] at hcall
    cases hcall
    exact h
  | some nodei =>
    rw [hget] at hcall
    dsimp only at hcall
    split at hcall
    · cases hcall
    · split at hcall
      · cases hcall
      · obtain ⟨left, hleft⟩ : ∃ left, DIRECT_PTRS - (toInt (offset / BLOCK_SIZE : ℕ)).toNat = left :=
          ⟨_, rfl⟩
        rw [hleft] at hcall
        rcases hloop : Files.writeLoop buffer left (toInt (offset / BLOCK_SIZE : ℕ)).toNat offset
          (toInt size).toNat 0 nodei s with ⟨nodei', bytesWritten, s₁⟩
        rw [hloop, Option.some.injEq, Prod.mk.injEq] at hcall
        have hbound : (toInt (offset / BLOCK_SIZE : ℕ)).toNat + left ≤ 16 ∨ left = 0 := by
          simp only [DIRECT_PTRS] at hleft
          omega
        rw [← hcall.2, Granted, allocs_writei] at hgranted
        obtain ⟨h, htame⟩ := h.writeLoop left (hnode nodei hget) hbound hloop hgranted
        obtain ⟨hbounded, -, -, -, hptr⟩ := writtenInode_spec htame.bounded bytesWritten times
        rw [← hcall.2]
        exact h.writei _ hbounded (htame.apart.congr hptr)

theorem rufsRead {path : List UInt8} {size offset atime : ℕ} {ret : ℤ} {bytes : List UInt8}
    (h : Sealed block s)
    (hnode : ∀ nodei, getNodeByPath s path s.rootDirIno = some nodei → nodei.Tame)
    (hcall : rufsRead s path size offset atime = some (ret, bytes, s')) : Sealed block s' := by
  rw [Files.rufsRead] at hcall
  cases hget : getNodeByPath s path s.rootDirIno with
  | none =>
    rw [hget] at hcall
    cases hcall
    exact h
  | some nodei =>
    have htame := hnode nodei hget
    rw [hget] at hcall
    dsimp only at hcall
    by_cases hend : Inode.size.get nodei 0 ≤ offset
    · rw [if_pos hend] at hcall
      cases hcall
      exact h
    · rw [if_neg hend] at hcall
      generalize (if (toInt ((Inode.size.get nodei 0 : ℤ) - offset) % 2 ^ 64).toNat < size then
        toInt ((Inode.size.get nodei 0 : ℤ) - offset) else toInt size) = remaining at hcall
      split at hcall
      · cases hcall
      · split at hcall
        · rw [Option.some.injEq, Prod.mk.injEq, Prod.mk.injEq] at hcall
          rw [← hcall.2.2]
          refine h.writei _ (Inode.bounded_set (by decide) htame.bounded) (htame.apart.congr fun k hk => ?_)
          exact Inode.ptr_set (by decide) hk
        · rw [Option.some.injEq, Prod.mk.injEq, Prod.mk.injEq] at hcall
          rw [← hcall.2.2]
          exact h

/-- A request the kernel lets through. -/
theorem exec {g : Graph} {T : Places} {c : Call} {r : Reply} (h : Sealed block s) (hkept : Kept s g T)
    (hc : s.Allows c) (hexec : c.exec s = some (r, s')) (hgranted : s'.Granted) : Sealed block s' := by
  cases c with
  | mkdir path times =>
    obtain ⟨⟨ret, s₁⟩, hcall, hr⟩ := Option.map_eq_some_iff.mp hexec
    cases hr
    exact h.rufsMkdir (fun _ => hkept.tame_parent hc) hcall hgranted
  | create path times =>
    obtain ⟨⟨ret, s₁⟩, hcall, hr⟩ := Option.map_eq_some_iff.mp hexec
    cases hr
    exact h.rufsCreate (fun _ => hkept.tame_parent hc) hcall hgranted
  | read path size offset atime =>
    obtain ⟨⟨ret, bytes, s₁⟩, hcall, hr⟩ := Option.map_eq_some_iff.mp hexec
    cases hr
    exact h.rufsRead (fun _ => hkept.tame_file hc) hcall
  | write path buffer size offset times =>
    obtain ⟨⟨ret, s₁⟩, hcall, hr⟩ := Option.map_eq_some_iff.mp hexec
    cases hr
    exact h.rufsWrite (fun _ => hkept.tame_file hc.1) hcall hgranted

end Sealed

end Fs

/-! ## Runs -/

section Run

variable {junk : Bytes} {times : Times} {s : Fs} {log : List Event}

/-- Block 0 as `rufs_mkfs` writes it. -/
def superblockBlock (junk : Bytes) : Bytes := junk.copy 0 initSuperblock 0 Superblock.bytes

/-- A new disk. -/
theorem sealed_mkfs (h : rufsMkfs junk times = some s) :
    s.Sealed (superblockBlock junk) ∧ s.Alike initSuperblock 0 s := by
  obtain ⟨t, hmkfs, ⟨hlayout, -, -, hrep⟩, hgot, -, hsb, hzero, -⟩ := rufsMkfs_makeRoot junk times
  have hgranted := (made_of_rufsMkfs h).granted
  rw [hmkfs] at h
  have ht : t.Sealed (superblockBlock junk) := by
    refine ⟨hlayout, hzero, fun b hb => ?_, fun i hi => .of_null (hrep.node i hi).2⟩
    exact (hrep.owned.used_iff b (by omega)).mpr (Or.inl hb)
  obtain ⟨ht₁, -⟩ := ht.getAvailIno (by rw [hgot]; decide)
  have halike := (⟨rfl, ⟨hsb, hlayout.rootDirIno⟩, ⟨hsb, hlayout.rootDirIno⟩⟩ :
    t.Alike initSuperblock 0 t).getAvailIno.2
  obtain ⟨t₁, ht₁'⟩ : ∃ t₁, (getAvailIno t).2 = t₁ := ⟨_, rfl⟩
  rw [ht₁'] at ht₁ halike h
  obtain ⟨root, hroot⟩ : ∃ root, rootInode (readi t₁ 0) 0 times = root := ⟨_, rfl⟩
  obtain ⟨hbounded, -, -, -, hptr⟩ :=
    rootInode_spec (t := times) (Fs.bounded_readi t₁ 0) (by decide : 0 < 1024)
  rw [hroot] at hbounded hptr
  have ht₂ := ht₁.writei 0 hbounded (.of_null hptr)
  have halike := halike.writei 0 root
  rw [makeRoot] at h
  dsimp only at h
  rw [hroot, eta_rootDirIno ht₂.layout] at h
  simp only [Option.bind_eq_bind, Option.bind_eq_some_iff, Option.some.injEq] at h
  obtain ⟨⟨r₃, t₃⟩, hadd₃, ⟨r₄, t₄⟩, hadd₄, hs⟩ := h
  dsimp only at hadd₄ hs
  rw [hs] at hadd₄
  have hgranted₃ := hgranted.of_dirAdd hadd₄
  have ht₃ := ht₂.dirAdd hbounded (.of_null hptr) hadd₃ hgranted₃
  refine ⟨ht₃.dirAdd (Fs.bounded_readi _ _) ?_ hadd₄ hgranted, ?_⟩
  · rw [ht₃.layout.rootDirIno]
    exact ht₃.readi_apart (by decide)
  · obtain ⟨t', ht', halike⟩ := (halike.dirAdd _ _ _ _).of_some hadd₃
    rw [hadd₃] at ht'
    cases ht'
    obtain ⟨t', ht', halike⟩ := (halike.dirAdd _ _ _ _).of_some hadd₄
    rw [hadd₄] at ht'
    cases ht'
    exact halike

/-- Block 0 holds the superblock in every run. -/
theorem Run.sealed (hrun : Run Fs.Allows junk times s log) : s.Sealed (superblockBlock junk) := by
  induction hrun with
  | made h => exact (sealed_mkfs h).1
  | call hrun hc hexec hgranted ih =>
    obtain ⟨g, T, hkept, -⟩ := hrun.kept_graph
    exact ih.exec hkept hc hexec hgranted

end Run

end UserLevelOs.Files
