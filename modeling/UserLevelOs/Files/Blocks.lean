import UserLevelOs.Files.Sizes

/-!
# Who owns a block

The bits of the data bitmap, the pointers of the valid inodes and the blocks behind the
metadata say the same thing, as long as writes go to regular files.  A write to a
directory can make up an entry for an inode that is not valid, and a write through that entry
takes a block that no valid inode owns.

## Main definitions

* `BlocksOwned`.
* `Fs.WritesFiles` — requests that write to regular files and read what they like.
* `Fs.Reaches` — requests that may name a directory where a file is meant.

## Main statements

* `Run.blocksOwned`.
* `blocksOwned_fails`.
-/

namespace UserLevelOs.Files

open UserLevelOs.Lib

/-- Pointer `k` of inode `i`, on the disk. -/
def Fs.ptr (s : Fs) (i k : ℕ) : ℤ := (readi s i).ptr k

/-- The bits of the data bitmap are the metadata and the pointers of the valid inodes, no
block is pointed to twice, and pointers lead to data blocks. -/
structure BlocksOwned (s : Fs) : Prop where
  used_iff : ∀ b < MAX_DNUM, Bitmap.get .lsbFirst (bioRead s.disk s.dBitmapBlk) b = true ↔
    b ≤ 66 ∨ b ≠ 0 ∧ ∃ i < MAX_INUM, Inode.valid.get (readi s i) 0 ≠ INVALID ∧
      ∃ k < DIRECT_PTRS, s.ptr i k = b
  once : ∀ i < MAX_INUM, ∀ k < DIRECT_PTRS, ∀ j < MAX_INUM, ∀ l < DIRECT_PTRS,
    s.ptr i k ≠ 0 → s.ptr i k = s.ptr j l → i = j ∧ k = l
  range : ∀ i < MAX_INUM, ∀ k < DIRECT_PTRS, s.ptr i k ≠ 0 →
    67 ≤ s.ptr i k ∧ s.ptr i k ≤ MAX_DNUM - 1

section Owned

variable {s : Fs} {g : Graph} {i k : ℕ}

theorem Fs.ptr_eq (hi : i < 1024) : s.ptr i k = s.store.ptr i k := by
  rw [Fs.ptr, Fs.readi_eq hi, Store.ptr]

/-- Inodes that stand for nothing have no blocks. -/
theorem Represents.valid_of_ptr {st : Store} (h : Represents st g) (hi : i < 1024) (hk : k < 16)
    (hne : st.ptr i k ≠ 0) : Inode.valid.get (st.inodes i) 0 ≠ 0 := by
  have hnode := h.node i hi
  cases hn : g i with
  | none =>
    rw [hn] at hnode
    exact absurd (hnode.2 k hk) hne
  | some n =>
    rw [hn] at hnode
    cases n with
    | dir entries => exact hnode.1
    | file size blocks => exact hnode.1

theorem Represents.owns (hs : s.Layout) (h : Represents s.store g) : BlocksOwned s where
  used_iff := by
    intro b hb
    have hflag : Bitmap.get .lsbFirst (bioRead s.disk s.dBitmapBlk) b = s.store.blockUsed b := by
      rw [hs.dBitmapBlk]
      rfl
    rw [hflag, h.owned.used_iff b hb]
    by_cases hlt : b < 67
    · exact iff_of_true (Or.inl hlt) (Or.inl (Nat.le_of_lt_succ hlt))
    · constructor
      · rintro (hlt' | ⟨i, hi, k, hk, hptr⟩)
        · exact absurd hlt' hlt
        · have hne : s.store.ptr i k ≠ 0 := by omega
          refine Or.inr ⟨by omega, i, hi, ?_, k, hk, by rw [Fs.ptr_eq hi, hptr]⟩
          rw [Fs.readi_eq hi]
          exact h.valid_of_ptr hi hk hne
      · rintro (hle | ⟨-, i, hi, -, k, hk, hptr⟩)
        · exact absurd (Nat.lt_succ_of_le hle) hlt
        · exact Or.inr ⟨i, hi, k, hk, by rw [← Fs.ptr_eq hi, hptr]⟩
  once := by
    intro i hi k hk j hj l hl
    rw [Fs.ptr_eq hi, Fs.ptr_eq hj]
    exact h.owned.ptr_inj i hi k hk j hj l hl
  range := by
    intro i hi k hk
    rw [Fs.ptr_eq hi]
    intro hne
    obtain ⟨hlo, hhi⟩ := h.owned.ptr_range i hi k hk hne
    exact ⟨hlo, by simp only [MAX_DNUM]; omega⟩

end Owned

namespace Fs

/-- Requests whose paths go through directories, and that write to regular files only. -/
def WritesFiles (s : Fs) : Call → Prop
  | .mkdir path _ => s.Enters path
  | .create path _ => s.Enters path
  | .read path _ _ _ => 0 ∉ path ∧ s.SearchesDirs s.rootDirIno (strtokAll path)
  | .write path _ _ offset _ => s.Accesses path ∧ offset < 65536

theorem Allows.writesFiles {s : Fs} {c : Call} (h : s.Allows c) : s.WritesFiles c := by
  cases c with
  | mkdir path times => exact h
  | create path times => exact h
  | read path size offset atime => exact ⟨Accesses.string h, Accesses.searches h⟩
  | write path buffer size offset times => exact h

end Fs

section Run

variable {junk : Bytes} {times : Times} {s s' : Fs} {g : Graph} {T : Places} {log : List Event}
  {path : List UInt8} {c : Call} {r : Reply}

/-- A read of anything leaves the graph as it is. -/
theorem Kept.read {size offset atime : ℕ} {ret : ℤ} {bytes : List UInt8} (h : Kept s g T)
    (hstring : 0 ∉ path) (hsearch : s.SearchesDirs s.rootDirIno (strtokAll path))
    (hcall : rufsRead s path size offset atime = some (ret, bytes, s')) : Kept s' g T := by
  have hnames : ∀ name ∈ strtokAll path, 0 ∉ name := fun name hmem => nul_notMem_of_mem hstring hmem
  rw [h.layout.rootDirIno] at hsearch
  have hsearch := h.walkSearches h.root_ne_none hnames hsearch
  rw [rufsRead, getNodeByPath_eq h.layout h.rep h.closed hstring hsearch] at hcall
  cases hwalk : g.walk 0 (strtokAll path) with
  | none =>
    rw [hwalk] at hcall
    cases hcall
    exact h
  | some i =>
    have hi := h.lt (h.node_ne_none_of_walk hwalk)
    have hagree : Agrees (Inode.stAtime.set (s.store.inodes i) 0 atime) (s.store.inodes i) :=
      Agrees.set (by decide) (by decide)
    have hbounded : Inode.Bounded (Inode.stAtime.set (s.store.inodes i) 0 atime) :=
      Inode.bounded_set (by decide) (Fs.bounded_inodes s i)
    rw [hwalk, Option.map_some] at hcall
    dsimp only at hcall
    obtain ⟨remaining, hrem⟩ : ∃ remaining, remaining =
        (if (toInt ((Inode.size.get (s.store.inodes i) 0 : ℤ) - offset) % 2 ^ 64).toNat < size then
          toInt ((Inode.size.get (s.store.inodes i) 0 : ℤ) - offset) else toInt size) := ⟨_, rfl⟩
    rw [← hrem] at hcall
    split at hcall
    · rw [Option.some.injEq, Prod.mk.injEq, Prod.mk.injEq] at hcall
      obtain ⟨-, -, rfl⟩ := hcall
      exact h
    · split at hcall
      · exact absurd hcall (Option.some_ne_none _).symm
      · -- the time of access is written back, unless a block is missing
        split at hcall
        · rw [Option.some.injEq, Prod.mk.injEq, Prod.mk.injEq, hagree.ino, h.rep.ino i hi] at hcall
          obtain ⟨-, -, rfl⟩ := hcall
          refine ⟨Fs.layout_writei h.layout _ _, ?_, h.closed, h.placed⟩
          rw [Fs.store_writei h.layout hi hbounded]
          exact h.rep.setInode hagree
        · rw [Option.some.injEq, Prod.mk.injEq, Prod.mk.injEq] at hcall
          obtain ⟨-, -, rfl⟩ := hcall
          exact h

theorem Kept.stepWritesFiles (h : Kept s g T) (hc : s.WritesFiles c)
    (hexec : c.exec s = some (r, s')) (hgranted : s'.Granted) : ∃ g' T', Kept s' g' T' := by
  cases c with
  | mkdir path times =>
    obtain ⟨g', T', h', -⟩ := h.step (c := .mkdir path times) hc hexec hgranted
    exact ⟨g', T', h'⟩
  | create path times =>
    obtain ⟨g', T', h', -⟩ := h.step (c := .create path times) hc hexec hgranted
    exact ⟨g', T', h'⟩
  | read path size offset atime =>
    obtain ⟨⟨ret, bytes, s₁⟩, hcall, hr⟩ := Option.map_eq_some_iff.mp hexec
    cases hr
    exact ⟨g, T, h.read hc.1 hc.2 hcall⟩
  | write path buffer size offset times =>
    obtain ⟨g', T', h', -⟩ := h.step (c := .write path buffer size offset times) hc hexec hgranted
    exact ⟨g', T', h'⟩

theorem Run.blocksOwned (hrun : Run Fs.WritesFiles junk times s log) : BlocksOwned s := by
  have hkept : ∃ g T, Kept s g T := by
    induction hrun with
    | made h => exact ⟨_, _, (made_of_rufsMkfs h).kept⟩
    | call _ hc hexec hgranted ih =>
      obtain ⟨g, T, hkept⟩ := ih
      exact hkept.stepWritesFiles hc hexec hgranted
  obtain ⟨g, T, hkept⟩ := hkept
  exact hkept.rep.owns hkept.layout

theorem Run.blocksOwned_written : ∃ s log, Run Fs.WritesFiles (fun _ => 0) ⟨0, 0⟩ s log ∧
    log ≠ [] ∧ BlocksOwned s := by
  obtain ⟨s₁, i, hfile⟩ := exists_file (fun _ => 0) ⟨0, 0⟩
  obtain ⟨s, blocks, hfile, -⟩ := hfile.write (by decide : 0 < 65536) (by decide : 0 < 3) (by decide)
    (by decide : 3 ≤ ([7, 8, 9] : List UInt8).length)
  have hrun := hfile.run.mono fun _ _ hc => hc.writesFiles
  exact ⟨s, _, hrun, List.cons_ne_nil _ _, Run.blocksOwned hrun⟩

end Run

/-! ## Writing to a directory -/

namespace Fs

/-- Requests whose paths go through directories, whatever they end at. -/
def Reaches (s : Fs) : Call → Prop
  | .mkdir path _ => s.Enters path
  | .create path _ => s.Enters path
  | .read path _ _ _ => 0 ∉ path ∧ s.SearchesDirs s.rootDirIno (strtokAll path)
  | .write path _ _ offset _ =>
    (0 ∉ path ∧ s.SearchesDirs s.rootDirIno (strtokAll path)) ∧ offset < 65536

end Fs

theorem store_storeBlock {s : Fs} {nodei : Inode} {k off : ℕ} {bytes : List UInt8} (hs : s.Layout)
    (hlo : 67 ≤ nodei.ptr k) (hhi : nodei.ptr k < 16384) :
    (storeBlock nodei k s off bytes).store =
      s.store.setBlock (nodei.ptr k) ((bioRead s.disk (nodei.ptr k)).write off bytes) := by
  rw [storeBlock]
  exact Fs.store_bioWrite hs hlo hhi

theorem agrees_writtenInode (nodei : Inode) (n : ℕ) (times : Times) :
    Agrees (writtenInode nodei n times)
      (Inode.size.set nodei 0 (Inode.size.get nodei 0 + n)) :=
  agrees_setTimes.trans (Agrees.set (by decide) (by decide))

theorem writtenInode_spec {nodei : Inode} (h : nodei.Bounded) (n : ℕ) (times : Times) :
    (writtenInode nodei n times).Bounded ∧
      Inode.ino.get (writtenInode nodei n times) 0 = Inode.ino.get nodei 0 ∧
      Inode.valid.get (writtenInode nodei n times) 0 = Inode.valid.get nodei 0 ∧
      Inode.type.get (writtenInode nodei n times) 0 = Inode.type.get nodei 0 ∧
      ∀ k < 16, (writtenInode nodei n times).ptr k = nodei.ptr k := by
  have hagree := agrees_writtenInode nodei n times
  refine ⟨?_, hagree.ino.trans (Field.get_set_of_apart (by decide)),
    hagree.valid.trans (Field.get_set_of_apart (by decide)),
    hagree.type.trans (Field.get_set_of_apart (by decide)),
    fun k hk => (hagree.ptr k hk).trans (Inode.ptr_set (by decide) hk)⟩
  exact bounded_setTimes (Inode.bounded_set (by decide) (Inode.bounded_set (by decide) h))

/-- The inode of a directory may change in its size, too. -/
theorem Represents.setDirInode {st : Store} {g : Graph} {i : ℕ} {inode : Inode}
    {entries : List (Name × ℕ)} (h : Represents st g) (hi : i < 1024)
    (hdir : g i = some (.dir entries))
    (hino : Inode.ino.get inode 0 = Inode.ino.get (st.inodes i) 0)
    (hvalid : Inode.valid.get inode 0 = Inode.valid.get (st.inodes i) 0)
    (htype : Inode.type.get inode 0 = Inode.type.get (st.inodes i) 0)
    (hptr : ∀ k < 16, inode.ptr k = st.ptr i k) : Represents (st.setInode i inode) g := by
  have hnode := h.node i hi
  rw [hdir] at hnode
  obtain ⟨hvalid', htype', hlen, hiff, hslot, hstored⟩ := hnode
  rw [← Graph.set_eq_self hdir]
  refine h.update hi (h.owned.setInode hptr) ?_ (fun j hj => Store.inodes_setInode_of_ne _ _ _ hj)
    (fun _ _ => rfl) (fun _ h => h) (h.used i (by rw [hdir]; exact Option.some_ne_none _)).2 ?_
  · rw [Store.inodes_setInode_same, hino, h.ino i hi]
  · rw [NodeHolds, Store.inodes_setInode_same, hvalid, htype]
    refine ⟨hvalid', htype', hlen, fun k hk => ?_, fun k hk => ?_, hstored⟩
    · rw [Store.ptr_setInode_same, hptr k hk]
      exact hiff k hk
    · rw [Store.ptr_setInode_same, hptr k hk]
      exact hslot k hk

/-- An entry called `x` for inode 5. -/
def direntBytes : List UInt8 := [5, 0, 1, 0, 120, 0]

section Counterexample

variable {s s₁ : Fs} {times : Times}

theorem slotHolds_direntBytes (buf : Bytes) :
    SlotHolds (buf.write 428 direntBytes) 2 (some ([120], 5)) := by
  have hread (k n : ℕ) (h : k + n ≤ direntBytes.length) :
      (buf.write 428 direntBytes).read (428 + k) n = (direntBytes.drop k).take n :=
    Bytes.read_write_part buf 428 h
  have haddr : slotAddr 2 = 428 := rfl
  have hlen : ([120] : List UInt8).length + 1 = 2 := rfl
  refine ⟨?_, ?_, ?_⟩
  · rw [haddr, Field.get, Bytes.loadLE, Dirent.valid, hread 2 2 (by decide)]
    decide
  · rw [haddr, Bytes.strEq_iff, Dirent.name, hlen, hread 4 2 (by decide)]
    decide
  · rw [haddr, Field.get, Bytes.loadLE, Dirent.ino, hread 0 2 (by decide)]
    decide

/-- The root after an entry for inode 5 has been written into it. -/
def forgedGraph : Graph := rootGraph.set 0 (.dir ([(dot, 0), (dotdot, 0)] ++ [([120], 5)]))

theorem exists_forged : ∃ s, Run Fs.Reaches (fun _ => 0) ⟨0, 0⟩ s
      [⟨.write [SLASH] direntBytes 6 428 ⟨0, 0⟩, ⟨6, []⟩⟩] ∧ s.Layout ∧ s.Granted ∧
    Represents s.store forgedGraph := by
  obtain ⟨s₀, hs₀, hmade⟩ := rufsMkfs_spec (fun _ => 0) ⟨0, 0⟩
  have hlayout := hmade.layout
  have hdir := (hmade.rep.node 0 (by decide)).2.2
  have hptr : s₀.store.ptr 0 0 ≠ 0 := (hdir.ptr_iff 0 (by decide)).mpr (by decide)
  have hget : getNodeByPath s₀ [SLASH] s₀.rootDirIno = some (s₀.store.inodes 0) := by
    rw [getNodeByPath, if_pos rfl, hlayout.rootDirIno, Fs.readi_eq (by decide)]
  have hgot : ensureBlock (s₀.store.inodes 0) (428 / 4096) s₀ = (s₀.store.inodes 0, s₀) := by
    rw [ensureBlock, if_neg (by simpa [Store.ptr] using hptr)]
  have hcall := rufsWrite_one ⟨0, 0⟩ hget (by decide : 428 < 65536) (by decide : 0 < 6) (by decide)
    (by decide : 6 ≤ direntBytes.length) hgot
  -- the block of the root
  obtain ⟨s₁, hs₁⟩ : ∃ s₁, s₁ = storeBlock (s₀.store.inodes 0) 0 s₀ 428 direntBytes := ⟨_, rfl⟩
  obtain ⟨hlayout₁, -, hrep₁⟩ := represents_oldBlock (k := 0) (j := 2) hlayout hmade.rep (by decide)
    rootGraph_zero (by decide : Stored [120]) (by decide) (by decide) rfl rfl
    (slotHolds_direntBytes _) (fun x hx => Bytes.write_apply_of_notMem (hx.imp_right fun hx => by
      have haddr : slotAddr 2 = 428 := rfl
      have hlen : direntBytes.length = 6 := rfl
      omega)) hs₁
  -- its inode
  have hrange := hmade.rep.owned.ptr_range 0 (by decide) 0 (by decide) hptr
  have hinode : s₁.store.inodes 0 = s₀.store.inodes 0 := by
    rw [hs₁, store_storeBlock hlayout hrange.1 hrange.2, Store.inodes_setBlock]
  obtain ⟨hbounded, hino, hvalid, htype, hptrs⟩ :=
    writtenInode_spec (Fs.bounded_inodes s₀ 0) 6 ⟨0, 0⟩
  have hino₀ := hmade.rep.ino 0 (by decide)
  have htake : direntBytes.take 6 = direntBytes := rfl
  rw [hino.trans hino₀, htake, ← hs₁] at hcall
  have hallocs : (writei s₁ 0 (writtenInode (s₀.store.inodes 0) 6 ⟨0, 0⟩)).allocs = s₀.allocs := by
    rw [Fs.allocs_writei, hs₁, storeBlock, Fs.allocs_disk]
  have hgranted : (writei s₁ 0 (writtenInode (s₀.store.inodes 0) 6 ⟨0, 0⟩)).Granted := by
    rw [Fs.Granted, hallocs]
    exact hmade.granted
  refine ⟨writei s₁ 0 (writtenInode (s₀.store.inodes 0) 6 ⟨0, 0⟩),
    .call (.made hs₀) ⟨⟨by decide, True.intro⟩, by decide⟩ ?_ hgranted,
    Fs.layout_writei hlayout₁ _ _, hgranted, ?_⟩
  · rw [Call.exec, hcall]
    rfl
  · rw [Fs.store_writei hlayout₁ (by decide) hbounded]
    refine hrep₁.setDirInode (by decide) (Graph.set_same _ _ _) ?_ ?_ ?_ fun k hk => ?_
    · rw [hino, hinode]
    · rw [hvalid, hinode]
    · rw [htype, hinode]
    · rw [hptrs k hk, Store.ptr, hinode]

/-- A byte written through an inode that stands for nothing takes a block without owner. -/
theorem not_blocksOwned_of_write {s : Fs} {g : Graph} {i : ℕ} {path : List UInt8} (times : Times)
    (byte : UInt8) (hs : s.Layout) (hgranted : s.Granted) (h : Represents s.store g) (hi : i < 1024)
    (hnone : g i = none) (hfree : ∃ b < 16384, s.store.blockUsed b = false)
    (hget : getNodeByPath s path s.rootDirIno = some (s.store.inodes i)) :
    ∃ s', rufsWrite s path [byte] 1 0 times = some (1, s') ∧ s'.Granted ∧ ¬ BlocksOwned s' := by
  have hnode := h.node i hi
  rw [hnone] at hnode
  obtain ⟨hvalid, hnull⟩ := hnode
  have hret : (getAvailBlkno s).1 ≠ -1 := by
    intro hret
    obtain ⟨b, hb, hclear⟩ := hfree
    rw [Fs.getAvailBlkno_exhausted hs hret b hb] at hclear
    cases hclear
  obtain ⟨b, hb, hgot, hclear, -, hstore⟩ := Fs.getAvailBlkno_spec hs hret
  have hb67 := h.owned.le_of_free hb hclear
  obtain ⟨s₁, hs₁⟩ : ∃ s₁, (getAvailBlkno s).2 = s₁ := ⟨_, rfl⟩
  obtain ⟨nodei, hnodei⟩ : ∃ nodei, (s.store.inodes i).setPtr 0 b = nodei := ⟨_, rfl⟩
  have hensure : ensureBlock (s.store.inodes i) (0 / 4096) s = (nodei, s₁) := by
    have hnull₀ : (s.store.inodes i).ptr (0 / 4096) = 0 := hnull 0 (by decide)
    rw [ensureBlock, if_pos hnull₀]
    dsimp only
    rw [hgot, hs₁, ← hnodei]
  have hgranted₁ := ensureBlock_granted hs hgranted hfree hensure
  have hlayout₁ : s₁.Layout := hs₁ ▸ Fs.layout_getAvailBlkno hs
  rw [hs₁] at hstore
  -- the inode in memory
  have hptr : nodei.ptr 0 = b := by
    rw [← hnodei]
    exact Inode.ptr_setPtr_same (by omega) (by omega)
  have hbounded : nodei.Bounded := by
    rw [← hnodei]
    exact Inode.bounded_setPtr (by decide) (Fs.bounded_inodes s i)
  have hino : Inode.ino.get nodei 0 = i := by
    rw [← hnodei, Inode.get_setPtr (by decide) (by decide), h.ino i hi]
  have hvalid₁ : Inode.valid.get nodei 0 = 0 := by
    rw [← hnodei, Inode.get_setPtr (by decide) (by decide), hvalid]
  obtain ⟨hbounded₂, hino₂, hvalid₂, -, hptr₂⟩ := writtenInode_spec hbounded 1 times
  -- the disk after the write
  have hcall := rufsWrite_one times hget (by decide : 0 < 65536) (by decide : 0 < 1) (by decide)
    (Nat.le_refl ([byte] : List UInt8).length) hensure
  obtain ⟨s₂, hs₂⟩ : ∃ s₂, storeBlock nodei 0 s₁ 0 [byte] = s₂ := ⟨_, rfl⟩
  have hlayout₂ : s₂.Layout := by
    rw [← hs₂]
    exact Fs.layout_disk hlayout₁ _
  have hstore₂ : s₂.store.blockUsed b = true := by
    rw [← hs₂, store_storeBlock hlayout₁ (by omega) (by omega), hstore, Store.blockUsed_setBlock,
      Store.blockUsed_useBlock, Function.update_self]
  have htake : ([byte] : List UInt8).take 1 = [byte] := rfl
  rw [hino₂, hino, htake, hs₂] at hcall
  have hstore₃ := Fs.store_writei hlayout₂ hi hbounded₂
  refine ⟨_, hcall, ?_, fun howned => ?_⟩
  · rw [Fs.Granted, Fs.allocs_writei, ← hs₂, storeBlock, Fs.allocs_disk]
    exact hgranted₁
  · obtain ⟨s', hs'⟩ : ∃ s', writei s₂ i (writtenInode nodei 1 times) = s' := ⟨_, rfl⟩
    have hlayout₃ : s'.Layout := hs' ▸ Fs.layout_writei hlayout₂ _ _
    rw [hs'] at howned hstore₃
    have hread : readi s' i = writtenInode nodei 1 times := by
      rw [Fs.readi_eq hi, hstore₃, Store.inodes_setInode_same]
    have hflag : Bitmap.get .lsbFirst (bioRead s'.disk s'.dBitmapBlk) b = true := by
      rw [hlayout₃.dBitmapBlk]
      change s'.store.blockUsed b = true
      rw [hstore₃, Store.blockUsed_setInode, hstore₂]
    have hown : s'.ptr i 0 = b := by rw [Fs.ptr, hread, hptr₂ 0 (by decide), hptr]
    rcases (howned.used_iff b hb).mp hflag with hle | ⟨-, j, hj, hjvalid, l, hl, hjptr⟩
    · exact Nat.not_lt.mpr hb67 (Nat.lt_succ_of_le hle)
    · have hne : s'.ptr i 0 ≠ 0 := by
        rw [hown]
        exact Nat.cast_ne_zero.mpr (Nat.ne_of_gt (Nat.lt_of_lt_of_le (by decide : 0 < 67) hb67))
      have hij := (howned.once i hi 0 (by decide) j hj l hl hne (hown.trans hjptr.symm)).1
      rw [← hij, hread, hvalid₂, hvalid₁] at hjvalid
      exact hjvalid rfl

/-- An entry for inode 5 written into the root, and a byte written through it. -/
theorem blocksOwned_fails : ∃ s, Run Fs.Reaches (fun _ => 0) ⟨0, 0⟩ s
      [⟨.write [SLASH, 120] [7] 1 0 ⟨0, 0⟩, ⟨1, []⟩⟩,
        ⟨.write [SLASH] direntBytes 6 428 ⟨0, 0⟩, ⟨6, []⟩⟩] ∧ ¬ BlocksOwned s := by
  obtain ⟨s₁, hrun, hlayout, hgranted, hrep⟩ := exists_forged
  have hdir : forgedGraph 0 = some (.dir ([(dot, 0), (dotdot, 0)] ++ [([120], 5)])) :=
    Graph.set_same _ _ _
  have hnone : forgedGraph 5 = none := by
    rw [forgedGraph, Graph.set_of_ne _ _ (by decide), rootGraph_of_ne (by decide)]
  have hlive (i : ℕ) (hi : forgedGraph i ≠ none) : i ∈ ({0} : Finset ℕ) := by
    by_contra hne
    have hne : i ≠ 0 := by simpa using hne
    rw [forgedGraph, Graph.set_of_ne _ _ hne, rootGraph_of_ne hne] at hi
    exact hi rfl
  have htok : strtokAll [SLASH, 120] = [[120]] := by decide
  have hfind : dirFind s₁ 0 [120] = some 5 := by
    rw [dirFind_dir hrep (by decide) hdir (by decide)]
    rfl
  have hget : getNodeByPath s₁ [SLASH, 120] s₁.rootDirIno = some (s₁.store.inodes 5) := by
    rw [getNodeByPath, if_neg (by decide), hlayout.rootDirIno, htok, walk, hfind, Option.bind_some, walk,
      Option.map_some, Fs.readi_eq (by decide)]
  have hroot : s₁.IsDir 0 := by
    have hnode := hrep.node 0 (by decide)
    rw [hdir] at hnode
    rw [Fs.IsDir, Fs.readi_eq (by decide)]
    exact hnode.2.1
  obtain ⟨s, hcall, hgranted', hnot⟩ := not_blocksOwned_of_write ⟨0, 0⟩ 7 hlayout hgranted hrep
    (by decide) hnone (hrep.exists_free hlive (by decide)) hget
  refine ⟨s, .call hrun ⟨⟨by decide, ?_⟩, by decide⟩ ?_ hgranted', hnot⟩
  · rw [htok, hlayout.rootDirIno]
    exact ⟨hroot, fun _ _ => True.intro⟩
  · rw [Call.exec, hcall]
    rfl

end Counterexample

end UserLevelOs.Files
