import UserLevelOs.Files.Requests
import Mathlib.Order.Interval.Finset.Nat

/-!
# The new file system

`rufs_mkfs` leaves a disk that stores one directory, the root, whose two entries lead to
itself.

## Main definitions

* `rootGraph`.

## Main statements

* `rufsMkfs_spec`.
* `Graph.Closed.link`, `rootGraph_closed`, `rootGraph_placed` — what the calls rely on holds
  at the start and is kept.
-/

namespace UserLevelOs.Files

open UserLevelOs.Lib

/-! ## The invariant of the graph -/

section Closed

variable {g : Graph} {i p : ℕ} {name : Name} {n : Node} {entries : List (Name × ℕ)}

theorem Graph.Closed.link (h : g.Closed) (hdir : g p = some (.dir entries)) (hfree : g i = none)
    (hn : NewNode i p n) : (g.link p entries name i n).Closed := by
  have hpi := ne_of_free hdir hfree
  have hnew : g.link p entries name i n i ≠ none := by
    rw [link_new]
    exact Option.some_ne_none _
  have hp : g.link p entries name i n p ≠ none :=
    link_ne_none (by simp [hdir])
  constructor
  · intro j entries' hj e he
    by_cases hji : j = i
    · rw [hji] at hj
      rw [hn.dir_eq hj] at he
      rcases List.mem_pair.mp he with rfl | rfl
      · exact hnew
      · exact hp
    · rcases link_dir_cases hpi hji hj with ⟨rfl, rfl⟩ | ⟨-, hj⟩
      · rcases List.mem_append.mp he with he | he
        · exact link_ne_none (h.entry hdir e he)
        · rw [List.mem_singleton.mp he]
          exact hnew
      · exact link_ne_none (h.entry hj e he)
  · obtain ⟨entries₀, hroot⟩ := h.root
    by_cases h0p : 0 = p
    · rw [h0p]
      exact ⟨_, link_parent hpi⟩
    · have h0i := ne_of_free hroot hfree
      exact ⟨entries₀, by rw [link_other h0i h0p, hroot]⟩

theorem Graph.Closed.setFile {size size' : ℕ} {blocks blocks' : ℕ → Option Bytes} (h : g.Closed)
    (hfile : g i = some (.file size blocks)) : (g.set i (.file size' blocks')).Closed := by
  constructor
  · intro j entries' hj e he
    by_cases hji : j = i
    · rw [hji, Graph.set_same] at hj
      cases hj
    · rw [Graph.set_of_ne _ _ hji] at hj
      exact Graph.set_ne_none (h.entry hj e he)
  · obtain ⟨entries₀, hroot⟩ := h.root
    have h0i : 0 ≠ i := by
      intro heq
      rw [heq, hfile] at hroot
      cases hroot
    exact ⟨entries₀, by rw [Graph.set_of_ne _ _ h0i, hroot]⟩

end Closed

/-! ## The graph of a new disk -/

/-- Only the root. -/
def rootGraph : Graph := Graph.set (fun _ => none) 0 (newDir 0 0)

theorem rootGraph_zero : rootGraph 0 = some (newDir 0 0) := Graph.set_same _ _ _

theorem rootGraph_of_ne {i : ℕ} (h : i ≠ 0) : rootGraph i = none := Graph.set_of_ne _ _ h

theorem rootGraph_closed : rootGraph.Closed where
  entry := by
    intro i entries hi e he
    have hi0 : i = 0 := by
      by_contra hne
      rw [rootGraph_of_ne hne] at hi
      cases hi
    rw [hi0, rootGraph_zero, newDir, Option.some.injEq, Node.dir.injEq] at hi
    rw [← hi] at he
    rcases List.mem_pair.mp he with rfl | rfl
    · rw [rootGraph_zero]
      exact Option.some_ne_none _
    · rw [rootGraph_zero]
      exact Option.some_ne_none _
  root := ⟨_, rootGraph_zero⟩

/-- Only the root has a place. -/
def rootPlaces : Places := fun path => if path = [] then some 0 else none

theorem rootGraph_placed : Placed rootGraph rootPlaces := by
  have hplace {path : List Name} {i : ℕ} (h : rootPlaces path = some i) : path = [] ∧ i = 0 := by
    rw [rootPlaces] at h
    split at h
    · next hpath => exact ⟨hpath, (Option.some.inj h).symm⟩
    · cases h
  have hentries {entries : List (Name × ℕ)} (h : rootGraph 0 = some (.dir entries)) :
      entries = [(dot, 0), (dotdot, 0)] := by
    rw [rootGraph_zero, newDir, Option.some.injEq, Node.dir.injEq] at h
    exact h.symm
  constructor
  · rfl
  · intro path i hi
    obtain ⟨-, rfl⟩ := hplace hi
    rw [rootGraph_zero]
    exact Option.some_ne_none _
  · intro path path' i hi hi'
    rw [(hplace hi).1, (hplace hi').1]
  · intro path name hne
    exact absurd (if_neg (by simp)) hne
  · intro path i entries hi hdir
    obtain ⟨-, rfl⟩ := hplace hi
    rw [hentries hdir]
    rfl
  · intro path i entries hi hdir
    obtain ⟨rfl, rfl⟩ := hplace hi
    rw [hentries hdir]
    rfl
  · intro path i entries name hi hdir hdot hdotdot
    obtain ⟨rfl, rfl⟩ := hplace hi
    have hnone : rootPlaces ([] ++ [name]) = none := if_neg (by simp)
    rw [hentries hdir, hnone]
    simp [hdot, hdotdot]
  · intro path i size blocks name hi hfile
    obtain ⟨-, rfl⟩ := hplace hi
    rw [rootGraph_zero] at hfile
    cases hfile

/-! ## `rufs_mkfs` -/

section Mkfs

variable {s s₁ t : Fs}

theorem initSuperblock_fields :
    Superblock.iBitmapBlk.get initSuperblock 0 = 1 ∧
      Superblock.dBitmapBlk.get initSuperblock 0 = 2 ∧
      Superblock.iStartBlk.get initSuperblock 0 = 3 ∧
      Superblock.dStartBlk.get initSuperblock 0 = 67 := by
  refine ⟨?_, ?_, ?_, ?_⟩
  · rw [initSuperblock, Field.get_set_of_apart (by decide), Field.get_set_of_apart (by decide),
      Field.get_set_of_apart (by decide), Field.get_set_same]
    decide
  · rw [initSuperblock, Field.get_set_of_apart (by decide), Field.get_set_of_apart (by decide),
      Field.get_set_same]
    decide
  · rw [initSuperblock, Field.get_set_of_apart (by decide), Field.get_set_same]
    decide
  · rw [initSuperblock, Field.get_set_same]
    decide

/-- An inode that was never used. -/
def blankInode (i : ℕ) : Inode := Inode.ino.set (fun _ => 0) 0 i

theorem bounded_blankInode (i : ℕ) : (blankInode i).Bounded :=
  Inode.bounded_set (by decide) fun _ _ => rfl

theorem ptr_blankInode (i : ℕ) {k : ℕ} (hk : k < 16) : (blankInode i).ptr k = 0 := by
  rw [blankInode, Inode.ptr_set (by decide) hk, Inode.ptr, Field.get_of_zero fun _ _ _ => rfl]
  rfl

/-- The loop over the inode table. -/
theorem initInodes_spec (n : ℕ) : ∀ {s : Fs} {i : ℕ}, s.Layout → i + n ≤ 1024 →
    (initInodes s i n).Layout ∧ (initInodes s i n).allocs = s.allocs ∧
      (initInodes s i n).inodeBitmap = s.inodeBitmap ∧
      (initInodes s i n).dataBlockBitmap = s.dataBlockBitmap ∧
      (initInodes s i n).superblock = s.superblock ∧
      (initInodes s i n).store.blocks = s.store.blocks ∧
      ∀ j, (initInodes s i n).store.inodes j =
        if i ≤ j ∧ j < i + n then blankInode j else s.store.inodes j := by
  induction n with
  | zero =>
    intro s i hs _
    refine ⟨hs, rfl, rfl, rfl, rfl, rfl, fun j => ?_⟩
    rw [if_neg (by omega)]
    rfl
  | succ n ih =>
    intro s i hs hn
    have hstore := Fs.store_writei hs (by omega : i < 1024) (bounded_blankInode i)
    obtain ⟨hlayout, hallocs, hino, hdata, hsb, hblocks, hinodes⟩ :=
      ih (Fs.layout_writei hs i (blankInode i)) (by omega : i + 1 + n ≤ 1024)
    rw [initInodes]
    refine ⟨hlayout, ?_, ?_, ?_, ?_, ?_, fun j => ?_⟩
    · rw [← Fs.allocs_writei s i (blankInode i)]
      exact hallocs
    · rw [← Fs.inodeBitmap_writei s i (blankInode i)]
      exact hino
    · rw [← Fs.dataBlockBitmap_writei s i (blankInode i)]
      exact hdata
    · rw [← Fs.superblock_writei s i (blankInode i)]
      exact hsb
    · rw [hstore, Store.blocks_setInode] at hblocks
      exact hblocks
    · have hj := hinodes j
      rw [hstore] at hj
      change _ = if i ≤ j ∧ j < i + (n + 1) then blankInode j else s.store.inodes j
      refine hj.trans ?_
      by_cases hji : j = i
      · rw [hji, if_neg (by omega), if_pos (by omega), Store.inodes_setInode_same]
      · rw [Store.inodes_setInode_of_ne _ _ _ hji]
        by_cases hin : i + 1 ≤ j ∧ j < i + 1 + n
        · rw [if_pos hin, if_pos (by omega)]
        · rw [if_neg hin, if_neg (by omega)]

/-- Raising the flags of a list. -/
theorem get_foldl_set (ps : List ℕ) (bitmap : Bytes) (p : ℕ) :
    Bitmap.get .lsbFirst (ps.foldl (Bitmap.set .lsbFirst) bitmap) p =
      (decide (p ∈ ps) || Bitmap.get .lsbFirst bitmap p) := by
  induction ps generalizing bitmap with
  | nil => simp
  | cons q ps ih =>
    rw [List.foldl_cons, ih, Bitmap.get_set]
    by_cases hp : p = q
    · simp [hp]
    · simp [hp]

/-- The table a new disk holds before the root is made. -/
structure Unused (s : Fs) : Prop where
  layout : s.Layout
  allocs : s.allocs = []
  inodeUsed : ∀ i, s.store.inodeUsed i = false
  rep : Represents s.store fun _ => none

/-- The globals and the disk up to the loop over the inodes. -/
def blankFs (junk : Bytes) : Fs :=
  { disk := bioWrite (fun _ _ => 0) 0 (junk.copy 0 initSuperblock 0 Superblock.bytes)
    superblock := initSuperblock
    inodeBitmap := fun _ => 0
    dataBlockBitmap := fun _ => 0
    rootDirIno := 0
    allocs := [] }

theorem blankFs_layout (junk : Bytes) : (blankFs junk).Layout where
  iBitmapBlk := initSuperblock_fields.1
  dBitmapBlk := initSuperblock_fields.2.1
  iStartBlk := initSuperblock_fields.2.2.1
  rootDirIno := rfl

theorem bioRead_blankFs (junk : Bytes) {c : ℤ} (hc : c ≠ 0) :
    bioRead (blankFs junk).disk c = fun _ => 0 := by
  rw [blankFs, bioRead_bioWrite_of_ne hc.symm, bioRead]
  split
  · rfl
  · rfl

theorem inodes_blankFs (junk : Bytes) (i : ℕ) : (blankFs junk).store.inodes i = fun _ => 0 := by
  by_cases hi : i < 1024
  · have hblk := Fs.inodeBlk_eq (blankFs_layout junk) i
    rw [← Fs.readi_eq hi, readi, bioRead_blankFs junk (by omega)]
    funext x
    rw [Bytes.copy]
    split
    · rfl
    · rfl
  · simp [Fs.store, hi]

/-- Bitmaps as `rufs_mkfs` writes them. -/
def bitmapDisk (s : Fs) (dataBlockBitmap : Bytes) : Disk :=
  bioWrite (bioWrite s.disk s.iBitmapBlk
    (Bytes.copy (fun _ => 0) 0 s.inodeBitmap 0 INODE_BITMAP_BYTES)) s.dBitmapBlk
      (Bytes.copy (fun _ => 0) 0 dataBlockBitmap 0 DATA_BLOCK_BITMAP_BYTES)

theorem bioRead_bitmapDisk_of_ne (hs : s.Layout) (bitmap : Bytes) {c : ℤ} (hc : 3 ≤ c) :
    bioRead (bitmapDisk s bitmap) c = bioRead s.disk c := by
  rw [bitmapDisk, hs.iBitmapBlk, hs.dBitmapBlk, bioRead_bioWrite_of_ne (by omega),
    bioRead_bioWrite_of_ne (by omega)]

theorem bioRead_bitmapDisk_one (hs : s.Layout) (bitmap : Bytes) :
    bioRead (bitmapDisk s bitmap) 1 =
      Bytes.copy (fun _ => 0) 0 s.inodeBitmap 0 INODE_BITMAP_BYTES := by
  rw [bitmapDisk, hs.iBitmapBlk, hs.dBitmapBlk, bioRead_bioWrite_of_ne (by decide)]
  exact bioRead_bioWrite_same (by decide)

theorem bioRead_bitmapDisk_two (hs : s.Layout) (bitmap : Bytes) :
    bioRead (bitmapDisk s bitmap) 2 =
      Bytes.copy (fun _ => 0) 0 bitmap 0 DATA_BLOCK_BITMAP_BYTES := by
  rw [bitmapDisk, hs.dBitmapBlk]
  exact bioRead_bioWrite_same (by decide)

/-- A table without nodes. -/
theorem represents_blank {st : Store} (hino : ∀ i < 1024, Inode.ino.get (st.inodes i) 0 = i)
    (hvalid : ∀ i < 1024, Inode.valid.get (st.inodes i) 0 = 0)
    (hptr : ∀ i < 1024, ∀ k < 16, st.ptr i k = 0)
    (hused : ∀ b < 16384, st.blockUsed b = decide (b < 67)) (hblocks : ∀ b, st.blocks b = fun _ => 0) :
    Represents st fun _ => none where
  owned := {
    ptr_range := fun i hi k hk hne => absurd (hptr i hi k hk) hne
    ptr_inj := fun i hi k hk _ _ _ _ hne => absurd (hptr i hi k hk) hne
    used_iff := by
      intro b hb
      rw [hused b hb, decide_eq_true_eq]
      refine ⟨Or.inl, ?_⟩
      rintro (hlt | ⟨i, hi, k, hk, hb⟩)
      · exact hlt
      · rw [hptr i hi k hk] at hb
        omega
    blank := fun b _ _ _ => hblocks b }
  ino := hino
  node i hi := ⟨hvalid i hi, hptr i hi⟩
  used _ h := absurd rfl h

/-- The bitmap of the data blocks as `rufs_mkfs` sets it up in memory. -/
def metadataBitmap : Bytes :=
  (List.range (Superblock.dStartBlk.get initSuperblock 0)).foldl (Bitmap.set .lsbFirst) fun _ => 0

theorem get_metadataBitmap (p : ℕ) : Bitmap.get .lsbFirst metadataBitmap p = decide (p < 67) := by
  rw [metadataBitmap, initSuperblock_fields.2.2.2, get_foldl_set, Bitmap.get_zero, Bool.or_false]
  simp

/-- The inodes before the root is made. -/
theorem inodes_mkfs (junk : Bytes) (hs₁ : initInodes (blankFs junk) 1 1023 = s)
    (ht : t = { s with dataBlockBitmap := metadataBitmap, disk := bitmapDisk s metadataBitmap }) (i : ℕ) :
    t.store.inodes i = if 1 ≤ i ∧ i < 1024 then blankInode i else fun _ => 0 := by
  obtain ⟨hlayout, -, -, -, -, -, hinodes⟩ :=
    initInodes_spec 1023 (blankFs_layout junk) (by decide : 1 + 1023 ≤ 1024)
  rw [hs₁] at hlayout hinodes
  have hdisk : t.disk = bitmapDisk s metadataBitmap := by rw [ht]
  have hlayout₂ : t.Layout := hlayout.congr (by rw [ht]) (by rw [ht])
  obtain ⟨hsame, -⟩ := Fs.tables_congr hlayout hlayout₂ fun c hc => by
    rw [hdisk, bioRead_bitmapDisk_of_ne hlayout _ hc]
  rw [hsame, hinodes, inodes_blankFs]

/-- Before the root is made, nothing is. -/
theorem unused_mkfs (junk : Bytes) (hs₁ : initInodes (blankFs junk) 1 1023 = s) :
    Unused { s with dataBlockBitmap := metadataBitmap, disk := bitmapDisk s metadataBitmap } := by
  obtain ⟨hlayout, hallocs, hino, -, -, hblocks, -⟩ :=
    initInodes_spec 1023 (blankFs_layout junk) (by decide : 1 + 1023 ≤ 1024)
  rw [hs₁] at hlayout hallocs hino hblocks
  obtain ⟨s₂, hs₂⟩ : ∃ s₂, s₂ = ({ s with
    dataBlockBitmap := metadataBitmap, disk := bitmapDisk s metadataBitmap } : Fs) := ⟨_, rfl⟩
  rw [← hs₂]
  have hlayout₂ : s₂.Layout := hlayout.congr (by rw [hs₂]) (by rw [hs₂])
  have hdisk : s₂.disk = bitmapDisk s metadataBitmap := by rw [hs₂]
  have hinodes₂ := inodes_mkfs junk hs₁ hs₂
  obtain ⟨-, hblocks₂⟩ := Fs.tables_congr hlayout hlayout₂ fun c hc => by
    rw [hdisk, bioRead_bitmapDisk_of_ne hlayout _ hc]
  refine ⟨hlayout₂, ?_, fun i => ?_, represents_blank ?_ ?_ ?_ ?_ ?_⟩
  · have hallocs₂ : s₂.allocs = s.allocs := by rw [hs₂]
    rw [hallocs₂, hallocs, blankFs]
  · have hino₀ : s.inodeBitmap = fun _ => 0 := by rw [hino, blankFs]
    have hread := bioRead_bitmapDisk_one hlayout metadataBitmap
    rw [hino₀] at hread
    have hzero : Bytes.copy (fun _ => 0) 0 (fun _ => 0) 0 INODE_BITMAP_BYTES = fun _ => 0 := by
      funext x
      simp [Bytes.copy]
    simp [Fs.store, hdisk, hread, hzero]
  · intro i hi
    rw [hinodes₂]
    split
    · rw [blankInode, Field.get_set_same]
      exact Nat.mod_eq_of_lt (Nat.lt_trans hi (by decide))
    · next hout =>
      have hi0 : i = 0 := by omega
      rw [hi0]
      exact Field.get_of_zero fun _ _ _ => rfl
  · intro i _
    rw [hinodes₂]
    split
    · rw [blankInode, Field.get_set_of_apart (by decide)]
      exact Field.get_of_zero fun _ _ _ => rfl
    · exact Field.get_of_zero fun _ _ _ => rfl
  · intro i _ k hk
    rw [Store.ptr, hinodes₂]
    split
    · exact ptr_blankInode i hk
    · rw [Inode.ptr, Field.get_of_zero fun _ _ _ => rfl]
      rfl
  · intro b hb
    have hmem : b / 8 < DATA_BLOCK_BITMAP_BYTES := Nat.div_lt_of_lt_mul hb
    rw [← get_metadataBitmap]
    have hflag : s₂.store.blockUsed b = Bitmap.get .lsbFirst (bioRead s₂.disk 2) b := rfl
    rw [hflag, hdisk, bioRead_bitmapDisk_two hlayout, Bitmap.get, Bitmap.get,
      Bytes.copy_apply_of_mem (by omega) (by omega)]
    simp
  · intro b
    rw [hblocks₂, hblocks]
    by_cases hb : 67 ≤ b
    · rw [← Fs.bioRead_eq hb, bioRead_blankFs junk (by omega)]
    · simp only [Fs.store, if_neg hb]

/-- The inode of the root. -/
def rootInode (inode : Inode) (rootDirIno : ℕ) (times : Times) : Inode :=
  Inode.setTimes (Inode.stMode.set (Inode.clearPtrs (Inode.link.set (Inode.type.set (Inode.valid.set
    (Inode.ino.set inode 0 rootDirIno) 0 VALID) 0 DIRECTORY) 0 2)) 0 (S_IFDIR ||| 0o755)) times

theorem rootInode_spec {inode : Inode} {i : ℕ} {t : Times} (hbounded : inode.Bounded)
    (hi : i < 1024) :
    (rootInode inode i t).Bounded ∧ Inode.ino.get (rootInode inode i t) 0 = i ∧
      Inode.valid.get (rootInode inode i t) 0 ≠ 0 ∧
      Inode.type.get (rootInode inode i t) 0 = DIRECTORY ∧
      ∀ k < 16, (rootInode inode i t).ptr k = 0 := by
  refine ⟨?_, ?_, ?_, ?_, fun k hk => ?_⟩
  · refine bounded_setTimes (Inode.bounded_set (by decide) (Inode.bounded_clearPtrs ?_))
    exact Inode.bounded_set (by decide) (Inode.bounded_set (by decide)
      (Inode.bounded_set (by decide) (Inode.bounded_set (by decide) hbounded)))
  · rw [rootInode, agrees_setTimes.ino, Field.get_set_of_apart (by decide),
      Inode.get_clearPtrs (by decide), Field.get_set_of_apart (by decide),
      Field.get_set_of_apart (by decide), Field.get_set_of_apart (by decide), Field.get_set_same]
    exact Nat.mod_eq_of_lt (Nat.lt_trans hi (by decide))
  · rw [rootInode, agrees_setTimes.valid, Field.get_set_of_apart (by decide),
      Inode.get_clearPtrs (by decide), Field.get_set_of_apart (by decide),
      Field.get_set_of_apart (by decide), Field.get_set_same]
    decide
  · rw [rootInode, agrees_setTimes.type, Field.get_set_of_apart (by decide),
      Inode.get_clearPtrs (by decide), Field.get_set_of_apart (by decide), Field.get_set_same]
    decide
  · rw [rootInode, ptr_setTimes hk, Inode.ptr_set (by decide) hk, Inode.ptr_clearPtrs hk]

/-- A disk with few nodes has a free block. -/
theorem Represents.exists_free {st : Store} {g : Graph} {live : Finset ℕ} (h : Represents st g)
    (hlive : ∀ i, g i ≠ none → i ∈ live) (hfew : live.card ≤ 1000) :
    ∃ b < 16384, st.blockUsed b = false := by
  by_contra hnone
  -- otherwise every block behind the metadata would belong to a node
  have hsub : Finset.Ico 67 16384 ⊆
      (live ×ˢ Finset.range 16).image fun n => (st.ptr n.1 n.2).toNat := by
    intro b hb
    obtain ⟨hb67, hb⟩ := Finset.mem_Ico.mp hb
    have hused : st.blockUsed b = true := by
      by_contra hfree
      exact hnone ⟨b, hb, Bool.eq_false_iff.mpr hfree⟩
    rcases (h.owned.used_iff b hb).mp hused with hlt | ⟨i, hi, k, hk, hptr⟩
    · omega
    · have hne : g i ≠ none := by
        intro hn
        have hnode := h.node i hi
        rw [hn] at hnode
        rw [hnode.2 k hk] at hptr
        omega
      refine Finset.mem_image.mpr ⟨(i, k), ?_, ?_⟩
      · exact Finset.mem_product.mpr ⟨hlive i hne, Finset.mem_range.mpr hk⟩
      · rw [hptr, Int.toNat_natCast]
  have hcard := (Finset.card_le_card hsub).trans Finset.card_image_le
  rw [Nat.card_Ico, Finset.card_product, Finset.card_range] at hcard
  omega

theorem eta_rootDirIno (h : s.Layout) : ({ s with rootDirIno := 0 } : Fs) = s := by
  rw [← h.rootDirIno]

/-- A new disk: the root is there, and no other inode number has been given out. -/
structure Made (s : Fs) : Prop where
  layout : s.Layout
  granted : s.Granted
  inodeUsed : ∀ i, s.store.inodeUsed i = decide (i = 0)
  rep : Represents s.store rootGraph

/-- What `rufs_mkfs` does once the bitmaps are written. -/
def makeRoot (s : Fs) (rootDirIno : ℕ) (times : Times) : Option Fs := do
  let root := rootInode (readi s rootDirIno) rootDirIno times
  let s := { writei s rootDirIno root with rootDirIno }
  let (_, s) ← dirAdd s root s.rootDirIno dot (nameLen dot)
  let root := readi s s.rootDirIno
  let (_, s) ← dirAdd s root s.rootDirIno dotdot (nameLen dotdot)
  some s

theorem rufsMkfs_eq (junk : Bytes) (times : Times) (hs₁ : initInodes (blankFs junk) 1 (MAX_INUM - 1) = s₁)
    (ht : t = { s₁ with dataBlockBitmap := metadataBitmap, disk := bitmapDisk s₁ metadataBitmap })
    (hbitmap : s₁.dataBlockBitmap = fun _ => 0) :
    rufsMkfs junk times =
      makeRoot (getAvailIno t).2 ((getAvailIno t).1 % 2 ^ 16).toNat times := by
  have hmeta : (List.range (Superblock.dStartBlk.get initSuperblock 0)).foldl
      (Bitmap.set .lsbFirst) s₁.dataBlockBitmap = metadataBitmap := by
    rw [hbitmap, metadataBitmap]
  rw [ht, bitmapDisk, ← hmeta]
  unfold blankFs at hs₁
  unfold rufsMkfs makeRoot rootInode
  dsimp only
  rw [hs₁]
  rfl

theorem makeRoot_spec (times : Times) (hs : s.Layout) (hgranted : s.Granted)
    (hused : ∀ i, s.store.inodeUsed i = decide (i = 0)) (h : Represents s.store fun _ => none) :
    ∃ s', makeRoot s 0 times = some s' ∧ Made s' ∧ ∀ b < 16384, s.store.blockUsed b = false →
      (∀ c < b, s.store.blockUsed c = true) →
        s'.store.ptr 0 0 = b ∧ ∀ x, slotAddr 2 ≤ x → s'.store.blocks b x = 0 := by
  have hlive {n : Node} (i : ℕ) (hi : Graph.set (fun _ => none) 0 n i ≠ none) : i ∈ ({0} : Finset ℕ) := by
    by_contra hne
    exact hi (Graph.set_of_ne _ _ (by simpa using hne))
  obtain ⟨root, hroot⟩ : ∃ root, rootInode (readi s 0) 0 times = root := ⟨_, rfl⟩
  obtain ⟨hbounded, hino, hvalid, htype, hptr⟩ :=
    rootInode_spec (t := times) (Fs.bounded_readi s 0) (by decide : 0 < 1024)
  rw [hroot] at hbounded hino hvalid htype hptr
  obtain ⟨hlayout₁, hstore₁, hrep₁⟩ := represents_newDir hs h (by decide) rfl
    (by rw [hused]; rfl) hbounded hino hvalid htype hptr
  obtain ⟨w, hw⟩ : ∃ w, writei s 0 root = w := ⟨_, rfl⟩
  have hgranted₁ : w.Granted := by
    rw [← hw, Fs.Granted, Fs.allocs_writei]
    exact hgranted
  rw [hw] at hlayout₁ hstore₁ hrep₁
  have hread : root = w.store.inodes 0 := by rw [hstore₁, Store.inodes_setInode_same]
  -- its entries
  obtain ⟨r₂, s₂, hadd₂, hgranted₂⟩ := dirAdd_total (nameLen dot) hlayout₁ hrep₁
    (by decide) (Graph.set_same _ _ _) (by decide : Stored dot) (by decide : 0 < 65536) hgranted₁
    (hrep₁.exists_free hlive (by decide))
  obtain ⟨-, hlayout₂, hused₂, hrep₂⟩ := dirAdd_fits hlayout₁ hrep₁ (by decide)
    (Graph.set_same _ _ _) (by decide) (by decide) (by decide) hadd₂ hgranted₂
  rw [Graph.set_set, List.nil_append] at hrep₂
  obtain ⟨r₃, s₃, hadd₃, hgranted₃⟩ := dirAdd_total (nameLen dotdot) hlayout₂
    hrep₂ (by decide) (Graph.set_same _ _ _) (by decide : Stored dotdot) (by decide : 0 < 65536) hgranted₂
    (hrep₂.exists_free hlive (by decide))
  obtain ⟨-, hlayout₃, hused₃, hrep₃⟩ := dirAdd_fits hlayout₂ hrep₂ (by decide)
    (Graph.set_same _ _ _) (by simp) (by decide) (by decide) hadd₃ hgranted₃
  rw [Graph.set_set] at hrep₃
  refine ⟨s₃, ?_, ⟨hlayout₃, hgranted₃, fun i => ?_, hrep₃⟩, fun b hb hclear hbefore => ?_⟩
  · rw [makeRoot]
    dsimp only
    rw [hroot, hw, eta_rootDirIno hlayout₁, hread, hadd₂, Option.bind_eq_bind,
      Option.bind_some]
    dsimp only
    rw [hlayout₂.rootDirIno, Fs.readi_eq (by decide), hadd₃, Option.bind_some]
  · rw [hused₃, hused₂, hstore₁, Store.inodeUsed_setInode, hused]
  · -- the first entry takes the first free block
    have hb67 := h.owned.le_of_free hb hclear
    have hflags : w.store.blockUsed = s.store.blockUsed := by rw [hstore₁, Store.blockUsed_setInode]
    have hret : (getAvailBlkno w).1 = b := by
      have hret : (getAvailBlkno w).1 ≠ -1 := by
        intro hret
        rw [← hflags, Fs.getAvailBlkno_exhausted hlayout₁ hret b hb] at hclear
        cases hclear
      obtain ⟨c, hc, hgot, hclear', hbefore', -⟩ := Fs.getAvailBlkno_spec hlayout₁ hret
      rw [hflags] at hclear' hbefore'
      rcases Nat.lt_trichotomy b c with hlt | heq | hgt
      · rw [hbefore' b hlt] at hclear
        cases hclear
      · rw [hgot, heq]
      · rw [hbefore c hgt] at hclear'
        cases hclear'
    obtain ⟨hptr₂, hput₂⟩ := dirAdd_newBlock hlayout₁ hrep₁ (by decide) (Graph.set_same _ _ _)
      (by decide) (by decide) hret hb67 hb hadd₂
    obtain ⟨buf, hput₃, hstore₃⟩ :=
      dirAdd_oldBlock hlayout₂ hrep₂ (by decide) (Graph.set_same _ _ _) (by decide) hadd₃
    have hptr₂ : s₂.store.ptr 0 0 = b := hptr₂
    change putDirent (s₂.store.blocks (s₂.store.ptr 0 0)) 1 0 (nameLen dotdot) dotdot = some buf at hput₃
    change s₃.store = s₂.store.setBlock (s₂.store.ptr 0 0) buf at hstore₃
    rw [hptr₂] at hput₃ hstore₃
    refine ⟨by rw [hstore₃, Store.ptr_setBlock, hptr₂], fun x hx => ?_⟩
    have hx : 428 ≤ x := hx
    obtain ⟨buf₂, hbuf₂, -, hrest₂⟩ := putDirent_spec (l := nameLen dot) (fun _ => 0)
      (by decide : 0 < 19) (by decide : Stored dot) (by decide : 0 < 65536)
    obtain ⟨buf₃, hbuf₃, -, hrest₃⟩ := putDirent_spec (l := nameLen dotdot) (s₂.store.blocks b)
      (by decide : 1 < 19) (by decide : Stored dotdot) (by decide : 0 < 65536)
    rw [hput₂] at hbuf₂
    rw [hput₃] at hbuf₃
    cases hbuf₂
    cases hbuf₃
    rw [hstore₃, Store.blocks_setBlock_same, hrest₃ x (.inr (Nat.le_trans (by decide) hx)),
      hrest₂ x (.inr (Nat.le_trans (by decide) hx))]

/-- Block 0 is written before the loop over the inodes. -/
theorem bioRead_initInodes_zero (n : ℕ) : ∀ {s : Fs} {i : ℕ}, s.Layout →
    bioRead (initInodes s i n).disk 0 = bioRead s.disk 0 := by
  induction n with
  | zero => exact fun _ => rfl
  | succ n ih =>
    intro s i hs
    rw [initInodes]
    refine (ih (Fs.layout_writei hs i _)).trans ?_
    rw [Fs.disk_writei, Fs.inodeBlk_eq hs, bioRead_bioWrite_of_ne (by omega)]

/-- The state the root is made in. -/
theorem rufsMkfs_makeRoot (junk : Bytes) (times : Times) :
    ∃ t, rufsMkfs junk times = makeRoot (getAvailIno t).2 0 times ∧ Unused t ∧
      (getAvailIno t).1 = 0 ∧ (getAvailIno t).2.store = t.store.useInode 0 ∧
      t.superblock = initSuperblock ∧
      bioRead t.disk 0 = junk.copy 0 initSuperblock 0 Superblock.bytes ∧
      ∀ i, t.store.inodes i = if 1 ≤ i ∧ i < 1024 then blankInode i else fun _ => 0 := by
  obtain ⟨s₁, hs₁⟩ : ∃ s₁, initInodes (blankFs junk) 1 (MAX_INUM - 1) = s₁ := ⟨_, rfl⟩
  have hunused := unused_mkfs junk hs₁
  obtain ⟨t, ht⟩ : ∃ t, t = ({ s₁ with
    dataBlockBitmap := metadataBitmap, disk := bitmapDisk s₁ metadataBitmap } : Fs) := ⟨_, rfl⟩
  rw [← ht] at hunused
  have hlayout := hunused.layout
  have hino := hunused.inodeUsed
  have hret : (getAvailIno t).1 ≠ -1 := by
    intro hret
    have hfull := Fs.getAvailIno_exhausted hlayout hret 0 (by decide)
    rw [hino] at hfull
    cases hfull
  obtain ⟨i, hi, hgot, -, hbefore, hstore⟩ := Fs.getAvailIno_spec hlayout hret
  have hi0 : i = 0 := by
    by_contra hne
    have hused := hbefore 0 (by omega)
    rw [hino] at hused
    cases hused
  rw [hi0] at hgot hstore
  obtain ⟨hlayout₁, -, -, hbitmap, hsb, -⟩ :=
    initInodes_spec 1023 (blankFs_layout junk) (by decide : 1 + 1023 ≤ 1024)
  have hzero := bioRead_initInodes_zero 1023 (i := 1) (blankFs_layout junk)
  have hn : MAX_INUM - 1 = 1023 := rfl
  rw [← hn, hs₁] at hlayout₁ hbitmap hsb hzero
  have hdata : s₁.dataBlockBitmap = fun _ => 0 := by rw [hbitmap, blankFs]
  refine ⟨t, ?_, hunused, hgot, hstore, ?_, ?_, inodes_mkfs junk hs₁ ht⟩
  · rw [rufsMkfs_eq junk times hs₁ ht hdata, hgot]
    rfl
  · rw [ht]
    exact hsb
  · rw [ht, bitmapDisk, hlayout₁.iBitmapBlk, hlayout₁.dBitmapBlk, bioRead_bioWrite_of_ne (by decide),
      bioRead_bioWrite_of_ne (by decide), hzero, blankFs]
    exact bioRead_bioWrite_same (by decide)

theorem rufsMkfs_total (junk : Bytes) (times : Times) :
    ∃ s, rufsMkfs junk times = some s ∧ Made s ∧ s.store.ptr 0 0 = 67 ∧
      ∀ x, slotAddr 2 ≤ x → s.store.blocks 67 x = 0 := by
  obtain ⟨t, hmkfs, ⟨hlayout, hallocs, hino, hrep⟩, hgot, hstore, -⟩ := rufsMkfs_makeRoot junk times
  rw [hmkfs]
  have hgranted : (getAvailIno t).2.Granted := by
    intro r hr
    rw [Fs.allocs_getAvailIno, hgot, hallocs, List.mem_singleton] at hr
    rw [hr]
    decide
  obtain ⟨s, hs, hmade, hptr⟩ := makeRoot_spec times (Fs.layout_getAvailIno hlayout) hgranted
    (fun i => by
      rw [hstore, Store.inodeUsed_useInode, Function.update_apply, hino]
      split
      · next h => rw [h]; rfl
      · next h => rw [decide_eq_false h]) (hstore ▸ hrep.useInode 0)
  refine ⟨s, hs, hmade, hptr 67 (by decide) ?_ fun c hc => ?_⟩
  · rw [hstore, Store.blockUsed_useInode, Bool.eq_false_iff]
    intro hused
    rcases (hrep.owned.used_iff 67 (by decide)).mp hused with hlt | ⟨i, hi, k, hk, hptr⟩
    · exact absurd hlt (by decide)
    · have hnull : t.store.ptr i k = 0 := (hrep.node i hi).2 k hk
      rw [hnull] at hptr
      exact absurd hptr (by decide)
  · rw [hstore, Store.blockUsed_useInode]
    exact (hrep.owned.used_iff c (by omega)).mpr (Or.inl hc)

theorem rufsMkfs_spec (junk : Bytes) (times : Times) :
    ∃ s, rufsMkfs junk times = some s ∧ Made s := by
  obtain ⟨s, hs, hmade, -⟩ := rufsMkfs_total junk times
  exact ⟨s, hs, hmade⟩

end Mkfs

end UserLevelOs.Files
