import UserLevelOs.Files.Runs

/-!
# Calls that succeed

As long as there is an inode number and a block to be had, entering a name below a directory
with room and writing within one block succeed, and no allocator returns `-1`.  Reading needs
nothing but a file.

## Main statements

* `rufsCreate_total`, `rufsRead_total`, `rufsWrite_total`.
* `exists_file` — a disk with one empty file.
-/

namespace UserLevelOs.Files

open UserLevelOs.Lib

variable {s s₁ : Fs} {g : Graph} {i k p : ℕ} {path : List UInt8}
  {nodei nodei₁ : Inode} {buffer : List UInt8}

/-! ## Creating -/

theorem addToParent_total {entries : List (Name × ℕ)} (hs : s.Layout) (h : Represents s.store g)
    (hc : g.Closed) (hmay : MayEnter g path) (hwalk : g.walk 0 (parentNames path) = some p)
    (hdir : g p = some (.dir entries)) (hfit : entries.length < 304) (hgranted : s.Granted)
    (hino : ∃ i < 1024, s.store.inodeUsed i = false)
    (hfree : ∃ b < 16384, s.store.blockUsed b = false) :
    ∃ i s', addToParent s path = some (.inr (s.store.inodes p, i), s') ∧ s'.Granted := by
  have hp : p < 1024 := (h.used p (by rw [hdir]; exact Option.some_ne_none _)).1
  have hret : (getAvailIno s).1 ≠ -1 := by
    intro hret
    obtain ⟨i, hi, hclear⟩ := hino
    rw [Fs.getAvailIno_exhausted hs hret i hi] at hclear
    cases hclear
  obtain ⟨i, hi, hgot, -, -, hstore⟩ := Fs.getAvailIno_spec hs hret
  have hnew : ((getAvailIno s).1 % 2 ^ 16).toNat = i := by
    rw [hgot]
    omega
  have hlayout₁ := Fs.layout_getAvailIno hs
  have hrep₁ : Represents (getAvailIno s).2.store g := hstore ▸ h.useInode i
  have hgranted₁ : (getAvailIno s).2.Granted := by
    intro r hr
    rw [Fs.allocs_getAvailIno] at hr
    rcases List.mem_cons.mp hr with rfl | hr
    · exact hret
    · exact hgranted r hr
  have hfree₁ : ∃ b < 16384, (getAvailIno s).2.store.blockUsed b = false := by
    rw [hstore, Store.blockUsed_useInode]
    exact hfree
  have hinodes : s.store.inodes p = (getAvailIno s).2.store.inodes p := by
    rw [hstore, Store.inodes_useInode]
  obtain ⟨r, s', hadd, hgranted'⟩ := dirAdd_total (nameLen (basename path)) hlayout₁ hrep₁ hp hdir
    hmay.stored (by omega : i < 65536) hgranted₁ hfree₁
  obtain ⟨hr, -⟩ := dirAdd_fits hlayout₁ hrep₁ hp hdir hfit hmay.stored (by omega) hadd hgranted'
  refine ⟨i, s', ?_, hgranted'⟩
  rw [parentNames] at hwalk
  rw [addToParent, getNodeByPath_eq hs h hc (nul_notMem_dirname hmay.string) hmay.searches, hwalk]
  have h1 : (1 : ℤ) ≠ -1 := by decide
  simp only [Option.map_some, hnew, hinodes, hadd, hr, Option.bind_eq_bind, Option.bind_some, if_neg h1,
    one_ne_zero, if_false]

theorem rufsCreate_total (times : Times) {entries : List (Name × ℕ)} (hs : s.Layout) (h : Represents s.store g)
    (hc : g.Closed) (hmay : MayEnter g path) (hwalk : g.walk 0 (parentNames path) = some p)
    (hdir : g p = some (.dir entries)) (hfit : entries.length < 304) (hgranted : s.Granted)
    (hino : ∃ i < 1024, s.store.inodeUsed i = false)
    (hfree : ∃ b < 16384, s.store.blockUsed b = false) :
    ∃ s', rufsCreate s path times = some (0, s') ∧ s'.Granted := by
  obtain ⟨i, s₁, hadd, hgranted₁⟩ :=
    addToParent_total hs h hc hmay hwalk hdir hfit hgranted hino hfree
  refine ⟨writei s₁ i (newFileInode (readi s₁ i) i times), ?_, ?_⟩
  · rw [rufsCreate, hadd, Option.bind_eq_bind, Option.bind_some]
    rfl
  · rw [Fs.Granted, Fs.allocs_writei]
    exact hgranted₁

/-! ## Reading -/

theorem rufsRead_total (atime size : ℕ) {offset : ℕ}
    (hnode : getNodeByPath s path s.rootDirIno = some nodei) (hoff : offset < 65536) :
    ∃ ret bytes s', rufsRead s path size offset atime = some (ret, bytes, s') ∧ 0 ≤ ret := by
  have hblk : toInt ((offset / BLOCK_SIZE : ℕ) : ℤ) = ((offset / 4096 : ℕ) : ℤ) :=
    toInt_natCast (by simp only [BLOCK_SIZE]; omega)
  rw [rufsRead, hnode]
  dsimp only
  split
  · exact ⟨_, _, _, rfl, Int.le_refl 0⟩
  · rw [hblk, if_neg (by omega)]
    generalize (if (toInt ((Inode.size.get nodei 0 : ℤ) - offset) % 2 ^ 64).toNat < size then
      toInt ((Inode.size.get nodei 0 : ℤ) - offset) else toInt size) = remaining
    split
    · exact ⟨_, _, _, rfl, Int.natCast_nonneg _⟩
    · exact ⟨_, _, _, rfl, Int.natCast_nonneg _⟩

/-! ## Writing -/

theorem ensureBlock_granted (hs : s.Layout) (hgranted : s.Granted)
    (hfree : ∃ b < 16384, s.store.blockUsed b = false)
    (hgot : ensureBlock nodei k s = (nodei₁, s₁)) : s₁.Granted := by
  rw [ensureBlock] at hgot
  split at hgot
  · rw [Prod.mk.injEq] at hgot
    intro r hr
    rw [← hgot.2, Fs.allocs_getAvailBlkno] at hr
    rcases List.mem_cons.mp hr with rfl | hr
    · intro hret
      obtain ⟨b, hb, hclear⟩ := hfree
      rw [Fs.getAvailBlkno_exhausted hs hret b hb] at hclear
      cases hclear
    · exact hgranted r hr
  · rw [Prod.mk.injEq] at hgot
    rw [← hgot.2]
    exact hgranted

/-- A write within one block. -/
theorem writeLoop_one {left blkIndex offset remaining : ℕ} (hrem : remaining ≠ 0)
    (hfit : offset % 4096 + remaining ≤ 4096) (hgot : ensureBlock nodei blkIndex s = (nodei₁, s₁)) :
    writeLoop buffer (left + 1) blkIndex offset remaining 0 nodei s =
      (nodei₁, remaining,
        storeBlock nodei₁ blkIndex s₁ (offset % 4096) (buffer.take remaining)) := by
  have hmin : min remaining (4096 - offset % 4096) = remaining := by omega
  rw [writeLoop_block hrem hgot, hmin, Nat.sub_self, Nat.zero_add, List.drop_zero,
    writeLoop_end (Or.inr rfl)]

/-- The inode after `n` bytes have been written. -/
def writtenInode (nodei : Inode) (n : ℕ) (times : Times) : Inode :=
  let nodei := Inode.size.set nodei 0 (Inode.size.get nodei 0 + n)
  Inode.setTimes (Inode.stSize.set nodei 0 (Inode.stSize.get nodei 0 + n)) times

/-- A write that ends with `bytesWritten` bytes stored. -/
theorem rufsWrite_of_loop (times : Times) {size offset bytesWritten : ℕ} {s' : Fs}
    (hnode : getNodeByPath s path s.rootDirIno = some nodei) (hoff : offset < 65536)
    (hsize : size < 2 ^ 31) (hlen : size ≤ buffer.length)
    (hloop : writeLoop buffer (DIRECT_PTRS - offset / 4096) (offset / 4096) offset size 0 nodei s =
      (nodei₁, bytesWritten, s')) :
    rufsWrite s path buffer size offset times = some ((bytesWritten : ℤ),
      writei s' (Inode.ino.get (writtenInode nodei₁ bytesWritten times) 0)
        (writtenInode nodei₁ bytesWritten times)) := by
  have hblk : toInt ((offset / BLOCK_SIZE : ℕ) : ℤ) = ((offset / 4096 : ℕ) : ℤ) :=
    toInt_natCast (by simp only [BLOCK_SIZE]; omega)
  rw [rufsWrite, hnode]
  dsimp only
  rw [hblk, toInt_natCast hsize, if_neg (by omega), if_neg (by omega), Int.toNat_natCast,
    Int.toNat_natCast, hloop]
  rfl

theorem rufsWrite_one (times : Times) {size offset : ℕ}
    (hnode : getNodeByPath s path s.rootDirIno = some nodei) (hoff : offset < 65536)
    (hsize : 0 < size) (hfit : offset % 4096 + size ≤ 4096) (hlen : size ≤ buffer.length)
    (hgot : ensureBlock nodei (offset / 4096) s = (nodei₁, s₁)) :
    rufsWrite s path buffer size offset times = some ((size : ℤ),
      writei (storeBlock nodei₁ (offset / 4096) s₁ (offset % 4096) (buffer.take size))
        (Inode.ino.get (writtenInode nodei₁ size times) 0) (writtenInode nodei₁ size times)) := by
  obtain ⟨left, hleft⟩ : ∃ left, DIRECT_PTRS - offset / 4096 = left + 1 :=
    ⟨15 - offset / 4096, by simp only [DIRECT_PTRS]; omega⟩
  refine rufsWrite_of_loop times hnode hoff (by omega) hlen ?_
  rw [hleft, writeLoop_one (by omega) hfit hgot]

theorem rufsWrite_total (times : Times) {size offset : ℕ} (hs : s.Layout) (hgranted : s.Granted)
    (hfree : ∃ b < 16384, s.store.blockUsed b = false)
    (hnode : getNodeByPath s path s.rootDirIno = some nodei) (hoff : offset < 65536)
    (hsize : 0 < size) (hfit : offset % 4096 + size ≤ 4096) (hlen : size ≤ buffer.length) :
    ∃ s', rufsWrite s path buffer size offset times = some ((size : ℤ), s') ∧ s'.Granted := by
  rcases hgot : ensureBlock nodei (offset / 4096) s with ⟨nodei₁, s₁⟩
  refine ⟨_, rufsWrite_one times hnode hoff hsize hfit hlen hgot, ?_⟩
  rw [Fs.Granted, Fs.allocs_writei, storeBlock, Fs.allocs_disk]
  exact ensureBlock_granted hs hgranted hfree hgot

/-! ## A disk with one file -/

/-- The path `"/a"`. -/
def slashA : List UInt8 := [47, 97]

/-- The root with the file `a`. -/
def fileGraph (i size : ℕ) (blocks : ℕ → Option Bytes) : Graph :=
  rootGraph.link 0 [(dot, 0), (dotdot, 0)] [97] i (.file size blocks)

/-- A run after which the disk holds the file `"/a"` and nothing else. -/
structure OneFile (junk : Bytes) (times : Times) (s : Fs) (log : List Event) (i size : ℕ)
    (blocks : ℕ → Option Bytes) : Prop where
  run : Run Fs.Allows junk times s log
  granted : s.Granted
  pos : 0 < i
  kept : Kept s (fileGraph i size blocks) (Function.update rootPlaces [[97]] (some i))

section OneFile

variable {junk : Bytes} {times : Times} {log : List Event} {size offset fileSize : ℕ} {blocks : ℕ → Option Bytes}

theorem Made.enters (h : Made s) : s.Enters slashA where
  string := by decide
  name_lt := by decide
  searches := True.intro
  parent := by
    intro p hp
    have hp0 : p = 0 := by
      rw [← h.layout.rootDirIno]
      exact (Option.some.inj hp).symm
    rw [hp0, h.kept.isDir_iff (h.kept.placed.node h.kept.placed.root)]
    exact ⟨_, rootGraph_zero⟩

theorem exists_file (junk : Bytes) (times : Times) :
    ∃ s i, OneFile junk times s [⟨.create slashA times, ⟨0, []⟩⟩] i 0 fun _ => none := by
  obtain ⟨s, hs, hmade⟩ := rufsMkfs_spec junk times
  have hlive (i : ℕ) (hi : rootGraph i ≠ none) : i ∈ ({0} : Finset ℕ) := by
    by_contra hne
    exact hi (rootGraph_of_ne (by simpa using hne))
  have hmay := hmade.kept.mayEnter hmade.enters
  obtain ⟨s', hcall, hgranted⟩ := rufsCreate_total times hmade.layout hmade.rep
    rootGraph_closed hmay rfl rootGraph_zero (by decide) hmade.granted
    ⟨1, by decide, by rw [hmade.inodeUsed]; rfl⟩ (hmade.rep.exists_free hlive (by decide))
  obtain ⟨ret, hret⟩ : ∃ ret : ℤ, ret = 0 := ⟨0, rfl⟩
  rw [← hret] at hcall
  obtain ⟨g', hent, hlayout, hrep⟩ := rufsCreate_spec hmade.layout hmade.rep rootGraph_closed hmay hcall
    hgranted
  cases hent with
  | noParent hwalk => cases hwalk
  | noRoom => exact absurd hret (by decide)
  | @entry p i entries hwalk hdir _ hfree =>
    have hp : 0 = p := Option.some.inj hwalk
    rw [← hp] at hdir hrep
    have hentries : entries = [(dot, 0), (dotdot, 0)] := by
      rw [rootGraph_zero, newDir, Option.some.injEq, Node.dir.injEq] at hdir
      exact hdir.symm
    have hbase : basename slashA = [97] := by decide
    rw [hentries] at hdir hrep
    rw [hbase] at hrep
    have hi : 0 < i := by
      by_contra hle
      rw [Nat.eq_zero_of_not_pos hle, rootGraph_zero] at hfree
      cases hfree
    refine ⟨s', i, .call (.made hs) hmade.enters ?_ hgranted, hgranted, hi, hlayout, hrep, ?_, ?_⟩
    · rw [Call.exec, hcall]
      rfl
    · exact rootGraph_closed.link hdir hfree .file
    · exact rootGraph_placed.link rootGraph_placed.root hdir hfree rfl .file

namespace OneFile

theorem dir_root (h : OneFile junk times s log i fileSize blocks) :
    fileGraph i fileSize blocks 0 = some (.dir [(dot, 0), (dotdot, 0), ([97], i)]) :=
  link_parent (Nat.ne_of_lt h.pos)

theorem walk (h : OneFile junk times s log i fileSize blocks) :
    (fileGraph i fileSize blocks).walk 0 (strtokAll slashA) = some i := by
  have htok : strtokAll slashA = [[97]] := by decide
  rw [htok, Graph.walk, Graph.find, h.dir_root]
  rfl

theorem accesses (h : OneFile junk times s log i fileSize blocks) : s.Accesses slashA := by
  have htok : strtokAll slashA = [[97]] := by decide
  have hsearches : (fileGraph i fileSize blocks).WalkSearches 0 (strtokAll slashA) := by
    rw [htok]
    refine ⟨fun size' blocks' hfile => ?_, fun _ _ => True.intro⟩
    rw [h.dir_root] at hfile
    cases hfile
  refine ⟨by decide, ?_, fun j hj => ?_⟩
  · rw [htok, h.kept.layout.rootDirIno]
    refine ⟨?_, fun _ _ => True.intro⟩
    rw [h.kept.isDir_iff h.kept.root_ne_none]
    exact ⟨_, h.dir_root⟩
  · rw [h.kept.walk_eq (by decide) hsearches, h.walk] at hj
    rw [← Option.some.inj hj, h.kept.isFile_iff (h.kept.node_ne_none_of_walk h.walk)]
    exact ⟨_, _, link_new⟩

theorem getNodeByPath_eq (h : OneFile junk times s log i fileSize blocks) :
    getNodeByPath s slashA s.rootDirIno = some (s.store.inodes i) := by
  have hmay := h.kept.mayAccess h.accesses
  rw [Files.getNodeByPath_eq h.kept.layout h.kept.rep h.kept.closed hmay.string hmay.searches, h.walk,
    Option.map_some]

/-- Another write, within one block. -/
theorem write (h : OneFile junk times s log i fileSize blocks) (hoff : offset < 65536)
    (hsize : 0 < size) (hfit : offset % 4096 + size ≤ 4096) (hlen : size ≤ buffer.length) :
    ∃ s' blocks', OneFile junk times s'
        (⟨.write slashA buffer size offset times, ⟨size, []⟩⟩ :: log) i
        ((fileSize + size) % 2 ^ 32) blocks' ∧
      Stores blocks blocks' offset (buffer.take size) := by
  have hmay := h.kept.mayAccess h.accesses
  have hlive (j : ℕ) (hj : fileGraph i fileSize blocks j ≠ none) : j ∈ ({0, i} : Finset ℕ) := by
    by_contra hne
    simp only [Finset.mem_insert, Finset.mem_singleton, not_or] at hne
    refine hj ?_
    rw [fileGraph, link_other hne.2 hne.1, rootGraph_of_ne hne.1]
  have hfew : ({0, i} : Finset ℕ).card ≤ 1000 := Finset.card_le_two.trans (by decide)
  obtain ⟨s', hcall, hgranted⟩ := rufsWrite_total times h.kept.layout h.granted
    (h.kept.rep.exists_free hlive hfew) h.getNodeByPath_eq hoff hsize hfit hlen
  have hstored : bytesStored size offset = size := by
    rw [bytesStored, toInt_natCast (by omega), Int.toNat_natCast]
    omega
  rcases rufsWrite_spec h.kept.layout h.kept.rep h.kept.closed hmay hoff hcall hgranted with
    ⟨hwalk, -⟩ | ⟨j, fileSize', blocks₀, blocks', hwalk, hfile, -, -, hstores, hlayout, hrep⟩
  · rw [h.walk] at hwalk
    cases hwalk
  · rw [h.walk, Option.some.injEq] at hwalk
    rw [← hwalk] at hfile hrep
    rw [fileGraph, link_new, Option.some.injEq, Node.file.injEq] at hfile
    rw [← hfile.2, hstored] at hstores
    have hset : (fileGraph i fileSize blocks).set i (.file ((fileSize + size) % 2 ^ 32) blocks') =
        fileGraph i ((fileSize + size) % 2 ^ 32) blocks' := by
      rw [fileGraph, Graph.link, Graph.set_set]
      rfl
    rw [← hfile.1, hstored, hset] at hrep
    refine ⟨s', blocks', ⟨?_, hgranted, h.pos, hlayout, hrep, ?_, ?_⟩, hstores⟩
    · refine .call h.run ⟨h.accesses, hoff⟩ ?_ hgranted
      rw [Call.exec, hcall]
      rfl
    · rw [← hset]
      exact h.kept.closed.setFile link_new
    · rw [← hset]
      exact h.kept.placed.setFile link_new

end OneFile

end OneFile

end UserLevelOs.Files
