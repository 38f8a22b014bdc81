import UserLevelOs.Files.Crashes
import UserLevelOs.Files.Frame
import UserLevelOs.Files.Remount

/-!
# After a crash

The process may die after any write of a request.  What the next process finds on the disk is
what was there before the request, with whatever the request had done by then: every path leads
where it led, nothing has changed but the subject of the request, a directory has its old entries
and at most the new one, and a file has in each place its old byte or the one to be written.

## Main definitions

* `Survives` — what the next process finds.

## Main statements

* `Run.survives` — for every request of every run, and each write after which it may be cut off.
-/

namespace UserLevelOs.Files

open UserLevelOs.Lib

/-! ## What the next process finds -/

/-- Names that lead to inode `i` by way of directories. -/
structure Fs.Finds (s : Fs) (names : List Name) (i : ℕ) : Prop where
  strings : ∀ name ∈ names, 0 ∉ name
  searches : s.SearchesDirs s.rootDirIno names
  walk : walk s s.rootDirIno names = some i

/-- What a process `u` finds on the disk when request `c` of process `s` was cut off. -/
structure Survives (c : Call) (s u : Fs) : Prop where
  walk : ∀ names i, s.Finds names i → walk u u.rootDirIno names = some i
  other : ∀ names i, s.Finds names i → c.subject s ≠ some i → readi u i = readi s i ∧
    ∀ k < DIRECT_PTRS, (readi s i).ptr k ≠ 0 →
      bioRead u.disk ((readi s i).ptr k) = bioRead s.disk ((readi s i).ptr k)
  dir : ∀ path i, 0 ∉ path → s.Finds (strtokAll path) i → s.IsDir i → u.IsDir i ∧
    ∃ names more, (more = [] ∨ ∃ name ∈ c.entered, more = [name]) ∧ ∀ filler,
      rufsReaddir s filler path = fillNames filler names [] ∧
        rufsReaddir u filler path = fillNames filler (names ++ more) []
  file : ∀ names i, s.Finds names i → s.IsFile i → u.IsFile i ∧
    (Inode.size.get (readi u i) 0 = Inode.size.get (readi s i) 0 ∨
      Inode.size.get (readi u i) 0 = (Inode.size.get (readi s i) 0 + c.stored) % 2 ^ 32) ∧
    ∀ p < 65536, u.byteAt i p = s.byteAt i p ∨ c.written p = some (u.byteAt i p)

/-! ## Looking at a copy -/

section Copies

open Fs

variable {s t u v : Fs} {g g' : Graph} {T : Places} {c : Call} {i j : ℕ} {names : List Name}
  {entries : List (Name × ℕ)} {name : Name} {path : List UInt8}

/-- A search of the copy. -/
theorem Represents.dirFind_copied (h : Represents v.store g) (hi : i < 1024)
    (hdir : g i = some (.dir entries)) (hcopied : v.Copied u i) (hname : 0 ∉ name) :
    dirFind u i name = entries.lookup name := by
  rw [← dirFind_dir h hi hdir hname, dirFind, dirFind, readi_eq hi, readi_eq hi,
    hcopied.inode.valid]
  refine if_congr Iff.rfl rfl (findSome?_congr fun k hk => ?_)
  have hk : k < 16 := List.mem_range.mp hk
  rw [hcopied.inode.ptr k hk]
  by_cases hne : (v.store.inodes i).ptr k = 0
  · rw [if_neg (not_not_intro hne), if_neg (not_not_intro hne)]
  · rw [if_pos hne, if_pos hne, h.bioRead_copied hi hcopied hk hne]

/-- A listing of the copy. -/
theorem Represents.rufsReaddir_copied (h : Represents v.store g) (hi : i < 1024)
    (hdir : g i = some (.dir entries)) (hcopied : v.Copied u i)
    (filler : List (List UInt8) → List UInt8 → Bool)
    (hv : getNodeByPath v path v.rootDirIno = some (v.store.inodes i))
    (hu : getNodeByPath u path u.rootDirIno = some (u.store.inodes i)) :
    rufsReaddir u filler path = fillNames filler (entries.map Prod.fst) [] := by
  rw [← rufsReaddir_dir h hi hdir filler hv, rufsReaddir, rufsReaddir, hv, hu]
  dsimp only
  refine congrArg (fun names => fillNames filler names []) (List.flatMap_congr fun k hk => ?_)
  have hk : k < 16 := List.mem_range.mp hk
  rw [hcopied.inode.ptr k hk]
  by_cases hne : (v.store.inodes i).ptr k = 0
  · rw [if_neg (not_not_intro hne), if_neg (not_not_intro hne)]
  · rw [if_pos hne, if_pos hne, h.bioRead_copied hi hcopied hk hne]

/-- Directories that have more entries behind the old ones do not lead elsewhere. -/
theorem walk_of_longer
    (h : ∀ i entries, g i = some (.dir entries) → ∃ more : List (Name × ℕ), ∀ name, 0 ∉ name →
      dirFind u i name = (entries ++ more).lookup name)
    (hnames : ∀ name ∈ names, 0 ∉ name) (hwalk : g.walk i names = some j) :
    walk u i names = some j := by
  induction names generalizing i with
  | nil => exact hwalk
  | cons name names ih =>
    rw [Graph.walk, Option.bind_eq_some_iff] at hwalk
    obtain ⟨k, hfind, hwalk⟩ := hwalk
    rw [Graph.find] at hfind
    split at hfind
    · next entries hdir =>
      obtain ⟨more, hmore⟩ := h i entries hdir
      rw [walk, hmore name (hnames name List.mem_cons_self), List.lookup_append, hfind]
      exact ih (fun name' hmem => hnames name' (List.mem_cons_of_mem name hmem)) hwalk
    · cases hfind

theorem getNodeByPath_of_walk (h : walk u u.rootDirIno (strtokAll path) = some i) :
    getNodeByPath u path u.rootDirIno = some (readi u i) := by
  rw [getNodeByPath]
  split
  · next hslash =>
    rw [hslash] at h
    cases h
    rfl
  · rw [h, Option.map_some]

theorem Kept.walk_of_finds (h : Kept s g T) (hfinds : s.Finds names i) :
    g.walk 0 names = some i := by
  have hsearches := hfinds.searches
  rw [h.layout.rootDirIno] at hsearches
  have hwalk := hfinds.walk
  rwa [h.walk_eq hfinds.strings (h.walkSearches h.root_ne_none hfinds.strings hsearches)] at hwalk

/-! ## Looking at what is left -/

/-- Every path still leads where it led. -/
theorem Left.walk (h : Left g c s u) (hkept : Kept s g T) (hnames : ∀ name ∈ names, 0 ∉ name)
    (hwalk : g.walk 0 names = some i) : walk u u.rootDirIno names = some i := by
  obtain ⟨v, g', hlayout, hrep, hdirs⟩ := h.dirs
  rw [h.layout.rootDirIno]
  refine walk_of_longer (fun i entries hdir => ?_) hnames hwalk
  obtain ⟨hcopied, more, hmore, -⟩ := hdirs i entries hdir
  have hi : i < 1024 := hkept.lt (Graph.live_of_eq hdir)
  exact ⟨more, fun name hname => hrep.dirFind_copied hi hmore hcopied hname⟩

/-- A directory lists what it listed, and at most the name that was to be entered. -/
theorem Left.dir (h : Left g c s u) (hkept : Kept s g T) (hpath : 0 ∉ path)
    (hwalk : g.walk 0 (strtokAll path) = some i) (hdir : g i = some (.dir entries)) :
    u.IsDir i ∧ ∃ more : List Name, (more = [] ∨ ∃ name ∈ c.entered, more = [name]) ∧
      ∀ filler, rufsReaddir u filler path = fillNames filler (entries.map Prod.fst ++ more) [] := by
  have hnames : ∀ name ∈ strtokAll path, 0 ∉ name := fun name hmem => nul_notMem_of_mem hpath hmem
  have hi : i < 1024 := hkept.lt (Graph.live_of_eq hdir)
  have hu := getNodeByPath_of_walk (h.walk hkept hnames hwalk)
  obtain ⟨v, g', hlayout, hrep, hdirs⟩ := h.dirs
  obtain ⟨hcopied, more, hmore, hentered⟩ := hdirs i entries hdir
  have hv : getNodeByPath v path v.rootDirIno = some (readi v i) := by
    apply getNodeByPath_of_walk
    rw [hlayout.rootDirIno]
    refine walk_of_longer (fun j es hj => ?_) hnames hwalk
    obtain ⟨-, more, hmore, -⟩ := hdirs j es hj
    have hj : j < 1024 := hkept.lt (Graph.live_of_eq hj)
    exact ⟨more, fun name hname => dirFind_dir hrep hj hmore hname⟩
  rw [readi_eq hi] at hu hv
  have hholds := hrep.node i hi
  rw [hmore] at hholds
  refine ⟨?_, more.map Prod.fst, ?_, fun filler => ?_⟩
  · rw [IsDir, readi_eq hi, hcopied.inode.type, hholds.2.1]
  · rcases hentered with rfl | ⟨name, hname, j, rfl⟩
    · exact Or.inl rfl
    · exact Or.inr ⟨name, hname, rfl⟩
  · rw [hrep.rufsReaddir_copied hi hmore hcopied filler hv hu, List.map_append]

/-- A file that is not the subject has all its bytes. -/
theorem Left.file_other (h : Left g c s u) (hkept : Kept s g T) {size : ℕ}
    {blocks : ℕ → Option Bytes} (hnode : g i = some (.file size blocks))
    (hother : c.subject s ≠ some i) : readi u i = readi s i ∧
      ∀ x < 65536, u.byteAt i x = s.byteAt i x := by
  have hlive := Graph.live_of_eq hnode
  have hi := hkept.lt hlive
  have huntouched := h.other i hlive hother
  refine ⟨by rw [readi_eq hi, readi_eq hi, huntouched.inode], fun x hx => ?_⟩
  rw [hkept.rep.byteAt_copied hi hnode huntouched.copied hx,
    hkept.rep.byteAt_copied hi hnode (Copied.refl s i) hx]

/-- What is left is what the next process finds. -/
theorem Left.found_by_next (h : Left g c s u) (hkept : Kept s g T) : Survives c s u where
  walk names i hfinds := h.walk hkept hfinds.strings (hkept.walk_of_finds hfinds)
  other names i hfinds hother := by
    have hlive := hkept.node_ne_none_of_walk (hkept.walk_of_finds hfinds)
    have hi := hkept.lt hlive
    have huntouched := h.other i hlive hother
    rw [readi_eq hi, readi_eq hi]
    exact ⟨huntouched.inode, fun k hk hne =>
      hkept.rep.bioRead_copied hi huntouched.copied hk hne⟩
  dir path i hpath hfinds hdir := by
    have hwalk := hkept.walk_of_finds hfinds
    have hlive := hkept.node_ne_none_of_walk hwalk
    have hi := hkept.lt hlive
    obtain ⟨entries, hnode⟩ := (hkept.isDir_iff hlive).mp hdir
    obtain ⟨hisDir, more, hmore, hlist⟩ := h.dir hkept hpath hwalk hnode
    have hget := getNodeByPath_of_walk hfinds.walk
    rw [readi_eq hi] at hget
    exact ⟨hisDir, entries.map Prod.fst, more, hmore, fun filler =>
      ⟨rufsReaddir_dir hkept.rep hi hnode filler hget, hlist filler⟩⟩
  file names i hfinds hfile := by
    have hlive := hkept.node_ne_none_of_walk (hkept.walk_of_finds hfinds)
    have hi := hkept.lt hlive
    obtain ⟨size, blocks, hnode⟩ := (hkept.isFile_iff hlive).mp hfile
    by_cases hsubject : c.subject s = some i
    · obtain ⟨htype, hsize, hbyte⟩ := h.file i size blocks hnode hsubject
      have hholds := hkept.rep.node i hi
      rw [hnode] at hholds
      rw [IsFile, readi_eq hi, readi_eq hi, hholds.2.2.1]
      refine ⟨htype, hsize, fun x hx => ?_⟩
      rw [hkept.rep.byteAt_copied hi hnode (Copied.refl s i) hx]
      exact hbyte x hx
    · obtain ⟨hinode, hbyte⟩ := h.file_other hkept hnode hsubject
      rw [IsFile, hinode]
      exact ⟨hfile, Or.inl rfl, fun x hx => Or.inl (hbyte x hx)⟩

end Copies

/-! ## The next process -/

section Restart

open Logged Fs

variable {s t u : Fs} {g : Graph} {c : Call} {i : ℕ} {junk : Bytes} {times : Times}
  {log : List Event}

/-- What is left depends on the disk, and on where the tables lie. -/
theorem Left.congr (h : Left g c s t) (hgraph : ∀ i, g i ≠ none → i < 1024) (hu : u.Layout)
    (hdisk : u.disk = t.disk) : Left g c s u := by
  have hstore := store_congr h.layout hu hdisk
  obtain ⟨v, g', hlayout, hrep, hdirs⟩ := h.dirs
  refine ⟨hu, by rw [hdisk, h.block_zero], ⟨v, g', hlayout, hrep, fun i entries hdir => ?_⟩,
    fun i hlive hother => ?_, fun i size blocks hnode hsubject => ?_⟩
  · obtain ⟨hcopied, hmore⟩ := hdirs i entries hdir
    exact ⟨⟨by rw [hstore]; exact hcopied.inode, by rw [hstore]; exact hcopied.block⟩, hmore⟩
  · have huntouched := h.other i hlive hother
    exact ⟨by rw [hstore]; exact huntouched.inode, by rw [hstore]; exact huntouched.block⟩
  · have hi := hgraph i (Graph.live_of_eq hnode)
    have hbyte (x : ℕ) : u.byteAt i x = t.byteAt i x := by
      simp only [byteAt, readi_eq hi, hstore, hdisk]
    simp only [hstore, hbyte]
    exact h.file i size blocks hnode hsubject

/-- The requests of a run leave the globals alone. -/
theorem Run.alike (hrun : Run Fs.Allows junk times s log) : s.Alike initSuperblock 0 s := by
  induction hrun with
  | made h => exact (sealed_mkfs h).2
  | call _ _ hexec _ ih =>
    obtain ⟨t, ht, halike⟩ := (ih.exec _).of_some hexec
    rw [hexec] at ht
    cases ht
    exact halike

/-- A new process on a disk that still starts with the superblock. -/
theorem Run.layout_rufsInit (hrun : Run Fs.Allows junk times s log)
    (hzero : bioRead t.disk 0 = bioRead s.disk 0) : (rufsInit t.disk).Layout := by
  have hsuperblock := hrun.alike.left.1
  have hintact := hrun.intact hsuperblock
  rw [Intact, hsuperblock, ← hzero] at hintact
  have halike : (rufsInit t.disk).Alike initSuperblock 0 (rufsInit t.disk) :=
    ⟨rfl, ⟨hintact, rfl⟩, ⟨hintact, rfl⟩⟩
  exact halike.layout

theorem Run.survives (hrun : Run Fs.Allows junk times s log) (hc : s.Allows c)
    (ht : t ∈ c.interrupted.log s) (hgranted : t.Granted) :
    c.interrupted.run s = c.exec s ∧ Survives c s (rufsInit t.disk) := by
  obtain ⟨g, T, hkept, -⟩ := hrun.kept_graph
  have hleft := hkept.left hc ht hgranted
  have hlayout := hrun.layout_rufsInit hleft.block_zero
  have hleft' := hleft.congr (fun i hi => hkept.lt hi) hlayout rfl
  exact ⟨Call.run_interrupted c s, hleft'.found_by_next hkept⟩

/-- The first file of a new disk, when only its inode number has been taken. -/
theorem Run.survives_create : ∃ s t, Run Fs.Allows (fun _ => 0) ⟨0, 0⟩ s [] ∧ t.disk ≠ s.disk ∧
    t ∈ (Call.create slashA ⟨0, 0⟩).interrupted.log s ∧
    (Call.create slashA ⟨0, 0⟩).interrupted.run s = (Call.create slashA ⟨0, 0⟩).exec s ∧
    Survives (.create slashA ⟨0, 0⟩) s (rufsInit t.disk) := by
  obtain ⟨s, hs, hmade⟩ := rufsMkfs_spec (fun _ => 0) ⟨0, 0⟩
  have hfree : s.store.inodeUsed 1 = false := by
    rw [hmade.inodeUsed]
    rfl
  have hret : (getAvailIno s).1 ≠ -1 := by
    intro hret
    rw [getAvailIno_exhausted hmade.layout hret 1 (by decide)] at hfree
    cases hfree
  obtain ⟨i, -, hgot, -⟩ := getAvailIno_spec hmade.layout hret
  have hgranted : (getAvailIno s).2.Granted := by
    intro r hr
    rw [allocs_getAvailIno, List.mem_cons] at hr
    rcases hr with rfl | hr
    · exact hret
    · exact hmade.granted r hr
  have hget : getNodeByPath s (dirname slashA) s.rootDirIno = some (readi s s.rootDirIno) := rfl
  have hseen : (getAvailIno s).2 ∈ (Call.create slashA ⟨0, 0⟩).interrupted.log s := by
    apply (mem_log_bind _ _ _).mpr
    apply Or.inl
    apply (mem_log_bind _ _ _).mpr
    apply Or.inl
    apply (mem_log_bind _ _ _).mpr
    refine Or.inr ⟨(some (readi s s.rootDirIno), s), by rw [run_reads, hget]; rfl, ?_⟩
    apply (mem_log_bind _ _ _).mpr
    apply Or.inl
    rw [Interrupted.mem_log_getAvailIno, hgot]
    exact ⟨Int.natCast_nonneg i, rfl⟩
  refine ⟨s, _, .made hs, fun hdisk => ?_, hseen,
    Run.survives (.made hs) hmade.enters hseen hgranted⟩
  have hfull := (getAvailIno_disk_eq_iff hmade.layout).mp hdisk 1 (by decide)
  rw [inodeUsed_eq hmade.layout, hfree] at hfull
  cases hfull

end Restart

end UserLevelOs.Files
