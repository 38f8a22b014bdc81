import UserLevelOs.Files.Frame

/-!
# Link counts

An inode counts its links twice, in `link` and in the `st_nlink` of its stat.  `rufs_mkfs` sets
only `link`, `rufs_mkdir` sets neither for the directory it makes and adds one to both for the
parent, and nothing else touches them.  So `link` counts the two names of a directory for the root
alone, and `st_nlink` for none.

## Main definitions

* `subdirs` — the subdirectories of a directory, read off the disk.
* `LinkLaw` — both counts are two more than there are subdirectories.
* `Graph.children`, `Counted` — what the counts are.
* `ValidDir` — an inode of a directory.

## Main statements

* `rufsMkdir_links`, `rufsCreate_links` — what the calls do to the counts.
* `Run.counted`.
* `Run.linkLaw_never`.
-/

namespace UserLevelOs.Files

open UserLevelOs.Lib

/-! ## Subdirectories -/

/-- The inode slot `j` leads to, if it is a directory under a name of its own. -/
def slotSubdir (s : Fs) (buf : Bytes) (j : ℕ) : Option ℕ :=
  let ino := Dirent.ino.get buf (slotAddr j)
  if Dirent.valid.get buf (slotAddr j) ≠ 0 ∧ buf.strEq (slotAddr j + Dirent.name) dot = false ∧
      buf.strEq (slotAddr j + Dirent.name) dotdot = false ∧
      Inode.valid.get (readi s ino) 0 ≠ INVALID ∧ Inode.type.get (readi s ino) 0 = DIRECTORY then some ino
  else none

def subdirs (s : Fs) (i : ℕ) : List ℕ :=
  (List.range DIRECT_PTRS).flatMap fun k =>
    if s.ptr i k ≠ 0 then (List.range DIRENTS_IN_BLOCK).filterMap (slotSubdir s (bioRead s.disk (s.ptr i k)))
    else []

/-- The links of a directory are its own two and one for each subdirectory, and a stat reports
them. -/
structure LinkLaw (s : Fs) (i : ℕ) : Prop where
  link : Inode.link.get (readi s i) 0 = 2 + (subdirs s i).length
  stNlink : ∀ path st, 0 ∉ path → rufsGetattr s path = .ok st → Inode.ino.get st 0 = i →
    Inode.stNlink.get st 0 = Inode.link.get (readi s i) 0

def Node.isDir : Node → Bool
  | .dir _ => true
  | .file _ _ => false

namespace Graph

def isDir (g : Graph) (i : ℕ) : Bool := (g i).any Node.isDir

/-- The inode an entry leads to, if it is a directory under a name of its own. -/
def childDir (g : Graph) (e : Name × ℕ) : Option ℕ :=
  if e.1 ≠ dot ∧ e.1 ≠ dotdot ∧ g.isDir e.2 = true then some e.2 else none

/-- How many subdirectories node `i` has. -/
def children (g : Graph) (i : ℕ) : ℕ :=
  match g i with
  | some (.dir entries) => (entries.filterMap g.childDir).length
  | _ => 0

end Graph

section Subdirs

variable {s : Fs} {g : Graph} {T : Places} {i j p : ℕ} {entries : List (Name × ℕ)} {name : Name} {n : Node}

theorem Kept.isDir_eq (h : Kept s g T) (hi : g i ≠ none) : g.isDir i = true ↔
    Inode.valid.get (readi s i) 0 ≠ INVALID ∧ Inode.type.get (readi s i) 0 = DIRECTORY := by
  have hnode := h.rep.node i (h.lt hi)
  rw [Fs.readi_eq (h.lt hi), Graph.isDir]
  cases hn : g i with
  | none => exact absurd hn hi
  | some n =>
    rw [hn] at hnode
    cases n with
    | dir entries => exact iff_of_true rfl ⟨hnode.1, hnode.2.1⟩
    | file size blocks =>
      rw [hnode.2.1]
      simp [Node.isDir, FILE, DIRECTORY]

theorem slotSubdir_eq (h : Kept s g T) {buf : Bytes} {e : Option (Name × ℕ)} (hslot : SlotHolds buf j e)
    (he : ∀ e' ∈ e, Stored e'.1 ∧ g e'.2 ≠ none) : slotSubdir s buf j = e.bind g.childDir := by
  cases e with
  | none =>
    have hvalid : Dirent.valid.get buf (slotAddr j) = 0 := hslot
    simp [slotSubdir, hvalid]
  | some e =>
    obtain ⟨name, ino⟩ := e
    obtain ⟨hvalid, hstr, hino⟩ := hslot
    obtain ⟨⟨hnul, -⟩, hne⟩ := he _ rfl
    have hname (name' : Name) (hnul' : 0 ∉ name') :
        buf.strEq (slotAddr j + Dirent.name) name' = false ↔ name ≠ name' := by
      rw [← Bool.not_eq_true, Bytes.strEq_iff_eq hstr hnul hnul', ne_comm]
    simp only [slotSubdir, hino, Option.bind_some, Graph.childDir, hname dot (by decide),
      hname dotdot (by decide), ← h.isDir_eq hne, hvalid, ne_eq, not_false_eq_true, true_and]

/-- The subdirectories on the disk are those of the graph. -/
theorem Kept.length_subdirs (h : Kept s g T) (hdir : g i = some (.dir entries)) :
    (subdirs s i).length = g.children i := by
  have hi := h.lt (by rw [hdir]; exact Option.some_ne_none _)
  have hnode := h.rep.node i hi
  rw [hdir] at hnode
  obtain ⟨-, -, hholds⟩ := hnode
  rw [Graph.children, hdir]
  refine congrArg List.length ?_
  rw [← filterMap_slots _ hholds.length_le, ← filterMap_grid _ 16 19]
  refine List.flatMap_congr fun k hk => ?_
  have hk : k < 16 := List.mem_range.mp hk
  rw [Fs.ptr_eq hi]
  by_cases hne : s.store.ptr i k = 0
  · have hlen : ¬ 19 * k < entries.length := fun hlt => (hholds.ptr_iff k hk).mpr hlt hne
    rw [if_neg (not_not.mpr hne), eq_comm, List.filterMap_eq_nil_iff]
    intro j _
    rw [List.getElem?_eq_none (by omega), Option.bind_none]
  · rw [if_pos hne, h.rep.owned.bioRead_ptr hi hk hne]
    refine List.filterMap_congr fun j hj => ?_
    refine slotSubdir_eq h (hholds.slot k hk hne j (List.mem_range.mp hj)) fun e he => ?_
    have hmem := List.mem_of_getElem? he
    exact ⟨hholds.stored e hmem, h.closed.entry hdir e hmem⟩

theorem Kept.children_le (h : Kept s g T) (i : ℕ) : g.children i ≤ 304 := by
  rw [Graph.children]
  split
  · next entries hdir =>
    have hnode := h.rep.node i (h.lt (by rw [hdir]; exact Option.some_ne_none _))
    rw [hdir] at hnode
    exact (List.length_filterMap_le _ _).trans hnode.2.2.length_le
  · exact Nat.zero_le _

/-- A new name makes one subdirectory more of its parent, if it names a directory. -/
theorem Graph.children_link (hc : g.Closed) (hdir : g p = some (.dir entries)) (hfree : g i = none)
    (hdot : name ≠ dot) (hdotdot : name ≠ dotdot) (hn : NewNode i p n) (j : ℕ) :
    (g.link p entries name i n).children j =
      g.children j + if j = p ∧ n.isDir = true then 1 else 0 := by
  have hpi := ne_of_free hdir hfree
  -- the entries lead where they led
  have hold (k : ℕ) (hk : g k ≠ none) : (g.link p entries name i n).isDir k = g.isDir k := by
    have hki : k ≠ i := fun heq => hk (heq ▸ hfree)
    by_cases hkp : k = p
    · rw [Graph.isDir, Graph.isDir, hkp, link_parent hpi, hdir]
      rfl
    · rw [Graph.isDir, Graph.isDir, link_other hki hkp]
  have hsame {k : ℕ} {es : List (Name × ℕ)} (hk : g k = some (.dir es)) :
      es.filterMap (g.link p entries name i n).childDir = es.filterMap g.childDir := by
    refine List.filterMap_congr fun e he => ?_
    rw [Graph.childDir, Graph.childDir, hold _ (hc.entry hk e he)]
  by_cases hji : j = i
  · rw [hji, if_neg fun h => hpi h.1.symm, Graph.children, link_new, Graph.children, hfree]
    cases hn with
    | dir => simp [Graph.childDir]
    | file => rfl
  · by_cases hjp : j = p
    · rw [hjp, Graph.children, link_parent hpi, Graph.children, hdir]
      dsimp only
      rw [List.filterMap_append, hsame hdir, List.length_append]
      cases hn with
      | dir => simp [Graph.childDir, Graph.isDir, link_new, hdot, hdotdot, Node.isDir]
      | file => simp [Graph.childDir, Graph.isDir, link_new, Node.isDir]
    · rw [if_neg fun h => hjp h.1, Graph.children, link_other hji hjp, Graph.children]
      cases hj : g j with
      | none => rfl
      | some node =>
        cases node with
        | dir es =>
          dsimp only
          rw [hsame hj, Nat.add_zero]
        | file size blocks => rfl

end Subdirs

/-! ## What the calls do to the counts -/

/-- Both counts of an inode. -/
def Inode.links (inode : Inode) : ℕ × ℕ := (Inode.link.get inode 0, Inode.stNlink.get inode 0)

def Fs.links (s : Fs) (i : ℕ) : ℕ × ℕ := (s.store.inodes i).links

section Links

variable {s s' s₁ : Fs} {inode : Inode} {i j fIno len : ℕ} {r ret : ℤ} {fname path : List UInt8}
  {times : Times} {added : ℤ ⊕ Inode × ℕ}

theorem links_newDirInode : (newDirInode inode i times).links = inode.links := by
  simp (disch := decide) only [Inode.links, newDirInode, Inode.setTimes, Inode.get_clearPtrs,
    Field.get_set_of_apart]

theorem links_newFileInode : (newFileInode inode i times).links = inode.links := by
  simp (disch := decide) only [Inode.links, newFileInode, Inode.setTimes, Inode.get_clearPtrs,
    Field.get_set_of_apart]

/-- `rufs_mkfs` sets one of them. -/
theorem links_rootInode : (rootInode inode i times).links = (2, Inode.stNlink.get inode 0) := by
  simp (disch := decide) only [Inode.links, rootInode, Inode.setTimes, Inode.get_clearPtrs,
    Field.get_set_of_apart, Field.get_set_same]
  rfl

/-- Pointers may be dropped. -/
theorem Fs.Booked.shrink (h : s.Booked) (hs' : s'.Layout)
    (hino : ∀ i < 1024, Inode.ino.get (s'.store.inodes i) 0 = i)
    (hptr : ∀ i < 1024, ∀ k < 16, s'.store.ptr i k = s.store.ptr i k ∨ s'.store.ptr i k = 0)
    (hflags : s'.store.blockUsed = s.store.blockUsed) : s'.Booked where
  layout := hs'
  ino i hi := by rw [readi_eq hi, hino i hi]
  ptr i hi k hk := by
    have hold := h.ptr i hi k hk
    rw [ptr_eq hi] at hold ⊢
    rcases hptr i hi k hk with hsame | hnull
    · rw [hsame]
      exact hold
    · exact Or.inr (Or.inl hnull)
  once i hi k hk j hj l hl hdata heq := by
    have hold := h.once i hi k hk j hj l hl
    rw [ptr_eq hi] at hdata
    rw [ptr_eq hi, ptr_eq hj] at heq hold
    have hsame := (hptr i hi k hk).resolve_right fun hnull => by
      rw [hnull] at hdata
      exact not_isData_zero hdata
    have hsame' := (hptr j hj l hl).resolve_right fun hnull => by
      rw [heq, hnull] at hdata
      exact not_isData_zero hdata
    rw [hsame] at hdata heq
    rw [hsame'] at heq
    exact hold hdata heq
  metadata b hb := by
    have hold := h.metadata b hb
    rw [InUse, blockUsed_eq h.layout] at hold
    rw [InUse, blockUsed_eq hs', hflags, hold]
  used i hi k hk b hb heq := by
    rw [ptr_eq hi] at heq
    rw [InUse, blockUsed_eq hs', hflags, ← blockUsed_eq h.layout]
    rcases hptr i hi k hk with hsame | hnull
    · exact h.used i hi k hk b hb (by rw [ptr_eq hi, ← hsame, heq])
    · rw [hnull] at heq
      exact h.metadata b (by omega)

/-- An inode is written back. -/
theorem writei_links (h : s.Booked) (hi : i < 1024) (hbounded : inode.Bounded)
    (hino : Inode.ino.get inode 0 = i)
    (hptr : ∀ k < 16, inode.ptr k = s.store.ptr i k ∨ inode.ptr k = 0) :
    (writei s i inode).Booked ∧
      ∀ j, (writei s i inode).links j = if j = i then inode.links else s.links j := by
  have hstore := Fs.store_writei h.layout hi hbounded
  refine ⟨h.shrink (Fs.layout_writei h.layout _ _) (fun j hj => ?_) (fun j hj k hk => ?_) ?_,
    fun j => ?_⟩
  · rw [hstore]
    by_cases hji : j = i
    · rw [hji, Store.inodes_setInode_same, hino]
    · rw [Store.inodes_setInode_of_ne _ _ _ hji, ← Fs.readi_eq hj, h.ino j hj]
  · rw [hstore]
    by_cases hji : j = i
    · rw [hji, Store.ptr_setInode_same]
      exact hptr k hk
    · exact Or.inl (Store.ptr_setInode_of_ne _ _ _ hji)
  · rw [hstore, Store.blockUsed_setInode]
  · rw [Fs.links, hstore]
    split
    · next hji => rw [hji, Store.inodes_setInode_same]
    · next hji => rw [Store.inodes_setInode_of_ne _ _ _ hji, Fs.links]

/-- Entering a name counts nothing. -/
theorem dirAdd_links (h : s.Booked) (hi : i < 1024)
    (hadd : dirAdd s (readi s i) fIno fname len = some (r, s')) :
    s'.Booked ∧ ∀ j, s'.links j = s.links j := by
  by_cases hplace : HasPlace s (readi s i) fname
  · obtain ⟨hvalid, -, hspot⟩ := hplace
    obtain ⟨⟨k, slot⟩, hspot⟩ := Option.ne_none_iff_exists'.mp hspot
    obtain ⟨-, c, buf, -, hfill⟩ := dirAdd_filled h hi hvalid hspot hadd
    refine ⟨hfill.booked h, fun j => ?_⟩
    rw [Fs.links, Fs.links, Inode.links, Inode.links, hfill.field (by decide), hfill.field (by decide)]
  · obtain ⟨r', hsame, -⟩ := dirAdd_of_not_hasPlace (n := fIno) (l := len) hplace
    rw [hsame, Option.some.injEq, Prod.mk.injEq] at hadd
    rw [← hadd.2]
    exact ⟨h, fun _ => rfl⟩

/-- Neither does taking an inode number. -/
theorem getAvailIno_links (h : s.Booked) (hret : (getAvailIno s).1 ≠ -1) :
    (getAvailIno s).2.Booked ∧ (∀ j, (getAvailIno s).2.links j = s.links j) ∧
      ((getAvailIno s).1 % 2 ^ 16).toNat < 1024 ∧
      ∀ j < 1024, readi (getAvailIno s).2 j = readi s j := by
  obtain ⟨i, hi, hgot, -, -, hstore⟩ := Fs.getAvailIno_spec h.layout hret
  have hinodes : (getAvailIno s).2.store.inodes = s.store.inodes := by
    rw [hstore, Store.inodes_useInode]
  refine ⟨h.shrink (Fs.layout_getAvailIno h.layout) (fun j hj => ?_) (fun j _ k _ => ?_) ?_,
    fun j => ?_, by omega, fun j hj => ?_⟩
  · rw [hinodes, ← Fs.readi_eq hj, h.ino j hj]
  · rw [hstore, Store.ptr_useInode]
    exact Or.inl rfl
  · rw [hstore, Store.blockUsed_useInode]
  · rw [Fs.links, hinodes, Fs.links]
  · rw [Fs.readi_eq hj, Fs.readi_eq hj, hinodes]

/-- The parent of a path is an inode of the table. -/
def Fs.ParentIs (s : Fs) (path : List UInt8) (p : ℕ) : Prop :=
  p < 1024 ∧ getNodeByPath s (dirname path) s.rootDirIno = some (readi s p)

theorem addToParent_links {p : ℕ} (h : s.Booked) (hparent : s.ParentIs path p)
    (hadd : addToParent s path = some (added, s')) (hgranted : s'.Granted) :
    s'.Booked ∧ (∀ j, s'.links j = s.links j) ∧ (∀ error, added = .inl error → error ≠ 0) ∧
      ∀ nodei i, added = .inr (nodei, i) → i < 1024 ∧ nodei = readi s p := by
  obtain ⟨hp, hparent⟩ := hparent
  rcases addToParent_some hadd with ⟨hnone, -, -⟩ | ⟨nodei, r, hsome, hdir, hadded⟩
  · rw [hparent] at hnone
    cases hnone
  · rw [hparent] at hsome
    cases hsome
    obtain ⟨hbooked, hlinks, hi, hread⟩ :=
      getAvailIno_links h (hgranted.of_dirAdd hdir).getAvailIno
    rw [← hread p hp] at hdir
    obtain ⟨hbooked', hlinks'⟩ := dirAdd_links hbooked hp hdir
    refine ⟨hbooked', fun j => (hlinks' j).trans (hlinks j), fun error heq => ?_, fun nodei i heq => ?_⟩
    · rw [hadded] at heq
      split_ifs at heq <;> cases heq <;> decide
    · rw [hadded] at heq
      split_ifs at heq
      cases heq
      exact ⟨hi, rfl⟩

/-- `rufs_create` counts nothing. -/
theorem rufsCreate_links {p : ℕ} (h : s.Booked) (hparent : s.ParentIs path p)
    (hcall : rufsCreate s path times = some (ret, s')) (hgranted : s'.Granted) (j : ℕ) :
    s'.links j = s.links j := by
  cases rufsCreate_some hcall with
  | error hadd => exact (addToParent_links h hparent hadd hgranted).2.1 j
  | @entered nodei i s₁ hadd =>
    obtain ⟨hbooked, hlinks, -, hnew⟩ := addToParent_links h hparent hadd hgranted.of_writei
    obtain ⟨hi, -⟩ := hnew nodei i rfl
    obtain ⟨hbounded, hino, -, -, -, hptr⟩ :=
      newFileInode_spec (t := times) (Fs.bounded_readi s₁ i) hi
    obtain ⟨-, hwrite⟩ := writei_links hbooked hi hbounded hino fun k hk => Or.inr (hptr k hk)
    rw [hwrite, ← hlinks j]
    split
    · next hji => rw [hji, links_newFileInode, Fs.readi_eq hi, Fs.links]
    · rfl

/-- One more in both counts. -/
def countLink (links : ℕ × ℕ) : ℕ × ℕ := ((links.1 + 1) % 2 ^ 32, (links.2 + 1) % 2 ^ 64)

theorem links_countedInode (inode : Inode) : (countedInode inode).links = countLink inode.links := by
  have hlink : Inode.link.Apart Inode.stNlink := by decide
  have hstNlink : Inode.stNlink.Apart Inode.link := by decide
  rw [Inode.links, countedInode, Field.get_set_of_apart hlink, Field.get_set_same, Field.get_set_same,
    Field.get_set_of_apart hstNlink]
  rfl

/-- `rufs_mkdir` counts the new directory in both counts of its parent, and leaves the counts of
the new directory as they were. -/
theorem rufsMkdir_links {p : ℕ} (h : s.Booked) (hparent : s.ParentIs path p)
    (hcall : rufsMkdir s path times = some (ret, s')) (hgranted : s'.Granted) (j : ℕ) :
    s'.links j = if j = p ∧ ret = 0 then countLink (s.links j) else s.links j := by
  cases rufsMkdir_some hcall with
  | error hadd =>
    obtain ⟨-, hlinks, herror, -⟩ := addToParent_links h hparent hadd hgranted
    rw [if_neg fun hc => herror _ rfl hc.2, hlinks]
  | @entered nodei i r₂ r₃ s₁ s₂ s₃ s' hadd hadd₂ hadd₃ hs' =>
    have hgranted₃ : s₃.Granted := (hs' ▸ hgranted).of_writei
    have hgranted₁ := ((hgranted₃.of_dirAdd hadd₃).of_dirAdd hadd₂).of_writei
    obtain ⟨hbooked₁, hlinks₁, -, hnew⟩ := addToParent_links h hparent hadd hgranted₁
    obtain ⟨hi, hnodei⟩ := hnew nodei i rfl
    -- the new directory and its two entries
    obtain ⟨hbounded, hino, -, -, hptr⟩ := newDirInode_spec (t := times) (Fs.bounded_readi s₁ i) hi
    obtain ⟨hbooked, hlinks⟩ :=
      writei_links hbooked₁ hi hbounded hino fun k hk => Or.inr (hptr k hk)
    have hread := Fs.readi_writei hbooked₁.layout hi hi hbounded
    rw [if_pos rfl] at hread
    have hsame (l : ℕ) : (writei s₁ i (newDirInode (readi s₁ i) i times)).links l = s.links l := by
      rw [← hlinks₁ l, hlinks]
      split
      · next hl => rw [hl, links_newDirInode, Fs.readi_eq hi, Fs.links]
      · rfl
    obtain ⟨w, hw⟩ : ∃ w, writei s₁ i (newDirInode (readi s₁ i) i times) = w := ⟨_, rfl⟩
    rw [hw] at hadd₂ hbooked hread hsame
    rw [← hread] at hadd₂
    obtain ⟨hbooked₂, hlinks₂⟩ := dirAdd_links hbooked hi hadd₂
    obtain ⟨hbooked₃, hlinks₃⟩ := dirAdd_links hbooked₂ hi hadd₃
    -- the parent
    have hp := hparent.1
    have hagree := agrees_countedInode (readi s₃ p)
    have hino' := hagree.ino.trans (hbooked₃.ino p hp)
    rw [hnodei, h.ino p hp, hino'] at hs'
    obtain ⟨-, hlinks'⟩ := writei_links hbooked₃ hp (bounded_countedInode (Fs.bounded_readi s₃ p)) hino'
      fun k hk => Or.inl (by rw [hagree.ptr k hk, Fs.readi_eq hp, Store.ptr])
    rw [hs', hlinks', links_countedInode, hlinks₃, hlinks₂, hsame]
    by_cases hj : j = p
    · rw [if_pos hj, if_pos ⟨hj, rfl⟩, hj, Fs.readi_eq hp, ← hsame, ← hlinks₂, ← hlinks₃, Fs.links]
    · rw [if_neg hj, if_neg fun hc => hj hc.1]

end Links

/-! ## Along a run -/

/-- What the counts are: subdirectories, and for the root alone its own two names. -/
def Counted (s : Fs) (g : Graph) : Prop :=
  ∀ i < 1024, s.links i = ((if i = 0 then 2 else 0) + g.children i, g.children i)

section Run

variable {s s' t : Fs} {g g' : Graph} {T : Places} {tree : Tree} {i p : ℕ} {path : List UInt8} {ret : ℤ}
  {junk : Bytes} {times : Times} {log : List Event}

theorem Grown.parentIs (h : Grown s g T tree) (hpath : 0 ∉ path)
    (hp : g.walk 0 (parentNames path) = some p) : s.ParentIs path p := by
  have hlt := h.kept.lt (h.kept.node_ne_none_of_walk hp)
  rw [parentNames] at hp
  refine ⟨hlt, ?_⟩
  rw [getNodeByPath_eq h.kept.layout h.kept.rep h.kept.closed (nul_notMem_dirname hpath)
    (h.bare.walkSearches _ _), hp, Option.map_some, Fs.readi_eq hlt]

/-- One name entered; `dir` tells whether it names a directory. -/
theorem Counted.enter {node : ℕ → ℕ → Node} (dir : Bool) (hcount : Counted s g) (h : Grown s g T tree)
    (hent : Entered g path s s' node ret g') (hnode : ∀ i p, NewNode i p (node i p))
    (hdir : ∀ i p, (node i p).isDir = dir) (hpath : 0 ∉ path) (habs : path.head? = some SLASH)
    (hnone : getNodeByPath s path s.rootDirIno = none)
    (hlinks : ∀ p, s.ParentIs path p → ∀ j, s'.links j =
      if j = p ∧ ret = 0 ∧ dir = true then countLink (s.links j) else s.links j) : Counted s' g' := by
  cases hent with
  | noParent _ hsame =>
    rw [hsame]
    exact hcount
  | noRoom hwalk =>
    intro j hj
    rw [hlinks _ (h.parentIs hpath hwalk), if_neg fun hc => absurd hc.2.1 (by decide)]
    exact hcount j hj
  | @entry p i entries hwalk hentries _ hfree =>
    intro j hj
    have hnew := h.find_none hpath habs hnone hwalk
    rw [Graph.find, hentries] at hnew
    obtain ⟨hdot, hdotdot⟩ := h.kept.placed.ne_dots (h.kept.placed.walk_root hwalk) hentries hnew
    rw [Graph.children_link h.kept.closed hentries hfree hdot hdotdot (hnode i p), hdir,
      hlinks p (h.parentIs hpath hwalk), hcount j hj]
    by_cases hone : j = p ∧ dir = true
    · have hle := h.kept.children_le j
      rw [if_pos ⟨hone.1, rfl, hone.2⟩, if_pos hone, countLink]
      refine Prod.ext_iff.mpr ⟨?_, ?_⟩
      · dsimp only
        split
        · omega
        · omega
      · dsimp only
        omega
    · rw [if_neg fun hc => hone ⟨hc.1, hc.2.2⟩, if_neg hone, Nat.add_zero]

theorem children_rootGraph (i : ℕ) : rootGraph.children i = 0 := by
  rw [Graph.children]
  by_cases hi : i = 0
  · rw [hi, rootGraph_zero]
    simp [newDir, Graph.childDir]
  · rw [rootGraph_of_ne hi]

theorem makeRoot_links (h : t.Booked) (hmake : makeRoot t 0 times = some s) (j : ℕ) :
    s.links j = if j = 0 then (2, (t.links 0).2) else t.links j := by
  obtain ⟨hbounded, hino, -, -, hptr⟩ :=
    rootInode_spec (t := times) (Fs.bounded_readi t 0) (by decide : 0 < 1024)
  obtain ⟨hbooked, hlinks⟩ :=
    writei_links h (by decide) hbounded hino fun k hk => Or.inr (hptr k hk)
  have hread := Fs.readi_writei h.layout (by decide : 0 < 1024) (by decide : 0 < 1024) hbounded
  rw [if_pos rfl] at hread
  rw [makeRoot] at hmake
  simp only [Option.bind_eq_bind, Option.bind_eq_some_iff, Option.some.injEq] at hmake
  obtain ⟨⟨r₂, s₂⟩, hadd₂, ⟨r₃, s₃⟩, hadd₃, rfl⟩ := hmake
  dsimp only at hadd₂ hadd₃ ⊢
  rw [eta_rootDirIno hbooked.layout] at hadd₂
  obtain ⟨w, hw⟩ : ∃ w, writei t 0 (rootInode (readi t 0) 0 times) = w := ⟨_, rfl⟩
  rw [hw] at hadd₂ hbooked hread hlinks
  rw [← hread] at hadd₂
  obtain ⟨hbooked₂, hlinks₂⟩ := dirAdd_links hbooked (by decide) hadd₂
  rw [hbooked₂.layout.rootDirIno] at hadd₃
  obtain ⟨-, hlinks₃⟩ := dirAdd_links hbooked₂ (by decide) hadd₃
  rw [hlinks₃, hlinks₂, hlinks, links_rootInode, Fs.readi_eq (by decide)]
  rfl

theorem rufsMkfs_links (hs : rufsMkfs junk times = some s) (j : ℕ) :
    s.links j = (if j = 0 then 2 else 0, 0) := by
  obtain ⟨t, hmkfs, ⟨hlayout, -, -, hrep⟩, -, hstore, -, -, hinodes⟩ := rufsMkfs_makeRoot junk times
  have hrep' : Represents (getAvailIno t).2.store fun _ => none := hstore ▸ hrep.useInode 0
  have hbooked := hrep'.booked (Fs.layout_getAvailIno hlayout)
  have hzero (l : ℕ) : (getAvailIno t).2.links l = (0, 0) := by
    rw [Fs.links, hstore, Store.inodes_useInode, hinodes, Inode.links]
    split
    · rw [blankInode, Field.get_set_of_apart (by decide), Field.get_set_of_apart (by decide),
        Field.get_of_zero fun _ _ _ => rfl, Field.get_of_zero fun _ _ _ => rfl]
    · rw [Field.get_of_zero fun _ _ _ => rfl, Field.get_of_zero fun _ _ _ => rfl]
  rw [hmkfs] at hs
  rw [makeRoot_links hbooked hs, hzero, hzero]
  split
  · rfl
  · rfl

/-- The counts of a run on new paths. -/
theorem Run.counted (hrun : Run Fs.Fresh junk times s log) :
    ∃ g T, Grown s g T (built log) ∧ Counted s g := by
  induction hrun with
  | made h =>
    refine ⟨_, _, (made_of_rufsMkfs h).grown, fun i _ => ?_⟩
    rw [rufsMkfs_links h, children_rootGraph]
    rfl
  | @call s s' log c r hrun hc hexec hgranted ih =>
    obtain ⟨g, T, h, hcount⟩ := ih
    have hbooked := h.kept.rep.booked h.kept.layout
    cases c with
    | mkdir path times =>
      obtain ⟨⟨ret, s₁⟩, hcall, hr⟩ := Option.map_eq_some_iff.mp hexec
      cases hr
      obtain ⟨henters, habs, hnone⟩ := hc
      obtain ⟨g', hent, hlayout, hrep⟩ := rufsMkdir_spec h.kept.layout h.kept.rep h.kept.closed
        (h.kept.mayEnter henters) hcall hgranted
      obtain ⟨T', hgrown⟩ := h.enter .dir hent hlayout hrep (fun _ _ => .dir) (fun _ _ => rfl)
        henters.string habs hnone
      refine ⟨g', T', hgrown, hcount.enter true h hent (fun _ _ => .dir) (fun _ _ => rfl)
        henters.string habs hnone fun p hparent j => ?_⟩
      rw [rufsMkdir_links hbooked hparent hcall hgranted]
      simp
    | create path times =>
      obtain ⟨⟨ret, s₁⟩, hcall, hr⟩ := Option.map_eq_some_iff.mp hexec
      cases hr
      obtain ⟨henters, habs, hnone⟩ := hc
      obtain ⟨g', hent, hlayout, hrep⟩ := rufsCreate_spec h.kept.layout h.kept.rep h.kept.closed
        (h.kept.mayEnter henters) hcall hgranted
      obtain ⟨T', hgrown⟩ := h.enter (.file 0 fun _ => none) hent hlayout hrep (fun _ _ => .file)
        (fun _ _ => rfl) henters.string habs hnone
      refine ⟨g', T', hgrown, hcount.enter false h hent (fun _ _ => .file) (fun _ _ => rfl)
        henters.string habs hnone fun p hparent j => ?_⟩
      rw [rufsCreate_links hbooked hparent hcall hgranted]
      simp
    | read => exact hc.elim
    | write => exact hc.elim

/-- A path leads to the inode it names. -/
theorem Grown.readi_of_getNodeByPath (h : Grown s g T tree) (hpath : 0 ∉ path) {nodei : Inode}
    (hnode : getNodeByPath s path s.rootDirIno = some nodei) :
    nodei = readi s (Inode.ino.get nodei 0) := by
  rw [getNodeByPath_eq h.kept.layout h.kept.rep h.kept.closed hpath (h.bare.walkSearches _ _),
    Option.map_eq_some_iff] at hnode
  obtain ⟨j, hwalk, hnode⟩ := hnode
  have hj := h.kept.lt (h.kept.node_ne_none_of_walk hwalk)
  rw [← hnode, h.kept.rep.ino j hj, Fs.readi_eq hj]

/-- `link` is right for the root alone. -/
theorem Counted.link_iff {entries : List (Name × ℕ)} (hcount : Counted s g) (h : Grown s g T tree)
    (hdir : g i = some (.dir entries)) :
    Inode.link.get (readi s i) 0 = 2 + (subdirs s i).length ↔ i = s.rootDirIno := by
  have hi := h.kept.lt (by rw [hdir]; exact Option.some_ne_none _)
  have hlinks := congrArg Prod.fst (hcount i hi)
  rw [Fs.links, Inode.links, ← Fs.readi_eq hi] at hlinks
  dsimp only at hlinks
  rw [hlinks, h.kept.length_subdirs hdir, h.kept.layout.rootDirIno]
  by_cases hi0 : i = 0
  · simp [hi0]
  · simp [hi0]

/-- What a stat reports is the same as `link` for all the others. -/
theorem Counted.stNlink_iff {st : Inode} (hcount : Counted s g) (h : Grown s g T tree) (hi : i < 1024)
    (hpath : 0 ∉ path) (hget : rufsGetattr s path = .ok st) (hino : Inode.ino.get st 0 = i) :
    Inode.stNlink.get st 0 = Inode.link.get (readi s i) 0 ↔ i ≠ s.rootDirIno := by
  rw [rufsGetattr] at hget
  split at hget
  · cases hget
  · next nodei hnode =>
    rw [Except.ok.injEq] at hget
    rw [← hget, Field.get_set_of_apart (by decide)] at hino
    have hnodei := h.readi_of_getNodeByPath hpath hnode
    have hlinks := hcount i hi
    rw [Fs.links, Inode.links, ← Fs.readi_eq hi, Prod.mk.injEq] at hlinks
    rw [← hget, Field.get_set_of_apart (by decide), hnodei, hino, hlinks.1, hlinks.2,
      h.kept.layout.rootDirIno]
    by_cases hi0 : i = 0
    · simp [hi0]
    · simp [hi0]

theorem Counted.not_linkLaw {entries : List (Name × ℕ)} (hcount : Counted s g) (h : Grown s g T tree)
    (hdir : g i = some (.dir entries)) : ¬ LinkLaw s i := by
  intro hlaw
  have hi := h.kept.lt (by rw [hdir]; exact Option.some_ne_none _)
  have hi0 := (hcount.link_iff h hdir).mp hlaw.link
  -- the root has a path
  have hget : rufsGetattr s [SLASH] =
      .ok (Inode.stSize.set (readi s i) 0 (Inode.size.get (readi s i) 0)) := by
    rw [rufsGetattr, getNodeByPath, if_pos rfl, ← hi0]
  have hino : Inode.ino.get (Inode.stSize.set (readi s i) 0 (Inode.size.get (readi s i) 0)) 0 = i := by
    rw [Field.get_set_of_apart (by decide), Fs.readi_eq hi, h.kept.rep.ino i hi]
  have hsame := hlaw.stNlink _ _ (by decide) hget hino
  exact (hcount.stNlink_iff h hi (by decide) hget hino).mp hsame hi0

/-- The inode is that of a directory. -/
def ValidDir (s : Fs) (i : ℕ) : Prop :=
  i < MAX_INUM ∧ Inode.valid.get (readi s i) 0 ≠ INVALID ∧ s.IsDir i

theorem Kept.validDir_iff (h : Kept s g T) :
    ValidDir s i ↔ ∃ entries, g i = some (.dir entries) := by
  constructor
  · rintro ⟨hi, hvalid, hisDir⟩
    have hi : i < 1024 := hi
    have hne : g i ≠ none := by
      intro hnone
      have hnode := h.rep.node i hi
      rw [hnone] at hnode
      rw [Fs.readi_eq hi] at hvalid
      exact hvalid hnode.1
    exact (h.isDir_iff hne).mp hisDir
  · rintro ⟨entries, hdir⟩
    have hne : g i ≠ none := by simp [hdir]
    have hi := h.lt hne
    have hnode := h.rep.node i hi
    rw [hdir] at hnode
    obtain ⟨hvalid, -⟩ := hnode
    rw [← Fs.readi_eq hi] at hvalid
    exact ⟨hi, hvalid, (h.isDir_iff hne).mpr ⟨entries, hdir⟩⟩

/-- On new paths no directory ever has the right counts, and there always is one, the root. -/
theorem Run.linkLaw_never (hrun : Run Fs.Fresh junk times s log) :
    ValidDir s s.rootDirIno ∧ ∀ i, ValidDir s i →
      (Inode.link.get (readi s i) 0 = 2 + (subdirs s i).length ↔ i = s.rootDirIno) ∧
        (∀ path st, 0 ∉ path → rufsGetattr s path = .ok st → Inode.ino.get st 0 = i →
          (Inode.stNlink.get st 0 = Inode.link.get (readi s i) 0 ↔ i ≠ s.rootDirIno)) ∧
        ¬ LinkLaw s i := by
  obtain ⟨g, T, h, hcount⟩ := hrun.counted
  constructor
  · rw [h.kept.layout.rootDirIno]
    exact h.kept.validDir_iff.mpr h.kept.closed.root
  · intro i hi
    obtain ⟨entries, hdir⟩ := h.kept.validDir_iff.mp hi
    exact ⟨hcount.link_iff h hdir,
      fun path st hpath hget hino => hcount.stNlink_iff h hi.1 hpath hget hino,
      hcount.not_linkLaw h hdir⟩

/-- `Run.linkLaw_never` for the root of a new disk. -/
theorem Run.linkLaw_never_root : ∃ s, Run Fs.Fresh (fun _ => 0) ⟨0, 0⟩ s [] ∧
    ValidDir s s.rootDirIno ∧ ¬ LinkLaw s s.rootDirIno := by
  obtain ⟨s, hs, -⟩ := rufsMkfs_spec (fun _ => 0) ⟨0, 0⟩
  obtain ⟨hroot, hnever⟩ := Run.linkLaw_never (.made hs)
  exact ⟨s, .made hs, hroot, (hnever _ hroot).2.2⟩

/-- The root of a new disk. -/
theorem linkLaw_fails : ¬ ∀ junk times s log, Run Fs.Fresh junk times s log →
    ∀ i, ValidDir s i → LinkLaw s i := by
  intro hclaim
  obtain ⟨s, hs, -⟩ := rufsMkfs_spec (fun _ => 0) ⟨0, 0⟩
  have hrun : Run Fs.Fresh (fun _ => 0) ⟨0, 0⟩ s [] := .made hs
  obtain ⟨g, T, h, hcount⟩ := hrun.counted
  obtain ⟨entries, hdir⟩ := h.kept.closed.root
  exact hcount.not_linkLaw h hdir (hclaim _ _ s [] hrun 0 (h.kept.validDir_iff.mpr ⟨entries, hdir⟩))

end Run

end UserLevelOs.Files
