import UserLevelOs.Files.Contents
import UserLevelOs.Files.Names
import UserLevelOs.Files.Paths

/-!
# What the calls do to the graph

One theorem for each call: on a disk that stores a graph it fails and changes nothing, or it
takes the graph to the one it should.  Entering a name can also fail half way, which costs
an inode number and leaves the graph alone.

## Main definitions

* `Graph.Closed` — entries name nodes.
* `Creates`, `MakesDir` — how `rufs_create` and `rufs_mkdir` go.
* `Entered` — what `rufs_mkdir` and `rufs_create` have in common.
* `bytesStored` — how many bytes a write stores.

## Main statements

* `getNodeByPath_eq`, `rufsMkdir_spec`, `rufsCreate_spec`, `rufsRead_spec`,
  `rufsWrite_spec`.
-/

namespace UserLevelOs.Files

open UserLevelOs.Lib

variable {s s' s₁ : Fs} {g : Graph} {i p : ℕ} {path : List UInt8} {names : List Name}

/-! ## Looking up -/

/-- The entries name nodes, and the root is a directory. -/
structure Graph.Closed (g : Graph) : Prop where
  entry : ∀ {i entries}, g i = some (.dir entries) → ∀ e ∈ entries, g e.2 ≠ none
  root : ∃ entries, g 0 = some (.dir entries)

theorem Graph.Closed.find (h : g.Closed) {name : Name} {j : ℕ} (hfind : g.find i name = some j) :
    g j ≠ none := by
  rw [Graph.find] at hfind
  split at hfind
  · next entries hdir =>
    rw [List.lookup_eq_some_iff] at hfind
    obtain ⟨l₁, l₂, hsplit, -⟩ := hfind
    refine h.entry hdir (name, j) ?_
    rw [hsplit]
    exact List.mem_append_right l₁ List.mem_cons_self
  · cases hfind

theorem Graph.Closed.walk (h : g.Closed) {j : ℕ} (hi : g i ≠ none)
    (hwalk : g.walk i names = some j) : g j ≠ none := by
  induction names generalizing i with
  | nil =>
    rw [Graph.walk, Option.some.injEq] at hwalk
    rwa [← hwalk]
  | cons name names ih =>
    rw [Graph.walk, Option.bind_eq_some_iff] at hwalk
    obtain ⟨k, hfind, hwalk⟩ := hwalk
    exact ih (h.find hfind) hwalk

theorem Graph.Closed.walk_root (h : g.Closed) {j : ℕ} (hwalk : g.walk 0 names = some j) :
    g j ≠ none := by
  obtain ⟨entries, hroot⟩ := h.root
  exact h.walk (by rw [hroot]; exact Option.some_ne_none _) hwalk

theorem walk_eq (h : Represents s.store g) (hc : g.Closed) (hi : g i ≠ none)
    (hsearch : g.WalkSearches i names) (hnames : ∀ name ∈ names, 0 ∉ name) :
    walk s i names = g.walk i names := by
  induction names generalizing i with
  | nil => rfl
  | cons name names ih =>
    obtain ⟨hhere, hrest⟩ := hsearch
    rw [walk, Graph.walk, dirFind_eq h (h.used i hi).1 hhere (hnames name List.mem_cons_self)]
    cases hfind : g.find i name with
    | none => rfl
    | some j =>
      exact ih (hc.find hfind) (hrest j hfind)
        fun name' hmem => hnames name' (List.mem_cons_of_mem name hmem)

/-- `get_node_by_path` walks through the graph. -/
theorem getNodeByPath_eq (hs : s.Layout) (h : Represents s.store g) (hc : g.Closed)
    (hpath : 0 ∉ path) (hsearch : g.WalkSearches 0 (strtokAll path)) :
    getNodeByPath s path s.rootDirIno = (g.walk 0 (strtokAll path)).map s.store.inodes := by
  obtain ⟨entries, hroot⟩ := hc.root
  have hroot : g 0 ≠ none := by
    rw [hroot]
    exact Option.some_ne_none _
  rw [getNodeByPath, hs.rootDirIno]
  split
  · next hslash =>
    have htok : strtokAll path = [] := by
      rw [hslash]
      rfl
    rw [htok, Graph.walk, Option.map_some, Fs.readi_eq (h.used 0 hroot).1]
  · rw [walk_eq h hc hroot hsearch fun name hmem => nul_notMem_of_mem hpath hmem]
    cases hwalk : g.walk 0 (strtokAll path) with
    | none => rfl
    | some j => rw [Option.map_some, Option.map_some, Fs.readi_eq (h.used j (hc.walk hroot hwalk)).1]

/-! ## Creating -/

/-- The directory a new name goes to. -/
def parentNames (path : List UInt8) : List Name := strtokAll (dirname path)

/-- What a call that enters a name may be asked: a C string whose last component fits an
entry, and a parent that is a directory, reached through directories. -/
structure MayEnter (g : Graph) (path : List UInt8) : Prop where
  string : 0 ∉ path
  name_lt : (basename path).length < 208
  searches : g.WalkSearches 0 (parentNames path)
  parent : ∀ p, g.walk 0 (parentNames path) = some p → ∃ entries, g p = some (.dir entries)

theorem MayEnter.stored (h : MayEnter g path) : Stored (basename path) :=
  ⟨nul_notMem_basename h.string, h.name_lt⟩

/-- The three ends of entering a name: no parent, no room, or an entry for a free inode. -/
inductive Added (g : Graph) (path : List UInt8) (s s' : Fs) : ℤ ⊕ Inode × ℕ → Prop where
  | noParent (hwalk : g.walk 0 (parentNames path) = none) (hs' : s' = s) :
      Added g path s s' (.inl (-ENOENT))
  | noRoom {p i : ℕ} {entries : List (Name × ℕ)} (hwalk : g.walk 0 (parentNames path) = some p)
      (hdir : g p = some (.dir entries)) (hfull : entries.length = 304)
      (hused : s'.store.inodeUsed = Function.update s.store.inodeUsed i true) (hlayout : s'.Layout)
      (hrep : Represents s'.store g) : Added g path s s' (.inl (-EFBIG))
  | entry {p i : ℕ} {entries : List (Name × ℕ)} (hwalk : g.walk 0 (parentNames path) = some p)
      (hdir : g p = some (.dir entries)) (hfit : entries.length < 304) (hi : i < 1024)
      (hfree : g i = none) (hused : s'.store.inodeUsed = Function.update s.store.inodeUsed i true)
      (hlayout : s'.Layout)
      (hrep : Represents s'.store (g.set p (.dir (entries ++ [(basename path, i)])))) :
      Added g path s s' (.inr (s.store.inodes p, i))

/-- The common part finds no parent, or enters the name there for the next inode number. -/
theorem addToParent_some {added : ℤ ⊕ Inode × ℕ} (h : addToParent s path = some (added, s')) :
    (getNodeByPath s (dirname path) s.rootDirIno = none ∧ added = .inl (-ENOENT) ∧ s' = s) ∨
      ∃ nodei r, getNodeByPath s (dirname path) s.rootDirIno = some nodei ∧
        dirAdd (getAvailIno s).2 nodei ((getAvailIno s).1 % 2 ^ 16).toNat (basename path)
          (nameLen (basename path)) = some (r, s') ∧
        added = if r = -1 then .inl (-EFBIG) else if r = 0 then .inl (-EEXIST)
          else .inr (nodei, ((getAvailIno s).1 % 2 ^ 16).toNat) := by
  rw [addToParent] at h
  cases hnodei : getNodeByPath s (dirname path) s.rootDirIno with
  | none =>
    rw [hnodei] at h
    cases h
    exact Or.inl ⟨rfl, rfl, rfl⟩
  | some nodei =>
    simp only [hnodei, Option.bind_eq_bind, Option.bind_eq_some_iff] at h
    obtain ⟨⟨r, s₁⟩, hdir, h⟩ := h
    dsimp only at h
    refine Or.inr ⟨nodei, r, rfl, ?_⟩
    split at h
    · next hr =>
      cases h
      exact ⟨hdir, by rw [if_pos hr]⟩
    · next hr =>
      split at h
      · next hr₀ =>
        cases h
        exact ⟨hdir, by rw [if_neg hr, if_pos hr₀]⟩
      · next hr₀ =>
        cases h
        exact ⟨hdir, by rw [if_neg hr, if_neg hr₀]⟩

theorem addToParent_spec {added : ℤ ⊕ Inode × ℕ} (hs : s.Layout) (h : Represents s.store g)
    (hc : g.Closed) (hmay : MayEnter g path) (hadd : addToParent s path = some (added, s'))
    (hgranted : s'.Granted) : Added g path s s' added := by
  have hnode := getNodeByPath_eq hs h hc (nul_notMem_dirname hmay.string) hmay.searches
  rcases addToParent_some hadd with ⟨hnone, rfl, rfl⟩ | ⟨nodei, r, hsome, hdirAdd, hadded⟩
  · rw [hnode, Option.map_eq_none_iff] at hnone
    exact .noParent hnone rfl
  · rw [hnode, Option.map_eq_some_iff] at hsome
    obtain ⟨p, hwalk, rfl⟩ := hsome
    obtain ⟨entries, hdir⟩ := hmay.parent p hwalk
    have hp : p < 1024 := (h.used p (by rw [hdir]; exact Option.some_ne_none _)).1
    -- the new inode number
    have hret := (hgranted.of_dirAdd hdirAdd).getAvailIno
    obtain ⟨i, hi, hgot, hfree, -, hstore⟩ := Fs.getAvailIno_spec hs hret
    have hnew : ((getAvailIno s).1 % 2 ^ 16).toNat = i := by
      rw [hgot]
      omega
    rw [hnew] at hdirAdd hadded
    have hrep : Represents (getAvailIno s).2.store g := hstore ▸ h.useInode i
    have hinodes : s.store.inodes p = (getAvailIno s).2.store.inodes p := by
      rw [hstore, Store.inodes_useInode]
    rw [hinodes] at hdirAdd
    have hspec := dirAdd_spec (Fs.layout_getAvailIno hs) hrep hp hdir hmay.stored
      (by omega : i < 65536) hdirAdd hgranted
    rcases hspec with ⟨hfull, hr, hsame⟩ | ⟨hfit, hr, hlayout, hused, hrep'⟩
    · rw [hadded, if_pos hr]
      refine .noRoom (i := i) hwalk hdir hfull ?_ (hsame ▸ Fs.layout_getAvailIno hs) (hsame ▸ hrep)
      rw [hsame, hstore, Store.inodeUsed_useInode]
    · rw [hadded, hr, if_neg (by decide), if_neg one_ne_zero]
      refine .entry hwalk hdir hfit hi (h.none_of_free hfree) ?_ hlayout hrep'
      rw [hused, hstore, Store.inodeUsed_useInode]

/-- There is room in a directory with few entries. -/
theorem dirAdd_fits {entries : List (Name × ℕ)} {name : Name} {fIno len : ℕ} {r : ℤ}
    (hs : s.Layout) (h : Represents s.store g) (hi : i < 1024) (hdir : g i = some (.dir entries))
    (hfew : entries.length < 304) (hname : Stored name) (hfIno : fIno < 65536)
    (hadd : dirAdd s (s.store.inodes i) fIno name len = some (r, s')) (hgranted : s'.Granted) :
    r = 1 ∧ s'.Layout ∧ s'.store.inodeUsed = s.store.inodeUsed ∧
      Represents s'.store (g.set i (.dir (entries ++ [(name, fIno)]))) := by
  rcases dirAdd_spec hs h hi hdir hname hfIno hadd hgranted with ⟨hfull, -⟩ | ⟨-, hspec⟩
  · omega
  · exact hspec

/-- A free inode becomes a node without blocks. -/
theorem represents_new {inode : Inode} {n : Node} (hs : s.Layout) (h : Represents s.store g)
    (hi : i < 1024) (hfree : g i = none) (hused : s.store.inodeUsed i = true)
    (hbounded : inode.Bounded) (hino : Inode.ino.get inode 0 = i)
    (hptr : ∀ k < 16, inode.ptr k = 0)
    (hnode : NodeHolds (s.store.setInode i inode) i (some n)) :
    (writei s i inode).Layout ∧ (writei s i inode).store = s.store.setInode i inode ∧
      Represents (writei s i inode).store (g.set i n) := by
  have hold := h.node i hi
  rw [hfree] at hold
  have hstore := Fs.store_writei hs hi hbounded
  refine ⟨Fs.layout_writei hs i inode, hstore, ?_⟩
  rw [hstore]
  refine h.update hi (h.owned.setInode fun k hk => ?_) ?_ ?_ (fun _ _ => rfl) (fun _ h => h) hused hnode
  · rw [hptr k hk, hold.2 k hk]
  · rw [Store.inodes_setInode_same, hino]
  · intro j hj
    exact Store.inodes_setInode_of_ne _ _ _ hj

/-- The inode `rufs_mkdir` makes. -/
def newDirInode (inode : Inode) (newIno : ℕ) (times : Times) : Inode :=
  Inode.clearPtrs (Inode.setTimes (Inode.stMode.set (Inode.type.set (Inode.ino.set
    (Inode.valid.set inode 0 VALID) 0 newIno) 0 DIRECTORY) 0 (S_IFDIR ||| 0o755)) times)

/-- The inode `rufs_create` makes. -/
def newFileInode (inode : Inode) (newIno : ℕ) (times : Times) : Inode :=
  Inode.setTimes (Inode.clearPtrs (Inode.stMode.set (Inode.size.set (Inode.type.set (Inode.ino.set
    (Inode.valid.set inode 0 VALID) 0 newIno) 0 FILE) 0 0) 0 (S_IFREG ||| 0o666))) times

section NewInode

variable {inode : Inode} {times : Times}

theorem bounded_setTimes (h : inode.Bounded) : (Inode.setTimes inode times).Bounded :=
  Inode.bounded_set (by decide) (Inode.bounded_set (by decide) h)

theorem agrees_setTimes : Agrees (Inode.setTimes inode times) inode :=
  (Agrees.set (by decide) (by decide)).trans (Agrees.set (by decide) (by decide))

theorem ptr_setTimes {k : ℕ} (hk : k < 16) : (Inode.setTimes inode times).ptr k = inode.ptr k :=
  agrees_setTimes.ptr k hk

theorem newDirInode_spec {t : Times} (hbounded : inode.Bounded) (hi : i < 1024) :
    (newDirInode inode i t).Bounded ∧ Inode.ino.get (newDirInode inode i t) 0 = i ∧
      Inode.valid.get (newDirInode inode i t) 0 ≠ 0 ∧
      Inode.type.get (newDirInode inode i t) 0 = DIRECTORY ∧
      ∀ k < 16, (newDirInode inode i t).ptr k = 0 := by
  refine ⟨?_, ?_, ?_, ?_, fun k hk => Inode.ptr_clearPtrs hk⟩
  · refine Inode.bounded_clearPtrs (bounded_setTimes ?_)
    exact Inode.bounded_set (by decide) (Inode.bounded_set (by decide)
      (Inode.bounded_set (by decide) (Inode.bounded_set (by decide) hbounded)))
  · rw [newDirInode, Inode.get_clearPtrs (by decide), agrees_setTimes.ino,
      Field.get_set_of_apart (by decide), Field.get_set_of_apart (by decide), Field.get_set_same]
    exact Nat.mod_eq_of_lt (Nat.lt_trans hi (by decide))
  · rw [newDirInode, Inode.get_clearPtrs (by decide), agrees_setTimes.valid,
      Field.get_set_of_apart (by decide), Field.get_set_of_apart (by decide),
      Field.get_set_of_apart (by decide), Field.get_set_same]
    decide
  · rw [newDirInode, Inode.get_clearPtrs (by decide), agrees_setTimes.type,
      Field.get_set_of_apart (by decide), Field.get_set_same]
    decide

theorem newFileInode_spec {t : Times} (hbounded : inode.Bounded) (hi : i < 1024) :
    (newFileInode inode i t).Bounded ∧ Inode.ino.get (newFileInode inode i t) 0 = i ∧
      Inode.valid.get (newFileInode inode i t) 0 ≠ 0 ∧
      Inode.type.get (newFileInode inode i t) 0 = FILE ∧
      Inode.size.get (newFileInode inode i t) 0 = 0 ∧
      ∀ k < 16, (newFileInode inode i t).ptr k = 0 := by
  refine ⟨?_, ?_, ?_, ?_, ?_, fun k hk => ?_⟩
  · refine bounded_setTimes (Inode.bounded_clearPtrs (Inode.bounded_set (by decide) ?_))
    exact Inode.bounded_set (by decide) (Inode.bounded_set (by decide)
      (Inode.bounded_set (by decide) (Inode.bounded_set (by decide) hbounded)))
  · rw [newFileInode, agrees_setTimes.ino, Inode.get_clearPtrs (by decide),
      Field.get_set_of_apart (by decide), Field.get_set_of_apart (by decide),
      Field.get_set_of_apart (by decide), Field.get_set_same]
    exact Nat.mod_eq_of_lt (Nat.lt_trans hi (by decide))
  · rw [newFileInode, agrees_setTimes.valid, Inode.get_clearPtrs (by decide),
      Field.get_set_of_apart (by decide), Field.get_set_of_apart (by decide),
      Field.get_set_of_apart (by decide), Field.get_set_of_apart (by decide), Field.get_set_same]
    decide
  · rw [newFileInode, agrees_setTimes.type, Inode.get_clearPtrs (by decide),
      Field.get_set_of_apart (by decide), Field.get_set_of_apart (by decide), Field.get_set_same]
    decide
  · rw [newFileInode, agrees_setTimes.size, Inode.get_clearPtrs (by decide),
      Field.get_set_of_apart (by decide), Field.get_set_same]
    decide
  · rw [newFileInode, ptr_setTimes hk, Inode.ptr_clearPtrs hk]

/-- The parent as `rufs_mkdir` writes it back. -/
def countedInode (inode : Inode) : Inode :=
  let inode := Inode.link.set inode 0 (Inode.link.get inode 0 + 1)
  Inode.stNlink.set inode 0 (Inode.stNlink.get inode 0 + 1)

theorem agrees_countedInode (inode : Inode) : Agrees (countedInode inode) inode :=
  (Agrees.set (by decide) (by decide)).trans (Agrees.set (by decide) (by decide))

theorem bounded_countedInode (h : inode.Bounded) : (countedInode inode).Bounded :=
  Inode.bounded_set (by decide) (Inode.bounded_set (by decide) h)

end NewInode

/-- How a call of `rufs_create` goes: as the common part fails, or with an inode for the entry. -/
inductive Creates (s : Fs) (path : List UInt8) (times : Times) : ℤ → Fs → Prop
  | error {ret : ℤ} {s' : Fs} (hadd : addToParent s path = some (.inl ret, s')) :
    Creates s path times ret s'
  | entered {nodei : Inode} {i : ℕ} {s₁ : Fs}
    (hadd : addToParent s path = some (.inr (nodei, i), s₁)) :
    Creates s path times 0 (writei s₁ i (newFileInode (readi s₁ i) i times))

theorem rufsCreate_some {times : Times} {ret : ℤ} (h : rufsCreate s path times = some (ret, s')) :
    Creates s path times ret s' := by
  rw [rufsCreate, Option.bind_eq_bind, Option.bind_eq_some_iff] at h
  obtain ⟨⟨added, s₁⟩, hadd, h⟩ := h
  cases added with
  | inl error =>
    cases h
    exact .error hadd
  | inr entry =>
    obtain ⟨nodei, i⟩ := entry
    cases h
    exact .entered hadd

/-- How a call of `rufs_mkdir` goes: as the common part fails, or with an inode for the entry, the
two entries of that directory and the parent written back. -/
inductive MakesDir (s : Fs) (path : List UInt8) (times : Times) : ℤ → Fs → Prop
  | error {ret : ℤ} {s' : Fs} (hadd : addToParent s path = some (.inl ret, s')) :
    MakesDir s path times ret s'
  | entered {nodei : Inode} {i : ℕ} {r₂ r₃ : ℤ} {s₁ s₂ s₃ s' : Fs}
    (hadd : addToParent s path = some (.inr (nodei, i), s₁))
    (hdot : dirAdd (writei s₁ i (newDirInode (readi s₁ i) i times))
      (newDirInode (readi s₁ i) i times) i dot (nameLen dot) = some (r₂, s₂))
    (hdotdot : dirAdd s₂ (readi s₂ i) (Inode.ino.get nodei 0) dotdot (nameLen dotdot) =
      some (r₃, s₃))
    (hparent : s' = writei s₃ (Inode.ino.get (countedInode (readi s₃ (Inode.ino.get nodei 0))) 0)
      (countedInode (readi s₃ (Inode.ino.get nodei 0)))) :
    MakesDir s path times 0 s'

theorem rufsMkdir_some {times : Times} {ret : ℤ} (h : rufsMkdir s path times = some (ret, s')) :
    MakesDir s path times ret s' := by
  rw [rufsMkdir, Option.bind_eq_bind, Option.bind_eq_some_iff] at h
  obtain ⟨⟨added, s₁⟩, hadd, h⟩ := h
  cases added with
  | inl error =>
    cases h
    exact .error hadd
  | inr entry =>
    obtain ⟨nodei, i⟩ := entry
    simp only [Option.bind_eq_bind, Option.bind_eq_some_iff, Option.some.injEq,
      Prod.mk.injEq] at h
    obtain ⟨⟨r₂, s₂⟩, hdot, ⟨r₃, s₃⟩, hdotdot, rfl, hparent⟩ := h
    exact .entered hadd hdot hdotdot hparent.symm

/-- A new directory, still empty. -/
theorem represents_newDir {inode : Inode} (hs : s.Layout) (h : Represents s.store g)
    (hi : i < 1024) (hfree : g i = none) (hused : s.store.inodeUsed i = true)
    (hbounded : inode.Bounded) (hino : Inode.ino.get inode 0 = i)
    (hvalid : Inode.valid.get inode 0 ≠ 0) (htype : Inode.type.get inode 0 = DIRECTORY)
    (hptr : ∀ k < 16, inode.ptr k = 0) :
    (writei s i inode).Layout ∧ (writei s i inode).store = s.store.setInode i inode ∧
      Represents (writei s i inode).store (g.set i (.dir [])) := by
  refine represents_new hs h hi hfree hused hbounded hino hptr ?_
  rw [NodeHolds, Store.inodes_setInode_same]
  refine ⟨hvalid, htype, Nat.zero_le _, fun k hk => ?_, fun k hk hne => ?_, fun e he => ?_⟩
  · rw [Store.ptr_setInode_same, hptr k hk]
    simp
  · rw [Store.ptr_setInode_same, hptr k hk] at hne
    exact absurd rfl hne
  · cases he

/-- What `rufs_mkdir` and `rufs_create` have in common: an error that leaves the graph
alone, or a new node under the new name. -/
inductive Entered (g : Graph) (path : List UInt8) (s s' : Fs) (node : ℕ → ℕ → Node) :
    ℤ → Graph → Prop where
  | noParent (hwalk : g.walk 0 (parentNames path) = none) (hs' : s' = s) :
      Entered g path s s' node (-ENOENT) g
  | noRoom {p i : ℕ} {entries : List (Name × ℕ)} (hwalk : g.walk 0 (parentNames path) = some p)
      (hdir : g p = some (.dir entries)) (hfull : entries.length = 304)
      (hused : s'.store.inodeUsed = Function.update s.store.inodeUsed i true) : Entered g path s s' node (-EFBIG) g
  | entry {p i : ℕ} {entries : List (Name × ℕ)} (hwalk : g.walk 0 (parentNames path) = some p)
      (hdir : g p = some (.dir entries)) (hfit : entries.length < 304) (hfree : g i = none)
      (hused : s'.store.inodeUsed = Function.update s.store.inodeUsed i true) :
      Entered g path s s' node 0 (g.link p entries (basename path) i (node i p))

/-- A new directory has itself and its parent for entries. -/
def newDir (i p : ℕ) : Node := .dir [(dot, i), (dotdot, p)]

def newFile (_ _ : ℕ) : Node := .file 0 fun _ => none

/-- The first two entries of a directory. -/
theorem dots_spec {s₁ s₂ : Fs} {p : ℕ} {r₁ r₂ : ℤ} (hs : s.Layout) (h : Represents s.store g)
    (hi : i < 1024) (hp : p < 1024) (hdir : g i = some (.dir []))
    (hdot : dirAdd s (s.store.inodes i) i dot (nameLen dot) = some (r₁, s₁))
    (hdotdot : dirAdd s₁ (s₁.store.inodes i) p dotdot (nameLen dotdot) = some (r₂, s₂))
    (hgranted : s₂.Granted) :
    s₂.Layout ∧ s₂.store.inodeUsed = s.store.inodeUsed ∧
      Represents s₂.store (g.set i (newDir i p)) := by
  obtain ⟨-, hlayout₁, hused₁, hrep₁⟩ := dirAdd_fits hs h hi hdir (by decide) (by decide)
    (Nat.lt_trans hi (by decide)) hdot (hgranted.of_dirAdd hdotdot)
  rw [List.nil_append] at hrep₁
  obtain ⟨-, hlayout₂, hused₂, hrep₂⟩ := dirAdd_fits hlayout₁ hrep₁ hi (Graph.set_same _ _ _)
    (by simp) (by decide) (Nat.lt_trans hp (by decide)) hdotdot hgranted
  rw [Graph.set_set] at hrep₂
  exact ⟨hlayout₂, hused₂.trans hused₁, hrep₂⟩

/-- An error of the common part is one of the call. -/
theorem Added.entered {node : ℕ → ℕ → Node} {ret : ℤ} (h : Added g path s s' (.inl ret))
    (hs : s.Layout) (hrep : Represents s.store g) :
    ∃ g', Entered g path s s' node ret g' ∧ s'.Layout ∧ Represents s'.store g' := by
  cases h with
  | noParent hwalk hsame => exact ⟨g, .noParent hwalk hsame, hsame ▸ hs, hsame ▸ hrep⟩
  | noRoom hwalk hdir hfull hused hlayout hrep =>
    exact ⟨g, .noRoom hwalk hdir hfull hused, hlayout, hrep⟩

theorem rufsCreate_spec {times : Times} {ret : ℤ} (hs : s.Layout) (h : Represents s.store g)
    (hc : g.Closed) (hmay : MayEnter g path) (hcall : rufsCreate s path times = some (ret, s'))
    (hgranted : s'.Granted) :
    ∃ g', Entered g path s s' newFile ret g' ∧ s'.Layout ∧ Represents s'.store g' := by
  cases rufsCreate_some hcall with
  | error hadd => exact (addToParent_spec hs h hc hmay hadd hgranted).entered hs h
  | @entered nodei i s₁ hadd =>
    cases addToParent_spec hs h hc hmay hadd hgranted.of_writei with
    | @entry p i entries hwalk hdir hfit hi hfree hused hlayout hrep =>
      have hip : i ≠ p := by
        intro heq
        rw [heq, hdir] at hfree
        cases hfree
      have hused' : s₁.store.inodeUsed i = true := by rw [hused, Function.update_self]
      have hfree' := hfree
      rw [← Graph.set_of_ne g (.dir (entries ++ [(basename path, i)])) hip] at hfree'
      obtain ⟨hbounded, hino, hvalid, htype, hsize, hptr⟩ :=
        newFileInode_spec (t := times) (Fs.bounded_readi s₁ i) hi
      obtain ⟨hlayout', hstore', hrep'⟩ := represents_new (n := newFile i p) hlayout hrep hi hfree'
        hused' hbounded hino hptr (by
          rw [newFile, NodeHolds, Store.inodes_setInode_same]
          refine ⟨hvalid, htype, hsize, fun k hk => ?_⟩
          rw [Store.fileBlock, Store.ptr_setInode_same, if_pos (hptr k hk)])
      exact ⟨_, .entry hwalk hdir hfit hfree (by rw [hstore', Store.inodeUsed_setInode, hused]),
        hlayout', hrep'⟩

theorem rufsMkdir_spec {times : Times} {ret : ℤ} (hs : s.Layout) (h : Represents s.store g)
    (hc : g.Closed) (hmay : MayEnter g path) (hcall : rufsMkdir s path times = some (ret, s'))
    (hgranted : s'.Granted) :
    ∃ g', Entered g path s s' newDir ret g' ∧ s'.Layout ∧ Represents s'.store g' := by
  cases rufsMkdir_some hcall with
  | error hadd => exact (addToParent_spec hs h hc hmay hadd hgranted).entered hs h
  | @entered nodei i r₂ r₃ s₁ s₂ s₃ s' hadd hadd₂ hadd₃ hs' =>
    have hgranted₃ : s₃.Granted := (hs' ▸ hgranted).of_writei
    have hgranted₁ := ((hgranted₃.of_dirAdd hadd₃).of_dirAdd hadd₂).of_writei
    cases addToParent_spec hs h hc hmay hadd hgranted₁ with
    | @entry p i entries hwalk hdir hfit hi hfree hused hlayout hrep =>
      have hip : i ≠ p := by
        intro heq
        rw [heq, hdir] at hfree
        cases hfree
      have hused' : s₁.store.inodeUsed i = true := by rw [hused, Function.update_self]
      have hp : p < 1024 := (h.used p (by rw [hdir]; exact Option.some_ne_none _)).1
      have hfree' := hfree
      rw [← Graph.set_of_ne g (.dir (entries ++ [(basename path, i)])) hip] at hfree'
      obtain ⟨hbounded, hino, hvalid, htype, hptr⟩ :=
        newDirInode_spec (t := times) (Fs.bounded_readi s₁ i) hi
      obtain ⟨hlayout₁, hstore₁, hrep₁⟩ :=
        represents_newDir hlayout hrep hi hfree' hused' hbounded hino hvalid htype hptr
      obtain ⟨inode, hinode⟩ : ∃ inode, newDirInode (readi s₁ i) i times = inode := ⟨_, rfl⟩
      rw [hinode] at hadd₂ hlayout₁ hstore₁ hrep₁
      obtain ⟨t, ht⟩ : ∃ t, writei s₁ i inode = t := ⟨_, rfl⟩
      rw [ht] at hadd₂ hlayout₁ hstore₁ hrep₁
      -- its entries, for itself and for the parent
      have hread : inode = t.store.inodes i := by rw [hstore₁, Store.inodes_setInode_same]
      have hparent : Inode.ino.get (s.store.inodes p) 0 = p := h.ino p hp
      rw [hread] at hadd₂
      rw [hparent, Fs.readi_eq hi] at hadd₃
      obtain ⟨hlayout₃, hused₃, hrep₃⟩ :=
        dots_spec hlayout₁ hrep₁ hi hp (Graph.set_same _ _ _) hadd₂ hadd₃ hgranted₃
      rw [Graph.set_set] at hrep₃
      -- the links of the parent
      have hagree := agrees_countedInode (s₃.store.inodes p)
      have hcounted := bounded_countedInode (Fs.bounded_inodes s₃ p)
      rw [hparent, Fs.readi_eq hp, hagree.ino, hrep₃.ino p hp] at hs'
      refine ⟨_, .entry hwalk hdir hfit hfree ?_, ?_, ?_⟩
      · rw [hs', Fs.store_writei hlayout₃ hp hcounted, Store.inodeUsed_setInode, hused₃, hstore₁,
          Store.inodeUsed_setInode, hused]
      · rw [hs']
        exact Fs.layout_writei hlayout₃ _ _
      · rw [hs', Fs.store_writei hlayout₃ hp hcounted]
        exact hrep₃.setInode hagree

/-! ## Reading and writing -/

/-- What `rufs_read` and `rufs_write` may be asked: a C string that names a regular file, if
anything, reached through directories. -/
structure MayAccess (g : Graph) (path : List UInt8) : Prop where
  string : 0 ∉ path
  searches : g.WalkSearches 0 (strtokAll path)
  file : ∀ i, g.walk 0 (strtokAll path) = some i → ∃ size blocks, g i = some (.file size blocks)

theorem toInt_natCast {n : ℕ} (h : n < 2 ^ 31) : toInt n = n := by
  rw [toInt, Int.bmod_def]
  split <;> omega

/-- The result of a read from a file. -/
structure ReadsFile (fileSize : ℕ) (blocks : ℕ → Option Bytes) (size offset : ℕ) (ret : ℤ)
    (bytes : List UInt8) : Prop where
  ret_eq : ret = bytes.length
  byte : ∀ {x b}, bytes[x]? = some b → fileByte blocks (offset + x) = b
  complete : offset < fileSize → fileSize ≤ 65536 →
    (∀ p, offset ≤ p → p < fileSize → blocks (p / 4096) ≠ none) →
    bytes.length = min size (fileSize - offset)

/-- What the loop of `rufs_read` reads of the smaller of `size` and what is left of the file. -/
theorem readsFile_readLoop {size offset fileSize remaining : ℕ} {blocks : ℕ → Option Bytes}
    (h : Represents s.store g) (hi : i < 1024) (hfile : g i = some (.file fileSize blocks))
    (hrem : remaining = (if (toInt ((fileSize : ℤ) - offset) % 2 ^ 64).toNat < size then
      toInt ((fileSize : ℤ) - offset) else toInt size).toNat) {bytes : List UInt8} {done : Bool}
    (hloop : readLoop s.disk (s.store.inodes i) (DIRECT_PTRS - offset / 4096) (offset / 4096)
      offset remaining = (bytes, done)) :
    ReadsFile fileSize blocks size offset bytes.length bytes := by
  have hleads := h.leadsTo hi hfile
  have hpos : 4096 * (offset / 4096) + offset % 4096 = offset := Nat.div_add_mod offset 4096
  have hbytes : bytes = (readLoop s.disk (s.store.inodes i) (DIRECT_PTRS - offset / 4096)
      (offset / 4096) offset remaining).1 := by rw [hloop]
  refine ⟨rfl, fun hx => ?_, fun hoff hsmall hpresent => ?_⟩
  · rw [hbytes] at hx
    by_cases hblk16 : offset / 4096 ≤ 16
    · have hbyte := readLoop_spec hleads _ (by simp only [DIRECT_PTRS]; omega) hx
      rw [hpos] at hbyte
      exact hbyte.1
    · have hleft : DIRECT_PTRS - offset / 4096 = 0 := by simp only [DIRECT_PTRS]; omega
      rw [hleft, readLoop] at hx
      cases hx
  · have hmfr : toInt ((fileSize : ℤ) - offset) = ((fileSize - offset : ℕ) : ℤ) := by
      have hcast : (fileSize : ℤ) - offset = ((fileSize - offset : ℕ) : ℤ) := by omega
      rw [hcast, toInt_natCast (by omega)]
    have hremaining : remaining = min size (fileSize - offset) := by
      rw [hrem, hmfr]
      split
      · omega
      · next hle =>
        rw [toInt_natCast (by omega)]
        omega
    rw [hbytes, ← hremaining]
    refine readLoop_complete hleads _ (by simp only [DIRECT_PTRS]; omega) (by omega) ?_
    intro p h₁ h₂
    exact hpresent p (by omega) (by omega)

theorem rufsRead_spec {size offset atime : ℕ} {ret : ℤ} {bytes : List UInt8} (hs : s.Layout)
    (h : Represents s.store g) (hc : g.Closed) (hmay : MayAccess g path)
    (hcall : rufsRead s path size offset atime = some (ret, bytes, s')) :
    (g.walk 0 (strtokAll path) = none ∧ ret = -ENOENT ∧ bytes = [] ∧ s' = s) ∨
      ∃ i fileSize blocks, g.walk 0 (strtokAll path) = some i ∧
        g i = some (.file fileSize blocks) ∧ s'.allocs = s.allocs ∧ s'.Layout ∧
        Represents s'.store g ∧ ReadsFile fileSize blocks size offset ret bytes := by
  rw [rufsRead, getNodeByPath_eq hs h hc hmay.string hmay.searches] at hcall
  cases hwalk : g.walk 0 (strtokAll path) with
  | none =>
    rw [hwalk] at hcall
    cases hcall
    exact Or.inl ⟨rfl, rfl, rfl, rfl⟩
  | some i =>
    obtain ⟨fileSize, blocks, hfile⟩ := hmay.file i hwalk
    refine Or.inr ⟨i, fileSize, blocks, rfl, hfile, ?_⟩
    have hi : i < 1024 := (h.used i (hc.walk_root hwalk)).1
    have hnode := h.node i hi
    rw [hfile] at hnode
    have hsize : Inode.size.get (s.store.inodes i) 0 = fileSize := hnode.2.2.1
    have hsizeLt : fileSize < 2 ^ 32 := hsize ▸ Field.get_lt Inode.size _ _
    rw [hwalk, Option.map_some] at hcall
    dsimp only at hcall
    rw [hsize] at hcall
    split at hcall
    · next hend =>
      rw [Option.some.injEq, Prod.mk.injEq, Prod.mk.injEq] at hcall
      obtain ⟨hret, hbytes, hs'⟩ := hcall
      rw [← hs', ← hret, ← hbytes]
      refine ⟨rfl, hs, h, rfl, fun hx => ?_, fun hlt => ?_⟩
      · rw [List.getElem?_nil] at hx
        cases hx
      · omega
    · next hlt =>
      have hblk : toInt ((offset / BLOCK_SIZE : ℕ) : ℤ) = ((offset / 4096 : ℕ) : ℤ) :=
        toInt_natCast (by simp only [BLOCK_SIZE]; omega)
      rw [hblk, if_neg (by omega), Int.toNat_natCast] at hcall
      obtain ⟨remaining, hrem⟩ : ∃ remaining, remaining =
          (if (toInt ((fileSize : ℤ) - offset) % 2 ^ 64).toNat < size then
            toInt ((fileSize : ℤ) - offset) else toInt size).toNat := ⟨_, rfl⟩
      rw [← hrem] at hcall
      rcases hloop : readLoop s.disk (s.store.inodes i) (DIRECT_PTRS - offset / 4096)
        (offset / 4096) offset remaining with ⟨read, done⟩
      have hread := readsFile_readLoop h hi hfile hrem hloop
      rw [hloop] at hcall
      dsimp only at hcall
      have hagree : Agrees (Inode.stAtime.set (s.store.inodes i) 0 atime) (s.store.inodes i) :=
        Agrees.set (by decide) (by decide)
      have hbounded : Inode.Bounded (Inode.stAtime.set (s.store.inodes i) 0 atime) :=
        Inode.bounded_set (by decide) (Fs.bounded_inodes s i)
      split at hcall
      · rw [Option.some.injEq, Prod.mk.injEq, Prod.mk.injEq, hagree.ino, h.ino i hi] at hcall
        obtain ⟨hret, hbytes, hs'⟩ := hcall
        rw [← hs', ← hret, ← hbytes]
        refine ⟨Fs.allocs_writei _ _ _, Fs.layout_writei hs _ _, ?_, hread⟩
        rw [Fs.store_writei hs hi hbounded]
        exact h.setInode hagree
      · rw [Option.some.injEq, Prod.mk.injEq, Prod.mk.injEq] at hcall
        obtain ⟨hret, hbytes, hs'⟩ := hcall
        rw [← hs', ← hret, ← hbytes]
        exact ⟨rfl, hs, h, hread⟩

/-- How many bytes a write of `size` bytes at `offset` stores. -/
def bytesStored (size offset : ℕ) : ℕ := min (toInt size).toNat (65536 - offset)

/-- A new size for the inode in memory. -/
theorem represents_resize {st : Store} {nodei inode : Inode} {fileSize v : ℕ}
    {blocks : ℕ → Option Bytes} (h : Represents (st.setInode i nodei) g) (hi : i < 1024)
    (hfile : g i = some (.file fileSize blocks))
    (hagree : Agrees inode (Inode.size.set nodei 0 v)) :
    Represents (st.setInode i inode) (g.set i (.file (v % 2 ^ 32) blocks)) := by
  have hnode := h.node i hi
  rw [hfile] at hnode
  obtain ⟨hvalid, htype, -, hblocks⟩ := hnode
  have hapart (f : Field) (hf : f.Apart Inode.size) :
      f.get (Inode.size.set nodei 0 v) 0 = f.get nodei 0 := Field.get_set_of_apart hf
  have hptr (k : ℕ) (hk : k < 16) : inode.ptr k = (st.setInode i nodei).ptr i k := by
    rw [hagree.ptr k hk, Inode.ptr_set (by decide) hk, Store.ptr_setInode_same]
  rw [Store.inodes_setInode_same] at hvalid htype
  have howned := h.owned.setInode hptr
  rw [Store.setInode_setInode] at howned
  refine h.update hi howned ?_ ?_ (fun _ _ => rfl) (fun _ h => h)
    (h.used i (by rw [hfile]; exact Option.some_ne_none _)).2 ⟨?_, ?_, ?_, ?_⟩
  · rw [Store.inodes_setInode_same, hagree.ino, hapart _ (by decide),
      ← Store.inodes_setInode_same st i nodei, h.ino i hi]
  · intro j hj
    rw [Store.inodes_setInode_of_ne _ _ _ hj, Store.inodes_setInode_of_ne _ _ _ hj]
  · rw [Store.inodes_setInode_same, hagree.valid, hapart _ (by decide)]
    exact hvalid
  · rw [Store.inodes_setInode_same, hagree.type, hapart _ (by decide)]
    exact htype
  · rw [Store.inodes_setInode_same, hagree.size, Field.get_set_same]
    rfl
  · intro k hk
    rw [hblocks k hk, Store.fileBlock, Store.fileBlock, ← hptr k hk, Store.ptr_setInode_same,
      Store.blocks_setInode, Store.blocks_setInode]

theorem rufsWrite_spec {buffer : List UInt8} {size offset : ℕ} {times : Times} {ret : ℤ}
    (hs : s.Layout) (h : Represents s.store g) (hc : g.Closed) (hmay : MayAccess g path)
    (hoff : offset < 65536)
    (hcall : rufsWrite s path buffer size offset times = some (ret, s')) (hgranted : s'.Granted) :
    (g.walk 0 (strtokAll path) = none ∧ ret = -ENOENT ∧ s' = s) ∨
      ∃ i fileSize blocks blocks', g.walk 0 (strtokAll path) = some i ∧
        g i = some (.file fileSize blocks) ∧ ret = bytesStored size offset ∧
        bytesStored size offset ≤ buffer.length ∧
        Stores blocks blocks' offset (buffer.take (bytesStored size offset)) ∧ s'.Layout ∧
        Represents s'.store
          (g.set i (.file ((fileSize + bytesStored size offset) % 2 ^ 32) blocks')) := by
  rw [rufsWrite, getNodeByPath_eq hs h hc hmay.string hmay.searches] at hcall
  cases hwalk : g.walk 0 (strtokAll path) with
  | none =>
    rw [hwalk] at hcall
    cases hcall
    exact Or.inl ⟨rfl, rfl, rfl⟩
  | some i =>
    refine Or.inr ?_
    obtain ⟨fileSize, blocks, hfile⟩ := hmay.file i hwalk
    have hi : i < 1024 := (h.used i (hc.walk_root hwalk)).1
    rw [hwalk, Option.map_some] at hcall
    dsimp only at hcall
    have hblk : toInt ((offset / BLOCK_SIZE : ℕ) : ℤ) = ((offset / 4096 : ℕ) : ℤ) :=
      toInt_natCast (by simp only [BLOCK_SIZE]; omega)
    rw [hblk, if_neg (by omega), Int.toNat_natCast] at hcall
    split at hcall
    · cases hcall
    · next hbuffer =>
      have hlen : (toInt size).toNat ≤ buffer.length := by omega
      obtain ⟨⟨nodei', written, s₁⟩, hresult⟩ : ∃ result, result = writeLoop buffer
          (DIRECT_PTRS - offset / 4096) (offset / 4096) offset (toInt size).toNat 0
          (s.store.inodes i) s := ⟨_, rfl⟩
      rw [← hresult] at hcall
      dsimp only at hcall
      rw [Option.some.injEq, Prod.mk.injEq] at hcall
      obtain ⟨hret, hs'⟩ := hcall
      have hallocs : s₁.allocs = s'.allocs := by rw [← hs', Fs.allocs_writei]
      have hpos : 4096 * (offset / 4096) + offset % 4096 = offset := Nat.div_add_mod offset 4096
      have hspec := writeLoop_spec (i := i) _ (by simp only [DIRECT_PTRS]; omega)
        (by rwa [Nat.zero_add]) hs (Fs.bounded_inodes s i) hi (by rw [Store.setInode_self]; exact h) hfile hresult.symm
        fun r hr => hgranted r (hallocs ▸ hr)
      rw [hpos, List.drop_zero, Nat.zero_add] at hspec
      obtain ⟨hwritten, hlayout, hbounded, -, blocks', hstores, hrep⟩ := hspec
      have hsize : Inode.size.get nodei' 0 = fileSize := by
        have hnode := hrep.node i hi
        rw [Graph.set_same] at hnode
        have hsize := hnode.2.2.1
        rwa [Store.inodes_setInode_same] at hsize
      have hagree (w : ℕ) : Agrees (Inode.setTimes (Inode.stSize.set
          (Inode.size.set nodei' 0 (fileSize + written)) 0 w) times)
            (Inode.size.set nodei' 0 (fileSize + written)) :=
        agrees_setTimes.trans (Agrees.set (by decide) (by decide))
      have hbounded' (w : ℕ) : Inode.Bounded (Inode.setTimes (Inode.stSize.set
          (Inode.size.set nodei' 0 (fileSize + written)) 0 w) times) :=
        bounded_setTimes (Inode.bounded_set (by decide) (Inode.bounded_set (by decide) hbounded))
      have hrep' (w : ℕ) := represents_resize hrep hi (Graph.set_same _ _ _) (hagree w)
      have hino (w : ℕ) : Inode.ino.get (Inode.setTimes (Inode.stSize.set
          (Inode.size.set nodei' 0 (fileSize + written)) 0 w) times) 0 = i := by
        rw [← (hrep' w).ino i hi, Store.inodes_setInode_same]
      rw [hsize, hino] at hs'
      refine ⟨i, fileSize, blocks, blocks', rfl, hfile, ?_, ?_, hstores, ?_, ?_⟩
      · rw [← hret, hwritten, bytesStored]
      · exact Nat.le_trans (Nat.min_le_left _ _) hlen
      · rw [← hs']
        exact Fs.layout_writei hlayout _ _
      · have hfinal := hrep' (Inode.stSize.get (Inode.size.set nodei' 0 (fileSize + written)) 0 +
          written)
        rw [Graph.set_set, hwritten] at hfinal
        rw [← hs', Fs.store_writei hlayout hi (hbounded' _), hwritten]
        exact hfinal

end UserLevelOs.Files
