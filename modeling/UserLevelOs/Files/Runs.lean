import UserLevelOs.Files.Tree

/-!
# Runs of the file system

The file system from `rufs_mkfs` on, one request after the other.  What the requests may be
is a parameter of a run; `Fs.Allows` is what the kernel lets through, read off the disk.
Along such a run the disk stores a graph, and its tree makes the steps of `Tree.Step`.

## Main definitions

* `Fs.Enters`, `Fs.Accesses`, `Fs.Allows` — the requests of a run.
* `Event`, `Run` — runs, with a log of the requests and replies.
* `Kept` — what holds between two requests.
* `TreeRun` — runs of a tree.

## Main statements

* `Kept.step`, `Run.kept_graph`.
-/

namespace UserLevelOs.Files

open UserLevelOs.Lib

/-! ## Requests -/

namespace Fs

variable (s : Fs)

def IsDir (i : ℕ) : Prop := Inode.type.get (readi s i) 0 = DIRECTORY

def IsFile (i : ℕ) : Prop := Inode.type.get (readi s i) 0 = FILE

/-- Every inode searched on the way is a directory. -/
def SearchesDirs : ℕ → List Name → Prop
  | _, [] => True
  | i, name :: names => s.IsDir i ∧ ∀ j, dirFind s i name = some j → SearchesDirs j names

/-- A C string with a last component that fits an entry, below a directory. -/
structure Enters (path : List UInt8) : Prop where
  string : 0 ∉ path
  name_lt : (basename path).length < 208
  searches : s.SearchesDirs s.rootDirIno (parentNames path)
  parent : ∀ p, walk s s.rootDirIno (parentNames path) = some p → s.IsDir p

/-- A C string that names a regular file, if anything, reached through directories. -/
structure Accesses (path : List UInt8) : Prop where
  string : 0 ∉ path
  searches : s.SearchesDirs s.rootDirIno (strtokAll path)
  file : ∀ i, walk s s.rootDirIno (strtokAll path) = some i → s.IsFile i

/-- The requests the kernel lets through. -/
def Allows : Call → Prop
  | .mkdir path _ => s.Enters path
  | .create path _ => s.Enters path
  | .read path _ _ _ => s.Accesses path
  | .write path _ _ offset _ => s.Accesses path ∧ offset < 65536

end Fs

/-! ## Runs -/

/-- A request with its reply. -/
structure Event where
  call : Call
  reply : Reply
  deriving DecidableEq, Repr

/-- The file system from `rufs_mkfs` on, with its requests so far, latest first.  The
allocators have never returned `-1`. -/
inductive Run (allows : Fs → Call → Prop) (junk : Bytes) (times : Times) : Fs → List Event → Prop
  | made {s : Fs} (h : rufsMkfs junk times = some s) : Run allows junk times s []
  | call {s s' : Fs} {log : List Event} {c : Call} {r : Reply} (hrun : Run allows junk times s log)
      (hc : allows s c) (hexec : c.exec s = some (r, s')) (hgranted : s'.Granted) :
      Run allows junk times s' (⟨c, r⟩ :: log)

/-- What holds between two requests. -/
structure Kept (s : Fs) (g : Graph) (T : Places) : Prop where
  layout : s.Layout
  rep : Represents s.store g
  closed : g.Closed
  placed : Placed g T

section Step

variable {s s' : Fs} {g : Graph} {T : Places} {path : List UInt8} {names : List Name} {i : ℕ}
  {c : Call} {r : Reply}

namespace Kept

theorem node_ne_none_of_walk (h : Kept s g T) (hwalk : g.walk 0 names = some i) : g i ≠ none :=
  h.closed.walk_root hwalk

theorem root_ne_none (h : Kept s g T) : g 0 ≠ none := h.placed.node h.placed.root

theorem lt (h : Kept s g T) (hi : g i ≠ none) : i < 1024 := (h.rep.used i hi).1

/-- The type of an inode is the type of its node. -/
theorem isDir_iff (h : Kept s g T) (hi : g i ≠ none) :
    s.IsDir i ↔ ∃ entries, g i = some (.dir entries) := by
  have hnode := h.rep.node i (h.lt hi)
  rw [Fs.IsDir, Fs.readi_eq (h.lt hi)]
  cases hn : g i with
  | none => exact absurd hn hi
  | some n =>
    rw [hn] at hnode
    cases n with
    | dir entries => exact iff_of_true hnode.2.1 ⟨entries, rfl⟩
    | file size blocks =>
      rw [hnode.2.1]
      simp [FILE, DIRECTORY]

theorem isFile_iff (h : Kept s g T) (hi : g i ≠ none) :
    s.IsFile i ↔ ∃ size blocks, g i = some (.file size blocks) := by
  have hnode := h.rep.node i (h.lt hi)
  rw [Fs.IsFile, Fs.readi_eq (h.lt hi)]
  cases hn : g i with
  | none => exact absurd hn hi
  | some n =>
    rw [hn] at hnode
    cases n with
    | dir entries =>
      rw [hnode.2.1]
      simp [FILE, DIRECTORY]
    | file size blocks => exact iff_of_true hnode.2.1 ⟨size, blocks, rfl⟩

theorem walkSearches (h : Kept s g T) (hi : g i ≠ none) (hnames : ∀ name ∈ names, 0 ∉ name)
    (hdirs : s.SearchesDirs i names) : g.WalkSearches i names := by
  induction names generalizing i with
  | nil => exact True.intro
  | cons name names ih =>
    obtain ⟨hdir, hrest⟩ := hdirs
    obtain ⟨entries, hdir⟩ := (h.isDir_iff hi).mp hdir
    have hsearch : g.Searchable i := by
      intro size blocks hfile
      rw [hdir] at hfile
      cases hfile
    have hname := hnames name List.mem_cons_self
    refine ⟨hsearch, fun j hj => ?_⟩
    refine ih (h.closed.find hj) (fun name' hmem => hnames name' (List.mem_cons_of_mem name hmem)) ?_
    exact hrest j (by rw [dirFind_eq h.rep (h.lt hi) hsearch hname, hj])

theorem walk_eq (h : Kept s g T) (hnames : ∀ name ∈ names, 0 ∉ name)
    (hsearch : g.WalkSearches 0 names) : walk s s.rootDirIno names = g.walk 0 names := by
  rw [h.layout.rootDirIno]
  exact Files.walk_eq h.rep h.closed h.root_ne_none hsearch hnames

theorem mayEnter (h : Kept s g T) (hc : s.Enters path) : MayEnter g path := by
  have hnames : ∀ name ∈ parentNames path, 0 ∉ name := fun name hmem =>
    nul_notMem_of_mem (nul_notMem_dirname hc.string) hmem
  have hsearches := hc.searches
  rw [h.layout.rootDirIno] at hsearches
  have hsearches := h.walkSearches h.root_ne_none hnames hsearches
  refine ⟨hc.string, hc.name_lt, hsearches, fun p hp => ?_⟩
  refine (h.isDir_iff (h.node_ne_none_of_walk hp)).mp (hc.parent p ?_)
  rw [h.walk_eq hnames hsearches, hp]

theorem mayAccess (h : Kept s g T) (hc : s.Accesses path) : MayAccess g path := by
  have hnames : ∀ name ∈ strtokAll path, 0 ∉ name := fun name hmem =>
    nul_notMem_of_mem hc.string hmem
  have hsearches := hc.searches
  rw [h.layout.rootDirIno] at hsearches
  have hsearches := h.walkSearches h.root_ne_none hnames hsearches
  refine ⟨hc.string, hsearches, fun i hi => ?_⟩
  refine (h.isFile_iff (h.node_ne_none_of_walk hi)).mp (hc.file i ?_)
  rw [h.walk_eq hnames hsearches, hi]

/-- One request: the disk still stores a graph, and its tree has made a step. -/
theorem step (h : Kept s g T) (hc : s.Allows c) (hexec : c.exec s = some (r, s'))
    (hgranted : s'.Granted) :
    ∃ g' T', Kept s' g' T' ∧ (treeOf g T).Step c r (treeOf g' T') := by
  cases c with
  | mkdir path times =>
    obtain ⟨⟨ret, s₁⟩, hcall, hr⟩ := Option.map_eq_some_iff.mp hexec
    cases hr
    obtain ⟨g', hent, hlayout, hrep⟩ :=
      rufsMkdir_spec h.layout h.rep h.closed (h.mayEnter hc) hcall hgranted
    obtain ⟨T', hplaced, hclosed, hstep⟩ :=
      hent.inTree .dir h.placed h.closed (fun _ _ => .dir) fun _ _ => rfl
    exact ⟨g', T', ⟨hlayout, hrep, hclosed, hplaced⟩, .mkdir hstep⟩
  | create path times =>
    obtain ⟨⟨ret, s₁⟩, hcall, hr⟩ := Option.map_eq_some_iff.mp hexec
    cases hr
    obtain ⟨g', hent, hlayout, hrep⟩ :=
      rufsCreate_spec h.layout h.rep h.closed (h.mayEnter hc) hcall hgranted
    obtain ⟨T', hplaced, hclosed, hstep⟩ :=
      hent.inTree (.file 0 fun _ => none) h.placed h.closed (fun _ _ => .file) fun _ _ => rfl
    exact ⟨g', T', ⟨hlayout, hrep, hclosed, hplaced⟩, .create hstep⟩
  | read path size offset atime =>
    obtain ⟨⟨ret, bytes, s₁⟩, hcall, hr⟩ := Option.map_eq_some_iff.mp hexec
    cases hr
    rcases rufsRead_spec h.layout h.rep h.closed (h.mayAccess hc) hcall with
      ⟨hwalk, rfl, rfl, rfl⟩ | ⟨i, fileSize, blocks, hwalk, hfile, -, hlayout, hrep, hread⟩
    · exact ⟨g, T, h, .readNothing (resolve_of_walk_none h.placed hwalk)⟩
    · obtain ⟨place, hplace, hi⟩ := resolve_of_walk h.placed hwalk
      exact ⟨g, T, ⟨hlayout, hrep, h.closed, h.placed⟩, .read hplace (treeOf_file hi hfile) hread⟩
  | write path buffer size offset times =>
    obtain ⟨⟨ret, s₁⟩, hcall, hr⟩ := Option.map_eq_some_iff.mp hexec
    cases hr
    obtain ⟨hc, hoff⟩ := hc
    rcases rufsWrite_spec h.layout h.rep h.closed (h.mayAccess hc) hoff hcall hgranted with
      ⟨hwalk, rfl, rfl⟩ |
        ⟨i, fileSize, blocks, blocks', hwalk, hfile, rfl, hlen, hstores, hlayout, hrep⟩
    · exact ⟨g, T, h, .writeNothing (resolve_of_walk_none h.placed hwalk)⟩
    · obtain ⟨place, hplace, hi⟩ := resolve_of_walk h.placed hwalk
      refine ⟨_, T, ⟨hlayout, hrep, h.closed.setFile hfile, h.placed.setFile hfile⟩, ?_⟩
      rw [treeOf_setFile h.placed hi]
      exact .write hplace (treeOf_file hi hfile) hoff hlen hstores

end Kept

end Step

/-! ## Runs of a tree -/

/-- The tree of a new disk. -/
def newTree : Tree := fun place => if place = [] then some .dir else none

/-- A tree from `newTree` on, with the requests that made it. -/
inductive TreeRun : Tree → List Event → Prop
  | made : TreeRun newTree []
  | call {t t' : Tree} {log : List Event} {c : Call} {r : Reply} (hrun : TreeRun t log)
      (hstep : t.Step c r t') : TreeRun t' (⟨c, r⟩ :: log)

theorem treeOf_root : treeOf rootGraph rootPlaces = newTree := by
  funext place
  rw [treeOf, rootPlaces, newTree]
  split
  · rw [Option.bind_some, rootGraph_zero]
    rfl
  · rfl

section Run

variable {allows : Fs → Call → Prop} {junk : Bytes} {times : Times} {s : Fs} {log : List Event}

theorem made_of_rufsMkfs (h : rufsMkfs junk times = some s) : Made s := by
  obtain ⟨s', hs', hmade⟩ := rufsMkfs_spec junk times
  rw [h, Option.some.injEq] at hs'
  rwa [hs']

theorem Made.kept (h : Made s) : Kept s rootGraph rootPlaces :=
  ⟨h.layout, h.rep, rootGraph_closed, rootGraph_placed⟩

theorem Run.mono {allows' : Fs → Call → Prop} (h : ∀ s c, allows s c → allows' s c)
    (hrun : Run allows junk times s log) : Run allows' junk times s log := by
  induction hrun with
  | made hmade => exact .made hmade
  | call _ hc hexec hgranted ih => exact .call ih (h _ _ hc) hexec hgranted

/-- A run on the disk is a run of a tree. -/
theorem Run.kept_graph (hrun : Run Fs.Allows junk times s log) :
    ∃ g T, Kept s g T ∧ TreeRun (treeOf g T) log := by
  induction hrun with
  | made h =>
    refine ⟨_, _, (made_of_rufsMkfs h).kept, ?_⟩
    rw [treeOf_root]
    exact .made
  | call _ hc hexec hgranted ih =>
    obtain ⟨g, T, hkept, htree⟩ := ih
    obtain ⟨g', T', hkept', hstep⟩ := hkept.step hc hexec hgranted
    exact ⟨g', T', hkept', .call htree hstep⟩

end Run

end UserLevelOs.Files
