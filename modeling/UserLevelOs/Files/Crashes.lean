import UserLevelOs.Files.Confined
import UserLevelOs.Files.Failures

/-!
# Requests that are cut off

The process may die after any write of a request.  What the disk holds then is told with a graph
that is stored on the way: the entry comes first, and after it nothing that the old paths lead to
is touched.

## Main definitions

* `Call.subject`, `Call.entered`, `Call.written` — what a request may change.
* `Left` — what a request leaves when it is cut off.

## Main statements

* `Kept.left` — what every request the kernel lets through leaves.
-/

namespace UserLevelOs.Files

open UserLevelOs.Lib

/-! ## What a request may change -/

/-- The byte of a file at position `p`; a missing block is blank. -/
def Fs.byteAt (s : Fs) (i p : ℕ) : UInt8 :=
  if (readi s i).ptr (p / BLOCK_SIZE) = 0 then 0
  else bioRead s.disk ((readi s i).ptr (p / BLOCK_SIZE)) (p % BLOCK_SIZE)

namespace Call

/-- The inode that is in memory during the request, and written back. -/
def subject (s : Fs) : Call → Option ℕ
  | .mkdir path _ => walk s s.rootDirIno (parentNames path)
  | .create path _ => walk s s.rootDirIno (parentNames path)
  | .read path _ _ _ => walk s s.rootDirIno (strtokAll path)
  | .write path _ _ _ _ => walk s s.rootDirIno (strtokAll path)

/-- The name that is entered. -/
def entered : Call → Option Name
  | .mkdir path _ => some (basename path)
  | .create path _ => some (basename path)
  | .read _ _ _ _ => none
  | .write _ _ _ _ _ => none

/-- The number of bytes that are stored. -/
def stored : Call → ℕ
  | .write _ _ size offset _ => bytesStored size offset
  | .mkdir _ _ => 0
  | .create _ _ => 0
  | .read _ _ _ _ => 0

/-- The byte that is stored at position `p` of the file. -/
def written : Call → ℕ → Option UInt8
  | .write _ buffer size offset _, p =>
    if offset ≤ p ∧ p < offset + bytesStored size offset then some (buffer.getD (p - offset) 0)
    else none
  | .mkdir _ _, _ => none
  | .create _ _, _ => none
  | .read _ _ _ _, _ => none

end Call

/-! ## Entering a name -/

/-- The nodes of a graph. -/
def Graph.Live (g : Graph) (i : ℕ) : Prop := g i ≠ none

theorem Graph.live_of_eq {g : Graph} {i : ℕ} {n : Node} (h : g i = some n) : g.Live i := by
  rw [Live, h]
  exact Option.some_ne_none n

/-- In `v` directory `p` has got one more entry than in `s`, for an inode that was free. -/
structure After (g : Graph) (name : Name) (p : ℕ) (s v : Fs) (entries : List (Name × ℕ)) (i : ℕ) :
    Prop where
  dir : g p = some (.dir entries)
  lt : i < 1024
  free : g i = none
  layout : v.Layout
  rep : Represents v.store (g.set p (.dir (entries ++ [(name, i)])))
  confined : s.Confined (fun j => g.Live j ∧ j ≠ p) p v

/-- Before or after the entry, nothing live has changed but the times and the links of `p`. -/
def Interim (g : Graph) (name : Name) (p : ℕ) (s t : Fs) : Prop :=
  s.Confined g.Live p t ∨
    ∃ v entries i, After g name p s v entries i ∧ v.Confined g.Live p t

section Entering

open Logged Fs

variable {s t v : Fs} {g : Graph} {T : Places} {path : List UInt8} {name : Name} {p i : ℕ}
  {entries : List (Name × ℕ)}

theorem Kept.grounded (h : Kept s g T) : s.Grounded g.Live :=
  h.rep.grounded h.layout fun _ hi => hi

theorem Kept.grounded_but (h : Kept s g T) (p : ℕ) : s.Grounded fun j => g.Live j ∧ j ≠ p :=
  h.rep.grounded h.layout fun _ hi => hi.1

theorem After.grounded (h : After g name p s v entries i) : v.Grounded g.Live :=
  h.rep.grounded h.layout fun _ hj => Graph.set_ne_none hj

/-- The states shown while the name is entered come with all the allocations before them. -/
theorem allocs_of_log_dirAdd {dirInode : Inode} {fIno len : ℕ} {fname : List UInt8}
    (h : t ∈ (Interrupted.dirAdd dirInode fIno fname len).log s) : s.allocs ⊆ t.allocs := by
  rcases Interrupted.mem_log_dirAdd h with ⟨k, -, rfl | ⟨buf, rfl⟩⟩ | ⟨r, hadd⟩
  · rw [allocs_getAvailBlkno]
    exact List.subset_cons_self _ _
  · rw [allocs_disk, allocs_getAvailBlkno]
    exact List.subset_cons_self _ _
  · exact dirAdd_allocs hadd

/-- The entry for a new inode number is added, or there is no room for it. -/
theorem after_dirAdd {r : ℤ} {len : ℕ} (h : Kept s g T) (hdir : g p = some (.dir entries))
    (hname : Stored name)
    (hadd : dirAdd (getAvailIno s).2 (s.store.inodes p) ((getAvailIno s).1 % 2 ^ 16).toNat name len =
      some (r, v)) (hgranted : v.Granted) :
    r = -1 ∧ v = (getAvailIno s).2 ∨
      After g name p s v entries ((getAvailIno s).1 % 2 ^ 16).toNat := by
  have hp : p < 1024 := h.lt (Graph.live_of_eq hdir)
  have hret := (hgranted.of_dirAdd hadd).getAvailIno
  obtain ⟨i, hi, hgot, hfree, -, hstore⟩ := getAvailIno_spec h.layout hret
  have hnew : ((getAvailIno s).1 % 2 ^ 16).toNat = i := by
    rw [hgot]
    omega
  rw [hnew] at hadd ⊢
  have hrep : Represents (getAvailIno s).2.store g := hstore ▸ h.rep.useInode i
  obtain ⟨-, -, -, -, hconfined⟩ :=
    (Confined.refl (h.grounded_but p) p).getAvailIno (h.grounded_but p) hret
  have hcrash := crash_dirAdd (p := p) (h.grounded_but p) hp (fun hlive => hlive.2 rfl)
    (bounded_inodes s p) (h.rep.ino p hp)
    ((Confined.refl (h.grounded_but p) p).spare p hp fun hlive => hlive.2 rfl) i len name
  have hrun := (hcrash _ fun _ => hconfined).2 r v (by rw [Interrupted.run_dirAdd, hadd]) hgranted
  have hinode : s.store.inodes p = (getAvailIno s).2.store.inodes p := by
    rw [hstore, Store.inodes_useInode]
  rw [hinode] at hadd
  rcases dirAdd_spec (layout_getAvailIno h.layout) hrep hp hdir hname (by omega) hadd hgranted with
    ⟨-, hr, hsame⟩ | ⟨-, -, hlayout, -, hrep'⟩
  · exact Or.inl ⟨hr, hsame⟩
  · exact Or.inr ⟨hdir, hi, h.rep.none_of_free hfree, hlayout, hrep', hrun⟩

/-- The parent is the inode its names lead to. -/
theorem Kept.parent_of_getNodeByPath {nodei : Inode} (h : Kept s g T) (hc : s.Enters path)
    (hget : getNodeByPath s (dirname path) s.rootDirIno = some nodei) :
    ∃ p entries, g.walk 0 (parentNames path) = some p ∧ g p = some (.dir entries) ∧
      nodei = s.store.inodes p := by
  have hmay := h.mayEnter hc
  rw [getNodeByPath_eq h.layout h.rep h.closed (nul_notMem_dirname hmay.string) hmay.searches] at hget
  obtain ⟨p, hwalk, hnodei⟩ := Option.map_eq_some_iff.mp hget
  obtain ⟨entries, hdir⟩ := hmay.parent p hwalk
  exact ⟨p, entries, hwalk, hdir, hnodei.symm⟩

theorem Kept.interim_of_addToParent (h : Kept s g T) (hc : s.Enters path)
    (ht : t ∈ (Interrupted.addToParent path).log s) (hgranted : t.Granted) :
    ∃ p, g.walk 0 (parentNames path) = some p ∧ Interim g (basename path) p s t := by
  obtain ⟨nodei, hget, ht⟩ := Interrupted.mem_log_addToParent ht
  obtain ⟨p, entries, hwalk, hdir, rfl⟩ := h.parent_of_getNodeByPath hc hget
  refine ⟨p, hwalk, ?_⟩
  have hgranted₁ : (getAvailIno s).2.Granted := by
    rcases ht with rfl | ht
    · exact hgranted
    · exact hgranted.mono (allocs_of_log_dirAdd ht)
  obtain ⟨-, -, -, -, hconfined⟩ :=
    (Confined.refl h.grounded p).getAvailIno h.grounded hgranted₁.getAvailIno
  rcases ht with rfl | ht
  · exact Or.inl hconfined
  rcases Interrupted.mem_log_dirAdd ht with ⟨k, -, hblock⟩ | ⟨r, hadd⟩
  · -- a block has been allocated, and may have been filled, but nothing leads to it
    have hret : (getAvailBlkno (getAvailIno s).2).1 ≠ -1 := by
      refine hgranted _ ?_
      rcases hblock with rfl | ⟨buf, rfl⟩
      · rw [allocs_getAvailBlkno]
        exact List.mem_cons_self
      · rw [allocs_disk, allocs_getAvailBlkno]
        exact List.mem_cons_self
    obtain ⟨b, hb, hlt, hfree, hconfined⟩ := hconfined.getAvailBlkno hret
    rcases hblock with rfl | ⟨buf, rfl⟩
    · exact Or.inl hconfined
    · rw [hb]
      exact Or.inl (hconfined.bioWrite (h.grounded.spare_of_free hlt hfree) buf)
  · rcases after_dirAdd h hdir (h.mayEnter hc).stored hadd hgranted with
      ⟨-, rfl⟩ | hafter
    · exact Or.inl hconfined
    · exact Or.inr ⟨t, entries, _, hafter, .refl hafter.grounded p⟩

theorem Kept.after_addToParent {nodei : Inode} (h : Kept s g T) (hc : s.Enters path)
    (hadd : addToParent s path = some (.inr (nodei, i), v)) (hgranted : v.Granted) :
    ∃ p entries, g.walk 0 (parentNames path) = some p ∧ nodei = s.store.inodes p ∧
      After g (basename path) p s v entries i := by
  rcases addToParent_some hadd with ⟨-, hadded, -⟩ | ⟨nodei', r, hget, hdirAdd, hadded⟩
  · cases hadded
  obtain ⟨p, entries, hwalk, hdir, rfl⟩ := h.parent_of_getNodeByPath hc hget
  split_ifs at hadded with hr hr₀
  rw [Sum.inr.injEq, Prod.mk.injEq] at hadded
  obtain ⟨rfl, rfl⟩ := hadded
  refine ⟨p, entries, hwalk, rfl, ?_⟩
  rcases after_dirAdd h hdir (h.mayEnter hc).stored hdirAdd hgranted with
    ⟨hfull, -⟩ | hafter
  · exact absurd hfull hr
  · exact hafter

/-- The new inode is not live yet. -/
theorem After.writei {inode : Inode} (h : After g name p s v entries i) (hbounded : inode.Bounded)
    (hino : Inode.ino.get inode 0 = i) (hptr : ∀ k < 16, inode.ptr k = 0) :
    v.Confined g.Live p (writei v i inode) :=
  (Confined.refl h.grounded p).writei h.lt hbounded hino (fun hlive => absurd h.free hlive)
    fun _ k hk => Or.inl (hptr k hk)

/-- Entering a name in the new directory. -/
theorem After.crash_dirAdd {inode : Inode} (h : After g name p s v entries i)
    (hbounded : inode.Bounded) (hino : Inode.ino.get inode 0 = i)
    (hptr : ∀ k < 16, inode.ptr k = 0 ∨ v.Spare g.Live (inode.ptr k)) (fIno len : ℕ)
    (fname : List UInt8) :
    Crash (Barring (v.Confined g.Live p)) (Interrupted.dirAdd inode fIno fname len)
      (fun _ => Barring (v.Confined g.Live p)) (Barring (v.Confined g.Live p)) :=
  Files.crash_dirAdd h.grounded h.lt (fun hlive => hlive h.free) hbounded hino hptr fIno len fname

/-- A new file is written. -/
theorem Kept.interim_of_create {times : Times} (h : Kept s g T) (hc : s.Enters path)
    (ht : t ∈ (Interrupted.rufsCreate path times).log s) (hgranted : t.Granted) :
    ∃ p, g.walk 0 (parentNames path) = some p ∧ Interim g (basename path) p s t := by
  cases Interrupted.createShows ht with
  | adding ht => exact h.interim_of_addToParent hc ht hgranted
  | @made nodei i v hadd =>
    obtain ⟨p, entries, hwalk, -, hafter⟩ := h.after_addToParent hc hadd hgranted.of_writei
    obtain ⟨hbounded, hino, -, -, -, hptr⟩ :=
      newFileInode_spec (t := times) (bounded_readi v i) hafter.lt
    exact ⟨p, hwalk, Or.inr ⟨v, entries, i, hafter, hafter.writei hbounded hino hptr⟩⟩

/-- The first entry of a new directory. -/
theorem After.confined_dot {times : Times} {r : ℤ} {s₂ : Fs} (h : After g name p s v entries i)
    (hadd : dirAdd (Files.writei v i (newDirInode (readi v i) i times))
      (newDirInode (readi v i) i times) i dot (nameLen dot) = some (r, s₂)) (hgranted : s₂.Granted) :
    v.Confined g.Live p s₂ := by
  obtain ⟨hbounded, hino, -, -, hptr⟩ := newDirInode_spec (t := times) (bounded_readi v i) h.lt
  refine (h.crash_dirAdd hbounded hino (fun k hk => Or.inl (hptr k hk)) i (nameLen dot) dot
    (Files.writei v i (newDirInode (readi v i) i times)) fun _ => ?_).2 r s₂ ?_ hgranted
  · exact h.writei hbounded hino hptr
  · rw [Interrupted.run_dirAdd, hadd]

/-- The second one. -/
theorem After.crash_dotdot {s₂ : Fs} (h : After g name p s v entries i)
    (hconfined : v.Confined g.Live p s₂) (fIno len : ℕ) (fname : List UInt8) :
    Crash (Barring (v.Confined g.Live p)) (Interrupted.dirAdd (readi s₂ i) fIno fname len)
      (fun _ => Barring (v.Confined g.Live p)) (Barring (v.Confined g.Live p)) := by
  refine h.crash_dirAdd (bounded_readi s₂ i) ?_ (fun k hk => ?_) fIno len fname
  · rw [readi_eq h.lt, hconfined.ino i h.lt]
  · rw [readi_eq h.lt]
    exact hconfined.spare i h.lt (fun hlive => hlive h.free) k hk

/-- A new directory is written and filled, and the parent counts it. -/
theorem Kept.interim_of_mkdir {times : Times} (h : Kept s g T) (hc : s.Enters path)
    (ht : t ∈ (Interrupted.rufsMkdir path times).log s) (hgranted : t.Granted) :
    ∃ p, g.walk 0 (parentNames path) = some p ∧ Interim g (basename path) p s t := by
  cases Interrupted.mkdirShows ht with
  | adding ht => exact h.interim_of_addToParent hc ht hgranted
  | @made nodei i v hadd =>
    obtain ⟨p, entries, hwalk, -, hafter⟩ := h.after_addToParent hc hadd hgranted.of_writei
    obtain ⟨hbounded, hino, -, -, hptr⟩ :=
      newDirInode_spec (t := times) (bounded_readi v i) hafter.lt
    exact ⟨p, hwalk, Or.inr ⟨v, entries, i, hafter, hafter.writei hbounded hino hptr⟩⟩
  | @dot nodei i v _ hadd ht =>
    have hgranted₁ : v.Granted := (hgranted.mono (allocs_of_log_dirAdd ht)).of_writei
    obtain ⟨p, entries, hwalk, -, hafter⟩ := h.after_addToParent hc hadd hgranted₁
    obtain ⟨hbounded, hino, -, -, hptr⟩ :=
      newDirInode_spec (t := times) (bounded_readi v i) hafter.lt
    refine ⟨p, hwalk, Or.inr ⟨v, entries, i, hafter, ?_⟩⟩
    exact (hafter.crash_dirAdd hbounded hino (fun k hk => Or.inl (hptr k hk)) _ _ _ _
      fun _ => hafter.writei hbounded hino hptr).1 t ht hgranted
  | @dotdot nodei i v s₂ _ r₂ hadd hadd₂ ht =>
    have hgranted₂ : s₂.Granted := hgranted.mono (allocs_of_log_dirAdd ht)
    obtain ⟨p, entries, hwalk, -, hafter⟩ :=
      h.after_addToParent hc hadd (hgranted₂.of_dirAdd hadd₂).of_writei
    have hconfined := hafter.confined_dot hadd₂ hgranted₂
    refine ⟨p, hwalk, Or.inr ⟨v, entries, i, hafter, ?_⟩⟩
    exact (hafter.crash_dotdot hconfined _ _ _ _ fun _ => hconfined).1 t ht hgranted
  | @counted nodei i v s₂ s₃ r₂ r₃ hadd hadd₂ hadd₃ =>
    have hgranted₂ : s₂.Granted := hgranted.of_writei.of_dirAdd hadd₃
    obtain ⟨p, entries, hwalk, rfl, hafter⟩ :=
      h.after_addToParent hc hadd (hgranted₂.of_dirAdd hadd₂).of_writei
    have hconfined := hafter.confined_dot hadd₂ hgranted₂
    have hconfined := (hafter.crash_dotdot hconfined _ _ _ _ fun _ => hconfined).2 r₃ s₃
      (by rw [Interrupted.run_dirAdd, hadd₃]) hgranted.of_writei
    have hlive := Graph.live_of_eq hafter.dir
    have hp : p < 1024 := h.lt hlive
    have hagree := agrees_countedInode (s₃.store.inodes p)
    refine ⟨p, hwalk, Or.inr ⟨v, entries, i, hafter, ?_⟩⟩
    rw [h.rep.ino p hp, readi_eq hp, hagree.ino, hconfined.ino p hp]
    refine hconfined.writei hp (bounded_countedInode (bounded_inodes s₃ p)) ?_
      (fun _ => ⟨rfl, hagree⟩) fun hdead => absurd hlive hdead
    rw [hagree.ino, hconfined.ino p hp]

end Entering

/-! ## What is left -/

/-- Inode `i` and its blocks are in `t` as in `s`. -/
structure Fs.Untouched (s t : Fs) (i : ℕ) : Prop where
  inode : t.store.inodes i = s.store.inodes i
  block : ∀ k < 16, s.store.ptr i k ≠ 0 →
    t.store.blocks (s.store.ptr i k) = s.store.blocks (s.store.ptr i k)

/-- As far as the calls look at them they are. -/
structure Fs.Copied (s t : Fs) (i : ℕ) : Prop where
  inode : Agrees (t.store.inodes i) (s.store.inodes i)
  block : ∀ k < 16, s.store.ptr i k ≠ 0 →
    t.store.blocks (s.store.ptr i k) = s.store.blocks (s.store.ptr i k)

/-- What request `c` leaves of `s`, which stores `g`: the directories are those of a graph that
has at most one more entry, and no inode but the subject has changed. -/
structure Left (g : Graph) (c : Call) (s t : Fs) : Prop where
  layout : t.Layout
  block_zero : bioRead t.disk 0 = bioRead s.disk 0
  dirs : ∃ (v : Fs) (g' : Graph), v.Layout ∧ Represents v.store g' ∧ ∀ i entries, g i = some (.dir entries) →
    v.Copied t i ∧ ∃ more, g' i = some (.dir (entries ++ more)) ∧
      (more = [] ∨ ∃ name ∈ c.entered, ∃ j, more = [(name, j)])
  other : ∀ i, g.Live i → c.subject s ≠ some i → s.Untouched t i
  file : ∀ i size blocks, g i = some (.file size blocks) → c.subject s = some i →
    Inode.type.get (t.store.inodes i) 0 = FILE ∧
      (Inode.size.get (t.store.inodes i) 0 = size ∨
        Inode.size.get (t.store.inodes i) 0 = (size + c.stored) % 2 ^ 32) ∧
      ∀ p < 65536, t.byteAt i p = fileByte blocks p ∨ c.written p = some (t.byteAt i p)

section Left

open Logged Fs

variable {s t v : Fs} {g : Graph} {T : Places} {c : Call} {live : ℕ → Prop} {name : Name} {i p : ℕ}
  {entries : List (Name × ℕ)} {size : ℕ} {blocks : ℕ → Option Bytes} {path : List UInt8}

theorem Fs.Untouched.trans (h : s.Untouched v i) (h' : v.Untouched t i) : s.Untouched t i where
  inode := h'.inode.trans h.inode
  block := by
    intro k hk hne
    have hptr : v.store.ptr i k = s.store.ptr i k := by rw [Store.ptr, h.inode, Store.ptr]
    have hblock := h'.block k hk (by rw [hptr]; exact hne)
    rw [hptr] at hblock
    rw [hblock, h.block k hk hne]

theorem Fs.Copied.refl (s : Fs) (i : ℕ) : s.Copied s i := ⟨Agrees.refl _, fun _ _ _ => rfl⟩

theorem Fs.Untouched.copied (h : s.Untouched t i) : s.Copied t i := by
  refine ⟨?_, h.block⟩
  rw [h.inode]
  exact Agrees.refl _

theorem Fs.Confined.untouched (h : s.Confined live p t) (hi : i < 1024) (hlive : live i)
    (hne : i ≠ p) : s.Untouched t i :=
  ⟨h.inode i hi hlive hne, h.block i hi hlive⟩

theorem Fs.Confined.copied (h : s.Confined live p t) (hi : i < 1024) (hlive : live i) :
    s.Copied t i :=
  ⟨h.agrees i hi hlive, h.block i hi hlive⟩

/-- The bytes of a file are those of the blocks its pointers lead to. -/
theorem byteAt_eq (hi : i < 1024) (h : LeadsTo s.disk (s.store.inodes i) blocks) {x : ℕ}
    (hx : x < 65536) : s.byteAt i x = fileByte blocks x := by
  simp only [byteAt, BLOCK_SIZE, fileByte, readi_eq hi]
  rcases h (x / 4096) (by omega) with ⟨hnull, hnone⟩ | ⟨hne, hsome⟩
  · rw [if_pos hnull, hnone, Option.getD_none]
  · rw [if_neg hne, hsome, Option.getD_some]

/-- The blocks of a copy, as the calls read them. -/
theorem Represents.bioRead_copied (h : Represents s.store g) (hi : i < 1024)
    (hcopied : s.Copied t i) {k : ℕ} (hk : k < 16) (hne : (s.store.inodes i).ptr k ≠ 0) :
    bioRead t.disk ((s.store.inodes i).ptr k) = bioRead s.disk ((s.store.inodes i).ptr k) := by
  have hge : 67 ≤ s.store.ptr i k := (h.owned.ptr_range i hi k hk hne).1
  have hblock := hcopied.block k hk hne
  rw [Store.ptr] at hge hblock
  rw [bioRead_eq hge, bioRead_eq hge, hblock]

/-- A file that is not rewritten. -/
theorem Represents.byteAt_copied (h : Represents s.store g) (hi : i < 1024)
    (hfile : g i = some (.file size blocks)) (hcopied : s.Copied t i) {x : ℕ} (hx : x < 65536) :
    t.byteAt i x = fileByte blocks x := by
  refine byteAt_eq hi (fun k hk => ?_) hx
  rw [hcopied.inode.ptr k hk]
  rcases h.leadsTo hi hfile k hk with hnull | ⟨hne, hblock⟩
  · exact Or.inl hnull
  · exact Or.inr ⟨hne, by rw [hblock, h.bioRead_copied hi hcopied hk hne]⟩

/-- What a request leaves that enters a name. -/
theorem Kept.left_of_interim (h : Kept s g T) (hsubject : c.subject s = some p)
    (hentered : c.entered = some name) (hdir : g p = some (.dir entries))
    (hinterim : Interim g name p s t) : Left g c s t := by
  have hfile (i size : ℕ) (blocks : ℕ → Option Bytes) (hfile : g i = some (.file size blocks))
      (hi : c.subject s = some i) : False := by
    rw [hsubject, Option.some.injEq] at hi
    rw [← hi, hdir] at hfile
    cases hfile
  have hne (i : ℕ) (hi : c.subject s ≠ some i) : i ≠ p := by
    rintro rfl
    exact hi hsubject
  rcases hinterim with hconfined | ⟨v, entries', j, hafter, hconfined⟩
  · refine ⟨hconfined.layout, hconfined.block_zero, ⟨s, g, h.layout, h.rep, fun i es hi => ?_⟩,
      fun i hlive hi => hconfined.untouched (h.lt hlive) hlive (hne i hi),
      fun i size blocks hnode hi => (hfile i size blocks hnode hi).elim⟩
    have hlive := Graph.live_of_eq hi
    exact ⟨hconfined.copied (h.lt hlive) hlive, [], by rw [List.append_nil, hi], Or.inl rfl⟩
  · refine ⟨hconfined.layout, hconfined.block_zero.trans hafter.confined.block_zero,
      ⟨v, _, hafter.layout, hafter.rep, fun i es hi => ?_⟩, fun i hlive hi => ?_,
      fun i size blocks hnode hi => (hfile i size blocks hnode hi).elim⟩
    · have hlive := Graph.live_of_eq hi
      refine ⟨hconfined.copied (h.lt hlive) hlive, ?_⟩
      by_cases hip : i = p
      · rw [hip, hafter.dir, Option.some.injEq, Node.dir.injEq] at hi
        rw [hip, Graph.set_same, hi]
        exact ⟨_, rfl, Or.inr ⟨name, hentered, j, rfl⟩⟩
      · rw [Graph.set_of_ne _ _ hip]
        exact ⟨[], by rw [List.append_nil, hi], Or.inl rfl⟩
    · have hip := hne i hi
      exact (hafter.confined.untouched (h.lt hlive) ⟨hlive, hip⟩ hip).trans
        (hconfined.untouched (h.lt hlive) hlive hip)

/-- What a request leaves that keeps to one file. -/
theorem Kept.left_of_confined (h : Kept s g T) (hsubject : c.subject s = some p)
    (hnode : g p = some (.file size blocks))
    (hconfined : s.Confined (fun j => g.Live j ∧ j ≠ p) p t)
    (hfile : Inode.type.get (t.store.inodes p) 0 = FILE ∧
      (Inode.size.get (t.store.inodes p) 0 = size ∨
        Inode.size.get (t.store.inodes p) 0 = (size + c.stored) % 2 ^ 32) ∧
      ∀ x < 65536, t.byteAt p x = fileByte blocks x ∨ c.written x = some (t.byteAt p x)) :
    Left g c s t where
  layout := hconfined.layout
  block_zero := hconfined.block_zero
  dirs := by
    refine ⟨s, g, h.layout, h.rep, fun i es hi => ?_⟩
    have hlive := Graph.live_of_eq hi
    have hip : i ≠ p := by
      rintro rfl
      rw [hi] at hnode
      cases hnode
    exact ⟨hconfined.copied (h.lt hlive) ⟨hlive, hip⟩, [], by rw [List.append_nil, hi], Or.inl rfl⟩
  other i hlive hi := by
    have hip : i ≠ p := by
      rintro rfl
      exact hi hsubject
    exact hconfined.untouched (h.lt hlive) ⟨hlive, hip⟩ hip
  file i size' blocks' hi hsub := by
    rw [hsubject, Option.some.injEq] at hsub
    rw [← hsub, hnode, Option.some.injEq, Node.file.injEq] at hi
    rw [← hsub, ← hi.1, ← hi.2]
    exact hfile

/-- The file is the inode its names lead to. -/
theorem Kept.file_of_getNodeByPath {nodei : Inode} (h : Kept s g T) (hc : s.Accesses path)
    (hget : getNodeByPath s path s.rootDirIno = some nodei) :
    ∃ i size blocks, walk s s.rootDirIno (strtokAll path) = some i ∧
      g.walk 0 (strtokAll path) = some i ∧ g i = some (.file size blocks) ∧
      nodei = s.store.inodes i := by
  have hmay := h.mayAccess hc
  rw [getNodeByPath_eq h.layout h.rep h.closed hmay.string hmay.searches] at hget
  obtain ⟨i, hwalk, hnodei⟩ := Option.map_eq_some_iff.mp hget
  obtain ⟨size, blocks, hfile⟩ := hmay.file i hwalk
  refine ⟨i, size, blocks, ?_, hwalk, hfile, hnodei.symm⟩
  rw [h.walk_eq (fun name hmem => nul_notMem_of_mem hc.string hmem) hmay.searches, hwalk]

theorem Kept.left_of_read {n offset atime : ℕ} (h : Kept s g T) (hc : s.Accesses path)
    (ht : t ∈ (Interrupted.rufsRead path n offset atime).log s) :
    Left g (.read path n offset atime) s t := by
  obtain ⟨nodei, hget, ht⟩ := Interrupted.mem_log_rufsRead ht
  obtain ⟨i, size, blocks, hsubject, -, hnode, rfl⟩ := h.file_of_getNodeByPath hc hget
  have hlive := Graph.live_of_eq hnode
  have hi := h.lt hlive
  have hagree : Agrees (Inode.stAtime.set (s.store.inodes i) 0 atime) (s.store.inodes i) :=
    Agrees.set (by decide) (by decide)
  have hbounded : Inode.Bounded (Inode.stAtime.set (s.store.inodes i) 0 atime) :=
    Inode.bounded_set (by decide) (bounded_inodes s i)
  have hino := hagree.ino.trans (h.rep.ino i hi)
  rw [hino] at ht
  subst ht
  -- the file is copied, and the rest untouched
  have hcopied := ((Confined.refl h.grounded i).writei hi hbounded hino (fun _ => ⟨rfl, hagree⟩)
    fun hdead => absurd hlive hdead).copied hi hlive
  have hconfined := (Confined.refl (h.grounded_but i) i).writei hi hbounded hino
    (fun hlive' => absurd rfl hlive'.2) fun hdead k hk => by
      rw [hagree.ptr k hk]
      exact (Confined.refl (h.grounded_but i) i).spare i hi hdead k hk
  have hholds := h.rep.node i hi
  rw [hnode] at hholds
  refine h.left_of_confined hsubject hnode hconfined
    ⟨hcopied.inode.type.trans hholds.2.1, Or.inl (hcopied.inode.size.trans hholds.2.2.1),
      fun x hx => Or.inl (h.rep.byteAt_copied hi hnode hcopied hx)⟩

theorem written_write {buffer : List UInt8} {n offset m : ℕ} (path : List UInt8) (times : Times)
    (hm : m < (toInt n).toNat) (hroom : offset + m < 65536) :
    (Call.write path buffer n offset times).written (offset + m) = some (buffer.getD m 0) := by
  rw [Call.written, if_pos, Nat.add_sub_cancel_left]
  rw [bytesStored]
  omega

/-- A write that is cut off in its loop: the inode is still the old one. -/
theorem Kept.left_of_rewriting (h : Kept s g T) (hsubject : c.subject s = some i)
    (hnode : g i = some (.file size blocks))
    (hrew : s.Rewriting (fun j => g.Live j ∧ j ≠ i) i c.written t) : Left g c s t := by
  have hi := h.lt (Graph.live_of_eq hnode)
  have hholds := h.rep.node i hi
  rw [hnode] at hholds
  obtain ⟨-, htype, hsize, -⟩ := hholds
  refine h.left_of_confined hsubject hnode hrew.confined
    ⟨by rw [hrew.inode, htype], Or.inl (by rw [hrew.inode, hsize]), fun x hx => ?_⟩
  rw [← byteAt_eq hi (h.rep.leadsTo hi hnode) hx]
  simp only [byteAt, BLOCK_SIZE, readi_eq hi, hrew.inode]
  have hk : x / 4096 < 16 := by omega
  by_cases hnull : s.store.ptr i (x / 4096) = 0
  · rw [Store.ptr] at hnull
    rw [if_pos hnull, if_pos hnull]
    exact Or.inl rfl
  · have hge := (h.rep.owned.ptr_range i hi (x / 4096) hk hnull).1
    have hbyte := hrew.byte (x / 4096) hk hnull (x % 4096) (Nat.mod_lt x (by decide))
    rw [Nat.div_add_mod] at hbyte
    rw [Store.ptr] at hnull hge hbyte
    rw [if_neg hnull, if_neg hnull, bioRead_eq hge, bioRead_eq hge]
    exact hbyte

/-- A write that is cut off behind its last write to the disk. -/
theorem Kept.left_of_rufsWrite {buffer : List UInt8} {n offset : ℕ} {times : Times} {ret : ℤ}
    (h : Kept s g T) (hc : s.Accesses path) (hoffset : offset < 65536)
    (hsubject : walk s s.rootDirIno (strtokAll path) = some i)
    (hwalk : g.walk 0 (strtokAll path) = some i) (hnode : g i = some (.file size blocks))
    (hcall : rufsWrite s path buffer n offset times = some (ret, t)) (hgranted : t.Granted)
    (hconfined : s.Confined (fun j => g.Live j ∧ j ≠ i) i t) :
    Left g (.write path buffer n offset times) s t := by
  have hi := h.lt (Graph.live_of_eq hnode)
  rcases rufsWrite_spec h.layout h.rep h.closed (h.mayAccess hc) hoffset hcall hgranted with
    ⟨hnone, -, -⟩ | ⟨j, size', blocks₀, blocks', hwalk', hnode', -, hlen, hstores, -, hrep⟩
  · rw [hwalk] at hnone
    cases hnone
  rw [hwalk, Option.some.injEq] at hwalk'
  subst hwalk'
  rw [hnode, Option.some.injEq, Node.file.injEq] at hnode'
  obtain ⟨rfl, rfl⟩ := hnode'
  have hholds := hrep.node i hi
  rw [Graph.set_same] at hholds
  obtain ⟨-, htype, hsize, -⟩ := hholds
  refine h.left_of_confined hsubject hnode hconfined ⟨htype, Or.inr hsize, fun x hx => ?_⟩
  have hlength : (buffer.take (bytesStored n offset)).length = bytesStored n offset :=
    List.length_take_of_le hlen
  rw [byteAt_eq hi (hrep.leadsTo hi (Graph.set_same _ _ _)) hx, hstores.byte, hlength]
  by_cases hin : offset ≤ x ∧ x < offset + bytesStored n offset
  · rw [if_pos hin, Call.written, if_pos hin, List.getD_eq_getElem?_getD,
      List.getD_eq_getElem?_getD, List.getElem?_take_of_lt (by omega)]
    exact Or.inr rfl
  · rw [if_neg hin]
    exact Or.inl rfl

theorem Kept.left_of_write {buffer : List UInt8} {n offset : ℕ} {times : Times} (h : Kept s g T)
    (hc : s.Accesses path) (hoffset : offset < 65536)
    (ht : t ∈ (Interrupted.rufsWrite path buffer n offset times).log s) (hgranted : t.Granted) :
    Left g (.write path buffer n offset times) s t := by
  obtain ⟨nodei, hget, hlen, ht⟩ := Interrupted.mem_log_rufsWrite ht
  obtain ⟨i, size, blocks, hsubject, hwalk, hnode, rfl⟩ := h.file_of_getNodeByPath hc hget
  have hi := h.lt (Graph.live_of_eq hnode)
  have hdead : ¬(g.Live i ∧ i ≠ i) := fun hlive => hlive.2 rfl
  have hblk : toInt ((offset / BLOCK_SIZE : ℕ) : ℤ) = ((offset / 4096 : ℕ) : ℤ) :=
    toInt_natCast (by simp only [BLOCK_SIZE]; omega)
  rw [hblk, Int.toNat_natCast] at ht
  have hcrash := crash_writeLoop (h.grounded_but i) hi hdead (by omega : (toInt n).toNat ≤ buffer.length)
    (fun m hm hroom => written_write path times hm hroom) (DIRECT_PTRS - offset / 4096)
    (Or.inl (by simp only [DIRECT_PTRS]; omega)) (Nat.zero_add _)
    (fun _ => Nat.div_add_mod offset 4096) s fun _ =>
      ⟨(h.grounded_but i).rewriting i _, (h.grounded_but i).inMemory hi⟩
  rcases ht with ht | ⟨r, s₁, hloop, rfl, ret, hcall⟩
  · exact h.left_of_rewriting hsubject hnode (hcrash.1 t ht hgranted)
  · -- the new inode leads to blocks that were there, or were free
    obtain ⟨hrew, hmem⟩ := hcrash.2 r s₁ hloop hgranted.of_writei
    obtain ⟨hbounded, hino, -, -, hptr⟩ := writtenInode_spec hmem.bounded r.2 times
    have hino' := hino.trans hmem.ino
    rw [hino'] at hcall hgranted ⊢
    refine h.left_of_rufsWrite hc hoffset hsubject hwalk hnode hcall hgranted ?_
    refine hrew.confined.writei hi hbounded hino' (fun hlive => absurd hlive hdead) fun _ k hk => ?_
    rw [hptr k hk]
    exact hmem.spare (h.grounded_but i) hi hdead hk

theorem log_reply {α : Type} {m : Traced Fs α} {f : α → Reply}
    (ht : t ∈ (m >>= fun a => Pure.pure (f a)).log s) : t ∈ m.log s := by
  rcases log_bind_cases ht with ht | ⟨a, s', -, ht, -⟩
  · exact ht
  · cases ht

/-- What is left by a request that enters a name in the directory its path leads to. -/
theorem Kept.left_of_enters (h : Kept s g T) (hc : s.Enters path)
    (hsubject : c.subject s = walk s s.rootDirIno (parentNames path))
    (hentered : c.entered = some (basename path))
    (hinterim : ∃ p, g.walk 0 (parentNames path) = some p ∧ Interim g (basename path) p s t) :
    Left g c s t := by
  obtain ⟨p, hwalk, hinterim⟩ := hinterim
  have hmay := h.mayEnter hc
  obtain ⟨entries, hdir⟩ := hmay.parent p hwalk
  refine h.left_of_interim ?_ hentered hdir hinterim
  rw [hsubject, h.walk_eq ?_ hmay.searches, hwalk]
  intro name hmem
  exact nul_notMem_of_mem (nul_notMem_dirname hmay.string) hmem

/-- What a request leaves, whatever the write after which it is cut off. -/
theorem Kept.left (h : Kept s g T) (hc : s.Allows c) (ht : t ∈ c.interrupted.log s)
    (hgranted : t.Granted) : Left g c s t := by
  cases c with
  | mkdir path times =>
    exact h.left_of_enters hc rfl rfl (h.interim_of_mkdir hc (log_reply ht) hgranted)
  | create path times =>
    exact h.left_of_enters hc rfl rfl (h.interim_of_create hc (log_reply ht) hgranted)
  | read path size offset atime => exact h.left_of_read hc (log_reply ht)
  | write path buffer size offset times =>
    exact h.left_of_write hc.1 hc.2 (log_reply ht) hgranted

end Left

end UserLevelOs.Files
