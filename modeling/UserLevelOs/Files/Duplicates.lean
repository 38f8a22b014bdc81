import UserLevelOs.Files.Namespace

/-!
# Names entered twice

The search for a duplicate in `dir_add` skips every block whose number is not `VALID`, and no
directory has block 1.  So a name that is there already is entered again, as long as the
directory has room.

## Main definitions

* `Fs.Entry` — the valid entries on the disk.
* `UniqueNames` — no directory has two entries with one name.
* `Fs.Exists`, `Fs.Doubles` — requests for what is there.

## Main statements

* `uniqueNames_iff` — names are unique on the disk when they are in the graph.
* `Run.uniqueNames_iff_fresh`.
* `exists_repeated` — a file created over and over.
-/

namespace UserLevelOs.Files

open UserLevelOs.Lib

/-! ## Entries on the disk -/

/-- Slot `j` of block `k` of inode `i` is a valid entry called `name`. -/
structure Fs.Entry (s : Fs) (i k j : ℕ) (name : Name) : Prop where
  ptr : (readi s i).ptr k ≠ 0
  valid : Dirent.valid.get (bioRead s.disk ((readi s i).ptr k)) (slotAddr j) ≠ 0
  name_eq : (bioRead s.disk ((readi s i).ptr k)).strAt (slotAddr j + Dirent.name) 208 = name

/-- No directory has two valid entries with one name. -/
def UniqueNames (s : Fs) : Prop :=
  ∀ i < MAX_INUM, Inode.valid.get (readi s i) 0 ≠ INVALID → s.IsDir i →
    ∀ k < DIRECT_PTRS, ∀ j < DIRENTS_IN_BLOCK, ∀ l < DIRECT_PTRS, ∀ m < DIRENTS_IN_BLOCK, ∀ name,
      s.Entry i k j name → s.Entry i l m name → k = l ∧ j = m

section Entries

variable {s : Fs} {g : Graph} {T : Places} {i k j : ℕ} {entries : List (Name × ℕ)} {name : Name}

theorem entry_iff (h : Represents s.store g) (hi : i < 1024) (hdir : g i = some (.dir entries))
    (hk : k < 16) (hj : j < 19) :
    s.Entry i k j name ↔ (entries[19 * k + j]?).map Prod.fst = some name := by
  have hnode := h.node i hi
  rw [hdir] at hnode
  obtain ⟨-, -, hholds⟩ := hnode
  have hptr : (readi s i).ptr k = s.store.ptr i k := by rw [Fs.readi_eq hi, Store.ptr]
  by_cases hne : s.store.ptr i k = 0
  · have hlen : ¬ 19 * k < entries.length := fun hlt => (hholds.ptr_iff k hk).mpr hlt hne
    rw [List.getElem?_eq_none (by omega)]
    refine iff_of_false (fun hentry => hentry.ptr ?_) (by simp)
    rw [hptr, hne]
  · have hslot := hholds.slot k hk hne j hj
    have hread := h.owned.bioRead_ptr hi hk hne
    cases he : entries[19 * k + j]? with
    | none =>
      rw [he] at hslot
      refine iff_of_false (fun hentry => hentry.valid ?_) (by simp)
      rw [hptr, hread]
      exact hslot
    | some e =>
      rw [he] at hslot
      obtain ⟨name', ino⟩ := e
      obtain ⟨hvalid, hstr, -⟩ := hslot
      obtain ⟨hnul, hlen⟩ : Stored name' := hholds.stored _ (List.mem_of_getElem? he)
      have hat := Bytes.strAt_eq hstr hnul hlen
      rw [Option.map_some, Option.some.injEq]
      constructor
      · intro hentry
        have hname := hentry.name_eq
        rw [hptr, hread, hat] at hname
        exact hname
      · intro hname
        refine ⟨?_, ?_, ?_⟩
        · rw [hptr]
          exact hne
        · rw [hptr, hread]
          exact hvalid
        · rw [hptr, hread, hat, ← hname]

/-- Names are unique on the disk exactly when they are in the graph. -/
theorem Kept.uniqueNames_iff (h : Kept s g T) : UniqueNames s ↔ g.Distinct := by
  constructor
  · intro hunique i entries hdir
    have hi := h.lt (by rw [hdir]; exact Option.some_ne_none _)
    have hnode := h.rep.node i hi
    rw [hdir] at hnode
    have hlen := hnode.2.2.length_le
    rw [List.nodup_iff_getElem?_ne_getElem?]
    intro x y hxy hy heq
    rw [List.length_map] at hy
    obtain ⟨name, hname⟩ : ∃ name, (entries.map Prod.fst)[y]? = some name :=
      ⟨_, List.getElem?_eq_getElem (by rwa [List.length_map])⟩
    rw [hname, List.getElem?_map] at heq
    rw [List.getElem?_map] at hname
    have hentry (z : ℕ) (hz : z < 304) (hname : (entries[z]?).map Prod.fst = some name) :
        s.Entry i (z / 19) (z % 19) name := by
      rw [entry_iff h.rep hi hdir (by omega) (by omega), Nat.div_add_mod]
      exact hname
    have hsame := hunique i hi (by rw [Fs.readi_eq hi]; exact hnode.1)
      ((h.isDir_iff (by rw [hdir]; exact Option.some_ne_none _)).mpr ⟨entries, hdir⟩)
      (x / 19) (by simp only [DIRECT_PTRS]; omega) (x % 19) (Nat.mod_lt _ (by decide))
      (y / 19) (by simp only [DIRECT_PTRS]; omega) (y % 19) (Nat.mod_lt _ (by decide)) name
      (hentry x (by omega) heq) (hentry y (by omega) hname)
    omega
  · intro hdistinct i hi hvalid hisDir k hk j hj l hl m hm name hentry hentry'
    have hi : i < 1024 := hi
    have hne : g i ≠ none := by
      intro hnone
      have hnode := h.rep.node i hi
      rw [hnone] at hnode
      rw [Fs.readi_eq hi] at hvalid
      exact hvalid hnode.1
    obtain ⟨entries, hdir⟩ := (h.isDir_iff hne).mp hisDir
    rw [entry_iff h.rep hi hdir hk hj, ← List.getElem?_map] at hentry
    rw [entry_iff h.rep hi hdir hl hm, ← List.getElem?_map] at hentry'
    obtain ⟨hlt, -⟩ := List.getElem?_eq_some_iff.mp hentry
    have hsame := (List.getElem?_inj hlt (hdistinct i entries hdir)).mp (hentry.trans hentry'.symm)
    have hj : j < 19 := hj
    have hm : m < 19 := hm
    omega

end Entries

/-! ## Requests for what is there -/

def Call.path : Call → List UInt8
  | .mkdir path _ => path
  | .create path _ => path
  | .read path _ _ _ => path
  | .write path _ _ _ _ => path

namespace Fs

variable (s : Fs)

/-- Directories and files made below directories. -/
def Creates : Call → Prop
  | .mkdir path _ => s.Enters path
  | .create path _ => s.Enters path
  | _ => False

/-- The last component of the path is an entry of its parent, which has room for another. -/
def Doubles (path : List UInt8) : Prop :=
  ∃ p, walk s s.rootDirIno (parentNames path) = some p ∧ dirFind s p (basename path) ≠ none ∧
    findSpot s (readi s p) ≠ none

/-- The path names something. -/
def Exists (path : List UInt8) : Prop := getNodeByPath s path s.rootDirIno ≠ none

end Fs

section Doubles

variable {s s' : Fs} {g g' : Graph} {T : Places} {i p : ℕ} {entries : List (Name × ℕ)} {name : Name}
  {path : List UInt8} {c : Call} {r : Reply} {n : Node}

theorem walk_append (s : Fs) (i : ℕ) (names names' : List Name) :
    walk s i (names ++ names') = (walk s i names).bind fun j => walk s j names' := by
  induction names generalizing i with
  | nil => rfl
  | cons name names ih =>
    rw [List.cons_append, walk, walk]
    cases dirFind s i name with
    | none => rfl
    | some j => exact ih j

/-- What is entered twice is there. -/
theorem Fs.Doubles.exists (h : s.Doubles path) : s.Exists path := by
  obtain ⟨p, hp, hfind, -⟩ := h
  rw [Fs.Exists, getNodeByPath]
  split
  · exact Option.some_ne_none _
  · rw [Ne, Option.map_eq_none_iff]
    by_cases hne : strtokAll path = []
    · rw [hne]
      exact Option.some_ne_none _
    · rcases strtokAll_dirname_or hne with htok | hdirname
      · obtain ⟨j, hj⟩ := Option.ne_none_iff_exists'.mp hfind
        rw [← htok, walk_append, ← parentNames, hp, Option.bind_some, walk, hj]
        exact Option.some_ne_none _
      · rw [parentNames, hdirname] at hp
        rw [hp]
        exact Option.some_ne_none _

theorem Graph.distinct_link_iff (h : g.Distinct) (hdir : g p = some (.dir entries)) (hpi : p ≠ i)
    (hn : NewNode i p n) : (g.link p entries name i n).Distinct ↔ entries.lookup name = none := by
  constructor
  · intro hdistinct
    have hnodup := hdistinct p _ (link_parent hpi)
    rw [List.map_append, List.map_singleton] at hnodup
    by_contra hne
    obtain ⟨j, hj⟩ := Option.ne_none_iff_exists'.mp hne
    obtain ⟨l₁, l₂, hsplit, -⟩ := List.lookup_eq_some_iff.mp hj
    refine List.disjoint_of_nodup_append hnodup ?_ (List.mem_singleton.mpr rfl)
    rw [hsplit]
    simp
  · intro hnew
    exact h.link hdir hnew hpi hn

/-- A request that makes something, without telling directories from files. -/
theorem Kept.creates (h : Kept s g T) (hc : s.Creates c) (hexec : c.exec s = some (r, s'))
    (hgranted : s'.Granted) :
    ∃ node g' T', MayEnter g c.path ∧ Entered g c.path s s' node r.ret g' ∧
      (∀ i p, NewNode i p (node i p)) ∧ Kept s' g' T' := by
  cases c with
  | mkdir path times =>
    obtain ⟨⟨ret, s₁⟩, hcall, hr⟩ := Option.map_eq_some_iff.mp hexec
    cases hr
    have hmay := h.mayEnter hc
    obtain ⟨g', hent, hlayout, hrep⟩ := rufsMkdir_spec h.layout h.rep h.closed hmay hcall hgranted
    obtain ⟨T', hplaced, hclosed, -⟩ :=
      hent.inTree .dir h.placed h.closed (fun _ _ => .dir) fun _ _ => rfl
    exact ⟨newDir, g', T', hmay, hent, fun _ _ => .dir, hlayout, hrep, hclosed, hplaced⟩
  | create path times =>
    obtain ⟨⟨ret, s₁⟩, hcall, hr⟩ := Option.map_eq_some_iff.mp hexec
    cases hr
    have hmay := h.mayEnter hc
    obtain ⟨g', hent, hlayout, hrep⟩ := rufsCreate_spec h.layout h.rep h.closed hmay hcall hgranted
    obtain ⟨T', hplaced, hclosed, -⟩ :=
      hent.inTree (.file 0 fun _ => none) h.placed h.closed (fun _ _ => .file) fun _ _ => rfl
    exact ⟨newFile, g', T', hmay, hent, fun _ _ => .file, hlayout, hrep, hclosed, hplaced⟩
  | read => exact hc.elim
  | write => exact hc.elim

/-- The parent of a new name, as the graph and as the disk have it. -/
theorem Kept.walk_parent (h : Kept s g T) (hmay : MayEnter g path) :
    walk s s.rootDirIno (parentNames path) = g.walk 0 (parentNames path) :=
  h.walk_eq (fun _ hmem => nul_notMem_of_mem (nul_notMem_dirname hmay.string) hmem) hmay.searches

/-- Names stay distinct until one is entered twice. -/
theorem Kept.distinct_iff (h : Kept s g T) {node : ℕ → ℕ → Node} {ret : ℤ} (hmay : MayEnter g path)
    (hent : Entered g path s s' node ret g') (hnode : ∀ i p, NewNode i p (node i p))
    (hdistinct : g.Distinct) : g'.Distinct ↔ ¬ s.Doubles path := by
  have hparent := h.walk_parent hmay
  have hspot (p : ℕ) (entries : List (Name × ℕ)) (hdir : g p = some (.dir entries)) :
      findSpot s (readi s p) ≠ none ↔ entries.length ≠ 304 := by
    have hp := h.lt (by rw [hdir]; exact Option.some_ne_none _)
    have hholds := h.rep.node p hp
    rw [hdir] at hholds
    rw [Fs.readi_eq hp, findSpot_eq h.rep hp hholds.2.2]
    split
    · next hfull => simp [hfull]
    · next hfull => simp [hfull]
  cases hent with
  | noParent hwalk =>
    refine iff_of_true hdistinct fun hdoubles => ?_
    obtain ⟨p, hp, -⟩ := hdoubles
    rw [hparent, hwalk] at hp
    cases hp
  | @noRoom p _ entries hwalk hdir hfull =>
    refine iff_of_true hdistinct fun hdoubles => ?_
    obtain ⟨p', hp, -, hroom⟩ := hdoubles
    rw [hparent, hwalk, Option.some.injEq] at hp
    rw [← hp] at hroom
    exact (hspot p entries hdir).mp hroom hfull
  | @entry p i entries hwalk hdir hfit hfree =>
    have hpi := ne_of_free hdir hfree
    have hp := h.lt (by rw [hdir]; exact Option.some_ne_none _)
    have hfind := dirFind_dir h.rep hp hdir hmay.stored.1
    rw [Graph.distinct_link_iff hdistinct hdir hpi (hnode i p), ← hfind]
    constructor
    · intro hnew hdoubles
      obtain ⟨p', hp', htaken, -⟩ := hdoubles
      rw [hparent, hwalk, Option.some.injEq] at hp'
      rw [← hp'] at htaken
      exact htaken hnew
    · intro hdoubles
      by_contra htaken
      refine hdoubles ⟨p, by rw [hparent, hwalk], htaken, (hspot p entries hdir).mpr ?_⟩
      omega

theorem Entered.ret_ne {node : ℕ → ℕ → Node} {ret : ℤ} (h : Entered g path s s' node ret g') :
    ret ≠ -EEXIST := by
  cases h with
  | noParent => decide
  | noRoom => decide
  | entry => decide

end Doubles

/-! ## Along a run -/

section Run

variable {junk : Bytes} {times : Times} {s : Fs} {log : List Event}

/-- Every state a run has passed through has unique names. -/
def UniqueAlong (junk : Bytes) (times : Times) (log : List Event) : Prop :=
  ∀ s₀ log₀, Run Fs.Creates junk times s₀ log₀ → log₀ <:+ log → UniqueNames s₀

/-- Every request of a run for a path that was there has failed with `-EEXIST` and has added
no entry. -/
def RefusedAlong (junk : Bytes) (times : Times) (log : List Event) : Prop :=
  ∀ s₀ s₁ log₀ e, Run Fs.Creates junk times s₀ log₀ → Run Fs.Creates junk times s₁ (e :: log₀) →
    e :: log₀ <:+ log → s₀.Exists e.call.path →
      e.reply.ret = -EEXIST ∧ ∀ i k j name, s₁.Entry i k j name → s₀.Entry i k j name

/-- Along a run whose requests have the property. -/
def Along (P : Fs → List UInt8 → Prop) (junk : Bytes) (times : Times) (log : List Event) : Prop :=
  ∀ s₀ log₀ e, Run Fs.Creates junk times s₀ log₀ → e :: log₀ <:+ log → P s₀ e.call.path

theorem Run.kept (hrun : Run Fs.Creates junk times s log) : ∃ g T, Kept s g T := by
  have hallows (s : Fs) (c : Call) (hc : s.Creates c) : s.Allows c := by
    cases c with
    | mkdir => exact hc
    | create => exact hc
    | read => exact hc.elim
    | write => exact hc.elim
  obtain ⟨g, T, hkept, -⟩ := (hrun.mono hallows).kept_graph
  exact ⟨g, T, hkept⟩

theorem Run.distinct (hrun : Run Fs.Creates junk times s log)
    (halong : Along (fun s path => ¬ s.Doubles path) junk times log) :
    ∃ g T, Kept s g T ∧ g.Distinct := by
  induction hrun with
  | made h => exact ⟨_, _, (made_of_rufsMkfs h).kept, rootGraph_distinct⟩
  | @call s s' log c r hrun hc hexec hgranted ih =>
    obtain ⟨g, T, hkept, hdistinct⟩ :=
      ih fun s₀ log₀ e hrun₀ hsub => halong s₀ log₀ e hrun₀ (hsub.trans (List.suffix_cons _ _))
    obtain ⟨node, g', T', hmay, hent, hnode, hkept'⟩ := hkept.creates hc hexec hgranted
    refine ⟨g', T', hkept', (hkept.distinct_iff hmay hent hnode hdistinct).mpr ?_⟩
    exact halong s log _ hrun (List.suffix_refl _)

theorem Run.uniqueAlong_iff (hrun : Run Fs.Creates junk times s log) :
    UniqueAlong junk times log ↔ Along (fun s path => ¬ s.Doubles path) junk times log := by
  constructor
  · intro hunique
    induction hrun with
    | made =>
      intro s₀ log₀ e _ hsub
      exact absurd (List.suffix_nil.mp hsub) (List.cons_ne_nil _ _)
    | @call s s' log c r hrun hc hexec hgranted ih =>
      have halong := ih fun s₀ log₀ hrun₀ hsub =>
        hunique s₀ log₀ hrun₀ (hsub.trans (List.suffix_cons _ _))
      intro s₀ log₀ e hrun₀ hsub
      rcases List.suffix_cons_iff.mp hsub with heq | hsub
      · rw [List.cons.injEq] at heq
        obtain ⟨rfl, rfl⟩ := heq
        obtain ⟨g, T, hkept, hdistinct⟩ := hrun.distinct halong
        obtain ⟨node, g', T', hmay, hent, hnode, hkept'⟩ := hkept.creates hc hexec hgranted
        rw [← hrun.unique hrun₀]
        refine (hkept.distinct_iff hmay hent hnode hdistinct).mp ?_
        rw [← hkept'.uniqueNames_iff]
        exact hunique s' _ (.call hrun hc hexec hgranted) (List.suffix_refl _)
      · exact halong s₀ log₀ e hrun₀ hsub
  · intro halong s₀ log₀ hrun₀ hsub
    obtain ⟨g, T, hkept, hdistinct⟩ := hrun₀.distinct fun s₁ log₁ e hrun₁ hsub₁ =>
      halong s₁ log₁ e hrun₁ (hsub₁.trans hsub)
    exact hkept.uniqueNames_iff.mpr hdistinct

theorem Run.refusedAlong_iff (hrun : Run Fs.Creates junk times s log) :
    RefusedAlong junk times log ↔ Along (fun s path => ¬ s.Exists path) junk times log := by
  constructor
  · intro hrefused
    induction hrun with
    | made =>
      intro s₀ log₀ e _ hsub
      exact absurd (List.suffix_nil.mp hsub) (List.cons_ne_nil _ _)
    | @call s s' log c r hrun hc hexec hgranted ih =>
      have halong := ih fun s₀ s₁ log₀ e hrun₀ hrun₁ hsub =>
        hrefused s₀ s₁ log₀ e hrun₀ hrun₁ (hsub.trans (List.suffix_cons _ _))
      intro s₀ log₀ e hrun₀ hsub
      rcases List.suffix_cons_iff.mp hsub with heq | hsub
      · rw [List.cons.injEq] at heq
        obtain ⟨rfl, rfl⟩ := heq
        intro hexists
        have hrun₁ : Run Fs.Creates junk times s' (⟨c, r⟩ :: log₀) := .call hrun hc hexec hgranted
        obtain ⟨hret, -⟩ := hrefused s₀ s' log₀ _ hrun₀ hrun₁ (List.suffix_refl _) hexists
        obtain ⟨g, T, hkept⟩ := hrun.kept
        obtain ⟨node, g', T', -, hent, -⟩ := hkept.creates hc hexec hgranted
        exact hent.ret_ne hret
      · exact halong s₀ log₀ e hrun₀ hsub
  · intro halong s₀ s₁ log₀ e hrun₀ _ hsub hexists
    exact absurd hexists (halong s₀ log₀ e hrun₀ hsub)

/-- Names stay unique, and requests for what is there fail with `-EEXIST`, in exactly the runs
without a request for what is there.  Names alone stay unique in exactly the runs in which no
such request finds room. -/
theorem Run.uniqueNames_iff_fresh (hrun : Run Fs.Creates junk times s log) :
    (UniqueAlong junk times log ∧ RefusedAlong junk times log ↔
      Along (fun s path => ¬ s.Exists path) junk times log) ∧
    (UniqueAlong junk times log ↔ Along (fun s path => ¬ s.Doubles path) junk times log) := by
  refine ⟨?_, hrun.uniqueAlong_iff⟩
  rw [hrun.uniqueAlong_iff, hrun.refusedAlong_iff]
  constructor
  · exact And.right
  · intro halong
    exact ⟨fun s₀ log₀ e hrun₀ hsub hdoubles => halong s₀ log₀ e hrun₀ hsub hdoubles.exists, halong⟩

end Run

/-! ## A name entered over and over -/

section Repeated

variable {s : Fs} {g : Graph} {T : Places}

def usedInodes (s : Fs) : Finset ℕ := (Finset.range 1024).filter fun i => s.store.inodeUsed i = true

theorem Kept.enters_slashA (h : Kept s g T) : s.Enters slashA where
  string := by decide
  name_lt := by decide
  searches := True.intro
  parent := by
    intro p hp
    have hp0 : p = 0 := by
      rw [← h.layout.rootDirIno]
      exact (Option.some.inj hp).symm
    rw [hp0, h.isDir_iff h.root_ne_none]
    exact h.closed.root

/-- A disk on which the file `"/a"` has been created `n` times. -/
theorem exists_repeated (junk : Bytes) (times : Times) (n : ℕ) (hn : n ≤ 302) :
    ∃ s g T entries, Run Fs.Creates junk times s (List.replicate n ⟨.create slashA times, ⟨0, []⟩⟩) ∧
      s.Granted ∧ Kept s g T ∧ (usedInodes s).card ≤ n + 1 ∧ g 0 = some (.dir entries) ∧
      entries.map Prod.fst = [dot, dotdot] ++ List.replicate n [97] := by
  induction n with
  | zero =>
    obtain ⟨s, hs, hmade⟩ := rufsMkfs_spec junk times
    refine ⟨s, rootGraph, rootPlaces, _, .made hs, hmade.granted, hmade.kept, ?_, rootGraph_zero, rfl⟩
    have hsub : usedInodes s ⊆ {0} := by
      intro i hi
      have hused := (Finset.mem_filter.mp hi).2
      rw [hmade.inodeUsed, decide_eq_true_eq] at hused
      exact Finset.mem_singleton.mpr hused
    exact Finset.card_le_card hsub
  | succ n ih =>
    obtain ⟨s, g, T, entries, hrun, hgranted, h, hcard, hdir, hnames⟩ := ih (by omega)
    have hlen : entries.length = n + 2 := by
      have hlen := congrArg List.length hnames
      simpa using hlen
    have henters := h.enters_slashA
    have hmay := h.mayEnter henters
    have hino : ∃ i < 1024, s.store.inodeUsed i = false := by
      by_contra hnone
      have hall : usedInodes s = Finset.range 1024 := by
        refine Finset.filter_true_of_mem fun i hi => ?_
        by_contra hfree
        exact hnone ⟨i, Finset.mem_range.mp hi, Bool.eq_false_iff.mpr hfree⟩
      rw [hall, Finset.card_range] at hcard
      omega
    have hlive (i : ℕ) (hi : g i ≠ none) : i ∈ usedInodes s := by
      obtain ⟨hlt, hused⟩ := h.rep.used i hi
      exact Finset.mem_filter.mpr ⟨Finset.mem_range.mpr hlt, hused⟩
    obtain ⟨s', hcall, hgranted'⟩ := rufsCreate_total times h.layout h.rep h.closed hmay rfl hdir
      (by omega) hgranted hino (h.rep.exists_free hlive (by omega))
    have hexec : Call.exec s (.create slashA times) = some (⟨0, []⟩, s') := by
      rw [Call.exec, hcall]
      rfl
    have hrun' : Run Fs.Creates junk times s'
        (List.replicate (n + 1) ⟨.create slashA times, ⟨0, []⟩⟩) :=
      .call hrun henters hexec hgranted'
    obtain ⟨ret, hret⟩ : ∃ ret : ℤ, ret = 0 := ⟨0, rfl⟩
    rw [← hret] at hcall
    obtain ⟨g', hent, hlayout, hrep⟩ := rufsCreate_spec h.layout h.rep h.closed hmay hcall hgranted'
    obtain ⟨T', hplaced, hclosed, -⟩ :=
      hent.inTree (.file 0 fun _ => none) h.placed h.closed (fun _ _ => .file) fun _ _ => rfl
    cases hent with
    | noParent hwalk => cases hwalk
    | noRoom => exact absurd hret (by decide)
    | @entry p i entries' hwalk hdir' _ hfree hused =>
      have hp : 0 = p := Option.some.inj hwalk
      rw [← hp] at hdir' hrep hplaced hclosed
      rw [hdir, Option.some.injEq, Node.dir.injEq] at hdir'
      rw [← hdir'] at hrep hplaced hclosed
      have h0i : 0 ≠ i := by
        intro heq
        rw [← heq, hdir] at hfree
        cases hfree
      refine ⟨s', _, T', _, hrun', hgranted', ⟨hlayout, hrep, hclosed, hplaced⟩, ?_, link_parent h0i, ?_⟩
      · have hsub : usedInodes s' ⊆ insert i (usedInodes s) := by
          intro j hj
          obtain ⟨hlt, hj⟩ := Finset.mem_filter.mp hj
          rw [hused, Function.update_apply] at hj
          split at hj
          · next heq => exact Finset.mem_insert.mpr (Or.inl heq)
          · exact Finset.mem_insert_of_mem (Finset.mem_filter.mpr ⟨hlt, hj⟩)
        have hle := (Finset.card_le_card hsub).trans (Finset.card_insert_le i _)
        omega
      · have hbase : basename slashA = [97] := by decide
        rw [List.map_append, hnames, hbase, List.replicate_succ', List.append_assoc]
        rfl

/-- A file created twice. -/
theorem uniqueAlong_fails : ¬ ∀ junk times s log, Run Fs.Creates junk times s log →
    UniqueAlong junk times log ∧ RefusedAlong junk times log := by
  intro hall
  obtain ⟨s, g, T, entries, hrun, -, h, -, hdir, hnames⟩ :=
    exists_repeated (fun _ => 0) ⟨0, 0⟩ 2 (by decide)
  obtain ⟨hunique, -⟩ := hall _ _ _ _ hrun
  have hdistinct := h.uniqueNames_iff.mp (hunique s _ hrun (List.suffix_refl _))
  have hnodup := hdistinct 0 entries hdir
  rw [hnames] at hnodup
  exact absurd hnodup (by decide)

/-- A run with one request, for a path that is not there. -/
theorem Run.uniqueNames_iff_fresh_create : ∃ s,
    Run Fs.Creates (fun _ => 0) ⟨0, 0⟩ s [⟨.create slashA ⟨0, 0⟩, ⟨0, []⟩⟩] ∧
    (UniqueAlong (fun _ => 0) ⟨0, 0⟩ [⟨.create slashA ⟨0, 0⟩, ⟨0, []⟩⟩] ∧
        RefusedAlong (fun _ => 0) ⟨0, 0⟩ [⟨.create slashA ⟨0, 0⟩, ⟨0, []⟩⟩] ↔
      Along (fun s path => ¬ s.Exists path) (fun _ => 0) ⟨0, 0⟩
        [⟨.create slashA ⟨0, 0⟩, ⟨0, []⟩⟩]) ∧
    (UniqueAlong (fun _ => 0) ⟨0, 0⟩ [⟨.create slashA ⟨0, 0⟩, ⟨0, []⟩⟩] ↔
      Along (fun s path => ¬ s.Doubles path) (fun _ => 0) ⟨0, 0⟩
        [⟨.create slashA ⟨0, 0⟩, ⟨0, []⟩⟩]) := by
  obtain ⟨s, g, T, entries, hrun, -⟩ := exists_repeated (fun _ => 0) ⟨0, 0⟩ 1 (by decide)
  exact ⟨s, hrun, Run.uniqueNames_iff_fresh hrun⟩

end Repeated

end UserLevelOs.Files
