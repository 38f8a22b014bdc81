import UserLevelOs.Files.Reading

/-!
# The size of a file

`rufs_write` adds the bytes it has written to the size, wherever it has written them.  So the
size is the end of the file for as long as every write starts at the end of the file, and the
first one that does not breaks the two apart.

## Main definitions

* `maxEnd` — where the writes of a log have got to.
* `SizeLaw` — the size is the end of the file, and a read stops there.
* `Fs.Appends` — a write starts at the end of the file.

## Main statements

* `Run.sizeLaw_iff`.
* `sizeLaw_fails` — a file written twice from the start.
-/

namespace UserLevelOs.Files

open UserLevelOs.Lib

/-- Offset plus bytes returned, at most, over the writes to `place` that did not fail. -/
def maxEnd (place : List Name) : List Event → ℕ
  | [] => 0
  | ⟨.write path _ _ offset _, reply⟩ :: log =>
    if canonical (strtokAll path) = place ∧ 0 ≤ reply.ret then
      max (maxEnd place log) (offset + reply.ret.toNat)
    else maxEnd place log
  | _ :: log => maxEnd place log

/-- The size of the file at `place`, in its inode and as `rufs_getattr` reports it, is where
the writes have got to, and a read from before the end stops at the end or sooner if it is
full. -/
def SizeLaw (s : Fs) (log : List Event) (place : List Name) : Prop :=
  ∀ path, canonical (strtokAll path) = place → s.Accesses path →
    ∀ nodei, getNodeByPath s path s.rootDirIno = some nodei →
      Inode.size.get nodei 0 = maxEnd place log ∧
      (∃ attr, rufsGetattr s path = .ok attr ∧ Inode.stSize.get attr 0 = maxEnd place log) ∧
      ∀ n o atime, o < Inode.size.get nodei 0 → ∃ bytes s', rufsRead s path n o atime =
        some (((min n (Inode.size.get nodei 0 - o) : ℕ) : ℤ), bytes, s')

/-- A write to `place` starts at the size of the file, or stores nothing and starts no later. -/
def Fs.Appends (s : Fs) (place : List Name) : Call → Prop
  | .write path _ size offset _ => canonical (strtokAll path) = place →
    ∀ nodei, getNodeByPath s path s.rootDirIno = some nodei →
      offset = Inode.size.get nodei 0 ∨
        bytesStored size offset = 0 ∧ offset ≤ Inode.size.get nodei 0
  | _ => True

/-! ## In the tree -/

namespace Tree

variable {t t' : Tree} {log : List Event} {c : Call} {r : Reply} {place : List Name}

/-- The file at `place` ends where the writes have got to, and has all its blocks. -/
structure Sized (t : Tree) (log : List Event) (place : List Name) : Prop where
  file : ∀ {size blocks}, t place = some (.file size blocks) → size = maxEnd place log ∧
    ∀ p < size, blocks (p / 4096) ≠ none
  blank : (∀ size blocks, t place ≠ some (.file size blocks)) → maxEnd place log = 0
  le : maxEnd place log ≤ 65536

/-- `Fs.Appends`, as a tree has it. -/
def Appends (t : Tree) (place : List Name) : Call → Prop
  | .write path _ size offset _ => t.resolve [] (strtokAll path) = some place →
    ∀ fileSize blocks, t place = some (.file fileSize blocks) →
      offset = fileSize ∨ bytesStored size offset = 0 ∧ offset ≤ fileSize
  | _ => True

theorem Sized.congr {log' : List Event} (h : t.Sized log place) (ht : t' place = t place)
    (hlog : maxEnd place log' = maxEnd place log) : t'.Sized log' place where
  file := by
    rw [ht, hlog]
    exact h.file
  blank := by
    rw [ht, hlog]
    exact h.blank
  le := by
    rw [hlog]
    exact h.le

theorem Enters.sized {path : List UInt8} {item : Item} {ret : ℤ} (h : t.Enters path item ret t')
    (hnew : item = .dir ∨ item = .file 0 fun _ => none) (hsized : t.Sized log place) :
    t'.Sized log place := by
  cases h with
  | noParent => exact hsized
  | noRoom => exact hsized
  | shadowed => exact hsized
  | @entered parent h hdir hfree =>
    by_cases heq : place = climb parent (basename path)
    · rw [← heq] at hfree ⊢
      have hzero := hsized.blank fun size blocks hfile => by rw [hfree] at hfile; cases hfile
      refine ⟨fun hfile => ?_, fun _ => hzero, hsized.le⟩
      rw [Function.update_self, Option.some.injEq] at hfile
      rcases hnew with rfl | rfl
      · cases hfile
      · cases hfile
        exact ⟨hzero.symm, fun p hp => absurd hp (Nat.not_lt_zero p)⟩
    · exact hsized.congr (Function.update_of_ne heq _ _) rfl

/-- Another size and other blocks lead nowhere else. -/
theorem resolve_update_file {size size' : ℕ} {blocks blocks' : ℕ → Option Bytes} {names : List Name}
    (h : t place = some (.file size blocks)) {place₀ : List Name} :
    Tree.resolve (Function.update t place (some (.file size' blocks'))) place₀ names =
      t.resolve place₀ names := by
  induction names generalizing place₀ with
  | nil => rfl
  | cons name names ih =>
    rw [resolve, resolve]
    by_cases hplace₀ : place₀ = place
    · rw [hplace₀, Function.update_self, h]
    · rw [Function.update_of_ne hplace₀]
      split
      · rw [ih]
        by_cases hnext : climb place₀ name = place
        · rw [hnext, Function.update_self, h, Option.bind_some, Option.bind_some]
        · rw [Function.update_of_ne hnext]
      · rfl

/-- One request that appends. -/
theorem Step.sized (h : t.Step c r t') (happ : t.Appends place c) (hsized : t.Sized log place) :
    t'.Sized (⟨c, r⟩ :: log) place := by
  cases h with
  | mkdir h => exact (h.sized (Or.inl rfl) hsized).congr rfl rfl
  | create h => exact (h.sized (Or.inr rfl) hsized).congr rfl rfl
  | readNothing => exact hsized.congr rfl rfl
  | read => exact hsized.congr rfl rfl
  | writeNothing =>
    refine hsized.congr rfl ?_
    rw [maxEnd, if_neg]
    simp [ENOENT]
  | @write path buffer size offset fileSize times blocks blocks' place' h hfile hoff hlen hstores =>
    have hplace' : place' = canonical (strtokAll path) := resolve_eq_foldl h
    by_cases heq : place' = place
    · rw [heq] at h hfile hplace'
      obtain ⟨hsize, hpresent⟩ := hsized.file hfile
      have happ := happ h fileSize blocks hfile
      have hle := hsized.le
      have hstored : bytesStored size offset ≤ 65536 - offset := Nat.min_le_right _ _
      have hlength : (buffer.take (bytesStored size offset)).length = bytesStored size offset :=
        List.length_take_of_le hlen
      have hend : maxEnd place (⟨.write path buffer size offset times,
          ⟨bytesStored size offset, []⟩⟩ :: log) = fileSize + bytesStored size offset := by
        rw [maxEnd, if_pos ⟨hplace'.symm, Int.natCast_nonneg _⟩, Int.toNat_natCast]
        omega
      have hmod : (fileSize + bytesStored size offset) % 2 ^ 32 =
          fileSize + bytesStored size offset := by
        omega
      rw [heq]
      refine ⟨fun hfile' => ?_, fun hnone => ?_, by omega⟩
      · rw [Function.update_self, Option.some.injEq, Item.file.injEq, hmod] at hfile'
        rw [hend, ← hfile'.1, ← hfile'.2]
        refine ⟨rfl, fun p hp => (hstores.present _).mpr ?_⟩
        by_cases hlt : p < fileSize
        · exact Or.inl (hpresent p hlt)
        · exact Or.inr ⟨p, by omega, by omega, rfl⟩
      · exact absurd (Function.update_self _ _ _) (hnone _ _)
    · refine hsized.congr (Function.update_of_ne (Ne.symm heq) _ _) ?_
      rw [maxEnd, if_neg]
      rw [← hplace']
      exact fun hc => heq hc.1

theorem sized_newTree (place : List Name) : newTree.Sized [] place where
  file h := by
    rw [newTree] at h
    split at h <;> cases h
  blank _ := rfl
  le := Nat.zero_le _

end Tree

/-! ## On the disk -/

section Disk

variable {s s' : Fs} {g : Graph} {T : Places} {log : List Event} {place : List Name}
  {path : List UInt8} {nodei : Inode}

/-- What a path that may be read or written names. -/
structure Kept.Names (s : Fs) (g : Graph) (T : Places) (path : List UInt8) (nodei : Inode) (i size : ℕ)
    (blocks : ℕ → Option Bytes) : Prop where
  walk : g.walk 0 (strtokAll path) = some i
  place : T (canonical (strtokAll path)) = some i
  resolve : (treeOf g T).resolve [] (strtokAll path) = some (canonical (strtokAll path))
  file : g i = some (.file size blocks)
  tree : treeOf g T (canonical (strtokAll path)) = some (.file size blocks)
  inode : nodei = s.store.inodes i
  size_eq : Inode.size.get nodei 0 = size

theorem Kept.names (h : Kept s g T) (hc : s.Accesses path)
    (hnode : getNodeByPath s path s.rootDirIno = some nodei) :
    ∃ i size blocks, Kept.Names s g T path nodei i size blocks := by
  have hmay := h.mayAccess hc
  rw [getNodeByPath_eq h.layout h.rep h.closed hmay.string hmay.searches, Option.map_eq_some_iff] at hnode
  obtain ⟨i, hwalk, hinode⟩ := hnode
  obtain ⟨size, blocks, hfile⟩ := hmay.file i hwalk
  obtain ⟨place, hplace, hi⟩ := resolve_of_walk h.placed hwalk
  have hcanonical : place = canonical (strtokAll path) := Tree.resolve_eq_foldl hplace
  rw [hcanonical] at hplace hi
  have hsize := h.rep.node i (h.lt (h.node_ne_none_of_walk hwalk))
  rw [hfile] at hsize
  exact ⟨i, size, blocks, hwalk, hi, hplace, hfile, treeOf_file hi hfile, hinode.symm,
    hinode ▸ hsize.2.2.1⟩

theorem Kept.sizeLaw (h : Kept s g T) (hsized : (treeOf g T).Sized log place) : SizeLaw s log place := by
  intro path hplace hc nodei hnode
  obtain ⟨i, fileSize, blocks, hnames⟩ := h.names hc hnode
  rw [← hplace] at hsized ⊢
  obtain ⟨hsize, hpresent⟩ := hsized.file hnames.tree
  have hle := hsized.le
  refine ⟨by rw [hnames.size_eq, hsize], ?_, fun n o atime ho => ?_⟩
  · refine ⟨Inode.stSize.set nodei 0 (Inode.size.get nodei 0), ?_, ?_⟩
    · rw [rufsGetattr, hnode]
    · rw [Field.get_set_same, hnames.size_eq, hsize]
      exact Nat.mod_eq_of_lt (Nat.lt_of_le_of_lt hle (by decide))
  · rw [hnames.size_eq] at ho ⊢
    obtain ⟨ret, bytes, s', hcall, hret⟩ :=
      rufsRead_total atime n hnode (by omega : o < 65536)
    rcases rufsRead_spec h.layout h.rep h.closed (h.mayAccess hc) hcall with
      ⟨hwalk, -⟩ | ⟨j, size', blocks', hwalk, hfile, -, -, -, hread⟩
    · rw [hnames.walk] at hwalk
      cases hwalk
    · rw [hnames.walk, Option.some.injEq] at hwalk
      rw [← hwalk, hnames.file, Option.some.injEq, Node.file.injEq] at hfile
      rw [← hfile.1, ← hfile.2] at hread
      refine ⟨bytes, s', ?_⟩
      rw [hcall, hread.ret_eq, hread.complete ho (by omega) fun p _ hp => hpresent p hp]

theorem Kept.appends {c : Call} (h : Kept s g T) (hc : s.Allows c) (happ : s.Appends place c) :
    (treeOf g T).Appends place c := by
  cases c with
  | write path buffer size offset times =>
    intro hresolve fileSize blocks hfile
    have hplace : place = canonical (strtokAll path) := Tree.resolve_eq_foldl hresolve
    obtain ⟨i, hi, hwalk⟩ := place_of_resolve h.placed hresolve
    have hmay := h.mayAccess hc.1
    have hnode := getNodeByPath_eq h.layout h.rep h.closed hmay.string hmay.searches
    rw [hwalk, Option.map_some] at hnode
    obtain ⟨j, size', blocks', hnames⟩ := h.names hc.1 hnode
    rw [hplace, hnames.tree, Option.some.injEq, Item.file.injEq] at hfile
    rw [← hfile.1, ← hnames.size_eq]
    exact happ hplace.symm _ hnode
  | _ => exact True.intro

theorem Kept.searchesDirs {i : ℕ} {names place' : List Name} (h : Kept s g T)
    (hnames : ∀ name ∈ names, 0 ∉ name) (hi : T place = some i)
    (hresolve : (treeOf g T).resolve place names = some place') : s.SearchesDirs i names := by
  induction names generalizing place i with
  | nil => exact True.intro
  | cons name names ih =>
    have hne := h.placed.node hi
    rw [Tree.resolve, treeOf_of_place hi] at hresolve
    cases hn : g i with
    | none => exact absurd hn hne
    | some n =>
      rw [hn] at hresolve
      cases n with
      | file size blocks => cases hresolve
      | dir entries =>
        obtain ⟨item, hitem, hresolve⟩ := Option.bind_eq_some_iff.mp hresolve
        refine ⟨(h.isDir_iff hne).mpr ⟨entries, hn⟩, fun j hj => ?_⟩
        rw [dirFind_dir h.rep (h.lt hne) hn (hnames name List.mem_cons_self), h.placed.lookup hi hn] at hj
        exact ih (fun name' hmem => hnames name' (List.mem_cons_of_mem name hmem)) hj hresolve

/-- Whatever the tree says is a file may be read and written. -/
theorem Kept.accesses {size : ℕ} {blocks : ℕ → Option Bytes} (h : Kept s g T) (hpath : 0 ∉ path)
    (hresolve : (treeOf g T).resolve [] (strtokAll path) = some place)
    (hfile : treeOf g T place = some (.file size blocks)) : s.Accesses path := by
  have hnames : ∀ name ∈ strtokAll path, 0 ∉ name := fun name hmem => nul_notMem_of_mem hpath hmem
  have hsearches := h.searchesDirs hnames h.placed.root hresolve
  refine ⟨hpath, h.layout.rootDirIno ▸ hsearches, fun i hi => ?_⟩
  rw [h.walk_eq hnames (h.walkSearches h.root_ne_none hnames hsearches),
    walk_root_eq_resolve h.placed, hresolve, Option.bind_some] at hi
  rw [treeOf_of_place hi, Option.map_eq_some_iff] at hfile
  obtain ⟨n, hn, hitem⟩ := hfile
  cases n with
  | dir entries => cases hitem
  | file size' blocks' =>
    rw [h.isFile_iff (h.placed.node hi)]
    exact ⟨size', blocks', hn⟩

/-- A write that does not append breaks the law. -/
theorem Kept.appends_of_sizeLaw {c : Call} {r : Reply} (h : Kept s g T)
    (hsized : (treeOf g T).Sized log place) (hc : s.Allows c) (hexec : c.exec s = some (r, s'))
    (hgranted : s'.Granted) (hlaw : SizeLaw s' (⟨c, r⟩ :: log) place) : s.Appends place c := by
  cases c with
  | write path buffer size offset times =>
    intro hplace nodei hnode
    obtain ⟨i, fileSize, blocks, hnames⟩ := h.names hc.1 hnode
    obtain ⟨⟨ret, s₁⟩, hcall, hr⟩ := Option.map_eq_some_iff.mp hexec
    cases hr
    have hmay := h.mayAccess hc.1
    rcases rufsWrite_spec h.layout h.rep h.closed hmay hc.2 hcall hgranted with
      ⟨hwalk, -⟩ | ⟨j, size₀, blocks₀, blocks', hwalk, hfile, rfl, hlen, hstores, hlayout, hrep⟩
    · rw [hnames.walk] at hwalk
      cases hwalk
    · rw [hnames.walk, Option.some.injEq] at hwalk
      rw [← hwalk] at hfile hrep
      have hfile' := hfile
      rw [hnames.file, Option.some.injEq, Node.file.injEq] at hfile'
      rw [← hfile'.1] at hrep
      -- the file after the write
      have hkept' : Kept s' _ T :=
        ⟨hlayout, hrep, h.closed.setFile hfile, h.placed.setFile hfile⟩
      have hresolve : (treeOf (g.set i (.file ((fileSize + bytesStored size offset) % 2 ^ 32) blocks'))
          T).resolve [] (strtokAll path) = some (canonical (strtokAll path)) := by
        rw [treeOf_setFile h.placed hnames.place, Tree.resolve_update_file hnames.tree, hnames.resolve]
      have hc' := hkept'.accesses hmay.string hresolve
        (treeOf_file hnames.place (Graph.set_same _ _ _))
      have hmay' := hkept'.mayAccess hc'
      have hnode' := getNodeByPath_eq hkept'.layout hkept'.rep hkept'.closed hmay'.string hmay'.searches
      rw [walk_root_eq_resolve hkept'.placed, hresolve, Option.bind_some, hnames.place,
        Option.map_some] at hnode'
      have hsize' := hrep.node i (h.lt (h.node_ne_none_of_walk hnames.walk))
      rw [Graph.set_same] at hsize'
      obtain ⟨hlaw, -⟩ := hlaw path hplace hc' _ hnode'
      have hstored : bytesStored size offset ≤ 65536 - offset := Nat.min_le_right _ _
      have hoff := hc.2
      rw [← hplace] at hsized
      obtain ⟨hsize, -⟩ := hsized.file hnames.tree
      have hle := hsized.le
      rw [hsize'.2.2.1, maxEnd, if_pos ⟨hplace, Int.natCast_nonneg _⟩, Int.toNat_natCast, ← hplace,
        ← hsize] at hlaw
      rw [hnames.size_eq]
      omega
  | _ => exact True.intro

end Disk

/-! ## Along a run -/

section Run

variable {allows : Fs → Call → Prop} {junk : Bytes} {times : Times} {s s' : Fs} {log : List Event}
  {place : List Name}

/-- The log of a run determines its state. -/
theorem Run.unique (hrun : Run allows junk times s log) (hrun' : Run allows junk times s' log) :
    s = s' := by
  induction hrun generalizing s' with
  | made h =>
    cases hrun' with
    | made h' => exact Option.some.inj (h.symm.trans h')
  | call _ _ hexec _ ih =>
    cases hrun' with
    | call hrun' _ hexec' _ =>
      rw [← ih hrun', hexec, Option.some.injEq, Prod.mk.injEq] at hexec'
      exact hexec'.2

/-- Every write to `place` appends. -/
def AppendsAlong (junk : Bytes) (times : Times) (place : List Name) (log : List Event) : Prop :=
  ∀ s₀ log₀ c r, Run Fs.Allows junk times s₀ log₀ → ⟨c, r⟩ :: log₀ <:+ log → s₀.Appends place c

theorem Run.sized (hrun : Run Fs.Allows junk times s log) (happ : AppendsAlong junk times place log) :
    ∃ g T, Kept s g T ∧ (treeOf g T).Sized log place := by
  induction hrun with
  | made h =>
    refine ⟨_, _, (made_of_rufsMkfs h).kept, ?_⟩
    rw [treeOf_root]
    exact Tree.sized_newTree place
  | @call s s' log c r hrun hc hexec hgranted ih =>
    have hsuffix : log <:+ ⟨c, r⟩ :: log := List.suffix_cons _ _
    obtain ⟨g, T, hkept, hsized⟩ :=
      ih fun s₀ log₀ c₀ r₀ hrun₀ hsub => happ s₀ log₀ c₀ r₀ hrun₀ (hsub.trans hsuffix)
    obtain ⟨g', T', hkept', hstep⟩ := hkept.step hc hexec hgranted
    have happends := hkept.appends hc (happ s log c r hrun (List.suffix_refl _))
    exact ⟨g', T', hkept', hstep.sized happends hsized⟩

/-- The size law holds from the start to the end of a run if and only if every write to the
file starts at its size, or stores nothing and starts no later. -/
theorem Run.sizeLaw_iff (hrun : Run Fs.Allows junk times s log) (place : List Name) :
    (∀ s₀ log₀, Run Fs.Allows junk times s₀ log₀ → log₀ <:+ log → SizeLaw s₀ log₀ place) ↔
      ∀ s₀ log₀ c r, Run Fs.Allows junk times s₀ log₀ → ⟨c, r⟩ :: log₀ <:+ log →
        s₀.Appends place c := by
  constructor
  · intro hlaw
    induction hrun with
    | made =>
      intro s₀ log₀ c r _ hsub
      exact absurd (List.suffix_nil.mp hsub) (List.cons_ne_nil _ _)
    | @call s s' log c r hrun hc hexec hgranted ih =>
      have happ : AppendsAlong junk times place log :=
        ih fun s₀ log₀ hrun₀ hsub => hlaw s₀ log₀ hrun₀ (hsub.trans (List.suffix_cons _ _))
      intro s₀ log₀ c₀ r₀ hrun₀ hsub
      rcases List.suffix_cons_iff.mp hsub with heq | hsub
      · rw [List.cons.injEq, Event.mk.injEq] at heq
        obtain ⟨⟨rfl, rfl⟩, rfl⟩ := heq
        obtain ⟨g, T, hkept, hsized⟩ := hrun.sized happ
        rw [← hrun.unique hrun₀]
        exact hkept.appends_of_sizeLaw hsized hc hexec hgranted
          (hlaw s' _ (.call hrun hc hexec hgranted) (List.suffix_refl _))
      · exact happ s₀ log₀ c₀ r₀ hrun₀ hsub
  · intro happ s₀ log₀ hrun₀ hsub
    have happ₀ : AppendsAlong junk times place log₀ :=
      fun s₁ log₁ c₁ r₁ hrun₁ hsub₁ => happ s₁ log₁ c₁ r₁ hrun₁ (hsub₁.trans hsub)
    obtain ⟨g, T, hkept, hsized⟩ := hrun₀.sized happ₀
    exact hkept.sizeLaw hsized

/-- A run with one write, at the start of an empty file. -/
theorem Run.sizeLaw_iff_append : ∃ s,
    Run Fs.Allows (fun _ => 0) ⟨0, 0⟩ s
      [⟨.write slashA [7, 8, 9] 3 0 ⟨0, 0⟩, ⟨3, []⟩⟩, ⟨.create slashA ⟨0, 0⟩, ⟨0, []⟩⟩] ∧
    ((∀ s₀ log₀, Run Fs.Allows (fun _ => 0) ⟨0, 0⟩ s₀ log₀ →
        log₀ <:+ [⟨.write slashA [7, 8, 9] 3 0 ⟨0, 0⟩, ⟨3, []⟩⟩,
          ⟨.create slashA ⟨0, 0⟩, ⟨0, []⟩⟩] → SizeLaw s₀ log₀ [[97]]) ↔
      ∀ s₀ log₀ c r, Run Fs.Allows (fun _ => 0) ⟨0, 0⟩ s₀ log₀ →
        ⟨c, r⟩ :: log₀ <:+ [⟨.write slashA [7, 8, 9] 3 0 ⟨0, 0⟩, ⟨3, []⟩⟩,
          ⟨.create slashA ⟨0, 0⟩, ⟨0, []⟩⟩] → s₀.Appends [[97]] c) := by
  obtain ⟨s₁, i, hfile⟩ := exists_file (fun _ => 0) ⟨0, 0⟩
  obtain ⟨s, blocks, hfile, -⟩ := hfile.write (by decide : 0 < 65536) (by decide : 0 < 3) (by decide)
    (by decide : 3 ≤ ([7, 8, 9] : List UInt8).length)
  exact ⟨s, hfile.run, Run.sizeLaw_iff hfile.run [[97]]⟩

/-- Ten bytes written to the start of a file, and ten bytes written over them. -/
theorem sizeLaw_fails : ∃ s,
    Run Fs.Allows (fun _ => 0) ⟨0, 0⟩ s
      [⟨.write slashA [0, 1, 2, 3, 4, 5, 6, 7, 8, 9] 10 0 ⟨0, 0⟩, ⟨10, []⟩⟩,
        ⟨.write slashA [0, 1, 2, 3, 4, 5, 6, 7, 8, 9] 10 0 ⟨0, 0⟩, ⟨10, []⟩⟩,
        ⟨.create slashA ⟨0, 0⟩, ⟨0, []⟩⟩] ∧
    ¬ SizeLaw s
      [⟨.write slashA [0, 1, 2, 3, 4, 5, 6, 7, 8, 9] 10 0 ⟨0, 0⟩, ⟨10, []⟩⟩,
        ⟨.write slashA [0, 1, 2, 3, 4, 5, 6, 7, 8, 9] 10 0 ⟨0, 0⟩, ⟨10, []⟩⟩,
        ⟨.create slashA ⟨0, 0⟩, ⟨0, []⟩⟩] [[97]] := by
  have hlen : 10 ≤ ([0, 1, 2, 3, 4, 5, 6, 7, 8, 9] : List UInt8).length := by decide
  obtain ⟨s₁, i, hfile⟩ := exists_file (fun _ => 0) ⟨0, 0⟩
  obtain ⟨s₂, blocks₂, hfile, -⟩ := hfile.write (by decide : 0 < 65536) (by decide : 0 < 10) (by decide)
    hlen
  obtain ⟨s, blocks, hfile, -⟩ := hfile.write (by decide : 0 < 65536) (by decide : 0 < 10) (by decide)
    hlen
  refine ⟨s, hfile.run, fun hlaw => ?_⟩
  obtain ⟨hlaw, -⟩ := hlaw slashA (by decide) hfile.accesses _ hfile.getNodeByPath_eq
  have hsize := hfile.kept.rep.node i (hfile.kept.lt (hfile.kept.node_ne_none_of_walk hfile.walk))
  rw [fileGraph, link_new] at hsize
  rw [hsize.2.2.1] at hlaw
  exact absurd hlaw (by decide)

end Run

end UserLevelOs.Files
