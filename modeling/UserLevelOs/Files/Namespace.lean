import UserLevelOs.Files.Blocks

/-!
# The tree a run has built

Directories made and files created on paths that did not exist before: the tree that
`rufs_mkdir` and `rufs_create` report is the tree on the disk, for every way to spell a path,
and a directory lists its children once each.

## Main definitions

* `Fs.Fresh` — requests for paths that do not exist.
* `built` — the tree the successful calls of a log built.
* `StoresTree` — what lookups, listings and failing calls say about a tree.

## Main statements

* `rufsReaddir_dir` — a listing hands over the entries of the directory in order.
* `Run.stores_built`.
-/

namespace UserLevelOs.Files

open UserLevelOs.Lib

/-! ## Listing a directory -/

section Readdir

variable {s : Fs} {g : Graph} {i : ℕ} {entries : List (Name × ℕ)} {path : List UInt8}

theorem blockNames_eq {buf : Bytes} {slots : ℕ → Option (Name × ℕ)}
    (h : ∀ j < 19, SlotHolds buf j (slots j)) (hstored : ∀ j < 19, ∀ e ∈ slots j, Stored e.1) :
    blockNames buf = (List.range 19).filterMap fun j => (slots j).map Prod.fst := by
  rw [blockNames, ← List.filterMap_eq_map', List.filterMap_filter]
  refine List.filterMap_congr fun j hj => ?_
  have hj : j < 19 := List.mem_range.mp hj
  have hslot := h j hj
  cases he : slots j with
  | none =>
    rw [he] at hslot
    have hvalid : Dirent.valid.get buf (slotAddr j) = 0 := hslot
    simp [hvalid]
  | some e =>
    rw [he] at hslot
    obtain ⟨name, ino⟩ := e
    obtain ⟨hvalid, hstr, -⟩ := hslot
    obtain ⟨hnul, hlen⟩ : Stored name := hstored j hj _ he
    have hroom : name.length < BLOCK_SIZE - (slotAddr j + Dirent.name) := by
      simp only [slotAddr, Dirent.name, DIRENT_BYTES, BLOCK_SIZE]
      omega
    rw [if_pos (by simpa using hvalid), Bytes.strAt_eq hstr hnul hroom]
    rfl

theorem fillNames_accept (names done : List Name) :
    fillNames (fun _ _ => true) names done = (0, done ++ names) := by
  induction names generalizing done with
  | nil => simp [fillNames]
  | cons name names ih => simp [fillNames, ih]

/-- A directory lists its entries in order. -/
theorem rufsReaddir_dir (h : Represents s.store g) (hi : i < 1024) (hdir : g i = some (.dir entries))
    (filler : List (List UInt8) → List UInt8 → Bool)
    (hnode : getNodeByPath s path s.rootDirIno = some (s.store.inodes i)) :
    rufsReaddir s filler path = fillNames filler (entries.map Prod.fst) [] := by
  have hnode' := h.node i hi
  rw [hdir] at hnode'
  obtain ⟨-, -, hholds⟩ := hnode'
  rw [rufsReaddir, hnode]
  dsimp only
  refine congrArg (fun names => fillNames filler names []) ?_
  rw [← List.filterMap_eq_map', ← filterMap_slots _ hholds.length_le, ← filterMap_grid _ 16 19]
  refine List.flatMap_congr fun k hk => ?_
  have hk : k < 16 := List.mem_range.mp hk
  by_cases hne : s.store.ptr i k = 0
  · have hlen : ¬ 19 * k < entries.length := fun hlt => (hholds.ptr_iff k hk).mpr hlt hne
    rw [if_neg (by simpa [Store.ptr] using hne), eq_comm, List.filterMap_eq_nil_iff]
    intro j _
    rw [List.getElem?_eq_none (by omega), Option.bind_none]
  · have hread := h.owned.bioRead_ptr hi hk hne
    have hslot := hholds.slot k hk hne
    rw [Store.ptr] at hread hslot
    rw [if_pos (by simpa [Store.ptr] using hne), hread, blockNames_eq hslot fun j _ e he =>
      hholds.stored e (List.mem_of_getElem? he)]
    refine List.filterMap_congr fun j _ => ?_
    rw [Option.map_eq_bind]
    rfl

end Readdir

/-! ## Graphs whose names are distinct -/

namespace Graph

/-- No directory has two entries with one name. -/
def Distinct (g : Graph) : Prop :=
  ∀ i entries, g i = some (.dir entries) → (entries.map Prod.fst).Nodup

/-- No file has a block. -/
def Bare (g : Graph) : Prop :=
  ∀ i size blocks, g i = some (.file size blocks) → ∀ k < 16, blocks k = none

variable {g : Graph} {i p : ℕ} {entries : List (Name × ℕ)} {name : Name} {n : Node}

theorem walk_append (g : Graph) (i : ℕ) (names names' : List Name) :
    g.walk i (names ++ names') = (g.walk i names).bind fun j => g.walk j names' := by
  induction names generalizing i with
  | nil => rfl
  | cons name names ih =>
    rw [List.cons_append, walk, walk]
    cases g.find i name with
    | none => rfl
    | some j => exact ih j

theorem Bare.walkSearches (h : g.Bare) (i : ℕ) (names : List Name) : g.WalkSearches i names := by
  induction names generalizing i with
  | nil => exact True.intro
  | cons name names ih => exact ⟨h i, fun j _ => ih j⟩

theorem nodup_append_single (h : (entries.map Prod.fst).Nodup) (hnew : entries.lookup name = none) :
    ((entries ++ [(name, i)]).map Prod.fst).Nodup := by
  rw [List.map_append, List.map_singleton]
  refine h.append (List.nodup_singleton name) fun name' hmem hname => ?_
  obtain ⟨e, he, hfst⟩ := List.mem_map.mp hmem
  have hne := List.lookup_eq_none_iff.mp hnew e he
  rw [hfst, List.mem_singleton.mp hname] at hne
  simp at hne

theorem Distinct.link (h : g.Distinct) (hdir : g p = some (.dir entries))
    (hnew : entries.lookup name = none) (hpi : p ≠ i) (hn : NewNode i p n) :
    (g.link p entries name i n).Distinct := by
  intro j entries' hj
  by_cases hji : j = i
  · subst hji
    simp [hn.dir_eq hj, dot, dotdot]
  · rcases link_dir_cases hpi hji hj with ⟨rfl, rfl⟩ | ⟨-, hj⟩
    · exact nodup_append_single (h j entries hdir) hnew
    · exact h j entries' hj

theorem Bare.link (h : g.Bare) (hpi : p ≠ i) (hn : NewNode i p n) :
    (g.link p entries name i n).Bare := by
  intro j size blocks hj
  by_cases hji : j = i
  · rw [hji, link_new, Option.some.injEq] at hj
    rw [hj] at hn
    cases hn
    exact fun _ _ => rfl
  · exact h j size blocks (link_file hpi hji hj).2

end Graph

theorem rootGraph_dir {i : ℕ} {n : Node} (h : rootGraph i = some n) : i = 0 ∧ n = newDir 0 0 := by
  have hi : i = 0 := by
    by_contra hne
    rw [rootGraph_of_ne hne] at h
    cases h
  rw [hi, rootGraph_zero, Option.some.injEq] at h
  exact ⟨hi, h.symm⟩

theorem rootGraph_distinct : rootGraph.Distinct := by
  intro i entries h
  obtain ⟨-, hn⟩ := rootGraph_dir h
  cases hn
  decide

theorem rootGraph_bare : rootGraph.Bare := by
  intro i size blocks h
  obtain ⟨-, hn⟩ := rootGraph_dir h
  cases hn

/-! ## Runs on new paths -/

/-- Directories and files made on absolute paths that do not exist. -/
def Fs.Fresh (s : Fs) : Call → Prop
  | .mkdir path _ => s.Enters path ∧ path.head? = some SLASH ∧
    getNodeByPath s path s.rootDirIno = none
  | .create path _ => s.Enters path ∧ path.head? = some SLASH ∧
    getNodeByPath s path s.rootDirIno = none
  | _ => False

/-- The tree the successful calls of a log built. -/
def built : List Event → Tree
  | [] => newTree
  | ⟨.mkdir path _, reply⟩ :: log =>
    if reply.ret = 0 then Function.update (built log) (canonical (strtokAll path)) (some .dir)
    else built log
  | ⟨.create path _, reply⟩ :: log =>
    if reply.ret = 0 then
      Function.update (built log) (canonical (strtokAll path)) (some (.file 0 fun _ => none))
    else built log
  | _ :: log => built log

/-- The disk stores the tree `t`, as the calls see it. -/
structure StoresTree (s : Fs) (t : Tree) : Prop where
  /-- Each item has an inode of its type to itself, and every path to it leads there. -/
  lookup : ∃ inodeAt : List Name → ℕ,
    (∀ place place', t place ≠ none → t place' ≠ none → inodeAt place = inodeAt place' →
      place = place') ∧
    (∀ place item, t place = some item →
      Inode.ino.get (readi s (inodeAt place)) 0 = inodeAt place ∧
      Inode.valid.get (readi s (inodeAt place)) 0 ≠ INVALID ∧
      Inode.type.get (readi s (inodeAt place)) 0 = item.type) ∧
    ∀ path, 0 ∉ path → getNodeByPath s path s.rootDirIno =
      (t.resolve [] (strtokAll path)).map fun place => readi s (inodeAt place)
  /-- A listing hands over `"."`, `".."` and the children, once each. -/
  readdir : ∀ path place, 0 ∉ path → t.resolve [] (strtokAll path) = some place →
    t place = some .dir → ∃ names, rufsReaddir s (fun _ _ => true) path = (0, names) ∧
      names.Nodup ∧ ∀ name, name ∈ names ↔ name = dot ∨ name = dotdot ∨ t (place ++ [name]) ≠ none
  /-- Nothing is made below what is not there. -/
  noParent : ∀ path times, 0 ∉ path → path.head? = some SLASH →
    t.resolve [] (strtokAll path).dropLast = none →
    rufsMkdir s path times = some (-ENOENT, s) ∧ rufsCreate s path times = some (-ENOENT, s)

section Built

variable {s s' : Fs} {g g' : Graph} {T : Places} {t : Tree} {path : List UInt8} {ret : ℤ}

theorem rufsMkdir_noParent (times : Times)
    (h : getNodeByPath s (dirname path) s.rootDirIno = none) :
    rufsMkdir s path times = some (-ENOENT, s) ∧ rufsCreate s path times = some (-ENOENT, s) := by
  have hadd : addToParent s path = some (.inl (-ENOENT), s) := by rw [addToParent, h]
  rw [rufsMkdir, rufsCreate, hadd]
  exact ⟨rfl, rfl⟩

theorem Entered.distinct {node : ℕ → ℕ → Node} (hent : Entered g path s s' node ret g')
    (hd : g.Distinct) (hb : g.Bare) (hnode : ∀ i p, NewNode i p (node i p))
    (hfresh : ∀ p, g.walk 0 (parentNames path) = some p → g.find p (basename path) = none) :
    g'.Distinct ∧ g'.Bare := by
  cases hent with
  | noParent => exact ⟨hd, hb⟩
  | noRoom => exact ⟨hd, hb⟩
  | @entry p i entries hwalk hdir _ hfree =>
    have hpi := ne_of_free hdir hfree
    have hnew := hfresh p hwalk
    rw [Graph.find, hdir] at hnew
    exact ⟨hd.link hdir hnew hpi (hnode i p), hb.link hpi (hnode i p)⟩

theorem Tree.Enters.fresh {t' : Tree} {item : Item} (h : t.Enters path item ret t')
    (habs : path.head? = some SLASH) (hfresh : t.resolve [] (strtokAll path) = none) :
    t' = if ret = 0 then Function.update t (canonical (strtokAll path)) (some item) else t := by
  have hne : strtokAll path ≠ [] := by
    intro hnil
    rw [hnil] at hfresh
    cases hfresh
  have htok := strtokAll_dirname habs hne
  rw [← parentNames] at htok
  cases h with
  | noParent => rfl
  | noRoom => rfl
  | @shadowed parent h hdir htaken =>
    rw [← htok, Tree.resolve_append, h, Option.bind_some, Tree.resolve, hdir] at hfresh
    obtain ⟨item', hitem'⟩ := Option.ne_none_iff_exists'.mp htaken
    dsimp only at hfresh
    rw [hitem', Option.bind_some] at hfresh
    cases hfresh
  | @entered parent h =>
    have hparent := Tree.resolve_eq_foldl h
    rw [if_pos rfl, ← htok, canonical, List.foldl_append, ← hparent]
    rfl

/-- A graph without duplicates that stores the tree. -/
structure Grown (s : Fs) (g : Graph) (T : Places) (t : Tree) : Prop where
  kept : Kept s g T
  tree : treeOf g T = t
  distinct : g.Distinct
  bare : g.Bare

theorem getNodeByPath_grown (h : Grown s g T t) (hpath : 0 ∉ path) :
    getNodeByPath s path s.rootDirIno = ((t.resolve [] (strtokAll path)).bind T).map s.store.inodes := by
  rw [getNodeByPath_eq h.kept.layout h.kept.rep h.kept.closed hpath (h.bare.walkSearches _ _),
    walk_root_eq_resolve h.kept.placed, h.tree]

theorem Grown.resolve_of_none (h : Grown s g T t) (hpath : 0 ∉ path)
    (hnone : getNodeByPath s path s.rootDirIno = none) :
    t.resolve [] (strtokAll path) = none ∧ g.walk 0 (strtokAll path) = none := by
  rw [getNodeByPath_eq h.kept.layout h.kept.rep h.kept.closed hpath (h.bare.walkSearches _ _),
    Option.map_eq_none_iff] at hnone
  refine ⟨?_, hnone⟩
  rw [← h.tree]
  exact resolve_of_walk_none h.kept.placed hnone

/-- The parent of a path that does not exist has no entry with its name. -/
theorem Grown.find_none {p : ℕ} (h : Grown s g T t) (hpath : 0 ∉ path) (habs : path.head? = some SLASH)
    (hnone : getNodeByPath s path s.rootDirIno = none) (hp : g.walk 0 (parentNames path) = some p) :
    g.find p (basename path) = none := by
  obtain ⟨hresolve, hwalk⟩ := h.resolve_of_none hpath hnone
  have hne : strtokAll path ≠ [] := by
    intro hnil
    rw [hnil] at hresolve
    cases hresolve
  have htok := strtokAll_dirname habs hne
  rw [← parentNames] at htok
  rw [← htok, Graph.walk_append, hp, Option.bind_some, Graph.walk] at hwalk
  cases hfind : g.find p (basename path) with
  | none => rfl
  | some j =>
    rw [hfind] at hwalk
    cases hwalk

/-- A new name keeps the entries distinct and builds its item. -/
theorem Grown.enter {node : ℕ → ℕ → Node} (h : Grown s g T t) (item : Item)
    (hent : Entered g path s s' node ret g') (hlayout : s'.Layout) (hrep : Represents s'.store g')
    (hnode : ∀ i p, NewNode i p (node i p)) (hitem : ∀ i p, (node i p).item = item)
    (hpath : 0 ∉ path) (habs : path.head? = some SLASH)
    (hnone : getNodeByPath s path s.rootDirIno = none) :
    ∃ T', Grown s' g' T'
      (if ret = 0 then Function.update t (canonical (strtokAll path)) (some item) else t) := by
  obtain ⟨hresolve, -⟩ := h.resolve_of_none hpath hnone
  obtain ⟨hdistinct, hbare⟩ := hent.distinct h.distinct h.bare hnode
    fun p hp => h.find_none hpath habs hnone hp
  obtain ⟨T', hplaced, hclosed, henters⟩ := hent.inTree item h.kept.placed h.kept.closed hnode hitem
  rw [h.tree] at henters
  exact ⟨T', ⟨hlayout, hrep, hclosed, hplaced⟩, henters.fresh habs hresolve, hdistinct, hbare⟩

/-- What the calls see of a graph that stores a tree. -/
theorem Grown.storesTree (h : Grown s g T t) : StoresTree s t := by
  have hplace (place : List Name) (hne : t place ≠ none) : ∃ i, T place = some i := by
    rw [← h.tree, Ne, treeOf_eq_none_iff h.kept.placed] at hne
    exact Option.ne_none_iff_exists'.mp hne
  have hat (place : List Name) (i : ℕ) (hi : T place = some i) : (T place).getD 0 = i := by
    rw [hi, Option.getD_some]
  refine ⟨⟨fun place => (T place).getD 0, ?_, ?_, ?_⟩, ?_, ?_⟩
  · intro place place' hne hne' heq
    obtain ⟨i, hi⟩ := hplace place hne
    obtain ⟨j, hj⟩ := hplace place' hne'
    have hij : i = j := by simpa [hi, hj] using heq
    exact h.kept.placed.inj hi (hij ▸ hj)
  · intro place item hitem
    obtain ⟨i, hi⟩ := hplace place (by rw [hitem]; exact Option.some_ne_none _)
    have hlt := h.kept.lt (h.kept.placed.node hi)
    have hnode := h.kept.rep.node i hlt
    rw [← h.tree, treeOf_of_place hi, Option.map_eq_some_iff] at hitem
    obtain ⟨n, hn, hitem⟩ := hitem
    dsimp only
    rw [hat place i hi, Fs.readi_eq hlt, h.kept.rep.ino i hlt]
    rw [hn] at hnode
    subst hitem
    cases n with
    | dir entries => exact ⟨rfl, hnode.1, hnode.2.1⟩
    | file size blocks => exact ⟨rfl, hnode.1, hnode.2.1⟩
  · intro path hpath
    rw [getNodeByPath_grown h hpath]
    cases hr : t.resolve [] (strtokAll path) with
    | none => rfl
    | some place =>
      rw [← h.tree] at hr
      obtain ⟨i, hi, -⟩ := place_of_resolve h.kept.placed hr
      rw [Option.bind_some, hi, Option.map_some, Option.map_some]
      dsimp only
      rw [hat place i hi, Fs.readi_eq (h.kept.lt (h.kept.placed.node hi))]
  · intro path place hpath hr hdir
    have hget := getNodeByPath_grown h hpath
    rw [← h.tree] at hr hdir
    obtain ⟨i, hi, -⟩ := place_of_resolve h.kept.placed hr
    rw [← h.tree, hr, Option.bind_some, hi, Option.map_some] at hget
    rw [treeOf_of_place hi, Option.map_eq_some_iff] at hdir
    obtain ⟨n, hn, hitem⟩ := hdir
    cases n with
    | file size blocks => cases hitem
    | dir entries =>
      have hlt := h.kept.lt (h.kept.placed.node hi)
      refine ⟨entries.map Prod.fst, ?_, h.distinct i entries hn, fun name => ?_⟩
      · rw [rufsReaddir_dir h.kept.rep hlt hn _ hget, fillNames_accept, List.nil_append]
      · have hmem : name ∈ entries.map Prod.fst ↔ entries.lookup name ≠ none := by
          rw [Ne, List.lookup_eq_none_iff]
          simp
        rw [hmem, ← h.tree, Ne, Ne, treeOf_eq_none_iff h.kept.placed]
        by_cases hdot : name = dot
        · rw [hdot, h.kept.placed.self hi hn]
          simp
        · by_cases hdotdot : name = dotdot
          · refine iff_of_true (fun hnew => ?_) (Or.inr (Or.inl hdotdot))
            exact (h.kept.placed.ne_dots hi hn hnew).2 hdotdot
          · rw [h.kept.placed.child hi hn hdot hdotdot]
            simp [hdot, hdotdot]
  · intro path times hpath habs hr
    have hne : strtokAll path ≠ [] := by
      intro hnil
      rw [hnil] at hr
      cases hr
    have hparent : (strtokAll path).dropLast = strtokAll (dirname path) := by
      rw [← strtokAll_dirname habs hne, List.dropLast_concat]
    refine rufsMkdir_noParent times ?_
    rw [getNodeByPath_grown h (nul_notMem_dirname hpath), ← hparent, hr]
    rfl

theorem Made.grown (h : Made s) : Grown s rootGraph rootPlaces newTree :=
  ⟨h.kept, treeOf_root, rootGraph_distinct, rootGraph_bare⟩

variable {junk : Bytes} {times : Times} {log : List Event}

/-- A run on new paths stores the tree it has built. -/
theorem Run.grown (hrun : Run Fs.Fresh junk times s log) : ∃ g T, Grown s g T (built log) := by
  induction hrun with
  | made h => exact ⟨_, _, (made_of_rufsMkfs h).grown⟩
  | @call s s' log c r hrun hc hexec hgranted ih =>
    obtain ⟨g, T, h⟩ := ih
    cases c with
    | mkdir path times =>
      obtain ⟨⟨ret, s₁⟩, hcall, hr⟩ := Option.map_eq_some_iff.mp hexec
      cases hr
      obtain ⟨henters, habs, hnone⟩ := hc
      obtain ⟨g', hent, hlayout, hrep⟩ := rufsMkdir_spec h.kept.layout h.kept.rep h.kept.closed
        (h.kept.mayEnter henters) hcall hgranted
      exact ⟨g', h.enter .dir hent hlayout hrep (fun _ _ => .dir) (fun _ _ => rfl) henters.string habs
        hnone⟩
    | create path times =>
      obtain ⟨⟨ret, s₁⟩, hcall, hr⟩ := Option.map_eq_some_iff.mp hexec
      cases hr
      obtain ⟨henters, habs, hnone⟩ := hc
      obtain ⟨g', hent, hlayout, hrep⟩ := rufsCreate_spec h.kept.layout h.kept.rep h.kept.closed
        (h.kept.mayEnter henters) hcall hgranted
      exact ⟨g', h.enter (.file 0 fun _ => none) hent hlayout hrep (fun _ _ => .file) (fun _ _ => rfl)
        henters.string habs hnone⟩
    | read => exact hc.elim
    | write => exact hc.elim

theorem Run.stores_built (hrun : Run Fs.Fresh junk times s log) : StoresTree s (built log) := by
  obtain ⟨g, T, h⟩ := hrun.grown
  exact h.storesTree

theorem Run.stores_built_create : ∃ s,
    Run Fs.Fresh (fun _ => 0) ⟨0, 0⟩ s [⟨.create slashA ⟨0, 0⟩, ⟨0, []⟩⟩] ∧
    StoresTree s (built [⟨.create slashA ⟨0, 0⟩, ⟨0, []⟩⟩]) := by
  obtain ⟨s, i, hfile⟩ := exists_file (fun _ => 0) ⟨0, 0⟩
  cases hfile.run with
  | call hmade henters hexec hgranted =>
    cases hmade with
    | made h =>
      have hnone := getNodeByPath_grown (made_of_rufsMkfs h).grown (by decide : 0 ∉ slashA)
      have hrun : Run Fs.Fresh (fun _ => 0) ⟨0, 0⟩ s [⟨.create slashA ⟨0, 0⟩, ⟨0, []⟩⟩] :=
        .call (.made h) ⟨henters, rfl, hnone⟩ hexec hgranted
      exact ⟨s, hrun, Run.stores_built hrun⟩

end Built

end UserLevelOs.Files
