import UserLevelOs.Files.Requests
import UserLevelOs.Files.Mkfs

/-!
# The tree of files

What a file system is for: names lead to directories and files, and a file is a size and
its blocks.  There are no inodes here.  `treeOf` forgets the numbers of a graph, and
`Tree.Step` says what each call does to a tree.

## Main definitions

* `Item`, `Tree`, `Tree.resolve` — the tree, and following names through it.
* `Tree.Step` — the calls.
* `treeOf` — the tree of a graph.

## Main statements

* `walk_eq_resolve` — walking through the graph is following names through the tree.
* `Entered.inTree` — entering a name in the graph enters it in the tree.
-/

namespace UserLevelOs.Files

open UserLevelOs.Lib

/-! ## Trees -/

/-- What a path names. -/
inductive Item where
  | dir
  | file (size : ℕ) (blocks : ℕ → Option Bytes)

/-- The items by path from the root. -/
abbrev Tree := List Name → Option Item

/-- The `type` field of the inode. -/
def Item.type : Item → ℕ
  | .dir => DIRECTORY
  | .file _ _ => FILE

namespace Tree

/-- Follow names from `place` on.  Each of them is looked up in a directory. -/
def resolve (t : Tree) : List Name → List Name → Option (List Name)
  | place, [] => some place
  | place, name :: names =>
    match t place with
    | some .dir => (t (climb place name)).bind fun _ => resolve t (climb place name) names
    | _ => none

theorem resolve_eq_foldl {t : Tree} {place place' names : List Name}
    (h : t.resolve place names = some place') : place' = names.foldl climb place := by
  induction names generalizing place with
  | nil => exact (Option.some.inj h).symm
  | cons name names ih =>
    rw [resolve] at h
    split at h
    · obtain ⟨_, -, h⟩ := Option.bind_eq_some_iff.mp h
      exact ih h
    · cases h

theorem resolve_ne_none {t : Tree} {place place' names : List Name} (hplace : t place ≠ none)
    (h : t.resolve place names = some place') : t place' ≠ none := by
  induction names generalizing place with
  | nil =>
    rw [← Option.some.inj h]
    exact hplace
  | cons name names ih =>
    rw [resolve] at h
    split at h
    · obtain ⟨item, hitem, h⟩ := Option.bind_eq_some_iff.mp h
      exact ih (by rw [hitem]; exact Option.some_ne_none _) h
    · cases h

/-- Following more names. -/
theorem resolve_append {t : Tree} {place names names' : List Name} :
    t.resolve place (names ++ names') =
      (t.resolve place names).bind fun place' => t.resolve place' names' := by
  induction names generalizing place with
  | nil => rfl
  | cons name names ih =>
    rw [List.cons_append, resolve, resolve]
    split
    · cases t (climb place name) with
      | none => rfl
      | some item => exact ih
    · rfl

/-- Entering a name: there is no parent, no room, or the name leads to the new item, unless
it led somewhere before. -/
inductive Enters (t : Tree) (path : List UInt8) (item : Item) : ℤ → Tree → Prop where
  | noParent (h : t.resolve [] (parentNames path) = none) : Enters t path item (-ENOENT) t
  | noRoom {parent : List Name} (h : t.resolve [] (parentNames path) = some parent) :
      Enters t path item (-EFBIG) t
  | shadowed {parent : List Name} (h : t.resolve [] (parentNames path) = some parent)
      (hdir : t parent = some .dir) (htaken : t (climb parent (basename path)) ≠ none) : Enters t path item 0 t
  | entered {parent : List Name} (h : t.resolve [] (parentNames path) = some parent)
      (hdir : t parent = some .dir) (hfree : t (climb parent (basename path)) = none) :
      Enters t path item 0 (Function.update t (climb parent (basename path)) (some item))

/-- What a request does. -/
inductive Step (t : Tree) : Call → Reply → Tree → Prop where
  | mkdir {path : List UInt8} {times : Times} {ret : ℤ} {t' : Tree} (h : Enters t path .dir ret t') :
      Step t (.mkdir path times) ⟨ret, []⟩ t'
  | create {path : List UInt8} {times : Times} {ret : ℤ} {t' : Tree}
      (h : Enters t path (.file 0 fun _ => none) ret t') : Step t (.create path times) ⟨ret, []⟩ t'
  | readNothing {path : List UInt8} {size offset atime : ℕ}
      (h : t.resolve [] (strtokAll path) = none) :
      Step t (.read path size offset atime) ⟨-ENOENT, []⟩ t
  | read {path : List UInt8} {size offset atime fileSize : ℕ} {blocks : ℕ → Option Bytes}
      {place : List Name} {ret : ℤ} {bytes : List UInt8}
      (h : t.resolve [] (strtokAll path) = some place)
      (hfile : t place = some (.file fileSize blocks))
      (hread : ReadsFile fileSize blocks size offset ret bytes) :
      Step t (.read path size offset atime) ⟨ret, bytes⟩ t
  | writeNothing {path buffer : List UInt8} {size offset : ℕ} {times : Times}
      (h : t.resolve [] (strtokAll path) = none) :
      Step t (.write path buffer size offset times) ⟨-ENOENT, []⟩ t
  | write {path buffer : List UInt8} {size offset fileSize : ℕ} {times : Times}
      {blocks blocks' : ℕ → Option Bytes} {place : List Name}
      (h : t.resolve [] (strtokAll path) = some place)
      (hfile : t place = some (.file fileSize blocks)) (hoff : offset < 65536)
      (hlen : bytesStored size offset ≤ buffer.length)
      (hstores : Stores blocks blocks' offset (buffer.take (bytesStored size offset))) :
      Step t (.write path buffer size offset times) ⟨bytesStored size offset, []⟩
        (Function.update t place
          (some (.file ((fileSize + bytesStored size offset) % 2 ^ 32) blocks')))

end Tree

/-! ## The tree of a graph -/

def Node.item : Node → Item
  | .dir _ => .dir
  | .file size blocks => .file size blocks

/-- The tree of a graph whose inodes are at the places `T`. -/
def treeOf (g : Graph) (T : Places) : Tree := fun place => (T place).bind fun i => (g i).map Node.item

section TreeOf

variable {g : Graph} {T : Places} {place names : List Name} {i : ℕ}

theorem treeOf_of_place (hi : T place = some i) : treeOf g T place = (g i).map Node.item := by
  rw [treeOf, hi, Option.bind_some]

theorem treeOf_of_none (h : T place = none) : treeOf g T place = none := by
  rw [treeOf, h, Option.bind_none]

theorem treeOf_eq_none_iff (h : Placed g T) : treeOf g T place = none ↔ T place = none := by
  constructor
  · intro hnone
    by_contra hne
    obtain ⟨i, hi⟩ := Option.ne_none_iff_exists'.mp hne
    rw [treeOf_of_place hi, Option.map_eq_none_iff] at hnone
    exact h.node hi hnone
  · exact treeOf_of_none

theorem treeOf_dir {entries : List (Name × ℕ)} (hi : T place = some i)
    (hdir : g i = some (.dir entries)) : treeOf g T place = some .dir := by
  rw [treeOf_of_place hi, hdir]
  rfl

theorem treeOf_file {size : ℕ} {blocks : ℕ → Option Bytes} (hi : T place = some i)
    (hfile : g i = some (.file size blocks)) : treeOf g T place = some (.file size blocks) := by
  rw [treeOf_of_place hi, hfile]
  rfl

/-- Walking through the graph is following names through its tree. -/
theorem walk_eq_resolve (h : Placed g T) (hi : T place = some i) :
    g.walk i names = ((treeOf g T).resolve place names).bind T := by
  induction names generalizing place i with
  | nil => rw [Graph.walk, Tree.resolve, Option.bind_some, hi]
  | cons name names ih =>
    rw [Graph.walk, Tree.resolve, Graph.find]
    cases hn : g i with
    | none => exact absurd hn (h.node hi)
    | some n =>
      cases n with
      | dir entries =>
        rw [treeOf_dir hi hn]
        dsimp only
        rw [h.lookup hi hn]
        cases hj : T (climb place name) with
        | none => rw [treeOf_of_none hj, Option.bind_none, Option.bind_none, Option.bind_none]
        | some j =>
          obtain ⟨n, hn⟩ := Option.ne_none_iff_exists'.mp (h.node hj)
          rw [treeOf_of_place hj, hn, Option.bind_some, Option.map_some, Option.bind_some]
          exact ih hj
      | file size blocks =>
        rw [treeOf_file hi hn]
        rfl

theorem walk_root_eq_resolve (h : Placed g T) :
    g.walk 0 names = ((treeOf g T).resolve [] names).bind T := walk_eq_resolve h h.root

theorem place_of_resolve (h : Placed g T) (hr : (treeOf g T).resolve [] names = some place) :
    ∃ i, T place = some i ∧ g.walk 0 names = some i := by
  have hroot : treeOf g T [] ≠ none := by
    rw [Ne, treeOf_eq_none_iff h, h.root]
    exact Option.some_ne_none _
  have hne := Tree.resolve_ne_none hroot hr
  rw [Ne, treeOf_eq_none_iff h] at hne
  obtain ⟨i, hi⟩ := Option.ne_none_iff_exists'.mp hne
  exact ⟨i, hi, by rw [walk_root_eq_resolve h, hr, Option.bind_some, hi]⟩

theorem resolve_of_walk (h : Placed g T) (hwalk : g.walk 0 names = some i) :
    ∃ place, (treeOf g T).resolve [] names = some place ∧ T place = some i := by
  rw [walk_root_eq_resolve h] at hwalk
  exact Option.bind_eq_some_iff.mp hwalk

theorem resolve_of_walk_none (h : Placed g T) (hwalk : g.walk 0 names = none) :
    (treeOf g T).resolve [] names = none := by
  by_contra hne
  obtain ⟨place, hplace⟩ := Option.ne_none_iff_exists'.mp hne
  obtain ⟨i, -, hi⟩ := place_of_resolve h hplace
  rw [hwalk] at hi
  cases hi

/-! ## Entering a name -/

variable {p : ℕ} {entries : List (Name × ℕ)} {name : Name} {n : Node}

/-- A name that leads somewhere keeps leading there. -/
theorem treeOf_shadow (h : Placed g T) (hdir : g p = some (.dir entries)) (hfree : g i = none) :
    treeOf (g.link p entries name i n) T = treeOf g T := by
  have hpi := ne_of_free hdir hfree
  funext place
  cases hj : T place with
  | none => rw [treeOf_of_none hj, treeOf_of_none hj]
  | some j =>
    have hji : j ≠ i := fun heq => h.node hj (heq ▸ hfree)
    rw [treeOf_of_place hj, treeOf_of_place hj]
    by_cases hjp : j = p
    · rw [hjp, link_parent hpi, hdir]
      rfl
    · rw [link_other hji hjp]

/-- A new name leads to the new item. -/
theorem treeOf_link (h : Placed g T) (hdir : g p = some (.dir entries)) (hfree : g i = none) :
    treeOf (g.link p entries name i n) (Function.update T place (some i)) =
      Function.update (treeOf g T) place (some n.item) := by
  have hshadow : treeOf (g.link p entries name i n) T = treeOf g T := treeOf_shadow h hdir hfree
  funext place'
  by_cases hplace : place' = place
  · rw [hplace, Function.update_self, treeOf, Function.update_self, Option.bind_some, link_new,
      Option.map_some]
  · rw [Function.update_of_ne hplace, ← hshadow, treeOf, treeOf, Function.update_of_ne hplace]

/-- What `rufs_mkdir` and `rufs_create` do to the graph they do to its tree. -/
theorem Entered.inTree {path : List UInt8} {s s' : Fs} {node : ℕ → ℕ → Node} {ret : ℤ} {g' : Graph}
    (item : Item) (h : Placed g T) (hc : g.Closed) (hent : Entered g path s s' node ret g')
    (hnode : ∀ i p, NewNode i p (node i p)) (hitem : ∀ i p, (node i p).item = item) :
    ∃ T', Placed g' T' ∧ g'.Closed ∧ (treeOf g T).Enters path item ret (treeOf g' T') := by
  cases hent with
  | noParent hwalk => exact ⟨T, h, hc, .noParent (resolve_of_walk_none h hwalk)⟩
  | noRoom hwalk =>
    obtain ⟨parent, hparent, -⟩ := resolve_of_walk h hwalk
    exact ⟨T, h, hc, .noRoom hparent⟩
  | @entry p i entries hwalk hdir _ hfree =>
    obtain ⟨parent, hparent, hp⟩ := resolve_of_walk h hwalk
    have hclosed : (g.link p entries (basename path) i (node i p)).Closed :=
      hc.link hdir hfree (hnode i p)
    have hlookup := h.lookup hp hdir (basename path)
    by_cases htaken : entries.lookup (basename path) = none
    · have hplaced := h.link hp hdir hfree htaken (hnode i p)
      obtain ⟨hdot, hdotdot⟩ := h.ne_dots hp hdir htaken
      rw [htaken] at hlookup
      have hsplit := climb_of_ne parent hdot hdotdot
      refine ⟨_, hplaced, hclosed, ?_⟩
      rw [treeOf_link h hdir hfree, hitem, ← hsplit]
      exact .entered hparent (treeOf_dir hp hdir) (treeOf_of_none hlookup.symm)
    · refine ⟨T, h.shadow hdir hfree htaken, hclosed, ?_⟩
      rw [treeOf_shadow h hdir hfree]
      refine .shadowed hparent (treeOf_dir hp hdir) ?_
      rw [Ne, treeOf_eq_none_iff h, ← hlookup]
      exact htaken

/-- Another size and other blocks. -/
theorem treeOf_setFile {size' : ℕ} {blocks' : ℕ → Option Bytes} (h : Placed g T)
    (hi : T place = some i) :
    treeOf (g.set i (.file size' blocks')) T =
      Function.update (treeOf g T) place (some (.file size' blocks')) := by
  funext place'
  by_cases hplace : place' = place
  · rw [hplace, Function.update_self, treeOf_of_place hi, Graph.set_same]
    rfl
  · rw [Function.update_of_ne hplace]
    cases hj : T place' with
    | none => rw [treeOf_of_none hj, treeOf_of_none hj]
    | some j =>
      have hji : j ≠ i := fun heq => hplace (h.inj hj (heq ▸ hi))
      rw [treeOf_of_place hj, treeOf_of_place hj, Graph.set_of_ne _ _ hji]

end TreeOf

end UserLevelOs.Files
