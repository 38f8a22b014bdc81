import UserLevelOs.Files.Represents

/-!
# The names of the inodes

Following names from the root leads through the graph; followed without looking at the
disk, `"."` and `".."` only cut and keep what has been read so far.  `Placed` ties the two
together: it says which inode each path from the root ends at.  Inodes without a path are
possible, since an entry whose name is taken is never found.

## Main definitions

* `climb`, `canonical` — the path a list of names stands for.
* `Places`, `Placed` — the inode at the end of a path.
* `Graph.link` — the graph after a name and an inode have been added.
-/

namespace UserLevelOs.Files

open UserLevelOs.Lib

/-! ## Paths without dots -/

/-- Follow one name. -/
def climb (path : List Name) (name : Name) : List Name :=
  if name = dot then path else if name = dotdot then path.dropLast else path ++ [name]

/-- The path that `names` lead to from the root. -/
def canonical (names : List Name) : List Name := names.foldl climb []

theorem climb_dot (path : List Name) : climb path dot = path := if_pos rfl

theorem climb_dotdot (path : List Name) : climb path dotdot = path.dropLast := by
  rw [climb, if_neg (by decide), if_pos rfl]

theorem climb_of_ne (path : List Name) {name : Name} (h : name ≠ dot) (h' : name ≠ dotdot) :
    climb path name = path ++ [name] := by
  rw [climb, if_neg h, if_neg h']

/-! ## Where the inodes are -/

/-- The inode at the end of each path. -/
abbrev Places := List Name → Option ℕ

/-- `T` says where the inodes of `g` are. -/
structure Placed (g : Graph) (T : Places) : Prop where
  root : T [] = some 0
  node : ∀ {path i}, T path = some i → g i ≠ none
  inj : ∀ {path path' i}, T path = some i → T path' = some i → path = path'
  closed : ∀ {path name}, T (path ++ [name]) ≠ none →
    T path ≠ none ∧ name ≠ dot ∧ name ≠ dotdot
  self : ∀ {path i entries}, T path = some i → g i = some (.dir entries) →
    entries.lookup dot = some i
  parent : ∀ {path i entries}, T path = some i → g i = some (.dir entries) →
    entries.lookup dotdot = T path.dropLast
  child : ∀ {path i entries name}, T path = some i → g i = some (.dir entries) →
    name ≠ dot → name ≠ dotdot → entries.lookup name = T (path ++ [name])
  leaf : ∀ {path i size blocks name}, T path = some i → g i = some (.file size blocks) →
    T (path ++ [name]) = none

namespace Placed

variable {g : Graph} {T : Places} {path : List Name} {i j p : ℕ} {entries : List (Name × ℕ)}
  {name : Name} {names : List Name}

/-- One name in a directory. -/
theorem lookup (h : Placed g T) (hi : T path = some i) (hdir : g i = some (.dir entries))
    (name : Name) : entries.lookup name = T (climb path name) := by
  by_cases hdot : name = dot
  · rw [hdot, climb_dot, h.self hi hdir, hi]
  · by_cases hdotdot : name = dotdot
    · rw [hdotdot, climb_dotdot, h.parent hi hdir]
    · rw [climb_of_ne _ hdot hdotdot, h.child hi hdir hdot hdotdot]

/-- A walk ends where its names lead. -/
theorem walk (h : Placed g T) (hi : T path = some i) (hwalk : g.walk i names = some j) :
    T (names.foldl climb path) = some j := by
  induction names generalizing path i with
  | nil =>
    rw [Graph.walk, Option.some.injEq] at hwalk
    rw [List.foldl_nil, hi, hwalk]
  | cons name names ih =>
    rw [Graph.walk, Option.bind_eq_some_iff] at hwalk
    obtain ⟨k, hfind, hwalk⟩ := hwalk
    rw [List.foldl_cons]
    refine ih ?_ hwalk
    rw [Graph.find] at hfind
    split at hfind
    · next hdir => rw [← h.lookup hi hdir, hfind]
    · cases hfind

theorem walk_root (h : Placed g T) (hwalk : g.walk 0 names = some j) :
    T (canonical names) = some j := h.walk h.root hwalk

end Placed

/-! ## Adding a name -/

/-- Directory `p` gets one more entry, and the inode it names becomes a node. -/
def Graph.link (g : Graph) (p : ℕ) (entries : List (Name × ℕ)) (name : Name) (i : ℕ) (n : Node) :
    Graph :=
  (g.set p (.dir (entries ++ [(name, i)]))).set i n

/-- A node that was just made. -/
inductive NewNode (i p : ℕ) : Node → Prop where
  | dir : NewNode i p (.dir [(dot, i), (dotdot, p)])
  | file : NewNode i p (.file 0 fun _ => none)

section Link

variable {g : Graph} {T : Places} {path : List Name} {i p : ℕ} {entries : List (Name × ℕ)}
  {name : Name} {n : Node}

theorem link_new : g.link p entries name i n i = some n := Graph.set_same _ _ _

theorem link_parent (h : p ≠ i) : g.link p entries name i n p = some (.dir (entries ++ [(name, i)])) := by
  rw [Graph.link, Graph.set_of_ne _ _ h, Graph.set_same]

theorem link_other {j : ℕ} (h : j ≠ i) (h' : j ≠ p) : g.link p entries name i n j = g j := by
  rw [Graph.link, Graph.set_of_ne _ _ h, Graph.set_of_ne _ _ h']

theorem Graph.set_ne_none {j : ℕ} (h : g j ≠ none) : g.set i n j ≠ none := by
  by_cases hji : j = i
  · rw [hji, Graph.set_same]
    exact Option.some_ne_none _
  · rw [Graph.set_of_ne _ _ hji]
    exact h

theorem link_ne_none {j : ℕ} (hj : g j ≠ none) : g.link p entries name i n j ≠ none :=
  Graph.set_ne_none (Graph.set_ne_none hj)

theorem link_dir_cases {j : ℕ} {entries' : List (Name × ℕ)} (hpi : p ≠ i) (hji : j ≠ i)
    (hd : g.link p entries name i n j = some (.dir entries')) :
    j = p ∧ entries' = entries ++ [(name, i)] ∨ j ≠ p ∧ g j = some (.dir entries') := by
  by_cases hjp : j = p
  · rw [hjp, link_parent hpi, Option.some.injEq, Node.dir.injEq] at hd
    exact Or.inl ⟨hjp, hd.symm⟩
  · rw [link_other hji hjp] at hd
    exact Or.inr ⟨hjp, hd⟩

theorem link_file {j size : ℕ} {blocks : ℕ → Option Bytes} (hpi : p ≠ i) (hji : j ≠ i)
    (hf : g.link p entries name i n j = some (.file size blocks)) :
    j ≠ p ∧ g j = some (.file size blocks) := by
  have hjp : j ≠ p := by
    rintro rfl
    rw [link_parent hpi] at hf
    cases hf
  rw [link_other hji hjp] at hf
  exact ⟨hjp, hf⟩

theorem ne_of_free (hp : g p = some (.dir entries)) (hfree : g i = none) : p ≠ i := by
  rintro rfl
  rw [hfree] at hp
  cases hp

theorem NewNode.dir_eq {entries' : List (Name × ℕ)} (hn : NewNode i p n)
    (hd : g.link p entries name i n i = some (.dir entries')) :
    entries' = [(dot, i), (dotdot, p)] := by
  rw [link_new, Option.some.injEq] at hd
  subst hd
  cases hn
  rfl

theorem lookup_append_single (entries : List (Name × ℕ)) (name name' : Name) (i : ℕ) :
    (entries ++ [(name, i)]).lookup name' =
      (entries.lookup name').or (if name' = name then some i else none) := by
  rw [List.lookup_append]
  congr 1
  by_cases h : name' = name
  · simp [h]
  · have hbeq : (name' == name) = false := beq_eq_false_iff_ne.mpr h
    simp [List.lookup_cons, h, hbeq]

/-- A node that replaces nothing, or keeps the names of what it replaces, changes no
place. -/
theorem Placed.congr {g' : Graph} (h : Placed g T)
    (hnode : ∀ path i, T path = some i → g' i ≠ none)
    (hdir : ∀ path i entries, T path = some i → g' i = some (.dir entries) →
      ∃ entries', g i = some (.dir entries') ∧ ∀ name, entries.lookup name = entries'.lookup name)
    (hfile : ∀ path i size blocks, T path = some i → g' i = some (.file size blocks) →
      ∃ size blocks, g i = some (.file size blocks)) : Placed g' T where
  root := h.root
  node hi := hnode _ _ hi
  inj := h.inj
  closed := h.closed
  self hi hd := by
    obtain ⟨entries', hd', hlookup⟩ := hdir _ _ _ hi hd
    rw [hlookup, h.self hi hd']
  parent hi hd := by
    obtain ⟨entries', hd', hlookup⟩ := hdir _ _ _ hi hd
    rw [hlookup, h.parent hi hd']
  child hi hd hdot hdotdot := by
    obtain ⟨entries', hd', hlookup⟩ := hdir _ _ _ hi hd
    rw [hlookup, h.child hi hd' hdot hdotdot]
  leaf hi hf := by
    obtain ⟨size', blocks', hf'⟩ := hfile _ _ _ _ hi hf
    exact h.leaf hi hf'

/-- An entry whose name is taken is never found. -/
theorem Placed.shadow (h : Placed g T) (hp : g p = some (.dir entries)) (hfree : g i = none)
    (htaken : entries.lookup name ≠ none) : Placed (g.link p entries name i n) T := by
  have hpi := ne_of_free hp hfree
  have hne (path : List Name) (j : ℕ) (hj : T path = some j) : j ≠ i := by
    rintro rfl
    exact h.node hj hfree
  have hlookup (name' : Name) :
      (entries ++ [(name, i)]).lookup name' = entries.lookup name' := by
    rw [lookup_append_single]
    by_cases hname : name' = name
    · obtain ⟨j, hj⟩ := Option.ne_none_iff_exists'.mp htaken
      rw [hname, hj, Option.some_or]
    · rw [if_neg hname, Option.or_none]
  refine h.congr ?_ ?_ ?_
  · intro path j hj
    exact link_ne_none (h.node hj)
  · intro path j entries' hj hd
    rcases link_dir_cases hpi (hne path j hj) hd with ⟨rfl, rfl⟩ | ⟨-, hd⟩
    · exact ⟨entries, hp, hlookup⟩
    · exact ⟨entries', hd, fun _ => rfl⟩
  · intro path j size blocks hj hf
    exact ⟨size, blocks, (link_file hpi (hne path j hj) hf).2⟩

/-- `"."` and `".."` are never new. -/
theorem Placed.ne_dots (h : Placed g T) (hpath : T path = some p) (hp : g p = some (.dir entries))
    (hnew : entries.lookup name = none) : name ≠ dot ∧ name ≠ dotdot := by
  constructor
  · intro heq
    rw [heq, h.self hpath hp] at hnew
    cases hnew
  · intro heq
    rw [heq, h.parent hpath hp] at hnew
    by_cases hnil : path = []
    · rw [hnil, List.dropLast_nil, h.root] at hnew
      cases hnew
    · have hsplit := List.dropLast_append_getLast hnil
      have hne : T (path.dropLast ++ [path.getLast hnil]) ≠ none := by
        rw [hsplit, hpath]
        exact Option.some_ne_none _
      exact (h.closed hne).1 hnew

/-- Nothing lies behind a path that leads nowhere. -/
theorem Placed.behind (h : Placed g T) (hnone : T path = none) (name : Name) :
    T (path ++ [name]) = none := by
  by_contra hne
  exact (h.closed hne).1 hnone

/-- A path leads to the new inode or where it has always led. -/
theorem Placed.update_cases (h : Placed g T) (hfree : g i = none) {path' : List Name} {j : ℕ}
    (hj : Function.update T path (some i) path' = some j) :
    path' = path ∧ j = i ∨ T path' = some j ∧ j ≠ i := by
  rw [Function.update_apply] at hj
  split at hj
  · next heq => exact Or.inl ⟨heq, (Option.some.inj hj).symm⟩
  · refine Or.inr ⟨hj, ?_⟩
    rintro rfl
    exact h.node hj hfree

/-- The new path is the parent of no path. -/
theorem Placed.update_dropLast (h : Placed g T) (hnone : T path = none) (hnil : path ≠ [])
    {path' : List Name} {j : ℕ} (hj : T path' = some j) :
    Function.update T path (some i) path'.dropLast = T path'.dropLast := by
  refine Function.update_of_ne (fun heq => ?_) _ _
  have hne : path' ≠ [] := by
    rintro rfl
    exact hnil heq.symm
  have hbehind := h.behind hnone (path'.getLast hne)
  rw [← heq, List.dropLast_append_getLast, hj] at hbehind
  cases hbehind

/-- Only the parent has a child on the new path. -/
theorem Placed.update_child (hpath : T path = some p) {path' : List Name} {j : ℕ}
    (hj : T path' = some j) (hjp : j ≠ p) (name' : Name) :
    Function.update T (path ++ [name]) (some i) (path' ++ [name']) = T (path' ++ [name']) := by
  refine Function.update_of_ne (fun heq => ?_) _ _
  rw [(List.append_inj' heq rfl).1, hpath, Option.some.injEq] at hj
  exact hjp hj.symm

/-- An entry with a new name puts the new inode behind its directory. -/
theorem Placed.link (h : Placed g T) (hpath : T path = some p) (hp : g p = some (.dir entries))
    (hfree : g i = none) (hnew : entries.lookup name = none) (hn : NewNode i p n) :
    Placed (g.link p entries name i n) (Function.update T (path ++ [name]) (some i)) := by
  have hpi := ne_of_free hp hfree
  obtain ⟨hdot, hdotdot⟩ := h.ne_dots hpath hp hnew
  have hnone : T (path ++ [name]) = none := by rw [← h.child hpath hp hdot hdotdot, hnew]
  have hnil : path ++ [name] ≠ [] := List.append_ne_nil_of_right_ne_nil path (List.cons_ne_nil name [])
  refine ⟨?_, ?_, ?_, ?_, ?_, ?_, ?_, ?_⟩
  · rw [Function.update_of_ne hnil.symm, h.root]
  · intro path' j hj
    rcases h.update_cases hfree hj with ⟨-, rfl⟩ | ⟨hj, -⟩
    · simp [link_new]
    · exact link_ne_none (h.node hj)
  · intro path' path'' j hj hj'
    rcases h.update_cases hfree hj with ⟨rfl, rfl⟩ | ⟨hj, hji⟩
    · rcases h.update_cases hfree hj' with ⟨rfl, -⟩ | ⟨-, hji⟩
      · rfl
      · exact absurd rfl hji
    · rcases h.update_cases hfree hj' with ⟨-, rfl⟩ | ⟨hj', -⟩
      · exact absurd rfl hji
      · exact h.inj hj hj'
  · intro path' name' hne'
    rw [Function.update_apply] at hne'
    split at hne'
    · next heq =>
      obtain ⟨rfl, hname⟩ := List.append_inj' heq rfl
      rw [List.singleton_inj] at hname
      rw [hname, Function.update_of_ne (by simp), hpath]
      exact ⟨Option.some_ne_none _, hdot, hdotdot⟩
    · obtain ⟨hpre, hname⟩ := h.closed hne'
      refine ⟨?_, hname⟩
      rw [Function.update_apply]
      split
      · exact Option.some_ne_none _
      · exact hpre
  · intro path' j entries' hj hd
    rcases h.update_cases hfree hj with ⟨-, rfl⟩ | ⟨hj, hji⟩
    · rw [hn.dir_eq hd]
      rfl
    · rcases link_dir_cases hpi hji hd with ⟨rfl, rfl⟩ | ⟨-, hd⟩
      · rw [lookup_append_single, h.self hpath hp, Option.some_or]
      · exact h.self hj hd
  · intro path' j entries' hj hd
    rcases h.update_cases hfree hj with ⟨rfl, rfl⟩ | ⟨hj, hji⟩
    · rw [hn.dir_eq hd, List.dropLast_concat, Function.update_of_ne (by simp), hpath]
      rfl
    · rw [h.update_dropLast hnone hnil hj]
      rcases link_dir_cases hpi hji hd with ⟨rfl, rfl⟩ | ⟨-, hd⟩
      · rw [lookup_append_single, h.parent hj hp, if_neg (Ne.symm hdotdot), Option.or_none]
      · exact h.parent hj hd
  · intro path' j entries' name' hj hd hdot' hdotdot'
    rcases h.update_cases hfree hj with ⟨rfl, rfl⟩ | ⟨hj, hji⟩
    · rw [hn.dir_eq hd, Function.update_of_ne (by simp), h.behind hnone]
      simp [hdot', hdotdot']
    · rcases link_dir_cases hpi hji hd with ⟨rfl, rfl⟩ | ⟨hjp, hd⟩
      · rw [h.inj hj hpath, lookup_append_single, h.child hpath hp hdot' hdotdot']
        by_cases hname : name' = name
        · rw [hname, Function.update_self, hnone, Option.none_or, if_pos rfl]
        · have hne' : path ++ [name'] ≠ path ++ [name] := by simp [hname]
          rw [Function.update_of_ne hne', if_neg hname, Option.or_none]
      · rw [Placed.update_child hpath hj hjp, h.child hj hd hdot' hdotdot']
  · intro path' j size blocks name' hj hf
    rcases h.update_cases hfree hj with ⟨rfl, rfl⟩ | ⟨hj, hji⟩
    · rw [Function.update_of_ne (by simp), h.behind hnone]
    · obtain ⟨hjp, hf⟩ := link_file hpi hji hf
      rw [Placed.update_child hpath hj hjp, h.leaf hj hf]

/-- Another size and other blocks do not move a file. -/
theorem Placed.setFile {size size' : ℕ} {blocks blocks' : ℕ → Option Bytes} (h : Placed g T)
    (hfile : g i = some (.file size blocks)) : Placed (g.set i (.file size' blocks')) T := by
  refine h.congr ?_ ?_ ?_
  · intro path j hj
    by_cases hji : j = i
    · rw [hji, Graph.set_same]
      exact Option.some_ne_none _
    · rw [Graph.set_of_ne _ _ hji]
      exact h.node hj
  · intro path j entries hj hd
    by_cases hji : j = i
    · rw [hji, Graph.set_same] at hd
      cases hd
    · rw [Graph.set_of_ne _ _ hji] at hd
      exact ⟨entries, hd, fun _ => rfl⟩
  · intro path j size'' blocks'' hj hf
    by_cases hji : j = i
    · exact ⟨size, blocks, hji ▸ hfile⟩
    · rw [Graph.set_of_ne _ _ hji] at hf
      exact ⟨size'', blocks'', hf⟩

end Link

end UserLevelOs.Files
