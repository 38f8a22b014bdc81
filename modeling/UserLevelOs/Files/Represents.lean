import UserLevelOs.Files.Ownership
import UserLevelOs.Lib.Grid

/-!
# The graph on the disk

What the tables mean: every inode number stands for nothing, for a directory with its
entries in order, or for a file with its blocks.  Names and numbers only: paths come
later.

## Main definitions

* `Node`, `Graph` — the meaning of the inodes.
* `Graph.find`, `Graph.walk` — looking up one name, and several.
* `SlotHolds`, `DirHolds`, `NodeHolds` — how a node is stored.
* `Represents` — the tables store a graph.
-/

namespace UserLevelOs.Files

open UserLevelOs.Lib

/-! ## Graphs -/

/-- The bytes of a name, without the `NUL`. -/
abbrev Name := List UInt8

/-- What an inode stands for.  The size of a file is the field of its inode, whatever blocks
there are. -/
inductive Node where
  | dir (entries : List (Name × ℕ))
  | file (size : ℕ) (blocks : ℕ → Option Bytes)

/-- The nodes by inode number. -/
abbrev Graph := ℕ → Option Node

namespace Graph

/-- The graph with another node at `i`. -/
def set (g : Graph) (i : ℕ) (n : Node) : Graph := Function.update g i (some n)

@[simp] theorem set_same (g : Graph) (i : ℕ) (n : Node) : g.set i n i = some n :=
  Function.update_self _ _ _

theorem set_of_ne (g : Graph) {i j : ℕ} (n : Node) (h : j ≠ i) : g.set i n j = g j :=
  Function.update_of_ne h _ _

theorem set_eq_self {g : Graph} {i : ℕ} {n : Node} (h : g i = some n) : g.set i n = g := by
  rw [set, ← h, Function.update_eq_self]

@[simp] theorem set_set (g : Graph) (i : ℕ) (n n' : Node) : (g.set i n).set i n' = g.set i n' :=
  Function.update_idem _ _ _

/-- The first entry called `name` in directory `i`. -/
def find (g : Graph) (i : ℕ) (name : Name) : Option ℕ :=
  match g i with
  | some (.dir entries) => entries.lookup name
  | _ => none

def walk (g : Graph) : ℕ → List Name → Option ℕ
  | i, [] => some i
  | i, name :: names => (g.find i name).bind fun j => walk g j names

/-- A file that has no block yet cannot be mistaken for a directory with entries. -/
def Searchable (g : Graph) (i : ℕ) : Prop :=
  ∀ size blocks, g i = some (.file size blocks) → ∀ k < 16, blocks k = none

/-- Every node a walk searches is a directory, or at least no file with blocks. -/
def WalkSearches (g : Graph) : ℕ → List Name → Prop
  | _, [] => True
  | i, name :: names => g.Searchable i ∧ ∀ j, g.find i name = some j → WalkSearches g j names

end Graph

/-! ## Storing a node -/

/-- Slot `j` of a block holds an entry, or none. -/
def SlotHolds (buf : Bytes) (j : ℕ) : Option (Name × ℕ) → Prop
  | none => Dirent.valid.get buf (slotAddr j) = 0
  | some (name, ino) =>
    Dirent.valid.get buf (slotAddr j) ≠ 0 ∧ buf.strEq (slotAddr j + Dirent.name) name = true ∧
      Dirent.ino.get buf (slotAddr j) = ino

/-- A name as the calls store them. -/
def Stored (name : Name) : Prop := 0 ∉ name ∧ name.length < 208

instance (name : Name) : Decidable (Stored name) := by unfold Stored; infer_instance

/-- The blocks of directory `i` hold the entries in order, without a gap. -/
structure DirHolds (st : Store) (i : ℕ) (entries : List (Name × ℕ)) : Prop where
  length_le : entries.length ≤ 304
  ptr_iff : ∀ k < 16, st.ptr i k ≠ 0 ↔ 19 * k < entries.length
  slot : ∀ k < 16, st.ptr i k ≠ 0 → ∀ j < 19,
    SlotHolds (st.blocks (st.ptr i k)) j entries[19 * k + j]?
  stored : ∀ e ∈ entries, Stored e.1

/-- Block `k` of file `i`. -/
def Store.fileBlock (st : Store) (i k : ℕ) : Option Bytes :=
  if st.ptr i k = 0 then none else some (st.blocks (st.ptr i k))

def NodeHolds (st : Store) (i : ℕ) : Option Node → Prop
  | none => Inode.valid.get (st.inodes i) 0 = 0 ∧ ∀ k < 16, st.ptr i k = 0
  | some (.dir entries) =>
    Inode.valid.get (st.inodes i) 0 ≠ 0 ∧ Inode.type.get (st.inodes i) 0 = DIRECTORY ∧
      DirHolds st i entries
  | some (.file size blocks) =>
    Inode.valid.get (st.inodes i) 0 ≠ 0 ∧ Inode.type.get (st.inodes i) 0 = FILE ∧
      Inode.size.get (st.inodes i) 0 = size ∧ ∀ k < 16, blocks k = st.fileBlock i k

/-- The tables store the graph `g`. -/
structure Represents (st : Store) (g : Graph) : Prop where
  owned : st.Owned
  ino : ∀ i < 1024, Inode.ino.get (st.inodes i) 0 = i
  node : ∀ i < 1024, NodeHolds st i (g i)
  used : ∀ i, g i ≠ none → i < 1024 ∧ st.inodeUsed i = true

/-! ## What a node depends on -/

section Frames

variable {st st' : Store} {i : ℕ} {buf buf' : Bytes} {j : ℕ}

theorem SlotHolds.congr {e : Option (Name × ℕ)} (h : SlotHolds buf j e)
    (hbuf : ∀ x, slotAddr j ≤ x → x < slotAddr j + 214 → buf' x = buf x)
    (he : ∀ e' ∈ e, e'.1.length < 208) : SlotHolds buf' j e := by
  have hfield (f : Field) (hf : f.offset + f.size ≤ 214) :
      f.get buf' (slotAddr j) = f.get buf (slotAddr j) :=
    Field.get_congr fun k h₁ h₂ => hbuf _ (by omega) (by omega)
  have hvalid : Dirent.valid.get buf' (slotAddr j) = Dirent.valid.get buf (slotAddr j) :=
    hfield _ (by decide)
  cases e with
  | none =>
    rw [SlotHolds] at h ⊢
    rw [hvalid, h]
  | some e =>
    obtain ⟨name, ino⟩ := e
    have hlen : name.length < 208 := he _ rfl
    have hname : buf'.strEq (slotAddr j + Dirent.name) name =
        buf.strEq (slotAddr j + Dirent.name) name := by
      refine Bytes.strEq_congr fun x h₁ h₂ => hbuf x ?_ ?_
      · omega
      · simp only [Dirent.name] at h₂
        omega
    have hino : Dirent.ino.get buf' (slotAddr j) = Dirent.ino.get buf (slotAddr j) :=
      hfield _ (by decide)
    rw [SlotHolds] at h ⊢
    rw [hvalid, hname, hino]
    exact h

/-- What the calls look at in an inode. -/
structure Agrees (inode inode' : Inode) : Prop where
  ino : Inode.ino.get inode 0 = Inode.ino.get inode' 0
  valid : Inode.valid.get inode 0 = Inode.valid.get inode' 0
  size : Inode.size.get inode 0 = Inode.size.get inode' 0
  type : Inode.type.get inode 0 = Inode.type.get inode' 0
  ptr : ∀ k < 16, inode.ptr k = inode'.ptr k

theorem Agrees.refl (inode : Inode) : Agrees inode inode := ⟨rfl, rfl, rfl, rfl, fun _ _ => rfl⟩

theorem Agrees.trans {inode inode' inode'' : Inode} (h : Agrees inode inode')
    (h' : Agrees inode' inode'') : Agrees inode inode'' where
  ino := h.ino.trans h'.ino
  valid := h.valid.trans h'.valid
  size := h.size.trans h'.size
  type := h.type.trans h'.type
  ptr k hk := (h.ptr k hk).trans (h'.ptr k hk)

/-- Fields behind the pointers, and the link count, do not matter. -/
theorem Agrees.set {inode : Inode} {f : Field} {v : ℕ} (hf : Plain f) (h12 : 12 ≤ f.offset) :
    Agrees (f.set inode 0 v) inode := by
  have hapart (f' : Field) (h : f'.offset + f'.size ≤ 12) : f'.Apart f := by
    simp only [Field.Apart]
    omega
  exact ⟨Field.get_set_of_apart (hapart _ (by decide)), Field.get_set_of_apart (hapart _ (by decide)),
    Field.get_set_of_apart (hapart _ (by decide)), Field.get_set_of_apart (hapart _ (by decide)),
    fun k hk => Inode.ptr_set hf hk⟩

/-- A node depends on its inode and on the blocks the inode owns. -/
theorem NodeHolds.congr {n : Option Node} (h : NodeHolds st i n)
    (hagree : Agrees (st'.inodes i) (st.inodes i))
    (hblocks : ∀ k < 16, st.ptr i k ≠ 0 → st'.blocks (st.ptr i k) = st.blocks (st.ptr i k)) :
    NodeHolds st' i n := by
  have hptr : ∀ k < 16, st'.ptr i k = st.ptr i k := hagree.ptr
  match n with
  | none =>
    obtain ⟨hvalid, hnull⟩ := h
    exact ⟨hagree.valid.trans hvalid, fun k hk => (hptr k hk).trans (hnull k hk)⟩
  | some (.dir entries) =>
    obtain ⟨hvalid, htype, hdir⟩ := h
    rw [NodeHolds, hagree.valid, hagree.type]
    refine ⟨hvalid, htype, hdir.length_le, ?_, ?_, hdir.stored⟩
    · intro k hk
      rw [hptr k hk]
      exact hdir.ptr_iff k hk
    · intro k hk
      rw [hptr k hk]
      intro hne j hj
      rw [hblocks k hk hne]
      exact hdir.slot k hk hne j hj
  | some (.file size blocks) =>
    obtain ⟨hvalid, htype, hsize, hfile⟩ := h
    rw [NodeHolds, hagree.valid, hagree.type, hagree.size]
    refine ⟨hvalid, htype, hsize, fun k hk => ?_⟩
    rw [hfile k hk, Store.fileBlock, Store.fileBlock, hptr k hk]
    split
    · rfl
    · next hne => rw [hblocks k hk hne]

end Frames

namespace Represents

variable {st st' : Store} {g : Graph} {i : ℕ}

/-- A step that keeps to one inode and its blocks changes one node of the graph. -/
theorem update {n : Node} (h : Represents st g) (hi : i < 1024) (howned : st'.Owned)
    (hino : Inode.ino.get (st'.inodes i) 0 = i)
    (hinodes : ∀ j, j ≠ i → st'.inodes j = st.inodes j)
    (hblocks : ∀ b, (∀ k < 16, st'.ptr i k ≠ b) → st'.blocks b = st.blocks b)
    (hused : ∀ j, st.inodeUsed j = true → st'.inodeUsed j = true) (hi' : st'.inodeUsed i = true)
    (hnode : NodeHolds st' i (some n)) : Represents st' (g.set i n) where
  owned := howned
  ino := by
    intro j hj
    by_cases hji : j = i
    · rw [hji, hino]
    · rw [hinodes j hji, h.ino j hj]
  node := by
    intro j hj
    by_cases hji : j = i
    · rw [hji, Graph.set_same]
      exact hnode
    · rw [Graph.set_of_ne _ _ hji]
      refine (h.node j hj).congr (by rw [hinodes j hji]; exact Agrees.refl _) ?_
      intro k hk hne
      refine hblocks _ fun l hl heq => ?_
      have hptr : st'.ptr j k = st.ptr j k := by rw [Store.ptr, Store.ptr, hinodes j hji]
      rw [← hptr] at heq hne
      exact hji (howned.ptr_inj j hj k hk i hi l hl hne heq.symm).1
  used := by
    intro j hj
    by_cases hji : j = i
    · rw [hji]
      exact ⟨hi, hi'⟩
    · rw [Graph.set_of_ne _ _ hji] at hj
      exact ⟨(h.used j hj).1, hused j (h.used j hj).2⟩

/-- An inode may change where the calls do not look. -/
theorem setInode {inode : Inode} (h : Represents st g) (hagree : Agrees inode (st.inodes i)) :
    Represents (st.setInode i inode) g where
  owned := h.owned.setInode hagree.ptr
  ino := by
    intro j hj
    by_cases hji : j = i
    · rw [hji, Store.inodes_setInode_same, hagree.ino, ← hji, h.ino j hj]
    · rw [Store.inodes_setInode_of_ne _ _ _ hji, h.ino j hj]
  node := by
    intro j hj
    refine (h.node j hj).congr ?_ fun _ _ _ => rfl
    by_cases hji : j = i
    · rw [hji, Store.inodes_setInode_same]
      exact hagree
    · rw [Store.inodes_setInode_of_ne _ _ _ hji]
      exact Agrees.refl _
  used := h.used

/-- Taking an inode number does not touch the graph. -/
theorem useInode (h : Represents st g) (n : ℕ) : Represents (st.useInode n) g where
  owned := h.owned.congr (fun _ _ _ _ => rfl) rfl rfl
  ino := h.ino
  node i hi := (h.node i hi).congr (Agrees.refl _) fun _ _ _ => rfl
  used i hi := by
    refine ⟨(h.used i hi).1, ?_⟩
    rw [Store.inodeUsed_useInode, Function.update_apply]
    split
    · rfl
    · exact (h.used i hi).2

theorem none_of_free (h : Represents st g) (hfree : st.inodeUsed i = false) : g i = none := by
  by_contra hne
  have hused := (h.used i hne).2
  rw [hfree] at hused
  exact Bool.noConfusion hused

end Represents

/-! ## Looking up -/

section Lookup

variable {s : Fs} {g : Graph} {i : ℕ} {entries : List (Name × ℕ)} {name : Name}

/-- The block behind a pointer, as the calls read it. -/
theorem Store.Owned.bioRead_ptr (h : s.store.Owned) (hi : i < 1024) {k : ℕ} (hk : k < 16)
    (hne : s.store.ptr i k ≠ 0) : bioRead s.disk (s.store.ptr i k) = s.store.blocks (s.store.ptr i k) :=
  Fs.bioRead_eq (h.ptr_range i hi k hk hne).1

/-- What a search asks of one slot. -/
def entryIs (name : Name) (e : Name × ℕ) : Option ℕ := if name == e.1 then some e.2 else none

theorem slot_find {buf : Bytes} {j : ℕ} {e : Option (Name × ℕ)} (h : SlotHolds buf j e)
    (he : ∀ e' ∈ e, Stored e'.1) (hname : 0 ∉ name) :
    (if slotMatches buf name j then some (Dirent.ino.get buf (slotAddr j)) else none) =
      e.bind (entryIs name) := by
  cases e with
  | none =>
    rw [SlotHolds] at h
    simp [slotMatches, h]
  | some e =>
    obtain ⟨name', ino⟩ := e
    obtain ⟨hvalid, hstr, hino⟩ := h
    have hiff := Bytes.strEq_iff_eq hstr (he _ rfl).1 hname
    by_cases heq : name = name'
    · have hmatch : slotMatches buf name j = true := by
        rw [slotMatches, hiff.mpr heq, Bool.and_true, decide_eq_true_eq]
        exact hvalid
      rw [if_pos hmatch, hino, Option.bind_some, entryIs, if_pos (beq_iff_eq.mpr heq)]
    · have hmatch : slotMatches buf name j = false := by
        rw [slotMatches, Bool.and_eq_false_iff]
        refine Or.inr ?_
        rw [Bool.eq_false_iff]
        exact fun h => heq (hiff.mp h)
      rw [hmatch, if_neg Bool.false_ne_true, Option.bind_some, entryIs,
        if_neg (fun h => heq (beq_iff_eq.mp h))]

theorem dirFind_dir (h : Represents s.store g) (hi : i < 1024) (hdir : g i = some (.dir entries))
    (hname : 0 ∉ name) : dirFind s i name = entries.lookup name := by
  have hnode := h.node i hi
  rw [hdir] at hnode
  obtain ⟨hvalid, -, hdir⟩ := hnode
  rw [dirFind, Fs.readi_eq hi, if_neg hvalid, List.lookup_eq_findSome?]
  change _ = entries.findSome? (entryIs name)
  rw [← findSome?_slots (entryIs name) hdir.length_le, ← findSome?_grid _ 16 19]
  refine findSome?_congr fun k hk => ?_
  have hk : k < 16 := List.mem_range.mp hk
  by_cases hne : s.store.ptr i k = 0
  · have hlen : ¬ 19 * k < entries.length := fun hlt => (hdir.ptr_iff k hk).mpr hlt hne
    rw [if_neg (by simpa [Store.ptr] using hne), eq_comm, List.findSome?_eq_none_iff]
    intro j _
    rw [List.getElem?_eq_none (by omega), Option.bind_none]
  · rw [if_pos (by simpa [Store.ptr] using hne), find?_map]
    refine findSome?_congr fun j hj => ?_
    have hslot := hdir.slot k hk hne j (List.mem_range.mp hj)
    have hread := h.owned.bioRead_ptr hi hk hne
    rw [Store.ptr] at hread hslot
    rw [hread]
    exact slot_find hslot (fun e he => hdir.stored e (List.mem_of_getElem? he)) hname

/-- Where there is no block there is nothing to find. -/
theorem dirFind_of_null (hi : i < 1024) (hnull : ∀ k < 16, s.store.ptr i k = 0) :
    dirFind s i name = none := by
  rw [dirFind, Fs.readi_eq hi]
  split
  · rfl
  · rw [List.findSome?_eq_none_iff]
    intro k hk
    have hk := hnull k (List.mem_range.mp hk)
    rw [Store.ptr] at hk
    rw [if_neg (by simp [hk])]

theorem dirFind_eq (h : Represents s.store g) (hi : i < 1024) (hsearch : g.Searchable i)
    (hname : 0 ∉ name) : dirFind s i name = g.find i name := by
  have hnode := h.node i hi
  match hn : g i with
  | none =>
    rw [hn] at hnode
    rw [dirFind_of_null hi hnode.2, Graph.find, hn]
  | some (.dir entries) => rw [dirFind_dir h hi hn hname, Graph.find, hn]
  | some (.file size blocks) =>
    rw [hn] at hnode
    have hnull : ∀ k < 16, s.store.ptr i k = 0 := by
      intro k hk
      have hblock := hnode.2.2.2 k hk
      rw [hsearch size blocks hn k hk, Store.fileBlock] at hblock
      by_contra hne
      rw [if_neg hne] at hblock
      cases hblock
    rw [dirFind_of_null hi hnull, Graph.find, hn]

end Lookup

end UserLevelOs.Files
