import UserLevelOs.Files.Represents

/-!
# Adding an entry

`dir_add` appends to the entries of a directory.  It goes to the first empty slot, and as
nothing is ever removed that is the slot behind the last entry.  The search for a duplicate
looks at block 1 only, which no directory owns, so the entry is added even if the name is
taken.

## Main statements

* `findSpot_eq` — the slot behind the last entry.
* `dirAdd_spec` — `dir_add` appends, unless all the slots are taken.
-/

namespace UserLevelOs.Files

open UserLevelOs.Lib

variable {s s' : Fs} {st st' : Store} {g : Graph} {i : ℕ} {entries : List (Name × ℕ)}
  {name : Name} {fIno len : ℕ} {r : ℤ}

/-! ## Where the entry goes -/

theorem hasDuplicate_eq (h : Represents s.store g) (hi : i < 1024) :
    hasDuplicate s (s.store.inodes i) name = false := by
  rw [hasDuplicate, List.any_eq_false]
  intro k hk
  have hne : s.store.ptr i k ≠ 1 := by
    intro h1
    have hrange := h.owned.ptr_range i hi k (List.mem_range.mp hk) (by omega)
    omega
  rw [Store.ptr] at hne
  simp [VALID, hne]

theorem SlotHolds.valid_iff {buf : Bytes} {j : ℕ} {e : Option (Name × ℕ)} (h : SlotHolds buf j e) :
    Dirent.valid.get buf (slotAddr j) = 0 ↔ e = none := by
  cases e with
  | none => exact ⟨fun _ => rfl, fun _ => h⟩
  | some e => exact ⟨fun hzero => absurd hzero h.1, fun heq => by cases heq⟩

theorem findSpot_eq (h : Represents s.store g) (hi : i < 1024) (hdir : DirHolds s.store i entries) :
    findSpot s (s.store.inodes i) =
      if entries.length = 304 then none
      else some (entries.length / 19,
        if entries.length % 19 = 0 then none else some (entries.length % 19)) := by
  have hlen := hdir.length_le
  -- one block: where its slots end is where the entries end
  have hblock (k : ℕ) (hk : k < 16) (hlt : 19 * k < entries.length) :
      ((List.range DIRENTS_IN_BLOCK).find? fun j => decide
        (Dirent.valid.get (bioRead s.disk ((s.store.inodes i).ptr k)) (slotAddr j) = 0)) =
          if entries.length < 19 * k + 19 then some (entries.length - 19 * k) else none := by
    have hne := (hdir.ptr_iff k hk).mpr hlt
    have hread := h.owned.bioRead_ptr hi hk hne
    rw [Store.ptr] at hread
    have hslot (j : ℕ) (hj : j < 19) :
        Dirent.valid.get (bioRead s.disk ((s.store.inodes i).ptr k)) (slotAddr j) = 0 ↔
          entries.length ≤ 19 * k + j := by
      rw [hread, ← List.getElem?_eq_none_iff]
      exact (hdir.slot k hk hne j hj).valid_iff
    split
    · next hend =>
      rw [List.find?_range_eq_some]
      refine ⟨?_, List.mem_range.mpr (by change _ < 19; omega), fun j hj => ?_⟩
      · rw [decide_eq_true_eq, hslot _ (by omega)]
        omega
      · rw [Bool.not_eq_true', decide_eq_false_iff_not, hslot j (by omega)]
        omega
    · next hend =>
      rw [List.find?_range_eq_none]
      intro j hj
      have hj : j < 19 := hj
      rw [Bool.not_eq_true', decide_eq_false_iff_not, hslot j hj]
      omega
  have hbefore (k : ℕ) (hk : k < 16) (hlt : 19 * k + 19 ≤ entries.length) :
      (if (s.store.inodes i).ptr k = 0 then some (k, none)
        else ((List.range DIRENTS_IN_BLOCK).find? fun j => decide
          (Dirent.valid.get (bioRead s.disk ((s.store.inodes i).ptr k)) (slotAddr j) = 0)).map
            fun j => (k, some j)) = none := by
    have hne : (s.store.inodes i).ptr k ≠ 0 := (hdir.ptr_iff k hk).mpr (by omega)
    rw [if_neg hne, hblock k hk (by omega), if_neg (by omega)]
    rfl
  split
  · next hfull =>
    rw [findSpot, List.findSome?_eq_none_iff]
    intro k hk
    have hk : k < 16 := List.mem_range.mp hk
    exact hbefore k hk (by omega)
  · next hfull =>
    rw [findSpot]
    refine findSome?_range_eq_some (k := entries.length / 19) (by change _ < 16; omega) ?_ ?_
    · intro k hk
      exact hbefore k (by omega) (by omega)
    · by_cases hmod : entries.length % 19 = 0
      · have hnull : s.store.ptr i (entries.length / 19) = 0 := by
          by_contra hne
          have hlt := (hdir.ptr_iff _ (by omega)).mp hne
          omega
        rw [Store.ptr] at hnull
        rw [if_pos hnull, if_pos hmod]
      · have hlt : 19 * (entries.length / 19) < entries.length := by omega
        have hj : entries.length - 19 * (entries.length / 19) = entries.length % 19 := by omega
        have hne : (s.store.inodes i).ptr (entries.length / 19) ≠ 0 :=
          (hdir.ptr_iff _ (by omega)).mpr hlt
        rw [if_neg hne, if_neg hmod]
        change Option.map _ (List.find? _ _) = _
        rw [hblock _ (by omega) hlt, if_pos (by omega), hj]
        rfl

/-! ## Filling the slot -/

/-- A name of up to 209 bytes ends within its slot. -/
theorem putDirent_fits {l : ℕ} (buf : Bytes) {j : ℕ} (hj : j < 19) (hlen : name.length < 210)
    (hino : fIno < 65536) :
    ∃ buf', putDirent buf j fIno l name = some buf' ∧ SlotHolds buf' j (some (name, fIno)) ∧
      ∀ x, x < slotAddr j ∨ slotAddr j + 214 ≤ x → buf' x = buf x := by
  have haddr : slotAddr j + Dirent.name + name.length < BLOCK_SIZE := by
    simp only [slotAddr, Dirent.name, DIRENT_BYTES, BLOCK_SIZE]
    omega
  rw [putDirent, if_pos haddr]
  refine ⟨_, rfl, ⟨?_, ?_, ?_⟩, fun x hx => ?_⟩
  · rw [Field.get_set_same]
    decide
  · refine (Bytes.strEq_congr fun x h₁ h₂ => Field.set_apply_of_notMem ?_).trans
      (Bytes.strEq_strcpy _ (slotAddr j + Dirent.name) name)
    simp only [Dirent.valid, Dirent.name] at h₁ ⊢
    omega
  · have hapart : Dirent.ino.Apart Dirent.valid := by decide
    have hstr : Dirent.ino.get (Bytes.strcpy (Dirent.len.set (Dirent.ino.set buf (slotAddr j) fIno)
        (slotAddr j) l) (slotAddr j + Dirent.name) name) (slotAddr j) =
          Dirent.ino.get (Dirent.len.set (Dirent.ino.set buf (slotAddr j) fIno) (slotAddr j) l)
            (slotAddr j) := by
      refine Field.get_congr fun k _ hk => Bytes.strcpy_apply_of_notMem ?_
      simp only [Dirent.ino, Dirent.name] at hk ⊢
      omega
    rw [Field.get_set_of_apart hapart, hstr, Field.get_set_of_apart (by decide), Field.get_set_same]
    exact Nat.mod_eq_of_lt hino
  · rw [Field.set_apply_of_notMem (by simp only [Dirent.valid]; omega),
      Bytes.strcpy_apply_of_notMem (by simp only [Dirent.name]; omega),
      Field.set_apply_of_notMem (by simp only [Dirent.len]; omega),
      Field.set_apply_of_notMem (by simp only [Dirent.ino]; omega)]

theorem putDirent_spec {l : ℕ} (buf : Bytes) {j : ℕ} (hj : j < 19) (hname : Stored name)
    (hino : fIno < 65536) :
    ∃ buf', putDirent buf j fIno l name = some buf' ∧ SlotHolds buf' j (some (name, fIno)) ∧
      ∀ x, x < slotAddr j ∨ slotAddr j + 214 ≤ x → buf' x = buf x :=
  putDirent_fits buf hj (Nat.lt_trans hname.2 (by decide)) hino

theorem slotHolds_zero (j : ℕ) : SlotHolds (fun _ => 0) j none :=
  Field.get_of_zero fun _ _ _ => rfl

/-- Slots of a block do not overlap. -/
theorem slot_apart {j l x : ℕ} (h : j ≠ l) (h₁ : slotAddr j ≤ x) (h₂ : x < slotAddr j + 214) :
    x < slotAddr l ∨ slotAddr l + 214 ≤ x := by
  simp only [slotAddr, DIRENT_BYTES] at h₁ h₂ ⊢
  omega

/-- One more entry in block `k`, the other blocks being as they were. -/
theorem DirHolds.append {k : ℕ} (h : DirHolds st i entries) (hlen : entries.length < 304)
    (hk : k = entries.length / 19) (hname : Stored name) (hne : st'.ptr i k ≠ 0)
    (hptr : ∀ l < 16, l ≠ k → st'.ptr i l = st.ptr i l)
    (hblocks : ∀ l < 16, l ≠ k → st.ptr i l ≠ 0 →
      st'.blocks (st.ptr i l) = st.blocks (st.ptr i l))
    (hslot : ∀ j < 19, SlotHolds (st'.blocks (st'.ptr i k)) j
      (entries ++ [(name, fIno)])[19 * k + j]?) :
    DirHolds st' i (entries ++ [(name, fIno)]) where
  length_le := by
    rw [List.length_append, List.length_singleton]
    omega
  ptr_iff := by
    intro l hl
    rw [List.length_append, List.length_singleton]
    by_cases hlk : l = k
    · rw [hlk]
      exact ⟨fun _ => by omega, fun _ => hne⟩
    · rw [hptr l hl hlk, h.ptr_iff l hl]
      omega
  slot := by
    intro l hl hl0 j hj
    by_cases hlk : l = k
    · rw [hlk]
      exact hslot j hj
    · rw [hptr l hl hlk] at hl0 ⊢
      rw [hblocks l hl hlk hl0]
      have hlt := (h.ptr_iff l hl).mp hl0
      have hlast : 19 * l + j < entries.length := by omega
      rw [List.getElem?_append_left hlast]
      exact h.slot l hl hl0 j hj
  stored := by
    intro e he
    rcases List.mem_append.mp he with he | he
    · exact h.stored e he
    · rw [List.mem_singleton.mp he]
      exact hname

/-! ## `dir_add` -/

/-- No allocation has failed. -/
def Fs.Granted (s : Fs) : Prop := ∀ r ∈ s.allocs, r ≠ -1

theorem Fs.Granted.mono (h : s'.Granted) (hsub : s.allocs ⊆ s'.allocs) : s.Granted :=
  fun r hr => h r (hsub hr)

theorem Fs.Granted.of_writei {inode : Inode} (h : (writei s i inode).Granted) : s.Granted :=
  h.mono (by rw [Fs.allocs_writei]; exact List.Subset.refl _)

theorem Fs.Granted.getAvailIno (h : (getAvailIno s).2.Granted) : (getAvailIno s).1 ≠ -1 := by
  rw [Fs.Granted, Fs.allocs_getAvailIno] at h
  exact h _ List.mem_cons_self

section Steps

variable {buf : Bytes} {k j : ℕ}

/-- The slots of a block, where one more entry is put into the first free one. -/
theorem slots_append {old : Bytes} (hk : k = entries.length / 19) (hj : j = entries.length % 19)
    (hold : ∀ l < 19, SlotHolds old l entries[19 * k + l]?)
    (hstored : ∀ e ∈ entries, e.1.length < 208) (hslot : SlotHolds buf j (some (name, fIno)))
    (hrest : ∀ x, x < slotAddr j ∨ slotAddr j + 214 ≤ x → buf x = old x) {l : ℕ} (hl : l < 19) :
    SlotHolds buf l (entries ++ [(name, fIno)])[19 * k + l]? := by
  by_cases hlj : l = j
  · have hlast : 19 * k + l = entries.length := by omega
    rw [hlj] at hlast ⊢
    rw [hlast, List.getElem?_concat_length]
    exact hslot
  · have hlen : (entries ++ [(name, fIno)]).length = entries.length + 1 := by
      rw [List.length_append, List.length_singleton]
    have hget : (entries ++ [(name, fIno)])[19 * k + l]? = entries[19 * k + l]? := by
      by_cases hlast : 19 * k + l < entries.length
      · rw [List.getElem?_append_left hlast]
      · rw [List.getElem?_eq_none (by omega), List.getElem?_eq_none (by omega)]
    rw [hget]
    exact (hold l hl).congr (fun x h₁ h₂ => hrest x (slot_apart hlj h₁ h₂)) fun e he =>
      hstored e (List.mem_of_getElem? he)

/-- An entry put into a block the directory has. -/
theorem represents_oldBlock (hs : s.Layout) (h : Represents s.store g) (hi : i < 1024)
    (hdir : g i = some (.dir entries)) (hname : Stored name)
    (hlen : entries.length < 304) (hmod : entries.length % 19 ≠ 0)
    (hk : k = entries.length / 19) (hj : j = entries.length % 19)
    (hslot : SlotHolds buf j (some (name, fIno)))
    (hrest : ∀ x, x < slotAddr j ∨ slotAddr j + 214 ≤ x →
      buf x = bioRead s.disk (s.store.ptr i k) x)
    (hs' : s' = { s with disk := bioWrite s.disk (s.store.ptr i k) buf }) :
    s'.Layout ∧ s'.store.inodeUsed = s.store.inodeUsed ∧
      Represents s'.store (g.set i (.dir (entries ++ [(name, fIno)]))) := by
  have hnode := h.node i hi
  rw [hdir] at hnode
  obtain ⟨hvalid, htype, hdirHolds⟩ := hnode
  have hk16 : k < 16 := by omega
  have hne : s.store.ptr i k ≠ 0 := (hdirHolds.ptr_iff k hk16).mpr (by omega)
  obtain ⟨h67, hlt⟩ := h.owned.ptr_range i hi k hk16 hne
  have hstore : s'.store = s.store.setBlock (s.store.ptr i k) buf := by
    rw [hs']
    exact Fs.store_bioWrite hs h67 (by omega)
  refine ⟨by rw [hs']; exact Fs.layout_disk hs _, by rw [hstore, Store.inodeUsed_setBlock], ?_⟩
  have howned := h.owned.setBlock hi hk16 (d := buf)
  rw [hstore]
  refine h.update hi howned (h.ino i hi) (fun _ _ => rfl) ?_ (fun _ h => h)
    (h.used i (by rw [hdir]; exact Option.some_ne_none _)).2 ⟨hvalid, htype, ?_⟩
  · intro b hb
    exact Store.blocks_setBlock_of_ne _ _ _ (hb k hk16).symm
  · refine hdirHolds.append hlen hk hname hne (fun _ _ _ => rfl) ?_ ?_
    · intro l hl hlk hl0
      refine Store.blocks_setBlock_of_ne _ _ _ fun heq => hlk ?_
      exact (h.owned.ptr_inj i hi l hl i hi k hk16 hl0 heq).2
    · intro l hl
      rw [Store.ptr_setBlock, Store.blocks_setBlock_same]
      refine slots_append hk hj (hdirHolds.slot k hk16 hne)
        (fun e he => (hdirHolds.stored e he).2) hslot (fun x hx => ?_) hl
      rw [hrest x hx, h.owned.bioRead_ptr hi hk16 hne]

/-- A free block is filled, and an inode gets it. -/
theorem store_newBlock {s₁ : Fs} {inode : Inode} {b : ℕ} (hlayout : s₁.Layout) (hi : i < 1024)
    (hb : 67 ≤ b) (hb' : b < 16384) (hused : s₁.store = s.store.useBlock b) (hbounded : inode.Bounded) :
    (writei { s₁ with disk := bioWrite s₁.disk b buf } i inode).store =
      ((s.store.setInode i inode).useBlock b).setBlock b buf := by
  rw [Fs.store_writei (Fs.layout_disk hlayout _) hi hbounded,
    Fs.store_bioWrite hlayout (by omega) (by omega), hused, Store.setInode_setBlock,
    Store.setInode_useBlock]

/-- A directory gets a free block for one more entry. -/
theorem Represents.newBlock {st : Store} {b : ℕ} (h : Represents st g) (hi : i < 1024)
    (hdir : g i = some (.dir entries)) (hname : Stored name) (hlen : entries.length < 304)
    (hmod : entries.length % 19 = 0) (hk : k = entries.length / 19) (hb : b < 16384)
    (hfree : st.blockUsed b = false)
    (hslots : ∀ l < 19, SlotHolds buf l (entries ++ [(name, fIno)])[19 * k + l]?) :
    Represents (((st.setInode i ((st.inodes i).setPtr k b)).useBlock b).setBlock b buf)
      (g.set i (.dir (entries ++ [(name, fIno)]))) := by
  have hnode := h.node i hi
  rw [hdir] at hnode
  obtain ⟨hvalid, htype, hdirHolds⟩ := hnode
  have hk16 : k < 16 := by omega
  have hnull : st.ptr i k = 0 := by
    by_contra hne
    have hlt := (hdirHolds.ptr_iff k hk16).mp hne
    omega
  have hptr : ((st.inodes i).setPtr k b).ptr k = b :=
    Inode.ptr_setPtr_same (by omega) (by omega)
  have hother (l : ℕ) (hlk : l ≠ k) : ((st.inodes i).setPtr k b).ptr l = st.ptr i l :=
    Inode.ptr_setPtr_of_ne hlk
  have hptr' : ((st.setInode i ((st.inodes i).setPtr k b)).useBlock b).ptr i k = b := by
    rw [Store.ptr_useBlock, Store.ptr_setInode_same, hptr]
  have hgrow := h.owned.grow hi hk16 hnull hb hfree hptr fun l _ hlk => hother l hlk
  have howned := hgrow.setBlock hi hk16 (d := buf)
  rw [hptr'] at howned
  have hget (f : Field) (hf : Plain f) :
      f.get ((((st.setInode i ((st.inodes i).setPtr k b)).useBlock b).setBlock b
        buf).inodes i) 0 = f.get (st.inodes i) 0 := by
    rw [Store.inodes_setBlock, Store.inodes_useBlock, Store.inodes_setInode_same,
      Inode.get_setPtr hf hk16]
  refine h.update hi howned ?_ ?_ ?_ (fun _ h => h)
    (h.used i (by rw [hdir]; exact Option.some_ne_none _)).2 ⟨?_, ?_, ?_⟩
  · rw [hget _ (by decide), h.ino i hi]
  · intro j hj
    rw [Store.inodes_setBlock, Store.inodes_useBlock, Store.inodes_setInode_of_ne _ _ _ hj]
  · intro c hc
    have hcb := hc k hk16
    rw [Store.ptr_setBlock, hptr'] at hcb
    rw [Store.blocks_setBlock_of_ne _ _ _ (Ne.symm hcb), Store.blocks_useBlock,
      Store.blocks_setInode]
  · rw [hget _ (by decide)]
    exact hvalid
  · rw [hget _ (by decide)]
    exact htype
  · refine hdirHolds.append hlen hk hname ?_ ?_ ?_ ?_
    · have hb67 := h.owned.le_of_free hb hfree
      rw [Store.ptr_setBlock, hptr']
      exact Nat.cast_ne_zero.mpr (by omega)
    · intro l hl hlk
      rw [Store.ptr_setBlock, Store.ptr_useBlock, Store.ptr_setInode_same, hother l hlk]
    · intro l hl hlk hl0
      have hne := h.owned.ptr_ne_of_free hi hl hb hfree
      rw [Store.blocks_setBlock_of_ne _ _ _ hne, Store.blocks_useBlock, Store.blocks_setInode]
    · intro l hl
      rw [Store.ptr_setBlock, hptr', Store.blocks_setBlock_same]
      exact hslots l hl

/-- An entry put into a block the directory gets for it. -/
theorem represents_newBlock {s₁ : Fs} {c : ℤ} (hs : s.Layout) (h : Represents s.store g)
    (hi : i < 1024) (hdir : g i = some (.dir entries)) (hname : Stored name)
    (hfIno : fIno < 65536) (hlen : entries.length < 304) (hmod : entries.length % 19 = 0)
    (hk : k = entries.length / 19) (hget : getAvailBlkno s = (c, s₁)) (hc : c ≠ -1)
    (hbuf : putDirent (fun _ => 0) 0 fIno len name = some buf)
    (hs' : s' = writei { s₁ with disk := bioWrite s₁.disk c buf } i
      ((s.store.inodes i).setPtr k c)) :
    s'.Layout ∧ s'.store.inodeUsed = s.store.inodeUsed ∧
      Represents s'.store (g.set i (.dir (entries ++ [(name, fIno)]))) := by
  have hspec := Fs.getAvailBlkno_spec hs
  have hlayout := Fs.layout_getAvailBlkno hs
  rw [hget] at hspec hlayout
  obtain ⟨b, hb, hgot, hfree, -, hused⟩ := hspec hc
  dsimp only at hgot hused hlayout
  obtain ⟨buf', hput, hslot, hrest⟩ := putDirent_spec (l := len)
    (fun _ => 0) (by omega : 0 < 19) hname hfIno
  rw [hbuf, Option.some.injEq] at hput
  subst hput
  rw [hgot] at hs'
  have hbounded : ((s.store.inodes i).setPtr k b).Bounded :=
    Inode.bounded_setPtr (by omega) (Fs.bounded_inodes s i)
  have hstore : s'.store =
      ((s.store.setInode i ((s.store.inodes i).setPtr k b)).useBlock b).setBlock b buf := by
    rw [hs']
    exact store_newBlock hlayout hi (h.owned.le_of_free hb hfree) hb hused hbounded
  refine ⟨by rw [hs']; exact Fs.layout_writei (Fs.layout_disk hlayout _) _ _, ?_, ?_⟩
  · rw [hstore, Store.inodeUsed_setBlock, Store.inodeUsed_useBlock, Store.inodeUsed_setInode]
  · have hnode := h.node i hi
    rw [hdir] at hnode
    rw [hstore]
    refine h.newBlock hi hdir hname hlen hmod hk hb hfree fun l hl => ?_
    refine slots_append hk hmod.symm (fun m _ => ?_) (fun e he => (hnode.2.2.stored e he).2) hslot
      hrest hl
    rw [List.getElem?_eq_none (by omega)]
    exact slotHolds_zero m

end Steps

/-- `dir_add` appends to the entries, or finds all the slots taken. -/
theorem dirAdd_spec (hs : s.Layout) (h : Represents s.store g) (hi : i < 1024)
    (hdir : g i = some (.dir entries)) (hname : Stored name) (hfIno : fIno < 65536)
    (hadd : dirAdd s (s.store.inodes i) fIno name len = some (r, s')) (hgranted : s'.Granted) :
    entries.length = 304 ∧ r = -1 ∧ s' = s ∨
      entries.length < 304 ∧ r = 1 ∧ s'.Layout ∧ s'.store.inodeUsed = s.store.inodeUsed ∧
        Represents s'.store (g.set i (.dir (entries ++ [(name, fIno)]))) := by
  have hnode := h.node i hi
  rw [hdir] at hnode
  obtain ⟨hvalid, -, hdirHolds⟩ := hnode
  have hle := hdirHolds.length_le
  rw [dirAdd, if_neg hvalid, hasDuplicate_eq h hi, if_neg Bool.false_ne_true,
    findSpot_eq h hi hdirHolds] at hadd
  by_cases hfull : entries.length = 304
  · rw [if_pos hfull, Option.some.injEq, Prod.mk.injEq] at hadd
    exact Or.inl ⟨hfull, hadd.1.symm, hadd.2.symm⟩
  · refine Or.inr ⟨by omega, ?_⟩
    rw [if_neg hfull] at hadd
    by_cases hmod : entries.length % 19 = 0
    · rw [if_pos hmod] at hadd
      obtain ⟨buf, hbuf, -⟩ := putDirent_spec (l := len) (fun _ => 0) (by omega : 0 < 19) hname hfIno
      rcases hget : getAvailBlkno s with ⟨c, s₁⟩
      simp only [hget, hbuf, Option.bind_eq_bind, Option.bind_some, Option.some.injEq,
        Prod.mk.injEq] at hadd
      obtain ⟨hr, hs'⟩ := hadd
      have hino : Inode.ino.get ((s.store.inodes i).setPtr (entries.length / 19) c) 0 = i := by
        rw [Inode.get_setPtr (by decide) (by omega), h.ino i hi]
      rw [hino] at hs'
      have hallocs := Fs.allocs_getAvailBlkno s
      rw [hget] at hallocs
      have hc : c ≠ -1 := by
        refine hgranted _ ?_
        rw [← hs', Fs.allocs_writei, Fs.allocs_disk]
        exact hallocs ▸ List.mem_cons_self
      exact ⟨hr.symm, represents_newBlock hs h hi hdir hname hfIno (by omega) hmod rfl hget hc hbuf
        hs'.symm⟩
    · rw [if_neg hmod] at hadd
      obtain ⟨buf, hbuf, hslot, hrest⟩ := putDirent_spec (l := len)
        (bioRead s.disk (s.store.ptr i (entries.length / 19)))
        (by omega : entries.length % 19 < 19) hname hfIno
      rw [Store.ptr] at hbuf
      simp only [hbuf, Option.bind_eq_bind, Option.bind_some, Option.some.injEq,
        Prod.mk.injEq] at hadd
      obtain ⟨hr, hs'⟩ := hadd
      exact ⟨hr.symm, represents_oldBlock hs h hi hdir hname (by omega) hmod rfl rfl hslot hrest
        hs'.symm⟩

/-- Allocations are only added to the history. -/
theorem dirAdd_allocs {dirInode : Inode} (hadd : dirAdd s dirInode fIno name len = some (r, s')) :
    s.allocs ⊆ s'.allocs := by
  rw [dirAdd] at hadd
  split at hadd
  · cases hadd
    exact List.Subset.refl _
  · split at hadd
    · cases hadd
      exact List.Subset.refl _
    · split at hadd
      · cases hadd
        exact List.Subset.refl _
      · next ptrIndex hspot =>
        rcases hget : getAvailBlkno s with ⟨c, s₁⟩
        have hallocs := Fs.allocs_getAvailBlkno s
        rw [hget] at hallocs hadd
        simp only [Option.bind_eq_bind, Option.bind_eq_some_iff, Option.some.injEq,
          Prod.mk.injEq] at hadd
        obtain ⟨buf, -, -, hs'⟩ := hadd
        rw [← hs', Fs.allocs_writei, Fs.allocs_disk]
        exact hallocs ▸ List.subset_cons_self _ _
      · simp only [Option.bind_eq_bind, Option.bind_eq_some_iff, Option.some.injEq,
          Prod.mk.injEq] at hadd
        obtain ⟨buf, -, -, hs'⟩ := hadd
        rw [← hs', Fs.allocs_disk]
        exact List.Subset.refl _

theorem Fs.Granted.of_dirAdd {dirInode : Inode} (h : s'.Granted)
    (hadd : dirAdd s dirInode fIno name len = some (r, s')) : s.Granted :=
  h.mono (dirAdd_allocs hadd)

/-- A directory without room in its blocks gets the block the allocator returns. -/
theorem dirAdd_newBlock {b : ℕ} (hs : s.Layout) (h : Represents s.store g) (hi : i < 1024)
    (hdir : g i = some (.dir entries)) (hlt : entries.length < 304) (hmod : entries.length % 19 = 0)
    (hret : (getAvailBlkno s).1 = b) (hb : 67 ≤ b) (hb' : b < 16384)
    (hadd : dirAdd s (s.store.inodes i) fIno name len = some (r, s')) :
    s'.store.ptr i (entries.length / 19) = b ∧
      putDirent (fun _ => 0) 0 fIno len name = some (s'.store.blocks b) := by
  have hnode := h.node i hi
  rw [hdir] at hnode
  obtain ⟨hvalid, -, hdirHolds⟩ := hnode
  rw [dirAdd, if_neg hvalid, hasDuplicate_eq h hi, if_neg Bool.false_ne_true,
    findSpot_eq h hi hdirHolds, if_neg (by omega), if_pos hmod] at hadd
  simp only [Option.bind_eq_bind, Option.bind_eq_some_iff, Option.some.injEq, Prod.mk.injEq] at hadd
  obtain ⟨buf, hput, -, hs'⟩ := hadd
  have hk : entries.length / 19 < 16 := by omega
  have hbounded := Inode.bounded_setPtr (b := b) hk (Fs.bounded_inodes s i)
  rw [hret, Inode.get_setPtr (by decide) hk, h.ino i hi] at hs'
  rw [← hs', Fs.store_writei (Fs.layout_disk (Fs.layout_getAvailBlkno hs) _) hi hbounded,
    Store.ptr_setInode_same, Store.blocks_setInode,
    Fs.store_bioWrite (Fs.layout_getAvailBlkno hs) (by omega) (by omega), Store.blocks_setBlock_same]
  exact ⟨Inode.ptr_setPtr_same (by omega) (by omega), hput⟩

/-- Otherwise only the block of the new entry changes. -/
theorem dirAdd_oldBlock (hs : s.Layout) (h : Represents s.store g) (hi : i < 1024)
    (hdir : g i = some (.dir entries)) (hmod : entries.length % 19 ≠ 0)
    (hadd : dirAdd s (s.store.inodes i) fIno name len = some (r, s')) :
    ∃ buf, putDirent (s.store.blocks (s.store.ptr i (entries.length / 19))) (entries.length % 19)
        fIno len name = some buf ∧
      s'.store = s.store.setBlock (s.store.ptr i (entries.length / 19)) buf := by
  have hnode := h.node i hi
  rw [hdir] at hnode
  obtain ⟨hvalid, -, hdirHolds⟩ := hnode
  have hle := hdirHolds.length_le
  have hne := (hdirHolds.ptr_iff (entries.length / 19) (by omega)).mpr (by omega)
  obtain ⟨hlo, hhi⟩ := h.owned.ptr_range i hi _ (by omega) hne
  rw [dirAdd, if_neg hvalid, hasDuplicate_eq h hi, if_neg Bool.false_ne_true,
    findSpot_eq h hi hdirHolds, if_neg (by omega), if_neg hmod] at hadd
  simp only [Option.bind_eq_bind, Option.bind_eq_some_iff, Option.some.injEq, Prod.mk.injEq] at hadd
  obtain ⟨buf, hput, -, hs'⟩ := hadd
  rw [← Store.ptr] at hput hs'
  rw [Fs.bioRead_eq hlo] at hput
  refine ⟨buf, hput, ?_⟩
  rw [← hs']
  exact Fs.store_bioWrite hs hlo hhi

/-- As long as a block is free, entering a name does not fail for want of one. -/
theorem dirAdd_total (len : ℕ) (hs : s.Layout) (h : Represents s.store g) (hi : i < 1024)
    (hdir : g i = some (.dir entries)) (hname : Stored name) (hfIno : fIno < 65536)
    (hgranted : s.Granted) (hfree : ∃ b < 16384, s.store.blockUsed b = false) :
    ∃ r s', dirAdd s (s.store.inodes i) fIno name len = some (r, s') ∧ s'.Granted := by
  have hnode := h.node i hi
  rw [hdir] at hnode
  obtain ⟨hvalid, -, hdirHolds⟩ := hnode
  have hle := hdirHolds.length_le
  rw [dirAdd, if_neg hvalid, hasDuplicate_eq h hi, if_neg Bool.false_ne_true,
    findSpot_eq h hi hdirHolds]
  by_cases hfull : entries.length = 304
  · rw [if_pos hfull]
    exact ⟨_, _, rfl, hgranted⟩
  · rw [if_neg hfull]
    by_cases hmod : entries.length % 19 = 0
    · rw [if_pos hmod]
      obtain ⟨buf, hbuf, -⟩ := putDirent_spec (l := len) (fun _ => 0) (by omega : 0 < 19) hname hfIno
      rcases hget : getAvailBlkno s with ⟨c, s₁⟩
      simp only [hbuf, Option.bind_eq_bind, Option.bind_some]
      refine ⟨_, _, rfl, ?_⟩
      have hallocs := Fs.allocs_getAvailBlkno s
      have hexhausted := Fs.getAvailBlkno_exhausted hs
      rw [hget] at hallocs hexhausted
      dsimp only at hallocs
      intro r hr
      rw [Fs.allocs_writei, Fs.allocs_disk, hallocs] at hr
      rcases List.mem_cons.mp hr with rfl | hr
      · intro hc
        obtain ⟨b, hb, hclear⟩ := hfree
        rw [hexhausted hc b hb] at hclear
        cases hclear
      · exact hgranted r hr
    · rw [if_neg hmod]
      obtain ⟨buf, hbuf, -⟩ := putDirent_spec (l := len)
        (bioRead s.disk (s.store.ptr i (entries.length / 19)))
        (by omega : entries.length % 19 < 19) hname hfIno
      rw [Store.ptr] at hbuf
      simp only [hbuf, Option.bind_eq_bind, Option.bind_some]
      refine ⟨_, _, rfl, ?_⟩
      intro r hr
      rw [Fs.allocs_disk] at hr
      exact hgranted r hr

end UserLevelOs.Files
