import UserLevelOs.Files.Store

/-!
# Who owns a block

The direct pointers of the inodes divide the used data blocks among them: no block has two
owners and no used block is without one.  The statements are about the tables, so that they
also apply half way through a call, when the inode in memory is ahead of the one on the
disk.

## Main definitions

* `Field.Plain` — a field of the inode that is none of the direct pointers.
* `Store.ptr` — the direct pointers of the table.
* `Store.Owned` — the ownership invariant.
-/

namespace UserLevelOs.Files

open UserLevelOs.Lib

/-! ## Fields of an inode -/

/-- A field that lies before or behind the direct pointers. -/
def Plain (f : Field) : Prop := (f.offset + f.size ≤ 16 ∨ 80 ≤ f.offset) ∧ f.offset + f.size ≤ 256

instance (f : Field) : Decidable (Plain f) := by unfold Plain; infer_instance

namespace Inode

variable {inode : Inode} {f g : Field} {k l v : ℕ} {b : ℤ}

theorem apart_directPtr (hf : Plain f) (hk : k < 16) : f.Apart (directPtr k) := by
  obtain ⟨hf, -⟩ := hf
  simp only [Field.Apart, directPtr]
  omega

theorem toInt_mod (h : -2 ^ 31 ≤ b) (h' : b < 2 ^ 31) :
    toInt (((b % 2 ^ 32).toNat % 256 ^ 4 : ℕ) : ℤ) = b := by
  have hnat : (((b % 2 ^ 32).toNat % 256 ^ 4 : ℕ) : ℤ) = b % 2 ^ 32 := by omega
  rw [hnat, toInt, Int.bmod_def]
  split <;> omega

theorem ptr_setPtr_same (h : -2 ^ 31 ≤ b) (h' : b < 2 ^ 31) :
    (inode.setPtr k b).ptr k = b := by
  rw [ptr, setPtr, Field.get_set_same]
  exact toInt_mod h h'

theorem ptr_setPtr_of_ne (h : k ≠ l) : (inode.setPtr l b).ptr k = inode.ptr k := by
  have hapart : (directPtr k).Apart (directPtr l) := by
    simp only [Field.Apart, directPtr]
    omega
  rw [ptr, setPtr, Field.get_set_of_apart hapart, ptr]

theorem get_setPtr (hf : Plain f) (hl : l < 16) :
    f.get (inode.setPtr l b) 0 = f.get inode 0 :=
  Field.get_set_of_apart (apart_directPtr hf hl)

theorem ptr_set (hf : Plain f) (hk : k < 16) : ptr (f.set inode 0 v) k = inode.ptr k := by
  have hapart := apart_directPtr hf hk
  rw [ptr, Field.get_set_of_apart, ptr]
  exact hapart.symm

theorem bounded_set (hf : f.offset + f.size ≤ 256) (h : inode.Bounded) :
    Bounded (f.set inode 0 v) := fun x hx => by
  have hx' : 256 ≤ x := hx
  rw [Field.set_apply_of_notMem (by omega), h x hx]

theorem bounded_setPtr (hl : l < 16) (h : inode.Bounded) : (inode.setPtr l b).Bounded :=
  bounded_set (by simp only [directPtr]; omega) h

/-! ### Clearing the pointers -/

theorem clear_foldl (ks : List ℕ) (inode : Inode) (P : Inode → Prop) (h : P inode)
    (hstep : ∀ inode, ∀ k ∈ ks, P inode → P (inode.setPtr k 0)) :
    P (ks.foldl (fun inode k => inode.setPtr k 0) inode) := by
  induction ks generalizing inode with
  | nil => exact h
  | cons k ks ih =>
    refine ih _ (hstep _ _ List.mem_cons_self h) fun inode l hl => ?_
    exact hstep _ _ (List.mem_cons_of_mem k hl)

theorem get_clearPtrs (hf : Plain f) : f.get inode.clearPtrs 0 = f.get inode 0 := by
  refine clear_foldl _ inode (fun inode' => f.get inode' 0 = f.get inode 0) rfl ?_
  intro inode' k hk h
  rw [get_setPtr hf (List.mem_range.mp hk), h]

theorem ptr_clearPtrs (hk : k < 16) : inode.clearPtrs.ptr k = 0 := by
  have hset (inode : Inode) : (inode.setPtr k 0).ptr k = 0 :=
    ptr_setPtr_same (by omega) (by omega)
  have hsplit : List.range DIRECT_PTRS =
      List.range k ++ k :: (List.range (15 - k)).map (k + 1 + ·) := by
    have hn : DIRECT_PTRS = k + 1 + (15 - k) := by simp only [DIRECT_PTRS]; omega
    rw [hn, List.range_add, List.range_succ, List.append_assoc, List.singleton_append]
  rw [clearPtrs, hsplit, List.foldl_append, List.foldl_cons]
  refine clear_foldl _ _ (fun inode => inode.ptr k = 0) (hset _) ?_
  intro inode' l _ h
  by_cases hl : k = l
  · rw [← hl]
    exact hset inode'
  · rw [ptr_setPtr_of_ne hl, h]

theorem bounded_clearPtrs (h : inode.Bounded) : inode.clearPtrs.Bounded := by
  refine clear_foldl _ inode Bounded h ?_
  intro inode' k hk h
  exact bounded_setPtr (List.mem_range.mp hk) h

end Inode

/-! ## Ownership -/

namespace Store

/-- Direct pointer `k` of inode `i`. -/
def ptr (st : Store) (i k : ℕ) : ℤ := (st.inodes i).ptr k

@[simp] theorem ptr_setBlock (st : Store) (b : ℤ) (buf : Bytes) (i k : ℕ) :
    (st.setBlock b buf).ptr i k = st.ptr i k := rfl

@[simp] theorem ptr_useInode (st : Store) (n i k : ℕ) : (st.useInode n).ptr i k = st.ptr i k := rfl

@[simp] theorem ptr_useBlock (st : Store) (n i k : ℕ) : (st.useBlock n).ptr i k = st.ptr i k := rfl

@[simp] theorem ptr_setInode_same (st : Store) (i k : ℕ) (inode : Inode) :
    (st.setInode i inode).ptr i k = inode.ptr k := by rw [ptr, inodes_setInode_same]

theorem ptr_setInode_of_ne (st : Store) {i j : ℕ} (k : ℕ) (inode : Inode) (h : j ≠ i) :
    (st.setInode i inode).ptr j k = st.ptr j k := by rw [ptr, inodes_setInode_of_ne _ _ _ h, ptr]

/-- The pointers of the inodes share out the used data blocks, and a free block is blank. -/
structure Owned (st : Store) : Prop where
  ptr_range : ∀ i < 1024, ∀ k < 16, st.ptr i k ≠ 0 → 67 ≤ st.ptr i k ∧ st.ptr i k < 16384
  ptr_inj : ∀ i < 1024, ∀ k < 16, ∀ j < 1024, ∀ l < 16,
    st.ptr i k ≠ 0 → st.ptr i k = st.ptr j l → i = j ∧ k = l
  used_iff : ∀ b < 16384, st.blockUsed b = true ↔ b < 67 ∨ ∃ i < 1024, ∃ k < 16, st.ptr i k = b
  blank : ∀ b < 16384, 67 ≤ b → st.blockUsed b = false → st.blocks b = fun _ => 0

namespace Owned

variable {st st' : Store} {i k b : ℕ} {inode : Inode} {buf : Bytes}

/-- Only the pointers, the flags of the blocks and the blocks matter. -/
theorem congr (h : st.Owned) (hptr : ∀ i < 1024, ∀ k < 16, st'.ptr i k = st.ptr i k)
    (hused : st'.blockUsed = st.blockUsed) (hblocks : st'.blocks = st.blocks) : st'.Owned where
  ptr_range := by
    intro i hi k hk
    rw [hptr i hi k hk]
    exact h.ptr_range i hi k hk
  ptr_inj := by
    intro i hi k hk j hj l hl
    rw [hptr i hi k hk, hptr j hj l hl]
    exact h.ptr_inj i hi k hk j hj l hl
  used_iff := by
    intro b hb
    rw [hused, h.used_iff b hb]
    refine or_congr_right (exists_congr fun i => and_congr_right fun hi => ?_)
    refine exists_congr fun k => and_congr_right fun hk => ?_
    rw [hptr i hi k hk]
  blank := by
    rw [hused, hblocks]
    exact h.blank

/-- An inode may change in everything but its pointers. -/
theorem setInode (h : st.Owned) (hptr : ∀ k < 16, inode.ptr k = st.ptr i k) :
    (st.setInode i inode).Owned := by
  refine h.congr (fun j _ k hk => ?_) rfl rfl
  by_cases hj : j = i
  · rw [hj, ptr_setInode_same, hptr k hk]
  · rw [ptr_setInode_of_ne _ _ _ hj]

/-- The owner of a block may write to it. -/
theorem setBlock {d : Bytes} (h : st.Owned) (hi : i < 1024) (hk : k < 16) :
    (st.setBlock (st.ptr i k) d).Owned where
  ptr_range := h.ptr_range
  ptr_inj := h.ptr_inj
  used_iff := h.used_iff
  blank := by
    intro b hb hb' hfree
    have hne : (b : ℤ) ≠ st.ptr i k := by
      intro heq
      have hused := (h.used_iff b hb).mpr (Or.inr ⟨i, hi, k, hk, heq.symm⟩)
      rw [blockUsed_setBlock, hused] at hfree
      exact Bool.noConfusion hfree
    rw [blocks_setBlock_of_ne _ _ _ hne]
    exact h.blank b hb hb' hfree

/-- A free block lies behind the metadata. -/
theorem le_of_free (h : st.Owned) (hb : b < 16384) (hfree : st.blockUsed b = false) : 67 ≤ b := by
  by_contra hlt
  have hused := (h.used_iff b hb).mpr (Or.inl (by omega))
  rw [hfree] at hused
  exact Bool.noConfusion hused

theorem ptr_ne_of_free (h : st.Owned) (hi : i < 1024) (hk : k < 16) (hb : b < 16384)
    (hfree : st.blockUsed b = false) : st.ptr i k ≠ b := by
  intro heq
  have hused := (h.used_iff b hb).mpr (Or.inr ⟨i, hi, k, hk, heq⟩)
  rw [hfree] at hused
  exact Bool.noConfusion hused

/-- A free block may be given to a pointer that is null. -/
theorem grow (h : st.Owned) (hi : i < 1024) (hk : k < 16) (hnull : st.ptr i k = 0)
    (hb : b < 16384) (hfree : st.blockUsed b = false) (hinode : inode.ptr k = b)
    (hrest : ∀ l < 16, l ≠ k → inode.ptr l = st.ptr i l) :
    ((st.setInode i inode).useBlock b).Owned := by
  have hb67 := h.le_of_free hb hfree
  -- the new pointers are the old ones, apart from the one that was null
  have hptr (j l : ℕ) (hl : l < 16) : ((st.setInode i inode).useBlock b).ptr j l =
      if j = i ∧ l = k then (b : ℤ) else st.ptr j l := by
    rw [ptr_useBlock]
    by_cases hj : j = i
    · rw [hj, ptr_setInode_same]
      by_cases hlk : l = k
      · rw [if_pos ⟨rfl, hlk⟩, hlk, hinode]
      · rw [if_neg (fun hc => hlk hc.2), hrest l hl hlk]
    · rw [ptr_setInode_of_ne _ _ _ hj, if_neg (fun hc => hj hc.1)]
  constructor
  · intro j hj l hl
    rw [hptr j l hl]
    split
    · intro _
      omega
    · exact h.ptr_range j hj l hl
  · intro j hj l hl j' hj' l' hl'
    rw [hptr j l hl, hptr j' l' hl']
    intro hne heq
    split at heq
    · next hjl =>
      split at heq
      · next hjl' => exact ⟨hjl.1.trans hjl'.1.symm, hjl.2.trans hjl'.2.symm⟩
      · exact absurd heq.symm (h.ptr_ne_of_free hj' hl' hb hfree)
    · next hjl =>
      rw [if_neg hjl] at hne
      split at heq
      · exact absurd heq (h.ptr_ne_of_free hj hl hb hfree)
      · exact h.ptr_inj j hj l hl j' hj' l' hl' hne heq
  · intro c hc
    have hflag : ((st.setInode i inode).useBlock b).blockUsed c =
        if c = b then true else st.blockUsed c := by
      rw [blockUsed_useBlock, blockUsed_setInode, Function.update_apply]
    rw [hflag]
    by_cases hcb : c = b
    · rw [if_pos hcb]
      refine ⟨fun _ => Or.inr ⟨i, hi, k, hk, ?_⟩, fun _ => rfl⟩
      rw [hptr i k hk, if_pos ⟨rfl, rfl⟩, hcb]
    · rw [if_neg hcb, h.used_iff c hc]
      by_cases hc67 : c < 67
      · simp only [hc67, true_or]
      refine or_congr_right (exists_congr fun j => and_congr_right fun hj => ?_)
      refine exists_congr fun l => and_congr_right fun hl => ?_
      rw [hptr j l hl]
      split
      · next hjl =>
        rw [hjl.1, hjl.2, hnull]
        omega
      · exact Iff.rfl
  · intro c hc hc' hclear
    have hcb : c ≠ b := by
      intro heq
      rw [heq, blockUsed_useBlock, Function.update_self] at hclear
      exact Bool.noConfusion hclear
    refine h.blank c hc hc' ?_
    rw [blockUsed_useBlock, Function.update_of_ne hcb] at hclear
    exact hclear

end Owned

end Store

end UserLevelOs.Files
