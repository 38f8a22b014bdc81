import UserLevelOs.Lib.Crash
import UserLevelOs.Files.Interrupted
import UserLevelOs.Files.Superblock

/-!
# What a request leaves alone

From some state on, the disk is written at the bitmaps, at inodes that are not live and at
blocks that no live inode leads to.  Everything live stays as it is, but for the times and the
links of one inode, and that holds wherever the request is cut off.

## Main definitions

* `Fs.Spare` — the blocks that may be written.
* `Fs.Confined` — the states such writes lead to.

## Main statements

* `Confined.getAvailIno`, `Confined.getAvailBlkno`, `Confined.bioWrite`, `Confined.writei`.
* `crash_dirAdd` — entering a name in a directory that is not live.
* `crash_writeLoop` — writing a file.
-/

namespace UserLevelOs.Files

open UserLevelOs.Lib

/-- A data block that none of the inodes in `live` leads to. -/
structure Fs.Spare (s : Fs) (live : ℕ → Prop) (b : ℤ) : Prop where
  ge : 67 ≤ b
  lt : b < 16384
  ptr_ne : ∀ i < 1024, live i → ∀ k < 16, s.store.ptr i k ≠ b

/-- Since `s`, nothing live has changed but the times and the links of `p`. -/
structure Fs.Confined (s : Fs) (live : ℕ → Prop) (p : ℕ) (t : Fs) : Prop where
  layout : t.Layout
  block_zero : bioRead t.disk 0 = bioRead s.disk 0
  ino : ∀ i < 1024, Inode.ino.get (t.store.inodes i) 0 = i
  inode : ∀ i < 1024, live i → i ≠ p → t.store.inodes i = s.store.inodes i
  agrees : ∀ i < 1024, live i → Agrees (t.store.inodes i) (s.store.inodes i)
  block : ∀ i < 1024, live i → ∀ k < 16, s.store.ptr i k ≠ 0 →
    t.store.blocks (s.store.ptr i k) = s.store.blocks (s.store.ptr i k)
  inodeUsed : ∀ i, s.store.inodeUsed i = true → t.store.inodeUsed i = true
  blockUsed : ∀ b, s.store.blockUsed b = true → t.store.blockUsed b = true
  spare : ∀ i < 1024, ¬live i → ∀ k < 16, t.store.ptr i k = 0 ∨ s.Spare live (t.store.ptr i k)

/-- Live inode numbers are taken. -/
structure Fs.Grounded (s : Fs) (live : ℕ → Prop) : Prop where
  layout : s.Layout
  owned : s.store.Owned
  ino : ∀ i < 1024, Inode.ino.get (s.store.inodes i) 0 = i
  used : ∀ i, live i → s.store.inodeUsed i = true

section Writes

variable {s t : Fs} {live : ℕ → Prop} {i p : ℕ} {inode : Inode} {b : ℤ} {buf : Bytes} {g : Graph}

theorem Represents.grounded (hs : s.Layout) (h : Represents s.store g)
    (hlive : ∀ i, live i → g i ≠ none) : s.Grounded live where
  layout := hs
  owned := h.owned
  ino := h.ino
  used i hi := (h.used i (hlive i hi)).2

theorem Fs.Grounded.spare_of_free (h : s.Grounded live) {n : ℕ} (hn : n < 16384)
    (hfree : s.store.blockUsed n = false) : s.Spare live n where
  ge := by exact_mod_cast h.owned.le_of_free hn hfree
  lt := by exact_mod_cast hn
  ptr_ne i hi _ k hk := h.owned.ptr_ne_of_free hi hk hn hfree

namespace Fs.Confined

theorem refl (h : s.Grounded live) (p : ℕ) : s.Confined live p s where
  layout := h.layout
  block_zero := rfl
  ino := h.ino
  inode _ _ _ _ := rfl
  agrees i _ _ := Agrees.refl _
  block _ _ _ _ _ _ := rfl
  inodeUsed _ hi := hi
  blockUsed _ hb := hb
  spare := by
    intro i hi hdead k hk
    by_cases hnull : s.store.ptr i k = 0
    · exact Or.inl hnull
    · obtain ⟨hge, hlt⟩ := h.owned.ptr_range i hi k hk hnull
      refine Or.inr ⟨hge, hlt, fun j hj hlive l hl heq => hdead ?_⟩
      rw [(h.owned.ptr_inj i hi k hk j hj l hl hnull heq.symm).1]
      exact hlive

/-- An inode number that is handed out is not live. -/
theorem getAvailIno (h : s.Confined live p t) (hs : s.Grounded live)
    (hret : (getAvailIno t).1 ≠ -1) :
    ∃ i : ℕ, (Files.getAvailIno t).1 = i ∧ i < 1024 ∧ ¬live i ∧
      s.Confined live p (Files.getAvailIno t).2 := by
  obtain ⟨i, hi, hgot, hfree, -, hstore⟩ := getAvailIno_spec h.layout hret
  have hdead : ¬live i := by
    intro hlive
    rw [h.inodeUsed i (hs.used i hlive)] at hfree
    cases hfree
  have hzero : bioRead (Files.getAvailIno t).2.disk 0 = bioRead t.disk 0 := by
    rw [(getAvailIno_disk t).2, h.layout.iBitmapBlk]
    split
    · exact bioRead_bioWrite_of_ne (by decide)
    · rfl
  refine ⟨i, hgot, hi, hdead, layout_getAvailIno h.layout, hzero.trans h.block_zero, ?_, ?_, ?_, ?_,
    ?_, ?_, ?_⟩
  · rw [hstore]
    exact h.ino
  · rw [hstore]
    exact h.inode
  · rw [hstore]
    exact h.agrees
  · rw [hstore, Store.blocks_useInode]
    exact h.block
  · intro j hj
    rw [hstore, Store.inodeUsed_useInode, Function.update_apply, h.inodeUsed j hj, ite_self]
  · rw [hstore]
    exact h.blockUsed
  · rw [hstore]
    exact h.spare

/-- A block that is handed out was free from the start. -/
theorem getAvailBlkno (h : s.Confined live p t) (hret : (getAvailBlkno t).1 ≠ -1) :
    ∃ b : ℕ, (Files.getAvailBlkno t).1 = b ∧ b < 16384 ∧ s.store.blockUsed b = false ∧
      s.Confined live p (Files.getAvailBlkno t).2 := by
  obtain ⟨b, hb, hgot, hfree, -, hstore⟩ := getAvailBlkno_spec h.layout hret
  have hfree' : s.store.blockUsed b = false := by
    by_contra hused
    rw [h.blockUsed b (Bool.eq_true_of_not_eq_false hused)] at hfree
    cases hfree
  have hzero : bioRead (Files.getAvailBlkno t).2.disk 0 = bioRead t.disk 0 := by
    rw [(getAvailBlkno_disk t).2, h.layout.dBitmapBlk]
    split
    · exact bioRead_bioWrite_of_ne (by decide)
    · rfl
  refine ⟨b, hgot, hb, hfree', layout_getAvailBlkno h.layout, hzero.trans h.block_zero, ?_, ?_, ?_,
    ?_, ?_, ?_, ?_⟩
  · rw [hstore]
    exact h.ino
  · rw [hstore]
    exact h.inode
  · rw [hstore]
    exact h.agrees
  · rw [hstore, Store.blocks_useBlock]
    exact h.block
  · rw [hstore]
    exact h.inodeUsed
  · intro c hc
    rw [hstore, Store.blockUsed_useBlock, Function.update_apply, h.blockUsed c hc, ite_self]
  · rw [hstore]
    exact h.spare

/-- A spare block is written. -/
theorem bioWrite (h : s.Confined live p t) (hb : s.Spare live b) (buf : Bytes) :
    s.Confined live p { t with disk := bioWrite t.disk b buf } := by
  have hstore := store_bioWrite (d := buf) h.layout hb.ge hb.lt
  have hpos := hb.ge
  refine ⟨layout_disk h.layout _, ?_, ?_, ?_, ?_, ?_, ?_, ?_, ?_⟩
  · rw [bioRead_bioWrite_of_ne (by omega), h.block_zero]
  · rw [hstore]
    exact h.ino
  · rw [hstore]
    exact h.inode
  · rw [hstore]
    exact h.agrees
  · intro i hi hlive k hk hne
    rw [hstore, Store.blocks_setBlock_of_ne _ _ _ (hb.ptr_ne i hi hlive k hk), h.block i hi hlive k hk hne]
  · rw [hstore]
    exact h.inodeUsed
  · rw [hstore]
    exact h.blockUsed
  · rw [hstore]
    exact h.spare

/-- An inode that keeps its number is written back: one that is not live, or `p` with other times
and links. -/
theorem writei (h : s.Confined live p t) (hi : i < 1024) (hbounded : inode.Bounded)
    (hino : Inode.ino.get inode 0 = i) (hlive : live i → i = p ∧ Agrees inode (t.store.inodes i))
    (hptr : ¬live i → ∀ k < 16, inode.ptr k = 0 ∨ s.Spare live (inode.ptr k)) :
    s.Confined live p (writei t i inode) := by
  have hstore := store_writei h.layout hi hbounded
  refine ⟨layout_writei h.layout i inode, ?_, ?_, ?_, ?_, ?_, ?_, ?_, ?_⟩
  · rw [disk_writei, inodeBlk_eq h.layout, bioRead_bioWrite_of_ne (by omega), h.block_zero]
  · intro j hj
    rw [hstore]
    by_cases hji : j = i
    · rw [hji, Store.inodes_setInode_same, hino]
    · rw [Store.inodes_setInode_of_ne _ _ _ hji, h.ino j hj]
  · intro j hj hlive' hjp
    have hji : j ≠ i := by
      rintro rfl
      exact hjp (hlive hlive').1
    rw [hstore, Store.inodes_setInode_of_ne _ _ _ hji, h.inode j hj hlive' hjp]
  · intro j hj hlive'
    rw [hstore]
    by_cases hji : j = i
    · rw [hji] at hlive' ⊢
      rw [Store.inodes_setInode_same]
      exact (hlive hlive').2.trans (h.agrees i hi hlive')
    · rw [Store.inodes_setInode_of_ne _ _ _ hji]
      exact h.agrees j hj hlive'
  · rw [hstore, Store.blocks_setInode]
    exact h.block
  · rw [hstore]
    exact h.inodeUsed
  · rw [hstore]
    exact h.blockUsed
  · intro j hj hdead k hk
    rw [hstore]
    by_cases hji : j = i
    · rw [hji] at hdead ⊢
      rw [Store.ptr_setInode_same]
      exact hptr hdead k hk
    · rw [Store.ptr_setInode_of_ne _ _ _ hji]
      exact h.spare j hj hdead k hk

end Fs.Confined

end Writes

/-! ## Cutting off the writes -/

/-- The condition holds as long as no allocator has returned `-1`. -/
def Fs.Barring (I : Fs → Prop) (t : Fs) : Prop := t.Granted → I t

section Crash

open Logged Fs

variable {s : Fs} {live : ℕ → Prop} {i p : ℕ} {I J : Fs → Prop} {Q : ℤ → Prop}

/-- The allocator keeps an account of what it returns, and shows the bitmap it has written. -/
theorem crash_getAvailBlkno
    (h : ∀ t, I t → (getAvailBlkno t).1 ≠ -1 → I (getAvailBlkno t).2 ∧ Q (getAvailBlkno t).1) :
    Crash (Barring I) Interrupted.getAvailBlkno (fun r => Barring fun t => I t ∧ Q r)
      (Barring I) := by
  apply Crash.bind (Q := fun r => Barring fun t => I t ∧ Q r)
  · apply Crash.lift
    intro t r t' hI heq
    rw [Option.some.injEq] at heq
    have hr : (getAvailBlkno t).1 = r := congrArg Prod.fst heq
    have ht' : (getAvailBlkno t).2 = t' := congrArg Prod.snd heq
    rw [← hr, ← ht']
    intro hgranted
    rw [Granted, allocs_getAvailBlkno] at hgranted
    exact h t (hI fun r hr => hgranted r (List.mem_cons_of_mem _ hr))
      (hgranted _ List.mem_cons_self)
  · intro r
    apply Crash.ite
    · intro _
      apply Crash.bind (Q := fun _ => Barring fun t => I t ∧ Q r)
      · exact .mark fun t hI => ⟨fun hgranted => (hI hgranted).1, hI⟩
      · exact fun _ => .pure fun _ hI => hI
    · exact fun _ => .pure fun _ hI => hI

theorem crash_bioWrite {b : ℤ} {buf : Bytes}
    (h : ∀ t, I t → J { t with disk := bioWrite t.disk b buf }) :
    Crash (Barring I) (Interrupted.bioWrite b buf) (fun _ => Barring J) (Barring J) := by
  apply Crash.update_mark
  intro t t' hI heq
  cases heq
  have hJ : Barring J { t with disk := bioWrite t.disk b buf } := fun hgranted => h t (hI hgranted)
  exact ⟨hJ, hJ⟩

theorem crash_writei {inode : Inode} (h : ∀ t, I t → J (writei t i inode)) :
    Crash (Barring I) (Interrupted.writei i inode) (fun _ => Barring J) (Barring J) := by
  apply Crash.update_mark
  intro t t' hI heq
  cases heq
  have hJ : Barring J (writei t i inode) := fun hgranted => h t (hI hgranted.of_writei)
  exact ⟨hJ, hJ⟩

/-- A name is entered in a directory that is not live. -/
theorem crash_dirAdd {dirInode : Inode} (hs : s.Grounded live) (hi : i < 1024) (hdead : ¬live i)
    (hbounded : dirInode.Bounded) (hino : Inode.ino.get dirInode 0 = i)
    (hptr : ∀ k < 16, dirInode.ptr k = 0 ∨ s.Spare live (dirInode.ptr k)) (fIno len : ℕ)
    (fname : List UInt8) :
    Crash (Barring (s.Confined live p)) (Interrupted.dirAdd dirInode fIno fname len)
      (fun _ => Barring (s.Confined live p)) (Barring (s.Confined live p)) := by
  refine (Crash.reads (Q := fun _ => Barring (s.Confined live p)) fun _ _ hI _ => hI).bind
    fun duplicate => ?_
  refine .ite (fun _ => .pure fun _ hI => hI) fun _ => .ite (fun _ => .pure fun _ hI => hI) fun _ => ?_
  refine (Crash.reads (Q := fun spot t => Barring (s.Confined live p) t ∧ findSpot t dirInode = spot)
    fun t spot hI hspot => ⟨hI, Option.some.inj hspot⟩).bind fun spot => ?_
  rcases spot with _ | ⟨k, _ | j⟩
  · exact .pure fun _ hI => hI.1
  · refine .given (F := k < 16) (fun t hI => (Sealed.ptr_of_findSpot hI.2).1) fun hk => ?_
    refine ((crash_getAvailBlkno (Q := fun r => s.Spare live r ∧ (dirInode.setPtr k r).ptr k = r)
      fun t hI hret => ?_).consequence (fun _ hI => hI.1) (fun _ _ hQ => hQ) fun _ hC => hC).bind
        fun newBlk => ?_
    · obtain ⟨b, hb, hlt, hfree, hI⟩ := hI.getAvailBlkno hret
      rw [hb]
      exact ⟨hI, hs.spare_of_free hlt hfree, Inode.ptr_setPtr_same (by omega) (by omega)⟩
    · refine (Crash.reads (Q := fun _ => Barring fun t => s.Confined live p t ∧
        s.Spare live newBlk ∧ (dirInode.setPtr k newBlk).ptr k = newBlk) fun _ _ hI _ => hI).bind
          fun buf => ?_
      refine ((crash_bioWrite (J := fun t => s.Confined live p t ∧ s.Spare live newBlk ∧
        (dirInode.setPtr k newBlk).ptr k = newBlk) fun t hI =>
          ⟨hI.1.bioWrite hI.2.1 _, hI.2⟩).consequence (fun _ hI => hI) (fun _ _ hQ => hQ)
            fun _ hC hgranted => (hC hgranted).1).bind fun _ => ?_
      refine (crash_writei (J := s.Confined live p) fun t hI => ?_).bind fun _ => .pure fun _ hI => hI
      obtain ⟨hI, hspare, hsame⟩ := hI
      have hnum : Inode.ino.get (dirInode.setPtr k newBlk) 0 = i := by
        rw [Inode.get_setPtr (by decide) hk, hino]
      rw [hnum]
      refine hI.writei hi (Inode.bounded_setPtr hk hbounded) hnum (fun hlive => absurd hlive hdead)
        fun _ l hl => ?_
      by_cases hlk : l = k
      · rw [hlk, hsame]
        exact Or.inr hspare
      · rw [Inode.ptr_setPtr_of_ne hlk]
        exact hptr l hl
  · refine .given (F := s.Spare live (dirInode.ptr k)) (fun t hI => ?_) fun hspare => ?_
    · obtain ⟨hk, hne⟩ := Sealed.ptr_of_findSpot hI.2
      exact (hptr k hk).resolve_left (hne j rfl)
    · refine (Crash.reads (Q := fun _ => Barring (s.Confined live p)) fun _ _ hI _ => hI.1).bind
        fun buf => ?_
      exact (crash_bioWrite fun t hI => hI.bioWrite hspare _).bind fun _ => .pure fun _ hI => hI

end Crash

/-! ## Writing a file -/

/-- A file that is being written, as it is on the disk: the inode of before, and in its blocks
nothing that was not there before or is `written`. -/
structure Fs.Rewriting (s : Fs) (live : ℕ → Prop) (i : ℕ) (written : ℕ → Option UInt8) (t : Fs) :
    Prop where
  confined : s.Confined live i t
  inode : t.store.inodes i = s.store.inodes i
  byte : ∀ k < 16, s.store.ptr i k ≠ 0 → ∀ x < 4096,
    t.store.blocks (s.store.ptr i k) x = s.store.blocks (s.store.ptr i k) x ∨
      written (4096 * k + x) = some (t.store.blocks (s.store.ptr i k) x)

/-- The inode of the file in memory: its new pointers lead to blocks that were free. -/
structure Fs.InMemory (s : Fs) (i : ℕ) (nodei : Inode) : Prop where
  bounded : nodei.Bounded
  ino : Inode.ino.get nodei 0 = i
  old : ∀ k < 16, s.store.ptr i k ≠ 0 → nodei.ptr k = s.store.ptr i k
  new : ∀ k < 16, s.store.ptr i k = 0 →
    nodei.ptr k = 0 ∨ ∃ b : ℕ, b < 16384 ∧ s.store.blockUsed b = false ∧ nodei.ptr k = b

section Writing

open Logged Fs

variable {s t : Fs} {live : ℕ → Prop} {i k : ℕ} {nodei : Inode} {written : ℕ → Option UInt8}
  {buffer : List UInt8}

theorem Fs.Grounded.inMemory (hs : s.Grounded live) (hi : i < 1024) :
    s.InMemory i (s.store.inodes i) where
  bounded := bounded_inodes s i
  ino := hs.ino i hi
  old _ _ _ := rfl
  new _ _ hnull := Or.inl hnull

theorem Fs.Grounded.rewriting (hs : s.Grounded live) (i : ℕ) (written : ℕ → Option UInt8) :
    s.Rewriting live i written s where
  confined := .refl hs i
  inode := rfl
  byte _ _ _ _ _ := Or.inl rfl

namespace Fs.InMemory

/-- A pointer in memory leads to a spare block, or to none. -/
theorem spare (h : s.InMemory i nodei) (hs : s.Grounded live) (hi : i < 1024) (hdead : ¬live i)
    (hk : k < 16) : nodei.ptr k = 0 ∨ s.Spare live (nodei.ptr k) := by
  by_cases hnull : s.store.ptr i k = 0
  · rcases h.new k hk hnull with hzero | ⟨b, hb, hfree, heq⟩
    · exact Or.inl hzero
    · rw [heq]
      exact Or.inr (hs.spare_of_free hb hfree)
  · rw [h.old k hk hnull]
    exact (Confined.refl hs i).spare i hi hdead k hk

/-- Two pointers, one on the disk and one in memory, lead to one block only if they are the same. -/
theorem ptr_ne (h : s.InMemory i nodei) (hs : s.Grounded live) (hi : i < 1024) {l : ℕ} (hk : k < 16)
    (hl : l < 16) (hne : s.store.ptr i l ≠ 0) (heq : s.store.ptr i l = nodei.ptr k) : l = k := by
  by_cases hnull : s.store.ptr i k = 0
  · rcases h.new k hk hnull with hzero | ⟨b, hb, hfree, hptr⟩
    · exact absurd (heq.trans hzero) hne
    · exact absurd (heq.trans hptr) (hs.owned.ptr_ne_of_free hi hl hb hfree)
  · rw [h.old k hk hnull] at heq
    exact (hs.owned.ptr_inj i hi l hl i hi k hk hne heq).2

/-- A missing block is given a free one. -/
theorem setPtr (h : s.InMemory i nodei) (hk : k < 16) (hnull : nodei.ptr k = 0) {b : ℕ}
    (hb : b < 16384) (hfree : s.store.blockUsed b = false) : s.InMemory i (nodei.setPtr k b) := by
  have hsame : (nodei.setPtr k b).ptr k = b := Inode.ptr_setPtr_same (by omega) (by omega)
  refine ⟨Inode.bounded_setPtr hk h.bounded, ?_, ?_, ?_⟩
  · rw [Inode.get_setPtr (by decide) hk, h.ino]
  · intro l hl hne
    have hlk : l ≠ k := by
      rintro rfl
      exact hne (h.old l hl hne ▸ hnull)
    rw [Inode.ptr_setPtr_of_ne hlk, h.old l hl hne]
  · intro l hl hzero
    by_cases hlk : l = k
    · rw [hlk]
      exact Or.inr ⟨b, hb, hfree, hsame⟩
    · rw [Inode.ptr_setPtr_of_ne hlk]
      exact h.new l hl hzero

end Fs.InMemory

/-- Allocating a block does not touch the file. -/
theorem Fs.Rewriting.getAvailBlkno (h : s.Rewriting live i written t)
    (hret : (getAvailBlkno t).1 ≠ -1) :
    s.Rewriting live i written (Files.getAvailBlkno t).2 ∧
      ∃ b : ℕ, (Files.getAvailBlkno t).1 = b ∧ b < 16384 ∧ s.store.blockUsed b = false := by
  obtain ⟨b, hb, hlt, hfree, hconfined⟩ := h.confined.getAvailBlkno hret
  obtain ⟨b', -, -, -, -, hstore⟩ := getAvailBlkno_spec h.confined.layout hret
  refine ⟨⟨hconfined, ?_, ?_⟩, b, hb, hlt, hfree⟩
  · rw [hstore, Store.inodes_useBlock, h.inode]
  · rw [hstore, Store.blocks_useBlock]
    exact h.byte

/-- A piece of the buffer is stored in one block. -/
theorem Fs.Rewriting.store (h : s.Rewriting live i written t) (hmem : s.InMemory i nodei)
    (hs : s.Grounded live) (hi : i < 1024) (hdead : ¬live i) (hk : k < 16) (hne : nodei.ptr k ≠ 0)
    {off : ℕ} {chunk : List UInt8}
    (hwritten : ∀ x < 4096, off ≤ x → x < off + chunk.length →
      written (4096 * k + x) = some (chunk.getD (x - off) 0)) :
    s.Rewriting live i written { t with
      disk := bioWrite t.disk (nodei.ptr k) ((bioRead t.disk (nodei.ptr k)).write off chunk) } := by
  have hspare := (hmem.spare hs hi hdead hk).resolve_left hne
  have hstore := store_bioWrite (d := (bioRead t.disk (nodei.ptr k)).write off chunk)
    h.confined.layout hspare.ge hspare.lt
  refine ⟨h.confined.bioWrite hspare _, ?_, ?_⟩
  · rw [hstore, Store.inodes_setBlock, h.inode]
  · intro l hl hptr x hx
    rw [hstore]
    by_cases heq : s.store.ptr i l = nodei.ptr k
    · have hlk := hmem.ptr_ne hs hi hk hl hptr heq
      rw [heq, Store.blocks_setBlock_same]
      by_cases hin : off ≤ x ∧ x < off + chunk.length
      · rw [Bytes.write_apply_of_mem hin.1 hin.2, hlk]
        exact Or.inr (hwritten x hx hin.1 hin.2)
      · rw [Bytes.write_apply_of_notMem (by omega), bioRead_eq hspare.ge, ← heq]
        exact h.byte l hl hptr x hx
    · rw [Store.blocks_setBlock_of_ne _ _ _ heq]
      exact h.byte l hl hptr x hx

/-- A missing block is allocated before it is written. -/
theorem crash_ensureBlock (hs : s.Grounded live) (hk : k < 16) :
    Crash (Barring fun t => s.Rewriting live i written t ∧ s.InMemory i nodei)
      (Interrupted.ensureBlock nodei k)
      (fun nodei' => Barring fun t =>
        s.Rewriting live i written t ∧ s.InMemory i nodei' ∧ nodei'.ptr k ≠ 0)
      (Barring (s.Rewriting live i written)) := by
  apply Crash.ite
  · intro hnull
    apply Crash.bind (Q := fun r : ℤ => Barring fun t => (s.Rewriting live i written t ∧
      s.InMemory i nodei) ∧ ∃ b : ℕ, r = b ∧ b < 16384 ∧ s.store.blockUsed b = false)
    · refine (crash_getAvailBlkno fun t hI hret => ?_).consequence (fun _ hI => hI)
        (fun _ _ hQ => hQ) fun _ hC hgranted => (hC hgranted).1
      obtain ⟨hrew, hgot⟩ := hI.1.getAvailBlkno hret
      exact ⟨⟨hrew, hI.2⟩, hgot⟩
    · intro r
      apply Crash.pure
      intro t hQ hgranted
      obtain ⟨⟨hI, hmem⟩, b, rfl, hlt, hfree⟩ := hQ hgranted
      refine ⟨hI, hmem.setPtr hk hnull hlt hfree, ?_⟩
      rw [Inode.ptr_setPtr_same (by omega) (by omega)]
      have hb := hs.owned.le_of_free hlt hfree
      omega
  · intro hne
    exact .pure fun t hI hgranted => ⟨(hI hgranted).1, (hI hgranted).2, hne⟩

/-- Wherever the loop of `rufs_write` is cut off, the file on the disk has some of the bytes that
were to be stored from `start` on, and is otherwise as it was. -/
theorem crash_writeLoop (hs : s.Grounded live) (hi : i < 1024) (hdead : ¬live i) {start total : ℕ}
    (hlen : total ≤ buffer.length)
    (hwritten : ∀ m < total, start + m < 65536 → written (start + m) = some (buffer.getD m 0))
    (left : ℕ) : ∀ {blkIndex offset remaining bytesWritten : ℕ} {nodei : Inode},
      blkIndex + left ≤ 16 ∨ left = 0 → bytesWritten + remaining = total →
      (remaining ≠ 0 → 4096 * blkIndex + offset % 4096 = start + bytesWritten) →
      Crash (Barring fun t => s.Rewriting live i written t ∧ s.InMemory i nodei)
        (Interrupted.writeLoop buffer left blkIndex offset remaining bytesWritten nodei)
        (fun r => Barring fun t => s.Rewriting live i written t ∧ s.InMemory i r.1)
        (Barring (s.Rewriting live i written)) := by
  induction left with
  | zero =>
    intro blkIndex offset remaining bytesWritten nodei _ _ _
    exact .pure fun _ hI => hI
  | succ left ih =>
    intro blkIndex offset remaining bytesWritten nodei hleft htotal hpos
    refine .ite (fun _ => .pure fun _ hI => hI) fun hrem => ?_
    have hk : blkIndex < 16 := by omega
    refine (crash_ensureBlock hs hk).bind fun nodei' => ?_
    refine (Crash.reads (Q := fun buf => Barring fun t => s.Rewriting live i written t ∧
      s.InMemory i nodei' ∧ nodei'.ptr blkIndex ≠ 0 ∧ bioRead t.disk (nodei'.ptr blkIndex) = buf)
        fun t buf hI hbuf hgranted => ?_).bind fun buf => ?_
    · obtain ⟨hrew, hmem, hne⟩ := hI hgranted
      exact ⟨hrew, hmem, hne, Option.some.inj hbuf⟩
    refine ((crash_bioWrite (J := fun t => s.Rewriting live i written t ∧ s.InMemory i nodei')
      fun t hI => ?_).consequence (fun _ hI => hI) (fun _ _ hQ => hQ)
        fun _ hC hgranted => (hC hgranted).1).bind fun _ => ?_
    · obtain ⟨hrew, hmem, hne, rfl⟩ := hI
      refine ⟨hrew.store hmem hs hi hdead hk hne fun x hx h₁ h₂ => ?_, hmem⟩
      simp only [List.length_take, List.length_drop, BLOCK_SIZE] at h₁ h₂ ⊢
      have hx' : 4096 * blkIndex + x = start + (bytesWritten + (x - offset % 4096)) := by
        have hstart := hpos hrem
        omega
      rw [hx', hwritten _ (by omega) (by omega), List.getD_eq_getElem?_getD, List.getD_eq_getElem?_getD,
        List.getElem?_take_of_lt (by omega), List.getElem?_drop]
    · refine ih (by omega) (by omega) fun hrem' => ?_
      simp only [BLOCK_SIZE] at hrem' ⊢
      have hstart := hpos hrem
      omega

end Writing

end UserLevelOs.Files
