import UserLevelOs.Files.Exhaustion

/-!
# One entry more

`dir_add` fills one slot and leaves the others as they are, as long as the name fits.  The name
field has 208 bytes, `strcpy` does not look at its size, and `dir_find` compares a copy of the
214 bytes of a slot: a name of 210 bytes or more runs out of its own slot, into the next one when
it is stored and past the copy when it is looked for.

## Main definitions

* `Hit`, `dirSearch` — `dir_find`, with the searches that run past the copy of a slot.
* `Fs.Booked` — sound disks whose bitmap has every block that is in use.
* `OneEntry`, `AddsOne` — one entry more, and nothing else.

## Main statements

* `dirFind_eq_dirSearch`.
* `dirAdd_filled` — what `dir_add` leaves on any such disk.
* `addsOne_iff`.
* `addsOne_fails`.
-/

namespace UserLevelOs.Files

open UserLevelOs.Lib

/-! ## Searching a directory -/

/-- How a search ends at a slot: its name is the one looked for, or the comparison has run past
the copy of the slot. -/
inductive Hit where
  | found (ino : ℕ)
  | overrun
  deriving DecidableEq, Repr

def Hit.ino : Hit → Option ℕ
  | .found ino => some ino
  | .overrun => none

/-- `curr` is a copy of slot `j`, so `strcmp` may read no more than the rest of it. -/
def slotHit (buf : Bytes) (fname : List UInt8) (j : ℕ) : Option Hit :=
  if Dirent.valid.get buf (slotAddr j) = 0 then none
  else
    match Bytes.matchIn (buf.read (slotAddr j + Dirent.name) (DIRENT_BYTES - Dirent.name)) fname with
    | some true => some (.found (Dirent.ino.get buf (slotAddr j)))
    | some false => none
    | none => some .overrun

/-- `dir_find`; `none` for the return value 0. -/
def dirSearch (s : Fs) (ino : ℕ) (fname : List UInt8) : Option Hit :=
  let dirInode := readi s ino
  if Inode.valid.get dirInode 0 = 0 then none
  else (List.range DIRECT_PTRS).findSome? fun i =>
    if dirInode.ptr i ≠ 0 then
      (List.range DIRENTS_IN_BLOCK).findSome? (slotHit (bioRead s.disk (dirInode.ptr i)) fname)
    else none

section Search

variable {s : Fs} {i j n : ℕ} {buf : Bytes} {fname : List UInt8}

/-- The slot holds all that is compared of a name that fits it. -/
theorem slotHit_of_lt (h : fname.length < 210) : slotHit buf fname j =
    if slotMatches buf fname j then some (.found (Dirent.ino.get buf (slotAddr j))) else none := by
  have hmatch : Bytes.matchIn (buf.read (slotAddr j + Dirent.name) (DIRENT_BYTES - Dirent.name)) fname =
      some (buf.strEq (slotAddr j + Dirent.name) fname) := Bytes.matchIn_of_lt h
  rw [slotHit, hmatch, slotMatches]
  by_cases hvalid : Dirent.valid.get buf (slotAddr j) = 0
  · simp [hvalid]
  · cases hstr : buf.strEq (slotAddr j + Dirent.name) fname with
    | false => simp [hvalid]
    | true => simp [hvalid]

theorem slotHit_ne_found (h : 210 ≤ fname.length) : slotHit buf fname j ≠ some (.found n) := by
  have hmatch : Bytes.matchIn (buf.read (slotAddr j + Dirent.name) (DIRENT_BYTES - Dirent.name)) fname ≠
      some true := Bytes.matchIn_ne_true (by rw [Bytes.length_read]; exact h)
  rw [slotHit]
  split
  · simp
  · split
    · contradiction
    · simp
    · simp

/-- A name of 210 bytes is never found. -/
theorem dirSearch_ne_found (h : 210 ≤ fname.length) : dirSearch s i fname ≠ some (.found n) := by
  rw [dirSearch]
  split
  · simp
  · intro hfound
    obtain ⟨k, -, hk⟩ := List.exists_of_findSome?_eq_some hfound
    split at hk
    · obtain ⟨j, -, hj⟩ := List.exists_of_findSome?_eq_some hk
      exact slotHit_ne_found h hj
    · cases hk

/-- Two searches that differ where one of them runs past a slot. -/
theorem findSome?_ino {α : Type} {f : α → Option Hit} {g : α → Option ℕ} {l : List α}
    (h : l.findSome? f ≠ some .overrun)
    (hfg : ∀ a ∈ l, f a ≠ some .overrun → g a = (f a).bind Hit.ino) :
    l.findSome? g = (l.findSome? f).bind Hit.ino := by
  induction l with
  | nil => rfl
  | cons a l ih =>
    have ha := hfg a List.mem_cons_self
    rw [List.findSome?_cons] at h ⊢
    rw [List.findSome?_cons]
    cases hfa : f a with
    | none =>
      rw [hfa] at h ha
      rw [ha (by simp), Option.bind_none]
      exact ih h fun b hb => hfg b (List.mem_cons_of_mem a hb)
    | some hit =>
      rw [hfa] at h ha
      rw [ha h, Option.bind_some]
      cases hit with
      | found ino => rfl
      | overrun => exact absurd rfl h

/-- A search that stays within the slots is `dirFind`. -/
theorem dirFind_eq_dirSearch (h : dirSearch s i fname ≠ some .overrun) :
    dirFind s i fname = (dirSearch s i fname).bind Hit.ino := by
  rw [dirSearch] at h ⊢
  rw [dirFind]
  by_cases hvalid : Inode.valid.get (readi s i) 0 = 0
  · rw [if_pos hvalid, if_pos hvalid, Option.bind_none]
  rw [if_neg hvalid] at h ⊢
  rw [if_neg hvalid]
  refine findSome?_ino h fun k _ hk => ?_
  split
  · next hne =>
    rw [if_pos hne] at hk
    rw [find?_map]
    refine findSome?_ino hk fun j _ hj => ?_
    rw [slotHit] at hj ⊢
    rw [slotMatches]
    by_cases hslot : Dirent.valid.get (bioRead s.disk ((readi s i).ptr k)) (slotAddr j) = 0
    · simp [hslot]
    · rw [if_neg hslot] at hj ⊢
      rcases Bytes.matchIn_eq (bioRead s.disk ((readi s i).ptr k)) (slotAddr j + Dirent.name)
        (DIRENT_BYTES - Dirent.name) fname with hover | hend
      · rw [hover] at hj
        exact absurd rfl hj
      · rw [hend, decide_eq_true hslot, Bool.true_and]
        cases (bioRead s.disk ((readi s i).ptr k)).strEq (slotAddr j + Dirent.name) fname with
        | false => rfl
        | true => rfl
  · rfl

end Search

/-! ## Disks -/

namespace Fs

/-- The bitmap on the disk has a flag for block `b`. -/
def InUse (s : Fs) (b : ℕ) : Prop := Bitmap.get .lsbFirst (bioRead s.disk s.dBitmapBlk) b = true

/-- A sound disk whose bitmap has the metadata and every block a pointer leads to. -/
structure Booked (s : Fs) : Prop extends Sound s where
  metadata : ∀ b < 67, s.InUse b
  used : ∀ i < 1024, ∀ k < 16, ∀ b < MAX_DNUM, s.ptr i k = (b : ℕ) → s.InUse b

/-- Pointer `k` of inode `i` is null, or its block has a slot without an entry. -/
def HasRoom (s : Fs) (i k : ℕ) : Prop :=
  s.ptr i k = 0 ∨ ∃ j < DIRENTS_IN_BLOCK, Dirent.valid.get (bioRead s.disk (s.ptr i k)) (slotAddr j) = 0

/-- The pointer `dir_add` comes to. -/
def FirstRoom (s : Fs) (i k : ℕ) : Prop := k < DIRECT_PTRS ∧ s.HasRoom i k ∧ ∀ l < k, ¬ s.HasRoom i l

/-- The pointer leads to a block, or there is one for it. -/
def CanStore (s : Fs) (i k : ℕ) : Prop := IsData (s.ptr i k) ∨ s.ptr i k = 0 ∧ ¬ s.BlocksFull

end Fs

section Disks

variable {s s' s₁ : Fs} {g : Graph} {i k : ℕ} {fname : List UInt8}

theorem Represents.booked (hs : s.Layout) (h : Represents s.store g) : s.Booked where
  toSound := h.sound hs
  metadata b hb := by
    rw [Fs.InUse, Fs.blockUsed_eq hs]
    exact (h.owned.used_iff b (by omega)).mpr (Or.inl hb)
  used j hj l hl b hb hptr := by
    rw [Fs.InUse, Fs.blockUsed_eq hs]
    rw [Fs.ptr_eq hj] at hptr
    exact (h.owned.used_iff b hb).mpr (Or.inr ⟨j, hj, l, hl, hptr⟩)

/-- A lost block reads like one that is not there. -/
theorem Fs.Sound.bioRead_ptr (h : s.Sound) (hi : i < 1024) (hk : k < 16) (hne : s.store.ptr i k ≠ 0) :
    bioRead s.disk (s.store.ptr i k) = s.store.blocks (s.store.ptr i k) := by
  have hptr := h.ptr i hi k hk
  rw [Fs.ptr_eq hi] at hptr
  rcases hptr with hdata | hnull | hlost
  · exact Fs.bioRead_eq hdata.1
  · exact absurd hnull hne
  · rw [hlost, bioRead, if_neg (by decide)]
    rfl

theorem Fs.Sound.hasDuplicate_eq (h : s.Sound) (hi : i < 1024) :
    hasDuplicate s (readi s i) fname = false := by
  rw [hasDuplicate, List.any_eq_false]
  intro k hk
  have hne : (readi s i).ptr k ≠ 1 := by
    intro h1
    rcases h.ptr i hi k (List.mem_range.mp hk) with hdata | hnull | hlost
    · rw [Fs.ptr, h1] at hdata
      exact absurd hdata.1 (by decide)
    · rw [Fs.ptr, h1] at hnull
      cases hnull
    · rw [Fs.ptr, h1] at hlost
      cases hlost
  simp [VALID, hne]

/-- The tables are on the disk. -/
theorem store_congr (hs : s.Layout) (hs' : s'.Layout) (hdisk : s'.disk = s.disk) :
    s'.store = s.store := by
  obtain ⟨hinodes, hblocks⟩ := Fs.tables_congr hs hs' fun c _ => by rw [hdisk]
  ext1
  · exact hinodes
  · exact hblocks
  · simp only [Fs.store, hdisk]
  · simp only [Fs.store, hdisk]

/-- What the allocator does: nothing on a full disk, and else it takes a free block. -/
theorem getAvailBlkno_cases (hs : s.Layout) :
    s.BlocksFull ∧ (getAvailBlkno s).1 = -1 ∧ (getAvailBlkno s).2.store = s.store ∨
      ∃ b < 16384, (getAvailBlkno s).1 = (b : ℕ) ∧ ¬ s.InUse b ∧
        (getAvailBlkno s).2.store = s.store.useBlock b := by
  by_cases hfull : s.BlocksFull
  · obtain ⟨hret, hdisk⟩ := hfull.getAvailBlkno hs
    exact Or.inl ⟨hfull, hret, store_congr hs (Fs.layout_getAvailBlkno hs) hdisk⟩
  · have hret : (getAvailBlkno s).1 ≠ -1 := by
      intro hret
      refine hfull fun b hb => ?_
      rw [Fs.blockUsed_eq hs, Fs.getAvailBlkno_exhausted hs hret b hb]
    obtain ⟨b, hb, hgot, hfree, -, hstore⟩ := Fs.getAvailBlkno_spec hs hret
    refine Or.inr ⟨b, hb, hgot, ?_, hstore⟩
    rw [Fs.InUse, Fs.blockUsed_eq hs, hfree]
    exact Bool.false_ne_true

/-- The first pointer with room is the one found. -/
theorem Fs.FirstRoom.findSpot_eq (h : s.FirstRoom i k) :
    ∃ slot, findSpot s (readi s i) = some (k, slot) := by
  obtain ⟨hk, hroom, hbefore⟩ := h
  have hnone (l : ℕ) (hl : l < k) : (if (readi s i).ptr l = 0 then some (l, none)
      else ((List.range DIRENTS_IN_BLOCK).find? fun j => decide
        (Dirent.valid.get (bioRead s.disk ((readi s i).ptr l)) (slotAddr j) = 0)).map
          fun j => (l, some j)) = none := by
    have hfull := hbefore l hl
    rw [Fs.HasRoom, Fs.ptr] at hfull
    push Not at hfull
    rw [if_neg hfull.1, Option.map_eq_none_iff, List.find?_range_eq_none]
    intro j hj
    simpa using hfull.2 j hj
  rcases hroom with hnull | ⟨j, hj, hfree⟩
  · refine ⟨none, findSome?_range_eq_some hk hnone ?_⟩
    rw [Fs.ptr] at hnull
    rw [if_pos hnull]
  · by_cases hnull : s.ptr i k = 0
    · refine ⟨none, findSome?_range_eq_some hk hnone ?_⟩
      rw [Fs.ptr] at hnull
      rw [if_pos hnull]
    · obtain ⟨m, hm⟩ : ∃ m, ((List.range DIRENTS_IN_BLOCK).find? fun j => decide
          (Dirent.valid.get (bioRead s.disk ((readi s i).ptr k)) (slotAddr j) = 0)) = some m := by
        rw [← Option.isSome_iff_exists, List.find?_isSome]
        exact ⟨j, List.mem_range.mpr hj, by simpa [Fs.ptr] using hfree⟩
      refine ⟨some m, findSome?_range_eq_some hk hnone ?_⟩
      rw [Fs.ptr] at hnull
      rw [if_neg hnull]
      dsimp only
      rw [hm]
      rfl

/-- Where `dir_add` comes to a pointer with room. -/
theorem firstRoom_of_findSpot {slot : Option ℕ} (h : findSpot s (readi s i) = some (k, slot)) :
    s.FirstRoom i k := by
  classical
  have hroom : ∃ l, l < 16 ∧ s.HasRoom i l := by
    obtain ⟨hk, ⟨hnull, -⟩ | ⟨-, j, hj, -, hfree⟩⟩ := findSpot_cases h
    · exact ⟨k, hk, Or.inl hnull⟩
    · exact ⟨k, hk, Or.inr ⟨j, hj, hfree⟩⟩
  have hfirst : s.FirstRoom i (Nat.find hroom) := by
    obtain ⟨hlt, hfound⟩ := Nat.find_spec hroom
    refine ⟨hlt, hfound, fun l hl hl' => Nat.find_min hroom hl ⟨Nat.lt_trans hl hlt, hl'⟩⟩
  obtain ⟨slot', hspot⟩ := hfirst.findSpot_eq
  rw [h, Option.some.injEq, Prod.mk.injEq] at hspot
  rw [hspot.1]
  exact hfirst

end Disks

/-! ## What `dir_add` leaves -/

/-- `dir_add` has put `buf` into block `c`, which pointer `k` of inode `i` leads to now.  A block
that could not be had is `-1`, and what goes there is lost. -/
structure Filled (s s' : Fs) (i k : ℕ) (c : ℤ) (buf : Bytes) : Prop where
  layout : s'.Layout
  field : ∀ {f : Field}, Plain f → ∀ j, f.get (s'.store.inodes j) 0 = f.get (s.store.inodes j) 0
  ptr : ∀ j l, s'.store.ptr j l = if j = i ∧ l = k then c else s.store.ptr j l
  block : ∀ b, s'.store.blocks b = if b = c ∧ IsData c then buf else s.store.blocks b
  flag : ∀ b < MAX_DNUM, s'.store.blockUsed b = (s.store.blockUsed b || decide (c = (b : ℕ)))
  data_iff : IsData c ↔ s.CanStore i k
  lost : IsData c ∨ c = -1
  once : IsData c → ∀ j < 1024, ∀ l < 16, s.store.ptr j l = c → j = i ∧ l = k
  old : s.store.ptr i k ≠ 0 → c = s.store.ptr i k

section Filled

variable {s s' s₁ : Fs} {i k fIno len : ℕ} {fname : List UInt8} {r c : ℤ} {buf : Bytes} {slot : Option ℕ}

theorem blocks_of_lt {b : ℤ} (hb : b < 67) : s.store.blocks b = fun _ => 0 := by
  simp only [Fs.store, if_neg (Int.not_le.mpr hb)]

theorem isData_natCast {b : ℕ} : IsData b ↔ 67 ≤ b ∧ b < 16384 := by
  rw [IsData]
  omega

/-- An entry put into a block the directory has. -/
theorem filled_oldBlock (h : s.Booked) (hi : i < 1024) (hk : k < 16) (hne : s.store.ptr i k ≠ 0)
    (hs' : s' = { s with disk := bioWrite s.disk (s.store.ptr i k) buf }) :
    Filled s s' i k (s.store.ptr i k) buf := by
  have hptr := h.ptr i hi k hk
  rw [Fs.ptr_eq hi] at hptr
  have hlost : IsData (s.store.ptr i k) ∨ s.store.ptr i k = -1 :=
    hptr.imp_right fun hptr => hptr.resolve_left hne
  have hstore : s'.store = if IsData (s.store.ptr i k) then s.store.setBlock (s.store.ptr i k) buf
      else s.store := by
    rcases hlost with hdata | hlost
    · rw [if_pos hdata, hs']
      exact Fs.store_bioWrite h.layout hdata.1 hdata.2
    · rw [hlost, if_neg not_isData_neg_one, hs', hlost, bioWrite_neg_one]
  have hinodes : s'.store.inodes = s.store.inodes := by
    rw [hstore]
    split
    · rfl
    · rfl
  refine ⟨hs' ▸ Fs.layout_disk h.layout _, fun _ j => ?_, fun j l => ?_, fun b => ?_, fun b hb => ?_,
    ?_, hlost, fun hdata j hj l hl heq => ?_, fun _ => rfl⟩
  · rw [hinodes]
  · rw [Store.ptr, hinodes]
    split
    · next hjl => rw [hjl.1, hjl.2, Store.ptr]
    · rfl
  · rw [hstore]
    by_cases hdata : IsData (s.store.ptr i k)
    · rw [if_pos hdata]
      by_cases hb : b = s.store.ptr i k
      · rw [if_pos ⟨hb, hdata⟩, hb, Store.blocks_setBlock_same]
      · rw [if_neg fun hc => hb hc.1, Store.blocks_setBlock_of_ne _ _ _ hb]
    · rw [if_neg hdata, if_neg fun hc => hdata hc.2]
  · have hflag : s'.store.blockUsed = s.store.blockUsed := by
      rw [hstore]
      split
      · rfl
      · rfl
    rw [hflag]
    by_cases heq : s.store.ptr i k = (b : ℕ)
    · have hused := h.used i hi k hk b hb (by rw [Fs.ptr_eq hi, heq])
      rw [Fs.InUse, Fs.blockUsed_eq h.layout] at hused
      rw [hused, Bool.true_or]
    · rw [decide_eq_false heq, Bool.or_false]
  · rw [Fs.CanStore, Fs.ptr_eq hi]
    exact ⟨Or.inl, fun hc => hc.resolve_right fun hc => hne hc.1⟩
  · have hpair := h.once i hi k hk j hj l hl (by rwa [Fs.ptr_eq hi])
      (by rw [Fs.ptr_eq hi, Fs.ptr_eq hj, heq])
    exact ⟨hpair.1.symm, hpair.2.symm⟩

/-- What is on the disk when a directory has asked for a block. -/
theorem store_getBlock (h : s.Booked) (hi : i < 1024) (hk : k < 16) (hget : getAvailBlkno s = (c, s₁))
    (hs' : s' = writei { s₁ with disk := bioWrite s₁.disk c buf } i ((s.store.inodes i).setPtr k c)) :
    (c = -1 ∧ s.BlocksFull ∧
        s'.store = s.store.setInode i ((s.store.inodes i).setPtr k (-1))) ∨
      ∃ b : ℕ, c = b ∧ 67 ≤ b ∧ b < 16384 ∧ ¬ s.InUse b ∧
        s'.store = ((s.store.setInode i ((s.store.inodes i).setPtr k b)).useBlock b).setBlock b buf := by
  have hcases := getAvailBlkno_cases h.layout
  have hlayout := Fs.layout_getAvailBlkno h.layout
  have hbounded (b : ℤ) : ((s.store.inodes i).setPtr k b).Bounded :=
    Inode.bounded_setPtr hk (Fs.bounded_inodes s i)
  rw [hget] at hcases hlayout
  dsimp only at hcases hlayout
  rcases hcases with ⟨hfull, hc, hstore⟩ | ⟨b, hb, hc, hfree, hstore⟩
  · refine Or.inl ⟨hc, hfull, ?_⟩
    rw [hs', hc, bioWrite_neg_one, ← hstore]
    exact Fs.store_writei hlayout hi (hstore ▸ hbounded _)
  · have h67 : 67 ≤ b := by
      by_contra hlt
      exact hfree (h.metadata b (by omega))
    refine Or.inr ⟨b, hc, h67, hb, hfree, ?_⟩
    rw [hs', hc]
    exact store_newBlock hlayout hi h67 hb hstore (hbounded _)

/-- An entry put into a block the directory gets for it, or should have got. -/
theorem filled_newBlock (h : s.Booked) (hi : i < 1024) (hk : k < 16) (hnull : s.store.ptr i k = 0)
    (hget : getAvailBlkno s = (c, s₁))
    (hs' : s' = writei { s₁ with disk := bioWrite s₁.disk c buf } i ((s.store.inodes i).setPtr k c)) :
    Filled s s' i k c buf := by
  have hcases := store_getBlock h hi hk hget hs'
  have hlayout : s'.Layout := by
    have hlayout := Fs.layout_getAvailBlkno h.layout
    rw [hget] at hlayout
    rw [hs']
    exact Fs.layout_writei (Fs.layout_disk hlayout _) _ _
  have hinodes : s'.store.inodes = (s.store.setInode i ((s.store.inodes i).setPtr k c)).inodes := by
    rcases hcases with ⟨hc, -, hstore⟩ | ⟨b, hc, -, -, -, hstore⟩
    · rw [hstore, hc]
    · rw [hstore, hc]
      rfl
  have hrange : -2 ^ 31 ≤ c ∧ c < 2 ^ 31 := by
    rcases hcases with ⟨hc, -⟩ | ⟨b, hc, -, hb, -⟩
    · omega
    · omega
  have hroom : IsData c ↔ s.CanStore i k := by
    rw [Fs.CanStore, Fs.ptr_eq hi, hnull]
    rcases hcases with ⟨hc, hfull, -⟩ | ⟨b, hc, hb, hb', hfree, -⟩
    · rw [hc]
      exact iff_of_false not_isData_neg_one fun hroom => hroom.elim not_isData_zero fun h => h.2 hfull
    · rw [hc]
      exact iff_of_true (isData_natCast.mpr ⟨hb, hb'⟩) (Or.inr ⟨rfl, fun hfull => hfree (hfull b hb')⟩)
  refine ⟨hlayout, fun hf j => ?_, fun j l => ?_, fun d => ?_, fun d hd => ?_, hroom, ?_,
    fun hdata j hj l hl heq => ?_, fun hne => absurd hnull hne⟩
  · rw [hinodes]
    by_cases hj : j = i
    · rw [hj, Store.inodes_setInode_same, Inode.get_setPtr hf hk]
    · rw [Store.inodes_setInode_of_ne _ _ _ hj]
  · rw [Store.ptr, hinodes]
    by_cases hj : j = i
    · rw [hj, Store.inodes_setInode_same]
      by_cases hl : l = k
      · rw [if_pos ⟨rfl, hl⟩, hl, Inode.ptr_setPtr_same hrange.1 hrange.2]
      · rw [if_neg fun hc => hl hc.2, Inode.ptr_setPtr_of_ne hl, Store.ptr]
    · rw [if_neg fun hc => hj hc.1, Store.inodes_setInode_of_ne _ _ _ hj, Store.ptr]
  · rcases hcases with ⟨hc, -, hstore⟩ | ⟨b, hc, hb, hb', -, hstore⟩
    · rw [hstore, if_neg fun hd => not_isData_neg_one (hc ▸ hd.2), Store.blocks_setInode]
    · rw [hstore, hc]
      by_cases hd : d = b
      · rw [if_pos ⟨hd, isData_natCast.mpr ⟨hb, hb'⟩⟩, hd, Store.blocks_setBlock_same]
      · rw [if_neg fun hc => hd hc.1, Store.blocks_setBlock_of_ne _ _ _ hd]
        rfl
  · rcases hcases with ⟨hc, -, hstore⟩ | ⟨b, hc, -, -, -, hstore⟩
    · have hne : ¬ (-1 : ℤ) = (d : ℕ) := by omega
      rw [hstore, hc, decide_eq_false hne, Bool.or_false, Store.blockUsed_setInode]
    · rw [hstore, Store.blockUsed_setBlock, Store.blockUsed_useBlock, Store.blockUsed_setInode,
        Function.update_apply, hc]
      by_cases hd : d = b
      · simp [hd]
      · have hne : ¬ (b : ℤ) = (d : ℕ) := by omega
        simp [hd, hne]
  · rcases hcases with ⟨hc, -⟩ | ⟨b, hc, hb, hb', -⟩
    · exact Or.inr hc
    · exact Or.inl (hc ▸ isData_natCast.mpr ⟨hb, hb'⟩)
  · -- the block was free, and no pointer leads to a free block
    rcases hcases with ⟨hc, -⟩ | ⟨b, hc, -, hb', hfree, -⟩
    · exact absurd hdata (hc ▸ not_isData_neg_one)
    · refine absurd (h.used j hj l hl b hb' ?_) hfree
      rw [Fs.ptr_eq hj, heq, hc]

/-- `dir_add` fills the slot it has come to, if the name ends in its block. -/
theorem dirAdd_filled (h : s.Booked) (hi : i < 1024) (hvalid : Inode.valid.get (readi s i) 0 ≠ 0)
    (hspot : findSpot s (readi s i) = some (k, slot))
    (hadd : dirAdd s (readi s i) fIno fname len = some (r, s')) :
    r = 1 ∧ ∃ c buf, putDirent (s.store.blocks (s.store.ptr i k)) (slot.getD 0) fIno len fname = some buf ∧
      Filled s s' i k c buf := by
  rw [dirAdd, if_neg hvalid, h.hasDuplicate_eq hi, if_neg Bool.false_ne_true, hspot] at hadd
  obtain ⟨hk, hplace⟩ := findSpot_cases hspot
  have hptr : (readi s i).ptr k = s.store.ptr i k := Fs.ptr_eq hi
  rw [hptr] at hplace
  rcases hplace with ⟨hnull, hslot⟩ | ⟨hne, j, hj, hslot, -⟩
  · rw [hslot] at hadd
    rcases hget : getAvailBlkno s with ⟨c, s₁⟩
    simp only [hget, Option.bind_eq_bind, Option.bind_eq_some_iff, Option.some.injEq,
      Prod.mk.injEq] at hadd
    obtain ⟨buf, hput, hr, hs'⟩ := hadd
    rw [Inode.get_setPtr (by decide) hk, h.ino i hi, Fs.readi_eq hi] at hs'
    refine ⟨hr.symm, c, buf, ?_, filled_newBlock h hi hk hnull hget hs'.symm⟩
    rw [hslot, hnull]
    exact hput
  · rw [hslot] at hadd
    simp only [hptr, Option.bind_eq_bind, Option.bind_eq_some_iff, Option.some.injEq,
      Prod.mk.injEq] at hadd
    obtain ⟨buf, hput, hr, hs'⟩ := hadd
    refine ⟨hr.symm, _, buf, ?_, filled_oldBlock h hi hk hne hs'.symm⟩
    rw [hslot, ← h.bioRead_ptr hi hk hne]
    exact hput

/-- Entering a name keeps the books. -/
theorem Filled.booked (hfill : Filled s s' i k c buf) (h : s.Booked) : s'.Booked := by
  have hptr {j : ℕ} (hj : j < 1024) (l : ℕ) :
      s'.ptr j l = if j = i ∧ l = k then c else s.ptr j l := by
    rw [Fs.ptr_eq hj, hfill.ptr, Fs.ptr_eq hj]
  have honce (hdata : IsData c) {j l : ℕ} (hj : j < 1024) (hl : l < 16) (heq : c = s.ptr j l) :
      j = i ∧ l = k := hfill.once hdata j hj l hl (by rw [heq, Fs.ptr_eq hj])
  refine ⟨⟨hfill.layout, fun j hj => ?_, fun j hj l hl => ?_, fun j hj l hl m hm n hn => ?_⟩,
    fun b hb => ?_, fun j hj l hl b hb heq => ?_⟩
  · rw [Fs.readi_eq hj, hfill.field (by decide), ← Fs.readi_eq hj, h.ino j hj]
  · rw [hptr hj]
    split
    · exact hfill.lost.imp_right Or.inr
    · exact h.ptr j hj l hl
  · rw [hptr hj, hptr hm]
    by_cases hjl : j = i ∧ l = k
    · rw [if_pos hjl]
      by_cases hmn : m = i ∧ n = k
      · exact fun _ _ => ⟨hjl.1.trans hmn.1.symm, hjl.2.trans hmn.2.symm⟩
      · rw [if_neg hmn]
        exact fun hdata heq => absurd (honce hdata hm hn heq) hmn
    · rw [if_neg hjl]
      by_cases hmn : m = i ∧ n = k
      · rw [if_pos hmn]
        exact fun hdata heq => absurd (honce (heq ▸ hdata) hj hl heq.symm) hjl
      · rw [if_neg hmn]
        exact h.once j hj l hl m hm n hn
  · have hflag := h.metadata b hb
    rw [Fs.InUse, Fs.blockUsed_eq h.layout] at hflag
    rw [Fs.InUse, Fs.blockUsed_eq hfill.layout, hfill.flag b (Nat.lt_trans hb (by decide)), hflag,
      Bool.true_or]
  · rw [hptr hj] at heq
    rw [Fs.InUse, Fs.blockUsed_eq hfill.layout, hfill.flag b hb]
    split at heq
    · rw [decide_eq_true heq, Bool.or_true]
    · have hflag := h.used j hj l hl b hb heq
      rw [Fs.InUse, Fs.blockUsed_eq h.layout] at hflag
      rw [hflag, Bool.true_or]

theorem Filled.content (hfill : Filled s s' i k c buf) (hi : i < 1024) {l : ℕ} (hl : l < 16) : s'.store.blocks (s'.store.ptr i l) =
      if l = k ∧ IsData c then buf else s.store.blocks (s.store.ptr i l) := by
  by_cases hlk : l = k
  · have hptr : s'.store.ptr i l = c := by rw [hfill.ptr, if_pos ⟨rfl, hlk⟩]
    rw [hptr, hfill.block, hlk]
    by_cases hdata : IsData c
    · rw [if_pos ⟨rfl, hdata⟩, if_pos ⟨rfl, hdata⟩]
    · rw [if_neg fun hc => hdata hc.2, if_neg fun hc => hdata hc.2]
      -- what is lost reads like what was not there
      by_cases hnull : s.store.ptr i k = 0
      · have hlost : c < 67 := by
          rw [hfill.lost.resolve_left hdata]
          decide
        have hzero : (0 : ℤ) < 67 := by decide
        rw [hnull, blocks_of_lt hlost, blocks_of_lt hzero]
      · rw [← hfill.old hnull]
  · have hptr : s'.store.ptr i l = s.store.ptr i l := by
      rw [hfill.ptr, if_neg fun hc => hlk hc.2]
    have hout : ¬ (s.store.ptr i l = c ∧ IsData c) :=
      fun hc => hlk (hfill.once hc.2 i hi l hl hc.1).2
    rw [hptr, hfill.block, if_neg hout, if_neg fun hc => hlk hc.1]

end Filled

/-! ## Slots -/

section Slots

variable {s : Fs} {i j n fIno : ℕ} {buf buf' : Bytes} {fname name : List UInt8}

theorem slotHit_congr (h : ∀ x, slotAddr j ≤ x → x < slotAddr j + 214 → buf' x = buf x) :
    slotHit buf' name j = slotHit buf name j := by
  have hfield (f : Field) (hf : f.offset + f.size ≤ 214) :
      f.get buf' (slotAddr j) = f.get buf (slotAddr j) :=
    Field.get_congr fun k h₁ h₂ => h _ (by omega) (by omega)
  have hread : buf'.read (slotAddr j + Dirent.name) (DIRENT_BYTES - Dirent.name) =
      buf.read (slotAddr j + Dirent.name) (DIRENT_BYTES - Dirent.name) :=
    Bytes.read_congr fun x h₁ h₂ => h x (by omega) (by simp only [Dirent.name, DIRENT_BYTES] at h₂; omega)
  rw [slotHit, slotHit, hfield _ (by decide), hfield _ (by decide), hread]

theorem slotHit_of_free (h : Dirent.valid.get buf (slotAddr j) = 0) : slotHit buf name j = none := by
  rw [slotHit, if_pos h]

/-- A search meets the new entry under its own name only. -/
theorem slotHit_new (h : SlotHolds buf j (some (fname, fIno))) (hfname : 0 ∉ fname)
    (hlen : fname.length < 210) (hname : 0 ∉ name) :
    slotHit buf name j = if name = fname then some (.found fIno) else none := by
  obtain ⟨hvalid, hstr, hino⟩ := h
  have hiff := Bytes.strEq_iff_eq hstr hfname hname
  rw [slotHit, if_neg hvalid, hino]
  rcases Bytes.matchIn_eq buf (slotAddr j + Dirent.name) (DIRENT_BYTES - Dirent.name) name with
    hover | hend
  · -- the comparison ends at the `NUL` of the entry
    have hstart := Bytes.matchIn_eq_none_iff.mp hover
    have hsplit : DIRENT_BYTES - Dirent.name = (fname.length + 1) + (209 - fname.length) := by
      simp only [DIRENT_BYTES, Dirent.name]
      omega
    rw [hsplit, Bytes.read_append, Bytes.strEq_iff.mp hstr] at hstart
    exact absurd (hstart.subset (by simp)) hname
  · rw [hend]
    by_cases heq : name = fname
    · rw [if_pos heq, hiff.mpr heq]
    · rw [if_neg heq, Bool.eq_false_iff.mpr fun hstr => heq (hiff.mp hstr)]

/-- A search through the tables. -/
theorem dirSearch_eq (h : s.Booked) (hi : i < 1024) (hvalid : Inode.valid.get (readi s i) 0 ≠ 0) :
    dirSearch s i name = (List.range 16).findSome? fun l =>
      (List.range 19).findSome? (slotHit (s.store.blocks (s.store.ptr i l)) name) := by
  rw [dirSearch, if_neg hvalid]
  refine findSome?_congr fun l hl => ?_
  have hptr : (readi s i).ptr l = s.store.ptr i l := Fs.ptr_eq hi
  rw [hptr]
  by_cases hne : s.store.ptr i l = 0
  · rw [if_neg (not_not.mpr hne), hne, eq_comm, List.findSome?_eq_none_iff]
    intro j _
    exact slotHit_of_free (slotHolds_zero j)
  · rw [if_pos hne, h.bioRead_ptr hi (List.mem_range.mp hl) hne]
    rfl

/-- A search for a name that fits a slot stays within the slots. -/
theorem dirSearch_ne_overrun (h : fname.length < 210) : dirSearch s i fname ≠ some .overrun := by
  rw [dirSearch]
  split
  · simp
  · intro hover
    obtain ⟨k, -, hk⟩ := List.exists_of_findSome?_eq_some hover
    split at hk
    · obtain ⟨j, -, hj⟩ := List.exists_of_findSome?_eq_some hk
      rw [slotHit_of_lt h] at hj
      split at hj
      · cases hj
      · cases hj
    · cases hk

end Slots

/-! ## One entry more -/

/-- `dir_find` finds the name. -/
def Fs.Present (s : Fs) (i : ℕ) (fname : List UInt8) : Prop := ∃ n, dirSearch s i fname = some (.found n)

/-- Between the two states directory `i` has got an entry in a slot that was free, and no other
slot and no other search has changed. -/
structure OneEntry (s s' : Fs) (i fIno : ℕ) (fname : List UInt8) : Prop where
  slots : ∃ k < DIRECT_PTRS, ∃ j < DIRENTS_IN_BLOCK,
    (s.ptr i k = 0 ∨ Dirent.valid.get (bioRead s.disk (s.ptr i k)) (slotAddr j) = 0) ∧
    ∀ l < DIRECT_PTRS, ∀ m < DIRENTS_IN_BLOCK, s.ptr i l ≠ 0 → (l, m) ≠ (k, j) →
      s'.ptr i l = s.ptr i l ∧ (bioRead s'.disk (s'.ptr i l)).read (slotAddr m) DIRENT_BYTES =
        (bioRead s.disk (s.ptr i l)).read (slotAddr m) DIRENT_BYTES
  find : ¬ s.Present i fname → dirSearch s' i fname = some (.found fIno)
  others : ∀ name, 0 ∉ name → name ≠ fname → dirSearch s' i name = dirSearch s i name

/-- `dir_add` writes within the block, and when it returns 1 there is one entry more. -/
def AddsOne (s : Fs) (i fIno : ℕ) (fname : List UInt8) (len : ℕ) : Prop :=
  ∃ r s', dirAdd s (readi s i) fIno fname len = some (r, s') ∧ (r = 1 → OneEntry s s' i fIno fname)

section OneEntry

variable {s s' : Fs} {i k fIno len : ℕ} {c : ℤ} {fname : List UInt8} {buf : Bytes} {slot : Option ℕ}

/-- The free slot `dir_add` has come to. -/
theorem slot_of_findSpot (h : s.Booked) (hi : i < 1024)
    (hspot : findSpot s (readi s i) = some (k, slot)) : k < 16 ∧ slot.getD 0 < 19 ∧
      Dirent.valid.get (s.store.blocks (s.store.ptr i k)) (slotAddr (slot.getD 0)) = 0 := by
  have hptr : (readi s i).ptr k = s.store.ptr i k := Fs.ptr_eq hi
  obtain ⟨hk, hplace⟩ := findSpot_cases hspot
  rw [hptr] at hplace
  refine ⟨hk, ?_⟩
  rcases hplace with ⟨hnull, rfl⟩ | ⟨hne, j, hj, rfl, hfree⟩
  · rw [hnull]
    exact ⟨by decide, slotHolds_zero _⟩
  · rw [h.bioRead_ptr hi hk hne] at hfree
    exact ⟨hj, hfree⟩

/-- The slots of the directory, as a search sees them. -/
theorem Filled.slotHit_eq (hfill : Filled s s' i k c buf) (hi : i < 1024) {j : ℕ}
    (hslot : SlotHolds buf j (some (fname, fIno)))
    (hrest : ∀ x, x < slotAddr j ∨ slotAddr j + 214 ≤ x → buf x = s.store.blocks (s.store.ptr i k) x)
    (hfname : 0 ∉ fname) (hlen : fname.length < 210) {name : List UInt8} (hname : 0 ∉ name) {l m : ℕ}
    (hl : l < 16) : slotHit (s'.store.blocks (s'.store.ptr i l)) name m =
      if (l = k ∧ IsData c) ∧ m = j then if name = fname then some (.found fIno) else none
      else slotHit (s.store.blocks (s.store.ptr i l)) name m := by
  rw [hfill.content hi hl]
  by_cases hnew : l = k ∧ IsData c
  · rw [if_pos hnew]
    by_cases hm : m = j
    · rw [if_pos ⟨hnew, hm⟩, hm, slotHit_new hslot hfname hlen hname]
    · rw [if_neg fun hc => hm hc.2, hnew.1]
      exact slotHit_congr fun x h₁ h₂ => hrest x (slot_apart hm h₁ h₂)
  · rw [if_neg hnew, if_neg fun hc => hnew hc.1]

/-- A name that fits its slot makes one entry more. -/
theorem Filled.oneEntry (hfill : Filled s s' i k c buf) (h : s.Booked) (hi : i < 1024)
    (hvalid : Inode.valid.get (readi s i) 0 ≠ 0)
    (hspot : findSpot s (readi s i) = some (k, slot))
    (hput : putDirent (s.store.blocks (s.store.ptr i k)) (slot.getD 0) fIno len fname = some buf)
    (hfname : 0 ∉ fname) (hlen : fname.length < 210) (hfIno : fIno < 65536)
    (hgood : s.Present i fname ∨ s.CanStore i k) : OneEntry s s' i fIno fname := by
  have h' := hfill.booked h
  have hvalid' : Inode.valid.get (readi s' i) 0 ≠ 0 := by
    rw [Fs.readi_eq hi, hfill.field (by decide), ← Fs.readi_eq hi]
    exact hvalid
  obtain ⟨hk, hj, hfree⟩ := slot_of_findSpot h hi hspot
  obtain ⟨buf', hput', hslot, hrest⟩ := putDirent_fits (l := len)
    (s.store.blocks (s.store.ptr i k)) hj hlen hfIno
  rw [hput, Option.some.injEq] at hput'
  rw [← hput'] at hslot hrest
  have hhit {name : List UInt8} (hname : 0 ∉ name) {l : ℕ} (hl : l < 16) (m : ℕ) :=
    hfill.slotHit_eq (m := m) hi hslot hrest hfname hlen hname hl
  refine ⟨⟨k, hk, slot.getD 0, hj, ?_, fun l hl m hm hne hother => ?_⟩, fun hnew => ?_,
    fun name hname hother => ?_⟩
  · rw [Fs.ptr_eq hi]
    by_cases hnull : s.store.ptr i k = 0
    · exact Or.inl hnull
    · rw [h.bioRead_ptr hi hk hnull]
      exact Or.inr hfree
  · rw [Fs.ptr_eq hi] at hne
    have hptr : s'.store.ptr i l = s.store.ptr i l := by
      rw [hfill.ptr]
      split
      · next hc =>
        rw [hc.2] at hne ⊢
        exact hfill.old hne
      · rfl
    rw [Fs.ptr_eq hi, Fs.ptr_eq hi]
    have hne' : s'.store.ptr i l ≠ 0 := by
      rw [hptr]
      exact hne
    refine ⟨hptr, ?_⟩
    rw [h'.bioRead_ptr hi hl hne', h.bioRead_ptr hi hl hne, hfill.content hi hl]
    split
    · next hnew =>
      have hmj : m ≠ slot.getD 0 := fun hmj => hother (by rw [hnew.1, hmj])
      rw [hnew.1]
      exact Bytes.read_congr fun x h₁ h₂ => hrest x (slot_apart hmj h₁ h₂)
    · rfl
  · -- the slots before the new one do not have the name
    have hdata : IsData c := hfill.data_iff.mpr (hgood.resolve_left hnew)
    have hnone : dirSearch s i fname = none := by
      cases hsearch : dirSearch s i fname with
      | none => rfl
      | some hit =>
        cases hit with
        | found n => exact absurd ⟨n, hsearch⟩ hnew
        | overrun => exact absurd hsearch (dirSearch_ne_overrun hlen)
    rw [dirSearch_eq h hi hvalid, List.findSome?_eq_none_iff] at hnone
    have hbefore (l : ℕ) (hl : l < 16) (m : ℕ) (hm : m < 19) :
        slotHit (s.store.blocks (s.store.ptr i l)) fname m = none :=
      List.findSome?_eq_none_iff.mp (hnone l (List.mem_range.mpr hl)) m (List.mem_range.mpr hm)
    rw [dirSearch_eq h' hi hvalid']
    refine findSome?_range_eq_some hk (fun l hl => ?_) (findSome?_range_eq_some hj (fun m hm => ?_) ?_)
    · rw [List.findSome?_eq_none_iff]
      intro m hm
      rw [hhit hfname (by omega), if_neg fun hc => absurd hc.1.1 (by omega)]
      exact hbefore l (by omega) m (List.mem_range.mp hm)
    · rw [hhit hfname hk, if_neg fun hc => absurd hc.2 (by omega)]
      exact hbefore k hk m (by omega)
    · rw [hhit hfname hk, if_pos ⟨⟨rfl, hdata⟩, rfl⟩, if_pos rfl]
  · rw [dirSearch_eq h hi hvalid, dirSearch_eq h' hi hvalid']
    refine findSome?_congr fun l hl => findSome?_congr fun m _ => ?_
    rw [hhit hname (List.mem_range.mp hl)]
    by_cases hnew : (l = k ∧ IsData c) ∧ m = slot.getD 0
    · rw [if_pos hnew, if_neg hother, hnew.1.1, hnew.2, slotHit_of_free hfree]
    · rw [if_neg hnew]

/-- What is lost is not found. -/
theorem Filled.dirSearch_of_lost (hfill : Filled s s' i k c buf) (h : s.Booked) (hi : i < 1024)
    (hvalid : Inode.valid.get (readi s i) 0 ≠ 0) (hlost : ¬ s.CanStore i k) :
    dirSearch s' i fname = dirSearch s i fname := by
  have hvalid' : Inode.valid.get (readi s' i) 0 ≠ 0 := by
    rw [Fs.readi_eq hi, hfill.field (by decide), ← Fs.readi_eq hi]
    exact hvalid
  rw [dirSearch_eq h hi hvalid, dirSearch_eq (hfill.booked h) hi hvalid']
  refine findSome?_congr fun l hl => ?_
  rw [hfill.content hi (List.mem_range.mp hl), if_neg fun hc => hlost (hfill.data_iff.mp hc.2)]

/-- Where `dir_add` makes one entry more. -/
theorem AddsOne.fits (h : s.Booked) (hi : i < 1024) (hadds : AddsOne s i fIno fname len)
    (hvalid : Inode.valid.get (readi s i) 0 ≠ 0) (hroom : s.FirstRoom i k) :
    fname.length < 210 ∧ (s.Present i fname ∨ s.CanStore i k) := by
  obtain ⟨slot, hspot⟩ := hroom.findSpot_eq
  obtain ⟨r, s', hadd, hone⟩ := hadds
  obtain ⟨hr, c, buf, -, hfill⟩ := dirAdd_filled h hi hvalid hspot hadd
  have hfind := (hone hr).find
  constructor
  · by_contra hlong
    have hlong : 210 ≤ fname.length := by omega
    have hnew : ¬ s.Present i fname := fun ⟨n, hn⟩ => dirSearch_ne_found hlong hn
    exact dirSearch_ne_found hlong (hfind hnew)
  · by_contra hlost
    push Not at hlost
    obtain ⟨hnew, hlost⟩ := hlost
    have hsame : dirSearch s' i fname = dirSearch s i fname :=
      hfill.dirSearch_of_lost h hi hvalid hlost
    exact hnew ⟨fIno, hsame ▸ hfind hnew⟩

theorem AddsOne.of_fits (h : s.Booked) (hi : i < 1024) (hfname : 0 ∉ fname) (hfIno : fIno < 65536)
    (len : ℕ) (hgood : Inode.valid.get (readi s i) 0 ≠ 0 → ∀ k, s.FirstRoom i k →
      fname.length < 210 ∧ (s.Present i fname ∨ s.CanStore i k)) : AddsOne s i fIno fname len := by
  by_cases hplace : HasPlace s (readi s i) fname
  · obtain ⟨hvalid, hdup, hspot⟩ := hplace
    obtain ⟨⟨k, slot⟩, hspot⟩ := Option.ne_none_iff_exists'.mp hspot
    obtain ⟨hlen, hgood⟩ := hgood hvalid k (firstRoom_of_findSpot hspot)
    obtain ⟨-, hj, -⟩ := slot_of_findSpot h hi hspot
    have hfits : SlotFits s (readi s i) fname := by
      refine ⟨k, slot, hspot, ?_⟩
      simp only [slotAddr, Dirent.name, DIRENT_BYTES, BLOCK_SIZE]
      omega
    obtain ⟨s', hadd⟩ := dirAdd_of_fits (n := fIno) (l := len) hvalid hdup hfits
    obtain ⟨-, c, buf, hput, hfill⟩ := dirAdd_filled h hi hvalid hspot hadd
    exact ⟨1, s', hadd, fun _ => hfill.oneEntry h hi hvalid hspot hput hfname hlen hfIno hgood⟩
  · obtain ⟨r, hadd, hr⟩ := dirAdd_of_not_hasPlace (n := fIno) (l := len) hplace
    refine ⟨r, s, hadd, fun h1 => ?_⟩
    rw [h1] at hr
    exact absurd hr (by decide)

/-- Entering a name makes one entry more exactly when the name and its `NUL` end within the slot,
and there is a block for it or the name was there already. -/
theorem addsOne_iff (h : s.Booked) (hi : i < 1024) (hfname : 0 ∉ fname) (hfIno : fIno < 65536)
    (len : ℕ) : AddsOne s i fIno fname len ↔ (Inode.valid.get (readi s i) 0 ≠ 0 → ∀ k, s.FirstRoom i k →
      fname.length < 210 ∧ (s.Present i fname ∨ s.CanStore i k)) :=
  ⟨fun hadds hvalid _ hroom => hadds.fits h hi hvalid hroom, .of_fits h hi hfname hfIno len⟩

/-- `addsOne_iff` for a short name in the root of a new disk. -/
theorem addsOne_iff_first : ∃ s, rufsMkfs (fun _ => 0) ⟨0, 0⟩ = some s ∧
    (AddsOne s 0 1 [97] 2 ↔ (Inode.valid.get (readi s 0) 0 ≠ 0 → ∀ k, s.FirstRoom 0 k →
      [97].length < 210 ∧ (s.Present 0 [97] ∨ s.CanStore 0 k))) := by
  obtain ⟨s, hs, hmade⟩ := rufsMkfs_spec (fun _ => 0) ⟨0, 0⟩
  exact ⟨s, hs, addsOne_iff (hmade.rep.booked hmade.layout) (by decide) (by decide) (by decide) 2⟩

/-- The 211th byte of a name is the first one of the next slot. -/
theorem putDirent_next {buf' : Bytes} {j : ℕ} (hput : putDirent buf j fIno len fname = some buf')
    (hlong : 210 < fname.length) : buf' (slotAddr (j + 1)) = fname.getD 210 0 := by
  rw [putDirent] at hput
  split at hput
  · cases hput
    have hnext : slotAddr (j + 1) = slotAddr j + 214 := by
      simp only [slotAddr, DIRENT_BYTES]
      omega
    have happ : (fname ++ [0]).getD 210 0 = fname.getD 210 0 := by
      rw [List.getD_append _ _ _ _ hlong]
    rw [hnext, Field.set_apply_of_notMem (by simp only [Dirent.valid]; omega), Bytes.strcpy,
      Bytes.write_apply_of_mem (by simp only [Dirent.name]; omega)
        (by simp only [Dirent.name, List.length_append, List.length_singleton]; omega), ← happ]
    congr 1
    simp only [Dirent.name]
    omega
  · cases hput

/-- A name of 211 bytes entered in the root of a new disk: its last byte is now the first one of
the next slot. -/
theorem addsOne_fails : ∃ s s', rufsMkfs (fun _ => 0) ⟨0, 0⟩ = some s ∧ s.Booked ∧ s.IsDir 0 ∧
    dirAdd s (readi s 0) 1 (List.replicate 211 97) 212 = some (1, s') ∧
    bioRead s.disk (s.ptr 0 0) (slotAddr 3) = 0 ∧ bioRead s'.disk (s.ptr 0 0) (slotAddr 3) = 97 ∧
    ¬ AddsOne s 0 1 (List.replicate 211 97) 212 := by
  obtain ⟨s, hs, hmade, hptr, hzero⟩ := rufsMkfs_total (fun _ => 0) ⟨0, 0⟩
  have hbooked := hmade.rep.booked hmade.layout
  obtain ⟨hvalid, htype, hholds⟩ := hmade.rep.node 0 (by decide)
  have hspot : findSpot s (readi s 0) = some (0, some 2) := by
    rw [Fs.readi_eq (by decide), findSpot_eq hmade.rep (by decide) hholds]
    rfl
  rw [← Fs.readi_eq (by decide)] at hvalid htype
  have hlen : (List.replicate 211 (97 : UInt8)).length = 211 := List.length_replicate
  have hfits : SlotFits s (readi s 0) (List.replicate 211 97) := by
    refine ⟨0, some 2, hspot, ?_⟩
    rw [hlen]
    decide
  obtain ⟨s', hadd⟩ :=
    dirAdd_of_fits (n := 1) (l := 212) hvalid (hbooked.hasDuplicate_eq (by decide)) hfits
  obtain ⟨-, c, buf, hput, hfill⟩ := dirAdd_filled hbooked (by decide) hvalid hspot hadd
  have hc : c = 67 := (hfill.old (by rw [hptr]; decide)).trans hptr
  have hdata : IsData 67 := by decide
  have hblock : s'.store.blocks 67 = buf := by
    rw [hfill.block, hc, if_pos ⟨rfl, hdata⟩]
  have hnext := putDirent_next hput (by rw [hlen]; decide)
  refine ⟨s, s', hs, hbooked, htype, hadd, ?_, ?_, fun hadds => ?_⟩
  · rw [Fs.ptr_eq (by decide), hptr, Fs.bioRead_eq (by decide)]
    exact hzero _ (by decide)
  · rw [Fs.ptr_eq (by decide), hptr, Fs.bioRead_eq (by decide), hblock]
    exact hnext
  · have hfits := (hadds.fits hbooked (by decide) hvalid (firstRoom_of_findSpot hspot)).1
    rw [hlen] at hfits
    exact absurd hfits (by decide)

end OneEntry

end UserLevelOs.Files
