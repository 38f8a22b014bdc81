import UserLevelOs.Files.Blocks
import UserLevelOs.Files.Exhaustion

/-!
# Where a write stores its bytes

`rufs_write` divides its 64-bit offset by the block size and keeps the quotient in an `int`.  The
bound test sees the narrowed value: an offset far behind the last block may come out as the index
of a block the file has, or as a negative one.

## Main definitions

* `Piece`, `writePieces` — what the passes of the loop store, and where.
* `storePieces` — the call that stores some pieces.
* `OffsetSafe` — a write stays where its offset puts it.

## Main statements

* `writeLoop_eq_foldl` — the loop stores these pieces and nothing else.
* `rufsWrite_eq_pieces` — so does the call, unless it is out of bounds.
* `offsetSafe_iff`.
* `offsetSafe_fails`.
-/

namespace UserLevelOs.Files

open UserLevelOs.Lib

/-- One pass of the loop: the direct pointer it uses, where in its block it begins, and how many
bytes it stores. -/
structure Piece where
  index : ℕ
  start : ℕ
  length : ℕ
  deriving DecidableEq, Repr

/-- The position in the file a piece begins at. -/
def Piece.pos (p : Piece) : ℕ := BLOCK_SIZE * p.index + p.start

/-- The passes of the loop of `rufs_write`. -/
def pieces : ℕ → ℕ → ℕ → ℕ → List Piece
  | 0, _, _, _ => []
  | left + 1, blkIndex, offset, remaining =>
    if remaining = 0 then []
    else
      let bufOffset := offset % BLOCK_SIZE
      let writeSize := min remaining (BLOCK_SIZE - bufOffset)
      ⟨blkIndex, bufOffset, writeSize⟩ :: pieces left (blkIndex + 1) 0 (remaining - writeSize)

/-- The passes for a request; the loop is entered with the narrowed quotient. -/
def writePieces (size offset : ℕ) : List Piece :=
  let blkIndex := (toInt (offset / BLOCK_SIZE : ℕ)).toNat
  pieces (DIRECT_PTRS - blkIndex) blkIndex offset (toInt size).toNat

/-- A piece is stored in the block of its pointer, which is allocated when it is missing. -/
def storePiece (buffer : List UInt8) (r : Inode × ℕ × Fs) (p : Piece) : Inode × ℕ × Fs :=
  let got := ensureBlock r.1 p.index r.2.2
  (got.1, r.2.1 + p.length,
    storeBlock got.1 p.index got.2 p.start ((buffer.drop r.2.1).take p.length))

/-- What the call does when it stores these pieces, one after the other, and puts the inode back. -/
def storePieces (buffer : List UInt8) (ps : List Piece) (times : Times) (nodei : Inode) (s : Fs) :
    ℤ × Fs :=
  let r := ps.foldl (storePiece buffer) (nodei, 0, s)
  let nodei := writtenInode r.1 r.2.1 times
  (r.2.1, writei r.2.2 (Inode.ino.get nodei 0) nodei)

/-- The number of bytes of some pieces. -/
def total (ps : List Piece) : ℕ := (ps.map Piece.length).sum

/-- The write returns, uses direct pointers only, and stores at positions from `offset` on, as
many as it returns; behind the last block it changes nothing but the times of the inode. -/
def OffsetSafe (s : Fs) (path buffer : List UInt8) (size offset : ℕ) (times : Times)
    (nodei : Inode) : Prop :=
  ∃ ret s', rufsWrite s path buffer size offset times = some (ret, s') ∧
    (∀ p ∈ writePieces size offset,
      p.index < DIRECT_PTRS ∧ offset ≤ p.pos ∧ ((p.pos + p.length : ℕ) : ℤ) ≤ offset + ret) ∧
    (DIRECT_PTRS * BLOCK_SIZE ≤ offset → ret = 0 ∧
      ∃ nodei', (∀ k < DIRECT_PTRS, nodei'.ptr k = nodei.ptr k) ∧
        s' = writei s (Inode.ino.get nodei 0) nodei')

variable {s s' : Fs} {path buffer : List UInt8} {size offset left blkIndex remaining : ℕ}
  {times : Times} {nodei : Inode} {p : Piece}

/-! ## The passes -/

/-- The loop stores its pieces one after the other. -/
theorem writeLoop_eq_foldl (buffer : List UInt8) (left blkIndex offset remaining written : ℕ)
    (nodei : Inode) (s : Fs) :
    writeLoop buffer left blkIndex offset remaining written nodei s =
      (pieces left blkIndex offset remaining).foldl (storePiece buffer) (nodei, written, s) := by
  induction left generalizing blkIndex offset remaining written nodei s with
  | zero => rfl
  | succ left ih =>
    by_cases hrem : remaining = 0
    · simp [writeLoop, pieces, hrem]
    · rcases hgot : ensureBlock nodei blkIndex s with ⟨nodei₁, s₁⟩
      simp only [writeLoop_block hrem hgot, ih, pieces, if_neg hrem, List.foldl_cons, storePiece,
        hgot, BLOCK_SIZE]

theorem written_foldl (ps : List Piece) (r : Inode × ℕ × Fs) :
    (ps.foldl (storePiece buffer) r).2.1 = r.2.1 + total ps := by
  induction ps generalizing r with
  | nil => simp [total]
  | cons p ps ih =>
    rw [List.foldl_cons, ih]
    simp [storePiece, total, Nat.add_assoc]

/-- The pieces lie one behind the other, from the first position on. -/
theorem pieces_spec (h : p ∈ pieces left blkIndex offset remaining) :
    p.index < blkIndex + left ∧ BLOCK_SIZE * blkIndex + offset % BLOCK_SIZE ≤ p.pos ∧
      p.pos + p.length ≤ BLOCK_SIZE * blkIndex + offset % BLOCK_SIZE +
        total (pieces left blkIndex offset remaining) := by
  induction left generalizing blkIndex offset remaining with
  | zero => cases h
  | succ left ih =>
    by_cases hrem : remaining = 0
    · simp [pieces, hrem] at h
    rw [pieces, if_neg hrem] at h ⊢
    simp only [BLOCK_SIZE] at h ⊢
    rw [List.mem_cons] at h
    rcases h with rfl | h
    · simp only [Piece.pos, total, List.map_cons, List.sum_cons, BLOCK_SIZE]
      omega
    · -- what follows a pass that did not end the write begins with the next block
      have hlast : min remaining (4096 - offset % 4096) = 4096 - offset % 4096 := by
        by_contra hne
        have hzero : remaining - min remaining (4096 - offset % 4096) = 0 := by omega
        rw [hzero] at h
        cases left <;> simp [pieces] at h
      obtain ⟨hindex, hpos, hend⟩ := ih h
      simp only [BLOCK_SIZE, total, List.map_cons, List.sum_cons] at hpos hend ⊢
      omega

theorem pieces_eq_nil (h : left = 0 ∨ remaining = 0) :
    pieces left blkIndex offset remaining = [] := by
  cases left with
  | zero => rfl
  | succ left =>
    have hrem : remaining = 0 := h.resolve_left (Nat.succ_ne_zero left)
    rw [pieces, if_pos hrem]

/-! ## The request -/

/-- A write that runs into a negative index is out of bounds; any other stores the pieces. -/
theorem rufsWrite_eq_pieces (offset : ℕ) (times : Times)
    (hget : getNodeByPath s path s.rootDirIno = some nodei) (hsize : size < 2 ^ 31)
    (hbuffer : size ≤ buffer.length) :
    rufsWrite s path buffer size offset times =
      if toInt (offset / BLOCK_SIZE : ℕ) < 0 ∧ 0 < size then none
      else some (storePieces buffer (writePieces size offset) times nodei s) := by
  have hsizes : toInt size = size := toInt_natCast hsize
  rw [rufsWrite, hget]
  dsimp only
  rw [hsizes]
  by_cases hindex : toInt (offset / BLOCK_SIZE : ℕ) < 0 ∧ 0 < size
  · rw [if_pos hindex, if_pos (by omega)]
  · rw [if_neg hindex, if_neg (by omega), if_neg (by omega), storePieces, writePieces, hsizes,
      ← writeLoop_eq_foldl]
    rfl

/-- The call counts the bytes of its pieces. -/
theorem storePieces_fst (buffer : List UInt8) (ps : List Piece) (times : Times) (nodei : Inode)
    (s : Fs) : (storePieces buffer ps times nodei s).1 = total ps := by
  rw [storePieces]
  dsimp only
  rw [written_foldl, Nat.zero_add]

/-! ## Which writes are safe -/

/-- A block of the file lies in front of every position behind the last one. -/
theorem pos_lt_of_narrow {index : ℤ} (hfar : DIRECT_PTRS ≤ offset / BLOCK_SIZE)
    (hindex : index < DIRECT_PTRS) :
    BLOCK_SIZE * index.toNat + offset % BLOCK_SIZE < offset := by
  simp only [DIRECT_PTRS, BLOCK_SIZE] at *
  omega

/-- A write that stays where its offset puts it does not narrow its quotient to a block. -/
theorem OffsetSafe.narrow (hget : getNodeByPath s path s.rootDirIno = some nodei)
    (hsize : size < 2 ^ 31) (h : OffsetSafe s path buffer size offset times nodei) :
    size = 0 ∨ offset / BLOCK_SIZE < DIRECT_PTRS ∨
      (DIRECT_PTRS : ℤ) ≤ toInt (offset / BLOCK_SIZE : ℕ) := by
  obtain ⟨ret, s', hcall, hpieces, -⟩ := h
  have hsizes : toInt size = size := toInt_natCast hsize
  by_contra hbad
  push Not at hbad
  obtain ⟨hpos, hfar, hnarrow⟩ := hbad
  by_cases hneg : toInt (offset / BLOCK_SIZE : ℕ) < 0
  · rw [rufsWrite, hget] at hcall
    dsimp only at hcall
    rw [if_pos ⟨hneg, by omega⟩] at hcall
    cases hcall
  · -- the loop is entered at a block in front of the offset
    obtain ⟨left, hleft⟩ : ∃ left,
        DIRECT_PTRS - (toInt (offset / BLOCK_SIZE : ℕ)).toNat = left + 1 :=
      ⟨15 - (toInt (offset / BLOCK_SIZE : ℕ)).toNat, by simp only [DIRECT_PTRS] at *; omega⟩
    have hmem : ⟨(toInt (offset / BLOCK_SIZE : ℕ)).toNat, offset % BLOCK_SIZE,
        min size (BLOCK_SIZE - offset % BLOCK_SIZE)⟩ ∈ writePieces size offset := by
      rw [writePieces, hleft, hsizes, Int.toNat_natCast, pieces, if_neg hpos]
      exact List.mem_cons_self
    have hat := (hpieces _ hmem).2.1
    rw [Piece.pos] at hat
    dsimp only at hat
    have hlt := pos_lt_of_narrow hfar hnarrow
    exact absurd hat (not_le.mpr hlt)

/-- No pass is made for a quotient that is, also narrowed, the index of no block. -/
theorem writePieces_far (hgood : size = 0 ∨ offset / BLOCK_SIZE < DIRECT_PTRS ∨
      (DIRECT_PTRS : ℤ) ≤ toInt (offset / BLOCK_SIZE : ℕ)) (hsize : size < 2 ^ 31)
    (hfar : DIRECT_PTRS * BLOCK_SIZE ≤ offset) : writePieces size offset = [] := by
  have hsizes : toInt size = size := toInt_natCast hsize
  apply pieces_eq_nil
  simp only [DIRECT_PTRS, BLOCK_SIZE] at *
  omega

theorem OffsetSafe.of_narrow (times : Times)
    (hget : getNodeByPath s path s.rootDirIno = some nodei) (hsize : size < 2 ^ 31)
    (hbuffer : size ≤ buffer.length)
    (hgood : size = 0 ∨ offset / BLOCK_SIZE < DIRECT_PTRS ∨
      (DIRECT_PTRS : ℤ) ≤ toInt (offset / BLOCK_SIZE : ℕ)) :
    OffsetSafe s path buffer size offset times nodei := by
  have hindex : ¬ (toInt (offset / BLOCK_SIZE : ℕ) < 0 ∧ 0 < size) := by
    rintro ⟨hneg, hpos⟩
    rcases hgood with h0 | hnear | hfar
    · omega
    · have hsmall : offset / BLOCK_SIZE < 2 ^ 31 := by
        simp only [DIRECT_PTRS] at hnear
        omega
      rw [toInt_natCast hsmall] at hneg
      exact absurd hneg (not_lt.mpr (Int.natCast_nonneg _))
    · simp only [DIRECT_PTRS] at hfar
      omega
  have hcall := rufsWrite_eq_pieces offset times hget hsize hbuffer
  rw [if_neg hindex] at hcall
  refine ⟨(storePieces buffer (writePieces size offset) times nodei s).1,
    (storePieces buffer (writePieces size offset) times nodei s).2, hcall, fun p hp => ?_,
    fun hfar => ?_⟩
  · by_cases hfar : DIRECT_PTRS * BLOCK_SIZE ≤ offset
    · rw [writePieces_far hgood hsize hfar] at hp
      cases hp
    · have hblk : toInt (offset / BLOCK_SIZE : ℕ) = (offset / BLOCK_SIZE : ℕ) :=
        toInt_natCast (by simp only [DIRECT_PTRS, BLOCK_SIZE] at *; omega)
      rw [storePieces_fst]
      rw [writePieces, hblk, Int.toNat_natCast] at hp ⊢
      obtain ⟨hidx, hat, hend⟩ := pieces_spec hp
      simp only [DIRECT_PTRS, BLOCK_SIZE] at *
      omega
  · rw [writePieces_far hgood hsize hfar]
    refine ⟨storePieces_fst _ _ _ _ _, writtenInode nodei 0 times, fun k hk => ?_, ?_⟩
    · rw [(agrees_writtenInode nodei 0 times).ptr k hk, Inode.ptr_set (by decide) hk]
    · have hino := (agrees_writtenInode nodei 0 times).ino
      rw [Field.get_set_of_apart (by decide)] at hino
      rw [← hino]
      rfl

/-- A write to any inode stores its pieces, unless its index is negative.  It stays where its
offset puts it exactly when it has no bytes, its offset lies in a block of the file, or the
narrowed quotient is past the last block, too. -/
theorem offsetSafe_iff (times : Times) (hget : getNodeByPath s path s.rootDirIno = some nodei)
    (hsize : size < 2 ^ 31) (hbuffer : size ≤ buffer.length) :
    rufsWrite s path buffer size offset times =
        (if toInt (offset / BLOCK_SIZE : ℕ) < 0 ∧ 0 < size then none
        else some (storePieces buffer (writePieces size offset) times nodei s)) ∧
      (OffsetSafe s path buffer size offset times nodei ↔
        size = 0 ∨ offset / BLOCK_SIZE < DIRECT_PTRS ∨
          (DIRECT_PTRS : ℤ) ≤ toInt (offset / BLOCK_SIZE : ℕ)) :=
  ⟨rufsWrite_eq_pieces offset times hget hsize hbuffer,
    fun h => h.narrow hget hsize, .of_narrow times hget hsize hbuffer⟩

/-- `offsetSafe_iff` for a byte at the start of an empty file. -/
theorem offsetSafe_iff_first : ∃ s nodei, getNodeByPath s slashA s.rootDirIno = some nodei ∧
    rufsWrite s slashA [7] 1 0 ⟨0, 0⟩ =
        (if toInt (0 / BLOCK_SIZE : ℕ) < 0 ∧ 0 < 1 then none
        else some (storePieces [7] (writePieces 1 0) ⟨0, 0⟩ nodei s)) ∧
      (OffsetSafe s slashA [7] 1 0 ⟨0, 0⟩ nodei ↔
        1 = 0 ∨ 0 / BLOCK_SIZE < DIRECT_PTRS ∨
          (DIRECT_PTRS : ℤ) ≤ toInt (0 / BLOCK_SIZE : ℕ)) := by
  obtain ⟨s, i, hfile⟩ := exists_file (fun _ => 0) ⟨0, 0⟩
  exact ⟨s, _, hfile.getNodeByPath_eq,
    offsetSafe_iff ⟨0, 0⟩ hfile.getNodeByPath_eq (by decide) (by decide)⟩

/-- A byte sent to position `2 ^ 44` of a file, whose quotient narrows to block 0. -/
theorem offsetSafe_fails : ¬ ∀ s path buffer size offset times nodei,
    getNodeByPath s path s.rootDirIno = some nodei → Inode.type.get nodei 0 = FILE →
    size < 2 ^ 31 → offset < 2 ^ 63 → size ≤ buffer.length →
    OffsetSafe s path buffer size offset times nodei := by
  intro hclaim
  obtain ⟨s, i, hfile⟩ := exists_file (fun _ => 0) ⟨0, 0⟩
  have hget := hfile.getNodeByPath_eq
  have hi := hfile.kept.lt (hfile.kept.node_ne_none_of_walk hfile.walk)
  have hnode := hfile.kept.rep.node i hi
  rw [fileGraph, link_new] at hnode
  have hsafe := hclaim s slashA [7] 1 (2 ^ 44) ⟨0, 0⟩ _ hget hnode.2.1 (by decide) (by decide)
    (by decide)
  have hnarrow := hsafe.narrow hget (by decide)
  revert hnarrow
  decide

end UserLevelOs.Files
