import UserLevelOs.Memory.Paging
import Mathlib.Data.Nat.Bitwise
import Mathlib.Tactic.Simps.Basic

/-!
# The widths for other sizes

The sizes of the pages and of the two memories are macros.  `init_paging_scheme` derives the
widths from whatever they are and asserts that the fields fit into an address; it does not ask
whether they fill it, nor whether there are pages enough to fill a page table.

## Main definitions

* `PagingScheme.RoundTrips` — what the rest of the library expects of the widths.
* `FieldsFit` — the powers of two for which it gets that.

## Main statements

* `initPagingScheme_eq_some` — the assertions hold for all sizes.
* `reconvert_extractFrom` — the fields of an address they cover make up the address.
* `roundTrips_iff`, `roundTrips_fails`.
-/

namespace UserLevelOs.Memory

open UserLevelOs.Lib

/-- No width is negative, every shift by one is defined, and an address that `is_valid_va` lets
through is the only one with its fields and has a bit in either bitmap. -/
structure PagingScheme.RoundTrips (ps : PagingScheme) : Prop where
  nonneg : 0 ≤ ps.vaSpace ∧ 0 ≤ ps.paSpace ∧ 0 ≤ ps.maxBits ∧ 0 ≤ ps.offset ∧ 0 ≤ ps.maxPages ∧
    0 ≤ ps.pageTable ∧ 0 ≤ ps.pageDir ∧ 0 ≤ ps.charsForBitmap
  /-- `va >> n` is defined below the width of an `unsigned long`, and `1 << n` if the result is
  an `int`. -/
  shifts : ps.maxBits < 32 ∧ ps.offset < 31 ∧ ps.pageTable < 31 ∧ ps.pageDir < 31 ∧
    ps.charsForBitmap < 31
  roundTrip : ∀ va < 2 ^ 32, isValidVa ps va = true → reconvert ps (extractFrom ps va) = va
  distinct : ∀ va < 2 ^ 32, ∀ va' < 2 ^ 32, isValidVa ps va = true → isValidVa ps va' = true →
    extractFrom ps va = extractFrom ps va' → va = va'
  inBitmap : ∀ va < 2 ^ 32, isValidVa ps va = true →
    va >>> ps.offset.toNat < 8 * 2 ^ ps.charsForBitmap.toNat

/-- For `2 ^ v` bytes of virtual and `2 ^ p` of physical memory in pages of `2 ^ g` bytes: an
address has fewer bits than an `unsigned long`, there are eight pages at least, a page table does
not have more entries than there are pages, and a directory of one page suffices for all. -/
def FieldsFit (v p g : ℕ) : Prop :=
  min v p < 32 ∧ g + 3 ≤ min v p ∧ 2 * g ≤ min v p + 2 ∧ min v p + 4 ≤ 3 * g

instance (v p g : ℕ) : Decidable (FieldsFit v p g) := inferInstanceAs (Decidable (_ ∧ _))

/-! ## The widths -/

@[simp] theorem countShifts_zero (fuel : ℕ) : countShifts fuel 0 = 0 := by
  cases fuel <;> simp [countShifts]

theorem countShifts_two_pow {fuel k : ℕ} (h : k < fuel) : countShifts fuel (2 ^ k) = k + 1 := by
  induction fuel generalizing k with
  | zero => simp at h
  | succ fuel ih =>
    cases k with
    | zero => simp [countShifts]
    | succ k =>
      have hhalf : 2 ^ (k + 1) >>> 1 = 2 ^ k := by simp [Nat.shiftRight_succ, Nat.pow_succ]
      simp [countShifts, hhalf, ih (Nat.lt_of_succ_lt_succ h)]

@[simp] theorem numBitsNeededToEncode_zero : numBitsNeededToEncode 0 = -1 := by
  simp [numBitsNeededToEncode]

theorem numBitsNeededToEncode_two_pow {k : ℕ} (h : k < 64) :
    numBitsNeededToEncode (2 ^ k) = k := by
  simp [numBitsNeededToEncode, countShifts_two_pow h]

/-- How many bits number the words of a page; a page of less than a word has none. -/
theorem numBitsNeededToEncode_words {g : ℕ} (h : g < 64) :
    numBitsNeededToEncode (2 ^ g / WORD_BYTES) = if 2 ≤ g then (g : ℤ) - 2 else -1 := by
  split
  · next hg =>
    obtain ⟨k, rfl⟩ := Nat.exists_eq_add_of_le hg
    have hwords : 2 ^ (2 + k) / WORD_BYTES = 2 ^ k := by
      rw [Nat.pow_add]
      exact Nat.mul_div_cancel_left _ (by decide)
    rw [hwords, numBitsNeededToEncode_two_pow (by omega)]
    simp
  · next hg =>
    have hwords : 2 ^ g / WORD_BYTES = 0 := by
      have : g = 0 ∨ g = 1 := by omega
      rcases this with rfl | rfl <;> rfl
    rw [hwords, numBitsNeededToEncode_zero]

/-- The widths that follow from those of the sizes and of a page table. -/
@[simps]
def widthsOf (vaSpace paSpace offset pageTable : ℤ) : PagingScheme where
  vaSpace := vaSpace
  paSpace := paSpace
  maxBits := min paSpace vaSpace
  offset := offset
  maxPages := min paSpace vaSpace - offset
  pageTable := pageTable
  pageDir := min pageTable (min paSpace vaSpace - offset - pageTable)
  charsForBitmap := min pageTable (min paSpace vaSpace - offset - pageTable) + pageTable - 3

/-- Neither assertion can fail: the directory gets no more bits than the page table leaves. -/
theorem initPagingScheme_eq_some (maxMemsize memsize pgsize wordBytes : ℕ) :
    initPagingScheme maxMemsize memsize pgsize wordBytes =
      some (widthsOf (numBitsNeededToEncode maxMemsize) (numBitsNeededToEncode memsize)
        (numBitsNeededToEncode pgsize) (numBitsNeededToEncode (pgsize / wordBytes))) := by
  simp only [initPagingScheme, ← min_def_lt]
  rw [if_pos (by constructor <;> omega)]
  rfl

theorem initPagingScheme_two_pow {v p g : ℕ} (hv : v < 64) (hp : p < 64) (hg : g < 64) :
    initPagingScheme (2 ^ v) (2 ^ p) (2 ^ g) WORD_BYTES =
      some (widthsOf v p g (if 2 ≤ g then (g : ℤ) - 2 else -1)) := by
  rw [initPagingScheme_eq_some, numBitsNeededToEncode_two_pow hv, numBitsNeededToEncode_two_pow hp,
    numBitsNeededToEncode_two_pow hg, numBitsNeededToEncode_words hg]

/-! ## The fields -/

/-- The low bits next to the others. -/
theorem shiftRight_shiftLeft_or (x n : ℕ) : x >>> n <<< n ||| x &&& (1 <<< n - 1) = x := by
  apply Nat.eq_of_testBit_eq
  intro i
  by_cases h : n ≤ i
  · simp [Nat.one_shiftLeft, h, Nat.not_lt.mpr h]
  · simp [Nat.one_shiftLeft, h, Nat.lt_of_not_le h]

theorem shiftRight_shiftLeft_le (x n : ℕ) : x >>> n <<< n ≤ x := by
  rw [Nat.shiftRight_eq_div_pow, Nat.shiftLeft_eq]
  exact Nat.div_mul_le_self x (2 ^ n)

section Fields

variable {ps : PagingScheme} {va : ℕ}

theorem isValidVa_iff_lt : isValidVa ps va = true ↔ va < 2 ^ ps.maxBits.toNat := by
  simp [isValidVa, Nat.shiftRight_eq_div_pow]

theorem shiftRight_lt_two_pow {k n : ℕ} (h : va < 2 ^ (k + n)) : va >>> k < 2 ^ n := by
  rw [Nat.shiftRight_eq_div_pow]
  apply Nat.div_lt_of_lt_mul
  rwa [← Nat.pow_add]

/-- An address without bits above the three fields is made up of them. -/
theorem reconvert_extractFrom (h32 : va < 2 ^ 32)
    (h : va < 2 ^ (ps.offset.toNat + ps.pageTable.toNat + ps.pageDir.toNat)) :
    reconvert ps (extractFrom ps va) = va := by
  have hdir : va >>> ps.offset.toNat >>> ps.pageTable.toNat < 2 ^ ps.pageDir.toNat := by
    rw [← Nat.shiftRight_add]
    exact shiftRight_lt_two_pow h
  have hpage : va >>> ps.offset.toNat < 2 ^ 32 := (Nat.shiftRight_le va _).trans_lt h32
  -- putting a field back in its place moves no bit past the word
  have hwhole (x n : ℕ) (hx : x < 2 ^ 32) : x >>> n <<< n % 2 ^ 32 = x >>> n <<< n :=
    Nat.mod_eq_of_lt ((shiftRight_shiftLeft_le x n).trans_lt hx)
  simp only [reconvert, extractFrom]
  rw [Nat.one_shiftLeft ps.pageDir.toNat, Nat.and_two_pow_sub_one_eq_mod, Nat.mod_eq_of_lt hdir,
    hwhole _ _ hpage, shiftRight_shiftLeft_or, hwhole _ _ h32, shiftRight_shiftLeft_or]

/-- The fields fill the addresses that `is_valid_va` lets through, and the bitmaps have a bit for
each page. -/
structure PagingScheme.Filled (ps : PagingScheme) : Prop where
  address : ps.maxBits.toNat = ps.offset.toNat + ps.pageTable.toNat + ps.pageDir.toNat
  bitmap : ps.charsForBitmap.toNat + 3 = ps.pageTable.toNat + ps.pageDir.toNat

namespace PagingScheme.Filled

theorem roundTrip (h : ps.Filled) (h32 : va < 2 ^ 32) (hva : isValidVa ps va = true) :
    reconvert ps (extractFrom ps va) = va := by
  apply reconvert_extractFrom h32
  rwa [← h.address, ← isValidVa_iff_lt]

theorem inBitmap (h : ps.Filled) (hva : isValidVa ps va = true) :
    va >>> ps.offset.toNat < 8 * 2 ^ ps.charsForBitmap.toNat := by
  have hbits : 8 * 2 ^ ps.charsForBitmap.toNat = 2 ^ (ps.pageTable.toNat + ps.pageDir.toNat) := by
    rw [← h.bitmap, Nat.pow_add, Nat.mul_comm]
  rw [hbits]
  apply shiftRight_lt_two_pow
  rwa [← Nat.add_assoc, ← h.address, ← isValidVa_iff_lt]

end PagingScheme.Filled

end Fields

/-! ## Which sizes -/

section Sizes

variable {v p g : ℕ}

theorem FieldsFit.filled (h : FieldsFit v p g) : (widthsOf v p g (g - 2)).Filled := by
  obtain ⟨-, hpages, htable, hdir⟩ := h
  constructor <;> simp <;> omega

theorem FieldsFit.roundTrips (h : FieldsFit v p g) : (widthsOf v p g (g - 2)).RoundTrips where
  nonneg := by
    obtain ⟨-, hpages, htable, hdir⟩ := h
    simp
    omega
  shifts := by
    obtain ⟨hword, hpages, htable, hdir⟩ := h
    simp
    omega
  roundTrip va h32 hva := h.filled.roundTrip h32 hva
  distinct va h32 va' h32' hva hva' heq := by
    rw [← h.filled.roundTrip h32 hva, heq, h.filled.roundTrip h32' hva']
  inBitmap va _ hva := h.filled.inBitmap hva

/-- With pages too many for a directory, `is_valid_va` lets an address through that has no bit in
the bitmaps. -/
theorem fieldsFit_of_roundTrips
    (h : (widthsOf v p g (if 2 ≤ g then (g : ℤ) - 2 else -1)).RoundTrips) : FieldsFit v p g := by
  have hnonneg := h.nonneg
  have hword : min v p < 32 := by
    have := h.shifts.1
    simp only [widthsOf_maxBits] at this
    omega
  have hg : 2 ≤ g := by
    by_contra hg
    simp [hg] at hnonneg
  simp only [hg, if_true, widthsOf_charsForBitmap, widthsOf_pageDir] at h hnonneg
  refine ⟨hword, by omega, by omega, ?_⟩
  by_contra hmany
  have hlt : 2 ^ (3 * g - 4) < 2 ^ 32 := Nat.pow_lt_pow_right (by decide) (by omega)
  have hvalid : isValidVa (widthsOf v p g (g - 2)) (2 ^ (3 * g - 4)) = true := by
    apply isValidVa_iff_lt.mpr
    apply Nat.pow_lt_pow_right (by decide)
    simp
    omega
  have hin := h.inBitmap _ hlt hvalid
  have hchars : (widthsOf v p g (g - 2)).charsForBitmap.toNat = 2 * (g - 2) - 3 := by
    simp
    omega
  have hpage : 2 ^ (3 * g - 4) >>> g = 2 ^ (2 * (g - 2)) := by
    rw [Nat.shiftRight_eq_div_pow, Nat.pow_div (by omega) (by decide)]
    congr 1
    omega
  have hbits : 8 * 2 ^ (2 * (g - 2) - 3) = 2 ^ (2 * (g - 2)) := by
    rw [show 8 = 2 ^ 3 from rfl, ← Nat.pow_add]
    congr 1
    omega
  simp only [widthsOf_offset, Int.toNat_natCast, hchars, hpage, hbits] at hin
  exact hin.false

/-- For sizes that are powers of two. -/
theorem roundTrips_iff {ps : PagingScheme} (hv : v < 64) (hp : p < 64) (hg : g < 64)
    (h : initPagingScheme (2 ^ v) (2 ^ p) (2 ^ g) WORD_BYTES = some ps) :
    ps.RoundTrips ↔ FieldsFit v p g := by
  rw [initPagingScheme_two_pow hv hp hg, Option.some.injEq] at h
  subst h
  constructor
  · exact fieldsFit_of_roundTrips
  · intro hfit
    have htwo : 2 ≤ g := by
      have := hfit.2.1
      have := hfit.2.2.2
      omega
    simpa only [htwo, if_true] using hfit.roundTrips

end Sizes

/-- The build's own sizes are among them. -/
theorem roundTrips_pagingScheme : pagingScheme.RoundTrips :=
  (roundTrips_iff (v := 32) (p := 30) (g := 12) (by decide) (by decide) (by decide)
    initPagingScheme_eq).mpr (by decide)

/-- In pages of 2048 bytes the directory and a page table number half of the pages; the address
where the other half begins is let through and has the fields of address 0. -/
theorem roundTrips_fails : ¬ ∀ v < 64, ∀ p < 64, ∀ g < 64, ∀ ps,
    initPagingScheme (2 ^ v) (2 ^ p) (2 ^ g) WORD_BYTES = some ps → ps.RoundTrips := by
  intro hclaim
  have hscheme : initPagingScheme (2 ^ 32) (2 ^ 30) (2 ^ 11) WORD_BYTES =
      some ⟨32, 30, 30, 11, 19, 9, 9, 15⟩ := by decide
  have h := (hclaim 32 (by decide) 30 (by decide) 11 (by decide) _ hscheme).roundTrip (2 ^ 29)
    (by decide) (by decide)
  exact absurd h (by decide)

end UserLevelOs.Memory
