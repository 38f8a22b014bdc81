import UserLevelOs.Lib.Bitmap

/-!
# The paging scheme

Sizes of the simulated address space, the field widths `init_paging_scheme` derives
from them, and the split of a virtual address into its three fields.  The library is
built with `-m32`, so a pointer and an `unsigned long` are four bytes wide; addresses
are natural numbers below `2 ^ 32` and arithmetic on them wraps explicitly.

## Main definitions

* `PagingScheme`, `initPagingScheme` — the widths, for arbitrary sizes.
* `pagingScheme` — the widths of the 32-bit build.
* `extractFrom`, `reconvert`, `isValidVa` — the fields of an address, and its range check.
-/

namespace UserLevelOs.Memory

open UserLevelOs.Lib

abbrev PGSIZE : ℕ := 4096

/-- Size of the virtual address space. -/
abbrev MAX_MEMSIZE : ℕ := 4 * 1024 * 1024 * 1024

/-- Size of the simulated physical memory. -/
abbrev MEMSIZE : ℕ := 1024 * 1024 * 1024

abbrev TLB_ENTRIES : ℕ := 512

/-- `sizeof(void *)` and `sizeof(unsigned long)` of the 32-bit build. -/
abbrev WORD_BYTES : ℕ := 4

/-- What a page holds besides the link to its successor. -/
abbrev PAYLOAD_BYTES : ℕ := PGSIZE - WORD_BYTES

/-- `-1` as an `unsigned long`. -/
abbrev MINUS_ONE : ℕ := 2 ^ 32 - 1

/-- `paging_scheme_t`.  The widths are `short`s, so they may be negative. -/
structure PagingScheme where
  vaSpace : ℤ
  paSpace : ℤ
  maxBits : ℤ
  offset : ℤ
  maxPages : ℤ
  pageTable : ℤ
  pageDir : ℤ
  charsForBitmap : ℤ
  deriving DecidableEq, Repr

/-- The counting loop of `num_bits_needed_to_encode`; an `unsigned long long` is zero
after at most 64 shifts. -/
def countShifts : ℕ → ℕ → ℤ
  | 0, _ => 0
  | fuel + 1, val => if val = 0 then 0 else countShifts fuel (val >>> 1) + 1

def numBitsNeededToEncode (val : ℕ) : ℤ := countShifts 64 val - 1

/-- `init_paging_scheme`, with the build's sizes as parameters; `none` is a failed
assertion. -/
def initPagingScheme (maxMemsize memsize pgsize wordBytes : ℕ) : Option PagingScheme :=
  let vaSpace := numBitsNeededToEncode maxMemsize
  let paSpace := numBitsNeededToEncode memsize
  let maxBits := if paSpace < vaSpace then paSpace else vaSpace
  let offset := numBitsNeededToEncode pgsize
  let maxPages := maxBits - offset
  let tableDirMax := numBitsNeededToEncode (pgsize / wordBytes)
  let pageTable := tableDirMax
  let remaining := maxPages - pageTable
  let pageDir := if tableDirMax < remaining then tableDirMax else remaining
  let charsForBitmap := pageDir + pageTable - 3
  if maxPages ≥ pageDir + pageTable ∧ maxBits ≥ maxPages + offset then
    some { vaSpace, paSpace, maxBits, offset, maxPages, pageTable, pageDir, charsForBitmap }
  else none

/-- The widths of the 32-bit build; see `initPagingScheme_eq`. -/
def pagingScheme : PagingScheme where
  vaSpace := 32
  paSpace := 30
  maxBits := 30
  offset := 12
  maxPages := 18
  pageTable := 10
  pageDir := 8
  charsForBitmap := 15

theorem initPagingScheme_eq :
    initPagingScheme MAX_MEMSIZE MEMSIZE PGSIZE WORD_BYTES = some pagingScheme := by decide

/-- `virtual_addr_t`. -/
structure VirtualAddr where
  byteOffset : ℕ
  pteOffset : ℕ
  pdeOffset : ℕ
  deriving DecidableEq, Repr

def extractFrom (ps : PagingScheme) (va : ℕ) : VirtualAddr where
  byteOffset := va &&& ((1 <<< ps.offset.toNat) - 1)
  pteOffset := (va >>> ps.offset.toNat) &&& ((1 <<< ps.pageTable.toNat) - 1)
  pdeOffset := (va >>> ps.offset.toNat >>> ps.pageTable.toNat) &&&
    ((1 <<< ps.pageDir.toNat) - 1)

/-- `reconvert`; what a shift moves past the end of an `unsigned long` is lost. -/
def reconvert (ps : PagingScheme) (vaddy : VirtualAddr) : ℕ :=
  ((vaddy.pdeOffset <<< ps.pageTable.toNat % 2 ^ 32 ||| vaddy.pteOffset) <<< ps.offset.toNat %
    2 ^ 32) ||| vaddy.byteOffset

def isValidVa (ps : PagingScheme) (va : ℕ) : Bool := va >>> ps.maxBits.toNat == 0

/-- The page an address lies in, `va >> paging_scheme->offset`. -/
def pageOf (va : ℕ) : ℕ := va >>> pagingScheme.offset.toNat

theorem pageOf_eq (va : ℕ) : pageOf va = va / 4096 := by
  simp [pageOf, pagingScheme, Nat.shiftRight_eq_div_pow]

@[simp] theorem byteOffset_extractFrom (va : ℕ) :
    (extractFrom pagingScheme va).byteOffset = va % 4096 :=
  Nat.and_two_pow_sub_one_eq_mod va 12

@[simp] theorem pteOffset_extractFrom (va : ℕ) :
    (extractFrom pagingScheme va).pteOffset = pageOf va % 1024 :=
  Nat.and_two_pow_sub_one_eq_mod (pageOf va) 10

@[simp] theorem pdeOffset_extractFrom (va : ℕ) :
    (extractFrom pagingScheme va).pdeOffset = pageOf va / 1024 % 256 := by
  have h : pageOf va >>> 10 = pageOf va / 1024 := Nat.shiftRight_eq_div_pow _ 10
  rw [← h]
  exact Nat.and_two_pow_sub_one_eq_mod (pageOf va >>> 10) 8

theorem isValidVa_iff {va : ℕ} : isValidVa pagingScheme va = true ↔ pageOf va < 262144 := by
  have h : va >>> 30 = va / 2 ^ 30 := Nat.shiftRight_eq_div_pow _ _
  simp only [isValidVa, pagingScheme, beq_iff_eq, pageOf_eq]
  change va >>> 30 = 0 ↔ _
  rw [h, Nat.div_eq_zero_iff]
  omega

end UserLevelOs.Memory
