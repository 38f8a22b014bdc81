import UserLevelOs.Memory.Paging

/-!
# Physical memory, bitmaps and the translation cache

The state `my_vm.c` keeps in globals, and the functions of it below `t_malloc`:
bitmap scans, the cache of translations, the page-table walk and `page_map`.  A
function returns `none` where the C program has no defined behaviour to follow (an
access outside the block it points into, a `NULL` dereference, a second unlock) or
where an assertion stops it.

## Main definitions

* `Vm` — the globals, with the simulated physical memory.
* `firstAvailablePosition`, `nBitsAvailable` — the bitmap scans.
* `TlbCache` — the list behind the TLB, with its separate `size` field.
* `checkTLB`, `fetchPteFrom`, `translate`, `pageMap`.
-/

namespace UserLevelOs.Memory

open UserLevelOs.Lib

/-! ## Bitmaps -/

/-- Bits in either bitmap: eight in each of its `1 << chars_for_bitmap` bytes. -/
abbrev BITMAP_BITS : ℕ := 262144

def bitSetAt (bitmap : Bytes) (p : ℕ) : Bool := Bitmap.get .msbFirst bitmap p

/-- A position past the end of the allocated bitmap is out of bounds. -/
def setBitAt (bitmap : Bytes) (p : ℕ) : Option Bytes :=
  if p < BITMAP_BITS then some (Bitmap.set .msbFirst bitmap p) else none

def unsetBitAt (bitmap : Bytes) (p : ℕ) : Option Bytes :=
  if p < BITMAP_BITS then some (Bitmap.unset .msbFirst bitmap p) else none

def lowestUnsetBit (c : UInt8) : ℕ :=
  (scan (fun pos => (c &&& UInt8.ofNat (1 <<< (7 - pos))) != 0) 0 8).getD MINUS_ONE

/-- The outer loop of `first_available_position`, over `n` more bytes from byte `i`. -/
def firstAvailableFrom (bitmap : Bytes) : ℕ → ℕ → ℕ
  | _, 0 => MINUS_ONE
  | i, n + 1 =>
    let p := lowestUnsetBit (bitmap i)
    if p ≠ MINUS_ONE then i * 8 + p else firstAvailableFrom bitmap (i + 1) n

def firstAvailablePosition (bitmap : Bytes) : ℕ :=
  firstAvailableFrom bitmap 0 (1 <<< pagingScheme.charsForBitmap.toNat)

/-- The loops over bytes `i` and bits `pos` run as one loop over `8 * i + pos`. -/
def nBitsAvailable (bitmap : Bytes) (n : ℕ) : Option Bool :=
  if 0 < n then some (enoughClear (bitSetAt bitmap) 0 BITMAP_BITS n) else none

def numBitsSet (bitmap : Bytes) : ℕ := Nat.count (fun p => bitSetAt bitmap p = true) BITMAP_BITS

@[simp] theorem bitSetAt_set (b : Bytes) (p q : ℕ) :
    bitSetAt (Bitmap.set .msbFirst b p) q = (decide (q = p) || bitSetAt b q) :=
  Bitmap.get_set _ _ _ _

@[simp] theorem bitSetAt_unset (b : Bytes) (p q : ℕ) :
    bitSetAt (Bitmap.unset .msbFirst b p) q = (decide (q ≠ p) && bitSetAt b q) :=
  Bitmap.get_unset _ _ _ _

@[simp] theorem bitSetAt_zero (p : ℕ) : bitSetAt (fun _ => 0) p = false := Bitmap.get_zero _ _

/-- The mask of `lowest_unset_bit` at `pos` is the one `bit_set_at` uses. -/
theorem bitSetAt_eq (b : Bytes) (i pos : ℕ) (h : pos < 8) :
    bitSetAt b (i * 8 + pos) = ((b i &&& UInt8.ofNat (1 <<< (7 - pos))) != 0) := by
  have hbyte : (i * 8 + pos) / 8 = i := by omega
  have hpos : (i * 8 + pos) % 8 = pos := by omega
  simp only [bitSetAt, Bitmap.get, Bitmap.mask, BitOrder.msbFirst, hbyte, hpos]

theorem lowestUnsetBit_eq {b : Bytes} {i p : ℕ} (hp : p < 8)
    (hclear : bitSetAt b (i * 8 + p) = false)
    (hset : ∀ q < p, bitSetAt b (i * 8 + q) = true) : lowestUnsetBit (b i) = p := by
  have hscan : scan (fun pos => (b i &&& UInt8.ofNat (1 <<< (7 - pos))) != 0) 0 8 = some p := by
    rw [scan_eq_some]
    refine ⟨by omega, by omega, by rw [← bitSetAt_eq b i p hp, hclear], fun q _ hq => ?_⟩
    rw [← bitSetAt_eq b i q (by omega), hset q hq]
  rw [lowestUnsetBit, hscan, Option.getD_some]

theorem lowestUnsetBit_full {b : Bytes} {i : ℕ}
    (hset : ∀ q < 8, bitSetAt b (i * 8 + q) = true) : lowestUnsetBit (b i) = MINUS_ONE := by
  have hscan : scan (fun pos => (b i &&& UInt8.ofNat (1 <<< (7 - pos))) != 0) 0 8 = none := by
    rw [scan_eq_none]
    intro q _ hq
    rw [← bitSetAt_eq b i q (by omega), hset q (by omega)]
  rw [lowestUnsetBit, hscan, Option.getD_none]

theorem firstAvailableFrom_eq {b : Bytes} {i n p : ℕ} (hlo : i * 8 ≤ p) (hhi : p < (i + n) * 8)
    (hclear : bitSetAt b p = false) (hset : ∀ q < p, bitSetAt b q = true) :
    firstAvailableFrom b i n = p := by
  induction n generalizing i with
  | zero => omega
  | succ n ih =>
    rw [firstAvailableFrom]
    by_cases hin : p < (i + 1) * 8
    · have hsplit : i * 8 + (p - i * 8) = p := by omega
      have hlow : lowestUnsetBit (b i) = p - i * 8 := by
        apply lowestUnsetBit_eq (by omega)
        · rw [hsplit]; exact hclear
        · intro q hq; exact hset _ (by omega)
      have hne : p - i * 8 ≠ MINUS_ONE := by simp only [MINUS_ONE]; omega
      simp only [hlow, ne_eq, hne, not_false_eq_true, if_true, hsplit]
    · have hfull : lowestUnsetBit (b i) = MINUS_ONE :=
        lowestUnsetBit_full fun q hq => hset _ (by omega)
      simp only [hfull, ne_eq, not_true_eq_false, if_false]
      exact ih (by omega) (by omega)

/-- The scan stops at the lowest clear bit. -/
theorem firstAvailablePosition_eq {b : Bytes} {p : ℕ} (hp : p < BITMAP_BITS)
    (hclear : bitSetAt b p = false) (hset : ∀ q < p, bitSetAt b q = true) :
    firstAvailablePosition b = p :=
  firstAvailableFrom_eq (by omega) (by simpa [pagingScheme, BITMAP_BITS] using hp) hclear hset

theorem nBitsAvailable_eq {b : Bytes} {n : ℕ} (hn : 0 < n) :
    nBitsAvailable b n =
      some (decide (n ≤ Nat.count (fun p => bitSetAt b p = false) BITMAP_BITS)) := by
  rw [nBitsAvailable, if_pos hn, enoughClear_eq hn]
  simp only [Nat.zero_add]

/-! ## The translation cache -/

/-- `tlb_store`: an address and the page-table cell it translates to. -/
structure TlbStore where
  virtualAddress : ℕ
  frame : ℕ
  deriving DecidableEq, Repr

/-- The `List` behind the TLB, most recent entry first.  `size` is kept by hand. -/
structure TlbCache where
  size : ℕ
  entries : List TlbStore
  deriving DecidableEq, Repr

def equivalentVirtualAddress (va₁ va₂ : ℕ) : Bool := pageOf va₁ == pageOf va₂

/-- Unlink the first entry for the page of `va`. -/
def unlinkFirst (va : ℕ) : List TlbStore → Option (TlbStore × List TlbStore)
  | [] => none
  | e :: es =>
    if equivalentVirtualAddress e.virtualAddress va then some (e, es)
    else (unlinkFirst va es).map fun (found, rest) => (found, e :: rest)

/-- The outer `none` is the `NULL` dereference of an empty list whose `size` is not 0. -/
def searchAndRemove (c : TlbCache) (va : ℕ) : Option (Option TlbStore × TlbCache) :=
  if 1 ≤ c.size then
    if c.entries = [] then none
    else match unlinkFirst va c.entries with
      | some (e, rest) => some (some e, ⟨c.size - 1, rest⟩)
      | none => some (none, c)
  else some (none, c)

def evictLruCachedEntry (c : TlbCache) : Option TlbCache :=
  if c.size = 0 then some c
  else if c.size = 1 then some ⟨0, []⟩
  else if 2 ≤ c.entries.length then some ⟨c.size - 1, c.entries.dropLast⟩
  else none

def TlbCache.push (c : TlbCache) (e : TlbStore) : TlbCache :=
  ⟨(c.size + 1) % 2 ^ 32, e :: c.entries⟩

def addTLB (c : TlbCache) (va frame : ℕ) : Option TlbCache := do
  let c ← if c.size = TLB_ENTRIES then evictLruCachedEntry c else some c
  some (c.push ⟨va, frame⟩)

/-! ## The state -/

/-- What `malloc(MEMSIZE)` returned: a block of the address space that misses `NULL`. -/
structure VmStart where
  addr : ℕ
  addr_pos : 0 < addr
  addr_fits : addr + MEMSIZE ≤ 2 ^ 32

/-- The globals of the library.  `memory` is indexed by address; only the block at
`vmStart` is ours. -/
structure Vm where
  vmStart : VmStart
  memory : Bytes
  /-- Base of the page directory. -/
  ptbr : ℕ
  virtualBitmap : Bytes
  frameBitmap : Bytes
  tlbCache : TlbCache
  tlbMisses : ℕ
  tlbLookups : ℕ
  /-- Whether `library_lock` is held. -/
  libraryLock : Bool

namespace Vm

/-- The `n` bytes at `a` belong to the block. -/
def Owns (s : Vm) (a n : ℕ) : Prop := s.vmStart.addr ≤ a ∧ a + n ≤ s.vmStart.addr + MEMSIZE

instance (s : Vm) (a n : ℕ) : Decidable (s.Owns a n) := by unfold Owns; infer_instance

def loadWord (s : Vm) (a : ℕ) : Option ℕ :=
  if s.Owns a WORD_BYTES then some (s.memory.loadLE a WORD_BYTES) else none

def storeWord (s : Vm) (a v : ℕ) : Option Vm :=
  if s.Owns a WORD_BYTES then some { s with memory := s.memory.storeLE a WORD_BYTES v } else none

/-- `memset(a, 0, n)`. -/
def clear (s : Vm) (a n : ℕ) : Option Vm :=
  if s.Owns a n then some { s with memory := s.memory.fill a n 0 } else none

/-- `memcpy` of `n` bytes out of the block. -/
def copyOut (s : Vm) (a n : ℕ) : Option (List UInt8) :=
  if s.Owns a n then some (s.memory.read a n) else none

/-- `memcpy` of `n` bytes of the buffer `val` into the block. -/
def copyIn (s : Vm) (a : ℕ) (val : List UInt8) (n : ℕ) : Option Vm :=
  if s.Owns a n ∧ n ≤ val.length then
    some { s with memory := s.memory.write a (val.take n) }
  else none

def lock (s : Vm) : Option Vm := if s.libraryLock then none else some { s with libraryLock := true }

def unlock (s : Vm) : Option Vm :=
  if s.libraryLock then some { s with libraryLock := false } else none

end Vm

def pointerToFrameAtPosition (s : Vm) (f : ℕ) : ℕ := (f * PGSIZE + s.vmStart.addr) % 2 ^ 32

def framePositionFromPointer (s : Vm) (pa : ℕ) : ℕ :=
  (pa + 2 ^ 32 - s.vmStart.addr) % 2 ^ 32 / PGSIZE

/-! ## Translation -/

/-- Is `va` an address whose page is marked used? -/
def usedVa (s : Vm) (va : ℕ) : Bool :=
  isValidVa pagingScheme va && bitSetAt s.virtualBitmap (pageOf va)

/-- The walk of the two-level table: the cell of `va`, or `0` for `NULL`. -/
def fetchPteFrom (s : Vm) (va : ℕ) : Option ℕ :=
  if !usedVa s va then some 0
  else do
    let vaddy := extractFrom pagingScheme va
    let intermediateDir ← s.loadWord (s.ptbr + WORD_BYTES * vaddy.pdeOffset)
    some ((intermediateDir + WORD_BYTES * vaddy.pteOffset) % 2 ^ 32)

def checkTLB (s : Vm) (va : ℕ) : Option (ℕ × Vm) :=
  if !usedVa s va then some (0, s)
  else do
    let s := { s with tlbLookups := (s.tlbLookups + 1) % 2 ^ 32 }
    let (found, cache) ← searchAndRemove s.tlbCache va
    match found with
    | some target => some (target.frame, { s with tlbCache := cache.push target })
    | none =>
      let targetFrame ← fetchPteFrom s va
      if targetFrame ≠ 0 then do
        let cache ← addTLB cache va targetFrame
        some (targetFrame,
          { s with tlbMisses := (s.tlbMisses + 1) % 2 ^ 32, tlbCache := cache })
      else some (0, s)

def translate (s : Vm) (va : ℕ) : Option (ℕ × Vm) := checkTLB s va

/-- Returns `1` on success and `0` on failure. -/
def pageMap (s : Vm) (va pa : ℕ) : Option (ℕ × Vm) :=
  let vaPos := pageOf va
  if !isValidVa pagingScheme va || bitSetAt s.virtualBitmap vaPos then some (0, s)
  else do
    let bitmap ← setBitAt s.virtualBitmap vaPos
    let (cell, s) ← translate { s with virtualBitmap := bitmap } va
    let s ← s.storeWord cell pa
    some (1, s)

def getNextAvail (s : Vm) : ℕ :=
  (firstAvailablePosition s.virtualBitmap <<< pagingScheme.offset.toNat) % 2 ^ 32

end UserLevelOs.Memory
