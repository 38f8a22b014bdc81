import UserLevelOs.Memory.Machine

/-!
# The calls of the library

`set_physical_mem`, `t_malloc`, `t_free`, `put_value` and `get_value`.  Calls are
serialised by `library_lock`, so each is one function on the state.  An `int` that
meets a `size_t` is converted to 32 bits unsigned (`toSizeT`), as C does.

The recursions of `put_value_aux` and `get_value_aux` may skip a page without
consuming a byte, so they carry fuel; running out of it is the C stack overflowing.

## Main definitions

* `setPhysicalMem`, `initPageTables`.
* `tMalloc`, `tFree`, `putValue`, `getValue`.
* `Call`, `Call.exec` — one client call.
-/

namespace UserLevelOs.Memory

open UserLevelOs.Lib

/-- The conversion of an `int` to `size_t`. -/
def toSizeT (x : ℤ) : ℕ := (x % 2 ^ 32).toNat

/-- `(n / PAYLOAD_BYTES) + ((n % PAYLOAD_BYTES) != 0)`. -/
def pagesRequested (n : ℕ) : ℕ := n / PAYLOAD_BYTES + if n % PAYLOAD_BYTES ≠ 0 then 1 else 0

/-- Deeper than the stack of any 32-bit process. -/
abbrev STACK_FRAMES : ℕ := 2 ^ 32

/-! ## Initialisation -/

/-- The loop that reserves the frames of the page tables.  Each directory entry is
given the address of the directory itself, as the source has it. -/
def reservePageTables (pgdirFrame : ℕ) : ℕ → ℕ → Vm → Option Vm
  | _, 0, s => some s
  | pt, n + 1, s => do
    let ptableFrame := firstAvailablePosition s.frameBitmap
    let bitmap ← setBitAt s.frameBitmap ptableFrame
    let s := { s with frameBitmap := bitmap }
    let s ← s.storeWord (s.ptbr + WORD_BYTES * pt) (pointerToFrameAtPosition s pgdirFrame)
    reservePageTables pgdirFrame (pt + 1) n s

def initPageTables (s : Vm) : Option Vm := do
  let pgdirFrame := firstAvailablePosition s.frameBitmap
  let bitmap ← setBitAt s.frameBitmap pgdirFrame
  let s := { s with frameBitmap := bitmap, ptbr := pointerToFrameAtPosition s pgdirFrame }
  let tables := 1 <<< pagingScheme.pageDir.toNat
  let s ← reservePageTables pgdirFrame 0 tables s
  guard (numBitsSet s.frameBitmap = 1 + tables)
  let enough ← nBitsAvailable s.frameBitmap
    ((1 <<< pagingScheme.charsForBitmap.toNat) - 1 - tables)
  guard (enough = true)
  let bitmap ← setBitAt s.virtualBitmap 0
  let s := { s with virtualBitmap := bitmap }
  guard (numBitsSet s.virtualBitmap = 1)
  some s

/-- `vmStart` is the block `malloc(MEMSIZE)` returned. -/
def setPhysicalMem (vmStart : VmStart) : Option Vm :=
  initPageTables
    { vmStart
      memory := fun _ => 0
      ptbr := 0
      virtualBitmap := fun _ => 0
      frameBitmap := fun _ => 0
      tlbCache := ⟨0, []⟩
      tlbMisses := 0
      tlbLookups := 0
      libraryLock := false }

/-! ## Allocation -/

/-- The body of the mapping loop of `t_malloc`: it returns the virtual address of the
page and the physical address of its frame. -/
def mapPage (s : Vm) : Option ((ℕ × ℕ) × Vm) := do
  let va := getNextAvail s
  let frameObtained := firstAvailablePosition s.frameBitmap
  let bitmap ← setBitAt s.frameBitmap frameObtained
  let s := { s with frameBitmap := bitmap }
  let pa := pointerToFrameAtPosition s frameObtained
  let s ← s.clear pa PGSIZE
  let (mappedSuccessfully, s) ← pageMap s va pa
  guard (mappedSuccessfully ≠ 0)
  guard (bitSetAt s.virtualBitmap (pageOf va) = true)
  guard (bitSetAt s.frameBitmap frameObtained = true)
  some ((va, pa), s)

/-- The mapping loop of `t_malloc`, for `n` more pages, in order. -/
def mapPages : ℕ → Vm → Option (List (ℕ × ℕ) × Vm)
  | 0, s => some ([], s)
  | n + 1, s => do
    let (page, s) ← mapPage s
    let (rest, s) ← mapPages n s
    some (page :: rest, s)

/-- The loop of `t_malloc` that stores in each page the address of the next one. -/
def linkPages : List (ℕ × ℕ) → Vm → Option Vm
  | (_, pa) :: (va', pa') :: rest, s => do
    let s ← s.storeWord pa va'
    linkPages ((va', pa') :: rest) s
  | _, s => some s

/-- `first_page = first_page == NULL ? va : first_page`, over the pages mapped. -/
def firstPage (mapped : List (ℕ × ℕ)) : ℕ :=
  ((mapped.map Prod.fst).find? (· ≠ 0)).getD 0

def tMalloc (s : Vm) (numBytes : UInt32) : Option (ℕ × Vm) := do
  let s ← s.lock
  if numBytes = 0 then do
    let s ← s.unlock
    some (0, s)
  else do
    let pagesRequested := pagesRequested numBytes.toNat
    let virtualOk ← nBitsAvailable s.virtualBitmap pagesRequested
    let frameOk ← nBitsAvailable s.frameBitmap pagesRequested
    if !virtualOk || !frameOk then do
      let s ← s.unlock
      some (0, s)
    else do
      let (mapped, s) ← mapPages pagesRequested s
      let s ← linkPages mapped s
      let s ← s.unlock
      some (firstPage mapped, s)

/-! ## Walking a chain -/

def validPagesLinkedTogetherFrom : ℕ → ℕ → Vm → Option (Bool × Vm)
  | 0, _, s => some (true, s)
  | numLinks + 1, start, s =>
    if start = 0 then some (false, s)
    else if !usedVa s start then some (false, s)
    else do
      let (pteHoldingFrame, s) ← translate s start
      if pteHoldingFrame = 0 then some (false, s)
      else do
        let pa ← s.loadWord pteHoldingFrame
        if pa = 0 then some (false, s)
        else do
          let newStart ← s.loadWord pa
          validPagesLinkedTogetherFrom numLinks newStart s

/-! ## Freeing -/

def tFreeAux : ℕ → ℕ → Vm → Option Vm
  | 0, _, s => some s
  | numLinks + 1, start, s =>
    if start = 0 then some s
    else do
      let (_, cache) ← searchAndRemove s.tlbCache start
      let (pteHoldingFrame, s) ← translate { s with tlbCache := cache } start
      let pa ← s.loadWord pteHoldingFrame
      let s ← s.clear pteHoldingFrame WORD_BYTES
      let newStart ← s.loadWord pa
      let virtualBitmap ← unsetBitAt s.virtualBitmap (pageOf start)
      let frameBitmap ← unsetBitAt s.frameBitmap (framePositionFromPointer s pa)
      let s ← { s with virtualBitmap, frameBitmap }.clear pa PGSIZE
      tFreeAux numLinks newStart s

def tFree (s : Vm) (va : ℕ) (size : ℤ) : Option Vm :=
  if size = 0 then some s
  else do
    let s ← s.lock
    let pagesRequested := pagesRequested (toSizeT size)
    let (valid, s) ← validPagesLinkedTogetherFrom pagesRequested va s
    let s ← if valid then tFreeAux pagesRequested va s else some s
    s.unlock

/-! ## Writing and reading -/

def putValueAux : ℕ → ℕ → List UInt8 → ℕ → Vm → Option Vm
  | 0, _, _, _, _ => none
  | fuel + 1, start, val, bytesRemaining, s =>
    if bytesRemaining = 0 then some s
    else do
      let (pteHoldingFrame, s) ← translate s start
      let pa ← s.loadWord pteHoldingFrame
      let newStart ← s.loadWord pa
      let byteOffset := (extractFrom pagingScheme start).byteOffset
      if byteOffset > PAYLOAD_BYTES then
        -- nothing of this page is addressed: skip to its successor
        putValueAux fuel (newStart ||| (byteOffset - PAYLOAD_BYTES)) val bytesRemaining s
      else do
        let writeableBytes := PAYLOAD_BYTES - byteOffset
        if bytesRemaining ≤ writeableBytes then
          s.copyIn (pa + WORD_BYTES + byteOffset) val bytesRemaining
        else do
          let s ← s.copyIn (pa + WORD_BYTES + byteOffset) val writeableBytes
          putValueAux fuel newStart (val.drop writeableBytes) (bytesRemaining - writeableBytes) s

/-- Returns `0` on success and `-1` on failure. -/
def putValue (s : Vm) (va : ℕ) (val : List UInt8) (size : ℤ) : Option (ℤ × Vm) := do
  let s ← s.lock
  let byteOffset := (extractFrom pagingScheme va).byteOffset
  let size := toSizeT (size + byteOffset)
  let (valid, s) ← validPagesLinkedTogetherFrom (pagesRequested size) va s
  if !valid then do
    let s ← s.unlock
    some (-1, s)
  else do
    let s ← putValueAux STACK_FRAMES va val (toSizeT (size - byteOffset)) s
    let s ← s.unlock
    some (0, s)

/-- The bytes copied into the caller's buffer, in order. -/
def getValueAux : ℕ → ℕ → ℕ → Vm → Option (List UInt8 × Vm)
  | 0, _, _, _ => none
  | fuel + 1, start, bytesRemaining, s =>
    if bytesRemaining = 0 then some ([], s)
    else do
      let (pteHoldingFrame, s) ← translate s start
      let pa ← s.loadWord pteHoldingFrame
      let newStart ← s.loadWord pa
      let byteOffset := (extractFrom pagingScheme start).byteOffset
      if byteOffset > PAYLOAD_BYTES then
        getValueAux fuel (newStart ||| (byteOffset - PAYLOAD_BYTES)) bytesRemaining s
      else do
        let readableBytes := PAYLOAD_BYTES - byteOffset
        if bytesRemaining ≤ readableBytes then do
          let bytes ← s.copyOut (pa + WORD_BYTES + byteOffset) bytesRemaining
          some (bytes, s)
        else do
          let bytes ← s.copyOut (pa + WORD_BYTES + byteOffset) readableBytes
          let (rest, s) ← getValueAux fuel newStart (bytesRemaining - readableBytes) s
          some (bytes ++ rest, s)

/-- Unlike `put_value`, a failed check does not return: it releases the lock, reads
anyway and releases the lock again. -/
def getValue (s : Vm) (va : ℕ) (size : ℤ) : Option (List UInt8 × Vm) := do
  let s ← s.lock
  let byteOffset := (extractFrom pagingScheme va).byteOffset
  let size := toSizeT (size + byteOffset)
  let (valid, s) ← validPagesLinkedTogetherFrom (pagesRequested size) va s
  let s ← if !valid then s.unlock else some s
  let (bytes, s) ← getValueAux STACK_FRAMES va (toSizeT (size - byteOffset)) s
  let s ← s.unlock
  some (bytes, s)

/-! ## One client call -/

/-- A call of the library with its arguments. -/
inductive Call where
  | tMalloc (numBytes : UInt32)
  | tFree (va : ℕ) (size : ℤ)
  | putValue (va : ℕ) (val : List UInt8) (size : ℤ)
  | getValue (va : ℕ) (size : ℤ)
  deriving DecidableEq, Repr

/-- What a call returns. -/
inductive Ret where
  | ptr (va : ℕ)
  | unit
  | status (code : ℤ)
  | bytes (val : List UInt8)
  deriving DecidableEq, Repr

def Call.exec (s : Vm) : Call → Option (Ret × Vm)
  | .tMalloc n => (Memory.tMalloc s n).map fun (va, s) => (.ptr va, s)
  | .tFree va size => (Memory.tFree s va size).map fun s => (.unit, s)
  | .putValue va val size => (Memory.putValue s va val size).map fun (code, s) => (.status code, s)
  | .getValue va size => (Memory.getValue s va size).map fun (val, s) => (.bytes val, s)

end UserLevelOs.Memory
