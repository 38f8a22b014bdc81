import UserLevelOs.Lib.Logged
import UserLevelOs.Memory.Release

/-!
# The calls, with their lookups

The calls of the library once more, as computations that log something at each lookup of an
address.  What it is that they log is a parameter.  Logging changes nothing: what a traced call
does is what the call does.

## Main definitions

* `Lookup` — an address and the cell answered.
* `Tracer` — `translate`, with a log.
* `Tracer.pageMap` and, over it, the other functions.
* `Tracer.watched` — the states in which addresses are looked up.
* `Tracer.recorded` — the lookups themselves.
* `Call.traced`.

## Main statements

* `Call.run_traced` — a traced call runs as the call.
-/

namespace UserLevelOs.Memory

open UserLevelOs.Lib

/-- An address looked up and the page-table cell answered, `0` for `NULL`. -/
structure Lookup where
  va : ℕ
  cell : ℕ
  deriving DecidableEq, Repr

/-- A lookup that logs something; what it does is what `translate` does. -/
structure Tracer (ω : Type) where
  translate : ℕ → Logged Vm ω ℕ
  run_translate : ∀ va s, (translate va).run s = Memory.translate s va

namespace Tracer

open Logged hiding pure bind

variable {ω : Type} (T : Tracer ω)

def pageMap (va pa : ℕ) : Logged Vm ω ℕ := do
  let vaPos := pageOf va
  let mapped ← reads fun s => some (bitSetAt s.virtualBitmap vaPos)
  if !isValidVa pagingScheme va || mapped then return 0
  else do
    update fun s => do
      let bitmap ← setBitAt s.virtualBitmap vaPos
      some { s with virtualBitmap := bitmap }
    let cell ← T.translate va
    update fun s => s.storeWord cell pa
    return 1

def mapPage : Logged Vm ω (ℕ × ℕ) := do
  let va ← reads fun s => some (getNextAvail s)
  let frameObtained ← reads fun s => some (firstAvailablePosition s.frameBitmap)
  update fun s => do
    let bitmap ← setBitAt s.frameBitmap frameObtained
    some { s with frameBitmap := bitmap }
  let pa ← reads fun s => some (pointerToFrameAtPosition s frameObtained)
  update fun s => s.clear pa PGSIZE
  let mappedSuccessfully ← T.pageMap va pa
  reads fun s => do
    guard (mappedSuccessfully ≠ 0)
    guard (bitSetAt s.virtualBitmap (pageOf va) = true)
    guard (bitSetAt s.frameBitmap frameObtained = true)
  return (va, pa)

def mapPages : ℕ → Logged Vm ω (List (ℕ × ℕ))
  | 0 => return []
  | n + 1 => do
    let page ← T.mapPage
    let rest ← mapPages n
    return page :: rest

def tMalloc (numBytes : UInt32) : Logged Vm ω ℕ := do
  update Vm.lock
  if numBytes = 0 then do
    update Vm.unlock
    return 0
  else do
    let pagesRequested := pagesRequested numBytes.toNat
    let virtualOk ← reads fun s => nBitsAvailable s.virtualBitmap pagesRequested
    let frameOk ← reads fun s => nBitsAvailable s.frameBitmap pagesRequested
    if !virtualOk || !frameOk then do
      update Vm.unlock
      return 0
    else do
      let mapped ← T.mapPages pagesRequested
      update (linkPages mapped)
      update Vm.unlock
      return firstPage mapped

def validPagesLinkedTogetherFrom : ℕ → ℕ → Logged Vm ω Bool
  | 0, _ => return true
  | numLinks + 1, start =>
    if start = 0 then return false
    else do
      let used ← reads fun s => some (usedVa s start)
      if !used then return false
      else do
        let pteHoldingFrame ← T.translate start
        if pteHoldingFrame = 0 then return false
        else do
          let pa ← reads fun s => s.loadWord pteHoldingFrame
          if pa = 0 then return false
          else do
            let newStart ← reads fun s => s.loadWord pa
            validPagesLinkedTogetherFrom numLinks newStart

def freePage (start : ℕ) : Logged Vm ω ℕ := do
  update fun s => do
    let (_, cache) ← searchAndRemove s.tlbCache start
    some { s with tlbCache := cache }
  let pteHoldingFrame ← T.translate start
  let pa ← reads fun s => s.loadWord pteHoldingFrame
  update fun s => s.clear pteHoldingFrame WORD_BYTES
  let newStart ← reads fun s => s.loadWord pa
  update fun s => do
    let virtualBitmap ← unsetBitAt s.virtualBitmap (pageOf start)
    let frameBitmap ← unsetBitAt s.frameBitmap (framePositionFromPointer s pa)
    { s with virtualBitmap, frameBitmap }.clear pa PGSIZE
  return newStart

def tFreeAux : ℕ → ℕ → Logged Vm ω Unit
  | 0, _ => return ()
  | numLinks + 1, start =>
    if start = 0 then return ()
    else do
      let newStart ← T.freePage start
      tFreeAux numLinks newStart

def tFree (va : ℕ) (size : ℤ) : Logged Vm ω Unit :=
  if size = 0 then return ()
  else do
    update Vm.lock
    let pagesRequested := pagesRequested (toSizeT size)
    let valid ← T.validPagesLinkedTogetherFrom pagesRequested va
    if valid then T.tFreeAux pagesRequested va else pure ()
    update Vm.unlock

def putValueAux : ℕ → ℕ → List UInt8 → ℕ → Logged Vm ω Unit
  | 0, _, _, _ => lift fun _ => none
  | fuel + 1, start, val, bytesRemaining =>
    if bytesRemaining = 0 then return ()
    else do
      let pteHoldingFrame ← T.translate start
      let pa ← reads fun s => s.loadWord pteHoldingFrame
      let newStart ← reads fun s => s.loadWord pa
      let byteOffset := (extractFrom pagingScheme start).byteOffset
      if byteOffset > PAYLOAD_BYTES then
        putValueAux fuel (newStart ||| (byteOffset - PAYLOAD_BYTES)) val bytesRemaining
      else do
        let writeableBytes := PAYLOAD_BYTES - byteOffset
        if bytesRemaining ≤ writeableBytes then
          update fun s => s.copyIn (pa + WORD_BYTES + byteOffset) val bytesRemaining
        else do
          update fun s => s.copyIn (pa + WORD_BYTES + byteOffset) val writeableBytes
          putValueAux fuel newStart (val.drop writeableBytes) (bytesRemaining - writeableBytes)

def putValue (va : ℕ) (val : List UInt8) (size : ℤ) : Logged Vm ω ℤ := do
  update Vm.lock
  let byteOffset := (extractFrom pagingScheme va).byteOffset
  let size := toSizeT (size + byteOffset)
  let valid ← T.validPagesLinkedTogetherFrom (pagesRequested size) va
  if !valid then do
    update Vm.unlock
    return -1
  else do
    T.putValueAux STACK_FRAMES va val (toSizeT (size - byteOffset))
    update Vm.unlock
    return 0

def getValueAux : ℕ → ℕ → ℕ → Logged Vm ω (List UInt8)
  | 0, _, _ => lift fun _ => none
  | fuel + 1, start, bytesRemaining =>
    if bytesRemaining = 0 then return []
    else do
      let pteHoldingFrame ← T.translate start
      let pa ← reads fun s => s.loadWord pteHoldingFrame
      let newStart ← reads fun s => s.loadWord pa
      let byteOffset := (extractFrom pagingScheme start).byteOffset
      if byteOffset > PAYLOAD_BYTES then
        getValueAux fuel (newStart ||| (byteOffset - PAYLOAD_BYTES)) bytesRemaining
      else do
        let readableBytes := PAYLOAD_BYTES - byteOffset
        if bytesRemaining ≤ readableBytes then
          reads fun s => s.copyOut (pa + WORD_BYTES + byteOffset) bytesRemaining
        else do
          let bytes ← reads fun s => s.copyOut (pa + WORD_BYTES + byteOffset) readableBytes
          let rest ← getValueAux fuel newStart (bytesRemaining - readableBytes)
          return bytes ++ rest

def getValue (va : ℕ) (size : ℤ) : Logged Vm ω (List UInt8) := do
  update Vm.lock
  let byteOffset := (extractFrom pagingScheme va).byteOffset
  let size := toSizeT (size + byteOffset)
  let valid ← T.validPagesLinkedTogetherFrom (pagesRequested size) va
  if !valid then update Vm.unlock else pure ()
  let bytes ← T.getValueAux STACK_FRAMES va (toSizeT (size - byteOffset))
  update Vm.unlock
  return bytes

/-! ## Logging changes nothing -/

attribute [simp] run_translate

@[simp] theorem run_pageMap (va pa : ℕ) (s : Vm) :
    (T.pageMap va pa).run s = Memory.pageMap s va pa := by
  simp [pageMap, Memory.pageMap, Option.bind_assoc]

@[simp] theorem run_mapPage (s : Vm) : T.mapPage.run s = Memory.mapPage s := by
  simp [mapPage, Memory.mapPage, Option.bind_assoc]

@[simp] theorem run_mapPages (n : ℕ) (s : Vm) : (T.mapPages n).run s = Memory.mapPages n s := by
  induction n generalizing s with
  | zero => rfl
  | succ n ih => simp [mapPages, Memory.mapPages, ih]

@[simp] theorem run_tMalloc (n : UInt32) (s : Vm) : (T.tMalloc n).run s = Memory.tMalloc s n := by
  simp [tMalloc, Memory.tMalloc, Option.bind_assoc]

@[simp] theorem run_validPages (n start : ℕ) (s : Vm) :
    (T.validPagesLinkedTogetherFrom n start).run s =
      Memory.validPagesLinkedTogetherFrom n start s := by
  induction n generalizing start s with
  | zero => rfl
  | succ n ih =>
    simp [validPagesLinkedTogetherFrom, Memory.validPagesLinkedTogetherFrom, ih, Option.bind_assoc]

@[simp] theorem run_freePage (start : ℕ) (s : Vm) :
    (T.freePage start).run s = Memory.freePage start s := by
  rw [freePage, Memory.freePage]
  simp only [run_bind, run_update, run_reads, run_translate, Logged.run_pure, Option.bind_eq_bind,
    Option.bind_assoc, Option.bind_some]

@[simp] theorem run_tFreeAux (n start : ℕ) (s : Vm) :
    (T.tFreeAux n start).run s = (Memory.tFreeAux n start s).bind fun s => some ((), s) := by
  induction n generalizing start s with
  | zero => rfl
  | succ n ih =>
    by_cases h0 : start = 0
    · rw [tFreeAux, Memory.tFreeAux, if_pos h0, if_pos h0, Option.bind_some, Logged.run_pure]
    · rw [tFreeAux, tFreeAux_succ n h0, if_neg h0, run_bind, run_freePage, Option.bind_assoc]
      simp only [ih]

@[simp] theorem run_tFree (va : ℕ) (size : ℤ) (s : Vm) :
    (T.tFree va size).run s = (Memory.tFree s va size).bind fun s => some ((), s) := by
  by_cases h0 : size = 0
  · simp [tFree, Memory.tFree, h0]
  · simp [tFree, Memory.tFree, h0, Option.bind_assoc, ite_bind]

@[simp] theorem run_putValueAux (fuel start : ℕ) (val : List UInt8) (n : ℕ) (s : Vm) :
    (T.putValueAux fuel start val n).run s =
      (Memory.putValueAux fuel start val n s).bind fun s => some ((), s) := by
  induction fuel generalizing start val n s with
  | zero => rfl
  | succ fuel ih =>
    by_cases h0 : n = 0
    · simp [putValueAux, Memory.putValueAux, h0]
    · simp [putValueAux, Memory.putValueAux, h0, ih, Option.bind_assoc, ite_bind]

@[simp] theorem run_putValue (va : ℕ) (val : List UInt8) (size : ℤ) (s : Vm) :
    (T.putValue va val size).run s = Memory.putValue s va val size := by
  simp [putValue, Memory.putValue, Option.bind_assoc]

@[simp] theorem run_getValueAux (fuel start n : ℕ) (s : Vm) :
    (T.getValueAux fuel start n).run s = Memory.getValueAux fuel start n s := by
  induction fuel generalizing start n s with
  | zero => rfl
  | succ fuel ih =>
    simp [getValueAux, Memory.getValueAux, ih, Option.bind_assoc]

@[simp] theorem run_getValue (va : ℕ) (size : ℤ) (s : Vm) :
    (T.getValue va size).run s = Memory.getValue s va size := by
  simp [getValue, Memory.getValue, Option.bind_assoc]

/-! ## Two tracers -/

/-- Log the state in which the address is looked up. -/
def watched : Tracer Vm where
  translate va := do
    mark
    lift fun s => Memory.translate s va
  run_translate := by simp

@[simp] theorem log_watched (va : ℕ) (s : Vm) : (watched.translate va).log s = [s] := by
  simp [watched, log_bind]

/-- Log the address looked up and the cell answered. -/
def recorded : Tracer Lookup where
  translate va := do
    let cell ← lift fun s => Memory.translate s va
    emit ⟨va, cell⟩
    return cell
  run_translate := by simp

theorem log_recorded {va cell : ℕ} {s s' : Vm} (h : Memory.translate s va = some (cell, s')) :
    (recorded.translate va).log s = [⟨va, cell⟩] := by
  simp [recorded, log_bind, h]

end Tracer

/-- The call, logging what the tracer does. -/
def Call.traced {ω : Type} (T : Tracer ω) : Call → Logged Vm ω Ret
  | .tMalloc n => do
    let va ← T.tMalloc n
    return .ptr va
  | .tFree va size => do
    T.tFree va size
    return .unit
  | .putValue va val size => do
    let code ← T.putValue va val size
    return .status code
  | .getValue va size => do
    let bytes ← T.getValue va size
    return .bytes bytes

/-- What a traced call does is what the call does. -/
@[simp] theorem Call.run_traced {ω : Type} (T : Tracer ω) (c : Call) (s : Vm) :
    (c.traced T).run s = c.exec s := by
  cases c <;> simp [Call.traced, Call.exec, Option.map_eq_bind, Option.bind_assoc]

end UserLevelOs.Memory
