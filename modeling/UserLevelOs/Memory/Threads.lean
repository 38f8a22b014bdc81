import UserLevelOs.Lib.Execution
import UserLevelOs.Lib.Serial
import UserLevelOs.Memory.Calls

/-!
# Threads that call the library

Any number of threads may call the library at the same time.  The first call of `t_malloc` sets
the library up behind a test-and-set flag; every call does its work between `lock` and `unlock` of
`library_lock`, in steps: one turn of a loop each.

## Main definitions

* `Inside`, `Inside.step`, `Inside.rest` — a call between `lock` and `unlock`.
* `Leave` — how it leaves this part; a `get_value` that is turned down reads on without the lock.
* `Point` — where a thread is.
* `World`, `World.exec` — the library and its threads.

## Main statements

* `inside` — the steps do what the call does at once.
* `Inside.rank_lt` — there are only so many of them.
-/

namespace UserLevelOs.Memory

open UserLevelOs.Lib

/-! ## One turn of each loop -/

/-- A turn of `valid_pages_linked_together_from`: the next page of the chain, if this one is
valid. -/
def checkLink (start : ℕ) (s : Vm) : Option (Option ℕ × Vm) :=
  if start = 0 then some (none, s)
  else if !usedVa s start then some (none, s)
  else do
    let (pteHoldingFrame, s) ← translate s start
    if pteHoldingFrame = 0 then some (none, s)
    else do
      let pa ← s.loadWord pteHoldingFrame
      if pa = 0 then some (none, s)
      else do
        let newStart ← s.loadWord pa
        some (some newStart, s)

/-- A call of `t_free_aux` up to the next one, which gets the address. -/
def freeLink (start : ℕ) (s : Vm) : Option (ℕ × Vm) := do
  let (_, cache) ← searchAndRemove s.tlbCache start
  let (pteHoldingFrame, s) ← translate { s with tlbCache := cache } start
  let pa ← s.loadWord pteHoldingFrame
  let s ← s.clear pteHoldingFrame WORD_BYTES
  let newStart ← s.loadWord pa
  let virtualBitmap ← unsetBitAt s.virtualBitmap (pageOf start)
  let frameBitmap ← unsetBitAt s.frameBitmap (framePositionFromPointer s pa)
  let s ← { s with virtualBitmap, frameBitmap }.clear pa PGSIZE
  some (newStart, s)

/-- The page of `start`: its frame, the next page and the offset. -/
def pageAt (start : ℕ) (s : Vm) : Option ((ℕ × ℕ × ℕ) × Vm) := do
  let (pteHoldingFrame, s) ← translate s start
  let pa ← s.loadWord pteHoldingFrame
  let newStart ← s.loadWord pa
  some ((pa, newStart, (extractFrom pagingScheme start).byteOffset), s)

theorem validPagesLinkedTogetherFrom_turn (n start : ℕ) (s : Vm) :
    validPagesLinkedTogetherFrom (n + 1) start s = (checkLink start s).bind fun x =>
      x.1.elim (some (false, x.2)) fun next => validPagesLinkedTogetherFrom n next x.2 := by
  rw [validPagesLinkedTogetherFrom, checkLink]
  split
  · rfl
  split
  · rfl
  cases translate s start with
  | none => rfl
  | some x =>
    obtain ⟨cell, s⟩ := x
    simp only [Option.bind_eq_bind, Option.bind_some]
    split
    · rfl
    cases s.loadWord cell with
    | none => rfl
    | some pa =>
      simp only [Option.bind_some]
      split
      · rfl
      cases s.loadWord pa <;> rfl

theorem tFreeAux_turn (n start : ℕ) (s : Vm) : tFreeAux (n + 1) start s =
    if start = 0 then some s
    else (freeLink start s).bind fun x => tFreeAux n x.1 x.2 := by
  rw [tFreeAux]
  split
  · rfl
  · simp only [freeLink, Option.bind_eq_bind, Option.bind_assoc, Option.bind_some]

theorem putValueAux_turn (fuel start : ℕ) (val : List UInt8) (bytesRemaining : ℕ) (s : Vm) :
    putValueAux (fuel + 1) start val bytesRemaining s =
      if bytesRemaining = 0 then some s
      else (pageAt start s).bind fun x =>
        if x.1.2.2 > PAYLOAD_BYTES then
          putValueAux fuel (x.1.2.1 ||| (x.1.2.2 - PAYLOAD_BYTES)) val bytesRemaining x.2
        else if bytesRemaining ≤ PAYLOAD_BYTES - x.1.2.2 then
          x.2.copyIn (x.1.1 + WORD_BYTES + x.1.2.2) val bytesRemaining
        else (x.2.copyIn (x.1.1 + WORD_BYTES + x.1.2.2) val (PAYLOAD_BYTES - x.1.2.2)).bind fun s =>
          putValueAux fuel x.1.2.1 (val.drop (PAYLOAD_BYTES - x.1.2.2))
            (bytesRemaining - (PAYLOAD_BYTES - x.1.2.2)) s := by
  rw [putValueAux]
  split
  · rfl
  · simp only [pageAt, Option.bind_eq_bind, Option.bind_assoc, Option.bind_some]

theorem getValueAux_turn (fuel start bytesRemaining : ℕ) (s : Vm) :
    getValueAux (fuel + 1) start bytesRemaining s =
      if bytesRemaining = 0 then some ([], s)
      else (pageAt start s).bind fun x =>
        if x.1.2.2 > PAYLOAD_BYTES then
          getValueAux fuel (x.1.2.1 ||| (x.1.2.2 - PAYLOAD_BYTES)) bytesRemaining x.2
        else if bytesRemaining ≤ PAYLOAD_BYTES - x.1.2.2 then
          (x.2.copyOut (x.1.1 + WORD_BYTES + x.1.2.2) bytesRemaining).map fun bytes => (bytes, x.2)
        else (x.2.copyOut (x.1.1 + WORD_BYTES + x.1.2.2) (PAYLOAD_BYTES - x.1.2.2)).bind fun bytes =>
          (getValueAux fuel x.1.2.1 (bytesRemaining - (PAYLOAD_BYTES - x.1.2.2)) x.2).map fun y =>
            (bytes ++ y.1, y.2) := by
  rw [getValueAux]
  split
  · rfl
  · simp only [pageAt, Option.bind_eq_bind, Option.bind_assoc, Option.bind_some,
      Option.map_eq_bind, Function.comp_def]

/-! ## A call between `lock` and `unlock` -/

/-- What is to be done with a chain that is being checked. -/
inductive Checked
  | tFree (va pagesRequested : ℕ)
  | putValue (va : ℕ) (val : List UInt8) (size : ℕ)
  | getValue (va size : ℕ)
  deriving DecidableEq, Repr

/-- Where a call is; the pages are pairs of a virtual and a physical address. -/
inductive Inside
  /-- At the first test of `t_malloc`. -/
  | tMalloc (numBytes : UInt32)
  | mapping (left : ℕ) (mapped : List (ℕ × ℕ))
  | linking (left : List (ℕ × ℕ)) (firstPage : ℕ)
  | checking (f : Checked) (left start : ℕ)
  | freeing (left start : ℕ)
  | writing (fuel start : ℕ) (val : List UInt8) (bytesRemaining : ℕ)
  | reading (fuel start bytesRemaining : ℕ) (bytes : List UInt8)
  deriving DecidableEq, Repr

/-- The chain is valid. -/
def Checked.accept : Checked → Inside
  | .tFree va pagesRequested => .freeing pagesRequested va
  | .putValue va val size => .writing STACK_FRAMES va val size
  | .getValue va size => .reading STACK_FRAMES va size []

/-- How a call leaves the part under the lock. -/
inductive Leave
  /-- It gives the lock back and returns. -/
  | ret (r : Ret)
  /-- `get_value` gives the lock back, and then reads all the same. -/
  | astray (va size : ℕ)
  deriving DecidableEq, Repr

/-- The chain is not valid. -/
def Checked.reject : Checked → Leave
  | .tFree _ _ => .ret .unit
  | .putValue _ _ _ => .ret (.status (-1))
  | .getValue va size => .astray va size

namespace Inside

/-- The place after `lock`. -/
def enter : Call → Inside
  | .tMalloc numBytes => .tMalloc numBytes
  | .tFree va size =>
    let pagesRequested := pagesRequested (toSizeT size)
    .checking (.tFree va pagesRequested) pagesRequested va
  | .putValue va val size =>
    let byteOffset := (extractFrom pagingScheme va).byteOffset
    let size := toSizeT (size + byteOffset)
    .checking (.putValue va val (toSizeT (size - byteOffset))) (pagesRequested size) va
  | .getValue va size =>
    let byteOffset := (extractFrom pagingScheme va).byteOffset
    let size := toSizeT (size + byteOffset)
    .checking (.getValue va (toSizeT (size - byteOffset))) (pagesRequested size) va

/-- One step; the result is `.inr` when the call is about to give the lock back. -/
def step : Inside → Vm → Option ((Inside ⊕ Leave) × Vm)
  | .tMalloc numBytes, s =>
    if numBytes = 0 then some (.inr (.ret (.ptr 0)), s)
    else do
      let pagesRequested := pagesRequested numBytes.toNat
      let virtualOk ← nBitsAvailable s.virtualBitmap pagesRequested
      let frameOk ← nBitsAvailable s.frameBitmap pagesRequested
      if !virtualOk || !frameOk then some (.inr (.ret (.ptr 0)), s)
      else some (.inl (.mapping pagesRequested []), s)
  | .mapping 0 mapped, s => some (.inl (.linking mapped (Memory.firstPage mapped)), s)
  | .mapping (left + 1) mapped, s => do
    let (page, s) ← mapPage s
    some (.inl (.mapping left (mapped ++ [page])), s)
  | .linking ((_, pa) :: (va', pa') :: rest) firstPage, s => do
    let s ← s.storeWord pa va'
    some (.inl (.linking ((va', pa') :: rest) firstPage), s)
  | .linking _ firstPage, s => some (.inr (.ret (.ptr firstPage)), s)
  | .checking f 0 _, s => some (.inl f.accept, s)
  | .checking f (left + 1) start, s => do
    let (next, s) ← checkLink start s
    match next with
    | some newStart => some (.inl (.checking f left newStart), s)
    | none => some (.inr f.reject, s)
  | .freeing 0 _, s => some (.inr (.ret .unit), s)
  | .freeing (left + 1) start, s =>
    if start = 0 then some (.inr (.ret .unit), s)
    else do
      let (newStart, s) ← freeLink start s
      some (.inl (.freeing left newStart), s)
  | .writing 0 _ _ _, _ => none
  | .writing (fuel + 1) start val bytesRemaining, s =>
    if bytesRemaining = 0 then some (.inr (.ret (.status 0)), s)
    else do
      let ((pa, newStart, byteOffset), s) ← pageAt start s
      if byteOffset > PAYLOAD_BYTES then
        some (.inl (.writing fuel (newStart ||| (byteOffset - PAYLOAD_BYTES)) val bytesRemaining), s)
      else do
        let writeableBytes := PAYLOAD_BYTES - byteOffset
        if bytesRemaining ≤ writeableBytes then do
          let s ← s.copyIn (pa + WORD_BYTES + byteOffset) val bytesRemaining
          some (.inr (.ret (.status 0)), s)
        else do
          let s ← s.copyIn (pa + WORD_BYTES + byteOffset) val writeableBytes
          some (.inl (.writing fuel newStart (val.drop writeableBytes)
            (bytesRemaining - writeableBytes)), s)
  | .reading 0 _ _ _, _ => none
  | .reading (fuel + 1) start bytesRemaining bytes, s =>
    if bytesRemaining = 0 then some (.inr (.ret (.bytes bytes)), s)
    else do
      let ((pa, newStart, byteOffset), s) ← pageAt start s
      if byteOffset > PAYLOAD_BYTES then
        some (.inl (.reading fuel (newStart ||| (byteOffset - PAYLOAD_BYTES)) bytesRemaining bytes),
          s)
      else do
        let readableBytes := PAYLOAD_BYTES - byteOffset
        if bytesRemaining ≤ readableBytes then do
          let more ← s.copyOut (pa + WORD_BYTES + byteOffset) bytesRemaining
          some (.inr (.ret (.bytes (bytes ++ more))), s)
        else do
          let more ← s.copyOut (pa + WORD_BYTES + byteOffset) readableBytes
          some (.inl (.reading fuel newStart (bytesRemaining - readableBytes) (bytes ++ more)), s)

end Inside

/-- What `f` does with a valid chain, at once. -/
def Checked.accepted (f : Checked) (s : Vm) : Option (Leave × Vm) :=
  match f with
  | .tFree va pagesRequested => (tFreeAux pagesRequested va s).map fun s => (.ret .unit, s)
  | .putValue va val size =>
    (putValueAux STACK_FRAMES va val size s).map fun s => (.ret (.status 0), s)
  | .getValue va size => (getValueAux STACK_FRAMES va size s).map fun x => (.ret (.bytes x.1), x.2)

namespace Inside

/-- What is left to do up to `unlock`, at once. -/
def rest : Inside → Vm → Option (Leave × Vm)
  | .tMalloc numBytes, s =>
    if numBytes = 0 then some (.ret (.ptr 0), s)
    else do
      let pagesRequested := pagesRequested numBytes.toNat
      let virtualOk ← nBitsAvailable s.virtualBitmap pagesRequested
      let frameOk ← nBitsAvailable s.frameBitmap pagesRequested
      if !virtualOk || !frameOk then some (.ret (.ptr 0), s)
      else do
        let (mapped, s) ← mapPages pagesRequested s
        let s ← linkPages mapped s
        some (.ret (.ptr (Memory.firstPage mapped)), s)
  | .mapping left mapped, s => do
    let (more, s) ← mapPages left s
    let s ← linkPages (mapped ++ more) s
    some (.ret (.ptr (Memory.firstPage (mapped ++ more))), s)
  | .linking left firstPage, s => (linkPages left s).map fun s => (.ret (.ptr firstPage), s)
  | .checking f left start, s => do
    let (valid, s) ← validPagesLinkedTogetherFrom left start s
    if valid then f.accepted s else some (f.reject, s)
  | .freeing left start, s => (tFreeAux left start s).map fun s => (.ret .unit, s)
  | .writing fuel start val bytesRemaining, s =>
    (putValueAux fuel start val bytesRemaining s).map fun s => (.ret (.status 0), s)
  | .reading fuel start bytesRemaining bytes, s =>
    (getValueAux fuel start bytesRemaining s).map fun x => (.ret (.bytes (bytes ++ x.1)), x.2)

-- the equations of both are made here once, and not in each lemma below
attribute [local simp] step rest

theorem rest_accept (f : Checked) (s : Vm) : f.accept.rest s = f.accepted s := by
  cases f <;> rfl

theorem rest_tMalloc (numBytes : UInt32) (s : Vm) : (tMalloc numBytes).rest s =
    ((tMalloc numBytes).step s).bind fun x =>
      x.1.elim (fun p' => p'.rest x.2) fun r => some (r, x.2) := by
  simp only [rest, step]
  split
  · rfl
  cases nBitsAvailable s.virtualBitmap (pagesRequested numBytes.toNat) with
  | none => rfl
  | some virtualOk =>
    cases nBitsAvailable s.frameBitmap (pagesRequested numBytes.toNat) with
    | none => rfl
    | some frameOk => cases virtualOk <;> cases frameOk <;> rfl

theorem rest_mapping (left : ℕ) (mapped : List (ℕ × ℕ)) (s : Vm) :
    (mapping left mapped).rest s = ((mapping left mapped).step s).bind fun x =>
      x.1.elim (fun p' => p'.rest x.2) fun r => some (r, x.2) := by
  cases left with
  | zero =>
    simp only [rest, step, mapPages, Option.bind_eq_bind, Option.bind_some, Sum.elim_inl,
      List.append_nil]
    cases linkPages mapped s <;> rfl
  | succ left =>
    simp only [rest, step, mapPages, Option.bind_eq_bind, Option.bind_assoc, Option.bind_some,
      Sum.elim_inl, List.append_assoc, List.singleton_append]

theorem rest_linking (left : List (ℕ × ℕ)) (firstPage : ℕ) (s : Vm) :
    (linking left firstPage).rest s = ((linking left firstPage).step s).bind fun x =>
      x.1.elim (fun p' => p'.rest x.2) fun r => some (r, x.2) := by
  rcases left with _ | ⟨⟨va, pa⟩, _ | ⟨⟨va', pa'⟩, left⟩⟩
  · rfl
  · rfl
  · simp only [rest, step, linkPages, Option.bind_eq_bind]
    cases s.storeWord pa va' <;> rfl

theorem rest_checking (f : Checked) (left start : ℕ) (s : Vm) :
    (checking f left start).rest s = ((checking f left start).step s).bind fun x =>
      x.1.elim (fun p' => p'.rest x.2) fun r => some (r, x.2) := by
  cases left with
  | zero => exact (rest_accept f s).symm
  | succ left =>
    simp only [rest, step, validPagesLinkedTogetherFrom_turn, Option.bind_eq_bind,
      Option.bind_assoc]
    cases checkLink start s with
    | none => rfl
    | some x =>
      obtain ⟨next, s⟩ := x
      cases next with
      | none => rfl
      | some newStart => rfl

theorem rest_freeing (left start : ℕ) (s : Vm) :
    (freeing left start).rest s = ((freeing left start).step s).bind fun x =>
      x.1.elim (fun p' => p'.rest x.2) fun r => some (r, x.2) := by
  cases left with
  | zero => rfl
  | succ left =>
    simp only [rest, step, tFreeAux_turn]
    split
    · rfl
    · cases freeLink start s <;> rfl

theorem rest_writing (fuel start : ℕ) (val : List UInt8) (bytesRemaining : ℕ) (s : Vm) :
    (writing fuel start val bytesRemaining).rest s =
      ((writing fuel start val bytesRemaining).step s).bind fun x =>
        x.1.elim (fun p' => p'.rest x.2) fun r => some (r, x.2) := by
  cases fuel with
  | zero => rfl
  | succ fuel =>
    simp only [rest, step, putValueAux_turn]
    split
    · rfl
    cases pageAt start s with
    | none => rfl
    | some x =>
      obtain ⟨⟨pa, newStart, byteOffset⟩, s⟩ := x
      simp only [Option.bind_eq_bind, Option.bind_some]
      split
      · rfl
      split
      · cases s.copyIn (pa + WORD_BYTES + byteOffset) val bytesRemaining <;> rfl
      · cases s.copyIn (pa + WORD_BYTES + byteOffset) val (PAYLOAD_BYTES - byteOffset) <;> rfl

theorem rest_reading (fuel start bytesRemaining : ℕ) (bytes : List UInt8) (s : Vm) :
    (reading fuel start bytesRemaining bytes).rest s =
      ((reading fuel start bytesRemaining bytes).step s).bind fun x =>
        x.1.elim (fun p' => p'.rest x.2) fun r => some (r, x.2) := by
  cases fuel with
  | zero => rfl
  | succ fuel =>
    simp only [rest, step, getValueAux_turn]
    split
    · simp
    cases pageAt start s with
    | none => rfl
    | some x =>
      obtain ⟨⟨pa, newStart, byteOffset⟩, s⟩ := x
      simp only [Option.bind_eq_bind, Option.bind_some]
      split
      · rfl
      split
      · cases s.copyOut (pa + WORD_BYTES + byteOffset) bytesRemaining <;> rfl
      · cases s.copyOut (pa + WORD_BYTES + byteOffset) (PAYLOAD_BYTES - byteOffset) with
        | none => rfl
        | some more =>
          simp only [Option.bind_some, Sum.elim_inl, List.append_assoc]
          cases getValueAux fuel newStart (bytesRemaining - (PAYLOAD_BYTES - byteOffset)) s <;> rfl

theorem rest_eq (p : Inside) (s : Vm) : p.rest s = (p.step s).bind fun x =>
    x.1.elim (fun p' => p'.rest x.2) fun r => some (r, x.2) := by
  cases p with
  | tMalloc numBytes => exact rest_tMalloc numBytes s
  | mapping left mapped => exact rest_mapping left mapped s
  | linking left firstPage => exact rest_linking left firstPage s
  | checking f left start => exact rest_checking f left start s
  | freeing left start => exact rest_freeing left start s
  | writing fuel start val bytesRemaining => exact rest_writing fuel start val bytesRemaining s
  | reading fuel start bytesRemaining bytes => exact rest_reading fuel start bytesRemaining bytes s

end Inside

/-- The calls of the library between `lock` and `unlock`. -/
def inside : Stepwise Vm Inside Leave := ⟨Inside.step, Inside.rest, Inside.rest_eq⟩

/-! ## How long the lock is held -/

namespace Inside

/-- How many steps may be left when no chain is being checked. -/
def turns : Inside → ℕ
  | .tMalloc numBytes => 2 * pagesRequested numBytes.toNat + 3
  | .mapping left mapped => 2 * left + mapped.length + 2
  | .linking left _ => left.length + 1
  | .checking _ _ _ => 0
  | .freeing left _ => left
  | .writing fuel _ _ _ => fuel
  | .reading fuel _ _ _ => fuel

/-- How many steps may be left. -/
def rank : Inside → ℕ
  | .checking f left _ => left + f.accept.turns + 1
  | p => p.turns

theorem rank_accept (f : Checked) : f.accept.rank = f.accept.turns := by
  cases f <;> rfl

/-- Each step brings the call nearer to `unlock`. -/
theorem rank_lt {p p' : Inside} {s s' : Vm} (h : p.step s = some (.inl p', s')) :
    p'.rank < p.rank := by
  cases p with
  | tMalloc numBytes =>
    simp only [step] at h
    split at h
    · cases h
    simp only [Option.bind_eq_bind, Option.bind_eq_some_iff] at h
    obtain ⟨_, -, _, -, h⟩ := h
    split at h
    · cases h
    · cases h
      simp [rank, turns]
  | mapping left mapped =>
    cases left with
    | zero =>
      cases h
      simp [rank, turns]
    | succ left =>
      obtain ⟨x, -, h⟩ := Option.bind_eq_some_iff.mp h
      cases h
      simp only [rank, turns, List.length_append, List.length_singleton]
      omega
  | linking left firstPage =>
    rcases left with _ | ⟨⟨va, pa⟩, _ | ⟨⟨va', pa'⟩, left⟩⟩
    · cases h
    · cases h
    · obtain ⟨x, -, h⟩ := Option.bind_eq_some_iff.mp h
      cases h
      simp [rank, turns]
  | checking f left start =>
    cases left with
    | zero =>
      cases h
      rw [rank_accept, rank]
      omega
    | succ left =>
      obtain ⟨⟨next, s₁⟩, -, h⟩ := Option.bind_eq_some_iff.mp h
      cases next with
      | none => cases h
      | some newStart =>
        cases h
        simp only [rank]
        omega
  | freeing left start =>
    cases left with
    | zero => cases h
    | succ left =>
      simp only [step] at h
      split at h
      · cases h
      · obtain ⟨x, -, h⟩ := Option.bind_eq_some_iff.mp h
        cases h
        exact Nat.lt_succ_self left
  | writing fuel start val bytesRemaining =>
    cases fuel with
    | zero => cases h
    | succ fuel =>
      simp only [step] at h
      split at h
      · cases h
      obtain ⟨x, -, h⟩ := Option.bind_eq_some_iff.mp h
      split at h
      · cases h
        exact Nat.lt_succ_self fuel
      split at h <;> obtain ⟨_, -, h⟩ := Option.bind_eq_some_iff.mp h
      · cases h
      · cases h
        exact Nat.lt_succ_self fuel
  | reading fuel start bytesRemaining bytes =>
    cases fuel with
    | zero => cases h
    | succ fuel =>
      simp only [step] at h
      split at h
      · cases h
      obtain ⟨x, -, h⟩ := Option.bind_eq_some_iff.mp h
      split at h
      · cases h
        exact Nat.lt_succ_self fuel
      split at h <;> obtain ⟨_, -, h⟩ := Option.bind_eq_some_iff.mp h
      · cases h
      · cases h
        exact Nat.lt_succ_self fuel

end Inside

/-! ## The threads -/

/-- Where a thread is. -/
inductive Point
  /-- In the program's code. -/
  | program
  /-- At the `while` over `first_invocation` in `t_malloc`. -/
  | testAndSet (numBytes : UInt32)
  /-- At the test of `paging_scheme` in `t_malloc`. -/
  | testScheme (numBytes : UInt32)
  /-- In `set_physical_mem`, about to make `paging_scheme`. -/
  | makeScheme (numBytes : UInt32)
  /-- In `set_physical_mem`, about to make everything else. -/
  | makeMemory (numBytes : UInt32)
  /-- About to clear `first_invocation`. -/
  | clearFlag (numBytes : UInt32)
  /-- At the first test of `t_free`. -/
  | testSize (va : ℕ) (size : ℤ)
  | lock (c : Call)
  | inside (c : Call) (p : Inside)
  | unlock (c : Call) (l : Leave)
  /-- In `get_value_aux` after the range was turned down and the lock given back. -/
  | astray (c : Call) (p : Inside)
  deriving DecidableEq, Repr

/-- Where a call begins. -/
def Point.entry : Call → Point
  | .tMalloc numBytes => .testAndSet numBytes
  | .tFree va size => .testSize va size
  | .putValue va val size => .lock (.putValue va val size)
  | .getValue va size => .lock (.getValue va size)

inductive Action
  /-- The program calls a function of the library. -/
  | call (c : Call)
  /-- The next step in the library. -/
  | step
  deriving DecidableEq, Repr

inductive Stuck
  /-- The thread has to wait for `library_lock`. -/
  | waits
  | assertion
  /-- What the program does here is undefined. -/
  | undefined
  /-- The action cannot occur here. -/
  | notNow
  deriving DecidableEq, Repr

/-- The library and the threads that use it. -/
structure World where
  firstInvocation : Bool
  /-- `paging_scheme` is not `NULL`. -/
  pagingScheme : Bool
  /-- What `set_physical_mem` has made. -/
  vm : Option Vm
  point : ℕ → Point
  /-- Read by no function of the library: the calls that have been made under the lock, in the
  order in which it was given back. -/
  log : List (ℕ × Call × Ret)

namespace World

@[simps -fullyApplied]
def goto (w : World) (t : ℕ) (p : Point) : World :=
  { w with point := Function.update w.point t p }

/-- The program starts. -/
def start : World where
  firstInvocation := false
  pagingScheme := false
  vm := none
  point _ := .program
  log := []

/-- The next step of the thread `t`; `vmStart` is the block that `malloc(MEMSIZE)` returns. -/
def step (vmStart : VmStart) (w : World) (t : ℕ) : Except Stuck World :=
  match w.point t with
  | .program => .error .notNow
  | .testAndSet numBytes =>
    if w.firstInvocation then .ok w
    else .ok ({ w with firstInvocation := true }.goto t (.testScheme numBytes))
  | .testScheme numBytes =>
    .ok (w.goto t (if w.pagingScheme then .clearFlag numBytes else .makeScheme numBytes))
  | .makeScheme numBytes =>
    if w.pagingScheme then .error .assertion
    else .ok ({ w with pagingScheme := true }.goto t (.makeMemory numBytes))
  | .makeMemory numBytes =>
    match w.vm, setPhysicalMem vmStart with
    | none, some s => .ok ({ w with vm := some s }.goto t (.clearFlag numBytes))
    | _, _ => .error .assertion
  | .clearFlag numBytes =>
    .ok ({ w with firstInvocation := false }.goto t (.lock (.tMalloc numBytes)))
  | .testSize va size =>
    .ok (w.goto t (if size = 0 ∨ w.pagingScheme = false then .program else .lock (.tFree va size)))
  | .lock c =>
    match w.vm with
    | none => .error .undefined
    | some s =>
      match s.lock with
      | none => .error .waits
      | some s => .ok ({ w with vm := some s }.goto t (.inside c (.enter c)))
  | .inside c p =>
    match w.vm.bind p.step with
    | none => .error .undefined
    | some (.inl p, s) => .ok ({ w with vm := some s }.goto t (.inside c p))
    | some (.inr l, s) => .ok ({ w with vm := some s }.goto t (.unlock c l))
  | .unlock c (.ret r) =>
    match w.vm.bind Vm.unlock with
    | none => .error .undefined
    | some s => .ok ({ w with vm := some s, log := w.log ++ [(t, c, r)] }.goto t .program)
  | .unlock c (.astray va size) =>
    match w.vm.bind Vm.unlock with
    | none => .error .undefined
    | some s => .ok ({ w with vm := some s }.goto t (.astray c (.reading STACK_FRAMES va size [])))
  -- another thread may have the lock here, and the `unlock` to come takes it away from it
  | .astray c p =>
    match w.vm.bind p.step with
    | none => .error .undefined
    | some (.inl p, s) => .ok ({ w with vm := some s }.goto t (.astray c p))
    | some (.inr l, s) => .ok ({ w with vm := some s }.goto t (.unlock c l))

def exec (vmStart : VmStart) (w : World) : ℕ × Action → Except Stuck World
  | (t, .call c) => if w.point t = .program then .ok (w.goto t (.entry c)) else .error .notNow
  | (t, .step) => w.step vmStart t

end World

end UserLevelOs.Memory
