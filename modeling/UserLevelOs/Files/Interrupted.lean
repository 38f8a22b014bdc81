import UserLevelOs.Lib.Logged
import UserLevelOs.Files.Progress

/-!
# The calls, write by write

The calls that may change the disk once more, as computations that show the state after each
write to it.  Those are the states in which the process can die with the disk half way between
two requests.  Showing them changes nothing.

## Main definitions

* `Interrupted.dirAdd` and, over it, the other functions.
* `Call.interrupted`.

## Main statements

* `Call.run_interrupted` — a call shown write by write runs as the call.
-/

namespace UserLevelOs.Files

open UserLevelOs.Lib

namespace Interrupted

open Logged hiding pure bind

/-! ## The writes -/

/-- The bitmap is written when a number has been found. -/
def getAvailIno : Traced Fs ℤ := do
  let ret ← lift fun s => some (Files.getAvailIno s)
  if 0 ≤ ret then do
    mark
    return ret
  else return ret

def getAvailBlkno : Traced Fs ℤ := do
  let ret ← lift fun s => some (Files.getAvailBlkno s)
  if 0 ≤ ret then do
    mark
    return ret
  else return ret

def writei (ino : ℕ) (inode : Inode) : Traced Fs Unit := do
  update fun s => some (Files.writei s ino inode)
  mark

def bioWrite (blockNum : ℤ) (buf : Bytes) : Traced Fs Unit := do
  update fun s => some { s with disk := Files.bioWrite s.disk blockNum buf }
  mark

/-- Go on only where the C program has a defined behaviour. -/
def require (c : Prop) [Decidable c] : Traced Fs Unit :=
  lift fun s => if c then some ((), s) else none

/-! ## The calls -/

def dirAdd (dirInode : Inode) (fIno : ℕ) (fname : List UInt8) (nameLen : ℕ) : Traced Fs ℤ := do
  let duplicate ← reads fun s => some (hasDuplicate s dirInode fname)
  if Inode.valid.get dirInode 0 = 0 then return 0
  else if duplicate then return 0
  else do
    let spot ← reads fun s => some (findSpot s dirInode)
    match spot with
    | none => return -1
    | some (ptrIndex, none) => do
      let newBlk ← getAvailBlkno
      let buf ← reads fun _ => putDirent (fun _ => 0) 0 fIno nameLen fname
      bioWrite newBlk buf
      let dirInode := dirInode.setPtr ptrIndex newBlk
      writei (Inode.ino.get dirInode 0) dirInode
      return 1
    | some (ptrIndex, some j) => do
      let blkNum := dirInode.ptr ptrIndex
      let buf ← reads fun s => putDirent (bioRead s.disk blkNum) j fIno nameLen fname
      bioWrite blkNum buf
      return 1

def addToParent (path : List UInt8) : Traced Fs (ℤ ⊕ Inode × ℕ) := do
  let found ← reads fun s => some (getNodeByPath s (dirname path) s.rootDirIno)
  match found with
  | none => return .inl (-ENOENT)
  | some nodei => do
    let ino ← getAvailIno
    let newIno := (ino % 2 ^ 16).toNat
    let retDirAdd ← dirAdd nodei newIno (basename path) (nameLen (basename path))
    if retDirAdd = -1 then return .inl (-EFBIG)
    else if retDirAdd = 0 then return .inl (-EEXIST)
    else return .inr (nodei, newIno)

def rufsMkdir (path : List UInt8) (times : Times) : Traced Fs ℤ := do
  let added ← addToParent path
  match added with
  | .inl error => return error
  | .inr (nodei, newIno) => do
    let newDirent ← reads fun s => some (readi s newIno)
    let newDirent := Inode.valid.set newDirent 0 VALID
    let newDirent := Inode.ino.set newDirent 0 newIno
    let newDirent := Inode.type.set newDirent 0 DIRECTORY
    let newDirent := Inode.stMode.set newDirent 0 (S_IFDIR ||| 0o755)
    let newDirent := Inode.setTimes newDirent times
    let newDirent := Inode.clearPtrs newDirent
    writei newIno newDirent
    let _ ← dirAdd newDirent newIno dot (nameLen dot)
    let newDirent ← reads fun s => some (readi s newIno)
    let _ ← dirAdd newDirent (Inode.ino.get nodei 0) dotdot (nameLen dotdot)
    let nodei ← reads fun s => some (readi s (Inode.ino.get nodei 0))
    let nodei := Inode.link.set nodei 0 (Inode.link.get nodei 0 + 1)
    let nodei := Inode.stNlink.set nodei 0 (Inode.stNlink.get nodei 0 + 1)
    writei (Inode.ino.get nodei 0) nodei
    return 0

def rufsCreate (path : List UInt8) (times : Times) : Traced Fs ℤ := do
  let added ← addToParent path
  match added with
  | .inl error => return error
  | .inr (_, newIno) => do
    let newDirent ← reads fun s => some (readi s newIno)
    let newDirent := Inode.valid.set newDirent 0 VALID
    let newDirent := Inode.ino.set newDirent 0 newIno
    let newDirent := Inode.type.set newDirent 0 FILE
    let newDirent := Inode.size.set newDirent 0 0
    let newDirent := Inode.stMode.set newDirent 0 (S_IFREG ||| 0o666)
    let newDirent := Inode.clearPtrs newDirent
    let newDirent := Inode.setTimes newDirent times
    writei newIno newDirent
    return 0

/-- Nothing is written but the time of access. -/
def rufsRead (path : List UInt8) (size offset atime : ℕ) : Traced Fs (ℤ × List UInt8) := do
  let found ← reads fun s => some (getNodeByPath s path s.rootDirIno)
  match found with
  | none => return (-ENOENT, [])
  | some nodei =>
    if Inode.size.get nodei 0 ≤ offset then return (0, [])
    else do
      let blkIndex := toInt (offset / BLOCK_SIZE : ℕ)
      let maxFileReadable := toInt ((Inode.size.get nodei 0 : ℤ) - offset)
      let remaining :=
        if (maxFileReadable % 2 ^ 64).toNat < size then maxFileReadable else toInt size
      require (¬(blkIndex < 0 ∧ 0 < remaining))
      let result ← reads fun s => some (readLoop s.disk nodei (DIRECT_PTRS - blkIndex.toNat)
        blkIndex.toNat offset remaining.toNat)
      let bytes := result.1
      if result.2 then do
        let nodei := Inode.stAtime.set nodei 0 atime
        writei (Inode.ino.get nodei 0) nodei
        return (bytes.length, bytes)
      else return (bytes.length, bytes)

def ensureBlock (nodei : Inode) (blkIndex : ℕ) : Traced Fs Inode :=
  if nodei.ptr blkIndex = 0 then do
    let got ← getAvailBlkno
    return nodei.setPtr blkIndex got
  else return nodei

def writeLoop (buffer : List UInt8) : ℕ → ℕ → ℕ → ℕ → ℕ → Inode → Traced Fs (Inode × ℕ)
  | 0, _, _, _, bytesWritten, nodei => return (nodei, bytesWritten)
  | left + 1, blkIndex, offset, remaining, bytesWritten, nodei =>
    if remaining = 0 then return (nodei, bytesWritten)
    else do
      let bufOffset := offset % BLOCK_SIZE
      let writeSize := min remaining (BLOCK_SIZE - bufOffset)
      let nodei ← ensureBlock nodei blkIndex
      let buf ← reads fun s => some (bioRead s.disk (nodei.ptr blkIndex))
      let buf := buf.write bufOffset ((buffer.drop bytesWritten).take writeSize)
      bioWrite (nodei.ptr blkIndex) buf
      writeLoop buffer left (blkIndex + 1) 0 (remaining - writeSize) (bytesWritten + writeSize) nodei

def rufsWrite (path : List UInt8) (buffer : List UInt8) (size offset : ℕ) (times : Times) :
    Traced Fs ℤ := do
  let found ← reads fun s => some (getNodeByPath s path s.rootDirIno)
  match found with
  | none => return -ENOENT
  | some nodei => do
    let blkIndex := toInt (offset / BLOCK_SIZE : ℕ)
    let remaining := toInt size
    require (¬(blkIndex < 0 ∧ 0 < remaining))
    require (¬buffer.length < remaining)
    let result ← writeLoop buffer (DIRECT_PTRS - blkIndex.toNat) blkIndex.toNat offset
      remaining.toNat 0 nodei
    let nodei := result.1
    let bytesWritten := result.2
    let nodei := Inode.size.set nodei 0 (Inode.size.get nodei 0 + bytesWritten)
    let nodei := Inode.stSize.set nodei 0 (Inode.stSize.get nodei 0 + bytesWritten)
    let nodei := Inode.setTimes nodei times
    writei (Inode.ino.get nodei 0) nodei
    return (bytesWritten : ℤ)

/-! ## Showing changes nothing -/

@[simp] theorem run_getAvailIno (s : Fs) : getAvailIno.run s = some (Files.getAvailIno s) := by
  simp [getAvailIno]

@[simp] theorem run_getAvailBlkno (s : Fs) :
    getAvailBlkno.run s = some (Files.getAvailBlkno s) := by
  simp [getAvailBlkno]

@[simp] theorem run_writei (ino : ℕ) (inode : Inode) (s : Fs) :
    (writei ino inode).run s = some ((), Files.writei s ino inode) := by
  simp [writei]

@[simp] theorem run_bioWrite (blockNum : ℤ) (buf : Bytes) (s : Fs) : (bioWrite blockNum buf).run s =
    some ((), { s with disk := Files.bioWrite s.disk blockNum buf }) := by
  simp [bioWrite]

@[simp] theorem run_dirAdd (dirInode : Inode) (fIno : ℕ) (fname : List UInt8) (nameLen : ℕ)
    (s : Fs) : (dirAdd dirInode fIno fname nameLen).run s =
      Files.dirAdd s dirInode fIno fname nameLen := by
  rw [dirAdd, Files.dirAdd, run_bind, run_reads, Option.bind_some, Option.bind_some]
  by_cases hvalid : Inode.valid.get dirInode 0 = 0
  · rw [if_pos hvalid, if_pos hvalid, Logged.run_pure]
  · rw [if_neg hvalid, if_neg hvalid]
    cases hasDuplicate s dirInode fname with
    | true => rw [if_pos rfl, if_pos rfl, Logged.run_pure]
    | false =>
      obtain ⟨spot, hspot⟩ : ∃ x, findSpot s dirInode = x := ⟨_, rfl⟩
      rw [if_neg Bool.false_ne_true, if_neg Bool.false_ne_true, run_bind, run_reads, hspot,
        Option.bind_some, Option.bind_some]
      cases spot with
      | none => exact Logged.run_pure s (-1)
      | some spot =>
        obtain ⟨ptrIndex, slot⟩ := spot
        cases slot with
        | none => simp only [run_bind, run_getAvailBlkno, run_reads, run_bioWrite, run_writei,
            Logged.run_pure, Option.bind_some, Option.bind_assoc, Option.bind_eq_bind]
        | some j => simp only [run_bind, run_reads, run_bioWrite, Logged.run_pure,
            Option.bind_some, Option.bind_assoc, Option.bind_eq_bind]

@[simp] theorem run_addToParent (path : List UInt8) (s : Fs) :
    (addToParent path).run s = Files.addToParent s path := by
  obtain ⟨found, hfound⟩ : ∃ x, getNodeByPath s (dirname path) s.rootDirIno = x := ⟨_, rfl⟩
  rw [addToParent, Files.addToParent, run_bind, run_reads, hfound, Option.bind_some,
    Option.bind_some]
  cases found with
  | none => exact Logged.run_pure s _
  | some nodei =>
    simp only [run_bind, run_getAvailIno, run_dirAdd, Option.bind_some, Option.bind_eq_bind]
    refine congrArg _ (funext fun p => ?_)
    rw [run_ite, run_ite, Logged.run_pure, Logged.run_pure, Logged.run_pure]

@[simp] theorem run_rufsMkdir (path : List UInt8) (times : Times) (s : Fs) :
    (rufsMkdir path times).run s = Files.rufsMkdir s path times := by
  rw [rufsMkdir, Files.rufsMkdir, run_bind, run_addToParent]
  refine congrArg _ (funext fun p => ?_)
  obtain ⟨added, s⟩ := p
  cases added with
  | inl error => exact Logged.run_pure s error
  | inr entry =>
    simp only [run_bind, run_reads, run_writei, run_dirAdd, Logged.run_pure, Option.bind_some,
      Option.bind_eq_bind]

@[simp] theorem run_rufsCreate (path : List UInt8) (times : Times) (s : Fs) :
    (rufsCreate path times).run s = Files.rufsCreate s path times := by
  rw [rufsCreate, Files.rufsCreate, run_bind, run_addToParent]
  refine congrArg _ (funext fun p => ?_)
  obtain ⟨added, s⟩ := p
  cases added with
  | inl error => exact Logged.run_pure s error
  | inr entry =>
    simp only [run_bind, run_reads, run_writei, Logged.run_pure, Option.bind_some]

@[simp] theorem run_ensureBlock (nodei : Inode) (blkIndex : ℕ) (s : Fs) :
    (ensureBlock nodei blkIndex).run s = some (Files.ensureBlock nodei blkIndex s) := by
  rw [ensureBlock, Files.ensureBlock]
  split
  · simp only [run_bind, run_getAvailBlkno, Logged.run_pure, Option.bind_some]
  · rfl

theorem run_writeLoop {buffer : List UInt8} (left : ℕ) :
    ∀ {blkIndex offset remaining bytesWritten bytesWritten' : ℕ} {nodei nodei' : Inode} {s s' : Fs},
      Files.writeLoop buffer left blkIndex offset remaining bytesWritten nodei s =
        (nodei', bytesWritten', s') →
      (writeLoop buffer left blkIndex offset remaining bytesWritten nodei).run s =
        some ((nodei', bytesWritten'), s') := by
  induction left with
  | zero =>
    intro blkIndex offset remaining bytesWritten bytesWritten' nodei nodei' s s' h
    cases h
    rfl
  | succ left ih =>
    intro blkIndex offset remaining bytesWritten bytesWritten' nodei nodei' s s' h
    rw [Files.writeLoop] at h
    rw [writeLoop]
    by_cases hrem : remaining = 0
    · rw [if_pos hrem] at h
      cases h
      rw [if_pos hrem, Logged.run_pure]
    · rw [if_neg hrem] at h
      rw [if_neg hrem]
      simp only [run_bind, run_ensureBlock, run_reads, run_bioWrite, Option.bind_some]
      exact ih h

theorem run_require_bind {α : Type} (c : Prop) [Decidable c] (f : Unit → Traced Fs α) (s : Fs) :
    (require (¬c) >>= f).run s = if c then none else (f ()).run s := by
  rw [run_bind, require, run_lift]
  by_cases h : c
  · rw [if_neg (not_not_intro h), if_pos h, Option.bind_none]
  · rw [if_pos h, if_neg h, Option.bind_some]

@[simp] theorem run_rufsRead (path : List UInt8) (size offset atime : ℕ) (s : Fs) :
    (rufsRead path size offset atime).run s =
      (Files.rufsRead s path size offset atime).map fun p => ((p.1, p.2.1), p.2.2) := by
  obtain ⟨found, hfound⟩ : ∃ x, getNodeByPath s path s.rootDirIno = x := ⟨_, rfl⟩
  rw [rufsRead, Files.rufsRead, run_bind, run_reads, hfound, Option.bind_some, Option.bind_some]
  cases found with
  | none => exact Logged.run_pure s _
  | some nodei =>
    dsimp only
    obtain ⟨remaining, hrem⟩ : ∃ x,
        (if (toInt ((Inode.size.get nodei 0 : ℤ) - offset) % 2 ^ 64).toNat < size then
          toInt ((Inode.size.get nodei 0 : ℤ) - offset) else toInt size) = x := ⟨_, rfl⟩
    obtain ⟨⟨bytes, finished⟩, hloop⟩ : ∃ r, readLoop s.disk nodei
        (DIRECT_PTRS - (toInt (offset / BLOCK_SIZE : ℕ)).toNat) (toInt (offset / BLOCK_SIZE : ℕ)).toNat
        offset remaining.toNat = r := ⟨_, rfl⟩
    rw [run_ite, apply_ite (Option.map _), run_require_bind, apply_ite (Option.map _), hrem,
      run_bind, run_reads, hloop, Option.bind_some, Option.bind_some]
    refine if_congr Iff.rfl (Logged.run_pure s _) (if_congr Iff.rfl rfl ?_)
    cases finished with
    | true =>
      rw [if_pos rfl, if_pos rfl, run_bind, run_writei]
      rfl
    | false => rfl

@[simp] theorem run_rufsWrite (path buffer : List UInt8) (size offset : ℕ) (times : Times)
    (s : Fs) : (rufsWrite path buffer size offset times).run s =
      Files.rufsWrite s path buffer size offset times := by
  obtain ⟨found, hfound⟩ : ∃ x, getNodeByPath s path s.rootDirIno = x := ⟨_, rfl⟩
  rw [rufsWrite, Files.rufsWrite, run_bind, run_reads, hfound, Option.bind_some, Option.bind_some]
  cases found with
  | none => exact Logged.run_pure s _
  | some nodei =>
    dsimp only
    obtain ⟨⟨nodei', bytesWritten, s'⟩, hloop⟩ : ∃ r, Files.writeLoop buffer
        (DIRECT_PTRS - (toInt (offset / BLOCK_SIZE : ℕ)).toNat) (toInt (offset / BLOCK_SIZE : ℕ)).toNat
        offset (toInt size).toNat 0 nodei s = r := ⟨_, rfl⟩
    rw [run_require_bind, run_require_bind, run_bind, run_writeLoop _ hloop, hloop,
      Option.bind_some, run_bind, run_writei, Option.bind_some, Logged.run_pure]

/-! ## What is shown -/

section Seen

variable {s t : Fs}

@[simp] theorem mem_log_getAvailIno :
    t ∈ getAvailIno.log s ↔ 0 ≤ (Files.getAvailIno s).1 ∧ t = (Files.getAvailIno s).2 := by
  by_cases h : 0 ≤ (Files.getAvailIno s).1
  · simp [getAvailIno, h]
  · simp [getAvailIno, h]

@[simp] theorem mem_log_getAvailBlkno :
    t ∈ getAvailBlkno.log s ↔ 0 ≤ (Files.getAvailBlkno s).1 ∧ t = (Files.getAvailBlkno s).2 := by
  by_cases h : 0 ≤ (Files.getAvailBlkno s).1
  · simp [getAvailBlkno, h]
  · simp [getAvailBlkno, h]

@[simp] theorem mem_log_writei {ino : ℕ} {inode : Inode} :
    t ∈ (writei ino inode).log s ↔ t = Files.writei s ino inode := by
  simp [writei]

@[simp] theorem mem_log_bioWrite {blockNum : ℤ} {buf : Bytes} :
    t ∈ (bioWrite blockNum buf).log s ↔
      t = { s with disk := Files.bioWrite s.disk blockNum buf } := by
  simp [bioWrite]

/-- A new entry is in place with the last write; before it there is at most a block that nothing
leads to. -/
theorem mem_log_dirAdd {dirInode : Inode} {fIno len : ℕ} {fname : List UInt8}
    (h : t ∈ (dirAdd dirInode fIno fname len).log s) :
    (∃ k, findSpot s dirInode = some (k, none) ∧
      (t = (Files.getAvailBlkno s).2 ∨ ∃ buf, t = { (Files.getAvailBlkno s).2 with
        disk := Files.bioWrite (Files.getAvailBlkno s).2.disk (Files.getAvailBlkno s).1 buf })) ∨
      (∃ r, Files.dirAdd s dirInode fIno fname len = some (r, t)) := by
  rw [← run_dirAdd]
  obtain ⟨duplicate, -, h, hrun⟩ := log_reads_bind h
  rw [dirAdd, hrun]
  rw [log_ite] at h
  rw [run_ite]
  split at h
  · cases h
  · next hvalid =>
    rw [if_neg hvalid, run_ite]
    rw [log_ite] at h
    split at h
    · cases h
    · next hdup =>
      rw [if_neg hdup]
      obtain ⟨spot, hspot, h, hrun⟩ := log_reads_bind h
      rw [Option.some.injEq] at hspot
      rw [hrun]
      rcases spot with _ | ⟨k, _ | j⟩
      · cases h
      · rcases log_bind_cases h with h | ⟨newBlk, s₁, hget, h, hrun⟩
        · exact Or.inl ⟨k, hspot, Or.inl (mem_log_getAvailBlkno.mp h).2⟩
        rw [run_getAvailBlkno, Option.some.injEq] at hget
        rw [hget]
        rw [hrun]
        obtain ⟨buf, -, h, hrun⟩ := log_reads_bind h
        rw [hrun]
        rcases log_bind_cases h with h | ⟨_, s₂, hwrite, h, hrun⟩
        · exact Or.inl ⟨k, hspot, Or.inr ⟨buf, mem_log_bioWrite.mp h⟩⟩
        · rcases log_bind_cases h with h | ⟨_, s₃, -, h, -⟩
          · rw [mem_log_writei] at h
            rw [hrun, run_bind, run_writei, h]
            exact Or.inr ⟨1, rfl⟩
          · cases h
      · obtain ⟨buf, -, h, hrun⟩ := log_reads_bind h
        rw [hrun]
        rcases log_bind_cases h with h | ⟨_, s₁, -, h, -⟩
        · rw [mem_log_bioWrite] at h
          rw [run_bind, run_bioWrite, h]
          exact Or.inr ⟨1, rfl⟩
        · cases h

theorem mem_log_addToParent {path : List UInt8} (h : t ∈ (addToParent path).log s) :
    ∃ nodei, getNodeByPath s (dirname path) s.rootDirIno = some nodei ∧
      (t = (Files.getAvailIno s).2 ∨
        t ∈ (dirAdd nodei ((Files.getAvailIno s).1 % 2 ^ 16).toNat (basename path)
          (nameLen (basename path))).log (Files.getAvailIno s).2) := by
  obtain ⟨found, hfound, h, -⟩ := log_reads_bind h
  rw [Option.some.injEq] at hfound
  cases found with
  | none => cases h
  | some nodei =>
    refine ⟨nodei, hfound, ?_⟩
    rcases log_bind_cases h with h | ⟨ino, s₁, hget, h, -⟩
    · exact Or.inl (mem_log_getAvailIno.mp h).2
    rw [run_getAvailIno, Option.some.injEq] at hget
    rw [hget]
    rcases log_bind_cases h with h | ⟨ret, s₂, -, h, -⟩
    · exact Or.inr h
    · rw [log_ite, log_ite] at h
      split at h
      · cases h
      · split at h
        · cases h
        · cases h

theorem log_require_bind {α : Type} {c : Prop} [Decidable c] {f : Unit → Traced Fs α}
    (h : t ∈ (require (¬c) >>= f).log s) : ¬c ∧ t ∈ (f ()).log s := by
  rcases log_bind_cases h with h | ⟨a, s', hrun, h, -⟩
  · cases h
  · rw [require, run_lift] at hrun
    split at hrun
    · next hc =>
      cases hrun
      exact ⟨hc, h⟩
    · cases hrun

/-- The states `rufs_create` shows. -/
inductive CreateShows (s : Fs) (path : List UInt8) (times : Times) : Fs → Prop
  | adding {t : Fs} (h : t ∈ (addToParent path).log s) : CreateShows s path times t
  | made {nodei : Inode} {i : ℕ} {s₁ : Fs}
    (hadd : Files.addToParent s path = some (.inr (nodei, i), s₁)) :
    CreateShows s path times (Files.writei s₁ i (newFileInode (readi s₁ i) i times))

theorem createShows {path : List UInt8} {times : Times}
    (h : t ∈ (rufsCreate path times).log s) : CreateShows s path times t := by
  rcases log_bind_cases h with h | ⟨added, s₁, hadd, h, -⟩
  · exact .adding h
  rw [run_addToParent] at hadd
  rcases added with error | ⟨nodei, i⟩
  · cases h
  · obtain ⟨inode, hread, h, -⟩ := log_reads_bind h
    rw [Option.some.injEq] at hread
    rcases log_bind_cases h with h | ⟨_, s₂, -, h, -⟩
    · rw [mem_log_writei.mp h, ← hread]
      exact .made hadd
    · cases h

/-- The states `rufs_mkdir` shows. -/
inductive MkdirShows (s : Fs) (path : List UInt8) (times : Times) : Fs → Prop
  | adding {t : Fs} (h : t ∈ (addToParent path).log s) : MkdirShows s path times t
  | made {nodei : Inode} {i : ℕ} {s₁ : Fs}
    (hadd : Files.addToParent s path = some (.inr (nodei, i), s₁)) :
    MkdirShows s path times (Files.writei s₁ i (newDirInode (readi s₁ i) i times))
  | dot {nodei : Inode} {i : ℕ} {s₁ t : Fs}
    (hadd : Files.addToParent s path = some (.inr (nodei, i), s₁))
    (h : t ∈ (dirAdd (newDirInode (readi s₁ i) i times) i dot (nameLen dot)).log
      (Files.writei s₁ i (newDirInode (readi s₁ i) i times))) : MkdirShows s path times t
  | dotdot {nodei : Inode} {i : ℕ} {s₁ s₂ t : Fs} {r₂ : ℤ}
    (hadd : Files.addToParent s path = some (.inr (nodei, i), s₁))
    (hadd₂ : Files.dirAdd (Files.writei s₁ i (newDirInode (readi s₁ i) i times))
      (newDirInode (readi s₁ i) i times) i dot (nameLen dot) = some (r₂, s₂))
    (h : t ∈ (dirAdd (readi s₂ i) (Inode.ino.get nodei 0) dotdot (nameLen dotdot)).log s₂) :
    MkdirShows s path times t
  | counted {nodei : Inode} {i : ℕ} {s₁ s₂ s₃ : Fs} {r₂ r₃ : ℤ}
    (hadd : Files.addToParent s path = some (.inr (nodei, i), s₁))
    (hadd₂ : Files.dirAdd (Files.writei s₁ i (newDirInode (readi s₁ i) i times))
      (newDirInode (readi s₁ i) i times) i dot (nameLen dot) = some (r₂, s₂))
    (hadd₃ : Files.dirAdd s₂ (readi s₂ i) (Inode.ino.get nodei 0) dotdot (nameLen dotdot) =
      some (r₃, s₃)) :
    MkdirShows s path times (Files.writei s₃
      (Inode.ino.get (countedInode (readi s₃ (Inode.ino.get nodei 0))) 0)
      (countedInode (readi s₃ (Inode.ino.get nodei 0))))

theorem mkdirShows {path : List UInt8} {times : Times}
    (h : t ∈ (rufsMkdir path times).log s) : MkdirShows s path times t := by
  rcases log_bind_cases h with h | ⟨added, s₁, hadd, h, -⟩
  · exact .adding h
  rw [run_addToParent] at hadd
  rcases added with error | ⟨nodei, i⟩
  · cases h
  obtain ⟨inode, hread, h, -⟩ := log_reads_bind h
  rw [Option.some.injEq] at hread
  subst hread
  rcases log_bind_cases h with h | ⟨_, t₁, hwrite, h, -⟩
  · rw [mem_log_writei.mp h]
    exact .made hadd
  rw [run_writei, Option.some.injEq, Prod.mk.injEq] at hwrite
  obtain ⟨-, rfl⟩ := hwrite
  rcases log_bind_cases h with h | ⟨r₂, s₂, hadd₂, h, -⟩
  · exact .dot hadd h
  rw [run_dirAdd] at hadd₂
  obtain ⟨inode, hread, h, -⟩ := log_reads_bind h
  rw [Option.some.injEq] at hread
  subst hread
  rcases log_bind_cases h with h | ⟨r₃, s₃, hadd₃, h, -⟩
  · exact .dotdot hadd hadd₂ h
  rw [run_dirAdd] at hadd₃
  obtain ⟨inode, hread, h, -⟩ := log_reads_bind h
  rw [Option.some.injEq] at hread
  subst hread
  rcases log_bind_cases h with h | ⟨_, s₄, -, h, -⟩
  · rw [mem_log_writei.mp h]
    exact .counted hadd hadd₂ hadd₃
  · cases h

/-- A read writes the time of access. -/
theorem mem_log_rufsRead {path : List UInt8} {size offset atime : ℕ}
    (h : t ∈ (rufsRead path size offset atime).log s) :
    ∃ nodei, getNodeByPath s path s.rootDirIno = some nodei ∧
      t = Files.writei s (Inode.ino.get (Inode.stAtime.set nodei 0 atime) 0)
        (Inode.stAtime.set nodei 0 atime) := by
  obtain ⟨found, hfound, h, -⟩ := log_reads_bind h
  rw [Option.some.injEq] at hfound
  cases found with
  | none => cases h
  | some nodei =>
    refine ⟨nodei, hfound, ?_⟩
    dsimp only at h
    rw [log_ite] at h
    split at h
    · cases h
    obtain ⟨-, h⟩ := log_require_bind h
    obtain ⟨result, -, h, -⟩ := log_reads_bind h
    rw [log_ite] at h
    split at h
    · rcases log_bind_cases h with h | ⟨_, s₁, -, h, -⟩
      · exact mem_log_writei.mp h
      · cases h
    · cases h

/-- A write is in place with the last state shown. -/
theorem mem_log_rufsWrite {path buffer : List UInt8} {size offset : ℕ} {times : Times}
    (h : t ∈ (rufsWrite path buffer size offset times).log s) :
    ∃ nodei, getNodeByPath s path s.rootDirIno = some nodei ∧ ¬buffer.length < toInt size ∧
      (t ∈ (writeLoop buffer (DIRECT_PTRS - (toInt (offset / BLOCK_SIZE : ℕ)).toNat)
          (toInt (offset / BLOCK_SIZE : ℕ)).toNat offset (toInt size).toNat 0 nodei).log s ∨
        ∃ r s₁, (writeLoop buffer (DIRECT_PTRS - (toInt (offset / BLOCK_SIZE : ℕ)).toNat)
            (toInt (offset / BLOCK_SIZE : ℕ)).toNat offset (toInt size).toNat 0 nodei).run s =
              some (r, s₁) ∧
          t = Files.writei s₁ (Inode.ino.get (writtenInode r.1 r.2 times) 0)
            (writtenInode r.1 r.2 times) ∧
          ∃ ret, Files.rufsWrite s path buffer size offset times = some (ret, t)) := by
  rw [← run_rufsWrite]
  obtain ⟨found, hfound, h, hrun⟩ := log_reads_bind h
  rw [Option.some.injEq] at hfound
  rw [rufsWrite, hrun]
  cases found with
  | none => cases h
  | some nodei =>
    refine ⟨nodei, hfound, ?_⟩
    dsimp only at h ⊢
    obtain ⟨hneg, h⟩ := log_require_bind h
    obtain ⟨hlen, h⟩ := log_require_bind h
    refine ⟨hlen, ?_⟩
    rcases log_bind_cases h with h | ⟨result, s₁, hloop, h, hrun⟩
    · exact Or.inl h
    rw [run_require_bind, if_neg hneg, run_require_bind, if_neg hlen, hrun]
    rcases log_bind_cases h with h | ⟨_, s₂, -, h, -⟩
    · rw [mem_log_writei] at h
      refine Or.inr ⟨result, s₁, hloop, h, (result.2 : ℤ), ?_⟩
      rw [run_bind, run_writei, h]
      rfl
    · cases h

end Seen

end Interrupted

/-- The call, showing the state after each write to the disk. -/
def Call.interrupted : Call → Traced Fs Reply
  | .mkdir path times => do
    let ret ← Interrupted.rufsMkdir path times
    return ⟨ret, []⟩
  | .create path times => do
    let ret ← Interrupted.rufsCreate path times
    return ⟨ret, []⟩
  | .read path size offset atime => do
    let result ← Interrupted.rufsRead path size offset atime
    return ⟨result.1, result.2⟩
  | .write path buffer size offset times => do
    let ret ← Interrupted.rufsWrite path buffer size offset times
    return ⟨ret, []⟩

/-- What a call shown write by write does is what the call does. -/
@[simp] theorem Call.run_interrupted (c : Call) (s : Fs) : c.interrupted.run s = c.exec s := by
  cases c <;> simp [Call.interrupted, Call.exec, Option.map_eq_bind, Option.bind_assoc]

end UserLevelOs.Files
