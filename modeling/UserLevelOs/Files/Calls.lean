import UserLevelOs.Files.Directory

/-!
# The calls of the file system

`rufs_mkfs` and the operations the kernel reaches through FUSE.  Each reading of the clock
is an argument.  A call is `none` where the C program has no defined behaviour to follow: a
name that overruns the buffer of a block, a negative index into the direct pointers, a
buffer shorter than the size given with it.

## Main definitions

* `rufsMkfs`.
* `rufsGetattr`, `rufsReaddir`, `rufsMkdir`, `rufsCreate`, `rufsRead`, `rufsWrite`.
* `Call`, `Call.exec` — one request.
-/

namespace UserLevelOs.Files

open UserLevelOs.Lib

abbrev ENOENT : ℤ := 2

abbrev ENOMEM : ℤ := 12

abbrev EEXIST : ℤ := 17

abbrev EFBIG : ℤ := 27

abbrev S_IFDIR : ℕ := 0o040000

abbrev S_IFREG : ℕ := 0o100000

/-- The names `"."` and `".."`. -/
def dot : List UInt8 := [46]

def dotdot : List UInt8 := [46, 46]

/-- `strlen(name) + 1`. -/
def nameLen (name : List UInt8) : ℕ := name.length + 1

/-- Two readings of the clock, as `time` stores them. -/
structure Times where
  atime : ℕ
  mtime : ℕ
  deriving DecidableEq, Repr

namespace Inode

def setTimes (inode : Inode) (times : Times) : Inode :=
  stMtime.set (stAtime.set inode 0 times.atime) 0 times.mtime

end Inode

/-! ## Making the file system -/

/-- The superblock `rufs_mkfs` sets up in memory. -/
def initSuperblock : Bytes :=
  let sb : Bytes := fun _ => 0
  let sb := Superblock.magicNum.set sb 0 MAGIC_NUM
  let sb := Superblock.maxInum.set sb 0 MAX_INUM
  let sb := Superblock.maxDnum.set sb 0 MAX_DNUM
  let sb := Superblock.iBitmapBlk.set sb 0 1
  let sb := Superblock.dBitmapBlk.set sb 0 2
  let sb := Superblock.iStartBlk.set sb 0 3
  Superblock.dStartBlk.set sb 0 (3 + NUM_INODE_BLKS)

/-- The loop that writes an empty inode for every number from `i` on. -/
def initInodes (s : Fs) (i : ℕ) : ℕ → Fs
  | 0 => s
  | n + 1 => initInodes (writei s i (Inode.ino.set (fun _ => 0) 0 i)) (i + 1) n

/-- `rufs_mkfs` on a zero-filled disk file; `junk` is what `malloc` returned for the block
the superblock is written from. -/
def rufsMkfs (junk : Bytes) (times : Times) : Option Fs := do
  let superblock := initSuperblock
  let s : Fs :=
    { disk := bioWrite (fun _ _ => 0) 0 (junk.copy 0 superblock 0 Superblock.bytes)
      superblock
      inodeBitmap := fun _ => 0
      dataBlockBitmap := fun _ => 0
      rootDirIno := 0
      allocs := [] }
  let s := initInodes s 1 (MAX_INUM - 1)
  let dataBlockBitmap := (List.range (Superblock.dStartBlk.get superblock 0)).foldl
    (Bitmap.set .lsbFirst) s.dataBlockBitmap
  let s := { s with dataBlockBitmap }
  let disk := bioWrite s.disk s.iBitmapBlk
    (Bytes.copy (fun _ => 0) 0 s.inodeBitmap 0 INODE_BITMAP_BYTES)
  let disk := bioWrite disk s.dBitmapBlk
    (Bytes.copy (fun _ => 0) 0 s.dataBlockBitmap 0 DATA_BLOCK_BITMAP_BYTES)
  let s := { s with disk }
  let got := getAvailIno s
  let rootDirIno := (got.1 % 2 ^ 16).toNat
  let s := got.2
  let root := readi s rootDirIno
  let root := Inode.ino.set root 0 rootDirIno
  let root := Inode.valid.set root 0 VALID
  let root := Inode.type.set root 0 DIRECTORY
  let root := Inode.link.set root 0 2
  let root := Inode.clearPtrs root
  let root := Inode.stMode.set root 0 (S_IFDIR ||| 0o755)
  let root := Inode.setTimes root times
  let s := { writei s rootDirIno root with rootDirIno }
  let (_, s) ← dirAdd s root s.rootDirIno dot (nameLen dot)
  let root := readi s s.rootDirIno
  let (_, s) ← dirAdd s root s.rootDirIno dotdot (nameLen dotdot)
  some s

/-! ## Looking things up -/

/-- `struct stat` with `st_size` taken from the inode, or a negative error. -/
def rufsGetattr (s : Fs) (path : List UInt8) : Except ℤ Inode :=
  match getNodeByPath s path s.rootDirIno with
  | none => .error (-ENOENT)
  | some nodei => .ok (Inode.stSize.set nodei 0 (Inode.size.get nodei 0))

/-- The names of the valid entries of one block, each with room for the rest of the
block. -/
def blockNames (buf : Bytes) : List (List UInt8) :=
  ((List.range DIRENTS_IN_BLOCK).filter fun j =>
    decide (Dirent.valid.get buf (slotAddr j) ≠ 0)).map fun j =>
      buf.strAt (slotAddr j + Dirent.name) (BLOCK_SIZE - (slotAddr j + Dirent.name))

/-- Hand names to `filler` until it refuses one; `done` are the names it has taken. -/
def fillNames (filler : List (List UInt8) → List UInt8 → Bool) :
    List (List UInt8) → List (List UInt8) → ℤ × List (List UInt8)
  | [], done => (0, done)
  | name :: names, done =>
    if filler done name then fillNames filler names (done ++ [name]) else (-ENOMEM, done)

/-- The value returned and the names handed over. -/
def rufsReaddir (s : Fs) (filler : List (List UInt8) → List UInt8 → Bool) (path : List UInt8) :
    ℤ × List (List UInt8) :=
  match getNodeByPath s path s.rootDirIno with
  | none => (-ENOENT, [])
  | some nodei =>
    let names := (List.range DIRECT_PTRS).flatMap fun i =>
      if nodei.ptr i ≠ 0 then blockNames (bioRead s.disk (nodei.ptr i)) else []
    fillNames filler names []

/-! ## Creating -/

/-- What `rufs_mkdir` and `rufs_create` share: find the parent, take an inode number and
enter the name.  The result is an error, or the parent and the new inode number. -/
def addToParent (s : Fs) (path : List UInt8) : Option ((ℤ ⊕ Inode × ℕ) × Fs) :=
  match getNodeByPath s (dirname path) s.rootDirIno with
  | none => some (.inl (-ENOENT), s)
  | some nodei => do
    let got := getAvailIno s
    let newIno := (got.1 % 2 ^ 16).toNat
    let s := got.2
    let (retDirAdd, s) ← dirAdd s nodei newIno (basename path) (nameLen (basename path))
    if retDirAdd = -1 then some (.inl (-EFBIG), s)
    else if retDirAdd = 0 then some (.inl (-EEXIST), s)
    else some (.inr (nodei, newIno), s)

def rufsMkdir (s : Fs) (path : List UInt8) (times : Times) : Option (ℤ × Fs) := do
  let (added, s) ← addToParent s path
  match added with
  | .inl error => some (error, s)
  | .inr (nodei, newIno) =>
    let newDirent := readi s newIno
    let newDirent := Inode.valid.set newDirent 0 VALID
    let newDirent := Inode.ino.set newDirent 0 newIno
    let newDirent := Inode.type.set newDirent 0 DIRECTORY
    let newDirent := Inode.stMode.set newDirent 0 (S_IFDIR ||| 0o755)
    let newDirent := Inode.setTimes newDirent times
    let newDirent := Inode.clearPtrs newDirent
    let s := writei s newIno newDirent
    let (_, s) ← dirAdd s newDirent newIno dot (nameLen dot)
    let newDirent := readi s newIno
    let (_, s) ← dirAdd s newDirent (Inode.ino.get nodei 0) dotdot (nameLen dotdot)
    let nodei := readi s (Inode.ino.get nodei 0)
    let nodei := Inode.link.set nodei 0 (Inode.link.get nodei 0 + 1)
    let nodei := Inode.stNlink.set nodei 0 (Inode.stNlink.get nodei 0 + 1)
    some (0, writei s (Inode.ino.get nodei 0) nodei)

def rufsCreate (s : Fs) (path : List UInt8) (times : Times) : Option (ℤ × Fs) := do
  let (added, s) ← addToParent s path
  match added with
  | .inl error => some (error, s)
  | .inr (_, newIno) =>
    let newDirent := readi s newIno
    let newDirent := Inode.valid.set newDirent 0 VALID
    let newDirent := Inode.ino.set newDirent 0 newIno
    let newDirent := Inode.type.set newDirent 0 FILE
    let newDirent := Inode.size.set newDirent 0 0
    let newDirent := Inode.stMode.set newDirent 0 (S_IFREG ||| 0o666)
    let newDirent := Inode.clearPtrs newDirent
    let newDirent := Inode.setTimes newDirent times
    some (0, writei s newIno newDirent)

/-! ## Reading -/

/-- The loop of `rufs_read` from block `blkIndex` on, which has `left` direct pointers to
go: the bytes read, and whether it ended without meeting a missing block. -/
def readLoop (disk : Disk) (nodei : Inode) : ℕ → ℕ → ℕ → ℕ → List UInt8 × Bool
  | 0, _, _, _ => ([], true)
  | left + 1, blkIndex, offset, remaining =>
    if remaining = 0 then ([], true)
    else
      let bufOffset := offset % BLOCK_SIZE
      let readSize := min remaining (BLOCK_SIZE - bufOffset)
      if nodei.ptr blkIndex = 0 then ([], false)
      else
        let buf := bioRead disk (nodei.ptr blkIndex)
        let rest := readLoop disk nodei left (blkIndex + 1) 0 (remaining - readSize)
        (buf.read bufOffset readSize ++ rest.1, rest.2)

/-- The value returned, the bytes copied to `buffer`, and the state. -/
def rufsRead (s : Fs) (path : List UInt8) (size offset atime : ℕ) :
    Option (ℤ × List UInt8 × Fs) :=
  match getNodeByPath s path s.rootDirIno with
  | none => some (-ENOENT, [], s)
  | some nodei =>
    if Inode.size.get nodei 0 ≤ offset then some (0, [], s)
    else
      let blkIndex := toInt (offset / BLOCK_SIZE : ℕ)
      let maxFileReadable := toInt ((Inode.size.get nodei 0 : ℤ) - offset)
      let remaining :=
        if (maxFileReadable % 2 ^ 64).toNat < size then maxFileReadable else toInt size
      if blkIndex < 0 ∧ 0 < remaining then none
      else
        let result := readLoop s.disk nodei (DIRECT_PTRS - blkIndex.toNat) blkIndex.toNat offset
          remaining.toNat
        let bytes := result.1
        -- a missing block returns before the time of access is written back
        if result.2 then
          let nodei := Inode.stAtime.set nodei 0 atime
          some (bytes.length, bytes, writei s (Inode.ino.get nodei 0) nodei)
        else some (bytes.length, bytes, s)

/-! ## Writing -/

/-- A missing block is allocated before it is written. -/
def ensureBlock (nodei : Inode) (blkIndex : ℕ) (s : Fs) : Inode × Fs :=
  if nodei.ptr blkIndex = 0 then
    let got := getAvailBlkno s
    (nodei.setPtr blkIndex got.1, got.2)
  else (nodei, s)

/-- The loop of `rufs_write` from block `blkIndex` on, which has `left` direct pointers to
go; `bytesWritten` bytes of `buffer` are stored already. -/
def writeLoop (buffer : List UInt8) : ℕ → ℕ → ℕ → ℕ → ℕ → Inode → Fs → Inode × ℕ × Fs
  | 0, _, _, _, bytesWritten, nodei, s => (nodei, bytesWritten, s)
  | left + 1, blkIndex, offset, remaining, bytesWritten, nodei, s =>
    if remaining = 0 then (nodei, bytesWritten, s)
    else
      let bufOffset := offset % BLOCK_SIZE
      let writeSize := min remaining (BLOCK_SIZE - bufOffset)
      let got := ensureBlock nodei blkIndex s
      let nodei := got.1
      let s := got.2
      let buf := bioRead s.disk (nodei.ptr blkIndex)
      let buf := buf.write bufOffset ((buffer.drop bytesWritten).take writeSize)
      let s := { s with disk := bioWrite s.disk (nodei.ptr blkIndex) buf }
      writeLoop buffer left (blkIndex + 1) 0 (remaining - writeSize) (bytesWritten + writeSize)
        nodei s

def rufsWrite (s : Fs) (path : List UInt8) (buffer : List UInt8) (size offset : ℕ)
    (times : Times) : Option (ℤ × Fs) :=
  match getNodeByPath s path s.rootDirIno with
  | none => some (-ENOENT, s)
  | some nodei =>
    let blkIndex := toInt (offset / BLOCK_SIZE : ℕ)
    let remaining := toInt size
    if blkIndex < 0 ∧ 0 < remaining then none
    else if buffer.length < remaining then none
    else
      let result := writeLoop buffer (DIRECT_PTRS - blkIndex.toNat) blkIndex.toNat offset
        remaining.toNat 0 nodei s
      let nodei := result.1
      let bytesWritten := result.2.1
      let s := result.2.2
      let nodei := Inode.size.set nodei 0 (Inode.size.get nodei 0 + bytesWritten)
      let nodei := Inode.stSize.set nodei 0 (Inode.stSize.get nodei 0 + bytesWritten)
      let nodei := Inode.setTimes nodei times
      some (bytesWritten, writei s (Inode.ino.get nodei 0) nodei)

/-! ## One request -/

/-- A request that may change the disk.  A path is a C string: its bytes hold no `NUL`. -/
inductive Call where
  | mkdir (path : List UInt8) (times : Times)
  | create (path : List UInt8) (times : Times)
  | read (path : List UInt8) (size offset atime : ℕ)
  | write (path : List UInt8) (buffer : List UInt8) (size offset : ℕ) (times : Times)
  deriving DecidableEq, Repr

/-- The value returned, and the bytes a read copied. -/
structure Reply where
  ret : ℤ
  bytes : List UInt8
  deriving DecidableEq, Repr

def Call.exec (s : Fs) : Call → Option (Reply × Fs)
  | .mkdir path times => (rufsMkdir s path times).map fun (ret, s) => (⟨ret, []⟩, s)
  | .create path times => (rufsCreate s path times).map fun (ret, s) => (⟨ret, []⟩, s)
  | .read path size offset atime =>
    (rufsRead s path size offset atime).map fun (ret, bytes, s) => (⟨ret, bytes⟩, s)
  | .write path buffer size offset times =>
    (rufsWrite s path buffer size offset times).map fun (ret, s) => (⟨ret, []⟩, s)

end UserLevelOs.Files
