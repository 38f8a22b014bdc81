import UserLevelOs.Lib.Bitmap
import UserLevelOs.Lib.Struct

/-!
# The disk, its layout, and the allocators

The block device of `block.c`, the structs `rufs.c` keeps on it, and the functions of
`rufs.c` that take a free inode or block or move one inode between disk and memory.
Structs are bytes with fields at the offsets of a 64-bit build.

## Main definitions

* `Disk`, `bioRead`, `bioWrite`.
* `Inode`, `Dirent`, `Superblock` — the fields of the structs.
* `Fs` — the globals with the disk.
* `getAvailIno`, `getAvailBlkno`, `readi`, `writei`.
-/

namespace UserLevelOs.Files

open UserLevelOs.Lib

abbrev BLOCK_SIZE : ℕ := 4096

abbrev MAX_INUM : ℕ := 1024

abbrev MAX_DNUM : ℕ := 16384

abbrev MAGIC_NUM : ℕ := 0x5C3A

abbrev VALID : ℕ := 1

abbrev INVALID : ℕ := 0

abbrev DIRECTORY : ℕ := 1

abbrev FILE : ℕ := 2

/-- `sizeof(struct inode)`. -/
abbrev INODE_BYTES : ℕ := 256

/-- `sizeof(struct dirent)`. -/
abbrev DIRENT_BYTES : ℕ := 214

abbrev NUM_INODE_BLKS : ℕ := MAX_INUM / (BLOCK_SIZE / INODE_BYTES)

abbrev INODE_BITMAP_BYTES : ℕ := MAX_INUM / 8

abbrev DATA_BLOCK_BITMAP_BYTES : ℕ := MAX_DNUM / 8

abbrev DIRENTS_IN_BLOCK : ℕ := BLOCK_SIZE / DIRENT_BYTES

/-- Direct pointers of an inode. -/
abbrev DIRECT_PTRS : ℕ := 16

/-- Conversion to `int`. -/
def toInt (x : ℤ) : ℤ := x.bmod (2 ^ 32)

/-! ## The block device -/

/-- The blocks of the disk file.  What lies behind the end of the file reads as zero, like
the holes in it. -/
abbrev Disk := ℕ → Bytes

/-- Does `block_num * BLOCK_SIZE`, an `int`, name a position of the file? -/
def InFile (blockNum : ℤ) : Prop := 0 ≤ blockNum ∧ blockNum.toNat < 2 ^ 19

instance (blockNum : ℤ) : Decidable (InFile blockNum) := by unfold InFile; infer_instance

/-- A read that fails leaves the buffer zero. -/
def bioRead (disk : Disk) (blockNum : ℤ) : Bytes :=
  if InFile blockNum then disk blockNum.toNat else fun _ => 0

def bioWrite (disk : Disk) (blockNum : ℤ) (buf : Bytes) : Disk :=
  if InFile blockNum then Function.update disk blockNum.toNat buf else disk

/-! ## Structs -/

/-- `struct inode`. -/
abbrev Inode := Bytes

namespace Inode

def ino : Field := ⟨0, 2⟩

def valid : Field := ⟨2, 2⟩

def size : Field := ⟨4, 4⟩

def type : Field := ⟨8, 4⟩

def link : Field := ⟨12, 4⟩

def directPtr (i : ℕ) : Field := ⟨16 + 4 * i, 4⟩

/-- `vstat` lies at offset 112, behind eight unused indirect pointers. -/
def vstat : ℕ := 112

def stNlink : Field := ⟨vstat + 16, 8⟩

def stMode : Field := ⟨vstat + 24, 4⟩

def stSize : Field := ⟨vstat + 48, 8⟩

def stAtime : Field := ⟨vstat + 72, 8⟩

def stMtime : Field := ⟨vstat + 88, 8⟩

/-- A direct pointer is an `int`. -/
def ptr (inode : Inode) (i : ℕ) : ℤ := toInt ((directPtr i).get inode 0)

def setPtr (inode : Inode) (i : ℕ) (block : ℤ) : Inode :=
  (directPtr i).set inode 0 (block % 2 ^ 32).toNat

/-- The loop that stores `INVALID` in every direct pointer. -/
def clearPtrs (inode : Inode) : Inode :=
  (List.range DIRECT_PTRS).foldl (fun inode i => inode.setPtr i 0) inode

end Inode

namespace Dirent

def ino : Field := ⟨0, 2⟩

def valid : Field := ⟨2, 2⟩

/-- The name field starts at offset 4 and has 208 bytes. -/
def name : ℕ := 4

def len : Field := ⟨212, 2⟩

end Dirent

namespace Superblock

def magicNum : Field := ⟨0, 4⟩

def maxInum : Field := ⟨4, 2⟩

def maxDnum : Field := ⟨6, 2⟩

def iBitmapBlk : Field := ⟨8, 4⟩

def dBitmapBlk : Field := ⟨12, 4⟩

def iStartBlk : Field := ⟨16, 4⟩

def dStartBlk : Field := ⟨20, 4⟩

/-- `sizeof(struct superblock)`. -/
def bytes : ℕ := 24

end Superblock

/-! ## The state -/

/-- The globals of `rufs.c`, with the disk. -/
structure Fs where
  disk : Disk
  superblock : Bytes
  inodeBitmap : Bytes
  dataBlockBitmap : Bytes
  /-- `ROOT_DIR_INO`. -/
  rootDirIno : ℕ
  /-- What the two allocators have returned, latest first; no function reads it. -/
  allocs : List ℤ

namespace Fs

def iBitmapBlk (s : Fs) : ℕ := Superblock.iBitmapBlk.get s.superblock 0

def dBitmapBlk (s : Fs) : ℕ := Superblock.dBitmapBlk.get s.superblock 0

def iStartBlk (s : Fs) : ℕ := Superblock.iStartBlk.get s.superblock 0

end Fs

/-! ## Allocation -/

/-- The first clear bit of a bitmap, and the bitmap with it set. -/
def takeFree (bitmap : Bytes) (n : ℕ) : ℤ × Bytes :=
  match scan (Bitmap.get .lsbFirst bitmap) 0 n with
  | some i => (i, Bitmap.set .lsbFirst bitmap i)
  | none => (-1, bitmap)

/-- The bitmap blocks lie inside the file, so the reads and writes that would exit on
failure succeed. -/
def getAvailIno (s : Fs) : ℤ × Fs :=
  let buf := bioRead s.disk s.iBitmapBlk
  let taken := takeFree (s.inodeBitmap.copy 0 buf 0 INODE_BITMAP_BYTES) MAX_INUM
  let ret := taken.1
  let inodeBitmap := taken.2
  let disk :=
    if 0 ≤ ret then bioWrite s.disk s.iBitmapBlk (buf.copy 0 inodeBitmap 0 INODE_BITMAP_BYTES)
    else s.disk
  (ret, { s with disk, inodeBitmap, allocs := ret :: s.allocs })

def getAvailBlkno (s : Fs) : ℤ × Fs :=
  let buf := bioRead s.disk s.dBitmapBlk
  let taken := takeFree (s.dataBlockBitmap.copy 0 buf 0 DATA_BLOCK_BITMAP_BYTES) MAX_DNUM
  let ret := taken.1
  let dataBlockBitmap := taken.2
  let disk :=
    if 0 ≤ ret then
      bioWrite s.disk s.dBitmapBlk (buf.copy 0 dataBlockBitmap 0 DATA_BLOCK_BITMAP_BYTES)
    else s.disk
  (ret, { s with disk, dataBlockBitmap, allocs := ret :: s.allocs })

/-! ## Inodes -/

/-- The block of the inode table that holds inode `ino`. -/
def inodeBlk (s : Fs) (ino : ℕ) : ℕ := ino * INODE_BYTES / BLOCK_SIZE + s.iStartBlk

/-- Where inode `ino` lies in its block. -/
def inodeOffset (ino : ℕ) : ℕ := INODE_BYTES * (ino % (BLOCK_SIZE / INODE_BYTES))

def readi (s : Fs) (ino : ℕ) : Inode :=
  let buf := bioRead s.disk (inodeBlk s ino)
  Bytes.copy (fun _ => 0) 0 buf (inodeOffset ino) INODE_BYTES

def writei (s : Fs) (ino : ℕ) (inode : Inode) : Fs :=
  let blk := inodeBlk s ino
  let buf := bioRead s.disk blk
  { s with disk := bioWrite s.disk blk (buf.copy (inodeOffset ino) inode 0 INODE_BYTES) }

end UserLevelOs.Files
