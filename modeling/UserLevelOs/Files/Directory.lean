import UserLevelOs.Files.Disk
import Mathlib.Data.List.DropRight

/-!
# Directories and paths

`dir_find`, `dir_add` and `get_node_by_path`, with the functions of the C library they and
the calls above them use on paths.  A path is its bytes without the `NUL`.  The value of
`dirname` is ignored by its callers, who use the buffer it has cut short instead.

## Main definitions

* `dirFind`, `dirAdd`.
* `strtokAll`, `dirname`, `basename`.
* `walk`, `getNodeByPath`.
-/

namespace UserLevelOs.Files

open UserLevelOs.Lib

/-! ## Entries -/

/-- Address of slot `j` in a block of entries. -/
def slotAddr (j : ℕ) : ℕ := DIRENT_BYTES * j

/-- Is slot `j` a valid entry called `fname`? -/
def slotMatches (buf : Bytes) (fname : List UInt8) (j : ℕ) : Bool :=
  decide (Dirent.valid.get buf (slotAddr j) ≠ 0) && buf.strEq (slotAddr j + Dirent.name) fname

/-- The inode number of the entry found, or `none` for the return value 0. -/
def dirFind (s : Fs) (ino : ℕ) (fname : List UInt8) : Option ℕ :=
  let dirInode := readi s ino
  if Inode.valid.get dirInode 0 = 0 then none
  else (List.range DIRECT_PTRS).findSome? fun i =>
    if dirInode.ptr i ≠ 0 then
      let buf := bioRead s.disk (dirInode.ptr i)
      ((List.range DIRENTS_IN_BLOCK).find? (slotMatches buf fname)).map fun j =>
        Dirent.ino.get buf (slotAddr j)
    else none

/-- The search for a duplicate, which skips every block but block `VALID`. -/
def hasDuplicate (s : Fs) (dirInode : Inode) (fname : List UInt8) : Bool :=
  (List.range DIRECT_PTRS).any fun i =>
    decide (dirInode.ptr i = VALID) &&
      (List.range DIRENTS_IN_BLOCK).any (slotMatches (bioRead s.disk (dirInode.ptr i)) fname)

/-- The pointer and the slot the new entry goes to; no slot means a new block. -/
def findSpot (s : Fs) (dirInode : Inode) : Option (ℕ × Option ℕ) :=
  (List.range DIRECT_PTRS).findSome? fun i =>
    if dirInode.ptr i = 0 then some (i, none)
    else
      let buf := bioRead s.disk (dirInode.ptr i)
      ((List.range DIRENTS_IN_BLOCK).find? fun j =>
        decide (Dirent.valid.get buf (slotAddr j) = 0)).map fun j => (i, some j)

/-- Fill slot `j`.  A name that runs past the end of the buffer is out of bounds. -/
def putDirent (buf : Bytes) (j fIno nameLen : ℕ) (fname : List UInt8) : Option Bytes :=
  if slotAddr j + Dirent.name + fname.length < BLOCK_SIZE then
    let buf := Dirent.ino.set buf (slotAddr j) fIno
    let buf := Dirent.len.set buf (slotAddr j) nameLen
    let buf := buf.strcpy (slotAddr j + Dirent.name) fname
    some (Dirent.valid.set buf (slotAddr j) VALID)
  else none

/-- Returns `1` when the entry was added, `0` when it exists, `-1` when there is no
space. -/
def dirAdd (s : Fs) (dirInode : Inode) (fIno : ℕ) (fname : List UInt8) (nameLen : ℕ) :
    Option (ℤ × Fs) :=
  if Inode.valid.get dirInode 0 = 0 then some (0, s)
  else if hasDuplicate s dirInode fname then some (0, s)
  else match findSpot s dirInode with
    | none => some (-1, s)
    | some (ptrIndex, none) => do
      let got := getAvailBlkno s
      let newBlk := got.1
      let s := got.2
      let buf ← putDirent (fun _ => 0) 0 fIno nameLen fname
      let s := { s with disk := bioWrite s.disk newBlk buf }
      let dirInode := dirInode.setPtr ptrIndex newBlk
      some (1, writei s (Inode.ino.get dirInode 0) dirInode)
    | some (ptrIndex, some j) => do
      let blkNum := dirInode.ptr ptrIndex
      let buf ← putDirent (bioRead s.disk blkNum) j fIno nameLen fname
      some (1, { s with disk := bioWrite s.disk blkNum buf })

/-! ## Paths -/

/-- The byte `'/'`. -/
abbrev SLASH : UInt8 := 47

/-- The tokens the calls of `strtok` with delimiter `"/"` return, `cur` being the part of
the first one already read. -/
def strtokFrom (cur : List UInt8) : List UInt8 → List (List UInt8)
  | [] => if cur = [] then [] else [cur]
  | c :: cs =>
    if c = SLASH then
      if cur = [] then strtokFrom [] cs else cur :: strtokFrom [] cs
    else strtokFrom (cur ++ [c]) cs

def strtokAll (path : List UInt8) : List (List UInt8) := strtokFrom [] path

/-- What `dirname` leaves in the buffer. -/
def dirname (path : List UInt8) : List UInt8 :=
  let root (slashes : List UInt8) := if slashes.length = 2 then slashes else [SLASH]
  let trimmed := path.rdropWhile (· = SLASH)
  if trimmed = [] then
    if path = [] then path else root path
  else
    let parent := trimmed.rdropWhile (· ≠ SLASH)
    if parent = [] then path
    else
      let cut := parent.rdropWhile (· = SLASH)
      if cut = [] then root parent else cut

/-- The last component of a path, as `libgen.h` has it. -/
def basename (path : List UInt8) : List UInt8 :=
  let trimmed := path.rdropWhile (· = SLASH)
  if path = [] then [46]
  else if trimmed = [] then [SLASH]
  else trimmed.rtakeWhile (· ≠ SLASH)

/-- The loop of `get_node_by_path` over the tokens. -/
def walk (s : Fs) : ℕ → List (List UInt8) → Option ℕ
  | ino, [] => some ino
  | ino, str :: rest => (dirFind s ino str).bind fun ino => walk s ino rest

/-- The inode a path names, or `none` for the return value 1.  The comparison with `"/"`
comes after `strtok` has cut the path behind its first token, which never leaves `"/"`. -/
def getNodeByPath (s : Fs) (path : List UInt8) (ino : ℕ) : Option Inode :=
  if path = [SLASH] then some (readi s s.rootDirIno)
  else (walk s ino (strtokAll path)).map (readi s)

end UserLevelOs.Files
