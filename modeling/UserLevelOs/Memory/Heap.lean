import UserLevelOs.Memory.Init

/-!
# A heap of independent byte arrays

What the library is for: an allocation of `k` pages is an array of `4092 * k` bytes.  The
address with byte offset `o` in the `i`-th page of the chain denotes index `4092 * i + o`
of it, also for the offsets above 4092.

## Main definitions

* `Block`, `Heap` — live allocations with the pages of their chains and their bytes.
* `Heap.Allows`, `Heap.Answers`, `Heap.after` — what a client may call, what the call
  returns, and the heap it leaves.
* `Represents` — the paging state holds exactly the arrays of a heap.
* `HeapRun` — the runs of the library within one page table.
-/

namespace UserLevelOs.Memory

open UserLevelOs.Lib

/-- A live allocation of `size` bytes. -/
structure Block where
  size : ℕ
  pages : List ℕ
  data : List UInt8
  length_pages : pages.length = pagesRequested size
  length_data : data.length = 4092 * pages.length

namespace Block

def base (b : Block) : ℕ := headVa b.pages

/-- The index `va` denotes in the array. -/
def index (b : Block) (va : ℕ) : ℕ := 4092 * b.pages.idxOf (pageOf va) + va % 4096

/-- The `n` bytes from `va` on lie in the array. -/
def InRange (b : Block) (va n : ℕ) : Prop := b.index va + n ≤ 4092 * b.pages.length

instance (b : Block) (va n : ℕ) : Decidable (b.InRange va n) := by
  unfold InRange; infer_instance

/-- The array as `t_malloc` leaves it. -/
def fresh (size : ℕ) (pages : List ℕ) (h : pages.length = pagesRequested size) : Block where
  size := size
  pages := pages
  data := List.replicate (4092 * pages.length) 0
  length_pages := h
  length_data := List.length_replicate

/-- Overwrite the bytes from `va` on; a range that does not fit changes nothing. -/
def put (b : Block) (va : ℕ) (val : List UInt8) : Block :=
  if h : b.InRange va val.length then
    { b with
      data := splice b.data (b.index va) val
      length_data := by
        rw [length_splice (by rw [b.length_data]; exact h), b.length_data] }
  else b

/-- The `n` bytes from `va` on. -/
def get (b : Block) (va n : ℕ) : List UInt8 := (b.data.drop (b.index va)).take n

@[simp] theorem pages_put (b : Block) (va : ℕ) (val : List UInt8) :
    (b.put va val).pages = b.pages := by
  unfold put
  split <;> rfl

@[simp] theorem size_put (b : Block) (va : ℕ) (val : List UInt8) :
    (b.put va val).size = b.size := by
  unfold put
  split <;> rfl

theorem data_put {b : Block} {va : ℕ} {val : List UInt8} (h : b.InRange va val.length) :
    (b.put va val).data = splice b.data (b.index va) val := by
  rw [put, dif_pos h]

theorem put_of_not_inRange {b : Block} {va : ℕ} {val : List UInt8}
    (h : ¬ b.InRange va val.length) : b.put va val = b := dif_neg h

end Block

/-- The live allocations. -/
abbrev Heap := List Block

namespace Heap

def pages (h : Heap) : List ℕ := h.flatMap Block.pages

/-- The calls a client may make.  A request stays within one page table, or exceeds the
`262144 - 257` frames there are; frees name a live allocation with its size; reads
and writes start in a page of a live allocation, and reads end in it. -/
def Allows (h : Heap) : Call → Prop
  | .tMalloc n =>
    h.pages.length + pagesRequested n.toNat ≤ 1023 ∨
      261887 < h.pages.length + pagesRequested n.toNat
  | .tFree va size => ∃ b ∈ h, va = b.base ∧ size = b.size
  | .putValue va val size =>
    (∃ b ∈ h, pageOf va ∈ b.pages) ∧ 1 ≤ size ∧ size < 2 ^ 31 ∧ size.toNat ≤ val.length
  | .getValue va size => ∃ b ∈ h, pageOf va ∈ b.pages ∧ 1 ≤ size ∧ b.InRange va size.toNat

/-- What a call returns. -/
inductive Answers (h : Heap) : Call → Ret → Prop
  | refused {n : UInt32} (hn : n = 0 ∨ 261887 < h.pages.length + pagesRequested n.toNat) :
      Answers h (.tMalloc n) (.ptr 0)
  | allocated {n : UInt32} {va : ℕ} (hn : n ≠ 0)
      (hfit : h.pages.length + pagesRequested n.toNat ≤ 1023) (hpos : 0 < va)
      (hva : va % 4096 = 0) : Answers h (.tMalloc n) (.ptr va)
  | freed {va : ℕ} {size : ℤ} : Answers h (.tFree va size) .unit
  | put {va : ℕ} {val : List UInt8} {size : ℤ} {b : Block} (hb : b ∈ h)
      (hva : pageOf va ∈ b.pages) :
      Answers h (.putValue va val size) (.status (if b.InRange va size.toNat then 0 else -1))
  | got {va : ℕ} {size : ℤ} {b : Block} (hb : b ∈ h) (hva : pageOf va ∈ b.pages) :
      Answers h (.getValue va size) (.bytes (b.get va size.toNat))

end Heap

/-- The `n` pages met when the links are followed from `start` on. -/
def Vm.chainFrom (s : Vm) : ℕ → ℕ → List ℕ
  | 0, _ => []
  | n + 1, start => pageOf start :: s.chainFrom n (s.link (pageOf start))

@[simp] theorem Vm.length_chainFrom (s : Vm) (n start : ℕ) :
    (s.chainFrom n start).length = n := by
  induction n generalizing start with
  | zero => rfl
  | succ n ih => rw [Vm.chainFrom, List.length_cons, ih]

/-- The links determine the chain. -/
theorem Linked.chainFrom {s : Vm} {ps : List ℕ} (h : Linked s ps) {start : ℕ}
    (hstart : PointsTo start ps) : s.chainFrom ps.length start = ps := by
  induction ps generalizing start with
  | nil => rfl
  | cons p ps ih =>
    have hp : pageOf start = p := hstart
    rw [List.length_cons, Vm.chainFrom, hp, h.1, ih h.2 (pointsTo_headVa ps)]

/-- The heap after call `c` returned `r` and left the library in state `s`. -/
def Heap.after (h : Heap) (s : Vm) : Call → Ret → Heap
  | .tMalloc n, .ptr va =>
    if va = 0 then h
    else
      Block.fresh n.toNat (s.chainFrom (pagesRequested n.toNat) va) (s.length_chainFrom _ _) :: h
  | .tFree va _, _ => h.filter fun b => b.base ≠ va
  | .putValue va val size, _ =>
    h.map fun b => if pageOf va ∈ b.pages then b.put va (val.take size.toNat) else b
  | _, _ => h

/-- Does the call write to the allocation, or give it back? -/
def Call.Addresses (b : Block) : Call → Prop
  | .tFree va _ => va = b.base
  | .putValue va _ _ => pageOf va ∈ b.pages
  | _ => False

/-- Allocations the call does not address keep every cell, link and payload byte, and a
write keeps the cells and links of the allocation it goes to. -/
structure Untouched (h : Heap) (c : Call) (s s' : Vm) : Prop where
  other : ∀ b ∈ h, ¬ c.Addresses b → ∀ p ∈ b.pages, SamePage s s' p
  own : ∀ va val size, c = .putValue va val size → ∀ b ∈ h, ∀ p ∈ b.pages,
    s'.frameAddr p = s.frameAddr p ∧ s'.link p = s.link p

/-- The pages of the heap are the live ones, each block is a chain, and the chain carries
the bytes of the block. -/
structure Represents (s : Vm) (h : Heap) : Prop where
  inv : PageInv s h.pages.toFinset
  unlocked : s.libraryLock = false
  nodup : h.pages.Nodup
  length_le : h.pages.length ≤ 1023
  pages_ne : ∀ b ∈ h, b.pages ≠ []
  linked : ∀ b ∈ h, Linked s b.pages
  image_eq : ∀ b ∈ h, s.image b.pages = b.data

/-- The library from `set_physical_mem` on, with the heap its calls have built. -/
inductive HeapRun (v : VmStart) : Vm → Heap → Prop
  | start {s : Vm} (h : setPhysicalMem v = some s) : HeapRun v s []
  | call {s s' : Vm} {h : Heap} {c : Call} {r : Ret} (hrun : HeapRun v s h) (hc : h.Allows c)
      (hexec : c.exec s = some (r, s')) : HeapRun v s' (h.after s' c r)

end UserLevelOs.Memory
