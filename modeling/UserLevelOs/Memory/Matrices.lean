import Mathlib.Algebra.BigOperators.Fin
import Mathlib.Data.Matrix.Mul
import Mathlib.Data.UInt
import UserLevelOs.Lib.Loop
import UserLevelOs.Memory.Flat

/-!
# Matrix multiplication over the library

`mat_mult` reads and writes `int`s at computed addresses.  On a heap it is the matrix product
modulo `2 ^ 32` wherever every `int` it addresses lies in a live allocation and the answer's
share no byte with the others.

## Main definitions

* `matMult` — the three loops, on the paging state.
* `Heap.int`, `Heap.matrix` — the `int` at an address, the matrix based at one.
* `Heap.SameBut` — two heaps that differ at the `int`s of a set of addresses only.
* `Separate` — what `mat_mult` needs of its arguments.

## Main statements

* `separate_of_blocks` — three allocations of one page's span each are enough.
* `HeapRun.matMult_product`.
-/

namespace UserLevelOs.Memory

open UserLevelOs.Lib

/-! ## The program -/

/-- `sizeof(int)`. -/
abbrev INT_BYTES : ℕ := 4

/-- `(unsigned int)mat + ((row * size * sizeof(int))) + (col * sizeof(int))`. -/
def matAddress (mat size row col : ℕ) : ℕ :=
  (mat + row * size * INT_BYTES + col * INT_BYTES) % 2 ^ 32

/-- The body of the innermost loop, on the sum so far. -/
def matMultTerm (mat1 mat2 size i j k : ℕ) : UInt32 × Vm → Option (UInt32 × Vm)
  | (c, s) => do
    let (a, s) ← getValue s (matAddress mat1 size i k) INT_BYTES
    let (b, s) ← getValue s (matAddress mat2 size k j) INT_BYTES
    some (c + UInt32.ofNat (ofLE a) * UInt32.ofNat (ofLE b), s)

/-- One entry of the answer; what `put_value` returns is not looked at. -/
def matMultEntry (mat1 mat2 size answer i j : ℕ) (s : Vm) : Option Vm := do
  let (c, s) ← iterate size (matMultTerm mat1 mat2 size i j) (0, s)
  let (_, s) ← putValue s (matAddress answer size i j) (toLE INT_BYTES c.toNat) INT_BYTES
  some s

/-- `size` is an `int`, so the loops of a negative one do not run. -/
def matMult (s : Vm) (mat1 mat2 : ℕ) (size : ℤ) (answer : ℕ) : Option Vm :=
  iterate size.toNat
    (fun i s => iterate size.toNat (matMultEntry mat1 mat2 size.toNat answer i) s) s

/-! ## The `int`s of a heap -/

namespace Heap

/-- An allocation holds the whole `int` at `va`. -/
def HasInt (h : Heap) (va : ℕ) : Prop := ∃ b ∈ h, pageOf va ∈ b.pages ∧ b.InRange va INT_BYTES

/-- The `int` at `va`. -/
def int (h : Heap) (va : ℕ) : UInt32 :=
  match h.find? fun b => decide (pageOf va ∈ b.pages) with
  | some b => UInt32.ofNat (ofLE (b.get va INT_BYTES))
  | none => 0

/-- The matrix of `size` rows and columns based at `mat`. -/
def matrix (h : Heap) (mat size : ℕ) : Matrix (Fin size) (Fin size) UInt32 :=
  fun i j => h.int (matAddress mat size i j)

/-- The `int`s at two addresses share no byte. -/
def Apart (h : Heap) (va va' : ℕ) : Prop :=
  ∀ b ∈ h, pageOf va ∈ b.pages → pageOf va' ∈ b.pages →
    b.index va + INT_BYTES ≤ b.index va' ∨ b.index va' + INT_BYTES ≤ b.index va

/-- The heap with `c` at `va`. -/
def putInt (h : Heap) (va : ℕ) (c : UInt32) : Heap :=
  h.map fun b => if pageOf va ∈ b.pages then b.put va (toLE INT_BYTES c.toNat) else b

/-- The allocations of `h` in their chains, with the bytes of `h` outside the `int`s at the
addresses in `W`. -/
def SameBut (W : Set ℕ) (h h' : Heap) : Prop :=
  ∃ f : Block → Block, h' = h.map f ∧ ∀ b ∈ h, (f b).size = b.size ∧ (f b).pages = b.pages ∧
    ∀ i, (∀ va ∈ W, pageOf va ∈ b.pages → i < b.index va ∨ b.index va + INT_BYTES ≤ i) →
      (f b).data[i]? = b.data[i]?

variable {h h' h'' : Heap} {b : Block} {va va' : ℕ} {W : Set ℕ} {c : UInt32}

theorem int_eq (hnodup : h.pages.Nodup) (hb : b ∈ h) (hva : pageOf va ∈ b.pages) :
    h.int va = UInt32.ofNat (ofLE (b.get va INT_BYTES)) := by
  have hsome : (h.find? fun b => decide (pageOf va ∈ b.pages)).isSome = true :=
    List.find?_isSome.mpr ⟨b, hb, decide_eq_true hva⟩
  obtain ⟨b', hfind⟩ := Option.isSome_iff_exists.mp hsome
  have hva' : pageOf va ∈ b'.pages := by simpa using List.find?_some hfind
  obtain rfl := eq_of_mem_pages hnodup (List.mem_of_find?_eq_some hfind) hb hva' hva
  rw [int, hfind]

/-! ### Heaps that differ at some `int`s only -/

theorem SameBut.refl (W : Set ℕ) (h : Heap) : SameBut W h h :=
  ⟨id, (List.map_id h).symm, fun _ _ => ⟨rfl, rfl, fun _ _ => rfl⟩⟩

theorem SameBut.pages_eq (H : SameBut W h h') : h'.pages = h.pages := by
  obtain ⟨f, rfl, hf⟩ := H
  rw [pages, pages, List.flatMap_map]
  exact List.flatMap_congr fun b hb => (hf b hb).2.1

theorem SameBut.trans (H : SameBut W h h') (H' : SameBut W h' h'') : SameBut W h h'' := by
  obtain ⟨f, rfl, hf⟩ := H
  obtain ⟨g, rfl, hg⟩ := H'
  refine ⟨g ∘ f, List.map_map, fun b hb => ?_⟩
  obtain ⟨hsize, hpages, hdata⟩ := hf b hb
  obtain ⟨hsize', hpages', hdata'⟩ := hg (f b) (List.mem_map_of_mem hb)
  refine ⟨hsize'.trans hsize, hpages'.trans hpages, fun i hi => ?_⟩
  have hindex : ∀ va, (f b).index va = b.index va := fun va => by
    rw [Block.index, Block.index, hpages]
  refine (hdata' i fun va hva hmem => ?_).trans (hdata i hi)
  rw [hindex]
  exact hi va hva (hpages ▸ hmem)

theorem SameBut.hasInt (H : SameBut W h h') (hva : h.HasInt va) : h'.HasInt va := by
  obtain ⟨f, rfl, hf⟩ := H
  obtain ⟨b, hb, hmem, hin⟩ := hva
  have hpages := (hf b hb).2.1
  refine ⟨f b, List.mem_map_of_mem hb, hpages ▸ hmem, ?_⟩
  rw [Block.InRange, Block.index, hpages]
  exact hin

theorem SameBut.apart (H : SameBut W h h') (hapart : h.Apart va va') : h'.Apart va va' := by
  obtain ⟨f, rfl, hf⟩ := H
  rintro _ hmap hmem hmem'
  obtain ⟨b, hb, rfl⟩ := List.mem_map.mp hmap
  have hpages := (hf b hb).2.1
  rw [Block.index, Block.index, hpages]
  exact hapart b hb (hpages ▸ hmem) (hpages ▸ hmem')

/-- An `int` that shares no byte with those at the addresses in `W` is the same in both. -/
theorem SameBut.int_eq (H : SameBut W h h') (hnodup : h.pages.Nodup) (hva : h.HasInt va)
    (hapart : ∀ w ∈ W, h.Apart w va) : h'.int va = h.int va := by
  have hnodup' : h'.pages.Nodup := H.pages_eq ▸ hnodup
  obtain ⟨f, rfl, hf⟩ := H
  obtain ⟨b, hb, hmem, hin⟩ := hva
  obtain ⟨-, hpages, hdata⟩ := hf b hb
  rw [Heap.int_eq hnodup hb hmem,
    Heap.int_eq hnodup' (List.mem_map_of_mem hb) (hpages ▸ hmem)]
  have hindex : (f b).index va = b.index va := by rw [Block.index, Block.index, hpages]
  have hget : (f b).get va INT_BYTES = b.get va INT_BYTES := by
    apply List.ext_getElem?
    intro j
    simp only [Block.get, hindex, List.getElem?_take, List.getElem?_drop]
    split
    · refine hdata _ fun w hw hwb => ?_
      have := hapart w hw b hb hwb hmem
      omega
    · rfl
  rw [hget]

/-! ### Writing one `int` -/

theorem sameBut_putInt (hva : va ∈ W) (hin : h.HasInt va) (hnodup : h.pages.Nodup)
    (c : UInt32) : SameBut W h (h.putInt va c) := by
  obtain ⟨b, hb, hmem, hin⟩ := hin
  refine ⟨_, rfl, fun b' hb' => ?_⟩
  split
  · obtain rfl := eq_of_mem_pages hnodup hb' hb ‹_› hmem
    have hlen : (toLE INT_BYTES c.toNat).length = INT_BYTES := length_toLE _ _
    refine ⟨Block.size_put .., Block.pages_put .., fun i hi => ?_⟩
    rw [Block.data_put (by rw [hlen]; exact hin), getElem?_splice (by
      rw [hlen, b'.length_data]; exact hin), hlen, if_neg]
    have := hi va hva hmem
    omega
  · exact ⟨rfl, rfl, fun _ _ => rfl⟩

theorem int_putInt (hnodup : h.pages.Nodup) (hva : h.HasInt va) :
    (h.putInt va c).int va = c := by
  have hnodup' : (h.putInt va c).pages.Nodup :=
    (sameBut_putInt (Set.mem_singleton va) hva hnodup c).pages_eq ▸ hnodup
  obtain ⟨b, hb, hmem, hin⟩ := hva
  have hlen : (toLE INT_BYTES c.toNat).length = INT_BYTES := length_toLE _ _
  have hput : b.put va (toLE INT_BYTES c.toNat) ∈ h.putInt va c := by
    refine List.mem_map.mpr ⟨b, hb, if_pos hmem⟩
  rw [int_eq hnodup' hput (by rw [Block.pages_put]; exact hmem)]
  have hget : (b.put va (toLE INT_BYTES c.toNat)).get va INT_BYTES = toLE INT_BYTES c.toNat := by
    apply List.ext_getElem?
    intro j
    simp only [Block.get, Block.index_put, List.getElem?_take, List.getElem?_drop]
    rw [Block.data_put (by rw [hlen]; exact hin), getElem?_splice (by
      rw [hlen, b.length_data]; exact hin), hlen]
    split
    · rw [if_pos (by omega), Nat.add_sub_cancel_left]
    · rw [List.getElem?_eq_none (by omega)]
  have hlt : c.toNat < 256 ^ INT_BYTES := c.toNat_lt
  rw [hget, ofLE_toLE, Nat.mod_eq_of_lt hlt, UInt32.ofNat_toNat]

end Heap

/-! ## Calls on one `int` -/

namespace HeapRun

variable {v : VmStart} {s : Vm} {h : Heap} {va : ℕ}

theorem getInt (hrun : HeapRun v s h) (hva : h.HasInt va) :
    ∃ bytes s', getValue s va INT_BYTES = some (bytes, s') ∧
      UInt32.ofNat (ofLE bytes) = h.int va ∧ HeapRun v s' h := by
  obtain ⟨b, hb, hmem, hin⟩ := hva
  have R := hrun.represents
  have hfits : b.InRange va (INT_BYTES : ℤ).toNat := hin
  obtain ⟨s', hexec, -, -⟩ := R.get hb hmem (by decide) hfits
  have hallows : h.Allows (.getValue va INT_BYTES) := ⟨b, hb, hmem, by decide, hin⟩
  refine ⟨_, s', hexec, (Heap.int_eq R.nodup hb hmem).symm, ?_⟩
  exact hrun.call hallows (r := .bytes (b.get va INT_BYTES)) (by rw [Call.exec, hexec]; rfl)

theorem putInt (hrun : HeapRun v s h) (hva : h.HasInt va) (c : UInt32) :
    ∃ s', putValue s va (toLE INT_BYTES c.toNat) INT_BYTES = some (0, s') ∧
      HeapRun v s' (h.putInt va c) := by
  obtain ⟨b, hb, hmem, hin⟩ := hva
  have hlen : (toLE INT_BYTES c.toNat).length = INT_BYTES := length_toLE _ _
  have hallows : h.Allows (.putValue va (toLE INT_BYTES c.toNat) INT_BYTES) :=
    ⟨⟨b, hb, hmem⟩, by decide, by decide, by rw [hlen]; decide⟩
  have hval : (INT_BYTES : ℤ).toNat ≤ (toLE INT_BYTES c.toNat).length := by rw [hlen]; decide
  obtain ⟨s', hexec, -, -⟩ := hrun.represents.put hb hmem (by decide) (by decide) hval
  have hrun' := hrun.call hallows (r := .status _) (by rw [Call.exec, hexec]; rfl)
  rw [if_pos (by exact hin)] at hexec
  refine ⟨s', hexec, ?_⟩
  have htake : (toLE INT_BYTES c.toNat).take (INT_BYTES : ℤ).toNat = toLE INT_BYTES c.toNat :=
    List.take_of_length_le (by rw [hlen]; decide)
  simp only [Heap.after, htake] at hrun'
  exact hrun'

end HeapRun

/-! ## The product -/

/-- Every `int` that `mat_mult` addresses lies in an allocation, and those of the answer share
no byte with each other or with those of the operands. -/
structure Separate (h : Heap) (mat1 mat2 size answer : ℕ) : Prop where
  hasInt : ∀ mat ∈ [mat1, mat2, answer], ∀ i < size, ∀ j < size,
    h.HasInt (matAddress mat size i j)
  operands : ∀ mat ∈ [mat1, mat2], ∀ i < size, ∀ j < size, ∀ x < size, ∀ y < size,
    h.Apart (matAddress answer size i j) (matAddress mat size x y)
  entries : ∀ i < size, ∀ j < size, ∀ x < size, ∀ y < size, (i, j) ≠ (x, y) →
    h.Apart (matAddress answer size i j) (matAddress answer size x y)

/-- The addresses of a matrix. -/
def matCells (mat size : ℕ) : Set ℕ := {va | ∃ i < size, ∃ j < size, va = matAddress mat size i j}

/-- The entry of the product at row `i` and column `j`. -/
def Heap.product (h : Heap) (mat1 mat2 size i j : ℕ) : UInt32 :=
  ∑ k ∈ Finset.range size, h.int (matAddress mat1 size i k) * h.int (matAddress mat2 size k j)

/-- What is left of `h` once the entries in `done` are computed. -/
structure Filled (h : Heap) (mat1 mat2 size answer : ℕ) (done : ℕ → ℕ → Prop) (h' : Heap) :
    Prop where
  sameBut : h.SameBut (matCells answer size) h'
  entry_eq : ∀ i < size, ∀ j < size, done i j →
    h'.int (matAddress answer size i j) = h.product mat1 mat2 size i j

section Product

variable {v : VmStart} {s : Vm} {h h' : Heap} {mat1 mat2 size answer i j : ℕ}
  {done : ℕ → ℕ → Prop}

/-- The innermost loop and the store behind it. -/
theorem HeapRun.matMultEntry (hrun : HeapRun v s h)
    (h1 : ∀ k < size, h.HasInt (matAddress mat1 size i k))
    (h2 : ∀ k < size, h.HasInt (matAddress mat2 size k j))
    (hanswer : h.HasInt (matAddress answer size i j)) :
    ∃ s', matMultEntry mat1 mat2 size answer i j s = some s' ∧
      HeapRun v s' (h.putInt (matAddress answer size i j) (h.product mat1 mat2 size i j)) := by
  obtain ⟨⟨c, s₁⟩, hloop, hc, hrun₁⟩ :=
    iterate_induction (n := size) (f := matMultTerm mat1 mat2 size i j) (a := (0, s))
      (fun k x => x.1 = ∑ l ∈ Finset.range k,
          h.int (matAddress mat1 size i l) * h.int (matAddress mat2 size l j) ∧
        HeapRun v x.2 h) ⟨rfl, hrun⟩ (by
      rintro k hk ⟨c, s⟩ ⟨hc, hrun⟩
      obtain ⟨a, s₁, hgeta, ha, hrun₁⟩ := hrun.getInt (h1 k hk)
      obtain ⟨b, s₂, hgetb, hb, hrun₂⟩ := hrun₁.getInt (h2 k hk)
      refine ⟨(c + UInt32.ofNat (ofLE a) * UInt32.ofNat (ofLE b), s₂), ?_, ?_, hrun₂⟩
      · simp only [matMultTerm, hgeta, hgetb, Option.bind_eq_bind, Option.bind_some]
      · rw [Finset.sum_range_succ, ← hc, ha, hb])
  have hc : c = h.product mat1 mat2 size i j := hc
  obtain ⟨s₂, hput, hrun₂⟩ := hrun₁.putInt hanswer c
  refine ⟨s₂, ?_, hc ▸ hrun₂⟩
  simp only [Memory.matMultEntry, hloop, hput, Option.bind_eq_bind, Option.bind_some]

namespace Separate

variable (S : Separate h mat1 mat2 size answer)
include S

/-- The operands read the same as at the start. -/
theorem product_eq (hnodup : h.pages.Nodup) (F : Filled h mat1 mat2 size answer done h')
    (hi : i < size) (hj : j < size) :
    h'.product mat1 mat2 size i j = h.product mat1 mat2 size i j := by
  have hint : ∀ mat ∈ [mat1, mat2], ∀ x < size, ∀ y < size,
      h'.int (matAddress mat size x y) = h.int (matAddress mat size x y) := by
    intro mat hmat x hx y hy
    have hmem : mat ∈ [mat1, mat2, answer] := by
      rw [List.mem_cons, List.mem_singleton] at hmat
      rcases hmat with rfl | rfl <;> simp
    refine F.sameBut.int_eq hnodup (S.hasInt mat hmem x hx y hy) ?_
    rintro _ ⟨i, hi, j, hj, rfl⟩
    exact S.operands mat hmat i hi j hj x hx y hy
  refine Finset.sum_congr rfl fun k hk => ?_
  have hk := Finset.mem_range.mp hk
  rw [hint mat1 (by simp) i hi k hk, hint mat2 (by simp) k hk j hj]

/-- Storing one entry keeps the entries stored before it. -/
theorem filled_put (hnodup : h.pages.Nodup) (F : Filled h mat1 mat2 size answer done h')
    (hi : i < size) (hj : j < size) :
    Filled h mat1 mat2 size answer (fun x y => done x y ∨ x = i ∧ y = j)
      (h'.putInt (matAddress answer size i j) (h'.product mat1 mat2 size i j)) := by
  have hnodup' : h'.pages.Nodup := F.sameBut.pages_eq ▸ hnodup
  have hasInt : ∀ x < size, ∀ y < size, h'.HasInt (matAddress answer size x y) :=
    fun x hx y hy => F.sameBut.hasInt (S.hasInt answer (by simp) x hx y hy)
  have hstep : h'.SameBut {matAddress answer size i j}
      (h'.putInt (matAddress answer size i j) (h'.product mat1 mat2 size i j)) :=
    Heap.sameBut_putInt (Set.mem_singleton _) (hasInt i hi j hj) hnodup' _
  have hcell : matAddress answer size i j ∈ matCells answer size := ⟨i, hi, j, hj, rfl⟩
  refine ⟨F.sameBut.trans (Heap.sameBut_putInt hcell (hasInt i hi j hj) hnodup' _),
    fun x hx y hy hdone => ?_⟩
  by_cases hsame : (i, j) = (x, y)
  · obtain ⟨rfl, rfl⟩ := Prod.mk.inj hsame
    rw [Heap.int_putInt hnodup' (hasInt i hi j hj), S.product_eq hnodup F hi hj]
  · rw [hstep.int_eq hnodup' (hasInt x hx y hy)]
    · refine F.entry_eq x hx y hy (hdone.resolve_right ?_)
      rintro ⟨rfl, rfl⟩
      exact hsame rfl
    · rintro _ rfl
      exact F.sameBut.apart (S.entries i hi j hj x hx y hy hsame)

end Separate

/-- The loop over the columns of row `i`. -/
theorem HeapRun.matMultRow (S : Separate h mat1 mat2 size answer) (hnodup : h.pages.Nodup)
    (hrun : HeapRun v s h') (F : Filled h mat1 mat2 size answer (fun x _ => x < i) h')
    (hi : i < size) :
    ∃ s' h'', iterate size (Memory.matMultEntry mat1 mat2 size answer i) s = some s' ∧
      HeapRun v s' h'' ∧ Filled h mat1 mat2 size answer (fun x _ => x < i + 1) h'' := by
  obtain ⟨s', hloop, h'', hrun', F'⟩ :=
    iterate_induction (n := size) (f := Memory.matMultEntry mat1 mat2 size answer i) (a := s)
      (fun j s => ∃ h', HeapRun v s h' ∧
        Filled h mat1 mat2 size answer (fun x y => x < i ∨ x = i ∧ y < j) h')
      ⟨h', hrun, F.sameBut, fun x hx y hy hdone => F.entry_eq x hx y hy (by omega)⟩ (by
      rintro j hj s ⟨h', hrun, F⟩
      obtain ⟨s', hexec, hrun'⟩ := hrun.matMultEntry
        (fun k hk => F.sameBut.hasInt (S.hasInt mat1 (by simp) i hi k hk))
        (fun k hk => F.sameBut.hasInt (S.hasInt mat2 (by simp) k hk j hj))
        (F.sameBut.hasInt (S.hasInt answer (by simp) i hi j hj))
      have F' := S.filled_put hnodup F hi hj
      exact ⟨s', hexec, _, hrun', F'.sameBut,
        fun x hx y hy hdone => F'.entry_eq x hx y hy (by omega)⟩)
  exact ⟨s', h'', hloop, hrun', F'.sameBut,
    fun x hx y hy hdone => F'.entry_eq x hx y hy (by omega)⟩

/-- In every run within one page table, `mat_mult` on arguments whose `int`s lie in live
allocations, those of the answer apart from all others, completes, stores the product of the
two matrices modulo `2 ^ 32`, and changes no other byte of the heap. -/
theorem HeapRun.matMult_product {size : ℤ} (hrun : HeapRun v s h)
    (S : Separate h mat1 mat2 size.toNat answer) :
    ∃ s' h', matMult s mat1 mat2 size answer = some s' ∧ HeapRun v s' h' ∧
      h.SameBut (matCells answer size.toNat) h' ∧
      h'.matrix answer size.toNat = h.matrix mat1 size.toNat * h.matrix mat2 size.toNat := by
  have hnodup := hrun.represents.nodup
  obtain ⟨s', hloop, h', hrun', F⟩ :=
    iterate_induction (n := size.toNat)
      (f := fun i s => iterate size.toNat (Memory.matMultEntry mat1 mat2 size.toNat answer i) s)
      (a := s)
      (fun i s => ∃ h', HeapRun v s h' ∧
        Filled h mat1 mat2 size.toNat answer (fun x _ => x < i) h')
      ⟨h, hrun, .refl _ h, fun _ _ _ _ hdone => absurd hdone (Nat.not_lt_zero _)⟩ (by
      rintro i hi s ⟨h', hrun, F⟩
      obtain ⟨s', h'', hexec, hrun', F'⟩ := HeapRun.matMultRow S hnodup hrun F hi
      exact ⟨s', hexec, h'', hrun', F'⟩)
  refine ⟨s', h', hloop, hrun', F.sameBut, ?_⟩
  refine Matrix.ext fun i j => ?_
  rw [Heap.matrix, F.entry_eq i i.isLt j j.isLt i.isLt, Matrix.mul_apply, Heap.product,
    Finset.sum_range]
  rfl

end Product

/-! ## Three allocations of one page's span -/

/-- Addresses within a page's span of the base are indices. -/
theorem Represents.index_base {s : Vm} {h : Heap} (R : Represents s h) {b : Block} (hb : b ∈ h)
    {off : ℕ} (hoff : off < 4096) :
    pageOf (b.base + off) ∈ b.pages ∧ b.index (b.base + off) = off := by
  obtain ⟨p, ps, hp⟩ := List.exists_cons_of_ne_nil (R.pages_ne b hb)
  have hbase : b.base = 4096 * p := by rw [Block.base, hp, headVa]
  have hpage : pageOf (b.base + off) = p := by rw [pageOf_eq]; omega
  refine ⟨by rw [hpage, hp]; exact List.mem_cons_self, ?_⟩
  rw [Block.index, hpage, hp, List.idxOf_cons_self]
  omega

theorem entry_lt {size i j : ℕ} (hi : i < size) (hj : j < size) :
    i * size + j < size * size := by
  have hrow : (i + 1) * size ≤ size * size := Nat.mul_le_mul_right size hi
  rw [Nat.add_mul, Nat.one_mul] at hrow
  omega

theorem entry_ne {size i j x y : ℕ} (hj : j < size) (hy : y < size) (hne : (i, j) ≠ (x, y)) :
    i * size + j ≠ x * size + y := by
  intro heq
  refine hne ?_
  have hcol : j = y := by
    have := congrArg (· % size) heq
    simpa [Nat.mul_add_mod_self_right, Nat.mod_eq_of_lt hj, Nat.mod_eq_of_lt hy] using this
  subst hcol
  have hpos : 0 < size := by omega
  rw [Nat.eq_of_mul_eq_mul_right hpos (Nat.add_right_cancel heq)]

theorem Represents.matAddress_base {s : Vm} {h : Heap} (R : Represents s h) {b : Block}
    (hb : b ∈ h) {size i j : ℕ} (hsize : 4 * (size * size) ≤ 4096) (hi : i < size)
    (hj : j < size) : matAddress b.base size i j = b.base + 4 * (i * size + j) := by
  have hbase := R.inv.live_lt _ (mem_live hb (R.pageOf_base hb))
  have hlt := entry_lt hi hj
  rw [pageOf_eq] at hbase
  rw [matAddress, INT_BYTES, Nat.mod_eq_of_lt] <;> omega

/-- Three allocations that hold their matrices, the answer's another one than the operands',
are enough while a matrix spans no more than the 4096 addresses of a page. -/
theorem Represents.separate_of_blocks {s : Vm} {h : Heap} (R : Represents s h) {b₁ b₂ c : Block}
    (hb₁ : b₁ ∈ h) (hb₂ : b₂ ∈ h) (hc : c ∈ h) (hne₁ : c ≠ b₁) (hne₂ : c ≠ b₂) {size : ℕ}
    (hsize : 4 * (size * size) ≤ 4096) (hfit : ∀ b ∈ [b₁, b₂, c], 4 * (size * size) ≤ b.size) :
    Separate h b₁.base b₂.base size c.base := by
  have hmem : ∀ mat ∈ [b₁.base, b₂.base, c.base], ∃ b ∈ [b₁, b₂, c], b ∈ h ∧ mat = b.base := by
    intro mat hmat
    simp only [List.mem_cons, List.not_mem_nil, or_false] at hmat
    rcases hmat with rfl | rfl | rfl
    · exact ⟨b₁, by simp, hb₁, rfl⟩
    · exact ⟨b₂, by simp, hb₂, rfl⟩
    · exact ⟨c, by simp, hc, rfl⟩
  refine ⟨?_, ?_, ?_⟩
  · intro mat hmat i hi j hj
    obtain ⟨b, hbmem, hb, rfl⟩ := hmem mat hmat
    have hlt := entry_lt hi hj
    have hcap : b.size ≤ 4092 * b.pages.length := pagesRequested_le_iff.mp b.length_pages.ge
    have hroom := hfit b hbmem
    have hoff : 4 * (i * size + j) < 4096 := by omega
    obtain ⟨hpage, hindex⟩ := R.index_base hb hoff
    rw [R.matAddress_base hb hsize hi hj]
    refine ⟨b, hb, hpage, ?_⟩
    rw [Block.InRange, hindex, INT_BYTES]
    omega
  · intro mat hmat i hi j hj x hx y hy d hd hmemc hmemb
    -- the answer's pages are not those of an operand
    have hoperand : ∃ b ∈ h, c ≠ b ∧ mat = b.base := by
      rw [List.mem_cons, List.mem_singleton] at hmat
      rcases hmat with rfl | rfl
      · exact ⟨b₁, hb₁, hne₁, rfl⟩
      · exact ⟨b₂, hb₂, hne₂, rfl⟩
    obtain ⟨b, hb, hne, rfl⟩ := hoperand
    have hltc := entry_lt hi hj
    have hltb := entry_lt hx hy
    rw [R.matAddress_base hc hsize hi hj] at hmemc
    rw [R.matAddress_base hb hsize hx hy] at hmemb
    have hdc : d = c := Heap.eq_of_mem_pages R.nodup hd hc hmemc (R.index_base hc (by omega)).1
    have hdb : d = b := Heap.eq_of_mem_pages R.nodup hd hb hmemb (R.index_base hb (by omega)).1
    exact absurd (hdc.symm.trans hdb) hne
  · intro i hi j hj x hx y hy hne d hd hmem _
    have hlt := entry_lt hi hj
    have hlt' := entry_lt hx hy
    have hentry := entry_ne hj hy hne
    rw [R.matAddress_base hc hsize hi hj] at hmem
    have hdc : d = c := Heap.eq_of_mem_pages R.nodup hd hc hmem (R.index_base hc (by omega)).1
    subst hdc
    rw [R.matAddress_base hc hsize hi hj, R.matAddress_base hc hsize hx hy,
      (R.index_base hc (by omega)).2, (R.index_base hc (by omega)).2, INT_BYTES]
    omega

/-- One more allocation, another one than those there are. -/
theorem HeapRun.malloc_next {v : VmStart} {s : Vm} {h : Heap} (hrun : HeapRun v s h) {n : UInt32}
    (hn : n ≠ 0) (hfit : h.pages.length + pagesRequested n.toNat ≤ 1023) :
    ∃ s' b, HeapRun v s' (b :: h) ∧ b.size = n.toNat ∧ b ∉ h ∧
      b.pages.length = pagesRequested n.toNat := by
  obtain ⟨va, s', hexec, hpos, -, -, -⟩ := hrun.represents.malloc hn hfit
  have hrun' := hrun.call (c := .tMalloc n) (r := .ptr va) (.inl hfit)
    (by rw [Call.exec, hexec]; rfl)
  simp only [Heap.after, hpos.ne', if_false] at hrun'
  refine ⟨s', _, hrun', rfl, fun hmem => ?_, Vm.length_chainFrom ..⟩
  have R := hrun'.represents
  obtain ⟨p, ps, hp⟩ := List.exists_cons_of_ne_nil (R.pages_ne _ List.mem_cons_self)
  have hnodup := R.nodup
  rw [Heap.pages, List.flatMap_cons, List.nodup_append] at hnodup
  have hhead := hp ▸ List.mem_cons_self (a := p) (l := ps)
  exact hnodup.2.2 p hhead p (Heap.mem_pages hmem hhead) rfl

/-- `HeapRun.matMult_product` for the matrices of the tests: five rows, in allocations of 400
bytes. -/
theorem HeapRun.matMult_product_five : ∃ (v : VmStart) (s : Vm) (h : Heap) (b₁ b₂ c : Block),
    HeapRun v s h ∧ b₁.size = 400 ∧ b₂.size = 400 ∧ c.size = 400 ∧
    ∃ s' h', matMult s b₁.base b₂.base 5 c.base = some s' ∧ HeapRun v s' h' ∧
      h.SameBut (matCells c.base 5) h' ∧
      h'.matrix c.base 5 = h.matrix b₁.base 5 * h.matrix b₂.base 5 := by
  obtain ⟨s₀, hinit, -⟩ := setPhysicalMem_spec ⟨4096, by decide, by decide⟩
  obtain ⟨s₁, b₁, hrun₁, hsize₁, -, hlen₁⟩ :=
    (HeapRun.start hinit).malloc_next (n := 400) (by decide) (by decide)
  have hpages₁ : b₁.pages.length = 1 := hlen₁.trans (by decide)
  obtain ⟨s₂, b₂, hrun₂, hsize₂, -, hlen₂⟩ := hrun₁.malloc_next (n := 400) (by decide)
    (by rw [Heap.pages, List.flatMap_singleton, hpages₁]; decide)
  have hpages₂ : b₂.pages.length = 1 := hlen₂.trans (by decide)
  obtain ⟨s₃, c, hrun₃, hsize₃, hnew, -⟩ := hrun₂.malloc_next (n := 400) (by decide)
    (by rw [Heap.pages, List.flatMap_cons, List.flatMap_singleton, List.length_append, hpages₁,
      hpages₂]; decide)
  rw [List.mem_pair, not_or] at hnew
  have hsize : ∀ b ∈ [b₁, b₂, c], 4 * (5 * 5) ≤ b.size := by
    intro b hb
    simp only [List.mem_cons, List.not_mem_nil, or_false] at hb
    rcases hb with rfl | rfl | rfl
    · rw [hsize₁]; decide
    · rw [hsize₂]; decide
    · rw [hsize₃]; decide
  have S : Separate [c, b₂, b₁] b₁.base b₂.base 5 c.base :=
    hrun₃.represents.separate_of_blocks (by simp) (by simp) (by simp) hnew.2 hnew.1 (by decide)
      hsize
  have S : Separate [c, b₂, b₁] b₁.base b₂.base (5 : ℤ).toNat c.base := S
  exact ⟨_, s₃, [c, b₂, b₁], b₁, b₂, c, hrun₃, hsize₁, hsize₂, hsize₃,
    HeapRun.matMult_product hrun₃ S⟩

end UserLevelOs.Memory
