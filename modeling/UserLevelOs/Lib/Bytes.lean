import Mathlib.Data.List.Basic
import Mathlib.Tactic.Ring
import Mathlib.Tactic.Linarith

/-!
# Byte memories

A memory is a total function from addresses to bytes.  Ranges of it are read and
written as lists, and machine words as little-endian lists of bytes.  Nothing here
checks bounds: a program that models bounded storage guards its accesses itself.

## Main definitions

* `Bytes.read`, `Bytes.write` — a range of bytes as a list.
* `Bytes.fill` — one byte repeated over a range.
* `ofLE`, `toLE` — little-endian numerals.
* `Bytes.loadLE`, `Bytes.storeLE` — words in a memory.
* `Bytes.copy` — `memcpy`.
* `splice` — overwrite part of a list.
-/

namespace UserLevelOs.Lib

/-- The contents of a memory, by address. -/
abbrev Bytes := ℕ → UInt8

/-! ## Little-endian numerals -/

/-- The number whose little-endian bytes are `l`. -/
def ofLE : List UInt8 → ℕ
  | [] => 0
  | b :: l => b.toNat + 256 * ofLE l

/-- The `n` low bytes of `v`, least significant first. -/
def toLE : ℕ → ℕ → List UInt8
  | 0, _ => []
  | n + 1, v => UInt8.ofNat v :: toLE n (v / 256)

@[simp] theorem length_toLE (n v : ℕ) : (toLE n v).length = n := by
  induction n generalizing v with
  | zero => rfl
  | succ n ih => simp [toLE, ih]

theorem ofLE_lt (l : List UInt8) : ofLE l < 256 ^ l.length := by
  induction l with
  | nil => simp [ofLE]
  | cons b l ih =>
    have hb := b.toNat_lt
    simp only [ofLE, List.length_cons, pow_succ]
    omega

theorem ofLE_toLE (n v : ℕ) : ofLE (toLE n v) = v % 256 ^ n := by
  induction n generalizing v with
  | zero => simp [toLE, ofLE, Nat.mod_one]
  | succ n ih =>
    have hb : (UInt8.ofNat v).toNat = v % 256 := by simp
    rw [toLE, ofLE, ih, hb, pow_succ, Nat.mul_comm (256 ^ n), Nat.mod_mul]

theorem ofLE_replicate_zero (n : ℕ) : ofLE (List.replicate n 0) = 0 := by
  induction n with
  | zero => rfl
  | succ n ih => simp [List.replicate_succ, ofLE, ih]

/-! ## Overwriting part of a list -/

/-- Overwrite the elements of `l` from index `i` on by `v`. -/
def splice {α : Type} (l : List α) (i : ℕ) (v : List α) : List α :=
  l.take i ++ v ++ l.drop (i + v.length)

section Splice

variable {α : Type} {l l' v v' : List α} {i : ℕ}

theorem length_splice (h : i + v.length ≤ l.length) : (splice l i v).length = l.length := by
  simp only [splice, List.length_append, List.length_take, List.length_drop]
  omega

theorem splice_append_left (h : i + v.length ≤ l.length) :
    splice (l ++ l') i v = splice l i v ++ l' := by
  simp only [splice, List.append_assoc]
  rw [List.take_append_of_le_length (by omega), List.drop_append_of_le_length h]

theorem splice_append_right (h : l.length ≤ i) :
    splice (l ++ l') i v = l ++ splice l' (i - l.length) v := by
  have hi : l.length + (i - l.length) = i := by omega
  have hd : i + v.length = l.length + (i - l.length + v.length) := by omega
  rw [splice, splice, hd, ← hi, List.take_length_add_append, List.drop_length_add_append]
  simp only [Nat.add_sub_cancel_left, List.append_assoc]

/-- Overwriting two ranges, one right behind the other, overwrites them in one. -/
theorem splice_splice (h : i + v.length ≤ l.length) :
    splice (splice l i v) (i + v.length) v' = splice l i (v ++ v') := by
  have htake : (l.take i).length = i := by rw [List.length_take]; omega
  have hfront : (l.take i ++ v).length = i + v.length := by rw [List.length_append, htake]
  have hd : i + v.length + v'.length = (l.take i ++ v).length + v'.length := by rw [hfront]
  rw [splice, splice, hd, List.drop_length_add_append, List.drop_drop, ← hfront, List.take_left,
    hfront, splice, List.length_append, Nat.add_assoc]
  simp only [List.append_assoc]

theorem getElem?_splice (h : i + v.length ≤ l.length) (j : ℕ) :
    (splice l i v)[j]? = if i ≤ j ∧ j < i + v.length then v[j - i]? else l[j]? := by
  have htake : (l.take i).length = i := by rw [List.length_take]; omega
  rw [splice, List.append_assoc]
  by_cases hlt : j < i
  · rw [if_neg (by omega), List.getElem?_append_left (by omega), List.getElem?_take, if_pos hlt]
  · rw [List.getElem?_append_right (by omega), htake]
    by_cases hin : j < i + v.length
    · rw [if_pos ⟨by omega, hin⟩, List.getElem?_append_left (by omega)]
    · rw [if_neg (by omega), List.getElem?_append_right (by omega), List.getElem?_drop]
      congr 1
      omega

end Splice

/-! ## Ranges -/

namespace Bytes

variable {m m' : Bytes} {a b n k : ℕ} {l : List UInt8}

/-- The `n` bytes from address `a` on. -/
def read (m : Bytes) (a : ℕ) : ℕ → List UInt8
  | 0 => []
  | n + 1 => m a :: read m (a + 1) n

/-- Replace the bytes from address `a` on by `l`. -/
def write (m : Bytes) (a : ℕ) (l : List UInt8) : Bytes :=
  fun x => if a ≤ x ∧ x < a + l.length then l.getD (x - a) 0 else m x

/-- Replace `n` bytes from address `a` on by `v`. -/
def fill (m : Bytes) (a n : ℕ) (v : UInt8) : Bytes :=
  fun x => if a ≤ x ∧ x < a + n then v else m x

@[simp] theorem length_read (m : Bytes) (a n : ℕ) : (read m a n).length = n := by
  induction n generalizing a with
  | zero => rfl
  | succ n ih => simp [read, ih]

@[simp] theorem getElem_read (m : Bytes) (a n i : ℕ) (h : i < (read m a n).length) :
    (read m a n)[i] = m (a + i) := by
  induction n generalizing a i with
  | zero => simp [read] at h
  | succ n ih =>
    cases i with
    | zero => rfl
    | succ i => simp only [read, List.getElem_cons_succ, ih, Nat.add_assoc, Nat.add_comm 1 i]

theorem getD_read (m : Bytes) (a n i : ℕ) (h : i < n) : (read m a n).getD i 0 = m (a + i) := by
  simp [h]

/-- A range reads as `l` exactly when every byte of it does. -/
theorem read_eq_iff : read m a l.length = l ↔ ∀ i < l.length, m (a + i) = l.getD i 0 := by
  constructor
  · intro h i hi
    rw [← getD_read m a l.length i hi, h]
  · intro h
    apply List.ext_getElem (by simp)
    intro i h₁ h₂
    rw [getElem_read, h i h₂]
    simp [h₂]

theorem read_congr (h : ∀ x, a ≤ x → x < a + n → m x = m' x) : read m a n = read m' a n := by
  induction n generalizing a with
  | zero => rfl
  | succ n ih =>
    rw [read, read, h a le_rfl (by omega), ih (fun x h₁ h₂ => h x (by omega) (by omega))]

theorem read_append (m : Bytes) (a n k : ℕ) : read m a (n + k) = read m a n ++ read m (a + n) k := by
  induction n generalizing a with
  | zero => simp [read]
  | succ n ih => simp [read, ih, Nat.succ_add, Nat.add_assoc]

theorem write_apply_of_mem (h₁ : a ≤ n) (h₂ : n < a + l.length) :
    write m a l n = l.getD (n - a) 0 := by simp [write, h₁, h₂]

theorem write_apply_of_notMem (h : n < a ∨ a + l.length ≤ n) : write m a l n = m n := by
  have hn : ¬ (a ≤ n ∧ n < a + l.length) := by omega
  simp [write, hn]

theorem fill_apply_of_mem {v : UInt8} (h₁ : a ≤ k) (h₂ : k < a + n) : fill m a n v k = v := by
  simp [fill, h₁, h₂]

theorem fill_apply_of_notMem {v : UInt8} (h : k < a ∨ a + n ≤ k) : fill m a n v k = m k := by
  have hn : ¬ (a ≤ k ∧ k < a + n) := by omega
  simp [fill, hn]

@[simp] theorem read_write_same (m : Bytes) (a : ℕ) (l : List UInt8) :
    read (write m a l) a l.length = l := by
  rw [read_eq_iff]
  intro i hi
  rw [write_apply_of_mem (by omega) (by omega), Nat.add_sub_cancel_left]

theorem read_write_of_disjoint (h : b + n ≤ a ∨ a + l.length ≤ b) :
    read (write m a l) b n = read m b n :=
  read_congr fun x h₁ h₂ => write_apply_of_notMem (by omega)

theorem read_fill_same (m : Bytes) (a n : ℕ) (v : UInt8) :
    read (fill m a n v) a n = List.replicate n v := by
  have h := read_eq_iff (m := fill m a n v) (a := a) (l := List.replicate n v)
  rw [List.length_replicate] at h
  rw [h]
  intro i hi
  rw [fill_apply_of_mem (by omega) (by omega)]
  simp [List.getD_eq_getElem?_getD, hi]

/-- Reading part of what was written. -/
theorem read_write_part (m : Bytes) (a : ℕ) (h : k + n ≤ l.length) :
    read (write m a l) (a + k) n = (l.drop k).take n := by
  have hl : l.length = k + (n + (l.length - (k + n))) := by omega
  have hsame := read_write_same m a l
  rw [hl, read_append, read_append] at hsame
  conv_rhs => rw [← hsame]
  rw [List.drop_left' (length_read _ _ _), List.take_left' (length_read _ _ _)]

/-- Writing inside a range overwrites part of what the range reads as. -/
theorem read_write_inside (h : k + l.length ≤ n) :
    read (write m (a + k) l) a n = splice (read m a n) k l := by
  have hn : n = k + (l.length + (n - (k + l.length))) := by omega
  have hk : (read m a k).length = k := length_read m a k
  rw [hn, read_append, read_append, read_append m, read_append m (a + k), read_write_same,
    read_write_of_disjoint (Or.inl le_rfl), read_write_of_disjoint (by omega)]
  simp only [splice, List.append_assoc]
  rw [List.take_append_of_le_length (by omega), List.take_of_length_le (by omega)]
  have hd : (read m a k ++ (read m (a + k) l.length ++
      read m (a + k + l.length) (n - (k + l.length)))).drop (k + l.length) =
        read m (a + k + l.length) (n - (k + l.length)) := by
    rw [← List.append_assoc, List.drop_left']
    simp
  rw [hd]

/-- `memcpy`: replace `n` bytes from address `a` on by those of `src` from address `b` on. -/
def copy (m : Bytes) (a : ℕ) (src : Bytes) (b n : ℕ) : Bytes :=
  fun x => if a ≤ x ∧ x < a + n then src (b + (x - a)) else m x

theorem copy_apply_of_mem {src : Bytes} (h₁ : a ≤ k) (h₂ : k < a + n) :
    copy m a src b n k = src (b + (k - a)) := by simp [copy, h₁, h₂]

theorem copy_apply_of_notMem {src : Bytes} (h : k < a ∨ a + n ≤ k) :
    copy m a src b n k = m k := by
  have hn : ¬ (a ≤ k ∧ k < a + n) := by omega
  simp [copy, hn]

/-! ## Words -/

/-- The little-endian word of `n` bytes at address `a`. -/
def loadLE (m : Bytes) (a n : ℕ) : ℕ := ofLE (read m a n)

/-- Store the low `n` bytes of `v` at address `a`, least significant first. -/
def storeLE (m : Bytes) (a n v : ℕ) : Bytes := write m a (toLE n v)

theorem loadLE_lt (m : Bytes) (a n : ℕ) : loadLE m a n < 256 ^ n := by
  have h := ofLE_lt (read m a n)
  rwa [length_read] at h

theorem loadLE_congr (h : ∀ x, a ≤ x → x < a + n → m x = m' x) : loadLE m a n = loadLE m' a n := by
  rw [loadLE, loadLE, read_congr h]

@[simp] theorem loadLE_storeLE_same (m : Bytes) (a n v : ℕ) :
    loadLE (storeLE m a n v) a n = v % 256 ^ n := by
  have h := read_write_same m a (toLE n v)
  rw [length_toLE] at h
  rw [loadLE, storeLE, h, ofLE_toLE]

theorem storeLE_apply_of_notMem {v : ℕ} (h : k < a ∨ a + n ≤ k) : storeLE m a n v k = m k :=
  write_apply_of_notMem (by simpa using h)

theorem loadLE_storeLE_of_disjoint {v : ℕ} (h : b + k ≤ a ∨ a + n ≤ b) :
    loadLE (storeLE m a n v) b k = loadLE m b k :=
  loadLE_congr fun x h₁ h₂ => storeLE_apply_of_notMem (by omega)

theorem loadLE_of_zero (h : ∀ x, a ≤ x → x < a + n → m x = 0) : loadLE m a n = 0 := by
  have hr : read m a n = List.replicate n 0 := by
    rw [← read_fill_same m a n 0]
    exact read_congr fun x h₁ h₂ => by rw [h x h₁ h₂, fill_apply_of_mem h₁ h₂]
  rw [loadLE, hr, ofLE_replicate_zero]

end Bytes

end UserLevelOs.Lib
