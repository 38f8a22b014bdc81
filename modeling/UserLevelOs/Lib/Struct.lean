import UserLevelOs.Lib.Bytes

/-!
# Structs and strings in memory

A field of a C struct is an offset and a width; a struct is the address its fields are
counted from.  A string is its bytes without the `NUL` that ends it.

## Main definitions

* `Field`, `Field.get`, `Field.set`, `Field.Apart`.
* `Bytes.strcpy`, `Bytes.strEq`, `Bytes.strAt` — strings at an address.
* `Bytes.matchIn` — comparing a string with a buffer that may end first.
-/

namespace UserLevelOs.Lib

/-- A field of a struct: its offset and its width in bytes. -/
structure Field where
  offset : ℕ
  size : ℕ
  deriving DecidableEq, Repr

namespace Field

variable {f g : Field} {m m' : Bytes} {a v : ℕ}

/-- The field of the struct at address `a`. -/
def get (f : Field) (m : Bytes) (a : ℕ) : ℕ := m.loadLE (a + f.offset) f.size

def set (f : Field) (m : Bytes) (a v : ℕ) : Bytes := m.storeLE (a + f.offset) f.size v

/-- Two fields that share no byte. -/
def Apart (f g : Field) : Prop := f.offset + f.size ≤ g.offset ∨ g.offset + g.size ≤ f.offset

instance (f g : Field) : Decidable (f.Apart g) := by unfold Apart; infer_instance

theorem get_lt (f : Field) (m : Bytes) (a : ℕ) : f.get m a < 256 ^ f.size := Bytes.loadLE_lt _ _ _

@[simp] theorem get_set_same (f : Field) (m : Bytes) (a v : ℕ) :
    f.get (f.set m a v) a = v % 256 ^ f.size :=
  Bytes.loadLE_storeLE_same _ _ _ _

theorem get_set_of_apart (h : f.Apart g) : f.get (g.set m a v) a = f.get m a := by
  rw [Apart] at h
  exact Bytes.loadLE_storeLE_of_disjoint (by omega)

theorem set_apply_of_notMem {x : ℕ} (h : x < a + f.offset ∨ a + f.offset + f.size ≤ x) :
    f.set m a v x = m x :=
  Bytes.storeLE_apply_of_notMem h

theorem get_congr {b : ℕ} (h : ∀ k, f.offset ≤ k → k < f.offset + f.size → m (a + k) = m' (b + k)) :
    f.get m a = f.get m' b := by
  have hread : m.read (a + f.offset) f.size = m'.read (b + f.offset) f.size := by
    apply List.ext_getElem (by simp)
    intro i h₁ h₂
    rw [Bytes.length_read] at h₁
    rw [Bytes.getElem_read, Bytes.getElem_read, Nat.add_assoc, Nat.add_assoc]
    exact h _ (by omega) (by omega)
  rw [get, get, Bytes.loadLE, Bytes.loadLE, hread]

theorem get_of_zero (h : ∀ k, f.offset ≤ k → k < f.offset + f.size → m (a + k) = 0) :
    f.get m a = 0 := by
  refine Bytes.loadLE_of_zero fun x h₁ h₂ => ?_
  have hx : x = a + (x - a) := by omega
  rw [hx]
  exact h _ (by omega) (by omega)

end Field

/-! ## Strings -/

namespace Bytes

variable {m m' : Bytes} {a n : ℕ} {s t : List UInt8}

/-- Copy a string with its `NUL` to address `a`. -/
def strcpy (m : Bytes) (a : ℕ) (s : List UInt8) : Bytes := m.write a (s ++ [0])

/-- Is `s` the string at address `a`?  `strcmp` looks no further than its `NUL`. -/
def strEq (m : Bytes) (a : ℕ) (s : List UInt8) : Bool := m.read a (s.length + 1) == s ++ [0]

/-- The string at address `a`, in a buffer that has `n` more bytes. -/
def strAt (m : Bytes) (a n : ℕ) : List UInt8 := (m.read a n).takeWhile (· ≠ 0)

/-- Compare a string with the bytes of a buffer; `none` when the comparison runs past its end. -/
def matchIn : List UInt8 → List UInt8 → Option Bool
  | [], _ => none
  | b :: _, [] => some (b == 0)
  | b :: bs, c :: cs => if b = c then matchIn bs cs else some false

theorem strEq_iff : m.strEq a s = true ↔ m.read a (s.length + 1) = s ++ [0] := by
  rw [strEq, beq_iff_eq]

theorem strEq_congr (h : ∀ x, a ≤ x → x ≤ a + s.length → m x = m' x) :
    m.strEq a s = m'.strEq a s := by
  rw [strEq, strEq, read_congr fun x h₁ h₂ => h x h₁ (by omega)]

@[simp] theorem strEq_strcpy (m : Bytes) (a : ℕ) (s : List UInt8) :
    (m.strcpy a s).strEq a s = true := by
  have h := read_write_same m a (s ++ [0])
  rw [List.length_append, List.length_singleton] at h
  rw [strEq_iff, strcpy, h]

theorem strcpy_apply_of_notMem {x : ℕ} (h : x < a ∨ a + s.length < x) :
    m.strcpy a s x = m x := by
  refine write_apply_of_notMem ?_
  rw [List.length_append, List.length_singleton]
  omega

/-- An address holds one string. -/
theorem strEq_iff_eq (hs : m.strEq a s = true) (hs0 : 0 ∉ s) (ht0 : 0 ∉ t) :
    m.strEq a t = true ↔ t = s := by
  constructor
  · intro ht
    rw [strEq_iff] at hs ht
    rcases Nat.lt_trichotomy t.length s.length with hlt | heq | hgt
    · -- the `NUL` that ends `t` is a byte of `s`
      have hsplit : s.length + 1 = (t.length + 1) + (s.length - t.length) := by omega
      rw [hsplit, read_append, ht, List.append_assoc] at hs
      have hpre : t ++ [0] <+: s ++ [0] := ⟨_, by rw [List.append_assoc, hs]⟩
      have hmem : t ++ [0] <+: s := by
        refine List.prefix_of_prefix_length_le hpre (List.prefix_append s [0]) ?_
        rw [List.length_append, List.length_singleton]
        omega
      exact absurd (hmem.subset (List.mem_append_right t (List.mem_singleton.mpr rfl))) hs0
    · rw [heq, hs] at ht
      exact (List.append_inj_left ht heq.symm).symm
    · have hsplit : t.length + 1 = (s.length + 1) + (t.length - s.length) := by omega
      rw [hsplit, read_append, hs, List.append_assoc] at ht
      have hpre : s ++ [0] <+: t ++ [0] := ⟨_, by rw [List.append_assoc, ht]⟩
      have hmem : s ++ [0] <+: t := by
        refine List.prefix_of_prefix_length_le hpre (List.prefix_append t [0]) ?_
        rw [List.length_append, List.length_singleton]
        omega
      exact absurd (hmem.subset (List.mem_append_right s (List.mem_singleton.mpr rfl))) ht0
  · rintro rfl
    exact hs

/-- A comparison that ends within the buffer is that of the memory. -/
theorem matchIn_eq (m : Bytes) (a n : ℕ) (s : List UInt8) :
    matchIn (m.read a n) s = none ∨ matchIn (m.read a n) s = some (m.strEq a s) := by
  induction s generalizing a n with
  | nil =>
    cases n with
    | zero => simp [read, matchIn]
    | succ n => simp [read, matchIn, strEq]
  | cons c s ih =>
    cases n with
    | zero => simp [read, matchIn]
    | succ n =>
      have hrest := ih (a + 1) n
      by_cases hc : m a = c
      · simpa [read, matchIn, strEq, hc] using hrest
      · simp [read, matchIn, strEq, hc]

/-- The comparison runs past the end of a buffer that holds the start of the string. -/
theorem matchIn_eq_none_iff {buf : List UInt8} : matchIn buf s = none ↔ buf <+: s := by
  induction buf generalizing s with
  | nil => simp [matchIn]
  | cons b buf ih =>
    cases s with
    | nil => simp [matchIn]
    | cons c s =>
      rw [matchIn, List.cons_prefix_cons, ← ih]
      split
      · next hb => simp [hb]
      · next hb => simp [hb]

/-- A buffer with room for the string and its `NUL` ends the comparison. -/
theorem matchIn_of_lt (h : s.length < n) : matchIn (m.read a n) s = some (m.strEq a s) := by
  refine (matchIn_eq m a n s).resolve_left fun hnone => ?_
  have hlen := (matchIn_eq_none_iff.mp hnone).length_le
  rw [length_read] at hlen
  omega

/-- A string that fills the buffer is never found to be equal. -/
theorem matchIn_ne_true {buf : List UInt8} (h : buf.length ≤ s.length) :
    matchIn buf s ≠ some true := by
  induction buf generalizing s with
  | nil => simp [matchIn]
  | cons b buf ih =>
    cases s with
    | nil => simp at h
    | cons c s =>
      rw [matchIn]
      split
      · exact ih (by simpa using h)
      · simp

theorem strAt_eq (hs : m.strEq a s = true) (hs0 : 0 ∉ s) (hn : s.length < n) :
    m.strAt a n = s := by
  rw [strEq_iff] at hs
  have hsplit : n = (s.length + 1) + (n - (s.length + 1)) := by omega
  rw [strAt, hsplit, read_append, hs, List.append_assoc]
  rw [List.takeWhile_append_of_pos]
  · simp
  · intro b hb
    simp only [decide_eq_true_eq, ne_eq]
    rintro rfl
    exact hs0 hb

end Bytes

end UserLevelOs.Lib
