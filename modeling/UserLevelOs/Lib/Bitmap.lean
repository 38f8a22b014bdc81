import UserLevelOs.Lib.Bytes
import Mathlib.Data.Nat.Count
import Mathlib.Logic.Function.Basic

/-!
# Packed bitmaps

A bitmap keeps one flag a bit, eight to the byte.  Programs disagree about which
bit of a byte comes first, so the order is a parameter: a `BitOrder` places the
eight flags of a byte in its bits.  Every operation is then a mask on one byte,
and `get_set` and `get_unset` are all that a client has to know about it.

The second half is about searching flags from the front.  It is stated for
arbitrary flags, since nothing in it depends on how they are packed.

## Main definitions

* `BitOrder`, `BitOrder.msbFirst`, `BitOrder.lsbFirst`.
* `Bitmap.get`, `Bitmap.set`, `Bitmap.unset`.
* `scan` — the first clear flag of a range.
* `enoughClear` — whether a range has so many clear flags.
-/

namespace UserLevelOs.Lib

/-- Where the `i`-th flag of a byte lies in it. -/
structure BitOrder where
  slot : ℕ → ℕ
  slot_lt : ∀ i < 8, slot i < 8
  slot_inj : ∀ i < 8, ∀ j < 8, slot i = slot j → i = j

/-- The first flag is the most significant bit. -/
def BitOrder.msbFirst : BitOrder where
  slot i := 7 - i
  slot_lt := by intro i _; omega
  slot_inj := by intro i _ j _ h; omega

/-- The first flag is the least significant bit. -/
def BitOrder.lsbFirst : BitOrder where
  slot i := i
  slot_lt := by intro i h; exact h
  slot_inj := by intro i _ j _ h; exact h

namespace Bitmap

variable (o : BitOrder) (b : Bytes) (p q : ℕ)

/-- The mask of flag `p` within its byte. -/
def mask : UInt8 := UInt8.ofNat (1 <<< o.slot (p % 8))

/-- Flag `p`. -/
def get : Bool := (b (p / 8) &&& mask o p) != 0

/-- Raise flag `p`. -/
def set : Bytes := Function.update b (p / 8) (b (p / 8) ||| mask o p)

/-- Lower flag `p`. -/
def unset : Bytes := Function.update b (p / 8) (b (p / 8) &&& ~~~mask o p)

theorem toBitVec_mask : (mask o p).toBitVec = BitVec.twoPow 8 (o.slot (p % 8)) := by
  apply BitVec.eq_of_toNat_eq
  have hs := o.slot_lt (p % 8) (Nat.mod_lt _ (by omega))
  have hp : 2 ^ o.slot (p % 8) < 2 ^ 8 := Nat.pow_lt_pow_right (by omega) hs
  have hm : (mask o p).toNat = 2 ^ o.slot (p % 8) := by
    simp only [mask, UInt8.toNat_ofNat', Nat.shiftLeft_eq, Nat.one_mul]
    exact Nat.mod_eq_of_lt hp
  rw [UInt8.toNat_toBitVec, hm, BitVec.toNat_twoPow, Nat.mod_eq_of_lt hp]

/-- A flag is one bit of its byte. -/
theorem get_eq_getLsbD : get o b p = (b (p / 8)).toBitVec.getLsbD (o.slot (p % 8)) := by
  have hs := o.slot_lt (p % 8) (Nat.mod_lt _ (by omega))
  have hand : (b (p / 8) &&& mask o p).toBitVec =
      (b (p / 8)).toBitVec &&& BitVec.twoPow 8 (o.slot (p % 8)) := by
    rw [UInt8.toBitVec_and, toBitVec_mask]
  rw [get, Bool.eq_iff_iff, bne_iff_ne, Ne, ← UInt8.toBitVec_inj, hand]
  constructor
  · intro h
    by_contra hb
    refine h (BitVec.eq_of_getLsbD_eq fun i hi => ?_)
    by_cases heq : o.slot (p % 8) = i
    · subst heq; simp [hb]
    · simp [BitVec.getLsbD_twoPow, heq]
  · intro h hz
    have hbit := congrArg (fun v => v.getLsbD (o.slot (p % 8))) hz
    simp only [BitVec.getLsbD_and, h, BitVec.getLsbD_twoPow, hs] at hbit
    simp at hbit

theorem slot_eq_iff (hbyte : q / 8 = p / 8) :
    o.slot (p % 8) = o.slot (q % 8) ↔ q = p := by
  constructor
  · intro h
    have := o.slot_inj _ (Nat.mod_lt p (by omega)) _ (Nat.mod_lt q (by omega)) h
    omega
  · rintro rfl; rfl

@[simp] theorem get_set : get o (set o b p) q = (decide (q = p) || get o b q) := by
  have hs := o.slot_lt (p % 8) (Nat.mod_lt _ (by omega))
  rw [get_eq_getLsbD, get_eq_getLsbD, set]
  by_cases hbyte : q / 8 = p / 8
  · rw [hbyte, Function.update_self, UInt8.toBitVec_or, toBitVec_mask, BitVec.getLsbD_or,
      BitVec.getLsbD_twoPow, Bool.or_comm]
    simp only [hs, decide_true, Bool.true_and, slot_eq_iff o p q hbyte]
  · have hne : q ≠ p := by rintro rfl; exact hbyte rfl
    simp [Function.update_of_ne hbyte, hne]

@[simp] theorem get_unset : get o (unset o b p) q = (decide (q ≠ p) && get o b q) := by
  have hs := o.slot_lt (p % 8) (Nat.mod_lt _ (by omega))
  have hq := o.slot_lt (q % 8) (Nat.mod_lt _ (by omega))
  rw [get_eq_getLsbD, get_eq_getLsbD, unset]
  by_cases hbyte : q / 8 = p / 8
  · rw [hbyte, Function.update_self, UInt8.toBitVec_and, UInt8.toBitVec_not, toBitVec_mask,
      BitVec.getLsbD_and, BitVec.getLsbD_not, BitVec.getLsbD_twoPow, Bool.and_comm]
    simp only [hs, hq, decide_true, Bool.true_and, slot_eq_iff o p q hbyte, decide_not]
  · have hne : q ≠ p := by rintro rfl; exact hbyte rfl
    simp [Function.update_of_ne hbyte, hne]

@[simp] theorem get_zero : get o (fun _ => 0) p = false := by simp [get]

end Bitmap

/-! ## Searching flags from the front -/

/-- The first `i` of the `n` positions from `i₀` on whose flag is clear. -/
def scan (f : ℕ → Bool) : ℕ → ℕ → Option ℕ
  | _, 0 => none
  | i₀, n + 1 => if f i₀ then scan f (i₀ + 1) n else some i₀

theorem scan_eq_some {f : ℕ → Bool} {i₀ n r : ℕ} :
    scan f i₀ n = some r ↔
      i₀ ≤ r ∧ r < i₀ + n ∧ f r = false ∧ ∀ i, i₀ ≤ i → i < r → f i = true := by
  induction n generalizing i₀ with
  | zero => simp [scan]; omega
  | succ n ih =>
    rw [scan]
    by_cases h : f i₀ = true
    · rw [if_pos h, ih]
      constructor
      · rintro ⟨h₁, h₂, h₃, h₄⟩
        refine ⟨by omega, by omega, h₃, fun i hi₁ hi₂ => ?_⟩
        rcases Nat.eq_or_lt_of_le hi₁ with rfl | hlt
        · exact h
        · exact h₄ i hlt hi₂
      · rintro ⟨h₁, h₂, h₃, h₄⟩
        have hne : i₀ ≠ r := by rintro rfl; simp [h] at h₃
        exact ⟨by omega, by omega, h₃, fun i hi₁ hi₂ => h₄ i (by omega) hi₂⟩
    · rw [if_neg h]
      constructor
      · rintro ⟨rfl⟩
        exact ⟨le_rfl, by omega, by simpa using h, fun i hi₁ hi₂ => by omega⟩
      · rintro ⟨h₁, h₂, h₃, h₄⟩
        rcases Nat.eq_or_lt_of_le h₁ with rfl | hlt
        · rfl
        · exact absurd (h₄ i₀ le_rfl hlt) h

theorem scan_eq_none {f : ℕ → Bool} {i₀ n : ℕ} :
    scan f i₀ n = none ↔ ∀ i, i₀ ≤ i → i < i₀ + n → f i = true := by
  induction n generalizing i₀ with
  | zero => simp [scan]; omega
  | succ n ih =>
    rw [scan]
    by_cases h : f i₀ = true
    · rw [if_pos h, ih]
      constructor
      · intro H i hi₁ hi₂
        rcases Nat.eq_or_lt_of_le hi₁ with rfl | hlt
        · exact h
        · exact H i hlt (by omega)
      · intro H i hi₁ hi₂
        exact H i (by omega) (by omega)
    · simp only [h, Bool.false_eq_true, if_false, reduceCtorEq, false_iff, not_forall]
      exact ⟨i₀, le_rfl, by omega, h⟩

theorem scan_congr {f g : ℕ → Bool} {i₀ n : ℕ} (h : ∀ i, i₀ ≤ i → i < i₀ + n → f i = g i) :
    scan f i₀ n = scan g i₀ n := by
  induction n generalizing i₀ with
  | zero => rfl
  | succ n ih =>
    rw [scan, scan, h i₀ le_rfl (by omega), ih fun i hi₁ hi₂ => h i (by omega) (by omega)]

/-- Walk the `n` positions from `i₀` on, counting `k` down at each clear flag; answer
whether the count reached zero. -/
def enoughClear (f : ℕ → Bool) : ℕ → ℕ → ℕ → Bool
  | _, 0, _ => false
  | i₀, n + 1, k =>
    let k := if f i₀ then k else k - 1
    if k = 0 then true else enoughClear f (i₀ + 1) n k

theorem enoughClear_eq {f : ℕ → Bool} {i₀ n k : ℕ} (hk : 0 < k) :
    enoughClear f i₀ n k = decide (k ≤ Nat.count (fun i => f (i₀ + i) = false) n) := by
  induction n generalizing i₀ k with
  | zero => simp [enoughClear]; omega
  | succ n ih =>
    have hshift : Nat.count (fun i => f (i₀ + (i + 1)) = false) n =
        Nat.count (fun i => f (i₀ + 1 + i) = false) n := by
      simp only [Nat.add_assoc, Nat.add_comm 1]
    rw [enoughClear, Nat.count_succ', hshift]
    by_cases h : f i₀ = true
    · simp only [h, if_true, Nat.add_zero, Bool.true_eq_false, if_false]
      rw [if_neg (by omega), ih hk]
    · simp only [h, if_false, Nat.add_zero, if_true, Bool.false_eq_true]
      by_cases h1 : k = 1
      · subst h1; simp
      · rw [if_neg (by omega), ih (by omega)]
        congr 1
        rw [eq_iff_iff]
        omega

end UserLevelOs.Lib
