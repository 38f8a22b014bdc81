import UserLevelOs.Memory.Release

/-!
# The state after `set_physical_mem`

Every assertion of `init_page_tables` holds, frames 0 to 256 and page 0 are marked used,
and each of the 256 directory entries holds the address of the directory: the frames
reserved for page tables are never entered in it.

## Main definitions

* `setPhysicalMem_spec`.
-/

namespace UserLevelOs.Memory

open UserLevelOs.Lib

theorem count_lt_eq {k n : ℕ} (hk : k ≤ n) (P : ℕ → Prop) [DecidablePred P]
    (hP : ∀ p < n, P p ↔ p < k) : Nat.count P n = k := by
  have hset : (Finset.range n).filter P = Finset.range k := by
    ext p
    simp only [Finset.mem_filter, Finset.mem_range]
    constructor
    · rintro ⟨hn, h⟩
      exact (hP p hn).mp h
    · intro h
      exact ⟨by omega, (hP p (by omega)).mpr h⟩
  rw [Nat.count_eq_card_filter_range, hset, Finset.card_range]

/-- Clear bits, counted through the positions that are set. -/
theorem count_clear (b : Bytes) (n : ℕ) :
    Nat.count (fun p => bitSetAt b p = false) n + Nat.count (fun p => bitSetAt b p = true) n = n := by
  induction n with
  | zero => rfl
  | succ n ih =>
    rw [Nat.count_succ, Nat.count_succ]
    cases hb : bitSetAt b n
    · simp only [if_true, Bool.false_eq_true, if_false]
      omega
    · simp only [if_true, Bool.true_eq_false, if_false]
      omega

/-- The loop of `init_page_tables` over `n` more directory entries. -/
theorem reservePageTables_spec {s : Vm} {k pt n : ℕ} (hptbr : s.ptbr = s.vmStart.addr)
    (hpt : pt + n ≤ 256) (hk : k + n ≤ 262144)
    (hbits : ∀ q < 262144, bitSetAt s.frameBitmap q = true ↔ q < k) :
    ∃ memory frameBitmap,
      reservePageTables 0 pt n s = some { s with memory, frameBitmap } ∧
      (∀ q < 262144, bitSetAt frameBitmap q = true ↔ q < k + n) ∧
      (∀ j, pt ≤ j → j < pt + n → memory.loadLE (s.ptbr + 4 * j) 4 = s.ptbr) ∧
      ∀ x, x < s.ptbr + 4 * pt ∨ s.ptbr + 4 * (pt + n) ≤ x → memory x = s.memory x := by
  induction n generalizing s k pt with
  | zero =>
    exact ⟨s.memory, s.frameBitmap, rfl, hbits, fun j h₁ h₂ => by omega, fun x _ => rfl⟩
  | succ n ih =>
    have hfit := s.vmStart.addr_fits
    simp only [MEMSIZE] at hfit
    have hfirst : firstAvailablePosition s.frameBitmap = k := by
      refine firstAvailablePosition_eq (show k < 262144 by omega) ?_ fun q hq => ?_
      · rw [Bool.eq_false_iff, Ne, hbits k (by omega)]
        omega
      · rw [hbits q (by omega)]
        exact hq
    let s₀ : Vm := { s with frameBitmap := Bitmap.set .msbFirst s.frameBitmap k }
    let s₁ : Vm := { s₀ with memory := s.memory.storeLE (s.ptbr + 4 * pt) 4 s.vmStart.addr }
    have hbits₁ : ∀ q < 262144, bitSetAt s₁.frameBitmap q = true ↔ q < k + 1 := by
      intro q hq
      rw [bitSetAt_set, Bool.or_eq_true, decide_eq_true_eq, hbits q hq]
      omega
    obtain ⟨memory, frameBitmap, hloop, hset, hentries, hrest⟩ :=
      ih (s := s₁) (k := k + 1) hptbr (show pt + 1 + n ≤ 256 by omega) (by omega) hbits₁
    have hrest' : ∀ x, x < s.ptbr + 4 * (pt + 1) ∨ s.ptbr + 4 * (pt + 1 + n) ≤ x →
        memory x = s₁.memory x := hrest
    refine ⟨memory, frameBitmap, ?_, ?_, ?_, ?_⟩
    · have hown : s₀.Owns (s.ptbr + 4 * pt) 4 := by
        simp only [Vm.Owns, MEMSIZE, s₀]
        omega
      have hstore : s₀.storeWord (s.ptbr + 4 * pt) s.vmStart.addr = some s₁ := if_pos hown
      have hset₁ : setBitAt s.frameBitmap k = some (Bitmap.set .msbFirst s.frameBitmap k) :=
        if_pos (show k < 262144 by omega)
      have hzero : 4096 * 0 = 0 := rfl
      simp only [reservePageTables, hfirst, hset₁, Option.bind_eq_bind, Option.bind_some,
        pointerToFrame_eq (f := 0) (by omega), hzero, Nat.add_zero]
      change (s₀.storeWord (s.ptbr + 4 * pt) s.vmStart.addr).bind _ = _
      rw [hstore]
      exact hloop
    · intro q hq
      rw [hset q hq]
      omega
    · intro j h₁ h₂
      rcases Nat.eq_or_lt_of_le h₁ with rfl | hlt
      · have hkept : memory.loadLE (s.ptbr + 4 * pt) 4 = s₁.memory.loadLE (s.ptbr + 4 * pt) 4 :=
          Bytes.loadLE_congr fun x _ hx => hrest' x (Or.inl (by omega))
        rw [hkept, Bytes.loadLE_storeLE_same]
        omega
      · exact hentries j (by omega) (by omega)
    · intro x hx
      rw [hrest' x (by omega)]
      exact Bytes.storeLE_apply_of_notMem (by omega)

theorem guard_of {p : Prop} [Decidable p] (h : p) : (guard p : Option Unit) = some () := if_pos h

/-- Every assertion of `init_page_tables` passes once the counts are the expected ones. -/
theorem initPageTables_eq {s s₁ : Vm} {f tables left : ℕ} {frameBitmap virtualBitmap : Bytes}
    (htables : 1 <<< pagingScheme.pageDir.toNat = tables)
    (hleft : 1 <<< pagingScheme.charsForBitmap.toNat - 1 - tables = left)
    (hfirst : firstAvailablePosition s.frameBitmap = f)
    (hset : setBitAt s.frameBitmap f = some frameBitmap)
    (hloop : reservePageTables f 0 tables
      { s with frameBitmap, ptbr := pointerToFrameAtPosition s f } = some s₁)
    (hcount : numBitsSet s₁.frameBitmap = 1 + tables)
    (henough : nBitsAvailable s₁.frameBitmap left = some true)
    (hset' : setBitAt s₁.virtualBitmap 0 = some virtualBitmap)
    (hcount' : numBitsSet virtualBitmap = 1) :
    initPageTables s = some { s₁ with virtualBitmap } := by
  simp only [initPageTables, htables, hleft, hfirst, Option.bind_eq_bind]
  rw [hset, Option.bind_some, hloop, Option.bind_some, guard_of hcount, Option.bind_some, henough,
    Option.bind_some, guard_of rfl, Option.bind_some, hset', Option.bind_some, guard_of hcount',
    Option.bind_some]

/-- Initialisation succeeds, with no page live, an empty translation cache and every
directory entry pointing to the directory. -/
theorem setPhysicalMem_spec (v : VmStart) :
    ∃ s, setPhysicalMem v = some s ∧ PageInv s ∅ ∧ s.libraryLock = false ∧ s.vmStart = v ∧
      s.tlbCache = ⟨0, []⟩ ∧ ∀ d < 256, s.memory.loadLE (s.ptbr + 4 * d) 4 = s.ptbr := by
  have hfit := v.addr_fits
  simp only [MEMSIZE] at hfit
  let s₀ : Vm :=
    { vmStart := v
      memory := fun _ => 0
      ptbr := v.addr
      virtualBitmap := fun _ => 0
      frameBitmap := Bitmap.set .msbFirst (fun _ => 0) 0
      tlbCache := ⟨0, []⟩
      tlbMisses := 0
      tlbLookups := 0
      libraryLock := false }
  have hbits₀ : ∀ q < 262144, bitSetAt s₀.frameBitmap q = true ↔ q < 1 := by
    intro q _
    rw [bitSetAt_set, bitSetAt_zero, Bool.or_false, decide_eq_true_eq]
    omega
  obtain ⟨memory, frameBitmap, hloop, hbits, hentries, -⟩ :=
    reservePageTables_spec (s := s₀) (k := 1) (n := 256) rfl (show 0 + 256 ≤ 256 by omega)
      (by omega) hbits₀
  let s₁ : Vm := { s₀ with memory, frameBitmap }
  let s : Vm := { s₁ with virtualBitmap := Bitmap.set .msbFirst (fun _ => 0) 0 }
  have hused : ∀ q < 262144, bitSetAt s.virtualBitmap q = true ↔ q < 1 := hbits₀
  refine ⟨s, ?_, ?_, rfl, rfl, rfl, fun d hd => hentries d (by omega) (by omega)⟩
  · have hcount : numBitsSet s₁.frameBitmap = 1 + 256 := count_lt_eq (k := 257) (n := 262144) (by omega) _ hbits
    have henough : nBitsAvailable s₁.frameBitmap 32511 = some true := by
      have hclear := count_clear frameBitmap 262144
      have hset : Nat.count (fun p => bitSetAt frameBitmap p = true) 262144 = 1 + 256 := hcount
      rw [nBitsAvailable_eq (by omega), Option.some.injEq, decide_eq_true_eq]
      change 32511 ≤ Nat.count (fun p => bitSetAt frameBitmap p = false) 262144
      omega
    have hset : setBitAt (fun _ => 0) 0 = some (Bitmap.set .msbFirst (fun _ => 0) 0) :=
      if_pos (by decide)
    have hfirst : firstAvailablePosition (fun _ => 0) = 0 :=
      firstAvailablePosition_eq (show 0 < 262144 by omega) (bitSetAt_zero 0) (by simp)
    refine initPageTables_eq (by decide) (by decide) hfirst hset ?_ hcount henough hset
      (count_lt_eq (k := 1) (n := 262144) (by omega) _ hused)
    rw [pointerToFrame_eq (by omega)]
    exact hloop
  · refine ⟨⟨⟨rfl, hentries 0 (by omega) (by omega)⟩, by simp, by simp, ?_, by simp, by simp,
      by simp, by simp, ?_⟩, ⟨rfl, by simp [s, s₁, s₀], by simp [s, s₁, s₀]⟩⟩
    · intro q hq
      rw [hused q hq]
      simp
    · intro f hf
      have h := hbits f hf
      simpa using h

end UserLevelOs.Memory
