import UserLevelOs.Memory.Heap

/-!
# The library refines the heap

Each call of the library does to the paging state what the heap of arrays says, and leaves
the pages of every other allocation alone.

## Main statements

* `tMalloc_granted`, `tMalloc_refused`.
* `putValue_chain`, `getValue_chain`, `tFree_chain`.
-/

namespace UserLevelOs.Memory

open UserLevelOs.Lib

/-! ## The lock, and the bits that are left -/

theorem PageInv.setLock {s : Vm} {live : Finset ℕ} (H : PageInv s live) (b : Bool) :
    PageInv { s with libraryLock := b } live where
  ptbr_eq := H.ptbr_eq
  dir_zero := H.dir_zero
  live_pos := H.live_pos
  live_lt := H.live_lt
  used_iff := H.used_iff
  frameAddr_eq := H.frameAddr_eq
  frame_reserved := H.frame_reserved
  frame_lt := H.frame_lt
  frame_inj := H.frame_inj
  frame_used := H.frame_used
  size_eq := H.size_eq
  size_le := H.size_le
  frame_eq := H.frame_eq

theorem SamePage.setLock (s : Vm) (b : Bool) (p : ℕ) :
    SamePage s { s with libraryLock := b } p :=
  ⟨rfl, fun _ _ _ => rfl⟩

theorem Linked.setLock {s : Vm} {ps : List ℕ} (h : Linked s ps) (b : Bool) :
    Linked { s with libraryLock := b } ps :=
  h.congr fun p _ => (SamePage.setLock s b p).link_eq

theorem Overwrites.setLock {s s' : Vm} {live : Finset ℕ} {ps : List ℕ} {o : ℕ} {val : List UInt8}
    (h : Overwrites s s' live ps o val) (b : Bool) :
    Overwrites { s with libraryLock := b } { s' with libraryLock := b } live ps o val where
  page := h.page.setLock b
  table := { h.table with libraryLock_eq := rfl }
  link := h.link
  image := h.image
  other q hq hnot := ⟨(h.other q hq hnot).frameAddr_eq, (h.other q hq hnot).frame_eq⟩
  outside := h.outside

theorem Vm.lock_eq {s : Vm} (h : s.libraryLock = false) :
    s.lock = some { s with libraryLock := true } := by
  rw [Vm.lock, h, if_neg Bool.false_ne_true]

theorem Vm.unlock_eq {s : Vm} (h : s.libraryLock = true) :
    s.unlock = some { s with libraryLock := false } := by
  rw [Vm.unlock, h, if_pos rfl]

namespace TableInv

variable {s : Vm} {live : Finset ℕ} (H : TableInv s live)
include H

/-- Page 0 and the live pages are the ones marked used. -/
theorem count_virtual :
    Nat.count (fun p => bitSetAt s.virtualBitmap p = true) 262144 = 1 + live.card := by
  have h0 : 0 ∉ live := fun h => (H.live_pos 0 h).ne' rfl
  have hset : (Finset.range 262144).filter (fun p => bitSetAt s.virtualBitmap p = true) =
      insert 0 live := by
    ext p
    rw [Finset.mem_filter, Finset.mem_range, Finset.mem_insert]
    constructor
    · intro h
      exact (H.used_iff p h.1).mp h.2
    · intro h
      have hlt : p < 262144 := by
        rcases h with h | h
        · omega
        · have := H.live_lt p h; omega
      exact ⟨hlt, (H.used_iff p hlt).mpr h⟩
  rw [Nat.count_eq_card_filter_range, hset, Finset.card_insert_of_notMem h0, Nat.add_comm]

/-- The frames of the page tables and those of the live pages are the ones marked used. -/
theorem count_frame :
    Nat.count (fun p => bitSetAt s.frameBitmap p = true) 262144 = 257 + live.card := by
  have hset : (Finset.range 262144).filter (fun p => bitSetAt s.frameBitmap p = true) =
      Finset.range 257 ∪ live.image s.frameNum := by
    ext f
    rw [Finset.mem_filter, Finset.mem_range, Finset.mem_union, Finset.mem_range, Finset.mem_image]
    constructor
    · intro h
      exact (H.frame_used f h.1).mp h.2
    · intro h
      have hlt : f < 262144 := by
        rcases h with h | ⟨p, hp, rfl⟩
        · omega
        · exact H.frame_lt p hp
      exact ⟨hlt, (H.frame_used f hlt).mpr h⟩
  have hdisj : Disjoint (Finset.range 257) (live.image s.frameNum) := by
    rw [Finset.disjoint_left]
    intro f hf hmem
    obtain ⟨p, hp, rfl⟩ := Finset.mem_image.mp hmem
    have := H.frame_reserved p hp
    rw [Finset.mem_range] at hf
    omega
  rw [Nat.count_eq_card_filter_range, hset, Finset.card_union_of_disjoint hdisj,
    Finset.card_range, Finset.card_image_of_injOn fun p hp q hq h => H.frame_inj p hp q hq h]

/-- A request is granted a free page and a free frame for each of its pages, or refused. -/
theorem nBitsAvailable_both {n : ℕ} (hn : 0 < n) :
    ∃ v f, nBitsAvailable s.virtualBitmap n = some v ∧ nBitsAvailable s.frameBitmap n = some f ∧
      (!v || !f) = decide (261887 < live.card + n) := by
  have hv := count_clear s.virtualBitmap 262144
  have hf := count_clear s.frameBitmap 262144
  rw [H.count_virtual] at hv
  rw [H.count_frame] at hf
  refine ⟨_, _, nBitsAvailable_eq hn, nBitsAvailable_eq hn, ?_⟩
  simp only [BITMAP_BITS]
  rw [Bool.eq_iff_iff, Bool.or_eq_true, Bool.not_eq_true', Bool.not_eq_true',
    decide_eq_false_iff_not, decide_eq_false_iff_not, decide_eq_true_eq]
  omega

end TableInv

/-! ## Pages of a heap -/

namespace Heap

theorem mem_pages {h : Heap} {b : Block} (hb : b ∈ h) {p : ℕ} (hp : p ∈ b.pages) : p ∈ h.pages :=
  List.mem_flatMap.mpr ⟨b, hb, hp⟩

@[simp] theorem pages_cons (b : Block) (h : Heap) :
    Heap.pages (b :: h) = b.pages ++ Heap.pages h := rfl

/-- A page belongs to one allocation. -/
theorem eq_of_mem_pages {h : Heap} (hnodup : h.pages.Nodup) {b b' : Block} (hb : b ∈ h)
    (hb' : b' ∈ h) {p : ℕ} (hp : p ∈ b.pages) (hp' : p ∈ b'.pages) : b = b' := by
  induction h with
  | nil => exact absurd hb List.not_mem_nil
  | cons c h ih =>
    rw [pages_cons, List.nodup_append] at hnodup
    obtain ⟨-, hrest, hdisj⟩ := hnodup
    rcases List.mem_cons.mp hb with hbc | hb₁ <;> rcases List.mem_cons.mp hb' with hbc' | hb₂
    · rw [hbc, hbc']
    · exact absurd rfl (hdisj p (hbc ▸ hp) p (mem_pages hb₂ hp'))
    · exact absurd rfl (hdisj p (hbc' ▸ hp') p (mem_pages hb₁ hp))
    · exact ih hrest hb₁ hb₂

theorem nodup_block {h : Heap} (hnodup : h.pages.Nodup) {b : Block} (hb : b ∈ h) :
    b.pages.Nodup :=
  (List.nodup_flatMap.mp hnodup).1 b hb

end Heap

/-! ## Allocation -/

theorem pagesRequested_pos {n : ℕ} (hn : n ≠ 0) : 0 < pagesRequested n := by
  simp only [pagesRequested, PAYLOAD_BYTES, PGSIZE, WORD_BYTES]
  split <;> omega

theorem firstPage_eq {ps : List ℕ} (hps : ps ≠ []) (hpos : ∀ p ∈ ps, 0 < p) (fa : ℕ → ℕ) :
    firstPage (ps.map fun p => (4096 * p, fa p)) = headVa ps := by
  cases ps with
  | nil => exact absurd rfl hps
  | cons p ps =>
    have hne : 4096 * p ≠ 0 := by
      have := hpos p List.mem_cons_self
      omega
    simp only [firstPage, List.map_cons, List.find?_cons, hne, ne_eq, not_false_eq_true,
      decide_true, headVa, Option.getD_some]

/-- A request that is granted yields a chain of fresh, cleared pages. -/
theorem tMalloc_granted {s : Vm} {live : Finset ℕ} (H : PageInv s live)
    (hlock : s.libraryLock = false) {n : UInt32} (hn : n ≠ 0)
    (hfit : live.card + pagesRequested n.toNat ≤ 1023) :
    ∃ (ps : List ℕ) (s' : Vm), tMalloc s n = some (headVa ps, s') ∧
      ps.length = pagesRequested n.toNat ∧ ps.Nodup ∧ (∀ p ∈ ps, 0 < p ∧ p ∉ live) ∧
      PageInv s' (live ∪ ps.toFinset) ∧ s'.libraryLock = false ∧ Linked s' ps ∧
      s'.image ps = List.replicate (4092 * ps.length) 0 ∧ ∀ q ∈ live, SamePage s s' q := by
  have hn' : n.toNat ≠ 0 := fun h => hn (UInt32.toNat_inj.mp h)
  have hpos := pagesRequested_pos hn'
  let s₁ : Vm := { s with libraryLock := true }
  have H₁ : PageInv s₁ live := H.setLock true
  obtain ⟨v, f, hv, hf, hvf⟩ := H₁.nBitsAvailable_both hpos
  obtain ⟨ps, s₂, hmap, hlen, hsorted, hnew, -, H₂, hlock₂, hzero, hkept₂⟩ :=
    mapPages_spec H₁ (n := pagesRequested n.toNat) (by omega)
  have hlive₂ : ∀ p ∈ ps, p ∈ live ∪ ps.toFinset := fun p hp =>
    Finset.mem_union_right _ (List.mem_toFinset.mpr hp)
  have hnodup : ps.Nodup := hsorted.imp fun h => Nat.ne_of_lt h
  have hlinks : ∀ p ∈ ps, s₂.link p = 0 := fun p hp =>
    Bytes.loadLE_of_zero fun x h₁ h₂ => hzero p hp x h₁ (by omega)
  obtain ⟨s₃, hlink, H₃, hlock₃, hlinked, hpay, hkept₃⟩ :=
    linkPages_spec H₂ hlive₂ hnodup hlinks fun _ _ => rfl
  have hold : ∀ q ∈ live, q ∉ ps := fun q hq hmem => (hnew q hmem).2 hq
  refine ⟨ps, { s₃ with libraryLock := false }, ?_, hlen, hnodup, hnew, H₃.setLock false, rfl,
    hlinked.setLock false, ?_, ?_⟩
  · have hne : ps ≠ [] := by
      rintro rfl
      rw [List.length_nil] at hlen
      omega
    have hfalse : (!v || !f) = false := by
      rw [hvf, decide_eq_false_iff_not]
      omega
    have hunlock : s₃.unlock = some { s₃ with libraryLock := false } :=
      Vm.unlock_eq (by rw [hlock₃, hlock₂])
    rw [tMalloc, Vm.lock_eq hlock, Option.bind_eq_bind, Option.bind_some, if_neg hn]
    simp only [Option.bind_eq_bind]
    rw [hv, Option.bind_some, hf, Option.bind_some, hfalse, if_neg Bool.false_ne_true, hmap,
      Option.bind_some, hlink, Option.bind_some, hunlock, Option.bind_some,
      firstPage_eq hne fun p hp => (hnew p hp).1]
  · have himage : s₃.image ps = s₂.image ps := by
      simp only [Vm.image]
      exact List.flatMap_congr hpay
    change s₃.image ps = _
    rw [himage, image_zero hzero]
  · intro q hq
    have hmapped := (SamePage.setLock s true q).trans (hkept₂ q hq)
    have hlinked := hkept₃ q (Finset.mem_union_left _ hq) (hold q hq)
    exact (hmapped.trans hlinked).trans (SamePage.setLock s₃ false q)

/-- A request for no bytes, or for more pages than are left, is refused. -/
theorem tMalloc_refused {s : Vm} {live : Finset ℕ} (H : PageInv s live)
    (hlock : s.libraryLock = false) {n : UInt32}
    (hn : n = 0 ∨ 261887 < live.card + pagesRequested n.toNat) : tMalloc s n = some (0, s) := by
  have hunlock : ({ s with libraryLock := true } : Vm).unlock = some s := by
    rw [Vm.unlock_eq rfl, ← hlock]
  rw [tMalloc, Vm.lock_eq hlock, Option.bind_eq_bind, Option.bind_some]
  by_cases h0 : n = 0
  · rw [if_pos h0, hunlock, Option.bind_some]
  · have hn' : n.toNat ≠ 0 := fun h => h0 (UInt32.toNat_inj.mp h)
    obtain ⟨v, f, hv, hf, hvf⟩ := (H.setLock true).nBitsAvailable_both (pagesRequested_pos hn')
    have htrue : (!v || !f) = true := by
      rw [hvf, decide_eq_true_eq]
      exact hn.resolve_left h0
    rw [if_neg h0]
    simp only [Option.bind_eq_bind]
    rw [hv, Option.bind_some, hf, Option.bind_some, htrue, if_pos rfl, hunlock, Option.bind_some]

/-! ## Walks from inside a chain -/

theorem pagesRequested_le_iff {n k : ℕ} : pagesRequested n ≤ k ↔ n ≤ 4092 * k := by
  simp only [pagesRequested, PAYLOAD_BYTES, PGSIZE, WORD_BYTES]
  split <;> omega

theorem toSizeT_natCast {n : ℕ} (hn : n < 2 ^ 32) : toSizeT n = n := by
  simp only [toSizeT]
  omega

/-- A size with the offset in the page added, and taken off again. -/
theorem toSizeT_offset {n : ℕ} (hn : n < 2 ^ 31) (va : ℕ) :
    toSizeT ((n : ℤ) + (va % 4096 : ℕ)) = n + va % 4096 ∧
      toSizeT (((n + va % 4096 : ℕ) : ℤ) - (va % 4096 : ℕ)) = n := by
  simp only [toSizeT]
  omega

theorem Linked.append_right {s : Vm} {pre suf : List ℕ} (h : Linked s (pre ++ suf)) :
    Linked s suf := by
  induction pre with
  | nil => exact h
  | cons p pre ih => exact ih h.2

theorem Vm.image_append (s : Vm) (ps qs : List ℕ) :
    s.image (ps ++ qs) = s.image ps ++ s.image qs := List.flatMap_append

/-- The chain from the page of `va` on. -/
theorem exists_suffix {ps : List ℕ} (hnodup : ps.Nodup) {va : ℕ} (hva : pageOf va ∈ ps) :
    ∃ pre suf, ps = pre ++ suf ∧ PointsTo va suf ∧ pre.length = ps.idxOf (pageOf va) := by
  obtain ⟨pre, suf, rfl⟩ := List.append_of_mem hva
  refine ⟨pre, pageOf va :: suf, rfl, rfl, ?_⟩
  have hnot : pageOf va ∉ pre := fun h =>
    (List.nodup_append.mp hnodup).2.2 _ h _ List.mem_cons_self rfl
  rw [List.idxOf_append_of_notMem hnot, List.idxOf_cons_self, Nat.add_zero]

/-- `put_value` overwrites a slice of the chain, or fails without a change. -/
theorem putValue_chain {s : Vm} {live : Finset ℕ} (H : PageInv s live)
    (hlock : s.libraryLock = false) {ps : List ℕ} (hlive : ∀ p ∈ ps, p ∈ live)
    (hnodup : ps.Nodup) (hlinked : Linked s ps) {va : ℕ} (hva : PointsTo va ps) {n : ℕ}
    (hpos : 0 < n) (hn : n < 2 ^ 31) (hshort : ps.length ≤ 1023) {val : List UInt8}
    (hval : n ≤ val.length) :
    ∃ s', PageInv s' live ∧ s'.libraryLock = false ∧
      (∀ q ∈ live, s'.frameAddr q = s.frameAddr q) ∧
      (∀ q ∈ live, q ∉ ps → SamePage s s' q) ∧
      if va % 4096 + n ≤ 4092 * ps.length then
        putValue s va val n = some (0, s') ∧ (∀ p ∈ ps, s'.link p = s.link p) ∧
          s'.image ps = splice (s.image ps) (va % 4096) (val.take n)
      else putValue s va val n = some (-1, s') ∧ ∀ q ∈ live, SamePage s s' q := by
  obtain ⟨hsize, hback⟩ := toSizeT_offset hn va
  obtain ⟨s₁, hwalk, hsame, H₁⟩ := validPages_spec (H.setLock true) hlive (hlinked.setLock true) hva
    (pagesRequested (n + va % 4096))
  have hkept : ∀ q, SamePage s s₁ q := fun q => (SamePage.setLock s true q).trans (hsame.samePage q)
  have hlock₁ : s₁.libraryLock = true := hsame.libraryLock_eq
  by_cases hfit : va % 4096 + n ≤ 4092 * ps.length
  · have hok : decide (pagesRequested (n + va % 4096) ≤ ps.length) = true := by
      rw [decide_eq_true_eq, pagesRequested_le_iff]
      omega
    obtain ⟨s₂, hput, H₂, htable, hlinks, himage, hother, -⟩ :=
      putValueAux_spec H₁ hlive hnodup (hlinked.congr fun p _ => (hkept p).link_eq).trail hva hpos
        hval hfit
        (show ps.length < STACK_FRAMES by simp only [STACK_FRAMES]; omega)
    refine ⟨{ s₂ with libraryLock := false }, H₂.setLock false, rfl, ?_, ?_, ?_⟩
    · intro q hq
      exact (htable.frameAddr_eq (H.live_lt q hq)).trans (hkept q).frameAddr_eq
    · intro q hq hqp
      exact ((hkept q).trans (hother q hq hqp)).trans (SamePage.setLock s₂ false q)
    · rw [if_pos hfit]
      refine ⟨?_, ?_, ?_⟩
      · rw [putValue, Vm.lock_eq hlock, Option.bind_eq_bind, Option.bind_some]
        simp only [byteOffset_extractFrom, hsize, hback, Option.bind_eq_bind]
        rw [hwalk, Option.bind_some, hok]
        simp only [Bool.not_true, Bool.false_eq_true, if_false]
        rw [hput, Option.bind_some, Vm.unlock_eq (htable.libraryLock_eq.trans hlock₁),
          Option.bind_some]
      · intro p hp
        calc Vm.link { s₂ with libraryLock := false } p = s₂.link p := rfl
          _ = s₁.link p := hlinks p hp
          _ = s.link p := (hkept p).link_eq
      · calc Vm.image { s₂ with libraryLock := false } ps = s₂.image ps := rfl
          _ = splice (s₁.image ps) (va % 4096) (val.take n) := himage
          _ = splice (s.image ps) (va % 4096) (val.take n) := by
            rw [image_congr fun p _ => hkept p]
  · have hbad : decide (pagesRequested (n + va % 4096) ≤ ps.length) = false := by
      rw [decide_eq_false_iff_not, pagesRequested_le_iff]
      omega
    have hkept' : ∀ q, SamePage s { s₁ with libraryLock := false } q := fun q =>
      (hkept q).trans (SamePage.setLock s₁ false q)
    refine ⟨{ s₁ with libraryLock := false }, H₁.setLock false, rfl,
      fun q _ => (hkept' q).frameAddr_eq, fun q _ _ => hkept' q, ?_⟩
    rw [if_neg hfit]
    refine ⟨?_, fun q _ => hkept' q⟩
    rw [putValue, Vm.lock_eq hlock, Option.bind_eq_bind, Option.bind_some]
    simp only [byteOffset_extractFrom, hsize, Option.bind_eq_bind]
    rw [hwalk, Option.bind_some, hbad]
    simp only [Bool.not_false, if_true]
    rw [Vm.unlock_eq hlock₁, Option.bind_some]

/-- `get_value` reads a slice of the chain, and changes only the translation cache. -/
theorem getValue_chain {s : Vm} {live : Finset ℕ} (H : PageInv s live)
    (hlock : s.libraryLock = false) {ps : List ℕ} (hlive : ∀ p ∈ ps, p ∈ live)
    (hlinked : Linked s ps) {va : ℕ} (hva : PointsTo va ps) {n : ℕ} (hpos : 0 < n)
    (hshort : ps.length ≤ 1023) (hfit : va % 4096 + n ≤ 4092 * ps.length) :
    ∃ s', getValue s va n = some (((s.image ps).drop (va % 4096)).take n, s') ∧
      PageInv s' live ∧ s'.libraryLock = false ∧ ∀ q, SamePage s s' q := by
  obtain ⟨hsize, hback⟩ := toSizeT_offset (n := n) (by omega) va
  obtain ⟨s₁, hwalk, hsame, H₁⟩ := validPages_spec (H.setLock true) hlive (hlinked.setLock true) hva
    (pagesRequested (n + va % 4096))
  have hkept : ∀ q, SamePage s s₁ q := fun q => (SamePage.setLock s true q).trans (hsame.samePage q)
  have hok : decide (pagesRequested (n + va % 4096) ≤ ps.length) = true := by
    rw [decide_eq_true_eq, pagesRequested_le_iff]
    omega
  obtain ⟨s₂, hget, H₂, hsame₂⟩ :=
    getValueAux_spec H₁ hlive (hlinked.congr fun p _ => (hkept p).link_eq) hva hpos hfit
      (show ps.length < STACK_FRAMES by simp only [STACK_FRAMES]; omega)
  have hlock₂ : s₂.libraryLock = true := hsame₂.libraryLock_eq.trans hsame.libraryLock_eq
  refine ⟨{ s₂ with libraryLock := false }, ?_, H₂.setLock false, rfl, ?_⟩
  · rw [getValue, Vm.lock_eq hlock, Option.bind_eq_bind, Option.bind_some]
    simp only [byteOffset_extractFrom, hsize, hback, Option.bind_eq_bind]
    rw [hwalk, Option.bind_some, hok]
    simp only [Bool.not_true, Bool.false_eq_true, if_false, Option.bind_some]
    rw [hget, Option.bind_some, Vm.unlock_eq hlock₂, Option.bind_some,
      image_congr fun p _ => hkept p]
  · intro q
    exact ((hkept q).trans (hsame₂.samePage q)).trans (SamePage.setLock s₂ false q)

/-- `t_free` of a whole chain gives its pages back. -/
theorem tFree_chain {s : Vm} {live : Finset ℕ} (H : PageInv s live)
    (hlock : s.libraryLock = false) {ps : List ℕ} (hne : ps ≠ []) (hlive : ∀ p ∈ ps, p ∈ live)
    (hnodup : ps.Nodup) (hlinked : Linked s ps) (hshort : ps.length ≤ 1023) {n : ℕ}
    (hn : ps.length = pagesRequested n) :
    ∃ s', tFree s (headVa ps) n = some s' ∧ PageInv s' (live \ ps.toFinset) ∧
      s'.libraryLock = false ∧ ∀ q ∈ live, q ∉ ps → SamePage s s' q := by
  have hbound : n ≤ 4092 * ps.length := pagesRequested_le_iff.mp hn.ge
  have hsize : toSizeT n = n := toSizeT_natCast (by omega)
  have hzero : (n : ℤ) ≠ 0 := by
    intro h
    have h0 : n = 0 := by omega
    rw [h0] at hn
    exact hne (List.eq_nil_of_length_eq_zero hn)
  obtain ⟨s₁, hwalk, hsame, H₁⟩ := validPages_spec (H.setLock true) hlive (hlinked.setLock true)
    (pointsTo_headVa ps) ps.length
  have hkept : ∀ q, SamePage s s₁ q := fun q => (SamePage.setLock s true q).trans (hsame.samePage q)
  obtain ⟨s₂, hfree, H₂, hlock₂, -, hother, -⟩ := tFreeAux_spec H₁ hlive hnodup
    (hlinked.congr fun p _ => (hkept p).link_eq).trail (pointsTo_headVa ps).head
  have hunlock : s₂.unlock = some { s₂ with libraryLock := false } :=
    Vm.unlock_eq (hlock₂.trans hsame.libraryLock_eq)
  refine ⟨{ s₂ with libraryLock := false }, ?_, H₂.setLock false, rfl, ?_⟩
  · rw [tFree, if_neg hzero, Vm.lock_eq hlock, Option.bind_eq_bind, Option.bind_some, hsize, ← hn]
    simp only [Option.bind_eq_bind]
    rw [hwalk, Option.bind_some, decide_eq_true le_rfl]
    simp only [if_true]
    rw [hfree, Option.bind_some, hunlock]
  · intro q hq hqp
    exact ((hkept q).trans (hother q hq hqp)).trans (SamePage.setLock s₂ false q)

/-! ## Reads that fail -/

/-- A lookup changes only the translation cache and its counters. -/
theorem translate_cache {s s' : Vm} {va cell : ℕ} (h : translate s va = some (cell, s')) :
    ∃ cache misses lookups,
      s' = { s with tlbCache := cache, tlbMisses := misses, tlbLookups := lookups } := by
  cases translate_some h with
  | unused _ => exact ⟨_, _, _, rfl⟩
  | hit _ _ => exact ⟨_, _, _, rfl⟩
  | miss _ _ _ _ _ => exact ⟨_, _, _, rfl⟩
  | absent _ _ _ => exact ⟨_, _, _, rfl⟩

theorem translate_lock {s s' : Vm} {va cell : ℕ} (h : translate s va = some (cell, s')) :
    s'.libraryLock = s.libraryLock := by
  obtain ⟨cache, misses, lookups, rfl⟩ := translate_cache h
  rfl

theorem getValueAux_lock {fuel start n : ℕ} {s s' : Vm} {bytes : List UInt8}
    (h : getValueAux fuel start n s = some (bytes, s')) : s'.libraryLock = s.libraryLock := by
  induction fuel generalizing start n s s' bytes with
  | zero => cases h
  | succ fuel ih =>
    rw [getValueAux] at h
    split at h
    · rw [← (Prod.mk.inj (Option.some.inj h)).2]
    · simp only [Option.bind_eq_bind, Option.bind_eq_some_iff] at h
      obtain ⟨⟨cell, s₁⟩, htr, pa, -, next, -, h⟩ := h
      have hlock := translate_lock htr
      split at h
      · rw [ih h, hlock]
      · split at h
        · obtain ⟨out, -, h⟩ := Option.bind_eq_some_iff.mp h
          rw [← (Prod.mk.inj (Option.some.inj h)).2, hlock]
        · simp only [Option.bind_eq_some_iff] at h
          obtain ⟨out, -, ⟨rest, s₂⟩, hrec, h⟩ := h
          obtain ⟨-, rfl⟩ := Prod.mk.inj (Option.some.inj h)
          exact (ih hrec).trans hlock

/-- A read that fails its check releases the lock twice. -/
theorem getValue_of_invalid {s s₁ : Vm} (hlock : s.libraryLock = false) {va : ℕ} {n : ℤ}
    (hwalk : validPagesLinkedTogetherFrom (pagesRequested (toSizeT (n + (va % 4096 : ℕ)))) va
      { s with libraryLock := true } = some (false, s₁)) (hlock₁ : s₁.libraryLock = true) :
    getValue s va n = none := by
  rw [getValue, Vm.lock_eq hlock, Option.bind_eq_bind, Option.bind_some]
  simp only [byteOffset_extractFrom, Option.bind_eq_bind]
  rw [hwalk, Option.bind_some]
  simp only [Bool.not_false, if_true]
  rw [Vm.unlock_eq hlock₁, Option.bind_some, Option.bind_eq_none_iff]
  intro out hget
  have hfree : out.2.libraryLock = false := getValueAux_lock hget
  rw [Vm.unlock, hfree, if_neg Bool.false_ne_true, Option.bind_none]

end UserLevelOs.Memory
