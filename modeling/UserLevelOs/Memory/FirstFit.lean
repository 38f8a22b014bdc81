import UserLevelOs.Lib.FirstFit
import UserLevelOs.Memory.Reserved
import Mathlib.Algebra.Order.Floor.Div

/-!
# First-fit allocation

`t_malloc` counts the clear bits of both bitmaps and then takes the lowest clear bit of each,
once a page.  The counting scan and the searching scan see the same bits, so a request that was
let through never runs out.

Nothing here needs the table to be sound: it is enough that the directory entries point at
frames, so that every cell a walk leads to lies in the block.

## Main definitions

* `Vm.clearPages`, `Vm.clearFrames` — the clear bits of the two bitmaps.
* `Walkable` — what the walks of the table rely on.
* `Granted`, `FirstFit`.

## Main statements

* `mapPage_firstFit`, `mapPages_firstFit` — the loop takes the bits from the front.
* `tMalloc_firstFit`.
* `setPhysicalMem_walkable` — it holds of the fresh library.
-/

namespace UserLevelOs.Memory

open UserLevelOs.Lib

/-- The pages whose bit is clear, in ascending order. -/
def Vm.clearPages (s : Vm) : List ℕ := clearBelow (bitSetAt s.virtualBitmap) BITMAP_BITS

/-- The frames whose bit is clear, in ascending order. -/
def Vm.clearFrames (s : Vm) : List ℕ := clearBelow (bitSetAt s.frameBitmap) BITMAP_BITS

/-- `a` is the address of a frame of the block. -/
def Vm.IsFrame (s : Vm) (a : ℕ) : Prop := ∃ f < BITMAP_BITS, a = s.vmStart.addr + PGSIZE * f

/-- `a` is the address of a word of the block. -/
def Vm.IsWord (s : Vm) (a : ℕ) : Prop := ∃ w < 2 ^ 28, a = s.vmStart.addr + WORD_BYTES * w

/-- Every entry of the directory points at a frame, and the cached translations are cells. -/
structure Walkable (s : Vm) : Prop where
  ptbr_eq : s.ptbr = s.vmStart.addr
  entry : ∀ d < 256, s.IsFrame (s.memory.loadLE (s.ptbr + 4 * d) 4)
  cache : CacheWith (fun e => s.IsWord e.frame) s.tlbCache

variable {s s' : Vm} {p f cell va : ℕ} {ps fs : List ℕ}

/-! ## The two scans -/

theorem firstAvailablePosition_cons {b : Bytes}
    (h : clearBelow (bitSetAt b) BITMAP_BITS = p :: ps) : firstAvailablePosition b = p := by
  obtain ⟨hlt, hclear, hset, -⟩ := clearBelow_eq_cons h
  exact firstAvailablePosition_eq hlt hclear hset

theorem clearBelow_set {b : Bytes} (h : clearBelow (bitSetAt b) BITMAP_BITS = p :: ps) :
    clearBelow (bitSetAt (Bitmap.set .msbFirst b p)) BITMAP_BITS = ps := by
  obtain ⟨-, -, -, hrest⟩ := clearBelow_eq_cons h
  simpa [funext (bitSetAt_set b p)] using hrest

theorem nBitsAvailable_length {b : Bytes} {n : ℕ} (hn : 0 < n) :
    nBitsAvailable b n =
      some (decide (n ≤ (clearBelow (bitSetAt b) BITMAP_BITS).length)) := by
  rw [nBitsAvailable_eq hn, length_clearBelow]

theorem pagesRequested_eq_ceilDiv (n : ℕ) : pagesRequested n = n ⌈/⌉ PAYLOAD_BYTES := by
  rw [Nat.ceilDiv_eq_add_pred_div]
  simp only [pagesRequested, PAYLOAD_BYTES, PGSIZE, WORD_BYTES]
  split <;> omega

/-! ## Walks -/

namespace Walkable

theorem isWord_owns (h : s.IsWord cell) : s.Owns cell 4 := by
  obtain ⟨w, hw, rfl⟩ := h
  simp only [Vm.Owns, MEMSIZE, WORD_BYTES]
  omega

/-- The walk to a page in use leads to a word of the block. -/
theorem fetch (W : Walkable s) (hused : usedVa s va = true) :
    ∃ cell, fetchPteFrom s va = some cell ∧ s.IsWord cell := by
  have hfit := s.vmStart.addr_fits
  have hbase := W.ptbr_eq
  simp only [MEMSIZE] at hfit
  obtain ⟨f, hf, hentry⟩ := W.entry (pageOf va / 1024 % 256) (by omega)
  have hf : f < 262144 := hf
  have hown : s.Owns (s.ptbr + 4 * (pageOf va / 1024 % 256)) 4 := by
    simp only [Vm.Owns, MEMSIZE]
    omega
  refine ⟨s.vmStart.addr + 4 * (1024 * f + pageOf va % 1024), ?_, 1024 * f + pageOf va % 1024,
    by omega, rfl⟩
  simp only [fetchPteFrom, hused, Bool.not_true, Bool.false_eq_true, if_false,
    pdeOffset_extractFrom, pteOffset_extractFrom, Vm.loadWord, if_pos hown, hentry,
    Option.bind_eq_bind, Option.bind_some, Option.some.injEq, PGSIZE, WORD_BYTES]
  omega

/-- A page in use translates to a word of the block, and only the cache notices. -/
theorem translate (W : Walkable s) (hused : usedVa s va = true) :
    ∃ cell s', Memory.translate s va = some (cell, s') ∧ s.IsWord cell ∧ SameStore s s' ∧
      CacheWith (fun e => s.IsWord e.frame) s'.tlbCache := by
  obtain ⟨w, hfetch, hw⟩ := W.fetch hused
  have hne : w ≠ 0 := by
    obtain ⟨k, -, rfl⟩ := hw
    have := s.vmStart.addr_pos
    omega
  obtain ⟨e, cache, misses, lookups, htr, he, -, hcache⟩ :=
    W.cache.translate_spec hused hfetch hne hw
  exact ⟨e.frame, _, htr, he, SameStore.of_cache s cache misses lookups, hcache⟩

/-- Entering a frame at a word of the block leaves the entries of the directory pointing at
frames, also where that word is one of them. -/
theorem enter (W : Walkable s) (hstart : s'.vmStart = s.vmStart) (hptbr : s'.ptbr = s.ptbr)
    (hcache : CacheWith (fun e => s.IsWord e.frame) s'.tlbCache) (hcell : s.IsWord cell)
    (hres : 257 ≤ f) (hf : f < 262144)
    (hmemory : s'.memory = (s.memory.fill (s.vmStart.addr + 4096 * f) 4096 0).storeLE cell 4
      (s.vmStart.addr + 4096 * f)) : Walkable s' := by
  have hfit := s.vmStart.addr_fits
  have hbase := W.ptbr_eq
  simp only [MEMSIZE] at hfit
  have hframe : ∀ a, s.IsFrame a → s'.IsFrame a := by
    simp only [Vm.IsFrame, hstart]
    exact fun a h => h
  refine ⟨by rw [hptbr, hstart, hbase], ?_, ?_⟩
  · intro d hd
    apply hframe
    rw [hptbr, hmemory]
    obtain ⟨w, -, rfl⟩ := hcell
    by_cases heq : w = d
    · refine ⟨f, hf, ?_⟩
      rw [hbase, heq, Bytes.loadLE_storeLE_same]
      simp only [PGSIZE]
      omega
    · rw [Bytes.loadLE_storeLE_of_disjoint (by simp only [WORD_BYTES]; omega)]
      have hkept : (s.memory.fill (s.vmStart.addr + 4096 * f) 4096 0).loadLE (s.ptbr + 4 * d) 4 =
          s.memory.loadLE (s.ptbr + 4 * d) 4 :=
        Bytes.loadLE_congr fun x _ hx => Bytes.fill_apply_of_notMem (Or.inl (by omega))
      rw [hkept]
      exact W.entry d hd
  · simpa only [Vm.IsWord, hstart] using hcache

end Walkable

/-! ## The mapping loop -/

/-- Between `s` and `s'` the bits of `ps` and of `fs` were set, and no others. -/
structure Took (s : Vm) (ps fs : List ℕ) (s' : Vm) : Prop where
  vmStart_eq : s'.vmStart = s.vmStart
  libraryLock_eq : s'.libraryLock = s.libraryLock
  walkable : Walkable s'
  page : ∀ q, bitSetAt s'.virtualBitmap q = (decide (q ∈ ps) || bitSetAt s.virtualBitmap q)
  frame : ∀ g, bitSetAt s'.frameBitmap g = (decide (g ∈ fs) || bitSetAt s.frameBitmap g)

namespace Took

theorem nil (W : Walkable s) : Took s [] [] s := ⟨rfl, rfl, W, by simp, by simp⟩

theorem append {s₁ : Vm} {ps' fs' : List ℕ} (h : Took s ps fs s₁) (h' : Took s₁ ps' fs' s') :
    Took s (ps ++ ps') (fs ++ fs') s' where
  vmStart_eq := h'.vmStart_eq.trans h.vmStart_eq
  libraryLock_eq := h'.libraryLock_eq.trans h.libraryLock_eq
  walkable := h'.walkable
  page := by
    intro q
    rw [h'.page, h.page, ← Bool.or_assoc, Bool.or_comm (decide (q ∈ ps'))]
    simp
  frame := by
    intro g
    rw [h'.frame, h.frame, ← Bool.or_assoc, Bool.or_comm (decide (g ∈ fs'))]
    simp

theorem reserved (h : Took s ps fs s') (R : Reserved s) : Reserved s' where
  page := by simp [h.page, R.page]
  frame := by
    intro f hf
    simp [h.frame, R.frame f hf]

end Took

/-- One turn takes the first clear bit of each bitmap. -/
theorem mapPage_firstFit (W : Walkable s) (R : Reserved s) (hp : s.clearPages = p :: ps)
    (hf : s.clearFrames = f :: fs) :
    ∃ s', mapPage s = some ((4096 * p, s.vmStart.addr + 4096 * f), s') ∧ Took s [p] [f] s' ∧
      s'.clearPages = ps ∧ s'.clearFrames = fs := by
  obtain ⟨hlt, hclear, -, -⟩ := clearBelow_eq_cons hp
  obtain ⟨hflt, hfclear, -, -⟩ := clearBelow_eq_cons hf
  have hlt : p < 262144 := hlt
  have hflt : f < 262144 := hflt
  have hres : 257 ≤ f := by
    by_contra hle
    have hset := R.frame f (show f ≤ 256 by omega)
    rw [hfclear] at hset
    cases hset
  have hpage : pageOf (4096 * p) = p := by rw [pageOf_eq]; omega
  have W₃ : Walkable (s.taken p f) := by
    refine ⟨W.ptbr_eq, fun d hd => ?_, W.cache⟩
    have hbase := W.ptbr_eq
    have hkept : (s.taken p f).memory.loadLE ((s.taken p f).ptbr + 4 * d) 4 =
        s.memory.loadLE (s.ptbr + 4 * d) 4 := by
      refine Bytes.loadLE_congr fun x _ hx => Bytes.fill_apply_of_notMem (Or.inl ?_)
      change x < s.ptbr + 4 * d + 4 at hx
      omega
    rw [hkept]
    exact W.entry d hd
  have hused : usedVa (s.taken p f) (4096 * p) = true := by
    rw [usedVa, Bool.and_eq_true, isValidVa_iff, hpage]
    exact ⟨hlt, by simp [Vm.taken]⟩
  obtain ⟨cell, s₄, htr, hcell, hsame, hcache⟩ := W₃.translate hused
  have hcell : s.IsWord cell := hcell
  have hcache : CacheWith (fun e => s.IsWord e.frame) s₄.tlbCache := hcache
  have hown : s₄.Owns cell 4 := by
    rw [Vm.Owns, hsame.vmStart_eq]
    exact Walkable.isWord_owns hcell
  let s₅ : Vm := { s₄ with
    memory := s₄.memory.storeLE cell 4 (s.vmStart.addr + 4096 * f) }
  have hvirtual : s₅.virtualBitmap = Bitmap.set .msbFirst s.virtualBitmap p :=
    hsame.virtualBitmap_eq
  have hframe : s₅.frameBitmap = Bitmap.set .msbFirst s.frameBitmap f := hsame.frameBitmap_eq
  refine ⟨s₅, mapPage_some hlt hflt (firstAvailablePosition_cons hp)
    (firstAvailablePosition_cons hf) hclear htr hsame hown,
    ⟨hsame.vmStart_eq, hsame.libraryLock_eq, ?_, ?_, ?_⟩, ?_, ?_⟩
  · refine W.enter hsame.vmStart_eq hsame.ptbr_eq hcache hcell hres hflt ?_
    change s₄.memory.storeLE cell 4 _ = _
    rw [hsame.memory_eq]
    rfl
  · simp [hvirtual]
  · simp [hframe]
  · rw [Vm.clearPages, hvirtual]
    exact clearBelow_set hp
  · rw [Vm.clearFrames, hframe]
    exact clearBelow_set hf

/-- The loop takes the clear bits of both bitmaps from the front, in step. -/
theorem mapPages_firstFit (W : Walkable s) (R : Reserved s) {k : ℕ}
    (hp : k ≤ s.clearPages.length) (hf : k ≤ s.clearFrames.length) :
    ∃ s', mapPages k s = some (List.zipWith (fun p f => (4096 * p, s.vmStart.addr + 4096 * f))
        (s.clearPages.take k) (s.clearFrames.take k), s') ∧
      Took s (s.clearPages.take k) (s.clearFrames.take k) s' ∧
      s'.clearPages = s.clearPages.drop k ∧ s'.clearFrames = s.clearFrames.drop k := by
  induction k generalizing s with
  | zero => exact ⟨s, by simp [mapPages], by simpa using Took.nil W, by simp, by simp⟩
  | succ k ih =>
    cases hps : s.clearPages with
    | nil => simp [hps] at hp
    | cons p ps =>
      cases hfs : s.clearFrames with
      | nil => simp [hfs] at hf
      | cons f fs =>
        obtain ⟨s₁, hmap, htook, hps₁, hfs₁⟩ := mapPage_firstFit W R hps hfs
        have hp₁ : k ≤ s₁.clearPages.length := by simpa [hps, hps₁] using hp
        have hf₁ : k ≤ s₁.clearFrames.length := by simpa [hfs, hfs₁] using hf
        obtain ⟨s', hmaps, htooks, hps', hfs'⟩ := ih htook.walkable (htook.reserved R) hp₁ hf₁
        rw [hps₁] at hmaps htooks hps'
        rw [hfs₁] at hmaps htooks hfs'
        refine ⟨s', ?_, ?_, by simpa using hps', by simpa using hfs'⟩
        · simp [mapPages, hmap, hmaps, htook.vmStart_eq]
        · simpa using htook.append htooks

/-! ## The request -/

/-- The links are stored in the frames taken, which lie behind the directory. -/
theorem linkPages_frames {pages : List (ℕ × ℕ)}
    (hpages : ∀ page ∈ pages, ∃ f, 257 ≤ f ∧ f < 262144 ∧ page.2 = s.vmStart.addr + 4096 * f) :
    ∃ memory, linkPages pages s = some { s with memory } ∧
      ∀ x < s.vmStart.addr + 4096 * 257, memory x = s.memory x := by
  induction pages generalizing s with
  | nil => exact ⟨s.memory, rfl, fun x _ => rfl⟩
  | cons page pages ih =>
    cases pages with
    | nil => exact ⟨s.memory, rfl, fun x _ => rfl⟩
    | cons next pages =>
      obtain ⟨f, hres, hf, hpa⟩ := hpages page List.mem_cons_self
      let s₁ : Vm := { s with memory := s.memory.storeLE page.2 4 next.1 }
      have hown : s.Owns page.2 4 := by
        simp only [Vm.Owns, MEMSIZE]
        omega
      have hstore : s.storeWord page.2 next.1 = some s₁ := if_pos hown
      obtain ⟨memory, hlink, hkept⟩ := ih (s := s₁) fun q hq => hpages q (List.mem_cons_of_mem _ hq)
      refine ⟨memory, ?_, fun x hx => ?_⟩
      · change (s.storeWord page.2 next.1).bind _ = _
        rw [hstore]
        exact hlink
      · rw [hkept x hx]
        exact Bytes.storeLE_apply_of_notMem (Or.inl (by omega))

theorem Walkable.congr {b : Bool} {memory : Bytes} (W : Walkable s)
    (hkept : ∀ x < s.vmStart.addr + 4096 * 257, memory x = s.memory x) :
    Walkable { s with memory, libraryLock := b } where
  ptbr_eq := W.ptbr_eq
  entry := by
    intro d hd
    have hbase := W.ptbr_eq
    have hword : memory.loadLE (s.ptbr + 4 * d) 4 = s.memory.loadLE (s.ptbr + 4 * d) 4 :=
      Bytes.loadLE_congr fun x _ hx => hkept x (by omega)
    change s.IsFrame (memory.loadLE (s.ptbr + 4 * d) 4)
    rw [hword]
    exact W.entry d hd
  cache := W.cache

/-- A frame whose bit is clear is none of those set aside. -/
theorem Reserved.clearFrames_lt (R : Reserved s) (hf : f ∈ s.clearFrames) :
    257 ≤ f ∧ f < 262144 := by
  obtain ⟨hlt, hclear⟩ := mem_clearBelow.mp hf
  refine ⟨?_, hlt⟩
  by_contra hle
  have hset := R.frame f (show f ≤ 256 by omega)
  rw [hclear] at hset
  cases hset

/-- A request for bytes that finds a clear bit in either bitmap for each of its pages. -/
def Granted (s : Vm) (numBytes : UInt32) : Prop :=
  numBytes ≠ 0 ∧ numBytes.toNat ⌈/⌉ PAYLOAD_BYTES ≤ s.clearPages.length ∧
    numBytes.toNat ⌈/⌉ PAYLOAD_BYTES ≤ s.clearFrames.length

/-- The loop of `t_malloc`, entered with the lock held, takes the `k` lowest clear bits of both
bitmaps: before each turn the two scans find the next ones, and the turns pair them in ascending
order. -/
structure FirstFit (s : Vm) (k : ℕ) : Prop where
  turn : ∀ i < k, ∃ mapped sᵢ, mapPages i { s with libraryLock := true } = some (mapped, sᵢ) ∧
    s.clearPages[i]? = some (firstAvailablePosition sᵢ.virtualBitmap) ∧
    s.clearFrames[i]? = some (firstAvailablePosition sᵢ.frameBitmap) ∧
    firstAvailablePosition sᵢ.virtualBitmap ≠ MINUS_ONE ∧
    firstAvailablePosition sᵢ.frameBitmap ≠ MINUS_ONE
  mapped : ∃ s', mapPages k { s with libraryLock := true } = some
    (List.zipWith (fun p f => (PGSIZE * p, s.vmStart.addr + PGSIZE * f))
      (s.clearPages.take k) (s.clearFrames.take k), s')

theorem firstFit_of_length (W : Walkable s) (R : Reserved s) {k : ℕ}
    (hp : k ≤ s.clearPages.length) (hf : k ≤ s.clearFrames.length) : FirstFit s k := by
  have W₁ : Walkable { s with libraryLock := true } := W.congr (fun x _ => rfl)
  have R₁ : Reserved { s with libraryLock := true } := ⟨R.page, R.frame⟩
  have hloop := fun i (hi : i ≤ k) =>
    mapPages_firstFit W₁ R₁ (k := i) (le_trans hi hp) (le_trans hi hf)
  refine ⟨fun i hi => ?_, ?_⟩
  · obtain ⟨sᵢ, hmap, -, hps, hfs⟩ := hloop i (by omega)
    have hpi : i < s.clearPages.length := by omega
    have hfi : i < s.clearFrames.length := by omega
    have hps : sᵢ.clearPages = s.clearPages.drop i := hps
    have hfs : sᵢ.clearFrames = s.clearFrames.drop i := hfs
    rw [List.drop_eq_getElem_cons hpi] at hps
    rw [List.drop_eq_getElem_cons hfi] at hfs
    have hp₁ := (clearBelow_eq_cons hps).1
    have hf₁ := (clearBelow_eq_cons hfs).1
    simp only [BITMAP_BITS] at hp₁ hf₁
    refine ⟨_, sᵢ, hmap, ?_⟩
    rw [firstAvailablePosition_cons hps, firstAvailablePosition_cons hfs, MINUS_ONE]
    exact ⟨List.getElem?_eq_getElem hpi, List.getElem?_eq_getElem hfi, by omega, by omega⟩
  · obtain ⟨s', hmap, -⟩ := hloop k le_rfl
    exact ⟨s', hmap⟩

/-- The pages the loop returns start with the lowest clear one. -/
theorem firstPage_zipWith {a k : ℕ} (hps : ∀ p ∈ ps, 0 < p) (hp : k ≤ ps.length)
    (hf : k ≤ fs.length) :
    firstPage (List.zipWith (fun p f => (4096 * p, a + 4096 * f)) (ps.take k) (fs.take k)) =
      headVa (ps.take k) := by
  cases k with
  | zero => rfl
  | succ k =>
    cases ps with
    | nil => simp at hp
    | cons p ps =>
      cases fs with
      | nil => simp at hf
      | cons f fs =>
        have hpos := hps p List.mem_cons_self
        simp [firstPage, headVa, hpos.ne']

theorem frame_of_mem_zipWith {a : ℕ} {page : ℕ × ℕ}
    (h : page ∈ List.zipWith (fun p f => (4096 * p, a + 4096 * f)) ps fs) :
    ∃ f ∈ fs, page.2 = a + 4096 * f := by
  induction ps generalizing fs with
  | nil => simp at h
  | cons p ps ih =>
    cases fs with
    | nil => simp at h
    | cons f fs =>
      rw [List.zipWith_cons_cons, List.mem_cons] at h
      rcases h with rfl | h
      · exact ⟨f, by simp, rfl⟩
      · obtain ⟨g, hg, heq⟩ := ih h
        exact ⟨g, by simp [hg], heq⟩

theorem headVa_take_ne_zero {k : ℕ} (hps : ∀ p ∈ ps, 0 < p) (hpos : 0 < k) (hp : k ≤ ps.length) :
    headVa (ps.take k) ≠ 0 := by
  cases k with
  | zero => omega
  | succ k =>
    cases ps with
    | nil => simp at hp
    | cons p ps =>
      have hpos := hps p List.mem_cons_self
      simp only [List.take_succ_cons, headVa]
      omega

/-- Page 0 is never taken. -/
theorem Reserved.clearPages_pos (R : Reserved s) : ∀ p ∈ s.clearPages, 0 < p := by
  intro p hp
  obtain ⟨-, hclear⟩ := mem_clearBelow.mp hp
  apply Nat.pos_of_ne_zero
  rintro rfl
  rw [R.page] at hclear
  cases hclear

/-- `t_malloc` in every state of the two bitmaps: a request is refused, with nothing changed,
unless enough bits are clear in both; otherwise it is met from the lowest clear bits, no scan
runs out and no assertion fails. -/
theorem tMalloc_firstFit (W : Walkable s) (R : Reserved s) (hlock : s.libraryLock = false)
    (numBytes : UInt32) :
    (¬ Granted s numBytes → tMalloc s numBytes = some (0, s)) ∧
    (Granted s numBytes → FirstFit s (numBytes.toNat ⌈/⌉ PAYLOAD_BYTES) ∧
      ∃ s', tMalloc s numBytes =
          some (headVa (s.clearPages.take (numBytes.toNat ⌈/⌉ PAYLOAD_BYTES)), s') ∧
        headVa (s.clearPages.take (numBytes.toNat ⌈/⌉ PAYLOAD_BYTES)) ≠ 0 ∧
        Took s (s.clearPages.take (numBytes.toNat ⌈/⌉ PAYLOAD_BYTES))
          (s.clearFrames.take (numBytes.toNat ⌈/⌉ PAYLOAD_BYTES)) s') := by
  have hlocked := Vm.lock_eq hlock
  have hunlocked : ({ s with libraryLock := true } : Vm).unlock = some s := by
    rw [Vm.unlock_eq rfl, ← hlock]
  have hscans : numBytes ≠ 0 →
      nBitsAvailable s.virtualBitmap (pagesRequested numBytes.toNat) =
        some (decide (pagesRequested numBytes.toNat ≤ s.clearPages.length)) ∧
      nBitsAvailable s.frameBitmap (pagesRequested numBytes.toNat) =
        some (decide (pagesRequested numBytes.toNat ≤ s.clearFrames.length)) := by
    intro hne
    have hpos := pagesRequested_pos fun h => hne (UInt32.toNat_inj.mp h)
    exact ⟨nBitsAvailable_length hpos, nBitsAvailable_length hpos⟩
  simp only [Granted, ← pagesRequested_eq_ceilDiv]
  refine ⟨fun hno => ?_, fun ⟨hne, hp, hf⟩ => ?_⟩
  · rw [tMalloc, hlocked, Option.bind_eq_bind, Option.bind_some]
    by_cases h0 : numBytes = 0
    · rw [if_pos h0, hunlocked, Option.bind_some]
    · obtain ⟨hv, hf⟩ := hscans h0
      have hrefused : (!decide (pagesRequested numBytes.toNat ≤ s.clearPages.length) ||
          !decide (pagesRequested numBytes.toNat ≤ s.clearFrames.length)) = true := by
        rw [Bool.or_eq_true, Bool.not_eq_true', Bool.not_eq_true', decide_eq_false_iff_not,
          decide_eq_false_iff_not, ← not_and_or]
        exact fun h => hno ⟨h0, h⟩
      rw [if_neg h0]
      simp only [Option.bind_eq_bind]
      rw [hv, Option.bind_some, hf, Option.bind_some, hrefused, if_pos rfl, hunlocked,
        Option.bind_some]
  · refine ⟨firstFit_of_length W R hp hf, ?_⟩
    have hpos := pagesRequested_pos fun h => hne (UInt32.toNat_inj.mp h)
    have W₁ : Walkable { s with libraryLock := true } := W.congr (fun x _ => rfl)
    have R₁ : Reserved { s with libraryLock := true } := ⟨R.page, R.frame⟩
    obtain ⟨s₁, hmap, htook, -⟩ := mapPages_firstFit W₁ R₁ hp hf
    let mapped := List.zipWith (fun p f => (4096 * p, s.vmStart.addr + 4096 * f))
      (s.clearPages.take (pagesRequested numBytes.toNat))
      (s.clearFrames.take (pagesRequested numBytes.toNat))
    have hmap : mapPages (pagesRequested numBytes.toNat) { s with libraryLock := true } =
      some (mapped, s₁) := hmap
    have hframes : ∀ page ∈ mapped,
        ∃ f, 257 ≤ f ∧ f < 262144 ∧ page.2 = s₁.vmStart.addr + 4096 * f := by
      intro page hpage
      obtain ⟨f, hmem, hpa⟩ := frame_of_mem_zipWith hpage
      obtain ⟨hres, hlt⟩ := R.clearFrames_lt (List.mem_of_mem_take hmem)
      exact ⟨f, hres, hlt, by rw [htook.vmStart_eq, hpa]⟩
    obtain ⟨memory, hlink, hkept⟩ := linkPages_frames hframes
    let s₂ : Vm := { s₁ with memory }
    have hunlock : s₂.unlock = some { s₂ with libraryLock := false } :=
      Vm.unlock_eq htook.libraryLock_eq
    obtain ⟨hv, hfr⟩ := hscans hne
    refine ⟨{ s₂ with libraryLock := false }, ?_, headVa_take_ne_zero R.clearPages_pos hpos hp,
      htook.vmStart_eq, hlock.symm, htook.walkable.congr hkept, htook.page, htook.frame⟩
    rw [tMalloc, hlocked, Option.bind_eq_bind, Option.bind_some, if_neg hne]
    simp only [Option.bind_eq_bind]
    rw [hv, Option.bind_some, hfr, Option.bind_some, decide_eq_true hp, decide_eq_true hf,
      if_neg (by decide), hmap, Option.bind_some, hlink, Option.bind_some, hunlock,
      Option.bind_some, firstPage_zipWith R.clearPages_pos hp hf]

/-! ## The fresh library -/

/-- `set_physical_mem` leaves a state in which allocation is first-fit. -/
theorem setPhysicalMem_walkable {v : VmStart} (h : setPhysicalMem v = some s) :
    Walkable s ∧ Reserved s ∧ s.libraryLock = false := by
  obtain ⟨s', hinit, H, hlock, -, hcache, hentries⟩ := setPhysicalMem_spec v
  obtain rfl := Option.some.inj (h.symm.trans hinit)
  refine ⟨⟨H.ptbr_eq, fun d hd => ⟨0, by decide, ?_⟩, ?_⟩, H.toTableInv.reserved, hlock⟩
  · rw [hentries d hd, H.ptbr_eq, Nat.mul_zero, Nat.add_zero]
  · rw [hcache]
    exact ⟨rfl, by simp, by simp⟩

theorem length_clear_of_lt {b : Bytes} {k : ℕ} (hk : k ≤ BITMAP_BITS)
    (hbits : ∀ q < BITMAP_BITS, bitSetAt b q = true ↔ q < k) :
    (clearBelow (bitSetAt b) BITMAP_BITS).length = BITMAP_BITS - k := by
  have hclear := count_clear b BITMAP_BITS
  rw [count_lt_eq hk _ hbits] at hclear
  rw [length_clearBelow]
  omega

/-- `tMalloc_firstFit` for a first request of two pages. -/
theorem tMalloc_firstFit_fresh : ∃ (v : VmStart) (s s' : Vm), setPhysicalMem v = some s ∧
    tMalloc s 5000 = some (headVa (s.clearPages.take 2), s') ∧
    Took s (s.clearPages.take 2) (s.clearFrames.take 2) s' := by
  let v : VmStart := ⟨4096, by decide, by decide⟩
  obtain ⟨s, hinit, H, -⟩ := setPhysicalMem_spec v
  obtain ⟨W, R, hlock⟩ := setPhysicalMem_walkable hinit
  have htwo : (5000 : UInt32).toNat ⌈/⌉ PAYLOAD_BYTES = 2 := by
    rw [← pagesRequested_eq_ceilDiv]
    decide
  have hpages : s.clearPages.length = 262143 := by
    refine length_clear_of_lt (k := 1) (by decide) fun q hq => ?_
    rw [H.used_iff q hq]
    simp
  have hframes : s.clearFrames.length = 261887 := by
    refine length_clear_of_lt (k := 257) (by decide) fun q hq => ?_
    rw [H.frame_used q hq]
    simp
  have hgranted : Granted s 5000 := by
    rw [Granted, htwo, hpages, hframes]
    decide
  obtain ⟨-, s', hexec, -, htook⟩ := (tMalloc_firstFit W R hlock 5000).2 hgranted
  rw [htwo] at hexec htook
  exact ⟨v, s, s', hinit, hexec, htook⟩

end UserLevelOs.Memory
