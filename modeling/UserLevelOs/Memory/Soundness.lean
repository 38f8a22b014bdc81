import UserLevelOs.Memory.Simulation

/-!
# What the two-level table maps

The walk of `fetch_pte_from` should send distinct live pages to distinct cells, outside the
directory and outside the frames handed out.  Since the directory is its own first page
table, the cells of pages 1 to 255 are directory entries.

## Main definitions

* `Live`, `Walks`, `Maps` — a page in use, its cell, and its frame.
* `TableSound` — soundness of the table.
* `AllocRun` — runs of `t_malloc` and whole-allocation `t_free`, with the states visited.
* `tableSound_iff` — which states and which runs are sound.
-/

namespace UserLevelOs.Memory

open UserLevelOs.Lib

/-- Page `p` is handed out. -/
def Live (s : Vm) (p : ℕ) : Prop := 0 < p ∧ p < 262144 ∧ bitSetAt s.virtualBitmap p = true

/-- The walk of the table sends page `p` to cell `c`. -/
def Walks (s : Vm) (p c : ℕ) : Prop := fetchPteFrom s (4096 * p) = some c

/-- Page `p` is mapped to frame `f`. -/
def Maps (s : Vm) (p f : ℕ) : Prop :=
  f < 262144 ∧ ∃ c, Walks s p c ∧ s.loadWord c = some (s.vmStart.addr + 4096 * f)

/-- The cells of live pages are distinct and lie in no live frame, and each holds the
address of a frame marked used that no other live page maps. -/
structure CellsSound (s : Vm) : Prop where
  distinct : ∀ p q c, Live s p → Live s q → Walks s p c → Walks s q c → p = q
  notFrame : ∀ p q c f, Live s p → Live s q → Walks s p c → Maps s q f →
    c + 4 ≤ s.vmStart.addr + 4096 * f ∨ s.vmStart.addr + 4096 * f + 4096 ≤ c
  maps : ∀ p, Live s p → ∃ f, Maps s p f ∧ bitSetAt s.frameBitmap f = true
  frame_inj : ∀ p q f, Live s p → Live s q → Maps s p f → Maps s q f → p = q

/-- Soundness of the table: besides, no cell of a live page is a directory entry. -/
structure TableSound (s : Vm) : Prop extends CellsSound s where
  notDirectory : ∀ p c, Live s p → Walks s p c →
    c + 4 ≤ s.ptbr ∨ s.ptbr + 4 * 2 ^ pagingScheme.pageDir.toNat ≤ c

/-- Runs of `t_malloc` and `t_free` of live allocations: the states visited, latest first,
the sizes asked for, and the allocations that are live. -/
inductive AllocRun (v : VmStart) : List Vm → List UInt32 → List (ℕ × ℕ) → Prop
  | start {s : Vm} (h : setPhysicalMem v = some s) : AllocRun v [s] [] []
  | malloc {s s' : Vm} {past : List Vm} {sizes : List UInt32} {allocs : List (ℕ × ℕ)}
      {n : UInt32} {va : ℕ} (hrun : AllocRun v (s :: past) sizes allocs)
      (hexec : tMalloc s n = some (va, s')) :
      AllocRun v (s' :: s :: past) (n :: sizes)
        (if va = 0 then allocs else (va, n.toNat) :: allocs)
  | free {s s' : Vm} {past : List Vm} {sizes : List UInt32} {allocs : List (ℕ × ℕ)} {va n : ℕ}
      (hrun : AllocRun v (s :: past) sizes allocs) (hlive : (va, n) ∈ allocs)
      (hexec : tFree s va n = some s') :
      AllocRun v (s' :: s :: past) sizes (allocs.erase (va, n))

/-! ## One page table -/

namespace TableInv

variable {s : Vm} {live : Finset ℕ} {p c f : ℕ}

theorem live_iff (H : TableInv s live) : Live s p ↔ p ∈ live := by
  rw [Live]
  constructor
  · intro h
    exact ((H.used_iff p h.2.1).mp h.2.2).resolve_left h.1.ne'
  · intro h
    have hlt : p < 262144 := by have := H.live_lt p h; omega
    exact ⟨H.live_pos p h, hlt, (H.used_iff p hlt).mpr (Or.inr h)⟩

theorem walks_iff (H : TableInv s live) (hp : p ∈ live) : Walks s p c ↔ c = s.cell p := by
  have hpage : pageOf (4096 * p) = p := by rw [pageOf_eq]; omega
  have hmem : pageOf (4096 * p) ∈ live := by rw [hpage]; exact hp
  have hwalk := H.fetchPteFrom_eq (H.usedVa_eq hmem) (H.live_lt _ hmem)
  rw [hpage] at hwalk
  rw [Walks, hwalk, Option.some.injEq]
  exact eq_comm

theorem maps_iff (H : TableInv s live) (hp : p ∈ live) : Maps s p f ↔ f = s.frameNum p := by
  have haddr := H.frameAddr_eq p hp
  have hcell : s.loadWord (s.cell p) = some (s.frameAddr p) := H.loadWord_cell (H.live_lt p hp)
  constructor
  · rintro ⟨-, c, hwalk, hload⟩
    rw [(H.walks_iff hp).mp hwalk, hcell, Option.some.injEq] at hload
    omega
  · rintro rfl
    exact ⟨H.frame_lt p hp, s.cell p, (H.walks_iff hp).mpr rfl, by rw [hcell, ← haddr]⟩

/-- Whatever is allocated, the cells of one page table are sound apart from where they
lie. -/
theorem cellsSound (H : TableInv s live) : CellsSound s where
  distinct p q c hp hq hwp hwq := by
    rw [H.live_iff] at hp hq
    rw [H.walks_iff hp] at hwp
    rw [H.walks_iff hq, hwp, Vm.cell, Vm.cell] at hwq
    omega
  notFrame p q c f hp hq hw hm := by
    rw [H.live_iff] at hp hq
    rw [H.walks_iff hp] at hw
    rw [H.maps_iff hq] at hm
    have hlt := H.cell_lt_frame (H.live_lt p hp) hq
    rw [H.frameAddr_eq q hq] at hlt
    rw [hw, hm]
    exact Or.inl hlt
  maps p hp := by
    rw [H.live_iff] at hp
    exact ⟨s.frameNum p, (H.maps_iff hp).mpr rfl,
      (H.frame_used _ (H.frame_lt p hp)).mpr (Or.inr ⟨p, hp, rfl⟩)⟩
  frame_inj p q f hp hq hmp hmq := by
    rw [H.live_iff] at hp hq
    rw [H.maps_iff hp] at hmp
    rw [H.maps_iff hq, hmp] at hmq
    exact H.frame_inj p hp q hq hmq

theorem sound_iff_low (H : TableInv s live) : TableSound s ↔ ∀ p ∈ live, 256 ≤ p := by
  have hdir : 2 ^ pagingScheme.pageDir.toNat = 256 := by decide
  constructor
  · intro S p hp
    have hout := S.notDirectory p (s.cell p) (H.live_iff.mpr hp) ((H.walks_iff hp).mpr rfl)
    rw [hdir, Vm.cell] at hout
    omega
  · intro hlow
    refine ⟨H.cellsSound, fun p c hp hw => ?_⟩
    rw [H.live_iff] at hp
    rw [H.walks_iff hp] at hw
    have := hlow p hp
    rw [hdir, hw, Vm.cell]
    omega

end TableInv

/-! ## The first allocation, of any size -/

/-- Pages 1 to `j` are mapped, in order, to frames 257 to `256 + j`, and none is freed. -/
structure FirstPages (v : VmStart) (j : ℕ) (s : Vm) : Prop where
  vmStart_eq : s.vmStart = v
  ptbr_eq : s.ptbr = v.addr
  virtual : ∀ q < 262144, bitSetAt s.virtualBitmap q = true ↔ q ≤ j
  frame : ∀ q < 262144, bitSetAt s.frameBitmap q = true ↔ q < 257 + j
  dir_zero : s.memory.loadLE v.addr 4 = v.addr
  dir : ∀ d, 0 < d → d ≤ j → d < 1024 → s.memory.loadLE (v.addr + 4 * d) 4 = v.addr + 4096 * (256 + d)
  cached : ∀ e ∈ s.tlbCache.entries, pageOf e.virtualAddress ≤ j

/-- A translation that is not cached is the one of the walk. -/
theorem translate_miss {s s' : Vm} {va cell c : ℕ} (h : translate s va = some (cell, s'))
    (hused : usedVa s va = true)
    (hmiss : ∀ e ∈ s.tlbCache.entries, pageOf e.virtualAddress ≠ pageOf va)
    (hfetch : fetchPteFrom s va = some c) (hc : c ≠ 0) :
    cell = c ∧ SameStore s s' ∧
      ∀ e ∈ s'.tlbCache.entries, e ∈ s.tlbCache.entries ∨ e.virtualAddress = va := by
  cases translate_some h with
  | unused hunused =>
    rw [hused] at hunused
    cases hunused
  | @hit e _ _ hsearch =>
    obtain ⟨hmem, hpage⟩ := (searchAndRemove_subset hsearch).2 e rfl
    exact absurd hpage (hmiss e hmem)
  | miss _ hsearch hfetch' _ hadd =>
    rw [hfetch] at hfetch'
    refine ⟨(Option.some.inj hfetch').symm, SameStore.of_cache s _ _ _, fun e he => ?_⟩
    obtain ⟨es, hes, hsub⟩ := addTLB_entries hadd
    rcases List.mem_cons.mp (hes ▸ he) with rfl | he
    · exact Or.inr rfl
    · exact Or.inl ((searchAndRemove_subset hsearch).1 (hsub he))
  | absent _ _ hfetch' =>
    rw [hfetch] at hfetch'
    exact absurd (Option.some.inj hfetch') hc

namespace FirstPages

variable {v : VmStart} {j : ℕ} {s s' : Vm}

theorem next_page (H : FirstPages v j s) (hj : j < 262143) :
    firstAvailablePosition s.virtualBitmap = j + 1 ∧ bitSetAt s.virtualBitmap (j + 1) = false := by
  have hclear : bitSetAt s.virtualBitmap (j + 1) = false := by
    rw [Bool.eq_false_iff, Ne, H.virtual (j + 1) (by omega)]
    omega
  refine ⟨firstAvailablePosition_eq (show j + 1 < 262144 by omega) hclear fun q hq => ?_, hclear⟩
  rw [H.virtual q (by omega)]
  omega

theorem next_frame (H : FirstPages v j s) (hj : j < 261887) :
    firstAvailablePosition s.frameBitmap = 257 + j := by
  refine firstAvailablePosition_eq (show 257 + j < 262144 by omega) ?_ fun q hq => ?_
  · rw [Bool.eq_false_iff, Ne, H.frame (257 + j) (by omega)]
    omega
  · rw [H.frame q (by omega)]
    exact hq

/-- The cell of the next page is a directory word of its own in the first table, and lies
behind the directory in the others. -/
theorem next_cell (H : FirstPages v j s) (hj : j < 261887) {s₁ : Vm}
    (hmem : ∀ x < v.addr + 4096, s₁.memory x = s.memory x) (hstart : s₁.vmStart = v)
    (hptbr : s₁.ptbr = v.addr) (hused : usedVa s₁ (4096 * (j + 1)) = true) :
    ∃ c, fetchPteFrom s₁ (4096 * (j + 1)) = some c ∧ c ≠ 0 ∧
      if j + 1 < 1024 then c = v.addr + 4 * (j + 1) else v.addr + 4096 ≤ c := by
  have hpos := v.addr_pos
  have hfit := v.addr_fits
  simp only [MEMSIZE] at hfit
  have hpage : pageOf (4096 * (j + 1)) = j + 1 := by rw [pageOf_eq]; omega
  have hload : ∀ d < 1024, s₁.loadWord (s₁.ptbr + 4 * d) = some (s.memory.loadLE (v.addr + 4 * d) 4) := by
    intro d hd
    have hown : s₁.Owns (s₁.ptbr + 4 * d) 4 := by
      rw [Vm.Owns, hptbr, hstart]
      simp only [MEMSIZE]
      omega
    rw [Vm.loadWord, if_pos hown, hptbr]
    exact congrArg some (Bytes.loadLE_congr (n := 4) fun x _ h => hmem x (by omega))
  rw [fetchPteFrom, hused]
  simp only [Bool.not_true, Bool.false_eq_true, if_false, pdeOffset_extractFrom,
    pteOffset_extractFrom, hpage, Option.bind_eq_bind]
  rw [show WORD_BYTES = 4 from rfl, hload _ (by omega), Option.bind_some]
  by_cases hfirst : j + 1 < 1024
  · have hdir : (j + 1) / 1024 % 256 = 0 := by omega
    refine ⟨_, rfl, ?_, ?_⟩
    · rw [hdir, Nat.mul_zero, Nat.add_zero, H.dir_zero]
      omega
    · rw [if_pos hfirst, hdir, Nat.mul_zero, Nat.add_zero, H.dir_zero]
      omega
  · have hdir := H.dir ((j + 1) / 1024 % 256) (by omega) (by omega) (by omega)
    refine ⟨_, rfl, ?_, ?_⟩
    · rw [hdir]
      omega
    · rw [if_neg hfirst, hdir]
      omega

/-- One turn of the mapping loop. -/
theorem mapPage (H : FirstPages v j s) (hj : j < 261887) {page : ℕ × ℕ}
    (h : mapPage s = some (page, s')) :
    FirstPages v (j + 1) s' ∧ page.2 = v.addr + 4096 * (257 + j) := by
  have hfit := v.addr_fits
  simp only [MEMSIZE] at hfit
  have hpage : pageOf (4096 * (j + 1)) = j + 1 := by rw [pageOf_eq]; omega
  obtain ⟨hfirst, hunset⟩ := H.next_page (by omega)
  rw [mapPage_eq (by omega) (by omega) hfirst (H.next_frame hj) hunset, H.vmStart_eq] at h
  obtain ⟨⟨cell, s₄⟩, htr, h⟩ := Option.bind_eq_some_iff.mp h
  obtain ⟨s₅, hstore, h⟩ := Option.bind_eq_some_iff.mp h
  split at h
  case isFalse => cases h
  obtain ⟨rfl, rfl⟩ := Prod.mk.inj (Option.some.inj h)
  have hused : usedVa (s.taken (j + 1) (257 + j)) (4096 * (j + 1)) = true := by
    rw [usedVa, Bool.and_eq_true, isValidVa_iff, hpage]
    exact ⟨by omega, by simp [Vm.taken]⟩
  have hmem₃ : ∀ x < v.addr + 4096, (s.taken (j + 1) (257 + j)).memory x = s.memory x := by
    intro x hx
    refine Bytes.fill_apply_of_notMem (Or.inl ?_)
    rw [H.vmStart_eq]
    omega
  obtain ⟨c, hfetch, hc, hwhere⟩ := H.next_cell hj hmem₃ H.vmStart_eq H.ptbr_eq hused
  obtain ⟨rfl, hsame, hentries⟩ := translate_miss htr hused
    (fun e he => by
      have hle := H.cached e he
      rw [hpage]
      omega) hfetch hc
  have hs₅ : s₅ = { s₄ with
      memory := s₄.memory.storeLE cell 4 (v.addr + 4096 * (257 + j)) } := by
    rw [Vm.storeWord] at hstore
    split at hstore
    · exact (Option.some.inj hstore).symm
    · cases hstore
  -- a word of the directory below the new cell is kept
  have hkeep : ∀ d, d ≤ j → d < 1024 →
      s₅.memory.loadLE (v.addr + 4 * d) 4 = s.memory.loadLE (v.addr + 4 * d) 4 := by
    intro d hd hlt
    rw [hs₅, Bytes.loadLE_storeLE_of_disjoint]
    · refine Bytes.loadLE_congr fun x _ h => ?_
      rw [hsame.memory_eq, hmem₃ x (by omega)]
    · split at hwhere
      · left; omega
      · left; omega
  refine ⟨⟨?_, ?_, ?_, ?_, ?_, ?_, ?_⟩, rfl⟩
  · rw [hs₅]
    exact hsame.vmStart_eq.trans H.vmStart_eq
  · rw [hs₅]
    exact hsame.ptbr_eq.trans H.ptbr_eq
  · intro q hq
    have hbits : s₅.virtualBitmap = Bitmap.set .msbFirst s.virtualBitmap (j + 1) := by
      rw [hs₅]
      exact hsame.virtualBitmap_eq
    rw [hbits, bitSetAt_set, Bool.or_eq_true, decide_eq_true_eq, H.virtual q hq]
    omega
  · intro q hq
    have hbits : s₅.frameBitmap = Bitmap.set .msbFirst s.frameBitmap (257 + j) := by
      rw [hs₅]
      exact hsame.frameBitmap_eq
    rw [hbits, bitSetAt_set, Bool.or_eq_true, decide_eq_true_eq, H.frame q hq]
    omega
  · have h₀ := hkeep 0 (by omega) (by omega)
    rw [Nat.mul_zero, Nat.add_zero] at h₀
    rw [h₀, H.dir_zero]
  · intro d hd hle hlt
    rcases Nat.eq_or_lt_of_le hle with rfl | hlt'
    · rw [if_pos hlt] at hwhere
      rw [hs₅, hwhere, Bytes.loadLE_storeLE_same]
      omega
    · rw [hkeep d (by omega) hlt, H.dir d hd (by omega) hlt]
  · intro e he
    rw [hs₅] at he
    rcases hentries e he with he | he
    · have := H.cached e he
      omega
    · rw [he, hpage]

/-- The mapping loop. -/
theorem mapPages (H : FirstPages v j s) {n : ℕ} (hn : j + n ≤ 261887) {pages : List (ℕ × ℕ)}
    (h : mapPages n s = some (pages, s')) :
    FirstPages v (j + n) s' ∧ ∀ page ∈ pages, v.addr + 4096 ≤ page.2 := by
  induction n generalizing j s pages with
  | zero =>
    obtain ⟨rfl, rfl⟩ := Prod.mk.inj (Option.some.inj h)
    exact ⟨H, by simp⟩
  | succ n ih =>
    rw [Memory.mapPages] at h
    simp only [Option.bind_eq_bind, Option.bind_eq_some_iff] at h
    obtain ⟨⟨page, s₁⟩, hmap, ⟨rest, s₂⟩, hmaps, hout⟩ := h
    obtain ⟨rfl, rfl⟩ := Prod.mk.inj (Option.some.inj hout)
    obtain ⟨H₁, hpa⟩ := H.mapPage (by omega) hmap
    obtain ⟨H₂, hrest⟩ := ih H₁ (by omega) hmaps
    refine ⟨by rw [← Nat.add_assoc, Nat.add_right_comm]; exact H₂, fun q hq => ?_⟩
    rcases List.mem_cons.mp hq with rfl | hq
    · rw [hpa]
      omega
    · exact hrest q hq

end FirstPages

/-- Links are stored in frames, so the directory keeps its first word. -/
theorem linkPages_keeps {a : ℕ} {pages : List (ℕ × ℕ)} {s s' : Vm}
    (hpages : ∀ page ∈ pages, a + 4 ≤ page.2) (h : linkPages pages s = some s') :
    s'.virtualBitmap = s.virtualBitmap ∧ s'.ptbr = s.ptbr ∧ s'.vmStart = s.vmStart ∧
      s'.memory.loadLE a 4 = s.memory.loadLE a 4 := by
  induction pages generalizing s with
  | nil =>
    rw [← Option.some.inj h]
    exact ⟨rfl, rfl, rfl, rfl⟩
  | cons page pages ih =>
    cases pages with
    | nil =>
      rw [← Option.some.inj h]
      exact ⟨rfl, rfl, rfl, rfl⟩
    | cons next pages =>
      obtain ⟨s₁, hstore, hrest⟩ := Option.bind_eq_some_iff.mp h
      obtain ⟨hbits, hptbr, hstart, hword⟩ :=
        ih (fun q hq => hpages q (List.mem_cons_of_mem _ hq)) hrest
      have hs₁ : s₁ = { s with memory := s.memory.storeLE page.2 4 next.1 } := by
        rw [Vm.storeWord] at hstore
        split at hstore
        · exact (Option.some.inj hstore).symm
        · cases hstore
      have hpa := hpages page List.mem_cons_self
      rw [hbits, hptbr, hstart, hword, hs₁]
      exact ⟨rfl, rfl, rfl, Bytes.loadLE_storeLE_of_disjoint (Or.inl hpa)⟩

/-- A request that is refused even when nothing is allocated. -/
def Refused (n : UInt32) : Prop := n = 0 ∨ 261887 < pagesRequested n.toNat

theorem firstPages_init {v : VmStart} {s : Vm} (h : setPhysicalMem v = some s) :
    FirstPages v 0 s ∧ PageInv s ∅ ∧ s.libraryLock = false := by
  obtain ⟨s', h', H, hlock, hstart, hcache, -⟩ := setPhysicalMem_spec v
  obtain rfl := Option.some.inj (h.symm.trans h')
  refine ⟨⟨hstart, by rw [H.ptbr_eq, hstart], ?_, ?_, ?_, ?_, ?_⟩, H, hlock⟩
  · intro q hq
    rw [H.used_iff q hq]
    simp
  · intro q hq
    rw [H.frame_used q hq]
    simp
  · have hdir := H.dir_zero
    rw [H.ptbr_eq, hstart] at hdir
    exact hdir
  · intro d hd hle
    omega
  · rw [hcache]
    simp

/-- The first allocation makes page 1 live, whose cell is directory entry 1. -/
theorem FirstPages.not_sound {v : VmStart} {s s' : Vm} {n : UInt32} {va : ℕ}
    (H : FirstPages v 0 s) (HP : PageInv s ∅) (hlock : s.libraryLock = false) (hn : ¬ Refused n)
    (h : tMalloc s n = some (va, s')) : ¬ TableSound s' := by
  rw [Refused, not_or] at hn
  have hpos := pagesRequested_pos fun h => hn.1 (UInt32.toNat_inj.mp h)
  obtain ⟨b, f, hb, hf, hbf⟩ := (HP.setLock true).nBitsAvailable_both hpos
  have hgranted : (!b || !f) = false := by
    rw [hbf, decide_eq_false_iff_not, Finset.card_empty]
    omega
  rw [tMalloc, Vm.lock_eq hlock, Option.bind_eq_bind, Option.bind_some, if_neg hn.1] at h
  simp only [Option.bind_eq_bind] at h
  rw [hb, Option.bind_some, hf, Option.bind_some, hgranted, if_neg Bool.false_ne_true] at h
  simp only [Option.bind_eq_some_iff] at h
  obtain ⟨⟨mapped, s₂⟩, hmap, s₃, hlink, s₄, hunlock, hout⟩ := h
  obtain ⟨-, rfl⟩ := Prod.mk.inj (Option.some.inj hout)
  have H₁ : FirstPages v 0 { s with libraryLock := true } :=
    ⟨H.vmStart_eq, H.ptbr_eq, H.virtual, H.frame, H.dir_zero, H.dir, H.cached⟩
  obtain ⟨H₂, hpages⟩ := H₁.mapPages (by omega) hmap
  rw [Nat.zero_add] at H₂
  obtain ⟨hbits, hptbr, hstart, hword⟩ := linkPages_keeps (a := v.addr)
    (fun page hpage => by have := hpages page hpage; omega) hlink
  have hs₄ : s₄ = { s₃ with libraryLock := false } := by
    rw [Vm.unlock] at hunlock
    split at hunlock
    · exact (Option.some.inj hunlock).symm
    · cases hunlock
  have hbit : bitSetAt s₄.virtualBitmap 1 = true := by
    rw [hs₄, hbits, H₂.virtual 1 (by omega)]
    omega
  have hptbr₄ : s₄.ptbr = v.addr := by rw [hs₄, hptbr, H₂.ptbr_eq]
  have hstart₄ : s₄.vmStart = v := by rw [hs₄, hstart, H₂.vmStart_eq]
  have hpage : pageOf (4096 * 1) = 1 := by decide
  have hwalk : Walks s₄ 1 (v.addr + 4) := by
    have hused : usedVa s₄ (4096 * 1) = true := by
      rw [usedVa, Bool.and_eq_true, isValidVa_iff, hpage]
      exact ⟨by omega, hbit⟩
    have hfit := v.addr_fits
    simp only [MEMSIZE] at hfit
    have hown : s₄.Owns v.addr 4 := by
      rw [Vm.Owns, hstart₄]
      simp only [MEMSIZE]
      omega
    have hload : s₄.loadWord v.addr = some v.addr := by
      have hdir : s₄.memory.loadLE v.addr 4 = v.addr := by rw [hs₄, hword, H₂.dir_zero]
      rw [Vm.loadWord, if_pos hown]
      exact congrArg some hdir
    rw [Walks, fetchPteFrom, hused]
    simp only [Bool.not_true, Bool.false_eq_true, if_false, pdeOffset_extractFrom,
      pteOffset_extractFrom, hpage, Option.bind_eq_bind, Nat.reduceDiv, Nat.zero_mod, Nat.mul_zero,
      Nat.add_zero]
    rw [hptbr₄, hload, Option.bind_some, Option.some.injEq]
    simp only [WORD_BYTES]
    omega
  intro S
  have hdir : 2 ^ pagingScheme.pageDir.toNat = 256 := by decide
  have hout := S.notDirectory 1 (v.addr + 4) ⟨by omega, by omega, hbit⟩ hwalk
  rw [hptbr₄, hdir] at hout
  omega

namespace AllocRun

variable {v : VmStart} {states : List Vm} {sizes : List UInt32} {allocs : List (ℕ × ℕ)}

/-- While every request is refused, the library stays in its first state. -/
theorem quiet (hrun : AllocRun v states sizes allocs) (hsizes : ∀ n ∈ sizes, Refused n) :
    allocs = [] ∧ ∀ s ∈ states, setPhysicalMem v = some s := by
  induction hrun with
  | start h =>
    refine ⟨rfl, fun s hs => ?_⟩
    rw [List.mem_singleton.mp hs]
    exact h
  | malloc hrun hexec ih =>
    obtain ⟨rfl, hstates⟩ := ih fun n hn => hsizes n (List.mem_cons_of_mem _ hn)
    have hinit := hstates _ List.mem_cons_self
    obtain ⟨-, HP, hlock⟩ := firstPages_init hinit
    have hrefused := tMalloc_refused HP hlock (by
      rw [Finset.card_empty, Nat.zero_add]
      exact hsizes _ List.mem_cons_self)
    obtain ⟨rfl, rfl⟩ := Prod.mk.inj (Option.some.inj (hexec.symm.trans hrefused))
    refine ⟨if_pos rfl, fun s hs => ?_⟩
    rcases List.mem_cons.mp hs with rfl | hs
    · exact hinit
    · exact hstates s hs
  | free hrun hlive hexec ih =>
    obtain ⟨rfl, -⟩ := ih hsizes
    cases hlive

/-- The first request that is granted leaves an unsound table. -/
theorem exists_not_sound (hrun : AllocRun v states sizes allocs)
    (hsizes : ∃ n ∈ sizes, ¬ Refused n) : ∃ s ∈ states, ¬ TableSound s := by
  induction hrun with
  | start h =>
    obtain ⟨n, hn, -⟩ := hsizes
    cases hn
  | @malloc s s' past sizes allocs n va hrun hexec ih =>
    by_cases hpast : ∃ m ∈ sizes, ¬ Refused m
    · obtain ⟨t, ht, hunsound⟩ := ih hpast
      exact ⟨t, List.mem_cons_of_mem _ ht, hunsound⟩
    · push Not at hpast
      obtain ⟨m, hm, hgranted⟩ := hsizes
      rcases List.mem_cons.mp hm with rfl | hm
      · have hinit := (hrun.quiet hpast).2 _ List.mem_cons_self
        obtain ⟨H, HP, hlock⟩ := firstPages_init hinit
        exact ⟨_, List.mem_cons_self, H.not_sound HP hlock hgranted hexec⟩
      · exact absurd (hpast m hm) hgranted
  | free hrun hlive hexec ih =>
    obtain ⟨s, hs, hunsound⟩ := ih hsizes
    exact ⟨s, List.mem_cons_of_mem _ hs, hunsound⟩

end AllocRun

/-- While at most 1023 pages are live, the cells are sound but for the directory, and the
table is sound exactly when no page below 256 is live.  Over whole runs, of any number of
pages, it is sound throughout exactly when nothing is ever allocated. -/
theorem tableSound_iff (v : VmStart) :
    (∀ s h, HeapRun v s h → CellsSound s ∧ (TableSound s ↔ ∀ p ∈ h.pages, 256 ≤ p)) ∧
    ∀ states sizes allocs, AllocRun v states sizes allocs →
      ((∀ s ∈ states, TableSound s) ↔ ∀ n ∈ sizes, Refused n) := by
  refine ⟨fun s h hrun => ?_, fun states sizes allocs hrun => ⟨fun hall n hn => ?_, ?_⟩⟩
  · have H := hrun.represents.inv.toTableInv
    refine ⟨H.cellsSound, ?_⟩
    rw [H.sound_iff_low]
    simp only [List.mem_toFinset]
  · by_contra hgranted
    obtain ⟨s, hs, hunsound⟩ := hrun.exists_not_sound ⟨n, hn, hgranted⟩
    exact hunsound (hall s hs)
  · intro hsizes s hs
    obtain ⟨-, HP, -⟩ := firstPages_init ((hrun.quiet hsizes).2 s hs)
    rw [HP.toTableInv.sound_iff_low]
    exact fun p hp => absurd hp (Finset.notMem_empty p)

/-- One allocation of one byte makes the table unsound. -/
theorem tableSound_fails : ¬ ∀ v states sizes allocs, AllocRun v states sizes allocs →
    ∀ s ∈ states, TableSound s := by
  intro hall
  let v : VmStart := ⟨4096, by decide, by decide⟩
  obtain ⟨s, hinit, -⟩ := setPhysicalMem_spec v
  obtain ⟨H, HP, hlock⟩ := firstPages_init hinit
  obtain ⟨ps, s', hexec, -⟩ := tMalloc_granted HP hlock (n := 1) (by decide) (by decide)
  have hrun := (AllocRun.start hinit).malloc hexec
  refine H.not_sound HP hlock (n := 1) ?_ hexec (hall v _ _ _ hrun s' List.mem_cons_self)
  rw [Refused]
  decide

/-- The two sides of `tableSound_iff` in the run that allocates one byte. -/
theorem tableSound_iff_first : ∃ v states allocs, AllocRun v states [1] allocs ∧
    ((∀ s ∈ states, TableSound s) ↔ ∀ n ∈ [(1 : UInt32)], Refused n) := by
  let v : VmStart := ⟨4096, by decide, by decide⟩
  obtain ⟨s, hinit, -⟩ := setPhysicalMem_spec v
  obtain ⟨H, HP, hlock⟩ := firstPages_init hinit
  obtain ⟨ps, s', hexec, -⟩ := tMalloc_granted HP hlock (n := 1) (by decide) (by decide)
  have hrun := (AllocRun.start hinit).malloc hexec
  exact ⟨v, _, _, hrun, (tableSound_iff v).2 _ _ _ hrun⟩

end UserLevelOs.Memory
