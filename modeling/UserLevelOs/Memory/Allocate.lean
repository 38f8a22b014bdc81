import UserLevelOs.Memory.Invariant

/-!
# Mapping pages

One turn of the mapping loop of `t_malloc` hands out the lowest free page and the
lowest free frame, clears the frame and leaves every other page alone; the loop does so
for as many pages as asked.

## Main definitions

* `SamePage` — a page keeps its frame and the contents of it.

## Main statements

* `mapPage_spec`, `mapPages_spec`.
-/

namespace UserLevelOs.Memory

open UserLevelOs.Lib

/-- Page `p` is mapped to the same frame in `s` and `s'`, with the same contents. -/
structure SamePage (s s' : Vm) (p : ℕ) : Prop where
  frameAddr_eq : s'.frameAddr p = s.frameAddr p
  frame_eq : ∀ x, s.frameAddr p ≤ x → x < s.frameAddr p + 4096 → s'.memory x = s.memory x

namespace SamePage

variable {s s' s'' : Vm} {p : ℕ}

theorem refl (s : Vm) (p : ℕ) : SamePage s s p := ⟨rfl, fun _ _ _ => rfl⟩

theorem trans (h : SamePage s s' p) (h' : SamePage s' s'' p) : SamePage s s'' p where
  frameAddr_eq := h'.frameAddr_eq.trans h.frameAddr_eq
  frame_eq := by
    intro x h₁ h₂
    rw [h'.frame_eq x (by rw [h.frameAddr_eq]; exact h₁) (by rw [h.frameAddr_eq]; exact h₂),
      h.frame_eq x h₁ h₂]

theorem link_eq (h : SamePage s s' p) : s'.link p = s.link p := by
  rw [Vm.link, Vm.link, h.frameAddr_eq]
  exact Bytes.loadLE_congr fun x h₁ h₂ => h.frame_eq x h₁ (by omega)

theorem payload_eq (h : SamePage s s' p) : s'.payload p = s.payload p := by
  rw [Vm.payload, Vm.payload, h.frameAddr_eq]
  exact Bytes.read_congr fun x h₁ h₂ => h.frame_eq x (by omega) (by omega)

end SamePage

theorem SameStore.samePage {s s' : Vm} (h : SameStore s s') (p : ℕ) : SamePage s s' p :=
  ⟨h.frameAddr_eq' p, fun x _ _ => by rw [h.memory_eq]⟩

/-! ## Free pages and frames -/

/-- The lowest page that is neither page 0 nor live. -/
theorem exists_free_page {live : Finset ℕ} (hcard : live.card < 1023) :
    ∃ p, 0 < p ∧ p < 1024 ∧ p ∉ live ∧ ∀ q, 0 < q → q < p → q ∈ live := by
  have hex : ∃ p, 0 < p ∧ p < 1024 ∧ p ∉ live := by
    by_contra hno
    push Not at hno
    have hsub : Finset.Ico 1 1024 ⊆ live := by
      intro p hp
      rw [Finset.mem_Ico] at hp
      exact hno p (by omega) hp.2
    have hle := Finset.card_le_card hsub
    rw [Nat.card_Ico] at hle
    omega
  classical
  refine ⟨Nat.find hex, (Nat.find_spec hex).1, (Nat.find_spec hex).2.1,
    (Nat.find_spec hex).2.2, fun q hq hlt => ?_⟩
  by_contra hmem
  have h₁ := (Nat.find_spec hex).2.1
  exact Nat.find_min hex hlt ⟨hq, by omega, hmem⟩

/-- The lowest frame whose bit is clear. -/
theorem exists_free_frame {s : Vm} {live : Finset ℕ} (H : TableInv s live)
    (hcard : live.card < 1023) :
    ∃ f, 257 ≤ f ∧ f < 262144 ∧ bitSetAt s.frameBitmap f = false ∧
      ∀ g < f, bitSetAt s.frameBitmap g = true := by
  have hex : ∃ f, f < 262144 ∧ bitSetAt s.frameBitmap f = false := by
    by_contra hno
    push Not at hno
    have hsub : Finset.Ico 257 262144 ⊆ live.image s.frameNum := by
      intro f hf
      rw [Finset.mem_Ico] at hf
      have hset := (H.frame_used f hf.2).mp (by simpa using hno f hf.2)
      rcases hset with hlt | ⟨p, hp, rfl⟩
      · omega
      · exact Finset.mem_image_of_mem _ hp
    have hle := (Finset.card_le_card hsub).trans Finset.card_image_le
    rw [Nat.card_Ico] at hle
    omega
  obtain ⟨hlt, hclear⟩ := Nat.find_spec hex
  have hmin : ∀ g < Nat.find hex, bitSetAt s.frameBitmap g = true := by
    intro g hg
    by_contra hset
    exact Nat.find_min hex hg ⟨by omega, by simpa using hset⟩
  refine ⟨Nat.find hex, ?_, hlt, hclear, hmin⟩
  by_contra hres
  have hset := (H.frame_used _ hlt).mpr (Or.inl (by omega))
  rw [hclear] at hset
  exact Bool.false_ne_true hset

/-! ## One turn of the mapping loop -/

theorem TableInv.lowest_page {s : Vm} {live : Finset ℕ} (H : TableInv s live) {p : ℕ}
    (hpos : 0 < p) (hlt : p < 1024) (hfree : p ∉ live) (hlow : ∀ q, 0 < q → q < p → q ∈ live) :
    firstAvailablePosition s.virtualBitmap = p ∧ bitSetAt s.virtualBitmap p = false := by
  have hclear : bitSetAt s.virtualBitmap p = false := by
    rw [Bool.eq_false_iff, Ne, H.used_iff p (by omega)]
    rintro (h | h)
    · omega
    · exact hfree h
  refine ⟨firstAvailablePosition_eq (show p < 262144 by omega) hclear fun q hq => ?_, hclear⟩
  rw [H.used_iff q (by omega)]
  by_cases h0 : q = 0
  · exact Or.inl h0
  · exact Or.inr (hlow q (by omega) hq)

theorem getNextAvail_of_first {s : Vm} {p : ℕ} (h : firstAvailablePosition s.virtualBitmap = p)
    (hp : p < 262144) : getNextAvail s = 4096 * p := by
  have hshift : p <<< 12 = p * 4096 := Nat.shiftLeft_eq p 12
  rw [getNextAvail, h]
  change p <<< 12 % 2 ^ 32 = _
  rw [hshift]
  omega

theorem pointerToFrame_eq {s : Vm} {f : ℕ} (hf : f < 262144) :
    pointerToFrameAtPosition s f = s.vmStart.addr + 4096 * f := by
  have := s.vmStart.addr_fits
  simp only [MEMSIZE] at this
  simp only [pointerToFrameAtPosition, PGSIZE]
  omega

/-- Page `p` and frame `f` are marked used, and the frame is cleared. -/
def Vm.taken (s : Vm) (p f : ℕ) : Vm := { s with
  frameBitmap := Bitmap.set .msbFirst s.frameBitmap f
  memory := s.memory.fill (s.vmStart.addr + 4096 * f) 4096 0
  virtualBitmap := Bitmap.set .msbFirst s.virtualBitmap p }

/-- One turn takes the lowest page and the lowest frame, and stores the frame in the cell that
the walk for the page ends at. -/
theorem mapPage_eq {s : Vm} {p f : ℕ} (hp : p < 262144) (hf : f < 262144)
    (hpage : firstAvailablePosition s.virtualBitmap = p)
    (hframe : firstAvailablePosition s.frameBitmap = f)
    (hclear : bitSetAt s.virtualBitmap p = false) :
    mapPage s = (translate (s.taken p f) (4096 * p)).bind fun r =>
      (r.2.storeWord r.1 (s.vmStart.addr + 4096 * f)).bind fun t =>
        if bitSetAt t.virtualBitmap p = true ∧ bitSetAt t.frameBitmap f = true then
          some ((4096 * p, s.vmStart.addr + 4096 * f), t) else none := by
  have hpos : pageOf (4096 * p) = p := by rw [pageOf_eq]; omega
  let pa := s.vmStart.addr + 4096 * f
  let s₁ : Vm := { s with frameBitmap := Bitmap.set .msbFirst s.frameBitmap f }
  let s₂ : Vm := { s₁ with memory := s.memory.fill pa 4096 0 }
  have hclr : s₁.clear pa 4096 = some s₂ := by
    have hown : s₁.Owns pa 4096 := by
      simp only [Vm.Owns, MEMSIZE, pa, s₁]
      omega
    rw [Vm.clear, if_pos hown]
  have hmap : pageMap s₂ (4096 * p) pa =
      (translate (s.taken p f) (4096 * p)).bind fun r =>
        (r.2.storeWord r.1 pa).bind fun t => some (1, t) := by
    have hvalid : isValidVa pagingScheme (4096 * p) = true := by
      rw [isValidVa_iff, hpos]
      exact hp
    have hunset : bitSetAt s₂.virtualBitmap p = false := hclear
    have hsetBit : setBitAt s₂.virtualBitmap p = some (s.taken p f).virtualBitmap := if_pos hp
    simp only [pageMap, hpos, hvalid, hunset, Bool.not_true, Bool.or_false, Bool.false_eq_true,
      if_false, hsetBit, Option.bind_eq_bind, Option.bind_some]
    rfl
  have hsetFrame : setBitAt s.frameBitmap f = some s₁.frameBitmap := if_pos hf
  simp only [mapPage, getNextAvail_of_first hpage hp, hframe, hsetFrame, pointerToFrame_eq hf,
    Option.bind_eq_bind, Option.bind_some]
  change (s₁.clear pa 4096).bind _ = _
  rw [hclr, Option.bind_some]
  change (pageMap s₂ (4096 * p) pa).bind _ = _
  rw [hmap, Option.bind_assoc]
  refine Option.bind_congr fun r _ => ?_
  rw [Option.bind_assoc]
  refine Option.bind_congr fun t _ => ?_
  rw [Option.bind_some, hpos]
  by_cases hvirtual : bitSetAt t.virtualBitmap p = true
  · by_cases hframe : bitSetAt t.frameBitmap f = true
    · simp [hvirtual, hframe]
    · simp [hvirtual, hframe]
  · simp [hvirtual]

/-- One turn, once the walk has ended at a cell of the block. -/
theorem mapPage_some {s s₄ : Vm} {p f cell : ℕ} (hp : p < 262144) (hf : f < 262144)
    (hpage : firstAvailablePosition s.virtualBitmap = p)
    (hframe : firstAvailablePosition s.frameBitmap = f)
    (hclear : bitSetAt s.virtualBitmap p = false)
    (htr : translate (s.taken p f) (4096 * p) = some (cell, s₄))
    (hsame : SameStore (s.taken p f) s₄) (hown : s₄.Owns cell 4) :
    mapPage s = some ((4096 * p, s.vmStart.addr + 4096 * f),
      { s₄ with memory := s₄.memory.storeLE cell 4 (s.vmStart.addr + 4096 * f) }) := by
  have hstore : s₄.storeWord cell (s.vmStart.addr + 4096 * f) =
      some { s₄ with memory := s₄.memory.storeLE cell 4 (s.vmStart.addr + 4096 * f) } := if_pos hown
  rw [mapPage_eq hp hf hpage hframe hclear, htr, Option.bind_some, hstore, Option.bind_some]
  simp [hsame.virtualBitmap_eq, hsame.frameBitmap_eq, Vm.taken]

/-- The frame of a live page is not one that is free. -/
theorem TableInv.frameNum_ne {s : Vm} {live : Finset ℕ} (H : TableInv s live) {q f : ℕ}
    (hq : q ∈ live) (hf : f < 262144) (hclear : bitSetAt s.frameBitmap f = false) :
    s.frameNum q ≠ f := by
  intro h
  have hset := (H.frame_used f hf).mpr (Or.inr ⟨q, hq, h⟩)
  rw [hclear] at hset
  exact Bool.false_ne_true hset

/-- Page `p` is entered with frame `f`, and the cells of the other pages are kept. -/
theorem TableInv.enter {s : Vm} (s' : Vm) {live : Finset ℕ} (H : TableInv s live) {p f : ℕ}
    (hpos : 0 < p) (hlt : p < 1024) (hfree : p ∉ live) (hres : 257 ≤ f) (hf : f < 262144)
    (hclear : bitSetAt s.frameBitmap f = false)
    (hstart : s'.vmStart = s.vmStart) (hptbr : s'.ptbr = s.ptbr)
    (hvirtual : s'.virtualBitmap = Bitmap.set .msbFirst s.virtualBitmap p)
    (hframe : s'.frameBitmap = Bitmap.set .msbFirst s.frameBitmap f)
    (hnew : s'.frameAddr p = s.vmStart.addr + 4096 * f)
    (hold : ∀ q < 1024, q ≠ p → s'.frameAddr q = s.frameAddr q) : TableInv s' (insert p live) := by
  have hnum : s'.frameNum p = f := by rw [Vm.frameNum, hnew, hstart]; omega
  have holdNum : ∀ q ∈ live, s'.frameNum q = s.frameNum q := by
    intro q hq
    have hne : q ≠ p := fun h => hfree (h ▸ hq)
    rw [Vm.frameNum, Vm.frameNum, hold q (H.live_lt q hq) hne, hstart]
  have hdir : s'.frameAddr 0 = s'.ptbr := by
    rw [hold 0 (by omega) (by omega), hptbr]
    exact H.dir_zero
  refine ⟨⟨by rw [hptbr, hstart, H.ptbr_eq], hdir⟩, ?_, ?_, ?_, ?_, ?_, ?_, ?_, ?_⟩
  · intro q hq
    rcases Finset.mem_insert.mp hq with rfl | hq
    · exact hpos
    · exact H.live_pos q hq
  · intro q hq
    rcases Finset.mem_insert.mp hq with rfl | hq
    · exact hlt
    · exact H.live_lt q hq
  · intro q hq
    rw [hvirtual, bitSetAt_set, Bool.or_eq_true, decide_eq_true_eq, H.used_iff q hq,
      Finset.mem_insert]
    exact or_left_comm
  · intro q hq
    rcases Finset.mem_insert.mp hq with rfl | hq
    · rw [hnew, hnum, hstart]
    · rw [holdNum q hq, hstart, ← H.frameAddr_eq q hq]
      exact hold q (H.live_lt q hq) fun h => hfree (h ▸ hq)
  · intro q hq
    rcases Finset.mem_insert.mp hq with rfl | hq
    · rw [hnum]; exact hres
    · rw [holdNum q hq]; exact H.frame_reserved q hq
  · intro q hq
    rcases Finset.mem_insert.mp hq with rfl | hq
    · rw [hnum]; exact hf
    · rw [holdNum q hq]; exact H.frame_lt q hq
  · intro q hq r hr heq
    rcases Finset.mem_insert.mp hq with hqp | hq' <;>
      rcases Finset.mem_insert.mp hr with hrp | hr'
    · rw [hqp, hrp]
    · rw [hqp, hnum, holdNum r hr'] at heq
      exact absurd heq.symm (H.frameNum_ne hr' hf hclear)
    · rw [hrp, hnum, holdNum q hq'] at heq
      exact absurd heq (H.frameNum_ne hq' hf hclear)
    · rw [holdNum q hq', holdNum r hr'] at heq
      exact H.frame_inj q hq' r hr' heq
  · intro g hg
    rw [hframe, bitSetAt_set, Bool.or_eq_true, decide_eq_true_eq, H.frame_used g hg]
    constructor
    · rintro (rfl | hlt | ⟨q, hq, rfl⟩)
      · exact Or.inr ⟨p, Finset.mem_insert_self _ _, hnum⟩
      · exact Or.inl hlt
      · exact Or.inr ⟨q, Finset.mem_insert_of_mem hq, holdNum q hq⟩
    · rintro (hlt | ⟨q, hq, rfl⟩)
      · exact Or.inr (Or.inl hlt)
      · rcases Finset.mem_insert.mp hq with rfl | hq
        · exact Or.inl hnum
        · exact Or.inr (Or.inr ⟨q, hq, (holdNum q hq).symm⟩)

/-- The table once page `p` is mapped to the cleared frame `f`. -/
theorem TableInv.map {s : Vm} (s' : Vm) {live : Finset ℕ} (H : TableInv s live) {p f : ℕ}
    (hpos : 0 < p) (hlt : p < 1024) (hfree : p ∉ live) (hres : 257 ≤ f) (hf : f < 262144)
    (hclear : bitSetAt s.frameBitmap f = false)
    (hstart : s'.vmStart = s.vmStart) (hptbr : s'.ptbr = s.ptbr)
    (hvirtual : s'.virtualBitmap = Bitmap.set .msbFirst s.virtualBitmap p)
    (hframe : s'.frameBitmap = Bitmap.set .msbFirst s.frameBitmap f)
    (hmemory : s'.memory = (s.memory.fill (s.vmStart.addr + 4096 * f) 4096 0).storeLE
      (s.cell p) 4 (s.vmStart.addr + 4096 * f)) :
    TableInv s' (insert p live) ∧ s'.frameAddr p = s.vmStart.addr + 4096 * f ∧
      (∀ x, s'.frameAddr p ≤ x → x < s'.frameAddr p + 4096 → s'.memory x = 0) ∧
      ∀ q ∈ live, SamePage s s' q := by
  have hbase := H.ptbr_eq
  have hfit := s.vmStart.addr_fits
  simp only [MEMSIZE] at hfit
  have hcell : ∀ q, s'.cell q = s.cell q := fun q => by rw [Vm.cell, Vm.cell, hptbr]
  have hnew : s'.frameAddr p = s.vmStart.addr + 4096 * f := by
    rw [Vm.frameAddr, hcell, hmemory, Bytes.loadLE_storeLE_same]
    omega
  -- a cell other than that of `p` is below the cleared frame, so it is kept
  have hold : ∀ q < 1024, q ≠ p → s'.frameAddr q = s.frameAddr q := by
    intro q hq hne
    rw [Vm.frameAddr, hcell, hmemory, Bytes.loadLE_storeLE_of_disjoint (by simp only [Vm.cell]; omega)]
    refine Bytes.loadLE_congr fun x h₁ h₂ => Bytes.fill_apply_of_notMem ?_
    simp only [Vm.cell] at h₂
    omega
  have hmem : ∀ x, s.cell p + 4 ≤ x → s'.memory x =
      s.memory.fill (s.vmStart.addr + 4096 * f) 4096 0 x := by
    intro x hx
    rw [hmemory, Bytes.storeLE_apply_of_notMem (Or.inr hx)]
  refine ⟨H.enter s' hpos hlt hfree hres hf hclear hstart hptbr hvirtual hframe hnew hold, hnew,
    ?_, ?_⟩
  · intro x h₁ h₂
    rw [hnew] at h₁ h₂
    rw [hmem x (by simp only [Vm.cell]; omega), Bytes.fill_apply_of_mem h₁ h₂]
  · intro q hq
    have hne : q ≠ p := fun h => hfree (h ▸ hq)
    refine ⟨hold q (H.live_lt q hq) hne, fun x h₁ h₂ => ?_⟩
    have hc := H.cell_lt_frame hlt hq
    have ha := H.frameAddr_eq q hq
    have hd := H.frameNum_ne hq hf hclear
    rw [hmem x (by omega), Bytes.fill_apply_of_notMem (by omega)]

/-- One turn of the loop maps the lowest free page to a cleared frame of its own. -/
theorem mapPage_spec {s : Vm} {live : Finset ℕ} (H : PageInv s live) (hcard : live.card < 1023) :
    ∃ p s', mapPage s = some ((4096 * p, s'.frameAddr p), s') ∧ 0 < p ∧ p ∉ live ∧
      (∀ q, 0 < q → q < p → q ∈ live) ∧ PageInv s' (insert p live) ∧
      s'.libraryLock = s.libraryLock ∧
      (∀ x, s'.frameAddr p ≤ x → x < s'.frameAddr p + 4096 → s'.memory x = 0) ∧
      ∀ q ∈ live, SamePage s s' q := by
  obtain ⟨p, hpos, hlt, hfree, hlow⟩ := exists_free_page hcard
  obtain ⟨f, hres, hf, hclear, hset⟩ := exists_free_frame H.toTableInv hcard
  obtain ⟨hfirst, hunset⟩ := H.lowest_page hpos hlt hfree hlow
  have hpage : pageOf (4096 * p) = p := by rw [pageOf_eq]; omega
  have hptbr := H.ptbr_eq
  let pa := s.vmStart.addr + 4096 * f
  let s₃ : Vm := s.taken p f
  have hdir : DirInv s₃ := by
    refine ⟨hptbr, ?_⟩
    have h₀ : s₃.memory.loadLE s₃.ptbr 4 = s.memory.loadLE s.ptbr 4 := by
      refine Bytes.loadLE_congr fun x h₁ h₂ => Bytes.fill_apply_of_notMem (Or.inl ?_)
      change x < s.ptbr + 4 at h₂
      omega
    rw [h₀, H.dir_zero]
    rfl
  have htlb : TlbInv s₃ := ⟨H.size_eq, H.size_le, H.frame_eq⟩
  have hused : usedVa s₃ (4096 * p) = true := by
    rw [usedVa, Bool.and_eq_true, isValidVa_iff, hpage]
    exact ⟨by omega, by simp [s₃, Vm.taken]⟩
  obtain ⟨s₄, htr, hsame, htlb₄⟩ := translate_spec hdir htlb hused (by omega)
  have hcell : s₃.cell (pageOf (4096 * p)) = s.cell p := by rw [hpage]; rfl
  rw [hcell] at htr
  have hown : s₄.Owns (s.cell p) 4 := by
    have h := (hsame.dirInv hdir).owns_cell hlt
    rwa [hsame.cell_eq] at h
  let s₅ : Vm := { s₄ with memory := s₄.memory.storeLE (s.cell p) 4 pa }
  obtain ⟨htable, hnew, hzero, hkept⟩ := H.toTableInv.map s₅ hpos hlt hfree hres hf hclear
    hsame.vmStart_eq hsame.ptbr_eq hsame.virtualBitmap_eq hsame.frameBitmap_eq
    (by change s₄.memory.storeLE _ _ _ = _; rw [hsame.memory_eq]; rfl)
  have htlb₅ : TlbInv s₅ := ⟨htlb₄.size_eq, htlb₄.size_le, htlb₄.frame_eq⟩
  refine ⟨p, s₅, ?_, hpos, hfree, hlow, ⟨htable, htlb₅⟩, hsame.libraryLock_eq, hzero, hkept⟩
  rw [hnew]
  exact mapPage_some (by omega) hf hfirst (firstAvailablePosition_eq hf hclear hset) hunset htr
    hsame hown

/-- The mapping loop: ascending new pages, each on a cleared frame of its own, and no
free page below any of them is passed over. -/
theorem mapPages_spec {s : Vm} {live : Finset ℕ} (H : PageInv s live) {n : ℕ}
    (hcard : live.card + n ≤ 1023) :
    ∃ (pages : List ℕ) (s' : Vm),
      mapPages n s = some (pages.map fun p => (4096 * p, s'.frameAddr p), s') ∧
      pages.length = n ∧ pages.Pairwise (· < ·) ∧ (∀ p ∈ pages, 0 < p ∧ p ∉ live) ∧
      (∀ p ∈ pages, ∀ q, 0 < q → q < p → q ∈ live ∨ q ∈ pages) ∧
      PageInv s' (live ∪ pages.toFinset) ∧ s'.libraryLock = s.libraryLock ∧
      (∀ p ∈ pages, ∀ x, s'.frameAddr p ≤ x → x < s'.frameAddr p + 4096 → s'.memory x = 0) ∧
      ∀ q ∈ live, SamePage s s' q := by
  induction n generalizing s live with
  | zero =>
    refine ⟨[], s, rfl, rfl, List.Pairwise.nil, by simp, by simp, by simpa using H, rfl,
      by simp, fun q _ => SamePage.refl s q⟩
  | succ n ih =>
    obtain ⟨p, s₁, hmap, hpos, hfree, hlow, H₁, hlock₁, hzero₁, hkept₁⟩ :=
      mapPage_spec H (by omega)
    have hcard₁ : (insert p live).card + n ≤ 1023 := by
      rw [Finset.card_insert_of_notMem hfree]
      omega
    obtain ⟨pages, s', hmaps, hlen, hsorted, hnew, hdown, H', hlock, hzero, hkept⟩ :=
      ih H₁ hcard₁
    have hsame : SamePage s₁ s' p := hkept p (Finset.mem_insert_self _ _)
    refine ⟨p :: pages, s', ?_, by simp [hlen], ?_, ?_, ?_, ?_, hlock.trans hlock₁, ?_, ?_⟩
    · simp only [mapPages, hmap, hmaps, Option.bind_eq_bind, Option.bind_some, List.map_cons,
        hsame.frameAddr_eq]
    · refine List.Pairwise.cons (fun q hq => ?_) hsorted
      obtain ⟨hq₁, hq₂⟩ := hnew q hq
      by_contra hle
      rcases Nat.eq_or_lt_of_le (Nat.le_of_not_lt hle) with heq | hlt
      · exact hq₂ (heq ▸ Finset.mem_insert_self _ _)
      · exact hq₂ (Finset.mem_insert_of_mem (hlow q hq₁ hlt))
    · intro q hq
      rcases List.mem_cons.mp hq with rfl | hq
      · exact ⟨hpos, hfree⟩
      · exact ⟨(hnew q hq).1, fun h => (hnew q hq).2 (Finset.mem_insert_of_mem h)⟩
    · intro q hq r hr hlt
      rcases List.mem_cons.mp hq with rfl | hq
      · exact Or.inl (hlow r hr hlt)
      · rcases hdown q hq r hr hlt with h | h
        · rcases Finset.mem_insert.mp h with rfl | h
          · exact Or.inr List.mem_cons_self
          · exact Or.inl h
        · exact Or.inr (List.mem_cons_of_mem _ h)
    · have hset : live ∪ (p :: pages).toFinset = insert p live ∪ pages.toFinset := by
        rw [List.toFinset_cons, Finset.union_insert, Finset.insert_union]
      rw [hset]
      exact H'
    · intro q hq
      rcases List.mem_cons.mp hq with rfl | hq
      · intro x h₁ h₂
        rw [hsame.frameAddr_eq] at h₁ h₂
        rw [hsame.frame_eq x h₁ h₂]
        exact hzero₁ x h₁ h₂
      · exact hzero q hq
    · intro q hq
      exact (hkept₁ q hq).trans (hkept q (Finset.mem_insert_of_mem hq))

end UserLevelOs.Memory
