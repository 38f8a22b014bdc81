import UserLevelOs.Memory.Chain

/-!
# Linking fresh pages, and giving pages back

`linkPages` turns a list of cleared pages into a chain.  `tFreeAux` walks a chain and
undoes the mapping of each page it meets.  Both leave the pages of every other chain
alone.

## Main definitions

* `linkPages_spec`.
* `TableInv.unmap` — the table once one page is given back.
* `Wiped` — cells and frames are cleared.
* `freePage_spec`, `tFreeAux_spec`.
-/

namespace UserLevelOs.Memory

open UserLevelOs.Lib

/-! ## Linking -/

/-- Storing into the first word of a live page changes its link and nothing else. -/
theorem storeLink_spec {s : Vm} {live : Finset ℕ} (H : PageInv s live) {p v : ℕ} (hp : p ∈ live)
    (hv : v < 2 ^ 32) :
    ∃ s', s.storeWord (s.frameAddr p) v = some s' ∧ PageInv s' live ∧
      s'.libraryLock = s.libraryLock ∧ s'.link p = v ∧ s'.payload p = s.payload p ∧
      (∀ q ∈ live, s'.frameAddr q = s.frameAddr q) ∧ ∀ q ∈ live, q ≠ p → SamePage s s' q := by
  have hown : s.Owns (s.frameAddr p) 4 := H.owns_frame (a := 0) hp (by omega)
  let s' : Vm := { s with memory := s.memory.storeLE (s.frameAddr p) 4 v }
  have hmem : ∀ x, x < s.frameAddr p ∨ s.frameAddr p + 4 ≤ x → s'.memory x = s.memory x :=
    fun x hx => Bytes.storeLE_apply_of_notMem hx
  have hsame : SameTable s s' := by
    refine ⟨rfl, rfl, rfl, rfl, rfl, fun x _ h₂ => hmem x (Or.inl ?_)⟩
    have h₁ := H.cell_lt_frame (p := 1023) (by omega) hp
    simp only [Vm.cell] at h₁
    omega
  have hframe : ∀ q ∈ live, s'.frameAddr q = s.frameAddr q :=
    fun q hq => hsame.frameAddr_eq (H.live_lt q hq)
  refine ⟨s', if_pos hown, ⟨hsame.tableInv H.toTableInv, hsame.tlbInv H.toTlbInv rfl⟩, rfl,
    ?_, ?_, hframe, ?_⟩
  · rw [Vm.link, hframe p hp, Bytes.loadLE_storeLE_same]
    omega
  · rw [Vm.payload, Vm.payload, hframe p hp]
    exact Bytes.read_congr fun x h₁ _ => hmem x (Or.inr h₁)
  · intro q hq hne
    have hd := H.frame_disjoint hp hq (Ne.symm hne)
    exact ⟨hframe q hq, fun x h₁ h₂ => hmem x (by omega)⟩

/-- The linking loop chains cleared pages in the order of the list. -/
theorem linkPages_spec {s : Vm} {live : Finset ℕ} (H : PageInv s live) {ps : List ℕ}
    (hlive : ∀ p ∈ ps, p ∈ live) (hnodup : ps.Nodup) (hzero : ∀ p ∈ ps, s.link p = 0)
    {fa : ℕ → ℕ} (hfa : ∀ p ∈ ps, fa p = s.frameAddr p) :
    ∃ s', linkPages (ps.map fun p => (4096 * p, fa p)) s = some s' ∧ PageInv s' live ∧
      s'.libraryLock = s.libraryLock ∧ Linked s' ps ∧ (∀ p ∈ ps, s'.payload p = s.payload p) ∧
      ∀ q ∈ live, q ∉ ps → SamePage s s' q := by
  induction ps generalizing s with
  | nil => exact ⟨s, rfl, H, rfl, trivial, by simp, fun q _ _ => SamePage.refl s q⟩
  | cons p ps ih =>
    have hp : p ∈ live := hlive p List.mem_cons_self
    obtain ⟨hnotin, hnodup'⟩ := List.nodup_cons.mp hnodup
    cases ps with
    | nil =>
      refine ⟨s, rfl, H, rfl, ⟨?_, trivial⟩, fun _ _ => rfl, fun q _ _ => SamePage.refl s q⟩
      rw [hzero p List.mem_cons_self, headVa]
    | cons q ps =>
      have hlive' : ∀ r ∈ q :: ps, r ∈ live := fun r hr => hlive r (List.mem_cons_of_mem _ hr)
      have hq : 4096 * q < 2 ^ 32 := by
        have := H.live_lt q (hlive' q List.mem_cons_self)
        omega
      obtain ⟨s₁, hstore, H₁, hlock₁, hlink, hpay, hframe, hother⟩ := storeLink_spec H hp hq
      have hrest : ∀ r ∈ q :: ps, SamePage s s₁ r := fun r hr =>
        hother r (hlive' r hr) fun h => hnotin (h ▸ hr)
      obtain ⟨s', hlinks, H', hlock, hlinked, hpays, hkept⟩ :=
        ih H₁ hlive' hnodup'
          (fun r hr => (hrest r hr).link_eq.trans (hzero r (List.mem_cons_of_mem _ hr)))
          (fun r hr => (hfa r (List.mem_cons_of_mem _ hr)).trans (hframe r (hlive' r hr)).symm)
      have hpsame : SamePage s₁ s' p := hkept p hp hnotin
      refine ⟨s', ?_, H', hlock.trans hlock₁, ⟨?_, hlinked⟩, ?_, ?_⟩
      · rw [List.map_cons] at hlinks
        rw [List.map_cons, List.map_cons, linkPages, hfa p List.mem_cons_self, hstore]
        exact hlinks
      · rw [hpsame.link_eq, hlink, headVa]
      · intro r hr
        rcases List.mem_cons.mp hr with rfl | hr
        · rw [hpsame.payload_eq, hpay]
        · rw [hpays r hr, (hrest r hr).payload_eq]
      · intro r hr hrp
        rw [List.mem_cons, not_or] at hrp
        exact (hother r hr hrp.1).trans (hkept r hr hrp.2)

/-! ## Unmapping -/

theorem framePosition_eq {s : Vm} {live : Finset ℕ} (H : TableInv s live) {p : ℕ}
    (hp : p ∈ live) : framePositionFromPointer s (s.frameAddr p) = s.frameNum p := by
  have h₁ := H.frameAddr_eq p hp
  have h₂ := H.frame_lt p hp
  have h₃ := s.vmStart.addr_fits
  simp only [MEMSIZE] at h₃
  simp only [framePositionFromPointer, PGSIZE]
  omega

/-- The table once page `p` is given back: its cell and its frame are cleared, and its
two bits lowered. -/
theorem TableInv.unmap {s : Vm} (s' : Vm) {live : Finset ℕ} (H : TableInv s live) {p : ℕ}
    (hp : p ∈ live) (hstart : s'.vmStart = s.vmStart) (hptbr : s'.ptbr = s.ptbr)
    (hvirtual : s'.virtualBitmap = Bitmap.unset .msbFirst s.virtualBitmap p)
    (hframe : s'.frameBitmap = Bitmap.unset .msbFirst s.frameBitmap (s.frameNum p))
    (hmemory : s'.memory = (s.memory.fill (s.cell p) 4 0).fill (s.frameAddr p) 4096 0) :
    TableInv s' (live.erase p) ∧ ∀ q ∈ live, q ≠ p → SamePage s s' q := by
  have hlt := H.live_lt p hp
  have hpos := H.live_pos p hp
  have hcell : ∀ q, s'.cell q = s.cell q := fun q => by rw [Vm.cell, Vm.cell, hptbr]
  have hold : ∀ q < 1024, q ≠ p → s'.frameAddr q = s.frameAddr q := by
    intro q hq hne
    have hc := H.cell_lt_frame hq hp
    rw [Vm.frameAddr, Vm.frameAddr, hcell, hmemory]
    refine Bytes.loadLE_congr fun x h₁ h₂ => ?_
    rw [Bytes.fill_apply_of_notMem (by omega), Bytes.fill_apply_of_notMem]
    simp only [Vm.cell] at h₁ h₂ ⊢
    omega
  have holdNum : ∀ q ∈ live, q ≠ p → s'.frameNum q = s.frameNum q := by
    intro q hq hne
    rw [Vm.frameNum, Vm.frameNum, hold q (H.live_lt q hq) hne, hstart]
  have hdir : s'.frameAddr 0 = s'.ptbr := by
    rw [hold 0 (by omega) (by omega), hptbr]
    exact H.dir_zero
  refine ⟨⟨⟨by rw [hptbr, hstart, H.ptbr_eq], hdir⟩, ?_, ?_, ?_, ?_, ?_, ?_, ?_, ?_⟩, ?_⟩
  · exact fun q hq => H.live_pos q (Finset.mem_of_mem_erase hq)
  · exact fun q hq => H.live_lt q (Finset.mem_of_mem_erase hq)
  · intro q hq
    rw [hvirtual, bitSetAt_unset, Bool.and_eq_true, decide_eq_true_eq, H.used_iff q hq,
      Finset.mem_erase]
    constructor
    · rintro ⟨hne, h | h⟩
      · exact Or.inl h
      · exact Or.inr ⟨hne, h⟩
    · rintro (rfl | ⟨hne, h⟩)
      · exact ⟨by omega, Or.inl rfl⟩
      · exact ⟨hne, Or.inr h⟩
  · intro q hq
    obtain ⟨hne, hq⟩ := Finset.mem_erase.mp hq
    rw [hold q (H.live_lt q hq) hne, holdNum q hq hne, hstart, H.frameAddr_eq q hq]
  · intro q hq
    obtain ⟨hne, hq⟩ := Finset.mem_erase.mp hq
    rw [holdNum q hq hne]
    exact H.frame_reserved q hq
  · intro q hq
    obtain ⟨hne, hq⟩ := Finset.mem_erase.mp hq
    rw [holdNum q hq hne]
    exact H.frame_lt q hq
  · intro q hq r hr
    obtain ⟨hqne, hq⟩ := Finset.mem_erase.mp hq
    obtain ⟨hrne, hr⟩ := Finset.mem_erase.mp hr
    rw [holdNum q hq hqne, holdNum r hr hrne]
    exact H.frame_inj q hq r hr
  · intro f hf
    rw [hframe, bitSetAt_unset, Bool.and_eq_true, decide_eq_true_eq, H.frame_used f hf]
    constructor
    · rintro ⟨hne, h | ⟨q, hq, rfl⟩⟩
      · exact Or.inl h
      · have hqp : q ≠ p := by rintro rfl; exact hne rfl
        exact Or.inr ⟨q, Finset.mem_erase.mpr ⟨hqp, hq⟩, holdNum q hq hqp⟩
    · rintro (h | ⟨q, hq, rfl⟩)
      · have := H.frame_reserved p hp
        exact ⟨by omega, Or.inl h⟩
      · obtain ⟨hne, hq⟩ := Finset.mem_erase.mp hq
        rw [holdNum q hq hne]
        exact ⟨fun h => hne (H.frame_inj q hq p hp h), Or.inr ⟨q, hq, rfl⟩⟩
  · intro q hq hne
    have hc := H.cell_lt_frame hlt hq
    have hd := H.frame_disjoint hp hq (Ne.symm hne)
    refine ⟨hold q (H.live_lt q hq) hne, fun x h₁ h₂ => ?_⟩
    rw [hmemory, Bytes.fill_apply_of_notMem (by omega), Bytes.fill_apply_of_notMem (by omega)]

/-- Dropping entries keeps the cache sound. -/
theorem TlbInv.forget {s : Vm} (H : TlbInv s) (va : ℕ) :
    ∃ found cache, searchAndRemove s.tlbCache va = some (found, cache) ∧
      TlbInv { s with tlbCache := cache } := by
  obtain ⟨found, cache, hsearch, hcache, -⟩ := H.cacheOf.searchAndRemove_spec va
  exact ⟨found, cache, hsearch, hcache.size_eq, hcache.size_le, hcache.frame_eq⟩

/-- `x` is an address of the cell of page `p`, or of the frame it is mapped to. -/
def Vm.InPage (s : Vm) (p x : ℕ) : Prop :=
  (s.cell p ≤ x ∧ x < s.cell p + 4) ∨ (s.frameAddr p ≤ x ∧ x < s.frameAddr p + 4096)

/-- From `s` to `s'`, the cells and frames of the pages of the list are cleared, and no
other byte changes. -/
structure Wiped (s s' : Vm) (ps : List ℕ) : Prop where
  wiped : ∀ p ∈ ps, ∀ x, s.InPage p x → s'.memory x = 0
  kept : ∀ x, (∀ p ∈ ps, ¬ s.InPage p x) → s'.memory x = s.memory x

namespace Wiped

variable {s s' s'' : Vm} {ps : List ℕ} {p : ℕ}

theorem refl (s : Vm) : Wiped s s [] := ⟨by simp, fun _ _ => rfl⟩

/-- One page after the other. -/
theorem cons (h : Wiped s s' [p]) (h' : Wiped s' s'' ps)
    (hin : ∀ q ∈ ps, ∀ x, s'.InPage q x ↔ s.InPage q x) : Wiped s s'' (p :: ps) where
  wiped := by
    intro q hq x hx
    by_cases hlater : ∃ r ∈ ps, s.InPage r x
    · obtain ⟨r, hr, hrx⟩ := hlater
      exact h'.wiped r hr x ((hin r hr x).mpr hrx)
    · push Not at hlater
      rcases List.mem_cons.mp hq with rfl | hq
      · rw [h'.kept x fun r hr hrx => hlater r hr ((hin r hr x).mp hrx)]
        exact h.wiped q List.mem_cons_self x hx
      · exact absurd hx (hlater q hq)
  kept := by
    intro x hx
    rw [h'.kept x fun r hr hrx => hx r (List.mem_cons_of_mem _ hr) ((hin r hr x).mp hrx)]
    refine h.kept x fun r hr => ?_
    rw [List.mem_singleton] at hr
    rw [hr]
    exact hx p List.mem_cons_self

/-- Only memory and the base of the directory matter. -/
theorem congr {t t' : Vm} (h : Wiped s s' ps) (hmem : t.memory = s.memory) (hptbr : t.ptbr = s.ptbr)
    (hmem' : t'.memory = s'.memory) : Wiped t t' ps := by
  have hin : ∀ p x, t.InPage p x ↔ s.InPage p x := by
    intro p x
    rw [Vm.InPage, Vm.InPage, Vm.frameAddr, Vm.frameAddr, Vm.cell, Vm.cell, hmem, hptbr]
  refine ⟨fun p hp x hx => ?_, fun x hx => ?_⟩
  · rw [hmem']
    exact h.wiped p hp x ((hin p x).mp hx)
  · rw [hmem', hmem]
    exact h.kept x fun p hp hpx => hx p hp ((hin p x).mpr hpx)

/-- One page, by the two `memset`s. -/
theorem page (hmemory : s'.memory = (s.memory.fill (s.cell p) 4 0).fill (s.frameAddr p) 4096 0) :
    Wiped s s' [p] := by
  refine ⟨fun q hq x hx => ?_, fun x hx => ?_⟩
  · rw [List.mem_singleton] at hq
    subst hq
    rw [hmemory]
    by_cases hframe : s.frameAddr q ≤ x ∧ x < s.frameAddr q + 4096
    · exact Bytes.fill_apply_of_mem hframe.1 hframe.2
    · obtain ⟨h₁, h₂⟩ := Or.resolve_right hx hframe
      rw [Bytes.fill_apply_of_notMem (by omega), Bytes.fill_apply_of_mem h₁ h₂]
  · have hout := hx p List.mem_cons_self
    simp only [Vm.InPage, not_or, not_and_or, not_le, not_lt] at hout
    rw [hmemory, Bytes.fill_apply_of_notMem (by omega), Bytes.fill_apply_of_notMem (by omega)]

end Wiped

/-- One turn of `t_free_aux`, which answers the link it goes on at. -/
def freePage (start : ℕ) (s : Vm) : Option (ℕ × Vm) := do
  let (_, cache) ← searchAndRemove s.tlbCache start
  let (pteHoldingFrame, s) ← translate { s with tlbCache := cache } start
  let pa ← s.loadWord pteHoldingFrame
  let s ← s.clear pteHoldingFrame WORD_BYTES
  let newStart ← s.loadWord pa
  let virtualBitmap ← unsetBitAt s.virtualBitmap (pageOf start)
  let frameBitmap ← unsetBitAt s.frameBitmap (framePositionFromPointer s pa)
  let s ← { s with virtualBitmap, frameBitmap }.clear pa PGSIZE
  some (newStart, s)

theorem tFreeAux_succ (n : ℕ) {start : ℕ} (h0 : start ≠ 0) (s : Vm) :
    tFreeAux (n + 1) start s = (freePage start s).bind fun r => tFreeAux n r.1 r.2 := by
  rw [tFreeAux, if_neg h0, freePage]
  simp only [Option.bind_eq_bind, Option.bind_assoc, Option.bind_some]

/-- One turn gives back the page of `start`. -/
theorem freePage_spec {s : Vm} {live : Finset ℕ} (H : PageInv s live) {start p : ℕ}
    (hpage : pageOf start = p) (hp : p ∈ live) :
    ∃ s', freePage start s = some (s.link p, s') ∧
      PageInv s' (live.erase p) ∧ s'.libraryLock = s.libraryLock ∧ s'.vmStart = s.vmStart ∧
      s'.ptbr = s.ptbr ∧ (∀ q ∈ live, q ≠ p → SamePage s s' q) ∧ Wiped s s' [p] := by
  have hlt := H.live_lt p hp
  obtain ⟨found, cache, hsearch, htlb⟩ := H.toTlbInv.forget start
  have hcache : SameStore s { s with tlbCache := cache } :=
    SameStore.of_cache s cache s.tlbMisses s.tlbLookups
  have Hc : PageInv { s with tlbCache := cache } live := ⟨hcache.tableInv H.toTableInv, htlb⟩
  have hmem : pageOf start ∈ live := hpage ▸ hp
  obtain ⟨s₁, htr, hsame₁, H₁⟩ := Hc.translate hmem
  have hsame := hcache.trans hsame₁
  have hpte : s₁.loadWord (s.cell p) = some (s.frameAddr p) := by
    rw [← hsame.cell_eq, H₁.loadWord_cell hlt, hsame.frameAddr_eq']
  let s₂ : Vm := { s₁ with memory := s.memory.fill (s.cell p) 4 0 }
  have hclearCell : s₁.clear (s.cell p) 4 = some s₂ := by
    have hown := H₁.owns_cell hlt
    rw [hsame.cell_eq] at hown
    rw [Vm.clear, if_pos hown, hsame.memory_eq]
  have hclt := H.cell_lt_frame hlt hp
  have hlink : s₂.loadWord (s.frameAddr p) = some (s.link p) := by
    have hown : s₂.Owns (s.frameAddr p) 4 := by
      have h := H₁.owns_frame (a := 0) (n := 4) hp (by omega)
      rw [hsame.frameAddr_eq'] at h
      exact h
    rw [Vm.loadWord, if_pos hown, Vm.link]
    congr 1
    exact Bytes.loadLE_congr fun x h₁ _ => Bytes.fill_apply_of_notMem (Or.inr (by omega))
  let s₃ : Vm := { s₂ with
    virtualBitmap := Bitmap.unset .msbFirst s.virtualBitmap p
    frameBitmap := Bitmap.unset .msbFirst s.frameBitmap (s.frameNum p) }
  let s₄ : Vm := { s₃ with memory := s₂.memory.fill (s.frameAddr p) 4096 0 }
  have hclearFrame : s₃.clear (s.frameAddr p) 4096 = some s₄ := by
    have hown := H₁.owns_frame (a := 0) (n := 4096) hp (by omega)
    rw [hsame.frameAddr_eq'] at hown
    exact if_pos hown
  have hrun : freePage start s = some (s.link p, s₄) := by
    have hpos₁ : framePositionFromPointer s₂ (s.frameAddr p) = s.frameNum p := by
      have h : framePositionFromPointer s₂ (s.frameAddr p) =
          framePositionFromPointer s (s.frameAddr p) := by
        simp only [framePositionFromPointer, s₂, hsame.vmStart_eq]
      rw [h, framePosition_eq H.toTableInv hp]
    have hu₁ : unsetBitAt s₂.virtualBitmap p =
        some (Bitmap.unset .msbFirst s.virtualBitmap p) := by
      change unsetBitAt s₁.virtualBitmap p = _
      rw [hsame.virtualBitmap_eq]
      exact if_pos (show p < 262144 by omega)
    have hu₂ : unsetBitAt s₂.frameBitmap (s.frameNum p) =
        some (Bitmap.unset .msbFirst s.frameBitmap (s.frameNum p)) := by
      change unsetBitAt s₁.frameBitmap _ = _
      rw [hsame.frameBitmap_eq]
      exact if_pos (H.frame_lt p hp)
    have hcell : (Vm.cell { s with tlbCache := cache } (pageOf start)) = s.cell p := by
      rw [hpage]; rfl
    rw [freePage]
    simp only [hsearch, htr, hcell, hpte, Option.bind_eq_bind, Option.bind_some]
    change (s₁.clear (s.cell p) 4).bind _ = _
    simp only [hclearCell, Option.bind_some, hlink, hpage, hu₁, hpos₁, hu₂]
    change (s₃.clear (s.frameAddr p) 4096).bind _ = _
    simp only [hclearFrame, Option.bind_some]
  obtain ⟨htable, hother⟩ := H.toTableInv.unmap s₄ hp
    hsame.vmStart_eq hsame.ptbr_eq rfl rfl rfl
  exact ⟨s₄, hrun, ⟨htable, H₁.size_eq, H₁.size_le, H₁.frame_eq⟩,
    hsame.libraryLock_eq, hsame.vmStart_eq, hsame.ptbr_eq, hother, Wiped.page rfl⟩

/-- Freeing the first pages of a chain gives back exactly these. -/
theorem tFreeAux_spec {s : Vm} {live : Finset ℕ} (H : PageInv s live) {ps : List ℕ}
    (hlive : ∀ p ∈ ps, p ∈ live) (hnodup : ps.Nodup) (htrail : Trail s ps)
    {start : ℕ} (hstart : ∀ p ∈ ps.head?, pageOf start = p) :
    ∃ s', tFreeAux ps.length start s = some s' ∧ PageInv s' (live \ ps.toFinset) ∧
      s'.libraryLock = s.libraryLock ∧ s'.vmStart = s.vmStart ∧
      (∀ q ∈ live, q ∉ ps → SamePage s s' q) ∧ Wiped s s' ps := by
  induction ps generalizing s live start with
  | nil =>
    exact ⟨s, rfl, by simpa using H, rfl, rfl, fun q _ _ => SamePage.refl s q, Wiped.refl s⟩
  | cons p ps ih =>
    have hp : p ∈ live := hlive p List.mem_cons_self
    have hne : start ≠ 0 := by
      rintro rfl
      have hpage := hstart p rfl
      have hpos := H.live_pos p hp
      rw [pageOf_eq] at hpage
      omega
    obtain ⟨hnotin, hnodup'⟩ := List.nodup_cons.mp hnodup
    obtain ⟨s₁, hstep, H₁, hlock₁, hstart₁, hptbr, hother, hwiped⟩ :=
      freePage_spec H (hstart p rfl) hp
    have hrest : ∀ q ∈ ps, SamePage s s₁ q := fun q hq =>
      hother q (hlive q (List.mem_cons_of_mem _ hq)) fun h => hnotin (h ▸ hq)
    obtain ⟨s', hfree, H', hlock, hstart', hkept, hwiped'⟩ :=
      ih H₁ (fun q hq => Finset.mem_erase.mpr
          ⟨fun h => hnotin (h ▸ hq), hlive q (List.mem_cons_of_mem _ hq)⟩)
        hnodup' (htrail.2.congr fun q hq => (hrest q hq).link_eq) htrail.next
    have hin : ∀ q ∈ ps, ∀ x, s₁.InPage q x ↔ s.InPage q x := by
      intro q hq x
      rw [Vm.InPage, Vm.InPage, (hrest q hq).frameAddr_eq, Vm.cell, Vm.cell, hptbr]
    refine ⟨s', by rw [List.length_cons, tFreeAux_succ _ hne, hstep, Option.bind_some, hfree], ?_, hlock.trans hlock₁,
      hstart'.trans hstart₁, ?_, hwiped.cons hwiped' hin⟩
    · have hset : live \ (p :: ps).toFinset = live.erase p \ ps.toFinset := by
        ext q
        simp only [List.toFinset_cons, Finset.mem_sdiff, Finset.mem_insert, Finset.mem_erase, not_or]
        tauto
      rw [hset]
      exact H'
    · intro q hq hqp
      rw [List.mem_cons, not_or] at hqp
      exact (hother q hq hqp.1).trans (hkept q (Finset.mem_erase.mpr ⟨hqp.1, hq⟩) hqp.2)

end UserLevelOs.Memory
