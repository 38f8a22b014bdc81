import UserLevelOs.Memory.Clients
import UserLevelOs.Memory.Soundness

/-!
# What a free gives back

`t_free` checks the whole chain before it touches a page, and then walks it a second time
while it destroys links and mappings.  The two walks meet the same pages, since a chain of
live pages never returns to one it has passed.

## Main definitions

* `Call.Plain` — calls that keep away from page 0.
* `Freed` — exactly the pages of a list are given back.

## Main statements

* `CallRun.tFree_all_or_nothing`.
-/

namespace UserLevelOs.Memory

open UserLevelOs.Lib

/-- `NULL`, or an address outside page 0. -/
def AvoidsPageZero (va : ℕ) : Prop := va = 0 ∨ 0 < pageOf va

/-- Calls within the first page table, at no address of page 0.  A free may name any other
address and any size. -/
def Call.Plain (s : Vm) : Call → Prop
  | .tMalloc n =>
    (livePages s).card + pagesRequested n.toNat ≤ 1023 ∨
      261887 < (livePages s).card + pagesRequested n.toNat
  | .tFree va size => AvoidsPageZero va ∧ IsInt size
  | .putValue va _ size => AvoidsPageZero va ∧ IsInt size ∧ 0 ≤ size
  | .getValue va _ => AvoidsPageZero va

theorem accepts_null (s : Vm) {n : ℕ} (hn : 0 < n) : s.accepts n 0 = false := by
  obtain ⟨k, rfl⟩ := Nat.exists_eq_succ_of_ne_zero hn.ne'
  rfl

theorem toSizeT_ne_zero {x : ℤ} (hx : IsInt x) (h0 : x ≠ 0) : toSizeT x ≠ 0 := by
  simp only [IsInt] at hx
  simp only [toSizeT]
  omega

theorem Call.Plain.spares {s : Vm} {c : Call} (h : c.Plain s) : c.Spares s := by
  cases c with
  | tMalloc n => exact h
  | tFree va size =>
    refine ⟨h.2, fun hpage => ?_⟩
    have hnull : va = 0 := h.1.resolve_right (by omega)
    by_cases h0 : size = 0
    · exact Or.inl h0
    · rw [hnull]
      exact Or.inr (accepts_null s (pagesRequested_pos (toSizeT_ne_zero h.2 h0)))
  | putValue va val size =>
    refine ⟨h.2.1, h.2.2, fun hpage => ?_⟩
    have hnull : va = 0 := h.1.resolve_right (by omega)
    by_cases h0 : size = 0
    · exact Or.inl h0
    · have hsize : toSizeT (size + (0 % 4096 : ℕ)) = toSizeT size := by simp
      rw [hnull, hsize]
      exact Or.inr (accepts_null s (pagesRequested_pos (toSizeT_ne_zero h.2.1 h0)))
  | getValue va size => trivial

/-- Bitmaps and memory are the same, so every page-table cell and every frame is. -/
structure Unchanged (s s' : Vm) : Prop where
  virtualBitmap_eq : s'.virtualBitmap = s.virtualBitmap
  frameBitmap_eq : s'.frameBitmap = s.frameBitmap
  memory_eq : s'.memory = s.memory

/-- Exactly the pages of `ps` are given back: their bits and those of the frames they were
mapped to are lowered, their cells and frames cleared, and nothing else changes. -/
structure Freed (s s' : Vm) (ps : List ℕ) : Prop extends Wiped s s' ps where
  nodup : ps.Nodup
  used : ∀ p ∈ ps, Live s p
  walks : ∀ p ∈ ps, Walks s p (s.cell p)
  maps : ∀ p ∈ ps, Maps s p (s.frameNum p) ∧ s.frameAddr p = s.vmStart.addr + 4096 * s.frameNum p
  nodup_frames : (ps.map s.frameNum).Nodup
  frame_used : ∀ p ∈ ps, bitSetAt s.frameBitmap (s.frameNum p) = true
  virtual_eq : ∀ q < 262144,
    bitSetAt s'.virtualBitmap q = (bitSetAt s.virtualBitmap q && decide (q ∉ ps))
  frame_eq : ∀ f < 262144,
    bitSetAt s'.frameBitmap f = (bitSetAt s.frameBitmap f && decide (f ∉ ps.map s.frameNum))

/-- The bits of `s'` are those of `s` without the pages given back. -/
theorem freed_of_inv {s s' : Vm} {live : Finset ℕ} {ps : List ℕ} (H : TableInv s live)
    (H' : TableInv s' (live \ ps.toFinset)) (hnodup : ps.Nodup) (hlive : ∀ p ∈ ps, p ∈ live)
    (hstart : s'.vmStart = s.vmStart) (hkept : ∀ p ∈ live, p ∉ ps → SamePage s s' p)
    (hwiped : Wiped s s' ps) : Freed s s' ps where
  toWiped := hwiped
  nodup := hnodup
  used := fun p hp => H.live_iff.mpr (hlive p hp)
  walks := fun p hp => (H.walks_iff (hlive p hp)).mpr rfl
  maps := fun p hp => ⟨(H.maps_iff (hlive p hp)).mpr rfl, H.frameAddr_eq p (hlive p hp)⟩
  nodup_frames := hnodup.map_on fun p hp q hq h => H.frame_inj p (hlive p hp) q (hlive q hq) h
  frame_used := fun p hp =>
    (H.frame_used _ (H.frame_lt p (hlive p hp))).mpr (Or.inr ⟨p, hlive p hp, rfl⟩)
  virtual_eq := by
    intro q hq
    rw [Bool.eq_iff_iff, Bool.and_eq_true, decide_eq_true_eq, H'.used_iff q hq, H.used_iff q hq,
      Finset.mem_sdiff, List.mem_toFinset]
    constructor
    · rintro (rfl | ⟨hlive', hnot⟩)
      · exact ⟨Or.inl rfl, fun hmem => (H.live_pos 0 (hlive 0 hmem)).ne' rfl⟩
      · exact ⟨Or.inr hlive', hnot⟩
    · rintro ⟨h0 | hlive', hnot⟩
      · exact Or.inl h0
      · exact Or.inr ⟨hlive', hnot⟩
  frame_eq := by
    have hnum : ∀ p ∈ live, p ∉ ps → s'.frameNum p = s.frameNum p := by
      intro p hp hnot
      rw [Vm.frameNum, Vm.frameNum, (hkept p hp hnot).frameAddr_eq, hstart]
    intro f hf
    rw [Bool.eq_iff_iff, Bool.and_eq_true, decide_eq_true_eq, H'.frame_used f hf, H.frame_used f hf,
      List.mem_map]
    constructor
    · rintro (hres | ⟨p, hp, rfl⟩)
      · refine ⟨Or.inl hres, ?_⟩
        rintro ⟨p, hp, rfl⟩
        have := H.frame_reserved p (hlive p hp)
        omega
      · rw [Finset.mem_sdiff, List.mem_toFinset] at hp
        rw [hnum p hp.1 hp.2]
        refine ⟨Or.inr ⟨p, hp.1, rfl⟩, ?_⟩
        rintro ⟨q, hq, heq⟩
        exact hp.2 (H.frame_inj q (hlive q hq) p hp.1 heq ▸ hq)
    · rintro ⟨hres | ⟨p, hp, rfl⟩, hnot⟩
      · exact Or.inl hres
      · have hps : p ∉ ps := fun hmem => hnot ⟨p, hmem, rfl⟩
        exact Or.inr ⟨p, Finset.mem_sdiff.mpr ⟨hp, fun h => hps (List.mem_toFinset.mp h)⟩,
          hnum p hp hps⟩

/-- In every run of calls that keep away from page 0, a free of any other address and any
size either changes no bitmap, cell or frame, or gives back exactly as many pages as the
size asks for; and no chain of live pages passes a page twice. -/
theorem CallRun.tFree_all_or_nothing {v : VmStart} {s : Vm} (hrun : CallRun Call.Plain v s) :
    (∀ va size, Call.Plain s (.tFree va size) → ∃ s', tFree s va size = some s' ∧
      (Unchanged s s' ∨
        ∃ ps : List ℕ, ps.length = pagesRequested size.toNat ∧ Freed s s' ps)) ∧
    ∀ ps : List ℕ, (∀ p ∈ ps, Live s p) → (ps.IsChain fun p q => pageOf (s.link p) = q) →
      ps.Nodup := by
  obtain ⟨live, C⟩ := (hrun.mono fun _ _ => Call.Plain.spares).clientInv
  refine ⟨fun va size hc => ?_, fun ps hlive hchain => ?_⟩
  · obtain ⟨s', hexec, heffect⟩ := C.tFree hc.spares.2
    refine ⟨s', hexec, ?_⟩
    rcases heffect with ⟨hsame, -⟩ | ⟨h0, ps, hlen, hnodup, hlive, C', hstart, hkept, hwiped⟩
    · exact Or.inl ⟨hsame.virtualBitmap_eq, hsame.frameBitmap_eq, hsame.memory_eq⟩
    · refine Or.inr ⟨ps, ?_, freed_of_inv C.page.toTableInv C'.page.toTableInv hnodup hlive hstart
        hkept hwiped⟩
      have hint := hc.2
      rw [IsInt] at hint
      by_cases hneg : size < 0
      · -- a negative size asks for more pages than a chain can have
        have hshort := C.length_le hnodup hlive
        rw [hlen, pagesRequested_le_iff] at hshort
        simp only [toSizeT] at hshort
        omega
      · have hsize : toSizeT size = size.toNat := by
          simp only [toSizeT]
          omega
        rw [hlen, hsize]
  · exact C.nodup (fun p hp => C.page.live_iff.mp (hlive p hp)) hchain

/-- The run that allocates once. -/
theorem CallRun.malloc_first (v : VmStart) {n : UInt32} (hn : n ≠ 0)
    (hfit : pagesRequested n.toNat ≤ 1023) :
    ∃ s₀ s va, setPhysicalMem v = some s₀ ∧ tMalloc s₀ n = some (va, s) ∧
      CallRun Call.Plain v s := by
  obtain ⟨s₀, hinit, H, hlock, -⟩ := setPhysicalMem_spec v
  have hcard : (livePages s₀).card = 0 := by rw [H.livePages_eq, Finset.card_empty]
  have hplain : Call.Plain s₀ (.tMalloc n) := Or.inl (by rw [hcard]; omega)
  obtain ⟨ps, s, hexec, -⟩ :=
    tMalloc_granted H hlock hn (by rw [Finset.card_empty]; omega)
  exact ⟨s₀, s, _, hinit, hexec,
    (CallRun.start hinit).call hplain (by rw [Call.exec, hexec, Option.map_some])⟩

/-- `CallRun.tFree_all_or_nothing` for the first page of an allocation of two. -/
theorem CallRun.tFree_all_or_nothing_prefix : ∃ (v : VmStart) (s₀ s : Vm) (va : ℕ),
    setPhysicalMem v = some s₀ ∧ tMalloc s₀ 5000 = some (va, s) ∧
    ∃ s', tFree s 4096 4092 = some s' ∧
      (Unchanged s s' ∨ ∃ ps : List ℕ, ps.length = 1 ∧ Freed s s' ps) := by
  let v : VmStart := ⟨4096, by decide, by decide⟩
  obtain ⟨s₀, s, va, hinit, hexec, hrun⟩ :=
    CallRun.malloc_first v (n := 5000) (by decide) (by decide)
  have hpage : pageOf 4096 = 1 := by decide
  obtain ⟨s', hfree, heffect⟩ := (CallRun.tFree_all_or_nothing hrun).1 4096 4092
    ⟨Or.inr (by rw [hpage]; omega), by rw [IsInt]; omega⟩
  exact ⟨v, s₀, s, va, hinit, hexec, s', hfree, heffect⟩

end UserLevelOs.Memory
