import UserLevelOs.Memory.Refinement

/-!
# Runs of the library against the heap

`Represents` holds after `set_physical_mem` and is kept by every allowed call, so it holds
in every run within one page table.

## Main statements

* `Represents.exec` — one call against one step of the heap.
* `HeapRun.represents`, `HeapRun.refines`.
-/

namespace UserLevelOs.Memory

open UserLevelOs.Lib

namespace Represents

variable {s s' : Vm} {h : Heap} {b : Block} {p va : ℕ}

theorem card_eq (R : Represents s h) : h.pages.toFinset.card = h.pages.length :=
  List.toFinset_card_of_nodup R.nodup

theorem mem_live {h : Heap} (hb : b ∈ h) (hp : p ∈ b.pages) : p ∈ h.pages.toFinset :=
  List.mem_toFinset.mpr (Heap.mem_pages hb hp)

theorem length_block_le (R : Represents s h) (hb : b ∈ h) : b.pages.length ≤ 1023 := by
  have hcard := (List.toFinset_card_of_nodup (Heap.nodup_block R.nodup hb)).symm
  have hsub : b.pages.toFinset ⊆ h.pages.toFinset := by
    intro p hp
    exact mem_live hb (List.mem_toFinset.mp hp)
  have hle := Finset.card_le_card hsub
  have hlen := R.length_le
  rw [R.card_eq] at hle
  omega

/-- Pages of other allocations are not pages of this one. -/
theorem notMem_of_ne (R : Represents s h) {b' : Block} (hb : b ∈ h) (hb' : b' ∈ h) (hne : b' ≠ b)
    (hp : p ∈ b'.pages) : p ∉ b.pages :=
  fun h => hne (Heap.eq_of_mem_pages R.nodup hb' hb hp h)

/-- The base address tells the allocations apart. -/
theorem eq_of_base (R : Represents s h) {b' : Block} (hb : b ∈ h) (hb' : b' ∈ h)
    (heq : b'.base = b.base) : b' = b := by
  obtain ⟨p, ps, hp⟩ := List.exists_cons_of_ne_nil (R.pages_ne b hb)
  obtain ⟨q, qs, hq⟩ := List.exists_cons_of_ne_nil (R.pages_ne b' hb')
  simp only [Block.base, hp, hq, headVa] at heq
  have hpq : q = p := by omega
  refine Heap.eq_of_mem_pages R.nodup hb' hb (p := p) ?_ ?_
  · rw [hq, hpq]; exact List.mem_cons_self
  · rw [hp]; exact List.mem_cons_self

/-- An allocation whose pages are kept is still the chain it was, with its bytes. -/
theorem keep (R : Represents s h) (hb : b ∈ h) (hsame : ∀ p ∈ b.pages, SamePage s s' p) :
    Linked s' b.pages ∧ s'.image b.pages = b.data := by
  refine ⟨(R.linked b hb).congr fun p hp => (hsame p hp).link_eq, ?_⟩
  rw [image_congr hsame, R.image_eq b hb]

/-! ## Allocation -/

theorem malloc (R : Represents s h) {n : UInt32} (hn : n ≠ 0)
    (hfit : h.pages.length + pagesRequested n.toNat ≤ 1023) :
    ∃ va s', tMalloc s n = some (va, s') ∧ 0 < va ∧ va % 4096 = 0 ∧
      Represents s' (h.after s' (.tMalloc n) (.ptr va)) ∧
      ∀ p ∈ h.pages, SamePage s s' p := by
  rw [← R.card_eq] at hfit
  obtain ⟨ps, s', hexec, hlen, hnodup, hnew, H, hlock, hlinked, himage, hkept⟩ :=
    tMalloc_granted R.inv R.unlocked hn hfit
  have hold : ∀ p ∈ h.pages, SamePage s s' p := fun p hp => hkept p (List.mem_toFinset.mpr hp)
  have hne : ps ≠ [] := by
    rintro rfl
    have := pagesRequested_pos fun h => hn (UInt32.toNat_inj.mp h)
    rw [List.length_nil] at hlen
    omega
  have hpos : 0 < headVa ps := by
    cases ps with
    | nil => exact absurd rfl hne
    | cons p ps =>
      have := (hnew p List.mem_cons_self).1
      simp only [headVa]
      omega
  have halign : headVa ps % 4096 = 0 := by
    cases ps with
    | nil => rfl
    | cons p ps => simp only [headVa]; omega
  have hchain : s'.chainFrom (pagesRequested n.toNat) (headVa ps) = ps := by
    rw [← hlen]
    exact hlinked.chainFrom (pointsTo_headVa ps)
  refine ⟨headVa ps, s', hexec, hpos, halign, ?_, hold⟩
  let b := Block.fresh n.toNat ps hlen
  have hafter : h.after s' (.tMalloc n) (.ptr (headVa ps)) = b :: h := by
    simp only [Heap.after, hpos.ne', if_false, hchain, b]
  have hpages : Heap.pages (b :: h) = ps ++ h.pages := rfl
  have hdisj : ∀ p ∈ ps, p ∉ h.pages := fun p hp hmem =>
    (hnew p hp).2 (List.mem_toFinset.mpr hmem)
  rw [hafter]
  refine ⟨?_, hlock, ?_, ?_, ?_, ?_, ?_⟩
  · rw [hpages, List.toFinset_append, Finset.union_comm]
    exact H
  · rw [hpages, List.nodup_append]
    exact ⟨hnodup, R.nodup, fun p hp q hq heq => hdisj p hp (heq ▸ hq)⟩
  · rw [hpages, List.length_append, hlen, ← R.card_eq, Nat.add_comm]
    exact hfit
  · intro c hc
    rcases List.mem_cons.mp hc with rfl | hc
    · exact hne
    · exact R.pages_ne c hc
  · intro c hc
    rcases List.mem_cons.mp hc with rfl | hc
    · exact hlinked
    · exact (R.keep hc fun p hp => hold p (Heap.mem_pages hc hp)).1
  · intro c hc
    rcases List.mem_cons.mp hc with rfl | hc
    · exact himage
    · exact (R.keep hc fun p hp => hold p (Heap.mem_pages hc hp)).2

/-! ## Freeing -/

theorem pages_free (R : Represents s h) (hb : b ∈ h) :
    (Heap.pages (h.filter fun c => c.base ≠ b.base)).toFinset =
      h.pages.toFinset \ b.pages.toFinset := by
  ext p
  rw [Finset.mem_sdiff, List.mem_toFinset, List.mem_toFinset, List.mem_toFinset]
  constructor
  · intro hp
    obtain ⟨c, hc, hpc⟩ := List.mem_flatMap.mp hp
    obtain ⟨hc, hbase⟩ := List.mem_filter.mp hc
    have hne : c ≠ b := by
      rintro rfl
      simp at hbase
    exact ⟨Heap.mem_pages hc hpc, R.notMem_of_ne hb hc hne hpc⟩
  · intro hp
    obtain ⟨c, hc, hpc⟩ := List.mem_flatMap.mp hp.1
    have hbase : c.base ≠ b.base := by
      intro heq
      rw [R.eq_of_base hb hc heq] at hpc
      exact hp.2 hpc
    exact Heap.mem_pages (List.mem_filter.mpr ⟨hc, by simpa using hbase⟩) hpc

theorem free (R : Represents s h) (hb : b ∈ h) :
    ∃ s', tFree s b.base b.size = some s' ∧
      Represents s' (h.after s' (.tFree b.base b.size) .unit) ∧
      ∀ c ∈ h, c ≠ b → ∀ p ∈ c.pages, SamePage s s' p := by
  obtain ⟨s', hexec, H, hlock, hkept⟩ := tFree_chain R.inv R.unlocked (R.pages_ne b hb)
    (fun p hp => mem_live hb hp) (Heap.nodup_block R.nodup hb) (R.linked b hb)
    (R.length_block_le hb) b.length_pages
  have hother : ∀ c ∈ h, c ≠ b → ∀ p ∈ c.pages, SamePage s s' p := fun c hc hne p hp =>
    hkept p (mem_live hc hp) (R.notMem_of_ne hb hc hne hp)
  have hsub : List.Sublist (Heap.pages (h.filter fun c => c.base ≠ b.base)) h.pages :=
    List.Sublist.flatMap List.filter_sublist _
  have hmem : ∀ c ∈ h.filter fun c => c.base ≠ b.base, c ∈ h ∧ c ≠ b := by
    intro c hc
    obtain ⟨hc, hbase⟩ := List.mem_filter.mp hc
    refine ⟨hc, ?_⟩
    rintro rfl
    simp at hbase
  refine ⟨s', hexec, ⟨?_, hlock, R.nodup.sublist hsub, ?_, ?_, ?_, ?_⟩, hother⟩
  · have hlive := R.pages_free hb
    simp only [Heap.after]
    rw [hlive]
    exact H
  · exact hsub.length_le.trans R.length_le
  · exact fun c hc => R.pages_ne c (hmem c hc).1
  · exact fun c hc => (R.keep (hmem c hc).1 (hother c (hmem c hc).1 (hmem c hc).2)).1
  · exact fun c hc => (R.keep (hmem c hc).1 (hother c (hmem c hc).1 (hmem c hc).2)).2

/-! ## Writing and reading -/

/-- Updating arrays in place keeps the pages. -/
theorem pages_map {f : Block → Block} (hf : ∀ b, (f b).pages = b.pages) (h : Heap) :
    Heap.pages (h.map f) = h.pages := by
  rw [Heap.pages, List.flatMap_map]
  exact List.flatMap_congr fun b _ => hf b

/-- A state that holds the updated arrays, in the pages and the order of the old ones. -/
theorem mapBlocks (R : Represents s h) {f : Block → Block} (hf : ∀ c, (f c).pages = c.pages)
    (H : PageInv s' h.pages.toFinset) (hlock : s'.libraryLock = false)
    (hheld : ∀ c ∈ h, Linked s' c.pages ∧ s'.image c.pages = (f c).data) :
    Represents s' (h.map f) := by
  have hpages := pages_map hf h
  refine ⟨by rw [hpages]; exact H, hlock, by rw [hpages]; exact R.nodup,
    by rw [hpages]; exact R.length_le, ?_, ?_, ?_⟩
  · intro c' hc'
    obtain ⟨c, hc, rfl⟩ := List.mem_map.mp hc'
    rw [hf]
    exact R.pages_ne c hc
  · intro c' hc'
    obtain ⟨c, hc, rfl⟩ := List.mem_map.mp hc'
    rw [hf]
    exact (hheld c hc).1
  · intro c' hc'
    obtain ⟨c, hc, rfl⟩ := List.mem_map.mp hc'
    rw [hf]
    exact (hheld c hc).2

/-- What `put_value` does to the allocation that `va` is in, and that it spares the others. -/
theorem putValue_block (R : Represents s h) (hb : b ∈ h) (hva : pageOf va ∈ b.pages)
    {val : List UInt8} {n : ℕ} (hpos : 0 < n) (hn : n < 2 ^ 31) (hval : n ≤ val.length) :
    ∃ s', putValue s va val n = some (if b.InRange va n then 0 else -1, s') ∧
      PageInv s' h.pages.toFinset ∧ s'.libraryLock = false ∧
      (∀ c ∈ h, ∀ p ∈ c.pages, s'.frameAddr p = s.frameAddr p) ∧
      (∀ c ∈ h, c ≠ b → ∀ p ∈ c.pages, SamePage s s' p) ∧
      (∀ p ∈ b.pages, s'.link p = s.link p) ∧
      s'.image b.pages = (b.put va (val.take n)).data := by
  have hnodup := Heap.nodup_block R.nodup hb
  obtain ⟨pre, suf, hsplit, hpoint, hpre⟩ := exists_suffix hnodup hva
  have hshort := R.length_block_le hb
  have hmem : ∀ p, p ∈ pre ∨ p ∈ suf → p ∈ h.pages.toFinset := by
    intro p hp
    exact mem_live hb (by rw [hsplit]; exact List.mem_append.mpr hp)
  have hlinked : Linked s (pre ++ suf) := hsplit ▸ R.linked b hb
  rw [hsplit, List.length_append] at hshort
  rw [hsplit, List.nodup_append] at hnodup
  obtain ⟨s', H, hlock, hframe, hother, hput⟩ := putValue_chain R.inv R.unlocked
    (fun p hp => hmem p (.inr hp)) hnodup.2.1 hlinked.append_right hpoint (n := n) hpos hn
    (by omega) hval
  have hrange : b.InRange va n ↔ va % 4096 + n ≤ 4092 * suf.length := by
    rw [Block.InRange, Block.index, ← hpre, hsplit, List.length_append]
    omega
  have hlen : (val.take n).length = n := by rw [List.length_take]; omega
  have hothers : ∀ c ∈ h, c ≠ b → ∀ p ∈ c.pages, SamePage s s' p := by
    intro c hc hne p hp
    have hnotin := R.notMem_of_ne hb hc hne hp
    rw [hsplit, List.mem_append, not_or] at hnotin
    exact hother p (mem_live hc hp) hnotin.2
  suffices hown : putValue s va val n = some (if b.InRange va n then 0 else -1, s') ∧
      (∀ p ∈ b.pages, s'.link p = s.link p) ∧
      s'.image b.pages = (b.put va (val.take n)).data by
    obtain ⟨hexec, hlinks, himage⟩ := hown
    exact ⟨s', hexec, H, hlock, fun c hc p hp => hframe p (mem_live hc hp), hothers, hlinks,
      himage⟩
  by_cases hfit : b.InRange va n
  · rw [if_pos (hrange.mp hfit)] at hput
    obtain ⟨hexec, hlinks, himage⟩ := hput
    -- the pages before that of `va` are not in the part of the chain that is written
    have hpresame : ∀ p ∈ pre, SamePage s s' p := fun p hp =>
      hother p (hmem p (.inl hp)) fun hs => hnodup.2.2 p hp p hs rfl
    refine ⟨by rw [if_pos hfit, hexec], ?_, ?_⟩
    · intro p hp
      rw [hsplit] at hp
      rcases List.mem_append.mp hp with hp | hp
      · exact (hpresame p hp).link_eq
      · exact hlinks p hp
    · have hindex : b.index va = (s.image pre).length + va % 4096 := by
        rw [Block.index, ← hpre, Vm.length_image]
      rw [Block.data_put (by rw [hlen]; exact hfit), ← R.image_eq b hb, hsplit, Vm.image_append,
        Vm.image_append, image_congr hpresame, himage, hindex,
        splice_append_right (Nat.le_add_right _ _), Nat.add_sub_cancel_left]
  · rw [if_neg fun h => hfit (hrange.mpr h)] at hput
    obtain ⟨hexec, hsame⟩ := hput
    refine ⟨by rw [if_neg hfit, hexec], fun p hp => (hsame p (mem_live hb hp)).link_eq, ?_⟩
    rw [(R.keep hb fun p hp => hsame p (mem_live hb hp)).2,
      Block.put_of_not_inRange (by rw [hlen]; exact hfit)]

theorem put (R : Represents s h) (hb : b ∈ h) (hva : pageOf va ∈ b.pages) {val : List UInt8}
    {size : ℤ} (hpos : 1 ≤ size) (hlt : size < 2 ^ 31) (hval : size.toNat ≤ val.length) :
    ∃ s', putValue s va val size = some (if b.InRange va size.toNat then 0 else -1, s') ∧
      Represents s' (h.after s' (.putValue va val size)
        (.status (if b.InRange va size.toNat then 0 else -1))) ∧
      (∀ c ∈ h, pageOf va ∉ c.pages → ∀ p ∈ c.pages, SamePage s s' p) ∧
      ∀ c ∈ h, ∀ p ∈ c.pages, s'.frameAddr p = s.frameAddr p ∧ s'.link p = s.link p := by
  obtain ⟨n, rfl⟩ : ∃ n : ℕ, size = n := ⟨size.toNat, by omega⟩
  rw [Int.toNat_natCast] at *
  obtain ⟨s', hexec, H, hlock, hframe, hother, hlinks, himage⟩ :=
    R.putValue_block hb hva (n := n) (by omega) (by omega) hval
  have hinside : ∀ c ∈ h, pageOf va ∈ c.pages → c = b := fun c hc hmem =>
    Heap.eq_of_mem_pages R.nodup hc hb hmem hva
  have houtside : ∀ c ∈ h, pageOf va ∉ c.pages → ∀ p ∈ c.pages, SamePage s s' p :=
    fun c hc hnot => hother c hc fun heq => hnot (heq ▸ hva)
  refine ⟨s', hexec, ?_, houtside, fun c hc p hp => ⟨hframe c hc p hp, ?_⟩⟩
  · refine R.mapBlocks (fun c => ?_) H hlock fun c hc => ?_
    · split
      · exact Block.pages_put c va _
      · rfl
    · split
      · obtain rfl := hinside c hc ‹_›
        exact ⟨(R.linked c hc).congr hlinks, himage⟩
      · exact R.keep hc (houtside c hc ‹_›)
  · by_cases hmem : pageOf va ∈ c.pages
    · obtain rfl := hinside c hc hmem
      exact hlinks p hp
    · exact (houtside c hc hmem p hp).link_eq

theorem get (R : Represents s h) (hb : b ∈ h) (hva : pageOf va ∈ b.pages) {size : ℤ}
    (hpos : 1 ≤ size) (hfit : b.InRange va size.toNat) :
    ∃ s', getValue s va size = some (b.get va size.toNat, s') ∧ Represents s' h ∧
      ∀ p, SamePage s s' p := by
  obtain ⟨n, rfl⟩ : ∃ n : ℕ, size = n := ⟨size.toNat, by omega⟩
  rw [Int.toNat_natCast] at *
  have hnodup := Heap.nodup_block R.nodup hb
  obtain ⟨pre, suf, hsplit, hpoint, hpre⟩ := exists_suffix hnodup hva
  have hshort := R.length_block_le hb
  have hlive : ∀ p ∈ suf, p ∈ h.pages.toFinset := by
    intro p hp
    exact mem_live hb (by rw [hsplit]; exact List.mem_append_right _ hp)
  have hlinked : Linked s (pre ++ suf) := hsplit ▸ R.linked b hb
  rw [Block.InRange, Block.index, ← hpre, hsplit, List.length_append] at hfit
  rw [hsplit, List.length_append] at hshort
  obtain ⟨s', hexec, H, hlock, hsame⟩ := getValue_chain R.inv R.unlocked hlive
    hlinked.append_right hpoint (n := n) (by omega) (by omega) (by omega)
  refine ⟨s', ?_, ⟨H, hlock, R.nodup, R.length_le, R.pages_ne, ?_, ?_⟩, hsame⟩
  · have hdrop : b.data.drop (b.index va) = (s.image suf).drop (va % 4096) := by
      have hindex : b.index va = (s.image pre).length + va % 4096 := by
        rw [Block.index, ← hpre, Vm.length_image]
      rw [← R.image_eq b hb, hsplit, Vm.image_append, hindex, List.drop_length_add_append]
    rw [hexec, Block.get, hdrop]
  · exact fun c hc => (R.keep hc fun p _ => hsame p).1
  · exact fun c hc => (R.keep hc fun p _ => hsame p).2

/-! ## One call -/

/-- An allowed call runs, answers as the heap does, and leaves the heap's next state. -/
theorem exec (R : Represents s h) {c : Call} (hc : h.Allows c) :
    ∃ r s', c.exec s = some (r, s') ∧ h.Answers c r ∧ Represents s' (h.after s' c r) ∧
      Untouched h c s s' := by
  cases c with
  | tMalloc n =>
    by_cases hn : n = 0 ∨ 261887 < h.pages.length + pagesRequested n.toNat
    · have hexec := tMalloc_refused R.inv R.unlocked (by rw [R.card_eq]; exact hn)
      refine ⟨.ptr 0, s, by rw [Call.exec, hexec]; rfl, .refused hn, R, ?_, ?_⟩
      · exact fun b _ _ p _ => SamePage.refl s p
      · exact fun _ _ _ heq => by cases heq
    · rw [not_or] at hn
      have hfit := Or.resolve_right hc hn.2
      obtain ⟨va, s', hexec, hpos, halign, R', hold⟩ := R.malloc hn.1 hfit
      refine ⟨.ptr va, s', by rw [Call.exec, hexec]; rfl, .allocated hn.1 hfit hpos halign, R',
        ?_, ?_⟩
      · exact fun b hb _ p hp => hold p (Heap.mem_pages hb hp)
      · exact fun _ _ _ heq => by cases heq
  | tFree va size =>
    obtain ⟨b, hb, rfl, rfl⟩ := hc
    obtain ⟨s', hexec, R', hother⟩ := R.free hb
    refine ⟨.unit, s', by rw [Call.exec, hexec]; rfl, .freed, R', ?_, ?_⟩
    · exact fun c hc hne p hp => hother c hc (fun heq => hne (by rw [heq]; rfl)) p hp
    · exact fun _ _ _ heq => by cases heq
  | putValue va val size =>
    obtain ⟨⟨b, hb, hva⟩, hpos, hlt, hval⟩ := hc
    obtain ⟨s', hexec, R', hother, hown⟩ := R.put hb hva hpos hlt hval
    refine ⟨_, s', by rw [Call.exec, hexec]; rfl, .put hb hva, R', ?_, ?_⟩
    · exact fun c hc hnot => hother c hc hnot
    · exact fun _ _ _ _ c hc p hp => hown c hc p hp
  | getValue va size =>
    obtain ⟨b, hb, hva, hpos, hfit⟩ := hc
    obtain ⟨s', hexec, R', hsame⟩ := R.get hb hva hpos hfit
    refine ⟨_, s', by rw [Call.exec, hexec]; rfl, .got hb hva, R', ?_, ?_⟩
    · exact fun _ _ _ p _ => hsame p
    · exact fun _ _ _ heq => by cases heq

end Represents

/-! ## Runs -/

/-- In every run the paging state holds the arrays of the heap. -/
theorem HeapRun.represents {v : VmStart} {s : Vm} {h : Heap} (hrun : HeapRun v s h) :
    Represents s h := by
  induction hrun with
  | start hinit =>
    obtain ⟨s', hinit', H, hlock, -, -⟩ := setPhysicalMem_spec v
    obtain rfl := Option.some.inj (hinit.symm.trans hinit')
    exact ⟨H, hlock, List.nodup_nil, by simp [Heap.pages], by simp, by simp, by simp⟩
  | call hrun hc hexec ih =>
    obtain ⟨r', s'', hexec', -, R', -⟩ := ih.exec hc
    obtain ⟨rfl, rfl⟩ := Prod.mk.inj (Option.some.inj (hexec.symm.trans hexec'))
    exact R'

/-- The run that initialises the library and allocates once. -/
theorem HeapRun.malloc_first (v : VmStart) {n : UInt32} (hn : n ≠ 0)
    (hfit : pagesRequested n.toNat ≤ 1023) :
    ∃ s b, HeapRun v s [b] ∧ b.size = n.toNat := by
  obtain ⟨s₀, hinit, -⟩ := setPhysicalMem_spec v
  have hstart : HeapRun v s₀ [] := .start hinit
  have hallows : Heap.Allows [] (.tMalloc n) := Or.inl (by simpa [Heap.pages] using hfit)
  obtain ⟨r, s₁, hexec, hans, -, -⟩ := hstart.represents.exec hallows
  have hrun := hstart.call hallows hexec
  cases hans with
  | refused h =>
    have hlen : (Heap.pages []).length = 0 := rfl
    rw [hlen] at h
    rcases h with h | h
    · exact absurd h hn
    · omega
  | allocated _ _ hpos _ =>
    simp only [Heap.after, hpos.ne', if_false] at hrun
    exact ⟨s₁, _, hrun, rfl⟩

/-- In every run within one page table, the library behaves as a heap of independent
byte arrays: every allowed call runs, answers as the heap does, leaves the state that
holds the heap's next arrays, and keeps every cell, link and payload byte of the
allocations it is not about. -/
theorem HeapRun.refines {v : VmStart} {s : Vm} {h : Heap} (hrun : HeapRun v s h) :
    Represents s h ∧ ∀ c, h.Allows c → ∃ r s', c.exec s = some (r, s') ∧ h.Answers c r ∧
      Represents s' (h.after s' c r) ∧ Untouched h c s s' :=
  ⟨hrun.represents, fun _ hc => hrun.represents.exec hc⟩

/-- `HeapRun.refines` after the first allocation, of two pages. -/
theorem HeapRun.refines_first : ∃ (v : VmStart) (s : Vm) (b : Block), b.size = 5000 ∧
    HeapRun v s [b] ∧ Represents s [b] ∧ ∀ c, Heap.Allows [b] c → ∃ r s',
      c.exec s = some (r, s') ∧ Heap.Answers [b] c r ∧ Represents s' (Heap.after [b] s' c r) ∧
      Untouched [b] c s s' := by
  obtain ⟨s, b, hrun, hsize⟩ :=
    HeapRun.malloc_first ⟨4096, by decide, by decide⟩ (n := 5000) (by decide) (by decide)
  exact ⟨_, s, b, hsize, hrun, HeapRun.refines hrun⟩

end UserLevelOs.Memory
