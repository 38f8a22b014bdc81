import UserLevelOs.Memory.Calls
import Mathlib.Data.Finset.Card
import Mathlib.Data.Finset.Interval
import Mathlib.Order.Interval.Finset.Nat

/-!
# The paging invariant of one page table

While at most 1023 pages are live, every live page has directory index 0, and entry 0
of the directory holds the address of the directory itself: the directory doubles as
the one page table in use.  `TableInv` says what the bitmaps, the cells and the frames
then look like, `TlbInv` that the cached translations are the ones the walk would find.

A page is named by its number, and `live` is the set of pages handed out.

## Main definitions

* `Vm.cell`, `Vm.frameAddr`, `Vm.link`, `Vm.payload` — what a page maps to and holds.
* `TableInv`, `TlbInv`, `PageInv`.
* `Translates` — how a lookup goes.
* `SameStore` — nothing but the translation cache differs.
* `translate_spec` — a live page translates to its cell.
-/

namespace UserLevelOs.Memory

open UserLevelOs.Lib

namespace Vm

/-- The page-table cell of page `p`. -/
def cell (s : Vm) (p : ℕ) : ℕ := s.ptbr + 4 * p

/-- The frame page `p` is mapped to. -/
def frameAddr (s : Vm) (p : ℕ) : ℕ := s.memory.loadLE (s.cell p) 4

def frameNum (s : Vm) (p : ℕ) : ℕ := (s.frameAddr p - s.vmStart.addr) / 4096

/-- The virtual address stored in the first word of page `p`. -/
def link (s : Vm) (p : ℕ) : ℕ := s.memory.loadLE (s.frameAddr p) 4

/-- The bytes of page `p` a client can reach. -/
def payload (s : Vm) (p : ℕ) : List UInt8 :=
  s.memory.read (s.frameAddr p + 4) 4092

@[simp] theorem length_payload (s : Vm) (p : ℕ) : (s.payload p).length = 4092 := by
  simp [payload]

end Vm

/-- The directory lies in frame 0, and its entry 0 points back to it. -/
structure DirInv (s : Vm) : Prop where
  ptbr_eq : s.ptbr = s.vmStart.addr
  dir_zero : s.memory.loadLE s.ptbr 4 = s.ptbr

/-- Bitmaps, cells and frames when the pages of `live` are handed out. -/
structure TableInv (s : Vm) (live : Finset ℕ) : Prop extends DirInv s where
  live_pos : ∀ p ∈ live, 0 < p
  live_lt : ∀ p ∈ live, p < 1024
  used_iff : ∀ p < 262144, bitSetAt s.virtualBitmap p = true ↔ p = 0 ∨ p ∈ live
  frameAddr_eq : ∀ p ∈ live, s.frameAddr p = s.vmStart.addr + 4096 * s.frameNum p
  frame_reserved : ∀ p ∈ live, 257 ≤ s.frameNum p
  frame_lt : ∀ p ∈ live, s.frameNum p < 262144
  frame_inj : ∀ p ∈ live, ∀ q ∈ live, s.frameNum p = s.frameNum q → p = q
  frame_used : ∀ f < 262144,
    bitSetAt s.frameBitmap f = true ↔ f < 257 ∨ ∃ p ∈ live, s.frameNum p = f

/-- The cached translations are those of the walk, and the list is within its limit. -/
structure TlbInv (s : Vm) : Prop where
  size_eq : s.tlbCache.size = s.tlbCache.entries.length
  size_le : s.tlbCache.entries.length ≤ 512
  frame_eq : ∀ e ∈ s.tlbCache.entries, e.frame = s.cell (pageOf e.virtualAddress)

structure PageInv (s : Vm) (live : Finset ℕ) : Prop extends TableInv s live, TlbInv s

/-- The bitmaps and the cells of `s` and `s'` agree. -/
structure SameTable (s s' : Vm) : Prop where
  vmStart_eq : s'.vmStart = s.vmStart
  ptbr_eq : s'.ptbr = s.ptbr
  virtualBitmap_eq : s'.virtualBitmap = s.virtualBitmap
  frameBitmap_eq : s'.frameBitmap = s.frameBitmap
  libraryLock_eq : s'.libraryLock = s.libraryLock
  table_eq : ∀ x, s.ptbr ≤ x → x < s.ptbr + 4096 → s'.memory x = s.memory x

namespace SameTable

variable {s s' s'' : Vm} {p : ℕ}

theorem refl (s : Vm) : SameTable s s := ⟨rfl, rfl, rfl, rfl, rfl, fun _ _ _ => rfl⟩

theorem trans (h : SameTable s s') (h' : SameTable s' s'') : SameTable s s'' where
  vmStart_eq := h'.vmStart_eq.trans h.vmStart_eq
  ptbr_eq := h'.ptbr_eq.trans h.ptbr_eq
  virtualBitmap_eq := h'.virtualBitmap_eq.trans h.virtualBitmap_eq
  frameBitmap_eq := h'.frameBitmap_eq.trans h.frameBitmap_eq
  libraryLock_eq := h'.libraryLock_eq.trans h.libraryLock_eq
  table_eq := by
    intro x h₁ h₂
    rw [h'.table_eq x (by rw [h.ptbr_eq]; exact h₁) (by rw [h.ptbr_eq]; exact h₂),
      h.table_eq x h₁ h₂]

variable (h : SameTable s s')
include h

theorem cell_eq (p : ℕ) : s'.cell p = s.cell p := by rw [Vm.cell, Vm.cell, h.ptbr_eq]

theorem frameAddr_eq (hp : p < 1024) : s'.frameAddr p = s.frameAddr p := by
  rw [Vm.frameAddr, Vm.frameAddr, h.cell_eq]
  refine Bytes.loadLE_congr fun x h₁ h₂ => h.table_eq x ?_ ?_
  · simp only [Vm.cell] at h₁
    omega
  · simp only [Vm.cell] at h₂
    omega

theorem frameNum_eq (hp : p < 1024) : s'.frameNum p = s.frameNum p := by
  rw [Vm.frameNum, Vm.frameNum, h.frameAddr_eq hp, h.vmStart_eq]

theorem dirInv (H : DirInv s) : DirInv s' where
  ptbr_eq := by rw [h.ptbr_eq, h.vmStart_eq, H.ptbr_eq]
  dir_zero := by
    have h₀ : s'.frameAddr 0 = s.frameAddr 0 := h.frameAddr_eq (by omega)
    have h₁ : s.frameAddr 0 = s.ptbr := H.dir_zero
    calc s'.memory.loadLE s'.ptbr 4 = s'.frameAddr 0 := rfl
      _ = s'.ptbr := by rw [h₀, h₁, h.ptbr_eq]

/-- Everything the table invariant talks about is kept. -/
theorem tableInv {live : Finset ℕ} (H : TableInv s live) : TableInv s' live where
  toDirInv := h.dirInv H.toDirInv
  live_pos := H.live_pos
  live_lt := H.live_lt
  used_iff := by rw [h.virtualBitmap_eq]; exact H.used_iff
  frameAddr_eq := by
    intro p hp
    rw [h.frameAddr_eq (H.live_lt p hp), h.frameNum_eq (H.live_lt p hp), h.vmStart_eq,
      H.frameAddr_eq p hp]
  frame_reserved := by
    intro p hp
    rw [h.frameNum_eq (H.live_lt p hp)]
    exact H.frame_reserved p hp
  frame_lt := by
    intro p hp
    rw [h.frameNum_eq (H.live_lt p hp)]
    exact H.frame_lt p hp
  frame_inj := by
    intro p hp q hq
    rw [h.frameNum_eq (H.live_lt p hp), h.frameNum_eq (H.live_lt q hq)]
    exact H.frame_inj p hp q hq
  frame_used := by
    intro f hf
    rw [h.frameBitmap_eq, H.frame_used f hf]
    refine or_congr_right (exists_congr fun p => and_congr_right fun hp => ?_)
    rw [h.frameNum_eq (H.live_lt p hp)]

theorem tlbInv (H : TlbInv s) (hc : s'.tlbCache = s.tlbCache) : TlbInv s' where
  size_eq := by rw [hc, H.size_eq]
  size_le := by rw [hc]; exact H.size_le
  frame_eq := by
    rw [hc]
    intro e he
    rw [h.cell_eq, H.frame_eq e he]

end SameTable

/-- `s` and `s'` differ at most in the translation cache and its counters. -/
structure SameStore (s s' : Vm) : Prop extends SameTable s s' where
  memory_eq : s'.memory = s.memory

namespace SameStore

variable {s s' s'' : Vm}

/-- Only the cache and its counters are replaced. -/
theorem of_cache (s : Vm) (cache : TlbCache) (misses lookups : ℕ) :
    SameStore s { s with tlbCache := cache, tlbMisses := misses, tlbLookups := lookups } :=
  ⟨⟨rfl, rfl, rfl, rfl, rfl, fun _ _ _ => rfl⟩, rfl⟩

theorem refl (s : Vm) : SameStore s s := ⟨SameTable.refl s, rfl⟩

theorem trans (h : SameStore s s') (h' : SameStore s' s'') : SameStore s s'' :=
  ⟨h.toSameTable.trans h'.toSameTable, h'.memory_eq.trans h.memory_eq⟩

variable (h : SameStore s s')
include h

theorem frameAddr_eq' (p : ℕ) : s'.frameAddr p = s.frameAddr p := by
  rw [Vm.frameAddr, Vm.frameAddr, h.memory_eq, h.cell_eq]

theorem link_eq (p : ℕ) : s'.link p = s.link p := by
  rw [Vm.link, Vm.link, h.memory_eq, h.frameAddr_eq']

theorem payload_eq (p : ℕ) : s'.payload p = s.payload p := by
  rw [Vm.payload, Vm.payload, h.memory_eq, h.frameAddr_eq']

theorem usedVa_eq (va : ℕ) : usedVa s' va = usedVa s va := by
  rw [usedVa, usedVa, h.virtualBitmap_eq]

end SameStore

/-! ## Where cells and frames lie -/

namespace DirInv

variable {s : Vm} {p : ℕ} (H : DirInv s)
include H

theorem owns_cell (hp : p < 1024) : s.Owns (s.cell p) 4 := by
  have := H.ptbr_eq
  simp only [Vm.Owns, Vm.cell, MEMSIZE]
  omega

theorem cell_pos (p : ℕ) : 0 < s.cell p := by
  have h₁ := H.ptbr_eq
  have h₂ := s.vmStart.addr_pos
  simp only [Vm.cell]
  omega

theorem loadWord_cell (hp : p < 1024) : s.loadWord (s.cell p) = some (s.frameAddr p) := by
  rw [Vm.loadWord, if_pos (H.owns_cell hp), Vm.frameAddr]

/-- The walk of the two levels ends at the cell of the page. -/
theorem fetchPteFrom_eq {va : ℕ} (hused : usedVa s va = true) (hlt : pageOf va < 1024) :
    fetchPteFrom s va = some (s.cell (pageOf va)) := by
  have hdir : pageOf va / 1024 % 256 = 0 := by omega
  have hpte : pageOf va % 1024 = pageOf va := by omega
  have hcell : s.ptbr + 4 * 0 = s.cell 0 := rfl
  have hzero : s.frameAddr 0 = s.ptbr := H.dir_zero
  have hfit := s.vmStart.addr_fits
  have hptbr := H.ptbr_eq
  have hmod : (s.ptbr + 4 * pageOf va) % 2 ^ 32 = s.ptbr + 4 * pageOf va := by
    simp only [MEMSIZE] at hfit
    omega
  simp only [fetchPteFrom, hused, Bool.not_true, Bool.false_eq_true, if_false,
    pdeOffset_extractFrom, pteOffset_extractFrom, hdir, hpte, hcell,
    H.loadWord_cell (p := 0) (by omega), Option.bind_eq_bind, Option.bind_some, hzero, hmod]
  rfl

end DirInv

namespace TableInv

variable {s : Vm} {live : Finset ℕ} {p q : ℕ}

theorem owns_frame (H : TableInv s live) (hp : p ∈ live) {a n : ℕ} (h : a + n ≤ 4096) :
    s.Owns (s.frameAddr p + a) n := by
  have := H.frameAddr_eq p hp
  have := H.frame_lt p hp
  simp only [Vm.Owns, MEMSIZE]
  omega

/-- A frame handed out lies past the frame of the directory. -/
theorem cell_lt_frame (H : TableInv s live) (hp : p < 1024) (hq : q ∈ live) :
    s.cell p + 4 ≤ s.frameAddr q := by
  have := H.ptbr_eq
  have := H.frameAddr_eq q hq
  have := H.frame_reserved q hq
  simp only [Vm.cell]
  omega

/-- Distinct live pages have disjoint frames. -/
theorem frame_disjoint (H : TableInv s live) (hp : p ∈ live) (hq : q ∈ live) (hne : p ≠ q) :
    s.frameAddr p + 4096 ≤ s.frameAddr q ∨ s.frameAddr q + 4096 ≤ s.frameAddr p := by
  have h₁ := H.frameAddr_eq p hp
  have h₂ := H.frameAddr_eq q hq
  have h₃ : s.frameNum p ≠ s.frameNum q := fun h => hne (H.frame_inj p hp q hq h)
  omega

theorem frameAddr_pos (H : TableInv s live) (hp : p ∈ live) : 0 < s.frameAddr p := by
  have h₁ := H.frameAddr_eq p hp
  have h₂ := s.vmStart.addr_pos
  omega

theorem loadWord_frame (H : TableInv s live) (hp : p ∈ live) :
    s.loadWord (s.frameAddr p) = some (s.link p) := by
  have ho : s.Owns (s.frameAddr p) 4 := H.owns_frame (a := 0) hp (by omega)
  rw [Vm.loadWord, if_pos ho, Vm.link]

theorem usedVa_eq (H : TableInv s live) {va : ℕ} (hva : pageOf va ∈ live) :
    usedVa s va = true := by
  have hlt : pageOf va < 262144 := by have := H.live_lt _ hva; omega
  rw [usedVa, Bool.and_eq_true, isValidVa_iff, H.used_iff _ hlt]
  exact ⟨hlt, Or.inr hva⟩

end TableInv

/-! ## The cache -/

/-- Unlinking removes one entry, for the page asked for. -/
theorem unlinkFirst_some {va : ℕ} {es rest : List TlbStore} {e : TlbStore}
    (h : unlinkFirst va es = some (e, rest)) :
    pageOf e.virtualAddress = pageOf va ∧ es.Perm (e :: rest) := by
  induction es generalizing rest with
  | nil => simp [unlinkFirst] at h
  | cons x xs ih =>
    rw [unlinkFirst] at h
    by_cases hx : equivalentVirtualAddress x.virtualAddress va = true
    · rw [if_pos hx] at h
      obtain ⟨rfl, rfl⟩ := Prod.mk.inj (Option.some.inj h)
      exact ⟨by simpa [equivalentVirtualAddress] using hx, List.Perm.refl _⟩
    · rw [if_neg hx, Option.map_eq_some_iff] at h
      obtain ⟨⟨y, ys⟩, hrec, heq⟩ := h
      obtain ⟨rfl, rfl⟩ := Prod.mk.inj heq
      obtain ⟨hpage, hperm⟩ := ih hrec
      exact ⟨hpage, (hperm.cons x).trans (List.Perm.swap y x ys)⟩

theorem evictLruCachedEntry_spec {c : TlbCache} (hsize : c.size = c.entries.length)
    (hfull : c.size = 512) :
    ∃ c', evictLruCachedEntry c = some c' ∧ c'.size = c'.entries.length ∧
      c'.entries ⊆ c.entries ∧ c'.entries.length < 512 := by
  have hlen : c.entries.length = 512 := by omega
  refine ⟨⟨c.size - 1, c.entries.dropLast⟩, ?_, ?_, List.dropLast_subset _, ?_⟩
  · rw [evictLruCachedEntry, if_neg (by omega), if_neg (by omega), if_pos (by omega)]
  · simp only [List.length_dropLast]
    omega
  · simp only [List.length_dropLast]
    omega

theorem evictLruCachedEntry_subset {c c' : TlbCache} (h : evictLruCachedEntry c = some c') :
    c'.entries ⊆ c.entries := by
  rw [evictLruCachedEntry] at h
  split at h
  · cases h
    exact List.Subset.refl _
  · split at h
    · cases h
      exact List.nil_subset _
    · split at h
      · cases h
        exact List.dropLast_subset _
      · cases h

/-- What is found is an entry for the page asked for, and no entry comes in. -/
theorem searchAndRemove_subset {c c' : TlbCache} {va : ℕ} {found : Option TlbStore}
    (h : searchAndRemove c va = some (found, c')) :
    c'.entries ⊆ c.entries ∧ ∀ e, found = some e →
      e ∈ c.entries ∧ pageOf e.virtualAddress = pageOf va := by
  rw [searchAndRemove] at h
  split at h
  · split at h
    · cases h
    · cases hu : unlinkFirst va c.entries with
      | none =>
        rw [hu] at h
        cases h
        exact ⟨List.Subset.refl _, by simp⟩
      | some r =>
        rw [hu] at h
        cases h
        obtain ⟨hpage, hperm⟩ := unlinkFirst_some hu
        refine ⟨fun x hx => hperm.mem_iff.mpr (List.mem_cons_of_mem _ hx), ?_⟩
        rintro y ⟨rfl⟩
        exact ⟨hperm.mem_iff.mpr List.mem_cons_self, hpage⟩
  · cases h
    exact ⟨List.Subset.refl _, by simp⟩

theorem addTLB_entries {c c' : TlbCache} {va frame : ℕ} (h : addTLB c va frame = some c') :
    ∃ es, c'.entries = ⟨va, frame⟩ :: es ∧ es ⊆ c.entries := by
  rw [addTLB] at h
  split at h
  · obtain ⟨c₁, hevict, h⟩ := Option.bind_eq_some_iff.mp h
    cases h
    exact ⟨c₁.entries, rfl, evictLruCachedEntry_subset hevict⟩
  · cases h
    exact ⟨c.entries, rfl, List.Subset.refl _⟩

/-- How a lookup goes: the page is not in use, it is in the cache, the walk finds its cell and the
cell is entered, or the walk finds none. -/
inductive Translates (s : Vm) (va : ℕ) : ℕ → Vm → Prop
  | unused (hused : usedVa s va = false) : Translates s va 0 s
  | hit {e : TlbStore} {cache : TlbCache} (hused : usedVa s va = true)
    (hsearch : searchAndRemove s.tlbCache va = some (some e, cache)) :
    Translates s va e.frame
      { s with tlbLookups := (s.tlbLookups + 1) % 2 ^ 32, tlbCache := cache.push e }
  | miss {cell : ℕ} {cache cache' : TlbCache} (hused : usedVa s va = true)
    (hsearch : searchAndRemove s.tlbCache va = some (none, cache))
    (hfetch : fetchPteFrom s va = some cell) (hne : cell ≠ 0)
    (hadd : addTLB cache va cell = some cache') :
    Translates s va cell { s with
      tlbLookups := (s.tlbLookups + 1) % 2 ^ 32
      tlbMisses := (s.tlbMisses + 1) % 2 ^ 32
      tlbCache := cache' }
  | absent {cache : TlbCache} (hused : usedVa s va = true)
    (hsearch : searchAndRemove s.tlbCache va = some (none, cache))
    (hfetch : fetchPteFrom s va = some 0) :
    Translates s va 0 { s with tlbLookups := (s.tlbLookups + 1) % 2 ^ 32 }

theorem translate_some {s s' : Vm} {va cell : ℕ} (h : translate s va = some (cell, s')) :
    Translates s va cell s' := by
  rw [translate, checkTLB] at h
  split at h
  · next hused =>
    cases h
    exact .unused (by simpa using hused)
  · next hused =>
    have hused : usedVa s va = true := by simpa using hused
    obtain ⟨⟨found, cache⟩, hsearch, h⟩ := Option.bind_eq_some_iff.mp h
    cases found with
    | some e =>
      cases h
      exact .hit hused hsearch
    | none =>
      obtain ⟨targetFrame, hfetch, h⟩ := Option.bind_eq_some_iff.mp h
      dsimp only at h
      split at h
      · next hne =>
        obtain ⟨cache', hadd, h⟩ := Option.bind_eq_some_iff.mp h
        cases h
        exact .miss hused hsearch hfetch hne hadd
      · next hzero =>
        cases h
        obtain rfl : targetFrame = 0 := by simpa using hzero
        exact .absent hused hsearch hfetch

/-- A cache within its limit, with `P` of each entry. -/
structure CacheWith (P : TlbStore → Prop) (c : TlbCache) : Prop where
  size_eq : c.size = c.entries.length
  size_le : c.entries.length ≤ 512
  holds : ∀ e ∈ c.entries, P e

namespace CacheWith

variable {P : TlbStore → Prop} {c : TlbCache} {e : TlbStore}

/-- Searching the cache leaves a part of it, and an entry found is for the page asked for. -/
theorem searchAndRemove_spec (H : CacheWith P c) (va : ℕ) :
    ∃ found cache, searchAndRemove c va = some (found, cache) ∧ CacheWith P cache ∧
      ∀ e, found = some e → e ∈ c.entries ∧ pageOf e.virtualAddress = pageOf va ∧
        cache.entries.length < 512 := by
  have hsize := H.size_eq
  have hle := H.size_le
  rw [searchAndRemove]
  by_cases hpos : 1 ≤ c.size
  · have hne : c.entries ≠ [] := by
      intro h
      rw [h] at hsize
      simp only [List.length_nil] at hsize
      omega
    rw [if_pos hpos, if_neg hne]
    cases hu : unlinkFirst va c.entries with
    | none => exact ⟨none, c, rfl, H, by simp⟩
    | some found =>
      obtain ⟨e, rest⟩ := found
      obtain ⟨hpage, hperm⟩ := unlinkFirst_some hu
      have hlen := hperm.length_eq
      simp only [List.length_cons] at hlen
      refine ⟨some e, ⟨c.size - 1, rest⟩, rfl, ⟨?_, ?_, fun x hx => ?_⟩, ?_⟩
      · change c.size - 1 = rest.length
        omega
      · change rest.length ≤ 512
        omega
      · exact H.holds x (hperm.mem_iff.mpr (List.mem_cons_of_mem _ hx))
      · rintro x ⟨rfl⟩
        refine ⟨hperm.mem_iff.mpr List.mem_cons_self, hpage, ?_⟩
        change rest.length < 512
        omega
  · rw [if_neg hpos]
    exact ⟨none, c, rfl, H, by simp⟩

theorem push (H : CacheWith P c) (hroom : c.entries.length < 512) (he : P e) :
    CacheWith P (c.push e) where
  size_eq := by
    have := H.size_eq
    simp only [TlbCache.push, List.length_cons]
    omega
  size_le := by
    simp only [TlbCache.push, List.length_cons]
    omega
  holds := by
    intro x hx
    simp only [TlbCache.push, List.mem_cons] at hx
    rcases hx with rfl | hx
    · exact he
    · exact H.holds x hx

theorem addTLB_spec (H : CacheWith P c) {va frame : ℕ} (he : P ⟨va, frame⟩) :
    ∃ c', addTLB c va frame = some c' ∧ CacheWith P c' := by
  by_cases hfull : c.size = 512
  · obtain ⟨c₁, h₁, h₂, h₃, h₄⟩ := evictLruCachedEntry_spec H.size_eq hfull
    have H₁ : CacheWith P c₁ := ⟨h₂, by omega, fun e he => H.holds e (h₃ he)⟩
    exact ⟨c₁.push ⟨va, frame⟩, by simp [addTLB, hfull, h₁], H₁.push h₄ he⟩
  · have hroom : c.entries.length < 512 := by
      have := H.size_eq
      have := H.size_le
      omega
    exact ⟨c.push ⟨va, frame⟩, by simp [addTLB, hfull], H.push hroom he⟩

/-- A lookup whose walk would succeed answers from an entry with `P`; only the cache and its
counters notice. -/
theorem translate_spec {s : Vm} (H : CacheWith P s.tlbCache) {va w : ℕ}
    (hused : usedVa s va = true) (hfetch : fetchPteFrom s va = some w) (hne : w ≠ 0)
    (hw : P ⟨va, w⟩) :
    ∃ e cache misses lookups, translate s va = some (e.frame,
        { s with tlbCache := cache, tlbMisses := misses, tlbLookups := lookups }) ∧
      P e ∧ pageOf e.virtualAddress = pageOf va ∧ CacheWith P cache := by
  let s₁ : Vm := { s with tlbLookups := (s.tlbLookups + 1) % 2 ^ 32 }
  obtain ⟨found, cache, hsearch, hcache, hfound⟩ := H.searchAndRemove_spec va
  cases found with
  | some e =>
    obtain ⟨hmem, hpage, hroom⟩ := hfound e rfl
    refine ⟨e, cache.push e, s.tlbMisses, (s.tlbLookups + 1) % 2 ^ 32, ?_, H.holds e hmem, hpage,
      hcache.push hroom (H.holds e hmem)⟩
    simp only [translate, checkTLB, hused, Bool.not_true, Bool.false_eq_true,
      if_false, hsearch, Option.bind_eq_bind, Option.bind_some]
  | none =>
    obtain ⟨cache', hadd, hcache'⟩ := hcache.addTLB_spec hw
    have hfetch₁ : fetchPteFrom s₁ va = some w := hfetch
    refine ⟨⟨va, w⟩, cache', (s.tlbMisses + 1) % 2 ^ 32, (s.tlbLookups + 1) % 2 ^ 32, ?_, hw, rfl,
      hcache'⟩
    simp only [translate, checkTLB, hused, Bool.not_true, Bool.false_eq_true,
      if_false, hsearch, Option.bind_eq_bind, Option.bind_some]
    change (fetchPteFrom s₁ va).bind _ = _
    simp only [hfetch₁, Option.bind_some, ne_eq, hne, not_false_eq_true, if_true, hadd]

end CacheWith

/-- A cache within its limit, whose entries answer `cell`. -/
structure CacheOf (cell : ℕ → ℕ) (c : TlbCache) : Prop where
  size_eq : c.size = c.entries.length
  size_le : c.entries.length ≤ 512
  frame_eq : ∀ e ∈ c.entries, e.frame = cell (pageOf e.virtualAddress)

theorem cacheOf_iff {cell : ℕ → ℕ} {c : TlbCache} :
    CacheOf cell c ↔ CacheWith (fun e => e.frame = cell (pageOf e.virtualAddress)) c :=
  ⟨fun H => ⟨H.size_eq, H.size_le, H.frame_eq⟩, fun H => ⟨H.size_eq, H.size_le, H.holds⟩⟩

theorem TlbInv.cacheOf {s : Vm} (H : TlbInv s) : CacheOf s.cell s.tlbCache :=
  ⟨H.size_eq, H.size_le, H.frame_eq⟩

theorem CacheOf.searchAndRemove_spec {cell : ℕ → ℕ} {c : TlbCache} (H : CacheOf cell c) (va : ℕ) :
    ∃ found cache, searchAndRemove c va = some (found, cache) ∧ CacheOf cell cache ∧
      ∀ e, found = some e → e ∈ c.entries ∧ pageOf e.virtualAddress = pageOf va ∧
        cache.entries.length < 512 := by
  simp only [cacheOf_iff] at H ⊢
  exact H.searchAndRemove_spec va

/-- Where the walk answers what the cache answers, so does the lookup; only the cache and
its counters notice. -/
theorem CacheOf.translate_spec {cell : ℕ → ℕ} {s : Vm} (H : CacheOf cell s.tlbCache) {va : ℕ}
    (hused : usedVa s va = true) (hfetch : fetchPteFrom s va = some (cell (pageOf va)))
    (hne : cell (pageOf va) ≠ 0) :
    ∃ cache misses lookups, translate s va = some (cell (pageOf va),
        { s with tlbCache := cache, tlbMisses := misses, tlbLookups := lookups }) ∧
      CacheOf cell cache := by
  simp only [cacheOf_iff] at H ⊢
  obtain ⟨e, cache, misses, lookups, htr, he, hpage, hcache⟩ :=
    H.translate_spec hused hfetch hne rfl
  rw [he, hpage] at htr
  exact ⟨cache, misses, lookups, htr, hcache⟩

/-- A used page of the first table translates to its cell, and only the cache notices. -/
theorem translate_spec {s : Vm} (H : DirInv s) (HT : TlbInv s) {va : ℕ}
    (hused : usedVa s va = true) (hlt : pageOf va < 1024) :
    ∃ s', translate s va = some (s.cell (pageOf va), s') ∧ SameStore s s' ∧ TlbInv s' := by
  obtain ⟨cache, misses, lookups, htr, hcache⟩ :=
    HT.cacheOf.translate_spec hused (H.fetchPteFrom_eq hused hlt) (H.cell_pos _).ne'
  exact ⟨_, htr, SameStore.of_cache s _ _ _, hcache.size_eq, hcache.size_le, hcache.frame_eq⟩

/-- A live page translates to its cell. -/
theorem PageInv.translate {s : Vm} {live : Finset ℕ} (H : PageInv s live) {va : ℕ}
    (hva : pageOf va ∈ live) :
    ∃ s', translate s va = some (s.cell (pageOf va), s') ∧ SameStore s s' ∧ PageInv s' live := by
  obtain ⟨s', htr, hsame, htlb⟩ :=
    translate_spec H.toDirInv H.toTlbInv (H.usedVa_eq hva) (H.live_lt _ hva)
  exact ⟨s', htr, hsame, hsame.tableInv H.toTableInv, htlb⟩

end UserLevelOs.Memory
