import UserLevelOs.Memory.Frees
import UserLevelOs.Memory.Lasting

/-!
# The translation cache is transparent

A lookup answers what the walk of the table answers, as long as the directory entries of
the pages in use keep the value `init_page_tables` gave them.  Entries that the cache keeps
of freed pages are then still right when the page is handed out again: a page's cell
depends on its number alone.

## Main definitions

* `EntriesKept`, `Call.Kept` — the directory entries in use are the initial ones.
* `Transparent` — every lookup answers as the walk does.
* `CacheInv` — every cached translation is the walk's.

## Main statements

* `CallRun.translate_transparent`.
-/

namespace UserLevelOs.Memory

open UserLevelOs.Lib
open Tracer (watched)

/-! ## Lookups answer as the walk -/

/-- The directory entry with index `d`. -/
def dirEntry (s : Vm) (d : ℕ) : Option ℕ := s.loadWord (s.ptbr + WORD_BYTES * d)

/-- The directory entries used by the pages marked used hold what initialisation left. -/
def EntriesKept (v : VmStart) (s : Vm) : Prop :=
  ∀ s₀, setPhysicalMem v = some s₀ → ∀ p < 262144, bitSetAt s.virtualBitmap p = true →
    dirEntry s (p / 1024) = dirEntry s₀ (p / 1024)

/-- The entries in use are kept before the call, and wherever it looks an address up. -/
def Call.Kept (v : VmStart) (s : Vm) (c : Call) : Prop :=
  EntriesKept v s ∧ ∀ t ∈ (c.traced .watched).log s, EntriesKept v t

/-- Every lookup answers what the walk of the table answers. -/
def Transparent (s : Vm) : Prop :=
  ∀ va, ∃ cell s', translate s va = some (cell, s') ∧ fetchPteFrom s va = some cell

/-- Every cached translation is the one the walk makes through an initial entry. -/
structure CacheInv (v : VmStart) (s : Vm) : Prop where
  vmStart_eq : s.vmStart = v
  ptbr_eq : s.ptbr = v.addr
  cache : CacheOf (fun p => v.addr + 4 * (p % 1024)) s.tlbCache

variable {v : VmStart} {s s' : Vm}

/-- Initialisation points every entry at the directory. -/
theorem dirEntry_init (h : setPhysicalMem v = some s) {d : ℕ} (hd : d < 256) :
    dirEntry s d = some v.addr := by
  obtain ⟨s₀, hinit, H, -, hstart, -, hentries⟩ := setPhysicalMem_spec v
  obtain rfl := Option.some.inj (h.symm.trans hinit)
  have hptbr : s.ptbr = v.addr := by rw [H.ptbr_eq, hstart]
  have hown : s.Owns (s.ptbr + WORD_BYTES * d) WORD_BYTES := by
    simp only [Vm.Owns, hstart, hptbr, MEMSIZE, WORD_BYTES]
    omega
  rw [dirEntry, Vm.loadWord, if_pos hown, hentries d hd, hptbr]

theorem EntriesKept.dirEntry_eq (h : EntriesKept v s) {p : ℕ} (hp : p < 262144)
    (hbit : bitSetAt s.virtualBitmap p = true) : dirEntry s (p / 1024) = some v.addr := by
  obtain ⟨s₀, hinit, -⟩ := setPhysicalMem_spec v
  rw [h s₀ hinit p hp hbit, dirEntry_init hinit (by omega)]

/-- The walk through an initial entry ends at a cell given by the number of the page. -/
theorem EntriesKept.fetchPteFrom_eq (h : EntriesKept v s) {va : ℕ} (hused : usedVa s va = true) :
    fetchPteFrom s va = some (v.addr + 4 * (pageOf va % 1024)) := by
  have hpage := hused
  rw [usedVa, Bool.and_eq_true, isValidVa_iff] at hpage
  have hentry := h.dirEntry_eq hpage.1 hpage.2
  have hpde : pageOf va / 1024 % 256 = pageOf va / 1024 := by omega
  have hfit := v.addr_fits
  have hmod : (v.addr + 4 * (pageOf va % 1024)) % 2 ^ 32 = v.addr + 4 * (pageOf va % 1024) := by
    simp only [MEMSIZE] at hfit
    omega
  rw [dirEntry] at hentry
  simp only [fetchPteFrom, hused, Bool.not_true, Bool.false_eq_true, if_false,
    pdeOffset_extractFrom, pteOffset_extractFrom, hpde, hentry, Option.bind_eq_bind,
    Option.bind_some, hmod]

/-- A lookup answers as the walk does, and keeps the cache as it should be. -/
theorem CacheInv.lookup (C : CacheInv v s) (h : EntriesKept v s) (va : ℕ) :
    ∃ cell s', translate s va = some (cell, s') ∧ fetchPteFrom s va = some cell ∧
      CacheInv v s' := by
  cases hused : usedVa s va with
  | false =>
    refine ⟨0, s, ?_, ?_, C⟩
    · simp [translate, checkTLB, hused]
    · simp [fetchPteFrom, hused]
  | true =>
    have hfetch := h.fetchPteFrom_eq hused
    have hne : v.addr + 4 * (pageOf va % 1024) ≠ 0 := by
      have := v.addr_pos
      omega
    obtain ⟨cache, misses, lookups, htr, hcache⟩ := C.cache.translate_spec hused hfetch hne
    exact ⟨_, _, htr, hfetch, C.vmStart_eq, C.ptbr_eq, hcache⟩

theorem CacheInv.transparent (C : CacheInv v s) (h : EntriesKept v s) : Transparent s := by
  intro va
  obtain ⟨cell, s', htr, hfetch, -⟩ := C.lookup h va
  exact ⟨cell, s', htr, hfetch⟩

theorem robust_cacheInv (v : VmStart) :
    Robust watched (EntriesKept v) (CacheInv v) fun s _ => CacheInv v s where
  translate := by
    intro va s log C hseen
    have h : EntriesKept v s := hseen s (by simp)
    refine ⟨fun t ht => ?_, fun cell s' hrun => ?_⟩
    · have hts : t = s := by simpa using ht
      exact hts ▸ C
    · obtain ⟨cell', s'', htr, -, C'⟩ := C.lookup h va
      rw [Tracer.run_translate, htr, Option.some.injEq, Prod.mk.injEq] at hrun
      exact hrun.2 ▸ C'
  same := by
    intro s s' log C h
    refine ⟨h.vmStart_eq.trans C.vmStart_eq, h.ptbr_eq.trans C.ptbr_eq, ?_⟩
    rw [h.tlbCache_eq]
    exact C.cache
  bitmaps := fun _ _ _ _ C => ⟨C.vmStart_eq, C.ptbr_eq, C.cache⟩
  forget := by
    intro s va found cache log C hsearch
    obtain ⟨found', cache', hsearch', hcache, -⟩ := C.cache.searchAndRemove_spec va
    rw [hsearch, Option.some.injEq, Prod.mk.injEq] at hsearch'
    exact ⟨C.vmStart_eq, C.ptbr_eq, hsearch'.2 ▸ hcache⟩

theorem CacheInv.init (h : setPhysicalMem v = some s) : CacheInv v s := by
  obtain ⟨s₀, hinit, H, -, hstart, hcache, -⟩ := setPhysicalMem_spec v
  obtain rfl := Option.some.inj (h.symm.trans hinit)
  refine ⟨hstart, by rw [H.ptbr_eq, hstart], ?_⟩
  rw [hcache]
  exact ⟨rfl, by simp, by simp⟩

/-- In a run that keeps the entries in use, every cached translation is right. -/
theorem CallRun.cacheInv (hrun : CallRun (Call.Kept v) v s) : CacheInv v s := by
  induction hrun with
  | start hinit => exact .init hinit
  | call _ hc hexec ih =>
    rw [← Call.run_traced Tracer.watched] at hexec
    exact ((robust_cacheInv v).traced _ _ [] ih hc.2).2 _ _ hexec

/-! ## Plain runs keep the entries -/

/-- Only the first page table is in use, and entry 0 points at the directory. -/
structure LowInv (v : VmStart) (s : Vm) : Prop where
  vmStart_eq : s.vmStart = v
  ptbr_eq : s.ptbr = v.addr
  dir_zero : s.memory.loadLE v.addr 4 = v.addr
  used_lt : ∀ p < 262144, bitSetAt s.virtualBitmap p = true → p < 1024

namespace LowInv

theorem of_tableInv {live : Finset ℕ} (H : TableInv s live) (hv : s.vmStart = v) :
    LowInv v s where
  vmStart_eq := hv
  ptbr_eq := by rw [H.ptbr_eq, hv]
  dir_zero := by
    have h := H.dir_zero
    rwa [H.ptbr_eq, hv] at h
  used_lt := by
    intro p hp hbit
    rcases (H.used_iff p hp).mp hbit with h | h
    · omega
    · exact H.live_lt p h

theorem entriesKept (L : LowInv v s) : EntriesKept v s := by
  intro s₀ hinit p hp hbit
  have hlt := L.used_lt p hp hbit
  have hzero : p / 1024 = 0 := by omega
  have hown : s.Owns (v.addr + 4 * 0) 4 := by
    simp only [Vm.Owns, L.vmStart_eq, MEMSIZE]
    omega
  rw [hzero, dirEntry_init hinit (by omega), dirEntry, L.ptbr_eq, Vm.loadWord, if_pos hown,
    Nat.mul_zero, Nat.add_zero, L.dir_zero]

/-- A write after the word a page begins with cannot reach entry 0. -/
theorem copyIn {pa w : ℕ} (hload : ∃ s, LowInv v s ∧ s.loadWord pa = some w) {o n : ℕ}
    {val : List UInt8} (L : LowInv v s) (h : s.copyIn (pa + WORD_BYTES + o) val n = some s') :
    LowInv v s' := by
  obtain ⟨t, T, ht⟩ := hload
  have hpa : v.addr ≤ pa := by
    by_contra hlt
    have hown : ¬ t.Owns pa WORD_BYTES := by
      simp only [Vm.Owns, T.vmStart_eq]
      omega
    rw [Vm.loadWord, if_neg hown] at ht
    cases ht
  rw [Vm.copyIn] at h
  split at h
  · obtain rfl := Option.some.inj h
    refine ⟨L.vmStart_eq, L.ptbr_eq, (Bytes.loadLE_congr fun x _ hx => ?_).trans L.dir_zero,
      L.used_lt⟩
    exact Bytes.write_apply_of_notMem (Or.inl (by simp only [WORD_BYTES]; omega))
  · cases h

theorem stable (v : VmStart) :
    Stable watched (fun _ => True) (LowInv v) fun s _ => LowInv v s where
  translate := by
    intro va s log L _
    refine ⟨fun t ht => ?_, fun cell s' hrun => ?_⟩
    · have hts : t = s := by simpa using ht
      exact hts ▸ L
    · rw [Tracer.run_translate] at hrun
      obtain ⟨cache, misses, lookups, rfl⟩ := translate_cache hrun
      exact ⟨L.vmStart_eq, L.ptbr_eq, L.dir_zero, L.used_lt⟩
  lock := fun _ _ _ L => ⟨L.vmStart_eq, L.ptbr_eq, L.dir_zero, L.used_lt⟩
  copyIn := by
    intro pa w hload s o val n s' log L h
    obtain ⟨t, log', T, ht⟩ := hload
    exact L.copyIn ⟨t, T, ht⟩ h

end LowInv

/-- A turn of `t_free_aux` looks its page up once, with its cached entry removed. -/
theorem seen_freePage {t : Vm} {start : ℕ} (ht : t ∈ (watched.freePage start).log s) :
    ∃ cache, t = { s with tlbCache := cache } := by
  simp [Tracer.freePage, Option.bind_eq_some_iff] at ht
  obtain ⟨found, cache, -, rfl⟩ := ht
  exact ⟨cache, rfl⟩

/-- A turn of the mapping loop looks its page up once, after its frame is cleared and its
bit set. -/
theorem seen_mapPage {t : Vm} (ht : t ∈ watched.mapPage.log s) :
    t.vmStart = s.vmStart ∧ t.ptbr = s.ptbr ∧
      t.virtualBitmap = Bitmap.set .msbFirst s.virtualBitmap (pageOf (getNextAvail s)) ∧
      t.memory = s.memory.fill (pointerToFrameAtPosition s (firstAvailablePosition s.frameBitmap))
        PGSIZE 0 := by
  simp [Tracer.mapPage, Tracer.pageMap, Option.bind_eq_some_iff] at ht
  obtain ⟨frames, -, s₁, hclear, -, pages, hset, rfl⟩ := ht
  rw [Vm.clear] at hclear
  split at hclear
  · obtain rfl := Option.some.inj hclear
    rw [setBitAt] at hset
    split at hset
    · exact ⟨rfl, rfl, (Option.some.inj hset).symm, rfl⟩
    · cases hset
  · cases hclear

theorem robust_vmStart (v : VmStart) :
    Robust watched (fun _ => True) (fun s => s.vmStart = v) fun s _ => s.vmStart = v where
  translate := by
    intro va s log hv _
    refine ⟨fun t ht => ?_, fun cell s' hrun => ?_⟩
    · have hts : t = s := by simpa using ht
      exact hts ▸ hv
    · rw [Tracer.run_translate] at hrun
      obtain ⟨cache, misses, lookups, rfl⟩ := translate_cache hrun
      exact hv
  same := fun _ _ _ hv h => h.vmStart_eq.trans hv
  bitmaps := fun _ _ _ _ hv => hv
  forget := fun _ _ _ _ _ hv _ => hv

/-- The page looked up is one of the first table, and its frame is not the directory. -/
theorem lowInv_of_seen_mapPage {live : Finset ℕ} (H : PageInv s live) (hv : s.vmStart = v)
    (hcard : live.card < 1023) {t : Vm} (ht : t ∈ watched.mapPage.log s) : LowInv v t := by
  obtain ⟨p, hpos, hlt, hfree, hlow⟩ := exists_free_page hcard
  obtain ⟨f, hres, hf, hclear, hset⟩ := exists_free_frame H.toTableInv hcard
  obtain ⟨hstart, hptbr, hvirtual, hmemory⟩ := seen_mapPage ht
  have L := LowInv.of_tableInv H.toTableInv hv
  have hpage : pageOf (4096 * p) = p := by rw [pageOf_eq]; omega
  rw [getNextAvail_of_first (H.lowest_page hpos hlt hfree hlow).1 (by omega), hpage] at hvirtual
  rw [firstAvailablePosition_eq hf hclear hset, pointerToFrame_eq hf, hv] at hmemory
  refine ⟨hstart.trans hv, hptbr.trans L.ptbr_eq, ?_, fun q hq hbit => ?_⟩
  · refine (Bytes.loadLE_congr fun x _ hx => ?_).trans L.dir_zero
    rw [hmemory]
    exact Bytes.fill_apply_of_notMem (Or.inl (by omega))
  · rw [hvirtual, bitSetAt_set, Bool.or_eq_true, decide_eq_true_eq] at hbit
    rcases hbit with rfl | hbit
    · exact hlt
    · exact L.used_lt q hq hbit

/-- The mapping loop looks up pages of the first table only. -/
theorem seen_mapPages {live : Finset ℕ} (H : PageInv s live) (hv : s.vmStart = v) {n : ℕ}
    (hcard : live.card + n ≤ 1023) {t : Vm} (ht : t ∈ (watched.mapPages n).log s) :
    LowInv v t := by
  induction n generalizing s live with
  | zero => cases ht
  | succ n ih =>
    simp only [Tracer.mapPages, Logged.mem_log_bind, Tracer.run_mapPage] at ht
    obtain ⟨p, s₁, hmap, -, hfree, -, H₁, -⟩ := mapPage_spec H (by omega)
    have hcard₁ : (insert p live).card + n ≤ 1023 := by
      rw [Finset.card_insert_of_notMem hfree]
      omega
    rcases ht with ht | ⟨r, hrun, ht | ⟨rest, -, ht⟩⟩
    · exact lowInv_of_seen_mapPage H hv (by omega) ht
    · rw [hmap, Option.some.injEq] at hrun
      subst hrun
      have hv₁ : s₁.vmStart = v :=
        ((robust_vmStart v).mapPage s [] hv fun _ _ => trivial).2 _ _
          ((watched.run_mapPage s).trans hmap)
      exact ih H₁ hv₁ hcard₁ ht
    · cases ht

/-- Freeing the first pages of a chain looks up pages of the first table only. -/
theorem seen_tFreeAux {live : Finset ℕ} (H : PageInv s live) (hv : s.vmStart = v) {ps : List ℕ}
    (hlive : ∀ p ∈ ps, p ∈ live) (hnodup : ps.Nodup) (htrail : Trail s ps) {start : ℕ}
    (hstart : ∀ p ∈ ps.head?, pageOf start = p) {t : Vm}
    (ht : t ∈ (watched.tFreeAux ps.length start).log s) : LowInv v t := by
  induction ps generalizing s live start with
  | nil => cases ht
  | cons p ps ih =>
    have hp : p ∈ live := hlive p List.mem_cons_self
    have hpage := hstart p rfl
    have hne : start ≠ 0 := by
      rintro rfl
      have hpos := H.live_pos p hp
      rw [pageOf_eq] at hpage
      omega
    obtain ⟨hnotin, hnodup'⟩ := List.nodup_cons.mp hnodup
    obtain ⟨s₁, hstep, H₁, -, hstart₁, -, hother, -⟩ := freePage_spec H hpage hp
    have hlive' : ∀ q ∈ ps, q ∈ live.erase p := fun q hq => Finset.mem_erase.mpr
      ⟨fun h => hnotin (h ▸ hq), hlive q (List.mem_cons_of_mem _ hq)⟩
    have hrest : ∀ q ∈ ps, s₁.link q = s.link q := fun q hq =>
      (hother q (hlive q (List.mem_cons_of_mem _ hq)) fun h => hnotin (h ▸ hq)).link_eq
    rw [List.length_cons, Tracer.tFreeAux, if_neg hne, Logged.mem_log_bind,
      Tracer.run_freePage] at ht
    rcases ht with ht | ⟨r, hrun, ht⟩
    · obtain ⟨cache, rfl⟩ := seen_freePage ht
      have L := LowInv.of_tableInv H.toTableInv hv
      exact ⟨L.vmStart_eq, L.ptbr_eq, L.dir_zero, L.used_lt⟩
    · rw [hstep, Option.some.injEq] at hrun
      subst hrun
      exact ih H₁ (hstart₁.trans hv) hlive' hnodup' (htrail.2.congr hrest) htrail.next ht

theorem seen_tMalloc {live : Finset ℕ} (C : ClientInv s live) (hv : s.vmStart = v) {n : UInt32}
    (hfit : live.card + pagesRequested n.toNat ≤ 1023 ∨
      261887 < live.card + pagesRequested n.toNat) {t : Vm}
    (ht : t ∈ (watched.tMalloc n).log s) : LowInv v t := by
  by_cases h0 : n = 0
  · simp [Tracer.tMalloc, Vm.lock_eq C.unlocked, h0] at ht
  have hpos : 0 < pagesRequested n.toNat :=
    pagesRequested_pos fun h => h0 (UInt32.toNat_inj.mp h)
  have H₁ := C.page.setLock true
  obtain ⟨virtualOk, frameOk, hv', hf', hrefused⟩ := H₁.nBitsAvailable_both hpos
  simp [Tracer.tMalloc, Vm.lock_eq C.unlocked, h0, hv', hf'] at ht
  obtain ⟨rfl, rfl, ht⟩ := ht
  have hfew : ¬ 261887 < live.card + pagesRequested n.toNat := by simpa using hrefused
  exact seen_mapPages H₁ hv (hfit.resolve_right hfew) ht

theorem seen_tFree {live : Finset ℕ} (C : ClientInv s live) (hv : s.vmStart = v) {va : ℕ} {size : ℤ}
    (hc : Call.Spares s (.tFree va size)) {t : Vm} (ht : t ∈ (watched.tFree va size).log s) :
    LowInv v t := by
  by_cases h0 : size = 0
  · rw [Tracer.tFree, if_pos h0] at ht
    cases ht
  have L := LowInv.of_tableInv (C.page.setLock true).toTableInv hv
  simp [Tracer.tFree, h0, Vm.lock_eq C.unlocked] at ht
  rcases ht with ht | ⟨s₁, hwalk, ht⟩
  · exact ((LowInv.stable v).validPages _ _ _ [] L fun _ _ => trivial).1 t ht
  · obtain ⟨s₁', hwalk', hsame, H₁, -⟩ := C.check (pagesRequested (toSizeT size)) va
    rw [hwalk, Option.some.injEq, Prod.mk.injEq] at hwalk'
    obtain ⟨hacc, rfl⟩ := hwalk'
    have hne : va ≠ 0 → pageOf va ≠ 0 := fun _ hpage => by
      rw [(hc.2 hpage).resolve_left h0] at hacc
      cases hacc
    obtain ⟨ps, hlen, hnodup, hlive, htrail, hhead⟩ := C.accepted hacc.symm hne
    rw [← hlen] at ht
    exact seen_tFreeAux H₁ (hsame.vmStart_eq.trans hv) hlive hnodup
      (htrail.congr fun p _ => hsame.link_eq p) hhead ht

/-- A plain call looks up pages of the first table only. -/
theorem Call.Plain.kept {live : Finset ℕ} (C : ClientInv s live) (hv : s.vmStart = v) {c : Call}
    (hc : c.Plain s) : c.Kept v s := by
  have L := LowInv.of_tableInv C.page.toTableInv hv
  refine ⟨L.entriesKept, fun t ht => LowInv.entriesKept ?_⟩
  cases c with
  | tMalloc n =>
    rw [Call.Plain, C.livePages_eq] at hc
    refine seen_tMalloc C hv hc ?_
    simpa [Call.traced] using ht
  | tFree va size =>
    refine seen_tFree C hv hc.spares ?_
    simpa [Call.traced] using ht
  | putValue va val size =>
    refine ((LowInv.stable v).putValue va val size s [] L fun _ _ => trivial).1 t ?_
    simpa [Call.traced] using ht
  | getValue va size =>
    refine ((LowInv.stable v).getValue va size s [] L fun _ _ => trivial).1 t ?_
    simpa [Call.traced] using ht

/-- Runs of plain calls keep the directory entries in use. -/
theorem CallRun.kept (hrun : CallRun Call.Plain v s) :
    CallRun (Call.Kept v) v s ∧ EntriesKept v s := by
  have hentries : CallRun (Call.Kept v) v s → EntriesKept v s := by
    intro hkept
    obtain ⟨live, C⟩ := (hrun.mono fun _ _ => Call.Plain.spares).clientInv
    exact (LowInv.of_tableInv C.page.toTableInv hkept.cacheInv.vmStart_eq).entriesKept
  suffices h : CallRun (Call.Kept v) v s from ⟨h, hentries h⟩
  clear hentries
  induction hrun with
  | start hinit => exact .start hinit
  | call hrun hc hexec ih =>
    obtain ⟨live, C⟩ := (hrun.mono fun _ _ => Call.Plain.spares).clientInv
    exact ih.call (Call.Plain.kept C ih.cacheInv.vmStart_eq hc) hexec

/-- In every run that keeps the directory entries of the pages in use, the lookup of every
address answers as the uncached walk does, between the calls and wherever a call looks an
address up.  Runs of plain calls keep these entries. -/
theorem CallRun.translate_transparent :
    (∀ v s, CallRun (Call.Kept v) v s → EntriesKept v s → Transparent s) ∧
    (∀ v s c, CallRun (Call.Kept v) v s → Call.Kept v s c →
      ∀ t ∈ (c.traced .watched).log s, Transparent t) ∧
    ∀ v s, CallRun Call.Plain v s → CallRun (Call.Kept v) v s ∧ EntriesKept v s := by
  refine ⟨fun v s hrun h => hrun.cacheInv.transparent h, fun v s c hrun hc t ht => ?_,
    fun v s => CallRun.kept⟩
  have hseen := ((robust_cacheInv v).traced c s [] hrun.cacheInv hc.2).1
  exact (hseen t ht).transparent (hc.2 t ht)

/-- `CallRun.translate_transparent` after an allocation of two pages. -/
theorem CallRun.translate_transparent_first : ∃ (v : VmStart) (s₀ s : Vm) (va : ℕ),
    setPhysicalMem v = some s₀ ∧ tMalloc s₀ 5000 = some (va, s) ∧ Transparent s := by
  let v : VmStart := ⟨4096, by decide, by decide⟩
  obtain ⟨s₀, s, va, hinit, hexec, hplain⟩ :=
    CallRun.malloc_first v (n := 5000) (by decide) (by decide)
  obtain ⟨hkept, hentries⟩ := CallRun.translate_transparent.2.2 v s hplain
  exact ⟨v, s₀, s, va, hinit, hexec, CallRun.translate_transparent.1 v s hkept hentries⟩

end UserLevelOs.Memory
