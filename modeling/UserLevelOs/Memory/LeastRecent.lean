import UserLevelOs.Lib.Recency
import UserLevelOs.Memory.Frees
import UserLevelOs.Memory.Lasting

/-!
# What the translation cache holds

The cache holds the pages translated last.  `search_and_remove`, `evict_lru_cached_entry` and
`add_TLB` splice the list in different places; what they make of it together is that each
translation puts its page in front.  `t_free_aux` takes a page out before it translates it, so
for a moment the page is missing.

## Main definitions

* `TlbCache.pages`, `translated` — the pages of the cache and of the lookups that succeeded.
* `TlbCache.Holds` — the cache holds the pages used last.
* `TlbCache.Lacks` — the same but for one page, which may be missing.
* `RecordedRun` — runs of the library with all their lookups.

## Main statements

* `RecordedRun.exists_of_run` — every run has a record.
* `RecordedRun.leastRecent`.
-/

namespace UserLevelOs.Memory

open UserLevelOs.Lib Logged
open Tracer (recorded)

namespace TlbCache

def pages (c : TlbCache) : List ℕ := c.entries.map fun e => pageOf e.virtualAddress

/-- The cache after pages have been used one after another. -/
structure Holds (c : TlbCache) (uses : List ℕ) : Prop where
  pages_eq : c.pages = (recency uses).take TLB_ENTRIES
  size_eq : c.size = c.entries.length
  frame_ne : ∀ e ∈ c.entries, e.frame ≠ 0

/-- Page `p` may be missing. -/
structure Lacks (c : TlbCache) (uses : List ℕ) (p : ℕ) : Prop where
  erase_eq : c.pages.erase p = ((recency uses).take TLB_ENTRIES).erase p
  mem : p ∈ c.pages → p ∈ (recency uses).take TLB_ENTRIES
  size_eq : c.size = c.entries.length
  frame_ne : ∀ e ∈ c.entries, e.frame ≠ 0

variable {c c' : TlbCache} {uses : List ℕ} {p va frame : ℕ} {e : TlbStore}
  {found : Option TlbStore}

@[simp] theorem length_pages (c : TlbCache) : c.pages.length = c.entries.length := by simp [pages]

@[simp] theorem pages_push (c : TlbCache) (e : TlbStore) :
    (c.push e).pages = pageOf e.virtualAddress :: c.pages := rfl

theorem Holds.lacks (h : c.Holds uses) (p : ℕ) : c.Lacks uses p :=
  ⟨by rw [h.pages_eq], by rw [h.pages_eq]; exact id, h.size_eq, h.frame_ne⟩

theorem Holds.nodup (h : c.Holds uses) : c.pages.Nodup := by
  rw [h.pages_eq]
  exact (nodup_recency uses).take

theorem length_take_recency (uses : List ℕ) : ((recency uses).take TLB_ENTRIES).length ≤ 512 :=
  List.length_take_le _ _

end TlbCache

open TlbCache

variable {c c' : TlbCache} {uses : List ℕ} {p va frame : ℕ} {e : TlbStore}
  {found : Option TlbStore}

theorem unlinkFirst_pages {es rest : List TlbStore} (h : unlinkFirst va es = some (e, rest)) :
    e ∈ es ∧ rest ⊆ es ∧ pageOf e.virtualAddress = pageOf va ∧
      (rest.map fun e => pageOf e.virtualAddress) =
        (es.map fun e => pageOf e.virtualAddress).erase (pageOf va) := by
  induction es generalizing rest with
  | nil => cases h
  | cons x es ih =>
    rw [unlinkFirst] at h
    by_cases hx : pageOf x.virtualAddress = pageOf va
    · rw [if_pos (by simpa [equivalentVirtualAddress] using hx)] at h
      cases h
      simp [hx]
    · rw [if_neg (by simpa [equivalentVirtualAddress] using hx), Option.map_eq_some_iff] at h
      obtain ⟨⟨y, ys⟩, hrec, heq⟩ := h
      cases heq
      obtain ⟨hmem, hsub, hpage, hpages⟩ := ih hrec
      refine ⟨List.mem_cons_of_mem _ hmem, List.cons_subset_cons _ hsub, hpage, ?_⟩
      rw [List.map_cons, List.map_cons, hpages, List.erase_cons_tail (by simpa using hx)]

theorem unlinkFirst_none {es : List TlbStore} (h : unlinkFirst va es = none) :
    pageOf va ∉ es.map fun e => pageOf e.virtualAddress := by
  induction es with
  | nil => simp
  | cons x es ih =>
    rw [unlinkFirst] at h
    by_cases hx : pageOf x.virtualAddress = pageOf va
    · rw [if_pos (by simpa [equivalentVirtualAddress] using hx)] at h
      cases h
    · rw [if_neg (by simpa [equivalentVirtualAddress] using hx), Option.map_eq_none_iff] at h
      rw [List.map_cons, List.mem_cons, not_or]
      exact ⟨fun heq => hx heq.symm, ih h⟩

/-- The page asked for is taken out, wherever it is in the list. -/
theorem searchAndRemove_pages (hsize : c.size = c.entries.length)
    (h : searchAndRemove c va = some (found, c')) :
    c'.pages = c.pages.erase (pageOf va) ∧ c'.size = c'.entries.length ∧
      c'.entries ⊆ c.entries ∧ (found = none → c' = c) ∧
      ∀ e, found = some e →
        e ∈ c.entries ∧ pageOf e.virtualAddress = pageOf va ∧ pageOf va ∈ c.pages := by
  rw [searchAndRemove] at h
  split at h
  · next hpos =>
    split at h
    · cases h
    · cases hu : unlinkFirst va c.entries with
      | none =>
        rw [hu] at h
        cases h
        have hnot := unlinkFirst_none hu
        exact ⟨(List.erase_of_not_mem hnot).symm, hsize, List.Subset.refl _, fun _ => rfl, by simp⟩
      | some r =>
        obtain ⟨x, rest⟩ := r
        rw [hu] at h
        cases h
        obtain ⟨hmem, hsub, hpage, hpages⟩ := unlinkFirst_pages hu
        have hin : pageOf va ∈ c.pages := hpage ▸ List.mem_map_of_mem hmem
        refine ⟨hpages, ?_, hsub, by simp, ?_⟩
        · have hlen : rest.length = (c.pages.erase (pageOf va)).length := by
            rw [TlbCache.pages, ← hpages, List.length_map]
          rw [List.length_erase_of_mem hin, length_pages] at hlen
          simp [hsize, hlen]
        · rintro y ⟨rfl⟩
          exact ⟨hmem, hpage, hin⟩
  · next hempty =>
    cases h
    have hnil : c.entries = [] := List.length_eq_zero_iff.mp (by omega)
    exact ⟨by simp [TlbCache.pages, hnil], hsize, List.Subset.refl _, fun _ => rfl, by simp⟩

namespace TlbCache

/-- Taking a page out of the cache. -/
theorem Lacks.searchAndRemove (h : c.Lacks uses (pageOf va))
    (hsearch : Memory.searchAndRemove c va = some (found, c')) :
    c'.pages = ((recency uses).take TLB_ENTRIES).erase (pageOf va) ∧
      c'.size = c'.entries.length ∧ (∀ e ∈ c'.entries, e.frame ≠ 0) := by
  obtain ⟨hpages, hsize, hsub, -, -⟩ := searchAndRemove_pages h.size_eq hsearch
  exact ⟨hpages.trans h.erase_eq, hsize, fun e he => h.frame_ne e (hsub he)⟩

theorem Holds.searchAndRemove (h : c.Holds uses)
    (hsearch : Memory.searchAndRemove c va = some (found, c')) : c'.Lacks uses (pageOf va) := by
  obtain ⟨hpages, hsize, hframe⟩ := (h.lacks _).searchAndRemove hsearch
  have hnodup : ((recency uses).take TLB_ENTRIES).Nodup := (nodup_recency uses).take
  have hnot : pageOf va ∉ c'.pages := by
    rw [hpages]
    exact hnodup.not_mem_erase
  refine ⟨?_, fun hmem => absurd hmem hnot, hsize, hframe⟩
  rw [List.erase_of_not_mem hnot, hpages]

theorem push_size (hsize : c.size = c.entries.length) (hroom : c.entries.length < 512) :
    (c.push e).size = (c.push e).entries.length := by
  simp only [push, List.length_cons]
  omega

/-- A page that was held is put back in front. -/
theorem holds_push (hpages : c.pages = ((recency uses).take TLB_ENTRIES).erase p)
    (hsize : c.size = c.entries.length) (hframe : ∀ e ∈ c.entries, e.frame ≠ 0)
    (hmem : p ∈ (recency uses).take TLB_ENTRIES) (hpage : pageOf e.virtualAddress = p)
    (he : e.frame ≠ 0) : (c.push e).Holds (uses ++ [p]) := by
  have hlen := congrArg List.length hpages
  rw [length_pages, List.length_erase_of_mem hmem] at hlen
  have hle := length_take_recency uses
  have hpos := List.length_pos_of_mem hmem
  refine ⟨?_, push_size hsize (by omega), ?_⟩
  · rw [pages_push, hpages, hpage, take_recency_hit hmem]
  · simpa [push, he] using hframe

/-- A page that was not held is put in front, and the last one makes room for it. -/
theorem holds_evict (hpages : c.pages = (recency uses).take TLB_ENTRIES)
    (hsize : c.size = c.entries.length) (hframe : ∀ e ∈ c.entries, e.frame ≠ 0)
    (hmem : p ∉ (recency uses).take TLB_ENTRIES) (hpage : pageOf va = p) (hne : frame ≠ 0)
    (hadd : addTLB c va frame = some c') : c'.Holds (uses ++ [p]) := by
  have hlen := congrArg List.length hpages
  rw [length_pages] at hlen
  have hle := length_take_recency uses
  rw [addTLB] at hadd
  by_cases hfull : c.size = 512
  · have hevict : evictLruCachedEntry c = some ⟨c.size - 1, c.entries.dropLast⟩ := by
      rw [evictLruCachedEntry, if_neg (by omega), if_neg (by omega), if_pos (by omega)]
    rw [if_pos hfull, hevict] at hadd
    cases hadd
    have hdrop : c.entries.dropLast.map (fun e => pageOf e.virtualAddress) =
        (recency uses).take 511 := by
      have htake : c.entries.dropLast.map (fun e => pageOf e.virtualAddress) =
          c.pages.take 511 := by
        rw [List.map_dropLast, List.dropLast_eq_take, List.length_map, ← hsize, hfull]
        rfl
      rw [htake, hpages, List.take_take]
      rfl
    refine ⟨?_, ?_, ?_⟩
    · rw [pages_push, hpage, take_recency_miss hmem]
      exact congrArg _ hdrop
    · exact push_size (by simp [hsize]) (by simp; omega)
    · intro e he
      rcases List.mem_cons.mp he with rfl | he
      · exact hne
      · exact hframe e (List.dropLast_subset _ he)
  · rw [if_neg hfull] at hadd
    cases hadd
    refine ⟨?_, push_size hsize (by omega), ?_⟩
    · -- the list is not cut, so it holds every page
      have hall : (recency uses).length ≤ 511 := by
        rw [List.length_take] at hlen
        simp only [TLB_ENTRIES] at hlen
        omega
      have hall' : (recency uses).length ≤ TLB_ENTRIES := hall.trans (by decide)
      rw [pages_push, hpage, take_recency_miss hmem, hpages, List.take_of_length_le hall,
        List.take_of_length_le hall']
    · simpa [push, hne] using hframe

/-- After the page has been taken out, `add_TLB` puts it in front. -/
theorem holds_addTLB (hpages : c.pages = ((recency uses).take TLB_ENTRIES).erase (pageOf va))
    (hsize : c.size = c.entries.length) (hframe : ∀ e ∈ c.entries, e.frame ≠ 0) (hne : frame ≠ 0)
    (hadd : addTLB c va frame = some c') : c'.Holds (uses ++ [pageOf va]) := by
  by_cases hmem : pageOf va ∈ (recency uses).take TLB_ENTRIES
  · have hlen := congrArg List.length hpages
    rw [length_pages, List.length_erase_of_mem hmem] at hlen
    have hle := length_take_recency uses
    have hpos := List.length_pos_of_mem hmem
    have hroom : ¬ c.size = 512 := by omega
    rw [addTLB, if_neg hroom] at hadd
    cases hadd
    exact holds_push hpages hsize hframe hmem rfl hne
  · rw [List.erase_of_not_mem hmem] at hpages
    exact holds_evict hpages hsize hframe hmem rfl hne hadd

/-- A translation puts its page in front, also if the page has been taken out before. -/
theorem Lacks.translate {s s' : Vm} {cell : ℕ} (h : s.tlbCache.Lacks uses (pageOf va))
    (htr : Memory.translate s va = some (cell, s')) :
    cell = 0 ∧ s'.tlbCache = s.tlbCache ∨ cell ≠ 0 ∧ s'.tlbCache.Holds (uses ++ [pageOf va]) := by
  cases translate_some htr with
  | unused _ => exact .inl ⟨rfl, rfl⟩
  | @hit e cache _ hsearch =>
    obtain ⟨hpages, hsize, hframe⟩ := h.searchAndRemove hsearch
    obtain ⟨-, -, -, -, hfound⟩ := searchAndRemove_pages h.size_eq hsearch
    obtain ⟨hmem, hpage, hin⟩ := hfound e rfl
    have hne := h.frame_ne e hmem
    exact .inr ⟨hne, holds_push hpages hsize hframe (h.mem hin) hpage hne⟩
  | miss _ hsearch _ hne hadd =>
    obtain ⟨hpages, hsize, hframe⟩ := h.searchAndRemove hsearch
    exact .inr ⟨hne, holds_addTLB hpages hsize hframe hne hadd⟩
  | absent _ _ _ => exact .inl ⟨rfl, rfl⟩

end TlbCache

/-- The pages of the lookups that found a cell, one after another. -/
def translated (log : List Lookup) : List ℕ :=
  (log.filter fun x => x.cell ≠ 0).map fun x => pageOf x.va

/-- The cache holds the pages translated last. -/
def LeastRecent (s : Vm) (log : List Lookup) : Prop := s.tlbCache.Holds (translated log)

variable {s s' : Vm} {log : List Lookup} {cell : ℕ}

theorem translated_snoc (log : List Lookup) (x : Lookup) :
    translated (log ++ [x]) = translated log ++ if x.cell ≠ 0 then [pageOf x.va] else [] := by
  by_cases h : x.cell = 0 <;> simp [translated, h]

/-- A lookup, whether or not its page has been taken out before. -/
theorem leastRecent_snoc (h : s.tlbCache.Lacks (translated log) (pageOf va))
    (htr : translate s va = some (cell, s')) (hne : cell ≠ 0) :
    LeastRecent s' (log ++ [⟨va, cell⟩]) := by
  rw [LeastRecent, translated_snoc, if_pos hne]
  exact (h.translate htr).resolve_left (fun h => hne h.1) |>.2

namespace LeastRecent

theorem of_cache_eq (h : LeastRecent s log) (hcache : s'.tlbCache = s.tlbCache) :
    LeastRecent s' log := by
  rw [LeastRecent, hcache]
  exact h

/-- The computation keeps the cache so. -/
abbrev Kept {α : Type} (m : Logged Vm Lookup α) : Prop :=
  Keeps (fun _ => True) (fun _ => True) LeastRecent m

theorem translate (va : ℕ) : Kept (recorded.translate va) := by
  intro s log h _
  refine ⟨fun _ _ => trivial, fun cell s' hrun => ?_⟩
  rw [Tracer.run_translate] at hrun
  rw [Tracer.log_recorded hrun]
  by_cases hne : cell = 0
  · rcases (Holds.lacks h (pageOf va)).translate hrun with ⟨-, hcache⟩ | ⟨hne', -⟩
    · rw [LeastRecent, hcache, translated_snoc, if_neg (by simp [hne]), List.append_nil]
      exact h
    · exact absurd hne hne'
  · exact leastRecent_snoc (Holds.lacks h _) hrun hne

theorem lasting : Lasting recorded (fun _ => True) (fun _ => True) LeastRecent where
  translate := translate
  same := fun _ _ _ h hsame => h.of_cache_eq hsame.tlbCache_eq

theorem loadWord_null (s : Vm) : s.loadWord 0 = none := by
  have hpos := s.vmStart.addr_pos
  rw [Vm.loadWord, if_neg]
  simp only [Vm.Owns]
  omega

/-- A page taken out of the cache is translated again, and its cell is dereferenced. -/
theorem forget {α : Type} {va : ℕ} {k : ℕ → ℕ → Logged Vm Lookup α}
    (hk : ∀ pte pa, Kept (k pte pa)) :
    Kept (do
      Logged.update fun s => do
        let (_, cache) ← searchAndRemove s.tlbCache va
        some { s with tlbCache := cache }
      let pte ← recorded.translate va
      let pa ← Logged.reads fun s => s.loadWord pte
      k pte pa) := by
  intro s log h _
  refine ⟨fun _ _ => trivial, fun a s' hrun => ?_⟩
  simp only [Logged.run_bind, Logged.run_update, Logged.run_reads, Tracer.run_translate,
    Option.bind_eq_bind, Option.bind_eq_some_iff, Option.some.injEq] at hrun
  obtain ⟨-, ⟨s₁, ⟨⟨found, cache⟩, hsearch, rfl⟩, rfl⟩, ⟨pte, s₂⟩, htr, -, ⟨pa, hload, rfl⟩,
    hrest⟩ := hrun
  have hne : pte ≠ 0 := by
    rintro rfl
    rw [loadWord_null] at hload
    cases hload
  have h₂ := leastRecent_snoc (Holds.searchAndRemove h hsearch) htr hne
  have hnext := (hk pte pa s₂ _ h₂ fun _ _ => trivial).2 a s' hrest
  simpa [Logged.log_bind, hsearch, htr, hload, Tracer.log_recorded htr] using hnext

theorem freePage (start : ℕ) : Kept (recorded.freePage start) := by
  refine forget fun pte pa => (lasting.update fun _ _ => .clear).bind fun _ => ?_
  refine Keeps.reads.bind fun next => ?_
  refine (Keeps.update fun s log s' hs h => ?_).bind fun _ => Keeps.pure _
  obtain ⟨virtualBitmap, -, h⟩ := Option.bind_eq_some_iff.mp h
  obtain ⟨frameBitmap, -, h⟩ := Option.bind_eq_some_iff.mp h
  exact hs.of_cache_eq (SameCache.clear h).tlbCache_eq

end LeastRecent

/-! ## Runs -/

/-- The library from `set_physical_mem` on, with the lookups of all its calls. -/
inductive RecordedRun (v : VmStart) : Vm → List Lookup → Prop
  | start {s : Vm} (h : setPhysicalMem v = some s) : RecordedRun v s []
  | call {s s' : Vm} {log : List Lookup} {c : Call} {r : Ret} (hrun : RecordedRun v s log)
      (hexec : c.exec s = some (r, s')) : RecordedRun v s' (log ++ (c.traced .recorded).log s)

/-- Every run has a record. -/
theorem RecordedRun.exists_of_run {ok : Vm → Call → Prop} {v : VmStart} (h : CallRun ok v s) :
    ∃ log, RecordedRun v s log := by
  induction h with
  | start hinit => exact ⟨[], .start hinit⟩
  | call _ _ hexec ih =>
    obtain ⟨log, hrun⟩ := ih
    exact ⟨_, hrun.call hexec⟩

theorem RecordedRun.holds {v : VmStart} (h : RecordedRun v s log) : LeastRecent s log := by
  induction h with
  | start hinit =>
    obtain ⟨s', hinit', -, -, -, hcache, -⟩ := setPhysicalMem_spec v
    obtain rfl := Option.some.inj (hinit.symm.trans hinit')
    rw [LeastRecent, hcache]
    exact ⟨rfl, rfl, by simp⟩
  | call _ hexec ih =>
    rw [← Call.run_traced Tracer.recorded] at hexec
    have hkept := LeastRecent.lasting.traced LeastRecent.freePage
    exact (hkept _ _ _ ih fun _ _ => trivial).2 _ _ hexec

/-- The cache holds the pages translated last, the last one first, none of them twice, and its
size is their number. -/
theorem RecordedRun.leastRecent {v : VmStart} (h : RecordedRun v s log) :
    s.tlbCache.pages = (recency (translated log)).take TLB_ENTRIES ∧ s.tlbCache.pages.Nodup ∧
      s.tlbCache.size = s.tlbCache.entries.length :=
  ⟨h.holds.pages_eq, h.holds.nodup, h.holds.size_eq⟩

/-- `RecordedRun.leastRecent` after an allocation of two pages. -/
theorem RecordedRun.leastRecent_first : ∃ (v : VmStart) (s₀ s : Vm) (va : ℕ) (log : List Lookup),
    setPhysicalMem v = some s₀ ∧ tMalloc s₀ 5000 = some (va, s) ∧ RecordedRun v s log ∧
      s.tlbCache.pages = (recency (translated log)).take TLB_ENTRIES ∧ s.tlbCache.pages.Nodup ∧
      s.tlbCache.size = s.tlbCache.entries.length := by
  let v : VmStart := ⟨4096, by decide, by decide⟩
  obtain ⟨s₀, s, va, hinit, hexec, -⟩ :=
    CallRun.malloc_first v (n := 5000) (by decide) (by decide)
  have hcall : (Call.tMalloc 5000).exec s₀ = some (.ptr va, s) := by simp [Call.exec, hexec]
  have hrun := (RecordedRun.start hinit).call hcall
  exact ⟨v, s₀, s, va, _, hinit, hexec, hrun, RecordedRun.leastRecent hrun⟩

end UserLevelOs.Memory
