import UserLevelOs.Memory.Stale
import UserLevelOs.Memory.Transparency

/-!
# Ranges accepted

The check of a range and the copy after it look the same pages up, one lookup after the other.
They meet the same cells when the cache agrees with the table, and the copy needs no page more
than the check has passed when every link is the start of a page.

## Main definitions

* `Coherent` — the table is that of `s`, and the cache agrees with it.
* `Follows` — the lookups of an accepted check.

## Main statements

* `Coherent.of_transparent`.
* `Coherent.validPages` — what an accepted check has looked up.
* `Follows.getValueAux` — the copy looks up the same pages.
-/

namespace UserLevelOs.Memory

open UserLevelOs.Lib Logged
open Tracer (recorded)

variable {s s' t t' : Vm} {va start cell n : ℕ} {ls : List Lookup}

/-! ## The walk depends on the page alone -/

theorem SameStore.loadWord_eq (h : SameStore s s') (a : ℕ) : s'.loadWord a = s.loadWord a := by
  simp only [Vm.loadWord, Vm.Owns, h.vmStart_eq, h.memory_eq]

theorem SameStore.fetchPteFrom_eq (h : SameStore s s') (va : ℕ) :
    fetchPteFrom s' va = fetchPteFrom s va := by
  simp only [fetchPteFrom, h.usedVa_eq, h.ptbr_eq, h.loadWord_eq]

theorem usedVa_congr {va' : ℕ} (h : pageOf va = pageOf va') : usedVa s va = usedVa s va' := by
  rw [Bool.eq_iff_iff, usedVa, usedVa, Bool.and_eq_true, Bool.and_eq_true, isValidVa_iff,
    isValidVa_iff, h]

theorem fetchPteFrom_congr {va' : ℕ} (h : pageOf va = pageOf va') :
    fetchPteFrom s va = fetchPteFrom s va' := by
  simp only [fetchPteFrom, usedVa_congr h, pdeOffset_extractFrom, pteOffset_extractFrom, h]

/-! ## A cache that agrees with the table -/

/-- If the page is in use, the entry holds what the walk finds. -/
def Agrees (s : Vm) (e : TlbStore) : Prop :=
  usedVa s e.virtualAddress = true → fetchPteFrom s e.virtualAddress = some e.frame

/-- `t` is `s` but for the cache and its counters, and the cache agrees with the table. -/
structure Coherent (s t : Vm) : Prop where
  same : SameStore s t
  cache : CacheWith (Agrees s) t.tlbCache

/-- A search that finds nothing has met no entry for the page. -/
theorem searchAndRemove_none {c c' : TlbCache} (hsize : c.size = c.entries.length)
    (h : searchAndRemove c va = some (none, c')) {e : TlbStore} (he : e ∈ c.entries) :
    pageOf e.virtualAddress ≠ pageOf va := by
  obtain ⟨hpages, -, -, hsame, -⟩ := searchAndRemove_pages hsize h
  rw [hsame rfl] at hpages
  have hnot : pageOf va ∉ c.pages := List.erase_eq_self_iff.mp hpages.symm
  intro hpage
  exact hnot (hpage ▸ List.mem_map_of_mem he)

/-- If no page is cached twice, a lookup of an entry's address answers from that entry. -/
theorem agrees_of_transparent (htrans : Transparent s) (hnodup : s.tlbCache.pages.Nodup)
    (hsize : s.tlbCache.size = s.tlbCache.entries.length) {e : TlbStore}
    (he : e ∈ s.tlbCache.entries) : Agrees s e := by
  intro hused
  obtain ⟨cell, s', htr, hfetch⟩ := htrans e.virtualAddress
  rw [hfetch]
  cases translate_some htr with
  | unused hunused =>
    rw [hunused] at hused
    cases hused
  | @hit e' cache _ hsearch =>
    obtain ⟨-, -, -, -, hfound⟩ := searchAndRemove_pages hsize hsearch
    obtain ⟨hmem, hpage, -⟩ := hfound e' rfl
    rw [List.inj_on_of_nodup_map hnodup hmem he hpage]
  | miss _ hsearch _ _ _ => exact absurd rfl (searchAndRemove_none hsize hsearch he)
  | absent _ hsearch _ => exact absurd rfl (searchAndRemove_none hsize hsearch he)

theorem Coherent.of_transparent (htrans : Transparent s) {uses : List ℕ}
    (h : s.tlbCache.Holds uses) : Coherent s s where
  same := .refl s
  cache := by
    refine ⟨h.size_eq, ?_, fun e he => agrees_of_transparent htrans h.nodup h.size_eq he⟩
    rw [← TlbCache.length_pages, h.pages_eq]
    exact TlbCache.length_take_recency uses

namespace Coherent

/-- A lookup that finds a cell finds what the walk finds. -/
theorem translate (C : Coherent s t) (htr : Memory.translate t va = some (cell, t')) :
    Coherent s t' ∧ (cell ≠ 0 → usedVa s va = true ∧ fetchPteFrom s va = some cell) := by
  have hsame : SameStore t t' := by
    obtain ⟨cache, misses, lookups, rfl⟩ := translate_cache htr
    exact .of_cache t cache misses lookups
  have hstore := C.same.trans hsame
  have hused_eq := C.same.usedVa_eq va
  have hfetch_eq := C.same.fetchPteFrom_eq va
  cases translate_some htr with
  | unused _ => exact ⟨C, fun h => absurd rfl h⟩
  | @hit e cache hused hsearch =>
    obtain ⟨found, cache', hsearch', hcache, hfound⟩ := C.cache.searchAndRemove_spec va
    obtain ⟨rfl, rfl⟩ : some e = found ∧ cache = cache' := by simpa [hsearch] using hsearch'
    obtain ⟨hmem, hpage, hroom⟩ := hfound e rfl
    have he := C.cache.holds e hmem
    refine ⟨⟨hstore, hcache.push hroom he⟩, fun _ => ⟨hused_eq ▸ hused, ?_⟩⟩
    rw [← fetchPteFrom_congr hpage]
    exact he (by rw [usedVa_congr hpage, ← hused_eq, hused])
  | @miss _ cache cache' hused hsearch hfetch hne hadd =>
    rw [hfetch_eq] at hfetch
    obtain ⟨found, cache₁, hsearch', hcache, -⟩ := C.cache.searchAndRemove_spec va
    obtain ⟨rfl, rfl⟩ : none = found ∧ cache = cache₁ := by simpa [hsearch] using hsearch'
    have he : Agrees s ⟨va, cell⟩ := fun _ => hfetch
    obtain ⟨cache₂, hadd', hcache₂⟩ := hcache.addTLB_spec he
    obtain rfl : cache' = cache₂ := by simpa [hadd] using hadd'
    exact ⟨⟨hstore, hcache₂⟩, fun _ => ⟨hused_eq ▸ hused, hfetch⟩⟩
  | absent _ _ _ => exact ⟨⟨hstore, C.cache⟩, fun h => absurd rfl h⟩

/-- Where the walk finds a cell, so does a lookup. -/
theorem lookup (C : Coherent s t) (hused : usedVa s va = true)
    (hfetch : fetchPteFrom s va = some cell) (hne : cell ≠ 0) :
    ∃ t', Memory.translate t va = some (cell, t') ∧ Coherent s t' := by
  have hused_t : usedVa t va = true := by rw [C.same.usedVa_eq, hused]
  have hfetch_t : fetchPteFrom t va = some cell := by rw [C.same.fetchPteFrom_eq, hfetch]
  obtain ⟨e, cache, misses, lookups, htr, he, hpage, -⟩ :=
    C.cache.translate_spec hused_t hfetch_t hne fun _ => hfetch
  have hframe : e.frame = cell := by
    have h := he (by rw [usedVa_congr hpage, hused])
    rw [fetchPteFrom_congr hpage, hfetch] at h
    exact (Option.some.inj h).symm
  rw [hframe] at htr
  exact ⟨_, htr, (C.translate htr).1⟩

end Coherent

/-! ## The check -/

/-- One lookup after the other, each for the address that the word in the page before it holds. -/
inductive Follows (s : Vm) : ℕ → List Lookup → Prop
  | done (start : ℕ) : Follows s start []
  | page {start cell pa next : ℕ} {ls : List Lookup} (hused : usedVa s start = true)
    (hfetch : fetchPteFrom s start = some cell) (hcell : cell ≠ 0)
    (hpa : s.loadWord cell = some pa) (hnext : s.loadWord pa = some next)
    (rest : Follows s next ls) : Follows s start (⟨start, cell⟩ :: ls)

theorem Follows.head (h : Follows s start ls) : ∀ l ∈ ls.head?, l.va = start := by
  cases h with
  | done => intro l hl; cases hl
  | page _ _ _ _ _ _ =>
    intro l hl
    cases hl
    rfl

/-- An accepted check has looked up as many pages as it was asked to. -/
theorem Coherent.validPages (C : Coherent s t)
    (h : validPagesLinkedTogetherFrom n start t = some (true, t')) :
    Coherent s t' ∧ ((recorded.validPagesLinkedTogetherFrom n start).log t).length = n ∧
      Follows s start ((recorded.validPagesLinkedTogetherFrom n start).log t) := by
  induction n generalizing start t with
  | zero =>
    cases h
    exact ⟨C, rfl, .done start⟩
  | succ n ih =>
    rw [validPagesLinkedTogetherFrom] at h
    split at h
    · cases h
    next hne =>
    split at h
    · cases h
    next hused =>
    have hused : usedVa t start = true := by simpa using hused
    obtain ⟨⟨pte, t₁⟩, htr, h⟩ := Option.bind_eq_some_iff.mp h
    dsimp only at h
    split at h
    · cases h
    next hpte =>
    obtain ⟨pa, hpa, h⟩ := Option.bind_eq_some_iff.mp h
    split at h
    · cases h
    next hpa0 =>
    obtain ⟨next, hnext, h⟩ := Option.bind_eq_some_iff.mp h
    obtain ⟨C₁, hfetch⟩ := C.translate htr
    obtain ⟨hused_s, hfetch⟩ := hfetch hpte
    obtain ⟨C', hlen, hfollows⟩ := ih C₁ h
    have hlog : (recorded.validPagesLinkedTogetherFrom (n + 1) start).log t =
        ⟨start, pte⟩ :: (recorded.validPagesLinkedTogetherFrom n next).log t₁ := by
      rw [Tracer.validPagesLinkedTogetherFrom, if_neg hne]
      simp [log_bind, hused, htr, Tracer.log_recorded htr, hpte, hpa, hpa0, hnext]
    rw [hlog]
    rw [C₁.same.loadWord_eq] at hpa hnext
    exact ⟨C', by rw [List.length_cons, hlen], .page hused_s hfetch hpte hpa hnext hfollows⟩

/-- A check that does not turn the range down meets no `NULL` cell. -/
theorem validPages_cell_ne (h : ∀ t', validPagesLinkedTogetherFrom n start t ≠ some (false, t')) :
    ∀ l ∈ (recorded.validPagesLinkedTogetherFrom n start).log t, l.cell ≠ 0 := by
  induction n generalizing start t with
  | zero =>
    intro l hl
    cases hl
  | succ n ih =>
    by_cases hne : start = 0
    · exact absurd (by rw [validPagesLinkedTogetherFrom, if_pos hne]) (h t)
    have hused : usedVa t start = true := by
      by_contra hunused
      exact h t (by simp [validPagesLinkedTogetherFrom, hne, hunused])
    cases htr : Memory.translate t start with
    | none => simp [Tracer.validPagesLinkedTogetherFrom, hne, hused, htr, recorded, log_bind]
    | some r =>
      obtain ⟨pte, t₁⟩ := r
      by_cases hpte : pte = 0
      · exact absurd (by simp [validPagesLinkedTogetherFrom, hne, hused, htr, hpte]) (h t₁)
      intro l hl
      rw [Tracer.validPagesLinkedTogetherFrom, if_neg hne] at hl
      simp [hused, htr, Tracer.log_recorded htr, hpte, Option.bind_eq_some_iff] at hl
      rcases hl with rfl | ⟨pa, hpa, hl⟩
      · exact hpte
      by_cases hpa0 : pa = 0
      · refine absurd ?_ (h t₁)
        simp [validPagesLinkedTogetherFrom, hne, hused, htr, hpte, hpa, hpa0]
      simp [hpa0] at hl
      obtain ⟨next, hnext, hl⟩ := hl
      refine ih (fun t' hfalse => h t' ?_) l hl
      simp [validPagesLinkedTogetherFrom, hne, hused, htr, hpte, hpa, hpa0, hnext, hfalse]

/-! ## The copy -/

/-- A link to the start of a page, with its offset bits filled in. -/
theorem link_or {next j : ℕ} (h : next % 4096 = 0) (hj : j < 4096) :
    pageOf (next ||| j) = pageOf next ∧ (next ||| j) % 4096 = j := by
  obtain ⟨p, rfl⟩ := Nat.dvd_of_mod_eq_zero h
  have hor : 4096 * p ||| j = 4096 * p + j := (Nat.two_pow_add_eq_or_of_lt (i := 12) hj p).symm
  rw [hor, pageOf_eq, pageOf_eq]
  omega

/-- The copy of a range that fits into the pages looked up, with every link the start of a page,
looks up these pages only. -/
theorem Follows.getValueAux (h : Follows s va ls) (C : Coherent s t)
    (haligned : ∀ l ∈ ls.tail, l.va % 4096 = 0) (hpage : pageOf start = pageOf va)
    (hfit : 0 < n → start % 4096 + n ≤ 4092 * ls.length) {fuel : ℕ} :
    ∀ l ∈ (recorded.getValueAux fuel start n).log t,
      l.cell ≠ 0 ∧ pageOf l.va ∈ ls.map fun l => pageOf l.va := by
  induction fuel generalizing va start n t ls with
  | zero =>
    intro l hl
    cases hl
  | succ fuel ih =>
    intro l hl
    rw [Tracer.getValueAux] at hl
    by_cases h0 : n = 0
    · rw [if_pos h0] at hl
      cases hl
    rw [if_neg h0] at hl
    have hfit := hfit (Nat.pos_of_ne_zero h0)
    cases h with
    | done => simp at hfit; omega
    | @page _ cell pa next ls hused hfetch hcell hpa hnext hrest =>
      obtain ⟨t₁, htr, C₁⟩ := C.lookup (usedVa_congr hpage ▸ hused)
        (fetchPteFrom_congr hpage ▸ hfetch) hcell
      have hload := C₁.same.loadWord_eq
      have hlog := Tracer.log_recorded htr
      rw [mem_log_bind, hlog, List.mem_singleton, Tracer.run_translate, htr] at hl
      rcases hl with rfl | ⟨p, hp, hl⟩
      · exact ⟨hcell, by simp [hpage]⟩
      cases hp
      -- the word in the page is the link the check has followed
      obtain ⟨pa', hpa', hl, -⟩ := log_reads_bind hl
      obtain rfl : pa' = pa := by simpa [hload, hpa] using hpa'.symm
      obtain ⟨next', hnext', hl, -⟩ := log_reads_bind hl
      obtain rfl : next' = next := by simpa [hload, hnext] using hnext'.symm
      have hstart : ∀ x ∈ ls, x.va % 4096 = 0 := haligned
      have hmore {start' n' : ℕ} (hpage' : pageOf start' = pageOf next')
          (hfit' : 0 < n' → start' % 4096 + n' ≤ 4092 * ls.length)
          (hl : l ∈ (recorded.getValueAux fuel start' n').log t₁) :
          l.cell ≠ 0 ∧ pageOf l.va ∈ (⟨va, cell⟩ :: ls).map fun l => pageOf l.va := by
        obtain ⟨hne, hmem⟩ := ih hrest C₁ (fun x hx => hstart x (List.mem_of_mem_tail hx)) hpage'
          hfit' l hl
        exact ⟨hne, List.mem_cons_of_mem _ hmem⟩
      have hnext_mod : ls ≠ [] → next' % 4096 = 0 := by
        intro hls
        obtain ⟨x, xs, rfl⟩ := List.exists_cons_of_ne_nil hls
        rw [← hrest.head x rfl]
        exact hstart x List.mem_cons_self
      rw [List.length_cons] at hfit
      have hpayload : PAYLOAD_BYTES = 4092 := rfl
      simp only [byteOffset_extractFrom, hpayload] at hl
      by_cases hskip : start % 4096 > 4092
      · rw [if_pos hskip] at hl
        have hls : ls ≠ [] := by
          rintro rfl
          rw [List.length_nil] at hfit
          omega
        obtain ⟨hor, hmod⟩ := link_or (hnext_mod hls) (j := start % 4096 - 4092) (by omega)
        exact hmore hor (fun _ => by omega) hl
      · rw [if_neg hskip] at hl
        by_cases hlast : n ≤ 4092 - start % 4096
        · rw [if_pos hlast] at hl
          cases hl
        · rw [if_neg hlast] at hl
          obtain ⟨bytes, -, hl, -⟩ := log_reads_bind hl
          have hls : ls ≠ [] := by
            rintro rfl
            rw [List.length_nil] at hfit
            omega
          have hmod := hnext_mod hls
          rcases log_bind_cases hl with hl | ⟨rest, s', -, hl, -⟩
          · exact hmore rfl (fun _ => by omega) hl
          · cases hl

end UserLevelOs.Memory
