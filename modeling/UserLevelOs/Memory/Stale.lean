import UserLevelOs.Memory.LeastRecent

/-!
# Entries for pages given back

`t_free_aux` takes the entry of a page out of the cache and then translates the page, which puts
the entry back; only after that is the page given back.  So the cache keeps an entry for it.
Everything else the library does leaves entries for pages in use only.

## Main definitions

* `EntriesLive` — the entries of the cache are for pages in use.
* `Call.FreesNothing`.

## Main statements

* `tFreeAux_stale` — a free that gives back a page leaves an entry for one.
* `CallRun.entriesLive`.
* `CallRun.entriesLive_fails`.
-/

namespace UserLevelOs.Memory

open UserLevelOs.Lib Logged

def EntriesLive (s : Vm) : Prop :=
  ∀ e ∈ s.tlbCache.entries, bitSetAt s.virtualBitmap (pageOf e.virtualAddress) = true

/-- No free of a size other than 0 names a chain of pages in use. -/
def Call.FreesNothing (s : Vm) : Call → Prop
  | .tFree va size => toSizeT size = 0 ∨ ∀ s₁ s₂, s.lock = some s₁ →
      validPagesLinkedTogetherFrom (pagesRequested (toSizeT size)) va s₁ ≠ some (true, s₂)
  | _ => True

variable {s s' : Vm} {va cell start next n : ℕ}

/-! ## Lookups -/

/-- A lookup leaves the entries as they are, or puts one for its page in front of them. -/
theorem translate_entries (h : translate s va = some (cell, s')) :
    cell = 0 ∧ s'.tlbCache.entries ⊆ s.tlbCache.entries ∨
      usedVa s va = true ∧ ∃ e es, s'.tlbCache.entries = e :: es ∧
        pageOf e.virtualAddress = pageOf va ∧ es ⊆ s.tlbCache.entries := by
  cases translate_some h with
  | unused _ => exact .inl ⟨rfl, List.Subset.refl _⟩
  | hit hused hsearch =>
    obtain ⟨hsub, hfound⟩ := searchAndRemove_subset hsearch
    exact .inr ⟨hused, _, _, rfl, (hfound _ rfl).2, hsub⟩
  | miss hused hsearch _ _ hadd =>
    obtain ⟨es, hes, hsub⟩ := addTLB_entries hadd
    exact .inr ⟨hused, _, es, hes, rfl,
      fun x hx => (searchAndRemove_subset hsearch).1 (hsub hx)⟩
  | absent _ hsearch _ => exact .inl ⟨rfl, List.Subset.refl _⟩

namespace EntriesLive

theorem translate (h : EntriesLive s) (htr : Memory.translate s va = some (cell, s')) :
    EntriesLive s' := by
  have hbitmap : s'.virtualBitmap = s.virtualBitmap := by
    obtain ⟨cache, misses, lookups, rfl⟩ := translate_cache htr
    rfl
  intro e he
  rw [hbitmap]
  rcases translate_entries htr with ⟨-, hsub⟩ | ⟨hused, e', es, hes, hpage, hsub⟩
  · exact h e (hsub he)
  · rw [hes] at he
    rcases List.mem_cons.mp he with rfl | he
    · rw [usedVa, Bool.and_eq_true] at hused
      rw [hpage]
      exact hused.2
    · exact h e (hsub he)

theorem same (h : EntriesLive s) (hsame : SameCache s s') : EntriesLive s' := by
  intro e he
  rw [hsame.tlbCache_eq] at he
  exact hsame.used _ (h e he)

theorem lasting :
    Lasting Tracer.recorded (fun _ => True) (fun _ => True) fun s _ => EntriesLive s where
  translate := by
    intro va s log h _
    refine ⟨fun _ _ => trivial, fun cell s' hrun => ?_⟩
    rw [Tracer.run_translate] at hrun
    exact h.translate hrun
  same := fun _ _ _ h hsame => h.same hsame

/-- A call that gives nothing back. -/
theorem exec {c : Call} {r : Ret} (h : EntriesLive s) (hc : c.FreesNothing s)
    (hexec : c.exec s = some (r, s')) : EntriesLive s' := by
  cases c with
  | tMalloc n =>
    obtain ⟨⟨va, s₁⟩, hcall, heq⟩ := Option.map_eq_some_iff.mp hexec
    cases heq
    exact (lasting.tMalloc n s [] h fun _ _ => trivial).2 va s' (by rw [Tracer.run_tMalloc, hcall])
  | tFree va size =>
    obtain ⟨s₁, hcall, heq⟩ := Option.map_eq_some_iff.mp hexec
    cases heq
    rw [tFree] at hcall
    split at hcall
    · cases hcall
      exact h
    · obtain ⟨s₁, hlock, hcall⟩ := Option.bind_eq_some_iff.mp hcall
      obtain ⟨⟨valid, s₂⟩, hwalk, hcall⟩ := Option.bind_eq_some_iff.mp hcall
      have h₂ : EntriesLive s₂ :=
        (lasting.stable.validPages _ va s₁ [] (h.same (.lock hlock)) fun _ _ => trivial).2 valid s₂
          (by rw [Tracer.run_validPages, hwalk])
      cases valid with
      | false => exact h₂.same (.unlock hcall)
      | true =>
        rcases hc with hsize | hrejects
        · rw [hsize] at hcall
          exact h₂.same (.unlock hcall)
        · exact absurd hwalk (hrejects s₁ s₂ hlock)
  | putValue va val size =>
    obtain ⟨⟨code, s₁⟩, hcall, heq⟩ := Option.map_eq_some_iff.mp hexec
    cases heq
    exact (lasting.stable.putValue va val size s [] h fun _ _ => trivial).2 code s'
      (by rw [Tracer.run_putValue, hcall])
  | getValue va size =>
    obtain ⟨⟨bytes, s₁⟩, hcall, heq⟩ := Option.map_eq_some_iff.mp hexec
    cases heq
    exact (lasting.stable.getValue va size s [] h fun _ _ => trivial).2 bytes s'
      (by rw [Tracer.run_getValue, hcall])

end EntriesLive

/-! ## Frees -/

/-- The page given back has just been translated. -/
theorem freePage_stale (h : freePage start s = some (next, s')) : ¬ EntriesLive s' := by
  simp only [freePage, Option.bind_eq_bind, Option.bind_eq_some_iff, Option.some.injEq,
    Prod.mk.injEq] at h
  obtain ⟨⟨found, cache⟩, -, ⟨pte, s₁⟩, htr, pa, hload, s₂, hcell, link, -, virtualBitmap, hunset,
    frameBitmap, -, s₃, hframe, -, rfl⟩ := h
  have hne : pte ≠ 0 := by
    rintro rfl
    rw [LeastRecent.loadWord_null] at hload
    cases hload
  rcases translate_entries htr with ⟨h0, -⟩ | ⟨-, e, es, hes, hpage, -⟩
  · exact absurd h0 hne
  · intro hlive
    have hcache : s₃.tlbCache = s₁.tlbCache :=
      (SameCache.clear hframe).tlbCache_eq.trans (SameCache.clear hcell).tlbCache_eq
    have hbit := hlive e (by rw [hcache, hes]; exact List.mem_cons_self)
    have hbitmap : s₃.virtualBitmap = virtualBitmap := by
      rw [Vm.clear] at hframe
      split at hframe
      · cases hframe
        rfl
      · cases hframe
    rw [unsetBitAt] at hunset
    split at hunset
    · cases hunset
      rw [hbitmap, hpage] at hbit
      simp at hbit
    · cases hunset

/-- The page given back last leaves an entry. -/
theorem tFreeAux_stale (hn : 0 < n) (hstart : start ≠ 0) (h : tFreeAux n start s = some s') :
    ¬ EntriesLive s' := by
  induction n generalizing start s with
  | zero => exact absurd hn (Nat.lt_irrefl 0)
  | succ n ih =>
    rw [tFreeAux_succ n hstart] at h
    obtain ⟨⟨next, s₁⟩, hpage, hrest⟩ := Option.bind_eq_some_iff.mp h
    by_cases hlast : n = 0 ∨ next = 0
    · have hdone : s₁ = s' := by
        cases n with
        | zero => exact Option.some.inj hrest
        | succ n =>
          have h0 : next = 0 := hlast.resolve_left (Nat.succ_ne_zero n)
          rw [tFreeAux, if_pos h0] at hrest
          exact Option.some.inj hrest
      exact hdone ▸ freePage_stale hpage
    · rw [not_or] at hlast
      exact ih (Nat.pos_of_ne_zero hlast.1) hlast.2 hrest

/-- A chain check that asks for a page accepts no chain from `NULL`. -/
theorem start_ne_zero_of_valid (hn : 0 < n)
    (h : validPagesLinkedTogetherFrom n start s = some (true, s')) : start ≠ 0 := by
  rintro rfl
  obtain ⟨k, rfl⟩ := Nat.exists_eq_succ_of_ne_zero hn.ne'
  rw [validPagesLinkedTogetherFrom, if_pos rfl] at h
  cases h

/-- A free whose chain check accepts leaves an entry for a page it has given back. -/
theorem tFree_stale {s₁ s₂ : Vm} {size : ℤ} (hsize : toSizeT size ≠ 0) (hlock : s.lock = some s₁)
    (hwalk : validPagesLinkedTogetherFrom (pagesRequested (toSizeT size)) va s₁ = some (true, s₂))
    (h : tFree s va size = some s') : ¬ EntriesLive s' := by
  have hpos := pagesRequested_pos hsize
  have hne : size ≠ 0 := by
    rintro rfl
    exact hsize rfl
  rw [tFree, if_neg hne, hlock, Option.bind_eq_bind, Option.bind_some] at h
  change (validPagesLinkedTogetherFrom _ va s₁).bind _ = _ at h
  rw [hwalk, Option.bind_some] at h
  obtain ⟨s₃, hfree, hunlock⟩ := Option.bind_eq_some_iff.mp h
  have hstale := tFreeAux_stale hpos (start_ne_zero_of_valid hpos hwalk) hfree
  change s₃.unlock = some s' at hunlock
  have hsame := SameCache.unlock hunlock
  have hbitmap : s'.virtualBitmap = s₃.virtualBitmap := by
    rw [Vm.unlock] at hunlock
    split at hunlock
    · cases hunlock
      rfl
    · cases hunlock
  intro hlive
  refine hstale fun e he => ?_
  rw [← hbitmap]
  exact hlive e (by rwa [hsame.tlbCache_eq])

/-- As long as no page is given back, the entries of the cache are for pages in use; every call
that gives one back leaves an entry for a page that is not. -/
theorem CallRun.entriesLive {v : VmStart} :
    (∀ s, CallRun Call.FreesNothing v s → EntriesLive s) ∧
    ∀ s c r s', CallRun (fun _ _ => True) v s → ¬ Call.FreesNothing s c →
      c.exec s = some (r, s') → ¬ EntriesLive s' := by
  refine ⟨fun s hrun => ?_, fun s c r s' _ hc hexec => ?_⟩
  · induction hrun with
    | start hinit =>
      obtain ⟨s', hinit', -, -, -, hcache, -⟩ := setPhysicalMem_spec v
      obtain rfl := Option.some.inj (hinit.symm.trans hinit')
      rw [EntriesLive, hcache]
      simp
    | call _ hc hexec ih => exact ih.exec hc hexec
  · cases c with
    | tFree va size =>
      obtain ⟨s₁, hcall, heq⟩ := Option.map_eq_some_iff.mp hexec
      cases heq
      rw [Call.FreesNothing] at hc
      push Not at hc
      obtain ⟨hsize, s₁, s₂, hlock, hwalk⟩ := hc
      exact tFree_stale hsize hlock hwalk hcall
    | tMalloc n => exact absurd trivial hc
    | putValue va val size => exact absurd trivial hc
    | getValue va size => exact absurd trivial hc

/-- `CallRun.entriesLive` after an allocation of two pages. -/
theorem CallRun.entriesLive_first : ∃ (v : VmStart) (s₀ s : Vm) (va : ℕ),
    setPhysicalMem v = some s₀ ∧ tMalloc s₀ 5000 = some (va, s) ∧ EntriesLive s := by
  let v : VmStart := ⟨4096, by decide, by decide⟩
  obtain ⟨s₀, hinit, H, hlock, -⟩ := setPhysicalMem_spec v
  obtain ⟨ps, s, hexec, -⟩ := tMalloc_granted H hlock (n := 5000) (by decide) (by decide)
  have hcall : (Call.tMalloc 5000).exec s₀ = some (.ptr (headVa ps), s) := by
    rw [Call.exec, hexec, Option.map_some]
  have hok : Call.FreesNothing s₀ (.tMalloc 5000) := trivial
  have hrun : CallRun Call.FreesNothing v s := (CallRun.start hinit).call hok hcall
  exact ⟨v, s₀, s, _, hinit, hexec, CallRun.entriesLive.1 s hrun⟩

/-- A page is allocated and given back. -/
theorem exists_given_back (v : VmStart) : ∃ s va s₁ s₂ s', CallRun (fun _ _ => True) v s ∧
    s.lock = some s₁ ∧
    validPagesLinkedTogetherFrom (pagesRequested (toSizeT 1)) va s₁ = some (true, s₂) ∧
    tFree s va 1 = some s' := by
  obtain ⟨s₀, hinit, H, hlock, -⟩ := setPhysicalMem_spec v
  obtain ⟨ps, s, hexec, hlen, -, hnew, H', hlock', hlinked, -, -⟩ :=
    tMalloc_granted H hlock (n := 1) (by decide) (by decide)
  have hone : ps.length = 1 := hlen.trans (by decide)
  obtain ⟨p, rfl⟩ := List.length_eq_one_iff.mp hone
  have hpos : 0 < p := (hnew p List.mem_cons_self).1
  have hlive : p ∈ ∅ ∪ [p].toFinset := by simp
  have hpage : pageOf (4096 * p) = p := by rw [pageOf_eq]; omega
  have C : ClientInv s (∅ ∪ [p].toFinset) := by
    refine ⟨H', hlock', fun _ => 0, fun q hq => .inl ?_⟩
    obtain rfl : q = p := by simpa using hq
    exact hlinked.1
  have hacc : s.accepts (pagesRequested (toSizeT 1)) (4096 * p) = true := by
    have hsize : pagesRequested (toSizeT 1) = 0 + 1 := by decide
    have hused : usedVa s (4096 * p) = true := H'.usedVa_eq (by rwa [hpage])
    have hne : 4096 * p ≠ 0 := by omega
    rw [hsize]
    simp [Vm.accepts, hused, hpos.ne']
  obtain ⟨s₂, hwalk, -⟩ := C.check (pagesRequested (toSizeT 1)) (4096 * p)
  have hfreed : ∃ s', tFree s (4096 * p) 1 = some s' := by
    have hspare : pageOf (4096 * p) = 0 →
        (1 : ℤ) = 0 ∨ s.accepts (pagesRequested (toSizeT 1)) (4096 * p) = false := by
      intro h
      omega
    obtain ⟨s', hfree, -⟩ := C.tFree hspare
    exact ⟨s', hfree⟩
  obtain ⟨s', hfree⟩ := hfreed
  rw [hacc] at hwalk
  have hcall : (Call.tMalloc 1).exec s₀ = some (.ptr (headVa [p]), s) := by
    rw [Call.exec, hexec, Option.map_some]
  exact ⟨s, 4096 * p, _, s₂, s', (CallRun.start hinit).call trivial hcall, Vm.lock_eq hlock',
    hwalk, hfree⟩

theorem CallRun.entriesLive_fails : ¬ ∀ v s, CallRun (fun _ _ => True) v s → EntriesLive s := by
  intro hclaim
  let v : VmStart := ⟨4096, by decide, by decide⟩
  obtain ⟨s, va, s₁, s₂, s', hrun, hlock, hwalk, hfree⟩ := exists_given_back v
  have hexec : (Call.tFree va 1).exec s = some (.unit, s') := by rw [Call.exec, hfree]; rfl
  exact tFree_stale (by decide) hlock hwalk hfree (hclaim v s' (hrun.call trivial hexec))

end UserLevelOs.Memory
