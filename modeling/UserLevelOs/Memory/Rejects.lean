import UserLevelOs.Memory.Accepted

/-!
# Ranges turned down

`get_value` and `put_value` check the chain they are about to walk.  `put_value` returns when the
check fails; `get_value` releases the lock, reads on, and releases the lock again.

## Main definitions

* `Rejects` — the check turns the range down.
* `ReadQuiet`, `WriteQuiet` — a range turned down is left alone.
* `InChain` — a lookup that the check has made.
* `LinksAligned` — the check follows links to the start of a page.

## Main statements

* `CallRun.readQuiet_iff`.
* `CallRun.readQuiet_fails`.
-/

namespace UserLevelOs.Memory

open UserLevelOs.Lib Logged
open Tracer (recorded)

/-- The pages the check walks: the range counts from the start of its page. -/
def pagesChecked (va : ℕ) (size : ℤ) : ℕ :=
  pagesRequested (toSizeT (size + (extractFrom pagingScheme va).byteOffset))

/-- The chain check, made under the lock, turns the range down. -/
def Rejects (s : Vm) (va : ℕ) (size : ℤ) : Prop :=
  ∃ s₁ s₂, s.lock = some s₁ ∧
    validPagesLinkedTogetherFrom (pagesChecked va size) va s₁ = some (false, s₂)

/-- A read of a range that is turned down returns with nothing copied, no lookup made but those
of the check, and the lock released once. -/
def ReadQuiet (s : Vm) (va : ℕ) (size : ℤ) : Prop :=
  ∀ s₁ s₂, s.lock = some s₁ →
    validPagesLinkedTogetherFrom (pagesChecked va size) va s₁ = some (false, s₂) →
    ∃ s', s₂.unlock = some s' ∧ getValue s va size = some ([], s') ∧
      (recorded.getValue va size).log s =
        (recorded.validPagesLinkedTogetherFrom (pagesChecked va size) va).log s₁

/-- The same of a write. -/
def WriteQuiet (s : Vm) (va : ℕ) (val : List UInt8) (size : ℤ) : Prop :=
  ∀ s₁ s₂, s.lock = some s₁ →
    validPagesLinkedTogetherFrom (pagesChecked va size) va s₁ = some (false, s₂) →
    ∃ s', s₂.unlock = some s' ∧ putValue s va val size = some (-1, s') ∧
      (recorded.putValue va val size).log s =
        (recorded.validPagesLinkedTogetherFrom (pagesChecked va size) va).log s₁

/-- The lookup answers a cell, and its page is one the check of the range has passed. -/
def InChain (s : Vm) (va : ℕ) (size : ℤ) (l : Lookup) : Prop :=
  l.cell ≠ 0 ∧ ∃ s₁, s.lock = some s₁ ∧
    ∃ l' ∈ (recorded.validPagesLinkedTogetherFrom (pagesChecked va size) va).log s₁,
      pageOf l'.va = pageOf l.va

/-- Behind the first page, the check of the range has looked up the start of each page. -/
def LinksAligned (s : Vm) (va : ℕ) (size : ℤ) : Prop :=
  ∀ s₁, s.lock = some s₁ →
    ∀ l ∈ ((recorded.validPagesLinkedTogetherFrom (pagesChecked va size) va).log s₁).tail,
      l.va % 4096 = 0

variable {s s' s₁ s₂ : Vm} {va start n : ℕ} {size : ℤ} {v : VmStart} {live : Finset ℕ} {ps : List ℕ}

/-! ## The lock -/

theorem validPages_lock {b : Bool} (h : validPagesLinkedTogetherFrom n start s = some (b, s')) :
    s'.libraryLock = s.libraryLock := by
  induction n generalizing start s with
  | zero =>
    cases h
    rfl
  | succ n ih =>
    rw [validPagesLinkedTogetherFrom] at h
    split at h
    · cases h
      rfl
    · split at h
      · cases h
        rfl
      · obtain ⟨⟨pte, s₁⟩, htr, h⟩ := Option.bind_eq_some_iff.mp h
        have hlock := translate_lock htr
        dsimp only at h
        split at h
        · cases h
          exact hlock
        · obtain ⟨pa, -, h⟩ := Option.bind_eq_some_iff.mp h
          split at h
          · cases h
            exact hlock
          · obtain ⟨next, -, h⟩ := Option.bind_eq_some_iff.mp h
            exact (ih h).trans hlock

theorem Vm.unlock_free (h : s.unlock = some s') : s'.libraryLock = false := by
  rw [Vm.unlock] at h
  split at h
  · cases h
    rfl
  · cases h

/-- A call that returns leaves the lock free. -/
theorem Call.exec_unlocked {c : Call} {r : Ret} (hfree : s.libraryLock = false)
    (h : c.exec s = some (r, s')) : s'.libraryLock = false := by
  cases c with
  | tMalloc n =>
    obtain ⟨⟨va, t⟩, h, heq⟩ := Option.map_eq_some_iff.mp h
    cases heq
    obtain ⟨s₁, -, h⟩ := Option.bind_eq_some_iff.mp h
    split at h
    · obtain ⟨s₂, hunlock, h⟩ := Option.bind_eq_some_iff.mp h
      cases h
      exact Vm.unlock_free hunlock
    · obtain ⟨virtualOk, -, h⟩ := Option.bind_eq_some_iff.mp h
      obtain ⟨frameOk, -, h⟩ := Option.bind_eq_some_iff.mp h
      split at h
      · obtain ⟨s₂, hunlock, h⟩ := Option.bind_eq_some_iff.mp h
        cases h
        exact Vm.unlock_free hunlock
      · obtain ⟨mapped, -, h⟩ := Option.bind_eq_some_iff.mp h
        obtain ⟨s₃, -, h⟩ := Option.bind_eq_some_iff.mp h
        obtain ⟨s₄, hunlock, h⟩ := Option.bind_eq_some_iff.mp h
        cases h
        exact Vm.unlock_free hunlock
  | tFree va size =>
    obtain ⟨t, h, heq⟩ := Option.map_eq_some_iff.mp h
    cases heq
    rw [Memory.tFree] at h
    split at h
    · cases h
      exact hfree
    · obtain ⟨s₁, -, h⟩ := Option.bind_eq_some_iff.mp h
      obtain ⟨⟨valid, s₂⟩, -, h⟩ := Option.bind_eq_some_iff.mp h
      dsimp only at h
      split at h
      · obtain ⟨s₃, -, h⟩ := Option.bind_eq_some_iff.mp h
        exact Vm.unlock_free h
      · exact Vm.unlock_free h
  | putValue va val size =>
    obtain ⟨⟨code, t⟩, h, heq⟩ := Option.map_eq_some_iff.mp h
    cases heq
    obtain ⟨s₁, -, h⟩ := Option.bind_eq_some_iff.mp h
    obtain ⟨⟨valid, s₂⟩, -, h⟩ := Option.bind_eq_some_iff.mp h
    dsimp only at h
    split at h
    · obtain ⟨s₃, hunlock, h⟩ := Option.bind_eq_some_iff.mp h
      cases h
      exact Vm.unlock_free hunlock
    · obtain ⟨s₃, -, h⟩ := Option.bind_eq_some_iff.mp h
      obtain ⟨s₄, hunlock, h⟩ := Option.bind_eq_some_iff.mp h
      cases h
      exact Vm.unlock_free hunlock
  | getValue va size =>
    obtain ⟨⟨bytes, t⟩, h, heq⟩ := Option.map_eq_some_iff.mp h
    cases heq
    obtain ⟨s₁, -, h⟩ := Option.bind_eq_some_iff.mp h
    obtain ⟨⟨valid, s₂⟩, -, h⟩ := Option.bind_eq_some_iff.mp h
    have hcopy : ∀ n t, ((getValueAux STACK_FRAMES va n t).bind fun r =>
        r.2.unlock.bind fun s => some (r.1, s)) = some (bytes, s') → s'.libraryLock = false := by
      intro n t h
      obtain ⟨r, -, h⟩ := Option.bind_eq_some_iff.mp h
      obtain ⟨s₃, hunlock, h⟩ := Option.bind_eq_some_iff.mp h
      cases h
      exact Vm.unlock_free hunlock
    dsimp only at h
    split at h
    · obtain ⟨s₃, -, h⟩ := Option.bind_eq_some_iff.mp h
      exact hcopy _ _ h
    · exact hcopy _ _ h

theorem CallRun.unlocked {ok : Vm → Call → Prop} (hrun : CallRun ok v s) :
    s.libraryLock = false := by
  induction hrun with
  | start hinit =>
    obtain ⟨s', hinit', -, hlock, -⟩ := setPhysicalMem_spec v
    obtain rfl := Option.some.inj (hinit.symm.trans hinit')
    exact hlock
  | call _ _ hexec ih => exact Call.exec_unlocked ih hexec

/-! ## Ranges turned down -/

/-- The copy of a read that was turned down runs without the lock and then releases it. -/
theorem Rejects.getValue_eq (hfree : s.libraryLock = false) (h : Rejects s va size) :
    getValue s va size = none := by
  obtain ⟨s₁, s₂, hlock, hwalk⟩ := h
  rw [Vm.lock_eq hfree] at hlock
  cases hlock
  rw [pagesChecked, byteOffset_extractFrom] at hwalk
  exact getValue_of_invalid hfree hwalk (validPages_lock hwalk)

theorem readQuiet_of_unlocked (hfree : s.libraryLock = false) :
    ReadQuiet s va size ↔ ¬ Rejects s va size := by
  constructor
  · intro hquiet hrej
    have hnone := hrej.getValue_eq hfree
    obtain ⟨s₁, s₂, hlock, hwalk⟩ := hrej
    obtain ⟨s', -, hread, -⟩ := hquiet s₁ s₂ hlock hwalk
    rw [hnone] at hread
    cases hread
  · intro hacc s₁ s₂ hlock hwalk
    exact absurd ⟨s₁, s₂, hlock, hwalk⟩ hacc

theorem writeQuiet (hfree : s.libraryLock = false) (va : ℕ) (val : List UInt8) (size : ℤ) :
    WriteQuiet s va val size := by
  intro s₁ s₂ hlock hwalk
  have hlocked : s₂.libraryLock = true := by
    rw [Vm.lock_eq hfree] at hlock
    cases hlock
    exact validPages_lock hwalk
  have hunlock := Vm.unlock_eq hlocked
  rw [pagesChecked] at hwalk
  refine ⟨_, hunlock, ?_, ?_⟩
  · simp only [putValue, hlock, hwalk, hunlock, Option.bind_eq_bind, Option.bind_some,
      Bool.not_false, if_true]
  · have hrun := (recorded.run_validPages _ _ _).trans hwalk
    simp only [Tracer.putValue, log_bind, run_update, hlock, hrun, hunlock, pagesChecked,
      Option.bind_some, Option.elim_some, Bool.not_false, if_true, log_update, log_pure,
      List.nil_append, List.append_nil]

/-! ## Ranges accepted -/

/-- What a lookup of the page `start` is in leads to, and its record. -/
theorem PageInv.lookup (H : PageInv s live) {p : ℕ} (hp : p ∈ live) (hpage : pageOf start = p) :
    ∃ s₁, (recorded.translate start).run s = some (s.cell p, s₁) ∧
      (recorded.translate start).log s = [⟨start, s.cell p⟩] ∧ SameStore s s₁ ∧ PageInv s₁ live ∧
      s₁.loadWord (s.cell p) = some (s.frameAddr p) ∧
      s₁.loadWord (s.frameAddr p) = some (s.link p) := by
  obtain ⟨s₁, htr, hsame, H₁, hpte, hlink⟩ := H.visit hp hpage
  exact ⟨s₁, by rw [Tracer.run_translate, htr], Tracer.log_recorded htr, hsame, H₁, hpte, hlink⟩

/-- The check of an accepted range looks up the pages of its chain. -/
theorem validPages_log (H : PageInv s live) (hlive : ∀ p ∈ ps, p ∈ live) (htrail : Trail s ps)
    (hstart : ∀ p ∈ ps.head?, pageOf start = p) :
    ∃ s', (recorded.validPagesLinkedTogetherFrom ps.length start).run s = some (true, s') ∧
      ((recorded.validPagesLinkedTogetherFrom ps.length start).log s).map (fun l => pageOf l.va) =
        ps ∧
      ∀ l ∈ (recorded.validPagesLinkedTogetherFrom ps.length start).log s, l.cell ≠ 0 := by
  induction ps generalizing s start with
  | nil => exact ⟨s, rfl, rfl, by simp [Tracer.validPagesLinkedTogetherFrom]⟩
  | cons p ps ih =>
    have hp := hlive p List.mem_cons_self
    have hpage := hstart p rfl
    have hused : usedVa s start = true := H.usedVa_eq (hpage ▸ hp)
    have hne : start ≠ 0 := by
      rintro rfl
      have hpos := H.live_pos p hp
      rw [pageOf_eq] at hpage
      omega
    obtain ⟨s₁, hrun, hlog, hsame, H₁, hpte, hlink⟩ := H.lookup hp hpage
    obtain ⟨s', hrest, hpages, hcells⟩ :=
      ih H₁ (fun q hq => hlive q (List.mem_cons_of_mem _ hq))
        (htrail.2.congr fun q _ => hsame.link_eq q) htrail.next
    have hcell : s.cell p ≠ 0 := (H.cell_pos p).ne'
    have hframe : s.frameAddr p ≠ 0 := (H.frameAddr_pos hp).ne'
    rw [List.length_cons, Tracer.validPagesLinkedTogetherFrom, if_neg hne]
    simp only [run_bind, run_reads, log_bind, log_reads, run_ite, log_ite, hused, Bool.not_true,
      Bool.false_eq_true, if_false, Option.bind_some, Option.elim_some, List.nil_append, hrun, hlog,
      hcell, hpte, hframe, hlink, hrest]
    refine ⟨s', rfl, ?_, ?_⟩
    · simp [hpage, hpages]
    · intro l hl
      rcases List.mem_append.mp hl with hl | hl
      · rw [List.mem_singleton] at hl
        rw [hl]
        exact hcell
      · exact hcells l hl

/-- The copy of an accepted range returns, having looked up pages of the chain only. -/
theorem getValueAux_returns (H : PageInv s live) (hlive : ∀ p ∈ ps, p ∈ live)
    (htrail : Trail s ps) (hstart : ∀ p ∈ ps.head?, pageOf start = p) {fuel : ℕ}
    (hfit : 0 < n → start % 4096 + n ≤ 4092 * ps.length) (hfuel : ps.length < fuel) :
    Returns (fun l => l.cell ≠ 0 ∧ pageOf l.va ∈ ps) (recorded.getValueAux fuel start n) s := by
  induction ps generalizing s start n fuel with
  | nil =>
    obtain ⟨fuel, rfl⟩ := Nat.exists_eq_succ_of_ne_zero hfuel.ne'
    have h0 : n = 0 := by
      by_contra hne
      have := hfit (by omega)
      rw [List.length_nil] at this
      omega
    rw [Tracer.getValueAux, if_pos h0]
    exact .pure _ _
  | cons p ps ih =>
    obtain ⟨fuel, rfl⟩ := Nat.exists_eq_succ_of_ne_zero (Nat.zero_lt_of_lt hfuel).ne'
    rw [Tracer.getValueAux]
    by_cases h0 : n = 0
    · rw [if_pos h0]
      exact .pure _ _
    rw [if_neg h0]
    have hp := hlive p List.mem_cons_self
    have hpage := hstart p rfl
    obtain ⟨s₁, hrun, hlog, hsame, H₁, hpte, hlink⟩ := H.lookup hp hpage
    have hcell : s.cell p ≠ 0 := (H.cell_pos p).ne'
    have hhead : ∀ l ∈ (recorded.translate start).log s, l.cell ≠ 0 ∧ pageOf l.va ∈ p :: ps := by
      intro l hl
      rw [hlog, List.mem_singleton] at hl
      rw [hl]
      exact ⟨hcell, by simp [hpage]⟩
    have hnext {start' n' : ℕ} (hstart' : ∀ q ∈ ps.head?, pageOf start' = q)
        (hfit' : 0 < n' → start' % 4096 + n' ≤ 4092 * ps.length) :
        Returns (fun l => l.cell ≠ 0 ∧ pageOf l.va ∈ p :: ps)
          (recorded.getValueAux fuel start' n') s₁ := by
      have hrest := ih H₁ (fun q hq => hlive q (List.mem_cons_of_mem _ hq))
        (htrail.2.congr fun q _ => hsame.link_eq q) hstart' hfit'
        (show ps.length < fuel by rw [List.length_cons] at hfuel; omega)
      exact hrest.imp fun l hl => ⟨hl.1, List.mem_cons_of_mem _ hl.2⟩
    rw [List.length_cons] at hfit
    have hfit := hfit (by omega)
    refine Returns.bind hrun hhead (.reads_bind hpte (.reads_bind hlink ?_))
    have hpayload : PAYLOAD_BYTES = 4092 := rfl
    simp only [byteOffset_extractFrom, hpayload]
    by_cases hskip : start % 4096 > 4092
    · rw [if_pos hskip]
      have hne : ps ≠ [] := by
        rintro rfl
        rw [List.length_nil] at hfit
        omega
      obtain ⟨hpoint, hmod⟩ := skip_spec hne hskip
      rw [htrail.1 hne]
      exact hnext hpoint.head fun _ => by omega
    · rw [if_neg hskip]
      have hread {k : ℕ} (hk : start % 4096 + k ≤ 4092) :
          ∃ bytes, s₁.copyOut (s.frameAddr p + WORD_BYTES + start % 4096) k = some bytes := by
        have hcopy := copyOut_spec H₁ hp hk
        rw [hsame.frameAddr_eq' p] at hcopy
        exact ⟨_, hcopy⟩
      by_cases hlast : n ≤ 4092 - start % 4096
      · rw [if_pos hlast]
        obtain ⟨bytes, hcopy⟩ := hread (k := n) (by omega)
        exact .reads hcopy
      · rw [if_neg hlast]
        obtain ⟨bytes, hcopy⟩ := hread (k := 4092 - start % 4096) (by omega)
        have hne : ps ≠ [] := by
          rintro rfl
          rw [List.length_nil] at hfit
          omega
        refine .reads_bind hcopy ?_
        have hfit' : 0 < n - (4092 - start % 4096) →
            s.link p % 4096 + (n - (4092 - start % 4096)) ≤ 4092 * ps.length := by
          intro _
          rw [htrail.1 hne, headVa_mod]
          omega
        obtain ⟨⟨rest, s', hrest⟩, hlogs⟩ := hnext htrail.next hfit'
        exact .bind hrest hlogs (.pure _ _)

/-- The pages checked have room for the range, and its size comes back out of the arithmetic. -/
theorem pagesChecked_fits (va : ℕ) (hsize : IsInt size) (hpos : 0 ≤ size) :
    toSizeT ((toSizeT (size + (va % 4096 : ℕ)) : ℕ) - (va % 4096 : ℕ)) = size.toNat ∧
      va % 4096 + size.toNat ≤ 4092 * pagesChecked va size := by
  have hsizes : toSizeT (size + (va % 4096 : ℕ)) = size.toNat + va % 4096 ∧
      toSizeT ((toSizeT (size + (va % 4096 : ℕ)) : ℕ) - (va % 4096 : ℕ)) = size.toNat := by
    rw [IsInt] at hsize
    simp only [toSizeT]
    omega
  refine ⟨hsizes.2, ?_⟩
  rw [← pagesRequested_le_iff, pagesChecked, byteOffset_extractFrom, hsizes.1, Nat.add_comm]

/-- Where the cache agrees with the table, the copy of a range that is not turned down looks up
pages that the check has passed. -/
theorem Coherent.inChain (C : Coherent s s) (hfree : s.libraryLock = false) (hsize : IsInt size)
    (hpos : 0 ≤ size) (haligned : LinksAligned s va size) (hacc : ¬ Rejects s va size) :
    ∀ l ∈ (recorded.getValue va size).log s, InChain s va size l := by
  have hlock := Vm.lock_eq hfree
  let s₁ : Vm := { s with libraryLock := true }
  have C₁ : Coherent s₁ s₁ := ⟨.refl s₁, C.cache.size_eq, C.cache.size_le, C.cache.holds⟩
  obtain ⟨hcopied, hfit⟩ := pagesChecked_fits va hsize hpos
  have hcells : ∀ l ∈ (recorded.validPagesLinkedTogetherFrom (pagesChecked va size) va).log s₁,
      l.cell ≠ 0 :=
    validPages_cell_ne fun s₂ h => hacc ⟨s₁, s₂, hlock, h⟩
  intro l hl
  rw [Tracer.getValue, mem_log_bind, log_update, run_update, hlock] at hl
  rcases hl with hl | ⟨p, hp, hl⟩
  · cases hl
  cases hp
  rcases log_bind_cases hl with hl | ⟨valid, s₂, hrun, hl, -⟩
  · exact ⟨hcells l hl, s₁, hlock, l, hl, rfl⟩
  rw [Tracer.run_validPages] at hrun
  cases valid with
  | false => exact absurd ⟨s₁, s₂, hlock, hrun⟩ hacc
  | true =>
    obtain ⟨C₂, hlen, hfollows⟩ := C₁.validPages hrun
    simp only [Bool.not_true, Bool.false_eq_true, if_false] at hl
    rcases log_bind_cases hl with hl | ⟨bytes, s₃, -, hl, -⟩
    · simp only [byteOffset_extractFrom, hcopied] at hl
      obtain ⟨hne, hmem⟩ := hfollows.getValueAux C₂ (haligned s₁ hlock) rfl
        (fun _ => by rw [hlen]; exact hfit) l hl
      obtain ⟨l', hl', hpage⟩ := List.mem_map.mp hmem
      exact ⟨hne, s₁, hlock, l', hl', hpage⟩
    · rcases log_bind_cases hl with hl | ⟨_, s₄, -, hl, -⟩
      · cases hl
      · cases hl

/-- A read whose range is accepted returns, and looks up pages of the accepted chain only. -/
theorem ClientInv.getValue_returns (C : ClientInv s live) (hva : AvoidsPageZero va)
    (hsize : IsInt size) (hpos : 0 ≤ size) (hacc : ¬ Rejects s va size) :
    Returns (InChain s va size) (recorded.getValue va size) s := by
  have hlock := Vm.lock_eq C.unlocked
  let s₁ : Vm := { s with libraryLock := true }
  have H₁ : PageInv s₁ live := C.page.setLock true
  obtain ⟨s₂, hwalk, hsame, H₂, hlock₂⟩ := C.check (pagesChecked va size) va
  have haccepts : s.accepts (pagesChecked va size) va = true := by
    by_contra hfalse
    rw [Bool.not_eq_true] at hfalse
    exact hacc ⟨s₁, s₂, hlock, by rw [hwalk, hfalse]⟩
  rw [haccepts] at hwalk
  have hstart : va ≠ 0 → pageOf va ≠ 0 := by
    intro hne
    rcases hva with h | h <;> omega
  obtain ⟨ps, hlen, hnodup, hlive, htrail, hhead⟩ := C.accepted haccepts hstart
  have htrail₁ : Trail s₁ ps := htrail.congr fun _ _ => rfl
  have htrail₂ : Trail s₂ ps := htrail.congr fun p _ => hsame.link_eq p
  obtain ⟨s₂', hcheck, hpages, hcells⟩ := validPages_log H₁ hlive htrail₁ hhead
  rw [hlen] at hcheck hpages hcells
  have hrun := hcheck
  rw [Tracer.run_validPages, hwalk] at hrun
  cases hrun
  -- the lookups of the check and of the copy are for pages of the chain
  have hin : ∀ l : Lookup, l.cell ≠ 0 → pageOf l.va ∈ ps → InChain s va size l := by
    intro l hcell hmem
    rw [← hpages] at hmem
    obtain ⟨l', hl', hpage⟩ := List.mem_map.mp hmem
    exact ⟨hcell, s₁, hlock, l', hl', hpage⟩
  have hchecked : ∀ l ∈ (recorded.validPagesLinkedTogetherFrom (pagesChecked va size) va).log s₁,
      InChain s va size l := by
    intro l hl
    refine hin l (hcells l hl) ?_
    rw [← hpages]
    exact List.mem_map_of_mem hl
  obtain ⟨hcopied, hfit⟩ := pagesChecked_fits va hsize hpos
  rw [← hlen] at hfit
  have hfuel : ps.length < STACK_FRAMES := by
    have := C.length_le hnodup hlive
    simp only [STACK_FRAMES]
    omega
  obtain ⟨⟨bytes, s₃, hread⟩, hlogs⟩ :=
    getValueAux_returns H₂ hlive htrail₂ hhead (fun _ => hfit) hfuel
  have hunlock : s₃.unlock = some { s₃ with libraryLock := false } := by
    apply Vm.unlock_eq
    rw [Tracer.run_getValueAux] at hread
    exact (getValueAux_lock hread).trans hlock₂
  rw [Tracer.getValue]
  refine .update_bind hlock (.bind hcheck hchecked ?_)
  simp only [byteOffset_extractFrom, hcopied, Bool.not_true, Bool.false_eq_true, if_false]
  refine .bind hread (fun l hl => ?_) (.update_bind hunlock (.pure _ _))
  exact hin l (hlogs l hl).1 (hlogs l hl).2

/-! ## Reads and writes of a run -/

/-- After every run, a read whose range the check turns down is never quiet, and a write always
is.  A read whose range is not turned down meets no `NULL` cell and no page the check has not
passed, if every lookup answers as the walk of the table does and the check follows links to the
start of a page; in a run of plain calls it also returns, unless it starts within page 0. -/
theorem CallRun.readQuiet_iff {v : VmStart} {s : Vm} {va : ℕ} {size : ℤ}
    (hrun : CallRun (fun _ _ => True) v s) (hsize : IsInt size) (hpos : 0 ≤ size) :
    (ReadQuiet s va size ↔ ¬ Rejects s va size) ∧ (∀ val, WriteQuiet s va val size) ∧
      (Transparent s → LinksAligned s va size → ¬ Rejects s va size →
        ∀ l ∈ (recorded.getValue va size).log s, InChain s va size l) ∧
      (CallRun Call.Plain v s → AvoidsPageZero va → ¬ Rejects s va size →
        Returns (InChain s va size) (recorded.getValue va size) s) := by
  refine ⟨readQuiet_of_unlocked hrun.unlocked, fun val => writeQuiet hrun.unlocked va val size,
    fun htrans haligned hacc => ?_, fun hplain hva hacc => ?_⟩
  · obtain ⟨log, hrecord⟩ := RecordedRun.exists_of_run hrun
    have C := Coherent.of_transparent htrans hrecord.holds
    exact C.inChain hrun.unlocked hsize hpos haligned hacc
  · obtain ⟨live, C⟩ := (hplain.mono fun _ _ => Call.Plain.spares).clientInv
    exact C.getValue_returns hva hsize hpos hacc

/-- `CallRun.readQuiet_iff` after an allocation of two pages. -/
theorem CallRun.readQuiet_iff_first : ∃ (v : VmStart) (s₀ s : Vm) (va : ℕ),
    setPhysicalMem v = some s₀ ∧ tMalloc s₀ 5000 = some (va, s) ∧
    (ReadQuiet s 4096 10 ↔ ¬ Rejects s 4096 10) ∧
    (¬ Rejects s 4096 10 → Returns (InChain s 4096 10) (recorded.getValue 4096 10) s) := by
  let v : VmStart := ⟨4096, by decide, by decide⟩
  obtain ⟨s₀, s, va, hinit, hexec, hplain⟩ :=
    CallRun.malloc_first v (n := 5000) (by decide) (by decide)
  have hsize : IsInt 10 := by rw [IsInt]; omega
  have hva : AvoidsPageZero 4096 := Or.inr (by decide)
  obtain ⟨hread, -, -, hreturns⟩ :=
    @CallRun.readQuiet_iff v s 4096 10 (hplain.mono fun _ _ _ => trivial) hsize (by omega)
  exact ⟨v, s₀, s, va, hinit, hexec, hread, hreturns hplain hva⟩

/-- A read at page 1 before anything is allocated. -/
theorem CallRun.readQuiet_fails : ¬ ∀ v s, CallRun (fun _ _ => True) v s →
    ∀ va size, IsInt size → 0 ≤ size → ReadQuiet s va size := by
  intro hclaim
  let v : VmStart := ⟨4096, by decide, by decide⟩
  obtain ⟨s, hinit, H, hfree, -⟩ := setPhysicalMem_spec v
  let s₁ : Vm := { s with libraryLock := true }
  have hrej : Rejects s 4096 1 := by
    refine ⟨s₁, s₁, Vm.lock_eq hfree, ?_⟩
    have hpages : pagesChecked 4096 1 = 0 + 1 := by decide
    have hpage : pageOf 4096 = 1 := by decide
    have hunused : usedVa s₁ 4096 = false := by
      rw [Bool.eq_false_iff, Ne, usedVa, Bool.and_eq_true, not_and]
      intro _
      rw [hpage, show bitSetAt s₁.virtualBitmap 1 = bitSetAt s.virtualBitmap 1 from rfl,
        H.used_iff 1 (by omega)]
      simp
    simp [hpages, validPagesLinkedTogetherFrom, hunused]
  have hquiet := hclaim v s (.start hinit) 4096 1 (by rw [IsInt]; omega) (by omega)
  exact (readQuiet_of_unlocked hfree).mp hquiet hrej

end UserLevelOs.Memory
