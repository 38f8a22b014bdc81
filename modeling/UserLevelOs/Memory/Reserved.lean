import UserLevelOs.Memory.Frees

/-!
# The pages and frames set aside

`init_page_tables` marks page 0 used, so that `t_malloc` never returns `NULL` for a page,
and takes the first frames for the directory and the page tables.  The chain check reads
the same bitmap, and the cell of page 0 is the directory's own entry 0: an address of
page 0 is accepted, and what it leads to is the directory.

## Main definitions

* `Reserved`, `InReserved` — the bits and the bytes set aside.
* `KeepsReserved` — what a call must leave alone.

## Main statements

* `CallRun.keepsReserved` — calls that spare page 0 keep all of it.
* `ClientInv.putValue_pageZero` — a write into page 0 is a write into the directory.
-/

namespace UserLevelOs.Memory

open UserLevelOs.Lib

/-- Page 0 and the frames of the directory and the page tables are marked used. -/
structure Reserved (s : Vm) : Prop where
  page : bitSetAt s.virtualBitmap 0 = true
  frame : ∀ f ≤ 2 ^ pagingScheme.pageDir.toNat, bitSetAt s.frameBitmap f = true

/-- `x` is an address of one of these frames. -/
def InReserved (s : Vm) (x : ℕ) : Prop :=
  s.vmStart.addr ≤ x ∧ x < s.vmStart.addr + PGSIZE * (1 + 2 ^ pagingScheme.pageDir.toNat)

/-- The call leaves the reserved memory alone: the bits stay set, `t_free` clears no byte of
the reserved frames other than the page-table cells of the pages it gives back, `put_value`
writes none, and `t_malloc` answers `NULL` only when it changed nothing. -/
structure KeepsReserved (s : Vm) (c : Call) (r : Ret) (s' : Vm) : Prop where
  reserved : Reserved s'
  free : ∀ va size, c = .tFree va size → ∀ x, InReserved s x →
    s'.memory x = s.memory x ∨
      ∃ p cell, Live s p ∧ ¬ Live s' p ∧ Walks s p cell ∧ cell ≤ x ∧ x < cell + WORD_BYTES
  put : ∀ va val size, c = .putValue va val size → ∀ x, InReserved s x →
    s'.memory x = s.memory x
  malloc : ∀ n, c = .tMalloc n → r = .ptr 0 → s' = s

/-- Calls with any address and any size that is not negative. -/
def Call.Any (_ : Vm) : Call → Prop
  | .tMalloc _ => True
  | .tFree _ size => IsInt size ∧ 0 ≤ size
  | .putValue _ _ size => IsInt size ∧ 0 ≤ size
  | .getValue _ size => IsInt size ∧ 0 ≤ size

theorem TableInv.reserved {s : Vm} {live : Finset ℕ} (H : TableInv s live) : Reserved s where
  page := (H.used_iff 0 (by omega)).mpr (Or.inl rfl)
  frame := by
    intro f hf
    have hf' : f ≤ 256 := hf
    exact (H.frame_used f (by omega)).mpr (Or.inl (by omega))

/-- The frames of live pages lie behind the reserved ones. -/
theorem TableInv.reserved_lt {s : Vm} {live : Finset ℕ} (H : TableInv s live) {x p : ℕ}
    (hx : InReserved s x) (hp : p ∈ live) : x < s.frameAddr p := by
  have h₁ : x < s.vmStart.addr + 4096 * (1 + 256) := hx.2
  have h₂ := H.frameAddr_eq p hp
  have h₃ := H.frame_reserved p hp
  omega

theorem ClientInv.keeps_page0 {s s' : Vm} {live : Finset ℕ} (C : ClientInv s live) {c : Call}
    {r : Ret} (hc : c.Spares s) (hexec : c.exec s = some (r, s')) : KeepsReserved s c r s' := by
  have H := C.page.toTableInv
  have hreserved : Reserved s' := by
    obtain ⟨live', C'⟩ := C.exec hc hexec
    exact C'.page.toTableInv.reserved
  cases c with
  | tMalloc n =>
    refine ⟨hreserved, by simp, by simp, fun m _ hnull => ?_⟩
    rw [Call.Spares, C.livePages_eq] at hc
    rcases C.tMalloc hc with h | ⟨ps, s₁, h, hpos, -⟩
    · rw [Call.exec, h, Option.map_some, Option.some.injEq, Prod.mk.injEq] at hexec
      exact hexec.2.symm
    · rw [Call.exec, h, Option.map_some, Option.some.injEq, Prod.mk.injEq, hnull] at hexec
      have hzero : headVa ps = 0 := Ret.ptr.inj hexec.1
      omega
  | tFree va size =>
    refine ⟨hreserved, fun _ _ _ x hx => ?_, by simp, by simp⟩
    obtain ⟨s₁, h, heffect⟩ := C.tFree hc.2
    rw [Call.exec, h, Option.map_some, Option.some.injEq, Prod.mk.injEq] at hexec
    rw [← hexec.2]
    rcases heffect with ⟨hsame, -⟩ | ⟨-, ps, -, -, hlive, C', -, -, hwiped⟩
    · exact Or.inl (congrFun hsame.memory_eq x)
    · by_cases hcell : ∃ p ∈ ps, s.cell p ≤ x ∧ x < s.cell p + 4
      · obtain ⟨p, hp, h₁, h₂⟩ := hcell
        refine Or.inr ⟨p, s.cell p, H.live_iff.mpr (hlive p hp), ?_,
          (H.walks_iff (hlive p hp)).mpr rfl, h₁, h₂⟩
        rw [C'.page.live_iff, Finset.mem_sdiff, List.mem_toFinset]
        exact fun hmem => hmem.2 hp
      · push Not at hcell
        refine Or.inl (hwiped.kept x fun p hp hin => ?_)
        rcases hin with ⟨h₁, h₂⟩ | ⟨h₁, -⟩
        · have := hcell p hp h₁
          omega
        · have := H.reserved_lt hx (hlive p hp)
          omega
  | putValue va val size =>
    refine ⟨hreserved, by simp, fun _ _ _ _ x hx => ?_, by simp⟩
    obtain ⟨⟨code, s₁⟩, h, heq⟩ := Option.map_eq_some_iff.mp hexec
    obtain ⟨-, rfl⟩ := Prod.mk.inj heq
    obtain ⟨-, -, -, ps, hlive, hout⟩ := C.putValue hc.2.1 hc.1.2 hc.2.2 h
    exact hout x fun p hp => Or.inl (H.reserved_lt hx (hlive p hp))
  | getValue va size => exact ⟨hreserved, by simp, by simp, by simp⟩

/-- In every run whose calls stay within the first page table and spare page 0, the
reserved page and frames stay marked used, and no call touches them. -/
theorem CallRun.keepsReserved {v : VmStart} {s : Vm} (hrun : CallRun Call.Spares v s) :
    Reserved s ∧ ∀ c r s', c.Spares s → c.exec s = some (r, s') → KeepsReserved s c r s' := by
  obtain ⟨live, C⟩ := hrun.clientInv
  exact ⟨C.page.toTableInv.reserved, fun c r s' hc hexec => C.keeps_page0 hc hexec⟩

/-- `CallRun.keepsReserved` for a write of three bytes after an allocation of one. -/
theorem CallRun.keepsReserved_written : ∃ (v : VmStart) (s₀ s : Vm) (va : ℕ),
    setPhysicalMem v = some s₀ ∧ tMalloc s₀ 1 = some (va, s) ∧ Reserved s ∧
    ∀ code s', putValue s 4096 [1, 2, 3] 3 = some (code, s') →
      KeepsReserved s (.putValue 4096 [1, 2, 3] 3) (.status code) s' := by
  let v : VmStart := ⟨4096, by decide, by decide⟩
  obtain ⟨s₀, s, va, hinit, hexec, hplain⟩ :=
    CallRun.malloc_first v (n := 1) (by decide) (by decide)
  obtain ⟨hreserved, hkeeps⟩ := CallRun.keepsReserved (hplain.mono fun _ _ => Call.Plain.spares)
  have hpage : pageOf 4096 = 1 := by decide
  refine ⟨v, s₀, s, va, hinit, hexec, hreserved, fun code s' hput => hkeeps _ _ _ ?_ ?_⟩
  · exact ⟨by rw [IsInt]; omega, by omega, fun h => by omega⟩
  · rw [Call.exec, hput, Option.map_some]

/-! ## Writing into page 0 -/

/-- The chain check accepts one page from any address of page 0 but `NULL`. -/
theorem ClientInv.accepts_pageZero {s : Vm} {live : Finset ℕ} (C : ClientInv s live) {v : ℕ}
    (hva : v ≠ 0) (hpage : pageOf v = 0) : usedVa s v = true ∧ s.accepts 1 v = true := by
  have hused : usedVa s v = true := by
    rw [usedVa, Bool.and_eq_true, isValidVa_iff, hpage]
    exact ⟨by omega, C.page.toTableInv.reserved.page⟩
  refine ⟨hused, ?_⟩
  simp [Vm.accepts, hva, hused]

/-- A byte put at address 16 becomes byte 20 of the page directory. -/
theorem ClientInv.putValue_pageZero {s : Vm} {live : Finset ℕ} (C : ClientInv s live) (b : UInt8) :
    ∃ s', Memory.putValue s 16 [b] 1 = some (0, s') ∧ s'.memory (s.ptbr + 20) = b := by
  have hpage : pageOf 16 = 0 := by decide
  obtain ⟨hused, hacc⟩ := C.accepts_pageZero (v := 16) (by omega) hpage
  obtain ⟨s₁, hwalk, hsame, H₁, hlock₁⟩ := C.check 1 16
  have hused₁ : usedVa s₁ 16 = true := (hsame.usedVa_eq 16).trans hused
  obtain ⟨s₂, htr, hsame₂, H₂⟩ := H₁.translate_used hused₁
  have hused₂ : usedVa s₂ 16 = true := (hsame₂.usedVa_eq 16).trans hused₁
  have hptbr : s₂.ptbr = s.ptbr := hsame₂.ptbr_eq.trans hsame.ptbr_eq
  have hpte : s₂.loadWord (s₁.cell 0) = some s.ptbr := by
    rw [← hsame₂.cell_eq, H₂.loadWord_cell (by omega), H₂.frameAddr_zero, hptbr]
  have hlink : s₂.loadWord s.ptbr = some (s₂.link 0) := by
    have h := H₂.loadWord_link hused₂
    rwa [hpage, H₂.frameAddr_zero, hptbr] at h
  have hown : s₂.Owns (s.ptbr + 4 + 16) 1 := by
    have h := H₂.ptbr_eq
    rw [hptbr] at h
    simp only [Vm.Owns, MEMSIZE]
    omega
  let s₃ : Vm := { s₂ with memory := s₂.memory.write (s.ptbr + 4 + 16) [b] }
  have hcopy : s₂.copyIn (s.ptbr + 4 + 16) [b] 1 = some s₃ := if_pos ⟨hown, le_rfl⟩
  have haux : ∀ k, putValueAux (k + 1) 16 [b] 1 s₁ = some s₃ := by
    intro k
    rw [putValueAux, if_neg (by omega), htr, hpage]
    simp only [Option.bind_eq_bind, Option.bind_some, hpte, hlink, byteOffset_extractFrom]
    exact hcopy
  obtain ⟨k, hk⟩ : ∃ k, STACK_FRAMES = k + 1 := ⟨2 ^ 32 - 1, by decide⟩
  have hlock₃ : s₃.libraryLock = true := hsame₂.libraryLock_eq.trans hlock₁
  have hsize : pagesRequested (toSizeT (1 + (16 % 4096 : ℕ))) = 1 := by decide
  have hback : toSizeT (toSizeT (1 + (16 % 4096 : ℕ)) - (16 % 4096 : ℕ)) = 1 := by decide
  refine ⟨{ s₃ with libraryLock := false }, ?_, ?_⟩
  · rw [Memory.putValue, Vm.lock_eq C.unlocked, Option.bind_eq_bind, Option.bind_some]
    simp only [byteOffset_extractFrom, hsize, hback, Option.bind_eq_bind, hwalk, hacc, hk, haux,
      Option.bind_some, Bool.not_true, Bool.false_eq_true, if_false, Vm.unlock_eq hlock₃]
  · have haddr : s.ptbr + 20 = s.ptbr + 4 + 16 := by omega
    change s₂.memory.write (s.ptbr + 4 + 16) [b] (s.ptbr + 20) = b
    rw [haddr, Bytes.write_apply_of_mem le_rfl (by simp), Nat.sub_self]
    rfl

/-- A byte put at address 16 after initialisation lands in the directory. -/
theorem keepsReserved_fails : ¬ ∀ v s, CallRun Call.Any v s → Reserved s ∧
    ∀ c r s', c.Any s → c.exec s = some (r, s') → KeepsReserved s c r s' := by
  intro hall
  let v : VmStart := ⟨4096, by decide, by decide⟩
  obtain ⟨s, hinit, H, hlock, hstart, -, hentries⟩ := setPhysicalMem_spec v
  have C : ClientInv s ∅ := ⟨H, hlock, fun _ => 0, by simp [LinksUp]⟩
  obtain ⟨s', hput, hbyte⟩ := C.putValue_pageZero 1
  have hany : Call.Any s (.putValue 16 [1] 1) := ⟨by rw [IsInt]; omega, by omega⟩
  have hkeeps := (hall v s (.start hinit)).2 _ _ _ hany
    (by rw [Call.exec, hput, Option.map_some])
  have hptbr : s.ptbr = s.vmStart.addr := H.ptbr_eq
  have hv : s.vmStart.addr = 4096 := by rw [hstart]
  have hin : InReserved s (s.ptbr + 20) := by
    have hsize : PGSIZE * (1 + 2 ^ pagingScheme.pageDir.toNat) = 1052672 := by decide
    rw [InReserved, hsize, hptbr]
    omega
  have hsame := hkeeps.put _ _ _ rfl _ hin
  -- entry 5 holds 4096, whose low byte is 0
  have hentry := hentries 5 (by omega)
  rw [Bytes.loadLE, Bytes.read, ofLE, ← hsame, hbyte, hptbr, hv] at hentry
  have hone : (1 : UInt8).toNat = 1 := rfl
  omega

end UserLevelOs.Memory
