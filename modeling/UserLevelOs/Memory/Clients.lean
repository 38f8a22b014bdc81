import UserLevelOs.Memory.Simulation

/-!
# Clients that free what they like

A client may free a prefix of a chain, a page in its middle, or a page twice.  Links may
then dangle, and a page they lead to may be handed out again; still no chain of live pages
returns to a page it has passed.  Pages are ranked by the time they were handed out and
their place in that request, and a link that leads to a live page leads upwards.

## Main definitions

* `CallRun` — runs of the library whose calls meet a condition.
* `Vm.accepts` — the chain check as a predicate of the state.
* `LinksUp`, `ClientInv` — the invariant of the runs of such clients.
* `Call.Spares` — the calls that keep it.

## Main statements

* `LinksUp.nodup` — chains of live pages do not revisit a page.
* `ClientInv.tMalloc`, `ClientInv.tFree`, `ClientInv.putValue`, `ClientInv.getValue` — what
  the calls do, and that they keep the invariant.
* `CallRun.clientInv` — every run of calls that spare page 0 keeps it.
-/

namespace UserLevelOs.Memory

open UserLevelOs.Lib

/-! ## Runs -/

/-- The library from `set_physical_mem` on, with calls that meet the condition `ok`. -/
inductive CallRun (ok : Vm → Call → Prop) (v : VmStart) : Vm → Prop
  | start {s : Vm} (h : setPhysicalMem v = some s) : CallRun ok v s
  | call {s s' : Vm} {c : Call} {r : Ret} (hrun : CallRun ok v s) (hc : ok s c)
      (hexec : c.exec s = some (r, s')) : CallRun ok v s'

theorem CallRun.mono {ok ok' : Vm → Call → Prop} {v : VmStart} {s : Vm} (h : CallRun ok v s)
    (himp : ∀ s c, ok s c → ok' s c) : CallRun ok' v s := by
  induction h with
  | start hinit => exact .start hinit
  | call _ hc hexec ih => exact ih.call (himp _ _ hc) hexec

/-- The pages handed out. -/
def livePages (s : Vm) : Finset ℕ :=
  (Finset.range 262144).filter fun p => 0 < p ∧ bitSetAt s.virtualBitmap p = true

theorem TableInv.livePages_eq {s : Vm} {live : Finset ℕ} (H : TableInv s live) :
    livePages s = live := by
  ext p
  rw [livePages, Finset.mem_filter, Finset.mem_range]
  constructor
  · rintro ⟨hlt, hpos, hbit⟩
    exact ((H.used_iff p hlt).mp hbit).resolve_left hpos.ne'
  · intro hp
    have hlt : p < 262144 := by have := H.live_lt p hp; omega
    exact ⟨hlt, H.live_pos p hp, (H.used_iff p hlt).mpr (Or.inr hp)⟩

/-! ## The chain check -/

/-- What the chain check answers: `n` pages in use are linked together from `start` on. -/
def Vm.accepts (s : Vm) : ℕ → ℕ → Bool
  | 0, _ => true
  | n + 1, start => start != 0 && usedVa s start && s.accepts n (s.link (pageOf start))

theorem SameStore.accepts_eq {s s' : Vm} (h : SameStore s s') (n start : ℕ) :
    s'.accepts n start = s.accepts n start := by
  induction n generalizing start with
  | zero => rfl
  | succ n ih => rw [Vm.accepts, Vm.accepts, h.usedVa_eq, h.link_eq, ih]

namespace PageInv

variable {s : Vm} {live : Finset ℕ} {va : ℕ} (H : PageInv s live)
include H

/-- Pages in use are page 0 and the live ones. -/
theorem page_of_used (hva : usedVa s va = true) : pageOf va = 0 ∨ pageOf va ∈ live := by
  rw [usedVa, Bool.and_eq_true, isValidVa_iff] at hva
  exact (H.used_iff _ hva.1).mp hva.2

theorem lt_of_used (hva : usedVa s va = true) : pageOf va < 1024 := by
  rcases H.page_of_used hva with h | h
  · omega
  · exact H.live_lt _ h

theorem translate_used (hva : usedVa s va = true) :
    ∃ s', Memory.translate s va = some (s.cell (pageOf va), s') ∧ SameStore s s' ∧
      PageInv s' live := by
  obtain ⟨s', htr, hsame, htlb⟩ := translate_spec H.toDirInv H.toTlbInv hva (H.lt_of_used hva)
  exact ⟨s', htr, hsame, hsame.tableInv H.toTableInv, htlb⟩

/-- The frame of page 0 is the directory. -/
theorem frameAddr_zero : s.frameAddr 0 = s.ptbr := H.dir_zero

theorem frameAddr_ne_zero (hva : usedVa s va = true) : s.frameAddr (pageOf va) ≠ 0 := by
  rcases H.page_of_used hva with h | h
  · rw [h, H.frameAddr_zero, H.ptbr_eq]
    exact s.vmStart.addr_pos.ne'
  · exact (H.frameAddr_pos h).ne'

theorem loadWord_link (hva : usedVa s va = true) :
    s.loadWord (s.frameAddr (pageOf va)) = some (s.link (pageOf va)) := by
  rcases H.page_of_used hva with h | h
  · have hcell : s.cell 0 = s.ptbr := rfl
    rw [h, Vm.link, H.frameAddr_zero, ← hcell, H.loadWord_cell (by omega), Vm.frameAddr]
  · exact H.loadWord_frame h

end PageInv

/-- The check runs, changes only the translation cache, and answers as `Vm.accepts`. -/
theorem validPages_accepts {s : Vm} {live : Finset ℕ} (H : PageInv s live) (n start : ℕ) :
    ∃ s', validPagesLinkedTogetherFrom n start s = some (s.accepts n start, s') ∧
      SameStore s s' ∧ PageInv s' live := by
  induction n generalizing s start with
  | zero => exact ⟨s, rfl, SameStore.refl s, H⟩
  | succ n ih =>
    by_cases h0 : start = 0
    · exact ⟨s, by simp [validPagesLinkedTogetherFrom, Vm.accepts, h0], SameStore.refl s, H⟩
    cases hused : usedVa s start with
    | false =>
      exact ⟨s, by simp [validPagesLinkedTogetherFrom, Vm.accepts, h0, hused],
        SameStore.refl s, H⟩
    | true =>
      obtain ⟨s₁, htr, hsame, H₁⟩ := H.translate_used hused
      have hused₁ : usedVa s₁ start = true := by rw [hsame.usedVa_eq, hused]
      have hpte : s₁.loadWord (s.cell (pageOf start)) = some (s₁.frameAddr (pageOf start)) := by
        rw [← hsame.cell_eq, H₁.loadWord_cell (H.lt_of_used hused)]
      obtain ⟨s', hwalk, hsame', H'⟩ := ih H₁ (s₁.link (pageOf start))
      refine ⟨s', ?_, hsame.trans hsame', H'⟩
      rw [hsame.accepts_eq] at hwalk
      simp only [validPagesLinkedTogetherFrom, h0, if_false, hused, Bool.not_true,
        Bool.false_eq_true, htr, Option.bind_eq_bind, Option.bind_some, (H.cell_pos _).ne', hpte,
        H₁.frameAddr_ne_zero hused₁, H₁.loadWord_link hused₁, hwalk]
      simp [Vm.accepts, h0, hused, hsame.link_eq]

/-! ## Links lead upwards -/

/-- The link of a live page is `NULL` or the address of a page above it in rank, unless
that page is not live. -/
def LinksUp (s : Vm) (live : Finset ℕ) (rank : ℕ → ℕ) : Prop :=
  ∀ p ∈ live, s.link p = 0 ∨
    ∃ q, 0 < q ∧ s.link p = 4096 * q ∧ (q ∈ live → rank p < rank q)

/-- The invariant of a client's run: at most one page table is in use, and links lead
upwards. -/
structure ClientInv (s : Vm) (live : Finset ℕ) : Prop where
  page : PageInv s live
  unlocked : s.libraryLock = false
  links : ∃ rank, LinksUp s live rank

namespace LinksUp

variable {s s' : Vm} {live : Finset ℕ} {rank : ℕ → ℕ}

theorem of_link_eq (h : LinksUp s live rank) (hlink : ∀ p ∈ live, s'.link p = s.link p) :
    LinksUp s' live rank := by
  intro p hp
  rw [hlink p hp]
  exact h p hp

theorem subset (h : LinksUp s live rank) {live' : Finset ℕ} (hsub : live' ⊆ live) :
    LinksUp s live' rank := by
  intro p hp
  refine (h p (hsub hp)).imp_right ?_
  rintro ⟨q, hq, hlink, hup⟩
  exact ⟨q, hq, hlink, fun hmem => hup (hsub hmem)⟩

/-- Following the link of a live page to a live page goes up. -/
theorem rank_lt (h : LinksUp s live rank) (hpos : ∀ p ∈ live, 0 < p) {p q : ℕ} (hp : p ∈ live)
    (hq : q ∈ live) (hlink : pageOf (s.link p) = q) : rank p < rank q := by
  rcases h p hp with h0 | ⟨r, -, hr, hup⟩
  · rw [h0, pageOf_eq] at hlink
    have := hpos q hq
    omega
  · have hqr : q = r := by
      rw [hr, pageOf_eq] at hlink
      omega
    rw [hqr] at hq ⊢
    exact hup hq

/-- A chain of live pages passes no page twice. -/
theorem nodup (h : LinksUp s live rank) (hpos : ∀ p ∈ live, 0 < p) {ps : List ℕ}
    (hlive : ∀ p ∈ ps, p ∈ live) (hchain : ps.IsChain fun p q => pageOf (s.link p) = q) :
    ps.Nodup := by
  have hup : ps.IsChain fun p q => rank p < rank q :=
    hchain.imp_of_mem_imp fun p q hp hq hlink => h.rank_lt hpos (hlive p hp) (hlive q hq) hlink
  rw [← List.isChain_map rank, List.isChain_iff_pairwise, List.pairwise_map] at hup
  exact hup.imp fun hlt heq => hlt.ne (by rw [heq])

end LinksUp

/-- In a linked list of pages, each page links to a later one or to nothing. -/
theorem Linked.later {s : Vm} {ps : List ℕ} (h : Linked s ps) (hnodup : ps.Nodup) {p : ℕ}
    (hp : p ∈ ps) : s.link p = 0 ∨ ∃ q ∈ ps, s.link p = 4096 * q ∧ ps.idxOf p < ps.idxOf q := by
  induction ps with
  | nil => cases hp
  | cons r ps ih =>
    obtain ⟨hnotin, hnodup'⟩ := List.nodup_cons.mp hnodup
    rcases List.mem_cons.mp hp with rfl | hp
    · cases ps with
      | nil => exact Or.inl h.1
      | cons q ps =>
        have hne : p ≠ q := by
          rintro rfl
          exact hnotin List.mem_cons_self
        refine Or.inr ⟨q, by simp, h.1, ?_⟩
        rw [List.idxOf_cons_self, List.idxOf_cons_ne _ hne]
        omega
    · have hpr : r ≠ p := fun heq => hnotin (heq ▸ hp)
      refine (ih h.2 hnodup' hp).imp_right ?_
      rintro ⟨q, hq, hlink, hlt⟩
      have hqr : r ≠ q := fun heq => hnotin (heq ▸ hq)
      refine ⟨q, List.mem_cons_of_mem _ hq, hlink, ?_⟩
      rw [List.idxOf_cons_ne _ hpr, List.idxOf_cons_ne _ hqr]
      omega

/-- Pages handed out now rank above all the others, in the order of their chain. -/
theorem LinksUp.alloc {s s' : Vm} {live : Finset ℕ} {rank : ℕ → ℕ} (h : LinksUp s live rank)
    {ps : List ℕ} (hnodup : ps.Nodup) (hnew : ∀ p ∈ ps, 0 < p ∧ p ∉ live) (hlinked : Linked s' ps)
    (hold : ∀ p ∈ live, s'.link p = s.link p) :
    ∃ rank', LinksUp s' (live ∪ ps.toFinset) rank' := by
  let top := live.sup rank
  let rank' : ℕ → ℕ := fun p => if p ∈ ps then top + 1 + ps.idxOf p else rank p
  have hrank : ∀ p ∈ ps, rank' p = top + 1 + ps.idxOf p := fun p hp => if_pos hp
  have hrankOld : ∀ p ∈ live, rank' p = rank p := fun p hp => if_neg fun hmem => (hnew p hmem).2 hp
  refine ⟨rank', fun p hp => ?_⟩
  rw [Finset.mem_union, List.mem_toFinset] at hp
  rcases hp with hp | hp
  · rw [hold p hp]
    refine (h p hp).imp_right ?_
    rintro ⟨q, hq, hlink, hup⟩
    refine ⟨q, hq, hlink, fun hmem => ?_⟩
    rw [Finset.mem_union, List.mem_toFinset] at hmem
    rw [hrankOld p hp]
    rcases hmem with hmem | hmem
    · rw [hrankOld q hmem]
      exact hup hmem
    · have htop : rank p ≤ top := Finset.le_sup hp
      rw [hrank q hmem]
      omega
  · refine (hlinked.later hnodup hp).imp_right ?_
    rintro ⟨q, hq, hlink, hlt⟩
    refine ⟨q, (hnew q hq).1, hlink, fun _ => ?_⟩
    rw [hrank p hp, hrank q hq]
    omega

theorem Trail.isChain {s : Vm} {ps : List ℕ} (h : Trail s ps) :
    ps.IsChain fun p q => pageOf (s.link p) = q := by
  induction ps with
  | nil => exact .nil
  | cons p ps ih =>
    cases ps with
    | nil => exact .singleton p
    | cons q ps =>
      rw [List.isChain_cons_cons]
      refine ⟨?_, ih h.2⟩
      rw [h.1 (List.cons_ne_nil q ps)]
      exact pointsTo_headVa (q :: ps)

/-- A request the check accepts names the first pages of a chain. -/
theorem LinksUp.accepted {s : Vm} {live : Finset ℕ} {rank : ℕ → ℕ} (h : LinksUp s live rank)
    (H : PageInv s live) {n start : ℕ} (hacc : s.accepts n start = true)
    (hstart : start ≠ 0 → pageOf start ≠ 0) :
    ∃ ps : List ℕ, ps.length = n ∧ (∀ p ∈ ps, p ∈ live) ∧ Trail s ps ∧
      ∀ p ∈ ps.head?, pageOf start = p := by
  induction n generalizing start with
  | zero => exact ⟨[], rfl, by simp, trivial, by simp⟩
  | succ n ih =>
    simp only [Vm.accepts, Bool.and_eq_true, bne_iff_ne] at hacc
    obtain ⟨⟨hne, hused⟩, hrest⟩ := hacc
    have hp : pageOf start ∈ live := (H.page_of_used hused).resolve_left (hstart hne)
    have hlink := h _ hp
    have hnext : s.link (pageOf start) ≠ 0 → pageOf (s.link (pageOf start)) ≠ 0 := by
      intro h0
      obtain ⟨q, hq, heq, -⟩ := hlink.resolve_left h0
      rw [heq, pageOf_eq]
      omega
    obtain ⟨ps, hlen, hlive, htrail, hhead⟩ := ih hrest hnext
    refine ⟨pageOf start :: ps, by rw [List.length_cons, hlen], ?_, ⟨?_, htrail⟩, ?_⟩
    · intro p hmem
      rcases List.mem_cons.mp hmem with rfl | hmem
      · exact hp
      · exact hlive p hmem
    · intro hps
      cases ps with
      | nil => exact absurd rfl hps
      | cons q ps =>
        have hq : pageOf (s.link (pageOf start)) = q := hhead q rfl
        have hqpos := H.live_pos q (hlive q List.mem_cons_self)
        rcases hlink with h0 | ⟨r, -, heq, -⟩
        · rw [h0, pageOf_eq] at hq
          omega
        · rw [heq, pageOf_eq] at hq
          rw [heq, headVa]
          omega
    · rintro p ⟨rfl⟩
      rfl

/-! ## The calls -/

theorem putValueAux_zero {fuel : ℕ} (hfuel : 0 < fuel) (start : ℕ) (val : List UInt8) (s : Vm) :
    putValueAux fuel start val 0 s = some s := by
  obtain ⟨k, rfl⟩ := Nat.exists_eq_succ_of_ne_zero hfuel.ne'
  rw [putValueAux, if_pos rfl]

/-- A write that ends has found all its bytes in the caller's buffer. -/
theorem length_of_putValueAux {fuel start n : ℕ} {val : List UInt8} {s s' : Vm}
    (h : putValueAux fuel start val n s = some s') : n ≤ val.length := by
  induction fuel generalizing start n val s with
  | zero => cases h
  | succ fuel ih =>
    rw [putValueAux] at h
    by_cases h0 : n = 0
    · omega
    rw [if_neg h0] at h
    simp only [Option.bind_eq_bind, Option.bind_eq_some_iff] at h
    obtain ⟨⟨cell, s₁⟩, -, pa, -, next, -, h⟩ := h
    split at h
    · exact ih h
    · split at h
      · by_contra hn
        rw [Vm.copyIn, if_neg fun hown => hn hown.2] at h
        cases h
      · obtain ⟨s₂, hcopy, hrec⟩ := Option.bind_eq_some_iff.mp h
        have hlen := ih hrec
        rw [List.length_drop] at hlen
        by_contra hn
        rw [Vm.copyIn, if_neg fun hown => by omega] at hcopy
        cases hcopy

/-- Reading changes only the translation cache, whatever it reads. -/
theorem getValueAux_keeps {fuel start n : ℕ} {s s' : Vm} {live : Finset ℕ} {bytes : List UInt8}
    (H : PageInv s live) (h : getValueAux fuel start n s = some (bytes, s')) :
    SameStore s s' ∧ PageInv s' live := by
  induction fuel generalizing start n s s' bytes with
  | zero => cases h
  | succ fuel ih =>
    rw [getValueAux] at h
    split at h
    · rw [Option.some.injEq, Prod.mk.injEq] at h
      exact h.2 ▸ ⟨SameStore.refl s, H⟩
    · cases hused : usedVa s start with
      | false =>
        -- the walk answers NULL, which is dereferenced
        have hnull : s.loadWord 0 = none := by
          have := s.vmStart.addr_pos
          exact if_neg fun hown => by simp only [Vm.Owns] at hown; omega
        simp [translate, checkTLB, hused, hnull] at h
      | true =>
        obtain ⟨s₁, htr, hsame, H₁⟩ := H.translate_used hused
        simp only [htr, Option.bind_eq_bind, Option.bind_some, Option.bind_eq_some_iff] at h
        obtain ⟨pa, -, next, -, h⟩ := h
        split at h
        · obtain ⟨hsame', H'⟩ := ih H₁ h
          exact ⟨hsame.trans hsame', H'⟩
        · split at h
          · obtain ⟨out, -, h⟩ := Option.bind_eq_some_iff.mp h
            rw [Option.some.injEq, Prod.mk.injEq] at h
            exact h.2 ▸ ⟨hsame, H₁⟩
          · simp only [Option.bind_eq_some_iff] at h
            obtain ⟨out, -, ⟨rest, s₂⟩, hrec, h⟩ := h
            rw [Option.some.injEq, Prod.mk.injEq] at h
            obtain ⟨hsame', H'⟩ := ih H₁ hrec
            exact h.2 ▸ ⟨hsame.trans hsame', H'⟩

namespace ClientInv

variable {s s' : Vm} {live : Finset ℕ}

theorem livePages_eq (C : ClientInv s live) : livePages s = live := C.page.livePages_eq

/-- A chain of live pages passes no page twice. -/
theorem nodup (C : ClientInv s live) {ps : List ℕ} (hlive : ∀ p ∈ ps, p ∈ live)
    (hchain : ps.IsChain fun p q => pageOf (s.link p) = q) : ps.Nodup := by
  obtain ⟨rank, hlinks⟩ := C.links
  exact hlinks.nodup C.page.live_pos hlive hchain

/-- The pages of an accepted request. -/
theorem accepted (C : ClientInv s live) {n start : ℕ} (hacc : s.accepts n start = true)
    (hstart : start ≠ 0 → pageOf start ≠ 0) :
    ∃ ps : List ℕ, ps.length = n ∧ ps.Nodup ∧ (∀ p ∈ ps, p ∈ live) ∧ Trail s ps ∧
      ∀ p ∈ ps.head?, pageOf start = p := by
  obtain ⟨rank, hlinks⟩ := C.links
  obtain ⟨ps, hlen, hlive, htrail, hhead⟩ := hlinks.accepted C.page hacc hstart
  exact ⟨ps, hlen, C.nodup hlive htrail.isChain, hlive, htrail, hhead⟩

theorem length_le (C : ClientInv s live) {ps : List ℕ} (hnodup : ps.Nodup)
    (hlive : ∀ p ∈ ps, p ∈ live) : ps.length ≤ 1024 := by
  have hsub : ps.toFinset ⊆ Finset.range 1024 := by
    intro p hp
    rw [Finset.mem_range]
    exact C.page.live_lt p (hlive p (List.mem_toFinset.mp hp))
  have hcard := Finset.card_le_card hsub
  rwa [List.toFinset_card_of_nodup hnodup, Finset.card_range] at hcard

theorem of_sameStore (C : ClientInv s live) (h : SameStore s s') (H : PageInv s' live) :
    ClientInv s' live := by
  obtain ⟨rank, hlinks⟩ := C.links
  exact ⟨H, h.libraryLock_eq.trans C.unlocked, rank, hlinks.of_link_eq fun p _ => h.link_eq p⟩

/-- A request fits in the first page table or is refused. -/
theorem tMalloc (C : ClientInv s live) {n : UInt32}
    (hfit : live.card + pagesRequested n.toNat ≤ 1023 ∨
      261887 < live.card + pagesRequested n.toNat) :
    Memory.tMalloc s n = some (0, s) ∨ ∃ (ps : List ℕ) (s' : Vm),
      Memory.tMalloc s n = some (headVa ps, s') ∧ 0 < headVa ps ∧
      ClientInv s' (live ∪ ps.toFinset) := by
  by_cases href : n = 0 ∨ 261887 < live.card + pagesRequested n.toNat
  · exact Or.inl (tMalloc_refused C.page C.unlocked href)
  rw [not_or] at href
  obtain ⟨ps, s', hexec, hlen, hnodup, hnew, H', hlock, hlinked, -, hkept⟩ :=
    tMalloc_granted C.page C.unlocked href.1 (hfit.resolve_right href.2)
  refine Or.inr ⟨ps, s', hexec, ?_, H', hlock, ?_⟩
  · have hpos : 0 < pagesRequested n.toNat :=
      pagesRequested_pos fun h => href.1 (UInt32.toNat_inj.mp h)
    cases ps with
    | nil =>
      rw [List.length_nil] at hlen
      omega
    | cons p ps =>
      have := (hnew p List.mem_cons_self).1
      rw [headVa]
      omega
  · obtain ⟨rank, hlinks⟩ := C.links
    exact hlinks.alloc hnodup hnew hlinked fun p hp => (hkept p hp).link_eq

/-- The chain check under the lock. -/
theorem check (C : ClientInv s live) (n va : ℕ) :
    ∃ s₁, validPagesLinkedTogetherFrom n va { s with libraryLock := true } =
        some (s.accepts n va, s₁) ∧
      SameStore s { s₁ with libraryLock := false } ∧ PageInv s₁ live ∧ s₁.libraryLock = true := by
  obtain ⟨s₁, hwalk, hsame, H₁⟩ := validPages_accepts (C.page.setLock true) n va
  have hacc : ({ s with libraryLock := true } : Vm).accepts n va = s.accepts n va := by
    have hlocked : ∀ n va, ({ s with libraryLock := true } : Vm).accepts n va = s.accepts n va := by
      intro n
      induction n with
      | zero => exact fun _ => rfl
      | succ n ih => exact fun va => congrArg _ (ih _)
    exact hlocked n va
  rw [hacc] at hwalk
  refine ⟨s₁, hwalk, ⟨⟨hsame.vmStart_eq, hsame.ptbr_eq, hsame.virtualBitmap_eq,
    hsame.frameBitmap_eq, C.unlocked.symm, hsame.table_eq⟩, hsame.memory_eq⟩, H₁,
    hsame.libraryLock_eq⟩

/-- `t_free` gives back the pages of an accepted request, and otherwise changes only the
translation cache. -/
theorem tFree (C : ClientInv s live) {va : ℕ} {size : ℤ}
    (hva : pageOf va = 0 → size = 0 ∨ s.accepts (pagesRequested (toSizeT size)) va = false) :
    ∃ s', Memory.tFree s va size = some s' ∧
      (SameStore s s' ∧ ClientInv s' live ∨
        size ≠ 0 ∧ ∃ ps : List ℕ, ps.length = pagesRequested (toSizeT size) ∧ ps.Nodup ∧
          (∀ p ∈ ps, p ∈ live) ∧ ClientInv s' (live \ ps.toFinset) ∧ s'.vmStart = s.vmStart ∧
          (∀ p ∈ live, p ∉ ps → SamePage s s' p) ∧ Wiped s s' ps) := by
  by_cases h0 : size = 0
  · exact ⟨s, by rw [Memory.tFree, if_pos h0], Or.inl ⟨SameStore.refl s, C⟩⟩
  obtain ⟨s₁, hwalk, hsame, H₁, hlock₁⟩ := C.check (pagesRequested (toSizeT size)) va
  have hbody : Memory.tFree s va size =
      (if s.accepts (pagesRequested (toSizeT size)) va then
        tFreeAux (pagesRequested (toSizeT size)) va s₁ else some s₁).bind Vm.unlock := by
    rw [Memory.tFree, if_neg h0, Vm.lock_eq C.unlocked, Option.bind_eq_bind, Option.bind_some]
    simp only [Option.bind_eq_bind, hwalk, Option.bind_some]
    split <;> rfl
  rw [hbody]
  by_cases hacc : s.accepts (pagesRequested (toSizeT size)) va = true
  · have hne : va ≠ 0 → pageOf va ≠ 0 := fun _ hpage => by
      rw [(hva hpage).resolve_left h0] at hacc
      exact Bool.false_ne_true hacc
    obtain ⟨ps, hlen, hnodup, hlive, htrail, hhead⟩ := C.accepted hacc hne
    have htrail₁ : Trail s₁ ps := htrail.congr fun p _ => hsame.link_eq p
    obtain ⟨s₂, hfree, H₂, hlock₂, hstart₂, hkept, hwiped⟩ :=
      tFreeAux_spec H₁ hlive hnodup htrail₁ hhead
    rw [if_pos hacc, ← hlen, hfree, Option.bind_some, Vm.unlock_eq (hlock₂.trans hlock₁)]
    have hsamePage : ∀ p ∈ live, p ∉ ps → SamePage s { s₂ with libraryLock := false } p := by
      intro p hp hnot
      have h := hkept p hp hnot
      exact (hsame.samePage p).trans ⟨h.frameAddr_eq, h.frame_eq⟩
    refine ⟨_, rfl, Or.inr ⟨h0, ps, rfl, hnodup, hlive, ⟨H₂.setLock false, rfl, ?_⟩,
      hstart₂.trans hsame.vmStart_eq, hsamePage,
      hwiped.congr hsame.memory_eq.symm hsame.ptbr_eq.symm rfl⟩⟩
    obtain ⟨rank, hlinks⟩ := C.links
    refine ⟨rank, (hlinks.subset Finset.sdiff_subset).of_link_eq fun p hp => ?_⟩
    obtain ⟨hp, hnot⟩ := Finset.mem_sdiff.mp hp
    exact (hsamePage p hp fun h => hnot (List.mem_toFinset.mpr h)).link_eq
  · rw [if_neg hacc, Option.bind_some, Vm.unlock_eq hlock₁]
    exact ⟨_, rfl, Or.inl ⟨hsame, C.of_sameStore hsame (H₁.setLock false)⟩⟩

/-- Bytes written into a chain of live pages leave the links as they are. -/
theorem overwritten (C : ClientInv s live) {ps : List ℕ} {o : ℕ} {val : List UInt8}
    (h : Overwrites s s' live ps o val) : ClientInv s' live := by
  have hlink : ∀ p ∈ live, s'.link p = s.link p := by
    intro p hp
    by_cases hmem : p ∈ ps
    · exact h.link p hmem
    · exact (h.other p hp hmem).link_eq
  obtain ⟨rank, hup⟩ := C.links
  exact ⟨h.page, h.table.libraryLock_eq.trans C.unlocked, rank, hup.of_link_eq hlink⟩

/-- The copy of an accepted range writes into the chain the check has walked. -/
theorem copied (C : ClientInv s live) {va n : ℕ} {val : List UInt8} {s₁ s₂ : Vm} (hn : 0 < n)
    (hacc : s.accepts (pagesRequested (n + va % 4096)) va = true)
    (hne : va ≠ 0 → pageOf va ≠ 0) (hsame : SameStore s { s₁ with libraryLock := false })
    (H₁ : PageInv s₁ live) (hput : putValueAux STACK_FRAMES va val n s₁ = some s₂) :
    s₂.libraryLock = s₁.libraryLock ∧ ∃ ps : List ℕ, (∀ p ∈ ps, p ∈ live) ∧
      Overwrites s { s₂ with libraryLock := false } live ps (va % 4096) (val.take n) := by
  obtain ⟨ps, hlen, hnodup, hlive, htrail, hhead⟩ := C.accepted hacc hne
  have htrail₁ : Trail s₁ ps := htrail.congr fun p _ => hsame.link_eq p
  have hps : ps ≠ [] := by
    rintro rfl
    have := pagesRequested_pos (n := n + va % 4096) (by omega)
    rw [List.length_nil] at hlen
    omega
  have hstart : PointsTo va ps := by
    cases ps with
    | nil => exact absurd rfl hps
    | cons p ps => exact hhead p rfl
  have hfit : va % 4096 + n ≤ 4092 * ps.length := by
    rw [hlen, Nat.add_comm]
    exact pagesRequested_le_iff.mp le_rfl
  have hfuel : ps.length < STACK_FRAMES := by
    have := C.length_le hnodup hlive
    simp only [STACK_FRAMES]
    omega
  obtain ⟨t, hput', hwrites⟩ :=
    putValueAux_spec H₁ hlive hnodup htrail₁ hstart hn (length_of_putValueAux hput) hfit hfuel
  obtain rfl := Option.some.inj (hput.symm.trans hput')
  exact ⟨hwrites.table.libraryLock_eq, ps, hlive, (hwrites.setLock false).after hsame⟩

/-- `put_value` writes into frames of live pages, and keeps both bitmaps. -/
theorem putValue (C : ClientInv s live) {va : ℕ} {val : List UInt8} {size code : ℤ} (hpos : 0 ≤ size)
    (hlt : size < 2 ^ 31)
    (hva : pageOf va = 0 → size = 0 ∨
      s.accepts (pagesRequested (toSizeT (size + (va % 4096 : ℕ)))) va = false)
    (hexec : Memory.putValue s va val size = some (code, s')) :
    ClientInv s' live ∧ s'.virtualBitmap = s.virtualBitmap ∧ s'.frameBitmap = s.frameBitmap ∧
      ∃ ps : List ℕ, (∀ p ∈ ps, p ∈ live) ∧ OutsideSame s s' ps := by
  obtain ⟨n, rfl⟩ := Int.eq_ofNat_of_zero_le hpos
  obtain ⟨hsize, hback⟩ := toSizeT_offset (n := n) (by omega) va
  obtain ⟨s₁, hwalk, hsame, H₁, hlock₁⟩ := C.check (pagesRequested (n + va % 4096)) va
  rw [hsize] at hva
  rw [Memory.putValue, Vm.lock_eq C.unlocked, Option.bind_eq_bind, Option.bind_some] at hexec
  simp only [byteOffset_extractFrom, hsize, hback, Option.bind_eq_bind, hwalk, Option.bind_some]
    at hexec
  -- the two ways in which nothing is written
  have hquiet : ClientInv { s₁ with libraryLock := false } live ∧
      s₁.virtualBitmap = s.virtualBitmap ∧ s₁.frameBitmap = s.frameBitmap ∧
        ∃ ps : List ℕ, (∀ p ∈ ps, p ∈ live) ∧ OutsideSame s { s₁ with libraryLock := false } ps :=
    ⟨C.of_sameStore hsame (H₁.setLock false), hsame.virtualBitmap_eq, hsame.frameBitmap_eq, [],
      by simp, hsame.outsideSame []⟩
  by_cases hacc : s.accepts (pagesRequested (n + va % 4096)) va = true
  · simp only [hacc, Bool.not_true, Bool.false_eq_true, if_false, Option.bind_eq_some_iff] at hexec
    obtain ⟨s₂, hput, s₃, hunlock, hret⟩ := hexec
    rw [Option.some.injEq, Prod.mk.injEq] at hret
    obtain ⟨-, rfl⟩ := hret
    rcases Nat.eq_zero_or_pos n with rfl | hnpos
    · rw [putValueAux_zero (by decide), Option.some.injEq] at hput
      subst hput
      rw [Vm.unlock_eq hlock₁, Option.some.injEq] at hunlock
      subst hunlock
      exact hquiet
    · have hne : va ≠ 0 → pageOf va ≠ 0 := fun _ hpage => by
        rcases hva hpage with h | h
        · omega
        · rw [h] at hacc
          exact Bool.false_ne_true hacc
      obtain ⟨hlock₂, ps, hlive, hwrites⟩ := C.copied hnpos hacc hne hsame H₁ hput
      rw [Vm.unlock_eq (hlock₂.trans hlock₁), Option.some.injEq] at hunlock
      subst hunlock
      exact ⟨C.overwritten hwrites, hwrites.table.virtualBitmap_eq, hwrites.table.frameBitmap_eq,
        ps, hlive, hwrites.outside⟩
  · simp only [hacc, Bool.not_false, if_true, Vm.unlock_eq hlock₁, Option.bind_some,
      Option.some.injEq, Prod.mk.injEq] at hexec
    obtain ⟨-, rfl⟩ := hexec
    exact hquiet

/-- `get_value` changes only the translation cache. -/
theorem getValue (C : ClientInv s live) {va : ℕ} {size : ℤ} {bytes : List UInt8}
    (hexec : Memory.getValue s va size = some (bytes, s')) :
    SameStore s s' ∧ ClientInv s' live := by
  obtain ⟨s₁, hwalk, hsame, H₁, hlock₁⟩ :=
    C.check (pagesRequested (toSizeT (size + (va % 4096 : ℕ)))) va
  cases hacc : s.accepts (pagesRequested (toSizeT (size + (va % 4096 : ℕ)))) va with
  | false =>
    rw [hacc] at hwalk
    rw [getValue_of_invalid C.unlocked hwalk hlock₁] at hexec
    cases hexec
  | true =>
    rw [Memory.getValue, Vm.lock_eq C.unlocked, Option.bind_eq_bind, Option.bind_some] at hexec
    simp only [byteOffset_extractFrom, Option.bind_eq_bind, hwalk, hacc, Option.bind_some,
      Bool.not_true, Bool.false_eq_true, if_false, Option.bind_eq_some_iff] at hexec
    obtain ⟨⟨out, s₂⟩, hget, s₃, hunlock, hret⟩ := hexec
    rw [Option.some.injEq, Prod.mk.injEq] at hret
    obtain ⟨-, rfl⟩ := hret
    obtain ⟨hsame₂, H₂⟩ := getValueAux_keeps H₁ hget
    rw [Vm.unlock_eq (hsame₂.libraryLock_eq.trans hlock₁), Option.some.injEq] at hunlock
    subst hunlock
    have hunlocked : SameStore { s₁ with libraryLock := false } { s₂ with libraryLock := false } :=
      ⟨⟨hsame₂.vmStart_eq, hsame₂.ptbr_eq, hsame₂.virtualBitmap_eq, hsame₂.frameBitmap_eq, rfl,
        hsame₂.table_eq⟩, hsame₂.memory_eq⟩
    have hall := hsame.trans hunlocked
    exact ⟨hall, C.of_sameStore hall (H₂.setLock false)⟩

end ClientInv

/-! ## Runs of such clients -/

/-- The values of an `int`. -/
def IsInt (x : ℤ) : Prop := -2 ^ 31 ≤ x ∧ x < 2 ^ 31

/-- The calls that stay within the first page table and spare page 0: a request fits in the
table or is refused, and no free or write of a size other than 0 starts in page 0 and is
accepted by the chain check. -/
def Call.Spares (s : Vm) : Call → Prop
  | .tMalloc n =>
    (livePages s).card + pagesRequested n.toNat ≤ 1023 ∨
      261887 < (livePages s).card + pagesRequested n.toNat
  | .tFree va size =>
    IsInt size ∧
      (pageOf va = 0 → size = 0 ∨ s.accepts (pagesRequested (toSizeT size)) va = false)
  | .putValue va _ size =>
    IsInt size ∧ 0 ≤ size ∧ (pageOf va = 0 → size = 0 ∨
      s.accepts (pagesRequested (toSizeT (size + (va % 4096 : ℕ)))) va = false)
  | .getValue _ _ => True

theorem ClientInv.exec {s s' : Vm} {live : Finset ℕ} (C : ClientInv s live) {c : Call} {r : Ret}
    (hc : c.Spares s) (hexec : c.exec s = some (r, s')) : ∃ live', ClientInv s' live' := by
  cases c with
  | tMalloc n =>
    rw [Call.Spares, C.livePages_eq] at hc
    rcases C.tMalloc hc with h | ⟨ps, s₁, h, -, C'⟩
    · rw [Call.exec, h, Option.map_some, Option.some.injEq, Prod.mk.injEq] at hexec
      exact ⟨live, hexec.2 ▸ C⟩
    · rw [Call.exec, h, Option.map_some, Option.some.injEq, Prod.mk.injEq] at hexec
      exact ⟨_, hexec.2 ▸ C'⟩
  | tFree va size =>
    obtain ⟨s₁, h, heffect⟩ := C.tFree hc.2
    rw [Call.exec, h, Option.map_some, Option.some.injEq, Prod.mk.injEq] at hexec
    rw [← hexec.2]
    rcases heffect with ⟨-, C'⟩ | ⟨-, ps, -, -, -, C', -⟩
    · exact ⟨live, C'⟩
    · exact ⟨_, C'⟩
  | putValue va val size =>
    obtain ⟨⟨code, s₁⟩, h, heq⟩ := Option.map_eq_some_iff.mp hexec
    obtain ⟨-, rfl⟩ := Prod.mk.inj heq
    exact ⟨live, (C.putValue hc.2.1 hc.1.2 hc.2.2 h).1⟩
  | getValue va size =>
    obtain ⟨⟨bytes, s₁⟩, h, heq⟩ := Option.map_eq_some_iff.mp hexec
    obtain ⟨-, rfl⟩ := Prod.mk.inj heq
    exact ⟨live, (C.getValue h).2⟩

theorem CallRun.clientInv {v : VmStart} {s : Vm} (hrun : CallRun Call.Spares v s) :
    ∃ live, ClientInv s live := by
  induction hrun with
  | start hinit =>
    obtain ⟨s', hinit', H, hlock, -, -⟩ := setPhysicalMem_spec v
    obtain rfl := Option.some.inj (hinit.symm.trans hinit')
    exact ⟨∅, H, hlock, fun _ => 0, by simp [LinksUp]⟩
  | call _ hc hexec ih =>
    obtain ⟨live, C⟩ := ih
    exact C.exec hc hexec

end UserLevelOs.Memory
