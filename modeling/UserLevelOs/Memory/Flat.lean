import UserLevelOs.Memory.Simulation

/-!
# Addressing an allocation as one flat array

`mat_mult` and the tests reach element `i` of an allocation at `base + 4 * i`.  A page
spans 4096 addresses and carries 4092 bytes, so the last four addresses of a page name the
first four bytes of the next page of its chain, and the page after it in the address space
need not belong to the allocation.

## Main definitions

* `FlatLaw` — one-byte writes at the `n` addresses from `a` on are independent.
* `FlatWhen` — the pages those addresses lie in, and the pages they spill over to.

## Main statements

* `flatWhen_of_flatLaw`, `flatLaw_of_flatWhen`.
* `HeapRun.flatLaw_iff`.
-/

namespace UserLevelOs.Memory

open UserLevelOs.Lib

/-- A byte put at one of the `n` addresses from `a` on is read back, and is not seen at any
other of them. -/
def FlatLaw (s : Vm) (a n : ℕ) : Prop :=
  ∀ x < n, ∀ byte : UInt8, ∃ code s₁ s₂, putValue s (a + x) [byte] 1 = some (code, s₁) ∧
    getValue s₁ (a + x) 1 = some ([byte], s₂) ∧
    ∀ y < n, y ≠ x → ∃ bytes s₃ s₄, getValue s (a + y) 1 = some (bytes, s₃) ∧
      getValue s₁ (a + y) 1 = some (bytes, s₄)

/-- Page `p` holds one of the addresses of `b`, counted from its base. -/
def Block.Touches (b : Block) (p : ℕ) : Prop :=
  b.base ≤ 4096 * p ∧ 4096 * p < b.base + b.size

/-- Every page the addresses of `b` lie in is live, and where they take in its address 4092,
the page has a successor in its chain that none of them lies in. -/
structure FlatWhen (h : Heap) (b : Block) : Prop where
  live : ∀ p, b.Touches p → p ∈ h.pages
  spill : ∀ p, b.base ≤ 4096 * p → 4096 * p + 4092 < b.base + b.size →
    ∃ c ∈ h, ∃ pre q suf, c.pages = pre ++ p :: q :: suf ∧ ¬ b.Touches q

/-! ## Reads that fail -/

namespace Represents

variable {s s' : Vm} {h : Heap} {b c : Block} {va : ℕ}

theorem getValue_dead (R : Represents s h) (hpos : 0 < pageOf va) (hlt : pageOf va < 262144)
    (hdead : pageOf va ∉ h.pages) : getValue s va 1 = none := by
  have hne : va ≠ 0 := by
    rintro rfl
    rw [pageOf_eq] at hpos
    omega
  have hunused : usedVa { s with libraryLock := true } va = false := by
    rw [Bool.eq_false_iff, Ne, usedVa, Bool.and_eq_true, not_and]
    intro _
    rw [R.inv.used_iff _ hlt, List.mem_toFinset, not_or]
    exact ⟨hpos.ne', hdead⟩
  have hsize : pagesRequested (toSizeT (1 + (va % 4096 : ℕ))) ≠ 0 := by
    refine (pagesRequested_pos ?_).ne'
    simp only [toSizeT]
    omega
  obtain ⟨n, hn⟩ := Nat.exists_eq_succ_of_ne_zero hsize
  have hwalk : validPagesLinkedTogetherFrom (pagesRequested (toSizeT (1 + (va % 4096 : ℕ)))) va
      { s with libraryLock := true } = some (false, { s with libraryLock := true }) := by
    rw [hn, validPagesLinkedTogetherFrom, if_neg hne, hunused]
    rfl
  exact getValue_of_invalid R.unlocked hwalk rfl

theorem getValue_short (R : Represents s h) (hb : b ∈ h) (hva : pageOf va ∈ b.pages)
    (hout : ¬ b.InRange va 1) : getValue s va 1 = none := by
  have hnodup := Heap.nodup_block R.nodup hb
  obtain ⟨pre, suf, hsplit, hpoint, hpre⟩ := exists_suffix hnodup hva
  have hlive : ∀ p ∈ suf, p ∈ h.pages.toFinset := by
    intro p hp
    exact mem_live hb (by rw [hsplit]; exact List.mem_append_right _ hp)
  have hlinked : Linked s (pre ++ suf) := hsplit ▸ R.linked b hb
  obtain ⟨s₁, hwalk, hsame, -⟩ := validPages_spec (R.inv.setLock true) hlive
    (hlinked.append_right.setLock true) hpoint (pagesRequested (toSizeT (1 + (va % 4096 : ℕ))))
  have hshort : decide (pagesRequested (toSizeT (1 + (va % 4096 : ℕ))) ≤ suf.length) = false := by
    rw [Block.InRange, Block.index, ← hpre, hsplit, List.length_append] at hout
    rw [decide_eq_false_iff_not, pagesRequested_le_iff, toSizeT]
    omega
  rw [hshort] at hwalk
  exact getValue_of_invalid R.unlocked hwalk hsame.libraryLock_eq

/-! ## One byte -/

theorem put_byte (R : Represents s h) (hb : b ∈ h) (hva : pageOf va ∈ b.pages)
    (hin : b.InRange va 1) (byte : UInt8) :
    ∃ s', putValue s va [byte] 1 = some (0, s') ∧
      Represents s' (h.map fun c => if pageOf va ∈ c.pages then c.put va [byte] else c) := by
  have hval : (1 : ℤ).toNat ≤ [byte].length := le_rfl
  obtain ⟨s', hexec, R', -, -⟩ := R.put hb hva le_rfl (by decide) hval
  have hcode : (if b.InRange va (1 : ℤ).toNat then (0 : ℤ) else -1) = 0 := if_pos hin
  rw [hcode] at hexec
  exact ⟨s', hexec, R'⟩

theorem get_byte (R : Represents s h) (hb : b ∈ h) (hva : pageOf va ∈ b.pages)
    (hin : b.InRange va 1) : ∃ s', getValue s va 1 = some (b.get va 1, s') := by
  obtain ⟨s', hexec, -, -⟩ := R.get hb hva (le_refl (1 : ℤ)) hin
  exact ⟨s', hexec⟩

end Represents

namespace Block

variable {b : Block} {va va' : ℕ} {byte : UInt8}

theorem get_one (b : Block) (va : ℕ) : b.get va 1 = (b.data[b.index va]?).toList := by
  rw [get, List.take_one, List.head?_drop]

@[simp] theorem index_put (b : Block) (va va' : ℕ) (val : List UInt8) :
    (b.put va val).index va' = b.index va' := by
  rw [index, index, pages_put]

theorem inRange_put_iff {val : List UInt8} {n : ℕ} :
    (b.put va val).InRange va' n ↔ b.InRange va' n := by
  rw [InRange, InRange, index_put, pages_put]

/-- The byte at one index after a one-byte write at another. -/
theorem get_put (hin : b.InRange va 1) :
    (b.put va [byte]).get va' 1 = if b.index va' = b.index va then [byte] else b.get va' 1 := by
  have hlen : b.index va + [byte].length ≤ b.data.length := by
    rw [b.length_data]
    exact hin
  rw [get_one, get_one, index_put, data_put hin, getElem?_splice hlen]
  by_cases heq : b.index va' = b.index va
  · rw [if_pos heq, heq, if_pos ⟨le_rfl, by simp⟩, Nat.sub_self]
    rfl
  · rw [if_neg heq, if_neg (by simp only [List.length_singleton]; omega)]

end Block

/-! ## Which byte an address names -/

theorem idxOf_mid {ps pre suf : List ℕ} {p q : ℕ} (hnodup : ps.Nodup)
    (hsplit : ps = pre ++ p :: q :: suf) :
    ps.idxOf p = pre.length ∧ ps.idxOf q = pre.length + 1 := by
  rw [hsplit, List.nodup_append] at hnodup
  obtain ⟨-, hrest, hdisj⟩ := hnodup
  have hp : p ∉ pre := fun h => hdisj p h p List.mem_cons_self rfl
  have hq : q ∉ pre := fun h => hdisj q h q (List.mem_cons_of_mem _ List.mem_cons_self) rfl
  have hne : p ≠ q := fun h => (List.nodup_cons.mp hrest).1 (h ▸ List.mem_cons_self)
  rw [hsplit, List.idxOf_append_of_notMem hp, List.idxOf_append_of_notMem hq,
    List.idxOf_cons_self, List.idxOf_cons_ne _ hne, List.idxOf_cons_self]
  exact ⟨rfl, rfl⟩

/-- Two addresses of the same chain name one byte only across the end of a page. -/
theorem Block.index_eq {b : Block} {va va' : ℕ} (hva : pageOf va ∈ b.pages)
    (heq : b.index va = b.index va')
    (hle : b.pages.idxOf (pageOf va) ≤ b.pages.idxOf (pageOf va')) (hne : va ≠ va') :
    4092 ≤ va % 4096 ∧ b.pages.idxOf (pageOf va') = b.pages.idxOf (pageOf va) + 1 := by
  rw [index, index] at heq
  rcases Nat.eq_or_lt_of_le hle with hsame | hlt
  · have hpage : pageOf va = pageOf va' := (List.idxOf_inj hva).mp hsame
    rw [pageOf_eq, pageOf_eq] at hpage
    omega
  · omega

namespace Represents

variable {s : Vm} {h : Heap} {b : Block}

theorem base_mod (b : Block) : b.base % 4096 = 0 := by
  rw [Block.base]
  cases b.pages with
  | nil => rfl
  | cons p ps => rw [headVa]; omega

/-- The first page of an allocation is the one its base lies in. -/
theorem pageOf_base (R : Represents s h) (hb : b ∈ h) : pageOf b.base ∈ b.pages := by
  obtain ⟨p, ps, hp⟩ := List.exists_cons_of_ne_nil (R.pages_ne b hb)
  have hpage : pageOf b.base = p := by
    rw [Block.base, hp, headVa, pageOf_eq]
    omega
  rw [hpage, hp]
  exact List.mem_cons_self

theorem pageOf_base_pos (R : Represents s h) (hb : b ∈ h) : 0 < pageOf b.base :=
  R.inv.live_pos _ (mem_live hb (R.pageOf_base hb))

theorem pageOf_add_lt (R : Represents s h) (hb : b ∈ h) {x : ℕ} (hx : x < b.size) :
    pageOf (b.base + x) < 262144 := by
  have hbase := R.inv.live_lt _ (mem_live hb (R.pageOf_base hb))
  have hsize : b.size ≤ 4092 * b.pages.length := pagesRequested_le_iff.mp b.length_pages.ge
  have hlen := R.length_block_le hb
  have hmod := base_mod b
  rw [pageOf_eq] at hbase ⊢
  omega

theorem touches_pageOf {x : ℕ} (hx : x < b.size) : b.Touches (pageOf (b.base + x)) := by
  have hmod := base_mod b
  rw [Block.Touches, pageOf_eq]
  omega

/-- An address names a byte of its chain unless it is one of the last four of the last
page. -/
theorem inRange_of_lt {c : Block} {va : ℕ} (hva : pageOf va ∈ c.pages) (ho : va % 4096 < 4092) :
    c.InRange va 1 := by
  have hlt := List.idxOf_lt_length_of_mem hva
  rw [Block.InRange, Block.index]
  omega

/-! ## The condition is enough -/

theorem names_byte (R : Represents s h) (W : FlatWhen h b) {x : ℕ} (hx : x < b.size) :
    ∃ c ∈ h, pageOf (b.base + x) ∈ c.pages ∧ c.InRange (b.base + x) 1 := by
  obtain ⟨c, hc, hva⟩ := List.mem_flatMap.mp (W.live _ (touches_pageOf hx))
  refine ⟨c, hc, hva, ?_⟩
  by_cases ho : (b.base + x) % 4096 < 4092
  · exact inRange_of_lt hva ho
  · have hmod := base_mod b
    obtain ⟨c', hc', pre, q, suf, hsplit, -⟩ := W.spill (pageOf (b.base + x))
      (touches_pageOf hx).1 (by rw [pageOf_eq]; omega)
    obtain rfl : c' = c := Heap.eq_of_mem_pages R.nodup hc' hc
      (by rw [hsplit]; exact List.mem_append_right _ List.mem_cons_self) hva
    have hidx := (idxOf_mid (Heap.nodup_block R.nodup hc) hsplit).1
    have hlen : c'.pages.length = pre.length + (suf.length + 2) := by
      rw [hsplit, List.length_append]
      rfl
    rw [Block.InRange, Block.index, hidx, hlen]
    omega

theorem index_ne_of_le (R : Represents s h) (W : FlatWhen h b) {x y : ℕ} (hx : x < b.size)
    (hy : y < b.size) (hne : x ≠ y) {c : Block} (hc : c ∈ h)
    (hcx : pageOf (b.base + x) ∈ c.pages) (hcy : pageOf (b.base + y) ∈ c.pages)
    (hle : c.pages.idxOf (pageOf (b.base + x)) ≤ c.pages.idxOf (pageOf (b.base + y))) :
    c.index (b.base + x) ≠ c.index (b.base + y) := by
  intro heq
  obtain ⟨ho, hnext⟩ := Block.index_eq hcx heq hle (by omega)
  have hmod := base_mod b
  -- the page of `x` is used up to its end, so its successor is not among the pages named
  obtain ⟨c', hc', pre, q, suf, hsplit, huntouched⟩ := W.spill (pageOf (b.base + x))
    (touches_pageOf hx).1 (by rw [pageOf_eq]; omega)
  obtain rfl : c' = c := Heap.eq_of_mem_pages R.nodup hc' hc
    (by rw [hsplit]; exact List.mem_append_right _ List.mem_cons_self) hcx
  obtain ⟨hp, hq⟩ := idxOf_mid (Heap.nodup_block R.nodup hc) hsplit
  have hpage : pageOf (b.base + y) = q := by
    refine (List.idxOf_inj hcy).mp ?_
    rw [hnext, hp, hq]
  exact huntouched (hpage ▸ touches_pageOf hy)

theorem index_ne (R : Represents s h) (W : FlatWhen h b) {x y : ℕ} (hx : x < b.size)
    (hy : y < b.size) (hne : x ≠ y) {c : Block} (hc : c ∈ h)
    (hcx : pageOf (b.base + x) ∈ c.pages) (hcy : pageOf (b.base + y) ∈ c.pages) :
    c.index (b.base + x) ≠ c.index (b.base + y) := by
  rcases Nat.le_total (c.pages.idxOf (pageOf (b.base + x)))
    (c.pages.idxOf (pageOf (b.base + y))) with hle | hle
  · exact R.index_ne_of_le W hx hy hne hc hcx hcy hle
  · exact (R.index_ne_of_le W hy hx hne.symm hc hcy hcx hle).symm

theorem flatLaw_of_flatWhen (R : Represents s h) (W : FlatWhen h b) :
    FlatLaw s b.base b.size := by
  intro x hx byte
  obtain ⟨c, hc, hcx, hin⟩ := R.names_byte W hx
  obtain ⟨s₁, hput, R₁⟩ := R.put_byte hc hcx hin byte
  let f : Block → Block := fun d =>
    if pageOf (b.base + x) ∈ d.pages then d.put (b.base + x) [byte] else d
  have hfc : f c = c.put (b.base + x) [byte] := if_pos hcx
  have hfmem : ∀ d ∈ h, f d ∈ h.map f := fun d hd => List.mem_map_of_mem hd
  have hpages : ∀ d, (f d).pages = d.pages := by
    intro d
    simp only [f]
    split
    · exact Block.pages_put d _ _
    · rfl
  have hrange : ∀ d va, d.InRange va 1 → (f d).InRange va 1 := by
    intro d va hd
    simp only [f]
    split
    · exact Block.inRange_put_iff.mpr hd
    · exact hd
  obtain ⟨s₂, hget⟩ := R₁.get_byte (hfmem c hc) (by rw [hpages]; exact hcx) (hrange c _ hin)
  refine ⟨0, s₁, s₂, hput, ?_, ?_⟩
  · rw [hget, hfc, Block.get_put hin, if_pos rfl]
  · intro y hy hne
    obtain ⟨d, hd, hdy, hdin⟩ := R.names_byte W hy
    obtain ⟨s₃, hgety⟩ := R.get_byte hd hdy hdin
    obtain ⟨s₄, hgety₁⟩ := R₁.get_byte (hfmem d hd) (by rw [hpages]; exact hdy) (hrange d _ hdin)
    refine ⟨d.get (b.base + y) 1, s₃, s₄, hgety, ?_⟩
    rw [hgety₁]
    by_cases hdx : pageOf (b.base + x) ∈ d.pages
    · obtain rfl : d = c := Heap.eq_of_mem_pages R.nodup hd hc hdx hcx
      rw [hfc, Block.get_put hin, if_neg (R.index_ne W hy hx hne hd hdy hcx)]
    · have hfd : f d = d := if_neg hdx
      rw [hfd]

/-! ## The condition is needed -/

/-- Under the law, every address but the first names a byte of a live allocation. -/
theorem names_byte_of_flatLaw (R : Represents s h) (hb : b ∈ h) (L : FlatLaw s b.base b.size)
    {y : ℕ} (hy : y < b.size) (hpos : 0 < y) :
    ∃ c ∈ h, pageOf (b.base + y) ∈ c.pages ∧ c.InRange (b.base + y) 1 := by
  obtain ⟨_, _, _, -, -, hother⟩ := L 0 (by omega) 0
  obtain ⟨bytes, s₃, s₄, hget, -⟩ := hother y hy hpos.ne'
  have hpage : 0 < pageOf (b.base + y) := by
    have := R.pageOf_base_pos hb
    rw [pageOf_eq] at this ⊢
    omega
  have hlive : pageOf (b.base + y) ∈ h.pages := by
    by_contra hdead
    rw [R.getValue_dead hpage (R.pageOf_add_lt hb hy) hdead] at hget
    cases hget
  obtain ⟨c, hc, hva⟩ := List.mem_flatMap.mp hlive
  refine ⟨c, hc, hva, ?_⟩
  by_contra hout
  rw [R.getValue_short hc hva hout] at hget
  cases hget

/-- Two addresses that name one byte break the law. -/
theorem not_flatLaw_of_index_eq (R : Represents s h) {a n x y : ℕ} (hx : x < n) (hy : y < n)
    (hne : y ≠ x) {c : Block} (hc : c ∈ h) (hcx : pageOf (a + x) ∈ c.pages)
    (hcy : pageOf (a + y) ∈ c.pages) (hin : c.InRange (a + x) 1) (hiny : c.InRange (a + y) 1)
    (heq : c.index (a + y) = c.index (a + x)) : ¬ FlatLaw s a n := by
  intro L
  let old := (c.data[c.index (a + y)]?).getD 0
  obtain ⟨_, s₁, _, hput, -, hother⟩ := L x hx (old + 1)
  obtain ⟨bytes, s₃, s₄, hget, hget₁⟩ := hother y hy hne
  obtain ⟨s₁', hput', R₁⟩ := R.put_byte hc hcx hin (old + 1)
  obtain ⟨-, rfl⟩ := Prod.mk.inj (Option.some.inj (hput.symm.trans hput'))
  obtain ⟨s₃', hget'⟩ := R.get_byte hc hcy hiny
  have hold : bytes = c.get (a + y) 1 :=
    (Prod.mk.inj (Option.some.inj (hget.symm.trans hget'))).1
  have hmem : (if pageOf (a + x) ∈ c.pages then c.put (a + x) [old + 1] else c) ∈
      h.map fun d => if pageOf (a + x) ∈ d.pages then d.put (a + x) [old + 1] else d :=
    List.mem_map_of_mem hc
  rw [if_pos hcx] at hmem
  obtain ⟨s₄', hget₁'⟩ := R₁.get_byte hmem (by rw [Block.pages_put]; exact hcy)
    (Block.inRange_put_iff.mpr hiny)
  have hnew : bytes = [old + 1] := by
    rw [Block.get_put hin, if_pos heq] at hget₁'
    exact (Prod.mk.inj (Option.some.inj (hget₁.symm.trans hget₁'))).1
  have hlt : c.index (a + y) < c.data.length := by
    rw [Block.InRange] at hiny
    rw [c.length_data]
    omega
  have hread : c.get (a + y) 1 = [old] := by
    simp only [Block.get_one, old, List.getElem?_eq_getElem hlt, Option.getD_some]
    rfl
  have hbyte : old + 1 = old := by
    rw [hold, hread] at hnew
    exact (List.cons.inj hnew).1.symm
  have hne : old + 1 ≠ old := by simp
  exact hne hbyte

theorem flatWhen_of_flatLaw (R : Represents s h) (hb : b ∈ h) (L : FlatLaw s b.base b.size) :
    FlatWhen h b := by
  have hmod := base_mod b
  have hlive : ∀ p, b.Touches p → p ∈ h.pages := by
    intro p hp
    rw [Block.Touches] at hp
    by_cases hfirst : b.base = 4096 * p
    · have hpage : pageOf b.base = p := by rw [pageOf_eq]; omega
      exact hpage ▸ Heap.mem_pages hb (R.pageOf_base hb)
    · obtain ⟨c, hc, hva, -⟩ := R.names_byte_of_flatLaw hb L (y := 4096 * p - b.base) (by omega)
        (by omega)
      have hpage : pageOf (b.base + (4096 * p - b.base)) = p := by rw [pageOf_eq]; omega
      exact Heap.mem_pages hc (hpage ▸ hva)
  refine ⟨hlive, fun p hle hlt => ?_⟩
  let x := 4096 * p + 4092 - b.base
  have hx : b.base + x = 4096 * p + 4092 := by omega
  have hpage : pageOf (b.base + x) = p := by rw [hx, pageOf_eq]; omega
  obtain ⟨c, hc, hcx, hin⟩ := R.names_byte_of_flatLaw hb L (y := x) (by omega) (by omega)
  have hnodup := Heap.nodup_block R.nodup hc
  obtain ⟨pre, suf, hsplit⟩ := List.append_of_mem (hpage ▸ hcx)
  have hp : p ∉ pre := by
    rw [hsplit, List.nodup_append] at hnodup
    exact fun h => hnodup.2.2 p h p List.mem_cons_self rfl
  have hidx : c.pages.idxOf p = pre.length := by
    rw [hsplit, List.idxOf_append_of_notMem hp, List.idxOf_cons_self, Nat.add_zero]
  -- address 4092 of `p` is in range, so `p` is not the last page of its chain
  cases suf with
  | nil =>
    rw [Block.InRange, Block.index, hpage, hidx, hx, hsplit, List.length_append,
      List.length_singleton] at hin
    omega
  | cons q suf =>
    refine ⟨c, hc, pre, q, suf, hsplit, fun htouch => ?_⟩
    rw [Block.Touches] at htouch
    have hy : b.base + (4096 * q - b.base) = 4096 * q := by omega
    have hpageq : pageOf (b.base + (4096 * q - b.base)) = q := by rw [hy, pageOf_eq]; omega
    have hcy : pageOf (b.base + (4096 * q - b.base)) ∈ c.pages := by
      rw [hpageq, hsplit]
      exact List.mem_append_right _ (List.mem_cons_of_mem _ List.mem_cons_self)
    have hiny : c.InRange (b.base + (4096 * q - b.base)) 1 := by
      refine inRange_of_lt hcy ?_
      rw [hy]
      omega
    have heq : c.index (b.base + (4096 * q - b.base)) = c.index (b.base + x) := by
      have hmid := (idxOf_mid hnodup hsplit).2
      rw [Block.index, Block.index, hpageq, hpage, hmid, hidx, hy, hx]
      omega
    exact R.not_flatLaw_of_index_eq (by omega) (by omega) (by omega) hc hcx hcy hin hiny heq L

end Represents

/-- An allocation of up to 4096 bytes is addressed in one page. -/
theorem Represents.flatWhen_of_le {s : Vm} {h : Heap} (R : Represents s h) {b : Block} (hb : b ∈ h)
    (hsize : b.size ≤ 4096) : FlatWhen h b := by
  have hmod := Represents.base_mod b
  obtain ⟨p, ps, hp⟩ := List.exists_cons_of_ne_nil (R.pages_ne b hb)
  have hbase : b.base = 4096 * p := by rw [Block.base, hp, headVa]
  refine ⟨fun q hq => ?_, fun q hle hlt => ?_⟩
  · rw [Block.Touches] at hq
    obtain rfl : q = p := by omega
    exact Heap.mem_pages hb (by rw [hp]; exact List.mem_cons_self)
  · obtain rfl : q = p := by omega
    have hlen := b.length_pages
    cases ps with
    | nil =>
      rw [hp, List.length_singleton] at hlen
      have := pagesRequested_le_iff.mp hlen.ge
      omega
    | cons r ps =>
      refine ⟨b, hb, [], r, ps, hp, fun htouch => ?_⟩
      have hnodup := Heap.nodup_block R.nodup hb
      rw [hp] at hnodup
      have hne : q ≠ r := fun h => (List.nodup_cons.mp hnodup).1 (h ▸ List.mem_cons_self)
      rw [Block.Touches] at htouch
      omega

/-- In every run within one page table, the addresses of an allocation behave as one flat
array exactly when each page they lie in is live and none of those pages is one that
another of them spills over to. -/
theorem HeapRun.flatLaw_iff {v : VmStart} {s : Vm} {h : Heap} (hrun : HeapRun v s h) {b : Block}
    (hb : b ∈ h) : FlatLaw s b.base b.size ↔ FlatWhen h b :=
  ⟨fun L => hrun.represents.flatWhen_of_flatLaw hb L,
    fun W => hrun.represents.flatLaw_of_flatWhen W⟩

/-- The allocation of 4097 bytes that opens a run has two pages, and its address 4096 is
either outside of it or names the byte that address 4092 names. -/
theorem flatLaw_fails : ¬ ∀ (v : VmStart) (s : Vm) (h : Heap), HeapRun v s h →
    ∀ b ∈ h, FlatLaw s b.base b.size := by
  intro hall
  obtain ⟨s, b, hrun, hsize⟩ :=
    HeapRun.malloc_first ⟨4096, by decide, by decide⟩ (n := 4097) (by decide) (by decide)
  have R := hrun.represents
  have hb : b ∈ [b] := List.mem_singleton.mpr rfl
  have W := R.flatWhen_of_flatLaw hb (hall _ s [b] hrun b hb)
  have hsize : b.size = 4097 := hsize
  have hlen : b.pages.length = 2 := b.length_pages.trans (by rw [hsize]; decide)
  have hnodup := Heap.nodup_block R.nodup hb
  obtain ⟨p, q, hp⟩ := List.length_eq_two.mp hlen
  have hbase : b.base = 4096 * p := by rw [Block.base, hp, headVa]
  have hpages : Heap.pages [b] = [p, q] := by rw [← hp, Heap.pages, List.flatMap_singleton]
  have hnext : p + 1 ∈ Heap.pages [b] := W.live (p + 1) (by rw [Block.Touches]; omega)
  have hq : q = p + 1 := by
    rw [hpages, List.mem_pair] at hnext
    omega
  obtain ⟨c, hc, pre, r, suf, hsplit, huntouched⟩ := W.spill p (by omega) (by omega)
  obtain rfl : c = b := List.mem_singleton.mp hc
  have hidx := idxOf_mid hnodup hsplit
  have hpre : pre.length = 0 := by
    rw [← hidx.1, hp, List.idxOf_cons_self]
  rw [hp, List.eq_nil_of_length_eq_zero hpre, List.nil_append, List.cons.injEq,
    List.cons.injEq] at hsplit
  refine huntouched ?_
  rw [← hsplit.2.1, hq, Block.Touches]
  omega

/-- The run that opens with an allocation of 4096 bytes is addressed as one flat array. -/
theorem HeapRun.flatLaw_iff_first : ∃ (v : VmStart) (s : Vm) (b : Block), HeapRun v s [b] ∧
    b.size = 4096 ∧ (FlatLaw s b.base b.size ↔ FlatWhen [b] b) ∧ FlatLaw s b.base b.size := by
  obtain ⟨s, b, hrun, hsize⟩ :=
    HeapRun.malloc_first ⟨4096, by decide, by decide⟩ (n := 4096) (by decide) (by decide)
  have hb : b ∈ [b] := List.mem_singleton.mpr rfl
  have hsize : b.size = 4096 := hsize
  have hiff := HeapRun.flatLaw_iff hrun hb
  exact ⟨_, s, b, hrun, hsize, hiff, hiff.mpr (hrun.represents.flatWhen_of_le hb hsize.le)⟩

end UserLevelOs.Memory
