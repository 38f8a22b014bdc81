import UserLevelOs.Memory.Allocate

/-!
# Chains of pages

The first word of a page holds the virtual address of the page its payload continues
on, or 0.  A chain is described by the list of its pages; the bytes it carries are the
payloads of those pages one after the other.  Walking, writing and reading a chain are
inductions on that list.

## Main definitions

* `headVa`, `Linked`, `Trail` — the links of a list of pages.
* `Vm.image` — the bytes a chain carries.
* `validPages_spec`, `putValueAux_spec`, `getValueAux_spec` — the three walks.
-/

namespace UserLevelOs.Memory

open UserLevelOs.Lib

/-- The address of the first page of a list, `0` when there is none. -/
def headVa : List ℕ → ℕ
  | [] => 0
  | p :: _ => 4096 * p

/-- Each page of the list links to the next one, and the last to nothing. -/
def Linked (s : Vm) : List ℕ → Prop
  | [] => True
  | p :: ps => s.link p = headVa ps ∧ Linked s ps

/-- The first pages of a chain: each links to the next one, and the last to anything. -/
def Trail (s : Vm) : List ℕ → Prop
  | [] => True
  | p :: ps => (ps ≠ [] → s.link p = headVa ps) ∧ Trail s ps

/-- `start` points into the first page of the list, or is `NULL` when there is none. -/
def PointsTo (start : ℕ) : List ℕ → Prop
  | [] => start = 0
  | p :: _ => pageOf start = p

namespace Vm

/-- The bytes carried by a chain. -/
def image (s : Vm) (ps : List ℕ) : List UInt8 := ps.flatMap s.payload

@[simp] theorem image_nil (s : Vm) : s.image [] = [] := rfl

@[simp] theorem image_cons (s : Vm) (p : ℕ) (ps : List ℕ) :
    s.image (p :: ps) = s.payload p ++ s.image ps := rfl

@[simp] theorem length_image (s : Vm) (ps : List ℕ) :
    (s.image ps).length = 4092 * ps.length := by
  induction ps with
  | nil => rfl
  | cons p ps ih =>
    rw [image_cons, List.length_append, ih, length_payload, List.length_cons]
    omega

end Vm

theorem Linked.congr {s s' : Vm} {ps : List ℕ} (h : Linked s ps)
    (hlink : ∀ p ∈ ps, s'.link p = s.link p) : Linked s' ps := by
  induction ps with
  | nil => trivial
  | cons p ps ih =>
    refine ⟨?_, ih h.2 fun q hq => hlink q (List.mem_cons_of_mem _ hq)⟩
    rw [hlink p List.mem_cons_self]
    exact h.1

theorem Linked.trail {s : Vm} {ps : List ℕ} (h : Linked s ps) : Trail s ps := by
  induction ps with
  | nil => trivial
  | cons p ps ih => exact ⟨fun _ => h.1, ih h.2⟩

theorem Trail.congr {s s' : Vm} {ps : List ℕ} (h : Trail s ps)
    (hlink : ∀ p ∈ ps, s'.link p = s.link p) : Trail s' ps := by
  induction ps with
  | nil => trivial
  | cons p ps ih =>
    refine ⟨fun hne => ?_, ih h.2 fun q hq => hlink q (List.mem_cons_of_mem _ hq)⟩
    rw [hlink p List.mem_cons_self]
    exact h.1 hne

theorem image_congr {s s' : Vm} {ps : List ℕ} (h : ∀ p ∈ ps, SamePage s s' p) :
    s'.image ps = s.image ps := by
  induction ps with
  | nil => rfl
  | cons p ps ih =>
    rw [Vm.image_cons, Vm.image_cons, (h p List.mem_cons_self).payload_eq,
      ih fun q hq => h q (List.mem_cons_of_mem _ hq)]

theorem image_zero {s : Vm} {ps : List ℕ}
    (h : ∀ p ∈ ps, ∀ x, s.frameAddr p ≤ x → x < s.frameAddr p + 4096 → s.memory x = 0) :
    s.image ps = List.replicate (4092 * ps.length) 0 := by
  induction ps with
  | nil => rfl
  | cons p ps ih =>
    have hp : s.payload p = List.replicate 4092 0 := by
      rw [Vm.payload, ← Bytes.read_fill_same s.memory (s.frameAddr p + 4) 4092 0]
      refine Bytes.read_congr fun x h₁ h₂ => ?_
      rw [h p List.mem_cons_self x (by omega) (by omega), Bytes.fill_apply_of_mem h₁ h₂]
    rw [Vm.image_cons, hp, ih fun q hq => h q (List.mem_cons_of_mem _ hq),
      List.replicate_append_replicate, List.length_cons]
    congr 1
    omega

/-- Following a link leads to the next page of the list. -/
theorem pointsTo_headVa (ps : List ℕ) : PointsTo (headVa ps) ps := by
  cases ps with
  | nil => rfl
  | cons p ps => rw [PointsTo, headVa, pageOf_eq]; omega

@[simp] theorem headVa_mod (ps : List ℕ) : headVa ps % 4096 = 0 := by
  cases ps with
  | nil => rfl
  | cons p ps => rw [headVa]; omega

theorem PointsTo.head {start : ℕ} {ps : List ℕ} (h : PointsTo start ps) :
    ∀ p ∈ ps.head?, pageOf start = p := by
  cases ps with
  | nil => simp
  | cons p ps =>
    rintro q ⟨rfl⟩
    exact h

/-- The link of the first page leads to the second. -/
theorem Trail.next {s : Vm} {p : ℕ} {ps : List ℕ} (h : Trail s (p :: ps)) :
    ∀ q ∈ ps.head?, pageOf (s.link p) = q := by
  intro q hq
  rw [h.1 (by rintro rfl; cases hq)]
  exact (pointsTo_headVa ps).head q hq

/-- A link with its offset bits filled in. -/
theorem headVa_or {p j : ℕ} {ps : List ℕ} (hj : j < 4096) :
    headVa (p :: ps) ||| j = 4096 * p + j := by
  have h := Nat.two_pow_add_eq_or_of_lt (i := 12) hj p
  simpa [headVa] using h.symm

/-- An offset past the payload is an offset into the next page. -/
theorem skip_spec {start : ℕ} {ps : List ℕ} (hne : ps ≠ []) (hskip : 4092 < start % 4096) :
    PointsTo (headVa ps ||| (start % 4096 - 4092)) ps ∧
      (headVa ps ||| (start % 4096 - 4092)) % 4096 = start % 4096 - 4092 := by
  cases ps with
  | nil => exact absurd rfl hne
  | cons q ps =>
    rw [headVa_or (by omega), PointsTo, pageOf_eq]
    omega

/-- Each walk first looks the page up and reads the link in its first word. -/
theorem PageInv.visit {s : Vm} {live : Finset ℕ} (H : PageInv s live) {p start : ℕ}
    (hp : p ∈ live) (hpage : pageOf start = p) :
    ∃ s₁, Memory.translate s start = some (s.cell p, s₁) ∧ SameStore s s₁ ∧ PageInv s₁ live ∧
      s₁.loadWord (s.cell p) = some (s.frameAddr p) ∧
      s₁.loadWord (s.frameAddr p) = some (s.link p) := by
  have hmem : pageOf start ∈ live := hpage ▸ hp
  obtain ⟨s₁, htr, hsame, H₁⟩ := H.translate hmem
  have hframe : s₁.frameAddr p = s.frameAddr p := hsame.frameAddr_eq' p
  refine ⟨s₁, by rw [htr, hpage], hsame, H₁, ?_, ?_⟩
  · rw [← hsame.cell_eq, H₁.loadWord_cell (H.live_lt p hp), hframe]
  · rw [← hframe, H₁.loadWord_frame hp, hsame.link_eq]

/-! ## The validating walk -/

/-- The walk accepts exactly the requests the rest of the chain is long enough for. -/
theorem validPages_spec {s : Vm} {live : Finset ℕ} (H : PageInv s live) {ps : List ℕ}
    (hlive : ∀ p ∈ ps, p ∈ live) (hlinked : Linked s ps) {start : ℕ} (hstart : PointsTo start ps)
    (n : ℕ) :
    ∃ s', validPagesLinkedTogetherFrom n start s = some (decide (n ≤ ps.length), s') ∧
      SameStore s s' ∧ PageInv s' live := by
  induction n generalizing s ps start with
  | zero => exact ⟨s, by simp [validPagesLinkedTogetherFrom], SameStore.refl s, H⟩
  | succ n ih =>
    cases ps with
    | nil =>
      have hzero : start = 0 := hstart
      exact ⟨s, by simp [validPagesLinkedTogetherFrom, hzero], SameStore.refl s, H⟩
    | cons p ps =>
      have hpage : pageOf start = p := hstart
      have hp : p ∈ live := hlive p List.mem_cons_self
      have hpos := H.live_pos p hp
      have hne : start ≠ 0 := by
        rintro rfl
        rw [pageOf_eq] at hpage
        omega
      have hmem : pageOf start ∈ live := hpage ▸ hp
      obtain ⟨s₁, htr, hsame, H₁, hpte, hlink⟩ := H.visit hp hpage
      rw [hlinked.1] at hlink
      have hlinked₁ : Linked s₁ ps := hlinked.2.congr fun q _ => hsame.link_eq q
      obtain ⟨s', hwalk, hsame', H'⟩ :=
        ih H₁ (fun q hq => hlive q (List.mem_cons_of_mem _ hq)) hlinked₁ (pointsTo_headVa ps)
      refine ⟨s', ?_, hsame.trans hsame', H'⟩
      have hcpos : s.cell p ≠ 0 := (H.cell_pos p).ne'
      have hfpos : s.frameAddr p ≠ 0 := (H.frameAddr_pos hp).ne'
      simp only [validPagesLinkedTogetherFrom, hne, if_false, H.usedVa_eq hmem, Bool.not_true,
        Bool.false_eq_true, htr, Option.bind_eq_bind, Option.bind_some, hcpos, hpte, hfpos, hlink,
        hwalk, List.length_cons, Nat.add_le_add_iff_right]

/-! ## Writing -/

/-- Memory outside the frames of the pages of the list is the same. -/
def OutsideSame (s s' : Vm) (ps : List ℕ) : Prop :=
  ∀ x, (∀ p ∈ ps, x < s.frameAddr p ∨ s.frameAddr p + 4096 ≤ x) → s'.memory x = s.memory x

theorem OutsideSame.mono {s s' : Vm} {ps qs : List ℕ} (h : OutsideSame s s' ps) (hsub : ps ⊆ qs) :
    OutsideSame s s' qs :=
  fun x hx => h x fun p hp => hx p (hsub hp)

theorem OutsideSame.trans {s s' s'' : Vm} {ps : List ℕ} (h : OutsideSame s s' ps)
    (h' : OutsideSame s' s'' ps) (hframe : ∀ p ∈ ps, s'.frameAddr p = s.frameAddr p) :
    OutsideSame s s'' ps := by
  intro x hx
  rw [h' x fun p hp => by rw [hframe p hp]; exact hx p hp, h x hx]

theorem SameStore.outsideSame {s s' : Vm} (h : SameStore s s') (ps : List ℕ) :
    OutsideSame s s' ps :=
  fun x _ => by rw [h.memory_eq]

/-- Copying bytes into the payload of a live page changes nothing else. -/
theorem copyIn_spec {s : Vm} {live : Finset ℕ} (H : PageInv s live) {p : ℕ} (hp : p ∈ live)
    {o n : ℕ} {val : List UInt8} (hn : n ≤ val.length) (hfit : o + n ≤ 4092) :
    ∃ s', s.copyIn (s.frameAddr p + 4 + o) val n = some s' ∧ PageInv s' live ∧
      SameTable s s' ∧ s'.link p = s.link p ∧
      s'.payload p = splice (s.payload p) o (val.take n) ∧
      (∀ q ∈ live, q ≠ p → SamePage s s' q) ∧ OutsideSame s s' [p] := by
  have hlen : (val.take n).length = n := by rw [List.length_take]; omega
  have hown : s.Owns (s.frameAddr p + 4 + o) n := by
    have h := H.owns_frame (a := 4 + o) (n := n) hp (by omega)
    rwa [← Nat.add_assoc] at h
  let s' : Vm := { s with memory := s.memory.write (s.frameAddr p + 4 + o) (val.take n) }
  have hmem : ∀ x, x < s.frameAddr p + 4 + o ∨ s.frameAddr p + 4 + o + n ≤ x →
      s'.memory x = s.memory x :=
    fun x hx => Bytes.write_apply_of_notMem (by rw [hlen]; exact hx)
  have hsame : SameTable s s' := by
    refine ⟨rfl, rfl, rfl, rfl, rfl, fun x _ h₂ => hmem x (Or.inl ?_)⟩
    have h₁ := H.cell_lt_frame (p := 1023) (by omega) hp
    simp only [Vm.cell] at h₁
    omega
  have hframe : ∀ q ∈ live, s'.frameAddr q = s.frameAddr q :=
    fun q hq => hsame.frameAddr_eq (H.live_lt q hq)
  refine ⟨s', if_pos ⟨hown, hn⟩, ⟨hsame.tableInv H.toTableInv, hsame.tlbInv H.toTlbInv rfl⟩, hsame,
    ?_, ?_, ?_, fun x hx => hmem x ?_⟩
  · rw [Vm.link, Vm.link, hframe p hp]
    exact Bytes.loadLE_congr fun x _ h₂ => hmem x (Or.inl (by omega))
  · rw [Vm.payload, Vm.payload, hframe p hp]
    exact Bytes.read_write_inside (by rw [hlen]; omega)
  · intro q hq hne
    have hd := H.frame_disjoint hp hq (Ne.symm hne)
    exact ⟨hframe q hq, fun x h₁ h₂ => hmem x (by omega)⟩
  · have h := hx p List.mem_cons_self
    omega

/-- The bytes of the chain from offset `o` on are overwritten by `val`, and the links and all
other pages are left alone. -/
structure Overwrites (s s' : Vm) (live : Finset ℕ) (ps : List ℕ) (o : ℕ) (val : List UInt8) :
    Prop where
  page : PageInv s' live
  table : SameTable s s'
  link : ∀ p ∈ ps, s'.link p = s.link p
  image : s'.image ps = splice (s.image ps) o val
  other : ∀ q ∈ live, q ∉ ps → SamePage s s' q
  outside : OutsideSame s s' ps

namespace Overwrites

variable {s s₁ s' : Vm} {live : Finset ℕ} {p o : ℕ} {ps : List ℕ} {val val' : List UInt8}

theorem after (h : Overwrites s₁ s' live ps o val) (hsame : SameStore s s₁) :
    Overwrites s s' live ps o val where
  page := h.page
  table := hsame.toSameTable.trans h.table
  link p hp := (h.link p hp).trans (hsame.link_eq p)
  image := by rw [h.image, image_congr fun p _ => hsame.samePage p]
  other q hq hnot := (hsame.samePage q).trans (h.other q hq hnot)
  outside := (hsame.outsideSame ps).trans h.outside fun p _ => hsame.frameAddr_eq' p

/-- Overwriting the pages behind the first one. -/
theorem behind (h : Overwrites s s' live ps o val) (hp : p ∈ live) (hnotin : p ∉ ps) :
    Overwrites s s' live (p :: ps) (4092 + o) val where
  page := h.page
  table := h.table
  link q hq := by
    rcases List.mem_cons.mp hq with rfl | hq
    · exact (h.other q hp hnotin).link_eq
    · exact h.link q hq
  image := by
    have hlen := s.length_payload p
    rw [Vm.image_cons, Vm.image_cons, (h.other p hp hnotin).payload_eq, h.image,
      splice_append_right (by omega), hlen, Nat.add_sub_cancel_left]
  other q hq hnot := h.other q hq (List.not_mem_of_not_mem_cons hnot)
  outside := h.outside.mono (List.subset_cons_self p ps)

/-- Overwriting the first page. -/
theorem copyIn (H : PageInv s live) (hlive : ∀ q ∈ p :: ps, q ∈ live) (hnotin : p ∉ ps) {n : ℕ}
    (hn : n ≤ val.length) (hfit : o + n ≤ 4092) :
    ∃ s', s.copyIn (s.frameAddr p + 4 + o) val n = some s' ∧
      Overwrites s s' live (p :: ps) o (val.take n) := by
  obtain ⟨s', hcopy, H', htable, hlink, hpay, hother, hout⟩ :=
    copyIn_spec H (hlive p List.mem_cons_self) hn hfit
  have hrest : ∀ q ∈ ps, SamePage s s' q := by
    intro q hq
    refine hother q (hlive q (List.mem_cons_of_mem _ hq)) ?_
    rintro rfl
    exact hnotin hq
  refine ⟨s', hcopy, H', htable, ?_, ?_, ?_, hout.mono (by simp)⟩
  · intro q hq
    rcases List.mem_cons.mp hq with rfl | hq
    · exact hlink
    · exact (hrest q hq).link_eq
  · have htake : (val.take n).length = n := by rw [List.length_take]; omega
    have hlen := s.length_payload p
    rw [Vm.image_cons, Vm.image_cons, hpay, image_congr hrest, splice_append_left (by omega)]
  · intro q hq hnot
    exact hother q hq (List.ne_of_not_mem_cons hnot)

/-- Going on where the first write has ended. -/
theorem trans (h : Overwrites s s₁ live ps o val) (h' : Overwrites s₁ s' live ps (o + val.length) val')
    (hlt : ∀ p ∈ ps, p < 1024) (hfit : o + val.length ≤ 4092 * ps.length) :
    Overwrites s s' live ps o (val ++ val') where
  page := h'.page
  table := h.table.trans h'.table
  link p hp := (h'.link p hp).trans (h.link p hp)
  image := by rw [h'.image, h.image, splice_splice (by rwa [Vm.length_image])]
  other q hq hnot := (h.other q hq hnot).trans (h'.other q hq hnot)
  outside := h.outside.trans h'.outside fun p hp => h.table.frameAddr_eq (hlt p hp)

end Overwrites

/-- The recursion of `put_value_aux` overwrites a slice of the bytes of the chain, from
the offset of `start` in its page on.  The two cases without a copy are an offset past the
payload and an offset at its end. -/
theorem putValueAux_spec {s : Vm} {live : Finset ℕ} (H : PageInv s live) {ps : List ℕ}
    (hlive : ∀ p ∈ ps, p ∈ live) (hnodup : ps.Nodup) (htrail : Trail s ps)
    {start : ℕ} (hstart : PointsTo start ps) {val : List UInt8} {n fuel : ℕ} (hpos : 0 < n)
    (hn : n ≤ val.length) (hfit : start % 4096 + n ≤ 4092 * ps.length) (hfuel : ps.length < fuel) :
    ∃ s', putValueAux fuel start val n s = some s' ∧
      Overwrites s s' live ps (start % 4096) (val.take n) := by
  induction ps generalizing s start val n fuel with
  | nil => simp at hfit; omega
  | cons p ps ih =>
    obtain ⟨fuel, rfl⟩ : ∃ k, fuel = k + 1 := ⟨fuel - 1, by omega⟩
    have hp : p ∈ live := hlive p List.mem_cons_self
    have hlive' : ∀ q ∈ ps, q ∈ live := fun q hq => hlive q (List.mem_cons_of_mem _ hq)
    obtain ⟨hnotin, hnodup'⟩ := List.nodup_cons.mp hnodup
    obtain ⟨s₁, htr, hsame, H₁, hpte, hlink⟩ := H.visit hp hstart
    have hbody : putValueAux (fuel + 1) start val n s =
        if start % 4096 > 4092 then
          putValueAux fuel (s.link p ||| (start % 4096 - 4092)) val n s₁
        else if n ≤ 4092 - start % 4096 then
          s₁.copyIn (s₁.frameAddr p + 4 + start % 4096) val n
        else (s₁.copyIn (s₁.frameAddr p + 4 + start % 4096) val (4092 - start % 4096)).bind
          (putValueAux fuel (s.link p) (val.drop (4092 - start % 4096))
            (n - (4092 - start % 4096))) := by
      have hframe : s₁.frameAddr p = s.frameAddr p := hsame.frameAddr_eq' p
      rw [putValueAux, if_neg (by omega), hframe]
      simp only [htr, Option.bind_eq_bind, Option.bind_some, hpte, hlink, byteOffset_extractFrom]
      rfl
    rw [List.length_cons] at hfit hfuel
    have hfuel' : ps.length < fuel := by omega
    by_cases hskip : start % 4096 > 4092
    · -- the whole write lies behind this page
      have hne : ps ≠ [] := by
        rintro rfl
        rw [List.length_nil] at hfit
        omega
      obtain ⟨hpoint, hmod⟩ := skip_spec hne hskip
      have hlinks : Trail s₁ ps := htrail.2.congr fun q _ => hsame.link_eq q
      obtain ⟨s', hput, hwrites⟩ :=
        ih H₁ hlive' hnodup' hlinks hpoint hpos hn (by omega) hfuel'
      have hbehind := (hwrites.behind hp hnotin).after hsame
      rw [hmod, Nat.add_sub_cancel' hskip.le] at hbehind
      exact ⟨s', by rw [hbody, if_pos hskip, htrail.1 hne, hput], hbehind⟩
    rw [if_neg hskip] at hbody
    by_cases hlast : n ≤ 4092 - start % 4096
    · -- the write ends in this page
      obtain ⟨s', hcopy, hwrites⟩ :=
        Overwrites.copyIn H₁ hlive hnotin (o := start % 4096) hn (by omega)
      exact ⟨s', by rw [hbody, if_pos hlast, hcopy], hwrites.after hsame⟩
    · -- the write fills this page and goes on behind it
      have hroom : 4092 - start % 4096 ≤ val.length := by omega
      obtain ⟨s₂, hcopy, hwrites⟩ :=
        Overwrites.copyIn H₁ hlive hnotin (o := start % 4096) hroom (by omega)
      have hne : ps ≠ [] := by
        rintro rfl
        rw [List.length_nil] at hfit
        omega
      have hlinks : Trail s₂ ps := htrail.2.congr fun q hq =>
        (hwrites.link q (List.mem_cons_of_mem _ hq)).trans (hsame.link_eq q)
      have hval : n - (4092 - start % 4096) ≤ (val.drop (4092 - start % 4096)).length := by
        rw [List.length_drop]; omega
      have hfit' : headVa ps % 4096 + (n - (4092 - start % 4096)) ≤ 4092 * ps.length := by
        rw [headVa_mod]; omega
      obtain ⟨s', hput, hrest⟩ := ih hwrites.page hlive' hnodup' hlinks (pointsTo_headVa ps)
        (by omega) hval hfit' hfuel'
      have hend : start % 4096 + (val.take (4092 - start % 4096)).length = 4092 + 0 := by
        rw [List.length_take]; omega
      have hlt : ∀ q ∈ p :: ps, q < 1024 := fun q hq => H.live_lt q (hlive q hq)
      have hsplit : val.take n = val.take (4092 - start % 4096) ++
          (val.drop (4092 - start % 4096)).take (n - (4092 - start % 4096)) := by
        rw [← List.take_add]
        congr 1
        omega
      have hbehind := hrest.behind hp hnotin
      rw [headVa_mod, ← hend] at hbehind
      have hall := hwrites.trans hbehind hlt (by rw [hend, List.length_cons]; omega)
      refine ⟨s', ?_, hsplit ▸ hall.after hsame⟩
      rw [hbody, if_neg hlast, hcopy, Option.bind_some, htrail.1 hne, hput]

/-! ## Reading -/

theorem copyOut_spec {s : Vm} {live : Finset ℕ} (H : PageInv s live) {p : ℕ} (hp : p ∈ live)
    {o n : ℕ} (hfit : o + n ≤ 4092) :
    s.copyOut (s.frameAddr p + 4 + o) n = some (((s.payload p).drop o).take n) := by
  have hown : s.Owns (s.frameAddr p + 4 + o) n := by
    have h := H.owns_frame (a := 4 + o) (n := n) hp (by omega)
    rwa [← Nat.add_assoc] at h
  have hsplit : s.payload p = s.memory.read (s.frameAddr p + 4) o ++
      (s.memory.read (s.frameAddr p + 4 + o) n ++
        s.memory.read (s.frameAddr p + 4 + o + n) (4092 - (o + n))) := by
    rw [← Bytes.read_append, ← Bytes.read_append, Vm.payload]
    congr 1
    omega
  rw [Vm.copyOut, if_pos hown, hsplit, List.drop_left' (by simp), List.take_left' (by simp)]

/-- The recursion of `get_value_aux` reads a slice of the bytes of the chain. -/
theorem getValueAux_spec {s : Vm} {live : Finset ℕ} (H : PageInv s live) {ps : List ℕ}
    (hlive : ∀ p ∈ ps, p ∈ live) (hlinked : Linked s ps)
    {start : ℕ} (hstart : PointsTo start ps) {n fuel : ℕ} (hpos : 0 < n)
    (hfit : start % 4096 + n ≤ 4092 * ps.length) (hfuel : ps.length < fuel) :
    ∃ s', getValueAux fuel start n s =
        some (((s.image ps).drop (start % 4096)).take n, s') ∧
      PageInv s' live ∧ SameStore s s' := by
  induction ps generalizing s start n fuel with
  | nil => simp at hfit; omega
  | cons p ps ih =>
    obtain ⟨fuel, rfl⟩ : ∃ k, fuel = k + 1 := ⟨fuel - 1, by omega⟩
    have hp : p ∈ live := hlive p List.mem_cons_self
    have hlive' : ∀ q ∈ ps, q ∈ live := fun q hq => hlive q (List.mem_cons_of_mem _ hq)
    obtain ⟨s₁, htr, hsame, H₁, hpte, hlink⟩ := H.visit hp hstart
    rw [hlinked.1] at hlink
    have hlinked₁ : Linked s₁ ps := hlinked.2.congr fun r _ => hsame.link_eq r
    have himage₁ : s₁.image ps = s.image ps := image_congr fun r _ => hsame.samePage r
    have hframe : s₁.frameAddr p = s.frameAddr p := hsame.frameAddr_eq' p
    have hlen : (s.payload p).length = 4092 := s.length_payload p
    have hbody : getValueAux (fuel + 1) start n s =
        if start % 4096 > 4092 then
          getValueAux fuel (headVa ps ||| (start % 4096 - 4092)) n s₁
        else if n ≤ 4092 - start % 4096 then
          (s₁.copyOut (s₁.frameAddr p + 4 + start % 4096) n).bind fun bytes => some (bytes, s₁)
        else (s₁.copyOut (s₁.frameAddr p + 4 + start % 4096) (4092 - start % 4096)).bind
          fun bytes => (getValueAux fuel (headVa ps) (n - (4092 - start % 4096)) s₁).bind
            fun r => some (bytes ++ r.1, r.2) := by
      rw [getValueAux, if_neg (by omega), hframe]
      simp only [htr, Option.bind_eq_bind, Option.bind_some, hpte, hlink, byteOffset_extractFrom]
      rfl
    rw [List.length_cons] at hfit hfuel
    have hfuel' : ps.length < fuel := by omega
    rw [Vm.image_cons]
    by_cases hskip : start % 4096 > 4092
    · have hne : ps ≠ [] := by
        rintro rfl
        rw [List.length_nil] at hfit
        omega
      obtain ⟨hpoint, hmod⟩ := skip_spec hne hskip
      obtain ⟨s', hget, H', hsame'⟩ := ih H₁ hlive' hlinked₁ hpoint hpos (by omega) hfuel'
      have hdrop : (s.payload p ++ s.image ps).drop (start % 4096) =
          (s.image ps).drop (start % 4096 - 4092) := by
        rw [List.drop_append, List.drop_eq_nil_of_le (by omega), List.nil_append, hlen]
      refine ⟨s', ?_, H', hsame.trans hsame'⟩
      rw [hbody, if_pos hskip, hget, hmod, himage₁, hdrop]
    rw [if_neg hskip] at hbody
    by_cases hlast : n ≤ 4092 - start % 4096
    · have hdrop : ((s.payload p ++ s.image ps).drop (start % 4096)).take n =
          ((s.payload p).drop (start % 4096)).take n := by
        rw [List.drop_append_of_le_length (by omega),
          List.take_append_of_le_length (by rw [List.length_drop]; omega)]
      refine ⟨s₁, ?_, H₁, hsame⟩
      rw [hbody, if_pos hlast, copyOut_spec H₁ hp (by omega), hsame.payload_eq, Option.bind_some,
        hdrop]
    · have hfit' : headVa ps % 4096 + (n - (4092 - start % 4096)) ≤ 4092 * ps.length := by
        rw [headVa_mod]; omega
      obtain ⟨s', hget, H', hsame'⟩ :=
        ih H₁ hlive' hlinked₁ (pointsTo_headVa ps) (by omega) hfit' hfuel'
      have hfull : ((s.payload p).drop (start % 4096)).take (4092 - start % 4096) =
          (s.payload p).drop (start % 4096) :=
        List.take_of_length_le (by rw [List.length_drop]; omega)
      have hdrop : ((s.payload p ++ s.image ps).drop (start % 4096)).take n =
          (s.payload p).drop (start % 4096) ++
            (s.image ps).take (n - (4092 - start % 4096)) := by
        rw [List.drop_append_of_le_length (by omega), List.take_append,
          List.take_of_length_le (by rw [List.length_drop]; omega), List.length_drop, hlen]
      refine ⟨s', ?_, H', hsame.trans hsame'⟩
      rw [hbody, if_neg hlast, copyOut_spec H₁ hp (by omega), Option.bind_some, hget,
        Option.bind_some, headVa_mod, himage₁, hsame.payload_eq, hfull, hdrop, List.drop_zero]

end UserLevelOs.Memory
