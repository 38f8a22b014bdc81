import UserLevelOs.Memory.Tracers

/-!
# Invariants of traced calls

Which invariants a call keeps, from what its steps do to them.  The invariants may speak of all
that has been logged.

## Main definitions

* `SameCache` — steps that leave the cache alone and give no page back.
* `Stable`, `Lasting`, `Robust` — invariants with more and more steps that keep them.

## Main statements

* `Stable.putValue`, `Stable.getValue`.
* `Lasting.traced`, `Robust.traced` — all calls keep the invariant.
-/

namespace UserLevelOs.Memory

open UserLevelOs.Lib
open Logged (Keeps)

/-! ## Steps -/

/-- The cache is the same, and no page has been given back. -/
structure SameCache (s s' : Vm) : Prop where
  vmStart_eq : s'.vmStart = s.vmStart
  ptbr_eq : s'.ptbr = s.ptbr
  tlbCache_eq : s'.tlbCache = s.tlbCache
  used : ∀ p, bitSetAt s.virtualBitmap p = true → bitSetAt s'.virtualBitmap p = true

namespace SameCache

variable {s s' s'' : Vm}

theorem refl (s : Vm) : SameCache s s := ⟨rfl, rfl, rfl, fun _ hp => hp⟩

theorem trans (h : SameCache s s') (h' : SameCache s' s'') : SameCache s s'' where
  vmStart_eq := h'.vmStart_eq.trans h.vmStart_eq
  ptbr_eq := h'.ptbr_eq.trans h.ptbr_eq
  tlbCache_eq := h'.tlbCache_eq.trans h.tlbCache_eq
  used := fun p hp => h'.used p (h.used p hp)

theorem lock (h : s.lock = some s') : SameCache s s' := by
  rw [Vm.lock] at h
  split at h
  · cases h
  · cases h
    exact ⟨rfl, rfl, rfl, fun _ hp => hp⟩

theorem unlock (h : s.unlock = some s') : SameCache s s' := by
  rw [Vm.unlock] at h
  split at h
  · cases h
    exact ⟨rfl, rfl, rfl, fun _ hp => hp⟩
  · cases h

theorem storeWord {a v : ℕ} (h : s.storeWord a v = some s') : SameCache s s' := by
  rw [Vm.storeWord] at h
  split at h
  · cases h
    exact ⟨rfl, rfl, rfl, fun _ hp => hp⟩
  · cases h

theorem clear {a n : ℕ} (h : s.clear a n = some s') : SameCache s s' := by
  rw [Vm.clear] at h
  split at h
  · cases h
    exact ⟨rfl, rfl, rfl, fun _ hp => hp⟩
  · cases h

theorem copyIn {a n : ℕ} {val : List UInt8} (h : s.copyIn a val n = some s') :
    SameCache s s' := by
  rw [Vm.copyIn] at h
  split at h
  · cases h
    exact ⟨rfl, rfl, rfl, fun _ hp => hp⟩
  · cases h

theorem linkPages {pages : List (ℕ × ℕ)} (h : Memory.linkPages pages s = some s') :
    SameCache s s' := by
  induction pages generalizing s with
  | nil =>
    cases h
    exact refl _
  | cons page pages ih =>
    cases pages with
    | nil =>
      cases h
      exact refl _
    | cons page' pages =>
      obtain ⟨s₁, hstore, hrest⟩ := Option.bind_eq_some_iff.mp h
      exact (storeWord hstore).trans (ih hrest)

theorem setPage {p : ℕ} {bitmap : Bytes} (h : setBitAt s.virtualBitmap p = some bitmap) :
    SameCache s { s with virtualBitmap := bitmap } := by
  rw [setBitAt] at h
  split at h
  · cases h
    exact ⟨rfl, rfl, rfl, fun q hq => by simp [hq]⟩
  · cases h

end SameCache

/-! ## Invariants -/

section

variable {ω : Type} (T : Tracer ω) (K J : ω → Prop) (I : Vm → List ω → Prop)

/-- What `put_value` and `get_value` do keeps the invariant. -/
structure Stable : Prop where
  translate : ∀ va, Keeps K J I (T.translate va)
  lock : ∀ s b log, I s log → I { s with libraryLock := b } log
  copyIn : ∀ pa w, (∃ s log, I s log ∧ s.loadWord pa = some w) → ∀ s o val n s' log, I s log →
    s.copyIn (pa + WORD_BYTES + o) val n = some s' → I s' log

/-- The invariant is about the cache and the pages in use, and a lookup keeps it. -/
structure Lasting : Prop where
  translate : ∀ va, Keeps K J I (T.translate va)
  same : ∀ s s' log, I s log → SameCache s s' → I s' log

/-- The invariant is not about the bitmaps either, and survives a smaller cache. -/
structure Robust : Prop extends Lasting T K J I where
  bitmaps : ∀ s v f log, I s log → I { s with virtualBitmap := v, frameBitmap := f } log
  forget : ∀ s va found cache log, I s log →
    searchAndRemove s.tlbCache va = some (found, cache) → I { s with tlbCache := cache } log

end

variable {ω : Type} {T : Tracer ω} {K J : ω → Prop} {I : Vm → List ω → Prop}

namespace Stable

variable (S : Stable T K J I)
include S

theorem keeps_lock : Keeps K J I (Logged.update Vm.lock) := by
  refine Keeps.update fun s log s' hI h => ?_
  rw [Vm.lock] at h
  split at h
  · cases h
  · exact Option.some.inj h ▸ S.lock s true log hI

theorem keeps_unlock : Keeps K J I (Logged.update Vm.unlock) := by
  refine Keeps.update fun s log s' hI h => ?_
  rw [Vm.unlock] at h
  split at h
  · exact Option.some.inj h ▸ S.lock s false log hI
  · cases h

theorem validPages (n start : ℕ) : Keeps K J I (T.validPagesLinkedTogetherFrom n start) := by
  induction n generalizing start with
  | zero => exact Keeps.pure _
  | succ n ih =>
    rw [Tracer.validPagesLinkedTogetherFrom]
    refine Keeps.ite (Keeps.pure _) (Keeps.reads.bind fun used => Keeps.ite (Keeps.pure _) ?_)
    refine (S.translate start).bind fun pte => Keeps.ite (Keeps.pure _) ?_
    exact Keeps.reads.bind fun pa => Keeps.ite (Keeps.pure _) (Keeps.reads.bind fun next => ih next)

theorem getValueAux (fuel start n : ℕ) : Keeps K J I (T.getValueAux fuel start n) := by
  induction fuel generalizing start n with
  | zero => exact Keeps.lift fun s log a s' _ h => by cases h
  | succ fuel ih =>
    rw [Tracer.getValueAux]
    refine Keeps.ite (Keeps.pure _) ((S.translate start).bind fun pte => ?_)
    refine Keeps.reads.bind fun pa => Keeps.reads.bind fun next => ?_
    refine Keeps.ite (ih _ _) (Keeps.ite Keeps.reads ?_)
    exact Keeps.reads.bind fun bytes => (ih _ _).bind fun rest => Keeps.pure _

theorem putValueAux (fuel start : ℕ) (val : List UInt8) (n : ℕ) :
    Keeps K J I (T.putValueAux fuel start val n) := by
  induction fuel generalizing start val n with
  | zero => exact Keeps.lift fun s log a s' _ h => by cases h
  | succ fuel ih =>
    rw [Tracer.putValueAux]
    refine Keeps.ite (Keeps.pure _) ((S.translate start).bind fun pte => ?_)
    refine Keeps.reads.bind fun pa => Keeps.reads.bind' fun next hload => ?_
    have hread : ∃ s log, I s log ∧ s.loadWord pa = some next := by
      obtain ⟨s, log, s', hI, h⟩ := hload
      obtain ⟨w, hw, heq⟩ := Option.bind_eq_some_iff.mp h
      rw [Option.some.injEq, Prod.mk.injEq] at heq
      exact ⟨s, log, hI, heq.1 ▸ hw⟩
    have hcopy : ∀ k, Keeps K J I (Logged.update fun s =>
        s.copyIn (pa + WORD_BYTES + (extractFrom pagingScheme start).byteOffset) val k) :=
      fun k => Keeps.update fun s log s' hI h => S.copyIn pa next hread s _ val k s' log hI h
    refine Keeps.ite (ih _ _ _) (Keeps.ite (hcopy _) ?_)
    exact (hcopy _).bind fun _ => ih _ _ _

theorem putValue (va : ℕ) (val : List UInt8) (size : ℤ) : Keeps K J I (T.putValue va val size) := by
  refine S.keeps_lock.bind fun _ => (S.validPages _ _).bind fun valid => ?_
  refine Keeps.ite ?_ ?_
  · exact S.keeps_unlock.bind fun _ => Keeps.pure _
  · exact (S.putValueAux _ _ _ _).bind fun _ => S.keeps_unlock.bind fun _ => Keeps.pure _

theorem getValue (va : ℕ) (size : ℤ) : Keeps K J I (T.getValue va size) := by
  refine S.keeps_lock.bind fun _ => (S.validPages _ _).bind fun valid => ?_
  have hread : ∀ n, Keeps K J I (do
      let bytes ← T.getValueAux STACK_FRAMES va n
      Logged.update Vm.unlock
      return bytes) :=
    fun n => (S.getValueAux _ _ n).bind fun _ => S.keeps_unlock.bind fun _ => Keeps.pure _
  refine Keeps.ite ?_ ?_
  · exact S.keeps_unlock.bind fun _ => hread _
  · exact (Keeps.pure ()).bind fun _ => hread _

end Stable

namespace Lasting

variable (L : Lasting T K J I)
include L

theorem stable : Stable T K J I where
  translate := L.translate
  lock := fun s _ log hI => L.same s _ log hI ⟨rfl, rfl, rfl, fun _ hp => hp⟩
  copyIn := fun _ _ _ s _ _ _ s' log hI h => L.same s s' log hI (.copyIn h)

theorem update {f : Vm → Option Vm} (hf : ∀ s s', f s = some s' → SameCache s s') :
    Keeps K J I (Logged.update f) :=
  Keeps.update fun s log s' hI h => L.same s s' log hI (hf s s' h)

theorem pageMap (va pa : ℕ) : Keeps K J I (T.pageMap va pa) := by
  refine Keeps.reads.bind fun mapped => Keeps.ite (Keeps.pure _) ?_
  refine (L.update fun s s' h => ?_).bind fun _ => (L.translate va).bind fun cell => ?_
  · obtain ⟨bitmap, hset, h⟩ := Option.bind_eq_some_iff.mp h
    cases h
    exact .setPage hset
  · exact (L.update fun _ _ => .storeWord).bind fun _ => Keeps.pure _

theorem mapPage : Keeps K J I T.mapPage := by
  refine Keeps.reads.bind fun va => Keeps.reads.bind fun frame => ?_
  refine (L.update fun s s' h => ?_).bind fun _ => Keeps.reads.bind fun pa => ?_
  · obtain ⟨bitmap, -, h⟩ := Option.bind_eq_some_iff.mp h
    cases h
    exact ⟨rfl, rfl, rfl, fun _ hp => hp⟩
  · refine (L.update fun _ _ => .clear).bind fun _ => (L.pageMap va pa).bind fun _ => ?_
    exact Keeps.reads.bind fun _ => Keeps.pure _

theorem mapPages (n : ℕ) : Keeps K J I (T.mapPages n) := by
  induction n with
  | zero => exact Keeps.pure _
  | succ n ih => exact L.mapPage.bind fun _ => ih.bind fun _ => Keeps.pure _

theorem tMalloc (n : UInt32) : Keeps K J I (T.tMalloc n) := by
  have hlock := L.stable.keeps_lock
  have hunlock := L.stable.keeps_unlock
  refine hlock.bind fun _ => Keeps.ite (hunlock.bind fun _ => Keeps.pure _) ?_
  refine Keeps.reads.bind fun virtualOk => Keeps.reads.bind fun frameOk => ?_
  refine Keeps.ite (hunlock.bind fun _ => Keeps.pure _) ((L.mapPages _).bind fun mapped => ?_)
  refine (L.update fun _ _ => .linkPages).bind fun _ => ?_
  exact hunlock.bind fun _ => Keeps.pure _

/-- A free may do more, so what it does to a page is a premise. -/
theorem tFree (hfree : ∀ start, Keeps K J I (T.freePage start)) (va : ℕ) (size : ℤ) :
    Keeps K J I (T.tFree va size) := by
  have haux (n start : ℕ) : Keeps K J I (T.tFreeAux n start) := by
    induction n generalizing start with
    | zero => exact Keeps.pure _
    | succ n ih => exact Keeps.ite (Keeps.pure _) ((hfree start).bind fun next => ih next)
  refine Keeps.ite (Keeps.pure _) (L.stable.keeps_lock.bind fun _ => ?_)
  refine (L.stable.validPages _ _).bind fun valid => ?_
  refine Keeps.ite ?_ ?_
  · exact (haux _ _).bind fun _ => L.stable.keeps_unlock
  · exact (Keeps.pure ()).bind fun _ => L.stable.keeps_unlock

theorem traced (hfree : ∀ start, Keeps K J I (T.freePage start)) (c : Call) :
    Keeps K J I (c.traced T) := by
  cases c with
  | tMalloc n => exact (L.tMalloc n).bind fun _ => Keeps.pure _
  | tFree va size => exact (L.tFree hfree va size).bind fun _ => Keeps.pure _
  | putValue va val size => exact (L.stable.putValue va val size).bind fun _ => Keeps.pure _
  | getValue va size => exact (L.stable.getValue va size).bind fun _ => Keeps.pure _

end Lasting

namespace Robust

variable (R : Robust T K J I)
include R

theorem freePage (start : ℕ) : Keeps K J I (T.freePage start) := by
  refine (Keeps.update fun s log s' hI h => ?_).bind fun _ => (R.translate start).bind fun pte => ?_
  · obtain ⟨⟨found, cache⟩, hsearch, h⟩ := Option.bind_eq_some_iff.mp h
    exact Option.some.inj h ▸ R.forget s start found cache log hI hsearch
  refine Keeps.reads.bind fun pa => (R.update fun _ _ => .clear).bind fun _ => ?_
  refine Keeps.reads.bind fun next => ?_
  refine (Keeps.update fun s log s' hI h => ?_).bind fun _ => Keeps.pure _
  simp only [Option.bind_eq_bind, Option.bind_eq_some_iff] at h
  obtain ⟨v, -, f, -, h⟩ := h
  exact R.same _ _ _ (R.bitmaps s v f log hI) (.clear h)

theorem traced (c : Call) : Keeps K J I (c.traced T) :=
  R.toLasting.traced R.freePage c

end Robust

end UserLevelOs.Memory
