import UserLevelOs.Memory.Rejects
import UserLevelOs.Memory.Threads

/-!
# Calls of threads are calls one after the other

In every interleaving of any number of threads `set_physical_mem` runs once, at most one thread
is between `lock` and `unlock`, and the calls give the results and leave the memory of the same
calls made one after the other, in the order in which `library_lock` was given back.  A `get_value`
whose range is turned down reads without the lock and takes it away from whoever has it, so there
must be none.

## Main definitions

* `World.Setup`, `World.Locked` — the invariant.
* `World.Meets` — a condition on the calls that get the lock.
* `World.returned` — after the call of a thread.

## Main statements

* `Inside.step_libraryLock` — nothing inside touches the lock.
* `exec_eq_rest` — a call is `lock`, its rest, and what comes after.
* `World.exists_returned` — a thread under the lock comes back from its call.
* `serial_of_execution`.
-/

namespace UserLevelOs.Memory

open UserLevelOs.Lib

variable {s s' s₀ s₁ s₂ s₃ : Vm} {va pa start : ℕ} {c : Call} {r : Ret}

/-! ## Nothing inside touches the lock -/

section Lock

theorem libraryLock_of_storeWord {a v : ℕ} (h : s.storeWord a v = some s') :
    s'.libraryLock = s.libraryLock := by
  unfold Vm.storeWord at h
  split at h
  · cases h
    rfl
  · cases h

theorem libraryLock_of_clear {a n : ℕ} (h : s.clear a n = some s') :
    s'.libraryLock = s.libraryLock := by
  unfold Vm.clear at h
  split at h
  · cases h
    rfl
  · cases h

theorem libraryLock_of_copyIn {a n : ℕ} {val : List UInt8} (h : s.copyIn a val n = some s') :
    s'.libraryLock = s.libraryLock := by
  unfold Vm.copyIn at h
  split at h
  · cases h
    rfl
  · cases h

theorem libraryLock_of_pageMap {b : ℕ} (h : pageMap s va pa = some (b, s')) :
    s'.libraryLock = s.libraryLock := by
  unfold pageMap at h
  simp only at h
  split at h
  · cases h
    rfl
  · simp only [Option.bind_eq_bind, Option.bind_eq_some_iff, Prod.exists] at h
    obtain ⟨bitmap, -, cell, s₁, h₁, s₂, h₂, h⟩ := h
    cases h
    have h₁ := translate_lock h₁
    exact (libraryLock_of_storeWord h₂).trans h₁

theorem libraryLock_of_mapPage {page : ℕ × ℕ} (h : mapPage s = some (page, s')) :
    s'.libraryLock = s.libraryLock := by
  unfold mapPage at h
  simp only [Option.bind_eq_bind, Option.bind_eq_some_iff, Prod.exists] at h
  obtain ⟨bitmap, -, s₁, h₁, b, s₂, h₂, _, -, _, -, _, -, h⟩ := h
  cases h
  have h₁ := libraryLock_of_clear h₁
  exact (libraryLock_of_pageMap h₂).trans h₁

theorem libraryLock_of_checkLink {next : Option ℕ} (h : checkLink start s = some (next, s')) :
    s'.libraryLock = s.libraryLock := by
  unfold checkLink at h
  split at h
  · cases h
    rfl
  split at h
  · cases h
    rfl
  simp only [Option.bind_eq_bind, Option.bind_eq_some_iff, Prod.exists] at h
  obtain ⟨cell, s₁, h₁, h⟩ := h
  rw [← translate_lock h₁]
  split at h
  · cases h
    rfl
  obtain ⟨pa, -, h⟩ := Option.bind_eq_some_iff.mp h
  split at h
  · cases h
    rfl
  obtain ⟨next, -, h⟩ := Option.bind_eq_some_iff.mp h
  cases h
  rfl

theorem libraryLock_of_freeLink {next : ℕ} (h : freeLink start s = some (next, s')) :
    s'.libraryLock = s.libraryLock := by
  unfold freeLink at h
  simp only [Option.bind_eq_bind, Option.bind_eq_some_iff, Prod.exists] at h
  obtain ⟨_, cache, -, cell, s₁, h₁, pa, -, s₂, h₂, next, -, _, -, _, -, s₃, h₃, h⟩ := h
  cases h
  have h₁ := translate_lock h₁
  have h₃ := libraryLock_of_clear h₃
  exact h₃.trans ((libraryLock_of_clear h₂).trans h₁)

theorem libraryLock_of_pageAt {x : ℕ × ℕ × ℕ} (h : pageAt start s = some (x, s')) :
    s'.libraryLock = s.libraryLock := by
  unfold pageAt at h
  simp only [Option.bind_eq_bind, Option.bind_eq_some_iff, Prod.exists] at h
  obtain ⟨cell, s₁, h₁, pa, -, next, -, h⟩ := h
  cases h
  exact translate_lock h₁

theorem Inside.step_libraryLock {p : Inside} {x : Inside ⊕ Leave} (h : p.step s = some (x, s')) :
    s'.libraryLock = s.libraryLock := by
  cases p with
  | tMalloc numBytes =>
    simp only [Inside.step] at h
    split at h
    · cases h
      rfl
    · simp only [Option.bind_eq_bind, Option.bind_eq_some_iff] at h
      obtain ⟨_, -, _, -, h⟩ := h
      split at h <;> cases h <;> rfl
  | mapping left mapped =>
    cases left with
    | zero =>
      cases h
      rfl
    | succ left =>
      obtain ⟨⟨page, s₁⟩, h₁, h⟩ := Option.bind_eq_some_iff.mp h
      cases h
      exact libraryLock_of_mapPage h₁
  | linking left firstPage =>
    rcases left with _ | ⟨⟨va, pa⟩, _ | ⟨⟨va', pa'⟩, left⟩⟩
    · cases h
      rfl
    · cases h
      rfl
    · obtain ⟨s₁, h₁, h⟩ := Option.bind_eq_some_iff.mp h
      cases h
      exact libraryLock_of_storeWord h₁
  | checking f left start =>
    cases left with
    | zero =>
      cases h
      rfl
    | succ left =>
      obtain ⟨⟨next, s₁⟩, h₁, h⟩ := Option.bind_eq_some_iff.mp h
      rw [← libraryLock_of_checkLink h₁]
      cases next with
      | some next =>
        cases h
        rfl
      | none =>
        cases h
        rfl
  | freeing left start =>
    cases left with
    | zero =>
      cases h
      rfl
    | succ left =>
      simp only [Inside.step] at h
      split at h
      · cases h
        rfl
      · obtain ⟨⟨next, s₁⟩, h₁, h⟩ := Option.bind_eq_some_iff.mp h
        cases h
        exact libraryLock_of_freeLink h₁
  | writing fuel start val bytesRemaining =>
    cases fuel with
    | zero => cases h
    | succ fuel =>
      simp only [Inside.step] at h
      split at h
      · cases h
        rfl
      obtain ⟨⟨x, s₁⟩, h₁, h⟩ := Option.bind_eq_some_iff.mp h
      rw [← libraryLock_of_pageAt h₁]
      simp only at h
      split at h
      · cases h
        rfl
      split at h
      all_goals
        obtain ⟨s₂, h₂, h⟩ := Option.bind_eq_some_iff.mp h
        cases h
        exact libraryLock_of_copyIn h₂
  | reading fuel start bytesRemaining bytes =>
    cases fuel with
    | zero => cases h
    | succ fuel =>
      simp only [Inside.step] at h
      split at h
      · cases h
        rfl
      obtain ⟨⟨x, s₁⟩, h₁, h⟩ := Option.bind_eq_some_iff.mp h
      rw [← libraryLock_of_pageAt h₁]
      simp only at h
      split at h
      · cases h
        rfl
      split at h
      all_goals
        obtain ⟨more, -, h⟩ := Option.bind_eq_some_iff.mp h
        cases h
        rfl

end Lock

/-! ## A call is `lock`, what it does inside, and `unlock` -/

/-- What comes after the part under the lock. -/
def Leave.finish : Leave → Vm → Option (Ret × Vm)
  | .ret r, s => s.unlock.map fun s => (r, s)
  | .astray va size, s => do
    let s ← s.unlock
    let (bytes, s) ← getValueAux STACK_FRAMES va size s
    let s ← s.unlock
    some (.bytes bytes, s)

theorem exec_tMalloc (hlock : s.lock = some s₁) (numBytes : UInt32) :
    (Call.tMalloc numBytes).exec s =
      ((Inside.enter (.tMalloc numBytes)).rest s₁).bind fun x => x.1.finish x.2 := by
  simp only [Call.exec, tMalloc, hlock, Inside.enter, Inside.rest, Option.bind_eq_bind,
    Option.bind_some]
  split
  · cases h : s₁.unlock <;> simp [Leave.finish, h]
  cases nBitsAvailable s₁.virtualBitmap (pagesRequested numBytes.toNat) with
  | none => rfl
  | some virtualOk =>
    cases nBitsAvailable s₁.frameBitmap (pagesRequested numBytes.toNat) with
    | none => rfl
    | some frameOk =>
      simp only [Option.bind_some]
      split
      · cases h : s₁.unlock <;> simp [Leave.finish, h]
      cases mapPages (pagesRequested numBytes.toNat) s₁ with
      | none => rfl
      | some x =>
        obtain ⟨mapped, s₂⟩ := x
        simp only [Option.bind_some]
        cases linkPages mapped s₂ with
        | none => rfl
        | some s₃ => cases h : s₃.unlock <;> simp [Leave.finish, h]

theorem exec_tFree (hlock : s.lock = some s₁) (va : ℕ) {size : ℤ} (hsize : size ≠ 0) :
    (Call.tFree va size).exec s =
      ((Inside.enter (.tFree va size)).rest s₁).bind fun x => x.1.finish x.2 := by
  simp only [Call.exec, tFree, if_neg hsize, hlock, Inside.enter, Inside.rest, Option.bind_eq_bind,
    Option.bind_some]
  cases validPagesLinkedTogetherFrom (pagesRequested (toSizeT size)) va s₁ with
  | none => rfl
  | some x =>
    obtain ⟨valid, s₂⟩ := x
    cases valid with
    | false => cases h : s₂.unlock <;> simp [Leave.finish, h, Checked.reject]
    | true =>
      simp only [Option.bind_some, Checked.accepted, if_true]
      cases tFreeAux (pagesRequested (toSizeT size)) va s₂ with
      | none => rfl
      | some s₃ => cases h : s₃.unlock <;> simp [Leave.finish, h]

theorem exec_putValue (hlock : s.lock = some s₁) (va : ℕ) (val : List UInt8) (size : ℤ) :
    (Call.putValue va val size).exec s =
      ((Inside.enter (.putValue va val size)).rest s₁).bind fun x => x.1.finish x.2 := by
  simp only [Call.exec, putValue, hlock, Inside.enter, Inside.rest, Option.bind_eq_bind,
    Option.bind_some]
  cases validPagesLinkedTogetherFrom
    (pagesRequested (toSizeT (size + ↑(extractFrom pagingScheme va).byteOffset))) va s₁ with
  | none => rfl
  | some x =>
    obtain ⟨valid, s₂⟩ := x
    cases valid with
    | false => cases h : s₂.unlock <;> simp [Leave.finish, h, Checked.reject]
    | true =>
      simp only [Option.bind_some, Checked.accepted, if_true]
      cases putValueAux STACK_FRAMES va val (toSizeT
        (↑(toSizeT (size + ↑(extractFrom pagingScheme va).byteOffset)) -
          ↑(extractFrom pagingScheme va).byteOffset)) s₂ with
      | none => rfl
      | some s₃ => cases h : s₃.unlock <;> simp [Leave.finish, h]

theorem exec_getValue (hlock : s.lock = some s₁) (va : ℕ) (size : ℤ) :
    (Call.getValue va size).exec s =
      ((Inside.enter (.getValue va size)).rest s₁).bind fun x => x.1.finish x.2 := by
  simp only [Call.exec, getValue, hlock, Inside.enter, Inside.rest, Option.bind_eq_bind,
    Option.bind_some]
  cases validPagesLinkedTogetherFrom
    (pagesRequested (toSizeT (size + ↑(extractFrom pagingScheme va).byteOffset))) va s₁ with
  | none => rfl
  | some x =>
    obtain ⟨valid, s₂⟩ := x
    cases valid with
    | false =>
      cases hunlock : s₂.unlock <;>
        simp [Leave.finish, Checked.reject, hunlock, Option.map_eq_bind, Option.bind_assoc]
    | true =>
      simp only [Option.bind_some, Checked.accepted, if_true]
      cases getValueAux STACK_FRAMES va (toSizeT
        (↑(toSizeT (size + ↑(extractFrom pagingScheme va).byteOffset)) -
          ↑(extractFrom pagingScheme va).byteOffset)) s₂ with
      | none => rfl
      | some y =>
        obtain ⟨bytes, s₃⟩ := y
        cases h : s₃.unlock <;> simp [Leave.finish, h]

theorem exec_eq_rest (hlock : s.lock = some s₁) (hsize : ∀ va, c ≠ .tFree va 0) :
    c.exec s = ((Inside.enter c).rest s₁).bind fun x => x.1.finish x.2 := by
  cases c with
  | tMalloc numBytes => exact exec_tMalloc hlock numBytes
  | tFree va size => exact exec_tFree hlock va fun heq => hsize va (by rw [heq])
  | putValue va val size => exact exec_putValue hlock va val size
  | getValue va size => exact exec_getValue hlock va size

/-- The call is no `get_value` whose range the check turns down. -/
def Call.Accepted (s : Vm) : Call → Prop
  | .getValue va size => ¬ Rejects s va size
  | _ => True

/-- Only a `get_value` that is turned down leaves the lock without its result. -/
theorem exists_ret {l : Leave} (hacc : c.Accepted s) (hlock : s.lock = some s₁)
    (hrest : (Inside.enter c).rest s₁ = some (l, s')) : ∃ r, l = .ret r := by
  cases c with
  | tMalloc numBytes =>
    simp only [Inside.enter, Inside.rest] at hrest
    split at hrest
    · cases hrest
      exact ⟨_, rfl⟩
    simp only [Option.bind_eq_bind, Option.bind_eq_some_iff] at hrest
    obtain ⟨_, -, _, -, hrest⟩ := hrest
    split at hrest
    · cases hrest
      exact ⟨_, rfl⟩
    · simp only [Option.bind_eq_some_iff] at hrest
      obtain ⟨_, -, _, -, hrest⟩ := hrest
      cases hrest
      exact ⟨_, rfl⟩
  | tFree va size =>
    obtain ⟨⟨valid, s₂⟩, -, hrest⟩ := Option.bind_eq_some_iff.mp hrest
    cases valid with
    | false =>
      cases hrest
      exact ⟨_, rfl⟩
    | true =>
      obtain ⟨_, -, hrest⟩ := Option.map_eq_some_iff.mp hrest
      cases hrest
      exact ⟨_, rfl⟩
  | putValue va val size =>
    obtain ⟨⟨valid, s₂⟩, -, hrest⟩ := Option.bind_eq_some_iff.mp hrest
    cases valid with
    | false =>
      cases hrest
      exact ⟨_, rfl⟩
    | true =>
      obtain ⟨_, -, hrest⟩ := Option.map_eq_some_iff.mp hrest
      cases hrest
      exact ⟨_, rfl⟩
  | getValue va size =>
    obtain ⟨⟨valid, s₂⟩, hwalk, hrest⟩ := Option.bind_eq_some_iff.mp hrest
    cases valid with
    | false => exact absurd ⟨s₁, s₂, hlock, hwalk⟩ hacc
    | true =>
      obtain ⟨_, -, hrest⟩ := Option.map_eq_some_iff.mp hrest
      cases hrest
      exact ⟨_, rfl⟩

/-! ## Setting the library up -/

/-- In the part of `t_malloc` that the flag guards. -/
def Point.initialises : Point → Bool
  | .testScheme _ | .makeScheme _ | .makeMemory _ | .clearFlag _ => true
  | _ => false

/-- Between `lock` and `unlock`. -/
def Point.holds : Point → Bool
  | .inside _ _ | .unlock _ _ => true
  | _ => false

/-- The call that is between `lock` and `unlock`. -/
def Point.under : Point → Option Call
  | .inside c _ | .unlock c _ => some c
  | _ => none

/-- Not where nobody gets: `t_free` does not lock for a size of 0, and no `get_value` has been
turned down. -/
def Point.sound : Point → Bool
  | .lock (.tFree _ size) => size ≠ 0
  | .astray _ _ => false
  | _ => true

namespace World

variable {w w' : World} {t t' : ℕ} {p : Point} {vmStart : VmStart} {ok : Vm → Call → Prop}

/-- One thread at most is in the part of `t_malloc` that the flag guards, and what it is about to
make is not there yet. -/
structure Setup (w : World) : Prop where
  flag : ∀ t, (w.point t).initialises = true → w.firstInvocation = true
  one : ∀ t t', (w.point t).initialises = true → (w.point t').initialises = true → t = t'
  scheme : w.pagingScheme = false → w.vm = none
  makeScheme : ∀ t n, w.point t = .makeScheme n → w.pagingScheme = false
  makeMemory : ∀ t n, w.point t = .makeMemory n → w.pagingScheme = true ∧ w.vm = none

namespace Setup

theorem init : Setup .start := by
  constructor <;> simp [World.start, Point.initialises]

/-- A thread goes where the flag does not matter. -/
theorem leave (h : w.Setup) (hflag : w'.firstInvocation = w.firstInvocation)
    (hscheme : w'.pagingScheme = w.pagingScheme) (hvm : w.vm = none → w'.vm = none)
    (hother : ∀ t' ≠ t, w'.point t' = w.point t') (hp : (w'.point t).initialises = false) :
    w'.Setup := by
  have hin : ∀ t', (w'.point t').initialises = true → w'.point t' = w.point t' := fun t' ht' => by
    by_cases heq : t' = t
    · rw [heq, hp] at ht'
      cases ht'
    · exact hother t' heq
  refine ⟨fun t₁ h₁ => ?_, fun t₁ t₂ h₁ h₂ => ?_, fun hs => ?_, fun t₁ n h₁ => ?_,
    fun t₁ n h₁ => ?_⟩
  · rw [hflag]
    exact h.flag t₁ (by rwa [← hin t₁ h₁])
  · exact h.one t₁ t₂ (by rwa [← hin t₁ h₁]) (by rwa [← hin t₂ h₂])
  · exact hvm (h.scheme (hscheme ▸ hs))
  · rw [hscheme]
    exact h.makeScheme t₁ n (by rw [← hin t₁ (by rw [h₁]; rfl), h₁])
  · obtain ⟨hs, hnone⟩ := h.makeMemory t₁ n (by rw [← hin t₁ (by rw [h₁]; rfl), h₁])
    exact ⟨hscheme.trans hs, hvm hnone⟩

/-- The one thread that the flag guards, or that gets the flag, takes a step. -/
theorem sole (hsole : ∀ t' ≠ t, (w'.point t').initialises = false)
    (hflag : (w'.point t).initialises = true → w'.firstInvocation = true)
    (hscheme : w'.pagingScheme = false → w'.vm = none)
    (hmake : ∀ n, w'.point t = .makeScheme n → w'.pagingScheme = false)
    (hmemory : ∀ n, w'.point t = .makeMemory n → w'.pagingScheme = true ∧ w'.vm = none) :
    w'.Setup := by
  have heq : ∀ t', (w'.point t').initialises = true → t' = t := fun t' ht' => by
    by_contra hne
    rw [hsole t' hne] at ht'
    cases ht'
  refine ⟨fun t₁ h₁ => hflag (heq t₁ h₁ ▸ h₁), fun t₁ t₂ h₁ h₂ => (heq t₁ h₁).trans (heq t₂ h₂).symm, hscheme,
    fun t₁ n h₁ => ?_, fun t₁ n h₁ => ?_⟩
  · obtain rfl := heq t₁ (by rw [h₁]; rfl)
    exact hmake n h₁
  · obtain rfl := heq t₁ (by rw [h₁]; rfl)
    exact hmemory n h₁

/-- While one thread is where the flag guards it no other one is. -/
theorem others (h : w.Setup) (ht : (w.point t).initialises = true) :
    ∀ t' ≠ t, (w.point t').initialises = false := fun t' hne => by
  by_contra hin
  exact hne (h.one t' t (by simpa using hin) ht)

theorem step (h : w.Setup) (hok : w.step vmStart t = .ok w') : w'.Setup := by
  unfold World.step at hok
  split at hok
  · cases hok
  · next n hpoint =>
    split at hok
    · cases hok
      exact h
    · next hflag =>
      cases hok
      refine sole (t := t) (fun t' hne => ?_) (fun _ => rfl) h.scheme (by simp) (by simp)
      by_contra hin
      refine hflag (h.flag t' ?_)
      simpa [hne] using hin
  · next n hpoint =>
    cases hok
    have hin : (w.point t).initialises = true := by rw [hpoint]; rfl
    refine sole (t := t) (fun t' hne => ?_) (fun _ => h.flag t hin) h.scheme (fun n' hmake => ?_) ?_
    · simpa [hne] using h.others hin t' hne
    · by_contra hs
      have hs : w.pagingScheme = true := by simpa using hs
      simp [hs] at hmake
    · intro n' hmemory
      split at hmemory <;> simp at hmemory
  · next n hpoint =>
    have hin : (w.point t).initialises = true := by rw [hpoint]; rfl
    split at hok
    · cases hok
    · next hs =>
      cases hok
      refine sole (t := t) (fun t' hne => ?_) (fun _ => h.flag t hin) (by simp) (by simp) (fun n' _ => ?_)
      · simpa [hne] using h.others hin t' hne
      · exact ⟨rfl, h.scheme (by simpa using hs)⟩
  · next n hpoint =>
    have hin : (w.point t).initialises = true := by rw [hpoint]; rfl
    split at hok
    · next s hvm hs =>
      cases hok
      refine sole (t := t) (fun t' hne => ?_) (fun _ => h.flag t hin) (fun hs => ?_) (by simp) (by simp)
      · simpa [hne] using h.others hin t' hne
      · have hmade := (h.makeMemory t n hpoint).1
        simp [hmade] at hs
    · cases hok
  · next n hpoint =>
    cases hok
    have hin : (w.point t).initialises = true := by rw [hpoint]; rfl
    refine sole (t := t) (fun t' hne => ?_) (by simp [Point.initialises]) h.scheme (by simp) (by simp)
    simpa [hne] using h.others hin t' hne
  · next va size hpoint =>
    cases hok
    refine h.leave (t := t) rfl rfl id (fun t' hne => by simp [hne]) ?_
    rw [goto_point, Function.update_self]
    split <;> rfl
  · next c hpoint =>
    split at hok
    · cases hok
    · next s hvm =>
      split at hok
      · cases hok
      · cases hok
        exact h.leave (t := t) rfl rfl (by simp [hvm]) (fun t' hne => by simp [hne])
          (by simp [Point.initialises])
  · next c p hpoint =>
    split at hok
    · cases hok
    · next p' s hstep =>
      cases hok
      exact h.leave (t := t) rfl rfl (fun hvm => by simp [hvm] at hstep)
        (fun t' hne => by simp [hne]) (by simp [Point.initialises])
    · next r s hstep =>
      cases hok
      exact h.leave (t := t) rfl rfl (fun hvm => by simp [hvm] at hstep)
        (fun t' hne => by simp [hne]) (by simp [Point.initialises])
  · next c r hpoint =>
    split at hok
    · cases hok
    · next s hstep =>
      cases hok
      exact h.leave (t := t) rfl rfl (fun hvm => by simp [hvm] at hstep)
        (fun t' hne => by simp [hne]) (by simp [Point.initialises])
  · next c va size hpoint =>
    split at hok
    · cases hok
    · next s hstep =>
      cases hok
      exact h.leave (t := t) rfl rfl (fun hvm => by simp [hvm] at hstep)
        (fun t' hne => by simp [hne]) (by simp [Point.initialises])
  · next c p hpoint =>
    split at hok
    · cases hok
    · next p' s hstep =>
      cases hok
      exact h.leave (t := t) rfl rfl (fun hvm => by simp [hvm] at hstep)
        (fun t' hne => by simp [hne]) (by simp [Point.initialises])
    · next l s hstep =>
      cases hok
      exact h.leave (t := t) rfl rfl (fun hvm => by simp [hvm] at hstep)
        (fun t' hne => by simp [hne]) (by simp [Point.initialises])

end Setup

/-! ## One call after the other -/

/-- A thread between `lock` and `unlock` is on the way to what its call would have done at once in
the state in which it got the lock, and comes back from there. -/
def OnTheWay (ok : Vm → Call → Prop) (s₀ s : Vm) : Point → Prop
  | .inside c p => ok s₀ c ∧ c.Accepted s₀ ∧ (∀ va, c ≠ .tFree va 0) ∧ s.libraryLock = true ∧
    p.rest s = (Inside.enter c).rest { s₀ with libraryLock := true }
  | .unlock c l => ok s₀ c ∧ c.Accepted s₀ ∧ (∀ va, c ≠ .tFree va 0) ∧ s.libraryLock = true ∧
    (Inside.enter c).rest { s₀ with libraryLock := true } = some (l, s)
  | _ => True

/-- The calls of the log have been made one after the other, and led to the state unless a thread
is between `lock` and `unlock`. -/
structure Locked (ok : Vm → Call → Prop) (vmStart : VmStart) (w : World) : Prop where
  owner : ∀ t t', (w.point t).holds = true → (w.point t').holds = true → t = t'
  sound : ∀ t, (w.point t).sound = true
  before : w.vm = none → w.log = [] ∧ ∀ t, (w.point t).holds = false
  serial : ∀ s, w.vm = some s → ∃ init s₀, setPhysicalMem vmStart = some init ∧
    Serial Call.exec ok init w.log s₀ ∧ s₀.libraryLock = false ∧
    ((∀ t, (w.point t).holds = false) → s = s₀) ∧ ∀ t, OnTheWay ok s₀ s (w.point t)

/-- Each call meets the condition when its thread gets the lock, and no `get_value` is turned
down. -/
def Meets (ok : Vm → Call → Prop) (w : World) (e : ℕ × Action) : Prop :=
  ∀ c s, w.point e.1 = .lock c → w.vm = some s → s.libraryLock = false → ok s c ∧ c.Accepted s

theorem onTheWay_of_not_holds (h : p.holds = false) : OnTheWay ok s₀ s p := by
  cases p with
  | inside c p => cases h
  | unlock c r => cases h
  | _ => trivial

namespace Locked

theorem init : Locked ok vmStart .start := by
  constructor <;> simp [World.start, Point.holds, Point.sound]

/-- While one thread is between `lock` and `unlock` no other one is. -/
theorem others (h : w.Locked ok vmStart) (ht : (w.point t).holds = true) :
    ∀ t' ≠ t, (w.point t').holds = false := fun t' hne => by
  by_contra hin
  exact hne (h.owner t' t (by simpa using hin) ht)

/-- A thread moves, but neither to nor from the part under the lock. -/
theorem move (h : w.Locked ok vmStart) (hvm : w'.vm = w.vm) (hlog : w'.log = w.log)
    (hother : ∀ t' ≠ t, w'.point t' = w.point t') (hfrom : (w.point t).holds = false)
    (hto : (w'.point t).holds = false) (hsound : (w'.point t).sound = true) :
    w'.Locked ok vmStart := by
  have hholds : ∀ t', (w'.point t').holds = (w.point t').holds := fun t' => by
    by_cases heq : t' = t
    · rw [heq, hto, hfrom]
    · rw [hother t' heq]
  refine ⟨fun t₁ t₂ h₁ h₂ => ?_, fun t' => ?_, fun hnone => ?_, fun s hs => ?_⟩
  · rw [hholds] at h₁ h₂
    exact h.owner t₁ t₂ h₁ h₂
  · by_cases heq : t' = t
    · exact heq ▸ hsound
    · rw [hother t' heq]
      exact h.sound t'
  · simp only [hholds, hlog]
    exact h.before (hvm ▸ hnone)
  · obtain ⟨init, s₀, hinit, hserial, hfree, hidle, hway⟩ := h.serial s (hvm ▸ hs)
    refine ⟨init, s₀, hinit, hlog ▸ hserial, hfree, fun hall => hidle fun t' => ?_, fun t' => ?_⟩
    · rw [← hholds]
      exact hall t'
    · by_cases heq : t' = t
      · exact heq ▸ onTheWay_of_not_holds hto
      · rw [hother t' heq]
        exact hway t'

/-- The thread that is under the lock, or gets it, takes a step that does not give it back. -/
theorem holder (hlog : ∃ init s₀, setPhysicalMem vmStart = some init ∧
      Serial Call.exec ok init w'.log s₀ ∧ s₀.libraryLock = false ∧ OnTheWay ok s₀ s (w'.point t))
    (hvm : w'.vm = some s) (hother : ∀ t' ≠ t, (w'.point t').holds = false)
    (hholds : (w'.point t).holds = true) (hsound : ∀ t', (w'.point t').sound = true) :
    w'.Locked ok vmStart := by
  have heq : ∀ t', (w'.point t').holds = true → t' = t := fun t' ht' => by
    by_contra hne
    rw [hother t' hne] at ht'
    cases ht'
  refine ⟨fun t₁ t₂ h₁ h₂ => (heq t₁ h₁).trans (heq t₂ h₂).symm, hsound, fun hnone => ?_,
    fun s' hs' => ?_⟩
  · rw [hvm] at hnone
    cases hnone
  · rw [hvm] at hs'
    cases hs'
    obtain ⟨init, s₀, hinit, hserial, hfree, hway⟩ := hlog
    refine ⟨init, s₀, hinit, hserial, hfree, fun hall => ?_, fun t' => ?_⟩
    · rw [hall t] at hholds
      cases hholds
    · by_cases hne : t' = t
      · exact hne ▸ hway
      · exact onTheWay_of_not_holds (hother t' hne)

/-- Nobody is under the lock after the step. -/
theorem idle (hlog : ∃ init, setPhysicalMem vmStart = some init ∧
      Serial Call.exec ok init w'.log s) (hvm : w'.vm = some s) (hfree : s.libraryLock = false)
    (hnone : ∀ t', (w'.point t').holds = false) (hsound : ∀ t', (w'.point t').sound = true) :
    w'.Locked ok vmStart := by
  refine ⟨fun t₁ t₂ h₁ => ?_, hsound, fun hno => ?_, fun s' hs' => ?_⟩
  · rw [hnone t₁] at h₁
    cases h₁
  · rw [hvm] at hno
    cases hno
  · rw [hvm] at hs'
    cases hs'
    obtain ⟨init, hinit, hserial⟩ := hlog
    exact ⟨init, s, hinit, hserial, hfree, fun _ => rfl, fun t' => onTheWay_of_not_holds (hnone t')⟩

/-- What the other threads are at does not change. -/
theorem sound_goto (h : w.Locked ok vmStart) (hpoint : ∀ t' ≠ t, w'.point t' = w.point t')
    (hto : (w'.point t).sound = true) (t' : ℕ) : (w'.point t').sound = true := by
  by_cases hne : t' = t
  · exact hne ▸ hto
  · rw [hpoint t' hne]
    exact h.sound t'

theorem nobody_holds (h : w.Locked ok vmStart) (hvm : w.vm = some s) (hfree : s.libraryLock = false) :
    ∀ t, (w.point t).holds = false := by
  obtain ⟨init, s₀, -, -, -, -, hway⟩ := h.serial s hvm
  intro t
  have hway := hway t
  cases hpoint : w.point t with
  | inside c p =>
    rw [hpoint] at hway
    obtain ⟨-, -, -, hlocked, -⟩ := hway
    simp [hfree] at hlocked
  | unlock c l =>
    rw [hpoint] at hway
    obtain ⟨-, -, -, hlocked, -⟩ := hway
    simp [hfree] at hlocked
  | _ => rfl

/-- A thread gets the lock. -/
theorem lock (h : w.Locked ok vmStart) (hpoint : w.point t = .lock c) (hvm : w.vm = some s)
    (hlock : s.lock = some s₁) (hmeets : w.Meets ok (t, .step)) :
    ({ w with vm := some s₁ }.goto t (.inside c (.enter c))).Locked ok vmStart := by
  have hfree : s.libraryLock = false := by
    by_contra hheld
    simp [Vm.lock, hheld] at hlock
  rw [Vm.lock_eq hfree] at hlock
  cases hlock
  have hnone := h.nobody_holds hvm hfree
  obtain ⟨init, s₀, hinit, hserial, hfree₀, hidle, -⟩ := h.serial s hvm
  obtain rfl := hidle hnone
  have hsize : ∀ va, c ≠ .tFree va 0 := fun va heq => by
    have hsound := h.sound t
    simp [hpoint, heq, Point.sound] at hsound
  obtain ⟨hmet, hacc⟩ := hmeets c s hpoint hvm hfree
  refine holder (t := t) ⟨init, s, hinit, hserial, hfree₀, ?_⟩ rfl (fun t' hne => ?_)
    (by simp [Point.holds]) (h.sound_goto (t := t) (fun t' hne => by simp [hne]) (by simp [Point.sound]))
  · rw [goto_point, Function.update_self]
    exact ⟨hmet, hacc, hsize, rfl, rfl⟩
  · simpa [hne] using hnone t'

/-- A thread takes a step under the lock. -/
theorem inside {p : Inside} {x : Inside ⊕ Leave} (h : w.Locked ok vmStart)
    (hpoint : w.point t = .inside c p) (hvm : w.vm = some s) (hstep : p.step s = some (x, s')) :
    ({ w with vm := some s' }.goto t (x.elim (.inside c) (.unlock c))).Locked ok vmStart := by
  have hin : (w.point t).holds = true := by rw [hpoint]; rfl
  obtain ⟨init, s₀, hinit, hserial, hfree, -, hway⟩ := h.serial s hvm
  have hway := hway t
  rw [hpoint] at hway
  obtain ⟨hmet, hacc, hsize, hlocked, hrest⟩ := hway
  have hlocked' := (Inside.step_libraryLock hstep).trans hlocked
  refine holder (t := t) ⟨init, s₀, hinit, hserial, hfree, ?_⟩ rfl (fun t' hne => ?_) ?_
    (h.sound_goto (t := t) (fun t' hne => by simp [hne]) ?_)
  · rw [goto_point, Function.update_self]
    cases x with
    | inl p' => exact ⟨hmet, hacc, hsize, hlocked', (Memory.inside.rest_next hstep).symm.trans hrest⟩
    | inr l => exact ⟨hmet, hacc, hsize, hlocked', hrest.symm.trans (Memory.inside.rest_last hstep)⟩
  · simpa [hne] using h.others hin t' hne
  · rw [goto_point, Function.update_self]
    cases x <;> rfl
  · rw [goto_point, Function.update_self]
    cases x <;> rfl

/-- A thread gives the lock back; its call is the next one. -/
theorem unlock (h : w.Locked ok vmStart) (hpoint : w.point t = .unlock c (.ret r))
    (hvm : w.vm = some s) (hunlock : s.unlock = some s') :
    ({ w with vm := some s', log := w.log ++ [(t, c, r)] }.goto t .program).Locked ok vmStart := by
  have hin : (w.point t).holds = true := by rw [hpoint]; rfl
  obtain ⟨init, s₀, hinit, hserial, hfree, -, hway⟩ := h.serial s hvm
  have hway := hway t
  rw [hpoint] at hway
  obtain ⟨hmet, -, hsize, hlocked, hrest⟩ := hway
  have hexec : c.exec s₀ = some (r, s') := by
    rw [exec_eq_rest (Vm.lock_eq hfree) hsize, hrest]
    simp [Leave.finish, hunlock]
  refine idle ⟨init, hinit, hserial.call hmet hexec⟩ rfl (Vm.unlock_free hunlock)
    (fun t' => ?_) (h.sound_goto (t := t) (fun t' hne => by simp [hne]) (by simp [Point.sound]))
  by_cases hne : t' = t
  · simp [hne, Point.holds]
  · simpa [hne] using h.others hin t' hne

/-- No `get_value` gives the lock back without its result. -/
theorem unlock_ret {l : Leave} (h : w.Locked ok vmStart) (hpoint : w.point t = .unlock c l)
    (hvm : w.vm = some s) : ∃ r, l = .ret r := by
  obtain ⟨init, s₀, -, -, hfree, -, hway⟩ := h.serial s hvm
  have hway := hway t
  rw [hpoint] at hway
  obtain ⟨-, hacc, -, -, hrest⟩ := hway
  exact exists_ret hacc (Vm.lock_eq hfree) hrest

/-- The library is there and nobody has used it. -/
theorem made (h : w.Locked ok vmStart) (hnone : w.vm = none) (hs : setPhysicalMem vmStart = some s)
    (n : UInt32) : ({ w with vm := some s }.goto t (.clearFlag n)).Locked ok vmStart := by
  obtain ⟨s', hs', -, hfree, -⟩ := setPhysicalMem_spec vmStart
  obtain rfl := Option.some.inj (hs.symm.trans hs')
  obtain ⟨hlog, hidle⟩ := h.before hnone
  refine idle ⟨s, hs, ?_⟩ rfl hfree (fun t' => ?_)
    (h.sound_goto (t := t) (fun t' hne => by simp [hne]) (by simp [Point.sound]))
  · rw [goto_log, hlog]
    exact .start
  · by_cases hne : t' = t
    · simp [hne, Point.holds]
    · simpa [hne] using hidle t'

theorem step (h : w.Locked ok vmStart) (hmeets : w.Meets ok (t, .step))
    (hok : w.step vmStart t = .ok w') : w'.Locked ok vmStart := by
  have hmove : ∀ p : Point, (w.point t).holds = false → p.holds = false → p.sound = true →
      (w.goto t p).Locked ok vmStart := fun p hfrom hto hsound =>
    h.move (t := t) rfl rfl (fun t' hne => by simp [hne]) hfrom (by simpa using hto)
      (by simpa using hsound)
  unfold World.step at hok
  split at hok
  · cases hok
  · next n hpoint =>
    split at hok
    · cases hok
      exact h
    · cases hok
      exact h.move (t := t) rfl rfl (fun t' hne => by simp [hne]) (by rw [hpoint]; rfl)
        (by simp [Point.holds]) (by simp [Point.sound])
  · next n hpoint =>
    cases hok
    refine hmove _ (by rw [hpoint]; rfl) ?_ ?_ <;> split <;> rfl
  · next n hpoint =>
    split at hok
    · cases hok
    · cases hok
      exact h.move (t := t) rfl rfl (fun t' hne => by simp [hne]) (by rw [hpoint]; rfl)
        (by simp [Point.holds]) (by simp [Point.sound])
  · next n hpoint =>
    split at hok
    · next s hvm hs =>
      cases hok
      exact h.made hvm hs n
    · cases hok
  · next n hpoint =>
    cases hok
    exact h.move (t := t) rfl rfl (fun t' hne => by simp [hne]) (by rw [hpoint]; rfl)
      (by simp [Point.holds]) (by simp [Point.sound])
  · next va size hpoint =>
    cases hok
    refine hmove _ (by rw [hpoint]; rfl) ?_ ?_
    · split <;> rfl
    · split
      · rfl
      · next hsize => exact decide_eq_true fun heq => hsize (.inl heq)
  · next c hpoint =>
    split at hok
    · cases hok
    · next s hvm =>
      split at hok
      · cases hok
      · next s₁ hlock =>
        cases hok
        exact h.lock hpoint hvm hlock hmeets
  · next c p hpoint =>
    split at hok
    · cases hok
    · next p' s' hstep =>
      cases hok
      obtain ⟨s, hvm, hstep⟩ := Option.bind_eq_some_iff.mp hstep
      exact h.inside hpoint hvm hstep
    · next l s' hstep =>
      cases hok
      obtain ⟨s, hvm, hstep⟩ := Option.bind_eq_some_iff.mp hstep
      exact h.inside hpoint hvm hstep
  · next c r hpoint =>
    split at hok
    · cases hok
    · next s' hunlock =>
      cases hok
      obtain ⟨s, hvm, hunlock⟩ := Option.bind_eq_some_iff.mp hunlock
      exact h.unlock hpoint hvm hunlock
  · next c va size hpoint =>
    split at hok
    · cases hok
    · next s' hunlock =>
      obtain ⟨s, hvm, -⟩ := Option.bind_eq_some_iff.mp hunlock
      obtain ⟨r, hr⟩ := h.unlock_ret hpoint hvm
      cases hr
  · next c p hpoint =>
    have hsound := h.sound t
    rw [hpoint] at hsound
    cases hsound

end Locked

theorem Setup.call (h : w.Setup) (t : ℕ) (c : Call) : (w.goto t (.entry c)).Setup :=
  h.leave (t := t) rfl rfl id (fun t' hne => by simp [hne]) (by cases c <;> simp [Point.entry, Point.initialises])

theorem Locked.call (h : w.Locked ok vmStart) (hpoint : w.point t = .program) (c : Call) :
    (w.goto t (.entry c)).Locked ok vmStart := by
  refine h.move (t := t) rfl rfl (fun t' hne => by simp [hne]) (by rw [hpoint]; rfl) ?_ ?_
  · cases c <;> simp [Point.entry, Point.holds]
  · cases c <;> simp [Point.entry, Point.sound]

/-! ## All interleavings -/

variable {es : List (ℕ × Action)}

theorem setup_of_execution (h : Execution (World.exec vmStart) (Meets ok) .start es w) :
    w.Setup ∧ w.Locked ok vmStart := by
  refine h.invariant (I := fun w => w.Setup ∧ w.Locked ok vmStart) ⟨.init, .init⟩
    fun w e w' hboth hmeets hok => ?_
  obtain ⟨hsetup, hlocked⟩ := hboth
  obtain ⟨t, a⟩ := e
  cases a with
  | call c =>
    simp only [exec] at hok
    split at hok
    · next hpoint =>
      cases hok
      exact ⟨hsetup.call t c, hlocked.call hpoint c⟩
    · cases hok
  | step => exact ⟨hsetup.step hok, hlocked.step hmeets hok⟩

/-- The assertions of `set_physical_mem` hold. -/
theorem Setup.step_ne_assertion (h : w.Setup) (t : ℕ) : w.step vmStart t ≠ .error .assertion := by
  intro hfail
  unfold World.step at hfail
  split at hfail
  · cases hfail
  · split at hfail <;> cases hfail
  · cases hfail
  · next n hpoint =>
    split at hfail
    · next hs =>
      rw [h.makeScheme t n hpoint] at hs
      cases hs
    · cases hfail
  · next n hpoint =>
    obtain ⟨s, hs, -⟩ := setPhysicalMem_spec vmStart
    split at hfail
    · cases hfail
    · next hnot => exact hnot s (h.makeMemory t n hpoint).2 hs
  · cases hfail
  · cases hfail
  · split at hfail
    · cases hfail
    · split at hfail <;> cases hfail
  · split at hfail <;> cases hfail
  · split at hfail <;> cases hfail
  · split at hfail <;> cases hfail
  · split at hfail <;> cases hfail

/-- The call of a thread has come back, and the lock with it. -/
def returned (w : World) (t : ℕ) (c : Call) (r : Ret) (s : Vm) : World :=
  { w with vm := some s, log := w.log ++ [(t, c, r)] }.goto t .program

/-- A step of a thread that does not ask for the lock meets every condition. -/
theorem execution_step {w₁ : World} (hpoint : ∀ c, w.point t ≠ .lock c)
    (hstep : w.step vmStart t = .ok w₁) :
    Execution (World.exec vmStart) (Meets ok) w [(t, .step)] w₁ :=
  Execution.start.snoc (fun c _ hlock => absurd hlock (hpoint c)) hstep

/-- Left to itself a thread comes to the end of what it does under the lock, and back from its
call. -/
theorem exists_returned {k : ℕ} : ∀ {w : World} {s : Vm} {p : Inside}, p.rank < k →
    w.point t = .inside c p → w.vm = some s → p.rest s = some (.ret r, s₁) →
    s₁.unlock = some s' →
    ∃ n, Execution (World.exec vmStart) (Meets ok) w (List.replicate n (t, .step))
      (w.returned t c r s') := by
  induction k with
  | zero => exact fun hrank => absurd hrank (Nat.not_lt_zero _)
  | succ k ih =>
    intro w s p hrank hpoint hvm hrest hunlock
    rw [Inside.rest_eq, Option.bind_eq_some_iff] at hrest
    obtain ⟨⟨x, s₂⟩, hstep, hrest⟩ := hrest
    have hstep' : w.vm.bind p.step = some (x, s₂) := by rw [hvm]; exact hstep
    have hnolock : ∀ c', w.point t ≠ .lock c' := by simp [hpoint]
    cases x with
    | inl p' =>
      have hfirst : w.step vmStart t = .ok ({ w with vm := some s₂ }.goto t (.inside c p')) := by
        simp only [World.step, hpoint, hstep']
      obtain ⟨n, hn⟩ := ih (w := { w with vm := some s₂ }.goto t (.inside c p'))
        ((Inside.rank_lt hstep).trans_le (Nat.le_of_lt_succ hrank)) (by simp) rfl hrest hunlock
      refine ⟨n + 1, ?_⟩
      have hall := (execution_step hnolock hfirst).trans hn
      simpa [returned, goto, List.replicate_succ] using hall
    | inr l =>
      cases hrest
      -- what is left is `unlock`
      have hfirst : w.step vmStart t =
          .ok ({ w with vm := some s₂ }.goto t (.unlock c (.ret r))) := by
        simp only [World.step, hpoint, hstep']
      have hlast : ({ w with vm := some s₂ }.goto t (.unlock c (.ret r))).step vmStart t =
          .ok (w.returned t c r s') := by
        simp [World.step, hunlock, returned, goto]
      exact ⟨2, (execution_step hnolock hfirst).trans (execution_step (by simp) hlast)⟩

variable (vmStart ok) in
/-- A thread that gets the lock comes back from its call. -/
theorem exists_returned_of_lock (hpoint : w.point t = .lock c) (hvm : w.vm = some s)
    (hfree : s.libraryLock = false) (hok : ok s c) (hacc : c.Accepted s)
    (hsize : ∀ va, c ≠ .tFree va 0) (hexec : c.exec s = some (r, s')) :
    ∃ n, Execution (World.exec vmStart) (Meets ok) w (List.replicate n (t, .step))
      (w.returned t c r s') := by
  have hlock := Vm.lock_eq hfree
  rw [exec_eq_rest hlock hsize, Option.bind_eq_some_iff] at hexec
  obtain ⟨⟨l, s₁⟩, hrest, hfinish⟩ := hexec
  obtain ⟨r', rfl⟩ := exists_ret hacc hlock hrest
  obtain ⟨s₂, hunlock, heq⟩ := Option.map_eq_some_iff.mp hfinish
  cases heq
  let w₁ : World := { w with vm := some { s with libraryLock := true } }.goto t (.inside c (.enter c))
  have hfirst : w.step vmStart t = .ok w₁ := by
    simp only [World.step, hpoint, hvm, hlock, w₁]
  have hpoint₁ : w₁.point t = .inside c (.enter c) := by simp [w₁]
  obtain ⟨n, hn⟩ := exists_returned (w := w₁) (Nat.lt_succ_self _) hpoint₁ rfl hrest hunlock
  have hmeets : w.Meets ok (t, .step) := fun c' s' hpoint' hvm' _ => by
    rw [hpoint] at hpoint'
    rw [hvm] at hvm'
    cases hpoint'
    cases hvm'
    exact ⟨hok, hacc⟩
  have hall := (Execution.start.snoc hmeets hfirst).trans hn
  refine ⟨n + 1, ?_⟩
  simpa [returned, goto, w₁, List.replicate_succ] using hall

/-- A thread under the lock comes back from its call, unless the call would fail at once. -/
theorem Locked.exists_returned (hvm : w.vm = some s) (hunder : (w.point t).under = some c)
    (hway : OnTheWay ok s₀ s (w.point t)) (hfree : s₀.libraryLock = false)
    (hexec : c.exec s₀ = some (r, s')) :
    ∃ n, Execution (World.exec vmStart) (Meets ok) w (List.replicate n (t, .step))
      (w.returned t c r s') := by
  have hlock := Vm.lock_eq hfree
  cases hpoint : w.point t with
  | inside c' p =>
    rw [hpoint] at hunder hway
    cases hunder
    obtain ⟨-, hacc, hsize, -, hrest⟩ := hway
    rw [exec_eq_rest hlock hsize, Option.bind_eq_some_iff] at hexec
    obtain ⟨⟨l, s₁⟩, hdone, hfinish⟩ := hexec
    obtain ⟨r', rfl⟩ := exists_ret hacc hlock hdone
    obtain ⟨s₂, hunlock, heq⟩ := Option.map_eq_some_iff.mp hfinish
    cases heq
    exact World.exists_returned (Nat.lt_succ_self _) hpoint hvm (hrest.trans hdone) hunlock
  | unlock c' l =>
    rw [hpoint] at hunder hway
    cases hunder
    obtain ⟨-, hacc, hsize, -, hdone⟩ := hway
    rw [exec_eq_rest hlock hsize, hdone, Option.bind_some] at hexec
    obtain ⟨r', rfl⟩ := exists_ret hacc hlock hdone
    obtain ⟨s₂, hunlock, heq⟩ := Option.map_eq_some_iff.mp hexec
    cases heq
    have hlast : w.step vmStart t = .ok (w.returned t c r s') := by
      simp [World.step, hpoint, hvm, hunlock, returned]
    exact ⟨1, execution_step (by simp [hpoint]) hlast⟩
  | _ =>
    rw [hpoint] at hunder
    cases hunder

theorem callRun_of_serial {init : Vm} {log : List (ℕ × Call × Ret)}
    (hinit : setPhysicalMem vmStart = some init) (h : Serial Call.exec ok init log s) :
    CallRun ok vmStart s :=
  h.invariant (.start hinit) fun _ _ _ _ hrun hok hexec => hrun.call hok hexec

/-- **Calls are serialised.**  In every interleaving of the threads in which no `get_value` is
turned down, `set_physical_mem` runs at most once and none of its assertions fails, at most one
thread is between `lock` and `unlock`, and the calls that have returned gave the results that they
give one after the other, in the order in which they gave the lock back.  While nobody has the lock
the memory is what these calls leave; a thread that has it comes back from its call with the result
the call gives at once, if it gives one. -/
theorem serial_of_execution (h : Execution (World.exec vmStart) (Meets ok) .start es w) :
    (∀ t, w.step vmStart t ≠ .error .assertion) ∧
      (∀ t t', (w.point t).holds = true → (w.point t').holds = true → t = t') ∧
      ∀ s, w.vm = some s → ∃ init s₀, setPhysicalMem vmStart = some init ∧
        Serial Call.exec ok init w.log s₀ ∧ CallRun ok vmStart s₀ ∧
        ((∀ t, (w.point t).holds = false) → s = s₀) ∧
        ∀ t c r s', (w.point t).under = some c → c.exec s₀ = some (r, s') →
          ∃ n, Execution (World.exec vmStart) (Meets ok) w (List.replicate n (t, .step))
            (w.returned t c r s') := by
  obtain ⟨hsetup, hlocked⟩ := setup_of_execution h
  refine ⟨hsetup.step_ne_assertion, hlocked.owner, fun s hvm => ?_⟩
  obtain ⟨init, s₀, hinit, hserial, hfree, hidle, hway⟩ := hlocked.serial s hvm
  exact ⟨init, s₀, hinit, hserial, callRun_of_serial hinit hserial, hidle,
    fun t c r s' hunder hexec => Locked.exists_returned hvm hunder (hway t) hfree hexec⟩

/-- Two threads call `t_malloc` before the library is there, and come to the lock. -/
def twoThreads : List (ℕ × Action) :=
  [(0, .call (.tMalloc 5000)), (1, .call (.tMalloc 5000)), (0, .step), (1, .step), (0, .step),
    (0, .step), (0, .step), (0, .step), (1, .step), (1, .step), (1, .step)]

theorem execution_twoThreads (ok : Vm → Call → Prop) (vmStart : VmStart) : ∃ w init,
    Execution (World.exec vmStart) (Meets ok) .start twoThreads w ∧
      setPhysicalMem vmStart = some init ∧ w.vm = some init ∧ w.log = [] ∧
      w.point 0 = .lock (.tMalloc 5000) ∧ w.point 1 = .lock (.tMalloc 5000) := by
  obtain ⟨init, hinit, -⟩ := setPhysicalMem_spec vmStart
  -- nobody asks for the lock yet
  let asks (w : World) (e : ℕ × Action) : Bool := match w.point e.1 with
    | .lock _ => false
    | _ => true
  have hasks : ∀ w e, asks w e = true → Meets ok w e := fun w e htest c s hpoint => by
    simp [asks, hpoint] at htest
  have hseen : (Execution.replayIf (World.exec vmStart) asks .start twoThreads).map
      (Except.map fun w => (w.vm, w.log, w.point 0, w.point 1)) =
      some (.ok (some init, [], .lock (.tMalloc 5000), .lock (.tMalloc 5000))) := by
    simp [twoThreads, Execution.replayIf, asks, exec, World.step, World.start, Point.entry, hinit,
      Except.map]
  obtain ⟨w, hw, hobs⟩ := Execution.of_observedIf hasks hseen
  simp only [Prod.mk.injEq] at hobs
  obtain ⟨hvm, hlog, hpoint₀, hpoint₁⟩ := hobs
  exact ⟨w, init, hw, hinit, hvm, hlog, hpoint₀, hpoint₁⟩

/-- `serial_of_execution` for a run of two threads whose calls have both returned; the one that has
set the library up came second. -/
theorem serial_twoThreads : ∃ v es w r r' init s₀,
    Execution (World.exec v) (Meets fun _ _ => True) .start es w ∧
      w.log = [(1, .tMalloc 5000, r), (0, .tMalloc 5000, r')] ∧
      (∀ t t', (w.point t).holds = true → (w.point t').holds = true → t = t') ∧
      Serial Call.exec (fun _ _ => True) init w.log s₀ := by
  let v : VmStart := ⟨4096, by decide, by decide⟩
  obtain ⟨w, init, hw, hinit, hvm, hlog, hpoint₀, hpoint₁⟩ :=
    execution_twoThreads (fun _ _ => True) v
  obtain ⟨init', hinit', H, hfree, -⟩ := setPhysicalMem_spec v
  obtain rfl := Option.some.inj (hinit.symm.trans hinit')
  obtain ⟨ps, s₁, hexec₁, hlen, -, -, H₁, hfree₁, -⟩ :=
    tMalloc_granted H hfree (n := 5000) (by decide) (by decide)
  have hpages : pagesRequested (5000 : UInt32).toNat = 2 := by decide
  have hcard : (∅ ∪ ps.toFinset).card ≤ 2 := by
    rw [Finset.empty_union]
    exact (List.toFinset_card_le ps).trans (hlen.trans hpages).le
  obtain ⟨ps', s₂, hexec₂, -⟩ :=
    tMalloc_granted H₁ hfree₁ (n := 5000) (by decide) (by rw [hpages]; omega)
  have hsize : ∀ va, Call.tMalloc 5000 ≠ .tFree va 0 := by simp
  obtain ⟨n₁, h₁⟩ := exists_returned_of_lock v (fun _ _ => True) hpoint₁ hvm hfree trivial
    trivial hsize (by rw [Call.exec, hexec₁, Option.map_some])
  let w₁ := w.returned 1 (.tMalloc 5000) (.ptr (headVa ps)) s₁
  have hpoint : w₁.point 0 = .lock (.tMalloc 5000) := by simp [w₁, returned, hpoint₀]
  obtain ⟨n₂, h₂⟩ := exists_returned_of_lock v (fun _ _ => True) hpoint rfl hfree₁ trivial
    trivial hsize (by rw [Call.exec, hexec₂, Option.map_some])
  have h := (hw.trans h₁).trans h₂
  obtain ⟨-, howner, hserial⟩ := serial_of_execution h
  obtain ⟨init', s₀, -, hrun, -⟩ := hserial s₂ rfl
  have hdone : (w₁.returned 0 (.tMalloc 5000) (.ptr (headVa ps')) s₂).log =
      [(1, .tMalloc 5000, .ptr (headVa ps)), (0, .tMalloc 5000, .ptr (headVa ps'))] := by
    simp [returned, w₁, hlog]
  exact ⟨v, _, _, _, _, init', s₀, h, hdone, howner, hrun⟩

end World

end UserLevelOs.Memory
