import UserLevelOs.Threads.Locks

/-!
# The list of mutexes and the calls that change it

`worker_mutex_init` puts a node in front of the list with the signal blocked.
`worker_mutex_destroy` finds the node and takes it out in several statements; if the caller
still holds the mutex, the `worker_mutex_unlock` it calls first unblocks the signal, and other
threads may change the list in between.

## Main definitions

* `InUse` — the mutex has been initialised and not destroyed.
* `Machine.RegistryExact` — the list has one node for each mutex in use, and no other.
* `Machine.Undisturbed` — what `worker_mutex_destroy` takes out is still where it was found.
* `Removal` — how far a call of `worker_mutex_destroy` has got.
* `Machine.Registry` — the invariant.

## Main statements

* `Registry.init`, `Registry.unlink`, `Registry.settle`, `Registry.free`, `Registry.done` — what
  the statements that change the list do to it.
-/

namespace UserLevelOs.Threads

open UserLevelOs.Lib

/-- The mutex with this number has been initialised, and destroyed neither then nor since. -/
def InUse (num : WorkerMutex) : List Note → Prop
  | [] => False
  | .inited m :: notes => m = num ∨ InUse num notes
  | .destroyed m :: notes => m ≠ num ∧ InUse num notes
  | _ :: notes => InUse num notes

theorem inUse_append {num : WorkerMutex} {notes earlier : List Note}
    (h : ∀ n ∈ notes, ∀ m, n ≠ .inited m ∧ n ≠ .destroyed m) :
    InUse num (notes ++ earlier) ↔ InUse num earlier := by
  induction notes with
  | nil => rfl
  | cons n notes ih =>
    have hn := h n (by simp)
    have hrest := ih fun k hk => h k (by simp [hk])
    cases n <;> simp_all [InUse]

theorem InUse.inited {num : WorkerMutex} {notes : List Note} (h : InUse num notes) :
    .inited num ∈ notes := by
  induction notes with
  | nil => exact h.elim
  | cons n notes ih =>
    cases n with
    | inited m =>
      rcases h with rfl | h
      · exact List.mem_cons_self
      · exact List.mem_cons_of_mem _ (ih h)
    | destroyed m => exact List.mem_cons_of_mem _ (ih h.2)
    | _ => exact List.mem_cons_of_mem _ (ih h)

/-- How far a call of `worker_mutex_destroy` has got. -/
structure Removal where
  num : WorkerMutex
  /-- The node is not on the list any more. -/
  unlinked : Bool
  toFree : Option NodePtr

def Ctl.removal : Ctl → Option Removal
  | .destroy _ _ num (.release n) => some ⟨num, true, some n⟩
  | .destroy _ _ num .unblock => some ⟨num, true, none⟩
  | .destroy _ _ num _ => some ⟨num, false, none⟩
  | _ => none

theorem Ctl.removal_of_not_destroys {c : Ctl} (h : c.destroys = false) : c.removal = none := by
  cases c <;> first | rfl | simp [Ctl.destroys] at h

namespace Machine

variable {policy : Policy} {s s' : Machine} {p q : TcbPtr} {n ptr : NodePtr} {e : Event}
  {l : List NodePtr} {num : WorkerMutex} {mutex : Addr} {masked : Bool} {pc : DestroyAt}
  {garbage : Garbage} {es : List Event}

/-- The event initialises a mutex. -/
def inits : Event → Bool
  | .call (.mutexInit _ _) => true
  | _ => false

/-- The number of the mutex that a node is for. -/
def numberAt (s : Machine) (n : NodePtr) : Option WorkerMutex :=
  (s.mutexes.nodes n).map MutexNode.lockNum

/-- The list has exactly one node for each mutex in use, and no other node. -/
def RegistryExact (s : Machine) : Prop :=
  ∃ l, Linked s.mutexes.nodes s.mutexes.front l ∧ (l.map s.numberAt).Nodup ∧
    ∀ num, some num ∈ l.map s.numberAt ↔ InUse num s.history

/-- Where a statement of `worker_mutex_destroy` takes a node out, it is the node of the mutex
and still at that place of the list; where it gives up, the mutex is not on the list. -/
def Sure (s : Machine) (num : WorkerMutex) : DestroyAt → Prop
  | .unlinkFront front => s.mutexes.front = some front ∧ s.numberAt front = some num
  | .unlinkPtr prev ptr => (∃ q before, prev = some q ∧ s.Registered q ∧
      s.mutexes.nodes q = some before ∧ before.next = some ptr) ∧ s.numberAt ptr = some num
  | .testPtr _ none => ∀ n, s.Registered n → s.numberAt n ≠ some num
  | _ => True

/-- The next statement is sure of what it does, unless the signal is blocked. -/
def Undisturbed (s : Machine) (e : Event) : Prop :=
  ∀ p mutex num pc elapsed, s.running = some p → s.ctl p = .destroy false mutex num pc →
    e = .proceed elapsed → s.Sure num pc

/-- The list is `l`, and its nodes are those of the mutexes in use whose removal has not come as
far as to unlink them. -/
structure Registry (s : Machine) (l : List NodePtr) : Prop where
  linked : Linked s.mutexes.nodes s.mutexes.front l
  distinct : (l.map s.numberAt).Nodup
  exactly : ∀ num, some num ∈ l.map s.numberAt ↔
    InUse num s.history ∧ ∀ q r, (s.ctl q).removal = some r → r.unlinked = true → r.num ≠ num
  known : ∀ num, .inited num ∈ s.history → num.toNat ≤ s.currentMutexNum.toNat
  called : ∀ q r, (s.ctl q).removal = some r → .inited r.num ∈ s.history
  toFree : ∀ q r n, (s.ctl q).removal = some r → r.toFree = some n →
    n ∉ l ∧ s.mutexes.nodes n ≠ none
  apart : ∀ q q' r r' n, (s.ctl q).removal = some r → (s.ctl q').removal = some r' →
    r.toFree = some n → r'.toFree = some n → q = q'

theorem registered_iff (h : Linked s.mutexes.nodes s.mutexes.front l) :
    s.Registered n ↔ n ∈ l := by
  constructor
  · rintro ⟨l', hl', hn⟩
    exact h.unique hl' ▸ hn
  · exact fun hn => ⟨l, h, hn⟩

namespace Registry

/-- A step that leaves the nodes of the mutexes, and how far each removal has got. -/
theorem of_same (h : s.Registry l) (hfront : s'.mutexes.front = s.mutexes.front)
    (hnodes : ∀ n, (s'.mutexes.nodes n).map (fun node => (node.lockNum, node.next)) =
      (s.mutexes.nodes n).map (fun node => (node.lockNum, node.next)))
    (hnum : s'.currentMutexNum = s.currentMutexNum)
    (hctl : ∀ q, (s'.ctl q).removal = (s.ctl q).removal)
    (hhist : ∃ notes, s'.history = notes ++ s.history ∧
      ∀ n ∈ notes, ∀ m, n ≠ .inited m ∧ n ≠ .destroyed m) : s'.Registry l := by
  obtain ⟨notes, hnotes, hsilent⟩ := hhist
  have hat : s'.numberAt = s.numberAt := by
    funext n
    simpa [numberAt, Function.comp_def] using congrArg (Option.map Prod.fst) (hnodes n)
  have hnone : ∀ n, s'.mutexes.nodes n ≠ none ↔ s.mutexes.nodes n ≠ none := fun n => by
    simpa using not_congr (congrArg (· = none) (hnodes n)).to_iff
  have hinited : ∀ m, .inited m ∈ s'.history ↔ .inited m ∈ s.history := fun m => by
    rw [hnotes, List.mem_append, or_iff_right fun hin => (hsilent _ hin m).1 rfl]
  refine ⟨?_, hat ▸ h.distinct, fun num => ?_, fun num hin => ?_, fun q r hr => ?_,
    fun q r n hr hn => ?_, fun q q' r r' n hr hr' => ?_⟩
  · rw [hfront]
    refine h.linked.congr fun n _ => ?_
    simpa [Function.comp_def] using congrArg (Option.map Prod.snd) (hnodes n)
  · rw [hat, h.exactly, hnotes, inUse_append hsilent]
    simp only [hctl]
  · rw [hnum]
    exact h.known num ((hinited num).mp hin)
  · exact (hinited _).mpr (h.called q r (hctl q ▸ hr))
  · obtain ⟨hout, hsome⟩ := h.toFree q r n (hctl q ▸ hr) hn
    exact ⟨hout, (hnone n).mpr hsome⟩
  · exact h.apart q q' r r' n (hctl q ▸ hr) (hctl q' ▸ hr')

/-- A thread moves on in `worker_mutex_destroy`, or into it, where the node is not unlinked. -/
theorem move {c : Ctl} (h : s.Registry l)
    (hold : ∀ r, (s.ctl p).removal = some r → r.unlinked = false)
    (hnew : ∃ num, c.removal = some ⟨num, false, none⟩ ∧ .inited num ∈ s.history) :
    (s.goto p c).Registry l := by
  obtain ⟨num, hc, hinited⟩ := hnew
  have hstill : ∀ q r, ((s.goto p c).ctl q).removal = some r → r.unlinked = true →
      (s.ctl q).removal = some r := fun q r hr hun => by
    by_cases hq : q = p
    · simp only [hq, goto_ctl, Function.update_self, hc, Option.some.injEq] at hr
      simp [← hr] at hun
    · simpa [hq] using hr
  have hfree : ∀ q r n, ((s.goto p c).ctl q).removal = some r → r.toFree = some n →
      (s.ctl q).removal = some r := fun q r n hr hn => by
    by_cases hq : q = p
    · simp only [hq, goto_ctl, Function.update_self, hc, Option.some.injEq] at hr
      simp [← hr] at hn
    · simpa [hq] using hr
  refine ⟨h.linked, h.distinct, fun num => ?_, h.known, fun q r hr => ?_, fun q r n hr hn => ?_,
    fun q q' r r' n hr hr' hn hn' => ?_⟩
  · refine (h.exactly num).trans (and_congr_right fun _ => ⟨fun hnot q r hr hun => ?_,
      fun hnot q r hr hun => ?_⟩)
    · exact hnot q r (hstill q r hr hun) hun
    · by_cases hq : q = p
      · rw [hold r (hq ▸ hr)] at hun
        cases hun
      · exact hnot q r (by simpa [hq] using hr) hun
  · by_cases hq : q = p
    · simp only [hq, goto_ctl, Function.update_self, hc, Option.some.injEq] at hr
      exact hr ▸ hinited
    · exact h.called q r (by simpa [hq] using hr)
  · exact h.toFree q r n (hfree q r n hr hn) hn
  · exact h.apart q q' r r' n (hfree q r n hr hn) (hfree q' r' n hr' hn') hn hn'

/-- A new mutex, whose number has not been given out before. -/
theorem init {item : ℕ} (h : s.Registry l) (hlt : s.currentMutexNum.toNat + 1 < 2 ^ 32)
    (hok : s.workerMutexInit mutex item = .ok s') : s'.Registry (item :: l) := by
  obtain ⟨hfree, rfl⟩ := workerMutexInit_ok hok
  have hnew : (s.currentMutexNum + 1).toNat = s.currentMutexNum.toNat + 1 := by
    rw [UInt32.toNat_add]
    exact Nat.mod_eq_of_lt hlt
  have hfresh : .inited (s.currentMutexNum + 1) ∉ s.history := fun hin => by
    have := h.known _ hin
    omega
  have hout : ∀ n, s.mutexes.nodes n ≠ none → n ≠ item := fun n hn heq => hn (heq ▸ hfree)
  have hnotin : item ∉ l := fun hin => by
    obtain ⟨node, hnode⟩ := h.linked.allocated item hin
    simp [hfree] at hnode
  obtain ⟨node, hnode⟩ : ∃ node : MutexNode, node = { lockNum := s.currentMutexNum + 1
                                                      holderTid := NONEXISTENT_THREAD
                                                      next := s.mutexes.front } := ⟨_, rfl⟩
  rw [← hnode]
  have hmap : ∀ t : Machine, t.mutexes.nodes = Function.update s.mutexes.nodes item (some node) →
      (item :: l).map t.numberAt = some (s.currentMutexNum + 1) :: l.map s.numberAt :=
    fun t ht => by
      refine congrArg₂ _ (by simp [numberAt, ht, hnode]) (List.map_congr_left fun n hn => ?_)
      have hne : n ≠ item := fun heq => hnotin (heq ▸ hn)
      simp [numberAt, ht, hne]
  have hunused : some (s.currentMutexNum + 1) ∉ l.map s.numberAt := fun hin =>
    hfresh ((h.exactly _).mp hin).1.inited
  refine ⟨h.linked.cons_fresh hfree (by simp [hnode]), ?_, fun num => ?_, fun num hin => ?_,
    fun q r hr => ?_, fun q r n hr hn => ?_, h.apart⟩
  · rw [hmap _ rfl]
    exact List.nodup_cons.mpr ⟨hunused, h.distinct⟩
  · rw [hmap _ rfl, List.mem_cons, h.exactly]
    change _ ↔ (_ = num ∨ InUse num s.history) ∧ _
    constructor
    · rintro (heq | ⟨hin, hnot⟩)
      · obtain rfl := Option.some.inj heq
        exact ⟨.inl rfl, fun q r hr _ heq => hfresh (heq ▸ h.called q r hr)⟩
      · exact ⟨.inr hin, hnot⟩
    · rintro ⟨rfl | hin, hnot⟩
      · exact .inl rfl
      · exact .inr ⟨hin, hnot⟩
  · rcases List.mem_cons.mp hin with heq | hin
    · cases heq
      exact le_rfl
    · exact (h.known num hin).trans (by change _ ≤ (s.currentMutexNum + 1).toNat; omega)
  · exact List.mem_cons_of_mem _ (h.called q r hr)
  · obtain ⟨hnl, hsome⟩ := h.toFree q r n hr hn
    have hne := hout n hsome
    exact ⟨by simp [hne, hnl], by simpa [hne] using hsome⟩

/-- The node of the mutex leaves the list. -/
theorem unlink {l₁ l₂ : List NodePtr} (h : s.Registry (l₁ ++ n :: l₂))
    (hctl : (s.ctl p).removal = some ⟨num, false, none⟩) (hn : s.numberAt n = some num)
    (hlinked : Linked s'.mutexes.nodes s'.mutexes.front (l₁ ++ l₂))
    (hat : s'.numberAt = s.numberAt)
    (hnum : s'.currentMutexNum = s.currentMutexNum)
    (hctl' : s'.ctl = Function.update s.ctl p (.destroy masked mutex num (.release n)))
    (hhist : s'.history = s.history) : s'.Registry (l₁ ++ l₂) := by
  have hnone : ∀ k, s'.mutexes.nodes k ≠ none ↔ s.mutexes.nodes k ≠ none := fun k => by
    have heq := congrFun hat k
    unfold numberAt at heq
    simpa using not_congr (congrArg (· = none) heq).to_iff
  have hmap : (l₁ ++ n :: l₂).map s.numberAt =
      l₁.map s.numberAt ++ some num :: l₂.map s.numberAt := by simp [hn]
  have hdistinct := h.distinct
  rw [hmap] at hdistinct
  have hgone : some num ∉ (l₁ ++ l₂).map s.numberAt := by
    rw [List.map_append]
    exact (List.nodup_middle.mp hdistinct |> List.nodup_cons.mp).1
  have hin : n ∈ l₁ ++ n :: l₂ := by simp
  have hnl : n ∉ l₁ ++ l₂ := (List.nodup_middle.mp h.linked.nodup |> List.nodup_cons.mp).1
  have hself : (s'.ctl p).removal = some ⟨num, true, some n⟩ := by simp [hctl', Ctl.removal]
  have hother : ∀ q ≠ p, s'.ctl q = s.ctl q := fun q hq => by simp [hctl', hq]
  have hfresh : ∀ q r, (s.ctl q).removal = some r → r.toFree ≠ some n := fun q r hr heq =>
    (h.toFree q r n hr heq).1 hin
  refine ⟨hlinked, ?_, fun m => ?_, fun m hm => ?_, fun q r hr => ?_, fun q r k hr hk => ?_,
    fun q q' r r' k hr hr' hk hk' => ?_⟩
  · rw [hat, List.map_append]
    exact (List.nodup_middle.mp hdistinct |> List.nodup_cons.mp).2
  · rw [hat, hhist]
    by_cases hm : m = num
    · subst hm
      exact iff_of_false hgone fun hall => hall.2 p _ hself rfl rfl
    · have hsame : some m ∈ (l₁ ++ l₂).map s.numberAt ↔
          some m ∈ (l₁ ++ n :: l₂).map s.numberAt := by
        rw [hmap, List.map_append]
        simp [hm]
      rw [hsame, h.exactly]
      refine and_congr_right fun _ => ⟨fun hnot q r hr hun => ?_, fun hnot q r hr hun => ?_⟩
      · by_cases hq : q = p
        · rw [hq, hself] at hr
          cases hr
          exact Ne.symm hm
        · exact hnot q r (hother q hq ▸ hr) hun
      · by_cases hq : q = p
        · rw [hq, hctl] at hr
          cases hr
          cases hun
        · exact hnot q r ((hother q hq).symm ▸ hr) hun
  · rw [hnum]
    exact h.known m (hhist ▸ hm)
  · rw [hhist]
    by_cases hq : q = p
    · rw [hq, hself] at hr
      cases hr
      exact h.called p ⟨num, false, none⟩ hctl
    · exact h.called q r (hother q hq ▸ hr)
  · by_cases hq : q = p
    · rw [hq, hself] at hr
      cases hr
      obtain rfl : n = k := by simpa using hk
      obtain ⟨node, hnode⟩ := h.linked.allocated n hin
      exact ⟨hnl, (hnone n).mpr (by simp [hnode])⟩
    · obtain ⟨hnot, hsome⟩ := h.toFree q r k (hother q hq ▸ hr) hk
      refine ⟨fun hk' => hnot ?_, (hnone k).mpr hsome⟩
      rcases List.mem_append.mp hk' with hk' | hk' <;> simp [hk']
  · have hpn : ∀ q₁ r₁, q₁ ≠ p → (s'.ctl q₁).removal = some r₁ → r₁.toFree ≠ some n :=
      fun q₁ r₁ hq₁ hr₁ => hfresh q₁ r₁ (hother q₁ hq₁ ▸ hr₁)
    by_cases hq : q = p <;> by_cases hq' : q' = p
    · rw [hq, hq']
    · rw [hq, hself] at hr
      cases hr
      exact absurd (hk'.trans hk.symm) (hpn q' r' hq' hr')
    · rw [hq', hself] at hr'
      cases hr'
      exact absurd (hk.trans hk'.symm) (hpn q r hq hr)
    · exact h.apart q q' r r' k (hother q hq ▸ hr) (hother q' hq' ▸ hr') hk hk'

/-- A removal comes to its end, with nothing left to unlink. -/
theorem settle {r₀ : Removal} (h : s.Registry l) (hctl : (s.ctl p).removal = some r₀)
    (hnum : r₀.num = num) (hgone : some num ∉ l.map s.numberAt) :
    (s.goto p (.destroy masked mutex num .unblock)).Registry l := by
  have hself : ((s.goto p (.destroy masked mutex num .unblock)).ctl p).removal =
      some ⟨num, true, none⟩ := by simp [Ctl.removal]
  have hother : ∀ q ≠ p, (s.goto p (.destroy masked mutex num .unblock)).ctl q = s.ctl q :=
    fun q hq => by simp [hq]
  have hfree : ∀ q r n, ((s.goto p (.destroy masked mutex num .unblock)).ctl q).removal = some r →
      r.toFree = some n → (s.ctl q).removal = some r := fun q r n hr hn => by
    by_cases hq : q = p
    · rw [hq, hself] at hr
      cases hr
      cases hn
    · exact hother q hq ▸ hr
  refine ⟨h.linked, h.distinct, fun m => ?_, h.known, fun q r hr => ?_, fun q r n hr hn => ?_,
    fun q q' r r' n hr hr' hn hn' => ?_⟩
  · by_cases hm : m = num
    · subst hm
      exact iff_of_false hgone fun hall => hall.2 p _ hself rfl rfl
    · refine (h.exactly m).trans (and_congr_right fun _ => ⟨fun hnot q r hr hun => ?_,
        fun hnot q r hr hun => ?_⟩)
      · by_cases hq : q = p
        · rw [hq, hself] at hr
          cases hr
          exact Ne.symm hm
        · exact hnot q r (hother q hq ▸ hr) hun
      · by_cases hq : q = p
        · rw [hq, hctl] at hr
          cases hr
          exact hnum ▸ Ne.symm hm
        · exact hnot q r ((hother q hq).symm ▸ hr) hun
  · by_cases hq : q = p
    · rw [hq, hself] at hr
      cases hr
      exact hnum ▸ h.called p r₀ hctl
    · exact h.called q r (hother q hq ▸ hr)
  · exact h.toFree q r n (hfree q r n hr hn) hn
  · exact h.apart q q' r r' n (hfree q r n hr hn) (hfree q' r' n hr' hn') hn hn'

/-- A node off the list is freed. -/
theorem free (h : s.Registry l) (hout : n ∉ l)
    (hnone : ∀ q r, (s.ctl q).removal = some r → r.toFree ≠ some n) :
    ({ s with mutexes :=
      { s.mutexes with nodes := Function.update s.mutexes.nodes n none } }).Registry l := by
  have hne : ∀ k ∈ l, k ≠ n := fun k hk heq => hout (heq ▸ hk)
  have hmap : l.map { s with mutexes :=
      { s.mutexes with nodes := Function.update s.mutexes.nodes n none } }.numberAt =
        l.map s.numberAt :=
    List.map_congr_left fun k hk => by simp [numberAt, hne k hk]
  refine ⟨h.linked.congr fun k hk => by simp [hne k hk], by rw [hmap]; exact h.distinct,
    fun num => by rw [hmap]; exact h.exactly num, h.known, h.called, fun q r k hr hk => ?_, h.apart⟩
  obtain ⟨hnl, hsome⟩ := h.toFree q r k hr hk
  have hkn : k ≠ n := fun heq => hnone q r hr (heq ▸ hk)
  exact ⟨hnl, by simpa [hkn] using hsome⟩

theorem release (h : s.Registry l) (hctl : s.ctl p = .destroy masked mutex num (.release n)) :
    ({ s with mutexes :=
      { s.mutexes with nodes := Function.update s.mutexes.nodes n none } }.goto p
        (.destroy masked mutex num .unblock)).Registry l := by
  have hself : (s.ctl p).removal = some ⟨num, true, some n⟩ := by simp [hctl, Ctl.removal]
  have hgone : some num ∉ l.map s.numberAt := fun hin =>
    ((h.exactly num).mp hin).2 p _ hself rfl rfl
  refine (h.settle hself rfl hgone).free (h.toFree p _ n hself rfl).1 fun q r hr hn => ?_
  by_cases hq : q = p
  · simp only [hq, goto_ctl, Function.update_self, Ctl.removal, Option.some.injEq] at hr
    simp [← hr] at hn
  · have hr' : (s.ctl q).removal = some r := by simpa [hq] using hr
    exact hq (h.apart q p r _ n hr' hself hn rfl)

/-- The call returns. -/
theorem done (h : s.Registry l) (hctl : s.ctl p = .destroy masked mutex num .unblock) :
    ((s.note (.destroyed num)).goto p .program).Registry l := by
  have hself : (s.ctl p).removal = some ⟨num, true, none⟩ := by simp [hctl, Ctl.removal]
  have hstill : ∀ q r, (((s.note (.destroyed num)).goto p .program).ctl q).removal = some r →
      (s.ctl q).removal = some r := fun q r hr => by
    by_cases hq : q = p
    · simp [hq, Ctl.removal] at hr
    · simpa [hq] using hr
  refine ⟨h.linked, h.distinct, fun m => ?_, fun m hm => ?_, fun q r hr => ?_,
    fun q r n hr => h.toFree q r n (hstill q r hr),
    fun q q' r r' n hr hr' => h.apart q q' r r' n (hstill q r hr) (hstill q' r' hr')⟩
  · change _ ↔ (num ≠ m ∧ InUse m s.history) ∧ _
    refine (h.exactly m).trans ⟨fun ⟨hin, hnot⟩ => ⟨⟨hnot p _ hself rfl, hin⟩,
      fun q r hr => hnot q r (hstill q r hr)⟩, fun ⟨⟨hne, hin⟩, hnot⟩ => ⟨hin, fun q r hr hun => ?_⟩⟩
    by_cases hq : q = p
    · rw [hq, hself] at hr
      cases hr
      exact hne
    · exact hnot q r (by simpa [hq] using hr) hun
  · exact h.known m (by simpa using hm)
  · exact List.mem_cons_of_mem _ (h.called q r (hstill q r hr))

end Registry

end Machine

end UserLevelOs.Threads
