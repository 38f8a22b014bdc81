import UserLevelOs.Threads.Registry

/-!
# Destroying a mutex

With the signal blocked, what `worker_mutex_destroy` reads of the list stays so until it has
unlinked the node.  Where the caller still holds the mutex the signal is not blocked, and the
list is exact afterwards if nothing came between the search and the unlinking.

## Main definitions

* `Machine.InHand` — what the function knows of the list with the signal blocked.
* `Machine.Blocked` — that only the running thread can be there.
* `Machine.Alone` — nobody meddles with a call that another thread has under way.
* `Machine.Handled` — what every call knows of the list then, blocked or not.

## Main statements

* `undisturbed_of_execution`.
* `registryExact_of_execution`.
* `registryExact_fails`.
-/

namespace UserLevelOs.Threads

open UserLevelOs.Lib

/-- The variable of the mutex that a call of `worker_mutex_destroy` has not unlinked yet. -/
def Ctl.unlinks : Ctl → Option Addr
  | .destroy _ _ _ (.release _) => none
  | .destroy _ _ _ .unblock => none
  | .destroy _ mutex _ _ => some mutex
  | _ => none

theorem Ctl.destroys_of_unlinks {c : Ctl} (h : c.unlinks ≠ none) : c.destroys = true := by
  cases c <;> first | rfl | exact absurd rfl h

namespace Machine

variable {policy : Policy} {s s' : Machine} {p q : TcbPtr} {n ptr : NodePtr} {e : Event}
  {l : List NodePtr} {num : WorkerMutex} {mutex : Addr} {masked : Bool} {pc : DestroyAt}
  {garbage : Garbage} {es : List Event}

/-- What a call of `worker_mutex_destroy` with the signal blocked knows of the list `l`. -/
def InHand (s : Machine) (l : List NodePtr) (mutex : Addr) (num : WorkerMutex) :
    DestroyAt → Prop
  | .readFront => s.vars mutex = num ∧ some num ∈ l.map s.numberAt
  | .testFront front =>
    s.vars mutex = num ∧ l.head? = some front ∧ some num ∈ l.map s.numberAt
  | .clearFront front => l.head? = some front ∧ s.numberAt front = some num
  | .unlinkFront front => l.head? = some front ∧ s.numberAt front = some num
  | .startWalk front =>
    s.vars mutex = num ∧ ∃ l', l = front :: l' ∧ some num ∈ l'.map s.numberAt
  | .testPtr prev ptr => s.vars mutex = num ∧ ∃ l₁ q l₂, prev = some q ∧ l = l₁ ++ q :: l₂ ∧
      ptr = l₂.head? ∧ some num ∈ l₂.map s.numberAt
  | .advance prev ptr => s.vars mutex = num ∧ ∃ l₁ q l₂, prev = some q ∧
      l = l₁ ++ q :: ptr :: l₂ ∧ some num ∈ l₂.map s.numberAt
  | .clearPtr prev ptr =>
    (∃ l₁ q l₂, prev = some q ∧ l = l₁ ++ q :: ptr :: l₂) ∧ s.numberAt ptr = some num
  | .unlinkPtr prev ptr =>
    (∃ l₁ q l₂, prev = some q ∧ l = l₁ ++ q :: ptr :: l₂) ∧ s.numberAt ptr = some num
  | .release _ => True
  | .unblock => True

/-- A thread that destroys a mutex with the signal blocked runs, and what it has read is so. -/
def Blocked (s : Machine) (l : List NodePtr) : Prop :=
  ∀ q mutex num pc, s.ctl q = .destroy true mutex num pc →
    s.running = some q ∧ s.cpu = .thread ∧ s.InHand l mutex num pc

/-- The event begins to change the list of mutexes, or changes the variable. -/
def meddles (mutex : Addr) : Event → Bool
  | .call (.mutexInit _ _) => true
  | .call (.mutexDestroy _) => true
  | .call (.create thread) => thread == mutex
  | .assign a _ => a == mutex
  | _ => false

/-- The next step does not meddle with a call of `worker_mutex_destroy` that another thread has
under way and that has not unlinked its node. -/
def Alone (s : Machine) (e : Event) : Prop :=
  ∀ q < s.allocated, s.running ≠ some q → ∀ mutex ∈ (s.ctl q).unlinks, meddles mutex e = false

instance : Decidable (s.Alone e) := by
  unfold Alone
  infer_instance

/-- With the signal blocked `worker_mutex_destroy` is sure of what it does. -/
theorem InHand.sure (h : s.InHand l mutex num pc)
    (hl : Linked s.mutexes.nodes s.mutexes.front l) : s.Sure num pc := by
  cases pc with
  | unlinkFront front =>
    obtain ⟨hhead, hnum⟩ := h
    exact ⟨hl.head.trans hhead, hnum⟩
  | unlinkPtr prev ptr =>
    obtain ⟨⟨l₁, q, l₂, rfl, rfl⟩, hnum⟩ := h
    obtain ⟨before, hq, hnext⟩ := hl.split
    exact ⟨⟨q, before, rfl, ⟨_, hl, by simp⟩, hq, hnext.head⟩, hnum⟩
  | testPtr prev ptr =>
    cases ptr with
    | none =>
      obtain ⟨-, l₁, q, l₂, -, -, hhead, hin⟩ := h
      have hnil : l₂ = [] := List.head?_eq_none_iff.mp hhead.symm
      simp [hnil] at hin
    | some ptr => trivial
  | _ => trivial

/-- Unlinking the first node. -/
theorem Registry.unlinkFront {front : NodePtr} {node : MutexNode} (h : s.Registry l)
    (hctl : s.ctl p = .destroy masked mutex num (.unlinkFront front))
    (hsure : s.Sure num (.unlinkFront front)) (hnode : s.mutexes.nodes front = some node) :
    ∃ l', ({ s with mutexes := { s.mutexes with front := node.next } }.goto p
      (.destroy masked mutex num (.release front))).Registry l' := by
  obtain ⟨hfront, hnum⟩ := hsure
  obtain ⟨l', rfl⟩ := List.head?_eq_some_iff.mp (h.linked.head.symm.trans hfront)
  exact ⟨l', Registry.unlink (show s.Registry ([] ++ front :: l') from h)
    (by rw [hctl]; rfl) hnum (h.linked.tail hnode) rfl rfl rfl rfl⟩

/-- Unlinking a node behind another. -/
theorem Registry.unlinkPtr {before node : MutexNode} (h : s.Registry l)
    (hctl : s.ctl p = .destroy masked mutex num (.unlinkPtr (some q) ptr))
    (hsure : s.Sure num (.unlinkPtr (some q) ptr))
    (hnode : s.mutexes.nodes ptr = some node) (hbefore : s.mutexes.nodes q = some before) :
    ∃ l', ({ s with mutexes := s.mutexes.setNode q { before with next := node.next } }.goto p
      (.destroy masked mutex num (.release ptr))).Registry l' := by
  obtain ⟨⟨q', before', hq', hq, hbefore', hnext⟩, hnum⟩ := hsure
  obtain rfl : q = q' := Option.some.inj hq'
  obtain rfl : before = before' := Option.some.inj (hbefore.symm.trans hbefore')
  obtain ⟨l₁, l₂, rfl⟩ := List.append_of_mem ((registered_iff h.linked).mp hq)
  have hrest := h.linked.behind hbefore
  obtain ⟨l₂, rfl⟩ := List.head?_eq_some_iff.mp (hrest.head.symm.trans hnext)
  have hsplit : l₁ ++ q :: ptr :: l₂ = (l₁ ++ [q]) ++ ptr :: l₂ := by simp
  have hself : (s.ctl p).removal = some ⟨num, false, none⟩ := by
    rw [hctl]
    rfl
  refine ⟨(l₁ ++ [q]) ++ l₂, Registry.unlink (hsplit ▸ h) hself hnum ?_ ?_ rfl rfl rfl⟩
  · have hrelinked : Linked (Function.update s.mutexes.nodes q
        (some { before with next := node.next })) s.mutexes.front (l₁ ++ q :: l₂) :=
      h.linked.relink hnode
    simpa [Mutexes.setNode] using hrelinked
  · funext k
    by_cases hk : k = q
    · simp [numberAt, Mutexes.setNode, hk, hbefore]
    · simp [numberAt, Mutexes.setNode, hk]

/-- A statement that only looks, or clears the variable. -/
theorem Registry.look {pc' : DestroyAt} (h : s.Registry l)
    (hctl : s.ctl p = .destroy masked mutex num pc) (hmutexes : s'.mutexes = s.mutexes)
    (hsame : s' = { s with mutexes := s'.mutexes, vars := s'.vars })
    (hold : (Ctl.destroy masked mutex num pc).removal = some ⟨num, false, none⟩)
    (hnew : (Ctl.destroy masked mutex num pc').removal = some ⟨num, false, none⟩) :
    (s'.goto p (.destroy masked mutex num pc')).Registry l := by
  rw [← hctl] at hold
  have hclear : s'.Registry l := by
    rw [hsame, hmutexes]
    exact h.of_same rfl (fun _ => rfl) rfl (fun _ => rfl) ⟨[], rfl, by simp⟩
  have hremoval : (s'.ctl p).removal = some ⟨num, false, none⟩ := by
    rw [hsame]
    exact hold
  refine hclear.move (fun r hr => ?_) ⟨num, hnew, hclear.called p _ hremoval⟩
  rw [hremoval] at hr
  cases hr
  rfl

/-- A statement of `worker_mutex_destroy` that is sure of what it does. -/
theorem Registry.destroyStmt (h : s.Registry l) (hctl : s.ctl p = .destroy masked mutex num pc)
    (hsure : s.Sure num pc) (hok : s.destroyStmt p masked mutex num pc = .ok s') :
    ∃ l', s'.Registry l' := by
  rcases destroyStmt_ok hok with ⟨pc', t, hstep, rfl⟩ | ⟨rfl, rfl⟩
  · cases hstep with
    | unlinkFront hnode => exact h.unlinkFront hctl hsure hnode
    | unlinkPtr hnode hbefore => exact h.unlinkPtr hctl hsure hnode hbefore
    | giveUp prev =>
      have hself : (s.ctl p).removal = some ⟨num, false, none⟩ := by
        rw [hctl]
        rfl
      refine ⟨l, h.settle hself rfl fun hin => ?_⟩
      obtain ⟨n, hn, heq⟩ := List.mem_map.mp hin
      exact hsure n ((registered_iff h.linked).mpr hn) heq
    | release ptr => exact ⟨l, h.release hctl⟩
    | _ => exact ⟨l, h.look hctl rfl rfl rfl rfl⟩
  · exact ⟨l, h.done hctl⟩

/-- With the signal blocked, what has been read is still so after the next statement. -/
theorem InHand.destroyStep {pc' : DestroyAt} (h : s.InHand l mutex num pc)
    (hl : Linked s.mutexes.nodes s.mutexes.front l) (hstep : s.DestroyStep mutex pc pc' s')
    {l' : List NodePtr} (hl' : Linked s'.mutexes.nodes s'.mutexes.front l') :
    s'.InHand l' mutex num pc' := by
  cases hstep with
  | readFront hfront =>
    obtain rfl := hl.unique hl'
    obtain ⟨hvars, hin⟩ := h
    exact ⟨hvars, hl.head.symm.trans hfront, hin⟩
  | frontIs hnode hnum =>
    obtain rfl := hl.unique hl'
    obtain ⟨hvars, hhead, -⟩ := h
    exact ⟨hhead, by simp [numberAt, hnode, hnum, hvars]⟩
  | frontIsNot hnode hnum =>
    obtain rfl := hl.unique hl'
    obtain ⟨hvars, hhead, hin⟩ := h
    obtain ⟨l, rfl⟩ := List.head?_eq_some_iff.mp hhead
    refine ⟨hvars, l, rfl, (List.mem_cons.mp hin).resolve_left fun heq => hnum ?_⟩
    simpa [numberAt, hnode, hvars, eq_comm] using heq
  | clearFront front =>
    obtain rfl := hl.unique hl'
    exact h
  | startWalk hnode =>
    obtain rfl := hl.unique hl'
    obtain ⟨hvars, rest, rfl, hin⟩ := h
    exact ⟨hvars, [], _, rest, rfl, rfl, (hl.tail hnode).head, hin⟩
  | ptrIs hnode hnum =>
    obtain rfl := hl.unique hl'
    obtain ⟨hvars, l₁, q, l₂, rfl, rfl, hhead, hin⟩ := h
    obtain ⟨l₃, rfl⟩ := List.head?_eq_some_iff.mp hhead.symm
    exact ⟨⟨l₁, q, l₃, rfl, rfl⟩, by simp [numberAt, hnode, hnum, hvars]⟩
  | ptrIsNot hnode hnum =>
    obtain rfl := hl.unique hl'
    obtain ⟨hvars, l₁, q, l₂, rfl, rfl, hhead, hin⟩ := h
    obtain ⟨l₃, rfl⟩ := List.head?_eq_some_iff.mp hhead.symm
    refine ⟨hvars, l₁, q, l₃, rfl, rfl, (List.mem_cons.mp hin).resolve_left fun heq => hnum ?_⟩
    simpa [numberAt, hnode, hvars, eq_comm] using heq
  | clearPtr prev ptr =>
    obtain rfl := hl.unique hl'
    exact h
  | @advance prev ptr _ _ hbefore hnode =>
    obtain rfl := hl.unique hl'
    obtain ⟨hvars, l₁, q, l₂, hq, rfl, hin⟩ := h
    obtain rfl := Option.some.inj hq
    have hrest := hl.behind hbefore
    exact ⟨hvars, l₁ ++ [prev], ptr, l₂, hrest.head, by simp, (hrest.tail hnode).head, hin⟩
  -- the node is off the list, or has not been found
  | unlinkFront | giveUp | unlinkPtr | release => trivial

/-! ## Every step -/

/-- A statement of `worker_mutex_destroy` leaves the processor with its thread. -/
theorem destroyStmt_frame (h : s.destroyStmt p masked mutex num pc = .ok s') :
    s'.cpu = s.cpu ∧ s'.running = s.running ∧ s'.currentMutexNum = s.currentMutexNum ∧
      ∀ q ≠ p, s'.ctl q = s.ctl q := by
  rcases destroyStmt_ok h with ⟨pc', t, hstep, rfl⟩ | ⟨-, rfl⟩
  · rw [hstep.eq]
    exact ⟨rfl, rfl, rfl, fun q hq => by simp [hq]⟩
  · exact ⟨rfl, rfl, rfl, fun q hq => by simp [hq]⟩

/-- What the calls other than `worker_mutex_init` and `worker_mutex_destroy` do with a mutex. -/
theorem Registry.setHolder {node : MutexNode} {tid : Worker} (h : s.Registry l)
    (hn : s.mutexes.nodes n = some node) : (s.setHolder n node tid).Registry l := by
  refine h.of_same rfl (fun k => ?_) rfl (fun _ => rfl) ⟨[], rfl, by simp⟩
  by_cases hk : k = n
  · simp [Mutexes.setNode, hk, hn]
  · simp [Mutexes.setNode, hk]

theorem numberAt_setHolder {node : MutexNode} (hn : s.mutexes.nodes n = some node) (tid : Worker) :
    (s.setHolder n node tid).numberAt = s.numberAt := by
  funext k
  by_cases hk : k = n
  · simp [numberAt, Mutexes.setNode, hk, hn]
  · simp [numberAt, Mutexes.setNode, hk]

theorem Registry.lock (h : s.Registry l) (hctl : (s.ctl p).destroys = false)
    (hok : s.workerMutexLock p mutex = .ok s') :
    s'.Registry l ∧ ∀ q, (s'.ctl q).destroys = true → s'.ctl q = s.ctl q := by
  have hremoval := Ctl.removal_of_not_destroys hctl
  obtain ⟨n, node, hn, -, ⟨-, rfl⟩ | ⟨-, rfl⟩⟩ := workerMutexLock_ok hok
  · refine ⟨(h.setHolder hn).of_same rfl (fun _ => rfl) rfl (fun q => ?_)
      ⟨[.locked p n], rfl, by simp⟩, fun q hq => ?_⟩
    all_goals
      by_cases hqp : q = p
      · simp_all [Ctl.removal, Ctl.destroys]
      · simp [hqp]
  · refine ⟨h.of_same rfl (fun _ => rfl) rfl (fun q => ?_) ⟨[], rfl, by simp⟩, fun q hq => ?_⟩
    all_goals
      by_cases hqp : q = p
      · simp_all [Ctl.removal, Ctl.destroys]
      · simp [hqp]

theorem Registry.unlock (h : s.Registry l) (hok : s.workerMutexUnlock p mutex = .ok s') :
    s'.Registry l ∧ s'.ctl = s.ctl := by
  obtain ⟨n, node, hn, -, -, rfl⟩ := workerMutexUnlock_ok hok
  exact ⟨(h.setHolder hn).of_same rfl (fun _ => rfl) rfl (fun _ => rfl)
    ⟨[.unlocking p n], rfl, by simp⟩, rfl⟩

theorem Registry.aside (h : s.Registry l) (haside : Aside p s s') : s'.Registry l := by
  refine h.of_same (by rw [haside.mutexes]) (fun _ => by rw [haside.mutexes])
    haside.currentMutexNum (fun q => ?_) ?_
  · by_cases hq : (s.ctl q).destroys ∨ (s'.ctl q).destroys
    · rw [haside.destroys q hq]
    · simp only [not_or, Bool.not_eq_true] at hq
      rw [Ctl.removal_of_not_destroys hq.1, Ctl.removal_of_not_destroys hq.2]
  · obtain ⟨notes, hnotes, hsilent⟩ := haside.history
    refine ⟨notes, hnotes, fun n hn m => ?_⟩
    have := hsilent n hn
    constructor <;> rintro rfl <;> simp [Note.aboutMutex] at this

/-- With the signal blocked, the next statement of `worker_mutex_destroy` is all that can come. -/
theorem execThread_blocked (hctl : s.ctl p = .destroy true mutex num pc)
    (h : s.execThread p e = .ok s') : s.destroyStmt p true mutex num pc = .ok s' := by
  cases e with
  | proceed elapsed => simpa [execThread, proceed, hctl] using h
  | _ => simp [execThread, hctl, Ctl.masked] at h

/-- Nobody else is in `worker_mutex_destroy` with the signal blocked. -/
theorem Blocked.eq (hb : s.Blocked l) (hrun : s.running = some p)
    (hq : s.ctl q = .destroy true mutex num pc) : q = p := by
  simpa [hrun, eq_comm] using (hb q _ _ _ hq).1

theorem Registry.stmt (h : s.Registry l) (hb : s.Blocked l) (hrun : s.running = some p)
    (hcpu : s.cpu = .thread) (hctl : s.ctl p = .destroy masked mutex num pc)
    (hsure : masked = false → s.Sure num pc)
    (hok : s.destroyStmt p masked mutex num pc = .ok s') :
    ∃ l', s'.Registry l' ∧ s'.Blocked l' := by
  have hsure' : s.Sure num pc := by
    cases masked with
    | false => exact hsure rfl
    | true => exact (hb p _ _ _ hctl).2.2.sure h.linked
  obtain ⟨l', h'⟩ := h.destroyStmt hctl hsure' hok
  obtain ⟨hcpu', hrun', -, hothers⟩ := destroyStmt_frame hok
  refine ⟨l', h', fun q mutex' num' pc' hq => ?_⟩
  obtain rfl : q = p := by
    by_contra hne
    exact hne (hb.eq hrun (hothers q hne ▸ hq))
  refine ⟨hrun'.trans hrun, hcpu'.trans hcpu, ?_⟩
  rcases destroyStmt_ok hok with ⟨pc', t, hstep, rfl⟩ | ⟨-, rfl⟩
  · simp only [goto_ctl, Function.update_self, Ctl.destroy.injEq] at hq
    obtain ⟨rfl, rfl, rfl, rfl⟩ := hq
    exact (hb q _ _ _ hctl).2.2.destroyStep h.linked hstep h'.linked
  · simp at hq

/-- A call of `worker_mutex_destroy` finds the mutex on the list. -/
theorem Registry.destroy (h : s.Registry l) (hrun : s.running = some p) (hcpu : s.cpu = .thread)
    (hctl : s.ctl p = .program)
    (hnone : ∀ q mutex num pc, s.ctl q ≠ .destroy true mutex num pc)
    (hok : s.workerMutexDestroy p mutex = .ok s') : s'.Registry l ∧ s'.Blocked l := by
  obtain ⟨n, node, hfetch, hn, hnum, hcases⟩ := workerMutexDestroy_ok hok
  have hin : some (s.vars mutex) ∈ l.map s.numberAt :=
    List.mem_map.mpr ⟨n, h.linked.fetchLoop_mem hfetch, by simp [numberAt, hn, hnum]⟩
  have hinited := ((h.exactly _).mp hin).1.inited
  have hold : (s.ctl p).removal = none := by
    rw [hctl]
    rfl
  rcases hcases with rfl | ⟨s₁, hunlock, rfl⟩
  · refine ⟨h.move (by simp [hold]) ⟨_, rfl, hinited⟩, fun q mutex' num' pc' hq => ?_⟩
    by_cases hqp : q = p
    · subst hqp
      simp only [goto_ctl, Function.update_self, Ctl.destroy.injEq, true_and] at hq
      obtain ⟨rfl, rfl, rfl⟩ := hq
      exact ⟨hrun, hcpu, rfl, hin⟩
    · exact absurd (by simpa [hqp] using hq) (hnone q mutex' num' pc')
  · obtain ⟨h₁, hctl₁⟩ := h.unlock hunlock
    have hhist : .inited (s.vars mutex) ∈ s₁.history := by
      obtain ⟨k, node', -, -, -, rfl⟩ := workerMutexUnlock_ok hunlock
      exact List.mem_cons_of_mem _ hinited
    refine ⟨h₁.move (by simp [hctl₁, hold]) ⟨_, rfl, hhist⟩, fun q mutex' num' pc' hq => ?_⟩
    by_cases hqp : q = p
    · simp [hqp] at hq
    · exact absurd (by simpa [hqp, hctl₁] using hq) (hnone q mutex' num' pc')

theorem Registry.exec (h : s.Registry l) (hb : s.Blocked l) (hp : s.Placed policy)
    (hlt : inits e = true → s.currentMutexNum.toNat + 1 < 2 ^ 32) (hsure : s.Undisturbed e)
    (hok : s.exec policy e = .ok s') : ∃ l', s'.Registry l' ∧ s'.Blocked l' := by
  rcases exec_cases hok with ⟨p, hcpu, hrun, hok⟩ | ⟨-, hcpu, hok⟩ | ⟨p, -, hcpu, hrun, hok⟩
  · by_cases hmasked : ∃ mutex num pc, s.ctl p = .destroy true mutex num pc
    · obtain ⟨mutex, num, pc, hctl⟩ := hmasked
      exact h.stmt hb hrun hcpu hctl (by simp) (execThread_blocked hctl hok)
    · have hnone : ∀ q mutex num pc, s.ctl q ≠ .destroy true mutex num pc :=
        fun q mutex num pc hq => hmasked ⟨mutex, num, pc, hb.eq hrun hq ▸ hq⟩
      have hblocked : (∀ q, (s'.ctl q).destroys = true → s'.ctl q = s.ctl q) → ∀ l', s'.Blocked l' :=
        fun hsame l' q mutex num pc hq => by
          have heq := hsame q (by simp [hq, Ctl.destroys])
          exact absurd (heq.symm.trans hq) (hnone q mutex num pc)
      rcases execThread_mutex hok with hmutex | haside
      · cases hmutex with
        | init mutex item hctl hok =>
          have h' := h.init (hlt rfl) hok
          obtain ⟨-, rfl⟩ := workerMutexInit_ok hok
          exact ⟨_, h', hblocked (fun _ _ => rfl) _⟩
        | lock mutex hctl hok =>
          obtain ⟨h', hsame⟩ := h.lock (by rw [hctl]; rfl) hok
          exact ⟨l, h', hblocked hsame l⟩
        | relock elapsed mutex hctl hok =>
          obtain ⟨h', hsame⟩ := h.lock (by rw [hctl]; rfl) hok
          exact ⟨l, h', hblocked hsame l⟩
        | unlock mutex hctl hok =>
          obtain ⟨h', hsame⟩ := h.unlock hok
          exact ⟨l, h', hblocked (fun _ _ => by rw [hsame]) l⟩
        | destroy mutex hctl hok => exact ⟨l, h.destroy hrun hcpu hctl hnone hok⟩
        | destroyStmt elapsed masked mutex num pc hctl hok =>
          refine h.stmt hb hrun hcpu hctl (fun hm => ?_) hok
          subst hm
          exact hsure p mutex num pc elapsed hrun hctl rfl
      · exact ⟨l, h.aside haside, hblocked (fun q hq => haside.destroys q (.inr hq)) l⟩
  · have hround := hp.rescheduled hok
    refine ⟨l, h.of_same (by rw [hround.mutexes]) (fun _ => by rw [hround.mutexes])
      hround.currentMutexNum (fun q => by rw [hround.ctl]) ⟨[], hround.history, by simp⟩,
      fun q mutex num pc hq => ?_⟩
    have := (hb q mutex num pc (hround.ctl ▸ hq)).2.1
    simp [hcpu] at this
  · obtain ⟨l', notes, -, hstores, rfl⟩ := cleanExitedWorkerThread_ok hok
    refine ⟨l, h.of_same rfl (fun _ => rfl) rfl (fun _ => rfl) ⟨notes, rfl, fun n hn m => ?_⟩,
      fun q mutex num pc hq => ?_⟩
    · obtain ⟨-, -, -, rfl⟩ := hstores.only n hn
      simp
    · have := (hb q mutex num pc hq).2.1
      simp [hcpu] at this

/-! ## Nobody meddles -/

/-- What a call knows depends on its variable and on the numbers of the nodes on the list. -/
theorem InHand.congr (h : s.InHand l mutex num pc) (hvars : s'.vars mutex = s.vars mutex)
    (hat : ∀ n ∈ l, s'.numberAt n = s.numberAt n) : s'.InHand l mutex num pc := by
  have hmap : ∀ l', l' ⊆ l → l'.map s'.numberAt = l'.map s.numberAt := fun l' hsub =>
    List.map_congr_left fun n hn => hat n (hsub hn)
  cases pc with
  | readFront =>
    obtain ⟨hnum, hin⟩ := h
    exact ⟨hvars.trans hnum, by rwa [hmap l (List.Subset.refl l)]⟩
  | testFront front =>
    obtain ⟨hnum, hhead, hin⟩ := h
    exact ⟨hvars.trans hnum, hhead, by rwa [hmap l (List.Subset.refl l)]⟩
  | clearFront front =>
    obtain ⟨hhead, hnum⟩ := h
    exact ⟨hhead, (hat front (List.mem_of_mem_head? hhead)).trans hnum⟩
  | unlinkFront front =>
    obtain ⟨hhead, hnum⟩ := h
    exact ⟨hhead, (hat front (List.mem_of_mem_head? hhead)).trans hnum⟩
  | startWalk front =>
    obtain ⟨hnum, l', rfl, hin⟩ := h
    exact ⟨hvars.trans hnum, l', rfl, by rwa [hmap l' (List.subset_cons_self front l')]⟩
  | testPtr prev ptr =>
    obtain ⟨hnum, l₁, q, l₂, hprev, rfl, hhead, hin⟩ := h
    refine ⟨hvars.trans hnum, l₁, q, l₂, hprev, rfl, hhead, ?_⟩
    rwa [hmap l₂ fun n hn => by simp [hn]]
  | advance prev ptr =>
    obtain ⟨hnum, l₁, q, l₂, hprev, rfl, hin⟩ := h
    refine ⟨hvars.trans hnum, l₁, q, l₂, hprev, rfl, ?_⟩
    rwa [hmap l₂ fun n hn => by simp [hn]]
  | clearPtr prev ptr =>
    obtain ⟨⟨l₁, q, l₂, hprev, rfl⟩, hnum⟩ := h
    exact ⟨⟨l₁, q, l₂, hprev, rfl⟩, (hat ptr (by simp)).trans hnum⟩
  | unlinkPtr prev ptr =>
    obtain ⟨⟨l₁, q, l₂, hprev, rfl⟩, hnum⟩ := h
    exact ⟨⟨l₁, q, l₂, hprev, rfl⟩, (hat ptr (by simp)).trans hnum⟩
  | release n => trivial
  | unblock => trivial

/-- A step of a thread writes a variable only if it meddles with it, or is a statement of
`worker_mutex_destroy`. -/
theorem ThreadStep.vars_eq {a : Addr} (h : ThreadStep s p e s') (hquiet : meddles a e = false) :
    s'.vars a = s.vars a ∨ ∃ masked mutex num pc, s.ctl p = .destroy masked mutex num pc ∧
      s.destroyStmt p masked mutex num pc = .ok s' := by
  cases h with
  | join hjoin =>
    left
    cases hjoin with
    | call thread valuePtr hctl =>
      unfold workerJoin
      dsimp only
      split <;> rfl
    | store elapsed ended thread valuePtr s₁ hctl hstore =>
      rcases storeIf_ok hstore with ⟨-, -, rfl⟩ | ⟨-, rfl⟩ <;> rfl
    | _ => rfl
  | mutex hmutex =>
    cases hmutex with
    | init mutex item hctl hok => cases hquiet
    | lock mutex hctl hok =>
      obtain ⟨n, node, -, -, ⟨-, rfl⟩ | ⟨-, rfl⟩⟩ := workerMutexLock_ok hok <;> exact .inl rfl
    | relock elapsed mutex hctl hok =>
      obtain ⟨n, node, -, -, ⟨-, rfl⟩ | ⟨-, rfl⟩⟩ := workerMutexLock_ok hok <;> exact .inl rfl
    | unlock mutex hctl hok =>
      obtain ⟨n, node, -, -, -, rfl⟩ := workerMutexUnlock_ok hok
      exact .inl rfl
    | destroy mutex hctl hok => cases hquiet
    | destroyStmt elapsed masked mutex num pc hctl hok =>
      exact .inr ⟨masked, mutex, num, pc, hctl, hok⟩
  | assign a' v hctl =>
    have hne : a' ≠ a := beq_eq_false_iff_ne.mp hquiet
    exact .inl (Function.update_of_ne hne.symm _ _)
  | create thread hctl =>
    have hne : thread ≠ a := beq_eq_false_iff_ne.mp hquiet
    exact .inl (Function.update_of_ne hne.symm _ _)
  | enqueue elapsed q hctl => exact .inl (by simp [enqueueCreated])
  | yieldStmt elapsed pc caller hctl => cases pc <;> exact .inl rfl
  | _ => exact .inl rfl

/-- A thread in `worker_mutex_destroy` does not meddle with its own call. -/
theorem ThreadStep.quiet {a : Addr} (h : ThreadStep s p e s') (hctl : (s.ctl p).unlinks ≠ none) :
    meddles a e = false := by
  cases h with
  | join hjoin => cases hjoin <;> rfl
  | mutex hmutex => cases hmutex <;> first | rfl | simp_all [Ctl.unlinks]
  | create thread hprogram => simp [hprogram, Ctl.unlinks] at hctl
  | assign a' v hprogram => simp [hprogram, Ctl.unlinks] at hctl
  | _ => rfl

/-- Holders are neither numbers nor variables. -/
theorem workerMutexLock_numbers (hok : s.workerMutexLock p mutex = .ok s') :
    s'.vars = s.vars ∧ s'.numberAt = s.numberAt := by
  obtain ⟨n, node, hn, -, ⟨-, rfl⟩ | ⟨-, rfl⟩⟩ := workerMutexLock_ok hok
  · exact ⟨rfl, numberAt_setHolder hn _⟩
  · exact ⟨rfl, rfl⟩

theorem workerMutexUnlock_numbers (hok : s.workerMutexUnlock p mutex = .ok s') :
    s'.vars = s.vars ∧ s'.numberAt = s.numberAt := by
  obtain ⟨n, node, hn, -, -, rfl⟩ := workerMutexUnlock_ok hok
  exact ⟨rfl, numberAt_setHolder hn _⟩

/-- Every call of `worker_mutex_destroy` knows where it is, and one at most has not unlinked its
node. -/
structure Handled (s : Machine) (l : List NodePtr) : Prop where
  inHand : ∀ q masked mutex num pc, s.ctl q = .destroy masked mutex num pc →
    s.InHand l mutex num pc
  once : ∀ q q', (s.ctl q).unlinks ≠ none → (s.ctl q').unlinks ≠ none → q = q'

namespace Handled

/-- The node of every call but that of `p` is unlinked. -/
theorem of_alone (hnone : ∀ q ≠ p, (s.ctl q).unlinks = none)
    (hown : ∀ masked mutex num pc, s.ctl p = .destroy masked mutex num pc →
      s.InHand l mutex num pc) : s.Handled l := by
  refine ⟨fun q masked mutex num pc hq => ?_, fun q q' hq hq' => ?_⟩
  · by_cases hqp : q = p
    · exact hown masked mutex num pc (hqp ▸ hq)
    · have hdone := hnone q hqp
      rw [hq] at hdone
      cases pc <;> trivial
  · rw [not_imp_comm.mp (hnone q) hq, not_imp_comm.mp (hnone q') hq']

/-- A step that changes nothing that the calls under way know of. -/
theorem of_same (h : s.Handled l)
    (hvars : ∀ q, ∀ mutex ∈ (s.ctl q).unlinks, s'.vars mutex = s.vars mutex)
    (hat : ∀ n ∈ l, s'.numberAt n = s.numberAt n)
    (hctl : ∀ q, (s'.ctl q).unlinks ≠ none → s'.ctl q = s.ctl q) : s'.Handled l := by
  refine ⟨fun q masked mutex num pc hq => ?_, fun q q' hq hq' => ?_⟩
  · by_cases hdone : (s'.ctl q).unlinks = none
    · rw [hq] at hdone
      cases pc <;> trivial
    · have heq : s.ctl q = .destroy masked mutex num pc := (hctl q hdone).symm.trans hq
      refine (h.inHand q masked mutex num pc heq).congr (hvars q mutex ?_) hat
      rw [hq] at hdone
      rw [heq]
      cases pc <;> first | rfl | exact absurd rfl hdone
  · exact h.once q q' (hctl q hq ▸ hq) (hctl q' hq' ▸ hq')

/-- A statement of `worker_mutex_destroy`. -/
theorem stmt {l' : List NodePtr} (h : s.Handled l) (hl : s.Registry l)
    (hctl : s.ctl p = .destroy masked mutex num pc)
    (hok : s.destroyStmt p masked mutex num pc = .ok s')
    (hl' : Linked s'.mutexes.nodes s'.mutexes.front l') : s'.Handled l' := by
  obtain ⟨-, -, -, hothers⟩ := destroyStmt_frame hok
  by_cases hdone : (s.ctl p).unlinks = none
  · -- what is left is to free the node and to return
    rw [hctl] at hdone
    rcases destroyStmt_ok hok with ⟨pc', t, hstep, rfl⟩ | ⟨rfl, rfl⟩
    · cases hstep with
      | release ptr =>
        have hself : (s.ctl p).removal = some ⟨num, true, some ptr⟩ := by
          rw [hctl]
          rfl
        have hout : ∀ n ∈ l, n ≠ ptr := fun n hn heq =>
          (hl.toFree p _ ptr hself rfl).1 (heq ▸ hn)
        have hsame : Linked (Function.update s.mutexes.nodes ptr none) s.mutexes.front l :=
          hl.linked.congr fun n hn => by simp [hout n hn]
        obtain rfl := hsame.unique hl'
        refine h.of_same (fun _ _ _ => rfl) (fun n hn => by simp [numberAt, hout n hn])
          fun q hq => hothers q fun heq => ?_
        simp [heq, Ctl.unlinks] at hq
      | _ => cases hdone
    · obtain rfl := hl.linked.unique hl'
      refine h.of_same (fun _ _ _ => rfl) (fun _ _ => rfl) fun q hq => hothers q fun heq => ?_
      simp [heq, Ctl.unlinks] at hq
  · refine of_alone (p := p) (fun q hq => ?_) fun masked' mutex' num' pc' hq => ?_
    · by_contra hopen
      rw [hothers q hq] at hopen
      exact hq (h.once q p hopen hdone)
    · rcases destroyStmt_ok hok with ⟨pc', t, hstep, rfl⟩ | ⟨rfl, rfl⟩
      · simp only [goto_ctl, Function.update_self, Ctl.destroy.injEq] at hq
        obtain ⟨rfl, rfl, rfl, rfl⟩ := hq
        exact (h.inHand p _ _ _ _ hctl).destroyStep hl.linked hstep hl'
      · simp [hctl, Ctl.unlinks] at hdone

theorem lock {l' : List NodePtr} (h : s.Handled l) (hl : s.Registry l)
    (hctl : (s.ctl p).destroys = false) (hok : s.workerMutexLock p mutex = .ok s')
    (hl' : Linked s'.mutexes.nodes s'.mutexes.front l') : s'.Handled l' := by
  obtain ⟨h', hsame⟩ := hl.lock hctl hok
  obtain rfl := h'.linked.unique hl'
  obtain ⟨hvars, hat⟩ := workerMutexLock_numbers hok
  exact h.of_same (fun _ _ _ => by rw [hvars]) (fun n _ => by rw [hat])
    fun q hq => hsame q (Ctl.destroys_of_unlinks hq)

/-- A call of `worker_mutex_destroy` begins with the mutex on the list. -/
theorem destroy {l' : List NodePtr} (hl : s.Registry l)
    (hnone : ∀ q ≠ p, (s.ctl q).unlinks = none) (hok : s.workerMutexDestroy p mutex = .ok s')
    (hl' : Linked s'.mutexes.nodes s'.mutexes.front l') : s'.Handled l' := by
  obtain ⟨n, node, hfetch, hn, hnum, hcases⟩ := workerMutexDestroy_ok hok
  have hin : some (s.vars mutex) ∈ l.map s.numberAt :=
    List.mem_map.mpr ⟨n, hl.linked.fetchLoop_mem hfetch, by simp [numberAt, hn, hnum]⟩
  rcases hcases with rfl | ⟨s₁, hunlock, rfl⟩
  · obtain rfl := hl.linked.unique hl'
    refine of_alone (p := p) (fun q hq => by simpa [hq] using hnone q hq) fun _ _ _ _ hq => ?_
    simp only [goto_ctl, Function.update_self, Ctl.destroy.injEq] at hq
    obtain ⟨-, rfl, rfl, rfl⟩ := hq
    exact ⟨rfl, hin⟩
  · obtain ⟨h₁, hctl₁⟩ := hl.unlock hunlock
    obtain ⟨hvars, hat⟩ := workerMutexUnlock_numbers hunlock
    obtain rfl := h₁.linked.unique hl'
    refine of_alone (p := p) (fun q hq => by simpa [hq, hctl₁] using hnone q hq) fun _ _ _ _ hq => ?_
    simp only [goto_ctl, Function.update_self, Ctl.destroy.injEq] at hq
    obtain ⟨-, rfl, rfl, rfl⟩ := hq
    refine ⟨congrFun hvars mutex, ?_⟩
    change _ ∈ l.map s₁.numberAt
    rwa [hat]

/-- A step of the running thread `p`, when nobody meddles. -/
theorem execThread {l' : List NodePtr} (h : s.Handled l) (hl : s.Registry l)
    (hquiet : ∀ q ≠ p, ∀ mutex ∈ (s.ctl q).unlinks, meddles mutex e = false)
    (hok : s.execThread p e = .ok s') (hl' : Linked s'.mutexes.nodes s'.mutexes.front l') :
    s'.Handled l' := by
  have hnone : (∀ a, meddles a e = true) → ∀ q ≠ p, (s.ctl q).unlinks = none := fun hall q hq => by
    by_contra hopen
    obtain ⟨a, ha⟩ := Option.ne_none_iff_exists'.mp hopen
    have := hquiet q hq a ha
    simp [hall a] at this
  rcases execThread_mutex hok with hmutex | haside
  · cases hmutex with
    | init mutex item hctl hok =>
      obtain ⟨-, rfl⟩ := workerMutexInit_ok hok
      refine of_alone (p := p) (hnone fun _ => rfl) fun _ _ _ _ hq => ?_
      exact absurd (hctl.symm.trans hq) (by simp)
    | lock mutex hctl hok => exact h.lock hl (by rw [hctl]; rfl) hok hl'
    | relock elapsed mutex hctl hok => exact h.lock hl (by rw [hctl]; rfl) hok hl'
    | unlock mutex hctl hok =>
      obtain ⟨h', hsame⟩ := hl.unlock hok
      obtain rfl := h'.linked.unique hl'
      obtain ⟨hvars, hat⟩ := workerMutexUnlock_numbers hok
      exact h.of_same (fun _ _ _ => by rw [hvars]) (fun n _ => by rw [hat]) fun q _ => by rw [hsame]
    | destroy mutex hctl hok => exact destroy hl (hnone fun _ => rfl) hok hl'
    | destroyStmt elapsed masked mutex num pc hctl hok => exact h.stmt hl hctl hok hl'
  · obtain rfl := hl.linked.unique (haside.mutexes ▸ hl')
    have hstep := execThread_ok hok
    by_cases hstmt : ∃ masked mutex num pc, s.ctl p = .destroy masked mutex num pc ∧
        s.destroyStmt p masked mutex num pc = .ok s'
    · obtain ⟨masked, mutex, num, pc, hctl, hok⟩ := hstmt
      exact h.stmt hl hctl hok hl'
    · refine h.of_same (fun q a ha => ?_) (fun n _ => by rw [numberAt, numberAt, haside.mutexes])
        fun q hq => haside.destroys q (.inr (Ctl.destroys_of_unlinks hq))
      refine (hstep.vars_eq ?_).resolve_right hstmt
      by_cases hqp : q = p
      · exact hstep.quiet (hqp ▸ Option.ne_none_iff_exists'.mpr ⟨a, ha⟩)
      · exact hquiet q hqp a ha

theorem exec {l' : List NodePtr} (h : s.Handled l) (hl : s.Registry l) (hp : s.Placed policy)
    (hidle : ∀ q, s.allocated ≤ q → s.ctl q = .program) (halone : s.Alone e)
    (hok : s.exec policy e = .ok s') (hl' : Linked s'.mutexes.nodes s'.mutexes.front l') :
    s'.Handled l' := by
  rcases exec_cases hok with ⟨p, -, hrun, hok⟩ | ⟨-, -, hok⟩ | ⟨p, -, -, -, hok⟩
  · refine h.execThread hl (fun q hq mutex hm => ?_) hok hl'
    refine halone q ?_ (by simpa [hrun] using hq.symm) mutex hm
    by_contra hge
    rw [hidle q (Nat.not_lt.mp hge)] at hm
    cases hm
  · have hround := hp.rescheduled hok
    obtain rfl := hl.linked.unique (hround.mutexes ▸ hl')
    exact h.of_same (fun _ _ _ => by rw [hround.vars])
      (fun n _ => by rw [numberAt, numberAt, hround.mutexes]) fun q _ => by rw [hround.ctl]
  · obtain ⟨l₁, notes, -, -, rfl⟩ := cleanExitedWorkerThread_ok hok
    obtain rfl := hl.linked.unique hl'
    exact h.of_same (fun _ _ _ => rfl) (fun _ _ => rfl) fun _ _ => rfl

/-- Who knows where it is, is sure. -/
theorem undisturbed (h : s.Handled l) (hl : s.Registry l) : s.Undisturbed e :=
  fun p mutex num pc _ _ hctl _ => (h.inHand p false mutex num pc hctl).sure hl.linked

end Handled

/-- Numbers of mutexes are given out one after another. -/
theorem currentMutexNum_le {ok : Machine → Event → Prop}
    (h : Execution (Machine.exec policy) ok (initLibrary garbage) es s) :
    s.currentMutexNum.toNat ≤ es.countP inits := by
  induction h with
  | start => exact le_rfl
  | @snoc es s s' e hes _ hok ih =>
    have hle : es.countP inits ≤ (es ++ [e]).countP inits := by
      rw [List.countP_append]
      exact Nat.le_add_right _ _
    have hsame : s'.currentMutexNum = s.currentMutexNum →
        s'.currentMutexNum.toNat ≤ (es ++ [e]).countP inits := fun heq => heq ▸ ih.trans hle
    rcases exec_cases hok with ⟨p, -, -, hok⟩ | ⟨-, -, hok⟩ | ⟨p, -, -, -, hok⟩
    · rcases execThread_mutex hok with hmutex | haside
      · cases hmutex with
        | init mutex item hctl hok =>
          obtain ⟨-, rfl⟩ := workerMutexInit_ok hok
          rw [List.countP_append]
          change (s.currentMutexNum + 1).toNat ≤ _ + 1
          have := Nat.mod_le (s.currentMutexNum.toNat + 1) (2 ^ 32)
          rw [UInt32.toNat_add]
          exact this.trans (Nat.add_le_add_right ih 1)
        | lock mutex hctl hok =>
          obtain ⟨n, node, -, -, ⟨-, rfl⟩ | ⟨-, rfl⟩⟩ := workerMutexLock_ok hok <;> exact hsame rfl
        | relock elapsed mutex hctl hok =>
          obtain ⟨n, node, -, -, ⟨-, rfl⟩ | ⟨-, rfl⟩⟩ := workerMutexLock_ok hok <;> exact hsame rfl
        | unlock mutex hctl hok =>
          obtain ⟨n, node, -, -, -, rfl⟩ := workerMutexUnlock_ok hok
          exact hsame rfl
        | destroy mutex hctl hok =>
          obtain ⟨n, node, -, -, -, rfl | ⟨s₁, hunlock, rfl⟩⟩ := workerMutexDestroy_ok hok
          · exact hsame rfl
          · obtain ⟨k, node', -, -, -, rfl⟩ := workerMutexUnlock_ok hunlock
            exact hsame rfl
        | destroyStmt elapsed masked mutex num pc hctl hok =>
          exact hsame (destroyStmt_frame hok).2.2.1
      · exact hsame haside.currentMutexNum
    · exact hsame ((placed_of_execution hes).rescheduled hok).currentMutexNum
    · obtain ⟨l', notes, -, -, rfl⟩ := cleanExitedWorkerThread_ok hok
      exact hsame rfl

theorem Registry.initLibrary (hempty : garbage.front = none) :
    (initLibrary garbage).Registry [] := by
  refine ⟨by simpa [Machine.initLibrary, hempty] using Linked.nil, by simp, ?_, ?_, ?_, ?_, ?_⟩
  all_goals simp [Machine.initLibrary, InUse, Ctl.removal]

/-- Nobody is disturbed in a run in which nobody meddles. -/
theorem undisturbed_of_execution
    (h : Execution (Machine.exec policy) Alone (initLibrary garbage) es s)
    (hempty : garbage.front = none) (hn : es.countP inits < 2 ^ 32) :
    Execution (Machine.exec policy) Undisturbed (initLibrary garbage) es s := by
  have hall : Execution (Machine.exec policy) Undisturbed (initLibrary garbage) es s ∧
      ∃ l, s.Registry l ∧ s.Blocked l ∧ s.Handled l := by
    induction h with
    | start =>
      refine ⟨.start, [], .initLibrary hempty, by simp [Blocked, initLibrary], ?_⟩
      exact .of_alone (p := mainTcb) (fun _ _ => rfl) fun _ _ _ _ hq => by cases hq
    | @snoc es s s' e hes halone hok ih =>
      rw [List.countP_append, List.countP_singleton] at hn
      obtain ⟨hrun, l, hl, hb, hh⟩ := ih (by omega)
      have hp := placed_of_execution hrun
      have hsure := hh.undisturbed (e := e) hl
      have hlt : inits e = true → s.currentMutexNum.toNat + 1 < 2 ^ 32 := fun he => by
        have := currentMutexNum_le hrun
        rw [if_pos he] at hn
        omega
      obtain ⟨l', hl', hb'⟩ := hl.exec hb hp hlt hsure hok
      have hh' := hh.exec hl hp (fun q hq => ctl_of_execution hrun hq) halone hok hl'.linked
      exact ⟨.snoc hrun hsure hok, l', hl', hb', hh'⟩
  exact hall.1

/-- If no call of `worker_mutex_destroy` is disturbed between its search and its unlinking, the
list is exact whenever no such call is under way.  It is so where no other thread initialises or
destroys a mutex, or writes the variable, in between. -/
theorem registryExact_of_execution (hempty : garbage.front = none)
    (hn : es.countP inits < 2 ^ 32) :
    (Execution (Machine.exec policy) Undisturbed (initLibrary garbage) es s →
      (∀ p, (s.ctl p).destroys = false) → s.RegistryExact) ∧
    (Execution (Machine.exec policy) Alone (initLibrary garbage) es s →
      Execution (Machine.exec policy) Undisturbed (initLibrary garbage) es s) := by
  refine ⟨fun h hnone => ?_, fun h => undisturbed_of_execution h hempty hn⟩
  have hboth : ∃ l, s.Registry l ∧ s.Blocked l := by
    refine h.invariant_of_count (I := fun s => ∃ l, s.Registry l ∧ s.Blocked l) hn
      ⟨[], .initLibrary hempty, by simp [Blocked, initLibrary]⟩
      fun es s e s' hes hcount hregistry hsure hok => ?_
    obtain ⟨l, hl, hb⟩ := hregistry
    refine hl.exec hb (placed_of_execution hes) (fun he => ?_) hsure hok
    have := currentMutexNum_le hes
    rw [List.countP_append, List.countP_singleton, if_pos he] at hcount
    omega
  obtain ⟨l, hl, -⟩ := hboth
  refine ⟨l, hl.linked, hl.distinct, fun num => (hl.exactly num).trans (and_iff_left ?_)⟩
  intro q r hr
  rw [Ctl.removal_of_not_destroys (hnone q)] at hr
  cases hr

/-- The main thread destroys a mutex that it holds. -/
def destroyHeld : List Event :=
  [.call (.mutexInit 300 8), .call (.mutexLock 300), .call (.mutexDestroy 300), .proceed 0,
    .proceed 0, .proceed 0, .proceed 0, .proceed 0, .proceed 0]

theorem registryExact_destroyHeld :
    ∃ s, Execution (Machine.exec .psjf) Alone (initLibrary ⟨0, 0, none⟩) destroyHeld s ∧
      s.history = [.destroyed 1, .unlocking 0 8, .locked 0 8, .inited 1] ∧ s.RegistryExact := by
  have hseen : (Execution.replayIf (Machine.exec .psjf) (fun s e => decide (s.Alone e))
      (initLibrary ⟨0, 0, none⟩) destroyHeld).map
        (Except.map fun s => (s.ctl 0, s.allocated, s.history)) =
      some (.ok (.program, 1, [.destroyed 1, .unlocking 0 8, .locked 0 8, .inited 1])) := rfl
  obtain ⟨s, hs, hobs⟩ := Execution.of_observedIf (fun _ _ => of_decide_eq_true) hseen
  simp only [Prod.mk.injEq] at hobs
  obtain ⟨hctl, hone, hhist⟩ := hobs
  have hnone : ∀ p, (s.ctl p).destroys = false := fun p => by
    by_cases hp : p = 0
    · simp [hp, hctl, Ctl.destroys]
    · rw [ctl_of_execution hs (hone ▸ Nat.one_le_iff_ne_zero.mpr hp)]
      rfl
  obtain ⟨hexact, hund⟩ := @registryExact_of_execution .psjf s ⟨0, 0, none⟩ destroyHeld rfl (by decide)
  exact ⟨s, hs, hhist, hexact (hund hs) hnone⟩

/-- The main thread, back from a yield, destroys a mutex that it holds, and is preempted after it
has read the front of the list; another thread initialises a mutex, which is lost. -/
def destroyDisturbed : List Event :=
  [.call (.mutexInit 300 8), .call (.mutexLock 300), .call (.create 100), .proceed 0,
    .call .yield, .proceed 0, .proceed 0, .proceed 0, .schedule, .proceed 0,
    .call (.mutexDestroy 300), .proceed 0, .signal, .schedule, .call (.mutexInit 400 9), .finish,
    .cleanup, .schedule, .proceed 0, .proceed 0, .proceed 0, .proceed 0, .proceed 0]

theorem registryExact_fails : ¬ ∀ policy garbage es s,
    Execution (Machine.exec policy) (fun _ _ => True) (initLibrary garbage) es s →
      garbage.front = none → es.countP inits < 2 ^ 32 → (∀ p, (s.ctl p).destroys = false) →
        s.RegistryExact := by
  intro hclaim
  have hseen : (replay (Machine.exec .psjf) (initLibrary ⟨0, 0, none⟩) destroyDisturbed).map
      (fun s => (s.ctl 0, s.ctl 1, s.allocated, s.mutexes.front, s.history)) =
      .ok (.program, .program, 2, none, [.destroyed 1, .finished 1 0, .inited 2, .unlocking 0 8,
        .enqueued 1, .locked 0 8, .inited 1]) := rfl
  obtain ⟨s, -, hs, hobs⟩ := Execution.of_observed hseen
  simp only [Prod.mk.injEq] at hobs
  obtain ⟨hmain, hother, htwo, hfront, hhist⟩ := hobs
  have hnone : ∀ p, (s.ctl p).destroys = false := fun p => by
    match p with
    | 0 => simp [hmain, Ctl.destroys]
    | 1 => simp [hother, Ctl.destroys]
    | p + 2 =>
      rw [ctl_of_execution hs (htwo ▸ Nat.le_add_left 2 p)]
      rfl
  obtain ⟨l, hl, -, hexact⟩ := hclaim .psjf _ _ s hs rfl (by decide) hnone
  -- the list is empty, though the second mutex is in use
  rw [hfront] at hl
  have hnil : l = [] := hl.unique .nil
  have huse := (hexact 2).mpr (by simp [hhist, InUse])
  simp [hnil] at huse

end Machine

end UserLevelOs.Threads
