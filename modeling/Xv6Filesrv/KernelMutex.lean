import Xv6Filesrv.KernelPids

/-!
# Mutual exclusion

What the users of a mutex see is the history of the calls that returned.  Along
every run the mutex table agrees with that history: a mutex is locked from the
return of a successful lock to the next successful unlock by the same process,
and nobody else succeeds in between.
-/

namespace KernelMutex

open KernelPages KernelMemInv KernelShm KernelProc KernelSteps KernelTable KernelBoot KernelPids
open Function (update update_of_ne update_self)

variable {ram : Ram} {o : Op} {s s' s₀ : Kernel} {p : Slot} {id : MutexId} {c : Call} {k : Point}
  {pc pc' : Pc} {q : Slot} {x : Proc}

/-- The pid of the process that holds mutex `id` after a history of returned calls,
the latest first: it has locked the mutex and not unlocked it since. -/
def holder (id : MutexId) : List Event → Option Int
  | [] => none
  | .ret _ pid (.mutexLock i) r :: es | .ret _ pid (.mutexTrylock i) r :: es =>
    if i = id.val ∧ r = 0 then some pid else holder id es
  | .ret _ _ (.mutexUnlock i) r :: es => if i = id.val ∧ r = 0 then none else holder id es
  | _ :: es => holder id es

/-- A `mutex_create` has returned `id`. -/
def made (id : MutexId) : List Event → Bool
  | [] => false
  | .ret _ _ .mutexCreate r :: es => r == id.val || made id es
  | _ :: es => made id es

/-- What may return after the history `es`: a lock only if there is no holder, an unlock
only in the holder itself, no new mutex with the number of one that is held, and the
holder's pid as the owner. -/
def Allowed (id : MutexId) (es : List Event) : Event → Prop
  | .ret _ _ (.mutexLock i) r | .ret _ _ (.mutexTrylock i) r =>
    i = id.val → r = 0 → holder id es = none
  | .ret _ pid (.mutexUnlock i) r => i = id.val → r = 0 → holder id es = some pid
  | .ret _ _ .mutexCreate r => r = id.val → holder id es = none
  | .ret _ _ (.mutexOwner i) r => i = id.val → r = if made id es then (holder id es).getD 0 else -1
  | _ => True

def Legal (id : MutexId) : List Event → Prop
  | [] => True
  | e :: es => Allowed id es e ∧ Legal id es

/-- Events that are allowed after `es` and change nothing for any mutex. -/
def Mute (es : List Event) (e : Event) : Prop :=
  ∀ id, holder id (e :: es) = holder id es ∧ made id (e :: es) = made id es ∧ Allowed id es e

/-- The process has freed the mutex and is still inside `mutex_unlock`. -/
def unlocking : Pc → Option MutexId
  | .wakeup _ _ (.mutexUnlocked id) | .crit (.mutexUnlocked id) => some id
  | _ => none

/-- The point at which a process will hold `wait_lock` next. -/
def awaiting : Pc → Option Point
  | .acquire k | .sleepLock _ k | .sleepDrop _ k | .sleepSet _ k | .asleep k => some k
  | _ => none

structure MutexInv (s : Kernel) : Prop where
  table : Table s
  awaiting : ∀ q id, awaiting (s.proc q).pc ≠ some (.mutexUnlocked id)
  legal : ∀ id, Legal id s.trace
  used : ∀ id, (s.mutex id).used = made id s.trace
  locked : ∀ id, (s.mutex id).locked = true →
    (s.mutex id).used = true ∧ holder id s.trace = some (s.mutex id).ownerPid
  free : ∀ id pid, (s.mutex id).locked = false → holder id s.trace = some pid →
    ∃ q, unlocking (s.proc q).pc = some id ∧ (s.proc q).pid = pid
  unlocking : ∀ q id, unlocking (s.proc q).pc = some id →
    (s.mutex id).locked = false ∧ holder id s.trace = some (s.proc q).pid

theorem unlocking_holds {pc : Pc} (h : unlocking pc = some id) : pc.holdsWait = true := by
  unfold unlocking at h
  split at h
  · rfl
  · rfl
  · cases h

/-- While nobody is inside an unlock, the table says who holds what. -/
theorem MutexInv.settled (h : MutexInv s) (hn : ∀ q, KernelMutex.unlocking (s.proc q).pc = none)
    (id : MutexId) (hl : (s.mutex id).locked = false) : holder id s.trace = none := by
  cases hh : holder id s.trace with
  | none => rfl
  | some pid =>
    obtain ⟨q, hq, -⟩ := h.free id pid hl hh
    rw [hn q] at hq
    cases hq

theorem MutexInv.settled_crit (h : MutexInv s) (hpc : (s.proc p).pc = .crit k)
    (hk : KernelMutex.unlocking (.crit k) = none) (q : Slot) :
    KernelMutex.unlocking (s.proc q).pc = none := by
  by_contra hne
  obtain ⟨id, hid⟩ := Option.ne_none_iff_exists'.mp hne
  have hq := (h.table.lock q).2 (unlocking_holds hid)
  have hp := (h.table.lock p).2 (by rw [hpc]; rfl)
  obtain rfl : p = q := Option.some.inj (hp.symm.trans hq)
  rw [hpc, hk] at hid
  cases hid

/-- A step of another process does not change who is inside an unlock. -/
theorem touch_unlocking (h : Table s) (hx : Touch s p s' q x) :
    unlocking x.pc = unlocking (s.proc q).pc ∧
      (unlocking x.pc ≠ none → x.pid = (s.proc q).pid) := by
  have hq := h.tidy q
  cases hx with
  | signal f pid hf =>
    rw [effect_pc]
    exact ⟨rfl, fun _ => effect_pid f _⟩
  | alloc hu hb hpc =>
    simp only [Tidy, hu] at hq
    rw [hq]
    exact ⟨rfl, fun hne => absurd rfl hne⟩
  | free hs hl =>
    have hnone : unlocking (s.proc q).pc = none := by
      rcases hs with hs | hs <;> simp only [Tidy, hs] at hq
      · rw [hq]
        rfl
      · rcases hq with hq | hq | hq <;> rw [hq] <;> rfl
    exact ⟨hnone.symm, fun hne => absurd rfl hne⟩
  | _ => exact ⟨rfl, fun _ => rfl⟩

theorem resume_unlocking (x : Proc) : unlocking x.resume.pc = unlocking x.pc := by
  unfold Proc.resume
  split
  · next hpc =>
    simp only [hpc]
    rfl
  · rfl

theorem flow_unlocking (h : Flow o s p pc pc') : unlocking pc' = unlocking pc := by
  cases h with
  | start h hk ho =>
    cases pc' with
    | wakeup c i k => cases start_entry h
    | crit k => cases start_entry h
    | _ => rfl
  | sleepMutex hk _ _ _ => rcases hk with rfl | rfl <;> rfl
  | @wakeSelf c k => cases k <;> rfl
  | @wakeEnd c i k h => cases k <;> rfl
  | _ => rfl

/-- System calls about mutexes. -/
def aboutMutex : Call → Bool
  | .mutexCreate | .mutexLock _ | .mutexUnlock _ | .mutexTrylock _ | .mutexOwner _ => true
  | _ => false

theorem mute_ret (h : aboutMutex c = false) (es : List Event) (q : Slot) (pid r : Int) :
    Mute es (.ret q pid c r) := by
  intro id
  cases c with
  | mutexCreate | mutexLock i | mutexUnlock i | mutexTrylock i | mutexOwner i => cases h
  | _ => exact ⟨rfl, rfl, trivial⟩

theorem mute_exited (es : List Event) (q : Slot) (pid status : Int) :
    Mute es (.exited q pid status) := fun _ => ⟨rfl, rfl, trivial⟩

theorem mute_failed {i : Int} (h : c = .mutexLock i ∨ c = .mutexTrylock i ∨ c = .mutexUnlock i)
    (es : List Event) (q : Slot) (pid : Int) : Mute es (.ret q pid c (-1)) := by
  intro id
  rcases h with rfl | rfl | rfl <;> simp [holder, made, Allowed]

/-- A number that is not the index of an entry of the table is refused at once. -/
theorem mutexId_val (id : MutexId) : mutexId id.val = some id := by
  have hid := id.isLt
  unfold mutexId
  rw [dif_pos (by omega)]
  simp

theorem mute_refused {sz : Nat} (h : c.start sz = none) (es : List Event) (q : Slot) (pid : Int) :
    Mute es (.ret q pid c (-1)) := by
  cases c with
  | mutexCreate => cases h
  | mutexLock i => exact mute_failed (.inl rfl) es q pid
  | mutexTrylock i => exact mute_failed (.inr (.inl rfl)) es q pid
  | mutexUnlock i => exact mute_failed (.inr (.inr rfl)) es q pid
  | mutexOwner i =>
    intro id
    refine ⟨rfl, rfl, fun hi => ?_⟩
    rw [hi, Call.start, mutexId_val] at h
    cases h
  | _ => exact mute_ret rfl es q pid (-1)

theorem memory_aboutMutex {m : M Int} (h : c.memory p = some m) :
    aboutMutex c = false := by
  cases c with
  | mutexCreate | mutexLock i | mutexUnlock i | mutexTrylock i | mutexOwner i => cases h
  | _ => rfl

theorem waitCall_aboutMutex (target : Option Int) (addr : Nat) :
    aboutMutex (waitCall target addr) = false := by
  cases target <;> rfl

theorem search_aboutMutex (f : Search) (pid : Int) : aboutMutex (f.call pid) = false := by
  cases f <;> rfl

theorem mute_returns {pc : Pc} {r : Int} (h : Returns s p pc c r) (es : List Event) (pid : Int) :
    Mute es (.ret p pid c r) := by
  cases h with
  | refused hc hm => exact mute_refused hc es p pid
  | notFound hi => exact mute_ret (search_aboutMutex _ _) es p pid _
  | _ => exact mute_ret rfl es p pid _

theorem entry_awaiting {pc : Pc} (h : entry pc = true) :
    awaiting pc ≠ some (.mutexUnlocked id) := by
  intro he
  cases pc with
  | acquire k =>
    obtain rfl := Option.some.inj he
    cases h
  | sleepLock c k | sleepDrop c k | sleepSet c k | asleep k => cases h
  | _ => cases he

theorem flow_awaiting (h : Flow o s p pc pc') (hk : awaiting pc' = some (.mutexUnlocked id)) :
    awaiting pc = some (.mutexUnlocked id) := by
  cases h with
  | start h hk' ho => exact absurd hk (entry_awaiting (start_entry h))
  | sleepLock => exact hk
  | _ => cases hk

/-- Nobody else can make a process wait. -/
theorem touch_awaiting (hx : Touch s p s' q x) (hk : awaiting x.pc = some k) :
    awaiting (s.proc q).pc = some k := by
  cases hx with
  | signal f pid hf => rwa [effect_pc] at hk
  | alloc hu hb hpc => cases hk
  | free hs hl => cases hk
  | _ => exact hk

theorem moves_awaiting (h : Moves o s p pc pc') (hk : awaiting pc' = some (.mutexUnlocked id)) :
    awaiting pc = some (.mutexUnlocked id) := by
  cases h with
  | stay => exact hk
  | resume => exact hk
  | flow hf => exact flow_awaiting hf hk
  | sleepDrop => exact hk
  | sleepSet => exact hk
  | _ => cases hk

/-- No process comes to `wait_lock` in the middle of an unlock. -/
theorem step_awaiting (hs : Step o p s s') (hk : awaiting (s'.proc q).pc = some (.mutexUnlocked id)) :
    awaiting (s.proc q).pc = some (.mutexUnlocked id) := by
  by_cases hq : q = p
  · subst hq
    exact moves_awaiting (step_moves hs) hk
  · exact touch_awaiting (step_touch hs hq) hk

/-- Where an unlock begins or ends, or a mutex changes, nothing else is in progress. -/
theorem step_settled (h : Table s) (hs : Step o p s s') (hp : unlocking (s'.proc p).pc = none)
    (hn : ∀ q, q ≠ p → unlocking (s.proc q).pc = none) (q : Slot) :
    unlocking (s'.proc q).pc = none := by
  by_cases hq : q = p
  · rw [hq, hp]
  · rw [(touch_unlocking h (step_touch hs hq)).1, hn q hq]

theorem MutexInv.awaiting_step (h : MutexInv s) (hs : Step o p s s') (q : Slot) (id : MutexId) :
    KernelMutex.awaiting (s'.proc q).pc ≠ some (.mutexUnlocked id) :=
  fun hk => h.awaiting q id (step_awaiting hs hk)

/-- Steps that leave the mutexes alone and record nothing about them. -/
theorem MutexInv.keep (h : MutexInv s) (hs : Step o p s s') (hm : s'.mutex = s.mutex)
    (hp : KernelMutex.unlocking (s'.proc p).pc = KernelMutex.unlocking (s.proc p).pc)
    (ht : s'.trace = s.trace ∨ ∃ e, Mute s.trace e ∧ s'.trace = e :: s.trace) : MutexInv s' := by
  have hq : ∀ q, KernelMutex.unlocking (s'.proc q).pc = KernelMutex.unlocking (s.proc q).pc ∧
      (KernelMutex.unlocking (s'.proc q).pc ≠ none → (s'.proc q).pid = (s.proc q).pid) := by
    intro q
    by_cases hqp : q = p
    · subst hqp
      exact ⟨hp, fun _ => own_pid (step_own h.table hs)⟩
    · exact touch_unlocking h.table (step_touch hs hqp)
  have hh : ∀ id, holder id s'.trace = holder id s.trace ∧ made id s'.trace = made id s.trace ∧
      Legal id s'.trace := by
    intro id
    rcases ht with ht | ⟨e, he, ht⟩ <;> rw [ht]
    · exact ⟨rfl, rfl, h.legal id⟩
    · exact ⟨(he id).1, (he id).2.1, (he id).2.2, h.legal id⟩
  refine ⟨Table.step h.table hs, h.awaiting_step hs, fun id => (hh id).2.2, ?_, ?_, ?_, ?_⟩
  · intro id
    rw [hm, (hh id).2.1, h.used id]
  · intro id hl
    rw [(hh id).1, hm] at *
    exact h.locked id hl
  · intro id pid hl hpid
    rw [hm] at hl
    rw [(hh id).1] at hpid
    obtain ⟨q, hu, hqp⟩ := h.free id pid hl hpid
    rw [← (hq q).1] at hu
    exact ⟨q, hu, by rw [(hq q).2 (by simp [hu]), hqp]⟩
  · intro q id hu
    rw [hm, (hh id).1, (hq q).2 (by simp [hu])]
    rw [(hq q).1] at hu
    exact h.unlocking q id hu

/-- A step after which nobody is inside an unlock, and that changes nothing for the
mutexes other than `id`. -/
theorem MutexInv.change {e : Kmutex} (h : MutexInv s) (hs : Step o p s s')
    (hm : s'.mutex = update s.mutex id e)
    (hn : ∀ q, KernelMutex.unlocking (s'.proc q).pc = none)
    (hlegal : ∀ j, Legal j s'.trace) (he : e.locked = true → e.used = true)
    (hid : holder id s'.trace = if e.locked then some e.ownerPid else none)
    (hmade : e.used = made id s'.trace)
    (hothers : ∀ j, j ≠ id → holder j s'.trace = holder j s.trace ∧
      made j s'.trace = made j s.trace ∧
      ((s.mutex j).locked = false → holder j s.trace = none)) : MutexInv s' := by
  refine ⟨Table.step h.table hs, h.awaiting_step hs, hlegal, ?_, ?_, ?_, ?_⟩
  · intro j
    rw [hm]
    by_cases hj : j = id
    · subst hj
      rw [update_self, hmade]
    · rw [update_of_ne hj, (hothers j hj).2.1, h.used j]
  · intro j hl
    rw [hm] at hl ⊢
    by_cases hj : j = id
    · subst hj
      rw [update_self] at hl ⊢
      rw [hid, if_pos hl]
      exact ⟨he hl, rfl⟩
    · rw [update_of_ne hj] at hl ⊢
      rw [(hothers j hj).1]
      exact h.locked j hl
  · intro j pid hl hpid
    rw [hm] at hl
    by_cases hj : j = id
    · subst hj
      rw [update_self] at hl
      rw [hid, hl] at hpid
      cases hpid
    · rw [update_of_ne hj] at hl
      rw [(hothers j hj).1, (hothers j hj).2.2 hl] at hpid
      cases hpid
  · intro q j hu
    rw [hn q] at hu
    cases hu

theorem mutexId_inj {i j : MutexId} : (i.val : Int) = j.val ↔ i = j := by
  constructor
  · intro he
    exact Fin.ext (by omega)
  · intro he
    rw [he]

theorem takes_holder (hk : Takes id k c) (j : MutexId) (q : Slot) (pid : Int) (es : List Event) :
    holder j (.ret q pid c 0 :: es) = if id = j then some pid else holder j es := by
  cases hk <;> simp only [holder, mutexId_inj, and_true]

theorem takes_allowed (hk : Takes id k c) {es : List Event} (hn : holder id es = none) (j : MutexId)
    (q : Slot) (pid : Int) :
    Allowed j es (.ret q pid c 0) := by
  cases hk <;> simp only [Allowed, mutexId_inj] <;> rintro rfl - <;> exact hn

theorem takes_made (hk : Takes id k c) (j : MutexId) (q : Slot) (pid : Int) (es : List Event) :
    made j (.ret q pid c 0 :: es) = made j es := by
  cases hk <;> rfl

theorem takes_unlocking (hk : Takes id k c) :
    unlocking (.crit k) = none := by
  cases hk <;> rfl

/-- A process takes a free mutex, by `mutex_lock` or `mutex_trylock`. -/
theorem MutexInv.take (h : MutexInv s)
    (hs : Step o p s ((s.setMutex id ⟨true, true, (s.proc p).pid⟩).leave p c 0))
    (hpc : (s.proc p).pc = .crit k) (hk : Takes id k c) (hu : (s.mutex id).used = true)
    (hl : (s.mutex id).locked = false) :
    MutexInv ((s.setMutex id ⟨true, true, (s.proc p).pid⟩).leave p c 0) := by
  have hn := h.settled_crit hpc (takes_unlocking hk)
  have hnone := h.settled hn id hl
  have hn' := step_settled h.table hs (by rw [leave_self]; rfl) fun q _ => hn q
  have hmade : made id s.trace = true := by rw [← h.used id, hu]
  refine h.change hs rfl hn' (fun j => ⟨takes_allowed hk hnone j p _, h.legal j⟩) (fun _ => rfl)
    ?_ ?_ ?_
  · exact (takes_holder hk id p _ _).trans (if_pos rfl)
  · exact hmade.symm.trans (takes_made hk id p _ _).symm
  · intro j hj
    exact ⟨(takes_holder hk j p _ _).trans (if_neg hj.symm), takes_made hk j p _ _, h.settled hn j⟩

/-- A slot that is not in use becomes a new, unlocked mutex. -/
theorem MutexInv.create (h : MutexInv s)
    (hs : Step o p s ((s.setMutex id ⟨true, false, -1⟩).leave p .mutexCreate id.val))
    (hpc : (s.proc p).pc = .crit .mutexCreate) (hu : (s.mutex id).used = false) :
    MutexInv ((s.setMutex id ⟨true, false, -1⟩).leave p .mutexCreate id.val) := by
  have hn := h.settled_crit hpc rfl
  have hl : (s.mutex id).locked = false := by
    by_contra hne
    have hused := (h.locked id (by simpa using hne)).1
    rw [hu] at hused
    cases hused
  have hnone := h.settled hn id hl
  have hn' := step_settled h.table hs (by rw [leave_self]; rfl) fun q _ => hn q
  refine h.change hs rfl hn' ?_ nofun hnone ?_ ?_
  · intro j
    exact ⟨fun hj => mutexId_inj.mp hj ▸ hnone, h.legal j⟩
  · simp [Kernel.leave, Kernel.ret, Kernel.record, made]
  · intro j hj
    refine ⟨rfl, ?_, h.settled hn j⟩
    change ((id.val : Int) == j.val || made j s.trace) = made j s.trace
    rw [beq_false_of_ne fun he => hj (mutexId_inj.mp he).symm, Bool.false_or]

/-- The return of an unlock ends the possession. -/
theorem MutexInv.unlocked (h : MutexInv s) (hs : Step o p s (s.leave p (.mutexUnlock id.val) 0))
    (hpc : (s.proc p).pc = .crit (.mutexUnlocked id)) :
    MutexInv (s.leave p (.mutexUnlock id.val) 0) := by
  have hp : KernelMutex.unlocking (s.proc p).pc = some id := by rw [hpc]; rfl
  have hinside : ∀ q j, KernelMutex.unlocking (s.proc q).pc = some j → q = p ∧ j = id := by
    intro q j hq
    have hwp := (h.table.lock p).2 (unlocking_holds hp)
    have hwq := (h.table.lock q).2 (unlocking_holds hq)
    obtain rfl : p = q := Option.some.inj (hwp.symm.trans hwq)
    exact ⟨rfl, Option.some.inj (hq.symm.trans hp)⟩
  have hn : ∀ q, q ≠ p → KernelMutex.unlocking (s.proc q).pc = none := by
    intro q hq
    by_contra hne
    obtain ⟨j, hj⟩ := Option.ne_none_iff_exists'.mp hne
    exact hq (hinside q j hj).1
  obtain ⟨hl, hheld⟩ := h.unlocking p id hp
  have hn' := step_settled h.table hs (by rw [leave_self]; rfl) hn
  have hmem : s.mutex = update s.mutex id (s.mutex id) := by simp
  refine h.change hs hmem hn' ?_ (fun hl' => by rw [hl] at hl'; cases hl') ?_ (h.used id) ?_
  · intro j
    refine ⟨fun hj _ => ?_, h.legal j⟩
    exact mutexId_inj.mp hj ▸ hheld
  · rw [hl]
    simp [Kernel.leave, Kernel.ret, Kernel.record, holder]
  · intro j hj
    refine ⟨?_, rfl, fun hlj => ?_⟩
    · change (if (id.val : Int) = j.val ∧ (0 : Int) = 0 then none else holder j s.trace) = _
      rw [if_neg fun hc => hj (mutexId_inj.mp hc.1).symm]
    · cases hh : holder j s.trace with
      | none => rfl
      | some pid =>
        obtain ⟨q, hq, -⟩ := h.free j pid hlj hh
        exact absurd (hinside q j hq).2 hj

/-- Between the release of a mutex and the return of the unlock its caller still counts
as the holder. -/
theorem MutexInv.release (h : MutexInv s)
    (hs : Step o p s ((s.setMutex id ⟨true, false, -1⟩).goto p
      (.wakeup (some (.kmutex id)) 0 (.mutexUnlocked id))))
    (hpc : (s.proc p).pc = .crit (.mutexUnlock id)) (hl : (s.mutex id).locked = true)
    (ho : (s.mutex id).ownerPid = (s.proc p).pid) :
    MutexInv ((s.setMutex id ⟨true, false, -1⟩).goto p
      (.wakeup (some (.kmutex id)) 0 (.mutexUnlocked id))) := by
  have hn := h.settled_crit hpc rfl
  have hheld : holder id s.trace = some (s.proc p).pid := by rw [(h.locked id hl).2, ho]
  have hp := goto_self (s.setMutex id ⟨true, false, -1⟩) p
    (.wakeup (some (.kmutex id)) 0 (.mutexUnlocked id))
  refine ⟨Table.step h.table hs, h.awaiting_step hs, h.legal, ?_, ?_, ?_, ?_⟩
  · intro j
    change (update s.mutex id _ j).used = made j s.trace
    rw [← h.used j]
    by_cases hji : j = id
    · subst hji
      rw [update_self, (h.locked j hl).1]
    · rw [update_of_ne hji]
  · intro j hj
    change (update s.mutex id _ j).locked = true at hj
    change (update s.mutex id _ j).used = true ∧ holder j s.trace =
      some (update s.mutex id _ j).ownerPid
    by_cases hji : j = id
    · subst hji
      rw [update_self] at hj
      cases hj
    · rw [update_of_ne hji] at hj ⊢
      exact h.locked j hj
  · intro j pid hj hpid
    change (update s.mutex id _ j).locked = false at hj
    change holder j s.trace = some pid at hpid
    by_cases hji : j = id
    · subst hji
      refine ⟨p, by rw [hp]; rfl, ?_⟩
      rw [hp]
      exact Option.some.inj (hheld.symm.trans hpid)
    · rw [update_of_ne hji] at hj
      rw [h.settled hn j hj] at hpid
      cases hpid
  · intro q j hq
    change (update s.mutex id _ j).locked = false ∧ holder j s.trace = _
    by_cases hqp : q = p
    · subst hqp
      rw [hp] at hq ⊢
      obtain rfl : id = j := Option.some.inj hq
      rw [update_self]
      exact ⟨rfl, hheld⟩
    · rw [(touch_unlocking h.table (step_touch hs hqp)).1, hn q] at hq
      cases hq

theorem mute_owner (h : MutexInv s) (hn : ∀ q, unlocking (s.proc q).pc = none)
    (hu : (s.mutex id).used = true) (q : Slot) (pid : Int) :
    Mute s.trace (.ret q pid (.mutexOwner id.val)
      (if (s.mutex id).locked = false then 0 else (s.mutex id).ownerPid)) := by
  intro j
  refine ⟨rfl, rfl, fun hj => ?_⟩
  have hmade : made id s.trace = true := by rw [← h.used id, hu]
  rw [← mutexId_inj.mp hj, hmade, if_pos rfl]
  split
  · next hl => rw [h.settled hn id hl]; rfl
  · next hl => rw [(h.locked id (by simpa using hl)).2]; rfl

theorem mute_owner_unused (h : MutexInv s) (hu : (s.mutex id).used = false) (q : Slot)
    (pid : Int) : Mute s.trace (.ret q pid (.mutexOwner id.val) (-1)) := by
  intro j
  refine ⟨rfl, rfl, fun hj => ?_⟩
  rw [← mutexId_inj.mp hj, if_neg (by simp [← h.used id, hu])]

theorem mute_createFull (es : List Event) (q : Slot) (pid : Int) :
    Mute es (.ret q pid .mutexCreate (-1)) := by
  intro j
  refine ⟨rfl, ?_, fun hj => by omega⟩
  have hne : (-1 : Int) ≠ j.val := by omega
  simp [made, hne]

/-- Answers that change no mutex. -/
theorem MutexInv.answer {r : Int} (h : MutexInv s) (hs : Step o p s (s.leave p c r))
    (hpc : (s.proc p).pc = .crit k) (ha : Answers s p k c r) :
    MutexInv (s.leave p c r) := by
  have hkeep : KernelMutex.unlocking (.crit k) = none →
      Mute s.trace (.ret p (s.proc p).pid c r) → MutexInv (s.leave p c r) := by
    intro hk hmute
    refine h.keep hs rfl ?_ (.inr ⟨_, hmute, rfl⟩)
    rw [leave_self, hpc, hk]
    rfl
  cases ha with
  | getppid => exact hkeep rfl (mute_ret rfl _ p _ _)
  | createFull hall => exact hkeep rfl (mute_createFull _ p _)
  | lockRefused hk hwhy =>
    refine hkeep ?_ (mute_failed (.inl rfl) _ p _)
    rcases hk with rfl | rfl <;> rfl
  | unlockRefused hwhy => exact hkeep rfl (mute_failed (.inr (.inr rfl)) _ p _)
  | unlocked => exact h.unlocked hs hpc
  | trylockRefused hwhy => exact hkeep rfl (mute_failed (.inr (.inl rfl)) _ p _)
  | ownerUnused hu => exact hkeep rfl (mute_owner_unused h hu p _)
  | owner hu => exact hkeep rfl (mute_owner h (h.settled_crit hpc rfl) hu p _)
  | waitFailed hi hwhy => exact hkeep rfl (mute_ret (waitCall_aboutMutex _ _) _ p _ _)

/-- Every step of every process keeps the mutexes in order. -/
theorem MutexInv.step (h : MutexInv s) (hs : Step o p s s') : MutexInv s' := by
  have hstep := hs
  cases hs with
  | dispatch hr hf hl =>
    exact h.keep hstep rfl (by rw [setProc_self, resume_unlocking]) (.inl rfl)
  | yield _ _ => exact h.keep hstep rfl (by rw [setProc_self]) (.inl rfl)
  | fault _ _ _ => exact h.keep hstep rfl (by rw [setProc_self, setMem_proc]) (.inl rfl)
  | memory hr hpc hc hm ho =>
    exact h.keep hstep rfl (by rw [ret_self, hpc])
      (.inr ⟨_, mute_ret (memory_aboutMutex hc) _ p _ _, rfl⟩)
  | walk hr hf => exact h.keep hstep rfl (by rw [goto_self]; exact flow_unlocking hf) (.inl rfl)
  | ret hr hret =>
    refine h.keep hstep rfl ?_ (.inr ⟨_, mute_returns hret _ _, rfl⟩)
    rw [ret_self]
    generalize (s.proc p).pc = pc at hret
    cases hret <;> rfl
  | @acquire k hr hpc hw =>
    refine h.keep hstep rfl ?_ (.inl rfl)
    rw [goto_self, hpc]
    cases k with
    | mutexUnlocked id => exact absurd (by rw [hpc]; rfl) (h.awaiting p id)
    | _ => rfl
  | answer hr hpc ha => exact h.answer hstep hpc ha
  | mutexCreate hr hpc hu => exact h.create hstep hpc hu
  | mutexTake hr hpc hk hu hl => exact h.take hstep hpc hk hu hl
  | mutexFree hr hpc hu hl ho => exact h.release hstep hpc hl ho
  | sleepDrop hr hpc => exact h.keep hstep rfl (by rw [goto_self, hpc]; rfl) (.inl rfl)
  | sleepSet hr hpc => exact h.keep hstep rfl (by rw [setProc_self, hpc]; rfl) (.inl rfl)
  | @wake c q k hr hpc hq hl hs hc | @pass c q k hr hpc hq hl hs =>
    exact h.keep hstep rfl (by rw [goto_self, hpc]; cases k <;> rfl) (.inl rfl)
  | found hr hpc hl hq =>
    exact h.keep hstep rfl (by rw [ret_self, hpc]; rfl)
      (.inr ⟨_, mute_ret (search_aboutMutex _ _) _ p _ _, rfl⟩)
  | allocated hr hpc hl hu hm | allocFailed hr hpc hl hu hm | publish hr hpc hl
  | reparent hr hpc hq | exitDrop hpc | exitSched hpc | link hr hpc =>
    exact h.keep hstep rfl (by rw [goto_self, hpc]; rfl) (.inl rfl)
  | reap hr hpc hq hl hz hm | reapFailed hr hpc hq hl hz hm =>
    exact h.keep hstep rfl (by rw [leave_self, hpc]; rfl)
      (.inr ⟨_, mute_ret (waitCall_aboutMutex _ _) _ p _ _, rfl⟩)
  | exitMark hr hpc =>
    refine h.keep hstep rfl ?_ (.inr ⟨_, mute_exited _ _ _ _, rfl⟩)
    rw [record_proc, setProc_self, hpc]
    rfl

theorem MutexInv.start (mem : Mem) : MutexInv (Kernel.start mem) := by
  have hpc := start_pc mem
  refine ⟨Table.start mem, ?_, fun _ => trivial, fun _ => rfl, ?_, ?_, ?_⟩
  · intro q id hq
    rw [hpc] at hq
    cases hq
  · intro id hlocked
    cases hlocked
  · intro id pid _ hheld
    cases hheld
  · intro q id hq
    rw [hpc] at hq
    cases hq

theorem MutexInv.withFails (h : MutexInv s) (fails : List Bool) : MutexInv (s.withFails fails) :=
  ⟨Table.withFails h.table fails, h.awaiting, h.legal, h.used, h.locked, h.free, h.unlocking⟩

theorem MutexInv.reach {ok : Kernel → Action → Prop} (hb : Booted ram s₀) (hr : Reach ok s₀ s) :
    MutexInv s := by
  obtain ⟨mem, rfl⟩ := hb.start
  refine Reach.invariant (.start mem) (fun t a t' h _ ha => ?_) hr
  exact (h.withFails a.fails).step (act_step ha)

/-- The first process creates a mutex and locks it. -/
def lockRun : List Action := callRun 0 .mutexCreate 2 ++ callRun 0 (.mutexLock 0) 2

def exitPoint : Point → Bool
  | .reparent _ _ | .exitMark _ => true
  | _ => false

/-- The process is inside `kexit`. -/
def exiting : Pc → Bool
  | .acquire k | .crit k | .sleepLock _ k | .sleepDrop _ k | .sleepSet _ k | .asleep k
  | .wakeup _ _ k => exitPoint k
  | .exitDrop | .exitSched | .dead => true
  | _ => false

/-- The process exists and has not begun to exit. -/
def Alive (x : Proc) : Prop := x.state ≠ .unused ∧ x.state ≠ .zombie ∧ exiting x.pc = false

/-- A call by which a process enters `kexit`. -/
def exits (s : Kernel) (p : Slot) : Op → Bool
  | .call (.exit _) => true
  | .call _ => (s.proc p).killed
  | _ => false

theorem exits_call {status : Int} (h : (s.proc p).killed = true ∨ c = .exit status) :
    exits s p (.call c) = true := by
  cases c with
  | exit n => rfl
  | _ => simpa [exits] using h

theorem entry_exiting {pc : Pc} (h : entry pc = true) : exiting pc = false := by
  cases pc with
  | acquire k =>
    cases k with
    | reparent status i | exitMark status => cases h
    | _ => rfl
  | search f pid i | alloc k i => rfl
  | _ => cases h

theorem flow_exiting (h : Flow o s p pc pc') (hx : exiting pc' = true) :
    exiting pc = true ∨ exits s p o = true := by
  cases h with
  | start h hk ho => simp [entry_exiting (start_entry h)] at hx
  | exit h ho hk => exact .inr (ho ▸ exits_call hk)
  | reparentOther hq => exact .inl rfl
  | wakeParent h => exact .inl rfl
  | sleepLock => exact .inl hx
  | wakeSelf => exact .inl hx
  | wakeEnd h => exact .inl hx
  | _ => cases hx

theorem moves_exiting (h : Moves o s p pc pc') (hx : exiting pc' = true) :
    exiting pc = true ∨ exits s p o = true := by
  cases h with
  | flow hf => exact flow_exiting hf hx
  | user => cases hx
  | unlock => cases hx
  | allocated => cases hx
  | created => cases hx
  | link => cases hx
  | exitMark => exact .inl rfl
  | exitDrop => exact .inl rfl
  | exitSched => exact .inl rfl
  | _ => exact .inl hx

theorem effect_alive (f : Search) (h : Alive x) : Alive (f.effect x) := by
  refine ⟨fun hu => h.1 ((effect_unused f x).1 hu), ?_, by rw [effect_pc]; exact h.2.2⟩
  by_cases hs : x.state = .sleeping
  · cases f <;> simp [Search.effect, hs]
  · rw [effect_state f hs]
    exact h.2.1

/-- A process that is alive outlives the steps of the others. -/
theorem touch_alive (hx : Touch s p s' q x) (h : Alive (s.proc q)) :
    Alive x ∧ x.pid = (s.proc q).pid := by
  cases hx with
  | same => exact ⟨h, rfl⟩
  | adopt r => exact ⟨h, rfl⟩
  | wake hs => exact ⟨⟨by simp, by simp, h.2.2⟩, rfl⟩
  | publish hq hp => exact ⟨⟨by simp, by simp, h.2.2⟩, rfl⟩
  | signal f pid hf => exact ⟨effect_alive f h, effect_pid f _⟩
  | alloc hu hb hpc => exact absurd hu h.1
  | free hs hl => exact (hs.elim h.1 h.2.1).elim

theorem own_alive (hx : Own s p x) (h : Alive (s.proc p)) (hn : exiting x.pc = false) :
    Alive x := by
  cases hx with
  | resume hr hf =>
    have hrun : (s.proc p).resume.state = .running := by
      unfold Proc.resume
      split <;> rfl
    exact ⟨by simp [hrun], by simp [hrun], hn⟩
  | yield hr hp => exact ⟨by simp, by simp, hn⟩
  | fault hr b => exact h
  | move hr ha => exact ⟨h.1, h.2.1, hn⟩
  | signal hr f pid hp => exact ⟨(effect_alive f h).1, (effect_alive f h).2.1, hn⟩
  | adopt hr r ha => exact ⟨h.1, h.2.1, hn⟩
  | sleep hr c k => exact ⟨by simp, by simp, hn⟩
  | exit hr hpc => cases hn
  | leave hx hpc => exact ⟨h.1, h.2.1, hn⟩

/-- A process stays alive until it enters `kexit`. -/
theorem step_alive (h : Table s) (hs : Step o p s s') (ha : Alive (s.proc q)) :
    (Alive (s'.proc q) ∧ (s'.proc q).pid = (s.proc q).pid) ∨ q = p ∧ exits s p o = true := by
  by_cases hq : q = p
  · subst hq
    have hown := step_own h hs
    cases hx : exiting (s'.proc q).pc with
    | false => exact .inl ⟨own_alive hown ha hx, own_pid hown⟩
    | true =>
      rcases moves_exiting (step_moves hs) hx with hold | hexit
      · rw [ha.2.2] at hold
        cases hold
      · exact .inr ⟨rfl, hexit⟩
  · exact .inl (touch_alive (step_touch hs hq) ha)

def OwnersAlive (s : Kernel) : Prop := ∀ id, (s.mutex id).locked = true →
  ∃ q, Alive (s.proc q) ∧ (s.proc q).pid = (s.mutex id).ownerPid

/-- A mutex that is locked after a step was so before, or the process that takes the
step has locked it. -/
theorem step_locked (hs : Step o p s s') {id : MutexId} (hl : (s'.mutex id).locked = true) :
    ((s.mutex id).locked = true ∧ (s'.mutex id).ownerPid = (s.mutex id).ownerPid) ∨
      (Alive (s'.proc p) ∧ (s'.proc p).pid = (s'.mutex id).ownerPid) := by
  have hset : ∀ j e, (update s.mutex j e id).locked = true →
      ((s.mutex id).locked = true ∧
        (update s.mutex j e id).ownerPid = (s.mutex id).ownerPid) ∨ id = j ∧ e.locked = true := by
    intro j e hj
    by_cases hij : id = j
    · subst hij
      rw [update_self] at hj
      exact .inr ⟨rfl, hj⟩
    · rw [update_of_ne hij] at hj ⊢
      exact .inl ⟨hj, rfl⟩
  cases hs with
  | mutexCreate hr hpc hu => exact (hset _ _ hl).imp_right fun hid => by cases hid.2
  | mutexFree hr hpc hu hl' ho => exact (hset _ _ hl).imp_right fun hid => by cases hid.2
  | @mutexTake j k c hr hpc hk hu hl' =>
    rcases hset _ _ hl with hold | ⟨rfl, -⟩
    · exact .inl hold
    · right
      rw [leave_self]
      refine ⟨⟨?_, ?_, rfl⟩, ?_⟩
      · change (s.proc p).state ≠ .unused
        simp [hr]
      · change (s.proc p).state ≠ .zombie
        simp [hr]
      · change (s.proc p).pid = (update s.mutex id _ id).ownerPid
        rw [update_self]
  | _ => exact .inl ⟨hl, rfl⟩

/-- Owners stay alive as long as none exits while it holds a mutex. -/
theorem OwnersAlive.step (ho : OwnersAlive s) (h : Table s) (hs : Step o p s s')
    (hexit : exits s p o = true → ∀ id, (s.mutex id).locked = true →
      (s.mutex id).ownerPid ≠ (s.proc p).pid) : OwnersAlive s' := by
  intro id hl
  rcases step_locked hs hl with ⟨hold, hown⟩ | ⟨halive, hpid⟩
  · obtain ⟨q, hq, hpid⟩ := ho id hold
    rcases step_alive h hs hq with ⟨hq', hsame⟩ | ⟨rfl, hx⟩
    · exact ⟨q, hq', by rw [hsame, hpid, hown]⟩
    · exact absurd hpid.symm (hexit hx id hold)
  · exact ⟨p, halive, hpid⟩

/-- No process enters `kexit` while it owns a mutex. -/
def NoOwnerExits (s : Kernel) (a : Action) : Prop :=
  exits s a.p a.op = true → ∀ id, (s.mutex id).locked = true →
    (s.mutex id).ownerPid ≠ (s.proc a.p).pid

instance (s : Kernel) (a : Action) : Decidable (NoOwnerExits s a) :=
  inferInstanceAs (Decidable (_ → _))

/-- If no process exits while it owns a mutex, a mutex that is held has a living owner. -/
theorem held_mutex_owner_alive (hb : Booted ram s₀) (hr : Reach NoOwnerExits s₀ s) (id : MutexId)
    (hl : (s.mutex id).locked = true) :
    ∃ q, (s.proc q).pid = (s.mutex id).ownerPid ∧ (s.proc q).state ≠ .unused ∧
      (s.proc q).state ≠ .zombie := by
  obtain ⟨mem, rfl⟩ := hb.start
  have hinv : Table s ∧ OwnersAlive s := by
    refine Reach.invariant (I := fun t => Table t ∧ OwnersAlive t) ⟨Table.start mem, nofun⟩ ?_ hr
    intro t a t' ⟨ht, ho⟩ hok ha
    have ho' : OwnersAlive (t.withFails a.fails) := ho
    exact ⟨Table.act ht ha, ho'.step (Table.withFails ht a.fails) (act_step ha) hok⟩
  obtain ⟨q, halive, hpid⟩ := hinv.2 id hl
  exact ⟨q, hpid, halive.1, halive.2.1⟩

theorem held_mutex_owner_alive_locked :
    ((after lockRun smallKernel).mutex 0).locked = true ∧
    ∃ q, ((after lockRun smallKernel).proc q).pid = ((after lockRun smallKernel).mutex 0).ownerPid ∧
      ((after lockRun smallKernel).proc q).state ≠ .unused ∧
      ((after lockRun smallKernel).proc q).state ≠ .zombie := by
  obtain ⟨hrun, hlocked⟩ : allowedRun NoOwnerExits lockRun smallKernel = true ∧
      ((after lockRun smallKernel).mutex 0).locked = true := by decide +kernel
  have hreach : Reach NoOwnerExits smallKernel (after lockRun smallKernel) := Reach.allowed hrun
  exact ⟨hlocked, held_mutex_owner_alive smallKernel_booted hreach 0 hlocked⟩

/-- The first process creates a mutex and forks; its child locks the mutex and exits. -/
def ownerExitRun : List Action :=
  callRun 0 .mutexCreate 2 ++ callRun 0 .fork 6 ++
    ⟨1, .dispatch, []⟩ :: (callRun 1 (.mutexLock 0) 2 ++ callRun 1 (.exit 0) 134)

/-- The mutex of a process that exits stays locked. -/
theorem exited_owner_keeps_mutex :
    Booted smallRam smallKernel ∧
    Reach (fun _ _ => True) smallKernel (after ownerExitRun smallKernel) ∧
    ((after ownerExitRun smallKernel).mutex 0).locked = true ∧
    ((after ownerExitRun smallKernel).mutex 0).ownerPid = 2 ∧
    ∀ q, ((after ownerExitRun smallKernel).proc q).pid = 2 →
      ((after ownerExitRun smallKernel).proc q).state = .zombie := by
  obtain ⟨hrun, hlast⟩ : runs ownerExitRun smallKernel = true ∧
      ((after ownerExitRun smallKernel).mutex 0).locked = true ∧
      ((after ownerExitRun smallKernel).mutex 0).ownerPid = 2 ∧
      ∀ q, ((after ownerExitRun smallKernel).proc q).pid = 2 →
        ((after ownerExitRun smallKernel).proc q).state = .zombie := by decide +kernel
  exact ⟨smallKernel_booted, Reach.after (fun _ _ _ => trivial) hrun, hlast⟩

end KernelMutex
