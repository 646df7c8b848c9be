import Xv6Filesrv.KernelPids
import Xv6Filesrv.KernelSlots

/-!
# The process tree

`parent` is a pointer into the process table.  `kfork` and `kthread_create` set it, `reparent`
gives the children of an exiting process to the first one, `freeproc` clears it.  In every run the
pointers lead to living processes and, followed upwards, to the first process.

The first section is about any nodes with an optional parent each, and a root.  A node is below
the root if its parent pointers lead there.  Three changes keep nodes below the root: a node
without a parent is hung below another node, a node is moved right below the root, and a node that
has no children is cut off.
-/

namespace Forest

open Function (update update_of_ne update_self)

variable {T : Type} {parent : T → Option T} {root : T} {x : Proc} {q : Slot} {np : Slot} {r : Slot}

inductive Below (parent : T → Option T) (root : T) : T → Prop
  | root : Below parent root root
  | step {t u : T} (h : parent t = some u) (hu : Below parent root u) : Below parent root t

variable [DecidableEq T]

theorem Below.hang {x t : T} (h : Below parent root t) (hx : parent x = none) (u : T) :
    Below (update parent x (some u)) root t := by
  induction h with
  | root => exact .root
  | @step t v hp _ ih =>
    have htx : t ≠ x := by
      intro he
      rw [he, hx] at hp
      cases hp
    exact .step ((update_of_ne htx _ _).trans hp) ih

theorem Below.adopt {t : T} (h : Below parent root t) (x : T) :
    Below (update parent x (some root)) root t := by
  induction h with
  | root => exact .root
  | @step t v hp _ ih =>
    by_cases htx : t = x
    · subst htx
      exact .step (update_self _ _ _) .root
    · exact .step ((update_of_ne htx _ _).trans hp) ih

theorem Below.cut {x t : T} (h : Below parent root t) (hx : ∀ u, parent u ≠ some x) (ht : t ≠ x) :
    Below (update parent x none) root t := by
  induction h with
  | root => exact .root
  | @step t v hp _ ih =>
    have hvx : v ≠ x := by
      intro he
      exact hx t (he ▸ hp)
    exact .step ((update_of_ne ht _ _).trans hp) (ih hvx)

end Forest

namespace KernelTree

open KernelPages KernelMemInv KernelShm KernelProc KernelSteps KernelTable KernelSlots KernelBoot
open KernelPids Forest
open Function (update update_eq_self update_of_ne update_self)

variable {ram : Ram} {o : Op} {s s' s₀ : Kernel} {p : Slot} {a : Action}

def parents (s : Kernel) (q : Slot) : Option Slot := (s.proc q).parent

/-- A slot is updated and the stepping process moves. -/
theorem parents_moved {y : Option Slot} {pc : Pc}
    (hs : s'.proc = update (update s.proc r x) p { update s.proc r x p with pc := pc })
    (hy : x.parent = y) :
    parents s' = update (parents s) r y := by
  funext q
  have hmove : parents s' q = (update s.proc r x q).parent := by
    rw [parents, hs]
    by_cases hq : q = p
    · rw [hq, update_self]
    · rw [update_of_ne hq]
  rw [hmove]
  by_cases hq : q = r
  · rw [hq, update_self, update_self, hy]
  · rw [update_of_ne hq, update_of_ne hq, parents]

theorem parents_kept {pc : Pc}
    (hs : s'.proc = update (update s.proc r x) p { update s.proc r x p with pc := pc })
    (hx : x.parent = (s.proc r).parent) :
    parents s' = parents s :=
  (parents_moved hs hx).trans (update_eq_self r (parents s))

theorem parents_same (hs : s'.proc = update s.proc r x) (hx : x.parent = (s.proc r).parent) :
    parents s' = parents s := by
  funext q
  rw [parents, hs]
  by_cases hq : q = r
  · rw [hq, update_self, hx, parents]
  · rw [update_of_ne hq, parents]

/-- What a step of process `p` does to the parent pointers. -/
inductive Parents (s : Kernel) (p : Slot) (s' : Kernel) : Prop
  | same (h : parents s' = parents s)
  | link {np : Slot} {pid : Int} {k : Create} (hpc : (s.proc p).pc = .crit (.link np pid k))
      (hpc' : (s'.proc p).pc = .publish np pid k)
      (h : parents s' = update (parents s) np (some p))
  | adopt {status : Int} {q : Slot} (hpc : (s.proc p).pc = .crit (.reparent status q.val))
      (hq : parents s q = some p) (h : parents s' = update (parents s) q (some s.initproc))
  | free {q : Slot} (hs : (s.proc q).state = .unused ∨ (s.proc q).state = .zombie)
      (hq : s'.proc q = Proc.free) (h : parents s' = update (parents s) q none)

theorem effect_parent (f : Search) (x : Proc) : (f.effect x).parent = x.parent := by
  cases f with
  | kill =>
    simp only [Search.effect]
    split <;> rfl
  | freeze | thaw | getprocstate => rfl

theorem step_parents (hs : Step o p s s') : Parents s p s' := by
  cases hs with
  | dispatch hr hf hl =>
    refine .same (parents_same rfl ?_)
    unfold Proc.resume
    split <;> rfl
  | wake _ _ _ _ _ _ | publish _ _ _ | allocated _ _ _ _ _ => exact .same (parents_kept rfl rfl)
  | found hr hpc hl hf => exact .same (parents_kept rfl (effect_parent _ _))
  | allocFailed hr hpc hl hu hm =>
    refine .free (.inl hu) ?_ (parents_moved rfl rfl)
    rw [goto_of_ne (ne_of_state hu hr (by decide)), setProc_self]
  | link hr hpc => exact .link hpc (by rw [goto_self]) (parents_moved rfl rfl)
  | reap hr hpc hw hl hz hm =>
    refine .free (.inr hz) ?_ (parents_moved rfl rfl)
    rw [leave_of_ne (ne_of_state hz hr (by decide)), setProc_self]
  | reparent hr hpc hq => exact .adopt hpc hq (parents_moved rfl rfl)
  | _ => exact .same (parents_same rfl rfl)

theorem step_initproc (hs : Step o p s s') : s'.initproc = s.initproc := by
  cases hs <;> rfl

/-! ## Processes that exit and processes that are being made -/

/-- The slots that `reparent` has passed at a point of `kexit`. -/
def handed : Point → Option Nat
  | .reparent _ i => some i
  | .exitMark _ => some 64
  | _ => none

/-- The same for a process; `none` if it has not entered `kexit`. -/
def exiting : Pc → Option Nat
  | .acquire k | .crit k | .sleepLock _ k | .sleepDrop _ k | .sleepSet _ k | .asleep k
  | .wakeup _ _ k => handed k
  | .exitDrop | .exitSched | .dead => some 64
  | _ => none

/-- The slot that a process has allocated and not yet made its child. -/
def unlinked : Pc → Option Slot
  | .publish _ _ _ => none
  | pc => pending pc

theorem entry_exiting {pc : Pc} (h : entry pc = true) : exiting pc = none := by
  cases pc with
  | acquire k =>
    cases k with
    | reparent status i | exitMark status => cases h
    | _ => rfl
  | search f pid i | alloc k i => rfl
  | _ => cases h

/-- How far an exiting process has come by a step of its own. -/
inductive Exits (s : Kernel) (p : Slot) (s' : Kernel) (i : Nat) : Prop
  | stay (h : exiting (s.proc p).pc = some i)
  | start (hi : i = 0) (hp : p ≠ s.initproc)
  | done {j : Nat} (hj : 64 ≤ j) (h : exiting (s.proc p).pc = some j)
  | skip {q : Slot} (hi : i = q.val + 1) (h : exiting (s.proc p).pc = some q.val)
      (hq : parents s q ≠ some p) (hsame : parents s' = parents s)
  | adopt {q : Slot} (hi : i = q.val + 1) (h : exiting (s.proc p).pc = some q.val)
      (hq : parents s' = update (parents s) q (some s.initproc))

theorem flow_exits {pc pc' : Pc} {i : Nat} (hpc : (s.proc p).pc = pc) (hf : Flow o s p pc pc')
    (h : exiting pc' = some i) (hsame : parents s' = parents s) : Exits s p s' i := by
  cases hf with
  | start hc hk ho =>
    rw [entry_exiting (start_entry hc)] at h
    cases h
  | exit hp ho hk => exact .start (Option.some.inj h).symm hp
  | reparentOther hq => exact .skip (Option.some.inj h).symm (by rw [hpc]; rfl) hq hsame
  | wakeParent hi => exact .done hi (by rw [hpc]; rfl)
  | sleepLock | wakeSelf | wakeEnd _ => exact .stay (by rw [hpc]; exact h)
  | _ => cases h

theorem resume_exiting (x : Proc) : exiting x.resume.pc = exiting x.pc := by
  unfold Proc.resume
  split
  · next hpc => simp only [hpc]; rfl
  · rfl

theorem step_exits (hs : Step o p s s') {i : Nat} (h : exiting (s'.proc p).pc = some i) :
    Exits s p s' i := by
  cases hs with
  | dispatch hr hf hl => rw [setProc_self, resume_exiting] at h; exact .stay h
  | yield _ _ | fault _ _ _ => rw [setProc_self] at h; exact .stay h
  | walk hr hf => rw [goto_self] at h; exact flow_exits rfl hf h (parents_same rfl rfl)
  | acquire _ hpc _ | sleepDrop _ hpc | wake _ hpc _ _ _ _ | pass _ hpc _ _ _ =>
    rw [goto_self] at h
    exact .stay (by rw [hpc]; exact h)
  | sleepSet _ hpc => rw [setProc_self] at h; exact .stay (by rw [hpc]; exact h)
  | exitMark _ hpc => rw [record_proc, setProc_self] at h; exact .stay (by rw [hpc]; exact h)
  | exitDrop hpc | exitSched hpc => rw [goto_self] at h; exact .stay (by rw [hpc]; exact h)
  | reparent hr hpc hq =>
    rw [goto_self] at h
    exact .adopt (Option.some.inj h).symm (by rw [hpc]; rfl) (parents_moved rfl rfl)
  | _ => simp only [ret_self, leave_self, goto_self] at h; cases h

/-- The point of another process is the same, or it has become a fresh slot. -/
theorem touch_pc (hs : Step o p s s') (hq : q ≠ p) :
    (s'.proc q).pc = (s.proc q).pc ∨ (s'.proc q).pc = .user := by
  have htouch := step_touch hs hq
  generalize s'.proc q = x at htouch
  cases htouch with
  | signal f pid hf => exact .inl (effect_pc f _)
  | alloc _ _ _ | free _ _ => exact .inr rfl
  | _ => exact .inl rfl

theorem scheduled_iff {b : ProcState} :
    scheduled b = true ↔ b ≠ .unused ∧ b ≠ .used ∧ b ≠ .zombie := by
  cases b <;> decide

theorem effect_scheduled {f : Search} (h : scheduled x.state = true) :
    scheduled (f.effect x).state = true := by
  cases f with
  | kill =>
    simp only [Search.effect]
    split
    · rfl
    · exact h
  | freeze | thaw | getprocstate => exact h

theorem effect_state_back {f : Search}
    (h : scheduled (f.effect x).state = true ∨ (f.effect x).state = .zombie) :
    scheduled x.state = true ∨ x.state = .zombie := by
  by_cases hs : x.state = .sleeping
  · rw [hs]
    exact .inl rfl
  · rwa [effect_state f hs] at h

/-- A process that is scheduled stays so until it marks itself a zombie. -/
theorem step_scheduled (ht : Table s) (hs : Step o p s s') (hq : scheduled (s.proc q).state = true) :
    (scheduled (s'.proc q).state = true ∧ (s'.proc q).pid = (s.proc q).pid) ∨
      q = p ∧ exiting (s.proc p).pc = some 64 := by
  obtain ⟨hun, hus, hzo⟩ := scheduled_iff.mp hq
  cases step_change ht hs q with
  | keep h =>
    refine .inl ⟨scheduled_iff.mpr ⟨?_, ?_, ?_⟩, h.pid⟩
    · exact fun he => hun (h.unused.mp he)
    · exact fun he => hus (h.used.mp he)
    · exact fun he => hzo (h.zombie.mp he)
  | signal hpc hf huser h =>
    obtain ⟨pc, h⟩ := h
    rw [h]
    exact .inl ⟨effect_scheduled hq, effect_pid _ _⟩
  | fault hqp hr hpc h => rw [h]; exact .inl ⟨hq, rfl⟩
  | link hpc h => rw [h]; exact .inl ⟨hq, rfl⟩
  | publish hpc h => rw [h]; exact .inl ⟨rfl, rfl⟩
  | adopt hpc hpar h hwake =>
    obtain ⟨pc, h⟩ := h
    rw [h]
    exact .inl ⟨hq, rfl⟩
  | exit hqp hr hpc h => exact .inr ⟨hqp, by rw [hpc]; rfl⟩
  | alloc hpc hu hm h => exact absurd hu hun
  | allocFailed hu h => exact absurd hu hun
  | reap hpc hw hl hz h => exact absurd hz hzo

theorem crit_running {k : Point} (h : Tidy x) (hpc : x.pc = .crit k) :
    x.state = .running := by
  cases hs : x.state <;> simp_all [Tidy, Pc.preemptible]

theorem unlinked_pending {pc : Pc} (h : unlinked pc = some np) : pending pc = some np := by
  cases pc with
  | publish _ _ _ => cases h
  | _ => exact h

/-- A process starts to link a slot by allocating it. -/
theorem step_unlinked (hs : Step o p s s') (h : unlinked (s'.proc p).pc = some np) :
    unlinked (s.proc p).pc = some np ∨ (s.proc np).state = .unused := by
  rcases step_pending_own hs (unlinked_pending h) with hold | ⟨hu, -⟩
  · have hmoves := step_moves hs
    generalize (s'.proc p).pc = pc' at h hmoves
    cases hpc : (s.proc p).pc with
    | publish np' pid k =>
      rw [hpc] at hmoves
      cases hmoves with
      | flow hf => cases hf
      | _ => cases h
    | _ => rw [hpc] at hold; exact .inl hold
  · exact .inr hu

theorem step_published (hs : Step o p s s') {pid : Int} {k : Create}
    (h : (s'.proc p).pc = .publish np pid k) :
    (s.proc p).pc = .publish np pid k ∨ parents s' np = some p := by
  cases hs with
  | link hr hpc =>
    rw [goto_self] at h
    cases h
    refine .inr ?_
    rw [parents_moved rfl rfl, update_self]
  | dispatch hr hf hl =>
    rw [setProc_self] at h
    unfold Proc.resume at h
    split at h
    · cases h
    · exact .inl h
  | yield _ _ | fault _ _ _ => rw [setProc_self] at h; exact .inl h
  | walk hr hf =>
    rw [goto_self] at h
    generalize (s.proc p).pc = pc at hf
    cases h
    cases hf with
    | start hc hk ho => cases start_entry hc
  | _ => simp only [setProc_self, record_proc, ret_self, leave_self, goto_self] at h; cases h

/-! ## The invariant of the tree -/

/-- Nobody becomes a child of an exiting process. -/
theorem step_childless (hs : Step o p s s') {q r : Slot} (hr : r ≠ s.initproc)
    (hlink : r = p → exiting (s.proc p).pc ≠ none) (hq : parents s q ≠ some r) :
    parents s' q ≠ some r := by
  cases step_parents hs with
  | same heq => rw [heq]; exact hq
  | @link np pid k hpc hpc' heq =>
    have hrp : r ≠ p := by
      intro he
      exact hlink he (by rw [hpc]; rfl)
    rw [heq]
    by_cases hqnp : q = np
    · rw [hqnp, update_self]
      exact fun he => hrp (Option.some.inj he).symm
    · rw [update_of_ne hqnp]
      exact hq
  | @adopt status c hpc hc heq =>
    rw [heq]
    by_cases hqc : q = c
    · rw [hqc, update_self]
      exact fun he => hr (Option.some.inj he).symm
    · rw [update_of_ne hqc]
      exact hq
  | @free c hst hfree heq =>
    rw [heq]
    by_cases hqc : q = c
    · rw [hqc, update_self]
      exact nofun
    · rw [update_of_ne hqc]
      exact hq

/-- A slot gets a parent by being linked. -/
theorem step_none (hs : Step o p s s') (hnp : parents s np = none) :
    parents s' np = none ∨ pending (s.proc p).pc = some np ∧ unlinked (s'.proc p).pc = none := by
  cases step_parents hs with
  | same heq => exact .inl (heq ▸ hnp)
  | @link np' pid k hpc hpc' heq =>
    by_cases he : np = np'
    · subst he
      exact .inr ⟨by rw [hpc]; rfl, by rw [hpc']; rfl⟩
    · rw [heq, update_of_ne he]
      exact .inl hnp
  | @adopt status c hpc hc heq =>
    have he : np ≠ c := by
      intro he
      rw [← he, hnp] at hc
      cases hc
    rw [heq, update_of_ne he]
    exact .inl hnp
  | @free c hst hfree heq =>
    by_cases he : np = c
    · rw [heq, he, update_self]
      exact .inl rfl
    · rw [heq, update_of_ne he]
      exact .inl hnp

structure Family (s : Kernel) : Prop where
  init : scheduled (s.proc s.initproc).state = true
  unused : ∀ q, (s.proc q).state = .unused → parents s q = none
  handed : ∀ r i, exiting (s.proc r).pc = some i →
    r ≠ s.initproc ∧ ∀ q : Slot, q.val < i → parents s q ≠ some r
  parent : ∀ q r, parents s q = some r → scheduled (s.proc r).state = true
  fresh : ∀ r np, unlinked (s.proc r).pc = some np → parents s np = none
  published : ∀ r np pid k, (s.proc r).pc = .publish np pid k → parents s np = some r
  child : ∀ q, q ≠ s.initproc →
    scheduled (s.proc q).state = true ∨ (s.proc q).state = .zombie → parents s q ≠ none
  root : ∀ q, parents s q ≠ none → Below (parents s) s.initproc q

theorem Family.step_handed (h : Family s) (hs : Step o p s s') {i : Nat}
    (hr : exiting (s'.proc r).pc = some i) :
    r ≠ s.initproc ∧ ∀ q : Slot, q.val < i → parents s' q ≠ some r := by
  by_cases hrp : r = p
  · subst hrp
    have hold : ∀ j, exiting (s.proc r).pc = some j →
        r ≠ s.initproc ∧ ∀ q : Slot, q.val < j → parents s' q ≠ some r := by
      intro j hj
      obtain ⟨hinit, hnone⟩ := h.handed r j hj
      exact ⟨hinit, fun q hq =>
        step_childless hs hinit (fun _ => by rw [hj]; exact nofun) (hnone q hq)⟩
    cases step_exits hs hr with
    | stay hx => exact hold i hx
    | start hi hinit => exact ⟨hinit, fun q hq => by omega⟩
    | done hj hx =>
      obtain ⟨hinit, hnone⟩ := hold _ hx
      exact ⟨hinit, fun q _ => hnone q (by omega)⟩
    | @skip c hi hx hc hsame =>
      obtain ⟨hinit, hnone⟩ := hold _ hx
      refine ⟨hinit, fun q hq => ?_⟩
      by_cases hqc : q = c
      · rw [hqc, hsame]
        exact hc
      · have hne := Fin.val_ne_of_ne hqc
        exact hnone q (by omega)
    | @adopt c hi hx hc =>
      obtain ⟨hinit, hnone⟩ := hold _ hx
      refine ⟨hinit, fun q hq => ?_⟩
      by_cases hqc : q = c
      · rw [hqc, hc, update_self]
        exact fun he => hinit (Option.some.inj he).symm
      · have hne := Fin.val_ne_of_ne hqc
        exact hnone q (by omega)
  · rcases touch_pc hs hrp with hpc | hpc
    · rw [hpc] at hr
      obtain ⟨hinit, hnone⟩ := h.handed r i hr
      exact ⟨hinit, fun q hq =>
        step_childless hs hinit (fun he => absurd he hrp) (hnone q hq)⟩
    · rw [hpc] at hr
      cases hr

/-- A process inside the kernel is below the first one. -/
theorem Family.crit_below (h : Family s) (ht : Table s) {k : Point} (hpc : (s.proc p).pc = .crit k) :
    Below (parents s) s.initproc p := by
  by_cases hinit : p = s.initproc
  · rw [hinit]
    exact .root
  · refine h.root p (h.child p hinit (.inl ?_))
    rw [crit_running (ht.tidy p) hpc]
    rfl

section step

variable (h : Family s) (ht : Table s) (hs : Step o p s s')

include h ht hs

theorem Family.step_init : scheduled (s'.proc s.initproc).state = true := by
  rcases step_scheduled ht hs h.init with ⟨hi, -⟩ | ⟨hip, hx⟩
  · exact hi
  · exact absurd hip.symm (h.handed p 64 hx).1

theorem Family.step_unused (hq : (s'.proc q).state = .unused) : parents s' q = none := by
  cases step_change ht hs q with
  | keep hsame => exact hsame.parent.trans (h.unused q (hsame.unused.mp hq))
  | @signal f pid hpc hf huser heq =>
    obtain ⟨pc, heq⟩ := heq
    rw [heq] at hq
    rw [parents, heq]
    exact (effect_parent f _).trans (h.unused q ((effect_unused f _).mp hq))
  | fault hqp hr hpc heq =>
    subst hqp
    rw [heq] at hq
    exact absurd (hr.symm.trans hq) (by decide)
  | link hpc heq =>
    rw [heq] at hq
    exact absurd ((ht.used p q (by rw [hpc]; rfl)).symm.trans hq) (by decide)
  | adopt hpc hpar heq hwake =>
    obtain ⟨pc, heq⟩ := heq
    rw [heq] at hq
    exact absurd ((h.unused q hq).symm.trans hpar) (by simp)
  | allocFailed _ heq | reap _ _ _ _ heq =>
    rw [parents, heq]
    rfl
  | alloc _ _ _ heq | publish _ heq | exit _ _ _ heq =>
    rw [heq] at hq
    cases hq

theorem Family.step_parent {q r : Slot} (hq : parents s' q = some r) :
    scheduled (s'.proc r).state = true := by
  have hold : parents s q = some r → scheduled (s'.proc r).state = true := by
    intro hqr
    rcases step_scheduled ht hs (h.parent q r hqr) with ⟨hr, -⟩ | ⟨rfl, hx⟩
    · exact hr
    · exact absurd hqr ((h.handed r 64 hx).2 q q.isLt)
  cases step_parents hs with
  | same heq => exact hold (heq ▸ hq)
  | @link np pid k hpc hpc' heq =>
    by_cases hqnp : q = np
    · rw [heq, hqnp, update_self] at hq
      obtain rfl := Option.some.inj hq
      have hrun : scheduled (s.proc p).state = true := by
        rw [crit_running (ht.tidy p) hpc]
        rfl
      rcases step_scheduled ht hs hrun with ⟨hr, -⟩ | ⟨-, hx⟩
      · exact hr
      · rw [hpc] at hx
        cases hx
    · rw [heq, update_of_ne hqnp] at hq
      exact hold hq
  | @adopt status c hpc hc heq =>
    by_cases hqc : q = c
    · rw [heq, hqc, update_self] at hq
      obtain rfl := Option.some.inj hq
      exact h.step_init ht hs
    · rw [heq, update_of_ne hqc] at hq
      exact hold hq
  | @free c hst hfree heq =>
    by_cases hqc : q = c
    · rw [heq, hqc, update_self] at hq
      cases hq
    · rw [heq, update_of_ne hqc] at hq
      exact hold hq

theorem Family.step_fresh {r np : Slot} (hr : unlinked (s'.proc r).pc = some np) :
    parents s' np = none := by
  by_cases hrp : r = p
  · subst hrp
    have hnone : parents s np = none := by
      rcases step_unlinked hs hr with hold | hu
      · exact h.fresh r np hold
      · exact h.unused np hu
    rcases step_none hs hnone with hdone | ⟨-, hx⟩
    · exact hdone
    · rw [hr] at hx
      cases hx
  · rcases touch_pc hs hrp with hpc | hpc
    · rw [hpc] at hr
      rcases step_none hs (h.fresh r np hr) with hdone | ⟨hx, -⟩
      · exact hdone
      · exact absurd (ht.creator r p np (unlinked_pending hr) hx) hrp
    · rw [hpc] at hr
      cases hr

/-- A slot that its creator publishes keeps its parent. -/
theorem Family.step_kept {r np : Slot} {pid : Int} {k : Create}
    (hr : (s.proc r).pc = .publish np pid k) : parents s' np = some r := by
  have hold := h.published r np pid k hr
  have hpending : pending (s.proc r).pc = some np := by rw [hr]; rfl
  cases step_parents hs with
  | same heq => exact heq ▸ hold
  | @link np' pid' k' hpc hpc' heq =>
    have hne : np ≠ np' := by
      intro he
      subst he
      have hrp := ht.creator r p np hpending (by rw [hpc]; rfl)
      rw [hrp, hpc] at hr
      cases hr
    rw [heq, update_of_ne hne]
    exact hold
  | @adopt status c hpc hc heq =>
    have hne : np ≠ c := by
      intro he
      rw [← he, hold] at hc
      rw [Option.some.inj hc, hpc] at hr
      cases hr
    rw [heq, update_of_ne hne]
    exact hold
  | @free c hst hfree heq =>
    have hne : np ≠ c := by
      intro he
      have hused := ht.used r np hpending
      rw [← he, hused] at hst
      rcases hst with hst | hst <;> cases hst
    rw [heq, update_of_ne hne]
    exact hold

theorem Family.step_published {r np : Slot} {pid : Int} {k : Create}
    (hr : (s'.proc r).pc = .publish np pid k) : parents s' np = some r := by
  by_cases hrp : r = p
  · subst hrp
    rcases KernelTree.step_published hs hr with hold | hnew
    · exact h.step_kept ht hs hold
    · exact hnew
  · rcases touch_pc hs hrp with hpc | hpc
    · rw [hpc] at hr
      exact h.step_kept ht hs hr
    · rw [hpc] at hr
      cases hr

theorem Family.step_child (hq : q ≠ s.initproc)
    (hst : scheduled (s'.proc q).state = true ∨ (s'.proc q).state = .zombie) :
    parents s' q ≠ none := by
  cases step_change ht hs q with
  | keep hsame =>
    rw [parents, hsame.parent]
    refine h.child q hq (hst.imp (fun hsch => ?_) hsame.zombie.mp)
    obtain ⟨hun, hus, hzo⟩ := scheduled_iff.mp hsch
    exact scheduled_iff.mpr ⟨mt hsame.unused.mpr hun, mt hsame.used.mpr hus, mt hsame.zombie.mpr hzo⟩
  | @signal f pid hpc hf huser heq =>
    obtain ⟨pc, heq⟩ := heq
    rw [heq] at hst
    rw [parents, heq]
    change (f.effect (s.proc q)).parent ≠ none
    rw [effect_parent]
    exact h.child q hq (effect_state_back hst)
  | fault hqp hr hpc heq =>
    subst hqp
    rw [parents, heq]
    exact h.child q hq (.inl (by rw [hr]; rfl))
  | exit hqp hr hpc heq =>
    subst hqp
    rw [parents, heq]
    exact h.child q hq (.inl (by rw [hr]; rfl))
  | publish hpc heq =>
    rw [parents, heq]
    intro hnone
    exact absurd (hnone.symm.trans (h.published p q _ _ hpc)) (by simp)
  | link hpc heq =>
    rw [parents, heq]
    exact nofun
  | adopt hpc hpar heq hwake =>
    obtain ⟨pc, heq⟩ := heq
    rw [parents, heq]
    exact nofun
  | alloc _ _ _ heq | allocFailed _ heq | reap _ _ _ _ heq =>
    rw [heq] at hst
    rcases hst with hst | hst <;> cases hst

theorem Family.step_root (hq : parents s' q ≠ none) :
    Below (parents s') s.initproc q := by
  cases step_parents hs with
  | same heq =>
    rw [heq] at hq ⊢
    exact h.root q hq
  | @link np pid k hpc hpc' heq =>
    have hnone : parents s np = none := h.fresh p np (by rw [hpc]; rfl)
    rw [heq] at hq ⊢
    by_cases he : q = np
    · subst he
      exact .step (update_self _ _ _) ((h.crit_below ht hpc).hang hnone p)
    · rw [update_of_ne he] at hq
      exact (h.root q hq).hang hnone p
  | @adopt status c hpc hc heq =>
    rw [heq] at hq ⊢
    by_cases he : q = c
    · subst he
      exact .step (update_self _ _ _) .root
    · rw [update_of_ne he] at hq
      exact (h.root q hq).adopt c
  | @free c hst hfree heq =>
    have hleaf : ∀ r, parents s r ≠ some c := by
      intro r hr
      have hsch := h.parent r c hr
      rcases hst with hst | hst <;> rw [hst] at hsch <;> cases hsch
    rw [heq] at hq ⊢
    by_cases he : q = c
    · rw [he, update_self] at hq
      exact absurd rfl hq
    · rw [update_of_ne he] at hq
      exact (h.root q hq).cut hleaf he

theorem Family.step : Family s' := by
  have hinit := step_initproc hs
  constructor
  · rw [hinit]
    exact h.step_init ht hs
  · exact fun q => h.step_unused ht hs
  · rw [hinit]
    exact fun r i => h.step_handed hs
  · exact fun q r => h.step_parent ht hs
  · exact fun r np => h.step_fresh ht hs
  · exact fun r np pid k => h.step_published ht hs
  · rw [hinit]
    exact fun q => h.step_child ht hs
  · rw [hinit]
    exact fun q => h.step_root ht hs

end step

theorem Family.start (mem : Mem) : Family (Kernel.start mem) := by
  have hpar : ∀ q, parents (Kernel.start mem) q = none :=
    start_proc (P := fun x => x.parent = none) rfl rfl mem
  have hpc := start_pc mem
  constructor
  · rfl
  · exact fun q _ => hpar q
  · intro r i hr
    rw [hpc] at hr
    cases hr
  · intro q r hq
    rw [hpar] at hq
    cases hq
  · exact fun r np _ => hpar np
  · intro r np pid k hr
    rw [hpc] at hr
    cases hr
  · intro q hq hst
    have hq0 : q ≠ 0 := hq
    simp [Kernel.start, hq0, Proc.free, scheduled] at hst
  · exact fun q hq => absurd (hpar q) hq

theorem Family.withFails (h : Family s) (fails : List Bool) : Family (s.withFails fails) :=
  ⟨h.init, h.unused, h.handed, h.parent, h.fresh, h.published, h.child, h.root⟩

theorem Family.reach {ok : Kernel → Action → Prop} (hb : Booted ram s₀) (hr : Reach ok s₀ s) :
    Table s ∧ Family s := by
  refine Reach.invariant (I := fun t => Table t ∧ Family t) ⟨hb.table, ?_⟩ ?_ hr
  · obtain ⟨mem, rfl⟩ := hb.start
    exact Family.start mem
  · intro t a t' ⟨ht, hfam⟩ _ ha
    exact ⟨Table.act ht ha,
      (hfam.withFails a.fails).step (Table.withFails ht a.fails) (act_step ha)⟩

/-- A child keeps its parent, which goes on living, until it is given to the first process. -/
theorem Family.step_keeps (h : Family s) (ht : Table s) (hs : Step o p s s') {c r : Slot}
    (hc : parents s c = some r) (hc' : parents s' c ≠ none) :
    (parents s' c = some r ∧ (s'.proc r).pid = (s.proc r).pid) ∨
      parents s' c = some s.initproc := by
  have hpid : (s'.proc r).pid = (s.proc r).pid := by
    rcases step_scheduled ht hs (h.parent c r hc) with ⟨-, hpid⟩ | ⟨rfl, hx⟩
    · exact hpid
    · exact absurd hc ((h.handed r 64 hx).2 c c.isLt)
  cases step_parents hs with
  | same heq => exact .inl ⟨heq ▸ hc, hpid⟩
  | @link np pid k hpc hpc' heq =>
    have hne : c ≠ np := by
      intro he
      have hnone := h.fresh p np (by rw [hpc]; rfl)
      rw [← he, hc] at hnone
      cases hnone
    exact .inl ⟨by rw [heq, update_of_ne hne]; exact hc, hpid⟩
  | @adopt status q hpc hq heq =>
    by_cases he : c = q
    · exact .inr (by rw [heq, he, update_self])
    · exact .inl ⟨by rw [heq, update_of_ne he]; exact hc, hpid⟩
  | @free q hst hfree heq =>
    by_cases he : c = q
    · rw [heq, he, update_self] at hc'
      exact absurd rfl hc'
    · exact .inl ⟨by rw [heq, update_of_ne he]; exact hc, hpid⟩

/-- The same along a run in which the child is not freed. -/
theorem Family.keeps (h : Family s) (ht : Table s) {t : Kernel} {c r : Slot}
    (hr : Reach (fun u _ => (u.proc c).parent ≠ none) s t) (hc : parents s c = some r) :
    parents t c ≠ none →
      (parents t c = some r ∧ (t.proc r).pid = (s.proc r).pid) ∨
        parents t c = some t.initproc := by
  have hinv : (Table t ∧ Family t) ∧ (parents t c ≠ none →
      (parents t c = some r ∧ (t.proc r).pid = (s.proc r).pid) ∨
        parents t c = some t.initproc) := by
    refine Reach.invariant (I := fun t => (Table t ∧ Family t) ∧ (parents t c ≠ none →
      (parents t c = some r ∧ (t.proc r).pid = (s.proc r).pid) ∨
        parents t c = some t.initproc)) ⟨⟨ht, h⟩, fun _ => .inl ⟨hc, rfl⟩⟩ ?_ hr
    intro u a u' ⟨⟨htu, hfam⟩, hu⟩ hne ha
    have hs := act_step ha
    have hfam' := hfam.withFails a.fails
    have htu' := Table.withFails htu a.fails
    refine ⟨⟨Table.act htu ha, hfam'.step htu' hs⟩, fun hne' => ?_⟩
    rw [step_initproc hs]
    rcases hu hne with ⟨hpar, hpid⟩ | hpar
    · rcases hfam'.step_keeps htu' hs hpar hne' with ⟨hkept, hpid'⟩ | hinit'
      · exact .inl ⟨hkept, hpid'.trans hpid⟩
      · exact .inr hinit'
    · rcases hfam'.step_keeps htu' hs hpar hne' with ⟨hkept, -⟩ | hinit'
      · exact .inr hkept
      · exact .inr hinit'
  exact hinv.2

/-- A `getppid` that returns was waiting for the answer with `wait_lock` held. -/
theorem getppid_returns (hs : Step o p s s') {pid r : Int}
    (htrace : s'.trace = .ret q pid .getppid r :: s.trace) :
    q = p ∧ (s.proc p).pc = .crit .getppid ∧
      r = (s.proc p).parent.elim 0 fun u => (s.proc u).pid := by
  cases step_logs hs with
  | quiet h => exact absurd (h.symm.trans htrace).symm (List.cons_ne_self _ _)
  | getppid hpc h =>
    obtain ⟨hevent, -⟩ := List.cons.inj (h.symm.trans htrace)
    cases hevent
    exact ⟨rfl, hpc, rfl⟩
  | exited hpc h =>
    obtain ⟨hevent, -⟩ := List.cons.inj (h.symm.trans htrace)
    cases hevent
  | @reaped target _ _ _ _ _ _ _ _ h | @waitFailed target _ _ h =>
    obtain ⟨hevent, -⟩ := List.cons.inj (h.symm.trans htrace)
    cases target <;> cases hevent
  | other hc h =>
    obtain ⟨hevent, -⟩ := List.cons.inj (h.symm.trans htrace)
    cases hevent
    cases hc

/-- Parents are alive, unused slots have none, and every process is below the first one.  So a
process that calls `getppid` gets the pid of a living process; its parent stays the same process
until it is given to the first one.  This holds in every state, also while `wait_lock` is held. -/
theorem process_tree (hb : Booted ram s₀) (hr : Reach (fun _ _ => True) s₀ s) :
    (∀ c r, (s.proc c).parent = some r →
      (s.proc r).state ≠ .unused ∧ (s.proc r).state ≠ .zombie) ∧
    (∀ c, (s.proc c).state = .unused → (s.proc c).parent = none) ∧
    (∀ c, (s.proc c).state = .sleeping ∨ (s.proc c).state = .runnable ∨
        (s.proc c).state = .running ∨ (s.proc c).state = .zombie →
      Below (fun q => (s.proc q).parent) s.initproc c) ∧
    (∀ a s' p pid r, act a s = some (.ok s') → s'.trace = .ret p pid .getppid r :: s.trace →
      p ≠ s.initproc → ∃ q, (s.proc p).parent = some q ∧ (s.proc q).state ≠ .unused ∧
        (s.proc q).state ≠ .zombie ∧ r = (s.proc q).pid) ∧
    ∀ t c r, Reach (fun u _ => (u.proc c).parent ≠ none) s t → (s.proc c).parent = some r →
      (t.proc c).parent ≠ none →
        ((t.proc c).parent = some r ∧ (t.proc r).pid = (s.proc r).pid) ∨
          (t.proc c).parent = some t.initproc := by
  obtain ⟨ht, hfam⟩ := Family.reach hb hr
  have halive : ∀ c r, (s.proc c).parent = some r →
      (s.proc r).state ≠ .unused ∧ (s.proc r).state ≠ .zombie := by
    intro c r hc
    obtain ⟨hun, -, hzo⟩ := scheduled_iff.mp (hfam.parent c r hc)
    exact ⟨hun, hzo⟩
  refine ⟨halive, hfam.unused, ?_, ?_, ?_⟩
  · intro c hst
    by_cases hinit : c = s.initproc
    · rw [hinit]
      exact .root
    · refine hfam.root c (hfam.child c hinit ?_)
      rcases hst with h | h | h | h <;> rw [h]
      · exact .inl rfl
      · exact .inl rfl
      · exact .inl rfl
      · exact .inr rfl
  · intro a s' q pid r ha htrace hinit
    obtain ⟨rfl, hpc, rfl⟩ := getppid_returns (act_step ha) htrace
    have hrun : (s.proc a.p).state = .running := crit_running (ht.tidy a.p) hpc
    cases hpar : (s.proc a.p).parent with
    | none => exact absurd hpar (hfam.child a.p hinit (.inl (by rw [hrun]; rfl)))
    | some u =>
      obtain ⟨hun, hzo⟩ := halive a.p u hpar
      refine ⟨u, rfl, hun, hzo, ?_⟩
      change (s.proc a.p).parent.elim 0 (fun v => (s.proc v).pid) = (s.proc u).pid
      rw [hpar]
      rfl
  · intro t c r hreach hc
    exact hfam.keeps ht hreach hc

/-- The first process forks, its child forks, and the child exits as far as handing over its own
child. -/
def orphanRun : List Action :=
  callRun 0 .fork 6 ++ ⟨1, .dispatch, []⟩ :: callRun 1 .fork 7 ++ callRun 1 (.exit 0) 4

theorem process_tree_orphan :
    ((after orphanRun smallKernel).proc 2).state = .runnable ∧
    ((after orphanRun smallKernel).proc 2).parent = some 0 ∧
    Below (fun q => ((after orphanRun smallKernel).proc q).parent)
      (after orphanRun smallKernel).initproc 2 := by
  have hreach : Reach (fun _ _ => True) smallKernel (after orphanRun smallKernel) :=
    Reach.after (fun _ _ _ => trivial) (by decide +kernel)
  have hrunnable : ((after orphanRun smallKernel).proc 2).state = .runnable := by decide +kernel
  obtain ⟨-, -, hbelow, -, -⟩ := process_tree smallKernel_booted hreach
  exact ⟨hrunnable, by decide +kernel, hbelow 2 (.inr (.inl hrunnable))⟩

end KernelTree
