import Xv6Filesrv.KernelTable

/-!
# What a step does to the lasting fields of a slot and to the history

The pid, the parent, the flags and the exit status of a slot change for few reasons.  `Change`
lists them, each with the point at which the stepping process makes the change; scheduling, sleeping
and moving on inside the kernel leave these fields alone.  `Logs` lists what a step can add to the
history, with the returns of `wait`, `waitpid` and `getppid` apart from the others.
-/

namespace KernelSlots

open KernelPages KernelShm KernelProc KernelSteps KernelTable
open Function (update update_of_ne update_self)

variable {o : Op} {s s' : Kernel} {p : Slot} {x : Proc} {c : Call}

/-- The states that the scheduler, `sleep` and `wakeup` deal with. -/
def scheduled : ProcState → Bool
  | .sleeping | .runnable | .running => true
  | _ => false

/-- Two contents of a slot that differ in scheduling only. -/
structure Same (x y : Proc) : Prop where
  pid : y.pid = x.pid
  parent : y.parent = x.parent
  killed : y.killed = x.killed
  frozen : y.frozen = x.frozen
  xstate : y.xstate = x.xstate
  unused : y.state = .unused ↔ x.state = .unused
  used : y.state = .used ↔ x.state = .used
  zombie : y.state = .zombie ↔ x.state = .zombie
  chan : scheduled x.state = false → y.chan = x.chan

theorem Same.refl (x : Proc) : Same x x :=
  ⟨rfl, rfl, rfl, rfl, rfl, Iff.rfl, Iff.rfl, Iff.rfl, fun _ => rfl⟩

/-- A process goes on somewhere else. -/
theorem Same.move (x : Proc) (pc : Pc) : Same x { x with pc := pc } :=
  ⟨rfl, rfl, rfl, rfl, rfl, Iff.rfl, Iff.rfl, Iff.rfl, fun _ => rfl⟩

theorem Same.schedule {state : ProcState} (hx : scheduled x.state = true)
    (hy : scheduled state = true) (chan : Option Chan) (pc : Pc) :
    Same x { x with state := state, chan := chan, pc := pc } := by
  have hne : ∀ b, scheduled b = false → state ≠ b ∧ x.state ≠ b := by
    intro b hb
    constructor <;> intro he <;> simp_all
  have hiff : ∀ b, scheduled b = false → (state = b ↔ x.state = b) := fun b hb =>
    iff_of_false (hne b hb).1 (hne b hb).2
  exact ⟨rfl, rfl, rfl, rfl, rfl, hiff _ rfl, hiff _ rfl, hiff _ rfl, by simp [hx]⟩

theorem Same.resume (hr : x.state = .runnable) : Same x x.resume := by
  have hx : scheduled x.state = true := by rw [hr]; rfl
  unfold Proc.resume
  split
  · exact Same.schedule hx rfl none _
  · exact Same.schedule hx rfl x.chan x.pc

/-- What a step of process `p` from `s` to `s'` can do to slot `q`, its own or another. -/
inductive Change (s : Kernel) (p : Slot) (s' : Kernel) (q : Slot) : Prop
  | keep (h : Same (s.proc q) (s'.proc q))
  | signal {f : Search} {pid : Int} (hpc : (s.proc p).pc = .search f pid q.val)
      (hf : f.hits pid (s.proc q) = true) (huser : (s'.proc p).pc = .user)
      (h : ∃ pc, s'.proc q = { f.effect (s.proc q) with pc := pc })
  | fault (hq : q = p) (hr : (s.proc p).state = .running) (hpc : (s.proc p).pc = .user)
      (h : s'.proc q = { s.proc q with killed := true })
  | alloc {k : Create} (hpc : (s.proc p).pc = .alloc k q.val) (hu : (s.proc q).state = .unused)
      (hm : copyProc p q k.regs s.mem = .ok (true, s'.mem))
      (h : s'.proc q =
        { s.proc q with state := .used, pid := s.nextpid, frozen := false, pc := .user })
  | allocFailed (hu : (s.proc q).state = .unused) (h : s'.proc q = Proc.free)
  | link {pid : Int} {k : Create} (hpc : (s.proc p).pc = .crit (.link q pid k))
      (h : s'.proc q = { s.proc q with parent := some p })
  | publish {pid : Int} {k : Create} (hpc : (s.proc p).pc = .publish q pid k)
      (h : s'.proc q = { s.proc q with state := .runnable })
  | adopt {status : Int} (hpc : (s.proc p).pc = .crit (.reparent status q.val))
      (hq : (s.proc q).parent = some p)
      (h : ∃ pc, s'.proc q = { s.proc q with parent := some s.initproc, pc := pc })
      (hwake : (s'.proc p).pc = .wakeup (some (.proc s.initproc)) 0 (.reparent status (q.val + 1)))
  | exit {status : Int} (hq : q = p) (hr : (s.proc p).state = .running)
      (hpc : (s.proc p).pc = .crit (.exitMark status))
      (h : s'.proc q = { s.proc q with xstate := status, state := .zombie, pc := .exitDrop })
  | reap {target : Option Int} {addr : Nat} {havekids : Bool}
      (hpc : (s.proc p).pc = .crit (.waitScan target addr q.val havekids))
      (hw : wanted p target (s.proc q) = true) (hl : s.lockFree q = true)
      (hz : (s.proc q).state = .zombie) (h : s'.proc q = Proc.free)

/-- An update of one slot, seen from any slot. -/
theorem Change.at {q r : Slot} (hs : s'.proc = update s.proc r x)
    (h : q = r → s'.proc q = x → Change s p s' q) : Change s p s' q := by
  by_cases hqr : q = r
  · refine h hqr ?_
    rw [hs, hqr, update_self]
  · refine .keep ?_
    rw [hs, update_of_ne hqr]
    exact Same.refl _

/-- A step that only moves the stepping process. -/
theorem Change.moved {q : Slot} {pc : Pc}
    (hs : s'.proc = update s.proc p { s.proc p with pc := pc }) : Change s p s' q := by
  refine .at hs fun hq h => .keep ?_
  subst hq
  rw [h]
  exact Same.move _ _

/-- A step that moves the stepping process and updates the slot `r`. -/
theorem Change.update {q r : Slot} {pc : Pc}
    (hs : s'.proc = update (update s.proc r x) p { update s.proc r x p with pc := pc })
    (h : q = r → (∃ pc, s'.proc q = { x with pc := pc }) → Change s p s' q) :
    Change s p s' q := by
  by_cases hqr : q = r
  · subst hqr
    refine h rfl ?_
    by_cases hqp : q = p
    · subst hqp
      refine ⟨pc, ?_⟩
      rw [hs, update_self, update_self]
    · refine ⟨x.pc, ?_⟩
      rw [hs, update_of_ne hqp, update_self]
  · refine .keep ?_
    by_cases hqp : q = p
    · subst hqp
      rw [hs, update_self, update_of_ne hqr]
      exact Same.move _ _
    · rw [hs, update_of_ne hqp, update_of_ne hqr]
      exact Same.refl _

/-- The same for the slot of another process, which stays where it is put. -/
theorem Change.other {q r : Slot} {pc : Pc} (hrp : r ≠ p)
    (hs : s'.proc = Function.update (Function.update s.proc r x) p
      { Function.update s.proc r x p with pc := pc })
    (h : q = r → s'.proc q = x → Change s p s' q) : Change s p s' q := by
  refine .update hs fun hq _ => h hq ?_
  rw [hs, hq, Function.update_of_ne hrp, Function.update_self]

theorem step_change (ht : Table s) (hs : Step o p s s') (q : Slot) : Change s p s' q := by
  cases hs with
  | dispatch hr hf hl =>
    refine .at rfl fun hq h => .keep ?_
    subst hq
    rw [h]
    exact Same.resume hr
  | yield hr hp =>
    refine .at rfl fun hq h => .keep ?_
    subst hq
    rw [h]
    exact Same.schedule (by rw [hr]; rfl) rfl _ _
  | @fault va ok mem hr hpc hm =>
    refine .at rfl fun hq h => ?_
    subst hq
    cases ok with
    | true =>
      refine .keep ?_
      rw [h]
      simp only [setMem_proc, Bool.not_true, Bool.or_false]
      exact Same.refl _
    | false =>
      refine .fault rfl hr hpc ?_
      rw [h]
      simp only [setMem_proc, Bool.not_false, Bool.or_true]
  | sleepSet hr hpc =>
    refine .at rfl fun hq h => .keep ?_
    subst hq
    rw [h]
    exact Same.schedule (by rw [hr]; rfl) rfl _ _
  | exitMark hr hpc =>
    refine .at rfl fun hq h => ?_
    subst hq
    exact .exit rfl hr hpc h
  | wake hr hpc hrp hl hs hc =>
    refine .other hrp rfl fun hq h => .keep ?_
    subst hq
    rw [h]
    exact Same.schedule (by rw [hs]; rfl) rfl _ _
  | found hr hpc hl hf =>
    refine .update rfl fun hq h => ?_
    subst hq
    exact .signal hpc hf (by rw [ret_self]) h
  | allocated hr hpc hl hu hm =>
    refine .other (ne_of_state hu hr (by decide)) rfl fun hq h => ?_
    subst hq
    exact .alloc hpc hu hm h
  | allocFailed hr hpc hl hu hm =>
    refine .other (ne_of_state hu hr (by decide)) rfl fun hq h => ?_
    subst hq
    exact .allocFailed hu h
  | link hr hpc =>
    refine .other (ht.pending_ne hr (by rw [hpc]; rfl)).symm rfl fun hq h => ?_
    subst hq
    exact .link hpc h
  | publish hr hpc hl =>
    refine .other (ht.pending_ne hr (by rw [hpc]; rfl)).symm rfl fun hq h => ?_
    subst hq
    exact .publish hpc h
  | reap hr hpc hw hl hz hm =>
    refine .other (ne_of_state hz hr (by decide)) rfl fun hq h => ?_
    subst hq
    exact .reap hpc hw hl hz h
  | reparent hr hpc hpar =>
    refine .update rfl fun hq h => ?_
    subst hq
    exact .adopt hpc hpar h (by rw [goto_self])
  | _ => exact .moved rfl

/-- Calls whose returns are not looked at here. -/
def plain : Call → Bool
  | .wait _ | .waitpid _ _ | .getppid => false
  | _ => true

/-- What a step of process `p` from `s` to `s'` can add to the history. -/
inductive Logs (s : Kernel) (p : Slot) (s' : Kernel) : Prop
  | quiet (h : s'.trace = s.trace)
  | exited {status : Int} (hpc : (s.proc p).pc = .crit (.exitMark status))
      (h : s'.trace = .exited p (s.proc p).pid status :: s.trace)
  | reaped {target : Option Int} {addr : Nat} {q : Slot} {havekids : Bool}
      (hpc : (s.proc p).pc = .crit (.waitScan target addr q.val havekids))
      (hw : wanted p target (s.proc q) = true) (hz : (s.proc q).state = .zombie)
      (hm : reap p q addr (s.proc q).xstate s.mem = .ok (true, s'.mem))
      (hproc : s'.proc = update (update s.proc q Proc.free) p
        { s.proc p with pc := .user })
      (h : s'.trace =
        .ret p (s.proc p).pid (waitCall target addr) (s.proc q).pid :: s.trace)
  | waitFailed {target : Option Int} {addr : Nat}
      (hproc : s'.proc = update s.proc p { s.proc p with pc := .user })
      (h : s'.trace = .ret p (s.proc p).pid (waitCall target addr) (-1) :: s.trace)
  | getppid (hpc : (s.proc p).pc = .crit .getppid)
      (h : s'.trace = .ret p (s.proc p).pid .getppid
        ((s.proc p).parent.elim 0 fun q => (s.proc q).pid) :: s.trace)
  | other {c : Call} {r pid : Int} (hc : plain c = true) (h : s'.trace = .ret p pid c r :: s.trace)

theorem memory_plain {m : M Int} (h : c.memory p = some m) : plain c = true := by
  cases c with
  | wait _ | waitpid _ _ | getppid => cases h
  | _ => rfl

theorem step_logs (hs : Step o p s s') : Logs s p s' := by
  cases hs with
  | memory _ _ hc _ _ => exact .other (memory_plain hc) rfl
  | exitMark hr hpc => exact .exited hpc rfl
  | mutexCreate _ _ _ => exact .other rfl rfl
  | @mutexTake id k c _ _ hk _ _ => cases hk <;> exact .other rfl rfl
  | @found f _ _ _ _ _ _ => cases f <;> exact .other rfl rfl
  | @ret c r hr h =>
    generalize (s.proc p).pc = pc at h
    cases h with
    | refused hstart hmem =>
      cases c with
      | waitpid pid addr => exact @Logs.waitFailed _ _ _ (some pid) addr rfl rfl
      | wait _ | getppid => cases hstart
      | _ => exact .other rfl rfl
    | @notFound f _ _ _ => cases f <;> exact .other rfl rfl
    | forked | threadCreated | forkedAll _ => exact .other rfl rfl
  | answer hr hpc ha =>
    cases ha with
    | getppid => exact .getppid hpc rfl
    | waitFailed _ _ => exact .waitFailed rfl rfl
    | _ => exact .other rfl rfl
  | @reap target addr q havekids mem hr hpc hw hl hz hm =>
    have hp : update s.proc q Proc.free p = s.proc p :=
      update_of_ne (ne_of_state hr hz (by decide)) _ _
    refine .reaped hpc hw hz hm ?_ ?_
    · rw [← hp]
      rfl
    · rw [← hp]
      rfl
  | reapFailed _ _ _ _ _ _ => exact .waitFailed rfl rfl
  | _ => exact .quiet rfl

/-! ## Where a return comes from -/

/-- Calls that return from a search by pid. -/
def searches : Call → Bool
  | .kill _ | .freeze _ | .thaw _ | .getprocstate _ => true
  | _ => false

/-- The kinds of returns: from a call that only touches memory, from a search that found its process
or that did not, and from the rest. -/
inductive Origin (s : Kernel) (p : Slot) (s' : Kernel) : Call → Int → Prop
  | memory {c : Call} {m : M Int} {r : Int} (hc : c.memory p = some m)
      (hm : m s.mem = .ok (r, s'.mem)) : Origin s p s' c r
  | found {f : Search} {pid : Int} {q : Slot} (hq : f.hits pid (s.proc q) = true)
      (h : ∃ pc, s'.proc q = { f.effect (s.proc q) with pc := pc }) :
      Origin s p s' (f.call pid) (f.answer (s.proc q))
  | missed {f : Search} {pid : Int} : Origin s p s' (f.call pid) (-1)
  | other {c : Call} {r : Int} (hm : c.memory p = none) (hs : searches c = false) :
      Origin s p s' c r

theorem origin_waited {target : Option Int} {addr : Nat} {r : Int} :
    Origin s p s' (waitCall target addr) r := by
  cases target <;> exact .other rfl rfl

theorem origin_returns {pc : Pc} {r : Int} (h : Returns s p pc c r) :
    Origin s p s' c r := by
  cases h with
  | refused hstart hmem =>
    cases c with
    | kill pid | freeze pid | thaw pid => cases hstart
    | getprocstate pid => exact @Origin.missed _ _ _ .getprocstate pid
    | _ => exact .other hmem rfl
  | notFound _ => exact .missed
  | forked | threadCreated | forkedAll _ => exact .other rfl rfl

theorem origin_answers {k : Point} {r : Int} (h : Answers s p k c r) :
    Origin s p s' c r := by
  cases h with
  | waitFailed _ _ => exact origin_waited
  | _ => exact .other rfl rfl

theorem ne_cons {e : Event} {es : List Event} : es ≠ e :: es := by
  intro h
  have hlen := congrArg List.length h
  simp at hlen

theorem origin_of_eq {r r' : Slot} {n n' x x' : Int} {c c' : Call} {es es' : List Event}
    (h : Event.ret r n c x :: es = .ret r' n' c' x' :: es') (ho : Origin s p s' c x) :
    Origin s p s' c' x' := by
  cases h
  exact ho

/-- Every return that a step adds to the history has its origin in the step. -/
theorem step_origin {r : Slot} {n x : Int} (hs : Step o p s s')
    (h : s'.trace = .ret r n c x :: s.trace) : Origin s p s' c x := by
  cases hs with
  | memory _ _ hc hm _ => exact origin_of_eq h (.memory hc hm)
  | ret _ hret => exact origin_of_eq h (origin_returns hret)
  | answer _ _ ha => exact origin_of_eq h (origin_answers ha)
  | mutexCreate _ _ _ => exact origin_of_eq h (.other rfl rfl)
  | mutexTake _ _ hk _ _ => cases hk <;> exact origin_of_eq h (.other rfl rfl)
  | reap _ _ _ _ _ _ | reapFailed _ _ _ _ _ _ => exact origin_of_eq h origin_waited
  | @found f pid q hr hpc hl hq =>
    refine origin_of_eq h (.found hq ?_)
    by_cases hqp : q = p
    · subst hqp
      exact ⟨.user, by rw [ret_self, setProc_self]⟩
    · exact ⟨_, by rw [ret_of_ne hqp, setProc_self]⟩
  | exitMark _ _ => cases h
  | _ => exact absurd h ne_cons

/-- A return of a call that only touches memory. -/
theorem step_ran {r : Slot} {n x : Int} {m : M Int} (hs : Step o p s s')
    (h : s'.trace = .ret r n c x :: s.trace) (hc : c.memory p = some m) :
    m s.mem = .ok (x, s'.mem) := by
  have horigin := step_origin hs h
  cases horigin with
  | memory hc' hm => exact Option.some.inj (hc.symm.trans hc') ▸ hm
  | @found f _ _ _ _ | @missed f _ => cases f <;> cases hc
  | other hnone _ => exact absurd (hc.symm.trans hnone) nofun

end KernelSlots
