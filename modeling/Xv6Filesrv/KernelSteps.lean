import Xv6Filesrv.KernelProc

/-!
# What a step can do

`Step o p s s'` lists the possible effects of a step of process `p`, with the tests
that lead to them; `act_step` says that there are no others. Every invariant of
the process table is proved from this list and never from the code of `act`.
-/

namespace KernelSteps

open KernelPages KernelShm KernelProc

variable {id : MutexId} {k : Create} {i : Nat}

/-- Moves of a running process that change nothing but where it is. -/
inductive Flow (o : Op) (s : Kernel) (p : Slot) : Pc → Pc → Prop
  | start {c : Call} {pc : Pc} (h : c.start (s.mem.space p).sz = some pc)
      (hk : (s.proc p).killed = false) (ho : o = .call c) : Flow o s p .user pc
  | exit {c : Call} {status : Int} (h : p ≠ s.initproc) (ho : o = .call c)
      (hk : (s.proc p).killed = true ∨ c = .exit status) :
      Flow o s p .user (.acquire (.reparent status 0))
  | sleepMutex {id : MutexId} {k : Point} (hk : k = .mutexLock id ∨ k = .mutexWoken id)
      (hu : (s.mutex id).used = true) (hl : (s.mutex id).locked = true)
      (ho : (s.mutex id).ownerPid ≠ (s.proc p).pid) :
      Flow o s p (.crit k) (.sleepLock (.kmutex id) (.mutexWoken id))
  | sleepChild {target : Option Int} {addr i : Nat} (h : 64 ≤ i)
      (hk : (s.proc p).killed = false) :
      Flow o s p (.crit (.waitScan target addr i true))
        (.sleepLock (.proc p) (.waitScan target addr 0 false))
  | scanLiving {target : Option Int} {addr : Nat} {q : Slot} {havekids : Bool}
      (hq : wanted p target (s.proc q) = true) (hz : (s.proc q).state ≠ .zombie) :
      Flow o s p (.crit (.waitScan target addr q.val havekids))
        (.crit (.waitScan target addr (if target.isSome then 64 else q.val + 1) true))
  | scanOther {target : Option Int} {addr : Nat} {q : Slot} {havekids : Bool}
      (hq : wanted p target (s.proc q) = false) :
      Flow o s p (.crit (.waitScan target addr q.val havekids))
        (.crit (.waitScan target addr (q.val + 1) havekids))
  | reparentOther {status : Int} {q : Slot} (hq : (s.proc q).parent ≠ some p) :
      Flow o s p (.crit (.reparent status q.val)) (.crit (.reparent status (q.val + 1)))
  | wakeParent {status : Int} {i : Nat} (h : 64 ≤ i) :
      Flow o s p (.crit (.reparent status i))
        (.wakeup ((s.proc p).parent.map .proc) 0 (.exitMark status))
  | sleepLock {c : Chan} {k : Point} : Flow o s p (.sleepLock c k) (.sleepDrop c k)
  | wakeSelf {c : Option Chan} {k : Point} :
      Flow o s p (.wakeup c p.val k) (.wakeup c (p.val + 1) k)
  | wakeEnd {c : Option Chan} {i : Nat} {k : Point} (h : 64 ≤ i) :
      Flow o s p (.wakeup c i k) (.crit k)
  | searchNext {f : Search} {pid : Int} {q : Slot} (hq : f.hits pid (s.proc q) = false) :
      Flow o s p (.search f pid q.val) (.search f pid (q.val + 1))
  | allocNext {k : Create} {q : Slot} (hq : (s.proc q).state ≠ .unused) :
      Flow o s p (.alloc k q.val) (.alloc k (q.val + 1))
  | allocNone {k : Create} {i : Nat} (h : 64 ≤ i) :
      Flow o s p (.alloc k i) (.created k (-1))
  | forkAgain {n i count rc : Int} (hrc : 0 < rc) (hi : i + 1 < n) :
      Flow o s p (.created (.forkn n i count) rc) (.alloc (.forkn n (i + 1) (count + 1)) 0)

/-- Returns from system calls that do not hold `wait_lock` and change nothing. -/
inductive Returns (s : Kernel) (p : Slot) : Pc → Call → Int → Prop
  | refused {c : Call} (h : c.start (s.mem.space p).sz = none) (hm : c.memory p = none) :
      Returns s p .user c (-1)
  | notFound {f : Search} {pid : Int} {i : Nat} (h : 64 ≤ i) :
      Returns s p (.search f pid i) (f.call pid) (-1)
  | forked {rc : Int} : Returns s p (.created .fork rc) .fork rc
  | threadCreated {fn arg : Nat} {rc : Int} :
      Returns s p (.created (.thread fn arg) rc) (.threadCreate fn arg) rc
  | forkedAll {n i count rc r : Int}
      (h : rc < 0 ∧ r = count ∨ rc = 0 ∧ r = 0 ∨ 0 < rc ∧ n ≤ i + 1 ∧ r = count + 1) :
      Returns s p (.created (.forkn n i count) rc) (.forkn n) r

/-- Returns that release `wait_lock` and change nothing else. -/
inductive Answers (s : Kernel) (p : Slot) : Point → Call → Int → Prop
  | getppid :
      Answers s p .getppid .getppid ((s.proc p).parent.elim 0 fun q => (s.proc q).pid)
  | createFull (h : ∀ id, (s.mutex id).used = true) :
      Answers s p .mutexCreate .mutexCreate (-1)
  | lockRefused {id : MutexId} {k : Point} (hk : k = .mutexLock id ∨ k = .mutexWoken id)
      (h : (s.mutex id).used = false ∨ (s.mutex id).ownerPid = (s.proc p).pid ∨
        (s.proc p).killed = true) :
      Answers s p k (.mutexLock id.val) (-1)
  | unlockRefused {id : MutexId} (h : (s.mutex id).used = false ∨
        (s.mutex id).locked = false ∨ (s.mutex id).ownerPid ≠ (s.proc p).pid) :
      Answers s p (.mutexUnlock id) (.mutexUnlock id.val) (-1)
  | unlocked {id : MutexId} : Answers s p (.mutexUnlocked id) (.mutexUnlock id.val) 0
  | trylockRefused {id : MutexId} (h : (s.mutex id).used = false ∨ (s.mutex id).locked = true) :
      Answers s p (.mutexTrylock id) (.mutexTrylock id.val) (-1)
  | ownerUnused {id : MutexId} (hu : (s.mutex id).used = false) :
      Answers s p (.mutexOwner id) (.mutexOwner id.val) (-1)
  | owner {id : MutexId} (hu : (s.mutex id).used = true) :
      Answers s p (.mutexOwner id) (.mutexOwner id.val)
        (if (s.mutex id).locked = false then 0 else (s.mutex id).ownerPid)
  | waitFailed {target : Option Int} {addr i : Nat} {havekids : Bool} (hi : 64 ≤ i)
      (h : havekids = false ∨ (s.proc p).killed = true) :
      Answers s p (.waitScan target addr i havekids) (waitCall target addr) (-1)

/-- Points at which a mutex is taken, and the system call that does it. -/
inductive Takes (id : MutexId) : Point → Call → Prop
  | lock : Takes id (.mutexLock id) (.mutexLock id.val)
  | woken : Takes id (.mutexWoken id) (.mutexLock id.val)
  | trylock : Takes id (.mutexTrylock id) (.mutexTrylock id.val)

/-- Slot `np` drawn a pid by `allocproc`. -/
def draw (s : Kernel) (mem : Mem) : Kernel :=
  { s.setMem mem with nextpid := wrap32 (s.nextpid + 1), born := s.nextpid :: s.born }

inductive Step (o : Op) (p : Slot) (s : Kernel) : Kernel → Prop
  | dispatch (hr : (s.proc p).state = .runnable) (hf : (s.proc p).frozen = false)
      (hl : s.lockFree p = true) : Step o p s (s.setProc p Proc.resume)
  | yield (hr : (s.proc p).state = .running) (hp : (s.proc p).pc.preemptible = true) :
      Step o p s (s.setProc p fun x => { x with state := .runnable })
  | fault {va : Nat} {ok : Bool} {mem : Mem} (hr : (s.proc p).state = .running)
      (hpc : (s.proc p).pc = .user) (hm : pageFault p va s.mem = .ok (ok, mem)) :
      Step o p s ((s.setMem mem).setProc p fun x => { x with killed := x.killed || !ok })
  | memory {c : Call} {m : M Int} {r : Int} {mem : Mem} (hr : (s.proc p).state = .running)
      (hpc : (s.proc p).pc = .user) (hc : c.memory p = some m)
      (hm : m s.mem = .ok (r, mem)) (ho : o = .call c) : Step o p s ((s.setMem mem).ret p c r)
  | walk {pc : Pc} (hr : (s.proc p).state = .running) (hf : Flow o s p (s.proc p).pc pc) :
      Step o p s (s.goto p pc)
  | ret {c : Call} {r : Int} (hr : (s.proc p).state = .running)
      (h : Returns s p (s.proc p).pc c r) : Step o p s (s.ret p c r)
  | acquire {k : Point} (hr : (s.proc p).state = .running) (hpc : (s.proc p).pc = .acquire k)
      (hw : s.waitLock = none) : Step o p s ((s.acquire p).goto p (.crit k))
  | answer {k : Point} {c : Call} {r : Int} (hr : (s.proc p).state = .running)
      (hpc : (s.proc p).pc = .crit k) (ha : Answers s p k c r) : Step o p s (s.leave p c r)
  | mutexCreate {id : MutexId} (hr : (s.proc p).state = .running)
      (hpc : (s.proc p).pc = .crit .mutexCreate) (hu : (s.mutex id).used = false) :
      Step o p s ((s.setMutex id ⟨true, false, -1⟩).leave p .mutexCreate id.val)
  | mutexTake {id : MutexId} {k : Point} {c : Call} (hr : (s.proc p).state = .running)
      (hpc : (s.proc p).pc = .crit k) (hk : Takes id k c) (hu : (s.mutex id).used = true)
      (hl : (s.mutex id).locked = false) :
      Step o p s ((s.setMutex id ⟨true, true, (s.proc p).pid⟩).leave p c 0)
  | mutexFree {id : MutexId} (hr : (s.proc p).state = .running)
      (hpc : (s.proc p).pc = .crit (.mutexUnlock id)) (hu : (s.mutex id).used = true)
      (hl : (s.mutex id).locked = true) (ho : (s.mutex id).ownerPid = (s.proc p).pid) :
      Step o p s ((s.setMutex id ⟨true, false, -1⟩).goto p
        (.wakeup (some (.kmutex id)) 0 (.mutexUnlocked id)))
  | sleepDrop {c : Chan} {k : Point} (hr : (s.proc p).state = .running)
      (hpc : (s.proc p).pc = .sleepDrop c k) : Step o p s (s.release.goto p (.sleepSet c k))
  | sleepSet {c : Chan} {k : Point} (hr : (s.proc p).state = .running)
      (hpc : (s.proc p).pc = .sleepSet c k) :
      Step o p s (s.setProc p fun x =>
        { x with chan := some c, state := .sleeping, pc := .asleep k })
  | wake {c : Option Chan} {q : Slot} {k : Point} (hr : (s.proc p).state = .running)
      (hpc : (s.proc p).pc = .wakeup c q.val k) (hq : q ≠ p) (hl : s.lockFree q = true)
      (hs : (s.proc q).state = .sleeping) (hc : (s.proc q).chan = c) :
      Step o p s ((s.setProc q fun x => { x with state := .runnable }).goto p
        (.wakeup c (q.val + 1) k))
  | pass {c : Option Chan} {q : Slot} {k : Point} (hr : (s.proc p).state = .running)
      (hpc : (s.proc p).pc = .wakeup c q.val k) (hq : q ≠ p) (hl : s.lockFree q = true)
      (hs : ¬ ((s.proc q).state = .sleeping ∧ (s.proc q).chan = c)) :
      Step o p s (s.goto p (.wakeup c (q.val + 1) k))
  | found {f : Search} {pid : Int} {q : Slot} (hr : (s.proc p).state = .running)
      (hpc : (s.proc p).pc = .search f pid q.val) (hl : s.lockFree q = true)
      (hq : f.hits pid (s.proc q) = true) :
      Step o p s ((s.setProc q f.effect).ret p (f.call pid) (f.answer (s.proc q)))
  | allocated {k : Create} {np : Slot} {mem : Mem} (hr : (s.proc p).state = .running)
      (hpc : (s.proc p).pc = .alloc k np.val) (hl : s.lockFree np = true)
      (hu : (s.proc np).state = .unused)
      (hm : copyProc p np k.regs s.mem = .ok (true, mem)) :
      Step o p s (((draw s mem).setProc np fun x =>
        { x with state := .used, pid := s.nextpid, frozen := false, pc := .user }).goto p
        (.acquire (.link np s.nextpid k)))
  | allocFailed {k : Create} {np : Slot} {mem : Mem} (hr : (s.proc p).state = .running)
      (hpc : (s.proc p).pc = .alloc k np.val) (hl : s.lockFree np = true)
      (hu : (s.proc np).state = .unused)
      (hm : copyProc p np k.regs s.mem = .ok (false, mem)) :
      Step o p s (((draw s mem).setProc np fun _ => Proc.free).goto p (.created k (-1)))
  | link {np : Slot} {pid : Int} {k : Create} (hr : (s.proc p).state = .running)
      (hpc : (s.proc p).pc = .crit (.link np pid k)) :
      Step o p s ((s.setProc np fun x => { x with parent := some p }).release.goto p
        (.publish np pid k))
  | publish {np : Slot} {pid : Int} {k : Create} (hr : (s.proc p).state = .running)
      (hpc : (s.proc p).pc = .publish np pid k) (hl : s.lockFree np = true) :
      Step o p s ((s.setProc np fun x => { x with state := .runnable }).goto p (.created k pid))
  | reap {target : Option Int} {addr : Nat} {q : Slot} {havekids : Bool} {mem : Mem}
      (hr : (s.proc p).state = .running)
      (hpc : (s.proc p).pc = .crit (.waitScan target addr q.val havekids))
      (hq : wanted p target (s.proc q) = true) (hl : s.lockFree q = true)
      (hz : (s.proc q).state = .zombie)
      (hm : reap p q addr (s.proc q).xstate s.mem = .ok (true, mem)) :
      Step o p s (((s.setMem mem).setProc q fun _ => Proc.free).leave p (waitCall target addr)
        (s.proc q).pid)
  | reapFailed {target : Option Int} {addr : Nat} {q : Slot} {havekids : Bool} {mem : Mem}
      (hr : (s.proc p).state = .running)
      (hpc : (s.proc p).pc = .crit (.waitScan target addr q.val havekids))
      (hq : wanted p target (s.proc q) = true) (hl : s.lockFree q = true)
      (hz : (s.proc q).state = .zombie)
      (hm : reap p q addr (s.proc q).xstate s.mem = .ok (false, mem)) :
      Step o p s ((s.setMem mem).leave p (waitCall target addr) (-1))
  | reparent {status : Int} {q : Slot} (hr : (s.proc p).state = .running)
      (hpc : (s.proc p).pc = .crit (.reparent status q.val))
      (hq : (s.proc q).parent = some p) :
      Step o p s ((s.setProc q fun x => { x with parent := some s.initproc }).goto p
        (.wakeup (some (.proc s.initproc)) 0 (.reparent status (q.val + 1))))
  | exitMark {status : Int} (hr : (s.proc p).state = .running)
      (hpc : (s.proc p).pc = .crit (.exitMark status)) :
      Step o p s ((s.setProc p fun x =>
        { x with xstate := status, state := .zombie, pc := .exitDrop }).record
        (.exited p (s.proc p).pid status))
  | exitDrop (hpc : (s.proc p).pc = .exitDrop) : Step o p s (s.release.goto p .exitSched)
  | exitSched (hpc : (s.proc p).pc = .exitSched) : Step o p s (s.goto p .dead)

variable {o : Op} {p : Slot} {s s' : Kernel}

/-- Only a process on its way out is on a CPU without being `RUNNING`. -/
theorem running_of_onCpu {x : Proc} (h : x.onCpu = true) (hd : x.pc ≠ .exitDrop)
    (he : x.pc ≠ .exitSched) : x.state = .running := by
  unfold Proc.onCpu at h
  split at h <;> simp_all

/-- A memory operation that returns has changed the memory alone. -/
theorem onMem_ok {m : M α} {f : α → Kernel → Kernel} (h : s.onMem m f = .ok s') :
    ∃ a mem, m s.mem = .ok (a, mem) ∧ s' = f a (s.setMem mem) := by
  unfold Kernel.onMem at h
  split at h
  · next a mem hm => exact ⟨a, mem, hm, (Except.ok.inj h).symm⟩
  · cases h

section Running

variable (hr : (s.proc p).state = .running)
include hr

/-- A free mutex is handed out, or all of them are in use. -/
theorem sysMutexCreate_step (hpc : (s.proc p).pc = .crit .mutexCreate) :
    Step o p s (sysMutexCreate s p) := by
  unfold sysMutexCreate
  split
  · next id hid =>
    have hu := List.find?_some hid
    exact .mutexCreate hr hpc (by simpa using hu)
  · next hnone =>
    rw [List.find?_eq_none] at hnone
    exact .answer hr hpc (.createFull fun id => by simpa using hnone id (List.mem_finRange id))

/-- The lock is refused, taken or waited for.  The loop in the source tests the same things again
after each sleep, hence the two points. -/
theorem sysMutexLock_step {k : Point} (hpc : (s.proc p).pc = .crit k)
    (hk : k = .mutexLock id ∨ k = .mutexWoken id) : Step o p s (sysMutexLock s p id) := by
  have hT : Takes id k (.mutexLock id.val) := by
    cases hk with
    | inl hk => exact hk ▸ .lock
    | inr hk => exact hk ▸ .woken
  unfold sysMutexLock
  split
  · next hu => exact .answer hr hpc (.lockRefused hk (.inl hu))
  · next hu =>
    simp only [Bool.not_eq_false] at hu
    split
    · next hl =>
      simp only [hu]
      exact .mutexTake hr hpc hT hu hl
    · next hl =>
      simp only [Bool.not_eq_false] at hl
      split
      · next ho => exact .answer hr hpc (.lockRefused hk (.inr (.inl ho)))
      · next ho => exact .walk hr (hpc ▸ .sleepMutex hk hu hl ho)

/-- Only the owner of a locked mutex unlocks it. -/
theorem sysMutexUnlock_step (hpc : (s.proc p).pc = .crit (.mutexUnlock id)) :
    Step o p s (sysMutexUnlock s p id) := by
  unfold sysMutexUnlock
  split
  · next h =>
    refine .answer hr hpc (.unlockRefused ?_)
    cases h with
    | inl hu => exact .inl hu
    | inr hl => exact .inr (.inl hl)
  · next h =>
    simp only [not_or, Bool.not_eq_false] at h
    split
    · next ho => exact .answer hr hpc (.unlockRefused (.inr (.inr ho)))
    · next ho =>
      simp only [h.1]
      exact .mutexFree hr hpc h.1 h.2 (not_not.mp ho)

theorem sysMutexTrylock_step (hpc : (s.proc p).pc = .crit (.mutexTrylock id)) :
    Step o p s (sysMutexTrylock s p id) := by
  unfold sysMutexTrylock
  split
  · next hu => exact .answer hr hpc (.trylockRefused (.inl hu))
  · next hu =>
    simp only [Bool.not_eq_false] at hu
    split
    · next hl =>
      simp only [hu]
      exact .mutexTake hr hpc .trylock hu hl
    · next hl => exact .answer hr hpc (.trylockRefused (.inr (by simpa using hl)))

theorem sysMutexOwner_step (hpc : (s.proc p).pc = .crit (.mutexOwner id)) :
    Step o p s (sysMutexOwner s p id) := by
  unfold sysMutexOwner
  split
  · next hu => exact .answer hr hpc (.ownerUnused hu)
  · next hu => exact .answer hr hpc (.owner (by simpa using hu))

/-- A turn of the loop of `kwait` and `kwaitpid`, or what follows the loop. -/
theorem waitScan_step {target : Option Int} {addr i : Nat} {havekids : Bool}
    (hpc : (s.proc p).pc = .crit (.waitScan target addr i havekids))
    (h : waitScan s p target addr i havekids = some (.ok s')) : Step o p s s' := by
  unfold waitScan at h
  split at h
  · next hi =>
    obtain ⟨q, rfl⟩ : ∃ q : Slot, q.val = i := ⟨⟨i, hi⟩, rfl⟩
    simp only [Fin.eta] at h
    split at h
    · next hq =>
      split at h
      · next hl =>
        split at h
        · next hz =>
          obtain ⟨ok, mem, hm, rfl⟩ := onMem_ok (Option.some.inj h)
          cases ok with
          | true => exact .reap hr hpc hq hl hz hm
          | false => exact .reapFailed hr hpc hq hl hz hm
        · next hz =>
          cases h
          exact .walk hr (hpc ▸ .scanLiving hq hz)
      · cases h
    · next hq =>
      cases h
      exact .walk hr (hpc ▸ .scanOther (by simpa using hq))
  · next hi =>
    split at h
    · next hfail =>
      cases h
      exact .answer hr hpc (.waitFailed (by omega) hfail)
    · next hwait =>
      cases h
      simp only [not_or, Bool.not_eq_false, Bool.not_eq_true] at hwait
      rw [hwait.1] at hpc
      exact .walk hr (hpc ▸ .sleepChild (by omega) hwait.2)

theorem reparent_step {status : Int} (hpc : (s.proc p).pc = .crit (.reparent status i)) :
    Step o p s (reparent s p status i) := by
  unfold reparent
  split
  · next hi =>
    obtain ⟨q, rfl⟩ : ∃ q : Slot, q.val = i := ⟨⟨i, hi⟩, rfl⟩
    simp only [Fin.eta]
    split
    · next hq => exact .reparent hr hpc hq
    · next hq => exact .walk hr (hpc ▸ .reparentOther hq)
  · next hi => exact .walk hr (hpc ▸ .wakeParent (by omega))

/-- Steps taken while `wait_lock` is held. -/
theorem critical_step {k : Point} (hpc : (s.proc p).pc = .crit k)
    (h : critical s p k = some (.ok s')) : Step o p s s' := by
  cases k with
  | waitScan target addr i havekids => exact waitScan_step hr hpc h
  | getppid => cases h; exact .answer hr hpc .getppid
  | mutexCreate => cases h; exact sysMutexCreate_step hr hpc
  | mutexLock id => cases h; exact sysMutexLock_step hr hpc (.inl rfl)
  | mutexWoken id =>
    cases h
    split
    · next hkill => exact .answer hr hpc (.lockRefused (.inr rfl) (.inr (.inr hkill)))
    · exact sysMutexLock_step hr hpc (.inr rfl)
  | mutexUnlock id => cases h; exact sysMutexUnlock_step hr hpc
  | mutexUnlocked id => cases h; exact .answer hr hpc .unlocked
  | mutexTrylock id => cases h; exact sysMutexTrylock_step hr hpc
  | mutexOwner id => cases h; exact sysMutexOwner_step hr hpc
  | link np pid k => cases h; exact .link hr hpc
  | reparent status i => cases h; exact reparent_step hr hpc
  | exitMark status => cases h; exact .exitMark hr hpc

/-- A turn of the loop of `wakeup`, which waits for the lock of the slot. -/
theorem wakeup_step {c : Option Chan} {k : Point} (hpc : (s.proc p).pc = .wakeup c i k)
    (h : wakeup s p c i k = some s') : Step o p s s' := by
  unfold wakeup at h
  split at h
  · next hi =>
    obtain ⟨q, rfl⟩ : ∃ q : Slot, q.val = i := ⟨⟨i, hi⟩, rfl⟩
    simp only [Fin.eta] at h
    split at h
    · next hq =>
      cases h
      subst hq
      exact .walk hr (hpc ▸ .wakeSelf)
    · next hq =>
      split at h
      · next hl =>
        cases h
        split
        · next hs => exact .wake hr hpc hq hl hs.1 hs.2
        · next hs => exact .pass hr hpc hq hl hs
      · cases h
  · next hi =>
    cases h
    exact .walk hr (hpc ▸ .wakeEnd (by omega))

/-- A turn of the loops of `kkill`, `kfreeze`, `kthaw` and `kgetprocstate`. -/
theorem search_step {f : Search} {pid : Int} (hpc : (s.proc p).pc = .search f pid i)
    (h : search s p f pid i = some s') : Step o p s s' := by
  unfold search at h
  split at h
  · next hi =>
    obtain ⟨q, rfl⟩ : ∃ q : Slot, q.val = i := ⟨⟨i, hi⟩, rfl⟩
    simp only [Fin.eta] at h
    split at h
    · next hl =>
      split at h
      · next hq => cases h; exact .found hr hpc hl hq
      · next hq => cases h; exact .walk hr (hpc ▸ .searchNext (by simpa using hq))
    · cases h
  · next hi =>
    cases h
    exact .ret hr (hpc ▸ .notFound (by omega))

/-- A turn of the loop of `allocproc`, with the copy of the parent where the slot is free. -/
theorem alloc_step (hpc : (s.proc p).pc = .alloc k i) (h : alloc s p k i = some (.ok s')) :
    Step o p s s' := by
  unfold alloc at h
  split at h
  · next hi =>
    obtain ⟨q, rfl⟩ : ∃ q : Slot, q.val = i := ⟨⟨i, hi⟩, rfl⟩
    simp only [Fin.eta] at h
    split at h
    · next hl =>
      split at h
      · next hu =>
        obtain ⟨ok, mem, hm, rfl⟩ := onMem_ok (Option.some.inj h)
        cases ok with
        | true => exact .allocated hr hpc hl hu hm
        | false => exact .allocFailed hr hpc hl hu hm
      · next hu => cases h; exact .walk hr (hpc ▸ .allocNext hu)
    · cases h
  · next hi =>
    cases h
    exact .walk hr (hpc ▸ .allocNone (by omega))

/-- What the callers of `kfork` do with its result; `forkn` goes on with the next child. -/
theorem created_step {rc : Int} (hpc : (s.proc p).pc = .created k rc) :
    Step o p s (created s p k rc) := by
  cases k with
  | fork => exact .ret hr (hpc ▸ .forked)
  | thread fn arg => exact .ret hr (hpc ▸ .threadCreated)
  | forkn n i count =>
    unfold created
    simp only
    split
    · next hneg => exact .ret hr (hpc ▸ .forkedAll (.inl ⟨hneg, rfl⟩))
    · split
      · next hzero => exact .ret hr (hpc ▸ .forkedAll (.inr (.inl ⟨hzero, rfl⟩)))
      · split
        · next hi => exact .walk hr (hpc ▸ .forkAgain (by omega) hi)
        · next hi =>
          exact .ret hr (hpc ▸ .forkedAll (.inr (.inr ⟨by omega, by omega, rfl⟩)))

theorem publish_step {np : Slot} {pid : Int} (hpc : (s.proc p).pc = .publish np pid k)
    (h : publish s p np pid k = some s') : Step o p s s' := by
  unfold publish at h
  split at h
  · next hl => cases h; exact .publish hr hpc hl
  · cases h

theorem kexit_step {c : Call} {status : Int} (hpc : (s.proc p).pc = .user)
    (hk : (s.proc p).killed = true ∨ c = .exit status) (h : kexit s p status = .ok s') :
    Step (.call c) p s s' := by
  unfold kexit at h
  split at h
  · cases h
  · next hi => cases h; exact .walk hr (hpc ▸ .exit hi rfl hk)

/-- The entry of a system call: a killed process exits, and a call that works on memory alone
returns at once. -/
theorem syscall_step {c : Call} (hpc : (s.proc p).pc = .user) (h : syscall s p c = .ok s') :
    Step (.call c) p s s' := by
  unfold syscall at h
  split at h
  · next hk => exact kexit_step hr hpc (.inl hk) h
  · next hk =>
    split at h
    · exact kexit_step hr hpc (.inr rfl) h
    · split at h
      · next m hm =>
        obtain ⟨r, mem, he, rfl⟩ := onMem_ok h
        exact .memory hr hpc hm he rfl
      · next hm =>
        split at h
        · next pc hs => cases h; exact .walk hr (hpc ▸ .start hs (by simpa using hk) rfl)
        · next hs => cases h; exact .ret hr (hpc ▸ .refused hs hm)

theorem fault_step {va : Nat} (hpc : (s.proc p).pc = .user) (h : fault s p va = .ok s') :
    Step o p s s' := by
  obtain ⟨ok, mem, hm, rfl⟩ := onMem_ok h
  have hstep : Step o p s _ := .fault hr hpc hm
  cases ok with
  | true => simpa [Kernel.setProc, Kernel.setMem] using hstep
  | false => simpa using hstep

end Running

theorem map_ok {o : Option Kernel} (h : o.map (Except.ok (ε := Panic)) = some (.ok s')) :
    o = some s' := by
  cases o with
  | none => cases h
  | some u => cases h; rfl

/-- The next step of a process inside the kernel. -/
theorem proceed_step (hc : (s.proc p).onCpu = true) (h : proceed s p = some (.ok s')) :
    Step o p s s' := by
  by_cases he : (s.proc p).pc = .exitSched
  · simp only [proceed, he] at h
    cases h
    exact .exitSched he
  by_cases hd : (s.proc p).pc = .exitDrop
  · simp only [proceed, hd] at h
    cases h
    exact .exitDrop hd
  have hr := running_of_onCpu hc hd he
  cases hpc : (s.proc p).pc with
  | user | asleep k | dead => simp only [proceed, hpc] at h; cases h
  | exitDrop => exact absurd hpc hd
  | exitSched => exact absurd hpc he
  | crit k => simp only [proceed, hpc] at h; exact critical_step hr hpc h
  | acquire k =>
    simp only [proceed, hpc] at h
    split at h
    · next hw => cases h; exact .acquire hr hpc hw
    · cases h
  | sleepLock c k =>
    simp only [proceed, hpc] at h
    cases h
    exact .walk hr (hpc ▸ .sleepLock)
  | sleepDrop c k => simp only [proceed, hpc] at h; cases h; exact .sleepDrop hr hpc
  | sleepSet c k => simp only [proceed, hpc] at h; cases h; exact .sleepSet hr hpc
  | wakeup c i k => simp only [proceed, hpc] at h; exact wakeup_step hr hpc (map_ok h)
  | search f pid i => simp only [proceed, hpc] at h; exact search_step hr hpc (map_ok h)
  | alloc k i => simp only [proceed, hpc] at h; exact alloc_step hr hpc h
  | publish np pid k => simp only [proceed, hpc] at h; exact publish_step hr hpc (map_ok h)
  | created k rc => simp only [proceed, hpc] at h; cases h; exact created_step hr hpc

theorem atUser_iff {x : Proc} : x.atUser = true ↔ x.state = .running ∧ x.pc = .user := by
  unfold Proc.atUser
  split <;> simp_all

/-- Every step is one of those in `Step`. -/
theorem act_step {a : Action} (h : act a s = some (.ok s')) :
    Step a.op a.p (s.withFails a.fails) s' := by
  obtain ⟨p, op, fails⟩ := a
  simp only [act] at h
  cases op with
  | dispatch =>
    simp only at h
    split at h
    · next hg => cases h; exact .dispatch hg.1 hg.2.1 hg.2.2
    · cases h
  | yield =>
    simp only at h
    split at h
    · next hg => cases h; exact .yield hg.1 hg.2
    · cases h
  | call c =>
    simp only at h
    split at h
    · next hu =>
      obtain ⟨hr, hpc⟩ := atUser_iff.mp hu
      exact syscall_step hr hpc (Option.some.inj h)
    · cases h
  | fault va =>
    simp only at h
    split at h
    · next hu =>
      obtain ⟨hr, hpc⟩ := atUser_iff.mp hu
      exact fault_step hr hpc (Option.some.inj h)
    · cases h
  | proceed =>
    simp only at h
    split at h
    · next hc => exact proceed_step hc h
    · cases h

/-- The ways in which a step can end in a panic. -/
inductive Stop (o : Op) (p : Slot) (s : Kernel) : Panic → Prop
  | exit : Stop o p s .initExiting
  | fault {va : Nat} {e : Panic} (hr : (s.proc p).state = .running)
      (hm : pageFault p va s.mem = .error e) : Stop o p s e
  | memory {c : Call} {m : M Int} {e : Panic} (hr : (s.proc p).state = .running)
      (ho : o = .call c) (hc : c.memory p = some m) (hm : m s.mem = .error e) : Stop o p s e
  | alloc {k : Create} {np : Slot} {e : Panic} (hr : (s.proc p).state = .running)
      (hu : (s.proc np).state = .unused) (hm : copyProc p np k.regs s.mem = .error e) :
      Stop o p s e
  | reap {q : Slot} {addr : Nat} {e : Panic} (hr : (s.proc p).state = .running)
      (hz : (s.proc q).state = .zombie)
      (hm : reap p q addr (s.proc q).xstate s.mem = .error e) : Stop o p s e

variable {e : Panic}

theorem onMem_error {m : M α} {f : α → Kernel → Kernel} (h : s.onMem m f = .error e) :
    m s.mem = .error e := by
  unfold Kernel.onMem at h
  split at h
  · cases h
  · next hm => cases h; exact hm

/-- `init` must not exit. -/
theorem kexit_stop {status : Int} (h : kexit s p status = .error e) : Stop o p s e := by
  unfold kexit at h
  split at h
  · cases h; exact .exit
  · cases h

theorem syscall_stop {c : Call} (hr : (s.proc p).state = .running)
    (h : syscall s p c = .error e) : Stop (.call c) p s e := by
  unfold syscall at h
  split at h
  · exact kexit_stop h
  · split at h
    · exact kexit_stop h
    · split at h
      · next m hm => exact .memory hr rfl hm (onMem_error h)
      · split at h <;> cases h

theorem waitScan_stop {target : Option Int} {addr i : Nat} {havekids : Bool}
    (hr : (s.proc p).state = .running)
    (h : waitScan s p target addr i havekids = some (.error e)) : Stop o p s e := by
  unfold waitScan at h
  split at h
  · simp only at h
    split at h
    · split at h
      · split at h
        · next hz => exact .reap hr hz (onMem_error (Option.some.inj h))
        · cases h
      · cases h
    · cases h
  · split at h <;> cases h

theorem alloc_stop (hr : (s.proc p).state = .running) (h : alloc s p k i = some (.error e)) :
    Stop o p s e := by
  unfold alloc at h
  split at h
  · simp only at h
    split at h
    · split at h
      · next hu => exact .alloc hr hu (onMem_error (Option.some.inj h))
      · cases h
    · cases h
  · cases h

theorem map_ne_error {u : Option Kernel} (h : u.map (Except.ok (ε := Panic)) = some (.error e)) :
    False := by
  cases u <;> cases h

/-- Inside the kernel only the memory operations panic. -/
theorem proceed_stop (hc : (s.proc p).onCpu = true) (h : proceed s p = some (.error e)) :
    Stop o p s e := by
  have hr : (s.proc p).pc ≠ .exitDrop → (s.proc p).pc ≠ .exitSched →
      (s.proc p).state = .running := running_of_onCpu hc
  cases hpc : (s.proc p).pc with
  | crit k =>
    have hrun := hr (by simp [hpc]) (by simp [hpc])
    simp only [proceed, hpc] at h
    cases k with
    | waitScan target addr i havekids => exact waitScan_stop hrun h
    | _ => cases h
  | alloc k i =>
    have hrun := hr (by simp [hpc]) (by simp [hpc])
    simp only [proceed, hpc] at h
    exact alloc_stop hrun h
  | wakeup c i k => simp only [proceed, hpc] at h; exact (map_ne_error h).elim
  | search f pid i => simp only [proceed, hpc] at h; exact (map_ne_error h).elim
  | publish np pid k => simp only [proceed, hpc] at h; exact (map_ne_error h).elim
  | acquire k =>
    simp only [proceed, hpc] at h
    split at h <;> cases h
  | _ => simp only [proceed, hpc] at h; cases h

/-- Every panic is one of those in `Stop`. -/
theorem act_stop {a : Action} (h : act a s = some (.error e)) :
    Stop a.op a.p (s.withFails a.fails) e := by
  obtain ⟨p, op, fails⟩ := a
  simp only [act] at h
  cases op with
  | dispatch | yield =>
    simp only at h
    split at h <;> cases h
  | call c =>
    simp only at h
    split at h
    · next hu => exact syscall_stop (atUser_iff.mp hu).1 (Option.some.inj h)
    · cases h
  | fault va =>
    simp only at h
    split at h
    · next hu => exact .fault (atUser_iff.mp hu).1 (onMem_error (Option.some.inj h))
    · cases h
  | proceed =>
    simp only at h
    split at h
    · next hc => exact proceed_stop hc h
    · cases h

end KernelSteps
