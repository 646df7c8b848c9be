import Xv6Filesrv.KernelSteps

/-!
# Invariants of the process table

Three facts that every later argument about processes rests on: a slot's state
fits where its process is, `wait_lock` is held exactly by the process that is
past its `acquire`, and a slot that is being filled by `fork` belongs to one
creator until it becomes runnable.
-/

namespace KernelTable

open KernelPages KernelShm KernelProc KernelSteps

variable {o : Op} {s s' : Kernel} {p : Slot} {x : Proc} {q : Slot} {pc : Pc} {np : Slot}

@[simp] theorem setProc_self (s : Kernel) (p : Slot) (f : Proc → Proc) :
    (s.setProc p f).proc p = f (s.proc p) := by
  simp [Kernel.setProc]

theorem setProc_of_ne (h : q ≠ p) (s : Kernel) (f : Proc → Proc) :
    (s.setProc p f).proc q = s.proc q := by
  simp [Kernel.setProc, h]

@[simp] theorem release_proc (s : Kernel) : s.release.proc = s.proc := rfl
@[simp] theorem record_proc (s : Kernel) (e : Event) : (s.record e).proc = s.proc := rfl
@[simp] theorem setMem_proc (s : Kernel) (mem : Mem) : (s.setMem mem).proc = s.proc := rfl

/-- Points of a process that is running. -/
def active : Pc → Bool
  | .asleep _ | .exitDrop | .exitSched | .dead => false
  | _ => true

/-- The state of a slot fits where its process is. -/
def Tidy (x : Proc) : Prop :=
  match x.state with
  | .unused | .used => x.pc = .user
  | .sleeping => ∃ k, x.pc = .asleep k
  | .runnable => x.pc.preemptible = true ∨ ∃ k, x.pc = .asleep k
  | .running => active x.pc = true
  | .zombie => x.pc = .exitDrop ∨ x.pc = .exitSched ∨ x.pc = .dead

def linked : Point → Option Slot
  | .link np _ _ => some np
  | _ => none

/-- The slot that a process is filling: `allocproc` gave it out and the creator has
not yet made it runnable. -/
def pending : Pc → Option Slot
  | .publish np _ _ => some np
  | .acquire k | .crit k | .sleepLock _ k | .sleepDrop _ k | .sleepSet _ k | .asleep k
  | .wakeup _ _ k => linked k
  | _ => none

structure Table (s : Kernel) : Prop where
  tidy : ∀ q, Tidy (s.proc q)
  lock : ∀ q, s.waitLock = some q ↔ (s.proc q).pc.holdsWait = true
  used : ∀ q np, pending (s.proc q).pc = some np → (s.proc np).state = .used
  creator : ∀ q q' np, pending (s.proc q).pc = some np → pending (s.proc q').pc = some np → q = q'

/-- Points at which a system call can begin. -/
def entry : Pc → Bool
  | .acquire (.link _ _ _) | .acquire (.mutexUnlocked _) | .acquire (.reparent _ _)
  | .acquire (.exitMark _) => false
  | .acquire _ | .search _ _ _ | .alloc _ _ => true
  | _ => false

theorem start_entry {c : Call} {sz : Nat} (h : c.start sz = some pc) :
    entry pc = true := by
  cases c with
  | wait addr | fork | kill pid | freeze pid | thaw pid | getppid | mutexCreate => cases h; rfl
  | waitpid pid addr | forkn n | threadCreate fn arg | getprocstate pid =>
    simp only [Call.start] at h
    split at h <;> cases h
    rfl
  | signalSend pid sig =>
    simp only [Call.start, ksignalSend] at h
    repeat' split at h
    all_goals cases h
    all_goals rfl
  | mutexLock id | mutexUnlock id | mutexTrylock id | mutexOwner id =>
    obtain ⟨_, _, rfl⟩ := Option.map_eq_some_iff.mp h
    rfl
  | exit n | exec img argv | sbrk n t | shmget key size | shmat id | shmdt id => cases h

theorem entry_active (h : entry pc = true) : active pc = true := by
  cases pc with
  | asleep k | exitDrop | exitSched | dead => cases h
  | _ => rfl

/-- A process walks only to points of processes that run. -/
theorem flow_active {pc pc' : Pc} (h : Flow o s p pc pc') : active pc' = true := by
  cases h with
  | start h hk ho => exact entry_active (start_entry h)
  | _ => rfl

theorem resume_tidy (h : Tidy x) (hr : x.state = .runnable) : Tidy x.resume := by
  unfold Proc.resume
  split
  · rfl
  · next hpc =>
    simp only [Tidy, hr] at h ⊢
    rcases h with h | ⟨k, h⟩
    · cases hp : x.pc <;> simp_all [Pc.preemptible, active]
    · exact absurd h (hpc k)

/-- A signal leaves its target where it is. -/
theorem effect_pc (f : Search) (x : Proc) : (f.effect x).pc = x.pc := by
  cases f with
  | kill =>
    simp only [Search.effect]
    split <;> rfl
  | freeze | thaw | getprocstate => rfl

theorem effect_state (f : Search) (h : x.state ≠ .sleeping) :
    (f.effect x).state = x.state := by
  cases f with
  | kill => simp [Search.effect, h]
  | freeze | thaw | getprocstate => rfl

theorem effect_tidy {f : Search} (h : Tidy x) : Tidy (f.effect x) := by
  cases f with
  | kill =>
    simp only [Search.effect]
    split
    · next hs =>
      simp only [Tidy, hs] at h ⊢
      exact .inr h
    · exact h
  | freeze | thaw | getprocstate => exact h

theorem running_tidy (hr : x.state = .running) (ha : active pc = true) :
    Tidy { x with pc := pc } := by
  simp only [Tidy, hr, ha]

theorem zombie_tidy (h : Tidy x) (hx : x.pc = .exitDrop ∨ x.pc = .exitSched)
    (hpc : pc = .exitSched ∨ pc = .dead) : Tidy { x with pc := pc } := by
  have hz : x.state = .zombie := by
    cases hs : x.state <;> rcases hx with hx | hx <;> simp_all [Tidy, active, Pc.preemptible]
  simp only [Tidy, hz]
  exact .inr hpc

theorem ne_of_state {a b : ProcState} (hp : (s.proc p).state = a) (hq : (s.proc q).state = b)
    (hab : a ≠ b) : p ≠ q := by
  intro he
  rw [he, hq] at hp
  exact hab hp.symm

/-- What a step of process `p` from `s` to `s'` can do to the slot `q` of another
process. -/
inductive Touch (s : Kernel) (p : Slot) (s' : Kernel) (q : Slot) : Proc → Prop
  | same : Touch s p s' q (s.proc q)
  | wake (hs : (s.proc q).state = .sleeping) :
      Touch s p s' q { s.proc q with state := .runnable }
  | signal (f : Search) (pid : Int) (hq : f.hits pid (s.proc q) = true) :
      Touch s p s' q (f.effect (s.proc q))
  | adopt (r : Slot) : Touch s p s' q { s.proc q with parent := some r }
  | alloc {k : Create} (hu : (s.proc q).state = .unused) (hb : s'.born = s.nextpid :: s.born)
      (hpc : (s.proc p).pc = .alloc k q.val) :
      Touch s p s' q
        { s.proc q with state := .used, pid := s.nextpid, frozen := false, pc := .user }
  | publish (hq : pending (s.proc p).pc = some q) (hp : pending (s'.proc p).pc = none) :
      Touch s p s' q { s.proc q with state := .runnable }
  | free (hs : (s.proc q).state = .unused ∨ (s.proc q).state = .zombie)
      (hl : s.lockFree q = true) : Touch s p s' q Proc.free

/-- What a step of process `p` can do to its own slot. -/
inductive Own (s : Kernel) (p : Slot) : Proc → Prop
  | resume (hr : (s.proc p).state = .runnable) (hf : (s.proc p).frozen = false) :
      Own s p (s.proc p).resume
  | yield (hr : (s.proc p).state = .running) (hp : (s.proc p).pc.preemptible = true) :
      Own s p { s.proc p with state := .runnable }
  | fault (hr : (s.proc p).state = .running) (b : Bool) :
      Own s p { s.proc p with killed := (s.proc p).killed || b }
  | move (hr : (s.proc p).state = .running) {pc : Pc} (ha : active pc = true) :
      Own s p { s.proc p with pc := pc }
  | signal (hr : (s.proc p).state = .running) (f : Search) (pid : Int)
      (hp : f.hits pid (s.proc p) = true) : Own s p { f.effect (s.proc p) with pc := .user }
  | adopt (hr : (s.proc p).state = .running) (r : Slot) {pc : Pc} (ha : active pc = true) :
      Own s p { s.proc p with parent := some r, pc := pc }
  | sleep (hr : (s.proc p).state = .running) (c : Chan) (k : Point) :
      Own s p { s.proc p with chan := some c, state := .sleeping, pc := .asleep k }
  | exit (hr : (s.proc p).state = .running) {status : Int}
      (hpc : (s.proc p).pc = .crit (.exitMark status)) :
      Own s p { s.proc p with xstate := status, state := .zombie, pc := .exitDrop }
  | leave {pc : Pc} (hx : (s.proc p).pc = .exitDrop ∨ (s.proc p).pc = .exitSched)
      (hpc : pc = .exitSched ∨ pc = .dead) : Own s p { s.proc p with pc := pc }

@[simp] theorem goto_self (s : Kernel) (p : Slot) (pc : Pc) :
    (s.goto p pc).proc p = { s.proc p with pc := pc } := setProc_self s p _

@[simp] theorem ret_self (s : Kernel) (p : Slot) (c : Call) (r : Int) :
    (s.ret p c r).proc p = { s.proc p with pc := .user } := goto_self s p .user

@[simp] theorem leave_self (s : Kernel) (p : Slot) (c : Call) (r : Int) :
    (s.leave p c r).proc p = { s.proc p with pc := .user } := goto_self s p .user

theorem goto_of_ne (h : q ≠ p) (s : Kernel) (pc : Pc) :
    (s.goto p pc).proc q = s.proc q := setProc_of_ne h s _

theorem ret_of_ne (h : q ≠ p) (s : Kernel) (c : Call) (r : Int) :
    (s.ret p c r).proc q = s.proc q := goto_of_ne h s .user

theorem leave_of_ne (h : q ≠ p) (s : Kernel) (c : Call) (r : Int) :
    (s.leave p c r).proc q = s.proc q := goto_of_ne h s .user

theorem Touch.at {t : Kernel} {q r : Slot} {f : Proc → Proc} (ht : t.proc = s.proc)
    (h : q = r → Touch s p s' q (f (s.proc q))) : Touch s p s' q ((t.setProc r f).proc q) := by
  by_cases hqr : q = r
  · have hq := h hqr
    subst hqr
    rw [setProc_self, ht]
    exact hq
  · rw [setProc_of_ne hqr, ht]
    exact .same

/-- All that a step does to another process. -/
theorem step_touch (hs : Step o p s s') (hq : q ≠ p) :
    Touch s p s' q (s'.proc q) := by
  cases hs with
  | dispatch _ _ _ | yield _ _ | fault _ _ _ | sleepSet _ _ =>
    rw [setProc_of_ne hq]
    exact .same
  | memory _ _ _ _ _ | ret _ _ => rw [ret_of_ne hq]; exact .same
  | walk _ _ | acquire _ _ _ | mutexFree _ _ _ _ _ | sleepDrop _ _ | pass _ _ _ _ _
  | exitDrop _ | exitSched _ => rw [goto_of_ne hq]; exact .same
  | answer _ _ _ | mutexCreate _ _ _ | mutexTake _ _ _ _ _ | reapFailed _ _ _ _ _ _ =>
    rw [leave_of_ne hq]
    exact .same
  | exitMark _ _ => rw [record_proc, setProc_of_ne hq]; exact .same
  | wake hr hpc hrp hl hs hc =>
    rw [goto_of_ne hq]
    exact .at rfl fun he => .wake (he ▸ hs)
  | found hr hpc hl hf =>
    rw [ret_of_ne hq]
    exact .at rfl fun he => .signal _ _ (he ▸ hf)
  | allocated hr hpc hl hu hm =>
    rw [goto_of_ne hq]
    exact .at rfl fun he => .alloc (he ▸ hu) rfl (he ▸ hpc)
  | allocFailed hr hpc hl hu hm =>
    rw [goto_of_ne hq]
    exact .at rfl fun he => .free (.inl (he ▸ hu)) (he ▸ hl)
  | link hr hpc =>
    rw [goto_of_ne hq, release_proc]
    exact .at rfl fun _ => .adopt p
  | publish hr hpc hl =>
    rw [goto_of_ne hq]
    exact .at rfl fun he => .publish (by rw [hpc, he]; rfl) (by rw [goto_self]; rfl)
  | reap hr hpc hw hl hz hm =>
    rw [leave_of_ne hq]
    exact .at rfl fun he => .free (.inr (he ▸ hz)) (he ▸ hl)
  | reparent hr hpc hpr =>
    rw [goto_of_ne hq]
    exact .at rfl fun _ => .adopt s.initproc

/-- A slot that is being filled is not the one whose process runs. -/
theorem Table.pending_ne (h : Table s) (hr : (s.proc p).state = .running)
    (hnp : pending (s.proc p).pc = some np) : p ≠ np :=
  ne_of_state hr (h.used p np hnp) (by decide)

/-- All that a step does to the process that takes it. -/
theorem step_own (h : Table s) (hs : Step o p s s') : Own s p (s'.proc p) := by
  cases hs with
  | dispatch hr hf hl => rw [setProc_self]; exact .resume hr hf
  | yield hr hp => rw [setProc_self]; exact .yield hr hp
  | fault hr hpc hm => rw [setProc_self]; exact .fault hr _
  | sleepSet hr hpc => rw [setProc_self]; exact .sleep hr _ _
  | exitMark hr hpc => rw [record_proc, setProc_self]; exact .exit hr hpc
  | exitDrop hpc => rw [goto_self]; exact .leave (.inl hpc) (.inl rfl)
  | exitSched hpc => rw [goto_self]; exact .leave (.inr hpc) (.inr rfl)
  | memory hr _ _ _ _ | ret hr _ => rw [ret_self]; exact .move hr rfl
  | answer hr _ _ | mutexCreate hr _ _ | mutexTake hr _ _ _ _ | reapFailed hr _ _ _ _ _ =>
    rw [leave_self]
    exact .move hr rfl
  | acquire hr _ _ | mutexFree hr _ _ _ _ | sleepDrop hr _ | pass hr _ _ _ _ =>
    rw [goto_self]
    exact .move hr rfl
  | walk hr hf => rw [goto_self]; exact .move hr (flow_active hf)
  | wake hr hpc hrp hl hs hc =>
    rw [goto_self, setProc_of_ne hrp.symm]
    exact .move hr rfl
  | allocated hr hpc hl hu hm | allocFailed hr hpc hl hu hm =>
    rw [goto_self, setProc_of_ne (ne_of_state hr hu (by decide))]
    exact .move hr rfl
  | link hr hpc =>
    rw [goto_self, release_proc, setProc_of_ne (h.pending_ne hr (by rw [hpc]; rfl))]
    exact .move hr rfl
  | publish hr hpc hl =>
    rw [goto_self, setProc_of_ne (h.pending_ne hr (by rw [hpc]; rfl))]
    exact .move hr rfl
  | reap hr hpc hw hl hz hm =>
    rw [leave_self, setProc_of_ne (ne_of_state hr hz (by decide))]
    exact .move hr rfl
  | @found f pid q hr hpc hl hf =>
    rw [ret_self]
    by_cases hpq : p = q
    · subst hpq
      rw [setProc_self]
      exact .signal hr f pid hf
    · rw [setProc_of_ne hpq]
      exact .move hr rfl
  | @reparent status q hr hpc hpr =>
    rw [goto_self]
    by_cases hpq : p = q
    · subst hpq
      rw [setProc_self]
      exact .adopt hr s.initproc rfl
    · rw [setProc_of_ne hpq]
      exact .move hr rfl

/-- The moves that a step can make of the process that takes it. -/
inductive Moves (o : Op) (s : Kernel) (p : Slot) : Pc → Pc → Prop
  | stay {pc : Pc} : Moves o s p pc pc
  | resume {k : Point} : Moves o s p (.asleep k) (.acquire k)
  | flow {pc pc' : Pc} (h : Flow o s p pc pc') : Moves o s p pc pc'
  | user {pc : Pc} : Moves o s p pc .user
  | acquire {k : Point} : Moves o s p (.acquire k) (.crit k)
  | unlock {id : MutexId} : Moves o s p (.crit (.mutexUnlock id))
      (.wakeup (some (.kmutex id)) 0 (.mutexUnlocked id))
  | sleepDrop {c : Chan} {k : Point} : Moves o s p (.sleepDrop c k) (.sleepSet c k)
  | sleepSet {c : Chan} {k : Point} : Moves o s p (.sleepSet c k) (.asleep k)
  | visit {c : Option Chan} {i : Nat} {k : Point} :
      Moves o s p (.wakeup c i k) (.wakeup c (i + 1) k)
  | allocated {k : Create} {np : Slot} : Moves o s p (.alloc k np.val)
      (.acquire (.link np s.nextpid k))
  | created {pc : Pc} {k : Create} {rc : Int} : Moves o s p pc (.created k rc)
  | link {np : Slot} {pid : Int} {k : Create} : Moves o s p (.crit (.link np pid k))
      (.publish np pid k)
  | reparent {status : Int} {i : Nat} {c : Option Chan} : Moves o s p (.crit (.reparent status i))
      (.wakeup c 0 (.reparent status (i + 1)))
  | exitMark {status : Int} : Moves o s p (.crit (.exitMark status)) .exitDrop
  | exitDrop : Moves o s p .exitDrop .exitSched
  | exitSched : Moves o s p .exitSched .dead

/-- Every step moves the process along an edge of the kernel code. -/
theorem step_moves (hs : Step o p s s') : Moves o s p (s.proc p).pc (s'.proc p).pc := by
  cases hs with
  | dispatch hr hf hl =>
    rw [setProc_self]
    unfold Proc.resume
    split
    · next k hk => rw [hk]; exact .resume
    · exact .stay
  | yield _ _ | fault _ _ _ => rw [setProc_self]; exact .stay
  | walk hr hf => rw [goto_self]; exact .flow hf
  | memory _ _ _ _ _ | ret _ _ | found _ _ _ _ => rw [ret_self]; exact .user
  | answer _ _ _ | mutexCreate _ _ _ | mutexTake _ _ _ _ _ | reap _ _ _ _ _ _
  | reapFailed _ _ _ _ _ _ => rw [leave_self]; exact .user
  | acquire hr hpc hw => rw [goto_self, hpc]; exact .acquire
  | mutexFree hr hpc hu hl ho => rw [goto_self, hpc]; exact .unlock
  | sleepDrop hr hpc => rw [goto_self, hpc]; exact .sleepDrop
  | sleepSet hr hpc => rw [setProc_self, hpc]; exact .sleepSet
  | wake _ hpc _ _ _ _ | pass _ hpc _ _ _ => rw [goto_self, hpc]; exact .visit
  | allocated hr hpc hl hu hm => rw [goto_self, hpc]; exact .allocated
  | allocFailed _ _ _ _ _ | publish _ _ _ => rw [goto_self]; exact .created
  | link hr hpc => rw [goto_self, hpc]; exact .link
  | reparent hr hpc hq => rw [goto_self, hpc]; exact .reparent
  | exitMark hr hpc => rw [record_proc, setProc_self, hpc]; exact .exitMark
  | exitDrop hpc => rw [goto_self, hpc]; exact .exitDrop
  | exitSched hpc => rw [goto_self, hpc]; exact .exitSched

/-- A property of single slots is preserved if it survives what a step can do to
its own slot and to another. -/
theorem step_forall {P : Proc → Prop} (h : Table s) (hs : Step o p s s')
    (hown : ∀ x, Own s p x → P x) (htouch : ∀ q x, q ≠ p → Touch s p s' q x → P x)
    (q : Slot) : P (s'.proc q) := by
  by_cases hq : q = p
  · subst hq
    exact hown _ (step_own h hs)
  · exact htouch q _ hq (step_touch hs hq)

theorem own_tidy (h : Table s) (hx : Own s p x) : Tidy x := by
  cases hx with
  | resume hr hf => exact resume_tidy (h.tidy p) hr
  | yield hr hp => exact .inl hp
  | fault hr b => exact h.tidy p
  | move hr ha => exact running_tidy hr ha
  | signal hr f pid hp =>
    apply running_tidy _ rfl
    rw [effect_state f (by simp [hr]), hr]
  | adopt hr r ha => exact running_tidy (x := { s.proc p with parent := some r }) hr ha
  | sleep hr c k => exact ⟨k, rfl⟩
  | exit hr hpc => exact .inl rfl
  | leave hx hpc => exact zombie_tidy (h.tidy p) hx hpc

theorem touch_tidy (h : Table s) (hx : Touch s p s' q x) :
    Tidy x := by
  have hq := h.tidy q
  cases hx with
  | same => exact hq
  | wake hs =>
    simp only [Tidy, hs] at hq
    exact .inr hq
  | signal f pid hf => exact effect_tidy hq
  | adopt r => exact hq
  | alloc hu hb hpc => rfl
  | publish hp hpc =>
    simp only [Tidy, h.used p q hp] at hq
    exact .inl (by rw [hq]; rfl)
  | free hs hl => rfl

theorem entry_holds (h : entry pc = true) : pc.holdsWait = false := by
  cases pc with
  | acquire k | search f pid i | alloc k i => rfl
  | _ => cases h

theorem entry_pending (h : entry pc = true) : pending pc = none := by
  cases pc with
  | acquire k =>
    cases k with
    | link np pid k => cases h
    | _ => rfl
  | search f pid i | alloc k i => rfl
  | _ => cases h

/-- Walking neither takes `wait_lock` nor releases it. -/
theorem flow_holds {pc pc' : Pc} (h : Flow o s p pc pc') : pc'.holdsWait = pc.holdsWait := by
  cases h with
  | start h hk ho => exact entry_holds (start_entry h)
  | _ => rfl

theorem flow_pending {pc pc' : Pc} (h : Flow o s p pc pc') (hp : pending pc' = some np) :
    pending pc = some np := by
  cases h with
  | start h hk ho =>
    rw [entry_pending (start_entry h)] at hp
    cases hp
  | sleepLock => exact hp
  | wakeSelf => exact hp
  | wakeEnd h => exact hp
  | _ => cases hp

/-- Another process does not gain or lose `wait_lock`. -/
theorem step_waitLock (h : Table s) (hs : Step o p s s') (hq : q ≠ p) :
    s'.waitLock = some q ↔ s.waitLock = some q := by
  have hrel : (s.proc p).pc.holdsWait = true → (none = some q ↔ s.waitLock = some q) := by
    intro hp
    rw [(h.lock p).mpr hp]
    simp [hq.symm]
  cases hs with
  | acquire hr hpc hw =>
    change some p = some q ↔ s.waitLock = some q
    simp [hw, hq.symm]
  | answer _ hpc _ | mutexCreate _ hpc _ | mutexTake _ hpc _ _ _ | sleepDrop _ hpc | link _ hpc
  | reap _ hpc _ _ _ _ | reapFailed _ hpc _ _ _ _ | exitDrop hpc =>
    exact hrel (by rw [hpc]; rfl)
  | _ => exact Iff.rfl

theorem touch_holds (h : Table s) (hx : Touch s p s' q x) :
    x.pc.holdsWait = (s.proc q).pc.holdsWait := by
  have hq := h.tidy q
  cases hx with
  | signal f pid hf => rw [effect_pc]
  | alloc hu hb hpc =>
    simp only [Tidy, hu] at hq
    rw [hq]
  | free hs hl =>
    rcases hs with hs | hs <;> simp only [Tidy, hs] at hq
    · rw [hq]
      rfl
    · rcases hq with hq | hq | hq <;> simp_all [Kernel.lockFree, Pc.holdsOwn]
      rfl
  | _ => rfl

theorem resume_holds (x : Proc) : x.resume.pc.holdsWait = x.pc.holdsWait := by
  unfold Proc.resume
  split
  · next hpc => simp only [hpc]; rfl
  · rfl

theorem resume_pending (x : Proc) : pending x.resume.pc = pending x.pc := by
  unfold Proc.resume
  split
  · next hpc => simp only [hpc]; rfl
  · rfl

theorem returns_holds {c : Call} {r : Int} (h : Returns s p pc c r) :
    pc.holdsWait = false := by
  cases h <;> rfl

theorem step_lock_own (h : Table s) (hs : Step o p s s') :
    s'.waitLock = some p ↔ (s'.proc p).pc.holdsWait = true := by
  have hold := h.lock p
  cases hs with
  | acquire hr hpc hw =>
    rw [goto_self]
    exact iff_of_true rfl rfl
  | answer _ _ _ | mutexCreate _ _ _ | mutexTake _ _ _ _ _ | reap _ _ _ _ _ _
  | reapFailed _ _ _ _ _ _ =>
    rw [leave_self]
    exact iff_of_false (by rintro ⟨⟩) (by rintro ⟨⟩)
  | sleepDrop _ _ | link _ _ | exitDrop _ =>
    rw [goto_self]
    exact iff_of_false (by rintro ⟨⟩) (by rintro ⟨⟩)
  | dispatch hr hf hl => rw [setProc_self, resume_holds]; exact hold
  | yield hr hp => rw [setProc_self]; exact hold
  | fault hr hpc hm => rw [setProc_self]; exact hold
  | walk hr hf => rw [goto_self, flow_holds hf]; exact hold
  | sleepSet _ hpc => rw [setProc_self]; rw [hpc] at hold; exact hold
  | exitMark _ hpc => rw [record_proc, setProc_self]; rw [hpc] at hold; exact hold
  | ret hr hret => rw [ret_self]; rw [returns_holds hret] at hold; exact hold
  | memory _ hpc _ _ _ | found _ hpc _ _ => rw [ret_self]; rw [hpc] at hold; exact hold
  | mutexFree _ hpc _ _ _ | wake _ hpc _ _ _ _ | pass _ hpc _ _ _ | allocated _ hpc _ _ _
  | allocFailed _ hpc _ _ _ | publish _ hpc _ | reparent _ hpc _ | exitSched hpc =>
    rw [goto_self]
    rw [hpc] at hold
    exact hold

/-- The holder of `wait_lock` is the process whose point says so. -/
theorem step_lock (h : Table s) (hs : Step o p s s') (q : Slot) :
    s'.waitLock = some q ↔ (s'.proc q).pc.holdsWait = true := by
  by_cases hq : q = p
  · subst hq
    exact step_lock_own h hs
  · rw [step_waitLock h hs hq, touch_holds h (step_touch hs hq)]
    exact h.lock q

/-- A process starts to fill a slot by taking a free one. -/
theorem step_pending_own (hs : Step o p s s') (hp : pending (s'.proc p).pc = some np) :
    pending (s.proc p).pc = some np ∨
      (s.proc np).state = .unused ∧ (s'.proc np).state = .used := by
  cases hs with
  | dispatch hr hf hl => rw [setProc_self, resume_pending] at hp; exact .inl hp
  | yield _ _ | fault _ _ _ => rw [setProc_self] at hp; exact .inl hp
  | walk hr hf => rw [goto_self] at hp; exact .inl (flow_pending hf hp)
  | acquire _ hpc _ | sleepDrop _ hpc | link _ hpc | wake _ hpc _ _ _ _ | pass _ hpc _ _ _ =>
    rw [goto_self] at hp
    rw [hpc]
    exact .inl hp
  | sleepSet _ hpc => rw [setProc_self] at hp; rw [hpc]; exact .inl hp
  | @allocated k np' mem hr hpc hl hu hm =>
    rw [goto_self] at hp
    obtain rfl : np' = np := Option.some.inj hp
    right
    rw [goto_of_ne (ne_of_state hu hr (by decide)), setProc_self]
    exact ⟨hu, rfl⟩
  | exitMark _ _ => rw [record_proc, setProc_self] at hp; cases hp
  | _ => simp only [ret_self, leave_self, goto_self] at hp; cases hp

theorem touch_pending {q np : Slot} (hx : Touch s p s' q x) (hp : pending x.pc = some np) :
    pending (s.proc q).pc = some np := by
  cases hx with
  | signal f pid hf => rwa [effect_pc] at hp
  | alloc hu hb hpc => cases hp
  | free hs hl => cases hp
  | _ => exact hp

/-- The process that is stepping is neither in a free slot nor in one that is being filled. -/
theorem own_occupied (h : Table s) (hx : Own s p x) :
    (s.proc p).state ≠ .unused ∧ (s.proc p).state ≠ .used := by
  have hp := h.tidy p
  cases hx with
  | leave hx hpc =>
    -- the points of `exitDrop` and `exitSched` are those of zombies
    have hne : (s.proc p).pc ≠ .user := by
      intro hu
      rcases hx with hx | hx <;> rw [hu] at hx <;> cases hx
    constructor <;> intro hu <;> simp only [Tidy, hu] at hp <;> exact hne hp
  | resume hr hf =>
    rw [hr]
    decide
  | _ => simp_all

/-- A slot that is being filled stays so until its creator publishes it. -/
theorem step_pending_used (h : Table s) (hs : Step o p s s') (hu : (s.proc np).state = .used) :
    (s'.proc np).state = .used ∨
      pending (s.proc p).pc = some np ∧ pending (s'.proc p).pc = none := by
  have hne : np ≠ p := by
    intro he
    exact (own_occupied h (step_own h hs)).2 (he ▸ hu)
  have htouch := step_touch hs hne
  generalize s'.proc np = x at htouch
  cases htouch with
  | same => exact .inl hu
  | adopt r => exact .inl hu
  | signal f pid hf => exact .inl (by rw [effect_state f (by simp [hu]), hu])
  | publish hq hp => exact .inr ⟨hq, hp⟩
  | alloc hf hb hpc => rw [hu] at hf; cases hf
  | wake hw => rw [hu] at hw; cases hw
  | free hw hl => rw [hu] at hw; rcases hw with hw | hw <;> cases hw

/-- One step of any process keeps the table in order. -/
theorem Table.step (h : Table s) (hs : Step o p s s') : Table s' := by
  have hothers : ∀ q np, q ≠ p → pending (s'.proc q).pc = some np →
      pending (s.proc q).pc = some np := by
    intro q np hq hp
    exact touch_pending (step_touch hs hq) hp
  refine ⟨?_, step_lock h hs, ?_, ?_⟩
  · exact step_forall h hs (fun x hx => own_tidy h hx) fun q x hq hx => touch_tidy h hx
  · intro q np hp
    by_cases hq : q = p
    · subst hq
      rcases step_pending_own hs hp with hold | ⟨-, hnew⟩
      · rcases step_pending_used h hs (h.used q np hold) with hu | ⟨-, hnone⟩
        · exact hu
        · rw [hp] at hnone
          cases hnone
      · exact hnew
    · have hold := hothers q np hq hp
      rcases step_pending_used h hs (h.used q np hold) with hu | ⟨hpub, -⟩
      · exact hu
      · exact absurd (h.creator q p np hold hpub) hq
  · have hmix : ∀ q np, q ≠ p → pending (s'.proc q).pc = some np →
        pending (s'.proc p).pc = some np → q = p := by
      intro q np hq hp hp'
      have hold := hothers q np hq hp
      rcases step_pending_own hs hp' with hown | ⟨hu, -⟩
      · exact h.creator q p np hold hown
      · rw [h.used q np hold] at hu
        cases hu
    intro q q' np hp hp'
    by_cases hq : q = p
    · subst hq
      by_cases hq' : q' = q
      · exact hq'.symm
      · exact (hmix q' np hq' hp' hp).symm
    · by_cases hq' : q' = p
      · subst hq'
        exact hmix q np hq hp hp'
      · exact h.creator q q' np (hothers q np hq hp) (hothers q' np hq' hp')

end KernelTable
