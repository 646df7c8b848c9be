import Xv6Filesrv.KernelBoot
import Xv6Filesrv.Monitor

/-!
# Sleeping on mutexes

With `wait_lock` as the monitor lock and the mutexes as the conditions, every step of the
kernel is a sequence of steps of a monitor with sleep and wakeup.  So no process is ever
asleep on a mutex that is free.
-/

namespace KernelSleep

open KernelPages KernelMemInv KernelShm KernelProc KernelSteps KernelTable KernelBoot Monitor
open Function (update update_eq_self update_of_ne update_self)

variable {ram : Ram} {o : Op} {s s' s₀ : Kernel} {p : Slot} {q : Slot} {pc : Pc} {f : Proc → Proc}
  {x : Proc}

/-- The phase of a process that is not asleep. -/
def pcPhase : Pc → Phase MutexId
  | .sleepLock (.kmutex id) _ | .sleepDrop (.kmutex id) _ => .about id
  | .sleepSet (.kmutex id) _ => .falling id
  | .wakeup (some (.kmutex id)) i _ => .waking id i
  | pc => if pc.holdsWait then .inside else .out

def mutexPhase (x : Proc) : Phase MutexId :=
  match x.state, x.chan with
  | .sleeping, some (.kmutex id) => .asleep id
  | _, _ => pcPhase x.pc

def view (s : Kernel) : State 64 MutexId where
  mon := s.waitLock
  phase := fun q => mutexPhase (s.proc q)
  busy := fun id => (s.mutex id).locked = true

theorem mutexPhase_awake (h : x.state ≠ .sleeping) : mutexPhase x = pcPhase x.pc := by
  unfold mutexPhase
  split
  · contradiction
  · rfl

theorem pcPhase_entry (h : entry pc = true) : pcPhase pc = .out := by
  cases pc with
  | acquire k | search f pid i | alloc k i => rfl
  | _ => cases h

theorem pcPhase_preemptible (h : pc.preemptible = true) : pcPhase pc = .out := by
  cases pc with
  | user | search f pid i | alloc k i | publish np pid k | created k rc => rfl
  | _ => cases h

theorem view_setProc (s : Kernel) (p : Slot) (f : Proc → Proc) :
    view (s.setProc p f) = (view s).move p (mutexPhase (f (s.proc p))) := by
  simp only [view, Kernel.setProc, State.move, State.mk.injEq, true_and, and_true]
  funext q
  by_cases hq : q = p
  · subst hq
    simp
  · simp [hq]

/-- The process `p` is at `pc` and not asleep. -/
def At (s : Kernel) (p : Slot) (pc : Pc) : Prop :=
  (s.proc p).state ≠ .sleeping ∧ (s.proc p).pc = pc

theorem At.of_running (hr : (s.proc p).state = .running) (hpc : (s.proc p).pc = pc) :
    At s p pc := ⟨by simp [hr], hpc⟩

/-- An update that keeps states and points, in the slot of `p` or of another process. -/
theorem At.update (h : At s p pc)
    (hf : p = q → (f (s.proc p)).state = (s.proc p).state ∧ (f (s.proc p)).pc = (s.proc p).pc) :
    At (s.setProc q f) p pc := by
  by_cases hpq : p = q
  · have hsame := hf hpq
    subst hpq
    rw [At, setProc_self, hsame.1, hsame.2]
    exact h
  · rw [At, setProc_of_ne hpq]
    exact h

theorem At.phase (h : At s p pc) : (view s).phase p = pcPhase pc := by
  rw [← h.2]
  exact mutexPhase_awake h.1

theorem view_goto (h : (s.proc p).state ≠ .sleeping) (pc : Pc) :
    view (s.goto p pc) = (view s).move p (pcPhase pc) := by
  rw [Kernel.goto, view_setProc, mutexPhase_awake (by exact h)]

theorem view_record (s : Kernel) (e : Event) : view (s.record e) = view s := rfl

theorem move_eq {t : State 64 MutexId} {x : Phase MutexId} (h : t.phase q = x) :
    t.move q x = t := by
  rw [State.move, ← h, update_eq_self]

theorem view_setProc_same (h : mutexPhase (f (s.proc q)) = mutexPhase (s.proc q)) :
    view (s.setProc q f) = view s := by
  rw [view_setProc, h]
  exact move_eq rfl

/-- The monitor can run from the view of one state to that of another. -/
def Simulates (s s' : Kernel) : Prop := Relation.ReflTransGen Monitor.Step (view s) (view s')

theorem Simulates.of_eq (h : view s' = view s) : Simulates s s' := by
  rw [Simulates, h]

theorem Simulates.trans {t : Kernel} (h₁ : Simulates s t) (h₂ : Simulates t s') :
    Simulates s s' := Relation.ReflTransGen.trans h₁ h₂

theorem Simulates.goto {pc pc' : Pc} (h : At s p pc)
    (hs : Monitor.Step (view s) ((view s).move p (pcPhase pc'))) : Simulates s (s.goto p pc') := by
  rw [Simulates, view_goto h.1]
  exact .single hs

/-- A move between two points of the same phase. -/
theorem Simulates.stay {pc pc' : Pc} (h : At s p pc) (hph : pcPhase pc' = pcPhase pc) :
    Simulates s (s.goto p pc') := by
  rw [Simulates, view_goto h.1, hph, move_eq h.phase]

theorem Simulates.ret (h : At s p pc) (hph : pcPhase pc = .out) (c : Call) (r : Int) :
    Simulates s (s.ret p c r) := Simulates.stay h hph.symm

theorem Simulates.release {pc pc' : Pc} (h : At s p pc) (hph : pcPhase pc = .inside)
    (hph' : pcPhase pc' = .out) : Simulates s (s.release.goto p pc') := by
  rw [Simulates, view_goto (s := s.release) h.1, hph']
  exact .single (.leave p (h.phase.trans hph))

theorem Simulates.leave {k : Point} (h : At s p (.crit k)) (c : Call) (r : Int) :
    Simulates s (s.leave p c r) := Simulates.release h rfl (show pcPhase .user = .out from rfl)

/-- One turn of the loop of `wakeup`, at a slot that does not sleep on the channel. -/
theorem Simulates.visit {c : Option Chan} {k : Point} (h : At s p (.wakeup c q.val k))
    (hq : ∀ id, c = some (.kmutex id) → ¬(mutexPhase (s.proc q)).sleepsOn id) :
    Simulates s (s.goto p (.wakeup c (q.val + 1) k)) := by
  rcases c with _ | id | r
  · exact .stay h rfl
  · exact .goto h (.pass p q id h.phase (hq id rfl))
  · exact .stay h rfl

theorem Simulates.walk {pc pc' : Pc} (h : At s p pc) (hf : Flow o s p pc pc') :
    Simulates s (s.goto p pc') := by
  cases hf with
  | start hc hk ho => exact .stay h (pcPhase_entry (start_entry hc))
  | @sleepMutex id k hk hu hl ho => exact .goto h (.sleep p id h.phase hl)
  | @sleepLock c k => cases c <;> exact .stay h rfl
  | @wakeSelf c k =>
    refine .visit h fun id hc => ?_
    rw [mutexPhase_awake h.1, h.2, hc]
    simp [pcPhase, Phase.sleepsOn]
  | @wakeEnd c i k hi =>
    rcases c with _ | id | r
    · exact .stay h rfl
    · exact .goto h (.finish p id i h.phase hi)
    · exact .stay h rfl
  | wakeParent hi => cases hpar : (s.proc p).parent <;> exact .stay h rfl
  | _ => exact .stay h rfl

/-- The mutexes that are locked stay so. -/
theorem Simulates.setMutex {k : Point} (h : At s p (.crit k)) {id : MutexId} {e : Kmutex}
    (he : (s.mutex id).locked = true → e.locked = true) : Simulates s (s.setMutex id e) := by
  refine .single (.work p (view (s.setMutex id e)).busy h.phase fun j hj => ?_)
  change (update s.mutex id e j).locked = true
  by_cases hji : j = id
  · subst hji
    rw [update_self]
    exact he hj
  · rw [update_of_ne hji]
    exact hj

theorem mutexPhase_resume (h : Tidy x) (hr : x.state = .runnable) :
    mutexPhase x.resume = mutexPhase x := by
  have hout : pcPhase x.pc = .out := by
    simp only [Tidy, hr] at h
    rcases h with h | ⟨k, h⟩
    · exact pcPhase_preemptible h
    · rw [h]
      rfl
  rw [mutexPhase_awake (x := x) (by simp [hr]), hout]
  unfold Proc.resume
  split
  · rfl
  · exact hout

theorem mutexPhase_woken (h : Tidy x) (hs : x.state = .sleeping) :
    mutexPhase { x with state := .runnable } = .out := by
  obtain ⟨k, hk⟩ : ∃ k, x.pc = .asleep k := by
    simpa only [Tidy, hs] using h
  rw [mutexPhase_awake (by simp), hk]
  rfl

/-- Waking a process is a step of the monitor if it slept on a mutex, and invisible
otherwise. -/
theorem Simulates.stir (h : Tidy (s.proc q)) (hs : (s.proc q).state = .sleeping)
    (hf : mutexPhase (f (s.proc q)) = .out) :
    Simulates s (s.setProc q f) := by
  obtain ⟨k, hk⟩ : ∃ k, (s.proc q).pc = .asleep k := by
    simpa only [Tidy, hs] using h
  by_cases hc : ∃ id, (s.proc q).chan = some (.kmutex id)
  · obtain ⟨id, hid⟩ := hc
    rw [Simulates, view_setProc, hf]
    exact .single (.stir q id (by simp [view, mutexPhase, hs, hid]))
  · refine .of_eq (view_setProc_same ?_)
    rw [hf, mutexPhase]
    split
    · next id _ hid => exact absurd ⟨id, hid⟩ hc
    · rw [hk]
      rfl

/-- A signal can wake its target, and is invisible to one that is awake. -/
theorem Simulates.signal (h : Tidy (s.proc q)) (f : Search) :
    Simulates s (s.setProc q f.effect) := by
  cases f with
  | kill =>
    by_cases hs : (s.proc q).state = .sleeping
    · apply Simulates.stir h hs
      rw [← mutexPhase_woken h hs]
      simp [Search.effect, hs, mutexPhase]
    · refine .of_eq (view_setProc_same ?_)
      simp [Search.effect, hs, mutexPhase]
  | freeze | thaw | getprocstate => exact .of_eq (view_setProc_same rfl)

/-- Mutexes that are locked are in use. -/
def LockedUsed (s : Kernel) : Prop := ∀ id, (s.mutex id).locked = true → (s.mutex id).used = true

theorem pcPhase_returns {c : Call} {r : Int} (h : Returns s p pc c r) :
    pcPhase pc = .out := by
  cases h <;> rfl

/-- A process whose lock is free is not on its way into `sleep`. -/
theorem not_sleepsOn {id : MutexId} (hl : x.pc.holdsOwn = false)
    (hs : ¬(x.state = .sleeping ∧ x.chan = some (.kmutex id))) :
    ¬(mutexPhase x).sleepsOn id := by
  unfold mutexPhase
  split
  · next j hst hch =>
    simp only [Phase.sleepsOn, reduceCtorEq, Phase.asleep.injEq, false_or]
    rintro rfl
    exact hs ⟨hst, hch⟩
  · cases hpc : x.pc with
    | sleepLock c k | sleepDrop c k => cases c <;> simp [pcPhase, Phase.sleepsOn, Pc.holdsWait]
    | sleepSet c k =>
      rw [hpc] at hl
      cases hl
    | wakeup c i k => rcases c with _ | _ | _ <;> simp [pcPhase, Phase.sleepsOn, Pc.holdsWait]
    | _ => simp [pcPhase, Phase.sleepsOn, Pc.holdsWait]

/-- The phase of a slot that is free or whose process is gone. -/
theorem mutexPhase_vacant (ht : Table s) (hl : s.lockFree q = true)
    (hs : (s.proc q).state = .unused ∨ (s.proc q).state = .zombie) :
    mutexPhase (s.proc q) = .out := by
  have hq := ht.tidy q
  rw [mutexPhase_awake (by rcases hs with hs | hs <;> simp [hs])]
  rcases hs with hs | hs <;> simp only [Tidy, hs] at hq
  · rw [hq]
    rfl
  · rcases hq with hq | hq | hq <;> simp_all [Kernel.lockFree, Pc.holdsOwn]
    rfl

theorem exiting_awake (ht : Table s) (h : (s.proc p).pc = .exitDrop ∨ (s.proc p).pc = .exitSched) :
    (s.proc p).state ≠ .sleeping := by
  intro hs
  obtain ⟨k, hk⟩ : ∃ k, (s.proc p).pc = .asleep k := by
    simpa only [Tidy, hs] using ht.tidy p
  rcases h with h | h <;> rw [hk] at h <;> cases h

theorem step_simulates (ht : Table s) (hu : LockedUsed s) (hs : Step o p s s') :
    Simulates s s' := by
  cases hs with
  | dispatch hr hf hl => exact .of_eq (view_setProc_same (mutexPhase_resume (ht.tidy p) hr))
  | yield hr hp =>
    refine .of_eq (view_setProc_same ?_)
    rw [mutexPhase_awake (by simp), mutexPhase_awake (by simp [hr])]
  | @fault va ok mem hr hpc hm =>
    refine .of_eq (view_setProc_same (s := s.setMem mem) ?_)
    rfl
  | @memory c m r mem hr hpc hc hm ho =>
    exact .ret (s := s.setMem mem) (.of_running hr hpc) rfl c r
  | walk hr hf => exact .walk (.of_running hr rfl) hf
  | ret hr h => exact .ret (.of_running hr rfl) (pcPhase_returns h) _ _
  | acquire hr hpc hw =>
    have hat := At.of_running hr hpc
    rw [Simulates, view_goto (s := s.acquire p) hat.1]
    exact .single (.enter p hw hat.phase)
  | answer hr hpc ha => exact .leave (.of_running hr hpc) _ _
  | @mutexCreate id hr hpc hfree =>
    have hat := At.of_running hr hpc
    have hl : (s.mutex id).locked = true → false = true := by
      intro hl
      rw [hu id hl] at hfree
      cases hfree
    exact .trans (.setMutex hat (e := ⟨true, false, -1⟩) hl) (.leave (s := s.setMutex id _) hat _ _)
  | @mutexTake id k c hr hpc hk hused hl =>
    have hat := At.of_running hr hpc
    exact .trans (.setMutex hat (e := ⟨true, true, (s.proc p).pid⟩) fun _ => rfl)
      (.leave (s := s.setMutex id _) hat _ _)
  | @mutexFree id hr hpc hused hl ho =>
    have hat := At.of_running hr hpc
    have hothers : ∀ j, j ≠ id → (view s).busy j →
        (view (s.setMutex id ⟨true, false, -1⟩)).busy j := by
      intro j hj hb
      change (update s.mutex id ⟨true, false, -1⟩ j).locked = true
      rw [update_of_ne hj]
      exact hb
    rw [Simulates, view_goto (s := s.setMutex id _) hat.1]
    exact .single (.release p id _ hat.phase hothers)
  | @sleepDrop c k hr hpc =>
    have hat := At.of_running hr hpc
    cases c with
    | kmutex id =>
      rw [Simulates, view_goto (s := s.release) hat.1]
      exact .single (.drop p id hat.phase)
    | proc q => exact .release hat rfl rfl
  | @sleepSet c k hr hpc =>
    have hat := At.of_running hr hpc
    cases c with
    | kmutex id =>
      rw [Simulates, view_setProc]
      exact .single (.fall p id hat.phase)
    | proc q =>
      refine .of_eq (view_setProc_same ?_)
      rw [mutexPhase_awake hat.1, hpc]
      rfl
  | @wake c q k hr hpc hq hl hs hc =>
    have hat : At (s.setProc q fun x => { x with state := .runnable }) p (.wakeup c q.val k) :=
      (At.of_running hr hpc).update fun he => absurd he.symm hq
    have hout := mutexPhase_woken (ht.tidy q) hs
    refine .trans (.stir (ht.tidy q) hs hout) (.visit hat fun id _ => ?_)
    rw [setProc_self, hout]
    simp [Phase.sleepsOn]
  | @pass c q k hr hpc hq hl hs =>
    refine .visit (.of_running hr hpc) fun id hid => not_sleepsOn ?_ (hid ▸ hs)
    simpa [Kernel.lockFree] using hl
  | @found f pid q hr hpc hl hq =>
    have hat : At (s.setProc q f.effect) p (.search f pid q.val) :=
      (At.of_running hr hpc).update fun _ => ⟨effect_state f (by simp [hr]), effect_pc f _⟩
    exact .trans (.signal (ht.tidy q) f) (.ret hat rfl _ _)
  | @allocated k np mem hr hpc hl hfree hm =>
    have hne := ne_of_state hr hfree (by decide)
    have hat := At.of_running (s := draw s mem) hr hpc
    refine .trans (.of_eq (view_setProc_same (s := draw s mem) (q := np) ?_))
      (.stay (hat.update fun he => absurd he hne) rfl)
    exact (mutexPhase_vacant ht hl (.inl hfree)).symm
  | @allocFailed k np mem hr hpc hl hfree hm =>
    have hne := ne_of_state hr hfree (by decide)
    have hat := At.of_running (s := draw s mem) hr hpc
    refine .trans (.of_eq (view_setProc_same (s := draw s mem) (q := np) ?_))
      (.stay (hat.update fun he => absurd he hne) rfl)
    exact (mutexPhase_vacant ht hl (.inl hfree)).symm
  | @link np pid k hr hpc =>
    have hat := At.of_running hr hpc
    refine .trans (.of_eq (view_setProc_same (q := np) ?_))
      (.release (hat.update fun _ => ⟨rfl, rfl⟩) rfl rfl)
    rfl
  | @publish np pid k hr hpc hl =>
    have hnp : pending (s.proc p).pc = some np := by rw [hpc]; rfl
    have hat := At.of_running hr hpc
    refine .trans (.of_eq (view_setProc_same (q := np) ?_))
      (.stay (hat.update fun he => absurd he (ht.pending_ne hr hnp)) rfl)
    rw [mutexPhase_awake (by simp), mutexPhase_awake (by simp [ht.used p np hnp])]
  | @reap target addr q havekids mem hr hpc hq hl hz hm =>
    have hne := ne_of_state hr hz (by decide)
    have hat := At.of_running (s := s.setMem mem) hr hpc
    refine .trans (.of_eq (view_setProc_same (s := s.setMem mem) (q := q) ?_))
      (.leave (hat.update fun he => absurd he hne) _ _)
    exact (mutexPhase_vacant ht hl (.inr hz)).symm
  | @reapFailed target addr q havekids mem hr hpc hq hl hz hm =>
    exact .leave (s := s.setMem mem) (.of_running hr hpc) _ _
  | @reparent status q hr hpc hq =>
    have hat := At.of_running hr hpc
    refine .trans (.of_eq (view_setProc_same (q := q) ?_))
      (.stay (hat.update fun _ => ⟨rfl, rfl⟩) rfl)
    rfl
  | @exitMark status hr hpc =>
    refine .of_eq ((view_record _ _).trans (view_setProc_same ?_))
    rw [mutexPhase_awake (x := s.proc p) (by simp [hr]), hpc]
    rfl
  | exitDrop hpc => exact .release ⟨exiting_awake ht (.inl hpc), hpc⟩ rfl rfl
  | exitSched hpc => exact .stay ⟨exiting_awake ht (.inr hpc), hpc⟩ rfl

theorem step_lockedUsed (hu : LockedUsed s) (hs : Step o p s s') : LockedUsed s' := by
  have hset : ∀ id l w j, (update s.mutex id ⟨true, l, w⟩ j).locked = true →
      (update s.mutex id ⟨true, l, w⟩ j).used = true := by
    intro id l w j hj
    by_cases hji : j = id
    · rw [hji, update_self]
    · rw [update_of_ne hji] at hj ⊢
      exact hu j hj
  cases hs with
  | mutexCreate _ _ _ | mutexTake _ _ _ _ _ | mutexFree _ _ _ _ _ => exact hset _ _ _
  | _ => exact hu

/-- What the simulation needs and keeps. -/
structure SleepInv (s : Kernel) : Prop where
  table : Table s
  used : LockedUsed s
  monitor : Inv (view s)

theorem SleepInv.step (h : SleepInv s) (hs : Step o p s s') : SleepInv s' := by
  have hrun : Simulates s s' := step_simulates h.table h.used hs
  exact ⟨Table.step h.table hs, step_lockedUsed h.used hs, h.monitor.run hrun⟩

theorem SleepInv.start (mem : Mem) : SleepInv (Kernel.start mem) := by
  have hout : ∀ q, mutexPhase ((Kernel.start mem).proc q) = .out :=
    start_proc (P := fun x => mutexPhase x = .out) rfl rfl mem
  refine ⟨Table.start mem, ?_, ⟨?_, ?_, ?_⟩⟩
  · intro id hlocked
    cases hlocked
  · intro q
    change none = some q ↔ (mutexPhase ((Kernel.start mem).proc q)).holds
    simp [hout, Phase.holds]
  · intro q id hq
    change mutexPhase ((Kernel.start mem).proc q) = _ at hq
    simp [hout] at hq
  · intro q id hq
    change (mutexPhase ((Kernel.start mem).proc q)).sleepsOn id at hq
    simp [hout, Phase.sleepsOn] at hq

theorem SleepInv.reach {ok : Kernel → Action → Prop} (hb : Booted ram s₀) (hr : Reach ok s₀ s) :
    SleepInv s := by
  obtain ⟨mem, rfl⟩ := hb.start
  refine Reach.invariant (.start mem) (fun t a t' h _ ha => ?_) hr
  have h' : SleepInv (t.withFails a.fails) := ⟨Table.withFails h.table a.fails, h.used, h.monitor⟩
  exact h'.step (act_step ha)

/-- No process is asleep on a mutex that is free, whenever `wait_lock` is. -/
theorem mutex_sleepers_wait (hb : Booted ram s₀) (hr : Reach (fun _ _ => True) s₀ s)
    (hw : s.waitLock = none) (q : Slot) (id : MutexId) (hs : (s.proc q).state = .sleeping)
    (hc : (s.proc q).chan = some (.kmutex id)) : (s.mutex id).locked = true := by
  have hinv := (SleepInv.reach hb hr).monitor
  refine hinv.no_lost_wakeup hw (t := q) ?_
  simp [view, mutexPhase, hs, hc]

/-- The first process creates a mutex, locks it and forks; its child sleeps on the mutex. -/
def contendedRun : List Action :=
  callRun 0 .mutexCreate 2 ++ callRun 0 (.mutexLock 0) 2 ++ callRun 0 .fork 6 ++
    ⟨1, .dispatch, []⟩ :: callRun 1 (.mutexLock 0) 5

theorem mutex_sleepers_wait_contended :
    ((after contendedRun smallKernel).proc 1).state = .sleeping ∧
    ((after contendedRun smallKernel).mutex 0).locked = true := by
  have hreach : Reach (fun _ _ => True) smallKernel (after contendedRun smallKernel) :=
    Reach.after (fun _ _ _ => trivial) (by decide +kernel)
  have hsleep : ((after contendedRun smallKernel).proc 1).state = .sleeping := by decide +kernel
  have hchan : ((after contendedRun smallKernel).proc 1).chan = some (.kmutex 0) := by
    decide +kernel
  exact ⟨hsleep, mutex_sleepers_wait smallKernel_booted hreach (by decide +kernel) 1 0 hsleep hchan⟩

end KernelSleep
