import Xv6Filesrv.KernelPids
import Xv6Filesrv.KernelSpaces
import Xv6Filesrv.KernelSlots

/-!
# Signals and the flags of a process

`kkill`, `kfreeze`, `kthaw` and `ksignal_send` set the flags `killed` and `frozen` of a slot that
they select by pid.  When a killed process can be left frozen, and when a new process can start
with a flag that was set for nobody.
-/

namespace KernelSignals

open StateFrame KernelPages KernelMemInv KernelShm KernelProc KernelSteps KernelTable
open KernelSlots KernelBoot KernelPids KernelPrograms

variable {ram : Ram} {o : Op} {s s' s₀ : Kernel} {p : Slot} {a : Action} {m m' : Mem}

/-! ## Which operation a step was -/

/-- A process that comes back to user space from inside the kernel proceeds. -/
theorem act_proceed (ha : act a s = some (.ok s')) (hpc : (s.proc a.p).pc ≠ .user)
    (huser : (s'.proc a.p).pc = .user) : a.op = .proceed := by
  obtain ⟨p, op, fails⟩ := a
  simp only [act] at ha
  cases op with
  | proceed => rfl
  | dispatch =>
    simp only at ha
    split at ha
    · cases ha
      rw [setProc_self] at huser
      unfold Proc.resume at huser
      split at huser
      · cases huser
      · exact absurd huser hpc
    · cases ha
  | yield =>
    simp only at ha
    split at ha
    · cases ha
      rw [setProc_self] at huser
      exact absurd huser hpc
    · cases ha
  | call c =>
    simp only at ha
    split at ha
    · next hu => exact absurd (atUser_iff.mp hu).2 hpc
    · cases ha
  | fault va =>
    simp only at ha
    split at ha
    · next hu => exact absurd (atUser_iff.mp hu).2 hpc
    · cases ha

theorem syscall_killed {c : Call} (h : syscall s p c = .ok s') :
    (s'.proc p).killed = (s.proc p).killed := by
  have hexit : ∀ status, kexit s p status = .ok s' → (s'.proc p).killed = (s.proc p).killed := by
    intro status hs
    unfold kexit at hs
    split at hs
    · cases hs
    · cases hs
      rw [goto_self]
  unfold syscall at h
  split at h
  · exact hexit _ h
  · split at h
    · exact hexit _ h
    · split at h
      · obtain ⟨r, mem, -, rfl⟩ := onMem_ok h
        rw [ret_self]
        rfl
      · split at h
        · cases h
          rw [goto_self]
        · cases h
          rw [ret_self]

/-- A process in user space whose own step kills it has taken a page fault. -/
theorem act_fault (ha : act a s = some (.ok s')) (hr : (s.proc a.p).state = .running)
    (hpc : (s.proc a.p).pc = .user) (hk : (s.proc a.p).killed = false)
    (h : s'.proc a.p = { s.proc a.p with killed := true }) :
    ∃ va mem, a.op = .fault va ∧
      pageFault a.p va (s.withFails a.fails).mem = .ok (false, mem) := by
  have hk' : (s'.proc a.p).killed = true := by rw [h]
  have hr' : (s'.proc a.p).state = .running := by rw [h]; exact hr
  obtain ⟨p, op, fails⟩ := a
  have hu : ((s.withFails fails).proc p).atUser = true := atUser_iff.mpr ⟨hr, hpc⟩
  simp only [act] at ha
  cases op with
  | dispatch =>
    simp only at ha
    split at ha
    · next hg => exact absurd (hr.symm.trans hg.1) (by decide)
    · cases ha
  | yield =>
    simp only at ha
    split at ha
    · cases ha
      rw [setProc_self] at hr'
      cases hr'
    · cases ha
  | call c =>
    simp only [hu, if_true] at ha
    rw [syscall_killed (Option.some.inj ha)] at hk'
    exact absurd (hk.symm.trans hk') (by decide)
  | fault va =>
    simp only [hu, if_true] at ha
    obtain ⟨ok, mem, hm, rfl⟩ := onMem_ok (Option.some.inj ha)
    cases ok with
    | true => exact absurd (hk.symm.trans hk') (by decide)
    | false => exact ⟨va, mem, rfl, hm⟩
  | proceed =>
    have hnone : proceed (s.withFails fails) p = none := by
      have hpc' : ((s.withFails fails).proc p).pc = .user := hpc
      simp only [proceed, hpc']
    simp only [hnone] at ha
    split at ha <;> cases ha

/-! ## Killed and frozen -/

/-- A process that has not exited is not both killed and frozen. -/
def Releasable (x : Proc) : Prop := x.state ≠ .zombie → ¬(x.killed = true ∧ x.frozen = true)

/-- `vmfault` found no page for the address, so that `usertrap` kills the process. -/
def fatal : Except Panic (Bool × Mem) → Bool
  | .ok (false, _) => true
  | _ => false

/-- No killed process is frozen, and no frozen one takes a page fault that kills it. -/
def SparesKilled (s : Kernel) (a : Action) : Prop :=
  match a.op, (s.proc a.p).pc with
  | .proceed, .search .freeze pid i =>
    ∀ q : Slot, q.val = i → Search.freeze.hits pid (s.proc q) = true →
      (s.proc q).state ≠ .zombie → (s.proc q).killed = false
  | .fault va, _ =>
    (s.proc a.p).frozen = true → fatal (pageFault a.p va (s.withFails a.fails).mem) = false
  | _, _ => True

instance (s : Kernel) (a : Action) : Decidable (SparesKilled s a) := by
  unfold SparesKilled
  split <;> infer_instance

theorem kill_thaws (x : Proc) : (Search.kill.effect x).frozen = false := by
  simp only [Search.effect]
  split <;> rfl

theorem effect_releasable {f : Search} {x : Proc} {pc : Pc} (h : Releasable x)
    (hf : f = .freeze → x.state ≠ .zombie → x.killed = false) :
    Releasable { f.effect x with pc := pc } := by
  intro hz hboth
  cases f with
  | freeze =>
    have hk : x.killed = true := hboth.1
    exact absurd ((hf rfl hz).symm.trans hk) (by decide)
  | thaw => cases hboth.2
  | getprocstate => exact h hz hboth
  | kill => exact absurd ((kill_thaws x).symm.trans hboth.2) (by decide)

theorem SparesKilled.step (ht : Table s) (h : ∀ q, Releasable (s.proc q)) (hok : SparesKilled s a)
    (ha : act a s = some (.ok s')) (q : Slot) : Releasable (s'.proc q) := by
  have hq := h q
  cases step_change (Table.withFails ht a.fails) (act_step ha) q with
  | keep hsame =>
    intro hz
    rw [hsame.killed, hsame.frozen]
    exact hq fun hold => hz (hsame.zombie.mpr hold)
  | @signal f pid hpc hf huser heq =>
    obtain ⟨pc, heq⟩ := heq
    rw [heq]
    refine effect_releasable hq fun hfreeze hz => ?_
    subst hfreeze
    have hpc' : (s.proc a.p).pc = .search .freeze pid q.val := hpc
    have hop := act_proceed ha (by rw [hpc']; exact nofun) huser
    rw [SparesKilled, hop, hpc'] at hok
    exact hok q rfl hf hz
  | fault hqp hr hpc heq =>
    subst hqp
    intro hz hboth
    by_cases hk : (s.proc a.p).killed = true
    · rw [heq] at hz hboth
      exact hq hz ⟨hk, hboth.2⟩
    · obtain ⟨va, mem, hop, hm⟩ := act_fault ha hr hpc (by simpa using hk) heq
      rw [SparesKilled, hop] at hok
      rw [heq] at hboth
      have hsurvives := hok hboth.2
      rw [hm] at hsurvives
      cases hsurvives
  | alloc hpc hu hm heq =>
    rw [heq]
    intro _ hboth
    cases hboth.2
  | allocFailed hu heq | reap _ _ _ _ heq =>
    rw [heq]
    intro _ hboth
    cases hboth.1
  | link hpc heq =>
    rw [heq]
    exact hq
  | publish hpc heq =>
    rw [heq]
    intro _
    have hused := (Table.withFails ht a.fails).used a.p q (by rw [hpc]; rfl)
    exact hq (by rw [show (s.proc q).state = .used from hused]; decide)
  | adopt hpc hpar heq hwake =>
    obtain ⟨pc, heq⟩ := heq
    rw [heq]
    exact hq
  | exit hqp hr hpc heq =>
    rw [heq]
    exact fun hz => absurd rfl hz

/-- A runnable process that is not frozen can be given a CPU. -/
theorem dispatchable (ht : Table s) {q : Slot} (hr : (s.proc q).state = .runnable)
    (hf : (s.proc q).frozen = false) (fails : List Bool) :
    ∃ t, act ⟨q, .dispatch, fails⟩ s = some (.ok t) := by
  have hl : (s.withFails fails).lockFree q = true := by
    have htidy := ht.tidy q
    simp only [Tidy, hr] at htidy
    have hpc : (s.proc q).pc.holdsOwn = false := by
      rcases htidy with hp | ⟨k, hk⟩
      · cases hpc : (s.proc q).pc <;> simp_all [Pc.preemptible, Pc.holdsOwn]
      · rw [hk]
        rfl
    simp only [Kernel.lockFree, Bool.not_eq_true']
    exact hpc
  refine ⟨(s.withFails fails).setProc q Proc.resume, ?_⟩
  simp only [act]
  exact if_pos ⟨hr, hf, hl⟩

/-- In every run that freezes no killed process and kills no frozen one by a page fault, no process
is both, so that a killed process that is runnable can be given a CPU. -/
theorem killed_not_frozen (hb : Booted ram s₀) (hr : Reach SparesKilled s₀ s) (q : Slot) :
    ((s.proc q).state = .sleeping ∨ (s.proc q).state = .runnable ∨ (s.proc q).state = .running →
      ¬((s.proc q).killed = true ∧ (s.proc q).frozen = true)) ∧
    ((s.proc q).state = .runnable → (s.proc q).killed = true →
      ∀ fails, ∃ t, act ⟨q, .dispatch, fails⟩ s = some (.ok t)) := by
  have hinv : Table s ∧ ∀ q, Releasable (s.proc q) := by
    refine Reach.invariant (I := fun t => Table t ∧ ∀ q, Releasable (t.proc q)) ⟨hb.table, ?_⟩ ?_ hr
    · obtain ⟨mem, rfl⟩ := hb.start
      intro r _ hboth
      by_cases hr0 : r = 0
      · rw [hr0] at hboth
        cases hboth.1
      · simp [Kernel.start, hr0, Proc.free] at hboth
    · rintro t a t' ⟨ht, hrel⟩ hok ha
      exact ⟨Table.act ht ha, hok.step ht hrel ha⟩
  obtain ⟨htable, hrel⟩ := hinv
  constructor
  · intro hstate
    refine hrel q ?_
    rcases hstate with h | h | h <;> rw [h] <;> decide
  · intro hrun hk fails
    refine dispatchable htable hrun ?_ fails
    have hnot := hrel q (by rw [hrun]; decide)
    simpa [hk] using hnot

/-- The first process forks, freezes its child and kills it. -/
def killedRun : List Action :=
  callRun 0 .fork 6 ++ callRun 0 (.freeze 2) 2 ++ callRun 0 (.kill 2) 2

theorem killed_not_frozen_child :
    ((after killedRun smallKernel).proc 1).killed = true ∧
    ∃ t, act ⟨1, .dispatch, []⟩ (after killedRun smallKernel) = some (.ok t) := by
  obtain ⟨hrun, hk, hstate⟩ : allowedRun SparesKilled killedRun smallKernel = true ∧
      ((after killedRun smallKernel).proc 1).killed = true ∧
      ((after killedRun smallKernel).proc 1).state = .runnable := by decide +kernel
  have hreach : Reach SparesKilled smallKernel (after killedRun smallKernel) := Reach.allowed hrun
  exact ⟨hk, (killed_not_frozen smallKernel_booted hreach 1).2 hstate hk []⟩

/-- The same signals the other way round. -/
def frozenRun : List Action :=
  callRun 0 .fork 6 ++ callRun 0 (.kill 2) 2 ++ callRun 0 (.freeze 2) 2

/-- A killed process is runnable and frozen, and no CPU can take it. -/
theorem killed_child_frozen :
    Reach (fun _ _ => True) smallKernel (after frozenRun smallKernel) ∧
    ((after frozenRun smallKernel).proc 1).state = .runnable ∧
    ((after frozenRun smallKernel).proc 1).killed = true ∧
    ((after frozenRun smallKernel).proc 1).frozen = true := by
  obtain ⟨hrun, hlast⟩ : runs frozenRun smallKernel = true ∧
      ((after frozenRun smallKernel).proc 1).state = .runnable ∧
      ((after frozenRun smallKernel).proc 1).killed = true ∧
      ((after frozenRun smallKernel).proc 1).frozen = true := by decide +kernel
  exact ⟨Reach.after (fun _ _ _ => trivial) hrun, hlast⟩

/-! ## New processes -/

/-- No `kill`, and no signal that kills, is sent to pid 0. -/
def NamesPid (_ : Kernel) (a : Action) : Prop :=
  match a.op with
  | .call (.kill pid) => pid ≠ 0
  | .call (.signalSend pid sig) => sig = 1 → pid ≠ 0
  | _ => True

theorem start_kill {c : Call} {sz : Nat} {pid : Int} {i : Nat}
    (h : c.start sz = some (.search .kill pid i)) : c = .kill pid ∨ c = .signalSend pid 1 := by
  cases c with
  | kill n =>
    cases h
    exact .inl rfl
  | signalSend n sig =>
    simp only [Call.start, ksignalSend] at h
    split at h
    · next hsig =>
      cases h
      exact .inr (by rw [hsig])
    · repeat' split at h
      all_goals cases h
  | waitpid n addr | forkn n | threadCreate fn arg | getprocstate n =>
    simp only [Call.start] at h
    split at h <;> cases h
  | mutexLock id | mutexUnlock id | mutexTrylock id | mutexOwner id =>
    obtain ⟨_, _, hid⟩ := Option.map_eq_some_iff.mp h
    cases hid
  | _ => cases h

/-- A search goes on, or has just been started. -/
theorem step_search (hs : Step o p s s') {q : Slot} {f : Search} {pid : Int} {i : Nat}
    (h : (s'.proc q).pc = .search f pid i) :
    (∃ j, (s.proc q).pc = .search f pid j) ∨
      ∃ c sz, o = .call c ∧ c.start sz = some (.search f pid i) := by
  by_cases hq : q = p
  · subst hq
    have hmoves := step_moves hs
    rw [h] at hmoves
    generalize hpc : (s.proc q).pc = pc at hmoves
    cases hmoves with
    | stay => exact .inl ⟨i, rfl⟩
    | flow hflow =>
      cases hflow with
      | start hc hk ho => exact .inr ⟨_, _, ho, hc⟩
      | searchNext hq => exact .inl ⟨_, rfl⟩
  · have htouch := step_touch hs hq
    generalize s'.proc q = x at h htouch
    cases htouch with
    | same | wake _ | adopt _ | publish _ _ => exact .inl ⟨i, h⟩
    | signal f' pid' hf =>
      rw [effect_pc] at h
      exact .inl ⟨i, h⟩
    | alloc _ _ _ | free _ _ => cases h

/-- An unused slot is as `freeproc` left it, and nobody looks for pid 0 to kill it. -/
structure Clean (s : Kernel) : Prop where
  unused : ∀ q, (s.proc q).state = .unused → (s.proc q).killed = false ∧
    (s.proc q).frozen = false ∧ (s.proc q).chan = none ∧ (s.proc q).pid = 0
  target : ∀ q pid i, (s.proc q).pc = .search .kill pid i → pid ≠ 0

theorem Clean.hits (h : Clean s) {q : Slot} {f : Search} {pid : Int}
    (hpc : (s.proc p).pc = .search f pid q.val) (hf : f.hits pid (s.proc q) = true) :
    (s.proc q).state ≠ .unused := by
  intro hu
  simp only [Search.hits, hu, bne_self_eq_false, Bool.or_false, Bool.and_eq_true, beq_iff_eq] at hf
  obtain ⟨hpid, hkill⟩ := hf
  subst hkill
  exact h.target p pid q.val hpc (hpid.symm.trans (h.unused q hu).2.2.2)

theorem Clean.step (ht : Table s) (h : Clean s) (hs : Step o p s s')
    (hok : ∀ c, o = .call c → ∀ pid, c = .kill pid ∨ c = .signalSend pid 1 → pid ≠ 0) :
    Clean s' := by
  constructor
  · intro q hu
    cases step_change ht hs q with
    | keep hsame =>
      have hold := hsame.unused.mp hu
      obtain ⟨hk, hf, hc, hp⟩ := h.unused q hold
      rw [hsame.killed, hsame.frozen, hsame.pid, hsame.chan (by rw [hold]; rfl)]
      exact ⟨hk, hf, hc, hp⟩
    | @signal f pid hpc hf huser heq =>
      obtain ⟨pc, heq⟩ := heq
      rw [heq] at hu
      exact absurd ((effect_unused f _).mp hu) (h.hits hpc hf)
    | allocFailed hold heq | reap _ _ _ _ heq =>
      rw [heq]
      exact ⟨rfl, rfl, rfl, rfl⟩
    | fault hqp hr hpc heq =>
      subst hqp
      rw [heq] at hu
      exact absurd (hr.symm.trans hu) (by decide)
    | link hpc heq =>
      rw [heq] at hu
      have hused := ht.used p q (by rw [hpc]; rfl)
      exact absurd (hused.symm.trans hu) (by decide)
    | adopt hpc hpar heq hwake =>
      obtain ⟨pc, heq⟩ := heq
      rw [heq] at hu ⊢
      exact h.unused q hu
    | alloc _ _ _ heq | publish _ heq | exit _ _ _ heq =>
      rw [heq] at hu
      cases hu
  · intro q pid i hpc
    rcases step_search hs hpc with ⟨j, hold⟩ | ⟨c, sz, ho, hc⟩
    · exact h.target q pid j hold
    · exact hok c ho pid (start_kill hc)

theorem NamesPid.call {c : Call} {pid : Int} (h : NamesPid s a) (ho : a.op = .call c)
    (hc : c = .kill pid ∨ c = .signalSend pid 1) : pid ≠ 0 := by
  rw [NamesPid, ho] at h
  rcases hc with rfl | rfl
  · exact h
  · exact h rfl

theorem Clean.reach (hb : Booted ram s₀) (hr : Reach NamesPid s₀ s) : Table s ∧ Clean s := by
  refine Reach.invariant (I := fun t => Table t ∧ Clean t) ⟨hb.table, ?_⟩ ?_ hr
  · obtain ⟨mem, rfl⟩ := hb.start
    constructor
    · intro q hq
      by_cases hq0 : q = 0
      · rw [hq0] at hq
        cases hq
      · simp [Kernel.start, hq0, Proc.free]
    · intro q pid i hpc
      cases (start_pc mem q).symm.trans hpc
  · rintro t a t' ⟨ht, hclean⟩ hok ha
    have hclean' : Clean (t.withFails a.fails) := ⟨hclean.unused, hclean.target⟩
    exact ⟨Table.act ht ha, hclean'.step (Table.withFails ht a.fails) (act_step ha)
      fun c ho pid hc => hok.call ho hc⟩

section segments

variable {np : Slot}

theorem allocproc_shmVa (h : allocproc np m = .ok (true, m')) (i : SegId) :
    (m'.space np).shmVa i = 0 := by
  obtain ⟨_, m₁, hclear, h⟩ := bind_ok h
  cases hclear
  obtain ⟨tf, m₂, htf, h⟩ := bind_ok h
  obtain ⟨k₂, -, rfl⟩ := onKmem_ok htf
  cases tf with
  | none =>
    obtain ⟨_, m₃, -, h⟩ := bind_ok h
    obtain ⟨_, m₄, -, h⟩ := bind_ok h
    cases h
  | some tf =>
    obtain ⟨_, m₃, hset, h⟩ := bind_ok h
    cases hset
    obtain ⟨pt, m₄, hpt, h⟩ := bind_ok h
    obtain ⟨k₄, -, rfl⟩ := onKmem_ok hpt
    obtain ⟨_, m₅, hset, h⟩ := bind_ok h
    cases hset
    split at h
    · obtain ⟨_, m₆, -, h⟩ := bind_ok h
      cases h
    · cases h
      simp only [Function.update_self]

/-- The address spaces stay as they are. -/
def SameSpaces (m m' : Mem) : Prop := m'.space = m.space

instance : Std.Refl SameSpaces := ⟨fun _ => rfl⟩

instance : IsTrans Mem SameSpaces := ⟨fun _ _ _ h h' => Eq.trans h' h⟩

theorem setReg_spaces (r : Reg) (v : Nat) : Keeps SameSpaces (setReg p r v) := by
  intro m u m' h
  obtain ⟨_, _, hget, h⟩ := bind_ok h
  cases hget
  obtain ⟨k, -, rfl⟩ := onKmem_ok h
  rfl

/-- The child has no segment attached, whatever its parent has. -/
theorem copyProc_shmVa {regs : List (Reg × Nat)} (h : copyProc p np regs m = .ok (true, m'))
    (i : SegId) : (m'.space np).shmVa i = 0 := by
  cases copyProc_copies h with
  | @done m₁ m₂ m₃ m₄ m₅ _ _ _ _ _ _ _ _ halloc hcopy htable hsize hmove hregs =>
    have hspace : m'.space = m₅.space :=
      keeps_forM (fun r : Reg × Nat => setReg_spaces r.1 r.2) regs _ _ _ hregs
    obtain ⟨k₂, -, rfl⟩ := onKmem_ok hcopy
    cases htable
    cases hsize
    obtain ⟨k₅, -, rfl⟩ := onKmem_ok hmove
    rw [hspace]
    simp only [Function.update_self]
    exact allocproc_shmVa halloc i

end segments

/-- In every run that sends no killing signal to pid 0, unused slots have no flag set, and a slot
that is given to a new process has no flag, no channel and no segment. -/
theorem newborn_clean (hb : Booted ram s₀) (hr : Reach NamesPid s₀ s) :
    (∀ q, (s.proc q).state = .unused →
      (s.proc q).killed = false ∧ (s.proc q).frozen = false) ∧
    ∀ a s' q, act a s = some (.ok s') → (s.proc q).state = .unused →
      (s'.proc q).state ≠ .unused →
        (s'.proc q).killed = false ∧ (s'.proc q).frozen = false ∧ (s'.proc q).chan = none ∧
          ∀ i, (s'.mem.space q).shmVa i = 0 := by
  obtain ⟨ht, hclean⟩ := Clean.reach hb hr
  constructor
  · intro q hq
    obtain ⟨hk, hf, -, -⟩ := hclean.unused q hq
    exact ⟨hk, hf⟩
  · intro a s' q ha hold hnew
    obtain ⟨hk, hf, hc, hp⟩ := hclean.unused q hold
    cases step_change (Table.withFails ht a.fails) (act_step ha) q with
    | alloc hpc hu hm heq =>
      rw [heq]
      exact ⟨hk, rfl, hc, copyProc_shmVa hm⟩
    | keep hsame => exact absurd (hsame.unused.mpr hold) hnew
    | signal hpc hhit huser heq =>
      obtain ⟨pc, heq⟩ := heq
      rw [heq] at hnew
      exact absurd ((effect_unused _ _).mpr hold) hnew
    | allocFailed hu heq | reap _ _ _ _ heq =>
      rw [heq] at hnew
      exact absurd rfl hnew
    | fault hqp hr hpc heq => subst hqp; exact absurd (hr.symm.trans hold) (by decide)
    | exit hqp hr hpc heq => subst hqp; exact absurd (hr.symm.trans hold) (by decide)
    | link hpc heq | publish hpc heq =>
      have hused := (Table.withFails ht a.fails).used a.p q (by rw [hpc]; rfl)
      exact absurd (hused.symm.trans hold) (by decide)
    | adopt hpc hpar heq hwake =>
      obtain ⟨pc, heq⟩ := heq
      rw [heq] at hnew
      exact absurd hold hnew

/-- The first process is about to allocate slot 1 for a child. -/
def forkingRun : List Action := callRun 0 (.kill 5) 65 ++ callRun 0 .fork 1

theorem newborn_clean_fork :
    ((after forkingRun smallKernel).proc 1).state = .unused ∧
    ((after forkingRun smallKernel).proc 1).killed = false ∧
    ∀ s', act ⟨0, .proceed, []⟩ (after forkingRun smallKernel) = some (.ok s') →
      (s'.proc 1).state ≠ .unused → (s'.proc 1).killed = false ∧ (s'.proc 1).frozen = false := by
  obtain ⟨hrun, hold⟩ : runs forkingRun smallKernel = true ∧
      ((after forkingRun smallKernel).proc 1).state = .unused := by decide +kernel
  have hreach : Reach NamesPid smallKernel (after forkingRun smallKernel) :=
    Reach.after (by simp [forkingRun, callRun, callBy, NamesPid]) hrun
  obtain ⟨hunused, hnew⟩ := newborn_clean smallKernel_booted hreach
  refine ⟨hold, (hunused 1 hold).1, fun s' ha hne => ?_⟩
  obtain ⟨hk, hf, -, -⟩ := hnew _ s' 1 ha hold hne
  exact ⟨hk, hf⟩

/-- The first process sends `kill(0)` and then forks. -/
def killZeroRun : List Action := callRun 0 (.kill 0) 2 ++ callRun 0 .fork 6

/-- `kill(0)` marks an unused slot, and the child that is put into it starts out killed. -/
theorem newborn_killed :
    Reach (fun _ _ => True) smallKernel (after killZeroRun smallKernel) ∧
    ((after (callRun 0 (.kill 0) 2) smallKernel).proc 1).state = .unused ∧
    ((after (callRun 0 (.kill 0) 2) smallKernel).proc 1).killed = true ∧
    ((after killZeroRun smallKernel).proc 1).state = .runnable ∧
    ((after killZeroRun smallKernel).proc 1).pid = 2 ∧
    ((after killZeroRun smallKernel).proc 1).killed = true := by
  obtain ⟨hrun, hlast⟩ : runs killZeroRun smallKernel = true ∧
      ((after (callRun 0 (.kill 0) 2) smallKernel).proc 1).state = .unused ∧
      ((after (callRun 0 (.kill 0) 2) smallKernel).proc 1).killed = true ∧
      ((after killZeroRun smallKernel).proc 1).state = .runnable ∧
      ((after killZeroRun smallKernel).proc 1).pid = 2 ∧
      ((after killZeroRun smallKernel).proc 1).killed = true := by decide +kernel
  exact ⟨Reach.after (fun _ _ _ => trivial) hrun, hlast⟩

end KernelSignals
