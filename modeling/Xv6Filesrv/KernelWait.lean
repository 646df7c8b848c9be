import Xv6Filesrv.KernelTree

/-!
# Waiting for children

`kwait` and `kwaitpid` scan the process table for a child with `wait_lock` held and sleep if there
is one that still lives.  `kexit` wakes the parent first and marks the process a zombie later, with
`wait_lock` held all the time, and `reparent` wakes the first process for every child it gets.  So a
process that sleeps has a living child to wait for, or is about to be visited by the one who took it
away.
-/

namespace KernelWait

open KernelPages KernelMemInv KernelShm KernelProc KernelSteps KernelTable KernelSlots KernelBoot
open KernelPids KernelTree

variable {ram : Ram} {o : Op} {s s' s₀ : Kernel} {p r : Slot} {T : Option Int} {q : Slot} {x : Proc}
  {havekids : Bool} {addr i : Nat}

def marking : Point → Bool
  | .exitMark _ => true
  | _ => false

/-- The process has begun to wake its parent: it will be a zombie before `wait_lock` is free. -/
def leaving : Pc → Bool
  | .wakeup _ _ k | .crit k => marking k
  | .exitDrop | .exitSched | .dead => true
  | _ => false

/-- What a point waits for, if it is in `kwait` or `kwaitpid`. -/
def awaits : Point → Option (Option Int)
  | .waitScan target _ _ _ => some target
  | _ => none

/-- What a process waits for that is asleep in `kwait` or `kwaitpid` or on its way there. -/
def sleeper (x : Proc) : Option (Option Int) :=
  match x.pc with
  | .sleepLock _ k | .sleepDrop _ k | .sleepSet _ k => awaits k
  | .asleep k => if x.state = .sleeping then awaits k else none
  | _ => none

/-- Points at which `wait_lock` can be taken: a scan starts again after every sleep. -/
def begins : Point → Prop
  | .waitScan _ _ i havekids => i = 0 ∧ havekids = false
  | .exitMark _ => False
  | _ => True

/-- A process waits for its children on its own channel. -/
def shaped (p : Slot) : Pc → Prop
  | .acquire k | .asleep k => begins k
  | .sleepLock c k | .sleepDrop c k | .sleepSet c k => begins k ∧ (awaits k ≠ none → c = .proc p)
  | .wakeup _ _ k => awaits k = none
  | _ => True

theorem start_shaped {c : Call} {sz : Nat} {pc : Pc} (h : c.start sz = some pc) : shaped p pc := by
  cases c with
  | wait addr => cases h; exact ⟨rfl, rfl⟩
  | fork | kill pid | freeze pid | thaw pid | getppid | mutexCreate => cases h; trivial
  | waitpid pid addr =>
    simp only [Call.start] at h
    split at h <;> cases h
    exact ⟨rfl, rfl⟩
  | forkn n | threadCreate fn arg | getprocstate pid =>
    simp only [Call.start] at h
    split at h <;> cases h
    trivial
  | signalSend pid sig =>
    simp only [Call.start, ksignalSend] at h
    repeat' split at h
    all_goals cases h
    all_goals trivial
  | mutexLock id | mutexUnlock id | mutexTrylock id | mutexOwner id =>
    obtain ⟨_, _, rfl⟩ := Option.map_eq_some_iff.mp h
    trivial
  | exit n | exec img argv | sbrk n t | shmget key size | shmat id | shmdt id => cases h

theorem flow_shaped {pc pc' : Pc} (h : Flow o s p pc pc') (hpc : shaped p pc) : shaped p pc' := by
  cases h with
  | start hc hk ho => exact start_shaped hc
  | sleepMutex _ _ _ _ => exact ⟨trivial, fun hk => absurd rfl hk⟩
  | sleepChild _ _ => exact ⟨⟨rfl, rfl⟩, fun _ => rfl⟩
  | wakeParent _ => rfl
  | sleepLock | wakeSelf => exact hpc
  | _ => trivial

theorem moves_shaped {pc pc' : Pc} (h : Moves o s p pc pc') (hpc : shaped p pc) : shaped p pc' := by
  cases h with
  | flow hf => exact flow_shaped hf hpc
  | sleepSet => exact hpc.1
  | stay | resume | sleepDrop | visit => exact hpc
  | unlock | reparent => rfl
  | _ => trivial

/-- A process falls asleep by the last stage of `sleep` only. -/
theorem step_falls (ht : Table s) (hs : Step o p s s') (h : (s'.proc p).state = .sleeping) :
    ∃ c k, (s.proc p).pc = .sleepSet c k ∧
      s'.proc p = { s.proc p with chan := some c, state := .sleeping, pc := .asleep k } := by
  have hrun : ∀ {x : Proc}, x.state = .running → x.state ≠ .sleeping := by
    intro x hr
    rw [hr]
    decide
  cases hs with
  | sleepSet hr hpc => exact ⟨_, _, hpc, setProc_self _ _ _⟩
  | dispatch hr hf hl =>
    rw [setProc_self] at h
    unfold Proc.resume at h
    split at h <;> cases h
  | yield hr hy => rw [setProc_self] at h; cases h
  | exitMark hr hpc => rw [record_proc, setProc_self] at h; cases h
  | fault hr _ _ => rw [setProc_self] at h; exact absurd h (hrun hr)
  | memory hr _ _ _ _ | ret hr _ => rw [ret_self] at h; exact absurd h (hrun hr)
  | answer hr _ _ | mutexCreate hr _ _ | mutexTake hr _ _ _ _ | reapFailed hr _ _ _ _ _ =>
    rw [leave_self] at h
    exact absurd h (hrun hr)
  | walk hr _ | acquire hr _ _ | mutexFree hr _ _ _ _ | sleepDrop hr _ | pass hr _ _ _ _ =>
    rw [goto_self] at h
    exact absurd h (hrun hr)
  | wake hr hpc hq hl hsq hc =>
    rw [goto_self, setProc_of_ne hq.symm] at h
    exact absurd h (hrun hr)
  | allocated hr hpc hl hu hm | allocFailed hr hpc hl hu hm =>
    rw [goto_self, setProc_of_ne (ne_of_state hr hu (by decide))] at h
    exact absurd h (hrun hr)
  | link hr hpc =>
    rw [goto_self, release_proc, setProc_of_ne (ht.pending_ne hr (by rw [hpc]; rfl))] at h
    exact absurd h (hrun hr)
  | publish hr hpc hl =>
    rw [goto_self, setProc_of_ne (ht.pending_ne hr (by rw [hpc]; rfl))] at h
    exact absurd h (hrun hr)
  | reap hr hpc hw hl hz hm =>
    rw [leave_self, setProc_of_ne (ne_of_state hr hz (by decide))] at h
    exact absurd h (hrun hr)
  | @found f pid q hr hpc hl hf =>
    rw [ret_self] at h
    by_cases hpq : p = q
    · subst hpq
      rw [setProc_self] at h
      exact absurd ((effect_state f (hrun hr)).symm.trans h) (hrun hr)
    · rw [setProc_of_ne hpq] at h
      exact absurd h (hrun hr)
  | @reparent status q hr hpc hq =>
    rw [goto_self] at h
    by_cases hpq : p = q
    · subst hpq
      rw [setProc_self] at h
      exact absurd h (hrun hr)
    · rw [setProc_of_ne hpq] at h
      exact absurd h (hrun hr)
  | exitDrop hpc | exitSched hpc =>
    rw [goto_self] at h
    have htidy := ht.tidy p
    rw [Tidy, show (s.proc p).state = .sleeping from h, hpc] at htidy
    obtain ⟨k, hk⟩ := htidy
    cases hk

/-- The shape of a slot: where its process is, and the channel it sleeps on. -/
structure Shaped (p : Slot) (x : Proc) : Prop where
  pc : shaped p x.pc
  chan : ∀ k, x.pc = .asleep k → x.state = .sleeping → awaits k ≠ none → x.chan = some (.proc p)

theorem touch_shaped (hx : Touch s p s' q x) (h : Shaped q (s.proc q)) :
    Shaped q x := by
  cases hx with
  | same => exact h
  | adopt r => exact ⟨h.pc, h.chan⟩
  | wake hw | publish _ _ => exact ⟨h.pc, nofun⟩
  | alloc _ _ _ | free _ _ => exact ⟨trivial, nofun⟩
  | signal f pid hf =>
    refine ⟨by rw [effect_pc]; exact h.pc, ?_⟩
    cases f with
    | kill =>
      simp only [Search.effect]
      split
      · intro pt _ hsleep
        cases hsleep
      · exact h.chan
    | freeze | thaw | getprocstate => exact h.chan

theorem step_shaped (ht : Table s) (hs : Step o p s s') (h : ∀ q, Shaped q (s.proc q)) (q : Slot) :
    Shaped q (s'.proc q) := by
  by_cases hqp : q = p
  · subst hqp
    refine ⟨moves_shaped (step_moves hs) (h q).pc, fun k hk hsleep ha => ?_⟩
    obtain ⟨c, k', hpc, hx⟩ := step_falls ht hs hsleep
    have hshape := (h q).pc
    rw [hpc] at hshape
    rw [hx] at hk ⊢
    cases hk
    rw [hshape.2 ha]
  · exact touch_shaped (step_touch hs hqp) (h q)

/-! ## The children of a process -/

theorem resume_leaving (x : Proc) : leaving x.resume.pc = leaving x.pc := by
  unfold Proc.resume
  split
  · next hpc => simp only [hpc]; rfl
  · rfl

theorem entry_leaving {pc : Pc} (h : entry pc = true) : leaving pc = false := by
  cases pc with
  | acquire k | search f pid i | alloc k i => rfl
  | _ => cases h

/-- A process begins to leave by waking its parent. -/
theorem step_leaving (hs : Step o p s s') (hp : shaped p (s.proc p).pc) :
    leaving (s'.proc p).pc = leaving (s.proc p).pc ∨ (s.proc p).pc.holdsWait = true ∧
      ∃ status, (s'.proc p).pc = .wakeup ((s.proc p).parent.map .proc) 0 (.exitMark status) := by
  cases hs with
  | dispatch hr hf hl => rw [setProc_self]; exact .inl (resume_leaving _)
  | yield _ _ | fault _ _ _ => rw [setProc_self]; exact .inl rfl
  | walk hr hf =>
    rw [goto_self]
    generalize (s.proc p).pc = pc at hf
    cases hf with
    | start hc hk ho => exact .inl (entry_leaving (start_entry hc))
    | wakeParent hi => exact .inr ⟨rfl, _, rfl⟩
    | sleepMutex hk _ _ _ => rcases hk with rfl | rfl <;> exact .inl rfl
    | _ => exact .inl rfl
  | ret hr hret =>
    rw [ret_self]
    generalize (s.proc p).pc = pc at hret
    cases hret <;> exact .inl rfl
  | answer hr hpc ha =>
    rw [leave_self, hpc]
    cases ha with
    | lockRefused hk _ => rcases hk with rfl | rfl <;> exact .inl rfl
    | _ => exact .inl rfl
  | mutexTake hr hpc hk _ _ => rw [leave_self, hpc]; cases hk <;> exact .inl rfl
  | memory _ hpc _ _ _ | found _ hpc _ _ => rw [ret_self, hpc]; exact .inl rfl
  | mutexCreate _ hpc _ | reap _ hpc _ _ _ _ | reapFailed _ hpc _ _ _ _ =>
    rw [leave_self, hpc]
    exact .inl rfl
  | sleepSet _ hpc => rw [setProc_self, hpc]; exact .inl rfl
  | exitMark _ hpc => rw [record_proc, setProc_self, hpc]; exact .inl rfl
  | @acquire k _ hpc _ =>
    rw [hpc] at hp
    rw [goto_self, hpc]
    cases k with
    | exitMark status => cases hp
    | _ => exact .inl rfl
  | mutexFree _ hpc _ _ _ | sleepDrop _ hpc | wake _ hpc _ _ _ _ | pass _ hpc _ _ _
  | allocated _ hpc _ _ _ | allocFailed _ hpc _ _ _ | link _ hpc | publish _ hpc _
  | reparent _ hpc _ | exitDrop hpc | exitSched hpc => rw [goto_self, hpc]; exact .inl rfl

theorem wanted_iff :
    wanted p T x = true ↔ x.parent = some p ∧ ∀ pid, T = some pid → x.pid = pid := by
  cases T <;> simp [wanted]

theorem wanted_child (h : wanted p T x = true) : x.parent = some p :=
  (wanted_iff.mp h).1

theorem wanted_congr {x y : Proc} (hparent : y.parent = x.parent) (hpid : y.pid = x.pid) :
    wanted p T y = wanted p T x := by
  rw [wanted, wanted, hparent, hpid]

theorem not_wanted (h : x.parent ≠ some p) : wanted p T x = false :=
  Bool.eq_false_iff.mpr fun hw => h (wanted_child hw)

/-- The children of `p` are the same in two states, and no others of them are leaving. -/
def SameKids (s s' : Kernel) (p : Slot) : Prop :=
  ∀ q, (∀ T, wanted p T (s'.proc q) = wanted p T (s.proc q)) ∧
    ((s.proc q).parent = some p → leaving (s'.proc q).pc = leaving (s.proc q).pc)

/-- A step of `r` that leaves the other slots alone. -/
theorem SameKids.of_own (hother : ∀ q, q ≠ r → s'.proc q = s.proc q)
    (hparent : (s'.proc r).parent = (s.proc r).parent) (hpid : (s'.proc r).pid = (s.proc r).pid)
    (hleave : leaving (s'.proc r).pc = leaving (s.proc r).pc) : SameKids s s' p := by
  intro q
  by_cases hq : q = r
  · rw [hq]
    exact ⟨fun T => wanted_congr hparent hpid, fun _ => hleave⟩
  · rw [hother q hq]
    exact ⟨fun T => rfl, fun _ => rfl⟩

section children

variable (ht : Table s) (hf : Family s) (hs : Step o r s s') (hpr : p ≠ r)

include ht hf hs hpr

/-- Who is a child of `p` is decided by `p`, or by a process that wakes `p` next. -/
theorem step_wanted (q : Slot) :
    (∀ T, wanted p T (s'.proc q) = wanted p T (s.proc q)) ∨
      (s.proc r).pc.holdsWait = true ∧ ∃ k, (s'.proc r).pc = .wakeup (some (.proc p)) 0 k := by
  have hfalse : (s.proc q).parent ≠ some p → (s'.proc q).parent ≠ some p →
      ∀ T, wanted p T (s'.proc q) = wanted p T (s.proc q) := by
    intro h h' T
    rw [not_wanted h, not_wanted h']
  cases step_change ht hs q with
  | keep h => exact .inl fun T => wanted_congr h.parent h.pid
  | signal hpc hq huser h =>
    obtain ⟨pc, h⟩ := h
    rw [h]
    exact .inl fun T => wanted_congr (effect_parent _ _) (effect_pid _ _)
  | fault _ _ _ h | publish _ h | exit _ _ _ h => rw [h]; exact .inl fun T => rfl
  | alloc hpc hu hm h =>
    have hnone := hf.unused q hu
    refine .inl (hfalse ?_ ?_)
    · rw [show (s.proc q).parent = none from hnone]
      exact nofun
    · rw [h, show (s.proc q).parent = none from hnone]
      exact nofun
  | allocFailed hu h =>
    refine .inl (hfalse ?_ ?_)
    · rw [show (s.proc q).parent = none from hf.unused q hu]
      exact nofun
    · rw [h]
      exact nofun
  | link hpc h =>
    have hnone := hf.fresh r q (by rw [hpc]; rfl)
    refine .inl (hfalse ?_ ?_)
    · rw [show (s.proc q).parent = none from hnone]
      exact nofun
    · rw [h]
      exact fun he => hpr (Option.some.inj he).symm
  | adopt hpc hq h hwake =>
    obtain ⟨pc, h⟩ := h
    by_cases hinit : p = s.initproc
    · rw [hinit, hwake, hpc]
      exact .inr ⟨rfl, _, rfl⟩
    · refine .inl (hfalse ?_ ?_)
      · rw [hq]
        exact fun he => hpr (Option.some.inj he).symm
      · rw [h]
        exact fun he => hinit (Option.some.inj he).symm
  | reap hpc hw hl hz h =>
    refine .inl (hfalse ?_ ?_)
    · rw [wanted_child hw]
      exact fun he => hpr (Option.some.inj he).symm
    · rw [h]
      exact nofun

theorem step_child_leaves (hp : shaped r (s.proc r).pc) (hq : (s.proc q).parent = some p) :
    leaving (s'.proc q).pc = leaving (s.proc q).pc ∨
      (s.proc r).pc.holdsWait = true ∧ ∃ k, (s'.proc r).pc = .wakeup (some (.proc p)) 0 k := by
  by_cases hqr : q = r
  · subst hqr
    rcases step_leaving hs hp with h | ⟨hold, status, h⟩
    · exact .inl h
    · rw [h, hq]
      exact .inr ⟨hold, _, rfl⟩
  · -- Another slot that is still a child has not been freed, so its process is where it was.
    refine (step_wanted ht hf hs hpr q).imp_left fun hsame => ?_
    have hchild : (s'.proc q).parent = some p :=
      wanted_child ((hsame none).trans (wanted_iff.mpr ⟨hq, nofun⟩))
    have htouch := step_touch hs hqr
    generalize s'.proc q = x at hchild htouch
    cases htouch with
    | signal f pid hf => rw [effect_pc]
    | alloc hu _ _ => exact absurd (hq.symm.trans (hf.unused q hu)) nofun
    | free _ _ => cases hchild
    | _ => rfl

theorem step_children (hp : shaped r (s.proc r).pc) :
    SameKids s s' p ∨
      (s.proc r).pc.holdsWait = true ∧ ∃ k, (s'.proc r).pc = .wakeup (some (.proc p)) 0 k := by
  refine or_iff_not_imp_right.mpr fun hwake q => ⟨?_, fun hq => ?_⟩
  · exact (step_wanted ht hf hs hpr q).resolve_right hwake
  · exact (step_child_leaves ht hf hs hpr hp hq).resolve_right hwake

end children

/-! ## Scans and sleepers -/

/-- A child that `p` can wait for; in `kwait`, all of them must be. -/
def Hopeful (s : Kernel) (p : Slot) (T : Option Int) : Prop :=
  (∃ q, wanted p T (s.proc q) = true ∧ leaving (s.proc q).pc = false) ∧
    (T = none → ∀ q, wanted p T (s.proc q) = true → leaving (s.proc q).pc = false)

/-- What a scan that has come to slot `i` has seen. -/
structure Scanned (s : Kernel) (p : Slot) (T : Option Int) (i : Nat) (havekids : Bool) : Prop where
  found : havekids = true → ∃ q, wanted p T (s.proc q) = true ∧ leaving (s.proc q).pc = false
  alive : T = none → ∀ q : Slot, q.val < i → wanted p T (s.proc q) = true →
    leaving (s.proc q).pc = false
  missed : havekids = false → ∀ q : Slot, q.val < i → wanted p T (s.proc q) = false

/-- Somebody is on the way to wake `p`. -/
def Roused (s : Kernel) (p : Slot) : Prop :=
  ∃ w i k, (s.proc w).pc = .wakeup (some (.proc p)) i k ∧ i ≤ p.val

theorem SameKids.living (h : SameKids s s' p) (hw : wanted p T (s.proc q) = true)
    (hl : leaving (s.proc q).pc = false) :
    wanted p T (s'.proc q) = true ∧ leaving (s'.proc q).pc = false :=
  ⟨((h q).1 T).trans hw, ((h q).2 (wanted_child hw)).trans hl⟩

theorem SameKids.back (h : SameKids s s' p) (hw : wanted p T (s'.proc q) = true)
    (hl : wanted p T (s.proc q) = true → leaving (s.proc q).pc = false) :
    leaving (s'.proc q).pc = false := by
  have hold := ((h q).1 T).symm.trans hw
  exact ((h q).2 (wanted_child hold)).trans (hl hold)

theorem SameKids.hopeful (h : SameKids s s' p) (hp : Hopeful s p T) : Hopeful s' p T := by
  obtain ⟨⟨q, hw, hl⟩, hall⟩ := hp
  exact ⟨⟨q, h.living hw hl⟩, fun hT q hq => h.back hq (hall hT q)⟩

theorem SameKids.scanned {i : Nat} (h : SameKids s s' p) (hp : Scanned s p T i havekids) :
    Scanned s' p T i havekids := by
  refine ⟨fun hk => ?_, fun hT q hi hq => h.back hq (hp.alive hT q hi), fun hk q hi => ?_⟩
  · obtain ⟨q, hw, hl⟩ := hp.found hk
    exact ⟨q, h.living hw hl⟩
  · rw [(h q).1]
    exact hp.missed hk q hi

theorem leaving_holds (ht : Table s) (h : leaving (s.proc q).pc = true) :
    (s.proc q).state = .zombie ∨ (s.proc q).pc.holdsWait = true := by
  have htidy := ht.tidy q
  cases hpc : (s.proc q).pc with
  | wakeup _ _ _ | crit _ | exitDrop => exact .inr rfl
  | exitSched | dead =>
    left
    cases hst : (s.proc q).state <;> simp_all [Tidy, active, Pc.preemptible]
  | _ => rw [hpc] at h; cases h

theorem zombie_leaving (ht : Table s) (h : (s.proc q).state = .zombie) :
    leaving (s.proc q).pc = true := by
  have htidy := ht.tidy q
  simp only [Tidy, h] at htidy
  rcases htidy with hpc | hpc | hpc <;> rw [hpc] <;> rfl

/-- While a process scans, nobody else is between waking its parent and being a zombie. -/
theorem living_not_leaving (ht : Table s) (hp : (s.proc p).pc.holdsWait = true)
    (hl : leaving (s.proc p).pc = false) (hz : (s.proc q).state ≠ .zombie) :
    leaving (s.proc q).pc = false := by
  refine Bool.eq_false_iff.mpr fun hleave => ?_
  have hq := (leaving_holds ht hleave).resolve_left hz
  have heq := ((ht.lock q).mpr hq).symm.trans ((ht.lock p).mpr hp)
  rw [Option.some.inj heq, hl] at hleave
  cases hleave

/-- The steps of `p` that lead into its scan. -/
inductive Scans (s : Kernel) (p : Slot) (T : Option Int) (addr i : Nat) (havekids : Bool) : Prop
  | enter (hpc : (s.proc p).pc = .acquire (.waitScan T addr i havekids))
  | woken {c : Option Chan} {j : Nat} (hpc : (s.proc p).pc = .wakeup c j (.waitScan T addr i havekids))
  | living {q : Slot} {b : Bool} (hpc : (s.proc p).pc = .crit (.waitScan T addr q.val b))
      (hq : wanted p T (s.proc q) = true) (hz : (s.proc q).state ≠ .zombie)
      (hi : T = none → i = q.val + 1) (hk : havekids = true)
  | other {q : Slot} (hpc : (s.proc p).pc = .crit (.waitScan T addr q.val havekids))
      (hq : wanted p T (s.proc q) = false) (hi : i = q.val + 1)

theorem step_scans (ht : Table s) (hs : Step o p s s')
    (h : (s'.proc p).pc = .crit (.waitScan T addr i havekids)) :
    Scans s p T addr i havekids ∧ (∀ q, q ≠ p → s'.proc q = s.proc q) ∧
      ∃ pc, s'.proc p = { s.proc p with pc := pc } := by
  cases hs with
  | walk hr hf =>
    rw [goto_self] at h
    refine ⟨?_, fun q hq => goto_of_ne hq _ _, _, goto_self _ _ _⟩
    generalize hpc : (s.proc p).pc = pc at hf
    cases h
    cases hf with
    | start hc hk ho => cases start_entry hc
    | scanLiving hq hz => exact .living hpc hq hz (fun hT => by rw [hT]; rfl) rfl
    | scanOther hq => exact .other hpc hq rfl
    | wakeEnd hi => exact .woken hpc
  | acquire hr hpc hw =>
    rw [goto_self] at h
    cases h
    exact ⟨.enter hpc, fun q hq => goto_of_ne hq _ _, _, goto_self _ _ _⟩
  | dispatch hr hf hl =>
    rw [setProc_self] at h
    unfold Proc.resume at h
    split at h
    · cases h
    · have htidy := ht.tidy p
      simp only [Tidy, hr] at htidy
      rw [show (s.proc p).pc = _ from h] at htidy
      rcases htidy with htidy | ⟨k, htidy⟩ <;> cases htidy
  | yield hr hy =>
    rw [setProc_self] at h
    rw [show (s.proc p).pc = _ from h] at hy
    cases hy
  | fault hr hpc hm =>
    rw [setProc_self] at h
    cases hpc.symm.trans h
  | _ => simp only [setProc_self, record_proc, ret_self, leave_self, goto_self] at h; cases h

theorem Scanned.living (ht : Table s) {b : Bool} (h : Scanned s p T q.val b)
    (hpc : (s.proc p).pc = .crit (.waitScan T addr q.val b)) (hq : wanted p T (s.proc q) = true)
    (hz : (s.proc q).state ≠ .zombie) (hi : T = none → i = q.val + 1) : Scanned s p T i true := by
  have hlive : leaving (s.proc q).pc = false :=
    living_not_leaving ht (by rw [hpc]; rfl) (by rw [hpc]; rfl) hz
  refine ⟨fun _ => ⟨q, hq, hlive⟩, fun hT u hu hw => ?_, nofun⟩
  by_cases huq : u = q
  · rw [huq]
    exact hlive
  · have hne := Fin.val_ne_of_ne huq
    have hiq := hi hT
    exact h.alive hT u (by omega) hw

theorem Scanned.other {b : Bool} (h : Scanned s p T q.val b) (hq : wanted p T (s.proc q) = false) :
    Scanned s p T (q.val + 1) b := by
  refine ⟨h.found, fun hT u hu hw => ?_, fun hb u hu => ?_⟩
  · by_cases huq : u = q
    · rw [huq, hq] at hw
      cases hw
    · have hne := Fin.val_ne_of_ne huq
      exact h.alive hT u (by omega) hw
  · by_cases huq : u = q
    · rw [huq]
      exact hq
    · have hne := Fin.val_ne_of_ne huq
      exact h.missed hb u (by omega)

theorem Scanned.hopeful {i : Nat} (h : Scanned s p T i true) (hi : 64 ≤ i) : Hopeful s p T :=
  ⟨h.found rfl, fun hT q hw => h.alive hT q (lt_of_lt_of_le q.isLt hi) hw⟩

theorem sleeper_pc (h : sleeper x = some T) :
    x.pc.preemptible = false ∧ entry x.pc = false ∧ leaving x.pc = false := by
  unfold sleeper at h
  cases hpc : x.pc <;> rw [hpc] at h <;> first | exact ⟨rfl, rfl, rfl⟩ | cases h

theorem not_sleeper (h : x.pc.preemptible = true) : sleeper x ≠ some T := by
  intro hx
  rw [(sleeper_pc hx).1] at h
  cases h

/-- Waking a process does not make it a sleeper. -/
theorem sleeper_woken (h : sleeper { x with state := .runnable } = some T) :
    sleeper x = some T := by
  unfold sleeper at h ⊢
  cases hpc : x.pc <;> simp_all

/-- The steps of `p` on its way into `sleep`. -/
theorem step_sleeps (ht : Table s) (hs : Step o p s s') (h : sleeper (s'.proc p) = some T) :
    (sleeper (s.proc p) = some T ∨
      ∃ addr i, 64 ≤ i ∧ (s.proc p).pc = .crit (.waitScan T addr i true)) ∧
    (∀ q, q ≠ p → s'.proc q = s.proc q) ∧ (s'.proc p).parent = (s.proc p).parent ∧
      (s'.proc p).pid = (s.proc p).pid := by
  cases hs with
  | walk hr hf =>
    refine ⟨?_, fun q hq => goto_of_ne hq _ _, by rw [goto_self], by rw [goto_self]⟩
    rw [goto_self] at h
    generalize hpc : (s.proc p).pc = pc at hf
    cases hf with
    | start hc hk ho =>
      have hentry := (sleeper_pc h).2.1
      rw [show entry _ = true from start_entry hc] at hentry
      cases hentry
    | sleepChild hi hk =>
      cases h
      exact .inr ⟨_, _, hi, rfl⟩
    | sleepLock => exact .inl (by rw [sleeper, hpc]; exact h)
    | _ => cases h
  | sleepDrop hr hpc =>
    refine ⟨.inl ?_, fun q hq => goto_of_ne hq _ _, by rw [goto_self]; rfl, by rw [goto_self]; rfl⟩
    rw [goto_self] at h
    rw [sleeper, hpc]
    exact h
  | sleepSet hr hpc =>
    refine ⟨.inl ?_, fun q hq => setProc_of_ne hq _ _, by rw [setProc_self], by rw [setProc_self]⟩
    rw [setProc_self] at h
    rw [sleeper, hpc]
    exact h
  | dispatch hr hf hl =>
    rw [setProc_self] at h
    unfold Proc.resume at h
    split at h
    · cases h
    · next hne =>
      have htidy := ht.tidy p
      simp only [Tidy, hr] at htidy
      rcases htidy with hy | ⟨k, hk⟩
      · exact absurd h (not_sleeper hy)
      · exact absurd hk (hne k)
  | yield hr hy => rw [setProc_self] at h; exact absurd h (not_sleeper hy)
  | fault hr hpc hm =>
    rw [setProc_self] at h
    have hy : (s.proc p).pc.preemptible = true := by rw [hpc]; rfl
    exact absurd h (not_sleeper hy)
  | _ => simp only [setProc_self, record_proc, ret_self, leave_self, goto_self] at h; cases h

/-- Another process does not send `q` to sleep. -/
theorem touch_sleeper (hx : Touch s p s' q x) (h : sleeper x = some T) :
    sleeper (s.proc q) = some T ∧ x.pc = (s.proc q).pc := by
  cases hx with
  | same | adopt _ => exact ⟨h, rfl⟩
  | wake _ | publish _ _ => exact ⟨sleeper_woken h, rfl⟩
  | alloc _ _ _ | free _ _ => cases h
  | signal f pid hf =>
    refine ⟨?_, effect_pc f _⟩
    cases f with
    | kill =>
      simp only [Search.effect] at h
      split at h
      · exact sleeper_woken h
      · exact h
    | freeze | thaw | getprocstate => exact h

/-- A turn of the loop of `wakeup`. -/
theorem step_waking (ht : Table s) (hs : Step o p s s') {c : Option Chan} {i : Nat} {k : Point}
    (hpc : (s.proc p).pc = .wakeup c i k) :
    64 ≤ i ∨ (s'.proc p).pc = .wakeup c (i + 1) k ∧ ∀ q : Slot, q.val = i → q ≠ p →
      s.lockFree q = true ∧ ¬((s'.proc q).state = .sleeping ∧ (s'.proc q).chan = c) := by
  cases hs with
  | walk hr hf =>
    rw [hpc] at hf
    cases hf with
    | wakeSelf =>
      refine .inr ⟨by rw [goto_self], fun q hq hne => ?_⟩
      exact absurd (Fin.ext hq) hne
    | wakeEnd hi => exact .inl hi
  | wake hr hpc' hqp hl hsq hc =>
    cases hpc.symm.trans hpc'
    refine .inr ⟨by rw [goto_self], fun q hq hne => ?_⟩
    obtain rfl := Fin.ext hq
    refine ⟨hl, ?_⟩
    rw [goto_of_ne hne, setProc_self]
    exact nofun
  | pass hr hpc' hqp hl hsq =>
    cases hpc.symm.trans hpc'
    refine .inr ⟨by rw [goto_self], fun q hq hne => ?_⟩
    obtain rfl := Fin.ext hq
    refine ⟨hl, ?_⟩
    rw [goto_of_ne hne]
    exact hsq
  | dispatch hr hf hl =>
    have htidy := ht.tidy p
    simp only [Tidy, hr, hpc] at htidy
    rcases htidy with h | ⟨k, h⟩ <;> cases h
  | yield hr hy => rw [hpc] at hy; cases hy
  | ret hr h => rw [hpc] at h; cases h
  | fault _ h _ | memory _ h _ _ _ | acquire _ h _ | answer _ h _ | mutexCreate _ h _
  | mutexTake _ h _ _ _ | mutexFree _ h _ _ _ | sleepDrop _ h | sleepSet _ h | found _ h _ _
  | allocated _ h _ _ _ | allocFailed _ h _ _ _ | link _ h | publish _ h _ | reap _ h _ _ _ _
  | reapFailed _ h _ _ _ _ | reparent _ h _ | exitMark _ h | exitDrop h | exitSched h =>
    cases hpc.symm.trans h

/-- A process that has been visited sleeps no more on its channel. -/
theorem visited_not_sleeper (hshape : Shaped p x) (hown : x.pc.holdsOwn = false)
    (hwait : x.pc.holdsWait = false) (hs : ¬(x.state = .sleeping ∧ x.chan = some (.proc p))) :
    sleeper x ≠ some T := by
  intro h
  unfold sleeper at h
  cases hpc : x.pc with
  | sleepLock c k | sleepDrop c k => rw [hpc] at hwait; cases hwait
  | sleepSet c k => rw [hpc] at hown; cases hown
  | asleep k =>
    rw [hpc] at h
    simp only at h
    split at h
    · next hst => exact hs ⟨hst, hshape.chan k hpc hst (by rw [h]; exact nofun)⟩
    · cases h
  | _ => rw [hpc] at h; cases h

/-- The invariant of `kwait` and `kwaitpid`. -/
structure Waiting (s : Kernel) : Prop where
  shaped : ∀ q, Shaped q (s.proc q)
  scan : ∀ p T addr i havekids, (s.proc p).pc = .crit (.waitScan T addr i havekids) →
    Scanned s p T i havekids
  asleep : ∀ p T, sleeper (s.proc p) = some T → Hopeful s p T ∨ Roused s p

theorem holder_unique (ht : Table s) (hp : (s.proc p).pc.holdsWait = true)
    (hr : (s.proc r).pc.holdsWait = true) : p = r :=
  Option.some.inj (((ht.lock p).mpr hp).symm.trans ((ht.lock r).mpr hr))

/-- The scan of the process that steps, seen before the step. -/
theorem Waiting.own_scan (h : Waiting s) (ht : Table s) (hscans : Scans s r T addr i havekids) :
    Scanned s r T i havekids ∧ leaving (s.proc r).pc = false := by
  have hshape := (h.shaped r).pc
  cases hscans with
  | enter hpc =>
    rw [hpc] at hshape
    obtain ⟨rfl, rfl⟩ := hshape
    exact ⟨⟨nofun, nofun, nofun⟩, by rw [hpc]; rfl⟩
  | woken hpc =>
    rw [hpc] at hshape
    cases hshape
  | living hpc hq hz hi hk =>
    subst hk
    exact ⟨(h.scan r T addr _ _ hpc).living ht hpc hq hz hi, by rw [hpc]; rfl⟩
  | other hpc hq hi =>
    subst hi
    exact ⟨(h.scan r T addr _ _ hpc).other hq, by rw [hpc]; rfl⟩

/-- A process on its way to wake `p` comes closer to it. -/
theorem step_roused (ht : Table s) (hs : Step o r s s') (hshape : Shaped p (s'.proc p))
    (hpr : p ≠ r) (hsl : sleeper (s'.proc p) = some T) (hr : Roused s p) : Roused s' p := by
  obtain ⟨w, i, k, hw, hi⟩ := hr
  obtain ⟨hold, hpc⟩ := touch_sleeper (step_touch hs hpr) hsl
  by_cases hwr : w = r
  · subst hwr
    rcases step_waking ht hs hw with hend | ⟨hnext, hvisit⟩
    · exact absurd p.isLt (by omega)
    · by_cases hpi : p.val = i
      · obtain ⟨hfree, hnot⟩ := hvisit p hpi hpr
        have hown : (s'.proc p).pc.holdsOwn = false := by
          rw [hpc]
          simpa [Kernel.lockFree] using hfree
        have hwait : (s'.proc p).pc.holdsWait = false := by
          rw [hpc]
          exact Bool.eq_false_iff.mpr fun hp => hpr (holder_unique ht hp (by rw [hw]; rfl))
        exact absurd hsl (visited_not_sleeper hshape hown hwait hnot)
      · exact ⟨w, i + 1, k, hnext, by omega⟩
  · have hholds := touch_holds ht (step_touch hs hwr)
    rcases touch_pc hs hwr with hsame | huser
    · exact ⟨w, i, k, hsame.trans hw, hi⟩
    · rw [huser, hw] at hholds
      cases hholds

section step

variable (h : Waiting s) (ht : Table s) (hf : Family s) (hs : Step o r s s')

include h ht hf hs

theorem Waiting.step_scan (hpc : (s'.proc p).pc = .crit (.waitScan T addr i havekids)) :
    Scanned s' p T i havekids := by
  by_cases hpr : p = r
  · subst hpr
    obtain ⟨hscans, hother, pc, hself⟩ := step_scans ht hs hpc
    obtain ⟨hscanned, hleave⟩ := h.own_scan ht hscans
    have hsame : SameKids s s' p := by
      refine SameKids.of_own hother (by rw [hself]) (by rw [hself]) ?_
      rw [hleave, hpc]
      rfl
    exact hsame.scanned hscanned
  · have hold : (s.proc p).pc = .crit (.waitScan T addr i havekids) := by
      rcases touch_pc hs hpr with hsame | huser
      · exact hsame.symm.trans hpc
      · cases huser.symm.trans hpc
    rcases step_children ht hf hs hpr (h.shaped r).pc with hsame | ⟨hwait, -⟩
    · exact hsame.scanned (h.scan p T addr i havekids hold)
    · exact absurd (holder_unique ht (by rw [hold]; rfl) hwait) hpr

theorem Waiting.step_asleep (hsl : sleeper (s'.proc p) = some T) : Hopeful s' p T ∨ Roused s' p := by
  by_cases hpr : p = r
  · subst hpr
    obtain ⟨hfrom, hother, hparent, hpid⟩ := step_sleeps ht hs hsl
    have hkids : leaving (s.proc p).pc = false → SameKids s s' p := fun hl =>
      SameKids.of_own hother hparent hpid ((sleeper_pc hsl).2.2.trans hl.symm)
    rcases hfrom with hold | ⟨addr, i, hi, hpc⟩
    · rcases h.asleep p T hold with hhope | ⟨w, i, k, hw, hi⟩
      · exact .inl ((hkids (sleeper_pc hold).2.2).hopeful hhope)
      · have hwp : w ≠ p := by
          intro he
          rw [sleeper, ← he, hw] at hold
          cases hold
        exact .inr ⟨w, i, k, by rw [hother w hwp]; exact hw, hi⟩
    · exact .inl ((hkids (by rw [hpc]; rfl)).hopeful ((h.scan p T addr i true hpc).hopeful hi))
  · obtain ⟨hold, hpc⟩ := touch_sleeper (step_touch hs hpr) hsl
    rcases h.asleep p T hold with hhope | hroused
    · rcases step_children ht hf hs hpr (h.shaped r).pc with hsame | ⟨-, k, hwake⟩
      · exact .inl (hsame.hopeful hhope)
      · exact .inr ⟨r, 0, k, hwake, Nat.zero_le _⟩
    · exact .inr (step_roused ht hs (step_shaped ht hs h.shaped p) hpr hsl hroused)

theorem Waiting.step : Waiting s' := by
  constructor
  · exact step_shaped ht hs h.shaped
  · exact fun p T addr i havekids => h.step_scan ht hf hs
  · exact fun p T => h.step_asleep ht hf hs

end step

theorem Waiting.start (mem : Mem) : Waiting (Kernel.start mem) := by
  have hpc := start_pc mem
  constructor
  · intro q
    refine ⟨by rw [hpc]; trivial, fun k hk => ?_⟩
    cases (hpc q).symm.trans hk
  · intro p T addr i havekids hp
    cases (hpc p).symm.trans hp
  · intro p T hp
    rw [sleeper, hpc] at hp
    cases hp

theorem Waiting.withFails (h : Waiting s) (fails : List Bool) : Waiting (s.withFails fails) := by
  have hsame : ∀ p, SameKids s (s.withFails fails) p := fun p q => ⟨fun _ => rfl, fun _ => rfl⟩
  refine ⟨h.shaped, fun p T addr i havekids hpc => ?_, h.asleep⟩
  exact (hsame p).scanned (h.scan p T addr i havekids hpc)

theorem Waiting.reach {ok : Kernel → Action → Prop} (hb : Booted ram s₀) (hr : Reach ok s₀ s) :
    (Table s ∧ Family s) ∧ Waiting s := by
  have hboot : Table s₀ ∧ Family s₀ := @Family.reach ram _ _ ok hb .refl
  refine Reach.invariant (I := fun t => (Table t ∧ Family t) ∧ Waiting t) ⟨hboot, ?_⟩ ?_ hr
  · obtain ⟨mem, rfl⟩ := hb.start
    exact Waiting.start mem
  · intro t a t' ⟨⟨ht, hfam⟩, hwait⟩ _ ha
    have ht' := Table.withFails ht a.fails
    have hfam' := hfam.withFails a.fails
    exact ⟨⟨Table.act ht ha, hfam'.step ht' (act_step ha)⟩,
      (hwait.withFails a.fails).step ht' hfam' (act_step ha)⟩

/-- Whenever `wait_lock` is free, a process asleep in `kwaitpid` has the child it waits for, alive,
and one asleep in `kwait` has a child and no zombie among its children. -/
theorem waiting_for_the_living (hb : Booted ram s₀) (hr : Reach (fun _ _ => True) s₀ s)
    (hw : s.waitLock = none) (p : Slot) (hs : (s.proc p).state = .sleeping) :
    (∀ t addr i havekids, (s.proc p).pc = .asleep (.waitScan (some t) addr i havekids) →
      ∃ q, (s.proc q).parent = some p ∧ (s.proc q).pid = t ∧ (s.proc q).state ≠ .unused ∧
        (s.proc q).state ≠ .zombie ∧ (s.born.length < 2147483647 →
          ∀ u, (s.proc u).state ≠ .unused → (s.proc u).pid = t → u = q)) ∧
    (∀ addr i havekids, (s.proc p).pc = .asleep (.waitScan none addr i havekids) →
      (∃ q, (s.proc q).parent = some p ∧ (s.proc q).state ≠ .unused) ∧
        ∀ q, (s.proc q).parent = some p → (s.proc q).state ≠ .zombie) := by
  obtain ⟨⟨ht, hfam⟩, hwait⟩ := Waiting.reach hb hr
  have hhope : ∀ T addr i havekids, (s.proc p).pc = .asleep (.waitScan T addr i havekids) →
      Hopeful s p T := by
    intro T addr i havekids hpc
    refine (hwait.asleep p T ?_).resolve_right ?_
    · rw [sleeper, hpc]
      exact if_pos hs
    · rintro ⟨w, j, k, hpcw, -⟩
      have hlock := (ht.lock w).mpr (by rw [hpcw]; rfl)
      rw [hw] at hlock
      cases hlock
  have hlive : ∀ q, (s.proc q).parent = some p → (s.proc q).state ≠ .unused := by
    intro q hq hu
    cases hq.symm.trans (hfam.unused q hu)
  have hnot : ∀ q, leaving (s.proc q).pc = false → (s.proc q).state ≠ .zombie := by
    intro q hl hz
    rw [zombie_leaving ht hz] at hl
    cases hl
  constructor
  · intro t addr i havekids hpc
    obtain ⟨⟨q, hq, hl⟩, -⟩ := hhope _ addr i havekids hpc
    obtain ⟨hparent, hpid⟩ := wanted_iff.mp hq
    refine ⟨q, hparent, hpid t rfl, hlive q hparent, hnot q hl, fun hn u hu hut => ?_⟩
    exact (Pids.reach hb hr hn).distinct u q hu (hlive q hparent) (hut.trans (hpid t rfl).symm)
  · intro addr i havekids hpc
    obtain ⟨⟨q, hq, hl⟩, hall⟩ := hhope _ addr i havekids hpc
    refine ⟨⟨q, wanted_child hq, hlive q (wanted_child hq)⟩, fun u hu => ?_⟩
    exact hnot u (hall rfl u (wanted_iff.mpr ⟨hu, nofun⟩))

/-- The first process forks and waits for its child. -/
def waitingRun : List Action := callRun 0 .fork 6 ++ callRun 0 (.waitpid 2 0) 7

/-- What a process sleeps for. -/
def sleepsFor (x : Proc) : Option (Option Int) :=
  match x.pc with
  | .asleep k => awaits k
  | _ => none

theorem sleepsFor_asleep (h : sleepsFor x = some T) :
    ∃ addr i havekids, x.pc = .asleep (.waitScan T addr i havekids) := by
  unfold sleepsFor at h
  split at h
  · next k hpc =>
    cases k with
    | waitScan target addr i havekids =>
      cases h
      exact ⟨addr, i, havekids, hpc⟩
    | _ => cases h
  · cases h

theorem waiting_for_the_living_child :
    ((after waitingRun smallKernel).proc 0).state = .sleeping ∧
    ∃ q, ((after waitingRun smallKernel).proc q).parent = some 0 ∧
      ((after waitingRun smallKernel).proc q).pid = 2 ∧
      ((after waitingRun smallKernel).proc q).state ≠ .zombie := by
  have hreach : Reach (fun _ _ => True) smallKernel (after waitingRun smallKernel) :=
    Reach.after (fun _ _ _ => trivial) (by decide +kernel)
  have hsleep : ((after waitingRun smallKernel).proc 0).state = .sleeping := by decide +kernel
  have hfor : sleepsFor ((after waitingRun smallKernel).proc 0) = some (some 2) := by decide +kernel
  obtain ⟨addr, i, havekids, hpc⟩ := sleepsFor_asleep hfor
  obtain ⟨htarget, -⟩ := waiting_for_the_living smallKernel_booted hreach (by decide +kernel) 0 hsleep
  obtain ⟨q, hparent, hpid, -, hzombie, -⟩ := htarget 2 addr i havekids hpc
  exact ⟨hsleep, q, hparent, hpid, hzombie⟩

end KernelWait
