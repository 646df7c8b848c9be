import Xv6Filesrv.KernelBytes
import Xv6Filesrv.KernelPids
import Xv6Filesrv.KernelShmRuns
import Xv6Filesrv.KernelSlots

/-!
# Exit statuses

A process that exits leaves its slot, its pid and its exit status behind until its parent collects
them with `wait` or `waitpid`.  `Owed` replays a history of exits and returns and keeps what is left
to collect; in every run this is what the zombies in the process table hold.
-/

namespace KernelReaping

open StateWp KernelPages KernelShm KernelMemInv KernelProc KernelSteps KernelTable
open KernelSystem KernelBoot KernelPids KernelShmRuns KernelBytes
open Function (update update_of_ne update_self)

variable {ram : Ram} {o : Op} {s s' s₀ : Kernel} {p q : Slot}

/-- What slot `q` with content `x` holds for the parent: the slot, the pid and the exit status. -/
def remains (q : Slot) (x : Proc) : Multiset (Slot × Int × Int) :=
  if x.state = .zombie then {(q, x.pid, x.xstate)} else 0

def zombies (s : Kernel) : Multiset (Slot × Int × Int) := ∑ q, remains q (s.proc q)

/-- The calls that collect children. -/
def waits : Call → Bool
  | .wait _ | .waitpid _ _ => true
  | _ => false

/-- The exits in a history that no `wait` or `waitpid` has collected yet.  Each exit adds an entry,
each return of a pid takes one with this pid away. -/
inductive Owed : List Event → Multiset (Slot × Int × Int) → Prop
  | start : Owed [] 0
  | exited {l : List Event} {M : Multiset (Slot × Int × Int)} {q : Slot} {pid status : Int}
      (h : Owed l M) : Owed (.exited q pid status :: l) ((q, pid, status) ::ₘ M)
  | collected {l : List Event} {M : Multiset (Slot × Int × Int)} {p q : Slot} {c : Call}
      {pid r status : Int} (h : Owed l ((q, r, status) ::ₘ M)) (hc : waits c = true) :
      Owed (.ret p pid c r :: l) M
  | failed {l : List Event} {M : Multiset (Slot × Int × Int)} {p : Slot} {c : Call} {pid : Int}
      (h : Owed l M) (hc : waits c = true) : Owed (.ret p pid c (-1) :: l) M
  | other {l : List Event} {M : Multiset (Slot × Int × Int)} {p : Slot} {c : Call} {pid r : Int}
      (h : Owed l M) (hc : waits c = false) : Owed (.ret p pid c r :: l) M

/-- The pid and the status with which slot `q` exited last. -/
def lastExit (q : Slot) : List Event → Option (Int × Int)
  | [] => none
  | .exited r pid status :: l => if r = q then some (pid, status) else lastExit q l
  | .ret _ _ _ _ :: l => lastExit q l

def isExit (t : Int) : Event → Bool
  | .exited _ pid _ => pid == t
  | .ret _ _ _ _ => false

def isCollection (t : Int) : Event → Bool
  | .exited _ _ _ => false
  | .ret _ _ c r => waits c && r == t

/-- How often processes with pid `t` have exited. -/
def exits (t : Int) (l : List Event) : Nat := l.countP (isExit t)

/-- How often `wait` and `waitpid` have returned `t`. -/
def collected (t : Int) (l : List Event) : Nat := l.countP (isCollection t)

/-! ## What a step does to the zombies -/

theorem remains_at {r : Slot} {x : Proc} (hs : s'.proc = update s.proc r x)
    (hx : remains r x = remains r (s.proc r)) (q : Slot) :
    remains q (s'.proc q) = remains q (s.proc q) := by
  rw [hs]
  by_cases hq : q = r
  · rw [hq, update_self, hx]
  · rw [update_of_ne hq]

theorem remains_kept {r : Slot} {x : Proc} {pc : Pc}
    (hs : s'.proc = update (update s.proc r x) p
      { update s.proc r x p with pc := pc })
    (hx : remains r x = remains r (s.proc r)) (q : Slot) :
    remains q (s'.proc q) = remains q (s.proc q) := by
  rw [hs]
  have hmove : remains q (update (update s.proc r x) p
      { update s.proc r x p with pc := pc } q) =
      remains q (update s.proc r x q) := by
    by_cases hq : q = p
    · rw [hq, update_self]
      rfl
    · rw [update_of_ne hq]
  rw [hmove]
  by_cases hq : q = r
  · rw [hq, update_self, hx]
  · rw [update_of_ne hq]

theorem remains_living {x y : Proc} (hx : x.state ≠ .zombie) (hy : y.state ≠ .zombie) :
    remains q x = remains q y := by
  rw [remains, remains, if_neg hx, if_neg hy]

theorem remains_eq {x y : Proc} (h : remains q x = remains q y) (hx : x.state = .zombie) :
    y.state = .zombie ∧ y.pid = x.pid ∧ y.xstate = x.xstate := by
  rw [remains, if_pos hx, remains] at h
  split at h
  · next hy =>
    have heq := Multiset.singleton_inj.mp h
    simp only [Prod.mk.injEq, true_and] at heq
    exact ⟨hy, heq.1.symm, heq.2.symm⟩
  · simp at h

theorem remains_effect (f : Search) (x : Proc) : remains q (f.effect x) = remains q x := by
  cases f with
  | kill =>
    simp only [Search.effect]
    split
    · next hs => exact remains_living (by simp) (by simp_all)
    · rfl
  | freeze | thaw | getprocstate => rfl

/-- What a step that is no exit and no return from `wait` or `waitpid` adds to the history. -/
def Silent (l l' : List Event) : Prop :=
  l' = l ∨ ∃ p pid c r, l' = .ret p pid c r :: l ∧ waits c = false

/-- What a step of process `p` does to the zombies and to the history. -/
inductive Deaths (s : Kernel) (p : Slot) (s' : Kernel) : Prop
  | same (hz : ∀ q, remains q (s'.proc q) = remains q (s.proc q)) (ht : Silent s.trace s'.trace)
  | exit {status : Int} (hr : (s.proc p).state = .running)
      (hproc : s'.proc = update s.proc p
        { s.proc p with xstate := status, state := .zombie, pc := .exitDrop })
      (ht : s'.trace = .exited p (s.proc p).pid status :: s.trace)
  | reaped {target : Option Int} {addr : Nat} {q : Slot} (hr : (s.proc p).state = .running)
      (hw : wanted p target (s.proc q) = true) (hz : (s.proc q).state = .zombie)
      (hm : reap p q addr (s.proc q).xstate s.mem = .ok (true, s'.mem))
      (hproc : s'.proc = update (update s.proc q Proc.free) p
        { s.proc p with pc := .user })
      (ht : s'.trace = .ret p (s.proc p).pid (waitCall target addr) (s.proc q).pid :: s.trace)
  | failed {target : Option Int} {addr : Nat} (hr : (s.proc p).state = .running)
      (hproc : s'.proc = update s.proc p { s.proc p with pc := .user })
      (hm : s'.mem = s.mem ∨ ∃ q, (s.proc q).state = .zombie ∧
        reap p q addr (s.proc q).xstate s.mem = .ok (false, s'.mem))
      (ht : s'.trace = .ret p (s.proc p).pid (waitCall target addr) (-1) :: s.trace)

theorem memory_waits {c : Call} {m : M Int} (h : c.memory p = some m) : waits c = false := by
  cases c with
  | wait _ | waitpid _ _ => cases h
  | _ => rfl

theorem step_deaths (ht : KernelTable.Table s) (hs : Step o p s s') : Deaths s p s' := by
  cases hs with
  | exitMark hr hpc => exact .exit hr rfl rfl
  | @reap target addr q havekids mem hr hpc hw hl hz hm =>
    have hp : update s.proc q Proc.free p = s.proc p :=
      update_of_ne (ne_of_state hr hz (by decide)) _ _
    refine .reaped hr hw hz hm ?_ ?_
    · rw [← hp]
      rfl
    · rw [← hp]
      rfl
  | reapFailed hr hpc hw hl hz hm => exact .failed hr rfl (.inr ⟨_, hz, hm⟩) rfl
  | dispatch hr hf hl =>
    refine .same (remains_at rfl (remains_living ?_ ?_)) (.inl rfl)
    · unfold Proc.resume
      split <;> simp
    · simp [hr]
  | yield hr hp =>
    refine .same (remains_at rfl (remains_living ?_ ?_)) (.inl rfl)
    · simp
    · simp [hr]
  | sleepSet hr hpc =>
    refine .same (remains_at rfl (remains_living ?_ ?_)) (.inl rfl)
    · simp
    · simp [hr]
  | fault hr hpc hm => exact .same (remains_at rfl rfl) (.inl rfl)
  | walk _ _ | acquire _ _ _ | mutexFree _ _ _ _ _ | sleepDrop _ _ | pass _ _ _ _ _ | exitDrop _
  | exitSched _ => exact .same (remains_at rfl rfl) (.inl rfl)
  | memory _ _ hc _ _ =>
    exact .same (remains_at rfl rfl) (.inr ⟨_, _, _, _, rfl, memory_waits hc⟩)
  | mutexCreate _ _ _ => exact .same (remains_at rfl rfl) (.inr ⟨_, _, _, _, rfl, rfl⟩)
  | mutexTake _ _ hk _ _ =>
    refine .same (remains_at rfl rfl) (.inr ⟨_, _, _, _, rfl, ?_⟩)
    cases hk <;> rfl
  | @ret c r hr h =>
    generalize hpc : (s.proc p).pc = pc at h
    cases h with
    | refused hstart hmem =>
      cases c with
      | waitpid pid addr => exact @Deaths.failed _ _ _ (some pid) addr hr rfl (.inl rfl) rfl
      | wait _ => cases hstart
      | _ => exact .same (remains_at rfl rfl) (.inr ⟨_, _, _, _, rfl, rfl⟩)
    | @notFound f _ _ _ =>
      refine .same (remains_at rfl rfl) (.inr ⟨_, _, _, _, rfl, ?_⟩)
      cases f <;> rfl
    | forked | threadCreated | forkedAll _ =>
      exact .same (remains_at rfl rfl) (.inr ⟨_, _, _, _, rfl, rfl⟩)
  | answer hr hpc ha =>
    cases ha with
    | waitFailed _ _ => exact .failed hr rfl (.inl rfl) rfl
    | _ => exact .same (remains_at rfl rfl) (.inr ⟨_, _, _, _, rfl, rfl⟩)
  | wake hr hpc hq hl hs hc =>
    exact .same (remains_kept rfl (remains_living (by simp) (by simp [hs]))) (.inl rfl)
  | @found f pid q hr hpc hl hf =>
    refine .same (remains_kept rfl (remains_effect f _)) (.inr ⟨_, _, _, _, rfl, ?_⟩)
    cases f <;> rfl
  | allocated hr hpc hl hu hm =>
    exact .same (remains_kept rfl (remains_living (by simp) (by simp [hu]))) (.inl rfl)
  | allocFailed hr hpc hl hu hm =>
    exact .same (remains_kept rfl (remains_living (by simp [Proc.free]) (by simp [hu]))) (.inl rfl)
  | link hr hpc => exact .same (remains_kept rfl rfl) (.inl rfl)
  | publish hr hpc hl =>
    have hused := ht.used p _ (by rw [hpc]; rfl)
    exact .same (remains_kept rfl (remains_living (by simp) (by simp [hused]))) (.inl rfl)
  | reparent hr hpc hq => exact .same (remains_kept rfl rfl) (.inl rfl)

/-! ## The accounts -/

theorem zombies_update {x : Proc} (hs : s'.proc = update s.proc q x) :
    zombies s' + remains q (s.proc q) = zombies s + remains q x := by
  rw [zombies, hs]
  exact sum_update_at _ remains s.proc q x (Finset.mem_univ q)

theorem zombies_congr (h : ∀ q, remains q (s'.proc q) = remains q (s.proc q)) :
    zombies s' = zombies s :=
  Finset.sum_congr rfl fun q _ => h q

/-- Exiting adds what the process leaves behind. -/
theorem zombies_exit {status : Int} (hr : (s.proc p).state = .running)
    (hs : s'.proc = update s.proc p
      { s.proc p with xstate := status, state := .zombie, pc := .exitDrop }) :
    zombies s' = (p, (s.proc p).pid, status) ::ₘ zombies s := by
  have h := zombies_update hs
  rw [remains, if_neg (by simp [hr]), add_zero, remains, if_pos rfl, add_comm] at h
  exact h

/-- Collecting takes it away. -/
theorem zombies_reap (hr : (s.proc p).state = .running) (hz : (s.proc q).state = .zombie)
    (hs : s'.proc = update (update s.proc q Proc.free) p
      { s.proc p with pc := .user }) :
    zombies s = (q, (s.proc q).pid, (s.proc q).xstate) ::ₘ zombies s' := by
  have hpq : p ≠ q := ne_of_state hr hz (by decide)
  have hmove : zombies s' = ∑ r, remains r (update s.proc q Proc.free r) := by
    refine Finset.sum_congr rfl fun r _ => ?_
    rw [hs]
    by_cases hrp : r = p
    · rw [hrp, update_self, update_of_ne hpq]
      rfl
    · rw [update_of_ne hrp]
  have hfree := sum_update_at Finset.univ remains s.proc q Proc.free (Finset.mem_univ q)
  rw [← hmove, remains, if_pos hz, remains, if_neg (by simp [Proc.free]), add_zero, add_comm] at hfree
  exact hfree.symm

theorem waitCall_waits (target : Option Int) (addr : Nat) : waits (waitCall target addr) = true := by
  cases target <;> rfl

theorem Owed.step (h : Owed s.trace (zombies s)) (hd : Deaths s p s') :
    Owed s'.trace (zombies s') := by
  cases hd with
  | same hz ht =>
    rw [zombies_congr hz]
    rcases ht with ht | ⟨r, pid, c, v, ht, hc⟩
    · rw [ht]
      exact h
    · rw [ht]
      exact .other h hc
  | exit hr hproc ht =>
    rw [zombies_exit hr hproc, ht]
    exact .exited h
  | reaped hr hw hz hm hproc ht =>
    rw [zombies_reap hr hz hproc] at h
    rw [ht]
    exact .collected h (waitCall_waits _ _)
  | failed hr hproc hm ht =>
    rw [zombies_congr (remains_at hproc rfl), ht]
    exact .failed h (waitCall_waits _ _)

theorem exits_exited (t : Int) (q : Slot) (pid status : Int) (l : List Event) :
    exits t (.exited q pid status :: l) = exits t l + if pid = t then 1 else 0 := by
  simp [exits, isExit, List.countP_cons]

theorem exits_ret (t : Int) (p : Slot) (pid : Int) (c : Call) (r : Int) (l : List Event) :
    exits t (.ret p pid c r :: l) = exits t l := by
  simp [exits, isExit]

/-- Collecting a child leaves the other slots alone. -/
theorem remains_reap {r : Slot} (hs : s'.proc = update (update s.proc q Proc.free) p
      { s.proc p with pc := .user }) (hr : r ≠ q) :
    remains r (s'.proc r) = remains r (s.proc r) := by
  rw [hs]
  by_cases hrp : r = p
  · rw [hrp, update_self]
    rfl
  · rw [update_of_ne hrp, update_of_ne hr]

theorem reap_freed (hr : (s.proc p).state = .running) (hz : (s.proc q).state = .zombie)
    (hs : s'.proc = update (update s.proc q Proc.free) p
      { s.proc p with pc := .user }) : s'.proc q = Proc.free := by
  rw [hs, update_of_ne (ne_of_state hz hr (by decide)), update_self]

theorem Silent.lastExit {l l' : List Event} (h : Silent l l') (q : Slot) :
    KernelReaping.lastExit q l' = KernelReaping.lastExit q l := by
  rcases h with rfl | ⟨r, pid, c, v, rfl, -⟩ <;> rfl

theorem Silent.exits {l l' : List Event} (h : Silent l l') (t : Int) :
    KernelReaping.exits t l' = KernelReaping.exits t l := by
  rcases h with rfl | ⟨r, pid, c, v, rfl, -⟩
  · rfl
  · exact exits_ret _ _ _ _ _ _

/-- The last exit of a zombie is its own. -/
def Wills (s : Kernel) : Prop :=
  ∀ q, (s.proc q).state = .zombie → lastExit q s.trace = some ((s.proc q).pid, (s.proc q).xstate)

theorem Wills.step (h : Wills s) (hd : Deaths s p s') : Wills s' := by
  intro q hz
  have hkept : remains q (s'.proc q) = remains q (s.proc q) →
      lastExit q s'.trace = lastExit q s.trace →
      lastExit q s'.trace = some ((s'.proc q).pid, (s'.proc q).xstate) := by
    intro hsame hlast
    obtain ⟨hzombie, hpid, hstatus⟩ := remains_eq hsame hz
    rw [hlast, h q hzombie, hpid, hstatus]
  cases hd with
  | same hsame ht => exact hkept (hsame q) (ht.lastExit q)
  | exit hr hproc ht =>
    by_cases hqp : q = p
    · subst hqp
      rw [ht, hproc, lastExit, if_pos rfl, update_self]
    · apply hkept
      · rw [hproc, update_of_ne hqp]
      · rw [ht, lastExit, if_neg (fun he => hqp he.symm)]
  | @reaped target addr r hr hw hzr hm hproc ht =>
    have hqr : q ≠ r := by
      intro he
      rw [he, reap_freed hr hzr hproc] at hz
      cases hz
    apply hkept (remains_reap hproc hqr)
    rw [ht]
    rfl
  | failed hr hproc hm ht =>
    apply hkept (remains_at hproc rfl q)
    rw [ht]
    rfl

/-- The pid of a process that has exited is in nobody's use. -/
structure Gone (s : Kernel) (t : Int) : Prop where
  once : exits t s.trace = 1
  born : t ∈ s.born
  nobody : ∀ q, (s.proc q).state ≠ .unused → (s.proc q).state ≠ .zombie → (s.proc q).pid ≠ t

theorem born_grows (hs : Step o p s s') {t : Int} (h : t ∈ s.born) : t ∈ s'.born := by
  rcases step_born hs with ⟨hb, -⟩ | ⟨hb, -⟩ <;> rw [hb]
  · exact h
  · exact List.mem_cons_of_mem _ h

/-- A step that logs no exit keeps pids of the dead out of use. -/
theorem Gone.keep {t : Int} (h : Gone s t) (ht : KernelTable.Table s) (hp : Pids s)
    (hs : Step o p s s') (hexits : exits t s'.trace = exits t s.trace)
    (hz : ∀ q, (s.proc q).state = .zombie → (s'.proc q).state ≠ .unused →
      (s'.proc q).state = .zombie) : Gone s' t := by
  refine ⟨hexits.trans h.once, born_grows hs h.born, fun q hlive hnot hpid => ?_⟩
  rcases step_pid ht hs hlive with ⟨hold, hsame⟩ | ⟨-, hnew, -⟩
  · refine h.nobody q hold (fun hzq => hnot (hz q hzq hlive)) (hsame.symm.trans hpid)
  · -- A new process has a pid that nobody has had.
    have := (hp.born t h.born).2
    rw [← hpid, hnew] at this
    exact lt_irrefl _ this

def Singly (s : Kernel) : Prop := ∀ t, exits t s.trace = 0 ∨ Gone s t

theorem Singly.step (h : Singly s) (ht : KernelTable.Table s) (hp : Pids s) (hs : Step o p s s') :
    Singly s' := by
  intro t
  have hkeep : exits t s'.trace = exits t s.trace → (∀ q, (s.proc q).state = .zombie →
      (s'.proc q).state ≠ .unused → (s'.proc q).state = .zombie) →
      exits t s'.trace = 0 ∨ Gone s' t := by
    intro hexits hz
    rcases h t with hzero | hgone
    · exact .inl (hexits.trans hzero)
    · exact .inr (hgone.keep ht hp hs hexits hz)
  cases step_deaths ht hs with
  | same hsame htrace =>
    refine hkeep (htrace.exits t) fun q hz _ => ?_
    exact (remains_eq (hsame q).symm hz).1
  | exit hr hproc htrace =>
    have hlive : (s.proc p).state ≠ .unused := by simp [hr]
    have hold : ∀ q, q ≠ p → s'.proc q = s.proc q := by
      intro q hq
      rw [hproc, update_of_ne hq]
    have hdead : (s'.proc p).state = .zombie := by
      rw [hproc, update_self]
    by_cases hpid : (s.proc p).pid = t
    · refine .inr ⟨?_, ?_, ?_⟩
      · have hzero : exits t s.trace = 0 := by
          refine (h t).resolve_right fun hgone => ?_
          exact hgone.nobody p hlive (by simp [hr]) hpid
        rw [htrace, exits_exited, if_pos hpid, hzero]
      · exact hpid ▸ born_grows hs (hp.live p hlive)
      · intro q hq hnot hpq
        have hqp : q ≠ p := by
          rintro rfl
          exact hnot hdead
        rw [hold q hqp] at hq hpq
        exact hqp (hp.distinct q p hq hlive (hpq.trans hpid.symm))
    · refine hkeep ?_ fun q hz _ => ?_
      · rw [htrace, exits_exited, if_neg hpid, add_zero]
      · rw [hold q (ne_of_state hz hr (by decide))]
        exact hz
  | @reaped target addr r hr hw hzr hm hproc htrace =>
    refine hkeep ?_ fun q hz hlive => ?_
    · rw [htrace, exits_ret]
    · have hqr : q ≠ r := by
        rintro rfl
        rw [reap_freed hr hzr hproc] at hlive
        exact hlive rfl
      exact (remains_eq (remains_reap hproc hqr).symm hz).1
  | failed hr hproc hm htrace =>
    refine hkeep ?_ fun q hz _ => ?_
    · rw [htrace, exits_ret]
    · exact (remains_eq (remains_at hproc rfl q).symm hz).1

/-! ## Every run -/

theorem waitCall_inj {T T' : Option Int} {addr addr' : Nat}
    (h : waitCall T addr = waitCall T' addr') : T = T' ∧ addr = addr' := by
  cases T <;> cases T' <;> cases h <;> exact ⟨rfl, rfl⟩

/-- A return from `wait` or `waitpid` in the history was put there by a reap or a failure. -/
theorem Deaths.returns {w : Slot} {pid r : Int} {T : Option Int} {addr : Nat} (hd : Deaths s p s')
    (ht : s'.trace = .ret w pid (waitCall T addr) r :: s.trace) :
    w = p ∧ (s.proc p).state = .running ∧
    ((∃ q, wanted p T (s.proc q) = true ∧ (s.proc q).state = .zombie ∧ r = (s.proc q).pid ∧
      reap p q addr (s.proc q).xstate s.mem = .ok (true, s'.mem) ∧
      s'.proc = update (update s.proc q Proc.free) p
        { s.proc p with pc := .user }) ∨
    (r = -1 ∧ s'.proc = update s.proc p { s.proc p with pc := .user } ∧
      (s'.mem = s.mem ∨ ∃ q, (s.proc q).state = .zombie ∧
        reap p q addr (s.proc q).xstate s.mem = .ok (false, s'.mem)))) := by
  cases hd with
  | same hz hsilent =>
    rcases hsilent with hl | ⟨_, _, c, _, hl, hc⟩
    · exact absurd (hl.symm.trans ht) (List.cons_ne_self _ _).symm
    · cases hl.symm.trans ht
      rw [waitCall_waits] at hc
      cases hc
  | exit hr hproc hl => cases hl.symm.trans ht
  | @reaped T' addr' q hr hw hz hm hproc hl =>
    have he := (List.cons.inj (hl.symm.trans ht)).1
    injection he with hpw hpid hcall hret
    obtain ⟨rfl, rfl⟩ := waitCall_inj hcall
    exact ⟨hpw.symm, hr, .inl ⟨q, hw, hz, hret.symm, hm, hproc⟩⟩
  | @failed T' addr' hr hproc hm hl =>
    have he := (List.cons.inj (hl.symm.trans ht)).1
    injection he with hpw hpid hcall hret
    obtain ⟨rfl, rfl⟩ := waitCall_inj hcall
    exact ⟨hpw.symm, hr, .inr ⟨hret.symm, hproc, hm⟩⟩

end KernelReaping
