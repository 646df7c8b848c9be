import Xv6Filesrv.KernelLookups
import Xv6Filesrv.KernelSignals

/-!
# Frozen processes and the scheduler

From the return of `freeze` on, the process that it found is passed over by the scheduler until
`thaw` or `kill` finds it.  A wakeup still makes it runnable, and it stays so until a CPU may take
it again.
-/

namespace KernelFrozen

open KernelPages KernelMemInv KernelShm KernelProc KernelSteps KernelTable KernelSlots KernelBoot
open KernelPids KernelSignals KernelLookups

variable {ram : Ram} {o : Op} {s s' s₀ t u v : Kernel} {p q : Slot} {a b : Action} {pid : Int}

/-- The return of a call that found the process with this pid and ended its freeze;
`signal_send` returns as the search that it makes. -/
def Lifts (pid : Int) : Event → Prop
  | .ret _ _ (.thaw n) r | .ret _ _ (.kill n) r => n = pid ∧ r = 0
  | _ => False

/-- The slot is in use, and the action is not the one that ends a freeze of the process. -/
def Spares (q : Slot) (pid : Int) (s : Kernel) (a : Action) : Prop :=
  (s.proc q).state ≠ .unused ∧
    ∀ s' e, act a s = some (.ok s') → s'.trace = e :: s.trace → ¬ Lifts pid e

/-! ## What a search writes -/

/-- A search that has come to its process. -/
theorem proceed_signal {f : Search} (ha : act a s = some (.ok s')) (hop : a.op = .proceed)
    (hpc : (s.proc a.p).pc = .search f pid q.val) (hq : f.hits pid (s.proc q) = true) :
    s' = ((s.withFails a.fails).setProc q f.effect).ret a.p (f.call pid)
      (f.answer (s.proc q)) := by
  have hpc' : ((s.withFails a.fails).proc a.p).pc = .search f pid q.val := hpc
  have hq' : f.hits pid ((s.withFails a.fails).proc q) = true := hq
  have h := proceed_search hpc' (proceed_of_act hop ha)
  unfold search at h
  rw [dif_pos q.isLt] at h
  simp only [Fin.eta, hq', if_true] at h
  split at h
  · exact (Option.some.inj h).symm
  · cases h

/-- A search that finds its process returns in the same step. -/
theorem act_signal {f : Search} (ha : act a s = some (.ok s'))
    (hpc : (s.proc a.p).pc = .search f pid q.val) (hq : f.hits pid (s.proc q) = true)
    (huser : (s'.proc a.p).pc = .user) :
    ∃ n, s'.trace = .ret a.p n (f.call pid) (f.answer (s.proc q)) :: s.trace := by
  have hop := act_proceed ha (by rw [hpc]; exact nofun) huser
  rw [proceed_signal ha hop hpc hq]
  exact ⟨_, rfl⟩

/-- Only a search that found its process returns 0 from `freeze`. -/
theorem step_froze {r : Slot} {n : Int} (hs : Step o p s s')
    (h : s'.trace = .ret r n (.freeze pid) 0 :: s.trace) :
    ∃ q, Has s' pid q ∧ (s'.proc q).frozen = true := by
  have horigin := step_origin hs h
  generalize hc : Call.freeze pid = c at horigin
  generalize hx : (0 : Int) = x at horigin
  cases horigin with
  | memory hm _ =>
    subst hc
    cases hm
  | @found f pid' q hq heq =>
    cases f with
    | freeze =>
      cases hc
      obtain ⟨pc, heq⟩ := heq
      simp only [Search.hits, Bool.and_eq_true, beq_iff_eq, Bool.or_eq_true, bne_iff_ne, ne_eq,
        reduceCtorEq, false_or] at hq
      refine ⟨q, ?_, ?_⟩
      · rw [Has, heq]
        exact ⟨hq.2, hq.1⟩
      · rw [heq]
        rfl
    | kill | thaw | getprocstate => cases hc
  | missed => cases hx
  | other _ hs =>
    subst hc
    cases hs

/-! ## A step while a process is frozen -/

/-- A step keeps the freeze of a process, or it is the return of a call that lifts it. -/
theorem act_frozen (ht : KernelTable.Table s) (ha : act a s = some (.ok s'))
    (hf : (s.proc q).frozen = true) (hlive : (s.proc q).state ≠ .unused)
    (hlive' : (s'.proc q).state ≠ .unused) :
    (s'.proc q).pid = (s.proc q).pid ∧
      ((s'.proc q).frozen = true ∨ ∃ e, s'.trace = e :: s.trace ∧ Lifts (s.proc q).pid e) := by
  cases step_change (Table.withFails ht a.fails) (act_step ha) q with
  | keep hsame => exact ⟨hsame.pid, .inl (hsame.frozen.trans hf)⟩
  | @signal f pid hpc hhit huser heq =>
    obtain ⟨pc, heq⟩ := heq
    obtain ⟨n, htrace⟩ := act_signal ha hpc hhit huser
    have hpid : (s.proc q).pid = pid := by
      simp only [Search.hits, Bool.and_eq_true, beq_iff_eq] at hhit
      exact hhit.1
    rw [heq]
    refine ⟨effect_pid f _, ?_⟩
    cases f with
    | freeze => exact .inl rfl
    | getprocstate => exact .inl hf
    | kill | thaw => exact .inr ⟨_, htrace, hpid.symm, rfl⟩
  | fault _ _ _ heq | link _ heq | publish _ heq | exit _ _ _ heq =>
    rw [heq]
    exact ⟨rfl, .inl hf⟩
  | adopt hpc hq heq hwake =>
    obtain ⟨pc, heq⟩ := heq
    rw [heq]
    exact ⟨rfl, .inl hf⟩
  | alloc hpc hu hm heq | allocFailed hu heq => exact absurd hu hlive
  | reap hpc hw hl hz heq => exact absurd (congrArg Proc.state heq) hlive'

/-- No step takes a frozen process from the runnable state. -/
theorem act_runnable (ht : KernelTable.Table s) (ha : act a s = some (.ok s'))
    (hf : (s.proc q).frozen = true) (hr : (s.proc q).state = .runnable) :
    (s'.proc q).state = .runnable := by
  have ht' := Table.withFails ht a.fails
  have hs := act_step ha
  by_cases hq : q = a.p
  · subst hq
    have hown := step_own ht' hs
    have htidy := ht.tidy a.p
    simp only [Tidy, hr] at htidy
    generalize s'.proc a.p = x at hown ⊢
    cases hown with
    | resume _ hnot => exact absurd (hf.symm.trans hnot) (by decide)
    | leave hx hpc => exact hr
    | yield hrun _ | fault hrun _ | move hrun _ | signal hrun _ _ _ | adopt hrun _ _
    | sleep hrun _ _ | exit hrun _ => exact absurd (hr.symm.trans hrun) (by decide)
  · have htouch := step_touch hs hq
    generalize s'.proc q = x at htouch ⊢
    cases htouch with
    | same | adopt _ => exact hr
    | wake _ | publish _ _ => rfl
    | signal f pid hhit =>
      rw [effect_state f (by rw [show ((s.withFails a.fails).proc q).state = _ from hr]; decide)]
      exact hr
    | alloc hu _ _ => exact absurd (hr.symm.trans hu) (by decide)
    | free hs hl =>
      rcases hs with hs | hs <;> exact absurd (hr.symm.trans hs) (by decide)

/-- `wakeup` at the slot of a process that sleeps on its channel. -/
theorem act_wakes {c : Option Chan} {k : Point} (ha : act a s = some (.ok s'))
    (hop : a.op = .proceed) (hpc : (s.proc a.p).pc = .wakeup c q.val k)
    (hs : (s.proc q).state = .sleeping) (hc : (s.proc q).chan = c) (hq : q ≠ a.p) :
    (s'.proc q).state = .runnable := by
  have hp := proceed_of_act hop ha
  have hpc' : ((s.withFails a.fails).proc a.p).pc = .wakeup c q.val k := hpc
  have hs' : ((s.withFails a.fails).proc q).state = .sleeping := hs
  have hc' : ((s.withFails a.fails).proc q).chan = c := hc
  unfold proceed at hp
  rw [hpc'] at hp
  obtain ⟨u, hu, he⟩ := Option.map_eq_some_iff.mp hp
  cases he
  unfold wakeup at hu
  rw [dif_pos q.isLt] at hu
  simp only [Fin.eta, hq, if_false, hs', hc', and_self, if_true] at hu
  split at hu
  · cases hu
    rw [goto_of_ne hq, setProc_self]
  · cases hu

/-! ## Between a freeze and its end -/

theorem Spares.frozen (ht : KernelTable.Table t) (hf : (t.proc q).frozen = true)
    (hpid : (t.proc q).pid = pid) (hr : Reach (Spares q pid) t u) :
    KernelTable.Table u ∧ ((u.proc q).state ≠ .unused →
      (u.proc q).frozen = true ∧ (u.proc q).pid = pid) := by
  refine Reach.invariant (I := fun u => KernelTable.Table u ∧ ((u.proc q).state ≠ .unused →
    (u.proc q).frozen = true ∧ (u.proc q).pid = pid)) ⟨ht, fun _ => ⟨hf, hpid⟩⟩ ?_ hr
  intro w a w' ⟨htable, hstill⟩ ⟨hlive, hspare⟩ ha
  refine ⟨Table.act htable ha, fun hlive' => ?_⟩
  obtain ⟨hfrozen, hsame⟩ := hstill hlive
  obtain ⟨hpid', hfrozen' | ⟨e, htrace, hlift⟩⟩ := act_frozen htable ha hfrozen hlive hlive'
  · exact ⟨hfrozen', hpid'.trans hsame⟩
  · exact absurd (hsame ▸ hlift) (hspare w' e ha htrace)

/-- Once runnable, a frozen process stays runnable. -/
theorem Spares.runnable (ht : KernelTable.Table u) (hf : (u.proc q).frozen = true)
    (hpid : (u.proc q).pid = pid) (hrun : (u.proc q).state = .runnable)
    (hr : Reach (Spares q pid) u v) : (v.proc q).state = .runnable := by
  have hinv : Reach (Spares q pid) u v ∧ (v.proc q).state = .runnable := by
    refine Reach.invariant (I := fun w => Reach (Spares q pid) u w ∧
      (w.proc q).state = .runnable) ⟨.refl, hrun⟩ ?_ hr
    intro w a w' ⟨hw, hstill⟩ hok ha
    obtain ⟨htable, hfrozen⟩ := Spares.frozen ht hf hpid hw
    exact ⟨.tail hw ⟨a, hok, ha⟩, act_runnable htable ha (hfrozen hok.1).1 hstill⟩
  exact hinv.2

/-- When `freeze` returns 0 it has frozen a process with that pid.  As long as the process is there
and no `thaw` or `kill` of the pid returns 0, no step of a scheduler takes it from the runnable
state; a wakeup on its channel makes it runnable, and it is still so when its freeze ends. -/
theorem frozen_not_dispatched {n : Int} (hb : Booted ram s₀) (hr : Reach (fun _ _ => True) s₀ s)
    (ha : act a s = some (.ok t)) (hret : t.trace = .ret a.p n (.freeze pid) 0 :: s.trace) :
    ∃ q, Has t pid q ∧ ∀ u, Reach (Spares q pid) t u → (u.proc q).state ≠ .unused →
      (u.proc q).pid = pid ∧
      (∀ b v, act b u = some (.ok v) → (u.proc q).state = .runnable →
        (v.proc q).state ≠ .running) ∧
      (∀ b v c k, act b u = some (.ok v) → b.op = .proceed → b.p ≠ q →
        (u.proc b.p).pc = .wakeup c q.val k → (u.proc q).state = .sleeping →
        (u.proc q).chan = c → (v.proc q).state = .runnable) ∧
      ((u.proc q).state = .runnable → ∀ v, Reach (Spares q pid) u v →
        (v.proc q).state = .runnable ∧
        ∀ b w, act b v = some (.ok w) → (w.proc q).state = .runnable) := by
  have ht : KernelTable.Table t := Table.act (Numbered.reach hb hr).1 ha
  obtain ⟨q, hhas, hfrozen⟩ := step_froze (act_step ha) hret
  refine ⟨q, hhas, fun u hu hlive => ?_⟩
  obtain ⟨htable, hstill⟩ := Spares.frozen ht hfrozen hhas.2 hu
  obtain ⟨hf, hpid⟩ := hstill hlive
  refine ⟨hpid, ?_, ?_, ?_⟩
  · intro b v hb' hrun
    rw [act_runnable htable hb' hf hrun]
    decide
  · intro b v c k hb' hop hne hpc hs hc
    exact act_wakes hb' hop hpc hs hc hne.symm
  · intro hrun v hv
    have hstays := Spares.runnable htable hf hpid hrun hv
    obtain ⟨htable', hstill'⟩ := Spares.frozen htable hf hpid hv
    have hf' := (hstill' (by rw [hstays]; decide)).1
    exact ⟨hstays, fun b w hw => act_runnable htable' hw hf' hstays⟩

/-- The first process forks, and its `freeze` of the child has come to the child's slot. -/
def freezing : Kernel := after (callRun 0 .fork 6 ++ callRun 0 (.freeze 2) 1) smallKernel

/-- Whether a process looks for pid 2 at slot 1 to freeze it. -/
def atChild : Pc → Bool
  | .search .freeze 2 1 => true
  | _ => false

theorem atChild_eq {pc : Pc} (h : atChild pc = true) : pc = .search .freeze 2 1 := by
  unfold atChild at h
  split at h
  · rfl
  · cases h

theorem frozen_not_dispatched_child :
    ∃ t q, act ⟨0, .proceed, []⟩ freezing = some (.ok t) ∧ Has t 2 q ∧
      ∀ b v, act b t = some (.ok v) → (t.proc q).state = .runnable →
        (v.proc q).state ≠ .running := by
  have hreach : Reach (fun _ _ => True) smallKernel freezing :=
    Reach.after (fun _ _ _ => trivial) (by decide +kernel)
  have hact := act_after (a := ⟨0, .proceed, []⟩) (s := freezing) (by decide +kernel)
  have hpc : (freezing.proc 0).pc = .search .freeze 2 1 := atChild_eq (by decide +kernel)
  have hchild : Search.freeze.hits 2 (freezing.proc 1) = true := by decide +kernel
  generalize after [⟨0, .proceed, []⟩] freezing = t at hact
  generalize freezing = s at hreach hact hpc hchild ⊢
  obtain ⟨n, hret⟩ : ∃ n, t.trace = .ret 0 n (.freeze 2) 0 :: s.trace := by
    rw [proceed_signal (q := 1) hact rfl hpc hchild]
    exact ⟨_, rfl⟩
  obtain ⟨q, hhas, hoff⟩ := frozen_not_dispatched smallKernel_booted hreach hact hret
  exact ⟨t, q, hact, hhas, fun b v hb hrun => (hoff t .refl hhas.1).2.1 b v hb hrun⟩

end KernelFrozen
