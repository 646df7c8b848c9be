import Xv6Filesrv.KernelHoldings

/-!
# What frozen processes hold

A frozen process holds nothing in the runs in which it is frozen empty-handed and takes nothing
afterwards.  In the others it keeps what it holds until it is thawed or killed, and whoever wants it
waits.
-/

namespace KernelFreezeRuns

open Custody KernelShm KernelFreeze KernelHoldings

variable {ι : Type} {s s' s₀ : System ι} {h h' : Holdings ι} {p q : Slot} {a : Action ι}
  {ok : System ι → Action ι → Prop}

/-- Nothing is held and nothing is going on; pids identify the processes. -/
structure Fresh (s : System ι) : Prop where
  idle : ∀ q, (s.thread q).pc = .run ∧ (s.thread q).phase = .outside ∧ (s.thread q).frozen = false
  ready : ∀ q, (s.thread q).state = .unused ∨ (s.thread q).state = .runnable ∨
    (s.thread q).state = .running
  pids : ∀ q r, (s.thread q).state ≠ .unused → (s.thread q).pid = (s.thread r).pid → q = r
  spin : ∀ c, s.spin c = none
  lock : ∀ i, s.lock i = ⟨false, 0⟩
  log : s.log = ⟨0, false, []⟩

theorem Fresh.inv (h₀ : Fresh s₀) :
    Inv s₀ ⟨fun _ => none, fun _ => false, fun _ => false⟩ := by
  constructor
  · exact h₀.pids
  · intro i
    rw [h₀.lock]
    rfl
  · exact nofun
  · intro q
    simp [(h₀.idle q).2.1]
  · intro q
    simp [(h₀.idle q).2.1]
  · simp [h₀.log]
  · rw [h₀.log]
    rfl
  · exact fun hne => absurd rfl hne
  · exact fun q => (h₀.idle q).2.2.symm
  · intro q k hk
    rw [(h₀.idle q).1] at hk
    cases hk

theorem goto_of_ne (hq : q ≠ p) (s : System ι) (pc : Pc ι) : (s.goto p pc).thread q = s.thread q :=
  setThread_of_ne hq s _

theorem enter_of_ne (hq : q ≠ p) (s : System ι) (ph : Phase) :
    (s.enter p ph).thread q = s.thread q :=
  setThread_of_ne hq s _

theorem atRun_running {x : Thread ι} (hx : atRun x = true) : x.state = .running := by
  unfold atRun at hx
  split at hx
  · next hs _ => exact hs
  · cases hx

variable [DecidableEq ι]

/-! ## Every run -/

def Next (ok : System ι → Action ι → Prop) (s s' : System ι) : Prop :=
  ∃ a, ok s a ∧ act a s = some (.ok s')

/-- States reached from `s` by actions that `ok` allows. -/
def Reach (ok : System ι → Action ι → Prop) : System ι → System ι → Prop :=
  Relation.ReflTransGen (Next ok)

theorem reach_inv (h₀ : Fresh s₀) (hr : Reach ok s₀ s) :
    ∃ h, Inv s h := by
  induction hr with
  | refl => exact ⟨_, h₀.inv⟩
  | tail _ hn ih =>
    obtain ⟨h, hi⟩ := ih
    obtain ⟨a, -, ha⟩ := hn
    obtain ⟨h', -, hi'⟩ := act_moves hi ha
    exact ⟨h', hi'⟩

theorem reach_clean (h₀ : Fresh s₀) (hr : Reach Considerate s₀ s) : ∃ h, Inv s h ∧ Clean h := by
  induction hr with
  | refl => exact ⟨_, h₀.inv, nofun⟩
  | tail _ hn ih =>
    obtain ⟨h, hi, hclean⟩ := ih
    obtain ⟨a, hok, ha⟩ := hn
    obtain ⟨h', hmove, hi'⟩ := act_moves hi ha
    exact ⟨h', hi', hmove.clean hok hclean⟩

/-- `end_op` does not find a commit going on. -/
theorem endOp_never_panics (h₀ : Fresh s₀) (hr : Reach ok s₀ s)
    (hpc : (s.thread p).pc = .crit .endOp) : endOp s p ≠ .error .logCommitting := by
  obtain ⟨h, hi⟩ := reach_inv h₀ hr
  have hfits : Fits h p .endOp := hi.fits p _ (by rw [hpc]; rfl)
  have hcom : s.log.committing = false := by
    rw [hi.committing, hi.not_committing hfits]
    rfl
  intro he
  simp only [endOp] at he
  split at he
  · next hc =>
    rw [hcom] at hc
    cases hc
  · split at he <;> cases he

/-- In runs of considerate steps a frozen process that is off the CPUs holds no sleep-lock and is
not between `begin_op` and the end of `end_op`; whoever holds a sleep-lock, is inside an operation or
commits is not frozen. -/
theorem frozen_hold_nothing (h₀ : Fresh s₀) (hr : Reach Considerate s₀ s) :
    (∀ q, (s.thread q).frozen = true → (s.thread q).state ≠ .running →
      (∀ i, holdingsleep s q i = false) ∧ (s.thread q).phase = .outside) ∧
    (∀ i, (s.lock i).locked = true → ∃ q, holdingsleep s q i = true ∧
      (s.thread q).state ≠ .unused ∧ (s.thread q).frozen = false) ∧
    (s.log.outstanding = ∑ q, if (s.thread q).phase = .inside then 1 else 0) ∧
    (s.log.committing = true → ∃ q, (s.thread q).phase = .committing) ∧
    ∀ q, (s.thread q).phase ≠ .outside → (s.thread q).frozen = false := by
  obtain ⟨h, hi, hclean⟩ := reach_clean h₀ hr
  have hfree : ∀ q, (s.thread q).frozen = true →
      (∀ i, holdingsleep s q i = false) ∧ (s.thread q).phase = .outside := by
    intro q hf
    have hburden := hclean q ((hi.stopped q).trans hf)
    constructor
    · intro i
      rw [← Bool.not_eq_true, hi.holding_iff]
      exact fun hq => hburden (.inr ⟨some i, hq⟩)
    · cases hph : (s.thread q).phase with
      | outside => rfl
      | inside => exact absurd (.inl ((hi.inside q).mp hph)) hburden
      | committing => exact absurd (.inr ⟨none, (hi.committer q).mp hph⟩) hburden
  refine ⟨fun q hf _ => hfree q hf, ?_, ?_, ?_, ?_⟩
  · intro i hl
    rw [hi.locked] at hl
    obtain ⟨q, hq⟩ := Option.isSome_iff_exists.mp hl
    refine ⟨q, hi.holding_iff.mpr hq, (hi.holder i q hq).2, ?_⟩
    by_contra hf
    have hnot := (hfree q (by simpa using hf)).1 i
    rw [hi.holding_iff.mpr hq] at hnot
    cases hnot
  · rw [hi.outstanding]
    refine Finset.sum_congr rfl fun q _ => ?_
    simp only [hi.inside q]
  · intro hcom
    rw [hi.committing] at hcom
    obtain ⟨q, hq⟩ := Option.isSome_iff_exists.mp hcom
    exact ⟨q, (hi.committer q).mpr hq⟩
  · intro q hph
    by_contra hf
    exact hph (hfree q (by simpa using hf)).2

instance [Fintype ι] (s : System ι) (a : Action ι) : Decidable (Considerate s a) := by
  unfold Considerate
  split <;> infer_instance

/-- The state after a run, which stops where an action cannot be taken. -/
def after : List (Action ι) → System ι → System ι
  | [], s => s
  | a :: rest, s =>
    match act a s with
    | some (.ok s') => after rest s'
    | _ => s

/-- Each action of the run is allowed where it is taken. -/
def allowed (ok : System ι → Action ι → Prop) [∀ s a, Decidable (ok s a)] :
    List (Action ι) → System ι → Bool
  | [], _ => true
  | a :: rest, s =>
    decide (ok s a) &&
      match act a s with
      | some (.ok s') => allowed ok rest s'
      | _ => false

theorem Reach.allowed [∀ s a, Decidable (ok s a)] {acts : List (Action ι)}
    (h : allowed ok acts s = true) : Reach ok s (after acts s) := by
  induction acts generalizing s with
  | nil => exact .refl
  | cons a rest ih =>
    rw [KernelFreezeRuns.allowed, Bool.and_eq_true, decide_eq_true_eq] at h
    obtain ⟨hok, hrest⟩ := h
    rw [after]
    split at hrest
    · next s' hs =>
      exact .head ⟨a, hok, hs⟩ (ih hrest)
    · cases hrest

/-- Two processes that run and one that is ready to. -/
def smallSystem : System (Fin 2) where
  thread := fun q => match q.val with
    | 0 => ⟨.running, none, false, false, 1, .outside, .run⟩
    | 1 => ⟨.running, none, false, false, 2, .outside, .run⟩
    | 2 => ⟨.runnable, none, false, false, 3, .outside, .run⟩
    | _ => ⟨.unused, none, false, false, 0, .outside, .run⟩
  spin := fun _ => none
  lock := fun _ => ⟨false, 0⟩
  log := ⟨0, false, []⟩

theorem smallSystem_fresh : Fresh smallSystem := by
  constructor
  · intro q
    simp only [smallSystem]
    split <;> exact ⟨rfl, rfl, rfl⟩
  · decide
  · decide +kernel
  · exact fun _ => rfl
  · exact fun _ => rfl
  · rfl

/-- A call of process `p` and the next `n` steps of it. -/
def callRun (p : Slot) (c : Call (Fin 2)) (n : Nat) : List (Action (Fin 2)) :=
  ⟨p, .call c⟩ :: List.replicate n ⟨p, .proceed⟩

/-- The second process begins an operation and takes a sleep-lock, the first freezes the third. -/
def considerateRun : List (Action (Fin 2)) :=
  callRun 1 .beginOp 2 ++ callRun 1 (.acquiresleep 0) 2 ++ callRun 0 (.search .freeze 3) 3

theorem frozen_hold_nothing_third :
    ((after considerateRun smallSystem).thread 2).frozen = true ∧
    (∀ i, holdingsleep (after considerateRun smallSystem) 2 i = false) ∧
    ((after considerateRun smallSystem).lock 0).locked = true ∧
    ∃ q, holdingsleep (after considerateRun smallSystem) q 0 = true ∧
      ((after considerateRun smallSystem).thread q).frozen = false := by
  have hreach : Reach Considerate smallSystem (after considerateRun smallSystem) :=
    Reach.allowed (by decide +kernel)
  have hfrozen : ((after considerateRun smallSystem).thread 2).frozen = true := by decide +kernel
  have hlocked : ((after considerateRun smallSystem).lock 0).locked = true := by decide +kernel
  obtain ⟨hfree, hheld, -⟩ := frozen_hold_nothing smallSystem_fresh hreach
  obtain ⟨q, hq, -, hqf⟩ := hheld 0 hlocked
  exact ⟨hfrozen, (hfree 2 hfrozen (by decide +kernel)).1, hlocked, q, hq, hqf⟩

/-- The second process begins an operation, takes a sleep-lock and waits for the disk; the first
freezes it; the disk is done; the first wants the sleep-lock. -/
def frozenRun : List (Action (Fin 2)) :=
  callRun 1 .beginOp 2 ++ callRun 1 (.acquiresleep 0) 2 ++ callRun 1 (.sleep 7) 5 ++
    callRun 0 (.search .freeze 2) 2 ++ [⟨1, .interrupt 7⟩] ++ callRun 0 (.acquiresleep 0) 5

theorem frozen_process_holds :
    Fresh smallSystem ∧ Reach (fun _ _ => True) smallSystem (after frozenRun smallSystem) ∧
    ((after frozenRun smallSystem).thread 1).frozen = true ∧
    ((after frozenRun smallSystem).thread 1).state = .runnable ∧
    holdingsleep (after frozenRun smallSystem) 1 0 = true ∧
    ((after frozenRun smallSystem).thread 1).phase = .inside ∧
    ((after frozenRun smallSystem).thread 0).state = .sleeping ∧
    ((after frozenRun smallSystem).thread 0).chan = some (.sleeplock 0) := by
  refine ⟨smallSystem_fresh, Reach.allowed (by decide +kernel), ?_⟩
  decide +kernel

/-! ## A frozen holder -/

/-- The step does not thaw or kill `q`. -/
def Spares (q : Slot) (s : System ι) (a : Action ι) : Prop :=
  a.op = .proceed → ∀ f pid, (s.thread a.p).pc = .search f pid q.val →
    f.hits pid (s.thread q).proc = true → f = .freeze ∨ f = .getprocstate

theorem critical_of_ne {k : Point ι} (hq : q ≠ p) (hc : critical s p k = .ok s') :
    s'.thread q = s.thread q := by
  cases k with
  | acquiresleep i =>
    cases hc
    unfold acquiresleep
    split <;> exact goto_of_ne hq _ _
  | beginOp =>
    cases hc
    unfold beginOp
    split
    · exact goto_of_ne hq _ _
    · split
      · exact goto_of_ne hq _ _
      · exact (goto_of_ne hq _ _).trans (enter_of_ne hq _ _)
  | endOp =>
    simp only [critical, endOp] at hc
    split at hc
    · cases hc
    · split at hc <;> cases hc <;> exact (goto_of_ne hq _ _).trans (enter_of_ne hq _ _)
  | endCommit =>
    cases hc
    exact (goto_of_ne hq _ _).trans (enter_of_ne hq _ _)
  | logWrite b =>
    simp only [critical, logWrite] at hc
    split at hc
    · cases hc
    · split at hc <;> cases hc
      exact goto_of_ne hq _ _
  | releasesleep i | sleep n | woken n | wakeup n =>
    cases hc
    exact goto_of_ne hq _ _

/-- Others do nothing to a process but wake and signal it. -/
theorem proceed_of_ne (hq : q ≠ p) (hc : proceed s p = some (.ok s')) :
    s'.thread q = s.thread q ∨ (∃ c, s'.thread q = rouse c (s.thread q)) ∨
      ∃ f pid, (s.thread p).pc = .search f pid q.val ∧ f.hits pid (s.thread q).proc = true ∧
        s'.thread q = (s.thread q).signal f := by
  unfold proceed at hc
  cases hpc : (s.thread p).pc with
  | run | asleep k =>
    rw [hpc] at hc
    cases hc
  | spin k =>
    rw [hpc] at hc
    simp only at hc
    split at hc
    · cases hc
      exact .inl (goto_of_ne hq _ _)
    · cases hc
  | crit k =>
    rw [hpc] at hc
    exact .inl (critical_of_ne hq (Option.some.inj hc))
  | sleepLock k | sleepDrop k =>
    rw [hpc] at hc
    cases hc
    exact .inl (goto_of_ne hq _ _)
  | sleepSet k =>
    rw [hpc] at hc
    cases hc
    exact .inl (setThread_of_ne hq _ _)
  | wakeup c i =>
    rw [hpc] at hc
    simp only [Option.map_eq_some_iff, Except.ok.injEq, exists_eq_right, wakeup] at hc
    split at hc
    · next hlt =>
      split at hc
      · cases hc
        exact .inl (goto_of_ne hq _ _)
      · split at hc
        · cases hc
          rw [goto_of_ne hq]
          by_cases hqi : q = ⟨i, hlt⟩
          · subst hqi
            exact .inr (.inl ⟨c, setThread_self _ _ _⟩)
          · exact .inl (setThread_of_ne hqi _ _)
        · cases hc
    · cases hc
      exact .inl (goto_of_ne hq _ _)
  | search f pid i =>
    rw [hpc] at hc
    simp only [Option.map_eq_some_iff, Except.ok.injEq, exists_eq_right, search] at hc
    split at hc
    · next hlt =>
      split at hc
      · split at hc
        · next hhit =>
          cases hc
          rw [goto_of_ne hq]
          by_cases hqi : q = ⟨i, hlt⟩
          · subst hqi
            exact .inr (.inr ⟨f, pid, rfl, hhit, setThread_self _ _ _⟩)
          · exact .inl (setThread_of_ne hqi _ _)
        · cases hc
          exact .inl (goto_of_ne hq _ _)
      · cases hc
    · cases hc
      exact .inl (goto_of_ne hq _ _)

/-- Frozen and off the CPUs. -/
def Parked (x : Thread ι) : Prop := x.frozen = true ∧ x.state ≠ .running

theorem Parked.rouse {x : Thread ι} (hx : Parked x) (c : Chan ι) : Parked (rouse c x) := by
  unfold KernelFreeze.rouse
  split
  · exact ⟨hx.1, nofun⟩
  · exact hx

/-- A parked process stays parked, and the step is not its own. -/
theorem Parked.step (hq : Parked (s.thread q)) (hspare : Spares q s a)
    (ha : act a s = some (.ok s')) :
    Parked (s'.thread q) ∧ (q ≠ a.p ∨ ∃ n, s' = s.setThread q (KernelFreeze.rouse (.device n))) := by
  obtain ⟨p, op⟩ := a
  cases op with
  | dispatch =>
    simp only [act] at ha
    split at ha
    · next hd =>
      cases ha
      have hne : q ≠ p := by
        rintro rfl
        have hfrozen := hq.1
        rw [hd.2.1] at hfrozen
        cases hfrozen
      rw [setThread_of_ne hne]
      exact ⟨hq, .inl hne⟩
    · cases ha
  | yield =>
    simp only [act] at ha
    split at ha
    · next hy =>
      cases ha
      have hne : q ≠ p := by
        rintro rfl
        exact hq.2 hy.1
      rw [setThread_of_ne hne]
      exact ⟨hq, .inl hne⟩
    · cases ha
  | call c =>
    simp only [act] at ha
    split at ha
    · next hrun =>
      have hne : q ≠ p := by
        rintro rfl
        exact hq.2 (atRun_running hrun)
      simp only [Option.map_eq_some_iff, Except.ok.injEq, exists_eq_right] at ha
      have hsame : s'.thread q = s.thread q := by
        cases c with
        | acquiresleep i | logWrite b | sleep n | wakeup n | search f pid | signalSend pid sig =>
          cases ha
          exact goto_of_ne hne _ _
        | releasesleep i | beginOp | endOp | commit =>
          simp only [call] at ha
          split at ha <;> cases ha
          exact goto_of_ne hne _ _
      rw [hsame]
      exact ⟨hq, .inl hne⟩
    · cases ha
  | proceed =>
    simp only [act] at ha
    split at ha
    · next hrun =>
      have hne : q ≠ p := by
        rintro rfl
        exact hq.2 hrun
      refine ⟨?_, .inl hne⟩
      rcases proceed_of_ne hne ha with hsame | ⟨c, hwake⟩ | ⟨f, pid, hpc, hhit, hsig⟩
      · rw [hsame]
        exact hq
      · rw [hwake]
        exact hq.rouse c
      · rw [hsig]
        rcases hspare rfl f pid hpc hhit with rfl | rfl
        · exact ⟨rfl, hq.2⟩
        · exact hq
    · cases ha
  | interrupt n =>
    simp only [act] at ha
    split at ha
    · cases ha
      by_cases hne : q = p
      · subst hne
        rw [setThread_self]
        exact ⟨hq.rouse _, .inr ⟨n, rfl⟩⟩
      · rw [setThread_of_ne hne]
        exact ⟨hq, .inl hne⟩
    · cases ha

/-- As long as it is not thawed or killed, a frozen process off the CPUs keeps the sleep-locks it
holds, whatever the others do. -/
theorem frozen_holder_blocks {u : System ι} {i : ι} (h₀ : Fresh s₀)
    (hr : Reach (fun _ _ => True) s₀ s) (hq : Parked (s.thread q)) (hold : holdingsleep s q i = true)
    (hrun : Reach (Spares q) s u) : Parked (u.thread q) ∧ holdingsleep u q i = true := by
  have hrun' : ∃ h, Inv u h ∧ h.held (some i) = some q ∧ Parked (u.thread q) := by
    induction hrun with
    | refl =>
      obtain ⟨h, hi⟩ := reach_inv h₀ hr
      exact ⟨h, hi, hi.holding hold, hq⟩
    | tail _ hn ih =>
      obtain ⟨h, hi, hheld, hparked⟩ := ih
      obtain ⟨a, hspare, ha⟩ := hn
      obtain ⟨hparked', hne | ⟨n, rfl⟩⟩ := hparked.step hspare ha
      · obtain ⟨h', hmove, hi'⟩ := act_moves hi ha
        exact ⟨h', hi', hmove.keeps hne hheld, hparked'⟩
      · exact ⟨h, hi.rouse q _, hheld, hparked'⟩
  obtain ⟨h, hi, hheld, hparked⟩ := hrun'
  exact ⟨hparked, hi.holding_iff.mpr hheld⟩

theorem frozen_holder_blocks_second : Parked ((after frozenRun smallSystem).thread 1) ∧
    ∀ u, Reach (Spares 1) (after frozenRun smallSystem) u → holdingsleep u 1 0 = true := by
  have hr : Reach (fun _ _ => True) smallSystem (after frozenRun smallSystem) :=
    Reach.allowed (by decide +kernel)
  have hq : Parked ((after frozenRun smallSystem).thread 1) := ⟨by decide +kernel, by decide +kernel⟩
  exact ⟨hq, fun u h => (frozen_holder_blocks smallSystem_fresh hr hq (by decide +kernel) h).2⟩

end KernelFreezeRuns
