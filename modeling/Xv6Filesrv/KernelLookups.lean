import Xv6Filesrv.KernelWait

/-!
# Looking processes up by pid

`kkill`, `kfreeze`, `kthaw`, `kgetprocstate` and `kwaitpid` walk the process table and stop at the
first slot whose pid matches.  Pids are not repeated, so there is at most one such slot among those
in use, and unused slots have pid 0: a walk acts on the process with that pid or on none.
-/

namespace KernelLookups

open KernelPages KernelMemInv KernelShm KernelProc KernelSteps KernelTable KernelSlots KernelBoot
open KernelPids KernelTree KernelWait

variable {ram : Ram} {o : Op} {s s' s₀ : Kernel} {p q : Slot} {pid : Int} {f : Search} {i : Nat}

/-- The process with this pid has slot `q`. -/
def Has (s : Kernel) (pid : Int) (q : Slot) : Prop :=
  (s.proc q).state ≠ .unused ∧ (s.proc q).pid = pid

/-- A step of a search for `pid` that has come to slot `i`. -/
inductive Looks (s : Kernel) (p : Slot) (f : Search) (pid : Int) (i : Nat) (s' : Kernel) : Prop
  | acts (q : Slot) (hq : Has s pid q)
      (h : s' = (s.setProc q f.effect).ret p (f.call pid) (f.answer (s.proc q)))
  | moves (h : s' = s.goto p (.search f pid (i + 1)))
  | misses (hi : 64 ≤ i) (h : s' = s.ret p (f.call pid) (-1))

/-- A step of `kwaitpid` that has come to slot `i` of its scan. -/
inductive Collects (s : Kernel) (p : Slot) (pid : Int) (addr i : Nat) (s' : Kernel) : Prop
  | reaps (q : Slot) (hq : Has s pid q) (hz : (s.proc q).state = .zombie)
      (hproc : s'.proc = Function.update (Function.update s.proc q Proc.free) p
        { s.proc p with pc := .user })
      (h : s'.trace = .ret p (s.proc p).pid (.waitpid pid addr) pid :: s.trace)
  | fails (q : Slot) (hq : Has s pid q) (hz : (s.proc q).state = .zombie)
      (hproc : s'.proc = Function.update s.proc p { s.proc p with pc := .user })
      (h : s'.trace = .ret p (s.proc p).pid (.waitpid pid addr) (-1) :: s.trace)
  | finds (q : Slot) (hq : Has s pid q) (h : ∃ pc, s' = s.goto p pc)
  | moves (h : s' = s.goto p (.crit (.waitScan (some pid) addr (i + 1) false)))
  | misses (hp : (s.proc p).killed = true ∨ ∀ q, Has s pid q → (s.proc q).parent ≠ some p)
      (h : s' = s.leave p (.waitpid pid addr) (-1))

/-! ## Unused slots have pid 0 -/

def Numbered (s : Kernel) : Prop := ∀ q, (s.proc q).state = .unused → (s.proc q).pid = 0

theorem Numbered.step (h : Numbered s) (ht : Table s) (hs : Step o p s s') : Numbered s' := by
  intro q hu
  cases step_change ht hs q with
  | keep hsame => exact hsame.pid.trans (h q (hsame.unused.mp hu))
  | @signal f pid hpc hf huser heq =>
    obtain ⟨pc, heq⟩ := heq
    rw [heq] at hu ⊢
    exact (effect_pid f _).trans (h q ((effect_unused f _).mp hu))
  | fault _ _ _ heq | link _ heq => rw [heq] at hu ⊢; exact h q hu
  | adopt hpc hq heq hwake =>
    obtain ⟨pc, heq⟩ := heq
    rw [heq] at hu ⊢
    exact h q hu
  | allocFailed _ heq | reap _ _ _ _ heq => rw [heq]; rfl
  | alloc _ _ _ heq | publish _ heq | exit _ _ _ heq => rw [heq] at hu; cases hu

theorem Numbered.start (mem : Mem) : Numbered (Kernel.start mem) := by
  intro q hu
  by_cases hq : q = 0
  · rw [hq] at hu
    cases hu
  · simp [Kernel.start, hq, Proc.free]

theorem Numbered.reach {ok : Kernel → Action → Prop} (hb : Booted ram s₀) (hr : Reach ok s₀ s) :
    Table s ∧ Numbered s := by
  refine Reach.invariant (I := fun t => Table t ∧ Numbered t) ⟨hb.table, ?_⟩ ?_ hr
  · obtain ⟨mem, rfl⟩ := hb.start
    exact Numbered.start mem
  · intro t a t' ⟨ht, hn⟩ _ ha
    have hn' : Numbered (t.withFails a.fails) := hn
    exact ⟨Table.act ht ha, hn'.step (Table.withFails ht a.fails) (act_step ha)⟩

/-! ## One step of a lookup -/

theorem hits_has (hn : Numbered s) (hpid : 0 < pid) (h : f.hits pid (s.proc q) = true) :
    Has s pid q := by
  simp only [Search.hits, Bool.and_eq_true, beq_iff_eq] at h
  refine ⟨fun hu => ?_, h.1⟩
  have hzero := hn q hu
  omega

theorem has_hits (h : Has s pid q) : f.hits pid (s.proc q) = true := by
  simp [Search.hits, h.1, h.2]

/-- A step inside the kernel is one of `proceed`. -/
theorem proceed_of_act {a : Action} (hop : a.op = .proceed) (ha : act a s = some (.ok s')) :
    proceed (s.withFails a.fails) a.p = some (.ok s') := by
  unfold act at ha
  rw [hop] at ha
  simp only at ha
  split at ha
  · exact ha
  · cases ha

theorem proceed_search (hpc : (s.proc p).pc = .search f pid i)
    (h : proceed s p = some (.ok s')) : search s p f pid i = some s' := by
  unfold proceed at h
  rw [hpc] at h
  obtain ⟨u, hu, he⟩ := Option.map_eq_some_iff.mp h
  cases he
  exact hu

theorem proceed_waitScan {target : Option Int} {addr : Nat} {havekids : Bool}
    (hpc : (s.proc p).pc = .crit (.waitScan target addr i havekids))
    (h : proceed s p = some (.ok s')) : waitScan s p target addr i havekids = some (.ok s') := by
  unfold proceed at h
  rw [hpc] at h
  exact h

theorem search_looks (hn : Numbered s) (hpid : 0 < pid) (h : search s p f pid i = some s') :
    Looks s p f pid i s' := by
  unfold search at h
  split at h
  · next hi =>
    simp only at h
    split at h
    · split at h
      · next hit =>
        cases h
        exact .acts ⟨i, hi⟩ (hits_has hn hpid hit) rfl
      · cases h
        exact .moves rfl
    · cases h
  · next hi =>
    cases h
    exact .misses (by omega) rfl

theorem wanted_has (hf : Family s) (h : wanted p (some pid) (s.proc q) = true) : Has s pid q := by
  obtain ⟨hparent, hpid⟩ := wanted_iff.mp h
  refine ⟨fun hu => ?_, hpid pid rfl⟩
  cases hparent.symm.trans (hf.unused q hu)

theorem waitScan_collects {addr : Nat} {havekids : Bool} (hf : Family s)
    (hr : (s.proc p).state = .running) (hscan : Scanned s p (some pid) i havekids)
    (h : waitScan s p (some pid) addr i havekids = some (.ok s')) :
    Collects s p pid addr i s' := by
  have hfound : havekids = true → (∃ pc, s' = s.goto p pc) → Collects s p pid addr i s' := by
    intro hk hgo
    obtain ⟨q, hq, -⟩ := hscan.found hk
    exact .finds q (wanted_has hf hq) hgo
  unfold waitScan at h
  split at h
  · next hi =>
    obtain ⟨q, rfl⟩ : ∃ q : Slot, q.val = i := ⟨⟨i, hi⟩, rfl⟩
    simp only [Fin.eta] at h
    split at h
    · next hq =>
      have hhas := wanted_has hf hq
      split at h
      · split at h
        · next hz =>
          obtain ⟨ok, mem, hm, rfl⟩ := onMem_ok (Option.some.inj h)
          cases ok with
          | true =>
            have hp : Function.update s.proc q Proc.free p = s.proc p :=
              Function.update_of_ne (ne_of_state hr hz (by decide)) _ _
            refine .reaps q hhas hz ?_ ?_
            · rw [← hp]
              rfl
            · rw [← hp, ← hhas.2]
              rfl
          | false => exact .fails q hhas hz rfl rfl
        · cases h
          exact .finds q hhas ⟨_, rfl⟩
      · cases h
    · cases h
      cases havekids with
      | true => exact hfound rfl ⟨_, rfl⟩
      | false => exact .moves rfl
  · next hi =>
    split at h
    · next hfail =>
      cases h
      refine .misses ?_ rfl
      rcases hfail with hk | hk
      · refine .inr fun q hq hparent => ?_
        have hnot := hscan.missed hk q (lt_of_lt_of_le q.isLt (by omega))
        rw [wanted_iff.mpr ⟨hparent, fun t ht => hq.2.trans (Option.some.inj ht)⟩] at hnot
        cases hnot
      · exact .inl hk
    · next hwait =>
      cases h
      refine hfound ?_ ⟨_, rfl⟩
      cases havekids with
      | true => rfl
      | false => exact absurd (.inl rfl) hwait

/-! ## Lookups along a run -/

/-- A process with a pid that has been given out before a step was there before it. -/
theorem step_has (ht : Table s) (hp : Pids s) (hs : Step o p s s') (hborn : pid ∈ s.born)
    (h : Has s' pid q) : Has s pid q := by
  rcases step_pid ht hs h.1 with ⟨hlive, hpid⟩ | ⟨-, hpid, -⟩
  · exact ⟨hlive, hpid.symm.trans h.2⟩
  · have hlt := (hp.born pid hborn).2
    rw [← h.2, hpid] at hlt
    exact absurd hlt (lt_irrefl _)

theorem born_le (hs : Step o p s s') : s.born.length ≤ s'.born.length := by
  rcases step_born hs with ⟨hb, -⟩ | ⟨hb, -⟩ <;> simp [hb]

theorem born_mono (hs : Step o p s s') (h : pid ∈ s.born) : pid ∈ s'.born := by
  rcases step_born hs with ⟨hb, -⟩ | ⟨hb, -⟩ <;> simp [hb, h]

theorem step_searching {j : Nat} (hs : Step o p s s') (hpc : (s.proc p).pc = .search f pid j)
    (hpc' : (s'.proc p).pc = .search f pid i) :
    i = j ∨ ∃ q : Slot, q.val = j ∧ i = j + 1 ∧ f.hits pid (s.proc q) = false := by
  have hmoves := step_moves hs
  rw [hpc, hpc'] at hmoves
  cases hmoves with
  | stay => exact .inl rfl
  | flow hf =>
    cases hf with
    | @searchNext _ _ q hq => exact .inr ⟨q, rfl, rfl, hq⟩

/-- The slots that a search has passed do not have the process. -/
def Passed (s : Kernel) (p : Slot) (f : Search) (pid : Int) : Prop :=
  ∀ i, (s.proc p).pc = .search f pid i → ∀ q : Slot, q.val < i → ¬Has s pid q

theorem Passed.step {r : Slot} (h : Passed s p f pid) (ht : Table s) (hp : Pids s)
    (hs : Step o r s s') (hborn : pid ∈ s.born) (hpc : ∃ j, (s.proc p).pc = .search f pid j) :
    Passed s' p f pid := by
  intro i hpc' q hq hhas
  have hold := step_has ht hp hs hborn hhas
  obtain ⟨j, hpc⟩ := hpc
  by_cases hpr : p = r
  · subst hpr
    rcases step_searching hs hpc hpc' with rfl | ⟨u, hu, hi, hmiss⟩
    · exact h i hpc q hq hold
    · by_cases hqu : q = u
      · rw [hqu] at hold
        rw [has_hits hold] at hmiss
        cases hmiss
      · have hne := Fin.val_ne_of_ne hqu
        exact h j hpc q (by omega) hold
  · rcases touch_pc hs hpr with hsame | huser
    · exact h i (hsame.symm.trans hpc') q hq hold
    · cases huser.symm.trans hpc'

/-- A fact about a pid that has been given out holds along a run if every step keeps it, as long as
pids identify processes. -/
theorem keep_born {P : Kernel → Prop} {ok : Kernel → Action → Prop} {t : Kernel}
    (hb : Booted ram s₀) (ht : Reach (fun _ _ => True) s₀ t) (hborn : pid ∈ t.born) (hP : P t)
    (hstep : ∀ (u : Kernel) a u', KernelTable.Table (u.withFails a.fails) →
      Pids (u.withFails a.fails) → pid ∈ u.born → ok u a →
      Step a.op a.p (u.withFails a.fails) u' → P u → P u')
    (hr : Reach ok t s) (hn : s.born.length < 2147483647) : P s := by
  have hinv : (Reach (fun _ _ => True) s₀ s ∧ pid ∈ s.born) ∧ (s.born.length < 2147483647 → P s) := by
    refine Reach.invariant (I := fun u => (Reach (fun _ _ => True) s₀ u ∧ pid ∈ u.born) ∧
      (u.born.length < 2147483647 → P u)) ⟨⟨ht, hborn⟩, fun _ => hP⟩ ?_ hr
    intro u a u' ⟨⟨hu, hbu⟩, hPu⟩ hok ha
    have hs := act_step ha
    refine ⟨⟨.tail hu ⟨a, trivial, ha⟩, born_mono hs hbu⟩, fun hn' => ?_⟩
    have hle : (u.withFails a.fails).born.length ≤ u'.born.length := born_le hs
    have hnu : u.born.length < 2147483647 := lt_of_le_of_lt hle hn'
    exact hstep u a u' (Table.withFails (Family.reach hb hu).1 a.fails)
      ((Pids.reach hb hu hnu).withFails a.fails) hbu hok hs (hPu hnu)
  exact hinv.2 hn

/-- Pids are positive and distinct and none is given twice.  A lookup acts on the process with the
pid or passes on; a search that began when the pid had been given out has missed the process only if
it is gone, and then it stays so. -/
theorem pids_identify (hb : Booted ram s₀) (hr : Reach (fun _ _ => True) s₀ s)
    (hn : s.born.length < 2147483647) :
    (∀ q, (s.proc q).state ≠ .unused → 0 < (s.proc q).pid ∧ (s.proc q).pid ∈ s.born) ∧
    (∀ q r, (s.proc q).state ≠ .unused → (s.proc r).state ≠ .unused →
      (s.proc q).pid = (s.proc r).pid → q = r) ∧
    s.born.Nodup ∧
    (∀ a s' f pid i, 0 < pid → (s.proc a.p).pc = .search f pid i → a.op = .proceed →
      act a s = some (.ok s') → Looks (s.withFails a.fails) a.p f pid i s') ∧
    (∀ a s' pid addr i havekids, (s.proc a.p).pc = .crit (.waitScan (some pid) addr i havekids) →
      a.op = .proceed → act a s = some (.ok s') →
      Collects (s.withFails a.fails) a.p pid addr i s') ∧
    (∀ t p f pid i, Reach (fun _ _ => True) s₀ t → pid ∈ t.born → (t.proc p).pc = .search f pid 0 →
      Reach (fun u _ => ∃ j, (u.proc p).pc = .search f pid j) t s →
      (s.proc p).pc = .search f pid i → ∀ q : Slot, q.val < i → ¬Has s pid q) ∧
    (∀ t pid, Reach (fun _ _ => True) s₀ t → pid ∈ t.born → (∀ q, ¬Has t pid q) →
      Reach (fun _ _ => True) t s → ∀ q, ¬Has s pid q) := by
  have hpids := Pids.reach hb hr hn
  obtain ⟨⟨ht, hfam⟩, hwait⟩ := Waiting.reach hb hr
  obtain ⟨-, hnum⟩ := Numbered.reach hb hr
  refine ⟨?_, hpids.distinct, hpids.nodup, ?_, ?_, ?_, ?_⟩
  · intro q hq
    have hborn := hpids.live q hq
    exact ⟨by linarith [(hpids.born _ hborn).1], hborn⟩
  · intro a s' f pid i hpid hpc hop ha
    have hnum' : Numbered (s.withFails a.fails) := hnum
    exact search_looks hnum' hpid (proceed_search hpc (proceed_of_act hop ha))
  · intro a s' pid addr i havekids hpc hop ha
    have hscan := (hwait.withFails a.fails).scan a.p _ _ _ _ hpc
    exact waitScan_collects (hfam.withFails a.fails) (crit_running (ht.tidy a.p) hpc) hscan
      (proceed_waitScan hpc (proceed_of_act hop ha))
  · intro t p f pid i hrt hborn hstart hrun
    have hpassed : Passed t p f pid := by
      intro j hj
      cases hstart.symm.trans hj
      exact fun q hq => absurd hq (by omega)
    refine keep_born (P := fun u => Passed u p f pid) hb hrt hborn hpassed ?_ hrun hn i
    intro u a u' htu hpu hbu hok hs hP
    have hP' : Passed (u.withFails a.fails) p f pid := hP
    exact hP'.step htu hpu hs hbu hok
  · intro t pid hrt hborn hgone hrun
    refine keep_born (P := fun u => ∀ q, ¬Has u pid q) hb hrt hborn hgone ?_ hrun hn
    intro u a u' htu hpu hbu _ hs hP q hq
    have hold : Has (u.withFails a.fails) pid q := step_has htu hpu hs hbu hq
    exact hP q hold

/-- The first process forks and is about to look for its child. -/
def killingRun : List Action := callRun 0 .fork 6 ++ [callBy 0 (.kill 2)]

theorem pids_identify_child :
    Has (after killingRun smallKernel) 2 1 ∧ ∀ q, Has (after killingRun smallKernel) 2 q → q = 1 := by
  have hreach : Reach (fun _ _ => True) smallKernel (after killingRun smallKernel) :=
    Reach.after (fun _ _ _ => trivial) (by decide +kernel)
  have hchild : Has (after killingRun smallKernel) 2 1 := ⟨by decide +kernel, by decide +kernel⟩
  obtain ⟨-, hdistinct, -⟩ := pids_identify smallKernel_booted hreach (by decide +kernel)
  refine ⟨hchild, fun q hq => ?_⟩
  exact hdistinct q 1 hq.1 hchild.1 (hq.2.trans hchild.2.symm)

end KernelLookups
