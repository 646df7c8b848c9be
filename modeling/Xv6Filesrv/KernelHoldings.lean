import Xv6Filesrv.StateWp
import Xv6Filesrv.Custody
import Xv6Filesrv.KernelFreeze

/-!
# What processes hold

Who holds which sleep-lock, who is inside an operation of the log, who commits and who is frozen.
Every step of the system is a move of these holdings in the sense of `Custody`: sleep-locks and the
right to commit are resources, an operation is a section, freezing stops a process.
-/

namespace KernelHoldings

open Custody KernelShm KernelFreeze
open KernelProc (Search)

variable {ι : Type} {careful : Prop}

/-! ## Holdings -/

/-- Who holds which sleep-lock, who holds the right to commit (`none`), who is inside an operation
and who is frozen. -/
abbrev Holdings (ι : Type) := Custody.State Slot (Option ι)

/-- The point at which a process is or to which it returns from `sleep`. -/
def point : Pc ι → Option (Point ι)
  | .spin k | .crit k | .sleepLock k | .sleepDrop k | .sleepSet k | .asleep k => some k
  | .run | .wakeup _ _ | .search _ _ _ => none

/-- What is known of a process at a point. -/
def Fits (h : Holdings ι) (q : Slot) : Point ι → Prop
  | .releasesleep i => h.held (some i) = some q
  | .beginOp => h.inside q = false ∧ h.held none ≠ some q
  | .endOp => h.inside q = true
  | .endCommit => h.held none = some q
  | _ => True

/-- The holdings `h` are those of the system `s`. -/
structure Inv (s : System ι) (h : Holdings ι) : Prop where
  pids : ∀ q r, (s.thread q).state ≠ .unused → (s.thread q).pid = (s.thread r).pid → q = r
  locked : ∀ i, (s.lock i).locked = (h.held (some i)).isSome
  holder : ∀ i q, h.held (some i) = some q →
    (s.lock i).pid = (s.thread q).pid ∧ (s.thread q).state ≠ .unused
  inside : ∀ q, (s.thread q).phase = .inside ↔ h.inside q = true
  committer : ∀ q, (s.thread q).phase = .committing ↔ h.held none = some q
  outstanding : s.log.outstanding = ∑ q, if h.inside q then 1 else 0
  committing : s.log.committing = (h.held none).isSome
  alone : h.held none ≠ none → ∀ q, h.inside q = false
  stopped : ∀ q, h.stopped q = (s.thread q).frozen
  fits : ∀ q k, point (s.thread q).pc = some k → Fits h q k

variable {s s' : System ι} {h h' : Holdings ι} {p q : Slot} {a : Action ι}

/-- A change of a thread that is about scheduling. -/
structure Quiet (h : Holdings ι) (q : Slot) (x y : Thread ι) : Prop where
  pid : y.pid = x.pid
  phase : y.phase = x.phase
  frozen : y.frozen = x.frozen
  unused : y.state = .unused ↔ x.state = .unused
  fits : ∀ k, point y.pc = some k → Fits h q k

theorem Inv.quiet (hi : Inv s h) (hs : ∀ q, Quiet h q (s.thread q) (s'.thread q))
    (hlock : s'.lock = s.lock) (hout : s'.log.outstanding = s.log.outstanding)
    (hcom : s'.log.committing = s.log.committing) : Inv s' h := by
  constructor
  · intro q r hq hpid
    rw [(hs q).pid, (hs r).pid] at hpid
    exact hi.pids q r (fun hu => hq ((hs q).unused.mpr hu)) hpid
  · rw [hlock]
    exact hi.locked
  · intro i q hq
    obtain ⟨hpid, hu⟩ := hi.holder i q hq
    rw [hlock, (hs q).pid]
    exact ⟨hpid, fun hu' => hu ((hs q).unused.mp hu')⟩
  · intro q
    rw [(hs q).phase]
    exact hi.inside q
  · intro q
    rw [(hs q).phase]
    exact hi.committer q
  · rw [hout]
    exact hi.outstanding
  · rw [hcom]
    exact hi.committing
  · exact hi.alone
  · intro q
    rw [(hs q).frozen]
    exact hi.stopped q
  · exact fun q k hk => (hs q).fits k hk

theorem Inv.quiet_self (hi : Inv s h) (q : Slot) : Quiet h q (s.thread q) (s.thread q) :=
  ⟨rfl, rfl, rfl, Iff.rfl, hi.fits q⟩

@[simp] theorem setThread_self (s : System ι) (p : Slot) (f : Thread ι → Thread ι) :
    (s.setThread p f).thread p = f (s.thread p) := by
  simp [System.setThread]

theorem setThread_of_ne (hq : q ≠ p) (s : System ι) (f : Thread ι → Thread ι) :
    (s.setThread p f).thread q = s.thread q := by
  simp [System.setThread, hq]

theorem Inv.setThread (hi : Inv s h) {f : Thread ι → Thread ι}
    (hp : Quiet h p (s.thread p) (f (s.thread p))) : Inv (s.setThread p f) h := by
  refine hi.quiet (fun q => ?_) rfl rfl rfl
  by_cases hq : q = p
  · rw [hq, setThread_self]
    exact hp
  · rw [setThread_of_ne hq]
    exact hi.quiet_self q

theorem Inv.goto (hi : Inv s h) {pc : Pc ι} (hpc : ∀ k, point pc = some k → Fits h p k) :
    Inv (s.goto p pc) h :=
  hi.setThread ⟨rfl, rfl, rfl, Iff.rfl, hpc⟩

/-- The process goes on at the same point. -/
theorem Inv.stay (hi : Inv s h) {pc : Pc ι} (hpc : point pc = point (s.thread p).pc) :
    Inv (s.goto p pc) h :=
  hi.goto fun k hk => hi.fits p k (hpc ▸ hk)

theorem Inv.spin (hi : Inv s h) (spin : Chan ι → Option Slot) : Inv { s with spin := spin } h :=
  ⟨hi.pids, hi.locked, hi.holder, hi.inside, hi.committer, hi.outstanding, hi.committing, hi.alone,
    hi.stopped, hi.fits⟩

theorem Inv.blocks (hi : Inv s h) (bs : List Nat) :
    Inv (s.setLog { s.log with blocks := bs }) h :=
  ⟨hi.pids, hi.locked, hi.holder, hi.inside, hi.committer, hi.outstanding, hi.committing, hi.alone,
    hi.stopped, hi.fits⟩

theorem Inv.resume (hi : Inv s h) (hr : (s.thread p).state = .runnable) :
    Inv (s.setThread p Thread.resume) h := by
  apply hi.setThread
  have hfits := hi.fits p
  unfold Thread.resume
  split
  · next k hk =>
    rw [hk] at hfits
    exact ⟨rfl, rfl, rfl, by simp [hr], hfits⟩
  · exact ⟨rfl, rfl, rfl, by simp [hr], hfits⟩

/-- A process that `holdingsleep` says holds the lock. -/
theorem Inv.holding {i : ι} (hi : Inv s h) (hh : holdingsleep s p i = true) :
    h.held (some i) = some p := by
  simp only [holdingsleep, Bool.and_eq_true, beq_iff_eq] at hh
  rw [hi.locked] at hh
  obtain ⟨q, hq⟩ := Option.isSome_iff_exists.mp hh.1
  obtain ⟨hpid, hu⟩ := hi.holder i q hq
  rw [hq, hi.pids q p hu (hpid.symm.trans hh.2)]

theorem Inv.holding_iff {i : ι} (hi : Inv s h) :
    holdingsleep s p i = true ↔ h.held (some i) = some p := by
  refine ⟨hi.holding, fun hq => ?_⟩
  simp [holdingsleep, hi.locked, hq, (hi.holder i p hq).1]

/-! ## Operations -/

theorem fits_congr {k : Point ι} (hk : Fits h q k)
    (hheld : ∀ i, h'.held (some i) = h.held (some i)) (hin : h'.inside q = h.inside q)
    (hcommit : h'.held none = some q ↔ h.held none = some q) : Fits h' q k := by
  cases k with
  | releasesleep i => exact (hheld i).trans hk
  | beginOp => exact ⟨hin.trans hk.1, fun he => hk.2 (hcommit.mp he)⟩
  | endOp => exact hin.trans hk
  | endCommit => exact hcommit.mpr hk
  | _ => trivial

/-- Process `p` passes a border between the phases. -/
theorem Inv.phase {ph : Phase} {pc : Pc ι} (hi : Inv s h)
    (hs : s'.thread = Function.update s.thread p { s.thread p with phase := ph, pc := pc })
    (hidle : point pc = none) (hlock : s'.lock = s.lock)
    (hheld : ∀ i, h'.held (some i) = h.held (some i)) (hstop : h'.stopped = h.stopped)
    (hothers : ∀ q, q ≠ p → h'.inside q = h.inside q ∧
      (h'.held none = some q ↔ h.held none = some q))
    (hin : ph = .inside ↔ h'.inside p = true) (hcommit : ph = .committing ↔ h'.held none = some p)
    (hout : s'.log.outstanding = ∑ q, if h'.inside q then 1 else 0)
    (hcom : s'.log.committing = (h'.held none).isSome)
    (halone : h'.held none ≠ none → ∀ q, h'.inside q = false) : Inv s' h' := by
  have hself : s'.thread p = { s.thread p with phase := ph, pc := pc } := by
    rw [hs, Function.update_self]
  have hother : ∀ q, q ≠ p → s'.thread q = s.thread q := by
    intro q hq
    rw [hs, Function.update_of_ne hq]
  have hsame : ∀ q, (s'.thread q).pid = (s.thread q).pid ∧ (s'.thread q).state = (s.thread q).state ∧
      (s'.thread q).frozen = (s.thread q).frozen := by
    intro q
    by_cases hq : q = p
    · rw [hq, hself]
      exact ⟨rfl, rfl, rfl⟩
    · rw [hother q hq]
      exact ⟨rfl, rfl, rfl⟩
  constructor
  · intro q r hq hpid
    rw [(hsame q).2.1] at hq
    rw [(hsame q).1, (hsame r).1] at hpid
    exact hi.pids q r hq hpid
  · intro i
    rw [hlock, hheld]
    exact hi.locked i
  · intro i q hq
    rw [hheld] at hq
    rw [hlock, (hsame q).1, (hsame q).2.1]
    exact hi.holder i q hq
  · intro q
    by_cases hq : q = p
    · rw [hq, hself]
      exact hin
    · rw [hother q hq, (hothers q hq).1]
      exact hi.inside q
  · intro q
    by_cases hq : q = p
    · rw [hq, hself]
      exact hcommit
    · rw [hother q hq, (hothers q hq).2]
      exact hi.committer q
  · exact hout
  · exact hcom
  · exact halone
  · intro q
    rw [hstop, (hsame q).2.2]
    exact hi.stopped q
  · intro q k hk
    by_cases hq : q = p
    · rw [hq, hself] at hk
      cases hidle.symm.trans hk
    · rw [hother q hq] at hk
      exact fits_congr (hi.fits q k hk) hheld (hothers q hq).1 (hothers q hq).2

/-- How many processes are inside changes with the one that passes the border. -/
theorem count_mark (h : Holdings ι) {b : Bool} (hb : h.inside p = !b) :
    (∑ q, if (h.mark p b).inside q then (1 : Int) else 0) =
      (∑ q, if h.inside q then 1 else 0) + if b then 1 else -1 := by
  have hsum := StateWp.sum_update Finset.univ (fun b : Bool => if b then (1 : Int) else 0)
    h.inside p b (Finset.mem_univ p)
  change (∑ q, if (h.mark p b).inside q then (1 : Int) else 0) + _ = _ at hsum
  rw [hb] at hsum
  cases b with
  | true =>
    simp only [Bool.not_true, Bool.false_eq_true, if_false, if_true, add_zero] at hsum ⊢
    exact hsum
  | false =>
    simp only [Bool.not_false, Bool.false_eq_true, if_false, if_true, add_zero] at hsum ⊢
    omega

/-- Nobody is inside if the count says so. -/
theorem nobody_inside (h : Holdings ι) (hz : (∑ q, if h.inside q then (1 : Int) else 0) = 0)
    (q : Slot) : h.inside q = false := by
  have hnonneg : ∀ r ∈ Finset.univ, 0 ≤ if h.inside r then (1 : Int) else 0 := by
    intro r _
    split <;> omega
  have hq := (Finset.sum_eq_zero_iff_of_nonneg hnonneg).mp hz q (Finset.mem_univ q)
  by_contra hin
  simp [hin] at hq

theorem enter_goto_thread (s : System ι) (p : Slot) (ph : Phase) (pc : Pc ι) :
    ((s.enter p ph).goto p pc).thread =
      Function.update s.thread p { s.thread p with phase := ph, pc := pc } := by
  simp [System.enter, System.goto, System.setThread]

/-- Nobody commits while a process is inside. -/
theorem Inv.not_committing (hi : Inv s h) (hin : h.inside p = true) : h.held none = none := by
  by_contra hne
  rw [hi.alone hne p] at hin
  cases hin

theorem Inv.finish (hi : Inv s h) (hin : h.inside p = true) :
    Inv (((s.setLog { s.log with outstanding := s.log.outstanding - 1 }).enter p .outside).goto p
      (.wakeup .log 0)) (h.mark p false) := by
  have hnone := hi.not_committing hin
  refine hi.phase (enter_goto_thread _ p .outside _) rfl rfl (fun _ => rfl) rfl ?_ ?_ ?_ ?_ ?_ ?_
  · exact fun q hq => ⟨mark_other hq, Iff.rfl⟩
  · simp
  · simp [hnone]
  · rw [count_mark h hin, ← hi.outstanding]
    rfl
  · exact hi.committing
  · exact fun hne => absurd hnone hne

theorem signal_unused (x : Thread ι) (f : Search) :
    (x.signal f).state = .unused ↔ x.state = .unused := by
  cases f with
  | kill =>
    by_cases hs : x.state = .sleeping <;> simp [Thread.signal, Thread.proc, Search.effect, hs]
  | freeze | thaw | getprocstate => exact Iff.rfl

/-- `kkill`, `kfreeze` and `kthaw` change no holdings. -/
theorem Inv.signal (hi : Inv s h) {f : Search} {stopped : Slot → Bool}
    (hq : stopped q = ((s.thread q).signal f).frozen)
    (hothers : ∀ r, r ≠ q → stopped r = h.stopped r) :
    Inv (s.setThread q fun x => x.signal f) { h with stopped := stopped } := by
  have hsame : ∀ r, ((s.setThread q fun x => x.signal f).thread r).pid = (s.thread r).pid ∧
      ((s.setThread q fun x => x.signal f).thread r).phase = (s.thread r).phase ∧
      ((s.setThread q fun x => x.signal f).thread r).pc = (s.thread r).pc ∧
      (((s.setThread q fun x => x.signal f).thread r).state = .unused ↔
        (s.thread r).state = .unused) := by
    intro r
    by_cases hr : r = q
    · rw [hr, setThread_self]
      exact ⟨rfl, rfl, rfl, signal_unused _ f⟩
    · rw [setThread_of_ne hr]
      exact ⟨rfl, rfl, rfl, Iff.rfl⟩
  constructor
  · intro r r' hr hpid
    rw [(hsame r).1, (hsame r').1] at hpid
    exact hi.pids r r' (fun hu => hr ((hsame r).2.2.2.mpr hu)) hpid
  · exact hi.locked
  · intro i r hr
    obtain ⟨hpid, hu⟩ := hi.holder i r hr
    exact ⟨hpid.trans (hsame r).1.symm, fun hu' => hu ((hsame r).2.2.2.mp hu')⟩
  · intro r
    rw [(hsame r).2.1]
    exact hi.inside r
  · intro r
    rw [(hsame r).2.1]
    exact hi.committer r
  · exact hi.outstanding
  · exact hi.committing
  · exact hi.alone
  · intro r
    by_cases hr : r = q
    · rw [hr, setThread_self]
      exact hq
    · rw [setThread_of_ne hr]
      exact (hothers r hr).trans (hi.stopped r)
  · intro r k hk
    rw [(hsame r).2.2.1] at hk
    exact hi.fits r k hk

/-! ## Taking and giving back -/

variable [DecidableEq ι]

theorem Inv.leave (hi : Inv s h) (c : Chan ι) : Inv (s.leave p c) h :=
  Inv.goto (hi.spin _) nofun

theorem Inv.rouse (hi : Inv s h) (q : Slot) (c : Chan ι) : Inv (s.setThread q (rouse c)) h := by
  apply hi.setThread
  unfold KernelFreeze.rouse
  split
  · next hs => exact ⟨rfl, rfl, rfl, by simp [hs.1], hi.fits q⟩
  · exact hi.quiet_self q

@[simp] theorem setLock_self (s : System ι) (i : ι) (lk : Sleeplock) :
    (s.setLock i lk).lock i = lk := by
  simp [System.setLock]

theorem setLock_of_ne {i j : ι} (hj : j ≠ i) (s : System ι) (lk : Sleeplock) :
    (s.setLock i lk).lock j = s.lock j := by
  simp [System.setLock, hj]

/-- A sleep-lock changes hands. -/
theorem Inv.setLock {i : ι} {lk : Sleeplock} {o : Option Slot} (hi : Inv s h)
    (hlocked : lk.locked = o.isSome)
    (hholder : ∀ q, o = some q → lk.pid = (s.thread q).pid ∧ (s.thread q).state ≠ .unused)
    (hrelease : ∀ q, point (s.thread q).pc = some (.releasesleep i) → o = some q) :
    Inv (s.setLock i lk) (h.give (some i) o) := by
  have hnone : (h.give (some i) o).held none = h.held none := give_other nofun
  have hlock : ∀ j, j ≠ i → (h.give (some i) o).held (some j) = h.held (some j) :=
    fun j hj => give_other fun he => hj (Option.some.inj he)
  constructor
  · exact hi.pids
  · intro j
    by_cases hj : j = i
    · rw [hj, setLock_self, give_self]
      exact hlocked
    · rw [hlock j hj, ← hi.locked j, setLock_of_ne hj]
  · intro j q hq
    by_cases hj : j = i
    · rw [hj, give_self] at hq
      rw [hj, setLock_self]
      exact hholder q hq
    · rw [hlock j hj] at hq
      rw [setLock_of_ne hj]
      exact hi.holder j q hq
  · exact hi.inside
  · rw [hnone]
    exact hi.committer
  · exact hi.outstanding
  · rw [hnone]
    exact hi.committing
  · rw [hnone]
    exact hi.alone
  · exact hi.stopped
  · intro q k hk
    have hold := hi.fits q k hk
    cases k with
    | releasesleep j =>
      by_cases hj : j = i
      · subst hj
        exact give_self.trans (hrelease q hk)
      · exact (hlock j hj).trans hold
    | beginOp => exact ⟨hold.1, hnone ▸ hold.2⟩
    | endOp => exact hold
    | endCommit => exact hnone.trans hold
    | _ => trivial

theorem Inv.take {i : ι} (hi : Inv s h) (hfree : h.held (some i) = none)
    (hu : (s.thread p).state ≠ .unused) :
    Inv (s.setLock i ⟨true, (s.thread p).pid⟩) (h.give (some i) (some p)) := by
  refine hi.setLock rfl (fun q hq => ?_) (fun q hq => ?_)
  · cases hq
    exact ⟨rfl, hu⟩
  · cases hfree.symm.trans (hi.fits q _ hq)

/-- The holder gives the lock back as it moves on to `wakeup`. -/
theorem Inv.drop {i : ι} {pc : Pc ι} (hi : Inv s h) (hheld : h.held (some i) = some p)
    (hidle : point pc = none) :
    Inv ((s.setLock i ⟨false, 0⟩).goto p pc) (h.give (some i) none) := by
  have hgone : Inv (s.goto p pc) h := hi.goto fun k hk => by
    rw [hidle] at hk
    cases hk
  refine hgone.setLock rfl nofun fun q hq => ?_
  cases hheld.symm.trans (hgone.fits q _ hq)
  rw [System.goto, setThread_self, hidle] at hq
  cases hq

theorem Inv.begin (hi : Inv s h) (hfits : Fits h p .beginOp) (hcom : s.log.committing = false) :
    Inv (((s.setLog { s.log with outstanding := s.log.outstanding + 1 }).enter p .inside).leave p
      .log) (h.mark p true) := by
  have hnone : h.held none = none := by
    rw [hi.committing] at hcom
    simpa using hcom
  refine hi.phase (enter_goto_thread _ p .inside .run) rfl rfl (fun _ => rfl) rfl ?_ ?_ ?_ ?_ ?_ ?_
  · exact fun q hq => ⟨mark_other hq, Iff.rfl⟩
  · simp
  · simp [hnone]
  · rw [count_mark h hfits.1, if_pos rfl, ← hi.outstanding]
    rfl
  · exact hi.committing
  · exact fun hne => absurd hnone hne

/-- The last process to leave commits. -/
theorem Inv.convert (hi : Inv s h) (hin : h.inside p = true) (hlast : s.log.outstanding - 1 = 0) :
    Inv (((s.setLog { s.log with outstanding := s.log.outstanding - 1, committing := true }).enter p
      .committing).leave p .log) ((h.mark p false).give none (some p)) := by
  have hcount : (∑ q, if (h.mark p false).inside q then (1 : Int) else 0) = 0 := by
    rw [count_mark h hin, ← hi.outstanding]
    exact hlast
  have hnone := hi.not_committing hin
  refine hi.phase (enter_goto_thread _ p .committing .run) rfl rfl (fun _ => give_other nofun) rfl
    ?_ ?_ ?_ ?_ ?_ ?_
  · intro q hq
    refine ⟨mark_other hq, ?_⟩
    rw [give_self, hnone]
    exact iff_of_false (fun he => hq (Option.some.inj he).symm) nofun
  · simp
  · simp
  · exact hlast.trans hcount.symm
  · rw [give_self]
    rfl
  · exact fun _ q => nobody_inside _ hcount q

theorem Inv.endCommit (hi : Inv s h) (hheld : h.held none = some p) :
    Inv (endCommit s p) (h.give none none) := by
  have hin : h.inside p = false := hi.alone (by simp [hheld]) p
  refine hi.phase (enter_goto_thread _ p .outside _) rfl rfl (fun _ => give_other nofun) rfl
    ?_ ?_ ?_ ?_ ?_ ?_
  · intro q hq
    refine ⟨rfl, ?_⟩
    rw [give_self, hheld]
    exact iff_of_false nofun fun he => hq (Option.some.inj he).symm
  · simp [hin]
  · simp
  · exact hi.outstanding
  · rw [give_self]
    rfl
  · exact fun hne => absurd give_self hne

/-! ## Every step is a move of the holdings -/

/-- The step does not freeze a process that holds a sleep-lock or is between `begin_op` and the end
of `end_op`, and no frozen process takes a sleep-lock or begins an operation by it. -/
def Considerate (s : System ι) (a : Action ι) : Prop :=
  match a.op, (s.thread a.p).pc with
  | .proceed, .search .freeze pid i => ∀ q : Slot, q.val = i →
      Search.freeze.hits pid (s.thread q).proc = true →
      (∀ j, holdingsleep s q j = false) ∧ (s.thread q).phase = .outside
  | .proceed, .crit (.acquiresleep i) =>
      (s.lock i).locked = false → (s.thread a.p).frozen = false
  | .proceed, .crit .beginOp =>
      s.log.committing = false → s.log.full = false → (s.thread a.p).frozen = false
  | _, _ => True

/-- The step is taken from holdings `h` to some holdings of `s'`. -/
def Moves (careful : Prop) (h : Holdings ι) (p : Slot) (s' : System ι) : Prop :=
  ∃ h', Custody.Step careful h p h' ∧ Inv s' h'

theorem Inv.moves (hi : Inv s h) : Moves careful h p s := ⟨h, .skip, hi⟩

theorem call_moves {c : Call ι} (hi : Inv s h) (hc : call s p c = some s') :
    Moves careful h p s' := by
  cases c with
  | acquiresleep i | logWrite b | sleep n | wakeup n =>
    cases hc
    refine (hi.goto fun k hk => ?_).moves
    cases hk
    trivial
  | search f pid =>
    cases hc
    exact Inv.moves (hi.goto nofun)
  | signalSend pid sig =>
    cases hc
    refine (hi.goto fun k hk => ?_).moves
    unfold ksignalSend at hk
    split at hk
    · cases hk
    · split at hk
      · cases hk
      · split at hk <;> cases hk
  | releasesleep i =>
    simp only [call] at hc
    split at hc
    · next hh =>
      cases hc
      refine (hi.goto fun k hk => ?_).moves
      cases hk
      exact hi.holding hh
    · cases hc
  | beginOp =>
    simp only [call] at hc
    split at hc
    · next hph =>
      cases hc
      refine (hi.goto fun k hk => ?_).moves
      cases hk
      constructor
      · rw [← Bool.not_eq_true, ← hi.inside, hph]
        exact nofun
      · rw [ne_eq, ← hi.committer, hph]
        exact nofun
    · cases hc
  | endOp =>
    simp only [call] at hc
    split at hc
    · next hph =>
      cases hc
      refine (hi.goto fun k hk => ?_).moves
      cases hk
      exact (hi.inside p).mp hph
    · cases hc
  | commit =>
    simp only [call] at hc
    split at hc
    · next hph =>
      cases hc
      refine ((hi.blocks []).goto fun k hk => ?_).moves
      cases hk
      exact (hi.committer p).mp hph
    · cases hc

theorem critical_moves {k : Point ι} (hi : Inv s h) (hr : (s.thread p).state = .running)
    (hpc : (s.thread p).pc = .crit k)
    (hlock : ∀ i, k = .acquiresleep i → (s.lock i).locked = false → careful →
      (s.thread p).frozen = false)
    (hbegin : k = .beginOp → s.log.committing = false → s.log.full = false → careful →
      (s.thread p).frozen = false)
    (hc : critical s p k = .ok s') : Moves careful h p s' := by
  have hfits : Fits h p k := hi.fits p k (by rw [hpc]; rfl)
  have hstay : Inv (s.goto p (.sleepLock k)) h := hi.stay (by rw [hpc]; rfl)
  have hstopped : (careful → (s.thread p).frozen = false) → careful → h.stopped p = false :=
    fun hf hcare => (hi.stopped p).trans (hf hcare)
  cases k with
  | acquiresleep i =>
    cases hc
    unfold acquiresleep
    split
    · exact hstay.moves
    · next hl =>
      simp only [Bool.not_eq_true] at hl
      have hfree : h.held (some i) = none := by
        rw [hi.locked] at hl
        simpa using hl
      refine ⟨_, .take (some i) hfree (hstopped (hlock i rfl hl)), ?_⟩
      exact (hi.take hfree (by simp [hr])).leave _
  | releasesleep i =>
    cases hc
    exact ⟨_, .drop (some i) hfits, hi.drop hfits rfl⟩
  | beginOp =>
    cases hc
    unfold beginOp
    split
    · exact hstay.moves
    · next hcom =>
      simp only [Bool.not_eq_true] at hcom
      split
      · exact hstay.moves
      · next hfull =>
        simp only [Bool.not_eq_true] at hfull
        exact ⟨_, .enter hfits.1 (hstopped (hbegin rfl hcom hfull)), hi.begin hfits hcom⟩
  | endOp =>
    simp only [critical, endOp] at hc
    split at hc
    · cases hc
    · split at hc
      · next hlast =>
        cases hc
        exact ⟨_, .convert none hfits (hi.not_committing hfits), hi.convert hfits hlast⟩
      · cases hc
        exact ⟨_, .leave hfits, hi.finish hfits⟩
  | endCommit =>
    cases hc
    exact ⟨_, .drop none hfits, hi.endCommit hfits⟩
  | logWrite b =>
    simp only [critical, logWrite] at hc
    split at hc
    · cases hc
    · split at hc
      · cases hc
      · cases hc
        exact ((hi.blocks _).leave _).moves
  | sleep n =>
    cases hc
    refine (hi.goto fun k hk => ?_).moves
    cases hk
    trivial
  | woken n =>
    cases hc
    exact (hi.leave _).moves
  | wakeup n =>
    cases hc
    exact Inv.moves (hi.goto nofun)

theorem wakeup_moves {c : Chan ι} {i : Nat} (hi : Inv s h) (hw : wakeup s p c i = some s') :
    Moves careful h p s' := by
  simp only [wakeup] at hw
  split at hw
  · split at hw
    · cases hw
      exact Inv.moves (hi.goto nofun)
    · split at hw
      · cases hw
        exact Inv.moves ((hi.rouse _ c).goto nofun)
      · cases hw
  · cases hw
    exact (hi.leave c).moves

/-- What a search does where it finds its process. -/
theorem signal_moves {f : Search} (hi : Inv s h)
    (hfree : f = .freeze → careful →
      (∀ j, holdingsleep s q j = false) ∧ (s.thread q).phase = .outside) :
    Moves careful h p ((s.setThread q fun x => x.signal f).goto p .run) := by
  cases f with
  | kill | thaw =>
    refine ⟨h.halt q false, .resume q, Inv.goto ?_ nofun⟩
    refine hi.signal ?_ fun r hr => halt_other hr
    rw [Function.update_self]
    first
      | rfl
      | by_cases hs : (s.thread q).state = .sleeping <;>
          simp [Thread.signal, Thread.proc, Search.effect, hs]
  | freeze =>
    refine ⟨h.halt q true, .stop q fun hcare hb => ?_, ?_⟩
    · obtain ⟨hlocks, hphase⟩ := hfree rfl hcare
      rcases hb with hin | ⟨r, hr⟩
      · cases hphase.symm.trans ((hi.inside q).mpr hin)
      · cases r with
        | none => cases hphase.symm.trans ((hi.committer q).mpr hr)
        | some i =>
          have hhold := hi.holding_iff.mpr hr
          rw [hlocks i] at hhold
          cases hhold
    · refine Inv.goto (hi.signal ?_ fun r hr => halt_other hr) nofun
      rw [halt_self]
      rfl
  | getprocstate =>
    exact ⟨h, .skip, Inv.goto (hi.signal (hi.stopped q) fun r _ => rfl) nofun⟩

theorem search_moves {f : Search} {pid : Int} {i : Nat} (hi : Inv s h)
    (hfree : f = .freeze → careful → ∀ q : Slot, q.val = i →
      Search.freeze.hits pid (s.thread q).proc = true →
      (∀ j, holdingsleep s q j = false) ∧ (s.thread q).phase = .outside)
    (hs : search s p f pid i = some s') : Moves careful h p s' := by
  simp only [search] at hs
  split at hs
  · next hlt =>
    split at hs
    · split at hs
      · next hhit =>
        cases hs
        refine signal_moves hi fun hf hcare => ?_
        subst hf
        exact hfree rfl hcare ⟨i, hlt⟩ rfl hhit
      · cases hs
        exact Inv.moves (hi.goto nofun)
    · cases hs
  · cases hs
    exact Inv.moves (hi.goto nofun)

theorem proceed_moves (hi : Inv s h) (hr : (s.thread p).state = .running)
    (hc : proceed s p = some (.ok s')) : Moves (Considerate s ⟨p, .proceed⟩) h p s' := by
  unfold proceed at hc
  cases hpc : (s.thread p).pc with
  | run | asleep k =>
    rw [hpc] at hc
    cases hc
  | spin k =>
    rw [hpc] at hc
    simp only at hc
    split at hc
    · cases hc
      have hpoint : point (Pc.crit k) = point (s.thread p).pc := by rw [hpc]; rfl
      exact Inv.moves (Inv.stay (hi.spin _) hpoint)
    · cases hc
  | crit k =>
    rw [hpc] at hc
    refine critical_moves hi hr hpc ?_ ?_ (Option.some.inj hc)
    · rintro i rfl hl hcare
      simp only [Considerate, hpc] at hcare
      exact hcare hl
    · rintro rfl hcom hfull hcare
      simp only [Considerate, hpc] at hcare
      exact hcare hcom hfull
  | sleepLock k =>
    rw [hpc] at hc
    cases hc
    exact (hi.stay (by rw [hpc]; rfl)).moves
  | sleepDrop k =>
    rw [hpc] at hc
    cases hc
    have hpoint : point (Pc.sleepSet k) = point (s.thread p).pc := by rw [hpc]; rfl
    exact Inv.moves (Inv.stay (hi.spin _) hpoint)
  | sleepSet k =>
    rw [hpc] at hc
    cases hc
    have hfits := hi.fits p
    rw [hpc] at hfits
    exact (hi.setThread ⟨rfl, rfl, rfl, by simp [hr], hfits⟩).moves
  | wakeup c i =>
    rw [hpc] at hc
    simp only [Option.map_eq_some_iff, Except.ok.injEq, exists_eq_right] at hc
    exact wakeup_moves hi hc
  | search f pid i =>
    rw [hpc] at hc
    simp only [Option.map_eq_some_iff, Except.ok.injEq, exists_eq_right] at hc
    refine search_moves hi (fun hf hcare => ?_) hc
    subst hf
    simp only [Considerate, hpc] at hcare
    exact hcare

theorem act_moves (hi : Inv s h) (ha : act a s = some (.ok s')) :
    Moves (Considerate s a) h a.p s' := by
  obtain ⟨p, op⟩ := a
  cases op with
  | dispatch =>
    simp only [act] at ha
    split at ha
    · next hd =>
      cases ha
      exact (hi.resume hd.1).moves
    · cases ha
  | yield =>
    simp only [act] at ha
    split at ha
    · next hy =>
      cases ha
      exact (hi.setThread ⟨rfl, rfl, rfl, by simp [hy.1], hi.fits p⟩).moves
    · cases ha
  | call c =>
    simp only [act] at ha
    split at ha
    · simp only [Option.map_eq_some_iff, Except.ok.injEq, exists_eq_right] at ha
      exact call_moves hi ha
    · cases ha
  | proceed =>
    simp only [act] at ha
    split at ha
    · next hr => exact proceed_moves hi hr ha
    · cases ha
  | interrupt n =>
    simp only [act] at ha
    split at ha
    · cases ha
      exact (hi.rouse p _).moves
    · cases ha

end KernelHoldings
