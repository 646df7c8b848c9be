import Xv6Filesrv.KernelForknLoop

/-!
# The result of `forkn`

When the call returns, and what the caller finds then.
-/

namespace KernelForkn

open StateWp KernelMemInv KernelShm KernelProc KernelSteps
open KernelTable KernelProcInv KernelBoot KernelShmRuns KernelPids
open KernelTree KernelLookups

variable {ram : Ram} {s s' s₀ t u : Kernel} {p q c np : Slot} {a : Action} {n pid : Int} {i : Nat}
  {kids : List Slot} {l : List (Option Slot)}

/-! ## The call returns -/

/-- No other process holds a lock, and `p` runs. -/
structure Solo (ram : Ram) (p : Slot) (s : Kernel) : Prop where
  sys : Sys ram s
  running : (s.proc p).state = .running
  others : ∀ q, q ≠ p → (s.proc q).pc.holdsWait = false ∧ (s.proc q).pc.holdsOwn = false

/-- A bound for the number of steps that are left of `kforkn`. -/
def toGo : Pc → Nat
  | .alloc (.forkn n i _) j => (n - i).toNat * 70 + (64 - j) + 5
  | .acquire (.link _ _ (.forkn n i _)) => (n - i).toNat * 70 + 4
  | .crit (.link _ _ (.forkn n i _)) => (n - i).toNat * 70 + 3
  | .publish _ _ (.forkn n i _) => (n - i).toNat * 70 + 2
  | .created (.forkn n i _) _ => (n - i).toNat * 70 + 1
  | _ => 0

/-- `p` has gone on in `kforkn`, or has returned. -/
def Closer (s : Kernel) (p : Slot) (s' : Kernel) : Prop :=
  (s'.proc p).state = .running ∧ ((s'.proc p).pc = .user ∨
    inForkn (s'.proc p).pc = true ∧ toGo (s'.proc p).pc < toGo (s.proc p).pc)

section Solo

variable (h : Solo ram p s)
include h

theorem Solo.lockFree (hp : (s.proc p).pc.holdsOwn = false) (q : Slot) : s.lockFree q = true := by
  rw [Kernel.lockFree, Bool.not_eq_true']
  by_cases hq : q = p
  · rw [hq]
    exact hp
  · exact (h.others q hq).2

theorem Solo.withFails (fails : List Bool) : Solo ram p (s.withFails fails) :=
  ⟨⟨Table.withFails h.sys.table fails, KInv.withFails h.sys.inv fails⟩, h.running, h.others⟩

/-- `kfork` does not panic. -/
theorem Solo.copies (hu : (s.proc np).state = .unused) (regs : List (Reg × Nat)) :
    ∃ ok mem, copyProc p np regs s.mem = .ok (ok, mem) := by
  have hsome := h.sys.inv.table p (by rw [h.running]; decide)
  obtain ⟨pt, hpt⟩ := Option.isSome_iff_exists.mp hsome
  have hcopy := copyProc_wp h.sys.inv.mem hpt (h.sys.inv.free np hu) regs
  obtain ⟨ok, mem, hm, -⟩ := (wp_iff _ _ _).mp hcopy
  exact ⟨ok, mem, hm⟩

theorem Solo.alloc {i count : Int} {j : Nat} (hpc : (s.proc p).pc = .alloc (.forkn n i count) j) :
    ∃ s', proceed s p = some (.ok s') ∧ Closer s p s' := by
  have hgo : ∀ pc, inForkn pc = true → toGo pc < (n - i).toNat * 70 + (64 - j) + 5 →
      ∀ x : Kernel, (x.proc p).state = .running → Closer s p (x.goto p pc) := by
    intro pc hin hlt x hx
    rw [Closer, goto_self, hpc]
    exact ⟨hx, .inr ⟨hin, hlt⟩⟩
  unfold proceed
  rw [hpc]
  simp only [KernelProc.alloc]
  by_cases hj : j < 64
  · rw [dif_pos hj, if_pos (h.lockFree (by rw [hpc]; rfl) _)]
    by_cases hu : (s.proc ⟨j, hj⟩).state = .unused
    · rw [if_pos hu]
      obtain ⟨ok, mem, hm⟩ := h.copies hu (Create.regs (.forkn n i count))
      have hne : p ≠ ⟨j, hj⟩ := ne_of_state h.running hu (by decide)
      rw [Kernel.onMem, hm]
      cases ok with
      | true =>
        refine ⟨_, rfl, hgo _ rfl (by simp only [toGo]; omega) _ ?_⟩
        rw [setProc_of_ne hne]
        exact h.running
      | false =>
        refine ⟨_, rfl, hgo _ rfl (by simp only [toGo]; omega) _ ?_⟩
        rw [setProc_of_ne hne]
        exact h.running
    · rw [if_neg hu]
      exact ⟨_, rfl, hgo _ rfl (by simp only [toGo]; omega) s h.running⟩
  · rw [dif_neg hj]
    exact ⟨_, rfl, hgo _ rfl (by simp only [toGo]; omega) s h.running⟩

theorem Solo.created {i count rc : Int} (hpc : (s.proc p).pc = .created (.forkn n i count) rc) :
    ∃ s', proceed s p = some (.ok s') ∧ Closer s p s' := by
  have hret : ∀ r, Closer s p (s.ret p (.forkn n) r) := by
    intro r
    rw [Closer, ret_self]
    exact ⟨h.running, .inl rfl⟩
  unfold proceed
  rw [hpc]
  refine ⟨_, rfl, ?_⟩
  simp only [KernelProc.created]
  split
  · exact hret count
  · split
    · exact hret 0
    · split
      · next hlt =>
        rw [Closer, goto_self, hpc]
        refine ⟨h.running, .inr ⟨rfl, ?_⟩⟩
        simp only [toGo]
        omega
      · exact hret (count + 1)

/-- Nothing stops a process in `kforkn` when no lock is held. -/
theorem Solo.proceeds (hpc : inForkn (s.proc p).pc = true) :
    ∃ s', proceed s p = some (.ok s') ∧ Closer s p s' := by
  unfold inForkn at hpc
  split at hpc
  · next hat => exact h.alloc hat
  · next np pid n i count hat =>
    have hfree : s.waitLock = none := by
      cases hw : s.waitLock with
      | none => rfl
      | some q =>
        have hq := (h.sys.table.lock q).mp hw
        by_cases hqp : q = p
        · rw [hqp, hat] at hq
          cases hq
        · rw [(h.others q hqp).1] at hq
          cases hq
    unfold proceed
    rw [hat]
    simp only [hfree, if_true]
    refine ⟨_, rfl, ?_⟩
    rw [Closer, goto_self, hat]
    exact ⟨h.running, .inr ⟨rfl, by simp only [toGo]; omega⟩⟩
  · next np pid n i count hat =>
    have hpend : pending (s.proc p).pc = some np := by rw [hat]; rfl
    have hne := Table.pending_ne h.sys.table h.running hpend
    unfold proceed
    rw [hat]
    refine ⟨_, rfl, ?_⟩
    rw [link, Closer, goto_self, release_proc, setProc_of_ne hne, hat]
    exact ⟨h.running, .inr ⟨rfl, by simp only [toGo]; omega⟩⟩
  · next np pid n i count hat =>
    have hpend : pending (s.proc p).pc = some np := by rw [hat]; rfl
    have hne := Table.pending_ne h.sys.table h.running hpend
    unfold proceed
    rw [hat]
    simp only [publish, h.lockFree (by rw [hat]; rfl) np, if_true, Option.map_some]
    refine ⟨_, rfl, ?_⟩
    rw [Closer, goto_self, setProc_of_ne hne, hat]
    exact ⟨h.running, .inr ⟨rfl, by simp only [toGo]; omega⟩⟩
  · next hat => exact h.created hat
  · cases hpc

theorem Solo.act (hpc : inForkn (s.proc p).pc = true) (fails : List Bool) :
    ∃ s', act ⟨p, .proceed, fails⟩ s = some (.ok s') ∧ Solo ram p s' ∧ Closer s p s' := by
  obtain ⟨s', hgo, hclose⟩ := (h.withFails fails).proceeds hpc
  have hcpu : (s.proc p).onCpu = true := by
    unfold Proc.onCpu
    rw [h.running]
  have ha : KernelProc.act ⟨p, .proceed, fails⟩ s = some (.ok s') := by
    simp only [KernelProc.act]
    exact (if_pos hcpu).trans hgo
  have hsys := (h.sys.done (a := ⟨p, .proceed, fails⟩) trivial ha).1
  refine ⟨s', ha, ⟨hsys, hclose.1, ?_⟩, hclose⟩
  intro q hq
  rcases touch_pc (act_step ha) hq with hsame | huser
  · rw [hsame]
    exact h.others q hq
  · rw [huser]
    exact ⟨rfl, rfl⟩

end Solo

/-- Steps of `p` alone, with given failures of `kalloc`. -/
def solo (p : Slot) (f : Nat → List Bool) : Nat → List Action
  | 0 => []
  | N + 1 => ⟨p, .proceed, f 0⟩ :: solo p (fun j => f (j + 1)) N

theorem Solo.returns (h : Solo ram p s) (hpc : inForkn (s.proc p).pc = true) (f : Nat → List Bool) :
    ∃ N u, run (solo p f N) s = some (.ok u) ∧ (u.proc p).pc = .user := by
  induction hd : toGo (s.proc p).pc using Nat.strong_induction_on generalizing s f with
  | _ d ih =>
    obtain ⟨s', ha, hsolo, -, huser | ⟨hin, hlt⟩⟩ := h.act hpc (f 0)
    · exact ⟨1, s', by simp only [solo, run, ha], huser⟩
    · obtain ⟨N, u, hrun, hu⟩ := ih _ (hd ▸ hlt) hsolo hin (fun j => f (j + 1)) rfl
      exact ⟨N + 1, u, by simp only [solo, run, ha, hrun], hu⟩

/-! ## The result -/

theorem Forks.head (hin : (s.proc p).pc ≠ .user) (ha : act a s = some (.ok s'))
    (h : Forks p s' t l) : Forks p s t (result p s s' ++ l) := by
  induction h with
  | start =>
    rw [List.append_nil]
    exact .step .start hin ha
  | step _ hin' ha' ih =>
    rw [← List.append_assoc]
    exact .step ih hin' ha'

def inKernel : Pc → Bool
  | .user => false
  | _ => true

/-- Run a list of actions during a call of `p`, with the results of `kfork`. -/
def forkRun (p : Slot) : List Action → Kernel → Option (Kernel × List (Option Slot))
  | [], s => some (s, [])
  | a :: rest, s =>
    match inKernel (s.proc p).pc, act a s with
    | true, some (.ok s') => (forkRun p rest s').map fun r => (r.1, result p s s' ++ r.2)
    | _, _ => none

def forked (p : Slot) (acts : List Action) (s : Kernel) : Kernel × List (Option Slot) :=
  (forkRun p acts s).getD (s, [])

end KernelForkn
