import Xv6Filesrv.KernelLookups
import Xv6Filesrv.KernelShmRuns
import Xv6Filesrv.KernelSignals

/-!
# What `forkn` reports

`kforkn` calls `kfork` up to `n` times and counts.  Other processes run all the while: a child may
exit, orphans may be handed to the first process, and slots come and go between one `kfork` and the
next.  `Forks` is a run during one call of `forkn`, with the results of the `kfork` calls in it.
-/

namespace KernelForkn

open StateFrame KernelExec KernelShm KernelProc KernelSteps
open KernelTable KernelSlots KernelBoot KernelPids
open KernelTree KernelWait KernelPrograms

variable {s s' t u : Kernel} {p q c np : Slot} {a : Action} {m m' : Mem} {pid : Int} {k : Create}
  {i : Nat} {kids : List Slot} {l : List (Option Slot)}

/-! ## The child's registers -/

/-- The bytes that the return to user space loads into a register. -/
def savedReg (m : Mem) (p : Slot) (r : Reg) : List UInt8 :=
  (List.range 8).map fun j => m.kmem.bytes ((m.space p).trapframe + r.offset + j)

theorem setReg_saved {r : Reg} {value : Nat} {w : PUnit} (h : setReg p r value m = .ok (w, m')) :
    savedReg m' p r = leBytes value := by
  obtain ⟨_, _, hget, h⟩ := bind_ok h
  cases hget
  obtain ⟨k, hmove, rfl⟩ := onKmem_ok h
  cases hmove
  rw [savedReg, leBytes]
  apply List.map_congr_left
  intro j hj
  have hlt : j < 8 := List.mem_range.mp hj
  simp [hlt]

/-- The register that `kfork` writes for the child is there when it is done. -/
theorem copyProc_saved {r : Reg} {value : Nat} (h : copyProc p np [(r, value)] m = .ok (true, m')) :
    savedReg m' np r = leBytes value := by
  cases copyProc_copies h with
  | done _ _ _ _ _ hregs =>
    rw [List.forM_cons, List.forM_nil] at hregs
    obtain ⟨_, m₁, hreg, hregs⟩ := bind_ok hregs
    cases hregs
    exact setReg_saved hreg

/-! ## Runs during a call -/

/-- The result of a call of `kfork` by `p` that ends with this step: the child's slot or nothing. -/
def result (p : Slot) (s s' : Kernel) : List (Option Slot) :=
  match (s.proc p).pc, (s'.proc p).pc with
  | .publish np _ _, .created _ _ => [some np]
  | .alloc _ _, .created _ _ => [none]
  | _, _ => []

/-- Runs of all processes from `s`, during which `p` has not come back to user space, with the
results of `kfork` for `p` in them. -/
inductive Forks (p : Slot) (s : Kernel) : Kernel → List (Option Slot) → Prop
  | start : Forks p s s []
  | step {t u : Kernel} {a : Action} {l : List (Option Slot)} (h : Forks p s t l)
      (hin : (t.proc p).pc ≠ .user) (ha : act a t = some (.ok u)) :
      Forks p s u (l ++ result p t u)

/-- The process is in `kforkn`. -/
def inForkn : Pc → Bool
  | .alloc (.forkn _ _ _) _ | .acquire (.link _ _ (.forkn _ _ _))
  | .crit (.link _ _ (.forkn _ _ _)) | .publish _ _ (.forkn _ _ _)
  | .created (.forkn _ _ _) _ => true
  | _ => false

/-- Some step between `s` and `t` took the free slot `c` for a new process, gave it a pid that no
process had had, and put 0 into the register with the result of its system call. -/
def Begun (s t : Kernel) (c : Slot) : Prop :=
  ∃ v a w, Reach (fun _ _ => True) s v ∧ act a v = some (.ok w) ∧ Reach (fun _ _ => True) w t ∧
    (v.proc c).state = .unused ∧ (w.proc c).state = .used ∧ (w.proc c).pid = (t.proc c).pid ∧
    (w.proc c).pid ∉ v.born ∧ savedReg w.mem c .a0 = leBytes 0

theorem Begun.step (h : Begun s t c) (ha : act a t = some (.ok u))
    (hpid : (u.proc c).pid = (t.proc c).pid) : Begun s u c := by
  obtain ⟨v, b, w, hv, hb, hw, hold, hnew, hsame, hborn, hreg⟩ := h
  exact ⟨v, b, w, hv, hb, .tail hw ⟨a, trivial, ha⟩, hold, hnew, hsame.trans hpid.symm, hborn, hreg⟩

/-- A child that `p` has made since `s`. -/
structure Kid (s : Kernel) (p : Slot) (t : Kernel) (c : Slot) : Prop where
  unused : (t.proc c).state ≠ .unused
  used : (t.proc c).state ≠ .used
  parent : (t.proc c).parent = some p
  begun : Begun s t c

/-- A process keeps its pid as long as its slot is in use. -/
theorem change_pid (h : Change s p s' q) (hu : (s.proc q).state ≠ .unused)
    (hu' : (s'.proc q).state ≠ .unused) : (s'.proc q).pid = (s.proc q).pid := by
  cases h with
  | keep hsame => exact hsame.pid
  | signal _ _ _ heq =>
    obtain ⟨pc, heq⟩ := heq
    rw [heq]
    exact effect_pid _ _
  | fault _ _ _ heq => rw [heq]
  | alloc _ hold _ _ => exact absurd hold hu
  | allocFailed hold _ => exact absurd hold hu
  | link _ heq => rw [heq]
  | publish _ heq => rw [heq]
  | adopt _ _ heq _ =>
    obtain ⟨pc, heq⟩ := heq
    rw [heq]
  | exit _ _ _ heq => rw [heq]
  | reap _ _ _ _ heq =>
    rw [heq] at hu'
    exact absurd rfl hu'

theorem effect_used (f : Search) {x : Proc} (h : x.state ≠ .used) : (f.effect x).state ≠ .used := by
  cases f with
  | kill =>
    simp only [Search.effect]
    split
    · simp
    · exact h
  | _ => exact h

/-- While `p` is in `kforkn`, nobody takes its children away: only `p` could collect them, and only
the exit of `p` could hand them on. -/
theorem Kid.step (h : Kid s p t c) (ht : Table t) (hpc : inForkn (t.proc p).pc = true)
    (ha : act a t = some (.ok u)) : Kid s p u c := by
  have hs := act_step ha
  have hchange := step_change (Table.withFails ht a.fails) hs c
  have hfill : ∀ np, pending (t.proc a.p).pc = some np → np ≠ c := by
    rintro np hnp rfl
    exact h.used (ht.used a.p np hnp)
  have hstill : (u.proc c).state ≠ .unused ∧ (u.proc c).state ≠ .used ∧
      (u.proc c).parent = some p := by
    cases hchange with
    | keep hsame =>
      refine ⟨?_, ?_, hsame.parent.trans h.parent⟩
      · rw [ne_eq, hsame.unused]
        exact h.unused
      · rw [ne_eq, hsame.used]
        exact h.used
    | @signal f pid _ _ _ heq =>
      obtain ⟨pc, heq⟩ := heq
      rw [heq]
      refine ⟨?_, effect_used f h.used, (effect_parent f _).trans h.parent⟩
      rw [ne_eq, KernelPids.effect_unused]
      exact h.unused
    | fault _ _ _ heq =>
      rw [heq]
      exact ⟨h.unused, h.used, h.parent⟩
    | alloc _ hold _ _ => exact absurd hold h.unused
    | allocFailed hold _ => exact absurd hold h.unused
    | link hlink _ => exact absurd rfl (hfill c (congrArg pending hlink))
    | publish hpub _ => exact absurd rfl (hfill c (congrArg pending hpub))
    | adopt hre hpar _ _ =>
      have hpa : some p = some a.p := h.parent.symm.trans hpar
      cases hpa
      rw [show (t.proc a.p).pc = _ from hre] at hpc
      cases hpc
    | exit _ _ _ heq =>
      rw [heq]
      exact ⟨by simp, by simp, h.parent⟩
    | reap hscan hw _ _ _ =>
      have hpa : some p = some a.p := h.parent.symm.trans (wanted_iff.mp hw).1
      cases hpa
      rw [show (t.proc a.p).pc = _ from hscan] at hpc
      cases hpc
  obtain ⟨hunused, hused, hparent⟩ := hstill
  have hpid : (u.proc c).pid = (t.proc c).pid :=
    change_pid (s := t.withFails a.fails) hchange h.unused hunused
  exact ⟨hunused, hused, hparent, h.begun.step ha hpid⟩

/-- Unless `p` is the first process, to which orphans go, it has no children but those in the list
and those it had at `s`. -/
def Known (s : Kernel) (p : Slot) (t : Kernel) (kids : List Slot) : Prop :=
  p ≠ t.initproc → ∀ c, (t.proc c).parent = some p →
    c ∈ kids ∨ (s.proc c).parent = some p ∧ (s.proc c).pid = (t.proc c).pid

theorem Known.mono {kids' : List Slot} (h : Known s p t kids) (hsub : ∀ c ∈ kids, c ∈ kids') :
    Known s p t kids' := by
  intro hinit c hc
  rcases h hinit c hc with hin | hold
  · exact .inl (hsub c hin)
  · exact .inr hold

theorem Known.step (h : Known s p t kids) (ht : Table t) (hf : Family t) (hfu : Family u)
    (ha : act a t = some (.ok u))
    (hlink : a.p = p → ∀ np, pending (t.proc p).pc = some np → np ∈ kids) : Known s p u kids := by
  have hs := act_step ha
  have hinit : u.initproc = (t.withFails a.fails).initproc := step_initproc hs
  intro hp c hc
  rw [hinit] at hp
  have hkept : (t.proc c).parent = some p → c ∈ kids ∨ (s.proc c).parent = some p ∧
      (s.proc c).pid = (u.proc c).pid := by
    intro hold
    have hu : (t.proc c).state ≠ .unused := by
      intro hun
      cases hold.symm.trans (hf.unused c hun)
    have hu' : (u.proc c).state ≠ .unused := by
      intro hun
      cases hc.symm.trans (hfu.unused c hun)
    have hpid : (u.proc c).pid = (t.proc c).pid :=
      change_pid (s := t.withFails a.fails) (step_change (Table.withFails ht a.fails) hs c) hu hu'
    rw [hpid]
    exact h hp c hold
  change parents u c = some p at hc
  cases step_parents hs with
  | same heq =>
    rw [heq] at hc
    exact hkept hc
  | @link np pid k hpc _ heq =>
    rw [heq] at hc
    by_cases hcn : c = np
    · subst hcn
      rw [Function.update_self] at hc
      cases hc
      exact .inl (hlink rfl c (congrArg pending hpc))
    · rw [Function.update_of_ne hcn] at hc
      exact hkept hc
  | @adopt status r _ _ heq =>
    rw [heq] at hc
    by_cases hcr : c = r
    · subst hcr
      rw [Function.update_self] at hc
      cases hc
      exact absurd rfl hp
    · rw [Function.update_of_ne hcr] at hc
      exact hkept hc
  | @free r _ _ heq =>
    rw [heq] at hc
    by_cases hcr : c = r
    · subst hcr
      rw [Function.update_self] at hc
      cases hc
    · rw [Function.update_of_ne hcr] at hc
      exact hkept hc

/-! ## The steps of `kforkn` -/

/-- The steps of other processes do not move a process that is in the kernel. -/
theorem other_pc (ht : Table t) (hpc : inForkn (t.proc p).pc = true) (ha : act a t = some (.ok u))
    (hp : p ≠ a.p) : (u.proc p).pc = (t.proc p).pc := by
  have htidy := ht.tidy p
  have hstate : (t.proc p).state = .runnable ∨ (t.proc p).state = .running := by
    cases hst : (t.proc p).state <;> simp only [Tidy, hst] at htidy
    case unused | used =>
      rw [htidy] at hpc
      cases hpc
    case sleeping =>
      obtain ⟨k, hk⟩ := htidy
      rw [hk] at hpc
      cases hpc
    case runnable => exact .inl rfl
    case running => exact .inr rfl
    case zombie =>
      rcases htidy with hx | hx | hx <;> rw [hx] at hpc <;> cases hpc
  have htouch := step_touch (act_step ha) hp
  generalize u.proc p = x at htouch
  cases htouch with
  | same | wake _ | adopt _ | publish _ _ => rfl
  | signal f pid _ => exact effect_pc f _
  | alloc hu _ _ =>
    have hu' : (t.proc p).state = .unused := hu
    rcases hstate with hx | hx <;> rw [hx] at hu' <;> cases hu'
  | free hs _ =>
    have hs' : (t.proc p).state = .unused ∨ (t.proc p).state = .zombie := hs
    rcases hstate with hx | hx <;> rw [hx] at hs' <;> rcases hs' with hs' | hs' <;> cases hs'

/-- A step of a process in `kforkn`: it is scheduled, or goes on. -/
theorem own_act (hpc : inForkn (t.proc a.p).pc = true) (ha : act a t = some (.ok u)) :
    (u.proc a.p).pc = (t.proc a.p).pc ∨
      (t.proc a.p).state = .running ∧ proceed (t.withFails a.fails) a.p = some (.ok u) := by
  obtain ⟨p, op, fails⟩ := a
  have hne : (t.proc p).pc ≠ .user := by
    intro hu
    rw [show (t.proc p).pc = _ from hu] at hpc
    cases hpc
  simp only [act] at ha
  cases op with
  | dispatch =>
    simp only at ha
    split at ha
    · cases ha
      left
      rw [setProc_self]
      unfold Proc.resume
      split
      · next k hk =>
        rw [show (t.proc p).pc = _ from hk] at hpc
        cases hpc
      · rfl
    · cases ha
  | yield =>
    simp only at ha
    split at ha
    · cases ha
      left
      rw [setProc_self]
      rfl
    · cases ha
  | call c =>
    simp only at ha
    split at ha
    · next hu => exact absurd (atUser_iff.mp hu).2 hne
    · cases ha
  | fault va =>
    simp only at ha
    split at ha
    · next hu => exact absurd (atUser_iff.mp hu).2 hne
    · cases ha
  | proceed =>
    simp only at ha
    split at ha
    · next hcpu =>
      right
      refine ⟨running_of_onCpu hcpu ?_ ?_, ha⟩
      · intro hx
        rw [show (t.proc p).pc = _ from hx] at hpc
        cases hpc
      · intro hx
        rw [show (t.proc p).pc = _ from hx] at hpc
        cases hpc
    · cases ha

/-- What `allocproc` and the rest of `kfork` up to the release of the child's lock can do. -/
inductive Allocates (s : Kernel) (p : Slot) (k : Create) (i : Nat) (s' : Kernel) : Prop
  | next (hpc : (s'.proc p).pc = .alloc k (i + 1))
  | none (hpc : (s'.proc p).pc = .created k (-1))
  | takes {np : Slot} (hold : (s.proc np).state = .unused)
      (hm : copyProc p np k.regs s.mem = .ok (true, s'.mem))
      (hpc : (s'.proc p).pc = .acquire (.link np s.nextpid k)) (hnew : (s'.proc np).state = .used)
      (hpid : (s'.proc np).pid = s.nextpid)

theorem proceed_alloc (hr : (s.proc p).state = .running) (hpc : (s.proc p).pc = .alloc k i)
    (h : proceed s p = some (.ok s')) : Allocates s p k i s' := by
  unfold proceed at h
  rw [hpc] at h
  simp only [alloc] at h
  split at h
  · next hi =>
    obtain ⟨np, rfl⟩ : ∃ q : Slot, q.val = i := ⟨⟨i, hi⟩, rfl⟩
    simp only [Fin.eta] at h
    split at h
    · split at h
      · next hu =>
        have hne : np ≠ p := ne_of_state hu hr (by decide)
        obtain ⟨ok, mem, hm, rfl⟩ := onMem_ok (Option.some.inj h)
        cases ok with
        | true =>
          refine .takes hu hm (by simp) ?_ ?_
          · rw [if_pos rfl, goto_of_ne hne, setProc_self]
          · rw [if_pos rfl, goto_of_ne hne, setProc_self]
        | false => exact .none (by simp)
      · cases h
        exact .next (by simp)
    · cases h
  · cases h
    exact .none (by simp)

end KernelForkn
