import Xv6Filesrv.KernelShmRuns
import Xv6Filesrv.KernelSlots
import Xv6Filesrv.StateFrame

/-!
# What a segment number stands for

`sys_shmget` returns the number of a slot of the segment table, and the last process that leaves
the segment frees the slot for the next key.  Until then the number means the segment that it was
returned for.
-/

namespace KernelShmIds

open StateFrame KernelPages KernelUvm KernelShm
open KernelMemInv KernelShmInv KernelProc KernelSteps KernelSlots KernelBoot
open KernelShmRuns

variable {ram : Ram} {m m' : Mem} {s s' s₀ t u v : Kernel} {p : Slot} {a b : Action} {i : SegId}
  {key size id : Int} {n j : Nat} {α : Type}

/-! ## The results of `shmget` and `shmat` -/

theorem onKmem_shm {c : KM α} {x : α} (h : onKmem c m = .ok (x, m')) :
    m'.shm = m.shm ∧ m'.space = m.space := by
  obtain ⟨k, -, rfl⟩ := onKmem_ok h
  exact ⟨rfl, rfl⟩

/-- What filling a segment with pages leaves as it is. -/
structure Filling (i : SegId) (m m' : Mem) : Prop where
  used : (m'.shm i).used = (m.shm i).used
  key : (m'.shm i).key = (m.shm i).key
  npages : (m'.shm i).npages = (m.shm i).npages
  space : m'.space = m.space

theorem shmFill_filling (h : shmFill n i j m = .ok (true, m')) : Filling i m m' := by
  induction n generalizing j m with
  | zero =>
    cases h
    exact ⟨rfl, rfl, rfl, rfl⟩
  | succ n ih =>
    rw [shmFill] at h
    obtain ⟨page, m₁, hpage, h⟩ := bind_ok h
    cases page with
    | none =>
      obtain ⟨_, m₂, -, h⟩ := bind_ok h
      obtain ⟨_, m₃, -, h⟩ := bind_ok h
      obtain ⟨_, m₄, -, h⟩ := bind_ok h
      cases h
    | some mem =>
      obtain ⟨_, m₂, hset, h⟩ := bind_ok h
      obtain ⟨_, m₃, hseg, h⟩ := bind_ok h
      cases hseg
      obtain ⟨hshm₁, hspace₁⟩ := onKmem_shm hpage
      obtain ⟨hshm₂, hspace₂⟩ := onKmem_shm hset
      obtain ⟨hused, hkey, hnpages, hspace⟩ := ih h
      simp only [Function.update_self, hshm₂, hshm₁] at hused hkey hnpages
      exact ⟨hused, hkey, hnpages, hspace.trans (hspace₂.trans hspace₁)⟩

/-- The table after `sys_shmget` has taken slot `i` for a new segment. -/
def claimed (m : Mem) (i : SegId) (key size : Int) : Mem :=
  { m with shm := Function.update m.shm i { m.shm i with
    used := true, key := key, size := size, npages := (size.toNat + pgsize - 1) / pgsize,
    refcount := 0 } }

/-- What `shmget` can do: refuse, find the key, or fill a slot for a key that no segment has. -/
theorem sysShmget_ok (h : sysShmget key size m = .ok (id, m')) :
    (id = -1 ∧ m' = m) ∨
    (∃ i : SegId, (m.shm i).used = true ∧ (m.shm i).key = key ∧ id = i.val ∧ m' = m) ∨
    ∃ (i : SegId) (ok : Bool), (∀ j, (m.shm j).used = true → (m.shm j).key ≠ key) ∧
      (m.shm i).used = false ∧ 0 < size ∧ id = (if ok then (i.val : Int) else -1) ∧
      shmFill ((size.toNat + pgsize - 1) / pgsize) i 0 (claimed m i key size) = .ok (ok, m') := by
  rw [sysShmget] at h
  split at h
  · cases h
    exact .inl ⟨rfl, rfl⟩
  · next hsize =>
    obtain ⟨_, m₁, hget, h⟩ := bind_ok h
    cases hget
    cases hold : (List.finRange 8).find? fun i => (m.shm i).used && (m.shm i).key == key with
    | some i =>
      simp only [hold] at h
      cases h
      have hi := List.find?_some hold
      simp only [Bool.and_eq_true, beq_iff_eq] at hi
      exact .inr (.inl ⟨i, hi.1, hi.2, rfl, rfl⟩)
    | none =>
      simp only [hold] at h
      cases hnew : (List.finRange 8).find? fun i => !(m.shm i).used with
      | none =>
        simp only [hnew] at h
        cases h
        exact .inl ⟨rfl, rfl⟩
      | some i =>
        simp only [hnew] at h
        obtain ⟨_, m₂, hset, h⟩ := bind_ok h
        obtain ⟨ok, m₃, hfill, hret⟩ := bind_ok h
        cases hset
        cases hret
        have hfree := List.find?_some hnew
        simp only [Bool.not_eq_true'] at hfree
        refine .inr (.inr ⟨i, ok, fun j hj hkey => ?_, hfree, by omega, rfl, hfill⟩)
        have hnot := List.find?_eq_none.mp hold j (List.mem_finRange j)
        simp [hj, hkey] at hnot

/-- `shmget` returns the number of a slot with the key, or -1. -/
theorem sysShmget_key (h : sysShmget key size m = .ok (id, m')) (hid : id ≠ -1) :
    ∃ i : SegId, id = i.val ∧ (m'.shm i).used = true ∧ (m'.shm i).key = key := by
  rcases sysShmget_ok h with ⟨rfl, -⟩ | ⟨i, hused, hkey, rfl, rfl⟩ | ⟨i, ok, -, -, -, rfl, hfill⟩
  · exact absurd rfl hid
  · exact ⟨i, rfl, hused, hkey⟩
  · cases ok with
    | false => exact absurd rfl hid
    | true =>
      obtain ⟨hused, hkey, -, -⟩ := shmFill_filling hfill
      simp only [claimed, Function.update_self] at hused hkey
      exact ⟨i, rfl, hused, hkey⟩

theorem segId_val (i : SegId) : segId i.val = some i := by
  have hi := i.isLt
  unfold segId
  rw [dif_pos (by omega)]
  rfl

/-- `shmat` returns the address at which the segment is attached, or -1. -/
theorem sysShmat_attached {r : Int} (h : sysShmat p i.val m = .ok (r, m')) (hr : r ≠ -1) :
    (m'.space p).shmVa i ≠ 0 ∧ r = (m'.space p).shmVa i := by
  simp only [sysShmat, segId_val] at h
  obtain ⟨_, m₁, hget, h⟩ := bind_ok h
  cases hget
  split at h
  · cases h
    exact absurd rfl hr
  · split at h
    · next hva =>
      cases h
      exact ⟨hva, rfl⟩
    · obtain ⟨pt, m₂, -, h⟩ := bind_ok h
      obtain ⟨⟨pt', ok⟩, m₃, -, h⟩ := bind_ok h
      obtain ⟨_, m₄, -, h⟩ := bind_ok h
      cases ok with
      | false =>
        cases h
        exact absurd rfl hr
      | true =>
        simp only [Bool.true_eq_false, if_false] at h
        obtain ⟨_, m₅, hspace, h⟩ := bind_ok h
        obtain ⟨_, m₆, hseg, h⟩ := bind_ok h
        cases hspace
        cases hseg
        cases h
        have hi := i.isLt
        simp only [Function.update_self, shmBase, trapframe, trampoline, maxva, pgsize, maxShmSize]
        constructor
        · omega
        · trivial

/-! ## A segment that somebody stays attached to -/

/-- The action does not take the last process off segment `i`. -/
def Retains (i : SegId) (s : Kernel) (a : Action) : Prop :=
  ∀ s', act a s = some (.ok s') → (∃ p, (s.mem.space p).shmVa i ≠ 0) →
    ∃ p, (s'.mem.space p).shmVa i ≠ 0

/-- The table has the segment with this key and these pages in slot `i`. -/
structure Stands (i : SegId) (key : Int) (npages : Nat) (pa : Nat → Nat) (m : Mem) : Prop where
  used : (m.shm i).used = true
  key : (m.shm i).key = key
  npages : (m.shm i).npages = npages
  pa : (m.shm i).pa = pa

theorem Stands.act {npages : Nat} {pa : Nat → Nat} (hsys : Sys ram s)
    (h : Stands i key npages pa s.mem) (hcare : CarefulRun s a) (hkeep : Retains i s a)
    (ha : act a s = some (.ok s')) : Stands i key npages pa s'.mem := by
  obtain ⟨hsys', hdone⟩ := hsys.done hcare ha
  obtain ⟨d, -, hsegs⟩ := hdone.freed
  rcases hsegs i h.used with ⟨hused, hkey, hnp, hpa, -⟩ | ⟨hone, hgone, -⟩
  · exact ⟨hused, hkey.trans h.key, hnp.trans h.npages, hpa.trans h.pa⟩
  · -- the segment went with its only process
    have hone' : (s.mem.shm i).refcount = 1 := hone
    have hcard := hsys.inv.mem.refs i h.used
    rw [hone', attachCount] at hcard
    have hpos : 0 < (Finset.univ.filter fun p => (s.mem.space p).shmVa i ≠ 0).card := by omega
    obtain ⟨p, hp⟩ := Finset.card_pos.mp hpos
    obtain ⟨q, hq⟩ := hkeep s' ha ⟨p, (Finset.mem_filter.mp hp).2⟩
    obtain ⟨pt, hpt⟩ := MemInv.attached_table hsys'.inv.mem hq
    have hused := ((hsys'.inv.mem.mapped hpt).attached i hq).1
    exact absurd (hused.symm.trans hgone) (by decide)

theorem Stands.reach {npages : Nat} {pa : Nat → Nat} (hsys : Sys ram t)
    (h : Stands i key npages pa t.mem)
    (hrun : Reach (fun w c => CarefulRun w c ∧ Retains i w c) t u) :
    Sys ram u ∧ Stands i key npages pa u.mem := by
  refine Reach.invariant (I := fun w => Sys ram w ∧ Stands i key npages pa w.mem) ⟨hsys, h⟩ ?_ hrun
  rintro w c w' ⟨hw, hstands⟩ ⟨hcare, hkeep⟩ hc
  exact ⟨(hw.done hcare hc).1, hstands.act hw hcare hkeep hc⟩

/-- The pages that an attached process has at the segment's place. -/
theorem attached_pages {npages : Nat} {pa : Nat → Nat} (hsys : Sys ram s)
    (h : Stands i key npages pa s.mem) (hva : (s.mem.space p).shmVa i ≠ 0) :
    ∃ pt, (s.mem.space p).pagetable = some pt ∧ ∀ j < npages,
      pt.map ((s.mem.space p).shmVa i / pgsize + j) = some ⟨pa j, permRWU⟩ := by
  have hinv := hsys.inv.mem
  obtain ⟨pt, hpt⟩ := MemInv.attached_table hinv hva
  obtain ⟨-, hbase, hbelow⟩ := (hinv.mapped hpt).attached i hva
  refine ⟨pt, hpt, fun j hj => ?_⟩
  have hle := (hinv.count i h.used).2
  rw [h.npages] at hle
  rw [hbase, shmBase_eq, Nat.mul_div_cancel _ (by decide : 0 < pgsize),
    MemInv.place hinv hpt hbelow (by omega), if_pos ⟨hva, by rw [h.npages]; exact hj⟩, h.pa]

/-- Runs of the calls on segments are careful. -/
theorem ShmOps.careful_run {ok : Kernel → Action → Prop} (hb : Booted ram s₀)
    (ht : Reach ShmOps s₀ t) (hrun : Reach (fun w c => ShmOps w c ∧ ok w c) t u) :
    Reach ShmOps s₀ u ∧ Reach (fun w c => CarefulRun w c ∧ ok w c) t u := by
  induction hrun with
  | refl => exact ⟨ht, .refl⟩
  | tail _ hn ih =>
    obtain ⟨hops, hcare⟩ := ih
    obtain ⟨c, ⟨hc, hok⟩, ha⟩ := hn
    have hcareful := hc.execDetached.careful (ShmOps.runs hb hops).2
    exact ⟨.tail hops ⟨c, hc, ha⟩, .tail hcare ⟨c, ⟨hcareful, hok⟩, ha⟩⟩

/-- If `shmget(key, size)` has returned `id` and from then on no action takes the last process off
that segment, then a successful `shmat(id)` attaches the segment that was returned, with that key
and those pages. -/
theorem segment_id_keeps_key {n : Int} (hb : Booted ram s₀) (hr : Reach ShmOps s₀ s)
    (hok : ShmOps s a) (hget : act a s = some (.ok t))
    (hid : t.trace = .ret a.p n (.shmget key size) id :: s.trace) (hne : id ≠ -1) :
    ∃ i : SegId, id = i.val ∧ (t.mem.shm i).used = true ∧ (t.mem.shm i).key = key ∧
      ∀ u b v n' r, Reach (fun w c => ShmOps w c ∧ Retains i w c) t u →
        act b u = some (.ok v) → b.op = .call (.shmat id) →
        v.trace = .ret b.p n' (.shmat id) r :: u.trace → r ≠ -1 →
        (v.mem.shm i).used = true ∧ (v.mem.shm i).key = key ∧
        (v.mem.shm i).npages = (t.mem.shm i).npages ∧ (v.mem.shm i).pa = (t.mem.shm i).pa ∧
        r = (v.mem.space b.p).shmVa i ∧
        ∃ pt, (v.mem.space b.p).pagetable = some pt ∧ ∀ j < (t.mem.shm i).npages,
          pt.map (r.toNat / pgsize + j) = some ⟨(t.mem.shm i).pa j, permRWU⟩ := by
  obtain ⟨i, rfl, hused, hkey⟩ := sysShmget_key (step_ran (act_step hget) hid rfl) hne
  refine ⟨i, rfl, hused, hkey, ?_⟩
  intro u b v n' r hrun hb' hop hret hr'
  have ht : Reach ShmOps s₀ t := .tail hr ⟨a, hok, hget⟩
  obtain ⟨hu, hcareful⟩ := ShmOps.careful_run hb ht hrun
  obtain ⟨hsys, hstands⟩ := Stands.reach (ShmOps.runs hb ht).1 ⟨hused, hkey, rfl, rfl⟩ hcareful
  obtain ⟨hva, rfl⟩ := sysShmat_attached (step_ran (act_step hb') hret rfl) hr'
  have hokb : ShmOps u b := by
    rw [ShmOps, hop]
    trivial
  have hkeep : Retains i u b := by
    intro v' hv' _
    cases hb'.symm.trans hv'
    exact ⟨b.p, hva⟩
  have hcareb : CarefulRun u b := hokb.execDetached.careful (ShmOps.runs hb hu).2
  have hv := hstands.act hsys hcareb hkeep hb'
  refine ⟨hv.used, hv.key, hv.npages, hv.pa, rfl, ?_⟩
  exact attached_pages (hsys.done hcareb hb').1 hv hva

/-- The result of the newest return. -/
def lastResult : List Event → Int
  | .ret _ _ _ r :: _ => r
  | _ => -1

/-- A system call about memory returns in one step. -/
theorem call_returns {c : Call} {x : M Int} (hk : (s.proc p).killed = false)
    (hc : c.memory p = some x) (ha : act ⟨p, .call c, []⟩ s = some (.ok t)) :
    t.trace = .ret p (s.proc p).pid c (lastResult t.trace) :: s.trace := by
  have hk' : ((s.withFails []).proc p).killed = false := hk
  simp only [act, Option.ite_none_right_eq_some, Option.some.injEq] at ha
  obtain ⟨-, hcall⟩ := ha
  unfold syscall at hcall
  rw [if_neg (by simp [hk'])] at hcall
  split at hcall
  · cases hc
  · simp only [hc] at hcall
    obtain ⟨r, mem, -, rfl⟩ := onMem_ok hcall
    rfl

/-- The first process has looked up a segment. -/
def looked : Kernel := after [callBy 0 (.shmget 1 4096)] smallKernel

theorem looked_runs : runs [callBy 0 (.shmget 1 4096)] smallKernel = true ∧
    lastResult looked.trace = 0 ∧ (smallKernel.proc 0).pid = 1 ∧
    (smallKernel.proc 0).killed = false := by decide +kernel

theorem looked_act : act (callBy 0 (.shmget 1 4096)) smallKernel = some (.ok looked) :=
  act_after looked_runs.1

theorem looked_trace : looked.trace = .ret 0 1 (.shmget 1 4096) 0 :: smallKernel.trace := by
  obtain ⟨-, hzero, hpid, hk⟩ := looked_runs
  have hid := call_returns hk rfl looked_act
  rw [hzero, hpid] at hid
  exact hid

theorem segment_id_keeps_key_first :
    ∃ v, act (callBy 0 (.shmat 0)) looked = some (.ok v) ∧ (v.mem.shm 0).key = 1 ∧
      (v.mem.shm 0).pa = (looked.mem.shm 0).pa := by
  have hb := smallKernel_booted
  have hget := looked_act
  have hid := looked_trace
  obtain ⟨hk, hrun, hr⟩ : (looked.proc 0).killed = false ∧
      runs [callBy 0 (.shmat 0)] looked = true ∧
      lastResult (after [callBy 0 (.shmat 0)] looked).trace ≠ -1 := by decide +kernel
  have hat := act_after hrun
  generalize after [callBy 0 (.shmat 0)] looked = v at hat hr
  generalize looked = t at hget hid hk hat ⊢
  generalize smallKernel = s at hb hget hid
  have hret := call_returns hk rfl hat
  obtain ⟨i, hi, -, -, hlater⟩ := segment_id_keeps_key hb .refl
    (show ShmOps s (callBy 0 (.shmget 1 4096)) from trivial) hget hid (by decide)
  obtain rfl : i = 0 := by
    apply Fin.ext
    simp only [Fin.val_zero]
    omega
  obtain ⟨-, hkey, -, hpa, -⟩ := hlater t _ v _ _ .refl hat rfl hret hr
  exact ⟨v, hat, hkey, hpa⟩

/-- While the first process has a segment's number, its child attaches the segment, leaves it and
makes another one. -/
def interloperRun : List Action :=
  callRun 0 .fork 6 ++ [⟨1, .dispatch, []⟩, callBy 1 (.shmget 1 4096), callBy 1 (.shmat 0),
    callBy 1 (.shmdt 0), callBy 1 (.shmget 2 4096)]

/-- The number that was returned for key 1 attaches the segment with key 2. -/
theorem stale_id_attaches_other :
    ∃ r v, act (callBy 0 (.shmget 1 4096)) smallKernel = some (.ok looked) ∧
      looked.trace = .ret 0 1 (.shmget 1 4096) 0 :: smallKernel.trace ∧
      Reach ShmOps looked (after interloperRun looked) ∧
      act (callBy 0 (.shmat 0)) (after interloperRun looked) = some (.ok v) ∧
      v.trace = .ret 0 1 (.shmat 0) r :: (after interloperRun looked).trace ∧ r ≠ -1 ∧
      (v.mem.space 0).shmVa 0 ≠ 0 ∧ (v.mem.shm 0).key = 2 := by
  obtain ⟨hruns, hk, hpid⟩ : runs interloperRun looked = true ∧
      ((after interloperRun looked).proc 0).killed = false ∧
      ((after interloperRun looked).proc 0).pid = 1 := by decide +kernel
  obtain ⟨hshmat, hlast⟩ : runs [callBy 0 (.shmat 0)] (after interloperRun looked) = true ∧
      lastResult (after [callBy 0 (.shmat 0)] (after interloperRun looked)).trace ≠ -1 ∧
      ((after [callBy 0 (.shmat 0)] (after interloperRun looked)).mem.space 0).shmVa 0 ≠ 0 ∧
      ((after [callBy 0 (.shmat 0)] (after interloperRun looked)).mem.shm 0).key = 2 := by
    decide +kernel
  have hat := act_after hshmat
  have hret := call_returns hk rfl hat
  rw [hpid] at hret
  have hrun : Reach ShmOps looked (after interloperRun looked) := by
    refine Reach.after (fun a ha s => ?_) hruns
    simp only [interloperRun, callRun, callBy, List.mem_append, List.mem_cons,
      List.mem_replicate, List.not_mem_nil, or_false] at ha
    rcases ha with (rfl | ⟨-, rfl⟩) | rfl | rfl | rfl | rfl | rfl <;> trivial
  exact ⟨_, _, looked_act, looked_trace, hrun, hat, hret, hlast⟩

end KernelShmIds
