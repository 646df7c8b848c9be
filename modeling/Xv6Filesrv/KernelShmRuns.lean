import Xv6Filesrv.KernelBoot

/-!
# Shared memory along whole runs

What the memory invariant says about shared segments in every state that the
kernel reaches: the page tables, the segment table, the owners of the segments'
pages and the distance between heaps and segments.
-/

namespace KernelShmRuns

open KernelPages KernelPageTable KernelUvm KernelUserPages KernelExec KernelShm
open KernelMemInv KernelShmInv KernelProcInv KernelProc KernelSystem
open KernelBoot

attribute [local irreducible] rangePages

variable {ram : Ram} {m : Mem} {s s' s₀ : Kernel} {p : Slot} {i : SegId}

theorem MemInv.place (h : MemInv ram m) {pt : PageTable}
    (hpt : (m.space p).pagetable = some pt) (hlow : pageCount (m.space p).sz ≤ basePage i)
    {j : Nat} (hj : j < 4) :
    pt.map (basePage i + j) =
      if (m.space p).shmVa i ≠ 0 ∧ j < (m.shm i).npages then
        some ⟨(m.shm i).pa j, permRWU⟩ else none := by
  have hmax := basePage_add_le i (le_refl 4)
  have hmap := h.mapped hpt
  rw [hmap.above _ (lt_maxPage (by omega)) (by omega), window, segOf_base i j hj]

/-- Page tables and shared segments: every table handed to `proc_freepagetable` maps
nothing but the trap pages and the pages below its size, no step panics except for
the exit of the first process, and the place of a segment that is not attached is
unmapped. -/
theorem page_tables_safe (hb : Booted ram s₀) (hr : Reach ExecDetached s₀ s) :
    (∀ x ∈ s.mem.kmem.torn, NoStray x.1 (pageCount x.2)) ∧
    (∀ a e, ExecDetached s a → act a s = some (.error e) → e = .initExiting) ∧
    (∀ p i pt, (s.mem.space p).pagetable = some pt → (s.mem.space p).shmVa i = 0 →
      ∀ j < 4, pt.map (shmBase i / pgsize + j) = none) := by
  obtain ⟨hsys, hlow⟩ := ExecDetached.runs hb hr
  refine ⟨hsys.inv.mem.torn, ?_, ?_⟩
  · intro a e hd ha
    exact hsys.panic (hd.careful hlow) ha
  · intro p i pt hpt hva j hj
    have hi := i.isLt
    have hp := hlow p
    have hbase : pageCount (s.mem.space p).sz ≤ basePage i := by
      unfold basePage
      omega
    rw [shmBase_eq, Nat.mul_div_cancel _ (by decide : 0 < pgsize),
      MemInv.place hsys.inv.mem hpt hbase hj, if_neg (by simp [hva])]

/-- `shmget(1, 4096)` and `shmat(0)` in the first process. -/
def attachRun : List Action := [callBy 0 (.shmget 1 4096), callBy 0 (.shmat 0)]

theorem attachRun_runs : runs attachRun smallKernel = true ∧
    ((after attachRun smallKernel).mem.shm 0).used = true ∧
    0 < ((after attachRun smallKernel).mem.shm 0).npages := by decide +kernel

theorem attachRun_reach : Reach ExecDetached smallKernel (after attachRun smallKernel) := by
  refine Reach.after ?_ attachRun_runs.1
  intro a ha s
  rcases List.mem_pair.mp ha with rfl | rfl <;> trivial

/-- A program that is not there does not come to the commit. -/
theorem execDetached_absent (s : Kernel) (p : Slot) (argv : Argv) :
    ExecDetached s (callBy p (.exec none argv)) := by
  rintro ⟨pt, -, own, built, k, h⟩
  cases h

/-- The attached process has called `exec` in vain. -/
def refusedKernel : Kernel := after [callBy 0 (.exec none noArgs)] (after attachRun smallKernel)

theorem page_tables_safe_attached :
    Reach ExecDetached smallKernel refusedKernel ∧ (refusedKernel.mem.space 0).shmVa 0 ≠ 0 ∧
    ∀ e, act (callBy 0 (.shmdt 0)) refusedKernel = some (.error e) → e = .initExiting := by
  have hreach : Reach ExecDetached smallKernel refusedKernel :=
    Reach.snoc attachRun_reach (execDetached_absent _ 0 noArgs) (by decide +kernel)
  refine ⟨hreach, by decide +kernel, fun e he => ?_⟩
  exact (page_tables_safe smallKernel_booted hreach).2.1 (callBy 0 (.shmdt 0)) e trivial he

/-- The panic that a run ends in. -/
def panicOf : Option (Except Panic Kernel) → Option Panic
  | some (.error e) => some e
  | _ => none

theorem panicOf_some {r : Option (Except Panic Kernel)} {e : Panic} (h : panicOf r = some e) :
    r = some (.error e) := by
  unfold panicOf at h
  split at h
  · cases h
    rfl
  · cases h

/-- `kexec` leaves attached segments in the page table that it discards. -/
theorem exec_attached_panics :
    Booted smallRam smallKernel ∧
    run (attachRun ++ [callBy 0 (.exec (some emptyImage) noArgs)]) smallKernel =
      some (.error .freewalkLeaf) :=
  ⟨smallKernel_booted, panicOf_some (by decide +kernel)⟩

/-- Runs without `exec` and `sbrk`. -/
def ShmOps (_ : Kernel) (a : Action) : Prop :=
  match a.op with
  | .call (.exec _ _) | .call (.sbrk _ _) => False
  | _ => True

theorem ShmOps.execDetached {a : Action} (h : ShmOps s a) : ExecDetached s a := by
  obtain ⟨p, op, fails⟩ := a
  cases op with
  | call c =>
    cases c with
    | exec img argv => exact h.elim
    | sbrk n t => exact h.elim
    | _ => trivial
  | _ => trivial

theorem ShmOps.runs (hb : Booted ram s₀) (hr : Reach ShmOps s₀ s) : Sys ram s ∧ Low s.mem :=
  ExecDetached.runs hb (Reach.mono (fun _ _ h => h.execDetached) hr)

/-- The segment table, the slots of the process table and the page tables agree. -/
theorem segment_table_consistent (hb : Booted ram s₀) (hr : Reach ShmOps s₀ s) :
    (∀ i j, (s.mem.shm i).used = true → (s.mem.shm j).used = true →
      (s.mem.shm i).key = (s.mem.shm j).key → i = j) ∧
    (∀ i, (s.mem.shm i).used = true → (s.mem.shm i).refcount =
      (Finset.univ.filter fun p => (s.mem.space p).shmVa i ≠ 0).card) ∧
    (∀ p i, (s.mem.space p).shmVa i ≠ 0 → (s.mem.shm i).used = true ∧
      (s.mem.space p).shmVa i = trapframe - (i.val + 1) * maxShmSize ∧
      ∃ pt, (s.mem.space p).pagetable = some pt ∧ ∀ j < 4,
        pt.map ((s.mem.space p).shmVa i / pgsize + j) =
          if j < (s.mem.shm i).npages then some ⟨(s.mem.shm i).pa j, permRWU⟩ else none) ∧
    (∀ p i pt, (s.mem.space p).shmVa i = 0 → (s.mem.space p).pagetable = some pt → ∀ j < 4,
      pt.map ((trapframe - (i.val + 1) * maxShmSize) / pgsize + j) = none) := by
  obtain ⟨hsys, hlow⟩ := ShmOps.runs hb hr
  have hinv := hsys.inv.mem
  have hdiv : ∀ i, shmBase i / pgsize = basePage i := by
    intro i
    rw [shmBase_eq, Nat.mul_div_cancel _ (by decide : 0 < pgsize)]
  have hplace : ∀ p i, pageCount (s.mem.space p).sz ≤ basePage i := by
    intro p i
    have hi := i.isLt
    have hp := hlow p
    unfold basePage
    omega
  refine ⟨hinv.keys, hinv.refs, ?_, ?_⟩
  · intro p i hva
    obtain ⟨pt, hpt⟩ := MemInv.attached_table hinv hva
    obtain ⟨hused, hbase, -⟩ := (hinv.mapped hpt).attached i hva
    refine ⟨hused, hbase, pt, hpt, ?_⟩
    intro j hj
    rw [hbase, hdiv, MemInv.place hinv hpt (hplace p i) hj]
    simp [hva]
  · intro p i pt hva hpt j hj
    rw [show trapframe - (i.val + 1) * maxShmSize = shmBase i from rfl, hdiv,
      MemInv.place hinv hpt (hplace p i) hj, if_neg (by simp [hva])]

theorem shmOps_attachRun : Reach ShmOps smallKernel (after attachRun smallKernel) := by
  refine Reach.after ?_ attachRun_runs.1
  intro a ha s
  rcases List.mem_pair.mp ha with rfl | rfl <;> trivial

theorem segment_table_consistent_attached :
    Reach ShmOps smallKernel (after attachRun smallKernel) ∧
    ((after attachRun smallKernel).mem.shm 0).used = true ∧
    ((after attachRun smallKernel).mem.shm 0).refcount = (Finset.univ.filter fun p =>
      ((after attachRun smallKernel).mem.space p).shmVa 0 ≠ 0).card := by
  obtain ⟨-, hused, -⟩ := attachRun_runs
  exact ⟨shmOps_attachRun, hused,
    (segment_table_consistent smallKernel_booted shmOps_attachRun).2.1 0 hused⟩

theorem segPages_inj {seg : Shmseg} (hu : seg.used = true) {a b : Nat} (ha : a < seg.npages)
    (hb : b < seg.npages) (hone : (segPages seg).count (seg.pa a) = 1)
    (he : seg.pa a = seg.pa b) : a = b := by
  by_contra hne
  have hle : ({seg.pa a, seg.pa b} : Multiset Nat) ≤ segPages seg := by
    rw [segPages, if_pos hu]
    have hsub : ({a, b} : Multiset Nat) ≤ Multiset.range seg.npages := by
      rw [Multiset.le_iff_subset (by simp [hne])]
      intro x hx
      rcases (by simpa using hx : x = a ∨ x = b) with rfl | rfl
      · exact Multiset.mem_range.mpr ha
      · exact Multiset.mem_range.mpr hb
    exact Multiset.map_le_map hsub
  have hcount := Multiset.count_le_of_le (seg.pa a) hle
  rw [hone, ← he] at hcount
  simp at hcount

def CarefulRun (s : Kernel) (a : Action) : Prop := Careful a.op a.p (s.withFails a.fails).mem

theorem CarefulRun.runs (hb : Booted ram s₀) (hr : Reach CarefulRun s₀ s) : Sys ram s := by
  apply Reach.invariant hb.sys _ hr
  intro s a s' hsys hok ha
  exact (hsys.done hok ha).1

/-- Heaps and attached segments are disjoint. Hence the next step frees no page of a
segment that stays in use, no page below a process's size belongs to a segment, and
no step meets a mapping that is already there. -/
theorem heap_below_segments (hb : Booted ram s₀) (hr : Reach CarefulRun s₀ s) :
    (∀ p i, (s.mem.space p).shmVa i ≠ 0 → ∀ x, (s.mem.space p).shmVa i ≤ x →
      x < (s.mem.space p).shmVa i + (s.mem.shm i).npages * pgsize →
      ¬ x < pgroundup (s.mem.space p).sz) ∧
    (∀ a s', CarefulRun s a → act a s = some (.ok s') → SegFreed s.mem s'.mem) ∧
    (∀ p pt v e i, (s.mem.space p).pagetable = some pt → v < pageCount (s.mem.space p).sz →
      pt.map v = some e → e.pa ∉ segPages (s.mem.shm i)) ∧
    (∀ a e, CarefulRun s a → act a s = some (.error e) → e = .initExiting) := by
  have hsys := CarefulRun.runs hb hr
  have hinv := hsys.inv.mem
  refine ⟨?_, ?_, ?_, ?_⟩
  · intro p i hva x hlo hhi hx
    obtain ⟨pt, hpt⟩ := MemInv.attached_table hinv hva
    obtain ⟨-, hbase, hle⟩ := (hinv.mapped hpt).attached i hva
    rw [hbase, shmBase_eq] at hlo
    rw [pgroundup_eq] at hx
    have := Nat.mul_le_mul_right 4096 hle
    omega
  · intro a s' hok ha
    exact (hsys.done hok ha).2.freed
  · intro p pt v e i hpt hv he hseg
    apply (hinv.seg_owned hseg).2.1 p
    rw [spacePages, tablePages, hpt]
    have hmem := mem_rangePages (v := 0) (n := pageCount (s.mem.space p).sz) (Nat.zero_le v)
      (by omega) he
    simp [hmem]
  · intro a e hok ha
    exact hsys.panic hok ha

theorem ExecDetached.carefulRun (hb : Booted ram s₀) (hr : Reach ExecDetached s₀ s) :
    Reach CarefulRun s₀ s := by
  induction hr with
  | refl => exact .refl
  | tail hr hn ih =>
    obtain ⟨a, hd, ha⟩ := hn
    exact .tail ih ⟨a, hd.careful (ExecDetached.runs hb hr).2, ha⟩

/-- The state in which the first process has attached a segment and then grown its
heap by a page. -/
def grownKernel : Kernel := after [callBy 0 (.sbrk 4096 1)] (after attachRun smallKernel)

instance (m : Mem) (p : Slot) (sz : Nat) : Decidable (Clear m p sz) :=
  inferInstanceAs (Decidable (∀ i, (m.space p).shmVa i ≠ 0 → pageCount sz ≤ basePage i))

theorem carefulRun_sbrk {n t : Int}
    (h : Clear s.mem p ((s.mem.space p).sz + n.toNat)) :
    CarefulRun s (callBy p (.sbrk n t)) := h

theorem grownKernel_reach : Reach CarefulRun smallKernel grownKernel := by
  have hattached := ExecDetached.carefulRun smallKernel_booted attachRun_reach
  exact Reach.snoc hattached (carefulRun_sbrk (by decide +kernel)) (by decide +kernel)

theorem heap_below_segments_grown :
    Reach CarefulRun smallKernel grownKernel ∧ (grownKernel.mem.space 0).shmVa 0 ≠ 0 ∧
    ¬ (grownKernel.mem.space 0).shmVa 0 < pgroundup (grownKernel.mem.space 0).sz := by
  obtain ⟨hva, hpages⟩ : (grownKernel.mem.space 0).shmVa 0 ≠ 0 ∧
      0 < (grownKernel.mem.shm 0).npages := by decide +kernel
  refine ⟨grownKernel_reach, hva, ?_⟩
  exact (heap_below_segments smallKernel_booted grownKernel_reach).1 0 0 hva _ (le_refl _)
    (by simp only [pgsize]; omega)

/-- 255 lazy `sbrk` calls of one gigabyte and one more up to the trapframe, then the
segment is attached inside the heap. -/
def lazyRun : List Action :=
  List.replicate 255 (callBy 0 (.sbrk 1073741824 0)) ++
    (callBy 0 (.sbrk 1073725440 0) :: attachRun)

theorem lazy_heap_covers_segment :
    Booted smallRam smallKernel ∧
    run lazyRun smallKernel = some (.ok (after lazyRun smallKernel)) ∧
    ((after lazyRun smallKernel).mem.space 0).shmVa 0 ≠ 0 ∧
    ((after lazyRun smallKernel).mem.space 0).shmVa 0 <
      pgroundup ((after lazyRun smallKernel).mem.space 0).sz := by
  obtain ⟨hrun, hcovered⟩ : runs lazyRun smallKernel = true ∧
      ((after lazyRun smallKernel).mem.space 0).shmVa 0 ≠ 0 ∧
      ((after lazyRun smallKernel).mem.space 0).shmVa 0 <
        pgroundup ((after lazyRun smallKernel).mem.space 0).sz := by decide +kernel
  exact ⟨smallKernel_booted, run_after hrun, hcovered⟩

end KernelShmRuns
