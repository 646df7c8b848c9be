import Xv6Filesrv.KernelSystem

/-!
# Boot and runs

The state in which the first process starts, the states reachable from it, and
the invariant of the runs in which no process calls `exec` with a segment
attached or lets its heap grow into the region where segments are attached.
-/

namespace KernelBoot

open StateWp KernelPages KernelPageTable KernelUvm KernelExec KernelShm
open KernelMemInv KernelShmInv KernelProcInv KernelProc KernelSteps KernelTable KernelSystem

variable {ram : Ram} {m m' : Mem} {s s' s₀ : Kernel} {a : Action} {ok : Kernel → Action → Prop}
  {acts : List Action}

/-- `userinit`, and `kexec` of the first program in `forkret`. -/
def bootMem (img : Option Image) (argv : Argv) : M PUnit := do
  let ok ← allocproc 0
  if ok = false then throw .kerneltrap
  else
    let r ← execProc 0 img argv
    if r = -1 then throw .exec else pure ⟨⟩

/-- Memory after `kinit` and `procinit`. -/
def freshMem (kend tramp : Nat) (pages : List Nat) (bytes : Nat → UInt8) (fails : List Bool) :
    Mem where
  kmem := ⟨kend, tramp, pages, bytes, fails, [], []⟩
  shm := fun _ => ⟨false, 0, 0, 0, fun _ => 0, 0⟩
  space := fun _ => Space.empty

/-- The first process, about to run its program. -/
def Kernel.start (mem : Mem) : Kernel where
  mem := mem
  proc := Function.update (fun _ => Proc.free) 0 { Proc.free with state := .running, pid := 1 }
  waitLock := none
  mutex := fun _ => ⟨false, false, 0⟩
  nextpid := 2
  initproc := 0
  born := [1]
  trace := []

def Booted (ram : Ram) (s : Kernel) : Prop :=
  ∃ (pages : List Nat) (bytes : Nat → UInt8) (fails : List Bool) (img : Option Image)
    (argv : Argv) (mem : Mem), (pages : Multiset Nat) = ram.pages ∧
    bootMem img argv (freshMem ram.kend ram.tramp pages bytes fails) = .ok (⟨⟩, mem) ∧
    s = Kernel.start mem

def Next (ok : Kernel → Action → Prop) (s s' : Kernel) : Prop :=
  ∃ a, ok s a ∧ act a s = some (.ok s')

/-- States reached from `s` by actions that `ok` allows. -/
def Reach (ok : Kernel → Action → Prop) : Kernel → Kernel → Prop :=
  Relation.ReflTransGen (Next ok)

/-- Induction over runs: what each allowed step keeps holds in every state of a run. -/
theorem Reach.invariant {I : Kernel → Prop} (h₀ : I s₀)
    (hstep : ∀ s a s', I s → ok s a → act a s = some (.ok s') → I s') (h : Reach ok s₀ s) :
    I s := by
  induction h with
  | refl => exact h₀
  | tail _ hn ih =>
    obtain ⟨a, hok, ha⟩ := hn
    exact hstep _ a _ ih hok ha

theorem Reach.mono {ok ok' : Kernel → Action → Prop} (h : ∀ s a, ok s a → ok' s a)
    (hr : Reach ok s s') : Reach ok' s s' := by
  have hnext : Next ok ≤ Next ok' := by
    intro t u ⟨a, hok, ha⟩
    exact ⟨a, h t a hok, ha⟩
  exact Relation.ReflTransGen.mono hnext s s' hr

/-- A run whose actions are allowed in every state. -/
theorem Reach.of_run (hok : ∀ a ∈ acts, ∀ s, ok s a) (h : run acts s = some (.ok s')) :
    Reach ok s s' := by
  induction acts generalizing s with
  | nil =>
    cases h
    exact .refl
  | cons a rest ih =>
    unfold run at h
    split at h
    · next u hu =>
      have hrest := ih (fun b hb => hok b (List.mem_cons_of_mem a hb)) h
      exact .head ⟨a, hok a List.mem_cons_self s, hu⟩ hrest
    · next hne =>
      exact absurd h (hne s')

theorem Booted.start (hb : Booted ram s) : ∃ mem, s = Kernel.start mem := by
  obtain ⟨pages, bytes, fails, img, argv, mem, -, -, hs⟩ := hb
  exact ⟨mem, hs⟩

/-- At the start `init` runs in the first slot, and the others are free. -/
theorem start_proc {P : Proc → Prop} (hfree : P Proc.free)
    (hinit : P { Proc.free with state := .running, pid := 1 }) (mem : Mem) (q : Slot) :
    P ((Kernel.start mem).proc q) := by
  by_cases hq : q = 0
  · rw [hq]
    exact hinit
  · simpa [Kernel.start, hq] using hfree

theorem start_pc (mem : Mem) (q : Slot) : ((Kernel.start mem).proc q).pc = .user :=
  start_proc (P := fun x => x.pc = .user) rfl rfl mem q

theorem Table.start (mem : Mem) : Table (Kernel.start mem) := by
  have hpc := start_pc mem
  constructor
  · exact start_proc (P := Tidy) rfl rfl mem
  · intro q
    rw [hpc]
    exact iff_of_false (by rintro ⟨⟩) (by rintro ⟨⟩)
  · intro q np hp
    rw [hpc] at hp
    cases hp
  · intro q q' np hp
    rw [hpc] at hp
    cases hp

theorem Table.withFails (h : Table s) (fails : List Bool) : Table (s.withFails fails) :=
  ⟨h.tidy, h.lock, h.used, h.creator⟩

theorem KInv.withFails (h : KInv ram s) (fails : List Bool) : KInv ram (s.withFails fails) :=
  ⟨⟨h.mem.fixed, h.mem.owned, h.mem.keys, h.mem.count, h.mem.refs, h.mem.layout, h.mem.torn⟩,
    h.free, h.table⟩

theorem Table.act (h : Table s) (ha : act a s = some (.ok s')) : Table s' :=
  Table.step (Table.withFails h a.fails) (act_step ha)

/-- Before `init` is made every page is free. -/
theorem MemInv.fresh {pages : List Nat} (hp : (pages : Multiset Nat) = ram.pages)
    (bytes : Nat → UInt8) (fails : List Bool) :
    MemInv ram (freshMem ram.kend ram.tramp pages bytes fails) := by
  constructor
  · exact ⟨rfl, rfl⟩
  · simp [freshMem, segPages, spacePages_empty, Kmem.free, hp]
  · intro i j hi
    cases hi
  · intro i hi
    cases hi
  · intro i hi
    cases hi
  · intro p
    exact ⟨rfl, fun _ => rfl⟩
  · intro x hx
    cases hx

/-- No heap reaches the region where segments are attached. -/
def Low (m : Mem) : Prop := ∀ p, pageCount (m.space p).sz ≤ 67108830

/-- After the first `kexec` the first process has an address space and no other
slot has one. -/
theorem bootMem_inv {img : Option Image} {argv : Argv} (h : MemInv ram m)
    (hempty : ∀ p, m.space p = Space.empty) (hb : bootMem img argv m = .ok (⟨⟩, m')) :
    MemInv ram m' ∧ (m'.space 0).pagetable.isSome = true ∧
      (∀ p, p ≠ 0 → m'.space p = Space.empty) ∧ Low m' := by
  have hend : wp (bootMem img argv) (fun _ u => u = m') m := wp_of_eq hb rfl
  rw [bootMem, wp_bind] at hend
  obtain ⟨ok, m₁, -, halloc, hrest⟩ := (wp_iff _ _ _).mp
    ((allocproc_wp (MemInv.ready h (hempty 0))).and hend)
  rcases halloc with ⟨rfl, -⟩ | ⟨rfl, k₁, tf, pt, rfl, htf, hfresh, hm⟩
  · rw [if_pos rfl, wp_throw] at hrest
    exact hrest.elim
  rw [if_neg (by simp), wp_bind] at hrest
  have hinv : MemInv ram (putSpace m k₁ 0 ⟨0, some pt, tf, fun _ => 0⟩) := by
    have hva : ∀ i : SegId, (fun _ : SegId => 0) i = 0 := fun _ => rfl
    apply MemInv.fresh_space h (hempty 0) _ hva
    · rw [spacePages_new _ _ _ htf, pageCount_zero, rangePages_zero, add_zero]
      exact hm
    · refine ⟨by simp [pageCount], ?_, ?_⟩
      · intro v hv _
        rw [hfresh v hv, h.fixed.2, window_eq_trapMap hva]
      · intro i hi
        exact absurd rfl hi
  have hpt : ((putSpace m k₁ 0 ⟨0, some pt, tf, fun _ => 0⟩).space 0).pagetable = some pt := by
    simp
  obtain ⟨r, m₂, -, ⟨h₂, hown, hsz⟩, hr⟩ := (wp_iff _ _ _).mp
    ((execProc_wp hinv hpt img argv (by simp)).and hrest)
  have he : m₂ = m' := by
    by_cases hneg : r = -1
    · rw [if_pos hneg, wp_throw] at hr
      exact hr.elim
    · rw [if_neg hneg, wp_pure] at hr
      exact hr
  subst he
  have hothers : ∀ p, p ≠ 0 → m₂.space p = Space.empty := by
    intro p hp
    simp [hown.others p hp, hp, hempty p]
  refine ⟨h₂, hown.table, hothers, ?_⟩
  intro p
  by_cases hp : p = 0
  · subst hp
    rcases hsz with hsz | hsz
    · simp [hsz, pageCount]
    · omega
  · simp [hothers p hp, Space.empty, pageCount]

theorem Booted.table (hb : Booted ram s) : Table s := by
  obtain ⟨mem, rfl⟩ := hb.start
  exact Table.start mem

theorem Booted.inv (hb : Booted ram s) : KInv ram s ∧ Low s.mem := by
  obtain ⟨pages, bytes, fails, img, argv, mem, hp, hboot, rfl⟩ := hb
  obtain ⟨hinv, htable, hothers, hlow⟩ :=
    bootMem_inv (MemInv.fresh hp bytes fails) (fun _ => rfl) hboot
  refine ⟨⟨hinv, ?_, ?_⟩, hlow⟩
  · intro q hq
    apply hothers q
    rintro rfl
    cases hq
  · intro q hq
    by_cases hq0 : q = 0
    · rw [hq0]
      exact htable
    · simp [Kernel.start, hq0, Proc.free] at hq

/-- The memory invariant of careful runs. -/
structure Sys (ram : Ram) (s : Kernel) : Prop where
  table : Table s
  inv : KInv ram s

theorem Booted.sys (hb : Booted ram s) : Sys ram s := ⟨hb.table, hb.inv.1⟩

/-- A careful step keeps the kernel in order and does what its operation is for. -/
theorem Sys.done (h : Sys ram s) (hcare : Careful a.op a.p (s.withFails a.fails).mem)
    (ha : act a s = some (.ok s')) :
    Sys ram s' ∧ Done ram a.op a.p (s.withFails a.fails) s' := by
  have ht := Table.withFails h.table a.fails
  have hdone := step_memory ht (KInv.withFails h.inv a.fails) (act_step ha) hcare
  exact ⟨⟨Table.step ht (act_step ha), hdone.inv⟩, hdone⟩

/-- A careful step panics only where `init` exits. -/
theorem Sys.panic {e : Panic} (h : Sys ram s) (hcare : Careful a.op a.p (s.withFails a.fails).mem)
    (ha : act a s = some (.error e)) : e = .initExiting :=
  stop_exiting (KInv.withFails h.inv a.fails) (act_stop ha) hcare

/-- Without `sbrk`, and if `exec` comes to its commit in detached processes only, no
heap grows into the region of the segments, so that every step is careful. -/
def ExecDetached (s : Kernel) (a : Action) : Prop :=
  match a.op with
  | .call (.exec img argv) =>
    ExecCommits a.p img argv (s.withFails a.fails).mem → ∀ i, (s.mem.space a.p).shmVa i = 0
  | .call (.sbrk _ _) => False
  | _ => True

/-- While all heaps are low, care is needed only at `exec` and `sbrk`. -/
theorem ExecDetached.careful (hlow : Low s.mem) (h : ExecDetached s a) :
    Careful a.op a.p (s.withFails a.fails).mem := by
  obtain ⟨p, op, fails⟩ := a
  cases op with
  | call c =>
    cases c with
    | exec img argv => exact h
    | sbrk n t => exact h.elim
    | shmat id =>
      intro i _ _ _
      have hi := i.isLt
      have hp := hlow p
      change pageCount (s.mem.space p).sz ≤ basePage i
      unfold basePage
      omega
    | _ => trivial
  | _ => trivial

theorem ExecDetached.low (hlow : Low s.mem) (h : ExecDetached s a)
    (hdone : Done ram a.op a.p (s.withFails a.fails) s') : Low s'.mem := by
  intro q
  rcases hdone.sizes q with ⟨r, hr⟩ | hq | ⟨n, t, ho, -⟩
  · rw [hr]
    exact hlow r
  · omega
  · rw [ExecDetached, ho] at h
    exact h.elim

theorem ExecDetached.runs (hb : Booted ram s₀) (hr : Reach ExecDetached s₀ s) :
    Sys ram s ∧ Low s.mem := by
  apply Reach.invariant (I := fun s => Sys ram s ∧ Low s.mem) ⟨hb.sys, hb.inv.2⟩ _ hr
  intro s a s' ⟨hsys, hlow⟩ hd ha
  obtain ⟨hsys', hdone⟩ := hsys.done (hd.careful hlow) ha
  exact ⟨hsys', hd.low hlow hdone⟩

def smallPages : List Nat := (List.range 24).map fun i => 0x80030000 + 4096 * i

/-- A machine with 24 pages of free memory, for concrete runs. -/
def smallRam : Ram where
  kend := 0x80022000
  tramp := 0x80007000
  pages := smallPages
  nodup := by decide
  ok := by decide
  above := by decide
  below := by decide

def noArgs : Argv := ⟨[], by simp⟩

/-- A program without segments: `kexec` gives it a stack and nothing else. -/
def emptyImage : Image := ⟨true, 0, []⟩

def smallMem : Mem := freshMem smallRam.kend smallRam.tramp smallPages (fun _ => 0) []

def startOf : Except Panic (PUnit × Mem) → Kernel
  | .ok (_, mem) => Kernel.start mem
  | .error _ => Kernel.start smallMem

def smallKernel : Kernel := startOf (bootMem (some emptyImage) noArgs smallMem)

def okay {α : Type} : Except Panic α → Bool
  | .ok _ => true
  | .error _ => false

theorem smallKernel_booted : Booted smallRam smallKernel := by
  have hok : okay (bootMem (some emptyImage) noArgs smallMem) = true := by decide +kernel
  cases hb : bootMem (some emptyImage) noArgs smallMem with
  | error e =>
    rw [hb] at hok
    cases hok
  | ok r =>
    obtain ⟨⟨⟩, mem⟩ := r
    have hs : smallKernel = Kernel.start mem := congrArg startOf hb
    exact ⟨smallPages, fun _ => 0, [], some emptyImage, noArgs, mem, rfl, hb, hs⟩

/-- The state after a run, which stays where it is if the run cannot be taken. -/
def after (acts : List Action) (s : Kernel) : Kernel :=
  match run acts s with
  | some (.ok s') => s'
  | _ => s

/-- A run can be taken and does not panic. -/
def runs (acts : List Action) (s : Kernel) : Bool :=
  match run acts s with
  | some (.ok _) => true
  | _ => false

theorem run_after (h : runs acts s = true) :
    run acts s = some (.ok (after acts s)) := by
  unfold runs at h
  unfold after
  split at h
  · next s' hs => rw [hs]
  · cases h

/-- A run that was computed is a run. -/
theorem Reach.after (hok : ∀ a ∈ acts, ∀ s, ok s a) (h : runs acts s = true) :
    Reach ok s (after acts s) :=
  Reach.of_run hok (run_after h)

/-- A run can be taken, and each of its actions is allowed where it is taken. -/
def allowedRun (ok : Kernel → Action → Prop) [∀ s a, Decidable (ok s a)] :
    List Action → Kernel → Bool
  | [], _ => true
  | a :: rest, s =>
    decide (ok s a) &&
      match act a s with
      | some (.ok s') => allowedRun ok rest s'
      | _ => false

theorem allowedRun_reach [∀ s a, Decidable (ok s a)] (h : allowedRun ok acts s = true) :
    ∃ s', run acts s = some (.ok s') ∧ Reach ok s s' := by
  induction acts generalizing s with
  | nil => exact ⟨s, rfl, .refl⟩
  | cons a rest ih =>
    rw [allowedRun, Bool.and_eq_true, decide_eq_true_eq] at h
    obtain ⟨hok, hrest⟩ := h
    split at hrest
    · next u hu =>
      obtain ⟨s', hrun, hreach⟩ := ih hrest
      exact ⟨s', by simp only [run, hu, hrun], .head ⟨a, hok, hu⟩ hreach⟩
    · cases hrest

theorem Reach.allowed [∀ s a, Decidable (ok s a)] (h : allowedRun ok acts s = true) :
    Reach ok s (KernelBoot.after acts s) := by
  obtain ⟨s', hrun, hreach⟩ := allowedRun_reach h
  rw [KernelBoot.after, hrun]
  exact hreach

def callBy (p : Slot) (c : Call) : Action := ⟨p, .call c, []⟩

/-- A system call and the next `n` steps of the process that makes it. -/
def callRun (p : Slot) (c : Call) (n : Nat) : List Action :=
  callBy p c :: List.replicate n ⟨p, .proceed, []⟩

theorem act_after (h : runs [a] s = true) : act a s = some (.ok (after [a] s)) := by
  have hrun := run_after h
  unfold run at hrun
  split at hrun
  · next u hu =>
    cases hrun
    exact hu
  · next hne => exact absurd hrun (hne _)

/-- One more action that is allowed where the run stands. -/
theorem Reach.snoc (hr : Reach ok s₀ s) (hok : ok s a) (h : runs [a] s = true) :
    Reach ok s₀ (KernelBoot.after [a] s) :=
  .tail hr ⟨a, hok, act_after h⟩

end KernelBoot
