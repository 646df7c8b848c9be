import Xv6Filesrv.KernelExec

/-!
# Address spaces and shared segments

The memory side of the process table and the shared-memory table
(`kernel/shm.h`): `sys_shmget`, `sys_shmat` and `sys_shmdt` of
`kernel/sysproc.c`, and the parts of `allocproc`, `freeproc`, `kfork`,
`kthread_create`, `kexec`, `growproc` and `sys_sbrk` that touch memory. Segment
`i` has its own fixed place below the trapframe in every address space.
-/

namespace KernelShm

open StateWp KernelPages KernelPageTable KernelUvm KernelUserPages KernelExec
open Function (update)

abbrev Slot := Fin 64
abbrev SegId := Fin 8
abbrev maxShmSize : Nat := 4 * 4096

instance Slot.neZero : NeZero 64 := ⟨by decide⟩

/-- The memory fields of `struct proc`. -/
structure Space where
  sz : Nat
  pagetable : Option PageTable
  trapframe : Nat
  shmVa : SegId → Nat

/-- The memory fields of an unused slot. -/
def Space.empty : Space := ⟨0, none, 0, fun _ => 0⟩

/-- The address space with table `pt` and with segment `i` recorded at `va`. -/
abbrev Space.put (s : Space) (pt : PageTable) (i : SegId) (va : Nat) : Space :=
  ⟨s.sz, some pt, s.trapframe, update s.shmVa i va⟩

structure Shmseg where
  used : Bool
  key : Int
  size : Int
  npages : Nat
  pa : Nat → Nat
  refcount : Int

structure Mem where
  kmem : Kmem
  shm : SegId → Shmseg
  space : Slot → Space

abbrev M := StateT Mem (Except Panic)

def onKmem (m : KM α) : M α := zoom Mem.kmem (fun k m => { m with kmem := k }) m

def setSpace (p : Slot) (f : Space → Space) : M PUnit :=
  modify fun m => { m with space := update m.space p (f (m.space p)) }

def setSeg (i : SegId) (f : Shmseg → Shmseg) : M PUnit :=
  modify fun m => { m with shm := update m.shm i (f (m.shm i)) }

/-- The page table of a process; following a null one traps in the kernel. -/
def ownTable (p : Slot) : M PageTable := do
  match ((← get).space p).pagetable with
  | none => throw .kerneltrap
  | some pt => pure pt

def setTable (p : Slot) (pt : PageTable) : M PUnit :=
  setSpace p fun s => { s with pagetable := some pt }

section rules

variable {α : Type} {m m' : Mem} {p : Slot} {i : SegId}

@[simp] theorem wp_onKmem (c : KM α) (Q : α → Mem → Prop) (m : Mem) :
    wp (onKmem c) Q m ↔ wp c (fun a k => Q a { m with kmem := k }) m.kmem :=
  wp_zoom _ _ c Q m

@[simp] theorem wp_setSpace (f : Space → Space) (Q : PUnit → Mem → Prop) :
    wp (setSpace p f) Q m ↔
      Q ⟨⟩ { m with space := update m.space p (f (m.space p)) } :=
  wp_modify _ Q m

@[simp] theorem wp_setSeg (f : Shmseg → Shmseg) (Q : PUnit → Mem → Prop) :
    wp (setSeg i f) Q m ↔ Q ⟨⟩ { m with shm := update m.shm i (f (m.shm i)) } :=
  wp_modify _ Q m

@[simp] theorem wp_setTable (pt : PageTable) (Q : PUnit → Mem → Prop) :
    wp (setTable p pt) Q m ↔ Q ⟨⟩ { m with
      space := update m.space p { m.space p with pagetable := some pt } } :=
  wp_setSpace _ Q

theorem wp_ownTable {pt : PageTable} (Q : PageTable → Mem → Prop)
    (h : (m.space p).pagetable = some pt) : wp (ownTable p) Q m ↔ Q pt m := by
  simp only [ownTable, wp_bind, wp_get, h, wp_pure]

theorem onKmem_ok {c : KM α} {x : α} (h : onKmem c m = .ok (x, m')) :
    ∃ k', c m.kmem = .ok (x, k') ∧ m' = { m with kmem := k' } := by
  have hend : wp (onKmem c) (fun y w => y = x ∧ w = m') m := wp_of_eq h ⟨rfl, rfl⟩
  rw [wp_onKmem] at hend
  obtain ⟨y, k', hc, rfl, rfl⟩ := (wp_iff _ _ _).mp hend
  exact ⟨k', hc, rfl⟩

theorem ownTable_ok {pt : PageTable} (h : ownTable p m = .ok (pt, m')) :
    m' = m ∧ (m.space p).pagetable = some pt := by
  have hend : wp (ownTable p) (fun x w => x = pt ∧ w = m') m := wp_of_eq h ⟨rfl, rfl⟩
  rw [ownTable, wp_bind, wp_get] at hend
  cases hpt : (m.space p).pagetable with
  | none =>
    simp only [hpt, wp_throw] at hend
  | some pt₁ =>
    simp only [hpt, wp_pure] at hend
    exact ⟨hend.2.symm, congrArg some hend.1⟩

end rules

def shmBase (i : SegId) : Nat := trapframe - (i.val + 1) * maxShmSize

def freePages (pages : List Nat) : KM PUnit := forM pages kfree

/-- The loop of `sys_shmget` that fills `pa`, with its rollback. -/
def shmFill : Nat → SegId → Nat → M Bool
  | 0, _, _ => pure true
  | n + 1, i, j => do
    match ← onKmem kalloc with
    | none =>
      let seg := (← get).shm i
      onKmem (freePages ((List.range j).map seg.pa))
      setSeg i fun s => { s with used := false }
      pure false
    | some mem =>
      onKmem (memset mem 0 pgsize)
      setSeg i fun s => { s with pa := update s.pa j mem }
      shmFill n i (j + 1)

def sysShmget (key size : Int) : M Int := do
  if size ≤ 0 ∨ (maxShmSize : Int) < size then pure (-1)
  else
    let npages := (size.toNat + pgsize - 1) / pgsize
    let m ← get
    match (List.finRange 8).find? fun i => (m.shm i).used && (m.shm i).key == key with
    | some i => pure i.val
    | none =>
      match (List.finRange 8).find? fun i => !(m.shm i).used with
      | none => pure (-1)
      | some i =>
        setSeg i fun s =>
          { s with used := true, key := key, size := size, npages := npages, refcount := 0 }
        let ok ← shmFill npages i 0
        pure (if ok then i.val else -1)

/-- The rollback of `sys_shmat`. -/
def undoAttach : Nat → PageTable → Nat → KM PageTable
  | 0, pt, _ => pure pt
  | n + 1, pt, va => do
    let pt ← uvmunmap pt va 1 false
    undoAttach n pt (va + pgsize)

/-- The loop of `sys_shmat`, by the number of pages still to map. -/
def attachLoop : Nat → PageTable → Nat → (Nat → Nat) → Nat → KM (PageTable × Bool)
  | 0, pt, _, _, _ => pure (pt, true)
  | n + 1, pt, va, pa, j => do
    let (pt, ok) ← mappages pt (va + j * pgsize) pgsize (pa j) permRWU
    if ok = false then
      let pt ← undoAttach j pt va
      pure (pt, false)
    else attachLoop n pt va pa (j + 1)

/-- A segment number as the system calls check it. -/
def segId (id : Int) : Option SegId :=
  if h : 0 ≤ id ∧ id < 8 then some ⟨id.toNat, by omega⟩ else none

def sysShmat (p : Slot) (id : Int) : M Int :=
  match segId id with
  | none => pure (-1)
  | some i => do
    let m ← get
    if (m.shm i).used = false then pure (-1)
    else if (m.space p).shmVa i ≠ 0 then pure ((m.space p).shmVa i)
    else
      let va := shmBase i
      let pt ← ownTable p
      let (pt, ok) ← onKmem (attachLoop (m.shm i).npages pt va (m.shm i).pa 0)
      setTable p pt
      if ok = false then pure (-1)
      else
        setSpace p fun s => { s with shmVa := update s.shmVa i va }
        setSeg i fun s => { s with refcount := s.refcount + 1 }
        pure va

/-- A segment whose last user has gone. -/
def Shmseg.reset (s : Shmseg) : Shmseg where
  used := false
  key := 0
  size := 0
  npages := 0
  pa := fun j => if j < s.npages then 0 else s.pa j
  refcount := 0

/-- What `sys_shmdt` and `freeproc` both do to an attached segment. -/
def shmDetach (p : Slot) (i : SegId) : M PUnit := do
  let m ← get
  let pt ← ownTable p
  let pt ← onKmem (uvmunmap pt ((m.space p).shmVa i) (m.shm i).npages false)
  setTable p pt
  setSpace p fun s => { s with shmVa := update s.shmVa i 0 }
  if (m.shm i).refcount - 1 ≤ 0 then
    onKmem (freePages ((List.range (m.shm i).npages).map (m.shm i).pa))
    setSeg i Shmseg.reset
  else setSeg i fun s => { s with refcount := s.refcount - 1 }

def sysShmdt (p : Slot) (id : Int) : M Int :=
  match segId id with
  | none => pure (-1)
  | some i => do
    let m ← get
    if (m.shm i).used = false ∨ (m.space p).shmVa i = 0 then pure (-1)
    else
      shmDetach p i
      pure 0

/-- The first part of `freeproc`: leave every attached segment. -/
def detachAll (p : Slot) : M PUnit :=
  forM (List.finRange 8) fun i => do
    let m ← get
    if (m.space p).shmVa i ≠ 0 ∧ (m.shm i).used = true then shmDetach p i else pure ⟨⟩

/-- Free the pages behind the non-null pointers of an address space. -/
def freeSpace (s : Space) : KM PUnit := do
  if s.trapframe ≠ 0 then kfree s.trapframe else pure ⟨⟩
  match s.pagetable with
  | none => pure ⟨⟩
  | some pt => procFreepagetable pt s.sz

/-- The memory part of `freeproc`. -/
def freeproc (p : Slot) : M PUnit := do
  detachAll p
  onKmem (freeSpace ((← get).space p))
  setSpace p fun s => { s with trapframe := 0, pagetable := none, sz := 0 }

/-- The memory part of `allocproc`, once a free slot is found. -/
def allocproc (np : Slot) : M Bool := do
  setSpace np fun s => { s with shmVa := fun _ => 0 }
  match ← onKmem kalloc with
  | none =>
    setSpace np fun s => { s with trapframe := 0 }
    freeproc np
    pure false
  | some tf =>
    setSpace np fun s => { s with trapframe := tf }
    let pt ← onKmem (procPagetable tf)
    setSpace np fun s => { s with pagetable := pt }
    if pt.isNone then
      freeproc np
      pure false
    else pure true

/-- Offsets of the saved registers in `struct trapframe`. -/
inductive Reg where
  | epc
  | ra
  | sp
  | a0
  | a1
  deriving DecidableEq, Repr

def Reg.offset : Reg → Nat
  | .epc => 24
  | .ra => 40
  | .sp => 48
  | .a0 => 112
  | .a1 => 120

def setReg (p : Slot) (r : Reg) (value : Nat) : M PUnit := do
  let m ← get
  onKmem (memmove ((m.space p).trapframe + r.offset) (fun j => (leBytes value).getD j 0) 8)

/-- The memory part of `kfork` and `kthread_create`: the child's registers are the
parent's except for `regs`. -/
def copyProc (p np : Slot) (regs : List (Reg × Nat)) : M Bool := do
  let ok ← allocproc np
  if ok = false then pure false
  else
    let sz := ((← get).space p).sz
    let old ← ownTable p
    let new ← ownTable np
    let (new, ok) ← onKmem (uvmcopy old new sz)
    setTable np new
    if ok = false then
      freeproc np
      pure false
    else
      setSpace np fun s => { s with sz := sz }
      let m ← get
      onKmem (memmove (m.space np).trapframe
        (fun j => m.kmem.bytes ((m.space p).trapframe + j)) 288)
      forM regs fun r => setReg np r.1 r.2
      pure true

/-- `kexec` on behalf of process `p`; returns `argc` or -1. -/
def execProc (p : Slot) (img : Option Image) (argv : Argv) : M Int := do
  let s := (← get).space p
  let own ← ownTable p
  let (pt, sz, started) ← onKmem (kexec s.sz own s.trapframe img argv)
  setSpace p fun s => { s with pagetable := some pt, sz := sz }
  match img, started with
  | some img, some (argc, sp) =>
    setReg p .a1 sp
    setReg p .epc img.entry
    setReg p .sp sp
    pure argc
  | _, _ => pure (-1)

/-- `growproc`; the argument is an `int` added to an unsigned 64-bit size. -/
def growproc (p : Slot) (n : Int) : M Bool := do
  let sz := ((← get).space p).sz
  if 0 < n then
    if trapframe < sz + n.toNat then pure false
    else
      let pt ← ownTable p
      let (pt, sz') ← onKmem (uvmalloc pt sz (sz + n.toNat) true false)
      setTable p pt
      if sz' = 0 then pure false
      else
        setSpace p fun s => { s with sz := sz' }
        pure true
  else if n < 0 then
    let pt ← ownTable p
    let (pt, sz') ← onKmem (uvmdealloc pt sz ((sz + n) % 2 ^ 64).toNat)
    setTable p pt
    setSpace p fun s => { s with sz := sz' }
    pure true
  else pure true

abbrev sbrkEager : Int := 1

def sysSbrk (p : Slot) (n t : Int) : M Int := do
  let addr := ((← get).space p).sz
  if t = sbrkEager ∨ n < 0 then
    let ok ← growproc p n
    pure (if ok then addr else -1)
  else if (addr + n) % 2 ^ 64 < addr then pure (-1)
  else if (trapframe : Int) < (addr + n) % 2 ^ 64 then pure (-1)
  else
    setSpace p fun s => { s with sz := ((addr + n) % 2 ^ 64).toNat }
    pure addr

/-- A user access to an unmapped page; `false` means that the process is to be
killed. -/
def pageFault (p : Slot) (va : Nat) : M Bool := do
  let s := (← get).space p
  let own ← ownTable p
  let (own, pa) ← onKmem (vmfault s.sz own own va)
  setTable p own
  pure (pa ≠ 0)

/-- `copyout` to the caller's own memory. -/
def copyoutProc (p : Slot) (addr : Nat) (src : List UInt8) : M Bool := do
  let s := (← get).space p
  let own ← ownTable p
  let (own, ok) ← onKmem (copyout s.sz own none addr src)
  setTable p own
  pure ok

end KernelShm
