import Xv6Filesrv.KernelBytes
import Xv6Filesrv.KernelReady
import Xv6Filesrv.KernelShmRuns

/-!
# What a failed creation leaves

`kfork` and `kthread_create` return -1 if there is no free slot or if some `kalloc` finds no page:
the trapframe, a page of a page table or a page of the copy.  Each of these places has its own
clean-up.  Open files come last in both functions, when nothing can fail any more; they are added to
the state here.  A creation that fails gives back what it took, in every reachable state and for
every pattern of failures.
-/

namespace KernelForkUndo

open StateFrame KernelPages KernelPageTable KernelUvm KernelUserPages KernelShm
open KernelMemInv KernelShmInv KernelProcInv KernelProc KernelSteps KernelTable
open KernelBoot KernelBytes KernelPrograms KernelReady KernelShmRuns
open Function (update update_of_ne update_self)

variable {ram : Ram} {k k' : Kmem} {m m' : Mem} {s s' s₀ : Kernel} {p q np : Slot} {α : Type}
  {regs : List (Reg × Nat)} {create : Create} {fails : List Bool}

/-! ## Open files -/

abbrev FileId := Fin 100
abbrev InodeId := Fin 50

/-- `ofile` and `cwd` of the process table, and the reference counts in `ftable` and `itable`. -/
structure Files where
  ofile : Slot → Fin 16 → Option FileId
  cwd : Slot → Option InodeId
  fileRef : FileId → Int
  inodeRef : InodeId → Int

inductive FilePanic where
  | filedup
  | kerneltrap
  deriving DecidableEq

abbrev FM := StateT Files (Except FilePanic)

def filedup (f : FileId) : FM PUnit := do
  let t ← get
  if t.fileRef f < 1 then throw .filedup
  else set { t with fileRef := update t.fileRef f (t.fileRef f + 1) }

/-- `idup`, which follows the pointer it is given. -/
def idup (ip : Option InodeId) : FM PUnit := do
  match ip with
  | none => throw .kerneltrap
  | some ip =>
    modify fun t => { t with inodeRef := update t.inodeRef ip (t.inodeRef ip + 1) }

/-- The files of the parent are opened once more for the child. -/
def dupFiles (p np : Slot) : FM PUnit := do
  forM (List.finRange 16) fun i => do
    match (← get).ofile p i with
    | none => pure ⟨⟩
    | some f =>
      filedup f
      modify fun t => { t with
        ofile := update t.ofile np (update (t.ofile np) i (some f)) }
  let ip := (← get).cwd p
  idup ip
  modify fun t => { t with cwd := update t.cwd np ip }

inductive Fault where
  | memory (e : Panic)
  | files (e : FilePanic)
  deriving DecidableEq

/-- Memory and files. -/
abbrev PM := StateT (Mem × Files) (Except Fault)

def onMemory (c : M α) : PM α := fun t =>
  match c t.1 with
  | .ok (x, m) => .ok (x, m, t.2)
  | .error e => .error (.memory e)

def onFiles (c : FM α) : PM α := fun t =>
  match c t.2 with
  | .ok (x, f) => .ok (x, t.1, f)
  | .error e => .error (.files e)

/-- `kfork` and `kthread_create` in the slot that `allocproc` found, up to the release of the new
process's lock. -/
def copyProcess (p np : Slot) (regs : List (Reg × Nat)) : PM Bool := do
  let ok ← onMemory (copyProc p np regs)
  if ok = false then pure false
  else
    onFiles (dupFiles p np)
    pure true

structure World where
  kernel : Kernel
  files : Files

def World.withFails (w : World) (fails : List Bool) : World :=
  { w with kernel := w.kernel.withFails fails }

/-- The step of `allocproc` at slot `i`, with the files. -/
def World.alloc (w : World) (p : Slot) (create : Create) (i : Nat) :
    Option (Except Fault World) :=
  let s := w.kernel
  if h : i < 64 then
    let np : Slot := ⟨i, h⟩
    if s.lockFree np then
      if (s.proc np).state = .unused then
        some <|
          match copyProcess p np create.regs (s.mem, w.files) with
          | .error e => .error e
          | .ok (ok, mem, files) =>
            let pid := s.nextpid
            let s' := { s.setMem mem with nextpid := wrap32 (pid + 1), born := pid :: s.born }
            if ok then
              .ok ⟨(s'.setProc np fun x =>
                { x with state := .used, pid := pid, frozen := false, pc := .user }).goto p
                (.acquire (.link np pid create)), files⟩
            else .ok ⟨(s'.setProc np fun _ => Proc.free).goto p (.created create (-1)), files⟩
      else some (.ok { w with kernel := s.goto p (.alloc create (i + 1)) })
    else none
  else some (.ok { w with kernel := s.goto p (.created create (-1)) })

theorem copyProcess_ok {files files' : Files} {ok : Bool}
    (h : copyProcess p np regs (m, files) = .ok (ok, m', files')) :
    copyProc p np regs m = .ok (ok, m') ∧ (ok = false → files' = files) := by
  obtain ⟨ok₁, ⟨m₁, files₁⟩, hm, h⟩ := bind_ok h
  unfold onMemory at hm
  split at hm
  · next x m₂ hc =>
    cases hm
    cases ok₁ with
    | false =>
      cases h
      exact ⟨hc, fun _ => rfl⟩
    | true =>
      obtain ⟨_, ⟨m₂, files₂⟩, hf, h⟩ := bind_ok h
      unfold onFiles at hf
      split at hf
      · cases hf
        cases h
        exact ⟨hc, fun hok => absurd hok (by decide)⟩
      · cases hf
  · cases hm

theorem copyProcess_error {files : Files} {e : Panic}
    (h : copyProcess p np regs (m, files) = .error (.memory e)) :
    copyProc p np regs m = .error e := by
  rcases bind_error h with hm | ⟨ok, ⟨m₁, files₁⟩, -, h⟩
  · unfold onMemory at hm
    split at hm
    · cases hm
    · next e' hc =>
      cases hm
      exact hc
  · split at h
    · cases h
    · rcases bind_error h with hf | ⟨_, _, -, h⟩
      · unfold onFiles at hf
        split at hf
        · cases hf
        · cases hf
      · cases h

/-! ## Creation as a step of the kernel -/

/-- The steps of `p` in a call of `kfork` or `kthread_create` that comes to nothing: slots in use
are passed over, the creation in a free slot fails, and the call returns. -/
inductive Tries (p : Slot) (create : Create) (w : World) : World → Prop
  | alloc {i : Nat} {fails : List Bool} {w' : World} (hr : (w.kernel.proc p).state = .running)
      (hpc : (w.kernel.proc p).pc = .alloc create i)
      (h : (w.withFails fails).alloc p create i = some (.ok w'))
      (hpc' : (w'.kernel.proc p).pc = .alloc create (i + 1) ∨
        (w'.kernel.proc p).pc = .created create (-1)) : Tries p create w w'
  | give {fails : List Bool} {s' : Kernel} (hr : (w.kernel.proc p).state = .running)
      (hpc : (w.kernel.proc p).pc = .created create (-1))
      (h : act ⟨p, .proceed, fails⟩ w.kernel = some (.ok s')) : Tries p create w ⟨s', w.files⟩

/-- What a step of `allocproc` does to the world. -/
inductive Allocs (p : Slot) (create : Create) (w : World) : Nat → World → Prop
  | next {q : Slot} (hl : w.kernel.lockFree q = true) (hq : (w.kernel.proc q).state ≠ .unused) :
      Allocs p create w q.val { w with kernel := w.kernel.goto p (.alloc create (q.val + 1)) }
  | full {i : Nat} (hi : 64 ≤ i) :
      Allocs p create w i { w with kernel := w.kernel.goto p (.created create (-1)) }
  | failed {np : Slot} {mem : Mem} (hl : w.kernel.lockFree np = true)
      (hu : (w.kernel.proc np).state = .unused)
      (hm : copyProc p np create.regs w.kernel.mem = .ok (false, mem)) :
      Allocs p create w np.val { w with kernel :=
        ((draw w.kernel mem).setProc np fun _ => Proc.free).goto p (.created create (-1)) }
  | made {np : Slot} {mem : Mem} {files : Files} (hl : w.kernel.lockFree np = true)
      (hu : (w.kernel.proc np).state = .unused)
      (hm : copyProc p np create.regs w.kernel.mem = .ok (true, mem)) :
      Allocs p create w np.val ⟨((draw w.kernel mem).setProc np fun x =>
        { x with state := .used, pid := w.kernel.nextpid, frozen := false, pc := .user }).goto p
        (.acquire (.link np w.kernel.nextpid create)), files⟩

variable {w w' : World} {i : Nat}

theorem alloc_cases (h : w.alloc p create i = some (.ok w')) : Allocs p create w i w' := by
  unfold World.alloc at h
  dsimp only at h
  split at h
  · next hi =>
    obtain ⟨np, rfl⟩ : ∃ np : Slot, np.val = i := ⟨⟨i, hi⟩, rfl⟩
    simp only [Fin.eta] at h
    split at h
    · next hl =>
      split at h
      · next hu =>
        have h := Option.some.inj h
        split at h
        · cases h
        · next ok mem files hc =>
          obtain ⟨hm, hfiles⟩ := copyProcess_ok hc
          cases ok with
          | false =>
            cases h
            rw [hfiles rfl]
            exact .failed hl hu hm
          | true =>
            cases h
            exact .made hl hu hm
      · next hu =>
        cases h
        exact .next hl hu
    · cases h
  · next hi =>
    cases h
    exact .full (Nat.not_lt.mp hi)

/-- With the files left out this is the step of the kernel. -/
theorem alloc_kernel (h : Allocs p create w i w') :
    alloc w.kernel p create i = some (.ok w'.kernel) := by
  unfold alloc
  cases h with
  | next hl hq => rw [dif_pos (Fin.isLt _), if_pos hl, if_neg hq]
  | full hi => rw [dif_neg (Nat.not_lt.mpr hi)]
  | failed hl hu hm =>
    rw [dif_pos (Fin.isLt _), if_pos hl, if_pos hu, Kernel.onMem, hm]
    rfl
  | made hl hu hm =>
    rw [dif_pos (Fin.isLt _), if_pos hl, if_pos hu, Kernel.onMem, hm]
    rfl

theorem act_alloc (hr : (w.kernel.proc p).state = .running)
    (hpc : (w.kernel.proc p).pc = .alloc create i)
    (h : (w.withFails fails).alloc p create i = some (.ok w')) :
    act ⟨p, .proceed, fails⟩ w.kernel = some (.ok w'.kernel) := by
  have hstep := alloc_kernel (alloc_cases h)
  have hcpu : ((w.kernel.withFails fails).proc p).onCpu = true := by
    change (w.kernel.proc p).onCpu = true
    simp only [Proc.onCpu, hr]
  simp only [act, hcpu, if_true, proceed]
  rw [show ((w.kernel.withFails fails).proc p).pc = .alloc create i from hpc]
  exact hstep

/-! ## Contents of memory -/

/-- Free pages may have been taken and pages given back; other contents are as before. -/
def Churns (k k' : Kmem) : Prop :=
  ∃ l, k'.freed = l ++ k.freed ∧ (∀ x ∈ k'.freelist, x ∈ k.freelist ∨ x ∈ l) ∧
    ∀ a, (∀ x, x ∈ k.freelist ∨ x ∈ l → ¬OnPage x a) → k'.bytes a = k.bytes a

instance : Std.Refl Churns := ⟨fun _ => ⟨[], rfl, fun _ h => .inl h, fun _ _ => rfl⟩⟩

instance : IsTrans Kmem Churns where
  trans k k₁ k₂ := by
    rintro ⟨l, hfreed, hfree, hbytes⟩ ⟨l', hfreed', hfree', hbytes'⟩
    have hback : ∀ x, x ∈ k₁.freelist ∨ x ∈ l' → x ∈ k.freelist ∨ x ∈ l' ++ l := by
      rintro x (hx | hx)
      · exact (hfree x hx).imp_right (List.mem_append_right l')
      · exact .inr (List.mem_append_left l hx)
    refine ⟨l' ++ l, ?_, fun x hx => hback x (hfree' x hx), fun a ha => ?_⟩
    · rw [hfreed', hfreed, List.append_assoc]
    · rw [hbytes' a fun x hx => ha x (hback x hx)]
      exact hbytes a fun x hx => ha x (hx.imp_right (List.mem_append_right l'))

theorem Churns.closed : Closed Churns where
  none _ := ⟨[], rfl, fun _ h => .inl h, fun _ _ => rfl⟩
  some k r rest bytes hl hbytes := by
    have hmem : ∀ x, x = r ∨ x ∈ rest → x ∈ k.freelist := by
      intro x hx
      rw [hl]
      exact List.mem_cons.mpr hx
    exact ⟨[], rfl, fun x hx => .inl (hmem x (.inr hx)),
      fun a ha => hbytes a (ha r (.inl (hmem r (.inl rfl))))⟩
  free k pa _ := by
    refine ⟨[pa], rfl, fun x hx => ?_, fun a ha => ?_⟩
    · exact (List.mem_cons.mp hx).elim (fun e => .inr (e ▸ List.mem_cons_self)) .inl
    · exact fill_off (ha pa (.inr List.mem_cons_self))
  torn _ _ := ⟨[], rfl, fun _ h => .inl h, fun _ _ => rfl⟩

def MemChurns (m m' : Mem) : Prop := Churns m.kmem m'.kmem

instance : Std.Refl MemChurns := ⟨fun m => refl_of Churns m.kmem⟩

instance : IsTrans Mem MemChurns := ⟨fun _ _ _ h h' => trans_of Churns h h'⟩

theorem MemChurns.reframed (p : Slot) : Reframed Churns p MemChurns where
  kmem _ _ hk := hk
  space _ _ := keeps_modify fun m => refl_of Churns m.kmem
  resize _ := keeps_modify fun m => refl_of Churns m.kmem
  seg _ _ _ := keeps_modify fun m => refl_of Churns m.kmem

/-- A creation that fails has not got to the registers, which lie on a page in use. -/
theorem copyProc_churns (h : copyProc p np regs m = .ok (false, m')) : Churns m.kmem m'.kmem := by
  have hframe := MemChurns.reframed np
  cases copyProc_copies h with
  | full ha => exact hframe.allocproc Churns.closed _ _ _ ha
  | undone ha hc ht hf =>
    have halloc := hframe.allocproc Churns.closed _ _ _ ha
    have hcopied := hframe.onKmem (Churns.closed.uvmcopy _ _ _) _ _ _ hc
    have hset := hframe.setTable _ _ _ _ ht
    have hfreed := hframe.freeproc Churns.closed.toGiving _ _ _ hf
    exact trans_of MemChurns halloc (trans_of MemChurns hcopied (trans_of MemChurns hset hfreed))

/-! ## Nothing is left behind -/

/-- The memory after a failed creation: the same pages are free, only such pages have been handed to
`kfree`, and nothing that lies on other pages has changed. -/
structure KmemUndone (k k' : Kmem) : Prop where
  free : Kmem.free k' = Kmem.free k
  freed : ∃ d, k'.freed = d ++ k.freed ∧ ∀ x ∈ d, x ∈ k.freelist
  bytes : ∀ a, (∀ x ∈ k.freelist, ¬OnPage x a) → k'.bytes a = k.bytes a

theorem KmemUndone.mem (h : KmemUndone k k') (x : Nat) : x ∈ k'.freelist ↔ x ∈ k.freelist := by
  rw [← Multiset.mem_coe, ← Multiset.mem_coe]
  exact iff_of_eq (congrArg (x ∈ ·) h.free)

theorem KmemUndone.refl (k : Kmem) : KmemUndone k k :=
  ⟨rfl, ⟨[], rfl, fun _ h => absurd h List.not_mem_nil⟩, fun _ _ => rfl⟩

theorem KmemUndone.trans {k'' : Kmem} (h : KmemUndone k k') (h' : KmemUndone k' k'') :
    KmemUndone k k'' := by
  obtain ⟨d, hd, hmem⟩ := h.freed
  obtain ⟨d', hd', hmem'⟩ := h'.freed
  refine ⟨h'.free.trans h.free, ⟨d' ++ d, ?_, fun x hx => ?_⟩, fun a ha => ?_⟩
  · rw [hd', hd, List.append_assoc]
  · rcases List.mem_append.mp hx with hx | hx
    · exact (h.mem x).mp (hmem' x hx)
    · exact hmem x hx
  · rw [h'.bytes a fun x hx => ha x ((h.mem x).mp hx)]
    exact h.bytes a ha

theorem KmemUndone.of_moves (hm : Moves k 0 k' 0) (hc : Churns k k') : KmemUndone k k' := by
  obtain ⟨d, hd, hmem⟩ := Moves.freed_free hm
  obtain ⟨l, hl, -, hbytes⟩ := hc
  obtain rfl : d = l := List.append_cancel_right (hd.symm.trans hl)
  refine ⟨?_, ⟨d, hd, hmem⟩, fun a ha => hbytes a fun x hx => ha x ?_⟩
  · have htotal := hm.total
    rw [add_zero, add_zero] at htotal
    exact htotal.symm
  · exact hx.elim id (hmem x)

/-- The state after steps of `p` that have made no process: pages, files and segments are as before,
so are all processes but for the place in the kernel where `p` is, and free slots are free. -/
structure Undone (p : Slot) (w w' : World) : Prop where
  kmem : KmemUndone w.kernel.mem.kmem w'.kernel.mem.kmem
  shm : w'.kernel.mem.shm = w.kernel.mem.shm
  files : w'.files = w.files
  caller : ∃ pc, w'.kernel.proc p = { w.kernel.proc p with pc := pc }
  procs : ∀ q, (w.kernel.proc q).state ≠ .unused → q ≠ p → w'.kernel.proc q = w.kernel.proc q
  spaces : ∀ q, (w.kernel.proc q).state ≠ .unused → w'.kernel.mem.space q = w.kernel.mem.space q
  slots : ∀ q, (w.kernel.proc q).state = .unused →
    (w'.kernel.proc q).state = .unused ∧ Vacant (w'.kernel.mem.space q)
  locks : w'.kernel.waitLock = w.kernel.waitLock ∧ w'.kernel.mutex = w.kernel.mutex ∧
    w'.kernel.initproc = w.kernel.initproc

theorem Undone.state (h : Undone p w w') (q : Slot) :
    (w'.kernel.proc q).state = (w.kernel.proc q).state := by
  by_cases hq : q = p
  · subst hq
    obtain ⟨pc, hpc⟩ := h.caller
    rw [hpc]
  · by_cases hu : (w.kernel.proc q).state = .unused
    · rw [(h.slots q hu).1, hu]
    · rw [h.procs q hu hq]

theorem Undone.trans {w'' : World} (h : Undone p w w') (h' : Undone p w' w'') :
    Undone p w w'' := by
  obtain ⟨pc, hpc⟩ := h.caller
  obtain ⟨pc', hpc'⟩ := h'.caller
  obtain ⟨hw, hm, hi⟩ := h.locks
  obtain ⟨hw', hm', hi'⟩ := h'.locks
  refine ⟨h.kmem.trans h'.kmem, h'.shm.trans h.shm, h'.files.trans h.files, ⟨pc', ?_⟩, ?_, ?_, ?_,
    hw'.trans hw, hm'.trans hm, hi'.trans hi⟩
  · rw [hpc', hpc]
  · intro q hq hne
    rw [h'.procs q (by rwa [h.state q]) hne, h.procs q hq hne]
  · intro q hq
    rw [h'.spaces q (by rwa [h.state q]), h.spaces q hq]
  · intro q hq
    exact h'.slots q (by rwa [h.state q])

/-- A step that only moves `p` on. -/
theorem Undone.moved (h : Orderly w.kernel) (hr : (w.kernel.proc p).state = .running) {pc : Pc}
    (hmem : s'.mem = (w.kernel.withFails fails).mem)
    (hproc : s'.proc = update w.kernel.proc p { w.kernel.proc p with pc := pc })
    (hlocks : s'.waitLock = w.kernel.waitLock ∧ s'.mutex = w.kernel.mutex ∧
      s'.initproc = w.kernel.initproc) : Undone p w ⟨s', w.files⟩ := by
  have hother : ∀ q, q ≠ p → s'.proc q = w.kernel.proc q := by
    intro q hq
    rw [hproc, update_of_ne hq]
  refine ⟨?_, ?_, rfl, ⟨pc, ?_⟩, fun q _ => hother q, fun q _ => ?_, fun q hq => ?_, hlocks⟩
  · rw [hmem]
    exact ⟨rfl, ⟨[], rfl, fun _ h => absurd h List.not_mem_nil⟩, fun _ _ => rfl⟩
  · rw [hmem]
    rfl
  · rw [hproc, update_self]
  · rw [hmem]
    rfl
  · have hne : q ≠ p := by
      rintro rfl
      rw [hr] at hq
      cases hq
    refine ⟨?_, ?_⟩
    · rw [hother q hne]
      exact hq
    · rw [hmem]
      exact h.vacant q hq

theorem Undone.failed {mem : Mem} (h : Orderly w.kernel)
    (hr : (w.kernel.proc p).state = .running) (hu : (w.kernel.proc np).state = .unused)
    (hm : copyProc p np create.regs (w.kernel.withFails fails).mem = .ok (false, mem)) :
    Undone p w ⟨((draw (w.kernel.withFails fails) mem).setProc np fun _ => Proc.free).goto p
      (.created create (-1)), w.files⟩ := by
  have h₁ := h.withFails fails
  have hne : p ≠ np := by
    rintro rfl
    rw [hr] at hu
    cases hu
  obtain ⟨pt, hpt⟩ := Option.isSome_iff_exists.mp (h.table p (by rw [hr]; decide))
  have hready : Ready (w.kernel.withFails fails).mem np := ⟨h₁.sound, h₁.kend, h₁.vacant np hu⟩
  have hchurns := copyProc_churns hm
  rcases (copyProc_ready_wp hready hpt (h₁.size p) create.regs).post hm with
    ⟨-, k', rfl, hmoves⟩ | ⟨hok, -⟩
  · have hkmem := KmemUndone.of_moves hmoves hchurns
    have hnew :
        (putSpace (w.kernel.withFails fails).mem k' np Space.empty).space np = Space.empty :=
      update_self np _ _
    have hold : ∀ q, q ≠ np → (putSpace (w.kernel.withFails fails).mem k' np Space.empty).space q =
        w.kernel.mem.space q := fun q hq => update_of_ne hq _ _
    refine ⟨⟨hkmem.free, hkmem.freed, hkmem.bytes⟩, rfl, rfl, ⟨.created create (-1), ?_⟩, ?_, ?_,
      ?_, rfl, rfl, rfl⟩
    · rw [goto_self, setProc_of_ne hne]
      rfl
    · intro q hq hqp
      have hqn : q ≠ np := by
        rintro rfl
        exact hq hu
      rw [goto_of_ne hqp, setProc_of_ne hqn]
      rfl
    · intro q hq
      have hqn : q ≠ np := by
        rintro rfl
        exact hq hu
      exact hold q hqn
    · intro q hq
      have hqp : q ≠ p := by
        rintro rfl
        rw [hr] at hq
        cases hq
      rw [goto_of_ne hqp]
      by_cases hqn : q = np
      · subst hqn
        rw [setProc_self]
        exact ⟨rfl, hnew.symm ▸ Vacant.empty⟩
      · rw [setProc_of_ne hqn]
        exact ⟨hq, (hold q hqn).symm ▸ h.vacant q hq⟩
  · cases hok

theorem Tries.undone (h : Orderly w.kernel) (ht : Tries p create w w') : Undone p w w' := by
  cases ht with
  | alloc hr hpc ha hpc' =>
    cases alloc_cases ha with
    | next hl hq => exact .moved h hr rfl rfl ⟨rfl, rfl, rfl⟩
    | full hi => exact .moved h hr rfl rfl ⟨rfl, rfl, rfl⟩
    | failed hl hu hm => exact .failed h hr hu hm
    | made hl hu hm =>
      rw [goto_self] at hpc'
      rcases hpc' with hpc' | hpc'
      · cases hpc'
      · cases hpc'
  | @give fails s' hr hpc ha =>
    have hs : s' = created (w.kernel.withFails fails) p create (-1) := by
      have hcpu : ((w.kernel.withFails fails).proc p).onCpu = true := by
        change (w.kernel.proc p).onCpu = true
        simp only [Proc.onCpu, hr]
      simp only [act, hcpu, if_true, proceed] at ha
      rw [show ((w.kernel.withFails fails).proc p).pc = .created create (-1) from hpc] at ha
      exact (Except.ok.inj (Option.some.inj ha)).symm
    subst hs
    cases create with
    | fork => exact .moved h hr rfl rfl ⟨rfl, rfl, rfl⟩
    | thread fn arg => exact .moved h hr rfl rfl ⟨rfl, rfl, rfl⟩
    | forkn n i count => exact .moved h hr rfl rfl ⟨rfl, rfl, rfl⟩

theorem Tries.act (ht : Tries p create w w') :
    ∃ fails, act ⟨p, .proceed, fails⟩ w.kernel = some (.ok w'.kernel) := by
  cases ht with
  | alloc hr hpc ha _ => exact ⟨_, act_alloc hr hpc ha⟩
  | give _ _ ha => exact ⟨_, ha⟩

theorem Undone.refl (p : Slot) (h : Orderly w.kernel) : Undone p w w :=
  ⟨.refl _, rfl, rfl, ⟨_, rfl⟩, fun _ _ _ => rfl, fun _ _ => rfl, fun q hq => ⟨hq, h.vacant q hq⟩,
    rfl, rfl, rfl⟩

/-- Step after step until the call gives up. -/
theorem tries_undone (hb : Booted ram s₀) (hr : Reach (fun _ _ => True) s₀ w.kernel)
    (ht : Relation.ReflTransGen (Tries p create) w w') :
    Reach (fun _ _ => True) s₀ w'.kernel ∧ Undone p w w' := by
  induction ht with
  | refl => exact ⟨hr, .refl p (Reach.orderly hb hr).2⟩
  | tail _ hstep ih =>
    obtain ⟨hreach, hundone⟩ := ih
    obtain ⟨fails, ha⟩ := hstep.act
    exact ⟨.tail hreach ⟨_, trivial, ha⟩, hundone.trans (hstep.undone (Reach.orderly hb hreach).2)⟩

theorem alloc_no_panic {e : Panic} (h : Orderly w.kernel)
    (hr : (w.kernel.proc p).state = .running) :
    (w.withFails fails).alloc p create i ≠ some (.error (.memory e)) := by
  intro ha
  have h₁ := h.withFails fails
  obtain ⟨pt, hpt⟩ := Option.isSome_iff_exists.mp (h.table p (by rw [hr]; decide))
  unfold World.alloc at ha
  dsimp only at ha
  split at ha
  · next hi =>
    split at ha
    · split at ha
      · next hu =>
        have hready : Ready (w.kernel.withFails fails).mem ⟨i, hi⟩ :=
          ⟨h₁.sound, h₁.kend, h₁.vacant _ hu⟩
        have hwp := copyProc_ready_wp hready hpt (h₁.size p) create.regs
        have ha := Option.some.inj ha
        split at ha
        · next e' hc =>
          cases ha
          exact hwp.ne_error e (copyProcess_error hc)
        · split at ha
          · cases ha
          · cases ha
      · cases ha
    · cases ha
  · cases ha

/-- `thread_create` with an entry point outside of the address space. -/
theorem refused_undone {fn arg : Nat} (h : Orderly s) (files : Files)
    (hk : (s.proc p).killed = false) (hsz : (s.mem.space p).sz ≤ fn)
    (ha : act ⟨p, .call (.threadCreate fn arg), fails⟩ s = some (.ok s')) :
    s' = (s.withFails fails).ret p (.threadCreate fn arg) (-1) ∧
      Undone p ⟨s, files⟩ ⟨s', files⟩ := by
  simp only [act] at ha
  split at ha
  · next hu =>
    have hr : (s.proc p).state = .running := by
      change (s.proc p).atUser = true at hu
      unfold Proc.atUser at hu
      split at hu
      · next hr _ => exact hr
      · cases hu
    have hkilled : ((s.withFails fails).proc p).killed = false := hk
    have hstart : (Call.threadCreate fn arg).start ((s.withFails fails).mem.space p).sz = none :=
      if_pos hsz
    have hs : s' = (s.withFails fails).ret p (.threadCreate fn arg) (-1) := by
      simp only [syscall, hkilled, Bool.false_eq_true, if_false, Call.memory, hstart] at ha
      exact (Except.ok.inj (Option.some.inj ha)).symm
    subst hs
    exact ⟨rfl, .moved (w := ⟨s, files⟩) h hr rfl rfl ⟨rfl, rfl, rfl⟩⟩
  · cases ha

/-! ## Runs in which pages are accounted for -/

theorem MemInv.space_owned (h : MemInv ram m) {x : Nat} (hx : x ∈ spacePages (m.space q)) :
    x ∉ Kmem.free m.kmem := by
  intro hfree
  have hle := h.count_le_one x
  have hsum := Finset.single_le_sum (f := fun q => (spacePages (m.space q)).count x)
    (fun _ _ => Nat.zero_le _) (Finset.mem_univ q)
  have hone := Multiset.one_le_count_iff_mem.mpr hx
  have htwo := Multiset.one_le_count_iff_mem.mpr hfree
  omega

/-- No page of an address space or of a segment has been handed to `kfree`, and every process sees
the memory that it saw before. -/
structure Spared (m m' : Mem) : Prop where
  freed : ∃ d, m'.kmem.freed = d ++ m.kmem.freed ∧
    ∀ x ∈ d, (∀ q, x ∉ spacePages (m.space q)) ∧ ∀ i, x ∉ segPages (m.shm i)
  seen : ∀ q va, loadByte m' q va = loadByte m q va

theorem Undone.spared (hs : Sys ram w.kernel) (h : Undone p w w') :
    Spared w.kernel.mem w'.kernel.mem := by
  obtain ⟨d, hd, hmem⟩ := h.kmem.freed
  refine ⟨⟨d, hd, fun x hx => ⟨fun q hq => ?_, fun i hi => ?_⟩⟩, fun q va => ?_⟩
  · exact MemInv.space_owned hs.inv.mem hq (hmem x hx)
  · exact (MemInv.seg_owned hs.inv.mem hi).1 (hmem x hx)
  · unfold loadByte
    by_cases hu : (w.kernel.proc q).state = .unused
    · rw [(h.slots q hu).2.pagetable, hs.inv.free q hu]
      rfl
    · rw [h.spaces q hu]
      cases hpt : (w.kernel.mem.space q).pagetable with
      | none => rfl
      | some pt =>
        rw [Option.bind_some, Option.bind_some]
        split
        · rfl
        · next hne =>
          obtain ⟨e, he, hpa⟩ := userPage_of_userAddr hne
          have hon : OnPage e.pa (userAddr pt va + va % 4096) := by
            rw [hpa]
            exact ⟨by omega, by omega⟩
          rw [h.kmem.bytes _ ((MemInv.apart hs.inv.mem hpt).off_free he hon)]

/-- A creation that fails leaves nothing behind. -/
theorem failed_creation_undone (hb : Booted ram s₀) (hr : Reach (fun _ _ => True) s₀ s)
    (files : Files) (p : Slot) (create : Create) :
    (∀ w, Relation.ReflTransGen (Tries p create) ⟨s, files⟩ w →
      Reach (fun _ _ => True) s₀ w.kernel ∧ Undone p ⟨s, files⟩ w ∧
        (Reach CarefulRun s₀ s → Spared s.mem w.kernel.mem)) ∧
    (∀ i fails e, (s.proc p).state = .running → (s.proc p).pc = .alloc create i →
      (World.withFails ⟨s, files⟩ fails).alloc p create i ≠ some (.error (.memory e))) ∧
    ∀ fn arg fails s', (s.proc p).killed = false → (s.mem.space p).sz ≤ fn →
      act ⟨p, .call (.threadCreate fn arg), fails⟩ s = some (.ok s') →
      s' = (s.withFails fails).ret p (.threadCreate fn arg) (-1) ∧
        Undone p ⟨s, files⟩ ⟨s', files⟩ := by
  have horderly := (Reach.orderly hb hr).2
  refine ⟨fun w ht => ?_, fun i fails e hrun _ => ?_, fun fn arg fails s' hk hsz ha => ?_⟩
  · obtain ⟨hreach, hundone⟩ := tries_undone hb hr ht
    exact ⟨hreach, hundone, fun hcare => hundone.spared (CarefulRun.runs hb hcare)⟩
  · exact alloc_no_panic horderly hrun
  · exact refused_undone horderly files hk hsz ha

/-- The number of the slot at which `fork` is looking. -/
def forkAt : Pc → Option Nat
  | .alloc .fork i => some i
  | _ => none

theorem forkAt_some {pc : Pc} (h : forkAt pc = some i) : pc = .alloc .fork i := by
  unfold forkAt at h
  split at h
  · cases h
    rfl
  · cases h

/-- A creation that runs and comes to nothing. -/
def fruitless : Except Panic (Bool × Mem) → Bool
  | .ok (ok, _) => !ok
  | .error _ => false

theorem fruitless_ok {x : Except Panic (Bool × Mem)} (h : fruitless x = true) :
    ∃ mem, x = .ok (false, mem) := by
  unfold fruitless at h
  split at h
  · next ok mem =>
    cases ok with
    | false => exact ⟨mem, rfl⟩
    | true => cases h
  · cases h

theorem alloc_failed {mem : Mem} (hl : w.kernel.lockFree np = true)
    (hu : (w.kernel.proc np).state = .unused)
    (hm : copyProc p np create.regs w.kernel.mem = .ok (false, mem)) :
    w.alloc p create np.val = some (.ok { w with kernel :=
      ((draw w.kernel mem).setProc np fun _ => Proc.free).goto p (.created create (-1)) }) := by
  have hmemory : onMemory (copyProc p np create.regs) (w.kernel.mem, w.files) =
      .ok (false, mem, w.files) := by
    unfold onMemory
    rw [hm]
  have hc : copyProcess p np create.regs (w.kernel.mem, w.files) = .ok (false, mem, w.files) :=
    bind_of_ok hmemory
  unfold World.alloc
  dsimp only
  rw [dif_pos np.isLt, if_pos hl, if_pos hu, hc]
  rfl

theorem Tries.of_failed {mem : Mem} (hr : (w.kernel.proc p).state = .running)
    (hpc : (w.kernel.proc p).pc = .alloc create np.val) (hl : w.kernel.lockFree np = true)
    (hu : (w.kernel.proc np).state = .unused)
    (hm : copyProc p np create.regs (w.kernel.withFails fails).mem = .ok (false, mem)) :
    Tries p create w
      ⟨((draw (w.kernel.withFails fails) mem).setProc np fun _ => Proc.free).goto p
        (.created create (-1)), w.files⟩ :=
  .alloc hr hpc (alloc_failed hl hu hm) (.inr (by rw [goto_self]))

/-- The first process has called `fork` and has come to the first free slot. -/
def forkingOne : Kernel := after [callBy 0 .fork, ⟨0, .proceed, []⟩] smallKernel

/-- The second page of the copy is the eighth page to be allocated. -/
def lastPage : List Bool := List.replicate 7 false ++ [true]

def consoleOnly : Files where
  ofile := fun p i => if p = 0 ∧ i.val < 3 then some 0 else none
  cwd := fun p => if p = 0 then some 0 else none
  fileRef := fun f => if f = 0 then 3 else 0
  inodeRef := fun _ => 1

theorem failed_creation_undone_lastPage :
    ∃ mem, copyProc 0 1 Create.fork.regs (forkingOne.withFails lastPage).mem = .ok (false, mem) ∧
      Undone 0 ⟨forkingOne, consoleOnly⟩
        ⟨((draw (forkingOne.withFails lastPage) mem).setProc 1 fun _ => Proc.free).goto 0
          (.created .fork (-1)), consoleOnly⟩ := by
  obtain ⟨hruns, hpc, hr, hl, hu, hfail⟩ :
      runs [callBy 0 .fork, ⟨0, .proceed, []⟩] smallKernel = true ∧
      forkAt (forkingOne.proc 0).pc = some 1 ∧ (forkingOne.proc 0).state = .running ∧
      forkingOne.lockFree 1 = true ∧ (forkingOne.proc 1).state = .unused ∧
      fruitless (copyProc 0 1 Create.fork.regs (forkingOne.withFails lastPage).mem) = true := by
    decide +kernel
  obtain ⟨mem, hm⟩ := fruitless_ok hfail
  have hreach : Reach (fun _ _ => True) smallKernel forkingOne :=
    Reach.after (fun _ _ _ => trivial) hruns
  have hpc := forkAt_some hpc
  refine ⟨mem, hm, ?_⟩
  generalize forkingOne = s at hpc hr hl hu hm hreach
  have htry := Tries.of_failed (w := ⟨s, consoleOnly⟩) hr hpc hl hu hm
  exact ((failed_creation_undone smallKernel_booted hreach consoleOnly 0 .fork).1 _
    (.single htry)).2.1

end KernelForkUndo
