import Xv6Filesrv.KernelShm

/-!
# Processes and system calls as steps

The process table of `kernel/proc.c`, the mutex table of `kernel/sysproc.c` and
the system calls on them, cut into steps at the points where other CPUs can come
between: every attempt to take `wait_lock`, every visit to a slot of the process
table, and the three stages of `sleep`. `wait_lock` is part of the state. A
`p->lock` that is taken and released around one visit makes that visit a single
step; only a process on its way into the scheduler, out of `sleep` or `kexit`,
keeps its own lock from one step to the next (`Pc.holdsOwn`).

`trace` and `born` are histories that the kernel does not keep: what the system
calls returned and the pids that `allocpid` gave out, newest first.
-/

namespace KernelProc

open KernelPages KernelExec KernelShm

inductive ProcState where
  | unused
  | used
  | sleeping
  | runnable
  | running
  | zombie
  deriving DecidableEq, Repr

def ProcState.code : ProcState → Int
  | .unused => 0
  | .used => 1
  | .sleeping => 2
  | .runnable => 3
  | .running => 4
  | .zombie => 5

abbrev MutexId := Fin 16

structure Kmutex where
  used : Bool
  locked : Bool
  ownerPid : Int
  deriving DecidableEq

/-- Sleep channels: the address of a mutex entry or of a process slot. -/
inductive Chan where
  | kmutex (id : MutexId)
  | proc (p : Slot)
  deriving DecidableEq

/-- System calls with their arguments. For `exec` the file system supplies the
image that the path names. -/
inductive Call where
  | exit (status : Int)
  | wait (addr : Nat)
  | waitpid (pid : Int) (addr : Nat)
  | fork
  | forkn (n : Int)
  | threadCreate (fn arg : Nat)
  | exec (img : Option Image) (argv : Argv)
  | sbrk (n t : Int)
  | shmget (key size : Int)
  | shmat (id : Int)
  | shmdt (id : Int)
  | kill (pid : Int)
  | freeze (pid : Int)
  | thaw (pid : Int)
  | signalSend (pid sig : Int)
  | getprocstate (pid : Int)
  | getppid
  | mutexCreate
  | mutexLock (id : Int)
  | mutexUnlock (id : Int)
  | mutexTrylock (id : Int)
  | mutexOwner (id : Int)

/-- What `kfork` and `kthread_create` were called for. In `kforkn` the call is the
loop's iteration `i` out of `n`, after `created` children. -/
inductive Create where
  | fork
  | forkn (n i created : Int)
  | thread (fn arg : Nat)

/-- The searches of the process table by pid. -/
inductive Search where
  | kill
  | freeze
  | thaw
  | getprocstate
  deriving DecidableEq

/-- Program points that a process reaches with `wait_lock` held. `waitScan` is the
scan of `kwait` (no target) or `kwaitpid` at slot `i`. -/
inductive Point where
  | getppid
  | mutexCreate
  | mutexLock (id : MutexId)
  | mutexWoken (id : MutexId)
  | mutexUnlock (id : MutexId)
  | mutexUnlocked (id : MutexId)
  | mutexTrylock (id : MutexId)
  | mutexOwner (id : MutexId)
  | link (np : Slot) (pid : Int) (k : Create)
  | waitScan (target : Option Int) (addr i : Nat) (havekids : Bool)
  | reparent (status : Int) (i : Nat)
  | exitMark (status : Int)

/-- Where a process is: in user space, spinning on `wait_lock`, past it, inside
`sleep` and `wakeup`, in a search, in `allocproc`, or at the end of `kexit`. -/
inductive Pc where
  | user
  | acquire (k : Point)
  | crit (k : Point)
  | sleepLock (c : Chan) (k : Point)
  | sleepDrop (c : Chan) (k : Point)
  | sleepSet (c : Chan) (k : Point)
  | asleep (k : Point)
  | wakeup (c : Option Chan) (i : Nat) (k : Point)
  | search (f : Search) (pid : Int) (i : Nat)
  | alloc (k : Create) (i : Nat)
  | publish (np : Slot) (pid : Int) (k : Create)
  | created (k : Create) (rc : Int)
  | exitDrop
  | exitSched
  | dead

/-- The process holds `wait_lock`. -/
def Pc.holdsWait : Pc → Bool
  | .crit _ | .sleepLock _ _ | .sleepDrop _ _ | .wakeup _ _ _ | .exitDrop => true
  | _ => false

/-- The process holds its own `p->lock` from one step to the next. -/
def Pc.holdsOwn : Pc → Bool
  | .sleepDrop _ _ | .sleepSet _ _ | .exitDrop | .exitSched => true
  | _ => false

/-- No spinlock is held or being waited for, so a timer interrupt can preempt. -/
def Pc.preemptible : Pc → Bool
  | .user | .search _ _ _ | .alloc _ _ | .publish _ _ _ | .created _ _ => true
  | _ => false

/-- The fields of `struct proc` that are not about memory. -/
structure Proc where
  state : ProcState
  chan : Option Chan
  killed : Bool
  frozen : Bool
  xstate : Int
  pid : Int
  parent : Option Slot
  pc : Pc

/-- A slot as `freeproc` leaves it. -/
def Proc.free : Proc := ⟨.unused, none, false, false, 0, 0, none, .user⟩

inductive Event where
  | ret (p : Slot) (pid : Int) (c : Call) (r : Int)
  | exited (p : Slot) (pid status : Int)

structure Kernel where
  mem : Mem
  proc : Slot → Proc
  waitLock : Option Slot
  mutex : MutexId → Kmutex
  nextpid : Int
  initproc : Slot
  born : List Int
  trace : List Event

namespace Kernel

def setProc (s : Kernel) (p : Slot) (f : Proc → Proc) : Kernel :=
  { s with proc := Function.update s.proc p (f (s.proc p)) }

def goto (s : Kernel) (p : Slot) (pc : Pc) : Kernel := s.setProc p fun x => { x with pc := pc }

def setMutex (s : Kernel) (id : MutexId) (e : Kmutex) : Kernel :=
  { s with mutex := Function.update s.mutex id e }

def setMem (s : Kernel) (mem : Mem) : Kernel := { s with mem := mem }

def acquire (s : Kernel) (p : Slot) : Kernel := { s with waitLock := some p }

def release (s : Kernel) : Kernel := { s with waitLock := none }

def record (s : Kernel) (e : Event) : Kernel := { s with trace := e :: s.trace }

/-- The system call `c` of process `p` returns `r`. -/
def ret (s : Kernel) (p : Slot) (c : Call) (r : Int) : Kernel :=
  (s.goto p .user).record (.ret p (s.proc p).pid c r)

/-- `release(&wait_lock); return r`. -/
def leave (s : Kernel) (p : Slot) (c : Call) (r : Int) : Kernel := s.release.ret p c r

/-- `acquire(&q->lock)` would not spin. -/
def lockFree (s : Kernel) (q : Slot) : Bool := !(s.proc q).pc.holdsOwn

/-- Run a memory program and continue with its result. -/
def onMem (s : Kernel) (m : M α) (f : α → Kernel → Kernel) : Except Panic Kernel :=
  match m s.mem with
  | .ok (a, mem) => .ok (f a (s.setMem mem))
  | .error e => .error e

end Kernel

def mutexId (id : Int) : Option MutexId :=
  if h : 0 ≤ id ∧ id < 16 then some ⟨id.toNat, by omega⟩ else none

def sysGetppid (s : Kernel) (p : Slot) : Kernel :=
  s.leave p .getppid ((s.proc p).parent.elim 0 fun q => (s.proc q).pid)

def sysMutexCreate (s : Kernel) (p : Slot) : Kernel :=
  match (List.finRange 16).find? fun i => !(s.mutex i).used with
  | some i => (s.setMutex i ⟨true, false, -1⟩).leave p .mutexCreate i.val
  | none => s.leave p .mutexCreate (-1)

/-- One turn of the loop of `sys_mutex_lock`. -/
def sysMutexLock (s : Kernel) (p : Slot) (id : MutexId) : Kernel :=
  if (s.mutex id).used = false then s.leave p (.mutexLock id.val) (-1)
  else if (s.mutex id).locked = false then
    (s.setMutex id { s.mutex id with locked := true, ownerPid := (s.proc p).pid }).leave p
      (.mutexLock id.val) 0
  else if (s.mutex id).ownerPid = (s.proc p).pid then s.leave p (.mutexLock id.val) (-1)
  else s.goto p (.sleepLock (.kmutex id) (.mutexWoken id))

def sysMutexUnlock (s : Kernel) (p : Slot) (id : MutexId) : Kernel :=
  if (s.mutex id).used = false ∨ (s.mutex id).locked = false then
    s.leave p (.mutexUnlock id.val) (-1)
  else if (s.mutex id).ownerPid ≠ (s.proc p).pid then s.leave p (.mutexUnlock id.val) (-1)
  else
    (s.setMutex id { s.mutex id with locked := false, ownerPid := -1 }).goto p
      (.wakeup (some (.kmutex id)) 0 (.mutexUnlocked id))

def sysMutexTrylock (s : Kernel) (p : Slot) (id : MutexId) : Kernel :=
  if (s.mutex id).used = false then s.leave p (.mutexTrylock id.val) (-1)
  else if (s.mutex id).locked = false then
    (s.setMutex id { s.mutex id with locked := true, ownerPid := (s.proc p).pid }).leave p
      (.mutexTrylock id.val) 0
  else s.leave p (.mutexTrylock id.val) (-1)

def sysMutexOwner (s : Kernel) (p : Slot) (id : MutexId) : Kernel :=
  if (s.mutex id).used = false then s.leave p (.mutexOwner id.val) (-1)
  else s.leave p (.mutexOwner id.val)
    (if (s.mutex id).locked = false then 0 else (s.mutex id).ownerPid)

/-- The loop of `wakeup` at slot `i`. -/
def wakeup (s : Kernel) (p : Slot) (c : Option Chan) (i : Nat) (k : Point) : Option Kernel :=
  if h : i < 64 then
    let q : Slot := ⟨i, h⟩
    if q = p then some (s.goto p (.wakeup c (i + 1) k))
    else if s.lockFree q then
      let s := if (s.proc q).state = .sleeping ∧ (s.proc q).chan = c then
        s.setProc q fun x => { x with state := .runnable } else s
      some (s.goto p (.wakeup c (i + 1) k))
    else none
  else some (s.goto p (.crit k))

/-- The search of `kkill`, `kgetprocstate`, `kfreeze` and `kthaw` tests this at each
slot; `kkill` does not look at the state. -/
def Search.hits (f : Search) (pid : Int) (x : Proc) : Bool :=
  x.pid == pid && (f == .kill || x.state != .unused)

def Search.effect (f : Search) (x : Proc) : Proc :=
  match f with
  | .kill =>
    let x := { x with killed := true, frozen := false }
    if x.state = .sleeping then { x with state := .runnable } else x
  | .freeze => { x with frozen := true }
  | .thaw => { x with frozen := false }
  | .getprocstate => x

def Search.answer (f : Search) (x : Proc) : Int :=
  if f = .getprocstate then x.state.code else 0

def Search.call (f : Search) (pid : Int) : Call :=
  match f with
  | .kill => .kill pid
  | .freeze => .freeze pid
  | .thaw => .thaw pid
  | .getprocstate => .getprocstate pid

def search (s : Kernel) (p : Slot) (f : Search) (pid : Int) (i : Nat) : Option Kernel :=
  if h : i < 64 then
    let q : Slot := ⟨i, h⟩
    if s.lockFree q then
      if f.hits pid (s.proc q) then
        some ((s.setProc q f.effect).ret p (f.call pid) (f.answer (s.proc q)))
      else some (s.goto p (.search f pid (i + 1)))
    else none
  else some (s.ret p (f.call pid) (-1))

/-- An `int` after a computation that may overflow. -/
def wrap32 (n : Int) : Int := (n + 2 ^ 31) % 2 ^ 32 - 2 ^ 31

/-- Registers of the child that differ from the parent's. -/
def Create.regs : Create → List (Reg × Nat)
  | .fork | .forkn _ _ _ => [(.a0, 0)]
  | .thread fn arg => [(.epc, fn), (.a0, arg), (.ra, 0)]

/-- `allocproc` at slot `i` and, in a free slot, everything up to the release of
the new process's lock. -/
def alloc (s : Kernel) (p : Slot) (k : Create) (i : Nat) : Option (Except Panic Kernel) :=
  if h : i < 64 then
    let np : Slot := ⟨i, h⟩
    if s.lockFree np then
      if (s.proc np).state = .unused then
        some (s.onMem (copyProc p np k.regs) fun ok s' =>
          let pid := s.nextpid
          let s' := { s' with nextpid := wrap32 (pid + 1), born := pid :: s.born }
          if ok then
            (s'.setProc np fun x =>
              { x with state := .used, pid := pid, frozen := false, pc := .user }).goto p
              (.acquire (.link np pid k))
          else (s'.setProc np fun _ => Proc.free).goto p (.created k (-1)))
      else some (.ok (s.goto p (.alloc k (i + 1))))
    else none
  else some (.ok (s.goto p (.created k (-1))))

def link (s : Kernel) (p np : Slot) (pid : Int) (k : Create) : Kernel :=
  (s.setProc np fun x => { x with parent := some p }).release.goto p (.publish np pid k)

def publish (s : Kernel) (p np : Slot) (pid : Int) (k : Create) : Option Kernel :=
  if s.lockFree np then
    some ((s.setProc np fun x => { x with state := .runnable }).goto p (.created k pid))
  else none

/-- `kfork` or `kthread_create` returned `rc`; in `kforkn` the loop goes on. -/
def created (s : Kernel) (p : Slot) (k : Create) (rc : Int) : Kernel :=
  match k with
  | .fork => s.ret p .fork rc
  | .thread fn arg => s.ret p (.threadCreate fn arg) rc
  | .forkn n i count =>
    if rc < 0 then s.ret p (.forkn n) count
    else if rc = 0 then s.ret p (.forkn n) 0
    else if i + 1 < n then s.goto p (.alloc (.forkn n (i + 1) (count + 1)) 0)
    else s.ret p (.forkn n) (count + 1)

/-- Store an exit status at the address given to `wait`, if there is one. -/
def storeStatus (p : Slot) (addr : Nat) (xstate : Int) : M Bool :=
  if addr = 0 then pure true
  else copyoutProc p addr ((leBytes (xstate % 2 ^ 32).toNat).take 4)

/-- Hand a zombie's exit status to its parent and free the zombie. -/
def reap (p q : Slot) (addr : Nat) (xstate : Int) : M Bool := do
  let ok ← storeStatus p addr xstate
  if ok = false then pure false
  else
    freeproc q
    pure true

def waitCall (target : Option Int) (addr : Nat) : Call :=
  match target with
  | none => .wait addr
  | some pid => .waitpid pid addr

/-- `kwaitpid` looks for one child, `kwait` for any. -/
def wanted (p : Slot) (target : Option Int) (x : Proc) : Bool :=
  decide (x.parent = some p) && target.all fun pid => x.pid == pid

def waitScan (s : Kernel) (p : Slot) (target : Option Int) (addr i : Nat) (havekids : Bool) :
    Option (Except Panic Kernel) :=
  if h : i < 64 then
    let q : Slot := ⟨i, h⟩
    if wanted p target (s.proc q) then
      if s.lockFree q then
        if (s.proc q).state = .zombie then
          some (s.onMem (reap p q addr (s.proc q).xstate) fun ok s' =>
            if ok then
              (s'.setProc q fun _ => Proc.free).leave p (waitCall target addr) (s.proc q).pid
            else s'.leave p (waitCall target addr) (-1))
        else
          let next := if target.isSome then 64 else i + 1
          some (.ok (s.goto p (.crit (.waitScan target addr next true))))
      else none
    else some (.ok (s.goto p (.crit (.waitScan target addr (i + 1) havekids))))
  else if havekids = false ∨ (s.proc p).killed = true then
    some (.ok (s.leave p (waitCall target addr) (-1)))
  else some (.ok (s.goto p (.sleepLock (.proc p) (.waitScan target addr 0 false))))

/-- The loop of `reparent` at slot `i`, and after it the wakeup of the parent. -/
def reparent (s : Kernel) (p : Slot) (status : Int) (i : Nat) : Kernel :=
  if h : i < 64 then
    let q : Slot := ⟨i, h⟩
    if (s.proc q).parent = some p then
      (s.setProc q fun x => { x with parent := some s.initproc }).goto p
        (.wakeup (some (.proc s.initproc)) 0 (.reparent status (i + 1)))
    else s.goto p (.crit (.reparent status (i + 1)))
  else s.goto p (.wakeup ((s.proc p).parent.map .proc) 0 (.exitMark status))

def exitMark (s : Kernel) (p : Slot) (status : Int) : Kernel :=
  (s.setProc p fun x =>
    { x with xstate := status, state := .zombie, pc := .exitDrop }).record
    (.exited p (s.proc p).pid status)

/-- One step of a process that holds `wait_lock`. -/
def critical (s : Kernel) (p : Slot) : Point → Option (Except Panic Kernel)
  | .getppid => some (.ok (sysGetppid s p))
  | .mutexCreate => some (.ok (sysMutexCreate s p))
  | .mutexLock id => some (.ok (sysMutexLock s p id))
  | .mutexWoken id => some (.ok (
    if (s.proc p).killed then s.leave p (.mutexLock id.val) (-1) else sysMutexLock s p id))
  | .mutexUnlock id => some (.ok (sysMutexUnlock s p id))
  | .mutexUnlocked id => some (.ok (s.leave p (.mutexUnlock id.val) 0))
  | .mutexTrylock id => some (.ok (sysMutexTrylock s p id))
  | .mutexOwner id => some (.ok (sysMutexOwner s p id))
  | .link np pid k => some (.ok (link s p np pid k))
  | .waitScan target addr i havekids => waitScan s p target addr i havekids
  | .reparent status i => some (.ok (reparent s p status i))
  | .exitMark status => some (.ok (exitMark s p status))

/-- One step of a process inside the kernel. -/
def proceed (s : Kernel) (p : Slot) : Option (Except Panic Kernel) :=
  match (s.proc p).pc with
  | .user | .asleep _ | .dead => none
  | .acquire k => if s.waitLock = none then some (.ok ((s.acquire p).goto p (.crit k))) else none
  | .crit k => critical s p k
  | .sleepLock c k => some (.ok (s.goto p (.sleepDrop c k)))
  | .sleepDrop c k => some (.ok (s.release.goto p (.sleepSet c k)))
  | .sleepSet c k => some (.ok (s.setProc p fun x =>
    { x with chan := some c, state := .sleeping, pc := .asleep k }))
  | .wakeup c i k => (wakeup s p c i k).map .ok
  | .search f pid i => (search s p f pid i).map .ok
  | .alloc k i => alloc s p k i
  | .publish np pid k => (publish s p np pid k).map .ok
  | .created k rc => some (.ok (created s p k rc))
  | .exitDrop => some (.ok (s.release.goto p .exitSched))
  | .exitSched => some (.ok (s.goto p .dead))

/-- `kexit` up to its first `acquire`. -/
def kexit (s : Kernel) (p : Slot) (status : Int) : Except Panic Kernel :=
  if p = s.initproc then .error .initExiting
  else .ok (s.goto p (.acquire (.reparent status 0)))

/-- The system calls that only touch memory. -/
def Call.memory (p : Slot) : Call → Option (M Int)
  | .exec img argv => some (execProc p img argv)
  | .sbrk n t => some (sysSbrk p n t)
  | .shmget key size => some (sysShmget key size)
  | .shmat id => some (sysShmat p id)
  | .shmdt id => some (sysShmdt p id)
  | _ => none

/-- `ksignal_send` calls one of three searches. -/
def ksignalSend (pid sig : Int) : Option Pc :=
  if sig = 1 then some (.search .kill pid 0)
  else if sig = 2 then some (.search .freeze pid 0)
  else if sig = 3 then some (.search .thaw pid 0)
  else none

/-- The first point of a system call that is not `exit` and not about memory, or
`none` where it returns -1 at once. -/
def Call.start (sz : Nat) : Call → Option Pc
  | .wait addr => some (.acquire (.waitScan none addr 0 false))
  | .waitpid pid addr =>
    if pid ≤ 0 then none else some (.acquire (.waitScan (some pid) addr 0 false))
  | .fork => some (.alloc .fork 0)
  | .forkn n => if n ≤ 0 then none else some (.alloc (.forkn n 0 0) 0)
  | .threadCreate fn arg => if sz ≤ fn then none else some (.alloc (.thread fn arg) 0)
  | .kill pid => some (.search .kill pid 0)
  | .freeze pid => some (.search .freeze pid 0)
  | .thaw pid => some (.search .thaw pid 0)
  | .signalSend pid sig => ksignalSend pid sig
  | .getprocstate pid => if pid ≤ 0 then none else some (.search .getprocstate pid 0)
  | .getppid => some (.acquire .getppid)
  | .mutexCreate => some (.acquire .mutexCreate)
  | .mutexLock id => (mutexId id).map fun id => .acquire (.mutexLock id)
  | .mutexUnlock id => (mutexId id).map fun id => .acquire (.mutexUnlock id)
  | .mutexTrylock id => (mutexId id).map fun id => .acquire (.mutexTrylock id)
  | .mutexOwner id => (mutexId id).map fun id => .acquire (.mutexOwner id)
  | .exit _ | .exec _ _ | .sbrk _ _ | .shmget _ _ | .shmat _ | .shmdt _ => none

/-- `usertrap` for a system call: a killed process exits instead. -/
def syscall (s : Kernel) (p : Slot) (c : Call) : Except Panic Kernel :=
  if (s.proc p).killed then kexit s p (-1)
  else
    match c with
    | .exit status => kexit s p status
    | c =>
      match c.memory p with
      | some m => s.onMem m fun r s => s.ret p c r
      | none =>
        match c.start (s.mem.space p).sz with
        | some pc => .ok (s.goto p pc)
        | none => .ok (s.ret p c (-1))

/-- `usertrap` for a page fault. -/
def fault (s : Kernel) (p : Slot) (va : Nat) : Except Panic Kernel :=
  s.onMem (pageFault p va) fun ok s =>
    if ok then s else s.setProc p fun x => { x with killed := true }

/-- The scheduler's switch to a process, and what the process does first: return
from `sched`, out of `sleep` with a new attempt at `wait_lock`. -/
def Proc.resume (x : Proc) : Proc :=
  match x.pc with
  | .asleep k => { x with state := .running, chan := none, pc := .acquire k }
  | _ => { x with state := .running }

inductive Op where
  | dispatch
  | yield
  | call (c : Call)
  | fault (va : Nat)
  | proceed

/-- A step of process `p`. `fails` says which calls of `kalloc` in it find no
memory. -/
structure Action where
  p : Slot
  op : Op
  fails : List Bool

def Kernel.withFails (s : Kernel) (fails : List Bool) : Kernel :=
  s.setMem { s.mem with kmem := { s.mem.kmem with fails := fails } }

/-- The process is on a CPU: it runs, or it is a zombie that has not yet switched
to the scheduler. -/
def Proc.onCpu (x : Proc) : Bool :=
  match x.state, x.pc with
  | .running, _ | .zombie, .exitDrop | .zombie, .exitSched => true
  | _, _ => false

def Proc.atUser (x : Proc) : Bool :=
  match x.state, x.pc with
  | .running, .user => true
  | _, _ => false

/-- `none` where the step cannot be taken. -/
def act (a : Action) (s : Kernel) : Option (Except Panic Kernel) :=
  let s := s.withFails a.fails
  let x := s.proc a.p
  match a.op with
  | .dispatch =>
    if x.state = .runnable ∧ x.frozen = false ∧ s.lockFree a.p then
      some (.ok (s.setProc a.p Proc.resume))
    else none
  | .yield =>
    if x.state = .running ∧ x.pc.preemptible then
      some (.ok (s.setProc a.p fun x => { x with state := .runnable }))
    else none
  | .call c => if x.atUser then some (syscall s a.p c) else none
  | .fault va => if x.atUser then some (fault s a.p va) else none
  | .proceed => if x.onCpu then proceed s a.p else none

/-- Run a list of actions; `none` if one of them cannot be taken. -/
def run : List Action → Kernel → Option (Except Panic Kernel)
  | [], s => some (.ok s)
  | a :: rest, s =>
    match act a s with
    | some (.ok s') => run rest s'
    | r => r

end KernelProc
