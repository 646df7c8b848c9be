import Xv6Filesrv.KernelProc

/-!
# Freezing processes that hold sleep-locks or have begun an operation

The sleep-locks of `kernel/sleeplock.c` and the transactions of `kernel/log.c`, used by processes
that the scheduler, the timer, `sleep` and `wakeup` take on and off the CPUs and that `kfreeze`,
`kthaw` and `kkill` signal at any moment.  As in `KernelProc` a step ends where other CPUs can come
between: at every attempt to take a spinlock, after every slot that a loop over the process table
visits, and at the three stages of `sleep`.  Each channel that is slept on has one spinlock that
guards it: a sleep-lock its `lk->lk`, the log `log.lock`, and so do the channels of the drivers.
-/

namespace KernelFreeze

open KernelShm
open KernelProc (ProcState Search Proc)

variable {ι : Type}

structure Sleeplock where
  locked : Bool
  pid : Int
  deriving DecidableEq

/-- `struct log` in memory; `blocks` are the first `lh.n` entries of `lh.block`. -/
structure Log where
  outstanding : Int
  committing : Bool
  blocks : List Nat

def maxopblocks : Int := 10

def logblocks : Int := 30

/-- One more operation might exhaust log space. -/
def Log.full (l : Log) : Bool :=
  decide (logblocks < l.blocks.length + (l.outstanding + 1) * maxopblocks)

/-- What processes sleep on: a sleep-lock, the log, or a channel of some driver. -/
inductive Chan (ι : Type) where
  | sleeplock (i : ι)
  | log
  | device (n : Nat)
  deriving DecidableEq

/-- Where a process is with respect to `begin_op` and `end_op`. In `committing` it has called
`end_op`, which has called `commit`. -/
inductive Phase where
  | outside
  | inside
  | committing
  deriving DecidableEq

/-- Program points that a process reaches with the spinlock of their channel held. -/
inductive Point (ι : Type) where
  | acquiresleep (i : ι)
  | releasesleep (i : ι)
  | beginOp
  | endOp
  | endCommit
  | logWrite (blockno : Nat)
  | sleep (n : Nat)
  | woken (n : Nat)
  | wakeup (n : Nat)

def Point.chan : Point ι → Chan ι
  | .acquiresleep i | .releasesleep i => .sleeplock i
  | .beginOp | .endOp | .endCommit | .logWrite _ => .log
  | .sleep n | .woken n | .wakeup n => .device n

/-- Where a process is: anywhere with no spinlock held, spinning on one, past it, inside `sleep` and
`wakeup`, or in a search of the process table. -/
inductive Pc (ι : Type) where
  | run
  | spin (k : Point ι)
  | crit (k : Point ι)
  | sleepLock (k : Point ι)
  | sleepDrop (k : Point ι)
  | sleepSet (k : Point ι)
  | asleep (k : Point ι)
  | wakeup (c : Chan ι) (i : Nat)
  | search (f : Search) (pid : Int) (i : Nat)

/-- The process holds its own `p->lock` from one step to the next. -/
def Pc.holdsOwn : Pc ι → Bool
  | .sleepDrop _ | .sleepSet _ => true
  | _ => false

/-- No spinlock is held or being waited for, so a timer interrupt can preempt. -/
def Pc.preemptible : Pc ι → Bool
  | .run | .search _ _ _ => true
  | _ => false

structure Thread (ι : Type) where
  state : ProcState
  chan : Option (Chan ι)
  killed : Bool
  frozen : Bool
  pid : Int
  phase : Phase
  pc : Pc ι

/-- The fields that the searches of the process table read and write. -/
def Thread.proc (x : Thread ι) : Proc := ⟨x.state, none, x.killed, x.frozen, 0, x.pid, none, .user⟩

/-- `kkill`, `kfreeze` or `kthaw` at the slot they were looking for. -/
def Thread.signal (x : Thread ι) (f : Search) : Thread ι :=
  { x with
    state := (f.effect x.proc).state
    killed := (f.effect x.proc).killed
    frozen := (f.effect x.proc).frozen }

structure System (ι : Type) where
  thread : Slot → Thread ι
  spin : Chan ι → Option Slot
  lock : ι → Sleeplock
  log : Log

inductive Panic where
  | logCommitting
  | tooBig
  | outsideTrans
  deriving DecidableEq

namespace System

def setThread (s : System ι) (p : Slot) (f : Thread ι → Thread ι) : System ι :=
  { s with thread := Function.update s.thread p (f (s.thread p)) }

def goto (s : System ι) (p : Slot) (pc : Pc ι) : System ι := s.setThread p fun x => { x with pc := pc }

def enter (s : System ι) (p : Slot) (phase : Phase) : System ι :=
  s.setThread p fun x => { x with phase := phase }

def setLog (s : System ι) (l : Log) : System ι := { s with log := l }

/-- `acquire(&q->lock)` would not spin. -/
def lockFree (s : System ι) (q : Slot) : Bool := !(s.thread q).pc.holdsOwn

variable [DecidableEq ι]

def acquire (s : System ι) (c : Chan ι) (p : Slot) : System ι :=
  { s with spin := Function.update s.spin c (some p) }

def release (s : System ι) (c : Chan ι) : System ι :=
  { s with spin := Function.update s.spin c none }

/-- Release the spinlock and return. -/
def leave (s : System ι) (p : Slot) (c : Chan ι) : System ι := (s.release c).goto p .run

def setLock (s : System ι) (i : ι) (lk : Sleeplock) : System ι :=
  { s with lock := Function.update s.lock i lk }

end System

section Steps

variable [DecidableEq ι]

/-- The test of the loop in `acquiresleep`. -/
def acquiresleep (s : System ι) (p : Slot) (i : ι) : System ι :=
  if (s.lock i).locked then s.goto p (.sleepLock (.acquiresleep i))
  else (s.setLock i ⟨true, (s.thread p).pid⟩).leave p (.sleeplock i)

def releasesleep (s : System ι) (p : Slot) (i : ι) : System ι :=
  (s.setLock i ⟨false, 0⟩).goto p (.wakeup (.sleeplock i) 0)

def holdingsleep (s : System ι) (p : Slot) (i : ι) : Bool :=
  (s.lock i).locked && (s.lock i).pid == (s.thread p).pid

/-- One turn of the loop in `begin_op`. -/
def beginOp (s : System ι) (p : Slot) : System ι :=
  if s.log.committing then s.goto p (.sleepLock .beginOp)
  else if s.log.full then s.goto p (.sleepLock .beginOp)
  else
    ((s.setLog { s.log with outstanding := s.log.outstanding + 1 }).enter p .inside).leave p .log

/-- `end_op` up to `commit`. -/
def endOp (s : System ι) (p : Slot) : Except Panic (System ι) :=
  let l := { s.log with outstanding := s.log.outstanding - 1 }
  if l.committing then .error .logCommitting
  else if l.outstanding = 0 then
    .ok (((s.setLog { l with committing := true }).enter p .committing).leave p .log)
  else .ok (((s.setLog l).enter p .outside).goto p (.wakeup .log 0))

/-- `end_op` after `commit`. -/
def endCommit (s : System ι) (p : Slot) : System ι :=
  ((s.setLog { s.log with committing := false }).enter p .outside).goto p (.wakeup .log 0)

def logWrite (s : System ι) (p : Slot) (blockno : Nat) : Except Panic (System ι) :=
  if logblocks ≤ s.log.blocks.length then .error .tooBig
  else if s.log.outstanding < 1 then .error .outsideTrans
  else
    let blocks :=
      if blockno ∈ s.log.blocks then s.log.blocks else s.log.blocks ++ [blockno]
    .ok ((s.setLog { s.log with blocks := blocks }).leave p .log)

/-- One step of a process that holds the spinlock of its point. -/
def critical (s : System ι) (p : Slot) : Point ι → Except Panic (System ι)
  | .acquiresleep i => .ok (acquiresleep s p i)
  | .releasesleep i => .ok (releasesleep s p i)
  | .beginOp => .ok (beginOp s p)
  | .endOp => endOp s p
  | .endCommit => .ok (endCommit s p)
  | .logWrite b => logWrite s p b
  | .sleep n => .ok (s.goto p (.sleepLock (.woken n)))
  | .woken n => .ok (s.leave p (.device n))
  | .wakeup n => .ok (s.goto p (.wakeup (.device n) 0))

/-- `wakeup` at the slot of another process. -/
def rouse (c : Chan ι) (x : Thread ι) : Thread ι :=
  if x.state = .sleeping ∧ x.chan = some c then { x with state := .runnable } else x

/-- The loop of `wakeup` at slot `i`, and the release of the spinlock after it. -/
def wakeup (s : System ι) (p : Slot) (c : Chan ι) (i : Nat) : Option (System ι) :=
  if h : i < 64 then
    let q : Slot := ⟨i, h⟩
    if q = p then some (s.goto p (.wakeup c (i + 1)))
    else if s.lockFree q then some ((s.setThread q (rouse c)).goto p (.wakeup c (i + 1)))
    else none
  else some (s.leave p c)

/-- The loop of `kkill`, `kfreeze` and `kthaw` at slot `i`. -/
def search (s : System ι) (p : Slot) (f : Search) (pid : Int) (i : Nat) : Option (System ι) :=
  if h : i < 64 then
    let q : Slot := ⟨i, h⟩
    if s.lockFree q then
      if f.hits pid (s.thread q).proc then some ((s.setThread q fun x => x.signal f).goto p .run)
      else some (s.goto p (.search f pid (i + 1)))
    else none
  else some (s.goto p .run)

/-- One step of a process inside the kernel. -/
def proceed (s : System ι) (p : Slot) : Option (Except Panic (System ι)) :=
  match (s.thread p).pc with
  | .run | .asleep _ => none
  | .spin k =>
    if s.spin k.chan = none then some (.ok ((s.acquire k.chan p).goto p (.crit k))) else none
  | .crit k => some (critical s p k)
  | .sleepLock k => some (.ok (s.goto p (.sleepDrop k)))
  | .sleepDrop k => some (.ok ((s.release k.chan).goto p (.sleepSet k)))
  | .sleepSet k => some (.ok (s.setThread p fun x =>
    { x with chan := some k.chan, state := .sleeping, pc := .asleep k }))
  | .wakeup c i => (wakeup s p c i).map .ok
  | .search f pid i => (search s p f pid i).map .ok

/-- What a process can do next. `commit` is the end of `commit()`, `sleep` and `wakeup` stand for
those of the drivers. -/
inductive Call (ι : Type) where
  | acquiresleep (i : ι)
  | releasesleep (i : ι)
  | beginOp
  | endOp
  | commit
  | logWrite (blockno : Nat)
  | sleep (n : Nat)
  | wakeup (n : Nat)
  | search (f : Search) (pid : Int)
  | signalSend (pid sig : Int)

/-- `ksignal_send` calls one of three searches. -/
def ksignalSend (pid sig : Int) : Pc ι :=
  if sig = 1 then .search .kill pid 0
  else if sig = 2 then .search .freeze pid 0
  else if sig = 3 then .search .thaw pid 0
  else .run

/-- `none` where the kernel does not make the call: a sleep-lock is released by its holder, as
`brelse` and `iunlock` test, and operations are not nested. -/
def call (s : System ι) (p : Slot) : Call ι → Option (System ι)
  | .acquiresleep i => some (s.goto p (.spin (.acquiresleep i)))
  | .releasesleep i =>
    if holdingsleep s p i then some (s.goto p (.spin (.releasesleep i))) else none
  | .beginOp => if (s.thread p).phase = .outside then some (s.goto p (.spin .beginOp)) else none
  | .endOp => if (s.thread p).phase = .inside then some (s.goto p (.spin .endOp)) else none
  | .commit =>
    if (s.thread p).phase = .committing then
      some ((s.setLog { s.log with blocks := [] }).goto p (.spin .endCommit))
    else none
  | .logWrite b => some (s.goto p (.spin (.logWrite b)))
  | .sleep n => some (s.goto p (.spin (.sleep n)))
  | .wakeup n => some (s.goto p (.spin (.wakeup n)))
  | .search f pid => some (s.goto p (.search f pid 0))
  | .signalSend pid sig => some (s.goto p (ksignalSend pid sig))

/-- The scheduler's switch to a process, and the return from `sched`. -/
def Thread.resume (x : Thread ι) : Thread ι :=
  match x.pc with
  | .asleep k => { x with state := .running, chan := none, pc := .spin k }
  | _ => { x with state := .running }

/-- `interrupt n` is the visit of a driver's `wakeup` outside any process. -/
inductive Op (ι : Type) where
  | dispatch
  | yield
  | call (c : Call ι)
  | proceed
  | interrupt (n : Nat)

structure Action (ι : Type) where
  p : Slot
  op : Op ι

def atRun (x : Thread ι) : Bool :=
  match x.state, x.pc with
  | .running, .run => true
  | _, _ => false

/-- `none` where the step cannot be taken. -/
def act (a : Action ι) (s : System ι) : Option (Except Panic (System ι)) :=
  let x := s.thread a.p
  match a.op with
  | .dispatch =>
    if x.state = .runnable ∧ x.frozen = false ∧ s.lockFree a.p then
      some (.ok (s.setThread a.p Thread.resume))
    else none
  | .yield =>
    if x.state = .running ∧ x.pc.preemptible then
      some (.ok (s.setThread a.p fun x => { x with state := .runnable }))
    else none
  | .call c => if atRun x then (call s a.p c).map .ok else none
  | .proceed => if x.state = .running then proceed s a.p else none
  | .interrupt n =>
    if s.lockFree a.p then some (.ok (s.setThread a.p (rouse (.device n)))) else none

end Steps

end KernelFreeze
