import Xv6Filesrv.RingBuffer

/-!
# Pipes

`kernel/pipe.c` with any number of processes that read and write one pipe.  A step is one turn of a
loop under the pipe's lock, so that a process can be killed between two bytes; `sleep` gives the
lock back in the same step, and a process that is woken has to take it again.  What `copyin` and
`copyout` say is up to the memory of the process, which other processes may share.

A call holds a reference to its end of the pipe: `pipeclose` comes for an end when no call is left
that uses it.
-/

namespace KernelPipe

abbrev pipesize : Nat := 512

structure Pipe where
  data : Fin pipesize → UInt8
  nread : UInt32
  nwrite : UInt32
  readopen : Bool
  writeopen : Bool

/-- Where a call is: before the lock, on its channel, or at the head of its loop with the lock. -/
inductive Point where
  | acquire
  | asleep
  | loop
  deriving DecidableEq

/-- What a process does: `pipewrite`, the loop of `piperead` that waits, or the one that copies.  A
call was asked for `n` bytes and has moved `i`. -/
inductive Call where
  | outside
  | writing (n : Int) (i : Nat) (pt : Point)
  | waiting (n : Int) (pt : Point)
  | copying (n : Int) (i : Nat)
  deriving DecidableEq

variable {ι : Type} [DecidableEq ι]

structure State (ι : Type) where
  pipe : Pipe
  lock : Option ι
  call : ι → Call
  killed : ι → Bool

inductive Event (ι : Type) where
  | began (p : ι)
  | put (p : ι) (c : UInt8)
  | got (p : ι) (c : UInt8)
  | returned (p : ι) (v : Int)

/-- A pipe as `pipealloc` makes it, in a page with old contents. -/
def pipealloc (data : Fin pipesize → UInt8) : State ι where
  pipe := ⟨data, 0, 0, true, true⟩
  lock := none
  call _ := .outside
  killed _ := false

/-! ## Steps -/

def Call.wakeReader : Call → Call
  | .waiting n .asleep => .waiting n .acquire
  | c => c

def Call.wakeWriter : Call → Call
  | .writing n i .asleep => .writing n i .acquire
  | c => c

def Call.isWriting : Call → Bool
  | .writing _ _ _ => true
  | _ => false

def Call.isReading : Call → Bool
  | .waiting _ _ => true
  | .copying _ _ => true
  | _ => false

namespace State

variable (s : State ι)

def enter (p : ι) (c : Call) : State ι := { s with call := Function.update s.call p c }

/-- `wakeup(&pi->nread)` -/
def wakeupRead : State ι := { s with call := fun q => (s.call q).wakeReader }

/-- `wakeup(&pi->nwrite)` -/
def wakeupWrite : State ι := { s with call := fun q => (s.call q).wakeWriter }

def acquire (p : ι) : State ι := { s with lock := some p }

def release : State ι := { s with lock := none }

/-- `pi->data[pi->nwrite++ % PIPESIZE] = ch` -/
def push (c : UInt8) : State ι :=
  { s with pipe := { s.pipe with
      data := Function.update s.pipe.data (RingBuffer.slot pipesize s.pipe.nwrite) c
      nwrite := s.pipe.nwrite + 1 } }

/-- `pi->nread++` -/
def pop : State ι := { s with pipe := { s.pipe with nread := s.pipe.nread + 1 } }

/-- `pi->data[pi->nread % PIPESIZE]` -/
def next : UInt8 := s.pipe.data (RingBuffer.slot pipesize s.pipe.nread)

/-- The bytes that are in the pipe. -/
def bytes : List UInt8 :=
  RingBuffer.items s.pipe.data s.pipe.nread (RingBuffer.count s.pipe.nread s.pipe.nwrite)

end State

/-- The end of `pipewrite`. -/
def wrote (s : State ι) (p : ι) (i : Nat) : State ι × Option (Event ι) :=
  ((s.wakeupRead.release).enter p .outside, some (.returned p i))

/-- A turn of the loop of `pipewrite`, where `copyin` gives `ch`. -/
def pipewrite (s : State ι) (p : ι) (n : Int) (i : Nat) (ch : Option UInt8) :
    State ι × Option (Event ι) :=
  if (i : Int) < n then
    if s.pipe.readopen = false ∨ s.killed p = true then
      (s.release.enter p .outside, some (.returned p (-1)))
    else if s.pipe.nwrite = s.pipe.nread + 512 then
      ((s.wakeupRead.release).enter p (.writing n i .asleep), none)
    else match ch with
      | none => wrote s p i
      | some c => ((s.push c).enter p (.writing n (i + 1) .loop), some (.put p c))
  else wrote s p i

/-- A turn of the loop of `piperead` that waits for bytes. -/
def piperead (s : State ι) (p : ι) (n : Int) : State ι × Option (Event ι) :=
  if s.pipe.nread = s.pipe.nwrite ∧ s.pipe.writeopen = true then
    if s.killed p = true then (s.release.enter p .outside, some (.returned p (-1)))
    else (s.release.enter p (.waiting n .asleep), none)
  else (s.enter p (.copying n 0), none)

/-- The end of `piperead`. -/
def readOut (s : State ι) (p : ι) (v : Int) : State ι × Option (Event ι) :=
  ((s.wakeupWrite.release).enter p .outside, some (.returned p v))

/-- A turn of the loop of `piperead` that copies, where `copyout` succeeds or not. -/
def pipecopy (s : State ι) (p : ι) (n : Int) (i : Nat) (ok : Bool) : State ι × Option (Event ι) :=
  if (i : Int) < n then
    if s.pipe.nread = s.pipe.nwrite then readOut s p i
    else if ok then (s.pop.enter p (.copying n (i + 1)), some (.got p s.next))
    else readOut s p (if i = 0 then -1 else i)
  else readOut s p i

def pipeclose (s : State ι) (writable : Bool) : State ι :=
  if writable then { s with pipe := { s.pipe with writeopen := false } }.wakeupRead
  else { s with pipe := { s.pipe with readopen := false } }.wakeupWrite

/-- A process that is killed does not sleep any longer. -/
def kill (s : State ι) (p : ι) : State ι :=
  { s.enter p (s.call p).wakeReader.wakeWriter with killed := Function.update s.killed p true }

/-- The steps of the system. -/
inductive Step (s : State ι) : Option (Event ι) → State ι → Prop
  | write (p : ι) (n : Int) (hp : s.call p = .outside) (ho : s.pipe.writeopen = true) :
      Step s (some (.began p)) (s.enter p (.writing n 0 .acquire))
  | read (p : ι) (n : Int) (hp : s.call p = .outside) (ho : s.pipe.readopen = true) :
      Step s (some (.began p)) (s.enter p (.waiting n .acquire))
  | lockWrite (p : ι) {n : Int} {i : Nat} (hp : s.call p = .writing n i .acquire)
      (hl : s.lock = none) : Step s none ((s.acquire p).enter p (.writing n i .loop))
  | lockRead (p : ι) {n : Int} (hp : s.call p = .waiting n .acquire)
      (hl : s.lock = none) : Step s none ((s.acquire p).enter p (.waiting n .loop))
  | put (p : ι) {n : Int} {i : Nat} (ch : Option UInt8) (hp : s.call p = .writing n i .loop) :
      Step s (pipewrite s p n i ch).2 (pipewrite s p n i ch).1
  | wait (p : ι) {n : Int} (hp : s.call p = .waiting n .loop) :
      Step s (piperead s p n).2 (piperead s p n).1
  | copy (p : ι) {n : Int} {i : Nat} (ok : Bool) (hp : s.call p = .copying n i) :
      Step s (pipecopy s p n i ok).2 (pipecopy s p n i ok).1
  | kill (p : ι) : Step s none (kill s p)
  | closeWrite (hl : s.lock = none) (ho : s.pipe.writeopen = true)
      (hnone : ∀ q, (s.call q).isWriting = false) : Step s none (pipeclose s true)
  | closeRead (hl : s.lock = none) (ho : s.pipe.readopen = true)
      (hnone : ∀ q, (s.call q).isReading = false) : Step s none (pipeclose s false)

/-- A run, and what happens on the way. -/
inductive Run (s : State ι) : List (Event ι) → State ι → Prop
  | refl : Run s [] s
  | tail {es : List (Event ι)} {s' s'' : State ι} {e : Option (Event ι)} (h : Run s es s')
      (hs : Step s' e s'') : Run s (es ++ e.toList) s''

/-! ## What a step can do -/

/-- The branches of the loops, with what they found. -/
inductive Move (s : State ι) : Option (Event ι) → State ι → Prop
  | beginWrite (p : ι) (n : Int) (hp : s.call p = .outside) (ho : s.pipe.writeopen = true) :
      Move s (some (.began p)) (s.enter p (.writing n 0 .acquire))
  | beginRead (p : ι) (n : Int) (hp : s.call p = .outside) (ho : s.pipe.readopen = true) :
      Move s (some (.began p)) (s.enter p (.waiting n .acquire))
  | lockWrite (p : ι) {n : Int} {i : Nat} (hp : s.call p = .writing n i .acquire)
      (hl : s.lock = none) : Move s none ((s.acquire p).enter p (.writing n i .loop))
  | lockRead (p : ι) {n : Int} (hp : s.call p = .waiting n .acquire)
      (hl : s.lock = none) : Move s none ((s.acquire p).enter p (.waiting n .loop))
  | quitWrite (p : ι) {n : Int} {i : Nat} (hp : s.call p = .writing n i .loop)
      (hq : s.pipe.readopen = false ∨ s.killed p = true) :
      Move s (some (.returned p (-1))) (s.release.enter p .outside)
  | sleepWrite (p : ι) {n : Int} {i : Nat} (hp : s.call p = .writing n i .loop)
      (ho : s.pipe.readopen = true) (hf : s.pipe.nwrite = s.pipe.nread + 512) :
      Move s none ((s.wakeupRead.release).enter p (.writing n i .asleep))
  | push (p : ι) {n : Int} {i : Nat} (c : UInt8) (hp : s.call p = .writing n i .loop)
      (hf : s.pipe.nwrite ≠ s.pipe.nread + 512) :
      Move s (some (.put p c)) ((s.push c).enter p (.writing n (i + 1) .loop))
  | wrote (p : ι) {n : Int} {i : Nat} (hp : s.call p = .writing n i .loop) :
      Move s (some (.returned p i)) ((s.wakeupRead.release).enter p .outside)
  | quitRead (p : ι) {n : Int} (hp : s.call p = .waiting n .loop)
      (hk : s.killed p = true) : Move s (some (.returned p (-1))) (s.release.enter p .outside)
  | sleepRead (p : ι) {n : Int} (hp : s.call p = .waiting n .loop)
      (he : s.pipe.nread = s.pipe.nwrite) (ho : s.pipe.writeopen = true) :
      Move s none (s.release.enter p (.waiting n .asleep))
  | startCopy (p : ι) {n : Int} (hp : s.call p = .waiting n .loop)
      (hr : s.pipe.nread ≠ s.pipe.nwrite ∨ s.pipe.writeopen = false) :
      Move s none (s.enter p (.copying n 0))
  | pop (p : ι) {n : Int} {i : Nat} (hp : s.call p = .copying n i)
      (he : s.pipe.nread ≠ s.pipe.nwrite) :
      Move s (some (.got p s.next)) (s.pop.enter p (.copying n (i + 1)))
  | readOut (p : ι) {n : Int} {i : Nat} (v : Int) (hp : s.call p = .copying n i)
      (hv : v = -1 ∨ v = i) (hn : v = 0 → 0 < n → s.pipe.nread = s.pipe.nwrite) :
      Move s (some (.returned p v)) ((s.wakeupWrite.release).enter p .outside)
  | kill (p : ι) : Move s none (kill s p)
  | closeWrite (hl : s.lock = none) (hnone : ∀ q, (s.call q).isWriting = false) :
      Move s none ({ s with pipe := { s.pipe with writeopen := false } }.wakeupRead)
  | closeRead (hl : s.lock = none) (hnone : ∀ q, (s.call q).isReading = false) :
      Move s none ({ s with pipe := { s.pipe with readopen := false } }.wakeupWrite)

theorem Move.pipewrite {s : State ι} {p : ι} {n : Int} {i : Nat}
    (hp : s.call p = .writing n i .loop) (ch : Option UInt8) :
    Move s (pipewrite s p n i ch).2 (pipewrite s p n i ch).1 := by
  unfold KernelPipe.pipewrite
  split
  · split
    · next hq => exact .quitWrite p hp hq
    · next hq =>
      rw [not_or, Bool.not_eq_false] at hq
      split
      · next hf => exact .sleepWrite p hp hq.1 hf
      · next hf =>
        cases ch with
        | none => exact .wrote p hp
        | some c => exact .push p c hp hf
  · exact .wrote p hp

theorem Move.piperead {s : State ι} {p : ι} {n : Int} (hp : s.call p = .waiting n .loop) :
    Move s (piperead s p n).2 (piperead s p n).1 := by
  unfold KernelPipe.piperead
  split
  · next he =>
    split
    · next hk => exact .quitRead p hp hk
    · exact .sleepRead p hp he.1 he.2
  · next he =>
    rw [not_and_or, Bool.not_eq_true] at he
    exact .startCopy p hp he

theorem Move.pipecopy {s : State ι} {p : ι} {n : Int} {i : Nat}
    (hp : s.call p = .copying n i) (ok : Bool) :
    Move s (pipecopy s p n i ok).2 (pipecopy s p n i ok).1 := by
  unfold KernelPipe.pipecopy
  split
  · split
    · next he => exact .readOut p _ hp (.inr rfl) fun _ _ => he
    · next he =>
      split
      · exact .pop p hp he
      · refine .readOut p _ hp ?_ ?_
        · split
          · exact .inl rfl
          · exact .inr rfl
        · intro hv
          split at hv
          · cases hv
          · next hi => exact absurd (Int.ofNat.inj hv) hi
  · next hn =>
    refine .readOut p _ hp (.inr rfl) fun hv hpos => ?_
    omega

theorem Step.move {s s' : State ι} {e : Option (Event ι)} (h : Step s e s') : Move s e s' := by
  cases h with
  | write p n hp ho => exact .beginWrite p n hp ho
  | read p n hp ho => exact .beginRead p n hp ho
  | lockWrite p hp hl => exact .lockWrite p hp hl
  | lockRead p hp hl => exact .lockRead p hp hl
  | put p ch hp => exact .pipewrite hp ch
  | wait p hp => exact .piperead hp
  | copy p ok hp => exact .pipecopy hp ok
  | kill p => exact .kill p
  | closeWrite hl _ hnone => exact .closeWrite hl hnone
  | closeRead hl _ hnone => exact .closeRead hl hnone

end KernelPipe
