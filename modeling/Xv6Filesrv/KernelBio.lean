import Mathlib.Data.List.FinRange
import Xv6Filesrv.KernelLog
import Xv6Filesrv.LinkedRing

/-!
# The buffer cache

`kernel/bio.c`.  A step is a section under `bcache.lock`, a taking or giving back of a buffer's
sleep-lock, or the work of a process that has the lock.  `uses` are the calls that processes have
open between `bget` and the end of `brelse`; a process may have several.  What `bpin` adds to a
reference count belongs to the log and is counted in `pins`.
-/

namespace KernelBio

open KernelLog (Block)
open LinkedRing (Links)
open Function (update)

abbrev nbuf : Nat := 30

abbrev Id := Fin nbuf

/-- A node of the list, `none` being `bcache.head`. -/
abbrev Node := Option Id

/-- Device and block number. -/
abbrev Key := Nat × Nat

variable {ι : Type} [DecidableEq ι]

structure Buf (ι : Type) where
  valid : Bool
  key : Key
  /-- `uint` in the source.  It is the number of calls and pins that a buffer has, so it is never
  negative, and with `NPROC` processes it stays far below `2 ^ 32`. -/
  refcnt : Int
  /-- the process that holds the sleep-lock -/
  lock : Option ι
  data : Block

inductive Stage where
  | waiting
  | locked
  | released
  deriving DecidableEq

structure Use (ι : Type) where
  proc : ι
  key : Key
  id : Id
  stage : Stage
  deriving DecidableEq

structure State (ι : Type) where
  buf : Id → Buf ι
  links : Links Node
  disk : Key → Block
  uses : List (Use ι)
  pins : Id → Nat

inductive Panic where
  | noBuffers
  | bwrite
  | brelse

def State.setBuf (s : State ι) (i : Id) (b : Buf ι) : State ι :=
  { s with buf := update s.buf i b }

def State.setDisk (s : State ι) (key : Key) (d : Block) : State ι :=
  { s with disk := update s.disk key d }

/-- A buffer is taken for another block. -/
def State.recycle (s : State ι) (i : Id) (key : Key) : State ι :=
  s.setBuf i { s.buf i with key := key, valid := false, refcnt := 1 }

/-! ## Functions -/

/-- The list that `binit` makes, in memory that held the links `l`. -/
def linkAll (l : Links Node) (bs : List Id) : Links Node :=
  bs.foldl (fun l i => LinkedRing.insertFront l none (some i)) l

def binit (l : Links Node) : Links Node :=
  linkAll ⟨update l.next none none, update l.prev none none⟩ (List.finRange nbuf)

/-- The buffers in the order of the loop that starts at `bcache.head.next`. -/
def forth (s : State ι) : List Id :=
  (LinkedRing.walk s.links.next none (nbuf + 1) (s.links.next none)).filterMap id

/-- The buffers in the order of the loop that starts at `bcache.head.prev`. -/
def back (s : State ι) : List Id :=
  (LinkedRing.walk s.links.prev none (nbuf + 1) (s.links.prev none)).filterMap id

/-- Is the block already cached? -/
def cached (s : State ι) (key : Key) : Option Id :=
  (forth s).find? fun i => decide ((s.buf i).key = key)

/-- The least recently used unused buffer. -/
def victim (s : State ι) : Option Id := (back s).find? fun i => decide ((s.buf i).refcnt = 0)

/-- `bget` up to `acquiresleep`. -/
def bget (s : State ι) (p : ι) (key : Key) : Except Panic (State ι) :=
  match cached s key with
  | some i =>
    .ok { s.setBuf i { s.buf i with refcnt := (s.buf i).refcnt + 1 } with
      uses := ⟨p, key, i, .waiting⟩ :: s.uses }
  | none =>
    match victim s with
    | some i =>
      .ok { s.recycle i key with uses := ⟨p, key, i, .waiting⟩ :: s.uses }
    | none => .error .noBuffers

def holdingsleep (s : State ι) (u : Use ι) : Bool := decide ((s.buf u.id).lock = some u.proc)

/-- A call goes on, the others are `rest`. -/
def State.advance (s : State ι) (u : Use ι) (rest : List (Use ι)) (stage : Stage) : State ι :=
  { s with uses := { u with stage := stage } :: rest }

/-- `acquiresleep`, once the lock is free. -/
def acquiresleep (s : State ι) (u : Use ι) (rest : List (Use ι)) : State ι :=
  (s.setBuf u.id { s.buf u.id with lock := some u.proc }).advance u rest .locked

/-- `bread` of a buffer that is not valid: the block is read from the disk. -/
def fill (s : State ι) (u : Use ι) : State ι :=
  s.setBuf u.id { s.buf u.id with data := s.disk (s.buf u.id).key, valid := true }

/-- The process changes the contents. -/
def modify (s : State ι) (u : Use ι) (d : Block) : State ι :=
  s.setBuf u.id { s.buf u.id with data := d }

def bwrite (s : State ι) (u : Use ι) : Except Panic (State ι) :=
  if holdingsleep s u then .ok (s.setDisk (s.buf u.id).key (s.buf u.id).data)
  else .error .bwrite

/-- `brelse` up to the section under `bcache.lock`. -/
def releasesleep (s : State ι) (u : Use ι) (rest : List (Use ι)) : Except Panic (State ι) :=
  if holdingsleep s u then
    .ok ((s.setBuf u.id { s.buf u.id with lock := none }).advance u rest .released)
  else .error .brelse

/-- The rest of `brelse`: a buffer that nobody is waiting for goes to the front. -/
def brelse (s : State ι) (u : Use ι) (rest : List (Use ι)) : State ι × Option Id :=
  let r := (s.buf u.id).refcnt - 1
  let s' := { s.setBuf u.id { s.buf u.id with refcnt := r } with uses := rest }
  if r = 0 then
    ({ s' with links :=
        LinkedRing.insertFront (LinkedRing.unlink s.links (some u.id)) none (some u.id) }, some u.id)
  else (s', none)

def bpin (s : State ι) (i : Id) : State ι :=
  { s.setBuf i { s.buf i with refcnt := (s.buf i).refcnt + 1 } with
    pins := update s.pins i (s.pins i + 1) }

def bunpin (s : State ι) (i : Id) : State ι :=
  { s.setBuf i { s.buf i with refcnt := (s.buf i).refcnt - 1 } with
    pins := update s.pins i (s.pins i - 1) }

/-! ## Runs -/

/-- The steps, with the buffer that becomes unused.  Device `0` is none. -/
inductive Step (s : State ι) : Option Id → State ι → Prop
  | bget (p : ι) (key : Key) (hdev : key.1 ≠ 0) {s' : State ι} (h : bget s p key = .ok s') :
      Step s none s'
  | acquiresleep {u : Use ι} {rest : List (Use ι)} (hu : s.uses.Perm (u :: rest))
      (hst : u.stage = .waiting) (hfree : (s.buf u.id).lock = none) :
      Step s none (acquiresleep s u rest)
  | fill {u : Use ι} (hu : u ∈ s.uses) (hst : u.stage = .locked)
      (hv : (s.buf u.id).valid = false) : Step s none (fill s u)
  | modify {u : Use ι} (hu : u ∈ s.uses) (hst : u.stage = .locked)
      (hv : (s.buf u.id).valid = true) (d : Block) : Step s none (modify s u d)
  | bwrite {u : Use ι} (hu : u ∈ s.uses) (hst : u.stage = .locked)
      (hv : (s.buf u.id).valid = true) {s' : State ι} (h : bwrite s u = .ok s') : Step s none s'
  | releasesleep {u : Use ι} {rest : List (Use ι)} (hu : s.uses.Perm (u :: rest))
      (hst : u.stage = .locked) (hv : (s.buf u.id).valid = true) {s' : State ι}
      (h : releasesleep s u rest = .ok s') : Step s none s'
  | brelse {u : Use ι} {rest : List (Use ι)} (hu : s.uses.Perm (u :: rest))
      (hst : u.stage = .released) : Step s (brelse s u rest).2 (brelse s u rest).1
  | bpin {u : Use ι} (hu : u ∈ s.uses) (hst : u.stage = .locked) : Step s none (bpin s u.id)
  | bunpin {u : Use ι} (hu : u ∈ s.uses) (hst : u.stage = .locked) (hp : 0 < s.pins u.id) :
      Step s none (bunpin s u.id)

/-- The cache as the system starts: zeroed memory, with the list that `binit` has made. -/
def start (l : Links Node) (disk : Key → Block) : State ι where
  buf _ := ⟨false, (0, 0), 0, none, fun _ => 0⟩
  links := binit l
  disk := disk
  uses := []
  pins _ := 0

/-- The states that runs come to, with the time at which each buffer became unused last. -/
inductive Reach (l : Links Node) (disk : Key → Block) : State ι → (Id → Nat) → Nat → Prop
  | start : Reach l disk (start l disk) (fun i => i.val) nbuf
  | step {s s' : State ι} {stamp : Id → Nat} {now : Nat} {freed : Option Id}
      (h : Reach l disk s stamp now) (hs : Step s freed s') :
      Reach l disk s' (freed.elim stamp fun i => update stamp i now) (now + 1)

end KernelBio
