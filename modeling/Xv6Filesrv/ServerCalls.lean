import Xv6Filesrv.ProgramRuns
import Xv6Filesrv.ServerOps

/-!
# Properties of the server's programs

The functions below the operations are gone through once here, for any property of programs that
sequencing preserves.  To know it of a function it is enough to know it of the calls that the
function makes and of the loops over a file or a socket.
-/

namespace ServerCalls

open ServerResp ServerPaths ServerOps Programs.Prog ProgramRuns

/-- Calls that concern neither locks nor clients nor the names of files. -/
def Basic : Call → Prop
  | .errno | .setErrno _ | .malloc _ | .strdup _ => True
  | .fstat _ | .read _ _ | .write _ _ | .fsync _ => True
  | .time | .fopen _ | .fseekEnd _ | .fseekSet | .ftell | .fread _ | .fclose => True
  | _ => False

/-- The calls of `src/locks.c` and `src/logger.c`, but for the record that is written. -/
def Locks : Call → Prop
  | .mapLock | .mapUnlock | .getHead | .setHead _ | .calloc | .strdup _ | .rwlockInit _ => True
  | .free _ | .rwlock _ _ | .rwunlock _ => True
  | .time | .logLock | .logUnlock | .fopen _ | .fclose => True
  | _ => False

/-- The calls of `src/locks.c`. -/
def Guards : Call → Prop
  | .mapLock | .mapUnlock | .getHead | .setHead _ | .calloc | .strdup _ | .rwlockInit _ => True
  | .free _ | .rwlock _ _ | .rwunlock _ => True
  | _ => False

/-- Calls that an operation makes around those that name a file. -/
def Usual : Call → Prop
  | .mapLock | .mapUnlock | .getHead | .setHead _ | .calloc | .rwlockInit _ | .free _ => True
  | .rwlock _ _ | .rwunlock _ | .logLock | .logUnlock | .close _ => True
  | c => Basic c

theorem Basic.usual {c : Call} (h : Basic c) : Usual c := by
  cases c <;> first | exact h | trivial

theorem Locks.usual {c : Call} (h : Locks c) : Usual c := by
  cases c <;> first | exact h | trivial

/-- A property of programs that sequencing preserves. -/
structure Sequential (M : {α : Type} → Server α → Prop) : Prop where
  pure : ∀ {α : Type} (a : α), M (pure a : Server α)
  bind : ∀ {α β : Type} {p : Server α} {f : α → Server β}, M p → (∀ a, M (f a)) → M (p >>= f)

/-- Locks may be used. -/
structure Guarding (M : {α : Type} → Server α → Prop) : Prop extends Sequential M where
  guards : ∀ c, Guards c → M (ask c)

/-- Locks may be used and the log may be opened. -/
structure Locking (M : {α : Type} → Server α → Prop) : Prop extends Sequential M where
  locks : ∀ c, Locks c → M (ask c)

/-- Basic calls may be made, and the loops over a file have the property. -/
structure Plain (M : {α : Type} → Server α → Prop) : Prop extends Sequential M where
  basic : ∀ c, Basic c → M (ask c)
  readLoop : ∀ f sz, M (readLoop f sz)
  writeLoop : ∀ f data, M (writeLoop f data)
  copyLoop : ∀ srcFd dstFd, M (copyLoop srcFd dstFd)

/-- Everything that operations do without naming a file. -/
structure Common (M : {α : Type} → Server α → Prop) : Prop extends Locking M, Plain M where
  close : ∀ fd, M (ask (.close fd))

variable {M : {α : Type} → Server α → Prop} {α : Type}

/-! ## Below the operations -/

section Plain

variable (h : Plain M)

include h

/-- A basic call and what follows it. -/
theorem Plain.next {c : Call} {f : Answer c → Server α} (hc : Basic c) (hf : ∀ r, M (f r)) :
    M (ask c >>= f) :=
  h.bind (h.basic c hc) hf

/-- The loop of `mkdir` calls; which directories it may create is left to the caller. -/
theorem Plain.mkdirs (dirs : List Bytes) (hd : ∀ d ∈ dirs, M (ask (.mkdir d))) :
    M (mkdirs dirs) := by
  induction dirs with
  | nil => exact h.pure _
  | cons dir dirs ih =>
    have hrest := ih fun d hmem => hd d (List.mem_cons_of_mem _ hmem)
    apply h.bind (hd dir List.mem_cons_self)
    intro r
    split
    · exact hrest
    · refine h.next trivial fun e => ?_
      split
      · exact hrest
      · exact h.pure _

/-- A path that is too long fails before a directory is made. -/
theorem Plain.ensureParentDirs (filepath : Bytes)
    (hd : ∀ d ∈ parentDirs filepath, M (ask (.mkdir d))) : M (pathEnsureParentDirs filepath) := by
  unfold pathEnsureParentDirs snprintf
  split
  · exact h.pure _
  · next tmp htmp =>
    simp only [Option.ite_none_left_eq_some, Option.some.injEq] at htmp
    obtain ⟨-, rfl⟩ := htmp
    exact h.mkdirs _ hd

theorem Plain.seekBack (size : Int) : M (seekBack size) := by
  refine h.next trivial fun found => ?_
  split
  · exact h.pure _
  · exact h.basic _ trivial

/-- The end of the log: two seeks, a tell and a single `fread`. -/
theorem Plain.readLogWindow : M readLogWindow := by
  have hclose : M (do ask .fclose; Pure.pure (none : Option Bytes)) :=
    h.next trivial fun _ => h.pure _
  refine h.next trivial fun found => ?_
  split
  · exact hclose
  · refine h.next trivial fun size => ?_
    simp only
    split
    · exact hclose
    · apply h.bind (h.seekBack _)
      intro found
      split
      · exact hclose
      · refine h.next trivial fun room => ?_
        split
        · exact hclose
        · refine h.next trivial fun buf => ?_
          exact h.next trivial fun _ => h.pure _

/-- The log file is opened, and closed on every path. -/
theorem Plain.readLogTail (lineLimit : Int) : M (readLogTail lineLimit) := by
  refine h.next trivial fun found => ?_
  split
  · refine h.next trivial fun e => ?_
    split
    · refine h.next trivial fun copied => ?_
      split <;> exact h.pure _
    · exact h.pure _
  · apply h.bind h.readLogWindow
    intro window
    cases window with
    | none => exact h.pure _
    | some buf =>
      simp only
      split
      · exact h.pure _
      · refine h.next trivial fun room => ?_
        split <;> exact h.pure _

/-- The codec allocates and computes. -/
theorem Plain.compress (input : Bytes) : M (rleCompressBytes input) := by
  refine h.next trivial fun room => ?_
  split
  · exact h.next trivial fun _ => h.pure _
  · exact h.pure _

theorem Plain.decompress (input : Bytes) : M (rleDecompressBytes input) := by
  have hfail : ∀ e, M (do ask (.setErrno e); Pure.pure (none : Option Bytes)) :=
    fun e => h.next trivial fun _ => h.pure _
  unfold rleDecompressBytes
  split
  · exact hfail _
  · split
    · exact hfail _
    · split
      · exact hfail _
      · refine h.next trivial fun room => ?_
        split
        · exact hfail _
        · exact h.pure _

end Plain

/-! ## Locks and the log -/

section Guarding

variable (h : Guarding M)

include h

theorem Guarding.then {c : Call} {f : Answer c → Server α} (hc : Guards c) (hf : ∀ r, M (f r)) :
    M (ask c >>= f) :=
  h.bind (h.guards c hc) hf

/-- The registry is searched and extended between `mapLock` and `mapUnlock`. -/
theorem Guarding.getOrCreateLock (path : Bytes) : M (getOrCreateLock path) := by
  refine h.then trivial fun _ => ?_
  refine h.then trivial fun entries => ?_
  split
  · exact h.then trivial fun _ => h.pure _
  · refine h.then trivial fun node => ?_
    cases node with
    | none => exact h.then trivial fun _ => h.pure _
    | some node =>
      have hfree : M (do ask (.free node); ask .mapUnlock; Pure.pure (none : Option Entry)) :=
        h.then trivial fun _ => h.then trivial fun _ => h.pure _
      refine h.then trivial fun copied => ?_
      split
      · exact hfree
      · refine h.then trivial fun ready => ?_
        split
        · exact hfree
        · refine h.then trivial fun next => ?_
          exact h.then trivial fun _ => h.then trivial fun _ => h.pure _

/-- A lock is looked up and then taken. -/
theorem Guarding.locksAcquire (mode : Mode) (path : Bytes) : M (locksAcquire mode path) := by
  apply h.bind (h.getOrCreateLock path)
  intro x
  cases x with
  | none => exact h.pure _
  | some e =>
    refine h.then trivial fun got => ?_
    split <;> exact h.pure _

/-- If the second lock cannot be had, the first is released. -/
theorem Guarding.acquireInOrder (first second : Bytes) : M (acquireInOrder first second) := by
  apply h.bind (h.locksAcquire .write first)
  intro x
  cases x with
  | none => exact h.pure _
  | some e =>
    apply h.bind (h.locksAcquire .write second)
    intro y
    cases y with
    | none => exact h.then trivial fun _ => h.pure _
    | some e' => exact h.pure _

theorem Guarding.acquireBoth (first second : Bytes) (f : Entry → Entry → TwoLocks) :
    M (do
      match ← ServerOps.acquireInOrder first second with
      | none => Pure.pure none
      | some (e, e') => Pure.pure (some (f e e'))) := by
  apply h.bind (h.acquireInOrder first second)
  intro x
  split <;> exact h.pure _

/-- The smaller path first; one lock if both paths are the same. -/
theorem Guarding.acquireTwo (a b : Bytes) : M (locksAcquireTwoWrite a b) := by
  unfold locksAcquireTwoWrite
  split
  · apply h.bind (h.locksAcquire .write a)
    intro x
    cases x <;> exact h.pure _
  · split
    · exact h.acquireBoth b a fun e e' => ⟨e', e, false⟩
    · exact h.acquireBoth a b fun e e' => ⟨e, e', false⟩

end Guarding

section Locking

variable (h : Locking M)

include h

/-- What may take locks may guard. -/
theorem Locking.guarding : Guarding M where
  toSequential := h.toSequential
  guards c hc := by
    apply h.locks c
    cases c <;> first | exact hc | trivial

theorem Locking.then {c : Call} {f : Answer c → Server α} (hc : Locks c) (hf : ∀ r, M (f r)) :
    M (ask c >>= f) :=
  h.bind (h.locks c hc) hf

theorem Locking.locksAcquire (mode : Mode) (path : Bytes) : M (locksAcquire mode path) :=
  h.guarding.locksAcquire mode path

theorem Locking.acquireTwo (a b : Bytes) : M (locksAcquireTwoWrite a b) :=
  h.guarding.acquireTwo a b

theorem Locking.release (e : Entry) : M (locksRelease e) := h.locks _ trivial

/-- Two locks of one path are one lock. -/
theorem Locking.releaseTwo (locks : TwoLocks) : M (locksReleaseTwo locks) := by
  unfold locksReleaseTwo
  split
  · exact h.locks _ trivial
  · exact h.then trivial fun _ => h.locks _ trivial

/-- A record is written under the mutex of the log; which lines are written is left to the caller.
-/
theorem Locking.log (hp : ∀ line, M (ask (.fprintf line))) (client : Bytes) (command : String)
    (target : Bytes) (status : String) (detail : Bytes) :
    M (loggerLog client command target status detail) := by
  refine h.then trivial fun ts => h.then trivial fun _ => h.then trivial fun found => ?_
  split
  · apply h.bind (hp _)
    intro _
    exact h.then trivial fun _ => h.locks _ trivial
  · exact h.locks _ trivial

end Locking

/-! ## Whole files -/

section Common

variable (h : Common M)

include h

theorem Common.usual (c : Call) (hc : Usual c) : M (ask c) := by
  by_cases hb : Basic c
  · exact h.basic c hb
  · cases c <;> first | exact h.locks _ trivial | exact h.close _ | exact absurd hc hb

theorem Common.after {c : Call} {f : Answer c → Server α} (hc : Usual c) (hf : ∀ r, M (f r)) :
    M (ask c >>= f) :=
  h.bind (h.usual c hc) hf

/-- A file is opened, measured and read to its end, and closed on every path. -/
theorem Common.readAllFile {path : Bytes} (ho : M (ask (.open path .read))) :
    M (readAllFile path) := by
  apply h.bind ho
  intro f
  cases f with
  | none => exact h.pure _
  | some f =>
    refine h.after trivial fun size => ?_
    cases size with
    | none => exact h.after trivial fun _ => h.pure _
    | some size =>
      have hfail : ∀ e, M (do
          let _ ← ask (.close f)
          ask (.setErrno e)
          Pure.pure (none : Option Bytes)) :=
        fun e => h.after trivial fun _ => h.after trivial fun _ => h.pure _
      simp only
      split
      · exact hfail _
      · refine h.after trivial fun room => ?_
        split
        · exact hfail _
        · apply h.bind (h.readLoop f _)
          intro out
          exact h.after trivial fun _ => h.pure _

/-- The directories above the file first, then the file is truncated, written, synced and closed. -/
theorem Common.writeAllFile {path : Bytes} (data : Bytes)
    (hd : ∀ d ∈ parentDirs path, M (ask (.mkdir d))) (ho : M (ask (.open path .write))) :
    M (writeAllFile path data) := by
  apply h.bind (h.ensureParentDirs path hd)
  intro made
  split
  · exact h.pure _
  · apply h.bind ho
    intro f
    cases f with
    | none => exact h.pure _
    | some f =>
      have hclose : M (do let _ ← ask (.close f); Pure.pure false) :=
        h.after trivial fun _ => h.pure _
      apply h.bind (h.writeLoop f data)
      intro written
      split
      · exact hclose
      · refine h.after trivial fun synced => ?_
        split
        · exact hclose
        · exact h.usual _ trivial

end Common

/-! ## The calls that programs make -/

section Makes

variable {allowed : Call → Prop} {possible : (c : Call) → Answer c → Prop}

theorem makes_then {c : Call} {f : Answer c → Server α} (hc : allowed c)
    (hf : ∀ r, Makes allowed possible (f r)) : Makes allowed possible (ask c >>= f) :=
  ⟨hc, fun r _ => hf r⟩

/-- What is done when a call has failed and may be made again. -/
theorem makes_retry (he : allowed .errno) {again giveUp : α} :
    Makes allowed possible (do if (← ask .errno) = .eintr then pure again else pure giveUp) := by
  apply makes_then he
  intro e
  split <;> exact Makes.pure

/-- The loop of `send_all`, which asks for `errno` after a failed `send`. -/
theorem makes_sendAll (hs : ∀ data, allowed (.send data)) (he : allowed .errno) (buf : Bytes) :
    Makes allowed possible (sendAll buf) := by
  apply Makes.iterate
  intro sent
  split
  · exact Makes.pure
  · refine makes_then (hs _) fun r => ?_
    cases r with
    | none => exact makes_retry he
    | some w => exact Makes.pure

variable (hb : ∀ c, Basic c → allowed c)

include hb

/-- The loop of `read_all_file`, by induction on the reads it may still make. -/
theorem makes_readLoop (f sz : Nat) : Makes allowed possible (readLoop f sz) := by
  apply Makes.iterate
  intro buf
  split
  · exact Makes.pure
  · refine makes_then (hb _ trivial) fun r => ?_
    cases r with
    | none => exact makes_retry (hb _ trivial)
    | some r =>
      simp only
      split <;> exact Makes.pure

theorem makes_writeLoop (f : Nat) (data : Bytes) : Makes allowed possible (writeLoop f data) := by
  apply Makes.iterate
  intro off
  split
  · exact Makes.pure
  · refine makes_then (hb _ trivial) fun r => ?_
    cases r with
    | none => exact makes_retry (hb _ trivial)
    | some w => exact Makes.pure

/-- The loop of `COPYFILE`: reads, each followed by a loop of writes. -/
theorem makes_copyLoop (srcFd dstFd : Nat) : Makes allowed possible (copyLoop srcFd dstFd) := by
  apply Makes.iterate
  intro _
  refine makes_then (hb _ trivial) fun r => ?_
  cases r with
  | none => exact makes_retry (hb _ trivial)
  | some r =>
    simp only
    split
    · exact Makes.pure
    · apply (makes_writeLoop hb _ _).bind
      intro w
      split <;> exact Makes.pure

omit hb in
theorem makes_sequential : Sequential (Makes allowed possible) where
  pure _ := Makes.pure
  bind := Makes.bind

theorem makes_plain : Plain (Makes allowed possible) where
  toSequential := makes_sequential
  basic c hc := Makes.perform (hb c hc)
  readLoop := makes_readLoop hb
  writeLoop := makes_writeLoop hb
  copyLoop := makes_copyLoop hb

omit hb in
/-- So a bound on the calls is checked at the calls an operation makes by itself. -/
theorem makes_common (hu : ∀ c, Usual c → allowed c) : Common (Makes allowed possible) where
  toLocking := ⟨makes_sequential, fun c hc => Makes.perform (hu c hc.usual)⟩
  basic c hc := Makes.perform (hu c hc.usual)
  readLoop := makes_readLoop fun c hc => hu c hc.usual
  writeLoop := makes_writeLoop fun c hc => hu c hc.usual
  copyLoop := makes_copyLoop fun c hc => hu c hc.usual
  close _ := Makes.perform (hu _ trivial)

end Makes

/-! ## Replies -/

section Replies

variable (h : Plain M) (hs : ∀ buf, M (sendAll buf))

include h hs

theorem Plain.replyLine (n : Nat) (line : Bytes) : M (replyLine n line) := by
  unfold ServerOps.replyLine
  split
  · exact h.pure _
  · exact hs _

theorem Plain.replyBulk (data : Bytes) : M (respReplyBulk data) := by
  apply h.bind (h.replyLine hs _ _)
  intro r
  split
  · exact h.pure _
  · split
    · exact hs _
    · apply h.bind (hs _)
      intro r
      split
      · exact h.pure _
      · exact hs _

end Replies

end ServerCalls
