import Xv6Filesrv.Programs
import Xv6Filesrv.ServerRle

/-!
# The commands of the file server

`src/locks.c`, `src/logger.c`, the replies of `src/resp.c`, the operations of `src/file_ops.c`,
and `dispatch_command` and `client_thread` of `src/server.c`, as programs that make the calls the
source makes.  Reading a request is one call here; `ServerResp` has what it does.
-/

namespace ServerOps

open ServerResp ServerPaths ServerRle Programs Programs.Prog

inductive Errno where
  | eintr
  | enoent
  | enomem
  | eexist
  | einval
  | efbig
  | other (n : Nat)
  deriving DecidableEq

/-- The address of a `file_lock_entry_t`. -/
abbrev Node := Nat

/-- An entry of the lock registry, and the pointer to it: once it is in the list, nothing of it
changes but the state of its lock. -/
structure Entry where
  path : Bytes
  node : Node
  deriving DecidableEq

/-- How a lock is taken, and how a file is opened: `O_RDONLY`, or `O_WRONLY | O_CREAT | O_TRUNC`. -/
inductive Mode where
  | read
  | write
  deriving DecidableEq

/-- The fields of `struct stat` that are reported. -/
structure Stat where
  size : Int
  mode : Nat
  uid : Nat
  gid : Nat
  atime : Int
  mtime : Int
  ctime : Int

/-- What the server asks of the C library and of the system. -/
inductive Call where
  | errno
  | setErrno (e : Errno)
  | malloc (n : Nat)
  | stopped
  | recvRequest
  | freeRequest
  | send (data : Bytes)
  | closeClient
  | mapLock
  | mapUnlock
  | getHead
  | setHead (entries : List Entry)
  | calloc
  | strdup (s : Bytes)
  | rwlockInit (n : Node)
  | free (n : Node)
  | rwlock (mode : Mode) (entry : Entry)
  | rwunlock (entry : Entry)
  | open (path : Bytes) (mode : Mode)
  | fstat (fd : Nat)
  | read (fd : Nat) (n : Nat)
  | write (fd : Nat) (data : Bytes)
  | fsync (fd : Nat)
  | close (fd : Nat)
  | unlink (path : Bytes)
  | rename (src dst : Bytes)
  | stat (path : Bytes)
  | mkdir (path : Bytes)
  | time
  | logLock
  | logUnlock
  | fopen (append : Bool)
  | fprintf (line : Bytes)
  | fseekEnd (offset : Int)
  | fseekSet
  | ftell
  | fread (n : Nat)
  | fclose

/-- The answers: `false` and `none` stand for the failure of a call. -/
@[reducible] def Answer : Call → Type
  | .errno => Errno
  | .malloc _ | .stopped | .strdup _ | .rwlockInit _ | .rwlock _ _ => Bool
  | .fsync _ | .close _ | .unlink _ | .rename _ _ | .mkdir _ => Bool
  | .fopen _ | .fseekEnd _ | .fseekSet => Bool
  | .recvRequest => Option RespArray
  | .send _ | .calloc | .open _ _ | .write _ _ => Option Nat
  | .getHead => List Entry
  | .fstat _ => Option Int
  | .read _ _ => Option Bytes
  | .stat _ => Option Stat
  | .time | .fread _ => Bytes
  | .ftell => Int
  | _ => Unit

abbrev Server : Type → Type 1 := Prog Call Answer

def ask (c : Call) : Server (Answer c) := perform c

/-! ## Locks -/

/-- `get_or_create_lock`.  The list that starts at `g_lock_map_head` is read and written as a
whole. -/
def getOrCreateLock (canonicalPath : Bytes) : Server (Option Entry) := do
  ask .mapLock
  let entries ← ask .getHead
  match entries.find? fun cur => strcmp cur.path canonicalPath = 0 with
  | some cur => do
    ask .mapUnlock
    pure (some cur)
  | none => do
    match ← ask .calloc with
    | none => do
      ask .mapUnlock
      pure none
    | some node => do
      if !(← ask (.strdup canonicalPath)) then do
        ask (.free node)
        ask .mapUnlock
        pure none
      else if !(← ask (.rwlockInit node)) then do
        ask (.free node)
        ask .mapUnlock
        pure none
      else do
        let next ← ask .getHead
        ask (.setHead (⟨canonicalPath, node⟩ :: next))
        ask .mapUnlock
        pure (some ⟨canonicalPath, node⟩)

/-- `locks_acquire_read` and `locks_acquire_write`. -/
def locksAcquire (mode : Mode) (canonicalPath : Bytes) : Server (Option Entry) := do
  match ← getOrCreateLock canonicalPath with
  | none => pure none
  | some entry => do
    if !(← ask (.rwlock mode entry)) then pure none else pure (some entry)

def locksAcquireRead (canonicalPath : Bytes) : Server (Option Entry) :=
  locksAcquire .read canonicalPath

def locksAcquireWrite (canonicalPath : Bytes) : Server (Option Entry) :=
  locksAcquire .write canonicalPath

/-- What `locks_acquire_two_write` hands out. -/
structure TwoLocks where
  lockA : Entry
  lockB : Entry
  sameLock : Bool

/-- The part of `locks_acquire_two_write` that takes two locks in the given order. -/
def acquireInOrder (first second : Bytes) : Server (Option (Entry × Entry)) := do
  match ← locksAcquireWrite first with
  | none => pure none
  | some firstLock => do
    match ← locksAcquireWrite second with
    | none => do
      ask (.rwunlock firstLock)
      pure none
    | some secondLock => pure (some (firstLock, secondLock))

def locksAcquireTwoWrite (pathA pathB : Bytes) : Server (Option TwoLocks) :=
  if strcmp pathA pathB = 0 then do
    match ← locksAcquireWrite pathA with
    | none => pure none
    | some lock => pure (some ⟨lock, lock, true⟩)
  else if 0 < strcmp pathA pathB then do
    match ← acquireInOrder pathB pathA with
    | none => pure none
    | some (firstLock, secondLock) => pure (some ⟨secondLock, firstLock, false⟩)
  else do
    match ← acquireInOrder pathA pathB with
    | none => pure none
    | some (firstLock, secondLock) => pure (some ⟨firstLock, secondLock, false⟩)

def locksRelease (lock : Entry) : Server Unit := ask (.rwunlock lock)

def locksReleaseTwo (locks : TwoLocks) : Server Unit :=
  if locks.sameLock then ask (.rwunlock locks.lockA)
  else do
    ask (.rwunlock locks.lockA)
    ask (.rwunlock locks.lockB)

/-! ## The audit log -/

/-- The line that `logger_log` writes. -/
def logLine (ts client command target status detail : Bytes) : Bytes :=
  ts ++ ascii " client=" ++ client ++ ascii " cmd=" ++ command ++ ascii " target=" ++ target ++
    ascii " status=" ++ status ++ ascii " detail=" ++ detail ++ [10]

def loggerLog (client : Bytes) (command : String) (target : Bytes) (status : String)
    (detail : Bytes) : Server Unit := do
  let ts ← ask .time
  ask .logLock
  if ← ask (.fopen true) then do
    ask (.fprintf (logLine ts client (ascii command) target (ascii status) detail))
    ask .fclose
    ask .logUnlock
  else ask .logUnlock

/-! ## Replies -/

def sendAll (buf : Bytes) : Server Bool :=
  iterate (fun sent : Nat =>
    if buf.length ≤ sent then pure (.inr true)
    else do
      match ← ask (.send (buf.drop sent)) with
      | none => do
        if (← ask .errno) = .eintr then pure (.inl sent) else pure (.inr false)
      | some w => pure (.inl (sent + w))) 0

/-- A reply of one line, in a buffer of `n` bytes. -/
def replyLine (n : Nat) (line : Bytes) : Server Bool :=
  match snprintf n line with
  | none => pure false
  | some line => sendAll line

def crlf : Bytes := [13, 10]

def respReplySimple (msg : Bytes) : Server Bool := replyLine 256 (ascii "+" ++ msg ++ crlf)

def respReplyError (msg : Bytes) : Server Bool := replyLine 512 (ascii "-ERR " ++ msg ++ crlf)

def respReplyBulk (data : Bytes) : Server Bool := do
  if !(← replyLine 64 (ascii "$" ++ Decimal.numeral data.length ++ crlf)) then pure false
  else if data = [] then sendAll crlf
  else if !(← sendAll data) then pure false
  else sendAll crlf

def respReplyNullBulk : Server Bool := sendAll (ascii "$-1" ++ crlf)

/-- `%lld`. -/
def signed (n : Int) : Bytes :=
  if n < 0 then 45 :: Decimal.numeral n.natAbs else Decimal.numeral n.natAbs

def respReplyInteger (value : Int) : Server Bool :=
  replyLine 128 (ascii ":" ++ signed value ++ crlf)

/-! ## Files -/

/-- The loop of `read_all_file`, with what has been read. -/
def readLoop (f sz : Nat) : Server (Option Bytes) :=
  iterate (fun buf : Bytes =>
    if sz ≤ buf.length then pure (.inr (some buf))
    else do
      match ← ask (.read f (sz - buf.length)) with
      | none => do
        if (← ask .errno) = .eintr then pure (.inl buf) else pure (.inr none)
      | some r => if r = [] then pure (.inr (some buf)) else pure (.inl (buf ++ r))) []

def readAllFile (fullPath : Bytes) : Server (Option Bytes) := do
  match ← ask (.open fullPath .read) with
  | none => pure none
  | some f => do
    match ← ask (.fstat f) with
    | none => do
      let _ ← ask (.close f)
      pure none
    | some size =>
      if size < 0 ∨ maxFileSize < size then do
        let _ ← ask (.close f)
        ask (.setErrno .efbig)
        pure none
      else do
        let sz := size.toNat
        if !(← ask (.malloc (if 0 < sz then sz else 1))) then do
          let _ ← ask (.close f)
          ask (.setErrno .enomem)
          pure none
        else do
          let out ← readLoop f sz
          let _ ← ask (.close f)
          pure out

/-- The calls of `mkdir` in `path_ensure_parent_dirs`. -/
def mkdirs : List Bytes → Server Bool
  | [] => pure true
  | dir :: dirs => do
    if ← ask (.mkdir dir) then mkdirs dirs
    else if (← ask .errno) = .eexist then mkdirs dirs
    else pure false

def pathEnsureParentDirs (filepath : Bytes) : Server Bool :=
  match snprintf pathMax filepath with
  | none => pure false
  | some tmp => mkdirs (parentDirs tmp)

/-- The loop of `write_all_file`, and the inner loop of `op_copyfile`. -/
def writeLoop (f : Nat) (data : Bytes) : Server Bool :=
  iterate (fun off : Nat =>
    if data.length ≤ off then pure (.inr true)
    else do
      match ← ask (.write f (data.drop off)) with
      | none => do
        if (← ask .errno) = .eintr then pure (.inl off) else pure (.inr false)
      | some w => pure (.inl (off + w))) 0

def writeAllFile (fullPath data : Bytes) : Server Bool := do
  if !(← pathEnsureParentDirs fullPath) then pure false
  else do
    match ← ask (.open fullPath .write) with
    | none => pure false
    | some f => do
      if !(← writeLoop f data) then do
        let _ ← ask (.close f)
        pure false
      else if !(← ask (.fsync f)) then do
        let _ ← ask (.close f)
        pure false
      else ask (.close f)

/-! ## Operations -/

/-- What the server is started with, and the texts of `strerror`. -/
structure Env where
  dataDir : Bytes
  strerror : Errno → Bytes

/-- A server in its working directory, with the texts of the C library. -/
def here : Env where
  dataDir := ascii "."
  strerror
    | .eintr => ascii "Interrupted system call"
    | .enoent => ascii "No such file or directory"
    | .enomem => ascii "Cannot allocate memory"
    | .eexist => ascii "File exists"
    | .einval => ascii "Invalid argument"
    | .efbig => ascii "File too large"
    | .other _ => ascii "Unknown error"

section Operations

variable (env : Env) (client : Bytes)

/-- Log a failure and answer with its text. -/
def replyFailure (command : String) (target text : Bytes) : Server Bool := do
  loggerLog client command target "ERR" text
  respReplyError text

/-- The two texts that differ when a path is refused or a lock cannot be had. -/
def replyLockFailure (command : String) (target : Bytes) : Server Bool := do
  loggerLog client command target "ERR" (ascii "lock failure")
  respReplyError (ascii "internal lock error")

/-- The path of an operation on one file, with its lock. -/
def withPath (acquire : Bytes → Server (Option Entry)) (command : String) (relPath : Bytes)
    (body : Bytes → Entry → Server Bool) : Server Bool :=
  match pathBuild env.dataDir relPath pathMax with
  | none => replyFailure client command relPath (ascii "invalid path")
  | some full => do
    match ← acquire full with
    | none => replyLockFailure client command relPath
    | some lock => body full lock

def opGetfile (relPath : Bytes) : Server Bool :=
  withPath env client locksAcquireRead "GETFILE" relPath fun full lock => do
    match ← readAllFile full with
    | none => do
      let e ← ask .errno
      locksRelease lock
      if e = .enoent then do
        loggerLog client "GETFILE" relPath "MISS" (ascii "not found")
        respReplyNullBulk
      else if e = .efbig then replyFailure client "GETFILE" relPath (ascii "file too large")
      else replyFailure client "GETFILE" relPath (env.strerror e)
    | some buf => do
      locksRelease lock
      let rc ← respReplyBulk buf
      loggerLog client "GETFILE" relPath "OK" (ascii "read success")
      pure rc

def opSetfile (relPath data : Bytes) : Server Bool :=
  withPath env client locksAcquireWrite "SETFILE" relPath fun full lock => do
    if !(← writeAllFile full data) then do
      let e ← ask .errno
      locksRelease lock
      replyFailure client "SETFILE" relPath (env.strerror e)
    else do
      locksRelease lock
      loggerLog client "SETFILE" relPath "OK" (ascii "write success")
      respReplySimple (ascii "OK")

def opDelfile (relPath : Bytes) : Server Bool :=
  withPath env client locksAcquireWrite "DELFILE" relPath fun full lock => do
    if !(← ask (.unlink full)) then do
      let e ← ask .errno
      locksRelease lock
      if e = .enoent then do
        loggerLog client "DELFILE" relPath "MISS" (ascii "not found")
        respReplyInteger 0
      else replyFailure client "DELFILE" relPath (env.strerror e)
    else do
      locksRelease lock
      loggerLog client "DELFILE" relPath "OK" (ascii "deleted")
      respReplyInteger 1

/-- The paths of an operation on two files, with the target of the log record if one is refused. -/
def withTwoPaths (command : String) (srcRel dstRel refused : Bytes)
    (body : Bytes → Bytes → TwoLocks → Server Bool) : Server Bool :=
  match pathBuild env.dataDir srcRel pathMax, pathBuild env.dataDir dstRel pathMax with
  | some srcFull, some dstFull => do
    match ← locksAcquireTwoWrite srcFull dstFull with
    | none => replyLockFailure client command srcRel
    | some locks => body srcFull dstFull locks
  | _, _ => replyFailure client command refused (ascii "invalid path")

/-- Release both locks and report `errno`. -/
def failTwo (locks : TwoLocks) (command : String) (target : Bytes) (e : Errno) : Server Bool := do
  locksReleaseTwo locks
  replyFailure client command target (env.strerror e)

def opRenamefile (srcRel dstRel : Bytes) : Server Bool :=
  withTwoPaths env client "RENAMEFILE" srcRel dstRel (ascii "-") fun srcFull dstFull locks => do
    if !(← pathEnsureParentDirs dstFull) then do
      let e ← ask .errno
      failTwo env client locks "RENAMEFILE" srcRel e
    else if !(← ask (.rename srcFull dstFull)) then do
      let e ← ask .errno
      failTwo env client locks "RENAMEFILE" srcRel e
    else do
      locksReleaseTwo locks
      loggerLog client "RENAMEFILE" srcRel "OK" (ascii "renamed")
      respReplySimple (ascii "OK")

/-- Which of its two files a copy failed on. -/
inductive CopyResult where
  | done
  | readFailed
  | writeFailed
  deriving DecidableEq

def copyBufSize : Nat := 8192

/-- The outer loop of `op_copyfile`. -/
def copyLoop (srcFd dstFd : Nat) : Server CopyResult :=
  iterate (fun _ : Unit => do
    match ← ask (.read srcFd copyBufSize) with
    | none => do
      if (← ask .errno) = .eintr then pure (.inl ()) else pure (.inr .readFailed)
    | some r =>
      if r = [] then pure (.inr .done)
      else do
        if !(← writeLoop dstFd r) then pure (.inr .writeFailed) else pure (.inl ())) ()

/-- `op_copyfile` gives up with both files open. -/
def failCopy (srcFd dstFd : Nat) (locks : TwoLocks) (target : Bytes) : Server Bool := do
  let e ← ask .errno
  let _ ← ask (.close srcFd)
  let _ ← ask (.close dstFd)
  failTwo env client locks "COPYFILE" target e

def opCopyfile (srcRel dstRel : Bytes) : Server Bool :=
  withTwoPaths env client "COPYFILE" srcRel dstRel (ascii "-") fun srcFull dstFull locks => do
    match ← ask (.open srcFull .read) with
    | none => do
      let e ← ask .errno
      locksReleaseTwo locks
      if e = .enoent then do
        loggerLog client "COPYFILE" srcRel "MISS" (ascii "source not found")
        respReplyError (ascii "source file not found")
      else replyFailure client "COPYFILE" srcRel (env.strerror e)
    | some srcFd => do
      if !(← pathEnsureParentDirs dstFull) then do
        let e ← ask .errno
        let _ ← ask (.close srcFd)
        failTwo env client locks "COPYFILE" dstRel e
      else do
        match ← ask (.open dstFull .write) with
        | none => do
          let e ← ask .errno
          let _ ← ask (.close srcFd)
          failTwo env client locks "COPYFILE" dstRel e
        | some dstFd => do
          match ← copyLoop srcFd dstFd with
          | .readFailed => failCopy env client srcFd dstFd locks srcRel
          | .writeFailed => failCopy env client srcFd dstFd locks dstRel
          | .done => do
            if !(← ask (.fsync dstFd)) then failCopy env client srcFd dstFd locks dstRel
            else do
              let _ ← ask (.close srcFd)
              let _ ← ask (.close dstFd)
              locksReleaseTwo locks
              loggerLog client "COPYFILE" srcRel "OK" (ascii "copied")
              respReplySimple (ascii "OK")

/-- `%o` of permission bits. -/
def octal (n : Nat) : Bytes :=
  if n < 8 then [Decimal.digit n]
  else if n < 64 then [Decimal.digit (n / 8), Decimal.digit (n % 8)]
  else [Decimal.digit (n / 64), Decimal.digit (n / 8 % 8), Decimal.digit (n % 8)]

def statText (st : Stat) : Bytes :=
  ascii "size=" ++ signed st.size ++ ascii " mode=" ++ octal (st.mode % 512) ++
    ascii " uid=" ++ Decimal.numeral st.uid ++ ascii " gid=" ++ Decimal.numeral st.gid ++
    ascii " atime=" ++ signed st.atime ++ ascii " mtime=" ++ signed st.mtime ++
    ascii " ctime=" ++ signed st.ctime

def opStatfile (relPath : Bytes) : Server Bool :=
  withPath env client locksAcquireRead "STATFILE" relPath fun full lock => do
    match ← ask (.stat full) with
    | none => do
      let e ← ask .errno
      locksRelease lock
      if e = .enoent then do
        loggerLog client "STATFILE" relPath "MISS" (ascii "not found")
        respReplyNullBulk
      else replyFailure client "STATFILE" relPath (env.strerror e)
    | some st => do
      locksRelease lock
      match snprintf 512 (statText st) with
      | none => replyFailure client "STATFILE" relPath (ascii "stat formatting error")
      | some out => do
        loggerLog client "STATFILE" relPath "OK" (ascii "metadata read")
        respReplyBulk out

/-- The loop of `read_log_tail` that looks for the newline in front of the last lines: `i` bytes
are left to look at and `seen` newlines were found behind them. -/
def tailStart (lineLimit : Int) (buf : Bytes) : Nat → Nat → Nat
  | 0, _ => 0
  | i + 1, seen =>
    if buf[i]? = some 10 then
      if lineLimit < seen + 1 then i + 1 else tailStart lineLimit buf i (seen + 1)
    else tailStart lineLimit buf i seen

/-- Go back `size` bytes from the end, or else to the beginning. -/
def seekBack (size : Int) : Server Bool := do
  if ← ask (.fseekEnd (-size)) then pure true else ask .fseekSet

/-- What `read_log_tail` reads before it looks for lines. -/
def readLogWindow : Server (Option Bytes) := do
  if !(← ask (.fseekEnd 0)) then do
    ask .fclose
    pure none
  else do
    let size ← ask .ftell
    if size < 0 then do
      ask .fclose
      pure none
    else do
      let size := if 1048576 < size then 1048576 else size
      if !(← seekBack size) then do
        ask .fclose
        pure none
      else if !(← ask (.malloc (size.toNat + 1))) then do
        ask .fclose
        pure none
      else do
        let buf ← ask (.fread size.toNat)
        ask .fclose
        pure (some buf)

def readLogTail (lineLimit : Int) : Server (Option Bytes) := do
  if !(← ask (.fopen false)) then do
    if (← ask .errno) = .enoent then do
      if ← ask (.strdup []) then pure (some []) else pure none
    else pure none
  else do
    match ← readLogWindow with
    | none => pure none
    | some buf =>
      if lineLimit ≤ 0 then pure (some buf)
      else do
        let start := tailStart lineLimit buf buf.length 0
        if !(← ask (.malloc (buf.length - start + 1))) then pure none
        else pure (some (buf.drop start))

def opLogs (lineLimit : Int) : Server Bool := do
  match ← readLogTail lineLimit with
  | none => do
    let e ← ask .errno
    loggerLog client "LOGS" (ascii "operations.log") "ERR" (env.strerror e)
    -- `errno` is read again, after the log was written
    let e ← ask .errno
    respReplyError (env.strerror e)
  | some buf => do
    let rc ← respReplyBulk buf
    loggerLog client "LOGS" (ascii "operations.log") "OK" (ascii "read logs")
    pure rc

def rleCompressBytes (input : Bytes) : Server (Option Bytes) := do
  if !(← ask (.malloc (input.length * 2 + 8))) then do
    ask (.setErrno .enomem)
    pure none
  else pure (some (rleCompress input))

def rleDecompressBytes (input : Bytes) : Server (Option Bytes) :=
  if input.take 4 ≠ rleHeader then do
    ask (.setErrno .einval)
    pure none
  else
    match rleTotal 0 (input.drop 4) with
    | none => do
      ask (.setErrno .efbig)
      pure none
    | some total =>
      if (input.length - 4) % 2 ≠ 0 then do
        ask (.setErrno .einval)
        pure none
      else do
        if !(← ask (.malloc (if 0 < total then total else 1))) then do
          ask (.setErrno .enomem)
          pure none
        else pure (some (rleExpand (input.drop 4)))

/-- `op_compress` and `op_decompress`, which differ in the codec and in the texts. -/
def opRecode (command : String) (codec : Bytes → Server (Option Bytes)) (detail : String)
    (srcRel dstRel : Bytes) : Server Bool :=
  withTwoPaths env client command srcRel dstRel srcRel fun srcFull dstFull locks => do
    match ← readAllFile srcFull with
    | none => do
      let e ← ask .errno
      failTwo env client locks command srcRel e
    | some srcBuf => do
      match ← codec srcBuf with
      | none => do
        let e ← ask .errno
        failTwo env client locks command srcRel e
      | some out => do
        if !(← writeAllFile dstFull out) then do
          let e ← ask .errno
          failTwo env client locks command dstRel e
        else do
          locksReleaseTwo locks
          loggerLog client command srcRel "OK" (ascii detail)
          respReplySimple (ascii "OK")

def opCompress (srcRel dstRel : Bytes) : Server Bool :=
  opRecode env client "COMPRESS" rleCompressBytes "compressed" srcRel dstRel

def opDecompress (srcRel dstRel : Bytes) : Server Bool :=
  opRecode env client "DECOMPRESS" rleDecompressBytes "decompressed" srcRel dstRel

end Operations

/-! ## Requests -/

def deriveCompressDst (src : Bytes) : Option Bytes := pathAppendSuffix src (ascii ".rle") pathMax

def deriveDecompressDst (src : Bytes) : Option Bytes :=
  match pathStripSuffix src (ascii ".rle") pathMax with
  | some dst => some dst
  | none => pathAppendSuffix src (ascii ".out") pathMax

/-- What a request asks for. -/
inductive Operation where
  | replySimple (msg : Bytes)
  | replyError (msg : Bytes)
  | replyBulk (data : Bytes)
  | getfile (path : Bytes)
  | setfile (path data : Bytes)
  | delfile (path : Bytes)
  | renamefile (src dst : Bytes)
  | copyfile (src dst : Bytes)
  | statfile (path : Bytes)
  | logs (limit : Int)
  | compress (src dst : Bytes)
  | decompress (src dst : Bytes)

/-- The C string that an item of a request holds. -/
def arg (item : RespBuf) : Bytes := cstr item.ptr

def wrongArity (command : String) : Operation :=
  .replyError (ascii "wrong number of arguments for " ++ ascii command)

/-- The destination of `COMPRESS` and `DECOMPRESS` if it is left out. -/
def recodeTo (op : Bytes → Bytes → Operation) (src : Bytes) (dst : Option Bytes) : Operation :=
  match dst with
  | none => .replyError (ascii "unable to build destination path")
  | some dst => op src dst

/-- What `dispatch_command` runs; `args` are the items behind the command. -/
def dispatchCommand (cmd : Bytes) (args : List RespBuf) : Operation :=
  if strcasecmp cmd (ascii "PING") = 0 then
    match args with
    | [] => .replySimple (ascii "PONG")
    | msg :: _ => .replyBulk (msg.ptr.take msg.len)
  else if strcasecmp cmd (ascii "GETFILE") = 0 then
    match args with
    | [path] => .getfile (arg path)
    | _ => wrongArity "GETFILE"
  else if strcasecmp cmd (ascii "SETFILE") = 0 then
    match args with
    | [path, data] => .setfile (arg path) (data.ptr.take data.len)
    | _ => wrongArity "SETFILE"
  else if strcasecmp cmd (ascii "DELFILE") = 0 then
    match args with
    | [path] => .delfile (arg path)
    | _ => wrongArity "DELFILE"
  else if strcasecmp cmd (ascii "RENAMEFILE") = 0 then
    match args with
    | [src, dst] => .renamefile (arg src) (arg dst)
    | _ => wrongArity "RENAMEFILE"
  else if strcasecmp cmd (ascii "COPYFILE") = 0 then
    match args with
    | [src, dst] => .copyfile (arg src) (arg dst)
    | _ => wrongArity "COPYFILE"
  else if strcasecmp cmd (ascii "STATFILE") = 0 then
    match args with
    | [path] => .statfile (arg path)
    | _ => wrongArity "STATFILE"
  else if strcasecmp cmd (ascii "LOGS") = 0 then
    match args with
    | [] => .logs 20
    | [limit] =>
      match parseInt (arg limit) with
      | none => .replyError (ascii "LOGS limit must be non-negative integer")
      | some limit =>
        if limit < 0 then .replyError (ascii "LOGS limit must be non-negative integer")
        else .logs limit
    | _ => wrongArity "LOGS"
  else if strcasecmp cmd (ascii "COMPRESS") = 0 then
    match args with
    | [src] => recodeTo .compress (arg src) (deriveCompressDst (arg src))
    | [src, dst] => .compress (arg src) (arg dst)
    | _ => wrongArity "COMPRESS"
  else if strcasecmp cmd (ascii "DECOMPRESS") = 0 then
    match args with
    | [src] => recodeTo .decompress (arg src) (deriveDecompressDst (arg src))
    | [src, dst] => .decompress (arg src) (arg dst)
    | _ => wrongArity "DECOMPRESS"
  else .replyError (ascii "unknown command")

def Operation.run (env : Env) (client : Bytes) : Operation → Server Bool
  | .replySimple msg => respReplySimple msg
  | .replyError msg => respReplyError msg
  | .replyBulk data => respReplyBulk data
  | .getfile path => opGetfile env client path
  | .setfile path data => opSetfile env client path data
  | .delfile path => opDelfile env client path
  | .renamefile src dst => opRenamefile env client src dst
  | .copyfile src dst => opCopyfile env client src dst
  | .statfile path => opStatfile env client path
  | .logs limit => opLogs env client limit
  | .compress src dst => opCompress env client src dst
  | .decompress src dst => opDecompress env client src dst

/-- `client_thread`. -/
def clientThread (env : Env) (client : Bytes) : Server Unit := do
  iterate (fun _ : Unit => do
    if ← ask .stopped then pure (.inr ())
    else do
      match ← ask .recvRequest with
      | none => pure (.inr ())
      | some req =>
        match req.items with
        | [] => do
          ask .freeRequest
          let _ ← respReplyError (ascii "empty command")
          pure (.inl ())
        | cmd :: args => do
          let _ ← (dispatchCommand (arg cmd) args).run env client
          ask .freeRequest
          pure (.inl ())) ()
  ask .closeClient

end ServerOps
