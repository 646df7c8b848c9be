import Xv6Filesrv.FileTree
import Xv6Filesrv.ServerAccess

/-!
# The data directory

The server on a machine with a file system: what the calls do to the files below the data
directory, to the open files, to the log and to what the client gets.  The data directory has
directories and regular files in it, and nobody but the server works on them.  The server serves
one command at a time here, so that its locks are free when it asks for them.
-/

namespace ServerFiles

open FileTree ServerResp ServerPaths ServerOps ServerDiscipline ServerAccess Programs.Prog
  ProgramRuns

variable {after : Machine → (c : Call) → Answer c → Machine → Prop} {I : Machine → Prop}
  {xs : List Command} {l : Local}

/-! ## Commands -/

/-- The name of a client that `start_server` keeps: what `inet_ntop` makes of the address. -/
def clientName : Option (UInt8 × UInt8 × UInt8 × UInt8) → Bytes
  | none => ascii "unknown"
  | some (a, b, c, d) => Decimal.numeral a.toNat ++ 46 :: (Decimal.numeral b.toNat ++ 46 ::
      (Decimal.numeral c.toNat ++ 46 :: Decimal.numeral d.toNat))

/-- A request that is not empty, and the address that it came from. -/
structure Command where
  peer : Option (UInt8 × UInt8 × UInt8 × UInt8)
  cmd : RespBuf
  args : List RespBuf

def Command.op (x : Command) : Operation := dispatchCommand (arg x.cmd) x.args

def Command.run (env : Env) (x : Command) : Server Bool := x.op.run env (clientName x.peer)

/-! ## Paths -/

/-- What stands behind the data directory in a path. -/
def below (dataDir full : Bytes) : Option Bytes :=
  if dataDir ++ [47] <+: full then some (full.drop (dataDir.length + 1)) else none

/-- The path does not end in a slash or a dot, and so it can be that of a file. -/
def Bare (rel : Bytes) : Prop :=
  (rel.splitOn 47).getLast? ≠ some [] ∧ (rel.splitOn 47).getLast? ≠ some [46]

/-- `g_log_path`: `logger_init` does not mind if the path is cut off. -/
def logPath (env : Env) : Bytes := (env.dataDir ++ ascii "/operations.log").take (pathMax - 1)

/-- Where the log is in the data directory. -/
def logKey (env : Env) : List Bytes := resolve ((logPath env).drop (env.dataDir.length + 1))

/-! ## The machine -/

structure Handle where
  key : List Bytes
  mode : Mode
  pos : Nat

structure Machine where
  tree : Tree Bytes Bytes
  handles : List (Nat × Handle)
  /-- where the log is read -/
  logPos : Nat
  registry : List Entry
  errno : Errno
  /-- how often calls can still be interrupted -/
  patience : Nat
  /-- all that was sent -/
  out : Bytes
  /-- the records in the log, in their order -/
  records : List Bytes

namespace Machine

def handle (m : Machine) (fd : Nat) : Option Handle := m.handles.lookup fd

def setHandle (m : Machine) (fd : Nat) (h : Handle) : Machine :=
  { m with handles := (fd, h) :: m.handles.filter fun x => x.1 ≠ fd }

def closeHandle (m : Machine) (fd : Nat) : Machine :=
  { m with handles := m.handles.filter fun x => x.1 ≠ fd }

def putFile (m : Machine) (key : List Bytes) (content : Bytes) (h : m.tree.Room key) : Machine :=
  { m with tree := m.tree.put key (.file content) h }

/-- A call has failed. -/
def fail (m : Machine) (e : Errno) : Machine :=
  { m with errno := e, patience := if e = .eintr then m.patience - 1 else m.patience }

end Machine

/-- How much of `data` a call may take at once. -/
def Portion (data : Bytes) (w : Nat) : Prop := w ≤ data.length ∧ (data ≠ [] → 0 < w)

/-- What a call does that succeeds. -/
def Effect (env : Env) (m : Machine) : (c : Call) → Answer c → Machine → Prop
  | .errno, r, m' => r = m.errno ∧ m' = m
  | .setErrno e, _, m' => m' = { m with errno := e }
  | .malloc _, r, m' | .strdup _, r, m' | .rwlockInit _, r, m' | .rwlock _ _, r, m'
  | .fsync _, r, m' => r = true ∧ m' = m
  | .calloc, r, m' => (∃ n, r = some n) ∧ m' = m
  | .getHead, r, m' => r = m.registry ∧ m' = m
  | .setHead entries, _, m' => m' = { m with registry := entries }
  | .send data, r, m' => ∃ w, r = some w ∧ Portion data w ∧
      m' = { m with out := m.out ++ data.take w }
  | .open path .read, r, m' => ∃ rel fd, below env.dataDir path = some rel ∧
      r = some fd ∧ m.handle fd = none ∧
      (m.tree.node (resolve rel) = some .dir ∨ Bare rel ∧ m.tree.node (resolve rel) ≠ none) ∧
      m' = m.setHandle fd ⟨resolve rel, .read, 0⟩
  | .open path .write, r, m' => ∃ rel fd, below env.dataDir path = some rel ∧
      r = some fd ∧ m.handle fd = none ∧ Bare rel ∧ ∃ h : m.tree.Room (resolve rel),
        m' = (m.putFile (resolve rel) [] h).setHandle fd ⟨resolve rel, .write, 0⟩
  | .fstat fd, r, m' => ∃ h size, m.handle fd = some h ∧ r = some size ∧
      (∀ b, m.tree.node h.key = some (.file b) → size = b.length) ∧ m' = m
  | .read fd n, r, m' => ∃ key pos b data, m.handle fd = some ⟨key, .read, pos⟩ ∧
      m.tree.node key = some (.file b) ∧ r = some data ∧ data <+: (b.drop pos).take n ∧
      (data = [] → (b.drop pos).take n = []) ∧
      m' = m.setHandle fd ⟨key, .read, pos + data.length⟩
  | .write fd data, r, m' => ∃ key pos b w, m.handle fd = some ⟨key, .write, pos⟩ ∧
      m.tree.node key = some (.file b) ∧ r = some w ∧ Portion data w ∧
      ∃ h : m.tree.Room key,
        m' = (m.putFile key (b.take pos ++ data.take w ++ b.drop (pos + w)) h).setHandle fd
          ⟨key, .write, pos + w⟩
  | .close fd, r, m' => r = true ∧ m' = m.closeHandle fd
  | .unlink path, r, m' => ∃ rel, below env.dataDir path = some rel ∧ r = true ∧ Bare rel ∧
      m.tree.node (resolve rel) ≠ none ∧ ∃ h : m.tree.node (resolve rel) ≠ some .dir,
        m' = { m with tree := m.tree.remove (resolve rel) h }
  | .rename src dst, r, m' => ∃ a b, below env.dataDir src = some a ∧
      below env.dataDir dst = some b ∧ r = true ∧
      (Bare a ∧ Bare b ∨ m.tree.node (resolve a) = some .dir) ∧
      (resolve a = resolve b ∧ m.tree.node (resolve a) ≠ none ∧ m' = m ∨
        ∃ h : m.tree.Movable (resolve a) (resolve b),
          m' = { m with tree := m.tree.move (resolve a) (resolve b) h })
  | .stat path, r, m' => ∃ rel st, below env.dataDir path = some rel ∧ r = some st ∧
      m.tree.node (resolve rel) ≠ none ∧
      (∀ b, m.tree.node (resolve rel) = some (.file b) → Bare rel ∧ st.size = b.length) ∧ m' = m
  | .mkdir path, r, m' => ∃ rel, below env.dataDir path = some rel ∧ r = true ∧
      m.tree.node (resolve rel) = none ∧ ∃ h : m.tree.Room (resolve rel),
        m' = { m with tree := m.tree.put (resolve rel) .dir h }
  | .time, r, m' => 10 ∉ r ∧ m' = m
  | .fopen true, r, m' => r = true ∧
      ((∃ b, m.tree.node (logKey env) = some (.file b)) ∧ m' = { m with logPos := 0 } ∨
        m.tree.node (logKey env) = none ∧ ∃ h : m.tree.Room (logKey env),
          m' = { m.putFile (logKey env) [] h with logPos := 0 })
  | .fopen false, r, m' => r = true ∧ m.tree.node (logKey env) ≠ none ∧
      m' = { m with logPos := 0 }
  | .fprintf line, _, m' => ∃ b, m.tree.node (logKey env) = some (.file b) ∧
      ∃ h : m.tree.Room (logKey env),
        m' = { m.putFile (logKey env) (b ++ line) h with records := m.records ++ [line] }
  | .fseekEnd offset, r, m' => r = true ∧ ∃ pos : Nat,
      (∀ b, m.tree.node (logKey env) = some (.file b) → (pos : Int) = b.length + offset) ∧
      m' = { m with logPos := pos }
  | .fseekSet, r, m' => r = true ∧ m' = { m with logPos := 0 }
  | .ftell, r, m' => (∀ b, m.tree.node (logKey env) = some (.file b) → r = m.logPos) ∧ m' = m
  | .fread n, r, m' =>
      (∀ b, m.tree.node (logKey env) = some (.file b) → r = (b.drop m.logPos).take n) ∧
      m' = { m with logPos := m.logPos + r.length }
  | _, _, m' => m' = m

/-- The answers by which calls fail. -/
def Refused : (c : Call) → Answer c → Prop
  | .malloc _, r | .strdup _, r | .rwlockInit _, r | .rwlock _ _, r | .fsync _, r
  | .unlink _, r | .rename _ _, r | .mkdir _, r | .fopen _, r | .fseekEnd _, r
  | .fseekSet, r => r = false
  | .calloc, r | .open _ _, r | .send _, r | .write _ _, r | .fstat _, r | .read _ _, r
  | .stat _, r => r = none
  | .ftell, r => r < 0
  | _, _ => False

/-- What is done in spite of an error: a file is closed, and a part is read or written. -/
def Cut (env : Env) (m : Machine) : (c : Call) → Answer c → Machine → Prop
  | .close fd, r, m' => r = false ∧ ∃ e, m' = { m.closeHandle fd with errno := e }
  | .fprintf line, r, m' => ∃ n, Effect env m (.fprintf (line.take n)) r m'
  | .fread n, r, m' => ∃ k ≤ n, Effect env m (.fread k) r m'
  | _, _, _ => False

/-- What a call can do on a machine where everything can fail. -/
def Does (env : Env) (m : Machine) (c : Call) (r : Answer c) (m' : Machine) : Prop :=
  Effect env m c r m' ∨ (Refused c r ∧ ∃ e p, m' = { m with errno := e, patience := p }) ∨
    Cut env m c r m'

/-- The failures that the state of the files explains, and interruptions.  Files and directories
cannot always be created, removed or renamed. -/
def Excused (env : Env) (m : Machine) : Call → Errno → Prop
  | .open path _, _ => ∀ rel, below env.dataDir path = some rel → Bare rel →
      ∀ b, m.tree.node (resolve rel) ≠ some (.file b)
  | .mkdir path, e =>
      (∀ rel, below env.dataDir path = some rel → m.tree.node (resolve rel) ≠ none) → e = .eexist
  | .unlink _, _ | .rename _ _, _ | .stat _, _ => True
  | .read fd _, e => e = .eintr ∧ 0 < m.patience ∨ e ≠ .eintr ∧
      ∀ h, m.handle fd = some h → m.tree.node h.key = some .dir
  | .write _ _, e | .send _, e => e = .eintr ∧ 0 < m.patience
  | .fopen true, _ => m.tree.node (logKey env) = some .dir
  | .fopen false, e => m.tree.node (logKey env) = none ∧ e = .enoent ∨
      m.tree.node (logKey env) = some .dir
  | .fseekEnd offset, _ => ∀ b, m.tree.node (logKey env) = some (.file b) →
      (b.length : Int) + offset < 0
  | _, _ => False

/-- What a call can do on a machine without errors of devices, and with memory. -/
def Reliable (env : Env) (m : Machine) (c : Call) (r : Answer c) (m' : Machine) : Prop :=
  Effect env m c r m' ∨ (Refused c r ∧ ∃ e, Excused env m c e ∧ m' = m.fail e)

variable {env : Env} {m m' m'' : Machine} {c : Call} {r : Answer c}

theorem Reliable.does (h : Reliable env m c r m') : Does env m c r m' := by
  rcases h with h | ⟨hr, e, -, rfl⟩
  · exact .inl h
  · exact .inr (.inl ⟨hr, e, _, rfl⟩)

/-! ## Open files -/

theorem lookup_filter {fd fd' : Nat} (hs : List (Nat × Handle)) :
    (hs.filter fun x => x.1 ≠ fd).lookup fd' = if fd' = fd then none else hs.lookup fd' := by
  induction hs with
  | nil => simp
  | cons x hs ih =>
    obtain ⟨n, h⟩ := x
    rw [List.filter_cons]
    by_cases hn : n = fd
    · rw [if_neg (by simpa using hn), ih]
      split
      · rfl
      · next hfd =>
        have hbeq : (fd' == n) = false := by
          rw [hn]
          simpa using hfd
        rw [List.lookup_cons, hbeq]
    · rw [if_pos (by simpa using hn), List.lookup_cons, ih, List.lookup_cons]
      grind

theorem Machine.handle_set (m : Machine) (fd fd' : Nat) (h : Handle) :
    (m.setHandle fd h).handle fd' = if fd' = fd then some h else m.handle fd' := by
  simp only [Machine.handle, Machine.setHandle, List.lookup_cons, lookup_filter]
  grind

@[simp] theorem Machine.handle_set_self (m : Machine) (fd : Nat) (h : Handle) :
    (m.setHandle fd h).handle fd = some h := by
  rw [handle_set, if_pos rfl]

theorem Machine.handle_close (m : Machine) (fd fd' : Nat) :
    (m.closeHandle fd).handle fd' = if fd' = fd then none else m.handle fd' :=
  lookup_filter m.handles

/-- There are always numbers for more files. -/
theorem Machine.exists_free (m : Machine) : ∃ fd, m.handle fd = none := by
  have hbound : ∀ hs : List (Nat × Handle), ∃ n, ∀ fd, n ≤ fd → hs.lookup fd = none := by
    intro hs
    induction hs with
    | nil => exact ⟨0, fun _ _ => rfl⟩
    | cons x hs ih =>
      obtain ⟨n, hn⟩ := ih
      refine ⟨max n (x.1 + 1), fun fd hfd => ?_⟩
      have hbeq : (fd == x.1) = false := by
        simp only [beq_eq_false_iff_ne]
        omega
      rw [List.lookup_cons, hbeq]
      exact hn fd (by omega)
  obtain ⟨n, hn⟩ := hbound m.handles
  exact ⟨n, hn n (Nat.le_refl n)⟩

/-! ## What commands leave alone -/

/-- The operation writes, removes or renames what is at `key`, under any spelling, or renames a
directory that leads there. -/
def Disturbs (env : Env) (op : Operation) (key : List Bytes) : Prop :=
  Accepted env op ∧
    match op with
    | .setfile path _ | .delfile path => resolve path = key
    | .copyfile _ dst | .compress _ dst | .decompress _ dst => resolve dst = key
    | .renamefile src dst => resolve src ≠ [] ∧ resolve src <+: key ∨ resolve dst = key
    | _ => False

/-- The file is not open for writing. -/
def Machine.Unwritten (m : Machine) (key : List Bytes) : Prop :=
  ∀ fd pos, m.handle fd ≠ some ⟨key, .write, pos⟩

/-- The call may change the file at `key`, if the file is not open for writing. -/
def Touches (env : Env) (key : List Bytes) : Call → Prop
  | .open path .write | .unlink path => ∃ rel, below env.dataDir path = some rel ∧ resolve rel = key
  | .rename src dst => ∃ a b, below env.dataDir src = some a ∧ below env.dataDir dst = some b ∧
      (resolve a ≠ [] ∧ resolve a <+: key ∨ resolve b = key)
  | .fprintf _ => logKey env = key
  | _ => False

variable {key : List Bytes}

/-- Calls that change what is open. -/
def Opening : Call → Prop
  | .open _ _ | .read _ _ | .write _ _ | .close _ => True
  | _ => False

/-- Calls that change files. -/
def Changing : Call → Prop
  | .open _ .write | .write _ _ | .unlink _ | .rename _ _ | .mkdir _ | .fopen true
  | .fprintf _ => True
  | _ => False

/-- Calls that change the lock registry. -/
def Registering : Call → Prop
  | .setHead _ => True
  | _ => False

/-- Calls that add to the records. -/
def Recording : Call → Prop
  | .fprintf _ => True
  | _ => False

/-- Calls that send something to the client. -/
def Sending : Call → Prop
  | .send _ => True
  | _ => False

theorem Effect.frame (h : Effect env m c r m') : (¬ Opening c → m'.handles = m.handles) ∧
    (¬ Changing c → m'.tree = m.tree) ∧ (¬ Registering c → m'.registry = m.registry) ∧
    (¬ Recording c → m'.records = m.records) ∧ (¬ Sending c → m'.out = m.out) := by
  cases c with
  | errno | malloc _ | strdup _ | rwlockInit _ | rwlock _ _ | fsync _ | calloc | getHead | time
  | fseekSet | ftell | fread _ =>
    obtain ⟨-, rfl⟩ := h
    exact ⟨fun _ => rfl, fun _ => rfl, fun _ => rfl, fun _ => rfl, fun _ => rfl⟩
  | setHead entries =>
    cases h
    exact ⟨fun _ => rfl, fun _ => rfl, fun hc => absurd trivial hc, fun _ => rfl, fun _ => rfl⟩
  | send data =>
    obtain ⟨w, -, -, rfl⟩ := h
    exact ⟨fun _ => rfl, fun _ => rfl, fun _ => rfl, fun _ => rfl, fun hc => absurd trivial hc⟩
  | «open» path mode =>
    cases mode with
    | read =>
      obtain ⟨rel, fd, -, -, -, -, rfl⟩ := h
      exact ⟨fun hc => absurd trivial hc, fun _ => rfl, fun _ => rfl, fun _ => rfl, fun _ => rfl⟩
    | write =>
      obtain ⟨rel, fd, -, -, -, -, hroom, rfl⟩ := h
      exact ⟨fun hc => absurd trivial hc, fun hc => absurd trivial hc, fun _ => rfl,
        fun _ => rfl, fun _ => rfl⟩
  | fstat fd =>
    obtain ⟨h', size, -, -, -, rfl⟩ := h
    exact ⟨fun _ => rfl, fun _ => rfl, fun _ => rfl, fun _ => rfl, fun _ => rfl⟩
  | read fd n =>
    obtain ⟨key, pos, b, data, -, -, -, -, -, rfl⟩ := h
    exact ⟨fun hc => absurd trivial hc, fun _ => rfl, fun _ => rfl, fun _ => rfl, fun _ => rfl⟩
  | write fd data =>
    obtain ⟨key, pos, b, w, -, -, -, -, hroom, rfl⟩ := h
    exact ⟨fun hc => absurd trivial hc, fun hc => absurd trivial hc, fun _ => rfl,
      fun _ => rfl, fun _ => rfl⟩
  | close _ =>
    obtain ⟨-, rfl⟩ := h
    exact ⟨fun hc => absurd trivial hc, fun _ => rfl, fun _ => rfl, fun _ => rfl, fun _ => rfl⟩
  | unlink path =>
    obtain ⟨rel, -, -, -, -, hdir, rfl⟩ := h
    exact ⟨fun _ => rfl, fun hc => absurd trivial hc, fun _ => rfl, fun _ => rfl, fun _ => rfl⟩
  | rename src dst =>
    obtain ⟨a, b, -, -, -, -, ⟨-, -, rfl⟩ | ⟨hmove, rfl⟩⟩ := h
    · exact ⟨fun _ => rfl, fun _ => rfl, fun _ => rfl, fun _ => rfl, fun _ => rfl⟩
    · exact ⟨fun _ => rfl, fun hc => absurd trivial hc, fun _ => rfl, fun _ => rfl, fun _ => rfl⟩
  | stat path =>
    obtain ⟨rel, st, -, -, -, -, rfl⟩ := h
    exact ⟨fun _ => rfl, fun _ => rfl, fun _ => rfl, fun _ => rfl, fun _ => rfl⟩
  | mkdir path =>
    obtain ⟨rel, -, -, -, hroom, rfl⟩ := h
    exact ⟨fun _ => rfl, fun hc => absurd trivial hc, fun _ => rfl, fun _ => rfl, fun _ => rfl⟩
  | fopen append =>
    cases append with
    | false =>
      obtain ⟨-, -, rfl⟩ := h
      exact ⟨fun _ => rfl, fun _ => rfl, fun _ => rfl, fun _ => rfl, fun _ => rfl⟩
    | true =>
      obtain ⟨-, ⟨-, rfl⟩ | ⟨-, hroom, rfl⟩⟩ := h
      · exact ⟨fun _ => rfl, fun _ => rfl, fun _ => rfl, fun _ => rfl, fun _ => rfl⟩
      · exact ⟨fun _ => rfl, fun hc => absurd trivial hc, fun _ => rfl, fun _ => rfl, fun _ => rfl⟩
  | fprintf line =>
    obtain ⟨b, -, hroom, rfl⟩ := h
    exact ⟨fun _ => rfl, fun hc => absurd trivial hc, fun _ => rfl,
      fun hc => absurd trivial hc, fun _ => rfl⟩
  | fseekEnd offset =>
    obtain ⟨-, pos, -, rfl⟩ := h
    exact ⟨fun _ => rfl, fun _ => rfl, fun _ => rfl, fun _ => rfl, fun _ => rfl⟩
  | _ =>
    cases h
    exact ⟨fun _ => rfl, fun _ => rfl, fun _ => rfl, fun _ => rfl, fun _ => rfl⟩

theorem Effect.handles (h : Effect env m c r m') (hc : ¬ Opening c) : m'.handles = m.handles :=
  h.frame.1 hc

theorem Effect.tree (h : Effect env m c r m') (hc : ¬ Changing c) : m'.tree = m.tree :=
  h.frame.2.1 hc

theorem Effect.registry (h : Effect env m c r m') (hc : ¬ Registering c) :
    m'.registry = m.registry :=
  h.frame.2.2.1 hc

theorem Effect.records (h : Effect env m c r m') (hc : ¬ Recording c) :
    m'.records = m.records :=
  h.frame.2.2.2.1 hc

theorem Effect.out (h : Effect env m c r m') (hc : ¬ Sending c) : m'.out = m.out :=
  h.frame.2.2.2.2 hc

theorem Reliable.records (h : Reliable env m c r m') (hc : ¬ Recording c) :
    m'.records = m.records := by
  rcases h with h | ⟨-, e, -, rfl⟩
  · exact h.records hc
  · rfl

/-- Where a file that is open for writing comes from. -/
theorem Effect.writer (h : Effect env m c r m') {fd pos : Nat}
    (hw : m'.handle fd = some ⟨key, .write, pos⟩) :
    (∃ fd pos, m.handle fd = some ⟨key, .write, pos⟩) ∨ Touches env key c ∧ Opening c := by
  cases c with
  | «open» path mode =>
    cases mode with
    | read =>
      obtain ⟨rel, fd', -, -, -, -, rfl⟩ := h
      rw [Machine.handle_set] at hw
      split at hw
      · simp at hw
      · exact .inl ⟨fd, pos, hw⟩
    | write =>
      obtain ⟨rel, fd', hrel, -, -, -, hroom, rfl⟩ := h
      rw [Machine.handle_set] at hw
      split at hw
      · simp only [Option.some.injEq, Handle.mk.injEq] at hw
        exact .inr ⟨⟨rel, hrel, hw.1⟩, trivial⟩
      · exact .inl ⟨fd, pos, hw⟩
  | read fd' n =>
    obtain ⟨key', pos', b, data, -, -, -, -, -, rfl⟩ := h
    rw [Machine.handle_set] at hw
    split at hw
    · simp at hw
    · exact .inl ⟨fd, pos, hw⟩
  | write fd' data =>
    obtain ⟨key', pos', b, w, hfd, -, -, -, hroom, rfl⟩ := h
    rw [Machine.handle_set] at hw
    split at hw
    · simp only [Option.some.injEq, Handle.mk.injEq] at hw
      rw [hw.1] at hfd
      exact .inl ⟨fd', pos', hfd⟩
    · exact .inl ⟨fd, pos, hw⟩
  | close fd' =>
    obtain ⟨-, rfl⟩ := h
    rw [Machine.handle_close] at hw
    split at hw
    · cases hw
    · exact .inl ⟨fd, pos, hw⟩
  | _ =>
    refine .inl ⟨fd, pos, ?_⟩
    rw [Machine.handle, ← h.handles not_false]
    exact hw

theorem Does.unwritten (h : Does env m c r m') (hc : Touches env key c → ¬ Opening c)
    (hm : m.Unwritten key) : m'.Unwritten key := by
  have heffect : ∀ {c : Call} {r : Answer c}, Effect env m c r m' →
      (Touches env key c → ¬ Opening c) → m'.Unwritten key := by
    intro c r h hc fd pos hw
    rcases h.writer hw with ⟨fd', pos', hw'⟩ | ht
    · exact hm fd' pos' hw'
    · exact hc ht.1 ht.2
  rcases h with h | ⟨-, e, p, rfl⟩ | h
  · exact heffect h hc
  · exact hm
  · cases c with
    | close fd =>
      obtain ⟨-, e, rfl⟩ := h
      intro fd' pos hw
      change (m.closeHandle fd).handle fd' = _ at hw
      rw [Machine.handle_close] at hw
      split at hw
      · cases hw
      · exact hm fd' pos hw
    | fprintf line =>
      obtain ⟨n, h⟩ := h
      exact heffect h hc
    | fread n =>
      obtain ⟨k, -, h⟩ := h
      exact heffect h hc
    | _ => exact h.elim

/-- A file that is not touched is as it was. -/
theorem Effect.kept (h : Effect env m c r m') (hc : ¬ Touches env key c) {b : Bytes}
    (hfile : m.tree.node key = some (.file b)) (hm : m.Unwritten key) :
    m'.tree.node key = some (.file b) := by
  have hother : ∀ key' x (hroom : m.tree.Room key'), key ≠ key' →
      (m.tree.put key' x hroom).node key = some (.file b) := by
    intro key' x hroom hne
    rw [Tree.put_other x hroom hne, hfile]
  cases c with
  | «open» path mode =>
    cases mode with
    | read => rw [h.tree not_false, hfile]
    | write =>
      obtain ⟨rel, fd, hrel, -, -, -, hroom, rfl⟩ := h
      exact hother _ _ hroom fun he => hc ⟨rel, hrel, he.symm⟩
  | write fd data =>
    obtain ⟨key', pos, b', w, hfd, -, -, -, hroom, rfl⟩ := h
    apply hother _ _ hroom
    rintro rfl
    exact hm fd pos hfd
  | unlink path =>
    obtain ⟨rel, hrel, -, -, -, hdir, rfl⟩ := h
    rw [Tree.remove_other hdir fun he => hc ⟨rel, hrel, he.symm⟩, hfile]
  | rename src dst =>
    obtain ⟨a, b', ha, hb, -, -, ⟨-, -, rfl⟩ | ⟨hmove, rfl⟩⟩ := h
    · exact hfile
    · have hsrc : ¬ resolve a <+: key := fun hpre => hc ⟨a, b', ha, hb, .inl ⟨hmove.inner, hpre⟩⟩
      have hdst : ¬ resolve b' <+: key := by
        intro hpre
        have he := hmove.nothing_below (by simp [hfile]) hpre
        exact hc ⟨a, b', ha, hb, .inr he.symm⟩
      rw [Tree.move_other hmove hsrc hdst, hfile]
  | mkdir path =>
    obtain ⟨rel, -, -, hnone, hroom, rfl⟩ := h
    apply hother _ _ hroom
    rintro rfl
    rw [hfile] at hnone
    cases hnone
  | fopen append =>
    cases append with
    | false => rw [h.tree not_false, hfile]
    | true =>
      obtain ⟨-, ⟨-, rfl⟩ | ⟨hnone, hroom, rfl⟩⟩ := h
      · exact hfile
      · apply hother _ _ hroom
        rintro rfl
        rw [hfile] at hnone
        cases hnone
  | fprintf line =>
    obtain ⟨b', -, hroom, rfl⟩ := h
    exact hother _ _ hroom fun he => hc he.symm
  | _ => rw [h.tree not_false, hfile]

theorem Does.kept (h : Does env m c r m') (hc : ¬ Touches env key c) {b : Bytes}
    (hfile : m.tree.node key = some (.file b)) (hm : m.Unwritten key) :
    m'.tree.node key = some (.file b) := by
  rcases h with h | ⟨-, e, p, rfl⟩ | h
  · exact h.kept hc hfile hm
  · exact hfile
  · cases c with
    | close fd =>
      obtain ⟨-, e, rfl⟩ := h
      exact hfile
    | fprintf line =>
      obtain ⟨n, h⟩ := h
      exact Effect.kept h hc hfile hm
    | fread n =>
      obtain ⟨k, -, h⟩ := h
      exact Effect.kept h hc hfile hm
    | _ => exact h.elim

theorem below_build {dataDir rel full : Bytes} {n : Nat}
    (h : pathBuild dataDir rel n = some full) : below dataDir full = some rel := by
  rw [pathBuild_eq h, below, if_pos (by simp)]
  simp

variable {client : Bytes} {times : Bytes → Prop} {op : Operation}

/-- An operation that does not disturb a file touches it only if the file is the log. -/
theorem touches_of_permits (hc : Permits env client times op c) (ht : Touches env key c) :
    Disturbs env op key ∨ ∃ line, c = .fprintf line ∧ logKey env = key := by
  cases c with
  | «open» path mode =>
    obtain ⟨hacc, rel, hrel, hb⟩ := hc
    cases mode with
    | read => exact ht.elim
    | write =>
      obtain ⟨rel', hrel', he⟩ := ht
      rw [below_build hb] at hrel'
      cases hrel'
      left
      cases op <;> simp_all [opens, Disturbs]
  | unlink path =>
    obtain ⟨hacc, rel, rfl, hb⟩ := hc
    obtain ⟨rel', hrel', he⟩ := ht
    rw [below_build hb] at hrel'
    cases hrel'
    exact .inl ⟨hacc, he⟩
  | rename src dst =>
    obtain ⟨hacc, a, b, rfl, ha, hb⟩ := hc
    obtain ⟨a', b', ha', hb', he⟩ := ht
    rw [below_build ha] at ha'
    rw [below_build hb] at hb'
    cases ha'
    cases hb'
    exact .inl ⟨hacc, he⟩
  | fprintf line => exact .inr ⟨line, rfl, ht⟩
  | _ => exact ht.elim

theorem Does.timed (h : Does env m c r m') : Timed (fun ts => 10 ∉ ts) c r := by
  cases c with
  | time =>
    obtain ⟨h, -⟩ | ⟨h, -⟩ | h := h
    · exact h
    · exact h.elim
    · exact h.elim
  | _ => trivial

/-- What every step of an operation keeps holds at every point of it. -/
theorem reach_keeps {q : Server Bool} (hr : Reaches after (op.run env client) m q m')
    (hafter : ∀ {m c r m'}, after m c r m' → Does env m c r m')
    (hstep : ∀ m c r m', I m → Permits env client (fun ts => 10 ∉ ts) op c → after m c r m' → I m')
    (hm : I m) : Obeys env client (fun ts => 10 ∉ ts) op q ∧ I m' := by
  apply hr.invariant (obeys_operation op) _ hm
  intro m c r m' hI hc hx
  exact ⟨(hafter hx).timed, hstep m c r m' hI hc hx⟩

theorem run_keeps {b : Bool} (hr : Runs after (op.run env client) m b m')
    (hafter : ∀ {m c r m'}, after m c r m' → Does env m c r m')
    (hstep : ∀ m c r m', I m → Permits env client (fun ts => 10 ∉ ts) op c → after m c r m' → I m')
    (hm : I m) : I m' :=
  (reach_keeps hr.reaches hafter hstep hm).2

/-- A file that an operation does not disturb is as it was, unless it is the log. -/
theorem run_kept {b : Bool} (hr : Runs after (op.run env client) m b m')
    (hafter : ∀ {m c r m'}, after m c r m' → Does env m c r m') (hop : ¬ Disturbs env op key)
    (hlog : logKey env ≠ key) {content : Bytes} (hfile : m.tree.node key = some (.file content))
    (hm : m.Unwritten key) : m'.tree.node key = some (.file content) ∧ m'.Unwritten key := by
  apply run_keeps (I := fun m => m.tree.node key = some (.file content) ∧ m.Unwritten key) hr hafter
  · intro m c r m' hI hc hx
    have hnot : ¬ Touches env key c := by
      intro ht
      rcases touches_of_permits hc ht with hd | ⟨-, -, he⟩
      · exact hop hd
      · exact hlog he
    exact ⟨(hafter hx).kept hnot hI.1 hI.2, (hafter hx).unwritten (fun ht => absurd ht hnot) hI.2⟩
  · exact ⟨hfile, hm⟩

/-! ## Sessions -/

/-- Commands that are served one after the other. -/
inductive Session (env : Env) (after : Machine → (c : Call) → Answer c → Machine → Prop) :
    Machine → List Command → Machine → Prop
  | done {m : Machine} : Session env after m [] m
  | next {m m' m'' : Machine} {x : Command} {xs : List Command} {b : Bool}
      (hx : Runs after (x.run env) m b m') (hxs : Session env after m' xs m'') :
      Session env after m (x :: xs) m''

theorem Session.keeps (h : Session env after m xs m')
    (hstep : ∀ x ∈ xs, ∀ m b m', Runs after (x.run env) m b m' → I m → I m') (hm : I m) : I m' := by
  induction h with
  | done => exact hm
  | next hx _ ih =>
    apply ih fun x hx => hstep x (List.mem_cons_of_mem _ hx)
    exact hstep _ List.mem_cons_self _ _ _ hx hm

theorem Session.mono {after after' : Machine → (c : Call) → Answer c → Machine → Prop}
    (h : Session env after m xs m') (hafter : ∀ m c r m', after m c r m' → after' m c r m') :
    Session env after' m xs m' := by
  induction h with
  | done => exact .done
  | next hx _ ih => exact .next (hx.mono hafter) ih

/-! ## Open files between commands -/

/-- No file is open. -/
def Machine.Closed (m : Machine) : Prop := ∀ fd, m.handle fd = none

/-- What a thread knows about itself fits the machine. -/
structure Knows (m : Machine) (l : Local) : Prop where
  seen : ∀ entries, l.seen = some entries → m.registry = entries
  opened : ∀ fd, m.handle fd ≠ none → fd ∈ l.opened.map Prod.fst

theorem Knows.seen_effect (h : Knows m l) (hx : Effect env m c r m') (entries : List Entry)
    (he : (l.next c r).seen = some entries) : m'.registry = entries := by
  cases c with
  | mapUnlock => cases he
  | getHead =>
    obtain ⟨rfl, rfl⟩ := hx
    exact Option.some.inj he
  | setHead entries' =>
    cases hx
    exact Option.some.inj he
  | calloc | rwlock _ _ | «open» _ _ =>
    rw [hx.registry not_false]
    apply h.seen
    cases r <;> exact he
  | _ =>
    rw [hx.registry not_false]
    exact h.seen entries he

theorem Knows.opened_effect (h : Knows m l) (hx : Effect env m c r m') (fd : Nat)
    (hfd : m'.handle fd ≠ none) : fd ∈ (l.next c r).opened.map Prod.fst := by
  have hset : ∀ fd' h' (m' : Machine), m'.handle fd ≠ none →
      m'.handles = (m.setHandle fd' h').handles →
      fd = fd' ∨ fd ∈ l.opened.map Prod.fst := by
    intro fd' h' m' hfd he
    rw [Machine.handle, he] at hfd
    change (m.setHandle fd' h').handle fd ≠ none at hfd
    rw [Machine.handle_set] at hfd
    split at hfd
    · next hne => exact .inl hne
    · exact .inr (h.opened fd hfd)
  cases c with
  | «open» path mode =>
    have hopen : ∃ fd' h', r = some fd' ∧ m'.handles = (m.setHandle fd' h').handles := by
      cases mode with
      | read =>
        obtain ⟨rel, fd', -, hr, -, -, rfl⟩ := hx
        exact ⟨fd', _, hr, rfl⟩
      | write =>
        obtain ⟨rel, fd', -, hr, -, -, hroom, rfl⟩ := hx
        exact ⟨fd', _, hr, rfl⟩
    obtain ⟨fd', h', rfl, he⟩ := hopen
    exact List.mem_cons.mpr (hset fd' h' m' hfd he)
  | read fd' n =>
    obtain ⟨key', pos, b, data, hfd', -, -, -, -, rfl⟩ := hx
    rcases hset fd' _ _ hfd rfl with rfl | hmem
    · exact h.opened _ (by simp [hfd'])
    · exact hmem
  | write fd' data =>
    obtain ⟨key', pos, b, w, hfd', -, -, -, hroom, rfl⟩ := hx
    rcases hset fd' _ _ hfd rfl with rfl | hmem
    · exact h.opened _ (by simp [hfd'])
    · exact hmem
  | close fd' =>
    obtain ⟨-, rfl⟩ := hx
    rw [Machine.handle_close] at hfd
    split at hfd
    · exact absurd rfl hfd
    · next hne =>
      obtain ⟨o, ho, rfl⟩ := List.mem_map.mp (h.opened fd hfd)
      exact List.mem_map_of_mem (List.mem_filter.mpr ⟨ho, by simpa using hne⟩)
  | calloc | rwlock _ _ =>
    rw [Machine.handle, hx.handles not_false] at hfd
    cases r <;> exact h.opened fd hfd
  | _ =>
    rw [Machine.handle, hx.handles not_false] at hfd
    exact h.opened fd hfd

theorem Knows.effect (h : Knows m l) (hx : Effect env m c r m') :
    l.Possible c r ∧ Knows m' (l.next c r) := by
  refine ⟨?_, h.seen_effect hx, h.opened_effect hx⟩
  cases c with
  | getHead =>
    intro entries he
    rw [hx.1]
    exact h.seen entries he
  | _ => trivial

theorem Knows.does (h : Knows m l) (hx : Does env m c r m') :
    l.Possible c r ∧ Knows m' (l.next c r) := by
  rcases hx with hx | ⟨hr, e, p, rfl⟩ | hx
  · exact h.effect hx
  · have hsame : l.Possible c r ∧ l.next c r = l := by
      cases c <;> first | exact hr.elim | (cases hr; exact ⟨trivial, rfl⟩) | exact ⟨trivial, rfl⟩
    rw [hsame.2]
    exact ⟨hsame.1, h.seen, h.opened⟩
  · cases c with
    | close fd =>
      obtain ⟨-, e, rfl⟩ := hx
      have hclose : Effect env m (.close fd) true (m.closeHandle fd) := ⟨rfl, rfl⟩
      obtain ⟨-, hknows⟩ := h.effect hclose
      exact ⟨trivial, hknows.seen, hknows.opened⟩
    | fprintf line =>
      obtain ⟨n, hx⟩ := hx
      exact Knows.effect h (c := .fprintf (line.take n)) hx
    | fread n =>
      obtain ⟨k, -, hx⟩ := hx
      exact Knows.effect h (c := .fread k) hx
    | _ => exact hx.elim

/-- A command closes what it opens. -/
theorem Command.closes {x : Command} {b : Bool} (hr : Runs (Does env) (x.run env) m b m')
    (hm : m.Closed) : m'.Closed := by
  have hserves : Serves env ⟨0, x.cmd :: x.args⟩ (x.run env) := by
    exact serves_operation _ (fun _ hpath => hpath) fun _ hpath => hpath
  obtain ⟨l, ⟨known, rfl⟩, hknows⟩ := hr.follows (J := Knows) (hserves [])
    (fun m l c r m' hJ _ hx => ⟨l.next c r, ⟨(hJ.does hx).1, rfl⟩, (hJ.does hx).2⟩)
    ⟨nofun, fun fd hfd => absurd (hm fd) hfd⟩
  intro fd
  by_contra hfd
  exact absurd (hknows.opened fd hfd) (List.not_mem_nil)

theorem Session.closed (h : Session env (Does env) m xs m') (hm : m.Closed) :
    m'.Closed :=
  h.keeps (fun _ _ _ _ _ hx => Command.closes hx) hm

theorem Machine.Closed.unwritten (hm : m.Closed) (key : List Bytes) : m.Unwritten key := by
  intro fd pos h
  rw [hm fd] at h
  cases h

end ServerFiles
