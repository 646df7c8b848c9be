import Xv6Filesrv.ServerCalls

/-!
# How the operations use their locks

What one thread of the server knows about its own locks, which calls that allows, and that
`client_thread` makes only such calls.  Nothing is assumed here about the answers of the calls but
that the lock registry does not change while its mutex is held.
-/

namespace ServerDiscipline

open ServerResp ServerPaths ServerOps ServerCalls Programs ProgramRuns

variable {src dst : Bytes} {locks : TwoLocks} {a b : Bytes} {c : Call}

/-- The paths that an operation locks. -/
def paths : Operation → List Bytes
  | .getfile path | .setfile path _ | .delfile path | .statfile path => [path]
  | .renamefile src dst | .copyfile src dst | .compress src dst | .decompress src dst => [src, dst]
  | _ => []

def requestPaths (req : RespArray) : List Bytes :=
  match req.items with
  | [] => []
  | cmd :: args => paths (dispatchCommand (arg cmd) args)

/-- The path that an operation moves, with all that is below it if it is a directory. -/
def sources : Operation → List Bytes
  | .renamefile src _ => [src]
  | _ => []

def requestSources (req : RespArray) : List Bytes :=
  match req.items with
  | [] => []
  | cmd :: args => sources (dispatchCommand (arg cmd) args)

theorem sources_subset (op : Operation) : sources op ⊆ paths op := by
  cases op with
  | renamefile src dst => simp [sources, paths]
  | _ => exact List.nil_subset _

theorem requestSources_subset (req : RespArray) : requestSources req ⊆ requestPaths req := by
  unfold requestSources requestPaths
  split
  · exact List.nil_subset _
  · exact sources_subset _

/-- What a thread knows about itself. -/
structure Local where
  /-- the request it works on -/
  request : Option RespArray
  /-- whether it holds `g_lock_map_mutex` -/
  inMap : Bool
  /-- the registry as it was read under the mutex -/
  seen : Option (List Entry)
  /-- entries that are allocated and not in the registry -/
  own : List Node
  /-- entries that were found in the registry -/
  known : List Entry
  /-- the locks it holds, the last one first -/
  held : List (Entry × Mode)
  /-- the files it has open -/
  opened : List (Nat × Bytes × Mode)
  /-- whether it holds `g_log_mutex` -/
  logging : Bool

def Local.start : Local := ⟨none, false, none, [], [], [], [], false⟩

variable (env : Env)

/-- The request names a file with this full path. -/
def Local.Names (l : Local) (full : Bytes) : Prop :=
  ∃ req, l.request = some req ∧
    ∃ path ∈ requestPaths req, pathBuild env.dataDir path pathMax = some full

/-- The request moves a file or a directory with this full path. -/
def Local.Moves (l : Local) (full : Bytes) : Prop :=
  ∃ req, l.request = some req ∧
    ∃ path ∈ requestSources req, pathBuild env.dataDir path pathMax = some full

def Local.Locked (l : Local) (path : Bytes) (mode : Mode) : Prop :=
  ∃ h ∈ l.held, h.1.path = path ∧ (mode = .write → h.2 = .write)

/-- The calls that keep to the discipline. -/
def Local.Allowed (l : Local) : Call → Prop
  | .recvRequest | .freeRequest => l.held = [] ∧ l.opened = []
  | .mapLock => l.inMap = false ∧ l.logging = false
  | .mapUnlock | .getHead => l.inMap = true
  | .setHead entries => ∃ path node rest, entries = ⟨path, node⟩ :: rest ∧ l.seen = some rest ∧
      node ∈ l.own ∧ ∀ e ∈ rest, e.path ≠ path
  | .rwlockInit n | .free n => n ∈ l.own
  | .rwlock _ e => l.inMap = false ∧ l.logging = false ∧ e ∈ l.known ∧
      (∀ h ∈ l.held, strcmp h.1.path e.path < 0) ∧ l.Names env e.path
  | .rwunlock e => (∃ mode, (e, mode) ∈ l.held) ∧ l.opened = []
  | .open path mode => l.Locked path mode
  | .unlink path => l.Locked path .write
  | .rename src dst =>
      l.opened = [] ∧ l.Locked src .write ∧ l.Locked dst .write ∧ l.Moves env src
  | .logLock => l.held = [] ∧ l.inMap = false ∧ l.logging = false
  | .logUnlock => l.logging = true
  | _ => True

/-- What a thread knows after a call. -/
def Local.next (l : Local) : (c : Call) → Answer c → Local
  | .recvRequest, r => { l with request := r }
  | .freeRequest, _ => { l with request := none }
  | .mapLock, _ => { l with inMap := true }
  | .mapUnlock, _ => { l with inMap := false, seen := none }
  | .getHead, entries => { l with seen := some entries, known := entries ++ l.known }
  | .setHead entries, _ =>
    { l with
      seen := some entries
      known := entries ++ l.known
      own := l.own.filter fun n => some n ≠ entries.head?.map Entry.node }
  | .calloc, some n => { l with own := n :: l.own }
  | .free n, _ => { l with own := l.own.filter (· ≠ n) }
  | .rwlock mode e, true => { l with held := (e, mode) :: l.held }
  | .rwunlock e, _ => { l with held := l.held.filter fun h => h.1 ≠ e }
  | .open path mode, some fd => { l with opened := (fd, path, mode) :: l.opened }
  | .close fd, _ => { l with opened := l.opened.filter fun o => o.1 ≠ fd }
  | .logLock, _ => { l with logging := true }
  | .logUnlock, _ => { l with logging := false }
  | _, _ => l

/-- The registry stays as it is while its mutex is held. -/
def Local.Possible (l : Local) : (c : Call) → Answer c → Prop
  | .getHead, entries => ∀ es, l.seen = some es → entries = es
  | _, _ => True

def rules : Rules Call Answer Local where
  allowed := Local.Allowed env
  after l c r l' := l.Possible c r ∧ l' = l.next c r

/-- The calls that leave the lock registry in order, whatever else they do. -/
def Local.Orderly (l : Local) : Call → Prop
  | .mapUnlock | .getHead => l.inMap = true
  | .setHead entries => ∃ path node rest, entries = ⟨path, node⟩ :: rest ∧ l.seen = some rest ∧
      node ∈ l.own ∧ ∀ e ∈ rest, e.path ≠ path
  | .rwlockInit n | .free n => n ∈ l.own
  | .rwlock _ e => e ∈ l.known
  | _ => True

variable {env} {α β : Type} {P : Local → Prop} {l : Local}

theorem Local.Allowed.orderly (h : l.Allowed env c) : l.Orderly c := by
  cases c with
  | mapUnlock | getHead | setHead _ | rwlockInit _ | free _ => exact h
  | rwlock mode e => exact h.2.2.1
  | _ => trivial

theorem wp_ask {f : Answer c → Server β} {Q : β → Local → Prop} (hc : l.Allowed env c)
    (h : ∀ r, l.Possible c r → wp (rules env) (f r) Q (l.next c r)) :
    wp (rules env) (ask c >>= f) Q l := by
  apply wp_bind
  apply wp_perform hc
  rintro r l' ⟨hr, rfl⟩
  exact h r hr

/-! ## Programs that leave the locks alone -/

variable (env) in
/-- From a state in `P` the program runs by the rules and changes nothing. -/
def Stays (P : Local → Prop) (p : Server α) : Prop :=
  ∀ (l : Local) (Q : α → Local → Prop), P l → (∀ a, Q a l) → wp (rules env) p Q l

theorem Stays.pure (a : α) : Stays env P (pure a : Server α) := fun _ _ _ h => h a

theorem Stays.bind {p : Server α} {f : α → Server β} (hp : Stays env P p)
    (hf : ∀ a, Stays env P (f a)) : Stays env P (p >>= f) := by
  intro l Q hl h
  apply wp_bind
  exact hp l _ hl fun a => hf a l Q hl h

/-- A call that needs nothing and changes nothing. -/
theorem Stays.call (hc : ∀ l : Local, P l → l.Allowed env c) (hn : ∀ (l : Local) r, l.next c r = l) :
    Stays env P (ask c) := by
  intro l Q hl h
  apply wp_perform (hc l hl)
  rintro r l' ⟨-, rfl⟩
  rw [hn]
  exact h r

/-- Such a program, in the middle of another one. -/
theorem Stays.then {p : Server α} {f : α → Server β} {Q : β → Local → Prop} (hp : Stays env P p)
    (hl : P l) (h : ∀ a, wp (rules env) (f a) Q l) : wp (rules env) (p >>= f) Q l := by
  apply wp_bind
  exact hp l _ hl h

variable (env) in
/-- A call that is allowed in `P` and changes nothing. -/
def Quiet (P : Local → Prop) (c : Call) : Prop :=
  (∀ l : Local, P l → l.Allowed env c) ∧ ∀ (l : Local) r, l.next c r = l

/-- A program stays where it is if its calls do. -/
theorem Stays.of_makes {p : Server α} (h : Makes (Quiet env P) (fun _ _ => True) p) :
    Stays env P p := by
  intro l Q hl hQ
  induction p generalizing l with
  | ret a => exact hQ a
  | call c k ih =>
    refine ⟨h.1.1 l hl, ?_⟩
    rintro r _ ⟨-, rfl⟩
    rw [h.1.2]
    exact ih r (h.2 r trivial) l Q hl hQ
  | loop body s k ihbody ih =>
    refine ⟨fun _ l' => l' = l, rfl, ?_⟩
    rintro s _ rfl
    refine ihbody s (h.1 s) _ _ hl fun x => ?_
    cases x with
    | inl s' => rfl
    | inr b => exact ih b (h.2 b) _ Q hl hQ

theorem quiet_basic (c : Call) (hc : Basic c) : Quiet env P c := by
  cases c <;> first | exact ⟨fun _ _ => trivial, fun _ _ => rfl⟩ | exact hc.elim

theorem stays_plain : Plain (Stays env P) where
  toSequential := ⟨Stays.pure, Stays.bind⟩
  basic c hc := .of_makes ((makes_plain quiet_basic).basic c hc)
  readLoop f sz := .of_makes (makes_readLoop quiet_basic f sz)
  writeLoop f data := .of_makes (makes_writeLoop quiet_basic f data)
  copyLoop srcFd dstFd := .of_makes (makes_copyLoop quiet_basic srcFd dstFd)

theorem stays_errno : Stays env P (ask .errno) := stays_plain.basic _ trivial

theorem stays_sendAll (buf : Bytes) : Stays env P (sendAll buf) :=
  .of_makes (makes_sendAll (fun _ => ⟨fun _ _ => trivial, fun _ _ => rfl⟩) (quiet_basic _ trivial) buf)

theorem stays_replyLine (n : Nat) (line : Bytes) : Stays env P (replyLine n line) :=
  stays_plain.replyLine stays_sendAll n line

theorem stays_replyBulk (data : Bytes) : Stays env P (respReplyBulk data) :=
  stays_plain.replyBulk stays_sendAll data

theorem stays_ensureParentDirs (filepath : Bytes) : Stays env P (pathEnsureParentDirs filepath) :=
  stays_plain.ensureParentDirs filepath fun _ _ => .call (fun _ _ => trivial) fun _ _ => rfl

/-! ## Between the functions of the server -/

/-- A thread that works on a request, holds locks, and is outside everything else. -/
def calm (req : Option RespArray) (known : List Entry) (held : List (Entry × Mode)) : Local :=
  ⟨req, false, none, [], known, held, [], false⟩

/-- A thread that holds nothing. -/
def Idle (l : Local) : Prop := ∃ req known, l = calm req known []

variable {req : Option RespArray} {known : List Entry} {held : List (Entry × Mode)}
  {Q : α → Local → Prop} {path : Bytes} {mode : Mode} {client : Bytes}

theorem wp_quiet {f : Answer c → Server α} (hc : ∀ l : Local, l.Allowed env c)
    (hn : ∀ (l : Local) r, l.next c r = l) (h : ∀ r, wp (rules env) (f r) Q l) :
    wp (rules env) (ask c >>= f) Q l :=
  Stays.then (P := fun _ => True) (.call (fun l _ => hc l) hn) trivial h

theorem stays_log (command : String) (target : Bytes) (status : String) (detail : Bytes) :
    Stays env Idle (loggerLog client command target status detail) := by
  rintro l Q ⟨req, known, rfl⟩ h
  refine wp_quiet (fun _ => trivial) (fun _ _ => rfl) fun ts => ?_
  refine wp_ask ⟨rfl, rfl, rfl⟩ fun _ _ => ?_
  refine wp_quiet (fun _ => trivial) (fun _ _ => rfl) fun opened => ?_
  have hunlock : wp (rules env) (ask .logUnlock) Q ((calm req known []).next .logLock ()) :=
    wp_perform rfl (by
      rintro r l' ⟨-, rfl⟩
      exact h r)
  split
  · refine wp_quiet (fun _ => trivial) (fun _ _ => rfl) fun _ => ?_
    exact wp_quiet (fun _ => trivial) (fun _ _ => rfl) fun _ => hunlock
  · exact hunlock

theorem stays_replyFailure (command : String) (target text : Bytes) :
    Stays env Idle (replyFailure client command target text) :=
  (stays_log _ _ _ _).bind fun _ => stays_replyLine _ _

theorem stays_replyLockFailure (command : String) (target : Bytes) :
    Stays env Idle (replyLockFailure client command target) :=
  (stays_log _ _ _ _).bind fun _ => stays_replyLine _ _

/-- The request names the file `full`. -/
def NamesFile (env : Env) (req : Option RespArray) (full : Bytes) : Prop :=
  ∃ r, req = some r ∧ ∃ path ∈ requestPaths r, pathBuild env.dataDir path pathMax = some full

/-- `get_or_create_lock` returns with an entry of the registry for the path, or with nothing. -/
theorem wp_getOrCreateLock {Q : Option Entry → Local → Prop}
    (hnone : ∀ known, Q none (calm req known held))
    (hsome : ∀ known e, e ∈ known → e.path = path → Q (some e) (calm req known held)) :
    wp (rules env) (getOrCreateLock path) Q (calm req known held) := by
  refine wp_ask ⟨rfl, rfl⟩ fun _ _ => ?_
  refine wp_ask rfl fun entries _ => ?_
  split
  · next cur hfind =>
    refine wp_ask rfl fun _ _ => ?_
    have hmem := List.mem_of_find?_eq_some hfind
    have hpath := List.find?_some hfind
    exact hsome _ cur (List.mem_append_left _ hmem) (strcmp_eq_zero (by simpa using hpath))
  · next hfind =>
    have hfresh : ∀ e ∈ entries, e.path ≠ path := by
      intro e he hpath
      have hne := List.find?_eq_none.mp hfind e he
      simp [hpath, strcmp_self] at hne
    refine wp_ask trivial fun node _ => ?_
    cases node with
    | none =>
      refine wp_ask rfl fun _ _ => ?_
      exact hnone _
    | some node =>
      have hfree : wp (rules env) (do ask (.free node); ask .mapUnlock; pure none) Q
          ⟨req, true, some entries, [node], entries ++ known, held, [], false⟩ := by
        refine wp_ask List.mem_cons_self fun _ _ => ?_
        refine wp_ask rfl fun _ _ => ?_
        have hend : wp (rules env) (pure none : Server (Option Entry)) Q
            (calm req (entries ++ known) held) := wp_pure (hnone (entries ++ known))
        simpa [Local.next, calm] using hend
      refine wp_quiet (fun _ => trivial) (fun _ _ => rfl) fun copied => ?_
      split
      · exact hfree
      · refine wp_ask List.mem_cons_self fun ready _ => ?_
        split
        · exact hfree
        · refine wp_ask rfl fun next hnext => ?_
          have hsame : next = entries := hnext entries rfl
          subst hsame
          refine wp_ask ⟨path, node, next, rfl, rfl, List.mem_cons_self, hfresh⟩ fun _ _ => ?_
          refine wp_ask rfl fun _ _ => ?_
          have hend : wp (rules env) (pure (some ⟨path, node⟩) : Server (Option Entry)) Q
              (calm req (⟨path, node⟩ :: next ++ (next ++ (next ++ known))) held) :=
            wp_pure (hsome _ _ List.mem_cons_self rfl)
          simpa [Local.next, calm] using hend

theorem wp_locksAcquire {Q : Option Entry → Local → Prop}
    (horder : ∀ h ∈ held, strcmp h.1.path path < 0) (hname : NamesFile env req path)
    (hnone : ∀ known, Q none (calm req known held))
    (hsome : ∀ known e, e.path = path → Q (some e) (calm req known ((e, mode) :: held))) :
    wp (rules env) (locksAcquire mode path) Q (calm req known held) := by
  apply wp_bind
  apply wp_getOrCreateLock
  · exact hnone
  · intro known e he hpath
    subst hpath
    refine wp_ask ⟨rfl, rfl, he, horder, hname⟩ fun got _ => ?_
    cases got with
    | false => exact hnone known
    | true => exact hsome known e rfl

/-- What `locks_acquire_two_write` took, and how it is held. -/
inductive HoldsTwo (a b : Bytes) : TwoLocks → List (Entry × Mode) → Prop
  | same {e : Entry} (ha : e.path = a) (hb : e.path = b) :
      HoldsTwo a b ⟨e, e, true⟩ [(e, .write)]
  | ordered {ea eb : Entry} (ha : ea.path = a) (hb : eb.path = b) (hne : a ≠ b) :
      HoldsTwo a b ⟨ea, eb, false⟩ [(eb, .write), (ea, .write)]
  | swapped {ea eb : Entry} (ha : ea.path = a) (hb : eb.path = b) (hne : a ≠ b) :
      HoldsTwo a b ⟨ea, eb, false⟩ [(ea, .write), (eb, .write)]

theorem wp_release {e : Entry} {f : Unit → Server α}
    (h : wp (rules env) (f ()) Q (calm req known [])) :
    wp (rules env) (locksRelease e >>= f) Q (calm req known [(e, mode)]) := by
  refine wp_ask ⟨⟨mode, List.mem_cons_self⟩, rfl⟩ fun _ _ => ?_
  simpa [Local.next, calm] using h

theorem wp_releaseTwo {f : Unit → Server α} (htwo : HoldsTwo a b locks held)
    (h : wp (rules env) (f ()) Q (calm req known [])) :
    wp (rules env) (locksReleaseTwo locks >>= f) Q (calm req known held) := by
  have hlast : ∀ e, wp (rules env) (ask (.rwunlock e)) (fun x => wp (rules env) (f x) Q)
      (calm req known [(e, .write)]) := by
    intro e
    refine wp_perform ⟨⟨.write, List.mem_cons_self⟩, rfl⟩ ?_
    rintro r l' ⟨-, rfl⟩
    simpa [Local.next, calm] using h
  apply wp_bind
  cases htwo with
  | @same e ha hb => exact hlast e
  | @ordered ea eb ha hb hne =>
    have hne' : eb ≠ ea := fun he => hne (by rw [← ha, ← hb, he])
    refine wp_ask ⟨⟨.write, by simp [calm]⟩, rfl⟩ fun _ _ => ?_
    simpa [Local.next, calm, hne'] using hlast eb
  | @swapped ea eb ha hb hne =>
    have hne' : eb ≠ ea := fun he => hne (by rw [← ha, ← hb, he])
    refine wp_ask ⟨⟨.write, by simp [calm]⟩, rfl⟩ fun _ _ => ?_
    simpa [Local.next, calm, hne'] using hlast eb

/-- Two locks are taken in the order of their paths. -/
theorem wp_acquireInOrder {first second : Bytes} {Q : Option (Entry × Entry) → Local → Prop}
    (horder : strcmp first second < 0) (hfirst : NamesFile env req first)
    (hsecond : NamesFile env req second) (hnone : ∀ known, Q none (calm req known []))
    (hsome : ∀ known e e', e.path = first → e'.path = second →
      Q (some (e, e')) (calm req known [(e', .write), (e, .write)])) :
    wp (rules env) (acquireInOrder first second) Q (calm req known []) := by
  apply wp_bind
  apply wp_locksAcquire (by simp) hfirst hnone
  intro known e he
  apply wp_bind
  apply wp_locksAcquire (by simpa [he] using horder) hsecond
  · intro known
    exact wp_release (hnone known)
  · intro known e' he'
    exact hsome known e e' he he'

theorem wp_acquireTwo {Q : Option TwoLocks → Local → Prop} (ha : NamesFile env req a)
    (hb : NamesFile env req b) (hnone : ∀ known, Q none (calm req known []))
    (hsome : ∀ known locks held, HoldsTwo a b locks held → Q (some locks) (calm req known held)) :
    wp (rules env) (locksAcquireTwoWrite a b) Q (calm req known []) := by
  unfold locksAcquireTwoWrite
  split
  · next heq =>
    have hab := strcmp_eq_zero heq
    apply wp_bind
    apply wp_locksAcquire (by simp) ha hnone
    intro known e he
    exact hsome known _ _ (.same he (he.trans hab))
  · next hne =>
    have hab : a ≠ b := fun h => hne (by rw [h, strcmp_self])
    split
    · next hgt =>
      apply wp_bind
      apply wp_acquireInOrder (strcmp_swap hgt) hb ha hnone
      intro known e e' he he'
      exact hsome known _ _ (.swapped he' he hab)
    · next hle =>
      apply wp_bind
      apply wp_acquireInOrder (by omega) ha hb hnone
      intro known e e' he he'
      exact hsome known _ _ (.ordered he he' hab)

/-! ## Files -/

/-- A file that was opened and is closed again. -/
theorem close_next {fd : Nat} {r : Bool} (ho : l.opened = []) :
    (l.next (.open path mode) (some fd)).next (.close fd) r = l := by
  obtain ⟨req, inMap, seen, own, known, held, opened, logging⟩ := l
  subst ho
  simp [Local.next]

/-- Close the one open file and go on. -/
theorem wp_close {fd : Nat} {f : Bool → Server α} (ho : l.opened = [])
    (h : ∀ r, wp (rules env) (f r) Q l) :
    wp (rules env) (ask (.close fd) >>= f) Q (l.next (.open path mode) (some fd)) := by
  refine wp_ask trivial fun r _ => ?_
  rw [close_next ho]
  exact h r

theorem stays_readAllFile :
    Stays env (fun l => l.opened = [] ∧ l.Locked path .read) (readAllFile path) := by
  rintro l Q ⟨ho, hl⟩ h
  refine wp_ask hl fun f _ => ?_
  cases f with
  | none => exact h none
  | some f =>
    refine wp_quiet (fun _ => trivial) (fun _ _ => rfl) fun size => ?_
    cases size with
    | none => exact wp_close ho fun _ => h none
    | some size =>
      have hfail : ∀ e, wp (rules env) (do
          let _ ← ask (.close f)
          ask (.setErrno e)
          pure none) Q (l.next (.open path .read) (some f)) :=
        fun e => wp_close ho fun _ => wp_quiet (fun _ => trivial) (fun _ _ => rfl) fun _ => h none
      simp only
      split
      · exact hfail _
      · refine wp_quiet (fun _ => trivial) (fun _ _ => rfl) fun room => ?_
        split
        · exact hfail _
        · refine (stays_plain (P := fun _ => True) |>.readLoop f _).then trivial fun out => ?_
          exact wp_close ho fun _ => h out

theorem stays_writeAllFile (data : Bytes) :
    Stays env (fun l => l.opened = [] ∧ l.Locked path .write) (writeAllFile path data) := by
  rintro l Q ⟨ho, hl⟩ h
  refine (stays_ensureParentDirs (P := fun _ => True) path).then trivial fun made => ?_
  split
  · exact h false
  · refine wp_ask hl fun f _ => ?_
    cases f with
    | none => exact h false
    | some f =>
      refine (stays_plain (P := fun _ => True) |>.writeLoop f data).then trivial fun written => ?_
      split
      · exact wp_close ho fun _ => h false
      · refine wp_quiet (fun _ => trivial) (fun _ _ => rfl) fun synced => ?_
        split
        · exact wp_close ho fun _ => h false
        · refine wp_perform trivial ?_
          rintro r l' ⟨-, rfl⟩
          rw [close_next ho]
          exact h r

/-! ## Operations -/

variable {r : RespArray}

variable (env) in
/-- The program serves the request `r` and ends with no lock. -/
def Serves (r : RespArray) (p : Server α) : Prop :=
  ∀ known, wp (rules env) p (fun _ l => ∃ known, l = calm (some r) known []) (calm (some r) known [])

theorem Stays.serves {p : Server α} (h : Stays env Idle p) : Serves env r p :=
  fun known => h _ _ ⟨some r, known, rfl⟩ fun _ => ⟨known, rfl⟩

theorem Serves.of_bind {p : Server β} {f : β → Server α} (hp : Stays env Idle p)
    (hf : ∀ b, Serves env r (f b)) : Serves env r (p >>= f) :=
  fun known => hp.then ⟨some r, known, rfl⟩ fun b => hf b known

theorem namesFile {full : Bytes} (hp : path ∈ requestPaths r)
    (hb : pathBuild env.dataDir path pathMax = some full) : NamesFile env (some r) full :=
  ⟨r, rfl, path, hp, hb⟩

/-- An operation on one file: what is done under the lock leaves the lock alone. -/
theorem serves_one {f : Option Entry → Server α} {full : Bytes}
    (hname : NamesFile env (some r) full) (hnone : Serves env r (f none))
    (hsome : ∀ known e, e.path = full → wp (rules env) (f (some e))
      (fun _ l => ∃ known, l = calm (some r) known []) (calm (some r) known [(e, mode)])) :
    Serves env r (locksAcquire mode full >>= f) := by
  intro known
  apply wp_bind
  apply wp_locksAcquire (by simp) hname
  · intro known
    exact hnone known
  · exact hsome

theorem locked_one {e : Entry} (he : e.path = path) :
    (calm req known [(e, mode)]).Locked path mode :=
  ⟨(e, mode), List.mem_cons_self, he, fun h => h⟩

/-- Release the one lock and finish. -/
theorem wp_finish {e : Entry} {f : Unit → Server α} (h : Serves env r (f ())) :
    wp (rules env) (locksRelease e >>= f) (fun _ l => ∃ known, l = calm (some r) known [])
      (calm (some r) known [(e, mode)]) :=
  wp_release (h known)

section OneFile

variable (hp : path ∈ requestPaths r)
include hp

theorem serves_withPath {command : String} {body : Bytes → Entry → Server Bool}
    (hbody : ∀ full known e, e.path = full → wp (rules env) (body full e)
      (fun _ l => ∃ known, l = calm (some r) known []) (calm (some r) known [(e, mode)])) :
    Serves env r (withPath env client (locksAcquire mode) command path body) := by
  unfold withPath
  split
  · exact (stays_replyFailure _ _ _).serves
  · next full hb =>
    apply serves_one (namesFile hp hb)
    · exact (stays_replyLockFailure _ _).serves
    · exact hbody full

theorem serves_getfile : Serves env r (opGetfile env client path) := by
  apply serves_withPath hp
  intro full known e he
  refine stays_readAllFile.then ⟨rfl, locked_one he⟩ fun out => ?_
  cases out with
  | none =>
    refine stays_errno.then (P := fun _ => True) trivial fun err => ?_
    apply wp_finish
    split
    · exact .of_bind (stays_log _ _ _ _) fun _ => (stays_sendAll _).serves
    · split <;> exact (stays_replyFailure _ _ _).serves
  | some buf =>
    apply wp_finish
    refine .of_bind (stays_replyBulk _) fun rc => ?_
    exact .of_bind (stays_log _ _ _ _) fun _ => (Stays.pure rc).serves

theorem serves_setfile (data : Bytes) : Serves env r (opSetfile env client path data) := by
  apply serves_withPath hp
  intro full known e he
  refine (stays_writeAllFile data).then ⟨rfl, locked_one he⟩ fun ok => ?_
  split
  · refine stays_errno.then (P := fun _ => True) trivial fun err => ?_
    apply wp_finish
    exact (stays_replyFailure _ _ _).serves
  · apply wp_finish
    exact .of_bind (stays_log _ _ _ _) fun _ => (stays_replyLine _ _).serves

theorem serves_delfile : Serves env r (opDelfile env client path) := by
  apply serves_withPath hp
  intro full known e he
  refine wp_ask (locked_one he) fun ok _ => ?_
  split
  · refine stays_errno.then (P := fun _ => True) trivial fun err => ?_
    apply wp_finish
    split
    · exact .of_bind (stays_log _ _ _ _) fun _ => (stays_replyLine _ _).serves
    · exact (stays_replyFailure _ _ _).serves
  · apply wp_finish
    exact .of_bind (stays_log _ _ _ _) fun _ => (stays_replyLine _ _).serves

theorem serves_statfile : Serves env r (opStatfile env client path) := by
  apply serves_withPath hp
  intro full known e he
  refine wp_quiet (fun _ => trivial) (fun _ _ => rfl) fun st => ?_
  cases st with
  | none =>
    refine stays_errno.then (P := fun _ => True) trivial fun err => ?_
    apply wp_finish
    split
    · exact .of_bind (stays_log _ _ _ _) fun _ => (stays_sendAll _).serves
    · exact (stays_replyFailure _ _ _).serves
  | some st =>
    apply wp_finish
    split
    · exact (stays_replyFailure _ _ _).serves
    · exact .of_bind (stays_log _ _ _ _) fun _ => (stays_replyBulk _).serves

end OneFile

theorem serves_logs (limit : Int) : Serves env r (opLogs env client limit) := by
  refine .of_bind (stays_plain.readLogTail limit) fun out => ?_
  cases out with
  | none =>
    refine .of_bind stays_errno fun e => ?_
    refine .of_bind (stays_log _ _ _ _) fun _ => ?_
    exact .of_bind stays_errno fun e => (stays_replyLine _ _).serves
  | some buf =>
    refine .of_bind (stays_replyBulk _) fun rc => ?_
    exact .of_bind (stays_log _ _ _ _) fun _ => (Stays.pure rc).serves

theorem HoldsTwo.locked (h : HoldsTwo a b locks held) :
    (calm req known held).Locked a .write ∧ (calm req known held).Locked b .write := by
  cases h with
  | @same e ha hb =>
    exact ⟨⟨(e, .write), by simp [calm], ha, fun _ => rfl⟩,
      ⟨(e, .write), by simp [calm], hb, fun _ => rfl⟩⟩
  | @ordered ea eb ha hb hne =>
    exact ⟨⟨(ea, .write), by simp [calm], ha, fun _ => rfl⟩,
      ⟨(eb, .write), by simp [calm], hb, fun _ => rfl⟩⟩
  | @swapped ea eb ha hb hne =>
    exact ⟨⟨(ea, .write), by simp [calm], ha, fun _ => rfl⟩,
      ⟨(eb, .write), by simp [calm], hb, fun _ => rfl⟩⟩

theorem Local.Locked.read (h : l.Locked path .write) : l.Locked path .read := by
  obtain ⟨x, hx, hpath, -⟩ := h
  exact ⟨x, hx, hpath, nofun⟩

/-- Release both locks and finish. -/
theorem wp_finishTwo {f : Unit → Server α} (htwo : HoldsTwo a b locks held)
    (h : Serves env r (f ())) :
    wp (rules env) (locksReleaseTwo locks >>= f) (fun _ l => ∃ known, l = calm (some r) known [])
      (calm (some r) known held) :=
  wp_releaseTwo htwo (h known)

theorem wp_failTwo (htwo : HoldsTwo a b locks held) (command : String) (target : Bytes) (e : Errno) :
    wp (rules env) (failTwo env client locks command target e)
      (fun _ l => ∃ known, l = calm (some r) known []) (calm (some r) known held) :=
  wp_finishTwo htwo (stays_replyFailure _ _ _).serves

/-- An operation on two files. -/
theorem serves_two {command : String} {src dst refused : Bytes}
    {body : Bytes → Bytes → TwoLocks → Server Bool}
    (hsrc : src ∈ requestPaths r) (hdst : dst ∈ requestPaths r)
    (hbody : ∀ a b known locks held, pathBuild env.dataDir src pathMax = some a →
      HoldsTwo a b locks held → wp (rules env) (body a b locks)
        (fun _ l => ∃ known, l = calm (some r) known []) (calm (some r) known held)) :
    Serves env r (withTwoPaths env client command src dst refused body) := by
  unfold withTwoPaths
  split
  · next a b ha hb =>
    intro known
    apply wp_bind
    apply wp_acquireTwo (namesFile hsrc ha) (namesFile hdst hb)
    · intro known
      exact (stays_replyLockFailure _ _).serves known
    · intro known locks held htwo
      exact hbody a b known locks held ha htwo
  · exact (stays_replyFailure _ _ _).serves

theorem serves_renamefile (hsrc : src ∈ requestSources r) (hdst : dst ∈ requestPaths r) :
    Serves env r (opRenamefile env client src dst) := by
  apply serves_two (requestSources_subset r hsrc) hdst
  intro a b known locks held hbuild htwo
  refine (stays_ensureParentDirs (P := fun _ => True) b).then trivial fun made => ?_
  split
  · refine stays_errno.then (P := fun _ => True) trivial fun e => ?_
    exact wp_failTwo htwo _ _ e
  · refine wp_ask ⟨rfl, htwo.locked.1, htwo.locked.2, r, rfl, src, hsrc, hbuild⟩ fun ok _ => ?_
    split
    · refine stays_errno.then (P := fun _ => True) trivial fun e => ?_
      exact wp_failTwo htwo _ _ e
    · apply wp_finishTwo htwo
      exact .of_bind (stays_log _ _ _ _) fun _ => (stays_replyLine _ _).serves

theorem serves_recode {command detail : String} {codec : Bytes → Server (Option Bytes)}
    (hcodec : ∀ input, Stays env (fun _ => True) (codec input)) (hsrc : src ∈ requestPaths r)
    (hdst : dst ∈ requestPaths r) :
    Serves env r (opRecode env client command codec detail src dst) := by
  apply serves_two hsrc hdst
  intro a b known locks held _ htwo
  have hfail : ∀ target, wp (rules env) (do
      let e ← ask .errno
      failTwo env client locks command target e)
      (fun _ l => ∃ known, l = calm (some r) known []) (calm (some r) known held) :=
    fun target => stays_errno.then (P := fun _ => True) trivial fun e => wp_failTwo htwo _ _ e
  refine stays_readAllFile.then ⟨rfl, htwo.locked.1.read⟩ fun buf => ?_
  cases buf with
  | none => exact hfail src
  | some buf =>
    refine (hcodec buf).then trivial fun out => ?_
    cases out with
    | none => exact hfail src
    | some out =>
      refine (stays_writeAllFile out).then ⟨rfl, htwo.locked.2⟩ fun ok => ?_
      split
      · exact hfail dst
      · apply wp_finishTwo htwo
        exact .of_bind (stays_log _ _ _ _) fun _ => (stays_replyLine _ _).serves

/-- Both files of a copy are closed, whatever descriptors they have. -/
theorem close_both {srcFd dstFd : Nat} {b b' : Bool} :
    ((((calm req known held).next (.open src .read) (some srcFd)).next (.open dst .write)
      (some dstFd)).next (.close srcFd) b).next (.close dstFd) b' = calm req known held := by
  by_cases h : dstFd = srcFd <;> simp [Local.next, calm, h]

theorem wp_closeBoth {srcFd dstFd : Nat} {f : Server α}
    (h : wp (rules env) f Q (calm req known held)) :
    wp (rules env) (do
      let _ ← ask (.close srcFd)
      let _ ← ask (.close dstFd)
      f) Q (((calm req known held).next (.open src .read) (some srcFd)).next (.open dst .write)
        (some dstFd)) := by
  refine wp_ask trivial fun _ _ => ?_
  refine wp_ask trivial fun _ _ => ?_
  rw [close_both]
  exact h

theorem serves_copyfile (hsrc : src ∈ requestPaths r) (hdst : dst ∈ requestPaths r) :
    Serves env r (opCopyfile env client src dst) := by
  apply serves_two hsrc hdst
  intro a b known locks held _ htwo
  refine wp_ask htwo.locked.1.read fun srcFd _ => ?_
  cases srcFd with
  | none =>
    refine stays_errno.then (P := fun _ => True) trivial fun e => ?_
    apply wp_finishTwo htwo
    split
    · exact .of_bind (stays_log _ _ _ _) fun _ => (stays_replyLine _ _).serves
    · exact (stays_replyFailure _ _ _).serves
  | some srcFd =>
    have hfail : wp (rules env) (do
        let e ← ask .errno
        let _ ← ask (.close srcFd)
        failTwo env client locks "COPYFILE" dst e)
        (fun _ l => ∃ known, l = calm (some r) known [])
        ((calm (some r) known held).next (.open a .read) (some srcFd)) :=
      stays_errno.then (P := fun _ => True) trivial fun e =>
        wp_close rfl fun _ => wp_failTwo htwo _ _ e
    refine (stays_ensureParentDirs (P := fun _ => True) b).then trivial fun made => ?_
    split
    · exact hfail
    · have hdst : (calm (some r) known held).Locked b .write := htwo.locked.2
      refine wp_ask hdst fun dstFd _ => ?_
      cases dstFd with
      | none => exact hfail
      | some dstFd =>
        have hcopy : ∀ target, wp (rules env) (failCopy env client srcFd dstFd locks target)
            (fun _ l => ∃ known, l = calm (some r) known [])
            (((calm (some r) known held).next (.open a .read) (some srcFd)).next (.open b .write)
              (some dstFd)) :=
          fun target => stays_errno.then (P := fun _ => True) trivial fun e =>
            wp_closeBoth (wp_failTwo htwo _ _ e)
        refine (stays_plain (P := fun _ => True) |>.copyLoop srcFd dstFd).then trivial fun result => ?_
        cases result with
        | readFailed => exact hcopy src
        | writeFailed => exact hcopy dst
        | done =>
          refine wp_quiet (fun _ => trivial) (fun _ _ => rfl) fun synced => ?_
          split
          · exact hcopy dst
          · apply wp_closeBoth
            apply wp_finishTwo htwo
            exact .of_bind (stays_log _ _ _ _) fun _ => (stays_replyLine _ _).serves

/-- Every operation serves the requests that name its files, and what it moves. -/
theorem serves_operation (op : Operation) (h : ∀ path ∈ paths op, path ∈ requestPaths r)
    (hmoves : ∀ path ∈ sources op, path ∈ requestSources r) :
    Serves env r (op.run env client) := by
  cases op with
  | replySimple msg => exact (stays_replyLine _ _).serves
  | replyError msg => exact (stays_replyLine _ _).serves
  | replyBulk data => exact (stays_replyBulk _).serves
  | getfile path => exact serves_getfile (h path (by simp [paths]))
  | setfile path data => exact serves_setfile (h path (by simp [paths])) data
  | delfile path => exact serves_delfile (h path (by simp [paths]))
  | renamefile src dst =>
    exact serves_renamefile (hmoves src (by simp [sources])) (h dst (by simp [paths]))
  | copyfile src dst => exact serves_copyfile (h src (by simp [paths])) (h dst (by simp [paths]))
  | statfile path => exact serves_statfile (h path (by simp [paths]))
  | logs limit => exact serves_logs limit
  | compress src dst =>
    exact serves_recode stays_plain.compress (h src (by simp [paths])) (h dst (by simp [paths]))
  | decompress src dst =>
    exact serves_recode stays_plain.decompress (h src (by simp [paths])) (h dst (by simp [paths]))

/-- A client's thread keeps to the discipline, whatever it is asked for. -/
theorem clientThread_disciplined :
    wp (rules env) (clientThread env client) (fun _ _ => True) Local.start := by
  apply wp_bind
  apply wp_iterate fun _ => Idle
  · exact ⟨none, [], rfl⟩
  · rintro _ l ⟨req, known, rfl⟩
    refine wp_quiet (fun _ => trivial) (fun _ _ => rfl) fun stop => ?_
    have hend : wp (rules env) (ask .closeClient) (fun _ _ => True) (calm req known []) :=
      wp_perform trivial fun _ _ _ => trivial
    split
    · exact hend
    · refine wp_ask ⟨rfl, rfl⟩ fun got _ => ?_
      cases got with
      | none => exact wp_perform trivial fun _ _ _ => trivial
      | some r =>
        simp only
        split
        · refine wp_ask ⟨rfl, rfl⟩ fun _ _ => ?_
          refine (stays_replyLine _ _).then (P := fun _ => True) trivial fun _ => ?_
          exact ⟨none, known, rfl⟩
        · next cmd args hitems =>
          have hnames : ∀ path ∈ paths (dispatchCommand (arg cmd) args),
              path ∈ requestPaths r := by
            intro path hpath
            rw [requestPaths, hitems]
            exact hpath
          have hmoves : ∀ path ∈ sources (dispatchCommand (arg cmd) args),
              path ∈ requestSources r := by
            intro path hpath
            rw [requestSources, hitems]
            exact hpath
          apply wp_bind
          refine (serves_operation _ hnames hmoves known).mono ?_
          rintro _ l ⟨known, rfl⟩
          refine wp_ask ⟨rfl, rfl⟩ fun _ _ => ?_
          exact ⟨none, known, rfl⟩

end ServerDiscipline
