import Xv6Filesrv.ServerFiles
import Xv6Filesrv.ServerReplyFormat

/-!
# The server without errors

What the functions of the server come to on a machine with memory and without errors of devices:
they end, locks are had, replies are sent, and files are read and written as they should.
-/

namespace ServerReliable

open FileTree ServerResp ServerPaths ServerRle ServerOps ServerFiles ServerReplyFormat Programs.Prog
  ProgramRuns

variable {α β : Type} {env : Env} {m m' m'' : Machine} {Q : β → Machine → Prop} {fd : Nat}
  {h : Handle} {c : Call}

/-- What was sent and logged in between; no more files are open than before. -/
structure Did (sent : Bytes) (lines : List Bytes) (m m' : Machine) : Prop where
  out : m'.out = m.out ++ sent
  records : m'.records = m.records ++ lines
  handles : m'.handles = m.handles
  patience : m'.patience ≤ m.patience

/-- The same, and the files are as they were. -/
structure Calm (sent : Bytes) (m m' : Machine) : Prop extends Did sent [] m m' where
  tree : m'.tree = m.tree

theorem Did.refl (m : Machine) : Did [] [] m m :=
  ⟨by simp, by simp, rfl, Nat.le_refl _⟩

theorem Calm.refl (m : Machine) : Calm [] m m := ⟨Did.refl m, rfl⟩

theorem Did.trans {a b : Bytes} {xs ys : List Bytes} (h : Did a xs m m') (h' : Did b ys m' m'') :
    Did (a ++ b) (xs ++ ys) m m'' := by
  constructor
  · rw [h'.out, h.out, List.append_assoc]
  · rw [h'.records, h.records, List.append_assoc]
  · rw [h'.handles, h.handles]
  · exact Nat.le_trans h'.patience h.patience

theorem Calm.trans {a b : Bytes} (h : Calm a m m') (h' : Calm b m' m'') : Calm (a ++ b) m m'' :=
  ⟨h.toDid.trans h'.toDid, h'.tree.trans h.tree⟩

/-- Nothing was sent. -/
theorem Did.silent {xs : List Bytes} (h : Did [] xs m m') : m'.out = m.out :=
  h.out.trans (List.append_nil _)

theorem did_putFile {key : List Bytes} {content : Bytes} (h : m.tree.Room key) :
    Did [] [] m (m.putFile key content h) :=
  ⟨by simp [Machine.putFile], by simp [Machine.putFile], rfl, Nat.le_refl _⟩

theorem calm_fail (m : Machine) (e : Errno) : Calm [] m (m.fail e) := by
  refine ⟨⟨by simp [Machine.fail], by simp [Machine.fail], rfl, ?_⟩, rfl⟩
  simp only [Machine.fail]
  split <;> omega

theorem ends_call (c : Call) {Q : Answer c → Machine → Prop} (hex : ∃ r m', Reliable env m c r m')
    (h : ∀ r m', Reliable env m c r m' → Q r m') : Ends (Reliable env) Q (ask c) m :=
  Ends.perform hex h

/-- A program that ends with all as it was, and with a result in `P`. -/
def Calms (env : Env) (P : α → Prop) (p : Server α) : Prop :=
  ∀ m, Ends (Reliable env) (fun a m' => P a ∧ Calm [] m m') p m

theorem Calms.ends {P : α → Prop} {p : Server α} {f : α → Server β} (hp : Calms env P p)
    (hf : ∀ a m', P a → Calm [] m m' → Ends (Reliable env) Q (f a) m') :
    Ends (Reliable env) Q (p >>= f) m :=
  Ends.bind ((hp m).mono fun a m' h => hf a m' h.1 h.2)

theorem Calms.bind {P : α → Prop} {P' : β → Prop} {p : Server α} {f : α → Server β}
    (hp : Calms env P p) (hf : ∀ a, P a → Calms env P' (f a)) : Calms env P' (p >>= f) :=
  fun _ => hp.ends fun a m' ha h => (hf a ha m').mono fun _ _ h' => ⟨h'.1, h.trans h'.2⟩

theorem Calms.pure {P : α → Prop} {a : α} (h : P a) : Calms env P (pure a : Server α) :=
  fun m => Ends.pure ⟨h, Calm.refl m⟩

/-- Calls that cannot fail and leave the files alone. -/
def Sure : Call → Prop
  | .errno | .setErrno _ | .malloc _ | .mapLock | .mapUnlock | .getHead | .setHead _ | .calloc
  | .strdup _ | .rwlockInit _ | .free _ | .rwlock _ _ | .rwunlock _ | .fsync _ | .time | .logLock
  | .logUnlock | .fclose => True
  | _ => False

/-- Their answers. -/
def Good : (c : Call) → Answer c → Prop
  | .malloc _, r | .strdup _, r | .rwlockInit _, r | .rwlock _ _, r | .fsync _, r => r = true
  | .calloc, r => r ≠ none
  | .time, r => 10 ∉ r
  | _, _ => True

theorem Sure.effect (hc : Sure c) {r : Answer c} (h : Effect env m c r m') :
    Good c r ∧ Calm [] m m' := by
  cases c with
  | errno | getHead =>
    obtain ⟨-, rfl⟩ := h
    exact ⟨trivial, Calm.refl _⟩
  | malloc _ | strdup _ | rwlockInit _ | rwlock _ _ | fsync _ | time =>
    obtain ⟨hr, rfl⟩ := h
    exact ⟨hr, Calm.refl _⟩
  | calloc =>
    obtain ⟨⟨n, rfl⟩, rfl⟩ := h
    exact ⟨Option.some_ne_none n, Calm.refl _⟩
  | setErrno _ | setHead _ =>
    cases h
    exact ⟨trivial, ⟨by simp, by simp, rfl, Nat.le_refl _⟩, rfl⟩
  | mapLock | mapUnlock | free _ | rwunlock _ | logLock | logUnlock | fclose =>
    cases h
    exact ⟨trivial, Calm.refl _⟩
  | _ => exact hc.elim

theorem Sure.answered (hc : Sure c) (env : Env) (m : Machine) :
    ∃ r m', Effect env m c r m' := by
  cases c with
  | errno | getHead | malloc _ | strdup _ | rwlockInit _ | rwlock _ _ | fsync _ =>
    exact ⟨_, m, rfl, rfl⟩
  | time => exact ⟨[], m, List.not_mem_nil, rfl⟩
  | calloc => exact ⟨some 0, m, ⟨0, rfl⟩, rfl⟩
  | setErrno _ | setHead _ | mapLock | mapUnlock | free _ | rwunlock _ | logLock | logUnlock
  | fclose => exact ⟨(), _, rfl⟩
  | _ => exact hc.elim

theorem Sure.unexcused (hc : Sure c) (e : Errno) : ¬ Excused env m c e := by
  cases c <;> first | exact not_false | exact hc.elim

theorem calms_sure (c : Call) (hc : Sure c) : Calms env (Good c) (ask c) := by
  intro m
  obtain ⟨r, m', h⟩ := hc.answered env m
  apply Ends.perform ⟨r, m', .inl h⟩
  rintro r m' (h | ⟨-, e, he, -⟩)
  · exact hc.effect h
  · exact absurd he (hc.unexcused e)

theorem Calms.after {P : β → Prop} {f : Answer c → Server β} (hc : Sure c)
    (hf : ∀ r, Good c r → Calms env P (f r)) : Calms env P (ask c >>= f) :=
  (calms_sure c hc).bind hf

theorem ends_sure {f : Answer c → Server β} (hc : Sure c)
    (hf : ∀ r m', Good c r → Calm [] m m' → Ends (Reliable env) Q (f r) m') :
    Ends (Reliable env) Q (ask c >>= f) m :=
  (calms_sure c hc).ends hf

/-! ## Locks -/

/-- The lock of a path is found or made, as memory does not run out. -/
theorem calms_getOrCreateLock (path : Bytes) :
    Calms env (fun entry => entry ≠ none) (getOrCreateLock path) := by
  unfold getOrCreateLock
  refine Calms.after trivial fun _ _ => Calms.after trivial fun entries _ => ?_
  split
  · next cur _ =>
    exact Calms.after trivial fun _ _ => .pure (Option.some_ne_none cur)
  · refine Calms.after trivial fun node hnode => ?_
    cases node with
    | none => exact absurd rfl hnode
    | some node =>
      refine Calms.after trivial fun copied hcopied => ?_
      cases hcopied
      refine Calms.after trivial fun made hmade => ?_
      cases hmade
      refine Calms.after trivial fun next _ => Calms.after trivial fun _ _ => ?_
      exact Calms.after trivial fun _ _ => .pure (Option.some_ne_none _)

theorem calms_locksAcquire (mode : Mode) (path : Bytes) :
    Calms env (fun entry => entry ≠ none) (locksAcquire mode path) := by
  refine (calms_getOrCreateLock path).bind fun entry hentry => ?_
  cases entry with
  | none => exact absurd rfl hentry
  | some entry =>
    refine Calms.after trivial fun taken htaken => ?_
    cases htaken
    exact .pure (Option.some_ne_none entry)

theorem calms_acquireInOrder (first second : Bytes) :
    Calms env (fun locks => locks ≠ none) (acquireInOrder first second) := by
  refine (calms_locksAcquire .write first).bind fun a ha => ?_
  cases a with
  | none => exact absurd rfl ha
  | some a =>
    refine (calms_locksAcquire .write second).bind fun b hb => ?_
    cases b with
    | none => exact absurd rfl hb
    | some b => exact .pure (Option.some_ne_none _)

theorem calms_acquireBoth (first second : Bytes) (f : Entry → Entry → TwoLocks) :
    Calms env (fun locks => locks ≠ none) (do
      match ← acquireInOrder first second with
      | none => pure none
      | some (firstLock, secondLock) => pure (some (f firstLock secondLock))) := by
  refine (calms_acquireInOrder first second).bind fun locks hlocks => ?_
  cases locks with
  | none => exact absurd rfl hlocks
  | some locks => exact .pure (Option.some_ne_none _)

theorem calms_acquireTwo (a b : Bytes) :
    Calms env (fun locks => locks ≠ none) (locksAcquireTwoWrite a b) := by
  unfold locksAcquireTwoWrite
  split
  · refine (calms_locksAcquire .write a).bind fun lock hlock => ?_
    cases lock with
    | none => exact absurd rfl hlock
    | some lock => exact .pure (Option.some_ne_none _)
  · split
    · exact calms_acquireBoth b a fun firstLock secondLock => ⟨secondLock, firstLock, false⟩
    · exact calms_acquireBoth a b fun firstLock secondLock => ⟨firstLock, secondLock, false⟩

theorem calms_release (lock : Entry) : Calms env (fun _ => True) (locksRelease lock) :=
  calms_sure (.rwunlock lock) trivial

theorem calms_releaseTwo (locks : TwoLocks) :
    Calms env (fun _ => True) (locksReleaseTwo locks) := by
  unfold locksReleaseTwo
  split
  · exact calms_release locks.lockA
  · exact (calms_release locks.lockA).bind fun _ _ => calms_release locks.lockB

/-! ## Replies -/

/-- An interrupted call is tried again. -/
theorem ends_interrupted {again giveUp : α} {Q : α → Machine → Prop} (hpos : 0 < m.patience)
    (hagain : ∀ m', Calm [] m m' → m'.patience < m.patience → Q again m') :
    Ends (Reliable env) Q (do if (← ask .errno) = .eintr then pure again else pure giveUp)
      (m.fail .eintr) := by
  apply Ends.bind
  apply Ends.perform ⟨.eintr, _, .inl ⟨rfl, rfl⟩⟩
  rintro e m' (⟨rfl, rfl⟩ | ⟨hr, -⟩)
  · have hfail : (m.fail .eintr).patience = m.patience - 1 := rfl
    have herrno : (m.fail .eintr).errno = .eintr := rfl
    rw [if_pos herrno]
    exact Ends.pure (hagain _ (calm_fail m .eintr) (by omega))
  · exact hr.elim

/-- The whole buffer reaches the client. -/
theorem ends_sendAll (buf : Bytes) (m : Machine) :
    Ends (Reliable env) (fun ok m' => ok = true ∧ Calm buf m m') (sendAll buf) m := by
  apply Ends.iterate (fun sent m' => sent ≤ buf.length ∧ Calm (buf.take sent) m m')
    (fun sent m' => buf.length - sent + m'.patience) ⟨Nat.zero_le _, by simpa using Calm.refl m⟩
  rintro sent m₁ ⟨hsent, hcalm⟩
  split
  · next hall =>
    rw [List.take_of_length_le hall] at hcalm
    exact Ends.pure ⟨rfl, hcalm⟩
  · next hmore =>
    have hrest : (buf.drop sent).length = buf.length - sent := List.length_drop
    have hone : Portion (buf.drop sent) 1 := ⟨by omega, fun _ => Nat.one_pos⟩
    apply Ends.bind
    apply Ends.perform ⟨some 1, _, .inl ⟨1, rfl, hone, rfl⟩⟩
    rintro _ m₂ (⟨w, rfl, hw, rfl⟩ | ⟨rfl, e, ⟨rfl, hpos⟩, rfl⟩)
    · have hne : buf.drop sent ≠ [] := by
        intro hnil
        rw [hnil] at hrest
        simp at hrest
        omega
      have hpos := hw.2 hne
      have hle := hw.1
      refine Ends.pure ⟨⟨by omega, ?_⟩, by simp only; omega⟩
      rw [List.take_add]
      exact hcalm.trans ⟨⟨rfl, by simp, rfl, Nat.le_refl _⟩, rfl⟩
    · apply ends_interrupted hpos
      intro m₂ h₂ hlt
      refine ⟨⟨hsent, ?_⟩, by omega⟩
      have hboth := hcalm.trans h₂
      rwa [List.append_nil] at hboth

theorem ends_line {n : Nat} {line : Bytes} (h : line.length < n) (m : Machine) :
    Ends (Reliable env) (fun ok m' => ok = true ∧ Calm line m m') (replyLine n line) m := by
  have hfits : snprintf n line = some line := by
    rw [snprintf, if_neg (by omega)]
  unfold replyLine
  rw [hfits]
  exact ends_sendAll line m

/-- The reply `+OK`. -/
def okReply : Bytes := (Reply.simple (ascii "OK")).encode

theorem ends_ok (m : Machine) :
    Ends (Reliable env) (fun _ => Calm okReply m) (respReplySimple (ascii "OK")) m := by
  have hshort : okReply.length < 256 := by decide
  exact (ends_line hshort m).mono fun _ _ h => h.2

/-- What is sent is not a reply like `+OK`. -/
def Denial (sent : Bytes) : Prop := sent.head? ≠ some 43

theorem Denial.ne {sent : Bytes} (h : Denial sent) : sent ≠ okReply := by
  rintro rfl
  exact h rfl

theorem ends_error (text : Bytes) (m : Machine) :
    Ends (Reliable env) (fun _ m' => ∃ sent, Denial sent ∧ Calm sent m m') (respReplyError text)
      m := by
  unfold respReplyError replyLine
  split
  · exact Ends.pure ⟨[], nofun, Calm.refl m⟩
  · next line hline =>
    rw [snprintf, Option.ite_none_left_eq_some] at hline
    obtain ⟨-, hline⟩ := hline
    cases hline
    refine (ends_sendAll _ m).mono fun _ m' h => ⟨_, ?_, h.2⟩
    simp [Denial, ascii]

theorem ends_bulk {data : Bytes} (hlen : data.length < 10 ^ 20) (m : Machine) :
    Ends (Reliable env) (fun _ => Calm (Reply.bulk data).encode m) (respReplyBulk data) m := by
  have hshort : (ascii "$" ++ Decimal.numeral data.length ++ crlf).length < 64 := by
    have hdigits := Decimal.numeral_length_le 19 data.length hlen
    have hone : (ascii "$").length = 1 := rfl
    simp only [crlf, List.length_append, List.length_cons, List.length_nil, hone]
    omega
  have hencode : (Reply.bulk data).encode =
      ascii "$" ++ Decimal.numeral data.length ++ crlf ++ (data ++ crlf) := by
    simp [Reply.encode, ascii]
  rw [hencode]
  apply Ends.bind
  refine (ends_line hshort m).mono ?_
  rintro _ m₁ ⟨rfl, h₁⟩
  split
  · next h => cases h
  · split
    · next hnil =>
      refine (ends_sendAll _ _).mono fun _ m₂ h₂ => ?_
      have hboth := h₁.trans h₂.2
      rw [hnil] at hboth ⊢
      exact hboth
    · apply Ends.bind
      refine (ends_sendAll _ _).mono ?_
      rintro _ m₂ ⟨rfl, h₂⟩
      split
      · next h => cases h
      · refine (ends_sendAll _ _).mono fun _ m₃ h₃ => ?_
        exact h₁.trans (h₂.trans h₃.2)

/-! ## The log -/

/-- What is in a file, and nothing if there is no such file. -/
def contentAt (t : Tree Bytes Bytes) (key : List Bytes) : Bytes :=
  match t.node key with
  | some (.file content) => content
  | _ => []

theorem contentAt_file {t : Tree Bytes Bytes} {key : List Bytes} {content : Bytes}
    (h : t.node key = some (.file content)) : contentAt t key = content := by
  rw [contentAt, h]

/-- The file at `key` gets a content, and all else is as it was. -/
def Puts (key : List Bytes) (content : Bytes) (t t' : Tree Bytes Bytes) : Prop :=
  ∀ k, t'.node k = if k = key then some (.file content) else t.node k

variable {t t' t'' : Tree Bytes Bytes} {key k : List Bytes} {content content' : Bytes}

theorem puts_put (h : t.Room key) : Puts key content t (t.put key (.file content) h) := fun _ => rfl

theorem Puts.self (h : Puts key content t t') : t'.node key = some (.file content) := by
  rw [h key, if_pos rfl]

theorem Puts.other (h : Puts key content t t') (hk : k ≠ key) : t'.node k = t.node k := by
  rw [h k, if_neg hk]

theorem Puts.trans (h : Puts key content t t') (h' : Puts key content' t' t'') :
    Puts key content' t t'' := by
  intro k
  rw [h' k, h k]
  split <;> rfl

theorem puts_same (h : t.node key = some (.file content)) : Puts key content t t := by
  intro k
  split
  · next hk => rw [hk, h]
  · rfl

/-- The log is directly in the data directory, unless nothing is left of its name. -/
theorem logKey_shape (env : Env) :
    logKey env = [] ∨ ∃ n, logKey env = [(ascii "operations.log").take n] := by
  have hname : (logPath env).drop (env.dataDir.length + 1) = (ascii "operations.log").take
      (pathMax - 1 - (env.dataDir.length + 1)) := by
    rw [logPath, List.drop_take, List.drop_append, List.drop_of_length_le (Nat.le_succ _),
      Nat.add_sub_cancel_left, List.nil_append]
    rfl
  have hslash : ∀ n, 47 ∉ (ascii "operations.log").take n :=
    fun n hmem => absurd (List.mem_of_mem_take hmem) (by decide)
  unfold logKey resolve
  rw [hname, List.splitOn_eq_singleton (hslash _), List.filter_cons, List.filter_nil]
  split
  · exact .inr ⟨_, rfl⟩
  · exact .inl rfl

/-- There is always room for the log. -/
theorem log_room (h : m.tree.node (logKey env) = none) : m.tree.Room (logKey env) := by
  rcases logKey_shape env with hroot | ⟨name, hname⟩
  · rw [hroot, m.tree.root] at h
    cases h
  · rw [hname] at h ⊢
    exact Tree.room_of_place (k := []) m.tree.root h

theorem ends_fopen (m : Machine) : Ends (Reliable env) (fun ok m' =>
    ok = false ∧ m.tree.node (logKey env) = some .dir ∧ Calm [] m m' ∨
    ok = true ∧ m.tree.node (logKey env) ≠ some .dir ∧ Did [] [] m m' ∧
      Puts (logKey env) (contentAt m.tree (logKey env)) m.tree m'.tree) (ask (.fopen true)) m := by
  have hex : ∃ r m', Reliable env m (.fopen true) r m' := by
    cases hnode : m.tree.node (logKey env) with
    | none => exact ⟨true, _, .inl ⟨rfl, .inr ⟨hnode, log_room hnode, rfl⟩⟩⟩
    | some x =>
      cases x with
      | dir => exact ⟨false, _, .inr ⟨rfl, .enoent, hnode, rfl⟩⟩
      | file b => exact ⟨true, _, .inl ⟨rfl, .inl ⟨⟨b, hnode⟩, rfl⟩⟩⟩
  apply Ends.perform hex
  rintro r m' (⟨rfl, ⟨⟨b, hb⟩, rfl⟩ | ⟨hnone, hroom, rfl⟩⟩ | ⟨rfl, e, hdir, rfl⟩)
  · refine .inr ⟨rfl, by simp [hb], ⟨by simp, by simp, rfl, Nat.le_refl _⟩, ?_⟩
    rw [contentAt_file hb]
    exact puts_same hb
  · have hdid : Did [] [] m (m.putFile (logKey env) [] hroom) := did_putFile hroom
    refine .inr ⟨rfl, by simp [hnone], ⟨hdid.out, hdid.records, rfl, Nat.le_refl _⟩, ?_⟩
    rw [contentAt, hnone]
    exact puts_put hroom
  · exact .inl ⟨rfl, hdir, calm_fail m e⟩

theorem ends_fprintf (line : Bytes) (h : m.tree.node (logKey env) = some (.file content)) :
    Ends (Reliable env) (fun _ m' => Did [] [line] m m' ∧
      Puts (logKey env) (content ++ line) m.tree m'.tree) (ask (.fprintf line)) m := by
  apply Ends.perform ⟨(), _, .inl ⟨content, h, Tree.room_of_file h, rfl⟩⟩
  rintro _ m' (⟨b, hb, hroom, rfl⟩ | ⟨hr, -⟩)
  · rw [h] at hb
    cases hb
    exact ⟨⟨by simp [Machine.putFile], rfl, rfl, Nat.le_refl _⟩, puts_put hroom⟩
  · exact hr.elim

/-- A record was added to the log, or there is a directory in its place. -/
def Logged (env : Env) (record : Bytes → Bytes) (m m' : Machine) : Prop :=
  m.tree.node (logKey env) = some .dir ∧ Calm [] m m' ∨
  m.tree.node (logKey env) ≠ some .dir ∧ ∃ ts, 10 ∉ ts ∧ Did [] [record ts] m m' ∧
    Puts (logKey env) (contentAt m.tree (logKey env) ++ record ts) m.tree m'.tree

/-- Every record is written, unless the log is a directory. -/
theorem ends_log (client : Bytes) (command : String) (target : Bytes) (status : String)
    (detail : Bytes) (m : Machine) :
    Ends (Reliable env) (fun _ => Logged env
      (fun ts => logLine ts client (ascii command) target (ascii status) detail) m)
      (loggerLog client command target status detail) m := by
  refine ends_sure trivial fun ts m₁ hts h₁ => ends_sure trivial fun _ m₂ _ h₂ => ?_
  have h₁₂ := h₁.trans h₂
  apply Ends.bind
  refine (ends_fopen m₂).mono ?_
  rintro ok m₃ (⟨rfl, hdir, h₃⟩ | ⟨rfl, hnot, h₃, hputs⟩)
  · refine (calms_sure .logUnlock trivial m₃).mono fun _ m₄ h₄ => .inl ⟨?_, ?_⟩
    · rwa [h₁₂.tree] at hdir
    · exact h₁₂.trans (h₃.trans h₄.2)
  · apply Ends.bind
    refine (ends_fprintf _ hputs.self).mono ?_
    rintro _ m₄ ⟨h₄, hputs'⟩
    refine ends_sure trivial fun _ m₅ _ h₅ => ?_
    refine (calms_sure .logUnlock trivial m₅).mono fun _ m₆ h₆ => .inr ⟨?_, ts, hts, ?_, ?_⟩
    · rwa [h₁₂.tree] at hnot
    · exact h₁₂.toDid.trans (h₃.trans (h₄.trans (h₅.trans h₆.2).toDid))
    · have hall := hputs.trans hputs'
      rw [h₁₂.tree] at hall
      rwa [h₆.2.tree, h₅.tree]

/-! ## Open files -/

/-- One more file is open than before. -/
structure Working (fd : Nat) (h : Handle) (m m' : Machine) : Prop where
  handle : m'.handle fd = some h
  done : Did [] [] m (m'.closeHandle fd)

theorem Working.opened (hfree : m.handle fd = none) (h : Handle) (hm : Did [] [] m m') :
    Working fd h m (m'.setHandle fd h) := by
  refine ⟨m'.handle_set_self fd h, hm.out, hm.records, ?_, hm.patience⟩
  have hkeep : m.handles.filter (fun x => x.1 ≠ fd) = m.handles := by
    rw [List.filter_eq_self]
    intro x hx
    have hbeq := List.lookup_eq_none_iff.mp hfree x hx
    have hne : x.1 ≠ fd := by
      rintro rfl
      simp at hbeq
    simpa using hne
  simp only [Machine.closeHandle, Machine.setHandle]
  rw [List.filter_cons_of_neg (by simp), List.filter_filter, hm.handles]
  simpa using hkeep

theorem Working.moved (hm : Working fd h m m') (h' : Handle) (hd : Did [] [] m' m'') :
    Working fd h' m (m''.setHandle fd h') := by
  have hdone := hm.done
  refine ⟨m''.handle_set_self fd h', ?_, ?_, ?_, Nat.le_trans hd.patience hdone.patience⟩
  · exact (hd.out.trans (List.append_nil _)).trans hdone.out
  · exact (hd.records.trans (List.append_nil _)).trans hdone.records
  · rw [← hdone.handles]
    simp only [Machine.closeHandle, Machine.setHandle]
    rw [List.filter_cons_of_neg (by simp), List.filter_filter, hd.handles]
    simp

theorem Working.did (hm : Working fd h m m') (hd : Did [] [] m' m'') :
    Working fd h m m'' := by
  have hdone := hm.done
  constructor
  · rw [Machine.handle, hd.handles]
    exact hm.handle
  · constructor
    · exact (hd.out.trans (List.append_nil _)).trans hdone.out
    · exact (hd.records.trans (List.append_nil _)).trans hdone.records
    · simp only [Machine.closeHandle, hd.handles]
      exact hdone.handles
    · exact Nat.le_trans hd.patience hdone.patience

theorem Working.calm (hm : Working fd h m m') (hc : Calm [] m' m'') :
    Working fd h m m'' :=
  hm.did hc.toDid

theorem Working.closes (hm : Working fd h m m') :
    Ends (Reliable env) (fun ok m'' => ok = true ∧ Did [] [] m m'' ∧ m''.tree = m'.tree)
      (ask (.close fd)) m' := by
  apply ends_call (.close fd) ⟨true, _, .inl ⟨rfl, rfl⟩⟩
  rintro r m'' (⟨rfl, rfl⟩ | ⟨hr, -⟩)
  · exact ⟨rfl, hm.done, rfl⟩
  · exact hr.elim

theorem Working.ends_close {f : Bool → Server β} (hm : Working fd h m m')
    (hf : ∀ m'', Did [] [] m m'' → m''.tree = m'.tree → Ends (Reliable env) Q (f true) m'') :
    Ends (Reliable env) Q (ask (.close fd) >>= f) m' := by
  apply Ends.bind
  refine hm.closes.mono ?_
  rintro _ m'' ⟨rfl, hdid, htree⟩
  exact hf m'' hdid htree

/-! ## Reading files -/

/-- Reading in pieces of any size gives the whole file. -/
theorem ends_readLoop {m₁ : Machine} (hm : Working fd ⟨key, .read, 0⟩ m m₁)
    (hfile : m₁.tree.node key = some (.file content)) :
    Ends (Reliable env) (fun out m' => out = some content ∧ (∃ h, Working fd h m m') ∧
      m'.tree = m₁.tree) (readLoop fd content.length) m₁ := by
  apply Ends.iterate (fun buf m' => buf <+: content ∧ Working fd ⟨key, .read, buf.length⟩ m m' ∧
      m'.tree = m₁.tree) (fun buf m' => content.length - buf.length + m'.patience)
    ⟨List.nil_prefix, hm, rfl⟩
  rintro buf m₂ ⟨hbuf, hm₂, htree⟩
  split
  · next hall =>
    exact Ends.pure ⟨congrArg some (hbuf.eq_of_length_le hall), ⟨_, hm₂⟩, htree⟩
  · next hmore =>
    rw [← htree] at hfile
    have hrest : (content.drop buf.length).length = content.length - buf.length := List.length_drop
    apply Ends.bind
    apply Ends.perform ⟨some _, _, .inl ⟨key, buf.length, content, _, hm₂.handle, hfile, rfl,
      List.prefix_refl _, id, rfl⟩⟩
    rintro r m₃ (⟨key', pos, b, data, hfd, hb, rfl, hdata, hend, rfl⟩ |
      ⟨rfl, e, ⟨rfl, hpos⟩ | ⟨-, hdir⟩, rfl⟩)
    · rw [hm₂.handle] at hfd
      cases hfd
      rw [hfile] at hb
      cases hb
      have hne : data ≠ [] := by
        intro hnil
        have htake := congrArg List.length (hend hnil)
        simp only [List.length_take, hrest, List.length_nil] at htake
        omega
      have hlen := hdata.length_le
      have hpos : 0 < data.length := List.length_pos_iff.mpr hne
      simp only [List.length_take] at hlen
      simp only [if_neg hne]
      refine Ends.pure ⟨⟨?_, ?_, htree⟩, ?_⟩
      · obtain ⟨rest, rfl⟩ := hbuf
        rw [List.drop_left] at hdata
        exact (List.prefix_append_right_inj buf).mpr (hdata.trans (List.take_prefix _ _))
      · rw [List.length_append]
        exact hm₂.moved _ (Did.refl m₂)
      · rw [List.length_append]
        simp only [Machine.setHandle]
        omega
    · apply ends_interrupted hpos
      intro m₃ h₃ hlt
      exact ⟨⟨hbuf, hm₂.calm h₃, h₃.tree.trans htree⟩, by omega⟩
    · have := hdir _ hm₂.handle
      rw [hfile] at this
      cases this

section OneFile

variable {full rel : Bytes} (hb : below env.dataDir full = some rel)
  (hfile : m.tree.node (resolve rel) = some (.file content))

include hb hfile

theorem ends_openRead {f : Option Nat → Server β} (hbare : Bare rel)
    (hf : ∀ fd m', Working fd ⟨resolve rel, .read, 0⟩ m m' → m'.tree = m.tree →
      Ends (Reliable env) Q (f (some fd)) m') :
    Ends (Reliable env) Q (ask (.open full .read) >>= f) m := by
  have hfound : m.tree.node (resolve rel) ≠ none := by simp [hfile]
  obtain ⟨fd, hfd⟩ := m.exists_free
  apply Ends.bind
  apply Ends.perform ⟨some fd, _, .inl ⟨rel, fd, hb, rfl, hfd, .inr ⟨hbare, hfound⟩, rfl⟩⟩
  rintro r m' (⟨rel', fd', hb', rfl, hfd', -, rfl⟩ | ⟨-, e, hexc, -⟩)
  · rw [hb] at hb'
    cases hb'
    exact hf fd' _ (.opened hfd' _ (Did.refl m)) rfl
  · exact absurd hfile (hexc rel hb hbare content)

/-- A file is read as a whole, if it is not too large. -/
theorem ends_readAllFile (hbare : Bare rel) :
    Ends (Reliable env) (fun out m' => Calm [] m m' ∧
      if content.length ≤ maxFileSize then out = some content else out = none ∧ m'.errno = .efbig)
      (readAllFile full) m := by
  refine ends_openRead hb hfile hbare fun fd m₁ hm₁ htree => ?_
  rw [← htree] at hfile
  apply Ends.bind
  apply Ends.perform ⟨some content.length, _, .inl ⟨_, _, hm₁.handle, rfl, fun b hb => by
    rw [hfile] at hb
    cases hb
    rfl, rfl⟩⟩
  rintro r m₂ (⟨h, size, hfd, rfl, hsize, rfl⟩ | ⟨-, e, hexc, -⟩)
  · rw [hm₁.handle] at hfd
    cases hfd
    cases hsize content hfile
    by_cases hsmall : content.length ≤ maxFileSize
    · have hfits : ¬ ((content.length : Int) < 0 ∨ (maxFileSize : Int) < content.length) := by omega
      simp only [if_pos hsmall, if_neg hfits]
      refine ends_sure trivial fun got m₃ hgot h₃ => ?_
      cases hgot
      rw [← h₃.tree] at hfile
      apply Ends.bind
      refine (ends_readLoop (hm₁.calm h₃) hfile).mono ?_
      rintro out m₄ ⟨rfl, ⟨h, hm₄⟩, htree₄⟩
      refine hm₄.ends_close fun m₅ h₅ htree₅ => ?_
      refine Ends.pure ⟨⟨h₅, ?_⟩, rfl⟩
      rw [htree₅, htree₄, h₃.tree, htree]
    · have hlarge : (content.length : Int) < 0 ∨ (maxFileSize : Int) < content.length := by omega
      simp only [if_neg hsmall, if_pos hlarge]
      refine hm₁.ends_close fun m₃ h₃ htree₃ => ?_
      apply Ends.bind
      apply ends_call (.setErrno .efbig) ⟨(), _, .inl rfl⟩
      rintro r m₄ (h | ⟨hr, -⟩)
      · cases h
        have hdid : Did [] [] m { m₃ with errno := .efbig } :=
          ⟨h₃.out, h₃.records, h₃.handles, h₃.patience⟩
        exact Ends.pure ⟨⟨hdid, htree₃.trans htree⟩, rfl, rfl⟩
      · exact hr.elim
  · exact hexc.elim

/-- With a slash behind its name a file is not found. -/
theorem ends_readAllFile_slash (hbare : ¬ Bare rel) :
    Ends (Reliable env) (fun out m' => out = none ∧ Calm [] m m') (readAllFile full) m := by
  have hexcused : Excused env m (.open full .read) .enoent := by
    intro rel' hb' hbare'
    rw [hb] at hb'
    cases hb'
    exact absurd hbare' hbare
  apply Ends.bind
  apply Ends.perform ⟨none, _, .inr ⟨rfl, .enoent, hexcused, rfl⟩⟩
  rintro r m' (⟨rel', fd', hb', -, -, hdir | hbare', -⟩ | ⟨rfl, e, -, rfl⟩)
  · rw [hb] at hb'
    cases hb'
    rw [hfile] at hdir
    cases hdir
  · rw [hb] at hb'
    cases hb'
    exact absurd hbare'.1 hbare
  · exact Ends.pure ⟨rfl, calm_fail m e⟩

end OneFile

/-! ## Writing files -/

/-- Something is there already, or the path leads to the data directory. -/
def Found (env : Env) (t : Tree Bytes Bytes) (dir : Bytes) : Prop :=
  ∀ rel, below env.dataDir dir = some rel → t.node (resolve rel) ≠ none

/-- Only directories are added, and none where all exist. -/
theorem ends_mkdirs (dirs : List Bytes) (m : Machine) :
    Ends (Reliable env) (fun ok m' => Did [] [] m m' ∧ m.tree.AddsDirs m'.tree ∧
      ((∀ d ∈ dirs, Found env m.tree d) → ok = true ∧ m'.tree = m.tree)) (mkdirs dirs) m := by
  induction dirs generalizing m with
  | nil => exact Ends.pure ⟨Did.refl m, .refl _, fun _ => ⟨rfl, rfl⟩⟩
  | cons d dirs ih =>
    apply Ends.bind
    apply ends_call (.mkdir d) ⟨false, _, .inr ⟨rfl, .eexist, fun _ => rfl, rfl⟩⟩
    rintro r m₁ (⟨rel, hrel, rfl, hnone, hroom, rfl⟩ | ⟨rfl, e, hexc, rfl⟩)
    · refine (ih _).mono fun ok m' h => ⟨?_, ?_, fun hfound => ?_⟩
      · exact ⟨h.1.out, h.1.records, h.1.handles, h.1.patience⟩
      · exact (Tree.addsDirs_put hroom hnone).trans h.2.1
      · exact absurd hnone (hfound d List.mem_cons_self rel hrel)
    · apply Ends.bind
      apply ends_call .errno ⟨e, _, .inl ⟨rfl, rfl⟩⟩
      rintro r m₁ (⟨hr, rfl⟩ | ⟨hr, -⟩)
      · have he : r = e := hr
        have hcalm := calm_fail m e
        rw [he]
        split
        · refine (ih _).mono fun ok m' h => ⟨hcalm.toDid.trans h.1, h.2.1, fun hfound => ?_⟩
          exact h.2.2 fun d' hd' => hfound d' (List.mem_cons_of_mem d hd')
        · next hne =>
          refine Ends.pure ⟨hcalm.toDid, .refl _, fun hfound => ?_⟩
          exact absurd (hexc (hfound d List.mem_cons_self)) hne
      · exact hr.elim

theorem resolve_above {rel rest : Bytes} : resolve rel <+: resolve (rel ++ 47 :: rest) := by
  rw [resolve_append]
  exact List.prefix_append _ _

theorem below_eq {dataDir full rel : Bytes} (h : below dataDir full = some rel) :
    full = dataDir ++ 47 :: rel := by
  rw [below, Option.ite_none_right_eq_some] at h
  obtain ⟨⟨rest, rfl⟩, h⟩ := h
  cases h
  simp

theorem mem_parentDirs {full d : Bytes} (h : d ∈ parentDirs full) :
    ∃ rest, full = d ++ 47 :: rest := by
  obtain ⟨i, hi, rfl⟩ := List.mem_map.mp h
  have hslash : full[i]? = some 47 := by
    have := (List.mem_filter.mp hi).2
    simp only [decide_eq_true_eq] at this
    exact this.2
  obtain ⟨hlt, hget⟩ := List.getElem?_eq_some_iff.mp hslash
  refine ⟨full.drop (i + 1), ?_⟩
  rw [← hget, ← List.drop_eq_getElem_cons hlt, List.take_append_drop]

theorem below_parent {full rel d rel' : Bytes} (hb : below env.dataDir full = some rel)
    (hd : d ∈ parentDirs full) (hrel' : below env.dataDir d = some rel') :
    ∃ rest, rel = rel' ++ 47 :: rest := by
  obtain ⟨rest, hfull⟩ := mem_parentDirs hd
  rw [below_eq hb, below_eq hrel'] at hfull
  exact ⟨rest, by simpa using hfull⟩

/-- The directories that lead to a file are there. -/
theorem found_parents {full rel : Bytes} (hb : below env.dataDir full = some rel)
    (hfound : t.node (resolve rel) ≠ none) : ∀ d ∈ parentDirs full, Found env t d := by
  intro d hd rel' hrel'
  obtain ⟨rest, rfl⟩ := below_parent hb hd hrel'
  exact Tree.found_above hfound resolve_above

/-- What is written goes behind what is there. -/
theorem ends_writeLoop_at {fd pos : Nat} {m₁ : Machine} {old : Bytes} (data : Bytes)
    (hm : Working fd ⟨key, .write, pos⟩ m m₁) (hputs : Puts key old t m₁.tree)
    (hlen : old.length = pos) :
    Ends (Reliable env) (fun ok m' => ok = true ∧
      Working fd ⟨key, .write, pos + data.length⟩ m m' ∧ m'.patience ≤ m₁.patience ∧
      Puts key (old ++ data) t m'.tree) (writeLoop fd data) m₁ := by
  apply Ends.iterate (fun off m' => off ≤ data.length ∧ Working fd ⟨key, .write, pos + off⟩ m m' ∧
      m'.patience ≤ m₁.patience ∧ Puts key (old ++ data.take off) t m'.tree)
    (fun off m' => data.length - off + m'.patience)
    ⟨Nat.zero_le _, hm, Nat.le_refl _, by simpa using hputs⟩
  rintro off m₂ ⟨hoff, hm₂, hpatience, hputs₂⟩
  split
  · next hall =>
    rw [List.take_of_length_le hall] at hputs₂
    rw [Nat.le_antisymm hoff hall] at hm₂
    exact Ends.pure ⟨rfl, hm₂, hpatience, hputs₂⟩
  · next hmore =>
    have hrest : (data.drop off).length = data.length - off := List.length_drop
    have hone : Portion (data.drop off) 1 := ⟨by omega, fun _ => Nat.one_pos⟩
    have hroom := Tree.room_of_file hputs₂.self
    apply Ends.bind
    apply ends_call (.write fd (data.drop off)) ⟨some 1, _, .inl ⟨key, pos + off, _, 1,
      hm₂.handle, hputs₂.self, rfl, hone, hroom, rfl⟩⟩
    rintro r m₃ (⟨key', pos', b, w, hfd, hb, rfl, hw, hroom, rfl⟩ | ⟨rfl, e, ⟨rfl, hpos⟩, rfl⟩)
    · rw [hm₂.handle] at hfd
      cases hfd
      rw [hputs₂.self] at hb
      cases hb
      have hpos : 0 < w := by
        apply hw.2
        intro hnil
        rw [hnil] at hrest
        simp at hrest
        omega
      have hle := hw.1
      have hall : (old ++ data.take off).length = pos + off := by
        rw [List.length_append, List.length_take]
        omega
      have hcontent : (old ++ data.take off).take (pos + off) ++ (data.drop off).take w ++
          (old ++ data.take off).drop (pos + off + w) = old ++ data.take (off + w) := by
        have hend : (old ++ data.take off).drop (pos + off + w) = [] :=
          List.drop_of_length_le (by omega)
        rw [List.take_of_length_le (Nat.le_of_eq hall), hend, List.append_nil, List.append_assoc,
          ← List.take_add]
      refine Ends.pure ⟨⟨by omega, ?_, hpatience, ?_⟩, ?_⟩
      · rw [← Nat.add_assoc]
        exact hm₂.moved _ (did_putFile hroom)
      · rw [← hcontent]
        exact hputs₂.trans (puts_put hroom)
      · simp only [Machine.setHandle, Machine.putFile]
        omega
    · apply ends_interrupted hpos
      intro m₃ h₃ hlt
      refine ⟨⟨hoff, hm₂.calm h₃, by omega, ?_⟩, by omega⟩
      rw [h₃.tree]
      exact hputs₂

/-- In the end the file holds the data and nothing else. -/
theorem ends_writeLoop {m₁ : Machine} (data : Bytes) (hm : Working fd ⟨key, .write, 0⟩ m m₁)
    (hputs : Puts key [] t m₁.tree) :
    Ends (Reliable env) (fun ok m' => ok = true ∧ (∃ h, Working fd h m m') ∧
      Puts key data t m'.tree) (writeLoop fd data) m₁ :=
  (ends_writeLoop_at data hm hputs rfl).mono fun _ _ h => ⟨h.1, ⟨_, h.2.1⟩, h.2.2.2⟩

section Write

variable {full rel : Bytes} (hb : below env.dataDir full = some rel) (hlen : full.length < pathMax)

include hb

theorem ends_openWrite {f : Option Nat → Server β}
    (hopen : ∀ fd m', Bare rel → m.tree.Room (resolve rel) →
      Working fd ⟨resolve rel, .write, 0⟩ m m' → Puts (resolve rel) [] m.tree m'.tree →
      Ends (Reliable env) Q (f (some fd)) m')
    (hfail : ∀ m', Calm [] m m' → (Bare rel → ∀ b, m.tree.node (resolve rel) ≠ some (.file b)) →
      Ends (Reliable env) Q (f none) m') :
    Ends (Reliable env) Q (ask (.open full .write) >>= f) m := by
  have hex : ∃ r m', Reliable env m (.open full .write) r m' := by
    by_cases hfile : Bare rel ∧ ∃ b, m.tree.node (resolve rel) = some (.file b)
    · obtain ⟨hbare, b, hfile⟩ := hfile
      obtain ⟨fd, hfd⟩ := m.exists_free
      exact ⟨some fd, _, .inl ⟨rel, fd, hb, rfl, hfd, hbare, Tree.room_of_file hfile, rfl⟩⟩
    · refine ⟨none, _, .inr ⟨rfl, .enoent, ?_, rfl⟩⟩
      intro rel' hb' hbare b hnode
      rw [hb] at hb'
      cases hb'
      exact hfile ⟨hbare, b, hnode⟩
  apply Ends.bind
  apply ends_call _ hex
  rintro r m' (⟨rel', fd, hb', rfl, hfd, hbare, hroom, rfl⟩ | ⟨rfl, e, hexc, rfl⟩)
  · rw [hb] at hb'
    cases hb'
    exact hopen fd _ hbare hroom (.opened hfd _ (did_putFile hroom)) (puts_put hroom)
  · exact hfail _ (calm_fail m e) (hexc rel hb)

include hlen

theorem ends_ensureParentDirs (m : Machine) :
    Ends (Reliable env) (fun ok m' => Did [] [] m m' ∧ m.tree.AddsDirs m'.tree ∧
      (m.tree.node (resolve rel) ≠ none → ok = true ∧ m'.tree = m.tree))
      (pathEnsureParentDirs full) m := by
  have hfits : snprintf pathMax full = some full := by
    rw [snprintf, if_neg (by omega)]
  unfold pathEnsureParentDirs
  rw [hfits]
  exact (ends_mkdirs _ m).mono fun _ _ h =>
    ⟨h.1, h.2.1, fun hfound => h.2.2 (found_parents hb hfound)⟩

/-- What is written is in the file; a file that exists can be written. -/
theorem ends_writeAllFile (data : Bytes) (m : Machine) :
    Ends (Reliable env) (fun ok m' => Did [] [] m m' ∧
      (ok = true → Bare rel ∧ m'.tree.node (resolve rel) = some (.file data)) ∧
      (Bare rel → (∃ b, m.tree.node (resolve rel) = some (.file b)) →
        ok = true ∧ Puts (resolve rel) data m.tree m'.tree)) (writeAllFile full data) m := by
  apply Ends.bind
  refine (ends_ensureParentDirs hb hlen m).mono ?_
  rintro ok m₁ ⟨h₁, -, hfound⟩
  have hfile : (∃ b, m.tree.node (resolve rel) = some (.file b)) →
      ok = true ∧ m₁.tree = m.tree := by
    rintro ⟨b, hb⟩
    exact hfound (by simp [hb])
  cases ok with
  | false =>
    refine Ends.pure ⟨h₁, nofun, fun _ hb => ?_⟩
    cases (hfile hb).1
  | true =>
    apply ends_openWrite hb
    · intro fd m₂ hbare _ hm₂ hputs
      apply Ends.bind
      refine (ends_writeLoop data hm₂ hputs).mono ?_
      rintro _ m₃ ⟨rfl, ⟨h, hm₃⟩, hputs₃⟩
      refine ends_sure trivial fun synced m₄ hsynced h₄ => ?_
      cases hsynced
      refine (hm₃.calm h₄).closes.mono ?_
      rintro _ m₅ ⟨rfl, h₅, htree⟩
      rw [htree, h₄.tree]
      refine ⟨h₁.trans h₅, fun _ => ⟨hbare, hputs₃.self⟩, fun _ hb => ⟨rfl, ?_⟩⟩
      rw [← (hfile hb).2]
      exact hputs₃
    · intro m₂ h₂ hnot
      refine Ends.pure ⟨h₁.trans h₂.toDid, nofun, fun hbare hb => ?_⟩
      obtain ⟨b, hnode⟩ := hb
      rw [← (hfile ⟨b, hnode⟩).2] at hnode
      exact absurd hnode (hnot hbare b)

end Write

end ServerReliable
