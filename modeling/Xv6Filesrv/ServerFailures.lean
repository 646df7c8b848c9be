import Xv6Filesrv.ServerStorage

/-!
# What failed commands leave behind

Here nearly everything can fail, and at any time: memory and locks, opening, reading, renaming
and making directories, and sending the answer.  Only a file that could be opened for writing is
also written.  `COMPRESS` and `DECOMPRESS` read and check all of the source before they open the
destination, so that no file suffers when they fail.
-/

namespace ServerFailures

open FileTree ServerResp ServerPaths ServerOps ServerCalls ServerFiles ServerReplyFormat
  ServerReliable ServerStorage Programs Programs.Prog ProgramRuns

variable {env : Env} {m m' m'' m₁ m₂ : Machine} {α β : Type} {client src dst : Bytes}
  {t t' t'' : Tree Bytes Bytes} {key : List Bytes} {Q : α → Machine → Prop} {p : Server α}
  {c : Call} {command : String}

/-- `write`, `fsync` and `close` do not fail on a file that is open for writing, except that
`write` may be interrupted. -/
def Holds (m : Machine) : (c : Call) → Answer c → Machine → Prop
  | .write _ _, r, m' => r = none → m'.errno = .eintr
  | .fsync _, r, _ => r = true
  | .close fd, r, _ => (∃ key pos, m.handle fd = some ⟨key, .write, pos⟩) → r = true
  | _, _, _ => True

def Steady (env : Env) (m : Machine) (c : Call) (r : Answer c) (m' : Machine) : Prop :=
  Does env m c r m' ∧ Holds m c r m'

abbrev steady (env : Env) : Rules Call Answer Machine := ⟨fun _ _ => True, Steady env⟩

theorem Reliable.steady {r : Answer c} (h : Reliable env m c r m') :
    Steady env m c r m' := by
  refine ⟨h.does, ?_⟩
  cases c with
  | write fd data =>
    rcases h with ⟨key, pos, b, w, -, -, rfl, -⟩ | ⟨-, e, ⟨rfl, -⟩, rfl⟩
    · exact nofun
    · exact fun _ => rfl
  | fsync fd =>
    rcases h with ⟨hr, -⟩ | ⟨-, e, hexc, -⟩
    · exact hr
    · exact hexc.elim
  | close fd =>
    rcases h with ⟨hr, -⟩ | ⟨hr, -⟩
    · exact fun _ => hr
    · exact hr.elim
  | _ => trivial

theorem wp_of_runs {a : α} (hp : wp (steady env) p Q m) (hr : Runs (Steady env) p m a m') :
    Q a m' := by
  obtain ⟨_, hq, rfl⟩ := hr.follows (J := Eq) hp
    (fun m₁ m₂ c r m' hJ _ hx => ⟨m', hJ ▸ hx, rfl⟩) rfl
  exact hq

theorem wp_errno {f : Errno → Server α} (h : wp (steady env) (f m.errno) Q m) :
    wp (steady env) (ask .errno >>= f) Q m := by
  apply wp_bind
  refine wp_perform trivial fun e m' hx => ?_
  rcases hx.1 with ⟨rfl, rfl⟩ | ⟨hr, -⟩ | hcut
  · exact h
  · exact hr.elim
  · exact hcut.elim

/-! ## What changes nothing -/

/-- Nothing changed in the data directory but what is in the log. -/
def Same (env : Env) (t t' : Tree Bytes Bytes) : Prop :=
  ∀ key, t'.node key = t.node key ∨
    key = logKey env ∧ t.node key ≠ some .dir ∧ ∃ b, t'.node key = some (.file b)

theorem Same.refl (t : Tree Bytes Bytes) : Same env t t := fun _ => .inl rfl

theorem Same.trans (h : Same env t t') (h' : Same env t' t'') : Same env t t'' := by
  intro key
  rcases h' key with he | ⟨hlog, hnot, hfile⟩
  · rw [he]
    exact h key
  · rcases h key with he | ⟨-, hnot', -⟩
    · exact .inr ⟨hlog, he ▸ hnot, hfile⟩
    · exact .inr ⟨hlog, hnot', hfile⟩

theorem same_put {content : Bytes} (h : t.Room (logKey env)) :
    Same env t (t.put (logKey env) (.file content) h) := by
  intro key
  by_cases hkey : key = logKey env
  · subst hkey
    exact .inr ⟨rfl, h.free, content, Tree.put_self _ h⟩
  · exact .inl (Tree.put_other _ h hkey)

/-- Calls that leave all files but the log alone. -/
def Mild : Call → Prop
  | .open _ .write | .write _ _ | .unlink _ | .rename _ _ | .mkdir _ => False
  | _ => True

/-- No outcome of a mild call changes a file other than the log. -/
theorem Mild.effect {r : Answer c} (hc : Mild c) (h : Effect env m c r m') :
    Same env m.tree m'.tree := by
  cases c with
  | «open» path mode =>
    cases mode with
    | read => rw [h.tree not_false]; exact .refl _
    | write => exact hc.elim
  | write _ _ | unlink _ | rename _ _ | mkdir _ => exact hc.elim
  | fopen append =>
    cases append with
    | false => rw [h.tree not_false]; exact .refl _
    | true =>
      obtain ⟨-, ⟨-, rfl⟩ | ⟨-, hroom, rfl⟩⟩ := h
      · exact .refl _
      · exact same_put hroom
  | fprintf line =>
    obtain ⟨b, -, hroom, rfl⟩ := h
    exact same_put hroom
  | _ => rw [h.tree not_false]; exact .refl _

theorem Mild.same {r : Answer c} (hc : Mild c) (h : Does env m c r m') :
    Same env m.tree m'.tree := by
  rcases h with h | ⟨-, e, p, rfl⟩ | h
  · exact hc.effect h
  · exact .refl _
  · cases c with
    | close fd =>
      obtain ⟨-, e, rfl⟩ := h
      exact .refl _
    | fprintf line =>
      obtain ⟨n, h⟩ := h
      exact Mild.effect (c := .fprintf (line.take n)) trivial h
    | fread n =>
      obtain ⟨k, -, h⟩ := h
      exact Mild.effect (c := .fread k) trivial h
    | _ => exact h.elim

theorem Does.out {r : Answer c} (h : Does env m c r m') (hc : ¬ Sending c) :
    m'.out = m.out := by
  rcases h with h | ⟨-, e, p, rfl⟩ | h
  · exact h.out hc
  · rfl
  · cases c with
    | close fd =>
      obtain ⟨-, e, rfl⟩ := h
      rfl
    | fprintf line =>
      obtain ⟨n, h⟩ := h
      exact Effect.out h not_false
    | fread n =>
      obtain ⟨k, -, h⟩ := h
      exact Effect.out h not_false
    | _ => exact h.elim

/-- Nothing was sent either. -/
structure Still (env : Env) (m m' : Machine) : Prop where
  out : m'.out = m.out
  tree : Same env m.tree m'.tree

theorem Still.refl (m : Machine) : Still env m m := ⟨rfl, .refl _⟩

theorem Still.trans (h : Still env m m') (h' : Still env m' m'') : Still env m m'' :=
  ⟨h'.out.trans h.out, h.tree.trans h'.tree⟩

/-- A program that changes and sends nothing. -/
def Quiet (env : Env) (p : Server α) : Prop :=
  ∀ m, wp (steady env) p (fun _ => Still env m) m

/-- A program that changes nothing. -/
def Harmless (env : Env) (p : Server α) : Prop :=
  ∀ m, wp (steady env) p (fun _ m' => Same env m.tree m'.tree) m

theorem Quiet.wp_bind {f : α → Server β} {Q : β → Machine → Prop} (hp : Quiet env p)
    (hf : ∀ a m', Still env m m' → wp (steady env) (f a) Q m') :
    wp (steady env) (p >>= f) Q m :=
  Programs.wp_bind ((hp m).mono hf)

theorem Quiet.pure (a : α) : Quiet env (pure a : Server α) := fun m => wp_pure (Still.refl m)

theorem Quiet.bind {f : α → Server β} (hp : Quiet env p) (hf : ∀ a, Quiet env (f a)) :
    Quiet env (p >>= f) :=
  fun _ => hp.wp_bind fun a m' h => (hf a m').mono fun _ _ h' => h.trans h'

theorem Quiet.iterate {σ : Type} {body : σ → Server (σ ⊕ β)} {s : σ}
    (h : ∀ s, Quiet env (body s)) : Quiet env (iterate body s) := by
  intro m
  apply wp_iterate (fun _ => Still env m) (Still.refl m)
  intro s m₁ hm₁
  refine (h s m₁).mono fun x m₂ hm₂ => ?_
  cases x <;> exact hm₁.trans hm₂

theorem Quiet.harmless (h : Quiet env p) : Harmless env p :=
  fun m => (h m).mono fun _ _ h => h.tree

theorem Harmless.bind {f : α → Server β} (hp : Harmless env p) (hf : ∀ a, Harmless env (f a)) :
    Harmless env (p >>= f) :=
  fun m => wp_bind ((hp m).mono fun a m' h => (hf a m').mono fun _ _ h' => h.trans h')

/-- Calls that change and send nothing. -/
def Silent (c : Call) : Prop := Mild c ∧ ¬ Sending c

theorem quiet_ask (c : Call) (hc : Silent c) : Quiet env (ask c) :=
  fun _ => wp_perform trivial fun _ _ hx => ⟨Does.out hx.1 hc.2, hc.1.same hx.1⟩

theorem Quiet.after {f : Answer c → Server α} (hc : Silent c) (hf : ∀ r, Quiet env (f r)) :
    Quiet env (ask c >>= f) :=
  (quiet_ask c hc).bind hf

theorem quiet_locking : Locking (Quiet env) where
  pure := .pure
  bind := .bind
  locks c hc := by
    apply quiet_ask
    cases c <;> first | exact hc.elim | exact ⟨trivial, not_false⟩

theorem quiet_log (client : Bytes) (command : String) (target : Bytes) (status : String)
    (detail : Bytes) : Quiet env (loggerLog client command target status detail) :=
  quiet_locking.log (fun _ => quiet_ask _ ⟨trivial, not_false⟩) client command target status detail

theorem quiet_retry {again giveUp : α} :
    Quiet env (do if (← ask .errno) = .eintr then pure again else pure giveUp) := by
  refine Quiet.after ⟨trivial, not_false⟩ fun e => ?_
  split <;> exact .pure _

theorem quiet_readAllFile (full : Bytes) : Quiet env (readAllFile full) := by
  have hloop : ∀ f sz, Quiet env (readLoop f sz) := by
    intro f sz
    refine Quiet.iterate fun buf => ?_
    split
    · exact .pure _
    · refine Quiet.after ⟨trivial, not_false⟩ fun r => ?_
      cases r with
      | none => exact quiet_retry
      | some r =>
        simp only
        split <;> exact .pure _
  have hfail : ∀ f e, Quiet env (do
      let _ ← ask (.close f)
      ask (.setErrno e)
      pure (none : Option Bytes)) := fun f e =>
    Quiet.after ⟨trivial, not_false⟩ fun _ => Quiet.after ⟨trivial, not_false⟩ fun _ => .pure _
  refine Quiet.after ⟨trivial, not_false⟩ fun f => ?_
  cases f with
  | none => exact .pure _
  | some f =>
    refine Quiet.after ⟨trivial, not_false⟩ fun size => ?_
    cases size with
    | none => exact Quiet.after ⟨trivial, not_false⟩ fun _ => .pure _
    | some size =>
      simp only
      split
      · exact hfail f _
      · refine Quiet.after ⟨trivial, not_false⟩ fun room => ?_
        split
        · exact hfail f _
        · refine (hloop f _).bind fun out => ?_
          exact Quiet.after ⟨trivial, not_false⟩ fun _ => .pure _

theorem quiet_giveUp (e : Errno) :
    Quiet env (do ask (.setErrno e); pure (none : Option Bytes)) :=
  Quiet.after ⟨trivial, not_false⟩ fun _ => .pure _

theorem quiet_compress (input : Bytes) : Quiet env (rleCompressBytes input) := by
  refine Quiet.after ⟨trivial, not_false⟩ fun room => ?_
  split
  · exact quiet_giveUp _
  · exact .pure _

theorem quiet_decompress (input : Bytes) : Quiet env (rleDecompressBytes input) := by
  unfold rleDecompressBytes
  split
  · exact quiet_giveUp _
  · split
    · exact quiet_giveUp _
    · split
      · exact quiet_giveUp _
      · refine Quiet.after ⟨trivial, not_false⟩ fun room => ?_
        split
        · exact quiet_giveUp _
        · exact .pure _

/-! ## Answers -/

/-- The answer of a failure. -/
def errorReply (text : Bytes) : Bytes := (Reply.error (ascii "ERR " ++ text)).encode

/-- The run was answered with an error. -/
def Refuses (m m' : Machine) : Prop := ∃ text, m'.out = m.out ++ errorReply text

/-- What reaches the client is a beginning of the buffer, also when sending fails. -/
theorem wp_sendAll (buf : Bytes) (m : Machine) : wp (steady env) (sendAll buf)
    (fun _ m' => m'.tree = m.tree ∧ ∃ k, m'.out = m.out ++ buf.take k) m := by
  apply wp_iterate (fun sent m' => m'.tree = m.tree ∧ m'.out = m.out ++ buf.take sent)
    ⟨rfl, by simp⟩
  rintro sent m₁ ⟨htree, hout⟩
  split
  · exact wp_pure ⟨htree, sent, hout⟩
  · apply Programs.wp_bind
    refine wp_perform trivial fun r m₂ hx => ?_
    rcases hx.1 with ⟨w, rfl, -, rfl⟩ | ⟨rfl, e, p, rfl⟩ | hcut
    · refine wp_pure ⟨htree, ?_⟩
      rw [List.take_add, ← List.append_assoc, ← hout]
    · apply wp_errno
      split
      · exact wp_pure ⟨htree, hout⟩
      · exact wp_pure ⟨htree, sent, hout⟩
    · exact hcut.elim

theorem harmless_replyLine (n : Nat) (line : Bytes) : Harmless env (replyLine n line) := by
  unfold replyLine
  split
  · exact (Quiet.pure _).harmless
  · intro m
    refine (wp_sendAll _ m).mono fun _ m' h => ?_
    rw [h.1]
    exact .refl _

theorem harmless_replyFailure (command : String) (target text : Bytes) :
    Harmless env (replyFailure client command target text) :=
  (quiet_log client command target "ERR" text).harmless.bind fun _ => harmless_replyLine _ _

theorem harmless_failTwo (locks : TwoLocks) (command : String) (target : Bytes) (e : Errno) :
    Harmless env (failTwo env client locks command target e) :=
  (quiet_locking.releaseTwo locks).harmless.bind fun _ => harmless_replyFailure command target _

theorem harmless_lastError (locks : TwoLocks) (command : String) (target : Bytes) :
    Harmless env (do
      let e ← ask .errno
      failTwo env client locks command target e) :=
  (quiet_ask .errno ⟨trivial, not_false⟩).harmless.bind fun e =>
    harmless_failTwo locks command target e

/-- What a failure may leave behind. -/
abbrev Spared (env : Env) (m m' : Machine) : Prop := Refuses m m' → Same env m.tree m'.tree

theorem Harmless.spares (h : Harmless env p) (htree : Same env m.tree m₁.tree) :
    wp (steady env) p (fun _ => Spared env m) m₁ :=
  (h m₁).mono fun _ _ hsame _ => htree.trans hsame

/-- A command that is reported as done is not answered with an error. -/
theorem wp_success {locks : TwoLocks} {target detail : Bytes} (hout : m₁.out = m.out) :
    wp (steady env) (do
      locksReleaseTwo locks
      loggerLog client command target "OK" detail
      respReplySimple (ascii "OK")) (fun _ m' => ¬ Refuses m m') m₁ := by
  refine (quiet_locking.releaseTwo locks).wp_bind fun _ m₂ h₂ => ?_
  refine (quiet_log client command target "OK" detail).wp_bind fun _ m₃ h₃ => ?_
  refine (wp_sendAll okReply m₃).mono ?_
  rintro _ m₄ ⟨-, k, hk⟩ ⟨text, htext⟩
  rw [hk, h₃.out, h₂.out, hout] at htext
  have hhead := congrArg List.head? (List.append_cancel_left htext)
  cases k with
  | zero => cases hhead
  | succ k => cases hhead

/-! ## Directories -/

/-- No directory can be made at `key`: something is there, or a file stands above. -/
def Barred (t : Tree Bytes Bytes) (key : List Bytes) : Prop :=
  t.node key = none → ∃ k b, k <+: key ∧ t.node k = some (.file b)

theorem Barred.no_room (h : Barred t key) (hnone : t.node key = none) : ¬ t.Room key := by
  intro hroom
  obtain ⟨k, b, hpre, hfile⟩ := h hnone
  obtain ⟨k', name, rfl, hdir⟩ := hroom.place
  rcases List.prefix_concat_iff.mp hpre with rfl | hpre
  · rw [hnone] at hfile
    cases hfile
  · obtain ⟨rest, rfl⟩ := hpre
    have hk : t.node k = some .dir := by
      cases rest with
      | nil => simpa using hdir
      | cons name' rest =>
        refine Tree.dir_above (k := name' :: rest) ?_ (List.cons_ne_nil _ _)
        rw [hdir]
        exact Option.some_ne_none _
    rw [hk] at hfile
    cases hfile

/-- No directory is made on the way to `path`. -/
def NoNew (t : Tree Bytes Bytes) (path : Bytes) : Prop :=
  ∀ rel rest, path = rel ++ 47 :: rest → Barred t (resolve rel)

/-- Directories were made, and only those that are not barred. -/
structure Digs (env : Env) (dirs : List Bytes) (m m' : Machine) : Prop where
  out : m'.out = m.out
  handles : m'.handles = m.handles
  adds : m.tree.AddsDirs m'.tree
  barred : (∀ d ∈ dirs, ∀ rel, below env.dataDir d = some rel → Barred m.tree (resolve rel)) →
    m'.tree = m.tree

theorem wp_mkdirs (dirs : List Bytes) (m : Machine) :
    wp (steady env) (mkdirs dirs) (fun _ => Digs env dirs m) m := by
  induction dirs generalizing m with
  | nil => exact wp_pure ⟨rfl, rfl, .refl _, fun _ => rfl⟩
  | cons d dirs ih =>
    apply wp_bind
    refine wp_perform trivial fun r m₁ hx => ?_
    rcases hx.1 with ⟨rel, hrel, rfl, hnone, hroom, rfl⟩ | ⟨rfl, e, p, rfl⟩ | hcut
    · refine (ih _).mono fun _ m' h => ⟨h.out, h.handles, ?_, fun hbar => ?_⟩
      · exact (Tree.addsDirs_put hroom hnone).trans h.adds
      · exact absurd hroom ((hbar d List.mem_cons_self rel hrel).no_room hnone)
    · apply wp_errno
      split
      · refine (ih _).mono fun _ m' h => ⟨h.out, h.handles, h.adds, fun hbar => ?_⟩
        exact h.barred fun d' hd' => hbar d' (List.mem_cons_of_mem d hd')
      · exact wp_pure ⟨rfl, rfl, .refl _, fun _ => rfl⟩
    · exact hcut.elim

theorem wp_ensureParentDirs {full rel : Bytes} (hb : below env.dataDir full = some rel)
    (m : Machine) : wp (steady env) (pathEnsureParentDirs full) (fun _ m' => m'.out = m.out ∧
      m'.handles = m.handles ∧ m.tree.AddsDirs m'.tree ∧
      (NoNew m.tree rel → m'.tree = m.tree)) m := by
  unfold pathEnsureParentDirs snprintf
  split
  · exact wp_pure ⟨rfl, rfl, .refl _, fun _ => rfl⟩
  · next tmp htmp =>
    rw [Option.ite_none_left_eq_some] at htmp
    obtain ⟨-, htmp⟩ := htmp
    cases htmp
    refine (wp_mkdirs _ m).mono fun _ m' h => ⟨h.out, h.handles, h.adds, fun hnew => ?_⟩
    apply h.barred
    intro d hd rel' hrel'
    obtain ⟨rest, hrest⟩ := below_parent hb hd hrel'
    exact hnew rel' rest hrest

/-! ## Writing -/

/-- Only the file at `key` was written, which is open under `fd`. -/
structure Wrote (fd : Nat) (key : List Bytes) (m m' : Machine) : Prop where
  out : m'.out = m.out
  handle : ∃ pos, m'.handle fd = some ⟨key, .write, pos⟩
  others : ∀ fd', fd' ≠ fd → m'.handle fd' = m.handle fd'
  tree : ∀ k, k ≠ key → m'.tree.node k = m.tree.node k
  file : (∃ b, m.tree.node key = some (.file b)) → ∃ b, m'.tree.node key = some (.file b)

theorem Wrote.refl {fd pos : Nat} (h : m.handle fd = some ⟨key, .write, pos⟩) : Wrote fd key m m :=
  ⟨rfl, ⟨pos, h⟩, fun _ _ => rfl, fun _ _ => rfl, id⟩

theorem Wrote.trans {fd : Nat} (h : Wrote fd key m m') (h' : Wrote fd key m' m'') :
    Wrote fd key m m'' :=
  ⟨h'.out.trans h.out, h'.handle, fun fd' hfd => (h'.others fd' hfd).trans (h.others fd' hfd),
    fun k hk => (h'.tree k hk).trans (h.tree k hk), fun hb => h'.file (h.file hb)⟩

theorem Wrote.failed {fd : Nat} {e : Errno} {p : Nat} (h : Wrote fd key m m') :
    Wrote fd key m { m' with errno := e, patience := p } :=
  ⟨h.out, h.handle, h.others, h.tree, h.file⟩

/-- Writes to an open file are cut short or interrupted but do not fail. -/
theorem wp_writeLoop {fd pos : Nat} (data : Bytes) (h : m.handle fd = some ⟨key, .write, pos⟩) :
    wp (steady env) (writeLoop fd data) (fun ok m' => ok = true ∧ Wrote fd key m m') m := by
  apply wp_iterate (fun _ => Wrote fd key m) (Wrote.refl h)
  intro off m₁ hm₁
  split
  · exact wp_pure ⟨rfl, hm₁⟩
  · apply wp_bind
    refine wp_perform trivial fun r m₂ hx => ?_
    obtain ⟨hdoes, hholds⟩ := hx
    rcases hdoes with ⟨key', pos', b, w, hfd, hb, rfl, -, hroom, rfl⟩ | ⟨rfl, e, p, rfl⟩ | hcut
    · obtain ⟨pos₁, hpos₁⟩ := hm₁.handle
      rw [hpos₁] at hfd
      cases hfd
      refine wp_pure (hm₁.trans ⟨rfl, ⟨_, Machine.handle_set_self _ fd _⟩, ?_, ?_, ?_⟩)
      · intro fd' hne
        rw [Machine.handle_set, if_neg hne]
        rfl
      · exact fun k hk => Tree.put_other _ hroom hk
      · exact fun _ => ⟨_, Tree.put_self _ hroom⟩
    · have he : e = .eintr := hholds rfl
      apply wp_errno
      rw [if_pos he]
      exact wp_pure hm₁.failed
    · exact hcut.elim

/-- Once a file is open for writing it is written. -/
theorem wp_writeAllFile {full rel : Bytes} (hb : below env.dataDir full = some rel) (data : Bytes)
    (m : Machine) : wp (steady env) (writeAllFile full data) (fun ok m' => m'.out = m.out ∧
      (ok = false → m.tree.AddsDirs m'.tree)) m := by
  apply wp_bind
  refine (wp_ensureParentDirs hb m).mono ?_
  rintro made m₁ ⟨hout₁, -, hadds, -⟩
  cases made with
  | false => exact wp_pure ⟨hout₁, fun _ => hadds⟩
  | true =>
    apply wp_bind
    refine wp_perform trivial fun f m₂ hx => ?_
    rcases hx.1 with ⟨rel', fd, hb', rfl, hfd, hbare, hroom, rfl⟩ | ⟨rfl, e, p, rfl⟩ | hcut
    · apply wp_bind
      refine (wp_writeLoop data (Machine.handle_set_self _ fd _)).mono ?_
      rintro _ m₃ ⟨rfl, hwrote⟩
      apply wp_bind
      refine wp_perform trivial fun synced m₄ hx => ?_
      have hsynced : synced = true := hx.2
      have hm₄ : m₄ = m₃ := by
        rcases hx.1 with ⟨-, he⟩ | ⟨hr, -⟩ | hcut
        · exact he
        · exact absurd (hsynced.symm.trans hr) nofun
        · exact hcut.elim
      subst hm₄ hsynced
      refine wp_perform trivial fun closed m₅ hx => ⟨?_, fun hclosed => ?_⟩
      · exact (Does.out hx.1 not_false).trans (hwrote.out.trans hout₁)
      · have hwriting : closed = true := hx.2 ⟨_, hwrote.handle⟩
        exact absurd (hwriting.symm.trans hclosed) nofun
    · exact wp_pure ⟨hout₁, fun _ => hadds⟩
    · exact hcut.elim

/-! ## Runs that fail -/

/-- What every reliable run comes to, some run comes to. -/
theorem can_of_ends (h : Ends (Reliable env) Q p m) :
    Can (Steady env) Q p m := by
  obtain ⟨a, m', hrun, hq⟩ := h.exists_runs
  exact ⟨a, m', hrun.mono fun _ _ _ _ h => Reliable.steady h, hq⟩

theorem can_call {r : Answer c} {f : Answer c → Server α} (hx : Steady env m c r m')
    (h : Can (Steady env) Q (f r) m') :
    Can (Steady env) Q (ask c >>= f) m :=
  Can.bind (Can.perform hx h)

/-- A call that need not succeed fails. -/
theorem can_refuse {r : Answer c} {f : Answer c → Server α} (e : Errno) (hr : Refused c r)
    (hc : Holds m c r { m with errno := e }) (h : Can (Steady env) Q (f r) { m with errno := e }) :
    Can (Steady env) Q (ask c >>= f) m :=
  can_call ⟨.inr (.inl ⟨hr, e, m.patience, rfl⟩), hc⟩ h

theorem can_errno {f : Errno → Server α} (h : Can (Steady env) Q (f m.errno) m) :
    Can (Steady env) Q (ask .errno >>= f) m :=
  can_call ⟨.inl ⟨rfl, rfl⟩, trivial⟩ h

theorem can_close {fd : Nat} {f : Bool → Server α}
    (h : Can (Steady env) Q (f true) (m.closeHandle fd)) :
    Can (Steady env) Q (ask (.close fd) >>= f) m :=
  can_call ⟨.inl ⟨rfl, rfl⟩, fun _ => rfl⟩ h

/-- Both locks can be had with nothing sent and no file changed. -/
theorem can_withTwoPaths {refused srcFull dstFull : Bytes}
    {body : Bytes → Bytes → TwoLocks → Server Bool} {Q : Bool → Machine → Prop}
    (hsrc : pathBuild env.dataDir src pathMax = some srcFull)
    (hdst : pathBuild env.dataDir dst pathMax = some dstFull)
    (h : ∀ locks m₁, m₁.out = m.out → m₁.tree = m.tree →
      Can (Steady env) Q (body srcFull dstFull locks) m₁) :
    Can (Steady env) Q (withTwoPaths env client command src dst refused body) m := by
  unfold withTwoPaths
  rw [hsrc, hdst]
  apply Can.bind
  refine (can_of_ends (calms_acquireTwo srcFull dstFull m)).mono ?_
  rintro locks m₁ ⟨hsome, hcalm⟩
  cases locks with
  | none => exact absurd rfl hsome
  | some locks => exact h locks m₁ hcalm.silent hcalm.tree

/-- All but the log is as it was, and directories stay directories. -/
structure Kept (env : Env) (t t' : Tree Bytes Bytes) : Prop where
  other : ∀ key, key ≠ logKey env → t'.node key = t.node key
  dir : ∀ key, t.node key = some .dir → t'.node key = some .dir

theorem Logged.kept {record : Bytes → Bytes} (h : Logged env record m m') :
    Kept env m.tree m'.tree := by
  rcases h with ⟨-, hcalm⟩ | ⟨hnot, ts, -, -, hputs⟩
  · rw [hcalm.tree]
    exact ⟨fun _ _ => rfl, fun _ h => h⟩
  · refine ⟨fun key hkey => hputs.other hkey, fun key hdir => ?_⟩
    have hkey : key ≠ logKey env := by
      rintro rfl
      exact hnot hdir
    rw [hputs.other hkey, hdir]

theorem Kept.dir_new (h : Kept env t' t'') (hnone : t.node key = none)
    (hdir : t'.node key = some .dir) : ¬ Same env t t'' := by
  intro hsame
  have hdir' := h.dir key hdir
  rcases hsame key with he | ⟨-, -, b, hfile⟩
  · rw [he, hnone] at hdir'
    cases hdir'
  · rw [hdir'] at hfile
    cases hfile

/-- A change before the last record is still there after it. -/
theorem Kept.changed (h : Kept env t' t'') (hkey : key ≠ logKey env)
    (hne : t'.node key ≠ t.node key) : ¬ Same env t t'' := by
  intro hsame
  rcases hsame key with he | ⟨hlog, -⟩
  · exact hne ((h.other key hkey).symm.trans he)
  · exact hkey hlog

/-- An error whose text is short enough is reported. -/
theorem can_failTwo {e : Errno} (hshort : (env.strerror e).length < 500) (locks : TwoLocks)
    (command : String) (target : Bytes) (m : Machine) :
    Can (Steady env) (fun _ m' => Refuses m m' ∧ Kept env m.tree m'.tree)
      (failTwo env client locks command target e) m := by
  have hline : (ascii "-ERR " ++ env.strerror e ++ crlf).length < 512 := by
    have hcode : (ascii "-ERR ").length = 5 := rfl
    simp only [crlf, List.length_append, List.length_cons, List.length_nil, hcode]
    omega
  apply can_of_ends
  refine (calms_releaseTwo locks).ends fun _ m₁ _ h₁ => Ends.bind ?_
  refine (ends_log client command target "ERR" _ m₁).mono fun _ m₂ h₂ => ?_
  refine (ends_line hline m₂).mono fun _ m₃ h₃ => ⟨⟨env.strerror e, ?_⟩, ?_⟩
  · obtain ⟨⟨lines, hdid⟩, -⟩ := Logged.entered h₂
    rw [h₃.2.out, hdid.silent, h₁.silent]
    rfl
  · rw [h₃.2.tree, ← h₁.tree]
    exact Logged.kept h₂

/-! ## `COMPRESS` and `DECOMPRESS` -/

/-- Every file but the log is as it was. -/
def SameFiles (env : Env) (t t' : Tree Bytes Bytes) : Prop :=
  ∀ key, key ≠ logKey env → ∀ b, t'.node key = some (.file b) ↔ t.node key = some (.file b)

theorem Same.files (h : Same env t t') : SameFiles env t t' := by
  intro key hkey b
  rcases h key with he | ⟨hlog, -⟩
  · rw [he]
  · exact absurd hlog hkey

theorem SameFiles.trans (h : SameFiles env t t') (h' : SameFiles env t' t'') :
    SameFiles env t t'' :=
  fun key hkey b => (h' key hkey b).trans (h key hkey b)

/-- `COMPRESS` and `DECOMPRESS`, for any codec that leaves the files alone. -/
theorem wp_recode {codec : Bytes → Server (Option Bytes)} {detail : String}
    (hcodec : ∀ input, Quiet env (codec input)) :
    wp (steady env) (opRecode env client command codec detail src dst)
      (fun _ m' => Refuses m m' → SameFiles env m.tree m'.tree) m := by
  have hfail : ∀ {p : Server Bool} {m₁ : Machine}, Harmless env p →
      SameFiles env m.tree m₁.tree → wp (steady env) p
        (fun _ m' => Refuses m m' → SameFiles env m.tree m'.tree) m₁ :=
    fun hp h₁ => (hp _).mono fun _ _ h _ => h₁.trans h.files
  unfold opRecode withTwoPaths
  split
  · next srcFull dstFull hsrc hdst =>
    refine (quiet_locking.acquireTwo srcFull dstFull).wp_bind fun locks m₁ h₁ => ?_
    cases locks with
    | none =>
      refine hfail ?_ h₁.tree.files
      exact (quiet_log client command src "ERR" _).harmless.bind fun _ => harmless_replyLine _ _
    | some locks =>
      refine (quiet_readAllFile srcFull).wp_bind fun out m₂ h₂ => ?_
      have h₁₂ := h₁.trans h₂
      cases out with
      | none => exact hfail (harmless_lastError locks command src) h₁₂.tree.files
      | some input =>
        refine (hcodec input).wp_bind fun out m₃ h₃ => ?_
        have h₁₃ := h₁₂.trans h₃
        cases out with
        | none => exact hfail (harmless_lastError locks command src) h₁₃.tree.files
        | some out =>
          apply wp_bind
          refine (wp_writeAllFile (below_build hdst) out m₃).mono ?_
          rintro ok m₄ ⟨hout, hadds⟩
          cases ok with
          | false =>
            apply hfail (harmless_lastError locks command dst)
            exact h₁₃.tree.files.trans fun key _ b => (hadds rfl).file_iff
          | true =>
            refine (wp_success (hout.trans h₁₃.out)).mono fun _ m' hnot href => ?_
            exact absurd href hnot
  · exact hfail (harmless_replyFailure command src _) (Same.refl _).files

/-- A `COMPRESS` or `DECOMPRESS` that is answered with an error leaves every file but the log as it
was. -/
theorem refused_recode_spares_files {op : Operation} {b : Bool}
    (hop : op = .compress src dst ∨ op = .decompress src dst)
    (hrun : Runs (Steady env) (op.run env client) m b m') (href : Refuses m m') :
    ∀ key, key ≠ logKey env → ∀ content,
      m'.tree.node key = some (.file content) ↔ m.tree.node key = some (.file content) := by
  rcases hop with rfl | rfl
  · exact wp_of_runs (wp_recode quiet_compress) hrun href
  · exact wp_of_runs (wp_recode quiet_decompress) hrun href

/-- `DECOMPRESS` of a file that is not in the format. -/
theorem refused_recode_spares_files_a : ∃ b m',
    Runs (Steady here) ((Operation.decompress (ascii "a") (ascii "a.rle")).run here [])
      (booted (twoFiles [120])) b m' ∧ Refuses (booted (twoFiles [120])) m' ∧
    ∀ key, key ≠ logKey here → ∀ content, m'.tree.node key = some (.file content) ↔
      (booted (twoFiles [120])).tree.node key = some (.file content) := by
  have hrle : pathBuild here.dataDir (ascii "a.rle") pathMax = some (ascii "./a.rle") := rfl
  have hcan : Can (Steady here) (fun _ => Refuses (booted (twoFiles [120])))
      (opDecompress here [] (ascii "a") (ascii "a.rle")) (booted (twoFiles [120])) := by
    unfold opDecompress opRecode
    apply can_withTwoPaths build_a hrle
    intro locks m₁ hout₁ htree₁
    have hfile : m₁.tree.node (resolve (ascii "a")) = some (.file [120]) := by
      rw [htree₁]
      rfl
    apply Can.bind
    refine (can_of_ends (ends_readAllFile (below_build build_a) hfile bare_a)).mono ?_
    rintro _ m₂ ⟨hcalm, rfl⟩
    apply Can.bind
    refine can_call (c := .setErrno .einval) (r := ()) ⟨.inl rfl, trivial⟩ ?_
    apply Can.pure
    apply can_errno
    have hshort : (here.strerror .einval).length < 500 := by decide
    refine (can_failTwo hshort locks "DECOMPRESS" (ascii "a") _).mono ?_
    rintro _ m₃ ⟨⟨text, hout₃⟩, -⟩
    exact ⟨text, by rw [hout₃, ← hout₁, ← hcalm.silent]⟩
  obtain ⟨b, m', hrun, href⟩ := hcan
  exact ⟨b, m', hrun, href, refused_recode_spares_files (.inr rfl) hrun href⟩

end ServerFailures
