import Xv6Filesrv.ServerTalk

/-!
# Every operation comes to a reply

Whatever the file system answers, an operation ends with one reply, of a kind that suits it.
-/

namespace ServerReplies

open ServerResp ServerPaths ServerRle ServerOps ServerReplyFormat ProgramRuns

variable {l l' : Talk} {g : Bytes} {R : Bytes → Reply → Prop}

def IsError (r : Reply) : Prop := ∃ text, r = .error text

/-- The lines of the log that `LOGS` shows. -/
def logTail (limit : Int) (buf : Bytes) : Bytes :=
  if limit ≤ 0 then buf else buf.drop (tailStart limit buf buf.length 0)

/-- The replies that suit an operation for which `got` was read. -/
def Suits : Operation → Bytes → Reply → Prop
  | .replySimple msg, _, r => r = .simple msg
  | .replyError msg, _, r => r = .error (ascii "ERR " ++ msg)
  | .replyBulk data, _, r => r = .bulk data
  | .getfile _, got, r => r = .bulk got ∨ r = .nullBulk ∨ IsError r
  | .statfile _, _, r => (∃ st, r = .bulk (statText st)) ∨ r = .nullBulk ∨ IsError r
  | .delfile _, _, r => r = .integer 0 ∨ r = .integer 1 ∨ IsError r
  | .logs limit, got, r => r = .bulk (logTail limit got) ∨ IsError r
  | .setfile _ _, _, r | .renamefile _ _, _, r | .copyfile _ _, _, r =>
    r = .simple (ascii "OK") ∨ IsError r
  | .compress _ _, _, r | .decompress _ _, _, r => r = .simple (ascii "OK") ∨ IsError r

/-- The texts of errors can be presented. -/
def Polite (env : Env) : Prop := ∀ e, Presentable (env.strerror e)

/-- Any error will do as a reply. -/
def Fallible (R : Bytes → Reply → Prop) : Prop := ∀ g text, R g (.error text)

variable {env : Env} {client : Bytes} {command status : String} {target detail : Bytes}

theorem replies_failure (hR : Fallible R) {text : Bytes} (htext : Presentable text) :
    Replies g R (replyFailure client command target text) :=
  (still_log _ _ _ _ _).then fun _ => replies_error (hR _ _) htext

theorem replies_lockFailure (hR : Fallible R) :
    Replies g R (replyLockFailure client command target) :=
  (still_log _ _ _ _ _).then fun _ => replies_error (hR _ _) (by decide)

theorem replies_failTwo (hR : Fallible R) (henv : Polite env) {locks : TwoLocks} {e : Errno} :
    Replies g R (failTwo env client locks command target e) :=
  (still_locking.releaseTwo locks).then fun _ => replies_failure hR (henv e)

theorem replies_failLast (hR : Fallible R) (henv : Polite env) {locks : TwoLocks} :
    Replies g R (do
      let e ← ask .errno
      failTwo env client locks command target e) :=
  still_errno.then fun _ => replies_failTwo hR henv

/-- A success that is logged before it is reported. -/
theorem replies_ok (hr : R g (.simple (ascii "OK"))) :
    Replies g R (do
      loggerLog client command target status detail
      respReplySimple (ascii "OK")) :=
  (still_log _ _ _ _ _).then fun _ => replies_simple hr (by decide) (by decide)

theorem replies_withTwoPaths (hR : Fallible R) {src dst refused : Bytes}
    {body : Bytes → Bytes → TwoLocks → Server Bool}
    (hbody : ∀ a b locks, Replies g R (body a b locks)) :
    Replies g R (withTwoPaths env client command src dst refused body) := by
  unfold withTwoPaths
  split
  · next a b _ _ =>
    apply (still_locking.acquireTwo a b).then
    intro locks
    cases locks with
    | none => exact replies_lockFailure hR
    | some locks => exact hbody a b locks
  · exact replies_failure hR (by decide)

/-- What `read_all_file` returns is what was read. -/
theorem ends_readAllFile (path : Bytes) (l : Talk) :
    Ends Talks (fun out l' => ∃ data, Heard data l l' ∧
      ∀ buf, out = some buf → buf = data ∧ buf.length ≤ maxFileSize) (readAllFile path) l := by
  have hnone : ∀ l', Heard [] l l' → ∃ data, Heard data l l' ∧
      ∀ buf, (none : Option Bytes) = some buf → buf = data ∧ buf.length ≤ maxFileSize :=
    fun l' h => ⟨[], h, nofun⟩
  refine Still.ends (Quiet.still trivial) fun f l₁ h₁ => ?_
  cases f with
  | none => exact Ends.pure (hnone l₁ h₁)
  | some f =>
    refine Still.ends (Quiet.still trivial) fun size l₂ h₂ => ?_
    have h₂ := h₁.trans h₂
    cases size with
    | none =>
      exact Still.ends (Quiet.still trivial) fun _ l₃ h₃ => Ends.pure (hnone l₃ (h₂.trans h₃))
    | some size =>
      have hfail : ∀ e l₃, Heard [] l l₃ → Ends Talks (fun out l' => ∃ data, Heard data l l' ∧
          ∀ buf, out = some buf → buf = data ∧ buf.length ≤ maxFileSize) (do
            let _ ← ask (.close f)
            ask (.setErrno e)
            pure none) l₃ :=
        fun e l₃ h₃ => Still.ends (Quiet.still trivial) fun _ l₄ h₄ =>
          Still.ends (Quiet.still trivial) fun _ l₅ h₅ =>
            Ends.pure (hnone l₅ ((h₃.trans h₄).trans h₅))
      simp only
      split
      · exact hfail _ l₂ h₂
      · next hsize =>
        refine Still.ends (Quiet.still trivial) fun room l₃ h₃ => ?_
        have h₃ := h₂.trans h₃
        split
        · exact hfail _ l₃ h₃
        · apply Ends.bind
          refine (ends_readLoop f size.toNat l₃).mono ?_
          rintro out l₄ ⟨data, h₄, hout⟩
          refine Still.ends (Quiet.still trivial) fun _ l₅ h₅ => Ends.pure ⟨data, ?_, ?_⟩
          · simpa using (h₃.trans h₄).trans h₅
          · intro buf hbuf
            obtain ⟨hsame, hlen⟩ := hout buf hbuf
            exact ⟨hsame, by omega⟩

theorem window_le (size : Int) : (if 1048576 < size then 1048576 else size).toNat ≤ 1048576 := by
  split <;> omega

/-- The part of the log that is read is not too long. -/
theorem ends_readLogWindow (l : Talk) :
    Ends Talks (fun out l' => ∃ data, Heard data l l' ∧
      ∀ buf, out = some buf → buf = data ∧ buf.length ≤ 1048576) readLogWindow l := by
  have hfail : ∀ l₁, Heard [] l l₁ → Ends Talks (fun out l' => ∃ data, Heard data l l' ∧
      ∀ buf, out = some buf → buf = data ∧ buf.length ≤ 1048576)
      (do ask .fclose; pure none) l₁ :=
    fun l₁ h₁ => Still.ends (Quiet.still trivial) fun _ l₂ h₂ =>
      Ends.pure ⟨[], h₁.trans h₂, nofun⟩
  refine Still.ends (Quiet.still trivial) fun found l₁ h₁ => ?_
  split
  · exact hfail l₁ h₁
  · refine Still.ends (Quiet.still trivial) fun size l₂ h₂ => ?_
    have h₂ := h₁.trans h₂
    simp only
    split
    · exact hfail l₂ h₂
    · have hseek : Still (seekBack (if 1048576 < size then 1048576 else size)) :=
        still_sequential.bind (Quiet.still trivial) fun found => by
          split
          · exact still_sequential.pure _
          · exact Quiet.still trivial
      apply hseek.ends
      intro found l₃ h₃
      have h₃ := h₂.trans h₃
      split
      · exact hfail l₃ h₃
      · refine Still.ends (Quiet.still trivial) fun room l₄ h₄ => ?_
        have h₄ := h₃.trans h₄
        split
        · exact hfail l₄ h₄
        · apply ends_fread
          intro data l₅ hlen h₅
          refine Still.ends (Quiet.still trivial) fun _ l₆ h₆ => Ends.pure ⟨data, ?_, ?_⟩
          · simpa using (h₄.trans h₅).trans h₆
          · intro buf hbuf
            cases hbuf
            exact ⟨rfl, Nat.le_trans hlen (window_le size)⟩

theorem ends_readLogTail (limit : Int) (l : Talk) :
    Ends Talks (fun out l' => ∃ data, Heard data l l' ∧
      ∀ buf, out = some buf → buf = logTail limit data ∧ data.length ≤ 1048576)
      (readLogTail limit) l := by
  refine Still.ends (Quiet.still trivial) fun found l₁ h₁ => ?_
  split
  · apply still_errno.ends
    intro e l₂ h₂
    have h₂ := h₁.trans h₂
    split
    · refine Still.ends (Quiet.still trivial) fun copied l₃ h₃ => ?_
      split
      · refine Ends.pure ⟨[], h₂.trans h₃, fun buf hbuf => ?_⟩
        cases hbuf
        exact ⟨by simp [logTail], Nat.zero_le _⟩
      · exact Ends.pure ⟨[], h₂.trans h₃, nofun⟩
    · exact Ends.pure ⟨[], h₂, nofun⟩
  · apply Ends.bind
    refine (ends_readLogWindow l₁).mono ?_
    rintro window l₂ ⟨data, h₂, hwindow⟩
    have h₂ := h₁.trans h₂
    cases window with
    | none => exact Ends.pure ⟨_, h₂, nofun⟩
    | some buf =>
      obtain ⟨rfl, hlen⟩ := hwindow buf rfl
      simp only
      split
      · next hall =>
        refine Ends.pure ⟨_, h₂, fun b hb => ?_⟩
        cases hb
        exact ⟨by rw [logTail, if_pos hall]; rfl, hlen⟩
      · next hsome =>
        refine Still.ends (Quiet.still trivial) fun room l₃ h₃ => ?_
        have h₃ := h₂.trans h₃
        rw [List.append_nil] at h₃
        split
        · exact Ends.pure ⟨_, h₃, nofun⟩
        · refine Ends.pure ⟨_, h₃, fun b hb => ?_⟩
          cases hb
          exact ⟨by rw [logTail, if_neg hsome]; rfl, hlen⟩

/-- An operation on one file answers once, if what it does under the lock does. -/
theorem replies_withPath (hR : Fallible R) {mode : Mode} {path : Bytes}
    {body : Bytes → Entry → Server Bool} (hbody : ∀ full lock, Replies [] R (body full lock)) :
    Replies [] R (withPath env client (locksAcquire mode) command path body) := by
  unfold withPath
  split
  · exact replies_failure hR (by decide)
  · next full _ =>
    apply (still_locking.locksAcquire mode full).then
    intro lock
    cases lock with
    | none => exact replies_lockFailure hR
    | some lock => exact hbody full lock

theorem replies_getfile (henv : Polite env) (path : Bytes) :
    Replies [] (Suits (.getfile path)) (opGetfile env client path) := by
  have hR : Fallible (Suits (.getfile path)) := fun _ text => .inr (.inr ⟨text, rfl⟩)
  apply replies_withPath hR
  intro full lock
  apply Replies.of_read (ends_readAllFile full)
  intro out data hout
  cases out with
  | none =>
    apply still_errno.then
    intro e
    apply (still_locking.release lock).then
    intro _
    split
    · exact (still_log _ _ _ _ _).then fun _ => replies_nullBulk (.inr (.inl rfl))
    · split
      · exact replies_failure hR (by decide)
      · exact replies_failure hR (henv e)
  | some buf =>
    obtain ⟨rfl, hlen⟩ := hout buf rfl
    apply (still_locking.release lock).then
    intro _
    have hsmall : buf.length < 10 ^ 20 := Nat.lt_of_le_of_lt hlen (by decide)
    apply (replies_bulk (.inl rfl) hsmall).then_still
    intro rc
    exact still_sequential.bind (still_log _ _ _ _ _) fun _ => still_sequential.pure rc

theorem replies_logs (henv : Polite env) (limit : Int) :
    Replies [] (Suits (.logs limit)) (opLogs env client limit) := by
  have hR : Fallible (Suits (.logs limit)) := fun _ text => .inr ⟨text, rfl⟩
  apply Replies.of_read (ends_readLogTail limit)
  intro out data hout
  cases out with
  | none =>
    apply still_errno.then
    intro e
    apply (still_log _ _ _ _ _).then
    intro _
    exact still_errno.then fun e => replies_error (hR _ _) (henv e)
  | some buf =>
    obtain ⟨rfl, hlen⟩ := hout buf rfl
    have hsmall : (logTail limit data).length < 10 ^ 20 := by
      have htail : (logTail limit data).length ≤ data.length := by
        unfold logTail
        split
        · exact Nat.le_refl _
        · rw [List.length_drop]
          exact Nat.sub_le _ _
      exact Nat.lt_of_le_of_lt (Nat.le_trans htail hlen) (by decide)
    apply (replies_bulk (.inl rfl) hsmall).then_still
    intro rc
    exact still_sequential.bind (still_log _ _ _ _ _) fun _ => still_sequential.pure rc

/-- The calls that name a file send nothing. -/
theorem mute_writeAllFile (path data : Bytes) : Mute (writeAllFile path data) :=
  mute_common.writeAllFile data (fun _ _ => Quiet.mute trivial) (Quiet.mute trivial)

theorem mute_ensureParentDirs (path : Bytes) : Mute (pathEnsureParentDirs path) :=
  mute_common.ensureParentDirs path fun _ _ => Quiet.mute trivial

theorem replies_setfile (henv : Polite env) (path data : Bytes) :
    Replies [] (Suits (.setfile path data)) (opSetfile env client path data) := by
  have hR : Fallible (Suits (.setfile path data)) := fun _ text => .inr ⟨text, rfl⟩
  apply replies_withPath hR
  intro full lock
  apply (mute_writeAllFile full data).then
  intro g ok
  split
  · apply still_errno.then
    intro e
    exact (still_locking.release lock).then fun _ => replies_failure hR (henv e)
  · exact (still_locking.release lock).then fun _ => replies_ok (.inl rfl)

theorem replies_delfile (henv : Polite env) (path : Bytes) :
    Replies [] (Suits (.delfile path)) (opDelfile env client path) := by
  have hR : Fallible (Suits (.delfile path)) := fun _ text => .inr (.inr ⟨text, rfl⟩)
  apply replies_withPath hR
  intro full lock
  refine Still.then (Quiet.still trivial) fun ok => ?_
  split
  · apply still_errno.then
    intro e
    apply (still_locking.release lock).then
    intro _
    split
    · exact (still_log _ _ _ _ _).then fun _ => replies_integer (.inl rfl) (by decide)
    · exact replies_failure hR (henv e)
  · apply (still_locking.release lock).then
    intro _
    exact (still_log _ _ _ _ _).then fun _ =>
      replies_integer (.inr (.inl rfl)) (by decide)

theorem replies_statfile (henv : Polite env) (path : Bytes) :
    Replies [] (Suits (.statfile path)) (opStatfile env client path) := by
  have hR : Fallible (Suits (.statfile path)) := fun _ text => .inr (.inr ⟨text, rfl⟩)
  apply replies_withPath hR
  intro full lock
  refine Still.then (Quiet.still trivial) fun st => ?_
  cases st with
  | none =>
    apply still_errno.then
    intro e
    apply (still_locking.release lock).then
    intro _
    split
    · exact (still_log _ _ _ _ _).then fun _ => replies_nullBulk (.inr (.inl rfl))
    · exact replies_failure hR (henv e)
  | some st =>
    apply (still_locking.release lock).then
    intro _
    split
    · exact replies_failure hR (by decide)
    · next out hout =>
      simp only [snprintf, Option.ite_none_left_eq_some, Option.some.injEq] at hout
      obtain ⟨hlen, rfl⟩ := hout
      apply (still_log _ _ _ _ _).then
      intro _
      exact replies_bulk (.inl ⟨st, rfl⟩) (by omega)

theorem replies_renamefile (henv : Polite env) (src dst : Bytes) :
    Replies [] (Suits (.renamefile src dst)) (opRenamefile env client src dst) := by
  have hR : Fallible (Suits (.renamefile src dst)) := fun _ text => .inr ⟨text, rfl⟩
  apply replies_withTwoPaths hR
  intro a b locks
  apply (mute_ensureParentDirs b).then
  intro g made
  split
  · exact replies_failLast hR henv
  · refine Still.then (Quiet.still trivial) fun ok => ?_
    split
    · exact replies_failLast hR henv
    · exact (still_locking.releaseTwo locks).then fun _ => replies_ok (.inl rfl)

theorem replies_failCopy (hR : Fallible R) (henv : Polite env) (srcFd dstFd : Nat)
    (locks : TwoLocks) : Replies g R (failCopy env client srcFd dstFd locks target) :=
  still_errno.then fun _ => Still.then (Quiet.still trivial) fun _ =>
    Still.then (Quiet.still trivial) fun _ => replies_failTwo hR henv

theorem replies_copyfile (henv : Polite env) (src dst : Bytes) :
    Replies [] (Suits (.copyfile src dst)) (opCopyfile env client src dst) := by
  have hR : Fallible (Suits (.copyfile src dst)) := fun _ text => .inr ⟨text, rfl⟩
  apply replies_withTwoPaths hR
  intro a b locks
  refine Still.then (Quiet.still trivial) fun srcFd => ?_
  cases srcFd with
  | none =>
    apply still_errno.then
    intro e
    apply (still_locking.releaseTwo locks).then
    intro _
    split
    · exact (still_log _ _ _ _ _).then fun _ => replies_error (hR _ _) (by decide)
    · exact replies_failure hR (henv e)
  | some srcFd =>
    have hfail : ∀ g, Replies g (Suits (.copyfile src dst)) (do
        let e ← ask .errno
        let _ ← ask (.close srcFd)
        failTwo env client locks "COPYFILE" dst e) :=
      fun g => still_errno.then fun e => Still.then (Quiet.still trivial) fun _ =>
        replies_failTwo hR henv
    apply (mute_ensureParentDirs b).then
    intro g made
    split
    · exact hfail g
    · refine Still.then (Quiet.still trivial) fun dstFd => ?_
      cases dstFd with
      | none => exact hfail g
      | some dstFd =>
        apply (mute_copyLoop srcFd dstFd).then
        intro g result
        cases result with
        | readFailed => exact replies_failCopy hR henv srcFd dstFd locks
        | writeFailed => exact replies_failCopy hR henv srcFd dstFd locks
        | done =>
          refine Still.then (Quiet.still trivial) fun synced => ?_
          split
          · exact replies_failCopy hR henv srcFd dstFd locks
          · refine Still.then (Quiet.still trivial) fun _ => ?_
            refine Still.then (Quiet.still trivial) fun _ => ?_
            exact (still_locking.releaseTwo locks).then fun _ => replies_ok (.inl rfl)

theorem replies_recode (hR : Fallible R) (hok : ∀ g, R g (.simple (ascii "OK")))
    (henv : Polite env) {codec : Bytes → Server (Option Bytes)} (hcodec : ∀ input, Mute (codec input))
    {detail : String} {src dst : Bytes} :
    Replies [] R (opRecode env client command codec detail src dst) := by
  apply replies_withTwoPaths hR
  intro a b locks
  apply (mute_common.readAllFile (Quiet.mute trivial)).then
  intro g buf
  cases buf with
  | none => exact replies_failLast hR henv
  | some buf =>
    apply (hcodec buf).then
    intro g out
    cases out with
    | none => exact replies_failLast hR henv
    | some out =>
      apply (mute_writeAllFile b out).then
      intro g ok
      split
      · exact replies_failLast hR henv
      · exact (still_locking.releaseTwo locks).then fun _ => replies_ok (hok g)

/-- An operation that only replies has something to say that fits into a reply. -/
def Decent : Operation → Prop
  | .replySimple msg => OneLine msg ∧ msg.length ≤ 252
  | .replyError msg => Presentable msg
  | .replyBulk data => data.length < 10 ^ 20
  | _ => True

/-- Every operation comes to one reply. -/
theorem replies_operation (henv : Polite env) {op : Operation} (hop : Decent op) :
    Replies [] (Suits op) (op.run env client) := by
  have hor : ∀ {a : Prop} {text : Bytes}, a ∨ IsError (.error text) := .inr ⟨_, rfl⟩
  cases op with
  | replySimple msg => exact replies_simple rfl hop.1 hop.2
  | replyError msg => exact replies_error rfl hop
  | replyBulk data => exact replies_bulk rfl hop
  | getfile path => exact replies_getfile henv path
  | setfile path data => exact replies_setfile henv path data
  | delfile path => exact replies_delfile henv path
  | renamefile src dst => exact replies_renamefile henv src dst
  | copyfile src dst => exact replies_copyfile henv src dst
  | statfile path => exact replies_statfile henv path
  | logs limit => exact replies_logs henv limit
  | compress src dst =>
    exact replies_recode (fun _ _ => hor) (fun _ => .inl rfl) henv mute_common.compress
  | decompress src dst =>
    exact replies_recode (fun _ _ => hor) (fun _ => .inl rfl) henv mute_common.decompress

end ServerReplies
