import Xv6Filesrv.ServerDiscipline

/-!
# What an operation touches

The calls that an operation can make, whatever they are answered: which of its paths it opens, and
how, where it makes directories, what it removes and renames, and what it writes to the log.
-/

namespace ServerAccess

open ServerResp ServerPaths ServerOps ServerCalls ServerDiscipline ProgramRuns

/-- The paths that an operation opens. -/
def opens : Operation → Mode → List Bytes
  | .getfile path, .read => [path]
  | .setfile path _, .write => [path]
  | .copyfile src _, .read | .compress src _, .read | .decompress src _, .read => [src]
  | .copyfile _ dst, .write | .compress _ dst, .write | .decompress _ dst, .write => [dst]
  | _, _ => []

/-- The paths whose parent directories an operation creates. -/
def places : Operation → List Bytes
  | .setfile path _ => [path]
  | .renamefile _ dst | .copyfile _ dst | .compress _ dst | .decompress _ dst => [dst]
  | _ => []

theorem opens_paths {op : Operation} {mode : Mode} {rel : Bytes} (h : rel ∈ opens op mode) :
    rel ∈ paths op := by
  cases op <;> cases mode <;> simp_all [opens, paths]

theorem places_paths {op : Operation} {rel : Bytes} (h : rel ∈ places op) : rel ∈ paths op := by
  cases op <;> simp_all [places, paths]

/-- No path of the operation is refused. -/
def Accepted (env : Env) (op : Operation) : Prop :=
  ∀ rel ∈ paths op, (pathBuild env.dataDir rel pathMax).isSome

/-- What `logger_log` writes for an operation at the time `ts`: the server's own words have no
newline, but there are also the paths of the request and the texts of errors. -/
def Record (env : Env) (client : Bytes) (op : Operation) (ts line : Bytes) : Prop :=
  ∃ command target status detail, line = logLine ts client command target status detail ∧
    10 ∉ command ∧ (target ∈ paths op ∨ 10 ∉ target) ∧ 10 ∉ status ∧
    ((∃ e, detail = env.strerror e) ∨ 10 ∉ detail)

/-- The calls that an operation may make, if the clock gives texts in `times`. -/
def Permits (env : Env) (client : Bytes) (times : Bytes → Prop) (op : Operation) : Call → Prop
  | .open full mode => Accepted env op ∧
      ∃ rel ∈ opens op mode, pathBuild env.dataDir rel pathMax = some full
  | .mkdir dir => Accepted env op ∧
      ∃ rel ∈ places op, ∃ full, pathBuild env.dataDir rel pathMax = some full ∧
        dir ∈ parentDirs full
  | .unlink full => Accepted env op ∧
      ∃ rel, op = .delfile rel ∧ pathBuild env.dataDir rel pathMax = some full
  | .rename full full' => Accepted env op ∧
      ∃ src dst, op = .renamefile src dst ∧ pathBuild env.dataDir src pathMax = some full ∧
        pathBuild env.dataDir dst pathMax = some full'
  | .stat full => Accepted env op ∧
      ∃ rel, op = .statfile rel ∧ pathBuild env.dataDir rel pathMax = some full
  | .fprintf line => ∃ ts, times ts ∧ Record env client op ts line
  | .send _ => True
  | c => Usual c

/-- Answers with such texts for the time. -/
def Timed (times : Bytes → Prop) : (c : Call) → Answer c → Prop
  | .time, ts => times ts
  | _, _ => True

variable {env : Env} {client : Bytes} {times : Bytes → Prop} {op : Operation}

theorem permits_usual (c : Call) (hc : Usual c) : Permits env client times op c := by
  cases c <;> first | exact hc | exact hc.elim

/-- The program makes only calls that the operation permits. -/
abbrev Obeys (env : Env) (client : Bytes) (times : Bytes → Prop) (op : Operation) {α : Type}
    (p : Server α) : Prop :=
  Makes (Permits env client times op) (Timed times) p

theorem obeys_common : Common (Obeys env client times op) := makes_common permits_usual

theorem obeys_sendAll (buf : Bytes) : Obeys env client times op (sendAll buf) :=
  makes_sendAll (fun _ => trivial) (permits_usual _ trivial) buf

theorem obeys_replyLine (n : Nat) (line : Bytes) : Obeys env client times op (replyLine n line) :=
  obeys_common.replyLine obeys_sendAll n line

theorem obeys_replyBulk (data : Bytes) : Obeys env client times op (respReplyBulk data) :=
  obeys_common.replyBulk obeys_sendAll data

section Parts

variable {command status : String} {target detail : Bytes}

section Target

variable (hcommand : 10 ∉ ascii command) (htarget : target ∈ paths op ∨ 10 ∉ target)
include hcommand htarget

theorem obeys_log (hstatus : 10 ∉ ascii status)
    (hdetail : (∃ e, detail = env.strerror e) ∨ 10 ∉ detail) :
    Obeys env client times op (loggerLog client command target status detail) := by
  refine ⟨trivial, fun ts hts => ?_⟩
  refine obeys_common.after trivial fun _ => obeys_common.after trivial fun found => ?_
  split
  · refine makes_then ?_ fun _ => obeys_common.after trivial fun _ => obeys_common.usual _ trivial
    exact ⟨ts, hts, _, _, _, _, rfl, hcommand, htarget, hstatus, hdetail⟩
  · exact obeys_common.usual _ trivial

theorem obeys_replyFailure (hdetail : (∃ e, detail = env.strerror e) ∨ 10 ∉ detail) :
    Obeys env client times op (replyFailure client command target detail) :=
  (obeys_log hcommand htarget (by decide) hdetail).bind fun _ => obeys_replyLine _ _

theorem obeys_replyLockFailure :
    Obeys env client times op (replyLockFailure client command target) :=
  (obeys_log hcommand htarget (by decide) (.inr (by decide))).bind fun _ =>
    obeys_replyLine _ _

/-- An event that is logged, and the answer to it. -/
theorem obeys_report {α : Type} {reply : Server α} (hstatus : 10 ∉ ascii status)
    (hdetail : 10 ∉ detail) (hreply : Obeys env client times op reply) :
    Obeys env client times op (do
      loggerLog client command target status detail
      reply) :=
  (obeys_log hcommand htarget hstatus (.inr hdetail)).bind fun _ => hreply

theorem obeys_failTwo {locks : TwoLocks} {e : Errno} :
    Obeys env client times op (failTwo env client locks command target e) :=
  (obeys_common.releaseTwo locks).bind fun _ =>
    obeys_replyFailure hcommand htarget (.inl ⟨e, rfl⟩)

/-- The same, with the error that was reported last. -/
theorem obeys_failLast {locks : TwoLocks} :
    Obeys env client times op (do
      let e ← ask .errno
      failTwo env client locks command target e) :=
  obeys_common.after trivial fun _ => obeys_failTwo hcommand htarget

end Target

theorem obeys_withTwoPaths {src dst refused : Bytes} {body : Bytes → Bytes → TwoLocks → Server Bool}
    (hpaths : paths op = [src, dst]) (hcommand : 10 ∉ ascii command)
    (hrefused : refused ∈ paths op ∨ 10 ∉ refused)
    (hbody : ∀ a b locks, Accepted env op → pathBuild env.dataDir src pathMax = some a →
      pathBuild env.dataDir dst pathMax = some b → Obeys env client times op (body a b locks)) :
    Obeys env client times op (withTwoPaths env client command src dst refused body) := by
  unfold withTwoPaths
  split
  · next a b ha hb =>
    have hacc : Accepted env op := by
      intro rel hrel
      rw [hpaths] at hrel
      rcases List.mem_pair.mp hrel with rfl | rfl
      · rw [ha]
        rfl
      · rw [hb]
        rfl
    apply (obeys_common.acquireTwo a b).bind
    intro locks
    cases locks with
    | none => exact obeys_replyLockFailure hcommand (.inl (by simp [hpaths]))
    | some locks => exact hbody a b locks hacc ha hb
  · exact obeys_replyFailure hcommand hrefused (.inr (by decide))

end Parts

theorem accepted_one {path full : Bytes} (hpaths : paths op = [path])
    (hb : pathBuild env.dataDir path pathMax = some full) : Accepted env op := by
  intro rel hrel
  rw [hpaths, List.mem_singleton] at hrel
  rw [hrel, hb]
  rfl

/-- An operation on one file: the path is built and locked before anything else is done. -/
theorem obeys_withPath {path : Bytes} {command : String} {acquire : Bytes → Server (Option Entry)}
    {body : Bytes → Entry → Server Bool} (hpaths : paths op = [path])
    (hcommand : 10 ∉ ascii command) (hacquire : ∀ full, Obeys env client times op (acquire full))
    (hbody : ∀ full lock, Accepted env op → pathBuild env.dataDir path pathMax = some full →
      Obeys env client times op (body full lock)) :
    Obeys env client times op (withPath env client acquire command path body) := by
  have htarget : path ∈ paths op ∨ 10 ∉ path := .inl (by rw [hpaths]; exact List.mem_cons_self)
  unfold withPath
  split
  · exact obeys_replyFailure hcommand htarget (.inr (by decide))
  · next full hb =>
    apply (hacquire full).bind
    intro lock
    cases lock with
    | none => exact obeys_replyLockFailure hcommand htarget
    | some lock => exact hbody full lock (accepted_one hpaths hb) hb

theorem obeys_getfile (path : Bytes) :
    Obeys env client times (.getfile path) (opGetfile env client path) := by
  have htarget : path ∈ paths (.getfile path) := List.mem_singleton.mpr rfl
  apply obeys_withPath rfl (by decide) (obeys_common.locksAcquire .read)
  intro full lock hacc hb
  have hopen : Permits env client times (.getfile path) (.open full .read) :=
    ⟨hacc, path, List.mem_singleton.mpr rfl, hb⟩
  apply (obeys_common.readAllFile (Makes.perform hopen)).bind
  intro out
  cases out with
  | none =>
    refine obeys_common.after trivial fun e => ?_
    apply (obeys_common.release lock).bind
    intro _
    split
    · exact obeys_report (by decide) (.inl htarget) (by decide) (by decide)
        (obeys_sendAll _)
    · split
      · exact obeys_replyFailure (by decide) (.inl htarget) (.inr (by decide))
      · exact obeys_replyFailure (by decide) (.inl htarget) (.inl ⟨e, rfl⟩)
  | some buf =>
    apply (obeys_common.release lock).bind
    intro _
    apply (obeys_replyBulk buf).bind
    intro rc
    exact obeys_report (by decide) (.inl htarget) (by decide) (by decide) Makes.pure

theorem obeys_setfile (path data : Bytes) :
    Obeys env client times (.setfile path data) (opSetfile env client path data) := by
  have htarget : path ∈ paths (.setfile path data) := List.mem_singleton.mpr rfl
  apply obeys_withPath rfl (by decide) (obeys_common.locksAcquire .write)
  intro full lock hacc hb
  have hopen : Permits env client times (.setfile path data) (.open full .write) :=
    ⟨hacc, path, List.mem_singleton.mpr rfl, hb⟩
  apply (obeys_common.writeAllFile data (fun d hd => Makes.perform
    ⟨hacc, path, List.mem_singleton.mpr rfl, full, hb, hd⟩) (Makes.perform hopen)).bind
  intro ok
  split
  · refine obeys_common.after trivial fun e => ?_
    apply (obeys_common.release lock).bind
    intro _
    exact obeys_replyFailure (by decide) (.inl htarget) (.inl ⟨e, rfl⟩)
  · apply (obeys_common.release lock).bind
    intro _
    exact obeys_report (by decide) (.inl htarget) (by decide) (by decide)
      (obeys_replyLine _ _)

theorem obeys_delfile (path : Bytes) :
    Obeys env client times (.delfile path) (opDelfile env client path) := by
  have htarget : path ∈ paths (.delfile path) := List.mem_singleton.mpr rfl
  apply obeys_withPath rfl (by decide) (obeys_common.locksAcquire .write)
  intro full lock hacc hb
  have hunlink : Permits env client times (.delfile path) (.unlink full) :=
    ⟨hacc, path, rfl, hb⟩
  refine makes_then hunlink fun ok => ?_
  split
  · refine obeys_common.after trivial fun e => ?_
    apply (obeys_common.release lock).bind
    intro _
    split
    · exact obeys_report (by decide) (.inl htarget) (by decide) (by decide)
        (obeys_replyLine _ _)
    · exact obeys_replyFailure (by decide) (.inl htarget) (.inl ⟨e, rfl⟩)
  · apply (obeys_common.release lock).bind
    intro _
    exact obeys_report (by decide) (.inl htarget) (by decide) (by decide)
      (obeys_replyLine _ _)

theorem obeys_statfile (path : Bytes) :
    Obeys env client times (.statfile path) (opStatfile env client path) := by
  have htarget : path ∈ paths (.statfile path) := List.mem_singleton.mpr rfl
  apply obeys_withPath rfl (by decide) (obeys_common.locksAcquire .read)
  intro full lock hacc hb
  have hstat : Permits env client times (.statfile path) (.stat full) :=
    ⟨hacc, path, rfl, hb⟩
  refine makes_then hstat fun st => ?_
  cases st with
  | none =>
    refine obeys_common.after trivial fun e => ?_
    apply (obeys_common.release lock).bind
    intro _
    split
    · exact obeys_report (by decide) (.inl htarget) (by decide) (by decide)
        (obeys_sendAll _)
    · exact obeys_replyFailure (by decide) (.inl htarget) (.inl ⟨e, rfl⟩)
  | some st =>
    apply (obeys_common.release lock).bind
    intro _
    split
    · exact obeys_replyFailure (by decide) (.inl htarget) (.inr (by decide))
    · exact obeys_report (by decide) (.inl htarget) (by decide) (by decide)
        (obeys_replyBulk _)

theorem obeys_logs (limit : Int) : Obeys env client times (.logs limit) (opLogs env client limit) := by
  apply (obeys_common.readLogTail limit).bind
  intro out
  cases out with
  | none =>
    refine obeys_common.after trivial fun e => ?_
    apply (obeys_log (by decide) (.inr (by decide)) (by decide) (.inl ⟨e, rfl⟩)).bind
    intro _
    exact obeys_common.after trivial fun _ => obeys_replyLine _ _
  | some buf =>
    apply (obeys_replyBulk buf).bind
    intro rc
    exact obeys_report (by decide) (.inr (by decide)) (by decide) (by decide) Makes.pure

theorem obeys_renamefile (src dst : Bytes) :
    Obeys env client times (.renamefile src dst) (opRenamefile env client src dst) := by
  have hsrc : src ∈ paths (.renamefile src dst) := List.mem_pair.mpr (.inl rfl)
  apply obeys_withTwoPaths rfl (by decide) (.inr (by decide))
  intro a b locks hacc ha hb
  apply (obeys_common.ensureParentDirs b
    fun d hd => Makes.perform ⟨hacc, dst, List.mem_singleton.mpr rfl, b, hb, hd⟩).bind
  intro made
  split
  · exact obeys_failLast (by decide) (.inl hsrc)
  · have hrename : Permits env client times (.renamefile src dst) (.rename a b) :=
      ⟨hacc, src, dst, rfl, ha, hb⟩
    refine makes_then hrename fun ok => ?_
    split
    · exact obeys_failLast (by decide) (.inl hsrc)
    · apply (obeys_common.releaseTwo locks).bind
      intro _
      exact obeys_report (by decide) (.inl hsrc) (by decide) (by decide)
        (obeys_replyLine _ _)

theorem obeys_failCopy {src dst target : Bytes} (srcFd dstFd : Nat) (locks : TwoLocks)
    (htarget : target ∈ paths (.copyfile src dst)) :
    Obeys env client times (.copyfile src dst) (failCopy env client srcFd dstFd locks target) := by
  refine obeys_common.after trivial fun e => ?_
  refine obeys_common.after trivial fun _ => ?_
  refine obeys_common.after trivial fun _ => ?_
  exact obeys_failTwo (by decide) (.inl htarget)

theorem obeys_copyfile (src dst : Bytes) :
    Obeys env client times (.copyfile src dst) (opCopyfile env client src dst) := by
  have hsrc : src ∈ paths (.copyfile src dst) := List.mem_pair.mpr (.inl rfl)
  have hdst : dst ∈ paths (.copyfile src dst) := List.mem_pair.mpr (.inr rfl)
  apply obeys_withTwoPaths rfl (by decide) (.inr (by decide))
  intro a b locks hacc ha hb
  have hopen : Permits env client times (.copyfile src dst) (.open a .read) :=
    ⟨hacc, src, List.mem_singleton.mpr rfl, ha⟩
  have hopen' : Permits env client times (.copyfile src dst) (.open b .write) :=
    ⟨hacc, dst, List.mem_singleton.mpr rfl, hb⟩
  refine makes_then hopen fun srcFd => ?_
  cases srcFd with
  | none =>
    refine obeys_common.after trivial fun e => ?_
    apply (obeys_common.releaseTwo locks).bind
    intro _
    split
    · exact obeys_report (by decide) (.inl hsrc) (by decide) (by decide)
        (obeys_replyLine _ _)
    · exact obeys_replyFailure (by decide) (.inl hsrc) (.inl ⟨e, rfl⟩)
  | some srcFd =>
    have hfail : Obeys env client times (.copyfile src dst) (do
        let e ← ask .errno
        let _ ← ask (.close srcFd)
        failTwo env client locks "COPYFILE" dst e) := by
      refine obeys_common.after trivial fun e => ?_
      refine obeys_common.after trivial fun _ => ?_
      exact obeys_failTwo (by decide) (.inl hdst)
    apply (obeys_common.ensureParentDirs b
      fun d hd => Makes.perform ⟨hacc, dst, List.mem_singleton.mpr rfl, b, hb, hd⟩).bind
    intro made
    split
    · exact hfail
    · refine makes_then hopen' fun dstFd => ?_
      cases dstFd with
      | none => exact hfail
      | some dstFd =>
        apply (obeys_common.copyLoop srcFd dstFd).bind
        intro result
        cases result with
        | readFailed => exact obeys_failCopy srcFd dstFd locks hsrc
        | writeFailed => exact obeys_failCopy srcFd dstFd locks hdst
        | done =>
          refine obeys_common.after trivial fun synced => ?_
          split
          · exact obeys_failCopy srcFd dstFd locks hdst
          · refine obeys_common.after trivial fun _ => ?_
            refine obeys_common.after trivial fun _ => ?_
            apply (obeys_common.releaseTwo locks).bind
            intro _
            exact obeys_report (by decide) (.inl hsrc) (by decide) (by decide)
              (obeys_replyLine _ _)

/-- `COMPRESS` and `DECOMPRESS`. -/
theorem obeys_recode {command detail : String} {codec : Bytes → Server (Option Bytes)}
    {src dst : Bytes} (hpaths : paths op = [src, dst]) (hread : opens op .read = [src])
    (hwrite : opens op .write = [dst]) (hplaces : places op = [dst])
    (hcodec : ∀ input, Obeys env client times op (codec input))
    (hcommand : 10 ∉ ascii command) (hdetail : 10 ∉ ascii detail) :
    Obeys env client times op (opRecode env client command codec detail src dst) := by
  have hsrc : src ∈ paths op := by simp [hpaths]
  have hdst : dst ∈ paths op := by simp [hpaths]
  apply obeys_withTwoPaths hpaths hcommand (.inl hsrc)
  intro a b locks hacc ha hb
  have hopen : Permits env client times op (.open a .read) := ⟨hacc, src, by simp [hread], ha⟩
  have hopen' : Permits env client times op (.open b .write) := ⟨hacc, dst, by simp [hwrite], hb⟩
  apply (obeys_common.readAllFile (Makes.perform hopen)).bind
  intro buf
  cases buf with
  | none => exact obeys_failLast hcommand (.inl hsrc)
  | some buf =>
    apply (hcodec buf).bind
    intro out
    cases out with
    | none => exact obeys_failLast hcommand (.inl hsrc)
    | some out =>
      apply (obeys_common.writeAllFile out (fun d hd => Makes.perform
        ⟨hacc, dst, by simp [hplaces], b, hb, hd⟩) (Makes.perform hopen')).bind
      intro ok
      split
      · exact obeys_failLast hcommand (.inl hdst)
      · apply (obeys_common.releaseTwo locks).bind
        intro _
        exact obeys_report hcommand (.inl hsrc) (by decide) hdetail
          (obeys_replyLine _ _)

/-- Every operation makes only the calls that it permits. -/
theorem obeys_operation (op : Operation) : Obeys env client times op (op.run env client) := by
  cases op with
  | replySimple msg => exact obeys_replyLine _ _
  | replyError msg => exact obeys_replyLine _ _
  | replyBulk data => exact obeys_replyBulk _
  | getfile path => exact obeys_getfile path
  | setfile path data => exact obeys_setfile path data
  | delfile path => exact obeys_delfile path
  | renamefile src dst => exact obeys_renamefile src dst
  | copyfile src dst => exact obeys_copyfile src dst
  | statfile path => exact obeys_statfile path
  | logs limit => exact obeys_logs limit
  | compress src dst =>
    exact obeys_recode rfl rfl rfl rfl obeys_common.compress (by decide) (by decide)
  | decompress src dst =>
    exact obeys_recode rfl rfl rfl rfl obeys_common.decompress (by decide) (by decide)

end ServerAccess
