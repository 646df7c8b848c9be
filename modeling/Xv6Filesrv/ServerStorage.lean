import Xv6Filesrv.ServerConfinement
import Xv6Filesrv.ServerReliable

/-!
# What is stored comes back

A file that was written is read as it was written, and a file that was compressed is restored, as
long as `read_all_file` does not find the file too large.
-/

namespace ServerStorage

open FileTree ServerResp ServerPaths ServerRle ServerOps ServerFiles ServerReplyFormat
  ServerReliable ProgramRuns

variable {env : Env} {m m' m'' : Machine} {client : Bytes}

/-! ## Reports -/

/-- What a record in the log does to the files. -/
def Entered (env : Env) (record : Bytes → Bytes) (t t' : Tree Bytes Bytes) : Prop :=
  t.node (logKey env) = some .dir ∧ t' = t ∨
  ∃ ts, 10 ∉ ts ∧ Puts (logKey env) (contentAt t (logKey env) ++ record ts) t t'

theorem Entered.kept {record : Bytes → Bytes} {t t' : Tree Bytes Bytes} {key : List Bytes}
    (h : Entered env record t t') (hkey : logKey env ≠ key) : t'.node key = t.node key := by
  rcases h with ⟨-, rfl⟩ | ⟨ts, -, hputs⟩
  · rfl
  · exact hputs.other hkey.symm

theorem Logged.entered {record : Bytes → Bytes} (h : Logged env record m m') :
    (∃ lines, Did [] lines m m') ∧ Entered env record m.tree m'.tree := by
  rcases h with ⟨hdir, hcalm⟩ | ⟨-, ts, hts, hdid, hputs⟩
  · exact ⟨⟨[], hcalm.toDid⟩, .inl ⟨hdir, hcalm.tree⟩⟩
  · exact ⟨⟨_, hdid⟩, .inr ⟨ts, hts, hputs⟩⟩

/-- Something other than `+OK` was answered. -/
def Denied (m m' : Machine) : Prop := ∃ sent lines, Denial sent ∧ Did sent lines m m'

theorem Did.denied {lines : List Bytes} (h : Did [] lines m m') (h' : Denied m' m'') :
    Denied m m'' := by
  obtain ⟨sent, lines', hdenial, hdid⟩ := h'
  exact ⟨sent, lines ++ lines', hdenial, h.trans hdid⟩

theorem ends_replyFailure (client : Bytes) (command : String) (target text : Bytes) (m : Machine) :
    Ends (Reliable env) (fun _ => Denied m) (replyFailure client command target text) m := by
  apply Ends.bind
  refine (ends_log client command target "ERR" text m).mono fun _ m₁ h₁ => ?_
  obtain ⟨⟨lines, hdid⟩, -⟩ := Logged.entered h₁
  refine (ends_error text m₁).mono ?_
  rintro _ m₂ ⟨sent, hdenial, hcalm⟩
  exact Did.denied hdid ⟨sent, [], hdenial, hcalm.toDid⟩

theorem ends_failTwo (locks : TwoLocks) (command : String) (target : Bytes) (e : Errno)
    (m : Machine) :
    Ends (Reliable env) (fun _ => Denied m) (failTwo env client locks command target e) m :=
  (calms_releaseTwo locks).ends fun _ m₁ _ h₁ =>
    (ends_replyFailure client command target _ m₁).mono fun _ _ h => Did.denied h₁.toDid h

/-- A success is logged and answered. -/
theorem ends_success (command : String) (target : Bytes) (detail : Bytes) (m : Machine) :
    Ends (Reliable env) (fun _ m' => (∃ lines, Did okReply lines m m') ∧ Entered env
      (fun ts => logLine ts client (ascii command) target (ascii "OK") detail) m.tree m'.tree)
      (do
        loggerLog client command target "OK" detail
        respReplySimple (ascii "OK")) m := by
  apply Ends.bind
  refine (ends_log client command target "OK" detail m).mono fun _ m₁ h₁ => ?_
  obtain ⟨⟨lines, hdid⟩, hentered⟩ := Logged.entered h₁
  refine (ends_ok m₁).mono fun _ m₂ h₂ => ?_
  rw [h₂.tree]
  exact ⟨⟨_, hdid.trans h₂.toDid⟩, hentered⟩

/-! ## `SETFILE` and `GETFILE` -/

/-- A file with the content is stored, if that is what the answer says. -/
structure Stores (env : Env) (record : Bytes → Bytes) (path content : Bytes) (m m' : Machine)
    (sent : Bytes) : Prop where
  did : ∃ lines, Did sent lines m m'
  stored : sent = okReply → Bare path ∧
    ∃ t, t.node (resolve path) = some (.file content) ∧ Entered env record t m'.tree

theorem Denied.stores {record : Bytes → Bytes} {path content : Bytes} (h : Denied m m') :
    ∃ sent, Denial sent ∧ Stores env record path content m m' sent := by
  obtain ⟨sent, lines, hdenial, hdid⟩ := h
  exact ⟨sent, hdenial, ⟨lines, hdid⟩, fun he => absurd he hdenial.ne⟩

theorem ends_setfile (client : Bytes) {path full : Bytes}
    (hb : pathBuild env.dataDir path pathMax = some full) (data : Bytes) (m : Machine) :
    Ends (Reliable env) (fun _ m' => ∃ sent,
      Stores env (fun ts => logLine ts client (ascii "SETFILE") path (ascii "OK")
        (ascii "write success")) path data m m' sent ∧
      (Bare path → (∃ b, m.tree.node (resolve path) = some (.file b)) → sent = okReply))
      (opSetfile env client path data) m := by
  unfold opSetfile withPath
  rw [hb]
  refine (calms_locksAcquire .write full).ends fun lock m₁ hlock h₁ => ?_
  cases lock with
  | none => exact absurd rfl hlock
  | some lock =>
    apply Ends.bind
    refine (ends_writeAllFile (below_build hb) (pathBuild_fits hb) data m₁).mono ?_
    rintro ok m₂ ⟨h₂, hstored, hsure⟩
    have h₁₂ := h₁.toDid.trans h₂
    cases ok with
    | false =>
      refine ends_sure trivial fun e m₃ _ h₃ => (calms_release lock).ends fun _ m₄ _ h₄ => ?_
      refine (ends_replyFailure client "SETFILE" path _ m₄).mono fun _ m₅ h₅ => ?_
      obtain ⟨sent, -, hstores⟩ := Denied.stores (Did.denied (h₁₂.trans (h₃.trans h₄).toDid) h₅)
      refine ⟨sent, hstores, fun hbare hfile => ?_⟩
      rw [← h₁.tree] at hfile
      cases (hsure hbare hfile).1
    | true =>
      refine (calms_release lock).ends fun _ m₃ _ h₃ => ?_
      refine (ends_success "SETFILE" path (ascii "write success") m₃).mono ?_
      rintro _ m₄ ⟨⟨lines, hdid⟩, hentered⟩
      refine ⟨okReply, ⟨⟨_, (h₁₂.trans h₃.toDid).trans hdid⟩, fun _ => ?_⟩, fun _ _ => rfl⟩
      rw [h₃.tree] at hentered
      exact ⟨(hstored rfl).1, m₂.tree, (hstored rfl).2, hentered⟩

/-- The reply to `GETFILE` for a file that is there. -/
def readReply (content : Bytes) : Reply :=
  if content.length ≤ maxFileSize then .bulk content else .error (ascii "ERR file too large")

theorem ends_tooLarge (path : Bytes) (m : Machine) :
    Ends (Reliable env) (fun _ m' => ∃ lines,
      Did (Reply.error (ascii "ERR file too large")).encode lines m m')
      (replyFailure client "GETFILE" path (ascii "file too large")) m := by
  have hshort : (Reply.error (ascii "ERR file too large")).encode.length < 512 := by decide
  apply Ends.bind
  refine (ends_log client "GETFILE" path "ERR" (ascii "file too large") m).mono fun _ m₁ h₁ => ?_
  obtain ⟨⟨lines, hdid⟩, -⟩ := Logged.entered h₁
  exact (ends_line hshort m₁).mono fun _ m₂ h₂ => ⟨_, hdid.trans h₂.2.toDid⟩

theorem ends_getfile (client : Bytes) {path full content : Bytes}
    (hb : pathBuild env.dataDir path pathMax = some full) (hbare : Bare path)
    (hfile : m.tree.node (resolve path) = some (.file content)) :
    Ends (Reliable env) (fun _ m' => ∃ lines, Did (readReply content).encode lines m m')
      (opGetfile env client path) m := by
  unfold opGetfile withPath
  rw [hb]
  refine (calms_locksAcquire .read full).ends fun lock m₁ hlock h₁ => ?_
  cases lock with
  | none => exact absurd rfl hlock
  | some lock =>
    rw [← h₁.tree] at hfile
    apply Ends.bind
    refine (ends_readAllFile (below_build hb) hfile hbare).mono ?_
    rintro out m₂ ⟨h₂, hout⟩
    have h₁₂ := h₁.trans h₂
    unfold readReply
    split at hout
    · next hsmall =>
      cases hout
      rw [if_pos hsmall]
      refine (calms_release lock).ends fun _ m₃ _ h₃ => ?_
      have hlen : content.length < 10 ^ 20 := by
        have : maxFileSize = 67108864 := rfl
        omega
      apply Ends.bind
      refine (ends_bulk hlen m₃).mono fun _ m₄ h₄ => ?_
      apply Ends.bind
      refine (ends_log client "GETFILE" path "OK" (ascii "read success") m₄).mono fun _ m₅ h₅ => ?_
      obtain ⟨⟨lines, hdid⟩, -⟩ := Logged.entered h₅
      have hall := ((h₁₂.trans h₃).trans h₄).toDid.trans hdid
      simp only [List.nil_append, List.append_nil] at hall
      exact Ends.pure ⟨_, hall⟩
    · next hlarge =>
      obtain ⟨rfl, herrno⟩ := hout
      rw [if_neg hlarge]
      apply Ends.bind
      apply ends_call .errno ⟨_, _, .inl ⟨rfl, rfl⟩⟩
      rintro e m₃ (⟨rfl, rfl⟩ | ⟨hr, -⟩)
      · refine (calms_release lock).ends fun _ m₃ _ h₃ => ?_
        rw [herrno, if_neg nofun, if_pos rfl]
        refine (ends_tooLarge path m₃).mono ?_
        rintro _ m₄ ⟨lines, hdid⟩
        exact ⟨_, (h₁₂.trans h₃).toDid.trans hdid⟩
      · exact hr.elim

theorem Did.answered {sent sent' : Bytes} {lines : List Bytes} (h : Did sent lines m m')
    (hout : m'.out = m.out ++ sent') : sent = sent' :=
  List.append_cancel_left (h.out.symm.trans hout)

/-- If `SETFILE` is answered with `+OK` then the content is stored. -/
theorem stored_of_ok {path data : Bytes} {b : Bool}
    (hr : Runs (Reliable env) (opSetfile env client path data) m b m')
    (hok : m'.out = m.out ++ okReply) (hlog : logKey env ≠ resolve path) :
    (∃ full, pathBuild env.dataDir path pathMax = some full) ∧ Bare path ∧
      m'.tree.node (resolve path) = some (.file data) := by
  cases hb : pathBuild env.dataDir path pathMax with
  | none =>
    unfold opSetfile withPath at hr
    rw [hb] at hr
    obtain ⟨sent, lines, hdenial, hdid⟩ := (ends_replyFailure client _ _ _ m).of_runs hr
    exact absurd (Did.answered hdid hok) hdenial.ne
  | some full =>
    obtain ⟨sent, ⟨⟨lines, hdid⟩, hstored⟩, -⟩ := (ends_setfile client hb data m).of_runs hr
    obtain ⟨hbare, t, hfile, hentered⟩ := hstored (Did.answered hdid hok)
    refine ⟨⟨full, rfl⟩, hbare, ?_⟩
    rw [hentered.kept hlog, hfile]

/-- A file is as it was after commands that do not disturb it. -/
theorem session_kept {xs : List Command} {key : List Bytes} {content : Bytes}
    (hs : Session env (Reliable env) m xs m') (hxs : ∀ x ∈ xs, ¬ Disturbs env x.op key)
    (hlog : logKey env ≠ key) (hfile : m.tree.node key = some (.file content))
    (hm : m.Unwritten key) : m'.tree.node key = some (.file content) := by
  have hkept := hs.keeps (I := fun m => m.tree.node key = some (.file content) ∧ m.Unwritten key)
    (fun x hx m b m' hr hI => run_kept hr Reliable.does (hxs x hx) hlog hI.1 hI.2) ⟨hfile, hm⟩
  exact hkept.1

/-- What was stored by `SETFILE` with the answer `+OK` is what `GETFILE` answers, or that it is too
large, whatever commands came before, and whatever commands come in between that do not disturb the
file. -/
theorem stored_file_returned {m₀ m₁ m₂ m₃ : Machine} {before later : List Command}
    {set get : Command} {path content : Bytes} {b : Bool} (hm₀ : m₀.Closed)
    (hbefore : Session env (Reliable env) m₀ before m₁) (hset : set.op = .setfile path content)
    (hrun : Runs (Reliable env) (set.run env) m₁ b m₂) (hok : m₂.out = m₁.out ++ okReply)
    (hlog : resolve path ≠ logKey env) (hlater : Session env (Reliable env) m₂ later m₃)
    (hquiet : ∀ x ∈ later, ¬ Disturbs env x.op (resolve path)) (hget : get.op = .getfile path) :
    Ends (Reliable env) (fun _ m' => m'.out = m₃.out ++ (readReply content).encode) (get.run env)
      m₃ := by
  have hclosed : m₂.Closed := by
    apply Command.closes (hrun.mono fun _ _ _ _ => Reliable.does)
    exact (hbefore.mono fun _ _ _ _ => Reliable.does).closed hm₀
  rw [Command.run, hset] at hrun
  obtain ⟨⟨full, hb⟩, hbare, hfile⟩ := stored_of_ok hrun hok hlog.symm
  have hkept := session_kept hlater hquiet hlog.symm hfile (hclosed.unwritten _)
  rw [Command.run, hget]
  refine (ends_getfile _ hb hbare hkept).mono ?_
  rintro _ m' ⟨lines, hdid⟩
  exact hdid.out

/-! ## `COMPRESS` and `DECOMPRESS` -/

theorem calms_compress (input : Bytes) :
    Calms env (fun out => out = some (rleCompress input)) (rleCompressBytes input) := by
  refine Calms.after trivial fun got hgot => ?_
  cases hgot
  exact .pure rfl

/-- What was compressed is decompressed. -/
theorem calms_decompress {input : Bytes} (hlen : input.length ≤ maxFileSize) :
    Calms env (fun out => out = some input) (rleDecompressBytes (rleCompress input)) := by
  have hhead : (rleCompress input).take 4 = rleHeader := rfl
  have hdrop : (rleCompress input).drop 4 = rleRuns input := rfl
  have htotal := rleTotal_rleRuns input 0 (by omega)
  have heven : (rleCompress input).length - 4 = (rleRuns input).length := by
    rw [rleCompress, List.length_append, rleHeader]
    simp
  unfold rleDecompressBytes
  rw [if_neg (not_not_intro hhead), hdrop, htotal, heven]
  simp only [ne_eq, rleRuns_even, not_true_eq_false, if_false, rleExpand_rleRuns]
  refine Calms.after trivial fun got hgot => ?_
  cases hgot
  exact .pure rfl

section Recode

variable {codec : Bytes → Server (Option Bytes)} {src dst srcFull dstFull content result : Bytes}
  (client : Bytes) (command detail : String)
  (hsrc : pathBuild env.dataDir src pathMax = some srcFull)
  (hdst : pathBuild env.dataDir dst pathMax = some dstFull)

include hsrc hdst

theorem ends_recode (hcodec : Calms env (fun out => out = some result) (codec content))
    (hfile : m.tree.node (resolve src) = some (.file content)) :
    Ends (Reliable env) (fun _ m' => ∃ sent,
      Stores env (fun ts => logLine ts client (ascii command) src (ascii "OK") (ascii detail)) dst
        result m m' sent ∧
      (sent = okReply → Bare src ∧ content.length ≤ maxFileSize) ∧
      (Bare src → content.length ≤ maxFileSize → Bare dst →
        (∃ b, m.tree.node (resolve dst) = some (.file b)) → sent = okReply))
      (opRecode env client command codec detail src dst) m := by
  unfold opRecode withTwoPaths
  simp only [hsrc, hdst]
  refine (calms_acquireTwo srcFull dstFull).ends fun locks m₁ hlocks h₁ => ?_
  cases locks with
  | none => exact absurd rfl hlocks
  | some locks =>
    have hfail : ∀ m₂ target, Did [] [] m m₂ →
        ¬ (Bare src ∧ content.length ≤ maxFileSize ∧ Bare dst ∧
          ∃ b, m.tree.node (resolve dst) = some (.file b)) →
        Ends (Reliable env) (fun _ m' => ∃ sent,
          Stores env (fun ts => logLine ts client (ascii command) src (ascii "OK") (ascii detail))
            dst result m m' sent ∧
          (sent = okReply → Bare src ∧ content.length ≤ maxFileSize) ∧
          (Bare src → content.length ≤ maxFileSize → Bare dst →
            (∃ b, m.tree.node (resolve dst) = some (.file b)) → sent = okReply))
          (do
            let e ← ask .errno
            failTwo env client locks command target e) m₂ := by
      intro m₂ target h₂ hnot
      refine ends_sure trivial fun e m₃ _ h₃ => ?_
      refine (ends_failTwo locks command target e m₃).mono fun _ m₄ h₄ => ?_
      obtain ⟨sent, hdenial, hstores⟩ := Denied.stores (Did.denied (h₂.trans h₃.toDid) h₄)
      exact ⟨sent, hstores, fun he => absurd he hdenial.ne, fun h₁ h₂ h₃ h₄ =>
        absurd ⟨h₁, h₂, h₃, h₄⟩ hnot⟩
    rw [← h₁.tree] at hfile
    apply Ends.bind
    by_cases hbare : Bare src
    · refine (ends_readAllFile (below_build hsrc) hfile hbare).mono ?_
      rintro out m₂ ⟨h₂, hout⟩
      have h₁₂ := h₁.trans h₂
      split at hout
      · next hsmall =>
        cases hout
        refine hcodec.ends fun out m₃ hout h₃ => ?_
        cases hout
        have h₁₃ := h₁₂.trans h₃
        apply Ends.bind
        refine (ends_writeAllFile (below_build hdst) (pathBuild_fits hdst) result m₃).mono ?_
        rintro ok m₄ ⟨h₄, hstored, hsure⟩
        rw [h₁₃.tree] at hsure
        cases ok with
        | false =>
          apply hfail m₄ dst (h₁₃.toDid.trans h₄)
          rintro ⟨-, -, hbare', hfile'⟩
          cases (hsure hbare' hfile').1
        | true =>
          refine (calms_releaseTwo locks).ends fun _ m₅ _ h₅ => ?_
          refine (ends_success command src (ascii detail) m₅).mono ?_
          rintro _ m₆ ⟨⟨lines, hdid⟩, hentered⟩
          rw [h₅.tree] at hentered
          refine ⟨okReply, ⟨⟨_, (h₁₃.toDid.trans h₄).trans (h₅.toDid.trans hdid)⟩, fun _ => ?_⟩,
            fun _ => ⟨hbare, hsmall⟩, fun _ _ _ _ => rfl⟩
          exact ⟨(hstored rfl).1, m₄.tree, (hstored rfl).2, hentered⟩
      · next hlarge =>
        obtain ⟨rfl, -⟩ := hout
        exact hfail m₂ src h₁₂.toDid fun h => hlarge h.2.1
    · refine (ends_readAllFile_slash (below_build hsrc) hfile hbare).mono ?_
      rintro _ m₂ ⟨rfl, h₂⟩
      exact hfail m₂ src (h₁.trans h₂).toDid fun h => hbare h.1

end Recode

theorem filter_name {c : Bytes} (h : c ≠ [] ∧ c ≠ [46]) :
    ([c].filter fun c => c ≠ [] ∧ c ≠ [46]) = [c] := by
  simp [h]

/-- A file and the one whose name is longer by a suffix are different files. -/
theorem resolve_suffix {path suffix : Bytes} (hbare : Bare path) (hslash : 47 ∉ suffix)
    (hne : suffix ≠ []) : resolve (path ++ suffix) ≠ resolve path := by
  obtain ⟨init, last, hpath, hboth⟩ := splitOn_append_name path hslash
  have hlast : last ≠ [] ∧ last ≠ [46] := by
    rw [Bare, hpath, List.getLast?_concat] at hbare
    simpa using hbare
  intro he
  rw [resolve, resolve, hpath, hboth, List.filter_append, List.filter_append,
    List.append_cancel_left_eq, filter_name hlast, List.filter_cons] at he
  split at he
  · simp at he
    exact hne he
  · cases he

/-- A file with the suffix `.rle` is not the log. -/
theorem resolve_rle {path : Bytes} : resolve (path ++ ascii ".rle") ≠ logKey env := by
  obtain ⟨init, last, -, hboth⟩ := splitOn_append_name path (t := ascii ".rle") (by decide)
  have hkeep : last ++ ascii ".rle" ≠ [] ∧ last ++ ascii ".rle" ≠ [46] := by
    constructor
    · simp [ascii]
    · intro he
      have := congrArg List.length he
      simp [ascii] at this
  rw [resolve, hboth, List.filter_append, filter_name hkeep]
  rcases logKey_shape env with hlog | ⟨n, hlog⟩
  · simp [hlog]
  · rw [hlog]
    intro he
    have hname : last ++ ascii ".rle" = (ascii "operations.log").take n :=
      (List.append_inj' (he.trans (List.nil_append _).symm) rfl).2 |> List.singleton_inj.mp
    have hsuffix : ascii ".rle" <:+ (ascii "operations.log").take n := ⟨last, hname⟩
    have hall : ∀ n ≤ 14, ¬ ascii ".rle" <:+ (ascii "operations.log").take n := by decide
    rcases Nat.le_total n 14 with hn | hn
    · exact hall n hn hsuffix
    · rw [List.take_of_length_le (by simpa [ascii] using hn)] at hsuffix
      exact hall 14 (Nat.le_refl 14) hsuffix

theorem derive_decompress {path : Bytes} (hne : path ≠ [])
    (hfits : (path ++ ascii ".rle").length < pathMax) :
    deriveDecompressDst (path ++ ascii ".rle") = some path := by
  have hlen : (path ++ ascii ".rle").length = path.length + 4 := by simp [ascii]
  have hpos : 0 < path.length := List.length_pos_iff.mpr hne
  have hneed : (path ++ ascii ".rle").length - (ascii ".rle").length = path.length := by
    rw [hlen]
    rfl
  have hfour : (ascii ".rle").length = 4 := rfl
  unfold deriveDecompressDst pathStripSuffix
  simp only [hneed, List.drop_left, List.take_left, strcmp_self]
  rw [if_neg (by omega), if_neg (by omega)]

/-- What `COMPRESS` without a destination has done if it is answered with `+OK`. -/
theorem compressed_of_ok {x : Command} {item : RespBuf} {content : Bytes} {b : Bool}
    (hcmd : strcasecmp (arg x.cmd) (ascii "COMPRESS") = 0) (hargs : x.args = [item])
    (hfile : m.tree.node (resolve (arg item)) = some (.file content))
    (hlog : resolve (arg item) ≠ logKey env) (hm : m.Closed)
    (hr : Runs (Reliable env) (x.run env) m b m') (hok : m'.out = m.out ++ okReply) :
    (∃ full, pathBuild env.dataDir (arg item) pathMax = some full) ∧
    (∃ full, pathBuild env.dataDir (arg item ++ ascii ".rle") pathMax = some full) ∧
    Bare (arg item) ∧ Bare (arg item ++ ascii ".rle") ∧ content.length ≤ maxFileSize ∧
    m'.tree.node (resolve (arg item)) = some (.file content) ∧
    m'.tree.node (resolve (arg item ++ ascii ".rle")) = some (.file (rleCompress content)) := by
  have hop : x.op = recodeTo .compress (arg item) (deriveCompressDst (arg item)) := by
    rw [Command.op, hargs]
    exact ServerConfinement.dispatch_compress item hcmd
  have hdenied : ¬ Denied m m' := by
    rintro ⟨sent, lines, hdenial, hdid⟩
    exact hdenial.ne (Did.answered hdid hok)
  cases hd : deriveCompressDst (arg item) with
  | none =>
    rw [Command.run, hop, hd] at hr
    obtain ⟨sent, hdenial, hcalm⟩ := (ends_error _ m).of_runs hr
    exact absurd ⟨sent, [], hdenial, hcalm.toDid⟩ hdenied
  | some dst =>
    have hdst := ServerConfinement.deriveCompressDst_eq hd
    have hop' : x.op = .compress (arg item) dst := by
      rw [hop, hd]
      rfl
    have hr' := hr
    rw [Command.run, hop'] at hr'
    subst hdst
    have hbuilt : ∀ path ∈ [arg item, arg item ++ ascii ".rle"],
        ∃ full, pathBuild env.dataDir path pathMax = some full := by
      intro path hpath
      cases hb : pathBuild env.dataDir path pathMax with
      | some full => exact ⟨full, rfl⟩
      | none =>
        have hpath' :
            path ∈ ServerDiscipline.paths (.compress (arg item) (arg item ++ ascii ".rle")) :=
          hpath
        obtain ⟨command, target, hrun⟩ :=
          ServerConfinement.run_refused env (clientName x.peer) hpath' hb
        rw [hrun] at hr'
        exact absurd ((ends_replyFailure _ _ _ _ m).of_runs hr') hdenied
    obtain ⟨srcFull, hsrc⟩ := hbuilt _ List.mem_cons_self
    obtain ⟨dstFull, hdst⟩ := hbuilt _ (List.mem_cons_of_mem _ List.mem_cons_self)
    obtain ⟨sent, ⟨⟨lines, hdid⟩, hstored⟩, hread, -⟩ :=
      (ends_recode _ _ _ hsrc hdst (calms_compress content) hfile).of_runs hr'
    have hsent := Did.answered hdid hok
    obtain ⟨hbareDst, t, hnode, hentered⟩ := hstored hsent
    obtain ⟨hbareSrc, hsmall⟩ := hread hsent
    have hkept : ¬ Disturbs env x.op (resolve (arg item)) := by
      rw [hop']
      exact fun h => resolve_suffix hbareSrc (by decide) (by decide) h.2
    refine ⟨⟨_, hsrc⟩, ⟨_, hdst⟩, hbareSrc, hbareDst, hsmall, ?_, ?_⟩
    · exact (run_kept hr Reliable.does hkept hlog.symm hfile (hm.unwritten _)).1
    · rw [hentered.kept (Ne.symm resolve_rle), hnode]

/-- A compressed file is written back to the file that it was made of, unless it is too large. -/
theorem ends_decompress_iff {client path full rleFull content : Bytes}
    (hsrc : pathBuild env.dataDir path pathMax = some full)
    (hrle : pathBuild env.dataDir (path ++ ascii ".rle") pathMax = some rleFull)
    (hbare : Bare path) (hbareRle : Bare (path ++ ascii ".rle"))
    (hsmall : content.length ≤ maxFileSize) (hlog : resolve path ≠ logKey env)
    (hfile : m.tree.node (resolve path) = some (.file content))
    (hwritten : m.tree.node (resolve (path ++ ascii ".rle")) = some (.file (rleCompress content))) :
    Ends (Reliable env) (fun _ m' => m'.out = m.out ++ okReply ∧
        m'.tree.node (resolve path) = some (.file content))
      (opDecompress env client (path ++ ascii ".rle") path) m ↔
      (rleCompress content).length ≤ maxFileSize := by
  have hends := ends_recode client "DECOMPRESS" "decompressed" hrle hsrc (calms_decompress hsmall)
    hwritten
  constructor
  · intro hgood
    obtain ⟨_, m', hr, sent, ⟨⟨lines, hdid⟩, -⟩, hread, -⟩ := hends.exists_runs
    have hout := (hgood.of_runs hr).1
    exact (hread (Did.answered hdid hout)).2
  · intro hsize
    refine hends.mono ?_
    rintro _ m' ⟨sent, ⟨⟨lines, hdid⟩, hstored⟩, -, hsure⟩
    have hsent := hsure hbareRle hsize hbare ⟨content, hfile⟩
    obtain ⟨-, t, hnode, hentered⟩ := hstored hsent
    refine ⟨?_, ?_⟩
    · rw [hdid.out, hsent]
    · rw [hentered.kept hlog.symm, hnode]

theorem decompress_op {x : Command} {item : RespBuf} {path full rleFull : Bytes}
    (hcmd : strcasecmp (arg x.cmd) (ascii "DECOMPRESS") = 0) (hargs : x.args = [item])
    (hitem : arg item = path ++ ascii ".rle")
    (hsrc : pathBuild env.dataDir path pathMax = some full)
    (hrle : pathBuild env.dataDir (path ++ ascii ".rle") pathMax = some rleFull) :
    x.op = .decompress (path ++ ascii ".rle") path := by
  have hne : path ≠ [] := by
    rintro rfl
    cases hsrc
  have hfits := pathBuild_fits hrle
  rw [pathBuild_eq hrle, List.length_append, List.length_cons] at hfits
  rw [Command.op, hargs, ServerConfinement.dispatch_decompress item hcmd, hitem,
    derive_decompress hne (by omega)]
  rfl

/-- A file for which `COMPRESS` was answered with `+OK` is restored by `DECOMPRESS` of what was
written, if and only if that is not too large to be read. -/
theorem compress_reversible_iff {compress decompress : Command} {item item' : RespBuf}
    {content : Bytes} {b : Bool} (hm : m.Closed)
    (hcmd : strcasecmp (arg compress.cmd) (ascii "COMPRESS") = 0) (hargs : compress.args = [item])
    (hfile : m.tree.node (resolve (arg item)) = some (.file content))
    (hlog : resolve (arg item) ≠ logKey env)
    (hrun : Runs (Reliable env) (compress.run env) m b m') (hok : m'.out = m.out ++ okReply)
    (hcmd' : strcasecmp (arg decompress.cmd) (ascii "DECOMPRESS") = 0)
    (hargs' : decompress.args = [item']) (hitem' : arg item' = arg item ++ ascii ".rle") :
    decompress.op = .decompress (arg item') (arg item) ∧
    (Ends (Reliable env) (fun _ m'' => m''.out = m'.out ++ okReply ∧
        m''.tree.node (resolve (arg item)) = some (.file content)) (decompress.run env) m' ↔
      (rleCompress content).length ≤ maxFileSize) := by
  obtain ⟨⟨srcFull, hsrc⟩, ⟨rleFull, hrle⟩, hbare, hbareRle, hsmall, hkept, hwritten⟩ :=
    compressed_of_ok hcmd hargs hfile hlog hm hrun hok
  have hop := decompress_op hcmd' hargs' hitem' hsrc hrle
  rw [Command.run, hop, hitem']
  exact ⟨rfl, ends_decompress_iff hsrc hrle hbare hbareRle hsmall hlog hkept hwritten⟩

/-! ## Files that are too large -/

/-- Add a file to the data directory. -/
def addFile (t : Tree Bytes Bytes) (name content : Bytes) (h : t.node [name] ≠ some .dir) :
    Tree Bytes Bytes :=
  t.put [name] (.file content) ⟨⟨[], name, rfl, t.root⟩, h⟩

/-- A machine that has just started. -/
def booted (t : Tree Bytes Bytes) : Machine := ⟨t, [], 0, [], .enoent, 0, [], []⟩

theorem booted_closed (t : Tree Bytes Bytes) : (booted t).Closed := fun _ => rfl

/-- The data directory has an empty file `a` in it. -/
def oneFile : Tree Bytes Bytes := addFile Tree.empty (ascii "a") [] nofun

def setA (content : Bytes) : Command :=
  ⟨none, itemOf (ascii "SETFILE"), [itemOf (ascii "a"), itemOf content]⟩

def getA : Command := ⟨none, itemOf (ascii "GETFILE"), [itemOf (ascii "a")]⟩

theorem setA_op (content : Bytes) : (setA content).op = .setfile (ascii "a") content := by
  have htake : (itemOf content).ptr.take (itemOf content).len = content := List.take_left
  have hop : (setA content).op = .setfile (ascii "a")
      ((itemOf content).ptr.take (itemOf content).len) := rfl
  rw [hop, htake]

theorem getA_op : getA.op = .getfile (ascii "a") := rfl

theorem build_a : pathBuild here.dataDir (ascii "a") pathMax = some (ascii "./a") := rfl

theorem bare_a : Bare (ascii "a") := by
  unfold Bare
  decide

theorem a_not_log : resolve (ascii "a") ≠ logKey here := by decide

/-- `SETFILE a` is answered with `+OK`, and `a` is there with its content. -/
theorem set_a (content : Bytes) : ∃ b m, Runs (Reliable here) ((setA content).run here)
    (booted oneFile) b m ∧ m.out = okReply ∧ m.tree.node (resolve (ascii "a")) = some (.file content) ∧
      m.Closed := by
  have hends := ends_setfile (clientName none) build_a content (booted oneFile)
  obtain ⟨b, m, hrun, sent, hstores, hsure⟩ := hends.exists_runs
  obtain ⟨⟨lines, hdid⟩, hstored⟩ := hstores
  have hsent := hsure bare_a ⟨[], rfl⟩
  obtain ⟨-, t, hfile, hentered⟩ := hstored hsent
  have hrun' : Runs (Reliable here) ((setA content).run here) (booted oneFile) b m := by
    rw [Command.run, setA_op]
    exact hrun
  refine ⟨b, m, hrun', ?_, ?_, ?_⟩
  · rw [hdid.out, hsent]
    rfl
  · rw [hentered.kept a_not_log.symm, hfile]
  · exact Command.closes (hrun'.mono fun _ _ _ _ => Reliable.does) (booted_closed _)

/-- A content of one byte more than `MAX_FILE_SIZE` can be sent and is stored, but it is not
returned. -/
theorem large_file_not_returned : ∃ content m b,
    (∃ rest, respReadArray ⟨encodeRequest [ascii "SETFILE", ascii "a", content], []⟩ =
      (some ⟨3, (setA content).cmd :: (setA content).args⟩, rest)) ∧
    Runs (Reliable here) ((setA content).run here) (booted oneFile) b m ∧ m.out = okReply ∧
    resolve (ascii "a") ≠ logKey here ∧
    ¬ Ends (Reliable here) (fun _ m' => m'.out = m.out ++ (Reply.bulk content).encode)
      (getA.run here) m := by
  obtain ⟨content, hlen⟩ : ∃ content : Bytes, content.length = maxFileSize + 1 :=
    ⟨List.replicate (maxFileSize + 1) 120, List.length_replicate⟩
  have hmax : maxFileSize = 67108864 := rfl
  have hreq : Request [ascii "SETFILE", ascii "a", content] := by
    refine ⟨by simp, by simp, ?_⟩
    intro b hb
    simp only [List.mem_cons, List.not_mem_nil, or_false] at hb
    obtain rfl | rfl | rfl := hb
    · decide
    · decide
    · omega
  have hne : ∀ b ∈ [ascii "SETFILE", ascii "a", content], b ≠ [] := by
    intro b hb
    simp only [List.mem_cons, List.not_mem_nil, or_false] at hb
    obtain rfl | rfl | rfl := hb
    · decide
    · decide
    · rintro rfl
      simp at hlen
  obtain ⟨plan, -, hread⟩ := respReadArray_gets hreq hne [] [] nofun
  rw [List.append_nil] at hread
  obtain ⟨b, m, hrun, hout, hfile, -⟩ := set_a content
  refine ⟨content, m, b, ⟨_, hread⟩, hrun, hout, a_not_log, fun hends => ?_⟩
  have herror := ends_getfile (clientName none) build_a bare_a hfile
  obtain ⟨_, m', hget, lines, hdid⟩ := herror.exists_runs
  rw [Command.run, getA_op] at hends
  have hbulk := hends.of_runs hget
  have hbad := Did.answered hdid hbulk
  rw [readReply, if_neg (by omega)] at hbad
  cases hbad

/-- A file of one byte is returned, also the second time. -/
theorem stored_file_returned_twice : ∃ b m b' m',
    Runs (Reliable here) ((setA [120]).run here) (booted oneFile) b m ∧
    Runs (Reliable here) (getA.run here) m b' m' ∧
    Ends (Reliable here) (fun _ m'' => m''.out = m'.out ++ (Reply.bulk [120]).encode)
      (getA.run here) m' := by
  obtain ⟨b, m, hrun, hout, hfile, -⟩ := set_a [120]
  obtain ⟨b', m', hget, -⟩ := (ends_getfile (clientName none) build_a bare_a hfile).exists_runs
  refine ⟨b, m, b', m', hrun, hget, ?_⟩
  have hreply : readReply [120] = .bulk [120] := if_pos (by decide)
  rw [← hreply]
  apply stored_file_returned (booted_closed oneFile) .done (setA_op [120]) hrun hout a_not_log
    (.next (x := getA) hget .done) _ getA_op
  intro x hx hd
  cases List.mem_singleton.mp hx
  exact hd.2

/-- The data directory has a file `a`, and an empty file `a.rle`. -/
def twoFiles (content : Bytes) : Tree Bytes Bytes :=
  addFile (addFile Tree.empty (ascii "a") content nofun) (ascii "a.rle") [] nofun

def compressA : Command := ⟨none, itemOf (ascii "COMPRESS"), [itemOf (ascii "a")]⟩

def decompressA : Command := ⟨none, itemOf (ascii "DECOMPRESS"), [itemOf (ascii "a.rle")]⟩

/-- `COMPRESS a` is answered with `+OK`. -/
theorem compress_a (content : Bytes) (hlen : content.length ≤ maxFileSize) :
    ∃ b m, Runs (Reliable here) (compressA.run here) (booted (twoFiles content)) b m ∧
      m.out = okReply := by
  have hfile : (booted (twoFiles content)).tree.node (resolve (ascii "a")) = some (.file content) :=
    rfl
  have hbare : Bare (ascii "a.rle") := by
    unfold Bare
    decide
  have hrle : pathBuild here.dataDir (ascii "a.rle") pathMax = some (ascii "./a.rle") := rfl
  obtain ⟨b, m, hrun, sent, ⟨⟨lines, hdid⟩, -⟩, -, hsure⟩ :=
    (ends_recode (clientName none) "COMPRESS" "compressed" build_a hrle (calms_compress content)
      hfile).exists_runs
  have hsent := hsure bare_a hlen hbare ⟨[], rfl⟩
  refine ⟨b, m, hrun, ?_⟩
  rw [hdid.out, hsent]
  rfl

/-- A file of 32 MiB that is doubled by the compression is not restored. -/
theorem compress_not_reversible : ∃ content b m,
    (twoFiles content).node (resolve (ascii "a")) = some (.file content) ∧
    Runs (Reliable here) (compressA.run here) (booted (twoFiles content)) b m ∧ m.out = okReply ∧
    ¬ Ends (Reliable here) (fun _ m' => m'.out = m.out ++ okReply ∧
      m'.tree.node (resolve (ascii "a")) = some (.file content)) (decompressA.run here) m := by
  obtain ⟨content, hlen, hruns⟩ : ∃ content : Bytes, content.length = 33554432 ∧
      (rleRuns content).length = 2 * 33554432 :=
    ⟨alternating 33554432, alternating_length _, rleRuns_alternating _⟩
  have hmax : maxFileSize = 67108864 := rfl
  obtain ⟨b, m, hrun, hout⟩ := compress_a content (by omega)
  have hok : m.out = (booted (twoFiles content)).out ++ okReply := hout
  have hargs : compressA.args = [itemOf (ascii "a")] := rfl
  have hlog : resolve (arg (itemOf (ascii "a"))) ≠ logKey here := a_not_log
  obtain ⟨⟨srcFull, hsrc⟩, ⟨rleFull, hrle⟩, hbare, hbareRle, hsmall, hkept, hwritten⟩ :=
    compressed_of_ok rfl hargs rfl hlog (booted_closed (twoFiles content)) hrun hok
  refine ⟨content, b, m, rfl, hrun, hout, fun hends => ?_⟩
  have hsize := (ends_decompress_iff hsrc hrle hbare hbareRle hsmall hlog hkept hwritten).mp
    hends
  have hheader : rleHeader.length = 4 := rfl
  rw [rleCompress, List.length_append, hruns] at hsize
  omega

/-- A file of one byte is restored. -/
theorem compress_reversible_short : ∃ b m,
    Runs (Reliable here) (compressA.run here) (booted (twoFiles [120])) b m ∧ m.out = okReply ∧
    Ends (Reliable here) (fun _ m' => m'.out = m.out ++ okReply ∧
      m'.tree.node (resolve (ascii "a")) = some (.file [120])) (decompressA.run here) m := by
  obtain ⟨b, m, hrun, hout⟩ := compress_a [120] (by decide)
  have hargs : compressA.args = [itemOf (ascii "a")] := rfl
  have hargs' : decompressA.args = [itemOf (ascii "a.rle")] := rfl
  have hlog : resolve (arg (itemOf (ascii "a"))) ≠ logKey here := a_not_log
  refine ⟨b, m, hrun, hout, ?_⟩
  exact (compress_reversible_iff (booted_closed _) rfl hargs rfl hlog hrun hout rfl hargs' rfl).2.mpr
    (by simp [rleCompress, rleRuns, extendRun, rleHeader, maxFileSize])

end ServerStorage
