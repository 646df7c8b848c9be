import Xv6Filesrv.ServerStorage

/-!
# Copies of files

`COPYFILE` on a machine without errors.  The destination is cut to nothing when it is opened, and
after that the source is read: between two files this is a copy, and a file that is copied to
itself is lost.
-/

namespace ServerCopies

open FileTree ServerResp ServerPaths ServerOps ServerAccess ServerFiles ServerReliable ServerStorage
  Programs.Prog ProgramRuns

variable {env : Env} {m m' m'' m₁ : Machine} {client src dst : Bytes}

/-! ## The loop -/

/-- Two files are open, and nothing was sent or logged. -/
structure Copying (a b : Nat) (x y : Handle) (m m' : Machine) : Prop where
  out : m'.out = m.out
  records : m'.records = m.records
  source : m'.handle a = some x
  target : m'.handle b = some y

/-- How far the file that is open under `fd` was read. -/
def position (m : Machine) (fd : Nat) : Nat := (m.handle fd).elim 0 Handle.pos

section Loop

variable {a b : Nat} {x y : Handle} {s d : List Bytes} {content : Bytes} {t : Tree Bytes Bytes}

theorem Copying.calm (h : Copying a b x y m m') (hc : Calm [] m' m'') : Copying a b x y m m'' := by
  constructor
  · exact hc.silent.trans h.out
  · rw [hc.records, List.append_nil, h.records]
  · rw [Machine.handle, hc.handles]
    exact h.source
  · rw [Machine.handle, hc.handles]
    exact h.target

theorem Copying.read (h : Copying a b x y m m') (hab : b ≠ a) (x' : Handle) :
    Copying a b x' y m (m'.setHandle a x') := by
  refine ⟨h.out, h.records, m'.handle_set_self a x', ?_⟩
  rw [Machine.handle_set, if_neg hab]
  exact h.target

theorem Copying.wrote (h : Copying a b x y m m') (hab : b ≠ a) {y' : Handle}
    (hw : Working b y' (m'.closeHandle b) m'') : Copying a b x y' m m'' := by
  refine ⟨?_, ?_, ?_, hw.handle⟩
  · exact hw.done.silent.trans h.out
  · rw [← h.records]
    exact hw.done.records.trans (List.append_nil _)
  · have hclosed : (m''.closeHandle b).handle a = (m'.closeHandle b).handle a := by
      rw [Machine.handle, hw.done.handles]
      rfl
    rw [Machine.handle_close, Machine.handle_close, if_neg hab.symm, if_neg hab.symm] at hclosed
    rw [hclosed]
    exact h.source

/-- The destination gets what is in the source after the destination was opened. -/
theorem ends_copyLoop (hab : b ≠ a) (hm : Copying a b ⟨s, .read, 0⟩ ⟨d, .write, 0⟩ m m₁)
    (hputs : Puts d [] t m₁.tree) (hfile : m₁.tree.node s = some (.file content)) :
    Ends (Reliable env) (fun r m' => r = .done ∧ (∃ x y, Copying a b x y m m') ∧
      Puts d content t m'.tree) (copyLoop a b) m₁ := by
  -- the positions in both files are the same, and what was read has been written
  apply Ends.iterate (fun _ m' => ∃ i ≤ content.length,
      Copying a b ⟨s, .read, i⟩ ⟨d, .write, i⟩ m m' ∧ Puts d (content.take i) t m'.tree ∧
      m'.tree.node s = some (.file content))
    (fun _ m' => content.length - position m' a + m'.patience)
    ⟨0, Nat.zero_le _, hm, hputs, hfile⟩
  rintro _ m₂ ⟨i, hi, hm₂, hputs₂, hfile₂⟩
  have hpos : position m₂ a = i := by
    rw [position, hm₂.source]
    rfl
  apply Ends.bind
  apply Ends.perform ⟨some _, _, .inl ⟨s, i, content, _, hm₂.source, hfile₂, rfl,
    List.prefix_refl _, id, rfl⟩⟩
  rintro r m₃ (⟨key, pos, b', data, hfd, hb, rfl, hdata, hend, rfl⟩ |
    ⟨rfl, e, ⟨rfl, hpatience⟩ | ⟨-, hdir⟩, rfl⟩)
  · rw [hm₂.source] at hfd
    cases hfd
    rw [hfile₂] at hb
    cases hb
    by_cases hnil : data = []
    · have hlen := congrArg List.length (hend hnil)
      rw [List.length_take, List.length_drop, List.length_nil, copyBufSize] at hlen
      rw [List.take_of_length_le (by omega)] at hputs₂
      simp only [if_pos hnil]
      exact Ends.pure ⟨rfl, ⟨_, _, hm₂.read hab _⟩, hputs₂⟩
    · have hsome : 0 < data.length := List.length_pos_iff.mpr hnil
      have hmore := hdata.length_le
      rw [List.length_take, List.length_drop] at hmore
      -- a file that is copied to itself has nothing left to read
      have hsd : s ≠ d := by
        rintro rfl
        have hcut := hputs₂.self
        rw [hfile₂] at hcut
        have hlen := congrArg List.length (Node.file.inj (Option.some.inj hcut))
        rw [List.length_take] at hlen
        omega
      have htake : content.take i ++ data = content.take (i + data.length) := by
        have hpre := hdata.trans (List.take_prefix _ _)
        rw [List.take_add, ← List.prefix_iff_eq_take.mp hpre]
      have hread := hm₂.read hab ⟨s, .read, i + data.length⟩
      simp only [if_neg hnil]
      apply Ends.bind
      refine (ends_writeLoop_at data (m := (m₂.setHandle a ⟨s, .read, i + data.length⟩).closeHandle b)
        ⟨hread.target, Did.refl _⟩ hputs₂ (by rw [List.length_take]; omega)).mono ?_
      rintro _ m₄ ⟨rfl, hw, hpatience, hputs₄⟩
      rw [htake] at hputs₄
      have hm₄ := hread.wrote hab hw
      have hpos₄ : position m₄ a = i + data.length := by
        rw [position, hm₄.source]
        rfl
      refine Ends.pure ⟨⟨i + data.length, by omega, hm₄, hputs₄, ?_⟩, ?_⟩
      · rw [hputs₄.other hsd, ← hputs₂.other hsd]
        exact hfile₂
      · simp only [Machine.setHandle] at hpatience
        omega
  · apply ends_interrupted hpatience
    intro m₃ h₃ hlt
    refine ⟨⟨i, hi, hm₂.calm h₃, h₃.tree ▸ hputs₂, h₃.tree ▸ hfile₂⟩, ?_⟩
    have hpos₃ : position m₃ a = i := by
      rw [position, (hm₂.calm h₃).source]
      rfl
    omega
  · have hnode := hdir _ hm₂.source
    rw [hfile₂] at hnode
    cases hnode

/-- A directory cannot be read. -/
theorem ends_copyLoop_dir (hm : Copying a b ⟨s, .read, 0⟩ y m m₁)
    (hdir : m₁.tree.node s = some .dir) :
    Ends (Reliable env) (fun r m' => r = .readFailed ∧ m'.out = m.out) (copyLoop a b) m₁ := by
  apply Ends.iterate (fun _ m' => Copying a b ⟨s, .read, 0⟩ y m m' ∧ m'.tree.node s = some .dir)
    (fun _ m' => m'.patience) ⟨hm, hdir⟩
  rintro _ m₂ ⟨hm₂, hdir₂⟩
  have hexcused : Excused env m₂ (.read a copyBufSize) (.other 0) := by
    refine .inr ⟨nofun, fun h hh => ?_⟩
    rw [hm₂.source] at hh
    cases hh
    exact hdir₂
  apply Ends.bind
  apply Ends.perform ⟨none, _, .inr ⟨rfl, _, hexcused, rfl⟩⟩
  rintro r m₃ (⟨key, pos, b', data, hfd, hb, -⟩ | ⟨rfl, e, hexc, rfl⟩)
  · rw [hm₂.source] at hfd
    cases hfd
    rw [hdir₂] at hb
    cases hb
  · rcases hexc with ⟨rfl, hpatience⟩ | ⟨he, -⟩
    · apply ends_interrupted hpatience
      intro m₃ h₃ hlt
      exact ⟨⟨hm₂.calm h₃, h₃.tree ▸ hdir₂⟩, hlt⟩
    · apply Ends.bind
      apply ends_call .errno ⟨_, _, .inl ⟨rfl, rfl⟩⟩
      rintro e' m₃ (⟨herrno, rfl⟩ | ⟨hr, -⟩)
      · have hsame : e' = e := herrno
        rw [hsame, if_neg he]
        exact Ends.pure ⟨rfl, hm₂.out⟩
      · exact hr.elim

end Loop

/-! ## The operation -/

/-- The record of a copy. -/
def copyRecord (client src ts : Bytes) : Bytes :=
  logLine ts client (ascii "COPYFILE") src (ascii "OK") (ascii "copied")

/-- What a copy does: `t` is what it makes of the files, before it is logged. -/
structure Copy (env : Env) (client src dst : Bytes) (m m' : Machine) (content : Bytes)
    (t : Tree Bytes Bytes) : Prop where
  source : m.tree.node (resolve src) = some (.file content)
  bare : Bare src ∧ Bare dst
  target : t.node (resolve dst) =
    some (.file (if resolve src = resolve dst then [] else content))
  others : ∀ key, key ≠ resolve dst → ∀ b,
    t.node key = some (.file b) ↔ m.tree.node key = some (.file b)
  logged : t.node (logKey env) = some .dir ∧ m'.tree = t ∨
    ∃ ts, m'.records = m.records ++ [copyRecord client src ts] ∧
      Puts (logKey env) (contentAt t (logKey env) ++ copyRecord client src ts) t m'.tree

/-- Both files are there. -/
def Ready (src dst : Bytes) (t : Tree Bytes Bytes) : Prop :=
  (Bare src ∧ ∃ b, t.node (resolve src) = some (.file b)) ∧
    Bare dst ∧ ∃ b, t.node (resolve dst) = some (.file b)

/-- Something is sent; if it is `+OK` then a copy was made, and it is if both files are there. -/
structure Answers (env : Env) (client src dst : Bytes) (m m' : Machine) (sent : Bytes) : Prop where
  out : m'.out = m.out ++ sent
  made : sent = okReply → ∃ content t, Copy env client src dst m m' content t
  sure : Ready src dst m.tree → sent = okReply

theorem Denied.answers (h : Denied m₁ m') (hout : m₁.out = m.out) (hnot : ¬ Ready src dst m.tree) :
    ∃ sent, Answers env client src dst m m' sent := by
  obtain ⟨sent, lines, hdenial, hdid⟩ := h
  refine ⟨sent, ?_, fun he => absurd he hdenial.ne, fun hready => absurd hready hnot⟩
  rw [hdid.out, hout]

theorem ends_close (fd : Nat) (m : Machine) : Ends (Reliable env)
    (fun _ m' => m'.out = m.out ∧ m'.records = m.records ∧ m'.tree = m.tree) (ask (.close fd)) m := by
  apply ends_call (.close fd) ⟨true, _, .inl ⟨rfl, rfl⟩⟩
  rintro r m' (⟨-, rfl⟩ | ⟨hr, -⟩)
  · exact ⟨rfl, rfl, rfl⟩
  · exact hr.elim

theorem ends_failCopy (a b : Nat) (locks : TwoLocks) (target : Bytes) (hout : m₁.out = m.out)
    (hnot : ¬ Ready src dst m.tree) :
    Ends (Reliable env) (fun _ m' => ∃ sent, Answers env client src dst m m' sent)
      (failCopy env client a b locks target) m₁ := by
  refine ends_sure trivial fun e m₂ _ h₂ => Ends.bind ?_
  refine (ends_close a m₂).mono fun _ m₃ h₃ => Ends.bind ?_
  refine (ends_close b m₃).mono fun _ m₄ h₄ => ?_
  refine (ends_failTwo locks "COPYFILE" target e m₄).mono fun _ m₅ h₅ => ?_
  exact Denied.answers h₅ (h₄.1.trans (h₃.1.trans (h₂.silent.trans hout))) hnot

/-- The source cannot be opened. -/
theorem ends_noSource (locks : TwoLocks) (hout : m₁.out = m.out)
    (hnot : ¬ Ready src dst m.tree) :
    Ends (Reliable env) (fun _ m' => ∃ sent, Answers env client src dst m m' sent) (do
      let e ← ask .errno
      locksReleaseTwo locks
      if e = .enoent then do
        loggerLog client "COPYFILE" src "MISS" (ascii "source not found")
        respReplyError (ascii "source file not found")
      else replyFailure client "COPYFILE" src (env.strerror e)) m₁ := by
  refine ends_sure trivial fun e m₂ _ h₂ => (calms_releaseTwo locks).ends fun _ m₃ _ h₃ => ?_
  have hout₃ := (h₃.silent.trans h₂.silent).trans hout
  split
  · apply Ends.bind
    refine (ends_log client "COPYFILE" src "MISS" _ m₃).mono fun _ m₄ h₄ => ?_
    obtain ⟨⟨lines, hdid⟩, -⟩ := Logged.entered h₄
    refine (ends_error _ m₄).mono ?_
    rintro _ m₅ ⟨sent, hdenial, hcalm⟩
    have hdenied : Denied m₃ m₅ := Did.denied hdid ⟨sent, [], hdenial, hcalm.toDid⟩
    exact Denied.answers hdenied hout₃ hnot
  · exact (ends_replyFailure client "COPYFILE" src _ m₃).mono fun _ _ h =>
      Denied.answers h hout₃ hnot

/-- The destination cannot be opened. -/
theorem ends_noTarget {a : Nat} {h : Handle} (locks : TwoLocks) (hm : Working a h m m₁)
    (hnot : ¬ Ready src dst m.tree) :
    Ends (Reliable env) (fun _ m' => ∃ sent, Answers env client src dst m m' sent) (do
      let e ← ask .errno
      let _ ← ask (.close a)
      failTwo env client locks "COPYFILE" dst e) m₁ := by
  refine ends_sure trivial fun e m₂ _ h₂ => (hm.calm h₂).ends_close fun m₃ h₃ _ => ?_
  exact (ends_failTwo locks "COPYFILE" dst e m₃).mono fun _ _ h =>
    Denied.answers h h₃.silent hnot

/-- All is copied. -/
theorem ends_copied {a b : Nat} {locks : TwoLocks} {content : Bytes}
    (hout : m₁.out = m.out) (hrecords : m₁.records = m.records)
    (hsource : m.tree.node (resolve src) = some (.file content)) (hbare : Bare src ∧ Bare dst)
    (htarget : m₁.tree.node (resolve dst) =
      some (.file (if resolve src = resolve dst then [] else content)))
    (hothers : ∀ key, key ≠ resolve dst → ∀ b,
      m₁.tree.node key = some (.file b) ↔ m.tree.node key = some (.file b)) :
    Ends (Reliable env) (fun _ m' => ∃ sent, Answers env client src dst m m' sent) (do
      if !(← ask (.fsync b)) then failCopy env client a b locks dst
      else do
        let _ ← ask (.close a)
        let _ ← ask (.close b)
        locksReleaseTwo locks
        loggerLog client "COPYFILE" src "OK" (ascii "copied")
        respReplySimple (ascii "OK")) m₁ := by
  refine ends_sure trivial fun synced m₂ hsynced h₂ => ?_
  cases hsynced
  apply Ends.bind
  refine (ends_close a m₂).mono fun _ m₃ h₃ => Ends.bind ?_
  refine (ends_close b m₃).mono fun _ m₄ h₄ => (calms_releaseTwo locks).ends fun _ m₅ _ h₅ => ?_
  apply Ends.bind
  refine (ends_log client "COPYFILE" src "OK" _ m₅).mono fun _ m₆ h₆ => ?_
  refine (ends_ok m₆).mono fun _ m₇ h₇ => ⟨okReply, ?_, fun _ => ⟨content, m₁.tree, ?_⟩, fun _ => rfl⟩
  all_goals
    have htree : m₅.tree = m₁.tree := by rw [h₅.tree, h₄.2.2, h₃.2.2, h₂.tree]
    have hrecords₅ : m₅.records = m.records := by
      rw [h₅.records, List.append_nil, h₄.2.1, h₃.2.1, h₂.records, List.append_nil, hrecords]
    have hout₅ : m₅.out = m.out := by
      rw [h₅.silent, h₄.1, h₃.1, h₂.silent, hout]
  · obtain ⟨⟨lines, hdid⟩, -⟩ := Logged.entered h₆
    rw [h₇.out, hdid.silent, hout₅]
  · refine ⟨hsource, hbare, htarget, hothers, ?_⟩
    rw [h₇.tree, h₇.records, List.append_nil]
    rcases h₆ with ⟨hdir, hcalm⟩ | ⟨-, ts, -, hdid, hputs⟩
    · exact .inl ⟨htree ▸ hdir, hcalm.tree.trans htree⟩
    · rw [htree] at hputs
      exact .inr ⟨ts, by rw [hdid.records, hrecords₅]; rfl, hputs⟩

theorem ends_openSource {β : Type} {full rel : Bytes} (hb : below env.dataDir full = some rel)
    {f : Option Nat → Server β} {Q : β → Machine → Prop}
    (hopen : ∀ fd m', Working fd ⟨resolve rel, .read, 0⟩ m m' → m'.tree = m.tree →
      (m.tree.node (resolve rel) = some .dir ∨ Bare rel ∧ m.tree.node (resolve rel) ≠ none) →
      Ends (Reliable env) Q (f (some fd)) m')
    (hfail : ∀ m', Calm [] m m' → (Bare rel → ∀ b, m.tree.node (resolve rel) ≠ some (.file b)) →
      Ends (Reliable env) Q (f none) m') :
    Ends (Reliable env) Q (ask (.open full .read) >>= f) m := by
  have hex : ∃ r m', Reliable env m (.open full .read) r m' := by
    by_cases hfile : Bare rel ∧ ∃ b, m.tree.node (resolve rel) = some (.file b)
    · obtain ⟨hbare, b, hfile⟩ := hfile
      obtain ⟨fd, hfd⟩ := m.exists_free
      have hfound : m.tree.node (resolve rel) ≠ none := by simp [hfile]
      exact ⟨some fd, _, .inl ⟨rel, fd, hb, rfl, hfd, .inr ⟨hbare, hfound⟩, rfl⟩⟩
    · refine ⟨none, _, .inr ⟨rfl, .enoent, ?_, rfl⟩⟩
      intro rel' hb' hbare b hnode
      rw [hb] at hb'
      cases hb'
      exact hfile ⟨hbare, b, hnode⟩
  apply Ends.bind
  apply ends_call _ hex
  rintro r m' (⟨rel', fd, hb', rfl, hfd, hfound, rfl⟩ | ⟨rfl, e, hexc, rfl⟩)
  · rw [hb] at hb'
    cases hb'
    exact hopen fd _ (.opened hfd _ (Did.refl m)) rfl hfound
  · exact hfail _ (calm_fail m e) (hexc rel hb)

/-- One file is open, and then another one. -/
theorem Working.both {a b : Nat} {x y : Handle} {m₂ : Machine} (ha : Working a x m m₁)
    (hb : Working b y m₁ m₂) : b ≠ a ∧ Copying a b x y m m₂ := by
  have hfree : m₁.handle b = none := by
    rw [Machine.handle, ← hb.done.handles]
    exact (Machine.handle_close m₂ b b).trans (if_pos rfl)
  have hne : b ≠ a := by
    rintro rfl
    rw [ha.handle] at hfree
    cases hfree
  refine ⟨hne, ?_, ?_, ?_, hb.handle⟩
  · exact hb.done.silent.trans ha.done.silent
  · have h₁ : m₁.records = m.records ++ [] := ha.done.records
    have h₂ : m₂.records = m₁.records ++ [] := hb.done.records
    rw [h₂, h₁, List.append_nil, List.append_nil]
  · have hkept : (m₂.closeHandle b).handle a = m₁.handle a := by
      rw [Machine.handle, hb.done.handles]
      rfl
    rw [Machine.handle_close, if_neg hne.symm] at hkept
    rw [hkept, ha.handle]

theorem ends_copyfile (client : Bytes) {srcFull dstFull : Bytes}
    (hsrc : pathBuild env.dataDir src pathMax = some srcFull)
    (hdst : pathBuild env.dataDir dst pathMax = some dstFull) (m : Machine) :
    Ends (Reliable env) (fun _ m' => ∃ sent, Answers env client src dst m m' sent)
      (opCopyfile env client src dst) m := by
  unfold opCopyfile withTwoPaths
  simp only [hsrc, hdst]
  refine (calms_acquireTwo srcFull dstFull).ends fun locks m₀ hlocks h₀ => ?_
  cases locks with
  | none => exact absurd rfl hlocks
  | some locks =>
    apply ends_openSource (below_build hsrc)
    · intro a m₁ ha htree₁ hfound
      rw [h₀.tree] at htree₁ hfound
      have ha' : Working a ⟨resolve src, .read, 0⟩ m m₁ := ⟨ha.handle, h₀.toDid.trans ha.done⟩
      apply Ends.bind
      refine (ends_ensureParentDirs (below_build hdst) (pathBuild_fits hdst) m₁).mono ?_
      rintro ok m₂ ⟨h₂, hadds, hsure⟩
      rw [htree₁] at hadds hsure
      have ha₂ := ha'.did h₂
      cases ok with
      | false =>
        apply ends_noTarget locks ha₂
        rintro ⟨-, -, b, hfile⟩
        cases (hsure (by simp [hfile])).1
      | true =>
        apply ends_openWrite (below_build hdst)
        · intro b m₃ hbare hroom hb hputs
          obtain ⟨hne, hcopying⟩ := Working.both ha₂ hb
          apply Ends.bind
          cases hnode : m.tree.node (resolve src) with
          | none =>
            rcases hfound with hdir | hsome
            · rw [hnode] at hdir
              cases hdir
            · exact absurd hnode hsome.2
          | some x =>
            have hnode₂ := hadds.found hnode
            cases x with
            | dir =>
              have hother : resolve src ≠ resolve dst := by
                intro he
                rw [he] at hnode₂
                exact hroom.free hnode₂
              have hdir : m₃.tree.node (resolve src) = some .dir := by
                rw [hputs.other hother, hnode₂]
              refine (ends_copyLoop_dir hcopying hdir).mono ?_
              rintro _ m₄ ⟨rfl, hout⟩
              refine ends_failCopy a b locks src hout ?_
              rintro ⟨⟨-, c, hfile⟩, -⟩
              rw [hnode] at hfile
              cases hfile
            | file content =>
              have hbareSrc : Bare src := by
                rcases hfound with hdir | hsome
                · rw [hnode] at hdir
                  cases hdir
                · exact hsome.1
              have hnode₃ : m₃.tree.node (resolve src) =
                  some (.file (if resolve src = resolve dst then [] else content)) := by
                split
                · next he => rw [he, hputs.self]
                · next hother => rw [hputs.other hother, hnode₂]
              refine (ends_copyLoop hne hcopying hputs hnode₃).mono ?_
              rintro _ m₄ ⟨rfl, ⟨_, _, hdone⟩, hputs₄⟩
              refine ends_copied hdone.out hdone.records hnode ⟨hbareSrc, hbare⟩ hputs₄.self ?_
              intro key hkey c
              rw [hputs₄.other hkey, hadds.file_iff]
        · intro m₃ h₃ hno
          apply ends_noTarget locks (ha₂.calm h₃)
          rintro ⟨-, hbare, c, hfile⟩
          rw [← (hsure (by simp [hfile])).2] at hfile
          exact hno hbare c hfile
    · intro m₁ h₁ hno
      refine ends_noSource locks (h₁.silent.trans h₀.silent) ?_
      rintro ⟨⟨hbare, c, hfile⟩, -⟩
      rw [← h₀.tree] at hfile
      exact hno hbare c hfile

/-! ## What is promised -/

/-- The destination has what was in the source, the source still has it, and all other files but
the log are as they were. -/
def Copied (env : Env) (src dst : Bytes) (m m' : Machine) : Prop :=
  ∃ content, m.tree.node (resolve src) = some (.file content) ∧
    m'.tree.node (resolve dst) = some (.file content) ∧
    m'.tree.node (resolve src) = some (.file content) ∧
    ∀ key, key ≠ resolve dst → key ≠ logKey env → ∀ b,
      m'.tree.node key = some (.file b) ↔ m.tree.node key = some (.file b)

/-- The run was answered with `+OK`. -/
def RunsOk (env : Env) (client src dst : Bytes) (m m' : Machine) : Prop :=
  (∃ b, Runs (Reliable env) ((Operation.copyfile src dst).run env client) m b m') ∧
    m'.out = m.out ++ okReply

theorem RunsOk.copy (h : RunsOk env client src dst m m') :
    (∃ srcFull, pathBuild env.dataDir src pathMax = some srcFull) ∧
    (∃ dstFull, pathBuild env.dataDir dst pathMax = some dstFull) ∧
    ∃ content t, Copy env client src dst m m' content t := by
  obtain ⟨⟨b, hr⟩, hok⟩ := h
  have hrefused : ∀ m b m', Runs (Reliable env)
      (replyFailure client "COPYFILE" (ascii "-") (ascii "invalid path")) m b m' →
      m'.out ≠ m.out ++ okReply := by
    intro m b m' hr hok
    obtain ⟨sent, lines, hdenial, hdid⟩ := (ends_replyFailure client _ _ _ m).of_runs hr
    exact hdenial.ne (Did.answered hdid hok)
  cases hsrc : pathBuild env.dataDir src pathMax with
  | none =>
    simp only [Operation.run, opCopyfile, withTwoPaths, hsrc] at hr
    exact absurd hok (hrefused _ _ _ hr)
  | some srcFull =>
    cases hdst : pathBuild env.dataDir dst pathMax with
    | none =>
      simp only [Operation.run, opCopyfile, withTwoPaths, hsrc, hdst] at hr
      exact absurd hok (hrefused _ _ _ hr)
    | some dstFull =>
      obtain ⟨sent, hanswers⟩ := (ends_copyfile client hsrc hdst m).of_runs hr
      have hsent : sent = okReply := List.append_cancel_left (hanswers.out.symm.trans hok)
      exact ⟨⟨srcFull, rfl⟩, ⟨dstFull, rfl⟩, hanswers.made hsent⟩

section Records

variable {op : Operation} {times : Bytes → Prop}

/-- A reliable machine whose clock gives texts in `times`. -/
def Timely (env : Env) (times : Bytes → Prop) (m : Machine) (c : Call) (r : Answer c)
    (m' : Machine) : Prop :=
  Reliable env m c r m' ∧ Timed times c r

theorem Timely.records {c : Call} {r : Answer c} {n : Nat} (h : Timely env times m c r m')
    (hc : Permits env client times op c) (hn : n ≤ m.records.length)
    (hm : ∀ line ∈ m.records.drop n, ∃ ts, times ts ∧ Record env client op ts line) :
    n ≤ m'.records.length ∧
      ∀ line ∈ m'.records.drop n, ∃ ts, times ts ∧ Record env client op ts line := by
  by_cases hrec : Recording c
  · cases c with
    | fprintf line =>
      rcases h.1 with ⟨b, -, hroom, rfl⟩ | ⟨hr, -⟩
      · simp only [List.length_append]
        refine ⟨by omega, fun x hx => ?_⟩
        rw [List.drop_append_of_le_length hn, List.mem_append] at hx
        rcases hx with hx | hx
        · exact hm x hx
        · rw [List.mem_singleton.mp hx]
          exact hc
      · exact hr.elim
    | _ => exact hrec.elim
  · rw [h.1.records hrec]
    exact ⟨hn, hm⟩

/-- The clock may be chosen. -/
theorem exists_timely {Q : Bool → Machine → Prop} (op : Operation) (times : Bytes → Prop)
    (h : Ends (Reliable env) Q (op.run env client) m) (ts : Bytes) (hts : times ts)
    (hline : 10 ∉ ts) :
    ∃ b m', Runs (Reliable env) (op.run env client) m b m' ∧ Q b m' ∧
      ∀ line ∈ m'.records.drop m.records.length, ∃ ts, times ts ∧ Record env client op ts line := by
  have hends : Ends (Timely env times) Q (op.run env client) m := by
    refine h.restrict (fun _ _ _ _ hx => hx.1) fun m c hex => ?_
    obtain ⟨r, m', hx⟩ := hex
    cases c with
    | time => exact ⟨ts, m, .inl ⟨hline, rfl⟩, hts⟩
    | _ => exact ⟨r, m', hx, trivial⟩
  obtain ⟨b, m', hrun, hq⟩ := hends.exists_runs
  refine ⟨b, m', hrun.mono fun _ _ _ _ hx => hx.1, hq, ?_⟩
  have hkeep := hrun.reaches.invariant (I := fun m₁ => m.records.length ≤ m₁.records.length ∧
      ∀ line ∈ m₁.records.drop m.records.length,
        ∃ ts, times ts ∧ Record env client op ts line) (obeys_operation op)
    (fun m₁ c r m₂ hI hc hx => ⟨hx.2, hx.records hc hI.1 hI.2⟩)
    ⟨Nat.le_refl _, by simp⟩
  exact hkeep.2.2

end Records

theorem copyRecord_ne_nil (ts : Bytes) : copyRecord client src ts ≠ [] := by
  simp [copyRecord, logLine]

/-- A copy of a file to another one, neither of them the log, or of an empty file. -/
def Apart (env : Env) (src dst : Bytes) (t : Tree Bytes Bytes) : Prop :=
  resolve src ≠ logKey env ∧ resolve dst ≠ logKey env ∧
    (resolve src = resolve dst → t.node (resolve src) = some (.file []))

theorem Copy.copied {content : Bytes} {t : Tree Bytes Bytes}
    (h : Copy env client src dst m m' content t) (hapart : Apart env src dst m.tree) :
    Copied env src dst m m' := by
  obtain ⟨hsrc, hdst, hsame⟩ := hapart
  have hkept : ∀ key, key ≠ logKey env → m'.tree.node key = t.node key := by
    intro key hkey
    rcases h.logged with ⟨-, he⟩ | ⟨ts, -, hputs⟩
    · rw [he]
    · exact hputs.other hkey
  have htarget : t.node (resolve dst) = some (.file content) := by
    rw [h.target]
    split
    · next he =>
      have hempty := hsame he
      rw [h.source] at hempty
      cases hempty
      rfl
    · rfl
  refine ⟨content, h.source, ?_, ?_, fun key hkey hlog b => ?_⟩
  · rw [hkept _ hdst, htarget]
  · rw [hkept _ hsrc]
    by_cases he : resolve src = resolve dst
    · rw [he, htarget]
    · rw [h.others _ he]
      exact h.source
  · rw [hkept _ hlog]
    exact h.others key hkey b

/-- A file that is copied to itself is empty afterwards. -/
theorem Copy.same {content : Bytes} {t : Tree Bytes Bytes}
    (h : Copy env client src dst m m' content t) (he : resolve src = resolve dst)
    (hlog : resolve dst ≠ logKey env) : m'.tree.node (resolve dst) = some (.file []) := by
  have htarget := h.target
  rw [if_pos he] at htarget
  rcases h.logged with ⟨-, htree⟩ | ⟨ts, -, hputs⟩
  · rw [htree, htarget]
  · rw [hputs.other hlog, htarget]

/-- The record of the copy is behind what is in the log. -/
theorem Copy.logKey {content : Bytes} {t : Tree Bytes Bytes}
    (h : Copy env client src dst m m' content t) {b : Bytes}
    (hfile : t.node (logKey env) = some (.file b)) :
    ∃ ts, m'.records = m.records ++ [copyRecord client src ts] ∧
      m'.tree.node (logKey env) = some (.file (b ++ copyRecord client src ts)) := by
  rcases h.logged with ⟨hdir, -⟩ | ⟨ts, hrecords, hputs⟩
  · rw [hfile] at hdir
    cases hdir
  · have hself := hputs.self
    rw [contentAt_file hfile] at hself
    exact ⟨ts, hrecords, hself⟩

/-- The log is copied to itself, at a time whose text is too long for the log to be as before. -/
theorem log_not_copied (hrun : RunsOk env client src dst m m')
    (hsrc : resolve src = logKey env) (hdst : resolve dst = logKey env) :
    ∃ m', RunsOk env client src dst m m' ∧ ¬ Copied env src dst m m' := by
  obtain ⟨⟨srcFull, hsrcFull⟩, ⟨dstFull, hdstFull⟩, content, t, hcopy⟩ := hrun.copy
  have hready : Ready src dst m.tree := by
    refine ⟨⟨hcopy.bare.1, content, hcopy.source⟩, hcopy.bare.2, content, ?_⟩
    rw [hdst, ← hsrc]
    exact hcopy.source
  obtain ⟨b, m₁, hrun₁, ⟨sent, hanswers⟩, hlines⟩ := exists_timely (.copyfile src dst)
    (fun ts => content.length < ts.length) (ends_copyfile client hsrcFull hdstFull m)
    (List.replicate (content.length + 1) 48) (by simp) (by simp)
  have hsent := hanswers.sure hready
  obtain ⟨content₁, t₁, hcopy₁⟩ := hanswers.made hsent
  refine ⟨m₁, ⟨⟨b, hrun₁⟩, hsent ▸ hanswers.out⟩, ?_⟩
  rintro ⟨content', hfile', htarget', -⟩
  have hcut := hcopy₁.target
  rw [if_pos (hsrc.trans hdst.symm), hdst] at hcut
  obtain ⟨ts, hrecords, hlog⟩ := hcopy₁.logKey hcut
  rw [hdst, hlog] at htarget'
  rw [hcopy.source] at hfile'
  cases hfile'
  have hlen := congrArg List.length (Node.file.inj (Option.some.inj htarget'))
  obtain ⟨ts', hts', command, target, status, detail, hline, -⟩ :=
    hlines (copyRecord client src ts) (by rw [hrecords, List.drop_left]; simp)
  rw [hline] at hlen
  simp only [logLine, List.length_append, List.length_nil] at hlen
  omega

/-- If a copy is answered with `+OK`, then what it promises holds however it goes, if and only if
neither file is the log, and the two are not one file with something in it. -/
theorem copied_iff (hrun : RunsOk env client src dst m m') :
    (∀ m', RunsOk env client src dst m m' → Copied env src dst m m') ↔
      Apart env src dst m.tree := by
  constructor
  · intro hall
    obtain ⟨-, -, content, t, hcopy⟩ := hrun.copy
    obtain ⟨content', hfile, htarget, hsource, -⟩ := hall m' hrun
    rw [hcopy.source] at hfile
    cases hfile
    have hnil : ∀ ts, content ++ copyRecord client src ts ≠ content := by
      intro ts he
      exact copyRecord_ne_nil ts (List.append_right_eq_self.mp he)
    have hlogged : ∀ b, t.node (logKey env) = some (.file b) → b = content →
        m'.tree.node (logKey env) ≠ some (.file content) := by
      rintro b hb rfl he
      obtain ⟨ts, -, hlog⟩ := hcopy.logKey hb
      rw [hlog] at he
      exact hnil ts (Node.file.inj (Option.some.inj he))
    have hdst : resolve dst ≠ logKey env := by
      intro hdst
      by_cases hsrc : resolve src = logKey env
      · obtain ⟨m₁, hrun₁, hnot⟩ := log_not_copied hrun hsrc hdst
        exact hnot (hall m₁ hrun₁)
      · have hcopied := hcopy.target
        rw [if_neg (fun he => hsrc (he.trans hdst)), hdst] at hcopied
        exact hlogged _ hcopied rfl (hdst ▸ htarget)
    refine ⟨fun hsrc => ?_, hdst, fun he => ?_⟩
    · have hother : resolve src ≠ resolve dst := fun he => hdst (he.symm.trans hsrc)
      have hkept := (hcopy.others _ hother content).mpr hcopy.source
      exact hlogged _ (hsrc ▸ hkept) rfl (hsrc ▸ hsource)
    · have hempty := hcopy.same he hdst
      rw [htarget] at hempty
      cases hempty
      exact hcopy.source
  · intro hapart m' hrun'
    obtain ⟨-, -, content, t, hcopy⟩ := hrun'.copy
    exact hcopy.copied hapart

/-- `COPYFILE a a.rle`. -/
theorem copied_iff_other : ∃ m', RunsOk here (ascii "unknown") (ascii "a") (ascii "a.rle")
    (booted (twoFiles [120])) m' ∧
    Copied here (ascii "a") (ascii "a.rle") (booted (twoFiles [120])) m' := by
  have hbuild : pathBuild here.dataDir (ascii "a.rle") pathMax = some (ascii "./a.rle") := rfl
  have hbare : Bare (ascii "a.rle") := by
    unfold Bare
    decide
  obtain ⟨b, m, hrun, sent, hanswers⟩ :=
    (ends_copyfile (ascii "unknown") build_a hbuild (booted (twoFiles [120]))).exists_runs
  have hsent := hanswers.sure ⟨⟨bare_a, [120], rfl⟩, hbare, [], rfl⟩
  have hok : RunsOk here (ascii "unknown") (ascii "a") (ascii "a.rle") (booted (twoFiles [120])) m :=
    ⟨⟨b, hrun⟩, hsent ▸ hanswers.out⟩
  refine ⟨m, hok, (copied_iff hok).mpr ⟨a_not_log, by decide, fun he => ?_⟩ m hok⟩
  exact absurd he (by decide)

/-- `COPYFILE a ./a` is answered with `+OK`, and what was in the file is gone. -/
theorem copied_to_itself : ∃ m',
    RunsOk here (ascii "unknown") (ascii "a") (ascii "./a") (booted (twoFiles [120])) m' ∧
    m'.tree.node (resolve (ascii "a")) = some (.file []) ∧
    ¬ Copied here (ascii "a") (ascii "./a") (booted (twoFiles [120])) m' := by
  have hbuild : pathBuild here.dataDir (ascii "./a") pathMax = some (ascii "././a") := rfl
  have hbare : Bare (ascii "./a") := by
    unfold Bare
    decide
  obtain ⟨b, m, hrun, sent, hanswers⟩ :=
    (ends_copyfile (ascii "unknown") build_a hbuild (booted (twoFiles [120]))).exists_runs
  have hsent := hanswers.sure ⟨⟨bare_a, [120], rfl⟩, hbare, [120], rfl⟩
  obtain ⟨content, t, hcopy⟩ := hanswers.made hsent
  have hgone : m.tree.node (resolve (ascii "a")) = some (.file []) :=
    hcopy.same (by decide) (by decide)
  refine ⟨m, ⟨⟨b, hrun⟩, hsent ▸ hanswers.out⟩, hgone, ?_⟩
  rintro ⟨content', hfile, -, hkept, -⟩
  have hbefore : (booted (twoFiles [120])).tree.node (resolve (ascii "a")) = some (.file [120]) := rfl
  rw [hbefore] at hfile
  rw [hgone] at hkept
  cases hfile
  cases hkept

end ServerCopies
