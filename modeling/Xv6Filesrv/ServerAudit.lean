import Xv6Filesrv.ServerStorage

/-!
# The audit log

The log is a file in the data directory.  Commands that do not write, remove or rename it only add
to it, and if no path has a newline in it then each event has one line, and `LOGS` shows the last
ones.
-/

namespace ServerAudit

open FileTree ServerResp ServerPaths ServerOps ServerCalls ServerDiscipline ServerAccess ServerFiles
  ServerReplyFormat ServerReliable ServerStorage Programs.Prog ProgramRuns

variable {env : Env} {m m' : Machine} {c : Call} {r : Answer c} {client : Bytes} {op : Operation}
  {key : List Bytes} {peer : Option (UInt8 × UInt8 × UInt8 × UInt8)} {content : Bytes}

/-! ## Appending -/

theorem Does.appended {line : Bytes} {u : Unit} (h : Does env m (.fprintf line) u m') :
    ∃ b text, m.tree.node (logKey env) = some (.file b) ∧
      m'.tree.node (logKey env) = some (.file (b ++ text)) := by
  have heffect : ∀ text, Effect env m (.fprintf text) u m' → ∃ b text,
      m.tree.node (logKey env) = some (.file b) ∧
        m'.tree.node (logKey env) = some (.file (b ++ text)) := by
    rintro text ⟨b, hb, hroom, rfl⟩
    exact ⟨b, text, hb, Tree.put_self _ hroom⟩
  rcases h with h | ⟨h, -⟩ | ⟨n, h⟩
  · exact heffect line h
  · exact h.elim
  · exact heffect _ h

/-- A step of an operation that does not disturb a file leaves what is in it where it is. -/
theorem Does.grows (h : Does env m c r m') (hc : Permits env client (fun ts => 10 ∉ ts) op c)
    (hop : ¬ Disturbs env op key) (hm : m.Unwritten key) :
    contentAt m.tree key <+: contentAt m'.tree key ∧ m'.Unwritten key := by
  have htouch : Touches env key c → ∃ line, c = .fprintf line ∧ logKey env = key :=
    fun ht => (touches_of_permits hc ht).resolve_left hop
  constructor
  · cases hnode : m.tree.node key with
    | none =>
      rw [contentAt, hnode]
      exact List.nil_prefix
    | some x =>
      cases x with
      | dir =>
        rw [contentAt, hnode]
        exact List.nil_prefix
      | file b =>
        rw [contentAt_file hnode]
        by_cases ht : Touches env key c
        · obtain ⟨line, rfl, rfl⟩ := htouch ht
          obtain ⟨b', text, hb', hnode'⟩ := Does.appended h
          rw [hnode] at hb'
          cases hb'
          rw [contentAt_file hnode']
          exact List.prefix_append b text
        · have hkept := contentAt_file (h.kept ht hnode hm)
          exact hkept ▸ List.prefix_refl _
  · apply h.unwritten _ hm
    intro ht hopen
    obtain ⟨line, rfl, -⟩ := htouch ht
    exact hopen

/-- Where the log should be. -/
def operationsLog : List Bytes := [ascii "operations.log"]

/-- In every sequence of commands, whatever fails, a command that does not write, remove or rename
the log leaves what is in it as the beginning of what is in it afterwards. -/
theorem log_append_only {m₀ : Machine} {xs : List Command} {x : Command} {b : Bool}
    (hm₀ : m₀.Closed) (hxs : Session env (Does env) m₀ xs m)
    (hx : ¬ Disturbs env x.op operationsLog) (hr : Runs (Does env) (x.run env) m b m') :
    contentAt m.tree operationsLog <+: contentAt m'.tree operationsLog := by
  have hgrown := run_keeps (I := fun m₁ =>
      contentAt m.tree operationsLog <+: contentAt m₁.tree operationsLog ∧
        m₁.Unwritten operationsLog) hr id
    (fun m₁ c r m₂ hI hc h => by
      obtain ⟨hmore, hclosed⟩ := Does.grows h hc hx hI.2
      exact ⟨hI.1.trans hmore, hclosed⟩)
    ⟨List.prefix_refl _, (hxs.closed hm₀).unwritten _⟩
  exact hgrown.1

/-- A data directory with an empty file `a` and a log of one line. -/
def withLog : Tree Bytes Bytes := addFile oneFile (ascii "operations.log") [121, 10] nofun

def setLog : Command :=
  ⟨none, itemOf (ascii "SETFILE"), [itemOf (ascii "operations.log"), itemOf [120]]⟩

/-- `SETFILE a` adds to the log. -/
theorem log_append_only_set : ∃ b m,
    Runs (Does here) ((setA [120]).run here) (booted withLog) b m ∧
    contentAt (booted withLog).tree operationsLog <+: contentAt m.tree operationsLog := by
  obtain ⟨b, m, hrun, -⟩ := (ends_setfile (clientName none) build_a [120] (booted withLog)).exists_runs
  have hrun' : Runs (Does here) ((setA [120]).run here) (booted withLog) b m :=
    hrun.mono fun _ _ _ _ => Reliable.does
  have hother : resolve (ascii "a") ≠ operationsLog := by decide
  refine ⟨b, m, hrun', ?_⟩
  exact log_append_only (booted_closed withLog) .done (fun h => hother h.2) hrun'

/-- The log can be written over like any other file. -/
theorem log_overwritten : ∃ b m,
    Runs (Does here) (setLog.run here) (booted withLog) b m ∧
    ¬ contentAt (booted withLog).tree operationsLog <+: contentAt m.tree operationsLog := by
  have hbuild : pathBuild here.dataDir (ascii "operations.log") pathMax =
      some (ascii "./operations.log") := rfl
  have hbare : Bare (ascii "operations.log") := by
    unfold Bare
    decide
  have hlog : logKey here = operationsLog := by decide
  obtain ⟨b, m, hrun, sent, ⟨-, hstored⟩, hsure⟩ :=
    (ends_setfile (clientName none) hbuild [120] (booted withLog)).exists_runs
  obtain ⟨-, t, hfile, hentered⟩ := hstored (hsure hbare ⟨[121, 10], rfl⟩)
  have hkey : resolve (ascii "operations.log") = operationsLog := by decide
  rw [hkey] at hfile
  refine ⟨b, m, hrun.mono fun _ _ _ _ => Reliable.does, fun hpre => ?_⟩
  rcases hentered with ⟨hdir, -⟩ | ⟨ts, -, hputs⟩
  · rw [hlog, hfile] at hdir
    cases hdir
  · have hself := hputs.self
    rw [hlog, contentAt_file hfile] at hself
    rw [contentAt_file hself] at hpre
    have hbefore : contentAt (booted withLog).tree operationsLog = [121, 10] := rfl
    rw [hbefore] at hpre
    obtain ⟨rest, hrest⟩ := hpre
    have hhead := congrArg List.head? hrest
    simp at hhead

/-! ## Lines -/

/-- A text that ends in its only newline. -/
def IsLine (line : Bytes) : Prop := ∃ text, line = text ++ [10] ∧ 10 ∉ text

theorem isLine_logLine {ts client command target status detail : Bytes} (hts : 10 ∉ ts)
    (hclient : 10 ∉ client) (hcommand : 10 ∉ command) (htarget : 10 ∉ target) (hstatus : 10 ∉ status)
    (hdetail : 10 ∉ detail) : IsLine (logLine ts client command target status detail) := by
  refine ⟨_, rfl, ?_⟩
  simp only [List.mem_append, not_or]
  exact ⟨⟨⟨⟨⟨⟨⟨⟨⟨⟨hts, by decide⟩, hclient⟩, by decide⟩, hcommand⟩, by decide⟩, htarget⟩,
    by decide⟩, hstatus⟩, by decide⟩, hdetail⟩

/-- The lines of a text are read off at its newlines. -/
theorem splitOn_lines {lines : List Bytes} (h : ∀ line ∈ lines, IsLine line) :
    lines.flatten.splitOn 10 = lines.map List.dropLast ++ [[]] := by
  induction lines with
  | nil => rfl
  | cons line lines ih =>
    obtain ⟨text, rfl, htext⟩ := h line List.mem_cons_self
    rw [List.flatten_cons, List.append_assoc, List.singleton_append, List.splitOn_append_cons_self,
      List.splitOn_eq_singleton htext, ih fun line hline => h line (List.mem_cons_of_mem _ hline),
      List.map_cons, List.dropLast_concat]
    rfl

theorem count_lines {lines : List Bytes} (h : ∀ line ∈ lines, IsLine line) :
    lines.flatten.count 10 = lines.length := by
  induction lines with
  | nil => rfl
  | cons line lines ih =>
    obtain ⟨text, rfl, htext⟩ := h line List.mem_cons_self
    rw [List.flatten_cons, List.count_append, List.count_append, List.count_eq_zero.mpr htext,
      ih fun line hline => h line (List.mem_cons_of_mem _ hline)]
    simp
    omega

/-! ## The records of commands -/

theorem clientName_plain (peer : Option (UInt8 × UInt8 × UInt8 × UInt8)) : 10 ∉ clientName peer := by
  cases peer with
  | none => decide
  | some address =>
    obtain ⟨a, b, c, d⟩ := address
    have hnumeral : ∀ n, 10 ∉ Decimal.numeral n := by
      intro n hmem
      exact absurd (Decimal.numeral_digits n 10 hmem) (by decide)
    simp only [clientName, List.mem_append, List.mem_cons, not_or]
    exact ⟨hnumeral _, by decide, hnumeral _, by decide, hnumeral _, by decide, hnumeral _⟩

/-- The command leaves the log to the logger. -/
def Spares (env : Env) (op : Operation) : Prop :=
  ¬ Disturbs env op (logKey env) ∧ ∀ rel ∈ places op, ¬ logKey env <+: resolve rel

/-- The log has the records in it, each on its line. -/
structure Audited (env : Env) (m : Machine) : Prop where
  content : m.tree.node (logKey env) = some (.file m.records.flatten) ∨
    m.tree.node (logKey env) = none ∧ m.records = []
  lines : ∀ line ∈ m.records, IsLine line

theorem isLine_of_permits {line : Bytes} (henv : ∀ e, 10 ∉ env.strerror e)
    (hop : ∀ path ∈ paths op, 10 ∉ path)
    (h : Permits env (clientName peer) (fun ts => 10 ∉ ts) op (.fprintf line)) : IsLine line := by
  obtain ⟨ts, hts, command, target, status, detail, rfl, hcommand, htarget, hstatus, hdetail⟩ := h
  have htarget' : 10 ∉ target := by
    rcases htarget with hmem | hplain
    · exact hop target hmem
    · exact hplain
  have hdetail' : 10 ∉ detail := by
    rcases hdetail with ⟨e, rfl⟩ | hplain
    · exact henv e
    · exact hplain
  exact isLine_logLine hts (clientName_plain peer) hcommand htarget' hstatus hdetail'

/-- A directory is not made where the log should be. -/
theorem mkdir_spares {path rel : Bytes} (hop : Spares env op)
    (hc : Permits env client (fun ts => 10 ∉ ts) op (.mkdir path))
    (hb : below env.dataDir path = some rel) : resolve rel ≠ logKey env := by
  obtain ⟨-, rel', hrel', full, hfull, hd⟩ := hc
  obtain ⟨rest, hrest⟩ := mem_parentDirs hd
  rw [pathBuild_eq hfull, below_eq hb] at hrest
  have he : rel' = rel ++ 47 :: rest := by simpa using hrest
  intro hkey
  apply hop.2 rel' hrel'
  rw [he, ← hkey]
  exact resolve_above

/-- Nothing is moved above the log. -/
theorem log_not_below {t : Tree Bytes Bytes} {src dst : List Bytes} (h : t.Movable src dst)
    (hpre : dst <+: logKey env) : dst = logKey env := by
  obtain ⟨k, name, hdst, -⟩ := h.place
  rcases logKey_shape env with hroot | ⟨n, hname⟩
  · rw [hroot] at hpre ⊢
    exact List.prefix_nil.mp hpre
  · rw [hname] at hpre ⊢
    apply hpre.eq_of_length_le
    rw [hdst]
    simp

/-- A log that is missing is only made by the logger. -/
theorem Effect.missing (h : Effect env m c r m') (hop : Spares env op)
    (hc : Permits env client (fun ts => 10 ∉ ts) op c)
    (hnone : m.tree.node (logKey env) = none) (hrec : ¬ Recording c) :
    m'.tree.node (logKey env) = none ∨ m'.tree.node (logKey env) = some (.file []) := by
  have htouch : ¬ Touches env (logKey env) c := by
    intro ht
    rcases touches_of_permits hc ht with hd | ⟨line, rfl, -⟩
    · exact hop.1 hd
    · exact hrec trivial
  have hother : ∀ key x (hroom : m.tree.Room key), logKey env ≠ key →
      (m.tree.put key x hroom).node (logKey env) = none := by
    intro key x hroom hne
    rw [Tree.put_other x hroom hne, hnone]
  cases c with
  | «open» path mode =>
    left
    cases mode with
    | read => rw [h.tree not_false, hnone]
    | write =>
      obtain ⟨rel, fd, hrel, -, -, -, hroom, rfl⟩ := h
      exact hother _ _ hroom fun he => htouch ⟨rel, hrel, he.symm⟩
  | write fd data =>
    left
    obtain ⟨key, pos, b, w, -, hb, -, -, hroom, rfl⟩ := h
    apply hother _ _ hroom
    rintro rfl
    rw [hnone] at hb
    cases hb
  | unlink path =>
    left
    obtain ⟨rel, hrel, -, -, -, hdir, rfl⟩ := h
    rw [Tree.remove_other hdir fun he => htouch ⟨rel, hrel, he.symm⟩, hnone]
  | rename src dst =>
    left
    obtain ⟨a, b, ha, hb, -, -, ⟨-, -, rfl⟩ | ⟨hmove, rfl⟩⟩ := h
    · exact hnone
    · apply Tree.move_none hmove hnone
      intro hpre
      exact htouch ⟨a, b, ha, hb, .inr (log_not_below hmove hpre)⟩
  | mkdir path =>
    left
    obtain ⟨rel, hrel, -, -, hroom, rfl⟩ := h
    exact hother _ _ hroom (mkdir_spares hop hc hrel).symm
  | fopen append =>
    cases append with
    | false => exact .inl (by rw [h.tree not_false, hnone])
    | true =>
      obtain ⟨-, ⟨⟨b, hb⟩, -⟩ | ⟨-, hroom, rfl⟩⟩ := h
      · rw [hnone] at hb
        cases hb
      · exact .inr (Tree.put_self _ hroom)
  | fprintf line => exact absurd trivial hrec
  | _ => exact .inl (by rw [h.tree not_false, hnone])

/-- Every step of a command keeps the log in order. -/
theorem Audited.step (henv : ∀ e, 10 ∉ env.strerror e) (hop : Spares env op)
    (hpaths : ∀ path ∈ paths op, 10 ∉ path) (h : Audited env m) (hm : m.Unwritten (logKey env))
    (hc : Permits env (clientName peer) (fun ts => 10 ∉ ts) op c) (hx : Reliable env m c r m') :
    Audited env m' ∧ m'.Unwritten (logKey env) ∧ m.records <+: m'.records := by
  have hunwritten : m'.Unwritten (logKey env) := (Does.grows hx.does hc hop.1 hm).2
  by_cases hrec : Recording c
  · cases c with
    | fprintf line =>
      have hline := isLine_of_permits henv hpaths hc
      rcases hx with ⟨b, hb, hroom, rfl⟩ | ⟨hr, -⟩
      · have hcontent : b = m.records.flatten := by
          rcases h.content with hfile | ⟨hnone, -⟩
          · rw [hb] at hfile
            cases hfile
            rfl
          · rw [hb] at hnone
            cases hnone
        refine ⟨⟨.inl ?_, ?_⟩, hunwritten, List.prefix_append _ _⟩
        · rw [List.flatten_append, List.flatten_singleton, ← hcontent]
          exact Tree.put_self _ hroom
        · intro line' hline'
          rcases List.mem_append.mp hline' with hold | hnew
          · exact h.lines line' hold
          · rw [List.mem_singleton.mp hnew]
            exact hline
      · exact hr.elim
    | _ => exact hrec.elim
  · have hrecords := hx.records hrec
    refine ⟨⟨?_, ?_⟩, hunwritten, ?_⟩
    · rw [hrecords]
      rcases h.content with hfile | ⟨hnone, hnil⟩
      · left
        have htouch : ¬ Touches env (logKey env) c := by
          intro ht
          rcases touches_of_permits hc ht with hd | ⟨line, rfl, -⟩
          · exact hop.1 hd
          · exact hrec trivial
        exact hx.does.kept htouch hfile hm
      · rcases hx with hx | ⟨-, e, -, rfl⟩
        · rcases Effect.missing hx hop hc hnone hrec with hnone' | hempty
          · exact .inr ⟨hnone', hnil⟩
          · rw [hnil]
            exact .inl hempty
        · exact .inr ⟨hnone, hnil⟩
    · rw [hrecords]
      exact h.lines
    · exact hrecords ▸ List.prefix_refl _

/-- The log is in order, it begins with `old`, and it is not written but by the logger. -/
def Ordered (env : Env) (old : List Bytes) (m : Machine) : Prop :=
  Audited env m ∧ m.Unwritten (logKey env) ∧ old <+: m.records

/-- The log is left to the logger, and no path has a newline in it. -/
def Plain (env : Env) (op : Operation) : Prop :=
  Spares env op ∧ ∀ path ∈ paths op, 10 ∉ path

theorem Ordered.step {old : List Bytes} (henv : ∀ e, 10 ∉ env.strerror e) (hop : Plain env op)
    (h : Ordered env old m) (hc : Permits env (clientName peer) (fun ts => 10 ∉ ts) op c)
    (hx : Reliable env m c r m') :
    Ordered env old m' := by
  obtain ⟨haudited, hunwritten, hmore⟩ := h.1.step henv hop.1 hop.2 h.2.1 hc hx
  exact ⟨haudited, hunwritten, h.2.2.trans hmore⟩

/-- The log is in order after a session, and what was in it is still there. -/
theorem session_audited {xs : List Command} (henv : ∀ e, 10 ∉ env.strerror e)
    (hs : Session env (Reliable env) m xs m') (hxs : ∀ x ∈ xs, Plain env x.op) (hm : m.Closed)
    (h : Audited env m) : Ordered env m.records m' := by
  apply hs.keeps _ ⟨h, hm.unwritten _, List.prefix_refl _⟩
  intro x hx m₁ b m₂ hr
  exact run_keeps hr Reliable.does fun _ _ _ _ hI hc => hI.step henv (hxs x hx) hc

/-! ## `LOGS` -/

/-- The newlines that are passed on the way are counted. -/
theorem tailStart_skip (limit : Int) (buf : Bytes) (i k : Nat) (hk : i + k ≤ buf.length) :
    ∀ seen : Nat, (seen + ((buf.drop i).take k).count 10 : Int) ≤ limit →
      tailStart limit buf (i + k) seen =
        tailStart limit buf i (seen + ((buf.drop i).take k).count 10) := by
  induction k with
  | zero =>
    intro seen _
    simp
  | succ k ih =>
    intro seen h
    have hget : buf[i + k]? = some buf[i + k] := List.getElem?_eq_getElem (by omega)
    have htake : (buf.drop i).take (k + 1) = (buf.drop i).take k ++ [buf[i + k]] := by
      rw [List.take_add_one, List.getElem?_drop, hget]
      rfl
    rw [htake, List.count_append, List.count_singleton] at h ⊢
    rw [← Nat.add_assoc, tailStart, hget]
    by_cases hnewline : buf[i + k] = 10
    · simp only [hnewline, beq_self_eq_true, if_true] at h ⊢
      rw [if_neg (by omega), ih (by omega) (seen + 1) (by omega)]
      congr 1
      omega
    · have hbeq : (buf[i + k] == 10) = false := by simpa using hnewline
      simp only [hbeq, Bool.false_eq_true, if_false, Nat.add_zero] at h ⊢
      rw [if_neg (by simpa using hnewline), ih (by omega) seen h]

/-- What is found is the end of the text behind a newline, if that has as many lines as are asked
for, or all of a text that does not have more. -/
theorem drop_tailStart {front tail : Bytes} {limit : Int} (htail : (tail.count 10 : Int) ≤ limit)
    (hfront : front = [] ∨ (tail.count 10 : Int) = limit ∧ ∃ text, front = text ++ [10]) :
    (front ++ tail).drop (tailStart limit (front ++ tail) (front ++ tail).length 0) = tail := by
  have hskip := tailStart_skip limit (front ++ tail) front.length tail.length
    (by rw [List.length_append]) 0
  rw [List.drop_left, List.take_length, Nat.zero_add] at hskip
  rw [List.length_append, hskip (by simpa using htail)]
  rcases hfront with rfl | ⟨hcount, text, rfl⟩
  · simp [tailStart]
  · have hget : (text ++ [10] ++ tail)[text.length]? = some 10 := by simp
    rw [List.length_append, List.length_singleton, tailStart, if_pos hget, if_pos (by omega)]
    have hlen : text.length + 1 = (text ++ [10]).length := by simp
    rw [hlen, List.drop_left]

/-- The window of `read_log_tail`. -/
def logWindow (content : Bytes) : Bytes :=
  content.drop (content.length - min content.length 1048576)

/-- The last lines of a log, if they are not cut off by the window. -/
theorem drop_logWindow {records : List Bytes} (hlines : ∀ line ∈ records, IsLine line) {n : Int}
    (hn : 1 ≤ n)
    (hfits : (records.drop (records.length - n.toNat)).flatten.length ≤ 1048576) :
    (logWindow records.flatten).drop
      (tailStart n (logWindow records.flatten) (logWindow records.flatten).length 0) =
      (records.drop (records.length - n.toNat)).flatten := by
  obtain ⟨old, new, hrecords, hnew, hold⟩ : ∃ old new, records = old ++ new ∧
      new = records.drop (records.length - n.toNat) ∧
      (old = [] ∧ new.length ≤ n.toNat ∨ new.length = n.toNat) := by
    refine ⟨_, _, (List.take_append_drop (records.length - n.toNat) records).symm, rfl, ?_⟩
    rw [List.length_drop]
    rcases Nat.le_total records.length n.toNat with hle | hle
    · left
      rw [Nat.sub_eq_zero_of_le hle]
      exact ⟨rfl, by omega⟩
    · right
      omega
  rw [← hnew] at hfits ⊢
  have hlinesNew : ∀ line ∈ new, IsLine line := fun line hline =>
    hlines line (hrecords ▸ List.mem_append_right old hline)
  have hlinesOld : ∀ line ∈ old, IsLine line := fun line hline =>
    hlines line (hrecords ▸ List.mem_append_left new hline)
  have hcount := count_lines hlinesNew
  have hwindow : logWindow records.flatten = old.flatten.drop
      (records.flatten.length - min records.flatten.length 1048576) ++ new.flatten := by
    have hlen : records.flatten.length = old.flatten.length + new.flatten.length := by
      rw [hrecords, List.flatten_append, List.length_append]
    rw [logWindow, hlen]
    rw [hrecords, List.flatten_append, List.drop_append_of_le_length (by omega)]
  rw [hwindow]
  generalize records.flatten.length - min records.flatten.length 1048576 = d
  apply drop_tailStart
  · rw [hcount]
    omega
  · rcases hold with ⟨rfl, -⟩ | hexact
    · left
      simp
    · by_cases hnil : old.flatten.drop d = []
      · exact .inl hnil
      · right
        refine ⟨by rw [hcount]; omega, ?_⟩
        rcases List.eq_nil_or_concat old with rfl | ⟨init, line, rfl⟩
        · simp at hnil
        · obtain ⟨text, rfl, -⟩ := hlinesOld line (by simp)
          have hflat : (init.concat (text ++ [10])).flatten = init.flatten ++ text ++ [10] := by simp
          rw [hflat] at hnil ⊢
          have hd : d ≤ (init.flatten ++ text).length := by
            have := List.drop_eq_nil_iff.not.mp hnil
            rw [List.length_append, List.length_singleton] at this
            omega
          exact ⟨_, List.drop_append_of_le_length hd⟩

section LogFile

variable (hfile : m.tree.node (logKey env) = some (.file content))
include hfile

theorem ends_seek {offset : Int} (hoffset : 0 ≤ content.length + offset) :
    Ends (Reliable env) (fun ok m' => ok = true ∧ Calm [] m m' ∧
      (m'.logPos : Int) = content.length + offset) (ask (.fseekEnd offset)) m := by
  have hpos : ((content.length + offset).toNat : Int) = content.length + offset :=
    Int.toNat_of_nonneg hoffset
  have hex : Effect env m (.fseekEnd offset) true
      { m with logPos := (content.length + offset).toNat } := by
    refine ⟨rfl, _, fun b hb => ?_, rfl⟩
    rw [hfile] at hb
    cases hb
    exact hpos
  apply ends_call (.fseekEnd offset) ⟨true, _, .inl hex⟩
  rintro r m' (⟨rfl, pos, hall, rfl⟩ | ⟨-, e, hexc, -⟩)
  · exact ⟨rfl, ⟨⟨by simp, by simp, rfl, Nat.le_refl _⟩, rfl⟩, hall content hfile⟩
  · have := hexc content hfile
    omega

theorem ends_tell :
    Ends (Reliable env) (fun (pos : Int) m' => pos = m.logPos ∧ Calm [] m m') (ask .ftell) m := by
  apply ends_call .ftell ⟨(m.logPos : Int), _, .inl ⟨fun _ _ => rfl, rfl⟩⟩
  rintro r m' (⟨hall, rfl⟩ | ⟨-, e, hexc, -⟩)
  · exact ⟨hall content hfile, Calm.refl _⟩
  · exact hexc.elim

theorem ends_fread (n : Nat) :
    Ends (Reliable env) (fun data m' => data = (content.drop m.logPos).take n ∧ Calm [] m m')
      (ask (.fread n)) m := by
  have hex : Effect env m (.fread n) ((content.drop m.logPos).take n)
      { m with logPos := m.logPos + ((content.drop m.logPos).take n).length } := by
    refine ⟨fun b hb => ?_, rfl⟩
    rw [hfile] at hb
    cases hb
    rfl
  apply ends_call (.fread n) ⟨_, _, .inl hex⟩
  rintro r m' (⟨hall, rfl⟩ | ⟨hr, -⟩)
  · exact ⟨hall content hfile, ⟨by simp, by simp, rfl, Nat.le_refl _⟩, rfl⟩
  · exact hr.elim

theorem ends_seekBack {n : Nat} (hn : n ≤ content.length) :
    Ends (Reliable env) (fun ok m' => ok = true ∧ Calm [] m m' ∧ m'.logPos = content.length - n)
      (seekBack n) m := by
  apply Ends.bind
  refine (ends_seek hfile (by omega)).mono ?_
  rintro _ m₁ ⟨rfl, h₁, hpos⟩
  exact Ends.pure ⟨rfl, h₁, by omega⟩

/-- The end of the log is read. -/
theorem ends_readLogWindow :
    Ends (Reliable env) (fun out m' => out = some (logWindow content) ∧ Calm [] m m')
      readLogWindow m := by
  apply Ends.bind
  refine (ends_seek hfile (by omega)).mono ?_
  rintro _ m₁ ⟨rfl, h₁, hpos₁⟩
  rw [← h₁.tree] at hfile
  apply Ends.bind
  refine (ends_tell hfile).mono ?_
  rintro size m₂ ⟨hsize, h₂⟩
  rw [← h₂.tree] at hfile
  have hlen : size = content.length := by
    rw [hsize, hpos₁]
    simp
  have hwindow : (if 1048576 < size then 1048576 else size) =
      ((min content.length 1048576 : Nat) : Int) := by
    rw [hlen]
    split <;> omega
  have hnonneg : ¬ size < 0 := by omega
  simp only [if_neg hnonneg, hwindow]
  apply Ends.bind
  refine (ends_seekBack hfile (Nat.min_le_left _ _)).mono ?_
  rintro _ m₃ ⟨rfl, h₃, hpos₃⟩
  rw [← h₃.tree] at hfile
  apply Ends.bind
  apply ends_call (.malloc _) ⟨true, _, .inl ⟨rfl, rfl⟩⟩
  rintro got m₄ (⟨rfl, rfl⟩ | ⟨-, e, hexc, -⟩)
  · apply Ends.bind
    refine (ends_fread hfile _).mono ?_
    rintro buf m₅ ⟨rfl, h₅⟩
    refine ends_sure trivial fun _ m₆ _ h₆ => Ends.pure ⟨congrArg some ?_, ?_⟩
    · rw [logWindow, hpos₃, List.take_of_length_le]
      rw [List.length_drop, hwindow, Int.toNat_natCast]
      omega
    · exact ((h₁.trans h₂).trans h₃).trans (h₅.trans h₆)
  · exact hexc.elim

/-- The answer to `LOGS` with a limit. -/
theorem ends_readLogTail {n : Int} (hn : 1 ≤ n) :
    Ends (Reliable env) (fun out m' => out = some ((logWindow content).drop
      (tailStart n (logWindow content) (logWindow content).length 0)) ∧ Calm [] m m')
      (readLogTail n) m := by
  have hfound : m.tree.node (logKey env) ≠ none := by simp [hfile]
  apply Ends.bind
  apply ends_call (.fopen false) ⟨true, _, .inl ⟨rfl, hfound, rfl⟩⟩
  rintro r m₁ (⟨rfl, -, rfl⟩ | ⟨-, e, ⟨hnone, -⟩ | hdir, -⟩)
  · have hcalm : Calm [] m { m with logPos := 0 } :=
      ⟨⟨by simp, by simp, rfl, Nat.le_refl _⟩, rfl⟩
    apply Ends.bind
    refine (ends_readLogWindow (m := { m with logPos := 0 }) hfile).mono ?_
    rintro out m₂ ⟨rfl, h₂⟩
    have hlimit : ¬ n ≤ 0 := by omega
    simp only [if_neg hlimit]
    refine ends_sure trivial fun got m₃ hgot h₃ => ?_
    cases hgot
    exact Ends.pure ⟨rfl, hcalm.trans (h₂.trans h₃)⟩
  · exact absurd hnone hfound
  · rw [hfile] at hdir
    cases hdir

end LogFile

/-- Without a log there is nothing to show. -/
theorem ends_readLogTail_missing (hnone : m.tree.node (logKey env) = none) (n : Int) :
    Ends (Reliable env) (fun out m' => out = some [] ∧ Calm [] m m') (readLogTail n) m := by
  apply Ends.bind
  apply ends_call (.fopen false) ⟨false, _, .inr ⟨rfl, .enoent, .inl ⟨hnone, rfl⟩, rfl⟩⟩
  rintro r m₁ (⟨-, hfound, -⟩ | ⟨rfl, e, ⟨-, rfl⟩ | hdir, rfl⟩)
  · exact absurd hnone hfound
  · apply Ends.bind
    apply ends_call .errno ⟨.enoent, _, .inl ⟨rfl, rfl⟩⟩
    rintro e m₂ (⟨rfl, rfl⟩ | ⟨hr, -⟩)
    · have herrno : (m.fail .enoent).errno = .enoent := rfl
      rw [if_pos herrno]
      refine ends_sure trivial fun got m₃ hgot h₃ => ?_
      cases hgot
      exact Ends.pure ⟨rfl, (calm_fail m .enoent).trans h₃⟩
    · exact hr.elim
  · rw [hnone] at hdir
    cases hdir

/-- What `read_log_tail` found is sent to the client. -/
theorem ends_opLogs {n : Int} {text : Bytes} (hlen : text.length ≤ 1048576)
    (htail : Ends (Reliable env) (fun out m' => out = some text ∧ Calm [] m m')
      (readLogTail n) m) :
    Ends (Reliable env) (fun _ m' => m'.out = m.out ++ (Reply.bulk text).encode)
      (opLogs env client n) m := by
  apply Ends.bind
  refine htail.mono ?_
  rintro _ m₁ ⟨rfl, h₁⟩
  apply Ends.bind
  refine (ends_bulk (by omega) m₁).mono fun _ m₂ h₂ => ?_
  apply Ends.bind
  refine (ends_log client "LOGS" (ascii "operations.log") "OK" (ascii "read logs") m₂).mono
    fun _ m₃ h₃ => ?_
  obtain ⟨⟨lines, hdid⟩, -⟩ := Logged.entered h₃
  refine Ends.pure ?_
  rw [hdid.out, h₂.out, h₁.out, List.append_nil, List.append_nil]

/-- `LOGS` shows the last records. -/
theorem ends_logs (h : Audited env m) {n : Int} (hn : 1 ≤ n)
    (hfits : (m.records.drop (m.records.length - n.toNat)).flatten.length ≤ 1048576) :
    Ends (Reliable env) (fun _ m' => m'.out = m.out ++
      (Reply.bulk (m.records.drop (m.records.length - n.toNat)).flatten).encode)
      (opLogs env client n) m := by
  apply ends_opLogs hfits
  rcases h.content with hfile | ⟨hnone, hnil⟩
  · refine (ends_readLogTail hfile hn).mono fun out m' hout => ?_
    rw [drop_logWindow h.lines hn hfits] at hout
    exact hout
  · rw [hnil, List.drop_nil, List.flatten_nil]
    exact ends_readLogTail_missing hnone n

/-! ## One line for each event -/

/-- One more record is in the log, on a line of its own. -/
def Enters (env : Env) (record : Bytes → Bytes) (m m' : Machine) : Prop :=
  ∃ ts, IsLine (record ts) ∧ m'.records = m.records ++ [record ts] ∧
    contentAt m'.tree (logKey env) = contentAt m.tree (logKey env) ++ record ts

/-- The logger always adds a line to a log that is in order. -/
theorem ends_log_line {command status : String} {target detail : Bytes} (h : Audited env m)
    (hline : ∀ ts, 10 ∉ ts → IsLine (logLine ts client (ascii command) target (ascii status) detail)) :
    Ends (Reliable env) (fun _ => Enters env
      (fun ts => logLine ts client (ascii command) target (ascii status) detail) m)
      (loggerLog client command target status detail) m := by
  refine (ends_log client command target status detail m).mono ?_
  rintro _ m' (⟨hdir, -⟩ | ⟨-, ts, hts, hdid, hputs⟩)
  · rcases h.content with hfile | ⟨hnone, -⟩
    · rw [hdir] at hfile
      cases hfile
    · rw [hdir] at hnone
      cases hnone
  · exact ⟨ts, hline ts hts, hdid.records, contentAt_file hputs.self⟩

/-- What an operation gives to the logger makes a line. -/
theorem isLine_of_obeys {command status : String} {target detail : Bytes} {k : Unit → Server Bool}
    (henv : ∀ e, 10 ∉ env.strerror e) (hop : Plain env op)
    (h : Obeys env (clientName peer) (fun ts => 10 ∉ ts) op
      (loggerLog client command target status detail >>= k))
    (ts : Bytes) (hts : 10 ∉ ts) :
    IsLine (logLine ts client (ascii command) target (ascii status) detail) := by
  have hlog : Obeys env (clientName peer) (fun ts => 10 ∉ ts) op
      (loggerLog client command target status detail) := Makes.of_bind_prog h
  have hprint := ((hlog.2 ts hts).2 () trivial).2 true trivial
  exact isLine_of_permits henv hop.2 hprint.1

/-- The log has the records in it, line by line. -/
theorem Audited.splitOn (h : Audited env m) :
    (contentAt m.tree (logKey env)).splitOn 10 = m.records.map List.dropLast ++ [[]] := by
  rcases h.content with hfile | ⟨hnone, hnil⟩
  · rw [contentAt_file hfile]
    exact splitOn_lines h.lines
  · rw [contentAt, hnone, hnil]
    rfl

/-- In every session in which the log is left to the logger and no path has a newline in it, the
lines of the log are the records, in order; every call of the logger adds one; and `LOGS` shows the
last ones, if there is not more to show than it reads. -/
theorem one_record_per_line {m₀ : Machine} {xs : List Command} (henv : ∀ e, 10 ∉ env.strerror e)
    (hm₀ : m₀.Closed) (hstart : Audited env m₀) (hs : Session env (Reliable env) m₀ xs m)
    (hxs : ∀ x ∈ xs, Plain env x.op) :
    m₀.records <+: m.records ∧ (∀ line ∈ m.records, IsLine line) ∧
    (contentAt m.tree (logKey env)).splitOn 10 = m.records.map List.dropLast ++ [[]] ∧
    (∀ (x : Command) (m₁ : Machine) (client : Bytes) (command : String) (target : Bytes)
      (status : String) (detail : Bytes) (k : Unit → Server Bool), Plain env x.op →
      Reaches (Reliable env) (x.run env) m (loggerLog client command target status detail >>= k) m₁ →
      Ends (Reliable env) (fun _ => Enters env
        (fun ts => logLine ts client (ascii command) target (ascii status) detail) m₁)
        (loggerLog client command target status detail) m₁) ∧
    ∀ (x : Command) (n : Int), x.op = .logs n → 1 ≤ n →
      (m.records.drop (m.records.length - n.toNat)).flatten.length ≤ 1048576 →
      Ends (Reliable env) (fun _ m' => m'.out = m.out ++
        (Reply.bulk (m.records.drop (m.records.length - n.toNat)).flatten).encode) (x.run env) m := by
  have hordered := session_audited henv hs hxs hm₀ hstart
  refine ⟨hordered.2.2, hordered.1.lines, hordered.1.splitOn, ?_, ?_⟩
  · intro x m₁ client command target status detail k hx hreach
    obtain ⟨hobeys, hordered₁⟩ := reach_keeps hreach Reliable.does
      (fun _ _ _ _ hI hc => Ordered.step henv hx hI hc) hordered
    exact ends_log_line hordered₁.1 (isLine_of_obeys henv hx hobeys)
  · intro x n hop hn hfits
    rw [Command.run, hop]
    exact ends_logs hordered.1 hn hfits

def logsOne : Command := ⟨none, itemOf (ascii "LOGS"), [itemOf (ascii "1")]⟩

theorem setA_plain (content : Bytes) : Plain here (setA content).op := by
  rw [setA_op]
  refine ⟨⟨fun h => a_not_log h.2, ?_⟩, ?_⟩
  · intro rel hrel
    rw [List.mem_singleton.mp hrel]
    decide
  · intro path hpath
    rw [List.mem_singleton.mp hpath]
    decide

/-- After `SETFILE a` the log has a line for each record, and `LOGS 1` shows the line that is in
the log. -/
theorem one_record_per_line_set :
    (∃ m, Session here (Reliable here) (booted oneFile) [setA [120]] m ∧
      (contentAt m.tree (logKey here)).splitOn 10 = m.records.map List.dropLast ++ [[]]) ∧
    Ends (Reliable here) (fun _ m' => m'.out = (Reply.bulk [121, 10]).encode) (logsOne.run here)
      { booted withLog with records := [[121, 10]] } := by
  have henv : ∀ e, 10 ∉ here.strerror e := by
    intro e
    cases e with
    | other _ => exact (by decide : 10 ∉ ascii "Unknown error")
    | _ => decide
  constructor
  · obtain ⟨b, m, hrun, -⟩ := set_a [120]
    have hstart : Audited here (booted oneFile) := ⟨.inr ⟨rfl, rfl⟩, nofun⟩
    have hs : Session here (Reliable here) (booted oneFile) [setA [120]] m := .next hrun .done
    refine ⟨m, hs, ?_⟩
    apply (one_record_per_line henv (booted_closed oneFile) hstart hs ?_).2.2.1
    intro x hx
    rw [List.mem_singleton.mp hx]
    exact setA_plain [120]
  · have hstart : Audited here { booted withLog with records := [[121, 10]] } := by
      refine ⟨.inl rfl, fun line hline => ?_⟩
      rw [List.mem_singleton.mp hline]
      exact ⟨[121], rfl, by decide⟩
    have hnone : ∀ x ∈ ([] : List Command), Plain here x.op := nofun
    obtain ⟨-, -, -, -, hlogs⟩ :=
      one_record_per_line henv (fun _ => rfl) hstart .done hnone
    exact hlogs logsOne 1 rfl (by decide) (by decide)

/-- The beginning of a record of something that did not happen. -/
def forged : Bytes := ascii "2026-01-01 00:00:00 client=10.0.0.1 cmd=DELFILE target=b"

def getForged : Command := ⟨none, itemOf (ascii "GETFILE"), [itemOf (47 :: 10 :: forged)]⟩

/-- One record of a path with a newline in it is two lines of the log. -/
theorem forged_line : Audited here (booted Tree.empty) ∧ ∃ b m ts,
    Runs (Reliable here) (getForged.run here) (booted Tree.empty) b m ∧ m.records.length = 1 ∧
    (contentAt m.tree (logKey here)).splitOn 10 =
      [ts ++ ascii " client=unknown cmd=GETFILE target=/",
        forged ++ ascii " status=ERR detail=invalid path", []] := by
  refine ⟨⟨.inr ⟨rfl, rfl⟩, nofun⟩, ?_⟩
  have hrefused : Ends (Reliable here) (fun _ m => ∃ ts, 10 ∉ ts ∧ m.records.length = 1 ∧
      contentAt m.tree (logKey here) = logLine ts (clientName none) (ascii "GETFILE")
        (47 :: 10 :: forged) (ascii "ERR") (ascii "invalid path"))
      (getForged.run here) (booted Tree.empty) := by
    apply Ends.bind
    refine (ends_log (clientName none) "GETFILE" _ "ERR" (ascii "invalid path") _).mono ?_
    rintro _ m₁ (⟨hdir, -⟩ | ⟨-, ts, hts, hdid, hputs⟩)
    · cases hdir
    · refine (ends_error (ascii "invalid path") m₁).mono ?_
      rintro _ m₂ ⟨sent, -, hcalm⟩
      refine ⟨ts, hts, ?_, ?_⟩
      · rw [hcalm.records, hdid.records]
        rfl
      · rw [hcalm.tree]
        exact contentAt_file hputs.self
  obtain ⟨b, m, hrun, ts, hts, hrecords, hcontent⟩ := hrefused.exists_runs
  have hfront : ascii " client=unknown cmd=GETFILE target=/" = ascii " client=" ++ clientName none ++
      ascii " cmd=" ++ ascii "GETFILE" ++ ascii " target=" ++ [47] := by decide
  have hback : ascii " status=ERR detail=invalid path" = ascii " status=" ++ ascii "ERR" ++
      ascii " detail=" ++ ascii "invalid path" := by decide
  have hlines : contentAt m.tree (logKey here) = ts ++ ascii " client=unknown cmd=GETFILE target=/" ++
      10 :: (forged ++ ascii " status=ERR detail=invalid path" ++ 10 :: []) := by
    rw [hcontent, hfront, hback]
    simp only [logLine, List.append_assoc, List.cons_append, List.nil_append]
  have hfirst : 10 ∉ ts ++ ascii " client=unknown cmd=GETFILE target=/" := by
    rw [List.mem_append, not_or]
    exact ⟨hts, by decide⟩
  refine ⟨b, m, ts, hrun, hrecords, ?_⟩
  rw [hlines, List.splitOn_append_cons_self, List.splitOn_append_cons_self,
    List.splitOn_eq_singleton hfirst, List.splitOn_eq_singleton (by decide)]
  rfl

end ServerAudit
