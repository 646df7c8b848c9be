import Xv6Filesrv.ServerAudit

/-!
# The tail of the log

`read_log_tail` of `src/file_ops.c` reads at most the last mebibyte of the log, which may begin in
the middle of a line, and looks there for the newline in front of the lines that it was asked for.
The scan counts the newline at the very end too, and so it stops at the one after as many as it was
asked for.
-/

namespace ServerLogTail

open ServerResp ServerPaths ServerOps ServerFiles ServerReplyFormat ServerReliable ServerStorage
  ServerAudit ProgramRuns

variable {env : Env} {m : Machine} {lines : List Bytes} {n : Int}

/-- The last lines, or all of them if there are not so many. -/
def lastLines (n : Int) (lines : List Bytes) : Bytes :=
  (lines.drop (lines.length - n.toNat)).flatten

/-- What `read_log_tail` returns for a log. -/
def logTail (n : Int) (content : Bytes) : Bytes :=
  (logWindow content).drop (tailStart n (logWindow content) (logWindow content).length 0)

theorem logWindow_suffix (content : Bytes) : logWindow content <:+ content := List.drop_suffix _ _

theorem logWindow_length (content : Bytes) :
    (logWindow content).length = min content.length 1048576 := by
  rw [logWindow, List.length_drop]
  omega

theorem lastLines_suffix (n : Int) (lines : List Bytes) : lastLines n lines <:+ lines.flatten := by
  have hsplit := congrArg List.flatten (List.take_append_drop (lines.length - n.toNat) lines)
  rw [List.flatten_append] at hsplit
  exact ⟨_, hsplit⟩

theorem lastLines_count (hlines : ∀ line ∈ lines, IsLine line) (n : Int) :
    (lastLines n lines).count 10 ≤ n.toNat := by
  rw [lastLines, count_lines fun line hline => hlines line (List.mem_of_mem_drop hline),
    List.length_drop]
  omega

/-- A window with more newlines than are asked for has the whole of the last lines in it: they
have fewer, and so they are not longer. -/
theorem lastLines_fits (hlines : ∀ line ∈ lines, IsLine line) (hn : 1 ≤ n)
    (hmore : n < (logWindow lines.flatten).count 10) :
    (lastLines n lines).length ≤ 1048576 := by
  have hcount := lastLines_count hlines n
  have hlen := logWindow_length lines.flatten
  by_contra hlong
  have hinside : logWindow lines.flatten <:+ lastLines n lines :=
    List.suffix_of_suffix_length_le (logWindow_suffix _) (lastLines_suffix n lines) (by omega)
  have := hinside.sublist.count_le 10
  omega

/-- A window with as many newlines at most is shown as it is. -/
theorem logTail_few {content : Bytes} (hfew : (logWindow content).count 10 ≤ n) :
    logTail n content = logWindow content :=
  @drop_tailStart [] (logWindow content) n hfew (.inl rfl)

theorem logTail_lines (hlines : ∀ line ∈ lines, IsLine line) (hn : 1 ≤ n)
    (hfits : (lastLines n lines).length ≤ 1048576) :
    logTail n lines.flatten = lastLines n lines :=
  drop_logWindow hlines hn hfits

/-- `read_log_tail` on a log with these lines in it; before the first record there is none. -/
theorem ends_logTail (hlog : m.tree.node (logKey env) = some (.file lines.flatten) ∨
    m.tree.node (logKey env) = none ∧ lines = []) (hn : 1 ≤ n) :
    Ends (Reliable env) (fun out m' => out = some (logTail n lines.flatten) ∧ Calm [] m m')
      (readLogTail n) m := by
  rcases hlog with hfile | ⟨hnone, rfl⟩
  · exact ends_readLogTail hfile hn
  · exact ends_readLogTail_missing hnone n

/-- `LOGS` shows the end of the log. -/
theorem logs_shows_tail (hlines : ∀ line ∈ lines, IsLine line)
    (hlog : m.tree.node (logKey env) = some (.file lines.flatten) ∨
      m.tree.node (logKey env) = none ∧ lines = []) (hn : 1 ≤ n) :
    ∃ out, Ends (Reliable env) (fun r _ => r = some out) (readLogTail n) m ∧
      (∀ x : Command, x.op = .logs n → Ends (Reliable env)
        (fun _ m' => m'.out = m.out ++ (Reply.bulk out).encode) (x.run env) m) ∧
      out <:+ logWindow lines.flatten ∧
      (n < (logWindow lines.flatten).count 10 → out = lastLines n lines) ∧
      ((logWindow lines.flatten).count 10 ≤ n → out = logWindow lines.flatten) ∧
      (lines.flatten.length ≤ 1048576 → out = lastLines n lines) := by
  have hends := ends_logTail hlog hn
  have hsuffix : logTail n lines.flatten <:+ logWindow lines.flatten := List.drop_suffix _ _
  have hlen := logWindow_length lines.flatten
  refine ⟨logTail n lines.flatten, hends.mono fun _ _ h => h.1, fun x hx => ?_, hsuffix,
    fun hmore => logTail_lines hlines hn (lastLines_fits hlines hn hmore), logTail_few,
    fun hsmall => logTail_lines hlines hn ?_⟩
  · rw [Command.run, hx]
    refine ends_opLogs ?_ hends
    have := hsuffix.length_le
    omega
  · have := (lastLines_suffix n lines).length_le
    omega

def threeLines : List Bytes := [ascii "one\n", ascii "two\n", ascii "three\n"]

/-- `LOGS 2` on a log of three lines. -/
theorem logs_shows_tail_two :
    let m := booted (addFile oneFile (ascii "operations.log") threeLines.flatten nofun)
    (∀ line ∈ threeLines, IsLine line) ∧
    m.tree.node (logKey here) = some (.file threeLines.flatten) ∧
    Ends (Reliable here) (fun r _ => r = some (ascii "two\nthree\n")) (readLogTail 2) m := by
  intro m
  have hlines : ∀ line ∈ threeLines, IsLine line := by
    intro line hline
    simp only [threeLines, List.mem_cons, List.not_mem_nil, or_false] at hline
    rcases hline with rfl | rfl | rfl
    · exact ⟨ascii "one", rfl, by decide⟩
    · exact ⟨ascii "two", rfl, by decide⟩
    · exact ⟨ascii "three", rfl, by decide⟩
  have hfile : m.tree.node (logKey here) = some (.file threeLines.flatten) := rfl
  obtain ⟨out, hends, -, -, hmore, -⟩ :=
    logs_shows_tail hlines (.inl hfile) (by decide : (1 : Int) ≤ 2)
  obtain rfl := hmore (by decide)
  exact ⟨hlines, hfile, hends⟩

end ServerLogTail
