import Xv6Filesrv.ServerAccess

/-!
# The files that clients can reach

Paths are resolved here as strings: empty components and `.` are left out and `..` goes up.  What
`path_build` accepts stays in the data directory, and what an operation passes to the system is
what `path_build` made of the client's paths.
-/

namespace ServerConfinement

open ServerResp ServerPaths ServerOps ServerCalls ServerDiscipline ServerAccess Decimal ProgramRuns

/-! ## The command line -/

/-- What `main` takes from its arguments. -/
structure Options where
  port : Int
  dataDir : Bytes

/-- The value of the numeral at the beginning of a string.  Where `strtol` would saturate, the port
is out of range anyway. -/
def strtol (s : Bytes) : Int :=
  let (negative, digits) := sign (s.dropWhile isSpace)
  let v : Int := value (digits.takeWhile isDigit)
  if negative then -v else v

/-- The loop of `main` over the arguments behind the program's name. -/
def parseArgs (opts : Options) : List Bytes → Option Options
  | [] => some opts
  | [_] => none
  | flag :: val :: rest =>
    if strcmp flag (ascii "-p") = 0 then
      if strtol val ≤ 0 ∨ 65535 < strtol val then none
      else parseArgs { opts with port := strtol val } rest
    else if strcmp flag (ascii "-d") = 0 then
      if val = [] then none
      else
        match snprintf pathMax val with
        | none => none
        | some dir => parseArgs { opts with dataDir := dir } rest
    else none

def defaults : Options := ⟨6379, ascii "."⟩

theorem parseArgs_dataDir {opts opts' : Options} {argv : List Bytes} (hne : opts.dataDir ≠ [])
    (h : parseArgs opts argv = some opts') : opts'.dataDir ≠ [] := by
  induction opts, argv using parseArgs.induct with
  | case1 opts =>
    cases h
    exact hne
  | case2 opts flag => cases h
  | case3 opts flag val rest hp hport =>
    rw [parseArgs, if_pos hp, if_pos hport] at h
    cases h
  | case4 opts flag val rest hp hport ih =>
    rw [parseArgs, if_pos hp, if_neg hport] at h
    exact ih hne h
  | case5 opts flag rest hp hd =>
    rw [parseArgs, if_neg hp, if_pos hd, if_pos rfl] at h
    cases h
  | case6 opts flag val rest hp hd hval hlong =>
    simp only [parseArgs, if_neg hp, if_pos hd, if_neg hval, hlong] at h
    cases h
  | case7 opts flag val rest hp hd hval dir hdir ih =>
    simp only [parseArgs, if_neg hp, if_pos hd, if_neg hval, hdir] at h
    refine ih ?_ h
    simp only [snprintf, Option.ite_none_left_eq_some, Option.some.injEq] at hdir
    rw [← hdir.2]
    exact hval
  | case8 opts flag val rest hp hd =>
    rw [parseArgs, if_neg hp, if_neg hd] at h
    cases h

/-! ## Resolution -/

/-- One component of a path; the stack holds the components so far, the last one first. -/
def walk (absolute : Bool) (stack : List Bytes) (c : Bytes) : List Bytes :=
  if c = [] ∨ c = [46] then stack
  else if c = [46, 46] then
    match stack with
    | [] => if absolute then [] else [c]
    | top :: rest => if top = [46, 46] then c :: stack else rest
  else c :: stack

def isAbsolute (path : Bytes) : Bool := path.head? = some 47

/-- What a path comes to, from the root or from the working directory. -/
def lexical (path : Bytes) : List Bytes :=
  ((path.splitOn 47).foldl (walk (isAbsolute path)) []).reverse

/-- The path comes to the directory `dir` or to something below it. -/
def Within (dir path : Bytes) : Prop :=
  isAbsolute path = isAbsolute dir ∧ lexical dir <+: lexical path

theorem hasDotDot_cons {c : UInt8} {s : Bytes} (h : hasDotDot (c :: s) = false) :
    hasDotDot s = false := by
  unfold hasDotDot at h
  split at h
  · cases h
  · next heq =>
    cases heq
    exact h
  · next heq => cases heq

/-- Two dots at the beginning. -/
theorem hasDotDot_start {s : Bytes} (h : [46, 46] <+: s) : hasDotDot s = true := by
  obtain ⟨t, rfl⟩ := h
  rfl

/-- The first component of a string is its beginning. -/
theorem splitOn_head {s c : Bytes} {cs : List Bytes} (h : s.splitOn 47 = c :: cs) : c <+: s := by
  induction s generalizing c cs with
  | nil =>
    rw [List.splitOn_nil] at h
    cases h
    exact List.nil_prefix
  | cons x s ih =>
    rw [List.splitOn_cons_eq_if_modifyHead] at h
    split at h
    · cases h
      exact List.nil_prefix
    · cases hs : s.splitOn 47 with
      | nil => exact absurd hs (List.splitOn_ne_nil _ _)
      | cons d ds =>
        rw [hs] at h
        cases h
        exact List.prefix_cons_inj x |>.mpr (ih hs)

/-- A path without two dots in a row has no component that goes up. -/
theorem splitOn_no_dotdot {s : Bytes} (h : hasDotDot s = false) : [46, 46] ∉ s.splitOn 47 := by
  induction s with
  | nil => simp
  | cons x s ih =>
    have hrest := ih (hasDotDot_cons h)
    rw [List.splitOn_cons_eq_if_modifyHead]
    split
    · simpa using hrest
    · next hx =>
      cases hs : s.splitOn 47 with
      | nil => exact absurd hs (List.splitOn_ne_nil _ _)
      | cons d ds =>
        rw [hs] at hrest
        simp only [List.modifyHead_cons, List.mem_cons, not_or] at hrest ⊢
        refine ⟨fun heq => ?_, hrest.2⟩
        have hpre : [46, 46] <+: x :: s := by
          rw [heq]
          exact List.prefix_cons_inj x |>.mpr (splitOn_head hs)
        rw [hasDotDot_start hpre] at h
        cases h

/-- Components that do not go up are pushed. -/
theorem foldl_walk {absolute : Bool} {cs : List Bytes} (h : [46, 46] ∉ cs) (stack : List Bytes) :
    cs.foldl (walk absolute) stack = (cs.filter fun c => c ≠ [] ∧ c ≠ [46]).reverse ++ stack := by
  induction cs generalizing stack with
  | nil => rfl
  | cons c cs ih =>
    rw [List.mem_cons, not_or] at h
    rw [List.foldl_cons, ih h.2]
    by_cases hc : c = [] ∨ c = [46]
    · have hskip : ¬ (c ≠ [] ∧ c ≠ [46]) := by
        rintro ⟨hne, hdot⟩
        exact hc.elim hne hdot
      rw [walk.eq_def, if_pos hc, List.filter_cons_of_neg (by simpa using hskip)]
    · have hkeep : c ≠ [] ∧ c ≠ [46] := ⟨fun he => hc (.inl he), fun he => hc (.inr he)⟩
      rw [walk.eq_def, if_neg hc, if_neg (Ne.symm h.1), List.filter_cons_of_pos (by simpa using hkeep)]
      simp

/-- A path below the data directory comes to what the directory comes to, and its own components. -/
theorem lexical_below {dir rel : Bytes} (hdir : dir ≠ []) (hrel : hasDotDot rel = false) :
    isAbsolute (dir ++ 47 :: rel) = isAbsolute dir ∧
      lexical (dir ++ 47 :: rel) = lexical dir ++ resolve rel := by
  have habs : isAbsolute (dir ++ 47 :: rel) = isAbsolute dir := by
    cases dir with
    | nil => exact absurd rfl hdir
    | cons c dir => rfl
  refine ⟨habs, ?_⟩
  unfold lexical
  rw [habs, List.splitOn_append_cons_self, List.foldl_append, foldl_walk (splitOn_no_dotdot hrel)]
  rw [List.reverse_append, List.reverse_reverse]
  rfl

/-! ## Paths of requests -/

/-- The full path is in the data directory and is not cut off. -/
def Fitting (dir rel : Bytes) : Prop :=
  (dir ++ 47 :: rel).length < pathMax ∧ Within dir (dir ++ 47 :: rel)

theorem pathBuild_fitting {dir rel full : Bytes} (hdir : dir ≠ [])
    (h : pathBuild dir rel pathMax = some full) : full = dir ++ 47 :: rel ∧ Fitting dir rel := by
  unfold pathBuild at h
  split at h
  · cases h
  · next hsafe =>
    simp only [snprintf, Option.ite_none_left_eq_some, Option.some.injEq, Nat.not_le] at h
    obtain ⟨hlen, rfl⟩ := h
    have hdots : hasDotDot rel = false := by
      unfold isPathSafe at hsafe
      grind
    obtain ⟨habs, hlex⟩ := lexical_below hdir hdots
    refine ⟨rfl, hlen, habs, ?_⟩
    rw [hlex]
    exact List.prefix_append _ _

/-- Where `DECOMPRESS` writes to if no destination is given. -/
def decompressed (src : Bytes) : Bytes :=
  if 4 < src.length ∧ src.drop (src.length - 4) = ascii ".rle" then src.take (src.length - 4)
  else src ++ ascii ".out"

/-- The paths that a request is about: those that the client names, and the destination of
`COMPRESS` and `DECOMPRESS` that is derived from the source. -/
def intended (cmd : Bytes) (args : List RespBuf) : List Bytes :=
  match args with
  | [src] =>
    if strcasecmp cmd (ascii "COMPRESS") = 0 then [arg src, arg src ++ ascii ".rle"]
    else if strcasecmp cmd (ascii "DECOMPRESS") = 0 then [arg src, decompressed (arg src)]
    else paths (dispatchCommand cmd args)
  | _ => paths (dispatchCommand cmd args)

theorem dispatch_compress {cmd : Bytes} (src : RespBuf) (h : strcasecmp cmd (ascii "COMPRESS") = 0) :
    dispatchCommand cmd [src] = recodeTo .compress (arg src) (deriveCompressDst (arg src)) := by
  have hcmd := strcmp_eq_zero h
  unfold dispatchCommand strcasecmp
  rw [hcmd]
  rfl

theorem dispatch_decompress {cmd : Bytes} (src : RespBuf)
    (h : strcasecmp cmd (ascii "DECOMPRESS") = 0) :
    dispatchCommand cmd [src] = recodeTo .decompress (arg src) (deriveDecompressDst (arg src)) := by
  have hcmd := strcmp_eq_zero h
  unfold dispatchCommand strcasecmp
  rw [hcmd]
  rfl

theorem deriveCompressDst_eq {src dst : Bytes} (h : deriveCompressDst src = some dst) :
    dst = src ++ ascii ".rle" := by
  simp only [deriveCompressDst, pathAppendSuffix, snprintf, Option.ite_none_left_eq_some,
    Option.some.injEq] at h
  exact h.2.symm

theorem deriveDecompressDst_eq {src dst : Bytes} (h : deriveDecompressDst src = some dst) :
    dst = decompressed src := by
  have hsuffix : strcmp (src.drop (src.length - 4)) (ascii ".rle") = 0 ↔
      src.drop (src.length - 4) = ascii ".rle" :=
    ⟨strcmp_eq_zero, fun he => by rw [he, strcmp_self]⟩
  have hlen : (ascii ".rle").length = 4 := rfl
  have hout : (ascii ".out").length = 4 := rfl
  unfold deriveDecompressDst pathStripSuffix pathAppendSuffix snprintf pathMax at h
  unfold decompressed
  simp only [hlen, ne_eq, hsuffix] at h
  grind

/-- An operation on the paths that the request is about, or an error. -/
theorem paths_intended (cmd : Bytes) (args : List RespBuf) :
    paths (dispatchCommand cmd args) = intended cmd args ∨
      ∃ text, dispatchCommand cmd args = .replyError text := by
  unfold intended
  split
  · next src =>
    split
    · next hc =>
      rw [dispatch_compress src hc]
      cases hdst : deriveCompressDst (arg src) with
      | none => exact .inr ⟨_, rfl⟩
      | some dst =>
        rw [deriveCompressDst_eq hdst]
        exact .inl rfl
    · split
      · next hd =>
        rw [dispatch_decompress src hd]
        cases hdst : deriveDecompressDst (arg src) with
        | none => exact .inr ⟨_, rfl⟩
        | some dst =>
          rw [deriveDecompressDst_eq hdst]
          exact .inl rfl
      · exact .inl rfl
  · exact .inl rfl

/-! ## Confinement -/

/-- The full path of one of the given paths, inside the data directory. -/
def Reaches (dir : Bytes) (rels : List Bytes) (full : Bytes) : Prop :=
  ∃ rel ∈ rels, full = dir ++ 47 :: rel ∧ Within dir full

/-- The calls name only files that are reached in this way, and prefixes of them. -/
def Confined (dir : Bytes) (rels : List Bytes) : Call → Prop
  | .open full _ | .unlink full | .stat full => Reaches dir rels full
  | .rename full full' => Reaches dir rels full ∧ Reaches dir rels full'
  | .mkdir d => ∃ full, Reaches dir rels full ∧ d <+: full
  | _ => True

/-- The file system is left alone, but for the log. -/
def Untouched : Call → Prop
  | .open _ _ | .unlink _ | .stat _ | .rename _ _ | .mkdir _ => False
  | _ => True

/-- The program answers with an error and does nothing else. -/
def Refuses (client : Bytes) (p : Server Bool) : Prop :=
  Makes Untouched (fun _ _ => True) p ∧
    ∃ text, p = respReplyError text ∨
      ∃ command target, p = replyFailure client command target text

variable {env : Env} {client : Bytes}

theorem parentDirs_prefix {full d : Bytes} (h : d ∈ parentDirs full) : d <+: full := by
  obtain ⟨i, -, rfl⟩ := List.mem_map.mp h
  exact List.take_prefix i full

theorem confined_of_permits {op : Operation} {times : Bytes → Prop} (hdir : env.dataDir ≠ [])
    {c : Call} (h : Permits env client times op c) : Confined env.dataDir (paths op) c := by
  have hreach : ∀ rel ∈ paths op, ∀ full, pathBuild env.dataDir rel pathMax = some full →
      Reaches env.dataDir (paths op) full := by
    intro rel hrel full hb
    obtain ⟨rfl, -, hwithin⟩ := pathBuild_fitting hdir hb
    exact ⟨rel, hrel, rfl, hwithin⟩
  cases c with
  | «open» full mode =>
    obtain ⟨-, rel, hrel, hb⟩ := h
    exact hreach rel (opens_paths hrel) full hb
  | mkdir d =>
    obtain ⟨-, rel, hrel, full, hb, hd⟩ := h
    exact ⟨full, hreach rel (places_paths hrel) full hb, parentDirs_prefix hd⟩
  | unlink full =>
    obtain ⟨-, rel, rfl, hb⟩ := h
    exact hreach rel (by simp [paths]) full hb
  | stat full =>
    obtain ⟨-, rel, rfl, hb⟩ := h
    exact hreach rel (by simp [paths]) full hb
  | rename full full' =>
    obtain ⟨-, src, dst, rfl, hb, hb'⟩ := h
    exact ⟨hreach src (by simp [paths]) full hb, hreach dst (by simp [paths]) full' hb'⟩
  | _ => trivial

/-- An operation with a path that is refused only says so. -/
theorem run_refused (env : Env) (client : Bytes) {op : Operation} {rel : Bytes} (hrel : rel ∈ paths op)
    (hb : pathBuild env.dataDir rel pathMax = none) :
    ∃ command target,
      op.run env client = replyFailure client command target (ascii "invalid path") := by
  have htwo : ∀ (command : String) (src dst refused : Bytes) body, rel ∈ [src, dst] →
      withTwoPaths env client command src dst refused body =
        replyFailure client command refused (ascii "invalid path") := by
    intro command src dst refused body hmem
    unfold withTwoPaths
    split
    · next a b ha hb' =>
      rcases List.mem_pair.mp hmem with rfl | rfl
      · rw [hb] at ha
        cases ha
      · rw [hb] at hb'
        cases hb'
    · rfl
  cases op with
  | replySimple _ | replyError _ | replyBulk _ | logs _ => cases hrel
  | getfile path =>
    obtain rfl := List.mem_singleton.mp hrel
    exact ⟨"GETFILE", rel, by simp only [Operation.run, opGetfile, withPath, hb]⟩
  | setfile path data =>
    obtain rfl := List.mem_singleton.mp hrel
    exact ⟨"SETFILE", rel, by simp only [Operation.run, opSetfile, withPath, hb]⟩
  | delfile path =>
    obtain rfl := List.mem_singleton.mp hrel
    exact ⟨"DELFILE", rel, by simp only [Operation.run, opDelfile, withPath, hb]⟩
  | statfile path =>
    obtain rfl := List.mem_singleton.mp hrel
    exact ⟨"STATFILE", rel, by simp only [Operation.run, opStatfile, withPath, hb]⟩
  | renamefile src dst | copyfile src dst | compress src dst | decompress src dst =>
    exact ⟨_, _, htwo _ src dst _ _ hrel⟩

theorem untouched_common : Common (Makes Untouched fun _ _ => True) :=
  makes_common fun c hc => by cases c <;> trivial

theorem untouched_error (text : Bytes) : Makes Untouched (fun _ _ => True) (respReplyError text) :=
  untouched_common.replyLine (makes_sendAll (fun _ => trivial) trivial) _ _

theorem untouched_failure (client : Bytes) (command : String) (target text : Bytes) :
    Makes Untouched (fun _ _ => True) (replyFailure client command target text) :=
  (untouched_common.log (fun _ => Makes.perform trivial) _ _ _ _ _).bind fun _ => untouched_error text

/-- Whatever directory the server is started with and whatever it is asked for, the paths that it
passes to the system are those of the request behind the data directory, uncut, and they stay in
it; directories are created only along them.  A request with a path for which this would not be so
is answered with an error, and no file is touched but the log. -/
theorem paths_confined {argv : List Bytes} {opts : Options}
    (hmain : parseArgs defaults argv = some opts) (strerror : Errno → Bytes) (client : Bytes)
    (cmd : RespBuf) (args : List RespBuf) :
    Makes (Confined opts.dataDir (intended (arg cmd) args)) (fun _ _ => True)
      ((dispatchCommand (arg cmd) args).run ⟨opts.dataDir, strerror⟩ client) ∧
    ((∃ rel ∈ intended (arg cmd) args, ¬ Fitting opts.dataDir rel) →
      Refuses client ((dispatchCommand (arg cmd) args).run ⟨opts.dataDir, strerror⟩ client)) := by
  have hdir : opts.dataDir ≠ [] := parseArgs_dataDir (by decide) hmain
  rcases paths_intended (arg cmd) args with hpaths | ⟨text, hop⟩
  · rw [← hpaths]
    constructor
    · have hobeys : Obeys ⟨opts.dataDir, strerror⟩ client (fun _ => True) _ _ :=
        obeys_operation (dispatchCommand (arg cmd) args)
      exact hobeys.weaken (fun c hc => confined_of_permits hdir hc) fun c r _ => by
        cases c <;> trivial
    · rintro ⟨rel, hrel, hnot⟩
      have hb : pathBuild opts.dataDir rel pathMax = none := by
        cases hb : pathBuild opts.dataDir rel pathMax with
        | none => rfl
        | some full => exact absurd (pathBuild_fitting hdir hb).2 hnot
      obtain ⟨command, target, hrun⟩ := run_refused ⟨opts.dataDir, strerror⟩ client hrel hb
      rw [hrun]
      exact ⟨untouched_failure _ _ _ _, _, .inr ⟨_, _, rfl⟩⟩
  · rw [hop]
    refine ⟨?_, fun _ => ⟨untouched_error text, text, .inl rfl⟩⟩
    refine (untouched_error text).mono fun c hc => ?_
    cases c <;> trivial

/-- A server for `/srv` does not go up from there. -/
theorem paths_confined_srv :
    parseArgs defaults [ascii "-d", ascii "/srv"] = some ⟨6379, ascii "/srv"⟩ ∧
    Refuses [] ((dispatchCommand (ascii "GETFILE") [itemOf (ascii "../a")]).run
      ⟨ascii "/srv", fun _ => []⟩ []) ∧
    Makes (Confined (ascii "/srv") [ascii "a", ascii "a.rle"]) (fun _ _ => True)
      ((dispatchCommand (ascii "COMPRESS") [itemOf (ascii "a")]).run
        ⟨ascii "/srv", fun _ => []⟩ []) := by
  have hmain : parseArgs defaults [ascii "-d", ascii "/srv"] = some ⟨6379, ascii "/srv"⟩ := rfl
  have hup : ¬ Fitting (ascii "/srv") (ascii "../a") := by
    rintro ⟨-, -, hprefix⟩
    exact absurd hprefix (by decide)
  refine ⟨hmain, ?_, ?_⟩
  · exact (paths_confined hmain (fun _ => []) [] (itemOf (ascii "GETFILE"))
      [itemOf (ascii "../a")]).2 ⟨ascii "../a", List.mem_singleton.mpr rfl, hup⟩
  · exact (paths_confined hmain (fun _ => []) [] (itemOf (ascii "COMPRESS"))
      [itemOf (ascii "a")]).1

end ServerConfinement
