import Xv6Filesrv.ServerLockSteps

/-!
# Runs of the server, and who waits in them

The threads keep to the discipline in every state that they can reach, so they never wait for each
other in a circle.  Runs in which every call succeeds are computed.
-/

namespace ServerLocks

open ServerResp ServerPaths ServerOps ServerDiscipline Programs Programs.Config Relation

/-! ## Runs -/

variable {env : Env} {client : Tid → Bytes} {cfg : Server} {es : List (Event Call Answer Tid)}

/-- A state that the threads of the server can reach. -/
def Reach (env : Env) (client : Tid → Bytes) (cfg : Server) : Prop :=
  ReflTransGen (Config.Step Exec) (start env client) cfg

theorem Fits.start : Fits env World.start fun _ => Local.start where
  registry := by
    constructor <;> simp [World.start, Local.start]
  locks := by
    constructor <;> simp [World.start, Local.start]
  files := by
    intro t o ho
    cases ho
  opened := rfl
  request := rfl
  log := by
    intro t
    simp [World.start, Local.start]

/-- In every state of the server every thread keeps to the discipline of locks. -/
theorem Reach.keeps (h : Reach env client cfg) : cfg.Keeps (rules env) (Fits env) := by
  apply Config.Keeps.run _ _ h
  · intro t w ls c r w' hfits hc hx
    exact ⟨(ls t).next c r, ⟨hfits.recorded.possible c r hx, rfl⟩, hfits.exec c r hc hx⟩
  · exact ⟨fun _ => Local.start, Fits.start, fun t => clientThread_disciplined⟩

/-- What the threads know after a history. -/
def known (es : List (Event Call Answer Tid)) : Tid → Local :=
  knowledge Local.next Local.start es

theorem fits_known (h : History Exec (start env client) es cfg) :
    Fits env cfg.shared (known es) ∧
      ∀ t, wp (rules env) (cfg.prog t) (fun _ _ => True) (known es t) := by
  apply History.keeps _ _ _ h
  · intro t w ls c r w' hfits hc hx
    exact ⟨⟨hfits.recorded.possible c r hx, rfl⟩, hfits.exec c r hc hx⟩
  · exact Fits.start
  · exact fun t => clientThread_disciplined

/-! ## Waiting -/

inductive Resource where
  /-- the lock of a registry entry -/
  | file (n : Node)
  /-- `g_lock_map_mutex` -/
  | map
  /-- `g_log_mutex` -/
  | log
  deriving DecidableEq

/-- What a thread waits for in the call that it is about to make. -/
def awaits (cfg : Server) (t : Tid) : Option Resource :=
  match cfg.prog t with
  | .call (.rwlock _ e) _ => some (.file e.node)
  | .call .mapLock _ => some .map
  | .call .logLock _ => some .log
  | _ => none

def Holds (w : World) (t : Tid) : Resource → Prop
  | .file n => ∃ mode, (t, mode) ∈ w.holders n
  | .map => w.mapMutex = some t
  | .log => w.logMutex = some t

/-- The thread `t` waits for something that `u` holds. -/
def WaitsFor (cfg : Server) (t u : Tid) : Prop :=
  ∃ r, awaits cfg t = some r ∧ Holds cfg.shared u r

/-- A thread waits only as the discipline allows. -/
theorem awaits_cases {t : Tid} {r : Resource} (h : awaits cfg t = some r) {l : Local}
    {Q : Unit → Local → Prop} (hwp : wp (rules env) (cfg.prog t) Q l) :
    (∃ mode e, r = .file e.node ∧ l.Allowed env (.rwlock mode e)) ∨
      (r = .map ∧ l.Allowed env .mapLock) ∨ r = .log ∧ l.Allowed env .logLock := by
  unfold awaits at h
  split at h
  · next mode e k hp =>
    rw [hp] at hwp
    cases h
    exact .inl ⟨mode, e, rfl, hwp.1⟩
  · next k hp =>
    rw [hp] at hwp
    cases h
    exact .inr (.inl ⟨rfl, hwp.1⟩)
  · next k hp =>
    rw [hp] at hwp
    cases h
    exact .inr (.inr ⟨rfl, hwp.1⟩)
  · cases h

/-- The order in which locks are taken: files by their paths, and the registry's mutex last. -/
def Before (head : List Entry) : Resource → Resource → Prop
  | .file n, .file m =>
    ∃ e ∈ head, ∃ e' ∈ head, e.node = n ∧ e'.node = m ∧ strcmp e.path e'.path < 0
  | .file _, .map => True
  | _, _ => False

theorem Before.irrefl {head : List Entry} (hnodes : (head.map Entry.node).Nodup) (r : Resource) :
    ¬ Before head r r := by
  cases r with
  | file n =>
    rintro ⟨e, he, e', he', hn, hn', hlt⟩
    have hsame : e = e' := List.inj_on_of_nodup_map hnodes he he' (hn.trans hn'.symm)
    rw [hsame, strcmp_self] at hlt
    exact absurd hlt (by decide)
  | map => exact id
  | log => exact id

theorem Before.trans {head : List Entry} (hnodes : (head.map Entry.node).Nodup)
    {a b c : Resource} (hab : Before head a b) (hbc : Before head b c) : Before head a c := by
  cases a with
  | map | log => cases b <;> cases hab
  | file n =>
    cases b with
    | map | log => cases c <;> cases hbc
    | file m =>
      cases c with
      | map => trivial
      | log => cases hbc
      | file k =>
        obtain ⟨e, he, e₁, he₁, hn, hm, hlt⟩ := hab
        obtain ⟨e₂, he₂, e', he', hm', hk, hlt'⟩ := hbc
        have hsame : e₁ = e₂ := List.inj_on_of_nodup_map hnodes he₁ he₂ (hm.trans hm'.symm)
        exact ⟨e, he, e', he', hn, hk, strcmp_trans hlt (hsame ▸ hlt')⟩

/-- What a thread holds comes before what it waits for. -/
theorem held_before_awaited {ls : Tid → Local} (hfits : Fits env cfg.shared ls) {t : Tid}
    {Q : Unit → Local → Prop} (hwp : wp (rules env) (cfg.prog t) Q (ls t)) {a b : Resource}
    (hheld : Holds cfg.shared t a) (hwait : awaits cfg t = some b) :
    Before cfg.shared.head a b := by
  have hmap : cfg.shared.mapMutex = some t ↔ (ls t).inMap = true :=
    (hfits.registry.holder t).symm
  have hlog := hfits.log t
  cases a with
  | file n =>
    obtain ⟨mode, hmode⟩ := hheld
    obtain ⟨e, hn, he⟩ := (hfits.locks.agree n t mode).mp hmode
    rcases awaits_cases hwait hwp with ⟨mode', e', rfl, -, -, hknown, horder, -⟩ | ⟨rfl, -⟩ |
      ⟨rfl, hnone, -⟩
    · exact ⟨e, hfits.locks.entry t _ he, e', hfits.registry.found t e' hknown, hn, rfl,
        horder _ he⟩
    · trivial
    · rw [hnone] at he
      cases he
  | map =>
    have hin := hmap.mp hheld
    rcases awaits_cases hwait hwp with ⟨mode', e', -, hout, -⟩ | ⟨-, hout, -⟩ | ⟨-, -, hout, -⟩ <;>
      simp [hin] at hout
  | log =>
    have hin := hlog.mpr hheld
    rcases awaits_cases hwait hwp with ⟨mode', e', -, -, hout, -⟩ | ⟨-, -, hout⟩ | ⟨-, -, -, hout⟩ <;>
      simp [hin] at hout

/-- The threads of the server never wait for each other in a circle: whoever holds the lock of a
path and waits for that of another one waits for a later one, and nobody waits for the lock of a
file inside `get_or_create_lock`. -/
theorem server_deadlock_free (h : Reach env client cfg) :
    (∀ t n, awaits cfg t = some (.file n) → ∃ e ∈ cfg.shared.head, e.node = n) ∧
    (∀ t, ∀ e ∈ cfg.shared.head, ∀ e' ∈ cfg.shared.head, Holds cfg.shared t (.file e.node) →
      awaits cfg t = some (.file e'.node) → strcmp e.path e'.path < 0) ∧
    (∀ t n, awaits cfg t = some (.file n) → cfg.shared.mapMutex ≠ some t) ∧
    ∀ t, ¬ TransGen (WaitsFor cfg) t t := by
  obtain ⟨ls, hfits, hwp⟩ := h.keeps
  have hnodes := hfits.registry.nodes
  refine ⟨?_, ?_, ?_, ?_⟩
  · intro t n hwait
    rcases awaits_cases hwait (hwp t) with ⟨mode, e, hr, -, -, hknown, -⟩ | ⟨hr, -⟩ | ⟨hr, -⟩
    · cases hr
      exact ⟨e, hfits.registry.found t e hknown, rfl⟩
    · cases hr
    · cases hr
  · intro t e he e' he' hheld hwait
    obtain ⟨e₁, he₁, e₂, he₂, hn, hn', hlt⟩ := held_before_awaited hfits (hwp t) hheld hwait
    have hsame : e₁ = e := List.inj_on_of_nodup_map hnodes he₁ he hn
    have hsame' : e₂ = e' := List.inj_on_of_nodup_map hnodes he₂ he' hn'
    rw [← hsame, ← hsame']
    exact hlt
  · intro t n hwait hheld
    exact held_before_awaited hfits (hwp t) (a := .map) hheld hwait
  · intro t
    have hordered : ∀ u a b, Holds cfg.shared u a → awaits cfg u = some b →
        Before cfg.shared.head a b :=
      fun u a b hheld hwait => held_before_awaited hfits (hwp u) hheld hwait
    exact no_waiting_cycle (Before.irrefl hnodes) (Before.trans hnodes) hordered t

/-! ## Runs that can be computed -/

/-- An answer with which every call succeeds; requests are answered by `req`. -/
def fair (w : World) (req : RespArray) : (c : Call) → Answer c
  | .errno => .other 0
  | .malloc _ | .strdup _ | .rwlockInit _ | .rwlock _ _ => true
  | .stopped => false
  | .fsync _ | .close _ | .unlink _ | .rename _ _ | .mkdir _ => true
  | .fopen _ | .fseekEnd _ | .fseekSet => true
  | .recvRequest => some req
  | .send data | .write _ data => some data.length
  | .calloc => some w.live.length
  | .open _ _ => some 3
  | .getHead => w.head
  | .fstat _ => some 0
  | .read _ _ => some []
  | .stat _ => none
  | .time | .fread _ => []
  | .ftell => 0
  | .setErrno _ | .freeRequest | .closeClient | .mapLock | .mapUnlock | .setHead _ | .free _ => ()
  | .rwunlock _ | .logLock | .logUnlock | .fprintf _ | .fclose => ()

/-- A state of the server, and the calls on the way to it. -/
abbrev Trace := List (Event Call Answer Tid) × Server

/-- The next step of a thread. -/
def advance (t : Tid) (req : RespArray) (x : Trace) : Option Trace :=
  match x.2.prog t with
  | .ret _ => none
  | .call c k =>
    match x.2.shared.exec t c (fair x.2.shared req c) with
    | none => none
    | some w => some (⟨t, c, fair x.2.shared req c⟩ :: x.1,
        ⟨w, Function.update x.2.prog t (k (fair x.2.shared req c))⟩)
  | .loop body s k => some (x.1, ⟨x.2.shared, Function.update x.2.prog t (Prog.unroll body s k)⟩)

def steps (t : Tid) (req : RespArray) : Nat → Trace → Option Trace
  | 0, x => some x
  | n + 1, x => (advance t req x).bind (steps t req n)

/-- The given numbers of steps of the given threads. -/
def run : List (Tid × RespArray × Nat) → Trace → Option Trace
  | [], x => some x
  | (t, req, n) :: rest, x => (steps t req n x).bind (run rest)

section Computed

variable {cfg₀ : Server} {exec : Tid → World → (c : Call) → Answer c → World → Prop}
  {I : List (Event Call Answer Tid) → Prop} {t : Tid} {req : RespArray} {x y : Trace}

variable (cfg₀ exec I t req) in
/-- As long as `I` holds of the calls made so far, a fair answer is one of those in `exec`. -/
def Answers : Prop :=
  ∀ es cfg c w', History exec cfg₀ es cfg → I es →
    cfg.shared.exec t c (fair cfg.shared req c) = some w' →
    exec t cfg.shared c (fair cfg.shared req c) w' ∧ I (⟨t, c, fair cfg.shared req c⟩ :: es)

theorem advance_history (hexec : Answers cfg₀ exec I t req)
    (h : History exec cfg₀ x.1 x.2 ∧ I x.1) (hs : advance t req x = some y) :
    History exec cfg₀ y.1 y.2 ∧ I y.1 := by
  unfold advance at hs
  split at hs
  · cases hs
  · next c k hp =>
    split at hs
    · cases hs
    · next w hx =>
      cases hs
      obtain ⟨hx', hI⟩ := hexec _ _ c w h.1 h.2 hx
      exact ⟨h.1.call hp hx', hI⟩
  · next body s k hp =>
    cases hs
    exact ⟨h.1.unroll hp, h.2⟩

theorem steps_history {n : Nat} (hexec : Answers cfg₀ exec I t req)
    (h : History exec cfg₀ x.1 x.2 ∧ I x.1) (hs : steps t req n x = some y) :
    History exec cfg₀ y.1 y.2 ∧ I y.1 := by
  induction n generalizing x with
  | zero =>
    cases hs
    exact h
  | succ n ih =>
    obtain ⟨mid, hmid, hrest⟩ := Option.bind_eq_some_iff.mp hs
    exact ih (advance_history hexec h hmid) hrest

/-- A run that is computed is one of those in which calls are answered by `exec`. -/
theorem run_history {sched : List (Tid × RespArray × Nat)}
    (hexec : ∀ t req n, (t, req, n) ∈ sched → Answers cfg₀ exec I t req)
    (h : History exec cfg₀ x.1 x.2 ∧ I x.1) (hs : run sched x = some y) :
    History exec cfg₀ y.1 y.2 ∧ I y.1 := by
  induction sched generalizing x with
  | nil =>
    cases hs
    exact h
  | cons first sched ih =>
    obtain ⟨mid, hmid, hrest⟩ := Option.bind_eq_some_iff.mp hs
    have hfirst := steps_history (hexec _ _ _ List.mem_cons_self) h hmid
    exact ih (fun t req n hmem => hexec t req n (List.mem_cons_of_mem _ hmem)) hfirst hrest

/-- What holds at the end of a run that can be computed. -/
theorem exists_run {sched : List (Tid × RespArray × Nat)} {p : Trace → Bool}
    (h : (run sched ([], start env client)).any p = true) :
    ∃ es cfg, History Exec (start env client) es cfg ∧ p (es, cfg) = true := by
  rw [Option.any_eq_true] at h
  obtain ⟨⟨es, cfg⟩, hrun, hp⟩ := h
  have hanswers : ∀ t req n, (t, req, n) ∈ sched →
      Answers (start env client) Exec (fun _ => True) t req :=
    fun _ _ _ _ _ _ _ _ _ _ hx => ⟨hx, trivial⟩
  exact ⟨es, cfg, (run_history hanswers ⟨.start, trivial⟩ hrun).1, hp⟩

end Computed

def request (words : List String) : RespArray := arrayOf (words.map ascii)

/-- One client renames `b` to `a` and has the lock of `a`; another one, which copies `a` to `b`,
waits for it. -/
theorem server_deadlock_free_renaming :
    ∃ cfg, Reach here (fun _ => []) cfg ∧
      Holds cfg.shared 0 (.file 0) ∧ awaits cfg 0 = some (.file 1) ∧ WaitsFor cfg 1 0 ∧
      strcmp (ascii "./a") (ascii "./b") < 0 ∧ ¬ TransGen (WaitsFor cfg) 1 1 := by
  have hrun : (run [(0, request ["RENAMEFILE", "b", "a"], 20), (1, request ["COPYFILE", "a", "b"], 6)]
      ([], start here fun _ => [])).any (fun x => decide
        (x.2.shared.head = [⟨ascii "./b", 1⟩, ⟨ascii "./a", 0⟩] ∧
          x.2.shared.holders 0 = [(0, .write)] ∧ awaits x.2 0 = some (.file 1) ∧
          awaits x.2 1 = some (.file 0))) = true := by
    decide +kernel
  obtain ⟨es, cfg, hes, hcfg⟩ := exists_run hrun
  have hreach : Reach here (fun _ => []) cfg := hes.run
  obtain ⟨hhead, hholders, hwait, hwait'⟩ := of_decide_eq_true hcfg
  dsimp only at hhead
  have hheld : Holds cfg.shared 0 (.file 0) := ⟨.write, by rw [hholders]; exact List.mem_cons_self⟩
  obtain ⟨-, horder, -, hcycle⟩ := server_deadlock_free hreach
  exact ⟨cfg, hreach, hheld, hwait, ⟨_, hwait', hheld⟩,
    horder 0 ⟨ascii "./a", 0⟩ (by simp [hhead]) ⟨ascii "./b", 1⟩ (by simp [hhead]) hheld hwait,
    hcycle 1⟩

end ServerLocks
