import Xv6Filesrv.ServerLockRuns

/-!
# One lock for each path

Any number of threads that serve clients, or that call the functions of `src/locks.c` in any order
and with any strings, over the lock registry.  All that matters of a thread here is that it goes
to the registry through `get_or_create_lock`.
-/

namespace ServerRegistry

open ServerResp ServerPaths ServerOps ServerDiscipline ServerLocks Programs Programs.Prog
  Programs.Config

/-! ## Threads -/

/-- A call of a function of `src/locks.c`. -/
inductive LockUse where
  | get (path : Bytes)
  | acquire (mode : Mode) (path : Bytes)
  /-- release the `i`-th of the locks that were acquired -/
  | release (i : Nat)

/-- A thread that uses locks; `held` are those that it has acquired. -/
def lockUses : List LockUse → List Entry → ServerOps.Server Unit
  | [], _ => pure ()
  | .get path :: uses, held => do
    let _ ← getOrCreateLock path
    lockUses uses held
  | .acquire mode path :: uses, held => do
    match ← locksAcquire mode path with
    | none => lockUses uses held
    | some entry => lockUses uses (entry :: held)
  | .release i :: uses, held =>
    match held[i]? with
    | none => lockUses uses held
    | some entry => do
      locksRelease entry
      lockUses uses (held.eraseIdx i)

inductive Thread where
  | client (env : Env) (name : Bytes)
  | user (uses : List LockUse)

def Thread.prog : Thread → ServerOps.Server Unit
  | .client env name => clientThread env name
  | .user uses => lockUses uses []

def begin (threads : Tid → Thread) : ServerLocks.Server :=
  ⟨World.start, fun t => (threads t).prog⟩

/-! ## The registry is kept in order -/

def orderly : Rules Call Answer Local where
  allowed := Local.Orderly
  after l c r l' := l.Possible c r ∧ l' = l.next c r

theorem orderly_of_rules {α : Type} (env : Env) {p : ServerOps.Server α} {Q : α → Local → Prop}
    {l : Local} (h : wp (rules env) p Q l) : wp orderly p Q l :=
  h.weaken (fun _ _ hc => hc.orderly) fun _ _ _ _ hafter => hafter

variable {held : List (Entry × Mode)} {known : List Entry}

theorem orderly_get (path : Bytes) :
    wp orderly (getOrCreateLock path)
      (fun x l => ∃ known, l = calm none known held ∧ ∀ e, x = some e → e ∈ known)
      (calm none known held) := by
  apply orderly_of_rules here
  apply wp_getOrCreateLock
  · intro known
    exact ⟨known, rfl, nofun⟩
  · intro known e he _
    refine ⟨known, rfl, fun e' h => ?_⟩
    cases h
    exact he

theorem orderly_acquire (mode : Mode) (path : Bytes) :
    wp orderly (locksAcquire mode path) (fun _ l => ∃ known held, l = calm none known held)
      (calm none known held) := by
  apply wp_bind
  refine (orderly_get path).mono ?_
  rintro x _ ⟨known, rfl, hx⟩
  cases x with
  | none => exact ⟨known, held, rfl⟩
  | some e =>
    apply wp_bind
    apply wp_perform (hx e rfl)
    rintro got _ ⟨-, rfl⟩
    cases got with
    | false => exact ⟨known, held, rfl⟩
    | true => exact ⟨known, (e, mode) :: held, rfl⟩

theorem orderly_uses (uses : List LockUse) (entries : List Entry) (known : List Entry)
    (held : List (Entry × Mode)) :
    wp orderly (lockUses uses entries) (fun _ _ => True) (calm none known held) := by
  induction uses generalizing entries known held with
  | nil => trivial
  | cons use uses ih =>
    cases use with
    | get path =>
      apply wp_bind
      refine (orderly_get path).mono ?_
      rintro x _ ⟨known, rfl, -⟩
      exact ih entries known held
    | acquire mode path =>
      apply wp_bind
      refine (orderly_acquire mode path).mono ?_
      rintro x _ ⟨known, held, rfl⟩
      cases x with
      | none => exact ih entries known held
      | some e => exact ih (e :: entries) known held
    | release i =>
      unfold lockUses
      split
      · exact ih entries known held
      · next e _ =>
        apply wp_bind
        apply wp_perform trivial
        rintro _ _ ⟨-, rfl⟩
        exact ih _ known _

theorem orderly_thread (thread : Thread) :
    wp orderly thread.prog (fun _ _ => True) Local.start := by
  cases thread with
  | client env name => exact orderly_of_rules env clientThread_disciplined
  | user uses => exact orderly_uses uses [] [] []

/-! ## Locks are correct -/

/-- A lock is held by one writer or by readers. -/
def Exclusive (holders : Node → List (Tid × Mode)) : Prop :=
  ∀ n, (∃ t, holders n = [(t, .write)]) ∨ ∀ h ∈ holders n, h.2 = .read

theorem Exclusive.update {holders : Node → List (Tid × Mode)} (h : Exclusive holders) {n : Node}
    {new : List (Tid × Mode)} (hnew : (∃ t, new = [(t, .write)]) ∨ ∀ h ∈ new, h.2 = .read) :
    Exclusive (Function.update holders n new) := by
  intro m
  by_cases hm : m = n
  · subst hm
    rw [Function.update_self]
    exact hnew
  · rw [Function.update_of_ne hm]
    exact h m

/-- Release takes away at most one holder. -/
theorem Exclusive.eraseP {new : List (Tid × Mode)} {p : Tid × Mode → Bool}
    (h : (∃ t, new = [(t, .write)]) ∨ ∀ h ∈ new, h.2 = .read) :
    (∃ t, new.eraseP p = [(t, .write)]) ∨ ∀ h ∈ new.eraseP p, h.2 = .read := by
  rcases h with ⟨t, rfl⟩ | hread
  · by_cases hp : p (t, .write) = true
    · right
      simp [hp]
    · left
      exact ⟨t, by simp [hp]⟩
  · right
    intro x hx
    exact hread x (List.mem_of_mem_eraseP hx)

theorem Exclusive.exec {w w' : World} (h : Exclusive w.holders) {t : Tid} (c : Call) (r : Answer c)
    (hx : w.exec t c r = some w') : Exclusive w'.holders := by
  cases c with
  | rwlock mode e =>
    cases r with
    | false =>
      cases hx
      exact h
    | true =>
      obtain ⟨hfree, ⟨⟩⟩ := Option.ite_none_right_eq_some.mp hx
      apply h.update
      cases mode with
      | write =>
        have hnone : w.holders e.node = [] := hfree.resolve_right fun hread => Mode.noConfusion hread.1
        rw [hnone]
        exact .inl ⟨t, rfl⟩
      | read =>
        right
        intro x hx
        rcases List.mem_cons.mp hx with rfl | hx
        · rfl
        · rcases hfree with hnone | ⟨-, hread⟩
          · rw [hnone] at hx
            cases hx
          · exact hread x hx
  | rwunlock e =>
    cases hx
    exact h.update (Exclusive.eraseP (h e.node))
  | rwlockInit n =>
    cases r with
    | false =>
      cases hx
      exact h
    | true =>
      cases hx
      exact h.update (.inr fun _ hx => absurd hx List.not_mem_nil)
  | calloc =>
    cases r with
    | none =>
      cases hx
      exact h
    | some n =>
      obtain ⟨-, ⟨⟩⟩ := Option.ite_none_left_eq_some.mp hx
      exact h
  | «open» path mode => cases r <;> cases hx <;> exact h
  | mapLock | getHead | logLock =>
    obtain ⟨-, ⟨⟩⟩ := Option.ite_none_right_eq_some.mp hx
    exact h
  | _ =>
    cases hx
    exact h

/-! ## Runs -/

variable {threads : Tid → Thread} {cfg cfg' : ServerLocks.Server}
  {es es' : List (Event Call Answer Tid)}

theorem History.ordered (h : History Exec (begin threads) es cfg) :
    (Recorded cfg.shared (knowledge Local.next Local.start es) ∧ Exclusive cfg.shared.holders) ∧
      ∀ t, wp orderly (cfg.prog t) (fun _ _ => True) (knowledge Local.next Local.start es t) := by
  apply History.keeps (I := fun w ls => Recorded w ls ∧ Exclusive w.holders) _ _ _ h
  · intro t w ls c r w' hfits hc hx
    exact ⟨⟨hfits.1.possible c r hx, rfl⟩, hfits.1.exec c r hc hx, hfits.2.exec c r hx⟩
  · have hstart : Fits here World.start fun _ => Local.start := Fits.start
    exact ⟨hstart.recorded, fun n => .inr nofun⟩
  · exact fun t => orderly_thread (threads t)

/-- Entries are only added to the registry, in front. -/
theorem head_suffix {w w' : World} {ls : Tid → Local} (h : Recorded w ls) {t : Tid} (c : Call)
    (r : Answer c) (hc : (ls t).Orderly c) (hx : w.exec t c r = some w') : w.head <:+ w'.head := by
  cases c with
  | setHead entries =>
    cases hx
    obtain ⟨path, node, rest, rfl, hseen, -⟩ := hc
    rw [← (Registry.current h t rest hseen).2]
    exact List.suffix_cons _ _
  | rwlock mode e =>
    cases r with
    | false =>
      cases hx
      exact List.suffix_rfl
    | true =>
      obtain ⟨-, ⟨⟩⟩ := Option.ite_none_right_eq_some.mp hx
      exact List.suffix_rfl
  | calloc =>
    cases r with
    | none =>
      cases hx
      exact List.suffix_rfl
    | some n =>
      obtain ⟨-, ⟨⟩⟩ := Option.ite_none_left_eq_some.mp hx
      exact List.suffix_rfl
  | «open» _ _ | rwlockInit _ => cases r <;> cases hx <;> exact List.suffix_rfl
  | mapLock | getHead | logLock =>
    obtain ⟨-, ⟨⟩⟩ := Option.ite_none_right_eq_some.mp hx
    exact List.suffix_rfl
  | _ =>
    cases hx
    exact List.suffix_rfl

theorem registry_grows (h : History Exec (begin threads) es cfg)
    (h' : History Exec cfg es' cfg') : cfg.shared.head <:+ cfg'.shared.head := by
  induction h' with
  | start => exact List.suffix_rfl
  | unroll _ _ ih => exact ih
  | call hist hp hx ih =>
    obtain ⟨⟨hrec, -⟩, hwp⟩ := History.ordered (h.append hist)
    exact ih.trans (head_suffix hrec _ _ (wp_call hwp hp).1 hx)

/-- Every lock that was acquired is that of an entry which is still in the registry. -/
theorem acquired_mem (h : History Exec (begin threads) es cfg) {t : Tid} {mode : Mode} {e : Entry}
    {r : Bool} (he : ⟨t, .rwlock mode e, r⟩ ∈ es) : e ∈ cfg.shared.head := by
  induction h with
  | start => cases he
  | unroll _ _ ih => exact ih he
  | call hist hp hx ih =>
    obtain ⟨⟨hrec, -⟩, hwp⟩ := History.ordered hist
    have hc := (wp_call hwp hp).1
    have hsub := (head_suffix hrec _ _ hc hx).subset
    cases he with
    | head => exact hsub (Registry.found hrec _ e hc)
    | tail _ he => exact hsub (ih he)

/-- The calls that an acquisition of the lock of `path` may make. -/
def acquiring (mode : Mode) (path : Bytes) : Rules Call Answer Unit where
  allowed _ c := ∀ m e, c = .rwlock m e → m = mode ∧ e.path = path
  after _ _ _ _ := True

theorem acquiring_path (mode : Mode) (path : Bytes) :
    wp (acquiring mode path) (locksAcquire mode path) (fun x _ => ∀ e, x = some e → e.path = path)
      () := by
  have hquiet : ∀ {α : Type} {c : Call} {f : Answer c → ServerOps.Server α} {Q : α → Unit → Prop},
      (∀ m e, c ≠ .rwlock m e) → (∀ r, wp (acquiring mode path) (f r) Q ()) →
      wp (acquiring mode path) (ask c >>= f) Q () := by
    intro α c f Q hc hf
    apply wp_bind
    exact wp_perform (fun m e he => absurd he (hc m e)) fun r _ _ => hf r
  have hget : wp (acquiring mode path) (getOrCreateLock path)
      (fun x _ => ∀ e, x = some e → e.path = path) () := by
    refine hquiet nofun fun _ => hquiet nofun fun entries => ?_
    split
    · next cur hfind =>
      have hpath := List.find?_some hfind
      refine hquiet nofun fun _ e he => ?_
      cases he
      exact strcmp_eq_zero (by simpa using hpath)
    · refine hquiet nofun fun node => ?_
      cases node with
      | none => exact hquiet nofun fun _ => nofun
      | some node =>
        have hfree : wp (acquiring mode path)
            (do ask (.free node); ask .mapUnlock; pure (none : Option Entry))
            (fun x _ => ∀ e, x = some e → e.path = path) () :=
          hquiet nofun fun _ => hquiet nofun fun _ => nofun
        refine hquiet nofun fun copied => ?_
        split
        · exact hfree
        · refine hquiet nofun fun ready => ?_
          split
          · exact hfree
          · refine hquiet nofun fun next => hquiet nofun fun _ => hquiet nofun fun _ e he => ?_
            cases he
            rfl
  apply wp_bind
  refine hget.mono fun x _ hx => ?_
  cases x with
  | none => exact nofun
  | some e =>
    have hpath := hx e rfl
    apply wp_bind
    refine wp_perform ?_ fun got _ _ => ?_
    · rintro m e' he
      cases he
      exact ⟨rfl, hpath⟩
    · cases got with
      | false => exact nofun
      | true =>
        rintro e' he
        cases he
        exact hpath

/-- In every state that any threads can reach, the registry has at most one entry for each path, and
its entries stay.  The lock that is acquired for a path is that of the entry of this path, so any
two acquisitions for one path are of one lock, and two threads hold it only for reading. -/
theorem one_lock_per_path (h : History Exec (begin threads) es cfg) :
    (cfg.shared.head.map Entry.path).Nodup ∧
    (∀ es' cfg', History Exec cfg es' cfg' → cfg.shared.head <:+ cfg'.shared.head) ∧
    (∀ mode path, wp (acquiring mode path) (locksAcquire mode path)
      (fun x _ => ∀ e, x = some e → e.path = path) ()) ∧
    (∀ t u m m' e e', ⟨t, .rwlock m e, true⟩ ∈ es → ⟨u, .rwlock m' e', true⟩ ∈ es →
      e.path = e'.path → e.node = e'.node) ∧
    ∀ t u path mode, t ≠ u → HoldsPath cfg.shared t path .write →
      ¬ HoldsPath cfg.shared u path mode := by
  obtain ⟨⟨hrec, hexcl⟩, -⟩ := History.ordered h
  have hpaths := Registry.paths hrec
  refine ⟨hpaths, ?_, acquiring_path, ?_, ?_⟩
  · intro es' cfg' h'
    exact registry_grows h h'
  · intro t u m m' e e' he he' hpath
    rw [List.inj_on_of_nodup_map hpaths (acquired_mem h he) (acquired_mem h he') hpath]
  · rintro t u path mode htu ⟨e, he, hpath, hwrite⟩ ⟨e', he', hpath', hmode⟩
    have hsame : e' = e := List.inj_on_of_nodup_map hpaths he' he (hpath'.trans hpath.symm)
    subst hsame
    rcases hexcl e'.node with ⟨v, hone⟩ | hread
    · rw [hone, List.mem_singleton] at hwrite hmode
      cases hwrite
      cases hmode
      exact htu rfl
    · exact nomatch hread _ hwrite

/-- What happens when two threads read-lock `a`, the last call first. -/
def sharing : List (Event Call Answer Tid) :=
  let a : Entry := ⟨ascii "a", 0⟩
  [⟨1, .rwlock .read a, true⟩, ⟨1, .mapUnlock, ()⟩, ⟨1, .getHead, [a]⟩, ⟨1, .mapLock, ()⟩,
    ⟨0, .rwlock .read a, true⟩, ⟨0, .mapUnlock, ()⟩, ⟨0, .setHead [a], ()⟩, ⟨0, .getHead, []⟩,
    ⟨0, .rwlockInit 0, true⟩, ⟨0, .strdup (ascii "a"), true⟩, ⟨0, .calloc, some 0⟩,
    ⟨0, .getHead, []⟩, ⟨0, .mapLock, ()⟩]

/-- Two threads hold the lock of `a` for reading, and it is one lock. -/
theorem one_lock_per_path_shared :
    ∃ cfg, History Exec (begin fun _ => .user [.acquire .read (ascii "a")]) sharing cfg ∧
      cfg.shared.holders 0 = [(1, .read), (0, .read)] ∧
      (cfg.shared.head.map Entry.path).Nodup ∧
      ∀ e, ⟨1, .rwlock .read e, true⟩ ∈ sharing → e.path = ascii "a" → e.node = 0 := by
  have hist : ∃ cfg, History Exec (begin fun _ => .user [.acquire .read (ascii "a")]) sharing cfg ∧
      cfg.shared.holders 0 = [(1, .read), (0, .read)] := by
    refine ⟨_, .call (.call (.call (.call (.call (.call (.call (.call (.call (.call (.call (.call
      (.call .start rfl rfl) rfl rfl) rfl rfl) rfl rfl) rfl rfl) rfl rfl) rfl rfl) rfl rfl) rfl rfl)
      rfl rfl) rfl rfl) rfl rfl) rfl rfl, rfl⟩
  obtain ⟨cfg, hcfg, hholders⟩ := hist
  obtain ⟨hpaths, -, -, hsame, -⟩ := one_lock_per_path hcfg
  refine ⟨cfg, hcfg, hholders, hpaths, fun e he hpath => ?_⟩
  exact hsame 1 0 .read .read e ⟨ascii "a", 0⟩ he (by simp [sharing]) hpath

end ServerRegistry
