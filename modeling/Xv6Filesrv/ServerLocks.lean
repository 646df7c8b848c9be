import Mathlib.Data.List.Nodup
import Xv6Filesrv.ServerDiscipline

/-!
# The locks of the file server

Any number of clients' threads over the lock registry, the reader-writer locks, the two mutexes and
the open files.  File system, memory and sockets may answer anything here.
-/

namespace ServerLocks

open ServerResp ServerPaths ServerOps ServerDiscipline Programs
open Function (update update_eq_self update_of_ne update_self)

abbrev Tid := Nat

/-- What the threads share. -/
structure World where
  /-- the list at `g_lock_map_head` -/
  head : List Entry
  /-- the holder of `g_lock_map_mutex` -/
  mapMutex : Option Tid
  /-- the holder of `g_log_mutex` -/
  logMutex : Option Tid
  /-- the entries that are allocated -/
  live : List Node
  /-- the holders of the lock of an entry -/
  holders : Node → List (Tid × Mode)
  /-- the files that a thread has open -/
  opened : Tid → List (Nat × Bytes × Mode)
  /-- the request that a thread works on -/
  request : Tid → Option RespArray

def World.start : World :=
  ⟨[], none, none, [], fun _ => [], fun _ => [], fun _ => none⟩

/-- What an answer to a call makes of the world.  A call that cannot be answered so, in
particular one that has to wait, gives nothing. -/
def World.exec (t : Tid) (w : World) : (c : Call) → Answer c → Option World
  | .recvRequest, r => some { w with request := update w.request t r }
  | .freeRequest, _ => some { w with request := update w.request t none }
  | .mapLock, _ => if w.mapMutex = none then some { w with mapMutex := some t } else none
  | .mapUnlock, _ => some { w with mapMutex := none }
  | .getHead, r => if r = w.head then some w else none
  | .setHead entries, _ => some { w with head := entries }
  | .calloc, some n => if n ∈ w.live then none else some { w with live := n :: w.live }
  | .rwlockInit n, true => some { w with holders := update w.holders n [] }
  | .free n, _ => some { w with live := w.live.filter (· ≠ n) }
  | .rwlock mode e, true =>
    if w.holders e.node = [] ∨ mode = .read ∧ ∀ h ∈ w.holders e.node, h.2 = .read then
      some { w with
        holders := update w.holders e.node ((t, mode) :: w.holders e.node) }
    else none
  | .rwunlock e, _ =>
    some { w with
      holders := update w.holders e.node
        ((w.holders e.node).eraseP fun h => h.1 = t) }
  | .open path mode, some fd =>
    some { w with opened := update w.opened t ((fd, path, mode) :: w.opened t) }
  | .close fd, _ =>
    some { w with
      opened := update w.opened t ((w.opened t).filter fun o => o.1 ≠ fd) }
  | .logLock, _ => if w.logMutex = none then some { w with logMutex := some t } else none
  | .logUnlock, _ => some { w with logMutex := none }
  | _, _ => some w

abbrev Server := Config Call Answer World Tid

/-- Every thread starts as `client_thread`, in the order in which clients connect. -/
def start (env : Env) (client : Tid → Bytes) : Server :=
  ⟨World.start, fun t => clientThread env (client t)⟩

def Exec (t : Tid) (w : World) (c : Call) (r : Answer c) (w' : World) : Prop :=
  w.exec t c r = some w'

/-! ## What holds between the calls -/

/-- The registry has one entry for each path; a thread that holds the mutex knows the list, and
the entries that it has allocated are its own. -/
structure Registry (head : List Entry) (live : List Node) (mutex : Option Tid)
    (inMap : Tid → Bool) (seen : Tid → Option (List Entry)) (own : Tid → List Node)
    (known : Tid → List Entry) : Prop where
  paths : (head.map Entry.path).Nodup
  nodes : (head.map Entry.node).Nodup
  allocated : ∀ e ∈ head, e.node ∈ live
  found : ∀ t, ∀ e ∈ known t, e ∈ head
  holder : ∀ t, inMap t = true ↔ mutex = some t
  current : ∀ t es, seen t = some es → inMap t = true ∧ es = head
  own_live : ∀ t, ∀ n ∈ own t, n ∈ live
  own_new : ∀ t, ∀ n ∈ own t, ∀ e ∈ head, e.node ≠ n
  own_alone : ∀ t u n, n ∈ own t → n ∈ own u → t = u

/-- The holders of the locks are the threads that think so, writers hold alone, and every thread
holds locks that its request names, of increasing paths. -/
structure Locks (env : Env) (head : List Entry) (holders : Node → List (Tid × Mode))
    (held : Tid → List (Entry × Mode)) (request : Tid → Option RespArray) : Prop where
  agree : ∀ n t m, (t, m) ∈ holders n ↔ ∃ e, e.node = n ∧ (e, m) ∈ held t
  once : ∀ n, ((holders n).map Prod.fst).Nodup
  alone : ∀ n t u m, (t, .write) ∈ holders n → (u, m) ∈ holders n → u = t
  entry : ∀ t, ∀ h ∈ held t, h.1 ∈ head
  names : ∀ t, ∀ h ∈ held t, NamesFile env (request t) h.1.path
  ordered : ∀ t, (held t).Pairwise fun a b => strcmp b.1.path a.1.path < 0

/-- A thread only has files open that it has locked. -/
def Files (held : Tid → List (Entry × Mode)) (opened : Tid → List (Nat × Bytes × Mode)) : Prop :=
  ∀ t, ∀ o ∈ opened t, ∃ h ∈ held t, h.1.path = o.2.1 ∧ (o.2.2 = .write → h.2 = .write)

structure Fits (env : Env) (w : World) (ls : Tid → Local) : Prop where
  registry : Registry w.head w.live w.mapMutex (fun t => (ls t).inMap) (fun t => (ls t).seen)
    (fun t => (ls t).own) (fun t => (ls t).known)
  locks : Locks env w.head w.holders (fun t => (ls t).held) w.request
  files : Files (fun t => (ls t).held) w.opened
  opened : w.opened = fun t => (ls t).opened
  request : w.request = fun t => (ls t).request
  log : ∀ t, (ls t).logging = true ↔ w.logMutex = some t

/-- A thread holds the lock of a path. -/
def HoldsPath (w : World) (t : Tid) (path : Bytes) (mode : Mode) : Prop :=
  ∃ e ∈ w.head, e.path = path ∧ (t, mode) ∈ w.holders e.node

section Registry

variable {head : List Entry} {live : List Node} {mutex : Option Tid} {inMap : Tid → Bool}
  {seen : Tid → Option (List Entry)} {own : Tid → List Node} {known : Tid → List Entry} {t : Tid}

theorem Registry.lock (h : Registry head live none inMap seen own known) :
    Registry head live (some t) (update inMap t true) seen own known := by
  have hfree : ∀ u, inMap u ≠ true := fun u hu => nomatch (h.holder u).mp hu
  refine { h with holder := ?_, current := ?_ }
  · intro u
    by_cases hu : u = t
    · subst hu
      simp
    · simp [update_of_ne hu, hfree u, Ne.symm hu]
  · intro u es hes
    exact absurd (h.current u es hes).1 (hfree u)

section Registry

variable (h : Registry head live mutex inMap seen own known)
include h

theorem Registry.unlock (ht : inMap t = true) :
    Registry head live none (update inMap t false) (update seen t none) own
      known := by
  have hother : ∀ u, u ≠ t → inMap u ≠ true := by
    intro u hu hin
    have hsame := (h.holder u).mp hin
    rw [(h.holder t).mp ht] at hsame
    exact hu (Option.some.inj hsame).symm
  refine { h with holder := ?_, current := ?_ }
  · intro u
    by_cases hu : u = t
    · subst hu
      simp
    · simp [update_of_ne hu, hother u hu]
  · intro u es hes
    by_cases hu : u = t
    · subst hu
      simp at hes
    · rw [update_of_ne hu] at hes
      exact absurd (h.current u es hes).1 (hother u hu)

theorem Registry.look (ht : inMap t = true) :
    Registry head live mutex inMap (update seen t (some head)) own
      (update known t (head ++ known t)) := by
  refine { h with found := ?_, current := ?_ }
  · intro u e he
    by_cases hu : u = t
    · subst hu
      rw [update_self, List.mem_append] at he
      exact he.elim id (h.found u e)
    · rw [update_of_ne hu] at he
      exact h.found u e he
  · intro u es hes
    by_cases hu : u = t
    · subst hu
      rw [update_self, Option.some.injEq] at hes
      exact ⟨ht, hes.symm⟩
    · rw [update_of_ne hu] at hes
      exact h.current u es hes

/-- Only the thread that holds the mutex has read the list. -/
theorem Registry.seen_self {rest : List Entry} (ht : seen t = some rest) {u : Tid} {es : List Entry}
    (hu : seen u = some es) : u = t := by
  have htm := (h.holder t).mp (h.current t rest ht).1
  have hum := (h.holder u).mp (h.current u es hu).1
  rw [htm] at hum
  exact (Option.some.inj hum).symm

theorem Registry.push {path : Bytes} {node : Node} (ht : seen t = some head) (hown : node ∈ own t)
    (hpath : ∀ e ∈ head, e.path ≠ path) :
    Registry (⟨path, node⟩ :: head) live mutex inMap
      (update seen t (some (⟨path, node⟩ :: head)))
      (update own t ((own t).filter (· ≠ node)))
      (update known t (⟨path, node⟩ :: head ++ known t)) := by
  have hsub : ∀ u, ∀ n ∈ update own t ((own t).filter (· ≠ node)) u,
      n ∈ own u ∧ n ≠ node := by
    intro u n hn
    by_cases hu : u = t
    · subst hu
      simpa using hn
    · rw [update_of_ne hu] at hn
      refine ⟨hn, fun he => hu ?_⟩
      subst he
      exact h.own_alone u t _ hn hown
  constructor
  · rw [List.map_cons, List.nodup_cons]
    refine ⟨fun hmem => ?_, h.paths⟩
    obtain ⟨e, he, hep⟩ := List.mem_map.mp hmem
    exact hpath e he hep
  · rw [List.map_cons, List.nodup_cons]
    refine ⟨fun hmem => ?_, h.nodes⟩
    obtain ⟨e, he, hen⟩ := List.mem_map.mp hmem
    exact h.own_new t node hown e he hen
  · intro e he
    cases he with
    | head => exact h.own_live t node hown
    | tail _ he => exact h.allocated e he
  · intro u e he
    by_cases hu : u = t
    · subst hu
      rw [update_self, List.mem_append] at he
      exact he.elim id fun hk => List.mem_cons_of_mem _ (h.found u e hk)
    · rw [update_of_ne hu] at he
      exact List.mem_cons_of_mem _ (h.found u e he)
  · exact h.holder
  · intro u es hes
    by_cases hu : u = t
    · subst hu
      rw [update_self, Option.some.injEq] at hes
      exact ⟨(h.current u head ht).1, hes.symm⟩
    · rw [update_of_ne hu] at hes
      exact absurd (h.seen_self ht hes) hu
  · intro u n hn
    exact h.own_live u n (hsub u n hn).1
  · intro u n hn e he
    cases he with
    | head => exact (hsub u n hn).2.symm
    | tail _ he => exact h.own_new u n (hsub u n hn).1 e he
  · intro u v n hn hn'
    exact h.own_alone u v n (hsub u n hn).1 (hsub v n hn').1

theorem Registry.alloc {n : Node} (hn : n ∉ live) :
    Registry head (n :: live) mutex inMap seen (update own t (n :: own t)) known := by
  have hsub : ∀ u, ∀ m ∈ update own t (n :: own t) u, (u = t ∧ m = n) ∨ m ∈ own u := by
    intro u m hm
    by_cases hu : u = t
    · subst hu
      rw [update_self, List.mem_cons] at hm
      exact hm.imp_left fun he => ⟨rfl, he⟩
    · rw [update_of_ne hu] at hm
      exact .inr hm
  have hnone : ∀ u, n ∉ own u := fun u hm => hn (h.own_live u n hm)
  refine { h with allocated := ?_, own_live := ?_, own_new := ?_, own_alone := ?_ }
  · intro e he
    exact List.mem_cons_of_mem _ (h.allocated e he)
  · intro u m hm
    rcases hsub u m hm with ⟨-, rfl⟩ | hm
    · exact List.mem_cons_self
    · exact List.mem_cons_of_mem _ (h.own_live u m hm)
  · intro u m hm e he
    rcases hsub u m hm with ⟨-, rfl⟩ | hm
    · exact fun hen => hn (hen ▸ h.allocated e he)
    · exact h.own_new u m hm e he
  · intro u v m hm hm'
    rcases hsub u m hm with ⟨hu, rfl⟩ | hold
    · rcases hsub v m hm' with ⟨hv, -⟩ | hold'
      · rw [hu, hv]
      · exact absurd hold' (hnone v)
    · rcases hsub v m hm' with ⟨-, rfl⟩ | hold'
      · exact absurd hold (hnone u)
      · exact h.own_alone u v m hold hold'

theorem Registry.dealloc {n : Node} (hn : n ∈ own t) :
    Registry head (live.filter (· ≠ n)) mutex inMap seen
      (update own t ((own t).filter (· ≠ n))) known := by
  have hsub : ∀ u, ∀ m ∈ update own t ((own t).filter (· ≠ n)) u,
      m ∈ own u ∧ m ≠ n := by
    intro u m hm
    by_cases hu : u = t
    · subst hu
      simpa using hm
    · rw [update_of_ne hu] at hm
      refine ⟨hm, fun he => hu ?_⟩
      subst he
      exact h.own_alone u t _ hm hn
  refine { h with allocated := ?_, own_live := ?_, own_new := ?_, own_alone := ?_ }
  · intro e he
    simp [h.allocated e he, h.own_new t n hn e he]
  · intro u m hm
    simp [h.own_live u m (hsub u m hm).1, (hsub u m hm).2]
  · intro u m hm
    exact h.own_new u m (hsub u m hm).1
  · intro u v m hm hm'
    exact h.own_alone u v m (hsub u m hm).1 (hsub v m hm').1

end Registry

end Registry

/-- The registry and what the threads know about it. -/
def Recorded (w : World) (ls : Tid → Local) : Prop :=
  Registry w.head w.live w.mapMutex (fun t => (ls t).inMap) (fun t => (ls t).seen)
    (fun t => (ls t).own) (fun t => (ls t).known)

section Recorded

variable {w w' : World} {ls : Tid → Local} {t : Tid} {l : Local}

theorem field_update {γ : Type} (f : Local → γ) :
    (fun u => f (update ls t l u)) = update (fun u => f (ls u)) t (f l) := by
  funext u
  by_cases hu : u = t
  · subst hu
    rw [update_self, update_self]
  · rw [update_of_ne hu, update_of_ne hu]

theorem Recorded.put (h : Registry w.head w.live w.mapMutex
      (update (fun u => (ls u).inMap) t l.inMap)
      (update (fun u => (ls u).seen) t l.seen)
      (update (fun u => (ls u).own) t l.own)
      (update (fun u => (ls u).known) t l.known)) :
    Recorded w (update ls t l) := by
  unfold Recorded
  rw [field_update Local.inMap, field_update Local.seen, field_update Local.own,
    field_update Local.known]
  exact h

/-- A step that does not concern the registry. -/
theorem Recorded.same (h : Recorded w ls) (hhead : w'.head = w.head) (hlive : w'.live = w.live)
    (hmutex : w'.mapMutex = w.mapMutex) (hin : l.inMap = (ls t).inMap)
    (hseen : l.seen = (ls t).seen) (hown : l.own = (ls t).own) (hknown : l.known = (ls t).known) :
    Recorded w' (update ls t l) := by
  apply Recorded.put
  rw [hhead, hlive, hmutex, hin, hseen, hown, hknown, update_eq_self,
    update_eq_self, update_eq_self, update_eq_self]
  exact h

/-- An orderly call keeps the registry and the threads' knowledge in agreement. -/
theorem Recorded.exec (h : Recorded w ls) (c : Call) (r : Answer c) (hc : (ls t).Orderly c)
    (hx : w.exec t c r = some w') : Recorded w' (update ls t ((ls t).next c r)) := by
  cases c with
  | mapLock =>
    obtain ⟨hfree, ⟨⟩⟩ := Option.ite_none_right_eq_some.mp hx
    apply Recorded.put
    simp only [Local.next, update_eq_self]
    unfold Recorded at h
    rw [hfree] at h
    exact h.lock
  | mapUnlock =>
    cases hx
    apply Recorded.put
    simp only [Local.next, update_eq_self]
    exact Registry.unlock h hc
  | getHead =>
    obtain ⟨rfl, ⟨⟩⟩ := Option.ite_none_right_eq_some.mp hx
    apply Recorded.put
    simp only [Local.next, update_eq_self]
    exact Registry.look h hc
  | setHead entries =>
    cases hx
    obtain ⟨path, node, rest, rfl, hseen, hown, hpath⟩ := hc
    have hrest := (Registry.current h t rest hseen).2
    subst hrest
    have hnext := Registry.push h hseen hown hpath
    apply Recorded.put
    simpa [Local.next] using hnext
  | calloc =>
    cases r with
    | none =>
      cases hx
      exact h.same rfl rfl rfl rfl rfl rfl rfl
    | some n =>
      obtain ⟨hnew, ⟨⟩⟩ := Option.ite_none_left_eq_some.mp hx
      apply Recorded.put
      simp only [Local.next, update_eq_self]
      exact Registry.alloc h hnew
  | free n =>
    cases hx
    apply Recorded.put
    simp only [Local.next, update_eq_self]
    exact Registry.dealloc h hc
  | rwlockInit n =>
    cases r <;> cases hx <;> exact h.same rfl rfl rfl rfl rfl rfl rfl
  | rwlock mode e =>
    cases r with
    | false =>
      cases hx
      exact h.same rfl rfl rfl rfl rfl rfl rfl
    | true =>
      obtain ⟨-, ⟨⟩⟩ := Option.ite_none_right_eq_some.mp hx
      exact h.same rfl rfl rfl rfl rfl rfl rfl
  | «open» path mode =>
    cases r <;> cases hx <;> exact h.same rfl rfl rfl rfl rfl rfl rfl
  | logLock =>
    obtain ⟨-, ⟨⟩⟩ := Option.ite_none_right_eq_some.mp hx
    exact h.same rfl rfl rfl rfl rfl rfl rfl
  | _ =>
    cases hx
    exact h.same rfl rfl rfl rfl rfl rfl rfl

theorem Recorded.possible (h : Recorded w ls) (c : Call) (r : Answer c)
    (hx : w.exec t c r = some w') : (ls t).Possible c r := by
  cases c with
  | getHead =>
    simp only [World.exec, Option.ite_none_right_eq_some] at hx
    intro es hes
    rw [hx.1, (Registry.current h t es hes).2]
  | _ => trivial

end Recorded

end ServerLocks
