import Mathlib.Data.List.Nodup
import Xv6Filesrv.ServerLocks

/-!
# Every step keeps the locks in order

What each call makes of the locks and of the open files, and that a call which the discipline allows
leaves the shared state and the knowledge of the threads in agreement.
-/

namespace ServerLocks

open ServerResp ServerPaths ServerOps ServerDiscipline
open Function (update update_eq_self update_of_ne update_self)

variable {opened : Tid → List (Nat × Bytes × Mode)} {mode : Mode} {e : Entry}

section Locks

variable {env : Env} {head : List Entry} {holders : Node → List (Tid × Mode)}
  {held : Tid → List (Entry × Mode)} {request : Tid → Option RespArray} {t : Tid}

section Locks

variable (h : Locks env head holders held request)
include h

/-- A lock is taken that the holders leave free. -/
theorem Locks.acquire
    (hfree : holders e.node = [] ∨ mode = .read ∧ ∀ x ∈ holders e.node, x.2 = .read) (he : e ∈ head)
    (horder : ∀ x ∈ held t, strcmp x.1.path e.path < 0) (hname : NamesFile env (request t) e.path)
    (hnodes : (head.map Entry.node).Nodup) :
    Locks env head (update holders e.node ((t, mode) :: holders e.node))
      (update held t ((e, mode) :: held t)) request := by
  -- a thread that has the lock already would hold a path that is not below its own
  have hnew : t ∉ (holders e.node).map Prod.fst := by
    intro hmem
    obtain ⟨⟨u, m⟩, hu, hut⟩ := List.mem_map.mp hmem
    change u = t at hut
    subst hut
    obtain ⟨e', hnode, he'⟩ := (h.agree e.node u m).mp hu
    have hsame : e' = e := List.inj_on_of_nodup_map hnodes (h.entry u _ he') he hnode
    have hlt := horder _ he'
    rw [hsame, strcmp_self] at hlt
    exact absurd hlt (by decide)
  have hmem : ∀ u x, x ∈ update held t ((e, mode) :: held t) u ↔
      (u = t ∧ x = (e, mode)) ∨ x ∈ held u := by
    intro u x
    by_cases hu : u = t
    · subst hu
      simp
    · simp [hu]
  constructor
  · intro n u m
    by_cases hn : n = e.node
    · subst hn
      rw [update_self, List.mem_cons, h.agree]
      constructor
      · rintro (heq | ⟨e', hnode, he'⟩)
        · cases heq
          exact ⟨e, rfl, (hmem t _).mpr (.inl ⟨rfl, rfl⟩)⟩
        · exact ⟨e', hnode, (hmem u _).mpr (.inr he')⟩
      · rintro ⟨e', hnode, he'⟩
        rcases (hmem u _).mp he' with ⟨hu, heq⟩ | he'
        · cases heq
          exact .inl (by rw [hu])
        · exact .inr ⟨e', hnode, he'⟩
    · rw [update_of_ne hn, h.agree]
      constructor
      · rintro ⟨e', hnode, he'⟩
        exact ⟨e', hnode, (hmem u _).mpr (.inr he')⟩
      · rintro ⟨e', hnode, he'⟩
        rcases (hmem u _).mp he' with ⟨-, heq⟩ | he'
        · cases heq
          exact absurd hnode.symm hn
        · exact ⟨e', hnode, he'⟩
  · intro n
    by_cases hn : n = e.node
    · subst hn
      rw [update_self, List.map_cons, List.nodup_cons]
      exact ⟨hnew, h.once _⟩
    · rw [update_of_ne hn]
      exact h.once n
  · intro n u v m hu hv
    by_cases hn : n = e.node
    · subst hn
      rw [update_self, List.mem_cons] at hu hv
      rcases hfree with hnone | ⟨hread, hall⟩
      · simp only [hnone, List.not_mem_nil, or_false, Prod.mk.injEq] at hu hv
        rw [hu.1, hv.1]
      · rcases hu with hu | hu
        · simp [hread] at hu
        · exact absurd (hall _ hu) (by simp)
    · rw [update_of_ne hn] at hu hv
      exact h.alone n u v m hu hv
  · intro u x hx
    rcases (hmem u x).mp hx with ⟨-, rfl⟩ | hx
    · exact he
    · exact h.entry u x hx
  · intro u x hx
    rcases (hmem u x).mp hx with ⟨rfl, rfl⟩ | hx
    · exact hname
    · exact h.names u x hx
  · intro u
    by_cases hu : u = t
    · subst hu
      rw [update_self, List.pairwise_cons]
      exact ⟨horder, h.ordered u⟩
    · rw [update_of_ne hu]
      exact h.ordered u

theorem Locks.release (he : (e, mode) ∈ held t) (hnodes : (head.map Entry.node).Nodup) :
    Locks env head
      (update holders e.node ((holders e.node).eraseP fun x => x.1 = t))
      (update held t ((held t).filter fun x => x.1 ≠ e)) request := by
  have hmem : ∀ u x, x ∈ update held t ((held t).filter fun x => x.1 ≠ e) u ↔
      x ∈ held u ∧ (u = t → x.1 ≠ e) := by
    intro u x
    by_cases hu : u = t
    · subst hu
      simp
    · simp [hu]
  -- the thread is listed once, so no entry of it is left
  have herase : ∀ u m, (u, m) ∈ (holders e.node).eraseP (fun x => x.1 = t) ↔
      (u, m) ∈ holders e.node ∧ u ≠ t := by
    intro u m
    constructor
    · intro hu
      refine ⟨List.mem_of_mem_eraseP hu, fun hut => ?_⟩
      subst hut
      have hdrop := List.nodup_iff_count_le_one.mp (h.once e.node) u
      obtain ⟨a, l₁, l₂, hl₁, ha, hsplit, herase⟩ :=
        List.exists_of_eraseP (p := fun x : Tid × Mode => x.1 = u) (List.mem_of_mem_eraseP hu)
          (by simp)
      rw [herase] at hu
      rw [hsplit] at hdrop
      have hua : a.1 = u := by simpa using ha
      have hin : u ∈ (l₁ ++ l₂).map Prod.fst := List.mem_map.mpr ⟨_, hu, rfl⟩
      have hcount := List.count_pos_iff.mpr hin
      simp only [List.map_append, List.map_cons, List.count_append, hua,
        List.count_cons_self] at hdrop hcount
      omega
    · rintro ⟨hu, hne⟩
      exact (List.mem_eraseP_of_neg (by simpa using hne)).mpr hu
  constructor
  · intro n u m
    by_cases hn : n = e.node
    · subst hn
      rw [update_self, herase, h.agree]
      constructor
      · rintro ⟨⟨e', hnode, he'⟩, hne⟩
        exact ⟨e', hnode, (hmem u _).mpr ⟨he', fun hu => absurd hu hne⟩⟩
      · rintro ⟨e', hnode, he'⟩
        obtain ⟨he', hne⟩ := (hmem u _).mp he'
        refine ⟨⟨e', hnode, he'⟩, fun hu => hne hu ?_⟩
        exact List.inj_on_of_nodup_map hnodes (h.entry u _ he') (h.entry t _ he) hnode
    · rw [update_of_ne hn, h.agree]
      constructor
      · rintro ⟨e', hnode, he'⟩
        refine ⟨e', hnode, (hmem u _).mpr ⟨he', fun _ heq => hn ?_⟩⟩
        rw [← hnode]
        exact congrArg Entry.node heq
      · rintro ⟨e', hnode, he'⟩
        exact ⟨e', hnode, ((hmem u _).mp he').1⟩
  · intro n
    by_cases hn : n = e.node
    · subst hn
      rw [update_self]
      exact (List.eraseP_sublist.map Prod.fst).nodup (h.once _)
    · rw [update_of_ne hn]
      exact h.once n
  · intro n u v m hu hv
    by_cases hn : n = e.node
    · subst hn
      rw [update_self] at hu hv
      exact h.alone _ u v m (List.mem_of_mem_eraseP hu) (List.mem_of_mem_eraseP hv)
    · rw [update_of_ne hn] at hu hv
      exact h.alone n u v m hu hv
  · intro u x hx
    exact h.entry u x ((hmem u x).mp hx).1
  · intro u x hx
    exact h.names u x ((hmem u x).mp hx).1
  · intro u
    by_cases hu : u = t
    · subst hu
      rw [update_self]
      exact (h.ordered u).filter _
    · rw [update_of_ne hu]
      exact h.ordered u

theorem Locks.grow {head' : List Entry} (hsub : ∀ e ∈ head, e ∈ head') :
    Locks env head' holders held request :=
  { h with entry := fun u x hx => hsub _ (h.entry u x hx) }

/-- A thread without locks may take up another request. -/
theorem Locks.serve (ht : held t = []) (req : Option RespArray) :
    Locks env head holders held (update request t req) := by
  refine { h with names := ?_ }
  intro u x hx
  by_cases hu : u = t
  · subst hu
    rw [ht] at hx
    cases hx
  · rw [update_of_ne hu]
    exact h.names u x hx

/-- A lock that is not in the registry has no holders. -/
theorem Locks.unused {n : Node} (hn : ∀ e ∈ head, e.node ≠ n) : holders n = [] := by
  rw [List.eq_nil_iff_forall_not_mem]
  rintro ⟨u, m⟩ hu
  obtain ⟨e, hnode, he⟩ := (h.agree n u m).mp hu
  exact hn e (h.entry u _ he) hnode

end Locks

end Locks

/-! ## Every step fits -/

section Steps

variable {env : Env} {w w' : World} {ls : Tid → Local} {t : Tid} {l : Local}

/-- The thread `t` goes on in the state `l`. -/
theorem Fits.put (hregistry : Recorded w' (update ls t l))
    (hlocks : Locks env w'.head w'.holders (update (fun u => (ls u).held) t l.held)
      w'.request)
    (hfiles : Files (update (fun u => (ls u).held) t l.held) w'.opened)
    (hopened : w'.opened = update (fun u => (ls u).opened) t l.opened)
    (hrequest : w'.request = update (fun u => (ls u).request) t l.request)
    (hlog : ∀ u, update (fun u => (ls u).logging) t l.logging u = true ↔
      w'.logMutex = some u) : Fits env w' (update ls t l) := by
  constructor
  · exact hregistry
  · rw [field_update Local.held]
    exact hlocks
  · rw [field_update Local.held]
    exact hfiles
  · rw [field_update Local.opened]
    exact hopened
  · rw [field_update Local.request]
    exact hrequest
  · intro u
    rw [← hlog u, ← field_update Local.logging]

section Fits

variable (h : Fits env w ls)
include h

theorem Fits.recorded : Recorded w ls := h.registry

theorem Fits.locks_self : Locks env w.head w.holders
    (update (fun u => (ls u).held) t (ls t).held) w.request := by
  rw [update_eq_self]
  exact h.locks

theorem Fits.files_self :
    Files (update (fun u => (ls u).held) t (ls t).held) w.opened := by
  rw [update_eq_self]
  exact h.files

theorem Fits.opened_self : w.opened = update (fun u => (ls u).opened) t (ls t).opened := by
  rw [update_eq_self]
  exact h.opened

theorem Fits.request_self :
    w.request = update (fun u => (ls u).request) t (ls t).request := by
  rw [update_eq_self]
  exact h.request

theorem Fits.log_self (u : Tid) :
    update (fun u => (ls u).logging) t (ls t).logging u = true ↔ w.logMutex = some u := by
  rw [update_eq_self]
  exact h.log u

/-- Only the registry and what is known about it changes. -/
theorem Fits.update_registry {head : List Entry} {live : List Node}
    {mutex : Option Tid} {inMap : Bool} {seen : Option (List Entry)} {own : List Node}
    {known : List Entry} (hsub : ∀ e ∈ w.head, e ∈ head)
    (hregistry : Recorded { w with head := head, live := live, mapMutex := mutex }
      (update ls t
        { ls t with inMap := inMap, seen := seen, own := own, known := known })) :
    Fits env { w with head := head, live := live, mapMutex := mutex }
      (update ls t
        { ls t with inMap := inMap, seen := seen, own := own, known := known }) := by
  apply Fits.put hregistry
  · rw [update_eq_self]
    exact h.locks.grow hsub
  · exact h.files_self
  · exact h.opened_self
  · exact h.request_self
  · exact h.log_self

end Fits

/-- A thread without open files may change its locks. -/
theorem Files.held_update {held : Tid → List (Entry × Mode)} (h : Files held opened)
    (ht : opened t = []) (new : List (Entry × Mode)) : Files (update held t new) opened := by
  intro u o ho
  by_cases hu : u = t
  · subst hu
    rw [ht] at ho
    cases ho
  · rw [update_of_ne hu]
    exact h u o ho

/-- More locks serve as well. -/
theorem Files.held_cons {held : Tid → List (Entry × Mode)} (h : Files held opened)
    (x : Entry × Mode) :
    Files (update held t (x :: held t)) opened := by
  intro u o ho
  obtain ⟨y, hy, hlock⟩ := h u o ho
  refine ⟨y, ?_, hlock⟩
  by_cases hu : u = t
  · subst hu
    rw [update_self]
    exact List.mem_cons_of_mem x hy
  · rw [update_of_ne hu]
    exact hy

theorem Files.opened_update {held : Tid → List (Entry × Mode)} (h : Files held opened)
    {new : List (Nat × Bytes × Mode)}
    (hnew : ∀ o ∈ new, ∃ x ∈ held t, x.1.path = o.2.1 ∧ (o.2.2 = .write → x.2 = .write)) :
    Files held (update opened t new) := by
  intro u o ho
  by_cases hu : u = t
  · subst hu
    rw [update_self] at ho
    exact hnew o ho
  · rw [update_of_ne hu] at ho
    exact h u o ho

section Threads

variable (h : Fits env w ls)
include h

theorem Fits.recv (ht : (ls t).held = []) (req : Option RespArray) :
    Fits env { w with request := update w.request t req }
      (update ls t { ls t with request := req }) := by
  apply Fits.put
  · exact h.recorded.same rfl rfl rfl rfl rfl rfl rfl
  · rw [update_eq_self]
    exact h.locks.serve ht req
  · exact h.files_self
  · exact h.opened_self
  · rw [h.request]
  · exact h.log_self

theorem Fits.lock
    (hfree : w.holders e.node = [] ∨ mode = .read ∧ ∀ x ∈ w.holders e.node, x.2 = .read)
    (hknown : e ∈ (ls t).known) (horder : ∀ x ∈ (ls t).held, strcmp x.1.path e.path < 0)
    (hname : (ls t).Names env e.path) :
    Fits env { w with holders := update w.holders e.node ((t, mode) :: w.holders e.node) }
      (update ls t { ls t with held := (e, mode) :: (ls t).held }) := by
  have hname' : NamesFile env (w.request t) e.path := by
    rw [h.request]
    exact hname
  apply Fits.put
  · exact h.recorded.same rfl rfl rfl rfl rfl rfl rfl
  · exact h.locks.acquire hfree (h.registry.found t e hknown) horder hname' h.registry.nodes
  · exact h.files.held_cons (t := t) (e, mode)
  · exact h.opened_self
  · exact h.request_self
  · exact h.log_self

theorem Fits.unlock (he : (e, mode) ∈ (ls t).held) (hopened : (ls t).opened = []) :
    Fits env
      { w with
        holders := update w.holders e.node
          ((w.holders e.node).eraseP fun h => h.1 = t) }
      (update ls t { ls t with held := (ls t).held.filter fun h => h.1 ≠ e }) := by
  apply Fits.put
  · exact h.recorded.same rfl rfl rfl rfl rfl rfl rfl
  · exact h.locks.release he h.registry.nodes
  · apply h.files.held_update
    rw [h.opened]
    exact hopened
  · exact h.opened_self
  · exact h.request_self
  · exact h.log_self

/-- Files are opened and closed. -/
theorem Fits.reopen {new : List (Nat × Bytes × Mode)}
    (hnew : ∀ o ∈ new, (ls t).Locked o.2.1 o.2.2) :
    Fits env { w with opened := update w.opened t new }
      (update ls t { ls t with opened := new }) := by
  apply Fits.put
  · exact h.recorded.same rfl rfl rfl rfl rfl rfl rfl
  · exact h.locks_self
  · rw [update_eq_self]
    exact h.files.opened_update hnew
  · rw [h.opened]
  · exact h.request_self
  · exact h.log_self

theorem Fits.log_update {mutex : Option Tid} {logging : Bool}
    (hlog : ∀ u, update (fun u => (ls u).logging) t logging u = true ↔ mutex = some u) :
    Fits env { w with logMutex := mutex } (update ls t { ls t with logging := logging }) := by
  apply Fits.put
  · exact h.recorded.same rfl rfl rfl rfl rfl rfl rfl
  · exact h.locks_self
  · exact h.files_self
  · exact h.opened_self
  · exact h.request_self
  · exact hlog

/-- A call that leaves world and thread as they are. -/
theorem Fits.same {l' : Local} (hl : l' = ls t) (hw : some w = some w') :
    Fits env w' (update ls t l') := by
  cases hw
  rw [hl, update_eq_self]
  exact h

/-- An allowed call leaves the world and the threads' knowledge in agreement. -/
theorem Fits.exec (c : Call) (r : Answer c) (hc : (ls t).Allowed env c)
    (hx : w.exec t c r = some w') : Fits env w' (update ls t ((ls t).next c r)) := by
  have hregistry := h.recorded.exec c r hc.orderly hx
  cases c with
  | recvRequest =>
    cases hx
    exact h.recv hc.1 r
  | freeRequest =>
    cases hx
    exact h.recv hc.1 none
  | mapLock =>
    obtain ⟨-, ⟨⟩⟩ := Option.ite_none_right_eq_some.mp hx
    exact h.update_registry (fun _ he => he) hregistry
  | mapUnlock | free _ =>
    cases hx
    exact h.update_registry (fun _ he => he) hregistry
  | getHead =>
    obtain ⟨-, ⟨⟩⟩ := Option.ite_none_right_eq_some.mp hx
    exact h.update_registry (fun _ he => he) hregistry
  | setHead entries =>
    cases hx
    obtain ⟨path, node, rest, rfl, hseen, -, -⟩ := hc
    have hrest := (h.registry.current t rest hseen).2
    subst hrest
    exact h.update_registry (fun _ he => List.mem_cons_of_mem _ he) hregistry
  | calloc =>
    cases r with
    | none => exact h.same rfl hx
    | some n =>
      obtain ⟨-, ⟨⟩⟩ := Option.ite_none_left_eq_some.mp hx
      exact h.update_registry (fun _ he => he) hregistry
  | rwlockInit n =>
    cases r with
    | false => exact h.same rfl hx
    | true =>
      apply h.same rfl
      have hnone := h.locks.unused (h.registry.own_new t n hc)
      simp only [World.exec] at hx
      rw [← hx, ← hnone, update_eq_self]
  | rwlock mode e =>
    cases r with
    | false => exact h.same rfl hx
    | true =>
      obtain ⟨hfree, ⟨⟩⟩ := Option.ite_none_right_eq_some.mp hx
      obtain ⟨-, -, hknown, horder, hname⟩ := hc
      exact h.lock hfree hknown horder hname
  | rwunlock e =>
    cases hx
    obtain ⟨⟨mode, he⟩, hopened⟩ := hc
    exact h.unlock he hopened
  | «open» path mode =>
    cases r with
    | none => exact h.same rfl hx
    | some fd =>
      cases hx
      have hopened : w.opened t = (ls t).opened := congrFun h.opened t
      rw [hopened]
      apply h.reopen
      intro o ho
      rcases List.mem_cons.mp ho with rfl | ho
      · exact hc
      · exact h.files t o (hopened ▸ ho)
  | close fd =>
    cases hx
    have hopened : w.opened t = (ls t).opened := congrFun h.opened t
    rw [hopened]
    apply h.reopen
    intro o ho
    exact h.files t o (hopened ▸ (List.mem_filter.mp ho).1)
  | logLock =>
    obtain ⟨hfree, ⟨⟩⟩ := Option.ite_none_right_eq_some.mp hx
    apply h.log_update
    intro u
    by_cases hu : u = t
    · subst hu
      simp
    · have hlog := h.log u
      rw [hfree] at hlog
      simp [update_of_ne hu, hlog, Ne.symm hu]
  | logUnlock =>
    cases hx
    apply h.log_update
    intro u
    by_cases hu : u = t
    · subst hu
      simp
    · have hlog := h.log u
      rw [(h.log t).mp hc] at hlog
      simp [update_of_ne hu, hlog, Ne.symm hu]
  | _ => exact h.same rfl hx

end Threads

end Steps

end ServerLocks
