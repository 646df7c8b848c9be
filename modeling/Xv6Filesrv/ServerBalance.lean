import Xv6Filesrv.ServerLockRuns

/-!
# The balance of the file locks

Every acquisition and every release of a file's lock is an event of the history of the server.
What a thread has acquired and not released is what it holds, and that is nothing when the handler
of a request has returned.
-/

namespace ServerBalance

open ServerResp ServerPaths ServerOps ServerDiscipline ServerLocks Programs.Config

/-- What a thread does with the lock of a registry entry. -/
inductive LockEvent where
  | acquired (n : Node)
  | released (n : Node)
  deriving DecidableEq

def lockEvent : (c : Call) → Answer c → Option LockEvent
  | .rwlock _ e, true => some (.acquired e.node)
  | .rwunlock e, _ => some (.released e.node)
  | _, _ => none

/-- The lock events of a thread, the last one first. -/
def lockEvents (t : Tid) : List (Event Call Answer Tid) → List LockEvent
  | [] => []
  | e :: es =>
    if e.thread = t then (lockEvent e.call e.answer).toList ++ lockEvents t es else lockEvents t es

/-- The locks that are held after some events.  There is no such list if a lock was acquired by
its holder or released by somebody else. -/
def balance : List LockEvent → Option (List Node)
  | [] => some []
  | .acquired n :: es => (balance es).bind fun held => if n ∈ held then none else some (n :: held)
  | .released n :: es =>
    (balance es).bind fun held => if n ∈ held then some (held.erase n) else none

/-- A lock is acquired as often as it is released, and once more if it is held. -/
theorem balance_count {es : List LockEvent} {held : List Node} (h : balance es = some held)
    (n : Node) : es.count (.acquired n) = es.count (.released n) + held.count n := by
  induction es generalizing held with
  | nil =>
    cases h
    rfl
  | cons e es ih =>
    cases e with
    | acquired m =>
      obtain ⟨held', hes, hm⟩ := Option.bind_eq_some_iff.mp h
      obtain ⟨-, ⟨⟩⟩ := Option.ite_none_left_eq_some.mp hm
      have hcount := ih hes
      by_cases hmn : m = n
      · subst hmn
        simp only [List.count_cons_self, List.count_cons_of_ne (by simp : LockEvent.acquired m ≠
          .released m)]
        omega
      · simp only [List.count_cons_of_ne hmn, List.count_cons_of_ne (by simp :
          LockEvent.acquired m ≠ .released n), List.count_cons_of_ne (by simpa using hmn :
          LockEvent.acquired m ≠ .acquired n)]
        omega
    | released m =>
      obtain ⟨held', hes, hm⟩ := Option.bind_eq_some_iff.mp h
      obtain ⟨hmem, ⟨⟩⟩ := Option.ite_none_right_eq_some.mp hm
      have hcount := ih hes
      by_cases hmn : m = n
      · subst hmn
        have hpos : 0 < held'.count m := List.count_pos_iff.mpr hmem
        simp only [List.count_cons_self, List.count_erase_self, List.count_cons_of_ne (by simp :
          LockEvent.released m ≠ .acquired m)]
        omega
      · simp only [List.count_erase_of_ne (Ne.symm hmn), List.count_cons_of_ne (by simp :
          LockEvent.released m ≠ .acquired n), List.count_cons_of_ne (by simpa using hmn :
          LockEvent.released m ≠ .released n)]
        omega

/-- A call without a lock event leaves the locks of its thread alone. -/
theorem next_held {l : Local} {c : Call} {r : Answer c} (h : lockEvent c r = none) :
    (l.next c r).held = l.held := by
  cases c with
  | rwlock mode e =>
    cases r with
    | false => rfl
    | true => cases h
  | rwunlock e => cases h
  | calloc | «open» _ _ => cases r <;> rfl
  | _ => rfl

variable {env : Env} {client : Tid → Bytes} {cfg : ServerLocks.Server}
  {es : List (Event Call Answer Tid)}

/-- The locks that a thread holds, as registry entries. -/
def heldNodes (l : Local) : List Node := l.held.map fun h => h.1.node

theorem held_nodup {w : World} {ls : Tid → Local} (h : Fits env w ls) (t : Tid) :
    (heldNodes (ls t)).Nodup := by
  unfold heldNodes List.Nodup
  rw [List.pairwise_map]
  refine (h.locks.ordered t).imp_of_mem fun {a b} ha hb hlt hnode => ?_
  have hsame : a.1 = b.1 := List.inj_on_of_nodup_map h.registry.nodes (h.locks.entry t a ha)
    (h.locks.entry t b hb) hnode
  rw [hsame, strcmp_self] at hlt
  exact absurd hlt (by decide)

/-- A lock that may be acquired is not held. -/
theorem not_held {w : World} {ls : Tid → Local} (h : Fits env w ls) {t : Tid}
    (mode : Mode) {e : Entry} (hc : (ls t).Allowed env (.rwlock mode e)) :
    e.node ∉ heldNodes (ls t) := by
  intro hmem
  obtain ⟨x, hx, hnode⟩ := List.mem_map.mp hmem
  obtain ⟨-, -, hknown, horder, -⟩ := hc
  have hsame : x.1 = e := List.inj_on_of_nodup_map h.registry.nodes (h.locks.entry t x hx)
    (h.registry.found t e hknown) hnode
  have hlt := horder x hx
  rw [hsame, strcmp_self] at hlt
  exact absurd hlt (by decide)

/-- To release an entry is to release its lock. -/
theorem held_erase {w : World} {ls : Tid → Local} (h : Fits env w ls) {t : Tid} {mode : Mode}
    {e : Entry} (he : (e, mode) ∈ (ls t).held) :
    (heldNodes (ls t)).erase e.node = ((ls t).held.filter fun x => x.1 ≠ e).map fun x => x.1.node := by
  rw [(held_nodup h t).erase_eq_filter, heldNodes, List.filter_map]
  congr 1
  apply List.filter_congr
  intro x hx
  by_cases hsame : x.1 = e
  · simp [hsame]
  · have hnode : x.1.node ≠ e.node := fun hnode => hsame (List.inj_on_of_nodup_map h.registry.nodes
      (h.locks.entry t x hx) (h.locks.entry t _ he) hnode)
    simp [hsame, hnode]

/-- The events of a thread add up to what it holds. -/
theorem balance_held (h : History Exec (start env client) es cfg) (t : Tid) :
    balance (lockEvents t es) = some (heldNodes (known es t)) := by
  induction h with
  | start => rfl
  | unroll _ _ ih => exact ih
  | @call es cfg u c k r s' hist hp hx ih =>
    obtain ⟨hfits, hwp⟩ := fits_known hist
    have hc := (wp_call hwp hp).1
    by_cases hu : u = t
    · subst hu
      have hnext : known (⟨u, c, r⟩ :: es) u = (known es u).next c r := Function.update_self _ _ _
      rw [hnext]
      simp only [lockEvents, if_true]
      cases hev : lockEvent c r with
      | none =>
        simp only [Option.toList_none, List.nil_append, heldNodes, next_held hev]
        exact ih
      | some ev =>
        cases c with
        | rwlock mode e =>
          cases r with
          | false => cases hev
          | true =>
            cases hev
            have hfresh : e.node ∉ heldNodes (known es u) := not_held hfits mode hc
            simp only [Option.toList_some, List.cons_append, List.nil_append, balance, ih,
              Option.bind_some, if_neg hfresh]
            rfl
        | rwunlock e =>
          cases hev
          obtain ⟨⟨mode, he⟩, -⟩ := hc
          have hmem : e.node ∈ heldNodes (known es u) := List.mem_map.mpr ⟨_, he, rfl⟩
          simp only [Option.toList_some, List.cons_append, List.nil_append, balance, ih,
            Option.bind_some, if_pos hmem, held_erase hfits he]
          rfl
        | _ => cases hev
    · have hsame : known (⟨u, c, r⟩ :: es) t = known es t := Function.update_of_ne (Ne.symm hu) _ _
      rw [hsame]
      simp only [lockEvents, if_neg hu]
      exact ih

/-- A thread of the server never acquires a lock that it holds and never releases one that it does
not hold.  Whatever the calls of a handler were answered, when it has returned and its request is
freed, its thread holds no lock and has released every lock as often as it acquired it. -/
theorem locks_balanced (h : History Exec (start env client) es cfg) (t : Tid) :
    (∃ held, balance (lockEvents t es) = some held ∧
      ∀ n, n ∈ held ↔ ∃ mode, (t, mode) ∈ cfg.shared.holders n) ∧
    ∀ k, cfg.prog t = .call .freeRequest k →
      balance (lockEvents t es) = some [] ∧ (∀ n mode, (t, mode) ∉ cfg.shared.holders n) ∧
        ∀ n, (lockEvents t es).count (.acquired n) = (lockEvents t es).count (.released n) := by
  have hbalance := balance_held h t
  obtain ⟨hfits, hwp⟩ := fits_known h
  have hholds : ∀ n, n ∈ heldNodes (known es t) ↔ ∃ mode, (t, mode) ∈ cfg.shared.holders n := by
    intro n
    unfold heldNodes
    rw [List.mem_map]
    constructor
    · rintro ⟨x, hx, hnode⟩
      exact ⟨x.2, (hfits.locks.agree n t x.2).mpr ⟨x.1, hnode, hx⟩⟩
    · rintro ⟨mode, hmode⟩
      obtain ⟨e, hnode, he⟩ := (hfits.locks.agree n t mode).mp hmode
      exact ⟨(e, mode), he, hnode⟩
  refine ⟨⟨_, hbalance, hholds⟩, fun k hp => ?_⟩
  have hnone : heldNodes (known es t) = [] := by
    have hheld : (known es t).held = [] := (wp_call hwp hp).1.1
    rw [heldNodes, hheld]
    rfl
  rw [hnone] at hbalance hholds
  refine ⟨hbalance, ?_, ?_⟩
  · intro n mode hmode
    exact absurd ((hholds n).mpr ⟨mode, hmode⟩) List.not_mem_nil
  · intro n
    have hcount := balance_count hbalance n
    rw [List.count_nil, Nat.add_zero] at hcount
    exact hcount

/-- A thread has returned from its handler. -/
def returned (cfg : ServerLocks.Server) (t : Tid) : Bool :=
  match cfg.prog t with
  | .call .freeRequest _ => true
  | _ => false

theorem returned_prog {t : Tid} (h : returned cfg t = true) :
    ∃ k, cfg.prog t = .call .freeRequest k := by
  unfold returned at h
  split at h
  · next k hp => exact ⟨k, hp⟩
  · cases h

/-- A client renames `b` to `a` and another one copies `a` to itself. -/
theorem locks_balanced_renaming :
    ∃ es cfg, History Exec (start here fun _ => []) es cfg ∧
      cfg.shared.head = [⟨ascii "./b", 1⟩, ⟨ascii "./a", 0⟩] ∧
      balance (lockEvents 0 es) = some [] ∧ balance (lockEvents 1 es) = some [] := by
  have hrun : (run [(0, request ["RENAMEFILE", "b", "a"], 34), (1, request ["COPYFILE", "a", "a"], 25)]
      ([], start here fun _ => [])).any (fun x => decide
        (x.2.shared.head = [⟨ascii "./b", 1⟩, ⟨ascii "./a", 0⟩] ∧ returned x.2 0 = true ∧
          returned x.2 1 = true)) = true := by
    decide +kernel
  obtain ⟨es, cfg, hes, hcfg⟩ := exists_run hrun
  obtain ⟨hhead, hret, hret'⟩ := of_decide_eq_true hcfg
  obtain ⟨k, hk⟩ := returned_prog hret
  obtain ⟨k', hk'⟩ := returned_prog hret'
  exact ⟨es, cfg, hes, hhead, ((locks_balanced hes 0).2 k hk).1, ((locks_balanced hes 1).2 k' hk').1⟩

end ServerBalance
