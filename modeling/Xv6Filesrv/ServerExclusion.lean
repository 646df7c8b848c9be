import Xv6Filesrv.ServerLockRuns

/-!
# Files under several names

The locks of the server are those of strings, and the file system finds a file by the components of
its path.  An open file is at a place: there it was found by `open`, and it moves along when the
file or a directory above it is renamed.  Two threads have one file open if they have files open
that are at the same place.
-/

namespace ServerLocks

open ServerResp ServerPaths ServerOps ServerDiscipline Programs.Config
open Function (update update_of_ne update_self)

variable {env : Env} {client : Tid → Bytes} {cfg : Server} {es : List (Event Call Answer Tid)}
  {w w' : World} {ls : Tid → Local} {t u : Tid} {mode : Mode} {path : Bytes}

/-! ## Where open files are -/

structure OpenFile where
  fd : Nat
  /-- where the file is, unless it was deleted -/
  place : Option (List Bytes)
  mode : Mode
  deriving DecidableEq

/-- Where a file is after `rename`: what is at `src` or below it moves, and what was at `dst` is no
longer there. -/
def relocate (src dst place : List Bytes) : Option (List Bytes) :=
  if src <+: place then some (dst ++ place.drop src.length)
  else if dst <+: place then none
  else some place

def OpenFile.follow (f : List Bytes → Option (List Bytes)) (o : OpenFile) : OpenFile :=
  { o with place := o.place.bind f }

/-- What a call of the thread `t` makes of the files that are open. -/
def track (t : Tid) (files : Tid → List OpenFile) : (c : Call) → Answer c → Tid → List OpenFile
  | .open path mode, some fd =>
    update files t (⟨fd, some (resolve path), mode⟩ :: files t)
  | .close fd, _ => update files t ((files t).filter fun o => o.fd ≠ fd)
  | .unlink path, true => fun u =>
    (files u).map (.follow fun place => if place = resolve path then none else some place)
  | .rename src dst, true => fun u => (files u).map (.follow (relocate (resolve src) (resolve dst)))
  | _, _ => files

/-- A directory above a file or another directory. -/
def Above (p q : Bytes) : Prop := resolve p <+: resolve q ∧ resolve p ≠ resolve q

instance (p q : Bytes) : Decidable (Above p q) := inferInstanceAs (Decidable (_ ∧ _))

/-- Two requests spell the files that they share in the same way, and neither of them moves a
directory above a path of the other. -/
structure Compatible (r r' : RespArray) : Prop where
  alike : ∀ p ∈ requestPaths r, ∀ q ∈ requestPaths r', resolve p = resolve q → p = q
  still : ∀ src ∈ requestSources r, ∀ p ∈ requestPaths r', ¬ Above src p
  still' : ∀ src ∈ requestSources r', ∀ p ∈ requestPaths r, ¬ Above src p

instance (r r' : RespArray) : Decidable (Compatible r r') :=
  decidable_of_iff
    ((∀ p ∈ requestPaths r, ∀ q ∈ requestPaths r', resolve p = resolve q → p = q) ∧
      (∀ src ∈ requestSources r, ∀ p ∈ requestPaths r', ¬ Above src p) ∧
      ∀ src ∈ requestSources r', ∀ p ∈ requestPaths r, ¬ Above src p)
    ⟨fun h => ⟨h.1, h.2.1, h.2.2⟩, fun h => ⟨h.alike, h.still, h.still'⟩⟩

theorem Compatible.symm {r r' : RespArray} (h : Compatible r r') : Compatible r' r :=
  ⟨fun p hp q hq hpq => (h.alike q hq p hp hpq.symm).symm, h.still', h.still⟩

/-- The request that a call is answered with. -/
def received : (c : Call) → Answer c → Option RespArray
  | .recvRequest, r => r
  | _, _ => none

/-- A request is taken up only if it is compatible with all those that other threads work on. -/
def Careful (t : Tid) (w : World) (c : Call) (r : Answer c) : Prop :=
  ∀ req, received c r = some req → ∀ u, u ≠ t → ∀ req', w.request u = some req' →
    Compatible req req'

/-- A thread works on the request that it has received last. -/
theorem next_request {l : Local} (c : Call) (r : Answer c) {req : RespArray}
    (h : (l.next c r).request = some req) : l.request = some req ∨ received c r = some req := by
  cases c with
  | recvRequest => exact .inr h
  | freeRequest => cases h
  | calloc | rwlock _ _ | «open» _ _ => cases r <;> exact .inl h
  | _ => exact .inl h

/-- The requests that are worked on at the same time. -/
def AllCompatible (ls : Tid → Local) : Prop :=
  ∀ t u r r', t ≠ u → (ls t).request = some r → (ls u).request = some r' → Compatible r r'

theorem AllCompatible.next (h : AllCompatible ls) (c : Call) (r : Answer c)
    (hnew : ∀ req, received c r = some req → ∀ u, u ≠ t → ∀ req', (ls u).request = some req' →
      Compatible req req') : AllCompatible (update ls t ((ls t).next c r)) := by
  -- the requests of `t` and of another thread
  have hpair : ∀ u ra rb, u ≠ t → ((ls t).next c r).request = some ra →
      (ls u).request = some rb → Compatible ra rb := by
    intro u ra rb hu ha hb
    rcases next_request c r ha with hold | hrecv
    · exact h t u ra rb hu.symm hold hb
    · exact hnew ra hrecv u hu rb hb
  intro a b ra rb hab ha hb
  by_cases hat : a = t
  · subst hat
    rw [update_self] at ha
    rw [update_of_ne hab.symm] at hb
    exact hpair b ra rb hab.symm ha hb
  · rw [update_of_ne hat] at ha
    by_cases hbt : b = t
    · subst hbt
      rw [update_self] at hb
      exact (hpair a rb ra hab hb ha).symm
    · rw [update_of_ne hbt] at hb
      exact h a b ra rb hab ha hb

theorem Fits.holds_path (h : Fits env w ls) {x : Entry × Mode} (hx : x ∈ (ls t).held) :
    HoldsPath w t x.1.path x.2 :=
  ⟨x.1, h.locks.entry t x hx, rfl, (h.locks.agree _ t x.2).mpr ⟨x.1, rfl, hx⟩⟩

/-- A held path is one that the request of its thread names. -/
theorem Fits.held_named (h : Fits env w ls) (hheld : HoldsPath w t path mode) :
    ∃ r, (ls t).request = some r ∧
      ∃ p ∈ requestPaths r, pathBuild env.dataDir p pathMax = some path := by
  obtain ⟨e, he, rfl, hmode⟩ := hheld
  obtain ⟨e', hnode, he'⟩ := (h.locks.agree _ t mode).mp hmode
  have hsame : e' = e := List.inj_on_of_nodup_map h.registry.nodes (h.locks.entry t _ he') he hnode
  have hname := h.locks.names t _ he'
  rw [h.request, hsame] at hname
  exact hname

/-- Two threads hold the lock of one path only for reading. -/
theorem Fits.path_alone (h : Fits env w ls) (ht : HoldsPath w t path .write)
    (hu : HoldsPath w u path mode) : u = t := by
  obtain ⟨e, he, hpath, hmode⟩ := ht
  obtain ⟨e', he', hpath', hmode'⟩ := hu
  have hsame : e' = e := List.inj_on_of_nodup_map h.registry.paths he' he (hpath'.trans hpath.symm)
  rw [hsame] at hmode'
  exact h.locks.alone _ t u mode hmode hmode'

theorem resolve_build {p q full full' : Bytes} (hp : pathBuild env.dataDir p pathMax = some full)
    (hq : pathBuild env.dataDir q pathMax = some full') :
    (resolve full <+: resolve full' ↔ resolve p <+: resolve q) ∧
      (resolve full = resolve full' ↔ resolve p = resolve q) := by
  rw [pathBuild_eq hp, pathBuild_eq hq, resolve_append, resolve_append]
  exact ⟨List.prefix_append_right_inj _, List.append_right_inj _⟩

/-- While a thread holds the lock of a path for writing, no other thread holds the lock of a path
that leads to the same place. -/
theorem Fits.place_alone (h : Fits env w ls) (hall : AllCompatible ls) (htu : t ≠ u)
    {full full' : Bytes} (hplace : resolve full = resolve full') (ht : HoldsPath w t full .write) :
    ¬ HoldsPath w u full' mode := by
  intro hu
  obtain ⟨r, hr, p, hp, hb⟩ := h.held_named ht
  obtain ⟨r', hr', q, hq, hb'⟩ := h.held_named hu
  have hpq : p = q :=
    (hall t u r r' htu hr hr').alike p hp q hq ((resolve_build hb hb').2.mp hplace)
  subst hpq
  rw [Option.some.inj (hb.symm.trans hb')] at ht
  exact htu (h.path_alone ht hu).symm

/-! ## Open files stay where they are -/

/-- Open files are where they were opened, or were deleted. -/
def Placed (ls : Tid → Local) (files : Tid → List OpenFile) : Prop :=
  ∀ t, ∀ o ∈ files t, ∀ place, o.place = some place →
    ∃ path, (o.fd, path, o.mode) ∈ (ls t).opened ∧ resolve path = place

/-- Who has a file open has its lock, for writing if the file was truncated. -/
theorem Fits.open_locked (h : Fits env w ls) {fd : Nat} (ho : (fd, path, mode) ∈ (ls t).opened) :
    ∃ held, HoldsPath w t path held ∧ (mode = .write → held = .write) := by
  have ho' : (fd, path, mode) ∈ w.opened t := by
    rw [h.opened]
    exact ho
  obtain ⟨x, hx, hpath, hmode⟩ := h.files t _ ho'
  obtain rfl : x.1.path = path := hpath
  exact ⟨x.2, h.holds_path hx, hmode⟩

/-- What one thread renames is not a file that another one has open, and no directory above it. -/
theorem Fits.not_renamed (h : Fits env w ls) (hall : AllCompatible ls) {src dst : Bytes}
    (hc : (ls t).Allowed env (.rename src dst)) (htu : t ≠ u) {fd : Nat}
    (ho : (fd, path, mode) ∈ (ls u).opened) : ¬ resolve src <+: resolve path := by
  obtain ⟨-, ⟨x, hx, rfl, hwrite⟩, -, r, hr, p, hp, hb⟩ := hc
  obtain ⟨held, hheld, -⟩ := h.open_locked ho
  obtain ⟨r', hr', q, hq, hb'⟩ := h.held_named hheld
  have hsrc : HoldsPath w t x.1.path .write := hwrite rfl ▸ h.holds_path hx
  intro hpre
  by_cases hsame : resolve x.1.path = resolve path
  · exact h.place_alone hall htu hsame hsrc hheld
  · have hbuild := resolve_build hb hb'
    exact (hall t u r r' htu hr hr').still p hp q hq
      ⟨hbuild.1.mp hpre, fun heq => hsame (hbuild.2.mpr heq)⟩

section Placed

variable {files : Tid → List OpenFile} {l : Local} (h : Placed ls files)
include h

/-- The thread opens and closes nothing. -/
theorem Placed.keep (hopened : l.opened = (ls t).opened) : Placed (update ls t l) files := by
  intro u o ho place hplace
  obtain ⟨path, hpath, hk⟩ := h u o ho place hplace
  refine ⟨path, ?_, hk⟩
  by_cases hu : u = t
  · subst hu
    rw [update_self, hopened]
    exact hpath
  · rw [update_of_ne hu]
    exact hpath

/-- The thread's own files change, and those of the others do not. -/
theorem Placed.own {mine : List OpenFile} (hmine : ∀ o ∈ mine, ∀ place, o.place = some place →
      ∃ path, (o.fd, path, o.mode) ∈ l.opened ∧ resolve path = place) :
    Placed (update ls t l) (update files t mine) := by
  intro u o ho place hplace
  by_cases hu : u = t
  · subst hu
    rw [update_self] at ho ⊢
    exact hmine o ho place hplace
  · rw [update_of_ne hu] at ho ⊢
    exact h u o ho place hplace

/-- Files may be deleted, but none is moved. -/
theorem Placed.follow {f : List Bytes → Option (List Bytes)} (hf : ∀ u, ∀ o ∈ files u,
      ∀ place place', o.place = some place → f place = some place' → place' = place) :
    Placed ls fun u => (files u).map (.follow f) := by
  intro u o' ho' place' hplace'
  obtain ⟨o, ho, rfl⟩ := List.mem_map.mp ho'
  obtain ⟨place, hat, hstay⟩ := Option.bind_eq_some_iff.mp hplace'
  rw [hf u o ho place place' hat hstay]
  exact h u o ho place hat

theorem Placed.next (hfits : Fits env w ls) (hall : AllCompatible ls) (c : Call) (r : Answer c)
    (hc : (ls t).Allowed env c) :
    Placed (update ls t ((ls t).next c r)) (track t files c r) := by
  cases c with
  | «open» path mode =>
    cases r with
    | none => exact h.keep rfl
    | some fd =>
      apply h.own
      intro o ho place hplace
      rcases List.mem_cons.mp ho with rfl | ho
      · exact ⟨path, List.mem_cons_self, Option.some.inj hplace⟩
      · obtain ⟨path', hpath', hk⟩ := h t o ho place hplace
        exact ⟨path', List.mem_cons_of_mem _ hpath', hk⟩
  | close fd =>
    apply h.own
    intro o ho place hplace
    obtain ⟨ho, hfd⟩ := List.mem_filter.mp ho
    obtain ⟨path, hpath, hk⟩ := h t o ho place hplace
    exact ⟨path, List.mem_filter.mpr ⟨hpath, hfd⟩, hk⟩
  | unlink path =>
    cases r with
    | false => exact h.keep rfl
    | true =>
      refine (h.keep rfl).follow fun u o ho place place' hat hstay => ?_
      exact (Option.some.inj (Option.ite_none_left_eq_some.mp hstay).2).symm
  | rename src dst =>
    cases r with
    | false => exact h.keep rfl
    | true =>
      refine (h.keep rfl).follow fun u o ho place place' hat hstay => ?_
      obtain ⟨path, hpath, rfl⟩ := h u o ho place hat
      have hut : t ≠ u := by
        rintro rfl
        rw [hc.1] at hpath
        cases hpath
      rw [relocate, if_neg (hfits.not_renamed hall hc hut hpath)] at hstay
      exact (Option.some.inj (Option.ite_none_left_eq_some.mp hstay).2).symm
  | calloc | rwlock _ _ => cases r <;> exact h.keep rfl
  | _ => exact h.keep rfl

end Placed

end ServerLocks
