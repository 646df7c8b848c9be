import Mathlib.Data.List.Perm.Basic
import Xv6Filesrv.KernelBio

/-!
# What holds of the buffer cache

The list goes through every buffer once, a reference count is the number of open calls and pins, no
block has two buffers, and a buffer that a call uses stays the buffer of its block.
-/

namespace KernelBio

open LinkedRing (Links Ring)
open Function (update_of_ne update_self)

variable {ι : Type} {s s' : State ι} {i j : Id} {key : Key} {xs : List Id}

/-! ## The list -/

/-- The list goes through the buffers `xs`, which are all of them. -/
structure Listed (l : Links Node) (xs : List Id) : Prop where
  ring : Ring l none (xs.map some)
  all : xs.Perm (List.finRange nbuf)

theorem Listed.mem (h : Listed s.links xs) (i : Id) : i ∈ xs :=
  h.all.mem_iff.mpr (List.mem_finRange i)

theorem Listed.length (h : Listed s.links xs) : xs.length = nbuf := by
  rw [h.all.length_eq, List.length_finRange]

theorem filterMap_some (xs : List Id) : (xs.map some).filterMap id = xs := by
  simp [List.filterMap_map]

theorem Listed.forth (h : Listed s.links xs) : forth s = xs := by
  have hlen := h.length
  rw [KernelBio.forth, h.ring.walk_next (by rw [List.length_map]; omega), filterMap_some]

theorem Listed.back (h : Listed s.links xs) : back s = xs.reverse := by
  have hlen := h.length
  rw [KernelBio.back, h.ring.walk_prev (by rw [List.length_map]; omega), ← List.map_reverse,
    filterMap_some]

theorem cached_some (h : cached s key = some i) : (s.buf i).key = key := by
  simpa using List.find?_some h

theorem cached_none (hl : Listed s.links xs) (h : cached s key = none) (i : Id) :
    (s.buf i).key ≠ key := by
  have hall := List.find?_eq_none.mp h i (by rw [hl.forth]; exact hl.mem i)
  simpa using hall

theorem victim_some (h : victim s = some i) : (s.buf i).refcnt = 0 := by
  simpa using List.find?_some h

theorem victim_none (hl : Listed s.links xs) (h : victim s = none) (i : Id) :
    (s.buf i).refcnt ≠ 0 := by
  have hall := List.find?_eq_none.mp h i (by rw [hl.back, List.mem_reverse]; exact hl.mem i)
  simpa using hall

theorem bget_recycle {p : ι} (h : cached s key = none) (hv : victim s = some i) :
    bget s p key = .ok { s.recycle i key with uses := ⟨p, key, i, .waiting⟩ :: s.uses } := by
  simp only [bget, h, hv]

/-- The outcomes of `bget`. -/
theorem bget_ok {p : ι} (h : bget s p key = .ok s') :
    (∃ i, cached s key = some i ∧
      s' = { s.setBuf i { s.buf i with refcnt := (s.buf i).refcnt + 1 } with
        uses := ⟨p, key, i, .waiting⟩ :: s.uses }) ∨
    (cached s key = none ∧ ∃ i, victim s = some i ∧
      s' = { s.recycle i key with uses := ⟨p, key, i, .waiting⟩ :: s.uses }) := by
  unfold bget at h
  split at h
  · next i hi =>
    cases h
    exact .inl ⟨i, hi, rfl⟩
  · next hnone =>
    split at h
    · next i hi =>
      cases h
      exact .inr ⟨hnone, i, hi, rfl⟩
    · cases h

section Holder

variable [DecidableEq ι] {u : Use ι} {rest : List (Use ι)}

theorem bwrite_ok (h : bwrite s u = .ok s') :
    s' = s.setDisk (s.buf u.id).key (s.buf u.id).data := by
  unfold bwrite at h
  split at h
  · exact (Except.ok.inj h).symm
  · cases h

theorem releasesleep_ok (h : releasesleep s u rest = .ok s') :
    s' = (s.setBuf u.id { s.buf u.id with lock := none }).advance u rest .released := by
  unfold releasesleep at h
  split at h
  · exact (Except.ok.inj h).symm
  · cases h

end Holder

/-! ## Counting calls -/

def refsOf (uses : List (Use ι)) (i : Id) : Nat := uses.countP fun u => decide (u.id = i)

def holdersOf (uses : List (Use ι)) (i : Id) : Nat :=
  uses.countP fun u => decide (u.id = i ∧ u.stage = .locked)

variable {u v : Use ι} {uses rest : List (Use ι)}

theorem refsOf_cons : refsOf (u :: uses) i = refsOf uses i + if u.id = i then 1 else 0 := by
  simp [refsOf, List.countP_cons]

theorem holdersOf_cons : holdersOf (u :: uses) i =
    holdersOf uses i + if u.id = i ∧ u.stage = .locked then 1 else 0 := by
  simp [holdersOf, List.countP_cons]

theorem refsOf_perm (h : uses.Perm rest) : refsOf uses i = refsOf rest i := h.countP_eq _

theorem holdersOf_perm (h : uses.Perm rest) : holdersOf uses i = holdersOf rest i := h.countP_eq _

theorem refsOf_pos (hu : u ∈ uses) : 0 < refsOf uses u.id :=
  List.countP_pos_iff.mpr ⟨u, hu, by simp⟩

theorem holdersOf_pos (hu : u ∈ uses) (hst : u.stage = .locked) : 0 < holdersOf uses u.id :=
  List.countP_pos_iff.mpr ⟨u, hu, by simp [hst]⟩

/-! ## The invariant -/

structure Inv (s : State ι) : Prop where
  refs : ∀ i, (s.buf i).refcnt = refsOf s.uses i + s.pins i
  keys : ∀ i j, (s.buf i).key.1 ≠ 0 → (s.buf i).key = (s.buf j).key → i = j
  own : ∀ u ∈ s.uses, (s.buf u.id).key = u.key ∧ u.key.1 ≠ 0
  locks : ∀ u ∈ s.uses, u.stage = .locked → (s.buf u.id).lock = some u.proc
  single : ∀ i, holdersOf s.uses i = if (s.buf i).lock.isSome then 1 else 0

theorem setBuf_self (s : State ι) (i : Id) (b : Buf ι) : (s.setBuf i b).buf i = b :=
  update_self ..

theorem setBuf_of_ne (s : State ι) {i j : Id} (b : Buf ι) (h : j ≠ i) :
    (s.setBuf i b).buf j = s.buf j := update_of_ne h ..

/-- A buffer changes, but not in what `f` looks at. -/
theorem setBuf_field {β : Type} (f : Buf ι → β) {b : Buf ι} (hb : f b = f (s.buf i)) (j : Id) :
    f ((s.setBuf i b).buf j) = f (s.buf j) := by
  by_cases hj : j = i
  · rw [hj, setBuf_self, hb]
  · rw [setBuf_of_ne s b hj]

theorem recycle_self (s : State ι) (i : Id) (key : Key) : (s.recycle i key).buf i =
    { s.buf i with key := key, valid := false, refcnt := 1 } := update_self ..

theorem recycle_of_ne (s : State ι) {i j : Id} (key : Key) (h : j ≠ i) :
    (s.recycle i key).buf j = s.buf j := update_of_ne h ..

section Steps

variable (h : Inv s)
include h

/-- A buffer that nobody uses. -/
theorem Inv.unused (hr : (s.buf i).refcnt = 0) : (∀ u ∈ s.uses, u.id ≠ i) ∧
    s.pins i = 0 ∧ (s.buf i).lock = none := by
  have hrefs := h.refs i
  have hnone : ∀ u ∈ s.uses, u.id ≠ i := by
    rintro u hu rfl
    have := refsOf_pos hu
    omega
  refine ⟨hnone, by omega, ?_⟩
  have hsingle := h.single i
  have hzero : holdersOf s.uses i = 0 := by
    rw [holdersOf, List.countP_eq_zero]
    intro u hu
    simp [hnone u hu]
  cases hl : (s.buf i).lock with
  | none => rfl
  | some p => simp [hzero, hl] at hsingle

/-- A buffer changes, but for its key and its lock, and calls come or go. -/
theorem Inv.recount {b : Buf ι} (uses : List (Use ι)) (pins : Id → Nat)
    (hkey : b.key = (s.buf i).key) (hlock : b.lock = (s.buf i).lock)
    (hrefs : b.refcnt = refsOf uses i + pins i)
    (hothers : ∀ j, j ≠ i → refsOf uses j = refsOf s.uses j ∧ pins j = s.pins j)
    (hold : ∀ u ∈ uses, u ∈ s.uses ∨ (s.buf u.id).key = u.key ∧ u.key.1 ≠ 0 ∧ u.stage ≠ .locked)
    (hholders : ∀ j, holdersOf uses j = holdersOf s.uses j) :
    Inv { s.setBuf i b with uses := uses, pins := pins } := by
  have hkeys := setBuf_field (s := s) Buf.key hkey
  have hlocks := setBuf_field (s := s) Buf.lock hlock
  refine ⟨fun j => ?_, fun j k hj hjk => ?_, fun u hu => ?_, fun u hu hst => ?_, fun j => ?_⟩
  · show ((s.setBuf i b).buf j).refcnt = refsOf uses j + pins j
    by_cases hj : j = i
    · rw [hj, setBuf_self]
      exact hrefs
    · rw [setBuf_of_ne s b hj, (hothers j hj).1, (hothers j hj).2]
      exact h.refs j
  · have hk : (s.buf j).key = (s.buf k).key := (hkeys j).symm.trans (hjk.trans (hkeys k))
    exact h.keys j k (hkeys j ▸ hj) hk
  · show ((s.setBuf i b).buf u.id).key = u.key ∧ _
    rw [hkeys u.id]
    rcases hold u hu with hu | ⟨hk, hdev, _⟩
    · exact h.own u hu
    · exact ⟨hk, hdev⟩
  · show ((s.setBuf i b).buf u.id).lock = _
    rw [hlocks u.id]
    rcases hold u hu with hu | ⟨_, _, hnot⟩
    · exact h.locks u hu hst
    · exact absurd hst hnot
  · show holdersOf uses j = if ((s.setBuf i b).buf j).lock.isSome then 1 else 0
    rw [hlocks j, hholders j]
    exact h.single j

/-- A process gets a reference to the buffer of its block. -/
theorem Inv.hit {p : ι} (hi : (s.buf i).key = key) (hdev : key.1 ≠ 0) :
    Inv { s.setBuf i { s.buf i with refcnt := (s.buf i).refcnt + 1 } with
      uses := ⟨p, key, i, .waiting⟩ :: s.uses } := by
  refine h.recount _ s.pins rfl rfl ?_ (fun j hj => ⟨?_, rfl⟩) (fun u hu => ?_) fun j => ?_
  · show (s.buf i).refcnt + 1 = _
    rw [h.refs i, refsOf_cons, if_pos rfl]
    omega
  · rw [refsOf_cons, if_neg (Ne.symm hj), Nat.add_zero]
  · rcases List.mem_cons.mp hu with rfl | hu
    · exact .inr ⟨hi, hdev, by simp⟩
    · exact .inl hu
  · rw [holdersOf_cons, if_neg (by simp), Nat.add_zero]

/-- A buffer that nobody uses becomes the buffer of a block that has none. -/
theorem Inv.recycle {p : ι} (hi : (s.buf i).refcnt = 0) (hnone : ∀ j, (s.buf j).key ≠ key)
    (hdev : key.1 ≠ 0) : Inv { s.recycle i key with uses := ⟨p, key, i, .waiting⟩ :: s.uses } := by
  obtain ⟨hunused, hpins, hlock⟩ := h.unused hi
  have hzero : refsOf s.uses i = 0 := by
    have := h.refs i
    omega
  refine ⟨fun j => ?_, fun j k hj hjk => ?_, fun u hu => ?_, fun u hu hst => ?_, fun j => ?_⟩
  · show ((s.recycle i key).buf j).refcnt = refsOf (_ :: s.uses) j + s.pins j
    rw [refsOf_cons]
    by_cases hj : j = i
    · rw [hj, recycle_self, hzero, hpins]
      simp
    · rw [recycle_of_ne s key hj, if_neg (Ne.symm hj), Nat.add_zero]
      exact h.refs j
  · have hjk' : ((s.recycle i key).buf j).key = ((s.recycle i key).buf k).key := hjk
    have hj' : ((s.recycle i key).buf j).key.1 ≠ 0 := hj
    by_cases hji : j = i <;> by_cases hki : k = i
    · rw [hji, hki]
    · rw [hji, recycle_self, recycle_of_ne s key hki] at hjk'
      exact absurd hjk'.symm (hnone k)
    · rw [hki, recycle_self, recycle_of_ne s key hji] at hjk'
      exact absurd hjk' (hnone j)
    · rw [recycle_of_ne s key hji, recycle_of_ne s key hki] at hjk'
      rw [recycle_of_ne s key hji] at hj'
      exact h.keys j k hj' hjk'
  · show ((s.recycle i key).buf u.id).key = u.key ∧ _
    rcases List.mem_cons.mp hu with rfl | hu
    · rw [recycle_self]
      exact ⟨rfl, hdev⟩
    · rw [recycle_of_ne s key (hunused u hu)]
      exact h.own u hu
  · show ((s.recycle i key).buf u.id).lock = _
    rcases List.mem_cons.mp hu with rfl | hu
    · cases hst
    · rw [recycle_of_ne s key (hunused u hu)]
      exact h.locks u hu hst
  · show holdersOf (_ :: s.uses) j = if ((s.recycle i key).buf j).lock.isSome then 1 else 0
    rw [holdersOf_cons, if_neg (by simp), Nat.add_zero, h.single j]
    by_cases hj : j = i
    · rw [hj, recycle_self]
    · rw [recycle_of_ne s key hj]

/-- The sleep-lock of a buffer changes hands, and with it the stage of a call. -/
theorem Inv.relock (hu : s.uses.Perm (u :: rest)) {lock : Option ι} {stage : Stage}
    (hlock : stage = .locked → lock = some u.proc)
    (hheld : ∀ v ∈ rest, v.id = u.id → v.stage ≠ .locked)
    (hsingle : lock.isSome = decide (stage = .locked)) :
    Inv ((s.setBuf u.id { s.buf u.id with lock := lock }).advance u rest stage) := by
  have hmem : ∀ v, v ∈ s.uses ↔ v ∈ u :: rest := fun v => hu.mem_iff
  have hkeys := setBuf_field (s := s) (i := u.id) (b := { s.buf u.id with lock := lock }) Buf.key rfl
  have hcounts := setBuf_field (s := s) (i := u.id) (b := { s.buf u.id with lock := lock })
    Buf.refcnt rfl
  have hnone : holdersOf rest u.id = 0 := by
    rw [holdersOf, List.countP_eq_zero]
    intro v hv
    simpa using hheld v hv
  refine ⟨fun j => ?_, fun j k hj hjk => ?_, fun v hv => ?_, fun v hv hst => ?_, fun j => ?_⟩
  · show ((s.setBuf u.id _).buf j).refcnt = refsOf ({ u with stage := stage } :: rest) j + s.pins j
    rw [hcounts j, h.refs j, refsOf_perm hu, refsOf_cons, refsOf_cons]
  · have hjk' : (s.buf j).key = (s.buf k).key := (hkeys j).symm.trans (hjk.trans (hkeys k))
    exact h.keys j k (hkeys j ▸ hj) hjk'
  · show ((s.setBuf u.id _).buf v.id).key = v.key ∧ _
    rw [hkeys v.id]
    rcases List.mem_cons.mp hv with rfl | hv
    · exact h.own u ((hmem u).mpr List.mem_cons_self)
    · exact h.own v ((hmem v).mpr (List.mem_cons_of_mem u hv))
  · show ((s.setBuf u.id _).buf v.id).lock = some v.proc
    rcases List.mem_cons.mp hv with rfl | hv
    · rw [setBuf_self]
      exact hlock hst
    · have hvu : v.id ≠ u.id := fun he => hheld v hv he hst
      rw [setBuf_of_ne s _ hvu]
      exact h.locks v ((hmem v).mpr (List.mem_cons_of_mem u hv)) hst
  · show holdersOf ({ u with stage := stage } :: rest) j =
      if ((s.setBuf u.id _).buf j).lock.isSome then 1 else 0
    rw [holdersOf_cons]
    by_cases hj : j = u.id
    · rw [hj, setBuf_self, hnone]
      simp [hsingle]
    · rw [setBuf_of_ne s _ hj, ← h.single j, holdersOf_perm hu, holdersOf_cons]
      simp [Ne.symm hj]

theorem Inv.acquiresleep (hu : s.uses.Perm (u :: rest)) (hfree : (s.buf u.id).lock = none) :
    Inv (acquiresleep s u rest) := by
  refine h.relock hu (fun _ => rfl) (fun v hv hid hst => ?_) rfl
  -- nobody holds a lock that is free
  have hv' := h.locks v (hu.mem_iff.mpr (List.mem_cons_of_mem u hv)) hst
  rw [hid, hfree] at hv'
  cases hv'

/-- Only one call holds the lock of a buffer. -/
theorem Inv.alone (hu : s.uses.Perm (u :: rest)) (hst : u.stage = .locked) :
    ∀ v ∈ rest, v.id = u.id → v.stage ≠ .locked := by
  intro v hv hid hv'
  have hsingle := h.single u.id
  have hlock := h.locks u (hu.mem_iff.mpr List.mem_cons_self) hst
  have hpos := holdersOf_pos hv hv'
  rw [hlock, holdersOf_perm hu, holdersOf_cons, if_pos ⟨rfl, hst⟩] at hsingle
  simp only [Option.isSome_some, if_true] at hsingle
  rw [hid] at hpos
  omega

theorem Inv.releasesleep (hu : s.uses.Perm (u :: rest)) (hst : u.stage = .locked) :
    Inv ((s.setBuf u.id { s.buf u.id with lock := none }).advance u rest .released) :=
  h.relock hu (by simp) (h.alone hu hst) rfl

/-- The contents of a buffer change. -/
theorem Inv.content {b : Buf ι} (hkey : b.key = (s.buf i).key) (hlock : b.lock = (s.buf i).lock)
    (hrefs : b.refcnt = (s.buf i).refcnt) : Inv (s.setBuf i b) :=
  h.recount s.uses s.pins hkey hlock (hrefs.trans (h.refs i)) (fun _ _ => ⟨rfl, rfl⟩)
    (fun _ hu => .inl hu) fun _ => rfl

/-- A call is over. -/
theorem Inv.drop (hu : s.uses.Perm (u :: rest)) (hst : u.stage = .released) :
    Inv { s.setBuf u.id { s.buf u.id with refcnt := (s.buf u.id).refcnt - 1 } with
      uses := rest } := by
  refine h.recount rest s.pins rfl rfl ?_ (fun j hj => ⟨?_, rfl⟩) (fun v hv => .inl ?_) fun j => ?_
  · show (s.buf u.id).refcnt - 1 = _
    rw [h.refs, refsOf_perm hu, refsOf_cons, if_pos rfl]
    omega
  · rw [refsOf_perm hu, refsOf_cons, if_neg (Ne.symm hj), Nat.add_zero]
  · exact hu.mem_iff.mpr (List.mem_cons_of_mem u hv)
  · rw [holdersOf_perm hu, holdersOf_cons, if_neg (by simp [hst]), Nat.add_zero]

theorem Inv.bpin (i : Id) : Inv (bpin s i) := by
  refine h.recount s.uses _ rfl rfl ?_ (fun j hj => ⟨rfl, update_of_ne hj ..⟩)
    (fun _ hu => .inl hu) fun _ => rfl
  show (s.buf i).refcnt + 1 = _
  rw [h.refs, update_self]
  omega

theorem Inv.bunpin (hp : 0 < s.pins i) : Inv (bunpin s i) := by
  refine h.recount s.uses _ rfl rfl ?_ (fun j hj => ⟨rfl, update_of_ne hj ..⟩)
    (fun _ hu => .inl hu) fun _ => rfl
  show (s.buf i).refcnt - 1 = _
  rw [h.refs, update_self]
  omega

/-- The links are nothing that the counts depend on. -/
theorem Inv.relink (l : Links Node) : Inv { s with links := l } :=
  ⟨h.refs, h.keys, h.own, h.locks, h.single⟩

theorem Inv.brelse (hu : s.uses.Perm (u :: rest)) (hst : u.stage = .released) :
    Inv (brelse s u rest).1 := by
  have hdrop := h.drop hu hst
  simp only [KernelBio.brelse]
  split
  · exact hdrop.relink _
  · exact hdrop

end Steps

end KernelBio
