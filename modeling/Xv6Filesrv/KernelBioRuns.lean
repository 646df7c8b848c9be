import Xv6Filesrv.KernelBioInv

/-!
# Runs of the buffer cache

In every run a block has one buffer and one holder at a time, and `bget` recycles the buffer that
has been unused for the longest time; it finds none only if all of them are in use.
-/

namespace KernelBio

open KernelLog (Block)
open LinkedRing (Links Ring)
open Function (update update_of_ne update_self)

/-! ## The order of the list -/

theorem linkAll_ring (bs ys : List Id) (l : Links Node) (hr : Ring l none (ys.map some))
    (hnodup : (bs.reverse ++ ys).Nodup) :
    Ring (linkAll l bs) none ((bs.reverse ++ ys).map some) := by
  induction bs generalizing l ys with
  | nil => exact hr
  | cons b bs ih =>
    rw [List.reverse_cons, List.append_assoc] at hnodup ⊢
    have hb : some b ∉ none :: ys.map some := by
      have := (List.nodup_cons.mp (List.nodup_append.mp hnodup).2.1).1
      simpa using this
    exact ih (b :: ys) _ (hr.insertFront hb) hnodup

theorem listed_binit (l : Links Node) : Listed (binit l) (List.finRange nbuf).reverse := by
  have hempty : Ring ⟨update l.next none none, update l.prev none none⟩
      (none : Node) (([] : List Id).map some) :=
    ⟨by simp, by simp [LinkedRing.Path]⟩
  have hring := linkAll_ring (List.finRange nbuf) [] _ hempty
    (by rw [List.append_nil, List.nodup_reverse]; exact List.nodup_finRange nbuf)
  rw [List.append_nil] at hring
  exact ⟨hring, List.reverse_perm _⟩

/-- The list is in the order in which the buffers became unused, the last one first. -/
structure Order (l : Links Node) (stamp : Id → Nat) (now : Nat) (xs : List Id) : Prop where
  listed : Listed l xs
  sorted : xs.Pairwise fun i j => stamp j < stamp i
  past : ∀ i, stamp i < now

variable {l : Links Node} {stamp : Id → Nat} {now : Nat} {xs : List Id}

theorem order_binit (l : Links Node) :
    Order (binit l) (fun i => i.val) nbuf (List.finRange nbuf).reverse := by
  refine ⟨listed_binit l, ?_, fun i => i.isLt⟩
  rw [List.pairwise_reverse]
  exact List.pairwise_lt_finRange nbuf

theorem Order.wait (h : Order l stamp now xs) : Order l stamp (now + 1) xs :=
  ⟨h.listed, h.sorted, fun i => Nat.lt_succ_of_lt (h.past i)⟩

/-- A buffer that becomes unused goes to the front. -/
theorem Order.toFront (h : Order l stamp now xs) (i : Id) :
    ∃ xs', Order (LinkedRing.insertFront (LinkedRing.unlink l (some i)) none (some i))
      (update stamp i now) (now + 1) xs' := by
  have hmem : i ∈ xs := h.listed.all.mem_iff.mpr (List.mem_finRange i)
  obtain ⟨as, bs, rfl⟩ := List.append_of_mem hmem
  have hring : Ring l none (as.map some ++ some i :: bs.map some) := by
    have := h.listed.ring
    rwa [List.map_append, List.map_cons] at this
  have hperm : (i :: (as ++ bs)).Perm (as ++ i :: bs) := List.perm_middle.symm
  have hnodup : (i :: (as ++ bs)).Nodup :=
    (hperm.trans h.listed.all).nodup_iff.mpr (List.nodup_finRange nbuf)
  have hkeep : ∀ j ∈ as ++ bs, update stamp i now j = stamp j := by
    intro j hj
    apply update_of_ne
    rintro rfl
    exact (List.nodup_cons.mp hnodup).1 hj
  refine ⟨i :: (as ++ bs), ⟨?_, hperm.trans h.listed.all⟩, ?_, fun j => ?_⟩
  · have := hring.toFront
    rwa [List.map_cons, List.map_append]
  · refine List.pairwise_cons.mpr ⟨fun j hj => ?_, ?_⟩
    · rw [hkeep j hj, update_self]
      exact h.past j
    · have hsub : (as ++ bs).Sublist (as ++ i :: bs) :=
        (List.Sublist.refl as).append (List.sublist_cons_self i bs)
      refine (h.sorted.sublist hsub).imp_of_mem fun {a b} ha hb hlt => ?_
      rwa [hkeep a ha, hkeep b hb]
  · by_cases hj : j = i
    · rw [hj, update_self]
      omega
    · rw [update_of_ne hj]
      exact Nat.lt_succ_of_lt (h.past j)

variable {ι : Type} {s s' : State ι} {freed : Option Id} {disk : Key → Block} {key : Key} {i : Id}
  {p : ι}

/-- The loop from the back comes to the buffer first that has been unused for the longest time. -/
theorem Order.victim (h : Order s.links stamp now xs) (hv : victim s = some i) :
    ∀ j ≠ i, (s.buf j).refcnt = 0 → stamp i < stamp j := by
  intro j hji hj
  have hback := h.listed.back
  rw [KernelBio.victim, hback] at hv
  obtain ⟨as, bs, hsplit, hskip⟩ := (List.find?_eq_some_iff_append.mp hv).2
  -- the loop comes to `i` before it comes to `j`
  have hasc : (xs.reverse).Pairwise fun a b => stamp a < stamp b :=
    List.pairwise_reverse.mpr h.sorted
  have hmem : j ∈ as ++ i :: bs := by
    rw [← hsplit, List.mem_reverse]
    exact h.listed.mem j
  rcases List.mem_append.mp hmem with hj' | hj'
  · have := hskip j hj'
    simp [hj] at this
  · rw [hsplit] at hasc
    have hlater := (List.pairwise_cons.mp (List.pairwise_append.mp hasc).2.1).1
    exact hlater j (List.mem_of_ne_of_mem hji hj')

/-! ## Steps -/

theorem inv_start (l : Links Node) (disk : Key → Block) : Inv (start l disk : State ι) := by
  refine ⟨fun i => rfl, fun i j hi => absurd rfl hi, fun u hu => ?_, fun u hu => ?_, fun i => rfl⟩
  · exact absurd hu List.not_mem_nil
  · exact absurd hu List.not_mem_nil

variable [DecidableEq ι]

theorem Step.links (h : Step s freed s') :
    (freed = none ∧ s'.links = s.links) ∨ ∃ i, freed = some i ∧
      s'.links = LinkedRing.insertFront (LinkedRing.unlink s.links (some i)) none (some i) := by
  cases h with
  | bget p key hdev h =>
    obtain ⟨i, _, rfl⟩ | ⟨_, i, _, rfl⟩ := bget_ok h
    · exact .inl ⟨rfl, rfl⟩
    · exact .inl ⟨rfl, rfl⟩
  | acquiresleep _ _ _ | fill _ _ _ | modify _ _ _ _ | bpin _ _ | bunpin _ _ _ =>
    exact .inl ⟨rfl, rfl⟩
  | bwrite _ _ _ h =>
    cases bwrite_ok h
    exact .inl ⟨rfl, rfl⟩
  | releasesleep _ _ _ h =>
    cases releasesleep_ok h
    exact .inl ⟨rfl, rfl⟩
  | @brelse u rest _ _ =>
    simp only [KernelBio.brelse]
    split
    · exact .inr ⟨u.id, rfl, rfl⟩
    · exact .inl ⟨rfl, rfl⟩

theorem Inv.step (h : Inv s) (hl : Listed s.links xs) (hs : Step s freed s') : Inv s' := by
  cases hs with
  | bget p key hdev hb =>
    obtain ⟨i, hi, rfl⟩ | ⟨hnone, i, hi, rfl⟩ := bget_ok hb
    · exact h.hit (cached_some hi) hdev
    · exact h.recycle (victim_some hi) (cached_none hl hnone) hdev
  | acquiresleep hu _ hfree => exact h.acquiresleep hu hfree
  | fill _ _ _ => exact h.content rfl rfl rfl
  | modify _ _ _ _ => exact h.content rfl rfl rfl
  | bwrite _ _ _ hb =>
    cases bwrite_ok hb
    exact ⟨h.refs, h.keys, h.own, h.locks, h.single⟩
  | releasesleep hu hst _ hb =>
    cases releasesleep_ok hb
    exact h.releasesleep hu hst
  | brelse hu hst => exact h.brelse hu hst
  | bpin _ _ => exact h.bpin _
  | bunpin _ _ hp => exact h.bunpin hp

theorem Reach.inv (h : Reach l disk s stamp now) : Inv s ∧ ∃ xs, Order s.links stamp now xs := by
  induction h with
  | start => exact ⟨inv_start l disk, _, order_binit l⟩
  | step _ hs ih =>
    obtain ⟨hinv, xs, horder⟩ := ih
    refine ⟨hinv.step horder.listed hs, ?_⟩
    obtain ⟨rfl, hlinks⟩ | ⟨i, rfl, hlinks⟩ := hs.links
    · rw [hlinks]
      exact ⟨xs, horder.wait⟩
    · rw [hlinks]
      exact horder.toFront i

/-! ## Runs that are computed -/

/-- What is done with a buffer by the call that was begun last. -/
inductive Move where
  | acquiresleep
  | fill
  | modify (d : Block)
  | bpin
  | releasesleep
  | brelse

inductive Act (ι : Type) where
  | bget (p : ι) (b : Nat)
  | goOn (m : Move)

def goOn (s : State ι) (u : Use ι) (rest : List (Use ι)) : Move → Option (State ι)
  | .acquiresleep =>
    if u.stage = .waiting ∧ (s.buf u.id).lock = none then some (acquiresleep s u rest) else none
  | .fill =>
    if u.stage = .locked ∧ (s.buf u.id).valid = false then some (fill s u) else none
  | .modify d =>
    if u.stage = .locked ∧ (s.buf u.id).valid = true then some (modify s u d) else none
  | .bpin => if u.stage = .locked then some (bpin s u.id) else none
  | .releasesleep =>
    if u.stage = .locked ∧ (s.buf u.id).valid = true then (releasesleep s u rest).toOption else none
  | .brelse => if u.stage = .released then some (brelse s u rest).1 else none

/-- Blocks are those of device `1`. -/
def act (s : State ι) : Act ι → Option (State ι)
  | .bget p b => (bget s p (1, b)).toOption
  | .goOn m =>
    match s.uses with
    | [] => none
    | u :: rest => goOn s u rest m

def run : List (Act ι) → State ι → Option (State ι)
  | [], s => some s
  | a :: as, s => (act s a).bind (run as)

omit [DecidableEq ι] in
theorem eq_ok_of_toOption {e : Except Panic (State ι)} (h : e.toOption = some s') : e = .ok s' := by
  cases e with
  | error _ => cases h
  | ok s => exact congrArg Except.ok (Option.some.inj h)

theorem goOn_step {u : Use ι} {rest : List (Use ι)} {m : Move} (hu : s.uses = u :: rest)
    (h : goOn s u rest m = some s') : ∃ freed, Step s freed s' := by
  have hperm : s.uses.Perm (u :: rest) := by rw [hu]
  have hmem : u ∈ s.uses := by simp [hu]
  cases m with
  | acquiresleep =>
    obtain ⟨⟨hst, hfree⟩, ⟨⟩⟩ := Option.ite_none_right_eq_some.mp h
    exact ⟨_, .acquiresleep hperm hst hfree⟩
  | fill =>
    obtain ⟨⟨hst, hv⟩, ⟨⟩⟩ := Option.ite_none_right_eq_some.mp h
    exact ⟨_, .fill hmem hst hv⟩
  | modify d =>
    obtain ⟨⟨hst, hv⟩, ⟨⟩⟩ := Option.ite_none_right_eq_some.mp h
    exact ⟨_, .modify hmem hst hv d⟩
  | bpin =>
    obtain ⟨hst, ⟨⟩⟩ := Option.ite_none_right_eq_some.mp h
    exact ⟨_, .bpin hmem hst⟩
  | releasesleep =>
    obtain ⟨⟨hst, hv⟩, hok⟩ := Option.ite_none_right_eq_some.mp h
    exact ⟨_, .releasesleep hperm hst hv (eq_ok_of_toOption hok)⟩
  | brelse =>
    obtain ⟨hst, ⟨⟩⟩ := Option.ite_none_right_eq_some.mp h
    exact ⟨_, .brelse hperm hst⟩

theorem act_step {a : Act ι} (h : act s a = some s') : ∃ freed, Step s freed s' := by
  cases a with
  | bget p b => exact ⟨_, .bget p (1, b) (by decide : 1 ≠ 0) (eq_ok_of_toOption h)⟩
  | goOn m =>
    rw [act] at h
    split at h
    · cases h
    · next hu => exact goOn_step hu h

theorem Reach.run {as : List (Act ι)} (h : Reach l disk s stamp now)
    (hrun : run as s = some s') : ∃ stamp' now', Reach l disk s' stamp' now' := by
  induction as generalizing s stamp now with
  | nil =>
    cases hrun
    exact ⟨stamp, now, h⟩
  | cons a as ih =>
    obtain ⟨mid, hmid, hrest⟩ := Option.bind_eq_some_iff.mp hrun
    obtain ⟨freed, hstep⟩ := act_step hmid
    exact ih (h.step hstep) hrest

/-- What holds at the end of a run that can be computed. -/
theorem exists_run {as : List (Act ι)} {p : State ι → Bool}
    (h : (KernelBio.run as (start l disk)).any p = true) :
    ∃ s stamp now, Reach l disk s stamp now ∧ p s = true := by
  obtain ⟨s, hrun, hp⟩ := (Option.any_eq_true _ _).mp h
  obtain ⟨stamp, now, hreach⟩ := Reach.start.run hrun
  exact ⟨s, stamp, now, hreach, hp⟩

/-- A block that has no buffer is read, what is said is done with it, and it is given back. -/
def visit (b : Nat) (ms : List Move) : List (Act Bool) :=
  .bget true b :: .goOn .acquiresleep :: .goOn .fill :: ms.map .goOn ++
    [.goOn .releasesleep, .goOn .brelse]

/-- Block `0` is changed and pinned.  Then `NBUF` other blocks are read, so that block `1` loses its
buffer, and two processes ask for block `0` again. -/
theorem exists_evicted :
    ∃ (s : State Bool) (stamp : Id → Nat) (now : Nat),
      Reach ⟨id, id⟩ (fun _ _ => 0) s stamp now ∧
      s.uses = [⟨false, (1, 0), 0, .waiting⟩, ⟨true, (1, 0), 0, .locked⟩] ∧
      cached s (1, 1) = none ∧ victim s = some 2 ∧
      (s.buf 0).valid = true ∧ (s.buf 0).data 0 = 7 := by
  have hrun : (run (visit 0 [.modify fun _ => 7, .bpin] ++
      (List.range' 1 nbuf).flatMap (visit · []) ++
      [.bget true 0, .goOn .acquiresleep, .bget false 0]) (start ⟨id, id⟩ fun _ _ => 0)).any
        (fun s => decide (s.uses = [⟨false, (1, 0), 0, .waiting⟩, ⟨true, (1, 0), 0, .locked⟩] ∧
          cached s (1, 1) = none ∧ victim s = some 2 ∧
          (s.buf 0).valid = true ∧ (s.buf 0).data 0 = 7)) = true := by
    decide +kernel
  obtain ⟨s, stamp, now, h, hs⟩ := exists_run hrun
  exact ⟨s, stamp, now, h, of_decide_eq_true hs⟩

/-! ## Blocks and their holders -/

/-- In every run a block has one buffer at most; the buffer of a call stays the buffer of the block
that it asked for; two calls never hold the same block at a time; and a process that holds a buffer
passes the checks of `bwrite` and `brelse`. -/
theorem blocks_have_one_holder (h : Reach l disk s stamp now) :
    (∀ i j, (s.buf i).key.1 ≠ 0 → (s.buf i).key = (s.buf j).key → i = j) ∧
      (∀ u ∈ s.uses, (s.buf u.id).key = u.key) ∧
      (∀ u v rest, s.uses.Perm (u :: v :: rest) → u.stage = .locked → v.stage = .locked →
        u.key ≠ v.key) ∧
      ∀ u ∈ s.uses, u.stage = .locked → holdingsleep s u = true := by
  obtain ⟨hinv, _⟩ := h.inv
  refine ⟨hinv.keys, fun u hu => (hinv.own u hu).1, fun u v rest hperm hu hv hkey => ?_,
    fun u hu hst => ?_⟩
  · have hmem : u ∈ s.uses := hperm.mem_iff.mpr List.mem_cons_self
    have hmem' : v ∈ s.uses :=
      hperm.mem_iff.mpr (List.mem_cons_of_mem u List.mem_cons_self)
    -- one block, hence one buffer, and that has one holder
    have hid : u.id = v.id := by
      obtain ⟨hku, hdev⟩ := hinv.own u hmem
      obtain ⟨hkv, _⟩ := hinv.own v hmem'
      exact hinv.keys u.id v.id (hku ▸ hdev) (hku.trans (hkey.trans hkv.symm))
    exact hinv.alone hperm hu v List.mem_cons_self hid.symm hv
  · rw [holdingsleep, decide_eq_true_eq]
    exact hinv.locks u hu hst

/-- Two processes ask for a block that was changed and pinned; the one that has it passes the
checks. -/
theorem changed_block_has_one_holder :
    ∃ (s : State Bool) (stamp : Id → Nat) (now : Nat),
      Reach ⟨id, id⟩ (fun _ _ => 0) s stamp now ∧
      s.uses = [⟨false, (1, 0), 0, .waiting⟩, ⟨true, (1, 0), 0, .locked⟩] ∧
      cached s (1, 1) = none ∧ (s.buf 0).key = (1, 0) ∧
      holdingsleep s ⟨true, (1, 0), 0, .locked⟩ = true := by
  obtain ⟨s, stamp, now, h, huses, hevicted, -⟩ := exists_evicted
  obtain ⟨-, hkeys, -, hholds⟩ := blocks_have_one_holder h
  have hu : (⟨true, (1, 0), 0, .locked⟩ : Use Bool) ∈ s.uses := by simp [huses]
  exact ⟨s, stamp, now, h, huses, hevicted, hkeys _ hu, hholds _ hu rfl⟩

/-! ## Recycling -/

/-- A block without a buffer gets the one that has been unused for the longest time; and `bget`
panics exactly when every buffer is in use or pinned. -/
theorem bget_recycles_least_recent (h : Reach l disk s stamp now) (hc : cached s key = none) :
    (∀ s', bget s p key = .ok s' → ∃ i, (s'.buf i).key = key ∧ (s.buf i).refcnt = 0 ∧
      ∀ j ≠ i, (s.buf j).refcnt = 0 → stamp i < stamp j) ∧
    ((∃ e, bget s p key = .error e) ↔ ∀ i, 0 < refsOf s.uses i + s.pins i) := by
  obtain ⟨hinv, xs, horder⟩ := h.inv
  constructor
  · intro s' hs'
    obtain ⟨i, hi, _⟩ | ⟨_, i, hi, rfl⟩ := bget_ok hs'
    · rw [hc] at hi
      cases hi
    · refine ⟨i, ?_, victim_some hi, horder.victim hi⟩
      show ((s.recycle i key).buf i).key = key
      rw [recycle_self]
  · have hrefs : ∀ i, (s.buf i).refcnt = 0 ↔ refsOf s.uses i + s.pins i = 0 := by
      intro i
      rw [hinv.refs i]
      omega
    constructor
    · rintro ⟨e, he⟩ i
      cases hv : KernelBio.victim s with
      | some j => simp [bget, hc, hv] at he
      | none =>
        have hne := victim_none horder.listed hv i
        rw [Ne, hrefs i] at hne
        omega
    · intro hall
      cases hv : KernelBio.victim s with
      | some j =>
        have hzero := (hrefs j).mp (victim_some hv)
        have := hall j
        omega
      | none => exact ⟨.noBuffers, by simp [bget, hc, hv]⟩

/-- A block that has lost its buffer gets the one of block `2`; the one of block `0` is pinned. -/
theorem bget_recycles_second_visited :
    ∃ (s s' : State Bool) (stamp : Id → Nat) (now : Nat),
      Reach ⟨id, id⟩ (fun _ _ => 0) s stamp now ∧ cached s (1, 1) = none ∧ victim s = some 2 ∧
      bget s false (1, 1) = .ok s' ∧ ∃ i, (s'.buf i).key = (1, 1) ∧ (s.buf i).refcnt = 0 ∧
        ∀ j ≠ i, (s.buf j).refcnt = 0 → stamp i < stamp j := by
  obtain ⟨s, stamp, now, h, -, hevicted, hvictim, -⟩ := exists_evicted
  have hget := bget_recycle (p := false) hevicted hvictim
  exact ⟨s, _, stamp, now, h, hevicted, hvictim, hget,
    (bget_recycles_least_recent h hevicted).1 _ hget⟩

end KernelBio
