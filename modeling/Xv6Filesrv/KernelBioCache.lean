import Mathlib.Data.Fintype.Card
import Mathlib.Logic.Relation
import Xv6Filesrv.KernelBioRuns

/-!
# The cache below the log

What the log knows of the cache is a partial map from blocks to contents, with loads and evictions
that come at any time, but never for a block that is pinned.  `bio.c` gives it that: `view` reads the
buffers as such a map, and every step of the cache is one of its moves.
-/

namespace KernelBio

open KernelLog (Block System)
open LinkedRing (Links)
open Function (update update_apply update_eq_self update_of_ne update_self)

variable {ι : Type} {s s' : State ι} {i : Id} {b : Nat} {key : Key} {xs : List Id}

/-- The device that the file system is on. -/
abbrev rootdev : Nat := 1

/-- The buffer of a block. -/
def bufOf (s : State ι) (b : Nat) : Option Id :=
  (List.finRange nbuf).find? fun i => decide ((s.buf i).key = (rootdev, b))

def cacheOf (s : State ι) (b : Nat) : Option Block :=
  (bufOf s b).bind fun i => if (s.buf i).valid then some (s.buf i).data else none

def pinsOf (s : State ι) (b : Nat) : Nat := (bufOf s b).elim 0 s.pins

/-- The cache as the log sees it. -/
def view (c : System) (s : State ι) : System :=
  { c with disk := fun b => s.disk (rootdev, b), cache := cacheOf s, pins := pinsOf s }

/-- What may happen to the cache below the log. -/
inductive Serves (start : Nat) (c : System) : System → Prop
  | same : Serves start c c
  | load (b : Nat) {c' : System} (h : KernelLog.act start c (.load b) = some (.ok c')) :
      Serves start c c'
  | evict (b : Nat) {c' : System} (h : KernelLog.act start c (.evict b) = some (.ok c')) :
      Serves start c c'
  | set (b : Nat) (d : Block) : Serves start c (c.setBuf b d)
  | write (b : Nat) : Serves start c (c.bwrite b (c.bread b))
  | pin (b : Nat) : Serves start c (c.bpin b)
  | unpin (b : Nat) (h : 0 < c.pins b) : Serves start c (c.bunpin b)

/-! ## Buffers of blocks -/

theorem bufOf_some (h : bufOf s b = some i) : (s.buf i).key = (rootdev, b) := by
  simpa using List.find?_some h

theorem bufOf_none (h : bufOf s b = none) (i : Id) : (s.buf i).key ≠ (rootdev, b) := by
  simpa using List.find?_eq_none.mp h i (List.mem_finRange i)

theorem Inv.bufOf (h : Inv s) (hi : (s.buf i).key = (rootdev, b)) : bufOf s b = some i := by
  cases hb : KernelBio.bufOf s b with
  | none => exact absurd hi (bufOf_none hb i)
  | some j =>
    have hj := bufOf_some hb
    rw [h.keys i j (by rw [hi]; simp) (hi.trans hj.symm)]

theorem bufOf_congr (h : ∀ j, (s'.buf j).key = (s.buf j).key) : bufOf s' = bufOf s := by
  funext b
  simp only [bufOf, h]

theorem cacheOf_eq_elim (s : State ι) (b : Nat) : cacheOf s b =
    (bufOf s b).elim none fun i => if (s.buf i).valid then some (s.buf i).data else none := by
  cases h : bufOf s b <;> simp [cacheOf, h]

theorem Inv.cache_at (h : Inv s) (hi : (s.buf i).key = (rootdev, b)) :
    cacheOf s b = if (s.buf i).valid then some (s.buf i).data else none := by
  rw [cacheOf, h.bufOf hi, Option.bind_some]

theorem Inv.pins_at (h : Inv s) (hi : (s.buf i).key = (rootdev, b)) : pinsOf s b = s.pins i := by
  rw [pinsOf, h.bufOf hi, Option.elim_some]

theorem bufOf_absent (h : ∀ i, (s.buf i).key ≠ (rootdev, b)) : bufOf s b = none := by
  cases hb : bufOf s b with
  | none => rfl
  | some i => exact absurd (bufOf_some hb) (h i)

section Lookup

variable {α : Type} {f f' : Id → α} (d : α)

/-- What is found for a block, where one buffer has changed but keeps its key. -/
theorem Inv.elim_keep (h : Inv s) (hkey : ∀ j, (s'.buf j).key = (s.buf j).key)
    (hf : ∀ j, j ≠ i → f' j = f j) (b : Nat) :
    (KernelBio.bufOf s' b).elim d f' =
      if (s.buf i).key = (rootdev, b) then f' i else (KernelBio.bufOf s b).elim d f := by
  rw [bufOf_congr hkey]
  split
  · next hi => rw [h.bufOf hi, Option.elim_some]
  · next hi =>
    cases hb : KernelBio.bufOf s b with
    | none => rfl
    | some j =>
      have hji : j ≠ i := by
        rintro rfl
        exact hi (bufOf_some hb)
      exact hf j hji

/-- The same where the buffer gets a key that no buffer has, and nothing is known of its block. -/
theorem Inv.elim_recycle (h : Inv s) (h' : Inv s') (hkey : (s'.buf i).key = key)
    (hnone : ∀ j, (s.buf j).key ≠ key) (hkeys : ∀ j, j ≠ i → (s'.buf j).key = (s.buf j).key)
    (hf : ∀ j, j ≠ i → f' j = f j) (hd : f' i = d) (b : Nat) :
    (KernelBio.bufOf s' b).elim d f' =
      if (s.buf i).key = (rootdev, b) then d else (KernelBio.bufOf s b).elim d f := by
  by_cases hnew : key = (rootdev, b)
  · have habsent : ∀ j, (s.buf j).key ≠ (rootdev, b) := fun j hj => hnone j (hj.trans hnew.symm)
    rw [h'.bufOf (hkey.trans hnew), if_neg (habsent i), bufOf_absent habsent]
    exact hd
  · by_cases hex : ∃ j, j ≠ i ∧ (s.buf j).key = (rootdev, b)
    · obtain ⟨j, hji, hj⟩ := hex
      have hi : (s.buf i).key ≠ (rootdev, b) := fun hi =>
        hji (h.keys j i (by rw [hj]; simp) (hj.trans hi.symm))
      rw [if_neg hi, h.bufOf hj, h'.bufOf ((hkeys j hji).trans hj)]
      exact hf j hji
    · have hother : ∀ j, j ≠ i → (s.buf j).key ≠ (rootdev, b) := fun j hji hj => hex ⟨j, hji, hj⟩
      have habsent' : ∀ j, (s'.buf j).key ≠ (rootdev, b) := by
        intro j
        by_cases hji : j = i
        · rwa [hji, hkey]
        · rw [hkeys j hji]
          exact hother j hji
      rw [bufOf_absent habsent']
      split
      · rfl
      · next hi =>
        rw [bufOf_absent fun j => ?_]
        · rfl
        · by_cases hji : j = i
          · rwa [hji]
          · exact hother j hji

end Lookup

/-- The view does not change where buffers keep their keys, contents and pins. -/
theorem view_congr (c : System) (hkey : ∀ j, (s'.buf j).key = (s.buf j).key)
    (hvalid : ∀ j, (s'.buf j).valid = (s.buf j).valid)
    (hdata : ∀ j, (s'.buf j).data = (s.buf j).data) (hpins : s'.pins = s.pins)
    (hdisk : s'.disk = s.disk) : view c s' = view c s := by
  have hbuf := bufOf_congr hkey
  have hcache : cacheOf s' = cacheOf s := by
    funext b
    simp only [cacheOf, hbuf, hvalid, hdata]
  have hp : pinsOf s' = pinsOf s := by
    funext b
    simp only [pinsOf, hbuf, hpins]
  rw [view, view, hcache, hp, hdisk]

/-- One buffer changes in what the view does not look at. -/
theorem view_setBuf (c : System) {b' : Buf ι} {uses : List (Use ι)} {l : Links Node}
    (hkey : b'.key = (s.buf i).key) (hvalid : b'.valid = (s.buf i).valid)
    (hdata : b'.data = (s.buf i).data) :
    view c { s.setBuf i b' with uses := uses, links := l } = view c s := by
  exact view_congr c (setBuf_field Buf.key hkey) (setBuf_field Buf.valid hvalid)
    (setBuf_field Buf.data hdata) rfl rfl

theorem Inv.view_content (h : Inv s) (c : System) (b' : Buf ι) (hkey : b'.key = (s.buf i).key)
    (hvalid : b'.valid = true) : view c (s.setBuf i b') =
      if (s.buf i).key.1 = rootdev then (view c s).setBuf (s.buf i).key.2 b'.data else view c s := by
  have hpins : pinsOf (s.setBuf i b') = pinsOf s := by
    funext b
    rw [pinsOf, bufOf_congr (setBuf_field Buf.key hkey)]
    rfl
  -- its block is cached with the contents
  have hcache : cacheOf (s.setBuf i b') = fun b =>
      if (s.buf i).key = (rootdev, b) then some b'.data else cacheOf s b := by
    funext b
    rw [cacheOf_eq_elim, cacheOf_eq_elim,
      h.elim_keep (i := i) none (setBuf_field Buf.key hkey) fun j hj => ?_,
      setBuf_self, if_pos hvalid]
    rw [setBuf_of_ne s b' hj]
  rw [view, hpins, hcache]
  split
  · next hdev =>
    have hk : ∀ b, (s.buf i).key = (rootdev, b) ↔ b = (s.buf i).key.2 := by
      intro b
      rw [Prod.ext_iff]
      simp [hdev, eq_comm]
    simp only [view, System.setBuf, hk]
    congr 1
    funext b
    rw [update_apply]
  · next hdev =>
    have hk : ∀ b, (s.buf i).key ≠ (rootdev, b) := fun b he => hdev (by rw [he])
    simp only [view, hk, if_false]
    rfl

/-- A buffer is recycled: its old block is not cached any more. -/
theorem Inv.cacheOf_recycle (h : Inv s) {uses : List (Use ι)}
    (h' : Inv { s.recycle i key with uses := uses }) (hnone : ∀ j, (s.buf j).key ≠ key) (b : Nat) :
    cacheOf { s.recycle i key with uses := uses } b =
      if (s.buf i).key = (rootdev, b) then none else cacheOf s b := by
  rw [cacheOf_eq_elim, cacheOf_eq_elim]
  refine h.elim_recycle none h' (by simp [State.recycle, State.setBuf]) hnone ?_ ?_ ?_ b
  · intro j hj
    simp [State.recycle, State.setBuf, hj]
  · intro j hj
    simp [State.recycle, State.setBuf, hj]
  · simp [State.recycle, State.setBuf]

theorem Inv.pinsOf_recycle (h : Inv s) {uses : List (Use ι)}
    (h' : Inv { s.recycle i key with uses := uses }) (hi : (s.buf i).refcnt = 0)
    (hnone : ∀ j, (s.buf j).key ≠ key) (b : Nat) :
    pinsOf { s.recycle i key with uses := uses } b = pinsOf s b := by
  have hzero := (h.unused hi).2.1
  refine (h.elim_recycle (f := s.pins) 0 h' (by simp [State.recycle, State.setBuf]) hnone
    (fun j hj => by simp [State.recycle, State.setBuf, hj]) (fun _ _ => rfl) hzero b).trans ?_
  split
  · next hold => rw [h.pins_at hold, hzero]
  · rfl

/-! ## Steps -/

variable {start : Nat} {c : System} {u : Use ι}

theorem Serves.recycle (h : Inv s) {p : ι} (hi : (s.buf i).refcnt = 0)
    (hnone : ∀ j, (s.buf j).key ≠ key) (hdev : key.1 ≠ 0) :
    Serves start (view c s) (view c
      { s.recycle i key with uses := ⟨p, key, i, .waiting⟩ :: s.uses }) := by
  have h' := h.recycle (p := p) hi hnone hdev
  have hpins := funext (h.pinsOf_recycle h' hi hnone)
  have hcache := funext (h.cacheOf_recycle h' hnone)
  rw [show view c { s.recycle i key with uses := ⟨p, key, i, .waiting⟩ :: s.uses } =
    { view c s with cache := fun b => if (s.buf i).key = (rootdev, b) then none
        else cacheOf s b } by rw [view, hpins, hcache]; rfl]
  by_cases hold : (s.buf i).key.1 = rootdev
  · -- the old block was on the device of the file system, and nobody has pinned it
    have hk : (s.buf i).key = (rootdev, (s.buf i).key.2) := Prod.ext hold rfl
    have hzero : (view c s).pins (s.buf i).key.2 = 0 :=
      (h.pins_at hk).trans (h.unused hi).2.1
    refine .evict (s.buf i).key.2 ?_
    simp only [KernelLog.act, hzero, if_true]
    congr 3
    funext b
    rw [update_apply]
    by_cases hb : b = (s.buf i).key.2
    · rw [if_pos hb, if_pos (by rw [hb]; exact hk)]
    · rw [if_neg hb, if_neg fun he => hb (by rw [he])]
      rfl
  · have hne : ∀ b, (s.buf i).key ≠ (rootdev, b) := fun b he => hold (by rw [he])
    simp only [hne, if_false]
    exact .same

theorem Serves.fill (h : Inv s) (hv : (s.buf u.id).valid = false) :
    Serves start (view c s) (view c (fill s u)) := by
  have hview := h.view_content c
    { s.buf u.id with data := s.disk (s.buf u.id).key, valid := true } rfl rfl
  rw [KernelBio.fill, hview]
  split
  · next hdev =>
    have hk : (s.buf u.id).key = (rootdev, (s.buf u.id).key.2) := Prod.ext hdev rfl
    have hmiss : (view c s).cache (s.buf u.id).key.2 = none := by
      show cacheOf s _ = none
      rw [h.cache_at hk, hv]
      rfl
    have hbread : (view c s).bread (s.buf u.id).key.2 = s.disk (s.buf u.id).key := by
      rw [System.bread, hmiss, Option.getD_none, hk]
      rfl
    refine .load (s.buf u.id).key.2 ?_
    rw [KernelLog.act, hbread]
  · exact .same

theorem Serves.modify (h : Inv s) (hv : (s.buf u.id).valid = true) (d : Block) :
    Serves start (view c s) (view c (modify s u d)) := by
  have hview := h.view_content c { s.buf u.id with data := d } rfl hv
  rw [KernelBio.modify, hview]
  split
  · exact .set _ d
  · exact .same

/-- A buffer that is valid shows what the log reads. -/
theorem Inv.bread (h : Inv s) (hv : (s.buf i).valid = true)
    (hk : (s.buf i).key = (rootdev, b)) : (view c s).bread b = (s.buf i).data := by
  show (cacheOf s b).getD _ = _
  rw [h.cache_at hk, hv]
  rfl

theorem Serves.bwrite (h : Inv s) (hv : (s.buf u.id).valid = true) :
    Serves start (view c s) (view c (s.setDisk (s.buf u.id).key (s.buf u.id).data)) := by
  by_cases hdev : (s.buf u.id).key.1 = rootdev
  · have hk : (s.buf u.id).key = (rootdev, (s.buf u.id).key.2) := Prod.ext hdev rfl
    have hcache : cacheOf s (s.buf u.id).key.2 = some (s.buf u.id).data := by
      rw [h.cache_at hk, hv]
      rfl
    have hwrite : view c (s.setDisk (s.buf u.id).key (s.buf u.id).data) =
        (view c s).bwrite (s.buf u.id).key.2 ((view c s).bread (s.buf u.id).key.2) := by
      rw [h.bread hv hk]
      simp only [view, System.bwrite, System.setBuf, State.setDisk]
      congr 1
      · funext b
        by_cases hb : b = (s.buf u.id).key.2
        · rw [hb, update_self, ← hk, update_self]
        · rw [update_of_ne hb, update_of_ne]
          exact fun he => hb (by rw [← he])
      · rw [← hcache, update_eq_self]
        rfl
    rw [hwrite]
    exact .write _
  · have hsame : view c (s.setDisk (s.buf u.id).key (s.buf u.id).data) = view c s := by
      simp only [view, State.setDisk]
      congr 1
      funext b
      rw [update_of_ne]
      exact fun he => hdev (by rw [← he])
    rw [hsame]
    exact .same

/-- The pins of one buffer change. -/
theorem Inv.pinsOf_update (h : Inv s) {b' : Buf ι} (hkey : b'.key = (s.buf i).key) (n : Nat) :
    pinsOf { s.setBuf i b' with pins := update s.pins i n } =
      if (s.buf i).key.1 = rootdev then
        update (pinsOf s) (s.buf i).key.2 n
      else pinsOf s := by
  funext b
  refine (h.elim_keep (i := i) (f := s.pins) 0 (setBuf_field Buf.key hkey)
    (fun j hj => update_of_ne hj ..) b).trans ?_
  by_cases hk : (s.buf i).key = (rootdev, b)
  · simp [hk]
  · rw [if_neg hk]
    split
    · next hdev =>
      rw [update_of_ne]
      · rfl
      · rintro rfl
        exact hk (Prod.ext hdev rfl)
    · rfl

theorem Inv.view_pins (h : Inv s) (c : System) (b' : Buf ι) (hkey : b'.key = (s.buf i).key)
    (hvalid : b'.valid = (s.buf i).valid) (hdata : b'.data = (s.buf i).data) (n : Nat) :
    view c { s.setBuf i b' with pins := update s.pins i n } =
      if (s.buf i).key.1 = rootdev then
        { view c s with pins := update (view c s).pins (s.buf i).key.2 n }
      else view c s := by
  have hsame : view c (s.setBuf i b') = view c s := view_setBuf c hkey hvalid hdata
  have hcache : cacheOf (s.setBuf i b') = cacheOf s :=
    congrArg System.cache hsame
  have hpins := h.pinsOf_update hkey n
  rw [view, hpins]
  split
  · simp only [view, ← hcache]
    rfl
  · simp only [view, ← hcache]
    rfl

theorem Serves.bpin (h : Inv s) (i : Id) : Serves start (view c s) (view c (bpin s i)) := by
  have hview := h.view_pins c { s.buf i with refcnt := (s.buf i).refcnt + 1 } rfl rfl rfl
    (s.pins i + 1)
  rw [KernelBio.bpin, hview]
  split
  · next hdev =>
    have hpins : (view c s).pins (s.buf i).key.2 = s.pins i := h.pins_at (Prod.ext hdev rfl)
    rw [← hpins]
    exact .pin _
  · exact .same

theorem Serves.bunpin (h : Inv s) (hp : 0 < s.pins i) :
    Serves start (view c s) (view c (bunpin s i)) := by
  have hview := h.view_pins c { s.buf i with refcnt := (s.buf i).refcnt - 1 } rfl rfl rfl
    (s.pins i - 1)
  rw [KernelBio.bunpin, hview]
  split
  · next hdev =>
    have hpins : (view c s).pins (s.buf i).key.2 = s.pins i := h.pins_at (Prod.ext hdev rfl)
    rw [← hpins] at hp ⊢
    exact .unpin _ hp
  · exact .same

variable [DecidableEq ι] {freed : Option Id}

/-- Every step of the cache is a move that the log expects. -/
theorem Step.serves (hs : Step s freed s') (h : Inv s) (hl : Listed s.links xs) (c : System) :
    Serves start (view c s) (view c s') := by
  -- counts, locks, calls and the list are nothing that the log sees
  have hsame : view c s' = view c s → Serves start (view c s) (view c s') := by
    intro hv
    rw [hv]
    exact .same
  cases hs with
  | bget p key hdev hb =>
    obtain ⟨i, hi, rfl⟩ | ⟨hnone, i, hi, rfl⟩ := bget_ok hb
    · exact hsame (view_setBuf c rfl rfl rfl)
    · exact .recycle h (victim_some hi) (cached_none hl hnone) hdev
  | acquiresleep _ _ _ => exact hsame (view_setBuf c rfl rfl rfl)
  | fill _ _ hv => exact .fill h hv
  | modify _ _ hv d => exact .modify h hv d
  | bwrite _ _ hv hb =>
    cases bwrite_ok hb
    exact .bwrite h hv
  | releasesleep _ _ _ hb =>
    cases releasesleep_ok hb
    exact hsame (view_setBuf c rfl rfl rfl)
  | brelse _ _ =>
    refine hsame ?_
    simp only [KernelBio.brelse]
    split
    · exact view_setBuf c rfl rfl rfl
    · exact view_setBuf c rfl rfl rfl
  | bpin _ _ => exact .bpin h _
  | bunpin _ _ hp => exact .bunpin h hp

variable {l : Links Node} {disk : Key → Block} {stamp : Id → Nat} {now : Nat}

theorem Reach.served (h : Reach l disk s stamp now) (c : System) :
    Relation.ReflTransGen (Serves start) (view c (KernelBio.start l disk : State ι)) (view c s) := by
  induction h with
  | start => exact .refl
  | step h hs ih =>
    obtain ⟨hinv, xs, horder⟩ := h.inv
    exact ih.tail (hs.serves hinv horder.listed c)

/-- The blocks of a log that is full take all the buffers: `LOGBLOCKS` is `NBUF`.  No other block can
be read then, and `commit` begins by reading a block of the log. -/
theorem full_log_leaves_no_buffer (h : Reach l disk s stamp now) {blocks : List Nat}
    (hnodup : blocks.Nodup) (hlen : blocks.length = KernelFreeze.logblocks)
    (hpinned : ∀ b ∈ blocks, 0 < pinsOf s b) {b : Nat} (hb : b ∉ blocks) (p : ι) :
    bget s p (rootdev, b) = .error .noBuffers := by
  obtain ⟨hinv, xs, horder⟩ := h.inv
  have hsome : ∀ b ∈ blocks, ∃ i, bufOf s b = some i ∧ 0 < s.pins i := by
    intro b hb
    have hpos := hpinned b hb
    cases hi : bufOf s b with
    | none => simp [pinsOf, hi] at hpos
    | some i => exact ⟨i, rfl, by simpa [pinsOf, hi] using hpos⟩
  -- as many blocks as buffers, and no two with the same one
  have hids : (blocks.filterMap (bufOf s)).Nodup := by
    refine hnodup.filterMap fun b b' i hb hb' => ?_
    have hkey := (bufOf_some hb).symm.trans (bufOf_some hb')
    exact (Prod.mk.inj hkey).2
  have hcount : (blocks.filterMap (bufOf s)).length = nbuf := by
    rw [List.length_filterMap_eq_countP, List.countP_eq_length.mpr]
    · simp only [KernelFreeze.logblocks] at hlen
      exact Int.ofNat.inj hlen
    · intro b hb
      obtain ⟨i, hi, _⟩ := hsome b hb
      rw [hi]
      rfl
  have hall : ∀ i, ∃ b ∈ blocks, bufOf s b = some i := by
    intro i
    have huniv : (blocks.filterMap (bufOf s)).toFinset = Finset.univ := by
      apply Finset.eq_univ_of_card
      rw [List.toFinset_card_of_nodup hids, hcount, Fintype.card_fin]
    have hi : i ∈ (blocks.filterMap (bufOf s)).toFinset := by
      rw [huniv]
      exact Finset.mem_univ i
    exact List.mem_filterMap.mp (List.mem_toFinset.mp hi)
  have hmiss : cached s (rootdev, b) = none := by
    cases hi : cached s (rootdev, b) with
    | none => rfl
    | some i =>
      obtain ⟨b', hb', hi'⟩ := hall i
      have hkey := (cached_some hi).symm.trans (bufOf_some hi')
      exact absurd ((Prod.mk.inj hkey).2 ▸ hb') hb
  have hfull : victim s = none := by
    cases hi : victim s with
    | none => rfl
    | some i =>
      obtain ⟨b', hb', hi'⟩ := hall i
      obtain ⟨j, hj, hpos⟩ := hsome b' hb'
      rw [hi'] at hj
      cases hj
      have hzero := victim_some hi
      rw [hinv.refs i] at hzero
      omega
  simp only [bget, hmiss, hfull]

/-- A run in which the blocks `0` to `29` were pinned. -/
theorem bget_after_full_log :
    ∃ (s : State Bool) (stamp : Id → Nat) (now : Nat),
      Reach ⟨id, id⟩ (fun _ _ => 0) s stamp now ∧ s.uses = [] ∧
      (∀ b ∈ List.range 30, 0 < pinsOf s b) ∧ bget s true (rootdev, 30) = .error .noBuffers := by
  have hrun : (run ((List.range nbuf).flatMap (visit · [.bpin]))
      (start ⟨id, id⟩ fun _ _ => 0)).any
        (fun s => decide (s.uses = [] ∧ ∀ b ∈ List.range 30, 0 < pinsOf s b)) = true := by
    decide +kernel
  obtain ⟨s, stamp, now, h, hs⟩ := exists_run hrun
  obtain ⟨huses, hpinned⟩ := of_decide_eq_true hs
  exact ⟨s, stamp, now, h, huses, hpinned,
    full_log_leaves_no_buffer h List.nodup_range rfl hpinned (by simp) true⟩

end KernelBio
