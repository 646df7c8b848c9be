import Xv6Filesrv.KernelBoot
import Xv6Filesrv.KernelBytes
import Xv6Filesrv.KernelMsgRuns

/-!
# What `recvmsg` writes to the caller

`sys_recvmsg` of `kernel/sysproc.c` with the memory of the process that calls it.  The length that
the caller gives is signed, `copyout` takes it as an unsigned one, and writes page after page
until it comes to one that it cannot write.
-/

namespace KernelRecv

open StateWp StateFrame KernelPages KernelPageTable KernelUvm KernelUserPages KernelShm
open KernelMemInv KernelProcInv KernelBytes KernelPrograms KernelProc KernelBoot
open KernelMsg (Msgq Message Outcome User queueOf slotOf copyLength unsigned sysRecvmsg)

variable {ram : Ram} {k k' k₁ : Kmem} {m m' : Mem} {p : Slot} {S : Multiset Nat}
  {sz dst n : Nat} {own own' pt : PageTable} {src : List UInt8}

/-! ## `copyout` page by page -/

/-- What `copyout` asks of the page at `pa0` before it writes to it. -/
def grant (own : PageTable) (dstva pa0 : Nat) : KM (Option Nat) :=
  if pa0 = 0 then pure none
  else do
    let (_, found) ← walk own (pgrounddown dstva) false
    if found = false then throw .kerneltrap
    else
      match own.map (pgrounddown dstva / pgsize) with
      | none => pure none
      | some e => if e.perm.w = false then pure none else pure (some pa0)

/-- The page for the byte at `dstva`, if there is one that `copyout` may write. -/
def backing (sz : Nat) (own : PageTable) (dstva : Nat) : KM (PageTable × Option Nat) :=
  if maxva ≤ pgrounddown dstva then pure (own, none)
  else do
    let pa0 ← walkaddr own (pgrounddown dstva)
    if pa0 = 0 then do
      let (own, pa0) ← vmfault sz own own (pgrounddown dstva)
      let page ← grant own dstva pa0
      pure (own, page)
    else do
      let page ← grant own dstva pa0
      pure (own, page)

/-- The loop of `copyout`, with the number of bytes that were moved. -/
def tallyLoop : Nat → Nat → PageTable → Nat → List UInt8 → KM (PageTable × Bool × Nat)
  | 0, _, own, _, _ => pure (own, true, 0)
  | fuel + 1, sz, own, dstva, src =>
    if src = [] then pure (own, true, 0)
    else do
      match ← backing sz own dstva with
      | (own, none) => pure (own, false, 0)
      | (own, some pa0) => do
        let va0 := pgrounddown dstva
        let n := min (pgsize - (dstva - va0)) src.length
        memmove (pa0 + (dstva - va0)) (fun j => src.getD j 0) n
        let (own, ok, more) ← tallyLoop fuel sz own (va0 + pgsize) (src.drop n)
        pure (own, ok, n + more)

/-- A round of `copyout`, after the page has been found. -/
theorem copyoutPage_grant (rest : Nat → List UInt8 → KM (PageTable × Bool)) (own : PageTable)
    (dst : Nat) (src : List UInt8) (pa0 : Nat) :
    copyoutPage rest own own dst src pa0 = (do
      match ← grant own dst pa0 with
      | none => pure (own, false)
      | some pa0 => do
        memmove (pa0 + (dst - pgrounddown dst)) (fun j => src.getD j 0)
          (min (pgsize - (dst - pgrounddown dst)) src.length)
        rest (pgrounddown dst + pgsize)
          (src.drop (min (pgsize - (dst - pgrounddown dst)) src.length))) := by
  unfold copyoutPage grant
  split
  · rfl
  · simp only [bind_assoc]
    congr 1
    funext r
    obtain ⟨_, found⟩ := r
    cases found with
    | false => rfl
    | true =>
      simp only [Bool.true_eq_false, if_false]
      cases own.map (pgrounddown dst / pgsize) with
      | none => rfl
      | some e =>
        simp only
        split <;> rfl

/-- The count is all that is added. -/
theorem tallyLoop_copyout (fuel sz : Nat) (own : PageTable) (dst : Nat) (src : List UInt8) :
    copyoutLoop fuel sz own none dst src = (do
      let r ← tallyLoop fuel sz own dst src
      pure (r.1, r.2.1)) := by
  induction fuel generalizing own dst src with
  | zero => rfl
  | succ fuel ih =>
    rw [copyoutLoop, tallyLoop, backing]
    split
    · rfl
    · split
      · rfl
      · simp only [bind_assoc, Option.getD_none]
        congr 1
        funext pa0
        split
        · simp only [bind_assoc, pure_bind]
          congr 1
          funext r
          rw [copyoutPage_grant]
          congr 1
          funext page
          cases page with
          | none => rfl
          | some pa0 => simp only [bind_assoc, pure_bind, ih]
        · simp only [bind_assoc, pure_bind]
          rw [copyoutPage_grant]
          congr 1
          funext page
          cases page with
          | none => rfl
          | some pa0 => simp only [bind_assoc, pure_bind, ih]

/-! ## What the user sees -/

/-- The byte at `va`.  A page of the heap that is not there yet holds zeros. -/
def view (k : Kmem) (sz : Nat) (pt : PageTable) (va : Nat) : Option UInt8 :=
  if maxva ≤ va then none
  else
    match pt.map (va / 4096) with
    | none => if va / 4096 < pageCount sz then some 0 else none
    | some e => if e.perm.u then some (k.bytes (e.pa + va % 4096)) else none

/-- Memory in which bytes were written one after the other from `dst` on. -/
def overwrite (f : Nat → Option UInt8) (dst : Nat) (data : List UInt8) : Nat → Option UInt8 :=
  fun va => if dst ≤ va ∧ va < dst + data.length then data[va - dst]? else f va

theorem overwrite_nil (f : Nat → Option UInt8) (dst : Nat) : overwrite f dst [] = f := by
  funext va
  exact if_neg (by simp)

theorem overwrite_append (f : Nat → Option UInt8) (dst : Nat) (xs ys : List UInt8) :
    overwrite (overwrite f dst xs) (dst + xs.length) ys = overwrite f dst (xs ++ ys) := by
  funext va
  simp only [overwrite, List.length_append]
  by_cases hlow : va < dst + xs.length
  · rw [if_neg (by omega)]
    by_cases hin : dst ≤ va
    · rw [if_pos (by omega), if_pos (by omega), List.getElem?_append_left (by omega)]
    · rw [if_neg (by omega), if_neg (by omega)]
  · by_cases hin : va < dst + xs.length + ys.length
    · rw [if_pos (by omega), if_pos (by omega), List.getElem?_append_right (by omega)]
      congr 1
      omega
    · rw [if_neg (by omega), if_neg (by omega), if_neg (by omega)]

theorem page_lt {va : Nat} (h : ¬ maxva ≤ va) : va / 4096 < maxPage := by
  apply lt_maxPage
  simp only [maxva, not_le] at h
  omega

theorem view_user {va : Nat} {e : Pte} (h : ¬ maxva ≤ va) (he : UserPage pt (va / 4096) e) :
    view k sz pt va = some (k.bytes (e.pa + va % 4096)) := by
  unfold view
  rw [if_neg h, he.2.1]
  simp only [he.2.2, if_true]

/-- Free pages are not seen. -/
theorem Apart.hidden (ha : Apart k sz own S) (hd : Draws k k') {va : Nat} {e : Pte}
    (he : UserPage own (va / 4096) e) :
    k'.bytes (e.pa + va % 4096) = k.bytes (e.pa + va % 4096) := by
  apply hd.bytes
  exact ha.off_free he ⟨by omega, by omega⟩

/-- The entry of a page is the same. -/
theorem view_congr (ha : Apart k sz own S) (hd : Draws k k') {va : Nat}
    (hmap : va / 4096 < maxPage → own'.map (va / 4096) = own.map (va / 4096)) :
    view k' sz own' va = view k sz own va := by
  unfold view
  split
  · rfl
  · next hva =>
    have hpage := page_lt hva
    rw [hmap hpage]
    cases he : own.map (va / 4096) with
    | none => rfl
    | some e =>
      simp only
      split
      · next hu => rw [Apart.hidden ha hd ⟨hpage, he, hu⟩]
      · rfl

/-- A page that was just taken from the free list is apart from those still on it. -/
theorem Apart.taken {mem : Nat} (ha : Apart k sz own S) (h : k.freelist = mem :: k₁.freelist)
    {a : Nat} (hon : OnPage mem a) : ∀ x ∈ k₁.freelist, ¬ OnPage x a := by
  intro x hx hxa
  have hmem : mem ∈ k.freelist := by simp [h]
  have hx' : x ∈ k.freelist := by simp [h, hx]
  obtain rfl := OnPage.unique (ha.free_aligned hx') (ha.free_aligned hmem) hxa hon
  have hnodup := (Multiset.nodup_add.mp (Multiset.nodup_add.mp ha.nodup).1).1
  have hlist : k.freelist.Nodup := Multiset.coe_nodup.mp hnodup
  rw [h] at hlist
  exact (List.nodup_cons.mp hlist).1 hx

/-- A page of zeros takes the place of a hole in the heap. -/
theorem vmfault_view {va : Nat} {r : PageTable × Nat} (hsz : pageCount sz ≤ 67108862)
    (ha : Apart k sz own S) (h : vmfault sz own own va k = .ok (r, k')) :
    view k' sz r.1 = view k sz own := by
  have hdraws := vmfault_draws sz own own va k r k' h
  unfold vmfault at h
  split at h
  · cases h
    rfl
  · next hva =>
    have hpage : va / 4096 < pageCount sz := by
      unfold pageCount
      omega
    have hdiv : va / 4096 * 4096 / 4096 = va / 4096 := by omega
    obtain ⟨b, k₀, hb, h⟩ := bind_ok h
    have hlt : pgrounddown va < maxva := lt_maxva (v := va / 4096) (by omega)
    rw [ismapped_eq own _ hlt] at hb
    cases hb
    cases hmap : own.map (va / 4096) with
    | some e =>
      rw [pgrounddown, hdiv, hmap] at h
      cases h
      rfl
    | none =>
      rw [pgrounddown, hdiv, hmap] at h
      obtain ⟨o, k₁, hk, h⟩ := bind_ok h
      cases o with
      | none =>
        cases h
        funext a
        exact view_congr ha hdraws fun _ => rfl
      | some mem =>
        obtain ⟨_, k₂, hset, h⟩ := bind_ok h
        cases hset
        obtain ⟨⟨own', ok⟩, k₃, hm, h⟩ := bind_ok h
        have hwp := (mappages_wp own (va / 4096) mem permRWU (by omega) hmap _).post hm
        have hentries := hwp.2
        cases ok with
        | false =>
          obtain ⟨_, k₄, -, h⟩ := bind_ok h
          cases h
          funext a
          refine view_congr ha hdraws fun hlt => ?_
          simpa using hentries _ hlt
        | true =>
          cases h
          funext a
          by_cases hpa : a / 4096 = va / 4096
          · -- the new page holds zeros, which `mappages` leaves alone
            unfold view
            split
            · rfl
            · next hlow =>
              have hentry := hentries (a / 4096) (page_lt hlow)
              rw [if_pos ⟨rfl, hpa⟩] at hentry
              have hon : OnPage mem (mem + a % 4096) := ⟨by omega, by omega⟩
              have htook := Apart.taken ha (kalloc_took hk) hon
              have hzero := (Draws.taking.mappages _ _ _ _ _ _ _ _ hm).bytes _ htook
              have hfill : fill k₁.bytes mem pgsize 0 (mem + a % 4096) = 0 := if_pos hon
              rw [hentry, hpa, hmap]
              simp only [permRWU, if_true, if_pos hpage]
              rw [hzero]
              exact congrArg some hfill
          · refine view_congr ha hdraws fun hlt => ?_
            simpa [hpa] using hentries _ hlt

/-- Writing to one page. -/
theorem moved_view {e : Pte} (ha : Apart k sz own S) (hpage : dst / 4096 < 67108864)
    (he : UserPage own (dst / 4096) e) (data : List UInt8)
    (hfit : dst % 4096 + data.length ≤ 4096) :
    view { k with bytes := moved k.bytes (e.pa + dst % 4096) (fun j => data.getD j 0) data.length }
      sz own = overwrite (view k sz own) dst data := by
  funext va
  unfold overwrite
  by_cases hmax : maxva ≤ va
  · have hout : ¬ (dst ≤ va ∧ va < dst + data.length) := by
      simp only [maxva] at hmax
      omega
    rw [if_neg hout, view, view, if_pos hmax, if_pos hmax]
  · by_cases hsame : va / 4096 = dst / 4096
    · rw [← hsame] at he
      rw [view_user hmax he, view_user hmax he]
      by_cases hin : dst ≤ va ∧ va < dst + data.length
      · have hmoved : moved k.bytes (e.pa + dst % 4096) (fun j => data.getD j 0) data.length
            (e.pa + va % 4096) = data.getD (e.pa + va % 4096 - (e.pa + dst % 4096)) 0 :=
          if_pos ⟨by omega, by omega⟩
        have hidx : e.pa + va % 4096 - (e.pa + dst % 4096) = va - dst := by omega
        have hbyte : data[va - dst]? = some (data.getD (va - dst) 0) := by
          rw [List.getD_eq_getElem?_getD, List.getElem?_eq_getElem (by omega)]
          rfl
        rw [if_pos hin, hbyte, ← hidx, ← hmoved]
      · rw [if_neg hin]
        exact congrArg some (if_neg (by omega))
    · have hout : ¬ (dst ≤ va ∧ va < dst + data.length) := by omega
      rw [if_neg hout, view, view, if_neg hmax, if_neg hmax]
      cases hmap : own.map (va / 4096) with
      | none => rfl
      | some e' =>
        simp only
        split
        · next hu =>
          rw [ha.moved he hfit ⟨page_lt hmax, hmap, hu⟩ hsame ⟨by omega, by omega⟩]
        · rfl

theorem grant_wp {pa0 : Nat} (hva : ¬ maxva ≤ pgrounddown dst)
    (hmap : pa0 ≠ 0 → ∃ e, own.map (dst / 4096) = some e) (k : Kmem) :
    wp (grant own dst pa0) (fun r k' => k' = k ∧ ∀ pa, r = some pa → pa = pa0 ∧ pa0 ≠ 0) k := by
  obtain ⟨hround, hpage⟩ := pgrounddown_lt hva
  have hdiv : dst / 4096 * 4096 / 4096 = dst / 4096 := by omega
  rw [grant]
  split
  · rw [wp_pure]
    exact ⟨rfl, nofun⟩
  · next hne =>
    obtain ⟨e, he⟩ := hmap hne
    have hreach := reaches_of_map own _ e he
    rw [hround, wp_bind]
    apply wp_of_eq (walk_lookup own _ (lt_maxva hpage) k)
    simp only [pgsize, hdiv, hreach, he, Bool.true_eq_false, if_false]
    split
    · rw [wp_pure]
      exact ⟨rfl, nofun⟩
    · rw [wp_pure]
      refine ⟨rfl, fun pa hpa => ?_⟩
      cases hpa
      exact ⟨rfl, hne⟩

/-- The page that backs the byte at `dst` is the user's, and finding it changes nothing that the
user sees. -/
structure Backs (k : Kmem) (sz : Nat) (own : PageTable) (dst : Nat) (r : PageTable × Option Nat)
    (k' : Kmem) : Prop where
  filled : Filled k sz own r.1 k'
  view : view k' sz r.1 = view k sz own
  page : ∀ pa, r.2 = some pa → dst / 4096 < 67108864 ∧ ∃ e, UserPage r.1 (dst / 4096) e ∧ e.pa = pa

theorem backing_wp (sz : Nat) (own : PageTable) (dst : Nat) (hsz : pageCount sz ≤ 67108862)
    (k : Kmem) (hs : Sound k (nodes own + rangePages own 0 (pageCount sz)))
    (ha : Apart k sz own S) : wp (backing sz own dst) (Backs k sz own dst) k := by
  rw [backing]
  split
  · rw [wp_pure]
    exact ⟨.refl k sz own, rfl, nofun⟩
  · next hva =>
    obtain ⟨hround, hpage⟩ := pgrounddown_lt hva
    have hdiv : dst / 4096 * 4096 / 4096 = dst / 4096 := by omega
    rw [wp_bind]
    apply wp_of_eq (walkaddr_eq own _ k)
    split
    · rw [wp_bind]
      obtain ⟨r, k₁, hrun, hfill, hnew⟩ :=
        (wp_iff _ _ _).mp (vmfault_wp sz own (pgrounddown dst) hsz k hs)
      rw [hround, hdiv] at hnew
      apply wp_of_eq hrun
      rw [wp_bind]
      apply (grant_wp hva (fun hne => ⟨_, hnew hne⟩) k₁).mono
      rintro page k₂ ⟨rfl, hgrant⟩
      rw [wp_pure]
      refine ⟨hfill, vmfault_view hsz ha hrun, fun pa hpa => ⟨hpage, ?_⟩⟩
      obtain ⟨rfl, hne⟩ := hgrant pa hpa
      exact ⟨_, ⟨lt_maxPage hpage, hnew hne, rfl⟩, rfl⟩
    · next hne =>
      have hfound := userPage_of_userAddr hne
      rw [hround, hdiv] at hfound
      obtain ⟨e, he, hpa⟩ := hfound
      rw [wp_bind]
      apply (grant_wp hva (fun _ => ⟨e, he.2.1⟩) k).mono
      rintro page k₂ ⟨rfl, hgrant⟩
      rw [wp_pure]
      refine ⟨.refl _ sz own, rfl, fun pa hpage' => ⟨hpage, e, he, ?_⟩⟩
      obtain ⟨rfl, -⟩ := hgrant pa hpage'
      rw [hpa, hround]

/-- What `copyout` comes to: the first bytes are where the user finds them, as many as were moved,
and everything else that the user sees is as it was. -/
structure Delivers (k : Kmem) (sz : Nat) (own : PageTable) (dst : Nat) (src : List UInt8)
    (r : PageTable × Bool × Nat) (k' : Kmem) : Prop where
  filled : Filled k sz own r.1 k'
  count : r.2.2 ≤ src.length
  done : r.2.1 = true ↔ r.2.2 = src.length
  view : view k' sz r.1 = overwrite (view k sz own) dst (src.take r.2.2)
  low : 0 < r.2.2 → dst + r.2.2 ≤ maxva

theorem tallyLoop_wp (fuel sz : Nat) (own : PageTable) (dst : Nat) (src : List UInt8)
    (hfuel : src.length ≤ fuel) (hsz : pageCount sz ≤ 67108862) (k : Kmem)
    (hs : Sound k (nodes own + rangePages own 0 (pageCount sz))) (ha : Apart k sz own S) :
    wp (tallyLoop fuel sz own dst src) (Delivers k sz own dst src) k := by
  have hnone : ∀ {own dst src k}, src = [] → Delivers k sz own dst src (own, true, 0) k := by
    intro own dst src k hsrc
    subst hsrc
    exact ⟨.refl k sz own, Nat.le_refl _, iff_of_true rfl rfl, (overwrite_nil _ _).symm,
      fun h => absurd h (Nat.lt_irrefl 0)⟩
  induction fuel generalizing own dst src k with
  | zero =>
    rw [tallyLoop, wp_pure]
    exact hnone (List.length_eq_zero_iff.mp (Nat.le_zero.mp hfuel))
  | succ fuel ih =>
    rw [tallyLoop]
    by_cases hsrc : src = []
    · rw [if_pos hsrc, wp_pure]
      exact hnone hsrc
    · have hpos : 0 < src.length := List.length_pos_iff.mpr hsrc
      rw [if_neg hsrc, wp_bind]
      apply (backing_wp sz own dst hsz k hs ha).mono
      rintro ⟨own₁, page⟩ k₁ hback
      cases page with
      | none =>
        rw [wp_pure]
        refine ⟨hback.filled, Nat.zero_le _, iff_of_false nofun (by simp only; omega), ?_, ?_⟩
        · rw [hback.view, List.take_zero, overwrite_nil]
        · exact fun h => absurd h (Nat.lt_irrefl 0)
      | some pa0 =>
        obtain ⟨hpage, e, he, rfl⟩ := hback.page _ rfl
        have hround : pgrounddown dst = dst / 4096 * 4096 := rfl
        have hoff : dst - dst / 4096 * 4096 = dst % 4096 := by omega
        simp only [hround, hoff, pgsize, wp_bind, memmove, wp_modify]
        -- the part that goes to this page
        generalize hn : min (4096 - dst % 4096) src.length = n
        have ha₁ : Apart k₁ sz own₁ S := ha.filled hback.filled
        have hlen : (src.take n).length = n := by
          rw [List.length_take]
          omega
        have hbytes : (fun a => if e.pa + dst % 4096 ≤ a ∧ a < e.pa + dst % 4096 + n then
            src.getD (a - (e.pa + dst % 4096)) 0 else k₁.bytes a) =
            moved k₁.bytes (e.pa + dst % 4096) (fun j => (src.take n).getD j 0)
              (src.take n).length := by
          funext a
          rw [moved, hlen]
          split
          · next hin =>
            rw [List.getD_eq_getElem?_getD, List.getD_eq_getElem?_getD,
              List.getElem?_take_of_lt (by omega)]
          · rfl
        have hview := moved_view ha₁ hpage he (src.take n) (by omega)
        rw [hbytes]
        have hshort : (src.drop n).length ≤ fuel := by
          rw [List.length_drop]
          omega
        have hs₁ : ∀ bytes, Sound { k₁ with bytes := bytes }
            (nodes own₁ + rangePages own₁ 0 (pageCount sz)) := fun _ => hback.filled.moves.sound hs
        apply (ih own₁ _ (src.drop n) hshort _ (hs₁ _) (ha₁.of_bytes _)).mono
        rintro ⟨own₂, ok, more⟩ k₂ hrest
        rw [wp_pure]
        have hfill₁ : Filled k₁ sz own₁ own₂ k₂ :=
          ⟨hrest.filled.same, (Moves.of_bytes k₁ _ _).trans hrest.filled.moves⟩
        have hdrop : (src.drop n).length = src.length - n := List.length_drop
        have hcount : more ≤ src.length - n := hdrop ▸ hrest.count
        refine ⟨hback.filled.trans hfill₁, by simp only; omega, ?_, ?_, fun _ => ?_⟩
        · rw [hrest.done, hdrop]
          simp only
          omega
        · simp only
          rw [hrest.view, hview, hback.view, List.take_add]
          by_cases hmore : (src.drop n).take more = []
          · rw [hmore, overwrite_nil, List.append_nil]
          · -- there is more only if the page is full
            have hfull : dst / 4096 * 4096 + 4096 = dst + (src.take n).length := by
              have hne := List.length_pos_iff.mpr hmore
              rw [List.length_take, hdrop] at hne
              omega
            rw [hfull, overwrite_append]
        · simp only [maxva]
          have hlow := hrest.low
          simp only [maxva] at hlow
          omega

/-! ## `sys_recvmsg` -/

/-- `copyout` to the caller's own memory, with the number of bytes that were moved. -/
def tallyProc (p : Slot) (addr : Nat) (src : List UInt8) : M (Bool × Nat) := do
  let s := (← get).space p
  let own ← ownTable p
  let (own, ok, n) ← onKmem (tallyLoop src.length s.sz own addr src)
  setTable p own
  pure (ok, n)

theorem onKmem_map {α β : Type} (c : KM α) (f : α → β) :
    onKmem (do let a ← c; pure (f a)) = (do let a ← onKmem c; pure (f a)) := by
  funext m
  simp only [onKmem, zoom, bind, StateT.bind, Except.bind, pure, StateT.pure, Except.pure]
  cases c m.kmem <;> rfl

theorem tallyProc_copyout (p : Slot) (addr : Nat) (src : List UInt8) :
    copyoutProc p addr src = (do
      let r ← tallyProc p addr src
      pure r.1) := by
  simp only [copyoutProc, tallyProc, copyout, tallyLoop_copyout, onKmem_map, bind_assoc, pure_bind]

/-- The `i`-th byte from the beginning of a message's data on, where `behind` is what the kernel
keeps behind the data. -/
def kernelByte (msg : Message) (behind : Nat → UInt8) (i : Nat) : UInt8 :=
  if h : i < msg.data.length then msg.data[i] else behind (i - msg.data.length)

/-- `sys_recvmsg` of process `p`. -/
def recvmsg (p : Slot) (t : Msgq) (behind : Nat → UInt8) (quid type : Int) (msgptr : Nat)
    (bufflen : Int) : M Outcome :=
  match queueOf t quid with
  | none => pure ⟨-1, [], t⟩
  | some i =>
    match slotOf (t i) type with
    | none => pure ⟨-1, [], t⟩
    | some j => do
      let msg := (t i).msg j
      let copylen := copyLength msg bufflen
      let src := (List.range (unsigned copylen)).map (kernelByte msg behind)
      let (ok, n) ← tallyProc p msgptr src
      if ok = false then pure ⟨-1, src.take n, t⟩
      else
        pure ⟨copylen, src.take n, Function.update t i
          { (t i).put j { msg with valid := false } with count := (t i).count - 1 }⟩

/-- The message that `sys_recvmsg` takes. -/
def selected (t : Msgq) (quid type : Int) : Option Message := do
  let i ← queueOf t quid
  let j ← slotOf (t i) type
  pure ((t i).msg j)

/-- What process `p` sees of its memory. -/
def userByte (m : Mem) (p : Slot) (va : Nat) : Option UInt8 := do
  let pt ← (m.space p).pagetable
  view m.kmem (m.space p).sz pt va

/-- `copyout` can write the byte at `addr`. -/
def Accepts (m : Mem) (p : Slot) (addr : Nat) : Prop :=
  ∃ m', copyoutProc p addr [0] m = .ok (true, m')

theorem tallyProc_wp (h : MemInv ram m) (hpt : (m.space p).pagetable = some pt) (addr : Nat)
    (src : List UInt8) : wp (tallyProc p addr src) (fun r m' => (MemInv ram m' ∧ OwnStep m p m') ∧
      (r.2 ≤ src.length ∧ (r.1 = true ↔ r.2 = src.length) ∧ r.2 ≤ maxva) ∧
      userByte m' p = overwrite (userByte m p) addr (src.take r.2)) m := by
  simp only [tallyProc, wp_bind, wp_get, wp_ownTable _ hpt, wp_onKmem, wp_setTable]
  apply (tallyLoop_wp src.length _ pt addr src le_rfl (h.mapped hpt).size _ (h.sound_table hpt)
    (MemInv.apart h hpt)).mono
  rintro ⟨pt', ok, n⟩ k' hd
  rw [wp_pure]
  refine ⟨h.filled hpt hd.filled, ⟨hd.count, hd.done, ?_⟩, ?_⟩
  · have hlow := hd.low
    simp only at hlow ⊢
    omega
  · have hold : userByte m p = view m.kmem (m.space p).sz pt := by
      funext va
      simp only [userByte, hpt]
      rfl
    rw [hold, ← hd.view]
    funext va
    simp only [userByte, Function.update_self]
    rfl

/-- The first round of `copyout` finds a page or not, whatever the bytes are. -/
theorem tallyLoop_first {fuel : Nat} {r : PageTable × Bool × Nat} (hsrc : src ≠ [])
    (h : tallyLoop (fuel + 1) sz own dst src k = .ok (r, k')) :
    ∃ own₁ page k₁, backing sz own dst k = .ok ((own₁, page), k₁) ∧ (page = none → r.2.2 = 0) ∧
      (page ≠ none → min (4096 - dst % 4096) src.length ≤ r.2.2) := by
  rw [tallyLoop, if_neg hsrc] at h
  obtain ⟨⟨own₁, page⟩, k₁, hback, h⟩ := bind_ok h
  refine ⟨own₁, page, k₁, hback, ?_⟩
  cases page with
  | none =>
    cases h
    exact ⟨fun _ => rfl, fun hne => absurd rfl hne⟩
  | some pa0 =>
    obtain ⟨_, k₂, -, h⟩ := bind_ok h
    obtain ⟨r', k₃, -, h⟩ := bind_ok h
    cases h
    have hoff : dst - pgrounddown dst = dst % 4096 := by
      simp only [pgrounddown, pgsize]
      omega
    refine ⟨fun hnone => absurd hnone (Option.some_ne_none pa0), fun _ => ?_⟩
    simp only [hoff, pgsize]
    omega

theorem accepts_iff {own₁ : PageTable} {page : Option Nat} (hpt : (m.space p).pagetable = some own)
    (h : backing (m.space p).sz own dst m.kmem = .ok ((own₁, page), k₁)) :
    Accepts m p dst ↔ page ≠ none := by
  have hloop : wp (tallyLoop 1 (m.space p).sz own dst [0]) (fun r _ => r.2.1 = page.isSome)
      m.kmem := by
    rw [tallyLoop, if_neg (by simp), wp_bind]
    apply wp_of_eq h
    cases page with
    | none =>
      rw [wp_pure]
      rfl
    | some pa0 => simp only [wp_bind, memmove, wp_modify, tallyLoop, wp_pure, Option.isSome_some]
  have hproc : wp (copyoutProc p dst [0]) (fun ok _ => ok = page.isSome) m := by
    simp only [tallyProc_copyout, tallyProc, wp_bind, wp_get, wp_ownTable _ hpt, wp_onKmem,
      wp_setTable, wp_pure]
    exact hloop
  rw [← Option.isSome_iff_ne_none]
  constructor
  · rintro ⟨m', hrun⟩
    exact (hproc.post hrun).symm
  · intro hsome
    obtain ⟨ok, m', hrun, hok⟩ := (wp_iff _ _ _).mp hproc
    rw [hok, hsome] at hrun
    exact ⟨m', hrun⟩

theorem tallyProc_ok {addr : Nat} {r : Bool × Nat} (h : tallyProc p addr src m = .ok (r, m')) :
    ∃ own own' k', (m.space p).pagetable = some own ∧
      tallyLoop src.length (m.space p).sz own addr src m.kmem = .ok ((own', r), k') := by
  obtain ⟨_, _, hget, h⟩ := bind_ok h
  cases hget
  obtain ⟨own, m₁, hown, h⟩ := bind_ok h
  obtain ⟨_, _, hget, hown⟩ := bind_ok hown
  cases hget
  cases hpt : (m.space p).pagetable with
  | none =>
    simp only [hpt] at hown
    cases hown
  | some pt =>
    simp only [hpt] at hown
    cases hown
    obtain ⟨⟨own', ok, n⟩, m₂, hloop, h⟩ := bind_ok h
    obtain ⟨_, m₃, -, h⟩ := bind_ok h
    cases h
    unfold onKmem zoom at hloop
    split at hloop
    · next r k₂ hk =>
      cases hloop
      exact ⟨own, own', k₂, rfl, hk⟩
    · cases hloop

/-- Nothing is moved, or all that fits on the first page. -/
theorem tallyProc_first {addr : Nat} {r : Bool × Nat} (hsrc : src ≠ [])
    (h : tallyProc p addr src m = .ok (r, m')) : (¬ Accepts m p addr → r.2 = 0) ∧
      (Accepts m p addr → min (4096 - addr % 4096) src.length ≤ r.2) := by
  obtain ⟨own, own', k', hpt, hloop⟩ := tallyProc_ok h
  obtain ⟨fuel, hfuel⟩ : ∃ fuel, src.length = fuel + 1 :=
    Nat.exists_eq_succ_of_ne_zero (by simpa using hsrc)
  rw [hfuel] at hloop
  obtain ⟨own₁, page, k₁, hback, hno, hyes⟩ := tallyLoop_first hsrc hloop
  rw [accepts_iff hpt hback, not_not]
  exact ⟨hno, hyes⟩

theorem unsigned_of_nonneg {len : Int} (h : 0 ≤ len) (hlt : len < 2 ^ 64) :
    unsigned len = len.toNat := by
  rw [unsigned, Int.emod_eq_of_lt h hlt]

/-- What is copied of a message is a part of its data, as long as it is not too long. -/
theorem map_kernelByte (msg : Message) (behind : Nat → UInt8) {n : Nat} (hn : n ≤ 128) :
    (List.range n).map (kernelByte msg behind) = msg.data.take n := by
  have hsize := msg.size
  apply List.ext_getElem
  · rw [List.length_map, List.length_range, List.length_take]
    omega
  · intro i hi hi'
    rw [List.length_map, List.length_range] at hi
    simp only [List.getElem_map, List.getElem_range, List.getElem_take, kernelByte]
    rw [dif_pos (by omega)]

/-- What `recvmsg` may write: the data of the message, as far as it fits into the buffer. -/
def allowed (t : Msgq) (quid type bufflen : Int) : List UInt8 :=
  match selected t quid type with
  | none => []
  | some msg => msg.data.take (min msg.len (max bufflen 0)).toNat

section Call

variable {t : Msgq} {behind : Nat → UInt8} {quid type bufflen : Int} {buf : Nat} {msg : Message}
  {out : Outcome}

theorem selected_eq (h : selected t quid type = some msg) :
    ∃ i j, queueOf t quid = some i ∧ slotOf (t i) type = some j ∧ (t i).msg j = msg := by
  obtain ⟨i, hi, h⟩ := Option.bind_eq_some_iff.mp h
  obtain ⟨j, hj, h⟩ := Option.bind_eq_some_iff.mp h
  exact ⟨i, j, hi, hj, Option.some.inj h⟩

theorem selected_len (ht : KernelMsg.Reach t) (h : selected t quid type = some msg) :
    1 ≤ msg.len ∧ msg.len ≤ 128 := by
  obtain ⟨i, j, -, hj, rfl⟩ := selected_eq h
  exact (ht.inv.queue i).len j (KernelMsg.slotOf_some hj).1

theorem recvmsg_none (h : selected t quid type = none) :
    recvmsg p t behind quid type buf bufflen = pure ⟨-1, [], t⟩ := by
  unfold recvmsg
  cases hi : queueOf t quid with
  | none => rfl
  | some i =>
    cases hj : slotOf (t i) type with
    | none => simp only [hj]
    | some j => simp [selected, hi, hj] at h

/-- The bytes from the beginning of a message's data on, as many as `copyout` is asked for. -/
def requested (msg : Message) (behind : Nat → UInt8) (bufflen : Int) : List UInt8 :=
  (List.range (unsigned (copyLength msg bufflen))).map (kernelByte msg behind)

theorem recvmsg_some (h : selected t quid type = some msg)
    (hrun : recvmsg p t behind quid type buf bufflen m = .ok (out, m')) :
    ∃ r, tallyProc p buf (requested msg behind bufflen) m = .ok (r, m') ∧
      out.delivered = (requested msg behind bufflen).take r.2 := by
  obtain ⟨i, j, hi, hj, rfl⟩ := selected_eq h
  unfold recvmsg at hrun
  simp only [hi, hj] at hrun
  obtain ⟨⟨ok, n⟩, m₁, hproc, hrun⟩ := bind_ok hrun
  simp only at hrun
  split at hrun
  · cases hrun
    exact ⟨_, hproc, rfl⟩
  · cases hrun
    exact ⟨_, hproc, rfl⟩

/-- The call of a process is one of those of the model of the message queues, with the memory that
the process has. -/
theorem recvmsg_refines (h : MemInv ram m) (hpt : (m.space p).pagetable = some pt) (t : Msgq)
    (behind : Nat → UInt8) (quid type bufflen : Int) (buf : Nat) :
    wp (recvmsg p t behind quid type buf bufflen) (fun out m' => MemInv ram m' ∧
      ∃ u : User, u.behind = behind ∧ out = sysRecvmsg t u quid type bufflen) m := by
  unfold recvmsg sysRecvmsg
  cases queueOf t quid with
  | none =>
    rw [wp_pure]
    exact ⟨h, ⟨[], 0, behind, by decide⟩, rfl, rfl⟩
  | some i =>
    cases hj : slotOf (t i) type with
    | none =>
      simp only [hj, wp_pure]
      exact ⟨h, ⟨[], 0, behind, by decide⟩, rfl, trivial⟩
    | some j =>
      simp only [hj, wp_bind]
      apply (tallyProc_wp h hpt buf _).mono
      rintro ⟨ok, n⟩ m' ⟨⟨hinv, -⟩, ⟨hcount, hdone, hlow⟩, -⟩
      have hroom : n < 2 ^ 63 := Nat.lt_of_le_of_lt hlow (by decide)
      rw [List.length_map, List.length_range] at hcount hdone
      have hcopied : ((List.range (unsigned (copyLength ((t i).msg j) bufflen))).map
          (kernelByte ((t i).msg j) behind)).take n =
          KernelMsg.copied ((t i).msg j) ⟨[], n, behind, hroom⟩
            (unsigned (copyLength ((t i).msg j) bufflen)) := by
        rw [← List.map_take, List.take_range, Nat.min_comm]
        rfl
      simp only [hcopied]
      cases ok with
      | false =>
        have hless : n < unsigned (copyLength ((t i).msg j) bufflen) := by
          simp only [Bool.false_eq_true, false_iff] at hdone
          simp only at hcount
          omega
        rw [if_pos rfl, wp_pure]
        exact ⟨hinv, ⟨[], n, behind, hroom⟩, rfl, (if_pos hless).symm⟩
      | true =>
        have hall : ¬ n < unsigned (copyLength ((t i).msg j) bufflen) := by
          have := hdone.mp rfl
          simp only at this
          omega
        rw [if_neg (by simp), wp_pure]
        exact ⟨hinv, ⟨[], n, behind, hroom⟩, rfl, (if_neg hall).symm⟩

/-- `recvmsg` writes to the caller's buffer only, and only what the message holds, exactly if the
length of the buffer is not negative, or nothing can be written at all. -/
theorem recvmsg_within_message_iff (ht : KernelMsg.Reach t)
    (hint : -2 ^ 31 ≤ bufflen ∧ bufflen < 2 ^ 31)
    (hrun : recvmsg p t behind quid type buf bufflen m = .ok (out, m')) :
    (out.delivered <+: allowed t quid type bufflen ↔
      selected t quid type = none ∨ 0 ≤ bufflen ∨ ¬ Accepts m p buf) ∧
    ∀ ram, MemInv ram m → userByte m' p = overwrite (userByte m p) buf out.delivered := by
  cases hsel : selected t quid type with
  | none =>
    rw [recvmsg_none hsel] at hrun
    cases hrun
    exact ⟨iff_of_true List.nil_prefix (.inl rfl), fun _ _ => (overwrite_nil _ _).symm⟩
  | some msg =>
    obtain ⟨hpos, hle⟩ := selected_len ht hsel
    obtain ⟨r, hproc, hout⟩ := recvmsg_some hsel hrun
    have hlen : copyLength msg bufflen = min msg.len bufflen := by
      unfold copyLength
      split <;> omega
    refine ⟨?_, fun ram hinv => ?_⟩
    · rw [allowed, hsel]
      simp only [reduceCtorEq, false_or]
      by_cases hneg : 0 ≤ bufflen
      · have hcopy : unsigned (copyLength msg bufflen) = (min msg.len (max bufflen 0)).toNat := by
          rw [hlen, unsigned_of_nonneg (by omega) (by omega)]
          omega
        rw [hout, requested, hcopy, map_kernelByte msg behind (by omega)]
        exact iff_of_true (List.take_prefix _ _) (.inl hneg)
      · -- the length is a large number for `copyout`
        have hsrc : 0 < (requested msg behind bufflen).length := by
          rw [requested, List.length_map, List.length_range, hlen, unsigned]
          omega
        have hne := List.length_pos_iff.mp hsrc
        obtain ⟨hno, hyes⟩ := tallyProc_first hne hproc
        have hzero : (min msg.len (max bufflen 0)).toNat = 0 := by omega
        rw [hzero, List.take_zero, List.prefix_nil, hout, List.take_eq_nil_iff, or_iff_left hne,
          or_iff_right hneg]
        refine ⟨fun hr hacc => ?_, hno⟩
        have hmin := hyes hacc
        omega
    · obtain ⟨pt, _, _, hpt, -⟩ := tallyProc_ok hproc
      rw [hout]
      exact ((tallyProc_wp hinv hpt buf _).post hproc).2.2

end Call

/-! A queue with one message. -/

/-- `msgget(5)` and `sendmsg(0, 1, "hi", 2)` after boot. -/
def oneMessage : Msgq :=
  let t := (KernelMsg.sysMsgget (KernelMsg.msginit KernelMsg.blank) 5).table
  (KernelMsg.sysSendmsg t ⟨[104, 105], 0, fun _ => 0, by decide⟩ 0 1 2).table

theorem oneMessage_reach : KernelMsg.Reach oneMessage := by
  refine ⟨KernelMsg.blank, ?_⟩
  refine .tail (.single ⟨.msgget 5, rfl⟩) ⟨?_, ?_⟩
  · exact .sendmsg ⟨[104, 105], 0, fun _ => 0, by decide⟩ 0 1 2
  · rfl

/-- The call of the first process comes to an end. -/
theorem recvmsg_small (bufflen : Int) : ∃ out m',
    recvmsg 0 oneMessage (fun _ => 7) 0 1 4096 bufflen smallKernel.mem = .ok (out, m') := by
  have hinv : MemInv smallRam smallKernel.mem := smallKernel_booted.inv.1.mem
  have htable : (smallKernel.mem.space 0).pagetable.isSome = true := by decide +kernel
  obtain ⟨pt, hpt⟩ := Option.isSome_iff_exists.mp htable
  obtain ⟨out, m', hrun, -⟩ := (wp_iff _ _ _).mp
    (recvmsg_refines hinv hpt oneMessage (fun _ => 7) 0 1 bufflen 4096)
  exact ⟨out, m', hrun⟩

/-- A buffer of four bytes for a message of two. -/
theorem recvmsg_within_message_four : ∃ out m',
    recvmsg 0 oneMessage (fun _ => 7) 0 1 4096 4 smallKernel.mem = .ok (out, m') ∧
    out.delivered <+: allowed oneMessage 0 1 4 ∧
    userByte m' 0 = overwrite (userByte smallKernel.mem 0) 4096 out.delivered := by
  obtain ⟨out, m', hrun⟩ := recvmsg_small 4
  obtain ⟨hiff, hview⟩ := recvmsg_within_message_iff oneMessage_reach (by decide) hrun
  exact ⟨out, m', hrun, hiff.mpr (.inr (.inl (by decide))),
    hview smallRam smallKernel_booted.inv.1.mem⟩

/-- Whether a program returned `true`. -/
def returned : Except Panic (Bool × Mem) → Bool
  | .ok (b, _) => b
  | .error _ => false

theorem accepts_small : Accepts smallKernel.mem 0 4096 := by
  have hok : returned (copyoutProc 0 4096 [0] smallKernel.mem) = true := by decide +kernel
  cases hrun : copyoutProc 0 4096 [0] smallKernel.mem with
  | error e =>
    rw [hrun] at hok
    cases hok
  | ok r =>
    obtain ⟨b, m'⟩ := r
    rw [hrun] at hok
    cases hok
    exact ⟨m', hrun⟩

/-- A buffer of length -1: the caller gets a whole page, most of it from behind the message. -/
theorem recvmsg_leaks : ∃ out m',
    recvmsg 0 oneMessage (fun _ => 7) 0 1 4096 (-1) smallKernel.mem = .ok (out, m') ∧
    allowed oneMessage 0 1 (-1) = [] ∧ 4096 ≤ out.delivered.length ∧
    out.delivered[128]? = some 7 := by
  obtain ⟨out, m', hrun⟩ := recvmsg_small (-1)
  have hsome : (selected oneMessage 0 1).isSome = true := by decide +kernel
  obtain ⟨msg, hsel⟩ := Option.isSome_iff_exists.mp hsome
  obtain ⟨hpos, -⟩ := selected_len oneMessage_reach hsel
  obtain ⟨r, hproc, hout⟩ := recvmsg_some hsel hrun
  have hlen : copyLength msg (-1) = -1 := if_neg (by omega)
  have hcount : (requested msg (fun _ => 7) (-1)).length = 18446744073709551615 := by
    rw [requested, List.length_map, List.length_range, hlen]
    decide
  have hne : requested msg (fun _ => 7) (-1) ≠ [] := by
    rw [← List.length_pos_iff, hcount]
    decide
  have hpage := (tallyProc_first hne hproc).2 accepts_small
  rw [hcount] at hpage
  have hbyte : kernelByte msg (fun _ => 7) 128 = 7 := dif_neg (by rw [msg.size]; decide)
  refine ⟨out, m', hrun, by decide +kernel, ?_, ?_⟩
  · rw [hout, List.length_take, hcount]
    omega
  · rw [hout, List.getElem?_take_of_lt (by omega), requested, List.getElem?_map,
      List.getElem?_range (by rw [hlen]; decide)]
    exact congrArg some hbyte

end KernelRecv
