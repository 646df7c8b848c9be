import Xv6Filesrv.KernelUvm

/-!
# Whole user page tables

`proc_pagetable` and `proc_freepagetable` of `kernel/proc.c`, and the functions
of `kernel/vm.c` that copy a page table (`uvmcopy`), fill a hole (`vmfault`) or
write through it (`copyout`).
-/

namespace KernelUserPages

open StateWp KernelPages KernelPageTable KernelUvm

variable {k k' k'' : Kmem}

attribute [local irreducible] rangePages

def uvmfree (pt : PageTable) (sz : Nat) : KM PUnit := do
  let pt ← if 0 < sz then uvmunmap pt 0 (pgroundup sz / pgsize) true else pure pt
  freewalk pt

/-- `proc_pagetable` of a process whose trapframe is at `tf`. -/
def procPagetable (tf : Nat) : KM (Option PageTable) := do
  match ← uvmcreate with
  | none => pure none
  | some pt =>
    let k ← get
    let (pt, ok) ← mappages pt trampoline pgsize k.tramp permRX
    if ok = false then
      uvmfree pt 0
      pure none
    else
      let (pt, ok) ← mappages pt trapframe pgsize tf permRW
      if ok = false then
        let pt ← uvmunmap pt trampoline 1 false
        uvmfree pt 0
        pure none
      else pure (some pt)

def procFreepagetable (pt : PageTable) (sz : Nat) : KM PUnit := do
  modify fun k => { k with torn := (pt, sz) :: k.torn }
  let pt ← uvmunmap pt trampoline 1 false
  let pt ← uvmunmap pt trapframe 1 false
  uvmfree pt sz

/-- The loop of `uvmcopy`, by the number of pages still to visit. -/
def copyLoop : Nat → PageTable → PageTable → Nat → KM (PageTable × Bool)
  | 0, _, new, _ => pure (new, true)
  | n + 1, old, new, i => do
    let (_, found) ← walk old i false
    if found = false then copyLoop n old new (i + pgsize)
    else
      match old.map (i / pgsize) with
      | none => copyLoop n old new (i + pgsize)
      | some e => do
        match ← kalloc with
        | none =>
          let new ← uvmunmap new 0 (i / pgsize) true
          pure (new, false)
        | some mem =>
          let k ← get
          memmove mem (fun j => k.bytes (e.pa + j)) pgsize
          let (new, ok) ← mappages new i pgsize mem e.perm
          if ok = false then
            kfree mem
            let new ← uvmunmap new 0 (i / pgsize) true
            pure (new, false)
          else copyLoop n old new (i + pgsize)

def uvmcopy (old new : PageTable) (sz : Nat) : KM (PageTable × Bool) :=
  copyLoop (pageCount sz) old new 0

def walkaddr (pt : PageTable) (va : Nat) : KM Nat :=
  if maxva ≤ va then pure 0
  else do
    let (_, found) ← walk pt va false
    if found = false then pure 0
    else
      match pt.map (va / pgsize) with
      | none => pure 0
      | some e => pure (if e.perm.u then e.pa else 0)

def ismapped (pt : PageTable) (va : Nat) : KM Bool := do
  let (_, found) ← walk pt va false
  pure (found && (pt.map (va / pgsize)).isSome)

/-- `vmfault` called by a process of size `sz` with page table `own`: the test is
made on `pt`, the new page is mapped into `own`. -/
def vmfault (sz : Nat) (own pt : PageTable) (va : Nat) : KM (PageTable × Nat) :=
  if sz ≤ va then pure (own, 0)
  else do
    let va := pgrounddown va
    if ← ismapped pt va then pure (own, 0)
    else
      match ← kalloc with
      | none => pure (own, 0)
      | some mem =>
        memset mem 0 pgsize
        let (own, ok) ← mappages own va pgsize mem permRWU
        if ok = false then
          kfree mem
          pure (own, 0)
        else pure (own, mem)

/-- The second half of a round of `copyout`, when `pa0` backs the page of `dstva`. -/
def copyoutPage (rest : Nat → List UInt8 → KM (PageTable × Bool)) (own pt : PageTable)
    (dstva : Nat) (src : List UInt8) (pa0 : Nat) : KM (PageTable × Bool) :=
  if pa0 = 0 then pure (own, false)
  else do
    let va0 := pgrounddown dstva
    let (_, found) ← walk pt va0 false
    if found = false then throw .kerneltrap
    else
      match pt.map (va0 / pgsize) with
      | none => pure (own, false)
      | some e =>
        if e.perm.w = false then pure (own, false)
        else
          let n := min (pgsize - (dstva - va0)) src.length
          memmove (pa0 + (dstva - va0)) (fun j => src.getD j 0) n
          rest (va0 + pgsize) (src.drop n)

/-- The loop of `copyout`. Every round copies at least one byte, so the length
of `src` bounds the number of rounds. `target = none` means that the page table
written through is the caller's own, which page faults may extend. -/
def copyoutLoop : Nat → Nat → PageTable → Option PageTable → Nat → List UInt8 →
    KM (PageTable × Bool)
  | 0, _, own, _, _, _ => pure (own, true)
  | fuel + 1, sz, own, target, dstva, src =>
    if src = [] then pure (own, true)
    else if maxva ≤ pgrounddown dstva then pure (own, false)
    else do
      let pa0 ← walkaddr (target.getD own) (pgrounddown dstva)
      if pa0 = 0 then
        let (own, pa0) ← vmfault sz own (target.getD own) (pgrounddown dstva)
        copyoutPage (copyoutLoop fuel sz own target) own (target.getD own) dstva src pa0
      else copyoutPage (copyoutLoop fuel sz own target) own (target.getD own) dstva src pa0

def copyout (sz : Nat) (own : PageTable) (target : Option PageTable) (dstva : Nat)
    (src : List UInt8) : KM (PageTable × Bool) :=
  copyoutLoop src.length sz own target dstva src

theorem uvmcreate_wp (k : Kmem) :
    wp uvmcreate (fun r k' => Moves k 0 k' (r.elim 0 nodes) ∧
      ∀ pt, r = some pt → ∀ v, pt.map v = none) k := by
  rw [uvmcreate, wp_bind]
  apply (kalloc_wp k).mono
  intro r k₁ hm
  cases r with
  | none =>
    rw [wp_pure]
    exact ⟨hm, by simp⟩
  | some pa =>
    simp only [wp_bind, memset, wp_modify, wp_pure, Option.elim_some, nodes_empty]
    constructor
    · exact hm.trans (Moves.of_bytes k₁ _ _)
    · intro pt hpt v
      obtain rfl : Table.empty pa = pt := by simpa using hpt
      rfl

/-- With no leaf outside the first `sz` bytes, all of a table's memory is freed. -/
theorem uvmfree_wp (pt : PageTable) (sz : Nat) (hsz : pageCount sz ≤ 67108864)
    (honly : ∀ v < maxPage, pt.map v ≠ none → v < pageCount sz) (k : Kmem)
    (hs : Sound k (nodes pt + rangePages pt 0 (pageCount sz))) :
    wp (uvmfree pt sz) (fun _ k' => Frees k (nodes pt + rangePages pt 0 (pageCount sz)) k') k := by
  rw [uvmfree]
  by_cases hpos : 0 < sz
  · have hn : pgroundup sz / pgsize = pageCount sz := by
      rw [pgroundup_eq]
      exact Nat.mul_div_cancel _ (by decide)
    have hs₀ : Sound k (rangePages pt 0 (pageCount sz)) := hs.mono (Multiset.le_add_left _ _)
    rw [if_pos hpos, hn, wp_bind]
    have hun := uvmunmap_free_wp pt 0 (pageCount sz) (by omega) k hs₀
    rw [zero_mul] at hun
    apply hun.mono
    rintro pt' k₁ ⟨hnodes, hmap, hf⟩
    have hempty : ∀ v < maxPage, pt'.map v = none := by
      intro v hv
      rw [hmap v hv, cleared]
      by_cases hin : 0 ≤ v ∧ v < 0 + pageCount sz
      · rw [if_pos hin]
      · rw [if_neg hin]
        by_contra hne
        have := honly v hv hne
        omega
    have hs₁ : Sound k₁ (nodes pt') := by
      rw [hnodes]
      rw [add_comm] at hs
      exact hf.sound hs
    apply (freewalk_wp pt' hempty k₁ hs₁).mono
    intro _ k₂ hf₂
    rw [hnodes] at hf₂
    rw [add_comm]
    exact hf.trans hf₂
  · have hz : pageCount sz = 0 := by
      obtain rfl : sz = 0 := by omega
      rfl
    rw [if_neg hpos, wp_bind, wp_pure]
    rw [hz, rangePages_zero, add_zero] at hs ⊢
    apply freewalk_wp pt _ k hs
    intro v hv
    by_contra hne
    have := honly v hv hne
    omega

/-- The entries of the two trap pages. -/
def trapMap (tramp tf v : Nat) : Option Pte :=
  if v = trampPage then some ⟨tramp, permRX⟩
  else if v = tfPage then some ⟨tf, permRW⟩
  else none

theorem trapMap_eq_none (tramp tf : Nat) {v : Nat} (hv : v < 67108862) :
    trapMap tramp tf v = none := by
  rw [trapMap, if_neg (by simp only [trampPage]; omega), if_neg (by simp only [tfPage]; omega)]

theorem trapMap_ne_none {tramp tf v : Nat} (h : trapMap tramp tf v ≠ none) :
    v = trampPage ∨ v = tfPage := by
  by_contra hno
  rw [not_or] at hno
  simp [trapMap, hno.1, hno.2] at h

/-- A user page table with the two trap pages and nothing else. -/
def Fresh (tramp tf : Nat) (pt : PageTable) : Prop :=
  ∀ v < maxPage, pt.map v = trapMap tramp tf v

theorem trampoline_eq : trampoline = trampPage * 4096 := rfl
theorem trapframe_eq : trapframe = tfPage * 4096 := rfl

/-- Freeing a page table that maps nothing. -/
theorem uvmfree_zero_wp (pt : PageTable) (hnone : ∀ v < maxPage, pt.map v = none) (k : Kmem)
    (hs : Sound k (nodes pt)) : wp (uvmfree pt 0) (fun _ k' => Frees k (nodes pt) k') k := by
  have hz : pageCount 0 = 0 := rfl
  have h := uvmfree_wp pt 0 (by rw [hz]; omega) (fun v hv hne => absurd (hnone v hv) hne) k
  rw [hz, rangePages_zero, add_zero] at h
  exact h hs

theorem procPagetable_wp (tf : Nat) (k : Kmem) (hs : Sound k 0) :
    wp (procPagetable tf) (fun r k' => Moves k 0 k' (r.elim 0 nodes) ∧
      ∀ pt, r = some pt → Fresh k.tramp tf pt) k := by
  rw [procPagetable, wp_bind]
  apply (uvmcreate_wp k).mono
  rintro r k₁ ⟨hm₁, hnone⟩
  cases r with
  | none =>
    rw [wp_pure]
    exact ⟨hm₁, by simp⟩
  | some pt =>
    have hnone := hnone pt rfl
    simp only [wp_bind, wp_get]
    rw [trampoline_eq]
    apply (mappages_wp pt trampPage k₁.tramp permRX (by decide) (hnone _) k₁).mono
    rintro ⟨pt₂, ok⟩ k₂ ⟨hm₂, hmap₂⟩
    have hm₁₂ : Moves k 0 k₂ (nodes pt₂) := hm₁.trans hm₂
    cases ok with
    | false =>
      simp only [if_true, wp_bind]
      have hempty : ∀ v < maxPage, pt₂.map v = none := by
        intro v hv
        rw [hmap₂ v hv, if_neg (by simp), hnone v]
      apply (uvmfree_zero_wp pt₂ hempty k₂ (hm₁₂.sound hs)).mono
      intro _ k₃ hf
      rw [wp_pure]
      exact ⟨hm₁₂.trans hf.moves, by simp⟩
    | true =>
      simp only [Bool.true_eq_false, if_false, wp_bind]
      rw [trapframe_eq]
      have hfree : pt₂.map tfPage = none := by
        rw [hmap₂ tfPage (by decide), if_neg (fun h => absurd h.2 (by decide)), hnone]
      apply (mappages_wp pt₂ tfPage tf permRW (by decide) hfree k₂).mono
      rintro ⟨pt₃, ok⟩ k₃ ⟨hm₃, hmap₃⟩
      have hm₁₃ : Moves k 0 k₃ (nodes pt₃) := hm₁₂.trans hm₃
      cases ok with
      | false =>
        simp only [if_true, wp_bind]
        apply (uvmunmap_wp pt₃ trampPage 1 (by decide) k₃).mono
        rintro pt₄ k₄ ⟨hnodes, hmap₄, rfl⟩
        have hempty : ∀ v < maxPage, pt₄.map v = none := by
          intro v hv
          rw [hmap₄ v hv, cleared]
          by_cases hvt : v = trampPage
          · subst hvt
            rw [if_pos ⟨le_refl _, Nat.lt_succ_self _⟩]
          · rw [if_neg (by omega), hmap₃ v hv, hmap₂ v hv]
            simp [hvt, hnone v]
        have hs₄ : Sound k₄ (nodes pt₄) := by
          rw [hnodes]
          exact hm₁₃.sound hs
        apply (uvmfree_zero_wp pt₄ hempty k₄ hs₄).mono
        intro _ k₅ hf
        rw [hnodes] at hf
        rw [wp_pure]
        exact ⟨hm₁₃.trans hf.moves, by simp⟩
      | true =>
        simp only [Bool.true_eq_false, if_false, wp_pure]
        refine ⟨hm₁₃, ?_⟩
        rintro pt' hpt
        obtain rfl : pt₃ = pt' := by simpa using hpt
        intro v hv
        rw [hmap₃ v hv, hmap₂ v hv, hnone v, hm₁.fixed.2, trapMap]
        by_cases hvt : v = trampPage
        · subst hvt
          rfl
        · simp [hvt]

theorem procFreepagetable_wp (pt : PageTable) (sz : Nat) (hsz : pageCount sz ≤ 67108862)
    (hstray : NoStray pt (pageCount sz)) (k : Kmem)
    (hs : Sound k (nodes pt + rangePages pt 0 (pageCount sz))) :
    wp (procFreepagetable pt sz)
      (fun _ k' => Frees k (nodes pt + rangePages pt 0 (pageCount sz)) k') k := by
  simp only [procFreepagetable, wp_bind, wp_modify]
  have hpush : Frees k 0 { k with torn := (pt, sz) :: k.torn } := by
    refine ⟨⟨[], rfl, rfl, rfl⟩, ⟨rfl, rfl⟩, ?_⟩
    intro x hx
    rcases List.mem_cons.mp hx with rfl | hx
    · exact .inr hstray
    · exact .inl hx
  rw [trampoline_eq, trapframe_eq]
  apply (uvmunmap_wp pt trampPage 1 (by decide) _).mono
  rintro pt₁ k₁ ⟨hnodes₁, hmap₁, rfl⟩
  apply (uvmunmap_wp pt₁ tfPage 1 (by decide) _).mono
  rintro pt₂ k₂ ⟨hnodes₂, hmap₂, rfl⟩
  have hmap : ∀ v < maxPage, pt₂.map v =
      if v = trampPage ∨ v = tfPage then none else pt.map v := by
    intro v hv
    rw [hmap₂ v hv, cleared, hmap₁ v hv, cleared]
    by_cases h₁ : v = trampPage
    · subst h₁
      simp
    · by_cases h₂ : v = tfPage
      · subst h₂
        simp
      · rw [if_neg (by omega), if_neg (by omega), if_neg (by simp [h₁, h₂])]
  have hrange : rangePages pt₂ 0 (pageCount sz) = rangePages pt 0 (pageCount sz) := by
    apply rangePages_congr
    intro w _ hw
    rw [hmap w (lt_maxPage (by omega)), if_neg (by simp only [trampPage, tfPage]; omega)]
  have honly : ∀ v < maxPage, pt₂.map v ≠ none → v < pageCount sz := by
    intro v hv hne
    rw [hmap v hv] at hne
    by_cases ht : v = trampPage ∨ v = tfPage
    · simp [ht] at hne
    · rw [if_neg ht] at hne
      rcases hstray v hv hne with h | h | h
      · exact absurd (.inl h) ht
      · exact absurd (.inr h) ht
      · exact h
  rw [← hrange, ← hnodes₁, ← hnodes₂] at hs ⊢
  have hf := uvmfree_wp pt₂ sz (by omega) honly { k with torn := (pt, sz) :: k.torn } hs
  apply hf.mono
  intro _ k₃ hf₃
  have h := hpush.trans hf₃
  rw [zero_add] at h
  exact h

/-- What a copy of the first pages of `old` into `new` leaves behind, when the
pages below `v` had been copied before and `n` pages were left. -/
def Copied (k : Kmem) (old new : PageTable) (v n : Nat) (r : PageTable × Bool) (k' : Kmem) :
    Prop :=
  if r.2 = true then
    (∀ w, v ≤ w → w < v + n → (r.1.map w).map Pte.perm = (old.map w).map Pte.perm) ∧
    (∀ w < maxPage, w < v ∨ v + n ≤ w → r.1.map w = new.map w) ∧
    Moves k (nodes new + rangePages new 0 v) k' (nodes r.1 + rangePages r.1 0 (v + n))
  else
    (∀ w < maxPage, r.1.map w = cleared new 0 v w) ∧
    Moves k (nodes new + rangePages new 0 v) k' (nodes r.1)

/-- Giving up a copy: what was copied is unmapped and freed. -/
theorem copied_fail (old new new' : PageTable) (v n : Nat) (hv : v ≤ 67108864) (k k₁ : Kmem)
    (hs : Sound k (nodes new + rangePages new 0 v))
    (hmap : ∀ w < maxPage, new'.map w = new.map w) (hm : Moves k (nodes new) k₁ (nodes new')) :
    wp (uvmunmap new' 0 (v * 4096 / pgsize) true)
      (fun r k' => Copied k old new v n (r, false) k') k₁ := by
  have hdiv : v * 4096 / pgsize = v := by
    simp only [pgsize]
    omega
  have hr : rangePages new' 0 v = rangePages new 0 v := by
    apply rangePages_congr
    intro w _ hw
    exact hmap w (lt_maxPage (by omega))
  have hm' := hm.add (rangePages new 0 v)
  have hs' : Sound k₁ (rangePages new' 0 v) := by
    rw [hr]
    exact (hm'.sound hs).mono (Multiset.le_add_left _ _)
  have hun := uvmunmap_free_wp new' 0 v (by omega) k₁ hs'
  rw [zero_mul] at hun
  rw [hdiv]
  apply hun.mono
  rintro r k₂ ⟨hnodes, hcl, hf⟩
  simp only [Copied, Bool.false_eq_true, if_false]
  constructor
  · intro w hw
    rw [hcl w hw, cleared, cleared, hmap w hw]
  · have h := hf.moves.add (nodes new')
    rw [zero_add, hr, add_comm] at h
    exact (hm'.trans h).of_eq rfl hnodes

/-- A page that `old` does not have is skipped. -/
theorem Copied.skip {old new : PageTable} {v n : Nat} {r : PageTable × Bool} {k' : Kmem}
    (hnone : new.map v = none) (hold : old.map v = none) (hv : v < 67108864)
    (h : Copied k old new (v + 1) n r k') : Copied k old new v (n + 1) r k' := by
  have hr : rangePages new 0 (v + 1) = rangePages new 0 v := by
    rw [rangePages_add, rangePages_one, Nat.zero_add, hnone]
    exact add_zero _
  rw [Copied, hr] at h
  rw [Copied]
  split at h
  · next hok =>
    obtain ⟨hperm, hsame, hm⟩ := h
    rw [if_pos hok, Nat.add_comm n 1, ← Nat.add_assoc]
    refine ⟨?_, ?_, hm⟩
    · intro w hlo hhi
      by_cases hwv : w = v
      · subst hwv
        rw [hsame w (lt_maxPage hv) (by omega), hnone, hold]
      · exact hperm w (by omega) (by omega)
    · intro w hw hout
      exact hsame w hw (by omega)
  · next hok =>
    rw [if_neg hok]
    refine ⟨?_, h.2⟩
    intro w hw
    rw [h.1 w hw, cleared, cleared]
    by_cases hwv : w = v
    · subst hwv
      rw [if_pos (by omega), if_neg (by omega), hnone]
    · by_cases hin : 0 ≤ w ∧ w < 0 + v
      · rw [if_pos hin, if_pos (by omega)]
      · rw [if_neg hin, if_neg (by omega)]

/-- A page that was copied from `old` is mapped with the same permissions. -/
theorem Copied.step {old new new' : PageTable} {v n mem : Nat} {e : Pte} {k₁ : Kmem}
    {r : PageTable × Bool} (hnone : new.map v = none) (hold : old.map v = some e)
    (hv : v < 67108864)
    (hmap : ∀ w < maxPage, new'.map w = if w = v then some ⟨mem, e.perm⟩ else new.map w)
    (hm : Moves k (nodes new + rangePages new 0 v) k₁ (nodes new' + rangePages new' 0 (v + 1)))
    (h : Copied k₁ old new' (v + 1) n r k') : Copied k old new v (n + 1) r k' := by
  rw [Copied] at h ⊢
  split at h
  · next hok =>
    obtain ⟨hperm, hsame, hm₂⟩ := h
    rw [if_pos hok, Nat.add_comm n 1, ← Nat.add_assoc]
    refine ⟨?_, ?_, hm.trans hm₂⟩
    · intro w hlo hhi
      by_cases hwv : w = v
      · subst hwv
        rw [hsame w (lt_maxPage hv) (by omega), hmap w (lt_maxPage hv), if_pos rfl, hold]
        rfl
      · exact hperm w (by omega) (by omega)
    · intro w hw hout
      rw [hsame w hw (by omega), hmap w hw, if_neg (by omega)]
  · next hok =>
    rw [if_neg hok]
    refine ⟨?_, hm.trans h.2⟩
    intro w hw
    rw [h.1 w hw, cleared, cleared, hmap w hw]
    by_cases hwv : w = v
    · subst hwv
      rw [if_pos (by omega), if_neg (by omega), hnone]
    · by_cases hin : 0 ≤ w ∧ w < 0 + v
      · rw [if_pos hin, if_pos (by omega)]
      · rw [if_neg hin, if_neg (by omega), if_neg hwv]

theorem copyLoop_wp (n : Nat) (old new : PageTable) (v : Nat) (hv : v + n ≤ 67108864)
    (hnone : ∀ w, v ≤ w → w < v + n → new.map w = none) (k : Kmem)
    (hs : Sound k (nodes new + rangePages new 0 v)) :
    wp (copyLoop n old new (v * 4096)) (fun r k' => Copied k old new v n r k') k := by
  induction n generalizing new v k with
  | zero =>
    rw [copyLoop, wp_pure, Copied, if_pos rfl]
    refine ⟨?_, ?_, Moves.refl k _⟩
    · intro w hlo hhi
      omega
    · intro w _ _
      rfl
  | succ n ih =>
    have hnext : v * 4096 + pgsize = (v + 1) * 4096 := by simp only [pgsize]; omega
    have hdiv : v * 4096 / 4096 = v := by omega
    have hv₀ : new.map v = none := hnone v (le_refl v) (by omega)
    have hskip : old.map v = none →
        wp (copyLoop n old new ((v + 1) * 4096)) (fun r k' => Copied k old new v (n + 1) r k') k := by
      intro hold
      have hr : rangePages new 0 (v + 1) = rangePages new 0 v := by
        rw [rangePages_add, rangePages_one, Nat.zero_add, hv₀]
        exact add_zero _
      have hrest := ih new (v + 1) (by omega) (fun w hlo hhi => hnone w (by omega) (by omega)) k
        (by rw [hr]; exact hs)
      exact hrest.mono fun r k' h => h.skip hv₀ hold (by omega)
    simp only [copyLoop, wp_bind]
    apply wp_of_eq (walk_lookup old (v * 4096) (lt_maxva (by omega)) k)
    simp only [pgsize, hdiv] at hnext ⊢
    rw [hnext]
    cases hold : old.map v with
    | none =>
      cases old.reaches v with
      | false => simpa using hskip hold
      | true => simpa using hskip hold
    | some e =>
      have hreach := reaches_of_map old v e hold
      simp only [hreach, Bool.true_eq_false, if_false, wp_bind]
      apply (kalloc_wp k).mono
      intro r k₁ hm₁
      cases r with
      | none =>
        rw [wp_bind]
        have hm : Moves k (nodes new) k₁ (nodes new) := by simpa using hm₁.add (nodes new)
        have hfail := copied_fail old new new v (n + 1) (by omega) k k₁ hs (fun _ _ => rfl) hm
        simp only [pgsize, hdiv] at hfail
        apply hfail.mono
        intro r k' h
        rw [wp_pure]
        exact h
      | some mem =>
        have hokm := Moves.taken_ok hs hm₁
        simp only [wp_bind, wp_get, memmove, wp_modify]
        apply (mapFresh_wp new v mem e.perm (by omega) hv₀ k k₁ _ hm₁).mono
        rintro ⟨new', ok⟩ k₂ ⟨hm, hmap⟩
        cases ok with
        | false =>
          simp only [if_true, wp_bind]
          apply (kfree_back_wp mem hokm hm).mono
          intro _ k₃ hm₄
          have hsame : ∀ w < maxPage, new'.map w = new.map w := by
            intro w hw
            simpa using hmap w hw
          have hfail := copied_fail old new new' v (n + 1) (by omega) k k₃ hs hsame hm₄
          simp only [pgsize, hdiv] at hfail
          apply hfail.mono
          intro r k' h
          rw [wp_pure]
          exact h
        | true =>
          simp only [true_and] at hmap
          simp only [Bool.true_eq_false, if_false]
          have hr : rangePages new' 0 (v + 1) = rangePages new 0 v + {mem} := by
            rw [rangePages_add, rangePages_one, Nat.zero_add, hmap v (lt_maxPage (by omega)),
              if_pos rfl, rangePages_congr new new']
            · rfl
            · intro w _ hw
              rw [hmap w (lt_maxPage (by omega)), if_neg (by omega)]
          have hmoves : Moves k (nodes new + rangePages new 0 v) k₂
              (nodes new' + rangePages new' 0 (v + 1)) := by
            apply (hm.add (rangePages new 0 v)).of_eq rfl
            rw [hr]
            abel
          have hnone' : ∀ w, v + 1 ≤ w → w < v + 1 + n → new'.map w = none := by
            intro w hlo hhi
            rw [hmap w (lt_maxPage (by omega)), if_neg (by omega)]
            exact hnone w (by omega) (by omega)
          have hrest := ih new' (v + 1) (by omega) hnone' k₂ (hmoves.sound hs)
          exact hrest.mono fun r k' h => h.step hv₀ hold (by omega) hmap hmoves

/-- `uvmcopy` copies the mapped pages below `sz`, or undoes what it did. -/
theorem uvmcopy_wp (old new : PageTable) (sz : Nat) (hsz : pageCount sz ≤ 67108864)
    (hnone : ∀ w < pageCount sz, new.map w = none) (k : Kmem) (hs : Sound k (nodes new)) :
    wp (uvmcopy old new sz) (fun r k' =>
      (r.2 = true ∧ (∀ w < maxPage, pageCount sz ≤ w → r.1.map w = new.map w) ∧
        Moves k (nodes new) k' (nodes r.1 + rangePages r.1 0 (pageCount sz))) ∨
      (r.2 = false ∧ Kept k new r.1 k')) k := by
  have h := copyLoop_wp (pageCount sz) old new 0 (by omega)
    (fun w _ hw => hnone w (by omega)) k (by rw [rangePages_zero, add_zero]; exact hs)
  rw [zero_mul] at h
  rw [uvmcopy]
  apply h.mono
  rintro ⟨new', ok⟩ k' hc
  cases ok with
  | true =>
    simp only [Copied, if_true, rangePages_zero, add_zero, Nat.zero_add] at hc
    left
    exact ⟨rfl, fun w hw hout => hc.2.1 w hw (by omega), hc.2.2⟩
  | false =>
    simp only [Copied, Bool.false_eq_true, if_false, rangePages_zero, add_zero] at hc
    right
    refine ⟨rfl, ?_, hc.2⟩
    intro w hw
    rw [hc.1 w hw, cleared, if_neg (by omega)]

/-- The address that a user access to `va` reaches, 0 if there is none. -/
def userAddr (pt : PageTable) (va : Nat) : Nat :=
  if maxva ≤ va then 0
  else
    match pt.map (va / 4096) with
    | none => 0
    | some e => if e.perm.u then e.pa else 0

theorem walkaddr_eq (pt : PageTable) (va : Nat) (k : Kmem) :
    walkaddr pt va k = .ok (userAddr pt va, k) := by
  unfold walkaddr userAddr
  by_cases hva : maxva ≤ va
  · rw [if_pos hva, if_pos hva]
    rfl
  · rw [if_neg hva, if_neg hva]
    have hw := walk_lookup pt va (by omega) k
    simp only [bind, StateT.bind, Except.bind, hw]
    cases hmap : pt.map (va / 4096) with
    | none =>
      cases pt.reaches (va / 4096) with
      | false => rfl
      | true => simp [pure, StateT.pure, Except.pure]
    | some e =>
      have hreach := reaches_of_map pt (va / 4096) e hmap
      simp [hreach, pure, StateT.pure, Except.pure]

theorem ismapped_eq (pt : PageTable) (va : Nat) (hva : va < maxva) (k : Kmem) :
    ismapped pt va k = .ok ((pt.map (va / 4096)).isSome, k) := by
  have hw := walk_lookup pt va hva k
  simp only [ismapped, bind, StateT.bind, Except.bind, hw]
  cases hmap : pt.map (va / 4096) with
  | none => simp [pure, StateT.pure, Except.pure]
  | some e =>
    have hreach := reaches_of_map pt (va / 4096) e hmap
    simp [hreach, pure, StateT.pure, Except.pure]

/-- Holes below `sz` may have been filled with new pages; nothing else changed. -/
structure Filled (k : Kmem) (sz : Nat) (own own' : PageTable) (k' : Kmem) : Prop where
  same : ∀ v < maxPage, own'.map v = own.map v ∨ v < pageCount sz ∧ own.map v = none
  moves : Moves k (nodes own + rangePages own 0 (pageCount sz)) k'
    (nodes own' + rangePages own' 0 (pageCount sz))

theorem Filled.refl (k : Kmem) (sz : Nat) (own : PageTable) : Filled k sz own own k :=
  ⟨fun _ _ => .inl rfl, Moves.refl k _⟩

theorem Filled.trans {sz : Nat} {own own' own'' : PageTable} (h : Filled k sz own own' k')
    (h' : Filled k' sz own' own'' k'') : Filled k sz own own'' k'' := by
  refine ⟨?_, h.moves.trans h'.moves⟩
  intro v hv
  rcases h.same v hv with he | he
  · rcases h'.same v hv with he' | he'
    · exact .inl (he'.trans he)
    · exact .inr ⟨he'.1, he ▸ he'.2⟩
  · exact .inr he

theorem Filled.above {sz : Nat} {own own' : PageTable} (h : Filled k sz own own' k') (v : Nat)
    (hv : v < maxPage) (hsz : pageCount sz ≤ v) : own'.map v = own.map v := by
  rcases h.same v hv with he | he
  · exact he
  · omega

/-- Filling one hole of a range adds one page to it. -/
theorem rangePages_fill (pt pt' : PageTable) (v n : Nat) (e : Pte) (hv : v < n)
    (hnone : pt.map v = none)
    (hmap : ∀ w < n, pt'.map w = if w = v then some e else pt.map w) :
    rangePages pt' 0 n = rangePages pt 0 n + {e.pa} := by
  have hn : n = v + (1 + (n - v - 1)) := by omega
  rw [hn]
  simp only [rangePages_add, rangePages_one, Nat.zero_add]
  have hlow : rangePages pt' 0 v = rangePages pt 0 v := by
    apply rangePages_congr
    intro w _ hw
    rw [hmap w (by omega), if_neg (by omega)]
  have hhigh : rangePages pt' (v + 1) (n - v - 1) = rangePages pt (v + 1) (n - v - 1) := by
    apply rangePages_congr
    intro w hlo hhi
    rw [hmap w (by omega), if_neg (by omega)]
  have hmid : leafPage (pt'.map v) = {e.pa} := by
    rw [hmap v hv, if_pos rfl]
    rfl
  have hold : leafPage (pt.map v) = 0 := by
    rw [hnone]
    rfl
  rw [hlow, hhigh, hmid, hold]
  abel

theorem vmfault_wp (sz : Nat) (own : PageTable) (va : Nat) (hsz : pageCount sz ≤ 67108862)
    (k : Kmem) (hs : Sound k (nodes own + rangePages own 0 (pageCount sz))) :
    wp (vmfault sz own own va) (fun r k' => Filled k sz own r.1 k' ∧
      (r.2 ≠ 0 → r.1.map (va / 4096) = some ⟨r.2, permRWU⟩)) k := by
  by_cases hlt : sz ≤ va
  · rw [vmfault, if_pos hlt, wp_pure]
    exact ⟨Filled.refl k sz own, by simp⟩
  · have hva : va / 4096 < pageCount sz := by
      unfold pageCount
      omega
    have hdiv : va / 4096 * 4096 / 4096 = va / 4096 := by omega
    rw [vmfault, if_neg hlt]
    simp only [wp_bind, pgrounddown, pgsize]
    apply wp_of_eq (ismapped_eq own _ (lt_maxva (by omega)) k)
    rw [hdiv]
    cases hmap : own.map (va / 4096) with
    | some e =>
      simp only [Option.isSome_some, if_true, wp_pure]
      exact ⟨Filled.refl k sz own, by simp⟩
    | none =>
      simp only [Option.isSome_none, Bool.false_eq_true, if_false, wp_bind]
      apply (kalloc_wp k).mono
      intro r k₁ hm₁
      cases r with
      | none =>
        rw [wp_pure]
        refine ⟨⟨fun _ _ => .inl rfl, ?_⟩, by simp⟩
        simpa using hm₁.add (nodes own + rangePages own 0 (pageCount sz))
      | some mem =>
        have hokm := Moves.taken_ok hs hm₁
        simp only [wp_bind, memset, wp_modify]
        apply (mapFresh_wp own (va / 4096) mem permRWU (by omega) hmap k k₁ _ hm₁).mono
        rintro ⟨own', ok⟩ k₂ ⟨hm, hmap'⟩
        cases ok with
        | false =>
          simp only [if_true, wp_bind]
          apply (kfree_back_wp mem hokm hm).mono
          intro _ k₃ hm₃
          have hsame : ∀ w < maxPage, own'.map w = own.map w := by
            intro w hw
            simpa using hmap' w hw
          have hr : rangePages own' 0 (pageCount sz) = rangePages own 0 (pageCount sz) := by
            apply rangePages_congr
            intro w _ hw
            exact hsame w (lt_maxPage (by omega))
          rw [wp_pure]
          refine ⟨⟨fun w hw => .inl (hsame w hw), ?_⟩, by simp⟩
          rw [hr]
          exact hm₃.add (rangePages own 0 (pageCount sz))
        | true =>
          simp only [true_and] at hmap'
          simp only [Bool.true_eq_false, if_false, wp_pure]
          have hr := rangePages_fill own own' (va / 4096) (pageCount sz) ⟨mem, permRWU⟩ hva hmap
            (fun w hw => hmap' w (lt_maxPage (by omega)))
          refine ⟨⟨?_, ?_⟩, ?_⟩
          · intro w hw
            by_cases hwv : w = va / 4096
            · subst hwv
              exact .inr ⟨hva, hmap⟩
            · left
              rw [hmap' w hw, if_neg hwv]
          · rw [hr]
            apply (hm.add (rangePages own 0 (pageCount sz))).of_eq rfl
            simp only
            abel
          · intro _
            rw [hmap' _ (lt_maxPage (by omega)), if_pos rfl]

theorem pgrounddown_lt {a : Nat} (h : ¬ maxva ≤ pgrounddown a) :
    pgrounddown a = a / 4096 * 4096 ∧ a / 4096 < 67108864 := by
  constructor
  · rfl
  · have hlt : a / 4096 * 4096 < 274877906944 := Nat.lt_of_not_le h
    omega

theorem userAddr_ne_zero {pt : PageTable} {v : Nat} (h : userAddr pt (v * 4096) ≠ 0) :
    ∃ e, pt.map v = some e := by
  have hdiv : v * 4096 / 4096 = v := by omega
  unfold userAddr at h
  rw [hdiv] at h
  cases hmap : pt.map v with
  | none => simp [hmap] at h
  | some e => exact ⟨e, rfl⟩

/-- The bytes of memory after `memmove`. -/
def moved (bytes : Nat → UInt8) (dst : Nat) (src : Nat → UInt8) (n : Nat) : Nat → UInt8 :=
  fun a => if dst ≤ a ∧ a < dst + n then src (a - dst) else bytes a

/-- Once the page is known to be mapped, a round of `copyout` gives up or copies
what fits on the page and moves on to the next. -/
theorem copyoutPage_moved_wp (rest : Nat → List UInt8 → KM (PageTable × Bool))
    (own pt : PageTable) (dstva : Nat) (src : List UInt8) (pa0 : Nat) (k : Kmem)
    (Q : PageTable × Bool → Kmem → Prop) (hva : ¬ maxva ≤ pgrounddown dstva)
    (hpa : pa0 ≠ 0 → ∃ e, pt.map (dstva / 4096) = some e) (hstop : Q (own, false) k)
    (hrest : pa0 ≠ 0 → wp (rest (dstva / 4096 * 4096 + 4096)
      (src.drop (min (4096 - (dstva - dstva / 4096 * 4096)) src.length))) Q
      { k with bytes := (moved k.bytes (pa0 + (dstva - dstva / 4096 * 4096))
          (fun j => src.getD j 0) (min (4096 - (dstva - dstva / 4096 * 4096)) src.length)) }) :
    wp (copyoutPage rest own pt dstva src pa0) Q k := by
  obtain ⟨hround, hpage⟩ := pgrounddown_lt hva
  have hdiv : dstva / 4096 * 4096 / 4096 = dstva / 4096 := by omega
  rw [copyoutPage, hround]
  by_cases hz : pa0 = 0
  · rw [if_pos hz, wp_pure]
    exact hstop
  · obtain ⟨e, he⟩ := hpa hz
    have hreach := reaches_of_map pt _ e he
    rw [if_neg hz]
    simp only [wp_bind]
    apply wp_of_eq (walk_lookup pt _ (lt_maxva hpage) k)
    simp only [pgsize, hdiv, hreach, he, Bool.true_eq_false, if_false]
    by_cases hw : e.perm.w = false
    · rw [if_pos hw, wp_pure]
      exact hstop
    · simp only [if_neg hw, wp_bind, memmove, wp_modify]
      exact hrest hz

/-- The same without a look at the contents. -/
theorem copyoutPage_wp (rest : Nat → List UInt8 → KM (PageTable × Bool)) (own pt : PageTable)
    (dstva : Nat) (src : List UInt8) (pa0 : Nat) (k : Kmem)
    (Q : PageTable × Bool → Kmem → Prop) (hva : ¬ maxva ≤ pgrounddown dstva)
    (hpa : pa0 ≠ 0 → ∃ e, pt.map (dstva / 4096) = some e) (hstop : Q (own, false) k)
    (hrest : ∀ bytes, wp (rest (dstva / 4096 * 4096 + 4096)
      (src.drop (min (4096 - (dstva - dstva / 4096 * 4096)) src.length))) Q
      { k with bytes := bytes }) :
    wp (copyoutPage rest own pt dstva src pa0) Q k :=
  copyoutPage_moved_wp rest own pt dstva src pa0 k Q hva hpa hstop fun _ => hrest _

/-- Writing through the caller's own page table only fills holes below `sz`. -/
theorem copyoutLoop_wp (fuel sz : Nat) (own : PageTable) (dstva : Nat) (src : List UInt8)
    (hsz : pageCount sz ≤ 67108862) (k : Kmem)
    (hs : Sound k (nodes own + rangePages own 0 (pageCount sz))) :
    wp (copyoutLoop fuel sz own none dstva src) (fun r k' => Filled k sz own r.1 k') k := by
  induction fuel generalizing own dstva src k with
  | zero =>
    rw [copyoutLoop, wp_pure]
    exact Filled.refl k sz own
  | succ fuel ih =>
    rw [copyoutLoop]
    by_cases hsrc : src = []
    · rw [if_pos hsrc, wp_pure]
      exact Filled.refl k sz own
    rw [if_neg hsrc]
    by_cases hva : maxva ≤ pgrounddown dstva
    · rw [if_pos hva, wp_pure]
      exact Filled.refl k sz own
    have hround := (pgrounddown_lt hva).1
    have hdiv : dstva / 4096 * 4096 / 4096 = dstva / 4096 := by omega
    have hcont : ∀ own₁ k₁ pa0, Filled k sz own own₁ k₁ →
        (pa0 ≠ 0 → ∃ e, own₁.map (dstva / 4096) = some e) →
        wp (copyoutPage (copyoutLoop fuel sz own₁ none) own₁ own₁ dstva src pa0)
          (fun r k' => Filled k sz own r.1 k') k₁ := by
      intro own₁ k₁ pa0 hfill hpa
      apply copyoutPage_wp _ own₁ own₁ dstva src pa0 k₁ _ hva hpa hfill
      intro bytes
      have hs₁ : Sound { k₁ with bytes := bytes } (nodes own₁ + rangePages own₁ 0 (pageCount sz)) :=
        hfill.moves.sound hs
      apply (ih own₁ _ _ _ hs₁).mono
      intro r k₂ h
      exact hfill.trans ⟨h.same, (Moves.of_bytes k₁ _ bytes).trans h.moves⟩
    rw [if_neg hva]
    simp only [wp_bind, Option.getD_none]
    apply wp_of_eq (walkaddr_eq own _ k)
    by_cases hz : userAddr own (pgrounddown dstva) = 0
    · simp only [if_pos hz, wp_bind]
      apply (vmfault_wp sz own (pgrounddown dstva) hsz k hs).mono
      rintro ⟨own₁, pa0⟩ k₁ ⟨hfill, hnew⟩
      rw [hround, hdiv] at hnew
      exact hcont own₁ k₁ pa0 hfill fun hne => ⟨_, hnew hne⟩
    · rw [if_neg hz]
      rw [hround] at hz ⊢
      exact hcont own k _ (Filled.refl k sz own) userAddr_ne_zero

theorem copyout_wp (sz : Nat) (own : PageTable) (dstva : Nat) (src : List UInt8)
    (hsz : pageCount sz ≤ 67108862) (k : Kmem)
    (hs : Sound k (nodes own + rangePages own 0 (pageCount sz))) :
    wp (copyout sz own none dstva src) (fun r k' => Filled k sz own r.1 k') k :=
  copyoutLoop_wp src.length sz own dstva src hsz k hs

/-- What is left after the first page of a copy to `d` lies within the copy. -/
theorem lt_of_next_page {d q r c v len : Nat} (hd : q * 4096 + r = d) (hc : c + r = 4096)
    (hlo : q < v) (hhi : v * 4096 < q * 4096 + 4096 + (len - min c len)) :
    v * 4096 < d + len := by
  omega

/-- Writing through another page table that maps the whole destination changes
nothing but memory contents. -/
theorem copyoutLoop_mapped_wp (fuel sz : Nat) (own pt : PageTable) (dstva : Nat)
    (src : List UInt8) (k : Kmem)
    (hmap : ∀ v, dstva < v * 4096 + 4096 → v * 4096 < dstva + src.length →
      userAddr pt (v * 4096) ≠ 0) :
    wp (copyoutLoop fuel sz own (some pt) dstva src)
      (fun r k' => r.1 = own ∧ ∃ bytes, k' = { k with bytes := bytes }) k := by
  induction fuel generalizing dstva src k with
  | zero =>
    rw [copyoutLoop, wp_pure]
    exact ⟨rfl, k.bytes, rfl⟩
  | succ fuel ih =>
    rw [copyoutLoop]
    by_cases hsrc : src = []
    · rw [if_pos hsrc, wp_pure]
      exact ⟨rfl, k.bytes, rfl⟩
    have hlen : 0 < src.length := List.length_pos_iff.mpr hsrc
    rw [if_neg hsrc]
    by_cases hva : maxva ≤ pgrounddown dstva
    · rw [if_pos hva, wp_pure]
      exact ⟨rfl, k.bytes, rfl⟩
    have hround := (pgrounddown_lt hva).1
    have hne := hmap (dstva / 4096) (by omega) (by omega)
    rw [if_neg hva]
    simp only [wp_bind, Option.getD_some]
    apply wp_of_eq (walkaddr_eq pt _ k)
    rw [hround, if_neg hne]
    apply copyoutPage_wp _ own pt dstva src _ k _ hva userAddr_ne_zero ⟨rfl, k.bytes, rfl⟩
    intro bytes
    have hmap' : ∀ v, dstva / 4096 * 4096 + 4096 < v * 4096 + 4096 →
        v * 4096 < dstva / 4096 * 4096 + 4096 +
          (src.drop (min (4096 - (dstva - dstva / 4096 * 4096)) src.length)).length →
        userAddr pt (v * 4096) ≠ 0 := by
      intro v hlo hhi
      rw [List.length_drop] at hhi
      apply hmap v
      · omega
      · have hle := Nat.div_mul_le_self dstva 4096
        exact lt_of_next_page (Nat.add_sub_of_le hle) (Nat.sub_add_cancel (by omega)) (by omega) hhi
    apply (ih _ _ { k with bytes := bytes } hmap').mono
    rintro r k' ⟨hown, bytes', hk'⟩
    exact ⟨hown, bytes', hk'⟩

end KernelUserPages
