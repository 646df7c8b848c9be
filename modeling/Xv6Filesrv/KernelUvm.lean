import Xv6Filesrv.KernelPageTable

/-!
# User address spaces

Growing, shrinking, copying and faulting in user memory: the `uvm` functions,
`vmfault` and `copyout` of `kernel/vm.c`. The pages below `pageCount sz` are the
heap of an address space of size `sz`; holes in it are pages that `sbrk` granted
and no fault has filled yet.
-/

namespace KernelUvm

open StateWp KernelPages KernelPageTable

variable {k k' k'' : Kmem} {R R' : Multiset Nat} {pt pt' : PageTable} {perm : Perm}

def permRW : Perm := ⟨true, true, false, false, rfl⟩
def permRX : Perm := ⟨true, false, true, false, rfl⟩
def permRWU : Perm := ⟨true, true, false, true, rfl⟩

theorem pgroundup_eq (sz : Nat) : pgroundup sz = pageCount sz * 4096 := by
  have he : sz + 4096 - 1 = sz + 4095 := by omega
  rw [pgroundup, pageCount, pgsize, he]

theorem pageCount_mul (v : Nat) : pageCount (v * 4096) = v := by
  unfold pageCount
  omega

theorem rangePages_add (pt : PageTable) (v a b : Nat) :
    rangePages pt v (a + b) = rangePages pt v a + rangePages pt (v + a) b := by
  simp only [rangePages, Finset.sum_range_add, Nat.add_assoc]

theorem rangePages_zero (pt : PageTable) (v : Nat) : rangePages pt v 0 = 0 := rfl

theorem rangePages_one (pt : PageTable) (v : Nat) : rangePages pt v 1 = leafPage (pt.map v) := by
  simp [rangePages]

theorem rangePages_none (pt : PageTable) (v n : Nat)
    (h : ∀ w, v ≤ w → w < v + n → pt.map w = none) : rangePages pt v n = 0 := by
  apply Finset.sum_eq_zero
  intro j hj
  rw [h (v + j) (by omega) (by have := Finset.mem_range.mp hj; omega)]
  rfl

attribute [local irreducible] rangePages

def uvmcreate : KM (Option PageTable) := do
  match ← kalloc with
  | none => pure none
  | some pa =>
    memset pa 0 pgsize
    pure (some (Table.empty pa))

def uvmdealloc (pt : PageTable) (oldsz newsz : Nat) : KM (PageTable × Nat) :=
  if oldsz ≤ newsz then pure (pt, oldsz)
  else if pgroundup newsz < pgroundup oldsz then do
    let pt ← uvmunmap pt (pgroundup newsz) ((pgroundup oldsz - pgroundup newsz) / pgsize) true
    pure (pt, newsz)
  else pure (pt, newsz)

/-- The loop of `uvmalloc`, by the number of pages still to allocate. -/
def allocLoop : Nat → PageTable → Nat → Nat → Perm → KM (PageTable × Bool)
  | 0, pt, _, _, _ => pure (pt, true)
  | n + 1, pt, a, oldsz, perm => do
    match ← kalloc with
    | none =>
      let (pt, _) ← uvmdealloc pt a oldsz
      pure (pt, false)
    | some mem =>
      memset mem 0 pgsize
      let (pt, ok) ← mappages pt a pgsize mem perm
      if ok = false then
        kfree mem
        let (pt, _) ← uvmdealloc pt a oldsz
        pure (pt, false)
      else allocLoop n pt (a + pgsize) oldsz perm

/-- `uvmalloc`; the returned size is 0 on failure. -/
def uvmalloc (pt : PageTable) (oldsz newsz : Nat) (w x : Bool) : KM (PageTable × Nat) :=
  if newsz < oldsz then pure (pt, oldsz)
  else do
    let old := pgroundup oldsz
    let (pt, ok) ← allocLoop ((newsz - old + pgsize - 1) / pgsize) pt old old ⟨true, w, x, true, rfl⟩
    pure (pt, if ok then newsz else 0)

/-- Shrinking from page boundary `v` to page boundary `v₀`. -/
theorem uvmdealloc_wp (pt : PageTable) (oldsz newsz : Nat)
    (hv : pageCount oldsz ≤ 67108864) (hlt : newsz < oldsz) (k : Kmem)
    (hs : Sound k (rangePages pt (pageCount newsz) (pageCount oldsz - pageCount newsz))) :
    wp (uvmdealloc pt oldsz newsz) (fun r k' => r.2 = newsz ∧ nodes r.1 = nodes pt ∧
      (∀ w < maxPage, r.1.map w =
        cleared pt (pageCount newsz) (pageCount oldsz - pageCount newsz) w) ∧
      Frees k (rangePages pt (pageCount newsz) (pageCount oldsz - pageCount newsz)) k') k := by
  rw [uvmdealloc, if_neg (by omega), pgroundup_eq, pgroundup_eq]
  have hle : pageCount newsz ≤ pageCount oldsz := by unfold pageCount; omega
  by_cases hp : pageCount newsz < pageCount oldsz
  · have hn : (pageCount oldsz * 4096 - pageCount newsz * 4096) / pgsize =
        pageCount oldsz - pageCount newsz := by
      simp only [pgsize]
      omega
    rw [if_pos (by omega), hn, wp_bind]
    refine (uvmunmap_free_wp pt (pageCount newsz) _ (by omega) k hs).mono ?_
    rintro pt' k' ⟨hnodes, hmap, hm⟩
    rw [wp_pure]
    exact ⟨rfl, hnodes, hmap, hm⟩
  · rw [if_neg (by omega), wp_pure]
    have he : pageCount oldsz - pageCount newsz = 0 := by omega
    rw [he, rangePages_zero]
    refine ⟨rfl, rfl, ?_, Frees.refl k⟩
    intro w _
    rw [cleared, if_neg (by omega)]

/-- Free pages plus table pages: what a growing address space can still use. -/
def budget (k : Kmem) (pt : PageTable) : Nat :=
  Multiset.card (Kmem.free k) + Multiset.card (nodes pt)

attribute [irreducible] budget

theorem Moves.card (h : Moves k R k' R') :
    Multiset.card (Kmem.free k) + Multiset.card R =
      Multiset.card (Kmem.free k') + Multiset.card R' := by
  rw [← Multiset.card_add, ← Multiset.card_add, h.total]

/-- Undoing an allocation that had reached page `v` and started at page `v₀`. -/
theorem uvmdealloc_back_wp (pt : PageTable) (v₀ v : Nat) (h₀ : v₀ ≤ v) (hv : v ≤ 67108864)
    (k : Kmem) (hs : Sound k (rangePages pt v₀ (v - v₀))) :
    wp (uvmdealloc pt (v * 4096) (v₀ * 4096)) (fun r k' => nodes r.1 = nodes pt ∧
      (∀ w < maxPage, r.1.map w = cleared pt v₀ (v - v₀) w) ∧
      Frees k (rangePages pt v₀ (v - v₀)) k') k := by
  by_cases hlt : v₀ < v
  · have h := uvmdealloc_wp pt (v * 4096) (v₀ * 4096) (by rw [pageCount_mul]; exact hv)
      (by omega) k (by rw [pageCount_mul, pageCount_mul]; exact hs)
    rw [pageCount_mul, pageCount_mul] at h
    exact h.mono fun r k' hr => hr.2
  · have he : v - v₀ = 0 := by omega
    rw [uvmdealloc, if_pos (by omega), wp_pure, he, rangePages_zero]
    refine ⟨rfl, ?_, Frees.refl k⟩
    intro w _
    rw [cleared, if_neg (by omega)]

/-- What the loop of `uvmalloc` leaves behind when `n` pages from `v` were asked
for and the pages from `v₀` to `v` had been allocated before. -/
def Grown (k : Kmem) (pt : PageTable) (v₀ v n : Nat) (perm : Perm) (L : Nat)
    (r : PageTable × Bool) (k' : Kmem) : Prop :=
  if r.2 = true then
    v + n ≤ L ∧ n ≤ budget k pt ∧
    (∀ w < maxPage, v ≤ w → w < v + n → ∃ pa, r.1.map w = some ⟨pa, perm⟩) ∧
    (∀ w < maxPage, w < v ∨ v + n ≤ w → r.1.map w = pt.map w) ∧
    Moves k (nodes pt + rangePages pt v₀ (v - v₀)) k'
      (nodes r.1 + rangePages r.1 v₀ (v + n - v₀))
  else
    (∀ w < maxPage, r.1.map w = cleared pt v₀ (v - v₀) w) ∧
    Moves k (nodes pt + rangePages pt v₀ (v - v₀)) k' (nodes r.1)

/-- Giving up: the pages taken so far are unmapped and freed. -/
theorem grown_fail (pt pt' : PageTable) (v₀ v n : Nat) (perm : Perm) (L : Nat) (h₀ : v₀ ≤ v)
    (hv : v ≤ 67108864) (k k₁ : Kmem) (hs : Sound k (nodes pt + rangePages pt v₀ (v - v₀)))
    (hmap : ∀ w < maxPage, pt'.map w = pt.map w) (hm : Moves k (nodes pt) k₁ (nodes pt')) :
    wp (uvmdealloc pt' (v * 4096) (v₀ * 4096))
      (fun r k' => Grown k pt v₀ v n perm L (r.1, false) k') k₁ := by
  have hr : rangePages pt' v₀ (v - v₀) = rangePages pt v₀ (v - v₀) := by
    apply rangePages_congr
    intro w hlo hhi
    exact hmap w (lt_maxPage (by omega))
  have hm' := hm.add (rangePages pt v₀ (v - v₀))
  have hs' : Sound k₁ (rangePages pt' v₀ (v - v₀)) := by
    rw [hr]
    exact (hm'.sound hs).mono (Multiset.le_add_left _ _)
  refine (uvmdealloc_back_wp pt' v₀ v h₀ hv k₁ hs').mono ?_
  rintro ⟨pt₂, sz⟩ k' ⟨hnodes, hmap₂, hm₂⟩
  rw [Grown, if_neg (by simp)]
  refine ⟨?_, ?_⟩
  · intro w hw
    rw [hmap₂ w hw, cleared, cleared, hmap w hw]
  · refine hm'.trans ?_
    rw [← hr]
    have h := hm₂.moves.add (nodes pt')
    rw [zero_add] at h
    exact h.of_eq (add_comm _ _) hnodes

/-- A page that `kalloc` returned is fit to be freed again. -/
theorem Moves.taken_ok {mem : Nat} (hs : Sound k R) (hm : Moves k 0 k' (pageOf (some mem))) :
    okPage k.kend mem := by
  apply hs
  have htotal : Kmem.free k = Kmem.free k' + {mem} := by simpa using hm.total
  rw [htotal]
  simp

/-- Mapping a page that was just taken from the free list and written to. -/
theorem mapFresh_wp (pt : PageTable) (v mem : Nat) (perm : Perm) (hv : v < 67108864)
    (hnone : pt.map v = none) (k k₁ : Kmem) (bytes : Nat → UInt8)
    (hm₁ : Moves k 0 k₁ (pageOf (some mem))) :
    wp (mappages pt (v * 4096) pgsize mem perm) (fun r k₂ =>
      Moves k (nodes pt) k₂ (nodes r.1 + {mem}) ∧
      ∀ w < maxPage, r.1.map w = if r.2 = true ∧ w = v then some ⟨mem, perm⟩ else pt.map w)
      { k₁ with bytes := bytes } := by
  apply (mappages_wp pt v mem perm hv hnone { k₁ with bytes := bytes }).mono
  rintro r k₂ ⟨hm₂, hmap⟩
  refine ⟨?_, hmap⟩
  have h₁ := (hm₁.trans (Moves.of_bytes k₁ _ bytes)).add (nodes pt)
  rw [zero_add, pageOf_some, add_comm] at h₁
  exact h₁.trans (hm₂.add {mem})

/-- Giving the page back when it could not be mapped. -/
theorem kfree_back_wp {N N' : Multiset Nat} (mem : Nat) (hok : okPage k.kend mem)
    (hm : Moves k N k' (N' + {mem})) : wp (kfree mem) (fun _ k'' => Moves k N k'' N') k' := by
  apply (kfree_wp k' mem (by rw [hm.fixed.1]; exact hok)).mono
  intro _ k'' hf
  have h := hf.moves.add N'
  rw [zero_add, add_comm] at h
  exact hm.trans h

/-- Page `v` has been mapped to memory from the free list, after the pages from `v₀` on. -/
structure Added (k : Kmem) (pt : PageTable) (v₀ v : Nat) (perm : Perm) (pt' : PageTable)
    (k' : Kmem) : Prop where
  entry : ∃ pa, pt'.map v = some ⟨pa, perm⟩
  same : ∀ w < maxPage, w ≠ v → pt'.map w = pt.map w
  moves : Moves k (nodes pt + rangePages pt v₀ (v - v₀)) k'
    (nodes pt' + rangePages pt' v₀ (v + 1 - v₀))
  spent : budget k' pt' + 1 = budget k pt

theorem added_of_map {v₀ v mem : Nat} (h₀ : v₀ ≤ v) (hv : v < 67108864)
    (hm : Moves k (nodes pt) k' (nodes pt' + {mem}))
    (hmap : ∀ w < maxPage, pt'.map w = if w = v then some ⟨mem, perm⟩ else pt.map w) :
    Added k pt v₀ v perm pt' k' := by
  have hentry : pt'.map v = some ⟨mem, perm⟩ := by
    rw [hmap v (lt_maxPage hv), if_pos rfl]
  have hsame : ∀ w < maxPage, w ≠ v → pt'.map w = pt.map w := by
    intro w hw hne
    rw [hmap w hw, if_neg hne]
  have hrange : rangePages pt' v₀ (v + 1 - v₀) = rangePages pt v₀ (v - v₀) + {mem} := by
    rw [show v + 1 - v₀ = (v - v₀) + 1 by omega, rangePages_add, rangePages_one,
      show v₀ + (v - v₀) = v by omega, hentry, rangePages_congr pt pt']
    · rfl
    · intro w hlo hhi
      exact hsame w (lt_maxPage (by omega)) (by omega)
  refine ⟨⟨mem, hentry⟩, hsame, ?_, ?_⟩
  · refine (hm.add (rangePages pt v₀ (v - v₀))).of_eq rfl ?_
    rw [hrange]
    abel
  · have h := Moves.card hm
    simp only [Multiset.card_add, Multiset.card_singleton] at h
    unfold budget
    omega

/-- One page, and then the rest of the loop. -/
theorem Added.grown {v₀ v n L : Nat} {k₁ : Kmem} {r : PageTable × Bool}
    (h : Added k pt v₀ v perm pt' k₁) (h₀ : v₀ ≤ v) (hnone : pt.map v = none)
    (hg : Grown k₁ pt' v₀ (v + 1) n perm L r k') :
    Grown k pt v₀ v (n + 1) perm L r k' := by
  obtain ⟨pa, hentry⟩ := h.entry
  have hspent := h.spent
  obtain ⟨pt₂, ok⟩ := r
  cases ok with
  | false =>
    simp only [Grown, Bool.false_eq_true, if_false] at hg ⊢
    refine ⟨fun w hw => ?_, h.moves.trans hg.2⟩
    rw [hg.1 w hw]
    unfold cleared
    by_cases hwv : w = v
    · subst hwv
      rw [if_pos (by omega), if_neg (by omega)]
      exact hnone.symm
    · by_cases hin : v₀ ≤ w ∧ w < v₀ + (v - v₀)
      · rw [if_pos hin, if_pos (by omega)]
      · rw [if_neg hin, if_neg (by omega), h.same w hw hwv]
  | true =>
    simp only [Grown, if_true] at hg ⊢
    obtain ⟨hle, hn, hnew, hold, hmoves⟩ := hg
    refine ⟨by omega, by omega, fun w hw hlo hhi => ?_, fun w hw hout => ?_, ?_⟩
    · by_cases hwv : w = v
      · subst hwv
        exact ⟨pa, by rw [hold w hw (by omega), hentry]⟩
      · exact hnew w hw (by omega) (by omega)
    · rw [hold w hw (by omega), h.same w hw (by omega)]
    · rw [show v + (n + 1) - v₀ = v + 1 + n - v₀ by omega]
      exact h.moves.trans hmoves

theorem allocLoop_wp (n : Nat) (pt : PageTable) (v₀ v L : Nat) (perm : Perm) (h₀ : v₀ ≤ v)
    (hvL : v ≤ L) (hL : L ≤ 67108864) (hnone : ∀ w, v ≤ w → w < L → pt.map w = none)
    (k : Kmem) (hlim : v + n ≤ L ∨ v + budget k pt ≤ L)
    (hs : Sound k (nodes pt + rangePages pt v₀ (v - v₀))) :
    wp (allocLoop n pt (v * 4096) (v₀ * 4096) perm)
      (fun r k' => Grown k pt v₀ v n perm L r k') k := by
  induction n generalizing pt v k with
  | zero =>
    rw [allocLoop, wp_pure, Grown, if_pos rfl]
    refine ⟨by omega, by omega, ?_, ?_, Moves.refl k _⟩
    · intro w _ hlo hhi
      omega
    · intro w _ _
      rfl
  | succ n ih =>
    rw [allocLoop, wp_bind]
    refine (kalloc_wp k).mono ?_
    intro r k₁ hm₁
    cases r with
    | none =>
      simp only [wp_bind, wp_pure]
      have hm : Moves k (nodes pt) k₁ (nodes pt) := by simpa using hm₁.add (nodes pt)
      exact grown_fail pt pt v₀ v (n + 1) perm L h₀ (by omega) k k₁ hs (fun _ _ => rfl) hm
    | some mem =>
      have hcard := Moves.card hm₁
      simp only [Multiset.card_zero, pageOf_some, Multiset.card_singleton] at hcard
      have hlt : v < L := by
        unfold budget at hlim
        omega
      have hfree := hnone v (le_refl v) hlt
      simp only [wp_bind, memset, wp_modify]
      apply (mapFresh_wp pt v mem perm (by omega) hfree k k₁ _ hm₁).mono
      rintro ⟨pt', ok⟩ k₂ ⟨hm, hmap⟩
      cases ok with
      | false =>
        simp only [if_true, wp_bind, wp_pure]
        apply (kfree_back_wp mem (Moves.taken_ok hs hm₁) hm).mono
        intro _ k₃ hm₃
        exact grown_fail pt pt' v₀ v (n + 1) perm L h₀ (by omega) k k₃ hs
          (fun w hw => by simpa using hmap w hw) hm₃
      | true =>
        simp only [Bool.true_eq_false, if_false]
        have hadded : Added k pt v₀ v perm pt' k₂ :=
          added_of_map h₀ (by omega) hm fun w hw => by simpa using hmap w hw
        have hspent := hadded.spent
        have hnext : v * 4096 + pgsize = (v + 1) * 4096 := by simp only [pgsize]; omega
        rw [hnext]
        refine (ih pt' (v + 1) (by omega) (by omega) ?_ k₂ (by omega)
          (hadded.moves.sound hs)).mono fun r k₃ => hadded.grown h₀ hfree
        intro w hlo hhi
        rw [hadded.same w (lt_maxPage (by omega)) (by omega)]
        exact hnone w (by omega) hhi

/-- The pages from `a` to `b` have been mapped to memory taken from the free list. -/
structure Extended (k : Kmem) (pt : PageTable) (perm : Perm) (a b : Nat) (pt' : PageTable)
    (k' : Kmem) : Prop where
  fresh : ∀ v, a ≤ v → v < b → ∃ pa, pt'.map v = some ⟨pa, perm⟩
  same : ∀ v < maxPage, v < a ∨ b ≤ v → pt'.map v = pt.map v
  moves : Moves k (nodes pt) k' (nodes pt' + rangePages pt' a (b - a))

/-- No leaf entry has changed; table pages may have been added. -/
structure Kept (k : Kmem) (pt pt' : PageTable) (k' : Kmem) : Prop where
  same : ∀ v < maxPage, pt'.map v = pt.map v
  moves : Moves k (nodes pt) k' (nodes pt')

theorem uvmalloc_wp (pt : PageTable) (oldsz newsz : Nat) (w x : Bool) (L : Nat)
    (hle : oldsz ≤ newsz) (h₀ : pageCount oldsz ≤ L) (hL : L ≤ 67108864)
    (hnone : ∀ v, pageCount oldsz ≤ v → v < L → pt.map v = none) (k : Kmem)
    (hlim : pageCount newsz ≤ L ∨ pageCount oldsz + budget k pt ≤ L) (hs : Sound k (nodes pt)) :
    wp (uvmalloc pt oldsz newsz w x) (fun r k' =>
      (r.2 = newsz ∧ pageCount newsz ≤ L ∧
        Extended k pt ⟨true, w, x, true, rfl⟩ (pageCount oldsz) (pageCount newsz) r.1 k') ∨
      (r.2 = 0 ∧ Kept k pt r.1 k')) k := by
  have hcount : pageCount oldsz + (newsz - pageCount oldsz * 4096 + pgsize - 1) / pgsize =
      pageCount newsz := by
    simp only [pageCount, pgsize]
    omega
  rw [uvmalloc, if_neg (by omega), pgroundup_eq, wp_bind]
  generalize (newsz - pageCount oldsz * 4096 + pgsize - 1) / pgsize = n at hcount
  have hs' :
      Sound k (nodes pt + rangePages pt (pageCount oldsz) (pageCount oldsz - pageCount oldsz)) := by
    rw [Nat.sub_self, rangePages_zero, add_zero]
    exact hs
  apply (allocLoop_wp n pt (pageCount oldsz) (pageCount oldsz) L ⟨true, w, x, true, rfl⟩ (le_refl _)
    h₀ hL hnone k (by omega) hs').mono
  rintro ⟨pt', ok⟩ k' hg
  rw [wp_pure]
  cases ok with
  | false =>
    simp only [Grown, Bool.false_eq_true, if_false, Nat.sub_self, rangePages_zero, add_zero] at hg
    right
    constructor
    · rfl
    · constructor
      · intro v hv
        rw [hg.1 v hv, cleared, if_neg (by omega)]
      · exact hg.2
  | true =>
    simp only [Grown, if_true, Nat.sub_self, rangePages_zero, add_zero, hcount] at hg
    obtain ⟨hmax, -, hnew, hold, hm⟩ := hg
    left
    refine ⟨rfl, hmax, ?_, hold, hm⟩
    intro v hlo hhi
    exact hnew v (lt_maxPage (by omega)) hlo hhi

/-- An allocation seen from the whole heap. -/
theorem Extended.grow {a b : Nat} (hab : a ≤ b) (hb : b ≤ 67108864)
    (h : Extended k pt perm a b pt' k') :
    Moves k (nodes pt + rangePages pt 0 a) k' (nodes pt' + rangePages pt' 0 b) := by
  have hlow : rangePages pt' 0 a = rangePages pt 0 a := by
    apply rangePages_congr
    intro v _ hv
    exact h.same v (lt_maxPage (by omega)) (.inl (by omega))
  have hsplit : rangePages pt' 0 b = rangePages pt 0 a + rangePages pt' a (b - a) := by
    rw [← hlow]
    have he := rangePages_add pt' 0 a (b - a)
    rw [Nat.zero_add, Nat.add_sub_cancel' hab] at he
    exact he
  refine (h.moves.add (rangePages pt 0 a)).of_eq rfl ?_
  rw [hsplit]
  abel

theorem Kept.grow {a : Nat} (ha : a ≤ 67108864) (h : Kept k pt pt' k') :
    Moves k (nodes pt + rangePages pt 0 a) k' (nodes pt' + rangePages pt' 0 a) := by
  have hrange : rangePages pt' 0 a = rangePages pt 0 a := by
    apply rangePages_congr
    intro v _ hv
    exact h.same v (lt_maxPage (by omega))
  rw [hrange]
  exact h.moves.add (rangePages pt 0 a)

/-- Each page that an allocation maps is one page less to allocate. -/
theorem Extended.budget_eq {a b : Nat} (hab : a ≤ b) (h : Extended k pt perm a b pt' k') :
    b + budget k' pt' = a + budget k pt := by
  have hcard : ∀ n, a + n ≤ b → Multiset.card (rangePages pt' a n) = n := by
    intro n hn
    induction n with
    | zero => simp [rangePages_zero]
    | succ n ih =>
      obtain ⟨pa, hpa⟩ := h.fresh (a + n) (by omega) (by omega)
      rw [rangePages_add, rangePages_one, hpa, Multiset.card_add, ih (by omega)]
      rfl
  have hm := Moves.card h.moves
  rw [Multiset.card_add, hcard (b - a) (by omega)] at hm
  unfold budget
  omega

theorem Kept.budget_eq (h : Kept k pt pt' k') :
    budget k' pt' = budget k pt := by
  have hm := Moves.card h.moves
  unfold budget
  omega

end KernelUvm
