import Xv6Filesrv.KernelMemInv

/-!
# Shared-memory operations keep the memory invariant

Attaching, detaching, creating and releasing segments, and creating and freeing
whole address spaces. The single lemma `MemInv.update_seg` says what a change to
one segment and one address space has to respect; each operation is an instance.
-/

namespace KernelShmInv

open StateWp KernelPages KernelPageTable KernelUvm KernelShm
open KernelMemInv
open Function (update update_idem update_of_ne update_self)

attribute [local irreducible] rangePages

variable {ram : Ram} {m m' : Mem} {p : Slot} {i : SegId} {k' : Kmem} {shm : SegId → Shmseg}
  {tramp : Nat} {pt : PageTable} {s : Space}

/-- Changing a segment does not disturb an address space that sees the same pages. -/
theorem Layout.update_seg (g : Shmseg) (h : Layout tramp shm s)
    (hsame : s.shmVa i ≠ 0 → g.used = true ∧ g.npages = (shm i).npages ∧ g.pa = (shm i).pa) :
    Layout tramp (update shm i g) s := by
  unfold Layout at h ⊢
  split
  · next hpt =>
    rw [hpt] at h
    exact h
  · next pt hpt =>
    rw [hpt] at h
    refine ⟨h.size, ?_, ?_⟩
    · intro v hv hge
      rw [h.above v hv hge]
      symm
      apply window_congr
      · intro j
        rfl
      · intro j hj
        by_cases hji : j = i
        · subst hji
          simpa using (hsame hj).2
        · simp [hji]
    · intro j hj
      obtain ⟨hused, hbase, hapart⟩ := h.attached j hj
      refine ⟨?_, hbase, hapart⟩
      by_cases hji : j = i
      · subst hji
        simpa using (hsame hj).1
      · simpa [hji] using hused

/-- Changing segment `i` and address space `p` together. -/
theorem MemInv.update_seg (h : MemInv ram m) (s : Space) (g : Shmseg)
    (hm : Moves m.kmem (spacePages (m.space p) + segPages (m.shm i)) k'
      (spacePages s + segPages g))
    (hkey : g.used = true → ∀ j, j ≠ i → (m.shm j).used = true → (m.shm j).key ≠ g.key)
    (hcount : g.used = true → 1 ≤ g.npages ∧ g.npages ≤ 4)
    (hrefs : g.used = true → g.refcount = attachCount (update m.space p s) i)
    (hva : ∀ j, j ≠ i → (s.shmVa j ≠ 0 ↔ (m.space p).shmVa j ≠ 0))
    (hl : Layout ram.tramp (update m.shm i g) s)
    (hothers : ∀ q, q ≠ p → (m.space q).shmVa i ≠ 0 →
      g.used = true ∧ g.npages = (m.shm i).npages ∧ g.pa = (m.shm i).pa) :
    MemInv ram ⟨k', update m.shm i g, update m.space p s⟩ := by
  refine ⟨⟨hm.fixed.1.trans h.fixed.1, hm.fixed.2.trans h.fixed.2⟩, ?_, ?_, ?_, ?_, ?_, ?_⟩
  · apply add_right_cancel (b := spacePages (m.space p) + segPages (m.shm i))
    have hsp := StateWp.sum_update Finset.univ spacePages m.space p s (Finset.mem_univ p)
    have hsg := StateWp.sum_update Finset.univ segPages m.shm i g (Finset.mem_univ i)
    calc Kmem.free k' + ∑ j, segPages (update m.shm i g j) +
          ∑ q, spacePages (update m.space p s q) +
          (spacePages (m.space p) + segPages (m.shm i))
        = Kmem.free k' + (∑ j, segPages (update m.shm i g j) + segPages (m.shm i)) +
          (∑ q, spacePages (update m.space p s q) + spacePages (m.space p)) := by abel
      _ = (Kmem.free k' + (spacePages s + segPages g)) + ∑ j, segPages (m.shm j) +
          ∑ q, spacePages (m.space q) := by rw [hsp, hsg]; abel
      _ = ram.pages + (spacePages (m.space p) + segPages (m.shm i)) := by
          rw [← hm.total, ← h.owned]
          abel
  · intro j l hj hl' hkeys
    by_cases hji : j = i
    · by_cases hli : l = i
      · rw [hji, hli]
      · subst hji
        simp only [update_self, update_of_ne hli] at hj hl' hkeys
        exact absurd hkeys.symm (hkey hj l hli hl')
    · by_cases hli : l = i
      · subst hli
        simp only [update_self, update_of_ne hji] at hj hl' hkeys
        exact absurd hkeys (hkey hl' j hji hj)
      · simp only [update_of_ne hji, update_of_ne hli] at hj hl' hkeys
        exact h.keys j l hj hl' hkeys
  · intro j hj
    by_cases hji : j = i
    · subst hji
      simp only [update_self] at hj ⊢
      exact hcount hj
    · simp only [update_of_ne hji] at hj ⊢
      exact h.count j hj
  · intro j hj
    by_cases hji : j = i
    · subst hji
      simp only [update_self] at hj ⊢
      exact hrefs hj
    · simp only [update_of_ne hji] at hj ⊢
      have hattach : attach j s = attach j (m.space p) := by simp only [attach, hva j hji]
      have hc := attachCount_update m.space p s j
      rw [hattach] at hc
      rw [h.refs j hj, Nat.add_right_cancel hc]
  · intro q
    by_cases hq : q = p
    · subst hq
      simpa using hl
    · simp only [update_of_ne hq]
      exact Layout.update_seg g (h.layout q) (hothers q hq)
  · intro x hx
    rcases hm.torn x hx with hx | hx
    · exact h.torn x hx
    · exact hx

theorem basePage_add_le (i : SegId) {n : Nat} (hn : n ≤ 4) : basePage i + n ≤ 67108862 := by
  unfold basePage
  omega

/-- A process that is attached to something has a page table. -/
theorem MemInv.attached_table (h : MemInv ram m) (hva : (m.space p).shmVa i ≠ 0) :
    ∃ pt, (m.space p).pagetable = some pt := by
  have hl := h.layout p
  unfold Layout at hl
  split at hl
  · exact absurd (hl.2 i) hva
  · next pt hpt => exact ⟨pt, hpt⟩

theorem MemInv.refcount_pos (h : MemInv ram m) (hused : (m.shm i).used = true)
    (hva : (m.space p).shmVa i ≠ 0) : 1 ≤ (m.shm i).refcount := by
  rw [h.refs i hused]
  have hpos : 0 < attachCount m.space i :=
    Finset.card_pos.mpr ⟨p, Finset.mem_filter.mpr ⟨Finset.mem_univ p, hva⟩⟩
  omega

/-- With one reference left, its holder is the only process attached. -/
theorem MemInv.sole (h : MemInv ram m) (hused : (m.shm i).used = true)
    (hone : (m.shm i).refcount = 1) (hva : (m.space p).shmVa i ≠ 0) {q : Slot} (hq : q ≠ p) :
    (m.space q).shmVa i = 0 := by
  by_contra hne
  have hcard : attachCount m.space i = 1 := by
    have := h.refs i hused
    omega
  obtain ⟨r, hr⟩ := Finset.card_eq_one.mp hcard
  have hmem : ∀ x, (m.space x).shmVa i ≠ 0 → x = r := by
    intro x hx
    have hx' : x ∈ Finset.univ.filter fun p => (m.space p).shmVa i ≠ 0 :=
      Finset.mem_filter.mpr ⟨Finset.mem_univ x, hx⟩
    rw [hr] at hx'
    exact Finset.mem_singleton.mp hx'
  exact hq ((hmem q hne).trans (hmem p hva).symm)

theorem MemInv.refs_detach (h : MemInv ram m) (hused : (m.shm i).used = true)
    (hva : (m.space p).shmVa i ≠ 0) (pt : PageTable) :
    (m.shm i).refcount - 1 =
      attachCount (update m.space p ((m.space p).put pt i 0)) i := by
  have hc := attachCount_update m.space p ((m.space p).put pt i 0) i
  have h₁ : attach i (m.space p) = 1 := if_pos hva
  have h₀ : attach i ((m.space p).put pt i 0) = 0 := by simp [attach]
  have hr := h.refs i hused
  rw [h₁, h₀] at hc
  omega

theorem MemInv.refs_attach (h : MemInv ram m) (hused : (m.shm i).used = true)
    (hva : (m.space p).shmVa i = 0) (pt : PageTable) {va : Nat} (hne : va ≠ 0) :
    (m.shm i).refcount + 1 =
      attachCount (update m.space p ((m.space p).put pt i va)) i := by
  have hc := attachCount_update m.space p ((m.space p).put pt i va) i
  have h₀ : attach i (m.space p) = 0 := if_neg (by simp [hva])
  have h₁ : attach i ((m.space p).put pt i va) = 1 := by simp [attach, hne]
  have hr := h.refs i hused
  rw [h₀, h₁] at hc
  omega

theorem freePages_wp (l : List Nat) (k : Kmem) (hs : Sound k (l : Multiset Nat)) :
    wp (freePages l) (fun _ k' => Frees k (l : Multiset Nat) k') k := by
  induction l generalizing k with
  | nil =>
    rw [freePages, List.forM_nil, wp_pure]
    exact Frees.refl k
  | cons x l ih =>
    rw [freePages, List.forM_cons, wp_bind]
    rw [← Multiset.cons_coe, ← Multiset.singleton_add] at hs ⊢
    apply (kfree_wp k x (hs.ok (by simp))).mono
    intro _ k₁ hf
    apply (ih k₁ (hf.sound hs)).mono
    intro _ k₂ hf₂
    exact hf.trans hf₂

theorem segPages_used {s : Shmseg} (h : s.used = true) :
    segPages s = ((List.range s.npages).map s.pa : List Nat) := by
  rw [segPages, if_pos h]

theorem mem_segPages {s : Shmseg} {j : Nat} (hu : s.used = true) (hj : j < s.npages) :
    s.pa j ∈ segPages s := by
  rw [segPages_used hu]
  exact Multiset.mem_coe.mpr (List.mem_map.mpr ⟨j, List.mem_range.mpr hj, rfl⟩)

theorem MemInv.sound_seg (h : MemInv ram m) (i : SegId) : Sound m.kmem (segPages (m.shm i)) := by
  intro x hx
  rw [h.fixed.1]
  apply ram.ok
  apply h.mem_ram
  rcases Multiset.mem_add.mp hx with hx | hx
  · exact .inl hx
  · exact .inr (.inl ⟨i, hx⟩)

/-- Process `p` has left segment `i`, which is released if that was the last reference. -/
structure Detached (m : Mem) (p : Slot) (i : SegId) (m' : Mem) : Prop where
  others : ∀ q, q ≠ p → m'.space q = m.space q
  space : ∃ pt, m'.space p = (m.space p).put pt i 0
  segs : ∀ j, j ≠ i → m'.shm j = m.shm j
  seg : (m'.shm i = { m.shm i with refcount := (m.shm i).refcount - 1 } ∧ m'.kmem = m.kmem) ∨
    ((m.shm i).refcount = 1 ∧ m'.shm i = (m.shm i).reset ∧
      Frees m.kmem (segPages (m.shm i)) m'.kmem)

/-- The page table after detaching, before the segment's record is touched. -/
theorem Mapped.detach {pt pt' : PageTable} (h : Mapped tramp shm s pt) (hn : (shm i).npages ≤ 4)
    (hcl : ∀ w < maxPage, pt'.map w = cleared pt (basePage i) (shm i).npages w) :
    Mapped tramp shm (s.put pt' i 0) pt' := by
  refine ⟨h.size, ?_, ?_⟩
  · intro v hv hge
    rw [hcl v hv, cleared, h.above v hv hge, window_update]
    by_cases hin : basePage i ≤ v ∧ v < basePage i + (shm i).npages
    · rw [if_pos hin, if_pos (by omega), if_neg (by simp)]
    · rw [if_neg hin]
      by_cases hplace : basePage i ≤ v ∧ v < basePage i + 4
      · have hb := segOf_base i (v - basePage i) (by omega)
        rw [Nat.add_sub_cancel' hplace.1] at hb
        rw [if_pos hplace, if_neg (by simp), window, hb]
        exact if_neg (by omega)
      · rw [if_neg hplace]
  · intro j hj
    by_cases hji : j = i
    · subst hji
      simp at hj
    · simp only [update_of_ne hji] at hj ⊢
      exact h.attached j hj

theorem shmDetach_wp (h : MemInv ram m) (hva : (m.space p).shmVa i ≠ 0) :
    wp (shmDetach p i) (fun _ m' => MemInv ram m' ∧ Detached m p i m') m := by
  obtain ⟨pt, hpt⟩ := MemInv.attached_table h hva
  have hmap := h.mapped hpt
  obtain ⟨hused, hbase, hapart⟩ := hmap.attached i hva
  obtain ⟨-, hn⟩ := h.count i hused
  have hpos := MemInv.refcount_pos h hused hva
  have hfit := basePage_add_le i hn
  simp only [shmDetach, wp_bind, wp_get, wp_ownTable _ hpt, wp_onKmem, wp_setTable, wp_setSpace,
    update_self, update_idem]
  rw [hbase, shmBase_eq]
  apply (uvmunmap_wp pt (basePage i) _ (by omega) m.kmem).mono
  rintro pt' k₁ ⟨hnodes, hcl, rfl⟩
  have hmap' := Mapped.detach hmap hn hcl
  have hrange : rangePages pt' 0 (pageCount (m.space p).sz) =
      rangePages pt 0 (pageCount (m.space p).sz) := by
    apply rangePages_congr
    intro w _ hw
    rw [hcl w (lt_maxPage (by omega)), cleared, if_neg (by omega)]
  have hpages : spacePages ((m.space p).put pt' i 0) =
      spacePages (m.space p) := by
    rw [spacePages, spacePages, tablePages, tablePages, hpt]
    simp only [Option.elim_some, hnodes, hrange]
  have hsame : ∀ j, j ≠ i →
      ((update (m.space p).shmVa i 0) j ≠ 0 ↔ (m.space p).shmVa j ≠ 0) := by
    intro j hj
    rw [update_of_ne hj]
  have hothers : ∀ q, q ≠ p → update m.space p ((m.space p).put pt' i 0) q = m.space q :=
    fun q hq => update_of_ne hq _ _
  by_cases hlast : (m.shm i).refcount - 1 ≤ 0
  · have hone : (m.shm i).refcount = 1 := by omega
    rw [if_pos hlast]
    simp only [wp_bind, wp_onKmem, wp_setSeg]
    have hs := MemInv.sound_seg h i
    rw [segPages_used hused] at hs
    apply (freePages_wp _ m.kmem hs).mono
    intro _ k₂ hf
    rw [← segPages_used hused] at hf
    constructor
    · apply MemInv.update_seg h
      · have hm := hf.moves.add (spacePages (m.space p))
        refine hm.of_eq (add_comm _ _) ?_
        rw [hpages, zero_add]
        exact add_zero _
      · simp [Shmseg.reset]
      · simp [Shmseg.reset]
      · simp [Shmseg.reset]
      · exact hsame
      · apply Layout.update_seg
        · exact hmap'
        · intro hi
          simp at hi
      · intro q hq hqi
        exact absurd (MemInv.sole h hused hone hva hq) hqi
    · refine ⟨hothers, ⟨pt', by simp⟩, ?_, .inr ⟨hone, by simp, hf⟩⟩
      intro j hj
      simp [hj]
  · rw [if_neg hlast, wp_setSeg]
    constructor
    · apply MemInv.update_seg h
      · apply (Moves.refl m.kmem _).of_eq rfl
        rw [hpages]
        rfl
      · intro _ j hj hju hkeys
        exact hj (h.keys j i hju hused hkeys)
      · intro _
        exact h.count i hused
      · intro _
        exact MemInv.refs_detach h hused hva pt'
      · exact hsame
      · apply Layout.update_seg
        · exact hmap'
        · intro hi
          simp at hi
      · intro q _ _
        exact ⟨hused, rfl, rfl⟩
    · refine ⟨hothers, ⟨pt', by simp⟩, ?_, .inl ⟨by simp, rfl⟩⟩
      intro j hj
      simp [hj]

theorem undoAttach_wp (n : Nat) (pt : PageTable) (v : Nat) (hv : v + n ≤ 67108864) (k : Kmem) :
    wp (undoAttach n pt (v * 4096)) (fun pt' k' => nodes pt' = nodes pt ∧
      (∀ w < maxPage, pt'.map w = cleared pt v n w) ∧ k' = k) k := by
  induction n generalizing pt v with
  | zero =>
    rw [undoAttach, wp_pure]
    refine ⟨rfl, ?_, rfl⟩
    intro w _
    rw [cleared, if_neg (by omega)]
  | succ n ih =>
    have hnext : v * 4096 + pgsize = (v + 1) * 4096 := by simp only [pgsize]; omega
    rw [undoAttach, wp_bind, hnext]
    apply (uvmunmap_wp pt v 1 (by omega) k).mono
    rintro pt₁ k₁ ⟨hnodes, hcl, rfl⟩
    apply (ih pt₁ (v + 1) (by omega)).mono
    rintro pt₂ k₂ ⟨hnodes₂, hcl₂, rfl⟩
    refine ⟨hnodes₂.trans hnodes, ?_, rfl⟩
    intro w hw
    rw [hcl₂ w hw, cleared, hcl w hw, cleared, cleared]
    by_cases hin : v ≤ w ∧ w < v + (n + 1)
    · rw [if_pos hin]
      by_cases hwv : w = v
      · rw [if_neg (by omega), if_pos (by omega)]
      · rw [if_pos (by omega)]
    · rw [if_neg hin, if_neg (by omega), if_neg (by omega)]

/-- The outcome of mapping `n` more pages of a segment at page `b`, after the
first `j`: all of them, or none of it is left. -/
def Attaching (k : Kmem) (pt : PageTable) (b : Nat) (pa : Nat → Nat) (j n : Nat)
    (r : PageTable × Bool) (k' : Kmem) : Prop :=
  Moves k (nodes pt) k' (nodes r.1) ∧
  ∀ w < maxPage, r.1.map w =
    if r.2 = true then
      if b + j ≤ w ∧ w < b + j + n then some ⟨pa (w - b), permRWU⟩ else pt.map w
    else cleared pt b j w

theorem attachLoop_wp (n : Nat) (pt : PageTable) (b : Nat) (pa : Nat → Nat) (j : Nat)
    (hb : b + j + n ≤ 67108864) (hnone : ∀ w, b + j ≤ w → w < b + j + n → pt.map w = none)
    (k : Kmem) :
    wp (attachLoop n pt (b * 4096) pa j) (fun r k' => Attaching k pt b pa j n r k') k := by
  induction n generalizing pt j k with
  | zero =>
    rw [attachLoop, wp_pure]
    refine ⟨Moves.refl k _, ?_⟩
    intro w _
    rw [if_pos rfl, if_neg (by omega)]
  | succ n ih =>
    have hva : b * 4096 + j * pgsize = (b + j) * 4096 := by simp only [pgsize]; omega
    have hfree := hnone (b + j) (le_refl _) (by omega)
    rw [attachLoop, wp_bind, hva]
    apply (mappages_wp pt (b + j) (pa j) permRWU (by omega) hfree k).mono
    rintro ⟨pt₁, ok⟩ k₁ ⟨hm₁, hmap₁⟩
    cases ok with
    | false =>
      simp only [if_true, wp_bind]
      apply (undoAttach_wp j pt₁ b (by omega) k₁).mono
      rintro pt₂ k₂ ⟨hnodes, hcl, rfl⟩
      rw [wp_pure]
      constructor
      · exact hm₁.of_eq rfl hnodes
      · intro w hw
        have hkeep : pt₁.map w = pt.map w := by simpa using hmap₁ w hw
        rw [if_neg (by simp), hcl w hw, cleared, cleared, hkeep]
    | true =>
      simp only [true_and] at hmap₁
      simp only [Bool.true_eq_false, if_false]
      have hnone₁ : ∀ w, b + (j + 1) ≤ w → w < b + (j + 1) + n → pt₁.map w = none := by
        intro w hlo hhi
        rw [hmap₁ w (lt_maxPage (by omega)), if_neg (by omega)]
        exact hnone w (by omega) (by omega)
      apply (ih pt₁ (j + 1) (by omega) hnone₁ k₁).mono
      rintro ⟨pt₂, ok⟩ k₂ ⟨hm₂, hmap₂⟩
      refine ⟨hm₁.trans hm₂, ?_⟩
      intro w hw
      rw [hmap₂ w hw]
      cases ok with
      | true =>
        simp only [if_true]
        by_cases hwj : w = b + j
        · subst hwj
          rw [if_neg (by omega), if_pos (by omega), hmap₁ _ hw, if_pos rfl,
            Nat.add_sub_cancel_left]
        · by_cases hin : b + (j + 1) ≤ w ∧ w < b + (j + 1) + n
          · rw [if_pos hin, if_pos (by omega)]
          · rw [if_neg hin, if_neg (by omega), hmap₁ w hw, if_neg hwj]
      | false =>
        simp only [Bool.false_eq_true, if_false, cleared]
        by_cases hwj : w = b + j
        · subst hwj
          rw [if_pos (by omega), if_neg (by omega), hfree]
        · by_cases hin : b ≤ w ∧ w < b + j
          · rw [if_pos hin, if_pos (by omega)]
          · rw [if_neg hin, if_neg (by omega), hmap₁ w hw, if_neg hwj]

/-- The effect of a system call of `p` on the address spaces: no other one
changes, and the size of `p` stays. -/
structure SpaceKept (m : Mem) (p : Slot) (m' : Mem) : Prop where
  others : ∀ q, q ≠ p → m'.space q = m.space q
  size : (m'.space p).sz = (m.space p).sz
  table : (m'.space p).pagetable.isSome = (m.space p).pagetable.isSome

theorem SpaceKept.refl (m : Mem) (p : Slot) : SpaceKept m p m := ⟨fun _ _ => rfl, rfl, rfl⟩

theorem SegFreed.refl (m : Mem) : SegFreed m m := by
  refine ⟨[], rfl, ?_⟩
  intro i hi
  exact .inl ⟨hi, rfl, rfl, rfl, by simp⟩

/-- The pages where segment `i` would go are unmapped when `p` is not attached to
it and its heap stays below. -/
theorem Mapped.place_free (h : Mapped tramp shm s pt) (hva : s.shmVa i = 0)
    (hclear : pageCount s.sz ≤ basePage i) {w : Nat} (hlo : basePage i ≤ w)
    (hhi : w < basePage i + 4) : pt.map w = none := by
  have hb := segOf_base i (w - basePage i) (by omega)
  rw [Nat.add_sub_cancel' hlo] at hb
  have hmax := basePage_add_le i (le_refl 4)
  rw [h.above w (lt_maxPage (by omega)) (by omega), window, hb]
  simp [hva]

theorem basePage_ne_zero (i : SegId) : basePage i * 4096 ≠ 0 := by
  have := i.isLt
  unfold basePage
  omega

/-- The pages of segment `i` are mapped at its place. -/
theorem Mapped.attach {pt pt' : PageTable} (h : Mapped tramp shm s pt) (hused : (shm i).used = true)
    (hn : (shm i).npages ≤ 4) (hva : s.shmVa i = 0) (hclear : pageCount s.sz ≤ basePage i)
    (hmap : ∀ w < maxPage, pt'.map w =
      if basePage i ≤ w ∧ w < basePage i + (shm i).npages then
        some ⟨(shm i).pa (w - basePage i), permRWU⟩
      else pt.map w) :
    Mapped tramp shm (s.put pt' i (basePage i * 4096)) pt' := by
  refine ⟨h.size, ?_, ?_⟩
  · intro v hv hge
    rw [hmap v hv, window_update]
    by_cases hplace : basePage i ≤ v ∧ v < basePage i + 4
    · rw [if_pos hplace]
      by_cases hin : v - basePage i < (shm i).npages
      · rw [if_pos (by omega), if_pos ⟨basePage_ne_zero i, hin⟩]
      · rw [if_neg (by omega), if_neg (by simp [hin])]
        exact Mapped.place_free h hva hclear hplace.1 hplace.2
    · rw [if_neg hplace, if_neg (by omega)]
      exact h.above v hv hge
  · intro j hj
    by_cases hji : j = i
    · subst hji
      simp only [update_self]
      exact ⟨hused, (shmBase_eq j).symm, hclear⟩
    · simp only [update_of_ne hji] at hj ⊢
      exact h.attached j hj

/-- Segment `i` is attached to `p`. -/
theorem MemInv.attach (h : MemInv ram m) (hused : (m.shm i).used = true)
    (hva : (m.space p).shmVa i = 0)
    (hm : Moves m.kmem (spacePages (m.space p)) k'
      (spacePages ((m.space p).put pt i (basePage i * 4096))))
    (hmap : Mapped ram.tramp m.shm ((m.space p).put pt i (basePage i * 4096)) pt) :
    MemInv ram ⟨k', update m.shm i { m.shm i with refcount := (m.shm i).refcount + 1 },
      update m.space p ((m.space p).put pt i (basePage i * 4096))⟩ := by
  apply MemInv.update_seg h
  · exact hm.add (segPages (m.shm i))
  · intro _ j hj hju hkeys
    exact hj (h.keys j i hju hused hkeys)
  · intro _
    exact h.count i hused
  · intro _
    exact MemInv.refs_attach h hused hva pt (basePage_ne_zero i)
  · intro j hj
    simp only [update_of_ne hj]
  · apply Layout.update_seg
    · exact hmap
    · intro _
      exact ⟨hused, rfl, rfl⟩
  · intro q _ _
    exact ⟨hused, rfl, rfl⟩

/-- Only pages of an address space were freed, and a reference was counted. -/
theorem MemInv.segFreed_count (h : MemInv ram m) {R : Multiset Nat} {space : Slot → Space}
    {n : Int} (hm : Moves m.kmem (spacePages (m.space p)) k' R) :
    SegFreed m ⟨k', update m.shm i { m.shm i with refcount := n }, space⟩ := by
  obtain ⟨d, hd, hmem⟩ := hm.freed
  refine ⟨d, hd, ?_⟩
  intro j hj
  left
  have hkept : ∀ x ∈ segPages (m.shm j), x ∉ d := by
    intro x hx hxd
    obtain ⟨hfree, hspace, -, -⟩ := h.seg_owned hx
    rcases Multiset.mem_add.mp (hmem x hxd) with hin | hin
    · exact hfree hin
    · exact hspace p hin
  by_cases hji : j = i
  · subst hji
    simp only [update_self]
    exact ⟨hj, trivial, trivial, trivial, hkept⟩
  · simp only [update_of_ne hji]
    exact ⟨hj, trivial, trivial, trivial, hkept⟩

theorem sysShmat_wp (h : MemInv ram m) (hpt : (m.space p).pagetable = some pt) (id : Int)
    (hclear : ∀ i, segId id = some i → (m.shm i).used = true → (m.space p).shmVa i = 0 →
      pageCount (m.space p).sz ≤ basePage i) :
    wp (sysShmat p id) (fun _ m' => MemInv ram m' ∧ SegFreed m m' ∧ SpaceKept m p m') m := by
  have hsame : MemInv ram m ∧ SegFreed m m ∧ SpaceKept m p m :=
    ⟨h, SegFreed.refl m, SpaceKept.refl m p⟩
  cases hid : segId id with
  | none =>
    simp only [sysShmat, hid, wp_pure]
    exact hsame
  | some i =>
    simp only [sysShmat, hid, wp_bind, wp_get]
    by_cases hunused : (m.shm i).used = false
    · rw [if_pos hunused, wp_pure]
      exact hsame
    rw [if_neg hunused]
    by_cases hatt : (m.space p).shmVa i ≠ 0
    · rw [if_pos hatt, wp_pure]
      exact hsame
    rw [if_neg hatt]
    have hused : (m.shm i).used = true := by simpa using hunused
    have hva : (m.space p).shmVa i = 0 := by simpa using hatt
    have hbelow := hclear i hid hused hva
    obtain ⟨hn₁, hn⟩ := h.count i hused
    have hmap := h.mapped hpt
    have hfit := basePage_add_le i hn
    simp only [wp_bind, wp_ownTable _ hpt, wp_onKmem, wp_setTable]
    rw [shmBase_eq]
    apply (attachLoop_wp (m.shm i).npages pt (basePage i) (m.shm i).pa 0 (by omega) (fun w hlo hhi =>
      Mapped.place_free hmap hva hbelow (by omega) (by omega)) m.kmem).mono
    rintro ⟨pt', ok⟩ k' ⟨hm, hmap'⟩
    simp only at hm hmap'
    have hrange : rangePages pt' 0 (pageCount (m.space p).sz) =
        rangePages pt 0 (pageCount (m.space p).sz) := by
      apply rangePages_congr
      intro w _ hw
      rw [hmap' w (lt_maxPage (by omega))]
      split
      · rw [if_neg (by omega)]
      · rw [cleared, if_neg (by omega)]
    have hmoves : Moves m.kmem (nodes pt + rangePages pt 0 (pageCount (m.space p).sz)) k'
        (nodes pt' + rangePages pt' 0 (pageCount (m.space p).sz)) := by
      rw [hrange]
      exact hm.add _
    cases ok with
    | false =>
      simp only [if_true, wp_pure]
      obtain ⟨hinv, hown⟩ := h.own_step hpt pt' (m.space p).sz hmoves hmap.size (by
          intro v hv hge
          rw [hmap' v hv, if_neg (by decide), cleared, if_neg (by omega)]
          exact hmap.above v hv hge) (fun j hj => (hmap.attached j hj).2.2)
      exact ⟨hinv, hown.segFreed h, hown.others, by simp, by simp [hpt]⟩
    | true =>
      simp only [Bool.true_eq_false, if_false, wp_bind, wp_setSpace, wp_setSeg, wp_pure,
        update_self, update_idem]
      have hpages : Moves m.kmem (spacePages (m.space p)) k' (spacePages
          ((m.space p).put pt' i (basePage i * 4096))) := by
        have hframe := hmoves.add (if (m.space p).trapframe = 0 then 0 else {(m.space p).trapframe})
        refine hframe.of_eq ?_ ?_
        · rw [spacePages, tablePages, hpt, add_comm]
          rfl
        · rw [spacePages, tablePages, add_comm]
          rfl
      have hattached := Mapped.attach hmap hused hn hva hbelow fun w hw => by simpa using hmap' w hw
      refine ⟨MemInv.attach h hused hva hpages hattached, MemInv.segFreed_count h hpages, ?_,
        by simp, by simp [hpt]⟩
      intro q hq
      simp [hq]

/-- From `m` to `m'` pages were only freed, and a segment was released only if it
had one reference left. -/
def Freeing (m m' : Mem) : Prop :=
  ∃ d, m'.kmem.freed = d ++ m.kmem.freed ∧ m'.kmem.freelist = d ++ m.kmem.freelist ∧
    ∀ i, (∃ r, m'.shm i = { m.shm i with refcount := r }) ∨
      ((m.shm i).used = true ∧ (m.shm i).refcount = 1 ∧ (m'.shm i).used = false ∧
        ∀ x ∈ segPages (m.shm i), x ∈ d)

theorem Freeing.refl (m : Mem) : Freeing m m :=
  ⟨[], rfl, rfl, fun _ => .inl ⟨_, rfl⟩⟩

/-- Later frees that leave the segments alone. -/
theorem Freeing.frees {R : Multiset Nat} {space : Slot → Space} (h : Freeing m m')
    (hf : Frees m'.kmem R k') : Freeing m ⟨k', m'.shm, space⟩ := by
  obtain ⟨d, hd, hl, hseg⟩ := h
  obtain ⟨d', hl', hd', -⟩ := hf.freed
  refine ⟨d' ++ d, by simp [hd, hd'], by simp [hl, hl'], ?_⟩
  intro i
  rcases hseg i with hi | ⟨hused, hone, hgone, hmem⟩
  · exact .inl hi
  · exact .inr ⟨hused, hone, hgone, fun x hx => List.mem_append_right d' (hmem x hx)⟩

/-- Detaching from a segment that had not changed so far. -/
theorem Freeing.detach {m₁ : Mem} (h : Freeing m m₁) (hsame : m₁.shm i = m.shm i)
    (hused : (m.shm i).used = true) (hdet : Detached m₁ p i m') : Freeing m m' := by
  obtain ⟨d, hd, hl, hseg⟩ := h
  have hother : ∀ d', ∀ j, j ≠ i → (∃ r, m'.shm j = { m.shm j with refcount := r }) ∨
      ((m.shm j).used = true ∧ (m.shm j).refcount = 1 ∧ (m'.shm j).used = false ∧
        ∀ x ∈ segPages (m.shm j), x ∈ d' ++ d) := by
    intro d' j hj
    rw [hdet.segs j hj]
    rcases hseg j with hi | ⟨hu, hone, hgone, hmem⟩
    · exact .inl hi
    · exact .inr ⟨hu, hone, hgone, fun x hx => List.mem_append_right d' (hmem x hx)⟩
  rcases hdet.seg with ⟨hshm, hk⟩ | ⟨hone, hreset, hf⟩
  · refine ⟨d, by rw [hk, hd], by rw [hk, hl], ?_⟩
    intro j
    by_cases hj : j = i
    · subst hj
      left
      exact ⟨_, by rw [hshm, hsame]⟩
    · simpa using hother [] j hj
  · obtain ⟨d', hl', hd', hR⟩ := hf.freed
    refine ⟨d' ++ d, by simp [hd, hd'], by simp [hl, hl'], ?_⟩
    intro j
    by_cases hj : j = i
    · subst hj
      right
      rw [hsame] at hone hR
      refine ⟨hused, hone, by rw [hreset]; rfl, ?_⟩
      intro x hx
      rw [← hR] at hx
      exact List.mem_append_left d hx
    · exact hother d' j hj

theorem Freeing.segFreed (h : Freeing m m') (hinv : MemInv ram m') : SegFreed m m' := by
  obtain ⟨d, hd, hl, hseg⟩ := h
  refine ⟨d, hd, ?_⟩
  have hfree : ∀ x ∈ d, x ∈ Kmem.free m'.kmem := by
    intro x hx
    rw [Kmem.free, hl]
    exact List.mem_append_left _ hx
  intro i hi
  rcases hseg i with ⟨r, hr⟩ | ⟨-, hone, hgone, hmem⟩
  · left
    have hpages : segPages (m'.shm i) = segPages (m.shm i) := by
      rw [hr]
      rfl
    refine ⟨by rw [hr]; exact hi, by rw [hr], by rw [hr], by rw [hr], ?_⟩
    intro x hx hxd
    rw [← hpages] at hx
    exact (hinv.seg_owned hx).1 (hfree x hxd)
  · right
    refine ⟨hone, hgone, ?_⟩
    intro x hx
    have hxd := hmem x hx
    constructor
    · have hle := hinv.count_le_one x
      have hc : d.count x ≤ (Kmem.free m'.kmem).count x := by
        rw [Kmem.free, hl, Multiset.coe_count, List.count_append]
        exact Nat.le_add_right _ _
      have hpos := List.one_le_count_iff.mpr hxd
      omega
    · rw [hl]
      exact List.mem_append_left _ hxd

theorem sysShmdt_wp (h : MemInv ram m) (p : Slot) (id : Int) :
    wp (sysShmdt p id) (fun _ m' => MemInv ram m' ∧ SegFreed m m' ∧ SpaceKept m p m') m := by
  have hsame : MemInv ram m ∧ SegFreed m m ∧ SpaceKept m p m :=
    ⟨h, SegFreed.refl m, SpaceKept.refl m p⟩
  cases hid : segId id with
  | none =>
    simp only [sysShmdt, hid, wp_pure]
    exact hsame
  | some i =>
    simp only [sysShmdt, hid, wp_bind, wp_get]
    by_cases hno : (m.shm i).used = false ∨ (m.space p).shmVa i = 0
    · rw [if_pos hno, wp_pure]
      exact hsame
    rw [not_or] at hno
    have hused : (m.shm i).used = true := by simpa using hno.1
    rw [if_neg (by simpa using hno), wp_bind]
    apply (shmDetach_wp h hno.2).mono
    rintro _ m' ⟨hinv, hdet⟩
    rw [wp_pure]
    have hfreeing := Freeing.detach (Freeing.refl m) rfl hused hdet
    obtain ⟨pt, hpt⟩ := MemInv.attached_table h hno.2
    obtain ⟨pt', hsp⟩ := hdet.space
    exact ⟨hinv, hfreeing.segFreed hinv, hdet.others, by rw [hsp], by rw [hsp, hpt]; rfl⟩

end KernelShmInv
