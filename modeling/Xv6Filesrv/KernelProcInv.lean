import Xv6Filesrv.KernelShmInv

/-!
# Creating and freeing address spaces and segments

`freeproc`, `allocproc`, the copying done by `kfork` and `kthread_create`, and
`sys_shmget`, each shown to keep the memory invariant with `kalloc` free to fail
at every call.
-/

namespace KernelProcInv

open StateWp KernelPages KernelPageTable KernelUvm KernelUserPages KernelExec KernelShm
open KernelMemInv KernelShmInv
open Function (update update_eq_self update_idem update_of_ne update_self)

attribute [local irreducible] rangePages

variable {ram : Ram} {m m' : Mem} {p np : Slot} {i : SegId} {k' : Kmem}

/-- Where the loop of `freeproc` stands when the segments in `l` are still to be
looked at. -/
structure Leaving (ram : Ram) (m : Mem) (p : Slot) (l : List SegId) (m' : Mem) : Prop where
  inv : MemInv ram m'
  freeing : Freeing m m'
  others : ∀ q, q ≠ p → m'.space q = m.space q
  table : (m'.space p).pagetable.isSome = (m.space p).pagetable.isSome
  todo : ∀ i ∈ l, m'.shm i = m.shm i ∧ (m'.space p).shmVa i = (m.space p).shmVa i
  done : ∀ i, i ∉ l → (m'.space p).shmVa i = 0
  nodup : l.Nodup

theorem Leaving.step {l : List SegId} (h : Leaving ram m p (i :: l) m') :
    wp (do
      let m ← get
      if (m.space p).shmVa i ≠ 0 ∧ (m.shm i).used = true then shmDetach p i else pure ⟨⟩)
      (fun _ m'' => Leaving ram m p l m'') m' := by
  obtain ⟨hnot, hnodup⟩ := List.nodup_cons.mp h.nodup
  obtain ⟨hshm, hva⟩ := h.todo i List.mem_cons_self
  simp only [wp_bind, wp_get]
  by_cases hatt : (m'.space p).shmVa i ≠ 0 ∧ (m'.shm i).used = true
  · rw [if_pos hatt]
    apply (shmDetach_wp h.inv hatt.1).mono
    rintro _ m'' ⟨hinv, hdet⟩
    obtain ⟨pt', hsp⟩ := hdet.space
    obtain ⟨pt, hpt⟩ := MemInv.attached_table h.inv hatt.1
    have hused : (m.shm i).used = true := by
      rw [← hshm]
      exact hatt.2
    refine ⟨hinv, h.freeing.detach hshm hused hdet, ?_, ?_, ?_, ?_, hnodup⟩
    · intro q hq
      rw [hdet.others q hq, h.others q hq]
    · rw [← h.table, hsp, hpt]
      rfl
    · intro j hj
      have hji : j ≠ i := by
        intro he
        subst he
        exact hnot hj
      obtain ⟨h₁, h₂⟩ := h.todo j (List.mem_cons_of_mem i hj)
      rw [hdet.segs j hji, hsp]
      simp only [update_of_ne hji]
      exact ⟨h₁, h₂⟩
    · intro j hj
      rw [hsp]
      by_cases hji : j = i
      · subst hji
        simp
      · simp only [update_of_ne hji]
        exact h.done j (by simp [hji, hj])
  · rw [if_neg hatt, wp_pure]
    refine ⟨h.inv, h.freeing, h.others, h.table, ?_, ?_, hnodup⟩
    · intro j hj
      exact h.todo j (List.mem_cons_of_mem i hj)
    · intro j hj
      by_cases hji : j = i
      · subst hji
        by_contra hne
        obtain ⟨pt, hpt⟩ := MemInv.attached_table h.inv hne
        exact hatt ⟨hne, ((h.inv.mapped hpt).attached j hne).1⟩
      · exact h.done j (by simp [hji, hj])

theorem detachAll_wp (h : MemInv ram m) (p : Slot) :
    wp (detachAll p) (fun _ m' => Leaving ram m p [] m') m := by
  have hstart : Leaving ram m p (List.finRange 8) m :=
    ⟨h, Freeing.refl m, fun _ _ => rfl, rfl, fun _ _ => ⟨rfl, rfl⟩,
      fun i hi => absurd (List.mem_finRange i) hi, List.nodup_finRange 8⟩
  exact wp_forM (fun l m' => Leaving ram m p l m') (fun i l m' h => h.step) (fun _ h => h) _ m hstart

/-- An address space that has no segment attached and whose leaf entries lie below its size or at
the trap pages. -/
structure Bare (s : Space) : Prop where
  va : ∀ i, s.shmVa i = 0
  size : pageCount s.sz ≤ 67108862
  table : ∀ pt, s.pagetable = some pt → NoStray pt (pageCount s.sz)

theorem pageCount_zero : pageCount 0 = 0 := rfl

theorem Bare.no_table (tf : Nat) : Bare ⟨0, none, tf, fun _ => 0⟩ := by
  refine ⟨fun _ => rfl, ?_, fun pt he => ?_⟩
  · simp only [pageCount_zero, Nat.zero_le]
  · cases he

theorem MemInv.bare (h : MemInv ram m) (hva : ∀ i, (m.space p).shmVa i = 0) :
    Bare (m.space p) := by
  cases hpt : (m.space p).pagetable with
  | none =>
    have hl := h.layout p
    rw [Layout, hpt] at hl
    refine ⟨hva, ?_, fun pt he => ?_⟩
    · rw [hl.1]
      exact Nat.zero_le _
    · rw [hpt] at he
      cases he
  | some pt =>
    have hmap := h.mapped hpt
    refine ⟨hva, hmap.size, fun pt' he v hv hne => ?_⟩
    obtain rfl : pt = pt' := Option.some.inj (hpt.symm.trans he)
    by_cases hlt : v < pageCount (m.space p).sz
    · exact .inr (.inr hlt)
    · rw [hmap.above v hv (by omega)] at hne
      rcases window_detached hva hne with h | h
      · exact .inl h
      · exact .inr (.inl h)

/-- A page table with nothing attached is freed page by page. -/
theorem freeTable_wp {s : Space} (hb : Bare s) (k : Kmem) (hs : Sound k (tablePages s)) :
    wp (match s.pagetable with
      | none => pure ⟨⟩
      | some pt => procFreepagetable pt s.sz) (fun _ k' => Frees k (tablePages s) k') k := by
  cases hpt : s.pagetable with
  | none =>
    rw [wp_pure, tablePages, hpt]
    exact Frees.refl k
  | some pt =>
    rw [tablePages, hpt] at hs ⊢
    exact procFreepagetable_wp pt _ hb.size (hb.table pt hpt) k hs

/-- An address space with nothing attached is freed page by page. -/
theorem freeSpace_wp {s : Space} (hb : Bare s) (k : Kmem) (hs : Sound k (spacePages s)) :
    wp (freeSpace s) (fun _ k' => Frees k (spacePages s) k') k := by
  rw [spacePages] at hs ⊢
  rw [freeSpace]
  by_cases htf : s.trapframe = 0
  · rw [if_neg (by simp [htf])]
    rw [if_pos htf, zero_add] at hs ⊢
    exact freeTable_wp hb k hs
  · rw [if_pos htf, wp_bind]
    rw [if_neg htf] at hs ⊢
    apply (kfree_wp k _ (hs.ok (by simp))).mono
    intro _ k₁ hf
    apply (freeTable_wp hb k₁ (hf.sound hs)).mono
    intro _ k₂ hf₂
    exact hf.trans hf₂

/-- `freeproc` gives back everything the address space holds and releases the
segments that nobody else uses. -/
theorem freeproc_wp (h : MemInv ram m) (p : Slot) :
    wp (freeproc p) (fun _ m' => MemInv ram m' ∧ Freeing m m' ∧ m'.space p = Space.empty ∧
      ∀ q, q ≠ p → m'.space q = m.space q) m := by
  simp only [freeproc, wp_bind, wp_get, wp_onKmem, wp_setSpace]
  apply (detachAll_wp h p).mono
  intro _ m₁ h₁
  have hva : ∀ i, (m₁.space p).shmVa i = 0 := fun i => h₁.done i (by simp)
  have hempty : (⟨0, none, 0, (m₁.space p).shmVa⟩ : Space) = Space.empty := by
    rw [Space.empty]
    congr 1
    funext i
    exact hva i
  apply (freeSpace_wp (MemInv.bare h₁.inv hva) _ (h₁.inv.sound p)).mono
  intro _ k₂ hf
  rw [hempty]
  refine ⟨?_, h₁.freeing.frees hf, by simp, ?_⟩
  · apply h₁.inv.update_space
    · refine hf.moves.of_eq rfl ?_
      simp [spacePages, tablePages, Space.empty]
    · exact ⟨rfl, fun _ => rfl⟩
    · intro i
      simp [Space.empty, hva i]
  · intro q hq
    simp only [update_of_ne hq]
    exact h₁.others q hq

/-- A process with nothing attached is freed without touching any segment. -/
theorem freeproc_bare_wp (hb : Bare (m.space p)) (hs : Sound m.kmem (spacePages (m.space p))) :
    wp (freeproc p) (fun _ m' => ∃ k', m' = putSpace m k' p Space.empty ∧
      Frees m.kmem (spacePages (m.space p)) k') m := by
  have hstay : wp (detachAll p) (fun _ m' => m' = m) m := by
    refine wp_forM (fun _ m' => m' = m) ?_ (fun _ h => h) _ m rfl
    rintro i l m' rfl
    simp only [wp_bind, wp_get]
    rw [if_neg (by simp [hb.va i]), wp_pure]
  have hempty : (⟨0, none, 0, (m.space p).shmVa⟩ : Space) = Space.empty := by
    rw [Space.empty]
    congr 1
    funext i
    exact hb.va i
  simp only [freeproc, wp_bind, wp_get, wp_onKmem, wp_setSpace]
  apply hstay.mono
  rintro _ m' rfl
  apply (freeSpace_wp hb _ hs).mono
  intro _ k' hf
  rw [hempty]
  exact ⟨k', rfl, hf⟩

theorem spacePages_bare (tf : Nat) (htf : tf ≠ 0) :
    spacePages ⟨0, none, tf, fun _ => 0⟩ = {tf} := by
  simp [spacePages, tablePages, htf]

theorem spacePages_new (sz : Nat) (pt : PageTable) (tf : Nat) (htf : tf ≠ 0) :
    spacePages ⟨sz, some pt, tf, fun _ => 0⟩ =
      {tf} + (nodes pt + rangePages pt 0 (pageCount sz)) := by
  simp [spacePages, tablePages, htf]

theorem spacePages_empty : spacePages Space.empty = 0 := by
  simp [spacePages, tablePages, Space.empty]

/-- An address space under construction: nothing is attached, and all its pages
came from the free list. -/
theorem MemInv.fresh_space (h : MemInv ram m) (hnp : m.space np = Space.empty) (s : Space)
    (hva : ∀ i, s.shmVa i = 0) (hm : Moves m.kmem 0 k' (spacePages s))
    (hl : Layout ram.tramp m.shm s) : MemInv ram (putSpace m k' np s) := by
  apply h.update_space s _ hl
  · intro i
    simp [hva i, hnp, Space.empty]
  · rw [hnp, spacePages_empty]
    exact hm

theorem MemInv.sound_zero (h : MemInv ram m) : Sound m.kmem 0 :=
  (h.sound 0).mono (Multiset.zero_le _)

theorem MemInv.kend_pos (h : MemInv ram m) : 0 < m.kmem.kend := by
  have habove : 2147483648 ≤ ram.kend := ram.above
  rw [h.fixed.1]
  omega

/-- An address space that holds nothing; `allocproc` does not care what segments it lists. -/
structure Vacant (s : Space) : Prop where
  sz : s.sz = 0
  pagetable : s.pagetable = none
  trapframe : s.trapframe = 0

theorem Vacant.empty : Vacant Space.empty := ⟨rfl, rfl, rfl⟩

/-- What creating a process in slot `np` relies on: the slot is vacant, and free pages are good. -/
structure Ready (m : Mem) (np : Slot) : Prop where
  sound : Sound m.kmem 0
  kend : 0 < m.kmem.kend
  vacant : Vacant (m.space np)

theorem MemInv.ready (h : MemInv ram m) (hnp : m.space np = Space.empty) : Ready m np :=
  ⟨MemInv.sound_zero h, MemInv.kend_pos h, hnp ▸ Vacant.empty⟩

/-- Undoing a construction. -/
theorem freeproc_fresh_wp (hs : Sound m.kmem 0) (s : Space) (hb : Bare s)
    (hm : Moves m.kmem 0 k' (spacePages s)) :
    wp (freeproc np) (fun _ m' => ∃ k₂, m' = putSpace m k₂ np Space.empty ∧ Moves m.kmem 0 k₂ 0)
      (putSpace m k' np s) := by
  have hsp : (putSpace m k' np s).space np = s := by simp
  apply (freeproc_bare_wp (hsp.symm ▸ hb) (hsp.symm ▸ hm.sound hs)).mono
  rintro _ m' ⟨k₂, rfl, hf⟩
  refine ⟨k₂, by simp [putSpace], ?_⟩
  rw [hsp] at hf
  exact hm.trans hf.moves

theorem allocproc_wp (h : Ready m np) :
    wp (allocproc np) (fun r m' =>
      (r = false ∧ ∃ k', m' = putSpace m k' np Space.empty ∧ Moves m.kmem 0 k' 0) ∨
      (r = true ∧ ∃ k' tf pt, m' = putSpace m k' np ⟨0, some pt, tf, fun _ => 0⟩ ∧ tf ≠ 0 ∧
        Fresh m.kmem.tramp tf pt ∧ Moves m.kmem 0 k' ({tf} + nodes pt))) m := by
  simp only [allocproc, wp_bind, wp_setSpace, wp_onKmem, h.vacant.sz, h.vacant.pagetable,
    h.vacant.trapframe]
  apply (kalloc_wp m.kmem).mono
  intro r k₁ hm₁
  cases r with
  | none =>
    simp only [wp_bind, wp_setSpace, update_self, update_idem]
    have hm' : Moves m.kmem 0 k₁ (spacePages Space.empty) := by
      rw [spacePages_empty]
      exact hm₁
    apply (freeproc_fresh_wp h.sound Space.empty (Bare.no_table 0) hm').mono
    rintro _ m' hm'
    rw [wp_pure]
    exact .inl ⟨rfl, hm'⟩
  | some tf =>
    have hok := Moves.taken_ok h.sound hm₁
    have htf : tf ≠ 0 := by
      have := hok.2.1
      have := h.kend
      omega
    rw [pageOf_some] at hm₁
    have hs₁ : Sound k₁ 0 := (hm₁.sound h.sound).mono (Multiset.zero_le _)
    simp only [wp_bind, wp_setSpace, wp_onKmem, update_self, update_idem]
    apply (procPagetable_wp tf k₁ hs₁).mono
    rintro r k₂ ⟨hm₂, hfresh⟩
    have hm : Moves m.kmem 0 k₂ ({tf} + r.elim 0 nodes) := by
      have hframe := hm₂.add {tf}
      rw [zero_add, add_comm] at hframe
      exact hm₁.trans hframe
    cases r with
    | none =>
      simp only [Option.isNone_none, if_true, wp_bind]
      have hm' : Moves m.kmem 0 k₂ (spacePages ⟨0, none, tf, fun _ => 0⟩) := by
        rw [spacePages_bare tf htf]
        exact hm
      apply (freeproc_fresh_wp h.sound _ (Bare.no_table tf) hm').mono
      rintro _ m' hm'
      rw [wp_pure]
      exact .inl ⟨rfl, hm'⟩
    | some pt =>
      simp only [Option.isNone_some, Bool.false_eq_true, if_false, wp_pure]
      have hf := hfresh pt rfl
      rw [hm₁.fixed.2] at hf
      exact .inr ⟨trivial, k₂, tf, pt, rfl, htf, hf, hm⟩

/-- Creating a child: only its slot changes, and only pages that were free are
handed to `kfree` on the way. -/
structure Created (m : Mem) (p np : Slot) (ok : Bool) (m' : Mem) : Prop where
  shm : m'.shm = m.shm
  others : ∀ q, q ≠ np → m'.space q = m.space q
  failed : ok = false → m'.space np = Space.empty
  child : ok = true → (m'.space np).sz = (m.space p).sz ∧
    (m'.space np).pagetable.isSome = true ∧ ∀ i, (m'.space np).shmVa i = 0
  freed : ∃ d, m'.kmem.freed = d ++ m.kmem.freed ∧ ∀ x ∈ d, x ∈ Kmem.free m.kmem

theorem Moves.freed_free {k k' : Kmem} {R : Multiset Nat} (h : Moves k 0 k' R) :
    ∃ d, k'.freed = d ++ k.freed ∧ ∀ x ∈ d, x ∈ Kmem.free k := by
  obtain ⟨d, hd, hmem⟩ := h.freed
  rw [add_zero] at hmem
  exact ⟨d, hd, hmem⟩

theorem Created.failure (hm : Moves m.kmem 0 k' 0) :
    Created m p np false (putSpace m k' np Space.empty) := by
  refine ⟨rfl, ?_, fun _ => by simp, by simp, Moves.freed_free hm⟩
  intro q hq
  simp [hq]

theorem setRegs_wp (np : Slot) (regs : List (Reg × Nat)) (m : Mem) :
    wp (forM regs fun r => setReg np r.1 r.2) (fun _ m' => ∃ bytes, m' = putBytes m bytes) m := by
  refine wp_forM (fun _ m' => ∃ bytes, m' = putBytes m bytes) ?_ (fun _ h => h) regs m
    ⟨m.kmem.bytes, rfl⟩
  rintro r l _ ⟨bytes, rfl⟩
  apply (setReg_wp np r.1 r.2 _).mono
  rintro _ _ ⟨bytes', rfl⟩
  exact ⟨bytes', rfl⟩

/-- A copy of the parent: its pages were free before, and it has nothing attached. -/
structure Child (m : Mem) (p np : Slot) (m' : Mem) (tf : Nat) (pt : PageTable) : Prop where
  mem : m' = putSpace m m'.kmem np ⟨(m.space p).sz, some pt, tf, fun _ => 0⟩
  above : ∀ v < maxPage, pageCount (m.space p).sz ≤ v → pt.map v = trapMap m.kmem.tramp tf v
  moves : Moves m.kmem 0 m'.kmem (spacePages ⟨(m.space p).sz, some pt, tf, fun _ => 0⟩)

/-- The memory part of creating a process, in any state that is ready for it. -/
theorem copyProc_ready_wp (h : Ready m np) {pt : PageTable}
    (hpt : (m.space p).pagetable = some pt) (hsize : pageCount (m.space p).sz ≤ 67108862)
    (regs : List (Reg × Nat)) :
    wp (copyProc p np regs) (fun r m' =>
      (r = false ∧ ∃ k', m' = putSpace m k' np Space.empty ∧ Moves m.kmem 0 k' 0) ∨
      (r = true ∧ ∃ tf new, Child m p np m' tf new)) m := by
  have hne : p ≠ np := by
    intro he
    rw [he, h.vacant.pagetable] at hpt
    cases hpt
  rw [copyProc, wp_bind]
  apply (allocproc_wp h).mono
  rintro r m₁ (⟨rfl, k₁, rfl, hm₁⟩ | ⟨rfl, k₁, tf, new, rfl, htf, hfresh, hm₁⟩)
  · rw [if_pos rfl, wp_pure]
    exact .inl ⟨rfl, k₁, rfl, hm₁⟩
  have hp : (putSpace m k₁ np ⟨0, some new, tf, fun _ => 0⟩).space p = m.space p := by simp [hne]
  have hpt₁ : ((putSpace m k₁ np ⟨0, some new, tf, fun _ => 0⟩).space p).pagetable = some pt := by
    rw [hp, hpt]
  have hnp₁ : ((putSpace m k₁ np ⟨0, some new, tf, fun _ => 0⟩).space np).pagetable = some new := by
    simp
  have hnone : ∀ w < pageCount (m.space p).sz, new.map w = none := by
    intro w hw
    rw [hfresh w (lt_maxPage (by omega))]
    exact trapMap_eq_none _ _ (by omega)
  have hs₁ : Sound k₁ (nodes new) := (hm₁.sound h.sound).mono (Multiset.le_add_left _ _)
  rw [if_neg (by simp)]
  simp only [wp_bind, wp_get, wp_ownTable _ hpt₁, wp_ownTable _ hnp₁, wp_onKmem, wp_setTable,
    update_of_ne hne, update_self, update_idem]
  apply (uvmcopy_wp pt new _ (by omega) hnone k₁ hs₁).mono
  rintro ⟨new', ok⟩ k₂ (⟨rfl, hsame, hm₂⟩ | ⟨rfl, hkept⟩)
  · simp only [Bool.true_eq_false, if_false, wp_bind, wp_setSpace, wp_get, wp_onKmem, memmove,
      wp_modify, update_self, update_idem]
    have hm : Moves m.kmem 0 k₂ (spacePages ⟨(m.space p).sz, some new', tf, fun _ => 0⟩) := by
      rw [spacePages_new _ _ _ htf]
      exact hm₁.trans ((hm₂.add {tf}).of_eq (add_comm _ _) (add_comm _ _))
    apply (setRegs_wp np regs _).mono
    rintro _ _ ⟨bytes, rfl⟩
    rw [wp_pure]
    refine .inr ⟨rfl, tf, new', rfl, fun v hv hge => ?_, hm.trans (Moves.of_bytes k₂ _ bytes)⟩
    rw [hsame v hv hge, hfresh v hv]
  · simp only [if_true, wp_bind]
    have hm : Moves m.kmem 0 k₂ (spacePages ⟨0, some new', tf, fun _ => 0⟩) := by
      rw [spacePages_new _ _ _ htf, pageCount_zero, rangePages_zero, add_zero]
      exact hm₁.trans ((hkept.moves.add {tf}).of_eq (add_comm _ _) (add_comm _ _))
    have hb : Bare ⟨0, some new', tf, fun _ => 0⟩ := by
      refine ⟨fun _ => rfl, ?_, fun pt' he v hv hne => ?_⟩
      · simp only [pageCount_zero, Nat.zero_le]
      · obtain rfl : new' = pt' := Option.some.inj he
        rw [hkept.same v hv, hfresh v hv] at hne
        exact (trapMap_ne_none hne).imp_right .inl
    apply (freeproc_fresh_wp h.sound _ hb hm).mono
    rintro _ m' hm'
    rw [wp_pure]
    exact .inl ⟨rfl, hm'⟩

theorem copyProc_wp (h : MemInv ram m) {pt : PageTable} (hpt : (m.space p).pagetable = some pt)
    (hnp : m.space np = Space.empty) (regs : List (Reg × Nat)) :
    wp (copyProc p np regs) (fun r m' => MemInv ram m' ∧ Created m p np r m') m := by
  have hva : ∀ i : SegId, (fun _ : SegId => 0) i = 0 := fun _ => rfl
  have hsize := (h.mapped hpt).size
  apply (copyProc_ready_wp (MemInv.ready h hnp) hpt hsize regs).mono
  rintro r m' (⟨rfl, k', rfl, hm⟩ | ⟨rfl, tf, new, hc⟩)
  · refine ⟨MemInv.fresh_space h hnp Space.empty hva ?_ ⟨rfl, fun _ => rfl⟩, Created.failure hm⟩
    rw [spacePages_empty]
    exact hm
  · have hl : Layout ram.tramp m.shm ⟨(m.space p).sz, some new, tf, fun _ => 0⟩ := by
      refine ⟨hsize, ?_, ?_⟩
      · intro v hv hge
        rw [hc.above v hv hge, h.fixed.2, window_eq_trapMap hva]
      · intro i hi
        exact absurd rfl hi
    have hinv := MemInv.fresh_space h hnp _ hva hc.moves hl
    obtain ⟨d, hd, hmem⟩ := Moves.freed_free hc.moves
    rw [← hc.mem] at hinv
    refine ⟨hinv, ?_, ?_, by simp, ?_, d, hd, hmem⟩
    · rw [hc.mem]
    · intro q hq
      rw [hc.mem]
      simp [hq]
    · intro _
      rw [hc.mem]
      simp

theorem range_map_update (f : Nat → Nat) (j x : Nat) :
    (List.range (j + 1)).map (update f j x) = (List.range j).map f ++ [x] := by
  rw [List.range_succ, List.map_append]
  congr 1
  · apply List.map_congr_left
    intro a ha
    have hlt := List.mem_range.mp ha
    rw [update_of_ne (by omega)]
  · simp

/-- The outcome of filling a new segment's page array, from index `j` on. -/
structure ShmFilled (m : Mem) (i : SegId) (g : Shmseg) (n : Nat) (ok : Bool) (g' : Shmseg)
    (k' : Kmem) : Prop where
  used : g'.used = (ok && g.used)
  key : g'.key = g.key
  npages : g'.npages = g.npages
  refcount : g'.refcount = g.refcount
  filled : ok = true → Moves m.kmem 0 k' ((List.range n).map g'.pa : List Nat)
  undone : ok = false → Moves m.kmem 0 k' 0

theorem shmFill_wp (h : MemInv ram m) (n : Nat) (i : SegId) (j : Nat) (g : Shmseg) (k : Kmem)
    (hm : Moves m.kmem 0 k ((List.range j).map g.pa : List Nat)) :
    wp (shmFill n i j) (fun r m' => ∃ g' k', m' = ⟨k', update m.shm i g', m.space⟩ ∧
      ShmFilled m i g (j + n) r g' k') ⟨k, update m.shm i g, m.space⟩ := by
  induction n generalizing j g k with
  | zero =>
    rw [shmFill, wp_pure]
    exact ⟨g, k, rfl, by simp, rfl, rfl, rfl, fun _ => hm, by simp⟩
  | succ n ih =>
    have hs₀ := MemInv.sound_zero h
    simp only [shmFill, wp_bind, wp_onKmem]
    apply (kalloc_wp k).mono
    intro r k₁ hm₁
    cases r with
    | none =>
      simp only [wp_bind, wp_get, wp_onKmem, wp_setSeg, update_self, update_idem]
      have hm' : Moves m.kmem 0 k₁ ((List.range j).map g.pa : List Nat) := by
        have hframe := hm₁.add ((List.range j).map g.pa : List Nat)
        rw [zero_add, pageOf_none, zero_add] at hframe
        exact hm.trans hframe
      apply (freePages_wp _ k₁ (hm'.sound hs₀)).mono
      intro _ k₂ hf
      rw [wp_pure]
      exact ⟨_, k₂, rfl, by simp, rfl, rfl, rfl, by simp, fun _ => hm'.trans hf.moves⟩
    | some mem =>
      simp only [wp_bind, wp_onKmem, memset, wp_modify, wp_setSeg, update_self,
        update_idem]
      have hm' : Moves m.kmem 0 { k₁ with bytes := fill k₁.bytes mem pgsize 0 }
          ((List.range (j + 1)).map (update g.pa j mem) : List Nat) := by
        have hframe := (hm₁.trans (Moves.of_bytes k₁ _ (fill k₁.bytes mem pgsize 0))).add
          ((List.range j).map g.pa : List Nat)
        rw [zero_add, pageOf_some] at hframe
        refine (hm.trans hframe).of_eq rfl ?_
        rw [range_map_update, ← Multiset.coe_add, add_comm]
        rfl
      apply (ih (j + 1) { g with pa := update g.pa j mem } _ hm').mono
      rintro r m' ⟨g', k', rfl, hg⟩
      rw [show j + 1 + n = j + (n + 1) by omega] at hg
      exact ⟨g', k', rfl, hg.used, hg.key, hg.npages, hg.refcount, hg.filled, hg.undone⟩

theorem sysShmget_wp (h : MemInv ram m) (key size : Int) :
    wp (sysShmget key size) (fun _ m' => MemInv ram m' ∧ SegFreed m m' ∧ m'.space = m.space) m := by
  rw [sysShmget]
  by_cases hbad : size ≤ 0 ∨ (maxShmSize : Int) < size
  · rw [if_pos hbad, wp_pure]
    exact ⟨h, SegFreed.refl m, rfl⟩
  rw [if_neg hbad]
  simp only [wp_bind, wp_get]
  cases hold : (List.finRange 8).find? fun i => (m.shm i).used && (m.shm i).key == key with
  | some i =>
    simp only [wp_pure]
    exact ⟨h, SegFreed.refl m, trivial⟩
  | none =>
    cases hnew : (List.finRange 8).find? fun i => !(m.shm i).used with
    | none =>
      simp only [wp_pure]
      exact ⟨h, SegFreed.refl m, trivial⟩
    | some i =>
      have hunused : (m.shm i).used = false := by
        simpa using List.find?_some hnew
      have hkeys : ∀ j, (m.shm j).used = true → (m.shm j).key ≠ key := by
        intro j hj hkey
        have hno := List.find?_eq_none.mp hold j (List.mem_finRange j)
        simp [hj, hkey] at hno
      have hnp : 1 ≤ (size.toNat + pgsize - 1) / pgsize ∧
          (size.toNat + pgsize - 1) / pgsize ≤ 4 := by
        simp only [pgsize, maxShmSize] at hbad ⊢
        omega
      have hfree : ∀ q, (m.space q).shmVa i = 0 := by
        intro q
        by_contra hne
        obtain ⟨pt, hpt⟩ := MemInv.attached_table h hne
        have hused := ((h.mapped hpt).attached i hne).1
        rw [hunused] at hused
        simp at hused
      have hzero : segPages (m.shm i) = 0 := by simp [segPages, hunused]
      have hcount : attachCount m.space i = 0 := by
        rw [attachCount, Finset.card_eq_zero, Finset.filter_eq_empty_iff]
        intro q _
        simp [hfree q]
      generalize (size.toNat + pgsize - 1) / pgsize = npages at hnp
      simp only [wp_bind, wp_setSeg]
      apply (shmFill_wp h npages i 0 _ m.kmem (Moves.refl m.kmem 0)).mono
      rintro ok m' ⟨g', k', rfl, hg⟩
      rw [wp_pure]
      have hmoves : Moves m.kmem 0 k' (segPages g') := by
        cases ok with
        | true =>
          have hm := hg.filled rfl
          rw [segPages_used (by rw [hg.used]; rfl), hg.npages]
          rw [Nat.zero_add] at hm
          exact hm
        | false =>
          rw [segPages, if_neg (by rw [hg.used]; simp)]
          exact hg.undone rfl
      refine ⟨?_, ?_, rfl⟩
      · rw [← update_eq_self (0 : Slot) m.space]
        apply MemInv.update_seg h
        · rw [hzero]
          have hframe := hmoves.add (spacePages (m.space 0))
          rw [zero_add, add_comm (segPages g')] at hframe
          rw [add_zero]
          exact hframe
        · intro _ j _ hj
          rw [hg.key]
          exact hkeys j hj
        · intro _
          rw [hg.npages]
          exact hnp
        · intro _
          rw [hg.refcount, update_eq_self, hcount]
          rfl
        · intro j _
          rfl
        · apply Layout.update_seg _ (h.layout 0)
          intro hne
          exact absurd (hfree 0) hne
        · intro q _ hne
          exact absurd (hfree q) hne
      · obtain ⟨d, hd, hmem⟩ := Moves.freed_free hmoves
        refine ⟨d, hd, ?_⟩
        intro j hj
        left
        have hji : j ≠ i := by
          intro he
          rw [he, hunused] at hj
          simp at hj
        simp only [update_of_ne hji]
        refine ⟨hj, trivial, trivial, trivial, ?_⟩
        intro x hx hxd
        exact (h.seg_owned hx).1 (hmem x hxd)

end KernelProcInv
