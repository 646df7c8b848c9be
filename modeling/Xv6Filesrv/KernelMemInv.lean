import Xv6Filesrv.KernelShm

/-!
# The memory invariant

Every physical page has one owner: the free list, a shared segment, or an
address space (its trapframe, its table pages, its heap). Above its heap an
address space maps the two trap pages and the segments it is attached to, and
nothing else.
-/

namespace KernelMemInv

open StateWp KernelPages KernelPageTable KernelUvm KernelUserPages KernelExec KernelShm
open Function (update update_idem update_of_ne update_self)

attribute [local irreducible] rangePages

variable {pt : PageTable} {shm : SegId → Shmseg} {tramp tf : Nat} {va : SegId → Nat}

/-- The memory that the allocator manages: pages above the kernel, whose code
contains the trampoline. -/
structure Ram where
  kend : Nat
  tramp : Nat
  pages : Multiset Nat
  nodup : pages.Nodup
  ok : ∀ x ∈ pages, okPage kend x
  above : kernbase ≤ kend
  below : tramp < kend

def segPages (s : Shmseg) : Multiset Nat :=
  if s.used then ((List.range s.npages).map s.pa : List Nat) else 0

def tablePages (s : Space) : Multiset Nat :=
  s.pagetable.elim 0 fun pt => nodes pt + rangePages pt 0 (pageCount s.sz)

def spacePages (s : Space) : Multiset Nat :=
  (if s.trapframe = 0 then 0 else {s.trapframe}) + tablePages s

/-- First page of the place reserved for segment `i`. -/
def basePage (i : SegId) : Nat := 67108858 - 4 * i.val

theorem shmBase_eq (i : SegId) : shmBase i = basePage i * 4096 := by
  have hi := i.isLt
  simp only [shmBase, basePage, trapframe, trampoline, maxva, pgsize, maxShmSize]
  omega

/-- The segment and page offset that virtual page `v` is reserved for. -/
def segOf (v : Nat) : Option (SegId × Nat) :=
  if h : 67108830 ≤ v ∧ v < 67108862 then
    some (⟨(67108861 - v) / 4, by omega⟩, (v - 67108830) % 4)
  else none

theorem segOf_base (i : SegId) (j : Nat) (hj : j < 4) : segOf (basePage i + j) = some (i, j) := by
  have hi := i.isLt
  rw [segOf, dif_pos (by unfold basePage; omega)]
  have h₁ : (67108861 - (basePage i + j)) / 4 = i.val := by
    unfold basePage
    omega
  have h₂ : (basePage i + j - 67108830) % 4 = j := by
    unfold basePage
    omega
  simp only [h₁, h₂]

theorem segOf_eq_some {v j : Nat} {i : SegId} (h : segOf v = some (i, j)) :
    v = basePage i + j ∧ j < 4 := by
  unfold segOf at h
  split at h
  · next hv =>
    obtain ⟨hi, hj⟩ : ⟨(67108861 - v) / 4, by omega⟩ = i ∧ (v - 67108830) % 4 = j := by
      simpa using h
    subst hi hj
    unfold basePage
    constructor
    · simp only
      omega
    · omega
  · simp at h

/-- What an address space maps above its heap. -/
def window (tramp tf : Nat) (shm : SegId → Shmseg) (va : SegId → Nat) (v : Nat) : Option Pte :=
  match segOf v with
  | some (i, j) =>
    if va i ≠ 0 ∧ j < (shm i).npages then some ⟨(shm i).pa j, permRWU⟩ else none
  | none => trapMap tramp tf v

theorem window_congr {shm shm' : SegId → Shmseg} {va va' : SegId → Nat}
    (hva : ∀ i, va' i ≠ 0 ↔ va i ≠ 0)
    (hshm : ∀ i, va i ≠ 0 → (shm' i).npages = (shm i).npages ∧ (shm' i).pa = (shm i).pa) (v : Nat) :
    window tramp tf shm' va' v = window tramp tf shm va v := by
  unfold window
  split
  · next i j _ =>
    by_cases hi : va i = 0
    · have hi' : va' i = 0 := by
        by_contra hne
        exact (hva i).mp hne hi
      simp [hi, hi']
    · obtain ⟨hn, hp⟩ := hshm i hi
      simp [hi, (hva i).mpr hi, hn, hp]
  · rfl

theorem segOf_none {v : Nat} (h : segOf v = none) (i : SegId) :
    ¬ (basePage i ≤ v ∧ v < basePage i + 4) := by
  intro hin
  have hb := segOf_base i (v - basePage i) (by omega)
  rw [show basePage i + (v - basePage i) = v by omega, h] at hb
  simp at hb

theorem basePage_inj {i j : SegId} {a b : Nat} (ha : a < 4) (hb : b < 4)
    (h : basePage i + a = basePage j + b) : i = j := by
  have hi := i.isLt
  have hj := j.isLt
  unfold basePage at h
  apply Fin.ext
  omega

/-- Attaching or detaching segment `i` changes the window at its place only. -/
theorem window_update (i : SegId) (x v : Nat) :
    window tramp tf shm (update va i x) v =
      if basePage i ≤ v ∧ v < basePage i + 4 then
        if x ≠ 0 ∧ v - basePage i < (shm i).npages then
          some ⟨(shm i).pa (v - basePage i), permRWU⟩
        else none
      else window tramp tf shm va v := by
  unfold window
  cases hseg : segOf v with
  | none => rw [if_neg (segOf_none hseg i)]
  | some q =>
    obtain ⟨j, l⟩ := q
    obtain ⟨rfl, hl⟩ := segOf_eq_some hseg
    by_cases hji : j = i
    · subst hji
      have hsub : basePage j + l - basePage j = l := by omega
      rw [if_pos (by omega), hsub]
      simp only [update_self]
    · have hout : ¬ (basePage i ≤ basePage j + l ∧ basePage j + l < basePage i + 4) := by
        intro hin
        exact hji (basePage_inj (a := l) (b := basePage j + l - basePage i) hl (by omega) (by omega))
      rw [if_neg hout]
      simp only [update_of_ne hji]

/-- With nothing attached only the trap pages are left. -/
theorem window_eq_trapMap (hva : ∀ i, va i = 0) (v : Nat) :
    window tramp tf shm va v = trapMap tramp tf v := by
  unfold window
  split
  · next i j hseg =>
    obtain ⟨rfl, hj⟩ := segOf_eq_some hseg
    rw [if_neg (by simp [hva i]), trapMap_eq_none]
    unfold basePage
    omega
  · rfl

theorem window_detached (hva : ∀ i, va i = 0) {v : Nat} (h : window tramp tf shm va v ≠ none) :
    v = trampPage ∨ v = tfPage := by
  rw [window_eq_trapMap hva] at h
  exact trapMap_ne_none h

/-- The page table of an address space and its attachments agree. -/
structure Mapped (tramp : Nat) (shm : SegId → Shmseg) (s : Space) (pt : PageTable) : Prop where
  size : pageCount s.sz ≤ 67108862
  above : ∀ v < maxPage, pageCount s.sz ≤ v → pt.map v = window tramp s.trapframe shm s.shmVa v
  attached : ∀ i, s.shmVa i ≠ 0 →
    (shm i).used = true ∧ s.shmVa i = shmBase i ∧ pageCount s.sz ≤ basePage i

def Layout (tramp : Nat) (shm : SegId → Shmseg) (s : Space) : Prop :=
  match s.pagetable with
  | none => s.sz = 0 ∧ ∀ i, s.shmVa i = 0
  | some pt => Mapped tramp shm s pt

/-- Number of process slots attached to segment `i`. -/
def attachCount (space : Slot → Space) (i : SegId) : Nat :=
  (Finset.univ.filter fun p => (space p).shmVa i ≠ 0).card

/-- 1 if the address space is attached to segment `i`. -/
def attach (i : SegId) (s : Space) : Nat := if s.shmVa i ≠ 0 then 1 else 0

theorem attachCount_eq_sum (space : Slot → Space) (i : SegId) :
    attachCount space i = ∑ p, attach i (space p) := Finset.card_filter _ _

theorem attachCount_update (space : Slot → Space) (p : Slot) (s : Space) (i : SegId) :
    attachCount (update space p s) i + attach i (space p) =
      attachCount space i + attach i s := by
  rw [attachCount_eq_sum, attachCount_eq_sum]
  exact StateWp.sum_update Finset.univ (attach i) space p s (Finset.mem_univ p)

structure MemInv (ram : Ram) (m : Mem) : Prop where
  fixed : m.kmem.kend = ram.kend ∧ m.kmem.tramp = ram.tramp
  owned : Kmem.free m.kmem + ∑ i, segPages (m.shm i) + ∑ p, spacePages (m.space p) = ram.pages
  keys : ∀ i j, (m.shm i).used = true → (m.shm j).used = true → (m.shm i).key = (m.shm j).key →
    i = j
  count : ∀ i, (m.shm i).used = true → 1 ≤ (m.shm i).npages ∧ (m.shm i).npages ≤ 4
  refs : ∀ i, (m.shm i).used = true → (m.shm i).refcount = attachCount m.space i
  layout : ∀ p, Layout ram.tramp m.shm (m.space p)
  torn : ∀ x ∈ m.kmem.torn, NoStray x.1 (pageCount x.2)

variable {ram : Ram} {m m' : Mem} {p : Slot} {k' : Kmem}

/-- The state in which `p` has another address space and the allocator has moved on. -/
abbrev putSpace (m : Mem) (k : Kmem) (p : Slot) (s : Space) : Mem :=
  ⟨k, m.shm, update m.space p s⟩

theorem MemInv.mem_ram (h : MemInv ram m) {x : Nat}
    (hx : x ∈ Kmem.free m.kmem ∨ (∃ i, x ∈ segPages (m.shm i)) ∨ ∃ p, x ∈ spacePages (m.space p)) :
    x ∈ ram.pages := by
  rw [← h.owned, Multiset.mem_add, Multiset.mem_add, Multiset.mem_sum, Multiset.mem_sum]
  rcases hx with hx | ⟨i, hx⟩ | ⟨p, hx⟩
  · exact .inl (.inl hx)
  · exact .inl (.inr ⟨i, Finset.mem_univ i, hx⟩)
  · exact .inr ⟨p, Finset.mem_univ p, hx⟩

theorem MemInv.sound (h : MemInv ram m) (p : Slot) : Sound m.kmem (spacePages (m.space p)) := by
  intro x hx
  rw [h.fixed.1]
  apply ram.ok
  apply h.mem_ram
  rcases Multiset.mem_add.mp hx with hx | hx
  · exact .inl hx
  · exact .inr (.inr ⟨p, hx⟩)

theorem MemInv.sound_table (h : MemInv ram m) (hpt : (m.space p).pagetable = some pt) :
    Sound m.kmem (nodes pt + rangePages pt 0 (pageCount (m.space p).sz)) := by
  apply (h.sound p).mono
  rw [spacePages, tablePages, hpt]
  exact Multiset.le_add_left _ _

/-- Replacing one address space, with the page accounting to match. -/
theorem MemInv.update_space (h : MemInv ram m) (s : Space)
    (hm : Moves m.kmem (spacePages (m.space p)) k' (spacePages s))
    (hl : Layout ram.tramp m.shm s) (hva : ∀ i, s.shmVa i ≠ 0 ↔ (m.space p).shmVa i ≠ 0) :
    MemInv ram (putSpace m k' p s) := by
  refine ⟨⟨hm.fixed.1.trans h.fixed.1, hm.fixed.2.trans h.fixed.2⟩, ?_, h.keys, h.count, ?_, ?_, ?_⟩
  · apply add_right_cancel (b := spacePages (m.space p))
    have hsum := StateWp.sum_update Finset.univ spacePages m.space p s (Finset.mem_univ p)
    calc Kmem.free k' + ∑ i, segPages (m.shm i) +
          ∑ q, spacePages (update m.space p s q) + spacePages (m.space p)
        = Kmem.free k' + ∑ i, segPages (m.shm i) +
          (∑ q, spacePages (update m.space p s q) + spacePages (m.space p)) := by abel
      _ = (Kmem.free k' + spacePages s) + ∑ i, segPages (m.shm i) +
          ∑ q, spacePages (m.space q) := by rw [hsum]; abel
      _ = ram.pages + spacePages (m.space p) := by rw [← hm.total, ← h.owned]; abel
  · intro i hi
    have hattach : attach i s = attach i (m.space p) := by
      simp only [attach, hva i]
    have hcount := attachCount_update m.space p s i
    rw [hattach] at hcount
    rw [h.refs i hi, Nat.add_right_cancel hcount]
  · intro q
    by_cases hq : q = p
    · subst hq
      simpa using hl
    · simpa [hq] using h.layout q
  · intro x hx
    rcases hm.torn x hx with hx | hx
    · exact h.torn x hx
    · exact hx

theorem MemInv.mapped (h : MemInv ram m) (hpt : (m.space p).pagetable = some pt) :
    Mapped ram.tramp m.shm (m.space p) pt := by
  have hl := h.layout p
  rw [Layout, hpt] at hl
  exact hl

/-- A step of process `p` on its own heap: no segment and no other address space
changes, and only free pages and pages of `p` are handed to `kfree`. -/
structure OwnStep (m : Mem) (p : Slot) (m' : Mem) : Prop where
  shm : m'.shm = m.shm
  others : ∀ q, q ≠ p → m'.space q = m.space q
  va : (m'.space p).shmVa = (m.space p).shmVa
  table : (m'.space p).pagetable.isSome = true
  freed : ∃ d, m'.kmem.freed = d ++ m.kmem.freed ∧
    ∀ x ∈ d, x ∈ Kmem.free m.kmem + spacePages (m.space p)

/-- Giving `p` another page table and size. -/
theorem MemInv.own_step (h : MemInv ram m) (hpt : (m.space p).pagetable = some pt) (pt' : PageTable)
    (sz' : Nat)
    (hm : Moves m.kmem (nodes pt + rangePages pt 0 (pageCount (m.space p).sz)) k'
      (nodes pt' + rangePages pt' 0 (pageCount sz')))
    (hsize : pageCount sz' ≤ 67108862)
    (habove : ∀ v < maxPage, pageCount sz' ≤ v →
      pt'.map v = window ram.tramp (m.space p).trapframe m.shm (m.space p).shmVa v)
    (hapart : ∀ i, (m.space p).shmVa i ≠ 0 → pageCount sz' ≤ basePage i) :
    MemInv ram (putSpace m k' p { m.space p with pagetable := some pt', sz := sz' }) ∧
      OwnStep m p (putSpace m k' p { m.space p with pagetable := some pt', sz := sz' }) := by
  have hmoves : Moves m.kmem (spacePages (m.space p)) k'
      (spacePages { m.space p with pagetable := some pt', sz := sz' }) := by
    have hframe := hm.add (if (m.space p).trapframe = 0 then 0 else {(m.space p).trapframe})
    refine hframe.of_eq ?_ ?_
    · rw [spacePages, tablePages, hpt, add_comm]
      rfl
    · rw [spacePages, tablePages, add_comm]
      rfl
  constructor
  · apply h.update_space _ hmoves
    · refine ⟨hsize, habove, ?_⟩
      intro i hi
      obtain ⟨hused, hbase, -⟩ := (h.mapped hpt).attached i hi
      exact ⟨hused, hbase, hapart i hi⟩
    · intro i
      rfl
  · obtain ⟨d, hd, hmem⟩ := hmoves.freed
    refine ⟨rfl, ?_, ?_, ?_, d, hd, hmem⟩
    · intro q hq
      simp [hq]
    · simp
    · simp

/-- Filling holes below the heap's end is a step on the own heap. -/
theorem MemInv.filled (h : MemInv ram m) {pt pt' : PageTable}
    (hpt : (m.space p).pagetable = some pt) (hf : Filled m.kmem (m.space p).sz pt pt' k') :
    MemInv ram (putSpace m k' p { m.space p with pagetable := some pt' }) ∧
      OwnStep m p (putSpace m k' p { m.space p with pagetable := some pt' }) := by
  have hmap := h.mapped hpt
  apply h.own_step hpt pt' (m.space p).sz hf.moves hmap.size
  · intro v hv hge
    rw [hf.above v hv hge]
    exact hmap.above v hv hge
  · intro i hi
    exact (hmap.attached i hi).2.2

theorem pageFault_wp (h : MemInv ram m) (hpt : (m.space p).pagetable = some pt) (va : Nat) :
    wp (pageFault p va) (fun _ m' => MemInv ram m' ∧ OwnStep m p m' ∧
      (m'.space p).sz = (m.space p).sz) m := by
  simp only [pageFault, wp_bind, wp_get, wp_ownTable _ hpt, wp_onKmem, wp_setTable]
  apply (vmfault_wp _ pt va (h.mapped hpt).size _ (h.sound_table hpt)).mono
  rintro ⟨pt', pa⟩ k' ⟨hf, -⟩
  rw [wp_pure]
  exact ⟨(h.filled hpt hf).1, (h.filled hpt hf).2, by simp⟩

theorem copyoutProc_wp (h : MemInv ram m) (hpt : (m.space p).pagetable = some pt) (addr : Nat)
    (src : List UInt8) :
    wp (copyoutProc p addr src) (fun _ m' => MemInv ram m' ∧ OwnStep m p m' ∧
      (m'.space p).sz = (m.space p).sz) m := by
  simp only [copyoutProc, wp_bind, wp_get, wp_ownTable _ hpt, wp_onKmem, wp_setTable]
  apply (copyout_wp _ pt addr src (h.mapped hpt).size _ (h.sound_table hpt)).mono
  rintro ⟨pt', ok⟩ k' hf
  rw [wp_pure]
  exact ⟨(h.filled hpt hf).1, (h.filled hpt hf).2, by simp⟩

theorem OwnStep.refl (hpt : (m.space p).pagetable.isSome = true) : OwnStep m p m :=
  ⟨rfl, fun _ _ => rfl, rfl, hpt, [], rfl, by simp⟩

/-- Below the segments that are attached nothing is mapped above the heap. -/
theorem window_below {v n : Nat} (hv : v < n) (hn : n ≤ 67108862)
    (hva : ∀ i, va i ≠ 0 → n ≤ basePage i) :
    window tramp tf shm va v = none := by
  unfold window
  split
  · next i j hseg =>
    obtain ⟨rfl, -⟩ := segOf_eq_some hseg
    by_cases hi : va i = 0
    · simp [hi]
    · have := hva i hi
      omega
  · exact trapMap_eq_none tramp tf (by omega)

theorem rangePages_hole (pt : PageTable) {a b : Nat} (hab : a ≤ b)
    (hnone : ∀ v, a ≤ v → v < b → pt.map v = none) : rangePages pt 0 b = rangePages pt 0 a := by
  have he := rangePages_add pt 0 a (b - a)
  rw [Nat.zero_add, Nat.add_sub_cancel' hab] at he
  rw [he, rangePages_none pt a (b - a) (fun w hlo hhi => hnone w hlo (by omega)), add_zero]

theorem pageCount_mono {a b : Nat} (h : a ≤ b) : pageCount a ≤ pageCount b := by
  unfold pageCount
  omega

theorem pageCount_le_tfPage {sz : Nat} (h : ¬ trapframe < sz) : pageCount sz ≤ 67108862 := by
  have hle : sz ≤ 274877898752 := Nat.le_of_not_lt h
  unfold pageCount
  omega

/-- The size `sz` keeps clear of every segment that `p` is attached to. -/
def Clear (m : Mem) (p : Slot) (sz : Nat) : Prop :=
  ∀ i, (m.space p).shmVa i ≠ 0 → pageCount sz ≤ basePage i

theorem growproc_wp (h : MemInv ram m) (hpt : (m.space p).pagetable = some pt) (n : Int)
    (hclear : Clear m p ((m.space p).sz + n.toNat)) :
    wp (growproc p n) (fun _ m' => MemInv ram m' ∧ OwnStep m p m' ∧
      (m'.space p).sz ≤ (m.space p).sz + n.toNat) m := by
  have hmap := h.mapped hpt
  have hsome : (m.space p).pagetable.isSome = true := by simp [hpt]
  simp only [growproc, wp_bind, wp_get]
  by_cases hpos : 0 < n
  · rw [if_pos hpos]
    by_cases hbig : trapframe < (m.space p).sz + n.toNat
    · rw [if_pos hbig, wp_pure]
      exact ⟨h, OwnStep.refl hsome, Nat.le_add_right _ _⟩
    · rw [if_neg hbig]
      have hle := pageCount_mono (Nat.le_add_right (m.space p).sz n.toNat)
      have hmax := pageCount_le_tfPage hbig
      have hnone : ∀ v, pageCount (m.space p).sz ≤ v → v < pageCount ((m.space p).sz + n.toNat) →
          pt.map v = none := by
        intro v hlo hhi
        rw [hmap.above v (lt_maxPage (by omega)) hlo]
        exact window_below hhi hmax hclear
      have hs := (h.sound_table hpt).mono (Multiset.le_add_right _ _)
      simp only [wp_bind, wp_ownTable _ hpt, wp_onKmem, wp_setTable]
      apply (uvmalloc_wp pt _ _ true false _ (by omega) hle (by omega) hnone _
        (.inl (le_refl _)) hs).mono
      rintro ⟨pt', sz'⟩ k' (⟨rfl, -, hext⟩ | ⟨rfl, hkept⟩)
      · have hne : (m.space p).sz + n.toNat ≠ 0 := by omega
        simp only [if_neg hne, wp_bind, wp_setSpace, wp_pure, update_self,
          update_idem]
        refine and_assoc.mp ⟨h.own_step hpt pt' _ (hext.grow hle (by omega)) hmax ?_ hclear,
          by simp⟩
        intro v hv hge
        rw [hext.same v hv (.inr hge)]
        exact hmap.above v hv (by omega)
      · simp only [if_true, wp_pure]
        refine and_assoc.mp ⟨h.own_step hpt pt' (m.space p).sz
          (hkept.grow (by have := hmap.size; omega)) hmap.size ?_ ?_, by simp⟩
        · intro v hv hge
          rw [hkept.same v hv]
          exact hmap.above v hv hge
        · intro i hi
          exact (hmap.attached i hi).2.2
  rw [if_neg hpos]
  by_cases hneg : n < 0
  · rw [if_pos hneg]
    simp only [wp_bind, wp_ownTable _ hpt, wp_onKmem, wp_setTable, wp_setSpace, wp_pure,
      update_self, update_idem]
    generalize ((((m.space p).sz : Int) + n) % 2 ^ 64).toNat = newsz
    have hapart : ∀ i, (m.space p).shmVa i ≠ 0 → pageCount (m.space p).sz ≤ basePage i :=
      fun i hi => (hmap.attached i hi).2.2
    by_cases hlt : newsz < (m.space p).sz
    · have hle := pageCount_mono (Nat.le_of_lt hlt)
      have hsplit := rangePages_add pt 0 (pageCount newsz)
        (pageCount (m.space p).sz - pageCount newsz)
      rw [Nat.zero_add, Nat.add_sub_cancel' hle] at hsplit
      have hs : Sound m.kmem (rangePages pt (pageCount newsz)
          (pageCount (m.space p).sz - pageCount newsz)) := by
        apply (h.sound_table hpt).mono
        rw [hsplit, ← add_assoc]
        exact Multiset.le_add_left _ _
      have hsize := hmap.size
      apply (uvmdealloc_wp pt _ newsz (by omega) hlt _ hs).mono
      rintro ⟨pt', sz'⟩ k' ⟨hsz', hnodes, hcl, hf⟩
      simp only at hsz'
      subst hsz'
      refine and_assoc.mp ⟨h.own_step hpt pt' sz' ?_ (by omega) ?_ ?_, by simp; omega⟩
      rotate_left
      · intro v hv hge
        rw [hcl v hv, cleared]
        by_cases hin : pageCount sz' ≤ v ∧
            v < pageCount sz' + (pageCount (m.space p).sz - pageCount sz')
        · rw [if_pos hin]
          exact (window_below (by omega) hsize hapart).symm
        · rw [if_neg hin]
          exact hmap.above v hv (by omega)
      · intro i hi
        have := hapart i hi
        omega
      · have hlow : rangePages pt' 0 (pageCount sz') = rangePages pt 0 (pageCount sz') := by
          apply rangePages_congr
          intro w _ hw
          rw [hcl w (lt_maxPage (by omega)), cleared, if_neg (by omega)]
        rw [hsplit, hnodes, hlow, ← add_assoc]
        have hm := hf.moves.add (nodes pt + rangePages pt 0 (pageCount sz'))
        rw [zero_add, add_comm] at hm
        exact hm
    · rw [uvmdealloc, if_pos (by omega), wp_pure]
      exact and_assoc.mp
        ⟨h.own_step hpt pt _ (Moves.refl _ _) hmap.size hmap.above hapart, by simp⟩
  · rw [if_neg hneg, wp_pure]
    exact ⟨h, OwnStep.refl hsome, Nat.le_add_right _ _⟩

theorem sysSbrk_wp (h : MemInv ram m) (hpt : (m.space p).pagetable = some pt) (n t : Int)
    (hclear : Clear m p ((m.space p).sz + n.toNat)) :
    wp (sysSbrk p n t) (fun _ m' => MemInv ram m' ∧ OwnStep m p m' ∧
      (m'.space p).sz ≤ (m.space p).sz + n.toNat) m := by
  have hmap := h.mapped hpt
  have hsize := hmap.size
  have hsome : (m.space p).pagetable.isSome = true := by simp [hpt]
  simp only [sysSbrk, wp_bind, wp_get]
  by_cases heager : t = sbrkEager ∨ n < 0
  · rw [if_pos heager, wp_bind]
    apply (growproc_wp h hpt n hclear).mono
    intro ok m' hm
    rw [wp_pure]
    exact hm
  rw [if_neg heager]
  by_cases hwrap : (((m.space p).sz : Int) + n) % 2 ^ 64 < (m.space p).sz
  · rw [if_pos hwrap, wp_pure]
    exact ⟨h, OwnStep.refl hsome, Nat.le_add_right _ _⟩
  rw [if_neg hwrap]
  by_cases hbig : (trapframe : Int) < (((m.space p).sz : Int) + n) % 2 ^ 64
  · rw [if_pos hbig, wp_pure]
    exact ⟨h, OwnStep.refl hsome, Nat.le_add_right _ _⟩
  rw [if_neg hbig]
  simp only [wp_bind, wp_setSpace, wp_pure]
  have hn : 0 ≤ n := by
    by_contra hneg
    exact heager (.inr (by omega))
  generalize hnew : ((((m.space p).sz : Int) + n) % 2 ^ 64).toNat = newsz
  have hle : (m.space p).sz ≤ newsz := by omega
  have hgrow : newsz ≤ (m.space p).sz + n.toNat := by omega
  have htf : ¬ trapframe < newsz := by
    intro hlt
    apply hbig
    have hlt' : (trapframe : Int) < (newsz : Int) := by exact_mod_cast hlt
    omega
  have hmax := pageCount_le_tfPage htf
  have hclear' : ∀ i, (m.space p).shmVa i ≠ 0 → pageCount newsz ≤ basePage i := by
    intro i hi
    exact le_trans (pageCount_mono hgrow) (hclear i hi)
  have hhole : rangePages pt 0 (pageCount newsz) = rangePages pt 0 (pageCount (m.space p).sz) := by
    apply rangePages_hole pt (pageCount_mono hle)
    intro v hlo hhi
    rw [hmap.above v (lt_maxPage (by omega)) hlo]
    exact window_below hhi hmax hclear'
  have hown := h.own_step hpt pt newsz ((Moves.refl m.kmem _).of_eq rfl (by rw [hhole])) hmax
    (fun v hv hge => hmap.above v hv (le_trans (pageCount_mono hle) hge)) hclear'
  rw [← hpt] at hown
  exact and_assoc.mp ⟨hown, by simpa using hgrow⟩

/-- 128 MiB hold at most 32768 pages. -/
theorem Ram.card_le (ram : Ram) : Multiset.card ram.pages ≤ 32768 := by
  rw [← Multiset.toFinset_card_of_nodup ram.nodup]
  have hcard : (Finset.Ico 524288 557056).card = 32768 := by simp
  rw [← hcard]
  have hok : ∀ x ∈ ram.pages.toFinset, x % 4096 = 0 ∧ 2147483648 ≤ x ∧ x < 2281701376 := by
    intro x hx
    have h := ram.ok x (Multiset.mem_toFinset.mp hx)
    exact ⟨h.1, le_trans ram.above h.2.1, h.2.2⟩
  apply Finset.card_le_card_of_injOn (fun x => x / 4096)
  · intro x hx
    have h := hok x hx
    simp only [Finset.coe_Ico, Set.mem_Ico]
    omega
  · intro x hx y hy hxy
    have hx' := hok x hx
    have hy' := hok y hy
    simp only at hxy
    omega

theorem MemInv.card_free (h : MemInv ram m) : Multiset.card (Kmem.free m.kmem) ≤ 32768 := by
  apply le_trans _ ram.card_le
  rw [← h.owned, add_assoc, Multiset.card_add]
  exact Nat.le_add_right _ _

/-- The state with other memory contents. -/
abbrev putBytes (m : Mem) (bytes : Nat → UInt8) : Mem :=
  ⟨{ m.kmem with bytes := bytes }, m.shm, m.space⟩

theorem MemInv.of_bytes (h : MemInv ram m) (bytes : Nat → UInt8) : MemInv ram (putBytes m bytes) :=
  ⟨h.fixed, h.owned, h.keys, h.count, h.refs, h.layout, h.torn⟩

theorem OwnStep.of_bytes (h : OwnStep m p m') (bytes : Nat → UInt8) :
    OwnStep m p (putBytes m' bytes) :=
  ⟨h.shm, h.others, h.va, h.table, h.freed⟩

theorem setReg_wp (q : Slot) (r : Reg) (value : Nat) (m : Mem) :
    wp (setReg q r value) (fun _ m' => ∃ bytes, m' = putBytes m bytes) m := by
  simp only [setReg, wp_bind, wp_get, wp_onKmem, memmove, wp_modify]
  exact ⟨_, rfl⟩

/-- `kexec` of a process comes to the point where it commits. -/
def ExecCommits (p : Slot) (img : Option Image) (argv : Argv) (m : Mem) : Prop :=
  ∃ pt, (m.space p).pagetable = some pt ∧
    Commits (m.space p).sz pt (m.space p).trapframe img argv m.kmem

/-- The process has the table and the size that `kexec` ended with. -/
theorem MemInv.executed (h : MemInv ram m) {pt pt' : PageTable} {sz : Nat}
    {started : Option (Nat × Nat)} {k' : Kmem} (hpt : (m.space p).pagetable = some pt)
    (hva : started ≠ none → ∀ i, (m.space p).shmVa i = 0)
    (hex : Executed m.kmem (m.space p).sz pt (m.space p).trapframe (pt', sz, started) k') :
    (MemInv ram (putSpace m k' p { m.space p with pagetable := some pt', sz := sz }) ∧
      OwnStep m p (putSpace m k' p { m.space p with pagetable := some pt', sz := sz })) ∧
      (sz = (m.space p).sz ∨ pageCount sz ≤ 32768) := by
  have hmap := h.mapped hpt
  have hfree := h.card_free
  rcases hex with ⟨-, hpt', hsz, hm⟩ | ⟨hstarted, hsmall, htrap, hm⟩
  · simp only at hpt' hsz
    subst hpt' hsz
    refine ⟨h.own_step hpt pt' _ ?_ hmap.size hmap.above fun i hi => (hmap.attached i hi).2.2,
      .inl rfl⟩
    have hframe := hm.add (nodes pt' + rangePages pt' 0 (pageCount (m.space p).sz))
    rw [zero_add] at hframe
    exact hframe
  · simp only at hstarted hsmall htrap hm
    refine ⟨h.own_step hpt pt' sz hm (by omega) ?_ ?_, .inr (by omega)⟩
    · intro v hv hge
      rw [htrap v hv hge, h.fixed.2, window_eq_trapMap (hva hstarted)]
    · intro i hi
      exact absurd (hva hstarted i) hi

theorem execProc_wp (h : MemInv ram m) (hpt : (m.space p).pagetable = some pt) (img : Option Image)
    (argv : Argv) (hva : ExecCommits p img argv m → ∀ i, (m.space p).shmVa i = 0) :
    wp (execProc p img argv) (fun _ m' => MemInv ram m' ∧ OwnStep m p m' ∧
      ((m'.space p).sz = (m.space p).sz ∨ pageCount (m'.space p).sz ≤ 32768)) m := by
  have hmap := h.mapped hpt
  have hfree := h.card_free
  have hstray : Commits (m.space p).sz pt (m.space p).trapframe img argv m.kmem →
      NoStray pt (pageCount (m.space p).sz) := by
    intro hcommit v hv hne
    by_cases hlt : v < pageCount (m.space p).sz
    · exact .inr (.inr hlt)
    · rw [hmap.above v hv (by omega)] at hne
      rcases window_detached (hva ⟨pt, hpt, hcommit⟩) hne with h | h
      · exact .inl h
      · exact .inr (.inl h)
  have hkend : 0 < m.kmem.kend := by
    have habove : 2147483648 ≤ ram.kend := ram.above
    rw [h.fixed.1]
    omega
  simp only [execProc, wp_bind, wp_get, wp_ownTable _ hpt, wp_onKmem, wp_setSpace]
  apply (kexec_wp _ pt _ img argv hmap.size _ hstray (h.sound_table hpt) hkend (by omega)).mono
  rintro ⟨pt', sz', started⟩ k' ⟨hex, hcommit⟩
  obtain ⟨⟨hinv, hown⟩, hsz⟩ := h.executed hpt (fun hne => hva ⟨pt, hpt, hcommit hne⟩) hex
  have hdone : ∀ bytes, MemInv ram (putBytes (putSpace m k' p
      { m.space p with pagetable := some pt', sz := sz' }) bytes) ∧
      OwnStep m p (putBytes (putSpace m k' p
      { m.space p with pagetable := some pt', sz := sz' }) bytes) ∧
      (sz' = (m.space p).sz ∨ pageCount sz' ≤ 32768) :=
    fun bytes => ⟨hinv.of_bytes bytes, hown.of_bytes bytes, hsz⟩
  split
  · simp only [wp_bind]
    apply (setReg_wp p _ _ _).mono
    rintro _ _ ⟨b₁, rfl⟩
    apply (setReg_wp p _ _ _).mono
    rintro _ _ ⟨b₂, rfl⟩
    apply (setReg_wp p _ _ _).mono
    rintro _ _ ⟨b₃, rfl⟩
    rw [wp_pure]
    simpa using hdone b₃
  · rw [wp_pure]
    simpa using hdone k'.bytes

/-- Each page has at most one owner. -/
theorem MemInv.count_le_one (h : MemInv ram m) (x : Nat) :
    (Kmem.free m.kmem).count x + ∑ i, (segPages (m.shm i)).count x +
      ∑ p, (spacePages (m.space p)).count x ≤ 1 := by
  rw [← Multiset.count_sum', ← Multiset.count_sum', ← Multiset.count_add, ← Multiset.count_add,
    h.owned]
  exact Multiset.nodup_iff_count_le_one.mp ram.nodup x

/-- A page of a segment is not free, not in an address space and not in another segment. -/
theorem MemInv.seg_owned (h : MemInv ram m) {i : SegId} {x : Nat} (hx : x ∈ segPages (m.shm i)) :
    x ∉ Kmem.free m.kmem ∧ (∀ p, x ∉ spacePages (m.space p)) ∧
      (∀ j, j ≠ i → x ∉ segPages (m.shm j)) ∧ (segPages (m.shm i)).count x = 1 := by
  have hle := h.count_le_one x
  have hone : 1 ≤ (segPages (m.shm i)).count x := Multiset.one_le_count_iff_mem.mpr hx
  have hi := Finset.single_le_sum (f := fun i => (segPages (m.shm i)).count x)
    (fun _ _ => Nat.zero_le _) (Finset.mem_univ i)
  refine ⟨?_, ?_, ?_, by omega⟩
  · intro hfree
    have := Multiset.one_le_count_iff_mem.mpr hfree
    omega
  · intro p hp
    have h₁ := Multiset.one_le_count_iff_mem.mpr hp
    have h₂ := Finset.single_le_sum (f := fun p => (spacePages (m.space p)).count x)
      (fun _ _ => Nat.zero_le _) (Finset.mem_univ p)
    omega
  · intro j hj hxj
    have h₁ := Multiset.one_le_count_iff_mem.mpr hxj
    have h₂ := Finset.add_le_sum (f := fun i => (segPages (m.shm i)).count x)
      (fun _ _ => Nat.zero_le _) (Finset.mem_univ i) (Finset.mem_univ j) hj.symm
    omega

/-- What a step does to the pages of the segments in use: a segment that stays
keeps its pages and none of them is freed; a segment that goes had one reference
left, and each of its pages is freed once. -/
def SegFreed (m m' : Mem) : Prop :=
  ∃ d, m'.kmem.freed = d ++ m.kmem.freed ∧ ∀ i, (m.shm i).used = true →
    ((m'.shm i).used = true ∧ (m'.shm i).key = (m.shm i).key ∧
      (m'.shm i).npages = (m.shm i).npages ∧ (m'.shm i).pa = (m.shm i).pa ∧
      ∀ x ∈ segPages (m.shm i), x ∉ d) ∨
    ((m.shm i).refcount = 1 ∧ (m'.shm i).used = false ∧
      ∀ x ∈ segPages (m.shm i), d.count x = 1 ∧ x ∈ m'.kmem.freelist)

theorem OwnStep.segFreed (h : MemInv ram m) (hs : OwnStep m p m') : SegFreed m m' := by
  obtain ⟨d, hd, hmem⟩ := hs.freed
  refine ⟨d, hd, ?_⟩
  intro i hi
  left
  rw [hs.shm]
  refine ⟨hi, rfl, rfl, rfl, ?_⟩
  intro x hx hxd
  obtain ⟨hfree, hspace, -, -⟩ := h.seg_owned hx
  rcases Multiset.mem_add.mp (hmem x hxd) with h | h
  · exact hfree h
  · exact hspace p h

end KernelMemInv
