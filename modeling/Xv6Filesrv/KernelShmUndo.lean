import Xv6Filesrv.KernelSpaces
import Xv6Filesrv.KernelShmIds

/-!
# What `sys_shmget` and `sys_shmat` leave when they fail

Both calls take pages one at a time and undo by hand when `kalloc` finds none.  The page tables
here are arbitrary ones, and `kalloc` may fail at any point; the only thing that is used of a
reachable state is that no segment has more than four pages.  The window of a segment then lies
under one table of the last level, so that only the first page of a segment can fail to be mapped,
and a failure says that this table is missing.
-/

namespace KernelShmUndo

open StateWp StateFrame KernelPages KernelPageTable KernelShm
open KernelMemInv KernelShmInv KernelProcInv KernelProc KernelSteps
open KernelBoot KernelShmIds KernelPrograms
open Function (update update_of_ne update_self)

variable {ram : Ram} {m m' m₁ : Mem} {s s' s₀ : Kernel} {p q : Slot} {i : SegId} {k k' : Kmem}
  {pt pt' : PageTable} {key size id : Int} {n j va v w b : Nat} {α : Type}

/-! ## Where `walk` stops -/

/-- No page is handed to `kfree`. -/
def SameFreed (k k' : Kmem) : Prop := k'.freed = k.freed

instance : Std.Refl SameFreed := ⟨fun _ => rfl⟩

instance : IsTrans Kmem SameFreed := ⟨fun _ _ _ h h' => Eq.trans h' h⟩

theorem SameFreed.taking : Taking SameFreed where
  none _ := rfl
  some _ _ _ _ _ _ := rfl

theorem kalloc_enough {o : Option Nat} (hf : k.fails = []) (hl : 0 < k.freelist.length)
    (h : kalloc k = .ok (o, k')) :
    o.isSome = true ∧ k'.fails = [] ∧ k'.freelist.length + 1 = k.freelist.length := by
  rcases kalloc_ok h with ⟨-, hnone, -⟩ | ⟨r, rest, rfl, hlist, rfl⟩
  · rcases hnone with hfail | hempty
    · simp [hf] at hfail
    · simp [hempty] at hl
  · simp [hf, hlist]

/-- What a round of `walk` can do: it finds the table below, makes an empty one, or stops. -/
inductive Descends (alloc : Bool) (t : Table (Table α)) (j : Nat) (k : Kmem) :
    Option (Table α) × Table (Table α) → Kmem → Prop
  | found {c : Table α} (hs : t.slot j = some c) : Descends alloc t j k (some c, t) k
  | missing (hs : t.slot j = none) (ha : alloc = false) : Descends alloc t j k (none, t) k
  | full {k' : Kmem} (hs : t.slot j = none) (hk : kalloc k = .ok (none, k')) :
      Descends alloc t j k (none, t) k'
  | fresh {pa : Nat} {k' : Kmem} (hs : t.slot j = none) (hk : kalloc k = .ok (some pa, k')) :
      Descends alloc t j k (some (Table.empty pa), t.put j (some (Table.empty pa)))
        { k' with bytes := fill k'.bytes pa pgsize 0 }

theorem descend_ok {t : Table (Table α)} {alloc : Bool} {r : Option (Table α) × Table (Table α)}
    (h : descend alloc t j k = .ok (r, k')) : Descends alloc t j k r k' := by
  cases hs : t.slot j with
  | some c =>
    rw [descend, hs] at h
    cases h
    exact .found hs
  | none =>
    rw [descend, hs] at h
    cases alloc with
    | false =>
      cases h
      exact .missing hs rfl
    | true =>
      obtain ⟨o, k₁, hk, h⟩ := bind_ok h
      cases o with
      | none =>
        cases h
        exact .full hs hk
      | some pa =>
        cases h
        exact .fresh hs hk

theorem descend_enough {t t' : Table (Table α)} {c : Option (Table α)} (hf : k.fails = [])
    (hl : 0 < k.freelist.length) (h : descend true t j k = .ok ((c, t'), k')) :
    c.isSome = true ∧ k'.fails = [] ∧ k.freelist.length ≤ k'.freelist.length + 1 := by
  cases descend_ok h with
  | found _ => exact ⟨rfl, hf, Nat.le_succ _⟩
  | missing _ ha => cases ha
  | full _ hk => cases (kalloc_enough hf hl hk).1
  | fresh _ hk =>
    obtain ⟨-, hf₁, hl₁⟩ := kalloc_enough hf hl hk
    exact ⟨rfl, hf₁, hl₁.ge⟩

/-- `walk` fails where there is no table of the last level, and it does not make one there. -/
theorem walk_missing (h : walk pt va true k = .ok ((pt', false), k')) :
    pt.reaches (va / 4096) = false ∧ pt'.reaches (va / 4096) = false := by
  have hpx : ∀ level, px level (va / 4096 * 4096) = px level va := by
    intro level
    simp [px_page]
  simp only [Table.reaches, hpx]
  unfold walk at h
  split at h
  · cases h
  · obtain ⟨⟨c, pt₁⟩, k₁, hc, h⟩ := bind_ok h
    cases c with
    | none =>
      cases h
      cases descend_ok hc with
      | missing hs _ | full hs _ => simp [hs]
    | some t₁ =>
      obtain ⟨⟨c, t₁'⟩, k₂, ht, h⟩ := bind_ok h
      cases c with
      | some t₀ => cases h
      | none =>
        cases h
        have hstop : t₁.slot (px 1 va) = none ∧ t₁' = t₁ := by
          cases descend_ok ht with
          | missing hs _ | full hs _ => exact ⟨hs, rfl⟩
        obtain ⟨hslot, rfl⟩ := hstop
        cases descend_ok hc with
        | found hs => simp [hs, hslot]
        | fresh hs _ => simp [hs, hslot]

/-- Two free pages are enough for `walk`. -/
theorem walk_enough {ok : Bool} (hf : k.fails = []) (hl : 2 ≤ k.freelist.length)
    (h : walk pt va true k = .ok ((pt', ok), k')) : ok = true := by
  unfold walk at h
  split at h
  · cases h
  · obtain ⟨⟨c, pt₁⟩, k₁, hc, h⟩ := bind_ok h
    obtain ⟨hsome, hf₁, hl₁⟩ := descend_enough hf (by omega) hc
    cases c with
    | none => cases hsome
    | some t₁ =>
      obtain ⟨⟨c, t₁'⟩, k₂, ht, h⟩ := bind_ok h
      obtain ⟨hsome₂, -, -⟩ := descend_enough hf₁ (by omega) ht
      cases h
      exact hsome₂

/-- One table of the last level holds the entries of 512 consecutive pages. -/
theorem reaches_congr (pt : PageTable) (h : v / 512 = w / 512) : pt.reaches v = pt.reaches w := by
  have h₁ : px 1 (v * 4096) = px 1 (w * 4096) := by
    simp only [px_page, pow_one]
    omega
  have h₂ : px 2 (v * 4096) = px 2 (w * 4096) := by
    simp only [px_page]
    omega
  rw [Table.reaches, Table.reaches, h₁, h₂]

theorem map_of_missing (h : pt.reaches v = false) (hvw : v / 512 = w / 512) : pt.map w = none := by
  cases he : pt.map w with
  | none => rfl
  | some e =>
    have hr := reaches_of_map pt w e he
    rw [← reaches_congr pt hvw, h] at hr
    cases hr

/-! ## The loop of `shmat` -/

/-- Once the table of a segment's window is there, no page of it can fail. -/
theorem attachLoop_reached {pa : Nat → Nat} {ok : Bool} (hb : ∀ l < j + n, (b + l) / 512 = b / 512)
    (hr : pt.reaches b = true) (h : attachLoop n pt (b * 4096) pa j k = .ok ((pt', ok), k')) :
    ok = true := by
  induction n generalizing pt j k with
  | zero =>
    cases h
    rfl
  | succ n ih =>
    have hva : b * 4096 + j * pgsize = (b + j) * 4096 := by simp only [pgsize]; omega
    have hsame := hb j (by omega)
    rw [attachLoop, hva] at h
    obtain ⟨⟨pt₁, ok₁⟩, k₁, hm, h⟩ := bind_ok h
    rcases mappages_ok hm with ⟨-, hw⟩ | ⟨rfl, -, -, hreach, -⟩
    · have hmiss := (walk_missing hw).1
      rw [Nat.mul_div_cancel _ (by decide), reaches_congr pt hsame, hr] at hmiss
      cases hmiss
    · simp only [Bool.true_eq_false, if_false] at h
      rw [reaches_congr pt₁ hsame] at hreach
      exact ih (fun l hl => hb l (by omega)) hreach h

/-- The loop fails only if `walk` finds no table for the first page, and leaves what this `walk`
leaves. -/
theorem attachLoop_failed {pa : Nat → Nat} (hb : ∀ l < n, (b + l) / 512 = b / 512)
    (h : attachLoop n pt (b * 4096) pa 0 k = .ok ((pt', false), k')) :
    walk pt (b * 4096) true k = .ok ((pt', false), k') := by
  cases n with
  | zero => cases h
  | succ n =>
    rw [attachLoop, Nat.zero_mul, Nat.add_zero] at h
    obtain ⟨⟨pt₁, ok₁⟩, k₁, hm, h⟩ := bind_ok h
    rcases mappages_ok hm with ⟨rfl, hw⟩ | ⟨rfl, -, -, hreach, -⟩
    · cases h
      exact hw
    · simp only [Bool.true_eq_false, if_false] at h
      have hdone := attachLoop_reached (j := 0 + 1) (fun l hl => hb l (by omega)) hreach h
      cases hdone

/-! ## Failed calls -/

/-- The leaf entry of an address space for virtual page `v`. -/
def leaf (s : Space) (v : Nat) : Option Pte := s.pagetable.bind fun pt => pt.map v

/-- A failed `shmget` has given back its pages and its slot. -/
structure ShmgetUndone (m m' : Mem) : Prop where
  free : Kmem.free m'.kmem = Kmem.free m.kmem
  used : ∀ i, (m'.shm i).used = (m.shm i).used
  fields : ∀ i, (m.shm i).used = true → m'.shm i = m.shm i
  space : m'.space = m.space

/-- A failed `shmat` has changed no segment and no mapping, and has freed no page. -/
structure ShmatUndone (m m' : Mem) : Prop where
  shm : m'.shm = m.shm
  shmVa : ∀ q, (m'.space q).shmVa = (m.space q).shmVa
  leaves : ∀ q v, leaf (m'.space q) v = leaf (m.space q) v
  freed : m'.kmem.freed = m.kmem.freed

theorem freePages_free {l : List Nat} {u : PUnit} (h : freePages l k = .ok (u, k')) :
    Kmem.free k' = (l : Multiset Nat) + Kmem.free k := by
  induction l generalizing k with
  | nil =>
    cases h
    simp
  | cons x l ih =>
    rw [freePages, List.forM_cons] at h
    obtain ⟨_, k₁, hx, h⟩ := bind_ok h
    obtain ⟨-, rfl⟩ := kfree_ok hx
    rw [ih h]
    simp only [Kmem.free, Multiset.coe_add, Multiset.coe_eq_coe]
    exact List.perm_middle

/-- The rollback of `shmget` after `j` pages: they are free again, and so is the slot. -/
structure Emptied (m : Mem) (i : SegId) (j : Nat) (m' : Mem) : Prop where
  free : Kmem.free m'.kmem = ((List.range j).map (m.shm i).pa : List Nat) + Kmem.free m.kmem
  others : ∀ l, l ≠ i → m'.shm l = m.shm l
  unused : (m'.shm i).used = false
  space : m'.space = m.space

theorem shmFill_failed (h : shmFill n i j m = .ok (false, m')) : Emptied m i j m' := by
  induction n generalizing j m with
  | zero => cases h
  | succ n ih =>
    rw [shmFill] at h
    obtain ⟨page, m₁, hpage, h⟩ := bind_ok h
    obtain ⟨k₁, hk, rfl⟩ := onKmem_ok hpage
    have hfree := ((kalloc_wp m.kmem).post hk).total
    rw [add_zero] at hfree
    cases page with
    | none =>
      obtain ⟨_, m₂, hget, h⟩ := bind_ok h
      cases hget
      obtain ⟨_, m₃, hfreed, h⟩ := bind_ok h
      obtain ⟨k₂, hk₂, rfl⟩ := onKmem_ok hfreed
      obtain ⟨_, m₄, hset, h⟩ := bind_ok h
      cases hset
      cases h
      refine ⟨?_, ?_, by simp, rfl⟩
      · rw [freePages_free hk₂, hfree, pageOf_none, add_zero]
      · intro l hl
        simp [hl]
    | some mem =>
      obtain ⟨_, m₂, hset, h⟩ := bind_ok h
      obtain ⟨k₂, hk₂, rfl⟩ := onKmem_ok hset
      cases hk₂
      obtain ⟨_, m₃, hseg, h⟩ := bind_ok h
      cases hseg
      have hrest := ih h
      refine ⟨?_, ?_, hrest.unused, hrest.space⟩
      · have hrange := hrest.free
        simp only [update_self] at hrange
        rw [range_map_update] at hrange
        rw [hrange, hfree, ← Multiset.coe_add, add_assoc, pageOf_some, add_comm (Kmem.free k₁)]
        rfl
      · intro l hl
        rw [hrest.others l hl]
        simp [hl]

theorem sysShmget_failed (h : sysShmget key size m = .ok (-1, m')) : ShmgetUndone m m' := by
  rcases sysShmget_ok h with ⟨-, rfl⟩ | ⟨i, -, -, hid, -⟩ | ⟨i, ok, -, hunused, -, hid, hfill⟩
  · exact ⟨rfl, fun _ => rfl, fun _ _ => rfl, rfl⟩
  · omega
  · cases ok with
    | true =>
      rw [if_pos rfl] at hid
      omega
    | false =>
      have hempty := shmFill_failed hfill
      have hothers : ∀ l, l ≠ i → m'.shm l = m.shm l := by
        intro l hl
        rw [hempty.others l hl]
        simp [claimed, hl]
      refine ⟨by simpa [claimed] using hempty.free, ?_, ?_, hempty.space⟩
      · intro l
        by_cases hl : l = i
        · subst hl
          rw [hempty.unused, hunused]
        · rw [hothers l hl]
      · intro l hused
        apply hothers l
        rintro rfl
        rw [hunused] at hused
        cases hused

/-- No segment in use has more pages than its window. -/
def Sized (m : Mem) : Prop := ∀ i, (m.shm i).used = true → (m.shm i).npages ≤ 4

/-- The window of a segment lies under one table of the last level. -/
theorem basePage_window (i : SegId) {l : Nat} (hl : l < 4) :
    (basePage i + l) / 512 = basePage i / 512 := by
  have hi := i.isLt
  unfold basePage
  omega

/-- How `shmat` fails: the segment is not there, or the first page cannot be mapped. -/
theorem sysShmat_failed (hm : Sized m) (h : sysShmat p id m = .ok (-1, m')) :
    m' = m ∧ (∀ i, segId id = some i → (m.shm i).used = false) ∨
    ∃ i pt pt' k', segId id = some i ∧ (m.space p).shmVa i = 0 ∧
      (m.space p).pagetable = some pt ∧
      walk pt (basePage i * 4096) true m.kmem = .ok ((pt', false), k') ∧
      m' = ⟨k', m.shm, update m.space p { m.space p with pagetable := some pt' }⟩ := by
  cases hid : segId id with
  | none =>
    simp only [sysShmat, hid] at h
    cases h
    exact .inl ⟨rfl, fun i hi => absurd hi.symm (Option.some_ne_none i)⟩
  | some i =>
    simp only [sysShmat, hid] at h
    obtain ⟨_, m₁, hget, h⟩ := bind_ok h
    cases hget
    split at h
    · next hunused =>
      cases h
      left
      refine ⟨rfl, ?_⟩
      intro l hl
      cases hl
      exact hunused
    · next hused =>
      split at h
      · cases h
      · next hva =>
        obtain ⟨pt, m₂, hown, h⟩ := bind_ok h
        obtain ⟨⟨pt', ok⟩, m₃, hloop, h⟩ := bind_ok h
        obtain ⟨_, m₄, hset, h⟩ := bind_ok h
        cases ok with
        | true =>
          obtain ⟨_, m₅, -, h⟩ := bind_ok h
          obtain ⟨_, m₆, -, h⟩ := bind_ok h
          cases h
        | false =>
          cases h
          obtain ⟨rfl, hpt⟩ := ownTable_ok hown
          obtain ⟨k', hk, rfl⟩ := onKmem_ok hloop
          cases hset
          have hpages := hm i (by simpa using hused)
          rw [shmBase_eq] at hk
          have hwalk := attachLoop_failed (fun l hl => basePage_window i (by omega)) hk
          exact .inr ⟨i, pt, pt', k', rfl, by simpa using hva, hpt, hwalk, rfl⟩

theorem sysShmat_undone (hm : Sized m) (h : sysShmat p id m = .ok (-1, m')) :
    ShmatUndone m m' := by
  rcases sysShmat_failed hm h with ⟨rfl, -⟩ | ⟨i, pt, pt', k', -, -, hpt, hwalk, rfl⟩
  · exact ⟨rfl, fun _ => rfl, fun _ _ => rfl, rfl⟩
  · refine ⟨rfl, ?_, ?_, SameFreed.taking.walk _ _ _ _ _ _ hwalk⟩
    · intro q
      by_cases hq : q = p
      · subst hq
        simp
      · simp [hq]
    · intro q v
      by_cases hq : q = p
      · subst hq
        simp only [update_self, leaf, hpt, Option.bind_some]
        exact (walk_map hwalk).1 v
      · simp [hq]

/-- Where the table of its window is missing, a segment can be attached as soon as there are two
free pages. -/
theorem sysShmat_enough (hid : segId id = some i) (hused : (m.shm i).used = true)
    (hsize : (m.shm i).npages ≤ 4) (hva : (m.space p).shmVa i = 0)
    (hpt : (m.space p).pagetable = some pt) (hmiss : pt.reaches (basePage i) = false)
    (hf : m.kmem.fails = []) (hl : 2 ≤ m.kmem.freelist.length) :
    wp (sysShmat p id) (fun r _ => r = shmBase i) m := by
  have hfit := basePage_add_le i hsize
  have hwindow : ∀ l < (m.shm i).npages, (basePage i + l) / 512 = basePage i / 512 := by
    intro l hl
    exact basePage_window i (by omega)
  have hnone : ∀ w, basePage i + 0 ≤ w → w < basePage i + 0 + (m.shm i).npages →
      pt.map w = none := by
    intro w hlo hhi
    have hw := hwindow (w - basePage i) (by omega)
    rw [Nat.add_sub_cancel' (by omega)] at hw
    exact map_of_missing hmiss hw.symm
  simp only [sysShmat, hid, wp_bind, wp_get, hused, Bool.true_eq_false, if_false, hva, ne_eq,
    not_true_eq_false, wp_ownTable _ hpt, wp_onKmem, wp_setTable, shmBase_eq]
  obtain ⟨⟨pt', ok⟩, k', hloop, -⟩ := (wp_iff _ _ _).mp
    (attachLoop_wp (m.shm i).npages pt (basePage i) (m.shm i).pa 0 (by omega) hnone m.kmem)
  apply wp_of_eq hloop
  cases ok with
  | true => simp only [Bool.true_eq_false, if_false, wp_bind, wp_setSpace, wp_setSeg, wp_pure]
  | false => cases walk_enough hf hl (attachLoop_failed hwindow hloop)

/-- The call of `p` that failed in `m` and left `m'` succeeds once there is memory: other processes
may have run, but the segment is still there and `p` has not run. -/
def Retries (p : Slot) (id : Int) (m m' : Mem) : Prop :=
  ∀ i, segId id = some i → (m.shm i).used = true → ∀ m₁ : Mem, (m₁.shm i).used = true →
    (m₁.shm i).npages = (m.shm i).npages → m₁.space p = m'.space p → m₁.kmem.fails = [] →
    2 ≤ m₁.kmem.freelist.length → ∃ m₂, sysShmat p id m₁ = .ok ((shmBase i : Int), m₂)

theorem sysShmat_retries (hm : Sized m) (h : sysShmat p id m = .ok (-1, m')) :
    Retries p id m m' := by
  intro i hid hused m₁ hused₁ hsize hspace hf hl
  rcases sysShmat_failed hm h with ⟨-, hunused⟩ | ⟨i', pt, pt', k', hid', hva, hpt, hwalk, rfl⟩
  · rw [hunused i hid] at hused
    cases hused
  · rw [hid] at hid'
    cases hid'
    have hmiss := (walk_missing hwalk).2
    rw [Nat.mul_div_cancel _ (by decide)] at hmiss
    simp only [update_self] at hspace
    have hdone := sysShmat_enough hid hused₁ (hsize ▸ hm i hused) (by rw [hspace]; exact hva)
      (by rw [hspace]) hmiss hf hl
    obtain ⟨r, m₂, hr, rfl⟩ := (wp_iff _ _ _).mp hdone
    exact ⟨m₂, hr⟩

/-! ## No run makes a segment longer than its window -/

def StaysSized (m m' : Mem) : Prop := Sized m → Sized m'

instance : Std.Refl StaysSized := ⟨fun _ h => h⟩

instance : IsTrans Mem StaysSized := ⟨fun _ _ _ h h' hm => h' (h hm)⟩

theorem StaysSized.reframed (p : Slot) : Reframed Fit p StaysSized where
  kmem _ _ _ hm := hm
  space _ _ := keeps_modify fun _ hm => hm
  resize _ := keeps_modify fun _ hm => hm
  seg i f hf := by
    refine keeps_modify fun m hm l hused => ?_
    by_cases hl : l = i
    · subst hl
      simp only [update_self] at hused ⊢
      exact hf (m.shm l) (hm l) hused
    · simp only [update_of_ne hl] at hused ⊢
      exact hm l hused

theorem step_sized {o : Op} (hs : Step o p s s') (h : Sized s.mem) : Sized s'.mem := by
  have hframe := StaysSized.reframed
  cases hs with
  | fault _ _ hm => exact (hframe p).pageFault Fit.loose.toClosed _ _ _ _ hm h
  | memory _ _ hc hm _ => exact (hframe p).memory Fit.loose hc _ _ _ hm h
  | allocated _ _ _ _ hm => exact (hframe _).copyProc Fit.loose _ _ _ _ _ hm h
  | allocFailed _ _ _ _ hm => exact (hframe _).copyProc Fit.loose _ _ _ _ _ hm h
  | reap _ _ _ _ _ hm => exact (hframe _).reap Fit.loose (hframe p).toFramed _ _ _ _ _ hm h
  | reapFailed _ _ _ _ _ hm => exact (hframe _).reap Fit.loose (hframe p).toFramed _ _ _ _ _ hm h
  | _ => exact h

theorem Booted.sized (hb : Booted ram s₀) : Sized s₀.mem := by
  obtain ⟨pages, bytes, fails, img, argv, mem, -, hmem, rfl⟩ := hb
  have hboot : Keeps StaysSized (bootMem img argv) := by
    refine keeps_bind ((StaysSized.reframed 0).allocproc Fit.loose.toClosed) fun ok => ?_
    split
    · exact keeps_throw _
    · refine keeps_bind ((StaysSized.reframed 0).execProc Fit.loose img argv) fun r => ?_
      split
      · exact keeps_throw _
      · exact keeps_pure _
  refine hboot _ _ _ hmem ?_
  intro i hused
  cases hused

theorem Reach.sized {ok : Kernel → Action → Prop} (hb : Booted ram s₀) (hr : Reach ok s₀ s) :
    Sized s.mem :=
  Reach.invariant (Booted.sized hb) (fun _ _ _ h _ ha => step_sized (act_step ha) h) hr

/-- In memory `m`, whichever calls of `kalloc` fail there, a `shmget` or `shmat` that returns -1 has
been undone, and `shmat` can be called again. -/
def FailuresUndone (m : Mem) : Prop :=
  (∀ key size m', sysShmget key size m = .ok (-1, m') → ShmgetUndone m m') ∧
  ∀ p id m', sysShmat p id m = .ok (-1, m') → ShmatUndone m m' ∧ Retries p id m m'

theorem Sized.failures (hm : Sized m) : FailuresUndone m := by
  constructor
  · intro key size m' h
    exact sysShmget_failed h
  · intro p id m' h
    exact ⟨sysShmat_undone hm h, sysShmat_retries hm h⟩

/-- The page tables of processes hold the trap pages, which lie next to the segments.  The second
part is about any page table, also one in which `shmat` has to make the table of its window. -/
theorem failed_shm_calls_undone (hb : Booted ram s₀) :
    (∀ s fails, Reach (fun _ _ => True) s₀ s → FailuresUndone (s.withFails fails).mem) ∧
    ∀ m, Sized m → FailuresUndone m := by
  constructor
  · intro s fails hr
    have hs : Sized s.mem := Reach.sized hb hr
    exact Sized.failures (m := (s.withFails fails).mem) hs
  · intro m hm
    exact hm.failures

def failed : Except Panic (Int × Mem) → Bool
  | .ok (r, _) => r == -1
  | .error _ => false

theorem failed_ok {x : Except Panic (Int × Mem)} (h : failed x = true) :
    ∃ m', x = .ok (-1, m') := by
  unfold failed at h
  split at h
  · next r m' =>
    rw [beq_iff_eq] at h
    exact ⟨m', by rw [h]⟩
  · cases h

/-- Memory in which process 1 has an empty page table, and the next `kalloc` fails. -/
def bareMem (s : Kernel) : Mem :=
  { (s.withFails [true]).mem with
    space := update s.mem.space 1 ⟨0, some (Table.empty 0x80200000), 0, fun _ => 0⟩ }

theorem bareMem_sized (h : Sized s.mem) : Sized (bareMem s) := h

theorem failed_shm_calls_undone_small :
    (∃ m', sysShmget 2 8192 (looked.withFails [false, true]).mem = .ok (-1, m') ∧
      ShmgetUndone (looked.withFails [false, true]).mem m') ∧
    ∃ m', sysShmat 1 0 (bareMem looked) = .ok (-1, m') ∧ ShmatUndone (bareMem looked) m' ∧
      Retries 1 0 (bareMem looked) m' := by
  obtain ⟨hreach, hany⟩ := failed_shm_calls_undone smallKernel_booted
  have hlooked : Reach (fun _ _ => True) smallKernel looked := .single ⟨_, trivial, looked_act⟩
  constructor
  · obtain ⟨m', hm'⟩ := failed_ok (x := sysShmget 2 8192 (looked.withFails [false, true]).mem)
      (by decide +kernel)
    exact ⟨m', hm', (hreach looked [false, true] hlooked).1 2 8192 m' hm'⟩
  · obtain ⟨m', hm'⟩ := failed_ok (x := sysShmat 1 0 (bareMem looked)) (by decide +kernel)
    have hsized := bareMem_sized (Reach.sized smallKernel_booted hlooked)
    exact ⟨m', hm', (hany (bareMem looked) hsized).2 1 0 m' hm'⟩

end KernelShmUndo
