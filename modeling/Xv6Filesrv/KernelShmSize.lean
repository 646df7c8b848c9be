import Xv6Filesrv.KernelBytes
import Xv6Filesrv.KernelQuiet

/-!
# The size of a segment

`sys_shmget` looks at `size` when it makes a segment.  For a key that a segment has already it
returns that segment, which may have been made with another size.
-/

namespace KernelShmSize

open StateFrame KernelPages KernelPageTable KernelUvm KernelUserPages KernelShm
open KernelMemInv KernelShmInv KernelProcInv KernelProc KernelSteps KernelSystem KernelBoot
open KernelBytes KernelPrograms KernelShmRuns KernelShmIds KernelSlots KernelQuiet

variable {ram : Ram} {k k' : Kmem} {m m' : Mem} {s s' s₀ t u v : Kernel} {p : Slot} {a b : Action}
  {i : SegId} {key size id : Int} {n j : Nat} {pt pt' : PageTable} {pa : Nat → Nat}

/-! ## What `shmget` returns -/

/-- The first `n` pages of segment `i` hold zeros. -/
def Zeroed (m : Mem) (i : SegId) (n : Nat) : Prop :=
  ∀ j < n, ∀ a, OnPage ((m.shm i).pa j) a → m.kmem.bytes a = 0

/-- A page that is taken for the segment is cleared, and no page that was taken before it is touched
unless it is the same one. -/
theorem shmFill_zeroed (hz : Zeroed m i j) (h : shmFill n i j m = .ok (true, m')) :
    Zeroed m' i (j + n) := by
  induction n generalizing j m with
  | zero =>
    cases h
    exact hz
  | succ n ih =>
    obtain ⟨page, m₁, hpage, h⟩ := bind_ok h
    obtain ⟨k₁, hk, rfl⟩ := onKmem_ok hpage
    cases page with
    | none =>
      obtain ⟨_, m₂, -, h⟩ := bind_ok h
      obtain ⟨_, m₃, -, h⟩ := bind_ok h
      obtain ⟨_, m₄, -, h⟩ := bind_ok h
      cases h
    | some mem =>
      obtain ⟨_, m₂, hset, h⟩ := bind_ok h
      cases hset
      obtain ⟨_, m₃, hseg, h⟩ := bind_ok h
      cases hseg
      rcases kalloc_ok hk with ⟨hnone, -⟩ | ⟨r, rest, hr, -, rfl⟩
      · cases hnone
      cases hr
      rw [show j + (n + 1) = j + 1 + n by omega]
      refine ih (fun l hl a ha => ?_) h
      simp only [Function.update_self] at ha
      by_cases hon : OnPage mem a
      · exact if_pos hon
      · have hlj : l ≠ j := by
          rintro rfl
          rw [Function.update_self] at ha
          exact hon ha
        rw [Function.update_of_ne hlj] at ha
        exact (fill_off hon).trans ((fill_off hon).trans (hz l (by omega) a ha))

/-- No segment has the key. -/
def Unclaimed (m : Mem) (key : Int) : Prop := ∀ j, (m.shm j).used = true → (m.shm j).key ≠ key

/-- Segment `i` was made by `shmget(key, size)`. -/
structure Made (i : SegId) (size : Int) (m m' : Mem) : Prop where
  unused : (m.shm i).used = false
  npages : (m'.shm i).npages = (size.toNat + pgsize - 1) / pgsize
  zeroed : Zeroed m' i (m'.shm i).npages
  space : m'.space = m.space

theorem Made.room (h : Made i size m m') : size ≤ ((m'.shm i).npages * pgsize : Nat) := by
  rw [h.npages]
  simp only [pgsize]
  omega

theorem sysShmget_obtained (h : sysShmget key size m = .ok (id, m')) (hid : 0 ≤ id) :
    ∃ i : SegId, id = i.val ∧ (m'.shm i).used = true ∧ (m'.shm i).key = key ∧
      (¬Unclaimed m key ∧ m' = m ∨ Unclaimed m key ∧ Made i size m m') := by
  rcases sysShmget_ok h with ⟨rfl, -⟩ | ⟨i, hused, hkey, rfl, rfl⟩ |
    ⟨i, ok, hnone, hunused, -, rfl, hfill⟩
  · omega
  · exact ⟨i, rfl, hused, hkey, .inl ⟨fun hnot => hnot i hused hkey, rfl⟩⟩
  · cases ok with
    | false =>
      rw [if_neg Bool.false_ne_true] at hid
      omega
    | true =>
      obtain ⟨hused, hkey, hnpages, hspace⟩ := shmFill_filling hfill
      simp only [claimed, Function.update_self] at hused hkey hnpages
      refine ⟨i, rfl, hused, hkey, .inr ⟨hnone, hunused, hnpages, ?_, hspace⟩⟩
      rw [hnpages, ← Nat.zero_add ((size.toNat + pgsize - 1) / pgsize)]
      exact shmFill_zeroed (fun j hj => absurd hj (Nat.not_lt_zero j)) hfill

/-! ## What `shmat` maps -/

/-- Every byte of the `size` bytes at `va` is mapped for the user to read and to write. -/
def Spans (m : Mem) (p : Slot) (va size : Nat) : Prop :=
  ∀ x, va ≤ x → x < va + size → ∃ pt e, (m.space p).pagetable = some pt ∧
    pt.map (x / pgsize) = some e ∧ e.perm.r = true ∧ e.perm.w = true ∧ e.perm.u = true

/-- The pages of a segment at `base`. -/
def Placed (m : Mem) (p : Slot) (base n : Nat) (pa : Nat → Nat) : Prop :=
  ∃ pt, (m.space p).pagetable = some pt ∧ ∀ j < n, pt.map (base + j) = some ⟨pa j, permRWU⟩

theorem Placed.spans {base : Nat} (h : Placed m p base n pa) {l : Nat} (hl : l ≤ n * pgsize) :
    Spans m p (base * pgsize) l := by
  obtain ⟨pt, hpt, hmap⟩ := h
  intro x hlo hhi
  simp only [pgsize] at hl hlo hhi ⊢
  obtain ⟨j, hj⟩ : ∃ j, x / 4096 = base + j := ⟨x / 4096 - base, by omega⟩
  refine ⟨pt, ⟨pa j, permRWU⟩, hpt, ?_, rfl, rfl, rfl⟩
  rw [hj]
  exact hmap j (by omega)

theorem attachLoop_placed {base : Nat}
    (h : attachLoop n pt (base * 4096) pa j k = .ok ((pt', true), k'))
    (hbefore : ∀ l < j, base + l < maxPage ∧ pt.map (base + l) = some ⟨pa l, permRWU⟩) :
    ∀ l < j + n, pt'.map (base + l) = some ⟨pa l, permRWU⟩ := by
  induction n generalizing pt j k with
  | zero =>
    cases h
    exact fun l hl => (hbefore l hl).2
  | succ n ih =>
    have hva : base * 4096 + j * pgsize = (base + j) * 4096 := by
      simp only [pgsize]
      omega
    rw [attachLoop, hva] at h
    obtain ⟨⟨pt₁, ok⟩, k₁, hmap, h⟩ := bind_ok h
    rcases mappages_ok hmap with ⟨rfl, -⟩ | ⟨rfl, hlt, -, -, hsame⟩
    · obtain ⟨_, k₂, -, h⟩ := bind_ok h
      cases h
    · rw [show j + (n + 1) = j + 1 + n by omega]
      refine ih h fun l hl => ?_
      by_cases hlj : l = j
      · subst hlj
        refine ⟨lt_maxPage hlt, ?_⟩
        rw [hsame _ (lt_maxPage hlt), if_pos rfl]
      · obtain ⟨hpage, hl'⟩ := hbefore l (by omega)
        refine ⟨hpage, ?_⟩
        rw [hsame _ hpage, if_neg (by omega)]
        exact hl'

/-- A process that was not attached before gets all pages of the segment. -/
theorem sysShmat_placed {r : Int} (h : sysShmat p i.val m = .ok (r, m')) (hr : 0 ≤ r)
    (hva : (m.space p).shmVa i = 0) :
    r.toNat = basePage i * pgsize ∧ Placed m' p (basePage i) (m.shm i).npages (m.shm i).pa := by
  simp only [sysShmat, segId_val] at h
  obtain ⟨_, m₁, hget, h⟩ := bind_ok h
  cases hget
  split at h
  · cases h
    omega
  · rw [if_neg (not_not_intro hva)] at h
    obtain ⟨pt, m₂, -, h⟩ := bind_ok h
    obtain ⟨⟨pt', ok⟩, m₃, hloop, h⟩ := bind_ok h
    obtain ⟨k₃, hk, rfl⟩ := onKmem_ok hloop
    obtain ⟨_, m₄, hset, h⟩ := bind_ok h
    cases hset
    cases ok with
    | false =>
      cases h
      omega
    | true =>
      simp only [Bool.true_eq_false, if_false] at h
      obtain ⟨_, m₅, hspace, h⟩ := bind_ok h
      obtain ⟨_, m₆, hseg, h⟩ := bind_ok h
      cases hspace
      cases hseg
      cases h
      rw [shmBase_eq] at hk
      have hplaced := attachLoop_placed hk fun l hl => absurd hl (Nat.not_lt_zero l)
      simp only [Nat.zero_add] at hplaced
      refine ⟨?_, pt', ?_, hplaced⟩
      · rw [shmBase_eq]
        rfl
      · simp only [Function.update_self]

/-- What the user reads there. -/
theorem Placed.loadByte {base : Nat} (h : Placed m p base n pa) (hbase : base + n ≤ 67108864)
    (hpa : ∀ j < n, pa j ≠ 0) {x : Nat} (hlo : base * pgsize ≤ x) (hhi : x < (base + n) * pgsize) :
    ∃ j < n, ∃ y, OnPage (pa j) y ∧ KernelBytes.loadByte m p x = some (m.kmem.bytes y) := by
  obtain ⟨pt, hpt, hmap⟩ := h
  simp only [pgsize] at hlo hhi
  obtain ⟨j, hj⟩ : ∃ j, x / 4096 = base + j := ⟨x / 4096 - base, by omega⟩
  have hjn : j < n := by omega
  have hpage : UserPage pt (base + j) ⟨pa j, permRWU⟩ :=
    ⟨lt_maxPage (by omega), hmap j hjn, rfl⟩
  have haddr : userAddr pt x = pa j := userAddr_page hpage (by omega) hj
  refine ⟨j, hjn, pa j + x % 4096, ⟨Nat.le_add_right _ _, by omega⟩, ?_⟩
  rw [KernelBytes.loadByte, hpt, Option.bind_some, haddr, if_neg (hpa j hjn)]

/-! ## From `shmget` to `shmat` -/

/-- No process is attached to segment `i` after the action. -/
def Idle (i : SegId) (s : Kernel) (a : Action) : Prop :=
  ∀ s', act a s = some (.ok s') → ∀ q, (s'.mem.space q).shmVa i = 0

/-- The segment is there, nobody is attached to it, and it holds zeros. -/
structure Untouched (ram : Ram) (i : SegId) (key : Int) (n : Nat) (pa : Nat → Nat) (s : Kernel) :
    Prop where
  sys : Sys ram s
  stands : Stands i key n pa s.mem
  unattached : ∀ q, (s.mem.space q).shmVa i = 0
  zeroed : Zeroed s.mem i n

theorem Untouched.act (h : Untouched ram i key n pa s) (hcare : CarefulRun s a)
    (ha : act a s = some (.ok s')) : Stands i key n pa s'.mem ∧ Zeroed s'.mem i n := by
  obtain ⟨hstands, hbytes⟩ := unattached_act h.sys hcare ha h.stands h.unattached
  refine ⟨hstands, fun j hj y hy => ?_⟩
  rw [hstands.pa] at hy
  rw [hbytes j hj y hy]
  apply h.zeroed j hj y
  rw [h.stands.pa]
  exact hy

theorem Untouched.reach (h : Untouched ram i key n pa t)
    (hrun : Reach (fun w c => CarefulRun w c ∧ Idle i w c) t u) : Untouched ram i key n pa u := by
  refine Reach.invariant h ?_ hrun
  rintro w c w' hw ⟨hcare, hidle⟩ hc
  obtain ⟨hstands, hzeroed⟩ := hw.act hcare hc
  exact ⟨(hw.sys.done hcare hc).1, hstands, hidle w' hc, hzeroed⟩

/-- A segment that has just been made. -/
theorem Made.untouched (h : Made i size m t.mem) (hsys : Sys ram t)
    (hbefore : MemInv ram m) (hused : (t.mem.shm i).used = true) :
    Untouched ram i (t.mem.shm i).key (t.mem.shm i).npages (t.mem.shm i).pa t := by
  refine ⟨hsys, ⟨hused, rfl, rfl, rfl⟩, fun q => ?_, h.zeroed⟩
  by_contra hq
  rw [h.space] at hq
  obtain ⟨pt, hpt⟩ := MemInv.attached_table hbefore hq
  have hused' := ((hbefore.mapped hpt).attached i hq).1
  rw [h.unused] at hused'
  cases hused'

/-- An attached process has the segment's pages in its place. -/
theorem attached_placed (hsys : Sys ram s) (h : Stands i key n pa s.mem)
    (hva : (s.mem.space p).shmVa i ≠ 0) :
    (s.mem.space p).shmVa i = basePage i * pgsize ∧ Placed s.mem p (basePage i) n pa := by
  obtain ⟨pt, hpt, hmap⟩ := attached_pages hsys h hva
  have hbase := ((hsys.inv.mem.mapped hpt).attached i hva).2.1
  rw [hbase, shmBase_eq] at hmap ⊢
  rw [show basePage i * 4096 / pgsize = basePage i from Nat.mul_div_cancel _ (by decide)] at hmap
  exact ⟨rfl, pt, hpt, hmap⟩

/-- A segment with zeros reads as zero. -/
theorem Zeroed.loadByte (hz : Zeroed s.mem i n) (hsys : Sys ram s) (h : Stands i key n pa s.mem)
    (hva : (s.mem.space p).shmVa i ≠ 0) {x : Nat} (hlo : (s.mem.space p).shmVa i ≤ x)
    (hhi : x < (s.mem.space p).shmVa i + n * pgsize) :
    KernelBytes.loadByte s.mem p x = some 0 := by
  obtain ⟨hbase, hplaced⟩ := attached_placed hsys h hva
  have hle := (hsys.inv.mem.count i h.used).2
  rw [h.npages] at hle
  have hpa : ∀ j < n, pa j ≠ 0 := by
    intro j hj hzero
    have hmem : (s.mem.shm i).pa j ∈ segPages (s.mem.shm i) :=
      mem_segPages h.used (by rw [h.npages]; exact hj)
    rw [h.pa, hzero] at hmem
    have hlow := (ram.ok 0 (hsys.inv.mem.mem_ram (.inr (.inl ⟨i, hmem⟩)))).2.1
    have hkern := ram.above
    simp only [kernbase] at hkern
    omega
  have hi := i.isLt
  rw [hbase] at hlo hhi
  obtain ⟨j, hj, y, hy, hload⟩ := hplaced.loadByte (by unfold basePage; omega) hpa hlo
    (by rw [Nat.add_mul]; exact hhi)
  rw [hload, hz j hj y (by rw [h.pa]; exact hy)]

/-- A segment that `shmget(key, size)` returns has the key, and it has `size` bytes if and only if
no segment had the key before or the one that had it was large enough; one that the call made has
just the pages that hold so many bytes.  Then a successful `shmat` maps all of them, if the process
was not attached before, or if in a careful run the segment has not lost its last process.  They
read as zero if the call made the segment and nobody has been attached since. -/
theorem segment_size_delivered {n : Int} (hget : act a s = some (.ok t))
    (hret : t.trace = .ret a.p n (.shmget key size) id :: s.trace) (hid : 0 ≤ id) :
    ∃ i : SegId, id = i.val ∧ (t.mem.shm i).used = true ∧ (t.mem.shm i).key = key ∧
      (size ≤ ((t.mem.shm i).npages * pgsize : Nat) ↔
        Unclaimed s.mem key ∨ size ≤ ((s.mem.shm i).npages * pgsize : Nat)) ∧
      (Unclaimed s.mem key → (t.mem.shm i).npages = (size.toNat + pgsize - 1) / pgsize ∧
        Zeroed t.mem i (t.mem.shm i).npages) ∧
      (¬Unclaimed s.mem key → t.mem.shm = s.mem.shm) ∧
      ∀ u b v n' r, act b u = some (.ok v) →
        v.trace = .ret b.p n' (.shmat id) r :: u.trace → 0 ≤ r →
        ((u.mem.space b.p).shmVa i = 0 → size ≤ ((u.mem.shm i).npages * pgsize : Nat) →
          Spans v.mem b.p r.toNat size.toNat) ∧
        ∀ ram s₀, Booted ram s₀ → Reach CarefulRun s₀ s → CarefulRun s a → CarefulRun u b →
          (Reach (fun w c => CarefulRun w c ∧ Retains i w c) t u →
            size ≤ ((t.mem.shm i).npages * pgsize : Nat) →
            Spans v.mem b.p r.toNat size.toNat) ∧
          (Reach (fun w c => CarefulRun w c ∧ Idle i w c) t u → Unclaimed s.mem key →
            Spans v.mem b.p r.toNat size.toNat ∧
            ∀ x, r.toNat ≤ x → x < r.toNat + size.toNat → loadByte v.mem b.p x = some 0) := by
  obtain ⟨i, rfl, hused, hkey, hcase⟩ := sysShmget_obtained (step_ran (act_step hget) hret rfl) hid
  have hmade : Unclaimed s.mem key → Made i size (s.withFails a.fails).mem t.mem := by
    intro hun
    rcases hcase with ⟨hnot, -⟩ | ⟨-, hmade⟩
    · exact absurd hun hnot
    · exact hmade
  have hsame : ¬Unclaimed s.mem key → t.mem.shm = s.mem.shm := by
    intro hnot
    rcases hcase with ⟨-, heq⟩ | ⟨hun, -⟩
    · rw [heq]
      rfl
    · exact absurd hun hnot
  refine ⟨i, rfl, hused, hkey, ?_, fun hun => ⟨(hmade hun).npages, (hmade hun).zeroed⟩, hsame, ?_⟩
  · by_cases hun : Unclaimed s.mem key
    · exact ⟨fun _ => .inl hun, fun _ => (hmade hun).room⟩
    · rw [hsame hun]
      exact ⟨.inr, fun h => h.resolve_left hun⟩
  intro u b v n' r hat hret' hr
  have hran := step_ran (act_step hat) hret' rfl
  have hnew : (u.mem.space b.p).shmVa i = 0 → size ≤ ((u.mem.shm i).npages * pgsize : Nat) →
      Spans v.mem b.p r.toNat size.toNat := by
    intro hva hsize
    obtain ⟨hbase, hplaced⟩ := sysShmat_placed hran hr hva
    rw [hbase]
    exact hplaced.spans (Int.toNat_le.mpr hsize)
  refine ⟨hnew, fun ram s₀ hb hs hfirst hcare => ?_⟩
  obtain ⟨hva, hrva⟩ := sysShmat_attached hran (by omega)
  have hreach : Sys ram s := CarefulRun.runs hb hs
  have hsys : Sys ram t := (hreach.done hfirst hget).1
  constructor
  · intro hrun hsize
    obtain ⟨hsysu, hstands⟩ := Stands.reach hsys ⟨hused, hkey, rfl, rfl⟩ hrun
    have hkeep : Retains i u b := by
      intro v' hv' _
      cases hat.symm.trans hv'
      exact ⟨b.p, hva⟩
    have hv := hstands.act hsysu hcare hkeep hat
    obtain ⟨hbase, hplaced⟩ := attached_placed (hsysu.done hcare hat).1 hv hva
    rw [hrva, hbase]
    exact hplaced.spans (Int.toNat_le.mpr hsize)
  · intro hrun hun
    have hinv := (KInv.withFails hreach.inv a.fails).mem
    have hu := ((hmade hun).untouched hsys hinv hused).reach hrun
    have hroom := (hmade hun).room
    refine ⟨hnew (hu.unattached b.p) (by rw [hu.stands.npages]; exact hroom), fun x hlo hhi => ?_⟩
    obtain ⟨hstands, hzeroed⟩ := hu.act hcare hat
    rw [hrva] at hlo hhi
    refine hzeroed.loadByte (hu.sys.done hcare hat).1 hstands hva hlo ?_
    have hle := Int.toNat_le.mpr hroom
    simp only [Int.toNat_natCast] at hhi
    omega

theorem segment_size_delivered_first :
    ∃ v r, act (callBy 0 (.shmat 0)) looked = some (.ok v) ∧
      Spans v.mem 0 r 4096 ∧ loadByte v.mem 0 r = some 0 := by
  have hb := smallKernel_booted
  have hget := looked_act
  have hid := looked_trace
  obtain ⟨hk, hrun, hr, hnone⟩ : (looked.proc 0).killed = false ∧
      runs [callBy 0 (.shmat 0)] looked = true ∧
      0 ≤ lastResult (after [callBy 0 (.shmat 0)] looked).trace ∧
      ∀ j, (smallKernel.mem.shm j).used = false := by decide +kernel
  have hlow : ∀ i, pageCount (looked.mem.space 0).sz ≤ basePage i := by decide +kernel
  have hat := act_after hrun
  generalize after [callBy 0 (.shmat 0)] looked = v at hat hr
  generalize looked = t at hget hid hk hat hlow ⊢
  generalize smallKernel = s at hb hget hid hnone
  have hret := call_returns hk rfl hat
  have hun : Unclaimed s.mem 1 := by
    intro j hj
    rw [hnone j] at hj
    cases hj
  obtain ⟨i, -, -, -, -, -, -, hlater⟩ := segment_size_delivered hget hid (by decide)
  have hcare : CarefulRun t (callBy 0 (.shmat 0)) := fun i _ _ _ => hlow i
  obtain ⟨-, hcareful⟩ := hlater t _ v _ _ hat hret hr
  obtain ⟨hspans, hzero⟩ := (hcareful _ s hb .refl trivial hcare).2 .refl hun
  exact ⟨v, _, hat, hspans, hzero _ (Nat.le_refl _) (by simp)⟩

/-- The first process asks for more than the segment of this key has. -/
def asked : Kernel := after [callBy 0 (.shmget 1 8192)] looked

/-- `shmget(1, 8192)` returns the segment of one page that `shmget(1, 4096)` has made, and after
`shmat` the second page of the 8192 bytes is not mapped. -/
theorem segment_smaller_than_asked :
    ∃ v r, Reach CarefulRun smallKernel looked ∧
      act (callBy 0 (.shmget 1 8192)) looked = some (.ok asked) ∧
      asked.trace = .ret 0 1 (.shmget 1 8192) 0 :: looked.trace ∧
      (asked.mem.shm 0).npages * pgsize = 4096 ∧
      act (callBy 0 (.shmat 0)) asked = some (.ok v) ∧
      v.trace = .ret 0 1 (.shmat 0) r :: asked.trace ∧ 0 ≤ r ∧
      loadByte v.mem 0 (r.toNat + 4096) = none := by
  obtain ⟨hk, hpid, hrun, hzero⟩ : (looked.proc 0).killed = false ∧ (looked.proc 0).pid = 1 ∧
      runs [callBy 0 (.shmget 1 8192)] looked = true ∧ lastResult asked.trace = 0 := by
    decide +kernel
  obtain ⟨hk', hpid', hsize, hrun'⟩ : (asked.proc 0).killed = false ∧ (asked.proc 0).pid = 1 ∧
      (asked.mem.shm 0).npages * pgsize = 4096 ∧ runs [callBy 0 (.shmat 0)] asked = true := by
    decide +kernel
  obtain ⟨hr, hbyte⟩ : 0 ≤ lastResult (after [callBy 0 (.shmat 0)] asked).trace ∧
      loadByte (after [callBy 0 (.shmat 0)] asked).mem 0
        ((lastResult (after [callBy 0 (.shmat 0)] asked).trace).toNat + 4096) = none := by
    decide +kernel
  have hget : act (callBy 0 (.shmget 1 8192)) looked = some (.ok asked) := act_after hrun
  have hat := act_after hrun'
  have hret := call_returns hk rfl hget
  have hret' := call_returns hk' rfl hat
  rw [hpid, hzero] at hret
  rw [hpid'] at hret'
  have hreach : Reach CarefulRun smallKernel looked :=
    .tail .refl ⟨callBy 0 (.shmget 1 4096), trivial, looked_act⟩
  exact ⟨_, _, hreach, hget, hret, hsize, hat, hret', hr, hbyte⟩

end KernelShmSize
