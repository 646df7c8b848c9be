import Xv6Filesrv.KernelBoot
import Xv6Filesrv.KernelSpaces

/-!
# What holds of memory in every run

The accounting of pages fails in runs that use `exec` or `sbrk` next to attached segments.  Less
than that holds in all runs: pages on the free list pass the test in `kfree`, an unused slot holds
no memory, every other slot has a page table, and no address space reaches the trap pages.  For
`exec` the last point is not checked by the code: `mappages` panics at the trapframe of the new page
table, so that an image that large never gets to run.
-/

namespace KernelReady

open StateFrame KernelPages KernelPageTable KernelUvm KernelUserPages KernelExec KernelShm
open KernelMemInv KernelShmInv KernelProcInv KernelProc KernelSteps KernelTable KernelSystem
open KernelBoot KernelPrograms
open Function (update_of_ne update_self)

variable {ram : Ram} {k k' : Kmem} {m m' m₁ : Mem} {s s' s₀ : Kernel} {o : Op} {p q : Slot}
  {pt pt' : PageTable} {n v : Nat}

/-! ## Images stay below the trapframe -/

/-- The trapframe is mapped, and `sz` bytes end below it. -/
def Below (pt : PageTable) (sz : Nat) : Prop := pt.map tfPage ≠ none ∧ pageCount sz ≤ tfPage

/-- The loop of `uvmalloc` stops in front of the trapframe, since `mappages` panics on a mapped
page. -/
theorem allocLoop_below {oldsz : Nat} {perm : Perm} (htrap : pt.map tfPage ≠ none)
    (hv : v ≤ tfPage) (h : allocLoop n pt (v * 4096) oldsz perm k = .ok ((pt', true), k')) :
    pt'.map tfPage ≠ none ∧ v + n ≤ tfPage := by
  induction n generalizing pt v k with
  | zero =>
    cases h
    exact ⟨htrap, hv⟩
  | succ n ih =>
    obtain ⟨page, k₁, -, h⟩ := bind_ok h
    cases page with
    | none =>
      obtain ⟨r, k₂, -, h⟩ := bind_ok h
      cases h
    | some mem =>
      obtain ⟨_, k₂, -, h⟩ := bind_ok h
      obtain ⟨⟨pt₁, ok⟩, k₃, hmap, h⟩ := bind_ok h
      rcases mappages_ok hmap with ⟨rfl, -⟩ | ⟨rfl, -, hnone, -, hsame⟩
      · obtain ⟨_, k₄, -, h⟩ := bind_ok h
        obtain ⟨r, k₅, -, h⟩ := bind_ok h
        cases h
      · have hne : tfPage ≠ v := by
          rintro rfl
          exact htrap hnone
        have htrap₁ : pt₁.map tfPage ≠ none := by
          rw [hsame tfPage (by decide), if_neg hne]
          exact htrap
        have hnext : v * 4096 + pgsize = (v + 1) * 4096 := by simp only [pgsize]; omega
        simp only [Bool.true_eq_false, if_false, hnext] at h
        obtain ⟨hlast, hroom⟩ := ih htrap₁ (by omega) h
        exact ⟨hlast, by omega⟩

/-- So a process never grows into its trapframe. -/
theorem uvmalloc_below {oldsz newsz sz : Nat} {w x : Bool} (hb : Below pt oldsz) (hsz : sz ≠ 0)
    (h : uvmalloc pt oldsz newsz w x k = .ok ((pt', sz), k')) : Below pt' sz := by
  unfold uvmalloc at h
  split at h
  · cases h
    exact hb
  · next hge =>
    obtain ⟨⟨pt₁, ok⟩, k₁, hloop, h⟩ := bind_ok h
    cases ok with
    | false =>
      cases h
      exact absurd rfl hsz
    | true =>
      cases h
      rw [pgroundup_eq] at hloop
      obtain ⟨htrap, hroom⟩ := allocLoop_below hb.1 hb.2 hloop
      refine ⟨htrap, ?_⟩
      rw [if_pos rfl]
      simp only [pageCount, pgsize, tfPage] at hroom ⊢
      omega

/-- The segments of a program end below the trapframe, as each is allocated by `uvmalloc`. -/
theorem loadImage_below {l : List (Option Proghdr)} {sz sz' : Nat} (hb : Below pt sz)
    (h : loadImage l pt sz k = .ok ((pt', sz', true), k')) : Below pt' sz' := by
  induction l generalizing pt sz k with
  | nil =>
    cases h
    exact hb
  | cons ph rest ih =>
    cases ph with
    | none => cases h
    | some ph =>
      unfold loadImage at h
      split at h
      · exact ih hb h
      · split at h
        · cases h
        · split at h
          · cases h
          · split at h
            · cases h
            · obtain ⟨⟨pt₁, sz₁⟩, k₁, halloc, h⟩ := bind_ok h
              dsimp only at h
              split at h
              · cases h
              · next hsz =>
                obtain ⟨ok, k₂, -, h⟩ := bind_ok h
                split at h
                · cases h
                · exact ih (uvmalloc_below hb hsz halloc) h

theorem addStack_below {sz sz' : Nat} (hb : Below pt sz)
    (h : addStack pt sz k = .ok (some (pt', sz'), k')) : pageCount sz' ≤ tfPage := by
  have hround : Below pt (pgroundup sz) := by
    rw [pgroundup_eq, Below, pageCount_mul]
    exact hb
  obtain ⟨⟨pt₁, sz₁⟩, k₁, hstack, h⟩ := bind_ok h
  dsimp only at h
  split at h
  · obtain ⟨_, k₂, -, h⟩ := bind_ok h
    cases h
  · next hsz =>
    obtain ⟨pt₂, k₂, -, h⟩ := bind_ok h
    cases h
    exact (uvmalloc_below hround hsz hstack).2

/-- The size `exec` gives the new image. -/
theorem newImage_below {tf sz : Nat} {img : Image} (hs : Sound k 0)
    (h : newImage tf img k = .ok (some (pt, sz), k')) : pageCount sz ≤ tfPage := by
  obtain ⟨new, k₁, hnew, h⟩ := bind_ok h
  cases new with
  | none => cases h
  | some new =>
    have hfresh := ((procPagetable_wp tf k hs).post hnew).2 new rfl
    have hb : Below new 0 := by
      refine ⟨?_, by decide⟩
      rw [hfresh tfPage (by decide)]
      exact Option.some_ne_none _
    obtain ⟨⟨new₁, sz₁, ok⟩, k₂, hload, h⟩ := bind_ok h
    cases ok with
    | false =>
      obtain ⟨_, k₃, -, h⟩ := bind_ok h
      cases h
    | true => exact addStack_below (loadImage_below hb hload) h

/-- A program that is loaded ends below the trapframe. -/
theorem kexec_below {oldsz tf sz : Nat} {own : PageTable} {img : Option Image} {argv : Argv}
    {started : Option (Nat × Nat)} (hs : Sound k 0)
    (h : kexec oldsz own tf img argv k = .ok ((pt, sz, started), k')) :
    sz = oldsz ∨ pageCount sz ≤ tfPage := by
  obtain ⟨⟨own₁, r⟩, k₁, hprep, h⟩ := bind_ok h
  cases r with
  | none =>
    cases h
    exact .inl rfl
  | some r =>
    obtain ⟨_, k₂, -, h⟩ := bind_ok h
    cases h
    unfold prepare at hprep
    split at hprep
    · cases hprep
    · split at hprep
      · cases hprep
      · obtain ⟨new, k₃, hnew, hprep⟩ := bind_ok hprep
        cases new with
        | none => cases hprep
        | some new =>
          obtain ⟨⟨own₂, started⟩, k₄, -, hprep⟩ := bind_ok hprep
          cases started with
          | none =>
            obtain ⟨_, k₅, -, hprep⟩ := bind_ok hprep
            cases hprep
          | some started =>
            cases hprep
            exact .inr (newImage_below hs hnew)

/-! ## What is done on behalf of one process -/

/-- Only the address space of `p` has changed: it has kept its page table, and it has not grown into
the trap pages. -/
structure Owned (p : Slot) (m m' : Mem) : Prop where
  kmem : Fit m.kmem m'.kmem
  others : ∀ q, q ≠ p → m'.space q = m.space q
  table : (m.space p).pagetable.isSome = true → (m'.space p).pagetable.isSome = true
  size : pageCount (m.space p).sz ≤ tfPage → pageCount (m'.space p).sz ≤ tfPage

instance : Std.Refl (Owned p) := ⟨fun m => ⟨refl_of Fit m.kmem, fun _ _ => rfl, id, id⟩⟩

instance : IsTrans Mem (Owned p) where
  trans _ _ _ h h' :=
    ⟨trans_of Fit h.kmem h'.kmem, fun q hq => (h'.others q hq).trans (h.others q hq),
      fun hm => h'.table (h.table hm), fun hm => h'.size (h.size hm)⟩

theorem setSpace_owned {f : Space → Space} {u : PUnit} (h : setSpace p f m = .ok (u, m'))
    (htable : (m.space p).pagetable.isSome = true → (f (m.space p)).pagetable.isSome = true)
    (hsize : pageCount (m.space p).sz ≤ tfPage → pageCount (f (m.space p)).sz ≤ tfPage) :
    Owned p m m' := by
  cases h
  refine ⟨refl_of Fit m.kmem, fun q hq => update_of_ne hq _ _, ?_, ?_⟩
  · simpa only [update_self] using htable
  · simpa only [update_self] using hsize

/-- The segment calls and page faults keep `Owned`. -/
theorem Owned.framed (p : Slot) : Framed Fit p (Owned p) where
  kmem _ _ hk := ⟨hk, fun _ _ => rfl, id, id⟩
  space f hf m u m' h := by
    have hsteady := hf (m.space p)
    refine setSpace_owned h hsteady.table fun hm => ?_
    rwa [hsteady.sz]
  seg _ _ _ := keeps_modify fun m => ⟨refl_of Fit m.kmem, fun _ _ => rfl, id, id⟩

/-- Everything but the address space of `p` is as it was, but for the allocator and the segments. -/
structure Elsewhere (p : Slot) (m m' : Mem) : Prop where
  kmem : Fit m.kmem m'.kmem
  others : ∀ q, q ≠ p → m'.space q = m.space q

instance : Std.Refl (Elsewhere p) := ⟨fun m => ⟨refl_of Fit m.kmem, fun _ _ => rfl⟩⟩

instance : IsTrans Mem (Elsewhere p) where
  trans _ _ _ h h' :=
    ⟨trans_of Fit h.kmem h'.kmem, fun q hq => (h'.others q hq).trans (h.others q hq)⟩

theorem Elsewhere.reframed (p : Slot) : Reframed Fit p (Elsewhere p) where
  kmem _ _ hk := ⟨hk, fun _ _ => rfl⟩
  space _ _ := keeps_modify fun m =>
    ⟨refl_of Fit m.kmem, fun _ hq => update_of_ne hq _ _⟩
  resize _ := keeps_modify fun m => ⟨refl_of Fit m.kmem, fun _ hq => update_of_ne hq _ _⟩
  seg _ _ _ := keeps_modify fun m => ⟨refl_of Fit m.kmem, fun _ _ => rfl⟩

/-- `exec` leaves its process with a page table of a legal size, whether it commits or not. -/
theorem execProc_owned {img : Option Image} {argv : Argv} {r : Int} (hs : Sound m.kmem 0)
    (h : execProc p img argv m = .ok (r, m')) : Owned p m m' := by
  obtain ⟨_, _, hget, h⟩ := bind_ok h
  cases hget
  obtain ⟨own, m₁, hown, h⟩ := bind_ok h
  obtain ⟨rfl, hpt⟩ := ownTable_ok hown
  obtain ⟨⟨pt, sz, started⟩, m₂, hexec, h⟩ := bind_ok h
  obtain ⟨k', hk, rfl⟩ := onKmem_ok hexec
  obtain ⟨_, m₃, hset, h⟩ := bind_ok h
  have hframe := Owned.framed p
  have hkept : Owned p m₁ { m₁ with kmem := k' } :=
    hframe.kmem m₁ k' (Fit.loose.kexec _ _ _ _ _ _ _ _ hk)
  have hsize : pageCount (m₁.space p).sz ≤ tfPage → pageCount sz ≤ tfPage := by
    intro hm
    rcases kexec_below hs hk with rfl | hsz
    · exact hm
    · exact hsz
  have hnew := setSpace_owned hset (fun _ => rfl) hsize
  have hregs : Owned p m₃ m' := by
    split at h
    · refine keeps_bind (hframe.setReg Fit.loose .a1 _) (fun _ => ?_) _ _ _ h
      refine keeps_bind (hframe.setReg Fit.loose .epc _) (fun _ => ?_)
      exact keeps_bind (hframe.setReg Fit.loose .sp _) fun _ => keeps_pure _
    · cases h
      exact refl_of _ _
  exact trans_of (Owned p) hkept (trans_of (Owned p) hnew hregs)

/-- `uvmdealloc` never grows a process. -/
theorem uvmdealloc_le {oldsz newsz sz : Nat}
    (h : uvmdealloc pt oldsz newsz k = .ok ((pt', sz), k')) : sz ≤ oldsz := by
  unfold uvmdealloc at h
  split at h
  · cases h
    exact Nat.le_refl _
  · next hlt =>
    split at h
    · obtain ⟨_, k₁, -, h⟩ := bind_ok h
      cases h
      omega
    · cases h
      omega

theorem pageCount_mono {a b : Nat} (h : a ≤ b) : pageCount a ≤ pageCount b := by
  unfold pageCount
  omega

theorem pageCount_trapframe {sz : Nat} (h : sz ≤ trapframe) : pageCount sz ≤ tfPage :=
  (pageCount_mono h).trans (by decide)

/-- A size that `uvmalloc` returns is one of those it was given, or 0. -/
theorem uvmalloc_size {oldsz newsz sz : Nat} {w x : Bool} (hle : oldsz ≤ newsz)
    (h : uvmalloc pt oldsz newsz w x k = .ok ((pt', sz), k')) : sz ≤ newsz := by
  unfold uvmalloc at h
  rw [if_neg (Nat.not_lt.mpr hle)] at h
  obtain ⟨⟨pt₁, ok⟩, k₁, -, h⟩ := bind_ok h
  cases h
  split
  · exact Nat.le_refl _
  · exact Nat.zero_le _

/-- `growproc` in both directions; the lazy growth of `sys_sbrk` has its own test. -/
theorem growproc_owned (p : Slot) (n : Int) : Keeps (Owned p) (growproc p n) := by
  intro m ok m' h
  have hframe := Owned.framed p
  obtain ⟨_, _, hget, h⟩ := bind_ok h
  cases hget
  dsimp only at h
  split at h
  · split at h
    · cases h
      exact refl_of _ _
    · next hfits =>
      obtain ⟨pt, m₁, hown, h⟩ := bind_ok h
      obtain ⟨rfl, hpt⟩ := ownTable_ok hown
      obtain ⟨⟨pt', sz⟩, m₂, halloc, h⟩ := bind_ok h
      obtain ⟨k', hk, rfl⟩ := onKmem_ok halloc
      obtain ⟨_, m₃, hset, h⟩ := bind_ok h
      have hkept : Owned p m₁ m₃ := trans_of (Owned p)
        (hframe.kmem m₁ k' (Fit.loose.uvmalloc _ _ _ _ _ _ _ _ hk)) (hframe.setTable _ _ _ _ hset)
      dsimp only at h
      split at h
      · cases h
        exact hkept
      · obtain ⟨_, m₄, hsz, h⟩ := bind_ok h
        cases h
        refine trans_of (Owned p) hkept (setSpace_owned hsz id fun _ => ?_)
        have hle := uvmalloc_size (Nat.le_add_right _ _) hk
        exact pageCount_trapframe (hle.trans (Nat.not_lt.mp hfits))
  · split at h
    · obtain ⟨pt, m₁, hown, h⟩ := bind_ok h
      obtain ⟨rfl, hpt⟩ := ownTable_ok hown
      obtain ⟨⟨pt', sz⟩, m₂, halloc, h⟩ := bind_ok h
      obtain ⟨k', hk, rfl⟩ := onKmem_ok halloc
      obtain ⟨_, m₃, hset, h⟩ := bind_ok h
      have hkept : Owned p m₁ m₃ := trans_of (Owned p)
        (hframe.kmem m₁ k' (Fit.loose.uvmdealloc _ _ _ _ _ _ hk)) (hframe.setTable _ _ _ _ hset)
      cases hset
      obtain ⟨_, m₄, hsz, h⟩ := bind_ok h
      cases h
      refine trans_of (Owned p) hkept (setSpace_owned hsz id fun hm => ?_)
      simp only [update_self] at hm
      exact (pageCount_mono (uvmdealloc_le hk)).trans hm
    · cases h
      exact refl_of _ _

theorem sysSbrk_owned (p : Slot) (n t : Int) : Keeps (Owned p) (sysSbrk p n t) := by
  refine keeps_bind keeps_get fun m => ?_
  dsimp only
  split
  · exact keeps_bind (growproc_owned p n) fun _ => keeps_pure _
  · split
    · exact keeps_pure _
    · split
      · exact keeps_pure _
      · next hfits =>
        have hle : (((m.space p).sz + n) % 2 ^ 64).toNat ≤ trapframe := by omega
        refine keeps_bind (fun m u m' h => setSpace_owned h id fun _ => ?_) fun _ => keeps_pure _
        exact pageCount_trapframe hle

/-- Every system call that works on memory alone. -/
theorem memory_owned {c : Call} {x : M Int} {r : Int} (hs : Sound m.kmem 0)
    (hc : c.memory p = some x) (h : x m = .ok (r, m')) : Owned p m m' := by
  have hframe := Owned.framed p
  cases c with
  | exec img argv =>
    cases hc
    exact execProc_owned hs h
  | sbrk n t =>
    cases hc
    exact sysSbrk_owned p n t _ _ _ h
  | shmget key size =>
    cases hc
    exact hframe.sysShmget Fit.loose key size _ _ _ h
  | shmat id =>
    cases hc
    exact hframe.sysShmat Fit.loose.toClosed id _ _ _ h
  | shmdt id =>
    cases hc
    exact hframe.sysShmdt Fit.loose.toGiving id _ _ _ h
  | _ => cases hc

/-! ## Every run -/

structure Orderly (s : Kernel) : Prop where
  kend : 0 < s.mem.kmem.kend
  sound : Sound s.mem.kmem 0
  vacant : ∀ q, (s.proc q).state = .unused → Vacant (s.mem.space q)
  table : ∀ q, (s.proc q).state ≠ .unused → (s.mem.space q).pagetable.isSome = true
  size : ∀ q, pageCount (s.mem.space q).sz ≤ tfPage

theorem Fit.sound (hk : Fit k k') (hs : Sound k 0) : Sound k' 0 := by
  intro x hx
  rw [add_zero] at hx
  rw [hk.kend]
  rcases hk.free x hx with hx | hx
  · exact hs x (by rwa [add_zero])
  · exact hx

/-- Steps that stay within one process. -/
theorem Orderly.own (h : Orderly s) (hp : (s.proc p).state ≠ .unused)
    (ho : Owned p s.mem s'.mem)
    (hst : ∀ q, (s'.proc q).state = .unused ↔ (s.proc q).state = .unused) : Orderly s' := by
  constructor
  · rw [ho.kmem.kend]
    exact h.kend
  · exact Fit.sound ho.kmem h.sound
  · intro q hq
    have hold := (hst q).mp hq
    have hne : q ≠ p := by
      rintro rfl
      exact hp hold
    rw [ho.others q hne]
    exact h.vacant q hold
  · intro q hq
    by_cases hne : q = p
    · subst hne
      exact ho.table (h.table q hp)
    · rw [ho.others q hne]
      exact h.table q fun hu => hq ((hst q).mpr hu)
  · intro q
    by_cases hne : q = p
    · subst hne
      exact ho.size (h.size q)
    · rw [ho.others q hne]
      exact h.size q

/-- A freed slot has no page table left. -/
theorem freeproc_ok {u : PUnit} (h : freeproc q m = .ok (u, m')) :
    Elsewhere q m m' ∧ Vacant (m'.space q) := by
  refine ⟨(Elsewhere.reframed q).freeproc Fit.loose.toGiving _ _ _ h, ?_⟩
  obtain ⟨_, m₁, -, h⟩ := bind_ok h
  obtain ⟨_, m₂, -, h⟩ := bind_ok h
  obtain ⟨_, m₃, -, h⟩ := bind_ok h
  cases h
  simp only [update_self]
  exact ⟨rfl, rfl, rfl⟩

/-- A slot that is used, or freed, by the step. -/
theorem Orderly.slot (h : Orderly s) (he : Elsewhere q s.mem s'.mem)
    (hq : (s'.proc q).state = .unused → Vacant (s'.mem.space q))
    (htable : (s'.proc q).state ≠ .unused → (s'.mem.space q).pagetable.isSome = true)
    (hsize : pageCount (s'.mem.space q).sz ≤ tfPage)
    (hst : ∀ r, r ≠ q → ((s'.proc r).state = .unused ↔ (s.proc r).state = .unused)) :
    Orderly s' := by
  constructor
  · rw [he.kmem.kend]
    exact h.kend
  · exact Fit.sound he.kmem h.sound
  · intro r hr
    by_cases hrq : r = q
    · subst hrq
      exact hq hr
    · rw [he.others r hrq]
      exact h.vacant r ((hst r hrq).mp hr)
  · intro r hr
    by_cases hrq : r = q
    · subst hrq
      exact htable hr
    · rw [he.others r hrq]
      exact h.table r fun hu => hr ((hst r hrq).mpr hu)
  · intro r
    by_cases hrq : r = q
    · subst hrq
      exact hsize
    · rw [he.others r hrq]
      exact h.size r

/-- `allocproc` with its copy, failed or not. -/
theorem Orderly.create {create : Create} {np : Slot} {ok : Bool} (h : Orderly s)
    (hr : (s.proc p).state = .running) (hu : (s.proc np).state = .unused)
    (hm : copyProc p np create.regs s.mem = .ok (ok, s'.mem))
    (hnp : (s'.proc np).state = .unused ↔ ok = false)
    (hst : ∀ q, q ≠ np → ((s'.proc q).state = .unused ↔ (s.proc q).state = .unused)) :
    Orderly s' := by
  have he := (Elsewhere.reframed np).copyProc Fit.loose _ _ _ _ _ hm
  obtain ⟨pt, hpt⟩ := Option.isSome_iff_exists.mp (h.table p (by rw [hr]; decide))
  have hready : Ready s.mem np := ⟨h.sound, h.kend, h.vacant np hu⟩
  rcases (copyProc_ready_wp hready hpt (h.size p) create.regs).post hm with
    ⟨rfl, k', hmem, -⟩ | ⟨rfl, tf, new, hc⟩
  · have hsp : s'.mem.space np = Space.empty := by
      rw [hmem]
      exact update_self np _ _
    refine h.slot he (fun _ => hsp ▸ Vacant.empty) (fun hne => absurd (hnp.mpr rfl) hne) ?_ hst
    rw [hsp]
    exact Nat.zero_le _
  · have hsp : s'.mem.space np = ⟨(s.mem.space p).sz, some new, tf, fun _ => 0⟩ := by
      rw [hc.mem]
      exact update_self np _ _
    refine h.slot he (fun hnone => absurd (hnp.mp hnone) Bool.noConfusion) (fun _ => ?_) ?_ hst
    · rw [hsp]
      rfl
    · rw [hsp]
      exact h.size p

theorem Orderly.reap {addr : Nat} {xstate : Int} {ok : Bool} (h : Orderly s)
    (hr : (s.proc p).state = .running) (hz : (s.proc q).state = .zombie)
    (hm : reap p q addr xstate s.mem = .ok (ok, s'.mem))
    (hq : (s'.proc q).state = .unused ↔ ok = true)
    (hst : ∀ r, r ≠ q → ((s'.proc r).state = .unused ↔ (s.proc r).state = .unused)) :
    Orderly s' := by
  have hp : (s.proc p).state ≠ .unused := by
    rw [hr]
    decide
  obtain ⟨stored, m₁, hstore, hm⟩ := bind_ok hm
  have hown := (Owned.framed p).storeStatus Fit.loose _ _ _ _ _ hstore
  cases stored with
  | false =>
    cases hm
    refine h.own hp hown fun r => ?_
    by_cases hrq : r = q
    · subst hrq
      rw [hq, hz]
      decide
    · exact hst r hrq
  | true =>
    obtain ⟨_, m₂, hfree, hm⟩ := bind_ok hm
    cases hm
    -- the status is stored first, in the address space of the parent
    have h₁ : Orderly (s.setMem m₁) := h.own hp hown fun _ => Iff.rfl
    obtain ⟨he, hv⟩ := freeproc_ok hfree
    refine h₁.slot he (fun _ => hv) (fun hne => absurd (hq.mpr rfl) hne) ?_ hst
    rw [hv.sz]
    exact Nat.zero_le _

/-- The step lemma, from the list of the possible steps. -/
theorem Orderly.step (ht : Table s) (h : Orderly s) (hs : Step o p s s') : Orderly s' := by
  have hliving : (s.proc p).state = .running → (s.proc p).state ≠ .unused := by
    intro hr
    rw [hr]
    decide
  cases memStep ht hs with
  | quiet hmem hst =>
    constructor
    · exact hmem ▸ h.kend
    · exact hmem ▸ h.sound
    · intro q hq
      exact hmem ▸ h.vacant q ((hst q).mp hq)
    · intro q hq
      exact hmem ▸ h.table q fun hu => hq ((hst q).mpr hu)
    · intro q
      exact hmem ▸ h.size q
  | fault hr hm hst =>
    exact h.own (hliving hr) ((Owned.framed p).pageFault Fit.loose.toClosed _ _ _ _ hm) hst
  | memory hr hc hm _ hst => exact h.own (hliving hr) (memory_owned h.sound hc hm) hst
  | create hr hu hm hnp hst => exact h.create hr hu hm hnp hst
  | reap hr hz hm hq hst => exact h.reap hr hz hm hq hst

theorem Orderly.withFails (h : Orderly s) (fails : List Bool) : Orderly (s.withFails fails) :=
  ⟨h.kend, h.sound, h.vacant, h.table, h.size⟩

theorem Booted.orderly (hb : Booted ram s) : Orderly s := by
  obtain ⟨hinv, hlow⟩ := Booted.inv hb
  refine ⟨MemInv.kend_pos hinv.mem, MemInv.sound_zero hinv.mem, fun q hq => ?_, hinv.table,
    fun q => (hlow q).trans (by decide)⟩
  rw [hinv.free q hq]
  exact Vacant.empty

/-- Every reachable state is in order, whatever the processes do. -/
theorem Reach.orderly {ok : Kernel → Action → Prop} (hb : Booted ram s₀) (hr : Reach ok s₀ s) :
    Table s ∧ Orderly s := by
  refine Reach.invariant (I := fun s => Table s ∧ Orderly s) ⟨Booted.table hb, Booted.orderly hb⟩
    (fun s a s' h _ ha => ?_) hr
  exact ⟨Table.act h.1 ha, (h.2.withFails a.fails).step (Table.withFails h.1 a.fails) (act_step ha)⟩

end KernelReady
