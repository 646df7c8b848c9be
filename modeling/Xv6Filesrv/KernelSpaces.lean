import Xv6Filesrv.KernelPrograms

/-!
# What is done for a process

The functions above those of `kernel/vm.c` change the address space of the process they work for
and the segment table besides.
-/

namespace KernelPrograms

open StateFrame KernelPages KernelPageTable KernelUserPages KernelExec KernelShm
open KernelProc

variable {α : Type} {k k' : Kmem} {K : Kmem → Kmem → Prop} {R : Mem → Mem → Prop} {p q : Slot}

/-! ## Address spaces and segments -/

/-- An address space that has kept its size, and a page table if it had one. -/
structure Steady (s s' : Space) : Prop where
  sz : s'.sz = s.sz
  table : s.pagetable.isSome = true → s'.pagetable.isSome = true

/-- An update that makes no segment longer than its window. -/
def Modest (f : Shmseg → Shmseg) : Prop :=
  ∀ s, (s.used = true → s.npages ≤ 4) → (f s).used = true → (f s).npages ≤ 4

/-- Relations that hold across what is done on behalf of `p`: changes `K` of the allocator, steady
changes of the address space of `p`, and changes of segments. -/
structure Framed (K : Kmem → Kmem → Prop) (p : Slot) (R : Mem → Mem → Prop) : Prop where
  kmem : ∀ m k', K m.kmem k' → R m { m with kmem := k' }
  space : ∀ f, (∀ s, Steady s (f s)) → Keeps R (setSpace p f)
  seg : ∀ i f, Modest f → Keeps R (setSeg i f)

/-- The same with any change of the address space. -/
structure Reframed (K : Kmem → Kmem → Prop) (p : Slot) (R : Mem → Mem → Prop) : Prop
    extends Framed K p R where
  resize : ∀ f, Keeps R (setSpace p f)

theorem keeps_ownTable [Std.Refl R] (p : Slot) : Keeps R (ownTable p) := by
  intro m pt m' he
  obtain ⟨rfl, -⟩ := ownTable_ok he
  exact refl_of R m'

section

variable (h : Framed K p R)

include h

/-- Work in the allocator, done for some process. -/
theorem Framed.onKmem {c : KM α} (hc : Keeps K c) : Keeps R (onKmem c) := by
  intro m x m' he
  obtain ⟨k', hk, rfl⟩ := onKmem_ok he
  exact h.kmem m k' (hc _ x k' hk)

theorem Framed.setTable (pt : PageTable) : Keeps R (setTable p pt) :=
  h.space _ fun _ => ⟨rfl, fun _ => rfl⟩

theorem Framed.setShmVa (i : SegId) (va : Nat) :
    Keeps R (setSpace p fun s => { s with shmVa := Function.update s.shmVa i va }) :=
  h.space _ fun _ => ⟨rfl, id⟩

theorem Framed.setReg [Std.Refl R] [IsTrans Mem R] (hk : Loose K) (r : Reg) (value : Nat) :
    Keeps R (setReg q r value) :=
  keeps_bind keeps_get fun _ => h.onKmem (hk.memmove _ _ _)

variable [Std.Refl R] [IsTrans Mem R] [Std.Refl K] [IsTrans Kmem K]

/-- The pages of a new segment; after a failure those that were taken are freed. -/
theorem Framed.shmFill (hk : Loose K) (n : Nat) (i : SegId) (j : Nat) :
    Keeps R (shmFill n i j) := by
  induction n generalizing j with
  | zero => exact keeps_pure _
  | succ n ih =>
    refine keeps_bind (h.onKmem hk.kalloc) fun page => ?_
    cases page with
    | none =>
      refine keeps_bind keeps_get fun m => ?_
      refine keeps_bind (h.onKmem (hk.freePages _)) fun _ => ?_
      refine keeps_bind (h.seg i _ ?_) fun _ => keeps_pure _
      intro s _ hused
      cases hused
    | some mem =>
      refine keeps_bind (h.onKmem (hk.memset _ _ _)) fun _ => ?_
      exact keeps_bind (h.seg i _ fun _ hs => hs) fun _ => ih (j + 1)

/-- The segment table changes, and no address space. -/
theorem Framed.sysShmget (hk : Loose K) (key size : Int) : Keeps R (sysShmget key size) := by
  unfold KernelShm.sysShmget
  split
  · exact keeps_pure _
  · next hsize =>
    have hpages : (size.toNat + pgsize - 1) / pgsize ≤ 4 := by
      simp only [pgsize, maxShmSize] at hsize ⊢
      omega
    refine keeps_bind keeps_get fun m => ?_
    split
    · exact keeps_pure _
    · split
      · exact keeps_pure _
      · refine keeps_bind (h.seg _ _ fun _ _ _ => hpages) fun _ => ?_
        exact keeps_bind (h.shmFill hk _ _ _) fun _ => keeps_pure _

/-- The caller's page table changes, and with it the count of the segment. -/
theorem Framed.sysShmat (hk : Closed K) (id : Int) : Keeps R (sysShmat p id) := by
  unfold KernelShm.sysShmat
  split
  · exact keeps_pure _
  · refine keeps_bind keeps_get fun m => ?_
    split
    · exact keeps_pure _
    · split
      · exact keeps_pure _
      · refine keeps_bind (keeps_ownTable p) fun pt => ?_
        refine keeps_bind (h.onKmem (hk.attachLoop _ _ _ _ _)) ?_
        rintro ⟨pt', ok⟩
        refine keeps_bind (h.setTable pt') fun _ => ?_
        split
        · exact keeps_pure _
        · refine keeps_bind (h.setShmVa _ _) fun _ => ?_
          exact keeps_bind (h.seg _ _ fun _ hs => hs) fun _ => keeps_pure _

/-- The last to detach frees the pages of the segment. -/
theorem Framed.shmDetach (hk : Giving K) (i : SegId) : Keeps R (shmDetach p i) := by
  refine keeps_bind keeps_get fun m => ?_
  refine keeps_bind (keeps_ownTable p) fun pt => ?_
  refine keeps_bind (h.onKmem (hk.uvmunmap _ _ _ _)) fun pt => ?_
  refine keeps_bind (h.setTable pt) fun _ => ?_
  refine keeps_bind (h.setShmVa _ _) fun _ => ?_
  split
  · refine keeps_bind (h.onKmem (hk.freePages _)) fun _ => h.seg i _ ?_
    intro s _ hused
    cases hused
  · exact h.seg i _ fun _ hs => hs

theorem Framed.sysShmdt (hk : Giving K) (id : Int) : Keeps R (sysShmdt p id) := by
  unfold KernelShm.sysShmdt
  split
  · exact keeps_pure _
  · refine keeps_bind keeps_get fun m => ?_
    split
    · exact keeps_pure _
    · exact keeps_bind (h.shmDetach hk _) fun _ => keeps_pure _

/-- What `freeproc` does with the segments of a process. -/
theorem Framed.detachAll (hk : Giving K) : Keeps R (detachAll p) := by
  refine keeps_forM (fun i => ?_) _
  refine keeps_bind keeps_get fun m => ?_
  split
  · exact h.shmDetach hk i
  · exact keeps_pure _

theorem Framed.pageFault (hk : Closed K) (va : Nat) : Keeps R (pageFault p va) := by
  refine keeps_bind keeps_get fun m => ?_
  refine keeps_bind (keeps_ownTable p) fun own => ?_
  refine keeps_bind (h.onKmem (hk.vmfault _ _ _ _)) fun r => ?_
  exact keeps_bind (h.setTable _) fun _ => keeps_pure _

/-- `wait` copies the exit status out to the parent. -/
theorem Framed.storeStatus (hk : Loose K) (addr : Nat) (xstate : Int) :
    Keeps R (storeStatus p addr xstate) := by
  unfold KernelProc.storeStatus
  split
  · exact keeps_pure _
  · refine keeps_bind keeps_get fun m => ?_
    refine keeps_bind (keeps_ownTable p) fun own => ?_
    refine keeps_bind (h.onKmem (hk.copyout _ _ _ _ _)) fun r => ?_
    exact keeps_bind (h.setTable _) fun _ => keeps_pure _

end

section

variable (h : Reframed K p R)

include h

variable [Std.Refl R] [IsTrans Mem R] [Std.Refl K] [IsTrans Kmem K]

/-- A slot loses its trapframe, its page table and its size. -/
theorem Reframed.freeproc (hk : Giving K) : Keeps R (freeproc p) := by
  refine keeps_bind (h.detachAll hk) fun _ => ?_
  refine keeps_bind keeps_get fun m => ?_
  exact keeps_bind (h.onKmem (hk.freeSpace _)) fun _ => h.resize _

/-- A slot gets a trapframe and a page table, or is freed again. -/
theorem Reframed.allocproc (hk : Closed K) : Keeps R (allocproc p) := by
  refine keeps_bind (h.resize _) fun _ => ?_
  refine keeps_bind (h.onKmem hk.kalloc) fun tf => ?_
  cases tf with
  | none =>
    refine keeps_bind (h.resize _) fun _ => ?_
    exact keeps_bind (h.freeproc hk.toGiving) fun _ => keeps_pure _
  | some tf =>
    refine keeps_bind (h.resize _) fun _ => ?_
    refine keeps_bind (h.onKmem (hk.procPagetable _)) fun pt => ?_
    refine keeps_bind (h.resize _) fun _ => ?_
    split
    · exact keeps_bind (h.freeproc hk.toGiving) fun _ => keeps_pure _
    · exact keeps_pure _

/-- Creating a process changes no address space but that of the new one. -/
theorem Reframed.copyProc (hk : Loose K) (parent : Slot) (regs : List (Reg × Nat)) :
    Keeps R (copyProc parent p regs) := by
  refine keeps_bind (h.allocproc hk.toClosed) fun ok => ?_
  split
  · exact keeps_pure _
  · refine keeps_bind keeps_get fun m => ?_
    refine keeps_bind (keeps_ownTable parent) fun old => ?_
    refine keeps_bind (keeps_ownTable p) fun new => ?_
    refine keeps_bind (h.onKmem (hk.uvmcopy _ _ _)) ?_
    rintro ⟨new', ok⟩
    refine keeps_bind (h.setTable new') fun _ => ?_
    split
    · exact keeps_bind (h.freeproc hk.toGiving) fun _ => keeps_pure _
    · refine keeps_bind (h.resize _) fun _ => ?_
      refine keeps_bind keeps_get fun m => ?_
      refine keeps_bind (h.onKmem (hk.memmove _ _ _)) fun _ => ?_
      exact keeps_bind (keeps_forM (fun r => h.setReg hk _ _) regs) fun _ => keeps_pure _

/-- The address space is replaced only if `kexec` succeeds. -/
theorem Reframed.execProc (hk : Loose K) (img : Option Image) (argv : Argv) :
    Keeps R (execProc p img argv) := by
  refine keeps_bind keeps_get fun m => ?_
  refine keeps_bind (keeps_ownTable p) fun own => ?_
  refine keeps_bind (h.onKmem (hk.kexec _ _ _ _ _)) fun r => ?_
  refine keeps_bind (h.resize _) fun _ => ?_
  split
  · refine keeps_bind (h.setReg hk _ _) fun _ => ?_
    refine keeps_bind (h.setReg hk _ _) fun _ => ?_
    exact keeps_bind (h.setReg hk _ _) fun _ => keeps_pure _
  · exact keeps_pure _

/-- The size and the page table change together. -/
theorem Reframed.growproc (hk : Closed K) (n : Int) : Keeps R (growproc p n) := by
  refine keeps_bind keeps_get fun m => ?_
  dsimp only
  split
  · split
    · exact keeps_pure _
    · refine keeps_bind (keeps_ownTable p) fun pt => ?_
      refine keeps_bind (h.onKmem (hk.uvmalloc _ _ _ _ _)) fun r => ?_
      refine keeps_bind (h.setTable _) fun _ => ?_
      split
      · exact keeps_pure _
      · exact keeps_bind (h.resize _) fun _ => keeps_pure _
  · split
    · refine keeps_bind (keeps_ownTable p) fun pt => ?_
      refine keeps_bind (h.onKmem (hk.uvmdealloc _ _ _)) fun r => ?_
      refine keeps_bind (h.setTable _) fun _ => ?_
      exact keeps_bind (h.resize _) fun _ => keeps_pure _
    · exact keeps_pure _

theorem Reframed.sysSbrk (hk : Closed K) (n t : Int) : Keeps R (sysSbrk p n t) := by
  refine keeps_bind keeps_get fun m => ?_
  dsimp only
  split
  · exact keeps_bind (h.growproc hk n) fun _ => keeps_pure _
  · split
    · exact keeps_pure _
    · split
      · exact keeps_pure _
      · exact keeps_bind (h.resize _) fun _ => keeps_pure _

/-- The system calls that are one step of memory. -/
theorem Reframed.memory (hk : Loose K) {c : Call} {x : M Int} (hc : c.memory p = some x) :
    Keeps R x := by
  cases c with
  | exec img argv =>
    cases hc
    exact h.execProc hk img argv
  | sbrk n t =>
    cases hc
    exact h.sysSbrk hk.toClosed n t
  | shmget key size =>
    cases hc
    exact h.sysShmget hk key size
  | shmat id =>
    cases hc
    exact h.sysShmat hk.toClosed id
  | shmdt id =>
    cases hc
    exact h.sysShmdt hk.toGiving id
  | _ => cases hc

/-- A zombie is freed after its status was copied out. -/
theorem Reframed.reap (hk : Loose K) (hq : Framed K q R) (addr : Nat) (xstate : Int) :
    Keeps R (reap q p addr xstate) := by
  refine keeps_bind (hq.storeStatus hk addr xstate) fun ok => ?_
  split
  · exact keeps_pure _
  · exact keeps_bind (h.freeproc hk.toGiving) fun _ => keeps_pure _

end

/-! ## How a process is created -/

/-- `allocproc` finds no memory, or `uvmcopy` finds none and all is undone, or the parent's registers
are copied and changed. -/
inductive Copies (p np : Slot) (regs : List (Reg × Nat)) (m : Mem) : Bool → Mem → Prop
  | full {m' : Mem} (ha : allocproc np m = .ok (false, m')) : Copies p np regs m false m'
  | undone {m₁ m₂ m₃ m' : Mem} {old new new' : PageTable} {u v : PUnit}
      (ha : allocproc np m = .ok (true, m₁))
      (hc : onKmem (uvmcopy old new (m₁.space p).sz) m₁ = .ok ((new', false), m₂))
      (ht : setTable np new' m₂ = .ok (u, m₃)) (hf : freeproc np m₃ = .ok (v, m')) :
      Copies p np regs m false m'
  | done {m₁ m₂ m₃ m₄ m₅ m' : Mem} {old new new' : PageTable} {u v w x : PUnit}
      (ha : allocproc np m = .ok (true, m₁))
      (hc : onKmem (uvmcopy old new (m₁.space p).sz) m₁ = .ok ((new', true), m₂))
      (ht : setTable np new' m₂ = .ok (u, m₃))
      (hs : setSpace np (fun s => { s with sz := (m₁.space p).sz }) m₃ = .ok (v, m₄))
      (hm : onKmem (memmove (m₄.space np).trapframe
        (fun j => m₄.kmem.bytes ((m₄.space p).trapframe + j)) 288) m₄ = .ok (w, m₅))
      (hr : (forM regs fun r => setReg np r.1 r.2) m₅ = .ok (x, m')) : Copies p np regs m true m'

/-- The parts of `kfork` that work on memory, in their order. -/
theorem copyProc_copies {np : Slot} {regs : List (Reg × Nat)} {ok : Bool} {m m' : Mem}
    (h : copyProc p np regs m = .ok (ok, m')) : Copies p np regs m ok m' := by
  obtain ⟨alloced, m₁, halloc, h⟩ := bind_ok h
  cases alloced with
  | false =>
    cases h
    exact .full halloc
  | true =>
    obtain ⟨_, _, hget, h⟩ := bind_ok h
    cases hget
    obtain ⟨old, _, hold, h⟩ := bind_ok h
    obtain ⟨rfl, -⟩ := ownTable_ok hold
    obtain ⟨new, _, hnew, h⟩ := bind_ok h
    obtain ⟨rfl, -⟩ := ownTable_ok hnew
    obtain ⟨⟨new', copied⟩, m₂, hcopy, h⟩ := bind_ok h
    obtain ⟨_, m₃, htable, h⟩ := bind_ok h
    cases copied with
    | false =>
      obtain ⟨_, m₄, hfree, h⟩ := bind_ok h
      cases h
      exact .undone halloc hcopy htable hfree
    | true =>
      obtain ⟨_, m₄, hsize, h⟩ := bind_ok h
      obtain ⟨_, _, hget, h⟩ := bind_ok h
      cases hget
      obtain ⟨_, m₅, hmove, h⟩ := bind_ok h
      obtain ⟨_, m₆, hregs, h⟩ := bind_ok h
      cases h
      exact .done halloc hcopy htable hsize hmove hregs

/-! ## Free pages stay good -/

/-- Every page on the free list was there before or passes the test in `kfree`. -/
structure Fit (k k' : Kmem) : Prop where
  kend : k'.kend = k.kend
  free : ∀ x ∈ k'.freelist, x ∈ k.freelist ∨ okPage k.kend x

instance : Std.Refl Fit := ⟨fun _ => ⟨rfl, fun _ h => .inl h⟩⟩

instance : IsTrans Kmem Fit where
  trans _ _ _ h h' := by
    refine ⟨h'.kend.trans h.kend, fun x hx => ?_⟩
    rcases h'.free x hx with hx | hx
    · exact h.free x hx
    · exact .inr (h.kend ▸ hx)

theorem Fit.loose : Loose Fit where
  none _ := ⟨rfl, fun _ h => .inl h⟩
  some _ _ _ _ hl _ := ⟨rfl, fun _ h => .inl (hl ▸ List.mem_cons_of_mem _ h)⟩
  free _ _ hok := ⟨rfl, fun _ h => (List.mem_cons.mp h).elim (fun e => .inr (e ▸ hok)) .inl⟩
  torn _ _ := ⟨rfl, fun _ h => .inl h⟩
  write _ _ := ⟨rfl, fun _ h => .inl h⟩

/-! ## Where a page can be mapped -/

/-- `walk` panics from `MAXVA` on. -/
theorem walk_lt {pt : PageTable} {va : Nat} {alloc : Bool} {r : PageTable × Bool}
    (h : walk pt va alloc k = .ok (r, k')) : va < maxva := by
  unfold walk at h
  split at h
  · cases h
  · next hva => exact Nat.lt_of_not_le hva

/-- A walk adds tables and no mappings. -/
theorem walk_map {pt pt' : PageTable} {va : Nat} {ok : Bool}
    (h : walk pt va true k = .ok ((pt', ok), k')) :
    (∀ v, pt'.map v = pt.map v) ∧ (ok = true → pt'.reaches (va / 4096) = true) :=
  ((walk_wp pt va (walk_lt h) k).post h).2

theorem store_reaches (pt : PageTable) (v w : Nat) (e : Option Pte) :
    (pt.store v e).reaches w = pt.reaches w := by
  cases h₂ : pt.slot (px 2 (v * 4096)) with
  | none => simp only [Table.store, h₂]
  | some t₁ =>
    cases h₁ : t₁.slot (px 1 (v * 4096)) with
    | none => simp only [Table.store, h₂, h₁]
    | some t₀ =>
      simp only [Table.store, h₂, h₁, Table.reaches, Table.put_slot]
      by_cases e₂ : px 2 (w * 4096) = px 2 (v * 4096)
      · by_cases e₁ : px 1 (w * 4096) = px 1 (v * 4096)
        · simp [e₂, e₁, h₂, h₁]
        · simp [e₂, e₁, h₂, Table.put_slot]
      · simp [e₂]

/-- `mappages` on one page fails only in `walk`, and it does not return from a page that is mapped
already. -/
theorem mappages_ok {pt pt' : PageTable} {v pa : Nat} {perm : Perm} {ok : Bool}
    (h : mappages pt (v * 4096) pgsize pa perm k = .ok ((pt', ok), k')) :
    ok = false ∧ walk pt (v * 4096) true k = .ok ((pt', false), k') ∨
    ok = true ∧ v < 67108864 ∧ pt.map v = none ∧ pt'.reaches v = true ∧
      ∀ w < maxPage, pt'.map w = if w = v then some ⟨pa, perm⟩ else pt.map w := by
  have hdiv : v * 4096 / 4096 = v := by omega
  simp only [mappages, pgsize, Nat.mul_mod_left, Nat.mod_self, ne_eq, not_true_eq_false, if_false,
    show (4096 : Nat) ≠ 0 by decide, Nat.div_self (show 0 < 4096 by decide), mapLoop] at h
  obtain ⟨⟨pt₁, found⟩, k₁, hw, h⟩ := bind_ok h
  cases found with
  | false =>
    cases h
    exact .inl ⟨rfl, hw⟩
  | true =>
    obtain ⟨hsame, hreach⟩ := walk_map hw
    have hv : v < 67108864 := by
      have hlt := walk_lt hw
      simp only [maxva] at hlt
      omega
    have hr := hreach rfl
    simp only [Bool.true_eq_false, if_false, hdiv] at h hr
    split at h
    · cases h
    · next hnone =>
      cases h
      rw [hsame v, Option.not_isSome_iff_eq_none] at hnone
      refine .inr ⟨rfl, hv, hnone, by rw [store_reaches]; exact hr, fun w hw => ?_⟩
      rw [store_map pt₁ v w _ (lt_maxPage hv) hw hr, hsame w]

end KernelPrograms
