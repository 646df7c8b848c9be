import Xv6Filesrv.KernelProc
import Xv6Filesrv.StateFrame

/-!
# What the memory programs are made of

The functions of `kernel/vm.c` and `kernel/exec.c` change the allocator's state through `kalloc`,
`kfree` and writes only, and all but a few of them write only to a page that `kalloc` has just
returned.  So a relation between states holds across all of them if it holds across these operations.
-/

namespace KernelPrograms

open StateFrame KernelPages KernelPageTable KernelUvm KernelUserPages KernelExec KernelShm

variable {α : Type} {k k' k₁ : Kmem} {K : Kmem → Kmem → Prop}

/-! ## The allocator -/

/-- Address `a` lies on the page at `x`. -/
def OnPage (x a : Nat) : Prop := x ≤ a ∧ a < x + 4096

/-- Pages do not overlap. -/
theorem OnPage.unique {x y a : Nat} (hx : x % 4096 = 0) (hy : y % 4096 = 0) (hxa : OnPage x a)
    (hya : OnPage y a) : x = y := by
  obtain ⟨hx₁, hx₂⟩ := hxa
  obtain ⟨hy₁, hy₂⟩ := hya
  omega

theorem fill_off {bytes : Nat → UInt8} {x a : Nat} {c : UInt8} (h : ¬OnPage x a) :
    fill bytes x pgsize c a = bytes a := if_neg h

/-- What `kalloc` can do: find nothing, because it is to fail or no page is free, or take the first
page. -/
theorem kalloc_ok {o : Option Nat} (h : kalloc k = .ok (o, k')) :
    o = none ∧ (k.fails.headD false = true ∨ k.freelist = []) ∧
      k' = { k with fails := k.fails.tail } ∨
    ∃ r rest, o = some r ∧ k.freelist = r :: rest ∧
      k' = { k with
        freelist := rest, fails := k.fails.tail, bytes := fill k.bytes r pgsize 5 } := by
  unfold kalloc at h
  obtain ⟨_, _, hget, h⟩ := bind_ok h
  cases hget
  by_cases hfail : k.fails.headD false = true
  · rw [if_pos hfail] at h
    cases h
    exact .inl ⟨rfl, .inl hfail, rfl⟩
  rw [if_neg hfail] at h
  cases hl : k.freelist with
  | nil =>
    rw [hl] at h
    cases h
    exact .inl ⟨rfl, .inr rfl, rfl⟩
  | cons r rest =>
    rw [hl] at h
    cases h
    exact .inr ⟨r, rest, rfl, rfl, rfl⟩

/-- The page that `kalloc` returns was the first free one. -/
theorem kalloc_took {r : Nat} (h : kalloc k = .ok (some r, k')) :
    k.freelist = r :: k'.freelist := by
  rcases kalloc_ok h with ⟨hnone, -⟩ | ⟨r', rest, hr, hl, rfl⟩
  · cases hnone
  · cases hr
    exact hl

/-- What `kfree` does when it does not panic. -/
theorem kfree_ok {pa : Nat} {u : PUnit} (h : kfree pa k = .ok (u, k')) : okPage k.kend pa ∧
    k' = { k with
      freelist := pa :: k.freelist, freed := pa :: k.freed,
      bytes := fill k.bytes pa pgsize 1 } := by
  unfold kfree at h
  obtain ⟨_, _, hget, h⟩ := bind_ok h
  cases hget
  split at h
  · next hok =>
    cases h
    exact ⟨hok, rfl⟩
  · cases h

/-- Relations that hold across `kalloc`, also when the page that it returned is overwritten. -/
structure Taking (K : Kmem → Kmem → Prop) : Prop where
  none : ∀ k, K k { k with fails := k.fails.tail }
  some : ∀ k r rest bytes, k.freelist = r :: rest → (∀ a, ¬OnPage r a → bytes a = k.bytes a) →
    K k { k with freelist := rest, fails := k.fails.tail, bytes := bytes }

/-- Relations that hold across `kfree`. -/
structure Giving (K : Kmem → Kmem → Prop) : Prop where
  free : ∀ k pa, okPage k.kend pa → K k { k with
    freelist := pa :: k.freelist, freed := pa :: k.freed, bytes := fill k.bytes pa pgsize 1 }
  torn : ∀ k x, K k { k with torn := x :: k.torn }

structure Closed (K : Kmem → Kmem → Prop) : Prop extends Taking K, Giving K

/-- Relations that do not mind other writes either. -/
structure Loose (K : Kmem → Kmem → Prop) : Prop extends Closed K where
  write : ∀ k bytes, K k { k with bytes := bytes }

/-! ## Looking something up -/

section

variable [Std.Refl K]

theorem keeps_descend (t : Table (Table α)) (i : Nat) : Keeps K (descend false t i) := by
  unfold KernelPageTable.descend
  split
  · exact keeps_pure _
  · exact keeps_pure _

variable [IsTrans Kmem K]

/-- A walk that must not allocate changes nothing. -/
theorem keeps_walk (pt : PageTable) (va : Nat) : Keeps K (walk pt va false) := by
  unfold KernelPageTable.walk
  split
  · exact keeps_throw _
  · refine keeps_bind (keeps_descend _ _) fun r => ?_
    obtain ⟨_ | t, pt⟩ := r
    · exact keeps_pure _
    · exact keeps_bind (keeps_descend _ _) fun _ => keeps_pure _

/-- Nor does a look-up of an address. -/
theorem keeps_walkaddr (pt : PageTable) (va : Nat) : Keeps K (walkaddr pt va) := by
  unfold KernelUserPages.walkaddr
  split
  · exact keeps_pure _
  · refine keeps_bind (keeps_walk _ _) ?_
    rintro ⟨pt', ok⟩
    dsimp only
    split
    · exact keeps_pure _
    · split
      · exact keeps_pure _
      · exact keeps_pure _

theorem keeps_ismapped (pt : PageTable) (va : Nat) : Keeps K (ismapped pt va) :=
  keeps_bind (keeps_walk _ _) fun _ => keeps_pure _

theorem keeps_uvmclear (pt : PageTable) (va : Nat) : Keeps K (uvmclear pt va) := by
  refine keeps_bind (keeps_walk _ _) ?_
  rintro ⟨pt', ok⟩
  dsimp only
  split
  · exact keeps_throw _
  · split
    · exact keeps_pure _
    · exact keeps_pure _

end

/-! ## Taking pages -/

/-- A program that goes on with the page that `kalloc` returned. -/
def Taken (K : Kmem → Kmem → Prop) (pa : Nat) (c : KM α) : Prop :=
  ∀ k k₁ x k', kalloc k = .ok (some pa, k₁) → c k₁ = .ok (x, k') → K k k'

section

variable (h : Taking K)

include h

/-- `kalloc` fills the page with 5s, which the relation has to allow as well. -/
theorem Taking.kalloc : Keeps K kalloc := by
  intro k o k' hk
  rcases kalloc_ok hk with ⟨-, -, rfl⟩ | ⟨r, rest, -, hl, rfl⟩
  · exact h.none k
  · exact h.some k r rest _ hl fun a ha => fill_off ha

variable [IsTrans Kmem K]

/-- A page that was just allocated is cleared. -/
theorem Taking.memset {pa : Nat} {v : UInt8} {c : KM α} (hc : Keeps K c) :
    Taken K pa (memset pa v pgsize >>= fun _ => c) := by
  intro k k₁ x k' hk hx
  obtain ⟨_, k₂, hset, hx⟩ := bind_ok hx
  cases hset
  rcases kalloc_ok hk with ⟨hnone, -⟩ | ⟨r, rest, hr, hl, rfl⟩
  · cases hnone
  · cases hr
    refine trans_of K (h.some k pa rest _ hl fun a ha => ?_) (hc _ x k' hx)
    exact (fill_off ha).trans (fill_off ha)

/-- A page that was just allocated is filled with a copy. -/
theorem Taking.memmove {pa : Nat} {src : Kmem → Nat → UInt8} {c : KM α} (hc : Keeps K c) :
    Taken K pa (get >>= fun k => memmove pa (src k) pgsize >>= fun _ => c) := by
  intro k k₁ x k' hk hx
  obtain ⟨_, _, hget, hx⟩ := bind_ok hx
  cases hget
  obtain ⟨_, k₂, hset, hx⟩ := bind_ok hx
  cases hset
  rcases kalloc_ok hk with ⟨hnone, -⟩ | ⟨r, rest, hr, hl, rfl⟩
  · cases hnone
  · cases hr
    refine trans_of K (h.some k pa rest _ hl fun a ha => ?_) (hc _ x k' hx)
    exact (if_neg ha).trans (fill_off ha)

/-- Taking a page, whatever is done without or with it. -/
theorem Taking.take {f : Option Nat → KM α} (hnone : Keeps K (f .none))
    (hsome : ∀ pa, Taken K pa (f (.some pa))) : Keeps K (KernelPages.kalloc >>= f) := by
  intro k x k' hx
  obtain ⟨o, k₁, hk, hx⟩ := bind_ok hx
  cases o with
  | none => exact trans_of K (h.kalloc k _ k₁ hk) (hnone k₁ x k' hx)
  | some pa => exact hsome pa k k₁ x k' hk hx

variable [Std.Refl K]

/-- One level of a walk, with the allocation of the table below it. -/
theorem Taking.descend (alloc : Bool) (t : Table (Table α)) (i : Nat) :
    Keeps K (descend alloc t i) := by
  unfold KernelPageTable.descend
  split
  · exact keeps_pure _
  · split
    · exact h.take (keeps_pure _) fun pa => h.memset (keeps_pure _)
    · exact keeps_pure _

theorem Taking.walk (pt : PageTable) (va : Nat) (alloc : Bool) : Keeps K (walk pt va alloc) := by
  unfold KernelPageTable.walk
  split
  · exact keeps_throw _
  · refine keeps_bind (h.descend _ _ _) fun r => ?_
    obtain ⟨_ | t, pt⟩ := r
    · exact keeps_pure _
    · exact keeps_bind (h.descend _ _ _) fun _ => keeps_pure _

/-- `mappages` allocates page tables only; the pages it maps come from its caller. -/
theorem Taking.mapLoop (n : Nat) (pt : PageTable) (a pa : Nat) (perm : Perm) :
    Keeps K (mapLoop n pt a pa perm) := by
  induction n generalizing pt a pa with
  | zero => exact keeps_pure _
  | succ n ih =>
    refine keeps_bind (h.walk _ _ _) ?_
    rintro ⟨pt', ok⟩
    dsimp only
    split
    · exact keeps_pure _
    · split
      · exact keeps_throw _
      · exact ih _ _ _

theorem Taking.mappages (pt : PageTable) (va size pa : Nat) (perm : Perm) :
    Keeps K (mappages pt va size pa perm) := by
  unfold KernelPageTable.mappages
  split
  · exact keeps_throw _
  · split
    · exact keeps_throw _
    · split
      · exact keeps_throw _
      · exact h.mapLoop _ _ _ _ _

theorem Taking.uvmcreate : Keeps K uvmcreate :=
  h.take (keeps_pure _) fun _ => h.memset (keeps_pure _)

end

/-! ## Giving pages back -/

section

variable (h : Giving K)

include h

/-- `kfree` puts junk on the page, which the relation has to allow as well. -/
theorem Giving.kfree (pa : Nat) : Keeps K (kfree pa) := by
  intro k u k' hk
  obtain ⟨hok, rfl⟩ := kfree_ok hk
  exact h.free k pa hok

variable [Std.Refl K] [IsTrans Kmem K]

/-- `uvmunmap` skips what is not mapped. -/
theorem Giving.unmapLoop (n : Nat) (pt : PageTable) (a : Nat) (doFree : Bool) :
    Keeps K (unmapLoop n pt a doFree) := by
  induction n generalizing pt a with
  | zero => exact keeps_pure _
  | succ n ih =>
    refine keeps_bind (keeps_walk _ _) ?_
    rintro ⟨pt', ok⟩
    dsimp only
    split
    · exact ih _ _
    · split
      · exact ih _ _
      · split
        · exact keeps_bind (h.kfree _) fun _ => ih _ _
        · exact ih _ _

theorem Giving.uvmunmap (pt : PageTable) (va n : Nat) (doFree : Bool) :
    Keeps K (uvmunmap pt va n doFree) := by
  unfold KernelPageTable.uvmunmap
  split
  · exact keeps_throw _
  · exact h.unmapLoop _ _ _ _

/-- `freewalk` on one level, given what it does on the level below. -/
theorem Giving.freeTable {below : α → KM PUnit} (hbelow : ∀ c, Keeps K (below c)) (t : Table α) :
    Keeps K (freeTable below t) := by
  refine keeps_bind (keeps_forM (fun i => ?_) _) fun _ => h.kfree _
  split
  · exact hbelow _
  · exact keeps_pure _

theorem Giving.freewalk (pt : PageTable) : Keeps K (freewalk pt) :=
  h.freeTable (h.freeTable (h.freeTable fun _ => keeps_throw _)) pt

theorem Giving.uvmfree (pt : PageTable) (sz : Nat) : Keeps K (uvmfree pt sz) := by
  simp only [KernelUserPages.uvmfree]
  split
  · exact keeps_bind (h.uvmunmap _ _ _ _) h.freewalk
  · exact keeps_bind (keeps_pure _) h.freewalk

theorem Giving.procFreepagetable (pt : PageTable) (sz : Nat) :
    Keeps K (procFreepagetable pt sz) := by
  refine keeps_bind (keeps_modify fun k => h.torn k _) fun _ => ?_
  refine keeps_bind (h.uvmunmap _ _ _ _) fun _ => ?_
  refine keeps_bind (h.uvmunmap _ _ _ _) fun _ => ?_
  exact h.uvmfree _ _

/-- A process shrinks by whole pages. -/
theorem Giving.uvmdealloc (pt : PageTable) (oldsz newsz : Nat) :
    Keeps K (uvmdealloc pt oldsz newsz) := by
  unfold KernelUvm.uvmdealloc
  split
  · exact keeps_pure _
  · split
    · exact keeps_bind (h.uvmunmap _ _ _ _) fun _ => keeps_pure _
    · exact keeps_pure _

theorem Giving.freePages (l : List Nat) : Keeps K (freePages l) := keeps_forM h.kfree l

/-- The clean-up of `shmat` unmaps the pages and keeps them. -/
theorem Giving.undoAttach (n : Nat) (pt : PageTable) (va : Nat) : Keeps K (undoAttach n pt va) := by
  induction n generalizing pt va with
  | zero => exact keeps_pure _
  | succ n ih => exact keeps_bind (h.uvmunmap _ _ _ _) fun _ => ih _ _

theorem Giving.freeSpace (s : Space) : Keeps K (freeSpace s) := by
  simp only [KernelShm.freeSpace]
  cases s.pagetable with
  | none =>
    split
    · exact keeps_bind (h.kfree _) fun _ => keeps_pure _
    · exact keeps_pure _
  | some pt =>
    split
    · exact keeps_bind (h.kfree _) fun _ => h.procFreepagetable _ _
    · exact h.procFreepagetable _ _

end

/-! ## User memory -/

section

variable (h : Closed K)

include h

variable [Std.Refl K] [IsTrans Kmem K]

/-- The trampoline and the trapframe are mapped; a failure frees the table again. -/
theorem Closed.procPagetable (tf : Nat) : Keeps K (procPagetable tf) := by
  refine keeps_bind h.uvmcreate fun o => ?_
  cases o with
  | none => exact keeps_pure _
  | some pt =>
    refine keeps_bind keeps_get fun k => ?_
    refine keeps_bind (h.mappages _ _ _ _ _) ?_
    rintro ⟨pt', ok⟩
    dsimp only
    split
    · exact keeps_bind (h.uvmfree _ _) fun _ => keeps_pure _
    · refine keeps_bind (h.mappages _ _ _ _ _) ?_
      rintro ⟨pt', ok⟩
      dsimp only
      split
      · refine keeps_bind (h.uvmunmap _ _ _ _) fun pt => ?_
        exact keeps_bind (h.uvmfree _ _) fun _ => keeps_pure _
      · exact keeps_pure _

/-- A failure of `uvmalloc` takes back what the loop has added. -/
theorem Closed.allocLoop (n : Nat) (pt : PageTable) (a oldsz : Nat) (perm : Perm) :
    Keeps K (allocLoop n pt a oldsz perm) := by
  induction n generalizing pt a with
  | zero => exact keeps_pure _
  | succ n ih =>
    refine h.take (keeps_bind (h.uvmdealloc _ _ _) fun _ => keeps_pure _) fun mem => h.memset ?_
    refine keeps_bind (h.mappages _ _ _ _ _) ?_
    rintro ⟨pt', ok⟩
    dsimp only
    split
    · refine keeps_bind (h.kfree _) fun _ => ?_
      exact keeps_bind (h.uvmdealloc _ _ _) fun _ => keeps_pure _
    · exact ih _ _

theorem Closed.uvmalloc (pt : PageTable) (oldsz newsz : Nat) (w x : Bool) :
    Keeps K (uvmalloc pt oldsz newsz w x) := by
  unfold KernelUvm.uvmalloc
  split
  · exact keeps_pure _
  · exact keeps_bind (h.allocLoop _ _ _ _ _) fun _ => keeps_pure _

/-- `uvmcopy` allocates and fills a page for each page that is mapped, and frees all of them on
failure. -/
theorem Closed.copyLoop (n : Nat) (old new : PageTable) (i : Nat) :
    Keeps K (copyLoop n old new i) := by
  induction n generalizing new i with
  | zero => exact keeps_pure _
  | succ n ih =>
    refine keeps_bind (keeps_walk _ _) ?_
    rintro ⟨pt', ok⟩
    dsimp only
    split
    · exact ih _ _
    · split
      · exact ih _ _
      · refine h.take (keeps_bind (h.uvmunmap _ _ _ _) fun _ => keeps_pure _) fun mem =>
          h.memmove ?_
        refine keeps_bind (h.mappages _ _ _ _ _) ?_
        rintro ⟨pt', ok⟩
        dsimp only
        split
        · refine keeps_bind (h.kfree _) fun _ => ?_
          exact keeps_bind (h.uvmunmap _ _ _ _) fun _ => keeps_pure _
        · exact ih _ _

theorem Closed.uvmcopy (old new : PageTable) (sz : Nat) : Keeps K (uvmcopy old new sz) :=
  h.copyLoop _ _ _ _

/-- A page fault adds a cleared page or frees it again. -/
theorem Closed.vmfault (sz : Nat) (own pt : PageTable) (va : Nat) :
    Keeps K (vmfault sz own pt va) := by
  unfold KernelUserPages.vmfault
  split
  · exact keeps_pure _
  · refine keeps_bind (keeps_ismapped _ _) fun b => ?_
    split
    · exact keeps_pure _
    · refine h.take (keeps_pure _) fun mem => h.memset ?_
      refine keeps_bind (h.mappages _ _ _ _ _) ?_
      rintro ⟨pt', ok⟩
      dsimp only
      split
      · exact keeps_bind (h.kfree _) fun _ => keeps_pure _
      · exact keeps_pure _

/-! ## Segments and processes -/

/-- `shmat` maps pages that exist. -/
theorem Closed.attachLoop (n : Nat) (pt : PageTable) (va : Nat) (pa : Nat → Nat) (j : Nat) :
    Keeps K (attachLoop n pt va pa j) := by
  induction n generalizing pt j with
  | zero => exact keeps_pure _
  | succ n ih =>
    refine keeps_bind (h.mappages _ _ _ _ _) ?_
    rintro ⟨pt', ok⟩
    dsimp only
    split
    · exact keeps_bind (h.undoAttach _ _ _) fun _ => keeps_pure _
    · exact ih _ _

end

/-! ## Programs that write to memory in use -/

section

variable (h : Loose K)

include h

theorem Loose.memset (pa : Nat) (v : UInt8) (n : Nat) : Keeps K (memset pa v n) :=
  keeps_modify fun k => h.write k _

theorem Loose.memmove (dst : Nat) (src : Nat → UInt8) (n : Nat) : Keeps K (memmove dst src n) :=
  keeps_modify fun k => h.write k _

variable [Std.Refl K] [IsTrans Kmem K]

/-- `copyout` writes to a page that is mapped already. -/
theorem Loose.copyoutPage {rest : Nat → List UInt8 → KM (PageTable × Bool)}
    (hrest : ∀ va src, Keeps K (rest va src)) (own pt : PageTable) (dstva : Nat)
    (src : List UInt8) (pa0 : Nat) : Keeps K (copyoutPage rest own pt dstva src pa0) := by
  unfold KernelUserPages.copyoutPage
  split
  · exact keeps_pure _
  · refine keeps_bind (keeps_walk _ _) ?_
    rintro ⟨pt', ok⟩
    dsimp only
    split
    · exact keeps_throw _
    · split
      · exact keeps_pure _
      · split
        · exact keeps_pure _
        · exact keeps_bind (h.memmove _ _ _) fun _ => hrest _ _

/-- Pages that are not there yet are faulted in. -/
theorem Loose.copyoutLoop (fuel sz : Nat) (own : PageTable) (target : Option PageTable)
    (dstva : Nat) (src : List UInt8) : Keeps K (copyoutLoop fuel sz own target dstva src) := by
  induction fuel generalizing own dstva src with
  | zero => exact keeps_pure _
  | succ fuel ih =>
    unfold KernelUserPages.copyoutLoop
    split
    · exact keeps_pure _
    · split
      · exact keeps_pure _
      · refine keeps_bind (keeps_walkaddr _ _) fun pa => ?_
        split
        · exact keeps_bind (h.vmfault _ _ _ _) fun r => h.copyoutPage (ih r.1) _ _ _ _ _
        · exact h.copyoutPage (ih own) _ _ _ _ _

theorem Loose.copyout (sz : Nat) (own : PageTable) (target : Option PageTable) (dstva : Nat)
    (src : List UInt8) : Keeps K (copyout sz own target dstva src) :=
  h.copyoutLoop _ _ _ _ _ _

/-- `loadseg` writes to the pages of the new image. -/
theorem Loose.loadLoop (n : Nat) (pt : PageTable) (va : Nat) (data : List UInt8) (sz : Nat) :
    Keeps K (loadLoop n pt va data sz) := by
  induction n generalizing va data sz with
  | zero => exact keeps_pure _
  | succ n ih =>
    refine keeps_bind (keeps_walkaddr _ _) fun pa => ?_
    split
    · exact keeps_throw _
    · refine keeps_bind (h.memmove _ _ _) fun _ => ?_
      generalize (if sz < pgsize then sz else pgsize) = size
      split
      · exact keeps_pure _
      · exact ih _ _ _

/-- The program headers one after the other, each checked, allocated and loaded. -/
theorem Loose.loadImage (l : List (Option Proghdr)) (pt : PageTable) (sz : Nat) :
    Keeps K (loadImage l pt sz) := by
  induction l generalizing pt sz with
  | nil => exact keeps_pure _
  | cons ph rest ih =>
    cases ph with
    | none => exact keeps_pure _
    | some ph =>
      unfold KernelExec.loadImage
      split
      · exact ih _ _
      · split
        · exact keeps_pure _
        · split
          · exact keeps_pure _
          · split
            · exact keeps_pure _
            · refine keeps_bind (h.uvmalloc _ _ _ _ _) ?_
              rintro ⟨pt', sz1⟩
              dsimp only
              split
              · exact keeps_pure _
              · refine keeps_bind (h.loadLoop _ _ _ _ _) fun ok => ?_
                split
                · exact keeps_pure _
                · exact ih _ _

theorem Loose.push (psz : Nat) (own pt : PageTable) (stackbase sp : Nat) (block : List UInt8) :
    Keeps K (push psz own pt stackbase sp block) := by
  unfold KernelExec.push
  dsimp only
  split
  · exact keeps_pure _
  · exact keeps_bind (h.copyout _ _ _ _ _) fun _ => keeps_pure _

/-- The strings of `argv` are written to the new stack. -/
theorem Loose.pushArgs (psz : Nat) (pt : PageTable) (stackbase : Nat) (args : List (List UInt8))
    (own : PageTable) (sp : Nat) (ustack : List Nat) :
    Keeps K (pushArgs psz pt stackbase args own sp ustack) := by
  induction args generalizing own sp ustack with
  | nil => exact keeps_pure _
  | cons a rest ih =>
    unfold KernelExec.pushArgs
    split
    · exact keeps_pure _
    · refine keeps_bind (h.push _ _ _ _ _ _) ?_
      rintro ⟨own', r⟩
      cases r with
      | none => exact keeps_pure _
      | some sp => exact ih _ _ _

theorem Loose.pushStack (psz : Nat) (own pt : PageTable) (sz : Nat) (argv : Argv) :
    Keeps K (pushStack psz own pt sz argv) := by
  refine keeps_bind (h.pushArgs _ _ _ _ _ _ _) ?_
  rintro ⟨own', r⟩
  cases r with
  | none => exact keeps_pure _
  | some r => exact keeps_bind (h.push _ _ _ _ _ _) fun _ => keeps_pure _

theorem Loose.addStack (pt : PageTable) (sz : Nat) : Keeps K (addStack pt sz) := by
  refine keeps_bind (h.uvmalloc _ _ _ _ _) ?_
  rintro ⟨pt, sz1⟩
  dsimp only
  split
  · exact keeps_bind (h.procFreepagetable _ _) fun _ => keeps_pure _
  · exact keeps_bind (keeps_uvmclear _ _) fun _ => keeps_pure _

/-- A bad image frees the new page table. -/
theorem Loose.newImage (tf : Nat) (img : Image) : Keeps K (newImage tf img) := by
  refine keeps_bind (h.procPagetable tf) fun o => ?_
  cases o with
  | none => exact keeps_pure _
  | some pt =>
    refine keeps_bind (h.loadImage _ _ _) ?_
    rintro ⟨pt, sz, ok⟩
    dsimp only
    split
    · exact keeps_bind (h.procFreepagetable _ _) fun _ => keeps_pure _
    · exact h.addStack _ _

/-- Everything in `kexec` up to the point of no return. -/
theorem Loose.prepare (oldsz : Nat) (own : PageTable) (tf : Nat) (img : Option Image)
    (argv : Argv) : Keeps K (prepare oldsz own tf img argv) := by
  unfold KernelExec.prepare
  split
  · exact keeps_pure _
  · split
    · exact keeps_pure _
    · refine keeps_bind (h.newImage _ _) fun o => ?_
      cases o with
      | none => exact keeps_pure _
      | some x =>
        refine keeps_bind (h.pushStack _ _ _ _ _) ?_
        rintro ⟨own, r⟩
        cases r with
        | none => exact keeps_bind (h.procFreepagetable _ _) fun _ => keeps_pure _
        | some r => exact keeps_pure _

/-- The table of the process is freed last, if the new image is complete. -/
theorem Loose.kexec (oldsz : Nat) (own : PageTable) (tf : Nat) (img : Option Image) (argv : Argv) :
    Keeps K (kexec oldsz own tf img argv) := by
  refine keeps_bind (h.prepare _ _ _ _ _) ?_
  rintro ⟨own, r⟩
  cases r with
  | none => exact keeps_pure _
  | some r => exact keeps_bind (h.procFreepagetable _ _) fun _ => keeps_pure _

end

end KernelPrograms
