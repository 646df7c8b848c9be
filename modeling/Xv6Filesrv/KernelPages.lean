import Xv6Filesrv.StateWp

/-!
# Physical pages and page tables

The data of `kernel/kalloc.c` and `kernel/vm.c`: the free list, physical memory,
and three-level Sv39 page tables. A page table is a tree whose nodes carry the
address of the page that holds them, so that a mapping cannot exist without its
intermediate tables. Leaf entries are indexed by virtual page number.

`freed` and `torn` are histories that the kernel does not keep: the pages handed
to `kfree` and the arguments of `proc_freepagetable`, newest first. `fails` is
the environment's choice of which coming `kalloc` calls find no memory.
-/

namespace KernelPages

inductive Panic where
  | kfree
  | walk
  | mappagesVa
  | mappagesSize
  | mappagesEmpty
  | mappagesRemap
  | uvmunmap
  | uvmclear
  | freewalkLeaf
  | loadseg
  | initExiting
  | exec
  | kerneltrap
  deriving DecidableEq, Repr

abbrev pgsize : Nat := 4096
abbrev kernbase : Nat := 0x80000000
abbrev phystop : Nat := kernbase + 128 * 1024 * 1024
/-- `1L << (9 + 9 + 9 + 12 - 1)`. -/
abbrev maxva : Nat := 0x4000000000
abbrev trampoline : Nat := maxva - pgsize
abbrev trapframe : Nat := trampoline - pgsize

def pgroundup (sz : Nat) : Nat := (sz + pgsize - 1) / pgsize * pgsize
def pgrounddown (a : Nat) : Nat := a / pgsize * pgsize

/-- Number of pages that hold the first `sz` bytes of an address space. -/
def pageCount (sz : Nat) : Nat := (sz + 4095) / 4096

/-- Permission bits of a leaf entry: an entry without R, W and X would be read
as a pointer to a lower table. -/
structure Perm where
  r : Bool
  w : Bool
  x : Bool
  u : Bool
  leaf : (r || w || x) = true
  deriving DecidableEq

structure Pte where
  pa : Nat
  perm : Perm
  deriving DecidableEq

/-- One page-table page: its physical address and its 512 entries. -/
structure Table (α : Type) where
  page : Nat
  slot : Nat → Option α

abbrev PageTable := Table (Table (Table Pte))

def Table.empty (page : Nat) : Table α := ⟨page, fun _ => none⟩

def Table.put (t : Table α) (i : Nat) (o : Option α) : Table α :=
  ⟨t.page, Function.update t.slot i o⟩

@[simp] theorem Table.put_same (t : Table α) (i : Nat) (o : Option α) :
    (t.put i o).slot i = o := by simp [put]

theorem Table.put_slot (t : Table α) (i j : Nat) (o : Option α) :
    (t.put i o).slot j = if j = i then o else t.slot j := by
  simp [put, Function.update_apply]
@[simp] theorem Table.put_put (t : Table α) (i : Nat) (o o' : Option α) :
    (t.put i o).put i o' = t.put i o' := by simp [put]
theorem Table.put_self (t : Table α) (i : Nat) (o : Option α) (h : t.slot i = o) :
    t.put i o = t := by
  subst h
  simp [put]

/-- The 9-bit table index of an address at a level. -/
def px (level va : Nat) : Nat := va / 2 ^ (12 + 9 * level) % 512

theorem px_lt (level va : Nat) : px level va < 512 := Nat.mod_lt _ (by decide)

theorem px_page (level va : Nat) : px level va = va / 4096 / 512 ^ level % 512 := by
  have h : 2 ^ (12 + 9 * level) = 4096 * 512 ^ level := by
    rw [pow_add, pow_mul]
    norm_num
  rw [px, h, Nat.div_div_eq_div_mul]

/-- Two addresses with the same three indices lie on the same page. -/
theorem px_inj {a b : Nat} (ha : a < 2 ^ 39) (hb : b < 2 ^ 39)
    (h₂ : px 2 a = px 2 b) (h₁ : px 1 a = px 1 b) (h₀ : px 0 a = px 0 b) :
    a / 4096 = b / 4096 := by
  simp only [px_page, pow_zero, pow_one, Nat.div_one] at h₀ h₁ h₂
  norm_num at h₂ ha hb
  omega

/-- The leaf entry for virtual page `v`, if every table on the way exists. -/
def Table.map (pt : PageTable) (v : Nat) : Option Pte :=
  (pt.slot (px 2 (v * 4096))).bind fun t₁ =>
    (t₁.slot (px 1 (v * 4096))).bind fun t₀ => t₀.slot (px 0 (v * 4096))

/-- The level-0 table responsible for virtual page `v` exists. -/
def Table.reaches (pt : PageTable) (v : Nat) : Bool :=
  ((pt.slot (px 2 (v * 4096))).bind fun t₁ => t₁.slot (px 1 (v * 4096))).isSome

/-- Store through the entry address that `walk` returned. -/
def Table.store (pt : PageTable) (v : Nat) (e : Option Pte) : PageTable :=
  match pt.slot (px 2 (v * 4096)) with
  | none => pt
  | some t₁ =>
    match t₁.slot (px 1 (v * 4096)) with
    | none => pt
    | some t₀ =>
      pt.put (px 2 (v * 4096)) (some (t₁.put (px 1 (v * 4096)) (some (t₀.put (px 0 (v * 4096)) e))))

/-- Memory state. `kend` and `tramp` are the linker's `end` and the physical
address of the trampoline code. -/
structure Kmem where
  kend : Nat
  tramp : Nat
  freelist : List Nat
  bytes : Nat → UInt8
  fails : List Bool
  freed : List Nat
  torn : List (PageTable × Nat)

abbrev KM := StateT Kmem (Except Panic)

/-- The test at the start of `kfree`. -/
def okPage (kend pa : Nat) : Prop := pa % 4096 = 0 ∧ kend ≤ pa ∧ pa < phystop

instance (kend pa : Nat) : Decidable (okPage kend pa) :=
  inferInstanceAs (Decidable (_ ∧ _ ∧ _))

def fill (bytes : Nat → UInt8) (pa n : Nat) (c : UInt8) : Nat → UInt8 :=
  fun a => if pa ≤ a ∧ a < pa + n then c else bytes a

def memset (pa : Nat) (c : UInt8) (n : Nat) : KM PUnit :=
  modify fun k => { k with bytes := fill k.bytes pa n c }

def memmove (dst : Nat) (src : Nat → UInt8) (n : Nat) : KM PUnit :=
  modify fun k => { k with
    bytes := fun a => if dst ≤ a ∧ a < dst + n then src (a - dst) else k.bytes a }

/-- `kalloc`: take the head of the free list and fill it with junk. -/
def kalloc : KM (Option Nat) := do
  let k ← get
  if k.fails.headD false then
    set { k with fails := k.fails.tail }
    pure none
  else
    match k.freelist with
    | [] =>
      set { k with fails := k.fails.tail }
      pure none
    | r :: rest =>
      set { k with freelist := rest, fails := k.fails.tail }
      memset r 5 pgsize
      pure (some r)

def kfree (pa : Nat) : KM PUnit := do
  let k ← get
  if okPage k.kend pa then
    memset pa 1 pgsize
    modify fun k => { k with freelist := pa :: k.freelist, freed := pa :: k.freed }
  else throw .kfree

end KernelPages
