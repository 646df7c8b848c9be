import Xv6Filesrv.KernelUserPages

/-!
# Executing a program image

`kexec` of `kernel/exec.c`. The file system is represented by what `namei` and
`readi` deliver: an image whose headers may fail to read and whose segments may
be cut short. The new page table is built beside the old one and replaces it
only at the end; every failure on the way frees what was built.
-/

namespace KernelExec

open StateWp KernelPages KernelPageTable KernelUvm KernelUserPages

variable {k k' k₀ : Kmem}

attribute [local irreducible] rangePages

/-- A program header. `data` is the file from `ph.off` on; `w` and `x` are the
result of `flags2perm`. -/
structure Proghdr where
  load : Bool
  vaddr : UInt64
  memsz : UInt64
  filesz : UInt64
  w : Bool
  x : Bool
  data : List UInt8

/-- An executable. `header` says that the ELF header was read in full and has the
right magic number; `none` is a program header that was not read in full. -/
structure Image where
  header : Bool
  entry : Nat
  phdrs : List (Option Proghdr)

/-- Arguments as `sys_exec` fetches them: each string fits in a page, so that the
stack pointer never wraps below address 0. -/
structure Argv where
  args : List (List UInt8)
  short : ∀ a ∈ args, a.length < 4096

abbrev maxarg : Nat := 32

/-- The loop of `loadseg`, by the number of pages still to load. -/
def loadLoop : Nat → PageTable → Nat → List UInt8 → Nat → KM Bool
  | 0, _, _, _, _ => pure true
  | r + 1, pt, va, data, sz => do
    let pa ← walkaddr pt va
    if pa = 0 then throw .loadseg
    else
      let n := if sz < pgsize then sz else pgsize
      memmove pa (fun j => data.getD j 0) (min n data.length)
      if data.length < n then pure false
      else loadLoop r pt (va + pgsize) (data.drop pgsize) (sz - pgsize)

def loadseg (pt : PageTable) (va : Nat) (data : List UInt8) (sz : Nat) : KM Bool :=
  loadLoop (pageCount sz) pt va data sz

/-- The loop over program headers; returns the table, the size reached and
whether all of them were loaded. -/
def loadImage : List (Option Proghdr) → PageTable → Nat → KM (PageTable × Nat × Bool)
  | [], pt, sz => pure (pt, sz, true)
  | none :: _, pt, sz => pure (pt, sz, false)
  | some ph :: rest, pt, sz =>
    if ph.load = false then loadImage rest pt sz
    else if ph.memsz < ph.filesz then pure (pt, sz, false)
    else if ph.vaddr + ph.memsz < ph.vaddr then pure (pt, sz, false)
    else if ph.vaddr.toNat % pgsize ≠ 0 then pure (pt, sz, false)
    else do
      let (pt, sz1) ← uvmalloc pt sz (ph.vaddr + ph.memsz).toNat ph.w ph.x
      if sz1 = 0 then pure (pt, sz, false)
      else
        let ok ← loadseg pt ph.vaddr.toNat ph.data (ph.filesz.toNat % 2 ^ 32)
        if ok = false then pure (pt, sz1, false)
        else loadImage rest pt sz1

def uvmclear (pt : PageTable) (va : Nat) : KM PageTable := do
  let (_, found) ← walk pt va false
  if found = false then throw .uvmclear
  else
    match pt.map (va / pgsize) with
    | none => pure pt
    | some e => pure (pt.store (va / pgsize) (some { e with perm := { e.perm with u := false } }))

/-- Copy one block to the new stack below `sp`. -/
def push (psz : Nat) (own pt : PageTable) (stackbase sp : Nat) (block : List UInt8) :
    KM (PageTable × Option Nat) :=
  let sp := sp - block.length
  let sp := sp - sp % 16
  if sp < stackbase then pure (own, none)
  else do
    let (own, ok) ← copyout psz own (some pt) sp block
    pure (own, if ok then some sp else none)

/-- The loop that copies the argument strings; `ustack` holds their addresses. -/
def pushArgs (psz : Nat) (pt : PageTable) (stackbase : Nat) :
    List (List UInt8) → PageTable → Nat → List Nat → KM (PageTable × Option (Nat × List Nat))
  | [], own, sp, ustack => pure (own, some (sp, ustack))
  | a :: rest, own, sp, ustack =>
    if maxarg ≤ ustack.length then pure (own, none)
    else do
      let (own, r) ← push psz own pt stackbase sp (a ++ [0])
      match r with
      | none => pure (own, none)
      | some sp => pushArgs psz pt stackbase rest own sp (ustack ++ [sp])

/-- A 64-bit word in memory order. -/
def leBytes (w : Nat) : List UInt8 := (List.range 8).map fun i => UInt8.ofNat (w / 256 ^ i)

/-- The arguments and the array of pointers to them; returns `argc` and the stack
pointer. -/
def pushStack (psz : Nat) (own pt : PageTable) (sz : Nat) (argv : Argv) :
    KM (PageTable × Option (Nat × Nat)) := do
  let stackbase := sz - pgsize
  let (own, r) ← pushArgs psz pt stackbase argv.args own sz []
  match r with
  | none => pure (own, none)
  | some (sp, ustack) =>
    let (own, r) ← push psz own pt stackbase sp ((ustack ++ [0]).flatMap leBytes)
    pure (own, r.map fun sp => (ustack.length, sp))

/-- Two pages at the next page boundary: a guard page and the stack. -/
def addStack (pt : PageTable) (sz : Nat) : KM (Option (PageTable × Nat)) := do
  let sz := pgroundup sz
  let (pt, sz1) ← uvmalloc pt sz (sz + 2 * pgsize) true false
  if sz1 = 0 then
    procFreepagetable pt sz
    pure none
  else
    let pt ← uvmclear pt (sz1 - 2 * pgsize)
    pure (some (pt, sz1))

/-- A new page table with the program and a stack, and its size. What was built is freed on
every failure. -/
def newImage (tf : Nat) (img : Image) : KM (Option (PageTable × Nat)) := do
  match ← procPagetable tf with
  | none => pure none
  | some pt =>
    let (pt, sz, ok) ← loadImage img.phdrs pt 0
    if ok = false then
      procFreepagetable pt sz
      pure none
    else addStack pt sz

/-- `kexec` up to the point where it commits to the new image: its page table and size,
`argc` and the initial stack pointer. The first component is the table of the process. -/
def prepare (oldsz : Nat) (own : PageTable) (tf : Nat) (img : Option Image) (argv : Argv) :
    KM (PageTable × Option (PageTable × Nat × Nat × Nat)) :=
  match img with
  | none => pure (own, none)
  | some img =>
    if img.header = false then pure (own, none)
    else do
      match ← newImage tf img with
      | none => pure (own, none)
      | some (pt, sz) =>
        let (own, r) ← pushStack oldsz own pt sz argv
        match r with
        | none =>
          procFreepagetable pt sz
          pure (own, none)
        | some started => pure (own, some (pt, sz, started))

/-- `kexec` for a process of size `oldsz` with page table `own` and trapframe `tf`:
the page table and size it ends with, and on success `argc` and the initial stack
pointer. -/
def kexec (oldsz : Nat) (own : PageTable) (tf : Nat) (img : Option Image) (argv : Argv) :
    KM (PageTable × Nat × Option (Nat × Nat)) := do
  match ← prepare oldsz own tf img argv with
  | (own, none) => pure (own, oldsz, none)
  | (own, some (pt, sz, started)) =>
    procFreepagetable own oldsz
    pure (pt, sz, some started)

/-- A page table under construction that holds an image of `sz` bytes: all its
pages came from the free list since `k₀`, every page below `sz` is mapped for
user access, and nothing else is mapped but the two trap pages. -/
structure Building (k₀ k : Kmem) (tramp tf : Nat) (pt : PageTable) (sz : Nat) : Prop where
  moves : Moves k₀ 0 k (nodes pt + rangePages pt 0 (pageCount sz))
  trap : ∀ v < maxPage, pageCount sz ≤ v → pt.map v = trapMap tramp tf v
  full : ∀ v < pageCount sz, ∃ e, pt.map v = some e ∧ e.perm.u = true
  small : pageCount sz + budget k pt = Multiset.card (Kmem.free k₀)

variable {tramp tf : Nat} {pt : PageTable} {sz : Nat}

theorem Building.noStray (h : Building k₀ k tramp tf pt sz) : NoStray pt (pageCount sz) := by
  intro v hv hne
  by_cases hlt : v < pageCount sz
  · exact .inr (.inr hlt)
  · rw [h.trap v hv (by omega)] at hne
    rcases trapMap_ne_none hne with h | h
    · exact .inl h
    · exact .inr (.inl h)

/-- Pages that came from a sound free list are not at address 0. -/
theorem Building.ne_zero (h : Building k₀ k tramp tf pt sz) (hs : Sound k₀ 0) (hk : 0 < k₀.kend)
    {v : Nat} (hv : v < pageCount sz) (hsz : pageCount sz ≤ 67108862) :
    userAddr pt (v * 4096) ≠ 0 := by
  obtain ⟨e, he, hu⟩ := h.full v hv
  have hmem : e.pa ∈ rangePages pt 0 (pageCount sz) :=
    mem_rangePages (Nat.zero_le v) (by omega) he
  have hok : okPage k.kend e.pa := (h.moves.sound hs).ok (Multiset.mem_add.mpr (.inr hmem))
  have hva : ¬ maxva ≤ v * 4096 := not_le.mpr (lt_maxva (by omega))
  have hdiv : v * 4096 / 4096 = v := by omega
  have hle : k₀.kend ≤ e.pa := by
    rw [← h.moves.fixed.1]
    exact hok.2.1
  rw [userAddr, if_neg hva, hdiv, he]
  simp only [hu, if_true]
  omega

/-- Memory contents play no role in the accounting. -/
theorem Building.of_bytes (h : Building k₀ k tramp tf pt sz) (bytes : Nat → UInt8) :
    Building k₀ { k with bytes := bytes } tramp tf pt sz := by
  refine ⟨h.moves.trans (Moves.of_bytes k _ bytes), h.trap, h.full, ?_⟩
  rw [← h.small]
  unfold budget
  rfl

/-- Growing the image, or failing to and leaving it as it was. -/
theorem Building.uvmalloc_wp (h : Building k₀ k tramp tf pt sz) (newsz : Nat) (w x : Bool)
    (hs : Sound k₀ 0) (hcard : Multiset.card (Kmem.free k₀) ≤ 67108862) :
    wp (uvmalloc pt sz newsz w x) (fun r k' =>
      (r.2 = max sz newsz ∧ Building k₀ k' tramp tf r.1 (max sz newsz)) ∨
      (r.2 = 0 ∧ Building k₀ k' tramp tf r.1 sz)) k := by
  by_cases hlt : newsz < sz
  · rw [uvmalloc, if_pos hlt, wp_pure, Nat.max_eq_left (by omega)]
    exact .inl ⟨rfl, h⟩
  have hle : pageCount sz ≤ pageCount newsz := by
    unfold pageCount
    omega
  have hsmall := h.small
  have hnone : ∀ v, pageCount sz ≤ v → v < 67108862 → pt.map v = none := by
    intro v hlo hhi
    rw [h.trap v (lt_maxPage (by omega)) hlo]
    exact trapMap_eq_none tramp tf hhi
  have hsnd : Sound k (nodes pt) := (h.moves.sound hs).mono (Multiset.le_add_right _ _)
  rw [Nat.max_eq_right (by omega)]
  apply (KernelUvm.uvmalloc_wp pt sz newsz w x 67108862 (by omega) (by omega) (by omega) hnone k
    (.inr (by omega)) hsnd).mono
  rintro ⟨pt', sz'⟩ k' (⟨hr, hmax, hext⟩ | ⟨hr, hkept⟩)
  · left
    refine ⟨hr, ?_, ?_, ?_, ?_⟩
    · exact h.moves.trans (hext.grow hle (by omega))
    · intro v hv hge
      rw [hext.same v hv (.inr hge)]
      exact h.trap v hv (by omega)
    · intro v hv
      by_cases hold : v < pageCount sz
      · rw [hext.same v (lt_maxPage (by omega)) (.inl hold)]
        exact h.full v hold
      · obtain ⟨pa, hpa⟩ := hext.fresh v (by omega) hv
        exact ⟨_, hpa, rfl⟩
    · rw [hext.budget_eq hle]
      exact hsmall
  · right
    refine ⟨hr, ?_, ?_, ?_, ?_⟩
    · exact h.moves.trans (hkept.grow (by omega))
    · intro v hv hge
      rw [hkept.same v hv]
      exact h.trap v hv hge
    · intro v hv
      rw [hkept.same v (lt_maxPage (by omega))]
      exact h.full v hv
    · rw [hkept.budget_eq]
      exact hsmall

theorem loadLoop_wp (r : Nat) (pt : PageTable) (v : Nat) (data : List UInt8) (sz : Nat)
    (hmap : ∀ w, v ≤ w → w < v + r → userAddr pt (w * 4096) ≠ 0) (k : Kmem) :
    wp (loadLoop r pt (v * 4096) data sz)
      (fun _ k' => ∃ bytes, k' = { k with bytes := bytes }) k := by
  induction r generalizing v data sz k with
  | zero =>
    rw [loadLoop, wp_pure]
    exact ⟨k.bytes, rfl⟩
  | succ r ih =>
    have hnext : v * 4096 + pgsize = (v + 1) * 4096 := by simp only [pgsize]; omega
    rw [loadLoop, wp_bind]
    apply wp_of_eq (walkaddr_eq pt _ k)
    rw [if_neg (hmap v (le_refl v) (by omega)), hnext]
    simp only [wp_bind, memmove, wp_modify]
    generalize (if sz < pgsize then sz else pgsize) = n
    by_cases hshort : data.length < n
    · rw [if_pos hshort, wp_pure]
      exact ⟨_, rfl⟩
    · rw [if_neg hshort]
      apply (ih (v + 1) _ _ (fun w hlo hhi => hmap w (by omega) (by omega)) _).mono
      rintro _ k' ⟨bytes, hk'⟩
      exact ⟨bytes, hk'⟩

/-- The pages of a segment's file part lie below the size that was allocated. -/
theorem segment_fits {vaddr memsz filesz : UInt64} {v : Nat} (sz : Nat) (hv : vaddr.toNat = v * 4096)
    (hfile : ¬ memsz < filesz) (hover : ¬ vaddr + memsz < vaddr) :
    v + pageCount (filesz.toNat % 2 ^ 32) ≤ pageCount (max sz (vaddr + memsz).toNat) := by
  have hadd : (vaddr + memsz).toNat = vaddr.toNat + memsz.toNat := by
    rw [UInt64.lt_iff_toNat_lt, UInt64.toNat_add] at hover
    rw [UInt64.toNat_add]
    have := vaddr.toNat_lt
    have := memsz.toNat_lt
    omega
  rw [UInt64.lt_iff_toNat_lt] at hfile
  have hmod : filesz.toNat % 2 ^ 32 ≤ filesz.toNat := Nat.mod_le _ _
  have hmax : vaddr.toNat + memsz.toNat ≤ max sz (vaddr + memsz).toNat := by
    rw [hadd]
    exact Nat.le_max_right _ _
  generalize filesz.toNat % 2 ^ 32 = fs at *
  generalize max sz (vaddr + memsz).toNat = top at *
  unfold pageCount
  omega

theorem loadImage_wp (phdrs : List (Option Proghdr)) (pt : PageTable) (sz : Nat) (k : Kmem)
    (h : Building k₀ k tramp tf pt sz) (hs : Sound k₀ 0) (hk : 0 < k₀.kend)
    (hcard : Multiset.card (Kmem.free k₀) ≤ 67108862) :
    wp (loadImage phdrs pt sz) (fun r k' => Building k₀ k' tramp tf r.1 r.2.1) k := by
  induction phdrs generalizing pt sz k with
  | nil =>
    rw [loadImage, wp_pure]
    exact h
  | cons ph rest ih =>
    cases ph with
    | none =>
      rw [loadImage, wp_pure]
      exact h
    | some ph =>
      rw [loadImage]
      by_cases hload : ph.load = false
      · rw [if_pos hload]
        exact ih pt sz k h
      rw [if_neg hload]
      by_cases hfile : ph.memsz < ph.filesz
      · rw [if_pos hfile, wp_pure]
        exact h
      rw [if_neg hfile]
      by_cases hover : ph.vaddr + ph.memsz < ph.vaddr
      · rw [if_pos hover, wp_pure]
        exact h
      rw [if_neg hover]
      by_cases halign : ph.vaddr.toNat % pgsize ≠ 0
      · rw [if_pos halign, wp_pure]
        exact h
      obtain ⟨v, hv⟩ : ∃ v, ph.vaddr.toNat = v * 4096 :=
        ⟨_, (Nat.div_mul_cancel (Nat.dvd_of_mod_eq_zero (not_not.mp halign))).symm⟩
      rw [if_neg halign, wp_bind]
      apply (h.uvmalloc_wp (ph.vaddr + ph.memsz).toNat ph.w ph.x hs hcard).mono
      rintro ⟨pt₁, sz₁⟩ k₁ (⟨rfl, h₁⟩ | ⟨rfl, h₁⟩)
      · by_cases hz : max sz (ph.vaddr + ph.memsz).toNat = 0
        · simp only [if_pos hz, wp_pure]
          have hsz : sz = max sz (ph.vaddr + ph.memsz).toNat := by omega
          rw [hsz]
          exact h₁
        simp only [if_neg hz, wp_bind]
        have hfits := segment_fits sz hv hfile hover
        have hsmall := h₁.small
        have hmap : ∀ w, v ≤ w → w < v + pageCount (ph.filesz.toNat % 2 ^ 32) →
            userAddr pt₁ (w * 4096) ≠ 0 := by
          intro w _ hhi
          exact h₁.ne_zero hs hk (by omega) (by omega)
        rw [loadseg, hv]
        apply (loadLoop_wp _ pt₁ v ph.data _ hmap k₁).mono
        rintro ok k₂ ⟨bytes, rfl⟩
        cases ok with
        | false =>
          rw [if_pos rfl, wp_pure]
          exact h₁.of_bytes bytes
        | true =>
          rw [if_neg (by decide)]
          exact ih pt₁ _ _ (h₁.of_bytes bytes)
      · simp only [if_true, wp_pure]
        exact h₁

/-- A built image with its stack: the top page can be written by the user. -/
structure Stacked (k₀ k : Kmem) (tramp tf : Nat) (pt : PageTable) (n : Nat) : Prop where
  moves : Moves k₀ 0 k (nodes pt + rangePages pt 0 n)
  trap : ∀ v < maxPage, n ≤ v → pt.map v = trapMap tramp tf v
  small : n ≤ Multiset.card (Kmem.free k₀)
  two : 2 ≤ n
  stack : userAddr pt ((n - 1) * 4096) ≠ 0

theorem Stacked.of_bytes {n : Nat} (h : Stacked k₀ k tramp tf pt n) (bytes : Nat → UInt8) :
    Stacked k₀ { k with bytes := bytes } tramp tf pt n :=
  ⟨h.moves.trans (Moves.of_bytes k _ bytes), h.trap, h.small, h.two, h.stack⟩

theorem Stacked.noStray {n : Nat} (h : Stacked k₀ k tramp tf pt n) : NoStray pt n := by
  intro v hv hne
  by_cases hlt : v < n
  · exact .inr (.inr hlt)
  · rw [h.trap v hv (by omega)] at hne
    rcases trapMap_ne_none hne with h | h
    · exact .inl h
    · exact .inr (.inl h)

/-- Clearing the user bit of the guard page changes no other entry. -/
theorem uvmclear_wp (pt : PageTable) (v : Nat) (e : Pte) (hv : v < 67108864)
    (he : pt.map v = some e) (k : Kmem) :
    wp (uvmclear pt (v * 4096)) (fun pt' k' => k' = k ∧ nodes pt' = nodes pt ∧
      ∀ w < maxPage, pt'.map w =
        if w = v then some { e with perm := { e.perm with u := false } } else pt.map w) k := by
  have hdiv : v * 4096 / 4096 = v := by omega
  have hreach := reaches_of_map pt v e he
  rw [uvmclear, wp_bind]
  apply wp_of_eq (walk_lookup pt (v * 4096) (lt_maxva hv) k)
  simp only [hdiv, hreach, pgsize, he, Bool.true_eq_false, if_false, wp_pure]
  refine ⟨trivial, store_nodes pt v _, ?_⟩
  intro w hw
  exact store_map pt v w _ (lt_maxPage hv) hw hreach

/-- The guard page is cleared below the page that becomes the stack. -/
theorem Building.stacked {v : Nat} (h : Building k₀ k tramp tf pt ((v + 2) * 4096))
    (hs : Sound k₀ 0) (hk : 0 < k₀.kend) (hcard : Multiset.card (Kmem.free k₀) ≤ 67108862) :
    wp (uvmclear pt (v * 4096)) (fun pt' k' => Stacked k₀ k' tramp tf pt' (v + 2)) k := by
  have hsmall := h.small
  rw [pageCount_mul] at hsmall
  obtain ⟨e, he, -⟩ := h.full v (by rw [pageCount_mul]; omega)
  have hstack : userAddr pt ((v + 1) * 4096) ≠ 0 :=
    h.ne_zero hs hk (by rw [pageCount_mul]; omega) (by rw [pageCount_mul]; omega)
  apply (uvmclear_wp pt v e (by omega) he k).mono
  rintro pt' k' ⟨rfl, hnodes, hmap⟩
  have htop : pt'.map (v + 1) = pt.map (v + 1) := by
    rw [hmap (v + 1) (lt_maxPage (by omega)), if_neg (by omega)]
  have hdiv : (v + 1) * 4096 / 4096 = v + 1 := by omega
  have hrange : rangePages pt' 0 (v + 2) = rangePages pt 0 (v + 2) := by
    apply rangePages_congr_leaf
    intro w _ hw
    rw [hmap w (lt_maxPage (by omega))]
    by_cases hwv : w = v
    · subst hwv
      rw [if_pos rfl, he]
      rfl
    · rw [if_neg hwv]
  refine ⟨?_, ?_, by omega, by omega, ?_⟩
  · have hm := h.moves
    rw [pageCount_mul] at hm
    rw [hnodes, hrange]
    exact hm
  · intro w hw hge
    rw [hmap w hw, if_neg (by omega)]
    exact h.trap w hw (by rw [pageCount_mul]; omega)
  · rw [show v + 2 - 1 = v + 1 by omega]
    simp only [userAddr, hdiv, htop] at hstack ⊢
    exact hstack

/-- A block that fits in the stack page is copied without a page fault. -/
theorem push_wp {n : Nat} (h : Stacked k₀ k tramp tf pt n) (psz : Nat) (own : PageTable)
    (sp : Nat) (block : List UInt8) (hsp : sp ≤ n * 4096) :
    wp (push psz own pt (n * 4096 - pgsize) sp block) (fun r k' =>
      r.1 = own ∧ Stacked k₀ k' tramp tf pt n ∧ ∀ sp', r.2 = some sp' → sp' ≤ n * 4096) k := by
  have htwo := h.two
  rw [push]
  generalize hsp' : sp - block.length - (sp - block.length) % 16 = sp'
  by_cases hlow : sp' < n * 4096 - pgsize
  · simp only [if_pos hlow, wp_pure]
    exact ⟨trivial, h, by simp⟩
  · simp only [if_neg hlow, wp_bind]
    simp only [pgsize] at hlow
    have hle : sp' ≤ sp := by omega
    have hfit : sp' + block.length ≤ n * 4096 ∨ sp' = 0 := by omega
    have hmap : ∀ v, sp' < v * 4096 + 4096 → v * 4096 < sp' + block.length →
        userAddr pt (v * 4096) ≠ 0 := by
      intro v hlo hhi
      have hv : v = n - 1 := by omega
      rw [hv]
      exact h.stack
    apply (copyoutLoop_mapped_wp block.length psz own pt sp' block k hmap).mono
    rintro ⟨own', ok⟩ k' ⟨hown, bytes, rfl⟩
    rw [wp_pure]
    refine ⟨hown, h.of_bytes bytes, ?_⟩
    intro s hs
    cases ok with
    | false => simp at hs
    | true =>
      obtain rfl : sp' = s := by simpa using hs
      omega

theorem pushArgs_wp {n : Nat} (psz : Nat) (args : List (List UInt8)) (own : PageTable) (sp : Nat)
    (ustack : List Nat) (hsp : sp ≤ n * 4096) (k : Kmem) (h : Stacked k₀ k tramp tf pt n) :
    wp (pushArgs psz pt (n * 4096 - pgsize) args own sp ustack) (fun r k' =>
      r.1 = own ∧ Stacked k₀ k' tramp tf pt n ∧ ∀ x, r.2 = some x → x.1 ≤ n * 4096) k := by
  induction args generalizing own sp ustack k with
  | nil =>
    rw [pushArgs, wp_pure]
    refine ⟨rfl, h, ?_⟩
    intro x hx
    obtain rfl : (sp, ustack) = x := by simpa using hx
    exact hsp
  | cons a rest ih =>
    rw [pushArgs]
    by_cases hmax : maxarg ≤ ustack.length
    · rw [if_pos hmax, wp_pure]
      exact ⟨rfl, h, by simp⟩
    · rw [if_neg hmax, wp_bind]
      apply (push_wp h psz own sp (a ++ [0]) hsp).mono
      rintro ⟨own', r⟩ k' ⟨rfl, h', hle⟩
      cases r with
      | none =>
        simp only [wp_pure]
        exact ⟨trivial, h', by simp⟩
      | some sp' => exact ih _ sp' _ (hle sp' rfl) k' h'

theorem pushStack_wp {n : Nat} (psz : Nat) (own : PageTable) (argv : Argv) (k : Kmem)
    (h : Stacked k₀ k tramp tf pt n) :
    wp (pushStack psz own pt (n * 4096) argv) (fun r k' =>
      r.1 = own ∧ Stacked k₀ k' tramp tf pt n) k := by
  simp only [pushStack, wp_bind]
  apply (pushArgs_wp psz argv.args own (n * 4096) [] (le_refl _) k h).mono
  rintro ⟨own', r⟩ k' ⟨rfl, h', hle⟩
  cases r with
  | none =>
    simp only [wp_pure]
    exact ⟨trivial, h'⟩
  | some x =>
    obtain ⟨sp, ustack⟩ := x
    simp only [wp_bind]
    apply (push_wp h' psz _ sp _ (hle (sp, ustack) rfl)).mono
    rintro ⟨own₂, r⟩ k₂ ⟨rfl, h₂, -⟩
    rw [wp_pure]
    exact ⟨rfl, h₂⟩

/-- Giving up: the table built so far is freed. -/
theorem freed_wp {α : Type} (r : α) (sz : Nat) (hm : Moves k₀ 0 k
      (nodes pt + rangePages pt 0 (pageCount sz))) (hstray : NoStray pt (pageCount sz))
    (hsz : pageCount sz ≤ 67108862) (hs : Sound k₀ 0) :
    wp (do procFreepagetable pt sz; pure r) (fun r' k' => r' = r ∧ Moves k₀ 0 k' 0) k := by
  rw [wp_bind]
  apply (procFreepagetable_wp pt sz hsz hstray k (hm.sound hs)).mono
  intro _ k' hf
  rw [wp_pure]
  exact ⟨rfl, hm.trans hf.moves⟩

theorem Fresh.building (hm : Moves k₀ 0 k (nodes pt)) (hfresh : Fresh tramp tf pt) :
    Building k₀ k tramp tf pt 0 := by
  have hz : pageCount 0 = 0 := rfl
  refine ⟨?_, fun v hv _ => hfresh v hv, ?_, ?_⟩
  · rw [hz, rangePages_zero, add_zero]
    exact hm
  · intro v hv
    omega
  · have h := Moves.card hm
    unfold budget
    rw [Multiset.card_zero] at h
    omega

theorem Building.addStack_wp (h : Building k₀ k tramp tf pt sz) (hs : Sound k₀ 0)
    (hk : 0 < k₀.kend) (hcard : Multiset.card (Kmem.free k₀) ≤ 67108862) :
    wp (addStack pt sz) (fun r k' => (r = none ∧ Moves k₀ 0 k' 0) ∨
      ∃ pt' n, r = some (pt', n * 4096) ∧ Stacked k₀ k' tramp tf pt' n) k := by
  simp only [addStack, pgroundup_eq, wp_bind]
  have hcount : pageCount (pageCount sz * 4096) = pageCount sz := pageCount_mul _
  have hround : Building k₀ k tramp tf pt (pageCount sz * 4096) := by
    refine ⟨?_, ?_, ?_, ?_⟩ <;> rw [hcount]
    exacts [h.moves, h.trap, h.full, h.small]
  have htop : max (pageCount sz * 4096) (pageCount sz * 4096 + 2 * pgsize) =
      (pageCount sz + 2) * 4096 := by
    simp only [pgsize]
    omega
  have hguard : (pageCount sz + 2) * 4096 - 2 * pgsize = pageCount sz * 4096 := by
    simp only [pgsize]
    omega
  apply (hround.uvmalloc_wp (pageCount sz * 4096 + 2 * pgsize) true false hs hcard).mono
  rintro ⟨pt₁, sz₁⟩ k₁ (⟨hr, h₁⟩ | ⟨hr, h₁⟩)
  · simp only [htop] at hr h₁
    have hne : (pageCount sz + 2) * 4096 ≠ 0 := by omega
    simp only [hr, if_neg hne, hguard, wp_bind, wp_pure]
    apply (h₁.stacked hs hk hcard).mono
    intro pt₂ k₂ hst
    exact .inr ⟨pt₂, _, rfl, hst⟩
  · simp only at hr h₁
    have hsmall := h₁.small
    rw [if_pos hr]
    exact (freed_wp none _ h₁.moves h₁.noStray (by omega) hs).mono fun _ _ h => .inl h

theorem newImage_wp (tf : Nat) (img : Image) (k : Kmem) (hs : Sound k 0) (hk : 0 < k.kend)
    (hcard : Multiset.card (Kmem.free k) ≤ 67108862) :
    wp (newImage tf img) (fun r k' => (r = none ∧ Moves k 0 k' 0) ∨
      ∃ pt n, r = some (pt, n * 4096) ∧ Stacked k k' k.tramp tf pt n) k := by
  rw [newImage, wp_bind]
  apply (procPagetable_wp tf k hs).mono
  rintro r k₁ ⟨hm, hfresh⟩
  cases r with
  | none =>
    rw [wp_pure]
    exact .inl ⟨rfl, hm⟩
  | some pt =>
    have h := Fresh.building hm (hfresh pt rfl)
    simp only [wp_bind]
    apply (loadImage_wp img.phdrs pt 0 k₁ h hs hk hcard).mono
    rintro ⟨pt₁, sz, ok⟩ k₂ h₁
    simp only at h₁
    have hsmall := h₁.small
    cases ok with
    | false =>
      rw [if_pos rfl]
      exact (freed_wp none sz h₁.moves h₁.noStray (by omega) hs).mono fun _ _ h => .inl h
    | true =>
      rw [if_neg (by simp)]
      exact h₁.addStack_wp hs hk hcard

/-- `kexec` fails with the pages that it took given back, or has built a new image. -/
def Prepared (k : Kmem) (own : PageTable) (tf : Nat)
    (r : PageTable × Option (PageTable × Nat × Nat × Nat)) (k' : Kmem) : Prop :=
  r.1 = own ∧ ((r.2 = none ∧ Moves k 0 k' 0) ∨
    ∃ pt n started, r.2 = some (pt, n * 4096, started) ∧ Stacked k k' k.tramp tf pt n)

theorem prepare_wp (oldsz : Nat) (own : PageTable) (tf : Nat) (img : Option Image) (argv : Argv)
    (k : Kmem) (hs : Sound k 0) (hk : 0 < k.kend)
    (hcard : Multiset.card (Kmem.free k) ≤ 67108862) :
    wp (prepare oldsz own tf img argv) (Prepared k own tf) k := by
  have hkeep : Prepared k own tf (own, none) k := ⟨rfl, .inl ⟨rfl, Moves.refl k 0⟩⟩
  cases img with
  | none =>
    rw [prepare, wp_pure]
    exact hkeep
  | some img =>
    rw [prepare]
    by_cases hheader : img.header = false
    · rw [if_pos hheader, wp_pure]
      exact hkeep
    rw [if_neg hheader, wp_bind]
    apply (newImage_wp tf img k hs hk hcard).mono
    rintro _ k₁ (⟨rfl, hm⟩ | ⟨pt, n, rfl, hst⟩)
    · rw [wp_pure]
      exact ⟨rfl, .inl ⟨rfl, hm⟩⟩
    · simp only [wp_bind]
      apply (pushStack_wp oldsz own argv k₁ hst).mono
      rintro ⟨own', r⟩ k₂ ⟨rfl, hst₂⟩
      cases r with
      | none =>
        refine (freed_wp (own', none) (n * 4096) ?_ ?_ ?_ hs).mono ?_
        · rw [pageCount_mul]
          exact hst₂.moves
        · rw [pageCount_mul]
          exact hst₂.noStray
        · rw [pageCount_mul]
          exact hst₂.small.trans hcard
        · rintro _ k₃ ⟨rfl, hm⟩
          exact ⟨rfl, .inl ⟨rfl, hm⟩⟩
      | some started =>
        rw [wp_pure]
        exact ⟨rfl, .inr ⟨pt, n, started, rfl, hst₂⟩⟩

/-- The two ways `kexec` can end: the old image is kept, or a new one with only
the trap pages above it takes its place. -/
def Executed (k : Kmem) (oldsz : Nat) (own : PageTable) (tf : Nat)
    (r : PageTable × Nat × Option (Nat × Nat)) (k' : Kmem) : Prop :=
  (r.2.2 = none ∧ r.1 = own ∧ r.2.1 = oldsz ∧ Moves k 0 k' 0) ∨
  (r.2.2 ≠ none ∧ pageCount r.2.1 ≤ Multiset.card (Kmem.free k) ∧
    (∀ v < maxPage, pageCount r.2.1 ≤ v → r.1.map v = trapMap k.tramp tf v) ∧
    Moves k (nodes own + rangePages own 0 (pageCount oldsz)) k'
      (nodes r.1 + rangePages r.1 0 (pageCount r.2.1)))

/-- `kexec` comes to the point where it commits. -/
def Commits (oldsz : Nat) (own : PageTable) (tf : Nat) (img : Option Image) (argv : Argv)
    (k : Kmem) : Prop :=
  ∃ own' built k', prepare oldsz own tf img argv k = .ok ((own', some built), k')

/-- `kexec` never panics when the old table, if it is given up, has no stray leaf. -/
theorem kexec_wp (oldsz : Nat) (own : PageTable) (tf : Nat) (img : Option Image) (argv : Argv)
    (hsz : pageCount oldsz ≤ 67108862) (k : Kmem)
    (hstray : Commits oldsz own tf img argv k → NoStray own (pageCount oldsz))
    (hs : Sound k (nodes own + rangePages own 0 (pageCount oldsz))) (hk : 0 < k.kend)
    (hcard : Multiset.card (Kmem.free k) ≤ 67108862) :
    wp (kexec oldsz own tf img argv) (fun r k' => Executed k oldsz own tf r k' ∧
      (r.2.2 ≠ none → Commits oldsz own tf img argv k)) k := by
  have hs₀ : Sound k 0 := hs.mono (Multiset.zero_le _)
  obtain ⟨⟨own', r⟩, k₁, hrun, hown, hr⟩ :=
    (wp_iff _ _ _).mp (prepare_wp oldsz own tf img argv k hs₀ hk hcard)
  simp only at hown hr
  subst hown
  rw [kexec, wp_bind]
  apply wp_of_eq hrun
  rcases hr with ⟨rfl, hm⟩ | ⟨pt, n, started, rfl, hst⟩
  · rw [wp_pure]
    exact ⟨.inl ⟨rfl, rfl, rfl, hm⟩, fun hne => absurd rfl hne⟩
  · have hcommit : Commits oldsz own' tf img argv k := ⟨_, _, _, hrun⟩
    have hm := hst.moves.add (nodes own' + rangePages own' 0 (pageCount oldsz))
    rw [zero_add] at hm
    have hs₁ := (hm.sound hs).mono (Multiset.le_add_left _ _)
    simp only [wp_bind]
    apply (procFreepagetable_wp own' oldsz hsz (hstray hcommit) k₁ hs₁).mono
    intro _ k₂ hf
    rw [wp_pure]
    refine ⟨.inr ⟨by simp, ?_, ?_, ?_⟩, fun _ => hcommit⟩ <;> rw [pageCount_mul]
    · exact hst.small
    · exact hst.trap
    · have hf' := hf.moves.add (nodes pt + rangePages pt 0 n)
      rw [zero_add, add_comm] at hf'
      exact hm.trans hf'

end KernelExec
