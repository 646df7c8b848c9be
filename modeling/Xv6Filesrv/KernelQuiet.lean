import Xv6Filesrv.KernelSpaces
import Xv6Filesrv.KernelShmIds

/-!
# Memory that nobody has mapped

The kernel writes to pages that it takes from the free list or gives back to it, to trapframes, and
through page tables to pages of users.  A page that is none of these keeps its contents whatever the
kernel does.  The pages of a segment that no process is attached to are such pages.

The statements are about one byte, at address `a` of the page at `x`.  They hold until the page is
handed to `kfree`, so they count how often that has happened.
-/

namespace KernelQuiet

open StateFrame KernelPages KernelPageTable KernelUvm KernelUserPages KernelExec KernelShm
open KernelMemInv KernelShmInv KernelProcInv KernelProc KernelSteps KernelSystem KernelBoot
open KernelPrograms KernelShmRuns KernelShmIds

variable {ram : Ram} {k k' k₁ : Kmem} {m m' : Mem} {s s' : Kernel} {p q : Slot} {i : SegId}
  {x a c v n : Nat} {b : UInt8} {pt pt' own own' : PageTable}

/-- As long as the page at `x` has been handed to `kfree` no more than `c` times, it is not free and
its byte at `a` is `b`. -/
structure Still (x a c : Nat) (b : UInt8) (k : Kmem) : Prop where
  aligned : ∀ y ∈ k.freelist, y % 4096 = 0
  past : c ≤ k.freed.count x
  kept : k.freed.count x = c → x ∉ k.freelist ∧ k.bytes a = b

/-- Until then the byte is not on a page that `pt` maps for the user. -/
def Hidden (x a c : Nat) (pt : PageTable) (k : Kmem) : Prop :=
  k.freed.count x = c → ∀ v < maxPage, ∀ e, pt.map v = some e → e.perm.u = true → ¬OnPage e.pa a

/-- The two together, for the page table that is written through. -/
structure Guarded (x a c : Nat) (b : UInt8) (pt : PageTable) (k : Kmem) : Prop
    extends Still x a c b k where
  hidden : Hidden x a c pt k

/-- Pages are handed to `kfree`, never taken back from the count. -/
def Counts (x : Nat) (k k' : Kmem) : Prop := k.freed.count x ≤ k'.freed.count x

instance : Std.Refl (Counts x) := ⟨fun _ => Nat.le_refl _⟩

instance : IsTrans Kmem (Counts x) := ⟨fun _ _ _ h h' => Nat.le_trans h h'⟩

theorem Counts.loose (x : Nat) : Loose (Counts x) where
  none _ := Nat.le_refl _
  some _ _ _ _ _ _ := Nat.le_refl _
  free _ _ _ := List.count_le_count_cons
  torn _ _ := Nat.le_refl _
  write _ _ := Nat.le_refl _

/-- What the programs do that write to fresh pages only. -/
structure Leaves (x a : Nat) (k k' : Kmem) : Prop where
  counts : Counts x k k'
  still : ∀ c b, Still x a c b k → Still x a c b k'

instance : Std.Refl (Leaves x a) := ⟨fun k => ⟨refl_of (Counts x) k, fun _ _ h => h⟩⟩

instance : IsTrans Kmem (Leaves x a) where
  trans _ _ _ h h' :=
    ⟨trans_of (Counts x) h.counts h'.counts, fun c b hs => h'.still c b (h.still c b hs)⟩

theorem Still.of_bytes {bytes : Nat → UInt8} (h : Still x a c b k)
    (hb : k.freed.count x = c → bytes a = k.bytes a) : Still x a c b { k with bytes := bytes } := by
  refine ⟨h.aligned, h.past, fun hc => ?_⟩
  obtain ⟨hfree, hbyte⟩ := h.kept hc
  exact ⟨hfree, (hb hc).trans hbyte⟩

/-- A page on the free list does not hold the byte. -/
theorem Still.off {y : Nat} (hx : x % 4096 = 0) (ha : OnPage x a) (h : Still x a c b k)
    (hy : y ∈ k.freelist) (hc : k.freed.count x = c) : ¬OnPage y a := by
  intro hya
  cases OnPage.unique hx (h.aligned y hy) ha hya
  exact (h.kept hc).1 hy

theorem Hidden.mono (h : Hidden x a c pt k) (hp : c ≤ k.freed.count x) (hk : Counts x k k') :
    Hidden x a c pt k' := by
  intro hc
  have hle : k.freed.count x ≤ k'.freed.count x := hk
  exact h (by omega)

theorem Guarded.leaves (h : Guarded x a c b pt k) (hk : Leaves x a k k') :
    Guarded x a c b pt k' :=
  ⟨hk.still c b h.toStill, h.hidden.mono h.past hk.counts⟩

section

variable (hx : x % 4096 = 0) (ha : OnPage x a)

include hx ha

theorem Leaves.closed : Closed (Leaves x a) where
  none _ := ⟨Nat.le_refl _, fun _ _ h => ⟨h.aligned, h.past, h.kept⟩⟩
  some k r rest bytes hl hbytes := by
    refine ⟨Nat.le_refl _, fun c b h => ⟨fun y hy => ?_, h.past, fun hc => ?_⟩⟩
    · exact h.aligned y (hl ▸ List.mem_cons_of_mem _ hy)
    · have hr : r ∈ k.freelist := hl ▸ List.mem_cons_self
      obtain ⟨hfree, hbyte⟩ := h.kept hc
      exact ⟨fun hmem => hfree (hl ▸ List.mem_cons_of_mem _ hmem),
        (hbytes a (h.off hx ha hr hc)).trans hbyte⟩
  free k pa hok := by
    refine ⟨List.count_le_count_cons, fun c b h => ⟨fun y hy => ?_, ?_, fun hc => ?_⟩⟩
    · rcases List.mem_cons.mp hy with rfl | hy
      · exact hok.1
      · exact h.aligned y hy
    · exact h.past.trans List.count_le_count_cons
    · -- another page than the one at `x`, which would count
      have hle := h.past
      rw [List.count_cons] at hc
      split at hc
      · omega
      · next hne =>
        have hne' : pa ≠ x := by simpa using hne
        obtain ⟨hfree, hbyte⟩ := h.kept hc
        refine ⟨fun hmem => ?_, (fill_off fun hpa => ?_).trans hbyte⟩
        · rcases List.mem_cons.mp hmem with rfl | hmem
          · exact hne' rfl
          · exact hfree hmem
        · exact hne' (OnPage.unique hok.1 hx hpa ha)
  torn _ _ := ⟨Nat.le_refl _, fun _ _ h => ⟨h.aligned, h.past, h.kept⟩⟩

/-! ## Writing through a page table -/

/-- A page that `kalloc` returns does not hold the byte. -/
theorem kalloc_off {r : Nat} (h : Still x a c b k) (hk : kalloc k = .ok (some r, k')) :
    k'.freed.count x = c → ¬OnPage r a := by
  intro hc
  rcases kalloc_ok hk with ⟨hnone, -⟩ | ⟨r', rest, hr, hl, rfl⟩
  · cases hnone
  · cases hr
    exact h.off hx ha (hl ▸ List.mem_cons_self) hc

omit hx ha

theorem Guarded.of_bytes {bytes : Nat → UInt8} (h : Guarded x a c b pt k)
    (hb : k.freed.count x = c → bytes a = k.bytes a) :
    Guarded x a c b pt { k with bytes := bytes } :=
  ⟨h.toStill.of_bytes hb, h.hidden⟩

theorem Guarded.of_fill {r : Nat} (h : Guarded x a c b pt k)
    (hr : k.freed.count x = c → ¬OnPage r a) (v : UInt8) :
    Guarded x a c b pt { k with bytes := fill k.bytes r pgsize v } :=
  h.of_bytes fun hc => fill_off (hr hc)

/-- A write inside a page that does not hold the byte. -/
theorem memmove_off {pa dst : Nat} {src : Nat → UInt8} {u : PUnit} (hle : pa ≤ dst)
    (hfit : dst + n ≤ pa + 4096) (hpa : k.freed.count x = c → ¬OnPage pa a)
    (h : memmove dst src n k = .ok (u, k')) :
    ∃ bytes, k' = { k with bytes := bytes } ∧ (k.freed.count x = c → bytes a = k.bytes a) := by
  cases h
  refine ⟨_, rfl, fun hc => if_neg fun hin => hpa hc ⟨?_, ?_⟩⟩
  · omega
  · omega

theorem walkaddr_user {va pa : Nat} (h : walkaddr pt va k = .ok (pa, k')) (hpa : pa ≠ 0) :
    ∃ v < maxPage, ∃ e, pt.map v = some e ∧ e.perm.u = true ∧ e.pa = pa := by
  unfold walkaddr at h
  split at h
  · cases h
    exact absurd rfl hpa
  · next hva =>
    obtain ⟨⟨_, found⟩, k₁, -, h⟩ := bind_ok h
    cases found with
    | false =>
      cases h
      exact absurd rfl hpa
    | true =>
      simp only [Bool.true_eq_false, if_false] at h
      cases he : pt.map (va / pgsize) with
      | none =>
        rw [he] at h
        cases h
        exact absurd rfl hpa
      | some e =>
        rw [he] at h
        dsimp only at h
        by_cases hu : e.perm.u = true
        · rw [if_pos hu] at h
          cases h
          refine ⟨va / pgsize, ?_, e, he, hu, rfl⟩
          simp only [pgsize, maxPage, maxva] at hva ⊢
          omega
        · rw [if_neg hu] at h
          cases h
          exact absurd rfl hpa

/-- The page that `walkaddr` finds does not hold the byte. -/
theorem Guarded.walkaddr {va pa : Nat} (h : Guarded x a c b pt k)
    (hw : KernelUserPages.walkaddr pt va k = .ok (pa, k')) (hpa : pa ≠ 0) :
    k.freed.count x = c → ¬OnPage pa a := by
  obtain ⟨v, hv, e, he, hu, rfl⟩ := walkaddr_user hw hpa
  intro hc
  exact h.hidden hc v hv e he hu

/-- A page table with one page more. -/
theorem Guarded.add {pa : Nat} {perm : Perm} (h : Guarded x a c b pt k)
    (hpa : k.freed.count x = c → ¬OnPage pa a)
    (hmap : ∀ w < maxPage, pt'.map w = if w = v then some ⟨pa, perm⟩ else pt.map w) :
    Guarded x a c b pt' k := by
  refine ⟨h.toStill, fun hc w hw e he hu => ?_⟩
  rw [hmap w hw] at he
  split at he
  · cases he
    exact hpa hc
  · exact h.hidden hc w hw e he hu

/-- A page table that maps the same. -/
theorem Guarded.same (h : Guarded x a c b pt k) (hmap : ∀ w, pt'.map w = pt.map w) :
    Guarded x a c b pt' k := by
  refine ⟨h.toStill, fun hc w hw e he hu => ?_⟩
  rw [hmap w] at he
  exact h.hidden hc w hw e he hu

/-- A round of `copyout` with a page that does not hold the byte. -/
theorem copyoutPage_guarded {rest : Nat → List UInt8 → KM (PageTable × Bool)} {dst pa : Nat}
    {src : List UInt8} {ok : Bool} (h : Guarded x a c b own k)
    (hpa : pa ≠ 0 → k.freed.count x = c → ¬OnPage pa a)
    (hrest : ∀ k₁ va src, Guarded x a c b own k₁ → Counts x k k₁ →
      rest va src k₁ = .ok ((own', ok), k') → Guarded x a c b own' k')
    (hc : copyoutPage rest own pt dst src pa k = .ok ((own', ok), k')) :
    Guarded x a c b own' k' := by
  unfold copyoutPage at hc
  split at hc
  · cases hc
    exact h
  · next hne =>
    obtain ⟨⟨_, found⟩, k₁, hwalk, hc⟩ := bind_ok hc
    obtain rfl : k = k₁ := keeps_walk _ _ _ _ _ hwalk
    cases found with
    | false => cases hc
    | true =>
      simp only [Bool.true_eq_false, if_false] at hc
      cases he : pt.map (pgrounddown dst / pgsize) with
      | none =>
        rw [he] at hc
        cases hc
        exact h
      | some e =>
        rw [he] at hc
        dsimp only at hc
        split at hc
        · cases hc
          exact h
        · obtain ⟨_, k₂, hmove, hc⟩ := bind_ok hc
          have hround : pgrounddown dst = dst / 4096 * 4096 := rfl
          have hfit : pa + (dst - pgrounddown dst) +
              min (pgsize - (dst - pgrounddown dst)) src.length ≤ pa + 4096 := by
            simp only [pgsize, hround]
            omega
          obtain ⟨bytes, rfl, hbytes⟩ := memmove_off (Nat.le_add_right _ _) hfit (hpa hne) hmove
          exact hrest _ _ _ (h.of_bytes hbytes) (Nat.le_refl _) hc

theorem loadLoop_guarded {va sz : Nat} {data : List UInt8} {ok : Bool} (h : Guarded x a c b pt k)
    (hl : loadLoop n pt va data sz k = .ok (ok, k')) : Guarded x a c b pt k' := by
  induction n generalizing va data sz k with
  | zero =>
    cases hl
    exact h
  | succ n ih =>
    obtain ⟨pa, k₁, hwalk, hl⟩ := bind_ok hl
    obtain rfl : k = k₁ := keeps_walkaddr _ _ _ _ _ hwalk
    split at hl
    · cases hl
    · next hpa =>
      obtain ⟨_, k₂, hmove, hl⟩ := bind_ok hl
      have hsize : (if sz < pgsize then sz else pgsize) ≤ 4096 := by
        simp only [pgsize]
        split <;> omega
      generalize (if sz < pgsize then sz else pgsize) = size at hmove hl hsize
      obtain ⟨bytes, rfl, hbytes⟩ :=
        memmove_off (Nat.le_refl pa) (by omega) (h.walkaddr hwalk hpa) hmove
      have h₂ := h.of_bytes hbytes
      split at hl
      · cases hl
        exact h₂
      · exact ih h₂ hl

/-- The guard page is no page of the user's. -/
theorem uvmclear_guarded {va : Nat} (h : Guarded x a c b pt k)
    (hu : uvmclear pt va k = .ok (pt', k')) : Guarded x a c b pt' k' := by
  obtain ⟨⟨_, found⟩, k₁, hwalk, hu⟩ := bind_ok hu
  obtain rfl : k = k₁ := keeps_walk _ _ _ _ _ hwalk
  cases found with
  | false => cases hu
  | true =>
    simp only [Bool.true_eq_false, if_false] at hu
    cases he : pt.map (va / pgsize) with
    | none =>
      rw [he] at hu
      cases hu
      exact h
    | some e =>
      rw [he] at hu
      cases hu
      have hpage : va / pgsize < maxPage := by
        have hlt := walk_lt hwalk
        simp only [maxva, maxPage, pgsize] at hlt ⊢
        omega
      refine ⟨h.toStill, fun hc w hw e' he' hu => ?_⟩
      rw [store_map pt _ w _ hpage hw (reaches_of_map pt _ e he)] at he'
      split at he'
      · cases he'
        cases hu
      · exact h.hidden hc w hw e' he' hu

include hx ha

/-- A page is taken, cleared and mapped. -/
theorem Guarded.take {mem : Nat} {perm : Perm} {ok : Bool} (h : Guarded x a c b pt k)
    (hpage : kalloc k = .ok (some mem, k₁))
    (hmap : mappages pt (v * 4096) pgsize mem perm
      { k₁ with bytes := fill k₁.bytes mem pgsize 0 } = .ok ((pt', ok), k')) :
    Guarded x a c b pt' k' ∧ (k'.freed.count x = c → ¬OnPage mem a) := by
  have hclosed := Leaves.closed hx ha
  have hoff := kalloc_off hx ha h.toStill hpage
  have h₁ := h.leaves (hclosed.kalloc _ _ _ hpage)
  have hmapped := hclosed.mappages _ _ _ _ _ _ _ _ hmap
  have h₂ := (h₁.of_fill hoff 0).leaves hmapped
  have hoff' : k'.freed.count x = c → ¬OnPage mem a := by
    intro hc
    have hle : k₁.freed.count x ≤ k'.freed.count x := hmapped.counts
    have hpast := h₁.past
    exact hoff (by omega)
  rcases mappages_ok hmap with ⟨rfl, hwalk⟩ | ⟨rfl, -, -, -, hsame⟩
  · exact ⟨h₂.same (walk_map hwalk).1, hoff'⟩
  · exact ⟨h₂.add hoff' hsame, hoff'⟩

/-- A page fault maps a page that was free. -/
theorem vmfault_guarded {sz va pa : Nat} (h : Guarded x a c b own k)
    (hv : vmfault sz own pt va k = .ok ((own', pa), k')) :
    Guarded x a c b own' k' ∧ (pa ≠ 0 → k'.freed.count x = c → ¬OnPage pa a) := by
  have hclosed := Leaves.closed hx ha
  unfold vmfault at hv
  split at hv
  · cases hv
    exact ⟨h, fun hne => absurd rfl hne⟩
  · obtain ⟨mapped, k₁, hmapped, hv⟩ := bind_ok hv
    obtain rfl : k = k₁ := keeps_ismapped _ _ _ _ _ hmapped
    split at hv
    · cases hv
      exact ⟨h, fun hne => absurd rfl hne⟩
    · obtain ⟨page, k₂, hpage, hv⟩ := bind_ok hv
      cases page with
      | none =>
        cases hv
        exact ⟨h.leaves (hclosed.kalloc _ _ _ hpage), fun hne => absurd rfl hne⟩
      | some mem =>
        obtain ⟨_, k₃, hset, hv⟩ := bind_ok hv
        cases hset
        obtain ⟨⟨own₁, ok⟩, k₄, hmap, hv⟩ := bind_ok hv
        have hround : pgrounddown va = va / 4096 * 4096 := rfl
        rw [hround] at hmap
        obtain ⟨h₄, hoff⟩ := h.take hx ha hpage hmap
        cases ok with
        | false =>
          obtain ⟨_, k₅, hfree, hv⟩ := bind_ok hv
          cases hv
          exact ⟨h₄.leaves (hclosed.kfree _ _ _ _ hfree), fun hne => absurd rfl hne⟩
        | true =>
          cases hv
          exact ⟨h₄, fun _ => hoff⟩

theorem copyoutLoop_guarded {fuel sz dst : Nat} {target : Option PageTable} {src : List UInt8}
    {ok : Bool} (h : Guarded x a c b own k)
    (hc : copyoutLoop fuel sz own target dst src k = .ok ((own', ok), k'))
    (ht : Hidden x a c (target.getD own) k) : Guarded x a c b own' k' := by
  induction fuel generalizing own dst src k with
  | zero =>
    cases hc
    exact h
  | succ fuel ih =>
    rw [copyoutLoop] at hc
    split at hc
    · cases hc
      exact h
    · split at hc
      · cases hc
        exact h
      · obtain ⟨pa, k₁, hwalk, hc⟩ := bind_ok hc
        obtain rfl : k = k₁ := keeps_walkaddr _ _ _ _ _ hwalk
        -- what the page table that is written through still hides after a round
        have hnext : ∀ own₁ k₂, Guarded x a c b own₁ k₂ → Counts x k k₂ →
            Hidden x a c (target.getD own₁) k₂ := by
          intro own₁ k₂ h₂ hle
          cases target with
          | none => exact h₂.hidden
          | some pt => exact ht.mono h.past hle
        split at hc
        · obtain ⟨⟨own₁, pa₁⟩, k₂, hfault, hc⟩ := bind_ok hc
          obtain ⟨h₂, hoff⟩ := vmfault_guarded hx ha h hfault
          have hle₂ : Counts x k k₂ := (Counts.loose x).vmfault _ _ _ _ _ _ _ hfault
          refine copyoutPage_guarded h₂ hoff (fun k₃ va src h₃ hle hrest => ?_) hc
          exact ih h₃ hrest (hnext own₁ k₃ h₃ (trans_of (Counts x) hle₂ hle))
        · have hfound : Guarded x a c b (target.getD own) k := ⟨h.toStill, ht⟩
          refine copyoutPage_guarded h (hfound.walkaddr hwalk) (fun k₃ va src h₃ hle hrest => ?_) hc
          exact ih h₃ hrest (hnext own k₃ h₃ hle)

/-! ## `exec` -/

theorem allocLoop_guarded {oldsz : Nat} {perm : Perm} (h : Guarded x a c b pt k)
    (hl : allocLoop n pt (v * 4096) oldsz perm k = .ok ((pt', true), k')) :
    Guarded x a c b pt' k' := by
  induction n generalizing pt v k with
  | zero =>
    cases hl
    exact h
  | succ n ih =>
    obtain ⟨page, k₁, hpage, hl⟩ := bind_ok hl
    cases page with
    | none =>
      obtain ⟨r, k₂, -, hl⟩ := bind_ok hl
      cases hl
    | some mem =>
      obtain ⟨_, k₂, hset, hl⟩ := bind_ok hl
      cases hset
      obtain ⟨⟨pt₁, ok⟩, k₃, hmap, hl⟩ := bind_ok hl
      cases ok with
      | false =>
        obtain ⟨_, k₄, -, hl⟩ := bind_ok hl
        obtain ⟨r, k₅, -, hl⟩ := bind_ok hl
        cases hl
      | true =>
        have hnext : v * 4096 + pgsize = (v + 1) * 4096 := by simp only [pgsize]; omega
        simp only [Bool.true_eq_false, if_false, hnext] at hl
        exact ih (h.take hx ha hpage hmap).1 hl

theorem uvmalloc_guarded {oldsz newsz sz : Nat} {w e : Bool} (h : Guarded x a c b pt k)
    (hsz : sz ≠ 0) (hu : uvmalloc pt oldsz newsz w e k = .ok ((pt', sz), k')) :
    Guarded x a c b pt' k' := by
  unfold uvmalloc at hu
  split at hu
  · cases hu
    exact h
  · obtain ⟨⟨pt₁, ok⟩, k₁, hloop, hu⟩ := bind_ok hu
    cases ok with
    | false =>
      cases hu
      exact absurd rfl hsz
    | true =>
      cases hu
      rw [pgroundup_eq] at hloop
      exact allocLoop_guarded hx ha h hloop

theorem loadImage_guarded {l : List (Option Proghdr)} {sz sz' : Nat} {ok : Bool}
    (h : Guarded x a c b pt k) (hl : loadImage l pt sz k = .ok ((pt', sz', ok), k')) :
    Still x a c b k' ∧ (ok = true → Guarded x a c b pt' k') := by
  induction l generalizing pt sz k with
  | nil =>
    cases hl
    exact ⟨h.toStill, fun _ => h⟩
  | cons ph rest ih =>
    have hfail : ∀ {k₁ : Kmem} {pt₁ : PageTable} {sz₁ : Nat}, Still x a c b k₁ →
        (pure (pt₁, sz₁, false) : KM _) k₁ = .ok ((pt', sz', ok), k') →
        Still x a c b k' ∧ (ok = true → Guarded x a c b pt' k') := by
      intro k₁ pt₁ sz₁ h₁ he
      cases he
      exact ⟨h₁, fun hok => absurd hok Bool.false_ne_true⟩
    cases ph with
    | none => exact hfail h.toStill hl
    | some ph =>
      unfold loadImage at hl
      split at hl
      · exact ih h hl
      · split at hl
        · exact hfail h.toStill hl
        · split at hl
          · exact hfail h.toStill hl
          · split at hl
            · exact hfail h.toStill hl
            · obtain ⟨⟨pt₁, sz₁⟩, k₁, halloc, hl⟩ := bind_ok hl
              dsimp only at hl
              split at hl
              · have hclosed := Leaves.closed hx ha
                have h₁ := h.leaves (hclosed.uvmalloc _ _ _ _ _ _ _ _ halloc)
                exact hfail h₁.toStill hl
              · next hsz =>
                have h₁ := uvmalloc_guarded hx ha h hsz halloc
                obtain ⟨loaded, k₂, hload, hl⟩ := bind_ok hl
                have h₂ := loadLoop_guarded h₁ hload
                split at hl
                · exact hfail h₂.toStill hl
                · exact ih h₂ hl

theorem push_guarded {psz base sp : Nat} {block : List UInt8} {r : Option Nat}
    (h : Guarded x a c b own k) (ht : Hidden x a c pt k)
    (hp : push psz own pt base sp block k = .ok ((own', r), k')) : Guarded x a c b own' k' := by
  unfold push at hp
  dsimp only at hp
  split at hp
  · cases hp
    exact h
  · obtain ⟨⟨own₁, ok⟩, k₁, hcopy, hp⟩ := bind_ok hp
    cases hp
    exact copyoutLoop_guarded hx ha h hcopy ht

theorem pushArgs_guarded {psz base sp : Nat} {args : List (List UInt8)} {ustack : List Nat}
    {r : Option (Nat × List Nat)} (h : Guarded x a c b own k) (ht : Hidden x a c pt k)
    (hp : pushArgs psz pt base args own sp ustack k = .ok ((own', r), k')) :
    Guarded x a c b own' k' := by
  induction args generalizing own sp ustack k with
  | nil =>
    cases hp
    exact h
  | cons arg rest ih =>
    unfold pushArgs at hp
    split at hp
    · cases hp
      exact h
    · obtain ⟨⟨own₁, r₁⟩, k₁, hpush, hp⟩ := bind_ok hp
      have h₁ := push_guarded hx ha h ht hpush
      cases r₁ with
      | none =>
        cases hp
        exact h₁
      | some sp =>
        exact ih h₁ (ht.mono h.past ((Counts.loose x).push _ _ _ _ _ _ _ _ _ hpush)) hp

theorem pushStack_guarded {psz sz : Nat} {argv : Argv} {r : Option (Nat × Nat)}
    (h : Guarded x a c b own k) (ht : Hidden x a c pt k)
    (hp : pushStack psz own pt sz argv k = .ok ((own', r), k')) : Guarded x a c b own' k' := by
  obtain ⟨⟨own₁, r₁⟩, k₁, hargs, hp⟩ := bind_ok hp
  have h₁ := pushArgs_guarded hx ha h ht hargs
  cases r₁ with
  | none =>
    cases hp
    exact h₁
  | some r₁ =>
    obtain ⟨⟨own₂, r₂⟩, k₂, hpush, hp⟩ := bind_ok hp
    cases hp
    have hcounts := (Counts.loose x).pushArgs _ _ _ _ _ _ _ _ _ _ hargs
    exact push_guarded hx ha h₁ (ht.mono h.past hcounts) hpush

theorem addStack_guarded {sz : Nat} {r : Option (PageTable × Nat)} (h : Guarded x a c b pt k)
    (he : addStack pt sz k = .ok (r, k')) :
    Still x a c b k' ∧ ∀ pt' sz', r = some (pt', sz') → Guarded x a c b pt' k' := by
  have hclosed := Leaves.closed hx ha
  obtain ⟨⟨pt₁, sz₁⟩, k₁, hstack, he⟩ := bind_ok he
  dsimp only at he
  split at he
  · obtain ⟨_, k₂, hfree, he⟩ := bind_ok he
    cases he
    have h₁ := (hclosed.uvmalloc _ _ _ _ _ _ _ _ hstack).still c b h.toStill
    refine ⟨(hclosed.procFreepagetable _ _ _ _ _ hfree).still c b h₁, fun _ _ hr => ?_⟩
    cases hr
  · next hsz =>
    obtain ⟨pt₂, k₂, hclear, he⟩ := bind_ok he
    cases he
    have h₂ := uvmclear_guarded (uvmalloc_guarded hx ha h hsz hstack) hclear
    refine ⟨h₂.toStill, fun _ _ hr => ?_⟩
    cases hr
    exact h₂

/-- A new image is loaded into pages that were free. -/
theorem newImage_guarded {tf : Nat} {img : Image} {r : Option (PageTable × Nat)} (hs : Sound k 0)
    (h : Still x a c b k) (he : newImage tf img k = .ok (r, k')) :
    Still x a c b k' ∧ ∀ pt' sz', r = some (pt', sz') → Guarded x a c b pt' k' := by
  have hclosed := Leaves.closed hx ha
  obtain ⟨new, k₁, hnew, he⟩ := bind_ok he
  have h₁ := (hclosed.procPagetable _ _ _ _ hnew).still c b h
  cases new with
  | none =>
    cases he
    refine ⟨h₁, fun _ _ hr => ?_⟩
    cases hr
  | some new =>
    -- the trap pages are not mapped for the user
    have hfresh := ((procPagetable_wp tf k hs).post hnew).2 new rfl
    have hnew₁ : Guarded x a c b new k₁ := by
      refine ⟨h₁, fun _ w hw e hmap hu => ?_⟩
      rw [hfresh w hw, trapMap] at hmap
      split at hmap
      · cases hmap
        cases hu
      · split at hmap
        · cases hmap
          cases hu
        · cases hmap
    obtain ⟨⟨new₁, sz₁, ok⟩, k₂, hload, he⟩ := bind_ok he
    obtain ⟨h₂, hnew₂⟩ := loadImage_guarded hx ha hnew₁ hload
    cases ok with
    | false =>
      obtain ⟨_, k₃, hfree, he⟩ := bind_ok he
      cases he
      refine ⟨(hclosed.procFreepagetable _ _ _ _ _ hfree).still c b h₂, fun _ _ hr => ?_⟩
      cases hr
    | true => exact addStack_guarded hx ha (hnew₂ rfl) he

theorem prepare_still {oldsz tf : Nat} {img : Option Image} {argv : Argv}
    {r : PageTable × Option (PageTable × Nat × Nat × Nat)} (hs : Sound k 0)
    (h : Guarded x a c b own k) (he : prepare oldsz own tf img argv k = .ok (r, k')) :
    Still x a c b k' := by
  unfold prepare at he
  split at he
  · cases he
    exact h.toStill
  · split at he
    · cases he
      exact h.toStill
    · obtain ⟨new, k₁, hnew, he⟩ := bind_ok he
      obtain ⟨h₁, hguarded⟩ := newImage_guarded hx ha hs h.toStill hnew
      cases new with
      | none =>
        cases he
        exact h₁
      | some new =>
        have hcounts := (Counts.loose x).newImage _ _ _ _ _ hnew
        have hown : Guarded x a c b own k₁ := ⟨h₁, h.hidden.mono h.past hcounts⟩
        obtain ⟨⟨own₁, started⟩, k₂, hpush, he⟩ := bind_ok he
        have h₂ := pushStack_guarded hx ha hown (hguarded _ _ rfl).hidden hpush
        cases started with
        | none =>
          obtain ⟨_, k₃, hfree, he⟩ := bind_ok he
          cases he
          exact ((Leaves.closed hx ha).procFreepagetable _ _ _ _ _ hfree).still c b h₂.toStill
        | some started =>
          cases he
          exact h₂.toStill

theorem kexec_still {oldsz tf : Nat} {img : Option Image} {argv : Argv}
    {r : PageTable × Nat × Option (Nat × Nat)} (hs : Sound k 0) (h : Guarded x a c b own k)
    (he : kexec oldsz own tf img argv k = .ok (r, k')) : Still x a c b k' := by
  obtain ⟨⟨own₁, built⟩, k₁, hprep, he⟩ := bind_ok he
  have h₁ := prepare_still hx ha hs h hprep
  cases built with
  | none =>
    cases he
    exact h₁
  | some built =>
    obtain ⟨_, k₂, hfree, he⟩ := bind_ok he
    cases he
    exact ((Leaves.closed hx ha).procFreepagetable _ _ _ _ _ hfree).still c b h₁

end

/-! ## Processes -/

/-- The relation on the whole memory state. -/
def MemLeaves (x a : Nat) (m m' : Mem) : Prop := Leaves x a m.kmem m'.kmem

instance : Std.Refl (MemLeaves x a) := ⟨fun m => refl_of (Leaves x a) m.kmem⟩

instance : IsTrans Mem (MemLeaves x a) := ⟨fun _ _ _ h h' => trans_of (Leaves x a) h h'⟩

theorem MemLeaves.reframed (x a : Nat) (p : Slot) : Reframed (Leaves x a) p (MemLeaves x a) where
  kmem _ _ hk := hk
  space _ _ := keeps_modify fun m => refl_of (Leaves x a) m.kmem
  resize _ := keeps_modify fun m => refl_of (Leaves x a) m.kmem
  seg _ _ _ := keeps_modify fun m => refl_of (Leaves x a) m.kmem

/-- Address spaces stay as they are, and so does the byte if it is not on the trapframe of `p`. -/
structure Filed (x a : Nat) (p : Slot) (m m' : Mem) : Prop where
  space : m'.space = m.space
  still : ∀ c b, ¬OnPage (m.space p).trapframe a → Still x a c b m.kmem → Still x a c b m'.kmem

instance : Std.Refl (Filed x a p) := ⟨fun _ => ⟨rfl, fun _ _ _ h => h⟩⟩

instance : IsTrans Mem (Filed x a p) where
  trans _ _ _ h h' := by
    refine ⟨h'.space.trans h.space, fun c b htf hs => ?_⟩
    exact h'.still c b (h.space ▸ htf) (h.still c b htf hs)

/-- A write to the trapframe of `p`. -/
theorem Filed.memmove {dst : Nat} {src : Nat → UInt8} {u : PUnit}
    (hle : (m.space p).trapframe ≤ dst) (hfit : dst + n ≤ (m.space p).trapframe + 4096)
    (h : onKmem (memmove dst src n) m = .ok (u, m')) : Filed x a p m m' := by
  obtain ⟨k₁, hmove, rfl⟩ := onKmem_ok h
  refine ⟨rfl, fun c b htf hs => ?_⟩
  obtain ⟨bytes, rfl, hbytes⟩ :=
    memmove_off (x := x) (c := c) hle hfit (fun _ => htf) hmove
  exact hs.of_bytes hbytes

theorem Filed.setReg (r : Reg) (value : Nat) :
    Keeps (Filed x a p) (KernelShm.setReg p r value) := by
  intro m u m' h
  obtain ⟨_, _, hget, h⟩ := bind_ok h
  cases hget
  have hfit : r.offset + 8 ≤ 4096 := by cases r <;> decide
  exact Filed.memmove (Nat.le_add_right _ _) (by omega) h

section

variable (hx : x % 4096 = 0) (ha : OnPage x a)

include hx ha

theorem execProc_still {img : Option Image} {argv : Argv} {r : Int} (hs : Sound m.kmem 0)
    (hpt : (m.space p).pagetable = some pt) (h : Guarded x a c b pt m.kmem)
    (htf : ¬OnPage (m.space p).trapframe a) (he : execProc p img argv m = .ok (r, m')) :
    Still x a c b m'.kmem := by
  obtain ⟨_, _, hget, he⟩ := bind_ok he
  cases hget
  obtain ⟨own, m₁, hown, he⟩ := bind_ok he
  obtain ⟨rfl, hown'⟩ := ownTable_ok hown
  cases hpt.symm.trans hown'
  obtain ⟨⟨pt₁, sz, started⟩, m₂, hexec, he⟩ := bind_ok he
  obtain ⟨k₁, hk, rfl⟩ := onKmem_ok hexec
  have h₁ := kexec_still hx ha hs h hk
  obtain ⟨_, m₃, hset, he⟩ := bind_ok he
  cases hset
  -- the registers of the new program
  have hregs : Filed x a p ⟨k₁, m₁.shm, Function.update m₁.space p
      { m₁.space p with pagetable := some pt₁, sz := sz }⟩ m' := by
    split at he
    · refine keeps_bind (Filed.setReg .a1 _) (fun _ => ?_) _ _ _ he
      refine keeps_bind (Filed.setReg .epc _) (fun _ => ?_)
      exact keeps_bind (Filed.setReg .sp _) fun _ => keeps_pure _
    · cases he
      exact refl_of _ _
  refine hregs.still c b ?_ h₁
  simp only [Function.update_self]
  exact htf

theorem storeStatus_still {addr : Nat} {xstate : Int} {ok : Bool}
    (hpt : (m.space p).pagetable = some pt) (h : Guarded x a c b pt m.kmem)
    (hs : storeStatus p addr xstate m = .ok (ok, m')) : Still x a c b m'.kmem := by
  unfold storeStatus at hs
  split at hs
  · cases hs
    exact h.toStill
  · obtain ⟨_, _, hget, hs⟩ := bind_ok hs
    cases hget
    obtain ⟨own, m₁, hown, hs⟩ := bind_ok hs
    obtain ⟨rfl, hown'⟩ := ownTable_ok hown
    cases hpt.symm.trans hown'
    obtain ⟨⟨own₁, ok₁⟩, m₂, hcopy, hs⟩ := bind_ok hs
    obtain ⟨k₁, hk, rfl⟩ := onKmem_ok hcopy
    obtain ⟨_, m₃, hset, hs⟩ := bind_ok hs
    cases hset
    cases hs
    exact (copyoutLoop_guarded hx ha h hk h.hidden).toStill

theorem reap_still {addr : Nat} {xstate : Int} {ok : Bool}
    (hpt : (m.space p).pagetable = some pt) (h : Guarded x a c b pt m.kmem)
    (hr : reap p q addr xstate m = .ok (ok, m')) : Still x a c b m'.kmem := by
  obtain ⟨stored, m₁, hstore, hr⟩ := bind_ok hr
  have h₁ := storeStatus_still hx ha hpt h hstore
  split at hr
  · cases hr
    exact h₁
  · obtain ⟨_, m₂, hfree, hr⟩ := bind_ok hr
    cases hr
    have hleaves := (MemLeaves.reframed x a q).freeproc (Leaves.closed hx ha).toGiving _ _ _ hfree
    exact hleaves.still c b h₁

/-- The parent's registers are copied to the new trapframe. -/
theorem copyProc_still {np : Slot} {regs : List (Reg × Nat)} {ok : Bool}
    (h : Still x a c b m.kmem) (hc : copyProc p np regs m = .ok (ok, m'))
    (htf : ok = true → ¬OnPage (m'.space np).trapframe a) : Still x a c b m'.kmem := by
  have hframe := MemLeaves.reframed x a np
  have hclosed := Leaves.closed hx ha
  cases copyProc_copies hc with
  | full halloc => exact (hframe.allocproc hclosed _ _ _ halloc).still c b h
  | undone halloc hcopy htable hfree =>
    have h₁ := (hframe.allocproc hclosed _ _ _ halloc).still c b h
    have h₂ := (hframe.onKmem (hclosed.uvmcopy _ _ _) _ _ _ hcopy).still c b h₁
    have h₃ := (hframe.setTable _ _ _ _ htable).still c b h₂
    exact (hframe.freeproc hclosed.toGiving _ _ _ hfree).still c b h₃
  | @done _ _ _ m₄ m₅ _ _ _ _ _ _ _ _ halloc hcopy htable hsize hmove hregs =>
    have h₁ := (hframe.allocproc hclosed _ _ _ halloc).still c b h
    have h₂ := (hframe.onKmem (hclosed.uvmcopy _ _ _) _ _ _ hcopy).still c b h₁
    have h₃ := (hframe.setTable _ _ _ _ htable).still c b h₂
    have h₄ := (hframe.resize _ _ _ _ hsize).still c b h₃
    have hmoved : Filed x a np m₄ m₅ := Filed.memmove (Nat.le_refl _) (by omega) hmove
    have hset : Filed x a np m₅ m' :=
      keeps_forM (fun r : Reg × Nat => Filed.setReg r.1 r.2) regs _ _ _ hregs
    have hfiled := trans_of (Filed x a np) hmoved hset
    exact hfiled.still c b (hfiled.space ▸ htf rfl) h₄

/-- The pages of a new segment were free. -/
theorem shmFill_still {j : Nat} {ok : Bool} (h : Still x a c b m.kmem)
    (hf : shmFill n i j m = .ok (ok, m')) : Still x a c b m'.kmem := by
  have hclosed := Leaves.closed hx ha
  induction n generalizing j m with
  | zero =>
    cases hf
    exact h
  | succ n ih =>
    obtain ⟨page, m₁, hpage, hf⟩ := bind_ok hf
    obtain ⟨k₁, hk, rfl⟩ := onKmem_ok hpage
    have h₁ := (hclosed.kalloc _ _ _ hk).still c b h
    cases page with
    | none =>
      obtain ⟨_, _, hget, hf⟩ := bind_ok hf
      cases hget
      obtain ⟨_, m₂, hfree, hf⟩ := bind_ok hf
      obtain ⟨k₂, hk₂, rfl⟩ := onKmem_ok hfree
      obtain ⟨_, m₃, hset, hf⟩ := bind_ok hf
      cases hset
      cases hf
      exact (hclosed.freePages _ _ _ _ hk₂).still c b h₁
    | some mem =>
      obtain ⟨_, m₂, hzero, hf⟩ := bind_ok hf
      cases hzero
      obtain ⟨_, m₃, hset, hf⟩ := bind_ok hf
      cases hset
      have hoff := kalloc_off hx ha h hk
      exact ih (h₁.of_bytes fun hc => fill_off (hoff hc)) hf

theorem sysShmget_still {key size r : Int} (h : Still x a c b m.kmem)
    (hg : sysShmget key size m = .ok (r, m')) : Still x a c b m'.kmem := by
  rcases sysShmget_ok hg with ⟨-, rfl⟩ | ⟨i, -, -, -, rfl⟩ | ⟨i, ok, -, -, -, -, hfill⟩
  · exact h
  · exact h
  · have hclaimed : Still x a c b (claimed m i key size).kmem := h
    exact shmFill_still hx ha hclaimed hfill

end

/-! ## Segments that nobody is attached to -/

section

variable (h : MemInv ram m) (hx : x ∈ segPages (m.shm i)) (ha : OnPage x a)

include h hx

theorem MemInv.seg_aligned : x % 4096 = 0 := (ram.ok x (h.mem_ram (.inr (.inl ⟨i, hx⟩)))).1

theorem MemInv.still (a : Nat) :
    Still x a (m.kmem.freed.count x) (m.kmem.bytes a) m.kmem := by
  refine ⟨fun y hy => ?_, Nat.le_refl _, fun _ => ⟨(h.seg_owned hx).1, rfl⟩⟩
  exact (ram.ok y (h.mem_ram (.inl hy))).1

include ha

/-- Another page does not hold the byte. -/
theorem MemInv.off_page {y : Nat} (hy : y ∈ ram.pages) (hne : y ≠ x) : ¬OnPage y a := by
  intro hya
  exact hne (OnPage.unique (ram.ok y hy).1 (MemInv.seg_aligned h hx) hya ha)

theorem MemInv.trapframe_off (p : Slot) : ¬OnPage (m.space p).trapframe a := by
  by_cases hzero : (m.space p).trapframe = 0
  · have hlow := (ram.ok x (h.mem_ram (.inr (.inl ⟨i, hx⟩)))).2.1
    have hkern := ram.above
    obtain ⟨hle, -⟩ := ha
    rw [hzero]
    rintro ⟨-, hlt⟩
    simp only [kernbase] at hkern
    omega
  · have hmem : (m.space p).trapframe ∈ spacePages (m.space p) := by
      rw [spacePages, if_neg hzero]
      exact Multiset.mem_add.mpr (.inl (Multiset.mem_singleton_self _))
    refine MemInv.off_page h hx ha (h.mem_ram (.inr (.inr ⟨p, hmem⟩))) fun heq => ?_
    exact (h.seg_owned hx).2.1 p (heq ▸ hmem)

/-- A process that is not attached to the segment does not see the byte. -/
theorem MemInv.hidden (hpt : (m.space p).pagetable = some pt) (hva : (m.space p).shmVa i = 0) :
    Guarded x a (m.kmem.freed.count x) (m.kmem.bytes a) pt m.kmem := by
  refine ⟨MemInv.still h hx a, fun _ v hv e he hu => ?_⟩
  obtain ⟨-, hspace, hsegs, -⟩ := h.seg_owned hx
  have hmap := h.mapped hpt
  by_cases hlow : v < pageCount (m.space p).sz
  · -- a page of the heap
    have hmem : e.pa ∈ spacePages (m.space p) := by
      rw [spacePages, tablePages, hpt]
      have hrange : e.pa ∈ rangePages pt 0 (pageCount (m.space p).sz) :=
        mem_rangePages (Nat.zero_le v) (by omega) he
      exact Multiset.mem_add.mpr (.inr (Multiset.mem_add.mpr (.inr hrange)))
    refine MemInv.off_page h hx ha (h.mem_ram (.inr (.inr ⟨p, hmem⟩))) fun heq => ?_
    exact hspace p (heq ▸ hmem)
  · rw [hmap.above v hv (by omega), window] at he
    split at he
    · next i' j hseg =>
      split at he
      · next hatt =>
        -- a page of another segment
        cases he
        have hne : i' ≠ i := by
          rintro rfl
          exact hatt.1 hva
        have hused := (hmap.attached i' hatt.1).1
        have hmem := mem_segPages hused hatt.2
        refine MemInv.off_page h hx ha (h.mem_ram (.inr (.inl ⟨i', hmem⟩))) fun heq => ?_
        exact hsegs i' hne (heq ▸ hmem)
      · cases he
    · -- the trap pages are not the user's
      rw [trapMap] at he
      split at he
      · cases he
        cases hu
      · split at he
        · cases he
          cases hu
        · cases he

end

/-- A system call on memory does not write to a segment that nobody is attached to. -/
theorem memory_still {call : Call} {prog : M Int} {r : Int} (h : MemInv ram m)
    (hx : x ∈ segPages (m.shm i)) (hva : ∀ q, (m.space q).shmVa i = 0) (ha : OnPage x a)
    (hpt : (m.space p).pagetable = some pt) (hc : call.memory p = some prog)
    (hm : prog m = .ok (r, m')) :
    Still x a (m.kmem.freed.count x) (m.kmem.bytes a) m'.kmem := by
  have hal := MemInv.seg_aligned h hx
  have hstill := MemInv.still h hx a
  have hclosed := Leaves.closed hal ha
  have hframe := MemLeaves.reframed x a p
  cases call with
  | exec img argv =>
    cases hc
    refine execProc_still hal ha ?_ hpt (MemInv.hidden h hx ha hpt (hva p))
      (MemInv.trapframe_off h hx ha p) hm
    exact (h.sound p).mono (Multiset.zero_le _)
  | sbrk n t =>
    cases hc
    exact (hframe.sysSbrk hclosed n t _ _ _ hm).still _ _ hstill
  | shmget key size =>
    cases hc
    exact sysShmget_still hal ha hstill hm
  | shmat id =>
    cases hc
    exact (hframe.sysShmat hclosed id _ _ _ hm).still _ _ hstill
  | shmdt id =>
    cases hc
    exact (hframe.sysShmdt hclosed.toGiving id _ _ _ hm).still _ _ hstill
  | _ => cases hc

/-- A segment that nobody is attached to stays, with the contents of its pages. -/
theorem unattached_act {act' : Action} {key : Int} {pa : Nat → Nat} (hsys : Sys ram s)
    (hcare : CarefulRun s act') (hact : act act' s = some (.ok s'))
    (hstands : Stands i key n pa s.mem) (hva : ∀ q, (s.mem.space q).shmVa i = 0) :
    Stands i key n pa s'.mem ∧
      ∀ j < n, ∀ a, OnPage (pa j) a → s'.mem.kmem.bytes a = s.mem.kmem.bytes a := by
  have hkeep : Retains i s act' := by
    rintro - - ⟨q, hq⟩
    exact absurd (hva q) hq
  have hstands' := hstands.act hsys hcare hkeep hact
  refine ⟨hstands', fun j hj a ha => ?_⟩
  obtain ⟨hused, rfl, rfl, rfl⟩ := hstands
  obtain ⟨hsys', hdone⟩ := hsys.done hcare hact
  have hinv := KInv.withFails hsys.inv act'.fails
  -- the page is not handed to `kfree`
  have hcount : s'.mem.kmem.freed.count ((s.mem.shm i).pa j) =
      s.mem.kmem.freed.count ((s.mem.shm i).pa j) := by
    obtain ⟨d, hd, hsegs⟩ := hdone.freed
    rcases hsegs i hused with ⟨-, -, -, -, hnot⟩ | ⟨-, hgone, -⟩
    · have hzero : d.count ((s.mem.shm i).pa j) = 0 :=
        List.count_eq_zero.mpr (hnot _ (mem_segPages hused hj))
      rw [hd, List.count_append, hzero, zero_add]
      rfl
    · exact absurd (hstands'.used.symm.trans hgone) (by decide)
  have hx : (s.mem.shm i).pa j ∈ segPages ((s.withFails act'.fails).mem.shm i) :=
    mem_segPages hused hj
  have hx' : (s.mem.shm i).pa j ∈ segPages (s'.mem.shm i) := by
    rw [← hstands'.pa]
    exact mem_segPages hstands'.used (by rw [hstands'.npages]; exact hj)
  generalize (s.mem.shm i).pa j = x at hcount hx hx' ha
  have hal := MemInv.seg_aligned hinv.mem hx
  have hstill := MemInv.still hinv.mem hx a
  have hclosed := Leaves.closed hal ha
  have hnone : ∀ q, ((s.withFails act'.fails).mem.space q).shmVa i = 0 := hva
  have hown : ((s.withFails act'.fails).proc act'.p).state = .running →
      ∃ pt, ((s.withFails act'.fails).mem.space act'.p).pagetable = some pt := by
    intro hr
    exact Option.isSome_iff_exists.mp (hinv.table act'.p (by rw [hr]; decide))
  have hlast : Still x a (s.mem.kmem.freed.count x) (s.mem.kmem.bytes a) s'.mem.kmem := by
    cases memStep (Table.withFails hsys.table act'.fails) (act_step hact) with
    | quiet hmem _ =>
      rw [hmem]
      exact hstill
    | fault _ hm _ =>
      exact ((MemLeaves.reframed x a _).pageFault hclosed _ _ _ _ hm).still _ _ hstill
    | memory hr hc hm _ _ =>
      obtain ⟨pt, hpt⟩ := hown hr
      have hran := memory_still hinv.mem hx hnone ha hpt hc hm
      exact hran
    | create _ _ hm _ _ =>
      exact copyProc_still hal ha hstill hm fun _ => MemInv.trapframe_off hsys'.inv.mem hx' ha _
    | reap hr _ hm _ _ =>
      obtain ⟨pt, hpt⟩ := hown hr
      exact reap_still hal ha hpt (MemInv.hidden hinv.mem hx ha hpt (hnone _)) hm
  exact (hlast.kept hcount).2

end KernelQuiet
