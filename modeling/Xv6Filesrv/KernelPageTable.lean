import Xv6Filesrv.StateWp
import Xv6Filesrv.KernelPages

/-!
# Page-table operations and page accounting

`walk`, `mappages`, `uvmunmap` and `freewalk` of `kernel/vm.c`. Every operation
is specified twice: by the leaf map it leaves behind, and by `Moves`, which says
that the free list together with the pages in the operation's hands is the same
multiset before and after.
-/

namespace KernelPageTable

open StateWp KernelPages

/-- Number of leaf entries a three-level table can hold. `walk` refuses the
upper half, from page 67108864 on, where `maxva` lies. -/
abbrev maxPage : Nat := 134217728

theorem lt_maxPage {v : Nat} (h : v < 67108864) : v < maxPage :=
  lt_trans h (by decide)

theorem lt_maxva {v : Nat} (h : v < 67108864) : v * 4096 < maxva := by
  simp only [maxva]
  omega

abbrev trampPage : Nat := 67108863
abbrev tfPage : Nat := 67108862

def Kmem.free (k : Kmem) : Multiset Nat := (k.freelist : Multiset Nat)

/-- All leaf entries lie at the two trap pages or below page `n`. -/
def NoStray (pt : PageTable) (n : Nat) : Prop :=
  ∀ v < maxPage, pt.map v ≠ none → v = trampPage ∨ v = tfPage ∨ v < n

/-- Page accounting: the resources `R` in hand before become `R'` after, and
only pages that were free or in hand are handed to `kfree`. -/
structure Moves (k : Kmem) (R : Multiset Nat) (k' : Kmem) (R' : Multiset Nat) : Prop where
  total : Kmem.free k + R = Kmem.free k' + R'
  fixed : k'.kend = k.kend ∧ k'.tramp = k.tramp
  freed : ∃ d, k'.freed = d ++ k.freed ∧ ∀ x ∈ d, x ∈ Kmem.free k + R
  torn : ∀ x ∈ k'.torn, x ∈ k.torn ∨ NoStray x.1 (pageCount x.2)

/-- Everything free or in hand would pass the test in `kfree`. -/
def Sound (k : Kmem) (R : Multiset Nat) : Prop := ∀ x ∈ Kmem.free k + R, okPage k.kend x

variable {k k' k'' : Kmem} {R R' R'' F : Multiset Nat}

theorem Moves.refl (k : Kmem) (R : Multiset Nat) : Moves k R k R :=
  ⟨rfl, ⟨rfl, rfl⟩, ⟨[], rfl, by simp⟩, fun _ h => .inl h⟩

theorem Moves.trans (h : Moves k R k' R') (h' : Moves k' R' k'' R'') : Moves k R k'' R'' := by
  obtain ⟨d, hd, hmem⟩ := h.freed
  obtain ⟨d', hd', hmem'⟩ := h'.freed
  refine ⟨h.total.trans h'.total, ⟨h'.fixed.1.trans h.fixed.1, h'.fixed.2.trans h.fixed.2⟩,
    ⟨d' ++ d, by simp [hd, hd'], ?_⟩, ?_⟩
  · intro x hx
    rcases List.mem_append.mp hx with hx | hx
    · rw [h.total]
      exact hmem' x hx
    · exact hmem x hx
  · intro x hx
    rcases h'.torn x hx with hx | hx
    · exact h.torn x hx
    · exact .inr hx

/-- Frame rule: resources that are not touched may be added on both sides. -/
theorem Moves.add (h : Moves k R k' R') (F : Multiset Nat) : Moves k (R + F) k' (R' + F) := by
  obtain ⟨d, hd, hmem⟩ := h.freed
  refine ⟨by rw [← add_assoc, h.total, add_assoc], h.fixed, ⟨d, hd, ?_⟩, h.torn⟩
  intro x hx
  rw [← add_assoc]
  exact Multiset.mem_add.mpr (.inl (hmem x hx))

theorem Moves.of_eq {S S' : Multiset Nat} (h : Moves k R k' R') (hs : S = R) (hs' : S' = R') :
    Moves k S k' S' := by
  subst hs hs'
  exact h

theorem Moves.sound (h : Moves k R k' R') (hs : Sound k R) : Sound k' R' := by
  intro x hx
  rw [h.fixed.1]
  exact hs x (by rw [h.total]; exact hx)

theorem Sound.mono (hs : Sound k R) (h : R' ≤ R) : Sound k R' := by
  intro x hx
  exact hs x (Multiset.mem_of_le (by gcongr) hx)

theorem Sound.ok (hs : Sound k R) {x : Nat} (h : x ∈ R) : okPage k.kend x :=
  hs x (Multiset.mem_add.mpr (.inr h))

/-- Writing to physical memory moves no page. -/
theorem Moves.of_bytes (k : Kmem) (R : Multiset Nat) (bytes : Nat → UInt8) :
    Moves k R { k with bytes := bytes } R :=
  ⟨rfl, ⟨rfl, rfl⟩, ⟨[], rfl, by simp⟩, fun _ h => .inl h⟩

/-- The operation does nothing but hand the pages `R`, each once, to `kfree`. -/
structure Frees (k : Kmem) (R : Multiset Nat) (k' : Kmem) : Prop where
  freed : ∃ d : List Nat, k'.freelist = d ++ k.freelist ∧ k'.freed = d ++ k.freed ∧
    (d : Multiset Nat) = R
  fixed : k'.kend = k.kend ∧ k'.tramp = k.tramp
  torn : ∀ x ∈ k'.torn, x ∈ k.torn ∨ NoStray x.1 (pageCount x.2)

theorem Frees.refl (k : Kmem) : Frees k 0 k :=
  ⟨⟨[], rfl, rfl, rfl⟩, ⟨rfl, rfl⟩, fun _ h => .inl h⟩

theorem Frees.trans (h : Frees k R k') (h' : Frees k' R' k'') : Frees k (R + R') k'' := by
  obtain ⟨d, hl, hd, hR⟩ := h.freed
  obtain ⟨d', hl', hd', hR'⟩ := h'.freed
  refine ⟨⟨d' ++ d, by simp [hl, hl'], by simp [hd, hd'], ?_⟩,
    ⟨h'.fixed.1.trans h.fixed.1, h'.fixed.2.trans h.fixed.2⟩, ?_⟩
  · rw [← Multiset.coe_add, hR, hR', add_comm]
  · intro x hx
    rcases h'.torn x hx with hx | hx
    · exact h.torn x hx
    · exact .inr hx

theorem Frees.free_eq (h : Frees k R k') : Kmem.free k' = R + Kmem.free k := by
  obtain ⟨d, hl, -, hR⟩ := h.freed
  rw [Kmem.free, hl, ← Multiset.coe_add, hR]
  rfl

theorem Frees.moves (h : Frees k R k') : Moves k R k' 0 := by
  obtain ⟨d, hl, hd, hR⟩ := h.freed
  refine ⟨?_, h.fixed, ⟨d, hd, ?_⟩, h.torn⟩
  · rw [h.free_eq, add_zero, add_comm]
  · intro x hx
    rw [← hR]
    exact Multiset.mem_add.mpr (.inr hx)

theorem Frees.sound (h : Frees k R k') (hs : Sound k (R + R')) : Sound k' R' := by
  simpa using (h.moves.add R').sound hs

def pageOf (o : Option Nat) : Multiset Nat := o.elim 0 fun pa => {pa}

@[simp] theorem pageOf_none : pageOf none = 0 := rfl
@[simp] theorem pageOf_some (pa : Nat) : pageOf (some pa) = {pa} := rfl

theorem kalloc_wp (k : Kmem) : wp kalloc (fun r k' => Moves k 0 k' (pageOf r)) k := by
  unfold kalloc
  rw [wp_bind, wp_get]
  split
  · simp only [wp_bind, wp_set, wp_pure]
    exact ⟨rfl, ⟨rfl, rfl⟩, ⟨[], rfl, by simp⟩, fun _ h => .inl h⟩
  · split
    · simp only [wp_bind, wp_set, wp_pure]
      exact ⟨rfl, ⟨rfl, rfl⟩, ⟨[], rfl, by simp⟩, fun _ h => .inl h⟩
    · next r rest hl =>
      simp only [wp_bind, wp_set, memset, wp_modify, wp_pure]
      refine ⟨?_, ⟨rfl, rfl⟩, ⟨[], rfl, by simp⟩, fun _ h => .inl h⟩
      rw [Kmem.free, hl, ← Multiset.cons_coe, ← Multiset.singleton_add, add_zero, add_comm]
      rfl

theorem kfree_wp (k : Kmem) (pa : Nat) (h : okPage k.kend pa) :
    wp (kfree pa) (fun _ k' => Frees k {pa} k') k := by
  simp only [kfree, wp_bind, wp_get, if_pos h, memset, wp_modify]
  exact ⟨⟨[pa], rfl, rfl, rfl⟩, ⟨rfl, rfl⟩, fun _ h => .inl h⟩

/-- Pages of the tables below and including `t`. -/
def pages (f : α → Multiset Nat) (t : Table α) : Multiset Nat :=
  {t.page} + ∑ i ∈ Finset.range 512, (t.slot i).elim 0 f

def nodes (pt : PageTable) : Multiset Nat := pages (pages (pages fun _ => 0)) pt

theorem pages_empty (f : α → Multiset Nat) (pa : Nat) : pages f (Table.empty pa) = {pa} := by
  simp [pages, Table.empty]

theorem nodes_empty (pa : Nat) : nodes (Table.empty pa) = {pa} := pages_empty _ pa

theorem pages_put (f : α → Multiset Nat) (t : Table α) (i : Nat) (o : Option α) (hi : i < 512) :
    pages f (t.put i o) + (t.slot i).elim 0 f = pages f t + o.elim 0 f := by
  simp only [pages, Table.put, add_assoc]
  rw [StateWp.sum_update (Finset.range 512) (fun o => o.elim 0 f) t.slot i o (by simpa using hi)]

theorem pages_put_none (f : α → Multiset Nat) (t : Table α) (i : Nat) (c : α) (hi : i < 512)
    (h : t.slot i = none) : pages f (t.put i (some c)) = pages f t + f c := by
  simpa [h] using pages_put f t i (some c) hi

/-- Replacing a subtable by one that has the pages `S` more. -/
theorem pages_put_some (f : α → Multiset Nat) (t : Table α) (i : Nat) (c c' : α)
    (S : Multiset Nat) (hi : i < 512) (h : t.slot i = some c) (hf : f c' = f c + S) :
    pages f (t.put i (some c')) = pages f t + S := by
  have hp := pages_put f t i (some c') hi
  simp only [h, Option.elim_some, hf] at hp
  apply add_right_cancel (b := f c)
  rw [hp]
  abel

/-- One round of the loop in `walk`. -/
def descend (alloc : Bool) (t : Table (Table α)) (i : Nat) :
    KM (Option (Table α) × Table (Table α)) :=
  match t.slot i with
  | some c => pure (some c, t)
  | none =>
    if alloc then do
      match ← kalloc with
      | none => pure (none, t)
      | some pa =>
        memset pa 0 pgsize
        pure (some (Table.empty pa), t.put i (some (Table.empty pa)))
    else pure (none, t)

/-- `walk`, returning the table with any page-table pages it created and whether
the address of the entry was found. -/
def walk (pt : PageTable) (va : Nat) (alloc : Bool) : KM (PageTable × Bool) :=
  if maxva ≤ va then throw .walk
  else do
    let (c, pt) ← descend alloc pt (px 2 va)
    match c with
    | none => pure (pt, false)
    | some t₁ =>
      let (c, t₁) ← descend alloc t₁ (px 1 va)
      pure (pt.put (px 2 va) (some t₁), c.isSome)

theorem descend_wp (f : Table α → Multiset Nat) (hf : ∀ pa, f (Table.empty pa) = {pa})
    (t : Table (Table α)) (i : Nat) (hi : i < 512) (k : Kmem) :
    wp (descend true t i) (fun r k' => Moves k (pages f t) k' (pages f r.2) ∧
      match r.1 with
      | none => r.2 = t
      | some c => r.2.slot i = some c ∧
          (r.2 = t ∨ t.slot i = none ∧ ∃ pa, c = Table.empty pa ∧ r.2 = t.put i (some c))) k := by
  unfold descend
  cases hs : t.slot i with
  | some c =>
    rw [wp_pure]
    exact ⟨Moves.refl k _, hs, .inl rfl⟩
  | none =>
    simp only [if_true, wp_bind]
    refine (kalloc_wp k).mono ?_
    intro r k' hm
    cases r with
    | none =>
      rw [wp_pure]
      exact ⟨by simpa using hm.add (pages f t), rfl⟩
    | some pa =>
      simp only [wp_bind, memset, wp_modify, wp_pure]
      refine ⟨?_, by simp, .inr ⟨trivial, pa, rfl, trivial⟩⟩
      have h := (hm.add (pages f t)).trans (Moves.of_bytes k' _ (fill k'.bytes pa pgsize 0))
      refine h.of_eq (zero_add _).symm ?_
      rw [pages_put_none f t i _ hi hs, hf, pageOf_some, add_comm]

/-- Linking an empty table where there was none is invisible to any lookup that
finds nothing in an empty table. -/
theorem bind_put_empty (t : Table (Table α)) (i j pa : Nat) (g : Table α → Option β)
    (h : t.slot i = none) (hg : g (Table.empty pa) = none) :
    ((t.put i (some (Table.empty pa))).slot j).bind g = (t.slot j).bind g := by
  rw [Table.put_slot]
  split
  · next hj => simp [hj, h, hg]
  · rfl

/-- Work below one entry of a table, seen from the whole table. -/
theorem Moves.below (f : α → Multiset Nat) (t : Table α) (i : Nat) (c c' : α) (hi : i < 512)
    (hs : t.slot i = some c) (h : Moves k (f c) k' (f c')) :
    Moves k (pages f t) k' (pages f (t.put i (some c'))) := by
  have hm : i ∈ Finset.range 512 := Finset.mem_range.mpr hi
  have hold : pages f t = f c + ({t.page} +
      ∑ j ∈ (Finset.range 512).erase i, (t.slot j).elim 0 f) := by
    simp only [pages, ← Finset.add_sum_erase _ _ hm, hs, Option.elim_some]
    abel
  refine (h.add _).of_eq hold ?_
  apply add_right_cancel (b := f c)
  have hp := pages_put f t i (some c') hi
  simp only [hs, Option.elim_some] at hp
  rw [hp, hold]
  abel

theorem walk_wp (pt : PageTable) (va : Nat) (hva : va < maxva) (k : Kmem) :
    wp (walk pt va true) (fun r k' => Moves k (nodes pt) k' (nodes r.1) ∧
      (∀ v, r.1.map v = pt.map v) ∧ (r.2 = true → r.1.reaches (va / 4096) = true)) k := by
  have hpx : ∀ level, px level (va / 4096 * 4096) = px level va := by
    intro level
    simp [px_page]
  rw [walk, if_neg (by omega), wp_bind]
  refine (descend_wp (pages (pages fun _ => 0)) (pages_empty _) pt (px 2 va) (px_lt 2 va) k).mono ?_
  rintro ⟨c, pt'⟩ k' ⟨hm, hc⟩
  cases c with
  | none =>
    simp only at hc
    subst hc
    rw [wp_pure]
    exact ⟨hm, fun _ => rfl, by simp⟩
  | some t₁ =>
    obtain ⟨hslot, hext⟩ := hc
    have hmap : ∀ v, pt'.map v = pt.map v := by
      intro v
      rcases hext with rfl | ⟨hnone, pa, rfl, rfl⟩
      · rfl
      · exact bind_put_empty pt _ _ pa _ hnone rfl
    simp only [wp_bind]
    refine (descend_wp (pages fun _ => 0) (pages_empty _) t₁ (px 1 va) (px_lt 1 va) k').mono ?_
    rintro ⟨c, t₁'⟩ k'' ⟨hm', hc⟩
    rw [wp_pure]
    have hmoves := hm.trans (Moves.below _ pt' (px 2 va) t₁ t₁' (px_lt 2 va) hslot hm')
    refine ⟨hmoves, ?_, ?_⟩
    · intro v
      rw [← hmap v]
      simp only [Table.map, Table.put_slot]
      split
      · next hv =>
        rw [hv, hslot]
        cases c with
        | none => simp only at hc; rw [hc]
        | some t₀ =>
          rcases hc.2 with rfl | ⟨hnone, pa, rfl, rfl⟩
          · rfl
          · exact bind_put_empty t₁ _ _ pa _ hnone rfl
      · rfl
    · intro hfound
      cases c with
      | none => simp at hfound
      | some t₀ =>
        have hslot₁ : t₁'.slot (px 1 va) = some t₀ := hc.1
        simp [Table.reaches, hpx, hslot₁]

/-- Without allocation the walk only looks. -/
theorem walk_lookup (pt : PageTable) (va : Nat) (hva : va < maxva) (k : Kmem) :
    walk pt va false k = .ok ((pt, pt.reaches (va / 4096)), k) := by
  have hpx : ∀ level, px level (va / 4096 * 4096) = px level va := by
    intro level
    simp [px_page]
  rw [walk, if_neg (by omega)]
  simp only [descend, Table.reaches, hpx]
  cases h₂ : pt.slot (px 2 va) with
  | none => rfl
  | some t₁ =>
    cases h₁ : t₁.slot (px 1 va) with
    | none =>
      have he := Table.put_self pt (px 2 va) (some t₁) h₂
      simp [h₁, pure, StateT.pure, bind, StateT.bind, Except.bind, Except.pure, he]
    | some t₀ =>
      have he := Table.put_self pt (px 2 va) (some t₁) h₂
      simp [h₁, pure, StateT.pure, bind, StateT.bind, Except.bind, Except.pure, he]

theorem store_map (pt : PageTable) (v w : Nat) (e : Option Pte) (hv : v < maxPage)
    (hw : w < maxPage) (hr : pt.reaches v = true) :
    (pt.store v e).map w = if w = v then e else pt.map w := by
  have hinj : px 2 (w * 4096) = px 2 (v * 4096) → px 1 (w * 4096) = px 1 (v * 4096) →
      px 0 (w * 4096) = px 0 (v * 4096) → w = v := by
    intro h₂ h₁ h₀
    simp only [maxPage] at hv hw
    have h := px_inj (a := w * 4096) (b := v * 4096) (by norm_num; omega) (by norm_num; omega)
      h₂ h₁ h₀
    omega
  simp only [Table.reaches] at hr
  cases h₂ : pt.slot (px 2 (v * 4096)) with
  | none => simp [h₂] at hr
  | some t₁ =>
    cases h₁ : t₁.slot (px 1 (v * 4096)) with
    | none => simp [h₂, h₁] at hr
    | some t₀ =>
      by_cases hwv : w = v
      · subst hwv
        simp [Table.store, Table.map, h₂, h₁]
      · simp only [Table.store, Table.map, h₂, h₁, Table.put_slot, if_neg hwv]
        by_cases e₂ : px 2 (w * 4096) = px 2 (v * 4096)
        · by_cases e₁ : px 1 (w * 4096) = px 1 (v * 4096)
          · have e₀ : px 0 (w * 4096) ≠ px 0 (v * 4096) := fun h => hwv (hinj e₂ e₁ h)
            simp [e₂, e₁, e₀, h₂, h₁, Table.put_slot]
          · simp [e₂, e₁, h₂, Table.put_slot]
        · simp [e₂]

theorem reaches_of_map (pt : PageTable) (v : Nat) (e : Pte) (he : pt.map v = some e) :
    pt.reaches v = true := by
  simp only [Table.map] at he
  simp only [Table.reaches]
  cases h₂ : pt.slot (px 2 (v * 4096)) with
  | none => simp [h₂] at he
  | some t₁ =>
    cases h₁ : t₁.slot (px 1 (v * 4096)) with
    | none => simp [h₂, h₁] at he
    | some t₀ => simp [h₁]

/-- Leaf entries occupy no page-table page. -/
theorem store_nodes (pt : PageTable) (v : Nat) (e : Option Pte) :
    nodes (pt.store v e) = nodes pt := by
  have hz : ∀ o : Option Pte, o.elim (0 : Multiset Nat) (fun _ => 0) = 0 := by
    intro o
    cases o <;> rfl
  cases h₂ : pt.slot (px 2 (v * 4096)) with
  | none => simp only [Table.store, h₂]
  | some t₁ =>
    cases h₁ : t₁.slot (px 1 (v * 4096)) with
    | none => simp only [Table.store, h₂, h₁]
    | some t₀ =>
      simp only [Table.store, h₂, h₁]
      have h₀ := pages_put (fun _ : Pte => 0) t₀ (px 0 (v * 4096)) e (px_lt _ _)
      rw [hz, hz, add_zero] at h₀
      have h := pages_put_some (pages fun _ : Pte => 0) t₁ (px 1 (v * 4096)) t₀ _ 0 (px_lt _ _) h₁ h₀
      exact (pages_put_some (pages (pages fun _ : Pte => 0)) pt (px 2 (v * 4096)) t₁ _ 0
        (px_lt _ _) h₂ h).trans (add_zero _)

/-- The loop of `mappages`, by the number of pages still to map. -/
def mapLoop : Nat → PageTable → Nat → Nat → Perm → KM (PageTable × Bool)
  | 0, pt, _, _, _ => pure (pt, true)
  | n + 1, pt, a, pa, perm => do
    let (pt, found) ← walk pt a true
    if found = false then pure (pt, false)
    else if (pt.map (a / pgsize)).isSome then throw .mappagesRemap
    else mapLoop n (pt.store (a / pgsize) (some ⟨pa, perm⟩)) (a + pgsize) (pa + pgsize) perm

def mappages (pt : PageTable) (va size pa : Nat) (perm : Perm) : KM (PageTable × Bool) :=
  if va % pgsize ≠ 0 then throw .mappagesVa
  else if size % pgsize ≠ 0 then throw .mappagesSize
  else if size = 0 then throw .mappagesEmpty
  else mapLoop (size / pgsize) pt va pa perm

/-- Mapping one unmapped page succeeds or leaves every leaf entry as it was. -/
theorem mappages_wp (pt : PageTable) (v pa : Nat) (perm : Perm) (hv : v < 67108864)
    (hnone : pt.map v = none) (k : Kmem) :
    wp (mappages pt (v * 4096) pgsize pa perm) (fun r k' => Moves k (nodes pt) k' (nodes r.1) ∧
      ∀ w < maxPage, r.1.map w = if r.2 = true ∧ w = v then some ⟨pa, perm⟩ else pt.map w) k := by
  have hdiv : v * 4096 / 4096 = v := by omega
  have hmax : v < maxPage := lt_maxPage hv
  have hva : v * 4096 < maxva := lt_maxva hv
  simp only [mappages, pgsize, Nat.mul_mod_left, Nat.mod_self, ne_eq, not_true_eq_false,
    if_false, show (4096 : Nat) ≠ 0 by decide, Nat.div_self (show 0 < 4096 by decide), mapLoop,
    wp_bind]
  refine (walk_wp pt (v * 4096) hva k).mono ?_
  rintro ⟨pt', found⟩ k' ⟨hm, hmap, hreach⟩
  cases found with
  | false =>
    rw [if_pos rfl, wp_pure]
    exact ⟨hm, fun w _ => by simpa using hmap w⟩
  | true =>
    have hr := hreach rfl
    simp only [hdiv] at hr ⊢
    have hno : (pt'.map v).isSome = false := by simp [hmap v, hnone]
    simp only [Bool.true_eq_false, if_false, hno, Bool.false_eq_true, wp_pure]
    refine ⟨by rw [store_nodes]; exact hm, ?_⟩
    intro w hw
    rw [store_map pt' v w _ hmax hw hr, hmap w]
    simp

/-- The loop of `uvmunmap`, by the number of pages still to visit. -/
def unmapLoop : Nat → PageTable → Nat → Bool → KM PageTable
  | 0, pt, _, _ => pure pt
  | n + 1, pt, a, doFree => do
    let (pt, found) ← walk pt a false
    if found = false then unmapLoop n pt (a + pgsize) doFree
    else
      match pt.map (a / pgsize) with
      | none => unmapLoop n pt (a + pgsize) doFree
      | some e => do
        if doFree then kfree e.pa
        unmapLoop n (pt.store (a / pgsize) none) (a + pgsize) doFree

def uvmunmap (pt : PageTable) (va npages : Nat) (doFree : Bool) : KM PageTable :=
  if va % pgsize ≠ 0 then throw .uvmunmap else unmapLoop npages pt va doFree

def leafPage (o : Option Pte) : Multiset Nat := o.elim 0 fun e => {e.pa}

/-- The physical pages mapped at the `n` virtual pages from `v`. -/
def rangePages (pt : PageTable) (v n : Nat) : Multiset Nat :=
  ∑ j ∈ Finset.range n, leafPage (pt.map (v + j))

theorem rangePages_succ (pt : PageTable) (v n : Nat) :
    rangePages pt v (n + 1) = leafPage (pt.map v) + rangePages pt (v + 1) n := by
  have hshift : ∑ j ∈ Finset.range n, leafPage (pt.map (v + (j + 1))) =
      ∑ j ∈ Finset.range n, leafPage (pt.map (v + 1 + j)) := by
    apply Finset.sum_congr rfl
    intro j _
    rw [show v + (j + 1) = v + 1 + j by omega]
  rw [rangePages, Finset.sum_range_succ', hshift, add_comm]
  rfl

theorem rangePages_congr_leaf (pt pt' : PageTable) (v n : Nat)
    (h : ∀ w, v ≤ w → w < v + n → leafPage (pt'.map w) = leafPage (pt.map w)) :
    rangePages pt' v n = rangePages pt v n := by
  apply Finset.sum_congr rfl
  intro j hj
  exact h (v + j) (by omega) (by have := Finset.mem_range.mp hj; omega)

theorem rangePages_congr (pt pt' : PageTable) (v n : Nat)
    (h : ∀ w, v ≤ w → w < v + n → pt'.map w = pt.map w) :
    rangePages pt' v n = rangePages pt v n := by
  apply rangePages_congr_leaf
  intro w hlo hhi
  rw [h w hlo hhi]

theorem mem_rangePages {pt : PageTable} {v n w : Nat} {e : Pte} (hlo : v ≤ w) (hhi : w < v + n)
    (he : pt.map w = some e) : e.pa ∈ rangePages pt v n := by
  rw [rangePages, Multiset.mem_sum]
  refine ⟨w - v, Finset.mem_range.mpr (by omega), ?_⟩
  rw [show v + (w - v) = w by omega, he]
  exact Multiset.mem_singleton_self e.pa

/-- The leaf map after the pages from `v` to `v + n` have been unmapped. -/
def cleared (pt : PageTable) (v n w : Nat) : Option Pte :=
  if v ≤ w ∧ w < v + n then none else pt.map w

theorem cleared_succ_of_ne (pt : PageTable) (v n w : Nat) (h : w ≠ v) :
    cleared pt v (n + 1) w = cleared pt (v + 1) n w := by
  unfold cleared
  by_cases hw : v + 1 ≤ w ∧ w < v + 1 + n
  · rw [if_pos hw, if_pos (by omega)]
  · rw [if_neg hw, if_neg (by omega)]

theorem unmapLoop_wp (n : Nat) (pt : PageTable) (v : Nat) (doFree : Bool)
    (hv : v + n ≤ 67108864) (k : Kmem)
    (hs : doFree = true → Sound k (rangePages pt v n)) :
    wp (unmapLoop n pt (v * 4096) doFree) (fun pt' k' => nodes pt' = nodes pt ∧
      (∀ w < maxPage, pt'.map w = cleared pt v n w) ∧
      (if doFree then Frees k (rangePages pt v n) k' else k' = k)) k := by
  induction n generalizing pt v k with
  | zero =>
    rw [unmapLoop, wp_pure]
    refine ⟨rfl, ?_, ?_⟩
    · intro w _
      rw [cleared, if_neg (by omega)]
    · cases doFree with
      | false => rfl
      | true => exact Frees.refl k
  | succ n ih =>
    have hva : v * 4096 < maxva := lt_maxva (by omega)
    have hmax : v < maxPage := lt_maxPage (by omega)
    have hdiv : v * 4096 / 4096 = v := by omega
    have hnext : v * 4096 + pgsize = (v + 1) * 4096 := by simp only [pgsize]; omega
    have hv' : v + 1 + n ≤ 67108864 := by omega
    simp only [unmapLoop, wp_bind]
    refine wp_of_eq (walk_lookup pt (v * 4096) hva k) ?_
    simp only [pgsize, hdiv] at hnext ⊢
    rw [hnext]
    cases he : pt.map v with
    | none =>
      have hskip : wp (unmapLoop n pt ((v + 1) * 4096) doFree) (fun pt' k' => nodes pt' = nodes pt ∧
          (∀ w < maxPage, pt'.map w = cleared pt v (n + 1) w) ∧
          (if doFree then Frees k (rangePages pt v (n + 1)) k' else k' = k)) k := by
        have hr : rangePages pt v (n + 1) = rangePages pt (v + 1) n := by
          rw [rangePages_succ, he]
          simp [leafPage]
        rw [hr] at hs ⊢
        refine (ih pt (v + 1) hv' k hs).mono ?_
        rintro pt' k' ⟨hn, hmap, hmoves⟩
        refine ⟨hn, ?_, hmoves⟩
        intro w hw
        rw [hmap w hw]
        by_cases hwv : w = v
        · subst hwv
          simp [cleared, he]
        · exact (cleared_succ_of_ne pt v n w hwv).symm
      cases pt.reaches v with
      | false => simpa using hskip
      | true => simpa using hskip
    | some e =>
      have hreach := reaches_of_map pt v e he
      have hr : rangePages pt v (n + 1) = {e.pa} + rangePages (pt.store v none) (v + 1) n := by
        rw [rangePages_succ, he, rangePages_congr pt (pt.store v none)]
        · simp [leafPage]
        · intro w hlo hhi
          rw [store_map pt v w none hmax (lt_maxPage (by omega)) hreach,
            if_neg (by omega)]
      simp only [hreach, Bool.true_eq_false, if_false]
      have hrest : ∀ k₁, (doFree = true → Sound k₁ (rangePages (pt.store v none) (v + 1) n)) →
          (if doFree then Frees k {e.pa} k₁ else k₁ = k) →
          wp (unmapLoop n (pt.store v none) ((v + 1) * 4096) doFree)
            (fun pt' k' => nodes pt' = nodes pt ∧
              (∀ w < maxPage, pt'.map w = cleared pt v (n + 1) w) ∧
              (if doFree then Frees k (rangePages pt v (n + 1)) k' else k' = k)) k₁ := by
        intro k₁ hs₁ hk₁
        refine (ih (pt.store v none) (v + 1) hv' k₁ hs₁).mono ?_
        rintro pt' k' ⟨hn, hmap, hmoves⟩
        refine ⟨hn.trans (store_nodes pt v none), ?_, ?_⟩
        · intro w hw
          rw [hmap w hw]
          simp only [cleared]
          rw [store_map pt v w none hmax hw hreach]
          by_cases hwv : w = v
          · subst hwv
            simp
          · rw [if_neg hwv]
            exact (cleared_succ_of_ne pt v n w hwv).symm
        · cases doFree with
          | false =>
            simp only [Bool.false_eq_true, if_false] at hk₁ hmoves ⊢
            rw [hmoves, hk₁]
          | true =>
            simp only [if_true] at hk₁ hmoves ⊢
            rw [hr]
            exact hk₁.trans hmoves
      cases doFree with
      | false => exact hrest k (by simp) (by simp)
      | true =>
        have hsound := hs rfl
        rw [hr] at hsound
        simp only [if_true, wp_bind]
        refine (kfree_wp k e.pa (hsound.ok (by simp))).mono ?_
        intro _ k₁ hk₁
        refine hrest k₁ (fun _ => ?_) (by simpa using hk₁)
        exact hk₁.sound hsound

theorem uvmunmap_wp (pt : PageTable) (v n : Nat) (hv : v + n ≤ 67108864) (k : Kmem) :
    wp (uvmunmap pt (v * 4096) n false) (fun pt' k' => nodes pt' = nodes pt ∧
      (∀ w < maxPage, pt'.map w = cleared pt v n w) ∧ k' = k) k := by
  rw [uvmunmap, if_neg (by simp)]
  simpa using unmapLoop_wp n pt v false hv k (by simp)

theorem uvmunmap_free_wp (pt : PageTable) (v n : Nat) (hv : v + n ≤ 67108864) (k : Kmem)
    (hs : Sound k (rangePages pt v n)) :
    wp (uvmunmap pt (v * 4096) n true) (fun pt' k' => nodes pt' = nodes pt ∧
      (∀ w < maxPage, pt'.map w = cleared pt v n w) ∧ Frees k (rangePages pt v n) k') k := by
  rw [uvmunmap, if_neg (by simp)]
  simpa using unmapLoop_wp n pt v true hv k (fun _ => hs)

/-- One activation of `freewalk`: `below` is what it does with a valid entry. -/
def freeTable (below : α → KM PUnit) (t : Table α) : KM PUnit := do
  forM (List.range 512) fun i =>
    match t.slot i with
    | some c => below c
    | none => pure ⟨⟩
  kfree t.page

/-- `freewalk`: entries of the two upper levels point to tables, a valid entry
of the lowest level is a leaf. -/
def freewalk : PageTable → KM PUnit :=
  freeTable (freeTable (freeTable fun _ => throw .freewalkLeaf))

theorem freeTable_wp (f : α → Multiset Nat) (below : α → KM PUnit) (t : Table α)
    (hbelow : ∀ i < 512, ∀ c, t.slot i = some c → ∀ k, Sound k (f c) →
      wp (below c) (fun _ k' => Frees k (f c) k') k)
    (k : Kmem) (hs : Sound k (pages f t)) :
    wp (freeTable below t) (fun _ k' => Frees k (pages f t) k') k := by
  let share : Nat → Multiset Nat := fun i => (t.slot i).elim 0 f
  have hall : pages f t = {t.page} + ((List.range 512).map share).sum := rfl
  rw [freeTable, wp_bind]
  have hrange : ∀ i ∈ List.range 512, i < 512 := fun i hi => List.mem_range.mp hi
  generalize List.range 512 = l at hall hrange ⊢
  refine wp_forM (fun l k' => (∀ i ∈ l, i < 512) ∧ ∃ D, Frees k D k' ∧
    pages f t = D + ({t.page} + (l.map share).sum)) ?_ ?_ l k ?_
  · rintro i l k₁ ⟨hl, D, hD, htotal⟩
    have htail : ∀ j ∈ l, j < 512 := fun j hj => hl j (List.mem_cons_of_mem i hj)
    rw [List.map_cons, List.sum_cons] at htotal
    cases hi : t.slot i with
    | none =>
      have hz : share i = 0 := by simp [share, hi]
      rw [wp_pure]
      exact ⟨htail, D, hD, by rw [htotal, hz, zero_add]⟩
    | some c =>
      have hc : share i = f c := by simp [share, hi]
      rw [hc] at htotal
      have hsc : Sound k₁ (f c) := by
        rw [htotal] at hs
        refine (hD.sound hs).mono ?_
        rw [add_left_comm]
        exact Multiset.le_add_right _ _
      refine (hbelow i (hl i List.mem_cons_self) c hi k₁ hsc).mono ?_
      intro _ k₂ hm₂
      refine ⟨htail, D + f c, hD.trans hm₂, ?_⟩
      rw [htotal]
      abel
  · rintro k₁ ⟨-, D, hD, htotal⟩
    rw [List.map_nil, List.sum_nil, add_zero] at htotal
    rw [htotal] at hs ⊢
    exact (kfree_wp k₁ t.page ((hD.sound hs).ok (by simp))).mono fun _ k₂ h => hD.trans h
  · exact ⟨hrange, 0, Frees.refl k, by rw [hall, zero_add]⟩

/-- The three indices of a page number built from them. -/
theorem px_join (i j l : Nat) (hi : i < 512) (hj : j < 512) (hl : l < 512) :
    px 2 (((i * 512 + j) * 512 + l) * 4096) = i ∧ px 1 (((i * 512 + j) * 512 + l) * 4096) = j ∧
      px 0 (((i * 512 + j) * 512 + l) * 4096) = l := by
  simp only [px_page, pow_zero, pow_one, Nat.div_one]
  refine ⟨?_, ?_, ?_⟩
  · norm_num
    omega
  · omega
  · omega

/-- With no leaf left, `freewalk` returns and frees exactly the table pages. -/
theorem freewalk_wp (pt : PageTable) (hempty : ∀ v < maxPage, pt.map v = none) (k : Kmem)
    (hs : Sound k (nodes pt)) : wp (freewalk pt) (fun _ k' => Frees k (nodes pt) k') k := by
  refine freeTable_wp (pages (pages fun _ : Pte => 0))
    (freeTable (freeTable fun _ : Pte => throw Panic.freewalkLeaf)) pt ?_ k hs
  intro i hi t₁ h₂ k₁ hs₁
  refine freeTable_wp (pages fun _ : Pte => 0)
    (freeTable fun _ : Pte => throw Panic.freewalkLeaf) t₁ ?_ k₁ hs₁
  intro j hj t₀ h₁ k₂ hs₂
  refine freeTable_wp (fun _ : Pte => 0) (fun _ : Pte => throw Panic.freewalkLeaf) t₀ ?_ k₂ hs₂
  intro l hl e h₀
  have hv : (i * 512 + j) * 512 + l < maxPage := by simp only [maxPage]; omega
  obtain ⟨e₂, e₁, e₀⟩ := px_join i j l hi hj hl
  have hmap := hempty _ hv
  simp [Table.map, e₂, e₁, e₀, h₂, h₁, h₀] at hmap

attribute [irreducible] nodes

end KernelPageTable
