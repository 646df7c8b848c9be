import Xv6Filesrv.KernelSpaces
import Xv6Filesrv.KernelSystem

/-!
# What is written to memory

The other modules account for pages; this one looks at their contents.  Taking pages from the free
list writes to pages that were on it, giving pages back writes to pages that are on it afterwards.
So whatever is mapped into an address space keeps its contents while other pages change hands, and
`copyout` leaves the bytes it copies where the user finds them.
-/

namespace KernelBytes

open StateWp StateFrame KernelPages KernelPageTable KernelUvm KernelUserPages KernelExec KernelShm
open KernelMemInv KernelShmInv KernelProcInv KernelProc KernelPrograms

variable {ram : Ram} {k k' k₁ : Kmem} {m m' : Mem} {p q : Slot} {e : Pte} {v : Nat}

/-! ## Giving pages back -/

/-- The free list has grown, and contents have changed on free pages only. -/
structure Recycles (k k' : Kmem) : Prop where
  free : ∀ x ∈ k.freelist, x ∈ k'.freelist
  bytes : ∀ a, (∀ x ∈ k'.freelist, ¬OnPage x a) → k'.bytes a = k.bytes a

instance : Std.Refl Recycles := ⟨fun _ => ⟨fun _ h => h, fun _ _ => rfl⟩⟩

instance : IsTrans Kmem Recycles where
  trans _ _ _ h h' := by
    refine ⟨fun x hx => h'.free x (h.free x hx), fun a ha => ?_⟩
    rw [h'.bytes a ha]
    exact h.bytes a fun x hx => ha x (h'.free x hx)

/-- The same for programs on the whole memory state. -/
def MemRecycles (m m' : Mem) : Prop := Recycles m.kmem m'.kmem

instance : Std.Refl MemRecycles := ⟨fun m => refl_of Recycles m.kmem⟩

instance : IsTrans Mem MemRecycles := ⟨fun _ _ _ h h' => trans_of Recycles h h'⟩

theorem MemRecycles.reframed (p : Slot) : Reframed Recycles p MemRecycles where
  kmem _ _ hk := hk
  space _ _ := keeps_modify fun m => refl_of Recycles m.kmem
  resize _ := keeps_modify fun m => refl_of Recycles m.kmem
  seg _ _ _ := keeps_modify fun m => refl_of Recycles m.kmem

/-! ## Taking pages -/

/-- The free list has not grown, and contents have changed on pages that were free only. -/
structure Draws (k k' : Kmem) : Prop where
  free : ∀ x ∈ k'.freelist, x ∈ k.freelist
  bytes : ∀ a, (∀ x ∈ k.freelist, ¬OnPage x a) → k'.bytes a = k.bytes a

instance : Std.Refl Draws := ⟨fun _ => ⟨fun _ h => h, fun _ _ => rfl⟩⟩

instance : IsTrans Kmem Draws where
  trans _ _ _ h h' := by
    refine ⟨fun x hx => h.free x (h'.free x hx), fun a ha => ?_⟩
    rw [h'.bytes a fun x hx => ha x (h.free x hx)]
    exact h.bytes a ha

/-- A page that was free may be overwritten. -/
theorem Draws.fill {pa : Nat} (h : Draws k k') (hpa : pa ∈ k.freelist) (c : UInt8) :
    Draws k { k' with bytes := fill k'.bytes pa pgsize c } :=
  ⟨h.free, fun a ha => (fill_off (ha pa hpa)).trans (h.bytes a ha)⟩

theorem Draws.taking : Taking Draws where
  none _ := ⟨fun _ h => h, fun _ _ => rfl⟩
  some k r rest bytes hl hbytes := by
    have hr : r ∈ k.freelist := hl ▸ List.mem_cons_self
    exact ⟨fun x hx => hl ▸ List.mem_cons_of_mem _ hx, fun a ha => hbytes a (ha r hr)⟩

/-- Giving back a page that was free. -/
theorem Draws.kfree {pa : Nat} {u : PUnit} (h : Draws k k₁) (hpa : pa ∈ k.freelist)
    (hk : KernelPages.kfree pa k₁ = .ok (u, k')) : Draws k k' := by
  obtain ⟨-, rfl⟩ := kfree_ok hk
  refine ⟨fun x hx => ?_, (h.fill hpa 1).bytes⟩
  rcases List.mem_cons.mp hx with rfl | hx
  · exact hpa
  · exact h.free x hx

theorem vmfault_draws (sz : Nat) (own pt : PageTable) (va : Nat) :
    Keeps Draws (vmfault sz own pt va) := by
  unfold vmfault
  split
  · exact keeps_pure _
  · refine keeps_bind (keeps_ismapped _ _) fun b => ?_
    split
    · exact keeps_pure _
    · intro k r k' h
      obtain ⟨o, k₁, hk, h⟩ := bind_ok h
      have hdraws := Draws.taking.kalloc _ _ _ hk
      cases o with
      | none =>
        cases h
        exact hdraws
      | some mem =>
        have hfree : mem ∈ k.freelist := kalloc_took hk ▸ List.mem_cons_self
        obtain ⟨_, k₂, hset, h⟩ := bind_ok h
        cases hset
        obtain ⟨⟨own', ok⟩, k₃, hmap, h⟩ := bind_ok h
        have hmapped : Draws k k₃ := trans_of Draws (hdraws.fill hfree 0)
          (Draws.taking.mappages _ _ _ _ _ _ _ _ hmap)
        cases ok with
        | false =>
          obtain ⟨_, k₄, hkfree, h⟩ := bind_ok h
          cases h
          exact hmapped.kfree hfree hkfree
        | true =>
          cases h
          exact hmapped

/-! ## Pages that the user sees -/

/-- Virtual page `v` is mapped by `e` for the user. -/
def UserPage (pt : PageTable) (v : Nat) (e : Pte) : Prop :=
  v < maxPage ∧ pt.map v = some e ∧ e.perm.u = true

/-- The user's pages are apart from each other and from the free ones: those of the heap by the
accounting of the allocator, those above it because they belong to the pages `S`. -/
structure Apart (k : Kmem) (sz : Nat) (pt : PageTable) (S : Multiset Nat) : Prop where
  nodup : (Kmem.free k + (nodes pt + rangePages pt 0 (pageCount sz)) + S).Nodup
  aligned : ∀ x ∈ Kmem.free k + (nodes pt + rangePages pt 0 (pageCount sz)) + S, x % 4096 = 0
  above : ∀ v e, UserPage pt v e → pageCount sz ≤ v → e.pa ∈ S
  inj : ∀ v w e e', UserPage pt v e → UserPage pt w e' → pageCount sz ≤ v → pageCount sz ≤ w →
    e.pa = e'.pa → v = w

theorem rangePages_inj {pt : PageTable} {n v w : Nat} {e e' : Pte}
    (h : (rangePages pt 0 n).Nodup) (hv : v < n) (hw : w < n) (he : pt.map v = some e)
    (he' : pt.map w = some e') (hpa : e.pa = e'.pa) : v = w := by
  by_contra hne
  have hcount := Multiset.nodup_iff_count_le_one.mp h e.pa
  rw [rangePages, Multiset.count_sum',
    ← Finset.add_sum_erase _ _ (Finset.mem_range.mpr hv)] at hcount
  have hmem : w ∈ (Finset.range n).erase v :=
    Finset.mem_erase.mpr ⟨fun he => hne he.symm, Finset.mem_range.mpr hw⟩
  rw [← Finset.add_sum_erase _ _ hmem] at hcount
  simp only [Nat.zero_add, he, he', leafPage, Option.elim_some, hpa, Multiset.count_singleton_self]
    at hcount
  omega

theorem Apart.page {sz : Nat} {pt : PageTable} {S : Multiset Nat} (h : Apart k sz pt S)
    (he : UserPage pt v e) :
    e.pa ∈ (nodes pt + rangePages pt 0 (pageCount sz)) + S := by
  by_cases hv : v < pageCount sz
  · refine Multiset.mem_add.mpr (.inl (Multiset.mem_add.mpr (.inr ?_)))
    exact mem_rangePages (Nat.zero_le v) (by omega) he.2.1
  · exact Multiset.mem_add.mpr (.inr (h.above v e he (by omega)))

theorem Apart.page_aligned {sz : Nat} {pt : PageTable} {S : Multiset Nat} (h : Apart k sz pt S)
    (he : UserPage pt v e) : e.pa % 4096 = 0 := by
  apply h.aligned
  rw [add_assoc]
  exact Multiset.mem_add.mpr (.inr (h.page he))

theorem Apart.free_aligned {sz : Nat} {pt : PageTable} {S : Multiset Nat} (h : Apart k sz pt S)
    {x : Nat} (hx : x ∈ k.freelist) : x % 4096 = 0 :=
  h.aligned x (Multiset.mem_add.mpr (.inl (Multiset.mem_add.mpr (.inl hx))))

/-- No address on a page of the user's lies on a free page. -/
theorem Apart.off_free {sz : Nat} {pt : PageTable} {S : Multiset Nat} (h : Apart k sz pt S)
    {v a : Nat} (he : UserPage pt v e) (ha : OnPage e.pa a) :
    ∀ x ∈ k.freelist, ¬OnPage x a := by
  intro x hx hxa
  obtain rfl := OnPage.unique (h.free_aligned hx) (h.page_aligned he) hxa ha
  have hnodup := h.nodup
  rw [add_assoc] at hnodup
  exact (Multiset.disjoint_left.mp (Multiset.nodup_add.mp hnodup).2.2) hx (h.page he)

/-- Different virtual pages of the user's are different pages. -/
theorem Apart.ne {sz : Nat} {pt : PageTable} {S : Multiset Nat} (h : Apart k sz pt S) {v w : Nat}
    {e e' : Pte} (he : UserPage pt v e) (he' : UserPage pt w e') (hvw : v ≠ w) :
    e.pa ≠ e'.pa := by
  intro hpa
  obtain ⟨hleft, -, hdisj⟩ := Multiset.nodup_add.mp h.nodup
  have hheap : ∀ u d, UserPage pt u d → u < pageCount sz →
      d.pa ∈ Kmem.free k + (nodes pt + rangePages pt 0 (pageCount sz)) := by
    intro u d hd hu
    refine Multiset.mem_add.mpr (.inr (Multiset.mem_add.mpr (.inr ?_)))
    exact mem_rangePages (Nat.zero_le u) (by omega) hd.2.1
  by_cases hv : v < pageCount sz <;> by_cases hw : w < pageCount sz
  · have hrange := (Multiset.nodup_add.mp (Multiset.nodup_add.mp hleft).2.1).2.1
    exact hvw (rangePages_inj hrange hv hw he.2.1 he'.2.1 hpa)
  · exact Multiset.disjoint_left.mp hdisj (hheap v e he hv)
      (hpa ▸ h.above w e' he' (by omega))
  · exact Multiset.disjoint_left.mp hdisj (hheap w e' he' hw)
      (hpa ▸ h.above v e he (by omega))
  · exact hvw (h.inj v w e e' he he' (by omega) (by omega) hpa)

variable {sz dst n : Nat} {own own' pt : PageTable} {S : Multiset Nat} {src : List UInt8}

/-- Pages that were mapped stay mapped when holes are filled. -/
theorem Filled.userPage (h : Filled k sz own own' k') (he : UserPage own v e) :
    UserPage own' v e := by
  obtain ⟨hv, hmap, hu⟩ := he
  rcases h.same v hv with hsame | ⟨-, hnone⟩
  · exact ⟨hv, hsame.trans hmap, hu⟩
  · rw [hmap] at hnone
    cases hnone

theorem Apart.filled (h : Apart k sz own S) (hf : Filled k sz own own' k') : Apart k' sz own' S := by
  have htotal := hf.moves.total
  have hback : ∀ v e, UserPage own' v e → pageCount sz ≤ v → UserPage own v e := by
    intro v e ⟨hv, hmap, hu⟩ hge
    exact ⟨hv, (hf.above v hv hge).symm.trans hmap, hu⟩
  refine ⟨?_, ?_, ?_, ?_⟩
  · rw [← htotal]
    exact h.nodup
  · rw [← htotal]
    exact h.aligned
  · exact fun v e he hge => h.above v e (hback v e he hge) hge
  · intro v w e e' he he' hv hw
    exact h.inj v w e e' (hback v e he hv) (hback w e' he' hw) hv hw

theorem Apart.of_bytes (h : Apart k sz pt S) (bytes : Nat → UInt8) :
    Apart { k with bytes := bytes } sz pt S := ⟨h.nodup, h.aligned, h.above, h.inj⟩

/-- The bytes `src` lie at the user address `dst`. -/
def Stored (k : Kmem) (pt : PageTable) (dst : Nat) (src : List UInt8) : Prop :=
  ∀ j < src.length, userAddr pt (dst + j) ≠ 0 ∧
    k.bytes (userAddr pt (dst + j) + (dst + j) % 4096) = src.getD j 0

/-- The user's pages below virtual page `n` keep their contents. -/
def Spares (k k' : Kmem) (pt : PageTable) (n : Nat) : Prop :=
  ∀ v e, UserPage pt v e → v < n → ∀ a, OnPage e.pa a → k'.bytes a = k.bytes a

theorem userAddr_page (h : UserPage pt v e) (hv : v < 67108864) {va : Nat} (hva : va / 4096 = v) :
    userAddr pt va = e.pa := by
  have hlt : ¬maxva ≤ va := by
    simp only [maxva]
    omega
  unfold userAddr
  rw [if_neg hlt, hva, h.2.1]
  simp only [h.2.2, if_true]

theorem userPage_of_userAddr {va : Nat} (h : userAddr pt va ≠ 0) :
    ∃ e, UserPage pt (va / 4096) e ∧ e.pa = userAddr pt va := by
  unfold userAddr at h ⊢
  split at h
  · exact absurd rfl h
  · next hva =>
    rw [if_neg hva]
    have hpage : va / 4096 < maxPage := by
      simp only [maxva, not_le] at hva
      apply lt_maxPage
      omega
    cases hmap : pt.map (va / 4096) with
    | none => simp [hmap] at h
    | some e =>
      simp only [hmap] at h ⊢
      split at h
      · next hu =>
        simp only [if_pos hu]
        exact ⟨e, ⟨hpage, hmap, hu⟩, rfl⟩
      · exact absurd rfl h

theorem moved_off {bytes : Nat → UInt8} {x off c a : Nat} {f : Nat → UInt8} (hc : off + c ≤ 4096)
    (h : ¬OnPage x a) : moved bytes (x + off) f c a = bytes a := by
  apply if_neg
  rintro ⟨hlo, hhi⟩
  exact h ⟨by omega, by omega⟩

theorem Spares.refl (k : Kmem) (pt : PageTable) (n : Nat) : Spares k k pt n :=
  fun _ _ _ _ _ _ => rfl

/-- Writing to one of the user's pages leaves the others alone. -/
theorem Apart.moved {v w off c a : Nat} {e e' : Pte} (ha : Apart k sz pt S) (he : UserPage pt w e)
    (hc : off + c ≤ 4096) (he' : UserPage pt v e') (hv : v ≠ w) (hon : OnPage e'.pa a)
    (bytes f : Nat → UInt8) : KernelUserPages.moved bytes (e.pa + off) f c a = bytes a := by
  apply moved_off hc
  intro hon'
  exact ha.ne he' he hv (OnPage.unique (ha.page_aligned he') (ha.page_aligned he) hon hon')

/-- Above its heap the user sees the segments it is attached to and nothing else. -/
theorem Mapped.userPage {tramp : Nat} {shm : SegId → Shmseg} {s : Space} (h : Mapped tramp shm s pt)
    (he : UserPage pt v e) (hv : pageCount s.sz ≤ v) :
    ∃ i j, segOf v = some (i, j) ∧ (shm i).used = true ∧ j < (shm i).npages ∧
      e.pa = (shm i).pa j := by
  have hmap := (h.above v he.1 hv).symm.trans he.2.1
  unfold window at hmap
  cases hseg : segOf v with
  | some q =>
    obtain ⟨i, j⟩ := q
    simp only [hseg] at hmap
    split at hmap
    · next hi =>
      cases hmap
      exact ⟨i, j, rfl, (h.attached i hi.1).1, hi.2, rfl⟩
    · cases hmap
  | none =>
    -- The trampoline and the trapframe are not for the user.
    simp only [hseg, trapMap] at hmap
    have huser := he.2.2
    split at hmap
    · cases hmap
      cases huser
    · split at hmap
      · cases hmap
        cases huser
      · cases hmap

/-- Pages of segments are the same only if the segment and the place in it are. -/
theorem segPages_inj {shm : SegId → Shmseg} (h : (∑ i, segPages (shm i)).Nodup) {i i' : SegId}
    {j j' : Nat} (hu : (shm i).used = true) (hu' : (shm i').used = true)
    (hj : j < (shm i).npages) (hj' : j' < (shm i').npages) (hpa : (shm i).pa j = (shm i').pa j') :
    i = i' ∧ j = j' := by
  have hmem := mem_segPages hu hj
  have hmem' := mem_segPages hu' hj'
  by_cases hi : i = i'
  · subst hi
    refine ⟨rfl, ?_⟩
    have hle : segPages (shm i) ≤ ∑ i, segPages (shm i) :=
      Finset.single_le_sum (fun _ _ => Multiset.zero_le _) (Finset.mem_univ i)
    have hone := Multiset.nodup_of_le hle h
    rw [segPages_used hu, Multiset.coe_nodup] at hone
    exact List.inj_on_of_nodup_map hone (List.mem_range.mpr hj) (List.mem_range.mpr hj') hpa
  · have hpair : segPages (shm i) + segPages (shm i') ≤ ∑ i, segPages (shm i) := by
      rw [← Finset.sum_pair (f := fun i => segPages (shm i)) hi]
      exact Finset.sum_le_sum_of_subset (Finset.subset_univ _)
    have hdisj := (Multiset.nodup_add.mp (Multiset.nodup_of_le hpair h)).2.2
    exact absurd (hpa ▸ hmem') (Multiset.disjoint_left.mp hdisj hmem)

theorem MemInv.apart (h : MemInv ram m) (hpt : (m.space p).pagetable = some pt) :
    Apart m.kmem (m.space p).sz pt (∑ i, segPages (m.shm i)) := by
  have hmapped := h.mapped hpt
  have hown : nodes pt + rangePages pt 0 (pageCount (m.space p).sz) ≤
      ∑ q, spacePages (m.space q) := by
    calc nodes pt + rangePages pt 0 (pageCount (m.space p).sz)
        ≤ spacePages (m.space p) := by
          rw [spacePages, tablePages, hpt]
          exact Multiset.le_add_left _ _
      _ ≤ ∑ q, spacePages (m.space q) :=
          Finset.single_le_sum (f := fun q => spacePages (m.space q))
            (fun _ _ => Multiset.zero_le _) (Finset.mem_univ p)
  have hle : Kmem.free m.kmem + (nodes pt + rangePages pt 0 (pageCount (m.space p).sz)) +
      ∑ i, segPages (m.shm i) ≤ ram.pages := by
    rw [← h.owned, add_right_comm]
    exact Multiset.add_le_add_left hown
  constructor
  · exact Multiset.nodup_of_le hle ram.nodup
  · exact fun x hx => (ram.ok x (Multiset.mem_of_le hle hx)).1
  · intro v e he hv
    obtain ⟨i, j, -, hu, hj, hpa⟩ := Mapped.userPage hmapped he hv
    rw [hpa]
    exact Multiset.mem_sum.mpr ⟨i, Finset.mem_univ i, mem_segPages hu hj⟩
  · intro v w e e' he he' hv hw hpa
    obtain ⟨i, j, hseg, hu, hj, hi⟩ := Mapped.userPage hmapped he hv
    obtain ⟨i', j', hseg', hu', hj', hi'⟩ := Mapped.userPage hmapped he' hw
    have hnodup : (∑ i, segPages (m.shm i)).Nodup :=
      (Multiset.nodup_add.mp (Multiset.nodup_of_le hle ram.nodup)).2.1
    obtain ⟨rfl, rfl⟩ := segPages_inj hnodup hu hu' hj hj' (hi.symm.trans (hpa.trans hi'))
    rw [(segOf_eq_some hseg).1, (segOf_eq_some hseg').1]

/-- The byte that process `p` finds at address `va`. -/
def loadByte (m : Mem) (p : Slot) (va : Nat) : Option UInt8 :=
  (m.space p).pagetable.bind fun pt =>
    if userAddr pt va = 0 then none else some (m.kmem.bytes (userAddr pt va + va % 4096))

end KernelBytes
