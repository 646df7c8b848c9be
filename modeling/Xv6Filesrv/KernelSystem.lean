import Xv6Filesrv.KernelProcInv
import Xv6Filesrv.KernelTable

/-!
# Memory along runs of the kernel

The memory invariant joined to the process table: unused slots own no memory and
all others have a page table. A step keeps both as long as the operations that
look at fixed addresses meet the address space they expect (`Careful`): an `exec`
that commits with nothing attached, `sbrk` below the attached segments, `shmat` above the heap.
-/

namespace KernelSystem

open StateWp KernelPages KernelPageTable KernelShm
open KernelMemInv KernelShmInv KernelProcInv KernelProc KernelSteps KernelTable

variable {ram : Ram} {m m' m₁ m₂ : Mem} {o : Op} {p q : Slot} {s s' : Kernel}

/-- A step that leaves the segment table alone, followed by another. -/
theorem SegFreed.after (h₁ : SegFreed m m₁) (hshm : m₁.shm = m.shm) (h₂ : SegFreed m₁ m₂) :
    SegFreed m m₂ := by
  obtain ⟨d₁, hd₁, hseg₁⟩ := h₁
  obtain ⟨d₂, hd₂, hseg₂⟩ := h₂
  refine ⟨d₂ ++ d₁, by rw [hd₂, hd₁, List.append_assoc], ?_⟩
  intro i hi
  have hkept : ∀ x ∈ segPages (m.shm i), x ∉ d₁ := by
    rcases hseg₁ i hi with hk | ⟨-, hgone, -⟩
    · exact hk.2.2.2.2
    · rw [hshm, hi] at hgone
      cases hgone
  have hi₂ := hseg₂ i (by rw [hshm]; exact hi)
  rw [hshm] at hi₂
  rcases hi₂ with ⟨hu, hkey, hn, hpa, hmem⟩ | ⟨hone, hgone, hmem⟩
  · left
    refine ⟨hu, hkey, hn, hpa, ?_⟩
    intro x hx hxd
    rcases List.mem_append.mp hxd with hxd | hxd
    · exact hmem x hx hxd
    · exact hkept x hx hxd
  · right
    refine ⟨hone, hgone, ?_⟩
    intro x hx
    rw [List.count_append, List.count_eq_zero_of_not_mem (hkept x hx)]
    exact hmem x hx

theorem Created.segFreed {np : Slot} {ok : Bool} (h : MemInv ram m) (hc : Created m p np ok m') :
    SegFreed m m' := by
  obtain ⟨d, hd, hmem⟩ := hc.freed
  refine ⟨d, hd, ?_⟩
  intro i hi
  left
  rw [hc.shm]
  refine ⟨hi, rfl, rfl, rfl, ?_⟩
  intro x hx hxd
  exact (MemInv.seg_owned h hx).1 (hmem x hxd)

/-- What `reap` does to the address spaces of the parent `p` and the zombie `q`. -/
structure Reaped (m : Mem) (p q : Slot) (ok : Bool) (m' : Mem) : Prop where
  others : ∀ r, r ≠ p → r ≠ q → m'.space r = m.space r
  table : (m'.space p).pagetable.isSome = true
  size : (m'.space p).sz = (m.space p).sz
  child : m'.space q = if ok then Space.empty else m.space q

theorem reap_wp (h : MemInv ram m) (hpt : (m.space p).pagetable.isSome = true) (hne : p ≠ q)
    (addr : Nat) (xstate : Int) :
    wp (reap p q addr xstate) (fun ok m' => MemInv ram m' ∧ SegFreed m m' ∧ Reaped m p q ok m')
      m := by
  obtain ⟨pt, hpt'⟩ := Option.isSome_iff_exists.mp hpt
  have hcopy : wp (storeStatus p addr xstate)
      (fun _ m₁ => MemInv ram m₁ ∧ OwnStep m p m₁ ∧ (m₁.space p).sz = (m.space p).sz) m := by
    rw [storeStatus]
    split
    · rw [wp_pure]
      exact ⟨h, OwnStep.refl hpt, rfl⟩
    · exact copyoutProc_wp h hpt' addr _
  rw [reap, wp_bind]
  apply hcopy.mono
  intro ok m₁ ⟨h₁, hown, hsz⟩
  cases ok with
  | false =>
    rw [if_pos rfl, wp_pure]
    refine ⟨h₁, OwnStep.segFreed h hown, ?_, hown.table, hsz, ?_⟩
    · intro r hr _
      exact hown.others r hr
    · exact hown.others q hne.symm
  | true =>
    rw [if_neg (by simp), wp_bind]
    apply (freeproc_wp h₁ q).mono
    intro _ m₂ ⟨h₂, hfreeing, hempty, hothers⟩
    rw [wp_pure]
    refine ⟨h₂, SegFreed.after (OwnStep.segFreed h hown) hown.shm
      (Freeing.segFreed hfreeing h₂), ?_, ?_, ?_, hempty⟩
    · intro r hr hrq
      rw [hothers r hrq, hown.others r hr]
    · rw [hothers p hne]
      exact hown.table
    · rw [hothers p hne, hsz]

structure KInv (ram : Ram) (s : Kernel) : Prop where
  mem : MemInv ram s.mem
  free : ∀ q, (s.proc q).state = .unused → s.mem.space q = Space.empty
  table : ∀ q, (s.proc q).state ≠ .unused → (s.mem.space q).pagetable.isSome = true

/-- A size stays, comes from another process or from a program image, or is what
`sbrk` asked for at most. -/
def Resized (o : Op) (p : Slot) (m : Mem) (sz : Nat) : Prop :=
  (∃ r, sz = (m.space r).sz) ∨ pageCount sz ≤ 32768 ∨
    ∃ n t, o = .call (.sbrk n t) ∧ sz ≤ (m.space p).sz + n.toNat

/-- The address space is what the operation takes for granted. -/
def Careful (o : Op) (p : Slot) (m : Mem) : Prop :=
  match o with
  | .call (.exec img argv) => ExecCommits p img argv m → ∀ i, (m.space p).shmVa i = 0
  | .call (.sbrk n _) => Clear m p ((m.space p).sz + n.toNat)
  | .call (.shmat id) => ∀ i, segId id = some i → (m.shm i).used = true →
      (m.space p).shmVa i = 0 → pageCount (m.space p).sz ≤ basePage i
  | _ => True

/-- What a system call on memory does. -/
structure MemoryDone (ram : Ram) (m : Mem) (p : Slot) (c : Call) (m' : Mem) : Prop where
  inv : MemInv ram m'
  freed : SegFreed m m'
  others : ∀ q, q ≠ p → m'.space q = m.space q
  table : (m'.space p).pagetable.isSome = true
  size : Resized (.call c) p m (m'.space p).sz

theorem MemoryDone.of_own {c : Call} (h : MemInv ram m) (hinv : MemInv ram m')
    (hown : OwnStep m p m') (hsize : Resized (.call c) p m (m'.space p).sz) :
    MemoryDone ram m p c m' :=
  ⟨hinv, OwnStep.segFreed h hown, hown.others, hown.table, hsize⟩

theorem MemoryDone.of_kept {c : Call} (hpt : (m.space p).pagetable.isSome = true)
    (hinv : MemInv ram m') (hfreed : SegFreed m m') (hkept : SpaceKept m p m') :
    MemoryDone ram m p c m' :=
  ⟨hinv, hfreed, hkept.others, by rw [hkept.table, hpt], .inl ⟨p, hkept.size⟩⟩

theorem memory_wp (h : MemInv ram m) (hpt : (m.space p).pagetable.isSome = true) {c : Call}
    (hcare : Careful (.call c) p m) {prog : M Int} (hc : c.memory p = some prog) :
    wp prog (fun _ m' => MemoryDone ram m p c m') m := by
  obtain ⟨pt, hpt'⟩ := Option.isSome_iff_exists.mp hpt
  cases c with
  | exec img argv =>
    obtain rfl := Option.some.inj hc
    apply (execProc_wp h hpt' img argv hcare).mono
    intro r m' ⟨hinv, hown, hsz⟩
    apply MemoryDone.of_own h hinv hown
    cases hsz with
    | inl hsz => exact .inl ⟨p, hsz⟩
    | inr hsz => exact .inr (.inl hsz)
  | sbrk n t =>
    obtain rfl := Option.some.inj hc
    apply (sysSbrk_wp h hpt' n t hcare).mono
    intro r m' ⟨hinv, hown, hsz⟩
    exact .of_own h hinv hown (.inr (.inr ⟨n, t, rfl, hsz⟩))
  | shmget key size =>
    obtain rfl := Option.some.inj hc
    apply (sysShmget_wp h key size).mono
    intro r m' ⟨hinv, hfreed, hsame⟩
    exact .of_kept hpt hinv hfreed ⟨fun q _ => by rw [hsame], by rw [hsame], by rw [hsame]⟩
  | shmat id =>
    obtain rfl := Option.some.inj hc
    apply (sysShmat_wp h hpt' id hcare).mono
    intro r m' ⟨hinv, hfreed, hkept⟩
    exact .of_kept hpt hinv hfreed hkept
  | shmdt id =>
    obtain rfl := Option.some.inj hc
    apply (sysShmdt_wp h p id).mono
    intro r m' ⟨hinv, hfreed, hkept⟩
    exact .of_kept hpt hinv hfreed hkept
  | _ => cases hc

theorem setProc_unused {f : Proc → Proc}
    (hf : (f (s.proc p)).state = .unused ↔ (s.proc p).state = .unused) (q : Slot) :
    ((s.setProc p f).proc q).state = .unused ↔ (s.proc q).state = .unused := by
  by_cases hq : q = p
  · subst hq
    rw [setProc_self]
    exact hf
  · rw [setProc_of_ne hq]

theorem goto_unused (s : Kernel) (p : Slot) (pc : Pc) (q : Slot) :
    ((s.goto p pc).proc q).state = .unused ↔ (s.proc q).state = .unused :=
  setProc_unused Iff.rfl q

theorem ret_unused (s : Kernel) (p : Slot) (c : Call) (r : Int) (q : Slot) :
    ((s.ret p c r).proc q).state = .unused ↔ (s.proc q).state = .unused :=
  goto_unused s p .user q

theorem leave_unused (s : Kernel) (p : Slot) (c : Call) (r : Int) (q : Slot) :
    ((s.leave p c r).proc q).state = .unused ↔ (s.proc q).state = .unused :=
  goto_unused s p .user q

theorem effect_unused (f : Search) (x : Proc) :
    (f.effect x).state = .unused ↔ x.state = .unused := by
  by_cases hs : x.state = .sleeping
  · cases f <;> simp [Search.effect, hs]
  · rw [effect_state f hs]

/-- What a step does to memory and to which slots are in use. -/
inductive MemStep (o : Op) (p : Slot) (s s' : Kernel) : Prop
  | quiet (hmem : s'.mem = s.mem)
      (hst : ∀ q, (s'.proc q).state = .unused ↔ (s.proc q).state = .unused)
  | fault {va : Nat} {ok : Bool} (hr : (s.proc p).state = .running)
      (hm : pageFault p va s.mem = .ok (ok, s'.mem))
      (hst : ∀ q, (s'.proc q).state = .unused ↔ (s.proc q).state = .unused)
  | memory {c : Call} {prog : M Int} {r : Int} (hr : (s.proc p).state = .running)
      (hc : c.memory p = some prog) (hm : prog s.mem = .ok (r, s'.mem)) (ho : o = .call c)
      (hst : ∀ q, (s'.proc q).state = .unused ↔ (s.proc q).state = .unused)
  | create {k : Create} {np : Slot} {ok : Bool} (hr : (s.proc p).state = .running)
      (hu : (s.proc np).state = .unused) (hm : copyProc p np k.regs s.mem = .ok (ok, s'.mem))
      (hnp : (s'.proc np).state = .unused ↔ ok = false)
      (hst : ∀ q, q ≠ np → ((s'.proc q).state = .unused ↔ (s.proc q).state = .unused))
  | reap {q : Slot} {addr : Nat} {ok : Bool} (hr : (s.proc p).state = .running)
      (hz : (s.proc q).state = .zombie)
      (hm : reap p q addr (s.proc q).xstate s.mem = .ok (ok, s'.mem))
      (hq : (s'.proc q).state = .unused ↔ ok = true)
      (hst : ∀ r, r ≠ q → ((s'.proc r).state = .unused ↔ (s.proc r).state = .unused))

theorem memStep (ht : Table s) (hs : Step o p s s') : MemStep o p s s' := by
  cases hs with
  | walk _ _ | acquire _ _ _ | mutexFree _ _ _ _ _ | sleepDrop _ _ | pass _ _ _ _ _ | exitDrop _
  | exitSched _ => exact .quiet rfl (goto_unused _ p _)
  | ret _ _ => exact .quiet rfl (ret_unused _ p _ _)
  | answer _ _ _ | mutexCreate _ _ _ | mutexTake _ _ _ _ _ =>
    exact .quiet rfl (leave_unused _ p _ _)
  | dispatch hr hf hl =>
    refine .quiet rfl (setProc_unused ?_)
    rw [hr]
    unfold Proc.resume
    split <;> simp
  | yield hr hp => exact .quiet rfl (setProc_unused (by rw [hr]; simp))
  | sleepSet hr hpc => exact .quiet rfl (setProc_unused (by rw [hr]; simp))
  | exitMark hr hpc =>
    refine .quiet rfl fun q => ?_
    rw [record_proc]
    exact setProc_unused (by rw [hr]; simp) q
  | wake hr hpc hq hl hs hc =>
    refine .quiet rfl fun q => (goto_unused _ p _ q).trans (setProc_unused ?_ q)
    rw [hs]
    simp
  | @found f pid q hr hpc hl hq =>
    exact .quiet rfl fun r => (ret_unused _ p _ _ r).trans (setProc_unused (effect_unused f _) r)
  | link hr hpc =>
    refine .quiet rfl fun q => ?_
    rw [goto_unused, release_proc]
    exact setProc_unused Iff.rfl q
  | reparent hr hpc hq =>
    exact .quiet rfl fun q => (goto_unused _ p _ q).trans (setProc_unused Iff.rfl q)
  | @publish np pid k hr hpc hl =>
    refine .quiet rfl fun q => (goto_unused _ p _ q).trans (setProc_unused ?_ q)
    rw [ht.used p np (by rw [hpc]; rfl)]
    simp
  | fault hr hpc hm => exact .fault hr hm (setProc_unused Iff.rfl)
  | memory hr hpc hc hm ho => exact .memory hr hc hm ho (ret_unused _ p _ _)
  | allocated hr hpc hl hu hm =>
    refine .create hr hu hm ?_ ?_
    · rw [goto_unused, setProc_self]
      simp
    · intro q hq
      rw [goto_unused, setProc_of_ne hq]
      rfl
  | allocFailed hr hpc hl hu hm =>
    refine .create hr hu hm ?_ ?_
    · rw [goto_unused, setProc_self]
      exact iff_of_true rfl rfl
    · intro q hq
      rw [goto_unused, setProc_of_ne hq]
      rfl
  | reap hr hpc hq hl hz hm =>
    refine .reap hr hz hm ?_ ?_
    · rw [leave_unused, setProc_self]
      exact iff_of_true rfl rfl
    · intro r hrq
      rw [leave_unused, setProc_of_ne hrq]
      rfl
  | reapFailed hr hpc hq hl hz hm =>
    refine .reap hr hz hm ?_ ?_
    · rw [leave_unused]
      exact iff_of_false (by rw [setMem_proc, hz]; decide) (by simp)
    · intro r hrq
      rw [leave_unused]
      rfl

/-- Steps that change the address space of one living process at most. -/
theorem KInv.own (h : KInv ram s) (hp : (s.proc p).state ≠ .unused) (hinv : MemInv ram s'.mem)
    (hothers : ∀ q, q ≠ p → s'.mem.space q = s.mem.space q)
    (htable : (s'.mem.space p).pagetable.isSome = true)
    (hst : ∀ q, (s'.proc q).state = .unused ↔ (s.proc q).state = .unused) : KInv ram s' := by
  constructor
  · exact hinv
  · intro q hq
    have hne : q ≠ p := by
      intro he
      exact hp (he ▸ (hst q).mp hq)
    rw [hothers q hne]
    exact h.free q ((hst q).mp hq)
  · intro q hq
    by_cases hne : q = p
    · rw [hne]
      exact htable
    · rw [hothers q hne]
      exact h.table q fun hu => hq ((hst q).mpr hu)

/-- Steps that do not touch memory. -/
theorem KInv.quiet (h : KInv ram s) (hmem : s'.mem = s.mem)
    (hst : ∀ q, (s'.proc q).state = .unused ↔ (s.proc q).state = .unused) : KInv ram s' := by
  constructor
  · rw [hmem]
    exact h.mem
  · intro q hq
    rw [hmem]
    exact h.free q ((hst q).mp hq)
  · intro q hq
    rw [hmem]
    exact h.table q fun hu => hq ((hst q).mpr hu)

/-- What a step does to memory. -/
structure Done (ram : Ram) (o : Op) (p : Slot) (s s' : Kernel) : Prop where
  inv : KInv ram s'
  freed : SegFreed s.mem s'.mem
  sizes : ∀ q, Resized o p s.mem (s'.mem.space q).sz

theorem Done.quiet (h : KInv ram s) (hmem : s'.mem = s.mem)
    (hst : ∀ q, (s'.proc q).state = .unused ↔ (s.proc q).state = .unused) :
    Done ram o p s s' := by
  refine ⟨h.quiet hmem hst, ?_, ?_⟩
  · rw [hmem]
    exact SegFreed.refl s.mem
  · intro q
    rw [hmem]
    exact .inl ⟨q, rfl⟩

theorem resized_of_own (hothers : ∀ r, r ≠ p → m'.space r = m.space r)
    (hsize : Resized o p m (m'.space p).sz) (r : Slot) : Resized o p m (m'.space r).sz := by
  by_cases hr : r = p
  · subst hr
    exact hsize
  · rw [hothers r hr]
    exact .inl ⟨r, rfl⟩

theorem allocated_done {np : Slot} {k : Create} (h : KInv ram s)
    (hr : (s.proc p).state = .running) (hu : (s.proc np).state = .unused) {ok : Bool}
    (hm : copyProc p np k.regs s.mem = .ok (ok, s'.mem))
    (hnp : (s'.proc np).state = .unused ↔ ok = false)
    (hst : ∀ q, q ≠ np → ((s'.proc q).state = .unused ↔ (s.proc q).state = .unused)) :
    Done ram o p s s' := by
  have hsome := h.table p (by rw [hr]; decide)
  obtain ⟨pt, hpt⟩ := Option.isSome_iff_exists.mp hsome
  obtain ⟨hinv, hc⟩ := (copyProc_wp h.mem hpt (h.free np hu) k.regs).post hm
  refine ⟨⟨hinv, ?_, ?_⟩, Created.segFreed h.mem hc, ?_⟩
  · intro q hq
    by_cases hqn : q = np
    · subst hqn
      exact hc.failed (hnp.mp hq)
    · rw [hc.others q hqn]
      exact h.free q ((hst q hqn).mp hq)
  · intro q hq
    by_cases hqn : q = np
    · subst hqn
      exact (hc.child (by simpa using fun hok => hq (hnp.mpr hok))).2.1
    · rw [hc.others q hqn]
      exact h.table q fun hu => hq ((hst q hqn).mpr hu)
  · intro q
    by_cases hqn : q = np
    · subst hqn
      cases ok with
      | true => exact .inl ⟨p, (hc.child rfl).1⟩
      | false =>
        rw [hc.failed rfl]
        exact .inr (.inl (show pageCount Space.empty.sz ≤ 32768 by decide))
    · rw [hc.others q hqn]
      exact .inl ⟨q, rfl⟩

theorem reap_done {addr : Nat} {xstate : Int} (h : KInv ram s)
    (hr : (s.proc p).state = .running) (hz : (s.proc q).state = .zombie) {ok : Bool}
    (hm : reap p q addr xstate s.mem = .ok (ok, s'.mem))
    (hq : (s'.proc q).state = .unused ↔ ok = true)
    (hst : ∀ r, r ≠ q → ((s'.proc r).state = .unused ↔ (s.proc r).state = .unused)) :
    Done ram o p s s' := by
  have hne : p ≠ q := ne_of_state hr hz (by decide)
  have hsome := h.table p (by rw [hr]; decide)
  obtain ⟨hinv, hfreed, hreap⟩ := (reap_wp h.mem hsome hne addr xstate).post hm
  refine ⟨⟨hinv, ?_, ?_⟩, hfreed, ?_⟩
  · intro r hru
    by_cases hrq : r = q
    · subst hrq
      rw [hreap.child, if_pos (hq.mp hru)]
    · have hold := (hst r hrq).mp hru
      have hrp : r ≠ p := ne_of_state hold hr (by decide)
      rw [hreap.others r hrp hrq]
      exact h.free r hold
  · intro r hru
    by_cases hrq : r = q
    · subst hrq
      rw [hreap.child, if_neg (fun hok => hru (hq.mpr hok))]
      exact h.table r (by rw [hz]; decide)
    · by_cases hrp : r = p
      · subst hrp
        exact hreap.table
      · rw [hreap.others r hrp hrq]
        exact h.table r fun hu => hru ((hst r hrq).mpr hu)
  · intro r
    by_cases hrq : r = q
    · subst hrq
      rw [hreap.child]
      cases ok with
      | true => exact .inr (.inl (show pageCount Space.empty.sz ≤ 32768 by decide))
      | false => exact .inl ⟨r, rfl⟩
    · by_cases hrp : r = p
      · subst hrp
        exact .inl ⟨r, hreap.size⟩
      · rw [hreap.others r hrp hrq]
        exact .inl ⟨r, rfl⟩

theorem step_memory (ht : Table s) (h : KInv ram s) (hs : Step o p s s')
    (hcare : Careful o p s.mem) : Done ram o p s s' := by
  cases memStep ht hs with
  | quiet hmem hst => exact .quiet h hmem hst
  | @fault va ok hr hm hst =>
    have hsome := h.table p (by rw [hr]; decide)
    obtain ⟨pt, hpt⟩ := Option.isSome_iff_exists.mp hsome
    obtain ⟨hinv, hown, hsz⟩ := (pageFault_wp h.mem hpt va).post hm
    refine ⟨h.own (p := p) (by rw [hr]; decide) hinv hown.others hown.table hst,
      OwnStep.segFreed h.mem hown, ?_⟩
    exact resized_of_own hown.others (.inl ⟨p, hsz⟩)
  | memory hr hc hm ho hst =>
    subst ho
    have hsome := h.table p (by rw [hr]; decide)
    have hdone := (memory_wp h.mem hsome hcare hc).post hm
    refine ⟨h.own (p := p) (by rw [hr]; decide) hdone.inv hdone.others hdone.table hst,
      hdone.freed, ?_⟩
    exact resized_of_own hdone.others hdone.size
  | create hr hu hm hnp hst => exact allocated_done h hr hu hm hnp hst
  | reap hr hz hm hq hst => exact reap_done h hr hz hm hq hst

/-- The only panic that a careful step can end in is the exit of the first process. -/
theorem stop_exiting {e : Panic} (h : KInv ram s) (hs : Stop o p s e)
    (hcare : Careful o p s.mem) : e = .initExiting := by
  have htable : (s.proc p).state = .running → (s.mem.space p).pagetable.isSome = true := by
    intro hr
    exact h.table p (by rw [hr]; decide)
  cases hs with
  | exit => rfl
  | @fault va _ hr hm =>
    obtain ⟨pt, hpt⟩ := Option.isSome_iff_exists.mp (htable hr)
    exact absurd hm ((pageFault_wp h.mem hpt va).ne_error e)
  | memory hr ho hc hm =>
    subst ho
    exact absurd hm ((memory_wp h.mem (htable hr) hcare hc).ne_error e)
  | @alloc k np _ hr hu hm =>
    obtain ⟨pt, hpt⟩ := Option.isSome_iff_exists.mp (htable hr)
    exact absurd hm ((copyProc_wp h.mem hpt (h.free np hu) k.regs).ne_error e)
  | @reap q addr _ hr hz hm =>
    exact absurd hm ((reap_wp h.mem (htable hr) (ne_of_state hr hz (by decide)) addr _).ne_error e)

end KernelSystem
