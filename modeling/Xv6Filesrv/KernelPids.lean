import Xv6Filesrv.KernelBoot

/-!
# Pids

`allocproc` draws pids from a counter.  As long as the counter does not overflow, no pid is
given twice and the processes in the table have different ones.
-/

namespace KernelPids

open KernelPages KernelMemInv KernelShm KernelProc KernelSteps KernelTable KernelBoot

variable {ram : Ram} {o : Op} {s s' s₀ : Kernel} {p : Slot}

structure Pids (s : Kernel) : Prop where
  next : s.nextpid = s.born.length + 1
  born : ∀ x ∈ s.born, 1 ≤ x ∧ x < s.nextpid
  nodup : s.born.Nodup
  live : ∀ q, (s.proc q).state ≠ .unused → (s.proc q).pid ∈ s.born
  distinct : ∀ q r, (s.proc q).state ≠ .unused → (s.proc r).state ≠ .unused →
    (s.proc q).pid = (s.proc r).pid → q = r

theorem effect_pid (f : Search) (x : Proc) : (f.effect x).pid = x.pid := by
  cases f with
  | kill =>
    simp only [Search.effect]
    split <;> rfl
  | freeze | thaw | getprocstate => rfl

theorem effect_unused (f : Search) (x : Proc) :
    (f.effect x).state = .unused ↔ x.state = .unused := by
  cases f with
  | kill =>
    simp only [Search.effect]
    split
    · next hs => simp_all
    · exact Iff.rfl
  | freeze | thaw | getprocstate => exact Iff.rfl

theorem own_pid {x : Proc} (h : Own s p x) : x.pid = (s.proc p).pid := by
  cases h with
  | resume hr hf =>
    unfold Proc.resume
    split <;> rfl
  | signal hr f pid hp => exact effect_pid f _
  | _ => rfl

/-- A slot in use after a step was in use before, with the same pid, or has just been
given the next pid. -/
theorem step_pid (h : Table s) (hs : Step o p s s') {q : Slot}
    (hq : (s'.proc q).state ≠ .unused) :
    ((s.proc q).state ≠ .unused ∧ (s'.proc q).pid = (s.proc q).pid) ∨
      (∃ k, (s.proc p).pc = .alloc k q.val) ∧ (s'.proc q).pid = s.nextpid ∧
        s'.born = s.nextpid :: s.born := by
  by_cases hqp : q = p
  · subst hqp
    have hown := step_own h hs
    exact .inl ⟨(own_occupied h hown).1, own_pid hown⟩
  · have htouch := step_touch hs hqp
    generalize s'.proc q = x at hq htouch
    cases htouch with
    | same => exact .inl ⟨hq, rfl⟩
    | adopt r => exact .inl ⟨hq, rfl⟩
    | wake hw => exact .inl ⟨by simp [hw], rfl⟩
    | signal f pid hf => exact .inl ⟨fun hu => hq ((effect_unused f _).2 hu), effect_pid f _⟩
    | publish hp _ => exact .inl ⟨by simp [h.used p q hp], rfl⟩
    | alloc hu hb hpc => exact .inr ⟨⟨_, hpc⟩, rfl, hb⟩
    | free hw hl => exact absurd rfl hq

theorem step_born (hs : Step o p s s') :
    (s'.born = s.born ∧ s'.nextpid = s.nextpid) ∨
      (s'.born = s.nextpid :: s.born ∧ s'.nextpid = wrap32 (s.nextpid + 1)) := by
  cases hs with
  | allocated _ _ _ _ _ | allocFailed _ _ _ _ _ => exact .inr ⟨rfl, rfl⟩
  | _ => exact .inl ⟨rfl, rfl⟩

theorem wrap32_of_lt {n : Int} (h₀ : 0 ≤ n) (h : n < 2147483648) : wrap32 n = n := by
  unfold wrap32
  omega

theorem Pids.step (h : Pids s) (ht : Table s) (hs : Step o p s s')
    (hn : s'.born.length < 2147483647) : Pids s' := by
  have hborn := step_born hs
  have hmem : ∀ x ∈ s.born, x ∈ s'.born := by
    intro x hx
    rcases hborn with ⟨hb, -⟩ | ⟨hb, -⟩ <;> simp [hb, hx]
  have hfresh : s.nextpid ∉ s.born := fun hx => absurd (h.born _ hx).2 (lt_irrefl _)
  have hnew : ∀ q r, (s.proc q).state ≠ .unused → (s'.proc q).pid = (s.proc q).pid →
      (s'.proc r).pid = s.nextpid → (s'.proc q).pid ≠ (s'.proc r).pid := by
    intro q r hq hpq hpr he
    rw [hpq, hpr] at he
    exact hfresh (he ▸ h.live q hq)
  refine ⟨?_, ?_, ?_, ?_, ?_⟩
  · have hnext := h.next
    rcases hborn with ⟨hb, hx⟩ | ⟨hb, hx⟩
    · rw [hb, hx, hnext]
    · rw [hb, List.length_cons] at hn
      rw [hb, hx, wrap32_of_lt (by omega) (by omega), hnext, List.length_cons]
      push_cast
      ring
  · have hnext := h.next
    rcases hborn with ⟨hb, hx⟩ | ⟨hb, hx⟩
    · rw [hb, hx]
      exact h.born
    · rw [hb, List.length_cons] at hn
      rw [hb, hx, wrap32_of_lt (by omega) (by omega)]
      intro x hxb
      rcases List.mem_cons.mp hxb with rfl | hxb
      · omega
      · have := h.born x hxb
        omega
  · rcases hborn with ⟨hb, -⟩ | ⟨hb, -⟩ <;> rw [hb]
    · exact h.nodup
    · exact List.nodup_cons.mpr ⟨hfresh, h.nodup⟩
  · intro q hq
    rcases step_pid ht hs hq with ⟨hold, hpid⟩ | ⟨-, hpid, hb⟩
    · rw [hpid]
      exact hmem _ (h.live q hold)
    · rw [hpid, hb]
      exact List.mem_cons_self
  · intro q r hq hr he
    rcases step_pid ht hs hq with ⟨hq₀, hpq⟩ | ⟨⟨k, hkq⟩, hpq, -⟩
    · rcases step_pid ht hs hr with ⟨hr₀, hpr⟩ | ⟨-, hpr, -⟩
      · exact h.distinct q r hq₀ hr₀ (by rw [← hpq, ← hpr, he])
      · exact absurd he (hnew q r hq₀ hpq hpr)
    · rcases step_pid ht hs hr with ⟨hr₀, hpr⟩ | ⟨⟨k', hkr⟩, -, -⟩
      · exact absurd he.symm (hnew r q hr₀ hpr hpq)
      · rw [hkq] at hkr
        exact Fin.ext (Pc.alloc.inj hkr).2

theorem Pids.start (mem : Mem) : Pids (Kernel.start mem) := by
  have hinit : ∀ q, ((Kernel.start mem).proc q).state ≠ .unused → q = 0 := by
    intro q hq
    by_contra hne
    exact hq (by simp [Kernel.start, hne, Proc.free])
  refine ⟨rfl, ?_, by simp [Kernel.start], ?_, ?_⟩
  · intro x hx
    simp only [Kernel.start, List.mem_singleton] at hx ⊢
    omega
  · intro q hq
    rw [hinit q hq]
    exact List.mem_singleton.mpr rfl
  · intro q r hq hr _
    rw [hinit q hq, hinit r hr]

theorem Pids.withFails (h : Pids s) (fails : List Bool) : Pids (s.withFails fails) :=
  ⟨h.next, h.born, h.nodup, h.live, h.distinct⟩

/-- Pids identify processes in every run with fewer than `2 ^ 31 - 1` creations. -/
theorem Pids.reach {ok : Kernel → Action → Prop} (hb : Booted ram s₀) (hr : Reach ok s₀ s)
    (hn : s.born.length < 2147483647) : Pids s := by
  obtain ⟨mem, rfl⟩ := hb.start
  have hinv : Table s ∧ (s.born.length < 2147483647 → Pids s) := by
    refine Reach.invariant (I := fun t => Table t ∧ (t.born.length < 2147483647 → Pids t))
      ⟨Table.start mem, fun _ => Pids.start mem⟩ ?_ hr
    intro t a t' ⟨ht, hp⟩ _ ha
    have hs := act_step ha
    refine ⟨Table.act ht ha, fun hn' => ?_⟩
    have hle : (t.withFails a.fails).born.length ≤ t'.born.length := by
      rcases step_born hs with ⟨hb, -⟩ | ⟨hb, -⟩ <;> simp [hb]
    have hold : Pids t := hp (lt_of_le_of_lt hle hn')
    exact (hold.withFails a.fails).step (Table.withFails ht a.fails) hs hn'
  exact hinv.2 hn

end KernelPids
