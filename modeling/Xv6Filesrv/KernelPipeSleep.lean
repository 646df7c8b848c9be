import Xv6Filesrv.KernelPipeRuns

/-!
# Sleeping at a pipe

As long as nobody is killed, a process sleeps at a pipe only while it has to: a reader while the
pipe is empty, a writer while it is full.  A writer that is killed leaves without waking the
readers, so that one of them may sleep on with bytes in the pipe.
-/

namespace KernelPipe

open Function (update update_of_ne update_self)

variable {ι : Type} {s s' : State ι} {e : Option (Event ι)} {es : List (Event ι)} {p q : ι}

@[simp] theorem wakeReader_asleep {c : Call} {n : Int} : c.wakeReader ≠ .waiting n .asleep := by
  unfold Call.wakeReader
  split
  · simp
  · next hne => exact hne n

@[simp] theorem wakeWriter_asleep {c : Call} {n : Int} {i : Nat} :
    c.wakeWriter ≠ .writing n i .asleep := by
  unfold Call.wakeWriter
  split
  · simp
  · next hne => exact hne n i

@[simp] theorem wakeReader_writing {c : Call} {n : Int} {i : Nat} {pt : Point} :
    c.wakeReader = .writing n i pt ↔ c = .writing n i pt := by
  unfold Call.wakeReader
  split <;> simp

theorem wakeWriter_waiting {c : Call} {n : Int} {pt : Point} :
    c.wakeWriter = .waiting n pt ↔ c = .waiting n pt := by
  unfold Call.wakeWriter
  split <;> simp

/-- Who sleeps has a reason, or someone is at work who will wake the sleepers. -/
structure Watched (s : State ι) : Prop where
  readers : ∀ q n, s.call q = .waiting n .asleep →
    (s.pipe.nread = s.pipe.nwrite ∧ s.pipe.writeopen = true) ∨
      ∃ p n i, s.call p = .writing n i .loop
  writers : ∀ q n i, s.call q = .writing n i .asleep →
    (s.pipe.nwrite = s.pipe.nread + 512 ∧ s.pipe.readopen = true) ∨
      ∃ p n i, s.call p = .copying n i

/-- A pipe is not full and empty. -/
theorem full_ne_empty {r w : UInt32} (he : r = w) : w ≠ r + 512 := by
  subst he
  intro hf
  have := RingBuffer.count_eq_zero.mpr (rfl : r = r)
  have := (RingBuffer.count_eq (k := 512) (by decide)).mpr hf
  omega

/-- While a writer is at work, the writers that sleep do so because the pipe is full. -/
theorem Watched.full (h : Watched s) (hshape : Shape s) {n m : Int} {i j : Nat}
    (hp : s.call p = .writing n i .loop) (hq : s.call q = .writing m j .asleep) :
    s.pipe.nwrite = s.pipe.nread + 512 ∧ s.pipe.readopen = true := by
  rcases h.writers q m j hq with hreason | ⟨p', n', i', hp'⟩
  · exact hreason
  · have hpp := hshape.alone (.inl ⟨n, i, hp⟩) (.inr (.inr ⟨n', i', hp'⟩))
    rw [hpp, hp'] at hp
    cases hp

/-- While a reader is at work, the readers that sleep do so because the pipe is empty. -/
theorem Watched.empty (h : Watched s) (hshape : Shape s) (hp : Looping s p)
    (hr : (s.call p).isReading = true) {m : Int} (hq : s.call q = .waiting m .asleep) :
    s.pipe.nread = s.pipe.nwrite ∧ s.pipe.writeopen = true := by
  rcases h.readers q m hq with hreason | ⟨p', n', i', hp'⟩
  · exact hreason
  · have hpp := hshape.alone hp (.inl ⟨n', i', hp'⟩)
    rw [hpp, hp'] at hr
    cases hr

theorem Watched.enter [DecidableEq ι] (h : Watched s) {c : Call}
    (hr : ∀ n, c = .waiting n .asleep → s.pipe.nread = s.pipe.nwrite ∧ s.pipe.writeopen = true)
    (hw : ∀ n i, c ≠ .writing n i .asleep) (hloop : ∀ n i, s.call p ≠ .writing n i .loop)
    (hcopy : ∀ n i, s.call p ≠ .copying n i) : Watched (s.enter p c) := by
  constructor
  · intro q m hq
    obtain ⟨_, hc⟩ | ⟨_, hc⟩ := call_enter hq
    · exact .inl (hr m hc)
    · rcases h.readers q m hc with hreason | ⟨p', n, i, hp'⟩
      · exact .inl hreason
      · refine .inr ⟨p', n, i, (update_of_ne ?_ ..).trans hp'⟩
        rintro rfl
        exact hloop n i hp'
  · intro q m j hq
    obtain ⟨_, hc⟩ | ⟨_, hc⟩ := call_enter hq
    · exact absurd hc (hw m j)
    · rcases h.writers q m j hc with hreason | ⟨p', n, i, hp'⟩
      · exact .inl hreason
      · refine .inr ⟨p', n, i, (update_of_ne ?_ ..).trans hp'⟩
        rintro rfl
        exact hcopy n i hp'

/-- The lock is nothing that sleepers look at. -/
theorem Watched.relock (h : Watched s) (lock : Option ι) : Watched { s with lock := lock } :=
  ⟨h.readers, h.writers⟩

variable [DecidableEq ι]

theorem Watched.step (h : Watched s) (hshape : Shape s) (hm : Move s e s')
    (hk : ∀ p, s'.killed p = false) : Watched s' := by
  cases hm with
  | beginWrite p n hp _ | beginRead p n hp _ =>
    exact h.enter (by simp) (by simp) (by simp [hp]) (by simp [hp])
  | lockWrite p hp hl | lockRead p hp hl =>
    exact (h.relock (some p)).enter (by simp) (by simp) (by simp [hp]) (by simp [hp])
  | quitWrite p hp hq =>
    -- nobody is killed, so the read end is closed and there are no readers
    have hclosed : s.pipe.readopen = false := by
      rcases hq with hclosed | hkp
      · exact hclosed
      · exact absurd ((hk p).symm.trans hkp) Bool.false_ne_true
    constructor
    · intro q m hq
      have hopen := hshape.reading q (congrArg Call.isReading (call_enter_ne hq (by simp)))
      exact absurd (hclosed.symm.trans hopen) Bool.false_ne_true
    · intro q m j hq
      have hopen := (h.full hshape hp (call_enter_ne hq (by simp))).2
      exact absurd (hclosed.symm.trans hopen) Bool.false_ne_true
  | sleepWrite p hp ho hf =>
    constructor
    · exact fun q m hq => absurd (call_enter_ne hq (by simp)) wakeReader_asleep
    · exact fun q m j hq => .inl ⟨hf, ho⟩
  | push p c hp hf =>
    constructor
    · exact fun q m hq => .inr ⟨p, _, _, update_self ..⟩
    · exact fun q m j hq => absurd (h.full hshape hp (call_enter_ne hq (by simp))).1 hf
  | wrote p hp =>
    constructor
    · exact fun q m hq => absurd (call_enter_ne hq (by simp)) wakeReader_asleep
    · exact fun q m j hq =>
        .inl (h.full hshape hp (wakeReader_writing.mp (call_enter_ne hq (by simp))))
  | quitRead p hp hkp => exact absurd ((hk p).symm.trans hkp) Bool.false_ne_true
  | sleepRead p hp he ho =>
    exact (h.relock none).enter (fun _ _ => ⟨he, ho⟩) (by simp) (by simp [hp]) (by simp [hp])
  | startCopy p hp _ => exact h.enter (by simp) (by simp) (by simp [hp]) (by simp [hp])
  | pop p hp he =>
    constructor
    · intro q m hq
      have hempty := h.empty hshape (.inr (.inr ⟨_, _, hp⟩)) (by rw [hp]; rfl)
        (call_enter_ne hq (by simp))
      exact absurd hempty.1 he
    · exact fun q m j hq => .inr ⟨p, _, _, update_self ..⟩
  | readOut p v hp _ _ =>
    constructor
    · exact fun q m hq => .inl (h.empty hshape (.inr (.inr ⟨_, _, hp⟩)) (by rw [hp]; rfl)
        (wakeWriter_waiting.mp (call_enter_ne hq (by simp))))
    · exact fun q m j hq => absurd (call_enter_ne hq (by simp)) wakeWriter_asleep
  | kill p => exact absurd ((hk p).symm.trans (update_self ..)) Bool.false_ne_true
  | closeWrite _ hnone =>
    constructor
    · exact fun q m hq => absurd hq wakeReader_asleep
    · intro q m j hq
      have hq' := hnone q
      rw [wakeReader_writing.mp hq] at hq'
      cases hq'
  | closeRead _ hnone =>
    constructor
    · intro q m hq
      have hq' := hnone q
      rw [wakeWriter_waiting.mp hq] at hq'
      cases hq'
    · exact fun q m j hq => absurd hq wakeWriter_asleep

/-- Nobody comes back from being killed. -/
theorem Move.killed (hm : Move s e s') (hk : s'.killed p = false) : s.killed p = false := by
  cases hm with
  | kill q =>
    by_cases hq : p = q
    · subst hq
      exact absurd (hk.symm.trans (update_self ..)) Bool.false_ne_true
    · exact (update_of_ne hq ..).symm.trans hk
  | beginWrite _ _ _ _ | beginRead _ _ _ _ | lockWrite _ _ _ | lockRead _ _ _ | quitWrite _ _ _
  | sleepWrite _ _ _ _ | push _ _ _ _ | wrote _ _ | quitRead _ _ _ | sleepRead _ _ _ _
  | startCopy _ _ _ | pop _ _ _ | readOut _ _ _ _ _ | closeWrite _ _ | closeRead _ _ => exact hk

variable {data : Fin pipesize → UInt8}

theorem Run.watched (h : Run (pipealloc data) es s) (hk : ∀ p, s.killed p = false) :
    Watched s := by
  induction h with
  | refl => exact ⟨fun q m hq => (by cases hq), fun q m j hq => (by cases hq)⟩
  | tail h hs ih =>
    exact (ih fun p => hs.move.killed (hk p)).step h.inv.shape hs.move hk

/-- Where nobody was killed and nobody is at work on the pipe, a reader sleeps only while the pipe
is empty and open for writing, and a writer only while it is full and open for reading; so readers
and writers never sleep at the same time. -/
theorem sleepers_have_a_reason (h : Run (pipealloc data) es s) (hk : ∀ p, s.killed p = false)
    (hl : s.lock = none) :
    (∀ p n, s.call p = .waiting n .asleep → s.bytes = [] ∧ s.pipe.writeopen = true) ∧
      (∀ p n i, s.call p = .writing n i .asleep →
        s.bytes.length = pipesize ∧ s.pipe.readopen = true) ∧
      ∀ p q n m i, s.call p = .waiting n .asleep → s.call q ≠ .writing m i .asleep := by
  have hwatched := h.watched hk
  have hshape := h.inv.shape
  have hfree : ∀ p, ¬ Looping s p := by
    intro p hp
    have hlock := (hshape.holds p).mp hp.holds
    rw [hl] at hlock
    cases hlock
  have hread : ∀ p n, s.call p = .waiting n .asleep →
      s.pipe.nread = s.pipe.nwrite ∧ s.pipe.writeopen = true := by
    intro p n hp
    rcases hwatched.readers p n hp with hreason | ⟨q, m, i, hq⟩
    · exact hreason
    · exact absurd (.inl ⟨m, i, hq⟩) (hfree q)
  have hwrite : ∀ p n i, s.call p = .writing n i .asleep →
      s.pipe.nwrite = s.pipe.nread + 512 ∧ s.pipe.readopen = true := by
    intro p n i hp
    rcases hwatched.writers p n i hp with hreason | ⟨q, m, j, hq⟩
    · exact hreason
    · exact absurd (.inr (.inr ⟨m, j, hq⟩)) (hfree q)
  refine ⟨fun p n hp => ?_, fun p n i hp => ?_, fun p q n m i hp hq => ?_⟩
  · obtain ⟨hempty, hopen⟩ := hread p n hp
    refine ⟨?_, hopen⟩
    rw [State.bytes, RingBuffer.count_eq_zero.mpr hempty]
    rfl
  · obtain ⟨hfull, hopen⟩ := hwrite p n i hp
    refine ⟨?_, hopen⟩
    rw [State.bytes, RingBuffer.length_items]
    exact (RingBuffer.count_eq (by decide)).mpr hfull
  · exact full_ne_empty (hread p n hp).1 (hwrite q m i hq).1

/-- A process that reads from a new pipe. -/
theorem run_reader_asleep :
    ∃ s : State Bool, Run (pipealloc fun _ => 0) [.began true] s ∧ s.lock = none ∧
      s.call true = .waiting 1 .asleep ∧ s.call false = .outside ∧ (∀ p, s.killed p = false) ∧
      s.pipe.nread = s.pipe.nwrite ∧ s.pipe.writeopen = true := by
  have h₁ := (Run.refl (s := pipealloc fun _ => 0)).tail (.read true 1 rfl rfl)
  have h₂ := h₁.tail (.lockRead true rfl rfl)
  have h₃ := h₂.tail (.wait true rfl)
  exact ⟨_, h₃, rfl, rfl, rfl, fun _ => rfl, rfl, rfl⟩

theorem first_reader_has_a_reason :
    ∃ s : State Bool, Run (pipealloc fun _ => 0) [.began true] s ∧
      s.call true = .waiting 1 .asleep ∧ s.bytes = [] := by
  obtain ⟨s, h, hl, hq, _, hk, _, _⟩ := run_reader_asleep
  exact ⟨s, h, hq, ((sleepers_have_a_reason h hk hl).1 true 1 hq).1⟩

/-! ## A writer is killed -/

/-- Wherever a reader sleeps at an empty pipe, another process that writes two bytes or more and is
killed after the first leaves the byte in the pipe and the reader asleep, with nobody at work. -/
theorem killed_writer_leaves_reader_asleep (h : Run (pipealloc data) es s) (hl : s.lock = none)
    {m n : Int} (hq : s.call q = .waiting m .asleep) (hempty : s.pipe.nread = s.pipe.nwrite)
    (hopen : s.pipe.writeopen = true) (hp : s.call p = .outside) (hn : 1 < n) (c : UInt8)
    (hk : s.killed p = false) :
    ∃ s', Run s [.began p, .put p c, .returned p (-1)] s' ∧ s'.call q = .waiting m .asleep ∧
      s'.bytes = [c] ∧ s'.lock = none ∧ s'.call p = .outside := by
  have hqp : q ≠ p := by
    rintro rfl
    rw [hp] at hq
    cases hq
  have hreader : s.pipe.readopen = true := h.inv.shape.reading q (by rw [hq]; rfl)
  -- the writer takes the lock, puts its first byte, and finds that it was killed
  let s₁ := s.enter p (.writing n 0 .acquire)
  let s₂ := (s₁.acquire p).enter p (.writing n 0 .loop)
  let s₃ := (s₂.push c).enter p (.writing n 1 .loop)
  let s₄ := kill s₃ p
  have hcall : ∀ {t : State ι} {x : Call}, (t.enter p x).call p = x := update_self ..
  have hkeep : ∀ {t : State ι} {x : Call}, (t.enter p x).call q = t.call q :=
    update_of_ne hqp ..
  have hput : pipewrite s₂ p n 0 (some c) = (s₃, some (.put p c)) := by
    rw [pipewrite, if_pos (by omega), if_neg, if_neg]
    · exact full_ne_empty hempty
    · rintro (hclosed | hkilled)
      · exact Bool.false_ne_true (hclosed.symm.trans hreader)
      · exact Bool.false_ne_true (hk.symm.trans hkilled)
  have hquit : pipewrite s₄ p n 1 none = (s₄.release.enter p .outside,
      some (.returned p (-1))) := by
    rw [pipewrite, if_pos (by omega), if_pos (.inr (update_self ..))]
  have hstep₃ : Step s₂ (some (.put p c)) s₃ := by
    have := Step.put (s := s₂) p (some c) hcall
    rwa [hput] at this
  have hstep₄ : s₄.call p = .writing n 1 .loop := by
    show update s₃.call p (s₃.call p).wakeReader.wakeWriter p = _
    rw [update_self, show s₃.call p = .writing n 1 .loop from hcall]
    rfl
  have hstep₅ : Step s₄ (some (.returned p (-1))) (s₄.release.enter p .outside) := by
    have := Step.put (s := s₄) p none hstep₄
    rwa [hquit] at this
  have hrun : Run s [.began p, .put p c, .returned p (-1)] (s₄.release.enter p .outside) :=
    ((((Run.refl.tail (.write p n hp hopen)).tail (.lockWrite p hcall hl)).tail hstep₃).tail
      (.kill p)).tail hstep₅
  refine ⟨_, hrun, ?_, ?_, rfl, hcall⟩
  · rw [hkeep]
    show update s₃.call p _ q = _
    rw [update_of_ne hqp]
    exact hkeep.trans (hkeep.trans (hkeep.trans hq))
  · have hnone : s.bytes = [] := by
      rw [State.bytes, RingBuffer.count_eq_zero.mpr hempty]
      rfl
    have hroom : RingBuffer.count s₂.pipe.nread s₂.pipe.nwrite ≤ pipesize := h.inv.fifo.room
    have hbytes := (hstep₃.move.bytes hroom).2
    exact hbytes.trans (congrArg (· ++ [c]) hnone)

theorem first_reader_left_asleep :
    ∃ s s' : State Bool, Run (pipealloc fun _ => 0) [.began true] s ∧
      Run s [.began false, .put false 7, .returned false (-1)] s' ∧
      s'.call true = .waiting 1 .asleep ∧ s'.bytes = [7] ∧ s'.lock = none := by
  obtain ⟨s, h, hl, hq, hp, hk, hempty, hopen⟩ := run_reader_asleep
  obtain ⟨s', hrun, hq', hbytes, hl', _⟩ :=
    killed_writer_leaves_reader_asleep h hl hq hempty hopen hp (by decide : (1 : Int) < 2) 7
      (hk false)
  exact ⟨s, s', h, hrun, hq', hbytes, hl'⟩

end KernelPipe
