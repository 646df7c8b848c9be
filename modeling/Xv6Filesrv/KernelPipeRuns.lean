import Xv6Filesrv.KernelPipe

/-!
# Runs of a pipe

Whatever processes read, write, close and get killed in between: the bytes come out in the order in
which they went in, and nobody sleeps without a reason as long as no writer is killed.
-/

namespace KernelPipe

open Function (update_of_ne update_self)

variable {ι : Type} {s s' : State ι} {e : Option (Event ι)} {es : List (Event ι)} {p q : ι}
  {c : Call}

/-! ## What happened -/

def Event.putByte : Event ι → Option UInt8
  | .put _ c => some c
  | _ => none

def Event.gotByte : Event ι → Option UInt8
  | .got _ c => some c
  | _ => none

/-- The bytes that writers have put into the pipe, in order. -/
def puts (es : List (Event ι)) : List UInt8 := es.filterMap Event.putByte

/-- The bytes that readers have got from the pipe, in order. -/
def gots (es : List (Event ι)) : List UInt8 := es.filterMap Event.gotByte

theorem puts_append (es es' : List (Event ι)) : puts (es ++ es') = puts es ++ puts es' :=
  List.filterMap_append

theorem gots_append (es es' : List (Event ι)) : gots (es ++ es') = gots es ++ gots es' :=
  List.filterMap_append

/-! ## Calls -/

def Call.holds : Call → Bool
  | .writing _ _ pt => pt == .loop
  | .waiting _ pt => pt == .loop
  | .copying _ _ => true
  | .outside => false

/-- How many bytes a call has moved. -/
def Call.progress : Call → Option Nat
  | .writing _ i _ => some i
  | .waiting _ _ => some 0
  | .copying _ i => some i
  | .outside => none

section Wake

variable (c : Call)

@[simp] theorem wakeReader_holds : c.wakeReader.holds = c.holds := by
  unfold Call.wakeReader
  split <;> rfl

@[simp] theorem wakeWriter_holds : c.wakeWriter.holds = c.holds := by
  unfold Call.wakeWriter
  split <;> rfl

@[simp] theorem wakeReader_isWriting : c.wakeReader.isWriting = c.isWriting := by
  unfold Call.wakeReader
  split <;> rfl

@[simp] theorem wakeWriter_isWriting : c.wakeWriter.isWriting = c.isWriting := by
  unfold Call.wakeWriter
  split <;> rfl

@[simp] theorem wakeReader_isReading : c.wakeReader.isReading = c.isReading := by
  unfold Call.wakeReader
  split <;> rfl

@[simp] theorem wakeWriter_isReading : c.wakeWriter.isReading = c.isReading := by
  unfold Call.wakeWriter
  split <;> rfl

@[simp] theorem wakeReader_progress : c.wakeReader.progress = c.progress := by
  unfold Call.wakeReader
  split <;> rfl

@[simp] theorem wakeWriter_progress : c.wakeWriter.progress = c.progress := by
  unfold Call.wakeWriter
  split <;> rfl

end Wake

/-- The lock and the ends of the pipe are as the calls need them. -/
structure Shape (s : State ι) : Prop where
  holds : ∀ p, (s.call p).holds = true ↔ s.lock = some p
  writing : ∀ p, (s.call p).isWriting = true → s.pipe.writeopen = true
  reading : ∀ p, (s.call p).isReading = true → s.pipe.readopen = true

/-- The process is in one of the loops. -/
def Looping (s : State ι) (p : ι) : Prop :=
  (∃ n i, s.call p = .writing n i .loop) ∨ (∃ n, s.call p = .waiting n .loop) ∨
    ∃ n i, s.call p = .copying n i

theorem Looping.holds (h : Looping s p) : (s.call p).holds = true := by
  rcases h with ⟨_, _, h⟩ | ⟨_, h⟩ | ⟨_, _, h⟩ <;>
  · rw [h]
    rfl

/-- Only one process is in a loop at a time. -/
theorem Shape.alone (h : Shape s) (hp : Looping s p) (hq : Looping s q) : p = q := by
  have hlock := (h.holds p).mp hp.holds
  have hlock' := (h.holds q).mp hq.holds
  exact Option.some.inj (hlock.symm.trans hlock')

theorem wakeupRead_holds (s : State ι) (p : ι) :
    (s.wakeupRead.call p).holds = (s.call p).holds := wakeReader_holds (s.call p)

theorem wakeupWrite_holds (s : State ι) (p : ι) :
    (s.wakeupWrite.call p).holds = (s.call p).holds := wakeWriter_holds (s.call p)

theorem Shape.wakeupRead (h : Shape s) : Shape s.wakeupRead :=
  ⟨fun q => by simpa [State.wakeupRead] using h.holds q,
    fun q => by simpa [State.wakeupRead] using h.writing q,
    fun q => by simpa [State.wakeupRead] using h.reading q⟩

theorem Shape.wakeupWrite (h : Shape s) : Shape s.wakeupWrite :=
  ⟨fun q => by simpa [State.wakeupWrite] using h.holds q,
    fun q => by simpa [State.wakeupWrite] using h.writing q,
    fun q => by simpa [State.wakeupWrite] using h.reading q⟩

theorem shape_pipealloc (data : Fin pipesize → UInt8) : Shape (pipealloc data : State ι) :=
  ⟨fun _ => by simp [pipealloc, Call.holds], fun _ _ => rfl, fun _ _ => rfl⟩

variable [DecidableEq ι]

/-- A call goes on, and the lock goes with it. -/
theorem Shape.enter (h : Shape s) (lock : Option ι) (hholds : c.holds = true ↔ lock = some p)
    (hlock : ∀ q, q ≠ p → (lock = some q ↔ s.lock = some q))
    (hw : c.isWriting = true → s.pipe.writeopen = true)
    (hr : c.isReading = true → s.pipe.readopen = true) :
    Shape { s.enter p c with lock := lock } := by
  refine ⟨fun q => ?_, fun q => ?_, fun q => ?_⟩
  · by_cases hq : q = p
    · subst hq
      simpa [State.enter] using hholds
    · simpa [State.enter, hq, hlock q hq] using h.holds q
  · by_cases hq : q = p
    · subst hq
      simpa [State.enter] using hw
    · simpa [State.enter, hq] using h.writing q
  · by_cases hq : q = p
    · subst hq
      simpa [State.enter] using hr
    · simpa [State.enter, hq] using h.reading q

theorem Shape.take (h : Shape s) (hl : s.lock = none) (hc : c.holds = true)
    (hw : c.isWriting = true → s.pipe.writeopen = true)
    (hr : c.isReading = true → s.pipe.readopen = true) : Shape ((s.acquire p).enter p c) := by
  refine h.enter (some p) (iff_of_true hc rfl) (fun q hq => ?_) hw hr
  rw [hl]
  simp [Ne.symm hq]

theorem Shape.leave (h : Shape s) (hp : (s.call p).holds = true) (hc : c.holds = false)
    (hw : c.isWriting = true → s.pipe.writeopen = true)
    (hr : c.isReading = true → s.pipe.readopen = true) : Shape (s.release.enter p c) := by
  refine h.enter none (by simp [hc]) (fun q hq => ?_) hw hr
  rw [(h.holds p).mp hp]
  simp [Ne.symm hq]

theorem Shape.stay (h : Shape s) (hc : c.holds = (s.call p).holds)
    (hw : c.isWriting = true → s.pipe.writeopen = true)
    (hr : c.isReading = true → s.pipe.readopen = true) : Shape (s.enter p c) :=
  h.enter s.lock (by rw [hc]; exact h.holds p) (fun _ _ => Iff.rfl) hw hr

theorem Move.shape (hm : Move s e s') (h : Shape s) : Shape s' := by
  -- what the call of a process says about its end of the pipe
  have hopen : ∀ {p n i pt}, s.call p = .writing n i pt → s.pipe.writeopen = true :=
    fun {p} _ _ _ hp => h.writing p (by rw [hp]; rfl)
  have hopen' : ∀ {p n pt}, s.call p = .waiting n pt → s.pipe.readopen = true :=
    fun {p} _ _ hp => h.reading p (by rw [hp]; rfl)
  cases hm with
  | beginWrite p n hp ho => exact h.stay (by rw [hp]; rfl) (fun _ => ho) (by simp [Call.isReading])
  | beginRead p n hp ho => exact h.stay (by rw [hp]; rfl) (by simp [Call.isWriting]) fun _ => ho
  | lockWrite p hp hl => exact h.take hl rfl (fun _ => hopen hp) (by simp [Call.isReading])
  | lockRead p hp hl => exact h.take hl rfl (by simp [Call.isWriting]) fun _ => hopen' hp
  | quitWrite p hp _ | quitRead p hp _ =>
    exact h.leave (by rw [hp]; rfl) rfl (by simp [Call.isWriting]) (by simp [Call.isReading])
  | sleepWrite p hp _ _ =>
    exact h.wakeupRead.leave (by rw [wakeupRead_holds, hp]; rfl) rfl (fun _ => hopen hp)
      (by simp [Call.isReading])
  | push p c hp _ =>
    have hpush : Shape (s.push c) := ⟨h.holds, h.writing, h.reading⟩
    exact hpush.stay (by simp [State.push, hp, Call.holds]) (fun _ => hopen hp)
      (by simp [Call.isReading])
  | wrote p hp =>
    exact h.wakeupRead.leave (by rw [wakeupRead_holds, hp]; rfl) rfl
      (by simp [Call.isWriting]) (by simp [Call.isReading])
  | sleepRead p hp _ _ =>
    exact h.leave (by rw [hp]; rfl) rfl (by simp [Call.isWriting]) fun _ => hopen' hp
  | startCopy p hp _ =>
    exact h.stay (by rw [hp]; rfl) (by simp [Call.isWriting]) fun _ => hopen' hp
  | pop p hp _ =>
    have hpop : Shape s.pop := ⟨h.holds, h.writing, h.reading⟩
    exact hpop.stay (by simp [State.pop, hp, Call.holds]) (by simp [Call.isWriting])
      fun _ => h.reading p (by rw [hp]; rfl)
  | readOut p v hp _ _ =>
    exact h.wakeupWrite.leave (by rw [wakeupWrite_holds, hp]; rfl) rfl
      (by simp [Call.isWriting]) (by simp [Call.isReading])
  | kill p =>
    have hkill : Shape (s.enter p (s.call p).wakeReader.wakeWriter) :=
      h.stay (by simp) (by simpa using h.writing p) (by simpa using h.reading p)
    exact ⟨hkill.holds, hkill.writing, hkill.reading⟩
  | closeWrite _ hnone =>
    have hw := h.wakeupRead
    refine ⟨hw.holds, fun q hq => ?_, hw.reading⟩
    simp [State.wakeupRead, hnone q] at hq
  | closeRead _ hnone =>
    have hw := h.wakeupWrite
    refine ⟨hw.holds, hw.writing, fun q hq => ?_⟩
    simp [State.wakeupWrite, hnone q] at hq

/-! ## Order -/

/-- A step moves bytes at the ends of the pipe only. -/
theorem Move.bytes (hm : Move s e s')
    (hroom : RingBuffer.count s.pipe.nread s.pipe.nwrite ≤ pipesize) :
    RingBuffer.count s'.pipe.nread s'.pipe.nwrite ≤ pipesize ∧
      gots e.toList ++ s'.bytes = s.bytes ++ puts e.toList := by
  have hsame : s'.pipe.data = s.pipe.data → s'.pipe.nread = s.pipe.nread →
      s'.pipe.nwrite = s.pipe.nwrite → gots e.toList = [] → puts e.toList = [] →
      RingBuffer.count s'.pipe.nread s'.pipe.nwrite ≤ pipesize ∧
        gots e.toList ++ s'.bytes = s.bytes ++ puts e.toList := by
    intro hdata hr hw hg hp
    rw [hr, hw, hg, hp, State.bytes, hdata, hr, hw, List.append_nil]
    exact ⟨hroom, rfl⟩
  cases hm with
  | push p c _ hf =>
    have hlt : RingBuffer.count s.pipe.nread s.pipe.nwrite < pipesize :=
      Nat.lt_of_le_of_ne hroom fun heq => hf ((RingBuffer.count_eq (by decide)).mp heq)
    have hpush : RingBuffer.count s.pipe.nread (s.pipe.nwrite + 1) =
        RingBuffer.count s.pipe.nread s.pipe.nwrite + 1 :=
      RingBuffer.count_push (by simp only [pipesize] at hlt; omega)
    constructor
    · show RingBuffer.count s.pipe.nread (s.pipe.nwrite + 1) ≤ pipesize
      omega
    · show RingBuffer.items _ s.pipe.nread (RingBuffer.count s.pipe.nread (s.pipe.nwrite + 1)) = _
      rw [hpush]
      exact RingBuffer.items_push (by decide) s.pipe.data _ _ c hlt
  | pop p _ he =>
    have hpop := RingBuffer.count_pop he
    constructor
    · show RingBuffer.count (s.pipe.nread + 1) s.pipe.nwrite ≤ pipesize
      omega
    · show s.next :: s.pop.bytes = s.bytes ++ []
      rw [List.append_nil, State.bytes, State.bytes, hpop, RingBuffer.items_pop]
      rfl
  | _ => exact hsame rfl rfl rfl rfl rfl

/-- The bytes that were got and those in the pipe are the bytes that were put, in order. -/
structure Fifo (es : List (Event ι)) (s : State ι) : Prop where
  room : RingBuffer.count s.pipe.nread s.pipe.nwrite ≤ pipesize
  order : gots es ++ s.bytes = puts es

theorem Fifo.step (h : Fifo es s) (hm : Move s e s') : Fifo (es ++ e.toList) s' := by
  obtain ⟨hroom, hbytes⟩ := hm.bytes h.room
  refine ⟨hroom, ?_⟩
  rw [gots_append, puts_append, List.append_assoc, hbytes, ← List.append_assoc, h.order]

/-! ## Counts -/

/-- How many bytes the process has moved since its call began, after one more event. -/
def tally (p : ι) (k : Nat) : Event ι → Nat
  | .began q => if q = p then 0 else k
  | .put q _ => if q = p then k + 1 else k
  | .got q _ => if q = p then k + 1 else k
  | .returned _ _ => k

/-- How many bytes the process has moved since its last call began. -/
def moved (p : ι) (es : List (Event ι)) : Nat := es.foldl (tally p) 0

theorem moved_append (es es' : List (Event ι)) :
    moved p (es ++ es') = es'.foldl (tally p) (moved p es) := by
  rw [moved, List.foldl_append]
  rfl

/-- The calls have counted the bytes that they moved. -/
def Counted (es : List (Event ι)) (s : State ι) : Prop :=
  ∀ p i, (s.call p).progress = some i → moved p es = i

/-- The process `p` has made a step. -/
theorem Counted.next (h : Counted es s) (p : ι)
    (hother : ∀ q, q ≠ p → (s'.call q).progress = (s.call q).progress) (hself : s'.call p = c)
    (hevent : ∀ q, q ≠ p → ∀ k, e.toList.foldl (tally q) k = k)
    (hc : ∀ i, c.progress = some i → e.toList.foldl (tally p) (moved p es) = i) :
    Counted (es ++ e.toList) s' := by
  intro q i hi
  rw [moved_append]
  by_cases hq : q = p
  · subst hq
    rw [hself] at hi
    exact hc i hi
  · rw [hother q hq] at hi
    rw [hevent q hq]
    exact h q i hi

theorem Counted.step (h : Counted es s) (hm : Move s e s') : Counted (es ++ e.toList) s' := by
  -- the other processes: they are woken at most, and the event is not theirs
  have hcalls : ∀ {t : State ι} {p : ι} {c : Call}, (∀ q, (t.call q).progress =
      (s.call q).progress) → ∀ q, q ≠ p → ((t.enter p c).call q).progress =
      (s.call q).progress := by
    intro t p c ht q hq
    rw [← ht q, State.enter]
    simp only [update_of_ne hq]
  have hread : ∀ q, (s.wakeupRead.call q).progress = (s.call q).progress :=
    fun q => wakeReader_progress (s.call q)
  have hwrite : ∀ q, (s.wakeupWrite.call q).progress = (s.call q).progress :=
    fun q => wakeWriter_progress (s.call q)
  have hsame : ∀ {p i}, (s.call p).progress = some i → moved p es = i := fun {p i} => h p i
  cases hm with
  | beginWrite p n hp ho | beginRead p n hp ho =>
    exact h.next p (hcalls fun _ => rfl) (update_self ..)
      (by intro q hq k; simp [tally, Ne.symm hq]) (by simp [Call.progress, tally])
  | lockWrite p hp _ | lockRead p hp _ | sleepRead p hp _ _ | startCopy p hp _ =>
    exact h.next p (hcalls fun _ => rfl) (update_self ..) (fun _ _ _ => rfl)
      fun i hi => hsame (by rw [hp]; exact hi)
  | quitWrite p _ _ | quitRead p _ _ =>
    exact h.next p (hcalls fun _ => rfl) (update_self ..) (fun _ _ _ => rfl)
      (by simp [Call.progress])
  | sleepWrite p hp _ _ =>
    exact h.next p (hcalls hread) (update_self ..) (fun _ _ _ => rfl)
      fun i hi => hsame (by rw [hp]; exact hi)
  | push p _ hp _ | pop p hp _ =>
    refine h.next p (hcalls fun _ => rfl) (update_self ..)
      (by intro q hq k; simp [tally, Ne.symm hq]) fun i hi => ?_
    cases hi
    have hcount := hsame (p := p) (by rw [hp]; rfl)
    simp [tally, hcount]
  | wrote p _ =>
    exact h.next p (hcalls hread) (update_self ..) (fun _ _ _ => rfl)
      (by simp [Call.progress])
  | readOut p _ _ _ _ =>
    exact h.next p (hcalls hwrite) (update_self ..) (fun _ _ _ => rfl)
      (by simp [Call.progress])
  | kill p =>
    refine h.next p (hcalls fun _ => rfl) (update_self ..) (fun _ _ _ => rfl)
      fun i hi => ?_
    rw [wakeWriter_progress, wakeReader_progress] at hi
    exact hsame hi
  | closeWrite _ _ =>
    intro q i hi
    rw [Option.toList_none, List.append_nil]
    exact h q i ((wakeReader_progress (s.call q)).symm.trans hi)
  | closeRead _ _ =>
    intro q i hi
    rw [Option.toList_none, List.append_nil]
    exact h q i ((wakeWriter_progress (s.call q)).symm.trans hi)

/-- Every call has returned `-1` or the number of bytes that it moved. -/
def Returns (es : List (Event ι)) : Prop :=
  ∀ es₁ p (v : Int), es₁ ++ [.returned p v] <+: es → v = -1 ∨ v = moved p es₁

theorem Move.returned {v : Int} (hm : Move s (some (.returned p v)) s') (h : Counted es s) :
    v = -1 ∨ v = moved p es := by
  cases hm with
  | quitWrite _ _ _ | quitRead _ _ _ => exact .inl rfl
  | wrote _ hp => exact .inr (by rw [h p _ (by rw [hp]; rfl)])
  | readOut _ _ hp hv _ =>
    rcases hv with hv | hv
    · exact .inl hv
    · exact .inr (by rw [hv, h p _ (by rw [hp]; rfl)])

theorem Returns.step (h : Returns es) (hc : Counted es s) (hm : Move s e s') :
    Returns (es ++ e.toList) := by
  cases e with
  | none =>
    rw [Option.toList_none, List.append_nil]
    exact h
  | some ev =>
    intro es₁ p v hpre
    rw [Option.toList_some, List.prefix_concat_iff] at hpre
    rcases hpre with heq | hpre
    · obtain ⟨hes, hev⟩ := List.append_inj' heq rfl
      cases hev
      rw [hes]
      exact hm.returned hc
    · exact h es₁ p v hpre

/-! ## Runs -/

structure Inv (es : List (Event ι)) (s : State ι) : Prop where
  shape : Shape s
  fifo : Fifo es s
  counted : Counted es s
  returns : Returns es

theorem Inv.step (h : Inv es s) (hs : Step s e s') : Inv (es ++ e.toList) s' :=
  ⟨hs.move.shape h.shape, h.fifo.step hs.move, h.counted.step hs.move,
    h.returns.step h.counted hs.move⟩

variable {data : Fin pipesize → UInt8}

theorem Run.inv (h : Run (pipealloc data) es s) : Inv es s := by
  induction h with
  | refl =>
    have hzero : RingBuffer.count 0 0 = 0 := RingBuffer.count_eq_zero.mpr rfl
    refine ⟨shape_pipealloc data, ⟨?_, ?_⟩, fun p i hi => (by cases hi), fun es₁ p v hpre => ?_⟩
    · show RingBuffer.count 0 0 ≤ pipesize
      rw [hzero]
      exact Nat.zero_le pipesize
    · simp [gots, puts, State.bytes, pipealloc, hzero, RingBuffer.items]
    · have := hpre.length_le
      simp at this
  | tail _ hs ih => exact ih.step hs

/-- However reads, writes, kills and closes interleave: readers get the bytes in the order in which
writers put them, all but those still in the pipe, of which there are at most `PIPESIZE`; and what a
call returns is `-1` or the number of bytes that it has moved itself. -/
theorem bytes_in_order (h : Run (pipealloc data) es s) :
    gots es ++ s.bytes = puts es ∧ s.bytes.length ≤ pipesize ∧
      ∀ es₁ p (v : Int), es₁ ++ [.returned p v] <+: es → v = -1 ∨ v = moved p es₁ := by
  have hinv := h.inv
  refine ⟨hinv.fifo.order, ?_, hinv.returns⟩
  rw [State.bytes, RingBuffer.length_items]
  exact hinv.fifo.room

/-- One process writes a byte and another one two, and a third process has read two bytes. -/
theorem two_writers_in_order :
    let es : List (Event (Fin 3)) := [.began 0, .put 0 7, .returned 0 1, .began 1, .put 1 8,
      .put 1 9, .returned 1 2, .began 2, .got 2 7, .got 2 8]
    ∃ s, Run (pipealloc fun _ => 0) es s ∧ gots es = [7, 8] ∧ s.bytes = [9] := by
  have h₁ := (Run.refl (s := pipealloc fun _ => 0)).tail (.write (0 : Fin 3) 1 rfl rfl)
  have h₂ := ((h₁.tail (.lockWrite 0 rfl rfl)).tail (.put 0 (some 7) rfl)).tail (.put 0 none rfl)
  have h₃ := (h₂.tail (.write 1 2 rfl rfl)).tail (.lockWrite 1 rfl rfl)
  have h₄ := ((h₃.tail (.put 1 (some 8) rfl)).tail (.put 1 (some 9) rfl)).tail (.put 1 none rfl)
  have h₅ := ((h₄.tail (.read 2 3 rfl rfl)).tail (.lockRead 2 rfl rfl)).tail (.wait 2 rfl)
  have h₆ := (h₅.tail (.copy 2 true rfl)).tail (.copy 2 true rfl)
  exact ⟨_, h₆, rfl, List.append_cancel_left (bytes_in_order h₆).1⟩

/-! ## The end of the bytes -/

/-- A write end that is closed stays closed, and nothing is put any more. -/
theorem Move.closed (hm : Move s e s') (h : Shape s) (hc : s.pipe.writeopen = false) :
    s'.pipe.writeopen = false ∧ puts e.toList = [] := by
  have hnot : ∀ {p n i pt}, s.call p = .writing n i pt → False := by
    intro p n i pt hp
    have hopen := h.writing p (by rw [hp]; rfl)
    exact Bool.false_ne_true (hc.symm.trans hopen)
  cases hm with
  | beginWrite _ _ _ ho => exact absurd (hc.symm.trans ho) Bool.false_ne_true
  | push _ _ hp _ => exact (hnot hp).elim
  | closeWrite _ _ => exact ⟨rfl, rfl⟩
  | _ => exact ⟨hc, rfl⟩

theorem Run.closed (h : Run s es s') (hshape : Shape s) (hc : s.pipe.writeopen = false) :
    Shape s' ∧ s'.pipe.writeopen = false ∧ puts es = [] := by
  induction h with
  | refl => exact ⟨hshape, hc, rfl⟩
  | tail _ hs ih =>
    obtain ⟨hshape', hc', hputs⟩ := ih
    obtain ⟨hc'', hnone⟩ := hs.move.closed hshape' hc'
    refine ⟨hs.move.shape hshape', hc'', ?_⟩
    rw [puts_append, hputs, hnone]
    rfl

@[simp] theorem wakeReader_copying {n : Int} {i : Nat} :
    c.wakeReader = .copying n i ↔ c = .copying n i := by
  unfold Call.wakeReader
  split <;> simp

@[simp] theorem wakeWriter_copying {n : Int} {i : Nat} :
    c.wakeWriter = .copying n i ↔ c = .copying n i := by
  unfold Call.wakeWriter
  split <;> simp

theorem call_enter {c c' : Call} (h : (s.enter p c).call q = c') :
    (q = p ∧ c = c') ∨ (q ≠ p ∧ s.call q = c') := by
  by_cases hq : q = p
  · subst hq
    exact .inl ⟨rfl, (update_self ..).symm.trans h⟩
  · exact .inr ⟨hq, (update_of_ne hq ..).symm.trans h⟩

theorem call_enter_ne {c c' : Call} (h : (s.enter p c).call q = c') (hne : c ≠ c') :
    s.call q = c' := by
  obtain ⟨_, hc⟩ | ⟨_, hc⟩ := call_enter h
  · exact absurd hc hne
  · exact hc

/-- A call that has begun to copy and has copied nothing has found something, or the end. -/
def Found (s : State ι) : Prop :=
  ∀ p n, s.call p = .copying n 0 → s.pipe.nread ≠ s.pipe.nwrite ∨ s.pipe.writeopen = false

theorem Found.step (h : Found s) (hshape : Shape s) (hm : Move s e s') : Found s' := by
  intro q m hq
  cases hm with
  | beginWrite p _ _ _ | beginRead p _ _ _ | lockWrite p _ _ | lockRead p _ _ | quitWrite p _ _
  | quitRead p _ _ | sleepRead p _ _ _ => exact h q m (call_enter_ne hq (by simp))
  | sleepWrite p _ _ _ | wrote p _ =>
    exact h q m (wakeReader_copying.mp (call_enter_ne hq (by simp)))
  | readOut p _ _ _ _ => exact h q m (wakeWriter_copying.mp (call_enter_ne hq (by simp)))
  | push p c hp _ =>
    obtain ⟨_, hc⟩ | ⟨hne, hc⟩ := call_enter hq
    · cases hc
    · exact absurd (hshape.alone (.inr (.inr ⟨m, 0, hc⟩)) (.inl ⟨_, _, hp⟩)) hne
  | startCopy p hp hr =>
    obtain ⟨_, hc⟩ | ⟨_, hc⟩ := call_enter hq
    · exact hr
    · exact h q m hc
  | pop p hp _ =>
    obtain ⟨_, hc⟩ | ⟨hne, hc⟩ := call_enter hq
    · cases hc
    · exact absurd (hshape.alone (.inr (.inr ⟨m, 0, hc⟩)) (.inr (.inr ⟨_, _, hp⟩))) hne
  | kill p =>
    obtain ⟨hqp, hc⟩ | ⟨_, hc⟩ := call_enter hq
    · exact h p m (wakeReader_copying.mp (wakeWriter_copying.mp hc))
    · exact h q m hc
  | closeWrite _ _ => exact .inr rfl
  | closeRead _ _ => exact h q m (wakeWriter_copying.mp hq)

theorem Run.found (h : Run (pipealloc data) es s) : Found s := by
  induction h with
  | refl =>
    intro p n hp
    cases hp
  | tail h hs ih => exact ih.step h.inv.shape hs.move

/-- A read that was asked for bytes and returns `0` is at the end: the write end is closed, readers
have got all that was put, and nothing will be put any more. -/
theorem read_zero_is_the_end (h : Run (pipealloc data) es s) {n : Int} {i : Nat}
    (hp : s.call p = .copying n i) (hn : 0 < n) (hs : Step s (some (.returned p 0)) s') :
    s.pipe.writeopen = false ∧ gots es = puts es ∧
      ∀ es' s'', Run s' es' s'' → puts es' = [] := by
  have hinv := h.inv
  have hfound := h.found
  have hshape' := hs.move.shape hinv.shape
  have hend : s.pipe.nread = s.pipe.nwrite ∧ i = 0 ∧ s'.pipe.writeopen = s.pipe.writeopen := by
    generalize hv : (0 : Int) = v at hs
    cases hs.move with
    | quitWrite _ hq _ | wrote _ hq | quitRead _ hq _ =>
      rw [hp] at hq
      cases hq
    | readOut _ _ hq hv' hzero =>
      rw [hp] at hq
      cases hq
      exact ⟨hzero hv.symm hn, by omega, rfl⟩
  obtain ⟨hempty, hi, hopen⟩ := hend
  rw [hi] at hp
  have hclosed : s.pipe.writeopen = false := by
    rcases hfound p n hp with hne | hclosed
    · exact absurd hempty hne
    · exact hclosed
  refine ⟨hclosed, ?_, fun es' s'' hrun => ?_⟩
  · have horder := hinv.fifo.order
    rw [State.bytes, RingBuffer.count_eq_zero.mpr hempty] at horder
    simpa [RingBuffer.items] using horder
  · exact (hrun.closed hshape' (hopen.trans hclosed)).2.2

/-- A read from a pipe that was closed for writing. -/
theorem read_after_close :
    ∃ s s' : State Bool, Run (pipealloc fun _ => 0) [.began true] s ∧
      s.call true = .copying 1 0 ∧ Step s (some (.returned true 0)) s' ∧
      ∀ es' s'', Run s' es' s'' → puts es' = [] := by
  have h₀ : Run (pipealloc fun _ => 0 : State Bool) [] _ := Run.refl
  have h₁ := h₀.tail (.closeWrite rfl rfl fun _ => rfl)
  have h₂ := h₁.tail (.read true 1 rfl rfl)
  have h₃ := h₂.tail (.lockRead true rfl rfl)
  have h₄ := h₃.tail (.wait true rfl)
  obtain ⟨s, h, hp, hempty⟩ : ∃ s : State Bool, Run (pipealloc fun _ => 0) [.began true] s ∧
      s.call true = .copying 1 0 ∧ s.pipe.nread = s.pipe.nwrite := ⟨_, h₄, rfl, rfl⟩
  have hs := Step.copy true false hp
  rw [pipecopy, if_pos (by decide), if_pos hempty] at hs
  exact ⟨s, _, h, hp, hs, (read_zero_is_the_end h hp (by decide) hs).2.2⟩

end KernelPipe
