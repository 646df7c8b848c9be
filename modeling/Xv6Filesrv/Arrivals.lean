import Mathlib.Data.List.Basic

/-!
# Reading from a stream that arrives in pieces

A source holds what the other end sends before it closes, and a plan of what the next calls of
`recv` do: deliver at most so much, be interrupted, or fail.  When the plan is used up, a call
delivers all that it is asked for.  A reader consumes a source and may give up.

`Gets m bs a` says that the reader `m` returns `a` after consuming exactly `bs`, whatever
follows and however it arrives; `Fails m bs` says that it gives up on every source that begins
with `bs`.  `Consumes m P` and `Takes m P` are about any source at all, whose calls may also fail:
what was taken off it, or how much, and the result.
-/

namespace Arrivals

variable {α β γ : Type}

/-- What a call of `recv` does. -/
inductive Arrival where
  | part (k : Nat)
  | interrupted
  | error
  deriving DecidableEq

structure Source (α : Type) where
  data : List α
  plan : List Arrival

inductive Received (α : Type) where
  | got (l : List α)
  | eof
  | interrupted
  | failed

/-- Deliver at most `n` items, at least one unless the stream has ended. -/
def Source.deliver (s : Source α) (n : Nat) : Received α × Source α :=
  if s.data.isEmpty then (.eof, s) else (.got (s.data.take n), { s with data := s.data.drop n })

def Source.recv (s : Source α) (n : Nat) : Received α × Source α :=
  match s.plan with
  | [] => s.deliver n
  | .part k :: plan => { s with plan := plan }.deliver (min n (k + 1))
  | .interrupted :: plan => (.interrupted, { s with plan := plan })
  | .error :: plan => (.failed, { s with plan := plan })

def Reader (α β : Type) : Type := Source α → Option β × Source α

namespace Reader

def fail : Reader α β := fun s => (none, s)

def recv (n : Nat) : Reader α (Received α) := fun s => (some (s.recv n).1, (s.recv n).2)

/-- How many calls of `recv` are planned. -/
def planned : Reader α Nat := fun s => (some s.plan.length, s)

instance : Monad (Reader α) where
  pure a := fun s => (some a, s)
  bind m f := fun s =>
    match m s with
    | (some a, s') => f a s'
    | (none, s') => (none, s')

theorem pure_apply (a : β) (s : Source α) : (pure a : Reader α β) s = (some a, s) := rfl

theorem bind_apply (m : Reader α β) (f : β → Reader α γ) (s : Source α) :
    (m >>= f) s = match m s with
      | (some a, s') => f a s'
      | (none, s') => (none, s') := rfl

theorem bind_some {m : Reader α β} {f : β → Reader α γ} {s s' : Source α} {a : β}
    (h : m s = (some a, s')) : (m >>= f) s = f a s' := by
  rw [bind_apply, h]

theorem bind_none {m : Reader α β} {f : β → Reader α γ} {s : Source α} (h : (m s).1 = none) :
    ((m >>= f) s).1 = none := by
  rw [bind_apply]
  split
  · next a s' hm =>
    rw [hm] at h
    cases h
  · rfl

end Reader

/-- No call of `recv` fails. -/
def Clean (plan : List Arrival) : Prop := ∀ x ∈ plan, x ≠ .error

theorem Clean.tail {x : Arrival} {plan : List Arrival} (h : Clean (x :: plan)) : Clean plan :=
  fun y hy => h y (List.mem_cons_of_mem x hy)

/-- A call of `recv` on a stream that has not ended is interrupted, or delivers something. -/
theorem Source.recv_clean {s : Source α} {n : Nat} (h : Clean s.plan) (hn : 0 < n)
    (hd : s.data ≠ []) :
    (∃ plan, Clean plan ∧ plan.length < s.plan.length ∧
      s.recv n = (.interrupted, ⟨s.data, plan⟩)) ∨
    ∃ m plan, 0 < m ∧ m ≤ n ∧ Clean plan ∧ plan.length ≤ s.plan.length ∧
      s.recv n = (.got (s.data.take m), ⟨s.data.drop m, plan⟩) := by
  obtain ⟨data, plan⟩ := s
  have hsome : ∀ plan m, (⟨data, plan⟩ : Source α).deliver m =
      (.got (data.take m), ⟨data.drop m, plan⟩) := by
    intro plan m
    rw [Source.deliver, if_neg (by simpa using hd)]
  cases plan with
  | nil => exact .inr ⟨n, [], hn, Nat.le_refl n, h, Nat.le_refl _, hsome [] n⟩
  | cons x plan =>
    cases x with
    | part k =>
      exact .inr ⟨min n (k + 1), plan, by omega, by omega, h.tail, by simp, hsome plan _⟩
    | interrupted => exact .inl ⟨plan, h.tail, by simp, rfl⟩
    | error => exact absurd rfl (h .error List.mem_cons_self)

def Gets (m : Reader α β) (bs : List α) (a : β) : Prop :=
  ∀ rest plan, Clean plan → ∃ plan', Clean plan' ∧ m ⟨bs ++ rest, plan⟩ = (some a, ⟨rest, plan'⟩)

def Fails (m : Reader α β) (bs : List α) : Prop :=
  ∀ rest plan, Clean plan → (m ⟨bs ++ rest, plan⟩).1 = none

theorem Gets.pure (a : β) : Gets (pure a : Reader α β) [] a :=
  fun _ plan h => ⟨plan, h, rfl⟩

theorem Gets.bind {m : Reader α β} {f : β → Reader α γ} {bs cs : List α} {a : β} {b : γ}
    (hm : Gets m bs a) (hf : Gets (f a) cs b) : Gets (m >>= f) (bs ++ cs) b := by
  intro rest plan h
  obtain ⟨plan₁, h₁, hm₁⟩ := hm (cs ++ rest) plan h
  obtain ⟨plan₂, h₂, hf₂⟩ := hf rest plan₁ h₁
  refine ⟨plan₂, h₂, ?_⟩
  rw [List.append_assoc, Reader.bind_some hm₁, hf₂]

theorem Fails.fail : Fails (Reader.fail : Reader α β) [] := fun _ _ _ => rfl

theorem Fails.append {m : Reader α β} {bs : List α} (h : Fails m bs) (cs : List α) :
    Fails m (bs ++ cs) := by
  intro rest plan hp
  rw [List.append_assoc]
  exact h (cs ++ rest) plan hp

theorem Fails.bind {m : Reader α β} {bs : List α} (h : Fails m bs) (f : β → Reader α γ) :
    Fails (m >>= f) bs :=
  fun rest plan hp => Reader.bind_none (h rest plan hp)

theorem Gets.bind_fails {m : Reader α β} {f : β → Reader α γ} {bs cs : List α} {a : β}
    (hm : Gets m bs a) (hf : Fails (f a) cs) : Fails (m >>= f) (bs ++ cs) := by
  intro rest plan h
  obtain ⟨plan₁, h₁, hm₁⟩ := hm (cs ++ rest) plan h
  rw [List.append_assoc, Reader.bind_some hm₁]
  exact hf rest plan₁ h₁

def Consumes (m : Reader α β) (P : List α → β → Prop) : Prop :=
  ∀ s a s', m s = (some a, s') → ∃ bs, s.data = bs ++ s'.data ∧ P bs a

def Takes (m : Reader α β) (P : Nat → β → Prop) : Prop :=
  ∀ s a s', m s = (some a, s') → ∃ k, s.data.length = k + s'.data.length ∧ P k a

variable {m : Reader α β} {P : List α → β → Prop}

theorem Consumes.pure {a : β} (h : P [] a) : Consumes (pure a : Reader α β) P := by
  intro s b s' hs
  cases hs
  exact ⟨[], rfl, h⟩

theorem Consumes.fail : Consumes (Reader.fail : Reader α β) P := by
  intro s b s' hs
  cases hs

theorem Consumes.mono {Q : List α → β → Prop} (h : Consumes m P) (hpq : ∀ bs a, P bs a → Q bs a) :
    Consumes m Q := by
  intro s a s' hs
  obtain ⟨bs, hbs, hp⟩ := h s a s' hs
  exact ⟨bs, hbs, hpq bs a hp⟩

theorem Consumes.bind {f : β → Reader α γ} {Q : List α → γ → Prop} (hm : Consumes m P)
    (hf : ∀ bs a, P bs a → Consumes (f a) fun cs => Q (bs ++ cs)) : Consumes (m >>= f) Q := by
  intro s b s'' hs
  rw [Reader.bind_apply] at hs
  split at hs
  · next a s' hm' =>
    obtain ⟨bs, hbs, hp⟩ := hm s a s' hm'
    obtain ⟨cs, hcs, hq⟩ := hf bs a hp s' b s'' hs
    exact ⟨bs ++ cs, by rw [hbs, hcs, List.append_assoc], hq⟩
  · cases hs

theorem Consumes.planned : Consumes (Reader.planned : Reader α Nat) fun bs _ => bs = [] := by
  intro s a s' hs
  cases hs
  exact ⟨[], rfl, rfl⟩

def Received.items : Received α → List α
  | .got l => l
  | _ => []

/-- What a call of `recv` delivers is taken off the source. -/
theorem Consumes.recv (n : Nat) : Consumes (Reader.recv n : Reader α (Received α))
    fun bs r => r.items = bs ∧ bs.length ≤ n := by
  have hdeliver : ∀ (s : Source α) (k : Nat), k ≤ n → ∃ bs,
      s.data = bs ++ (s.deliver k).2.data ∧ (s.deliver k).1.items = bs ∧ bs.length ≤ n := by
    intro s k hk
    unfold Source.deliver
    split
    · exact ⟨[], rfl, rfl, Nat.zero_le n⟩
    · refine ⟨s.data.take k, (List.take_append_drop k s.data).symm, rfl, ?_⟩
      rw [List.length_take]
      omega
  intro s r s' hs
  cases hs
  unfold Source.recv
  split
  · exact hdeliver s n (Nat.le_refl n)
  · next k plan _ => exact hdeliver ⟨s.data, plan⟩ _ (Nat.min_le_left n (k + 1))
  · exact ⟨[], rfl, rfl, Nat.zero_le n⟩
  · exact ⟨[], rfl, rfl, Nat.zero_le n⟩

theorem Consumes.takes {Q : Nat → β → Prop} (h : Consumes m P)
    (hpq : ∀ bs a, P bs a → Q bs.length a) : Takes m Q := by
  intro s a s' hs
  obtain ⟨bs, hbs, hp⟩ := h s a s' hs
  exact ⟨bs.length, by rw [hbs, List.length_append], hpq bs a hp⟩

end Arrivals
