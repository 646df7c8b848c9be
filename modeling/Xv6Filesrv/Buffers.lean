import Mathlib.Algebra.Ring.Nat
import Mathlib.Logic.Function.Basic
import Xv6Filesrv.ProgramRuns

/-!
# Code on buffers

C code that works on blocks of memory, as programs that make calls: accesses to the bytes of a
block, steps of `size_t` arithmetic, which wraps, the narrowing of a number to a byte, allocations,
and the system calls that move bytes between a block and a stream.  Such a call moves any positive
number of bytes up to the number it is asked for, says that the stream has ended when it has, is
interrupted a finite number of times, or fails.  An access outside of its block has no answer.
-/

namespace Buffers

open Programs Programs.Prog ProgramRuns

/-- What a call that moves bytes returns: a count, -1 with `EINTR`, or -1 with another error. -/
inductive Outcome where
  | moved (n : Nat)
  | interrupted
  | failed
  deriving DecidableEq

/-- Calls on the blocks `ι`; `τ` are the other calls, which succeed or do not. -/
inductive Call (ι τ : Type) where
  | malloc (b : ι) (n : Nat)
  | load (b : ι) (i : Nat)
  | store (b : ι) (i : Nat) (v : UInt8)
  | memset (b : ι) (i : Nat) (v : UInt8) (n : Nat)
  | add (m n : Nat)
  | sub (m n : Nat)
  | mul (m n : Nat)
  | narrow (n : Nat)
  | receive (b : ι) (i n : Nat)
  | send (b : ι) (i n : Nat)
  | attempt (t : τ)
  | size

@[reducible] def Answer {ι τ : Type} : Call ι τ → Type
  | .malloc _ _ | .attempt _ => Bool
  | .load _ _ | .narrow _ => UInt8
  | .store _ _ _ | .memset _ _ _ _ => Unit
  | .add _ _ | .sub _ _ | .mul _ _ => Nat
  | .receive _ _ _ | .send _ _ _ => Outcome
  | .size => Option Int

abbrev Code (ι τ : Type) : Type → Type 1 := Prog (Call ι τ) Answer

variable {ι τ α : Type}

def ask (c : Call ι τ) : Code ι τ (Answer c) := perform c

structure Machine (ι : Type) where
  block : ι → List UInt8
  /-- what the other end of the stream still delivers before it closes -/
  input : List UInt8
  /-- what was passed on -/
  output : List UInt8
  /-- how often calls can still be interrupted -/
  patience : Nat
  /-- what `fstat` says of the length of the file, unless it fails -/
  size : Option Int

/-- The list with `data` from index `i` on. -/
def splice (l : List UInt8) (i : Nat) (data : List UInt8) : List UInt8 :=
  l.take i ++ data ++ l.drop (i + data.length)

section Semantics

variable [DecidableEq ι]

def Machine.put (s : Machine ι) (b : ι) (l : List UInt8) : Machine ι :=
  { s with block := Function.update s.block b l }

/-- The next bytes of the stream fill a part of a block. -/
def Machine.fill (s : Machine ι) (b : ι) (i : Nat) (data rest : List UInt8) : Machine ι :=
  { s.put b (splice (s.block b) i data) with input := rest }

/-- Bytes come in from the stream. -/
def Receives (s : Machine ι) (b : ι) (i n : Nat) (r : Outcome) (s' : Machine ι) : Prop :=
  match r with
  | .moved 0 => s.input = [] ∧ s' = s
  | .moved (k + 1) => k + 1 ≤ n ∧ ∃ data rest, data.length = k + 1 ∧ s.input = data ++ rest ∧
      s' = s.fill b i data rest
  | .interrupted => 0 < s.patience ∧ s' = { s with patience := s.patience - 1 }
  | .failed => s' = s

/-- Bytes go out. -/
def Sends (s : Machine ι) (b : ι) (i n : Nat) (r : Outcome) (s' : Machine ι) : Prop :=
  match r with
  | .moved k => 0 < k ∧ k ≤ n ∧ s' = { s with output := s.output ++ ((s.block b).drop i).take k }
  | .interrupted => 0 < s.patience ∧ s' = { s with patience := s.patience - 1 }
  | .failed => s' = s

/-- What a call does.  Calls fail, for want of memory or with an error other than `EINTR`, only if
there are faults. -/
def DoesIf (faults : Prop) (s : Machine ι) : (c : Call ι τ) → Answer c → Machine ι → Prop
  | .malloc b n, r, s' => r = false ∧ faults ∧ s' = s ∨
      r = true ∧ ∃ junk, junk.length = n ∧ s' = s.put b junk
  | .load b i, r, s' => (s.block b)[i]? = some r ∧ s' = s
  | .store b i v, _, s' => i < (s.block b).length ∧ s' = s.put b ((s.block b).set i v)
  | .memset b i v n, _, s' => i + n ≤ (s.block b).length ∧
      s' = s.put b (splice (s.block b) i (List.replicate n v))
  | .add m n, r, s' => r = (m + n) % 2 ^ 64 ∧ s' = s
  | .sub m n, r, s' => r = (m + 2 ^ 64 - n % 2 ^ 64) % 2 ^ 64 ∧ s' = s
  | .mul m n, r, s' => r = m * n % 2 ^ 64 ∧ s' = s
  | .narrow n, r, s' => r = UInt8.ofNat n ∧ s' = s
  | .receive b i n, r, s' =>
      i + n ≤ (s.block b).length ∧ (r = .failed → faults) ∧ Receives s b i n r s'
  | .send b i n, r, s' => i + n ≤ (s.block b).length ∧ (r = .failed → faults) ∧ Sends s b i n r s'
  | .attempt _, r, s' => (r = false → faults) ∧ s' = s
  | .size, r, s' => r = s.size ∧ s' = s

/-- Any call may fail. -/
abbrev Does : Machine ι → (c : Call ι τ) → Answer c → Machine ι → Prop := DoesIf True

/-- No call fails. -/
abbrev Flawless : Machine ι → (c : Call ι τ) → Answer c → Machine ι → Prop := DoesIf False

@[simp] theorem Machine.put_same (s : Machine ι) (b : ι) (l : List UInt8) :
    (s.put b l).block b = l := by
  simp only [put, Function.update_self]

theorem Machine.put_other (s : Machine ι) {b b' : ι} (l : List UInt8) (h : b' ≠ b) :
    (s.put b l).block b' = s.block b' := by
  simp only [put, Function.update_of_ne h]

@[simp] theorem Machine.fill_block (s : Machine ι) (b : ι) (i : Nat) (data rest : List UInt8) :
    (s.fill b i data rest).block b = splice (s.block b) i data := s.put_same b _

/-! ## Rules -/

variable {faults : Prop} {allowed : Call ι τ → Prop} {Q : α → Machine ι → Prop} {s : Machine ι} {b : ι}
  {i m n : Nat}

/-- A new block has the size asked for and any content. -/
theorem ends_malloc {k : Bool → Code ι τ α} (hok : allowed (.malloc b n))
    (hno : faults → Ends (Guarded allowed (DoesIf faults)) Q (k false) s)
    (hyes : ∀ junk, junk.length = n →
      Ends (Guarded allowed (DoesIf faults)) Q (k true) (s.put b junk)) :
    Ends (Guarded allowed (DoesIf faults)) Q (ask (.malloc b n) >>= k) s := by
  apply Ends.bind
  apply Ends.perform ⟨true, _, hok, .inr ⟨rfl, List.replicate n 0, List.length_replicate, rfl⟩⟩
  rintro r s' ⟨-, ⟨rfl, hfault, rfl⟩ | ⟨rfl, junk, hjunk, rfl⟩⟩
  · exact hno hfault
  · exact hyes junk hjunk

theorem ends_load {k : UInt8 → Code ι τ α} {v : UInt8} (hok : allowed (.load b i))
    (hv : (s.block b)[i]? = some v) (h : Ends (Guarded allowed (DoesIf faults)) Q (k v) s) :
    Ends (Guarded allowed (DoesIf faults)) Q (ask (.load b i) >>= k) s := by
  apply Ends.bind
  apply Ends.perform ⟨v, s, hok, hv, rfl⟩
  rintro r s' ⟨-, hr, rfl⟩
  rw [hv] at hr
  cases hr
  exact h

theorem ends_store {k : Unit → Code ι τ α} {v : UInt8} (hok : allowed (.store b i v))
    (hi : i < (s.block b).length)
    (h : Ends (Guarded allowed (DoesIf faults)) Q (k ()) (s.put b ((s.block b).set i v))) :
    Ends (Guarded allowed (DoesIf faults)) Q (ask (.store b i v) >>= k) s := by
  apply Ends.bind
  apply Ends.perform ⟨(), _, hok, hi, rfl⟩
  rintro r s' ⟨-, -, rfl⟩
  exact h

theorem ends_memset {k : Unit → Code ι τ α} {v : UInt8} (hok : allowed (.memset b i v n))
    (hi : i + n ≤ (s.block b).length)
    (h : Ends (Guarded allowed (DoesIf faults)) Q (k ())
      (s.put b (splice (s.block b) i (List.replicate n v)))) :
    Ends (Guarded allowed (DoesIf faults)) Q (ask (.memset b i v n) >>= k) s := by
  apply Ends.bind
  apply Ends.perform ⟨(), _, hok, hi, rfl⟩
  rintro r s' ⟨-, -, rfl⟩
  exact h

theorem ends_add {k : Nat → Code ι τ α} (hok : allowed (.add m n)) (hlt : m + n < 2 ^ 64)
    (h : Ends (Guarded allowed (DoesIf faults)) Q (k (m + n)) s) :
    Ends (Guarded allowed (DoesIf faults)) Q (ask (.add m n) >>= k) s := by
  apply Ends.bind
  apply Ends.perform ⟨_, s, hok, rfl, rfl⟩
  rintro r s' ⟨-, rfl, rfl⟩
  rw [Nat.mod_eq_of_lt hlt]
  exact h

theorem ends_sub {k : Nat → Code ι τ α} (hok : allowed (.sub m n)) (hle : n ≤ m)
    (hlt : m < 2 ^ 64) (h : Ends (Guarded allowed (DoesIf faults)) Q (k (m - n)) s) :
    Ends (Guarded allowed (DoesIf faults)) Q (ask (.sub m n) >>= k) s := by
  apply Ends.bind
  apply Ends.perform ⟨_, s, hok, rfl, rfl⟩
  rintro r s' ⟨-, rfl, rfl⟩
  have hdiff : (m + 2 ^ 64 - n % 2 ^ 64) % 2 ^ 64 = m - n := by omega
  rw [hdiff]
  exact h

theorem ends_mul {k : Nat → Code ι τ α} (hok : allowed (.mul m n)) (hlt : m * n < 2 ^ 64)
    (h : Ends (Guarded allowed (DoesIf faults)) Q (k (m * n)) s) :
    Ends (Guarded allowed (DoesIf faults)) Q (ask (.mul m n) >>= k) s := by
  apply Ends.bind
  apply Ends.perform ⟨_, s, hok, rfl, rfl⟩
  rintro r s' ⟨-, rfl, rfl⟩
  rw [Nat.mod_eq_of_lt hlt]
  exact h

theorem ends_narrow {k : UInt8 → Code ι τ α} (hok : allowed (.narrow n))
    (h : Ends (Guarded allowed (DoesIf faults)) Q (k (UInt8.ofNat n)) s) :
    Ends (Guarded allowed (DoesIf faults)) Q (ask (.narrow n) >>= k) s := by
  apply Ends.bind
  apply Ends.perform ⟨_, s, hok, rfl, rfl⟩
  rintro r s' ⟨-, rfl, rfl⟩
  exact h

theorem ends_attempt {t : τ} {k : Bool → Code ι τ α} (hok : allowed (.attempt t))
    (h : ∀ ok, (ok = false → faults) → Ends (Guarded allowed (DoesIf faults)) Q (k ok) s) :
    Ends (Guarded allowed (DoesIf faults)) Q (ask (.attempt t) >>= k) s := by
  apply Ends.bind
  apply Ends.perform ⟨true, s, hok, fun hno => absurd hno.symm Bool.false_ne_true, rfl⟩
  rintro ok s' ⟨-, hfault, rfl⟩
  exact h ok hfault

theorem ends_size {k : Option Int → Code ι τ α} (hok : allowed .size)
    (h : Ends (Guarded allowed (DoesIf faults)) Q (k s.size) s) :
    Ends (Guarded allowed (DoesIf faults)) Q (ask .size >>= k) s := by
  apply Ends.bind
  apply Ends.perform ⟨_, s, hok, rfl, rfl⟩
  rintro r s' ⟨-, rfl, rfl⟩
  exact h

/-- A call that asks for some bytes can be answered without failing. -/
theorem receives_next (s : Machine ι) (b : ι) (i : Nat) (hn : 0 < n) :
    ∃ k s', Receives s b i n (.moved k) s' := by
  cases hinput : s.input with
  | nil => exact ⟨0, s, hinput, rfl⟩
  | cons v rest => exact ⟨1, _, hn, [v], rest, rfl, hinput, rfl⟩

/-- Bytes arrive in pieces of any size; nothing arrives only at the end of the input. -/
theorem ends_receive {k : Outcome → Code ι τ α} (hok : allowed (.receive b i n)) (hn : 0 < n)
    (hi : i + n ≤ (s.block b).length)
    (hend : s.input = [] → Ends (Guarded allowed (DoesIf faults)) Q (k (.moved 0)) s)
    (hmoved : ∀ m data rest, m + 1 ≤ n → data.length = m + 1 → s.input = data ++ rest →
      Ends (Guarded allowed (DoesIf faults)) Q (k (.moved (m + 1))) (s.fill b i data rest))
    (hagain : 0 < s.patience →
      Ends (Guarded allowed (DoesIf faults)) Q (k .interrupted) { s with patience := s.patience - 1 })
    (hfailed : faults → Ends (Guarded allowed (DoesIf faults)) Q (k .failed) s) :
    Ends (Guarded allowed (DoesIf faults)) Q (ask (.receive b i n) >>= k) s := by
  obtain ⟨w, s₁, hsome⟩ := receives_next s b i hn
  apply Ends.bind
  apply Ends.perform ⟨.moved w, s₁, hok, hi, fun h => Outcome.noConfusion h, hsome⟩
  rintro r s' ⟨-, -, hfault, hr⟩
  cases r with
  | moved m =>
    cases m with
    | zero =>
      obtain ⟨hnil, rfl⟩ := hr
      exact hend hnil
    | succ m =>
      obtain ⟨hm, data, rest, hlen, hinput, rfl⟩ := hr
      exact hmoved m data rest hm hlen hinput
  | interrupted =>
    obtain ⟨hpos, rfl⟩ := hr
    exact hagain hpos
  | failed =>
    obtain rfl : s' = s := hr
    exact hfailed (hfault rfl)

/-- The bytes leave in pieces of any size. -/
theorem ends_send {k : Outcome → Code ι τ α} (hok : allowed (.send b i n)) (hn : 0 < n)
    (hi : i + n ≤ (s.block b).length)
    (hmoved : ∀ m, 0 < m → m ≤ n → Ends (Guarded allowed (DoesIf faults)) Q (k (.moved m))
      { s with output := s.output ++ ((s.block b).drop i).take m })
    (hagain : 0 < s.patience →
      Ends (Guarded allowed (DoesIf faults)) Q (k .interrupted) { s with patience := s.patience - 1 })
    (hfailed : faults → Ends (Guarded allowed (DoesIf faults)) Q (k .failed) s) :
    Ends (Guarded allowed (DoesIf faults)) Q (ask (.send b i n) >>= k) s := by
  apply Ends.bind
  apply Ends.perform ⟨.moved n, _, hok, hi, fun h => Outcome.noConfusion h, hn, Nat.le_refl n, rfl⟩
  rintro r s' ⟨-, -, hfault, hr⟩
  cases r with
  | moved m =>
    obtain ⟨hpos, hm, rfl⟩ := hr
    exact hmoved m hpos hm
  | interrupted =>
    obtain ⟨hpos, rfl⟩ := hr
    exact hagain hpos
  | failed =>
    obtain rfl : s' = s := hr
    exact hfailed (hfault rfl)

end Semantics

/-! ## Contents -/

variable {l d : List UInt8} {i : Nat}

theorem splice_length (h : i + d.length ≤ l.length) : (splice l i d).length = l.length := by
  simp only [splice, List.length_append, List.length_take, List.length_drop]
  omega

/-- What was there before the written bytes is still there, and then they follow. -/
theorem splice_take (h : i ≤ l.length) :
    (splice l i d).take (i + d.length) = l.take i ++ d := by
  have hlen : (l.take i ++ d).length = i + d.length := by
    rw [List.length_append, List.length_take, Nat.min_eq_left h]
  rw [splice, List.take_append_of_le_length (by omega), List.take_of_length_le (by omega)]

theorem set_take {v : UInt8} (h : i < l.length) : (l.set i v).take (i + 1) = l.take i ++ [v] := by
  rw [List.take_add_one, List.take_set_of_le (Nat.le_refl i), List.getElem?_set_self h]
  rfl

end Buffers
