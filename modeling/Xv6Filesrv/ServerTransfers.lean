import Xv6Filesrv.Buffers
import Xv6Filesrv.ServerOps

/-!
# Moving bytes

The loops of `src/resp.c` and `src/file_ops.c` around `recv`, `send`, `read` and `write`, on the
buffers that they fill and empty.  Each call moves a part of what is asked for, as large as it
likes, or is interrupted and made again; the loops keep an offset into the buffer, and `op_copyfile`
has one such loop inside of another.
-/

namespace ServerTransfers

open Buffers Programs.Prog ProgramRuns
open ServerRle (maxFileSize)
open ServerOps (CopyResult copyBufSize)

/-- The calls around the loops. -/
inductive Step where
  | openSource
  | ensureParentDirs
  | openTarget
  | fsync
  | close

/-- There is one buffer at a time. -/
abbrev Transfer : Type → Type 1 := Code Unit Step

/-- How a loop that receives comes to its end. -/
inductive Stop where
  | full
  | ended
  | failed
  deriving DecidableEq

/-- The loop of `recv_exact` and that of `read_all_file`: the offset and why it stopped there. -/
def receiveLoop (n : Nat) : Transfer (Nat × Stop) :=
  iterate (fun off : Nat =>
    if n ≤ off then pure (.inr (off, .full))
    else do
      let left ← ask (.sub n off)
      match ← ask (.receive () off left) with
      | .moved 0 => pure (.inr (off, .ended))
      | .moved (r + 1) => do
        let off ← ask (.add off (r + 1))
        pure (.inl off)
      | .interrupted => pure (.inl off)
      | .failed => pure (.inr (off, .failed))) 0

/-- The loop of `send_all`, that of `write_all_file` and the inner one of `op_copyfile`: whether
everything was passed on. -/
def sendLoop (len : Nat) : Transfer Bool :=
  iterate (fun off : Nat =>
    if len ≤ off then pure (.inr true)
    else do
      let left ← ask (.sub len off)
      match ← ask (.send () off left) with
      | .moved w => do
        let off ← ask (.add off w)
        pure (.inl off)
      | .interrupted => pure (.inl off)
      | .failed => pure (.inr false)) 0

def recvExact (n : Nat) : Transfer Int := do
  match ← receiveLoop n with
  | (total, .full) => pure total
  | (_, .ended) => pure 0
  | (_, .failed) => pure (-1)

def sendAll (len : Nat) : Transfer Int := do
  if ← sendLoop len then pure 0 else pure (-1)

/-- The value of `*out_len` on success. -/
def readAllFile : Transfer (Option Nat) := do
  if !(← ask (.attempt .openSource)) then pure none
  else do
    match ← ask .size with
    | none => do
      let _ ← ask (.attempt .close)
      pure none
    | some size =>
      if size < 0 ∨ maxFileSize < size then do
        let _ ← ask (.attempt .close)
        pure none
      else do
        let sz := size.toNat
        if !(← ask (.malloc () (if 0 < sz then sz else 1))) then do
          let _ ← ask (.attempt .close)
          pure none
        else do
          match ← receiveLoop sz with
          | (_, .failed) => do
            let _ ← ask (.attempt .close)
            pure none
          | (off, _) => do
            let _ ← ask (.attempt .close)
            pure (some off)

/-- Whether it returns 0. -/
def writeAllFile (len : Nat) : Transfer Bool := do
  if !(← ask (.attempt .ensureParentDirs)) then pure false
  else if !(← ask (.attempt .openTarget)) then pure false
  else if !(← sendLoop len) then do
    let _ ← ask (.attempt .close)
    pure false
  else if !(← ask (.attempt .fsync)) then do
    let _ ← ask (.attempt .close)
    pure false
  else ask (.attempt .close)

/-- The nested loops of `op_copyfile`. -/
def copyLoop : Transfer CopyResult :=
  iterate (fun _ : Unit => do
    match ← ask (.receive () 0 copyBufSize) with
    | .moved 0 => pure (.inr .done)
    | .moved (r + 1) => do
      if ← sendLoop (r + 1) then pure (.inl ()) else pure (.inr .writeFailed)
    | .interrupted => pure (.inl ())
    | .failed => pure (.inr .readFailed)) ()

/-- What `op_copyfile` does between its locks: whether it comes to the reply `OK`. -/
def copyFile : Transfer Bool := do
  if !(← ask (.attempt .openSource)) then pure false
  else if !(← ask (.attempt .ensureParentDirs)) then do
    let _ ← ask (.attempt .close)
    pure false
  else if !(← ask (.attempt .openTarget)) then do
    let _ ← ask (.attempt .close)
    pure false
  else do
    let copied ← copyLoop
    let synced ← if copied = .done then ask (.attempt .fsync) else pure false
    let _ ← ask (.attempt .close)
    let _ ← ask (.attempt .close)
    pure synced

/-- The bytes that are moved lie in the first `cap` of the buffer, and offsets do not wrap. -/
def Inside (cap : Nat) : Call Unit Step → Prop
  | .receive _ i n | .send _ i n => 0 < n ∧ i + n ≤ cap
  | .add m n => m + n < 2 ^ 64
  | .sub m n => n ≤ m
  | .malloc _ _ | .attempt _ | .size => True
  | _ => False

variable {α : Type} {n k cap : Nat} {s s' : Machine Unit} {faults : Prop}

/-! ## Receiving -/

/-- The next `k` bytes of the stream went to the beginning of the buffer. -/
structure Received (s : Machine Unit) (k : Nat) (s' : Machine Unit) : Prop where
  delivered : k ≤ s.input.length
  input : s'.input = s.input.drop k
  block : s'.block () = s.input.take k ++ (s.block ()).drop k
  output : s'.output = s.output

theorem Received.refl (s : Machine Unit) : Received s 0 s :=
  ⟨Nat.zero_le _, rfl, rfl, rfl⟩

/-- The next piece lands behind what has arrived. -/
theorem Received.more (h : Received s k s') {data rest : List UInt8}
    (hin : s'.input = data ++ rest) :
    Received s (k + data.length) (s'.fill () k data rest) := by
  have hdrop : s.input.drop k = data ++ rest := h.input ▸ hin
  have htake : s.input.take (k + data.length) = s.input.take k ++ data := by
    rw [List.take_add, hdrop, List.take_left]
  have hlen := congrArg List.length hdrop
  rw [List.length_drop, List.length_append] at hlen
  have hfront : (s.input.take k).length = k := by
    rw [List.length_take, Nat.min_eq_left h.delivered]
  refine ⟨?_, ?_, ?_, h.output⟩
  · have := h.delivered
    omega
  · show rest = s.input.drop (k + data.length)
    rw [← List.drop_drop, hdrop, List.drop_left]
  · rw [Machine.fill_block, splice, h.block, htake, List.take_left' hfront, ← List.drop_drop,
      List.drop_left' hfront, List.drop_drop]

theorem Received.length (h : Received s k s') (hk : k ≤ (s.block ()).length) :
    (s'.block ()).length = (s.block ()).length := by
  rw [h.block, List.length_append, List.length_take, List.length_drop, Nat.min_eq_left h.delivered]
  omega

theorem Received.front (h : Received s k s') : (s'.block ()).take k = s.input.take k := by
  rw [h.block, List.take_left' (List.length_take_of_le h.delivered)]

theorem Received.exhausted (h : Received s k s') (hnil : s'.input = []) : k = s.input.length := by
  have hleft := congrArg List.length (h.input.symm.trans hnil)
  rw [List.length_drop, List.length_nil] at hleft
  have hdelivered := h.delivered
  omega

/-- At the end of the stream, or where a call fails, the bytes received so far are all there. -/
theorem ends_receiveLoop (hn : n ≤ (s.block ()).length) (hsize : n < 2 ^ 64) :
    Ends (Guarded (Inside n) (DoesIf faults)) (fun x s' => Received s x.1 s' ∧ match x.2 with
      | .full => x.1 = n
      | .ended => x.1 < n ∧ s'.input = []
      | .failed => x.1 < n ∧ faults) (receiveLoop n) s := by
  -- a call that moves nothing uses up patience
  apply Ends.iterate (fun off s' => Received s off s' ∧ off ≤ n)
    (fun off s' => n - off + s'.patience) ⟨.refl s, Nat.zero_le n⟩
  rintro off s' ⟨h, hoff⟩
  split
  · next hall => exact Ends.pure ⟨h, Nat.le_antisymm hoff hall⟩
  · next hmore =>
    have hlt : off < n := Nat.lt_of_not_le hmore
    apply ends_sub hoff hoff hsize
    have hinside : Inside n (.receive () off (n - off)) := ⟨by omega, by omega⟩
    have hbound : off + (n - off) ≤ (s'.block ()).length := by
      rw [h.length (by omega)]
      omega
    apply ends_receive hinside hinside.1 hbound
    · intro hnil
      exact Ends.pure ⟨h, hlt, hnil⟩
    · intro m data rest hm hlen hin
      have hadd : off + (m + 1) < 2 ^ 64 := by omega
      apply ends_add hadd hadd
      refine Ends.pure ⟨⟨hlen ▸ h.more hin, by omega⟩, ?_⟩
      show n - (off + (m + 1)) + s'.patience < n - off + s'.patience
      omega
    · intro hpos
      refine Ends.pure ⟨⟨⟨h.delivered, h.input, h.block, h.output⟩, hoff⟩, ?_⟩
      show n - off + (s'.patience - 1) < n - off + s'.patience
      omega
    · exact fun hfault => Ends.pure ⟨h, hlt, hfault⟩

/-! ## Passing on -/

/-- The first `k` bytes of the buffer were passed on. -/
structure Sent (s : Machine Unit) (k : Nat) (s' : Machine Unit) : Prop where
  output : s'.output = s.output ++ (s.block ()).take k
  input : s'.input = s.input
  block : s'.block = s.block
  patience : s'.patience ≤ s.patience

theorem Sent.refl (s : Machine Unit) : Sent s 0 s :=
  ⟨(List.append_nil _).symm, rfl, rfl, Nat.le_refl _⟩

/-- All is passed on unless a call fails, and then a beginning of it. -/
theorem ends_sendLoop (hn : n ≤ (s.block ()).length) (hsize : n < 2 ^ 64) (hcap : n ≤ cap) :
    Ends (Guarded (Inside cap) (DoesIf faults)) (fun ok s' => ∃ k, Sent s k s' ∧
      (ok = true ∧ k = n ∨ ok = false ∧ k < n ∧ faults)) (sendLoop n) s := by
  apply Ends.iterate (fun off s' => Sent s off s' ∧ off ≤ n)
    (fun off s' => n - off + s'.patience)
    ⟨.refl s, Nat.zero_le n⟩
  rintro off s' ⟨h, hoff⟩
  split
  · next hall => exact Ends.pure ⟨off, h, .inl ⟨rfl, Nat.le_antisymm hoff hall⟩⟩
  · next hmore =>
    have hlt : off < n := Nat.lt_of_not_le hmore
    have hpatience := h.patience
    apply ends_sub hoff hoff hsize
    have hinside : Inside cap (.send () off (n - off)) := ⟨by omega, by omega⟩
    have hbound : off + (n - off) ≤ (s'.block ()).length := by
      rw [h.block]
      omega
    apply ends_send hinside hinside.1 hbound
    · intro m hm hle
      have hadd : off + m < 2 ^ 64 := by omega
      apply ends_add hadd hadd
      refine Ends.pure ⟨⟨⟨?_, h.input, h.block, hpatience⟩, by omega⟩, ?_⟩
      · show s'.output ++ ((s'.block ()).drop off).take m = _
        rw [h.output, h.block, List.append_assoc, List.take_add]
      · show n - (off + m) + s'.patience < n - off + s'.patience
        omega
    · intro hpos
      have hless : s'.patience - 1 ≤ s.patience := by omega
      refine Ends.pure ⟨⟨⟨h.output, h.input, h.block, hless⟩, hoff⟩, ?_⟩
      show n - off + (s'.patience - 1) < n - off + s'.patience
      omega
    · exact fun hfault => Ends.pure ⟨off, h, .inr ⟨rfl, hlt, hfault⟩⟩

/-! ## Copying -/

/-- The next `taken` bytes of the stream were read, and the first `passed` of them were written. -/
structure Copied (s : Machine Unit) (taken passed : Nat) (s' : Machine Unit) : Prop where
  delivered : taken ≤ s.input.length
  ordered : passed ≤ taken
  input : s'.input = s.input.drop taken
  output : s'.output = s.output ++ s.input.take passed

theorem Copied.exhausted {taken passed : Nat} (h : Copied s taken passed s')
    (hnil : s'.input = []) : taken = s.input.length := by
  have hleft := congrArg List.length (h.input.symm.trans hnil)
  rw [List.length_drop, List.length_nil] at hleft
  have hdelivered := h.delivered
  omega

/-- A buffer of bytes is read, and a part of it is written. -/
theorem Copied.more {s₂ : Machine Unit} {data rest : List UInt8} {j : Nat} (h : Copied s k k s')
    (hin : s'.input = data ++ rest) (hj : j ≤ data.length)
    (hsent : Sent (s'.fill () 0 data rest) j s₂) : Copied s (k + data.length) (k + j) s₂ := by
  have hdrop : s.input.drop k = data ++ rest := h.input ▸ hin
  have hlen := congrArg List.length hdrop
  rw [List.length_drop, List.length_append] at hlen
  have hdelivered := h.delivered
  have hfront : (splice (s'.block ()) 0 data).take j = data.take j :=
    List.take_append_of_le_length hj
  refine ⟨by omega, by omega, ?_, ?_⟩
  · rw [← List.drop_drop, hdrop, List.drop_left]
    exact hsent.input
  · have houtput := hsent.output
    rw [Machine.fill_block, hfront] at houtput
    rw [houtput, List.take_add, hdrop, List.take_append_of_le_length hj, ← List.append_assoc,
      ← h.output]
    rfl

/-- A copy stops at the end of its input or at a failed call. -/
theorem ends_copyLoop (hbuf : (s.block ()).length = copyBufSize) :
    Ends (Guarded (Inside copyBufSize) (DoesIf faults)) (fun r s' => ∃ taken passed,
      Copied s taken passed s' ∧ match r with
        | .done => passed = taken ∧ s'.input = []
        | .readFailed => passed = taken ∧ faults
        | .writeFailed => passed < taken ∧ faults) copyLoop s := by
  have hsize : copyBufSize = 8192 := rfl
  apply Ends.iterate (fun _ s' => (∃ k, Copied s k k s') ∧ (s'.block ()).length = copyBufSize)
    (fun _ s' => s'.input.length + s'.patience)
    ⟨⟨0, Nat.zero_le _, Nat.le_refl 0, rfl, (List.append_nil _).symm⟩, hbuf⟩
  rintro ⟨⟩ s' ⟨⟨k, h⟩, hlen⟩
  have hinside : Inside copyBufSize (.receive () 0 copyBufSize) := ⟨by omega, by omega⟩
  apply ends_receive hinside hinside.1 (by omega)
  · intro hnil
    exact Ends.pure ⟨k, k, h, rfl, hnil⟩
  · intro m data rest hm hdata hin
    have hlong : (splice (s'.block ()) 0 data).length = copyBufSize := by
      rw [splice_length (by omega), hlen]
    apply Ends.bind
    refine (ends_sendLoop (by rw [Machine.fill_block]; omega) (by omega) (by omega)).mono ?_
    rintro ok s₂ ⟨j, hsent, hj⟩
    have hmore := h.more hin (by omega) hsent
    have hinput := congrArg List.length hin
    rw [List.length_append] at hinput
    have hrest : s₂.input = rest := hsent.input
    have hpatience : s₂.patience ≤ s'.patience := hsent.patience
    rcases hj with ⟨rfl, rfl⟩ | ⟨rfl, hj, hfault⟩
    · refine Ends.pure ⟨⟨⟨_, hdata ▸ hmore⟩, ?_⟩, ?_⟩
      · rw [hsent.block, Machine.fill_block, hlong]
      · rw [hrest]
        omega
    · exact Ends.pure ⟨_, _, hmore, by omega, hfault⟩
  · intro hpos
    refine Ends.pure ⟨⟨⟨k, h.delivered, h.ordered, h.input, h.output⟩, hlen⟩, ?_⟩
    show s'.input.length + (s'.patience - 1) < s'.input.length + s'.patience
    omega
  · exact fun hfault => Ends.pure ⟨k, k, h, rfl, hfault⟩

/-! ## The functions -/

/-- Fewer than `n` bytes arrive only at the end of the input or after a failure. -/
theorem ends_recvExact (hn : n ≤ (s.block ()).length) (hsize : n < 2 ^ 64) :
    Ends (Guarded (Inside n) (DoesIf faults)) (fun (r : Int) s' => ∃ k, Received s k s' ∧
      (r = n ∧ k = n ∨ r = 0 ∧ k < n ∧ s'.input = [] ∨ r = -1 ∧ k < n ∧ faults))
      (recvExact n) s := by
  apply Ends.bind
  refine (ends_receiveLoop hn hsize).mono ?_
  rintro ⟨k, stop⟩ s' ⟨h, hstop⟩
  cases stop with
  | full => exact Ends.pure ⟨k, h, .inl ⟨congrArg Nat.cast hstop, hstop⟩⟩
  | ended => exact Ends.pure ⟨k, h, .inr (.inl ⟨rfl, hstop⟩)⟩
  | failed => exact Ends.pure ⟨k, h, .inr (.inr ⟨rfl, hstop⟩)⟩

theorem ends_sendAll (hn : n ≤ (s.block ()).length) (hsize : n < 2 ^ 64) :
    Ends (Guarded (Inside n) (DoesIf faults)) (fun r s' => ∃ k, Sent s k s' ∧
      (r = 0 ∧ k = n ∨ r = -1 ∧ k < n ∧ faults)) (sendAll n) s := by
  apply Ends.bind
  refine (ends_sendLoop hn hsize (Nat.le_refl n)).mono ?_
  rintro ok s' ⟨k, h, ⟨rfl, hk⟩ | ⟨rfl, hk⟩⟩
  · exact Ends.pure ⟨k, h, .inl ⟨rfl, hk⟩⟩
  · exact Ends.pure ⟨k, h, .inr ⟨rfl, hk⟩⟩

/-- The bytes that `read_all_file` gives to its caller: as many as the file was said to have, or
else all that the file has. -/
def Loaded (s : Machine Unit) (r : Option Nat) (s' : Machine Unit) : Prop :=
  s'.output = s.output ∧ ∀ len, r = some len → ∃ sz : Nat, s.size = some (sz : Int) ∧
    sz ≤ maxFileSize ∧ len = min sz s.input.length ∧
    (s'.block ()).take len = s.input.take len ∧ s'.input = s.input.drop len

theorem Loaded.none (h : s'.output = s.output) : Loaded s none s' := by
  refine ⟨h, fun len hlen => ?_⟩
  cases hlen

theorem Loaded.some {sz : Nat} (hsize : s.size = some (sz : Int)) (hmax : sz ≤ maxFileSize)
    {junk : List UInt8} (h : Received (s.put () junk) k s') (hk : k = min sz s.input.length) :
    Loaded s (some k) s' := by
  refine ⟨h.output, fun len hlen => ?_⟩
  cases hlen
  exact ⟨sz, hsize, hmax, hk, h.front, h.input⟩

theorem ends_close {P : α → Machine Unit → Prop} {a : α} (h : P a s) :
    Ends (Guarded (Inside cap) (DoesIf faults)) P (do let _ ← ask (.attempt .close); pure a) s :=
  ends_attempt trivial fun _ _ => Ends.pure h

/-- `read_all_file` gives up only where a call fails, or where the file has no length that it
takes. -/
theorem ends_readAllFile :
    Ends (Guarded (Inside (s.size.getD 0).toNat) (DoesIf faults)) (fun r s' => Loaded s r s' ∧
      (r = none → faults ∨ ∀ sz : Nat, s.size = some (sz : Int) → maxFileSize < sz))
      readAllFile s := by
  apply ends_attempt trivial
  rintro (_ | _) hfault
  · exact Ends.pure ⟨.none rfl, fun _ => .inl (hfault rfl)⟩
  apply ends_size trivial
  cases hsize : s.size with
  | none => exact ends_close ⟨.none rfl, fun _ => .inr fun sz h => absurd h.symm (by simp)⟩
  | some size =>
    dsimp only
    split
    · next hbad =>
      refine ends_close ⟨.none rfl, fun _ => .inr fun sz h => ?_⟩
      obtain rfl : size = sz := Option.some.inj h
      omega
    · next hok =>
      obtain ⟨sz, rfl⟩ : ∃ sz : Nat, size = sz := Int.eq_ofNat_of_zero_le (by omega)
      have hsmall : maxFileSize = 67108864 := rfl
      have hmax : sz ≤ maxFileSize := by omega
      rw [Int.toNat_natCast, Option.getD_some, Int.toNat_natCast]
      apply ends_malloc trivial
      · exact fun hfault => ends_close ⟨.none rfl, fun _ => .inl hfault⟩
      intro junk hjunk
      have hroom : sz ≤ ((s.put () junk).block ()).length := by
        rw [Machine.put_same, hjunk]
        split <;> omega
      apply Ends.bind
      refine (ends_receiveLoop hroom (by omega)).mono ?_
      rintro ⟨k, stop⟩ s' ⟨h, hstop⟩
      have hdelivered : k ≤ s.input.length := h.delivered
      have hsome : ∀ {P : Prop}, k = min sz s.input.length →
          Loaded s (some k) s' ∧ (some k = none → P) := fun hk =>
        ⟨.some hsize hmax h hk, fun hnone => absurd hnone (Option.some_ne_none k)⟩
      cases stop with
      | full =>
        obtain rfl : k = sz := hstop
        exact ends_close (hsome (Nat.min_eq_left hdelivered).symm)
      | ended =>
        obtain ⟨hk, hnil⟩ : k < sz ∧ s'.input = [] := hstop
        have hall : k = s.input.length := h.exhausted hnil
        exact ends_close (hsome (by omega))
      | failed => exact ends_close ⟨.none h.output, fun _ => .inl hstop.2⟩

/-- A part of the data, from its beginning, is in the file, and all of it on success. -/
def Stored (s : Machine Unit) (len : Nat) (ok : Bool) (s' : Machine Unit) : Prop :=
  ∃ k ≤ len, Sent s k s' ∧ (ok = true → k = len)

theorem ends_writeAllFile (hn : n ≤ (s.block ()).length) (hsize : n < 2 ^ 64) :
    Ends (Guarded (Inside n) (DoesIf faults))
      (fun ok s' => Stored s n ok s' ∧ (ok = false → faults)) (writeAllFile n) s := by
  have hfailed : Stored s n false s :=
    ⟨0, Nat.zero_le n, .refl s, fun h => absurd h Bool.false_ne_true⟩
  apply ends_attempt trivial
  rintro (_ | _) hfault
  · exact Ends.pure ⟨hfailed, hfault⟩
  apply ends_attempt trivial
  rintro (_ | _) hfault
  · exact Ends.pure ⟨hfailed, hfault⟩
  apply Ends.bind
  refine (ends_sendLoop hn hsize (Nat.le_refl n)).mono ?_
  rintro ok s' ⟨k, h, hk⟩
  have hle : k ≤ n := by omega
  have hstored : ∀ ok', (ok' = true → k = n) → Stored s n ok' s' := fun ok' hok' =>
    ⟨k, hle, h, hok'⟩
  have hlost : Stored s n false s' := hstored false fun h => absurd h Bool.false_ne_true
  rcases hk with ⟨rfl, rfl⟩ | ⟨rfl, hk, hfault⟩
  · apply ends_attempt trivial
    rintro (_ | _) hfault
    · exact ends_close ⟨hlost, hfault⟩
    · show Ends _ _ (ask (.attempt Step.close) >>= pure) s'
      exact ends_attempt trivial fun ok hfault => Ends.pure ⟨hstored ok fun _ => rfl, hfault⟩
  · exact ends_close ⟨hlost, fun _ => hfault⟩

/-- A part of the source, from its beginning, is in the target, and all of it on success. -/
def Duplicated (s : Machine Unit) (ok : Bool) (s' : Machine Unit) : Prop :=
  ∃ taken passed, Copied s taken passed s' ∧
    (ok = true → s'.output = s.output ++ s.input ∧ s'.input = [])

theorem ends_copyFile (hbuf : (s.block ()).length = copyBufSize) :
    Ends (Guarded (Inside copyBufSize) (DoesIf faults))
      (fun ok s' => Duplicated s ok s' ∧ (ok = false → faults)) copyFile s := by
  have hfailed : Duplicated s false s :=
    ⟨0, 0, ⟨Nat.zero_le _, Nat.le_refl 0, rfl, (List.append_nil _).symm⟩,
      fun h => absurd h Bool.false_ne_true⟩
  apply ends_attempt trivial
  rintro (_ | _) hfault
  · exact Ends.pure ⟨hfailed, hfault⟩
  apply ends_attempt trivial
  rintro (_ | _) hfault
  · exact ends_close ⟨hfailed, hfault⟩
  apply ends_attempt trivial
  rintro (_ | _) hfault
  · exact ends_close ⟨hfailed, hfault⟩
  apply Ends.bind
  refine (ends_copyLoop hbuf).mono ?_
  rintro r s' ⟨taken, passed, h, hr⟩
  have hlost : faults → Duplicated s false s' ∧ (false = false → faults) := fun hfault =>
    ⟨⟨taken, passed, h, fun h => absurd h Bool.false_ne_true⟩, fun _ => hfault⟩
  cases r with
  | done =>
    obtain ⟨rfl, hnil⟩ := hr
    have hall : s'.output = s.output ++ s.input := by
      rw [h.output, h.exhausted hnil, List.take_length]
    exact ends_attempt trivial fun ok hfault => ends_attempt trivial fun _ _ =>
      ends_close ⟨⟨passed, passed, h, fun _ => ⟨hall, hnil⟩⟩, hfault⟩
  | readFailed => exact ends_attempt trivial fun _ _ => ends_close (hlost hr.2)
  | writeFailed => exact ends_attempt trivial fun _ _ => ends_close (hlost hr.2)

/-! ## Every run, and the runs without a failed call -/

/-- Every run stays inside of the buffer and comes to an end as `Q` says; if no call fails, it comes
to an end as `S` says. -/
def Exact (cap : Nat) (p : Transfer α) (s : Machine Unit) (Q S : α → Machine Unit → Prop) : Prop :=
  Within Does (Inside cap) p s ∧ Ends Does Q p s ∧ Ends Flawless S p s

/-- One proof for both kinds of run, those with failed calls and those without. -/
theorem Exact.of_ends {p : Transfer α} {Q S : α → Machine Unit → Prop}
    {P : Prop → α → Machine Unit → Prop}
    (h : ∀ faults, Ends (Guarded (Inside cap) (DoesIf faults)) (P faults) p s)
    (hQ : ∀ a s', P True a s' → Q a s') (hS : ∀ a s', P False a s' → S a s') :
    Exact cap p s Q S :=
  ⟨(h True).within, (h True).unguarded.mono hQ, (h False).unguarded.mono hS⟩

/-- `recv_exact` gets all of its bytes as long as the other end sends them. -/
theorem recvExact_exact (hn : n ≤ (s.block ()).length) (hsize : n < 2 ^ 64) :
    Exact n (recvExact n) s
      (fun r s' => ∃ k, Received s k s' ∧
        (r = n ∧ k = n ∨ r = 0 ∧ k < n ∧ s'.input = [] ∨ r = -1 ∧ k < n))
      (fun r s' => if n ≤ s.input.length then r = n ∧ Received s n s'
        else r = 0 ∧ Received s s.input.length s') := by
  apply Exact.of_ends fun _ => ends_recvExact hn hsize
  · rintro r s' ⟨k, h, hr⟩
    exact ⟨k, h, hr.imp_right (Or.imp_right fun hr => ⟨hr.1, hr.2.1⟩)⟩
  · rintro r s' ⟨k, h, ⟨hr, rfl⟩ | ⟨hr, hk, hnil⟩ | ⟨-, -, hfault⟩⟩
    · rw [if_pos h.delivered]
      exact ⟨hr, h⟩
    · obtain rfl := h.exhausted hnil
      rw [if_neg (by omega)]
      exact ⟨hr, h⟩
    · exact hfault.elim

theorem sendAll_exact (hn : n ≤ (s.block ()).length) (hsize : n < 2 ^ 64) :
    Exact n (sendAll n) s
      (fun r s' => ∃ k, Sent s k s' ∧ (r = 0 ∧ k = n ∨ r = -1 ∧ k < n))
      (fun r s' => r = 0 ∧ Sent s n s') := by
  apply Exact.of_ends fun _ => ends_sendAll hn hsize
  · rintro r s' ⟨k, h, hr⟩
    exact ⟨k, h, hr.imp_right fun hr => ⟨hr.1, hr.2.1⟩⟩
  · rintro r s' ⟨k, h, ⟨hr, rfl⟩ | ⟨-, -, hfault⟩⟩
    · exact ⟨hr, h⟩
    · exact hfault.elim

theorem writeAllFile_exact (hn : n ≤ (s.block ()).length) (hsize : n < 2 ^ 64) :
    Exact n (writeAllFile n) s (Stored s n) (fun ok s' => ok = true ∧ Sent s n s') := by
  apply Exact.of_ends (fun _ => ends_writeAllFile hn hsize) fun _ _ h => h.1
  rintro ok s' ⟨⟨k, -, h, hall⟩, hfault⟩
  have hok : ok = true := Bool.of_not_eq_false hfault
  exact ⟨hok, hall hok ▸ h⟩

theorem readAllFile_exact (s : Machine Unit) :
    Exact (s.size.getD 0).toNat readAllFile s (Loaded s)
      (fun r s' => Loaded s r s' ∧ ∀ sz : Nat, s.size = some (sz : Int) → sz ≤ maxFileSize →
        r = some (min sz s.input.length)) := by
  apply Exact.of_ends (fun _ => ends_readAllFile) fun _ _ h => h.1
  rintro r s' ⟨h, hnone⟩
  refine ⟨h, fun sz hsz hmax => ?_⟩
  cases r with
  | none =>
    rcases hnone rfl with hfault | hlarge
    · exact hfault.elim
    · exact absurd (hlarge sz hsz) (Nat.not_lt.mpr hmax)
  | some len =>
    obtain ⟨sz', hsz', -, hlen, -⟩ := h.2 len rfl
    obtain rfl : sz' = sz := Int.ofNat.inj (Option.some.inj (hsz'.symm.trans hsz))
    rw [hlen]

theorem copyLoop_exact (hbuf : (s.block ()).length = copyBufSize) :
    Exact copyBufSize copyLoop s
      (fun r s' => ∃ taken passed, Copied s taken passed s' ∧ match r with
        | .done => passed = taken ∧ s'.input = []
        | .readFailed => passed = taken
        | .writeFailed => passed < taken)
      (fun r s' => r = .done ∧ Copied s s.input.length s.input.length s') := by
  apply Exact.of_ends fun _ => ends_copyLoop hbuf
  · rintro (_ | _ | _) s' ⟨taken, passed, h, hr⟩
    · exact ⟨taken, passed, h, hr⟩
    · exact ⟨taken, passed, h, hr.1⟩
    · exact ⟨taken, passed, h, hr.1⟩
  · rintro (_ | _ | _) s' ⟨taken, passed, h, hr⟩
    · obtain ⟨rfl, hnil⟩ := hr
      exact ⟨rfl, h.exhausted hnil ▸ h⟩
    · exact hr.2.elim
    · exact hr.2.elim

theorem copyFile_exact (hbuf : (s.block ()).length = copyBufSize) :
    Exact copyBufSize copyFile s (Duplicated s)
      (fun ok s' => ok = true ∧ s'.output = s.output ++ s.input ∧ s'.input = []) := by
  apply Exact.of_ends (fun _ => ends_copyFile hbuf) fun _ _ h => h.1
  rintro ok s' ⟨⟨_, _, -, hall⟩, hfault⟩
  have hok : ok = true := Bool.of_not_eq_false hfault
  exact ⟨hok, hall hok⟩

/-- However the calls cut the bytes, none is lost, repeated or put elsewhere, and without a failed
call all of them are moved. -/
theorem transfers_exact (s : Machine Unit) :
    (∀ n ≤ (s.block ()).length, n < 2 ^ 64 →
      Exact n (recvExact n) s
        (fun r s' => ∃ k, Received s k s' ∧
          (r = n ∧ k = n ∨ r = 0 ∧ k < n ∧ s'.input = [] ∨ r = -1 ∧ k < n))
        (fun r s' => if n ≤ s.input.length then r = n ∧ Received s n s'
          else r = 0 ∧ Received s s.input.length s') ∧
      Exact n (sendAll n) s
        (fun r s' => ∃ k, Sent s k s' ∧ (r = 0 ∧ k = n ∨ r = -1 ∧ k < n))
        (fun r s' => r = 0 ∧ Sent s n s') ∧
      Exact n (writeAllFile n) s (Stored s n) (fun ok s' => ok = true ∧ Sent s n s')) ∧
    Exact (s.size.getD 0).toNat readAllFile s (Loaded s)
      (fun r s' => Loaded s r s' ∧ ∀ sz : Nat, s.size = some (sz : Int) → sz ≤ maxFileSize →
        r = some (min sz s.input.length)) ∧
    ((s.block ()).length = copyBufSize →
      Exact copyBufSize copyLoop s
        (fun r s' => ∃ taken passed, Copied s taken passed s' ∧ match r with
          | .done => passed = taken ∧ s'.input = []
          | .readFailed => passed = taken
          | .writeFailed => passed < taken)
        (fun r s' => r = .done ∧ Copied s s.input.length s.input.length s') ∧
      Exact copyBufSize copyFile s (Duplicated s)
        (fun ok s' => ok = true ∧ s'.output = s.output ++ s.input ∧ s'.input = [])) := by
  refine ⟨fun n hn hsize => ?_, readAllFile_exact s, fun hbuf => ?_⟩
  · exact ⟨recvExact_exact hn hsize, sendAll_exact hn hsize, writeAllFile_exact hn hsize⟩
  · exact ⟨copyLoop_exact hbuf, copyFile_exact hbuf⟩

/-- A buffer of the size that `op_copyfile` has, and a short file. -/
def shortFile : Machine Unit where
  block _ := List.replicate copyBufSize 0
  input := [104, 105]
  output := []
  patience := 3
  size := some 2

theorem transfers_exact_shortFile :
    (shortFile.block ()).length = copyBufSize ∧
    Ends Flawless (fun r s' => r = 2 ∧ Received shortFile 2 s') (recvExact 2) shortFile ∧
    Ends Flawless (fun r s' => r = 0 ∧ Sent shortFile 2 s') (sendAll 2) shortFile ∧
    Exact copyBufSize copyFile shortFile (Duplicated shortFile)
      (fun ok s' => ok = true ∧ s'.output = [104, 105] ∧ s'.input = []) := by
  have hbuf : (shortFile.block ()).length = copyBufSize := List.length_replicate
  obtain ⟨hmoved, -, hcopy⟩ := transfers_exact shortFile
  obtain ⟨hreceive, hsend, -⟩ := hmoved 2 (hbuf.symm ▸ by decide) (by decide)
  exact ⟨hbuf, hreceive.2.2, hsend.2.2, (hcopy hbuf).2⟩

end ServerTransfers
