import Xv6Filesrv.Buffers
import Xv6Filesrv.ServerCodec

/-!
# The codec in memory

`rle_compress_bytes` and `rle_decompress_bytes` of `src/file_ops.c` as they work on their buffers,
index by index.  Neither checks the index that it writes to: the encoder trusts the capacity that
it computed from the length of its input, the second pass of the decoder trusts the total of the
first.  What they leave in the buffer is what `ServerRle` says.
-/

namespace ServerRleBounds

open Buffers ServerResp ServerRle ServerCodec Programs.Prog ProgramRuns
open ServerOps (Errno)

variable {input : Bytes}

/-- The parameter `in` and the local variable `buf`. -/
inductive Block where
  | input
  | buf
  deriving DecidableEq

abbrev Codec : Type → Type 1 := Code Block Empty

/-- `buf[w++] = v`. -/
def emit (w : Nat) (v : UInt8) : Codec Nat := do
  ask (.store .buf w v)
  ask (.add w 1)

/-- The inner loop of `rle_compress_bytes`, at index `i` of the input. -/
def extend (inLen i : Nat) (value : UInt8) : Codec Nat :=
  iterate (fun run : Nat => do
    let j ← ask (.add i run)
    if inLen ≤ j then pure (.inr run)
    else do
      let next ← ask (.load .input j)
      if next = value ∧ run < 255 then pure (.inl (run + 1)) else pure (.inr run)) 1

/-- The outer loop, with the indices `i` and `w`. -/
def compressLoop (inLen w : Nat) : Codec Nat :=
  iterate (fun x : Nat × Nat =>
    if inLen ≤ x.1 then pure (.inr x.2)
    else do
      let value ← ask (.load .input x.1)
      let run ← extend inLen x.1 value
      let count ← ask (.narrow run)
      let w ← emit x.2 count
      let w ← emit w value
      let i ← ask (.add x.1 run)
      pure (.inl (i, w))) (0, w)

/-- The value of `*out_len`, or else what `errno` is set to. -/
def rleCompressBytes (inLen : Nat) : Codec (Except Errno Nat) := do
  let double ← ask (.mul inLen 2)
  let cap ← ask (.add double 8)
  if !(← ask (.malloc .buf (if cap = 0 then 8 else cap))) then pure (.error .enomem)
  else do
    let w ← emit 0 82
    let w ← emit w 76
    let w ← emit w 69
    let w ← emit w 49
    let w ← compressLoop inLen w
    pure (.ok w)

/-- The first bytes of the input are the expected ones. -/
def checkHeader : List UInt8 → Nat → Codec Bool
  | [], _ => pure true
  | c :: header, i => do
    if (← ask (.load .input i)) ≠ c then pure false else checkHeader header (i + 1)

/-- The first pass of `rle_decompress_bytes`. -/
def totalLoop (inLen : Nat) : Codec (Option Nat) :=
  iterate (fun x : Nat × Nat => do
    let next ← ask (.add x.1 1)
    if inLen ≤ next then pure (.inr (some x.2))
    else do
      let run ← ask (.load .input x.1)
      let total ← ask (.add x.2 run.toNat)
      if maxFileSize < total then pure (.inr none)
      else do
        let i ← ask (.add x.1 2)
        pure (.inl (i, total))) (4, 0)

/-- The checks of `rle_decompress_bytes`: the value of `total` if they are passed. -/
def rleChecks (inLen : Nat) : Codec (Except Errno Nat) :=
  if inLen < 4 then pure (.error .einval)
  else do
    if !(← checkHeader rleHeader 0) then pure (.error .einval)
    else do
      match ← totalLoop inLen with
      | none => pure (.error .efbig)
      | some total => do
        let payload ← ask (.sub inLen 4)
        if payload % 2 ≠ 0 then pure (.error .einval) else pure (.ok total)

/-- The second pass. -/
def expandLoop (inLen : Nat) : Codec Nat :=
  iterate (fun x : Nat × Nat => do
    let next ← ask (.add x.1 1)
    if inLen ≤ next then pure (.inr x.2)
    else do
      let run ← ask (.load .input x.1)
      let j ← ask (.add x.1 1)
      let value ← ask (.load .input j)
      ask (.memset .buf x.2 value run.toNat)
      let w ← ask (.add x.2 run.toNat)
      let i ← ask (.add x.1 2)
      pure (.inl (i, w))) (4, 0)

def rleDecompressBytes (inLen : Nat) : Codec (Except Errno Nat) := do
  match ← rleChecks inLen with
  | .error e => pure (.error e)
  | .ok total => do
    if !(← ask (.malloc .buf (if 0 < total then total else 1))) then pure (.error .enomem)
    else do
      let w ← expandLoop inLen
      pure (.ok w)

/-- Indices below the ends of the buffers, arithmetic that does not wrap, and run bytes from 1 to
255; there is no other access. -/
def Inside (inLen cap : Nat) : Call Block Empty → Prop
  | .malloc .buf _ => True
  | .load .input i => i < inLen
  | .store .buf i _ => i < cap
  | .memset .buf i _ n => i + n ≤ cap
  | .add m n => m + n < 2 ^ 64
  | .sub m n => n ≤ m
  | .mul m n => m * n < 2 ^ 64
  | .narrow n => 1 ≤ n ∧ n ≤ 255
  | _ => False

variable {α : Type} {inLen c i w : Nat} {s : Machine Block} {Q : α → Machine Block → Prop}

/-- A byte of the input is read. -/
theorem ends_read {k : UInt8 → Codec α} (hsame : s.block .input = input) (hi : i < input.length)
    (h : Ends (Guarded (Inside input.length c) Does) Q (k input[i]) s) :
    Ends (Guarded (Inside input.length c) Does) Q (ask (.load .input i) >>= k) s := by
  subst hsame
  exact ends_load hi (List.getElem?_eq_getElem hi) h

/-! ## The encoder -/

/-- A byte is appended to the output. -/
theorem ends_emit {k : Nat → Codec α} {v : UInt8} (hw : w < c) (hc : c < 2 ^ 64)
    (hlen : (s.block .buf).length = c)
    (h : ∀ s', s'.block .input = s.block .input → (s'.block .buf).length = c →
      (s'.block .buf).take (w + 1) = (s.block .buf).take w ++ [v] →
      Ends (Guarded (Inside inLen c) Does) Q (k (w + 1)) s') :
    Ends (Guarded (Inside inLen c) Does) Q (emit w v >>= k) s := by
  have hstored : w < (s.block .buf).length := by omega
  have hwrap : w + 1 < 2 ^ 64 := by omega
  show Ends _ Q (ask (.store .buf w v) >>= fun _ => ask (.add w 1) >>= k) s
  apply ends_store hw hstored
  apply ends_add hwrap hwrap
  apply h
  · exact s.put_other _ (by decide)
  · rw [Machine.put_same, List.length_set, hlen]
  · rw [Machine.put_same, set_take hstored]

/-- The inner loop counts as `extendRun` does. -/
theorem ends_extend (hsame : s.block .input = input) (hmax : input.length ≤ maxFileSize)
    (value : UInt8) (hi : i < input.length) :
    Ends (Guarded (Inside input.length c) Does)
      (fun run s' => s' = s ∧ run = extendRun value 1 (input.drop (i + 1)))
      (extend input.length i value) s := by
  have hsmall : maxFileSize = 67108864 := rfl
  -- the run found so far is part of the whole one, and ends inside of the input
  apply Ends.iterate (fun run s' => s' = s ∧ 1 ≤ run ∧ i + run ≤ input.length ∧
    extendRun value run (input.drop (i + run)) = extendRun value 1 (input.drop (i + 1)))
    (fun run _ => 255 - run) ⟨rfl, Nat.le_refl 1, hi, rfl⟩
  rintro run _ ⟨rfl, hone, hend, hrun⟩
  have hwrap : i + run < 2 ^ 64 := by omega
  apply ends_add hwrap hwrap
  split
  · next hall =>
    refine Ends.pure ⟨rfl, ?_⟩
    rw [← hrun, List.drop_eq_nil_of_le hall, extendRun]
  · next hmore =>
    have hj : i + run < input.length := Nat.lt_of_not_le hmore
    rw [List.drop_eq_getElem_cons hj, extendRun] at hrun
    apply ends_read hsame hj
    split
    · next hsame =>
      rw [if_pos hsame, Nat.add_assoc] at hrun
      exact Ends.pure ⟨⟨rfl, by omega, by omega, hrun⟩, by omega⟩
    · next hother =>
      rw [if_neg hother] at hrun
      exact Ends.pure ⟨rfl, hrun⟩

/-- The outer loop at the indices `i` and `w`: two bytes are written for one that is read, and
what is written is the beginning of the whole output. -/
structure Encoding (input : Bytes) (i w : Nat) (s : Machine Block) : Prop where
  same : s.block .input = input
  room : (s.block .buf).length = input.length * 2 + 8
  start : i ≤ input.length
  few : w ≤ 4 + 2 * i
  rest : (s.block .buf).take w ++ rleRuns (input.drop i) = rleCompress input

/-- A run is written. -/
theorem Encoding.step {s' : Machine Block} (h : Encoding input i w s) (hi : i < input.length)
    {run : Nat} (hrun : run = extendRun input[i] 1 (input.drop (i + 1)))
    (hsame : s'.block .input = input) (hroom : (s'.block .buf).length = input.length * 2 + 8)
    (htake : (s'.block .buf).take (w + 2) = (s.block .buf).take w ++ [UInt8.ofNat run, input[i]]) :
    Encoding input (i + run) (w + 2) s' := by
  have hbounds := extendRun_bounds input[i] (input.drop (i + 1)) 1 (by omega)
  have hsplit := congrArg List.length (run_split input[i] (input.drop (i + 1)))
  simp only [List.length_append, List.length_replicate, List.length_cons, List.length_drop]
    at hsplit
  have hfew := h.few
  have hrest := h.rest
  rw [List.drop_eq_getElem_cons hi, rleRuns] at hrest
  refine ⟨hsame, hroom, by omega, by omega, ?_⟩
  rw [htake, List.append_assoc, ← hrest, List.drop_drop]
  subst hrun
  have hnext : i + 1 + (extendRun input[i] 1 (input.drop (i + 1)) - 1) =
      i + extendRun input[i] 1 (input.drop (i + 1)) := by omega
  rw [hnext]
  rfl

theorem ends_compressLoop (hmax : input.length ≤ maxFileSize) (h : Encoding input 0 w s) :
    Ends (Guarded (Inside input.length (input.length * 2 + 8)) Does)
      (fun w s' => (s'.block .buf).take w = rleCompress input)
      (compressLoop input.length w) s := by
  have hsmall : maxFileSize = 67108864 := rfl
  apply Ends.iterate (fun x s' => Encoding input x.1 x.2 s') (fun x _ => input.length - x.1) h
  rintro ⟨i, w⟩ s hi
  have hstart := hi.start
  have hfew := hi.few
  dsimp only at *
  split
  · next hall =>
    refine Ends.pure ?_
    have hrest := hi.rest
    rwa [List.drop_eq_nil_of_le hall, rleRuns, List.append_nil] at hrest
  · next hmore =>
    have hlt : i < input.length := by omega
    apply ends_read hi.same hlt
    apply Ends.bind
    refine (ends_extend hi.same hmax _ hlt).mono ?_
    rintro run s' ⟨rfl, hrun⟩
    have hbounds := extendRun_bounds input[i] (input.drop (i + 1)) 1 (by omega)
    have hone : 1 ≤ run ∧ run ≤ 255 := hrun ▸ hbounds
    apply ends_narrow hone
    apply ends_emit (by omega) (by omega) hi.room
    intro s₁ hsame₁ hroom₁ htake₁
    apply ends_emit (by omega) (by omega) hroom₁
    intro s₂ hsame₂ hroom₂ htake₂
    have hwrap : i + run < 2 ^ 64 := by omega
    apply ends_add hwrap hwrap
    refine Ends.pure ⟨hi.step hlt hrun ?_ hroom₂ ?_, by omega⟩
    · rw [hsame₂, hsame₁, hi.same]
    · rw [htake₂, htake₁, List.append_assoc]
      rfl

theorem ends_rleCompressBytes (hsame : s.block .input = input) (hmax : input.length ≤ maxFileSize) :
    Ends (Guarded (Inside input.length (input.length * 2 + 8)) Does)
      (fun r s' => r = .error .enomem ∨
        ∃ w, r = .ok w ∧ (s'.block .buf).take w = rleCompress input)
      (rleCompressBytes input.length) s := by
  have hsmall : maxFileSize = 67108864 := rfl
  have hdouble : input.length * 2 < 2 ^ 64 := by omega
  have hcap : input.length * 2 + 8 < 2 ^ 64 := by omega
  apply ends_mul hdouble hdouble
  apply ends_add hcap hcap
  rw [if_neg (Nat.succ_ne_zero _)]
  apply ends_malloc trivial
  · exact fun _ => Ends.pure (.inl rfl)
  intro junk hjunk
  -- the four bytes of the header
  apply ends_emit (by omega) hcap ((Machine.put_same s _ _).symm ▸ hjunk)
  intro s₁ hsame₁ hroom₁ htake₁
  apply ends_emit (by omega) hcap hroom₁
  intro s₂ hsame₂ hroom₂ htake₂
  apply ends_emit (by omega) hcap hroom₂
  intro s₃ hsame₃ hroom₃ htake₃
  apply ends_emit (by omega) hcap hroom₃
  intro s₄ hsame₄ hroom₄ htake₄
  have hinput : s₄.block .input = input := by
    rw [hsame₄, hsame₃, hsame₂, hsame₁, s.put_other _ (by decide), hsame]
  have hstart : Encoding input 0 4 s₄ :=
    ⟨hinput, hroom₄, Nat.zero_le _, Nat.le_refl _, by
      rw [htake₄, htake₃, htake₂, htake₁]
      rfl⟩
  apply Ends.bind
  refine (ends_compressLoop hmax hstart).mono ?_
  intro w s' hw
  exact Ends.pure (.inr ⟨w, rfl, hw⟩)

/-! ## The decoder -/

/-- A pair of the payload is two bytes of the input. -/
theorem drop_pair (h : i + 1 < input.length) :
    input.drop i = input[i] :: input[i + 1] :: input.drop (i + 2) := by
  rw [List.drop_eq_getElem_cons (by omega), List.drop_eq_getElem_cons h]

/-- Less than two bytes are no pair. -/
theorem pairs_short {payload : Bytes} (h : payload.length ≤ 1) : pairs payload = [] := by
  rw [pairs]
  rintro run value rest rfl
  simp only [List.length_cons] at h
  omega

theorem ends_checkHeader (hsame : s.block .input = input) (header : Bytes) :
    ∀ i, i + header.length ≤ input.length →
    Ends (Guarded (Inside input.length c) Does)
      (fun ok s' => s' = s ∧ (ok = true ↔ (input.drop i).take header.length = header))
      (checkHeader header i) s := by
  induction header with
  | nil => exact fun i _ => Ends.pure ⟨rfl, by simp⟩
  | cons c header ih =>
    intro i hi
    rw [List.length_cons] at hi
    have hlt : i < input.length := by omega
    have htake : (input.drop i).take (c :: header).length =
        input[i] :: (input.drop (i + 1)).take header.length := by
      rw [List.length_cons, List.drop_eq_getElem_cons hlt, List.take_succ_cons]
    rw [htake]
    apply ends_read hsame hlt
    split
    · next hne => exact Ends.pure ⟨rfl, by simpa using fun heq => absurd heq hne⟩
    · next heq =>
      refine (ih (i + 1) (by omega)).mono ?_
      rintro ok s' ⟨rfl, hok⟩
      refine ⟨rfl, hok.trans ?_⟩
      rw [List.cons_eq_cons]
      exact (and_iff_right (not_not.mp heq)).symm

/-- The first pass adds up as `rleTotal` does; its index never gets past the end, even when the
input has a last byte that is no pair. -/
theorem ends_totalLoop (hsame : s.block .input = input) (hfour : 4 ≤ input.length)
    (hsize : input.length < 2 ^ 64) :
    Ends (Guarded (Inside input.length c) Does)
      (fun r s' => s' = s ∧ r = rleTotal 0 (input.drop 4)) (totalLoop input.length) s := by
  have hsmall : maxFileSize = 67108864 := rfl
  apply Ends.iterate (fun x s' => s' = s ∧ x.1 % 2 = 0 ∧ x.1 ≤ input.length ∧ x.2 ≤ maxFileSize ∧
    rleTotal x.2 (input.drop x.1) = rleTotal 0 (input.drop 4)) (fun x _ => input.length - x.1)
    ⟨rfl, rfl, hfour, Nat.zero_le _, rfl⟩
  rintro ⟨i, n⟩ s' h
  obtain ⟨rfl, heven, hle, hn, hrest⟩ := h
  dsimp only at heven hle hn hrest
  have hnext : i + 1 < 2 ^ 64 := by omega
  apply ends_add hnext hnext
  split
  · next hall =>
    refine Ends.pure ⟨rfl, ?_⟩
    rw [← hrest, rleTotal_eq _ _ hn, total, pairs_short (by rw [List.length_drop]; omega)]
    exact (if_pos hn).symm
  · next hmore =>
    have hlt : i + 1 < input.length := by omega
    have hi : i < input.length := by omega
    rw [drop_pair hlt, rleTotal] at hrest
    apply ends_read hsame hi
    have hrun := input[i].toNat_lt
    have hsum : n + input[i].toNat < 2 ^ 64 := by omega
    apply ends_add hsum hsum
    split
    · next hbig =>
      rw [if_pos hbig] at hrest
      exact Ends.pure ⟨rfl, hrest⟩
    · next hok =>
      rw [if_neg hok] at hrest
      have htwo : i + 2 < 2 ^ 64 := by omega
      apply ends_add htwo htwo
      exact Ends.pure ⟨⟨rfl, by omega, by omega, by omega, hrest⟩, by omega⟩

/-- The checks let those inputs pass that have a meaning, and then the total is its length. -/
def Verdict (input : Bytes) : Except Errno Nat → Prop
  | .ok n => ∃ out, rleDecode input = some out ∧ n = out.length
  | .error e => rleDecode input = none ∧ (e = .einval ∨ e = .efbig)

theorem rleDecode_some {input out : Bytes} (h : rleDecode input = some out) :
    out = rleExpand (input.drop 4) ∧ 4 ≤ input.length ∧ total (input.drop 4) ≤ maxFileSize := by
  obtain ⟨hok, h⟩ := Option.ite_none_left_eq_some.mp h
  obtain ⟨n, hn, rfl⟩ := Option.map_eq_some_iff.mp h
  rw [rleTotal_eq _ _ (Nat.zero_le _), Nat.zero_add] at hn
  refine ⟨rfl, ?_, (Option.ite_none_right_eq_some.mp hn).1⟩
  have hlen := congrArg List.length (not_not.mp (not_or.mp hok).1)
  rw [List.length_take] at hlen
  have : rleHeader.length = 4 := rfl
  omega

theorem ends_rleChecks (hsame : s.block .input = input) (hsize : input.length < 2 ^ 64) :
    Ends (Guarded (Inside input.length c) Does) (fun r s' => s' = s ∧ Verdict input r)
      (rleChecks input.length) s := by
  have hbad : ∀ h : input.take 4 ≠ rleHeader ∨ (input.length - 4) % 2 ≠ 0,
      Verdict input (.error .einval) := fun h => ⟨if_pos h, .inl rfl⟩
  unfold rleChecks
  split
  · next hfour =>
    have hshort : input.take 4 ≠ rleHeader := fun heq => by
      have hlen := congrArg List.length heq
      rw [List.length_take] at hlen
      have : rleHeader.length = 4 := rfl
      omega
    exact Ends.pure ⟨rfl, hbad (.inl hshort)⟩
  · next hfour =>
    have hfour : 4 ≤ input.length := Nat.le_of_not_lt hfour
    apply Ends.bind
    refine (ends_checkHeader hsame rleHeader 0 (by show 0 + 4 ≤ _; omega)).mono ?_
    rintro ok s' ⟨rfl, hok⟩
    change ok = true ↔ input.take 4 = rleHeader at hok
    cases ok with
    | false =>
      exact Ends.pure ⟨rfl, hbad (.inl fun heq => Bool.false_ne_true (hok.mpr heq))⟩
    | true =>
      apply Ends.bind
      refine (ends_totalLoop hsame hfour hsize).mono ?_
      rintro r s' ⟨rfl, rfl⟩
      cases htotal : rleTotal 0 (input.drop 4) with
      | none =>
        refine Ends.pure ⟨rfl, ?_, .inr rfl⟩
        rw [rleDecode, htotal, Option.map_none, ite_self]
      | some n =>
        apply ends_sub hfour hfour hsize
        split
        · next hodd => exact Ends.pure ⟨rfl, hbad (.inr hodd)⟩
        · next heven =>
          refine Ends.pure ⟨rfl, rleExpand (input.drop 4), ?_, ?_⟩
          · rw [rleDecode, if_neg (not_or.mpr ⟨not_not_intro (hok.mp rfl), heven⟩), htotal,
              Option.map_some]
          · rw [rleTotal_eq _ _ (Nat.zero_le _), Nat.zero_add] at htotal
            rw [rleExpand_length]
            exact (Option.some.inj (Option.ite_none_right_eq_some.mp htotal).2).symm

/-- The second pass at the indices `i` and `w`: the runs that are left fit behind `w`. -/
structure Decoding (input : Bytes) (i w : Nat) (s : Machine Block) : Prop where
  same : s.block .input = input
  room : total (input.drop 4) ≤ (s.block .buf).length
  even : i % 2 = 0
  start : i ≤ input.length
  left : w + total (input.drop i) = total (input.drop 4)
  rest : (s.block .buf).take w ++ rleExpand (input.drop i) = rleExpand (input.drop 4)

theorem ends_expandLoop (hsize : input.length < 2 ^ 64)
    (htotal : total (input.drop 4) ≤ maxFileSize) (h : Decoding input 4 0 s) :
    Ends (Guarded (Inside input.length (total (input.drop 4))) Does)
      (fun w s' => w = total (input.drop 4) ∧ (s'.block .buf).take w = rleExpand (input.drop 4))
      (expandLoop input.length) s := by
  have hsmall : maxFileSize = 67108864 := rfl
  apply Ends.iterate (fun x s' => Decoding input x.1 x.2 s') (fun x _ => input.length - x.1) h
  rintro ⟨i, w⟩ s' h
  have heven := h.even
  have hstart := h.start
  have hleft := h.left
  have hrest := h.rest
  have hroom := h.room
  dsimp only at heven hstart hleft hrest
  have hnext : i + 1 < 2 ^ 64 := by omega
  apply ends_add hnext hnext
  split
  · next hall =>
    have hpairs : pairs (input.drop i) = [] := pairs_short (by rw [List.length_drop]; omega)
    rw [total, hpairs] at hleft
    rw [rleExpand_pairs, hpairs, List.flatMap_nil, List.append_nil] at hrest
    exact Ends.pure ⟨hleft, hrest⟩
  · next hmore =>
    have hlt : i + 1 < input.length := by omega
    have hi : i < input.length := by omega
    apply ends_read h.same hi
    apply ends_add hnext hnext
    apply ends_read h.same hlt
    rw [drop_pair hlt] at hleft hrest
    rw [rleExpand] at hrest
    have hsum : total (input[i] :: input[i + 1] :: input.drop (i + 2)) =
      input[i].toNat + total (input.drop (i + 2)) := rfl
    have hfits : w + input[i].toNat ≤ total (input.drop 4) := by omega
    apply ends_memset hfits (by omega)
    have hw : w + input[i].toNat < 2 ^ 64 := by omega
    apply ends_add hw hw
    have htwo : i + 2 < 2 ^ 64 := by omega
    apply ends_add htwo htwo
    have hleft : w + input[i].toNat + total (input.drop (i + 2)) = total (input.drop 4) := by
      omega
    refine Ends.pure ⟨⟨?_, ?_, by omega, by omega, hleft, ?_⟩, by omega⟩
    · rw [s'.put_other _ (by decide), h.same]
    · rw [Machine.put_same, splice_length (by rw [List.length_replicate]; omega)]
      exact hroom
    · have htake := splice_take (l := s'.block .buf)
        (d := List.replicate input[i].toNat input[i + 1])
        (show w ≤ _ by omega)
      rw [List.length_replicate] at htake
      rw [Machine.put_same, htake, List.append_assoc]
      exact hrest

theorem ends_rleDecompressBytes (hsame : s.block .input = input) (hsize : input.length < 2 ^ 64) :
    Ends (Guarded (Inside input.length (total (input.drop 4))) Does)
      (fun r s' => match rleDecode input with
        | none => r = .error .einval ∨ r = .error .efbig
        | some out => r = .error .enomem ∨ r = .ok out.length ∧
            (s'.block .buf).take out.length = out)
      (rleDecompressBytes input.length) s := by
  apply Ends.bind
  refine (ends_rleChecks hsame hsize).mono ?_
  rintro r s' ⟨rfl, hr⟩
  cases r with
  | error e =>
    obtain ⟨hnone, he⟩ := hr
    rw [hnone]
    exact Ends.pure (he.imp (congrArg Except.error) (congrArg Except.error))
  | ok n =>
    obtain ⟨out, hout, rfl⟩ := hr
    obtain ⟨rfl, hlen, hmax⟩ := rleDecode_some hout
    rw [hout]
    apply ends_malloc trivial
    · exact fun _ => Ends.pure (.inl rfl)
    intro junk hjunk
    have hroom : total (input.drop 4) ≤ junk.length := by
      rw [hjunk, rleExpand_length]
      split <;> omega
    have hstart : Decoding input 4 0 (s'.put .buf junk) :=
      ⟨(s'.put_other _ (by decide)).trans hsame, by rwa [Machine.put_same], rfl, by omega,
        Nat.zero_add _, rfl⟩
    apply Ends.bind
    refine (ends_expandLoop hsize hmax hstart).mono ?_
    rintro w s'' ⟨rfl, hw⟩
    rw [← rleExpand_length] at hw ⊢
    exact Ends.pure (.inr ⟨rfl, hw⟩)

/-- Both functions stay inside of their buffers and their numbers, and come to an end. -/
theorem codec_stays_inside (s : Machine Block) (hsize : (s.block .input).length < 2 ^ 64) :
    let input := s.block .input
    let len := input.length
    (len ≤ maxFileSize → Within Does (Inside len (len * 2 + 8)) (rleCompressBytes len) s ∧
      Ends Does (fun r s' => r = .error .enomem ∨
        ∃ w, r = .ok w ∧ (s'.block .buf).take w = rleCompress input) (rleCompressBytes len) s) ∧
    (∀ n s', Runs Does (rleChecks len) s (.ok n) s' →
      n ≤ maxFileSize ∧ Within Does (Inside len n) (rleDecompressBytes len) s) ∧
    Within Does (Inside len (total (input.drop 4))) (rleDecompressBytes len) s ∧
    Ends Does (fun r s' => match rleDecode input with
      | none => r = .error .einval ∨ r = .error .efbig
      | some out => r = .error .enomem ∨ r = .ok out.length ∧
          (s'.block .buf).take out.length = out) (rleDecompressBytes len) s := by
  intro input len
  have hsame : s.block .input = input := rfl
  have hdecode := ends_rleDecompressBytes hsame hsize
  refine ⟨fun hmax => ?_, fun n s' hrun => ?_, hdecode.within, hdecode.unguarded⟩
  · have hencode := ends_rleCompressBytes hsame hmax
    exact ⟨hencode.within, hencode.unguarded⟩
  · have hchecks : Ends Does (fun r s' => s' = s ∧ Verdict input r) (rleChecks len) s :=
      (ends_rleChecks (c := 0) hsame hsize).unguarded
    obtain ⟨-, out, hout, rfl⟩ := hchecks.of_runs hrun
    obtain ⟨rfl, -, hmax⟩ := rleDecode_some hout
    rw [rleExpand_length]
    exact ⟨hmax, hdecode.within⟩

/-- A file of three equal bytes. -/
def threeSevens : Machine Block where
  block b := if b = .input then [82, 76, 69, 49, 3, 7] else []
  input := []
  output := []
  patience := 0
  size := none

theorem codec_stays_inside_threeSevens :
    (threeSevens.block .input).length < 2 ^ 64 ∧
    (threeSevens.block .input).length ≤ maxFileSize ∧
    Within Does (Inside 6 20) (rleCompressBytes 6) threeSevens ∧
    rleDecode [82, 76, 69, 49, 3, 7] = some [7, 7, 7] ∧
    Within Does (Inside 6 3) (rleDecompressBytes 6) threeSevens := by
  obtain ⟨hencode, -, hdecode, -⟩ := codec_stays_inside threeSevens (by decide)
  exact ⟨by decide, by decide, (hencode (by decide)).1, by decide, hdecode⟩

end ServerRleBounds
