import Xv6Filesrv.ServerCalls

/-!
# The compressed format, read and written

`rle_compress_bytes` and `rle_decompress_bytes` when they get the memory that they ask for.  The
decoder takes what is in the format and nothing else, it undoes the encoder, and no bytes that it
takes are shorter than what the encoder makes of their meaning.
-/

namespace ServerCodec

open ServerResp ServerPaths ServerRle ServerOps ProgramRuns

/-- Memory is there; other calls are answered in any way. -/
def Granted (_ : Unit) : (c : Call) → Answer c → Unit → Prop
  | .malloc _, got, _ => got = true
  | _, _, _ => True

/-- The bytes that the decoder makes of an input, if it takes it. -/
def rleDecode (input : Bytes) : Option Bytes :=
  if input.take 4 ≠ rleHeader ∨ (input.length - 4) % 2 ≠ 0 then none
  else (rleTotal 0 (input.drop 4)).map fun _ => rleExpand (input.drop 4)

theorem ends_malloc {α : Type} {Q : α → Unit → Prop} {n : Nat} {k : Bool → Server α}
    (h : Ends Granted Q (k true) ()) : Ends Granted Q (ask (.malloc n) >>= k) () := by
  apply Ends.bind
  refine .perform ⟨true, (), rfl⟩ fun got _ hgot => ?_
  cases hgot
  exact h

theorem ends_setErrno {α : Type} {Q : α → Unit → Prop} {e : Errno} {k : Unit → Server α}
    (h : Ends Granted Q (k ()) ()) : Ends Granted Q (ask (.setErrno e) >>= k) () := by
  apply Ends.bind
  exact .perform ⟨(), (), trivial⟩ fun _ _ _ => h

theorem ends_rleCompressBytes (input : Bytes) :
    Ends Granted (fun out _ => out = some (rleCompress input)) (rleCompressBytes input) () :=
  ends_malloc (.pure rfl)

theorem ends_rleDecompressBytes (input : Bytes) :
    Ends Granted (fun out _ => out = rleDecode input) (rleDecompressBytes input) () := by
  unfold rleDecompressBytes rleDecode
  by_cases hhead : input.take 4 = rleHeader
  · rw [if_neg (not_not_intro hhead)]
    cases htotal : rleTotal 0 (input.drop 4) with
    | none =>
      refine ends_setErrno (.pure ?_)
      rw [Option.map_none, ite_self]
    | some total =>
      by_cases heven : (input.length - 4) % 2 = 0
      · simp only [heven, hhead, ne_eq, not_true_eq_false, or_self, if_false]
        exact ends_malloc (.pure rfl)
      · simp only [heven, ne_eq, not_false_eq_true, or_true, if_true]
        exact ends_setErrno (.pure rfl)
  · simp only [hhead, ne_eq, not_false_eq_true, true_or, if_true]
    exact ends_setErrno (.pure rfl)

/-! ## Round trip -/

theorem rleDecode_rleCompress {input : Bytes} (h : input.length ≤ maxFileSize) :
    rleDecode (rleCompress input) = some input := by
  have hhead : (rleCompress input).take 4 = rleHeader := rfl
  have hdrop : (rleCompress input).drop 4 = rleRuns input := rfl
  have heven : ((rleCompress input).length - 4) % 2 = 0 := by
    rw [← List.length_drop, hdrop, rleRuns_even]
  rw [rleDecode, if_neg (by simp [hhead, heven]), hdrop, rleTotal_rleRuns input 0 (by omega),
    rleExpand_rleRuns, Option.map_some]

/-- The encoder and then the decoder. -/
def recode (input : Bytes) : Server (Option Bytes) := do
  match ← rleCompressBytes input with
  | none => pure none
  | some out => rleDecompressBytes out

theorem decompress_undoes_compress (input : Bytes) (h : input.length ≤ maxFileSize) :
    Ends Granted (fun out _ => out = some input) (recode input) () := by
  apply Ends.bind
  refine (ends_rleCompressBytes input).mono ?_
  rintro _ ⟨⟩ rfl
  rw [← rleDecode_rleCompress h]
  exact ends_rleDecompressBytes (rleCompress input)

theorem decompress_undoes_compress_runs :
    [7, 7, 7, 0, 255].length ≤ maxFileSize ∧
    Ends Granted (fun out _ => out = some [7, 7, 7, 0, 255]) (recode [7, 7, 7, 0, 255]) () :=
  ⟨by decide, decompress_undoes_compress [7, 7, 7, 0, 255] (by decide)⟩

/-! ## No encoding is shorter -/

theorem rleDecode_length {input out : Bytes} (h : rleDecode input = some out) :
    (rleCompress out).length ≤ input.length := by
  unfold rleDecode at h
  split at h
  · cases h
  · next hok =>
    obtain ⟨_, _, rfl⟩ := Option.map_eq_some_iff.mp h
    have hhead : (input.take 4).length = 4 := by
      rw [not_not.mp fun hne => hok (.inl hne)]
      rfl
    have hruns := rleRuns_rleExpand (input.drop 4)
    rw [rleCompress, List.length_append]
    rw [List.length_drop] at hruns
    rw [List.length_take] at hhead
    have : rleHeader.length = 4 := rfl
    omega

/-- Whatever the decoder takes, the encoder writes what it meant with at most as many bytes. -/
theorem compress_is_shortest (input : Bytes) :
    Ends Granted (fun decoded _ => ∀ out, decoded = some out →
      Ends Granted (fun encoded _ => ∃ result, encoded = some result ∧
        result.length ≤ input.length) (rleCompressBytes out) ())
      (rleDecompressBytes input) () := by
  refine (ends_rleDecompressBytes input).mono ?_
  rintro decoded ⟨⟩ hdecoded out hout
  refine (ends_rleCompressBytes out).mono ?_
  rintro _ ⟨⟩ rfl
  exact ⟨_, rfl, rleDecode_length (hdecoded ▸ hout)⟩

/-! ## What the decoder takes -/

/-- How many pairs stand behind the four bytes of the header. -/
def pairCount (input : Bytes) : Nat := (input.length - 4) / 2

/-- The run bytes stand at the offsets 4, 6, 8 and so on, each in front of its value. -/
def runAt (input : Bytes) (i : Nat) : Nat := (input.getD (4 + 2 * i) 0).toNat

def valueAt (input : Bytes) (i : Nat) : UInt8 := input.getD (5 + 2 * i) 0

def runSum (input : Bytes) : Nat := ((List.range (pairCount input)).map (runAt input)).sum

/-- The meaning of an input in the format. -/
def meaning (input : Bytes) : Bytes :=
  (List.range (pairCount input)).flatMap fun i => List.replicate (runAt input i) (valueAt input i)

/-- The format of a compressed file. -/
structure Rle1 (input : Bytes) : Prop where
  header : ascii "RLE1" <+: input
  even : (input.length - 4) % 2 = 0
  small : runSum input ≤ maxFileSize

/-- The pairs of run and value that both passes walk over. -/
def pairs : Bytes → List (Nat × UInt8)
  | run :: value :: rest => (run.toNat, value) :: pairs rest
  | _ => []

def total (payload : Bytes) : Nat := ((pairs payload).map Prod.fst).sum

theorem pairs_eq (payload : Bytes) :
    pairs payload = (List.range (payload.length / 2)).map fun i =>
      ((payload.getD (2 * i) 0).toNat, payload.getD (2 * i + 1) 0) := by
  induction payload using pairs.induct with
  | case1 run value rest ih =>
    have hlen : (run :: value :: rest).length / 2 = rest.length / 2 + 1 := by
      rw [List.length_cons, List.length_cons]
      omega
    rw [pairs, ih, hlen, List.range_succ_eq_map, List.map_cons, List.map_map]
    rfl
  | case2 payload h =>
    -- a last byte without a partner is no pair
    cases payload with
    | nil => rfl
    | cons run rest =>
      cases rest with
      | nil => simp [pairs]
      | cons value rest => exact absurd rfl (h run value rest)

theorem rleExpand_pairs (payload : Bytes) :
    rleExpand payload = (pairs payload).flatMap fun x => List.replicate x.1 x.2 := by
  induction payload using pairs.induct with
  | case1 run value rest ih => rw [rleExpand, pairs, List.flatMap_cons, ih]
  | case2 payload h => rw [rleExpand, pairs, List.flatMap_nil] <;> exact h

/-- The first pass counts what the second one writes. -/
theorem rleExpand_length (payload : Bytes) : (rleExpand payload).length = total payload := by
  rw [rleExpand_pairs, List.length_flatMap, total]
  simp only [List.length_replicate]

theorem rleTotal_eq (payload : Bytes) : ∀ n ≤ maxFileSize, rleTotal n payload =
    if n + total payload ≤ maxFileSize then some (n + total payload) else none := by
  induction payload using pairs.induct with
  | case1 run value rest ih =>
    intro n hn
    have htotal : total (run :: value :: rest) = run.toNat + total rest := rfl
    rw [rleTotal, htotal]
    by_cases hbig : maxFileSize < n + run.toNat
    · rw [if_pos hbig, if_neg (by omega)]
    · rw [if_neg hbig, ih _ (by omega), Nat.add_assoc]
  | case2 payload h =>
    intro n hn
    have htotal : total payload = 0 := by
      rw [total, pairs]
      · rfl
      · exact h
    rw [rleTotal, htotal, Nat.add_zero, if_pos hn]
    exact h

/-- The pairs of an input, by their offsets in it. -/
theorem pairs_drop (input : Bytes) : pairs (input.drop 4) =
    (List.range (pairCount input)).map fun i => (runAt input i, valueAt input i) := by
  have hget : ∀ i, (input.drop 4).getD i 0 = input.getD (4 + i) 0 := by
    intro i
    rw [List.getD_eq_getElem?_getD, List.getD_eq_getElem?_getD, List.getElem?_drop]
  rw [pairs_eq, List.length_drop, pairCount]
  congr 1
  funext i
  rw [hget, hget, runAt, valueAt]
  congr 2
  omega

theorem total_drop (input : Bytes) : total (input.drop 4) = runSum input := by
  rw [total, pairs_drop, List.map_map, runSum]
  rfl

theorem rleExpand_drop (input : Bytes) : rleExpand (input.drop 4) = meaning input := by
  rw [rleExpand_pairs, pairs_drop, List.flatMap_map, meaning]

theorem take_header {input : Bytes} : input.take 4 = rleHeader ↔ ascii "RLE1" <+: input := by
  have htext : ascii "RLE1" = rleHeader := by decide
  rw [htext, List.prefix_iff_eq_take, eq_comm]
  rfl

theorem rleDecode_isSome (input : Bytes) : (rleDecode input).isSome ↔ Rle1 input := by
  rw [rleDecode, rleTotal_eq _ 0 (Nat.zero_le _), Nat.zero_add, total_drop]
  constructor
  · intro h
    split at h
    · cases h
    · next hok =>
      obtain ⟨hhead, heven⟩ := not_or.mp hok
      split at h
      · next hsmall => exact ⟨take_header.mp (not_not.mp hhead), not_not.mp heven, hsmall⟩
      · cases h
  · intro h
    rw [if_neg (by simp [take_header.mpr h.header, h.even]), if_pos h.small]
    rfl

theorem rleDecode_eq {input out : Bytes} (h : rleDecode input = some out) :
    out = meaning input ∧ rleTotal 0 (input.drop 4) = some out.length := by
  unfold rleDecode at h
  split at h
  · cases h
  · obtain ⟨n, hn, rfl⟩ := Option.map_eq_some_iff.mp h
    refine ⟨rleExpand_drop input, ?_⟩
    rw [rleTotal_eq _ 0 (Nat.zero_le _), Nat.zero_add] at hn ⊢
    rw [rleExpand_length]
    split at hn
    · next hsmall => rw [if_pos hsmall]
    · cases hn

/-- The decoder takes exactly the inputs in the format, and gives their meaning, as long as it
counted in its first pass. -/
theorem decoder_takes_its_format (input : Bytes) :
    Ends Granted (fun decoded _ => (decoded.isSome ↔ Rle1 input) ∧
      ∀ out, decoded = some out →
        out = meaning input ∧ rleTotal 0 (input.drop 4) = some out.length)
      (rleDecompressBytes input) () := by
  refine (ends_rleDecompressBytes input).mono ?_
  rintro _ ⟨⟩ rfl
  exact ⟨rleDecode_isSome input, fun _ hout => rleDecode_eq hout⟩

example : meaning (ascii "RLE1" ++ [2, 7, 0, 9, 1, 5]) = [7, 7, 5] := by decide

end ServerCodec
