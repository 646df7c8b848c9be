import Xv6Filesrv.ServerPaths

/-!
# The compressed format of the file server

The contents that `rle_compress_bytes` and `rle_decompress_bytes` of `src/file_ops.c` compute.
-/

namespace ServerRle

open ServerResp

/-- 64 MiB. -/
def maxFileSize : Nat := 67108864

/-- The bytes `RLE1`. -/
def rleHeader : Bytes := [82, 76, 69, 49]

/-- The inner loop of `rle_compress_bytes`: the bytes behind a run of length `run` are looked at
as long as they continue it and the count fits a byte. -/
def extendRun (value : UInt8) : Nat → Bytes → Nat
  | run, b :: rest => if b = value ∧ run < 255 then extendRun value (run + 1) rest else run
  | run, [] => run

/-- The outer loop of `rle_compress_bytes` on what is left of the input. -/
def rleRuns : Bytes → Bytes
  | [] => []
  | value :: rest =>
    let run := extendRun value 1 rest
    UInt8.ofNat run :: value :: rleRuns (rest.drop (run - 1))
termination_by input => input.length
decreasing_by simp only [List.length_drop, List.length_cons]; omega

def rleCompress (input : Bytes) : Bytes := rleHeader ++ rleRuns input

/-- The first pass of `rle_decompress_bytes`: the length of the output, if that is allowed. -/
def rleTotal : Nat → Bytes → Option Nat
  | total, run :: _ :: rest =>
    if maxFileSize < total + run.toNat then none else rleTotal (total + run.toNat) rest
  | total, _ => some total

/-- The second pass. -/
def rleExpand : Bytes → Bytes
  | run :: value :: rest => List.replicate run.toNat value ++ rleExpand rest
  | _ => []

/-! ## The codec -/

theorem extendRun_bounds (value : UInt8) (rest : Bytes) (run : Nat) (h : run ≤ 255) :
    run ≤ extendRun value run rest ∧ extendRun value run rest ≤ 255 := by
  induction rest generalizing run with
  | nil => exact ⟨Nat.le_refl _, h⟩
  | cons b rest ih =>
    rw [extendRun]
    split
    · next hb =>
      have := ih (run + 1) (by omega)
      omega
    · omega

/-- What is behind the first byte of a run is that byte again, as often as it is counted. -/
theorem extendRun_take (value : UInt8) (rest : Bytes) (run : Nat) (h : run ≤ 255) :
    rest = List.replicate (extendRun value run rest - run) value ++
      rest.drop (extendRun value run rest - run) := by
  induction rest generalizing run with
  | nil => simp [extendRun]
  | cons b rest ih =>
    rw [extendRun]
    split
    · next hb =>
      have hbounds := extendRun_bounds value rest (run + 1) (by omega)
      have hrun : extendRun value (run + 1) rest - run =
          extendRun value (run + 1) rest - (run + 1) + 1 := by omega
      rw [hrun, List.replicate_succ, List.drop_succ_cons, List.cons_append, ← ih _ (by omega), hb.1]
    · simp

theorem ofNat_run (value : UInt8) (rest : Bytes) :
    (UInt8.ofNat (extendRun value 1 rest)).toNat = extendRun value 1 rest := by
  have := extendRun_bounds value rest 1 (by omega)
  rw [UInt8.toNat_ofNat', Nat.mod_eq_of_lt (by omega)]

theorem run_split (value : UInt8) (rest : Bytes) :
    value :: rest = List.replicate (extendRun value 1 rest) value ++
      rest.drop (extendRun value 1 rest - 1) := by
  have hbounds := extendRun_bounds value rest 1 (by omega)
  have hrun : extendRun value 1 rest = extendRun value 1 rest - 1 + 1 := by omega
  have htake := extendRun_take value rest 1 (by omega)
  rw [hrun, List.replicate_succ, Nat.add_sub_cancel, List.cons_append, ← htake]

/-- The runs of an input are the input. -/
theorem rleExpand_rleRuns (input : Bytes) : rleExpand (rleRuns input) = input := by
  induction input using rleRuns.induct with
  | case1 => simp [rleRuns, rleExpand]
  | case2 value rest run ih =>
    rw [rleRuns, rleExpand, ofNat_run]
    rw [ih]
    exact (run_split value rest).symm

theorem rleTotal_rleRuns (input : Bytes) : ∀ total, total + input.length ≤ maxFileSize →
    rleTotal total (rleRuns input) = some (total + input.length) := by
  induction input using rleRuns.induct with
  | case1 => simp [rleRuns, rleTotal]
  | case2 value rest run ih =>
    intro total h
    have hlen := congrArg List.length (run_split value rest)
    rw [List.length_append, List.length_replicate, List.length_cons] at hlen
    rw [List.length_cons] at h ⊢
    simp only [run] at ih
    rw [rleRuns, rleTotal, ofNat_run, if_neg (by omega), ih _ (by omega)]
    congr 1
    omega

theorem rleRuns_even (input : Bytes) : (rleRuns input).length % 2 = 0 := by
  induction input using rleRuns.induct with
  | case1 => simp [rleRuns]
  | case2 value rest run ih =>
    rw [rleRuns, List.length_cons, List.length_cons]
    simp only [run] at ih
    omega

/-! ## No encoding is shorter -/

/-- Bytes that continue a run are counted one by one. -/
theorem extendRun_replicate (value : UInt8) (rest : Bytes) (n run : Nat) (h : run + n ≤ 255) :
    extendRun value run (List.replicate n value ++ rest) = extendRun value (run + n) rest := by
  induction n generalizing run with
  | zero => simp
  | succ n ih =>
    rw [List.replicate_succ, List.cons_append, extendRun, if_pos ⟨rfl, by omega⟩,
      ih (run + 1) (by omega)]
    congr 1
    omega

/-- In front of bytes that do not need more runs when some of them are left out, a run costs one
pair at most. -/
theorem rleRuns_replicate {rest : Bytes} (value : UInt8) {n : Nat} (hn : n ≤ 255)
    (hdrop : ∀ k, (rleRuns (rest.drop k)).length ≤ (rleRuns rest).length) :
    (rleRuns (List.replicate n value ++ rest)).length ≤ (rleRuns rest).length + 2 := by
  cases n with
  | zero => simp
  | succ n =>
    have hrun := extendRun_replicate value rest n 1 (by omega)
    have hbounds := extendRun_bounds value rest (1 + n) (by omega)
    have hback : (List.replicate n value ++ rest).drop (extendRun value (1 + n) rest - 1) =
        rest.drop (extendRun value (1 + n) rest - 1 - n) := by
      rw [List.drop_append, List.length_replicate, List.drop_eq_nil_of_le (by simp; omega),
        List.nil_append]
    rw [List.replicate_succ, List.cons_append, rleRuns, hrun, List.length_cons, List.length_cons,
      hback]
    have := hdrop (extendRun value (1 + n) rest - 1 - n)
    omega

/-- Bytes left out at the front never cost runs, even when the rest of a run is cut. -/
theorem rleRuns_drop (input : Bytes) :
    ∀ k, (rleRuns (input.drop k)).length ≤ (rleRuns input).length := by
  induction input using rleRuns.induct with
  | case1 => simp
  | case2 value rest run ih =>
    intro k
    simp only [run] at ih
    have hbounds := extendRun_bounds value rest 1 (by omega)
    have hlen : (rleRuns (value :: rest)).length =
        (rleRuns (rest.drop (extendRun value 1 rest - 1))).length + 2 := by
      rw [rleRuns, List.length_cons, List.length_cons]
    rw [hlen, run_split value rest, List.drop_append, List.length_replicate, List.drop_replicate]
    by_cases hk : k ≤ extendRun value 1 rest
    · rw [Nat.sub_eq_zero_of_le hk, List.drop_zero]
      exact rleRuns_replicate value (by omega) ih
    · rw [Nat.sub_eq_zero_of_le (by omega), List.replicate_zero, List.nil_append]
      exact (ih _).trans (Nat.le_add_right _ _)

/-- Pairs that expand to some bytes are at least as many as the greedy ones. -/
theorem rleRuns_rleExpand (pairs : Bytes) : (rleRuns (rleExpand pairs)).length ≤ pairs.length := by
  induction pairs using rleExpand.induct with
  | case1 run value rest ih =>
    have hrun := run.toNat_lt
    have := rleRuns_replicate value (n := run.toNat) (by omega) (rleRuns_drop (rleExpand rest))
    rw [rleExpand, List.length_cons, List.length_cons]
    omega
  | case2 pairs h =>
    rw [rleExpand]
    · simp [rleRuns]
    · exact h

/-- Bytes that change all the time. -/
def alternating : Nat → Bytes
  | 0 => []
  | n + 1 => UInt8.ofNat (n % 2) :: alternating n

theorem alternating_length (n : Nat) : (alternating n).length = n := by
  induction n with
  | zero => rfl
  | succ n ih => rw [alternating, List.length_cons, ih]

/-- They are not compressed but doubled. -/
theorem rleRuns_alternating (n : Nat) : (rleRuns (alternating n)).length = 2 * n := by
  induction n with
  | zero => rw [alternating, rleRuns, List.length_nil]
  | succ n ih =>
    have hrun : extendRun (UInt8.ofNat (n % 2)) 1 (alternating n) = 1 := by
      cases n with
      | zero => rfl
      | succ k =>
        rw [alternating, extendRun, if_neg]
        rintro ⟨he, -⟩
        have := congrArg UInt8.toNat he
        simp only [UInt8.toNat_ofNat'] at this
        omega
    rw [alternating, rleRuns, hrun, List.drop_zero, List.length_cons, List.length_cons, ih]
    omega

end ServerRle
