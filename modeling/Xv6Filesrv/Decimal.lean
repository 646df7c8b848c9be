import Mathlib.Data.List.Basic
import Mathlib.Tactic.Ring

/-!
# Decimal numerals

Printing a natural number in decimal and reading it back, over ASCII bytes.
-/

namespace Decimal

def digit (d : Nat) : UInt8 := UInt8.ofNat (48 + d)

def isDigit (c : UInt8) : Bool := decide (48 ≤ c ∧ c ≤ 57)

/-- The digits of `n`, the most significant first. -/
def numeral (n : Nat) : List UInt8 :=
  if n < 10 then [digit n] else numeral (n / 10) ++ [digit (n % 10)]
termination_by n

/-- The number that a list of digits stands for. -/
def value (l : List UInt8) : Nat := l.foldl (fun v c => 10 * v + (c.toNat - 48)) 0

theorem digit_toNat {d : Nat} (h : d < 10) : (digit d).toNat = 48 + d := by
  rw [digit, UInt8.toNat_ofNat_of_lt']
  change 48 + d < 256
  omega

theorem isDigit_iff (c : UInt8) : isDigit c = true ↔ 48 ≤ c.toNat ∧ c.toNat ≤ 57 := by
  simp [isDigit, UInt8.le_iff_toNat_le]

theorem digit_isDigit {d : Nat} (h : d < 10) : isDigit (digit d) = true := by
  rw [isDigit_iff, digit_toNat h]
  omega

theorem numeral_of_lt {n : Nat} (h : n < 10) : numeral n = [digit n] := by
  rw [numeral, if_pos h]

theorem numeral_of_ge {n : Nat} (h : 10 ≤ n) :
    numeral n = numeral (n / 10) ++ [digit (n % 10)] := by
  rw [numeral, if_neg (by omega)]

/-- Numerals by their last digit. -/
theorem numeral_induction {P : Nat → Prop} (hlow : ∀ n < 10, P n)
    (hstep : ∀ n, 10 ≤ n → P (n / 10) → P n) (n : Nat) : P n := by
  induction n using Nat.strong_induction_on with
  | _ n ih =>
    by_cases h : n < 10
    · exact hlow n h
    · exact hstep n (by omega) (ih (n / 10) (by omega))

theorem numeral_ne_nil (n : Nat) : numeral n ≠ [] := by
  induction n using numeral_induction with
  | hlow n h => simp [numeral_of_lt h]
  | hstep n h ih => simp [numeral_of_ge h]

theorem numeral_digits (n : Nat) : ∀ c ∈ numeral n, isDigit c = true := by
  induction n using numeral_induction with
  | hlow n h =>
    intro c hc
    rw [numeral_of_lt h, List.mem_singleton] at hc
    rw [hc]
    exact digit_isDigit h
  | hstep n h ih =>
    intro c hc
    rw [numeral_of_ge h, List.mem_append, List.mem_singleton] at hc
    cases hc with
    | inl hc => exact ih c hc
    | inr hc =>
      rw [hc]
      exact digit_isDigit (Nat.mod_lt n (by decide))

theorem value_numeral (n : Nat) : value (numeral n) = n := by
  induction n using numeral_induction with
  | hlow n h => simp [numeral_of_lt h, value, digit_toNat h]
  | hstep n h ih =>
    have hd : n % 10 < 10 := Nat.mod_lt n (by decide)
    have hsplit : value (numeral (n / 10) ++ [digit (n % 10)]) =
        10 * value (numeral (n / 10)) + ((digit (n % 10)).toNat - 48) := by
      simp [value]
    rw [numeral_of_ge h, hsplit, ih, digit_toNat hd]
    omega

theorem numeral_length_le (k n : Nat) (h : n < 10 ^ (k + 1)) : (numeral n).length ≤ k + 1 := by
  induction k generalizing n with
  | zero => simp [numeral_of_lt (n := n) (by omega)]
  | succ k ih =>
    by_cases hlow : n < 10
    · simp [numeral_of_lt hlow]
    · have hdiv : n / 10 < 10 ^ (k + 1) := by
        rw [pow_succ] at h
        omega
      have hlen := ih (n / 10) hdiv
      rw [numeral_of_ge (by omega), List.length_append, List.length_singleton]
      omega

end Decimal
