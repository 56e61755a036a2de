import Mathlib.Algebra.Order.Group.Nat
import SourceRepair.Recovery.Backoff

/-!
# Delays double exactly

A delay is computed with numbers of 64 bits: the factor stops growing where a shift would leave them, and the
product and the sum stop at the largest of them. The longest delay is such a number too, so none of this shows: the
delay is what doubling without any bound gives, cut off at the longest delay.
-/

namespace SourceRepair.Recovery.Backoff

variable {b : Backoff} {n jitter : Nat}

theorem factor_of_lt (small : n < 64) : factor n = 2 ^ n := by
  rw [factor, if_pos small, Nat.one_shiftLeft]

/-- Where the factor is too small the product is too large for 64 bits anyway, or it is zero. -/
theorem saturated_product (a n : Nat) : min (a * factor n) ceiling = min (a * 2 ^ n) ceiling := by
  by_cases small : n < 64
  · rw [factor_of_lt small]
  · rcases Nat.eq_zero_or_pos a with rfl | pos
    · rw [Nat.zero_mul, Nat.zero_mul]
    · have large : ceiling ≤ 2 ^ n :=
        calc ceiling ≤ 2 ^ 64 := by decide
          _ ≤ 2 ^ n := Nat.pow_le_pow_right (by decide) (Nat.le_of_not_lt small)
      have same : factor n = ceiling := if_neg small
      rw [same, Nat.min_eq_right (Nat.le_mul_of_pos_left _ pos),
        Nat.min_eq_right (large.trans (Nat.le_mul_of_pos_left _ pos))]

theorem le_ceiling (fits : b.longest < UInt64.size) : b.longest ≤ ceiling := Nat.le_sub_one_of_lt fits

theorem baseDelay_eq (fits : b.longest < UInt64.size) : b.baseDelay n = min (b.base * 2 ^ n) b.longest := by
  rw [baseDelay, saturated_product, Nat.min_assoc, Nat.min_eq_right (le_ceiling fits)]

theorem baseDelay_mono (fits : b.longest < UInt64.size) {m : Nat} (earlier : m ≤ n) :
    b.baseDelay m ≤ b.baseDelay n := by
  rw [baseDelay_eq fits, baseDelay_eq fits]
  have factors : 2 ^ m ≤ 2 ^ n := Nat.pow_le_pow_right (by decide) earlier
  exact min_le_min_right _ (Nat.mul_le_mul_left b.base factors)

theorem delay_eq (fits : b.longest < UInt64.size) : b.delay n jitter = min (b.baseDelay n + jitter) b.longest := by
  rw [delay, Nat.min_assoc, Nat.min_eq_right (le_ceiling fits)]

/-- The delay doubles with each attempt up to the longest one, so it never falls, and its random part adds at most a
quarter and stays below the longest one. -/
theorem delays_double (b : Backoff) (fits : b.longest < UInt64.size) :
    (∀ n, b.baseDelay n = min (b.base * 2 ^ n) b.longest) ∧ (∀ m n, m ≤ n → b.baseDelay m ≤ b.baseDelay n) ∧
      ∀ n jitter, jitter ≤ b.baseDelay n / 4 → b.baseDelay n ≤ b.delay n jitter ∧
        b.delay n jitter ≤ min (b.baseDelay n + b.baseDelay n / 4) b.longest := by
  refine ⟨fun n => baseDelay_eq fits, fun m n => baseDelay_mono fits, fun n jitter drawn => ?_⟩
  have capped : b.baseDelay n ≤ b.longest := Nat.min_le_right _ _
  rw [delay_eq fits]
  constructor
  · exact Nat.le_min.mpr ⟨Nat.le_add_right _ _, capped⟩
  · exact min_le_min_right _ (Nat.add_le_add_left drawn _)

theorem delays_double_large : (2 ^ 64 - 1 : Nat) < UInt64.size ∧
    (⟨7, 2 ^ 64 - 1⟩ : Backoff).baseDelay 61 = 7 * 2 ^ 61 ∧ (⟨7, 2 ^ 64 - 1⟩ : Backoff).baseDelay 62 = 2 ^ 64 - 1 ∧
    (⟨7, 2 ^ 64 - 1⟩ : Backoff).baseDelay 64 = 2 ^ 64 - 1 ∧
    (⟨7, 2 ^ 64 - 1⟩ : Backoff).baseDelay 61 ≤ (⟨7, 2 ^ 64 - 1⟩ : Backoff).delay 61 (7 * 2 ^ 59) := by
  have fits : (2 ^ 64 - 1 : Nat) < UInt64.size := by decide
  obtain ⟨exact, -, bounds⟩ := delays_double ⟨7, 2 ^ 64 - 1⟩ fits
  have last : (⟨7, 2 ^ 64 - 1⟩ : Backoff).baseDelay 61 = 7 * 2 ^ 61 := by
    rw [exact]
    decide
  refine ⟨fits, last, ?_, ?_, (bounds 61 _ ?_).1⟩
  · rw [exact]
    decide
  · rw [exact]
    decide
  · rw [last]
    decide

end SourceRepair.Recovery.Backoff
