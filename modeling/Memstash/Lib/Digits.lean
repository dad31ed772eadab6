import Mathlib

/-! Numbers packed as digits: adding one to a digit without a carry, and halving hexadecimal digits. -/

namespace Digits

/-- One digit of a number in a base. -/
def digit (b n j : Nat) : Nat := n / b ^ j % b

section Add

variable {b n i : Nat}

/-- Adding one to a digit that is not the last of the base carries nothing up. -/
theorem add_pow_div (room : digit b n i + 1 < b) {j : Nat} (above : i < j) : (n + b ^ i) / b ^ j = n / b ^ j := by
  have positive : 0 < b := by omega
  unfold digit at room
  obtain ⟨d, rfl⟩ : ∃ d, j = i + 1 + d := ⟨j - (i + 1), by omega⟩
  have step : (n + b ^ i) / b ^ i = n / b ^ i + 1 := Nat.add_div_right _ (Nat.pow_pos positive)
  have up : (n + b ^ i) / b ^ (i + 1) = n / b ^ (i + 1) := by
    rw [pow_succ, ← Nat.div_div_eq_div_mul, ← Nat.div_div_eq_div_mul, step]
    exact Nat.succ_div_of_not_dvd fun divides => by
      have last := Nat.mod_eq_zero_of_dvd divides
      rw [Nat.add_mod, Nat.mod_eq_of_lt (show 1 < b by omega), Nat.mod_eq_of_lt room] at last
      omega
  rw [pow_add, ← Nat.div_div_eq_div_mul, ← Nat.div_div_eq_div_mul, up]

/-- Adding one to a digit that is not the last of the base changes no other digit. -/
theorem digit_add_pow (room : digit b n i + 1 < b) (j : Nat) :
    digit b (n + b ^ i) j = digit b n j + if j = i then 1 else 0 := by
  have positive : 0 < b := by omega
  rcases Nat.lt_trichotomy j i with below | rfl | above
  · -- Below the digit the sum moves by a multiple of the base.
    obtain ⟨d, rfl⟩ : ∃ d, i = j + 1 + d := ⟨i - (j + 1), by omega⟩
    have split : b ^ (j + 1 + d) = b ^ j * (b * b ^ d) := by ring
    unfold digit
    rw [split, Nat.add_mul_div_left _ _ (Nat.pow_pos positive), Nat.add_mul_mod_self_left, if_neg (by omega),
      Nat.add_zero]
  · unfold digit at room ⊢
    rw [Nat.add_div_right _ (Nat.pow_pos positive), if_pos rfl, Nat.add_mod,
      Nat.mod_eq_of_lt (show 1 < b by omega), Nat.mod_eq_of_lt room]
  · rw [digit, add_pow_div room above, if_neg (by omega), Nat.add_zero, digit]

/-- Adding one to a digit that is not the last of the base makes the number no longer. -/
theorem add_pow_lt {len : Nat} (room : digit b n i + 1 < b) (inside : i < len) (short : n < b ^ len) :
    n + b ^ i < b ^ len := by
  have positive : 0 < b ^ len := Nat.pow_pos (by omega)
  rw [← Nat.div_eq_zero_iff_lt positive, add_pow_div room inside, Nat.div_eq_zero_iff_lt positive]
  exact short

end Add

/-- Halving a word and clearing the highest bit of every digit halves sixteen hexadecimal digits. -/
theorem digit_half {n j : Nat} (inside : j < 16) :
    digit 16 (n / 2 &&& 0x7777777777777777) j = digit 16 n j / 2 := by
  have power : (16 : Nat) ^ j = 2 ^ (4 * j) := by rw [pow_mul]; rfl
  unfold digit
  rw [power]
  -- Bit by bit: a digit's upper bit is cleared, the others move down by one.
  apply Nat.eq_of_testBit_eq
  intro k
  have lower : ∀ m, (m % 16).testBit k = (decide (k < 4) && m.testBit k) := fun m => Nat.testBit_mod_two_pow m 4 k
  have upper : ∀ m, (m % 16 / 2).testBit k = (decide (k + 1 < 4) && m.testBit (k + 1)) := fun m => by
    rw [Nat.testBit_div_two]
    exact Nat.testBit_mod_two_pow m 4 (k + 1)
  rw [lower, upper, Nat.testBit_div_two_pow, Nat.testBit_div_two_pow, Nat.testBit_and, Nat.testBit_div_two]
  by_cases inDigit : k < 4
  · have mask : Nat.testBit 0x7777777777777777 (k + 4 * j) = decide (k + 1 < 4) := by
      interval_cases k <;> interval_cases j <;> rfl
    rw [mask, show k + 4 * j + 1 = k + 1 + 4 * j by omega]
    simp [inDigit, Bool.and_comm]
  · simp [inDigit, show ¬ k + 1 < 4 by omega]

end Digits
