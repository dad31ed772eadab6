import Mathlib

/-! Fixed-width signed and unsigned integers as wrapped integers, and durations in them. -/

namespace Machine

/-- A value stored in an `int64`. -/
def int64 (x : Int) : Int := Int.bmod x (2 ^ 64)

/-- A value stored in an `int32`. -/
def int32 (x : Int) : Int := Int.bmod x (2 ^ 32)

/-- Nanoseconds in a second. -/
def second : Int := 10 ^ 9

/-- The numbers an `int64` can hold. -/
def IsInt64 (x : Int) : Prop := -2 ^ 63 ≤ x ∧ x < 2 ^ 63

/-- Zero is one of them. -/
theorem isInt64_zero : IsInt64 0 := by norm_num [IsInt64]

/-- So is the largest. -/
theorem isInt64_max : IsInt64 (2 ^ 63 - 1) := by norm_num [IsInt64]

/-- A difference of two `uint32` values. -/
def sub32 (a b : Nat) : Nat := (a + 2 ^ 32 - b % 2 ^ 32) % 2 ^ 32

/-- Values in range are stored as they are. -/
theorem int64_of_range {x : Int} (low : -2 ^ 63 ≤ x) (high : x < 2 ^ 63) : int64 x = x := by
  unfold int64
  rw [Int.bmod_def]
  split <;> omega

/-- Values in range are stored as they are. -/
theorem int32_of_range {x : Int} (low : -2 ^ 31 ≤ x) (high : x < 2 ^ 31) : int32 x = x := by
  unfold int32
  rw [Int.bmod_def]
  split <;> omega

end Machine
