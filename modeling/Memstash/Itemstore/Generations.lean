import Memstash.Itemstore.Item

/-! The generation in a meta word runs on a cycle of even numbers, with an odd one inside each write. -/

namespace Memstash

namespace MetaWord

/-- The words agree on the bits a copy is validated against. -/
def Same (word other : MetaWord) : Prop := word &&& aliveGenMask = other &&& aliveGenMask

theorem Same.gen {word other : MetaWord} (same : Same word other) :
    word &&& genMask = other &&& genMask := and_eq_of_and_eq same (by decide)

theorem Same.isDead {word other : MetaWord} (same : Same word other) : word.isDead = other.isDead := by
  rw [MetaWord.isDead, MetaWord.isDead, and_eq_of_and_eq same (by decide)]

theorem Same.parity {word other : MetaWord} (same : Same word other) :
    word.getLsbD 0 = other.getLsbD 0 := getLsbD_eq_of_and_eq same (by decide)

theorem gen_toNat (word : MetaWord) : (word &&& genMask).toNat = word.toNat % 2 ^ 28 := by
  rw [BitVec.toNat_and, show genMask.toNat = 2 ^ 28 - 1 by decide, Nat.and_two_pow_sub_one_eq_mod]

/-- A fitted generation as a number. -/
theorem liveGen_toNat (gen : MetaWord) :
    (liveGen gen).toNat = if gen.toNat % 2 ^ 28 = 0 then 2 else gen.toNat % 2 ^ 28 := by
  unfold liveGen
  dsimp only
  rw [← gen_toNat]
  by_cases zero : gen &&& genMask = 0
  · simp [zero]
  · have positive : (gen &&& genMask).toNat ≠ 0 := fun none => zero (BitVec.eq_of_toNat_eq (by simpa using none))
    rw [if_neg zero, if_neg positive]

theorem getLsbD_zero_eq_false_iff (word : MetaWord) : word.getLsbD 0 = false ↔ word.toNat % 2 = 0 := by
  simp [BitVec.getLsbD, Nat.testBit_zero]

/-- How many generations an occupancy has behind it, on the cycle of the even positive ones. -/
def turn (word : MetaWord) : Nat := (word &&& genMask).toNat / 2 - 1

/-- The number of even positive generations. -/
def cycle : Nat := 2 ^ 27 - 1

theorem Same.turn {word other : MetaWord} (same : Same word other) : word.turn = other.turn := by
  rw [MetaWord.turn, MetaWord.turn, same.gen]

theorem gen_ne_zero_iff (word : MetaWord) : word &&& genMask ≠ 0#64 ↔ word.toNat % 2 ^ 28 ≠ 0 := by
  rw [← gen_toNat, Ne, Ne, ← BitVec.toNat_inj]
  rfl

/-- Opening a write of an even occupied word leaves an odd one at the same turn. -/
theorem withGen_begin {word : MetaWord} (even : word.getLsbD 0 = false)
    (occupied : word &&& genMask ≠ 0#64) :
    (word.withGen ((word + 1#64) &&& genMask)).getLsbD 0 = true ∧
      1 < (word.withGen ((word + 1#64) &&& genMask) &&& genMask).toNat ∧
      (word.withGen ((word + 1#64) &&& genMask)).turn = word.turn := by
  have inside : (word + 1#64) &&& genMask &&& genMask = (word + 1#64) &&& genMask := by
    rw [BitVec.and_assoc, BitVec.and_self]
  have gen : word.withGen ((word + 1#64) &&& genMask) &&& genMask = (word + 1#64) &&& genMask :=
    Item.withGen_gen inside
  have small := word.isLt
  rw [getLsbD_zero_eq_false_iff] at even
  rw [gen_ne_zero_iff] at occupied
  refine ⟨?_, ?_, ?_⟩
  · rw [getLsbD_eq_of_and_eq gen (by decide), Item.parity_succ, (getLsbD_zero_eq_false_iff word).mpr even]
    rfl
  · rw [gen, gen_toNat, BitVec.toNat_add, BitVec.toNat_ofNat]
    omega
  · rw [turn, gen, gen_toNat, turn, gen_toNat, BitVec.toNat_add, BitVec.toNat_ofNat]
    omega

/-- Closing a write of an odd word leaves an even one, one turn on. -/
theorem liveGen_end {word : MetaWord} (odd : word.getLsbD 0 = true)
    (opened : 1 < (word &&& genMask).toNat) :
    (liveGen (word + 1#64)).getLsbD 0 = false ∧
      (liveGen (word + 1#64)).toNat / 2 - 1 = (word.turn + 1) % cycle := by
  have number : word.toNat % 2 = 1 := by
    by_contra other
    have even := (getLsbD_zero_eq_false_iff word).mpr (by omega)
    rw [odd] at even
    exact absurd even (by decide)
  have small := word.isLt
  rw [gen_toNat] at opened
  refine ⟨by rw [liveGen_parity, Item.parity_succ, odd]; rfl, ?_⟩
  rw [liveGen_toNat, turn, gen_toNat, cycle, BitVec.toNat_add, BitVec.toNat_ofNat]
  split <;> omega

/-- Publishing over an even occupied word leaves an even one, one turn on. -/
theorem liveGen_publish {word : MetaWord} (even : word.getLsbD 0 = false)
    (occupied : word &&& genMask ≠ 0#64) :
    (liveGen ((word + 2#64) &&& ~~~1#64)).toNat / 2 - 1 = (word.turn + 1) % cycle := by
  have whole : (word + 2#64) &&& ~~~1#64 = word + 2#64 := by
    -- The bit that is cleared is clear already.
    have clear : (word + 2#64).getLsbD 0 = false := by
      rw [getLsbD_zero_eq_false_iff] at even ⊢
      have small := word.isLt
      rw [BitVec.toNat_add, BitVec.toNat_ofNat]
      omega
    ext i bound
    rw [BitVec.getElem_and, BitVec.getElem_not]
    by_cases low : i = 0
    · subst low
      rw [← BitVec.getLsbD_eq_getElem, clear]
      rfl
    · rw [show (1#64 : MetaWord) = BitVec.twoPow 64 0 by decide, BitVec.getElem_twoPow]
      simp [low]
  have small := word.isLt
  rw [getLsbD_zero_eq_false_iff] at even
  rw [gen_ne_zero_iff] at occupied
  rw [whole, liveGen_toNat, turn, gen_toNat, cycle, BitVec.toNat_add, BitVec.toNat_ofNat]
  split <;> omega

end MetaWord

end Memstash
