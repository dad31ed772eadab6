import Mathlib

/-! The 64-bit meta word of a cached item: its layout, and what each update leaves readable. -/

namespace Memstash

/-- The packed word `[dead:1][secondChance:1][thirdChance:1][free:1][expireOff:18][tag:14][gen:28]`. -/
abbrev MetaWord := BitVec 64

namespace MetaWord

/-- Marks an item as a tombstone. -/
def dead : MetaWord := 1#64 <<< 63

/-- The first bit of the unary reference counter. -/
def secondChance : MetaWord := 1#64 <<< 62

/-- The second bit of the unary reference counter. -/
def thirdChance : MetaWord := 1#64 <<< 61

/-- Isolates the unary reference counter. -/
def chanceMask : MetaWord := secondChance ||| thirdChance

/-- Marks a dead slot no eviction queue references anymore. -/
def free : MetaWord := 1#64 <<< 60

/-- Position of the expiration offset. -/
def expireShift : Nat := 42

/-- Isolates the expiration offset. -/
def expireMask : MetaWord := (1#64 <<< 18 - 1#64) <<< expireShift

/-- Wraps offsets on the 18-bit scale. -/
def expireWrapMask : Nat := 2 ^ 18 - 1

/-- Half the wrapping scale, the longest lifetime in offset units. -/
def expireMax : Nat := 2 ^ 17 - 1

/-- Position of the slot tag. -/
def tagShift : Nat := 28

/-- Isolates the slot tag. -/
def tagMask : MetaWord := (1#64 <<< 14 - 1#64) <<< tagShift

/-- Matches a probe candidate in one compare: alive and carrying the probed tag. -/
def deadOrTag : MetaWord := dead ||| tagMask

/-- Isolates the occupancy generation. -/
def genMask : MetaWord := 1#64 <<< 28 - 1#64

/-- Isolates the part of the word a reader's snapshot is validated against. -/
def aliveGenMask : MetaWord := dead ||| genMask

/-- The slot tag of a key hash, positioned for direct compares with meta words. -/
def tagOf (hash : BitVec 64) : MetaWord := hash >>> 14 <<< tagShift &&& tagMask

/-- Fits a generation into its field, skipping the reserved value 0. -/
def liveGen (gen : MetaWord) : MetaWord :=
  let gen := gen &&& genMask
  if gen = 0 then 2 else gen

/-- Whether the tombstone bit is set. -/
def isDead (word : MetaWord) : Bool := word &&& dead != 0

/-- Whether an insert may claim the slot: dead and released by its queue. -/
def reusable (word : MetaWord) : Bool := word &&& (dead ||| free) == dead ||| free

/-- The expiration offset carried by the word, 0 when it has no lifetime. -/
def expireOff (word : MetaWord) : Nat := ((word &&& expireMask) >>> expireShift).toNat

/-- The forward distance from the clock to an offset, a `uint32` difference on the 18-bit scale. -/
def offsetDiff (off nowOff : Nat) : Nat := (off + 2 ^ 32 - nowOff % 2 ^ 32) % 2 ^ 32 &&& expireWrapMask

/-- Whether a lifetime that ends at an offset has elapsed at the given clock value. -/
def lapsed (off nowOff : Nat) : Bool :=
  if off = 0 then false
  else
    let diff := offsetDiff off nowOff
    diff == 0 || decide (expireMax < diff)

/-- Whether the lifetime a word carries has elapsed. -/
def expired (word : MetaWord) (nowOff : Nat) : Bool := lapsed word.expireOff nowOff

/-- A fresh occupancy: the offset, the tag and the generation side by side. -/
def pack (off : Nat) (tag gen : MetaWord) : MetaWord :=
  BitVec.ofNat 64 off <<< expireShift ||| tag ||| gen

/-- The word with another expiration offset. -/
def withExpire (word : MetaWord) (off : Nat) : MetaWord :=
  word &&& ~~~expireMask ||| BitVec.ofNat 64 off <<< expireShift

/-- The word with another generation. -/
def withGen (word gen : MetaWord) : MetaWord := word &&& ~~~genMask ||| gen

section Masks

variable {word bits part mask : MetaWord}

/-- Setting bits outside a field leaves the field as it was. -/
theorem or_and_of_disjoint (apart : bits &&& mask = 0#64) :
    (word ||| bits) &&& mask = word &&& mask := by
  -- Every position of the field is a position the update does not set.
  ext i bound
  have clear := congrArg (fun b => b[i]) apart
  simp only [BitVec.getElem_and, BitVec.getElem_or, BitVec.getElem_zero] at clear ⊢
  grind

theorem andNot_and_of_disjoint (apart : bits &&& mask = 0#64) :
    (word &&& ~~~bits) &&& mask = word &&& mask := by
  ext i bound
  have clear := congrArg (fun b => b[i]) apart
  simp only [BitVec.getElem_and, BitVec.getElem_not, BitVec.getElem_zero] at clear ⊢
  grind

theorem and_eq_zero_of_within (within : bits &&& part = bits) (apart : part &&& mask = 0#64) :
    bits &&& mask = 0#64 := by
  rw [← within, BitVec.and_assoc, apart, BitVec.and_zero]

theorem and_eq_of_and_eq {other : MetaWord} (same : word &&& mask = other &&& mask)
    (inside : mask &&& part = part) : word &&& part = other &&& part := by
  rw [← inside, ← BitVec.and_assoc, ← BitVec.and_assoc, same]

end Masks

/-- The tombstone test reads the top bit. -/
theorem isDead_eq (word : MetaWord) : word.isDead = word.getLsbD 63 := by
  -- A single-bit mask leaves that bit or nothing.
  have single : dead = BitVec.twoPow 64 63 := by decide
  have nonzero : BitVec.twoPow 64 63 ≠ 0#64 := by decide
  rw [isDead, single, BitVec.and_twoPow]
  cases word.getLsbD 63 <;> simp [nonzero]

theorem and_one_eq_zero_iff (word : MetaWord) : word &&& 1#64 = 0#64 ↔ word.getLsbD 0 = false := by
  rw [show (1#64 : MetaWord) = BitVec.twoPow 64 0 by decide, BitVec.and_twoPow]
  have nonzero : BitVec.twoPow 64 0 ≠ 0#64 := by decide
  cases word.getLsbD 0 <;> simp [nonzero]

theorem isDead_eq_false_iff (word : MetaWord) : word.isDead = false ↔ word &&& dead = 0#64 := by
  simp [isDead]

/-- A slot is reusable exactly when both of its top marks are set. -/
theorem reusable_eq (word : MetaWord) : word.reusable = (word.getLsbD 63 && word.getLsbD 60) := by
  -- The pair of marks splits into two single-bit masks.
  have marks : dead ||| free = BitVec.twoPow 64 63 ||| BitVec.twoPow 64 60 := by decide
  rw [reusable, marks, BitVec.and_or_distrib_left, BitVec.and_twoPow, BitVec.and_twoPow]
  cases word.getLsbD 63 <;> cases word.getLsbD 60 <;> simp <;> decide

/-- What holds of every word between two writes of its slot. -/
structure Settled (word : MetaWord) : Prop where
  /-- Only a never-occupied slot has generation 0. -/
  gen : word ≠ 0#64 → word &&& genMask ≠ 0#64
  /-- No write is in progress. -/
  even : word.getLsbD 0 = false
  /-- Only a tombstone is ever handed back to inserts. -/
  freed : word.getLsbD 60 = true → word.getLsbD 63 = true

theorem settled_zero : Settled 0#64 := ⟨by simp, by simp, by simp⟩

theorem ne_zero_of_gen {word : MetaWord} (gen : word &&& genMask ≠ 0#64) : word ≠ 0#64 := by
  rintro rfl
  simp at gen

theorem getLsbD_eq_of_and_eq {word other mask : MetaWord} (same : word &&& mask = other &&& mask)
    {i : Nat} (covered : mask.getLsbD i = true) : word.getLsbD i = other.getLsbD i := by
  have bit := congrArg (fun b => b.getLsbD i) same
  simpa [covered] using bit

theorem liveGen_within (gen : MetaWord) :
    liveGen gen &&& genMask = liveGen gen ∧ liveGen gen ≠ 0#64 := by
  unfold liveGen
  dsimp only
  split
  · decide
  · rename_i nonzero
    exact ⟨by rw [BitVec.and_assoc, BitVec.and_self], nonzero⟩

/-- Fitting a generation keeps its parity. -/
theorem liveGen_parity (gen : MetaWord) : (liveGen gen).getLsbD 0 = gen.getLsbD 0 := by
  -- Skipping the reserved value replaces one even number by another.
  have low : genMask.getLsbD 0 = true := by decide
  unfold liveGen
  dsimp only
  split
  · rename_i zero
    have bit := congrArg (fun b => b.getLsbD 0) zero
    simp only [BitVec.getLsbD_and, low, Bool.and_true] at bit
    rw [bit]
    decide
  · simp [low]

theorem tagOf_within (hash : BitVec 64) : tagOf hash &&& tagMask = tagOf hash := by
  rw [tagOf, BitVec.and_assoc, BitVec.and_self]

/-- An offset on the 18-bit scale stays inside its field. -/
theorem shifted_within {off : Nat} (small : off < 2 ^ 18) :
    BitVec.ofNat 64 off <<< expireShift &&& expireMask = BitVec.ofNat 64 off <<< expireShift := by
  -- Positions past the field read bits of the offset that are zero.
  ext i bound
  simp only [BitVec.getElem_and, expireShift, BitVec.getElem_shiftLeft]
  by_cases low : i < 42
  · simp [low]
  · by_cases high : i < 60
    · have inside : expireMask[i] = true := by
        revert i; decide
      simp [inside]
    · have clear : off.testBit (i - 42) = false :=
        Nat.testBit_lt_two_pow (lt_of_lt_of_le small (Nat.pow_le_pow_right (by omega) (by omega)))
      have zero : (BitVec.ofNat 64 off).getLsbD (i - 42) = false := by
        simp [BitVec.getLsbD_ofNat, clear]
      simp [← BitVec.getLsbD_eq_getElem, zero]

section Pack

variable {off : Nat} {tag gen : MetaWord} (small : off < 2 ^ 18) (tagIn : tag &&& tagMask = tag)
  (genIn : gen &&& genMask = gen)

include small tagIn genIn

/-- A mask apart from all three fields reads nothing out of a packed word. -/
theorem pack_and_eq_zero {mask : MetaWord} (e : expireMask &&& mask = 0#64)
    (t : tagMask &&& mask = 0#64) (g : genMask &&& mask = 0#64) : pack off tag gen &&& mask = 0#64 := by
  rw [pack, BitVec.and_or_distrib_right, BitVec.and_or_distrib_right,
    and_eq_zero_of_within (shifted_within small) e, and_eq_zero_of_within tagIn t,
    and_eq_zero_of_within genIn g, BitVec.or_zero, BitVec.or_zero]

theorem pack_tag : pack off tag gen &&& tagMask = tag := by
  rw [pack, BitVec.and_or_distrib_right, BitVec.and_or_distrib_right,
    and_eq_zero_of_within (shifted_within small) (by decide), tagIn,
    and_eq_zero_of_within genIn (by decide), BitVec.or_zero, BitVec.zero_or]

theorem pack_gen : pack off tag gen &&& genMask = gen := by
  rw [pack, BitVec.and_or_distrib_right, BitVec.and_or_distrib_right,
    and_eq_zero_of_within (shifted_within small) (by decide), genIn,
    and_eq_zero_of_within tagIn (by decide), BitVec.or_zero, BitVec.zero_or]

/-- The offset of a packed word is the offset it was packed with. -/
theorem pack_expireOff : (pack off tag gen).expireOff = off := by
  rw [expireOff, pack, BitVec.and_or_distrib_right, BitVec.and_or_distrib_right, shifted_within small,
    and_eq_zero_of_within tagIn (by decide), and_eq_zero_of_within genIn (by decide),
    BitVec.or_zero, BitVec.or_zero]
  simp only [expireShift, BitVec.toNat_ushiftRight, BitVec.toNat_shiftLeft, BitVec.toNat_ofNat,
    Nat.shiftLeft_eq, Nat.shiftRight_eq_div_pow]
  omega

theorem pack_isDead : (pack off tag gen).isDead = false := by
  rw [isDead_eq_false_iff]
  exact pack_and_eq_zero small tagIn genIn (by decide) (by decide) (by decide)

/-- A packed word with an even, positive generation is settled. -/
theorem pack_settled (positive : gen ≠ 0#64) (even : gen.getLsbD 0 = false) :
    Settled (pack off tag gen) := by
  have low : genMask.getLsbD 0 = true := by decide
  have freeBit : free.getLsbD 60 = true := by decide
  have same : pack off tag gen &&& genMask = gen &&& genMask := by
    rw [pack_gen small tagIn genIn, genIn]
  refine ⟨fun _ => ?_, ?_, ?_⟩
  · rwa [pack_gen small tagIn genIn]
  · rw [getLsbD_eq_of_and_eq same low, even]
  · intro bit
    have clear : pack off tag gen &&& free = 0#64 &&& free := by
      rw [pack_and_eq_zero small tagIn genIn (by decide) (by decide) (by decide), BitVec.zero_and]
    rw [getLsbD_eq_of_and_eq clear freeBit] at bit
    simp at bit

end Pack

end MetaWord

end Memstash
