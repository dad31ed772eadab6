import Memstash.Itemstore.Item

/-! The slot table of one shard, its overflow counts, and the invariant every write preserves. -/

namespace Memstash

open Probing Scan RangeSum

variable {K V : Type}

/-- Overflow counts are kept per group of eight slots. -/
def groupShift : Nat := 3

/-- An open-addressing table whose slots are the items themselves. -/
structure FlatHashMap (K V : Type) where
  /-- Slot count minus one. -/
  mask : Nat
  /-- The items by slot index, meaningful up to the mask. -/
  slots : Nat → Item K V
  /-- Per group, how many keys homed in it live past its edge. -/
  overflows : Nat → Nat

/-- A table of the given number of slots, a power of two; the mask is a `uint32`. -/
def newFlatHashMap [Inhabited K] [Inhabited V] (itemCount : Nat) : FlatHashMap K V :=
  { mask := (itemCount - 1) % 2 ^ 32, slots := fun _ => default, overflows := fun _ => 0 }

namespace FlatHashMap

/-- The number of slots. -/
def len (t : FlatHashMap K V) : Nat := t.mask + 1

/-- Normalize a probe position into a slot index. -/
def wrap (t : FlatHashMap K V) (pos : Nat) : Nat := pos &&& t.mask

/-- The item at a probe position. -/
def itemAt (t : FlatHashMap K V) (idx : Nat) : Item K V := t.slots (t.wrap idx)

/-- The table with another item in one slot. -/
def put (t : FlatHashMap K V) (idx : Nat) (item : Item K V) : FlatHashMap K V :=
  { t with slots := Function.update t.slots (t.wrap idx) item }

/-- The probe start of a key hash: its high bits. -/
def home (t : FlatHashMap K V) (hash : BitVec 64) : Nat := (hash >>> 32).toNat &&& t.mask

/-- The overflow group of a probe position. -/
def group (t : FlatHashMap K V) (pos : Nat) : Nat := t.wrap pos >>> groupShift

/-- The first position past the overflow group of a home slot. -/
def groupEnd (home : Nat) : Nat := (home ||| 7) + 1

/-- Whether any key homed in the home slot's group lives past the group's edge. -/
def overflowed (t : FlatHashMap K V) (home : Nat) : Bool := t.overflows (t.group home) != 0

/-- Add to the `uint32` overflow count of a home slot's group. -/
def addOverflow (t : FlatHashMap K V) (home delta : Nat) : FlatHashMap K V :=
  let count := (t.overflows (t.group home) + delta) % 2 ^ 32
  { t with overflows := Function.update t.overflows (t.group home) count }

/-- Count a key that settled outside its home group. -/
def noteDisplaced (t : FlatHashMap K V) (home pos : Nat) : FlatHashMap K V :=
  if t.group home ≠ t.group pos then t.addOverflow home 1 else t

/-- Undo the count when the key at a position dies. -/
def forgetDisplaced (t : FlatHashMap K V) (home pos : Nat) : FlatHashMap K V :=
  if t.group home ≠ t.group pos then t.addOverflow home (2 ^ 32 - 1) else t

/-- Copy a live item into a table nobody reads yet and return its slot index. -/
def insertFresh (t : FlatHashMap K V) (keyHash : BitVec 64) (src : Item K V) :
    Except Fault (FlatHashMap K V × Nat) := do
  let home := t.home keyHash
  let pos ← scan
    (fun pos => if (t.itemAt pos).metaWord = 0#64 then some (.ok pos) else none) t.len home
  return ((t.put pos src).noteDisplaced home pos, t.wrap pos)

/-- What each slot is to a probe. -/
def cells (t : FlatHashMap K V) (i : Nat) : Cell K := (t.slots i).cell

/-- The slot count is a power of two, at least the initial size and within the index space. -/
def Sized (t : FlatHashMap K V) : Prop := ∃ b, 6 ≤ b ∧ b ≤ 32 ∧ t.len = 2 ^ b

/-- What every write of a shard's table preserves. -/
structure Inv (hash : K → BitVec 64) (t : FlatHashMap K V) : Prop where
  /-- The slot count never leaves the powers of two. -/
  sized : t.Sized
  /-- No write is in progress in any slot. -/
  settled : ∀ i < t.len, (t.slots i).metaWord.Settled
  /-- A bound slot carries the tag of its key. -/
  tagged : ∀ i < t.len, ∀ key, (t.cells i).key? = some key →
    (t.slots i).metaWord &&& MetaWord.tagMask = MetaWord.tagOf (hash key)
  /-- Every bound key is reached from its home, and bound once. -/
  chained : Chained t.len (fun key => t.home (hash key)) t.cells
  /-- The overflow counts are exact. -/
  counted : ∀ g < t.len / 8, (t.overflows g : Int)
    = displaced t.len (fun key => t.home (hash key)) 8 t.cells g

section Positions

variable {t : FlatHashMap K V}

/-- A table has at least sixty-four slots, in whole groups, within the index space. -/
theorem Sized.bounds (sized : t.Sized) : 64 ≤ t.len ∧ 8 ∣ t.len ∧ t.len ≤ 2 ^ 32 := by
  obtain ⟨b, low, high, size⟩ := sized
  rw [size]
  exact ⟨show 2 ^ 6 ≤ 2 ^ b from Nat.pow_le_pow_right (by omega) low,
    show 2 ^ 3 ∣ 2 ^ b from pow_dvd_pow 2 (by omega), Nat.pow_le_pow_right (by omega) high⟩

theorem Sized.wrap_eq (sized : t.Sized) (pos : Nat) : t.wrap pos = pos % t.len := by
  obtain ⟨b, _, _, size⟩ := sized
  have mask : t.mask = 2 ^ b - 1 := by
    have := size
    unfold len at this
    omega
  rw [wrap, size, mask, Nat.and_two_pow_sub_one_eq_mod]

theorem wrap_lt (t : FlatHashMap K V) (pos : Nat) : t.wrap pos < t.len :=
  Nat.lt_succ_of_le Nat.and_le_right

theorem home_lt (t : FlatHashMap K V) (hash : BitVec 64) : t.home hash < t.len :=
  Nat.lt_succ_of_le Nat.and_le_right

theorem Sized.wrap_of_lt (sized : t.Sized) {i : Nat} (within : i < t.len) : t.wrap i = i := by
  rw [sized.wrap_eq, Nat.mod_eq_of_lt within]

theorem group_eq (t : FlatHashMap K V) (pos : Nat) : t.group pos = t.wrap pos / 8 := by
  simp [group, groupShift, Nat.shiftRight_eq_div_pow]

/-- The edge of a home's group is the first multiple of eight past it. -/
theorem groupEnd_eq (home : Nat) : groupEnd home = (home / 8 + 1) * 8 := by
  -- Setting the three low bits rounds up to one below the next multiple of eight.
  have high : (home ||| 7) / 8 = home / 8 := by
    have := Nat.or_div_two_pow (a := home) (b := 7) (n := 3)
    simpa using this
  have low : (home ||| 7) % 8 = 7 := by
    have := Nat.or_mod_two_pow (a := home) (b := 7) (n := 3)
    have small : home % 8 < 8 := Nat.mod_lt _ (by omega)
    rw [show (8 : Nat) = 2 ^ 3 by rfl, this]
    interval_cases h : home % 2 ^ 3 <;> simp
  unfold groupEnd
  omega

end Positions

end FlatHashMap

end Memstash
