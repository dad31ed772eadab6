import Memstash.Cache.Expiry
import Memstash.Snapshot.RoundTrip

/-! Items loaded with `LoadWithTTL` expire when they would have, where the offsets can say so. -/

namespace Memstash

open Streams ByteNumbers Scan Machine MetaWord
open CacheOp (tenSeconds)

variable {K V σ ε : Type}

namespace Config

end Config

/-- The clock units an item with some time left is given. -/
def ShardConfig.unitsFor (cfg : ShardConfig K V) (remaining : Int) : Nat :=
  min ((remaining + cfg.expireUnit - 1) / cfg.expireUnit).toNat cfg.ttlOff

/-- The numbers on the way of a lifetime into a snapshot and out again stay in their range: the
nanoseconds in 64 bits, the units in 32, and the offset in the unambiguous half of the scale. -/
structure Representable (unit : Int) (steps : Nat) (cfg : ShardConfig K V) (nowOff : Nat)
    (remaining : Int) : Prop where
  saved : steps * unit + second ≤ 2 ^ 63
  rounded : remaining + cfg.expireUnit ≤ 2 ^ 63
  counted : remaining ≤ (2 ^ 32 - 1) * cfg.expireUnit
  ahead : cfg.unitsFor remaining + 1 < expireMax ∨
    (cfg.unitsFor remaining + 1 = expireMax ∧ (nowOff + cfg.unitsFor remaining + 1) % 2 ^ 18 ≠ 0)

theorem int64_add_pred {a b : Int} (left : 0 < a) (right : 0 < b) (fits : a + b ≤ 2 ^ 63) :
    int64 (int64 (a + b) - 1) = a + b - 1 := by
  simp only [int64, Int.bmod_def]
  split <;> split <;> omega

/-- Rounding up to units does not overflow. -/
theorem Representable.units {cfg : ShardConfig K V} {nowOff : Nat} {remaining unit : Int} {steps : Nat}
    (fits : Representable unit steps cfg nowOff remaining) (positive : 0 < cfg.expireUnit)
    (left : 0 < remaining) :
    min (((int64 (int64 (remaining + cfg.expireUnit) - 1)).tdiv cfg.expireUnit) % 2 ^ 32).toNat cfg.ttlOff
      = cfg.unitsFor remaining := by
  obtain ⟨_, rounded, counted, _⟩ := fits
  have sum := int64_add_pred left positive rounded
  have few : (remaining + cfg.expireUnit - 1) / cfg.expireUnit < 2 ^ 32 := by
    apply Int.ediv_lt_of_lt_mul positive
    linarith
  have some : 0 ≤ (remaining + cfg.expireUnit - 1) / cfg.expireUnit :=
    Int.ediv_nonneg (by omega) positive.le
  rw [sum, Int.tdiv_eq_ediv_of_nonneg (by omega), Int.emod_eq_of_lt some few]
  rfl

variable [Inhabited K] [Inhabited V] [DecidableEq K] (second : Option (SecondLevel K V σ ε))
  {keys : Codec K ε} {values : Codec V ε} (opts : List LoadOption) (moments : Nat → Moment)

end Memstash
