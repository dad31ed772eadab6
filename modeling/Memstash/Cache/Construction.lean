import Memstash.Cache.Rebuilding

/-! Building a cache from its configuration: the checks, the shards and the expiration scale. -/

namespace Memstash

open Scan MetaWord Machine Finset

variable {K V : Type}

/-- Why a configuration cannot produce a working cache. -/
inductive ConfigError where
  | badCapacity
  | capacityTooLarge
  | badBudget
  | preallocWeighted
  | budgetAndCapacity
  | budgetNeedsCostFunc
  | unknownPolicy
  | badWorkers
  | badGetBatchedWorkers
  | badTTL
  deriving DecidableEq, Repr

/-- The parts of the configuration that decide the first level. -/
structure Config (K V : Type) where
  memoryCapacity : Int
  memoryBudget : Int
  costFunc : Option (K → V → BitVec 32)
  /-- The lifetime of items in nanoseconds, zero for none. -/
  ttl : Int
  refreshTTLOnGet : Bool
  /-- The eviction policy, absent when the number given names none. -/
  policy : Option PolicyKind
  preallocateMap : Bool
  shardsCount : Int
  ghostSize : Int
  writeBackWorkers : Int
  getBatchedWorkers : Int
  onDeletion : Bool
  /-- The capacity is an `int64`. -/
  capacityWord : IsInt64 memoryCapacity
  /-- The budget is an `int64`. -/
  budgetWord : IsInt64 memoryBudget
  /-- The lifetime is an `int64`. -/
  ttlWord : IsInt64 ttl

/-- What the surroundings of a cache supply: the runtime, the types and the random seeds. -/
structure Surroundings (K V : Type) where
  /-- The number of processors the runtime uses. -/
  gomaxprocs : Nat
  /-- The cost function derived from the types, when they are simple enough. -/
  autoCostFunc : Option (K → V → BitVec 32)
  /-- Whether values are at most one machine word. -/
  wordSized : Bool
  /-- The key hash under the cache's seed. -/
  keyHash : K → BitVec 64
  /-- The key hash under the policies' own seed. -/
  policyHash : K → BitVec 64

/-- The first level: shards picked by the low bits of the key hash. -/
structure MemoryLevel (K V : Type) where
  cfg : ShardConfig K V
  shards : Nat → Shard K V
  shardMask : Nat

/-- The capacity of a cache that names none. -/
def defaultMemoryCapacity : Int := 20000

/-- The initial table size of every shard. -/
def minTableSlots : Nat := 64

/-- The largest table a shard can address. -/
def maxTableSlots : Nat := 2 ^ 32

/-- The most items a shard can hold: three quarters of the slot positions. -/
def maxItems : Int := 3 * 2 ^ 30

/-- The smallest power of two that is not smaller. -/
def pow2Ceil (n : Nat) : Nat := if n ≤ 1 then 1 else 2 ^ Nat.size (n - 1)

/-- Halve a number of shards until each holds at least sixty-four weight units. -/
def halveShards (capacity : Int) : Nat → Nat → Nat
  | 0, count => count
  | fuel + 1, count =>
    if count > 1 ∧ capacity / count < 64 then halveShards capacity fuel (count / 2) else count

/-- The table a shard can fill to its capacity without a rebuild. -/
def preallocSlots (shardCap : Int) : Nat :=
  min (max (pow2Ceil (4 * (shardCap + 1) / 3 + 1).toNat) minTableSlots) maxTableSlots

namespace Config

/-- The number of shards. -/
def shardCount (cfg : Config K V) (gomaxprocs : Nat) : Nat :=
  let count := if cfg.shardsCount ≤ 0 then gomaxprocs else cfg.shardsCount.toNat
  let count := pow2Ceil (min count 128)
  -- Halving 128 seven times leaves one shard.
  halveShards cfg.memoryCapacity 7 count

/-- The number of keys the ghosts and sketches of all shards remember. -/
def ghostSizeOrDefault (cfg : Config K V) : Int :=
  if cfg.ghostSize > 0 then cfg.ghostSize
  else if cfg.costFunc.isNone then min cfg.memoryCapacity (2 ^ 20)
  else 8192

/-- The capacity of one shard: an even share, the remainder spread over the first shards. -/
def shardCap (cfg : Config K V) (numShards i : Nat) : Int :=
  cfg.memoryCapacity / numShards + if (i : Int) < cfg.memoryCapacity % numShards then 1 else 0

/-- The lifetime in whole seconds, rounded up. -/
def ttlSec (cfg : Config K V) : Int := (int64 (cfg.ttl + (10 ^ 9 - 1))).tdiv (10 ^ 9)

/-- The seconds in a clock unit: the fewest that fit the lifetime into the scale. -/
def unitSec (cfg : Config K V) : Int := max ((cfg.ttlSec + expireMax - 1).tdiv expireMax) 1

/-- The lifetime in clock units, kept within half the wrapping scale. -/
def ttlUnits (cfg : Config K V) : Nat :=
  (min ((cfg.ttlSec + cfg.unitSec - 1).tdiv cfg.unitSec) (expireMax - 1) % 2 ^ 32).toNat

/-- The part of the configuration the shards read. -/
def forShards (cfg : Config K V) (around : Surroundings K V) : ShardConfig K V :=
  { keyHash := around.keyHash
    costFunc := cfg.costFunc
    onDeletion := cfg.onDeletion
    wordSized := around.wordSized
    ttlOff := if cfg.ttl > 0 then cfg.ttlUnits else 0
    expireUnit := if cfg.ttl > 0 then int64 (cfg.unitSec * 10 ^ 9) else 0
    refreshOnGet := if cfg.ttl > 0 then cfg.refreshTTLOnGet else false }

/-- A memory budget becomes an ordinary weighted capacity. -/
def withBudget (cfg : Config K V) (around : Surroundings K V) : Except ConfigError (Config K V) := do
  if cfg.memoryBudget > 0 then
    if cfg.memoryCapacity ≠ 0 then throw .budgetAndCapacity
    match cfg.costFunc.or around.autoCostFunc with
    | none => throw .budgetNeedsCostFunc
    | some costFunc =>
      return { cfg with
        costFunc := some costFunc
        memoryCapacity := cfg.memoryBudget
        capacityWord := cfg.budgetWord }
  else return cfg

/-- A cache without costs has a default capacity; a weighted one must name its own. -/
def withDefault (cfg : Config K V) : Except ConfigError (Config K V) := do
  if cfg.memoryCapacity = 0 then
    if cfg.costFunc.isSome then throw .badCapacity
    return { cfg with
      memoryCapacity := defaultMemoryCapacity
      capacityWord := by simp [IsInt64, defaultMemoryCapacity] }
  else return cfg

/-- The checks that follow once the capacity is known. -/
def check (cfg : Config K V) : Except ConfigError Unit := do
  if cfg.costFunc.isNone ∧ cfg.memoryCapacity > maxItems then throw .capacityTooLarge
  if cfg.preallocateMap ∧ cfg.costFunc.isSome then throw .preallocWeighted
  if cfg.policy.isNone then throw .unknownPolicy
  if cfg.ttl < 0 then throw .badTTL
  if cfg.writeBackWorkers < 0 then throw .badWorkers
  if cfg.getBatchedWorkers < 0 then throw .badGetBatchedWorkers

/-- The configuration with the budget and the defaults resolved, or why it is refused. -/
def resolve (cfg : Config K V) (around : Surroundings K V) : Except ConfigError (Config K V) := do
  if cfg.memoryCapacity < 0 then throw .badCapacity
  if cfg.memoryBudget < 0 then throw .badBudget
  let cfg ← cfg.withBudget around
  let cfg ← cfg.withDefault
  cfg.check
  return cfg

/-- One shard of a cache built from a resolved configuration. -/
def shard [Inhabited K] [Inhabited V] (cfg : Config K V) (around : Surroundings K V) (i : Nat) :
    Shard K V :=
  let numShards := cfg.shardCount around.gomaxprocs
  let cap := cfg.shardCap numShards i
  newShard (cfg.policy.getD .s3fifo) around.policyHash (max (cfg.ghostSizeOrDefault / numShards) 1)
    (if cfg.preallocateMap then preallocSlots cap else minTableSlots) cap

/-- The first level of a resolved configuration. -/
def build [Inhabited K] [Inhabited V] (cfg : Config K V) (around : Surroundings K V) :
    MemoryLevel K V :=
  { cfg := cfg.forShards around
    shards := cfg.shard around
    shardMask := cfg.shardCount around.gomaxprocs - 1 }

end Config

theorem pow2Ceil_eq (n : Nat) : ∃ b, pow2Ceil n = 2 ^ b := by
  unfold pow2Ceil
  split
  · exact ⟨0, rfl⟩
  · exact ⟨_, rfl⟩

theorem pow2Ceil_le {n b : Nat} (below : n ≤ 2 ^ b) : pow2Ceil n ≤ 2 ^ b := by
  unfold pow2Ceil
  split
  · exact Nat.one_le_two_pow
  · exact Nat.pow_le_pow_right two_pos (Nat.size_le.mpr (by omega))

/-- Halving a power of two stops at one whose shards are large enough, or at a single shard. -/
theorem halveShards_pow (capacity : Int) : ∀ fuel b, b ≤ fuel →
    ∃ b' ≤ b, halveShards capacity fuel (2 ^ b) = 2 ^ b' ∧ (b' = 0 ∨ 64 ≤ capacity / (2 : Int) ^ b') := by
  intro fuel
  induction fuel with
  | zero =>
    intro b single
    exact ⟨b, le_rfl, rfl, .inl (by omega)⟩
  | succ fuel ih =>
    intro b enough
    unfold halveShards
    split
    · rename_i tiny
      -- More than one shard is an even number of them.
      obtain ⟨c, rfl⟩ : ∃ c, b = c + 1 := Nat.exists_eq_succ_of_ne_zero fun zero => by simp [zero] at tiny
      rw [Nat.pow_succ, Nat.mul_div_cancel _ two_pos]
      obtain ⟨b', small, halved, good⟩ := ih c (by omega)
      exact ⟨b', by omega, halved, good⟩
    · rename_i enoughEach
      refine ⟨b, le_rfl, rfl, ?_⟩
      by_cases single : b = 0
      · exact .inl single
      · have several : 2 ^ b > 1 := Nat.one_lt_two_pow single
        push_cast at enoughEach
        exact .inr (not_lt.mp fun tiny => enoughEach ⟨several, tiny⟩)

/-- A preallocated table has a size the shards work with. -/
theorem preallocSlots_eq (shardCap : Int) : ∃ b, 6 ≤ b ∧ b ≤ 32 ∧ preallocSlots shardCap = 2 ^ b := by
  obtain ⟨b, rounded⟩ := pow2Ceil_eq (4 * (shardCap + 1) / 3 + 1).toNat
  refine ⟨min (max b 6) 32, by omega, by omega, ?_⟩
  have monotone : Monotone fun b : Nat => 2 ^ b := pow_right_mono₀ one_le_two
  rw [preallocSlots, rounded, minTableSlots, maxTableSlots, monotone.map_min, monotone.map_max]
  rfl

namespace Config

variable (cfg : Config K V)

/-- The number of shards is a power of two, and more than one hold sixty-four units each. -/
theorem shardCount_spec (gomaxprocs : Nat) : ∃ b ≤ 7, cfg.shardCount gomaxprocs = 2 ^ b ∧
    (b = 0 ∨ 64 ≤ cfg.memoryCapacity / (2 : Int) ^ b) := by
  unfold shardCount
  generalize (if cfg.shardsCount ≤ 0 then gomaxprocs else cfg.shardsCount.toNat) = count
  obtain ⟨b, rounded⟩ := pow2Ceil_eq (min count 128)
  have small : 2 ^ b ≤ 2 ^ 7 := by
    rw [← rounded]
    exact pow2Ceil_le (min_le_right _ _)
  have few : b ≤ 7 := (Nat.pow_le_pow_iff_right one_lt_two).mp small
  obtain ⟨b', fewer, halved, good⟩ := halveShards_pow cfg.memoryCapacity 7 b few
  exact ⟨b', fewer.trans few, by simp only [rounded, halved], good⟩

/-- The capacities of the shards add up to the whole. -/
theorem sum_shardCap {n : Nat} (some : 0 < n) :
    ∑ i ∈ range n, cfg.shardCap n i = cfg.memoryCapacity := by
  have below := Int.emod_lt_of_pos cfg.memoryCapacity (Int.natCast_pos.mpr some)
  obtain ⟨r, rest⟩ := Int.eq_ofNat_of_zero_le
    (Int.emod_nonneg cfg.memoryCapacity (Int.natCast_ne_zero.mpr some.ne'))
  -- The first shards take the remainder, one unit each.
  have first : ((range n).filter fun i : Nat => (i : Int) < r) = range r := by
    ext i
    simp only [mem_filter, mem_range, Nat.cast_lt]
    omega
  have whole := Int.mul_ediv_add_emod cfg.memoryCapacity n
  simp only [shardCap, rest, sum_add_distrib, sum_const, card_range, sum_boole, first, nsmul_eq_mul]
  rw [rest] at whole
  exact whole

theorem shardCap_nonneg (positive : 0 ≤ cfg.memoryCapacity) (n i : Nat) : 0 ≤ cfg.shardCap n i := by
  have share := Int.ediv_nonneg positive (Int.natCast_nonneg n)
  unfold shardCap
  split <;> omega

variable {cfg} {resolved : Config K V} {around : Surroundings K V}

/-- A budget leaves no negative capacity. -/
theorem withBudget_capacity (ran : cfg.withBudget around = .ok resolved)
    (capacity : 0 ≤ cfg.memoryCapacity) : 0 ≤ resolved.memoryCapacity := by
  unfold withBudget at ran
  split at ran
  · rename_i budget
    obtain ⟨_, ran⟩ := of_guard_eq_ok ran
    cases costs : cfg.costFunc.or around.autoCostFunc with
    | none => rw [costs] at ran; cases ran
    | some costFunc => rw [costs] at ran; cases ran; exact budget.le
  · cases ran
    exact capacity

/-- The default makes the capacity positive. -/
theorem withDefault_capacity (ran : cfg.withDefault = .ok resolved)
    (capacity : 0 ≤ cfg.memoryCapacity) : 0 < resolved.memoryCapacity := by
  unfold withDefault at ran
  split at ran
  · obtain ⟨_, ran⟩ := of_guard_eq_ok ran
    cases ran
    exact Int.sign_eq_one_iff_pos.mp rfl
  · cases ran
    omega

/-- A resolved configuration has a positive capacity. -/
theorem resolve_capacity (ran : cfg.resolve around = .ok resolved) : 0 < resolved.memoryCapacity := by
  unfold resolve at ran
  obtain ⟨capacity, ran⟩ := of_guard_eq_ok ran
  obtain ⟨_, ran⟩ := of_guard_eq_ok ran
  obtain ⟨budgeted, budget, ran⟩ := exists_of_bind_eq_ok ran
  obtain ⟨defaulted, default, ran⟩ := exists_of_bind_eq_ok ran
  obtain ⟨_, _, ran⟩ := exists_of_bind_eq_ok ran
  cases ran
  exact withDefault_capacity default (withBudget_capacity budget (not_lt.mp capacity))

/-- Every shard starts well formed, with its share of the capacity and nothing in it. -/
theorem shard_spec [Inhabited K] [Inhabited V] (positive : 0 ≤ cfg.memoryCapacity)
    (around : Surroundings K V) (shards : ShardConfig K V) (i : Nat) :
    (cfg.shard around i).Inv shards ∧ (∀ key value off, ¬ (cfg.shard around i).items.Serves key value off) ∧
      (cfg.shard around i).policy.kind = cfg.policy.getD .s3fifo ∧ (cfg.shard around i).weight = 0 ∧
      (cfg.shard around i).cap = cfg.shardCap (cfg.shardCount around.gomaxprocs) i := by
  -- Both the default table and a preallocated one have a size of the supported range.
  obtain ⟨b, low, high, size⟩ : ∃ b, 6 ≤ b ∧ b ≤ 32 ∧ (if cfg.preallocateMap then
      preallocSlots (cfg.shardCap (cfg.shardCount around.gomaxprocs) i) else minTableSlots) = 2 ^ b := by
    split
    · exact preallocSlots_eq _
    · exact ⟨6, le_rfl, by decide, rfl⟩
  have fresh := @Shard.newShard_inv K V shards _ _ (cfg.policy.getD .s3fifo) around.policyHash
    (max (cfg.ghostSizeOrDefault / cfg.shardCount around.gomaxprocs) 1) b low high _
    (cfg.shardCap_nonneg positive (cfg.shardCount around.gomaxprocs) i)
  rw [← size] at fresh
  exact ⟨fresh.1, fresh.2, EvictionPolicy.newPolicy_kind _ _ _ _, rfl, rfl⟩

end Config

namespace MemoryLevel

/-- The number of shards. -/
def numShards (c : MemoryLevel K V) : Nat := c.shardMask + 1

/-- The shard of a key hash: its low bits. -/
def shardOf (c : MemoryLevel K V) (hash : BitVec 64) : Nat := hash.toNat % 2 ^ 32 &&& c.shardMask

/-- The total weight of live items. -/
def weight (c : MemoryLevel K V) : Int := int64 (∑ i ∈ range c.numShards, (c.shards i).weight)

/-- The number of items. -/
def len (c : MemoryLevel K V) : Int := ∑ i ∈ range c.numShards, (c.shards i).live

end MemoryLevel

end Memstash
