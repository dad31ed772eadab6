import Memstash.Cache.Held
import Memstash.Cache.Filling
import Memstash.Lib.Runs

/-! The accounts of every shard stay right along every run, and the cache stays within its capacity. -/

namespace Memstash

open Scan Runs Finset Machine Probing

variable {K V : Type}

/-- A step of the first level under a shard mutex. -/
inductive MemoryStep (K V : Type) where
  | setMemory (key : K) (value : V) (expireOff : Fin (2 ^ 18))
  | deleteLocked (key : K) (cause : DeletionCause)
  | dropExpired (key : K) (idx : Nat)
  | evictShard (key : K)
  | getMemory (key : K)

theorem offsets_pos : 0 < 2 ^ 18 := by decide

/-- The offset of items that never expire. -/
def noExpiry : Fin (2 ^ 18) := ⟨0, offsets_pos⟩

namespace Shard

/-- The policy's queue and all four counters agree with the slots, and the shard is not too heavy. -/
structure Accounted (cfg : ShardConfig K V) (sh : Shard K V) : Prop where
  /-- The queued indices are those of the slots that are live or dead but not free, each once. -/
  queued : sh.items.Queues sh.policy.queued
  /-- No two of those slots hold the same key. -/
  alone : ∀ i < sh.items.len, ∀ j < sh.items.len, ∀ key, (sh.items.cells i).key? = some key →
    (sh.items.cells j).key? = some key → i = j
  live : sh.live = sh.items.tally Item.liveOne
  dirty : sh.dirty = sh.items.tally Item.deadOne
  weight : sh.weight = sh.items.tally (Item.costOne cfg)
  nonneg : 0 ≤ sh.weight
  within : sh.weight ≤ sh.cap

variable {cfg : ShardConfig K V} {sh sh' : Shard K V}

/-- The accounts of a well-formed shard that is not too heavy. -/
theorem Inv.accounted (inv : sh.Inv cfg) (within : sh.weight ≤ sh.cap) : sh.Accounted cfg :=
  { queued := inv.queues
    alone := inv.table.chained.unique
    live := inv.live
    dirty := inv.dirty
    weight := inv.weight
    nonneg := by
      rw [inv.weight]
      exact sum_nonneg fun i _ => Item.costOne_nonneg cfg _
    within := within }

/-- A completed operation leaves the shard well formed, with its policy and within its capacity. -/
structure Balanced (cfg : ShardConfig K V) (kind : PolicyKind) (cap : Int) (sh : Shard K V) : Prop where
  inv : sh.Inv cfg
  kind : sh.policy.kind = kind
  cap : sh.cap = cap
  within : sh.weight ≤ sh.cap

variable {kind : PolicyKind} {cap : Int} {key : K} {value : V}

/-- Removing items keeps a shard balanced. -/
theorem Balanced.removed {gone : K → Prop} (balanced : sh.Balanced cfg kind cap)
    (removed : Removed cfg gone sh sh') : sh'.Balanced cfg kind cap :=
  { inv := removed.inv
    kind := removed.kind.trans balanced.kind
    cap := removed.cap.trans balanced.cap
    within := by
      rw [removed.cap]
      exact removed.light.trans balanced.within }

/-- A completed write leaves a balanced shard. -/
theorem Balanced.wrote {off : Nat} (balanced : sh.Balanced cfg kind cap)
    (wrote : Wrote cfg key value off sh sh') : sh'.Balanced cfg kind cap := by
  cases wrote with
  | oversized _ removed => exact balanced.removed removed
  | stored _ _ _ cap _ queue _ _ evicted fits _ =>
    exact ⟨evicted.inv, evicted.kind.trans (queue.kind.trans balanced.kind),
      evicted.cap.trans (cap.trans balanced.cap), fits⟩

/-- A read leaves a balanced shard. -/
theorem Balanced.read {nowOff : Nat} {found : Option V} (balanced : sh.Balanced cfg kind cap)
    (read : Read cfg nowOff key sh sh' found) : sh'.Balanced cfg kind cap := by
  cases read with
  | missed _ same => exact same ▸ balanced
  | dropped _ _ removed => exact balanced.removed removed
  | hit _ _ inv cap weight policy _ _ _ =>
    exact ⟨inv, by rw [policy]; exact balanced.kind, cap.trans balanced.cap, by
      rw [weight, cap]
      exact balanced.within⟩

theorem Inv.live_le_weight (inv : sh.Inv cfg) : sh.live ≤ sh.weight := by
  rw [inv.live, inv.weight]
  refine sum_le_sum fun i _ => ?_
  unfold Item.liveOne Item.costOne
  split
  · exact Item.rawCost_pos cfg _ _
  · exact le_rfl

theorem Share.nonneg {cost : Int} (share : Share cfg sh.items key cost) : 0 ≤ cost := by
  rcases share with ⟨held, life, served, rfl⟩ | ⟨absent, rfl⟩
  · exact (Item.rawCost_pos cfg key held).le
  · exact le_rfl

theorem rawCost_lt (cfg : ShardConfig K V) (key : K) (value : V) : cfg.rawCost key value < 2 ^ 32 := by
  unfold ShardConfig.rawCost
  cases cfg.costFunc with
  | none => norm_num
  | some cost =>
    dsimp only
    split
    · norm_num
    · exact_mod_cast (cost key value).isLt

/-- A shard of a moderate capacity has the room every write needs, unless the policy is SIEVE. -/
theorem Balanced.writable (balanced : sh.Balanced cfg kind cap) (moderate : cap < 3 * 2 ^ 30)
    (indexed : kind ≠ .sieve) (key : K) (value : V) : Writable cfg sh key value := by
  have live := balanced.inv.live_le_weight
  have within := balanced.within
  rw [balanced.cap] at within
  refine ⟨by omega, .inr (EvictionPolicy.room_of_kind (by rw [balanced.kind]; exact indexed)), ?_⟩
  intro cost share
  have := share.nonneg
  have := rawCost_lt cfg key value
  omega

end Shard

variable [Inhabited K] [Inhabited V] [DecidableEq K]

namespace MemoryStep

/-- The key whose shard the step works on. -/
def key : MemoryStep K V → K
  | setMemory key _ _ | deleteLocked key _ | dropExpired key _ | evictShard key | getMemory key => key

/-- What a step does at a clock value. -/
def apply (c : MemoryLevel K V) : Nat × MemoryStep K V → Except Fault (MemoryLevel K V)
  | (nowOff, setMemory key value off) => (c.setMemory nowOff key value off).map Prod.fst
  | (_, deleteLocked key cause) => (c.deleteLocked key cause).map Prod.fst
  | (nowOff, dropExpired key idx) => (c.dropExpired nowOff key idx).map Prod.fst
  | (nowOff, evictShard key) => (c.evictShard nowOff key).map Prod.fst
  | (nowOff, getMemory key) => (c.getMemory nowOff key).map Prod.fst

/-- A write that can fit finds the index space, the queue node and the 64 bits it needs. -/
def Allowed (c : MemoryLevel K V) : Nat × MemoryStep K V → Prop
  | (_, setMemory key value _) =>
    c.cfg.rawCost key value ≤ (c.shards (c.keyShard key)).cap →
      (c.shards (c.keyShard key)).Writable c.cfg key value
  | _ => True

/-- Every step returns, and leaves the shard it works on balanced. -/
theorem apply_balanced {c : MemoryLevel K V} {kind : PolicyKind} {cap : Int}
    (next : Nat × MemoryStep K V) (allowed : Allowed c next)
    (balanced : (c.shards (c.keyShard next.2.key)).Balanced c.cfg kind cap) :
    ∃ sh, apply c next = .ok (c.put (c.keyShard next.2.key) sh) ∧ sh.Balanced c.cfg kind cap := by
  obtain ⟨nowOff, step⟩ := next
  cases step with
  | setMemory key value off =>
    obtain ⟨sh, _, ran, wrote⟩ := balanced.inv.setMemory nowOff key value off.isLt allowed
    exact ⟨sh, by rw [apply, MemoryLevel.setMemory, MemoryLevel.onShard_eq ran]; rfl,
      balanced.wrote wrote⟩
  | deleteLocked key cause =>
    obtain ⟨sh, _, ran, removed, _⟩ := balanced.inv.deleteLocked key cause
    exact ⟨sh, by rw [apply, MemoryLevel.deleteLocked, MemoryLevel.onShard_eq ran]; rfl,
      balanced.removed removed⟩
  | dropExpired key idx =>
    obtain ⟨sh, _, ran, removed, _⟩ := balanced.inv.dropExpired nowOff key idx
    exact ⟨sh, by rw [apply, MemoryLevel.dropExpired, MemoryLevel.onShard_eq ran]; rfl,
      balanced.removed removed⟩
  | evictShard key =>
    obtain ⟨sh, _, gone, ran, removed, _⟩ := balanced.inv.evictShard nowOff []
    exact ⟨sh, by rw [apply, MemoryLevel.evictShard, MemoryLevel.onShard_eq ran]; rfl,
      balanced.removed removed⟩
  | getMemory key =>
    obtain ⟨sh, found, _, ran, read, _⟩ := balanced.inv.getMemory nowOff key
    exact ⟨sh, by rw [apply, MemoryLevel.getMemory, MemoryLevel.onShard_eq ran]; rfl,
      balanced.read read⟩

end MemoryStep

namespace MemoryLevel

/-- Every shard is balanced, within the share of the capacity the configuration gave it. -/
structure Balanced (cfg : Config K V) (around : Surroundings K V) (c : MemoryLevel K V) : Prop where
  config : c.cfg = cfg.forShards around
  number : c.numShards = cfg.shardCount around.gomaxprocs
  shards : ∀ i < c.numShards,
    (c.shards i).Balanced c.cfg (cfg.policy.getD .s3fifo) (cfg.shardCap c.numShards i)

variable {cfg : Config K V} {around : Surroundings K V} {c : MemoryLevel K V}

omit [DecidableEq K] in
/-- A newly built level is balanced. -/
theorem balanced_build (capacity : 0 ≤ cfg.memoryCapacity) : (cfg.build around).Balanced cfg around := by
  have number : (cfg.build around).numShards = cfg.shardCount around.gomaxprocs := by
    -- There is at least one shard, so the mask loses nothing.
    obtain ⟨b, _, count, _⟩ := cfg.shardCount_spec around.gomaxprocs
    have := Nat.one_le_two_pow (n := b)
    show cfg.shardCount around.gomaxprocs - 1 + 1 = _
    omega
  refine ⟨rfl, number, fun i _ => ?_⟩
  obtain ⟨inv, _, kind, weight, cap⟩ := cfg.shard_spec capacity around (cfg.forShards around) i
  rw [number]
  refine ⟨inv, kind, cap, ?_⟩
  show (cfg.shard around i).weight ≤ (cfg.shard around i).cap
  rw [weight, cap]
  exact cfg.shardCap_nonneg capacity _ _

omit [Inhabited K] [Inhabited V] [DecidableEq K] in
/-- Replacing a shard by a balanced one keeps the level balanced. -/
theorem Balanced.put (balanced : c.Balanced cfg around) {i : Nat} {sh : Shard K V}
    (shard : sh.Balanced c.cfg (cfg.policy.getD .s3fifo) (cfg.shardCap c.numShards i)) :
    (c.put i sh).Balanced cfg around := by
  refine ⟨balanced.config, balanced.number, fun j inside => ?_⟩
  by_cases here : j = i
  · subst here
    rw [put_here]
    exact shard
  · rw [put_others c sh here]
    exact balanced.shards j inside

omit [Inhabited K] [Inhabited V] [DecidableEq K] in
/-- A balanced level weighs no more than the capacity of the cache. -/
theorem Balanced.weight_le (balanced : c.Balanced cfg around) : c.weight ≤ cfg.memoryCapacity := by
  have whole : ∑ i ∈ range c.numShards, cfg.shardCap c.numShards i = cfg.memoryCapacity :=
    cfg.sum_shardCap (Nat.succ_pos _)
  have below : ∑ i ∈ range c.numShards, (c.shards i).weight ≤ cfg.memoryCapacity := by
    rw [← whole]
    refine sum_le_sum fun i inside => ?_
    have shard := balanced.shards i (mem_range.mp inside)
    exact shard.within.trans shard.cap.le
  have above : 0 ≤ ∑ i ∈ range c.numShards, (c.shards i).weight := sum_nonneg fun i inside =>
    ((balanced.shards i (mem_range.mp inside)).inv.accounted
      (balanced.shards i (mem_range.mp inside)).within).nonneg
  -- The sum fits 64 bits because the capacity does.
  have word := cfg.capacityWord.2
  rw [weight, int64_of_range (by omega) (by omega)]
  exact below

/-- A step with the room it needs keeps the level balanced. -/
theorem Balanced.step (balanced : c.Balanced cfg around) (next : Nat × MemoryStep K V)
    (allowed : MemoryStep.Allowed c next) :
    ∃ c', MemoryStep.apply c next = .ok c' ∧ c'.Balanced cfg around := by
  obtain ⟨sh, ran, shard⟩ := MemoryStep.apply_balanced next allowed
    (balanced.shards _ (c.keyShard_lt next.2.key))
  exact ⟨_, ran, balanced.put shard⟩

omit [Inhabited K] [Inhabited V] [DecidableEq K] in
theorem shardCap_le (capacity : 0 ≤ cfg.memoryCapacity) {n i : Nat} (inside : i < n) :
    cfg.shardCap n i ≤ cfg.memoryCapacity := by
  rw [← cfg.sum_shardCap (Nat.zero_lt_of_lt inside)]
  exact single_le_sum (fun j _ => cfg.shardCap_nonneg capacity n j) (mem_range.mpr inside)

/-- A cache of a moderate capacity always has the room its writes need, unless its policy is SIEVE. -/
theorem meets_of_moderate (capacity : 0 ≤ cfg.memoryCapacity) (moderate : cfg.memoryCapacity < 3 * 2 ^ 30)
    (indexed : cfg.policy.getD .s3fifo ≠ .sieve) (steps : List (Nat × MemoryStep K V)) :
    Meets MemoryStep.apply MemoryStep.Allowed (cfg.build around) steps := by
  have roomy : ∀ {c : MemoryLevel K V}, c.Balanced cfg around → ∀ next, MemoryStep.Allowed c next := by
    rintro c balanced ⟨nowOff, step⟩
    cases step with
    | setMemory key value off =>
      intro _
      have inside := c.keyShard_lt key
      have share : cfg.shardCap c.numShards (c.keyShard key) < 3 * 2 ^ 30 :=
        (shardCap_le capacity inside).trans_lt moderate
      exact (balanced.shards _ inside).writable share indexed key value
    | deleteLocked _ _ => trivial
    | dropExpired _ _ => trivial
    | evictShard _ => trivial
    | getMemory _ => trivial
  intro done next within mid ran
  -- The state before the step is balanced, so the step has its room.
  have free : Meets MemoryStep.apply (fun _ _ => True) (cfg.build around) steps :=
    fun _ _ _ _ _ => trivial
  obtain ⟨c, ran', balanced⟩ := exists_run_eq (fun _ (c : MemoryLevel K V) => c.Balanced cfg around)
    (balanced_build capacity) free
    (fun _ next _ _ balanced _ => balanced.step next (roomy balanced next)) done
    ((List.prefix_append done [next]).trans within)
  rw [ran] at ran'
  cases ran'
  exact roomy balanced next

end MemoryLevel

/-- Along every run of a built cache whose writes find the room they need, every call returns, the
accounts of every shard are right and the cache weighs no more than its capacity. -/
theorem accounts_hold {cfg resolved : Config K V} {around : Surroundings K V}
    (resolves : cfg.resolve around = .ok resolved) (steps : List (Nat × MemoryStep K V))
    (allowed : Meets MemoryStep.apply MemoryStep.Allowed (resolved.build around) steps) :
    ∀ done, done <+: steps → ∃ c, run MemoryStep.apply (resolved.build around) done = .ok c ∧
      (∀ i < resolved.shardCount around.gomaxprocs,
        (c.shards i).Accounted (resolved.forShards around)) ∧
      c.weight ≤ resolved.memoryCapacity := by
  intro done within
  obtain ⟨c, ran, balanced⟩ := exists_run_eq (fun _ c => c.Balanced resolved around)
    (MemoryLevel.balanced_build (Config.resolve_capacity resolves).le) allowed
    (fun _ next _ _ balanced allowed => balanced.step next allowed) done within
  refine ⟨c, ran, fun i inside => ?_, balanced.weight_le⟩
  rw [← balanced.config]
  have shard := balanced.shards i (by rw [balanced.number]; exact inside)
  exact shard.inv.accounted shard.within

omit [DecidableEq K] in
/-- A new cache of moderate capacity has room for an item that fits its shard. -/
theorem hasRoom_build {cfg : Config K V} {around : Surroundings K V}
    (capacity : 0 ≤ cfg.memoryCapacity) (indexed : cfg.policy.getD .s3fifo ≠ .sieve)
    {write : MemoryWrite K V} (small : write.off < 2 ^ 18)
    (moderate : cfg.shardCap (cfg.build around).numShards ((cfg.build around).keyShard write.key) < 3 * 2 ^ 30)
    (light : (cfg.forShards around).rawCost write.key write.value
      ≤ cfg.shardCap (cfg.build around).numShards ((cfg.build around).keyShard write.key)) :
    (cfg.build around).HasRoom write := by
  have shard := (MemoryLevel.balanced_build capacity).shards _ ((cfg.build around).keyShard_lt write.key)
  have fresh := cfg.shard_spec capacity around (cfg.forShards around) ((cfg.build around).keyShard write.key)
  refine ⟨small, shard.writable moderate indexed write.key write.value, fun cost share => ?_⟩
  -- Nothing is there yet, so the item is all the shard will hold.
  obtain rfl : cost = 0 := by
    rcases share with ⟨held, life, served, _⟩ | ⟨_, none⟩
    · exact absurd served (fresh.2.1 write.key held life)
    · exact none
  have weight : ((cfg.build around).shards ((cfg.build around).keyShard write.key)).weight = 0 := fresh.2.2.2.1
  rw [weight, shard.cap, sub_zero, zero_add]
  exact light

/-- A configuration of one CLOCK shard over numbers. -/
def oneShard (memoryCapacity : Int) (costFunc : Option (Nat → Unit → BitVec 32))
    (word : IsInt64 memoryCapacity) : Config Nat Unit :=
  { memoryCapacity, costFunc
    memoryBudget := 0
    ttl := 0
    refreshTTLOnGet := false
    policy := some .clock
    preallocateMap := false
    shardsCount := 1
    ghostSize := 0
    writeBackWorkers := 0
    getBatchedWorkers := 0
    onDeletion := false
    capacityWord := word
    budgetWord := isInt64_zero
    ttlWord := isInt64_zero }

/-- A single processor, and keys that hash to themselves. -/
def plainSurroundings : Surroundings Nat Unit :=
  { gomaxprocs := 1
    autoCostFunc := none
    wordSized := true
    keyHash := fun n => BitVec.ofNat 64 n
    policyHash := fun _ => 0#64 }

/-- A cache for a hundred items. -/
def hundredItems : Config Nat Unit := oneShard 100 none (by norm_num [IsInt64])

/-- A cache for a hundred items is right after a write, a read and a deletion. -/
theorem accounts_hold_hundred : ∃ c,
    run MemoryStep.apply (hundredItems.build plainSurroundings)
      [(0, .setMemory 7 () 0), (0, .getMemory 7), (1, .deleteLocked 7 .invalidation)] = .ok c ∧
      (∀ i < hundredItems.shardCount 1,
        (c.shards i).Accounted (hundredItems.forShards plainSurroundings)) ∧ c.weight ≤ 100 := by
  have resolves : hundredItems.resolve plainSurroundings = .ok hundredItems := rfl
  exact accounts_hold resolves _ (MemoryLevel.meets_of_moderate (by decide) (by decide) (by decide) _)
    _ (List.prefix_refl _)

section Overflow

/-- A write overflows the weight when the sum leaves 64 bits, and then nothing is evicted. -/
theorem Shard.Refines.set_overflows {cfg : ShardConfig K V} {sh : Shard K V}
    {m : Finmap fun _ : K => V} (refines : sh.Refines cfg m) (indexed : sh.policy.kind ≠ .sieve)
    (few : sh.live < 3 * 2 ^ 30) {key : K} {value : V} (absent : m.lookup key = none)
    (light : cfg.rawCost key value ≤ sh.cap) (heavy : 2 ^ 63 ≤ sh.weight + cfg.rawCost key value)
    (nowOff : Nat) :
    ∃ sh' deletions, sh.setMemory cfg nowOff key value 0 = .ok (sh', deletions) ∧
      sh'.live ≤ sh.live + 1 ∧ sh'.weight < 0 := by
  obtain ⟨mid, cost, deletions, share, _, placed, ran⟩ := refines.inv.setMemory_eq_settle nowOff key value
    (by norm_num : (0 : Nat) < 2 ^ 18) light few (.inr (EvictionPolicy.room_of_kind indexed))
  -- The key was not there, so its whole weight is added.
  obtain rfl : cost = 0 := by
    rcases share with ⟨held, life, served, _⟩ | ⟨_, none⟩
    · rw [((refines.serves key held life).mp served).2] at absent
      cases absent
    · exact none
  have wrapped : int64 (mid.weight + (cfg.rawCost key value - 0)) < 0 := by
    have bounded := refines.inv.bounded
    have small := Shard.rawCost_lt cfg key value
    rw [placed.weight, sub_zero, int64, Int.bmod_def]
    split <;> omega
  have capacity := refines.inv.capacity
  refine ⟨{ mid with weight := int64 (mid.weight + (cfg.rawCost key value - 0)) }, deletions, ?_,
    placed.more, wrapped⟩
  rw [ran, Shard.settle, if_neg (by rw [placed.cap]; omega)]

/-- With one shard, filling the level is filling the shard. -/
theorem MemoryLevel.run_fill {c : MemoryLevel K V} (single : c.shardMask = 0)
    (eternal : c.cfg.ttlOff = 0) (keys : Nat → K) (value : V) (nowOff n : Nat) : ∀ sh,
    ShardOp.runAll c.cfg nowOff (c.shards 0) (ShardOp.fill keys value n) = .ok sh →
      run MemoryStep.apply c ((List.range n).map fun i => (nowOff, .setMemory (keys i) value 0))
        = .ok (c.put 0 sh) := by
  have first : ∀ key, c.keyShard key = 0 := fun key => by
    have := c.keyShard_lt key
    rw [numShards, single] at this
    omega
  induction n with
  | zero =>
    intro sh ran
    cases ran
    simp [run, MemoryLevel.put, Pure.pure, Except.pure]
  | succ n ih =>
    intro sh ran
    rw [ShardOp.fill_succ] at ran
    obtain ⟨mid, before, last⟩ := exists_of_run_append ran
    obtain ⟨⟨written, deletions⟩, wrote, rfl⟩ := exists_of_map_eq_ok last
    have noOffset : c.cfg.expireOffset nowOff = 0 := by simp [ShardConfig.expireOffset, eternal]
    rw [noOffset] at wrote
    -- The level after the first writes is the one shard after them.
    have here : ((c.put 0 mid).shards ((c.put 0 mid).keyShard (keys n))).setMemory c.cfg nowOff (keys n)
        value 0 = .ok (written, deletions) := by
      rw [show (c.put 0 mid).keyShard (keys n) = 0 from first (keys n), put_here]
      exact wrote
    have twice : (c.put 0 mid).put ((c.put 0 mid).keyShard (keys n)) written = c.put 0 written := by
      rw [show (c.put 0 mid).keyShard (keys n) = 0 from first (keys n)]
      simp [MemoryLevel.put]
    rw [List.range_succ, List.map_append, List.map_singleton, run_append (ih mid before),
      MemoryStep.apply, MemoryLevel.setMemory]
    rw [MemoryLevel.onShard_eq here, twice]
    rfl

/-- Items of the largest cost, in a cache of the largest capacity. -/
def heaviest : Config Nat Unit :=
  oneShard (2 ^ 63 - 1) (some fun _ _ => BitVec.ofNat 32 (2 ^ 32 - 1)) isInt64_max

/-- A cache of the largest capacity holds 2^31 items of the largest cost. -/
theorem heaviest_fills : ∃ sh,
    ShardOp.runAll (heaviest.forShards plainSurroundings) 0 (heaviest.shard plainSurroundings 0)
      (ShardOp.fill id () (2 ^ 31)) = .ok sh ∧
    sh.Refines (heaviest.forShards plainSurroundings)
      (ShardOp.replayAll (ShardOp.fill id () (2 ^ 31))) ∧
    sh.cap = 2 ^ 63 - 1 ∧ sh.policy.kind = .clock := by
  have each : ∀ i, (heaviest.forShards plainSurroundings).rawCost (id i) () = 2 ^ 32 - 1 := fun i => rfl
  obtain ⟨sh, filled, refines, cap, kind, _⟩ := ShardOp.fill_runs .clock (fun _ => 0#64)
    (max (heaviest.ghostSizeOrDefault / 1) 1) (le_refl 6) (by decide) rfl
    (by norm_num : (0 : Int) ≤ 2 ^ 63 - 1) (by norm_num) Function.injective_id () each 0 (2 ^ 31)
    (by norm_num) (by norm_num) (fun sieve => by cases sieve)
  exact ⟨sh, filled, refines, cap, kind⟩

/-- Writing 2^31 + 1 items of the largest cost makes the weight of a shard negative. -/
theorem weight_overflows : heaviest.resolve plainSurroundings = .ok heaviest ∧
    ∃ c, run MemoryStep.apply (heaviest.build plainSurroundings)
        ((List.range (2 ^ 31 + 1)).map fun i => (0, .setMemory i () 0)) = .ok c ∧
      (c.shards 0).live < 3 * 2 ^ 30 ∧ (c.shards 0).weight < 0 := by
  refine ⟨rfl, ?_⟩
  obtain ⟨sh, filled, refines, cap, kind⟩ := heaviest_fills
  have each : ∀ i, (heaviest.forShards plainSurroundings).rawCost (id i) () = 2 ^ 32 - 1 := fun i => rfl
  have live := refines.live
  rw [ShardOp.card_fill () Function.injective_id] at live
  have weight := refines.weight
  rw [ShardOp.total_fill () Function.injective_id each] at weight
  have absent : (ShardOp.replayAll (ShardOp.fill id () (2 ^ 31))).lookup (2 ^ 31) = none := by
    rcases ShardOp.lookup_fill id () (2 ^ 31) (2 ^ 31) with ⟨_, i, small, same⟩ | ⟨absent, _⟩
    · exact absurd same small.ne
    · exact absent
  obtain ⟨sh', deletions, wrote, more, negative⟩ := refines.set_overflows (by rw [kind]; decide)
    (by rw [live]; norm_num) absent (by rw [cap]; exact (each _).trans_le (by norm_num))
    (by rw [weight]; exact (add_le_add_right (each (2 ^ 31)).ge _).trans' (by norm_num)) 0
  have all : ShardOp.runAll (heaviest.forShards plainSurroundings) 0
      (heaviest.shard plainSurroundings 0) (ShardOp.fill id () (2 ^ 31 + 1)) = .ok sh' := by
    have noOffset : (heaviest.forShards plainSurroundings).expireOffset 0 = 0 := rfl
    rw [ShardOp.fill_succ, ShardOp.runAll_append filled, ShardOp.run, noOffset]
    exact congrArg (Except.map Prod.fst) wrote
  have level := @MemoryLevel.run_fill Nat Unit _ _ _ (heaviest.build plainSurroundings) rfl rfl id () 0
    (2 ^ 31 + 1) sh' all
  refine ⟨_, level, ?_, ?_⟩
  · rw [MemoryLevel.put_here]
    push_cast at live
    omega
  · rw [MemoryLevel.put_here]
    exact negative

end Overflow

end Memstash
