import Memstash.Cache.Construction
import Memstash.Cache.Footprint
import Memstash.Cache.Occupancy

/-! A table made for its shard's capacity is not replaced while new keys fill it, and is the one growth ends at. -/

namespace Memstash

open Probing Scan Runs Machine

variable {K V : Type} {cfg : ShardConfig K V}

/-- The size for a capacity is the first from the smallest on that leaves a quarter vacant with one item more. -/
theorem preallocSlots_le_iff {cap : Int} (positive : 0 ≤ cap) (few : cap + 1 < maxItems) {b : Nat}
    (low : 6 ≤ b) (high : b ≤ 32) : preallocSlots cap ≤ 2 ^ b ↔ 4 * (cap + 1) < 3 * 2 ^ b := by
  have enough : pow2Ceil (4 * (cap + 1) / 3 + 1).toNat ≤ 2 ^ b ↔ 4 * (cap + 1) < 3 * 2 ^ b := by
    have rounded : (4 * (cap + 1) / 3 + 1).toNat ≤ 2 ^ b ↔ 4 * (cap + 1) < 3 * 2 ^ b := by
      zify
      omega
    refine Iff.trans ⟨fun below => ?_, pow2Ceil_le⟩ rounded
    refine le_trans ?_ below
    unfold pow2Ceil
    split
    · omega
    · have := Nat.lt_size_self ((4 * (cap + 1) / 3 + 1).toNat - 1)
      omega
  have least : minTableSlots ≤ 2 ^ b := show 2 ^ 6 ≤ 2 ^ b from Nat.pow_le_pow_right (by omega) low
  rw [preallocSlots, min_le_iff, max_le_iff, enough]
  constructor
  · rintro (⟨fits, _⟩ | whole)
    · exact fits
    · -- Only the largest table reaches the clamp, and the item count is below three quarters of it.
      have largest : b = 32 := le_antisymm high ((Nat.pow_le_pow_iff_right (by omega)).mp whole)
      subst largest
      unfold maxItems at few
      omega
  · exact fun fits => .inl ⟨fits, least⟩

namespace Shard

variable [DecidableEq K] {sh sh' : Shard K V} {keys : List K} {key : K}

/-- A shard that only new keys were written to, before or after their weight is added. -/
structure Gathered (cfg : ShardConfig K V) (keys : List K) (sh : Shard K V) : Prop extends Sound cfg sh where
  served : ∀ key value life, sh.items.Serves key value life → key ∈ keys
  count : sh.live = keys.length
  clean : sh.dirty = 0
  room : sh.live * 4 < 3 * sh.items.len ∨ sh.items.len = 2 ^ 32

omit [DecidableEq K] in
theorem Gathered.vacant_or_live (gathered : sh.Gathered cfg keys) {i : Nat} (inside : i < sh.items.len) :
    sh.items.cells i = .vacant ∨ ∃ key, sh.items.cells i = .live key :=
  gathered.toStored.clean_of_dirty gathered.clean inside

omit [DecidableEq K] in
/-- Every queued node is one of a live item. -/
theorem Gathered.len_eq (gathered : sh.Gathered cfg keys) : sh.policy.len = keys.length := by
  have all : sh.live = sh.policy.len := gathered.toStored.queued_eq_live fun node member => by
    obtain ⟨inside, bound⟩ := (gathered.queues.bound node.idx).mp (List.mem_map_of_mem member)
    rcases gathered.vacant_or_live inside with vacant | live
    · simp [vacant] at bound
    · exact live
  have count := gathered.count
  omega

omit [DecidableEq K] in
/-- The policy has a node for one more key; SIEVE numbers 2^31. -/
theorem Gathered.policy_room (gathered : sh.Gathered cfg keys)
    (queueable : sh.policy.kind = .sieve → keys.length < 2 ^ 31) : sh.policy.Room := by
  have len := gathered.len_eq
  cases queue : sh.policy with
  | sieve p =>
    have few := queueable (by rw [queue]; rfl)
    rw [queue] at len
    show p.size < 2 ^ 31
    have : (EvictionPolicy.sieve p : EvictionPolicy K).len = p.size := rfl
    omega
  | s3fifo p => trivial
  | clock p => trivial
  | wtinylfu p => trivial

/-- A new key goes to the first empty slot on its path. -/
theorem Gathered.setProbe (gathered : sh.Gathered cfg keys) (short : keys.length < 2 ^ 32)
    (fresh : key ∉ keys) :
    ∃ d, d < sh.items.len ∧ sh.items.setProbe (cfg.keyHash key) key sh.items.len
        (sh.items.home (cfg.keyHash key)) none = .ok (.fresh (sh.items.home (cfg.keyHash key) + d) none) ∧
      FlatHashMap.Passed sh.items (sh.items.home (cfg.keyHash key)) key d none ∧
      sh.items.cells ((sh.items.home (cfg.keyHash key) + d) % sh.items.len) = .vacant ∧
      ∀ i < sh.items.len, (sh.items.cells i).key? ≠ some key := by
  have vacancy : occupied sh.items.len sh.items.cells < sh.items.len := by
    have live := gathered.count
    have clean := gathered.clean
    obtain ⟨large, _, _⟩ := gathered.table.sized.bounds
    rw [FlatHashMap.occupied_eq_tally, ← gathered.live, ← gathered.dirty]
    rcases gathered.room with room | largest <;> omega
  obtain ⟨target, probed, finds⟩ := FlatHashMap.setProbe_spec gathered.table vacancy key
  cases finds with
  | @fresh d reuse near passed vacant absent =>
    cases reuse with
    | none => exact ⟨d, near, probed, passed, vacant, absent⟩
    | some r =>
      -- No slot was given back for reuse.
      obtain ⟨e, _, _, released⟩ := passed.reusable r rfl
      rcases gathered.vacant_or_live (Nat.mod_lt (sh.items.home (cfg.keyHash key) + e) (by omega)) with
        empty | ⟨other, live⟩
      · rw [released] at empty
        cases empty
      · rw [released] at live
        cases live
  | @buried pos tomb =>
    rcases gathered.vacant_or_live (sh.items.wrap_lt pos) with empty | ⟨other, live⟩
    · rw [tomb] at empty
      cases empty
    · rw [tomb] at live
      cases live
  | live alive => exact absurd (gathered.served key _ _ (serves_of_live alive)) fresh

variable [Inhabited K] [Inhabited V]

/-- Whether a write replaces the table: it stores a new key, and `maybeRebuild` finds three quarters taken. -/
def rebuilds (cfg : ShardConfig K V) (sh : Shard K V) (key : K) (value : V) (expireOff : Nat) :
    Except Fault Bool := do
  match ← sh.items.setProbe (cfg.keyHash key) key sh.items.len (sh.items.home (cfg.keyHash key)) none with
  | .fresh pos reuse =>
    let policy ← sh.policy.add (published cfg sh.items key value expireOff (reuse.getD pos))
      (newNode cfg sh.items key value pos reuse)
    let full := sh.inserted cfg key value expireOff pos reuse policy
    return !decide ((full.live + full.dirty) * 4 < full.items.len * 3)
  | .buried _ => return false
  | .live _ => return false

omit [DecidableEq K] in
/-- A table of a power of two slots that has just filled up is doubled, up to the whole index space. -/
theorem Rebuilt.len_eq (rebuilt : Rebuilt cfg sh sh') (sized : sh.items.Sized) {n : Nat}
    (live : sh.live = n + 1) (room : (n : Int) * 4 < 3 * sh.items.len ∨ sh.items.len = 2 ^ 32)
    (full : ¬ ((n : Int) + 1) * 4 < 3 * sh.items.len) : sh'.items.len = min (2 * sh.items.len) (2 ^ 32) := by
  obtain ⟨b, low, high, size⟩ := sized
  obtain ⟨b', _, high', size'⟩ := rebuilt.stored.table.sized
  have fits := rebuilt.fits
  have small := rebuilt.small
  rw [live, size'] at fits
  rw [live, size, size'] at small
  rw [size] at room full
  rw [size, size']
  have large : 2 ^ 6 ≤ 2 ^ b := Nat.pow_le_pow_right (by omega) low
  have most : 2 ^ b' ≤ 2 ^ 32 := Nat.pow_le_pow_right (by omega) high'
  have two : 2 ^ (b + 1) = 2 * 2 ^ b := by ring
  have four : 2 ^ (b + 2) = 4 * 2 ^ b := by ring
  have crowded : 3 * 2 ^ b ≤ (n + 1) * 4 := by exact_mod_cast not_lt.mp full
  have fits : (n + 1) * 4 < 2 ^ b' * 3 ∨ 2 ^ b' = 2 ^ 32 := by exact_mod_cast fits
  have room : n * 4 < 3 * 2 ^ b ∨ 2 ^ b = 2 ^ 32 := by exact_mod_cast room
  have small : 2 ^ b' ≤ max (2 ^ b) (4 * (n + 1)) := by exact_mod_cast small
  rcases Nat.lt_or_ge b 32 with below | top
  · have short : 2 ^ b < 2 ^ 32 := Nat.pow_lt_pow_right (by omega) below
    have bound : 2 ^ (b + 1) ≤ 2 ^ 32 := Nat.pow_le_pow_right (by omega) below
    -- Between the fewest slots that fit and the most a replacement takes there is one power of two.
    have atMost : b' < b + 2 := (Nat.pow_lt_pow_iff_right (by omega)).mp (show 2 ^ b' < 2 ^ (b + 2) by omega)
    have atLeast : b < b' := (Nat.pow_lt_pow_iff_right (by omega)).mp (show 2 ^ b < 2 ^ b' by omega)
    rw [show b' = b + 1 by omega, ← two, Nat.min_eq_left bound]
  · obtain rfl : b = 32 := by omega
    omega

/-- A new key was published in the first empty slot on its path and queued, and then the table replaced or not. -/
def Stores (cfg : ShardConfig K V) (sh : Shard K V) (key : K) (value : V) (off : Nat) (sh' : Shard K V) : Prop :=
  ∃ d policy, d < sh.items.len ∧ FlatHashMap.Passed sh.items (sh.items.home (cfg.keyHash key)) key d none ∧
    sh.items.cells ((sh.items.home (cfg.keyHash key) + d) % sh.items.len) = .vacant ∧
    sh.policy.add (published cfg sh.items key value off (sh.items.home (cfg.keyHash key) + d))
      (newNode cfg sh.items key value (sh.items.home (cfg.keyHash key) + d) none) = .ok policy ∧
    (sh' = sh.inserted cfg key value off (sh.items.home (cfg.keyHash key) + d) none policy ∨
      Rebuilt cfg (sh.inserted cfg key value off (sh.items.home (cfg.keyHash key) + d) none policy) sh')

/-- One new key more is stored and queued in a state that the table is then checked in. -/
theorem Gathered.inserted (gathered : sh.Gathered cfg keys) (short : keys.length < 2 ^ 32)
    (queueable : sh.policy.kind = .sieve → keys.length < 2 ^ 31) (fresh : key ∉ keys) (value : V) {off : Nat}
    (small : off < 2 ^ 18) :
    ∃ full : Shard K V, sh.rebuilds cfg key value off
          = .ok (!decide ((full.live + full.dirty) * 4 < full.items.len * 3)) ∧
      (∀ sh', full.maybeRebuild cfg = .ok sh' →
        sh.placed cfg key value off = .ok (sh', cfg.rawCost key value, [])) ∧
      full.Sound cfg ∧ (∀ other held life, full.items.Serves other held life → other ∈ keys ++ [key]) ∧
      full.live = keys.length + 1 ∧ full.dirty = 0 ∧ full.items.len = sh.items.len ∧
      full.weight = sh.weight ∧ full.cap = sh.cap ∧ full.policy.kind = sh.policy.kind ∧
      ∀ sh', (sh' = full ∨ Rebuilt cfg full sh') → Stores cfg sh key value off sh' := by
  obtain ⟨d, near, probed, passed, vacant, absent⟩ := gathered.setProbe short fresh
  obtain ⟨policy, added, valid, queued⟩ := EvictionPolicy.add_spec gathered.policy
    (gathered.policy_room queueable)
    (published cfg sh.items key value off (sh.items.home (cfg.keyHash key) + d))
    (newNode cfg sh.items key value (sh.items.home (cfg.keyHash key) + d) none)
  obtain ⟨sound, _⟩ := gathered.toSound.inserted small near passed vacant absent added
  obtain ⟨_, _, overwrites⟩ := gathered.toStored.inserted small near passed vacant absent value valid queued
  refine ⟨sh.inserted cfg key value off (sh.items.home (cfg.keyHash key) + d) none policy, ?_,
    fun sh' ran => ?_, sound, fun other held life serves => ?_, ?_, gathered.clean, ?_, rfl, rfl,
    EvictionPolicy.add_kind added, fun sh' after => ⟨d, policy, near, passed, vacant, added, after⟩⟩
  · unfold Shard.rebuilds
    rw [probed]
    refine bind_of_ok ?_
    exact congrArg (Except.bind · _) added
  · have inserts : sh.insertNew cfg key value off (sh.items.home (cfg.keyHash key) + d) none = .ok sh' := by
      rw [insertNew_eq, ← ran]
      exact congrArg (Except.bind · _) added
    unfold Shard.placed
    rw [probed]
    refine bind_of_ok ?_
    exact congrArg (Except.bind · _) inserts
  · rcases (overwrites other held life).mp serves with ⟨rfl, _⟩ | ⟨_, before⟩
    · simp
    · exact List.mem_append_left _ (gathered.served other held life before)
  · rw [← gathered.count]
    rfl
  · simp only [Shard.inserted, published, FlatHashMap.noteDisplaced_len, FlatHashMap.put_len]

/-- Storing one new key more doubles the table exactly when three quarters of it are taken. -/
theorem Gathered.placed (gathered : sh.Gathered cfg keys) (short : keys.length < 2 ^ 32)
    (queueable : sh.policy.kind = .sieve → keys.length < 2 ^ 31) (fresh : key ∉ keys) (value : V) {off : Nat}
    (small : off < 2 ^ 18) :
    ∃ sh', sh.rebuilds cfg key value off = .ok (!decide ((keys.length + 1) * 4 < 3 * sh.items.len)) ∧
      sh.placed cfg key value off = .ok (sh', cfg.rawCost key value, []) ∧
      sh'.Gathered cfg (keys ++ [key]) ∧ sh'.weight = sh.weight ∧ sh'.cap = sh.cap ∧
      sh'.policy.kind = sh.policy.kind ∧
      (sh'.items.len = if (keys.length + 1) * 4 < 3 * sh.items.len then sh.items.len
        else min (2 * sh.items.len) (2 ^ 32)) ∧ Stores cfg sh key value off sh' := by
  obtain ⟨full, decided, places, sound, served, live, clean, len, weight, cap, kind, stores⟩ :=
    gathered.inserted short queueable fresh value small
  have total : ((keys ++ [key]).length : Int) = keys.length + 1 := by simp
  have threshold : (full.live + full.dirty) * 4 < full.items.len * 3
      ↔ (keys.length + 1) * 4 < 3 * sh.items.len := by
    rw [live, clean, len]
    omega
  simp only [threshold] at decided
  by_cases spacious : (keys.length + 1) * 4 < 3 * sh.items.len
  · refine ⟨full, decided, places full (if_pos (threshold.mpr spacious)),
      ⟨sound, served, live.trans total.symm, clean, .inl ?_⟩, weight, cap, kind, ?_, stores full (.inl rfl)⟩
    · rw [live, len]
      omega
    · rw [len, if_pos spacious]
  · obtain ⟨sh', ran, rebuilt⟩ := sound.toStored.rebuild (mt threshold.mp spacious)
    obtain ⟨_, _, relinked⟩ := rebuilt.queue
    have slack := EvictionPolicy.rebuild_slack sound.slack relinked
    have room := gathered.room
    rw [gathered.count] at room
    refine ⟨sh', decided, places sh' ran, ⟨⟨rebuilt.stored, slack⟩, fun other held life serves =>
        served other held life ((rebuilt.serves other held life).mp serves), ?_, rebuilt.dirty, ?_⟩,
      rebuilt.weight.trans weight, rebuilt.cap.trans cap, (EvictionPolicy.rebuild_kind relinked).trans kind, ?_,
      stores sh' (.inr rebuilt)⟩
    · rw [rebuilt.live, live, total]
    · rw [rebuilt.live]
      exact rebuilt.fits.imp (fun fits => by omega) id
    · rw [rebuilt.len_eq sound.table.sized live (by rwa [len]) (by rw [len]; omega), len, if_neg spacious]

end Shard

/-- A write of a value at a clock value, with its expiration offset. -/
structure Write (K V : Type) where
  nowOff : Nat
  key : K
  value : V
  off : Fin (2 ^ 18)

namespace Write

variable [DecidableEq K] [Inhabited K] [Inhabited V]

/-- A write to a shard, beside the number of times its table was replaced. -/
def work (cfg : ShardConfig K V) : Shard K V × Nat → Write K V → Except Fault (Shard K V × Nat)
  | (sh, replaced), write => do
    let again ← sh.rebuilds cfg write.key write.value write.off
    let (sh, _) ← sh.setMemory cfg write.nowOff write.key write.value write.off
    return (sh, if again then replaced + 1 else replaced)

/-- The size of a table that started at a power of two and grew with the keys in it. -/
structure Grown (start replaced keys len : Nat) : Prop where
  sized : ∃ b ≤ 32, start ≤ b ∧ len = 2 ^ b ∧ (start < b → 3 * 2 ^ b ≤ 2 * (4 * keys)) ∧ (replaced = 0 ↔ b = start)
  room : keys * 4 < 3 * len

/-- One key more doubles the table when three quarters of it are taken. -/
theorem Grown.more {start replaced keys len : Nat} (grown : Grown start replaced keys len) (low : 6 ≤ start)
    (few : keys + 1 < 3 * 2 ^ 30) :
    Grown start (if !decide ((keys + 1) * 4 < 3 * len) then replaced + 1 else replaced) (keys + 1)
      (if (keys + 1) * 4 < 3 * len then len else min (2 * len) (2 ^ 32)) := by
  obtain ⟨b, high, from_start, rfl, needed, same⟩ := grown.sized
  have room := grown.room
  by_cases spacious : (keys + 1) * 4 < 3 * 2 ^ b
  · simp only [spacious, decide_true, Bool.not_true, Bool.false_eq_true, if_false, if_true]
    exact ⟨⟨b, high, from_start, rfl, fun more => by have := needed more; omega, same⟩, spacious⟩
  · simp only [spacious, decide_false, Bool.not_false, if_true, if_false]
    have below : b < 32 := by
      by_contra top
      have : 2 ^ 32 ≤ 2 ^ b := Nat.pow_le_pow_right (by omega) (by omega)
      omega
    have bound : 2 ^ (b + 1) ≤ 2 ^ 32 := Nat.pow_le_pow_right (by omega) below
    have next : 2 ^ (b + 1) = 2 * 2 ^ b := by ring
    have large : 2 ^ 6 ≤ 2 ^ b := Nat.pow_le_pow_right (by omega) (by omega)
    rw [← next, Nat.min_eq_left bound]
    refine ⟨⟨b + 1, below, by omega, rfl, fun _ => by omega, by omega⟩, by omega⟩

/-- A shard of a capacity in items that only new keys were written to. -/
structure Filled (cfg : ShardConfig K V) (kind : PolicyKind) (cap : Int) (keys : List K) (sh : Shard K V) : Prop
    extends sh.Gathered cfg keys where
  weighed : sh.weight = keys.length
  cap_eq : sh.cap = cap
  kind_eq : sh.policy.kind = kind

variable {kind : PolicyKind} {cap : Int} {keys : List K} {sh : Shard K V}

/-- One new key more is stored beside the others, and then items are evicted when they are too many. -/
theorem Filled.write (filled : Filled cfg kind cap keys sh) (counting : cfg.costFunc = none) (some : 1 ≤ cap)
    (most : keys.length ≤ cap) (few : keys.length < 3 * 2 ^ 30) (queueable : kind = .sieve → keys.length < 2 ^ 31)
    (write : Write K V) (fresh : write.key ∉ keys) (replaced : Nat) :
    ∃ mid : Shard K V, Filled cfg kind cap (keys ++ [write.key]) mid ∧
      mid.items.len = (if (keys.length + 1) * 4 < 3 * sh.items.len then sh.items.len
        else min (2 * sh.items.len) (2 ^ 32)) ∧
      ∃ sh', work cfg (sh, replaced) write
          = .ok (sh', if !decide ((keys.length + 1) * 4 < 3 * sh.items.len) then replaced + 1 else replaced) ∧
        (keys.length < cap → sh' = mid) ∧ Shard.Falls cfg mid sh' := by
  have unit : ∀ key value, cfg.rawCost key value = 1 := fun key value => by rw [ShardConfig.rawCost, counting]
  obtain ⟨mid, decided, placed, gathered, weight, cap_eq, kind_eq, len, _⟩ := filled.toGathered.placed
    (by omega) (by rw [filled.kind_eq]; exact queueable) fresh write.value write.off.isLt
  rw [filled.weighed] at weight
  rw [filled.cap_eq] at cap_eq
  have exactWeight : int64 (mid.weight + 1) = keys.length + 1 := by
    rw [weight]
    exact int64_of_range (by omega) (by omega)
  have total : ((keys ++ [write.key]).length : Int) = keys.length + 1 := by simp
  -- The weight is the number of keys, so items are evicted for the one past the capacity.
  have settled : ∃ sh' gone, mid.settle cfg write.nowOff 1 [] = .ok (sh', gone) ∧
      (keys.length < cap → sh' = { mid with weight := keys.length + 1 }) ∧
      Shard.Falls cfg { mid with weight := keys.length + 1 } sh' := by
    unfold Shard.settle
    rw [exactWeight]
    by_cases tooMany : keys.length + 1 > mid.cap
    · obtain ⟨sh', gone, ran, falls⟩ :=
        (gathered.toSound.move (.weigh (keys.length + 1))).evictShard write.nowOff []
      exact ⟨sh', gone, by rw [if_pos tooMany, ran], fun less => absurd less (by omega), falls⟩
    · exact ⟨_, [], if_neg tooMany, fun _ => rfl, .refl⟩
  obtain ⟨sh', gone, ran, same, falls⟩ := settled
  refine ⟨{ mid with weight := keys.length + 1 }, ⟨⟨?_, gathered.served, gathered.count, gathered.clean,
    gathered.room⟩, total.symm, cap_eq, kind_eq.trans filled.kind_eq⟩, len, sh', ?_, same, falls⟩
  · exact gathered.toSound.move (.weigh _)
  · have wrote : sh.setMemory cfg write.nowOff write.key write.value write.off = .ok (sh', gone) := by
      rw [Shard.setMemory_eq_placed _ _ _ _ _ _ (by rw [unit, filled.cap_eq]; omega), placed, unit]
      exact ran
    simp only [work, decided]
    refine bind_of_ok ?_
    rw [wrote]
    rfl

/-- A table no larger than the one made for the capacity has grown to that one. -/
theorem Grown.len_eq {start replaced n p : Nat} {len : Nat} (grown : Grown start replaced n len) (low : 6 ≤ start)
    (positive : 0 ≤ cap) (few : cap + 1 < maxItems) (all : n = cap + 1) (size : preallocSlots cap = 2 ^ p)
    (top : p ≤ 32) (smaller : start ≤ p) : len = preallocSlots cap ∧ (replaced = 0 ↔ p = start) := by
  obtain ⟨b, high, from_start, rfl, needed, same⟩ := grown.sized
  have room := grown.room
  have enough : ∀ c, 6 ≤ c → c ≤ 32 → (p ≤ c ↔ n * 4 < 3 * 2 ^ c) := by
    intro c lowC highC
    rw [← Nat.pow_le_pow_iff_right (show 1 < 2 by omega), ← size, preallocSlots_le_iff positive few lowC highC,
      ← all]
    zify
    constructor <;> intro <;> omega
  have fits : p ≤ b := (enough b (by omega) high).mpr room
  have least : b ≤ p := by
    by_contra more
    obtain ⟨c, rfl⟩ : ∃ c, b = c + 1 := ⟨b - 1, by omega⟩
    have before := (enough c (by omega) (by omega)).mp (by omega)
    have doubled := needed (by omega)
    rw [Nat.pow_succ] at doubled
    omega
  obtain rfl : b = p := le_antisymm least fits
  exact ⟨size.symm, same⟩

/-- Writes of the first numbers. -/
def firstWrites (n : Nat) : List (Write Nat Unit) := (List.range n).map fun key => ⟨0, key, (), noExpiry⟩

end Write

end Memstash
