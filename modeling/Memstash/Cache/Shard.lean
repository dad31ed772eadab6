import Memstash.Eviction.Policy

/-! One shard: the table, the policy and the counters, and the operations under the shard mutex. -/

namespace Memstash

open Scan Turns Machine MetaWord

variable {K V : Type}

/-- Why an item left the first level. -/
inductive DeletionCause where
  | invalidation
  | replacement
  | expiration
  | eviction
  | overflow
  deriving DecidableEq, Repr

/-- One recorded removal. -/
structure Deletion (K V : Type) where
  key : K
  value : V
  cause : DeletionCause
  deriving DecidableEq, Repr

/-- The parts of a cache's configuration its shards read. -/
structure ShardConfig (K V : Type) where
  /-- The key hash, fixed for the lifetime of the cache. -/
  keyHash : K → BitVec 64
  /-- The weight of an item, when the cache is weighted. -/
  costFunc : Option (K → V → BitVec 32)
  /-- Whether a deletion handler is configured. -/
  onDeletion : Bool
  /-- Whether values are at most one machine word. -/
  wordSized : Bool
  /-- The lifetime of an item in clock units, zero when items do not expire. -/
  ttlOff : Nat
  /-- The length of a clock unit in nanoseconds. -/
  expireUnit : Int
  /-- Whether a read extends the lifetime. -/
  refreshOnGet : Bool

/-- One shard of the cache. -/
structure Shard (K V : Type) where
  items : FlatHashMap K V
  policy : EvictionPolicy K
  weight : Int
  cap : Int
  live : Int
  dirty : Int
  deadCount : Int

namespace ShardConfig

/-- The weight of an item, at least one. -/
def rawCost (cfg : ShardConfig K V) (key : K) (value : V) : Int :=
  match cfg.costFunc with
  | none => 1
  | some cost => if cost key value = 0#32 then 1 else (cost key value).toNat

/-- The expiration offset of an item written at a clock value; zero means it never expires. -/
def expireOffsetAt (cfg : ShardConfig K V) (nowOff : Nat) : Nat :=
  let expireOff := (nowOff + cfg.ttlOff + 1) % 2 ^ 18
  -- A wrap landing on "no TTL" moves to the next offset.
  if expireOff = 0 then 1 else expireOff

/-- The expiration offset of a new item. -/
def expireOffset (cfg : ShardConfig K V) (nowOff : Nat) : Nat :=
  if cfg.ttlOff = 0 then 0 else cfg.expireOffsetAt nowOff

/-- How much longer an item lives, zero when it has no lifetime. -/
def lifeLeft (cfg : ShardConfig K V) (word : MetaWord) (nowOff : Nat) : Int :=
  if word.expireOff = 0 then 0 else int64 (offsetDiff word.expireOff nowOff * cfg.expireUnit)

/-- The item after a hit: its counter is raised, and its lifetime extended when reads do that. -/
def touch (cfg : ShardConfig K V) (nowOff : Nat) (item : Item K V) (word : MetaWord) : Item K V :=
  let newOff := cfg.expireOffsetAt nowOff
  if cfg.refreshOnGet = true ∧ newOff ≠ word.expireOff then
    match item.touchAndRefreshExpire word newOff with
    | (item, true) => item
    | (item, false) => item.touchWith word
  else item.touchWith word

end ShardConfig

/-- What a write found for its key: nothing, its own tombstone, or its live slot. -/
inductive Target where
  | fresh (pos : Nat) (reuse : Option Nat)
  | buried (pos : Nat)
  | live (pos : Nat)
  deriving DecidableEq, Repr

namespace FlatHashMap

variable [DecidableEq K]

/-- One step of a lookup; lock-free readers also validate the copy they take. -/
def probeVisit (snapshot : Bool) (t : FlatHashMap K V) (hash : BitVec 64) (key : K) (pos : Nat) :
    Option (Except Fault (Option Nat)) :=
  if pos = groupEnd (t.home hash) ∧ t.overflowed (t.home hash) = false then some (.ok none)
  else
    let item := t.itemAt pos
    if item.metaWord = 0#64 then some (.ok none)
    else if item.metaWord &&& deadOrTag ≠ tagOf hash then none
    -- With no write in flight, retrying reads the same word again.
    else if snapshot && !item.snapshotInto item.metaWord then some (.error .hang)
    else if item.entry.key = key then some (.ok (some pos))
    else none

/-- Find the position of a key's live slot. -/
def probe (snapshot : Bool) (t : FlatHashMap K V) (hash : BitVec 64) (key : K) :
    Except Fault (Option Nat) :=
  scan (t.probeVisit snapshot hash key) t.len (t.home hash)

/-- Find where a write goes, noting the first reusable slot on the way. -/
def setProbe (t : FlatHashMap K V) (hash : BitVec 64) (key : K) :
    Nat → Nat → Option Nat → Except Fault Target
  | 0, _, _ => .error .hang
  | fuel + 1, pos, reuse =>
    let item := t.itemAt pos
    let word := item.metaWord
    if word = 0#64 then .ok (.fresh pos reuse)
    else if word.isDead then
      if ¬ word.reusable ∧ word &&& tagMask = tagOf hash &&& tagMask ∧ item.entry.key = key then
        .ok (.buried pos)
      else
        -- A tombstone its queue node still references would make the node point at a stranger.
        setProbe t hash key fuel (pos + 1) (if reuse = none ∧ word.reusable then some pos else reuse)
    else if word &&& tagMask = tagOf hash &&& tagMask ∧ item.entry.key = key then .ok (.live pos)
    else setProbe t hash key fuel (pos + 1) reuse

end FlatHashMap

/-- A shard with nothing in it, over a table of the given number of slots. -/
def newShard [Inhabited K] [Inhabited V] (kind : PolicyKind) (policyHash : K → BitVec 64)
    (ghostPerShard : Int) (slots : Nat) (cap : Int) : Shard K V :=
  { items := newFlatHashMap slots
    policy := newPolicy kind policyHash cap ghostPerShard
    weight := 0
    cap := cap
    live := 0
    dirty := 0
    deadCount := 0 }

namespace Shard

/-- Move one queued item to the new table of a rebuild, or report it dead. -/
def moveItem (cfg : ShardConfig K V) (old : FlatHashMap K V) (state : FlatHashMap K V × Int)
    (oldIdx : Nat) : Except Fault ((FlatHashMap K V × Int) × Option Nat) := do
  let item := old.itemAt oldIdx
  if item.metaWord.isDead then return (state, none)
  else
    let (fresh, idx) ← state.1.insertFresh (cfg.keyHash item.entry.key) item
    return ((fresh, state.2 + 1), some idx)

variable [Inhabited K] [Inhabited V]

/-- Replace the table once it passes three quarters, doubled when live items need the space. -/
def maybeRebuild (cfg : ShardConfig K V) (sh : Shard K V) : Except Fault (Shard K V) :=
  if (sh.live + sh.dirty) * 4 < sh.items.len * 3 then .ok sh
  else do
    let newSize := if sh.live * 2 ≥ sh.items.len then sh.items.len * 2 else sh.items.len
    let (policy, fresh, live) ←
      sh.policy.rebuild (moveItem cfg sh.items) (newFlatHashMap newSize, 0)
    return { sh with policy := policy, items := fresh, live := live, dirty := 0, deadCount := 0 }

/-- Give up one item the policy chose, accounting for it unless it died earlier. -/
def reclaim (cfg : ShardConfig K V) (nowOff : Nat) (sh : Shard K V) (idx : Nat) :
    Shard K V × List (Deletion K V) :=
  let item := sh.items.itemAt idx
  let killed := item.kill
  if item.metaWord.isDead then
    ({ sh with items := sh.items.put idx killed.makeFree }, [])
  else
    let entry := item.entry
    let items := (sh.items.put idx killed).forgetDisplaced
      (sh.items.home (cfg.keyHash entry.key)) idx
    let cause := if killed.metaWord.expired nowOff then .expiration else .eviction
    ({ sh with
        items := items.put idx killed.makeFree
        weight := int64 (sh.weight - cfg.rawCost entry.key entry.value)
        live := sh.live - 1
        dirty := sh.dirty + 1 },
      if cfg.onDeletion then [⟨entry.key, entry.value, cause⟩] else [])

/-- One turn of an eviction pass. -/
def evictShardTurn (cfg : ShardConfig K V) (nowOff : Nat) (state : Shard K V × List (Deletion K V)) :
    Except Fault ((Shard K V × List (Deletion K V)) ⊕ (Shard K V × List (Deletion K V))) :=
  let (sh, deletions) := state
  if sh.weight > sh.cap then do
    let (policy, items, victim) ← sh.policy.evict sh.items nowOff
    let sh := { sh with policy := policy, items := items }
    match victim with
    | none => return .inr (sh, deletions)
    | some idx =>
      let (sh, gone) := sh.reclaim cfg nowOff idx
      return .inl (sh, deletions ++ gone)
  else .ok (.inr (sh, deletions))

/-- Evict items while the weight exceeds the capacity. -/
def evictShard (cfg : ShardConfig K V) (nowOff : Nat) (sh : Shard K V)
    (deletions : List (Deletion K V)) : Except Fault (Shard K V × List (Deletion K V)) :=
  -- Every turn but the last dequeues a node.
  turns (evictShardTurn cfg nowOff) (sh.policy.len + 2) (sh, deletions)

/-- The fewest queued tombstones worth a sweep. -/
def sweepMinDead : Int := 128

/-- Account a queued tombstone, and reclaim them in bulk once they outnumber live nodes. -/
def noteDead (sh : Shard K V) : Except Fault (Shard K V) :=
  let sh := { sh with deadCount := sh.deadCount + 1 }
  if sh.deadCount ≥ sweepMinDead ∧ sh.deadCount * 2 ≥ (sh.policy.len : Int) then do
    let (policy, items) ← sh.policy.sweep (fun t idx => (FlatHashMap.itemAt t idx).metaWord.isDead)
      (fun t idx => t.put idx (t.itemAt idx).makeFree) sh.items
    return { sh with policy := policy, items := items, deadCount := 0 }
  else .ok sh

/-- Kill the item in its slot and subtract its weight; the slot stays queued as a tombstone. -/
def killAt (cfg : ShardConfig K V) (sh : Shard K V) (keyHash : BitVec 64) (idx : Nat)
    (cause : DeletionCause) : Except Fault (Shard K V × List (Deletion K V)) := do
  let item := sh.items.itemAt idx
  let sh ← noteDead { sh with
    weight := int64 (sh.weight - cfg.rawCost item.entry.key item.entry.value)
    items := (sh.items.put idx item.kill).forgetDisplaced (sh.items.home keyHash) idx
    live := sh.live - 1
    dirty := sh.dirty + 1 }
  return (sh, if cfg.onDeletion then [⟨item.entry.key, item.entry.value, cause⟩] else [])

variable [DecidableEq K]

/-- The slot index of a key's live item. -/
def findSlot (sh : Shard K V) (keyHash : BitVec 64) (key : K) : Except Fault (Option Nat) := do
  let found ← sh.items.probe false keyHash key
  return found.map sh.items.wrap

/-- Delete a key's item, if there is one. -/
def deleteLocked (cfg : ShardConfig K V) (sh : Shard K V) (key : K) (cause : DeletionCause) :
    Except Fault (Shard K V × List (Deletion K V)) := do
  match ← sh.findSlot (cfg.keyHash key) key with
  | none => return (sh, [])
  | some idx => sh.killAt cfg (cfg.keyHash key) idx cause

/-- Remove an expired item a read found, unless the slot has changed since. -/
def dropExpired (cfg : ShardConfig K V) (nowOff : Nat) (sh : Shard K V) (key : K) (idx : Nat) :
    Except Fault (Shard K V × List (Deletion K V)) := do
  match ← sh.findSlot (cfg.keyHash key) key with
  | none => return (sh, [])
  | some found =>
    if found = idx ∧ (sh.items.itemAt found).metaWord.expired nowOff = true then
      sh.killAt cfg (cfg.keyHash key) found .expiration
    else return (sh, [])

/-- Store a new key in an empty slot, or in the reusable one seen on the way. -/
def insertNew (cfg : ShardConfig K V) (sh : Shard K V) (key : K) (value : V) (expireOff pos : Nat)
    (reuse : Option Nat) : Except Fault (Shard K V) := do
  let home := sh.items.home (cfg.keyHash key)
  let slot := reuse.getD pos
  let item := (sh.items.itemAt slot).publish ⟨key, value⟩ (tagOf (cfg.keyHash key)) expireOff
  let items := (sh.items.put slot item).noteDisplaced home slot
  let node : QNode :=
    { idx := items.wrap slot, cost := (cfg.rawCost key value).toNat % 2 ^ 32 }
  let policy ← sh.policy.add items node
  maybeRebuild cfg { sh with
    items := items
    policy := policy
    live := sh.live + 1
    dirty := if reuse.isSome then sh.dirty - 1 else sh.dirty }

/-- Bring a key's own tombstone back, keeping its queue node. -/
def resurrect (cfg : ShardConfig K V) (sh : Shard K V) (key : K) (value : V) (expireOff pos : Nat) :
    Shard K V :=
  let item := (sh.items.itemAt pos).publish ⟨key, value⟩ (tagOf (cfg.keyHash key)) expireOff
  { sh with
    items := (sh.items.put pos item).noteDisplaced (sh.items.home (cfg.keyHash key)) pos
    live := sh.live + 1
    dirty := sh.dirty - 1
    deadCount := if sh.deadCount > 0 then sh.deadCount - 1 else sh.deadCount }

/-- Overwrite a live item's value in place. -/
def overwrite (cfg : ShardConfig K V) (sh : Shard K V) (value : V) (expireOff pos : Nat) :
    Shard K V :=
  let item := (sh.items.itemAt pos).setValue cfg.wordSized value
  let item := if expireOff ≠ 0 then item.refreshExpire expireOff else item
  { sh with items := sh.items.put pos item }

/-- Put a value into the first level with the given expiration offset. -/
def setMemory (cfg : ShardConfig K V) (nowOff : Nat) (sh : Shard K V) (key : K) (value : V)
    (expireOff : Nat) : Except Fault (Shard K V × List (Deletion K V)) := do
  let weight := cfg.rawCost key value
  if weight > sh.cap then
    -- The item does not fit at all, and the older value must stop serving reads.
    sh.deleteLocked cfg key .overflow
  else
    let hash := cfg.keyHash key
    let (sh, delta, deletions) ←
      match ← sh.items.setProbe hash key sh.items.len (sh.items.home hash) none with
      | .fresh pos reuse => do
        let sh ← sh.insertNew cfg key value expireOff pos reuse
        pure (sh, weight, [])
      | .buried pos => pure (sh.resurrect cfg key value expireOff pos, weight, [])
      | .live pos =>
        let old := (sh.items.itemAt pos).entry.value
        pure (sh.overwrite cfg value expireOff pos, weight - cfg.rawCost key old,
          if cfg.onDeletion then [⟨key, old, DeletionCause.replacement⟩] else [])
    let sh := { sh with weight := int64 (sh.weight + delta) }
    if sh.weight > sh.cap then sh.evictShard cfg nowOff deletions else return (sh, deletions)

/-- Whether the key has a live item, found without the mutex. -/
def livePresent (cfg : ShardConfig K V) (sh : Shard K V) (key : K) : Except Fault Bool := do
  let found ← sh.items.probe true (cfg.keyHash key) key
  return found.isSome

/-- The value of a key, expired or not, leaving the reference counter alone. -/
def peekMemory (cfg : ShardConfig K V) (sh : Shard K V) (key : K) : Except Fault (Option V) := do
  let found ← sh.items.probe true (cfg.keyHash key) key
  return found.map fun pos => (sh.items.itemAt pos).entry.value

/-- Read a key: a hit is counted, and an expired item is dropped on the spot. -/
def getMemory (cfg : ShardConfig K V) (nowOff : Nat) (sh : Shard K V) (key : K) :
    Except Fault (Shard K V × Option V × List (Deletion K V)) := do
  match ← sh.items.probe true (cfg.keyHash key) key with
  | none => return (sh, none, [])
  | some pos =>
    let item := sh.items.itemAt pos
    let word := item.metaWord
    if word.expired nowOff then
      let (sh, deletions) ← sh.dropExpired cfg nowOff key (sh.items.wrap pos)
      return (sh, none, deletions)
    else
      let items := sh.items.put pos (cfg.touch nowOff item word)
      return ({ sh with items := items }, some item.entry.value, [])

/-- Delete a key from memory, unless a probe without the mutex finds it absent. -/
def delete (cfg : ShardConfig K V) (sh : Shard K V) (key : K) :
    Except Fault (Shard K V × List (Deletion K V)) := do
  if ← sh.livePresent cfg key then sh.deleteLocked cfg key .invalidation else return (sh, [])

/-- Delete keys one after the other. -/
def batchDelete (cfg : ShardConfig K V) :
    Shard K V → List K → Except Fault (Shard K V × List (Deletion K V))
  | sh, [] => .ok (sh, [])
  | sh, key :: keys => do
    let (sh, deletions) ← sh.delete cfg key
    let (sh, more) ← batchDelete cfg sh keys
    return (sh, deletions ++ more)

/-- The live entries a walk over the table yields in slot order, with the life each has left. -/
def iterateWithLife (cfg : ShardConfig K V) (nowOff : Nat) (sh : Shard K V) : List (K × V × Int) :=
  (List.range sh.items.len).filterMap fun pos =>
    let item := sh.items.itemAt pos
    let word := item.metaWord
    if word = 0#64 ∨ word.isDead = true ∨ word.expired nowOff = true ∨
        item.snapshotInto word = false then none
    else some (item.entry.key, item.entry.value, cfg.lifeLeft word nowOff)

end Shard

end Memstash
