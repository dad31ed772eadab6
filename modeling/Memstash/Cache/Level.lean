import Memstash.Cache.Construction
import Memstash.Cache.Reading

/-! The first level as a whole: operations go to the shard their key hashes to. -/

namespace Memstash

open Scan Finset Machine

variable {K V : Type}

namespace MemoryLevel

/-- The shard a key lives in. -/
def keyShard (c : MemoryLevel K V) (key : K) : Nat := c.shardOf (c.cfg.keyHash key)

/-- Replace one shard. -/
def put (c : MemoryLevel K V) (i : Nat) (sh : Shard K V) : MemoryLevel K V :=
  { c with shards := Function.update c.shards i sh }

/-- Run an operation on the shard of a key. -/
def onShard {α : Type} (c : MemoryLevel K V) (key : K)
    (op : Shard K V → Except Fault (Shard K V × α)) : Except Fault (MemoryLevel K V × α) := do
  let (sh, result) ← op (c.shards (c.keyShard key))
  return (c.put (c.keyShard key) sh, result)

theorem keyShard_lt (c : MemoryLevel K V) (key : K) : c.keyShard key < c.numShards :=
  Nat.lt_succ_of_le Nat.and_le_right

@[simp] theorem put_here (c : MemoryLevel K V) (i : Nat) (sh : Shard K V) :
    (c.put i sh).shards i = sh := Function.update_self _ _ _

theorem put_others (c : MemoryLevel K V) {i j : Nat} (sh : Shard K V) (other : j ≠ i) :
    (c.put i sh).shards j = c.shards j := Function.update_of_ne other _ _

/-- An operation on the shard of a key leaves the other shards alone. -/
theorem onShard_eq {α : Type} {c : MemoryLevel K V} {key : K}
    {op : Shard K V → Except Fault (Shard K V × α)} {sh : Shard K V} {result : α}
    (ran : op (c.shards (c.keyShard key)) = .ok (sh, result)) :
    c.onShard key op = .ok (c.put (c.keyShard key) sh, result) := by
  simp only [onShard, ran, Bind.bind, Except.bind, Pure.pure, Except.pure]

variable [Inhabited K] [Inhabited V] [DecidableEq K]

/-- Put a value into the first level. -/
def setMemory (nowOff : Nat) (c : MemoryLevel K V) (key : K) (value : V) (expireOff : Nat) :
    Except Fault (MemoryLevel K V × List (Deletion K V)) :=
  c.onShard key fun sh => sh.setMemory c.cfg nowOff key value expireOff

/-- Read a key. -/
def getMemory (nowOff : Nat) (c : MemoryLevel K V) (key : K) :
    Except Fault (MemoryLevel K V × Option V × List (Deletion K V)) :=
  c.onShard key fun sh => sh.getMemory c.cfg nowOff key

/-- Delete a key's item. -/
def deleteLocked (c : MemoryLevel K V) (key : K) (cause : DeletionCause) :
    Except Fault (MemoryLevel K V × List (Deletion K V)) :=
  c.onShard key fun sh => sh.deleteLocked c.cfg key cause

/-- Remove an expired item a read found. -/
def dropExpired (nowOff : Nat) (c : MemoryLevel K V) (key : K) (idx : Nat) :
    Except Fault (MemoryLevel K V × List (Deletion K V)) :=
  c.onShard key fun sh => sh.dropExpired c.cfg nowOff key idx

/-- Evict from the shard of a key. -/
def evictShard (nowOff : Nat) (c : MemoryLevel K V) (key : K) :
    Except Fault (MemoryLevel K V × List (Deletion K V)) :=
  c.onShard key fun sh => sh.evictShard c.cfg nowOff []

/-- Every live entry a walk over the shards yields, with the life each has left. -/
def iterateWithLife (nowOff : Nat) (c : MemoryLevel K V) : List (K × V × Int) :=
  (List.range c.numShards).flatMap fun i => (c.shards i).iterateWithLife c.cfg nowOff

/-- The records a snapshot saves: lifetimes in seconds, one more so that zero can mean none. -/
def savedRecords (nowOff : Nat) (c : MemoryLevel K V) : List (K × V × Nat) :=
  (c.iterateWithLife nowOff).map fun (key, value, life) =>
    (key, value, if life > 0 then
      (((int64 (life + (10 ^ 9 - 1))).tdiv (10 ^ 9) + 1) % 2 ^ 64).toNat else 0)

/-- The level serves a value for a key, with the lifetime its slot carries. -/
def Serves (c : MemoryLevel K V) (key : K) (value : V) (off : Nat) : Prop :=
  (c.shards (c.keyShard key)).items.Serves key value off

/-- Every shard is well formed, and holds keys of its own only. -/
structure Inv (c : MemoryLevel K V) : Prop where
  shards : ∀ i < c.numShards, (c.shards i).Inv c.cfg
  home : ∀ i < c.numShards, ∀ key value off,
    (c.shards i).items.Serves key value off → c.keyShard key = i

variable {c : MemoryLevel K V}

omit [Inhabited K] [Inhabited V] [DecidableEq K] in
theorem Inv.shard (inv : c.Inv) (key : K) : (c.shards (c.keyShard key)).Inv c.cfg :=
  inv.shards _ (c.keyShard_lt key)

omit [DecidableEq K] in
/-- A newly built level is well formed. -/
theorem inv_build {cfg : Config K V} (capacity : 0 ≤ cfg.memoryCapacity)
    (around : Surroundings K V) : (cfg.build around).Inv := by
  refine ⟨fun i _ => (cfg.shard_spec capacity around _ i).1, fun i _ key value off served => ?_⟩
  exact absurd served ((cfg.shard_spec capacity around (cfg.forShards around) i).2.1 key value off)

omit [DecidableEq K] in
theorem not_serves_build {cfg : Config K V} (capacity : 0 ≤ cfg.memoryCapacity)
    (around : Surroundings K V) (key : K) (value : V) (off : Nat) :
    ¬ (cfg.build around).Serves key value off :=
  (cfg.shard_spec capacity around (cfg.forShards around) _).2.1 key value off

/-- The level stays well formed, and the keys of a set are served only as they were before. -/
structure Fades (keys : Set K) (c c' : MemoryLevel K V) : Prop where
  inv : c'.Inv
  cfg : c'.cfg = c.cfg
  mask : c'.shardMask = c.shardMask
  serves : ∀ key ∈ keys, ∀ value off, c'.Serves key value off → c.Serves key value off

omit [Inhabited K] [Inhabited V] [DecidableEq K] in
theorem Fades.refl (inv : c.Inv) (keys : Set K) : Fades keys c c :=
  ⟨inv, rfl, rfl, fun _ _ _ _ served => served⟩

omit [Inhabited K] [Inhabited V] [DecidableEq K] in
/-- One operation after another. -/
theorem Fades.trans {keys : Set K} {c c' c'' : MemoryLevel K V} (first : Fades keys c c')
    (second : Fades keys c' c'') : Fades keys c c'' :=
  ⟨second.inv, second.cfg.trans first.cfg, second.mask.trans first.mask, fun key member value off served =>
    first.serves key member value off (second.serves key member value off served)⟩

omit [Inhabited K] [Inhabited V] [DecidableEq K] in
/-- An operation on one key's shard lets keys fade when it serves nothing new under other keys. -/
theorem Inv.put_fades (inv : c.Inv) {keys : Set K} {touched : K} {sh : Shard K V} (shard : sh.Inv c.cfg)
    (within : ∀ other value off, sh.items.Serves other value off →
      other = touched ∨ (c.shards (c.keyShard touched)).items.Serves other value off)
    (own : touched ∈ keys → ∀ value off, sh.items.Serves touched value off →
      c.Serves touched value off) : Fades keys c (c.put (c.keyShard touched) sh) := by
  have inside := c.keyShard_lt touched
  refine ⟨⟨fun i within => ?_, fun i bound other value off served => ?_⟩, rfl, rfl,
    fun key member value off served => ?_⟩
  · -- Only the one shard has changed.
    by_cases here : i = c.keyShard touched
    · subst here
      rw [put_here]
      exact shard
    · rw [put_others c sh here]
      exact inv.shards i within
  · show c.keyShard other = i
    by_cases here : i = c.keyShard touched
    · subst here
      rw [put_here] at served
      rcases within other value off served with rfl | before
      · rfl
      · exact inv.home _ inside other value off before
    · rw [put_others c sh here] at served
      exact inv.home i bound other value off served
  · have served' : ((c.put (c.keyShard touched) sh).shards (c.keyShard key)).items.Serves key value off :=
      served
    by_cases here : c.keyShard key = c.keyShard touched
    · rw [here, put_here] at served'
      rcases within key value off served' with rfl | before
      · exact own member value off served'
      · show (c.shards (c.keyShard key)).items.Serves key value off
        rw [here]
        exact before
    · rw [put_others c sh here] at served'
      exact served'

omit [Inhabited K] [Inhabited V] [DecidableEq K] in
/-- The shard of a key decides what the level serves under the keys of that shard. -/
theorem put_serves (c : MemoryLevel K V) (i : Nat) (sh : Shard K V) (key : K) (value : V) (off : Nat) :
    (c.put i sh).Serves key value off ↔
      if c.keyShard key = i then sh.items.Serves key value off else c.Serves key value off := by
  show ((c.put i sh).shards (c.keyShard key)).items.Serves key value off ↔ _
  split
  · rename_i here
    rw [here, put_here]
  · rename_i away
    rw [put_others c sh away]
    rfl

omit [Inhabited K] [Inhabited V] [DecidableEq K] in
/-- Removing a shard's items removes them from the level. -/
theorem Inv.put_removed (inv : c.Inv) {i : Nat} (inside : i < c.numShards) {gone : K → Prop}
    {sh : Shard K V} (removed : Shard.Removed c.cfg gone (c.shards i) sh) :
    (c.put i sh).Inv ∧ ∀ key value off, (c.put i sh).Serves key value off ↔
      ¬ (c.keyShard key = i ∧ gone key) ∧ c.Serves key value off := by
  refine ⟨⟨fun j bound => ?_, fun j bound key value off served => ?_⟩, fun key value off => ?_⟩
  · by_cases here : j = i
    · subst here
      rw [put_here]
      exact removed.inv
    · rw [put_others c sh here]
      exact inv.shards j bound
  · show c.keyShard key = j
    by_cases here : j = i
    · subst here
      rw [put_here] at served
      exact inv.home j inside key value off ((removed.serves key value off).mp served).2
    · rw [put_others c sh here] at served
      exact inv.home j bound key value off served
  · rw [put_serves]
    split
    · rename_i here
      rw [removed.serves, Serves, here]
      simp
    · rename_i away
      simp [away]

omit [Inhabited K] [Inhabited V] [DecidableEq K] in
/-- Removing a key from its shard removes it from the level. -/
theorem Inv.put_without (inv : c.Inv) {key : K} {sh : Shard K V}
    (removed : Shard.Removed c.cfg (fun other => other = key) (c.shards (c.keyShard key)) sh) :
    (c.put (c.keyShard key) sh).Inv ∧ ∀ other value off,
      (c.put (c.keyShard key) sh).Serves other value off ↔ other ≠ key ∧ c.Serves other value off := by
  obtain ⟨inv', serves⟩ := inv.put_removed (c.keyShard_lt key) removed
  refine ⟨inv', fun other value off => ?_⟩
  rw [serves]
  constructor
  · rintro ⟨kept, served⟩
    exact ⟨fun same => kept ⟨by rw [same], same⟩, served⟩
  · rintro ⟨apart, served⟩
    exact ⟨fun both => apart both.2, served⟩

omit [Inhabited K] [Inhabited V] [DecidableEq K] in
theorem put_put (c : MemoryLevel K V) (i : Nat) (sh sh' : Shard K V) :
    (c.put i sh).put i sh' = c.put i sh' := by
  simp [put, Function.update_idem]

omit [Inhabited K] [Inhabited V] [DecidableEq K] in
/-- Overwriting a key in its shard overwrites it in the level. -/
theorem Inv.put_overwrites (inv : c.Inv) {key : K} {value : V} {life : Nat} {sh : Shard K V}
    (shard : sh.Inv c.cfg)
    (overwrites : Shard.Overwrites key value life (c.shards (c.keyShard key)).items sh.items) :
    (c.put (c.keyShard key) sh).Inv ∧ ∀ other held off,
      (c.put (c.keyShard key) sh).Serves other held off ↔
        (other = key ∧ held = value ∧ off = life) ∨ (other ≠ key ∧ c.Serves other held off) := by
  have fades : Fades {other | other ≠ key} c (c.put (c.keyShard key) sh) := by
    refine inv.put_fades shard (fun other held off served => ?_) fun member => absurd rfl member
    rcases (overwrites other held off).mp served with ⟨same, _⟩ | ⟨_, before⟩
    · exact .inl same
    · exact .inr before
  refine ⟨fades.inv, fun other held off => ?_⟩
  rw [put_serves]
  split
  · rename_i here
    rw [overwrites, Serves, here]
  · -- A key of another shard is another key.
    rename_i away
    have apart : other ≠ key := fun same => away (by rw [same])
    simp [apart]

/-- Whatever is served for a key has lapsed. -/
def Stale (key : K) (nowOff : Nat) (c : MemoryLevel K V) : Prop :=
  ∀ value off, c.Serves key value off → MetaWord.lapsed off nowOff = true

omit [Inhabited K] [Inhabited V] [DecidableEq K] in
theorem Fades.stale {keys : Set K} {c' : MemoryLevel K V} (fades : Fades keys c c') {key : K}
    (member : key ∈ keys) {nowOff : Nat} (stale : c.Stale key nowOff) : c'.Stale key nowOff :=
  fun value off served => stale value off (fades.serves key member value off served)

omit [Inhabited K] [Inhabited V] [DecidableEq K] in
/-- A walk yields what the level serves and has not expired, with the life left. -/
theorem Inv.of_mem_iterateWithLife (inv : c.Inv) {nowOff : Nat} {key : K} {value : V} {life : Int}
    (yielded : (key, value, life) ∈ c.iterateWithLife nowOff) :
    ∃ off, c.Serves key value off ∧ MetaWord.lapsed off nowOff = false ∧
      life = Shard.lifeOf c.cfg nowOff off := by
  obtain ⟨i, member, yields⟩ := List.mem_flatMap.mp yielded
  have inside := List.mem_range.mp member
  obtain ⟨off, served, inTime, left⟩ := ((inv.shards i inside).mem_iterateWithLife key value life).mp yields
  -- The shard that yields the key is the key's own.
  have here := inv.home i inside key value off served
  exact ⟨off, by rw [Serves, here]; exact served, inTime, left⟩

omit [Inhabited K] [Inhabited V] [DecidableEq K] in
/-- A walk yields everything the level serves that has not expired. -/
theorem Inv.mem_iterateWithLife (inv : c.Inv) {nowOff : Nat} {key : K} {value : V} {off : Nat}
    (served : c.Serves key value off) (inTime : MetaWord.lapsed off nowOff = false) :
    (key, value, Shard.lifeOf c.cfg nowOff off) ∈ c.iterateWithLife nowOff :=
  List.mem_flatMap.mpr ⟨c.keyShard key, List.mem_range.mpr (c.keyShard_lt key),
    ((inv.shard key).mem_iterateWithLife key value _).mpr ⟨off, served, inTime, rfl⟩⟩

omit [Inhabited K] [Inhabited V] [DecidableEq K] in
/-- A walk yields nothing for a stale key. -/
theorem Inv.iterateWithLife_stale (inv : c.Inv) {key : K} {nowOff : Nat} (stale : c.Stale key nowOff)
    (value : V) (life : Int) : (key, value, life) ∉ c.iterateWithLife nowOff := by
  intro yielded
  obtain ⟨off, served, inTime, _⟩ := inv.of_mem_iterateWithLife yielded
  rw [stale value off served] at inTime
  cases inTime

end MemoryLevel

namespace Shard

variable {cfg : ShardConfig K V} {sh sh' : Shard K V} {key : K}

theorem Removed.before {gone : K → Prop} (removed : Removed cfg gone sh sh') {other : K} {value : V}
    {off : Nat} (served : sh'.items.Serves other value off) : sh.items.Serves other value off :=
  ((removed.serves other value off).mp served).2

/-- A write serves nothing new under other keys. -/
theorem Wrote.within {value : V} {off : Nat} (wrote : Wrote cfg key value off sh sh') {other : K}
    {held : V} {life : Nat} (served : sh'.items.Serves other held life) :
    other = key ∨ sh.items.Serves other held life := by
  cases wrote with
  | oversized _ removed => exact .inr (removed.before served)
  | stored _ _ _ _ _ _ _ overwrites evicted _ _ =>
    rcases (overwrites other held life).mp (evicted.before served) with ⟨same, _⟩ | ⟨_, before⟩
    · exact .inl same
    · exact .inr before

/-- A read serves nothing new under other keys. -/
theorem Read.within {nowOff : Nat} {found : Option V} (read : Read cfg nowOff key sh sh' found)
    {other : K} {held : V} {life : Nat} (served : sh'.items.Serves other held life) :
    other = key ∨ sh.items.Serves other held life := by
  cases read with
  | missed _ same => exact .inr (same ▸ served)
  | dropped _ _ removed => exact .inr (removed.before served)
  | hit _ _ _ _ _ _ _ _ overwrites =>
    rcases (overwrites other held life).mp served with ⟨same, _⟩ | ⟨_, before⟩
    · exact .inl same
    · exact .inr before

theorem Read.inv {nowOff : Nat} {found : Option V} (read : Read cfg nowOff key sh sh' found)
    (inv : sh.Inv cfg) : sh'.Inv cfg := by
  cases read with
  | missed _ same => exact same ▸ inv
  | dropped _ _ removed => exact removed.inv
  | hit _ _ inv _ _ _ _ _ _ => exact inv

theorem Read.narrows {nowOff : Nat} {found : Option V} (read : Read cfg nowOff key sh sh' found) :
    sh.items.Narrows sh'.items := by
  cases read with
  | missed _ same => exact same ▸ .refl _
  | dropped _ _ removed => exact removed.slots
  | hit _ _ _ _ _ _ slots _ _ => exact slots

/-- A read of a key whose item has lapsed finds nothing, and serves nothing new. -/
theorem Read.of_stale {nowOff : Nat} {found : Option V} (read : Read cfg nowOff key sh sh' found)
    (stale : ∀ value off, sh.items.Serves key value off → MetaWord.lapsed off nowOff = true) :
    found = none ∧ ∀ value off, sh'.items.Serves key value off → sh.items.Serves key value off := by
  cases read with
  | missed _ same => exact ⟨rfl, fun _ _ served => same ▸ served⟩
  | dropped _ _ removed => exact ⟨rfl, fun _ _ served => removed.before served⟩
  | hit served inTime _ _ _ _ _ _ _ =>
    rw [stale _ _ served] at inTime
    cases inTime

end Shard

end Memstash
