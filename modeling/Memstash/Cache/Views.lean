import Memstash.Cache.Deletions
import Memstash.WriteBack.Memory

/-! Whichever way a caller looks at the first level, it sees the same contents. -/

namespace Memstash

open Scan Runs Finset Machine MetaWord

variable {K V : Type}

/-- A slot adds one to the live slots when its item is live. -/
theorem FlatHashMap.length_liveEntries (t : FlatHashMap K V) :
    (t.liveEntries.length : Int) = t.tally Item.liveOne := by
  unfold FlatHashMap.liveEntries FlatHashMap.tally
  induction t.len with
  | zero => rfl
  | succ n ih =>
    rw [List.range_succ, List.filterMap_append, List.length_append, sum_range_succ, ← ih, Nat.cast_add]
    congr 1
    unfold Item.liveOne
    cases cell : (t.slots n).cell <;> simp [cell]

namespace MemoryLevel

variable {c : MemoryLevel K V}

/-- `Len` counts the live slots. -/
theorem Inv.len_eq (inv : c.Inv) : c.len = c.liveEntries.length := by
  have shard : ∀ i ∈ range c.numShards, (c.shards i).live = ((c.shards i).items.liveEntries.length : Int) :=
    fun i inside => by rw [(inv.shards i (mem_range.mp inside)).live, FlatHashMap.length_liveEntries]
  rw [len, sum_congr rfl shard, liveEntries, List.length_flatMap, ← Nat.cast_sum]
  rfl

/-- A walk yields no key twice. -/
theorem Inv.iterateWithLife_nodup (inv : c.Inv) (nowOff : Nat) :
    ((c.iterateWithLife nowOff).map Prod.fst).Nodup := by
  unfold iterateWithLife
  rw [List.map_flatMap, List.nodup_flatMap]
  refine ⟨fun i member => (inv.shards i (List.mem_range.mp member)).iterateWithLife_nodup,
    List.nodup_range.imp_of_mem fun {a b} memberA memberB apart key listedA listedB => ?_⟩
  -- Two shards that yield a key would both be the key's own.
  have home : ∀ i ∈ List.range c.numShards, key ∈ ((c.shards i).iterateWithLife c.cfg nowOff).map Prod.fst →
      c.keyShard key = i := by
    intro i member listed
    obtain ⟨⟨_, value, life⟩, yielded, rfl⟩ := List.mem_map.mp listed
    have inside := List.mem_range.mp member
    obtain ⟨off, served, _⟩ := ((inv.shards i inside).mem_iterateWithLife _ value life).mp yielded
    exact inv.home i inside _ value off served
  exact apart ((home a memberA listedA).symm.trans (home b memberB listedB))

variable [Inhabited K] [Inhabited V] [DecidableEq K]

/-- Peeks, presence tests, lookups, walks and `Len` at one moment show the same contents. -/
structure Consistent (nowOff : Nat) (c : MemoryLevel K V) : Prop where
  peek : ∀ key, (c.shards (c.keyShard key)).peekMemory c.cfg key = .ok (c.held key)
  present : ∀ key, (c.shards (c.keyShard key)).livePresent c.cfg key = .ok (c.held key).isSome
  /-- A lookup answers what is held, unless it has expired, and then it is dropped. -/
  get : ∀ key, ∃ c' found gone, c.getMemory nowOff key = .ok (c', found, gone) ∧
    c'.held = Function.update c.held key found ∧
    (found = c.held key ∨ found = none ∧ c.Stale key nowOff)
  /-- A walk yields what a lookup of each key would answer. -/
  walk : ∀ key value, (∃ life, (key, value, life) ∈ c.iterateWithLife nowOff) ↔
    ∃ c' gone, c.getMemory nowOff key = .ok (c', some value, gone)
  once : ((c.iterateWithLife nowOff).map Prod.fst).Nodup
  len : ∃ keys : Finset K, c.len = keys.card ∧ ∀ key, key ∈ keys ↔ (c.held key).isSome

/-- A lookup answers exactly what is served and has not expired. -/
theorem Inv.getMemory_serves (inv : c.Inv) (nowOff : Nat) (key : K) :
    ∃ c' found gone, c.getMemory nowOff key = .ok (c', found, gone) ∧
      c'.held = Function.update c.held key found ∧
      (found = c.held key ∨ found = none ∧ c.Stale key nowOff) ∧
      ∀ value, found = some value ↔ ∃ off, c.Serves key value off ∧ lapsed off nowOff = false := by
  obtain ⟨sh, found, gone, ran, read, _⟩ := (inv.shard key).getMemory nowOff key
  obtain ⟨c', found', gone', ran', _, _, _, update⟩ := inv.getMemory_held nowOff key
  have same := (MemoryLevel.onShard_eq ran).symm.trans ran'
  cases same
  refine ⟨_, found, gone, ran', update, ?_⟩
  cases read with
  | missed absent _ =>
    refine ⟨.inr ⟨rfl, fun value off served => absurd served (absent value off)⟩, fun value => ?_⟩
    constructor
    · rintro ⟨⟩
    · rintro ⟨off, served, _⟩
      exact absurd served (absent value off)
  | dropped served late _ =>
    have all : c.Stale key nowOff := fun value off other => by
      obtain ⟨_, rfl⟩ := (inv.shard key).serves_unique served other
      exact late
    refine ⟨.inr ⟨rfl, all⟩, fun value => ?_⟩
    constructor
    · rintro ⟨⟩
    · rintro ⟨off, other, inTime⟩
      rw [all value off other] at inTime
      cases inTime
  | @hit held off life served inTime _ _ _ _ _ _ _ =>
    refine ⟨.inl (inv.held_eq_some.mpr ⟨off, served⟩).symm, fun value => ?_⟩
    constructor
    · rintro ⟨⟩
      exact ⟨off, served, inTime⟩
    · rintro ⟨other, served', _⟩
      rw [((inv.shard key).serves_unique served served').1]

omit [Inhabited K] [Inhabited V] [DecidableEq K] in
/-- The keys of the live slots are the keys something is held for. -/
theorem Inv.mem_liveKeys (inv : c.Inv) (key : K) : key ∈ c.liveEntries.map Sigma.fst ↔ (c.held key).isSome := by
  rw [Option.isSome_iff_exists, List.mem_map]
  constructor
  · rintro ⟨⟨own, value, off⟩, listed, rfl⟩
    exact ⟨value, inv.held_eq_some.mpr ⟨off, (inv.mem_liveEntries own value off).mp listed⟩⟩
  · rintro ⟨value, held⟩
    obtain ⟨off, served⟩ := inv.held_eq_some.mp held
    exact ⟨⟨key, value, off⟩, (inv.mem_liveEntries key value off).mpr served, rfl⟩

/-- A well-formed level is consistent. -/
theorem Inv.consistent (inv : c.Inv) (nowOff : Nat) : c.Consistent nowOff := by
  refine ⟨fun key => ?_, fun key => ?_, fun key => ?_, fun key value => ?_,
    inv.iterateWithLife_nodup nowOff, ?_⟩
  · obtain ⟨found, ran, decides⟩ := (inv.shard key).peekMemory key
    have same : found = c.held key := Option.ext fun value => by
      rw [decides, inv.held_eq_some]
      rfl
    rw [ran, same]
  · obtain ⟨present, ran, decides⟩ := (inv.shard key).livePresent key
    have same : present = (c.held key).isSome := by
      rw [Bool.eq_iff_iff, decides, Option.isSome_iff_exists]
      exact exists_congr fun value => inv.held_eq_some.symm
    rw [ran, same]
  · obtain ⟨c', found, gone, ran, update, answers, _⟩ := inv.getMemory_serves nowOff key
    exact ⟨c', found, gone, ran, update, answers⟩
  · -- What the walk yields and what the lookup answers are both what is served in time.
    obtain ⟨c', found, gone, ran, _, _, decides⟩ := inv.getMemory_serves nowOff key
    constructor
    · rintro ⟨life, yielded⟩
      obtain ⟨off, served, inTime, _⟩ := inv.of_mem_iterateWithLife yielded
      exact ⟨c', gone, by rw [ran, (decides value).mpr ⟨off, served, inTime⟩]⟩
    · rintro ⟨_, _, answered⟩
      rw [ran] at answered
      cases answered
      obtain ⟨off, served, inTime⟩ := (decides value).mp rfl
      exact ⟨_, inv.mem_iterateWithLife served inTime⟩
  · refine ⟨(c.liveEntries.map Sigma.fst).toFinset, ?_, fun key => ?_⟩
    · rw [List.toFinset_card_of_nodup inv.liveEntries_nodup, List.length_map, inv.len_eq]
    · rw [List.mem_toFinset, inv.mem_liveKeys]

end MemoryLevel

variable [Inhabited K] [Inhabited V] [DecidableEq K]

/-- At every point of every run of a built cache whose writes find the room they need, and at every
clock value, all ways to look at the first level show the same contents. -/
theorem views_agree {cfg resolved : Config K V} {around : Surroundings K V}
    (resolves : cfg.resolve around = .ok resolved) {steps : List (Nat × MemoryStep K V)}
    (allowed : Meets MemoryStep.apply MemoryStep.Allowed (resolved.build around) steps) :
    ∀ done, done <+: steps → ∃ c, run MemoryStep.apply (resolved.build around) done = .ok c ∧
      ∀ nowOff, c.Consistent nowOff := by
  intro done within
  obtain ⟨c, ran, inv, _⟩ := MemoryLevel.exists_reached resolves allowed within
  exact ⟨c, ran, inv.consistent⟩

/-- All views agree after a write and a deletion. -/
theorem views_agree_seven : ∃ c,
    run MemoryStep.apply (hundredItems.build plainSurroundings)
      [(0, .setMemory 7 () noExpiry), (1, .deleteLocked 7 .invalidation)] = .ok c ∧
    ∀ nowOff, c.Consistent nowOff := by
  have resolves : hundredItems.resolve plainSurroundings = .ok hundredItems := rfl
  exact views_agree resolves (MemoryLevel.meets_of_moderate (by decide) (by decide) (by decide) _)
    _ List.prefix_rfl

end Memstash
