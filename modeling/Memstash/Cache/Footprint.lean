import Memstash.Cache.Reachable

/-! A shard's table and queue are bounded by the most items that were live, not by how long it runs. -/

namespace Memstash

open Probing Scan Runs

variable {K V : Type}

namespace Shard

variable {cfg : ShardConfig K V} {sh sh' : Shard K V}

/-- Every live item has a node. -/
theorem Stored.live_le_queued (stored : sh.Stored cfg) : sh.live ≤ sh.policy.len := by
  have total := stored.queues.sum_eq fun _ idle => Item.liveOne_of_not_live idle
  have each : ∀ share ∈ sh.policy.queued.map fun node => (sh.items.slots node.idx).liveOne, share ≤ 1 := by
    intro share member
    obtain ⟨node, _, rfl⟩ := List.mem_map.mp member
    unfold Item.liveOne
    split <;> decide
  have most := List.sum_le_card_nsmul _ _ each
  rw [total, ← stored.live, List.length_map, EvictionPolicy.length_queued stored.policy] at most
  simpa using most

/-- When only live items are queued, the nodes are as many as the live items. -/
theorem Stored.queued_eq_live (stored : sh.Stored cfg)
    (clean : ∀ node ∈ sh.policy.queued, ∃ key, sh.items.cells node.idx = .live key) :
    sh.live = sh.policy.len := by
  have total := stored.queues.sum_eq fun _ idle => Item.liveOne_of_not_live idle
  have each : sh.policy.queued.map (fun node => (sh.items.slots node.idx).liveOne)
      = sh.policy.queued.map fun _ => (1 : Int) := by
    refine List.map_congr_left fun node member => ?_
    obtain ⟨key, live⟩ := clean node member
    have cell : (sh.items.slots node.idx).cell = .live key := live
    simp [Item.liveOne, cell]
  rw [each, ← stored.live, List.map_const', List.sum_replicate,
    EvictionPolicy.length_queued stored.policy] at total
  simpa using total.symm

variable [Inhabited K] [Inhabited V] [DecidableEq K]

omit [DecidableEq K] in
/-- After a rebuild the nodes are as many as the live items. -/
theorem Rebuilt.queued_eq_live (rebuilt : Rebuilt cfg sh sh') : sh'.live = sh'.policy.len := by
  refine rebuilt.stored.queued_eq_live fun node member => ?_
  obtain ⟨inside, bound⟩ := (rebuilt.stored.queues.bound node.idx).mp (List.mem_map_of_mem member)
  rcases rebuilt.stored.clean_of_dirty rebuilt.dirty inside with vacant | live
  · simp [vacant] at bound
  · exact live

/-- The table and the queue of a shard that started with so many slots and had at most so many live items. -/
structure Slim (slots peak : Int) (sh : Shard K V) : Prop where
  /-- No more nodes are dead than were counted. -/
  dead : sh.policy.len - sh.live ≤ sh.deadCount
  queue : sh.policy.len ≤ sh.live + max 127 peak
  table : sh.items.len ≤ max slots (4 * peak)

omit [Inhabited K] [Inhabited V] [DecidableEq K] in
theorem Slim.mono {slots peak peak' : Int} (slim : sh.Slim slots peak) (higher : peak ≤ peak') :
    sh.Slim slots peak' :=
  ⟨slim.dead, by have := slim.queue; omega, by have := slim.table; omega⟩

/-- A table of the same size, or one replaced for live items below the peak, keeps its bound. -/
theorem Sound.move_table {slots peak : Int} (sound : sh.Sound cfg) (move : Move cfg sh sh')
    (few : sh'.live ≤ peak) (table : sh.items.len ≤ max slots (4 * peak)) :
    sh'.items.len ≤ max slots (4 * peak) := by
  rcases sound.move_fills move with fills | ⟨full, fills, _, _, rebuilt, _⟩
  · rw [fills.size]
    exact table
  · have small := rebuilt.small
    have size := fills.size
    have live := rebuilt.live
    omega

/-- Every change keeps the bounds, as long as the live items stay below the peak. -/
theorem Slim.move {slots peak : Int} (sound : sh.Sound cfg) (slim : sh.Slim slots peak)
    (move : Move cfg sh sh') (few : sh'.live ≤ peak) : sh'.Slim slots peak := by
  have dead := slim.dead
  have queue := slim.queue
  suffices counts : sh'.policy.len - sh'.live ≤ sh'.deadCount ∧ sh'.policy.len ≤ sh'.live + max 127 peak from
    ⟨counts.1, counts.2, sound.move_table move few slim.table⟩
  cases move with
  | weigh weight => exact ⟨dead, queue⟩
  | rewrite alive settled cell tag => exact ⟨dead, queue⟩
  | bury alive interred =>
    cases interred with
    | counted rare =>
      -- Too few dead nodes for a sweep are less than 128, or less than the live ones.
      simp only [Shard.killed, sweepMinDead] at rare few ⊢
      omega
    | swept ran valid alike queues _ clean =>
      have none := ((sound.toStored.killed alive).alike alike valid queues 0).queued_eq_live clean
      simp only [Shard.killed] at none few ⊢
      omega
  | drain ran =>
    obtain ⟨valid, _, chosen⟩ := sound.evict ran
    obtain ⟨before, after⟩ := chosen.empty rfl
    rw [← EvictionPolicy.length_queued sound.policy, before] at dead queue
    rw [← EvictionPolicy.length_queued valid, after]
    exact ⟨dead, queue⟩
  | @giveUp policy items nowOff idx ran =>
    obtain ⟨valid, _, chosen⟩ := sound.evict ran
    obtain ⟨node, _, took⟩ := chosen.took idx rfl
    have fewer := took.length_eq
    rw [List.length_cons, EvictionPolicy.length_queued sound.policy,
      EvictionPolicy.length_queued valid] at fewer
    obtain ⟨policySame, deadSame, _, _, _, least⟩ :=
      reclaim_counts cfg nowOff { sh with policy := policy, items := items } idx
    rw [policySame, deadSame]
    simp only at least ⊢
    omega
  | @revive key off pos small tomb value =>
    -- The tombstone that comes back was one of the dead nodes.
    have room := (sound.move (.revive small tomb value)).toStored.live_le_queued
    simp only [Shard.resurrect] at room ⊢
    split <;> omega
  | insert small near passed vacant absent added ran =>
    obtain ⟨inserted, more⟩ := sound.inserted small near passed vacant absent added
    rcases inserted.toStored.maybeRebuild_cases ran with ⟨_, rfl⟩ | ⟨_, rebuilt⟩
    · simp only [Shard.inserted, more] at few ⊢
      omega
    · have none := rebuilt.queued_eq_live
      have cleared := rebuilt.deadCount
      omega

/-- A pass that only lets items go keeps the bounds. -/
theorem Slim.falls {slots peak : Int} (sound : sh.Sound cfg) (slim : sh.Slim slots peak)
    (few : sh.live ≤ peak) (falls : Falls cfg sh sh') : sh'.Slim slots peak ∧ sh'.live ≤ peak := by
  induction falls with
  | refl => exact ⟨slim, few⟩
  | tail before fall ih =>
    obtain ⟨slim, few⟩ := ih
    exact ⟨slim.move (sound.falls before) fall.1 (fall.2.trans few), fall.2.trans few⟩

end Shard

variable [Inhabited K] [Inhabited V] [DecidableEq K]

/-- A shard together with the most items that were live at once. -/
structure Tracked (K V : Type) where
  shard : Shard K V
  peak : Int

/-- What a step does to the shard, and to the most items that were live at once. -/
def MemoryStep.track (cfg : ShardConfig K V) (state : Tracked K V) (next : Nat × MemoryStep K V) :
    Except Fault (Tracked K V) := do
  let sh ← MemoryStep.work cfg state.shard next
  return ⟨sh, max state.peak (next.2.reach cfg state.shard)⟩

/-- The shard is in order and within the bounds for its peak. -/
structure Tracked.Bounded (cfg : ShardConfig K V) (slots : Int) (state : Tracked K V) : Prop where
  sound : state.shard.Sound cfg
  slim : state.shard.Slim slots state.peak
  live : state.shard.live ≤ state.peak

/-- Every step keeps the bounds. -/
theorem Tracked.Bounded.step {cfg : ShardConfig K V} {slots : Int} {state state' : Tracked K V}
    (bounded : state.Bounded cfg slots) {next : Nat × MemoryStep K V}
    (ran : MemoryStep.track cfg state next = .ok state') : state'.Bounded cfg slots := by
  obtain ⟨sh, worked, same⟩ := exists_of_bind_eq_ok ran
  cases same
  obtain ⟨mid, move, reached, falls⟩ := bounded.sound.work worked
  have few : mid.live ≤ max state.peak (next.2.reach cfg state.shard) := by omega
  have slim := bounded.slim.mono (le_max_left state.peak (next.2.reach cfg state.shard))
  -- The only change that may add a live item comes first, and the peak counts it.
  have reachedSlim : mid.Sound cfg ∧ mid.Slim slots (max state.peak (next.2.reach cfg state.shard)) := by
    rcases move with rfl | move
    · exact ⟨bounded.sound, slim⟩
    · exact ⟨bounded.sound.move move, slim.move bounded.sound move few⟩
  obtain ⟨slim', few'⟩ := reachedSlim.2.falls reachedSlim.1 few falls
  exact ⟨reachedSlim.1.falls falls, slim', few'⟩

/-- However long a shard runs, its table is at most four times the most items that were live at once,
unless it started larger, and its queue holds at most that many nodes beyond the live items. -/
theorem Tracked.footprint_le (cfg : ShardConfig K V) (kind : PolicyKind) (policyHash : K → BitVec 64)
    (ghostPerShard : Int) {b : Nat} (low : 6 ≤ b) (high : b ≤ 32) (cap : Int)
    (steps : List (Nat × MemoryStep K V)) {state : Tracked K V}
    (ran : Runs.run (MemoryStep.track cfg) ⟨newShard kind policyHash ghostPerShard (2 ^ b) cap, 0⟩ steps
      = .ok state) :
    (state.shard.items.len : Int) ≤ max (2 ^ b) (4 * state.peak) ∧
      (state.shard.policy.len : Int) ≤ state.shard.live + max 127 state.peak := by
  have start : Tracked.Bounded cfg (2 ^ b)
      ⟨newShard kind policyHash ghostPerShard (2 ^ b) cap, 0⟩ := by
    have sound := @Shard.sound_newShard K V _ _ cfg kind policyHash ghostPerShard b low high cap
    obtain ⟨_, empty⟩ := EvictionPolicy.newPolicy_spec kind policyHash cap ghostPerShard
    have none := EvictionPolicy.length_queued sound.policy
    simp only [newShard, empty, List.length_nil] at none
    refine ⟨sound, ⟨?_, ?_, ?_⟩, le_rfl⟩
    · simp [newShard, ← none]
    · simp [newShard, ← none]
    · simp [newShard, FlatHashMap.newFlatHashMap_len high]
  suffices bounded : state.Bounded cfg (2 ^ b) from ⟨bounded.slim.table, bounded.slim.queue⟩
  -- Induction from the end: the last step starts in a state within its bounds.
  induction steps using List.reverseRecOn generalizing state with
  | nil =>
    cases ran
    exact start
  | append_singleton done next ih =>
    obtain ⟨mid, before, last⟩ := exists_of_run_append ran
    exact (ih before).step last

/-- Two keys are written and one of them is deleted: the peak stays at two, and the dead node is queued. -/
theorem Tracked.footprint_le_two : ∃ state : Tracked Nat Unit,
    Runs.run (MemoryStep.track ShardOp.countingConfig) ⟨newShard .clock (fun _ => 0#64) 0 (2 ^ 6) 100, 0⟩
        [(0, .setMemory 1 () 0), (0, .setMemory 2 () 0), (0, .deleteLocked 1 .invalidation)] = .ok state ∧
      state.peak = 2 ∧ state.shard.live = 1 ∧ state.shard.policy.len = 2 ∧
      (state.shard.items.len : Int) ≤ max (2 ^ 6) (4 * state.peak) ∧
      (state.shard.policy.len : Int) ≤ state.shard.live + max 127 state.peak := by
  have counts : (Runs.run (MemoryStep.track ShardOp.countingConfig)
      ⟨newShard .clock (fun _ => 0#64) 0 (2 ^ 6) 100, 0⟩
      [(0, .setMemory 1 () 0), (0, .setMemory 2 () 0), (0, .deleteLocked 1 .invalidation)]).map
        (fun state => (state.peak, state.shard.live, state.shard.policy.len)) = .ok (2, 1, 2) := by
    decide +kernel
  obtain ⟨state, ran, same⟩ := exists_of_map_eq_ok counts
  simp only [Prod.mk.injEq] at same
  exact ⟨state, ran, same.1, same.2.1, same.2.2,
    footprint_le ShardOp.countingConfig .clock (fun _ => 0#64) 0 (by decide) (by decide) 100 _ ran⟩

end Memstash
