import Memstash.Cache.Accounting
import Memstash.Cache.Moves
import Memstash.Lib.Occurrences

/-! Every run of operations on one shard keeps it in order, and replacing its table shows to nobody. -/

namespace Memstash

open Probing Scan Runs Occurrences

variable {K V : Type} [Inhabited K] [Inhabited V] [DecidableEq K]

/-- What a step does to the shard it works on, at a clock value. -/
def MemoryStep.work (cfg : ShardConfig K V) (sh : Shard K V) :
    Nat × MemoryStep K V → Except Fault (Shard K V)
  | (nowOff, .setMemory key value off) => (sh.setMemory cfg nowOff key value off).map Prod.fst
  | (_, .deleteLocked key cause) => (sh.deleteLocked cfg key cause).map Prod.fst
  | (nowOff, .dropExpired key idx) => (sh.dropExpired cfg nowOff key idx).map Prod.fst
  | (nowOff, .evictShard _) => (sh.evictShard cfg nowOff []).map Prod.fst
  | (nowOff, .getMemory key) => (sh.getMemory cfg nowOff key).map Prod.fst

/-- The largest number of live items a step reaches. -/
def MemoryStep.reach (cfg : ShardConfig K V) (sh : Shard K V) : MemoryStep K V → Int
  | .setMemory key value _ => if cfg.rawCost key value > sh.cap then sh.live else sh.reachPlaced cfg key
  | _ => sh.live

namespace Shard

variable {cfg : ShardConfig K V} {sh sh' : Shard K V}

/-- Every step makes at most one change that may add a live item, and then only lets items go. -/
theorem Sound.work (sound : sh.Sound cfg) {next : Nat × MemoryStep K V}
    (ran : MemoryStep.work cfg sh next = .ok sh') :
    ∃ mid, (mid = sh ∨ Move cfg sh mid) ∧ mid.live = next.2.reach cfg sh ∧ Falls cfg mid sh' := by
  obtain ⟨nowOff, step⟩ := next
  cases step with
  | setMemory key value off =>
    obtain ⟨⟨_, gone⟩, wrote, rfl⟩ := exists_of_map_eq_ok ran
    rcases sound.setMemory off.isLt wrote with ⟨heavy, falls⟩ | ⟨light, mid, move, reached, falls⟩
    · exact ⟨sh, .inl rfl, by simp only [MemoryStep.reach, if_pos heavy], falls⟩
    · exact ⟨mid, .inr move, by simp only [MemoryStep.reach, if_neg light, reached], falls⟩
  | deleteLocked key cause =>
    obtain ⟨⟨_, gone⟩, deleted, rfl⟩ := exists_of_map_eq_ok ran
    exact ⟨sh, .inl rfl, rfl, sound.deleteLocked deleted⟩
  | dropExpired key idx =>
    obtain ⟨⟨_, gone⟩, dropped, rfl⟩ := exists_of_map_eq_ok ran
    exact ⟨sh, .inl rfl, rfl, sound.dropExpired dropped⟩
  | evictShard key =>
    obtain ⟨⟨_, gone⟩, evicted, rfl⟩ := exists_of_map_eq_ok ran
    obtain ⟨_, _, evicted', falls⟩ := sound.evictShard nowOff []
    rw [evicted] at evicted'
    cases evicted'
    exact ⟨sh, .inl rfl, rfl, falls⟩
  | getMemory key =>
    obtain ⟨⟨_, found, gone⟩, read, rfl⟩ := exists_of_map_eq_ok ran
    exact ⟨sh, .inl rfl, rfl, sound.getMemory read⟩

theorem Sound.step (sound : sh.Sound cfg) {next : Nat × MemoryStep K V}
    (ran : MemoryStep.work cfg sh next = .ok sh') : sh'.Sound cfg := by
  obtain ⟨mid, rfl | move, _, falls⟩ := sound.work ran
  · exact sound.falls falls
  · exact (sound.move move).falls falls

omit [DecidableEq K] in
/-- A new shard is in order. -/
theorem sound_newShard (kind : PolicyKind) (policyHash : K → BitVec 64) (ghostPerShard : Int) {b : Nat}
    (low : 6 ≤ b) (high : b ≤ 32) (cap : Int) :
    (newShard kind policyHash ghostPerShard (2 ^ b) cap : Shard K V).Sound cfg :=
  ⟨newShard_stored kind policyHash ghostPerShard low high cap,
    EvictionPolicy.newPolicy_slack kind policyHash cap ghostPerShard _⟩

/-- Every state a run reaches is in order. -/
theorem Sound.run (sound : sh.Sound cfg) {steps : List (Nat × MemoryStep K V)} :
    ∀ {sh' : Shard K V}, Runs.run (MemoryStep.work cfg) sh steps = .ok sh' → sh'.Sound cfg := by
  -- Induction from the end: the last step starts in a state that is in order.
  induction steps using List.reverseRecOn with
  | nil =>
    intro sh' ran
    cases ran
    exact sound
  | append_singleton done next ih =>
    intro sh' ran
    obtain ⟨mid, before, last⟩ := exists_of_run_append ran
    exact (ih before).step last

/-- What replacing a shard's table leaves as it was, and what it clears away. -/
structure Rehomed (cfg : ShardConfig K V) (sh sh' : Shard K V) : Prop where
  /-- The same keys are live, each with the same entry and the same meta word: its lifetime, its
  reference counter and its generation. -/
  items : ∀ key item, (∃ i < sh'.items.len, sh'.items.cells i = .live key ∧ sh'.items.slots i = item) ↔
    ∃ i < sh.items.len, sh.items.cells i = .live key ∧ sh.items.slots i = item
  weight : sh'.weight = sh.weight
  /-- Each queue holds the nodes of its live items in their order, pointing at the items' new slots. -/
  lanes : List.Forall₂ (FlatHashMap.Follows sh.items sh'.items) sh.policy.lanes sh'.policy.lanes
  /-- The nodes queued are those of the occupied slots, each once, and those slots are live. -/
  queues : sh'.items.Queues sh'.policy.queued
  clean : ∀ i < sh'.items.len, sh'.items.cells i = .vacant ∨ ∃ key, sh'.items.cells i = .live key
  dirty : sh'.dirty = 0
  deadCount : sh'.deadCount = 0
  /-- The overflow counts are exact. -/
  counted : ∀ g < sh'.items.len / 8, (sh'.items.overflows g : Int)
    = displaced sh'.items.len (fun key => sh'.items.home (cfg.keyHash key)) 8 sh'.items.cells g

omit [Inhabited K] [Inhabited V] [DecidableEq K] in
/-- A shard that counts no dead slot has none. -/
theorem Stored.clean_of_dirty (stored : sh.Stored cfg) (dirty : sh.dirty = 0) {i : Nat}
    (inside : i < sh.items.len) :
    sh.items.cells i = .vacant ∨ ∃ key, sh.items.cells i = .live key := by
  have share := sh.items.le_tally (f := Item.deadOne) (fun item => by
    unfold Item.deadOne
    split <;> decide) i
  rw [← stored.dirty, dirty, FlatHashMap.itemAt, stored.table.sized.wrap_of_lt inside] at share
  cases cell : sh.items.cells i with
  | vacant => exact .inl rfl
  | live key => exact .inr ⟨key, rfl⟩
  | tomb key =>
    have same : (sh.items.slots i).cell = .tomb key := cell
    simp [Item.deadOne, same] at share
  | released =>
    have same : (sh.items.slots i).cell = .released := cell
    simp [Item.deadOne, same] at share

omit [DecidableEq K] in
/-- Replacing the table moves every live item, and its node, and nothing else. -/
theorem Rebuilt.rehomed (stored : sh.Stored cfg) (rebuilt : Rebuilt cfg sh sh') :
    Rehomed cfg sh sh' := by
  have clean : ∀ i < sh'.items.len, _ := fun i inside =>
    rebuilt.stored.clean_of_dirty rebuilt.dirty inside
  refine ⟨fun key item => ⟨?_, ?_⟩, rebuilt.weight, rebuilt.lanes, rebuilt.stored.queues, clean,
    rebuilt.dirty, rebuilt.deadCount, rebuilt.stored.table.counted⟩
  · -- A live slot of the new table is queued, and its node follows one of the old queue.
    rintro ⟨j, inside, live, rfl⟩
    obtain ⟨node', queued, rfl⟩ := List.mem_map.mp
      ((rebuilt.stored.queues.bound j).mpr ⟨inside, by rw [live]; rfl⟩)
    rw [← sh'.policy.lanes_flatten] at queued
    obtain ⟨lane', inLanes', inLane'⟩ := List.mem_flatten.mp queued
    obtain ⟨lane, inLanes, follows⟩ := exists_left_of_mem rebuilt.lanes inLanes'
    obtain ⟨node, inLane, _, _, held⟩ := exists_left_of_mem follows inLane'
    obtain ⟨inLane, alive⟩ := List.mem_filter.mp inLane
    have member : node ∈ sh.policy.queued := by
      rw [← sh.policy.lanes_flatten]
      exact List.mem_flatten.mpr ⟨lane, inLanes, inLane⟩
    obtain ⟨within, here, _⟩ := stored.live_of_queued member (by simpa using alive)
    rw [here] at held
    exact ⟨node.idx, within, by rw [← live, FlatHashMap.cells, FlatHashMap.cells, held], held.symm⟩
  · -- A live slot of the old table is queued, and its node was kept.
    rintro ⟨i, inside, live, rfl⟩
    obtain ⟨node, member, rfl⟩ := List.mem_map.mp
      ((stored.queues.bound i).mpr ⟨inside, by rw [live]; rfl⟩)
    have here : sh.items.itemAt node.idx = sh.items.slots node.idx := by
      rw [FlatHashMap.itemAt, stored.table.sized.wrap_of_lt inside]
    have alive : (sh.items.itemAt node.idx).metaWord.isDead = false := by
      rw [here]
      exact ((Item.cell_eq_live_iff _ _).mp live).2.1
    rw [← sh.policy.lanes_flatten] at member
    obtain ⟨lane, inLanes, inLane⟩ := List.mem_flatten.mp member
    obtain ⟨lane', _, follows⟩ := exists_right_of_mem rebuilt.lanes inLanes
    obtain ⟨node', _, _, within, held⟩ := exists_right_of_mem follows
      (List.mem_filter.mpr ⟨inLane, by simpa using alive⟩)
    rw [here] at held
    exact ⟨node'.idx, within, by rw [← live, FlatHashMap.cells, FlatHashMap.cells, held], held⟩

/-- The states of a run: after an operation, or inside a write before it checks the table for room. -/
inductive Visited (cfg : ShardConfig K V) (start : Shard K V) : Shard K V → Prop
  | rest {steps : List (Nat × MemoryStep K V)} {sh : Shard K V}
      (ran : Runs.run (MemoryStep.work cfg) start steps = .ok sh) : Visited cfg start sh
  | inserting {steps : List (Nat × MemoryStep K V)} {sh : Shard K V} {key : K} {value : V}
      {off : Fin (2 ^ 18)} {pos : Nat} {reuse : Option Nat} {policy : EvictionPolicy K}
      (ran : Runs.run (MemoryStep.work cfg) start steps = .ok sh)
      (probed : sh.items.setProbe (cfg.keyHash key) key sh.items.len
        (sh.items.home (cfg.keyHash key)) none = .ok (.fresh pos reuse))
      (added : sh.policy.add (published cfg sh.items key value off (reuse.getD pos))
        (newNode cfg sh.items key value pos reuse) = .ok policy) :
      Visited cfg start (sh.inserted cfg key value off pos reuse policy)

/-- Every state of a run is in order. -/
theorem Sound.visited {start : Shard K V} (sound : start.Sound cfg) (visited : Visited cfg start sh) :
    sh.Sound cfg := by
  cases visited with
  | rest ran => exact sound.run ran
  | @inserting _ mid key _ off _ _ _ ran probed added =>
    have midSound : mid.Sound cfg := sound.run ran
    cases FlatHashMap.setProbe_finds midSound.table probed with
    | fresh near passed vacant absent =>
      exact (midSound.inserted off.isLt near passed vacant absent added).1

/-- Checking a table for room leaves it alone, or replaces it without anything a user can see. -/
theorem table_swap_unseen (cfg : ShardConfig K V) (kind : PolicyKind) (policyHash : K → BitVec 64)
    (ghostPerShard : Int) {b : Nat} (low : 6 ≤ b) (high : b ≤ 32) (cap : Int) {sh : Shard K V}
    (visited : Visited cfg (newShard kind policyHash ghostPerShard (2 ^ b) cap) sh) :
    ∃ sh', sh.maybeRebuild cfg = .ok sh' ∧
      (((sh.live + sh.dirty) * 4 < sh.items.len * 3 ∧ sh' = sh) ∨
        (¬ (sh.live + sh.dirty) * 4 < sh.items.len * 3 ∧ Rehomed cfg sh sh')) := by
  have sound := (sound_newShard kind policyHash ghostPerShard low high cap).visited visited
  by_cases spacious : (sh.live + sh.dirty) * 4 < sh.items.len * 3
  · exact ⟨sh, if_pos spacious, .inl ⟨spacious, rfl⟩⟩
  · obtain ⟨sh', ran, rebuilt⟩ := sound.toStored.rebuild spacious
    exact ⟨sh', ran, .inr ⟨spacious, rebuilt.rehomed sound.toStored⟩⟩

/-- Writes of the first keys, one after the other. -/
def firstWrites (n : Nat) : List (Nat × MemoryStep Nat Unit) :=
  (List.range n).map fun key => (0, .setMemory key () noExpiry)

/-- The forty-eighth key of a CLOCK shard fills three quarters of its first table, and the next one takes over. -/
theorem table_swap_unseen_fortyEight : ∃ sh sh' : Shard Nat Unit,
    Visited ShardOp.countingConfig (newShard .clock (fun _ => 0#64) 0 (2 ^ 6) 100) sh ∧
      sh.maybeRebuild ShardOp.countingConfig = .ok sh' ∧
      Rehomed ShardOp.countingConfig sh sh' := by
  have counts : (Runs.run (MemoryStep.work ShardOp.countingConfig)
      (newShard .clock (fun _ => 0#64) 0 (2 ^ 6) 100) (firstWrites 47)).map
        (fun sh => (sh.live, sh.dirty, sh.items.len, sh.policy.kind, sh.items.setProbe
          (ShardOp.countingConfig.keyHash 47) 47 sh.items.len
            (sh.items.home (ShardOp.countingConfig.keyHash 47)) none))
      = .ok (47, 0, 64, .clock, .ok (.fresh 47 none)) := by decide +kernel
  obtain ⟨sh, ran, same⟩ := exists_of_map_eq_ok counts
  simp only [Prod.mk.injEq] at same
  obtain ⟨live, dirty, size, kind, probed⟩ := same
  obtain ⟨policy, added⟩ : ∃ policy, sh.policy.add
      (published ShardOp.countingConfig sh.items 47 () (0 : Fin (2 ^ 18)) 47)
      (newNode ShardOp.countingConfig sh.items 47 () 47 none) = .ok policy := by
    cases queue : sh.policy with
    | clock p => exact ⟨_, rfl⟩
    | s3fifo p => simp [queue, EvictionPolicy.kind] at kind
    | wtinylfu p => simp [queue, EvictionPolicy.kind] at kind
    | sieve p => simp [queue, EvictionPolicy.kind] at kind
  have visited := @Visited.inserting _ _ _ _ _ _ _ _ _ _ _ 0 _ _ _ ran probed added
  obtain ⟨sh', rebuilt, ⟨spacious, _⟩ | ⟨_, rehomed⟩⟩ :=
    table_swap_unseen ShardOp.countingConfig .clock (fun _ => 0#64) 0 (by decide) (by decide) 100 visited
  · -- Forty-eight of sixty-four slots are exactly three quarters.
    simp only [inserted, published, live, dirty, Option.isSome_none, FlatHashMap.noteDisplaced_len,
      FlatHashMap.put_len, size] at spacious
    norm_num at spacious
  · exact ⟨_, sh', visited, rebuilt, rehomed⟩

end Shard

end Memstash
