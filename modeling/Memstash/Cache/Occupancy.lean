import Memstash.Cache.Batch
import Memstash.Cache.Reachable
import Memstash.Itemstore.Seqlock

/-! A quarter of the slots stays vacant while the index space is not exhausted, so every probe ends. -/

namespace Memstash

open Probing Scan Runs RangeSum MetaWord Traces

variable {K V : Type}

namespace EvictionPolicy

theorem nodeAt_ne_hang (p : SievePolicy) (i : Int) : p.nodeAt i ≠ .error .hang := by
  unfold SievePolicy.nodeAt
  split <;> simp

theorem modifyAt_ne_hang (p : SievePolicy) (i : Int) (f : SieveNode → SieveNode) :
    p.modifyAt i f ≠ .error .hang := by
  unfold SievePolicy.modifyAt
  split <;> simp

/-- Queueing a node returns, or panics where the nodes no longer fit their index type. -/
theorem add_ne_hang (policy : EvictionPolicy K) (t : FlatHashMap K V) (node : QNode) :
    policy.add t node ≠ .error .hang := by
  cases policy with
  | s3fifo p => simp [add]
  | clock p => simp [add]
  | wtinylfu p => simp [add]
  | sieve p =>
    refine map_ne_error (bind_ne_error ?_ fun _ _ => bind_ne_error (modifyAt_ne_hang _ _ _) fun _ _ =>
      bind_ne_error ?_ fun _ _ => by simp [pure, Except.pure])
    · unfold SievePolicy.alloc
      split
      · exact bind_ne_error (nodeAt_ne_hang _ _) fun _ _ => by simp [pure, Except.pure]
      · simp
    · unfold SievePolicy.joinOlder
      split
      · exact modifyAt_ne_hang _ _ _
      · simp

end EvictionPolicy

namespace Shard

variable {cfg : ShardConfig K V} {sh sh' : Shard K V}

/-- A shard in order with more than a quarter of its slots vacant. -/
structure Roomy (cfg : ShardConfig K V) (sh : Shard K V) : Prop extends Sound cfg sh where
  room : (sh.live + sh.dirty) * 4 < 3 * sh.items.len

variable [DecidableEq K]

omit [DecidableEq K] in
theorem Roomy.housed (roomy : sh.Roomy cfg) : sh.Housed cfg :=
  ⟨roomy.toStored, by have := roomy.room; omega⟩

theorem Roomy.vacancy (roomy : sh.Roomy cfg) : occupied sh.items.len sh.items.cells < sh.items.len := by
  have quarter := roomy.housed.occupied_le
  obtain ⟨large, _, _⟩ := roomy.table.sized.bounds
  omega

variable [Inhabited K] [Inhabited V]

omit [DecidableEq K] in
theorem Rebuilt.room (rebuilt : Rebuilt cfg sh sh') (few : sh'.live < 3 * 2 ^ 30) :
    (sh'.live + sh'.dirty) * 4 < 3 * sh'.items.len := by
  have live := rebuilt.live
  have clean := rebuilt.dirty
  rcases rebuilt.fits with fits | largest
  · omega
  · rw [largest]
    omega

/-- Every change leaves more than a quarter vacant, while the live items leave room for it. -/
theorem Roomy.move (roomy : sh.Roomy cfg) (move : Move cfg sh sh') (few : sh'.live < 3 * 2 ^ 30) :
    sh'.Roomy cfg := by
  have sound := roomy.toSound.move move
  have room := roomy.room
  rcases roomy.toSound.move_fills move with fills | ⟨full, _, _, _, rebuilt, _⟩
  · refine ⟨sound, ?_⟩
    rw [fills.size]
    cases move with
    | weigh weight => exact room
    | rewrite alive settled cell tag => exact room
    | bury alive interred =>
      cases interred with
      | counted _ =>
        simp only [Shard.killed]
        omega
      | swept _ _ _ _ _ _ =>
        simp only [Shard.killed]
        omega
    | drain ran => exact room
    | @giveUp policy items nowOff idx ran =>
      have counts := (reclaim_counts cfg nowOff { sh with policy := policy, items := items } idx).2.2.2.1
      rw [counts]
      exact room
    | revive small tomb value =>
      simp only [Shard.resurrect]
      omega
    | insert small near passed vacant absent added ran =>
      obtain ⟨inserted, _⟩ := roomy.toSound.inserted small near passed vacant absent added
      rw [← fills.size]
      rcases inserted.toStored.maybeRebuild_cases ran with ⟨spacious, rfl⟩ | ⟨_, rebuilt⟩
      · omega
      · exact rebuilt.room few
  · exact ⟨sound, rebuilt.room few⟩

/-- A pass that only lets items go leaves more than a quarter vacant. -/
theorem Roomy.falls (roomy : sh.Roomy cfg) (few : sh.live < 3 * 2 ^ 30) (falls : Falls cfg sh sh') :
    sh'.Roomy cfg ∧ sh.items.Fills sh'.items := by
  suffices kept : sh'.Roomy cfg ∧ sh.items.Fills sh'.items ∧ sh'.live < 3 * 2 ^ 30 from ⟨kept.1, kept.2.1⟩
  induction falls with
  | refl => exact ⟨roomy, .refl _, few⟩
  | tail _ fall ih =>
    obtain ⟨roomy, fills, few⟩ := ih
    have less := fall.2
    refine ⟨roomy.move fall.1 (by omega), ?_, by omega⟩
    rcases roomy.toSound.move_fills fall.1 with more | ⟨_, _, _, _, _, raised⟩
    · exact fills.trans more
    · -- Only an insert replaces the table, and it adds a live item.
      omega

/-- What a step does to the slots: the occupied ones stay occupied, in the table or in the one it is
replaced with once it is full. -/
def Refilled (cfg : ShardConfig K V) (sh sh' : Shard K V) : Prop :=
  sh.items.Fills sh'.items ∨ ∃ full fresh : Shard K V, sh.items.Fills full.items ∧
    ¬ (full.live + full.dirty) * 4 < full.items.len * 3 ∧ full.maybeRebuild cfg = .ok fresh ∧
    fresh.items.Fills sh'.items

/-- Every step keeps the room and empties no occupied slot. -/
theorem Roomy.work (roomy : sh.Roomy cfg) {next : Nat × MemoryStep K V}
    (few : next.2.reach cfg sh < 3 * 2 ^ 30) (ran : MemoryStep.work cfg sh next = .ok sh') :
    sh'.Roomy cfg ∧ Refilled cfg sh sh' := by
  obtain ⟨mid, move, reached, falls⟩ := roomy.toSound.work ran
  rw [← reached] at few
  rcases move with rfl | move
  · obtain ⟨roomy', fills⟩ := roomy.falls few falls
    exact ⟨roomy', .inl fills⟩
  · obtain ⟨roomy', fills⟩ := (roomy.move move few).falls few falls
    refine ⟨roomy', ?_⟩
    rcases roomy.toSound.move_fills move with more | ⟨full, before, crowded, rebuilt, _⟩
    · exact .inl (more.trans fills)
    · exact .inr ⟨full, mid, before, crowded, rebuilt, fills⟩

omit [DecidableEq K] in
theorem Sound.killAt_ne_hang (sound : sh.Sound cfg) {idx : Nat} {key : K}
    (alive : sh.items.cells (sh.items.wrap idx) = .live key) (cause : DeletionCause) :
    sh.killAt cfg (cfg.keyHash key) idx cause ≠ .error .hang := by
  obtain ⟨_, _, ran, _⟩ := sound.killAt alive cause
  simp [ran]

omit [Inhabited K] [Inhabited V] in
theorem Roomy.findSlot_ne_hang (roomy : sh.Roomy cfg) (key : K) :
    sh.findSlot (cfg.keyHash key) key ≠ .error .hang := by
  rcases roomy.housed.findSlot key with ⟨_, ran, _⟩ | ⟨ran, _⟩ <;> simp [ran]

/-- Deleting a key returns. -/
theorem Roomy.deleteLocked_ne_hang (roomy : sh.Roomy cfg) (key : K) (cause : DeletionCause) :
    sh.deleteLocked cfg key cause ≠ .error .hang := by
  refine bind_ne_error (roomy.findSlot_ne_hang key) fun found located => ?_
  cases found with
  | none => simp [pure, Except.pure]
  | some idx => exact roomy.toSound.killAt_ne_hang (roomy.toStored.live_of_findSlot located) cause

/-- Dropping an expired item returns. -/
theorem Roomy.dropExpired_ne_hang (roomy : sh.Roomy cfg) (nowOff : Nat) (key : K) (idx : Nat) :
    sh.dropExpired cfg nowOff key idx ≠ .error .hang := by
  refine bind_ne_error (roomy.findSlot_ne_hang key) fun found located => ?_
  cases found with
  | none => simp [pure, Except.pure]
  | some there =>
    dsimp only
    split
    · exact roomy.toSound.killAt_ne_hang (roomy.toStored.live_of_findSlot located) .expiration
    · simp [pure, Except.pure]

/-- A read returns. -/
theorem Roomy.getMemory_ne_hang (roomy : sh.Roomy cfg) (nowOff : Nat) (key : K) :
    sh.getMemory cfg nowOff key ≠ .error .hang := by
  refine bind_ne_error ?_ fun found _ => ?_
  · rcases roomy.housed.probe true key with ⟨_, ran, _⟩ | ⟨ran, _⟩ <;> simp [ran]
  · cases found with
    | none => simp [pure, Except.pure]
    | some pos =>
      dsimp only
      split
      · exact bind_ne_error (roomy.dropExpired_ne_hang nowOff key _) fun _ _ => by simp [pure, Except.pure]
      · simp [pure, Except.pure]

/-- Storing a new key returns, or panics in the policy. -/
theorem Roomy.insertNew_ne_hang (roomy : sh.Roomy cfg) {key : K} {value : V} {off d : Nat}
    {reuse : Option Nat} (small : off < 2 ^ 18) (near : d < sh.items.len)
    (passed : FlatHashMap.Passed sh.items (sh.items.home (cfg.keyHash key)) key d reuse)
    (vacant : sh.items.cells ((sh.items.home (cfg.keyHash key) + d) % sh.items.len) = .vacant)
    (absent : ∀ i < sh.items.len, (sh.items.cells i).key? ≠ some key) :
    sh.insertNew cfg key value off (sh.items.home (cfg.keyHash key) + d) reuse ≠ .error .hang := by
  rw [insertNew_eq]
  refine bind_ne_error (EvictionPolicy.add_ne_hang _ _ _) fun policy added => ?_
  obtain ⟨inserted, _⟩ := roomy.toSound.inserted small near passed vacant absent added
  by_cases spacious : ((sh.inserted cfg key value off (sh.items.home (cfg.keyHash key) + d) reuse policy).live
      + (sh.inserted cfg key value off (sh.items.home (cfg.keyHash key) + d) reuse policy).dirty) * 4
      < (sh.inserted cfg key value off (sh.items.home (cfg.keyHash key) + d) reuse policy).items.len * 3
  · simp [Shard.maybeRebuild, spacious]
  · obtain ⟨_, ran, _⟩ := inserted.toStored.rebuild spacious
    simp [ran]

/-- Placing an item returns, or panics in the policy. -/
theorem Roomy.placed_ne_hang (roomy : sh.Roomy cfg) (key : K) (value : V) {off : Nat}
    (small : off < 2 ^ 18) : sh.placed cfg key value off ≠ .error .hang := by
  obtain ⟨target, probed, finds⟩ := FlatHashMap.setProbe_spec roomy.table roomy.vacancy key
  refine bind_ne_error (by simp [probed]) fun target' same => ?_
  rw [probed] at same
  cases same
  cases finds with
  | fresh near passed vacant absent =>
    exact bind_ne_error (roomy.insertNew_ne_hang small near passed vacant absent) fun _ _ => by
      simp [pure, Except.pure]
  | buried tomb => simp [pure, Except.pure]
  | live alive => simp [pure, Except.pure]

/-- The end of a write returns. -/
theorem Sound.settle_ne_hang (sound : sh.Sound cfg) (nowOff : Nat) (delta : Int)
    (deletions : List (Deletion K V)) : sh.settle cfg nowOff delta deletions ≠ .error .hang := by
  unfold Shard.settle
  split
  · obtain ⟨_, _, ran, _⟩ := (sound.move (.weigh (Machine.int64 (sh.weight + delta)))).evictShard nowOff deletions
    simp [ran]
  · simp

/-- A write returns, or panics in the policy. -/
theorem Roomy.setMemory_ne_hang (roomy : sh.Roomy cfg) (nowOff : Nat) (key : K) (value : V) {off : Nat}
    (small : off < 2 ^ 18) : sh.setMemory cfg nowOff key value off ≠ .error .hang := by
  by_cases heavy : cfg.rawCost key value > sh.cap
  · unfold Shard.setMemory
    simp only [if_pos heavy]
    exact roomy.deleteLocked_ne_hang key .overflow
  · rw [setMemory_eq_placed _ _ _ _ _ _ heavy]
    refine bind_ne_error (roomy.placed_ne_hang key value small) fun result ran => ?_
    obtain ⟨move, _⟩ := roomy.toSound.placed small ran
    exact (roomy.toSound.move move).settle_ne_hang nowOff _ _

/-- Every step returns, or panics in the policy. -/
theorem Roomy.work_ne_hang (roomy : sh.Roomy cfg) (next : Nat × MemoryStep K V) :
    MemoryStep.work cfg sh next ≠ .error .hang := by
  obtain ⟨nowOff, step⟩ := next
  cases step with
  | setMemory key value off => exact map_ne_error (roomy.setMemory_ne_hang nowOff key value off.isLt)
  | deleteLocked key cause => exact map_ne_error (roomy.deleteLocked_ne_hang key cause)
  | dropExpired key idx => exact map_ne_error (roomy.dropExpired_ne_hang nowOff key idx)
  | evictShard key =>
    obtain ⟨_, _, ran, _⟩ := roomy.toSound.evictShard nowOff []
    exact map_ne_error (by simp [ran])
  | getMemory key => exact map_ne_error (roomy.getMemory_ne_hang nowOff key)

omit [DecidableEq K] in
/-- A new shard has room. -/
theorem roomy_newShard (kind : PolicyKind) (policyHash : K → BitVec 64) (ghostPerShard : Int) {b : Nat}
    (low : 6 ≤ b) (high : b ≤ 32) (cap : Int) :
    (newShard kind policyHash ghostPerShard (2 ^ b) cap : Shard K V).Roomy cfg := by
  refine ⟨sound_newShard kind policyHash ghostPerShard low high cap, ?_⟩
  have positive : 0 < 2 ^ b := Nat.two_pow_pos b
  simp only [newShard, FlatHashMap.newFlatHashMap_len high]
  omega

/-- While the live items leave room for it, every state a run reaches has room, and no step hangs. -/
theorem Roomy.runs (roomy : sh.Roomy cfg) {steps : List (Nat × MemoryStep K V)}
    (few : Meets (MemoryStep.work cfg) (fun sh next => next.2.reach cfg sh < 3 * 2 ^ 30) sh steps) :
    ∀ done, done <+: steps → Runs.run (MemoryStep.work cfg) sh done ≠ .error .hang ∧
      ∀ sh', Runs.run (MemoryStep.work cfg) sh done = .ok sh' → sh'.Roomy cfg :=
  run_keeps (Roomy cfg) roomy few fun _ next roomy few =>
    ⟨roomy.work_ne_hang next, fun _ ran => (roomy.work few ran).1⟩

/-- What the table offers to every probe loop: each ends within one pass. -/
structure ProbesEnd (cfg : ShardConfig K V) (sh : Shard K V) : Prop where
  /-- The counters count the slots whose meta word is not zero. -/
  counted : sh.live + sh.dirty
    = ((Finset.range sh.items.len).filter fun i => (sh.items.slots i).metaWord ≠ 0#64).card
  room : (sh.live + sh.dirty) * 4 < 3 * sh.items.len
  /-- Reads and lookups under the mutex. -/
  probe : ∀ (snapshot : Bool) (key : K), ∃ found, sh.items.probe snapshot (cfg.keyHash key) key = .ok found
  /-- Writes. -/
  setProbe : ∀ key, ∃ target,
    sh.items.setProbe (cfg.keyHash key) key sh.items.len (sh.items.home (cfg.keyHash key)) none = .ok target
  /-- The walks of a batch. -/
  candidate : ∀ key, ∃ found, sh.items.candidate (cfg.keyHash key) = .ok found
  /-- Copies into the table. -/
  insertFresh : ∀ hash src, ∃ result, sh.items.insertFresh hash src = .ok result

omit [Inhabited K] [Inhabited V] in
/-- A shard with room lets every probe end. -/
theorem Roomy.probesEnd (roomy : sh.Roomy cfg) : ProbesEnd cfg sh := by
  refine ⟨?_, roomy.room, fun snapshot key => ?_, fun key => ?_, fun key => ?_, fun hash src => ?_⟩
  · rw [roomy.live, roomy.dirty, ← FlatHashMap.occupied_eq_tally, occupied, count, Finset.sum_boole]
    congr 1
    exact congrArg Finset.card (Finset.filter_congr fun i _ => (Item.cell_eq_vacant_iff _).not)
  · rcases roomy.housed.probe snapshot key with ⟨_, ran, _⟩ | ⟨ran, _⟩
    · exact ⟨_, ran⟩
    · exact ⟨_, ran⟩
  · obtain ⟨target, ran, _⟩ := FlatHashMap.setProbe_spec roomy.table roomy.vacancy key
    exact ⟨target, ran⟩
  · obtain ⟨found, ran, _⟩ := FlatHashMap.candidate_spec roomy.table roomy.vacancy key
    exact ⟨found, ran⟩
  · obtain ⟨_, _, _, _, ran⟩ := FlatHashMap.insertFresh_ends roomy.table.sized roomy.vacancy hash src
    exact ⟨_, ran⟩

/-- While the live items stay below three quarters of the index space, no operation goes round a table
forever, and after every one the table has room for the next and no occupied slot was emptied. -/
theorem probes_end (cfg : ShardConfig K V) (kind : PolicyKind) (policyHash : K → BitVec 64)
    (ghostPerShard : Int) {b : Nat} (low : 6 ≤ b) (high : b ≤ 32) (cap : Int)
    (steps : List (Nat × MemoryStep K V))
    (few : Meets (MemoryStep.work cfg) (fun sh next => next.2.reach cfg sh < 3 * 2 ^ 30)
      (newShard kind policyHash ghostPerShard (2 ^ b) cap) steps) :
    Runs.run (MemoryStep.work cfg) (newShard kind policyHash ghostPerShard (2 ^ b) cap) steps
        ≠ .error .hang ∧
      (∀ done sh, done <+: steps →
        Runs.run (MemoryStep.work cfg) (newShard kind policyHash ghostPerShard (2 ^ b) cap) done = .ok sh →
        ProbesEnd cfg sh ∧ ∀ next sh', done ++ [next] <+: steps → MemoryStep.work cfg sh next = .ok sh' →
          Refilled cfg sh sh') ∧
      ∀ (k v : Nat) (W : Type) [Inhabited W] (earlier later : List (SlotStep k v W)) (slot slot' : Slot k v W),
        Trace Slot.Stepped Slot.fresh earlier slot → Trace Slot.Stepped slot later slot' →
        slot.word ≠ 0#64 → slot'.word ≠ 0#64 := by
  have along := (roomy_newShard kind policyHash ghostPerShard low high cap).runs few
  refine ⟨(along steps List.prefix_rfl).1, fun done sh within ran => ?_, ?_⟩
  · have roomy := (along done within).2 sh ran
    exact ⟨roomy.probesEnd, fun next sh' next_within worked =>
      (roomy.work (few done next next_within sh ran) worked).2⟩
  · intro k v W _ earlier later slot slot' before after occupied
    exact (Slot.good_fresh.trace before).occupied after occupied

/-- The first write of a CLOCK shard returns, and the shard it leaves lets every probe end. -/
theorem probes_end_firstWrite : ∃ sh : Shard Nat Unit,
    Runs.run (MemoryStep.work ShardOp.countingConfig) (newShard .clock (fun _ => 0#64) 0 (2 ^ 6) 100)
        (firstWrites 1) = .ok sh ∧ sh.live = 1 ∧ ProbesEnd ShardOp.countingConfig sh := by
  have counts : (Runs.run (MemoryStep.work ShardOp.countingConfig)
      (newShard .clock (fun _ => 0#64) 0 (2 ^ 6) 100) (firstWrites 1)).map
        (fun sh : Shard Nat Unit => sh.live) = .ok 1 := by decide +kernel
  obtain ⟨sh, ran, live⟩ := exists_of_map_eq_ok counts
  have few : Meets (MemoryStep.work ShardOp.countingConfig)
      (fun sh next => next.2.reach ShardOp.countingConfig sh < 3 * 2 ^ 30)
      (newShard .clock (fun _ => 0#64) 0 (2 ^ 6) 100 : Shard Nat Unit) (firstWrites 1) :=
    meets_cons (by decide +kernel) fun _ _ => meets_nil _ _ _
  have ends := probes_end ShardOp.countingConfig .clock (fun _ => 0#64) 0 (by decide) (by decide) 100 _ few
  exact ⟨sh, ran, live, (ends.2.1 _ sh List.prefix_rfl ran).1⟩

end Shard

end Memstash
