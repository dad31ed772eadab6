import Memstash.Cache.Reading
import Memstash.Eviction.Contract

/-! What a step under a shard's mutex can do, whatever the items weigh and however full the table is. -/

namespace Memstash

open Probing Scan Turns MetaWord Machine

namespace Shard

variable {K V : Type} {cfg : ShardConfig K V} {sh sh' : Shard K V}

/-- Table, queue and counters agree, and the policy can number its nodes. -/
structure Sound (cfg : ShardConfig K V) (sh : Shard K V) : Prop extends Stored cfg sh where
  slack : sh.policy.Slack (2 ^ 31)

section Steps

variable [Inhabited K] [Inhabited V]

/-- One change of a shard under its mutex. -/
inductive Move (cfg : ShardConfig K V) (sh : Shard K V) : Shard K V → Prop
  /-- Only the weight changes. -/
  | weigh (weight : Int) : Move cfg sh { sh with weight := weight }
  /-- A live item is read or overwritten in its slot. -/
  | rewrite {pos : Nat} {key : K} {item : Item K V}
      (alive : sh.items.cells (sh.items.wrap pos) = .live key) (settled : item.metaWord.Settled)
      (cell : item.cell = .live key)
      (tag : item.metaWord &&& tagMask = (sh.items.itemAt pos).metaWord &&& tagMask) :
      Move cfg sh { sh with items := sh.items.put pos item }
  /-- A live item dies, and its tombstone is accounted for. -/
  | bury {idx : Nat} {key : K} {sh' : Shard K V}
      (alive : sh.items.cells (sh.items.wrap idx) = .live key)
      (interred : Interred cfg (sh.killed cfg idx) sh') : Move cfg sh sh'
  /-- The policy has no node left to give up. -/
  | drain {policy : EvictionPolicy K} {items : FlatHashMap K V} {nowOff : Nat}
      (ran : sh.policy.evict sh.items nowOff = .ok (policy, items, none)) :
      Move cfg sh { sh with policy := policy, items := items }
  /-- The policy gives a node up, and its item is reclaimed. -/
  | giveUp {policy : EvictionPolicy K} {items : FlatHashMap K V} {nowOff idx : Nat}
      (ran : sh.policy.evict sh.items nowOff = .ok (policy, items, some idx)) :
      Move cfg sh (Shard.reclaim cfg nowOff { sh with policy := policy, items := items } idx).1
  /-- A key's own tombstone comes back to life. -/
  | revive {key : K} {off pos : Nat} (small : off < 2 ^ 18)
      (tomb : sh.items.cells (sh.items.wrap pos) = .tomb key) (value : V) :
      Move cfg sh (sh.resurrect cfg key value off pos)
  /-- A new key is stored and queued, and the table is replaced when it fills up. -/
  | insert {key : K} {value : V} {off d : Nat} {reuse : Option Nat} {policy : EvictionPolicy K}
      {sh' : Shard K V} (small : off < 2 ^ 18) (near : d < sh.items.len)
      (passed : FlatHashMap.Passed sh.items (sh.items.home (cfg.keyHash key)) key d reuse)
      (vacant : sh.items.cells ((sh.items.home (cfg.keyHash key) + d) % sh.items.len) = .vacant)
      (absent : ∀ i < sh.items.len, (sh.items.cells i).key? ≠ some key)
      (added : sh.policy.add
        (published cfg sh.items key value off (reuse.getD (sh.items.home (cfg.keyHash key) + d)))
        (newNode cfg sh.items key value (sh.items.home (cfg.keyHash key) + d) reuse) = .ok policy)
      (ran : (sh.inserted cfg key value off (sh.items.home (cfg.keyHash key) + d) reuse
        policy).maybeRebuild cfg = .ok sh') : Move cfg sh sh'

/-- A change that leaves no more live items than there were. -/
def Fall (cfg : ShardConfig K V) (sh sh' : Shard K V) : Prop := Move cfg sh sh' ∧ sh'.live ≤ sh.live

/-- One such change after the other. -/
abbrev Falls (cfg : ShardConfig K V) : Shard K V → Shard K V → Prop := Relation.ReflTransGen (Fall cfg)

omit [Inhabited K] [Inhabited V] in
/-- What the policy's choice of a victim leaves: counters spent, and one node less unless there was none. -/
theorem Sound.evict (sound : sh.Sound cfg) {policy : EvictionPolicy K} {items : FlatHashMap K V}
    {nowOff : Nat} {victim : Option Nat}
    (ran : sh.policy.evict sh.items nowOff = .ok (policy, items, victim)) :
    policy.Valid ∧ policy.Slack (2 ^ 31) ∧
      Memstash.Evicted sh.policy.queued policy.queued sh.items items victim := by
  obtain ⟨policy', items', victim', same, valid, chosen⟩ :=
    EvictionPolicy.evict_spec sound.policy sh.items nowOff
  rw [ran] at same
  cases same
  exact ⟨valid, EvictionPolicy.evict_slack sound.slack ran, chosen⟩

/-- What reclaiming the item of a node the policy gave up leaves: its slot is dead and handed back. -/
theorem Stored.reclaimed (stored : sh.Stored cfg) (nowOff : Nat) {policy : EvictionPolicy K}
    {node : QNode} (valid : policy.Valid) (took : sh.policy.queued.Perm (node :: policy.queued)) :
    (Shard.reclaim cfg nowOff { sh with policy := policy } node.idx).1.Stored cfg ∧
      sh.items.Fills (Shard.reclaim cfg nowOff { sh with policy := policy } node.idx).1.items := by
  have queues := stored.queues.perm took.symm
  obtain ⟨inside, bound⟩ := (queues.bound node.idx).mp (by simp)
  have wrapped := stored.table.sized.wrap_of_lt inside
  cases cell : sh.items.cells (sh.items.wrap node.idx) with
  | vacant =>
    rw [← wrapped, cell] at bound
    exact absurd bound (by simp)
  | released =>
    rw [← wrapped, cell] at bound
    exact absurd bound (by simp)
  | tomb key =>
    have dead : (sh.items.itemAt node.idx).metaWord.isDead = true :=
      ((Item.cell_eq_tomb_iff _ _).mp cell).2.1
    have alike := FlatHashMap.alike_release stored.table cell
    simp only [Shard.reclaim, dead, if_true, Item.kill_of_isDead dead]
    exact ⟨stored.alike alike valid (queues.release stored.table.sized dead) sh.deadCount,
      FlatHashMap.fills_put fun _ => ((Item.cell_eq_released_iff _).mp (Item.makeFree_cell dead)).1⟩
  | live key =>
    obtain ⟨_, alive, rfl⟩ : (sh.items.itemAt node.idx).metaWord ≠ 0#64 ∧
        (sh.items.itemAt node.idx).metaWord.isDead = false ∧
        (sh.items.itemAt node.idx).entry.key = key := (Item.cell_eq_live_iff _ _).mp cell
    have here := killed_itemAt cfg sh node.idx
    have killed := stored.killed cell
    have dead : ((sh.killed cfg node.idx).items.itemAt node.idx).metaWord.isDead = true := by
      rw [here]
      exact Item.kill_isDead
    have alike := FlatHashMap.alike_release killed.table (stored.killed_tomb cell)
    have released := killed.alike alike valid
      ((killed.queues.perm took.symm).release killed.table.sized dead) sh.deadCount
    have freed := Item.makeFree_cell dead
    rw [here] at released freed
    simp only [Shard.reclaim, alive, Bool.false_eq_true, if_false]
    refine ⟨released, .trans (.congr (FlatHashMap.fills_put fun _ => ?_)
      (FlatHashMap.forgetDisplaced_mask _ _ _) (FlatHashMap.forgetDisplaced_slots _ _ _))
      (FlatHashMap.fills_put fun _ => ((Item.cell_eq_released_iff _).mp freed).1)⟩
    intro zero
    have marked := @Item.kill_isDead _ _ (sh.items.itemAt node.idx)
    rw [zero] at marked
    exact absurd marked (by decide)

/-- What reclaiming an item counts: at most one live item less, and a dead one more for it. -/
theorem reclaim_counts (cfg : ShardConfig K V) (nowOff : Nat) (sh : Shard K V) (idx : Nat) :
    (Shard.reclaim cfg nowOff sh idx).1.policy = sh.policy ∧
      (Shard.reclaim cfg nowOff sh idx).1.deadCount = sh.deadCount ∧
      (Shard.reclaim cfg nowOff sh idx).1.cap = sh.cap ∧
      (Shard.reclaim cfg nowOff sh idx).1.live + (Shard.reclaim cfg nowOff sh idx).1.dirty
        = sh.live + sh.dirty ∧
      (Shard.reclaim cfg nowOff sh idx).1.live ≤ sh.live ∧
      sh.live - 1 ≤ (Shard.reclaim cfg nowOff sh idx).1.live := by
  unfold Shard.reclaim
  dsimp only
  split
  · exact ⟨rfl, rfl, rfl, rfl, le_rfl, by simp only; omega⟩
  · exact ⟨rfl, rfl, rfl, by simp only; omega, by simp only; omega, le_rfl⟩

omit [Inhabited K] [Inhabited V] in
/-- Queueing a new key's node leaves a shard in order, before its table is checked for room. -/
theorem Sound.inserted (sound : sh.Sound cfg) {key : K} {value : V} {off d : Nat} {reuse : Option Nat}
    {policy : EvictionPolicy K} (small : off < 2 ^ 18) (near : d < sh.items.len)
    (passed : FlatHashMap.Passed sh.items (sh.items.home (cfg.keyHash key)) key d reuse)
    (vacant : sh.items.cells ((sh.items.home (cfg.keyHash key) + d) % sh.items.len) = .vacant)
    (absent : ∀ i < sh.items.len, (sh.items.cells i).key? ≠ some key)
    (added : sh.policy.add
      (published cfg sh.items key value off (reuse.getD (sh.items.home (cfg.keyHash key) + d)))
      (newNode cfg sh.items key value (sh.items.home (cfg.keyHash key) + d) reuse) = .ok policy) :
    (sh.inserted cfg key value off (sh.items.home (cfg.keyHash key) + d) reuse policy).Sound cfg ∧
      policy.len = sh.policy.len + 1 := by
  obtain ⟨room, slack⟩ := EvictionPolicy.add_slack sound.policy sound.slack added
  obtain ⟨policy', same, valid, queued⟩ := EvictionPolicy.add_spec sound.policy room
    (published cfg sh.items key value off (reuse.getD (sh.items.home (cfg.keyHash key) + d)))
    (newNode cfg sh.items key value (sh.items.home (cfg.keyHash key) + d) reuse)
  rw [added] at same
  cases same
  refine ⟨⟨(sound.toStored.inserted small near passed vacant absent value valid queued).1, slack⟩, ?_⟩
  rw [← EvictionPolicy.length_queued valid, ← EvictionPolicy.length_queued sound.policy,
    queued.length_eq, List.length_cons]

/-- Every change keeps the table, the queue and the counters in step. -/
theorem Sound.move [DecidableEq K] (sound : sh.Sound cfg) (move : Move cfg sh sh') : sh'.Sound cfg := by
  cases move with
  | weigh weight =>
    exact ⟨⟨sound.table, sound.policy, sound.queues, sound.live, sound.dirty⟩, sound.slack⟩
  | rewrite alive settled cell tag =>
    exact ⟨(sound.toStored.rewrite alive settled cell tag).1, sound.slack⟩
  | bury alive interred =>
    have killed := sound.toStored.killed alive
    cases interred with
    | counted _ =>
      exact ⟨killed.alike (.refl killed.table) killed.policy killed.queues _, sound.slack⟩
    | swept ran valid alike queues _ _ =>
      exact ⟨killed.alike alike valid queues 0, EvictionPolicy.sweep_slack sound.slack ran⟩
  | drain ran =>
    obtain ⟨valid, slack, chosen⟩ := sound.evict ran
    obtain ⟨before, after⟩ := chosen.empty rfl
    have queues := sound.toStored.spend_queues chosen.only
    rw [before, ← after] at queues
    exact ⟨sound.toStored.alike (chosen.only.alike sound.table) valid queues sh.deadCount, slack⟩
  | @giveUp policy items nowOff idx ran =>
    obtain ⟨valid, slack, chosen⟩ := sound.evict ran
    obtain ⟨node, rfl, took⟩ := chosen.took idx rfl
    have spent := sound.toStored.alike (chosen.only.alike sound.table) sound.policy
      (sound.toStored.spend_queues chosen.only) sh.deadCount
    refine ⟨(spent.reclaimed nowOff valid took).1, ?_⟩
    rw [(reclaim_counts cfg nowOff { sh with policy := policy, items := items } node.idx).1]
    exact slack
  | revive small tomb value =>
    exact ⟨(sound.toStored.resurrect small tomb value).1, sound.slack⟩
  | insert small near passed vacant absent added ran =>
    obtain ⟨inserted, _⟩ := sound.inserted small near passed vacant absent added
    rcases inserted.toStored.maybeRebuild_cases ran with ⟨_, rfl⟩ | ⟨_, rebuilt⟩
    · exact inserted
    · obtain ⟨s, s', relinked⟩ := rebuilt.queue
      exact ⟨rebuilt.stored, EvictionPolicy.rebuild_slack inserted.slack relinked⟩

omit [Inhabited K] [Inhabited V] in
/-- Publishing an item leaves every occupied slot occupied. -/
theorem published_fills {t : FlatHashMap K V} {key : K} {value : V} {off pos : Nat} (small : off < 2 ^ 18) :
    t.Fills (published cfg t key value off pos) := by
  have alive := Item.publish_cell (t.itemAt pos) ⟨key, value⟩ small (tagOf_within (cfg.keyHash key))
  exact FlatHashMap.fills_of_cell (by rw [alive]; simp) (FlatHashMap.noteDisplaced_mask _ _ _)
    (FlatHashMap.noteDisplaced_slots _ _ _)

/-- No change empties an occupied slot, except that a full table is replaced. -/
theorem Sound.move_fills [DecidableEq K] (sound : sh.Sound cfg) (move : Move cfg sh sh') :
    sh.items.Fills sh'.items ∨ ∃ full : Shard K V, sh.items.Fills full.items ∧
      ¬ (full.live + full.dirty) * 4 < full.items.len * 3 ∧ full.maybeRebuild cfg = .ok sh' ∧
      Rebuilt cfg full sh' ∧ sh'.live = sh.live + 1 := by
  cases move with
  | weigh weight => exact .inl (.refl _)
  | rewrite alive settled cell tag =>
    exact .inl (FlatHashMap.fills_of_cell (by rw [cell]; simp) rfl rfl)
  | @bury idx key _ alive interred =>
    have tomb : (sh.items.itemAt idx).kill.cell = .tomb key :=
      Item.kill_cell (sound.table.settled _ (sh.items.wrap_lt idx)) alive
    have killed : sh.items.Fills (sh.killed cfg idx).items :=
      FlatHashMap.fills_of_cell (by rw [tomb]; simp) (FlatHashMap.forgetDisplaced_mask _ _ _)
        (FlatHashMap.forgetDisplaced_slots _ _ _)
    cases interred with
    | counted _ => exact .inl killed
    | swept _ _ _ _ fills _ => exact .inl (killed.trans fills)
  | drain ran => exact .inl ((sound.evict ran).2.2.only.fills sound.table)
  | @giveUp policy items nowOff idx ran =>
    obtain ⟨valid, _, chosen⟩ := sound.evict ran
    obtain ⟨node, rfl, took⟩ := chosen.took idx rfl
    have spent := sound.toStored.alike (chosen.only.alike sound.table) sound.policy
      (sound.toStored.spend_queues chosen.only) sh.deadCount
    exact .inl ((chosen.only.fills sound.table).trans (spent.reclaimed nowOff valid took).2)
  | revive small tomb value => exact .inl (published_fills small)
  | @insert key value off d reuse policy _ small near passed vacant absent added ran =>
    obtain ⟨inserted, _⟩ := sound.inserted small near passed vacant absent added
    rcases inserted.toStored.maybeRebuild_cases ran with ⟨_, rfl⟩ | ⟨full, rebuilt⟩
    · exact .inl (published_fills small)
    · exact .inr ⟨_, published_fills small, full, ran, rebuilt, rebuilt.live⟩

theorem Sound.falls [DecidableEq K] (sound : sh.Sound cfg) (falls : Falls cfg sh sh') : sh'.Sound cfg := by
  induction falls with
  | refl => exact sound
  | tail _ fall ih => exact ih.move fall.1

theorem Interred.live (interred : Interred cfg sh sh') : sh'.live = sh.live := by
  cases interred <;> rfl

/-- Killing a live item in its slot is one change. -/
theorem Sound.killAt (sound : sh.Sound cfg) {idx : Nat} {key : K}
    (alive : sh.items.cells (sh.items.wrap idx) = .live key) (cause : DeletionCause) :
    ∃ sh' gone, sh.killAt cfg (cfg.keyHash key) idx cause = .ok (sh', gone) ∧ Fall cfg sh sh' := by
  have named : (sh.items.itemAt idx).entry.key = key := ((Item.cell_eq_live_iff _ _).mp alive).2.2
  obtain ⟨sh', noted, interred⟩ := (sound.toStored.killed alive).noteDead
  refine ⟨sh', if cfg.onDeletion then [⟨key, (sh.items.itemAt idx).entry.value, cause⟩] else [], ?_,
    .bury alive interred, ?_⟩
  · rw [Shard.killed, named] at noted
    rw [Shard.killAt, named, noted]
    rfl
  · rw [interred.live]
    simp only [Shard.killed]
    omega

/-- A pass that evicts items returns, and only lets items go. -/
theorem Sound.evictShard [DecidableEq K] (sound : sh.Sound cfg) (nowOff : Nat)
    (deletions : List (Deletion K V)) :
    ∃ sh' deletions', sh.evictShard cfg nowOff deletions = .ok (sh', deletions') ∧ Falls cfg sh sh' := by
  have progress : ∀ state : Shard K V × List (Deletion K V), Falls cfg sh state.1 →
      Progress (evictShardTurn cfg nowOff) (fun state => Falls cfg sh state.1)
        (fun state => state.1.policy.queued.length) (fun result => Falls cfg sh result.1) state := by
    rintro ⟨mid, gone⟩ reached
    have midSound : mid.Sound cfg := sound.falls reached
    by_cases heavy : mid.weight > mid.cap
    · obtain ⟨policy, items, victim, ran, _, chosen⟩ :=
        EvictionPolicy.evict_spec midSound.policy mid.items nowOff
      cases victim with
      | none =>
        refine .inr ⟨({ mid with policy := policy, items := items }, gone), ?_,
          reached.tail ⟨.drain ran, le_rfl⟩⟩
        simp only [evictShardTurn, if_pos heavy, ran, Bind.bind, Except.bind, Pure.pure, Except.pure]
      | some idx =>
        refine .inl ⟨((Shard.reclaim cfg nowOff { mid with policy := policy, items := items } idx).1, gone ++
          (Shard.reclaim cfg nowOff { mid with policy := policy, items := items } idx).2), ?_,
          reached.tail ⟨.giveUp ran, (reclaim_counts cfg nowOff _ idx).2.2.2.2.1⟩, ?_⟩
        · simp only [evictShardTurn, if_pos heavy, ran, Bind.bind, Except.bind, Pure.pure, Except.pure]
        · -- The node the policy gave up is no longer queued.
          obtain ⟨node, _, took⟩ := chosen.took idx rfl
          simp only [(reclaim_counts cfg nowOff { mid with policy := policy, items := items } idx).1,
            took.length_eq, List.length_cons]
          omega
    · exact .inr ⟨(mid, gone), by simp only [evictShardTurn, if_neg heavy], reached⟩
  obtain ⟨⟨sh', deletions'⟩, ran, falls⟩ :=
    exists_turns_eq progress (sh.policy.len + 2) (sh, deletions) .refl
      (by rw [EvictionPolicy.length_queued sound.policy]; omega)
  exact ⟨sh', deletions', ran, falls⟩

section Operations

variable [DecidableEq K]

omit [Inhabited K] [Inhabited V] in
/-- The slot found for a key is its live slot, however full the table is. -/
theorem Stored.live_of_findSlot (stored : sh.Stored cfg) {key : K} {idx : Nat}
    (located : sh.findSlot (cfg.keyHash key) key = .ok (some idx)) :
    sh.items.cells (sh.items.wrap idx) = .live key := by
  obtain ⟨found, probed, same⟩ := exists_of_bind_eq_ok located
  cases found with
  | none => cases same
  | some pos =>
    cases same
    rw [stored.table.sized.wrap_of_lt (sh.items.wrap_lt pos)]
    exact FlatHashMap.probe_sound stored.table probed

/-- Deleting a key only lets items go. -/
theorem Sound.deleteLocked (sound : sh.Sound cfg) {key : K} {cause : DeletionCause}
    {gone : List (Deletion K V)} (ran : sh.deleteLocked cfg key cause = .ok (sh', gone)) :
    Falls cfg sh sh' := by
  obtain ⟨found, located, ran⟩ := exists_of_bind_eq_ok ran
  cases found with
  | none =>
    cases ran
    exact .refl
  | some idx =>
    obtain ⟨sh'', gone', killed, fall⟩ := sound.killAt (sound.toStored.live_of_findSlot located) cause
    rw [show sh.killAt cfg (cfg.keyHash key) idx cause = .ok (sh', gone) from ran] at killed
    cases killed
    exact .single fall

/-- Dropping an expired item only lets items go. -/
theorem Sound.dropExpired (sound : sh.Sound cfg) {nowOff : Nat} {key : K} {idx : Nat}
    {gone : List (Deletion K V)} (ran : sh.dropExpired cfg nowOff key idx = .ok (sh', gone)) :
    Falls cfg sh sh' := by
  obtain ⟨found, located, ran⟩ := exists_of_bind_eq_ok ran
  cases found with
  | none =>
    cases ran
    exact .refl
  | some there =>
    dsimp only at ran
    split at ran
    · obtain ⟨sh'', gone', killed, fall⟩ :=
        sound.killAt (sound.toStored.live_of_findSlot located) .expiration
      rw [ran] at killed
      cases killed
      exact .single fall
    · cases ran
      exact .refl

/-- Storing a new key, once its slot is chosen, is one change. -/
theorem Sound.insertNew (sound : sh.Sound cfg) {key : K} {value : V} {off d : Nat} {reuse : Option Nat}
    (small : off < 2 ^ 18) (near : d < sh.items.len)
    (passed : FlatHashMap.Passed sh.items (sh.items.home (cfg.keyHash key)) key d reuse)
    (vacant : sh.items.cells ((sh.items.home (cfg.keyHash key) + d) % sh.items.len) = .vacant)
    (absent : ∀ i < sh.items.len, (sh.items.cells i).key? ≠ some key)
    (ran : sh.insertNew cfg key value off (sh.items.home (cfg.keyHash key) + d) reuse = .ok sh') :
    Move cfg sh sh' ∧ sh'.live = sh.live + 1 := by
  rw [insertNew_eq] at ran
  obtain ⟨policy, added, ran⟩ := exists_of_bind_eq_ok ran
  refine ⟨.insert small near passed vacant absent added ran, ?_⟩
  obtain ⟨inserted, _⟩ := sound.inserted small near passed vacant absent added
  rcases inserted.toStored.maybeRebuild_cases ran with ⟨_, rfl⟩ | ⟨_, rebuilt⟩
  · rfl
  · exact rebuilt.live

/-- The end of a write only lets items go. -/
theorem Sound.settle (sound : sh.Sound cfg) {nowOff : Nat} {delta : Int}
    {deletions gone : List (Deletion K V)}
    (ran : sh.settle cfg nowOff delta deletions = .ok (sh', gone)) : Falls cfg sh sh' := by
  have weighed : Fall cfg sh { sh with weight := int64 (sh.weight + delta) } := ⟨.weigh _, le_rfl⟩
  unfold Shard.settle at ran
  split at ran
  · obtain ⟨sh'', gone', ran', falls⟩ := (sound.move weighed.1).evictShard nowOff deletions
    rw [ran] at ran'
    cases ran'
    exact .head weighed falls
  · cases ran
    exact .single weighed

/-- The shard a write leaves before it adds the weight, with the change in weight and its reports. -/
def placed (cfg : ShardConfig K V) (sh : Shard K V) (key : K) (value : V) (expireOff : Nat) :
    Except Fault (Shard K V × Int × List (Deletion K V)) := do
  match ← sh.items.setProbe (cfg.keyHash key) key sh.items.len (sh.items.home (cfg.keyHash key)) none with
  | .fresh pos reuse => do
    let sh ← sh.insertNew cfg key value expireOff pos reuse
    pure (sh, cfg.rawCost key value, [])
  | .buried pos => pure (sh.resurrect cfg key value expireOff pos, cfg.rawCost key value, [])
  | .live pos =>
    let old := (sh.items.itemAt pos).entry.value
    pure (sh.overwrite cfg value expireOff pos, cfg.rawCost key value - cfg.rawCost key old,
      if cfg.onDeletion then [⟨key, old, DeletionCause.replacement⟩] else [])

/-- A write of an item that can fit places it, and then settles the weight. -/
theorem setMemory_eq_placed (cfg : ShardConfig K V) (nowOff : Nat) (sh : Shard K V) (key : K) (value : V)
    (expireOff : Nat) (light : ¬ cfg.rawCost key value > sh.cap) :
    sh.setMemory cfg nowOff key value expireOff =
      (sh.placed cfg key value expireOff).bind fun result =>
        result.1.settle cfg nowOff result.2.1 result.2.2 := by
  unfold Shard.setMemory placed
  simp only [if_neg light]
  cases sh.items.setProbe (cfg.keyHash key) key sh.items.len (sh.items.home (cfg.keyHash key)) none with
  | error fault => rfl
  | ok target =>
    cases target with
    | fresh pos reuse => cases inserted : sh.insertNew cfg key value expireOff pos reuse <;>
        simp only [inserted, Bind.bind, Except.bind, Pure.pure, Except.pure, Shard.settle]
    | buried pos => rfl
    | live pos => rfl

/-- The largest number of live items a write reaches: one more when the key's slot is not live. -/
def reachPlaced (cfg : ShardConfig K V) (sh : Shard K V) (key : K) : Int :=
  match sh.items.setProbe (cfg.keyHash key) key sh.items.len (sh.items.home (cfg.keyHash key)) none with
  | .ok (.live _) => sh.live
  | _ => sh.live + 1

/-- Placing an item is one change. -/
theorem Sound.placed (sound : sh.Sound cfg) {key : K} {value : V} {off : Nat} (small : off < 2 ^ 18)
    {delta : Int} {gone : List (Deletion K V)}
    (ran : sh.placed cfg key value off = .ok (sh', delta, gone)) :
    Move cfg sh sh' ∧ sh'.live = sh.reachPlaced cfg key := by
  obtain ⟨target, probed, ran⟩ := exists_of_bind_eq_ok ran
  unfold Shard.reachPlaced
  rw [probed]
  cases FlatHashMap.setProbe_finds sound.table probed with
  | fresh near passed vacant absent =>
    obtain ⟨mid, inserted, same⟩ := exists_of_bind_eq_ok ran
    cases same
    exact sound.insertNew small near passed vacant absent inserted
  | buried tomb =>
    cases ran
    exact ⟨.revive small tomb value, rfl⟩
  | live alive =>
    cases ran
    obtain ⟨settled, cell, tag, _⟩ := overwritten_item cfg.wordSized
      (sound.table.settled _ (sh.items.wrap_lt _)) alive value small
    exact ⟨.rewrite alive settled cell tag, rfl⟩

/-- A write deletes an item that does not fit, or places it and then only lets items go. -/
theorem Sound.setMemory (sound : sh.Sound cfg) {nowOff : Nat} {key : K} {value : V} {off : Nat}
    (small : off < 2 ^ 18) {gone : List (Deletion K V)}
    (ran : sh.setMemory cfg nowOff key value off = .ok (sh', gone)) :
    (cfg.rawCost key value > sh.cap ∧ Falls cfg sh sh') ∨
      ¬ cfg.rawCost key value > sh.cap ∧
        ∃ mid, Move cfg sh mid ∧ mid.live = sh.reachPlaced cfg key ∧ Falls cfg mid sh' := by
  by_cases heavy : cfg.rawCost key value > sh.cap
  · unfold Shard.setMemory at ran
    simp only [if_pos heavy] at ran
    exact .inl ⟨heavy, sound.deleteLocked ran⟩
  · rw [setMemory_eq_placed _ _ _ _ _ _ heavy] at ran
    obtain ⟨⟨mid, delta, deletions⟩, placed, ran⟩ := exists_of_bind_eq_ok ran
    obtain ⟨move, reached⟩ := sound.placed small placed
    exact .inr ⟨heavy, mid, move, reached, (sound.move move).settle ran⟩

/-- A read only lets items go. -/
theorem Sound.getMemory (sound : sh.Sound cfg) {nowOff : Nat} {key : K} {found : Option V}
    {gone : List (Deletion K V)}
    (ran : sh.getMemory cfg nowOff key = .ok (sh', found, gone)) : Falls cfg sh sh' := by
  obtain ⟨hit, probed, ran⟩ := exists_of_bind_eq_ok ran
  cases hit with
  | none =>
    cases ran
    exact .refl
  | some pos =>
    dsimp only at ran
    split at ran
    · obtain ⟨⟨mid, deletions⟩, dropped, same⟩ := exists_of_bind_eq_ok ran
      cases same
      exact sound.dropExpired dropped
    · cases ran
      have alive := FlatHashMap.probe_sound sound.table probed
      obtain ⟨kept, entry, _⟩ := touch_spec cfg nowOff (sh.items.itemAt pos)
        (sh.items.itemAt pos).metaWord
      obtain ⟨settled, cell, tag⟩ := sound.toStored.touched alive kept entry
      exact .single ⟨.rewrite alive settled cell tag, le_rfl⟩

end Operations

end Steps

end Shard

end Memstash
