import Memstash.Cache.Evicting
import Memstash.Cache.Rebuilding

/-! A write serves its value, accounts for its weight, and evicts what no longer fits. -/

namespace Memstash

open Probing Scan MetaWord Machine

namespace Shard

variable {K V : Type} {cfg : ShardConfig K V} {sh : Shard K V} {key : K} {value : V} {off : Nat}

/-- After a write of one key the table serves it with the written value, and the rest as before. -/
def Overwrites (key : K) (value : V) (off : Nat) (t t' : FlatHashMap K V) : Prop :=
  ∀ other held life, t'.Serves other held life ↔
    (other = key ∧ held = value ∧ life = off) ∨ (other ≠ key ∧ t.Serves other held life)

/-- The lifetime a write leaves: its own, or the item's old one when the write has none. -/
def Lifetime (t : FlatHashMap K V) (key : K) (off life : Nat) : Prop :=
  life = off ∨ (off = 0 ∧ ∃ old, t.Serves key old life)

/-- The policy is as it was, or has queued one more node and may have been re-linked since. -/
def Requeued (V : Type) (policy policy' : EvictionPolicy K) : Prop :=
  policy' = policy ∨ ∃ (t : FlatHashMap K V) (node : QNode) (added : EvictionPolicy K),
    policy.add t node = .ok added ∧ Relinked V added policy'

/-- Queueing and re-linking do not change the policy's kind. -/
theorem Requeued.kind {policy policy' : EvictionPolicy K} (queue : Requeued V policy policy') :
    policy'.kind = policy.kind := by
  rcases queue with rfl | ⟨t, node, added, ran, rfl | ⟨remap, s, s', relinked⟩⟩
  · rfl
  · exact EvictionPolicy.add_kind ran
  · exact (EvictionPolicy.rebuild_kind relinked).trans (EvictionPolicy.add_kind ran)

/-- The item is in its slot, queued and counted, and its weight is still to be added. -/
structure Placed (cfg : ShardConfig K V) (key : K) (value : V) (off : Nat) (delta : Int)
    (sh sh' : Shard K V) : Prop where
  stored : sh'.Stored cfg
  room : (sh'.live + sh'.dirty) * 4 ≤ sh'.items.len * 3
  cap : sh'.cap = sh.cap
  weight : sh'.weight = sh.weight
  more : sh'.live ≤ sh.live + 1
  cost : sh'.items.tally (Item.costOne cfg) = sh.items.tally (Item.costOne cfg) + delta
  queue : Requeued V sh.policy sh'.policy
  serves : ∃ life, Lifetime sh.items key off life ∧ Overwrites key value life sh.items sh'.items

section Publish

/-- The table once a key's item has been published at a position. -/
def published (cfg : ShardConfig K V) (t : FlatHashMap K V) (key : K) (value : V) (off pos : Nat) :
    FlatHashMap K V :=
  (t.put pos ((t.itemAt pos).publish ⟨key, value⟩ (tagOf (cfg.keyHash key)) off)).noteDisplaced
    (t.home (cfg.keyHash key)) pos

variable {t : FlatHashMap K V} {pos : Nat} (small : off < 2 ^ 18)
  (idle : ∀ other, t.cells (t.wrap pos) ≠ .live other)

include small idle

/-- Publishing over a slot on the key's path keeps the table well formed. -/
theorem published_inv (inv : t.Inv cfg.keyHash)
    (path : Reached t.len (t.home (cfg.keyHash key)) t.cells (t.wrap pos))
    (alone : ∀ i < t.len, i ≠ t.wrap pos → (t.cells i).key? ≠ some key) (value : V) :
    (published cfg t key value off pos).Inv cfg.keyHash := by
  have tagIn := tagOf_within (cfg.keyHash key)
  have alive := Item.publish_cell (t.itemAt pos) ⟨key, value⟩ small tagIn
  refine inv.enliven (Item.publish_settled _ _ small tagIn) alive (Item.publish_tag _ _ small tagIn)
    idle (inv.chained.place (fun j _ other => FlatHashMap.put_others j other) ?_ alone path)
  rw [FlatHashMap.put_here, alive]
  rfl

/-- Publishing over a slot that is not live counts one more live item and its weight. -/
theorem published_tallies (key : K) (value : V) :
    (published cfg t key value off pos).tally Item.liveOne = t.tally Item.liveOne + 1 ∧
      (published cfg t key value off pos).tally Item.deadOne
        = t.tally Item.deadOne - (t.itemAt pos).deadOne ∧
      (published cfg t key value off pos).tally (Item.costOne cfg)
        = t.tally (Item.costOne cfg) + cfg.rawCost key value := by
  have alive := Item.publish_cell (t.itemAt pos) ⟨key, value⟩ small (tagOf_within (cfg.keyHash key))
  have noneLive : (t.itemAt pos).liveOne = 0 := Item.liveOne_of_not_live idle
  have noCost : (t.itemAt pos).costOne cfg = 0 := Item.costOne_of_not_live cfg idle
  have entry : ((t.itemAt pos).publish ⟨key, value⟩ (tagOf (cfg.keyHash key)) off).entry
      = ⟨key, value⟩ := rfl
  simp only [published, FlatHashMap.tally_enliven, noneLive, noCost]
  simp only [Item.liveOne, Item.deadOne, Item.costOne, alive, entry]
  exact ⟨by ring, by ring, by ring⟩

/-- Publishing an item of a key nothing serves overwrites nothing else. -/
theorem published_overwrites (absent : ∀ held life, ¬ t.Serves key held life) (value : V) :
    Overwrites key value off t (published cfg t key value off pos) := by
  intro other held life
  have tagIn := tagOf_within (cfg.keyHash key)
  rw [published, FlatHashMap.serves_enliven idle (Item.publish_cell _ _ small tagIn),
    Item.publish_expireOff _ _ small tagIn]
  constructor
  · rintro (⟨rfl, rfl, rfl⟩ | served)
    · exact .inl ⟨rfl, rfl, rfl⟩
    · refine .inr ⟨?_, served⟩
      rintro rfl
      exact absent held life served
  · rintro (⟨rfl, rfl, rfl⟩ | ⟨_, served⟩)
    · exact .inl ⟨rfl, rfl, rfl⟩
    · exact .inr served

end Publish

theorem not_serves_of_absent {t : FlatHashMap K V}
    (absent : ∀ i < t.len, t.cells i ≠ .live key) (held : V) (life : Nat) :
    ¬ t.Serves key held life :=
  fun ⟨i, inside, live, _⟩ => absent i inside live

/-- Bringing a key's tombstone back counts one more live item, and its node stays queued. -/
theorem Stored.resurrect (stored : sh.Stored cfg) (smallOff : off < 2 ^ 18) {pos : Nat}
    (tomb : sh.items.cells (sh.items.wrap pos) = .tomb key) (value : V) :
    (sh.resurrect cfg key value off pos).Stored cfg ∧
      (sh.resurrect cfg key value off pos).items.tally (Item.costOne cfg)
        = sh.items.tally (Item.costOne cfg) + cfg.rawCost key value ∧
      Overwrites key value off sh.items (sh.resurrect cfg key value off pos).items := by
  have inside := sh.items.wrap_lt pos
  have idle : ∀ other, sh.items.cells (sh.items.wrap pos) ≠ .live other := by simp [tomb]
  have named : (sh.items.cells (sh.items.wrap pos)).key? = some key := by rw [tomb]; rfl
  -- The tombstone is the key's only slot, so no live slot serves the key.
  have alone : ∀ i < sh.items.len, i ≠ sh.items.wrap pos → (sh.items.cells i).key? ≠ some key :=
    fun i within away bound => away (stored.table.chained.unique i within _ inside key bound named)
  have unserved : ∀ held life, ¬ sh.items.Serves key held life :=
    not_serves_of_absent fun i within live => by
      by_cases here : i = sh.items.wrap pos
      · exact idle key (here ▸ live)
      · exact alone i within here (by rw [live]; rfl)
  have table := published_inv smallOff idle stored.table
    (stored.table.chained.reach _ inside key named) alone value
  obtain ⟨liveTotal, deadTotal, costTotal⟩ := @published_tallies K V cfg off _ _ smallOff idle key value
  have share : (sh.items.itemAt pos).deadOne = 1 := by
    have cell : (sh.items.itemAt pos).cell = .tomb key := tomb
    simp [Item.deadOne, cell]
  have items : (sh.resurrect cfg key value off pos).items = published cfg sh.items key value off pos :=
    rfl
  refine ⟨⟨table, stored.policy, ?_, ?_, ?_⟩, costTotal,
    published_overwrites smallOff idle unserved value⟩
  · refine stored.queues.same (by simp [Shard.resurrect]) fun i within => ?_
    simp only [Shard.resurrect, FlatHashMap.noteDisplaced_cells, FlatHashMap.put_cells]
    split
    · rename_i here
      rw [here, tomb, Item.publish_cell _ _ smallOff (tagOf_within _)]
      rfl
    · rfl
  · rw [items, liveTotal, ← stored.live]
    rfl
  · rw [items, deadTotal, ← stored.dirty, share]
    rfl

/-- Bringing a key's tombstone back places it. -/
theorem Inv.resurrect (inv : sh.Inv cfg) (smallOff : off < 2 ^ 18) {pos : Nat}
    (tomb : sh.items.cells (sh.items.wrap pos) = .tomb key) (value : V) :
    Placed cfg key value off (cfg.rawCost key value) sh (sh.resurrect cfg key value off pos) := by
  obtain ⟨stored, cost, overwrites⟩ := inv.toStored.resurrect smallOff tomb value
  have room := inv.room
  refine ⟨stored, ?_, rfl, rfl, le_rfl, cost, .inl rfl, off, .inl rfl, overwrites⟩
  simp only [Shard.resurrect, FlatHashMap.noteDisplaced_len, FlatHashMap.put_len]
  omega

/-- The item an overwrite leaves is the same to every probe, with the new value and lifetime. -/
theorem overwritten_item (wordSized : Bool) {item : Item K V} (settled : item.metaWord.Settled)
    (alive : item.cell = .live key) (value : V) (small : off < 2 ^ 18) :
    let new := if off ≠ 0 then (item.setValue wordSized value).refreshExpire off
      else item.setValue wordSized value
    new.metaWord.Settled ∧ new.cell = .live key ∧
      new.metaWord &&& tagMask = item.metaWord &&& tagMask ∧ new.entry = ⟨key, value⟩ ∧
      new.metaWord.expireOff = if off ≠ 0 then off else item.metaWord.expireOff := by
  obtain ⟨occupied, _, named⟩ := (Item.cell_eq_live_iff _ _).mp alive
  obtain ⟨settled', occupied'⟩ := Item.setValue_settled wordSized value settled occupied
  have entry : (item.setValue wordSized value).entry = ⟨key, value⟩ := by
    rw [Item.setValue_entry, named]
  have cell : (item.setValue wordSized value).cell = .live key := by
    rw [← alive]
    exact Item.cell_eq_of_marks occupied' occupied (Item.setValue_and wordSized value (by decide))
      (by rw [entry, named])
  dsimp only
  split
  · -- The new lifetime touches neither the marks nor the generation.
    have kept : (item.setValue wordSized value).metaWord.withExpire off &&& Item.identity
        = (item.setValue wordSized value).metaWord &&& Item.identity :=
      Item.withExpire_and small (by decide)
    obtain ⟨settled'', occupied'', marks⟩ := Item.settled_of_identity settled' occupied' kept
    refine ⟨settled'', ?_, ?_, entry, Item.withExpire_expireOff small⟩
    · rw [← cell]
      exact Item.cell_eq_of_marks occupied'' occupied' marks rfl
    · rw [Item.refreshExpire, Item.withExpire_and small (by decide),
        Item.setValue_and wordSized value (by decide)]
  · refine ⟨settled', cell, Item.setValue_and wordSized value (by decide), entry, ?_⟩
    rw [MetaWord.expireOff, Item.setValue_and wordSized value (by decide), MetaWord.expireOff]

/-- Rewriting a live slot under its own key keeps everything but what the slot itself says. -/
theorem Stored.rewrite (stored : sh.Stored cfg) {pos : Nat} {item : Item K V}
    (alive : sh.items.cells (sh.items.wrap pos) = .live key) (settled : item.metaWord.Settled)
    (cell : item.cell = .live key)
    (tag : item.metaWord &&& tagMask = (sh.items.itemAt pos).metaWord &&& tagMask) :
    Stored cfg { sh with items := sh.items.put pos item } ∧
      (sh.items.put pos item).tally (Item.costOne cfg) = sh.items.tally (Item.costOne cfg)
        + (cfg.rawCost key item.entry.value
          - cfg.rawCost key (sh.items.itemAt pos).entry.value) ∧
      Overwrites key item.entry.value item.metaWord.expireOff sh.items (sh.items.put pos item) := by
  have before : (sh.items.itemAt pos).cell = .live key := alive
  have named := ((Item.cell_eq_live_iff _ _).mp before).2.2
  have named' := ((Item.cell_eq_live_iff _ _).mp cell).2.2
  refine ⟨⟨stored.table.rewrite settled (by rw [cell, alive]) tag, stored.policy, ?_, ?_, ?_⟩, ?_, ?_⟩
  · refine stored.queues.same rfl fun i _ => ?_
    simp only [FlatHashMap.put_cells]
    split
    · rename_i here
      rw [here, alive, cell]
    · rfl
  · simp only [FlatHashMap.tally_put, Item.liveOne, cell, before, stored.live]
    ring
  · simp only [FlatHashMap.tally_put, Item.deadOne, cell, before, stored.dirty]
    ring
  · simp only [FlatHashMap.tally_put, Item.costOne, cell, before, named, named']
  · intro other held life
    rw [FlatHashMap.serves_put, FlatHashMap.servesAway_of_live stored.table alive, cell,
      Cell.live.injEq]
    constructor
    · rintro (⟨rfl, rfl, rfl⟩ | away)
      · exact .inl ⟨rfl, rfl, rfl⟩
      · exact .inr away
    · rintro (⟨rfl, rfl, rfl⟩ | away)
      · exact .inl ⟨rfl, rfl, rfl⟩
      · exact .inr away

theorem serves_of_live {t : FlatHashMap K V} {pos : Nat} (alive : t.cells (t.wrap pos) = .live key) :
    t.Serves key (t.itemAt pos).entry.value (t.itemAt pos).metaWord.expireOff :=
  ⟨t.wrap pos, t.wrap_lt pos, alive, rfl, rfl⟩

/-- Overwriting a live item in place changes its value and its weight. -/
theorem Inv.overwrite (inv : sh.Inv cfg) (small : off < 2 ^ 18) {pos : Nat}
    (alive : sh.items.cells (sh.items.wrap pos) = .live key) (value : V) :
    Placed cfg key value off
      (cfg.rawCost key value - cfg.rawCost key (sh.items.itemAt pos).entry.value) sh
      (sh.overwrite cfg value off pos) := by
  obtain ⟨settled, cell, tag, entry, life⟩ := overwritten_item cfg.wordSized
    (inv.table.settled _ (sh.items.wrap_lt pos)) alive value small
  obtain ⟨stored, cost, overwrites⟩ := inv.toStored.rewrite alive settled cell tag
  simp only [entry, life] at cost overwrites
  refine ⟨stored, inv.room, rfl, rfl, Int.le_add_one le_rfl, cost, .inl rfl, _, ?_, overwrites⟩
  by_cases eternal : off = 0
  · -- A write without a lifetime leaves the one the item has.
    exact .inr ⟨eternal, (sh.items.itemAt pos).entry.value, by
      rw [if_neg (not_not.mpr eternal)]
      exact serves_of_live alive⟩
  · exact .inl (if_pos eternal)

/-- The slot a new key goes to is unbound and on the key's path. -/
theorem fresh_slot {t : FlatHashMap K V} {hash : K → BitVec 64} (inv : t.Inv hash) {d : Nat}
    {reuse : Option Nat} (small : d < t.len)
    (passed : FlatHashMap.Passed t (t.home (hash key)) key d reuse)
    (vacant : t.cells ((t.home (hash key) + d) % t.len) = .vacant) :
    Reached t.len (t.home (hash key)) t.cells (t.wrap (reuse.getD (t.home (hash key) + d))) ∧
      t.cells (t.wrap (reuse.getD (t.home (hash key) + d)))
        = if reuse.isSome then .released else .vacant := by
  rw [inv.sized.wrap_eq]
  cases reuse with
  | none => exact ⟨⟨d, small, rfl, passed.filled⟩, vacant⟩
  | some r =>
    -- The reusable slot was passed on the way to the vacancy.
    obtain ⟨e, before, rfl, released⟩ := passed.reusable r rfl
    exact ⟨⟨e, by omega, rfl, fun e' earlier => passed.filled e' (by omega)⟩, released⟩

section Targets

variable [Inhabited K] [Inhabited V] [DecidableEq K]

/-- The shard once a new key has been stored and queued, before its table is checked for room. -/
def inserted (cfg : ShardConfig K V) (sh : Shard K V) (key : K) (value : V) (expireOff pos : Nat)
    (reuse : Option Nat) (policy : EvictionPolicy K) : Shard K V :=
  { sh with
    items := published cfg sh.items key value expireOff (reuse.getD pos)
    policy := policy
    live := sh.live + 1
    dirty := if reuse.isSome then sh.dirty - 1 else sh.dirty }

/-- The queue node of a newly stored key. -/
def newNode (cfg : ShardConfig K V) (t : FlatHashMap K V) (key : K) (value : V) (pos : Nat)
    (reuse : Option Nat) : QNode :=
  { idx := t.wrap (reuse.getD pos), cost := (cfg.rawCost key value).toNat % 2 ^ 32 }

omit [DecidableEq K] in
/-- Storing a new key queues its node and then looks after the table. -/
theorem insertNew_eq (cfg : ShardConfig K V) (sh : Shard K V) (key : K) (value : V) (expireOff pos : Nat)
    (reuse : Option Nat) :
    sh.insertNew cfg key value expireOff pos reuse =
      (sh.policy.add (published cfg sh.items key value expireOff (reuse.getD pos))
        (newNode cfg sh.items key value pos reuse)).bind fun policy =>
          (sh.inserted cfg key value expireOff pos reuse policy).maybeRebuild cfg := by
  unfold Shard.insertNew newNode inserted published
  simp only [FlatHashMap.noteDisplaced_wrap, FlatHashMap.put_wrap]
  rfl

omit [Inhabited K] [Inhabited V] [DecidableEq K] in
/-- Storing a new key counts one more live item and queues its node. -/
theorem Stored.inserted (stored : sh.Stored cfg) (smallOff : off < 2 ^ 18) {d : Nat}
    {reuse : Option Nat} (small : d < sh.items.len)
    (passed : FlatHashMap.Passed sh.items (sh.items.home (cfg.keyHash key)) key d reuse)
    (vacant : sh.items.cells ((sh.items.home (cfg.keyHash key) + d) % sh.items.len) = .vacant)
    (absent : ∀ i < sh.items.len, (sh.items.cells i).key? ≠ some key) (value : V)
    {policy : EvictionPolicy K} (valid : policy.Valid)
    (queued : policy.queued.Perm (newNode cfg sh.items key value
      (sh.items.home (cfg.keyHash key) + d) reuse :: sh.policy.queued)) :
    (sh.inserted cfg key value off (sh.items.home (cfg.keyHash key) + d) reuse policy).Stored cfg ∧
      (sh.inserted cfg key value off (sh.items.home (cfg.keyHash key) + d) reuse policy).items.tally
        (Item.costOne cfg) = sh.items.tally (Item.costOne cfg) + cfg.rawCost key value ∧
      Overwrites key value off sh.items
        (sh.inserted cfg key value off (sh.items.home (cfg.keyHash key) + d) reuse policy).items := by
  obtain ⟨path, slot⟩ := fresh_slot stored.table small passed vacant
  unfold newNode at queued
  unfold Shard.inserted
  generalize reuse.getD (sh.items.home (cfg.keyHash key) + d) = pos at path slot queued ⊢
  have free : (sh.items.cells (sh.items.wrap pos)).key? = none := by rw [slot]; split <;> rfl
  have idle : ∀ other, sh.items.cells (sh.items.wrap pos) ≠ .live other := fun other live => by
    rw [live] at free
    exact absurd free (by simp)
  have unserved : ∀ held life, ¬ sh.items.Serves key held life :=
    not_serves_of_absent fun i inside live => absent i inside (by rw [live]; rfl)
  have table := published_inv smallOff idle stored.table path (fun i inside _ => absent i inside) value
  obtain ⟨liveTotal, deadTotal, costTotal⟩ := @published_tallies K V cfg off _ _ smallOff idle key value
  have queues := stored.queues.enliven (sh.items.home (cfg.keyHash key)) free
    (Item.publish_cell (sh.items.itemAt pos) ⟨key, value⟩ smallOff (tagOf_within (cfg.keyHash key)))
    { idx := sh.items.wrap pos, cost := (cfg.rawCost key value).toNat % 2 ^ 32 } rfl
  have share : (sh.items.itemAt pos).deadOne = if reuse.isSome then 1 else 0 := by
    have cell : (sh.items.itemAt pos).cell = if reuse.isSome then .released else .vacant := slot
    cases reuse <;> simp [Item.deadOne, cell]
  have live := stored.live
  have dirty := stored.dirty
  refine ⟨⟨table, valid, queues.perm queued, by simp only; omega, ?_⟩, costTotal,
    published_overwrites smallOff idle unserved value⟩
  simp only [deadTotal, share]
  split <;> omega

/-- Storing a new key places it, rebuilding the table when it fills up. -/
theorem Inv.insertNew (inv : sh.Inv cfg) (few : sh.live < 3 * 2 ^ 30) (room : sh.policy.Room)
    (smallOff : off < 2 ^ 18) {d : Nat} {reuse : Option Nat} (small : d < sh.items.len)
    (passed : FlatHashMap.Passed sh.items (sh.items.home (cfg.keyHash key)) key d reuse)
    (vacant : sh.items.cells ((sh.items.home (cfg.keyHash key) + d) % sh.items.len) = .vacant)
    (absent : ∀ i < sh.items.len, (sh.items.cells i).key? ≠ some key) (value : V) :
    ∃ sh', sh.insertNew cfg key value off (sh.items.home (cfg.keyHash key) + d) reuse = .ok sh' ∧
      Placed cfg key value off (cfg.rawCost key value) sh sh' := by
  obtain ⟨policy, added, valid, queued⟩ := EvictionPolicy.add_spec inv.policy room
    (published cfg sh.items key value off (reuse.getD (sh.items.home (cfg.keyHash key) + d)))
    (newNode cfg sh.items key value (sh.items.home (cfg.keyHash key) + d) reuse)
  obtain ⟨stored, cost, served⟩ :=
    inv.toStored.inserted smallOff small passed vacant absent value valid queued
  have more : (sh.inserted cfg key value off (sh.items.home (cfg.keyHash key) + d) reuse policy).live
      = sh.live + 1 := rfl
  obtain ⟨sh', rebuilt, rehoused⟩ := stored.maybeRebuild (by omega)
  refine ⟨sh', ?_, rehoused.stored, rehoused.room, rehoused.cap, rehoused.weight,
    rehoused.live.le, rehoused.cost.trans cost, .inr ⟨_, _, policy, added, rehoused.queue⟩, off,
    .inl rfl, fun other held life => ?_⟩
  · rw [insertNew_eq, added]
    exact rebuilt
  · exact (rehoused.serves other held life).trans (served other held life)

/-- The weight a key has in a shard. -/
def Share (cfg : ShardConfig K V) (t : FlatHashMap K V) (key : K) (cost : Int) : Prop :=
  (∃ held life, t.Serves key held life ∧ cost = cfg.rawCost key held) ∨
    ((∀ held life, ¬ t.Serves key held life) ∧ cost = 0)

/-- What a write needs of the shard: index space, a node when the key has none, and 64 bits. -/
structure Writable (cfg : ShardConfig K V) (sh : Shard K V) (key : K) (value : V) : Prop where
  /-- Fewer items are live than a table of the largest size may hold. -/
  few : sh.live < 3 * 2 ^ 30
  /-- The key has a node already, or the policy can queue one more. -/
  node : (∃ i < sh.items.len, (sh.items.cells i).key? = some key) ∨ sh.policy.Room
  /-- The weight with the new value in place of the old one fits 64 bits. -/
  fits : ∀ cost, Share cfg sh.items key cost →
    sh.weight - cost + cfg.rawCost key value < 2 ^ 63

/-- What a write does: an item too heavy for the shard is deleted, any other is stored and then
items are evicted until the shard fits. -/
inductive Wrote (cfg : ShardConfig K V) (key : K) (value : V) (off : Nat) (sh sh' : Shard K V) : Prop
  | oversized (heavy : sh.cap < cfg.rawCost key value)
      (removed : Removed cfg (fun other => other = key) sh sh')
  | stored {mid : Shard K V} {life : Nat} {gone : K → Prop} {cost : Int}
      (light : cfg.rawCost key value ≤ sh.cap) (share : Share cfg sh.items key cost)
      (inv : mid.Inv cfg) (cap : mid.cap = sh.cap)
      (weight : mid.weight = sh.weight - cost + cfg.rawCost key value)
      (queue : Requeued V sh.policy mid.policy)
      (lifetime : Lifetime sh.items key off life)
      (overwrites : Overwrites key value life sh.items mid.items)
      (evicted : Removed cfg gone mid sh') (fits : sh'.weight ≤ sh'.cap)
      (still : mid.weight ≤ mid.cap → sh' = mid)

/-- The end of a write: the weight is added, and items are evicted when it is too much. -/
def settle (cfg : ShardConfig K V) (nowOff : Nat) (mid : Shard K V) (delta : Int)
    (deletions : List (Deletion K V)) : Except Fault (Shard K V × List (Deletion K V)) :=
  if int64 (mid.weight + delta) > mid.cap then
    Shard.evictShard cfg nowOff { mid with weight := int64 (mid.weight + delta) } deletions
  else .ok ({ mid with weight := int64 (mid.weight + delta) }, deletions)

omit [Inhabited K] [Inhabited V] [DecidableEq K] in
/-- Adding the weight of a placed item restores the invariant. -/
theorem Placed.heavier {mid : Shard K V} {delta : Int} (inv : sh.Inv cfg)
    (fits : sh.weight + delta < 2 ^ 63) (placed : Placed cfg key value off delta sh mid) :
    Inv cfg { mid with weight := int64 (mid.weight + delta) } ∧
      int64 (mid.weight + delta) = sh.weight + delta := by
  -- The exact sum is a total of costs, so it is not negative, and it fits by assumption.
  have total := placed.cost
  rw [← inv.weight] at total
  have positive : 0 ≤ mid.items.tally (Item.costOne cfg) :=
    Finset.sum_nonneg fun i _ => Item.costOne_nonneg cfg _
  have exactWeight : int64 (mid.weight + delta) = sh.weight + delta := by
    rw [placed.weight, int64_of_range (by omega) (by omega)]
  refine ⟨⟨⟨placed.stored.table, placed.stored.policy, placed.stored.queues, placed.stored.live,
    placed.stored.dirty⟩, exactWeight.trans total.symm, ?_, placed.room, ?_⟩, exactWeight⟩
  · simp only [exactWeight]
    exact fits
  · simp only [placed.cap]
    exact inv.capacity

omit [DecidableEq K] in
/-- The end of a write returns; it evicts until the shard fits, and not at all when it does. -/
theorem Inv.settle {mid : Shard K V} {delta : Int}
    (inv : Inv cfg { mid with weight := int64 (mid.weight + delta) }) (nowOff : Nat)
    (deletions : List (Deletion K V)) :
    ∃ sh' gone, mid.settle cfg nowOff delta deletions = .ok (sh', deletions ++ gone) ∧
      Evicted cfg nowOff { mid with weight := int64 (mid.weight + delta) } sh' gone ∧
      sh'.weight ≤ sh'.cap ∧ (int64 (mid.weight + delta) ≤ mid.cap →
        sh' = { mid with weight := int64 (mid.weight + delta) }) := by
  unfold Shard.settle
  split
  · rename_i heavy
    obtain ⟨sh', gone, ran, evicted, fitting⟩ := inv.evictShard_reports nowOff deletions
    exact ⟨sh', gone, ran, evicted, fitting, fun fine => absurd heavy (not_lt.mpr fine)⟩
  · rename_i fine
    exact ⟨_, [], by rw [List.append_nil], .start, not_lt.mp fine, fun _ => rfl⟩

omit [DecidableEq K] in
/-- Adding the weight of a placed item, and evicting when it is too much, completes a write. -/
theorem Placed.finish {mid : Shard K V} {cost : Int} (inv : sh.Inv cfg)
    (light : cfg.rawCost key value ≤ sh.cap) (share : Share cfg sh.items key cost)
    (fits : sh.weight - cost + cfg.rawCost key value < 2 ^ 63)
    (placed : Placed cfg key value off (cfg.rawCost key value - cost) sh mid) (nowOff : Nat)
    (deletions : List (Deletion K V)) :
    ∃ sh' deletions', mid.settle cfg nowOff (cfg.rawCost key value - cost) deletions
        = .ok (sh', deletions') ∧
      Wrote cfg key value off sh sh' := by
  obtain ⟨heavier, weight⟩ := placed.heavier inv (by omega)
  obtain ⟨sh', gone, ran, evicted, fitting, still⟩ := heavier.settle nowOff deletions
  obtain ⟨_, removed⟩ := evicted.removed heavier
  obtain ⟨life, lifetime, overwrites⟩ := placed.serves
  exact ⟨sh', _, ran, .stored light share heavier placed.cap (weight.trans (by ring)) placed.queue
    lifetime overwrites removed fitting still⟩

/-- A write of an item that can fit places it and then settles the difference in weight. -/
theorem Inv.setMemory_eq_settle (inv : sh.Inv cfg) (nowOff : Nat) (key : K) (value : V)
    (small : off < 2 ^ 18) (light : cfg.rawCost key value ≤ sh.cap) (few : sh.live < 3 * 2 ^ 30)
    (node : (∃ i < sh.items.len, (sh.items.cells i).key? = some key) ∨ sh.policy.Room) :
    ∃ mid cost deletions, Share cfg sh.items key cost ∧
      Reports cfg .replacement sh.items key deletions ∧
      Placed cfg key value off (cfg.rawCost key value - cost) sh mid ∧
      sh.setMemory cfg nowOff key value off
        = mid.settle cfg nowOff (cfg.rawCost key value - cost) deletions := by
  have quarter := inv.housed.occupied_le
  obtain ⟨large, _, _⟩ := inv.table.sized.bounds
  obtain ⟨target, probed, finds⟩ := FlatHashMap.setProbe_spec inv.table (by omega) key
  have heavy : ¬ cfg.rawCost key value > sh.cap := not_lt.mpr light
  unfold Shard.setMemory
  simp only [if_neg heavy, probed, Bind.bind, Except.bind, Pure.pure, Except.pure]
  cases finds with
  | @fresh d reuse smallD passed vacant absent =>
    dsimp only
    have room : sh.policy.Room := by
      rcases node with ⟨i, inside, bound⟩ | room
      · exact absurd bound (absent i inside)
      · exact room
    obtain ⟨mid, inserted, placed⟩ :=
      inv.insertNew few room small smallD passed vacant absent value
    rw [← sub_zero (cfg.rawCost key value)] at placed
    have unserved : ∀ old life, ¬ sh.items.Serves key old life :=
      not_serves_of_absent fun i inside live => absent i inside (by rw [live]; rfl)
    refine ⟨mid, 0, [], .inr ⟨unserved, rfl⟩, .inr ⟨unserved, rfl⟩, placed, ?_⟩
    simp only [inserted, Shard.settle, sub_zero]
  | @buried pos tomb =>
    have placed := inv.resurrect small tomb value
    rw [← sub_zero (cfg.rawCost key value)] at placed
    have unserved : ∀ old life, ¬ sh.items.Serves key old life :=
      not_serves_of_absent fun i inside live => by
        -- The key's only slot is its tombstone.
        have here := inv.table.chained.unique i inside _ (sh.items.wrap_lt pos) key
          (by rw [live]; rfl) (by rw [tomb]; rfl)
        rw [here, tomb] at live
        exact absurd live (by simp)
    refine ⟨_, 0, [], .inr ⟨unserved, rfl⟩, .inr ⟨unserved, rfl⟩, placed, ?_⟩
    simp only [Shard.settle, sub_zero]
  | @live pos alive =>
    have served := serves_of_live alive
    exact ⟨_, _, _, .inl ⟨_, _, served, rfl⟩, .inl ⟨_, _, served, rfl⟩,
      inv.overwrite small alive value, rfl⟩

/-- A write returns, and does what it should. -/
theorem Inv.setMemory (inv : sh.Inv cfg) (nowOff : Nat) (key : K) (value : V) (small : off < 2 ^ 18)
    (writable : cfg.rawCost key value ≤ sh.cap → Writable cfg sh key value) :
    ∃ sh' deletions, sh.setMemory cfg nowOff key value off = .ok (sh', deletions) ∧
      Wrote cfg key value off sh sh' := by
  by_cases heavy : cfg.rawCost key value > sh.cap
  · obtain ⟨sh', deletions, ran, removed, _⟩ := inv.deleteLocked key .overflow
    refine ⟨sh', deletions, ?_, .oversized heavy removed⟩
    unfold Shard.setMemory
    simp only [if_pos heavy, ran]
  · have light := not_lt.mp heavy
    have ready := writable light
    obtain ⟨mid, cost, deletions, share, _, placed, ran⟩ :=
      inv.setMemory_eq_settle nowOff key value small light ready.few ready.node
    rw [ran]
    exact placed.finish inv light share (ready.fits cost share) nowOff deletions

/-- What a write reports: the value it replaces or makes oversized, and then what it evicts. -/
theorem Inv.setMemory_reports (inv : sh.Inv cfg) (nowOff : Nat) (key : K) (value : V)
    (small : off < 2 ^ 18) (light : cfg.rawCost key value ≤ sh.cap)
    (ready : Writable cfg sh key value) :
    ∃ mid sh' life replaced gone,
      sh.setMemory cfg nowOff key value off = .ok (sh', replaced ++ gone) ∧ mid.Inv cfg ∧
      Lifetime sh.items key off life ∧ Overwrites key value life sh.items mid.items ∧
      Reports cfg .replacement sh.items key replaced ∧ Evicted cfg nowOff mid sh' gone := by
  obtain ⟨mid, cost, replaced, share, reports, placed, ran⟩ :=
    inv.setMemory_eq_settle nowOff key value small light ready.few ready.node
  have fits := ready.fits cost share
  obtain ⟨heavier, _⟩ := placed.heavier inv (by omega)
  obtain ⟨sh', gone, settled, evicted, _, _⟩ := heavier.settle nowOff replaced
  obtain ⟨life, lifetime, overwrites⟩ := placed.serves
  exact ⟨_, sh', life, replaced, gone, ran.trans settled, heavier, lifetime, overwrites, reports,
    evicted⟩

end Targets

end Shard

end Memstash
