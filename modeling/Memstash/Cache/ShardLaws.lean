import Memstash.Cache.ShardInv

/-! Each operation of a shard preserves its invariant and serves what it should. -/

namespace Memstash

open Probing Scan RangeSum MetaWord Machine

variable {K V : Type} {cfg : ShardConfig K V} {sh : Shard K V}

namespace FlatHashMap

variable {t : FlatHashMap K V} {hash : K → BitVec 64}

/-- Some slot other than the one at a position serves the item. -/
def ServesAway (t : FlatHashMap K V) (pos : Nat) (key : K) (value : V) (off : Nat) : Prop :=
  ∃ i < t.len, i ≠ t.wrap pos ∧ t.cells i = .live key ∧ (t.slots i).entry.value = value ∧
    (t.slots i).metaWord.expireOff = off

/-- After a write the table serves the written item and what other slots served. -/
theorem serves_put (t : FlatHashMap K V) (pos : Nat) (item : Item K V) (key : K) (value : V)
    (off : Nat) :
    (t.put pos item).Serves key value off ↔
      (item.cell = .live key ∧ item.entry.value = value ∧ item.metaWord.expireOff = off) ∨
        t.ServesAway pos key value off := by
  constructor
  · rintro ⟨i, inside, live, served, lifetime⟩
    rw [put_cells] at live
    rw [put_slots] at served lifetime
    by_cases here : i = t.wrap pos
    · rw [if_pos here] at live served lifetime
      exact .inl ⟨live, served, lifetime⟩
    · rw [if_neg here] at live served lifetime
      exact .inr ⟨i, inside, here, live, served, lifetime⟩
  · rintro (⟨live, served, lifetime⟩ | ⟨i, inside, away, live, served, lifetime⟩)
    · refine ⟨t.wrap pos, t.wrap_lt pos, put_here.trans live, ?_, ?_⟩
      · rw [put_slots, if_pos rfl, served]
      · rw [put_slots, if_pos rfl, lifetime]
    · refine ⟨i, inside, (put_others i away).trans live, ?_, ?_⟩
      · rw [put_slots, if_neg away, served]
      · rw [put_slots, if_neg away, lifetime]

/-- A slot that is not live serves nothing itself. -/
theorem servesAway_of_not_live {pos : Nat} (idle : ∀ key, t.cells (t.wrap pos) ≠ .live key) (key : K)
    (value : V) (off : Nat) : t.ServesAway pos key value off ↔ t.Serves key value off := by
  constructor
  · rintro ⟨i, inside, _, live, held⟩
    exact ⟨i, inside, live, held⟩
  · rintro ⟨i, inside, live, held⟩
    exact ⟨i, inside, fun here => idle key (here ▸ live), live, held⟩

/-- A live slot is the only one that serves its key. -/
theorem servesAway_of_live (inv : t.Inv hash) {pos : Nat} {own : K}
    (alive : t.cells (t.wrap pos) = .live own) (key : K) (value : V) (off : Nat) :
    t.ServesAway pos key value off ↔ key ≠ own ∧ t.Serves key value off := by
  constructor
  · rintro ⟨i, inside, away, live, held⟩
    refine ⟨?_, i, inside, live, held⟩
    rintro rfl
    exact away (inv.chained.unique i inside _ (t.wrap_lt pos) key (by simp [live]) (by simp [alive]))
  · rintro ⟨other, i, inside, live, held⟩
    refine ⟨i, inside, ?_, live, held⟩
    rintro rfl
    rw [alive, Cell.live.injEq] at live
    exact other live.symm

theorem serves_congr {t t' : FlatHashMap K V} (mask : t'.mask = t.mask) (slots : t'.slots = t.slots)
    (key : K) (value : V) (off : Nat) : t'.Serves key value off ↔ t.Serves key value off := by
  simp only [Serves, len, mask, cells_congr slots, slots]

/-- The live slots of the second table were live in the first, under the same keys. -/
structure Narrows (t t' : FlatHashMap K V) : Prop where
  size : t'.len = t.len
  live : ∀ i < t.len, ∀ key, t'.cells i = .live key → t.cells i = .live key

theorem Narrows.refl (t : FlatHashMap K V) : t.Narrows t := ⟨rfl, fun _ _ _ alive => alive⟩

theorem Narrows.trans {t t' t'' : FlatHashMap K V} (first : t.Narrows t') (second : t'.Narrows t'') :
    t.Narrows t'' :=
  ⟨second.size.trans first.size, fun i inside key alive =>
    first.live i inside key (second.live i (first.size ▸ inside) key alive)⟩

/-- Replacing an item by one that is not live, or live under the same key, narrows the table. -/
theorem narrows_put {pos : Nat} {item : Item K V}
    (same : ∀ key, item.cell = .live key → t.cells (t.wrap pos) = .live key) :
    t.Narrows (t.put pos item) := by
  refine ⟨rfl, fun i _ key alive => ?_⟩
  rw [put_cells] at alive
  split at alive
  · rename_i here
    rw [here]
    exact same key alive
  · exact alive

/-- No occupied slot of the first table is vacant in the second. -/
structure Fills (t t' : FlatHashMap K V) : Prop where
  size : t'.len = t.len
  kept : ∀ i < t.len, (t.slots i).metaWord ≠ 0#64 → (t'.slots i).metaWord ≠ 0#64

theorem Fills.refl (t : FlatHashMap K V) : t.Fills t := ⟨rfl, fun _ _ occupied => occupied⟩

theorem Fills.trans {t t' t'' : FlatHashMap K V} (first : t.Fills t') (second : t'.Fills t'') :
    t.Fills t'' :=
  ⟨second.size.trans first.size, fun i inside occupied =>
    second.kept i (first.size ▸ inside) (first.kept i inside occupied)⟩

/-- An item that is not vacant leaves its slot occupied. -/
theorem fills_put {pos : Nat} {item : Item K V}
    (occupied : (t.itemAt pos).metaWord ≠ 0#64 → item.metaWord ≠ 0#64) : t.Fills (t.put pos item) := by
  refine ⟨rfl, fun i _ before => ?_⟩
  rw [put_slots]
  split
  · rename_i here
    exact occupied (by rw [itemAt, ← here]; exact before)
  · exact before

theorem Fills.congr {t' t'' : FlatHashMap K V} (fills : t.Fills t') (mask : t''.mask = t'.mask)
    (slots : t''.slots = t'.slots) : t.Fills t'' :=
  ⟨by rw [← fills.size, len, len, mask], fun i inside occupied => by
    rw [slots]
    exact fills.kept i inside occupied⟩

theorem fills_of_cell {pos : Nat} {item : Item K V} {t' : FlatHashMap K V} (cell : item.cell ≠ .vacant)
    (mask : t'.mask = t.mask) (slots : t'.slots = (t.put pos item).slots) : t.Fills t' :=
  .congr (fills_put fun _ => (Item.cell_eq_vacant_iff item).not.mp cell) mask slots

/-- Spending chances empties no slot. -/
theorem OnlyChances.fills {t' : FlatHashMap K V} (only : t.OnlyChances t') {hash : K → BitVec 64}
    (inv : t.Inv hash) : t.Fills t' := by
  refine ⟨by rw [len, len, only.mask], fun i inside occupied => ?_⟩
  obtain ⟨_, same, _⟩ := only.settled (inv.settled i inside)
  exact (Item.cell_eq_vacant_iff _).not.mp (by
    rw [show (t'.slots i).cell = (t.slots i).cell from same]
    exact (Item.cell_eq_vacant_iff _).not.mpr occupied)

/-- The tables serve the same items and count alike. -/
structure Alike (cfg : ShardConfig K V) (t t' : FlatHashMap K V) : Prop where
  inv : t'.Inv cfg.keyHash
  slots : t.Narrows t'
  live : t'.tally Item.liveOne = t.tally Item.liveOne
  dead : t'.tally Item.deadOne = t.tally Item.deadOne
  cost : t'.tally (Item.costOne cfg) = t.tally (Item.costOne cfg)
  serves : ∀ key value off, t'.Serves key value off ↔ t.Serves key value off

theorem Alike.refl (inv : t.Inv cfg.keyHash) : Alike cfg t t :=
  ⟨inv, .refl t, rfl, rfl, rfl, fun _ _ _ => Iff.rfl⟩

/-- Likeness is transitive. -/
theorem Alike.trans {t t' t'' : FlatHashMap K V} (first : Alike cfg t t')
    (second : Alike cfg t' t'') : Alike cfg t t'' :=
  ⟨second.inv, first.slots.trans second.slots, second.live.trans first.live,
    second.dead.trans first.dead, second.cost.trans first.cost,
    fun key value off => (second.serves key value off).trans (first.serves key value off)⟩

/-- Tables whose slots agree on what they are, hold and carry are alike. -/
theorem Alike.of_slots {t' : FlatHashMap K V} (inv : t'.Inv cfg.keyHash) (mask : t'.mask = t.mask)
    (cells : ∀ i < t.len, t'.cells i = t.cells i)
    (held : ∀ i < t.len, ∀ key, t.cells i = .live key → (t'.slots i).entry = (t.slots i).entry ∧
      (t'.slots i).metaWord.expireOff = (t.slots i).metaWord.expireOff) : Alike cfg t t' := by
  have size : t'.len = t.len := by simp only [len, mask]
  have sums : ∀ f : Item K V → Int, (∀ i < t.len, f (t'.slots i) = f (t.slots i)) →
      t'.tally f = t.tally f := by
    intro f same
    rw [tally, tally, size]
    exact Finset.sum_congr rfl fun i member => same i (Finset.mem_range.mp member)
  have slots : t.Narrows t' := ⟨size, fun i inside key alive => by rw [← cells i inside]; exact alive⟩
  refine ⟨inv, slots, sums _ fun i inside => ?_, sums _ fun i inside => ?_, sums _ fun i inside => ?_,
    fun key value off => ?_⟩
  · have same : (t'.slots i).cell = (t.slots i).cell := cells i inside
    simp only [Item.liveOne, same]
  · have same : (t'.slots i).cell = (t.slots i).cell := cells i inside
    simp only [Item.deadOne, same]
  · -- Only live slots weigh anything, and those hold the same entries.
    have same : (t'.slots i).cell = (t.slots i).cell := cells i inside
    unfold Item.costOne
    rw [same]
    cases cell : (t.slots i).cell with
    | live key => simp only [(held i inside key cell).1]
    | vacant => rfl
    | tomb key => rfl
    | released => rfl
  · constructor
    · rintro ⟨i, inside, live, served, lifetime⟩
      rw [size] at inside
      rw [cells i inside] at live
      obtain ⟨entry, offset⟩ := held i inside key live
      exact ⟨i, inside, live, by rw [← entry, served], by rw [← offset, lifetime]⟩
    · rintro ⟨i, inside, live, served, lifetime⟩
      obtain ⟨entry, offset⟩ := held i inside key live
      exact ⟨i, by rw [size]; exact inside, by rw [cells i inside, live], by rw [entry, served],
        by rw [offset, lifetime]⟩

/-- Spending chances leaves the table alike. -/
theorem OnlyChances.alike {t' : FlatHashMap K V} (only : t.OnlyChances t')
    (inv : t.Inv cfg.keyHash) : Alike cfg t t' := by
  have slot : ∀ i < t.len, _ := fun i inside => only.settled (inv.settled i inside)
  refine .of_slots (inv.of_cells only.mask only.overflows slot) only.mask
    (fun i inside => (slot i inside).2.1) fun i _ _ _ => ⟨only.entry i, ?_⟩
  -- The offset is outside the reference counter.
  rw [MetaWord.expireOff, MetaWord.expireOff, and_eq_of_and_eq (only.word i) (by decide)]

/-- Handing a tombstone back leaves the table alike. -/
theorem alike_release (inv : t.Inv cfg.keyHash) [Inhabited K] [Inhabited V] {idx : Nat} {key : K}
    (tomb : t.cells (t.wrap idx) = .tomb key) : Alike cfg t (t.put idx (t.itemAt idx).makeFree) := by
  have settled := inv.settled _ (t.wrap_lt idx)
  have itemCell : (t.itemAt idx).cell = .tomb key := tomb
  obtain ⟨_, buried, _, _⟩ := (Item.cell_eq_tomb_iff _ _).mp itemCell
  have released := Item.makeFree_cell buried
  have liveShare := t.tally_put Item.liveOne idx (t.itemAt idx).makeFree
  have deadShare := t.tally_put Item.deadOne idx (t.itemAt idx).makeFree
  have costShare := t.tally_put (Item.costOne cfg) idx (t.itemAt idx).makeFree
  simp only [Item.liveOne, Item.deadOne, Item.costOne, itemCell, released, sub_self, add_zero]
    at liveShare deadShare costShare
  have slots : t.Narrows (t.put idx (t.itemAt idx).makeFree) :=
    narrows_put fun key alive => by rw [released] at alive; cases alive
  refine ⟨inv.release (Item.makeFree_settled buried settled) tomb released, slots, liveShare,
    deadShare, costShare, fun key value off => ?_⟩
  rw [serves_put, servesAway_of_not_live (by simp [tomb])]
  simp [released]

/-- Handing back a queued dead slot takes its node out of the queue. -/
theorem Queues.release [Inhabited K] [Inhabited V] {nodes : List QNode} {node : QNode} (sized : t.Sized)
    (queues : t.Queues (node :: nodes)) (dead : (t.itemAt node.idx).metaWord.isDead = true) :
    (t.put node.idx (t.itemAt node.idx).makeFree).Queues nodes := by
  obtain ⟨inside, _⟩ := (queues.bound node.idx).mp (by simp)
  have wrapped := sized.wrap_of_lt inside
  refine queues.unbind rfl ?_ fun i _ other => ?_
  · rw [put_cells, if_pos wrapped.symm, Item.makeFree_cell dead]
    rfl
  · rw [put_cells, wrapped, if_neg other]

end FlatHashMap

namespace Shard

/-- The shard once the item of a slot has been killed and accounted for. -/
def killed (cfg : ShardConfig K V) (sh : Shard K V) (idx : Nat) : Shard K V :=
  { sh with
    weight := int64 (sh.weight
      - cfg.rawCost (sh.items.itemAt idx).entry.key (sh.items.itemAt idx).entry.value)
    items := (sh.items.put idx (sh.items.itemAt idx).kill).forgetDisplaced
      (sh.items.home (cfg.keyHash (sh.items.itemAt idx).entry.key)) idx
    live := sh.live - 1
    dirty := sh.dirty + 1 }

/-- Killing a live item keeps the table, the queue and the counters in step. -/
theorem Stored.killed (stored : sh.Stored cfg) {idx : Nat} {key : K}
    (alive : sh.items.cells (sh.items.wrap idx) = .live key) : (sh.killed cfg idx).Stored cfg := by
  have settled := stored.table.settled _ (sh.items.wrap_lt idx)
  have itemCell : (sh.items.itemAt idx).cell = .live key := alive
  have tombCell : (sh.items.itemAt idx).kill.cell = .tomb key := Item.kill_cell settled alive
  obtain ⟨occupied, _, named⟩ := (Item.cell_eq_live_iff _ _).mp itemCell
  have tag : (sh.items.itemAt idx).kill.metaWord &&& tagMask = tagOf (cfg.keyHash key) := by
    rw [Item.kill_and (by decide)]
    exact stored.table.tagged _ (sh.items.wrap_lt idx) key (by rw [alive]; rfl)
  -- Each counter moves by the share of the one slot that changed.
  have liveShare := sh.items.tally_put Item.liveOne idx (sh.items.itemAt idx).kill
  have deadShare := sh.items.tally_put Item.deadOne idx (sh.items.itemAt idx).kill
  simp only [Item.liveOne, Item.deadOne, itemCell, tombCell] at liveShare deadShare
  have live := stored.live
  have dirty := stored.dirty
  refine ⟨?_, stored.policy, ?_, ?_, ?_⟩
  · rw [Shard.killed, named]
    exact stored.table.bury (Item.kill_settled settled occupied) alive tombCell tag
  · refine stored.queues.same (by simp [Shard.killed]) fun i _ => ?_
    simp only [Shard.killed, FlatHashMap.forgetDisplaced_cells, FlatHashMap.put_cells]
    split
    · rename_i here
      rw [here, alive, tombCell]
      rfl
    · rfl
  · simp only [Shard.killed, FlatHashMap.tally_forgetDisplaced]
    omega
  · simp only [Shard.killed, FlatHashMap.tally_forgetDisplaced]
    omega

theorem killed_itemAt (cfg : ShardConfig K V) (sh : Shard K V) (idx : Nat) :
    (sh.killed cfg idx).items.itemAt idx = (sh.items.itemAt idx).kill := by
  simp [Shard.killed, FlatHashMap.itemAt, FlatHashMap.wrap, FlatHashMap.put_slots]

/-- The slot of a killed item is its key's tombstone. -/
theorem Stored.killed_tomb (stored : sh.Stored cfg) {idx : Nat} {key : K}
    (alive : sh.items.cells (sh.items.wrap idx) = .live key) :
    (sh.killed cfg idx).items.cells ((sh.killed cfg idx).items.wrap idx) = .tomb key :=
  (congrArg Item.cell (killed_itemAt cfg sh idx)).trans
    (Item.kill_cell (stored.table.settled _ (sh.items.wrap_lt idx)) alive)

/-- Killing a live item keeps the invariant. -/
theorem Inv.killed (inv : sh.Inv cfg) {idx : Nat} {key : K}
    (alive : sh.items.cells (sh.items.wrap idx) = .live key) : (sh.killed cfg idx).Inv cfg := by
  have itemCell : (sh.items.itemAt idx).cell = .live key := alive
  have tombCell : (sh.items.itemAt idx).kill.cell = .tomb key :=
    Item.kill_cell (inv.table.settled _ (sh.items.wrap_lt idx)) alive
  have costShare := sh.items.tally_put (Item.costOne cfg) idx (sh.items.itemAt idx).kill
  have share := sh.items.le_tally (Item.costOne_nonneg cfg) idx
  simp only [Item.costOne, itemCell, tombCell] at costShare share
  have positive := Item.rawCost_pos cfg (sh.items.itemAt idx).entry.key
    (sh.items.itemAt idx).entry.value
  have weight := inv.weight
  have bounded := inv.bounded
  have exactWeight : (sh.killed cfg idx).weight = sh.weight - cfg.rawCost
      (sh.items.itemAt idx).entry.key (sh.items.itemAt idx).entry.value :=
    int64_of_range (by omega) (by omega)
  refine ⟨inv.toStored.killed alive, ?_, ?_, ?_, inv.capacity⟩
  · rw [exactWeight]
    simp only [Shard.killed, FlatHashMap.tally_forgetDisplaced]
    omega
  · rw [exactWeight]
    omega
  · have room := inv.room
    simp only [Shard.killed, FlatHashMap.forgetDisplaced_len, FlatHashMap.put_len]
    omega

/-- Killing a key's item stops the shard serving it, and it alone. -/
theorem Inv.killed_serves (inv : sh.Inv cfg) {idx : Nat} {gone : K}
    (alive : sh.items.cells (sh.items.wrap idx) = .live gone) (key : K) (value : V) (off : Nat) :
    (sh.killed cfg idx).items.Serves key value off ↔ key ≠ gone ∧ sh.items.Serves key value off := by
  have tomb : (sh.items.itemAt idx).kill.cell = .tomb gone :=
    Item.kill_cell (inv.table.settled _ (sh.items.wrap_lt idx)) alive
  have same := FlatHashMap.serves_congr (FlatHashMap.forgetDisplaced_mask _ _ _)
    (FlatHashMap.forgetDisplaced_slots (sh.items.put idx (sh.items.itemAt idx).kill)
      (sh.items.home (cfg.keyHash (sh.items.itemAt idx).entry.key)) idx) key value off
  rw [Shard.killed, same, FlatHashMap.serves_put, FlatHashMap.servesAway_of_live inv.table alive]
  simp [tomb]

/-- A shard whose table is replaced by one alike keeps table, queue and counters in step. -/
theorem Stored.alike (stored : sh.Stored cfg) {items : FlatHashMap K V} {policy : EvictionPolicy K}
    (alike : sh.items.Alike cfg items) (valid : policy.Valid) (queues : items.Queues policy.queued)
    (deadCount : Int) :
    Stored cfg { sh with items := items, policy := policy, deadCount := deadCount } :=
  ⟨alike.inv, valid, queues, stored.live.trans alike.live.symm, stored.dirty.trans alike.dead.symm⟩

/-- The slot of a queued node is occupied. -/
theorem Stored.occupied_of_queued (stored : sh.Stored cfg) {node : QNode}
    (member : node ∈ sh.policy.queued) : (sh.items.itemAt node.idx).metaWord ≠ 0#64 := by
  obtain ⟨inside, bound⟩ := (stored.queues.bound node.idx).mp (List.mem_map_of_mem member)
  intro empty
  rw [FlatHashMap.itemAt, stored.table.sized.wrap_of_lt inside] at empty
  rw [FlatHashMap.cells, (Item.cell_eq_vacant_iff _).mpr empty] at bound
  simp at bound

/-- A queued slot that is not dead is live. -/
theorem Stored.live_of_queued (stored : sh.Stored cfg) {node : QNode}
    (member : node ∈ sh.policy.queued) (alive : (sh.items.itemAt node.idx).metaWord.isDead = false) :
    node.idx < sh.items.len ∧ sh.items.itemAt node.idx = sh.items.slots node.idx ∧
      ∃ key, sh.items.cells node.idx = .live key := by
  obtain ⟨inside, _⟩ := (stored.queues.bound node.idx).mp (List.mem_map_of_mem member)
  have here : sh.items.itemAt node.idx = sh.items.slots node.idx := by
    rw [FlatHashMap.itemAt, stored.table.sized.wrap_of_lt inside]
  have occupied := stored.occupied_of_queued member
  rw [here] at alive occupied
  exact ⟨inside, here, _, (Item.cell_eq_live_iff _ _).mpr ⟨occupied, alive, rfl⟩⟩

/-- A shard whose table is replaced by one alike keeps the invariant. -/
theorem Inv.alike (inv : sh.Inv cfg) {items : FlatHashMap K V} {policy : EvictionPolicy K}
    (alike : sh.items.Alike cfg items) (valid : policy.Valid) (queues : items.Queues policy.queued)
    (deadCount : Int) :
    Inv cfg { sh with items := items, policy := policy, deadCount := deadCount } :=
  ⟨inv.toStored.alike alike valid queues deadCount, inv.weight.trans alike.cost.symm, inv.bounded, by
      have room := inv.room
      simp only [alike.slots.size]
      exact room, inv.capacity⟩

/-- The second shard is the first without some of its items. -/
structure Removed (cfg : ShardConfig K V) (gone : K → Prop) (sh sh' : Shard K V) : Prop where
  inv : sh'.Inv cfg
  cap : sh'.cap = sh.cap
  kind : sh'.policy.kind = sh.policy.kind
  light : sh'.weight ≤ sh.weight
  slots : sh.items.Narrows sh'.items
  serves : ∀ key value off,
    sh'.items.Serves key value off ↔ ¬ gone key ∧ sh.items.Serves key value off

theorem Removed.refl (inv : sh.Inv cfg) : Removed cfg (fun _ => False) sh sh :=
  ⟨inv, rfl, rfl, le_rfl, .refl _, fun _ _ _ => by simp⟩

/-- Removing some items and then others. -/
theorem Removed.trans {gone gone' : K → Prop} {sh sh' sh'' : Shard K V}
    (first : Removed cfg gone sh sh') (second : Removed cfg gone' sh' sh'') :
    Removed cfg (fun key => gone key ∨ gone' key) sh sh'' :=
  ⟨second.inv, second.cap.trans first.cap, second.kind.trans first.kind,
    second.light.trans first.light, first.slots.trans second.slots, fun key value off => by
    rw [second.serves, first.serves]
    tauto⟩

/-- Only what the shard serves can be removed from it. -/
theorem Removed.congr {gone gone' : K → Prop} {sh' : Shard K V} (removed : Removed cfg gone sh sh')
    (same : ∀ key value off, sh.items.Serves key value off → (gone key ↔ gone' key)) :
    Removed cfg gone' sh sh' :=
  ⟨removed.inv, removed.cap, removed.kind, removed.light, removed.slots, fun key value off => by
    rw [removed.serves]
    constructor
    · rintro ⟨kept, served⟩
      exact ⟨(same key value off served).not.mp kept, served⟩
    · rintro ⟨kept, served⟩
      exact ⟨(same key value off served).not.mpr kept, served⟩⟩

/-- A key that is not served has nothing to remove. -/
theorem Inv.absent_removed (inv : sh.Inv cfg) {key : K} {gone : K → Prop}
    (only : ∀ other, gone other → other = key)
    (absent : ∀ value off, ¬ sh.items.Serves key value off) : Removed cfg gone sh sh := by
  refine (Removed.refl inv).congr fun other value off served => ?_
  simp only [false_iff]
  intro lost
  exact absent value off (only other lost ▸ served)

/-- Killing a live item removes it. -/
theorem Inv.killed_removed (inv : sh.Inv cfg) {idx : Nat} {key : K}
    (alive : sh.items.cells (sh.items.wrap idx) = .live key) :
    Removed cfg (fun other => other = key) sh (sh.killed cfg idx) := by
  have itemCell : (sh.items.itemAt idx).cell = .live key := alive
  have tombCell : (sh.items.itemAt idx).kill.cell = .tomb key :=
    Item.kill_cell (inv.table.settled _ (sh.items.wrap_lt idx)) alive
  have slots : sh.items.Narrows (sh.items.put idx (sh.items.itemAt idx).kill) :=
    FlatHashMap.narrows_put fun other live => by rw [tombCell] at live; cases live
  refine ⟨inv.killed alive, rfl, rfl, ?_, ?_, inv.killed_serves alive⟩
  swap
  · refine ⟨by simp [Shard.killed], fun i inside other live => slots.live i inside other ?_⟩
    rwa [Shard.killed, FlatHashMap.forgetDisplaced_cells] at live
  -- The weights are totals over slots, and one slot lost its share.
  have share := sh.items.tally_put (Item.costOne cfg) idx (sh.items.itemAt idx).kill
  have before := Item.costOne_nonneg cfg (sh.items.itemAt idx)
  rw [(inv.killed alive).weight, inv.weight]
  simp only [Shard.killed, FlatHashMap.tally_forgetDisplaced, share]
  simp only [Item.costOne, itemCell, tombCell] at before ⊢
  omega

/-- What taking a key's item away reports: the value it held, or nothing when there was none. -/
def Reports (cfg : ShardConfig K V) (cause : DeletionCause) (t : FlatHashMap K V) (key : K)
    (deletions : List (Deletion K V)) : Prop :=
  (∃ old life, t.Serves key old life ∧
      deletions = if cfg.onDeletion then [⟨key, old, cause⟩] else []) ∨
    ((∀ old life, ¬ t.Serves key old life) ∧ deletions = [])

section Sweep

variable [Inhabited K] [Inhabited V]

/-- Handing back a list of queued tombstones leaves the table alike and dequeues them. -/
theorem release_all (kept : List QNode) :
    ∀ (dropped : List QNode) (t : FlatHashMap K V), t.Inv cfg.keyHash → t.Queues (dropped ++ kept) →
      (∀ node ∈ dropped, (t.itemAt node.idx).metaWord.isDead = true) →
      t.Alike cfg (dropped.foldl (fun t node => t.put node.idx (t.itemAt node.idx).makeFree) t) ∧
        (dropped.foldl (fun t node => t.put node.idx (t.itemAt node.idx).makeFree) t).Queues kept ∧
        t.Fills (dropped.foldl (fun t node => t.put node.idx (t.itemAt node.idx).makeFree) t) := by
  intro dropped
  induction dropped with
  | nil => exact fun t inv queues _ => ⟨.refl inv, queues, .refl t⟩
  | cons node rest ih =>
    intro t inv queues buried
    obtain ⟨inside, bound⟩ := (queues.bound node.idx).mp (by simp)
    have wrapped := inv.sized.wrap_of_lt inside
    -- A queued dead slot is a tombstone not yet handed back.
    obtain ⟨key, tomb⟩ : ∃ key, t.cells (t.wrap node.idx) = .tomb key := by
      have dead := buried node (by simp)
      rw [wrapped]
      cases cell : t.cells node.idx with
      | tomb key => exact ⟨key, rfl⟩
      | live key =>
        have alive := ((Item.cell_eq_live_iff _ _).mp cell).2.1
        rw [FlatHashMap.itemAt, wrapped, alive] at dead
        exact absurd dead (by decide)
      | vacant => simp [cell] at bound
      | released => simp [cell] at bound
    have alike := FlatHashMap.alike_release inv tomb
    have dead := buried node (by simp)
    obtain ⟨rest_alike, rest_queues, rest_fills⟩ := ih _ alike.inv (queues.release inv.sized dead)
      (by
        -- The verdicts on the other nodes are unchanged.
        intro other member
        have before := buried other (by simp [member])
        simp only [FlatHashMap.itemAt, FlatHashMap.put_wrap, FlatHashMap.put_slots] at before ⊢
        split
        · rw [Item.makeFree_isDead]
          exact dead
        · exact before)
    refine ⟨alike.trans rest_alike, rest_queues, .trans (FlatHashMap.fills_put fun _ => ?_) rest_fills⟩
    exact ((Item.cell_eq_released_iff _).mp (Item.makeFree_cell dead)).1

/-- A sweep hands back the queued tombstones, which leaves the table alike and only live slots queued. -/
theorem Stored.sweep (stored : sh.Stored cfg) :
    ∃ policy items, sh.policy.sweep (fun t idx => (FlatHashMap.itemAt t idx).metaWord.isDead)
        (fun t idx => t.put idx (t.itemAt idx).makeFree) sh.items = .ok (policy, items) ∧
      policy.Valid ∧ sh.items.Alike cfg items ∧ items.Queues policy.queued ∧ sh.items.Fills items ∧
      ∀ node ∈ policy.queued, ∃ key, items.cells node.idx = .live key := by
  obtain ⟨policy, items, dropped, swept, valid, kept, perm, released⟩ :=
    @EvictionPolicy.sweep_spec K _ (fun t idx => (FlatHashMap.itemAt t idx).metaWord.isDead)
      (fun t idx => t.put idx (t.itemAt idx).makeFree) FlatHashMap.put_makeFree_isDead _ stored.policy sh.items
  -- The queue splits into the swept nodes and the kept ones.
  have split : (dropped ++ policy.queued).Perm sh.policy.queued := by
    rw [kept]
    exact (perm.append_right _).trans (List.filter_append_perm _ _)
  have buried : ∀ node ∈ dropped, (sh.items.itemAt node.idx).metaWord.isDead = true :=
    fun node member => (List.mem_filter.mp (perm.mem_iff.mp member)).2
  obtain ⟨alike, queues, fills⟩ := release_all policy.queued dropped sh.items stored.table
    (stored.queues.perm split) buried
  rw [← released] at alike queues fills
  refine ⟨policy, items, swept, valid, alike, queues, fills, fun node member => ?_⟩
  rw [kept, List.mem_filter] at member
  obtain ⟨inside, _, key, live⟩ := stored.live_of_queued member.1 (by simpa using member.2)
  -- The key is still served, and only from the slot it was in.
  obtain ⟨i, within, served, _⟩ := (alike.serves key _ _).mpr ⟨node.idx, inside, live, rfl, rfl⟩
  rw [alike.slots.size] at within
  have same := stored.table.chained.unique i within node.idx inside key
    (by rw [alike.slots.live i within key served]; rfl) (by rw [live]; rfl)
  exact ⟨key, same ▸ served⟩

/-- What accounting a tombstone does: it is counted, or the tombstones are swept out of the queue. -/
inductive Interred (cfg : ShardConfig K V) (sh : Shard K V) : Shard K V → Prop
  | counted (few : ¬ (sh.deadCount + 1 ≥ sweepMinDead ∧ (sh.deadCount + 1) * 2 ≥ (sh.policy.len : Int))) :
      Interred cfg sh { sh with deadCount := sh.deadCount + 1 }
  | swept {policy : EvictionPolicy K} {items : FlatHashMap K V}
      (ran : sh.policy.sweep (fun t idx => (FlatHashMap.itemAt t idx).metaWord.isDead)
        (fun t idx => t.put idx (t.itemAt idx).makeFree) sh.items = .ok (policy, items))
      (valid : policy.Valid) (alike : sh.items.Alike cfg items) (queues : items.Queues policy.queued)
      (fills : sh.items.Fills items)
      (clean : ∀ node ∈ policy.queued, ∃ key, items.cells node.idx = .live key) :
      Interred cfg sh { sh with policy := policy, items := items, deadCount := 0 }

/-- Accounting a tombstone returns, and counts it or sweeps. -/
theorem Stored.noteDead (stored : sh.Stored cfg) :
    ∃ sh', sh.noteDead = .ok sh' ∧ Interred cfg sh sh' := by
  unfold Shard.noteDead
  dsimp only
  split
  · obtain ⟨policy, items, swept, valid, alike, queues, fills, clean⟩ := stored.sweep
    exact ⟨_, by rw [swept]; rfl, .swept swept valid alike queues fills clean⟩
  · rename_i few
    exact ⟨_, rfl, .counted few⟩

/-- Accounting a tombstone, with or without a sweep, keeps the invariant and what is served. -/
theorem Inv.noteDead (inv : sh.Inv cfg) :
    ∃ sh', sh.noteDead = .ok sh' ∧ Removed cfg (fun _ => False) sh sh' := by
  obtain ⟨sh', ran, interred⟩ := inv.toStored.noteDead
  refine ⟨sh', ran, ?_⟩
  cases interred with
  | counted _ =>
    exact ⟨inv.alike (.refl inv.table) inv.policy inv.queues _, rfl, rfl, le_rfl, .refl _,
      fun key value off => by simp⟩
  | swept swept valid alike queues _ _ =>
    exact ⟨inv.alike alike valid queues 0, rfl, EvictionPolicy.sweep_kind swept, le_rfl, alike.slots,
      fun key value off => by simpa using alike.serves key value off⟩

/-- Killing an item in its slot removes it. -/
theorem Inv.killAt (inv : sh.Inv cfg) {idx : Nat} {key : K}
    (alive : sh.items.cells (sh.items.wrap idx) = .live key) (cause : DeletionCause) :
    ∃ sh', sh.killAt cfg (cfg.keyHash key) idx cause = .ok (sh',
        if cfg.onDeletion then [⟨key, (sh.items.itemAt idx).entry.value, cause⟩] else []) ∧
      Removed cfg (fun other => other = key) sh sh' := by
  have named : (sh.items.itemAt idx).entry.key = key := ((Item.cell_eq_live_iff _ _).mp alive).2.2
  obtain ⟨sh', noted, removed⟩ := (inv.killed alive).noteDead
  refine ⟨sh', ?_, ((inv.killed_removed alive).trans removed).congr fun _ _ _ _ => by simp⟩
  rw [Shard.killed, named] at noted
  rw [Shard.killAt, named, noted]
  rfl

section Lookup

variable [DecidableEq K]

omit [Inhabited K] [Inhabited V] in
theorem Housed.occupied_le (housed : sh.Housed cfg) :
    occupied sh.items.len sh.items.cells * 4 ≤ sh.items.len * 3 := by
  rw [FlatHashMap.occupied_eq_tally, ← housed.live, ← housed.dirty]
  exact housed.spacious

omit [Inhabited K] [Inhabited V] in
/-- A lookup finds the key's live slot, or the key is not served. -/
theorem Housed.probe (housed : sh.Housed cfg) (snapshot : Bool) (key : K) :
    (∃ pos, sh.items.probe snapshot (cfg.keyHash key) key = .ok (some pos) ∧
      sh.items.cells (sh.items.wrap pos) = .live key) ∨
      (sh.items.probe snapshot (cfg.keyHash key) key = .ok none ∧
        ∀ value off, ¬ sh.items.Serves key value off) := by
  have quarter := housed.occupied_le
  obtain ⟨large, _, _⟩ := housed.table.sized.bounds
  rcases FlatHashMap.probe_spec housed.table (by omega) snapshot key with found | ⟨missed, absent⟩
  · exact .inl found
  · exact .inr ⟨missed, fun _ _ ⟨i, inside, live, _⟩ => absent i inside live⟩

omit [Inhabited K] [Inhabited V] in
/-- The slot found for a key is its live slot. -/
theorem Housed.findSlot (housed : sh.Housed cfg) (key : K) :
    (∃ idx, sh.findSlot (cfg.keyHash key) key = .ok (some idx) ∧ sh.items.wrap idx = idx ∧
      sh.items.cells (sh.items.wrap idx) = .live key) ∨
      (sh.findSlot (cfg.keyHash key) key = .ok none ∧
        ∀ value off, ¬ sh.items.Serves key value off) := by
  rcases housed.probe false key with ⟨pos, found, alive⟩ | ⟨missed, absent⟩
  · have normal := housed.table.sized.wrap_of_lt (sh.items.wrap_lt pos)
    exact .inl ⟨sh.items.wrap pos, by rw [Shard.findSlot, found]; rfl, normal, by rw [normal, alive]⟩
  · exact .inr ⟨by rw [Shard.findSlot, missed]; rfl, absent⟩

/-- Deleting a key removes it, and reports what it held. -/
theorem Inv.deleteLocked (inv : sh.Inv cfg) (key : K) (cause : DeletionCause) :
    ∃ sh' gone, sh.deleteLocked cfg key cause = .ok (sh', gone) ∧
      Removed cfg (fun other => other = key) sh sh' ∧ Reports cfg cause sh.items key gone := by
  rcases inv.housed.findSlot key with ⟨idx, found, _, alive⟩ | ⟨missed, absent⟩
  · obtain ⟨sh', killed, removed⟩ := inv.killAt alive cause
    exact ⟨sh', _, by rw [Shard.deleteLocked, found]; exact killed, removed,
      .inl ⟨_, _, ⟨_, sh.items.wrap_lt idx, alive, rfl, rfl⟩, rfl⟩⟩
  · exact ⟨sh, [], by rw [Shard.deleteLocked, missed]; rfl,
      inv.absent_removed (fun _ same => same) absent, .inr ⟨absent, rfl⟩⟩

/-- What a read's removal of an expired item does and reports: that item goes, or nothing does. -/
inductive Dropped (cfg : ShardConfig K V) (nowOff : Nat) (key : K) (sh sh' : Shard K V) :
    List (Deletion K V) → Prop
  | kept (same : sh' = sh) : Dropped cfg nowOff key sh sh' []
  | expired {value : V} {off : Nat} (served : sh.items.Serves key value off)
      (late : lapsed off nowOff = true) (removed : Removed cfg (fun other => other = key) sh sh') :
      Dropped cfg nowOff key sh sh' (if cfg.onDeletion then [⟨key, value, .expiration⟩] else [])

/-- A read's removal of an expired item removes that item or nothing. -/
theorem Inv.dropExpired (inv : sh.Inv cfg) (nowOff : Nat) (key : K) (idx : Nat) :
    ∃ sh' gone, sh.dropExpired cfg nowOff key idx = .ok (sh', gone) ∧
      Removed cfg (fun other => other = key ∧ sh.items.cells idx = .live key ∧ idx < sh.items.len ∧
        (sh.items.itemAt idx).metaWord.expired nowOff = true) sh sh' ∧
      Dropped cfg nowOff key sh sh' gone := by
  rcases inv.housed.findSlot key with ⟨found, ran, normal, alive⟩ | ⟨missed, absent⟩
  · by_cases drop : found = idx ∧ (sh.items.itemAt found).metaWord.expired nowOff = true
    · obtain ⟨rfl, late⟩ := drop
      obtain ⟨sh', killed, removed⟩ := inv.killAt alive .expiration
      have dropped : sh.dropExpired cfg nowOff key found = sh.killAt cfg (cfg.keyHash key) found .expiration := by
        rw [Shard.dropExpired, ran]
        simp [Bind.bind, Except.bind, late]
      refine ⟨sh', _, dropped.trans killed,
        removed.congr fun other _ _ _ => ?_,
        .expired ⟨_, sh.items.wrap_lt found, alive, rfl, rfl⟩ late removed⟩
      rw [normal] at alive
      simp only [alive, late, and_true, true_and]
      exact ⟨fun same => ⟨same, by rw [← normal]; exact sh.items.wrap_lt _⟩, fun both => both.1⟩
    · refine ⟨sh, [], by rw [Shard.dropExpired, ran]; simp [Bind.bind, Except.bind, drop]; rfl,
        (Removed.refl inv).congr fun other _ _ _ => ?_, .kept rfl⟩
      -- The slot the read saw is the key's slot, or it no longer holds the key.
      simp only [false_iff]
      rintro ⟨_, live, inside, late⟩
      have same : found = idx := by
        rw [← normal]
        exact inv.table.chained.unique _ (sh.items.wrap_lt found) idx inside key (by rw [alive]; rfl)
          (by rw [live]; rfl)
      exact drop ⟨same, by rw [same]; exact late⟩
  · exact ⟨sh, [], by rw [Shard.dropExpired, missed]; rfl,
      inv.absent_removed (fun _ both => both.1) absent, .kept rfl⟩

end Lookup

end Sweep

end Shard

end Memstash
