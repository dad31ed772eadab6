import Memstash.Cache.Writing

/-! Reads return what the shard serves, and a walk yields each served entry once. -/

namespace Memstash

open Probing Scan MetaWord Machine

namespace Shard

variable {K V : Type} {cfg : ShardConfig K V} {sh : Shard K V}

/-- A key is served by one slot, so with one value and one lifetime. -/
theorem Inv.serves_unique (inv : sh.Inv cfg) {key : K} {value value' : V} {off off' : Nat}
    (first : sh.items.Serves key value off) (second : sh.items.Serves key value' off') :
    value = value' ∧ off = off' := by
  obtain ⟨i, insideI, liveI, rfl, rfl⟩ := first
  obtain ⟨j, insideJ, liveJ, rfl, rfl⟩ := second
  obtain rfl := inv.table.chained.unique i insideI j insideJ key (by rw [liveI]; rfl)
    (by rw [liveJ]; rfl)
  exact ⟨rfl, rfl⟩

/-- The offset a lifetime is refreshed to fits its field and is not the reserved one. -/
theorem expireOffsetAt_lt (cfg : ShardConfig K V) (nowOff : Nat) :
    cfg.expireOffsetAt nowOff < 2 ^ 18 ∧ cfg.expireOffsetAt nowOff ≠ 0 := by
  have small : (nowOff + cfg.ttlOff + 1) % 2 ^ 18 < 2 ^ 18 := Nat.mod_lt _ (by decide)
  unfold ShardConfig.expireOffsetAt
  dsimp only
  split
  · decide
  · rename_i nonzero
    exact ⟨small, nonzero⟩

/-- What a read does with the key's item: it finds none, drops an expired one, or serves a live
one and may extend its lifetime. -/
inductive Read (cfg : ShardConfig K V) (nowOff : Nat) (key : K) (sh sh' : Shard K V) :
    Option V → Prop
  | missed (absent : ∀ value off, ¬ sh.items.Serves key value off) (same : sh' = sh) :
      Read cfg nowOff key sh sh' none
  | dropped {value : V} {off : Nat} (served : sh.items.Serves key value off)
      (late : lapsed off nowOff = true) (removed : Removed cfg (fun other => other = key) sh sh') :
      Read cfg nowOff key sh sh' none
  | hit {value : V} {off life : Nat} (served : sh.items.Serves key value off)
      (inTime : lapsed off nowOff = false) (inv : sh'.Inv cfg) (cap : sh'.cap = sh.cap)
      (weight : sh'.weight = sh.weight) (policy : sh'.policy = sh.policy)
      (slots : sh.items.Narrows sh'.items)
      (extended : life = off ∨ cfg.refreshOnGet = true ∧ life = cfg.expireOffsetAt nowOff)
      (overwrites : Overwrites key value life sh.items sh'.items) :
      Read cfg nowOff key sh sh' (some value)

/-- What a lookup of a key leaves and reports: it drops an expired item, or serves a live one. -/
inductive Looked (cfg : ShardConfig K V) (nowOff : Nat) (key : K) (sh sh' : Shard K V) :
    List (Deletion K V) → Prop
  | dropped {gone : List (Deletion K V)} (dropped : Dropped cfg nowOff key sh sh' gone) :
      Looked cfg nowOff key sh sh' gone
  | hit {value : V} {off life : Nat} (served : sh.items.Serves key value off) (inv : sh'.Inv cfg)
      (overwrites : Overwrites key value life sh.items sh'.items) : Looked cfg nowOff key sh sh' []

/-- An item marked as read is settled, and live under the same key and tag. -/
theorem Stored.touched (stored : sh.Stored cfg) {key : K} {pos : Nat} {item : Item K V}
    (alive : sh.items.cells (sh.items.wrap pos) = .live key)
    (kept : item.metaWord &&& Item.identity = (sh.items.itemAt pos).metaWord &&& Item.identity)
    (entry : item.entry = (sh.items.itemAt pos).entry) :
    item.metaWord.Settled ∧ item.cell = .live key ∧
      item.metaWord &&& tagMask = (sh.items.itemAt pos).metaWord &&& tagMask := by
  have before : (sh.items.itemAt pos).cell = .live key := alive
  obtain ⟨occupied, _, _⟩ := (Item.cell_eq_live_iff _ _).mp before
  obtain ⟨settled, occupied', marks⟩ :=
    Item.settled_of_identity (stored.table.settled _ (sh.items.wrap_lt pos)) occupied kept
  refine ⟨settled, ?_, and_eq_of_and_eq marks (by decide)⟩
  rw [← before]
  exact Item.cell_eq_of_marks occupied' occupied marks (by rw [entry])

/-- Marking a live item as read keeps everything but its counter and, at most, its lifetime. -/
theorem Inv.touched (inv : sh.Inv cfg) {key : K} {pos : Nat} {item : Item K V}
    (alive : sh.items.cells (sh.items.wrap pos) = .live key)
    (kept : item.metaWord &&& Item.identity
      = (sh.items.itemAt pos).metaWord &&& Item.identity)
    (entry : item.entry = (sh.items.itemAt pos).entry) :
    Inv cfg { sh with items := sh.items.put pos item } ∧
      sh.items.Narrows (sh.items.put pos item) ∧
      Overwrites key (sh.items.itemAt pos).entry.value item.metaWord.expireOff sh.items
        (sh.items.put pos item) := by
  obtain ⟨settled, cell, tag⟩ := inv.toStored.touched alive kept entry
  obtain ⟨stored, cost, overwrites⟩ := inv.toStored.rewrite alive settled cell tag
  rw [entry] at cost overwrites
  refine ⟨⟨stored, ?_, inv.bounded, inv.room, inv.capacity⟩,
    FlatHashMap.narrows_put fun other live => ?_, overwrites⟩
  · rw [cost, sub_self, add_zero, inv.weight]
  · rw [cell] at live
    rw [alive, live]

/-- Touching an item keeps its identity and its lifetime. -/
theorem touchWith_keeps (item : Item K V) (word : MetaWord) :
    (item.touchWith word).metaWord &&& Item.identity = item.metaWord &&& Item.identity ∧
      (item.touchWith word).entry = item.entry ∧
      (item.touchWith word).metaWord.expireOff = item.metaWord.expireOff := by
  obtain ⟨steady, entry⟩ := Item.touchWith_steady item word
  refine ⟨and_eq_of_and_eq steady (by decide), entry, ?_⟩
  rw [MetaWord.expireOff, MetaWord.expireOff, and_eq_of_and_eq steady (by decide)]

/-- A hit keeps the item's identity and entry, and its lifetime unless reads extend it. -/
theorem touch_spec (cfg : ShardConfig K V) (nowOff : Nat) (item : Item K V) (word : MetaWord) :
    (cfg.touch nowOff item word).metaWord &&& Item.identity = item.metaWord &&& Item.identity ∧
      (cfg.touch nowOff item word).entry = item.entry ∧
      ((cfg.touch nowOff item word).metaWord.expireOff = item.metaWord.expireOff ∨
        cfg.refreshOnGet = true ∧
          (cfg.touch nowOff item word).metaWord.expireOff = cfg.expireOffsetAt nowOff) := by
  obtain ⟨kept, entry, life⟩ := touchWith_keeps item word
  unfold ShardConfig.touch
  dsimp only
  split
  · rename_i refresh
    by_cases loaded : item.metaWord = word
    · -- The word is still the one that was loaded, so the compare-and-swap succeeds.
      subst loaded
      obtain ⟨kept', life', entry'⟩ := Item.touchAndRefreshExpire_identity item
        (expireOffsetAt_lt cfg nowOff).1
      have swapped : (item.touchAndRefreshExpire item.metaWord (cfg.expireOffsetAt nowOff)).2 = true := by
        simp [Item.touchAndRefreshExpire]
      generalize item.touchAndRefreshExpire item.metaWord (cfg.expireOffsetAt nowOff) = result
        at swapped kept' life' entry' ⊢
      obtain ⟨fresh, flag⟩ := result
      obtain rfl : flag = true := swapped
      exact ⟨kept', entry', .inr ⟨refresh.1, life'⟩⟩
    · -- The word has changed since, and only the counter is raised.
      have missed : item.touchAndRefreshExpire word (cfg.expireOffsetAt nowOff) = (item, false) := by
        simp [Item.touchAndRefreshExpire, loaded]
      rw [missed]
      exact ⟨kept, entry, .inl life⟩
  · exact ⟨kept, entry, .inl life⟩

section Walk

variable (cfg) (nowOff : Nat)

/-- How much longer a lifetime that ends at an offset lasts. -/
def lifeOf (off : Nat) : Int :=
  if off = 0 then 0 else int64 (offsetDiff off nowOff * cfg.expireUnit)

variable {cfg nowOff}

/-- What a walk yields at a slot: the entry of a live item that has not expired. -/
theorem Inv.yields_iff (inv : sh.Inv cfg) {pos : Nat} (inside : pos < sh.items.len) (key : K)
    (value : V) (life : Int) :
    (let item := sh.items.itemAt pos
      let word := item.metaWord
      if word = 0#64 ∨ word.isDead = true ∨ word.expired nowOff = true ∨
        item.snapshotInto word = false then none
      else some (item.entry.key, item.entry.value, cfg.lifeLeft word nowOff))
        = some (key, value, life) ↔
      sh.items.cells pos = .live key ∧ (sh.items.slots pos).entry.value = value ∧
        (sh.items.slots pos).metaWord.expired nowOff = false ∧
        life = lifeOf cfg nowOff (sh.items.slots pos).metaWord.expireOff := by
  have normal := inv.table.sized.wrap_of_lt inside
  have copied := Item.snapshotInto_self (inv.table.settled pos inside)
  simp only [FlatHashMap.itemAt, normal, FlatHashMap.cells, Item.cell_eq_live_iff, copied]
  by_cases skip : (sh.items.slots pos).metaWord = 0#64 ∨
      (sh.items.slots pos).metaWord.isDead = true ∨
      (sh.items.slots pos).metaWord.expired nowOff = true
  · rw [if_pos (by tauto)]
    simp only [reduceCtorEq, false_iff]
    rintro ⟨⟨occupied, alive, _⟩, _, inTime, _⟩
    simp [occupied, alive, inTime] at skip
  · rw [if_neg (by simpa using skip)]
    simp only [not_or, Bool.not_eq_true] at skip
    simp only [Option.some.injEq, Prod.mk.injEq, skip, ne_eq, not_false_eq_true, true_and,
      ShardConfig.lifeLeft, lifeOf]
    tauto

/-- A walk yields exactly what the shard serves and has not expired, with the life left. -/
theorem Inv.mem_iterateWithLife (inv : sh.Inv cfg) (key : K) (value : V) (life : Int) :
    (key, value, life) ∈ sh.iterateWithLife cfg nowOff ↔
      ∃ off, sh.items.Serves key value off ∧ lapsed off nowOff = false ∧
        life = lifeOf cfg nowOff off := by
  unfold Shard.iterateWithLife
  rw [List.mem_filterMap]
  constructor
  · rintro ⟨pos, member, yields⟩
    have inside := List.mem_range.mp member
    obtain ⟨live, held, inTime, rfl⟩ := (inv.yields_iff inside key value life).mp yields
    exact ⟨_, ⟨pos, inside, live, held, rfl⟩, inTime, rfl⟩
  · rintro ⟨off, ⟨pos, inside, live, held, rfl⟩, inTime, rfl⟩
    exact ⟨pos, List.mem_range.mpr inside,
      (inv.yields_iff inside key value _).mpr ⟨live, held, inTime, rfl⟩⟩

/-- A walk yields no key twice. -/
theorem Inv.iterateWithLife_nodup (inv : sh.Inv cfg) :
    ((sh.iterateWithLife cfg nowOff).map Prod.fst).Nodup := by
  unfold Shard.iterateWithLife
  rw [List.Nodup, List.pairwise_map, List.pairwise_filterMap]
  refine List.nodup_range.imp_of_mem fun {a b} memberA memberB apart => ?_
  rintro ⟨key, value, life⟩ yieldsA ⟨key', value', life'⟩ yieldsB rfl
  -- Two slots that yield one key would both be bound to it.
  have insideA := List.mem_range.mp memberA
  have insideB := List.mem_range.mp memberB
  have liveA := ((inv.yields_iff insideA _ _ _).mp yieldsA).1
  have liveB := ((inv.yields_iff insideB _ _ _).mp yieldsB).1
  exact apart (inv.table.chained.unique a insideA b insideB _ (by rw [liveA]; rfl)
    (by rw [liveB]; rfl))

end Walk

variable [Inhabited K] [Inhabited V] [DecidableEq K]

/-- A read returns, with the value the shard serves unless it has expired. -/
theorem Inv.getMemory (inv : sh.Inv cfg) (nowOff : Nat) (key : K) :
    ∃ sh' found deletions, sh.getMemory cfg nowOff key = .ok (sh', found, deletions) ∧
      Read cfg nowOff key sh sh' found ∧ Looked cfg nowOff key sh sh' deletions := by
  unfold Shard.getMemory
  rcases inv.housed.probe true key with ⟨pos, probed, alive⟩ | ⟨missed, absent⟩
  · simp only [probed, Bind.bind, Except.bind]
    split
    · -- The expired item is still in its slot when the mutex is taken.
      rename_i late
      have inside := sh.items.wrap_lt pos
      have normal := inv.table.sized.wrap_of_lt inside
      obtain ⟨sh', deletions, ran, removed, dropped⟩ :=
        inv.dropExpired nowOff key (sh.items.wrap pos)
      refine ⟨sh', none, deletions, by simp only [ran]; rfl,
        .dropped (serves_of_live alive) late (removed.congr fun other _ _ _ => ?_), .dropped dropped⟩
      have same : sh.items.itemAt (sh.items.wrap pos) = sh.items.itemAt pos := by
        simp only [FlatHashMap.itemAt, normal]
      simp only [alive, inside, same, late, and_true]
    · rename_i inTime
      have inTime' : lapsed (sh.items.itemAt pos).metaWord.expireOff nowOff = false := by
        simpa [MetaWord.expired] using inTime
      obtain ⟨kept, entry, life⟩ := touch_spec cfg nowOff (sh.items.itemAt pos)
        (sh.items.itemAt pos).metaWord
      obtain ⟨touchedInv, slots, overwrites⟩ := inv.touched alive kept entry
      exact ⟨_, _, _, rfl, .hit (serves_of_live alive) inTime' touchedInv rfl rfl rfl slots life
        overwrites, .hit (serves_of_live alive) touchedInv overwrites⟩
  · simp only [missed, Bind.bind, Except.bind]
    exact ⟨sh, none, [], rfl, .missed absent rfl, .dropped (.kept rfl)⟩

omit [Inhabited K] [Inhabited V] in
/-- Peeking returns what the shard serves, expired or not. -/
theorem Inv.peekMemory (inv : sh.Inv cfg) (key : K) :
    ∃ found, sh.peekMemory cfg key = .ok found ∧
      ∀ value, found = some value ↔ ∃ off, sh.items.Serves key value off := by
  rcases inv.housed.probe true key with ⟨pos, probed, alive⟩ | ⟨missed, absent⟩
  · refine ⟨_, by rw [Shard.peekMemory, probed]; rfl, fun value => ?_⟩
    simp only [Option.map_some, Option.some.injEq]
    constructor
    · rintro rfl
      exact ⟨_, serves_of_live alive⟩
    · rintro ⟨off, served⟩
      exact (inv.serves_unique (serves_of_live alive) served).1
  · refine ⟨_, by rw [Shard.peekMemory, missed]; rfl, fun value => ?_⟩
    simp only [Option.map_none, reduceCtorEq, false_iff]
    rintro ⟨off, served⟩
    exact absent value off served

omit [Inhabited K] [Inhabited V] in
/-- The presence test says whether the shard serves the key. -/
theorem Inv.livePresent (inv : sh.Inv cfg) (key : K) :
    ∃ present, sh.livePresent cfg key = .ok present ∧
      (present = true ↔ ∃ value off, sh.items.Serves key value off) := by
  rcases inv.housed.probe true key with ⟨pos, probed, alive⟩ | ⟨missed, absent⟩
  · exact ⟨true, by rw [Shard.livePresent, probed]; rfl, by
      simpa using ⟨_, _, serves_of_live alive⟩⟩
  · exact ⟨false, by rw [Shard.livePresent, missed]; rfl, by simpa using absent⟩

/-- Deleting a key stops it being served, and reports what it held. -/
theorem Inv.delete (inv : sh.Inv cfg) (key : K) :
    ∃ sh' deletions, sh.delete cfg key = .ok (sh', deletions) ∧
      Removed cfg (fun other => other = key) sh sh' ∧
      Reports cfg .invalidation sh.items key deletions := by
  obtain ⟨present, probed, decides⟩ := inv.livePresent key
  unfold Shard.delete
  simp only [probed, Bind.bind, Except.bind]
  cases present with
  | true => exact inv.deleteLocked key .invalidation
  | false =>
    have absent : ∀ value off, ¬ sh.items.Serves key value off := fun value off served =>
      Bool.false_ne_true (decides.mpr ⟨value, off, served⟩)
    exact ⟨sh, [], rfl, inv.absent_removed (fun _ same => same) absent, .inr ⟨absent, rfl⟩⟩

/-- Deleting a list of keys stops each of them being served. -/
theorem Inv.batchDelete (keys : List K) : ∀ {sh : Shard K V}, sh.Inv cfg →
    ∃ sh' deletions, sh.batchDelete cfg keys = .ok (sh', deletions) ∧
      Removed cfg (fun other => other ∈ keys) sh sh' := by
  induction keys with
  | nil => exact fun inv => ⟨_, [], rfl, (Removed.refl inv).congr fun _ _ _ _ => by simp⟩
  | cons key keys ih =>
    intro sh inv
    obtain ⟨mid, first, deleted, removed, _⟩ := inv.delete key
    obtain ⟨sh', rest, ran, removed'⟩ := ih removed.inv
    refine ⟨sh', first ++ rest, ?_, (removed.trans removed').congr fun _ _ _ _ => by simp⟩
    simp only [Shard.batchDelete, deleted, ran, Bind.bind, Except.bind, Pure.pure, Except.pure]

end Shard

end Memstash
