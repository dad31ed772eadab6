import Memstash.Cache.Batch
import Memstash.Cache.Lifetimes

/-! A batched lookup answers as the single lookups one after the other do, and leaves the same items. -/

namespace Memstash

open Probing Scan MetaWord

variable {K V : Type}

namespace FlatHashMap

/-- The slots of the second table that are not dead are those of the first. -/
def Keeps (t t' : FlatHashMap K V) : Prop :=
  t'.mask = t.mask ∧ ∀ i, (t'.slots i).metaWord.isDead = false → t'.slots i = t.slots i

theorem Keeps.refl (t : FlatHashMap K V) : t.Keeps t := ⟨rfl, fun _ _ => rfl⟩

theorem Keeps.trans {t t' t'' : FlatHashMap K V} (first : t.Keeps t') (second : t'.Keeps t'') :
    t.Keeps t'' := by
  refine ⟨second.1.trans first.1, fun i alive => ?_⟩
  have kept := second.2 i alive
  rw [kept] at alive ⊢
  exact first.2 i alive

/-- Putting a dead item into a slot keeps the others. -/
theorem keeps_put {t : FlatHashMap K V} {idx : Nat} {item : Item K V} (dead : item.metaWord.isDead = true) :
    t.Keeps (t.put idx item) := by
  refine ⟨rfl, fun i alive => ?_⟩
  rw [put_slots] at alive ⊢
  split at alive
  · rw [dead] at alive
    cases alive
  · rename_i away
    rw [if_neg away]

variable [Inhabited K] [Inhabited V]

/-- Handing tombstones back keeps the live slots. -/
theorem keeps_release_all (dropped : List QNode) :
    ∀ t : FlatHashMap K V, (∀ node ∈ dropped, (t.itemAt node.idx).metaWord.isDead = true) →
      t.Keeps (dropped.foldl (fun t node => t.put node.idx (t.itemAt node.idx).makeFree) t) := by
  induction dropped with
  | nil => exact fun t _ => .refl t
  | cons node rest ih =>
    intro t buried
    have dead : (t.itemAt node.idx).makeFree.metaWord.isDead = true := by
      rw [Item.makeFree_isDead]
      exact buried node (by simp)
    refine (keeps_put dead).trans (ih _ fun other member => ?_)
    -- The verdicts on the other nodes are unchanged.
    simp only [itemAt, put_wrap, put_slots]
    split
    · exact dead
    · exact buried other (by simp [member])

end FlatHashMap

namespace Shard

variable [Inhabited K] [Inhabited V] {cfg : ShardConfig K V} {sh sh' : Shard K V}

/-- Accounting a tombstone keeps the live slots. -/
theorem Inv.noteDead_keeps (inv : sh.Inv cfg) (ran : sh.noteDead = .ok sh') :
    sh.items.Keeps sh'.items := by
  unfold Shard.noteDead at ran
  dsimp only at ran
  split at ran
  · obtain ⟨policy, items, dropped, swept, _, _, perm, released⟩ :=
      @EvictionPolicy.sweep_spec K _ (fun t idx => (FlatHashMap.itemAt t idx).metaWord.isDead)
        (fun t idx => t.put idx (t.itemAt idx).makeFree) FlatHashMap.put_makeFree_isDead _ inv.policy sh.items
    rw [swept] at ran
    cases ran
    -- What the sweep drops was dead when it began.
    have buried : ∀ node ∈ dropped, (sh.items.itemAt node.idx).metaWord.isDead = true :=
      fun node member => (List.mem_filter.mp (perm.mem_iff.mp member)).2
    rw [released]
    exact FlatHashMap.keeps_release_all dropped sh.items buried
  · cases ran
    exact .refl _

variable [DecidableEq K]

/-- Dropping an expired item keeps the other live slots. -/
theorem Inv.dropExpired_keeps (inv : sh.Inv cfg) {nowOff : Nat} {key : K} {idx : Nat}
    {gone : List (Deletion K V)} (ran : sh.dropExpired cfg nowOff key idx = .ok (sh', gone)) :
    sh.items.Keeps sh'.items := by
  unfold Shard.dropExpired at ran
  rcases inv.housed.findSlot key with ⟨found, located, normal, alive⟩ | ⟨missed, _⟩
  · simp only [located, Bind.bind, Except.bind] at ran
    split at ran
    · rename_i drop
      have settled := inv.table.settled _ (sh.items.wrap_lt found)
      have buried : (sh.items.itemAt found).kill.metaWord.isDead = true := by
        have tomb := Item.kill_cell settled alive
        exact ((Item.cell_eq_tomb_iff _ _).mp tomb).2.1
      have named : (sh.items.itemAt found).entry.key = key := ((Item.cell_eq_live_iff _ _).mp alive).2.2
      -- The item is killed in its slot, and the sweep follows.
      have killed : sh.items.Keeps (sh.killed cfg found).items := by
        have put : sh.items.Keeps (sh.items.put found (sh.items.itemAt found).kill) :=
          FlatHashMap.keeps_put buried
        refine put.trans ⟨FlatHashMap.forgetDisplaced_mask _ _ _, fun i _ => ?_⟩
        rw [Shard.killed, FlatHashMap.forgetDisplaced_slots]
      obtain ⟨swept, noted, _⟩ := (inv.killed alive).noteDead
      have swept_keeps := (inv.killed alive).noteDead_keeps noted
      rw [Shard.killed, named] at noted
      rw [Shard.killAt, named, noted] at ran
      cases ran
      exact killed.trans swept_keeps
    · cases ran
      exact .refl _
  · simp only [missed, Bind.bind, Except.bind] at ran
    cases ran
    exact .refl _

end Shard

/-- The offset an item has after a hit. -/
def ShardConfig.lifeAfter (cfg : ShardConfig K V) (nowOff off : Nat) : Nat :=
  if cfg.refreshOnGet then cfg.expireOffsetAt nowOff else off

/-- An item after one hit or more at a clock value. -/
structure Item.Hit (cfg : ShardConfig K V) (nowOff : Nat) (old new : Item K V) : Prop where
  entry : new.entry = old.entry
  inTime : old.metaWord.expired nowOff = false
  life : new.metaWord.expireOff = cfg.lifeAfter nowOff old.metaWord.expireOff

/-- A hit that knows an item as it was, before any hits or after them, extends its lifetime as one that
knows it as it is. -/
theorem Item.Hit.touch {cfg : ShardConfig K V} {nowOff : Nat} {old item : Item K V} {word : MetaWord}
    (known : item = old ∨ Hit cfg nowOff old item) (inTime : old.metaWord.expired nowOff = false)
    (seen : word = old.metaWord ∨ word = item.metaWord) :
    Hit cfg nowOff old (cfg.touch nowOff item word) := by
  obtain ⟨_, entry, _⟩ := Shard.touch_spec cfg nowOff item word
  have held : item.entry = old.entry := by
    rcases known with same | hit
    · rw [same]
    · exact hit.entry
  refine ⟨entry.trans held, inTime, ?_⟩
  -- The lifetime the item has now, unless the compare-and-swap replaces it.
  have now : item.metaWord.expireOff = old.metaWord.expireOff ∧ item = old ∨
      item.metaWord.expireOff = cfg.lifeAfter nowOff old.metaWord.expireOff := by
    rcases known with same | hit
    · exact .inl ⟨by rw [same], same⟩
    · exact .inr hit.life
  obtain ⟨_, _, touched⟩ := Shard.touchWith_keeps item word
  unfold ShardConfig.touch
  dsimp only
  split
  · rename_i refresh
    have after : cfg.lifeAfter nowOff old.metaWord.expireOff = cfg.expireOffsetAt nowOff := by
      rw [ShardConfig.lifeAfter, if_pos refresh.1]
    by_cases loaded : item.metaWord = word
    · subst loaded
      obtain ⟨_, life, _⟩ := Item.touchAndRefreshExpire_identity item (Shard.expireOffsetAt_lt cfg nowOff).1
      have swapped : (item.touchAndRefreshExpire item.metaWord (cfg.expireOffsetAt nowOff)).2 = true := by
        simp [Item.touchAndRefreshExpire]
      generalize item.touchAndRefreshExpire item.metaWord (cfg.expireOffsetAt nowOff) = result
        at swapped life ⊢
      obtain ⟨fresh, flag⟩ := result
      obtain rfl : flag = true := swapped
      rw [after]
      exact life
    · -- The item has changed since it was seen, so an earlier hit has extended it already.
      have missed : item.touchAndRefreshExpire word (cfg.expireOffsetAt nowOff) = (item, false) := by
        simp [Item.touchAndRefreshExpire, loaded]
      rw [missed]
      show (item.touchWith word).metaWord.expireOff = _
      rw [touched]
      rcases now with ⟨_, same⟩ | life
      · rcases seen with first | last
        · exact absurd (by rw [first, same]) loaded
        · exact absurd last.symm loaded
      · exact life
  · rename_i refresh
    rw [touched]
    rcases now with ⟨life, same⟩ | life
    · rw [life, ShardConfig.lifeAfter]
      split
      · rename_i enabled
        -- The offset is the extended one by chance.
        have equal : cfg.expireOffsetAt nowOff = word.expireOff := not_not.mp fun apart => refresh ⟨enabled, apart⟩
        rcases seen with first | last
        · rw [equal, first]
        · rw [equal, last, same]
      · rfl
    · exact life

/-- A table some hits and removals after another, at one clock value. -/
structure FlatHashMap.Later (cfg : ShardConfig K V) (nowOff : Nat) (before now : FlatHashMap K V) : Prop where
  narrow : before.Narrows now
  slots : ∀ i < before.len, ∀ key, now.cells i = .live key →
    now.slots i = before.slots i ∨ Item.Hit cfg nowOff (before.slots i) (now.slots i)

namespace FlatHashMap

variable {cfg : ShardConfig K V} {nowOff : Nat} {before now : FlatHashMap K V}

theorem Later.refl (cfg : ShardConfig K V) (nowOff : Nat) (t : FlatHashMap K V) : Later cfg nowOff t t :=
  ⟨.refl t, fun _ _ _ _ => .inl rfl⟩

/-- A removal. -/
theorem Later.keeps {now' : FlatHashMap K V} (later : Later cfg nowOff before now) (keeps : now.Keeps now')
    (narrow : now.Narrows now') : Later cfg nowOff before now' := by
  refine ⟨later.narrow.trans narrow, fun i inside key live => ?_⟩
  have alive : (now'.slots i).metaWord.isDead = false := ((Item.cell_eq_live_iff _ _).mp live).2.1
  rw [keeps.2 i alive]
  exact later.slots i inside key (narrow.live i (by rw [later.narrow.size]; exact inside) key live)

/-- A hit on a live slot. -/
theorem Later.touch (later : Later cfg nowOff before now) {pos : Nat} {key : K}
    (live : now.cells (now.wrap pos) = .live key) {word : MetaWord}
    (seen : word = (before.slots (now.wrap pos)).metaWord ∨ word = (now.itemAt pos).metaWord)
    (inTime : word.expired nowOff = false)
    (narrow : now.Narrows (now.put pos (cfg.touch nowOff (now.itemAt pos) word))) :
    Item.Hit cfg nowOff (before.slots (now.wrap pos)) (cfg.touch nowOff (now.itemAt pos) word) ∧
      Later cfg nowOff before (now.put pos (cfg.touch nowOff (now.itemAt pos) word)) := by
  have inside : now.wrap pos < before.len := by
    rw [← later.narrow.size]
    exact now.wrap_lt pos
  have known := later.slots _ inside key live
  have early : (before.slots (now.wrap pos)).metaWord.expired nowOff = false := by
    rcases known with same | hit
    · rcases seen with first | last
      · rw [← first]
        exact inTime
      · rw [← same, ← itemAt, ← last]
        exact inTime
    · exact hit.inTime
  have hit := Item.Hit.touch known early seen
  refine ⟨hit, later.narrow.trans narrow, fun i bound other alive => ?_⟩
  rw [put_slots]
  split
  · rename_i here
    subst here
    exact .inr hit
  · exact later.slots i bound other (narrow.live i (by rw [later.narrow.size]; exact bound) other alive)

/-- The lifetime a live item has now, and the one a hit leaves it. -/
theorem Later.lifeAfter (later : Later cfg nowOff before now) {i : Nat} (inside : i < before.len)
    {key : K} (live : now.cells i = .live key) :
    cfg.lifeAfter nowOff (now.slots i).metaWord.expireOff
      = cfg.lifeAfter nowOff (before.slots i).metaWord.expireOff := by
  rcases later.slots i inside key live with same | hit
  · rw [same]
  · rw [hit.life]
    unfold ShardConfig.lifeAfter
    split <;> rfl

/-- An item that was in time still is, unless hits leave their items lapsed. -/
theorem Later.expired_eq (later : Later cfg nowOff before now) {i : Nat} (inside : i < before.len)
    {key : K} (live : now.cells i = .live key)
    (lasting : cfg.refreshOnGet = true → lapsed (cfg.expireOffsetAt nowOff) nowOff = false) :
    (now.slots i).metaWord.expired nowOff = (before.slots i).metaWord.expired nowOff := by
  rcases later.slots i inside key live with same | hit
  · rw [same]
  · rw [hit.inTime]
    unfold MetaWord.expired
    rw [hit.life, ShardConfig.lifeAfter]
    split
    · rename_i refresh
      exact lasting refresh
    · exact hit.inTime

end FlatHashMap

/-- What a lookup of a key answers, and leaves: an item in time is found, and gets the lifetime of a
hit; a lapsed one is dropped. -/
structure Fetched (cfg : ShardConfig K V) (nowOff : Nat) (key : K) (before after : K → V → Nat → Prop)
    (found : Option V) : Prop where
  answer : ∀ value, found = some value ↔ ∃ off, before key value off ∧ lapsed off nowOff = false
  own : ∀ value life, after key value life ↔
    ∃ off, before key value off ∧ lapsed off nowOff = false ∧ life = cfg.lifeAfter nowOff off
  others : ∀ other value off, other ≠ key → (after other value off ↔ before other value off)

/-- Lookups in what serves alike answer alike, and leave what serves alike. -/
theorem Fetched.alike {cfg : ShardConfig K V} {nowOff : Nat} {key : K}
    {before before' after after' : K → V → Nat → Prop} {found found' : Option V}
    (fetched : Fetched cfg nowOff key before after found)
    (fetched' : Fetched cfg nowOff key before' after' found')
    (alike : ∀ other value off, before other value off ↔ before' other value off) :
    found = found' ∧ ∀ other value off, after other value off ↔ after' other value off := by
  refine ⟨Option.ext fun value => ?_, fun other value off => ?_⟩
  · rw [fetched.answer, fetched'.answer]
    simp only [alike]
  · by_cases same : other = key
    · subst same
      rw [fetched.own, fetched'.own]
      simp only [alike]
    · rw [fetched.others _ _ _ same, fetched'.others _ _ _ same]
      exact alike other value off

namespace FlatHashMap

variable [DecidableEq K] {hash : K → BitVec 64} {t : FlatHashMap K V}

/-- A walk that finds no candidate is a lookup that finds nothing. -/
theorem probe_of_candidate_none (inv : t.Inv hash) (room : occupied t.len t.cells < t.len) {key : K}
    (walked : t.candidate (hash key) = .ok none) : t.probe true (hash key) key = .ok none := by
  obtain ⟨steps, small, result, before, ends, scanned⟩ := candidate_ends inv room key
  rw [scanned] at walked
  subst walked
  refine scan_eq_of_first small (fun e short => ?_) ?_
  · -- A slot the walk passes has another tag.
    have passed := before e short
    unfold candidateVisit at passed
    unfold probeVisit
    dsimp only at passed ⊢
    split at passed
    · cases passed
    · rename_i goesOn
      rw [not_or] at goesOn
      split at passed
      · cases passed
      · rename_i foreign
        rw [if_neg goesOn.2, if_neg goesOn.1, if_pos foreign]
  · unfold candidateVisit at ends
    unfold probeVisit
    dsimp only at ends ⊢
    split at ends
    · rename_i stops
      split
      · rfl
      · rename_i goesOn
        rw [if_pos (stops.resolve_right goesOn)]
    · split at ends <;> cases ends

end FlatHashMap

namespace Shard

variable {cfg : ShardConfig K V} {sh : Shard K V} {nowOff : Nat} {key : K} {before : FlatHashMap K V}

theorem fetched_none (absent : ∀ value off, ¬ sh.items.Serves key value off) :
    Fetched cfg nowOff key sh.items.Serves sh.items.Serves none := by
  refine ⟨fun value => ?_, fun value life => ?_, fun _ _ _ _ => Iff.rfl⟩
  · simp [absent]
  · simp [absent]

/-- Dropping a lapsed item. -/
theorem Inv.fetched_dropped (inv : sh.Inv cfg) {sh' : Shard K V} {value : V} {off : Nat}
    (served : sh.items.Serves key value off) (late : lapsed off nowOff = true)
    (removed : Removed cfg (fun other => other = key) sh sh') :
    Fetched cfg nowOff key sh.items.Serves sh'.items.Serves none := by
  have lapses : ∀ held life, sh.items.Serves key held life → lapsed life nowOff = true := by
    intro held life serves
    rw [(inv.serves_unique serves served).2]
    exact late
  refine ⟨fun held => ?_, fun held life => ?_, fun other held life apart => ?_⟩
  · simp only [reduceCtorEq, false_iff, not_exists, not_and, Bool.not_eq_false]
    exact lapses held
  · rw [removed.serves]
    simp only [not_true_eq_false, false_and, false_iff, not_exists, not_and]
    intro earlier serves inTime
    rw [lapses held earlier serves] at inTime
    cases inTime
  · rw [removed.serves]
    simp [apart]

/-- Serving an item in time. -/
theorem Inv.fetched_hit (inv : sh.Inv cfg) {items : FlatHashMap K V} {value : V} {off : Nat}
    (served : sh.items.Serves key value off) (inTime : lapsed off nowOff = false)
    (overwrites : Overwrites key value (cfg.lifeAfter nowOff off) sh.items items) :
    Fetched cfg nowOff key sh.items.Serves items.Serves (some value) := by
  refine ⟨fun held => ?_, fun held life => ?_, fun other held life apart => ?_⟩
  · constructor
    · rintro ⟨⟩
      exact ⟨off, served, inTime⟩
    · rintro ⟨life, serves, _⟩
      rw [(inv.serves_unique serves served).1]
  · rw [overwrites]
    constructor
    · rintro (⟨_, rfl, rfl⟩ | ⟨apart, _⟩)
      · exact ⟨off, served, inTime, rfl⟩
      · exact absurd rfl apart
    · rintro ⟨earlier, serves, _, rfl⟩
      obtain ⟨rfl, rfl⟩ := inv.serves_unique serves served
      exact .inl ⟨rfl, rfl, rfl⟩
  · rw [overwrites]
    simp [apart]

/-- A hit on a live item, with the word it has now or had when the hits began. -/
theorem Inv.hit (inv : sh.Inv cfg) (later : before.Later cfg nowOff sh.items) {pos : Nat}
    (live : sh.items.cells (sh.items.wrap pos) = .live key) {word : MetaWord}
    (seen : word = (before.slots (sh.items.wrap pos)).metaWord ∨ word = (sh.items.itemAt pos).metaWord)
    (inTime : word.expired nowOff = false)
    (lasting : cfg.refreshOnGet = true → lapsed (cfg.expireOffsetAt nowOff) nowOff = false) :
    let items := sh.items.put pos (cfg.touch nowOff (sh.items.itemAt pos) word)
    Inv cfg { sh with items := items } ∧ before.Later cfg nowOff items ∧
      Fetched cfg nowOff key sh.items.Serves items.Serves (some (sh.items.itemAt pos).entry.value) := by
  obtain ⟨kept, entry, _⟩ := touch_spec cfg nowOff (sh.items.itemAt pos) word
  obtain ⟨touched, narrow, overwrites⟩ := inv.touched live kept entry
  obtain ⟨hit, later'⟩ := later.touch live seen inTime narrow
  have inside : sh.items.wrap pos < before.len := by
    rw [← later.narrow.size]
    exact sh.items.wrap_lt pos
  -- The item is in time now, and gets the lifetime it would get without the earlier hits.
  have inTimeNow := later.expired_eq inside live lasting
  rw [hit.inTime] at inTimeNow
  rw [hit.life, ← later.lifeAfter inside live] at overwrites
  exact ⟨touched, later', inv.fetched_hit (serves_of_live live) inTimeNow overwrites⟩

variable [Inhabited K] [Inhabited V] [DecidableEq K]

/-- Dropping a live item that has lapsed. -/
theorem Inv.drop (inv : sh.Inv cfg) (later : before.Later cfg nowOff sh.items) {pos : Nat}
    (live : sh.items.cells (sh.items.wrap pos) = .live key)
    (late : (sh.items.itemAt pos).metaWord.expired nowOff = true) :
    ∃ sh' gone, sh.dropExpired cfg nowOff key (sh.items.wrap pos) = .ok (sh', gone) ∧ sh'.Inv cfg ∧
      before.Later cfg nowOff sh'.items ∧ Fetched cfg nowOff key sh.items.Serves sh'.items.Serves none := by
  have inside := sh.items.wrap_lt pos
  have same : sh.items.itemAt (sh.items.wrap pos) = sh.items.itemAt pos := by
    simp only [FlatHashMap.itemAt, inv.table.sized.wrap_of_lt inside]
  obtain ⟨sh', gone, ran, removed, _⟩ := inv.dropExpired nowOff key (sh.items.wrap pos)
  have without : Removed cfg (fun other => other = key) sh sh' :=
    removed.congr fun other _ _ _ => by simp only [live, inside, same, late, and_true]
  exact ⟨sh', gone, ran, without.inv, later.keeps (inv.dropExpired_keeps ran) without.slots,
    inv.fetched_dropped (serves_of_live live) late without⟩

/-- A lookup on its own. -/
theorem Inv.getMemory_fetched (inv : sh.Inv cfg) (later : before.Later cfg nowOff sh.items)
    (lasting : cfg.refreshOnGet = true → lapsed (cfg.expireOffsetAt nowOff) nowOff = false) (key : K) :
    ∃ sh' found gone, sh.getMemory cfg nowOff key = .ok (sh', found, gone) ∧ sh'.Inv cfg ∧
      before.Later cfg nowOff sh'.items ∧
      Fetched cfg nowOff key sh.items.Serves sh'.items.Serves found := by
  unfold Shard.getMemory
  rcases inv.housed.probe true key with ⟨pos, probed, live⟩ | ⟨missed, absent⟩
  · simp only [probed, Bind.bind, Except.bind]
    split
    · rename_i late
      obtain ⟨sh', gone, ran, inv', later', fetched⟩ := inv.drop later live late
      exact ⟨sh', none, gone, by simp only [ran]; rfl, inv', later', fetched⟩
    · rename_i inTime
      obtain ⟨inv', later', fetched⟩ := inv.hit later live (.inr rfl) (by simpa using inTime) lasting
      exact ⟨_, _, _, rfl, inv', later', fetched⟩
  · simp only [missed, Bind.bind, Except.bind]
    exact ⟨sh, none, [], rfl, inv, later, fetched_none absent⟩

/-- Validating a candidate answers as a lookup on its own does. -/
theorem Inv.validate_fetched (inv : sh.Inv cfg) (later : before.Later cfg nowOff sh.items)
    (lasting : cfg.refreshOnGet = true → lapsed (cfg.expireOffsetAt nowOff) nowOff = false) {key : K}
    (table : before.Inv cfg.keyHash) {found : Option Candidate}
    (noted : ∀ seen, found = some seen → before.Noted (cfg.keyHash key) seen)
    (absent : found = none → ∀ value off, ¬ before.Serves key value off) :
    ∃ sh' answer gone, sh.validate cfg nowOff key found = .ok (sh', answer, gone) ∧ sh'.Inv cfg ∧
      before.Later cfg nowOff sh'.items ∧
      Fetched cfg nowOff key sh.items.Serves sh'.items.Serves answer := by
  cases found with
  | none =>
    refine ⟨sh, none, [], rfl, inv, later, fetched_none fun value off served => ?_⟩
    -- A slot that is live now was live when the walk passed.
    obtain ⟨i, inside, live, _⟩ := served
    rw [later.narrow.size] at inside
    exact absent rfl _ _ ⟨i, inside, later.narrow.live i inside key live, rfl, rfl⟩
  | some seen =>
    have note := noted seen rfl
    unfold Shard.validate
    dsimp only
    split
    · exact inv.getMemory_fetched later lasting key
    · rename_i usable
      simp only [not_or, not_not, Bool.not_eq_false] at usable
      obtain ⟨valid, named⟩ := usable
      have inside : seen.pos < sh.items.len := by
        rw [later.narrow.size]
        exact note.inside
      have normal := inv.table.sized.wrap_of_lt inside
      obtain ⟨live, _⟩ := inv.candidate_live table later.narrow note valid
      rw [named] at live
      have here : sh.items.cells seen.pos = .live key := by rw [← normal]; exact live
      -- The item is as expired as when it was noted.
      have still := later.expired_eq note.inside here lasting
      rw [← note.word] at still
      split
      · rename_i late
        rw [late] at still
        obtain ⟨sh', gone, ran, inv', later', fetched⟩ := inv.drop later live (by
          rw [FlatHashMap.itemAt, normal]
          exact still)
        rw [normal] at ran
        exact ⟨sh', none, gone, by rw [ran]; rfl, inv', later', fetched⟩
      · rename_i inTime
        have first : seen.word = (before.slots (sh.items.wrap seen.pos)).metaWord := by
          rw [normal]
          exact note.word
        obtain ⟨inv', later', fetched⟩ := inv.hit later live (.inl first) (by simpa using inTime) lasting
        exact ⟨_, _, _, rfl, inv', later', fetched⟩

end Shard

namespace MemoryLevel

variable [Inhabited K] [Inhabited V] [DecidableEq K]

/-- The keys of a batch that were not found. -/
def missing (answers : List (K × Option V)) : List K :=
  answers.filterMap fun (key, found) => if found.isNone then some key else none

variable {c : MemoryLevel K V}

omit [Inhabited K] [Inhabited V] [DecidableEq K] in
/-- A lookup in the shard of a key is a lookup in the level. -/
theorem Inv.put_fetched (inv : c.Inv) {nowOff : Nat} {key : K} {sh : Shard K V} {found : Option V}
    (shard : sh.Inv c.cfg)
    (fetched : Fetched c.cfg nowOff key (c.shards (c.keyShard key)).items.Serves sh.items.Serves found) :
    (c.put (c.keyShard key) sh).Inv ∧
      Fetched c.cfg nowOff key c.Serves (c.put (c.keyShard key) sh).Serves found := by
  have fades : Fades {other | other ≠ key} c (c.put (c.keyShard key) sh) := by
    refine inv.put_fades shard (fun other value off served => ?_) fun member => absurd rfl member
    by_cases same : other = key
    · exact .inl same
    · exact .inr ((fetched.others other value off same).mp served)
  refine ⟨fades.inv, fetched.answer, fun value life => ?_, fun other value off apart => ?_⟩
  · rw [put_serves, if_pos rfl]
    exact fetched.own value life
  · rw [put_serves]
    split
    · rename_i here
      rw [fetched.others other value off apart, Serves, here]
    · rfl

/-- Two levels in the middle of one batch: one is validating a group that was walked in a third, the
other looks its keys up one by one. -/
structure Abreast (nowOff : Nat) (walked c c' : MemoryLevel K V) : Prop where
  inv : c.Inv
  inv' : c'.Inv
  cfg : c.cfg = walked.cfg
  cfg' : c'.cfg = walked.cfg
  mask : c.shardMask = walked.shardMask
  later : ∀ i < walked.numShards,
    (walked.shards i).items.Later walked.cfg nowOff (c.shards i).items
  alike : ∀ key value off, c.Serves key value off ↔ c'.Serves key value off

omit [Inhabited K] [Inhabited V] [DecidableEq K] in
theorem Abreast.start {c' : MemoryLevel K V} (inv : c.Inv) (inv' : c'.Inv) (cfg : c'.cfg = c.cfg)
    (nowOff : Nat) (alike : ∀ key value off, c.Serves key value off ↔ c'.Serves key value off) :
    Abreast nowOff c c c' :=
  ⟨inv, inv', rfl, cfg, rfl, fun _ _ => .refl _ _ _, alike⟩

/-- The next key of a group is answered alike. -/
theorem Abreast.next {nowOff : Nat} {walked c c' : MemoryLevel K V} (abreast : Abreast nowOff walked c c')
    (before : walked.Inv) {key : K} {found : Option Candidate}
    (lasting : walked.cfg.refreshOnGet = true →
      lapsed (walked.cfg.expireOffsetAt nowOff) nowOff = false)
    (candidate : (walked.shards (walked.keyShard key)).items.candidate (walked.cfg.keyHash key) = .ok found) :
    ∃ d d' answer gone gone',
      (c.onShard key fun sh => sh.validate c.cfg nowOff key found) = .ok (d, answer, gone) ∧
      c'.getMemory nowOff key = .ok (d', answer, gone') ∧ Abreast nowOff walked d d' := by
  have shard := before.shard key
  have quarter := shard.housed.occupied_le
  obtain ⟨large, _, _⟩ := shard.table.sized.bounds
  -- What the walk noted, or that it went past nothing.
  obtain ⟨found', walk, noted⟩ := FlatHashMap.candidate_spec shard.table (by omega) key
  cases candidate.symm.trans walk
  have absent : found = none →
      ∀ value off, ¬ (walked.shards (walked.keyShard key)).items.Serves key value off := by
    rintro rfl
    have missed := FlatHashMap.probe_of_candidate_none shard.table (by omega) candidate
    rcases shard.housed.probe true key with ⟨pos, hit, _⟩ | ⟨_, absent⟩
    · cases missed.symm.trans hit
    · exact absent
  have here : c.keyShard key = walked.keyShard key := by
    simp only [keyShard, shardOf, abreast.cfg, abreast.mask]
  have inside := walked.keyShard_lt key
  have own := abreast.inv.shard key
  rw [here, abreast.cfg] at own
  obtain ⟨sh, answer, gone, ran, shInv, later, fetched⟩ :=
    own.validate_fetched (abreast.later _ inside) lasting shard.table noted absent
  rw [← here, ← abreast.cfg] at ran
  rw [← here, ← abreast.cfg] at fetched
  rw [← abreast.cfg] at shInv
  obtain ⟨inv, fetched⟩ := abreast.inv.put_fetched shInv fetched
  -- The lookup on its own, in the other level.
  have own' := abreast.inv'.shard key
  obtain ⟨sh', answer', gone', ran', shInv', _, fetched'⟩ :=
    own'.getMemory_fetched (.refl _ _ _) (by rw [abreast.cfg']; exact lasting) key
  obtain ⟨inv', fetched'⟩ := abreast.inv'.put_fetched shInv' fetched'
  rw [abreast.cfg', ← abreast.cfg] at fetched'
  obtain ⟨rfl, alike⟩ := fetched.alike fetched' abreast.alike
  refine ⟨_, _, answer, gone, gone', onShard_eq ran, onShard_eq ran', inv, inv', abreast.cfg,
    abreast.cfg', abreast.mask, fun i bound => ?_, alike⟩
  by_cases changed : i = c.keyShard key
  · subst changed
    rw [put_here, here]
    exact later
  · rw [put_others _ _ changed]
    exact abreast.later i bound

end MemoryLevel

end Memstash
