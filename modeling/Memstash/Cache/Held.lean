import Memstash.Cache.Level

/-! What a first level holds, key by key, and writes it has room for. -/

namespace Memstash

open Scan

variable {K V : Type}

/-- A write to the first level: the clock it sees, the item, and the expiration offset it gets. -/
structure MemoryWrite (K V : Type) where
  nowOff : Nat
  key : K
  value : V
  off : Nat
  deriving DecidableEq, Repr

/-- The value the last of some writes gives a key. -/
def latest [DecidableEq K] (writes : List (MemoryWrite K V)) (key : K) : Option V :=
  ((writes.filter fun write => write.key = key).getLast?).map MemoryWrite.value

namespace Shard

variable {cfg : ShardConfig K V} {sh : Shard K V}

/-- A key has a share of its shard's weight, which is not more than all of it. -/
theorem Inv.share_le (inv : sh.Inv cfg) (key : K) :
    ∃ cost, Share cfg sh.items key cost ∧ cost ≤ sh.weight := by
  by_cases served : ∃ held life, sh.items.Serves key held life
  · obtain ⟨held, life, i, inside, live, rfl, rfl⟩ := served
    refine ⟨_, .inl ⟨_, _, ⟨i, inside, live, rfl, rfl⟩, rfl⟩, ?_⟩
    -- The item's weight is one term of the total.
    have share : (sh.items.slots i).costOne cfg = cfg.rawCost key (sh.items.slots i).entry.value := by
      have cell : (sh.items.slots i).cell = .live key := live
      rw [Item.costOne, cell]
      simp only [((Item.cell_eq_live_iff _ _).mp cell).2.2]
    rw [inv.weight, ← share]
    exact Finset.single_le_sum (f := fun i => (sh.items.slots i).costOne cfg)
      (fun j _ => Item.costOne_nonneg cfg _) (Finset.mem_range.mpr inside)
  · refine ⟨0, .inr ⟨fun held life serves => served ⟨held, life, serves⟩, rfl⟩, ?_⟩
    rw [inv.weight]
    exact Finset.sum_nonneg fun i _ => Item.costOne_nonneg cfg _

end Shard

variable [Inhabited K] [Inhabited V] [DecidableEq K]

namespace MemoryLevel

variable {c : MemoryLevel K V}

open Classical in
/-- The value a first level holds for a key, if any. -/
noncomputable def held (c : MemoryLevel K V) (key : K) : Option V :=
  if served : ∃ value off, c.Serves key value off then some served.choose else none

omit [Inhabited K] [Inhabited V] [DecidableEq K] in
/-- The value held is the value served. -/
theorem Inv.held_eq_some (inv : c.Inv) {key : K} {value : V} :
    c.held key = some value ↔ ∃ off, c.Serves key value off := by
  unfold held
  by_cases served : ∃ value off, c.Serves key value off
  · obtain ⟨off, chosen⟩ := served.choose_spec
    rw [dif_pos served, Option.some_inj]
    refine ⟨fun same => ⟨off, same ▸ chosen⟩, fun ⟨off', other⟩ => ?_⟩
    exact ((inv.shard key).serves_unique chosen other).1
  · rw [dif_neg served]
    exact ⟨nofun, fun ⟨off, other⟩ => absurd ⟨value, off, other⟩ served⟩

omit [Inhabited K] [Inhabited V] [DecidableEq K] in
/-- A level that serves a key only as before holds what it did, or nothing. -/
theorem Inv.held_of_serves {c' : MemoryLevel K V} (inv : c.Inv) (inv' : c'.Inv) {key : K}
    (before : ∀ value off, c'.Serves key value off → ∃ off, c.Serves key value off) :
    c'.held key = c.held key ∨ c'.held key = none := by
  cases found : c'.held key with
  | none => exact .inr rfl
  | some value =>
    obtain ⟨off, served⟩ := inv'.held_eq_some.mp found
    exact .inl (inv.held_eq_some.mpr (before value off served)).symm

omit [Inhabited K] [Inhabited V] [DecidableEq K] in
/-- An operation on one shard that serves nothing new but under its key leaves the other keys as they
were, or without an item. -/
theorem Inv.put_held (inv : c.Inv) (touched : K) {sh : Shard K V} (shard : sh.Inv c.cfg)
    (within : ∀ other value off, sh.items.Serves other value off →
      other = touched ∨ (c.shards (c.keyShard touched)).items.Serves other value off) :
    (c.put (c.keyShard touched) sh).Inv ∧ ∀ other, other ≠ touched →
      (c.put (c.keyShard touched) sh).held other = c.held other ∨
        (c.put (c.keyShard touched) sh).held other = none := by
  have fades : Fades {other | other ≠ touched} c (c.put (c.keyShard touched) sh) :=
    inv.put_fades shard within fun member => absurd rfl member
  exact ⟨fades.inv, fun other apart => inv.held_of_serves fades.inv fun value off served =>
    ⟨off, fades.serves other apart value off served⟩⟩

omit [Inhabited K] [Inhabited V] [DecidableEq K] in
/-- What the level holds for a key is decided in the key's shard. -/
theorem held_put {key : K} {sh : Shard K V} (inv : (c.put (c.keyShard key) sh).Inv) {value : V} :
    (c.put (c.keyShard key) sh).held key = some value ↔ ∃ off, sh.items.Serves key value off := by
  have here : (c.put (c.keyShard key) sh).shards ((c.put (c.keyShard key) sh).keyShard key) = sh :=
    put_here c (c.keyShard key) sh
  rw [inv.held_eq_some]
  unfold Serves
  rw [here]

omit [Inhabited K] [Inhabited V] [DecidableEq K] in
/-- Levels that serve a key alike hold the same for it. -/
theorem held_congr {c' : MemoryLevel K V} (inv' : c'.Inv) (inv : c.Inv) {key : K}
    (alike : ∀ value off, c'.Serves key value off ↔ c.Serves key value off) :
    c'.held key = c.held key := by
  refine Option.ext fun value => ?_
  rw [inv'.held_eq_some, inv.held_eq_some]
  exact exists_congr fun off => alike value off

/-- A lookup answers with what is held, unless it has expired and is dropped. -/
theorem Inv.getMemory_held (inv : c.Inv) (nowOff : Nat) (key : K) :
    ∃ c' found deletions, c.getMemory nowOff key = .ok (c', found, deletions) ∧ c'.Inv ∧ c'.cfg = c.cfg ∧
      (∀ value, found = some value → c.held key = some value) ∧
      c'.held = Function.update c.held key found := by
  obtain ⟨sh, found, deletions, ran, read, _⟩ := (inv.shard key).getMemory nowOff key
  refine ⟨_, found, deletions, MemoryLevel.onShard_eq ran, ?_⟩
  -- The key is held as the lookup found it, and the other keys as before.
  have update : ∀ {c' : MemoryLevel K V}, c'.Inv → (∀ value, c'.held key = some value ↔ found = some value) →
      (∀ other, other ≠ key → ∀ value off, c'.Serves other value off ↔ c.Serves other value off) →
      c'.held = Function.update c.held key found := by
    intro c' inv' own others
    funext other
    by_cases same : other = key
    · subst same
      rw [Function.update_self]
      exact Option.ext own
    · rw [Function.update_of_ne same]
      exact held_congr inv' inv (others other same)
  cases read with
  | missed absent same =>
    subst same
    have unchanged : c.put (c.keyShard key) (c.shards (c.keyShard key)) = c := by simp [put]
    rw [unchanged]
    refine ⟨inv, rfl, by rintro _ ⟨⟩, update inv (fun value => ?_) fun _ _ _ _ => Iff.rfl⟩
    rw [inv.held_eq_some]
    simp only [reduceCtorEq, iff_false, not_exists]
    exact absent value
  | dropped served late removed =>
    obtain ⟨inv', serves⟩ := inv.put_without removed
    refine ⟨inv', rfl, by rintro _ ⟨⟩, update inv' (fun value => ?_) fun other apart value off => ?_⟩
    · rw [inv'.held_eq_some]
      simp [serves]
    · rw [serves]
      simp [apart]
  | @hit value off life served inTime shard _ _ _ _ _ overwrites =>
    obtain ⟨inv', serves⟩ := inv.put_overwrites shard overwrites
    refine ⟨inv', rfl, fun held same => ?_, update inv' (fun held => ?_) fun other apart value off => ?_⟩
    · rw [← same]
      exact inv.held_eq_some.mpr ⟨off, served⟩
    · rw [inv'.held_eq_some]
      simp only [serves]
      constructor
      · rintro ⟨_, ⟨_, rfl, _⟩ | ⟨apart, _⟩⟩
        · rfl
        · exact absurd rfl apart
      · rintro ⟨⟩
        exact ⟨life, .inl ⟨trivial, rfl, rfl⟩⟩
    · rw [serves]
      simp [apart]

omit [DecidableEq K] in
/-- A new cache holds nothing. -/
theorem held_build {cfg : Config K V} (capacity : 0 ≤ cfg.memoryCapacity) (around : Surroundings K V) (key : K) :
    (cfg.build around).held key = none := by
  refine Option.eq_none_iff_forall_ne_some.mpr fun value held => ?_
  obtain ⟨off, served⟩ := (inv_build capacity around).held_eq_some.mp held
  exact not_serves_build capacity around key value off served

/-- A lookup of a key that is not held finds nothing, and changes nothing. -/
theorem Inv.getMemory_missing (inv : c.Inv) (nowOff : Nat) {key : K} (absent : c.held key = none) :
    ∃ deletions, c.getMemory nowOff key = .ok (c, none, deletions) := by
  have unserved : ∀ value off, ¬ c.Serves key value off := by
    intro value off served
    rw [inv.held_eq_some.mpr ⟨off, served⟩] at absent
    cases absent
  obtain ⟨sh, found, deletions, ran, read, _⟩ := (inv.shard key).getMemory nowOff key
  have looked : c.getMemory nowOff key = _ := MemoryLevel.onShard_eq ran
  cases read with
  | missed _ same =>
    subst same
    exact ⟨deletions, by rw [looked]; simp [put]⟩
  | dropped served _ _ => exact absurd served (unserved _ _)
  | hit served _ _ _ _ _ _ _ _ => exact absurd served (unserved _ _)

/-- Perform writes one after the other. -/
def storeAll : MemoryLevel K V → List (MemoryWrite K V) →
    Except Fault (MemoryLevel K V × List (Deletion K V))
  | c, [] => .ok (c, [])
  | c, write :: rest => do
    let (c, deletions) ← c.setMemory write.nowOff write.key write.value write.off
    let (c, later) ← storeAll c rest
    return (c, deletions ++ later)

/-- A write finds its shard writable, and needs nothing evicted. -/
structure HasRoom (c : MemoryLevel K V) (write : MemoryWrite K V) : Prop where
  /-- The offset fits its field. -/
  small : write.off < 2 ^ 18
  writable : (c.shards (c.keyShard write.key)).Writable c.cfg write.key write.value
  light : ∀ cost, Shard.Share c.cfg (c.shards (c.keyShard write.key)).items write.key cost →
    (c.shards (c.keyShard write.key)).weight - cost + c.cfg.rawCost write.key write.value
      ≤ (c.shards (c.keyShard write.key)).cap

/-- Each of some writes has room in the level the ones before it leave. -/
def HasRoomFor : MemoryLevel K V → List (MemoryWrite K V) → Prop
  | _, [] => True
  | c, write :: rest => c.HasRoom write ∧ ∀ c' deletions,
      c.setMemory write.nowOff write.key write.value write.off = .ok (c', deletions) →
      HasRoomFor c' rest

omit [Inhabited K] [Inhabited V] [DecidableEq K] in
theorem Inv.light_of_room (inv : c.Inv) {write : MemoryWrite K V} (room : c.HasRoom write) :
    c.cfg.rawCost write.key write.value ≤ (c.shards (c.keyShard write.key)).cap := by
  obtain ⟨cost, share, within⟩ := (inv.shard write.key).share_le write.key
  have fits := room.light cost share
  omega

/-- A write with room serves its value, and the other keys are served as before. -/
theorem Inv.setMemory_overwrites (inv : c.Inv) {write : MemoryWrite K V} (room : c.HasRoom write) :
    ∃ c' deletions life, c.setMemory write.nowOff write.key write.value write.off = .ok (c', deletions) ∧
      c'.Inv ∧ c'.cfg = c.cfg ∧
      Shard.Lifetime (c.shards (c.keyShard write.key)).items write.key write.off life ∧
      ∀ other held off, c'.Serves other held off ↔
        (other = write.key ∧ held = write.value ∧ off = life) ∨
          (other ≠ write.key ∧ c.Serves other held off) := by
  have light := inv.light_of_room room
  obtain ⟨sh, deletions, ran, wrote⟩ := (inv.shard write.key).setMemory write.nowOff write.key
    write.value room.small fun _ => room.writable
  -- Nothing is too heavy and nothing is evicted, so the write is an overwrite of one key.
  obtain ⟨life, lifetime, shard, overwrites⟩ : ∃ life,
      Shard.Lifetime (c.shards (c.keyShard write.key)).items write.key write.off life ∧ sh.Inv c.cfg ∧
      Shard.Overwrites write.key write.value life (c.shards (c.keyShard write.key)).items sh.items := by
    cases wrote with
    | oversized heavy _ => omega
    | @stored mid life gone cost _ share shard cap weight _ lifetime overwrites _ _ still =>
      have fits := room.light cost share
      obtain rfl := still (by rw [weight, cap]; exact fits)
      exact ⟨life, lifetime, shard, overwrites⟩
  obtain ⟨inv', serves⟩ := inv.put_overwrites shard overwrites
  exact ⟨c.put (c.keyShard write.key) sh, deletions, life, MemoryLevel.onShard_eq ran, inv', rfl,
    lifetime, serves⟩

/-- A write with room is held afterwards, and the other keys keep what they had. -/
theorem Inv.setMemory_update (inv : c.Inv) {write : MemoryWrite K V} (room : c.HasRoom write) :
    ∃ c' deletions, c.setMemory write.nowOff write.key write.value write.off = .ok (c', deletions) ∧
      c'.Inv ∧ c'.cfg = c.cfg ∧ c'.held = Function.update c.held write.key (some write.value) := by
  obtain ⟨c', deletions, life, ran, inv', cfg, _, serves⟩ := inv.setMemory_overwrites room
  refine ⟨c', deletions, ran, inv', cfg, ?_⟩
  funext other
  by_cases same : other = write.key
  · subst same
    rw [Function.update_self]
    exact inv'.held_eq_some.mpr ⟨life, (serves _ _ _).mpr (.inl ⟨rfl, rfl, rfl⟩)⟩
  · rw [Function.update_of_ne same]
    apply held_congr inv' inv
    intro value off
    rw [serves]
    simp [same]

omit [Inhabited K] [Inhabited V] in
/-- The last value after one more write in front. -/
theorem latest_cons (write : MemoryWrite K V) (rest : List (MemoryWrite K V)) (key : K) :
    latest (write :: rest) key
      = (latest rest key).or (if write.key = key then some write.value else none) := by
  unfold latest
  by_cases same : write.key = key
  · rw [List.filter_cons_of_pos (by simpa using same), List.getLast?_cons, if_pos same]
    cases ((rest.filter fun write => write.key = key).getLast?) <;> rfl
  · rw [List.filter_cons_of_neg (by simpa using same), if_neg same, Option.or_none]

/-- Writes with room leave the last value for every key written, and the other keys as they were. -/
theorem Inv.storeAll_latest (inv : c.Inv) {writes : List (MemoryWrite K V)} (room : c.HasRoomFor writes) :
    ∃ c' deletions, c.storeAll writes = .ok (c', deletions) ∧ c'.Inv ∧ c'.cfg = c.cfg ∧
      ∀ key, c'.held key = (latest writes key).or (c.held key) := by
  induction writes generalizing c with
  | nil => exact ⟨c, [], rfl, inv, rfl, fun _ => rfl⟩
  | cons write rest ih =>
    obtain ⟨c', deletions, ran, inv', cfg, update⟩ := inv.setMemory_update room.1
    obtain ⟨c'', later, ranRest, inv'', cfg', held⟩ := ih inv' (room.2 c' deletions ran)
    refine ⟨c'', deletions ++ later, ?_, inv'', cfg'.trans cfg, fun key => ?_⟩
    · simp only [storeAll, ran, ranRest, Bind.bind, Except.bind, Pure.pure, Except.pure]
    · -- A later write of the key wins over the first.
      rw [held, update, latest_cons, Option.or_assoc]
      congr 1
      by_cases same : write.key = key
      · rw [if_pos same, ← same, Function.update_self]
        rfl
      · rw [if_neg same, Function.update_of_ne (Ne.symm same)]
        rfl

end MemoryLevel

end Memstash
