import Memstash.Cache.Reading
import Memstash.Lib.FiniteMap

/-! A shard without lifetimes and with room for everything behaves like a finite map. -/

namespace Memstash

open Scan MetaWord FiniteMap

variable {K V : Type} [Inhabited K] [Inhabited V] [DecidableEq K]

/-- One operation of a client on a shard. -/
inductive ShardOp (K V : Type) where
  | set (key : K) (value : V)
  | delete (key : K)
  | batchDelete (keys : List K)
  | get (key : K)
  deriving Repr

namespace ShardOp

/-- What the operation does to the shard. -/
def run (cfg : ShardConfig K V) (nowOff : Nat) (sh : Shard K V) : ShardOp K V → Except Fault (Shard K V)
  | set key value => (sh.setMemory cfg nowOff key value (cfg.expireOffset nowOff)).map Prod.fst
  | delete key => (sh.delete cfg key).map Prod.fst
  | batchDelete keys => (sh.batchDelete cfg keys).map Prod.fst
  | get key => (sh.getMemory cfg nowOff key).map Prod.fst

/-- What the operation does to a finite map. -/
def replay (m : Finmap fun _ : K => V) : ShardOp K V → Finmap fun _ : K => V
  | set key value => m.insert key value
  | delete key => m.erase key
  | batchDelete keys => keys.foldl (fun m key => m.erase key) m
  | get _ => m

/-- The map obtained by replaying a list of operations. -/
def replayAll (ops : List (ShardOp K V)) : Finmap fun _ : K => V := ops.foldl replay ∅

/-- Run a list of operations on a shard. -/
def runAll (cfg : ShardConfig K V) (nowOff : Nat) (sh : Shard K V) (ops : List (ShardOp K V)) :
    Except Fault (Shard K V) :=
  ops.foldlM (run cfg nowOff) sh

end ShardOp

namespace Shard

variable {cfg : ShardConfig K V} {sh : Shard K V} {m : Finmap fun _ : K => V}

/-- The shard serves exactly the entries of the map, none with a lifetime. -/
structure Refines (cfg : ShardConfig K V) (sh : Shard K V) (m : Finmap fun _ : K => V) : Prop where
  inv : sh.Inv cfg
  serves : ∀ key value off, sh.items.Serves key value off ↔ off = 0 ∧ m.lookup key = some value

/-- What the slot at an index lists. -/
def entryAt (t : FlatHashMap K V) (i : Nat) : Option (K × V) :=
  match t.cells i with
  | .live key => some (key, (t.slots i).entry.value)
  | _ => none

omit [Inhabited K] [Inhabited V] in
/-- The live slots list the entries of the map. -/
theorem Refines.sum_eq (refines : Refines cfg sh m) (weigh : K → V → Int) :
    ∑ i ∈ Finset.range sh.items.len,
      (entryAt sh.items i).elim 0 (fun held => weigh held.1 held.2) = total weigh m := by
  have listed : ∀ i key value, entryAt sh.items i = some (key, value) ↔
      sh.items.cells i = .live key ∧ (sh.items.slots i).entry.value = value := by
    intro i key value
    unfold entryAt
    cases sh.items.cells i <;> simp
  refine sum_eq_total ?_ ?_
  · intro i insideI j insideJ key value value' heldI heldJ
    have liveI := ((listed i key value).mp heldI).1
    have liveJ := ((listed j key value').mp heldJ).1
    exact refines.inv.table.chained.unique i insideI j insideJ key (by rw [liveI]; rfl)
      (by rw [liveJ]; rfl)
  · intro key value
    constructor
    · intro found
      obtain ⟨i, inside, live, held, _⟩ := (refines.serves key value 0).mpr ⟨rfl, found⟩
      exact ⟨i, inside, (listed i key value).mpr ⟨live, held⟩⟩
    · rintro ⟨i, inside, held⟩
      obtain ⟨live, same⟩ := (listed i key value).mp held
      exact ((refines.serves key value _).mp ⟨i, inside, live, same, rfl⟩).2

omit [Inhabited K] [Inhabited V] in
/-- The shard's weight is the map's. -/
theorem Refines.weight (refines : Refines cfg sh m) : sh.weight = total cfg.rawCost m := by
  rw [refines.inv.weight, ← refines.sum_eq]
  refine Finset.sum_congr rfl fun i _ => ?_
  unfold entryAt Item.costOne FlatHashMap.cells
  cases cell : (sh.items.slots i).cell with
  | live key => simp [((Item.cell_eq_live_iff _ _).mp cell).2.2]
  | vacant => rfl
  | tomb key => rfl
  | released => rfl

omit [Inhabited K] [Inhabited V] in
theorem Refines.live (refines : Refines cfg sh m) : sh.live = m.keys.card := by
  rw [refines.inv.live, card_keys, ← refines.sum_eq]
  refine Finset.sum_congr rfl fun i _ => ?_
  unfold entryAt Item.liveOne FlatHashMap.cells
  cases cell : (sh.items.slots i).cell <;> rfl

omit [Inhabited K] [Inhabited V] in
/-- Overwriting one key of the shard inserts it into the map. -/
theorem Refines.insert {sh' : Shard K V} {key : K} {value : V} (refines : Refines cfg sh m)
    (inv : sh'.Inv cfg) (overwrites : Overwrites key value 0 sh.items sh'.items) :
    Refines cfg sh' (m.insert key value) := by
  refine ⟨inv, fun other held life => ?_⟩
  rw [overwrites, refines.serves]
  by_cases same : other = key
  · subst same
    rw [Finmap.lookup_insert]
    simp only [true_and, ne_eq, not_true_eq_false, false_and, or_false, Option.some.injEq]
    exact ⟨fun both => ⟨both.2, both.1.symm⟩, fun both => ⟨both.2.symm, both.1⟩⟩
  · rw [Finmap.lookup_insert_of_ne _ same]
    simp [same]

omit [Inhabited K] [Inhabited V] in
/-- Removing keys from the shard erases them from the map. -/
theorem Refines.remove {sh' : Shard K V} {gone : K → Prop} {m' : Finmap fun _ : K => V}
    (refines : Refines cfg sh m) (removed : Removed cfg gone sh sh')
    (lost : ∀ key, gone key → m'.lookup key = none)
    (kept : ∀ key, ¬ gone key → m'.lookup key = m.lookup key) : Refines cfg sh' m' := by
  refine ⟨removed.inv, fun key value off => ?_⟩
  rw [removed.serves, refines.serves]
  by_cases out : gone key
  · simp [out, lost key out]
  · simp [out, kept key out]

/-- A write to a shard with room inserts into the map and evicts nothing. -/
theorem Refines.set (refines : Refines cfg sh m) (eternal : cfg.ttlOff = 0) (nowOff : Nat) {key : K}
    {value : V} (word : sh.cap < 2 ^ 63) (fits : total cfg.rawCost (m.insert key value) ≤ sh.cap)
    (few : m.keys.card < 3 * 2 ^ 30)
    (node : (∃ i < sh.items.len, (sh.items.cells i).key? = some key) ∨ sh.policy.Room) :
    ∃ sh' deletions, sh.setMemory cfg nowOff key value (cfg.expireOffset nowOff)
        = .ok (sh', deletions) ∧
      Refines cfg sh' (m.insert key value) ∧ sh'.cap = sh.cap ∧ Requeued V sh.policy sh'.policy := by
  have noOffset : cfg.expireOffset nowOff = 0 := by simp [ShardConfig.expireOffset, eternal]
  rw [noOffset]
  -- The share of the key is the weight of what the map holds for it.
  have grown : ∀ cost, Share cfg sh.items key cost →
      sh.weight - cost + cfg.rawCost key value = total cfg.rawCost (m.insert key value) := by
    intro cost share
    rw [total_insert, refines.weight]
    rcases share with ⟨held, life, served, rfl⟩ | ⟨absent, rfl⟩
    · rw [((refines.serves key held life).mp served).2]
      rfl
    · have none : m.lookup key = none := by
        cases found : m.lookup key with
        | none => rfl
        | some held => exact absurd ((refines.serves key held 0).mpr ⟨rfl, found⟩) (absent held 0)
      rw [none]
      rfl
  have light : cfg.rawCost key value ≤ sh.cap :=
    (weigh_le_total (fun key value => (Item.rawCost_pos cfg key value).le)
      (Finmap.lookup_insert m)).trans fits
  obtain ⟨sh', deletions, ran, wrote⟩ := refines.inv.setMemory nowOff key value
    (by norm_num : (0 : Nat) < 2 ^ 18) fun _ =>
      ⟨by rw [refines.live]; exact_mod_cast few, node, fun cost share => by
        rw [grown cost share]
        omega⟩
  refine ⟨sh', deletions, ran, ?_⟩
  cases wrote with
  | oversized heavy _ => omega
  | @stored mid life gone cost _ share inv cap weight queue lifetime overwrites _ _ still =>
    -- The new total fits, so nothing is evicted.
    obtain rfl := still (by rw [weight, grown cost share, cap]; exact fits)
    obtain rfl : life = 0 := by
      rcases lifetime with same | ⟨_, old, served⟩
      · exact same
      · exact ((refines.serves key old life).mp served).1
    exact ⟨refines.insert inv overwrites, cap, queue⟩

/-- A read leaves the map as it is and returns what the map holds. -/
theorem Refines.get (refines : Refines cfg sh m) (still : cfg.refreshOnGet = false) (nowOff : Nat)
    (key : K) :
    ∃ sh' deletions, sh.getMemory cfg nowOff key = .ok (sh', m.lookup key, deletions) ∧
      Refines cfg sh' m ∧ sh'.cap = sh.cap ∧ sh'.policy = sh.policy := by
  obtain ⟨sh', found, deletions, ran, read, _⟩ := refines.inv.getMemory nowOff key
  cases read with
  | missed absent same =>
    have none : m.lookup key = none := by
      cases found : m.lookup key with
      | none => rfl
      | some held => exact absurd ((refines.serves key held 0).mpr ⟨rfl, found⟩) (absent held 0)
    subst same
    exact ⟨sh', deletions, by rw [ran, none], refines, rfl, rfl⟩
  | dropped served late _ =>
    -- An item without a lifetime never lapses.
    rw [((refines.serves key _ _).mp served).1] at late
    exact absurd late (by simp [lapsed])
  | @hit value off life served inTime inv cap weight policy _ extended overwrites =>
    obtain ⟨rfl, found⟩ := (refines.serves key value off).mp served
    obtain rfl : life = 0 := by
      rcases extended with same | ⟨refresh, _⟩
      · exact same
      · rw [still] at refresh
        exact absurd refresh (by decide)
    refine ⟨sh', deletions, by rw [ran, found], ?_, cap, policy⟩
    have same := refines.insert inv overwrites
    refine ⟨inv, fun other held life => (same.serves other held life).trans ?_⟩
    by_cases here : other = key
    · subst here
      rw [Finmap.lookup_insert, found]
    · rw [Finmap.lookup_insert_of_ne _ here]

/-- Lookups, counters and walks of the shard answer as the map does. -/
structure ActsAs (cfg : ShardConfig K V) (nowOff : Nat) (sh : Shard K V)
    (m : Finmap fun _ : K => V) : Prop where
  get : ∀ key, ∃ sh' deletions, sh.getMemory cfg nowOff key = .ok (sh', m.lookup key, deletions)
  peek : ∀ key, sh.peekMemory cfg key = .ok (m.lookup key)
  present : ∀ key, sh.livePresent cfg key = .ok (m.lookup key).isSome
  slot : ∀ key, ∃ found, sh.findSlot (cfg.keyHash key) key = .ok found ∧
    found.map (fun idx => (sh.items.itemAt idx).entry) = (m.lookup key).map fun value => ⟨key, value⟩
  len : sh.live = m.keys.card
  once : ((sh.iterateWithLife cfg nowOff).map fun pair => (pair.1, pair.2.1)).Nodup
  yields : ∀ key value, (key, value) ∈ (sh.iterateWithLife cfg nowOff).map
    (fun pair => (pair.1, pair.2.1)) ↔ m.lookup key = some value

/-- A shard that refines a map answers as the map does. -/
theorem Refines.actsAs (refines : Refines cfg sh m) (still : cfg.refreshOnGet = false)
    (nowOff : Nat) : ActsAs cfg nowOff sh m := by
  have inv := refines.inv
  have held : ∀ key value, (∃ off, sh.items.Serves key value off) ↔ m.lookup key = some value :=
    fun key value => ⟨fun ⟨off, served⟩ => ((refines.serves key value off).mp served).2,
      fun found => ⟨0, (refines.serves key value 0).mpr ⟨rfl, found⟩⟩⟩
  refine ⟨fun key => ?_, fun key => ?_, fun key => ?_, fun key => ?_, refines.live, ?_, ?_⟩
  · obtain ⟨sh', deletions, ran, _⟩ := refines.get still nowOff key
    exact ⟨sh', deletions, ran⟩
  · obtain ⟨found, ran, decides⟩ := inv.peekMemory key
    have same : found = m.lookup key := Option.ext fun value => by rw [decides, held]
    rw [ran, same]
  · obtain ⟨present, ran, decides⟩ := inv.livePresent key
    have same : present = (m.lookup key).isSome := by
      rw [Bool.eq_iff_iff, decides, Option.isSome_iff_exists]
      exact exists_congr fun value => held key value
    rw [ran, same]
  · rcases inv.housed.findSlot key with ⟨idx, ran, normal, alive⟩ | ⟨ran, absent⟩
    · refine ⟨some idx, ran, ?_⟩
      have found := (held key _).mp ⟨_, serves_of_live alive⟩
      have named : (sh.items.itemAt idx).entry.key = key :=
        ((Item.cell_eq_live_iff _ _).mp alive).2.2
      rw [found, Option.map_some, Option.map_some, ← named]
    · refine ⟨none, ran, ?_⟩
      have none : m.lookup key = none := by
        cases found : m.lookup key with
        | none => rfl
        | some value => exact absurd ((refines.serves key value 0).mpr ⟨rfl, found⟩) (absent value 0)
      rw [none]
      rfl
  · -- The keys alone are yielded once each.
    refine List.Nodup.of_map Prod.fst ?_
    rw [List.map_map]
    exact inv.iterateWithLife_nodup
  · intro key value
    rw [List.mem_map]
    constructor
    · rintro ⟨⟨key, value, life⟩, member, same⟩
      obtain ⟨rfl, rfl⟩ := Prod.mk.inj same
      obtain ⟨off, served, _⟩ := (inv.mem_iterateWithLife key value life).mp member
      exact (held key value).mp ⟨off, served⟩
    · intro found
      have served := (refines.serves key value 0).mpr ⟨rfl, found⟩
      exact ⟨(key, value, lifeOf cfg nowOff 0), (inv.mem_iterateWithLife key value _).mpr
        ⟨0, served, by simp [lapsed], rfl⟩, rfl⟩

end Shard

namespace ShardOp

variable {cfg : ShardConfig K V} {nowOff : Nat} {cap : Int}

/-- Runs without lifetimes whose total weight never exceeds the capacity, with few enough items. -/
structure Roomy (cfg : ShardConfig K V) (cap : Int) (ops : List (ShardOp K V)) : Prop where
  eternal : cfg.ttlOff = 0
  still : cfg.refreshOnGet = false
  positive : 0 ≤ cap
  word : cap < 2 ^ 63
  fits : ∀ done, done <+: ops → total cfg.rawCost (replayAll done) ≤ cap
  few : ∀ done, done <+: ops → (replayAll done).keys.card < 3 * 2 ^ 30

/-- Whenever a write meets a key without a node, the policy can queue one more. -/
def Queueable (cfg : ShardConfig K V) (nowOff : Nat) (sh : Shard K V) (ops : List (ShardOp K V)) :
    Prop :=
  ∀ done key value, done ++ [.set key value] <+: ops → ∀ mid, runAll cfg nowOff sh done = .ok mid →
    (∃ i < mid.items.len, (mid.items.cells i).key? = some key) ∨ mid.policy.Room

omit [Inhabited K] [Inhabited V] in
theorem replayAll_append (done : List (ShardOp K V)) (op : ShardOp K V) :
    replayAll (done ++ [op]) = op.replay (replayAll done) := by
  simp [replayAll]

/-- Running one more operation. -/
theorem runAll_append {sh mid : Shard K V} {done : List (ShardOp K V)}
    (ran : runAll cfg nowOff sh done = .ok mid) (op : ShardOp K V) :
    runAll cfg nowOff sh (done ++ [op]) = op.run cfg nowOff mid := by
  simp only [runAll] at ran
  simp [runAll, ran, Bind.bind, Except.bind]
  cases op.run cfg nowOff mid <;> rfl

omit [Inhabited K] [Inhabited V] in
/-- Erasing a list of keys leaves the others. -/
theorem lookup_eraseAll (keys : List K) (key : K) : ∀ m : Finmap fun _ : K => V,
    (keys.foldl (fun m key => m.erase key) m).lookup key
      = if key ∈ keys then none else m.lookup key := by
  induction keys with
  | nil => simp
  | cons first rest ih =>
    intro m
    rw [List.foldl_cons, ih]
    by_cases later : key ∈ rest
    · simp [later]
    · by_cases same : key = first
      · subst same
        simp [later]
      · simp [later, same, Finmap.lookup_erase_ne same]

/-- One operation of a roomy run keeps the shard a refinement of the map. -/
theorem run_refines {sh : Shard K V} {m : Finmap fun _ : K => V} (refines : sh.Refines cfg m)
    (nowOff : Nat) (eternal : cfg.ttlOff = 0) (still : cfg.refreshOnGet = false) (word : sh.cap < 2 ^ 63)
    (few : m.keys.card < 3 * 2 ^ 30) (op : ShardOp K V)
    (fits : total cfg.rawCost (op.replay m) ≤ sh.cap)
    (node : ∀ key value, op = .set key value →
      (∃ i < sh.items.len, (sh.items.cells i).key? = some key) ∨ sh.policy.Room) :
    ∃ sh', op.run cfg nowOff sh = .ok sh' ∧ sh'.Refines cfg (op.replay m) ∧ sh'.cap = sh.cap ∧
      sh'.policy.kind = sh.policy.kind := by
  cases op with
  | set key value =>
    obtain ⟨sh', deletions, ran, refines', cap, queue⟩ :=
      refines.set eternal nowOff word fits few (node key value rfl)
    exact ⟨sh', by rw [run, ran]; rfl, refines', cap, queue.kind⟩
  | delete key =>
    obtain ⟨sh', deletions, ran, removed, _⟩ := refines.inv.delete key
    refine ⟨sh', by rw [run, ran]; rfl, refines.remove removed ?_ ?_, removed.cap, removed.kind⟩
    · rintro _ rfl
      exact Finmap.lookup_erase _ _
    · intro other away
      exact Finmap.lookup_erase_ne away
  | batchDelete keys =>
    obtain ⟨sh', deletions, ran, removed⟩ := Shard.Inv.batchDelete keys refines.inv
    refine ⟨sh', by rw [run, ran]; rfl, refines.remove removed ?_ ?_, removed.cap, removed.kind⟩
    · intro key listed
      rw [replay, lookup_eraseAll, if_pos listed]
    · intro key away
      rw [replay, lookup_eraseAll, if_neg away]
  | get key =>
    obtain ⟨sh', deletions, ran, refines', cap, policy⟩ := refines.get still nowOff key
    exact ⟨sh', by rw [run, ran]; rfl, refines', cap, by rw [policy]⟩

/-- A roomy run from a shard that serves nothing ends, and the shard refines the replayed map. -/
theorem runAll_refines {sh : Shard K V} (inv : sh.Inv cfg)
    (empty : ∀ key value off, ¬ sh.items.Serves key value off) {ops : List (ShardOp K V)}
    (roomy : Roomy cfg sh.cap ops)
    (queueable : sh.policy.kind = .sieve → Queueable cfg nowOff sh ops) :
    ∀ done, done <+: ops → ∃ mid, runAll cfg nowOff sh done = .ok mid ∧
      mid.Refines cfg (replayAll done) ∧ mid.cap = sh.cap ∧ mid.policy.kind = sh.policy.kind := by
  intro done
  induction done using List.reverseRecOn with
  | nil =>
    intro _
    refine ⟨sh, rfl, ⟨inv, fun key value off => ?_⟩, rfl, rfl⟩
    simp [empty, replayAll]
  | append_singleton done op ih =>
    intro within
    have before : done <+: ops := (List.prefix_append done [op]).trans within
    obtain ⟨mid, ran, refines, cap, kind⟩ := ih before
    have fits := roomy.fits _ within
    rw [replayAll_append, ← cap] at fits
    obtain ⟨sh', stepped, refines', cap', kind'⟩ := run_refines refines nowOff
      roomy.eternal roomy.still (by rw [cap]; exact roomy.word) (roomy.few _ before) op fits (by
        rintro key value rfl
        by_cases sieve : sh.policy.kind = .sieve
        · exact queueable sieve done key value within mid ran
        · exact .inr (EvictionPolicy.room_of_kind (by rw [kind]; exact sieve)))
    exact ⟨sh', by rw [runAll_append ran, stepped], by rw [replayAll_append]; exact refines',
      cap'.trans cap, kind'.trans kind⟩

end ShardOp

end Memstash
