import Memstash.Cache.Accounting
import Memstash.Cache.Batch
import Memstash.Lib.FiniteMap

/-! Every pair put into memory is live, or was reported to the deletion handler once. -/

namespace Memstash

open Scan MetaWord FiniteMap Runs

variable {K V : Type}

/-- The key and the value a report carries. -/
def Deletion.pair (deletion : Deletion K V) : K × V := (deletion.key, deletion.value)

/-- An item is not too heavy for the shard of its key. -/
def MemoryLevel.Fits (c : MemoryLevel K V) (key : K) (value : V) : Prop :=
  c.cfg.rawCost key value ≤ (c.shards (c.keyShard key)).cap
deriving Decidable

section Live

/-- The live slots of a table, in slot order. -/
def FlatHashMap.liveEntries (t : FlatHashMap K V) : List (Σ _ : K, V × Nat) :=
  (List.range t.len).filterMap fun i =>
    match (t.slots i).cell with
    | .live key => some ⟨key, (t.slots i).entry.value, (t.slots i).metaWord.expireOff⟩
    | _ => none

/-- The live slots of all shards. -/
def MemoryLevel.liveEntries (c : MemoryLevel K V) : List (Σ _ : K, V × Nat) :=
  (List.range c.numShards).flatMap fun i => (c.shards i).items.liveEntries

/-- The pairs that are live, as often as they are. -/
def MemoryLevel.livePairs (c : MemoryLevel K V) : Multiset (K × V) :=
  c.liveEntries.map fun entry => (entry.1, entry.2.1)

/-- The live slots are what the table serves. -/
theorem FlatHashMap.mem_liveEntries (t : FlatHashMap K V) (key : K) (value : V) (off : Nat) :
    (⟨key, value, off⟩ : Σ _ : K, V × Nat) ∈ t.liveEntries ↔ t.Serves key value off := by
  unfold liveEntries
  rw [List.mem_filterMap]
  constructor
  · rintro ⟨i, member, yields⟩
    cases cell : (t.slots i).cell with
    | live own =>
      rw [cell] at yields
      cases yields
      exact ⟨i, List.mem_range.mp member, cell, rfl, rfl⟩
    | vacant => simp [cell] at yields
    | tomb _ => simp [cell] at yields
    | released => simp [cell] at yields
  · rintro ⟨i, inside, live, rfl, rfl⟩
    have cell : (t.slots i).cell = .live key := live
    exact ⟨i, List.mem_range.mpr inside, by rw [cell]⟩

/-- No two live slots have the same key. -/
theorem FlatHashMap.Inv.liveEntries_nodup {t : FlatHashMap K V} {hash : K → BitVec 64}
    (inv : t.Inv hash) : (t.liveEntries.map Sigma.fst).Nodup := by
  unfold FlatHashMap.liveEntries
  rw [List.Nodup, List.pairwise_map, List.pairwise_filterMap]
  refine List.nodup_range.imp_of_mem fun {a b} memberA memberB apart => ?_
  -- What a slot yields names the key it is bound to.
  have bound : ∀ i entry, (match (t.slots i).cell with
      | .live key => some (⟨key, (t.slots i).entry.value, (t.slots i).metaWord.expireOff⟩ :
          Σ _ : K, V × Nat)
      | _ => none) = some entry → (t.cells i).key? = some entry.1 := by
    intro i entry yields
    unfold FlatHashMap.cells
    cases cell : (t.slots i).cell with
    | live own =>
      rw [cell] at yields
      cases yields
      rfl
    | vacant => simp [cell] at yields
    | tomb _ => simp [cell] at yields
    | released => simp [cell] at yields
  intro entry yieldsA entry' yieldsB same
  exact apart (inv.chained.unique a (List.mem_range.mp memberA) b (List.mem_range.mp memberB) _
    (bound a entry yieldsA) (by rw [same]; exact bound b entry' yieldsB))

namespace MemoryLevel

variable {c c' : MemoryLevel K V}

/-- The live slots are what the level serves. -/
theorem Inv.mem_liveEntries (inv : c.Inv) (key : K) (value : V) (off : Nat) :
    (⟨key, value, off⟩ : Σ _ : K, V × Nat) ∈ c.liveEntries ↔ c.Serves key value off := by
  unfold liveEntries
  rw [List.mem_flatMap]
  constructor
  · rintro ⟨i, member, listed⟩
    have served := (FlatHashMap.mem_liveEntries _ key value off).mp listed
    -- The shard that serves the key is the key's own.
    rw [Serves, inv.home i (List.mem_range.mp member) key value off served]
    exact served
  · intro served
    exact ⟨_, List.mem_range.mpr (c.keyShard_lt key),
      (FlatHashMap.mem_liveEntries _ key value off).mpr served⟩

/-- No two live slots of the level have the same key. -/
theorem Inv.liveEntries_nodup (inv : c.Inv) : (c.liveEntries.map Sigma.fst).Nodup := by
  unfold liveEntries
  rw [List.map_flatMap, List.nodup_flatMap]
  refine ⟨fun i member => (inv.shards i (List.mem_range.mp member)).table.liveEntries_nodup, ?_⟩
  refine List.nodup_range.imp_of_mem fun {a b} memberA memberB apart => ?_
  -- A key is served by its own shard alone.
  intro key listedA listedB
  obtain ⟨⟨_, valueA, offA⟩, entryA, rfl⟩ := List.mem_map.mp listedA
  obtain ⟨⟨key, valueB, offB⟩, entryB, rfl⟩ := List.mem_map.mp listedB
  have homeA := inv.home a (List.mem_range.mp memberA) _ _ _
    ((FlatHashMap.mem_liveEntries _ _ _ _).mp entryA)
  have homeB := inv.home b (List.mem_range.mp memberB) _ _ _
    ((FlatHashMap.mem_liveEntries _ _ _ _).mp entryB)
  exact apart (homeA.symm.trans homeB)

end MemoryLevel

end Live

/-- What a first level holds: for every key its value, and the offset its lifetime ends at. -/
abbrev Book (K V : Type) := Finmap fun _ : K => V × Nat

namespace Book

/-- The pairs of a book. -/
def pairs (book : Book K V) : Multiset (K × V) := book.entries.map fun entry => (entry.1, entry.2.1)

variable [DecidableEq K]

/-- What taking a key's item away reports: the value the book has for it, if any. -/
def reports (book : Book K V) (key : K) (cause : DeletionCause) : List (Deletion K V) :=
  ((book.lookup key).map fun held => ⟨key, held.1, cause⟩).toList

/-- Items are given up one after the other, as expired or as evicted by what the book has of them. -/
inductive Sheds (nowOff : Nat) : Book K V → List (Deletion K V) → Book K V → Prop
  | done (book : Book K V) : Sheds nowOff book [] book
  | next {book book' : Book K V} {key : K} {value : V} {off : Nat} {later : List (Deletion K V)}
      (held : book.lookup key = some (value, off)) (rest : Sheds nowOff (book.erase key) later book') :
      Sheds nowOff book (⟨key, value, Shard.reclaimCause nowOff off⟩ :: later) book'

/-- Keys are looked up one after the other: an item that has expired goes, any other may have its
lifetime extended. -/
inductive Browses (nowOff : Nat) : Book K V → List (Deletion K V) → Book K V → Prop
  | done (book : Book K V) : Browses nowOff book [] book
  | expired {book book' : Book K V} {key : K} {value : V} {off : Nat} {later : List (Deletion K V)}
      (held : book.lookup key = some (value, off)) (late : lapsed off nowOff = true)
      (rest : Browses nowOff (book.erase key) later book') :
      Browses nowOff book (⟨key, value, .expiration⟩ :: later) book'
  | extended {book book' : Book K V} {key : K} {value : V} {off : Nat} (life : Nat)
      {later : List (Deletion K V)} (held : book.lookup key = some (value, off))
      (rest : Browses nowOff (book.insert key (value, life)) later book') :
      Browses nowOff book later book'

/-- The pairs some reports carry. -/
def reported (gone : List (Deletion K V)) : Multiset (K × V) := (gone.map Deletion.pair : List (K × V))

omit [DecidableEq K] in
theorem reported_cons (first : Deletion K V) (later : List (Deletion K V)) :
    reported (first :: later) = {first.pair} + reported later := rfl

omit [DecidableEq K] in
theorem reported_append (gone later : List (Deletion K V)) :
    reported (gone ++ later) = reported gone + reported later := by
  simp [reported]

theorem pairs_of_held {book : Book K V} {key : K} {value : V} {off : Nat}
    (held : book.lookup key = some (value, off)) :
    pairs book = {(key, value)} + pairs (book.erase key) := by
  simp [pairs, entries_erase held, Multiset.singleton_add]

/-- An item taken out of a book is reported. -/
theorem pairs_erase (book : Book K V) (key : K) (cause : DeletionCause) :
    pairs book = pairs (book.erase key) + reported (reports book key cause) := by
  cases held : book.lookup key with
  | none => simp [reports, held, reported, erase_of_absent held]
  | some old =>
    rw [pairs_of_held held, add_comm]
    simp [reports, held, reported, Deletion.pair]

/-- An item written to a book joins it, and the one it replaces is reported. -/
theorem pairs_insert (book : Book K V) (key : K) (value : V) (off : Nat) (cause : DeletionCause) :
    pairs book + {(key, value)}
      = pairs (book.insert key (value, off)) + reported (reports book key cause) := by
  have joined : pairs (book.insert key (value, off)) = {(key, value)} + pairs (book.erase key) := by
    simp [pairs, entries_insert, Multiset.singleton_add]
  rw [pairs_erase book key cause, joined]
  abel

/-- What a book sheds it reports. -/
theorem Sheds.pairs_eq {nowOff : Nat} {book book' : Book K V} {gone : List (Deletion K V)}
    (sheds : Sheds nowOff book gone book') : pairs book = pairs book' + reported gone := by
  induction sheds with
  | done => simp [reported]
  | @next book book' key value off later held _ ih =>
    rw [pairs_of_held held, ih, reported_cons, Deletion.pair]
    abel

/-- What browsing drops it reports. -/
theorem Browses.pairs_eq {nowOff : Nat} {book book' : Book K V} {gone : List (Deletion K V)}
    (browses : Browses nowOff book gone book') : pairs book = pairs book' + reported gone := by
  induction browses with
  | done => simp [reported]
  | @expired book book' key value off later held _ _ ih =>
    rw [pairs_of_held held, ih, reported_cons, Deletion.pair]
    abel
  | @extended book book' key value off life later held _ ih =>
    -- The item stays, with another lifetime.
    rw [← ih, pairs_of_held held]
    simp [pairs, entries_insert, Multiset.singleton_add]

/-- Giving up some items and then others. -/
theorem Sheds.trans {nowOff : Nat} {book mid book' : Book K V} {gone later : List (Deletion K V)}
    (first : Sheds nowOff book gone mid) (second : Sheds nowOff mid later book') :
    Sheds nowOff book (gone ++ later) book' := by
  induction first with
  | done => exact second
  | next held _ ih => exact .next held (ih second)

end Book

namespace MemoryLevel

variable [DecidableEq K] {c c' : MemoryLevel K V}

/-- The book of a level. -/
def book (c : MemoryLevel K V) : Book K V := c.liveEntries.toFinmap

/-- The book of a level has what the level serves. -/
theorem Inv.book_lookup (inv : c.Inv) (key : K) (value : V) (off : Nat) :
    c.book.lookup key = some (value, off) ↔ c.Serves key value off := by
  rw [book, Finmap.dlookup_list_toFinmap, ← inv.mem_liveEntries]
  exact List.mem_dlookup_iff (List.nodupKeys_iff_pairwise.mpr (List.pairwise_map.mp inv.liveEntries_nodup))

/-- The live pairs are those of the book. -/
theorem Inv.livePairs_eq (inv : c.Inv) : c.livePairs = Book.pairs c.book := by
  have entries : (c.liveEntries : Multiset (Σ _ : K, V × Nat)) = c.book.entries := by
    refine (Multiset.Nodup.ext (Multiset.coe_nodup.mpr (inv.liveEntries_nodup.of_map _))
      c.book.nodup_entries).mpr ?_
    rintro ⟨key, value, off⟩
    rw [Multiset.mem_coe, inv.mem_liveEntries, ← inv.book_lookup, ← Finmap.lookup_eq_some_iff]
  rw [livePairs, Book.pairs, ← entries]
  rfl

theorem Inv.book_ext (inv : c.Inv) {book : Book K V}
    (alike : ∀ key value off, c.Serves key value off ↔ book.lookup key = some (value, off)) :
    c.book = book := by
  refine Finmap.ext_lookup fun key => Option.ext fun ⟨value, off⟩ => ?_
  rw [inv.book_lookup, alike]

/-- A level that lost one key lost it from its book. -/
theorem Inv.book_erase (inv : c.Inv) (inv' : c'.Inv) {key : K}
    (lost : ∀ other value off, c'.Serves other value off ↔ other ≠ key ∧ c.Serves other value off) :
    c'.book = c.book.erase key := by
  refine inv'.book_ext fun other value off => ?_
  rw [lost]
  by_cases same : other = key
  · subst same
    simp [Finmap.lookup_erase]
  · rw [Finmap.lookup_erase_ne same, inv.book_lookup]
    simp [same]

/-- A level that overwrote one key overwrote it in its book. -/
theorem Inv.book_insert (inv : c.Inv) (inv' : c'.Inv) {key : K} {value : V} {life : Nat}
    (overwrites : ∀ other held off, c'.Serves other held off ↔
      (other = key ∧ held = value ∧ off = life) ∨ (other ≠ key ∧ c.Serves other held off)) :
    c'.book = c.book.insert key (value, life) := by
  refine inv'.book_ext fun other held off => ?_
  rw [overwrites]
  by_cases same : other = key
  · subst same
    rw [Finmap.lookup_insert, Option.some_inj, Prod.mk.injEq]
    simp [eq_comm]
  · rw [Finmap.lookup_insert_of_ne _ same, inv.book_lookup]
    simp [same]

section Handled

variable (handled : c.cfg.onDeletion = true)
include handled

/-- The reports of a removal are what the book says. -/
theorem Inv.reports_eq (inv : c.Inv) {cause : DeletionCause} {key : K} {gone : List (Deletion K V)}
    (reports : Shard.Reports c.cfg cause (c.shards (c.keyShard key)).items key gone) :
    gone = Book.reports c.book key cause := by
  unfold Book.reports
  rcases reports with ⟨old, life, served, rfl⟩ | ⟨absent, rfl⟩
  · rw [if_pos handled, (inv.book_lookup key old life).mpr served]
    rfl
  · cases held : c.book.lookup key with
    | none => rfl
    | some item => exact absurd ((inv.book_lookup key item.1 item.2).mp held) (absent _ _)

/-- Giving up one item sheds it from the book. -/
theorem Inv.reclaimed_sheds (inv : c.Inv) {nowOff i : Nat} (inside : i < c.numShards) {sh : Shard K V}
    {gone : List (Deletion K V)} (reclaimed : Shard.Reclaimed c.cfg nowOff (c.shards i) sh gone) :
    (c.put i sh).Inv ∧ Book.Sheds nowOff c.book gone (c.put i sh).book := by
  cases reclaimed with
  | buried removed =>
    obtain ⟨inv', serves⟩ := inv.put_removed inside removed
    have same : (c.put i sh).book = c.book :=
      inv'.book_ext fun key value off => by rw [serves, inv.book_lookup]; simp
    rw [same]
    exact ⟨inv', .done _⟩
  | @died key value off served removed =>
    -- The item that died was in the shard of its key.
    obtain rfl := inv.home i inside key value off served
    obtain ⟨inv', serves⟩ := inv.put_without removed
    rw [if_pos handled, inv.book_erase inv' serves]
    exact ⟨inv', .next ((inv.book_lookup key value off).mpr served) (.done _)⟩

/-- An eviction pass sheds what it evicts from the book. -/
theorem Inv.evicted_sheds (inv : c.Inv) {nowOff i : Nat} (inside : i < c.numShards) {sh : Shard K V}
    {gone : List (Deletion K V)} (evicted : Shard.Evicted c.cfg nowOff (c.shards i) sh gone) :
    (c.put i sh).Inv ∧ Book.Sheds nowOff c.book gone (c.put i sh).book := by
  induction evicted with
  | start =>
    have same : c.put i (c.shards i) = c := by simp [put]
    rw [same]
    exact ⟨inv, .done _⟩
  | @next mid sh before gone _ reclaimed ih =>
    obtain ⟨midInv, sheds⟩ := ih
    have here : Shard.Reclaimed (c.put i mid).cfg nowOff ((c.put i mid).shards i) sh gone := by
      rw [put_here]
      exact reclaimed
    have still : (c.put i mid).cfg.onDeletion = true := handled
    obtain ⟨inv', sheds'⟩ := midInv.reclaimed_sheds still inside here
    rw [put_put] at inv' sheds'
    exact ⟨inv', sheds.trans sheds'⟩

/-- A lookup browses the book. -/
theorem Inv.looked_browses (inv : c.Inv) {nowOff : Nat} {key : K} {sh : Shard K V}
    {gone later : List (Deletion K V)} {book' : Book K V}
    (looked : Shard.Looked c.cfg nowOff key (c.shards (c.keyShard key)) sh gone) :
    (c.put (c.keyShard key) sh).Inv ∧ (Book.Browses nowOff (c.put (c.keyShard key) sh).book later book' →
      Book.Browses nowOff c.book (gone ++ later) book') := by
  cases looked with
  | dropped dropped =>
    cases dropped with
    | kept same =>
      have unchanged : c.put (c.keyShard key) sh = c := by simp [put, same]
      rw [unchanged]
      exact ⟨inv, id⟩
    | @expired value off served late removed =>
      obtain ⟨inv', serves⟩ := inv.put_without removed
      refine ⟨inv', fun rest => ?_⟩
      rw [if_pos handled]
      refine .expired ((inv.book_lookup key value off).mpr served) late ?_
      rw [← inv.book_erase inv' serves]
      exact rest
  | @hit value off life served shard overwrites =>
    obtain ⟨inv', serves⟩ := inv.put_overwrites shard overwrites
    refine ⟨inv', fun rest => .extended life ((inv.book_lookup key value off).mpr served) ?_⟩
    rw [← inv.book_insert inv' serves]
    exact rest

end Handled

/-- Looking keys up browses the book. -/
theorem Looks.browses {nowOff : Nat} {gone : List (Deletion K V)} (looks : Looks nowOff c gone c')
    (handled : c.cfg.onDeletion = true) (inv : c.Inv) :
    c'.Inv ∧ Book.Browses nowOff c.book gone c'.book := by
  induction looks with
  | done c => exact ⟨inv, .done _⟩
  | next looked _ ih =>
    obtain ⟨midInv, browses⟩ := inv.looked_browses handled looked
    obtain ⟨inv', rest⟩ := ih handled midInv
    exact ⟨inv', browses rest⟩

end MemoryLevel

/-- What can happen to the first level of a cache. `Set` and `SetWithTTL` set one item and `BatchSet`
one after the other; `Delete` deletes one key and `BatchDelete` one after the other. -/
inductive LevelStep (K V : Type) where
  | set (key : K) (value : V) (expireOff : Fin (2 ^ 18))
  | delete (key : K)
  | get (key : K)
  | batchGet (keys : List K)
  /-- The second half of a read that found an expired item at an index. -/
  | dropExpired (key : K) (idx : Nat)
  | evict (key : K)

/-- How a step changes the book, and what it reports; `fits` tells the items a shard can take. -/
inductive Book.Enters [DecidableEq K] (fits : K → V → Prop) (nowOff : Nat) (book : Book K V) :
    LevelStep K V → List (Deletion K V) → Book K V → Prop
  | set {key : K} {value : V} {off : Fin (2 ^ 18)} {life : Nat} {gone : List (Deletion K V)}
      {book' : Book K V} (light : fits key value)
      (lifetime : life = off ∨ (off : Nat) = 0 ∧ ∃ old, book.lookup key = some (old, life))
      (evicted : Sheds nowOff (book.insert key (value, life)) gone book') :
      Enters fits nowOff book (.set key value off) (reports book key .replacement ++ gone) book'
  | oversized {key : K} {value : V} {off : Fin (2 ^ 18)} (heavy : ¬ fits key value) :
      Enters fits nowOff book (.set key value off) (reports book key .overflow) (book.erase key)
  | delete {key : K} :
      Enters fits nowOff book (.delete key) (reports book key .invalidation) (book.erase key)
  | get {key : K} {gone : List (Deletion K V)} {book' : Book K V}
      (looked : Browses nowOff book gone book') : Enters fits nowOff book (.get key) gone book'
  | batchGet {keys : List K} {gone : List (Deletion K V)} {book' : Book K V}
      (looked : Browses nowOff book gone book') : Enters fits nowOff book (.batchGet keys) gone book'
  | dropExpired {key : K} {idx : Nat} {gone : List (Deletion K V)} {book' : Book K V}
      (looked : Browses nowOff book gone book') :
      Enters fits nowOff book (.dropExpired key idx) gone book'
  | evict {key : K} {gone : List (Deletion K V)} {book' : Book K V}
      (evicted : Sheds nowOff book gone book') : Enters fits nowOff book (.evict key) gone book'

namespace LevelStep

variable [DecidableEq K]

/-- The pairs a step puts into memory. -/
def stores (fits : K → V → Prop) [∀ key value, Decidable (fits key value)] :
    LevelStep K V → Multiset (K × V)
  | set key value _ => if fits key value then {(key, value)} else 0
  | _ => 0

/-- What a step adds to the book it takes from memory, and reports what it takes. -/
theorem pairs_eq {fits : K → V → Prop} [∀ key value, Decidable (fits key value)] {nowOff : Nat}
    {book book' : Book K V} {step : LevelStep K V} {gone : List (Deletion K V)}
    (enters : book.Enters fits nowOff step gone book') :
    Book.pairs book + step.stores fits = Book.pairs book' + Book.reported gone := by
  cases enters with
  | @set key value off life gone _ light _ evicted =>
    rw [stores, if_pos light, Book.pairs_insert book key value life .replacement, evicted.pairs_eq,
      Book.reported_append]
    abel
  | oversized heavy =>
    rw [stores, if_neg heavy, add_zero]
    exact Book.pairs_erase _ _ _
  | delete => exact (add_zero _).trans (Book.pairs_erase _ _ _)
  | get looked => exact (add_zero _).trans looked.pairs_eq
  | batchGet looked => exact (add_zero _).trans looked.pairs_eq
  | dropExpired looked => exact (add_zero _).trans looked.pairs_eq
  | evict evicted => exact (add_zero _).trans evicted.pairs_eq

variable [Inhabited K] [Inhabited V]

/-- What a step does at a clock value, and what it reports. -/
def apply (nowOff : Nat) (c : MemoryLevel K V) :
    LevelStep K V → Except Fault (MemoryLevel K V × List (Deletion K V))
  | set key value off => c.setMemory nowOff key value off
  | delete key => c.onShard key fun sh => sh.delete c.cfg key
  | get key => (c.getMemory nowOff key).map fun (c, _, gone) => (c, gone)
  | batchGet keys => (c.batchGetMemory nowOff keys).map fun (c, _, gone) => (c, gone)
  | dropExpired key idx => c.dropExpired nowOff key idx
  | evict key => c.evictShard nowOff key

/-- A write that can fit finds the index space, the queue node and the 64 bits it needs. -/
def Roomy (c : MemoryLevel K V) : LevelStep K V → Prop
  | set key value _ =>
    c.Fits key value → (c.shards (c.keyShard key)).Writable c.cfg key value
  | _ => True

/-- Every step returns, and enters the book as it should. -/
theorem apply_enters {c : MemoryLevel K V} (inv : c.Inv) (handled : c.cfg.onDeletion = true)
    (nowOff : Nat) {step : LevelStep K V} (roomy : Roomy c step) :
    ∃ c' gone, apply nowOff c step = .ok (c', gone) ∧ c'.Inv ∧ c'.cfg = c.cfg ∧
      c.book.Enters c.Fits nowOff step gone c'.book := by
  cases step with
  | set key value off =>
    by_cases light : c.Fits key value
    · obtain ⟨mid, sh, life, replaced, gone, ran, midInv, lifetime, overwrites, reports, evicted⟩ :=
        (inv.shard key).setMemory_reports nowOff key value off.isLt light (roomy light)
      -- The item is written first, and what no longer fits is evicted after.
      obtain ⟨writtenInv, serves⟩ := inv.put_overwrites midInv overwrites
      have passed : Shard.Evicted (c.put (c.keyShard key) mid).cfg nowOff
          ((c.put (c.keyShard key) mid).shards (c.keyShard key)) sh gone := by
        rw [MemoryLevel.put_here]
        exact evicted
      have still : (c.put (c.keyShard key) mid).cfg.onDeletion = true := handled
      obtain ⟨inv', sheds⟩ := writtenInv.evicted_sheds still (c.keyShard_lt key) passed
      rw [MemoryLevel.put_put] at inv' sheds
      rw [inv.book_insert writtenInv serves] at sheds
      refine ⟨c.put (c.keyShard key) sh, replaced ++ gone, ?_, inv', rfl, ?_⟩
      · rw [apply, MemoryLevel.setMemory, MemoryLevel.onShard_eq ran]
      rw [inv.reports_eq handled reports]
      refine .set light (lifetime.imp id fun kept => ?_) sheds
      obtain ⟨eternal, old, served⟩ := kept
      exact ⟨eternal, old, (inv.book_lookup key old life).mpr served⟩
    · obtain ⟨sh, gone, ran, removed, reports⟩ := (inv.shard key).deleteLocked key .overflow
      have heavy : c.cfg.rawCost key value > (c.shards (c.keyShard key)).cap := not_le.mp light
      have ran' : (c.shards (c.keyShard key)).setMemory c.cfg nowOff key value off = .ok (sh, gone) := by
        unfold Shard.setMemory
        simp only [if_pos heavy, ran]
      obtain ⟨inv', serves⟩ := inv.put_without removed
      refine ⟨c.put (c.keyShard key) sh, gone, ?_, inv', rfl, ?_⟩
      · rw [apply, MemoryLevel.setMemory, MemoryLevel.onShard_eq ran']
      rw [inv.reports_eq handled reports, inv.book_erase inv' serves]
      exact .oversized light
  | delete key =>
    obtain ⟨sh, gone, ran, removed, reports⟩ := (inv.shard key).delete key
    obtain ⟨inv', serves⟩ := inv.put_without removed
    refine ⟨c.put (c.keyShard key) sh, gone, ?_, inv', rfl, ?_⟩
    · rw [apply, MemoryLevel.onShard_eq ran]
    rw [inv.reports_eq handled reports, inv.book_erase inv' serves]
    exact .delete
  | get key =>
    have fresh : key ∈ (∅ : Set K) → c.Stale key nowOff := fun none => absurd none (Set.notMem_empty _)
    obtain ⟨c', found, gone, ran, fades, looks, _⟩ := inv.getMemory_fades nowOff fresh
    exact ⟨c', gone, by rw [apply, ran]; rfl, fades.inv, fades.cfg,
      .get (looks.browses handled inv).2⟩
  | batchGet keys =>
    have fresh : ∀ key ∈ keys, key ∈ (∅ : Set K) → c.Stale key nowOff :=
      fun _ _ none => absurd none (Set.notMem_empty _)
    obtain ⟨c', answers, gone, ran, fades, looks, _⟩ := inv.batchGetMemory_fades nowOff fresh
    exact ⟨c', gone, by rw [apply, ran]; rfl, fades.inv, fades.cfg,
      .batchGet (looks.browses handled inv).2⟩
  | dropExpired key idx =>
    obtain ⟨sh, gone, ran, _, dropped⟩ := (inv.shard key).dropExpired nowOff key idx
    obtain ⟨inv', browses⟩ := (MemoryLevel.Looks.one (.dropped dropped)).browses handled inv
    refine ⟨c.put (c.keyShard key) sh, gone, ?_, inv', rfl, .dropExpired browses⟩
    rw [apply, MemoryLevel.dropExpired, MemoryLevel.onShard_eq ran]
  | evict key =>
    obtain ⟨sh, gone, ran, evicted, _⟩ := (inv.shard key).evictShard_reports nowOff []
    obtain ⟨inv', sheds⟩ := inv.evicted_sheds handled (c.keyShard_lt key) evicted
    refine ⟨c.put (c.keyShard key) sh, gone, ?_, inv', rfl, .evict sheds⟩
    rw [apply, MemoryLevel.evictShard, MemoryLevel.onShard_eq ran]
    rfl

end LevelStep

/-- A first level, the pairs ever stored in it, and the calls its deletion handler has had. -/
structure Ledger (K V : Type) where
  level : MemoryLevel K V
  stored : Multiset (K × V)
  reported : List (Deletion K V)

namespace Ledger

variable [DecidableEq K] [Inhabited K] [Inhabited V]

/-- Take a step, note what it stores, and call the handler with what it reports. -/
def step (ledger : Ledger K V) (next : Nat × LevelStep K V) : Except Fault (Ledger K V) := do
  let (level, gone) ← next.2.apply next.1 ledger.level
  return ⟨level, ledger.stored + next.2.stores ledger.level.Fits, ledger.reported ++ gone⟩

/-- The writes of a step find the room they need. -/
def Roomy (ledger : Ledger K V) (next : Nat × LevelStep K V) : Prop := next.2.Roomy ledger.level

/-- The level is well formed and has a handler, and the ledger is balanced. -/
structure Balanced (ledger : Ledger K V) : Prop where
  inv : ledger.level.Inv
  handled : ledger.level.cfg.onDeletion = true
  exact : ledger.stored = ledger.level.livePairs + Book.reported ledger.reported

/-- A step keeps the ledger balanced, and is entered in the book. -/
theorem Balanced.step {ledger : Ledger K V} (balanced : ledger.Balanced) {next : Nat × LevelStep K V}
    (roomy : Roomy ledger next) :
    ∃ ledger' gone, ledger.step next = .ok ledger' ∧ ledger'.Balanced ∧
      ledger'.reported = ledger.reported ++ gone ∧
      ledger.level.book.Enters ledger.level.Fits next.1 next.2 gone ledger'.level.book := by
  obtain ⟨c', gone, ran, inv', cfg, enters⟩ :=
    LevelStep.apply_enters balanced.inv balanced.handled next.1 roomy
  refine ⟨⟨c', ledger.stored + next.2.stores ledger.level.Fits, ledger.reported ++ gone⟩, gone, ?_,
    ⟨inv', by rw [cfg]; exact balanced.handled, ?_⟩, rfl, enters⟩
  · rw [Ledger.step, ran]
    rfl
  · -- What the step stores is live now, or in the place of what it reports.
    have moved := LevelStep.pairs_eq enters
    simp only [Book.reported_append]
    rw [balanced.exact, balanced.inv.livePairs_eq, inv'.livePairs_eq]
    calc Book.pairs ledger.level.book + Book.reported ledger.reported + next.2.stores ledger.level.Fits
        = Book.pairs ledger.level.book + next.2.stores ledger.level.Fits
            + Book.reported ledger.reported := by abel
      _ = Book.pairs c'.book + Book.reported gone + Book.reported ledger.reported := by rw [moved]
      _ = Book.pairs c'.book + (Book.reported ledger.reported + Book.reported gone) := by abel

end Ledger

variable [DecidableEq K] [Inhabited K] [Inhabited V]

end Memstash
