import Memstash.Cache.Probes

/-! The shard invariant: the queue, the counters and the weight agree with the table. -/

namespace Memstash

open Probing Scan RangeSum MetaWord Finset

variable {K V : Type}

namespace Item

/-- One for a live item. -/
def liveOne (item : Item K V) : Int :=
  match item.cell with
  | .live _ => 1
  | _ => 0

/-- One for a dead item, whether or not its queue node is gone. -/
def deadOne (item : Item K V) : Int :=
  match item.cell with
  | .tomb _ => 1
  | .released => 1
  | _ => 0

/-- The weight of a live item. -/
def costOne (cfg : ShardConfig K V) (item : Item K V) : Int :=
  match item.cell with
  | .live _ => cfg.rawCost item.entry.key item.entry.value
  | _ => 0

theorem liveOne_of_not_live {item : Item K V} (idle : ∀ key, item.cell ≠ .live key) :
    item.liveOne = 0 := by
  unfold liveOne
  split
  · rename_i key live; exact absurd live (idle key)
  · rfl

theorem costOne_of_not_live (cfg : ShardConfig K V) {item : Item K V}
    (idle : ∀ key, item.cell ≠ .live key) : item.costOne cfg = 0 := by
  unfold costOne
  split
  · rename_i key live; exact absurd live (idle key)
  · rfl

/-- Every item weighs at least one. -/
theorem rawCost_pos (cfg : ShardConfig K V) (key : K) (value : V) : 0 < cfg.rawCost key value := by
  unfold ShardConfig.rawCost
  cases cfg.costFunc with
  | none => exact one_pos
  | some cost =>
    dsimp only
    split
    · exact one_pos
    · -- A nonzero cost is a positive number.
      rename_i nonzero
      have : (cost key value).toNat ≠ 0 := fun zero =>
        nonzero (BitVec.eq_of_toNat_eq (by simpa using zero))
      omega

theorem costOne_nonneg (cfg : ShardConfig K V) (item : Item K V) : 0 ≤ item.costOne cfg := by
  unfold costOne
  split
  · exact (rawCost_pos cfg _ _).le
  · exact le_rfl

end Item

namespace FlatHashMap

variable {t : FlatHashMap K V}

/-- The total of a quantity over the slots. -/
def tally (f : Item K V → Int) (t : FlatHashMap K V) : Int := ∑ i ∈ range t.len, f (t.slots i)

/-- Writing one slot changes the total by what the slot changes by. -/
theorem tally_put (f : Item K V → Int) (t : FlatHashMap K V) (pos : Nat) (item : Item K V) :
    (t.put pos item).tally f = t.tally f + (f item - f (t.itemAt pos)) := by
  have change := sum_change (g := fun i => f ((t.put pos item).slots i)) (f := fun i => f (t.slots i))
    (t.wrap_lt pos) fun j _ other => by simp only [put_slots, if_neg other]
  simpa only [tally, put_len, put_slots, if_true, itemAt] using change

theorem tally_congr (f : Item K V → Int) {t t' : FlatHashMap K V} (mask : t'.mask = t.mask)
    (slots : t'.slots = t.slots) : t'.tally f = t.tally f := by
  simp only [tally, len, mask, slots]

@[simp] theorem tally_noteDisplaced (f : Item K V → Int) (t : FlatHashMap K V) (home pos : Nat) :
    (t.noteDisplaced home pos).tally f = t.tally f :=
  tally_congr f (noteDisplaced_mask _ _ _) (noteDisplaced_slots _ _ _)

@[simp] theorem tally_forgetDisplaced (f : Item K V → Int) (t : FlatHashMap K V) (home pos : Nat) :
    (t.forgetDisplaced home pos).tally f = t.tally f :=
  tally_congr f (forgetDisplaced_mask _ _ _) (forgetDisplaced_slots _ _ _)

theorem le_tally {f : Item K V → Int} (nonneg : ∀ item, 0 ≤ f item) (t : FlatHashMap K V)
    (pos : Nat) : f (t.itemAt pos) ≤ t.tally f :=
  single_le_sum (f := fun i => f (t.slots i)) (fun i _ => nonneg (t.slots i))
    (mem_range.mpr (t.wrap_lt pos))

/-- Every occupied slot is live or dead. -/
theorem occupied_eq_tally [DecidableEq K] (t : FlatHashMap K V) :
    occupied t.len t.cells = t.tally Item.liveOne + t.tally Item.deadOne := by
  rw [occupied, count, tally, tally, ← sum_add_distrib]
  refine sum_congr rfl fun i _ => ?_
  -- A slot is vacant, or it is counted on exactly one side.
  cases cell : (t.slots i).cell <;> simp [cells, Item.liveOne, Item.deadOne, cell]

/-- The queued nodes are those of the bound slots, each once. -/
structure Queues (t : FlatHashMap K V) (nodes : List QNode) : Prop where
  once : (nodes.map QNode.idx).Nodup
  bound : ∀ i, i ∈ nodes.map QNode.idx ↔ i < t.len ∧ ((t.cells i).key?).isSome = true

theorem Queues.perm {nodes nodes' : List QNode} (queues : t.Queues nodes)
    (perm : nodes'.Perm nodes) : t.Queues nodes' :=
  ⟨(perm.map _).nodup_iff.mpr queues.once, fun i =>
    ((perm.map QNode.idx).mem_iff).trans (queues.bound i)⟩

/-- A write that keeps a slot bound or unbound keeps the queue. -/
theorem Queues.same {nodes : List QNode} {t' : FlatHashMap K V} (queues : t.Queues nodes)
    (size : t'.len = t.len)
    (bound : ∀ i < t.len, ((t'.cells i).key?).isSome = ((t.cells i).key?).isSome) :
    t'.Queues nodes := by
  refine ⟨queues.once, fun i => (queues.bound i).trans ?_⟩
  rw [size]
  constructor
  · rintro ⟨inside, named⟩
    exact ⟨inside, (bound i inside).trans named⟩
  · rintro ⟨inside, named⟩
    exact ⟨inside, (bound i inside).symm.trans named⟩

/-- A newly bound slot needs a node of its own. -/
theorem Queues.bind {nodes : List QNode} {t' : FlatHashMap K V} {node : QNode}
    (queues : t.Queues nodes) (size : t'.len = t.len) (inside : node.idx < t.len)
    (before : (t.cells node.idx).key? = none) (after : ((t'.cells node.idx).key?).isSome = true)
    (others : ∀ i < t.len, i ≠ node.idx → t'.cells i = t.cells i) : t'.Queues (node :: nodes) := by
  have fresh : node.idx ∉ nodes.map QNode.idx := fun listed => by
    have := ((queues.bound _).mp listed).2
    rw [before] at this
    exact Bool.false_ne_true this
  refine ⟨by simpa using ⟨by simpa using fresh, queues.once⟩, fun i => ?_⟩
  rw [List.map_cons, List.mem_cons, queues.bound, size]
  by_cases here : i = node.idx
  · subst here
    simp [inside, after]
  · constructor
    · rintro (same | ⟨within, named⟩)
      · exact absurd same here
      · exact ⟨within, by rw [others i within here]; exact named⟩
    · rintro ⟨within, named⟩
      exact .inr ⟨within, by rw [← others i within here]; exact named⟩

/-- A slot that is no longer bound loses its node. -/
theorem Queues.unbind {nodes : List QNode} {t' : FlatHashMap K V} {node : QNode}
    (queues : t.Queues (node :: nodes)) (size : t'.len = t.len)
    (after : (t'.cells node.idx).key? = none)
    (others : ∀ i < t.len, i ≠ node.idx → t'.cells i = t.cells i) : t'.Queues nodes := by
  have distinct := queues.once
  rw [List.map_cons] at distinct
  obtain ⟨fresh, once⟩ := List.nodup_cons.mp distinct
  refine ⟨once, fun i => ?_⟩
  have listed := queues.bound i
  rw [List.map_cons, List.mem_cons] at listed
  rw [size]
  by_cases here : i = node.idx
  · subst here
    simp only [after, Option.isSome_none, Bool.false_eq_true, and_false, iff_false]
    simpa using fresh
  · constructor
    · intro member
      obtain ⟨within, named⟩ := listed.mp (.inr member)
      exact ⟨within, by rw [others i within here]; exact named⟩
    · rintro ⟨within, named⟩
      rcases listed.mpr ⟨within, by rw [← others i within here]; exact named⟩ with same | member
      · exact absurd same here
      · exact member

/-- Totals over the slots are totals over the queue, for what only live slots contribute. -/
theorem Queues.sum_eq {nodes : List QNode} (queues : t.Queues nodes) {f : Item K V → Int}
    (idle : ∀ item : Item K V, (∀ key, item.cell ≠ .live key) → f item = 0) :
    (nodes.map fun node => f (t.slots node.idx)).sum = t.tally f := by
  have listed : (nodes.map QNode.idx).toFinset ⊆ range t.len := fun i member =>
    mem_range.mpr ((queues.bound i).mp (List.mem_toFinset.mp member)).1
  rw [tally, ← sum_subset listed, List.sum_toFinset _ queues.once, List.map_map]
  · rfl
  · -- Slots that are not queued are not bound.
    intro i inside unlisted
    refine idle _ fun key live => unlisted (List.mem_toFinset.mpr ((queues.bound i).mpr ?_))
    exact ⟨mem_range.mp inside, by rw [cells, live]; rfl⟩

/-- The table serves a value for a key, with the lifetime the slot carries. -/
def Serves (t : FlatHashMap K V) (key : K) (value : V) (off : Nat) : Prop :=
  ∃ i < t.len, t.cells i = .live key ∧ (t.slots i).entry.value = value ∧
    (t.slots i).metaWord.expireOff = off

end FlatHashMap

/-- The table, the queue and the item counters agree. -/
structure Shard.Stored (cfg : ShardConfig K V) (sh : Shard K V) : Prop where
  /-- The table is well formed. -/
  table : sh.items.Inv cfg.keyHash
  /-- The policy is well formed. -/
  policy : sh.policy.Valid
  /-- The policy queues exactly the slots that are live or dead but not handed back. -/
  queues : sh.items.Queues sh.policy.queued
  /-- The live counter counts live slots. -/
  live : sh.live = sh.items.tally Item.liveOne
  /-- The dirty counter counts dead slots. -/
  dirty : sh.dirty = sh.items.tally Item.deadOne

/-- Table, queue and counters agree, and at most three quarters of the slots are occupied, whatever the shard weighs. -/
structure Shard.Housed (cfg : ShardConfig K V) (sh : Shard K V) : Prop extends Shard.Stored cfg sh where
  spacious : (sh.live + sh.dirty) * 4 ≤ sh.items.len * 3

/-- What every completed step of a shard preserves. -/
structure Shard.Inv (cfg : ShardConfig K V) (sh : Shard K V) : Prop extends Shard.Stored cfg sh where
  /-- The weight is the total cost of the live items. -/
  weight : sh.weight = sh.items.tally (Item.costOne cfg)
  /-- The weight has not left its 64-bit range. -/
  bounded : sh.weight < 2 ^ 63
  /-- At most three quarters of the slots are occupied. -/
  room : (sh.live + sh.dirty) * 4 ≤ sh.items.len * 3
  /-- The capacity is not negative. -/
  capacity : 0 ≤ sh.cap

theorem Shard.Inv.housed {cfg : ShardConfig K V} {sh : Shard K V} (inv : sh.Inv cfg) : sh.Housed cfg :=
  ⟨inv.toStored, inv.room⟩

end Memstash
