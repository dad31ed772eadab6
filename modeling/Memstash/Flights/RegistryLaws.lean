import Memstash.Flights.Registry

/-! Every key has at most one registered flight, wherever its bucket keeps it. -/

namespace Memstash

open Scan

variable {K V E : Type}

section Bits

theorem slotsOf_eq (m : BitVec 8) : slotsOf 8 m = (List.range 8).filter fun i => m.getLsbD i := by
  have all : ∀ n : Fin 256, slotsOf 8 (BitVec.ofFin n) = (List.range 8).filter
      fun i => (BitVec.ofFin n : BitVec 8).getLsbD i := by decide +kernel
  exact all m.toFin

/-- The lowest zero bit of a mask, or eight when there is none. -/
theorem trailingZeros8_not (m : BitVec 8) :
    (trailingZeros8 (~~~m) < 8 ∧ m.getLsbD (trailingZeros8 (~~~m)) = false) ∨
      (trailingZeros8 (~~~m) = 8 ∧ ∀ i < 8, m.getLsbD i = true) := by
  have all : ∀ n : Fin 256,
      (trailingZeros8 (~~~(BitVec.ofFin n : BitVec 8)) < 8 ∧
        (BitVec.ofFin n : BitVec 8).getLsbD (trailingZeros8 (~~~(BitVec.ofFin n : BitVec 8))) = false) ∨
      (trailingZeros8 (~~~(BitVec.ofFin n : BitVec 8)) = 8 ∧
        ∀ i < 8, (BitVec.ofFin n : BitVec 8).getLsbD i = true) := by decide +kernel
  exact all m.toFin

theorem getLsbD_bit : ∀ i < 8, ∀ j < 8, (1#8 <<< i).getLsbD j = decide (j = i) := by decide

theorem getLsbD_set (m : BitVec 8) {i j : Nat} (slot : i < 8) (inside : j < 8) :
    (m ||| 1#8 <<< i).getLsbD j = (m.getLsbD j || decide (j = i)) := by
  rw [BitVec.getLsbD_or, getLsbD_bit i slot j inside]

theorem getLsbD_clear (m : BitVec 8) {i j : Nat} (slot : i < 8) (inside : j < 8) :
    (m &&& ~~~(1#8 <<< i)).getLsbD j = (m.getLsbD j && !decide (j = i)) := by
  rw [BitVec.getLsbD_and, BitVec.getLsbD_not, getLsbD_bit i slot j inside]
  simp [inside]

end Bits

namespace Flights

/-- A place is its bucket and its slot. -/
theorem placeOf_toNat {bucket slot : Nat} (low : bucket < 2 ^ 8) (small : slot < 2 ^ 8) :
    (placeOf bucket slot).toNat = bucket * 2 ^ 8 + slot := by
  have shifted : (BitVec.ofNat 16 bucket <<< 8).toNat = bucket * 2 ^ 8 := by
    rw [BitVec.toNat_shiftLeft, BitVec.toNat_ofNat, Nat.shiftLeft_eq]
    omega
  rw [placeOf, BitVec.toNat_or, shifted, BitVec.toNat_ofNat, Nat.mod_eq_of_lt (by omega : slot < 2 ^ 16),
    ← Nat.shiftLeft_eq, ← Nat.shiftLeft_add_eq_or_of_lt small]

theorem placeOf_slot {bucket slot : Nat} (low : bucket < 2 ^ 8) (small : slot < 2 ^ 8) :
    (placeOf bucket slot &&& 0xFF#16).toNat = slot := by
  rw [BitVec.toNat_and, placeOf_toNat low small]
  show (bucket * 2 ^ 8 + slot) &&& (2 ^ 8 - 1) = slot
  rw [Nat.and_two_pow_sub_one_eq_mod]
  omega

theorem placeOf_bucket {bucket slot : Nat} (low : bucket < 2 ^ 8) (small : slot < 2 ^ 8) :
    (placeOf bucket slot).toNat / 2 ^ 8 = bucket := by
  rw [placeOf_toNat low small]
  omega

end Flights

namespace FlightBucket

variable [DecidableEq K]

/-- The call the overflow map has for a key. -/
def spilled (b : FlightBucket K) (key : K) : Option Nat := b.spill.bind (Finmap.lookup key)

/-- A bucket has a call, in a slot or in its overflow map. -/
def Has (b : FlightBucket K) (id : Nat) : Prop :=
  (∃ j < flightSlots, b.call j = some id) ∨ ∃ key, b.spilled key = some id

/-- The slots, the mask and the overflow map of a bucket agree, and no key is there twice. -/
structure Consistent (hash : K → BitVec 64) (home : K → Nat) (calls : Nat → FlightCall K V E) (i : Nat)
    (b : FlightBucket K) : Prop where
  /-- The mask tells the slots that are taken. -/
  live : ∀ j < flightSlots, b.live.getLsbD j = (b.call j).isSome
  /-- A call in a slot belongs there, and knows it. -/
  slot : ∀ j < flightSlots, ∀ id, b.call j = some id → b.hash j = hash (calls id).key ∧
    home (calls id).key = i ∧ (calls id).place = Flights.placeOf i j
  /-- An overflow map that is there has a call. -/
  needed : b.spill ≠ some ∅
  /-- A call in the overflow map belongs there, and knows it. -/
  spill : ∀ key id, b.spilled key = some id → (calls id).key = key ∧ home key = i ∧
    (calls id).place = Flights.placeOf i flightSpilled
  /-- No two slots have the same key. -/
  once : ∀ j < flightSlots, ∀ j' < flightSlots, ∀ id id', b.call j = some id → b.call j' = some id' →
    (calls id).key = (calls id').key → j = j'
  /-- A key with a slot is not in the overflow map. -/
  apart : ∀ j < flightSlots, ∀ id, b.call j = some id → b.spilled (calls id).key = none

variable {hash : K → BitVec 64} {home : K → Nat} {calls : Nat → FlightCall K V E} {i : Nat}
  {b : FlightBucket K}

theorem consistent_empty : (empty : FlightBucket K).Consistent hash home calls i := by
  refine ⟨fun j _ => ?_, fun _ _ _ none => ?_, ?_, fun _ _ none => ?_, fun _ _ _ _ _ _ none => ?_,
    fun _ _ _ none => ?_⟩
  · simp [empty]
  all_goals simp_all [empty, spilled]

/-- Two calls of a bucket for one key are the same call. -/
theorem Consistent.unique (consistent : b.Consistent hash home calls i) {id id' : Nat} (has : b.Has id)
    (has' : b.Has id') (same : (calls id).key = (calls id').key) : id = id' := by
  rcases has with ⟨j, inside, held⟩ | ⟨key, held⟩ <;> rcases has' with ⟨j', inside', held'⟩ | ⟨key', held'⟩
  · obtain rfl := consistent.once j inside j' inside' id id' held held' same
    rw [held] at held'
    exact Option.some_inj.mp held'
  · have none := consistent.apart j inside id held
    rw [same, (consistent.spill key' id' held').1, held'] at none
    cases none
  · have none := consistent.apart j' inside' id' held'
    rw [← same, (consistent.spill key id held).1, held] at none
    cases none
  · rw [(consistent.spill key id held).1, (consistent.spill key' id' held').1] at same
    rw [same, held'] at held
    exact (Option.some_inj.mp held).symm

/-- Every call of a bucket has the bucket as its home. -/
theorem Consistent.home_eq (consistent : b.Consistent hash home calls i) {id : Nat} (has : b.Has id) :
    home (calls id).key = i := by
  rcases has with ⟨j, inside, held⟩ | ⟨key, held⟩
  · exact (consistent.slot j inside id held).2.1
  · obtain ⟨named, here, _⟩ := consistent.spill key id held
    rw [named, here]

/-- A bucket depends on the calls it has only, and of those on the key and the place. -/
theorem Consistent.congr {calls' : Nat → FlightCall K V E} (consistent : b.Consistent hash home calls i)
    (same : ∀ id, b.Has id → (calls' id).key = (calls id).key ∧ (calls' id).place = (calls id).place) :
    b.Consistent hash home calls' i := by
  have slotSame : ∀ j < flightSlots, ∀ id, b.call j = some id → _ :=
    fun j inside id held => same id (.inl ⟨j, inside, held⟩)
  refine ⟨consistent.live, fun j inside id held => ?_, consistent.needed, fun key id held => ?_,
    fun j inside j' inside' id id' held held' keys => ?_, fun j inside id held => ?_⟩
  · obtain ⟨key, place⟩ := slotSame j inside id held
    rw [key, place]
    exact consistent.slot j inside id held
  · obtain ⟨named, place⟩ := same id (.inr ⟨key, held⟩)
    rw [named, place]
    exact consistent.spill key id held
  · rw [(slotSame j inside id held).1, (slotSame j' inside' id' held').1] at keys
    exact consistent.once j inside j' inside' id id' held held' keys
  · rw [(slotSame j inside id held).1]
    exact consistent.apart j inside id held

/-- Looking through slots that are taken finds the call of a key, or tells there is none. -/
theorem Consistent.find (consistent : b.Consistent hash home calls i) (key : K) (slots : List Nat)
    (taken : ∀ j ∈ slots, j < flightSlots ∧ (b.call j).isSome = true) :
    (∃ j < flightSlots, ∃ id, b.find calls (hash key) key slots = .ok (some id) ∧ b.call j = some id ∧
        (calls id).key = key) ∨
      (b.find calls (hash key) key slots = .ok none ∧
        ∀ j ∈ slots, ∀ id, b.call j = some id → (calls id).key ≠ key) := by
  induction slots with
  | nil => exact .inr ⟨rfl, by simp⟩
  | cons j rest ih =>
    obtain ⟨inside, some⟩ := taken j (by simp)
    obtain ⟨id, held⟩ := Option.isSome_iff_exists.mp some
    have hashed := (consistent.slot j inside id held).1
    have later := ih fun j' member => taken j' (by simp [member])
    by_cases named : (calls id).key = key
    · refine .inl ⟨j, inside, id, ?_, held, named⟩
      rw [FlightBucket.find, if_pos (by rw [hashed, named]), held]
      simp [named]
    · -- The slot is another key's, whether or not the hashes collide.
      have passed : b.find calls (hash key) key (j :: rest) = b.find calls (hash key) key rest := by
        rw [FlightBucket.find, held]
        split <;> simp [named]
      rw [passed]
      refine later.imp (fun found => found) fun ⟨missed, others⟩ => ⟨missed, fun j' member id' held' => ?_⟩
      rcases List.mem_cons.mp member with rfl | more
      · rw [held] at held'
        exact Option.some_inj.mp held' ▸ named
      · exact others j' more id' held'

/-- The bucket with a call added in a slot. -/
def park (b : FlightBucket K) (keyHash : BitVec 64) (j call : Nat) : FlightBucket K :=
  { b with
    hash := Function.update b.hash j keyHash
    call := Function.update b.call j (some call)
    live := b.live ||| 1#8 <<< j }

/-- The bucket with a call added to its overflow map. -/
def overflow (b : FlightBucket K) (key : K) (call : Nat) : FlightBucket K :=
  { b with spill := some ((b.spill.getD ∅).insert key call) }

/-- What an overflow map has after one more call. -/
theorem overflow_spilled (b : FlightBucket K) (key other : K) (call : Nat) :
    (b.overflow key call).spilled other = if other = key then some call else b.spilled other := by
  have before : b.spilled other = (b.spill.getD ∅).lookup other := by
    cases held : b.spill <;> simp [spilled, held]
  show ((b.spill.getD ∅).insert key call).lookup other = _
  split
  · rename_i same
    rw [same, Finmap.lookup_insert]
  · rename_i apart
    rw [Finmap.lookup_insert_of_ne _ apart, before]

section Adding

variable {call : Nat} {key : K} {calls' : Nat → FlightCall K V E}
  (consistent : b.Consistent hash home calls i) (fresh : ¬ b.Has call)
  (absent : ∀ id, b.Has id → (calls id).key ≠ key) (here : home key = i)
  (named : (calls' call).key = key) (others : ∀ id, id ≠ call → calls' id = calls id)

include consistent fresh absent here named others

/-- Parking a call of a new key in an empty slot keeps the bucket consistent. -/
theorem Consistent.park {j : Nat} (inside : j < flightSlots) (free : b.call j = none)
    (placed : (calls' call).place = Flights.placeOf i j) :
    (b.park (hash key) j call).Consistent hash home calls' i ∧
      ∀ id, (b.park (hash key) j call).Has id ↔ b.Has id ∨ id = call := by
  have slots : ∀ j' id, (b.park (hash key) j call).call j' = some id ↔
      (j' = j ∧ id = call) ∨ (j' ≠ j ∧ b.call j' = some id) := by
    intro j' id
    show Function.update b.call j (some call) j' = some id ↔ _
    by_cases same : j' = j
    · subst same
      simp [eq_comm]
    · simp [same]
  -- The calls that were there are other calls, of other keys.
  have kept : ∀ id, b.Has id → calls' id = calls id := fun id has =>
    others id fun same => fresh (same ▸ has)
  refine ⟨⟨fun j' inside' => ?_, fun j' inside' id held => ?_, consistent.needed, fun other id held => ?_,
    fun j₁ inside₁ j₂ inside₂ id₁ id₂ held₁ held₂ keys => ?_, fun j' inside' id held => ?_⟩, fun id => ?_⟩
  · show (b.live ||| 1#8 <<< j).getLsbD j' = (Function.update b.call j (some call) j').isSome
    rw [getLsbD_set b.live inside inside', consistent.live j' inside']
    by_cases same : j' = j
    · simp [same]
    · simp [same]
  · rcases (slots j' id).mp held with ⟨rfl, rfl⟩ | ⟨apart, before⟩
    · rw [named]
      exact ⟨Function.update_self _ _ _, here, placed⟩
    · rw [kept id (.inl ⟨j', inside', before⟩)]
      obtain ⟨hashed, belongs⟩ := consistent.slot j' inside' id before
      exact ⟨(Function.update_of_ne apart _ _).trans hashed, belongs⟩
  · rw [kept id (.inr ⟨other, held⟩)]
    exact consistent.spill other id held
  · rcases (slots j₁ id₁).mp held₁ with ⟨rfl, rfl⟩ | ⟨_, before₁⟩ <;>
      rcases (slots j₂ id₂).mp held₂ with ⟨rfl, rfl⟩ | ⟨_, before₂⟩
    · rfl
    · have has : b.Has id₂ := .inl ⟨j₂, inside₂, before₂⟩
      rw [named, kept id₂ has] at keys
      exact absurd keys.symm (absent id₂ has)
    · have has : b.Has id₁ := .inl ⟨j₁, inside₁, before₁⟩
      rw [named, kept id₁ has] at keys
      exact absurd keys (absent id₁ has)
    · rw [kept id₁ (.inl ⟨j₁, inside₁, before₁⟩), kept id₂ (.inl ⟨j₂, inside₂, before₂⟩)] at keys
      exact consistent.once j₁ inside₁ j₂ inside₂ id₁ id₂ before₁ before₂ keys
  · rcases (slots j' id).mp held with ⟨rfl, rfl⟩ | ⟨_, before⟩
    · rw [named]
      cases spilled : b.spilled key with
      | none => exact spilled
      | some id' => exact absurd (consistent.spill key id' spilled).1 (absent id' (.inr ⟨key, spilled⟩))
    · rw [kept id (.inl ⟨j', inside', before⟩)]
      exact consistent.apart j' inside' id before
  · constructor
    · rintro (⟨j', inside', held⟩ | spilled)
      · rcases (slots j' id).mp held with ⟨_, same⟩ | ⟨_, before⟩
        · exact .inr same
        · exact .inl (.inl ⟨j', inside', before⟩)
      · exact .inl (.inr spilled)
    · rintro ((⟨j', inside', before⟩ | spilled) | same)
      · refine .inl ⟨j', inside', (slots j' id).mpr (.inr ⟨?_, before⟩)⟩
        rintro rfl
        rw [free] at before
        cases before
      · exact .inr spilled
      · exact .inl ⟨j, inside, (slots j id).mpr (.inl ⟨rfl, same⟩)⟩

/-- Adding a call of a new key to the overflow map keeps the bucket consistent. -/
theorem Consistent.overflow (placed : (calls' call).place = Flights.placeOf i flightSpilled) :
    (b.overflow key call).Consistent hash home calls' i ∧
      ∀ id, (b.overflow key call).Has id ↔ b.Has id ∨ id = call := by
  have kept : ∀ id, b.Has id → calls' id = calls id := fun id has =>
    others id fun same => fresh (same ▸ has)
  refine ⟨⟨consistent.live, fun j inside id held => ?_, ?_, fun other id held => ?_,
    fun j₁ inside₁ j₂ inside₂ id₁ id₂ held₁ held₂ keys => ?_, fun j inside id held => ?_⟩, fun id => ?_⟩
  · rw [kept id (.inl ⟨j, inside, held⟩)]
    exact consistent.slot j inside id held
  · -- The map has the new call.
    intro empty
    have held := overflow_spilled b key key call
    rw [if_pos rfl, spilled, empty] at held
    simp at held
  · rw [overflow_spilled] at held
    split at held
    · rename_i same
      obtain rfl := Option.some_inj.mp held
      rw [same, named]
      exact ⟨rfl, here, placed⟩
    · rw [kept id (.inr ⟨other, held⟩)]
      exact consistent.spill other id held
  · rw [kept id₁ (.inl ⟨j₁, inside₁, held₁⟩), kept id₂ (.inl ⟨j₂, inside₂, held₂⟩)] at keys
    exact consistent.once j₁ inside₁ j₂ inside₂ id₁ id₂ held₁ held₂ keys
  · have has : b.Has id := .inl ⟨j, inside, held⟩
    rw [kept id has, overflow_spilled, if_neg (absent id has)]
    exact consistent.apart j inside id held
  · constructor
    · rintro (slot | ⟨other, held⟩)
      · exact .inl (.inl slot)
      · rw [overflow_spilled] at held
        split at held
        · exact .inr (Option.some_inj.mp held).symm
        · exact .inl (.inr ⟨other, held⟩)
    · rintro ((slot | ⟨other, held⟩) | same)
      · exact .inl slot
      · refine .inr ⟨other, ?_⟩
        have apart : other ≠ key := fun same => absent id (.inr ⟨other, held⟩)
          ((consistent.spill other id held).1.trans same)
        rw [overflow_spilled, if_neg apart, held]
      · exact .inr ⟨key, by rw [overflow_spilled, if_pos rfl, same]⟩

end Adding

section Removing

variable {call : Nat} (consistent : b.Consistent hash home calls i) (low : i < 2 ^ 8)
include consistent low

/-- Emptying the slot of a call takes that call out of the bucket, and no other. -/
theorem Consistent.unpark_slot {j : Nat} (inside : j < flightSlots) (held : b.call j = some call) :
    ∃ b', Flights.unpark b (calls call) = .ok b' ∧ b'.Consistent hash home calls i ∧
      ∀ id, b'.Has id ↔ b.Has id ∧ id ≠ call := by
  have placed := (consistent.slot j inside call held).2.2
  have small : j < 2 ^ 8 := by unfold flightSlots at inside; omega
  have slot : ((calls call).place &&& 0xFF#16).toNat = j := by rw [placed, Flights.placeOf_slot low small]
  have taken : j ≠ flightSpilled := by unfold flightSlots at inside; unfold flightSpilled; omega
  have slots : ∀ j' id, Function.update b.call j none j' = some id ↔ j' ≠ j ∧ b.call j' = some id := by
    intro j' id
    by_cases same : j' = j
    · simp [same]
    · simp [same]
  let b' : FlightBucket K :=
    { b with live := b.live &&& ~~~(1#8 <<< j), call := Function.update b.call j none }
  have ran : Flights.unpark b (calls call) = .ok b' := by
    rw [Flights.unpark, slot, if_pos taken, if_pos inside]
  refine ⟨b', ran, ⟨fun j' inside' => ?_,
    fun j' inside' id held' => consistent.slot j' inside' id ((slots j' id).mp held').2, consistent.needed,
    consistent.spill, fun j₁ inside₁ j₂ inside₂ id₁ id₂ held₁ held₂ =>
      consistent.once j₁ inside₁ j₂ inside₂ id₁ id₂ ((slots j₁ id₁).mp held₁).2 ((slots j₂ id₂).mp held₂).2,
    fun j' inside' id held' => consistent.apart j' inside' id ((slots j' id).mp held').2⟩, fun id => ?_⟩
  · show (b.live &&& ~~~(1#8 <<< j)).getLsbD j' = (Function.update b.call j none j').isSome
    rw [getLsbD_clear b.live inside inside', consistent.live j' inside']
    by_cases same : j' = j
    · simp [same]
    · simp [same]
  · -- A call is in one place only, the one it knows.
    constructor
    · rintro (⟨j', inside', held'⟩ | ⟨key, spilled⟩)
      · obtain ⟨apart, before⟩ := (slots j' id).mp held'
        refine ⟨.inl ⟨j', inside', before⟩, ?_⟩
        rintro rfl
        exact apart (consistent.once j' inside' j inside _ _ before held rfl)
      · refine ⟨.inr ⟨key, spilled⟩, ?_⟩
        rintro rfl
        have absent := consistent.apart j inside id held
        have listed : b.spilled key = some id := spilled
        rw [(consistent.spill key id listed).1, listed] at absent
        cases absent
    · rintro ⟨⟨j', inside', before⟩ | spilled, apart⟩
      · refine .inl ⟨j', inside', (slots j' id).mpr ⟨?_, before⟩⟩
        rintro rfl
        rw [held] at before
        exact apart (Option.some_inj.mp before).symm
      · exact .inr spilled

/-- Erasing a call from the overflow map takes that call out of the bucket, and no other. -/
theorem Consistent.unpark_spilled {key : K} (held : b.spilled key = some call) :
    ∃ b', Flights.unpark b (calls call) = .ok b' ∧ b'.Consistent hash home calls i ∧
      ∀ id, b'.Has id ↔ b.Has id ∧ id ≠ call := by
  obtain ⟨named, _, placed⟩ := consistent.spill key call held
  have slot : ((calls call).place &&& 0xFF#16).toNat = flightSpilled := by
    rw [placed, Flights.placeOf_slot low (by decide)]
  let spill := (b.spill.getD ∅).erase key
  let b' : FlightBucket K := { b with spill := if spill.keys.card = 0 then none else some spill }
  have ran : Flights.unpark b (calls call) = .ok b' := by
    rw [Flights.unpark, slot, if_neg (by simp), named]
  -- What is left in the map, whether or not the map itself is.
  have left : ∀ other, b'.spilled other = if other = key then none else b.spilled other := by
    intro other
    have kept : b'.spilled other = spill.lookup other := by
      show (if spill.keys.card = 0 then none else some spill).bind _ = _
      split
      · rename_i zero
        have none : spill.lookup other = none := by
          rw [Finmap.lookup_eq_none, ← Finmap.mem_keys, Finset.card_eq_zero.mp zero]
          simp
        rw [none]
        rfl
      · rfl
    have before : b.spilled other = (b.spill.getD ∅).lookup other := by
      cases some : b.spill <;> simp [spilled, some]
    rw [kept]
    split
    · rename_i same
      rw [same]
      exact Finmap.lookup_erase _ _
    · rename_i apart
      rw [before]
      exact Finmap.lookup_erase_ne apart
  have earlier : ∀ other id, b'.spilled other = some id → b.spilled other = some id ∧ other ≠ key := by
    intro other id listed
    rw [left] at listed
    split at listed
    · cases listed
    · rename_i apart
      exact ⟨listed, apart⟩
  refine ⟨b', ran, ⟨consistent.live, consistent.slot, ?_, fun other id listed =>
    consistent.spill other id (earlier other id listed).1, consistent.once, fun j inside id listed => ?_⟩,
    fun id => ?_⟩
  · show (if spill.keys.card = 0 then none else some spill) ≠ some ∅
    split
    · simp
    · rename_i nonempty
      intro empty
      rw [Option.some_inj.mp empty] at nonempty
      simp at nonempty
  · rw [left]
    split
    · rfl
    · exact consistent.apart j inside id listed
  · constructor
    · rintro (⟨j, inside, listed⟩ | ⟨other, listed⟩)
      · refine ⟨.inl ⟨j, inside, listed⟩, ?_⟩
        rintro rfl
        have absent := consistent.apart j inside id listed
        rw [named, held] at absent
        cases absent
      · obtain ⟨before, apart⟩ := earlier other id listed
        refine ⟨.inr ⟨other, before⟩, ?_⟩
        rintro rfl
        exact apart ((consistent.spill other id before).1.symm.trans named)
    · rintro ⟨slot | ⟨other, before⟩, apart⟩
      · exact .inl slot
      · refine .inr ⟨other, ?_⟩
        have away : other ≠ key := by
          rintro rfl
          rw [held] at before
          exact apart (Option.some_inj.mp before).symm
        rw [left, if_neg away, before]

/-- Taking a call out of its bucket leaves the others. -/
theorem Consistent.unpark (has : b.Has call) :
    ∃ b', Flights.unpark b (calls call) = .ok b' ∧ b'.Consistent hash home calls i ∧
      ∀ id, b'.Has id ↔ b.Has id ∧ id ≠ call := by
  rcases has with ⟨j, inside, held⟩ | ⟨key, held⟩
  · exact consistent.unpark_slot low inside held
  · exact consistent.unpark_spilled low held

end Removing

end FlightBucket

namespace Flights

variable [DecidableEq K] {hash : K → BitVec 64} {s : Flights K V E}

/-- A call is registered in one of the buckets. -/
def Registered (s : Flights K V E) (id : Nat) : Prop := ∃ i ≤ s.mask, (s.buckets i).Has id

/-- Every bucket is consistent, with keys of its own. -/
structure Consistent (hash : K → BitVec 64) (s : Flights K V E) : Prop where
  /-- The number of a bucket fits a byte. -/
  size : s.mask < 2 ^ 8
  bucket : ∀ i ≤ s.mask,
    (s.buckets i).Consistent hash (fun key => s.bucketOf (hash key)) s.calls i

omit [DecidableEq K] in
theorem bucketOf_le (s : Flights K V E) (keyHash : BitVec 64) : s.bucketOf keyHash ≤ s.mask :=
  Nat.and_le_right

/-- A registry without flights is consistent, and has none. -/
theorem consistent_empty (hash : K → BitVec 64) {mask : Nat} (size : mask < 2 ^ 8)
    (calls : Nat → FlightCall K V E) :
    (empty mask calls).Consistent hash ∧ ∀ id, ¬ (empty mask calls).Registered id := by
  refine ⟨⟨size, fun i _ => FlightBucket.consistent_empty⟩, ?_⟩
  rintro id ⟨i, _, ⟨j, _, held⟩ | ⟨key, held⟩⟩
  · cases held
  · cases held

/-- A registered call is in the bucket of its key. -/
theorem Consistent.has_iff (consistent : s.Consistent hash) (id : Nat) :
    s.Registered id ↔ (s.buckets (s.bucketOf (hash (s.calls id).key))).Has id := by
  constructor
  · rintro ⟨i, inside, has⟩
    rw [(consistent.bucket i inside).home_eq has]
    exact has
  · exact fun has => ⟨_, bucketOf_le _ _, has⟩

/-- At most one call is registered for a key. -/
theorem Consistent.unique (consistent : s.Consistent hash) {id id' : Nat} (registered : s.Registered id)
    (registered' : s.Registered id') (same : (s.calls id).key = (s.calls id').key) : id = id' := by
  have has := (consistent.has_iff id).mp registered
  have has' := (consistent.has_iff id').mp registered'
  rw [← same] at has'
  exact (consistent.bucket _ (bucketOf_le s _)).unique has has' same

/-- Changing a call without moving or renaming it keeps the registry consistent. -/
theorem Consistent.putCall (consistent : s.Consistent hash) {id : Nat} {call : FlightCall K V E}
    (key : call.key = (s.calls id).key) (place : call.place = (s.calls id).place) :
    (s.putCall id call).Consistent hash := by
  refine ⟨consistent.size, fun i inside => (consistent.bucket i inside).congr fun other _ => ?_⟩
  show (Function.update s.calls id call other).key = _ ∧ (Function.update s.calls id call other).place = _
  by_cases same : other = id
  · subst same
    simp [key, place]
  · simp [same]

/-- Replacing the bucket of a key, and the call it gains, keeps the registry consistent. -/
theorem Consistent.putBucket (consistent : s.Consistent hash) {key : K} {id : Nat}
    {call : FlightCall K V E} {b : FlightBucket K} (fresh : ¬ s.Registered id)
    (bucket : b.Consistent hash (fun key => s.bucketOf (hash key)) (Function.update s.calls id call)
      (s.bucketOf (hash key)))
    (gains : ∀ other, b.Has other ↔ (s.buckets (s.bucketOf (hash key))).Has other ∨ other = id) :
    ((s.putCall id call).putBucket (s.bucketOf (hash key)) b).Consistent hash ∧
      ∀ other, ((s.putCall id call).putBucket (s.bucketOf (hash key)) b).Registered other ↔
        s.Registered other ∨ other = id := by
  refine ⟨⟨consistent.size, fun i inside => ?_⟩, fun other => ?_⟩
  · show (Function.update s.buckets (s.bucketOf (hash key)) b i).Consistent hash _ _ i
    by_cases same : i = s.bucketOf (hash key)
    · subst same
      rw [Function.update_self]
      exact bucket
    · -- The other buckets do not have the call that changed.
      rw [Function.update_of_ne same]
      refine (consistent.bucket i inside).congr fun other has => ?_
      have apart : other ≠ id := fun same => fresh (same ▸ ⟨i, inside, has⟩)
      simp [Flights.putBucket, Flights.putCall, apart]
  · constructor
    · rintro ⟨i, inside, has⟩
      have has' : (Function.update s.buckets (s.bucketOf (hash key)) b i).Has other := has
      by_cases same : i = s.bucketOf (hash key)
      · subst same
        rw [Function.update_self] at has'
        exact ((gains other).mp has').imp (fun before => ⟨_, inside, before⟩) fun new => new
      · rw [Function.update_of_ne same] at has'
        exact .inl ⟨i, inside, has'⟩
    · intro either
      by_cases here : (s.buckets (s.bucketOf (hash key))).Has other ∨ other = id
      · refine ⟨s.bucketOf (hash key), bucketOf_le s (hash key), ?_⟩
        show (Function.update s.buckets (s.bucketOf (hash key)) b _).Has other
        rw [Function.update_self]
        exact (gains other).mpr here
      · simp only [not_or] at here
        obtain ⟨i, inside, has⟩ := either.resolve_right here.2
        refine ⟨i, inside, ?_⟩
        show (Function.update s.buckets (s.bucketOf (hash key)) b i).Has other
        rw [Function.update_of_ne]
        · exact has
        · rintro rfl
          exact here.1 has

/-- What claiming a key does: it joins the flight registered for the key, or registers its own. -/
inductive Claimed (s : Flights K V E) (key : K) (call : Nat) : Flights K V E → Nat → Bool → Prop
  | joined {winner : Nat} (running : s.Registered winner) (named : (s.calls winner).key = key) :
      Claimed s key call (s.join winner) winner true
  | owned {s' : Flights K V E} (absent : ∀ id, s.Registered id → (s.calls id).key ≠ key)
      (registers : ∀ id, s'.Registered id ↔ s.Registered id ∨ id = call) (mask : s'.mask = s.mask)
      (named : (s'.calls call).key = key) (others : ∀ id, id ≠ call → s'.calls id = s.calls id) :
      Claimed s key call s' call false

section Claiming

variable {key : K}

/-- A claim joins the flight one of the slots has for its key. -/
theorem claim_of_found {winner call : Nat}
    (found : (s.buckets (s.bucketOf (hash key))).find s.calls (hash key) key
      (slotsOf flightSlots (s.buckets (s.bucketOf (hash key))).live) = .ok (some winner)) :
    s.claim (hash key) key call = .ok (s.join winner, winner, true) := by
  simp only [Flights.claim, found, Bind.bind, Except.bind, Pure.pure, Except.pure]

variable (missed : (s.buckets (s.bucketOf (hash key))).find s.calls (hash key) key
  (slotsOf flightSlots (s.buckets (s.bucketOf (hash key))).live) = .ok none)
include missed

/-- A claim joins the flight the overflow map has for its key. -/
theorem claim_of_spilled {winner call : Nat}
    (spilled : (s.buckets (s.bucketOf (hash key))).spilled key = some winner) :
    s.claim (hash key) key call = .ok (s.join winner, winner, true) := by
  unfold FlightBucket.spilled at spilled
  simp only [Flights.claim, missed, spilled, Bind.bind, Except.bind, Pure.pure, Except.pure]

/-- A claim that finds no flight for its key registers its own call. -/
theorem claim_of_absent {call free : Nat}
    (lowest : trailingZeros8 (~~~(s.buckets (s.bucketOf (hash key))).live) = free)
    (absent : (s.buckets (s.bucketOf (hash key))).spilled key = none) :
    s.claim (hash key) key call = if free = flightSlots then
      .ok ((s.putCall call { s.calls call with
          key := key, place := placeOf (s.bucketOf (hash key)) flightSpilled }).putBucket
        (s.bucketOf (hash key)) ((s.buckets (s.bucketOf (hash key))).overflow key call), call, false)
    else
      .ok ((s.putCall call { s.calls call with
          key := key, place := placeOf (s.bucketOf (hash key)) free }).putBucket
        (s.bucketOf (hash key)) ((s.buckets (s.bucketOf (hash key))).park (hash key) free call),
        call, false) := by
  subst lowest
  unfold FlightBucket.spilled at absent
  simp only [Flights.claim, missed, absent, Bind.bind, Except.bind, Pure.pure, Except.pure]
  rfl

end Claiming

/-- A claim by a call that is not registered returns, and does what it should. -/
theorem Consistent.claim (consistent : s.Consistent hash) (key : K) {call : Nat}
    (fresh : ¬ s.Registered call) :
    ∃ s' winner running, s.claim (hash key) key call = .ok (s', winner, running) ∧
      s'.Consistent hash ∧ Claimed s key call s' winner running := by
  have inside : s.bucketOf (hash key) ≤ s.mask := bucketOf_le s _
  have bucket := consistent.bucket _ inside
  have joins : ∀ winner, (s.buckets (s.bucketOf (hash key))).Has winner → (s.calls winner).key = key →
      (s.join winner).Consistent hash ∧ Claimed s key call (s.join winner) winner true :=
    fun winner has named => ⟨consistent.putCall rfl rfl, .joined ⟨_, inside, has⟩ named⟩
  -- The loop visits the slots that are taken, all of them.
  have visited : ∀ j, j ∈ slotsOf flightSlots (s.buckets (s.bucketOf (hash key))).live ↔
      j < flightSlots ∧ ((s.buckets (s.bucketOf (hash key))).call j).isSome = true := by
    intro j
    rw [flightSlots, slotsOf_eq, List.mem_filter, List.mem_range]
    exact and_congr_right fun slot => by rw [bucket.live j slot]
  rcases bucket.find key _ fun j member => (visited j).mp member with
    ⟨j, slot, winner, found, held, named⟩ | ⟨missed, others⟩
  · obtain ⟨kept, claimed⟩ := joins winner (.inl ⟨j, slot, held⟩) named
    exact ⟨_, _, _, claim_of_found found, kept, claimed⟩
  cases spilled : (s.buckets (s.bucketOf (hash key))).spilled key with
  | some winner =>
    obtain ⟨kept, claimed⟩ := joins winner (.inr ⟨key, spilled⟩) (bucket.spill key winner spilled).1
    exact ⟨_, _, _, claim_of_spilled missed spilled, kept, claimed⟩
  | none =>
    -- Nothing in the bucket is the key's, so nothing in the registry is.
    have unheld : ∀ id, (s.buckets (s.bucketOf (hash key))).Has id → (s.calls id).key ≠ key := by
      rintro id (⟨j, slot, held⟩ | ⟨other, held⟩) named
      · exact others j ((visited j).mpr ⟨slot, by rw [held]; rfl⟩) id held named
      · obtain rfl : other = key := (bucket.spill other id held).1.symm.trans named
        rw [held] at spilled
        cases spilled
    have absent : ∀ id, s.Registered id → (s.calls id).key ≠ key := by
      intro id registered named
      have has := (consistent.has_iff id).mp registered
      rw [named] at has
      exact unheld id has named
    have notHere : ¬ (s.buckets (s.bucketOf (hash key))).Has call := fun has => fresh ⟨_, inside, has⟩
    have kept : ∀ (parked : FlightCall K V E) id, id ≠ call →
        Function.update s.calls call parked id = s.calls id :=
      fun parked id apart => Function.update_of_ne apart _ _
    rw [claim_of_absent missed rfl spilled]
    rcases trailingZeros8_not (s.buckets (s.bucketOf (hash key))).live with ⟨slot, free⟩ | ⟨full, _⟩
    · rw [if_neg (by unfold flightSlots; omega)]
      have empty := bucket.live _ slot
      rw [free, eq_comm, Option.isSome_eq_false_iff, Option.isNone_iff_eq_none] at empty
      obtain ⟨parked, gains⟩ := bucket.park notHere unheld rfl (by rw [Function.update_self])
        (kept { s.calls call with
          key := key, place := placeOf (s.bucketOf (hash key)) _ }) slot empty (by rw [Function.update_self])
      obtain ⟨consistent', registers⟩ := consistent.putBucket fresh parked gains
      exact ⟨_, _, _, rfl, consistent', .owned absent registers rfl
        (by simp [Flights.putBucket, Flights.putCall]) (kept _)⟩
    · have every : trailingZeros8 (~~~(s.buckets (s.bucketOf (hash key))).live) = flightSlots := full
      rw [if_pos every]
      obtain ⟨parked, gains⟩ := bucket.overflow notHere unheld rfl (by rw [Function.update_self])
        (kept { s.calls call with
          key := key, place := placeOf (s.bucketOf (hash key)) flightSpilled })
        (by rw [Function.update_self])
      obtain ⟨consistent', registers⟩ := consistent.putBucket fresh parked gains
      exact ⟨_, _, _, rfl, consistent', .owned absent registers rfl
        (by simp [Flights.putBucket, Flights.putCall]) (kept _)⟩

/-- Releasing a registered call returns, and takes that call out and no other. -/
theorem Consistent.release (consistent : s.Consistent hash) {call : Nat} (registered : s.Registered call) :
    ∃ s', s.release call = .ok s' ∧ s'.Consistent hash ∧ s'.mask = s.mask ∧
      (∀ id, s'.Registered id ↔ s.Registered id ∧ id ≠ call) ∧
      (∀ id, id ≠ call → s'.calls id = s.calls id) ∧
      s'.calls call = { s.calls call with
        finished := (s.calls call).joined || (s.calls call).finished } := by
  obtain ⟨i, inside, has⟩ := registered
  have bucket := consistent.bucket i inside
  have low : i < 2 ^ 8 := lt_of_le_of_lt inside consistent.size
  -- The call knows the bucket it is in.
  have here : (s.calls call).place.toNat / 2 ^ 8 = i := by
    rcases has with ⟨j, slot, held⟩ | ⟨key, held⟩
    · rw [(bucket.slot j slot call held).2.2, placeOf_bucket low (by unfold flightSlots at slot; omega)]
    · rw [(bucket.spill key call held).2.2, placeOf_bucket low (by decide)]
  obtain ⟨b', unparked, consistent', left⟩ := bucket.unpark low has
  have kept : (s.putBucket i b').Consistent hash := by
    refine ⟨consistent.size, fun i' inside' => ?_⟩
    show (Function.update s.buckets i b' i').Consistent hash _ _ i'
    by_cases same : i' = i
    · subst same
      rw [Function.update_self]
      exact consistent'
    · rw [Function.update_of_ne same]
      exact consistent.bucket i' inside'
  have registers : ∀ id, (s.putBucket i b').Registered id ↔ s.Registered id ∧ id ≠ call := by
    intro id
    constructor
    · rintro ⟨i', inside', has'⟩
      have has' : (Function.update s.buckets i b' i').Has id := has'
      by_cases same : i' = i
      · subst same
        rw [Function.update_self] at has'
        obtain ⟨before, apart⟩ := (left id).mp has'
        exact ⟨⟨i', inside', before⟩, apart⟩
      · rw [Function.update_of_ne same] at has'
        refine ⟨⟨i', inside', has'⟩, ?_⟩
        rintro rfl
        -- One call is not in two buckets.
        exact same ((consistent.bucket i' inside').home_eq has' ▸ (bucket.home_eq has).symm ▸ rfl)
    · rintro ⟨⟨i', inside', before⟩, apart⟩
      refine ⟨i', inside', ?_⟩
      show (Function.update s.buckets i b' i').Has id
      by_cases same : i' = i
      · subst same
        rw [Function.update_self]
        exact (left id).mpr ⟨before, apart⟩
      · rw [Function.update_of_ne same]
        exact before
  have ran : s.release call = (if (s.calls call).joined then
      .ok ((s.putBucket i b').putCall call { s.calls call with finished := true })
      else .ok (s.putBucket i b')) := by
    unfold Flights.release
    rw [here]
    simp only [if_neg (not_lt.mpr inside), unparked, Bind.bind, Except.bind, Pure.pure, Except.pure]
    rfl
  rw [ran]
  cases flag : (s.calls call).joined with
  | true =>
    refine ⟨_, rfl, kept.putCall rfl rfl, rfl, registers, fun id apart => ?_, ?_⟩
    · exact Function.update_of_ne apart _ _
    · exact Function.update_self _ _ _
  | false =>
    exact ⟨_, rfl, kept, rfl, registers, fun _ _ => rfl, rfl⟩

end Flights

end Memstash
