import Memstash.Lib.Machine
import Memstash.Lib.Probing
import Memstash.Lib.Runs

/-! The membership helper: a linear hash table of keys that only grows. -/

namespace Memstash

open Scan Probing RangeSum Machine

/-- One slot of the backing array; a zero tag means it is empty. -/
structure SetSlot (K : Type) where
  tag : BitVec 64
  key : K

instance {K : Type} [Inhabited K] : Inhabited (SetSlot K) := ⟨⟨0#64, default⟩⟩

/-- A set of keys; the slots are meaningful up to the length of the array. -/
structure KeySet (K : Type) where
  len : Nat
  slots : Nat → SetSlot K
  count : Nat

/-- The smallest array a set grows to. -/
def setMinSlots : Nat := 8

namespace KeySet

variable {K : Type} [Inhabited K]

/-- A set over a zeroed array. -/
def zeroed (len : Nat) : KeySet K := { len := len, slots := fun _ => default, count := 0 }

/-- A set with room for so many keys; the size is an `int`, and a negative one panics. -/
def newSet (capacity : Int) : Except Fault (KeySet K) :=
  if capacity ≤ 0 then .ok (zeroed 0)
  else
    let size := int64 (2 ^ Nat.size ((2 * capacity - 1) % 2 ^ 64).toNat)
    if size < 0 then .error .panic else .ok (zeroed size.toNat)

/-- A set backed by a zeroed buffer, of which it takes the largest power-of-two beginning. -/
def newSetFrom (n : Nat) : KeySet K :=
  zeroed (if n &&& (n - 1) ≠ 0 then 2 ^ (Nat.size n - 1) else n)

section Probe

variable (hash : K → BitVec 64) (s : KeySet K)

/-- The array length minus one, as a `uint32`. -/
def mask : Nat := (s.len + (2 ^ 32 - 1)) % 2 ^ 32

/-- The slot where the walk for a key starts. -/
def start (key : K) : Nat := (hash key >>> 32).toNat

/-- One step of the walk for a key: an empty slot or the key ends it, an index past the array panics.
The position is a `uint32`, and the mask absorbs its wrap. -/
def probeVisit [DecidableEq K] (key : K) (pos : Nat) : Option (Except Fault (Bool × Nat)) :=
  if pos &&& s.mask < s.len then
    let slot := s.slots (pos &&& s.mask)
    if slot.tag = 0#64 then some (.ok (false, pos))
    else if slot.tag = hash key ||| 1#64 ∧ slot.key = key then some (.ok (true, pos))
    else none
  else some (.error .panic)

/-- The walk for a key; after one pass over the slots it would go on forever. -/
def probe [DecidableEq K] (key : K) : Except Fault (Bool × Nat) :=
  scan (s.probeVisit hash key) (s.mask + 1) (start hash key)

/-- Whether a key was added. -/
def exists? [DecidableEq K] (key : K) : Except Fault Bool :=
  if s.count = 0 then .ok false else (s.probe hash key).map Prod.fst

/-- Drop the key into a table that has room. -/
def place [DecidableEq K] (key : K) : Except Fault (KeySet K) := do
  let (found, pos) ← s.probe hash key
  if found then return s
  return { s with slots := Function.update s.slots (pos &&& s.mask) ⟨hash key ||| 1#64, key⟩,
                  count := s.count + 1 }

/-- Double the table and refill it. -/
def grow [DecidableEq K] : Except Fault (KeySet K) :=
  let size := s.len * 2
  let fresh := zeroed (if size = 0 then setMinSlots else size)
  (List.range s.len).foldlM (fun fresh i =>
    if (s.slots i).tag ≠ 0#64 then fresh.place hash (s.slots i).key else .ok fresh) fresh

/-- Make room for one more key when half of the slots are taken. -/
def ready [DecidableEq K] : Except Fault (KeySet K) := if s.count ≥ s.len / 2 then s.grow hash else .ok s

/-- Add a key. -/
def add [DecidableEq K] (key : K) : Except Fault (KeySet K) := do
  let s ← s.ready hash
  s.place hash key

end Probe

/-- The number of slots a walk goes round. -/
def ring (s : KeySet K) : Nat := s.mask + 1

/-- What each slot is to a walk. -/
def cells (s : KeySet K) (i : Nat) : Cell K :=
  if (s.slots i).tag = 0#64 then .vacant else .live (s.slots i).key

/-- The slots hold these keys, each once and on its path, and nothing else. -/
structure Holds [DecidableEq K] (hash : K → BitVec 64) (s : KeySet K) (held : Finset K) : Prop where
  sized : ∃ b, s.len = 2 ^ b
  chained : Chained s.ring (fun key => start hash key % s.ring) s.cells
  tagged : ∀ i, (s.slots i).tag ≠ 0#64 → (s.slots i).tag = hash (s.slots i).key ||| 1#64
  inside : ∀ i, (s.slots i).tag ≠ 0#64 → i < s.ring
  named : ∀ key, key ∈ held ↔ ∃ i, s.cells i = .live key
  count : s.count = held.card
  filled : occupied s.ring s.cells = held.card

section Laws

variable [DecidableEq K] {hash : K → BitVec 64} {s : KeySet K} {held : Finset K} {b : Nat}

omit [Inhabited K] [DecidableEq K] in
/-- Masks hold 32 bits, so a walk goes round no more than the first 2^32 slots. -/
theorem ring_eq (sized : s.len = 2 ^ b) : s.ring = 2 ^ min b 32 := by
  unfold ring mask
  rw [sized]
  rcases Nat.le_total b 32 with low | high
  · have small : 2 ^ b ≤ 2 ^ 32 := Nat.pow_le_pow_right (by omega) low
    have positive : 0 < 2 ^ b := Nat.two_pow_pos b
    rw [Nat.min_eq_left low]
    omega
  · obtain ⟨more, rfl⟩ : ∃ more, b = 32 + more := ⟨b - 32, by omega⟩
    rw [Nat.min_eq_right high, pow_add]
    have positive : 0 < 2 ^ more := Nat.two_pow_pos more
    have : 2 ^ 32 * 2 ^ more + (2 ^ 32 - 1) = (2 ^ 32 - 1) + 2 ^ 32 * 2 ^ more := by omega
    rw [this, Nat.add_mul_mod_self_left]
    norm_num

omit [Inhabited K] [DecidableEq K] in
/-- Masking a position takes it round the ring, which lies within the array. -/
theorem and_mask (sized : s.len = 2 ^ b) (pos : Nat) :
    pos &&& s.mask = pos % s.ring ∧ pos % s.ring < s.len := by
  have ring := ring_eq sized
  have mask : s.mask = 2 ^ min b 32 - 1 := by
    have := ring
    unfold KeySet.ring at this
    omega
  refine ⟨by rw [mask, ring, Nat.and_two_pow_sub_one_eq_mod], ?_⟩
  have positive : 0 < s.ring := by rw [ring]; exact Nat.two_pow_pos _
  have within : s.ring ≤ s.len := by
    rw [ring, sized]
    exact Nat.pow_le_pow_right (by omega) (Nat.min_le_left b 32)
  exact (Nat.mod_lt _ positive).trans_le within

omit [Inhabited K] in
/-- A step of the walk for a key is a step on the ring. -/
theorem Holds.probeVisit (holds : s.Holds hash held) (key : K) :
    s.probeVisit hash key = seekVisit s.ring key s.cells := by
  obtain ⟨b, sized⟩ := holds.sized
  funext pos
  obtain ⟨masked, inside⟩ := and_mask sized pos
  simp only [KeySet.probeVisit, masked, if_pos inside, seekVisit, cells]
  by_cases empty : (s.slots (pos % s.ring)).tag = 0#64
  · simp [empty]
  · -- A slot that holds the key carries its tag.
    have tag := holds.tagged _ empty
    simp only [if_neg empty]
    by_cases same : (s.slots (pos % s.ring)).key = key
    · rw [same] at tag
      simp [tag, same]
    · simp [same]

omit [Inhabited K] in
/-- While a slot of the ring is empty, the walk for a key ends at the key or where it belongs. -/
theorem Holds.probe (holds : s.Holds hash held) (room : held.card < s.ring) (key : K) :
    ∃ result, s.probe hash key = .ok result ∧ Sought s.ring (start hash key) key s.cells result := by
  unfold KeySet.probe
  rw [holds.probeVisit]
  exact seek_decides holds.chained (by rw [holds.filled]; exact_mod_cast room) rfl

omit [Inhabited K] in
/-- A key the set does not hold is in no slot. -/
theorem Holds.absent_iff (holds : s.Holds hash held) (key : K) :
    (∀ i < s.ring, s.cells i ≠ .live key) ↔ key ∉ held := by
  rw [holds.named]
  refine ⟨fun absent ⟨i, live⟩ => absent i (holds.inside i fun empty => ?_) live, fun missing i _ live => missing ⟨i, live⟩⟩
  simp [cells, empty] at live

omit [Inhabited K] in
/-- While a slot of the ring is empty, a lookup tells whether the key is held. -/
theorem Holds.exists? (holds : s.Holds hash held) (room : held.card < s.ring) (key : K) :
    s.exists? hash key = .ok (decide (key ∈ held)) := by
  unfold KeySet.exists?
  by_cases none : s.count = 0
  · have empty : held = ∅ := Finset.card_eq_zero.mp (by rw [← holds.count, none])
    simp [none, empty]
  · obtain ⟨result, ran, sought⟩ := holds.probe room key
    rw [if_neg none, ran]
    cases sought with
    | found _ live => simp [Except.map, (holds.named key).mpr ⟨_, live⟩]
    | missed _ _ _ absent => simp [Except.map, (holds.absent_iff key).mp absent]

omit [Inhabited K] in
/-- Filling the vacancy at the end of a new key's path adds the key. -/
theorem Holds.put (holds : s.Holds hash held) {i : Nat} {key : K} (within : i < s.ring)
    (vacant : s.cells i = .vacant) (path : Reached s.ring (start hash key % s.ring) s.cells i)
    (missing : key ∉ held) :
    Holds hash { s with slots := Function.update s.slots i ⟨hash key ||| 1#64, key⟩, count := s.count + 1 }
      (insert key held) := by
  set s' : KeySet K := { s with slots := Function.update s.slots i ⟨hash key ||| 1#64, key⟩, count := s.count + 1 }
    with after
  have ring : s'.ring = s.ring := rfl
  have tagNonzero : hash key ||| 1#64 ≠ 0#64 := by
    intro zero
    have low := congrArg (fun w : BitVec 64 => w.getLsbD 0) zero
    simp at low
  have written : s'.cells i = .live key := by simp [cells, after, tagNonzero]
  have others : ∀ j, j ≠ i → s'.cells j = s.cells j := fun j other => by
    simp [cells, after, Function.update_of_ne other]
  have slots : ∀ j, j ≠ i → s'.slots j = s.slots j := fun j other => Function.update_of_ne other _ _
  refine ⟨holds.sized, ?_, fun j => ?_, fun j => ?_, fun other => ?_, ?_, ?_⟩
  · refine holds.chained.place (fun j _ other => others j other) (by rw [written]; rfl) ?_ path
    intro j inside _ bound
    unfold cells at bound
    split at bound
    · cases bound
    · rename_i filled
      exact (holds.absent_iff key).mpr missing j inside (by simpa [cells, filled] using bound)
  · by_cases same : j = i
    · subst same
      simp [after]
    · rw [slots j same]
      exact holds.tagged j
  · rw [ring]
    by_cases same : j = i
    · exact fun _ => same ▸ within
    · rw [slots j same]
      exact holds.inside j
  · rw [Finset.mem_insert, holds.named]
    constructor
    · rintro (rfl | ⟨j, live⟩)
      · exact ⟨i, written⟩
      · have elsewhere : j ≠ i := fun same => by
          rw [same, vacant] at live
          cases live
        exact ⟨j, by rw [others j elsewhere, live]⟩
    · rintro ⟨j, live⟩
      by_cases same : j = i
      · rw [same, written] at live
        exact .inl (Cell.live.inj live).symm
      · exact .inr ⟨j, by rwa [others j same] at live⟩
  · rw [Finset.card_insert_of_notMem missing, ← holds.count]
  · have moved : occupied s.ring s'.cells = occupied s.ring s.cells
        + ((if s'.cells i ≠ .vacant then 1 else 0) - if s.cells i ≠ .vacant then 1 else 0) :=
      count_change within fun j _ other => by rw [others j other]
    rw [Finset.card_insert_of_notMem missing, ring, moved, holds.filled, written, vacant]
    simp

omit [Inhabited K] in
/-- While a slot of the ring is empty, a key is placed, and nothing else changes. -/
theorem Holds.place (holds : s.Holds hash held) (room : held.card < s.ring) (key : K) :
    ∃ s', s.place hash key = .ok s' ∧ s'.Holds hash (insert key held) ∧ s'.len = s.len := by
  obtain ⟨b, sized⟩ := holds.sized
  obtain ⟨result, ran, sought⟩ := holds.probe room key
  unfold KeySet.place
  rw [ran]
  cases sought with
  | found _ live =>
    have known : key ∈ held := (holds.named key).mpr ⟨_, live⟩
    exact ⟨s, rfl, by rwa [Finset.insert_eq_of_mem known], rfl⟩
  | @missed d near vacant filled absent =>
    have path : Reached s.ring (start hash key % s.ring) s.cells ((start hash key + d) % s.ring) :=
      ⟨d, near, by rw [Nat.mod_add_mod], fun e before => by rw [Nat.mod_add_mod]; exact filled e before⟩
    refine ⟨_, rfl, ?_, rfl⟩
    rw [(and_mask sized _).1]
    exact holds.put (Nat.mod_lt _ (by omega)) vacant path ((holds.absent_iff key).mp absent)

/-- A zeroed array holds no key. -/
theorem holds_zeroed (b : Nat) : (zeroed (2 ^ b) : KeySet K).Holds hash ∅ := by
  have vacant : (zeroed (2 ^ b) : KeySet K).cells = fun _ => .vacant := by
    funext i
    simp [cells, zeroed, default]
  have positive : 0 < (zeroed (2 ^ b) : KeySet K).ring := Nat.succ_pos _
  refine ⟨⟨b, rfl⟩, ?_, fun i bound => ?_, fun i bound => ?_, fun key => ?_, rfl, ?_⟩
  · rw [vacant]
    exact .empty fun key => Nat.mod_lt _ positive
  · exact absurd rfl bound
  · exact absurd rfl bound
  · simp [vacant]
  · simp [vacant, occupied, RangeSum.count]

/-- Growing holds the same keys in a table of twice the size. -/
theorem Holds.grow (holds : s.Holds hash held) (few : held.card ≤ s.len) (short : held.card ≤ 2 ^ 32) :
    ∃ s', s.grow hash = .ok s' ∧ s'.Holds hash held ∧ s'.len = s.len * 2 := by
  obtain ⟨b, sized⟩ := holds.sized
  have double : s.len * 2 = 2 ^ (b + 1) := by rw [sized, pow_succ]
  have size : (if s.len * 2 = 0 then setMinSlots else s.len * 2) = 2 ^ (b + 1) := by
    rw [if_neg (by rw [double]; exact (Nat.two_pow_pos _).ne'), double]
  -- The keys of the slots before an index.
  let before : Nat → Finset K := fun n =>
    held.filter fun key => ∃ i < n, s.cells i = .live key
  have loop : ∀ n ≤ s.len, ∃ s', (List.range n).foldlM (fun fresh i =>
      if (s.slots i).tag ≠ 0#64 then KeySet.place hash fresh (s.slots i).key else .ok fresh)
        (zeroed (2 ^ (b + 1)) : KeySet K) = .ok s' ∧ s'.Holds hash (before n) ∧ s'.len = 2 ^ (b + 1) := by
    intro n
    induction n with
    | zero => exact fun _ => ⟨_, rfl, by simpa [before] using holds_zeroed (b + 1), rfl⟩
    | succ n ih =>
      intro inside
      obtain ⟨s', ran, holds', len⟩ := ih (by omega)
      rw [List.range_succ, List.foldlM_append, ran]
      by_cases empty : (s.slots n).tag = 0#64
      · have same : before (n + 1) = before n := by
          refine Finset.filter_congr fun key _ => ⟨fun ⟨i, small, live⟩ => ⟨i, ?_, live⟩, fun ⟨i, small, live⟩ =>
            ⟨i, by omega, live⟩⟩
          rcases Nat.lt_succ_iff_lt_or_eq.mp small with earlier | rfl
          · exact earlier
          · simp [cells, empty] at live
        exact ⟨s', by simp [empty, Bind.bind, Except.bind, Pure.pure, Except.pure], same ▸ holds', len⟩
      · have live : s.cells n = .live (s.slots n).key := by simp [cells, empty]
        have member : (s.slots n).key ∈ held := (holds.named _).mpr ⟨n, live⟩
        -- The key of this slot is in no earlier one, so not all keys are placed yet.
        have later : (s.slots n).key ∉ before n := fun placed => by
          obtain ⟨_, i, earlier, other⟩ := Finset.mem_filter.mp placed
          have here := holds.inside n empty
          have same := holds.chained.unique i (by omega) n here _ (by rw [other]; rfl) (by rw [live]; rfl)
          omega
        have fewer : (before n).card < held.card :=
          Finset.card_lt_card ⟨Finset.filter_subset _ _, fun all => later (all member)⟩
        have room : (before n).card < s'.ring := by
          rw [ring_eq len]
          have : held.card ≤ 2 ^ min (b + 1) 32 := by
            rcases Nat.le_total (b + 1) 32 with low | high
            · rw [Nat.min_eq_left low, ← double]
              omega
            · rwa [Nat.min_eq_right high]
          omega
        obtain ⟨s'', placed, holds'', len'⟩ := holds'.place room (s.slots n).key
        have more : before (n + 1) = insert (s.slots n).key (before n) := by
          ext key
          simp only [before, Finset.mem_filter, Finset.mem_insert]
          constructor
          · rintro ⟨known, i, small, at_i⟩
            rcases Nat.lt_succ_iff_lt_or_eq.mp small with earlier | rfl
            · exact .inr ⟨known, i, earlier, at_i⟩
            · rw [live] at at_i
              exact .inl (Cell.live.inj at_i).symm
          · rintro (rfl | ⟨known, i, small, at_i⟩)
            · exact ⟨member, n, by omega, live⟩
            · exact ⟨known, i, by omega, at_i⟩
        refine ⟨s'', ?_, more ▸ holds'', len'.trans len⟩
        simp [empty, placed, Bind.bind, Except.bind, Pure.pure, Except.pure]
  obtain ⟨s', ran, holds', len⟩ := loop s.len le_rfl
  have all : before s.len = held := by
    refine Finset.filter_true_of_mem fun key member => ?_
    obtain ⟨i, live⟩ := (holds.named key).mp member
    have bound : (s.slots i).tag ≠ 0#64 := fun empty => by simp [cells, empty] at live
    have inRing := holds.inside i bound
    have ringIn := (and_mask sized i).2
    rw [Nat.mod_eq_of_lt inRing] at ringIn
    exact ⟨i, ringIn, live⟩
  refine ⟨s', ?_, all ▸ holds', len.trans double.symm⟩
  simp only [KeySet.grow, size]
  exact ran

end Laws

end KeySet

end Memstash
