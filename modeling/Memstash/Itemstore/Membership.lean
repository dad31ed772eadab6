import Memstash.Itemstore.KeySet

/-! Every sequence of additions and lookups of the membership helper is one on a finite set of keys. -/

namespace Memstash

open Scan Probing RangeSum Machine Runs

namespace KeySet

variable {K : Type} [Inhabited K] [DecidableEq K] {hash : K → BitVec 64} {s : KeySet K} {held : Finset K}

/-- The set holds these keys in at most half of its slots; before its first key it may have none. -/
structure Tracks (hash : K → BitVec 64) (s : KeySet K) (held : Finset K) : Prop where
  half : s.count ≤ s.len / 2
  state : (s = zeroed 0 ∧ held = ∅) ∨ s.Holds hash held

theorem Tracks.count (tracks : s.Tracks hash held) : s.count = held.card := by
  rcases tracks.state with ⟨rfl, rfl⟩ | holds
  · rfl
  · exact holds.count

/-- Each key is in exactly one slot. -/
theorem Tracks.named (tracks : s.Tracks hash held) (key : K) :
    (key ∈ held ↔ ∃ i, s.cells i = .live key) ∧
      ∀ i j, s.cells i = .live key → s.cells j = .live key → i = j := by
  rcases tracks.state with ⟨rfl, rfl⟩ | holds
  · simp [cells, zeroed, default]
  · have inside : ∀ i, s.cells i = .live key → i < s.ring := fun i live =>
      holds.inside i fun empty => by simp [cells, empty] at live
    exact ⟨holds.named key, fun i j first second =>
      holds.chained.unique i (inside i first) j (inside j second) key (by rw [first]; rfl) (by rw [second]; rfl)⟩

omit [Inhabited K] in
/-- A table at most half full has an empty slot on its ring, below 2^32 keys. -/
theorem Holds.room (holds : s.Holds hash held) (half : held.card ≤ s.len / 2) (short : held.card < 2 ^ 32) :
    held.card < s.ring := by
  obtain ⟨b, sized⟩ := holds.sized
  have positive : 0 < 2 ^ b := Nat.two_pow_pos b
  rw [ring_eq sized]
  rcases Nat.le_total b 32 with low | high
  · rw [Nat.min_eq_left low]
    omega
  · rwa [Nat.min_eq_right high]

/-- Below 2^32 keys a lookup tells whether the key was added. -/
theorem Tracks.exists? (tracks : s.Tracks hash held) (short : held.card < 2 ^ 32) (key : K) :
    s.exists? hash key = .ok (decide (key ∈ held)) := by
  rcases tracks.state with ⟨rfl, rfl⟩ | holds
  · simp [KeySet.exists?, zeroed]
  · exact holds.exists? (holds.room (by rw [← holds.count]; exact tracks.half) short) key

/-- A set that is half full makes room by growing. -/
theorem Tracks.grow (tracks : s.Tracks hash held) (short : held.card < 2 ^ 32) :
    ∃ s', s.grow hash = .ok s' ∧ s'.Holds hash held ∧ held.card < s'.len / 2 := by
  rcases tracks.state with ⟨rfl, rfl⟩ | holds
  · exact ⟨zeroed (2 ^ 3), rfl, holds_zeroed 3, by simp [zeroed]⟩
  · have half := tracks.half
    rw [holds.count] at half
    obtain ⟨b, sized⟩ := holds.sized
    have positive : 0 < 2 ^ b := Nat.two_pow_pos b
    obtain ⟨s', ran, holds', len⟩ := holds.grow (by omega) (by omega)
    exact ⟨s', ran, holds', by omega⟩

/-- Below 2^32 keys one more is added, in the same array unless it is half full. -/
theorem Tracks.add (tracks : s.Tracks hash held) (short : held.card < 2 ^ 32) (key : K) :
    ∃ s', s.add hash key = .ok s' ∧ s'.Tracks hash (insert key held) ∧
      (s.count < s.len / 2 → s'.len = s.len) := by
  -- Either the table had room or it has grown.
  have ready : ∃ mid, s.ready hash = .ok mid ∧ mid.Holds hash held ∧
      held.card < mid.len / 2 ∧ (s.count < s.len / 2 → mid.len = s.len) := by
    by_cases crowded : s.count ≥ s.len / 2
    · obtain ⟨mid, ran, holds, less⟩ := tracks.grow short
      exact ⟨mid, by rw [KeySet.ready, if_pos crowded, ran], holds, less, fun room => absurd room (by omega)⟩
    · rcases tracks.state with ⟨rfl, _⟩ | holds
      · exact absurd crowded (by simp [zeroed])
      · have := holds.count
        exact ⟨s, if_neg crowded, holds, by omega, fun _ => rfl⟩
  obtain ⟨mid, ran, holds, less, same⟩ := ready
  obtain ⟨s', placed, holds', len⟩ := holds.place (holds.room (by omega) short) key
  have grown := Finset.card_insert_le key held
  refine ⟨s', ?_, ⟨?_, .inr holds'⟩, fun room => len.trans (same room)⟩
  · rw [KeySet.add, ran]
    exact bind_of_ok placed
  · rw [holds'.count, len]
    omega

end KeySet

/-- How a set is made: for a number of keys, or over a zeroed buffer of a length. -/
inductive SetStart where
  | newSet (capacity : Int)
  | newSetFrom (buffer : Nat)

/-- The set as it is made. -/
def SetStart.make {K : Type} [Inhabited K] : SetStart → Except Fault (KeySet K)
  | .newSet capacity => KeySet.newSet capacity
  | .newSetFrom buffer => .ok (KeySet.newSetFrom buffer)

/-- The number of keys a set is made for. -/
def SetStart.capacity : SetStart → Int
  | .newSet capacity => capacity
  | .newSetFrom _ => 0

/-- One call on a set. -/
inductive SetOp (K : Type) where
  | add (key : K)
  | exists? (key : K)

namespace SetOp

variable {K : Type} [Inhabited K] [DecidableEq K]

/-- A call on the table, with the answers so far. -/
def work (hash : K → BitVec 64) : KeySet K × List Bool → SetOp K → Except Fault (KeySet K × List Bool)
  | (s, answers), .add key => return (← s.add hash key, answers)
  | (s, answers), .exists? key => return (s, answers ++ [← s.exists? hash key])

/-- The same call on a finite set. -/
def onFinset : Finset K × List Bool → SetOp K → Finset K × List Bool
  | (held, answers), .add key => (insert key held, answers)
  | (held, answers), .exists? key => (held, answers ++ [decide (key ∈ held)])

/-- The keys added by some calls, and their answers. -/
def spec (ops : List (SetOp K)) : Finset K × List Bool := ops.foldl onFinset (∅, [])

end SetOp

end Memstash
