import Memstash.Cache.Held

/-! The memory level behind a clock that every operation reads once. -/

namespace Memstash

open Scan

variable {K V α : Type}

/-- The memory level, and how often the clock has been read. -/
structure ClockedLevel (K V : Type) where
  level : MemoryLevel K V
  ticks : Nat

namespace ClockedLevel

/-- The clock is read once more. -/
def tick (m : ClockedLevel K V) : ClockedLevel K V := { m with ticks := m.ticks + 1 }

/-- How an operation on the level ends: a fault is a panic, or an operation that never returns. -/
def finish (m : ClockedLevel K V) : Except Fault (MemoryLevel K V × α) → Option (Option α × ClockedLevel K V)
  | .ok (level, a) => some (some a, { m.tick with level := level })
  | .error .panic => some (none, m.tick)
  | .error .hang => none

variable [DecidableEq K] [Inhabited K] [Inhabited V]

/-- Look a key up. -/
def getMemory (clock : Nat → Nat) (m : ClockedLevel K V) (key : K) :
    Option (Option (Option V) × ClockedLevel K V) :=
  m.finish ((m.level.getMemory (clock m.ticks) key).map fun (level, found, _) => (level, found))

/-- Store a value. -/
def setMemory (clock : Nat → Nat) (m : ClockedLevel K V) (key : K) (value : V) (expireOff : Nat) :
    Option (Option Unit × ClockedLevel K V) :=
  m.finish ((m.level.setMemory (clock m.ticks) key value expireOff).map fun (level, _) => (level, ()))

omit [DecidableEq K] [Inhabited K] [Inhabited V] in
/-- The expiry offset of an item stored now. -/
def expireOffset (clock : Nat → Nat) (m : ClockedLevel K V) : Nat := m.level.cfg.expireOffset (clock m.ticks)

/-- A store that comes now has room. -/
def HasRoom (clock : Nat → Nat) (m : ClockedLevel K V) (key : K) (value : V) (expireOff : Nat) : Prop :=
  m.level.HasRoom ⟨clock m.ticks, key, value, expireOff⟩

variable {m : ClockedLevel K V} {clock : Nat → Nat}

/-- A lookup returns; what it finds was held, and is held afterwards. -/
theorem getMemory_held (inv : m.level.Inv) (key : K) :
    ∃ m' found, m.getMemory clock key = some (some found, m') ∧ m'.level.Inv ∧
      (∀ value, found = some value → m.level.held key = some value) ∧
      m'.level.held = Function.update m.level.held key found := by
  obtain ⟨level, found, deletions, ran, inv', _, was, held⟩ := inv.getMemory_held (clock m.ticks) key
  exact ⟨{ m.tick with level := level }, found, by rw [getMemory, ran]; rfl, inv', was, held⟩

theorem getMemory_missing (inv : m.level.Inv) {key : K} (absent : m.level.held key = none) :
    m.getMemory clock key = some (some none, m.tick) := by
  obtain ⟨deletions, ran⟩ := inv.getMemory_missing (clock m.ticks) absent
  rw [getMemory, ran]
  rfl

/-- A store with room returns, and its value is held afterwards. -/
theorem setMemory_held (inv : m.level.Inv) {key : K} {value : V} {expireOff : Nat}
    (room : m.HasRoom clock key value expireOff) :
    ∃ m', m.setMemory clock key value expireOff = some (some (), m') ∧ m'.level.Inv ∧
      m'.level.held = Function.update m.level.held key (some value) := by
  obtain ⟨level, deletions, ran, inv', _, held⟩ := inv.setMemory_update room
  exact ⟨{ m.tick with level := level }, by rw [setMemory, ran]; rfl, inv', held⟩

end ClockedLevel

end Memstash
