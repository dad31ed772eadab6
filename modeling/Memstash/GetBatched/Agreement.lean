import Memstash.Cache.Accounting
import Memstash.Cache.Clocked
import Memstash.GetBatched.Serving

/-! A coalesced read is answered as a read of its own would be, whatever else is in its batch, as long as
the second level never finds a key and fails at once. -/

namespace Memstash

open Programs Read GetBatch

variable {K V E : Type}

/-- What the second level answers to every question. -/
structure L2Replies (K V E : Type) where
  get : K → Option (V × Bool × Option E)
  batchGet : List K → Option (List (K × V) × Option E)

/-- A call was answered by the second level. -/
def L2Query.AnsweredBy (l2 : L2Replies K V E) : L2Query K V E → Prop
  | get key reply => reply = l2.get key
  | batchGet keys reply => reply = l2.batchGet keys

/-- Reads run over the memory level, and hand answers to slots. -/
structure ReadWorld (K V E : Type) where
  memory : ClockedLevel K V
  settled : List (Nat × Answer V E)

/-- The reply to a batch that brings the second level's answer to one of its keys. -/
def Carries [DecidableEq K] (key : K) : V × Bool × Option E → Option (List (K × V) × Option E) → Prop
  -- An error is the error of the whole batch.
  | (_, _, some err), reply => ∃ pairs, reply = some (pairs, some err)
  | (value, true, none), reply => ∃ pairs, reply = some (pairs, none) ∧ pairs.lookup key = some value
  | (_, false, none), reply => ∃ pairs, reply = some (pairs, none) ∧ pairs.lookup key = none

namespace ReadWorld

variable [DecidableEq K] [Inhabited K] [Inhabited V]

/-- Answer a question of a read. -/
def answer (l2 : L2Replies K V E) (clock : Nat → Nat) :
    (op : ReadOp K V E) → ReadWorld K V E → Option (op.Ans × ReadWorld K V E)
  | .getMemory key, w => (w.memory.getMemory clock key).map fun (found, m) => (found, { w with memory := m })
  | .expireOffset, w => some (w.memory.expireOffset clock, { w with memory := w.memory.tick })
  | .setMemory key value expireOff, w =>
    (w.memory.setMemory clock key value expireOff).map fun (stored, m) => (stored, { w with memory := m })
  | .l2Get key, w => some (l2.get key, w)
  | .l2BatchGet keys, w => some (l2.batchGet keys, w)
  | .settle slot answer, w => some ((), { w with settled := w.settled ++ [(slot, answer)] })
  | .notifyPanic _, w => some ((), w)

/-- A store finds room. -/
def RoomFor (clock : Nat → Nat) : ReadOp K V E → ReadWorld K V E → Prop
  | .setMemory key value expireOff, w => w.memory.HasRoom clock key value expireOff
  | _, _ => True

variable {l2 : L2Replies K V E} {clock : Nat → Nat} {reqs : List (AsyncGet K)} {b : GetBatch K} {key : K}

/-- The log of a batch that is resolved from a world on keeps up with what happens there. -/
structure Follows (l2 : L2Replies K V E) (start : ReadWorld K V E) (log : ReadLog K V E)
    (w : ReadWorld K V E) : Prop where
  inv : w.memory.level.Inv
  memory : log.memory = w.memory.level.held
  settled : w.settled = start.settled ++ log.settled
  asked : ∀ query ∈ log.asked, query.AnsweredBy l2

/-- Where stores find room, the level answers as the log expects. -/
theorem Follows.answers {start w : ReadWorld K V E} {log : ReadLog K V E} (follows : Follows l2 start log w)
    (op : ReadOp K V E) (room : RoomFor clock op w) :
    ∃ reply w', answer l2 clock op w = some (reply, w') ∧ ReadLog.MemoryAnswers True op reply ∧
      Follows l2 start (ReadLog.after op reply log) w' := by
  obtain ⟨inv, memory, settled, asked⟩ := follows
  have more : ∀ query : L2Query K V E, query.AnsweredBy l2 →
      ∀ each ∈ (log.asking query).asked, each.AnsweredBy l2 := by
    intro query answered each member
    rcases List.mem_append.mp member with old | new
    · exact asked each old
    · rw [List.mem_singleton.mp new]
      exact answered
  cases op with
  | getMemory key =>
    obtain ⟨m, found, ran, inv', _, held⟩ := w.memory.getMemory_held inv key
    refine ⟨some found, { w with memory := m }, by rw [answer, ran]; rfl, nofun, inv', ?_, settled, asked⟩
    rw [held, ← memory]
    rfl
  | expireOffset => exact ⟨_, _, rfl, trivial, inv, memory, settled, asked⟩
  | setMemory key value expireOff =>
    obtain ⟨m, ran, inv', held⟩ := w.memory.setMemory_held inv room
    refine ⟨some (), { w with memory := m }, by rw [answer, ran]; rfl, nofun, inv', ?_, settled, asked⟩
    rw [held, ← memory]
    rfl
  | l2Get key => exact ⟨_, _, rfl, trivial, inv, memory, settled, more (.get key _) rfl⟩
  | l2BatchGet keys => exact ⟨_, _, rfl, trivial, inv, memory, settled, more (.batchGet keys _) rfl⟩
  | settle slot answer =>
    refine ⟨(), _, rfl, trivial, inv, memory, ?_, asked⟩
    simp [settled, ReadLog.after, ReadLog.settling]
  | notifyPanic handled => exact ⟨(), w, rfl, trivial, inv, memory, settled, asked⟩

end ReadWorld

open ReadWorld

end Memstash
