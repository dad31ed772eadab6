import Memstash.Itemstore.Item

/-! One slot at the granularity of machine words: a writer under the mutex beside readers without it. -/

namespace Memstash

open MetaWord

/-- The machine words of an entry: those of its key and those of its value. -/
abbrev Place (k v : Nat) := Fin k ⊕ Fin v

/-- An entry as the machine words it is stored in. -/
abbrev Words (k v : Nat) (W : Type) := Entry (Fin k → W) (Fin v → W)

namespace Words

variable {k v : Nat} {W : Type}

/-- One word of an entry. -/
def read (entry : Words k v W) : Place k v → W := Sum.elim entry.key entry.value

/-- The entry with one word replaced. -/
def write (entry : Words k v W) : Place k v → W → Words k v W
  | .inl i, w => { entry with key := Function.update entry.key i w }
  | .inr i, w => { entry with value := Function.update entry.value i w }

/-- The words of the value. -/
def values (k v : Nat) : Finset (Place k v) := Finset.univ.map ⟨Sum.inr, Sum.inr_injective⟩

end Words

/-- An operation on a slot under the shard mutex. -/
inductive ItemOp (k v : Nat) (W : Type) where
  | publish (entry : Words k v W) (hash : BitVec 64) (off : Fin (2 ^ 18))
  | setValue (value : Fin v → W)
  | refreshExpire (off : Fin (2 ^ 18))
  | kill
  | makeFree

/-- What ends an operation once its words are stored. -/
inductive Ending where
  /-- The meta word goes live. -/
  | publish (hash : BitVec 64) (off : Fin (2 ^ 18))
  /-- The generation becomes even again. -/
  | endWrite
  /-- Nothing: the value is at most one word. -/
  | inPlace
  /-- The meta word gets another expiration offset. -/
  | refreshExpire (off : Fin (2 ^ 18))
  /-- The meta word gets the mark of a free slot. -/
  | makeFree

/-- Where the writer is in its operation. -/
inductive Phase (k v : Nat) (W : Type) where
  | idle
  /-- About to load the meta word to make its generation odd. -/
  | beginLoad (goal : Words k v W)
  /-- About to swap the loaded meta word for one with an odd generation. -/
  | beginSwap (goal : Words k v W) (seen : MetaWord)
  /-- Some words of the entry are still to be stored. -/
  | storing (goal : Words k v W) (todo : Finset (Place k v)) (ending : Ending)
  /-- The meta word is loaded, and its replacement is to be stored. -/
  | replacing (goal : Words k v W) (ending : Ending) (seen : MetaWord)

/-- A reader between its two loads of the meta word. -/
structure Snapshot (k v : Nat) (W : Type) where
  loaded : MetaWord
  copied : Place k v → Option W

/-- A slot with its writer and one reader. -/
structure Slot (k v : Nat) (W : Type) where
  item : Item (Fin k → W) (Fin v → W)
  phase : Phase k v W
  reader : Option (Snapshot k v W)
  /-- The pair the item holds, nothing while it is not live or is being overwritten. -/
  held : Option (Words k v W)
  /-- How many publishes and overwrites have ended. -/
  writes : Nat

/-- One atomic step of the writer or of a reader. -/
inductive SlotStep (k v : Nat) (W : Type) where
  /-- The writer takes up an operation. -/
  | start (op : ItemOp k v W)
  /-- The writer stores one word of the entry. -/
  | store (place : Place k v)
  /-- The writer accesses the meta word. -/
  | access
  /-- A reader that saw the item marks it as referenced. -/
  | touchWith (seen : MetaWord)
  /-- A reader that saw the item marks it as referenced and extends its lifetime. -/
  | touchAndRefreshExpire (seen : MetaWord) (off : Fin (2 ^ 18))
  /-- The reader loads the meta word. -/
  | load
  /-- The reader copies one word of the entry. -/
  | copy (place : Place k v)

namespace Slot

variable {k v : Nat} {W : Type} [Inhabited W]

/-- The meta word. -/
abbrev word (slot : Slot k v W) : MetaWord := slot.item.metaWord

/-- A word a reader takes for a live item that nobody is overwriting. -/
def Readable (word : MetaWord) : Prop :=
  word ≠ 0#64 ∧ word.isDead = false ∧ word &&& 1#64 = 0#64

instance (word : MetaWord) : Decidable (Readable word) := by
  unfold Readable
  infer_instance

/-- A slot nothing was ever stored in. -/
def fresh : Slot k v W := ⟨default, .idle, none, none, 0⟩

/-- Take up an operation: inserts fill empty and dead slots, the rest is done to occupied ones. -/
def start (slot : Slot k v W) : ItemOp k v W → Option (Slot k v W)
  | .publish entry hash off =>
    if slot.word = 0#64 ∨ slot.word.isDead = true then
      some { slot with phase := .storing entry Finset.univ (.publish hash off) }
    else none
  | .setValue value =>
    let goal := { slot.item.entry with value := value }
    if slot.word ≠ 0#64 ∧ slot.word.isDead = false then
      -- A value of at most one machine word is stored without a step of the generation.
      if v ≤ 1 then some { slot with phase := .storing goal (Words.values k v) .inPlace }
      else some { slot with phase := .beginLoad goal }
    else none
  | .refreshExpire off =>
    if slot.word ≠ 0#64 ∧ slot.word.isDead = false then
      some { slot with phase := .storing slot.item.entry ∅ (.refreshExpire off) }
    else none
  | .kill => if slot.word ≠ 0#64 then some { slot with item := slot.item.kill, held := none } else none
  | .makeFree =>
    if slot.word.isDead = true then some { slot with phase := .storing default Finset.univ .makeFree }
    else none

/-- The writer's next access to the meta word. -/
def access (slot : Slot k v W) : Option (Slot k v W) :=
  match slot.phase with
  | .idle => none
  | .beginLoad goal => some { slot with phase := .beginSwap goal slot.word }
  | .beginSwap goal seen =>
    if slot.word = seen then
      some { slot with
        item := slot.item.beginWrite
        phase := .storing goal (Words.values k v) .endWrite
        held := none }
    -- A touch came in between, and the swap is tried again.
    else some { slot with phase := .beginLoad goal }
  | .storing goal todo ending =>
    if todo = ∅ then
      match ending with
      | .inPlace => some { slot with phase := .idle, writes := slot.writes + 1 }
      | .makeFree =>
        some { slot with item := { slot.item with metaWord := slot.word ||| free }, phase := .idle }
      | _ => some { slot with phase := .replacing goal ending slot.word }
    else none
  | .replacing goal ending seen =>
    let loaded : Item (Fin k → W) (Fin v → W) := ⟨seen, slot.item.entry⟩
    match ending with
    | .publish hash off =>
      some { slot with
        item := loaded.publish slot.item.entry (tagOf hash) off
        phase := .idle
        held := some goal
        writes := slot.writes + 1 }
    | .endWrite =>
      some { slot with
        item := loaded.endWrite
        phase := .idle
        held := some goal
        writes := slot.writes + 1 }
    | .refreshExpire off => some { slot with item := loaded.refreshExpire off, phase := .idle }
    | _ => none

/-- Store one of the words the writer still has to store. -/
def store (slot : Slot k v W) (place : Place k v) : Option (Slot k v W) :=
  match slot.phase with
  | .storing goal todo ending =>
    if place ∈ todo then
      let slot := { slot with
        item := { slot.item with entry := Words.write slot.item.entry place (Words.read goal place) }
        phase := .storing goal (todo.erase place) ending }
      match ending with
      -- The one word of the value changes in one step.
      | .inPlace => some { slot with held := some slot.item.entry }
      | _ => some slot
    else none
  | _ => none

/-- One step of the slot. -/
def step (slot : Slot k v W) : SlotStep k v W → Option (Slot k v W)
  | .start op =>
    match slot.phase with
    | .idle => slot.start op
    | _ => none
  | .store place => slot.store place
  | .access => slot.access
  | .touchWith seen =>
    -- A reader touches only a slot it has seen occupied.
    if slot.word ≠ 0#64 then some { slot with item := slot.item.touchWith seen } else none
  | .touchAndRefreshExpire seen off =>
    if Readable seen then some { slot with item := (slot.item.touchAndRefreshExpire seen off).1 }
    else none
  | .load => some { slot with reader := some ⟨slot.word, fun _ => none⟩ }
  | .copy place =>
    match slot.reader with
    | some reader =>
      if reader.copied place = none then
        some { slot with reader := some { reader with
          copied := Function.update reader.copied place (some (Words.read slot.item.entry place)) } }
      else none
    | none => none

end Slot

end Memstash
