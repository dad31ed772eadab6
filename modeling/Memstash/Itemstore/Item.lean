import Memstash.Itemstore.MetaWord
import Memstash.Lib.Probing

/-! One cached item: the meta word beside its entry, and what each operation does to the slot. -/

namespace Memstash

open Probing

/-- The key/value pair of one cached item. -/
structure Entry (K V : Type) where
  key : K
  value : V
  deriving DecidableEq, Repr

/-- One cached item, which is also its own hash-table slot. -/
structure Item (K V : Type) where
  metaWord : MetaWord
  entry : Entry K V

variable {K V : Type}

/-- The zero value of an entry type. -/
instance [Inhabited K] [Inhabited V] : Inhabited (Entry K V) := ⟨⟨default, default⟩⟩

/-- A slot nothing was ever stored in. -/
instance [Inhabited K] [Inhabited V] : Inhabited (Item K V) := ⟨⟨0#64, default⟩⟩

namespace Item

open MetaWord

/-- Whether an entry copied after loading the word is consistent with it. -/
def snapshotInto (item : Item K V) (word : MetaWord) : Bool :=
  (item.metaWord ^^^ word) &&& aliveGenMask == 0#64 && word &&& 1#64 == 0#64

/-- Fill a slot with a fresh occupancy. -/
def publish (item : Item K V) (entry : Entry K V) (tag : MetaWord) (off : Nat) : Item K V :=
  { metaWord := pack off tag (liveGen ((item.metaWord + 2#64) &&& ~~~1#64)), entry := entry }

/-- Hand a dead slot back to inserts, dropping what it held. -/
def makeFree [Inhabited K] [Inhabited V] (item : Item K V) : Item K V :=
  { metaWord := item.metaWord ||| free, entry := default }

/-- Make the generation odd to signal a write in progress. -/
def beginWrite (item : Item K V) : Item K V :=
  { item with metaWord := item.metaWord.withGen ((item.metaWord + 1#64) &&& genMask) }

/-- Make the generation even again. -/
def endWrite (item : Item K V) : Item K V :=
  { item with metaWord := item.metaWord.withGen (liveGen (item.metaWord + 1#64)) }

/-- Overwrite the value in place, bracketed by the generation unless the value is one word. -/
def setValue (wordSized : Bool) (item : Item K V) (value : V) : Item K V :=
  if wordSized then { item with entry := { item.entry with value := value } }
  else
    let writing := item.beginWrite
    { writing with entry := { writing.entry with value := value } }.endWrite

/-- Set the next bit of the reference counter, given an already-loaded word. -/
def touchWith (item : Item K V) (word : MetaWord) : Item K V :=
  if word &&& secondChance = 0#64 then { item with metaWord := item.metaWord ||| secondChance }
  else if word &&& thirdChance = 0#64 then { item with metaWord := item.metaWord ||| thirdChance }
  else item

/-- Withdraw one chance. -/
def revokeChance (item : Item K V) (word : MetaWord) : Item K V :=
  if word &&& thirdChance ≠ 0#64 then { item with metaWord := item.metaWord &&& ~~~thirdChance }
  else { item with metaWord := item.metaWord &&& ~~~secondChance }

/-- Clear the reference counter. -/
def resetChances (item : Item K V) : Item K V :=
  { item with metaWord := item.metaWord &&& ~~~chanceMask }

/-- Mark the item as a tombstone. -/
def kill (item : Item K V) : Item K V := { item with metaWord := item.metaWord ||| dead }

/-- Give the item another expiration offset. -/
def refreshExpire (item : Item K V) (off : Nat) : Item K V :=
  { item with metaWord := item.metaWord.withExpire off }

/-- Extend the lifetime and grant the touch in one compare-and-swap from the loaded word. -/
def touchAndRefreshExpire (item : Item K V) (word : MetaWord) (off : Nat) : Item K V × Bool :=
  let fresh := word.withExpire off
  let fresh :=
    if word &&& secondChance = 0#64 then fresh ||| secondChance
    else if word &&& thirdChance = 0#64 then fresh ||| thirdChance
    else fresh
  if item.metaWord = word then ({ item with metaWord := fresh }, true) else (item, false)

/-- What the slot is to a probe. -/
def cell (item : Item K V) : Cell K :=
  if item.metaWord = 0#64 then .vacant
  else if item.metaWord.isDead then
    if item.metaWord.reusable then .released else .tomb item.entry.key
  else .live item.entry.key

/-- The part of a word that says what its slot is to a probe. -/
def marks : MetaWord := dead ||| free ||| tagMask

/-- The part of a word no read and no change of lifetime touches. -/
def identity : MetaWord := marks ||| genMask

/-- Equal marks give equal answers to both tombstone tests. -/
theorem marks_tests {word other : MetaWord} (same : word &&& marks = other &&& marks) :
    word.isDead = other.isDead ∧ word.reusable = other.reusable := by
  have top : marks.getLsbD 63 = true := by decide
  have freeBit : marks.getLsbD 60 = true := by decide
  rw [isDead_eq, isDead_eq, reusable_eq, reusable_eq, getLsbD_eq_of_and_eq same top,
    getLsbD_eq_of_and_eq same freeBit]
  exact ⟨rfl, rfl⟩

/-- Occupied slots with equal marks and keys are the same to a probe. -/
theorem cell_eq_of_marks {item other : Item K V} (occupied : item.metaWord ≠ 0#64)
    (occupied' : other.metaWord ≠ 0#64) (same : item.metaWord &&& marks = other.metaWord &&& marks)
    (key : item.entry.key = other.entry.key) : item.cell = other.cell := by
  obtain ⟨deadSame, reusableSame⟩ := marks_tests same
  simp only [cell, if_neg occupied, if_neg occupied', deadSame, reusableSame, key]

/-- A word that keeps its identity stays settled, occupied and under the same tag. -/
theorem settled_of_identity {word other : MetaWord} (settled : Settled other)
    (occupied : other ≠ 0#64) (same : word &&& identity = other &&& identity) :
    Settled word ∧ word ≠ 0#64 ∧ word &&& marks = other &&& marks := by
  have genSame : word &&& genMask = other &&& genMask := and_eq_of_and_eq same (by decide)
  have positive : word &&& genMask ≠ 0#64 := genSame ▸ settled.gen occupied
  have low : identity.getLsbD 0 = true := by decide
  have top : identity.getLsbD 63 = true := by decide
  have freeBit : identity.getLsbD 60 = true := by decide
  refine ⟨⟨fun _ => positive, ?_, ?_⟩, ne_zero_of_gen positive, and_eq_of_and_eq same (by decide)⟩
  · rw [getLsbD_eq_of_and_eq same low, settled.even]
  · rw [getLsbD_eq_of_and_eq same top, getLsbD_eq_of_and_eq same freeBit]
    exact settled.freed

theorem cell_eq_vacant_iff (item : Item K V) : item.cell = .vacant ↔ item.metaWord = 0#64 := by
  unfold cell
  split
  · simp_all
  · rename_i occupied
    simp only [occupied, iff_false]
    split
    · split <;> simp
    · simp

theorem cell_eq_live_iff (item : Item K V) (key : K) :
    item.cell = .live key ↔
      item.metaWord ≠ 0#64 ∧ item.metaWord.isDead = false ∧ item.entry.key = key := by
  unfold cell
  split
  · simp_all
  · split
    · split <;> simp_all
    · simp_all

theorem cell_eq_tomb_iff (item : Item K V) (key : K) :
    item.cell = .tomb key ↔ item.metaWord ≠ 0#64 ∧ item.metaWord.isDead = true ∧
      item.metaWord.reusable = false ∧ item.entry.key = key := by
  unfold cell
  split
  · simp_all
  · split
    · split <;> simp_all
    · simp_all

theorem cell_eq_released_iff (item : Item K V) :
    item.cell = .released ↔
      item.metaWord ≠ 0#64 ∧ item.metaWord.isDead = true ∧ item.metaWord.reusable = true := by
  unfold cell
  split
  · simp_all
  · split
    · split <;> simp_all
    · simp_all

section Publish

variable (item : Item K V) (entry : Entry K V) {tag : MetaWord} {off : Nat}
  (small : off < 2 ^ 18) (tagIn : tag &&& tagMask = tag)

theorem publish_gen_even :
    (liveGen ((item.metaWord + 2#64) &&& ~~~1#64)).getLsbD 0 = false := by
  rw [liveGen_parity]
  simp

include small tagIn

theorem publish_settled : Settled (item.publish entry tag off).metaWord :=
  pack_settled small tagIn (liveGen_within _).1 (liveGen_within _).2 item.publish_gen_even

theorem publish_cell : (item.publish entry tag off).cell = .live entry.key := by
  rw [cell_eq_live_iff]
  refine ⟨?_, pack_isDead small tagIn (liveGen_within _).1, rfl⟩
  apply ne_zero_of_gen
  simp only [publish]
  rw [pack_gen small tagIn (liveGen_within _).1]
  exact (liveGen_within _).2

theorem publish_tag : (item.publish entry tag off).metaWord &&& tagMask = tag :=
  pack_tag small tagIn (liveGen_within _).1

theorem publish_expireOff : (item.publish entry tag off).metaWord.expireOff = off :=
  pack_expireOff small tagIn (liveGen_within _).1

end Publish

section Kill

variable {item : Item K V} (settled : Settled item.metaWord)

theorem kill_and {mask : MetaWord} (apart : dead &&& mask = 0#64) :
    item.kill.metaWord &&& mask = item.metaWord &&& mask := or_and_of_disjoint apart

theorem kill_isDead : item.kill.metaWord.isDead = true := by
  have top : dead.getLsbD 63 = true := by decide
  simp [isDead_eq, kill, top]

/-- Killing a tombstone changes nothing. -/
theorem kill_of_isDead (buried : item.metaWord.isDead = true) : item.kill = item := by
  have same : item.metaWord ||| dead = item.metaWord := by
    -- The one bit the update sets is set already.
    have single : dead = BitVec.twoPow 64 63 := by decide
    rw [isDead_eq] at buried
    ext i bound
    rw [single, BitVec.getElem_or, BitVec.getElem_twoPow]
    by_cases top : i = 63
    · subst top
      rw [BitVec.getLsbD_eq_getElem bound] at buried
      simp [buried]
    · simp [top]
  cases item
  simp only [kill] at same ⊢
  rw [same]

include settled

/-- Killing leaves a settled word. -/
theorem kill_settled (occupied : item.metaWord ≠ 0#64) : Settled item.kill.metaWord := by
  have low : dead.getLsbD 0 = false := by decide
  have top : dead.getLsbD 63 = true := by decide
  refine ⟨fun _ => ?_, ?_, ?_⟩
  · rw [kill_and (by decide)]
    exact settled.gen occupied
  · simp only [kill, BitVec.getLsbD_or, low, settled.even, Bool.or_false]
  · simp only [kill, BitVec.getLsbD_or, top, Bool.or_true, implies_true]

/-- Killing a live slot leaves a tombstone its queue node still refers to. -/
theorem kill_cell {key : K} (alive : item.cell = .live key) : item.kill.cell = .tomb key := by
  obtain ⟨occupied, notDead, named⟩ := (cell_eq_live_iff _ _).mp alive
  rw [cell_eq_tomb_iff]
  have occupied' : item.kill.metaWord ≠ 0#64 :=
    ne_zero_of_gen (by rw [kill_and (by decide)]; exact settled.gen occupied)
  refine ⟨occupied', kill_isDead, ?_, named⟩
  -- A live word is not handed back, and killing does not hand it back.
  have freeBit : dead.getLsbD 60 = false := by decide
  have notFree : item.metaWord.getLsbD 60 = false := by
    rw [isDead_eq] at notDead
    by_contra bit
    simp only [Bool.not_eq_false] at bit
    rw [settled.freed bit] at notDead
    exact Bool.true_eq_false.mp notDead
  simp only [reusable_eq, kill, BitVec.getLsbD_or, freeBit, notFree, Bool.or_false, Bool.and_false]

end Kill

section MakeFree

variable [Inhabited K] [Inhabited V] {item : Item K V}

theorem makeFree_and {mask : MetaWord} (apart : free &&& mask = 0#64) :
    item.makeFree.metaWord &&& mask = item.metaWord &&& mask := or_and_of_disjoint apart

theorem makeFree_isDead : item.makeFree.metaWord.isDead = item.metaWord.isDead := by
  have kept : item.makeFree.metaWord &&& dead = item.metaWord &&& dead := makeFree_and (by decide)
  simp only [isDead, kept]

variable (buried : item.metaWord.isDead = true)

include buried

/-- Handing a dead slot back leaves a settled word. -/
theorem makeFree_settled (settled : Settled item.metaWord) : Settled item.makeFree.metaWord := by
  have low : free.getLsbD 0 = false := by decide
  have occupied : item.metaWord ≠ 0#64 := by
    intro zero
    simp [isDead_eq, zero] at buried
  refine ⟨fun _ => ?_, ?_, ?_⟩
  · rw [makeFree_and (by decide)]
    exact settled.gen occupied
  · simp only [makeFree, BitVec.getLsbD_or, low, settled.even, Bool.or_false]
  · intro _
    rw [← isDead_eq, makeFree_isDead, buried]

/-- A dead slot that is handed back may be reused. -/
theorem makeFree_cell : item.makeFree.cell = .released := by
  rw [cell_eq_released_iff]
  have freeBit : free.getLsbD 60 = true := by decide
  have deadAfter : item.makeFree.metaWord.isDead = true := by rw [makeFree_isDead, buried]
  refine ⟨?_, deadAfter, ?_⟩
  · intro zero
    simp [isDead_eq, zero] at deadAfter
  · rw [isDead_eq] at deadAfter
    rw [reusable_eq, deadAfter]
    simp only [makeFree, BitVec.getLsbD_or, freeBit, Bool.or_true, Bool.and_true]

end MakeFree

theorem withGen_and {word gen mask : MetaWord} (genIn : gen &&& genMask = gen)
    (apart : genMask &&& mask = 0#64) : word.withGen gen &&& mask = word &&& mask := by
  rw [withGen, BitVec.and_or_distrib_right, andNot_and_of_disjoint apart,
    and_eq_zero_of_within genIn apart, BitVec.or_zero]

theorem withGen_gen {word gen : MetaWord} (genIn : gen &&& genMask = gen) :
    word.withGen gen &&& genMask = gen := by
  rw [withGen, BitVec.and_or_distrib_right, BitVec.and_assoc, BitVec.and_comm (~~~genMask)]
  simp [genIn]

/-- Changing the offset keeps every other field. -/
theorem withExpire_and {word mask : MetaWord} {off : Nat} (small : off < 2 ^ 18)
    (apart : expireMask &&& mask = 0#64) : word.withExpire off &&& mask = word &&& mask := by
  rw [withExpire, BitVec.and_or_distrib_right, andNot_and_of_disjoint apart,
    and_eq_zero_of_within (shifted_within small) apart, BitVec.or_zero]

/-- The offset written is the offset read. -/
theorem withExpire_expireOff {word : MetaWord} {off : Nat} (small : off < 2 ^ 18) :
    (word.withExpire off).expireOff = off := by
  have cleared : word &&& ~~~expireMask &&& expireMask = 0#64 := by
    ext i bound
    simp
  rw [expireOff, withExpire, BitVec.and_or_distrib_right, cleared, BitVec.zero_or,
    shifted_within small]
  simp only [expireShift, BitVec.toNat_ushiftRight, BitVec.toNat_shiftLeft, BitVec.toNat_ofNat,
    Nat.shiftLeft_eq, Nat.shiftRight_eq_div_pow]
  omega

/-- Adding one to an even word makes it odd, and adding one again makes it even. -/
theorem parity_succ (word : MetaWord) : (word + 1#64).getLsbD 0 = !word.getLsbD 0 := by
  -- The lowest bit is the parity of the number the word stands for.
  simp only [BitVec.getLsbD, BitVec.toNat_add, BitVec.toNat_ofNat, Nat.testBit_zero]
  rcases Nat.mod_two_eq_zero_or_one word.toNat with even | odd
  · simp [even]; omega
  · simp [odd]; omega

section SetValue

variable (wordSized : Bool) {item : Item K V} (value : V)

theorem setValue_entry : (item.setValue wordSized value).entry = ⟨item.entry.key, value⟩ := by
  cases wordSized <;> rfl

/-- Overwriting a value keeps every field but the generation. -/
theorem setValue_and {mask : MetaWord} (apart : genMask &&& mask = 0#64) :
    (item.setValue wordSized value).metaWord &&& mask = item.metaWord &&& mask := by
  cases wordSized with
  | true => rfl
  | false =>
    simp only [setValue, endWrite, beginWrite, Bool.false_eq_true, if_false]
    rw [withGen_and (liveGen_within _).1 apart,
      withGen_and (by rw [BitVec.and_assoc, BitVec.and_self]) apart]

/-- Overwriting the value of an occupied slot leaves it settled and occupied. -/
theorem setValue_settled (settled : Settled item.metaWord) (occupied : item.metaWord ≠ 0#64) :
    Settled (item.setValue wordSized value).metaWord ∧
      (item.setValue wordSized value).metaWord ≠ 0#64 := by
  have freed : (item.setValue wordSized value).metaWord.getLsbD 60 = true →
      (item.setValue wordSized value).metaWord.getLsbD 63 = true := by
    have kept : (item.setValue wordSized value).metaWord &&& marks = item.metaWord &&& marks :=
      setValue_and wordSized value (by decide)
    rw [getLsbD_eq_of_and_eq kept (by decide), getLsbD_eq_of_and_eq kept (by decide)]
    exact settled.freed
  cases wordSized with
  | true => exact ⟨settled, occupied⟩
  | false =>
    -- The bracket ends on the successor of an odd generation, fitted into its field.
    have low : genMask.getLsbD 0 = true := by decide
    have stepIn : (item.metaWord + 1#64) &&& genMask &&& genMask = (item.metaWord + 1#64) &&& genMask := by
      rw [BitVec.and_assoc, BitVec.and_self]
    have odd : item.beginWrite.metaWord.getLsbD 0 = true := by
      have read : item.beginWrite.metaWord &&& genMask = (item.metaWord + 1#64) &&& genMask :=
        withGen_gen stepIn
      rw [getLsbD_eq_of_and_eq read low, parity_succ, settled.even]
      rfl
    have gen : (item.setValue false value).metaWord &&& genMask
        = liveGen (item.beginWrite.metaWord + 1#64) := by
      simp only [setValue, Bool.false_eq_true, if_false]
      exact withGen_gen (liveGen_within _).1
    have positive : (item.setValue false value).metaWord &&& genMask ≠ 0#64 :=
      gen ▸ (liveGen_within _).2
    refine ⟨⟨fun _ => positive, ?_, freed⟩, ne_zero_of_gen positive⟩
    have read : (item.setValue false value).metaWord &&& genMask
        = liveGen (item.beginWrite.metaWord + 1#64) &&& genMask := by
      rw [gen, (liveGen_within _).1]
    rw [getLsbD_eq_of_and_eq read low, liveGen_parity, parity_succ, odd]
    rfl

end SetValue

/-- The part of a word the reference counter is not in. -/
def steady : MetaWord := ~~~chanceMask

/-- Touching changes the reference counter alone. -/
theorem touchWith_steady (item : Item K V) (word : MetaWord) :
    (item.touchWith word).metaWord &&& steady = item.metaWord &&& steady ∧
      (item.touchWith word).entry = item.entry := by
  unfold touchWith
  split
  · exact ⟨or_and_of_disjoint (by decide), rfl⟩
  · split
    · exact ⟨or_and_of_disjoint (by decide), rfl⟩
    · exact ⟨rfl, rfl⟩

/-- Revoking a chance changes the reference counter alone. -/
theorem revokeChance_steady (item : Item K V) (word : MetaWord) :
    (item.revokeChance word).metaWord &&& steady = item.metaWord &&& steady ∧
      (item.revokeChance word).entry = item.entry := by
  unfold revokeChance
  split
  · exact ⟨andNot_and_of_disjoint (by decide), rfl⟩
  · exact ⟨andNot_and_of_disjoint (by decide), rfl⟩

theorem resetChances_steady (item : Item K V) :
    item.resetChances.metaWord &&& steady = item.metaWord &&& steady ∧
      item.resetChances.entry = item.entry :=
  ⟨andNot_and_of_disjoint (by decide), rfl⟩

/-- A lifetime refreshed from the loaded word keeps the item's identity. -/
theorem touchAndRefreshExpire_identity (item : Item K V) {off : Nat} (small : off < 2 ^ 18) :
    (item.touchAndRefreshExpire item.metaWord off).1.metaWord &&& identity
        = item.metaWord &&& identity ∧
      (item.touchAndRefreshExpire item.metaWord off).1.metaWord.expireOff = off ∧
      (item.touchAndRefreshExpire item.metaWord off).1.entry = item.entry := by
  -- The touch sets a chance bit, which neither the identity nor the offset reads.
  have kept : ∀ bits : MetaWord, bits &&& identity = 0#64 → bits &&& expireMask = 0#64 →
      (item.metaWord.withExpire off ||| bits) &&& identity = item.metaWord &&& identity ∧
        (item.metaWord.withExpire off ||| bits).expireOff = off := by
    intro bits apart apartExpire
    refine ⟨?_, ?_⟩
    · rw [or_and_of_disjoint apart, withExpire_and small (by decide)]
    · rw [expireOff, or_and_of_disjoint apartExpire]
      exact withExpire_expireOff small
  simp only [touchAndRefreshExpire, if_true]
  split
  · exact ⟨(kept _ (by decide) (by decide)).1, (kept _ (by decide) (by decide)).2, trivial⟩
  · split
    · exact ⟨(kept _ (by decide) (by decide)).1, (kept _ (by decide) (by decide)).2, trivial⟩
    · exact ⟨withExpire_and small (by decide), withExpire_expireOff small, trivial⟩

/-- A copy that validates belongs to the occupancy the word was loaded from. -/
theorem snapshotInto_word {item : Item K V} {word : MetaWord}
    (valid : item.snapshotInto word = true) :
    item.metaWord &&& aliveGenMask = word &&& aliveGenMask := by
  simp only [snapshotInto, Bool.and_eq_true, beq_iff_eq] at valid
  refine BitVec.eq_of_getLsbD_eq fun i _ => ?_
  have bit := congrArg (fun bits => BitVec.getLsbD bits i) valid.1
  simp only [BitVec.getLsbD_and, BitVec.getLsbD_xor, BitVec.getLsbD_zero] at bit ⊢
  -- Under the mask the two words have no bit apart.
  revert bit
  cases item.metaWord.getLsbD i <;> cases word.getLsbD i <;> cases aliveGenMask.getLsbD i <;> simp

end Item

end Memstash
