import Memstash.Itemstore.Generations
import Memstash.Itemstore.Slot
import Memstash.Lib.Traces

/-! What each step can do to a slot, and what it does to the item when nothing comes in between. -/

namespace Memstash

open MetaWord Traces

variable {k v : Nat} {W : Type}

namespace Words

theorem read_write_self (entry : Words k v W) (place : Place k v) (w : W) :
    (entry.write place w).read place = w := by
  cases place <;> simp [read, write]

theorem read_write_of_ne (entry : Words k v W) {place other : Place k v} (apart : other ≠ place) (w : W) :
    (entry.write place w).read other = entry.read other := by
  cases place <;> cases other <;> simp_all [read, write]

theorem write_key (entry : Words k v W) {place : Place k v} (value : place ∈ values k v) (w : W) :
    (entry.write place w).key = entry.key := by
  cases place with
  | inl i => simp [values] at value
  | inr i => rfl

theorem ext_read {entry other : Words k v W} (same : ∀ place, entry.read place = other.read place) :
    entry = other := by
  cases entry
  cases other
  simp only [Entry.mk.injEq]
  exact ⟨funext fun i => same (.inl i), funext fun i => same (.inr i)⟩

end Words

/-- What the meta word says while an operation that ends like this is under way. -/
def Ending.Fits : Ending → MetaWord → Prop
  | .publish _ _, word => (word = 0#64 ∨ word.isDead = true) ∧ word.getLsbD 0 = false
  | .endWrite, word => word.getLsbD 0 = true ∧ 1 < (word &&& genMask).toNat
  | .inPlace, word => Slot.Readable word
  | .refreshExpire _, word => Slot.Readable word
  | .makeFree, word => word.isDead = true ∧ word.getLsbD 0 = false

/-- Which words of the entry an operation that ends like this stores. -/
def Ending.Stores (k v : Nat) : Ending → Finset (Place k v) → Prop
  | .endWrite, todo => todo ⊆ Words.values k v
  | .inPlace, todo => v ≤ 1 ∧ todo ⊆ Words.values k v
  | .refreshExpire _, todo => todo = ∅
  | _, _ => True

/-- What the item looks like in each phase of an operation. -/
def Phase.Fits : Phase k v W → Item (Fin k → W) (Fin v → W) → Prop
  | .idle, item => item.metaWord.getLsbD 0 = false
  | .beginLoad goal, item => Slot.Readable item.metaWord ∧ goal.key = item.entry.key
  | .beginSwap goal _, item => Slot.Readable item.metaWord ∧ goal.key = item.entry.key
  | .storing goal todo ending, item => ending.Fits item.metaWord ∧ ending.Stores k v todo ∧
      ∀ place ∉ todo, Words.read item.entry place = Words.read goal place
  | .replacing goal ending seen, item => ending.Fits item.metaWord ∧ item.entry = goal ∧
      Same seen item.metaWord

namespace Slot

/-- What holds of a slot in every state. -/
structure Good (slot : Slot k v W) : Prop where
  /-- Only a never-occupied slot has generation 0. -/
  gen : slot.word ≠ 0#64 → slot.word &&& genMask ≠ 0#64
  phase : slot.phase.Fits slot.item
  /-- A word that reads as live stands beside the pair the item holds. -/
  held : Readable slot.word → slot.held = some slot.item.entry

/-- What one step can do to a slot. -/
inductive Effect (slot slot' : Slot k v W) : Prop
  /-- Nothing a reader validates against, and no word of an entry that takes several words to store. -/
  | calm (same : Same slot'.word slot.word) (key : slot'.item.entry.key = slot.item.entry.key)
      (value : 1 < v → slot'.item.entry.value = slot.item.entry.value)
      (writes : slot.writes ≤ slot'.writes)
  /-- A word of the entry, while the meta word shows nothing to readers. -/
  | hidden (same : slot'.word = slot.word) (unread : ¬ Readable slot.word)
      (writes : slot'.writes = slot.writes)
  /-- The meta word stops showing the item to readers. -/
  | closed (unread : ¬ Readable slot'.word) (turn : slot'.word.turn = slot.word.turn)
      (writes : slot'.writes = slot.writes)
  /-- The meta word shows the item to readers again, one generation on. -/
  | shown (turn : slot.word ≠ 0#64 → slot'.word.turn = (slot.word.turn + 1) % cycle)
      (writes : slot'.writes = slot.writes + 1)

/-- Readers see an item through agreeing words alike. -/
theorem readable_congr {word other : MetaWord} (same : Same word other)
    (gen : word ≠ 0#64 → word &&& genMask ≠ 0#64) (gen' : other ≠ 0#64 → other &&& genMask ≠ 0#64) :
    Readable word ↔ Readable other := by
  unfold Readable
  rw [and_one_eq_zero_iff, and_one_eq_zero_iff, same.isDead, same.parity]
  have occupied : word ≠ 0#64 ↔ other ≠ 0#64 := by
    constructor
    · exact fun one => ne_zero_of_gen (same.gen ▸ gen one)
    · exact fun one => ne_zero_of_gen (same.gen ▸ gen' one)
  rw [occupied]

/-- An operation goes on over an agreeing word. -/
theorem fits_congr {ending : Ending} {word other : MetaWord} (same : Same word other)
    (gen : word ≠ 0#64 → word &&& genMask ≠ 0#64) (gen' : other ≠ 0#64 → other &&& genMask ≠ 0#64)
    (fits : ending.Fits other) : ending.Fits word := by
  cases ending with
  | publish hash off =>
    refine ⟨?_, same.parity.trans fits.2⟩
    rcases fits.1 with empty | dead
    · left
      by_contra occupied
      exact gen occupied (by rw [same.gen, empty, BitVec.zero_and])
    · exact .inr (same.isDead.trans dead)
  | endWrite => exact ⟨same.parity.trans fits.1, by rw [same.gen]; exact fits.2⟩
  | inPlace => exact (readable_congr same gen gen').mpr fits
  | refreshExpire off => exact (readable_congr same gen gen').mpr fits
  | makeFree => exact ⟨same.isDead.trans fits.1, same.parity.trans fits.2⟩

/-- What a step leaves, and what it did. -/
structure Next (slot slot' : Slot k v W) : Prop where
  good : slot'.Good
  effect : Effect slot slot'
  /-- A slot that was occupied stays so. -/
  occupied : slot.word ≠ 0#64 → slot'.word ≠ 0#64

/-- A step that replaces an occupied word by an agreeing one. -/
theorem Good.reword {slot : Slot k v W} (good : slot.Good) {item : Item (Fin k → W) (Fin v → W)}
    (same : Same item.metaWord slot.word) (entry : item.entry = slot.item.entry)
    (occupied : slot.word ≠ 0#64) : Next slot { slot with item := item } := by
  have gen : item.metaWord &&& genMask ≠ 0#64 := by
    rw [same.gen]
    exact good.gen occupied
  have readable := readable_congr same (fun _ => gen) good.gen
  refine ⟨⟨fun _ => gen, ?_, fun seen => ?_⟩, .calm same (by rw [entry]) (fun _ => by rw [entry]) le_rfl,
    fun _ => ne_zero_of_gen gen⟩
  · have before := good.phase
    cases phase : slot.phase with
    | idle =>
      rw [phase] at before
      exact same.parity.trans before
    | beginLoad goal =>
      rw [phase] at before
      exact ⟨readable.mpr before.1, by rw [entry]; exact before.2⟩
    | beginSwap goal seen =>
      rw [phase] at before
      exact ⟨readable.mpr before.1, by rw [entry]; exact before.2⟩
    | storing goal todo ending =>
      rw [phase] at before
      exact ⟨fits_congr same (fun _ => gen) good.gen before.1, by rw [entry]; exact before.2⟩
    | replacing goal ending seen =>
      rw [phase] at before
      exact ⟨fits_congr same (fun _ => gen) good.gen before.1, entry.trans before.2.1,
        Eq.trans before.2.2 same.symm⟩
  · rw [entry]
    exact good.held (readable.mp seen)

variable [Inhabited W] {slot slot' : Slot k v W}

theorem Readable.even {word : MetaWord} (readable : Readable word) : word.getLsbD 0 = false :=
  (and_one_eq_zero_iff word).mp readable.2.2

/-- Taking up an operation changes nothing yet, except that a kill is one step. -/
theorem Good.start (good : slot.Good) (idle : slot.phase = .idle) {op : ItemOp k v W}
    (ran : slot.start op = some slot') : Next slot slot' := by
  have even : slot.word.getLsbD 0 = false := by
    have := good.phase
    rw [idle] at this
    exact this
  have readable : slot.word ≠ 0#64 ∧ slot.word.isDead = false → Readable slot.word := fun live =>
    ⟨live.1, live.2, (and_one_eq_zero_iff _).mpr even⟩
  -- Apart from a kill only the phase changes.
  have waits : ∀ phase : Phase k v W, phase.Fits slot.item → Next slot { slot with phase := phase } :=
    fun phase fits => ⟨⟨good.gen, fits, good.held⟩, .calm rfl rfl (fun _ => rfl) le_rfl, id⟩
  cases op with
  | publish entry hash off =>
    simp only [Slot.start, Option.ite_none_right_eq_some, Option.some.injEq] at ran
    obtain ⟨hollow, rfl⟩ := ran
    exact waits _ ⟨⟨hollow, even⟩, trivial, fun place away => absurd (Finset.mem_univ place) away⟩
  | setValue value =>
    simp only [Slot.start, Option.ite_none_right_eq_some] at ran
    obtain ⟨live, ran⟩ := ran
    split at ran
    · rename_i small
      cases ran
      refine waits _ ⟨readable live, ⟨small, subset_rfl⟩, fun place away => ?_⟩
      cases place with
      | inl i => rfl
      | inr i => exact absurd (by simp [Words.values]) away
    · cases ran
      exact waits _ ⟨readable live, rfl⟩
  | refreshExpire off =>
    simp only [Slot.start, Option.ite_none_right_eq_some, Option.some.injEq] at ran
    obtain ⟨live, rfl⟩ := ran
    exact waits _ ⟨readable live, rfl, fun _ _ => rfl⟩
  | makeFree =>
    simp only [Slot.start, Option.ite_none_right_eq_some, Option.some.injEq] at ran
    obtain ⟨dead, rfl⟩ := ran
    exact waits _ ⟨⟨dead, even⟩, trivial, fun place away => absurd (Finset.mem_univ place) away⟩
  | kill =>
    simp only [Slot.start, Option.ite_none_right_eq_some, Option.some.injEq] at ran
    obtain ⟨occupied, rfl⟩ := ran
    have dead : slot.item.kill.metaWord.isDead = true := Item.kill_isDead
    have gen : slot.item.kill.metaWord &&& genMask = slot.word &&& genMask := Item.kill_and (by decide)
    have unread : ¬ Readable slot.item.kill.metaWord := fun readable => by
      rw [readable.2.1] at dead
      exact absurd dead (by decide)
    refine ⟨⟨fun _ => ?_, ?_, fun readable => absurd readable unread⟩, .closed unread ?_ rfl,
      fun _ => ne_zero_of_gen ?_⟩
    · exact gen ▸ good.gen occupied
    · show Phase.Fits slot.phase slot.item.kill
      rw [idle]
      exact (getLsbD_eq_of_and_eq gen (by decide)).trans even
    · rw [MetaWord.turn, MetaWord.turn, gen]
    · exact gen ▸ good.gen occupied

/-- While an entry is filled, emptied or overwritten in several words, readers see no item. -/
theorem not_readable_of_fits {ending : Ending} {word : MetaWord} (fits : ending.Fits word)
    (several : ending ≠ .inPlace ∧ ∀ off, ending ≠ .refreshExpire off) : ¬ Readable word := by
  rintro ⟨occupied, alive, even⟩
  rw [and_one_eq_zero_iff] at even
  cases ending with
  | publish hash off => simp_all [Ending.Fits]
  | endWrite => simp_all [Ending.Fits]
  | inPlace => exact several.1 rfl
  | refreshExpire off => exact several.2 off rfl
  | makeFree => simp_all [Ending.Fits]

omit [Inhabited W] in
/-- Storing a word changes what readers see only when the whole value is that word. -/
theorem Good.store (good : slot.Good) {place : Place k v} (ran : slot.store place = some slot') :
    Next slot slot' := by
  have fits := good.phase
  unfold Slot.store at ran
  split at ran
  · rename_i goal todo ending phase
    rw [phase] at fits
    obtain ⟨fits, stores, done⟩ := fits
    rw [Option.ite_none_right_eq_some] at ran
    obtain ⟨listed, ran⟩ := ran
    have more : ∀ other ∉ todo.erase place,
        Words.read (Words.write slot.item.entry place (Words.read goal place)) other = Words.read goal other := by
      intro other away
      by_cases here : other = place
      · rw [here, Words.read_write_self]
      · rw [Words.read_write_of_ne _ here]
        exact done other fun member => away (Finset.mem_erase.mpr ⟨here, member⟩)
    -- A word of an entry that readers do not see.
    have hides : ¬ Readable slot.word → ending.Stores k v (todo.erase place) →
        Next slot { slot with
          item := { slot.item with entry := Words.write slot.item.entry place (Words.read goal place) }
          phase := .storing goal (todo.erase place) ending } := fun unread stores' =>
      ⟨⟨good.gen, ⟨fits, stores', more⟩, fun readable => absurd readable unread⟩,
        .hidden rfl unread rfl, id⟩
    cases ending with
    | publish hash off =>
      cases ran
      exact hides (not_readable_of_fits fits (by simp)) trivial
    | endWrite =>
      cases ran
      exact hides (not_readable_of_fits fits (by simp)) ((Finset.erase_subset _ _).trans stores)
    | inPlace =>
      cases ran
      have key := Words.write_key slot.item.entry (stores.2 listed) (Words.read goal place)
      exact ⟨⟨good.gen, ⟨fits, ⟨stores.1, (Finset.erase_subset _ _).trans stores.2⟩, more⟩,
        fun _ => rfl⟩, .calm rfl key (fun large => by have := stores.1; omega) le_rfl, id⟩
    | refreshExpire off =>
      have none : todo = ∅ := stores
      rw [none] at listed
      exact absurd listed (by simp)
    | makeFree =>
      cases ran
      exact hides (not_readable_of_fits fits (by simp)) trivial
  · cases ran

omit [Inhabited W] in
/-- The last store of a publish or of an overwrite shows the new pair, one generation on. -/
theorem next_reveal {goal : Words k v W} {word : MetaWord} (entry : slot.item.entry = goal)
    (gen : word &&& genMask ≠ 0#64) (even : word.getLsbD 0 = false)
    (turn : slot.word ≠ 0#64 → word.turn = (slot.word.turn + 1) % cycle) :
    Next slot { slot with
      item := { slot.item with metaWord := word }
      phase := .idle
      held := some goal
      writes := slot.writes + 1 } :=
  ⟨⟨fun _ => gen, even, fun _ => congrArg some entry.symm⟩, .shown turn rfl, fun _ => ne_zero_of_gen gen⟩

omit [Inhabited W] in
/-- Every access of the writer to the meta word keeps the slot good. -/
theorem Good.access (good : slot.Good) (ran : slot.access = some slot') : Next slot slot' := by
  have fits := good.phase
  have waits : ∀ phase : Phase k v W, phase.Fits slot.item → Next slot { slot with phase := phase } :=
    fun phase fits => ⟨⟨good.gen, fits, good.held⟩, .calm rfl rfl (fun _ => rfl) le_rfl, id⟩
  unfold Slot.access at ran
  cases phase : slot.phase with
  | idle => simp [phase] at ran
  | beginLoad goal =>
    rw [phase] at fits
    simp only [phase, Option.some.injEq] at ran
    subst ran
    exact waits _ fits
  | beginSwap goal seen =>
    rw [phase] at fits
    simp only [phase] at ran
    split at ran
    · cases ran
      obtain ⟨odd, opened, turn⟩ := withGen_begin fits.1.even (good.gen fits.1.1)
      have gen : slot.item.beginWrite.metaWord &&& genMask ≠ 0#64 := fun zero => by
        rw [show slot.item.beginWrite.metaWord = slot.word.withGen ((slot.word + 1#64) &&& genMask) from rfl] at zero
        rw [zero] at opened
        simp at opened
      have unread : ¬ Readable slot.item.beginWrite.metaWord := fun readable => by
        have even := readable.even
        rw [show slot.item.beginWrite.metaWord.getLsbD 0 = true from odd] at even
        exact absurd even (by decide)
      refine ⟨⟨fun _ => gen, ⟨⟨odd, opened⟩, subset_rfl, fun place away => ?_⟩,
        fun readable => absurd readable unread⟩, .closed unread turn rfl, fun _ => ne_zero_of_gen gen⟩
      cases place with
      | inl i => exact congrFun fits.2.symm i
      | inr i => exact absurd (by simp [Words.values]) away
    · cases ran
      exact waits _ fits
  | storing goal todo ending =>
    rw [phase] at fits
    simp only [phase, Option.ite_none_right_eq_some] at ran
    obtain ⟨rfl, ran⟩ := ran
    obtain ⟨fits, stores, done⟩ := fits
    have whole : slot.item.entry = goal := Words.ext_read fun place => done place (by simp)
    cases ending with
    | inPlace =>
      cases ran
      exact ⟨⟨good.gen, fits.even, good.held⟩, .calm rfl rfl (fun _ => rfl) (Nat.le_succ _), id⟩
    | makeFree =>
      cases ran
      have occupied : slot.word ≠ 0#64 := fun zero => by
        have dead : slot.word.isDead = true := fits.1
        rw [zero] at dead
        exact absurd dead (by decide)
      have same : Same (slot.word ||| free) slot.word := or_and_of_disjoint (by decide)
      have next : Next slot { slot with item := { slot.item with metaWord := slot.word ||| free } } :=
        good.reword same rfl occupied
      exact ⟨⟨next.good.gen, same.parity.trans fits.2, next.good.held⟩,
        .calm same rfl (fun _ => rfl) le_rfl, next.occupied⟩
    | publish hash off =>
      cases ran
      exact waits _ ⟨fits, whole, rfl⟩
    | endWrite =>
      cases ran
      exact waits _ ⟨fits, whole, rfl⟩
    | refreshExpire off =>
      cases ran
      exact waits _ ⟨fits, whole, rfl⟩
  | replacing goal ending seen =>
    rw [phase] at fits
    simp only [phase] at ran
    obtain ⟨fits, whole, same⟩ := fits
    cases ending with
    | publish hash off =>
      cases ran
      have live := liveGen_within ((seen + 2#64) &&& ~~~1#64)
      have gen := pack_gen off.isLt (tagOf_within hash) live.1
      refine next_reveal whole (by rw [gen]; exact live.2) ?_ fun occupied => ?_
      · rw [getLsbD_eq_of_and_eq (gen.trans live.1.symm) (by decide), liveGen_parity]
        simp
      · have seenGen : seen &&& genMask ≠ 0#64 := same.gen ▸ good.gen occupied
        rw [MetaWord.turn, gen, liveGen_publish (same.parity.trans fits.2) seenGen, same.turn]
    | endWrite =>
      cases ran
      have live := liveGen_within (seen + 1#64)
      have gen : seen.withGen (liveGen (seen + 1#64)) &&& genMask = liveGen (seen + 1#64) :=
        Item.withGen_gen live.1
      obtain ⟨even, turn⟩ := liveGen_end (same.parity.trans fits.1) (by rw [same.gen]; exact fits.2)
      refine next_reveal whole ?_ ?_ fun _ => ?_
      · show seen.withGen (liveGen (seen + 1#64)) &&& genMask ≠ 0#64
        rw [gen]
        exact live.2
      · exact (getLsbD_eq_of_and_eq (gen.trans live.1.symm) (by decide)).trans even
      · show (seen.withGen (liveGen (seen + 1#64))).turn = _
        rw [MetaWord.turn, gen, turn, same.turn]
    | refreshExpire off =>
      cases ran
      have agrees : Same (seen.withExpire off) slot.word :=
        (Item.withExpire_and off.isLt (by decide)).trans same
      have next : Next slot { slot with item := { slot.item with metaWord := seen.withExpire off } } :=
        good.reword agrees rfl fits.1
      exact ⟨⟨next.good.gen, agrees.parity.trans fits.even, next.good.held⟩,
        .calm agrees rfl (fun _ => rfl) le_rfl, next.occupied⟩
    | inPlace => cases ran
    | makeFree => cases ran

/-- Every step keeps the slot good, and does one of the few things a step can do. -/
theorem Good.step (good : slot.Good) {next : SlotStep k v W} (ran : slot.step next = some slot') :
    Next slot slot' := by
  cases next with
  | start op =>
    simp only [Slot.step] at ran
    split at ran
    · rename_i idle
      exact good.start idle ran
    · cases ran
  | store place => exact good.store ran
  | access => exact good.access ran
  | touchWith seen =>
    simp only [Slot.step, Option.ite_none_right_eq_some, Option.some.injEq] at ran
    obtain ⟨occupied, rfl⟩ := ran
    obtain ⟨steady, entry⟩ := Item.touchWith_steady slot.item seen
    exact good.reword (and_eq_of_and_eq steady (by decide)) entry occupied
  | touchAndRefreshExpire seen off =>
    simp only [Slot.step, Option.ite_none_right_eq_some, Option.some.injEq] at ran
    obtain ⟨readable, rfl⟩ := ran
    by_cases current : slot.word = seen
    · subst current
      obtain ⟨identity, _, entry⟩ := Item.touchAndRefreshExpire_identity slot.item off.isLt
      exact good.reword (and_eq_of_and_eq identity (by decide)) entry readable.1
    · have same : (slot.item.touchAndRefreshExpire seen off).1 = slot.item := by
        simp [Item.touchAndRefreshExpire, current]
      rw [same]
      exact ⟨good, .calm rfl rfl (fun _ => rfl) le_rfl, id⟩
  | load =>
    cases ran
    exact ⟨⟨good.gen, good.phase, good.held⟩, .calm rfl rfl (fun _ => rfl) le_rfl, id⟩
  | copy place =>
    simp only [Slot.step] at ran
    split at ran
    · rw [Option.ite_none_right_eq_some] at ran
      obtain ⟨_, ran⟩ := ran
      cases ran
      exact ⟨⟨good.gen, good.phase, good.held⟩, .calm rfl rfl (fun _ => rfl) le_rfl, id⟩
    · cases ran

/-- The steps of a slot. -/
def Stepped (slot : Slot k v W) (next : SlotStep k v W) (slot' : Slot k v W) : Prop :=
  slot.step next = some slot'

theorem good_fresh : (fresh : Slot k v W).Good :=
  ⟨fun occupied => absurd rfl occupied, by simp [fresh, Phase.Fits, default],
    fun readable => absurd rfl readable.1⟩

theorem Good.trace (good : slot.Good) {steps : List (SlotStep k v W)}
    (trace : Trace Stepped slot steps slot') : slot'.Good := by
  induction trace with
  | nil => exact good
  | snoc _ stepped ih => exact (ih.step stepped).good

/-- The meta word of an occupied slot never becomes zero again. -/
theorem Good.occupied (good : slot.Good) {steps : List (SlotStep k v W)}
    (trace : Trace Stepped slot steps slot') (occupied : slot.word ≠ 0#64) : slot'.word ≠ 0#64 := by
  induction trace with
  | nil => exact occupied
  | snoc before stepped ih => exact ((good.trace before).step stepped).occupied ih

/-- What an operation does to an item. -/
def apply (item : Item (Fin k → W) (Fin v → W)) : ItemOp k v W → Item (Fin k → W) (Fin v → W)
  | .publish entry hash off => item.publish entry (tagOf hash) off
  | .setValue value => item.setValue (decide (v ≤ 1)) value
  | .refreshExpire off => item.refreshExpire off
  | .kill => item.kill
  | .makeFree => item.makeFree

end Slot

end Memstash
