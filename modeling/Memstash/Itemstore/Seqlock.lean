import Memstash.Itemstore.SlotLaws

/-! A copy that validates is a pair the item held, however readers and writers interleave. -/

namespace Memstash

open MetaWord Traces

namespace Slot

variable {k v : Nat} {W : Type} [Inhabited W] {slot slot' : Slot k v W}

/-- The words the reader has copied were in the slot together, at a moment when it read as live. -/
structure Glimpsed (start : Slot k v W) (steps : List (SlotStep k v W)) (slot : Slot k v W)
    (copied : Place k v → Option W) (moment : Slot k v W) : Prop where
  between : ∃ done, done <+: steps ∧ Trace Stepped start done moment
  readable : Readable moment.word
  key : moment.item.entry.key = slot.item.entry.key
  value : 1 < v → moment.item.entry.value = slot.item.entry.value
  copies : ∀ place w, copied place = some w → w = Words.read moment.item.entry place

/-- What a reader that loaded a readable word has seen since. -/
structure Watching (start : Slot k v W) (steps : List (SlotStep k v W)) (slot : Slot k v W) : Prop where
  occupied : slot.word ≠ 0#64
  reader : ∃ copied, slot.reader = some ⟨start.word, copied⟩ ∧
    -- So many times a pair was shown to readers, and only before the first the copy is of one pair.
    ∃ shown, start.writes + shown ≤ slot.writes ∧ slot.word.turn = (start.word.turn + shown) % cycle ∧
      (shown = 0 → Readable slot.word → ∃ moment, Glimpsed start steps slot copied moment)

/-- Only the reader's own steps change what it has copied. -/
theorem reader_of_step {next : SlotStep k v W} (ran : slot.step next = some slot') :
    slot'.reader = slot.reader ∨ next = .load ∨ ∃ place reader, slot.reader = some reader ∧
      reader.copied place = none ∧ slot' = { slot with reader := some { reader with
        copied := Function.update reader.copied place (some (Words.read slot.item.entry place)) } } := by
  cases next with
  | start op =>
    left
    simp only [Slot.step] at ran
    split at ran
    · cases op <;> simp only [Slot.start] at ran <;> grind
    · cases ran
  | store place =>
    left
    simp only [Slot.step, Slot.store] at ran
    grind
  | access =>
    left
    simp only [Slot.step, Slot.access] at ran
    grind
  | touchWith seen =>
    left
    simp only [Slot.step] at ran
    grind
  | touchAndRefreshExpire seen off =>
    left
    simp only [Slot.step] at ran
    grind
  | load => exact .inr (.inl rfl)
  | copy place =>
    simp only [Slot.step] at ran
    split at ran
    · rename_i reader reading
      rw [Option.ite_none_right_eq_some] at ran
      obtain ⟨missing, ran⟩ := ran
      cases ran
      exact .inr (.inr ⟨place, reader, reading, missing, rfl⟩)
    · cases ran

/-- Between two looks at a readable word with no pair shown in between, the key is the same, and so is a
value of several words. -/
theorem Glimpsed.later {start moment : Slot k v W} {steps : List (SlotStep k v W)} {next : SlotStep k v W}
    {copied : Place k v → Option W} (glimpsed : Glimpsed start steps slot copied moment)
    (key : slot'.item.entry.key = slot.item.entry.key)
    (value : 1 < v → slot'.item.entry.value = slot.item.entry.value) :
    Glimpsed start (steps ++ [next]) slot' copied moment := by
  obtain ⟨done, within, trace⟩ := glimpsed.between
  exact ⟨⟨done, within.trans (List.prefix_append _ _), trace⟩, glimpsed.readable, glimpsed.key.trans key.symm,
    fun large => (glimpsed.value large).trans (value large).symm, glimpsed.copies⟩

/-- One more word is copied from the pair the others were copied from, or is the only word of its value. -/
theorem Glimpsed.copy {start moment : Slot k v W} {steps : List (SlotStep k v W)} {next : SlotStep k v W}
    {copied : Place k v → Option W} (glimpsed : Glimpsed start steps slot copied moment)
    (trace : Trace Stepped start steps slot) (readable : Readable slot.word) (place : Place k v)
    (reader : Option (Snapshot k v W)) :
    ∃ moment', Glimpsed start (steps ++ [next]) { slot with reader := reader }
      (Function.update copied place (some (Words.read slot.item.entry place))) moment' := by
  cases place with
  | inl i =>
    -- The key has not changed since the moment the other words were together in the slot.
    refine ⟨moment, { glimpsed.later rfl fun _ => rfl with copies := fun other w listed => ?_ }⟩
    by_cases here : other = .inl i
    · subst here
      rw [Function.update_self, Option.some.injEq] at listed
      rw [← listed]
      exact congrFun glimpsed.key.symm i
    · rw [Function.update_of_ne here] at listed
      exact glimpsed.copies other w listed
  | inr i =>
    -- The value is one word, or has not changed either.
    refine ⟨slot, ⟨steps, List.prefix_append _ _, trace⟩, readable, rfl, fun _ => rfl, fun other w listed => ?_⟩
    by_cases here : other = .inr i
    · subst here
      rw [Function.update_self, Option.some.injEq] at listed
      exact listed.symm
    · rw [Function.update_of_ne here] at listed
      rw [glimpsed.copies other w listed]
      cases other with
      | inl j => exact congrFun glimpsed.key j
      | inr j =>
        have apart : j ≠ i := fun same => here (by rw [same])
        have large : 1 < v := by
          have first := i.isLt
          have second := j.isLt
          by_contra one
          exact apart (Fin.ext (by omega))
        exact congrFun (glimpsed.value large) j

/-- Every step but another load keeps the watch. -/
theorem Watching.step {start : Slot k v W} {steps : List (SlotStep k v W)} {next : SlotStep k v W}
    (good : slot.Good) (trace : Trace Stepped start steps slot) (watching : Watching start steps slot)
    (ran : slot.step next = some slot') (other : next ≠ .load) : Watching start (steps ++ [next]) slot' := by
  obtain ⟨occupied, copied, reading, shown, most, turn, glimpse⟩ := watching
  have after := good.step ran
  refine ⟨after.occupied occupied, ?_⟩
  rcases reader_of_step ran with same | load | ⟨place, reader, was, _, rfl⟩
  · refine ⟨copied, same.trans reading, ?_⟩
    cases after.effect with
    | calm agrees key value writes =>
      refine ⟨shown, most.trans writes, agrees.turn.trans turn, fun none readable => ?_⟩
      obtain ⟨moment, glimpsed⟩ := glimpse none
        ((readable_congr agrees after.good.gen good.gen).mp readable)
      exact ⟨moment, glimpsed.later key value⟩
    | hidden agrees unread writes =>
      exact ⟨shown, by omega, by rw [agrees]; exact turn, fun _ readable => absurd (agrees ▸ readable) unread⟩
    | closed unread kept writes =>
      exact ⟨shown, by omega, kept.trans turn, fun _ readable => absurd readable unread⟩
    | shown advanced writes =>
      refine ⟨shown + 1, by omega, ?_, fun none => absurd none (by omega)⟩
      rw [advanced occupied, turn, Nat.mod_add_mod, Nat.add_assoc]
  · exact absurd load other
  · rw [reading, Option.some.injEq] at was
    subst was
    refine ⟨_, rfl, shown, most, turn, fun none readable => ?_⟩
    obtain ⟨moment, glimpsed⟩ := glimpse none readable
    exact glimpsed.copy trace readable place _

end Slot

end Memstash
