import Mathlib

/-! First occurrences in lists, lists taken apart by a key, and the last value a list gives a key. -/

namespace Occurrences

section Pairs

variable {α β : Type*} {R : α → β → Prop} {l : List α} {l' : List β}

/-- Every element of the first list is paired with one of the second. -/
theorem exists_right_of_mem (paired : List.Forall₂ R l l') {a : α} (member : a ∈ l) :
    ∃ b ∈ l', R a b := by
  induction paired with
  | nil => simp at member
  | cons related _ ih =>
    rcases List.mem_cons.mp member with rfl | later
    · exact ⟨_, List.mem_cons_self, related⟩
    · obtain ⟨b, inside, fine⟩ := ih later
      exact ⟨b, List.mem_cons_of_mem _ inside, fine⟩

/-- Every element of the second list is paired with one of the first. -/
theorem exists_left_of_mem (paired : List.Forall₂ R l l') {b : β} (member : b ∈ l') :
    ∃ a ∈ l, R a b :=
  exists_right_of_mem (List.Forall₂.flip paired) member

end Pairs

variable {α β : Type*} [DecidableEq α]

/-- One more element is one more first occurrence, unless it is there. -/
theorem eraseDups_concat (l : List α) (a : α) :
    (l ++ [a]).eraseDups = if a ∈ l then l.eraseDups else l.eraseDups ++ [a] := by
  rw [List.eraseDups_append]
  split
  · rename_i known
    simp [List.removeAll, known]
  · rename_i fresh
    simp [List.removeAll, fresh, List.eraseDups_cons]

/-- First occurrences are distinct. -/
theorem nodup_eraseDups (l : List α) : l.eraseDups.Nodup := by
  induction l using List.reverseRecOn with
  | nil => simp
  | append_singleton rest a ih =>
    rw [eraseDups_concat]
    split
    · exact ih
    · rename_i fresh
      rw [List.nodup_append]
      refine ⟨ih, by simp, fun b first c last => ?_⟩
      rw [List.mem_singleton] at last
      rw [List.mem_eraseDups] at first
      rintro rfl
      exact fresh (last ▸ first)

/-- In a list without repetitions, an element is found where it is. -/
theorem idxOf?_eq_some_of_nodup {l : List α} (distinct : l.Nodup) {a : α} {i : Nat} :
    l.idxOf? a = some i ↔ l[i]? = some a := by
  rw [List.idxOf?_eq_some_iff, List.getElem?_eq_some_iff]
  constructor
  · rintro ⟨inside, here, _⟩
    exact ⟨inside, here⟩
  · rintro ⟨inside, here⟩
    refine ⟨inside, here, fun j before same => ?_⟩
    have := (distinct.getElem_inj_iff).mp (same.trans here.symm)
    omega

omit [DecidableEq α] in
/-- A list without repetitions has one position for each element. -/
theorem getElem?_unique {l : List α} (distinct : l.Nodup) {a : α} {i j : Nat} (first : l[i]? = some a)
    (second : l[j]? = some a) : i = j := by
  obtain ⟨inside, _⟩ := List.getElem?_eq_some_iff.mp first
  exact (List.getElem?_inj inside distinct).mp (first.trans second.symm)

omit [DecidableEq α] in
/-- Elements of either of two kinds, when none is of both. -/
theorem filter_or_perm (p q : α → Bool) (l : List α) (apart : ∀ a ∈ l, p a = true → q a = false) :
    (l.filter fun a => p a || q a).Perm (l.filter p ++ l.filter q) := by
  induction l with
  | nil => exact .nil
  | cons a rest ih =>
    have ih := ih fun b member => apart b (by simp [member])
    have here := apart a (by simp)
    cases first : p a <;> cases second : q a
    · simpa [first, second] using ih
    · simpa [first, second] using (ih.cons a).trans List.perm_middle.symm
    · simpa [first, second] using ih.cons a
    · simp [first, second] at here

/-- The value the last of some pairs gives a key. -/
def lastValue (pairs : List (α × β)) (key : α) : Option β :=
  ((pairs.filter fun pair => pair.1 = key).getLast?).map Prod.snd

@[simp] theorem lastValue_nil (key : α) : lastValue ([] : List (α × β)) key = none := rfl

/-- Of two lists the second decides, where it has the key. -/
theorem lastValue_append (first second : List (α × β)) (key : α) :
    lastValue (first ++ second) key = (lastValue second key).or (lastValue first key) := by
  unfold lastValue
  rw [List.filter_append, List.getLast?_append, Option.map_or]

/-- A pair in front decides when the rest does not have its key. -/
theorem lastValue_cons (pair : α × β) (rest : List (α × β)) (key : α) :
    lastValue (pair :: rest) key
      = (lastValue rest key).or (if pair.1 = key then some pair.2 else none) := by
  rw [← List.singleton_append, lastValue_append]
  congr 1
  by_cases same : pair.1 = key <;> simp [lastValue, same]

/-- A key has no value when no pair is for it. -/
theorem lastValue_eq_none_iff {pairs : List (α × β)} {key : α} :
    lastValue pairs key = none ↔ key ∉ pairs.map Prod.fst := by
  simp only [lastValue, Option.map_eq_none_iff, List.getLast?_eq_none_iff, List.filter_eq_nil_iff,
    decide_eq_true_eq, List.mem_map, not_exists, not_and]

/-- The value of a key is in one of the pairs. -/
theorem mem_of_lastValue {pairs : List (α × β)} {key : α} {value : β}
    (last : lastValue pairs key = some value) : (key, value) ∈ pairs := by
  obtain ⟨pair, found, rfl⟩ := Option.map_eq_some_iff.mp last
  obtain ⟨member, same⟩ := List.mem_filter.mp (List.mem_of_getLast? found)
  rwa [← of_decide_eq_true same]

/-- Leaving out pairs by their keys. -/
theorem lastValue_filter (pairs : List (α × β)) (keep : α → Bool) (key : α) :
    lastValue (pairs.filter fun pair => keep pair.1) key
      = if keep key = true then lastValue pairs key else none := by
  unfold lastValue
  rw [List.filter_filter]
  split
  · rename_i kept
    congr 2
    refine List.filter_congr fun pair _ => ?_
    by_cases same : pair.1 = key <;> simp [same, kept]
  · rename_i dropped
    rw [List.filter_eq_nil_iff.mpr fun pair _ => ?_]
    · rfl
    · by_cases same : pair.1 = key <;> simp [same, dropped]

/-- Pairs of keys with a value each. -/
theorem lastValue_filterMap (keys : List α) (value : α → Option β) (key : α) :
    lastValue (keys.filterMap fun other => (value other).map fun found => (other, found)) key
      = if key ∈ keys then value key else none := by
  induction keys with
  | nil => simp
  | cons other rest ih =>
    cases found : value other with
    | none =>
      rw [List.filterMap_cons_none (by rw [found]; rfl), ih]
      by_cases same : key = other
      · subst same
        simp [found]
      · simp [same]
    | some held =>
      rw [List.filterMap_cons_some (by rw [found]; rfl), lastValue_cons, ih]
      by_cases same : key = other
      · subst same
        by_cases again : key ∈ rest <;> simp [again, found]
      · simp [same, Ne.symm same]

end Occurrences
