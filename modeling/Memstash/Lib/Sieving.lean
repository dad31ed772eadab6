import Mathlib

/-! SIEVE in the abstract: a list in order of insertion, and a hand that passes over visited items to the first one
that is not. -/

namespace Sieving

variable {α β σ : Type}

/-- A list from the newest item to the oldest, cut behind the item under the hand. -/
structure Sieve (α : Type) where
  /-- The item under the hand comes last; there is nothing here while the hand is not set. -/
  newer : List α
  older : List α

namespace Sieve

/-- The items, the newest first. -/
def items (s : Sieve α) : List α := s.newer ++ s.older

/-- The item under the hand. -/
def hand (s : Sieve α) : Option α := s.newer.getLast?

/-- Nothing is listed. -/
def empty : Sieve α := ⟨[], []⟩

/-- A new item goes to the front. -/
def add (s : Sieve α) (a : α) : Sieve α :=
  if s.newer.isEmpty then ⟨[], a :: s.older⟩ else ⟨a :: s.newer, s.older⟩

/-- A hand that is not set starts from the oldest item. -/
def wrap (s : Sieve α) : Sieve α := if s.newer.isEmpty then ⟨s.older, []⟩ else s

/-- Items leave; when the one under the hand does, the hand is on the next newer one that stays. -/
def filter (keep : α → Bool) (s : Sieve α) : Sieve α := ⟨s.newer.filter keep, s.older.filter keep⟩

/-- Read every item in another way. -/
def map (f : α → β) (s : Sieve α) : Sieve β := ⟨s.newer.map f, s.older.map f⟩

/-- Visit items in order, replacing some and dropping the others. -/
def visit (f : σ → α → σ × Option α) : σ → List α → σ × List α
  | m, [] => (m, [])
  | m, a :: rest =>
    match f m a with
    | (m, none) => visit f m rest
    | (m, some b) => ((visit f m rest).1, b :: (visit f m rest).2)

/-- Visit the items from the oldest on. -/
def rebuild (f : σ → α → σ × Option α) (m : σ) (s : Sieve α) : Sieve α :=
  ⟨(visit f (visit f m s.older.reverse).1 s.newer.reverse).2.reverse, (visit f m s.older.reverse).2.reverse⟩

/-- The hand clears the visited items it passes and takes the first one that is not. -/
inductive Evicts (visited : σ → α → Bool) (clear : σ → α → σ) : Sieve α → σ → Sieve α → σ → Option α → Prop
  | nothing {m : σ} : Evicts visited clear empty m empty m none
  | takes {s : Sieve α} {m : σ} {newer older : List α} {a : α} (here : s.wrap = ⟨newer ++ [a], older⟩)
      (idle : visited m a = false) : Evicts visited clear s m ⟨newer, older⟩ m (some a)
  | passes {s s' : Sieve α} {m m' : σ} {newer older : List α} {a : α} {taken : Option α}
      (here : s.wrap = ⟨newer ++ [a], older⟩) (used : visited m a = true)
      (later : Evicts visited clear ⟨newer, a :: older⟩ (clear m a) s' m' taken) :
      Evicts visited clear s m s' m' taken

section Map

variable {f g : α → β} {s : Sieve α}

/-- Only how the listed items are read matters. -/
theorem map_congr (same : ∀ a ∈ s.items, f a = g a) : s.map f = s.map g := by
  simp only [items, List.mem_append] at same
  unfold map
  rw [List.map_congr_left fun a member => same a (.inl member),
    List.map_congr_left fun a member => same a (.inr member)]

/-- The hand wraps around whatever the items are read as. -/
theorem wrap_map : (s.map f).wrap = s.wrap.map f := by
  unfold wrap map
  rw [List.isEmpty_map]
  split <;> rfl

/-- The items read in another way. -/
theorem items_map : (s.map f).items = s.items.map f := by
  simp only [items, map, List.map_append]

/-- A hand that wrapped around is on an item, and the list is as it was. -/
theorem exists_wrap (some_item : s.items ≠ []) :
    ∃ newer a older, s.wrap = ⟨newer ++ [a], older⟩ ∧ s.items = newer ++ a :: older ∧
      (if s.newer = [] then s.older.getLast? else s.hand) = some a := by
  rcases List.eq_nil_or_concat s.newer with none | ⟨newer, a, some_newer⟩
  · -- Without a hand the whole list is before it.
    have whole : s.items = s.older := by simp [items, none]
    rcases List.eq_nil_or_concat s.older with empty | ⟨older, a, some_older⟩
    · exact absurd (whole.trans empty) some_item
    · rw [List.concat_eq_append] at some_older
      exact ⟨older, a, [], by simp [wrap, none, some_older], by rw [whole, some_older],
        by simp [none, some_older]⟩
  · rw [List.concat_eq_append] at some_newer
    refine ⟨newer, a, s.older, ?_, by simp [items, some_newer], by simp [hand, some_newer]⟩
    obtain ⟨first, rest⟩ := s
    simp only at some_newer
    simp [wrap, some_newer]

end Map

section Filter

variable {keep other : α → Bool} {s : Sieve α}

/-- The items that stay. -/
theorem items_filter : (s.filter keep).items = s.items.filter keep := by
  simp only [items, filter, List.filter_append]

/-- Only what is kept of the listed items matters. -/
theorem filter_congr (same : ∀ a ∈ s.items, keep a = other a) : s.filter keep = s.filter other := by
  simp only [items, List.mem_append] at same
  unfold filter
  rw [List.filter_congr fun a member => same a (.inl member), List.filter_congr fun a member => same a (.inr member)]

/-- Items may leave one after the other. -/
theorem filter_filter : (s.filter keep).filter other = s.filter fun a => other a && keep a := by
  simp only [filter, List.filter_filter]

/-- Items leave whatever they are read as. -/
theorem filter_map {f : β → α} {s : Sieve β} : (s.map f).filter keep = (s.filter fun b => keep (f b)).map f := by
  simp only [filter, map, List.filter_map, Function.comp_def]

end Filter

end Sieve

end Sieving
