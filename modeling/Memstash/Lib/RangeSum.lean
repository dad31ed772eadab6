import Mathlib

/-! Totals over the first positions of a sequence, and how one changed position moves them. -/

namespace RangeSum

open Finset

/-- Changing one position moves a total by the difference at that position. -/
theorem sum_change {n i : Nat} {f g : Nat → Int} (within : i < n)
    (same : ∀ j < n, j ≠ i → g j = f j) :
    ∑ j ∈ range n, g j = ∑ j ∈ range n, f j + (g i - f i) := by
  -- Both totals split into the changed position and a common rest.
  rw [← add_sum_erase _ g (mem_range.mpr within), ← add_sum_erase _ f (mem_range.mpr within)]
  have rest : ∑ j ∈ (range n).erase i, g j = ∑ j ∈ (range n).erase i, f j :=
    sum_congr rfl fun j member => by
      obtain ⟨other, inside⟩ := mem_erase.mp member
      exact same j (mem_range.mp inside) other
  rw [rest]
  ring

/-- The number of positions below a bound that satisfy a predicate. -/
def count (n : Nat) (p : Nat → Prop) [DecidablePred p] : Int :=
  ∑ j ∈ range n, if p j then 1 else 0

section Count

variable {n i : Nat} {p q : Nat → Prop} [DecidablePred p] [DecidablePred q]

/-- Changing the predicate at one position moves the count by the change at that position. -/
theorem count_change (within : i < n) (same : ∀ j < n, j ≠ i → (q j ↔ p j)) :
    count n q = count n p + ((if q i then 1 else 0) - (if p i then 1 else 0)) :=
  sum_change within fun j inside other => by simp only [same j inside other]

/-- Predicates that agree on the range have the same count. -/
theorem count_congr (same : ∀ j < n, (q j ↔ p j)) : count n q = count n p :=
  sum_congr rfl fun j member => by simp only [same j (mem_range.mp member)]

/-- A count is the size of the set of positions counted. -/
theorem count_eq_card : count n p = ((range n).filter p).card := by
  rw [count, card_filter]
  push_cast
  rfl

/-- A count is never negative. -/
theorem count_nonneg : 0 ≤ count n p := by
  rw [count_eq_card]; exact Int.natCast_nonneg _

/-- A count never exceeds the number of positions. -/
theorem count_le : count n p ≤ n := by
  rw [count_eq_card]
  exact_mod_cast (card_filter_le _ _).trans (card_range n).le

/-- A position that satisfies the predicate makes the count positive. -/
theorem count_pos (within : i < n) (holds : p i) : 0 < count n p := by
  rw [count_eq_card]
  exact_mod_cast card_pos.mpr ⟨i, mem_filter.mpr ⟨mem_range.mpr within, holds⟩⟩

/-- A count below the bound leaves a position out. -/
theorem exists_not_of_count_lt (short : count n p < n) : ∃ j < n, ¬ p j := by
  -- Were every position counted, the count would be the bound itself.
  by_contra none_left
  push Not at none_left
  have full : count n p = n := by
    rw [count_congr (p := fun _ => True) (fun j inside => by simp [none_left j inside])]
    simp [count]
  omega

/-- A position left out keeps the count below the bound. -/
theorem count_lt_of_not (within : i < n) (out : ¬ p i) : count n p < n := by
  rw [count_eq_card]
  have proper : (range n).filter p ⊂ range n :=
    filter_ssubset.mpr ⟨i, mem_range.mpr within, out⟩
  exact_mod_cast (card_lt_card proper).trans_eq (card_range n)

/-- Distinct positions that satisfy the predicate are at most as many as the count. -/
theorem le_count_of_injective {m : Nat} {f : Nat → Nat}
    (distinct : ∀ a < m, ∀ b < m, f a = f b → a = b)
    (counted : ∀ a < m, f a < n ∧ p (f a)) : (m : Int) ≤ count n p := by
  rw [count_eq_card]
  have images : ((range m).image f) ⊆ (range n).filter p := fun j member => by
    obtain ⟨a, inside, rfl⟩ := mem_image.mp member
    obtain ⟨below, holds⟩ := counted a (mem_range.mp inside)
    exact mem_filter.mpr ⟨mem_range.mpr below, holds⟩
  have size : ((range m).image f).card = m := by
    rw [card_image_of_injOn, card_range]
    intro a insideA b insideB same
    exact distinct a (by simpa using insideA) b (by simpa using insideB) same
  exact_mod_cast size ▸ card_le_card images

end Count

end RangeSum
