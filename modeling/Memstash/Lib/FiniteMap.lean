import Mathlib

/-! Finite maps, the total weight of their entries, and the slots that list them. -/

namespace FiniteMap

open Finset

variable {K V : Type} [DecidableEq K]

/-- The total weight of the entries of a finite map. -/
def total (weigh : K → V → Int) (m : Finmap fun _ : K => V) : Int :=
  ∑ key ∈ m.keys, (m.lookup key).elim 0 (weigh key)

variable {weigh : K → V → Int} {m : Finmap fun _ : K => V}

/-- The empty map weighs nothing. -/
theorem total_empty : total weigh (∅ : Finmap fun _ : K => V) = 0 := by
  simp [total]

/-- A key is in the map exactly when it can be looked up. -/
theorem mem_keys_iff (key : K) : key ∈ m.keys ↔ ∃ value, m.lookup key = some value := by
  rw [Finmap.mem_keys, ← Finmap.lookup_isSome, Option.isSome_iff_exists]

/-- Inserting replaces the share of the key. -/
theorem total_insert (key : K) (value : V) :
    total weigh (m.insert key value)
      = total weigh m - (m.lookup key).elim 0 (weigh key) + weigh key value := by
  have keys : (m.insert key value).keys = insert key m.keys := by
    ext other
    rw [Finmap.mem_keys, Finmap.mem_insert, mem_insert, Finmap.mem_keys]
  -- Away from the key both maps have the same entries.
  have others : ∑ other ∈ m.keys.erase key, ((m.insert key value).lookup other).elim 0 (weigh other)
      = ∑ other ∈ m.keys.erase key, (m.lookup other).elim 0 (weigh other) :=
    sum_congr rfl fun other member => by
      rw [Finmap.lookup_insert_of_ne _ (ne_of_mem_erase member)]
  have whole : total weigh m = ∑ other ∈ m.keys.erase key, (m.lookup other).elim 0 (weigh other)
      + (m.lookup key).elim 0 (weigh key) := by
    by_cases member : key ∈ m.keys
    · exact (sum_erase_add _ _ member).symm
    · have absent : m.lookup key = none := by
        rw [Finmap.lookup_eq_none, ← Finmap.mem_keys]
        exact member
      rw [absent, erase_eq_of_notMem member]
      simp [total]
  rw [whole, total, keys, ← sum_erase_add _ _ (mem_insert_self key m.keys), erase_insert_eq_erase,
    others, Finmap.lookup_insert]
  simp

/-- Inserting under a key forgets what the key had. -/
theorem insert_erase (key : K) (value : V) : (m.erase key).insert key value = m.insert key value := by
  refine Finmap.ext_lookup fun other => ?_
  by_cases same : other = key
  · rw [same, Finmap.lookup_insert, Finmap.lookup_insert]
  · rw [Finmap.lookup_insert_of_ne _ same, Finmap.lookup_insert_of_ne _ same,
      Finmap.lookup_erase_ne same]

/-- An inserted entry joins the entries of the other keys. -/
theorem entries_insert (key : K) (value : V) :
    (m.insert key value).entries = ⟨key, value⟩ ::ₘ (m.erase key).entries := by
  rw [← insert_erase, Finmap.entries_insert_of_notMem Finmap.notMem_erase_self]

/-- An erased entry is missing from the entries. -/
theorem entries_erase {key : K} {value : V} (held : m.lookup key = some value) :
    m.entries = ⟨key, value⟩ ::ₘ (m.erase key).entries := by
  -- Inserting what is there already changes nothing.
  have same : m.insert key value = m := Finmap.ext_lookup fun other => by
    by_cases here : other = key
    · rw [here, Finmap.lookup_insert, held]
    · rw [Finmap.lookup_insert_of_ne _ here]
  rw [← entries_insert, same]

/-- Erasing a key without an entry changes nothing. -/
theorem erase_of_absent {key : K} (absent : m.lookup key = none) : m.erase key = m := by
  refine Finmap.ext_lookup fun other => ?_
  by_cases same : other = key
  · rw [same, Finmap.lookup_erase, absent]
  · rw [Finmap.lookup_erase_ne same]

/-- No entry outweighs a map of nonnegative entries. -/
theorem weigh_le_total (nonneg : ∀ key value, 0 ≤ weigh key value) {key : K} {value : V}
    (held : m.lookup key = some value) : weigh key value ≤ total weigh m := by
  have share := single_le_sum (f := fun key => (m.lookup key).elim 0 (weigh key)) (s := m.keys)
    (fun other _ => by cases m.lookup other <;> simp [nonneg]) ((mem_keys_iff key).mpr ⟨value, held⟩)
  simpa [held, total] using share

/-- Counting entries is weighing each of them as one. -/
theorem card_keys : (m.keys.card : Int) = total (fun _ _ => 1) m := by
  rw [total, card_eq_sum_ones]
  push_cast
  refine sum_congr rfl fun key member => ?_
  obtain ⟨value, held⟩ := (mem_keys_iff key).mp member
  simp [held]

/-- Slots that list the entries of a map, no key twice, total what the map totals. -/
theorem sum_eq_total {n : Nat} {entry : Nat → Option (K × V)}
    (once : ∀ i < n, ∀ j < n, ∀ key value value', entry i = some (key, value) →
      entry j = some (key, value') → i = j)
    (lists : ∀ key value, m.lookup key = some value ↔ ∃ i < n, entry i = some (key, value)) :
    ∑ i ∈ range n, (entry i).elim 0 (fun held => weigh held.1 held.2) = total weigh m := by
  -- Slots that list nothing add nothing.
  have listed : ∑ i ∈ range n, (entry i).elim 0 (fun held => weigh held.1 held.2)
      = ∑ i ∈ (range n).filter (fun i => (entry i).isSome = true),
          (entry i).elim 0 (fun held => weigh held.1 held.2) := by
    refine (sum_subset (filter_subset _ _) fun i inside unlisted => ?_).symm
    cases held : entry i with
    | none => rfl
    | some pair => exact absurd (mem_filter.mpr ⟨inside, by simp [held]⟩) unlisted
  rw [listed, total]
  -- The others correspond to the keys one to one.
  refine sum_bij (fun i member => ((entry i).get (mem_filter.mp member).2).1) ?_ ?_ ?_ ?_
  · intro i member
    obtain ⟨inside, some⟩ := mem_filter.mp member
    obtain ⟨⟨key, value⟩, held⟩ := Option.isSome_iff_exists.mp some
    simp only [held, Option.get_some]
    exact (mem_keys_iff key).mpr ⟨value, (lists key value).mpr ⟨i, mem_range.mp inside, held⟩⟩
  · intro i memberI j memberJ same
    obtain ⟨insideI, someI⟩ := mem_filter.mp memberI
    obtain ⟨insideJ, someJ⟩ := mem_filter.mp memberJ
    obtain ⟨⟨key, value⟩, heldI⟩ := Option.isSome_iff_exists.mp someI
    obtain ⟨⟨key', value'⟩, heldJ⟩ := Option.isSome_iff_exists.mp someJ
    simp only [heldI, heldJ, Option.get_some] at same
    exact once i (mem_range.mp insideI) j (mem_range.mp insideJ) key value value' heldI
      (same ▸ heldJ)
  · intro key member
    obtain ⟨value, found⟩ := (mem_keys_iff key).mp member
    obtain ⟨i, inside, held⟩ := (lists key value).mp found
    exact ⟨i, mem_filter.mpr ⟨mem_range.mpr inside, by simp [held]⟩, by simp [held]⟩
  · intro i member
    obtain ⟨inside, some⟩ := mem_filter.mp member
    obtain ⟨⟨key, value⟩, held⟩ := Option.isSome_iff_exists.mp some
    have found := (lists key value).mpr ⟨i, mem_range.mp inside, held⟩
    have weighed : ∀ pair : K × V, pair = (key, value) →
        (entry i).elim 0 (fun held => weigh held.1 held.2)
          = (m.lookup pair.1).elim 0 (weigh pair.1) := by
      rintro _ rfl
      simp [held, found]
    exact weighed _ (Option.get_of_eq_some some held)

end FiniteMap
