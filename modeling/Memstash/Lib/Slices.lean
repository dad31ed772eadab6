import Mathlib

/-! Slices over arrays that may be shared: appending within the capacity writes in place. -/

namespace Slices

variable {α : Type}

/-- The first cells of an array, and how many it may grow to in place. -/
structure Slice where
  array : Nat
  len : Nat
  cap : Nat
  deriving DecidableEq, Repr

/-- The arrays in memory; the next one made gets the first unused number. -/
structure Arrays (α : Type) where
  cells : Nat → Nat → α
  used : Nat

namespace Arrays

/-- What a slice holds. -/
def read (h : Arrays α) (s : Slice) : List α := (List.range s.len).map (h.cells s.array)

/-- An empty slice over a new array. -/
def make [Inhabited α] (h : Arrays α) (cap : Nat) : Arrays α × Slice :=
  (⟨Function.update h.cells h.used fun _ => default, h.used + 1⟩, ⟨h.used, 0, cap⟩)

/-- One element more: in place while there is capacity, else in a larger array. -/
def append (h : Arrays α) (s : Slice) (a : α) : Arrays α × Slice :=
  if s.len < s.cap then
    (⟨Function.update h.cells s.array (Function.update (h.cells s.array) s.len a), h.used⟩,
      { s with len := s.len + 1 })
  else
    (⟨Function.update h.cells h.used (Function.update (h.cells s.array) s.len a), h.used + 1⟩,
      ⟨h.used, s.len + 1, 2 * (s.len + 1)⟩)

/-- Some elements more, one after the other. -/
def appendAll (h : Arrays α) (s : Slice) (as : List α) : Arrays α × Slice :=
  as.foldl (fun state a => state.1.append state.2 a) (h, s)

variable (h : Arrays α) (s : Slice)

/-- A slice holds as many elements as it is long. -/
@[simp] theorem length_read : (h.read s).length = s.len := by simp [read]

/-- An element of a slice is a cell of its array. -/
theorem read_getElem? (i : Nat) : (h.read s)[i]? = if i < s.len then some (h.cells s.array i) else none := by
  simp only [read, List.getElem?_map]
  split
  · next inside => simp [List.getElem?_range inside]
  · next outside => simp [List.getElem?_eq_none (show (List.range s.len).length ≤ i by simpa using outside)]

/-- A slice one cell longer. -/
theorem read_succ : h.read { s with len := s.len + 1 } = h.read s ++ [h.cells s.array s.len] := by
  simp [read, List.range_succ]

/-- Writing a cell behind the end of a slice leaves what it holds. -/
theorem map_update (cells : Nat → α) (a : α) :
    (List.range s.len).map (Function.update cells s.len a) = (List.range s.len).map cells :=
  List.map_congr_left fun _ member => Function.update_of_ne (List.mem_range.mp member).ne _ _

/-- A slice that was appended to holds one element more. -/
theorem read_append (a : α) : (h.append s a).1.read (h.append s a).2 = h.read s ++ [a] := by
  unfold append
  split
  · simp [read, List.range_succ, map_update]
  · simp [read, List.range_succ, map_update]

variable {h s} {t : Slice}

/-- Appending to a slice leaves every other array as it is. -/
theorem read_append_of_ne (a : α) (apart : t.array ≠ s.array) (made : t.array < h.used) :
    (h.append s a).1.read t = h.read t := by
  unfold append
  split
  · simp [read, Function.update_of_ne apart]
  · simp [read, Function.update_of_ne made.ne]

/-- Appending within the capacity keeps the array. -/
theorem append_of_room (a : α) (room : s.len < s.cap) :
    (h.append s a).2 = { s with len := s.len + 1 } ∧ (h.append s a).1.used = h.used := by
  simp [append, room]

/-- Appending elements within the capacity keeps the array and every other one. -/
theorem appendAll_of_room (as : List α) (room : s.len + as.length ≤ s.cap) :
    (h.appendAll s as).1.read (h.appendAll s as).2 = h.read s ++ as ∧
      (h.appendAll s as).2 = { s with len := s.len + as.length } ∧ (h.appendAll s as).1.used = h.used ∧
      ∀ t : Slice, t.array ≠ s.array → t.array < h.used → (h.appendAll s as).1.read t = h.read t := by
  induction as generalizing h s with
  | nil => exact ⟨by simp [appendAll], rfl, rfl, fun _ _ _ => rfl⟩
  | cons a rest ih =>
    simp only [List.length_cons] at room
    obtain ⟨slice, used⟩ := append_of_room (h := h) a (show s.len < s.cap by omega)
    obtain ⟨all, last, most, others⟩ := ih (h := (h.append s a).1) (s := (h.append s a).2)
      (by rw [slice]; simp only; omega)
    have step : h.appendAll s (a :: rest) = (h.append s a).1.appendAll (h.append s a).2 rest := rfl
    rw [step]
    refine ⟨?_, ?_, most.trans used, fun t apart made => ?_⟩
    · rw [all, read_append, List.append_assoc, List.singleton_append]
    · rw [last, slice]
      simp only [List.length_cons, Slice.mk.injEq, true_and, and_true]
      omega
    · rw [others t (by rw [slice]; exact apart) (by rw [used]; exact made), read_append_of_ne a apart made]

/-- A new array holds nothing, and leaves every other one as it is. -/
theorem read_make [Inhabited α] (cap : Nat) :
    (h.make cap).1.read (h.make cap).2 = [] ∧
      ∀ t : Slice, t.array < h.used → (h.make cap).1.read t = h.read t :=
  ⟨rfl, fun t made => by simp [read, make, Function.update_of_ne made.ne]⟩

end Arrays

end Slices
