import Memstash.Lib.Occurrences

/-! Lists collapsed to the last element of each key, cut into slices, and written out in any order. -/

namespace Collapsing

open Occurrences

variable {α κ β : Type*} [DecidableEq κ]

/-- Take in one element: it replaces the one of its key where that stands, or goes to the end. -/
def absorb (key : α → κ) (replace : α → α → α) (state : List α × (κ → Option Nat)) (a : α) :
    List α × (κ → Option Nat) :=
  match state.2 (key a) with
  | some i => (state.1.modify i (replace · a), state.2)
  | none => (state.1 ++ [a], Function.update state.2 (key a) (some state.1.length))

/-- The elements of a list, one for each key. -/
def collapse (key : α → κ) (replace : α → α → α) (l : List α) : List α :=
  (l.foldl (absorb key replace) ([], fun _ => none)).1

section Last

variable {pairs pairs' : List (κ × β)}

/-- Where each key stands once, its value is the one it stands with. -/
theorem lastValue_eq_some_iff (distinct : (pairs.map Prod.fst).Nodup) {k : κ} {v : β} :
    lastValue pairs k = some v ↔ (k, v) ∈ pairs := by
  refine ⟨mem_of_lastValue, fun member => ?_⟩
  cases last : lastValue pairs k with
  | none => exact absurd (List.mem_map_of_mem member) (lastValue_eq_none_iff.mp last)
  | some v' =>
    have same := List.inj_on_of_nodup_map distinct member (mem_of_lastValue last) rfl
    rw [Prod.mk.inj same |>.2]

/-- Where each key stands once, the order does not matter. -/
theorem lastValue_perm (distinct : (pairs.map Prod.fst).Nodup) (perm : pairs'.Perm pairs) (k : κ) :
    lastValue pairs' k = lastValue pairs k := by
  have distinct' : (pairs'.map Prod.fst).Nodup := (perm.map Prod.fst).nodup_iff.mpr distinct
  refine Option.ext fun v => ?_
  rw [lastValue_eq_some_iff distinct, lastValue_eq_some_iff distinct', perm.mem_iff]

/-- Giving the one pair of a key another value changes the value of that key alone. -/
theorem lastValue_set (distinct : (pairs.map Prod.fst).Nodup) {i : Nat} {k₀ : κ} {old : β}
    (found : pairs[i]? = some (k₀, old)) (new : β) (k : κ) :
    lastValue (pairs.set i (k₀, new)) k = if k₀ = k then some new else lastValue pairs k := by
  obtain ⟨inside, here⟩ := List.getElem?_eq_some_iff.mp found
  have split : pairs = pairs.take i ++ (k₀, old) :: pairs.drop (i + 1) := by
    rw [← here, ← List.drop_eq_getElem_cons inside, List.take_append_drop]
  rw [List.set_eq_take_append_cons_drop, if_pos inside, lastValue_append, lastValue_cons]
  by_cases same : k₀ = k
  · -- The key does not stand a second time behind.
    have later : lastValue (pairs.drop (i + 1)) k = none := by
      rw [lastValue_eq_none_iff]
      intro member
      rw [split, List.map_append, List.map_cons] at distinct
      have apart := (List.nodup_cons.mp (List.nodup_append.mp distinct).2.1).1
      exact apart (same ▸ member)
    simp [same, later]
  · conv_rhs => rw [split]
    rw [lastValue_append, lastValue_cons]
    simp [same]

end Last

section Collapse

variable {key : α → κ} {replace : α → α → α} {val : α → β} {rows : List α} {index : κ → Option Nat}

/-- Each key stands once, where the index says. -/
structure Indexed (key : α → κ) (rows : List α) (index : κ → Option Nat) : Prop where
  distinct : (rows.map key).Nodup
  index : ∀ k i, index k = some i ↔ (rows.map key)[i]? = some k

omit [DecidableEq κ] in
/-- A key without an index is nowhere. -/
theorem Indexed.fresh (indexed : Indexed key rows index) {k : κ} (unknown : index k = none) :
    k ∉ rows.map key := fun member => by
  obtain ⟨i, inside, here⟩ := List.mem_iff_getElem.mp member
  have known := (indexed.index k i).mpr (by rw [List.getElem?_eq_getElem inside, here])
  rw [unknown] at known
  cases known

/-- Appending an element of a new key. -/
theorem Indexed.append (indexed : Indexed key rows index) {a : α} (unknown : index (key a) = none) :
    Indexed key (rows ++ [a]) (Function.update index (key a) (some rows.length)) := by
  have fresh := indexed.fresh unknown
  have size : (rows.map key).length = rows.length := List.length_map _
  refine ⟨?_, fun k i => ?_⟩
  · rw [List.map_append]
    exact List.nodup_append.mpr ⟨indexed.distinct, by simp, fun b first c last => by
      rintro rfl
      exact fresh (List.mem_singleton.mp last ▸ first)⟩
  · rw [List.map_append, List.map_cons, List.map_nil, List.getElem?_append, size]
    by_cases same : k = key a
    · subst same
      rw [Function.update_self, Option.some.injEq]
      split
      · rename_i inside
        refine ⟨fun here => by omega, fun here => absurd (List.mem_of_getElem? here) fresh⟩
      · rename_i outside
        rw [List.getElem?_singleton]
        refine ⟨fun here => by simp [← here], fun here => ?_⟩
        split at here
        · omega
        · cases here
    · rw [Function.update_of_ne same, indexed.index]
      split
      · exact Iff.rfl
      · rename_i outside
        rw [List.getElem?_eq_none (by omega), List.getElem?_singleton]
        split <;> simp [Ne.symm same]

omit [DecidableEq κ] in
/-- Replacing the element of a known key by one of the same key. -/
theorem Indexed.modify (indexed : Indexed key rows index) {i : Nat} {old new : α} (found : rows[i]? = some old)
    (same : key new = key old) : Indexed key (rows.set i new) index := by
  have names : (rows.set i new).map key = rows.map key := by
    have stands : (rows.map key)[i]? = some (key old) := by simp [found]
    obtain ⟨_, here⟩ := List.getElem?_eq_some_iff.mp stands
    rw [List.map_set, same, ← here, List.set_getElem_self]
  exact ⟨by rw [names]; exact indexed.distinct, fun k j => by rw [names]; exact indexed.index k j⟩

/-- Taking in an element keeps the index, and gives its key its value. -/
theorem Indexed.absorb (indexed : Indexed key rows index)
    (keyed : ∀ old new, key old = key new → key (replace old new) = key new)
    (valued : ∀ old new, val (replace old new) = val new) (a : α) :
    ∃ rows' index', absorb key replace (rows, index) a = (rows', index') ∧ Indexed key rows' index' ∧
      ∀ k, lastValue (rows'.map fun b => (key b, val b)) k
        = if key a = k then some (val a) else lastValue (rows.map fun b => (key b, val b)) k := by
  cases known : index (key a) with
  | none =>
    refine ⟨_, _, by simp only [Collapsing.absorb, known], indexed.append known, fun k => ?_⟩
    simp only [List.map_append, List.map_cons, List.map_nil, lastValue_append, lastValue_cons, lastValue_nil]
    split <;> simp
  | some i =>
    -- The element that stands for the key is replaced, under the same key.
    have here := (indexed.index (key a) i).mp known
    simp only [List.getElem?_map, Option.map_eq_some_iff] at here
    obtain ⟨old, found, same⟩ := here
    have replaced : rows.modify i (replace · a) = rows.set i (replace old a) := by
      rw [List.modify_eq_set_getElem?, found]
      rfl
    refine ⟨rows.set i (replace old a), index, by simp only [Collapsing.absorb, known, replaced],
      indexed.modify found ((keyed old a same).trans same.symm), fun k => ?_⟩
    have distinct : ((rows.map fun b => (key b, val b)).map Prod.fst).Nodup := by
      rw [List.map_map]
      exact indexed.distinct
    rw [List.map_set, keyed old a same, valued]
    have stands : (rows.map fun b => (key b, val b))[i]? = some (key a, val old) := by simp [found, same]
    exact lastValue_set distinct stands _ k

/-- Collapsing leaves each key once, with its last value. -/
theorem collapse_spec (keyed : ∀ old new, key old = key new → key (replace old new) = key new)
    (valued : ∀ old new, val (replace old new) = val new) (l : List α) :
    ((collapse key replace l).map key).Nodup ∧ ∀ k,
      lastValue ((collapse key replace l).map fun b => (key b, val b)) k
        = lastValue (l.map fun b => (key b, val b)) k := by
  have reached : ∃ rows index, l.foldl (absorb key replace) ([], fun _ => none) = (rows, index) ∧
      Indexed key rows index ∧ ∀ k, lastValue (rows.map fun b => (key b, val b)) k
        = lastValue (l.map fun b => (key b, val b)) k := by
    -- Induction from the end: the last element decides its key.
    induction l using List.reverseRecOn with
    | nil => exact ⟨[], _, rfl, ⟨by simp, by simp⟩, fun _ => rfl⟩
    | append_singleton before a ih =>
      obtain ⟨rows, index, folded, indexed, values⟩ := ih
      obtain ⟨rows', index', absorbed, indexed', values'⟩ := indexed.absorb keyed valued a
      refine ⟨rows', index', by rw [List.foldl_append, folded]; exact absorbed, indexed', fun k => ?_⟩
      rw [values', values, List.map_append, lastValue_append]
      by_cases same : key a = k <;> simp [lastValue, same]
  obtain ⟨rows, index, folded, indexed, values⟩ := reached
  rw [collapse, folded]
  exact ⟨indexed.distinct, values⟩

/-- When the later element replaces the earlier one whole, every element left is one of the list. -/
theorem mem_of_mem_collapse {l : List α} {a : α} (member : a ∈ collapse key (fun _ new => new) l) : a ∈ l := by
  obtain ⟨distinct, values⟩ := @collapse_spec _ _ _ _ key (fun _ new => new) id (fun _ _ _ => rfl) (fun _ _ => rfl) l
  have names : ((collapse key (fun _ new => new) l).map fun b => (key b, id b)).map Prod.fst
      = (collapse key (fun _ new => new) l).map key := by simp [Function.comp_def]
  have stands := (lastValue_eq_some_iff (names ▸ distinct)).mpr
    (List.mem_map_of_mem (f := fun b => (key b, id b)) member)
  rw [values] at stands
  obtain ⟨b, inside, same⟩ := List.mem_map.mp (mem_of_lastValue stands)
  have here : b = a := (Prod.mk.inj same).2
  exact here ▸ inside

end Collapse

/-- The store after some pairs are written, one after the other. -/
def puts (store : κ → Option β) (pairs : List (κ × β)) : κ → Option β :=
  pairs.foldl (fun store pair => Function.update store pair.1 (some pair.2)) store

/-- Writing some pairs and then others. -/
theorem puts_append (store : κ → Option β) (first second : List (κ × β)) :
    puts store (first ++ second) = puts (puts store first) second := List.foldl_append

/-- After the writes each key has its last value, or the one it had. -/
theorem puts_apply (store : κ → Option β) (pairs : List (κ × β)) (k : κ) :
    puts store pairs k = (lastValue pairs k).or (store k) := by
  induction pairs generalizing store with
  | nil => rfl
  | cons pair rest ih =>
    rw [puts, List.foldl_cons, ← puts, ih, lastValue_cons, Option.or_assoc]
    congr 1
    by_cases same : pair.1 = k
    · simp [same]
    · simp [same, Function.update_of_ne (Ne.symm same)]

/-- The slices of a list from a position on, each of a number of elements but the last. -/
def slicesFrom (limit : Nat) (l : List α) : Nat → Nat → List (List α)
  | 0, _ => []
  | fuel + 1, start =>
    if start < l.length then
      (l.drop start).take (min (start + limit) l.length - start) :: slicesFrom limit l fuel (start + limit)
    else []

/-- The slices of a list are what is left of it, in pieces that keep to the limit. -/
theorem slicesFrom_spec {limit : Nat} (positive : 0 < limit) (l : List α) :
    ∀ fuel start, l.length ≤ start + fuel →
      (slicesFrom limit l fuel start).flatten = l.drop start ∧
        ∀ slice ∈ slicesFrom limit l fuel start, slice.length ≤ limit := by
  intro fuel
  induction fuel with
  | zero =>
    intro start enough
    exact ⟨(List.drop_eq_nil_of_le (by omega)).symm, by simp [slicesFrom]⟩
  | succ fuel ih =>
    intro start enough
    rw [slicesFrom]
    split
    · rename_i inside
      obtain ⟨rest, small⟩ := ih (start + limit) (by omega)
      refine ⟨?_, fun slice member => ?_⟩
      · rw [List.flatten_cons, rest]
        have cut : (l.drop start).take (min (start + limit) l.length - start) = (l.drop start).take limit := by
          rcases Nat.le_total (start + limit) l.length with within | beyond
          · rw [Nat.min_eq_left within, Nat.add_sub_cancel_left]
          · rw [Nat.min_eq_right beyond, List.take_of_length_le (by simp),
              List.take_of_length_le (by simp only [List.length_drop]; omega)]
        rw [cut, ← List.drop_drop, List.take_append_drop]
      · rcases List.mem_cons.mp member with rfl | later
        · simp only [List.length_take]
          omega
        · exact small slice later
    · rename_i outside
      exact ⟨(List.drop_eq_nil_of_le (by omega)).symm, by simp⟩

/-- The first slices of a list, by number. -/
def slicesUpTo (limit : Nat) (l : List α) (n : Nat) : List (List α) :=
  (List.range n).map fun i => (l.drop (i * limit)).take (min ((i + 1) * limit) l.length - i * limit)

/-- The first slices are the beginning of the list, in pieces that keep to the limit. -/
theorem slicesUpTo_spec (limit : Nat) (l : List α) (n : Nat) :
    (slicesUpTo limit l n).flatten = l.take (n * limit) ∧ ∀ slice ∈ slicesUpTo limit l n, slice.length ≤ limit := by
  have each : ∀ i, (l.drop (i * limit)).take (min ((i + 1) * limit) l.length - i * limit)
      = (l.drop (i * limit)).take limit := by
    intro i
    rw [Nat.add_mul, Nat.one_mul]
    rcases Nat.le_total (i * limit + limit) l.length with within | beyond
    · rw [Nat.min_eq_left within, Nat.add_sub_cancel_left]
    · rw [Nat.min_eq_right beyond, List.take_of_length_le (by simp),
        List.take_of_length_le (by simp only [List.length_drop]; omega)]
  refine ⟨?_, fun slice member => ?_⟩
  · induction n with
    | zero => simp [slicesUpTo]
    | succ n ih =>
      unfold slicesUpTo at ih ⊢
      rw [List.range_succ, List.map_append, List.flatten_append, ih, Nat.add_mul, Nat.one_mul, List.take_add]
      simp [each]
  · obtain ⟨i, _, rfl⟩ := List.mem_map.mp member
    rw [each, List.length_take]
    omega

end Collapsing
