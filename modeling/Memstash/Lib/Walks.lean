import Mathlib

/-! Singly linked nodes in a heap: the nodes on the way from one pointer to another. -/

namespace Walks

variable {α : Type*} {next : α → Option Nat} {heap : List α}

/-- Following the links from a pointer meets these addresses and nodes, and then the last pointer. -/
def Walk (heap : List α) (next : α → Option Nat) : Option Nat → List (Nat × α) → Option Nat → Prop
  | start, [], stop => start = stop
  | start, (addr, node) :: rest, stop =>
    start = some addr ∧ heap[addr]? = some node ∧ Walk heap next (next node) rest stop

/-- Two walks end to end are one. -/
theorem walk_append {start stop : Option Nat} {first second : List (Nat × α)} :
    Walk heap next start (first ++ second) stop ↔
      ∃ mid, Walk heap next start first mid ∧ Walk heap next mid second stop := by
  induction first generalizing start with
  | nil => simp [Walk]
  | cons head rest ih => simp [Walk, ih, and_assoc]

/-- A heap that agrees on the nodes of a walk has the same walk. -/
theorem Walk.congr {heap' : List α} {start stop : Option Nat} {nodes : List (Nat × α)}
    (walk : Walk heap next start nodes stop)
    (same : ∀ addr node, (addr, node) ∈ nodes → heap[addr]? = some node → heap'[addr]? = some node) :
    Walk heap' next start nodes stop := by
  induction nodes generalizing start with
  | nil => exact walk
  | cons head rest ih =>
    obtain ⟨begins, found, onward⟩ := walk
    exact ⟨begins, same _ _ (by simp) found, ih onward fun addr node member => same addr node (by simp [member])⟩

/-- Every node of a walk is in the heap. -/
theorem Walk.found {start stop : Option Nat} {nodes : List (Nat × α)} {addr : Nat} {node : α}
    (walk : Walk heap next start nodes stop) (member : (addr, node) ∈ nodes) : heap[addr]? = some node := by
  induction nodes generalizing start with
  | nil => simp at member
  | cons head rest ih =>
    obtain ⟨_, found, onward⟩ := walk
    rcases List.mem_cons.mp member with rfl | later
    · exact found
    · exact ih onward later

/-- Allocating leaves every walk as it was. -/
theorem Walk.alloc {start stop : Option Nat} {nodes : List (Nat × α)}
    (walk : Walk heap next start nodes stop) (fresh : α) : Walk (heap ++ [fresh]) next start nodes stop :=
  walk.congr fun addr node _ found => by
    rw [List.getElem?_append_left (List.getElem?_eq_some_iff.mp found).1, found]

/-- Writing a node that is not on a walk leaves the walk as it was. -/
theorem Walk.set {start stop : Option Nat} {nodes : List (Nat × α)} {addr : Nat}
    (walk : Walk heap next start nodes stop) (apart : addr ∉ nodes.map Prod.fst) (node : α) :
    Walk (heap.set addr node) next start nodes stop :=
  walk.congr fun other _ member found => by
    have different : addr ≠ other := fun same => apart (same ▸ List.mem_map_of_mem member)
    rw [List.getElem?_set_ne different, found]

/-- A walk without repetition is no longer than the heap. -/
theorem Walk.length_le {start stop : Option Nat} {nodes : List (Nat × α)}
    (walk : Walk heap next start nodes stop) (distinct : (nodes.map Prod.fst).Nodup) :
    nodes.length ≤ heap.length := by
  have inside : nodes.map Prod.fst ⊆ List.range heap.length := by
    intro addr member
    obtain ⟨⟨addr, node⟩, listed, rfl⟩ := List.mem_map.mp member
    exact List.mem_range.mpr (List.getElem?_eq_some_iff.mp (walk.found listed)).1
  simpa using (List.subperm_of_subset distinct inside).length_le

end Walks
