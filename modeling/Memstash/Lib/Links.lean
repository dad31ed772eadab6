import Mathlib

/-! Doubly linked lists whose links are positions of an array, with a negative link for none. -/

namespace Links

/-- A neighbor as a link: its position, or minus one when there is none. -/
def link : Option Nat → Int
  | none => -1
  | some i => i

@[simp] theorem link_none : link none = -1 := rfl

@[simp] theorem link_some (i : Nat) : link (some i) = i := rfl

/--
The positions of a segment are linked both ways.

The neighbors beyond its two ends are `before` and `after`.
-/
def Chain (prev next : Nat → Int) : Option Nat → List Nat → Option Nat → Prop
  | _, [], _ => True
  | before, i :: rest, after =>
    prev i = link before ∧ next i = link (rest.head?.or after) ∧ Chain prev next (some i) rest after

variable {prev next prev' next' : Nat → Int} {before after : Option Nat}

/-- A segment depends on the links of its own positions alone. -/
theorem Chain.congr {l : List Nat} (samePrev : ∀ i ∈ l, prev' i = prev i)
    (sameNext : ∀ i ∈ l, next' i = next i) (chain : Chain prev next before l after) :
    Chain prev' next' before l after := by
  induction l generalizing before with
  | nil => trivial
  | cons i rest ih =>
    obtain ⟨back, forth, tail⟩ := chain
    exact ⟨(samePrev i (by simp)).trans back, (sameNext i (by simp)).trans forth,
      ih (fun j member => samePrev j (by simp [member]))
        (fun j member => sameNext j (by simp [member])) tail⟩

/-- Two segments laid end to end are one. -/
theorem chain_append {left right : List Nat} :
    Chain prev next before (left ++ right) after ↔
      Chain prev next before left (right.head?.or after) ∧
        Chain prev next (left.getLast?.or before) right after := by
  induction left generalizing before with
  | nil => simp [Chain]
  | cons i rest ih =>
    have heads : (rest ++ right).head?.or after = rest.head?.or (right.head?.or after) := by
      cases rest <;> simp
    have lasts : (i :: rest).getLast?.or before = rest.getLast?.or (some i) := by
      cases rest with
      | nil => simp
      | cons j more =>
        simp [List.getLast?_cons_cons, List.getLast?_eq_some_getLast (List.cons_ne_nil j more)]
    simp only [List.cons_append, Chain, ih, heads, lasts, and_assoc]

/-- Pointing the first position of a segment back at another neighbor. -/
theorem Chain.restart {l : List Nat} (other : Option Nat) (distinct : l.Nodup)
    (chain : Chain prev next before l after)
    (here : ∀ i, l.head? = some i → prev' i = link other)
    (rest : ∀ i ∈ l, l.head? ≠ some i → prev' i = prev i) : Chain prev' next other l after := by
  cases l with
  | nil => trivial
  | cons i tail =>
    obtain ⟨_, forth, linked⟩ := chain
    have fresh := (List.nodup_cons.mp distinct).1
    refine ⟨here i rfl, forth, linked.congr (fun j member => rest j (by simp [member]) ?_)
      fun _ _ => rfl⟩
    rintro same
    rw [List.head?_cons, Option.some.injEq] at same
    exact fresh (same ▸ member)

/-- Pointing the last position of a segment on to another neighbor. -/
theorem Chain.reend {l : List Nat} (other : Option Nat) (distinct : l.Nodup)
    (chain : Chain prev next before l after)
    (here : ∀ i, l.getLast? = some i → next' i = link other)
    (rest : ∀ i ∈ l, l.getLast? ≠ some i → next' i = next i) : Chain prev next' before l other := by
  induction l generalizing before with
  | nil => trivial
  | cons i tail ih =>
    obtain ⟨back, forth, linked⟩ := chain
    obtain ⟨fresh, distinct'⟩ := List.nodup_cons.mp distinct
    cases tail with
    | nil => exact ⟨back, by simpa using here i rfl, trivial⟩
    | cons j more =>
      have last : (i :: j :: more).getLast? = (j :: more).getLast? := List.getLast?_cons_cons
      have inner : (j :: more).getLast? ≠ some i := fun same =>
        fresh (List.mem_of_getLast? same)
      refine ⟨back, ?_, ih distinct' linked (fun k at_end => here k (last.trans at_end))
        fun k member at_end => rest k (by simp [member]) (last ▸ at_end)⟩
      rw [rest i (by simp) (last ▸ inner), forth]
      rfl

/-- Taking a position out of a segment joins its two neighbors. -/
theorem Chain.unlink {l r : List Nat} {i : Nat} (distinct : (l ++ i :: r).Nodup)
    (chain : Chain prev next none (l ++ i :: r) none)
    (joinNext : ∀ j, l.getLast? = some j → next' j = next i)
    (joinPrev : ∀ j, r.head? = some j → prev' j = prev i)
    (keepNext : ∀ j ∈ l ++ r, l.getLast? ≠ some j → next' j = next j)
    (keepPrev : ∀ j ∈ l ++ r, r.head? ≠ some j → prev' j = prev j) :
    Chain prev' next' none (l ++ r) none := by
  obtain ⟨left, back, forth, right⟩ := chain_append.mp chain
  obtain ⟨distinctLeft, distinctRest, apart⟩ := List.nodup_append.mp distinct
  have distinctRight := (List.nodup_cons.mp distinctRest).2
  have disjoint : ∀ j ∈ l, j ∉ r := fun j inLeft inRight =>
    apart j inLeft j (by simp [inRight]) rfl
  simp only [Option.or_none] at back forth
  refine chain_append.mpr ⟨?_, ?_⟩
  · -- On the left only the last position's way on changes.
    have reended : Chain prev next' none l r.head? := left.reend r.head? distinctLeft
      (fun j last => (joinNext j last).trans forth)
      (fun j member last => keepNext j (by simp [member]) last)
    rw [Option.or_none]
    exact reended.congr (fun j member => keepPrev j (by simp [member]) fun same =>
      disjoint j member (List.mem_of_mem_head? same)) fun _ _ => rfl
  · -- On the right only the first position's way back changes.
    have restarted : Chain prev' next l.getLast? r none := right.restart l.getLast? distinctRight
      (fun j first => (joinPrev j first).trans back)
      (fun j member first => keepPrev j (by simp [member]) first)
    rw [Option.or_none]
    exact restarted.congr (fun _ _ => rfl) fun j member => keepNext j (by simp [member])
      fun same => disjoint j (List.mem_of_getLast? same) member

/-- Follow the links one way, from a position on until there is none. -/
def follow (way : Nat → Int) : Nat → Int → List Nat
  | 0, _ => []
  | n + 1, cur => if cur = -1 then [] else cur.toNat :: follow way n (way cur.toNat)

/-- Nothing is reached from no position. -/
@[simp] theorem follow_none (way : Nat → Int) (n : Nat) : follow way n (-1) = [] := by
  cases n with
  | zero => rfl
  | succ n => simp [follow]

/-- A position is reached first from itself. -/
@[simp] theorem follow_some (way : Nat → Int) (n i : Nat) :
    follow way (n + 1) (i : Int) = i :: follow way n (way i) := by
  have some_link : (i : Int) ≠ -1 := by omega
  simp [follow, some_link]

/-- Following a segment's links on from its first position lists it. -/
theorem Chain.follow_next {l : List Nat} (chain : Chain prev next before l none) :
    ∀ n, l.length ≤ n → follow next n (link l.head?) = l := by
  induction l generalizing before with
  | nil => intro n _; simp
  | cons i rest ih =>
    intro n enough
    obtain ⟨_, forth, linked⟩ := chain
    obtain ⟨n, rfl⟩ : ∃ m, n = m + 1 := ⟨n - 1, by simp only [List.length_cons] at enough; omega⟩
    rw [Option.or_none] at forth
    simp only [List.length_cons, Nat.add_le_add_iff_right] at enough
    rw [List.head?_cons, link_some, follow_some, forth, ih linked n enough]

/-- Following them back from its last position lists it the other way round. -/
theorem Chain.follow_prev {l : List Nat} (chain : Chain prev next none l after) :
    ∀ n, l.length ≤ n → follow prev n (link l.getLast?) = l.reverse := by
  induction l using List.reverseRecOn generalizing after with
  | nil => intro n _; simp
  | append_singleton rest i ih =>
    intro n enough
    obtain ⟨linked, back, _⟩ := chain_append.mp chain
    obtain ⟨n, rfl⟩ : ∃ m, n = m + 1 := ⟨n - 1, by simp only [List.length_append, List.length_singleton] at enough; omega⟩
    rw [Option.or_none] at back
    simp only [List.length_append, List.length_singleton, Nat.add_le_add_iff_right] at enough
    rw [List.getLast?_append, List.getLast?_singleton, Option.some_or, link_some, follow_some, back,
      ih linked n enough, List.reverse_append, List.reverse_singleton, List.singleton_append]

end Links
