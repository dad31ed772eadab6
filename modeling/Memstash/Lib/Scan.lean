import Mathlib

/-! Bounded scans: a loop that advances a position until one visit decides the outcome. -/

namespace Scan

/-- The ways a call can fail to return: a loop that never exits, or a runtime panic. -/
inductive Fault where
  /-- The loop revisits the same state forever. -/
  | hang
  /-- An index leaves its array, or a nil pointer is followed. -/
  | panic
  deriving DecidableEq, Repr

section Results

variable {ε α β : Type}

/-- A mapped result came from a result. -/
theorem exists_of_map_eq_ok {x : Except ε α} {f : α → β} {y : β} (ran : x.map f = .ok y) :
    ∃ a, x = .ok a ∧ f a = y := by
  cases x with
  | error fault => cases ran
  | ok a => exact ⟨a, rfl, by simpa [Except.map] using ran⟩

/-- A sequence that returned ran its first part and then its second. -/
theorem exists_of_bind_eq_ok {x : Except ε α} {f : α → Except ε β} {y : β}
    (ran : (x >>= f) = .ok y) : ∃ a, x = .ok a ∧ f a = .ok y := by
  cases x with
  | error fault => cases ran
  | ok a => exact ⟨a, rfl, ran⟩

/-- A sequence fails only where one of its parts does. -/
theorem bind_ne_error {x : Except ε α} {f : α → Except ε β} {e : ε} (first : x ≠ .error e)
    (second : ∀ a, x = .ok a → f a ≠ .error e) : (x >>= f) ≠ .error e := by
  cases x with
  | error e' =>
    intro failed
    cases failed
    exact first rfl
  | ok a => exact second a rfl

/-- A mapped result fails only where the result does. -/
theorem map_ne_error {x : Except ε α} {f : α → β} {e : ε} (ran : x ≠ .error e) : x.map f ≠ .error e := by
  cases x with
  | error e' =>
    intro failed
    cases failed
    exact ran rfl
  | ok a => simp [Except.map]

/-- A guarded sequence that returned passed its guard. -/
theorem of_guard_eq_ok {p : Prop} [Decidable p] {e : ε} {x : Except ε α} {y : α}
    (ran : (do
      if p then throw e
      x) = .ok y) : ¬ p ∧ x = .ok y := by
  by_cases refused : p
  · simp only [if_pos refused] at ran
    cases ran
  · simp only [if_neg refused] at ran
    exact ⟨refused, ran⟩

/-- Mapping a list succeeds when every element does, and pairs each with its result. -/
theorem exists_mapM_eq {f : α → Except ε β} {good : α → β → Prop} {l : List α}
    (each : ∀ a ∈ l, ∃ b, f a = .ok b ∧ good a b) :
    ∃ results, l.mapM f = .ok results ∧ ∀ pair ∈ l.zip results, good pair.1 pair.2 := by
  induction l with
  | nil => exact ⟨[], rfl, by simp⟩
  | cons a rest ih =>
    obtain ⟨b, ran, fine⟩ := each a (by simp)
    obtain ⟨results, mapped, others⟩ := ih fun other member => each other (by simp [member])
    refine ⟨b :: results, ?_, ?_⟩
    · rw [List.mapM_cons, ran, mapped]
      rfl
    · intro pair member
      rcases List.mem_cons.mp member with rfl | later
      · exact fine
      · exact others pair later

end Results

variable {α : Type*}

/-- Advance from a position until a visit decides, giving up as hung when the fuel runs out. -/
def scan (visit : Nat → Option (Except Fault α)) : Nat → Nat → Except Fault α
  | 0, _ => .error .hang
  | fuel + 1, pos =>
    match visit pos with
    | some result => result
    | none => scan visit fuel (pos + 1)

/-- The scan returns what the first deciding visit says. -/
theorem scan_eq_of_first {visit : Nat → Option (Except Fault α)} {result : Except Fault α} :
    ∀ {steps fuel pos : Nat}, steps < fuel → (∀ e < steps, visit (pos + e) = none) →
      visit (pos + steps) = some result → scan visit fuel pos = result := by
  -- Each undecided visit consumes one unit of fuel and one step of the distance.
  intro steps
  induction steps with
  | zero =>
    intro fuel pos enough _ decided
    obtain ⟨rest, rfl⟩ : ∃ rest, fuel = rest + 1 := ⟨fuel - 1, by omega⟩
    simp only [Nat.add_zero] at decided
    simp [scan, decided]
  | succ steps ih =>
    intro fuel pos enough undecided decided
    obtain ⟨rest, rfl⟩ : ∃ rest, fuel = rest + 1 := ⟨fuel - 1, by omega⟩
    have here : visit pos = none := by simpa using undecided 0 (by omega)
    simp only [scan, here]
    apply ih (by omega)
    · intro e small
      have := undecided (e + 1) (by omega)
      rwa [show pos + 1 + e = pos + (e + 1) by omega]
    · rwa [show pos + 1 + steps = pos + (steps + 1) by omega]

/-- A scan that returned was told its result by the first visit that decided. -/
theorem exists_of_scan_eq_ok {visit : Nat → Option (Except Fault α)} {result : α} :
    ∀ {fuel pos : Nat}, scan visit fuel pos = .ok result →
      ∃ steps < fuel, (∀ e < steps, visit (pos + e) = none) ∧ visit (pos + steps) = some (.ok result) := by
  intro fuel
  induction fuel with
  | zero => intro pos ran; cases ran
  | succ fuel ih =>
    intro pos ran
    rw [scan] at ran
    cases visited : visit pos with
    | none =>
      obtain ⟨steps, short, before, decided⟩ := ih (by simpa only [visited] using ran)
      refine ⟨steps + 1, by omega, fun e small => ?_, by rwa [show pos + (steps + 1) = pos + 1 + steps by omega]⟩
      cases e with
      | zero => exact visited
      | succ e =>
        rw [show pos + (e + 1) = pos + 1 + e by omega]
        exact before e (by omega)
    | some outcome =>
      simp only [visited] at ran
      exact ⟨0, by omega, fun e small => absurd small (by omega), by rw [Nat.add_zero, visited, ran]⟩

/-- A scan that meets a deciding visit within its fuel returns the first such visit's outcome. -/
theorem exists_scan_eq {visit : Nat → Option (Except Fault α)} {fuel pos bound : Nat}
    (enough : bound < fuel) (decided : visit (pos + bound) ≠ none) :
    ∃ steps ≤ bound, ∃ result, (∀ e < steps, visit (pos + e) = none) ∧
      visit (pos + steps) = some result ∧ scan visit fuel pos = result := by
  classical
  -- The least deciding distance is the one the loop stops at.
  have some_decides : ∃ d, visit (pos + d) ≠ none := ⟨bound, decided⟩
  obtain ⟨result, at_first⟩ := Option.ne_none_iff_exists'.mp (Nat.find_spec some_decides)
  have before : ∀ e < Nat.find some_decides, visit (pos + e) = none := fun e small =>
    not_not.mp (Nat.find_min some_decides small)
  have within : Nat.find some_decides ≤ bound := Nat.find_min' some_decides decided
  exact ⟨_, within, result, before, at_first,
    scan_eq_of_first (by omega) before at_first⟩

/-- A computation that succeeds passes its value on. -/
theorem bind_of_ok {α β : Type} {a : α} {b : β} {next : α → Except Fault β} (ran : next a = .ok b) :
    (Except.ok a >>= next) = .ok b := ran

end Scan
