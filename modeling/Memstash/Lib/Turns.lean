import Memstash.Lib.Scan

/-! Loops that take turns until one of them ends, and the rule for a measure that bounds them. -/

namespace Turns

open Scan

variable {σ ρ : Type}

/-- Take turns from a state: each one either goes on from a new state or ends with a result. -/
def turns (turn : σ → Except Fault (σ ⊕ ρ)) : Nat → σ → Except Fault ρ
  | 0, _ => .error .hang
  | fuel + 1, s =>
    match turn s with
    | .error fault => .error fault
    | .ok (.inl s) => turns turn fuel s
    | .ok (.inr result) => .ok result

/-- A loop whose every turn lowers the rank of its invariant ends, with the promised result. -/
theorem exists_turns_of_rank {turn : σ → Except Fault (σ ⊕ ρ)} {inv : Nat → σ → Prop}
    {post : ρ → Prop}
    (progress : ∀ n s, inv n s → (∃ s', turn s = .ok (.inl s') ∧ ∃ m < n, inv m s') ∨
      ∃ result, turn s = .ok (.inr result) ∧ post result) (fuel : Nat) :
    ∀ n s, inv n s → n < fuel → ∃ result, turns turn fuel s = .ok result ∧ post result := by
  induction fuel with
  | zero => intro n s _ enough; omega
  | succ fuel ih =>
    intro n s holds enough
    rcases progress n s holds with ⟨s', stepped, m, less, holds'⟩ | ⟨result, ended, good⟩
    · -- The state the turn leaves has less left, so the remaining fuel covers it.
      obtain ⟨result, ran, good⟩ := ih m s' holds' (by omega)
      exact ⟨result, by simp only [turns, stepped, ran], good⟩
    · exact ⟨result, by simp only [turns, ended], good⟩

/-- What every turn of a loop that returned kept holds of its result. -/
theorem turns_keeps {turn : σ → Except Fault (σ ⊕ ρ)} (inv : σ → Prop) (post : ρ → Prop)
    (keeps : ∀ s out, inv s → turn s = .ok out → out.elim inv post) :
    ∀ fuel s result, inv s → turns turn fuel s = .ok result → post result := by
  intro fuel
  induction fuel with
  | zero => intro s result _ ran; cases ran
  | succ fuel ih =>
    intro s result holds ran
    rw [turns] at ran
    cases taken : turn s with
    | error fault => simp [taken] at ran
    | ok next =>
      cases next with
      | inl s' =>
        simp only [taken] at ran
        exact ih s' result (keeps s _ holds taken) ran
      | inr last =>
        simp only [taken, Except.ok.injEq] at ran
        exact ran ▸ keeps s _ holds taken

/-- What one turn may do while the loop keeps its invariant: go on with less left, or end well. -/
def Progress (turn : σ → Except Fault (σ ⊕ ρ)) (inv : σ → Prop) (left : σ → Nat) (post : ρ → Prop)
    (s : σ) : Prop :=
  (∃ s', turn s = .ok (.inl s') ∧ inv s' ∧ left s' < left s) ∨
    ∃ result, turn s = .ok (.inr result) ∧ post result

/-- A loop whose every turn makes progress ends, with the result its turns promise. -/
theorem exists_turns_eq {turn : σ → Except Fault (σ ⊕ ρ)} {inv : σ → Prop} {left : σ → Nat}
    {post : ρ → Prop} (progress : ∀ s, inv s → Progress turn inv left post s) (fuel : Nat) (s : σ)
    (holds : inv s) (enough : left s < fuel) :
    ∃ result, turns turn fuel s = .ok result ∧ post result := by
  have ranked : ∀ n s, (inv s ∧ left s = n) → (∃ s', turn s = .ok (.inl s') ∧
      ∃ m < n, inv s' ∧ left s' = m) ∨ ∃ result, turn s = .ok (.inr result) ∧ post result := by
    rintro n s ⟨holds, rfl⟩
    rcases progress s holds with ⟨s', stepped, holds', less⟩ | ended
    · exact .inl ⟨s', stepped, left s', less, holds', rfl⟩
    · exact .inr ended
  exact exists_turns_of_rank ranked fuel (left s) s ⟨holds, rfl⟩ enough

end Turns
