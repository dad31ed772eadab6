import Mathlib

/-! Runs of fallible steps, and the rule that carries an invariant along every beginning of a run. -/

namespace Runs

variable {σ α ε : Type}

/-- Take the steps of a list one after the other. -/
def run (step : σ → α → Except ε σ) (s : σ) (ops : List α) : Except ε σ := ops.foldlM step s

/-- Every step of the run meets a condition in the state it starts from. -/
def Meets (step : σ → α → Except ε σ) (allowed : σ → α → Prop) (s : σ) (ops : List α) : Prop :=
  ∀ done next, done ++ [next] <+: ops → ∀ mid, run step s done = .ok mid → allowed mid next

/-- The empty run meets every condition. -/
theorem meets_nil (step : σ → α → Except ε σ) (allowed : σ → α → Prop) (s : σ) :
    Meets step allowed s [] := by
  intro done next within
  simp at within

/-- A run meets a condition when its first step does, and the rest from where that step leads. -/
theorem meets_cons {step : σ → α → Except ε σ} {allowed : σ → α → Prop} {s : σ} {op : α}
    {rest : List α} (first : allowed s op)
    (later : ∀ s', step s op = .ok s' → Meets step allowed s' rest) :
    Meets step allowed s (op :: rest) := by
  intro done next within mid ran
  cases done with
  | nil =>
    obtain ⟨rfl, _⟩ := List.cons_prefix_cons.mp within
    cases ran
    exact first
  | cons op' done =>
    obtain ⟨rfl, inside⟩ := List.cons_prefix_cons.mp within
    -- The run took the first step, so the condition on what follows applies.
    cases stepped : step s op' with
    | error e =>
      simp only [run, List.foldlM_cons, stepped] at ran
      cases ran
    | ok s' =>
      simp only [run, List.foldlM_cons, stepped] at ran
      exact later s' stepped done next inside mid ran

/-- Taking one more step. -/
theorem run_append {step : σ → α → Except ε σ} {s mid : σ} {done : List α}
    (ran : run step s done = .ok mid) (next : α) : run step s (done ++ [next]) = step mid next := by
  unfold run at ran ⊢
  rw [List.foldlM_append, ran]
  show (step mid next >>= fun s => Except.ok s) = step mid next
  cases step mid next <;> rfl

/-- A run that returned took its last step from where the rest of it stopped. -/
theorem exists_of_run_append {step : σ → α → Except ε σ} {s last : σ} {done : List α} {next : α}
    (ran : run step s (done ++ [next]) = .ok last) :
    ∃ mid, run step s done = .ok mid ∧ step mid next = .ok last := by
  cases before : run step s done with
  | error e =>
    unfold run at ran before
    rw [List.foldlM_append, before] at ran
    cases ran
  | ok mid => exact ⟨mid, rfl, by rw [← run_append before, ran]⟩

/-- When every allowed step from a state of the invariant returns to it, so does every run. -/
theorem exists_run_eq {step : σ → α → Except ε σ} {allowed : σ → α → Prop} {s : σ} {ops : List α}
    (inv : List α → σ → Prop) (initial : inv [] s) (meets : Meets step allowed s ops)
    (kept : ∀ done next mid, done ++ [next] <+: ops → inv done mid → allowed mid next →
      ∃ mid', step mid next = .ok mid' ∧ inv (done ++ [next]) mid') :
    ∀ done, done <+: ops → ∃ mid, run step s done = .ok mid ∧ inv done mid := by
  intro done
  -- Induction from the end: the last step starts where the shorter beginning stops.
  induction done using List.reverseRecOn with
  | nil => exact fun _ => ⟨s, rfl, initial⟩
  | append_singleton done next ih =>
    intro within
    obtain ⟨mid, ran, holds⟩ := ih ((List.prefix_append done [next]).trans within)
    obtain ⟨mid', stepped, holds'⟩ := kept done next mid within holds (meets done next within mid ran)
    exact ⟨mid', by rw [run_append ran, stepped], holds'⟩

/-- When no allowed step from a state of the invariant fails so, or leaves it, then no run does. -/
theorem run_keeps {step : σ → α → Except ε σ} {allowed : σ → α → Prop} {s : σ} {ops : List α} {e : ε}
    (inv : σ → Prop) (initial : inv s) (meets : Meets step allowed s ops)
    (kept : ∀ mid next, inv mid → allowed mid next →
      step mid next ≠ .error e ∧ ∀ mid', step mid next = .ok mid' → inv mid') :
    ∀ done, done <+: ops → run step s done ≠ .error e ∧ ∀ mid, run step s done = .ok mid → inv mid := by
  intro done
  induction done using List.reverseRecOn with
  | nil =>
    refine fun _ => ⟨fun failed => ?_, fun mid ran => ?_⟩
    · cases failed
    · cases ran
      exact initial
  | append_singleton done next ih =>
    intro within
    obtain ⟨sound, keeps⟩ := ih ((List.prefix_append done [next]).trans within)
    cases before : run step s done with
    | error e' =>
      -- The run stopped earlier, with another failure.
      have stopped : run step s (done ++ [next]) = .error e' := by
        unfold run at before ⊢
        rw [List.foldlM_append, before]
        rfl
      rw [stopped, ← before]
      exact ⟨sound, fun mid ran => by rw [before] at ran; cases ran⟩
    | ok mid =>
      rw [run_append before]
      exact kept mid next (keeps mid before) (meets done next within mid before)

end Runs
