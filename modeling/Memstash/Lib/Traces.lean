import Mathlib

/-! Traces of labelled steps, and the rule that carries an invariant along every trace. -/

namespace Traces

variable {σ α : Type}

/-- The states reached by labelled steps, with the labels on the way. -/
inductive Trace (step : σ → α → σ → Prop) (s : σ) : List α → σ → Prop
  | nil : Trace step s [] s
  | snoc {labels mid label last} (before : Trace step s labels mid) (stepped : step mid label last) :
    Trace step s (labels ++ [label]) last

variable {step : σ → α → σ → Prop} {s mid last : σ} {labels more : List α}

/-- What every step keeps holds at the end of every trace. -/
theorem Trace.invariant (inv : List α → σ → Prop) (initial : inv [] s)
    (kept : ∀ labels mid label last, inv labels mid → step mid label last → inv (labels ++ [label]) last)
    (trace : Trace step s labels last) : inv labels last := by
  induction trace with
  | nil => exact initial
  | snoc _ stepped ih => exact kept _ _ _ _ ih stepped

/-- A trace goes on from where another ends. -/
theorem Trace.append (first : Trace step s labels mid) (second : Trace step mid more last) :
    Trace step s (labels ++ more) last := by
  induction second with
  | nil => simpa using first
  | snoc _ stepped ih =>
    rw [← List.append_assoc]
    exact ih.snoc stepped

/-- The steps of a relation that meet a condition. -/
def Restrict (step : σ → α → σ → Prop) (allowed : σ → α → Prop) (s : σ) (label : α) (s' : σ) : Prop :=
  step s label s' ∧ allowed s label

/-- Steps that meet a condition are steps. -/
theorem Trace.of_restrict {allowed : σ → α → Prop} (trace : Trace (Restrict step allowed) s labels last) :
    Trace step s labels last := by
  induction trace with
  | nil => exact .nil
  | snoc _ stepped ih => exact ih.snoc stepped.1

end Traces
