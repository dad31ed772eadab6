import Memstash.Lib.Threads

/-! Threads that are scheduled forever: who cannot go on is passed over, and everyone comes again. -/

namespace Programs

open Runs

variable {Op : Type} {Ans : Op → Type} {ι α γ σ : Type}

namespace Pool

variable [DecidableEq ι] {answer : (op : Op) → σ → Option (Ans op × σ)} {s : Pool Op Ans ι α σ} {turns : Nat → ι}

/-- Let one thread ask its next question, if it can. -/
def turn (answer : (op : Op) → σ → Option (Ans op × σ)) (s : Pool Op Ans ι α σ) (i : ι) : Pool Op Ans ι α σ :=
  match s.step answer i with
  | .ok s' => s'
  | .error _ => s

/-- The state after so many turns. -/
def after (answer : (op : Op) → σ → Option (Ans op × σ)) (s : Pool Op Ans ι α σ) (turns : Nat → ι) :
    Nat → Pool Op Ans ι α σ
  | 0 => s
  | n + 1 => (after answer s turns n).turn answer (turns n)

/-- Every thread has its turn again and again. -/
def Fair (turns : Nat → ι) : Prop := ∀ i n, ∃ m, n ≤ m ∧ turns m = i

/-- A turn changes nothing about the others. -/
theorem turn_others {i j : ι} (apart : j ≠ i) : (s.turn answer i).threads j = s.threads j := by
  unfold turn
  split
  · rename_i s' stepped
    obtain ⟨_, _, _, _, _, _, rfl⟩ := step_cases stepped
    exact Function.update_of_ne apart _ _
  · rfl

/-- A turn in which a thread is answered. -/
theorem turn_eq {i : ι} {op : Op} {next : Ans op → Prog Op Ans α} {r : Ans op} {world : σ}
    (asking : (s.threads i).prog = .ask op next) (answered : answer op s.world = some (r, world)) :
    s.turn answer i = ⟨world, Function.update s.threads i ⟨next r, (s.threads i).log ++ [⟨op, r⟩]⟩⟩ := by
  unfold turn
  rw [step_eq asking answered]

/-- What is reached in turns is reached in a run of those that were answered. -/
theorem exists_run_after (answer : (op : Op) → σ → Option (Ans op × σ)) (s : Pool Op Ans ι α σ) (turns : Nat → ι)
    (n : Nat) : ∃ schedule, Runs.run (Pool.step answer) s schedule = .ok (s.after answer turns n) := by
  induction n with
  | zero => exact ⟨[], rfl⟩
  | succ n ih =>
    obtain ⟨schedule, ran⟩ := ih
    cases stepped : (s.after answer turns n).step answer (turns n) with
    | error idle =>
      refine ⟨schedule, ?_⟩
      rw [after, turn, stepped]
      exact ran
    | ok s' =>
      refine ⟨schedule ++ [turns n], ?_⟩
      rw [run_append ran, after, turn, stepped]

/-- Between its turns a thread stays where it is. -/
theorem after_idle {i : ι} {n m : Nat} (later : n ≤ m) (others : ∀ k, n ≤ k → k < m → turns k ≠ i) :
    (s.after answer turns m).threads i = (s.after answer turns n).threads i := by
  induction m, later using Nat.le_induction with
  | base => rfl
  | succ m later ih =>
    rw [after, turn_others (others m later (Nat.lt_succ_self m)).symm]
    exact ih fun k from' below => others k from' (below.trans (Nat.lt_succ_self m))

/-- A thread has a next turn, and is then still where it is now. -/
theorem Fair.next (fair : Fair turns) (answer : (op : Op) → σ → Option (Ans op × σ)) (s : Pool Op Ans ι α σ) (i : ι)
    (n : Nat) : ∃ m, n ≤ m ∧ turns m = i ∧
      (s.after answer turns m).threads i = (s.after answer turns n).threads i := by
  classical
  have some := fair i n
  obtain ⟨later, here⟩ := Nat.find_spec some
  refine ⟨Nat.find some, later, here, after_idle later fun k from' below same => ?_⟩
  exact Nat.find_min some below ⟨from', same⟩

/-- A thread has a turn, from some moment on, in which its question is answered. -/
def Served (answer : (op : Op) → σ → Option (Ans op × σ)) (s : Pool Op Ans ι α σ) (turns : Nat → ι) (i : ι)
    (n : Nat) : Prop :=
  ∃ m op next r world, n ≤ m ∧ turns m = i ∧
    (s.after answer turns m).threads i = (s.after answer turns n).threads i ∧
    ((s.after answer turns m).threads i).prog = .ask op next ∧
    answer op (s.after answer turns m).world = some (r, world)

/-- Who is not served any more stays where it is. -/
theorem after_idle_of_unserved {i : ι} {n : Nat} (unserved : ¬ s.Served answer turns i n) {m : Nat} (later : n ≤ m) :
    (s.after answer turns m).threads i = (s.after answer turns n).threads i := by
  induction m, later using Nat.le_induction with
  | base => rfl
  | succ m later ih =>
    by_cases here : turns m = i
    · rw [after, turn, here]
      split
      · rename_i s' stepped
        obtain ⟨op, next, r, world, asking, reply, _⟩ := step_cases stepped
        exact absurd ⟨m, op, next, r, world, later, here, ih, asking, reply⟩ unserved
      · exact ih
    · rw [after, turn_others (Ne.symm here), ih]

/-- A thread that is served as long as some condition holds of it does not stay in that condition. -/
theorem exists_not_of_served {i : ι} {stays : Nat → Prop} (served : ∀ n, stays n → s.Served answer turns i n)
    {n : Nat} (now : stays n) : ∃ m, n ≤ m ∧ ¬ stays m := by
  -- The program of the thread gets smaller with each answer.
  suffices ∀ (p : Prog Op Ans α) (n : Nat), ((s.after answer turns n).threads i).prog = p → stays n →
      ∃ m, n ≤ m ∧ ¬ stays m from this _ n rfl now
  intro p
  have step : ∀ n, stays n → ∃ m op next r, n ≤ m ∧
      ((s.after answer turns n).threads i).prog = .ask op next ∧
      ((s.after answer turns (m + 1)).threads i).prog = next r := by
    intro n now
    obtain ⟨m, op, next, r, world, later, here, same, asking, reply⟩ := served n now
    refine ⟨m, op, next, r, later, by rw [← same, asking], ?_⟩
    rw [after, here, turn_eq asking reply]
    simp
  induction p with
  | done a =>
    intro n here now
    obtain ⟨_, _, _, _, _, asking, _⟩ := step n now
    rw [here] at asking
    cases asking
  | panic =>
    intro n here now
    obtain ⟨_, _, _, _, _, asking, _⟩ := step n now
    rw [here] at asking
    cases asking
  | ask op next ih =>
    intro n here now
    obtain ⟨m, _, _, r, later, asking, gone⟩ := step n now
    rw [here] at asking
    cases asking
    by_cases still : stays (m + 1)
    · obtain ⟨last, after', out⟩ := ih r (m + 1) gone still
      exact ⟨last, by omega, out⟩
    · exact ⟨m + 1, by omega, still⟩

end Pool

end Programs
