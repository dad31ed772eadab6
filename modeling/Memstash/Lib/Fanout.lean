import Memstash.Lib.Runs

/-! Numbered operations that workers take from one counter, stopping at the first failure. -/

namespace Fanout

open Runs

variable {E σ ι : Type}

/-- Where a worker is. -/
inductive Worker (E : Type) where
  | taking
  | checking (i : Nat)
  | running (i : Nat)
  /-- Its operation failed, and it is about to say so. -/
  | noting (err : E)
  | stopping
  | done

/-- What the workers share, with the operations that have ended and how. -/
structure State (E σ ι : Type) where
  next : Nat
  stopped : Bool
  firstErr : Option E
  world : σ
  workers : ι → Worker E
  log : List (Nat × Option E)

/-- Before the first worker takes a number. -/
def start (world : σ) : State E σ ι := ⟨0, false, none, world, fun _ => .taking, []⟩

/-- The numbers whose operations have ended. -/
def State.ran (s : State E σ ι) : List Nat := s.log.map Prod.fst

variable [DecidableEq ι]

/-- One worker does one thing; one that is done does nothing more. -/
def step (n : Nat) (op : Nat → σ → Option E × σ) (s : State E σ ι) (w : ι) : Except Unit (State E σ ι) :=
  let goes (worker : Worker E) := Function.update s.workers w worker
  match s.workers w with
  | .taking => .ok { s with next := s.next + 1, workers := goes (.checking s.next) }
  | .checking i => .ok { s with workers := goes (if n ≤ i ∨ s.stopped then .done else .running i) }
  | .running i =>
    let (failure, world) := op i s.world
    .ok { s with
      world := world
      workers := goes (match failure with | none => .taking | some err => .noting err)
      log := s.log ++ [(i, failure)] }
  | .noting err => .ok { s with firstErr := s.firstErr <|> some err, workers := goes .stopping }
  | .stopping => .ok { s with stopped := true, workers := goes .done }
  | .done => .error ()

/-- A worker has a number whose operation has not ended. -/
def State.Holds (s : State E σ ι) (w : ι) (i : Nat) : Prop :=
  s.workers w = .checking i ∨ s.workers w = .running i

/-- Every number is taken once, and its operation runs once. -/
structure Numbered (n : Nat) (s : State E σ ι) : Prop where
  taken : ∀ w i, s.Holds w i → i < s.next
  runs : ∀ w i, s.workers w = .running i → i < n
  ran : ∀ i ∈ s.ran, i < s.next ∧ i < n
  apart : ∀ w w' i, s.Holds w i → s.Holds w' i → w = w'
  unended : ∀ w i, s.Holds w i → i ∉ s.ran
  once : s.ran.Nodup

/-- A number is let go of only when everyone is told to stop. -/
structure Covered (n : Nat) (s : State E σ ι) : Prop where
  kept : ∀ i < n, i < s.next → i ∈ s.ran ∨ (∃ w, s.Holds w i) ∨ s.stopped = true
  left : ∀ w, s.workers w = .done → n < s.next ∨ s.stopped = true

/-- The first error is that of an operation, and no error is forgotten. -/
structure Reported (s : State E σ ι) : Prop where
  first : ∀ err, s.firstErr = some err → ∃ i, (i, some err) ∈ s.log
  notes : ∀ w err, s.workers w = .noting err → ∃ i, (i, some err) ∈ s.log
  stops : ∀ w, s.workers w = .stopping → s.firstErr ≠ none
  stopped : s.stopped = true → s.firstErr ≠ none
  kept : ∀ i err, (i, some err) ∈ s.log → s.firstErr ≠ none ∨ ∃ w, s.workers w = .noting err

variable {n : Nat} {op : Nat → σ → Option E × σ} {s s' : State E σ ι}

/-- What a step does. -/
theorem step_cases {w : ι} (stepped : step n op s w = .ok s') :
    (s.workers w = .taking ∧
      s' = { s with next := s.next + 1, workers := Function.update s.workers w (.checking s.next) }) ∨
    (∃ i, s.workers w = .checking i ∧
      s' = { s with workers := Function.update s.workers w (if n ≤ i ∨ s.stopped then .done else .running i) }) ∨
    (∃ i world, s.workers w = .running i ∧ op i s.world = (none, world) ∧
      s' = { s with
        world := world, workers := Function.update s.workers w .taking, log := s.log ++ [(i, none)] }) ∨
    (∃ i err world, s.workers w = .running i ∧ op i s.world = (some err, world) ∧
      s' = { s with
        world := world, workers := Function.update s.workers w (.noting err), log := s.log ++ [(i, some err)] }) ∨
    (∃ err, s.workers w = .noting err ∧
      s' = { s with firstErr := some (s.firstErr.getD err), workers := Function.update s.workers w .stopping }) ∨
    (s.workers w = .stopping ∧ s' = { s with stopped := true, workers := Function.update s.workers w .done }) := by
  unfold step at stepped
  dsimp only at stepped
  split at stepped
  · rename_i here
    cases stepped
    exact .inl ⟨here, rfl⟩
  · rename_i i here
    cases stepped
    exact .inr (.inl ⟨i, here, rfl⟩)
  · rename_i i here
    cases stepped
    cases ended : op i s.world with
    | mk failure world =>
      cases failure with
      | none => exact .inr (.inr (.inl ⟨i, world, here, ended, rfl⟩))
      | some err => exact .inr (.inr (.inr (.inl ⟨i, err, world, here, ended, rfl⟩)))
  · rename_i err here
    cases stepped
    refine .inr (.inr (.inr (.inr (.inl ⟨err, here, ?_⟩))))
    cases s.firstErr <;> rfl
  · rename_i here
    cases stepped
    exact .inr (.inr (.inr (.inr (.inr ⟨here, rfl⟩))))
  · cases stepped

omit [DecidableEq ι] in
theorem not_holds_start (world : σ) (w : ι) (i : Nat) : ¬ (start world : State E σ ι).Holds w i := by
  rintro (holds | holds) <;> cases holds

omit [DecidableEq ι] in
theorem numbered_start (n : Nat) (world : σ) : Numbered n (start world : State E σ ι) where
  taken w i holds := absurd holds (not_holds_start world w i)
  runs _ _ running := nomatch running
  ran _ member := nomatch member
  apart w _ i holds := absurd holds (not_holds_start world w i)
  unended w i holds := absurd holds (not_holds_start world w i)
  once := List.nodup_nil

/-- A number that is taken is new, and one whose operation ends was the worker's own. -/
theorem Numbered.step (inv : Numbered n s) {w : ι} (stepped : Fanout.step n op s w = .ok s') : Numbered n s' := by
  obtain ⟨taken, runs, ran, apart, unended, once⟩ := inv
  rcases step_cases stepped with ⟨here, rfl⟩ | ⟨i, here, rfl⟩ | ⟨i, world, here, _, rfl⟩ | ⟨i, err, world, here, _, rfl⟩ |
    ⟨err, here, rfl⟩ | ⟨here, rfl⟩
  all_goals
    clear stepped
    constructor <;> simp only [State.Holds, State.ran, Function.update_apply, List.map_append] at * <;> grind -ring -linarith

omit [DecidableEq ι] in
theorem covered_start (n : Nat) (world : σ) : Covered n (start world : State E σ ι) :=
  ⟨fun i _ below => absurd below (Nat.not_lt_zero i), nofun⟩

/-- A worker that leaves has seen the last number or the order to stop. -/
theorem Covered.step (inv : Covered n s) (numbered : Numbered n s) {w : ι}
    (stepped : Fanout.step n op s w = .ok s') : Covered n s' := by
  obtain ⟨kept, left⟩ := inv
  have taken := numbered.taken
  rcases step_cases stepped with ⟨here, rfl⟩ | ⟨i, here, rfl⟩ | ⟨i, world, here, _, rfl⟩ | ⟨i, err, world, here, _, rfl⟩ |
    ⟨err, here, rfl⟩ | ⟨here, rfl⟩
  all_goals
    clear stepped numbered
    constructor <;> simp only [State.Holds, State.ran, Function.update_apply, List.map_append] at * <;> grind -ring -linarith

omit [DecidableEq ι] in
theorem reported_start (world : σ) : Reported (start world : State E σ ι) :=
  ⟨nofun, nofun, nofun, nofun, nofun⟩

/-- An error is noted before anyone is told to stop. -/
theorem Reported.step (inv : Reported s) {w : ι} (stepped : Fanout.step n op s w = .ok s') : Reported s' := by
  obtain ⟨first, notes, stops, stopped, kept⟩ := inv
  -- The first error stays the first one.
  have keeps : ∀ err err', s.workers w = .noting err → s.firstErr.getD err = err' →
      ∃ i, (i, some err') ∈ s.log := by
    rintro err _ here rfl
    cases found : s.firstErr with
    | none => exact notes w err here
    | some earlier => exact first earlier found
  rcases step_cases stepped with ⟨here, rfl⟩ | ⟨i, here, rfl⟩ | ⟨i, world, here, _, rfl⟩ | ⟨i, err, world, here, _, rfl⟩ |
    ⟨err, here, rfl⟩ | ⟨here, rfl⟩
  all_goals
    clear stepped
    constructor <;> simp only [Function.update_apply] at * <;> grind -ring -linarith

/-- What holds in every state that is reached. -/
structure Inv (n : Nat) (s : State E σ ι) : Prop where
  numbered : Numbered n s
  covered : Covered n s
  reported : Reported s

omit [DecidableEq ι] in
theorem inv_start (n : Nat) (world : σ) : Inv n (start world : State E σ ι) :=
  ⟨numbered_start n world, covered_start n world, reported_start world⟩

theorem Inv.step (inv : Inv n s) {w : ι} (stepped : Fanout.step n op s w = .ok s') : Inv n s' :=
  ⟨inv.numbered.step stepped, inv.covered.step inv.numbered stepped, inv.reported.step stepped⟩

/-- What the operations keep of the world and of how they ended holds in every state that is reached. -/
theorem keeps_of_run {world : σ} (keeps : List (Nat × Option E) → σ → Prop) (first : keeps [] world)
    (each : ∀ log world i, i < n → i ∉ log.map Prod.fst → keeps log world →
      keeps (log ++ [(i, (op i world).1)]) (op i world).2) {schedule : List ι}
    (ran : run (Fanout.step n op) (start world) schedule = .ok s) : Inv n s ∧ keeps s.log s.world := by
  induction schedule using List.reverseRecOn generalizing s with
  | nil =>
    cases ran
    exact ⟨inv_start n world, first⟩
  | append_singleton done w ih =>
    obtain ⟨mid, before, stepped⟩ := exists_of_run_append ran
    obtain ⟨inv, kept⟩ := ih before
    refine ⟨inv.step stepped, ?_⟩
    -- Only an operation that ends touches the world.
    have ends : ∀ {i failure world}, mid.workers w = .running i → op i mid.world = (failure, world) →
        keeps (mid.log ++ [(i, failure)]) world := by
      intro i failure world here ended
      have := each mid.log mid.world i (inv.numbered.runs w i here) (inv.numbered.unended w i (.inr here)) kept
      rwa [ended] at this
    rcases step_cases stepped with ⟨_, rfl⟩ | ⟨_, _, rfl⟩ | ⟨i, world, here, ended, rfl⟩ |
      ⟨i, err, world, here, ended, rfl⟩ | ⟨_, _, rfl⟩ | ⟨_, rfl⟩
    · exact kept
    · exact kept
    · exact ends here ended
    · exact ends here ended
    · exact kept
    · exact kept

omit [DecidableEq ι] in
/-- When all workers are done: either some operation failed, and the first error is its, or every operation ran. -/
theorem Inv.finished (inv : Inv n s) [Nonempty ι] (over' : ∀ w, s.workers w = .done) :
    (∃ i err, (i, some err) ∈ s.log ∧ s.firstErr = some err) ∨
      (s.firstErr = none ∧ (∀ ended ∈ s.log, ended.2 = none) ∧ s.ran.Perm (List.range n)) := by
  cases found : s.firstErr with
  | some err =>
    obtain ⟨i, failed⟩ := inv.reported.first err found
    exact .inl ⟨i, err, failed, rfl⟩
  | none =>
    refine .inr ⟨rfl, fun ended member => ?_, ?_⟩
    · obtain ⟨i, _ | err⟩ := ended
      · rfl
      · rcases inv.reported.kept i err member with noted | ⟨w, noting⟩
        · exact absurd found noted
        · rw [over' w] at noting
          cases noting
    · -- Nobody was told to stop, so whoever left had seen the last number.
      have running : s.stopped = false := by
        by_contra stopped
        exact inv.reported.stopped (by simpa using stopped) found
      obtain ⟨w⟩ := ‹Nonempty ι›
      have last : n < s.next := (inv.covered.left w (over' w)).resolve_right (by simp [running])
      refine (List.perm_ext_iff_of_nodup inv.numbered.once List.nodup_range).mpr fun i => ?_
      rw [List.mem_range]
      refine ⟨fun member => (inv.numbered.ran i member).2, fun below => ?_⟩
      rcases inv.covered.kept i below (below.trans last) with ran | ⟨w, holds | holds⟩ | stopped
      · exact ran
      · rw [over' w] at holds
        cases holds
      · rw [over' w] at holds
        cases holds
      · rw [running] at stopped
        cases stopped

/-- How many more things a worker may do before it takes its next number. -/
def Worker.left (n : Nat) : Worker E → Nat
  | .taking => 2
  | .checking i => if i < n then 4 else 1
  | .running _ => 3
  | .noting _ => 2
  | .stopping => 1
  | .done => 0

/-- How many more things all workers may do. -/
def State.left [Fintype ι] (n : Nat) (s : State E σ ι) : Nat :=
  3 * (n - s.next) + ∑ w, (s.workers w).left n

/-- Whatever a worker does, there is less left to do. -/
theorem step_left [Fintype ι] {w : ι} (stepped : step n op s w = .ok s') : s'.left n < s.left n := by
  have sums : ∀ worker : Worker E, ∑ v, (Function.update s.workers w worker v).left n + (s.workers w).left n
      = ∑ v, (s.workers v).left n + worker.left n := by
    intro worker
    have others : ∀ v ∈ Finset.univ.erase w,
        (Function.update s.workers w worker v).left n = (s.workers v).left n := by
      intro v member
      rw [Function.update_of_ne (Finset.ne_of_mem_erase member)]
    rw [← Finset.add_sum_erase Finset.univ _ (Finset.mem_univ w),
      ← Finset.add_sum_erase Finset.univ (fun v => (s.workers v).left n) (Finset.mem_univ w),
      Finset.sum_congr rfl others, Function.update_self]
    omega
  rcases step_cases stepped with ⟨here, rfl⟩ | ⟨i, here, rfl⟩ | ⟨i, world, here, _, rfl⟩ | ⟨i, err, world, here, _, rfl⟩ |
    ⟨err, here, rfl⟩ | ⟨here, rfl⟩
  · have sum := sums (.checking s.next)
    rw [here] at sum
    simp only [State.left, Worker.left] at sum ⊢
    split at sum <;> omega
  · have sum := sums (if n ≤ i ∨ s.stopped = true then .done else .running i)
    rw [here] at sum
    by_cases leaves : n ≤ i ∨ s.stopped = true
    · simp only [if_pos leaves, State.left, Worker.left] at sum ⊢
      split at sum <;> omega
    · have below : i < n := by
        by_contra above
        exact leaves (.inl (not_lt.mp above))
      simp only [if_neg leaves, State.left, Worker.left, if_pos below] at sum ⊢
      omega
  · have sum := sums .taking
    rw [here] at sum
    simp only [State.left, Worker.left] at sum ⊢
    omega
  · have sum := sums (.noting err)
    rw [here] at sum
    simp only [State.left, Worker.left] at sum ⊢
    omega
  · have sum := sums .stopping
    rw [here] at sum
    simp only [State.left, Worker.left] at sum ⊢
    omega
  · have sum := sums .done
    rw [here] at sum
    simp only [State.left, Worker.left] at sum ⊢
    omega

/-- No run goes on forever. -/
theorem length_le_of_run [Fintype ι] {schedule : List ι} (ran : run (step n op) s schedule = .ok s') :
    schedule.length + s'.left n ≤ s.left n := by
  induction schedule using List.reverseRecOn generalizing s' with
  | nil =>
    cases ran
    simp
  | append_singleton done w ih =>
    obtain ⟨mid, before, stepped⟩ := exists_of_run_append ran
    have := ih before
    have := step_left stepped
    rw [List.length_append, List.length_singleton]
    omega

/-- A worker that is not done can go on. -/
theorem exists_step {w : ι} (busy : s.workers w ≠ .done) : ∃ s', step n op s w = .ok s' := by
  unfold step
  dsimp only
  split
  · exact ⟨_, rfl⟩
  · exact ⟨_, rfl⟩
  · exact ⟨_, rfl⟩
  · exact ⟨_, rfl⟩
  · exact ⟨_, rfl⟩
  · rename_i idle
    exact absurd idle busy

end Fanout
