import Memstash.Lib.Programs
import Memstash.Lib.Runs

/-! Programs that run side by side over one world, one question at a time. -/

namespace Programs

open Runs

variable {Op : Type} {Ans : Op → Type} {ι α γ σ : Type}

/-- A program on its way, with the questions it has asked and what it was answered. -/
structure Thread (Op : Type) (Ans : Op → Type) (α : Type) where
  prog : Prog Op Ans α
  log : List (Σ op, Ans op)

namespace Thread

/-- A program before its first question. -/
def start (prog : Prog Op Ans α) : Thread Op Ans α := ⟨prog, []⟩

/-- A thread has returned or unwound. -/
def Over (t : Thread Op Ans α) : Prop := t.prog = .panic ∨ ∃ a, t.prog = .done a

/-- What a party that keeps to some rules knows after the questions of its log. -/
def knows (rules : Rules Op Ans γ) (first : γ) (t : Thread Op Ans α) : γ :=
  t.log.foldl (fun g asked => rules.after asked.1 asked.2 g) first

end Thread

/-- Threads over one world. -/
structure Pool (Op : Type) (Ans : Op → Type) (ι α σ : Type) where
  world : σ
  threads : ι → Thread Op Ans α

/-- Why a thread cannot be scheduled. -/
inductive Idle where
  | finished
  | blocked
  deriving DecidableEq, Repr

namespace Pool

variable [DecidableEq ι] {answer : (op : Op) → σ → Option (Ans op × σ)}

/-- Let one thread ask its next question. -/
def step (answer : (op : Op) → σ → Option (Ans op × σ)) (s : Pool Op Ans ι α σ) (i : ι) :
    Except Idle (Pool Op Ans ι α σ) :=
  match (s.threads i).prog with
  | .done _ => .error .finished
  | .panic => .error .finished
  | .ask op next =>
    match answer op s.world with
    | none => .error .blocked
    | some (r, world) =>
      .ok ⟨world, Function.update s.threads i ⟨next r, (s.threads i).log ++ [⟨op, r⟩]⟩⟩

/-- A step is an answer to the question one thread has. -/
theorem step_cases {s s' : Pool Op Ans ι α σ} {i : ι} (stepped : s.step answer i = .ok s') :
    ∃ op next r world, (s.threads i).prog = .ask op next ∧ answer op s.world = some (r, world) ∧
      s' = ⟨world, Function.update s.threads i ⟨next r, (s.threads i).log ++ [⟨op, r⟩]⟩⟩ := by
  unfold step at stepped
  split at stepped
  · cases stepped
  · cases stepped
  · rename_i op next asking
    split at stepped
    · cases stepped
    · rename_i r world answered
      cases stepped
      exact ⟨op, next, r, world, asking, answered, rfl⟩

/-- A thread whose question is answered can be scheduled. -/
theorem step_eq {s : Pool Op Ans ι α σ} {i : ι} {op : Op} {next : Ans op → Prog Op Ans α} {r : Ans op}
    {world : σ} (asking : (s.threads i).prog = .ask op next) (answered : answer op s.world = some (r, world)) :
    s.step answer i
      = .ok ⟨world, Function.update s.threads i ⟨next r, (s.threads i).log ++ [⟨op, r⟩]⟩⟩ := by
  simp only [step, asking, answered]

/-- A step that is answered, is answered in a way some condition on the world allows. -/
def Fine (answer : (op : Op) → σ → Option (Ans op × σ)) (fine : ι → (op : Op) → σ → Ans op → Prop)
    (s : Pool Op Ans ι α σ) (i : ι) : Prop :=
  ∀ op next r world, (s.threads i).prog = .ask op next → answer op s.world = some (r, world) →
    fine i op s.world r

/-- Every thread keeps to its rules, and what all of them know agrees with the world. -/
structure Sound (rules : ι → Rules Op Ans γ) (first : γ) (post : ι → Option α → γ → Prop)
    (agree : σ → (ι → γ) → Prop) (s : Pool Op Ans ι α σ) : Prop where
  agree : agree s.world fun i => (s.threads i).knows (rules i) first
  ensures : ∀ i, Ensures (rules i) (s.threads i).prog (post i) ((s.threads i).knows (rules i) first)

variable {rules : ι → Rules Op Ans γ} {first : γ} {post : ι → Option α → γ → Prop}
  {agree : σ → (ι → γ) → Prop} {fine : ι → (op : Op) → σ → Ans op → Prop} {s s' : Pool Op Ans ι α σ}

/-- The world answers every thread by its rules, in a way that agrees with what all of them know. -/
def Answers (answer : (op : Op) → σ → Option (Ans op × σ)) (fine : ι → (op : Op) → σ → Ans op → Prop)
    (rules : ι → Rules Op Ans γ) (agree : σ → (ι → γ) → Prop) : Prop :=
  ∀ world known i op r world', agree world known → (rules i).allowed op (known i) →
    answer op world = some (r, world') → fine i op world r → (rules i).possible op (known i) r ∧
      agree world' (Function.update known i ((rules i).after op r (known i)))

/-- A step of one thread keeps all of them sound, when the world answers by the thread's rules. -/
theorem Sound.step (sound : s.Sound rules first post agree) (answers : Answers answer fine rules agree)
    {i : ι} (met : s.Fine answer fine i) (stepped : s.step answer i = .ok s') :
    s'.Sound rules first post agree := by
  obtain ⟨op, next, r, world, asking, answered, rfl⟩ := step_cases stepped
  have own := sound.ensures i
  rw [asking] at own
  obtain ⟨possible, agrees⟩ := 
    answers _ _ i op r world sound.agree own.1 answered (met op next r world asking answered)
  -- What the thread that asked knows now, and what the others know still.
  have known : (fun j => (Function.update s.threads i
      ⟨next r, (s.threads i).log ++ [⟨op, r⟩]⟩ j).knows (rules j) first)
      = Function.update (fun j => (s.threads j).knows (rules j) first) i
          ((rules i).after op r ((s.threads i).knows (rules i) first)) := by
    funext j
    by_cases same : j = i
    · subst same
      simp [Thread.knows]
    · simp [same]
  refine ⟨?_, fun j => ?_⟩
  · show agree world fun j => _
    rw [known]
    exact agrees
  · have here := congrFun known j
    rw [here]
    by_cases same : j = i
    · subst same
      simp only [Function.update_self]
      exact own.2 r possible
    · simp only [Function.update_of_ne same]
      exact sound.ensures j

/-- In every run of sound threads, every state reached is sound. -/
theorem Sound.run (sound : s.Sound rules first post agree) (answers : Answers answer fine rules agree)
    {schedule : List ι} (meets : Meets (Pool.step answer) (Fine answer fine) s schedule) (ran : Runs.run (Pool.step answer) s schedule = .ok s') :
    s'.Sound rules first post agree := by
  induction schedule using List.reverseRecOn generalizing s' with
  | nil =>
    cases ran
    exact sound
  | append_singleton done next ih =>
    obtain ⟨mid, before, stepped⟩ := exists_of_run_append ran
    have meetsDone : Meets (Pool.step answer) (Fine answer fine) s done :=
      fun earlier op within => meets earlier op (within.trans (List.prefix_append done [next]))
    exact (ih meetsDone before).step answers (meets done next (List.prefix_refl _) mid before) stepped

omit [DecidableEq ι] in
/-- The questions a thread has asked since an earlier state. -/
def since (s s' : Pool Op Ans ι α σ) (i : ι) : List (Σ op, Ans op) :=
  (s'.threads i).log.drop (s.threads i).log.length

omit [DecidableEq ι] in
/-- A thread that is over ended as it should. -/
theorem Sound.ended (sound : s.Sound rules first post agree) {i : ι} (ended : (s.threads i).Over) :
    ∃ out, post i out ((s.threads i).knows (rules i) first) ∧
      ((out = none ∧ (s.threads i).prog = .panic) ∨ ∃ a, out = some a ∧ (s.threads i).prog = .done a) := by
  have own := sound.ensures i
  rcases ended with panicked | ⟨a, returned⟩
  · rw [panicked] at own
    exact ⟨none, own, .inl ⟨rfl, panicked⟩⟩
  · rw [returned] at own
    exact ⟨some a, own, .inr ⟨a, rfl, returned⟩⟩

end Pool

end Programs
