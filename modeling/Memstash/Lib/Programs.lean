import Mathlib

/-! Programs as trees of questions to their surroundings, with panics, deferred calls and recovery, and
the rules for what they ensure. -/

namespace Programs

variable {Op : Type} {Ans : Op → Type} {α β γ δ σ : Type}

/-- A program: it returns, panics, or asks something and goes on with the answer. -/
inductive Prog (Op : Type) (Ans : Op → Type) (α : Type) where
  | done (a : α)
  | panic
  | ask (op : Op) (next : Ans op → Prog Op Ans α)

namespace Prog

/-- One program after another; a panic skips the second. -/
def bind : Prog Op Ans α → (α → Prog Op Ans β) → Prog Op Ans β
  | done a, f => f a
  | panic, _ => panic
  | ask op next, f => ask op fun answer => (next answer).bind f

instance : Monad (Prog Op Ans) where
  pure := done
  bind := bind

/-- A missing answer stands for a panic of the one who was asked. -/
def orPanic : Option α → Prog Op Ans α
  | none => panic
  | some a => done a

/-- Take a step for each element of a list. -/
def each (step : α → Prog Op Ans Unit) : List α → Prog Op Ans Unit
  | [] => done ()
  | a :: rest => (step a).bind fun _ => each step rest

/-- Run a program and then a deferred one, whether the first returned or panicked. -/
def deferring : Prog Op Ans α → Prog Op Ans Unit → Prog Op Ans α
  | done a, cleanup => cleanup.bind fun _ => done a
  | panic, cleanup => cleanup.bind fun _ => panic
  | ask op next, cleanup => ask op fun answer => (next answer).deferring cleanup

/-- Run a program, and another one in place of its panic. -/
def recovering : Prog Op Ans α → Prog Op Ans α → Prog Op Ans α
  | done a, _ => done a
  | panic, handler => handler
  | ask op next, handler => ask op fun answer => (next answer).recovering handler

@[simp] theorem pure_eq (a : α) : (pure a : Prog Op Ans α) = done a := rfl

@[simp] theorem ask_bind (op : Op) (next : Ans op → Prog Op Ans α) (f : α → Prog Op Ans β) :
    (ask op next).bind f = ask op fun answer => (next answer).bind f := rfl

/-- Every question a program can ask is of one kind. -/
def Asks (kind : Op → Prop) : Prog Op Ans α → Prop
  | done _ => True
  | panic => True
  | ask op next => kind op ∧ ∀ answer, (next answer).Asks kind

section Asks

variable {kind : Op → Prop}

/-- Two programs in sequence ask what each of them asks. -/
theorem Asks.bind {p : Prog Op Ans α} {f : α → Prog Op Ans β} (first : p.Asks kind)
    (second : ∀ a, (f a).Asks kind) : (p.bind f).Asks kind := by
  induction p with
  | done a => exact second a
  | panic => trivial
  | ask op next ih => exact ⟨first.1, fun answer => ih answer (first.2 answer)⟩

/-- A missing answer asks nothing more. -/
theorem asks_orPanic (answer : Option α) : (orPanic answer : Prog Op Ans α).Asks kind := by
  cases answer <;> trivial

/-- A question of the kind, whose answer may be missing. -/
theorem asks_ask {op : Op} {next : Ans op → Prog Op Ans α} (ofKind : kind op)
    (later : ∀ answer, (next answer).Asks kind) : (ask op next).Asks kind := ⟨ofKind, later⟩

/-- Steps of one kind for each element. -/
theorem asks_each {step : α → Prog Op Ans Unit} (l : List α) (steps : ∀ a ∈ l, (step a).Asks kind) :
    (each step l).Asks kind := by
  induction l with
  | nil => trivial
  | cons a rest ih =>
    exact (steps a (by simp)).bind fun _ => ih fun other member => steps other (by simp [member])

end Asks

end Prog

/-- How a run of a program ends. -/
inductive Outcome (α : Type) where
  | returned (a : α)
  | panicked
  /-- A question was never answered. -/
  | blocked
  deriving DecidableEq

/-- Run a program alone in its surroundings, which answer every question or leave it open forever. -/
def run (answer : (op : Op) → σ → Option (Ans op × σ)) : Prog Op Ans α → σ → Outcome α × σ
  | .done a, s => (.returned a, s)
  | .panic, s => (.panicked, s)
  | .ask op next, s =>
    match answer op s with
    | none => (.blocked, s)
    | some (r, s') => run answer (next r) s'

/-- A program that returned was answered its first question. -/
theorem exists_of_run_ask {answer : (op : Op) → σ → Option (Ans op × σ)} {op : Op}
    {next : Ans op → Prog Op Ans α} {a : α} {s s' : σ} (returned : run answer (.ask op next) s = (.returned a, s')) :
    ∃ reply s₁, answer op s = some (reply, s₁) ∧ run answer (next reply) s₁ = (.returned a, s') := by
  rw [run] at returned
  cases answered : answer op s with
  | none =>
    rw [answered] at returned
    cases returned
  | some reply =>
    rw [answered] at returned
    exact ⟨reply.1, reply.2, rfl, returned⟩

/-- A sequence that ran: the second program starts where the first returned. -/
theorem run_bind {answer : (op : Op) → σ → Option (Ans op × σ)} {p : Prog Op Ans α}
    {f : α → Prog Op Ans β} {a : α} : ∀ {s s' : σ}, run answer p s = (.returned a, s') →
      run answer (p.bind f) s = run answer (f a) s' := by
  induction p with
  | done b =>
    intro s s' ran
    cases ran
    rfl
  | panic =>
    intro s s' ran
    cases ran
  | ask op next ih =>
    intro s s' ran
    obtain ⟨reply, s₁, answered, later⟩ := exists_of_run_ask ran
    rw [Prog.ask_bind, run, answered]
    exact ih reply later

/-- Everything a program asks in a run is fine where it is asked. -/
def Always (answer : (op : Op) → σ → Option (Ans op × σ)) (fine : Op → σ → Prop) : Prog Op Ans α → σ → Prop
  | .done _, _ => True
  | .panic, _ => True
  | .ask op next, s => fine op s ∧ ∀ reply s', answer op s = some (reply, s') →
      Always answer fine (next reply) s'

/-- Questions of a kind that is fine everywhere. -/
theorem Always.of_asks {answer : (op : Op) → σ → Option (Ans op × σ)} {fine : Op → σ → Prop}
    {kind : Op → Prop} {p : Prog Op Ans α} (asks : p.Asks kind) (free : ∀ op s, kind op → fine op s) :
    ∀ s, Always answer fine p s := by
  induction p with
  | done a => exact fun _ => trivial
  | panic => exact fun _ => trivial
  | ask op next ih => exact fun s => ⟨free op s asks.1, fun reply s' _ => ih reply (asks.2 reply) s'⟩

/-- What one party may ask, what it can be answered, and what it knows after. -/
structure Rules (Op : Type) (Ans : Op → Type) (γ : Type) where
  allowed : Op → γ → Prop
  possible : (op : Op) → γ → Ans op → Prop
  after : (op : Op) → Ans op → γ → γ

/-- Whatever it is answered, a program asks only what it may, and ends as it should. -/
def Ensures (rules : Rules Op Ans γ) : Prog Op Ans α → (Option α → γ → Prop) → γ → Prop
  | .done a, post, g => post (some a) g
  | .panic, post, g => post none g
  | .ask op next, post, g => rules.allowed op g ∧ ∀ answer, rules.possible op g answer →
      Ensures rules (next answer) post (rules.after op answer g)

namespace Ensures

variable {rules : Rules Op Ans γ} {p : Prog Op Ans α} {post post' : Option α → γ → Prop} {g : γ}

/-- What holds at the end may be weakened. -/
theorem mono (ensures : Ensures rules p post g) (weaker : ∀ out g, post out g → post' out g) :
    Ensures rules p post' g := by
  induction p generalizing g with
  | done a => exact weaker _ _ ensures
  | panic => exact weaker _ _ ensures
  | ask op next ih => exact ⟨ensures.1, fun answer possible => ih answer (ensures.2 answer possible)⟩

/-- Two programs in sequence: the second starts where the first returned. -/
theorem bind {f : α → Prog Op Ans β} {post : Option β → γ → Prop}
    (first : Ensures rules p (fun out g => match out with
      | some a => Ensures rules (f a) post g
      | none => post none g) g) : Ensures rules (p.bind f) post g := by
  induction p generalizing g with
  | done a => exact first
  | panic => exact first
  | ask op next ih => exact ⟨first.1, fun answer possible => ih answer (first.2 answer possible)⟩

/-- A deferred program starts where the first returned or panicked, and a panic stays one. -/
theorem deferring {cleanup : Prog Op Ans Unit}
    (first : Ensures rules p (fun out g => Ensures rules cleanup (fun cleaned g => match cleaned with
      | some _ => post out g
      | none => post none g) g) g) : Ensures rules (p.deferring cleanup) post g := by
  induction p generalizing g with
  | done a =>
    refine bind (mono first fun cleaned g holds => ?_)
    cases cleaned <;> exact holds
  | panic =>
    refine bind (mono first fun cleaned g holds => ?_)
    cases cleaned <;> exact holds
  | ask op next ih => exact ⟨first.1, fun answer possible => ih answer (first.2 answer possible)⟩

/-- A recovery starts where the program panicked. -/
theorem recovering {handler : Prog Op Ans α}
    (first : Ensures rules p (fun out g => match out with
      | some a => post (some a) g
      | none => Ensures rules handler post g) g) : Ensures rules (p.recovering handler) post g := by
  induction p generalizing g with
  | done a => exact first
  | panic => exact first
  | ask op next ih => exact ⟨first.1, fun answer possible => ih answer (first.2 answer possible)⟩

/-- A loop over a list, from what holds before each of its turns. -/
theorem each {step : β → Prog Op Ans Unit} {post : Option Unit → γ → Prop} (inv : List β → γ → Prop)
    (turn : ∀ b rest g, inv (b :: rest) g → Ensures rules (step b) (fun out g => match out with
      | some _ => inv rest g
      | none => post none g) g)
    (last : ∀ g, inv [] g → post (some ()) g) {l : List β} (holds : inv l g) :
    Ensures rules (Prog.each step l) post g := by
  induction l generalizing g with
  | nil => exact last g holds
  | cons b rest ih =>
    refine bind (mono (turn b rest g holds) fun out g holds => ?_)
    cases out with
    | none => exact holds
    | some _ => exact ih holds

/-- Questions of a kind that is always allowed and never teaches anything. -/
theorem of_asks {kind : Op → Prop} (asks : p.Asks kind) (free : ∀ op g, kind op → rules.allowed op g)
    (idle : ∀ op answer g, kind op → rules.possible op g answer → rules.after op answer g = g) :
    Ensures rules p (fun _ g' => g' = g) g := by
  induction p with
  | done a => rfl
  | panic => rfl
  | ask op next ih =>
    refine ⟨free op g asks.1, fun answer possible => ?_⟩
    rw [idle op answer g asks.1 possible]
    exact ih answer (asks.2 answer)

/-- A run in surroundings that answer what is possible ends as it should. -/
theorem run {answer : (op : Op) → σ → Option (Ans op × σ)} {fine : Op → σ → Prop} {agree : γ → σ → Prop}
    (answers : ∀ op g s, agree g s → rules.allowed op g → fine op s →
      ∃ reply s', answer op s = some (reply, s') ∧ rules.possible op g reply ∧
        agree (rules.after op reply g) s') :
    ∀ {g : γ} {s : σ}, Ensures rules p post g → agree g s → Always answer fine p s →
      ∃ out g' s', Programs.run answer p s = (out.elim .panicked .returned, s') ∧ post out g' ∧
        agree g' s' := by
  induction p with
  | done a => exact fun ensures agrees _ => ⟨some a, _, _, rfl, ensures, agrees⟩
  | panic => exact fun ensures agrees _ => ⟨none, _, _, rfl, ensures, agrees⟩
  | ask op next ih =>
    intro g s ensures agrees always
    obtain ⟨reply, s', answered, possible, agrees'⟩ := answers op g s agrees ensures.1 always.1
    obtain ⟨out, g', s'', ran, holds, agrees''⟩ :=
      ih reply (ensures.2 reply possible) agrees' (always.2 reply s' answered)
    exact ⟨out, g', s'', by rw [Programs.run, answered]; exact ran, holds, agrees''⟩

end Ensures

end Programs
