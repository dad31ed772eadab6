import Memstash.Flights.System
import Memstash.Lib.Fairness

/-! Load calls side by side never wait for each other in a circle, and all of them come to an end. -/

namespace Memstash

open Programs Runs Scan

variable {K V E ε ι : Type}

/-- What the waiters of a call see of it: what it carries, and whether it is over. -/
def FlightCall.view (c : FlightCall K V (LoadError E)) : FlightResult V E × Bool :=
  (⟨c.val, c.err, c.ok⟩, c.finished)

/-- What the waiters of a call see of it. -/
def LoadWorld.view (w : LoadWorld K V E ε) (id : Nat) : FlightResult V E × Bool := (w.run.flights.calls id).view

/-- Replacing a call by one that looks the same. -/
theorem Flights.putCall_view {s : Flights K V (LoadError E)} {other : Nat} {c : FlightCall K V (LoadError E)}
    (alike : c.view = (s.calls other).view) (id : Nat) :
    ((s.putCall other c).calls id).view = (s.calls id).view := by
  by_cases same : id = other
  · subst same
    simpa [Flights.putCall] using alike
  · simp [Flights.putCall, same]

/-- A claim changes nothing waiters see. -/
theorem Flights.claim_view [DecidableEq K] {s s' : Flights K V (LoadError E)} {keyHash : BitVec 64} {key : K}
    {call winner : Nat} {running : Bool} (ran : s.claim keyHash key call = .ok (s', winner, running))
    (id : Nat) : (s'.calls id).view = (s.calls id).view := by
  unfold Flights.claim at ran
  obtain ⟨found, looked, ran⟩ := exists_of_bind_eq_ok ran
  have joins : ∀ other, ((s.join other).calls id).view = (s.calls id).view := fun other => putCall_view (by rfl) id
  cases found with
  | some other =>
    cases ran
    exact joins _
  | none =>
    dsimp only at ran
    split at ran
    · cases ran
      exact joins _
    · split at ran
      · cases ran
        exact putCall_view (by rfl) id
      · cases ran
        exact putCall_view (by rfl) id

/-- The questions about flights. -/
def LoadOp.OfFlights : LoadOp K V E → Prop
  | .newCall | .claim _ _ | .release _ | .settle _ _ | .wait _ | .result _ => True
  | _ => False

section Waiting

variable [DecidableEq K] [Inhabited V]

/-- Waiting changes nothing about flights, and ends with the flight when the context does not end it. -/
theorem LoadWorld.wait_cases [Inhabited K] {hash : K → BitVec 64} {env : LoadEnv K V E ε}
    {w w' : LoadWorld K V E ε} {call : Nat} {r : Option E}
    (answered : LoadWorld.answer hash env (.wait call) w = some (r, w')) :
    w'.run = w.run ∧ w'.next = w.next ∧ (r = none → (w.view call).2 = true) := by
  rw [LoadWorld.answer] at answered
  cases asked : LoadWorld.outside env (.wait call) w with
  | none =>
    rw [asked] at answered
    cases answered
  | some pair =>
    obtain ⟨⟨answer, e⟩, _, same⟩ := Option.map_eq_some_iff.mp asked
    cases same
    rw [asked] at answered
    cases answer with
    | some err =>
      cases answered
      exact ⟨rfl, rfl, fun same => by cases same⟩
    | none =>
      dsimp only at answered
      split at answered
      · rename_i finished
        cases answered
        exact ⟨rfl, rfl, fun _ => finished⟩
      · cases answered

end Waiting

/-- Everyone who is asked returns or panics. -/
def LoadEnv.Returns (env : LoadEnv K V E ε) : Prop :=
  ∀ op e, (¬ op.OfFlights ∨ ∃ call, op = .wait call) → env op e ≠ none

/-- No lookup panics, as when there is no deletion handler. -/
def LoadEnv.Unhandled (env : LoadEnv K V E ε) : Prop :=
  ∀ e e', (∀ key, env (.getMemory key) e ≠ some (none, e')) ∧
    ∀ key seen, env (.validate key seen) e ≠ some (none, e')

variable [DecidableEq K]

/-- What the calls hold agrees with the registry, and none of them was cut off. -/
structure Calm (hash : K → BitVec 64) (w : LoadWorld K V E ε) (known : ι → Holding K) : Prop where
  agree : Agree hash w known
  whole : ∀ i, (known i).interrupted = false

variable [Inhabited K] [Inhabited V]

/-- A call that waits for a flight of another. -/
def WaitsFor (s : Pool (LoadOp K V E) LoadOp.Ans ι (LoadResult K V E) (LoadWorld K V E ε)) (i j : ι) : Prop :=
  ∃ call next, (s.threads i).prog = .ask (.wait call) next ∧ call ∈ (holding (s.threads j)).owned

variable [DecidableEq ι] {hash : K → BitVec 64} {env : LoadEnv K V E ε}

/-- Without panics in lookups, no call is cut off. -/
theorem Calm.answers (unhandled : env.Unhandled) :
    Pool.Answers (LoadWorld.answer hash env) (fun _ _ _ _ => True)
      (fun _ : ι => (Holding.rules : Rules (LoadOp K V E) LoadOp.Ans (Holding K))) (Calm hash) := by
  intro w known i op r w' calm allowed answered fine
  obtain ⟨possible, agree⟩ := Agree.answers hash env w known i op r w' calm.agree allowed answered fine
  have panics : ∀ {op : LoadOp K V E} {r : op.Ans}, LoadWorld.outside env op w = some (r, w') →
      ∃ e', env op w.env = some (r, e') := by
    intro op r asked
    obtain ⟨⟨_, e'⟩, found, same⟩ := Option.map_eq_some_iff.mp asked
    cases same
    exact ⟨e', found⟩
  have whole : (Holding.after op r (known i)).interrupted = false := by
    cases op with
    | getMemory key => cases r with
      | none =>
        obtain ⟨e', found⟩ := panics answered
        exact absurd found ((unhandled _ _).1 key)
      | some _ => exact calm.whole i
    | validate key seen => cases r with
      | none =>
        obtain ⟨e', found⟩ := panics answered
        exact absurd found ((unhandled _ _).2 key seen)
      | some _ => exact calm.whole i
    | claim key call => cases r <;> exact calm.whole i
    | _ => exact calm.whole i
  exact ⟨possible, agree,
    (Function.forall_update_iff known fun _ h => h.interrupted = false).mpr ⟨whole, fun j _ => calm.whole j⟩⟩

/-- Every state that load calls reach. -/
structure Running (hash : K → BitVec 64)
    (s : Pool (LoadOp K V E) LoadOp.Ans ι (LoadResult K V E) (LoadWorld K V E ε)) : Prop where
  agree : Agree hash s.world fun i => holding (s.threads i)
  allowed : ∀ i op next, (s.threads i).prog = .ask op next → Holding.Allowed op (holding (s.threads i))
  freed : ∀ i, (s.threads i).Over → (holding (s.threads i)).owned = []

theorem Config.running_loading (cfg : Config K V) (around : Surroundings K V)
    (store : Nat → FlightCall K V (LoadError E)) (unhandled : env.Unhandled) (e : ε) (load : LoadConfig)
    (calls : ι → LoadCall K) {schedule : List ι}
    {s : Pool (LoadOp K V E) LoadOp.Ans ι (LoadResult K V E) (LoadWorld K V E ε)}
    (ran : Runs.run (Pool.step (LoadWorld.answer around.keyHash env)) (cfg.loading around store e load calls) schedule
      = .ok s) : Running around.keyHash s := by
  have sound : (cfg.loading around store e load calls).Sound (fun _ => Holding.rules) Holding.start
      (fun i _ h => h.owned = [] ∨ (calls i).CutOff h) (Calm around.keyHash) :=
    ⟨⟨cfg.agree_loading around store e, fun i => rfl⟩, fun i => (calls i).prog_frees load⟩
  have reached := sound.run (Calm.answers unhandled) (fun _ _ _ _ _ _ _ _ _ _ _ => trivial) ran
  refine ⟨reached.agree.agree, fun i op next asking => ?_, fun i ended => ?_⟩
  · have own := reached.ensures i
    rw [asking] at own
    exact own.1
  · obtain ⟨_, free, _⟩ := reached.ended ended
    refine free.resolve_right fun cut => ?_
    -- Only a panic in a lookup cuts a batch off.
    unfold LoadCall.CutOff at cut
    split at cut
    · rw [reached.agree.whole i] at cut
      cases cut
    · exact cut

namespace Running

variable {s s' : Pool (LoadOp K V E) LoadOp.Ans ι (LoadResult K V E) (LoadWorld K V E ε)}

omit [Inhabited K] [Inhabited V] [DecidableEq ι] in
theorem free_of_waits (running : Running hash s) {i : ι} {call : Nat}
    {next : (LoadOp.wait call : LoadOp K V E).Ans → Load K V E (LoadResult K V E)}
    (waiting : (s.threads i).prog = .ask (.wait call) next) : (holding (s.threads i)).owned = [] :=
  (running.allowed i _ _ waiting).2

omit [DecidableEq ι] in
/-- Who is not answered waits for a flight that is not over. -/
theorem answered_or_waits (running : Running hash s) (returns : env.Returns) {i : ι} {op : LoadOp K V E}
    {next : op.Ans → Load K V E (LoadResult K V E)} (asking : (s.threads i).prog = .ask op next) :
    (∃ r w, LoadWorld.answer hash env op s.world = some (r, w)) ∨
      ∃ call, op = .wait call ∧ (s.world.view call).2 = false := by
  classical
  have allowed := running.allowed i op next asking
  have outside : (¬ op.OfFlights ∨ ∃ call, op = .wait call) →
      ∃ r w, LoadWorld.outside env op s.world = some (r, w) := by
    intro asked
    obtain ⟨⟨r, e⟩, found⟩ := Option.ne_none_iff_exists'.mp (returns op s.world.env asked)
    exact ⟨r, { s.world with env := e }, by simp [LoadWorld.outside, found]⟩
  cases op with
  | newCall => exact .inl ⟨_, _, rfl⟩
  | claim key call =>
    obtain ⟨r, w, answered, _⟩ := running.agree.claim env key allowed
    exact .inl ⟨r, w, answered⟩
  | release call =>
    obtain ⟨w, answered, _⟩ := running.agree.release env allowed
    exact .inl ⟨(), w, answered⟩
  | settle call result => exact .inl ⟨_, _, rfl⟩
  | result call => exact .inl ⟨_, _, rfl⟩
  | wait call =>
    obtain ⟨r, w, answered⟩ := outside (.inr ⟨call, rfl⟩)
    cases r with
    | some err => exact .inl ⟨some err, w, by rw [LoadWorld.answer, answered]⟩
    | none =>
      obtain ⟨⟨_, _⟩, _, same⟩ := Option.map_eq_some_iff.mp answered
      cases same
      cases over' : (s.world.view call).2 with
      | true => exact .inl ⟨none, _, by rw [LoadWorld.answer, answered]; exact if_pos over'⟩
      | false => exact .inr ⟨call, rfl, over'⟩
  | _ => exact .inl (outside (.inl fun flight => flight))

omit [Inhabited K] [Inhabited V] [DecidableEq ι] in
/-- A flight that is waited for and not over has an owner. -/
theorem owner_of_waits (running : Running hash s) {i : ι} {call : Nat}
    {next : (LoadOp.wait call : LoadOp K V E).Ans → Load K V E (LoadResult K V E)}
    (waiting : (s.threads i).prog = .ask (.wait call) next) (unfinished : (s.world.view call).2 = false) :
    ∃ j, call ∈ (holding (s.threads j)).owned := by
  have handed := (running.agree.fits i).handed call (running.allowed i _ _ waiting).1
  rcases running.agree.woken call handed.1 handed.2 with held | finished
  · obtain ⟨key, claimed⟩ := Option.ne_none_iff_exists'.mp held
    obtain ⟨j, owned, _⟩ := (running.agree.held call key).mp claimed
    exact ⟨j, owned⟩
  · rw [show (s.world.view call).2 = true from finished] at unfinished
    cases unfinished

omit [DecidableEq ι] in
/-- Who owns a flight is answered. -/
theorem answered_of_owns (running : Running hash s) (returns : env.Returns) {j : ι} {call : Nat}
    (owned : call ∈ (holding (s.threads j)).owned) : ∃ op next r w, (s.threads j).prog = .ask op next ∧
      LoadWorld.answer hash env op s.world = some (r, w) := by
  cases asking : (s.threads j).prog with
  | done a =>
    rw [running.freed j (.inr ⟨a, asking⟩)] at owned
    cases owned
  | panic =>
    rw [running.freed j (.inl asking)] at owned
    cases owned
  | ask op next =>
    rcases running.answered_or_waits returns asking with ⟨r, w, answered⟩ | ⟨other, rfl, _⟩
    · exact ⟨op, next, r, w, rfl, answered⟩
    · rw [running.free_of_waits asking] at owned
      cases owned

/-- While some call is not over, some call can go on. -/
theorem exists_step (running : Running hash s) (returns : env.Returns) {i : ι} (unfinished : ¬ (s.threads i).Over) :
    ∃ j s', s.step (LoadWorld.answer hash env) j = .ok s' := by
  cases asking : (s.threads i).prog with
  | done a => exact absurd (.inr ⟨a, asking⟩) unfinished
  | panic => exact absurd (.inl asking) unfinished
  | ask op next =>
    rcases running.answered_or_waits returns asking with ⟨r, w, answered⟩ | ⟨call, rfl, open'⟩
    · exact ⟨i, _, Pool.step_eq asking answered⟩
    · -- The owner of the flight can.
      obtain ⟨j, owned⟩ := running.owner_of_waits asking open'
      obtain ⟨op, next', r, w, asking', answered⟩ := running.answered_of_owns returns owned
      exact ⟨j, _, Pool.step_eq asking' answered⟩

omit [Inhabited K] [Inhabited V] [DecidableEq ι] in
/-- Nobody waits for someone who waits, so nobody waits in a circle. -/
theorem no_circle (running : Running hash s) (i : ι) : ¬ Relation.TransGen (WaitsFor s) i i := by
  have two : ∀ {i j k}, WaitsFor s i j → ¬ WaitsFor s j k := by
    rintro i j k ⟨call, _, _, owned⟩ ⟨_, _, waiting, _⟩
    rw [running.free_of_waits waiting] at owned
    cases owned
  intro circle
  obtain ⟨j, first, rest⟩ := Relation.TransGen.head'_iff.mp circle
  obtain ⟨k, _, last⟩ := Relation.TransGen.tail'_iff.mp circle
  exact two last first

/-- What is over stays over. -/
theorem finished_step (running : Running hash s) {i : ι} (stepped : s.step (LoadWorld.answer hash env) i = .ok s')
    {call : Nat} (old : call < s.world.next) (finished : (s.world.view call).2 = true) :
    call < s'.world.next ∧ (s'.world.view call).2 = true := by
  obtain ⟨op, next, r, w, asking, answered, rfl⟩ := Pool.step_cases stepped
  have allowed := running.allowed i op next asking
  have outside : LoadWorld.outside env op s.world = some (r, w) → call < w.next ∧ (w.view call).2 = true := by
    intro asked
    obtain ⟨_, _, same⟩ := Option.map_eq_some_iff.mp asked
    cases same
    exact ⟨old, finished⟩
  show call < w.next ∧ (w.view call).2 = true
  cases op with
  | newCall =>
    cases answered
    refine ⟨old.trans (Nat.lt_succ_self _), ?_⟩
    rw [← finished]
    simp [LoadWorld.view, FlightRun.putCall, Flights.putCall, old.ne]
  | claim key id =>
    obtain ⟨_, _, answered', _, _, same, _⟩ := running.agree.claim env key allowed
    rw [answered] at answered'
    cases answered'
    refine ⟨same ▸ old, ?_⟩
    rw [LoadWorld.answer] at answered
    split at answered
    · cases answered
    · rename_i ran
      cases answered
      rw [← finished]
      exact congrArg Prod.snd (Flights.claim_view ran call)
  | release id =>
    obtain ⟨_, answered', _, _, same, _, others, own⟩ := running.agree.release env allowed
    rw [answered] at answered'
    cases answered'
    refine ⟨same ▸ old, ?_⟩
    have raised : (s.world.run.flights.calls call).finished = true := finished
    show (w.run.flights.calls call).finished = true
    by_cases here : call = id
    · subst here
      rw [own]
      simp [raised]
    · rw [others call here]
      exact raised
  | settle id result =>
    cases answered
    refine ⟨old, ?_⟩
    have raised : (s.world.run.flights.calls call).finished = true := finished
    by_cases here : call = id
    · subst here
      simpa [LoadWorld.view, FlightRun.putCall, Flights.putCall, FlightCall.view] using raised
    · simpa [LoadWorld.view, FlightRun.putCall, Flights.putCall, here, FlightCall.view] using raised
  | result id =>
    cases answered
    exact ⟨old, finished⟩
  | wait id =>
    obtain ⟨run, same, _⟩ := LoadWorld.wait_cases answered
    refine ⟨same ▸ old, ?_⟩
    rw [← finished]
    simp only [LoadWorld.view, run]
  | _ => exact outside answered

end Running

omit [DecidableEq K] [Inhabited K] [Inhabited V] in
/-- What was allocated stays so. -/
theorem Holding.mine_after (op : LoadOp K V E) (r : op.Ans) (h : Holding K) {call : Nat}
    (mine : call ∈ h.mine) : call ∈ (Holding.after op r h).mine := by
  cases op with
  | newCall => exact List.mem_cons_of_mem _ mine
  | claim => cases r <;> exact mine
  | getMemory => cases r <;> exact mine
  | validate => cases r <;> exact mine
  | _ => exact mine

section Turns

variable {s : Pool (LoadOp K V E) LoadOp.Ans ι (LoadResult K V E) (LoadWorld K V E ε)} {turns : Nat → ι}

/-- What was allocated stays so, turn by turn. -/
theorem mine_after_turns {n m : Nat} (later : n ≤ m) {j : ι} {call : Nat}
    (mine : call ∈ (holding ((s.after (LoadWorld.answer hash env) turns n).threads j)).mine) :
    call ∈ (holding ((s.after (LoadWorld.answer hash env) turns m).threads j)).mine := by
  induction m, later using Nat.le_induction with
  | base => exact mine
  | succ m later ih =>
    rw [Pool.after, Pool.turn]
    split
    · rename_i s' stepped
      obtain ⟨op, next, r, w, _, _, rfl⟩ := Pool.step_cases stepped
      by_cases here : j = turns m
      · subst here
        simp only [Function.update_self, holding, Thread.knows, List.foldl_append]
        exact Holding.mine_after op r _ ih
      · simp only [Function.update_of_ne here]
        exact ih
    · exact ih

/-- What is over stays over, turn by turn. -/
theorem finished_after_turns (running : ∀ n, Running hash (s.after (LoadWorld.answer hash env) turns n)) {n m : Nat}
    (later : n ≤ m) {call : Nat} (old : call < (s.after (LoadWorld.answer hash env) turns n).world.next)
    (finished : ((s.after (LoadWorld.answer hash env) turns n).world.view call).2 = true) :
    call < (s.after (LoadWorld.answer hash env) turns m).world.next ∧
      ((s.after (LoadWorld.answer hash env) turns m).world.view call).2 = true := by
  induction m, later using Nat.le_induction with
  | base => exact ⟨old, finished⟩
  | succ m later ih =>
    rw [Pool.after, Pool.turn]
    split
    · rename_i s' stepped
      exact (running m).finished_step stepped ih.1 ih.2
    · exact ih

/-- Who is not over is served: if it waits, then for someone who lets go of the flight in the end. -/
theorem served_of_fair (running : ∀ n, Running hash (s.after (LoadWorld.answer hash env) turns n))
    (returns : env.Returns) (fair : Pool.Fair turns) {i : ι} {n : Nat}
    (unfinished : ¬ ((s.after (LoadWorld.answer hash env) turns n).threads i).Over) :
    s.Served (LoadWorld.answer hash env) turns i n := by
  by_contra unserved
  have idle := fun m later => Pool.after_idle_of_unserved (m := m) unserved later
  cases asking : ((s.after (LoadWorld.answer hash env) turns n).threads i).prog with
  | done a => exact unfinished (.inr ⟨a, asking⟩)
  | panic => exact unfinished (.inl asking)
  | ask op next =>
    -- At each of its turns the call waits for a flight that is not over.
    have waits : ∀ m, n ≤ m → turns m = i → ∃ call, op = .wait call ∧
        ((s.after (LoadWorld.answer hash env) turns m).world.view call).2 = false := by
      intro m later here
      have asking' : ((s.after (LoadWorld.answer hash env) turns m).threads i).prog = .ask op next := by
        rw [idle m later, asking]
      rcases (running m).answered_or_waits returns asking' with ⟨r, w, answered⟩ | waits
      · exact absurd ⟨m, op, next, r, w, later, here, idle m later, asking', answered⟩ unserved
      · exact waits
    obtain ⟨m, later, here, _⟩ := fair.next (LoadWorld.answer hash env) s i n
    obtain ⟨call, rfl, open'⟩ := waits m later here
    have waiting : ∀ k, n ≤ k →
        ((s.after (LoadWorld.answer hash env) turns k).threads i).prog = .ask (.wait call) next := by
      intro k from'
      rw [idle k from', asking]
    obtain ⟨j, owned⟩ := (running m).owner_of_waits (waiting m later) open'
    -- Its owner is answered until it no longer has the flight.
    have owner : ∀ k, call ∈ (holding ((s.after (LoadWorld.answer hash env) turns k).threads j)).owned →
        s.Served (LoadWorld.answer hash env) turns j k := by
      intro k owns
      obtain ⟨k', from', turn, same⟩ := fair.next (LoadWorld.answer hash env) s j k
      rw [← same] at owns
      obtain ⟨op, next, r, w, asks, answered⟩ := (running k').answered_of_owns returns owns
      exact ⟨k', op, next, r, w, from', turn, same, asks, answered⟩
    obtain ⟨k, after', released⟩ := Pool.exists_not_of_served owner owned
    have finished : ((s.after (LoadWorld.answer hash env) turns k).world.view call).2 = true := by
      by_contra still
      obtain ⟨j', owned'⟩ := (running k).owner_of_waits (waiting k (later.trans after')) (by simpa using still)
      have mine := mine_after_turns after' ((running m).agree.mine_of_owned owned)
      obtain rfl := (running k).agree.apart j' j call ((running k).agree.mine_of_owned owned') mine
      exact released owned'
    -- So it is over at the next turn of the one who waits.
    obtain ⟨k', from', turn, _⟩ := fair.next (LoadWorld.answer hash env) s i k
    have old := ((running k).agree.fits i).handed call
      ((running k).allowed i _ _ (waiting k (later.trans after'))).1
    obtain ⟨_, over'⟩ := finished_after_turns running from' old.1 finished
    obtain ⟨_, same, open''⟩ := waits k' (later.trans (after'.trans from')) turn
    cases same
    rw [over'] at open''
    cases open''

end Turns

/-- Load calls over any lists of keys, in turns that go on forever and pass over who is blocked. At every moment
a call that waits owns no flight, nobody waits in a circle, and someone can go on until all are over. And if the
turns are fair, every call comes to its end. -/
theorem loads_never_deadlock (cfg : Config K V) (around : Surroundings K V)
    (store : Nat → FlightCall K V (LoadError E)) (env : LoadEnv K V E ε) (returns : env.Returns)
    (unhandled : env.Unhandled) (e : ε) (load : LoadConfig) (calls : ι → LoadCall K) (turns : Nat → ι) :
    (∀ n, let s := (cfg.loading around store e load calls).after (LoadWorld.answer around.keyHash env) turns n
      (∀ i call next, (s.threads i).prog = .ask (.wait call) next → (holding (s.threads i)).owned = []) ∧
      (∀ i, ¬ Relation.TransGen (WaitsFor s) i i) ∧
      ∀ i, ¬ (s.threads i).Over → ∃ j s', s.step (LoadWorld.answer around.keyHash env) j = .ok s') ∧
    (Pool.Fair turns → ∀ i, ∃ n, (((cfg.loading around store e load calls).after
      (LoadWorld.answer around.keyHash env) turns n).threads i).Over) := by
  have running : ∀ n, Running around.keyHash
      ((cfg.loading around store e load calls).after (LoadWorld.answer around.keyHash env) turns n) := by
    intro n
    obtain ⟨schedule, ran⟩ := Pool.exists_run_after (LoadWorld.answer around.keyHash env)
      (cfg.loading around store e load calls) turns n
    exact cfg.running_loading around store unhandled e load calls ran
  refine ⟨fun n => ⟨fun i call next waiting => (running n).free_of_waits waiting, (running n).no_circle,
    fun i unfinished => (running n).exists_step returns unfinished⟩, fun fair i => ?_⟩
  by_contra never
  simp only [not_exists] at never
  obtain ⟨m, _, ended⟩ := Pool.exists_not_of_served
    (fun n unfinished => served_of_fair running returns fair unfinished) (never 0)
  exact ended (never m)

/-- Two batches of the same keys, in opposite orders. -/
def crossedBatches : Fin 2 → LoadCall Nat
  | 0 => .batchGetOrLoad true [1, 2]
  | 1 => .batchGetOrLoad true [2, 1]

/-- The two batches after some alternating turns. -/
def crossedAfter (n : Nat) : Pool (LoadOp Nat Unit Unit) LoadOp.Ans (Fin 2) (LoadResult Nat Unit Unit)
    (LoadWorld Nat Unit Unit Unit) :=
  (hundredItems.loading plainSurroundings (fun _ => .zero) () memoryOnly crossedBatches).after
    (LoadWorld.answer plainSurroundings.keyHash (nothingStored (fun _ => some none) (some (.ok ()))))
    (fun n => Fin.ofNat 2 n) n

/-- Each may join a flight of the other, and both end. -/
theorem loads_never_deadlock_crossed :
    (∃ n, ((crossedAfter n).threads 0).Over) ∧ ∃ n, ((crossedAfter n).threads 1).Over := by
  have ends : ∀ i, ∃ n, ((crossedAfter n).threads i).Over := by
    refine (loads_never_deadlock hundredItems plainSurroundings (fun _ => .zero)
      (nothingStored (fun _ => some none) (some (.ok ()))) (fun op e asked => ?_) (fun e e' => ⟨?_, ?_⟩) () memoryOnly
      crossedBatches (fun n => Fin.ofNat 2 n)).2 fun i n => ⟨2 * n + i, by omega, ?_⟩
    · rcases asked with other | ⟨call, rfl⟩
      · cases op <;> first | exact Option.some_ne_none _ | exact absurd trivial other
      · exact Option.some_ne_none _
    · exact fun key panicked => nomatch panicked
    · exact fun key seen panicked => nomatch panicked
    · fin_cases i <;> simp [Fin.ofNat]
  exact ⟨ends 0, ends 1⟩

end Memstash
