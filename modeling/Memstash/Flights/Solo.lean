import Memstash.Cache.Unexpired
import Memstash.Flights.System

/-! A load call that nothing disturbs: no other call runs, nothing expires, and every store finds room. -/

namespace Memstash

open Programs

variable {K V E : Type}

/-- What the second level and the loaders answer to every question. -/
structure LoadReplies (K V E : Type) where
  l2Get : K → Except E (Option V)
  l2BatchGet : List K → Reply K V E
  l2Set : K → V → Option E
  l2BatchSet : List (K × V) → Option E
  load : K → Except E V
  batchLoad : List K → Reply K V E

/-- The memory level a call works on, and what the loaders were asked for. -/
structure SoloEnv (K V : Type) where
  memory : ClockedLevel K V
  asked : List (List K)

/-- What a lone call knows. -/
structure Solo (K V E : Type) where
  holding : Holding K
  /-- What memory holds. -/
  memory : K → Option V
  /-- The notes its walks took since the last store. -/
  seen : List (K × Candidate)
  /-- What the calls it settled carry. -/
  results : Nat → Option (FlightResult V E)
  /-- What the loaders were asked for. -/
  asked : List (List K)

section Env

variable [DecidableEq K] [Inhabited K] [Inhabited V]

/-- Surroundings in which everyone returns, and no context ends. -/
def LoadReplies.env (replies : LoadReplies K V E) (clock : Nat → Nat) : LoadEnv K V E (SoloEnv K V)
  | .getMemory key, e => (e.memory.getMemory clock key).map fun (found, m) => (found, { e with memory := m })
  | .candidate key, e => (e.memory.candidate key).map fun (seen, m) => (seen, { e with memory := m })
  | .validate key seen, e =>
    (e.memory.validate clock key seen).map fun (found, m) => (found, { e with memory := m })
  | .peekMemory key, e =>
    match (e.memory.level.shards (e.memory.level.keyShard key)).peekMemory e.memory.level.cfg key with
    | .ok found => some (found, e)
    | .error _ => none
  | .expireOffset, e => some (e.memory.expireOffset clock, { e with memory := e.memory.tick })
  | .setMemory key value expireOff, e =>
    (e.memory.setMemory clock key value expireOff).map fun (stored, m) => (stored, { e with memory := m })
  | .wait _, e => some (none, e)
  | .l2Get key, e => some (some (replies.l2Get key), e)
  | .l2BatchGet keys, e => some (some (replies.l2BatchGet keys), e)
  | .l2Set key value, e => some (some (replies.l2Set key value), e)
  | .l2BatchSet items, e => some (some (replies.l2BatchSet items), e)
  | .enqueueWriteBack _ _, e => some (some (), e)
  | .reportL2Err _ _, e => some (some (), e)
  | .load key, e => some (some (replies.load key), { e with asked := e.asked ++ [[key]] })
  | .batchLoad keys, e => some (some (replies.batchLoad keys), { e with asked := e.asked ++ [keys] })
  | .closing, e => some (false, e)
  -- The registry answers these.
  | .newCall, _ | .claim _ _, _ | .release _, _ | .settle _ _, _ | .result _, _ => none

/-- What is looked up has not expired, and a store finds room. -/
def Undisturbed (clock : Nat → Nat) : LoadOp K V E → LoadWorld K V E (SoloEnv K V) → Prop
  | .getMemory key, w => w.env.memory.level.Fresh key (clock w.env.memory.ticks)
  | .validate key seen, w => w.env.memory.level.Fresh key (clock w.env.memory.ticks) ∧
      seen.word.expired (clock w.env.memory.ticks) = false
  | .setMemory key value expireOff, w => w.env.memory.HasRoom clock key value expireOff
  | _, _ => True

end Env

namespace Solo

/-- A call before its first question. -/
def start (memory : K → Option V) (asked : List (List K)) : Solo K V E :=
  ⟨.start, memory, [], fun _ => none, asked⟩

variable [DecidableEq K]

/-- What a question teaches apart from flights. -/
def learn : (op : LoadOp K V E) → op.Ans → Solo K V E → Solo K V E
  | .candidate key, some seen, g => { g with seen := (key, seen) :: g.seen }
  -- A store may move items, so the notes are no longer good.
  | .setMemory key value _, _, g =>
    { g with memory := Function.update g.memory key (some value), seen := [] }
  | .newCall, id, g => { g with results := Function.update g.results id none }
  | .claim _ call, _, g => { g with results := Function.update g.results call none }
  | .settle call result, _, g => { g with results := Function.update g.results call (some result) }
  | .load key, _, g => { g with asked := g.asked ++ [[key]] }
  | .batchLoad keys, _, g => { g with asked := g.asked ++ [keys] }
  | _, _, g => g

/-- What a call knows after a question. -/
def after (op : LoadOp K V E) (answer : op.Ans) (g : Solo K V E) : Solo K V E :=
  { learn op answer g with holding := Holding.after op answer g.holding }

/-- The flight of a key, while the call has it. -/
def Flies (g : Solo K V E) (key : K) (call : Nat) : Prop :=
  call ∈ g.holding.owned ∧ (key, call) ∈ g.holding.won

omit [DecidableEq K] in
/-- A call keeps to the rules of the registry, and validates what it walked to. -/
def Allowed (op : LoadOp K V E) (g : Solo K V E) : Prop :=
  Holding.Allowed op g.holding ∧ match op with
    | .validate key seen => (key, seen) ∈ g.seen
    | _ => True

/-- Memory answers with what it holds, the registry with the flights of the call itself, and everyone else
as the replies say. -/
def Possible (replies : LoadReplies K V E) : (op : LoadOp K V E) → Solo K V E → op.Ans → Prop
  | .getMemory key, g, r => r = some (g.memory key)
  | .candidate key, g, r => r = none → g.memory key = none
  | .validate key _, g, r => r = some (g.memory key)
  | .peekMemory key, g, r => r = g.memory key
  | .setMemory _ _ _, _, r => r = some ()
  | .newCall, g, id => id ∉ g.holding.mine
  | .claim key _, g, none => ∀ call, ¬ g.Flies key call
  | .claim key _, g, some winner => g.Flies key winner
  | .wait _, _, r => r = none
  | .result call, g, r => ∀ result, g.results call = some result → r = result
  | .l2Get key, _, r => r = some (replies.l2Get key)
  | .l2BatchGet keys, _, r => r = some (replies.l2BatchGet keys)
  | .l2Set key value, _, r => r = some (replies.l2Set key value)
  | .l2BatchSet items, _, r => r = some (replies.l2BatchSet items)
  | .enqueueWriteBack _ _, _, r => r = some ()
  | .reportL2Err _ _, _, r => r = some ()
  | .load key, _, r => r = some (replies.load key)
  | .batchLoad keys, _, r => r = some (replies.batchLoad keys)
  | _, _, _ => True

/-- The rules of a lone call. -/
def rules (replies : LoadReplies K V E) : Rules (LoadOp K V E) LoadOp.Ans (Solo K V E) where
  allowed := Allowed
  possible := Possible replies
  after := after

/-- What a call knows is so. -/
structure Follows (hash : K → BitVec 64) (g : Solo K V E) (w : LoadWorld K V E (SoloEnv K V)) : Prop where
  flights : Agree hash w fun _ : Unit => g.holding
  inv : w.env.memory.level.Inv
  memory : g.memory = w.env.memory.level.held
  walked : ∀ note ∈ g.seen, w.env.memory.level.Walked note.1 note.2
  results : ∀ call result, g.results call = some result →
    (w.run.flights.calls call).val = result.val ∧ (w.run.flights.calls call).err = result.err ∧
      (w.run.flights.calls call).ok = result.ok
  asked : g.asked = w.env.asked

section Answers

variable [Inhabited K] [Inhabited V] {hash : K → BitVec 64} {replies : LoadReplies K V E}
  {clock : Nat → Nat} {g : Solo K V E} {w : LoadWorld K V E (SoloEnv K V)}

omit [Inhabited K] [Inhabited V] in
/-- With one caller, what it holds is all there is to agree with. -/
theorem agree_alone {w' : LoadWorld K V E (SoloEnv K V)} {h h' : Holding K}
    (agree : Agree hash w' (Function.update (fun _ : Unit => h) () h')) : Agree hash w' fun _ : Unit => h' := by
  have same : Function.update (fun _ : Unit => h) () h' = fun _ => h' := by
    funext me
    cases me
    exact Function.update_self ..
  rwa [same] at agree

omit [DecidableEq K] [Inhabited K] [Inhabited V] in
/-- What is known about calls after one of them was forgotten. -/
theorem of_update_none {results : Nat → Option (FlightResult V E)} {forgotten call : Nat} {result : FlightResult V E}
    (settled : Function.update results forgotten none call = some result) :
    call ≠ forgotten ∧ results call = some result := by
  by_cases same : call = forgotten
  · rw [same, Function.update_self] at settled
    cases settled
  · rw [Function.update_of_ne same] at settled
    exact ⟨same, settled⟩

/-- A question that the surroundings answer, and that has nothing to do with flights. -/
theorem Follows.outside (follows : Follows hash g w) {op : LoadOp K V E} {r : op.Ans} {e : SoloEnv K V}
    (answered : replies.env clock op w.env = some (r, e))
    (direct : LoadWorld.answer hash (replies.env clock) op w = LoadWorld.outside (replies.env clock) op w)
    (quiet : Holding.after op r g.holding = g.holding)
    (results : (learn op r g).results = g.results) (inv : e.memory.level.Inv)
    (memory : (learn op r g).memory = e.memory.level.held)
    (walked : ∀ note ∈ (learn op r g).seen, e.memory.level.Walked note.1 note.2)
    (asked : (learn op r g).asked = e.asked) :
    ∃ w', LoadWorld.answer hash (replies.env clock) op w = some (r, w') ∧ Follows hash (after op r g) w' := by
  have outside : LoadWorld.outside (replies.env clock) op w = some (r, { w with env := e }) := by
    rw [LoadWorld.outside, answered]
    rfl
  refine ⟨_, direct.trans outside, agree_alone (follows.flights.outside (h := (after op r g).holding) (i := ())
    outside (.inl quiet)), inv, memory, walked, fun call result settled => ?_, asked⟩
  exact follows.results call result (by rw [← settled, ← results]; rfl)

/-- A question that teaches nothing, and changes nothing. -/
theorem Follows.idle (follows : Follows hash g w) {op : LoadOp K V E} {r : op.Ans}
    (answered : replies.env clock op w.env = some (r, w.env))
    (direct : LoadWorld.answer hash (replies.env clock) op w = LoadWorld.outside (replies.env clock) op w)
    (quiet : Holding.after op r g.holding = g.holding) (nothing : learn op r g = g) :
    ∃ w', LoadWorld.answer hash (replies.env clock) op w = some (r, w') ∧ Follows hash (after op r g) w' := by
  refine follows.outside answered direct quiet ?_ follows.inv ?_ ?_ ?_
  · rw [nothing]
  · rw [nothing]
    exact follows.memory
  · rw [nothing]
    exact follows.walked
  · rw [nothing]
    exact follows.asked

/-- A lookup that loses nothing. -/
theorem Follows.lookup (follows : Follows hash g w) {op : LoadOp K V E} {r : op.Ans} {m : ClockedLevel K V}
    (answered : replies.env clock op w.env = some (r, { w.env with memory := m }))
    (direct : LoadWorld.answer hash (replies.env clock) op w = LoadWorld.outside (replies.env clock) op w)
    (quiet : Holding.after op r g.holding = g.holding) (nothing : learn op r g = g)
    (consults : w.env.memory.level.Consults m.level) :
    ∃ w', LoadWorld.answer hash (replies.env clock) op w = some (r, w') ∧ Follows hash (after op r g) w' := by
  refine follows.outside answered direct quiet ?_ consults.inv ?_ ?_ ?_
  · rw [nothing]
  · rw [nothing]
    exact follows.memory.trans consults.held.symm
  · rw [nothing]
    exact fun note member => (follows.walked note member).consults consults
  · rw [nothing]
    exact follows.asked

/-- Where nothing disturbs a call, it is answered by its rules. -/
theorem Follows.answers (follows : Follows hash g w) (op : LoadOp K V E) (allowed : Allowed op g)
    (undisturbed : Undisturbed clock op w) :
    ∃ r w', LoadWorld.answer hash (replies.env clock) op w = some (r, w') ∧ Possible replies op g r ∧
      Follows hash (after op r g) w' := by
  have ⟨agree, inv, memory, walked, results, asked⟩ := follows
  have answer : ∀ {r : op.Ans}, Possible replies op g r →
      (∃ w', LoadWorld.answer hash (replies.env clock) op w = some (r, w') ∧ Follows hash (after op r g) w') →
      ∃ r w', LoadWorld.answer hash (replies.env clock) op w = some (r, w') ∧ Possible replies op g r ∧
        Follows hash (after op r g) w' :=
    fun possible ⟨w', answered, follows'⟩ => ⟨_, w', answered, possible, follows'⟩
  cases op with
  | getMemory key =>
    obtain ⟨m, ran, consults⟩ := w.env.memory.getMemory_consults inv undisturbed
    refine answer (congrArg some (congrFun memory key).symm) (follows.lookup ?_ rfl rfl rfl consults)
    rw [LoadReplies.env, ran]
    rfl
  | candidate key =>
    obtain ⟨found, ran, absent, noted⟩ := w.env.memory.candidate_walked inv key
    have asks : replies.env clock (.candidate key) w.env = some (found, w.env) := by
      rw [LoadReplies.env, ran]
      rfl
    refine answer (r := found) (fun none => (congrFun memory key).trans (absent none)) ?_
    cases found with
    | none => exact follows.idle asks rfl rfl rfl
    | some seen =>
      refine follows.outside asks rfl rfl rfl inv memory (fun note member => ?_) asked
      rcases List.mem_cons.mp member with rfl | before
      · exact noted seen rfl
      · exact walked note before
  | validate key seen =>
    obtain ⟨m, ran, consults⟩ := w.env.memory.validate_consults inv undisturbed.1 (walked _ allowed.2) undisturbed.2
    refine answer (congrArg some (congrFun memory key).symm) (follows.lookup ?_ rfl rfl rfl consults)
    rw [LoadReplies.env, ran]
    rfl
  | peekMemory key =>
    obtain ⟨found, ran, decides⟩ := (inv.shard key).peekMemory key
    have same : found = g.memory key := by
      rw [memory]
      refine Option.ext fun value => ?_
      rw [decides, inv.held_eq_some]
      rfl
    refine answer same (follows.idle ?_ rfl rfl rfl)
    rw [LoadReplies.env, ran]
  | expireOffset => exact answer trivial (follows.outside rfl rfl rfl rfl inv memory walked asked)
  | setMemory key value expireOff =>
    obtain ⟨m, ran, inv', held⟩ := w.env.memory.setMemory_held inv undisturbed
    refine answer (r := some ()) rfl (follows.outside (e := { w.env with memory := m }) ?_ rfl rfl rfl inv' ?_ nofun asked)
    · rw [LoadReplies.env, ran]
      rfl
    · rw [held, ← memory]
      rfl
  | newCall =>
    refine ⟨w.next, _, rfl, fun mine => absurd ((agree.fits ()).old _ mine) (lt_irrefl _),
      agree_alone (agree.newCall ()), inv, memory, walked, fun call result settled => ?_, asked⟩
    obtain ⟨apart, before⟩ := of_update_none settled
    rw [show (w.run.putCall w.next .zero).flights.calls call = w.run.flights.calls call from
      Function.update_of_ne apart _ _]
    exact results call result before
  | claim key call =>
    obtain ⟨r, w', answered, agree', env, _, same, claimed⟩ := agree.claim (replies.env clock) key allowed.1
    refine ⟨r, w', answered, ?_, agree_alone agree', by rw [env]; exact inv, by rw [env]; exact memory,
      by rw [env]; exact walked, fun other result settled => ?_, by rw [env]; exact asked⟩
    · -- What is unreleased are the flights the call owns.
      rcases claimed with ⟨winner, rfl, taken, _⟩ | ⟨rfl, free, _⟩
      · obtain ⟨_, owned, won⟩ := (agree.held winner key).mp taken
        exact ⟨owned, won⟩
      · exact fun other flies => free other ((agree.held other key).mpr ⟨(), flies⟩)
    · obtain ⟨apart, before⟩ := of_update_none settled
      obtain ⟨val, err, ok, _⟩ := same other apart
      rw [val, err, ok]
      exact results other result before
  | release call =>
    obtain ⟨w', answered, agree', env, _, _, others, own⟩ := agree.release (replies.env clock) allowed.1
    refine ⟨(), w', answered, trivial, agree_alone agree', by rw [env]; exact inv, by rw [env]; exact memory,
      by rw [env]; exact walked, fun other result settled => ?_, by rw [env]; exact asked⟩
    have kept := results other result settled
    by_cases same : other = call
    · subst same
      rw [own]
      exact kept
    · rw [others other same]
      exact kept
  | settle call result =>
    refine ⟨(), _, rfl, trivial, agree.settle call result, inv, memory, walked, fun other kept settled => ?_, asked⟩
    have written : Function.update g.results call (some result) other = some kept := settled
    simp only [FlightRun.putCall, Flights.putCall]
    by_cases same : other = call
    · subst same
      rw [Function.update_self, Option.some_inj] at written
      simp [written]
    · rw [Function.update_of_ne same] at written ⊢
      exact results other kept written
  | wait call =>
    -- A flight that was handed over and is not owned any more is finished.
    have finished : (w.run.flights.calls call).finished = true := by
      obtain ⟨old, joined⟩ := (agree.fits ()).handed call allowed.1.1
      refine (agree.woken call old joined).resolve_left fun held => held (agree.unreleased_eq_none fun _ owned => ?_)
      rw [allowed.1.2] at owned
      cases owned
    refine ⟨none, w, ?_, rfl, follows⟩
    simp only [LoadWorld.answer, LoadWorld.outside, LoadReplies.env, Option.map_some, finished, if_true]
  | result call =>
    refine ⟨_, w, rfl, fun result settled => ?_, follows⟩
    obtain ⟨val, err, ok⟩ := results call result settled
    rw [val, err, ok]
  | l2Get => exact answer rfl (follows.idle rfl rfl rfl rfl)
  | l2BatchGet => exact answer rfl (follows.idle rfl rfl rfl rfl)
  | l2Set => exact answer rfl (follows.idle rfl rfl rfl rfl)
  | l2BatchSet => exact answer rfl (follows.idle rfl rfl rfl rfl)
  | enqueueWriteBack => exact answer rfl (follows.idle rfl rfl rfl rfl)
  | reportL2Err => exact answer rfl (follows.idle rfl rfl rfl rfl)
  | load key => 
    refine answer rfl (follows.outside rfl rfl rfl rfl inv memory walked ?_)
    exact congrArg (· ++ [[key]]) asked
  | batchLoad keys =>
    refine answer rfl (follows.outside rfl rfl rfl rfl inv memory walked ?_)
    exact congrArg (· ++ [keys]) asked
  | closing => exact answer trivial (follows.idle rfl rfl rfl rfl)

omit [Inhabited K] [Inhabited V] in
theorem Follows.start (idle : Agree hash w fun _ : Unit => .start) (inv : w.env.memory.level.Inv) :
    Follows hash (.start w.env.memory.level.held w.env.asked) w :=
  ⟨idle, inv, rfl, nofun, nofun, rfl⟩

/-- A call that nothing disturbs ends as its rules say. -/
theorem Follows.run {α : Type} {p : Load K V E α} {post : Option α → Solo K V E → Prop}
    (follows : Follows hash g w) (ensures : Ensures (rules replies) p post g)
    (undisturbed : Always (LoadWorld.answer hash (replies.env clock)) (Undisturbed clock) p w) :
    ∃ out g' w', Programs.run (LoadWorld.answer hash (replies.env clock)) p w
      = (out.elim .panicked .returned, w') ∧ post out g' ∧ Follows hash g' w' :=
  Ensures.run (fun op _ _ follows allowed undisturbed => follows.answers op allowed undisturbed) ensures follows
    undisturbed

end Answers

end Solo

end Memstash
