import Memstash.WriteBack.Barriers

/-! The order of one key's writes at the second level, which a full queue can break. -/

namespace Memstash

open Traces

variable {K V σ : Type}

namespace Effect

/-- Whether an effect concerns a key. -/
def Touches (key : K) : Effect K V → Prop
  | set written _ _ => written = key
  | delete removed => removed = key
  | checkpoint _ => False

/-- What an effect leaves of the key it concerns. -/
def outcome : Effect K V → Option V
  | set _ value _ => some value
  | delete _ | checkpoint _ => none

variable [DecidableEq K]

/-- What an effect makes of the entry of a key. -/
def on (key : K) (entry : Option V) : Effect K V → Option V
  | set written value _ => if written = key then some value else entry
  | delete removed => if removed = key then none else entry
  | checkpoint _ => entry

theorem on_of_touches {key : K} {effect : Effect K V} (touches : effect.Touches key)
    (entry : Option V) : effect.on key entry = effect.outcome := by
  cases effect with
  | set => exact if_pos touches
  | delete => exact if_pos touches
  | checkpoint => exact touches.elim

theorem on_of_not_touches {key : K} {effect : Effect K V} (apart : ¬ effect.Touches key)
    (entry : Option V) : effect.on key entry = entry := by
  cases effect with
  | set => exact if_neg apart
  | delete => exact if_neg apart
  | checkpoint => rfl

/-- What effects in a row make of the entry of a key. -/
def settle (key : K) (entry : Option V) (effects : List (Effect K V)) : Option V :=
  effects.foldl (fun entry effect => effect.on key entry) entry

theorem settle_append (key : K) (entry : Option V) (first second : List (Effect K V)) :
    settle key entry (first ++ second) = settle key (settle key entry first) second :=
  List.foldl_append ..

/-- Effects on other keys leave the entry alone. -/
theorem settle_of_untouched {key : K} {effects : List (Effect K V)}
    (apart : ∀ effect ∈ effects, ¬ effect.Touches key) (entry : Option V) :
    settle key entry effects = entry := by
  induction effects generalizing entry with
  | nil => rfl
  | cons effect rest ih =>
    rw [settle, List.foldl_cons, on_of_not_touches (apart effect (List.mem_cons_self ..))]
    exact ih (fun other member => apart other (List.mem_cons_of_mem _ member)) entry

/-- The last effect on a key decides its entry. -/
theorem settle_last {key : K} {earlier later : List (Effect K V)} {effect : Effect K V}
    (touches : effect.Touches key) (apart : ∀ effect ∈ later, ¬ effect.Touches key)
    (entry : Option V) : settle key entry (earlier ++ effect :: later) = effect.outcome := by
  rw [settle_append, settle, List.foldl_cons, on_of_touches touches]
  exact settle_of_untouched apart _

end Effect

open Effect

/-- A second level that never fails and holds an entry for every key, which the calls on it decide. -/
structure Adapter.Keyed [DecidableEq K] (adapter : Adapter K V σ) (entry : σ → K → Option V) : Prop
    extends adapter.Orderly where
  carried : ∀ l2 effect key, entry (adapter.carry l2 effect) key = effect.on key (entry l2 key)
  reads : ∀ l2 key, adapter.get l2 key = entry l2 key

section Keyed

variable [DecidableEq K] {adapter : Adapter K V σ} {entry : σ → K → Option V}

/-- A row of effects decides the entries. -/
theorem Adapter.Keyed.entry_foldl (keyed : adapter.Keyed entry) (l2 : σ) (key : K)
    (effects : List (Effect K V)) :
    entry (effects.foldl adapter.carry l2) key = settle key (entry l2 key) effects := by
  induction effects generalizing l2 with
  | nil => rfl
  | cons effect rest ih =>
    rw [List.foldl_cons, ih, keyed.carried]
    rfl

/-- A map of entries is such a second level. -/
theorem mapAdapter_keyed :
    (mapAdapter : Adapter K V _).Keyed fun l2 key => (l2 key).map Prod.fst where
  toOrderly := mapAdapter_orderly
  carried l2 effect key := by
    cases effect with
    | set written value ttl =>
      by_cases same : written = key
      · subst same
        simp [Adapter.carry, mapAdapter, Effect.on]
      · simp [Adapter.carry, mapAdapter, Effect.on, same, Function.update_of_ne (Ne.symm same)]
    | delete removed =>
      by_cases same : removed = key
      · subst same
        simp [Adapter.carry, mapAdapter, Effect.on]
      · simp [Adapter.carry, mapAdapter, Effect.on, same, Function.update_of_ne (Ne.symm same)]
    | checkpoint => rfl
  reads _ _ := rfl

end Keyed

/-- What a client's calls asked for, from when they began. -/
def Happening.asked (cfg : SystemConfig K) (client : Nat) : Happening K V → List (Effect K V)
  | began by' call => if by' = client then call.effects cfg else []
  | _ => []

/-- What any client gave to a queue or handed over itself in a step. -/
def Happening.given : Happening K V → List (Effect K V)
  | accepted _ _ write => [write.effect]
  | made _ events => events.flatMap Event.effects
  | _ => []

/-- A step that moves no task gives nothing. -/
theorem Happening.given_of_silent {label : Happening K V} (sent : ∀ queue, label.sent queue = [])
    (issued : ∀ client, label.issued client = []) : label.given = [] := by
  cases label with
  | accepted client queue write =>
    have none := sent queue
    rw [Happening.sent, if_pos rfl] at none
    cases none
  | made client events =>
    have none := issued client
    rwa [Happening.issued, if_pos rfl] at none
  | began | looked | worked | returned | closing | internal => rfl

namespace TwoLevel

variable [Inhabited K] [Inhabited V] [DecidableEq K] {cfg : SystemConfig K} {adapter : Adapter K V σ}
  {entry : σ → K → Option V} {s s' : TwoLevel K V σ} {label : Happening K V}
  {labels : List (Happening K V)} {key : K} {client : Nat} {start : Option V}

/-- A client writes the key alone, and no call on the key is made past a task for it that waits in a
queue or in the hands of a worker. -/
def Alone (cfg : SystemConfig K) (key : K) (client : Nat) (s : TwoLevel K V σ) :
    Happening K V → Prop
  | .began by' call => by' = client ∨ ∀ effect ∈ call.effects cfg, ¬ effect.Touches key
  | .made _ events => (∃ effect ∈ events.flatMap Event.effects, effect.Touches key) →
    ∀ effect ∈ (s.pipe (cfg.writeQueueOf key)).pending, ¬ effect.Touches key
  | _ => True

/-- What holds of one key's tasks along a trace. -/
structure Queued (cfg : SystemConfig K) (entry : σ → K → Option V) (key : K) (start : Option V)
    (labels : List (Happening K V)) (s : TwoLevel K V σ) : Prop where
  /-- The key's tasks are in one queue. -/
  routed : ∀ queue, ∀ effect ∈ (s.pipe queue).pending, effect.Touches key → queue = cfg.writeQueueOf key
  /-- Once they are through, the entry is what all that was given makes of it. -/
  target : settle key (entry s.l2 key) (s.pipe (cfg.writeQueueOf key)).pending =
    settle key start (labels.flatMap Happening.given)

omit [Inhabited K] [Inhabited V] [DecidableEq K] in
/-- A task that concerns a key is for that key, and no checkpoint. -/
theorem key_of_touches {write : L2Write K V} (touches : write.effect.Touches key) :
    write.flush = none ∧ write.key = key := by
  unfold L2Write.effect at touches
  cases flush : write.flush with
  | some marker =>
    simp only [flush] at touches
    exact touches.elim
  | none =>
    simp only [flush] at touches
    cases del : write.del with
    | true => simp only [del] at touches; exact ⟨rfl, touches⟩
    | false => simp only [del] at touches; exact ⟨rfl, touches⟩

omit [Inhabited K] [Inhabited V] in
/-- Every step that overtakes no task of the key keeps its tasks in order. -/
theorem Stirs.queued (keyed : adapter.Keyed entry) (stirs : Stirs cfg adapter s label s')
    (alone : Alone cfg key client s label) (queued : Queued cfg entry key start labels s) :
    Queued cfg entry key start (labels ++ [label]) s' := by
  -- What was given so far, and then what this step gives.
  have grown : settle key start ((labels ++ [label]).flatMap Happening.given) =
      settle key (settle key (entry s.l2 key) (s.pipe (cfg.writeQueueOf key)).pending) label.given := by
    rw [List.flatMap_append, List.flatMap_singleton, settle_append, queued.target]
  cases stirs with
  | @accept client into write _ within routed queues workers l2 =>
    have before : ∀ queue, queue ≠ into → (s'.pipe queue).pending = (s.pipe queue).pending := by
      intro queue apart
      rw [Pipe.pending, Pipe.pending, pipe, pipe, workers, queues, Function.update_of_ne apart]
    have here : (s'.pipe into).pending = (s.pipe into).pending ++ [write.effect] := by
      simp [Pipe.pending, pipe, workers, queues]
    refine ⟨fun queue effect member touches => ?_, ?_⟩
    · by_cases same : queue = into
      · subst same
        rw [here] at member
        rcases List.mem_append.mp member with old | new
        · exact queued.routed queue effect old touches
        · rw [List.mem_singleton.mp new] at touches
          obtain ⟨task, same⟩ := key_of_touches touches
          rw [routed task, same]
      · rw [before queue same] at member
        exact queued.routed queue effect member touches
    · rw [grown, l2]
      by_cases same : cfg.writeQueueOf key = into
      · rw [same, here, settle_append]
        rfl
      · -- A task in another queue is not the key's.
        have apart : ∀ effect ∈ [write.effect], ¬ effect.Touches key := by
          intro effect member touches
          rw [List.mem_singleton.mp member] at touches
          obtain ⟨task, mine⟩ := key_of_touches touches
          exact same (by rw [routed task, mine])
        rw [before _ same, Happening.given, settle_of_untouched apart]
  | @make client events call _ queues workers l2 carried =>
    have pending : ∀ queue, (s'.pipe queue).pending = (s.pipe queue).pending := by
      intro queue
      rw [Pipe.pending, Pipe.pending, pipe, pipe, workers, queues]
    refine ⟨fun queue effect member => queued.routed queue effect (pending queue ▸ member), ?_⟩
    have entry' : entry s'.l2 key = settle key (entry s.l2 key) (events.flatMap Event.effects) := by
      rw [l2, keyed.call_eq, keyed.entry_foldl, carried]
    rw [grown, pending, Happening.given, entry']
    by_cases touched : ∃ effect ∈ events.flatMap Event.effects, effect.Touches key
    · -- No task of the key waits, so the call takes effect last.
      have apart := alone touched
      rw [settle_of_untouched apart, settle_of_untouched apart]
    · have apart : ∀ effect ∈ events.flatMap Event.effects, ¬ effect.Touches key :=
        fun effect member touches => touched ⟨effect, member, touches⟩
      rw [settle_of_untouched apart, settle_of_untouched apart]
  | @work by' p events _ within turn queues workers l2 =>
    have moved := turn.pending (keyed.keeps cfg.toWriteBackConfig _)
    have other : ∀ queue, queue ≠ by' → (s'.pipe queue).pending = (s.pipe queue).pending := by
      intro queue apart
      simp [Pipe.pending, pipe, queues, workers, apart]
    have here : (s'.pipe by').pending = p.pending := by simp [Pipe.pending, pipe, queues, workers]
    have entry' : entry s'.l2 key = settle key (entry s.l2 key) (events.flatMap Event.effects) := by
      rw [l2, turn.l2_eq keyed.toOrderly, keyed.entry_foldl]
      rfl
    refine ⟨fun queue effect member touches => ?_, ?_⟩
    · by_cases same : queue = by'
      · subst same
        rw [here] at member
        exact queued.routed queue effect (moved ▸ List.mem_append_right _ member) touches
      · rw [other queue same] at member
        exact queued.routed queue effect member touches
    · have silent : Happening.given (.worked by' events : Happening K V) = [] := rfl
      rw [grown, silent, entry']
      by_cases same : cfg.writeQueueOf key = by'
      · rw [same, here, moved, settle_append]
        rfl
      · -- Another worker has no task of the key.
        have apart : ∀ effect ∈ events.flatMap Event.effects, ¬ effect.Touches key :=
          fun effect member touches =>
            same (queued.routed by' effect (moved ▸ List.mem_append_left _ member) touches).symm
        rw [other _ same, settle_of_untouched apart]
        rfl
  | rest sent handed issued queues workers l2 =>
    have pending : ∀ queue, (s'.pipe queue).pending = (s.pipe queue).pending := by
      intro queue
      have same : (s'.workers queue).held = (s.workers queue).held := by
        rcases workers queue with same | ⟨gone, back⟩
        · rw [same]
        · rw [gone, back]
          rfl
      rw [Pipe.pending, Pipe.pending, pipe, pipe, same, queues]
    refine ⟨fun queue effect member => queued.routed queue effect (pending queue ▸ member), ?_⟩
    rw [grown, Happening.given_of_silent sent issued, l2, pending]
    rfl

/-- What a client gives is what its call owes, or a checkpoint. -/
theorem ClientStep.given {call : Call K V} {stage : Stage K V} {next : Client K V}
    (stepped : ClientStep cfg adapter s client call stage label s' next)
    (plain : ∀ write ∈ stage.writes, write.flush = none) :
    ∀ effect ∈ label.given, effect.Touches key → effect ∈ stage.owed := by
  intro effect member touches
  cases stepped with
  | direct => simpa [Happening.given, Event.effects, Stage.owed, Handoff.effects] using member
  | send =>
    rw [Happening.given, List.mem_singleton] at member
    rw [member]
    exact List.mem_cons_self ..
  | @sync write rest l2 events panicked ran =>
    obtain ⟨reports, flag, made, quiet⟩ := deliverCall_events cfg.toWriteBackConfig adapter s.l2 write.call
    rw [made] at ran
    cases ran
    rw [Happening.given, List.flatMap_cons, quiet, List.append_nil, Event.effects,
      L2Write.call_effects (plain write (List.mem_cons_self ..)), List.mem_singleton] at member
    rw [member]
    exact List.mem_cons_self ..
  | mark =>
    rw [Happening.given, List.mem_singleton] at member
    rw [member] at touches
    exact touches.elim
  | store | stored | missing | present | remove | checked | skip | enqueued | running | stopped | full
  | hit | miss | absent | found | promote | markStopped | marked | await | awaitStopped | awaited
  | finish => cases member

/-- A client's own steps give what is issued in its name. -/
theorem ClientStep.given_issued {call : Call K V} {stage : Stage K V} {next : Client K V}
    (stepped : ClientStep cfg adapter s client call stage label s' next)
    (plain : ∀ write ∈ stage.writes, write.flush = none) (entry : Option V) :
    settle key entry label.given = settle key entry (label.issued client) := by
  cases stepped with
  | direct | sync => rw [Happening.given, Happening.issued, if_pos rfl]
  | send => rw [Happening.given, Happening.issued, if_pos ⟨rfl, plain _ (List.mem_cons_self ..)⟩]
  | mark => rw [Happening.given, Happening.issued, if_neg fun both => by cases both.2]; rfl
  | store | stored | missing | present | remove | checked | skip | enqueued | running | stopped | full
  | hit | miss | absent | found | promote | markStopped | marked | await | awaitStopped | awaited
  | finish => rfl

/-- What a client's calls asked for is what those that returned had asked for, and the present one. -/
def Asking (cfg : SystemConfig K) (labels : List (Happening K V)) (client : Nat) : Client K V → Prop
  | .free => labels.flatMap (Happening.asked cfg client) = labels.flatMap (Happening.settled cfg client)
  | .busy call _ => labels.flatMap (Happening.asked cfg client) =
    labels.flatMap (Happening.settled cfg client) ++ call.effects cfg

/-- One client writes the key, and the calls of the others do not concern it. -/
structure Solo (cfg : SystemConfig K) (key : K) (client : Nat) (labels : List (Happening K V))
    (s : TwoLevel K V σ) : Prop where
  others : ∀ other, other ≠ client → ∀ call stage, s.clients other = .busy call stage →
    ∀ effect ∈ call.effects cfg, ¬ effect.Touches key
  given : ∀ entry, settle key entry (labels.flatMap Happening.given) =
    settle key entry (labels.flatMap (Happening.issued client))
  asking : Asking cfg labels client (s.clients client)

omit [Inhabited K] [Inhabited V] [DecidableEq K] in
theorem Asking.silent {at' : Client K V} (asking : Asking cfg labels client at')
    (unasked : label.asked cfg client = []) (unsettled : label.settled cfg client = []) :
    Asking cfg (labels ++ [label]) client at' := by
  cases at' <;> simpa [Asking, unasked, unsettled] using asking

/-- A client's step keeps what its calls asked for, where no call of the adapter panics. -/
theorem ClientStep.asking (orderly : adapter.Orderly) {call : Call K V} {stage : Stage K V}
    {next : Client K V} (stepped : ClientStep cfg adapter s client call stage label s' next)
    (asking : Asking cfg labels client (.busy call stage)) :
    Asking cfg (labels ++ [label]) client next := by
  -- The account does not depend on how far the call has come.
  have busy : ∀ stage' : Stage K V, label.asked cfg client = [] → label.settled cfg client = [] →
      Asking cfg (labels ++ [label]) client (.busy call stage') := by
    intro stage' unasked unsettled
    have before : Asking cfg labels client (.busy call stage') := asking
    exact before.silent unasked unsettled
  cases stepped with
  | direct =>
    rw [orderly.accepts, if_neg nofun]
    exact busy _ rfl rfl
  | sync ran =>
    rw [orderly.deliverCall_eq] at ran
    cases ran
    exact busy _ rfl rfl
  | finish =>
    have before : _ = _ := asking
    simp [Asking, Happening.asked, Happening.settled, before]
  | store | stored | missing | present | remove | checked | skip | enqueued | running | stopped | send
  | full | hit | miss | absent | found | promote | mark | markStopped | marked | await | awaitStopped
  | awaited => exact busy _ rfl rfl

theorem ClientStep.unasked {other : Nat} {call : Call K V} {stage : Stage K V} {next : Client K V}
    (stepped : ClientStep cfg adapter s client call stage label s' next) :
    label.asked cfg other = [] := by
  cases stepped <;> rfl

/-- As long as the others leave the key alone, the client writes it alone. -/
theorem Step.solo (orderly : adapter.Orderly) (stepped : Step cfg adapter s label s')
    (alone : Alone cfg key client s label)
    (owing : ∀ client, Owing cfg labels client (s.clients client))
    (solo : Solo cfg key client labels s) : Solo cfg key client (labels ++ [label]) s' := by
  -- What a step gives that concerns the key is issued in the client's name.
  have grows : (∀ entry, settle key entry label.given = settle key entry (label.issued client)) →
      ∀ entry, settle key entry ((labels ++ [label]).flatMap Happening.given) =
        settle key entry ((labels ++ [label]).flatMap (Happening.issued client)) := by
    intro same entry
    rw [List.flatMap_append, List.flatMap_append, List.flatMap_singleton, List.flatMap_singleton,
      settle_append, settle_append, solo.given, same]
  cases stepped with
  | @begin caller call free =>
    refine ⟨fun other apart call' stage busy => ?_, grows fun _ => rfl, ?_⟩
    · by_cases same : other = caller
      · subst same
        have here := (turn_self s other _).symm.trans busy
        cases here
        exact (alone : _ ∨ _).resolve_left apart
      · exact solo.others other apart call' stage ((turn_of_ne s same _).symm.trans busy)
    · show Asking cfg _ client ((s.turn caller _).clients client)
      by_cases same : client = caller
      · subst same
        rw [turn_self]
        have before := solo.asking
        rw [free] at before
        have before : _ = _ := before
        simp [Asking, Happening.asked, Happening.settled, before]
      · rw [turn_of_ne s same]
        exact solo.asking.silent (by simp [Happening.asked, Ne.symm same]) rfl
  | @client caller call stage _ mid next busy stepped =>
    have account := owing caller
    rw [busy] at account
    obtain ⟨part, _, asked, plain⟩ := account
    refine ⟨fun other apart call' stage' busy' => ?_, grows fun entry => ?_, ?_⟩
    · by_cases same : other = caller
      · subst same
        rw [turn_self] at busy'
        rw [stepped.call_eq busy']
        exact solo.others other apart call stage busy
      · rw [turn_of_ne mid same, stepped.frame.clients] at busy'
        exact solo.others other apart call' stage' busy'
    · by_cases same : client = caller
      · subst same
        exact stepped.given_issued plain entry
      · -- The others owe nothing that concerns the key.
        rw [(stepped.others same).1]
        refine settle_of_untouched (fun effect member touches => ?_) entry
        have owed := stepped.given plain effect member touches
        exact solo.others caller (Ne.symm same) call stage busy effect
          (asked ▸ List.mem_append_right _ owed) touches
    · by_cases same : client = caller
      · subst same
        have before := solo.asking
        rw [busy] at before
        rw [turn_self]
        exact stepped.asking orderly before
      · rw [turn_of_ne mid same, stepped.frame.clients]
        exact solo.asking.silent stepped.unasked (stepped.others same).2
  | evict | work | close | joined | drain | drained | closed =>
    exact ⟨solo.others, grows fun _ => rfl, solo.asking.silent rfl rfl⟩

section OneClient

/-- The memory that holds one item. -/
def holding (key value : Nat) : Nat → Option Nat := fun other => if other = key then some value else none

omit [Inhabited K] [Inhabited V] [DecidableEq K] in
theorem stores_holding (key value : Nat) (memory : Nat → Option Nat) :
    Stores key value memory (holding key value) :=
  ⟨.inl (if_pos rfl), fun _ apart => .inr (if_neg apart)⟩

end OneClient

end TwoLevel

end Memstash
