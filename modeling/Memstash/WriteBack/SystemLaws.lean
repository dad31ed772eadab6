import Memstash.WriteBack.System

/-! What the two levels keep: every queue's tasks in order, and every client's writes. -/

namespace Memstash

open Traces

variable {K V σ : Type}

namespace Happening

/-- What a queue accepted in a step. -/
def sent (queue : Nat) : Happening K V → List (Effect K V)
  | accepted _ into write => if into = queue then [write.effect] else []
  | _ => []

/-- What the worker of a queue handed over in a step. -/
def handed (queue : Nat) : Happening K V → List (Effect K V)
  | worked by' events => if by' = queue then events.flatMap Event.effects else []
  | _ => []

/-- What a client gave to a queue or handed over itself in a step. -/
def issued (client : Nat) : Happening K V → List (Effect K V)
  | accepted from' _ write => if from' = client ∧ write.flush = none then [write.effect] else []
  | made by' events => if by' = client then events.flatMap Event.effects else []
  | _ => []

end Happening

/-- What a call asks of the second level under the policy. -/
def Call.effects (cfg : SystemConfig K) (call : Call K V) : List (Effect K V) :=
  if cfg.policy = .writeDisabled then [] else
    match call with
    | set key value ttl => [.set key value ttl]
    | batchSet items => items.map fun (key, value) => .set key value cfg.ttl
    | delete key => [.delete key]
    | batchDelete keys => keys.map .delete
    | get _ => []
    | wait => []

/-- What the calls of a client that returned in a step had asked for. -/
def Happening.settled (cfg : SystemConfig K) (client : Nat) : Happening K V → List (Effect K V)
  | returned by' call _ => if by' = client then call.effects cfg else []
  | _ => []

/-- What a handoff is still to give to the second level. -/
def Handoff.effects : Handoff K V → List (Effect K V)
  | skip => []
  | direct call => call.effects
  | enqueue writes => writes.map L2Write.effect

/-- What a call is still to give to the second level. -/
def Stage.owed : Stage K V → List (Effect K V)
  | store _ handoff | check _ handoff | remove _ _ handoff | forward handoff => handoff.effects
  | send write rest | sync write rest => write.effect :: rest.map L2Write.effect
  | read _ | readL2 _ | promote _ _ | mark _ _ | await _ _ | finish _ => []

/-- The tasks of a handoff. -/
def Handoff.writes : Handoff K V → List (L2Write K V)
  | skip | direct _ => []
  | enqueue writes => writes

/-- The tasks of a call that are not yet in a queue. -/
def Stage.writes : Stage K V → List (L2Write K V)
  | store _ handoff | check _ handoff | remove _ _ handoff | forward handoff => handoff.writes
  | send write rest | sync write rest => write :: rest
  | read _ | readL2 _ | promote _ _ | mark _ _ | await _ _ | finish _ => []

@[simp] theorem writeTask_effect (key : K) (value : V) (ttl : Int) :
    (writeTask key value ttl).effect = .set key value ttl := rfl

@[simp] theorem deleteTask_effect [Inhabited V] (key : K) :
    (deleteTask key : L2Write K V).effect = .delete key := rfl

@[simp] theorem checkpointTask_effect [Inhabited K] [Inhabited V] (marker : Marker) :
    (TwoLevel.checkpointTask marker : L2Write K V).effect = .checkpoint marker := rfl

theorem L2Write.call_effects {write : L2Write K V} (task : write.flush = none) :
    write.call.effects = [write.effect] := by
  unfold L2Write.call L2Write.effect
  rw [task]
  cases write.del <;> rfl

section Start

variable [Inhabited V]

/-- A call starts owing all it asks for. -/
theorem Call.start_owed (cfg : SystemConfig K) (waiter : Nat) (call : Call K V) :
    (call.start cfg waiter).owed = call.effects cfg := by
  have handed : ∀ (direct : L2Call K V) (writes : List (L2Write K V)),
      writes.map L2Write.effect = direct.effects →
      (cfg.handoff direct writes).effects
        = if cfg.policy = .writeDisabled then [] else direct.effects := by
    intro direct writes same
    unfold SystemConfig.handoff
    cases cfg.policy <;> simp [Handoff.effects, same]
  cases call with
  | set key value ttl => exact handed _ _ rfl
  | batchSet items =>
    cases items with
    | nil => simp [start, Stage.owed, effects]
    | cons item items => exact handed _ _ (by simp [L2Call.effects])
  | delete key => exact handed _ _ rfl
  | batchDelete keys =>
    cases keys with
    | nil => simp [start, Stage.owed, effects]
    | cons key keys => exact handed _ _ (by simp [L2Call.effects])
  | get key => simp [start, Stage.owed, effects]
  | wait => simp [start, Stage.owed, effects]

/-- A call hands on writes and deletes, no checkpoints. -/
theorem Call.start_writes (cfg : SystemConfig K) (waiter : Nat) (call : Call K V) :
    ∀ write ∈ (call.start cfg waiter).writes, write.flush = none := by
  have handed : ∀ (direct : L2Call K V) (writes : List (L2Write K V)),
      (∀ write ∈ writes, write.flush = none) →
      ∀ write ∈ (cfg.handoff direct writes).writes, write.flush = none := by
    intro direct writes plain
    unfold SystemConfig.handoff
    cases cfg.policy <;> simp_all [Handoff.writes]
  cases call with
  | set key value ttl => exact handed _ _ (by simp [writeTask])
  | batchSet items =>
    cases items with
    | nil => simp [start, Stage.writes]
    | cons item items =>
      refine handed _ _ fun write member => ?_
      obtain ⟨item, _, rfl⟩ := List.mem_map.mp member
      rfl
  | delete key => exact handed _ _ (by simp [deleteTask])
  | batchDelete keys =>
    cases keys with
    | nil => simp [start, Stage.writes]
    | cons key keys =>
      refine handed _ _ fun write member => ?_
      obtain ⟨key, _, rfl⟩ := List.mem_map.mp member
      rfl
  | get key => simp [start, Stage.writes]
  | wait => simp [start, Stage.writes]

end Start

/-- Whether `Close` has seen all workers return. -/
def Closer.Joined : Closer → Prop
  | notCalled | joining => False
  | draining _ | returned => True

namespace TwoLevel

theorem writeQueueOf_lt (cfg : SystemConfig K) (key : K) : cfg.writeQueueOf key < cfg.workers := by
  unfold WriteBackConfig.writeQueueOf
  split
  · exact cfg.workersPos
  · exact Nat.mod_lt _ cfg.workersPos

/-- What a step does to the queues, the workers and the second level. -/
inductive Stirs (cfg : SystemConfig K) (adapter : Adapter K V σ) (s : TwoLevel K V σ) :
    Happening K V → TwoLevel K V σ → Prop
  /-- A queue takes a task. -/
  | accept {client queue write s'} (within : queue < cfg.workers)
      (routed : write.flush = none → queue = cfg.writeQueueOf write.key)
      (queues : s'.queues = Function.update s.queues queue (s.queues queue ++ [write]))
      (workers : s'.workers = s.workers) (l2 : s'.l2 = s.l2) (released : s'.released = s.released)
      (stop : s'.stop = s.stop) (closer : s'.closer = s.closer) :
    Stirs cfg adapter s (.accepted client queue write) s'
  /-- A client calls the adapter itself. -/
  | make {client events call s'} (queues : s'.queues = s.queues) (workers : s'.workers = s.workers)
      (l2 : s'.l2 = (adapter.call s.l2 call).1)
      (carried : events.flatMap Event.effects = call.effects)
      (released : s'.released = s.released) (stop : s'.stop = s.stop) (closer : s'.closer = s.closer) :
    Stirs cfg adapter s (.made client events) s'
  /-- A worker takes a step. -/
  | work {queue p events s'} (within : queue < cfg.workers)
      (turn : (s.pipe queue).Turn cfg.toWriteBackConfig adapter s.stop p events)
      (queues : s'.queues = Function.update s.queues queue p.queue)
      (workers : s'.workers = Function.update s.workers queue p.worker) (l2 : s'.l2 = p.l2)
      (released : s'.released = s.released ++ markers events) (stop : s'.stop = s.stop)
      (closer : s'.closer = s.closer) :
    Stirs cfg adapter s (.worked queue events) s'
  /-- No task moves; a worker may be called back while the cache closes. -/
  | rest {label s'} (sent : ∀ queue, Happening.sent queue label = [])
      (handed : ∀ queue, Happening.handed queue label = [])
      (issued : ∀ client, Happening.issued client label = [])
      (queues : s'.queues = s.queues)
      (workers : ∀ queue, s'.workers queue = s.workers queue ∨
        s.workers queue = .done ∧ s'.workers queue = .idle)
      (l2 : s'.l2 = s.l2) (released : s'.released = s.released) (stop : s.stop = true → s'.stop = true)
      (closer : s'.closer.Joined → s.closer.Joined ∨ ∀ queue < cfg.workers, s.workers queue = .done) :
    Stirs cfg adapter s label s'

/-- The parts of the state that no step of a client changes. -/
structure Unmoved (s s' : TwoLevel K V σ) : Prop where
  workers : s'.workers = s.workers
  released : s'.released = s.released
  stop : s'.stop = s.stop
  closer : s'.closer = s.closer
  clients : s'.clients = s.clients
  calls : s'.calls = s.calls

section Order

variable {cfg : SystemConfig K} {adapter : Adapter K V σ} {s s' : TwoLevel K V σ}
  {label : Happening K V}

/-- The queues lose nothing: what each accepted was handed over in order, or is pending. -/
def InOrder (labels : List (Happening K V)) (s : TwoLevel K V σ) : Prop :=
  ∀ queue, labels.flatMap (Happening.sent queue) =
    labels.flatMap (Happening.handed queue) ++ (s.pipe queue).pending

/-- Deliveries that never panic keep the queues in order. -/
theorem Stirs.inOrder (stirs : Stirs cfg adapter s label s')
    (kept : ∀ queue, ¬ (s.pipe queue).Drops cfg.toWriteBackConfig adapter)
    {labels : List (Happening K V)} (order : InOrder labels s) : InOrder (labels ++ [label]) s' := by
  intro queue
  rw [List.flatMap_append, List.flatMap_append, List.flatMap_singleton, List.flatMap_singleton,
    order queue]
  cases stirs with
  | @accept client into write _ within routed queues workers =>
    by_cases here : into = queue
    · subst here
      simp [Happening.sent, Happening.handed, Pipe.pending, pipe, queues, workers]
    · simp [Happening.sent, Happening.handed, Pipe.pending, pipe, queues, workers, here, Ne.symm here]
  | make queues workers =>
    simp [Happening.sent, Happening.handed, Pipe.pending, pipe, queues, workers]
  | @work by' p events _ within turn queues workers =>
    by_cases here : by' = queue
    · subst here
      have moved := turn.pending (kept by')
      rw [moved]
      simp [Happening.sent, Happening.handed, Pipe.pending, pipe, queues, workers]
    · simp [Happening.sent, Happening.handed, Pipe.pending, pipe, queues, workers, here, Ne.symm here]
  | rest sent handed issued queues workers =>
    rw [sent, handed, List.append_nil, List.append_nil]
    -- A worker that is called back has nothing in hand, before and after.
    have same : (s'.workers queue).held = (s.workers queue).held := by
      rcases workers queue with same | ⟨gone, back⟩
      · rw [same]
      · rw [gone, back]
        rfl
    rw [Pipe.pending, Pipe.pending, pipe, pipe, same, queues]

end Order

section Steps

variable [Inhabited K] [Inhabited V] [DecidableEq K] {cfg : SystemConfig K} {adapter : Adapter K V σ}
  {s s' : TwoLevel K V σ} {label : Happening K V}

theorem ClientStep.frame {client : Nat} {call : Call K V} {stage : Stage K V} {next : Client K V}
    (stepped : ClientStep cfg adapter s client call stage label s' next) : Unmoved s s' := by
  cases stepped <;> exact ⟨rfl, rfl, rfl, rfl, rfl, rfl⟩

/-- A client gives a task to a queue, makes a call itself or moves no task. -/
theorem ClientStep.stirs {client : Nat} {call : Call K V} {stage : Stage K V} {next : Client K V}
    (stepped : ClientStep cfg adapter s client call stage label s' next) :
    Stirs cfg adapter s label (s'.turn client next) := by
  cases stepped with
  | send room =>
    exact .accept (writeQueueOf_lt cfg _) (fun _ => rfl) rfl rfl rfl rfl rfl rfl
  | mark within room => exact .accept within nofun rfl rfl rfl rfl rfl rfl
  | direct => exact .make rfl rfl rfl (by simp [Event.effects]) rfl rfl rfl
  | @sync write rest l2 events panicked ran =>
    obtain ⟨reports, flag, made, quiet⟩ := deliverCall_events cfg.toWriteBackConfig adapter s.l2 write.call
    rw [made] at ran
    cases ran
    exact .make rfl rfl rfl (by simp [Event.effects, quiet]) rfl rfl rfl
  | store | stored | missing | present | remove | checked | skip | enqueued | running | stopped | full
  | hit | miss | absent | found | promote | markStopped | marked | await | awaitStopped | awaited
  | finish =>
    exact .rest (fun _ => rfl) (fun _ => rfl) (fun _ => rfl) rfl (fun _ => .inl rfl) rfl rfl id .inl

/-- Every step moves tasks in one of these ways. -/
theorem Step.stirs (stepped : Step cfg adapter s label s') : Stirs cfg adapter s label s' := by
  cases stepped with
  | begin caller call free =>
    exact .rest (fun _ => rfl) (fun _ => rfl) (fun _ => rfl) rfl (fun _ => .inl rfl) rfl rfl id .inl
  | client caller busy stepped => exact stepped.stirs
  | evict forgets =>
    exact .rest (fun _ => rfl) (fun _ => rfl) (fun _ => rfl) rfl (fun _ => .inl rfl) rfl rfl id .inl
  | work queue within stepped => exact .work within (Pipe.turn_of_step stepped) rfl rfl rfl rfl rfl rfl
  | close first =>
    exact .rest (fun _ => rfl) (fun _ => rfl) (fun _ => rfl) rfl (fun _ => .inl rfl) rfl rfl
      (fun _ => rfl) nofun
  | joined joining gone =>
    exact .rest (fun _ => rfl) (fun _ => rfl) (fun _ => rfl) rfl (fun _ => .inl rfl) rfl rfl id
      fun _ => .inr gone
  | @drain queue draining within gone left =>
    refine .rest (fun _ => rfl) (fun _ => rfl) (fun _ => rfl) rfl (fun other => ?_) rfl rfl id .inl
    by_cases same : other = queue
    · subst same
      exact .inr ⟨gone, by simp⟩
    · exact .inl (by simp [same])
  | drained draining within gone empty =>
    refine .rest (fun _ => rfl) (fun _ => rfl) (fun _ => rfl) rfl (fun _ => .inl rfl) rfl rfl id
      fun _ => .inl ?_
    rw [draining]
    trivial
  | closed draining =>
    refine .rest (fun _ => rfl) (fun _ => rfl) (fun _ => rfl) rfl (fun _ => .inl rfl) rfl rfl id
      fun _ => .inl ?_
    rw [draining]
    trivial

/-- What a client gave to the second level is what its returned calls asked for, and a part of what
its present call asks for. -/
def Owing (cfg : SystemConfig K) (labels : List (Happening K V)) (client : Nat) : Client K V → Prop
  | .free => labels.flatMap (Happening.issued client) = labels.flatMap (Happening.settled cfg client)
  | .busy call stage => ∃ part,
    labels.flatMap (Happening.issued client) = labels.flatMap (Happening.settled cfg client) ++ part ∧
    call.effects cfg = part ++ stage.owed ∧ ∀ write ∈ stage.writes, write.flush = none

omit [Inhabited K] [Inhabited V] [DecidableEq K] in
/-- A step a client takes no part in leaves its account as it is. -/
theorem Owing.silent {labels : List (Happening K V)} {client : Nat} {at' : Client K V}
    (owing : Owing cfg labels client at') (unissued : label.issued client = [])
    (unsettled : label.settled cfg client = []) : Owing cfg (labels ++ [label]) client at' := by
  cases at' with
  | free =>
    unfold Owing at owing ⊢
    simpa [unissued, unsettled] using owing
  | busy call stage =>
    obtain ⟨part, issued, asked, plain⟩ := owing
    exact ⟨part, by simpa [unissued, unsettled] using issued, asked, plain⟩

/-- A client's step is no part of another client's account. -/
theorem ClientStep.others {client other : Nat} {call : Call K V} {stage : Stage K V}
    {next : Client K V} (stepped : ClientStep cfg adapter s client call stage label s' next)
    (apart : other ≠ client) : label.issued other = [] ∧ label.settled cfg other = [] := by
  cases stepped <;> simp [Happening.issued, Happening.settled, Ne.symm apart]

/-- Where no call of the adapter panics, a client's step keeps its account. -/
theorem ClientStep.owing (calm : ∀ l2 call, (deliverCall cfg.toWriteBackConfig adapter l2 call).2.2 = false)
    {labels : List (Happening K V)} {client : Nat} {call : Call K V} {stage : Stage K V}
    {next : Client K V} (stepped : ClientStep cfg adapter s client call stage label s' next)
    (owing : Owing cfg labels client (.busy call stage)) : Owing cfg (labels ++ [label]) client next := by
  obtain ⟨part, issued, asked, plain⟩ := owing
  cases stepped with
  | @direct write =>
    have returns : (adapter.call s.l2 write).2 ≠ .panicked := by
      intro panics
      have quiet := calm s.l2 write
      rw [deliverCall, panics] at quiet
      cases quiet
    rw [if_neg returns]
    refine ⟨part ++ write.effects, ?_, by simpa [Stage.owed, Handoff.effects] using asked, by rintro _ ⟨⟩⟩
    simp [issued, Happening.issued, Happening.settled, Event.effects]
  | @send write rest room =>
    refine ⟨part ++ [write.effect], ?_, by simpa [Stage.owed, Handoff.effects] using asked,
      fun other member => plain other (List.mem_cons_of_mem _ member)⟩
    simp [issued, Happening.issued, Happening.settled, plain write (List.mem_cons_self ..)]
  | @sync write rest l2 events panicked ran =>
    have task := plain write (List.mem_cons_self ..)
    obtain ⟨reports, flag, made, quiet⟩ := deliverCall_events cfg.toWriteBackConfig adapter s.l2 write.call
    have returns := calm s.l2 write.call
    rw [ran] at made returns
    cases made
    obtain rfl : panicked = false := returns
    refine ⟨part ++ [write.effect], ?_, by simpa [Stage.owed, Handoff.effects] using asked,
      fun other member => plain other (List.mem_cons_of_mem _ member)⟩
    simp [issued, Happening.issued, Happening.settled, Event.effects, quiet, L2Write.call_effects task]
  | mark within room =>
    refine ⟨part, ?_, asked, by rintro _ ⟨⟩⟩
    simp [issued, Happening.issued, Happening.settled, checkpointTask]
  | finish =>
    rw [Stage.owed, List.append_nil] at asked
    simp [Owing, issued, Happening.issued, Happening.settled, asked]
  | store | stored | missing | present | remove | checked | skip | enqueued | running | stopped | full
  | hit | miss | absent | found | promote | markStopped | marked | await | awaitStopped | awaited =>
    exact ⟨part, by simpa [Happening.issued, Happening.settled] using issued, asked, plain⟩

/-- Where no call of the adapter panics, every step keeps every client's account. -/
theorem Step.owing (calm : ∀ l2 call, (deliverCall cfg.toWriteBackConfig adapter l2 call).2.2 = false)
    {labels : List (Happening K V)} (stepped : Step cfg adapter s label s')
    (owing : ∀ client, Owing cfg labels client (s.clients client)) (client : Nat) :
    Owing cfg (labels ++ [label]) client (s'.clients client) := by
  cases stepped with
  | @begin caller call free =>
    by_cases same : client = caller
    · subst same
      have before := owing client
      rw [free] at before
      show Owing cfg _ client ((s.turn client (.busy call (call.start cfg s.calls))).clients client)
      rw [turn_self]
      refine ⟨[], ?_, by rw [Call.start_owed, List.nil_append], Call.start_writes cfg s.calls call⟩
      simpa [Owing, Happening.issued, Happening.settled] using before
    · show Owing cfg _ client ((s.turn caller (.busy call (call.start cfg s.calls))).clients client)
      rw [turn_of_ne s same]
      exact (owing client).silent rfl rfl
  | @client caller call stage _ s' next busy stepped =>
    by_cases same : client = caller
    · subst same
      have before := owing client
      rw [busy] at before
      rw [turn_self]
      exact stepped.owing calm before
    · have apart := stepped.others same
      rw [turn_of_ne s' same, stepped.frame.clients]
      exact (owing client).silent apart.1 apart.2
  | evict | work | close | joined | drain | drained | closed => exact (owing client).silent rfl rfl

end Steps

end TwoLevel

end Memstash
