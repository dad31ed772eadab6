import Memstash.WriteBack.Draining
import Memstash.WriteBack.SystemLaws

/-! `Wait` and `Close` are barriers: when they return, what was enqueued before has been handed over. -/

namespace Memstash

open Traces

variable {K V σ : Type}

/-- The `Wait` call a stage belongs to. -/
def Stage.waiter : Stage K V → Option Nat
  | mark waiter _ | await waiter _ => some waiter
  | _ => none

namespace TwoLevel

variable [Inhabited K] [Inhabited V] [DecidableEq K] {cfg : SystemConfig K} {adapter : Adapter K V σ}
  {s s' : TwoLevel K V σ} {label : Happening K V} {labels : List (Happening K V)}

/-- A client stays in its call until it returns. -/
theorem ClientStep.call_eq {client : Nat} {call call' : Call K V} {stage stage' : Stage K V}
    {next : Client K V} (stepped : ClientStep cfg adapter s client call stage label s' next)
    (still : next = .busy call' stage') : call' = call := by
  cases stepped with
  | direct =>
    split at still
    · cases still
    · cases still
      rfl
  | sync ran =>
    split at still
    · cases still
    · cases still
      rfl
  | finish => cases still
  | store | stored | missing | present | remove | checked | skip | enqueued | running | stopped | send
  | full | hit | miss | absent | found | promote | mark | markStopped | marked | await | awaitStopped
  | awaited => cases still; rfl

/-- Only a `Wait` call is in a stage of one, and only its start picks the number. -/
theorem ClientStep.waiter {client : Nat} {call : Call K V} {stage stage' : Stage K V}
    {next : Client K V} (stepped : ClientStep cfg adapter s client call stage label s' next)
    (still : next = .busy call stage') {waiter : Nat} (waits : stage'.waiter = some waiter) :
    stage.waiter = some waiter := by
  cases stepped with
  | direct =>
    split at still
    · cases still
    · cases still
      cases waits
  | sync ran =>
    split at still
    · cases still
    · cases still
      cases waits
  | finish => cases still
  | mark | marked | await => cases still; exact waits
  | store | stored | missing | present | remove | checked | skip | enqueued | running | stopped | send
  | full | hit | miss | absent | found | promote | markStopped | awaitStopped | awaited =>
    cases still
    cases waits

/-- The only checkpoints sent are those of `Wait` calls, each through its own queue. -/
theorem ClientStep.checkpoint {client : Nat} {call : Call K V} {stage : Stage K V} {next : Client K V}
    (stepped : ClientStep cfg adapter s client call stage label s' next)
    (plain : ∀ write ∈ stage.writes, write.flush = none) {queue : Nat} {marker : Marker}
    (sent : .checkpoint marker ∈ label.sent queue) :
    stage.waiter = some marker.waiter ∧ marker.queue = queue := by
  cases stepped with
  | @send write rest room =>
    simp only [Happening.sent] at sent
    split at sent
    · have same := List.mem_singleton.mp sent
      rw [L2Write.effect, plain write (List.mem_cons_self ..)] at same
      cases del : write.del <;> simp [del] at same
    · cases sent
  | mark within room =>
    simp only [Happening.sent] at sent
    split at sent
    · rename_i here
      have same := List.mem_singleton.mp sent
      rw [checkpointTask_effect] at same
      cases same
      exact ⟨rfl, here⟩
    · cases sent
  | store | stored | missing | present | remove | checked | skip | direct | enqueued | running | stopped
  | full | sync | hit | miss | absent | found | promote | marked | markStopped | await | awaitStopped
  | awaited | finish => cases sent

/-- What holds along every trace in which no delivery panics. -/
structure Flowing (cfg : SystemConfig K) (labels : List (Happening K V)) (s : TwoLevel K V σ) : Prop where
  order : InOrder labels s
  owing : ∀ client, Owing cfg labels client (s.clients client)
  /-- The checkpoints in a queue belong to it and to calls made so far. -/
  numbered : ∀ queue marker, .checkpoint marker ∈ labels.flatMap (Happening.sent queue) →
    marker.waiter < s.calls ∧ marker.queue = queue
  waiting : ∀ client call stage waiter, s.clients client = .busy call stage →
    stage.waiter = some waiter → waiter < s.calls
  /-- A released checkpoint has passed its worker. -/
  freed : ∀ marker ∈ s.released, .checkpoint marker ∈ labels.flatMap (Happening.handed marker.queue)
  /-- No worker returns before the cache is closed. -/
  working : s.stop = false → ∀ queue, s.workers queue ≠ .done
  /-- Only the workers' queues are in use. -/
  within : ∀ queue, cfg.workers ≤ queue → labels.flatMap (Happening.sent queue) = []
  /-- Only `Close` stops the workers. -/
  unclosed : s.closer = .notCalled → s.stop = false

omit [Inhabited K] [Inhabited V] [DecidableEq K] in
/-- A checkpoint released by a step was handed over in it. -/
theorem mem_effects_of_mem_markers {events : List (Event K V)} {marker : Marker}
    (member : marker ∈ markers events) : .checkpoint marker ∈ events.flatMap Event.effects := by
  obtain ⟨event, listed, closed⟩ := List.mem_filterMap.mp member
  cases event with
  | closed marker' =>
    cases closed
    exact List.mem_flatMap.mpr ⟨_, listed, List.mem_singleton_self _⟩
  | called | reported | notified => cases closed

omit [Inhabited K] [DecidableEq K] in
/-- A call that starts to wait takes the number it is given. -/
theorem start_waiter {call : Call K V} {number waiter : Nat}
    (waits : (call.start cfg number).waiter = some waiter) : waiter = number := by
  cases call with
  | wait => cases waits; rfl
  | set | delete | get => cases waits
  | batchSet items => cases items <;> cases waits
  | batchDelete keys => cases keys <;> cases waits

/-- Every step without a panic keeps the flow. -/
theorem Step.flowing
    (calm : ∀ l2 call, (deliverCall cfg.toWriteBackConfig adapter l2 call).2.2 = false)
    (stepped : Step cfg adapter s label s') (flowing : Flowing cfg labels s) :
    Flowing cfg (labels ++ [label]) s' := by
  have keeps : ∀ queue, ¬ (s.pipe queue).Drops cfg.toWriteBackConfig adapter := by
    rintro queue ⟨_, call, _, _, _, panicked⟩
    rw [calm] at panicked
    cases panicked
  have order := stepped.stirs.inOrder keeps flowing.order
  have numbered : ∀ queue marker,
      .checkpoint marker ∈ (labels ++ [label]).flatMap (Happening.sent queue) →
      marker.waiter < s'.calls ∧ marker.queue = queue := by
    intro queue marker member
    rw [List.flatMap_append, List.flatMap_singleton] at member
    rcases List.mem_append.mp member with before | now
    · obtain ⟨made, here⟩ := flowing.numbered queue marker before
      refine ⟨?_, here⟩
      cases stepped with
      | begin => exact made.trans (Nat.lt_succ_self _)
      | client caller busy stepped => exact stepped.frame.calls ▸ made
      | evict | work | close | joined | drain | drained | closed => exact made
    · cases stepped with
      | @client client call stage _ _ _ busy stepped =>
        have owing := flowing.owing client
        rw [busy] at owing
        obtain ⟨_, _, _, plain⟩ := owing
        obtain ⟨waits, here⟩ := stepped.checkpoint plain now
        exact ⟨stepped.frame.calls ▸ flowing.waiting client call stage _ busy waits, here⟩
      | begin | evict | work | close | joined | drain | drained | closed => cases now
  refine ⟨order, stepped.owing calm flowing.owing, numbered, ?_, ?_, ?_, ?_, ?_⟩
  · intro client call stage waiter busy waits
    cases stepped with
    | @begin caller called free =>
      by_cases same : client = caller
      · subst same
        have here : (s.turn client (.busy called (called.start cfg s.calls))).clients client
          = .busy call stage := busy
        rw [turn_self] at here
        cases here
        rw [start_waiter waits]
        exact Nat.lt_succ_self _
      · have here : (s.turn caller (.busy called (called.start cfg s.calls))).clients client
          = .busy call stage := busy
        rw [turn_of_ne s same] at here
        exact (flowing.waiting client call stage waiter here waits).trans (Nat.lt_succ_self _)
    | @client caller called before _ mid next at' stepped =>
      show waiter < mid.calls
      rw [stepped.frame.calls]
      by_cases same : client = caller
      · subst same
        rw [turn_self] at busy
        -- The number was picked when the call started.
        obtain rfl := stepped.call_eq busy
        exact flowing.waiting client call before waiter at' (stepped.waiter busy waits)
      · rw [turn_of_ne mid same, stepped.frame.clients] at busy
        exact flowing.waiting client call stage waiter busy waits
    | evict | work | close | joined | drain | drained | closed =>
      exact flowing.waiting client call stage waiter busy waits
  · intro marker member
    rw [List.flatMap_append, List.flatMap_singleton]
    have old : marker ∈ s.released → .checkpoint marker ∈
        labels.flatMap (Happening.handed marker.queue) ++ label.handed marker.queue :=
      fun member => List.mem_append_left _ (flowing.freed marker member)
    cases stepped.stirs with
    | accept _ _ _ _ _ released => exact old (released ▸ member)
    | make _ _ _ _ released => exact old (released ▸ member)
    | rest _ _ _ _ _ _ released => exact old (released ▸ member)
    | @work queue p events _ within turn queues workers l2 released =>
      rw [released] at member
      rcases List.mem_append.mp member with before | now
      · exact old before
      -- The queue the checkpoint passed is the one it was sent through.
      · have passed : .checkpoint marker ∈ Happening.handed queue (.worked queue events) := by
          rw [Happening.handed, if_pos rfl]
          exact mem_effects_of_mem_markers now
        have sent : Effect.checkpoint marker ∈
            (labels ++ [Happening.worked queue events]).flatMap (Happening.sent queue) := by
          rw [order queue, List.flatMap_append, List.flatMap_singleton]
          exact List.mem_append_left _ (List.mem_append_right _ passed)
        rw [(numbered queue marker sent).2]
        exact List.mem_append_right _ passed
  · intro open' queue
    cases stepped.stirs with
    | accept _ _ _ workers _ _ stop => exact workers ▸ flowing.working (stop ▸ open') queue
    | make _ workers _ _ _ stop => exact workers ▸ flowing.working (stop ▸ open') queue
    | @work by' p events _ within turn queues workers l2 released stop =>
      rw [workers]
      by_cases here : queue = by'
      · subst here
        rw [Function.update_self]
        rw [stop] at open'
        rw [open'] at turn
        exact turn.stays
      · rw [Function.update_of_ne here]
        exact flowing.working (stop ▸ open') queue
    | rest _ _ _ _ workers _ _ stop =>
      have before : s.stop = false := by
        cases stopped : s.stop with
        | false => rfl
        | true => rw [stop stopped] at open'; cases open'
      rcases workers queue with same | ⟨_, back⟩
      · exact same ▸ flowing.working before queue
      · rw [back]
        rintro ⟨⟩
  · intro queue outside
    rw [List.flatMap_append, List.flatMap_singleton, flowing.within queue outside, List.nil_append]
    cases stepped.stirs with
    | @accept client into write _ within =>
      have apart : into ≠ queue := by omega
      rw [Happening.sent, if_neg apart]
    | make | work => rfl
    | rest sent => exact sent queue
  · cases stepped with
    | @client _ _ _ _ mid _ _ stepped =>
      show mid.closer = .notCalled → mid.stop = false
      rw [stepped.frame.closer, stepped.frame.stop]
      exact flowing.unclosed
    | close | joined | drained | closed => rintro ⟨⟩
    | begin | evict | work | drain => exact flowing.unclosed

/-- How far a `Wait` call has come, on the condition that the cache was not closed. -/
def Passed (cfg : SystemConfig K) (waiter : Nat) (released : List Marker) : Stage K V → Prop
  | .mark mine _ => mine = waiter
  | .await mine queue => mine = waiter ∧ ∀ passed < queue, ⟨waiter, passed⟩ ∈ released
  | .finish _ => ∀ passed < cfg.workers, ⟨waiter, passed⟩ ∈ released
  | _ => False

omit [Inhabited K] [Inhabited V] [DecidableEq K] in
/-- A `Wait` call does not fall behind. -/
theorem Passed.mono {waiter : Nat} {released released' : List Marker} {stage : Stage K V}
    (passed : Passed cfg waiter released stage) (more : released ⊆ released') :
    Passed cfg waiter released' stage := by
  cases stage with
  | mark => exact passed
  | await => exact ⟨passed.1, fun queue before => more (passed.2 queue before)⟩
  | finish => exact fun queue within => more (passed queue within)
  | store | check | remove | forward | send | sync | read | readL2 | promote => exact passed

/-- A `Wait` call moves on as its checkpoints are released. -/
theorem ClientStep.passed {client waiter : Nat} {call : Call K V} {stage : Stage K V} {next : Client K V}
    (stepped : ClientStep cfg adapter s client call stage label s' next) (working : s.stop = false)
    (passed : Passed cfg waiter s.released stage) :
    (∃ answer, label = .returned client call answer) ∨
      ∃ stage', next = .busy call stage' ∧ Passed cfg waiter s.released stage' := by
  cases stepped with
  | mark => exact .inr ⟨_, rfl, passed⟩
  | marked => exact .inr ⟨_, rfl, passed, nofun⟩
  | @await _ queue within released =>
    obtain ⟨rfl, before⟩ := passed
    refine .inr ⟨_, rfl, rfl, fun other below => ?_⟩
    rcases Nat.lt_succ_iff_lt_or_eq.mp below with earlier | rfl
    · exact before other earlier
    · exact released
  | awaited => exact .inr ⟨_, rfl, passed.2⟩
  | finish => exact .inl ⟨_, rfl⟩
  | markStopped _ stopping => rw [working] at stopping; cases stopping
  | awaitStopped _ stopping => rw [working] at stopping; cases stopping
  | store | stored | missing | present | remove | checked | skip | direct | enqueued | running | stopped
  | send | full | sync | hit | miss | absent | found | promote => exact passed.elim

/-- A closed cache stays closed. -/
theorem Step.working (stepped : Step cfg adapter s label s') (open' : s'.stop = false) :
    s.stop = false := by
  cases stepped.stirs with
  | accept _ _ _ _ _ _ stop => exact stop ▸ open'
  | make _ _ _ _ _ stop => exact stop ▸ open'
  | work _ _ _ _ _ _ stop => exact stop ▸ open'
  | rest _ _ _ _ _ _ _ stop =>
    cases stopped : s.stop with
    | false => rfl
    | true => rw [stop stopped] at open'; cases open'

/-- Steps that do not panic keep the flow along every trace. -/
theorem Flowing.along
    (calm : ∀ l2 call, (deliverCall cfg.toWriteBackConfig adapter l2 call).2.2 = false)
    (flowing : Flowing cfg labels s) {more : List (Happening K V)}
    (trace : Trace (Step cfg adapter) s more s') : Flowing cfg (labels ++ more) s' := by
  refine trace.invariant (fun more s' => Flowing cfg (labels ++ more) s') (by simpa using flowing) ?_
  intro more mid label last ih stepped
  rw [← List.append_assoc]
  exact stepped.flowing calm ih

section OneClient

/-- One worker behind a cache without lifetimes. -/
def backed : SystemConfig Nat := { oneWorker .full with policy := .writeBack, ttl := 0 }

end OneClient

end TwoLevel

end Memstash
