import Memstash.Lib.Runs
import Memstash.WriteBack.WorkerLaws

/-! Draining a queue: batches keep its meaning, and no task vanishes unless a panic meets one in hand. -/

namespace Memstash

open Runs

variable {K V σ : Type}

/-- The effect of a single call on the second level. -/
def Adapter.carry (adapter : Adapter K V σ) (l2 : σ) : Effect K V → σ
  | .set key value ttl => (adapter.call l2 (.set key value ttl)).1
  | .delete key => (adapter.call l2 (.delete key)).1
  | .checkpoint _ => l2

/-- An adapter that never fails and whose batches act like single calls in list order. -/
structure Adapter.Orderly (adapter : Adapter K V σ) : Prop where
  accepts : ∀ l2 call, (adapter.call l2 call).2 = .accepted
  sets : ∀ l2 items ttl, (adapter.call l2 (.batchSet items ttl)).1 =
    items.foldl (fun l2 item => (adapter.call l2 (.set item.1 item.2 ttl)).1) l2
  deletes : ∀ l2 keys, (adapter.call l2 (.batchDelete keys)).1 =
    keys.foldl (fun l2 key => (adapter.call l2 (.delete key)).1) l2

namespace Adapter.Orderly

variable {adapter : Adapter K V σ}

/-- A call acts like its effects one by one. -/
theorem call_eq (orderly : adapter.Orderly) (l2 : σ) (call : L2Call K V) :
    (adapter.call l2 call).1 = call.effects.foldl adapter.carry l2 := by
  cases call with
  | set key value ttl => rfl
  | batchSet items ttl =>
    rw [orderly.sets, L2Call.effects, List.foldl_map]
    rfl
  | delete key => rfl
  | batchDelete keys =>
    rw [orderly.deletes, L2Call.effects, List.foldl_map]
    rfl

theorem deliverCall_eq (orderly : adapter.Orderly) (cfg : WriteBackConfig K) (l2 : σ)
    (call : L2Call K V) :
    deliverCall cfg adapter l2 call = (call.effects.foldl adapter.carry l2, [.called call], false) := by
  rw [deliverCall, orderly.accepts, orderly.call_eq]

theorem keeps (orderly : adapter.Orderly) (cfg : WriteBackConfig K) (p : Pipe K V σ) :
    ¬ p.Drops cfg adapter := by
  rintro ⟨origin, call, marker, write, _, panicked⟩
  rw [orderly.deliverCall_eq] at panicked
  cases panicked

end Adapter.Orderly

namespace Pipe

variable {cfg : WriteBackConfig K} {adapter : Adapter K V σ} {stop : Bool} {p p' : Pipe K V σ}
  {events : List (Event K V)}

/-- The second level changes by what a step hands over. -/
theorem Turn.l2_eq (orderly : adapter.Orderly) (turn : Turn cfg adapter stop p p' events) :
    p'.l2 = (events.flatMap Event.effects).foldl adapter.carry p.l2 := by
  cases turn with
  | @deliver origin call marker next l2 reports delivering made quiet =>
    rw [orderly.deliverCall_eq] at made
    cases made
    simp only [List.flatMap_append, List.flatMap_cons, List.flatMap_nil, List.append_nil, closed_effects,
      List.foldl_append, Event.effects]
    -- A released checkpoint leaves the second level alone.
    cases marker <;> rfl
  | panic delivering made quiet =>
    rw [orderly.deliverCall_eq] at made
    cases made
  | receive | finish | release | single | start | extend | close => rfl

/-- Let a worker work until it waits for a task, and collect what can be seen of it. -/
def drain (cfg : WriteBackConfig K) (adapter : Adapter K V σ) :
    Nat → Pipe K V σ → Pipe K V σ × List (Event K V)
  | 0, p => (p, [])
  | fuel + 1, p =>
    match p.step cfg adapter false with
    | none => (p, [])
    | some (p', events) => ((drain cfg adapter fuel p').1, events ++ (drain cfg adapter fuel p').2)

/-- A worker stops working only when its queue is empty. -/
theorem step_eq_none (stuck : p.step cfg adapter stop = none) :
    p.worker = .idle ∧ p.queue = [] ∨ p.worker = .done := by
  obtain ⟨worker, queue, l2⟩ := p
  unfold step at stuck
  cases worker with
  | idle =>
    cases queue with
    | nil => exact .inl ⟨rfl, rfl⟩
    | cons write queue => cases stuck
  | flush origin first => dsimp only at stuck; split at stuck <;> [cases stuck; split at stuck <;> cases stuck]
  | collect origin run =>
    dsimp only at stuck
    split at stuck
    · split at stuck
      · split at stuck
        · cases stuck
        · split at stuck <;> cases stuck
      · cases stuck
    · cases stuck
  | deliver origin call marker next => dsimp only at stuck; split at stuck <;> cases stuck
  | done => exact .inr rfl

/-- A worker that may not stop does not. -/
theorem Turn.stays (turn : Turn cfg adapter false p p' events) : p'.worker ≠ .done := by
  cases turn with
  | finish idle empty stopped => cases stopped
  | @deliver origin call marker next l2 reports delivering made quiet => cases next <;> nofun
  | receive | release | single | start | extend | close | panic => nofun

/-- A property every step keeps holds after draining, together with what the steps have shown. -/
theorem drain_induction (cfg : WriteBackConfig K) (adapter : Adapter K V σ)
    (motive : Pipe K V σ → List (Event K V) → Prop) (start : motive p [])
    (next : ∀ mid mid' shown events, motive mid shown → Turn cfg adapter false mid mid' events →
      motive mid' (shown ++ events)) (fuel : Nat) :
    motive (drain cfg adapter fuel p).1 (drain cfg adapter fuel p).2 := by
  -- The events shown before the rest of the run are carried along.
  have general : ∀ fuel (mid : Pipe K V σ) shown, motive mid shown →
      motive (drain cfg adapter fuel mid).1 (shown ++ (drain cfg adapter fuel mid).2) := by
    intro fuel
    induction fuel with
    | zero =>
      intro mid shown holds
      simpa [drain] using holds
    | succ fuel ih =>
      intro mid shown holds
      unfold drain
      cases stepped : mid.step cfg adapter false with
      | none => simpa using holds
      | some result =>
        obtain ⟨mid', events⟩ := result
        have later := ih mid' _ (next mid mid' shown events holds (turn_of_step stepped))
        simpa [List.append_assoc] using later
  simpa using general fuel p [] start

/-- Enough steps empty the queue. -/
theorem drain_empties (cfg : WriteBackConfig K) (adapter : Adapter K V σ) (working : p.worker ≠ .done)
    {fuel : Nat} (enough : p.load ≤ fuel) :
    (drain cfg adapter fuel p).1.worker = .idle ∧ (drain cfg adapter fuel p).1.queue = [] := by
  -- Every step takes some of the load, so the fuel outlasts the work.
  induction fuel generalizing p with
  | zero =>
    exfalso
    have none : p.load = 0 := Nat.le_zero.mp enough
    unfold load at none
    cases at' : p.worker with
    | done => exact working at'
    | idle | flush | collect | deliver => simp [at'] at none
  | succ fuel ih =>
    unfold drain
    cases stepped : p.step cfg adapter false with
    | none =>
      rcases step_eq_none stepped with waiting | stopped
      · exact waiting
      · exact absurd stopped working
    | some result =>
      obtain ⟨p', events⟩ := result
      have turn := turn_of_step stepped
      exact ih turn.stays (Nat.le_of_lt_succ (turn.load_lt.trans_le enough))

end Pipe

/-- The calls among events. -/
def calls (events : List (Event K V)) : List (L2Call K V) :=
  events.filterMap fun
    | .called call => some call
    | _ => none

/-- Where no checkpoint is released, only calls carry anything out. -/
theorem calls_effects {events : List (Event K V)}
    (plain : ∀ marker, Effect.checkpoint marker ∉ events.flatMap Event.effects) :
    (calls events).flatMap L2Call.effects = events.flatMap Event.effects := by
  induction events with
  | nil => rfl
  | cons event rest ih =>
    have later := ih fun marker member => plain marker (by simp [member])
    cases event with
    | called call => simpa [calls, Event.effects] using later
    | reported key => simpa [calls, Event.effects] using later
    | closed marker => exact absurd (by simp [Event.effects]) (plain marker)
    | notified handled => simpa [calls, Event.effects] using later

theorem Adapter.carry_effect (adapter : Adapter K V σ) {write : L2Write K V}
    (task : write.flush = none) (l2 : σ) :
    adapter.carry l2 write.effect = (adapter.call l2 write.call).1 := by
  unfold L2Write.effect L2Write.call
  rw [task]
  cases write.del <;> rfl

/-- Draining a queue leaves the second level as the tasks one by one in order would, delivers every
task once with its own lifetime, and exceeds the cap in no call. -/
theorem drain_fifo (cfg : WriteBackConfig K) {adapter : Adapter K V σ} (orderly : adapter.Orderly)
    {queue : List (L2Write K V)} (tasks : ∀ write ∈ queue, write.flush = none) (l2 : σ) {fuel : Nat}
    (enough : 4 * queue.length + 1 ≤ fuel) :
    ∃ events, Pipe.drain cfg adapter fuel ⟨.idle, queue, l2⟩ =
      (⟨.idle, [], queue.foldl (fun l2 write => (adapter.call l2 write.call).1) l2⟩, events) ∧
      (calls events).flatMap L2Call.effects = queue.map L2Write.effect ∧
      ∀ call ∈ calls events, call.effects.length ≤ writeBackBatchMax := by
  have emptied := Pipe.drain_empties (p := ⟨.idle, queue, l2⟩) cfg adapter nofun enough
  -- What was shown and what is pending make up the queue, and the second level has seen what was shown.
  obtain ⟨order, seen, _, small⟩ := Pipe.drain_induction (p := ⟨.idle, queue, l2⟩) cfg adapter
    (fun mid shown => queue.map L2Write.effect = shown.flatMap Event.effects ++ mid.pending ∧
      mid.l2 = (shown.flatMap Event.effects).foldl adapter.carry l2 ∧ mid.Capped ∧
      ∀ call, .called call ∈ shown → call.effects.length ≤ writeBackBatchMax)
    ⟨rfl, rfl, trivial, nofun⟩ (by
      rintro mid mid' shown events ⟨order, seen, capped, small⟩ turn
      obtain ⟨capped', small'⟩ := turn.capped capped
      refine ⟨?_, ?_, capped', fun call member => ?_⟩
      · rw [order, turn.pending (orderly.keeps cfg mid), List.flatMap_append, List.append_assoc]
      · rw [turn.l2_eq orderly, seen, List.flatMap_append, List.foldl_append]
      · rcases List.mem_append.mp member with before | now
        · exact small call before
        · exact small' call now) fuel
  generalize Pipe.drain cfg adapter fuel ⟨.idle, queue, l2⟩ = drained at *
  obtain ⟨⟨worker, left, l2'⟩, events⟩ := drained
  obtain ⟨rfl, rfl⟩ := emptied
  rw [Pipe.pending, Worker.held, List.map_nil, List.append_nil, List.append_nil] at order
  refine ⟨events, ?_, ?_, fun call member => ?_⟩
  · have each : queue.foldl (fun l2 write => (adapter.call l2 write.call).1) l2 =
        (queue.map L2Write.effect).foldl adapter.carry l2 := by
      rw [List.foldl_map]
      exact List.foldl_ext _ _ _ fun l2 write member => (adapter.carry_effect (tasks write member) l2).symm
    rw [each, order, ← seen]
  · rw [calls_effects, order]
    intro marker member
    -- No task of the queue is a checkpoint.
    rw [← order] at member
    obtain ⟨write, listed, same⟩ := List.mem_map.mp member
    rw [L2Write.effect, tasks write listed] at same
    cases del : write.del <;> simp [del] at same
  · obtain ⟨event, listed, made⟩ := List.mem_filterMap.mp member
    cases event with
    | called made' => cases made; exact small call listed
    | reported | closed | notified => cases made

section Draining

/-- A second level that keeps a value and a lifetime for every key it was given. -/
def mapAdapter [DecidableEq K] : Adapter K V (K → Option (V × Int)) where
  call l2
    | .set key value ttl => (Function.update l2 key (some (value, ttl)), .accepted)
    | .batchSet items ttl =>
      (items.foldl (fun l2 item => Function.update l2 item.1 (some (item.2, ttl))) l2, .accepted)
    | .delete key => (Function.update l2 key none, .accepted)
    | .batchDelete keys => (keys.foldl (fun l2 key => Function.update l2 key none) l2, .accepted)
  get l2 key := (l2 key).map Prod.fst

theorem mapAdapter_orderly [DecidableEq K] : (mapAdapter : Adapter K V _).Orderly where
  accepts l2 call := by cases call <;> rfl
  sets _ _ _ := rfl
  deletes _ _ := rfl

/-- One worker with a buffer of four tasks and an error handler that returns. -/
def oneWorker (batching : WriteBackBatching) : WriteBackConfig Nat :=
  { batching := batching
    workers := 1
    workersPos := Nat.one_pos
    buffer := 4
    keyHash := id
    onL2Error := some fun _ => false }

/-- Two writes of one lifetime, one of another and a delete take three calls. -/
theorem drain_fifo_mixed :
    ∃ events, Pipe.drain (oneWorker .full) mapAdapter 17 ⟨.idle, [writeTask 1 'a' 5, writeTask 1 'b' 5,
        writeTask 2 'c' 9, deleteTask 1], fun _ => none⟩ =
      (⟨.idle, [], [writeTask 1 'a' 5, writeTask 1 'b' 5, writeTask 2 'c' 9, deleteTask 1].foldl
        (fun l2 write => (mapAdapter.call l2 write.call).1) fun _ => none⟩, events) ∧
      (calls events).flatMap L2Call.effects = [writeTask 1 'a' 5, writeTask 1 'b' 5, writeTask 2 'c' 9,
        deleteTask 1].map L2Write.effect ∧
      ∀ call ∈ calls events, call.effects.length ≤ writeBackBatchMax :=
  drain_fifo (oneWorker .full) mapAdapter_orderly (by decide) _ (by decide)

end Draining

/-- What can happen to a queue and its worker. -/
inductive PipeOp (K V : Type) where
  /-- A task or a checkpoint is sent. -/
  | arrive (write : L2Write K V)
  /-- The worker takes a step, if it can. -/
  | work

namespace PipeOp

variable (cfg : WriteBackConfig K) (adapter : Adapter K V σ) (stop : Bool)

/-- What an operation does, with everything shown so far. -/
def step (s : Pipe K V σ × List (Event K V)) : PipeOp K V → Except Empty (Pipe K V σ × List (Event K V))
  | arrive write => .ok ({ s.1 with queue := s.1.queue ++ [write] }, s.2)
  | work =>
    match s.1.step cfg adapter stop with
    | none => .ok s
    | some (p, events) => .ok (p, s.2 ++ events)

/-- The tasks that arrive during a run. -/
def arrivals (ops : List (PipeOp K V)) : List (L2Write K V) :=
  ops.filterMap fun
    | arrive write => some write
    | work => none

variable {cfg adapter stop}

/-- A worker that keeps working gets back to where it waits for tasks. -/
theorem work_settles (steps : Nat) (s : Pipe K V σ × List (Event K V)) (enough : s.1.load ≤ steps) :
    ∃ s', run (step cfg adapter stop) s (List.replicate steps work) = .ok s' ∧
      (s'.1.worker = .idle ∨ s'.1.worker = .done) := by
  induction steps generalizing s with
  | zero =>
    refine ⟨s, rfl, .inr ?_⟩
    have none : s.1.load = 0 := Nat.le_zero.mp enough
    unfold Pipe.load at none
    cases at' : s.1.worker with
    | done => rfl
    | idle | flush | collect | deliver => simp [at'] at none
  | succ steps ih =>
    cases stepped : s.1.step cfg adapter stop with
    | none =>
      -- A worker that cannot step stays as it is.
      have stuck : ∀ more, run (step cfg adapter stop) s (List.replicate more work) = .ok s := by
        intro more
        induction more with
        | zero => rfl
        | succ more again =>
          rw [List.replicate_succ, run, List.foldlM_cons, step, stepped]
          exact again
      refine ⟨s, stuck _, ?_⟩
      rcases Pipe.step_eq_none stepped with ⟨waiting, _⟩ | stopped
      · exact .inl waiting
      · exact .inr stopped
    | some result =>
      obtain ⟨p, events⟩ := result
      have less := (Pipe.turn_of_step stepped).load_lt
      obtain ⟨s', ran, settled⟩ := ih (p, s.2 ++ events) (Nat.le_of_lt_succ (less.trans_le enough))
      refine ⟨s', ?_, settled⟩
      rw [List.replicate_succ, run, List.foldlM_cons, step, stepped]
      exact ran

/-- In every run in which no delivery panics while the task that ended the run is in hand, whatever
a worker has received was handed over once and in order, or is in its hands; and it gets back to
having nothing in its hands. -/
theorem no_task_vanishes {queue : List (L2Write K V)} {l2 : σ} {ops : List (PipeOp K V)}
    (kept : Meets (step cfg adapter stop) (fun s op => op = work → ¬ s.1.Drops cfg adapter)
      (⟨.idle, queue, l2⟩, []) ops) :
    ∃ p shown, run (step cfg adapter stop) (⟨.idle, queue, l2⟩, []) ops = .ok (p, shown) ∧
      (queue ++ arrivals ops).map L2Write.effect =
        shown.flatMap Event.effects ++ p.worker.held ++ p.queue.map L2Write.effect ∧
      ((p.worker = .idle ∨ p.worker = .done) → p.worker.held = []) ∧
      ∀ steps, p.load ≤ steps → ∃ s', run (step cfg adapter stop) (p, shown)
        (List.replicate steps work) = .ok s' ∧ (s'.1.worker = .idle ∨ s'.1.worker = .done) := by
  obtain ⟨⟨p, shown⟩, ran, order⟩ := exists_run_eq
    (fun done s => (queue ++ arrivals done).map L2Write.effect =
      s.2.flatMap Event.effects ++ s.1.pending) (by simp [arrivals, Pipe.pending, Worker.held]) kept
    (by
      rintro done next ⟨p, shown⟩ _ order allowed
      cases next with
      | arrive write =>
        refine ⟨_, rfl, ?_⟩
        have grown : arrivals (done ++ [arrive write]) = arrivals done ++ [write] := by simp [arrivals]
        rw [grown, ← List.append_assoc, List.map_append, order]
        simp [Pipe.pending]
      | work =>
        have same : arrivals (done ++ [work]) = arrivals done := by simp [arrivals]
        rw [same, order]
        unfold step
        cases stepped : p.step cfg adapter stop with
        | none => exact ⟨(p, shown), rfl, rfl⟩
        | some result =>
          obtain ⟨p', events⟩ := result
          refine ⟨_, rfl, ?_⟩
          rw [(Pipe.turn_of_step stepped).pending (allowed rfl), List.flatMap_append,
            List.append_assoc]) ops (List.prefix_refl ops)
  refine ⟨p, shown, ran, ?_, ?_, fun steps enough => work_settles steps (p, shown) enough⟩
  · rw [order, Pipe.pending, List.append_assoc]
  · rintro (waiting | stopped)
    · rw [waiting, Worker.held]
    · rw [stopped, Worker.held]

/-- A second level that panics whenever it is asked to set. -/
def panickingSets : Adapter Nat Unit Unit where
  call _
    | .set .. | .batchSet .. => ((), .panicked)
    | .delete _ | .batchDelete _ => ((), .accepted)
  get _ _ := none

/-- A write, and a delete that arrives while the worker has the write in hand, both stay accounted for. -/
theorem no_task_vanishes_mixed :
    ∃ p shown, run (step (oneWorker .full) (mapAdapter : Adapter Nat Unit _) false)
        (⟨.idle, [writeTask 1 () 5], fun _ => none⟩, []) [.work, .arrive (deleteTask 2), .work] =
        .ok (p, shown) ∧
      ([writeTask 1 () 5] ++ arrivals [.work, .arrive (deleteTask 2), .work]).map L2Write.effect =
        shown.flatMap Event.effects ++ p.worker.held ++ p.queue.map L2Write.effect ∧
      ((p.worker = .idle ∨ p.worker = .done) → p.worker.held = []) ∧
      ∀ steps, p.load ≤ steps → ∃ s', run (step (oneWorker .full) (mapAdapter : Adapter Nat Unit _)
        false) (p, shown) (List.replicate steps work) = .ok s' ∧
          (s'.1.worker = .idle ∨ s'.1.worker = .done) :=
  no_task_vanishes fun _ _ _ mid _ _ => mapAdapter_orderly.keeps (oneWorker .full) mid.1

/-- A panic while a write is delivered loses the delete that ended its run: it reaches no call and no
report names it. -/
theorem carried_task_vanishes :
    Pipe.drain (oneWorker .full) panickingSets 9 ⟨.idle, [writeTask 1 () 0, deleteTask 2], ()⟩ =
      (⟨.idle, [], ()⟩, [.called (.set 1 () 0), .reported 1, .notified true]) := rfl

end PipeOp

end Memstash
