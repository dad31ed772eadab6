import Memstash.WriteBack.Worker

/-! A worker keeps its tasks in order: it takes them from its queue and hands them over, or drops one. -/

namespace Memstash

variable {K V σ : Type}

/-- What a task asks of the second level, or the checkpoint it stands for. -/
inductive Effect (K V : Type) where
  | set (key : K) (value : V) (ttl : Int)
  | delete (key : K)
  | checkpoint (marker : Marker)
  deriving DecidableEq

/-- The effect of a task. -/
def L2Write.effect (write : L2Write K V) : Effect K V :=
  match write.flush with
  | some marker => .checkpoint marker
  | none => if write.del then .delete write.key else .set write.key write.value write.ttl

/-- The effects of a call, in the order of its list. -/
def L2Call.effects : L2Call K V → List (Effect K V)
  | set key value ttl => [.set key value ttl]
  | batchSet items ttl => items.map fun (key, value) => .set key value ttl
  | delete key => [.delete key]
  | batchDelete keys => keys.map .delete

/-- The effects an event has carried out; a released checkpoint counts as one. -/
def Event.effects : Event K V → List (Effect K V)
  | called call => call.effects
  | reported _ => []
  | closed marker => [.checkpoint marker]
  | notified _ => []

/-- The effects of the tasks in a run. -/
def Run.effects (run : Run K V) : List (Effect K V) :=
  if run.first.del then run.deletes.map .delete
  else run.sets.map fun (key, value) => .set key value run.first.ttl

/-- The tasks a worker has received and not yet handed over, in the order it will. -/
def Worker.held : Worker K V → List (Effect K V)
  | idle => []
  | flush _ first => [first.effect]
  | collect _ run => run.effects
  | deliver _ call marker next =>
    call.effects ++ marker.toList.map .checkpoint ++ next.toList.map L2Write.effect
  | done => []

/-- The tasks before a worker: those in its hands, then those in its queue. -/
def Pipe.pending (p : Pipe K V σ) : List (Effect K V) :=
  p.worker.held ++ p.queue.map L2Write.effect

@[simp] theorem writeBatch_effects (batch : List (K × V)) (ttl : Int) :
    (writeBatch batch ttl).effects = batch.map fun (key, value) => .set key value ttl := by
  unfold writeBatch
  split <;> rfl

@[simp] theorem deleteBatch_effects (keys : List K) :
    (deleteBatch keys : L2Call K V).effects = keys.map .delete := by
  unfold deleteBatch
  split <;> rfl

/-- A run is delivered as the tasks it coalesced. -/
theorem Run.deliver_effects (run : Run K V) : run.deliver.effects = run.effects := by
  have kind := run.ofKind
  unfold Run.deliver deliverRun Run.effects
  cases deletes : run.first.del with
  | true =>
    rw [deletes, if_pos rfl] at kind
    rw [if_pos (List.length_pos_iff.mpr kind.2), deleteBatch_effects]
    rfl
  | false =>
    rw [deletes, if_neg Bool.false_ne_true] at kind
    simp [kind.1]

theorem Run.start_effects {first : L2Write K V} (write : first.flush = none) :
    (Run.start first).effects = [first.effect] := by
  by_cases del : first.del = true <;> simp [Run.effects, Run.start, L2Write.effect, write, del]

/-- A run of the same kind grows by the task added. -/
theorem Run.add_effects {run : Run K V} {write : L2Write K V} (marker : write.flush = none)
    (kind : write.del = run.first.del) (lifetime : write.ttl = run.first.ttl) :
    (run.add write kind).effects = run.effects ++ [write.effect] := by
  by_cases del : write.del = true <;>
    simp [Run.effects, Run.add, L2Write.effect, marker, ← kind, del, lifetime]

theorem Run.effects_length (run : Run K V) : run.effects.length = run.size := by
  have kind := run.ofKind
  unfold Run.effects Run.size
  split at kind
  · rename_i deletes
    simp [deletes, kind.1]
  · rename_i sets
    simp [sets, kind.1]

theorem Run.add_size (run : Run K V) (write : L2Write K V) (kind : write.del = run.first.del) :
    (run.add write kind).size = run.size + 1 := by
  by_cases del : write.del = true <;> simp [Run.size, Run.add, del] <;> omega

namespace Pipe

/-- Everything a worker can do in one step. -/
inductive Turn (cfg : WriteBackConfig K) (adapter : Adapter K V σ) (stop : Bool) (p : Pipe K V σ) :
    Pipe K V σ → List (Event K V) → Prop
  | receive {write queue} (idle : p.worker = .idle) (head : p.queue = write :: queue) :
    Turn cfg adapter stop p { p with worker := .flush write.key write, queue := queue } []
  | finish (idle : p.worker = .idle) (empty : p.queue = []) (stopped : stop = true) :
    Turn cfg adapter stop p { p with worker := .done } []
  | release {origin first marker} (flush : p.worker = .flush origin first)
      (checkpoint : first.flush = some marker) :
    Turn cfg adapter stop p { p with worker := .idle } [.closed marker]
  /-- A write goes out alone. -/
  | single {origin first} (flush : p.worker = .flush origin first) (write : first.flush = none)
      (kept : first.del = false) :
    Turn cfg adapter stop p { p with
      worker := .deliver origin (writeBatch [(first.key, first.value)] first.ttl) none none } []
  | start {origin first} (flush : p.worker = .flush origin first) (write : first.flush = none) :
    Turn cfg adapter stop p { p with worker := .collect origin (.start first) } []
  | extend {origin run write queue} (collect : p.worker = .collect origin run)
      (small : run.size < writeBackBatchMax) (head : p.queue = write :: queue)
      (marker : write.flush = none) (kind : write.del = run.first.del)
      (lifetime : write.ttl = run.first.ttl) :
    Turn cfg adapter stop p { p with worker := .collect origin (run.add write kind), queue := queue } []
  /-- A run ends at a checkpoint, at a task of another kind, at the cap or at the end of the queue. -/
  | close {origin run queue marker next} (collect : p.worker = .collect origin run)
      (taken : p.queue.map L2Write.effect =
        marker.toList.map .checkpoint ++ next.toList.map L2Write.effect ++ queue.map L2Write.effect)
      (fewer : queue.length + next.toList.length ≤ p.queue.length) :
    Turn cfg adapter stop p
      { p with worker := .deliver origin run.deliver marker next, queue := queue } []
  | deliver {origin call marker next l2 reports}
      (delivering : p.worker = .deliver origin call marker next)
      (made : deliverCall cfg adapter p.l2 call = (l2, .called call :: reports, false))
      (quiet : reports.flatMap Event.effects = []) :
    Turn cfg adapter stop p { p with worker := .resume origin next, l2 := l2 }
      (.called call :: reports ++ marker.toList.map .closed)
  /-- The delivery panics, and the task that ended the run is not kept. -/
  | panic {origin call marker next l2 reports} (delivering : p.worker = .deliver origin call marker next)
      (made : deliverCall cfg adapter p.l2 call = (l2, .called call :: reports, true))
      (quiet : reports.flatMap Event.effects = []) :
    Turn cfg adapter stop p { p with worker := .idle, l2 := l2 }
      (.called call :: reports ++ marker.toList.map .closed ++ recoverWriteBack cfg.onL2Error origin)

end Pipe

/-- Reports carry nothing out. -/
theorem reportL2Err_quiet (handler : Option (K → Bool)) (keys : List K) :
    ((reportL2Err handler keys).1 : List (Event K V)).flatMap Event.effects = [] := by
  induction keys with
  | nil => rfl
  | cons key rest ih =>
    unfold reportL2Err
    cases handler with
    | none => rfl
    | some panics =>
      by_cases bad : panics key = true
      · simp [bad, Event.effects]
      · simp [bad, Event.effects, ih]

theorem recoverWriteBack_quiet (handler : Option (K → Bool)) (key : K) :
    (recoverWriteBack handler key : List (Event K V)).flatMap Event.effects = [] := by
  unfold recoverWriteBack
  split <;> rfl

theorem closed_effects (marker : Option Marker) :
    (marker.toList.map Event.closed : List (Event K V)).flatMap Event.effects
      = marker.toList.map .checkpoint := by
  cases marker <;> rfl

theorem Worker.resume_held (origin : K) (next : Option (L2Write K V)) :
    (Worker.resume origin next).held = next.toList.map L2Write.effect := by
  cases next <;> rfl

theorem length_of_quiet {events : List (Event K V)} (quiet : events.flatMap Event.effects = [])
    {call : L2Call K V} (member : .called call ∈ events) : call.effects.length = 0 :=
  List.length_eq_zero_iff.mpr (List.flatMap_eq_nil_iff.mp quiet _ member)

/-- A delivery makes its call, and what else can be seen of it are reports. -/
theorem deliverCall_events (cfg : WriteBackConfig K) (adapter : Adapter K V σ) (l2 : σ)
    (call : L2Call K V) :
    ∃ reports panicked, deliverCall cfg adapter l2 call =
      ((adapter.call l2 call).1, .called call :: reports, panicked) ∧
      reports.flatMap Event.effects = [] := by
  unfold deliverCall
  split
  · exact ⟨[], false, rfl, rfl⟩
  · exact ⟨_, _, rfl, reportL2Err_quiet _ _⟩
  · exact ⟨[], true, rfl, rfl⟩

namespace Pipe

variable {cfg : WriteBackConfig K} {adapter : Adapter K V σ} {stop : Bool} {p p' : Pipe K V σ}
  {events : List (Event K V)}

/-- Every step is one of the turns. -/
theorem turn_of_step (stepped : p.step cfg adapter stop = some (p', events)) :
    Turn cfg adapter stop p p' events := by
  obtain ⟨worker, queue, l2⟩ := p
  unfold step at stepped
  cases worker with
  | idle =>
    cases queue with
    | nil =>
      cases stop with
      | false => cases stepped
      | true => cases stepped; exact .finish rfl rfl rfl
    | cons write queue => cases stepped; exact .receive rfl rfl
  | flush origin first =>
    cases marker : first.flush with
    | some checkpoint =>
      simp only [marker] at stepped
      cases stepped
      exact .release rfl marker
    | none =>
      simp only [marker] at stepped
      split at stepped
      · rename_i alone
        cases stepped
        refine .single rfl marker ?_
        simp only [WriteBackConfig.single, Bool.and_eq_true, Bool.not_eq_true'] at alone
        exact alone.1
      · cases stepped
        exact .start rfl marker
  | collect origin run =>
    dsimp only at stepped
    split at stepped
    · rename_i small
      cases queue with
      | nil => cases stepped; exact .close rfl rfl (Nat.le_refl 0)
      | cons write queue =>
        cases marker : write.flush with
        | some checkpoint =>
          simp only [marker] at stepped
          cases stepped
          exact .close rfl (by simp [L2Write.effect, marker]) (by simp)
        | none =>
          simp only [marker] at stepped
          split at stepped
          · rename_i same
            cases stepped
            exact .extend rfl small rfl marker same.1 same.2
          · cases stepped
            exact .close rfl (by simp) (by simp)
    · cases stepped
      exact .close rfl (by simp) (by simp)
  | deliver origin call marker next =>
    obtain ⟨reports, panicked, made, quiet⟩ := deliverCall_events cfg adapter l2 call
    simp only [made] at stepped
    cases panicked with
    | false =>
      cases stepped
      exact .deliver rfl made quiet
    | true =>
      cases stepped
      exact .panic rfl made quiet
  | done => cases stepped

/-- A worker about to lose the task that ended its run, as the delivery panics with it in hand. -/
def Drops (cfg : WriteBackConfig K) (adapter : Adapter K V σ) (p : Pipe K V σ) : Prop :=
  ∃ origin call marker write, p.worker = .deliver origin call marker (some write) ∧
    (deliverCall cfg adapter p.l2 call).2.2 = true

/-- What a step hands over comes off the front of the pending tasks, and the rest stays in order. -/
theorem Turn.pending (turn : Turn cfg adapter stop p p' events) (kept : ¬ p.Drops cfg adapter) :
    p.pending = events.flatMap Event.effects ++ p'.pending := by
  cases turn with
  | receive idle head => simp [Pipe.pending, idle, head, Worker.held]
  | finish idle empty => simp [Pipe.pending, idle, empty, Worker.held]
  | release flush checkpoint =>
    simp [Pipe.pending, flush, Worker.held, Event.effects, L2Write.effect, checkpoint]
  | single flush write kept =>
    simp [Pipe.pending, flush, Worker.held, L2Write.effect, write, kept]
  | start flush write => simp [Pipe.pending, flush, Worker.held, Run.start_effects write]
  | extend collect small head marker kind lifetime =>
    simp [Pipe.pending, collect, head, Worker.held, Run.add_effects marker kind lifetime]
  | close collect taken fewer =>
    simp [Pipe.pending, collect, taken, Worker.held, Run.deliver_effects]
  | @deliver origin call marker next l2 reports delivering made quiet =>
    rw [Pipe.pending, Pipe.pending, Worker.resume_held, delivering]
    simp [Worker.held, Event.effects, quiet, closed_effects]
  | @panic origin call marker next l2 reports delivering made quiet =>
    -- Nothing is in hand when the delivery panics, by the condition on the step.
    obtain rfl : next = none := by
      cases next with
      | none => rfl
      | some write => exact absurd ⟨origin, call, marker, write, delivering, by rw [made]⟩ kept
    rw [Pipe.pending, Pipe.pending, delivering]
    simp [Worker.held, Event.effects, quiet, closed_effects, recoverWriteBack_quiet]

/-- How much work is before a worker: every step takes some of it. -/
def load (p : Pipe K V σ) : Nat :=
  4 * p.queue.length + match p.worker with
    | .idle => 1
    | .flush _ _ => 4
    | .collect _ _ => 3
    | .deliver _ _ _ next => 2 + 3 * next.toList.length
    | .done => 0

/-- A worker that gets no new tasks takes finitely many steps. -/
theorem Turn.load_lt (turn : Turn cfg adapter stop p p' events) : p'.load < p.load := by
  cases turn with
  | receive idle head => simp [load, idle, head]; omega
  | finish idle empty => simp [load, idle]
  | release flush checkpoint => simp [load, flush]
  | single flush write kept => simp [load, flush]
  | start flush write => simp [load, flush]
  | extend collect small head marker kind lifetime => simp [load, collect, head]
  | @close origin run queue marker next collect taken fewer =>
    simp only [load, collect]
    omega
  | @deliver origin call marker next l2 reports delivering made quiet =>
    cases next <;> simp [load, delivering, Worker.resume]
  | panic delivering made quiet => simp [load, delivering]; omega

/-- A worker never holds a batch over the cap. -/
def Capped (p : Pipe K V σ) : Prop :=
  match p.worker with
  | .collect _ run => run.size ≤ writeBackBatchMax
  | .deliver _ call _ _ => call.effects.length ≤ writeBackBatchMax
  | _ => True

/-- No step exceeds the cap, and no call it makes does. -/
theorem Turn.capped (turn : Turn cfg adapter stop p p' events) (capped : p.Capped) :
    p'.Capped ∧ ∀ call, .called call ∈ events → call.effects.length ≤ writeBackBatchMax := by
  have one : 1 ≤ writeBackBatchMax := by decide
  cases turn with
  | receive idle head => simp [Capped]
  | finish idle empty => simp [Capped]
  | release flush checkpoint => simp [Capped]
  | single flush write kept => simpa [Capped] using one
  | @start origin first flush write =>
    have size : (Run.start first).size = 1 := by
      rw [← Run.effects_length, Run.start_effects write, List.length_singleton]
    simpa [Capped, size] using one
  | extend collect small head marker kind lifetime =>
    simp only [Capped, Run.add_size, List.not_mem_nil, false_implies, implies_true, and_true]
    omega
  | close collect taken fewer =>
    simp only [Capped, collect] at capped
    simpa [Capped, Run.deliver_effects, Run.effects_length] using capped
  | @deliver origin call marker next l2 reports delivering made quiet =>
    simp only [Capped, delivering] at capped
    refine ⟨by cases next <;> simp [Capped, Worker.resume], fun made member => ?_⟩
    rcases List.mem_append.mp member with member | member
    · rcases List.mem_cons.mp member with same | member
      · cases same
        exact capped
      · exact (length_of_quiet quiet member).trans_le (Nat.zero_le _)
    · simp at member
  | @panic origin call marker next l2 reports delivering made quiet =>
    simp only [Capped, delivering] at capped
    refine ⟨by simp [Capped], fun made member => ?_⟩
    rcases List.mem_append.mp member with member | member
    · rcases List.mem_append.mp member with member | member
      · rcases List.mem_cons.mp member with same | member
        · cases same
          exact capped
        · exact (length_of_quiet quiet member).trans_le (Nat.zero_le _)
      · simp at member
    · exact (length_of_quiet (recoverWriteBack_quiet _ _) member).trans_le (Nat.zero_le _)

end Pipe

end Memstash
