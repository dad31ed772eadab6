import Mathlib

/-! The write-back workers: what they receive from their queues and what they hand to the second level. -/

namespace Memstash

variable {K V σ : Type}

/-- The checkpoint a `Wait` call sends through one queue. -/
structure Marker where
  /-- The call the checkpoint belongs to. -/
  waiter : Nat
  /-- The queue it was sent through. -/
  queue : Nat
  deriving DecidableEq, Repr

/-- A task for a background write-back worker. -/
structure L2Write (K V : Type) where
  key : K
  value : V
  ttl : Int
  /-- Marks a `Wait` checkpoint instead of a write. -/
  flush : Option Marker
  /-- Marks a delete, of which the value and the lifetime are unused. -/
  del : Bool

/-- A write task. -/
def writeTask (key : K) (value : V) (ttl : Int) : L2Write K V :=
  { key := key, value := value, ttl := ttl, flush := none, del := false }

/-- A delete task, with the zero values the unused fields have. -/
def deleteTask [Inhabited V] (key : K) : L2Write K V :=
  { key := key, value := default, ttl := 0, flush := none, del := true }

/-- How a worker drains its queue. -/
inductive WriteBackBatching where
  | full
  | none
  | adaptive
  deriving DecidableEq, Repr

/-- A writing call of the second-level adapter. -/
inductive L2Call (K V : Type) where
  | set (key : K) (value : V) (ttl : Int)
  | batchSet (items : List (K × V)) (ttl : Int)
  | delete (key : K)
  | batchDelete (keys : List K)

/-- How a call of the adapter ends. -/
inductive L2Reply where
  | accepted
  | failed
  | panicked
  deriving DecidableEq, Repr

/-- A second-level adapter: its answers may depend on all it was asked before. -/
structure Adapter (K V σ : Type) where
  call : σ → L2Call K V → σ × L2Reply
  /-- Reading a key, where an error takes the path of a miss. -/
  get : σ → K → Option V

/-- What can be seen of the write-back half from outside. -/
inductive Event (K V : Type) where
  /-- A call of the adapter. -/
  | called (call : L2Call K V)
  /-- A call of `OnL2Error`. -/
  | reported (key : K)
  /-- A released `Wait` checkpoint. -/
  | closed (marker : Marker)
  /-- A call of `OnPanic`. -/
  | notified (handled : Bool)

/-- The settings of the write-back half. -/
structure WriteBackConfig (K : Type) where
  batching : WriteBackBatching
  /-- The number of workers, each with its own queue. -/
  workers : Nat
  /-- There is at least one worker. -/
  workersPos : 0 < workers
  /-- The capacity of every queue. -/
  buffer : Nat
  /-- The upper half of the key hash, which binds a key to a worker. -/
  keyHash : K → Nat
  /-- `OnL2Error`, when there is one, and the keys it panics on. -/
  onL2Error : Option (K → Bool)

/-- The call that carries out one task on its own. -/
def L2Write.call (write : L2Write K V) : L2Call K V :=
  if write.del then .delete write.key else .set write.key write.value write.ttl

/-- The cap of one drain batch. -/
def writeBackBatchMax : Nat := 128

/-- The keys a call covers, for which its error is reported. -/
def L2Call.keys : L2Call K V → List K
  | set key _ _ => [key]
  | batchSet items _ => items.map Prod.fst
  | delete key => [key]
  | batchDelete keys => keys

/-- Delivering drained writes: one `Set` for a single item, one `BatchSet` otherwise. -/
def writeBatch (batch : List (K × V)) (ttl : Int) : L2Call K V :=
  match batch with
  | [(key, value)] => .set key value ttl
  | items => .batchSet items ttl

/-- Delivering drained deletes: one `Delete` for a single key, one `BatchDelete` otherwise. -/
def deleteBatch (keys : List K) : L2Call K V :=
  match keys with
  | [key] => .delete key
  | keys => .batchDelete keys

/-- Delivering a run of one kind. -/
def deliverRun (sets : List (K × V)) (deletes : List K) (ttl : Int) : L2Call K V :=
  if 0 < deletes.length then deleteBatch deletes else writeBatch sets ttl

/-- The tasks a worker coalesces, all of the kind of the first. -/
structure Run (K V : Type) where
  first : L2Write K V
  sets : List (K × V)
  deletes : List K
  /-- Only the list of the first task's kind is in use. -/
  ofKind : if first.del then sets = [] ∧ deletes ≠ [] else deletes = [] ∧ sets ≠ []

/-- A run of one task. -/
def Run.start (first : L2Write K V) : Run K V where
  first := first
  sets := if first.del then [] else [(first.key, first.value)]
  deletes := if first.del then [first.key] else []
  ofKind := by split <;> simp

/-- One more task of the same kind. -/
def Run.add (run : Run K V) (write : L2Write K V) (same : write.del = run.first.del) : Run K V where
  first := run.first
  sets := if write.del then run.sets else run.sets ++ [(write.key, write.value)]
  deletes := if write.del then run.deletes ++ [write.key] else run.deletes
  ofKind := by
    have kind := run.ofKind
    rw [same]
    split at kind <;> simp_all

/-- The number of tasks in a run. -/
def Run.size (run : Run K V) : Nat := run.sets.length + run.deletes.length

/-- The call that delivers a run. -/
def Run.deliver (run : Run K V) : L2Call K V := deliverRun run.sets run.deletes run.first.ttl

/-- Where a worker stands between two steps; `origin` is the key a panic is reported for. -/
inductive Worker (K V : Type) where
  /-- In the `select` of `writeBackLoop`. -/
  | idle
  /-- At the head of the loop of `flushWrite`, with a task in hand. -/
  | flush (origin : K) (first : L2Write K V)
  /-- In the loop of `flushRun`, with the run collected so far. -/
  | collect (origin : K) (run : Run K V)
  /-- About to call the adapter, with the checkpoint to release after it and the task that ended
  the run. -/
  | deliver (origin : K) (call : L2Call K V) (marker : Option Marker) (next : Option (L2Write K V))
  /-- After the return of `writeBackLoop`. -/
  | done

/-- The worker after a delivery: `flushWrite` goes on with the task that ended the run. -/
def Worker.resume (origin : K) : Option (L2Write K V) → Worker K V
  | some write => .flush origin write
  | none => .idle

/-- Reporting one error for several keys, up to the key the handler panics on. -/
def reportL2Err (handler : Option (K → Bool)) : List K → List (Event K V) × Bool
  | [] => ([], false)
  | key :: rest =>
    match handler with
    | none => ([], false)
    | some panics =>
      if panics key then ([.reported key], true)
      else (.reported key :: (reportL2Err handler rest).1, (reportL2Err handler rest).2)

/-- Reporting a recovered panic: the handler may be what panicked in the first place. -/
def recoverWriteBack (handler : Option (K → Bool)) (key : K) : List (Event K V) :=
  match handler with
  | none => [.notified false]
  | some panics => [.reported key, .notified (!panics key)]

/-- Calling the adapter and reporting its error; the flag says whether a panic unwinds. -/
def deliverCall (cfg : WriteBackConfig K) (adapter : Adapter K V σ) (l2 : σ) (call : L2Call K V) :
    σ × List (Event K V) × Bool :=
  match (adapter.call l2 call).2 with
  | .accepted => ((adapter.call l2 call).1, [.called call], false)
  | .failed =>
    ((adapter.call l2 call).1, .called call :: (reportL2Err cfg.onL2Error call.keys).1,
      (reportL2Err cfg.onL2Error call.keys : List (Event K V) × Bool).2)
  | .panicked => ((adapter.call l2 call).1, [.called call], true)

/-- Whether a write goes out on its own; the fill of the queue decides in the adaptive mode. -/
def WriteBackConfig.single (cfg : WriteBackConfig K) (first : L2Write K V)
    (queue : List (L2Write K V)) : Bool :=
  !first.del && (cfg.batching == .none ||
    (cfg.batching == .adaptive && decide (queue.length ≤ cfg.buffer / 2)))

/-- A worker with the queue it owns and the second level it writes to. -/
structure Pipe (K V σ : Type) where
  worker : Worker K V
  queue : List (L2Write K V)
  l2 : σ

/-- One step of a worker, and what can be seen of it; nothing when it waits for a task. -/
def Pipe.step (cfg : WriteBackConfig K) (adapter : Adapter K V σ) (stop : Bool) (p : Pipe K V σ) :
    Option (Pipe K V σ × List (Event K V)) :=
  match p.worker with
  | .idle =>
    match p.queue with
    | write :: queue => some ({ p with worker := .flush write.key write, queue := queue }, [])
    | [] => if stop then some ({ p with worker := .done }, []) else none
  | .flush origin first =>
    match first.flush with
    -- Everything enqueued before the checkpoint has already been flushed.
    | some marker => some ({ p with worker := .idle }, [.closed marker])
    | none =>
      if cfg.single first p.queue then
        let alone := writeBatch [(first.key, first.value)] first.ttl
        some ({ p with worker := .deliver origin alone none none }, [])
      else some ({ p with worker := .collect origin (.start first) }, [])
  | .collect origin run =>
    if run.size < writeBackBatchMax then
      match p.queue with
      | write :: queue =>
        match write.flush with
        | some marker =>
          some ({ p with worker := .deliver origin run.deliver (some marker) none, queue := queue }, [])
        | none =>
          if same : write.del = run.first.del ∧ write.ttl = run.first.ttl then
            some ({ p with worker := .collect origin (run.add write same.1), queue := queue }, [])
          else
            some ({ p with
              worker := .deliver origin run.deliver none (some write), queue := queue }, [])
      | [] => some ({ p with worker := .deliver origin run.deliver none none }, [])
    else some ({ p with worker := .deliver origin run.deliver none none }, [])
  | .deliver origin call marker next =>
    let (l2, events, panicked) := deliverCall cfg adapter p.l2 call
    -- The checkpoint is released even if the delivery panics; the task in hand is not kept then.
    let released := marker.toList.map Event.closed
    if panicked then
      some ({ p with worker := .idle, l2 := l2 },
        events ++ released ++ recoverWriteBack cfg.onL2Error origin)
    else
      some ({ p with worker := .resume origin next, l2 := l2 }, events ++ released)
  | .done => none

end Memstash
