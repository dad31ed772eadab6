import Memstash.Lib.Traces
import Memstash.WriteBack.WorkerLaws

/-! The two levels at work: clients, write-back workers and shutdown, step by step. -/

namespace Memstash

variable {K V σ : Type}

/-- How writes reach the second level. -/
inductive WritePolicy where
  | writeBack
  | writeThrough
  | writeDisabled
  deriving DecidableEq, Repr

/-- The settings of the two levels. -/
structure SystemConfig (K : Type) extends WriteBackConfig K where
  policy : WritePolicy
  /-- The lifetime of items in nanoseconds, zero for none. -/
  ttl : Int

/-- The queue of a key's worker. -/
def WriteBackConfig.writeQueueOf (cfg : WriteBackConfig K) (key : K) : Nat :=
  if cfg.workers = 1 then 0 else cfg.keyHash key % cfg.workers

/-- A call of a client. -/
inductive Call (K V : Type) where
  /-- `Set` and `SetWithTTL`, which differ in the lifetime they hand on. -/
  | set (key : K) (value : V) (ttl : Int)
  | batchSet (items : List (K × V))
  | delete (key : K)
  | batchDelete (keys : List K)
  | get (key : K)
  | wait

/-- What a call still owes the second level. -/
inductive Handoff (K V : Type) where
  | skip
  | direct (call : L2Call K V)
  | enqueue (writes : List (L2Write K V))

/-- Where a call stands between two of its steps. -/
inductive Stage (K V : Type) where
  /-- About to update the memory with the first item. -/
  | store (items : List (K × V)) (handoff : Handoff K V)
  /-- About to look whether the first key is live. -/
  | check (keys : List K) (handoff : Handoff K V)
  /-- About to delete a key that was live. -/
  | remove (key : K) (keys : List K) (handoff : Handoff K V)
  /-- Done with the memory. -/
  | forward (handoff : Handoff K V)
  /-- In `enqueueL2`, past the check for a closed cache. -/
  | send (write : L2Write K V) (rest : List (L2Write K V))
  /-- In `enqueueL2`, about to run the task itself. -/
  | sync (write : L2Write K V) (rest : List (L2Write K V))
  /-- About to look a key up in memory. -/
  | read (key : K)
  /-- About to look a key up in the second level. -/
  | readL2 (key : K)
  /-- About to put a value found in the second level into the memory. -/
  | promote (key : K) (value : V)
  /-- In `Wait`, about to send the checkpoint of a queue. -/
  | mark (waiter queue : Nat)
  /-- In `Wait`, about to receive the checkpoint of a queue. -/
  | await (waiter queue : Nat)
  /-- About to return. -/
  | finish (answer : Option V)

/-- A client between calls or in one. -/
inductive Client (K V : Type) where
  | free
  | busy (call : Call K V) (stage : Stage K V)

/-- Where `Close` stands. -/
inductive Closer where
  | notCalled
  /-- Waiting for the workers to return. -/
  | joining
  /-- Draining what slipped into a queue while its worker was shutting down. -/
  | draining (queue : Nat)
  | returned
  deriving DecidableEq

/-- The state of the two levels. -/
structure TwoLevel (K V σ : Type) where
  memory : K → Option V
  l2 : σ
  stop : Bool
  queues : Nat → List (L2Write K V)
  workers : Nat → Worker K V
  /-- The checkpoints released so far. -/
  released : List Marker
  clients : Nat → Client K V
  /-- The number of calls made so far, which tells their checkpoints apart. -/
  calls : Nat
  closer : Closer

/-- What can be observed of a step. -/
inductive Happening (K V : Type) where
  | began (client : Nat) (call : Call K V)
  /-- A queue accepts a task or a checkpoint. -/
  | accepted (client queue : Nat) (write : L2Write K V)
  /-- A client calls the adapter itself. -/
  | made (client : Nat) (events : List (Event K V))
  /-- A client reads a key from the second level. -/
  | looked (client : Nat) (key : K)
  /-- The worker of a queue takes a step. -/
  | worked (queue : Nat) (events : List (Event K V))
  | returned (client : Nat) (call : Call K V) (answer : Option V)
  /-- `Close` is called. -/
  | closing
  | internal

/-- The memory may lose items, and changes in no other way. -/
def Forgets (memory memory' : K → Option V) : Prop := ∀ key, memory' key = memory key ∨ memory' key = none

/-- Storing an item: it is held or was too heavy, and others may be evicted for it. -/
def Stores (key : K) (value : V) (memory memory' : K → Option V) : Prop :=
  (memory' key = some value ∨ memory' key = none) ∧
    ∀ other, other ≠ key → memory' other = memory other ∨ memory' other = none

/-- What the policy makes of a write. -/
def SystemConfig.handoff (cfg : SystemConfig K) (direct : L2Call K V) (writes : List (L2Write K V)) :
    Handoff K V :=
  match cfg.policy with
  | .writeBack => .enqueue writes
  | .writeThrough => .direct direct
  | .writeDisabled => .skip

/-- Where a call starts; the number tells the checkpoints of `Wait` calls apart. -/
def Call.start [Inhabited V] (cfg : SystemConfig K) (waiter : Nat) : Call K V → Stage K V
  | set key value ttl =>
    .store [(key, value)] (cfg.handoff (.set key value ttl) [writeTask key value ttl])
  | batchSet [] => .finish none
  | batchSet items => .store items (cfg.handoff (.batchSet items cfg.ttl)
      (items.map fun (key, value) => writeTask key value cfg.ttl))
  | delete key => .check [key] (cfg.handoff (.delete key) [deleteTask key])
  | batchDelete [] => .finish none
  | batchDelete keys => .check keys (cfg.handoff (.batchDelete keys) (keys.map deleteTask))
  | get key => .read key
  | wait => .mark waiter 0

namespace TwoLevel

/-- A worker with its queue and the second level. -/
def pipe (s : TwoLevel K V σ) (queue : Nat) : Pipe K V σ := ⟨s.workers queue, s.queues queue, s.l2⟩

/-- A client moves on. -/
def turn (s : TwoLevel K V σ) (client : Nat) (next : Client K V) : TwoLevel K V σ :=
  { s with clients := Function.update s.clients client next }

@[simp] theorem turn_self (s : TwoLevel K V σ) (client : Nat) (next : Client K V) :
    (s.turn client next).clients client = next := Function.update_self ..

theorem turn_of_ne (s : TwoLevel K V σ) {client other : Nat} (apart : other ≠ client)
    (next : Client K V) : (s.turn client next).clients other = s.clients other :=
  Function.update_of_ne apart ..

/-- A queue takes one more task. -/
def push (s : TwoLevel K V σ) (queue : Nat) (write : L2Write K V) : TwoLevel K V σ :=
  { s with queues := Function.update s.queues queue (s.queues queue ++ [write]) }

/-- The checkpoint of a `Wait` call as a task, whose other fields are zero. -/
def checkpointTask [Inhabited K] [Inhabited V] (marker : Marker) : L2Write K V :=
  { key := default, value := default, ttl := 0, flush := some marker, del := false }

/-- The checkpoints among events. -/
def markers (events : List (Event K V)) : List Marker :=
  events.filterMap fun
    | .closed marker => some marker
    | _ => none

variable [Inhabited K] [Inhabited V] [DecidableEq K]

/-- One step of a client in a call, with the state it leaves and what the client does next: a memory
update under the shard mutex, a memory lookup, a channel operation or a call of the adapter. -/
inductive ClientStep (cfg : SystemConfig K) (adapter : Adapter K V σ) (s : TwoLevel K V σ) (client : Nat)
    (call : Call K V) : Stage K V → Happening K V → TwoLevel K V σ → Client K V → Prop
  | store {key value items handoff memory} (stores : Stores key value s.memory memory) :
    ClientStep cfg adapter s client call (.store ((key, value) :: items) handoff) .internal
      { s with memory := memory } (.busy call (.store items handoff))
  | stored {handoff} :
    ClientStep cfg adapter s client call (.store [] handoff) .internal s (.busy call (.forward handoff))
  | missing {key keys handoff} (absent : s.memory key = none) :
    ClientStep cfg adapter s client call (.check (key :: keys) handoff) .internal s
      (.busy call (.check keys handoff))
  | present {key keys handoff} (live : s.memory key ≠ none) :
    ClientStep cfg adapter s client call (.check (key :: keys) handoff) .internal s
      (.busy call (.remove key keys handoff))
  | remove {key keys handoff} :
    ClientStep cfg adapter s client call (.remove key keys handoff) .internal
      { s with memory := Function.update s.memory key none } (.busy call (.check keys handoff))
  | checked {handoff} :
    ClientStep cfg adapter s client call (.check [] handoff) .internal s (.busy call (.forward handoff))
  | skip : ClientStep cfg adapter s client call (.forward .skip) .internal s (.busy call (.finish none))
  /-- Under `WriteThrough` the error of the call is returned; a panic unwinds to the caller. -/
  | direct {write} :
    ClientStep cfg adapter s client call (.forward (.direct write)) (.made client [.called write])
      { s with l2 := (adapter.call s.l2 write).1 }
      (if (adapter.call s.l2 write).2 = .panicked then .free else .busy call (.finish none))
  | enqueued :
    ClientStep cfg adapter s client call (.forward (.enqueue [])) .internal s (.busy call (.finish none))
  | running {write rest} (working : s.stop = false) :
    ClientStep cfg adapter s client call (.forward (.enqueue (write :: rest))) .internal s
      (.busy call (.send write rest))
  | stopped {write rest} (stopping : s.stop = true) :
    ClientStep cfg adapter s client call (.forward (.enqueue (write :: rest))) .internal s
      (.busy call (.sync write rest))
  | send {write rest} (room : (s.queues (cfg.writeQueueOf write.key)).length < cfg.buffer) :
    ClientStep cfg adapter s client call (.send write rest)
      (.accepted client (cfg.writeQueueOf write.key) write)
      (s.push (cfg.writeQueueOf write.key) write) (.busy call (.forward (.enqueue rest)))
  | full {write rest} (overflow : cfg.buffer ≤ (s.queues (cfg.writeQueueOf write.key)).length) :
    ClientStep cfg adapter s client call (.send write rest) .internal s (.busy call (.sync write rest))
  | sync {write rest l2 events panicked}
      (ran : deliverCall cfg.toWriteBackConfig adapter s.l2 write.call = (l2, events, panicked)) :
    ClientStep cfg adapter s client call (.sync write rest) (.made client events) { s with l2 := l2 }
      (if panicked then .free else .busy call (.forward (.enqueue rest)))
  | hit {key value} (live : s.memory key = some value) :
    ClientStep cfg adapter s client call (.read key) .internal s (.busy call (.finish (some value)))
  | miss {key} (absent : s.memory key = none) :
    ClientStep cfg adapter s client call (.read key) .internal s (.busy call (.readL2 key))
  | absent {key} (missing : adapter.get s.l2 key = none) :
    ClientStep cfg adapter s client call (.readL2 key) (.looked client key) s
      (.busy call (.finish none))
  | found {key value} (present : adapter.get s.l2 key = some value) :
    ClientStep cfg adapter s client call (.readL2 key) (.looked client key) s
      (.busy call (.promote key value))
  | promote {key value memory} (stores : Stores key value s.memory memory) :
    ClientStep cfg adapter s client call (.promote key value) .internal { s with memory := memory }
      (.busy call (.finish (some value)))
  | mark {waiter queue} (within : queue < cfg.workers) (room : (s.queues queue).length < cfg.buffer) :
    ClientStep cfg adapter s client call (.mark waiter queue)
      (.accepted client queue (checkpointTask ⟨waiter, queue⟩))
      (s.push queue (checkpointTask ⟨waiter, queue⟩)) (.busy call (.mark waiter (queue + 1)))
  | markStopped {waiter queue} (within : queue < cfg.workers) (stopping : s.stop = true) :
    ClientStep cfg adapter s client call (.mark waiter queue) .internal s (.busy call (.finish none))
  | marked {waiter} :
    ClientStep cfg adapter s client call (.mark waiter cfg.workers) .internal s
      (.busy call (.await waiter 0))
  | await {waiter queue} (within : queue < cfg.workers) (released : ⟨waiter, queue⟩ ∈ s.released) :
    ClientStep cfg adapter s client call (.await waiter queue) .internal s
      (.busy call (.await waiter (queue + 1)))
  | awaitStopped {waiter queue} (within : queue < cfg.workers) (stopping : s.stop = true) :
    ClientStep cfg adapter s client call (.await waiter queue) .internal s (.busy call (.finish none))
  | awaited {waiter} :
    ClientStep cfg adapter s client call (.await waiter cfg.workers) .internal s
      (.busy call (.finish none))
  | finish {answer} :
    ClientStep cfg adapter s client call (.finish answer) (.returned client call answer) s .free

/-- One step of the two levels. -/
inductive Step (cfg : SystemConfig K) (adapter : Adapter K V σ) (s : TwoLevel K V σ) :
    Happening K V → TwoLevel K V σ → Prop
  | begin (client : Nat) (call : Call K V) (free : s.clients client = .free) :
    Step cfg adapter s (.began client call)
      { s.turn client (.busy call (call.start cfg s.calls)) with calls := s.calls + 1 }
  | client (client : Nat) {call stage label s' next} (busy : s.clients client = .busy call stage)
      (stepped : ClientStep cfg adapter s client call stage label s' next) :
    Step cfg adapter s label (s'.turn client next)
  | evict {memory} (forgets : Forgets s.memory memory) :
    Step cfg adapter s .internal { s with memory := memory }
  | work (queue : Nat) {p events} (within : queue < cfg.workers)
      (stepped : (s.pipe queue).step cfg.toWriteBackConfig adapter s.stop = some (p, events)) :
    Step cfg adapter s (.worked queue events)
      { s with
        workers := Function.update s.workers queue p.worker
        queues := Function.update s.queues queue p.queue
        l2 := p.l2
        released := s.released ++ markers events }
  | close (first : s.closer = .notCalled) :
    Step cfg adapter s .closing { s with stop := true, closer := .joining }
  | joined (joining : s.closer = .joining) (gone : ∀ queue < cfg.workers, s.workers queue = .done) :
    Step cfg adapter s .internal { s with closer := .draining 0 }
  /-- `Close` drains a queue the way its worker did: until it is empty. -/
  | drain {queue} (draining : s.closer = .draining queue) (within : queue < cfg.workers)
      (gone : s.workers queue = .done) (left : s.queues queue ≠ []) :
    Step cfg adapter s .internal { s with workers := Function.update s.workers queue .idle }
  | drained {queue} (draining : s.closer = .draining queue) (within : queue < cfg.workers)
      (gone : s.workers queue = .done) (empty : s.queues queue = []) :
    Step cfg adapter s .internal { s with closer := .draining (queue + 1) }
  | closed (draining : s.closer = .draining cfg.workers) :
    Step cfg adapter s .internal { s with closer := .returned }

/-- A cache that has just been built, over a memory and a second level of any contents. -/
def fresh (memory : K → Option V) (l2 : σ) : TwoLevel K V σ :=
  { memory := memory
    l2 := l2
    stop := false
    queues := fun _ => []
    workers := fun _ => .idle
    released := []
    clients := fun _ => .free
    calls := 0
    closer := .notCalled }

end TwoLevel

end Memstash
