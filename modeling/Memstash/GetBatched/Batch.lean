import Memstash.Lib.Machine
import Memstash.Lib.Programs

/-! Coalesced reads: the batch a worker files requests into, and the worker's loop as a program. -/

namespace Memstash

open Programs Machine

variable {K V E : Type}

/-- The most distinct keys of one batch. -/
def getBatchMax : Nat := 128

/-- The batch size up to which keys are found by a scan. -/
def batchIndexFrom : Nat := 8

/-- One queued read: a key, and the slot its answer belongs in. -/
structure AsyncGet (K : Type) where
  key : K
  slot : Nat
  deriving DecidableEq, Repr

/-- A single batch: the slots that wait for a key form a chain from the key's head through the links. -/
structure GetBatch (K : Type) where
  /-- The distinct keys; there are few enough for their positions to fit any integer. -/
  keys : List K
  head : List Int
  next : List Int
  slots : List Nat
  /-- The positions of the keys, once a batch has been large enough. -/
  index : Option (K → Option Nat)

namespace GetBatch

/-- A batch nothing was ever filed into. -/
def empty : GetBatch K := ⟨[], [], [], [], none⟩

/-- Start over, keeping the index for later batches. -/
def reset (b : GetBatch K) : GetBatch K := ⟨[], [], [], [], b.index.map fun _ _ => none⟩

/-- The slots that wait along a chain, unless a link leads out of the batch. -/
def chain (b : GetBatch K) : Nat → Int → Option (List Nat)
  | 0, _ => none
  | fuel + 1, slot =>
    if slot < 0 then some []
    else do
      let waiting ← b.slots[slot.toNat]?
      let after ← b.next[slot.toNat]?
      let rest ← chain b fuel after
      return waiting :: rest

/-- Where the chain of a key begins; a negative link stands for a key that has been served. -/
def headAt (b : GetBatch K) (pos : Nat) : Int := b.head.getD pos (-1)

variable [DecidableEq K]

/-- The position of a key among the distinct ones. -/
def lookup (b : GetBatch K) (key : K) : Option Nat :=
  match b.index with
  | some index => index key
  | none => b.keys.idxOf? key

/-- The index of a list of keys. -/
def indexOfKeys (keys : List K) : K → Option Nat :=
  keys.zipIdx.foldl (fun index entry => Function.update index entry.1 (some entry.2)) fun _ => none

/-- Record the key just appended, and build the index on the batch that first outgrows the scan. -/
def indexKey (b : GetBatch K) (key : K) : GetBatch K :=
  match b.index with
  | some index => { b with index := some (Function.update index key (some (b.keys.length - 1))) }
  | none =>
    if b.keys.length ≤ batchIndexFrom then b
    else
      let index := indexOfKeys b.keys.dropLast
      { b with index := some (Function.update index key (some (b.keys.length - 1))) }

omit [DecidableEq K] in
/-- Append a key with the slot that waits for it. -/
def append (b : GetBatch K) (req : AsyncGet K) (slot : Int) : GetBatch K :=
  { b with
    slots := b.slots ++ [req.slot]
    next := b.next ++ [-1]
    keys := b.keys ++ [req.key]
    head := b.head ++ [slot] }

/-- File a request: a known key gets one more link in its chain. -/
def add (b : GetBatch K) (req : AsyncGet K) : GetBatch K :=
  let slot := int32 b.slots.length
  match b.lookup req.key with
  | some pos =>
    { b with
      slots := b.slots ++ [req.slot]
      next := b.next ++ [b.headAt pos]
      head := b.head.set pos slot }
  | none => (b.append req slot).indexKey req.key

end GetBatch

/-- The errors a read can end with: a panic on the worker, or a failure of the second level. -/
inductive ReadError (E : Type) where
  | panicked
  | failed (err : E)
  deriving DecidableEq, Repr

/-- What a read returns, and what a slot is settled with. -/
structure Answer (V E : Type) where
  value : V
  found : Bool
  err : Option (ReadError E)
  deriving DecidableEq, Repr

/-- What reads and the workers serving them ask of memory, of the second level and of the slots. -/
inductive ReadOp (K V E : Type) where
  | getMemory (key : K)
  | expireOffset
  | setMemory (key : K) (value : V) (expireOff : Nat)
  | l2Get (key : K)
  | l2BatchGet (keys : List K)
  /-- Hand an answer to the caller that waits at a slot. -/
  | settle (slot : Nat) (answer : Answer V E)
  /-- Tell the panic handler; its own panics are swallowed. -/
  | notifyPanic (handled : Bool)

/-- The answers; where user code runs, a missing one stands for its panic. -/
abbrev ReadOp.Ans : ReadOp K V E → Type
  -- A lookup or a store may call the deletion handler.
  | getMemory _ => Option (Option V)
  | expireOffset => Nat
  | setMemory _ _ _ => Option Unit
  -- The value, whether it was found, and the error.
  | l2Get _ => Option (V × Bool × Option E)
  | l2BatchGet _ => Option (List (K × V) × Option E)
  | settle _ _ => Unit
  | notifyPanic _ => Unit

/-- A program of the read paths. -/
abbrev Read (K V E : Type) := Prog (ReadOp K V E) ReadOp.Ans

namespace Read

/-- Look a key up in memory. -/
def getMemory (key : K) : Read K V E (Option V) := .ask (.getMemory key) .orPanic

/-- The expiry offset of an item stored now. -/
def expireOffset : Read K V E Nat := .ask .expireOffset .done

/-- Hand an answer to the caller that waits at a slot. -/
def settle (slot : Nat) (answer : Answer V E) : Read K V E Unit := .ask (.settle slot answer) .done

/-- Tell the panic handler. -/
def notifyPanic (handled : Bool) : Read K V E Unit := .ask (.notifyPanic handled) .done

/-- Hand one answer to every slot that waits for a key, and mark the key served. -/
def settleKey (b : GetBatch K) (pos : Nat) (answer : Answer V E) : Read K V E (GetBatch K) :=
  -- Links run backwards, so a chain is no longer than the batch.
  match b.chain (b.slots.length + 1) (b.headAt pos) with
  | none => .panic
  | some waiting => do
    .each (fun slot => settle slot answer) waiting
    return { b with head := b.head.set pos (-1) }

/-- Settle a key the second level answered for, in memory first; when the store panics, the batch is as it
was. -/
def settleHit (b : GetBatch K) (pos : Nat) (value : V) :
    Read K V E (Except (GetBatch K) (GetBatch K)) := do
  match b.keys[pos]? with
  | none => .panic
  | some key =>
    let expireOff ← expireOffset
    let stored : Option Unit ← .ask (.setMemory key value expireOff) .done
    match stored with
    | none => return .error b
    | some _ =>
      let b ← settleKey b pos ⟨value, true, none⟩
      return .ok b

/-- Settle the keys of a reply; strangers, and keys that were served, are skipped. -/
def settleHits [DecidableEq K] :
    GetBatch K → List (K × V) → Read K V E (Except (GetBatch K) (GetBatch K))
  | b, [] => return .ok b
  | b, item :: rest =>
    match b.lookup item.1 with
    | none => settleHits b rest
    | some pos =>
      if b.headAt pos ≥ 0 then do
        match ← settleHit b pos item.2 with
        | .error b => return .error b
        | .ok b => settleHits b rest
      else settleHits b rest

variable [Inhabited V]

/-- Settle the keys at some positions that have not been served. -/
def settlePositions (err : Option (ReadError E)) : List Nat → GetBatch K → Read K V E (GetBatch K)
  | [], b => return b
  | pos :: rest, b =>
    if b.headAt pos ≥ 0 then do
      let b ← settleKey b pos ⟨default, false, err⟩
      settlePositions err rest b
    else settlePositions err rest b

/-- Settle the keys the second level did not answer for. -/
def settleRest (b : GetBatch K) (err : Option (ReadError E)) : Read K V E (GetBatch K) :=
  settlePositions err (List.range b.head.length) b

/-- The second level's part of a read: the question, and the promotion of what it found. -/
def getFromL2 (key : K) : Read K V E (Answer V E) := do
  let reply : V × Bool × Option E ← .ask (.l2Get key) .orPanic
  let (value, ok, err) := reply
  if err.isSome ∨ ok = false then return ⟨default, false, err.map .failed⟩
  let expireOff ← expireOffset
  let _ : Unit ← .ask (.setMemory key value expireOff) .orPanic
  return ⟨value, true, none⟩

/-- Read a key on its own. -/
def get (key : K) : Read K V E (Answer V E) := do
  match ← getMemory key with
  | some value => return ⟨value, true, none⟩
  | none => getFromL2 key

variable [DecidableEq K]

/-- Ask the second level for a batch and settle what it answers; an error carries the batch as it was when
a panic struck. -/
def askL2 (b : GetBatch K) : Read K V E (Except (GetBatch K) (GetBatch K)) :=
  match b.keys with
  | [] => return .ok b
  | [key] => do
    let reply : Option (V × Bool × Option E) ← .ask (.l2Get key) .done
    match reply with
    | none => return .error b
    | some (value, found, err) =>
      if found then settleHit b 0 value
      else
        let b ← settleRest b (err.map .failed)
        return .ok b
  | keys => do
    let reply : Option (List (K × V) × Option E) ← .ask (.l2BatchGet keys) .done
    match reply with
    | none => return .error b
    | some (_, some err) =>
      let b ← settleRest b (some (.failed err))
      return .ok b
    | some (fromL2, none) =>
      match ← settleHits b fromL2 with
      | .error b => return .error b
      | .ok b =>
        let b ← settleRest b none
        return .ok b

/-- Resolve a batch; after a panic the callers that still wait are woken with it. -/
def resolveBatch (b : GetBatch K) : Read K V E (GetBatch K) := do
  match ← askL2 b with
  | .ok b => return b
  | .error b =>
    let b ← settleRest b (some .panicked)
    notifyPanic true
    return b

omit [Inhabited V] in
/-- File a request, unless its key has come into memory since it was queued. -/
def collect (b : GetBatch K) (req : AsyncGet K) : Read K V E (GetBatch K) := do
  match ← getMemory req.key with
  | some value =>
    settle req.slot ⟨value, true, none⟩
    return b
  | none => return b.add req

omit [Inhabited V] in
/-- Collect what is queued, until the queue is found empty or the batch is full. -/
def drain : GetBatch K → List (Option (AsyncGet K)) →
    Read K V E (GetBatch K × List (Option (AsyncGet K)))
  | b, [] => return (b, [])
  | b, poll :: polls =>
    if b.keys.length < getBatchMax then
      match poll with
      | none => return (b, polls)
      | some req => do
        let b ← collect b req
        drain b polls
    else return (b, poll :: polls)

/-- Resolve one read together with everything queued behind it. -/
def serveBatch (b : GetBatch K) (first : AsyncGet K) (polls : List (Option (AsyncGet K))) :
    Read K V E (GetBatch K × List (Option (AsyncGet K))) := do
  let b ← collect b.reset first
  let (b, polls) ← drain b polls
  let b ← resolveBatch b
  return (b, polls)

/-- Serve batch after batch, for as long as the queue is polled: a poll finds a request or, with none, an
empty queue. -/
def serveAll : Nat → GetBatch K → List (Option (AsyncGet K)) → Read K V E Unit
  | 0, _, _ => return ()
  | _ + 1, _, [] => return ()
  -- Between batches a worker waits for the first request.
  | fuel + 1, b, none :: polls => serveAll fuel b polls
  | fuel + 1, b, some first :: polls => do
    let (b, polls) ← serveBatch b first polls
    serveAll fuel b polls

/-- One worker: a panic that gets this far ends it. -/
def getBatchLoop (polls : List (Option (AsyncGet K))) : Read K V E Unit :=
  (serveAll polls.length .empty polls).recovering (notifyPanic false)

end Read

end Memstash
