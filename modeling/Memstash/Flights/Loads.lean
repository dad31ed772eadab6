import Memstash.Cache.Batch
import Memstash.Flights.Registry
import Memstash.Lib.Programs
import Memstash.WriteBack.System

/-! The load paths: single and batched loads, and their refreshing variants, as programs. -/

namespace Memstash

open Programs

variable {K V E : Type}

/-- The errors a load can end with; the last are those of the loader, of L2 and of the context. -/
inductive LoadError (E : Type) where
  | nilLoader
  | loaderPanic
  | failed (err : E)
  deriving DecidableEq, Repr

/-- What a flight leaves for its waiters. -/
structure FlightResult (V E : Type) where
  val : V
  err : Option (LoadError E)
  ok : Bool
  deriving DecidableEq, Repr

/-- A list of found pairs, with the error that came with it. -/
abbrev Reply (K V E : Type) := List (K × V) × Option E

/-- What the load paths ask of the memory, of the registry and of user code. -/
inductive LoadOp (K V E : Type) where
  | getMemory (key : K)
  /-- Walk to the first slot under a key's tag. -/
  | candidate (key : K)
  /-- Resolve a key against the slot its walk noted. -/
  | validate (key : K) (seen : Candidate)
  | peekMemory (key : K)
  | expireOffset
  | setMemory (key : K) (value : V) (expireOff : Nat)
  /-- Allocate a call. -/
  | newCall
  | claim (key : K) (call : Nat)
  | release (call : Nat)
  /-- Write the fields of a call that waiters read. -/
  | settle (call : Nat) (result : FlightResult V E)
  | wait (call : Nat)
  /-- Read the fields of a call that is over. -/
  | result (call : Nat)
  | l2Get (key : K)
  | l2BatchGet (keys : List K)
  | l2Set (key : K) (value : V)
  | l2BatchSet (items : List (K × V))
  | enqueueWriteBack (key : K) (value : V)
  | reportL2Err (key : K) (err : E)
  | load (key : K)
  | batchLoad (keys : List K)
  /-- Whether the cache is being closed. -/
  | closing

/-- The answers; where user code runs, a missing one stands for its panic. -/
abbrev LoadOp.Ans : LoadOp K V E → Type
  -- A lookup or a store may call the deletion handler.
  | getMemory _ => Option (Option V)
  | candidate _ => Option Candidate
  | validate _ _ => Option (Option V)
  | peekMemory _ => Option V
  | expireOffset => Nat
  | setMemory _ _ _ => Option Unit
  | newCall => Nat
  -- The flight to join, when one is running.
  | claim _ _ => Option Nat
  | release _ => Unit
  | settle _ _ => Unit
  -- The error of a context that ended first.
  | wait _ => Option E
  | result _ => FlightResult V E
  | l2Get _ => Option (Except E (Option V))
  | l2BatchGet _ => Option (Reply K V E)
  | l2Set _ _ => Option (Option E)
  | l2BatchSet _ => Option (Option E)
  | enqueueWriteBack _ _ => Option Unit
  | reportL2Err _ _ => Option Unit
  | load _ => Option (Except E V)
  | batchLoad _ => Option (Reply K V E)
  | closing => Bool

/-- A program of the load paths. -/
abbrev Load (K V E : Type) := Prog (LoadOp K V E) LoadOp.Ans

/-- What the load paths read of the configuration. -/
structure LoadConfig where
  /-- Whether there is a second level. -/
  l2Cache : Bool
  l2WritePolicy : WritePolicy

namespace Load

/-- Look a key up in memory. -/
def getMemory (key : K) : Load K V E (Option V) := .ask (.getMemory key) .orPanic

/-- Walk to the first slot under a key's tag. -/
def candidate (key : K) : Load K V E (Option Candidate) := .ask (.candidate key) .done

/-- Resolve a key against the slot its walk noted. -/
def validate (key : K) (seen : Candidate) : Load K V E (Option V) := .ask (.validate key seen) .orPanic

/-- Read what memory holds for a key, expired or not. -/
def peekMemory (key : K) : Load K V E (Option V) := .ask (.peekMemory key) .done

/-- The expiry offset of an item stored now. -/
def expireOffset : Load K V E Nat := .ask .expireOffset .done

/-- Put a value into memory. -/
def setMemory (key : K) (value : V) (expireOff : Nat) : Load K V E Unit :=
  .ask (.setMemory key value expireOff) .orPanic

/-- Allocate a call. -/
def newCall : Load K V E Nat := .ask .newCall .done

/-- Register a call for a key, or get the flight that runs already. -/
def claim (key : K) (call : Nat) : Load K V E (Option Nat) := .ask (.claim key call) .done

/-- Unregister a call and wake its waiters. -/
def release (call : Nat) : Load K V E Unit := .ask (.release call) .done

/-- Write the fields of a call that its waiters read. -/
def settle (call : Nat) (result : FlightResult V E) : Load K V E Unit :=
  .ask (.settle call result) .done

/-- Report an error of the second level. -/
def reportL2Err (key : K) (err : E) : Load K V E Unit := .ask (.reportL2Err key err) .orPanic

/-- Hand a write to the worker of its key. -/
def enqueueWriteBack (key : K) (value : V) : Load K V E Unit :=
  .ask (.enqueueWriteBack key value) .orPanic

/-- Whether the cache is being closed. -/
def closing : Load K V E Bool := .ask .closing .done

/-- Report the error of a batch for each of its keys. -/
def reportAll (keys : List K) : Option E → Load K V E Unit
  | none => pure ()
  | some err => .each (fun key => reportL2Err key err) keys

/-- Cache a freshly loaded value, and forward it to the second level. -/
def storeLoaded (cfg : LoadConfig) (key : K) (value : V) : Load K V E Unit := do
  let expireOff ← expireOffset
  setMemory key value expireOff
  match cfg.l2WritePolicy with
  | .writeDisabled => pure ()
  | .writeThrough =>
    let err ← .ask (.l2Set key value) .orPanic
    reportAll [key] err
  | .writeBack => enqueueWriteBack key value

/-- Cache freshly loaded values, and forward them to the second level. -/
def storeLoadedBatch (cfg : LoadConfig) (loaded : List (K × V)) : Load K V E Unit := do
  if loaded.isEmpty then return
  let expireOff ← expireOffset
  .each (fun item : K × V => setMemory item.1 item.2 expireOff) loaded
  match cfg.l2WritePolicy with
  | .writeDisabled => pure ()
  | .writeThrough =>
    let err ← .ask (.l2BatchSet loaded) .orPanic
    reportAll (loaded.map Prod.fst) err
  | .writeBack =>
    .each (fun item : K × V => enqueueWriteBack item.1 item.2) loaded

variable [Inhabited V]

/-- The end of a single load: run the loader, and cache its value. -/
def runLoad (cfg : LoadConfig) (key : K) : Load K V E (V × Option (LoadError E)) := do
  match ← .ask (.load key) .orPanic with
  | .error err => return (default, some (.failed err))
  | .ok value =>
    storeLoaded cfg key value
    return (value, none)

/-- Load a key this call owns. -/
def doLoad (cfg : LoadConfig) (key : K) : Load K V E (V × Option (LoadError E)) := do
  -- A parallel flight may have finished while this one was registering.
  match ← getMemory key with
  | some value => return (value, none)
  | none =>
    if cfg.l2Cache then
      match ← .ask (.l2Get key) .orPanic with
      | .ok (some value) =>
        let expireOff ← expireOffset
        setMemory key value expireOff
        return (value, none)
      | .ok none => runLoad cfg key
      | .error err =>
        reportL2Err key err
        runLoad cfg key
    else runLoad cfg key

/-- What stands on a flight until its owner has a result. -/
def unresolved : FlightResult V E := ⟨default, some .loaderPanic, false⟩

/-- Wait for a flight, for its result or for the end of the context. -/
def await (winner : Nat) : Load K V E (Except (LoadError E) (FlightResult V E)) := do
  let canceled : Option E ← .ask (.wait winner) .done
  match canceled with
  | some err => return .error (.failed err)
  | none =>
    let result : FlightResult V E ← .ask (.result winner) .done
    return .ok result

/-- Load a key, or wait for the flight that is already loading it. -/
def getOrLoad (cfg : LoadConfig) (loader : Bool) (key : K) : Load K V E (V × Option (LoadError E)) := do
  if !loader then return (default, some .nilLoader)
  match ← getMemory key with
  | some value => return (value, none)
  | none =>
    let call ← newCall
    match ← claim key call with
    | some winner =>
      match ← await winner with
      | .error err => return (default, some err)
      | .ok result => return (result.val, result.err)
    | none =>
      settle call unresolved
      let owned : Load K V E (V × Option (LoadError E)) := do
        let (value, err) ← doLoad cfg key
        settle call ⟨value, err, err.isNone⟩
        return (value, err)
      owned.deferring (release call)

/-- The flights of one batch: the keys it owns with their calls, and the flights it joined. -/
structure BatchFlights (K : Type) where
  owned : List K
  calls : List Nat
  joined : List (K × Nat)

/-- Claim the flight of a key for a batch. -/
def claimFor (fl : BatchFlights K) (key : K) : Load K V E (BatchFlights K) := do
  let call ← newCall
  -- The error stands until the batch has a result, so that a panicking loader resolves the flight.
  settle call unresolved
  match ← claim key call with
  | some winner => return { fl with joined := fl.joined ++ [(key, winner)] }
  | none => return { fl with owned := fl.owned ++ [key], calls := fl.calls ++ [call] }

/-- Note a hit of the memory pass, or claim the flight of a miss. -/
def noteOrClaim (found : List (K × V)) (fl : BatchFlights K) (key : K) :
    Option V → Load K V E (List (K × V) × BatchFlights K)
  | some value => return (found ++ [(key, value)], fl)
  | none => do
    let fl ← claimFor fl key
    return (found, fl)

/-- The memory pass of a small batch: every miss claims its flight before the next lookup. -/
def passEach : List K → List (K × V) → BatchFlights K → Load K V E (List (K × V) × BatchFlights K)
  | [], found, fl => return (found, fl)
  | key :: keys, found, fl => do
    let answer ← getMemory key
    let (found, fl) ← noteOrClaim found fl key answer
    passEach keys found fl

/-- Walk the keys of a group to their candidates. -/
def walkGroup : List K → Load K V E (List (K × Option Candidate))
  | [] => return []
  | key :: keys => do
    let seen ← candidate key
    let rest ← walkGroup keys
    return (key, seen) :: rest

/-- Validate the candidates of a group; a key without one is a miss. -/
def validateGroup : List (K × Option Candidate) → Load K V E (List (K × Option V))
  | [] => return []
  | (key, none) :: rest => do
    let answers ← validateGroup rest
    return (key, none) :: answers
  | (key, some seen) :: rest => do
    let answer ← validate key seen
    let answers ← validateGroup rest
    return (key, answer) :: answers

/-- Resolve a group of keys: all of them are walked before the first is validated. -/
def batchGetGroup (keys : List K) : Load K V E (List (K × Option V)) := do
  let seen ← walkGroup keys
  validateGroup seen

/-- Note the hits of a group, and claim the flights of its misses. -/
def claimGroup : List (K × Option V) → List (K × V) → BatchFlights K →
    Load K V E (List (K × V) × BatchFlights K)
  | [], found, fl => return (found, fl)
  | (key, answer) :: rest, found, fl => do
    let (found, fl) ← noteOrClaim found fl key answer
    claimGroup rest found fl

/-- The memory pass of a larger batch: a group is looked up before the first of its misses is claimed. -/
def passGroups : Nat → List K → List (K × V) → BatchFlights K →
    Load K V E (List (K × V) × BatchFlights K)
  | 0, _, found, fl => return (found, fl)
  | fuel + 1, keys, found, fl => do
    if keys.isEmpty then return (found, fl)
    let answers ← batchGetGroup (keys.take MemoryLevel.batchGroupSize)
    let (found, fl) ← claimGroup answers found fl
    passGroups fuel (keys.drop MemoryLevel.batchGroupSize) found fl

/-- The memory pass of a batched load. -/
def batchGetMemoryFlights (keys : List K) : Load K V E (List (K × V) × BatchFlights K) :=
  if keys.length ≤ MemoryLevel.smallBatch then passEach keys [] ⟨[], [], []⟩
  -- Every group takes at least one key, so there are no more groups than keys.
  else passGroups keys.length keys [] ⟨[], [], []⟩

omit [Inhabited V] in
/-- Run the loader and cache what came back, partial answers included. -/
def runLoader (cfg : LoadConfig) (keys : List K) : Load K V E (Reply K V E) := do
  let (loaded, err) ← .ask (.batchLoad keys) .orPanic
  if !loaded.isEmpty then storeLoadedBatch cfg loaded
  return (loaded, err)

omit [Inhabited V] in
/-- Promote the pairs the second level answered with. -/
def promote (items : List (K × V)) : Load K V E Unit :=
  .each (fun item : K × V => do
    let expireOff ← expireOffset
    setMemory item.1 item.2 expireOff) items

section Batch

variable [DecidableEq K]

omit [Inhabited V] in
/-- Resolve the owned keys of a batch: from the second level first, the rest with one loader call. -/
def batchLoad (cfg : LoadConfig) (keys : List K) : Load K V E (Reply K V E) := do
  if !cfg.l2Cache then runLoader cfg keys
  else
    let (fromL2, err) ← .ask (.l2BatchGet keys) .orPanic
    reportAll keys err
    promote fromL2
    let toLoad := if fromL2.isEmpty then keys
      else keys.filter fun key => key ∉ fromL2.map Prod.fst
    if toLoad.isEmpty then return (fromL2, none)
    let (loaded, err) ← runLoader cfg toLoad
    return (fromL2 ++ loaded, err)

/-- The batch size above which an answer out of order gets an index. -/
def ownedScanMax : Nat := 32

/-- The slot of every owned key, the first occurrence winning. -/
def ownedIndex : Nat → List K → Finmap fun _ : K => Nat
  | _, [] => ∅
  | i, key :: keys => (ownedIndex (i + 1) keys).insert key i

/-- Where a key is among the owned ones. -/
def indexOf (owned : List K) (key : K) : Option (Finmap fun _ : K => Nat) → Option Nat
  | some index => index.lookup key
  | none => owned.findIdx? fun other => other = key

/-- Hand the answers of a batch to its flights, and collect those of owned keys. -/
def assignItems (owned : List K) : Nat → Option (Finmap fun _ : K => Nat) → List (K × V) →
    List (FlightResult V E) → List (K × V) → List (FlightResult V E) × List (K × V)
  | _, _, [], results, found => (results, found)
  | i, index, item :: rest, results, found =>
    -- Loaders answer in order unless they drop or add keys.
    if owned[i]? = some item.1 then
      assignItems owned (i + 1) index rest (results.set i ⟨item.2, none, true⟩) (found ++ [item])
    else
      let index := if index.isNone ∧ owned.length > ownedScanMax then some (ownedIndex 0 owned) else index
      match indexOf owned item.1 index with
      | none => assignItems owned (i + 1) index rest results found
      | some j =>
        assignItems owned (i + 1) index rest (results.set j ⟨item.2, none, true⟩) (found ++ [item])

/-- Hand a result to the owned flights; one the answers skipped carries the error. -/
def assignLoaded (owned : List K) (loaded : List (K × V)) (err : Option (LoadError E)) :
    List (FlightResult V E) × List (K × V) :=
  let (results, found) := assignItems owned 0 none loaded (owned.map fun _ => unresolved) []
  (results.map fun result => if result.ok then result else { result with err := err }, found)

/-- Write the results of a batch to its calls. -/
def settleAll : List Nat → List (FlightResult V E) → Load K V E Unit
  | call :: calls, result :: results => do
    settle call result
    settleAll calls results
  | _, _ => pure ()

omit [Inhabited V] [DecidableEq K] in
/-- Release the flights of a batch. -/
def releaseAll (calls : List Nat) : Load K V E Unit := .each release calls

/-- Resolve the keys a batch owns and release their flights, before it waits for anyone else's. -/
def loadOwned (cfg : LoadConfig) (fl : BatchFlights K) (found : List (K × V)) :
    Load K V E (List (K × V) × Option (LoadError E)) :=
  if fl.owned.isEmpty then return (found, none)
  else
    let body : Load K V E (List (K × V) × Option (LoadError E)) := do
      let (resolved, err) ← batchLoad cfg fl.owned
      let err := err.map LoadError.failed
      let (results, owned) := assignLoaded fl.owned resolved err
      settleAll fl.calls results
      return (found ++ owned, err)
    body.deferring (releaseAll fl.calls)

omit [DecidableEq K] in
/-- Wait for the flights a batch joined. -/
def awaitJoined : List (K × Nat) → List (K × V) → Option (LoadError E) →
    Load K V E (List (K × V) × Option (LoadError E))
  | [], found, loadErr => return (found, loadErr)
  | (key, call) :: rest, found, loadErr => do
    match ← await call with
    | .error err => return (found, some err)
    | .ok result =>
      if result.err.isNone ∧ result.ok then awaitJoined rest (found ++ [(key, result.val)]) loadErr
      else awaitJoined rest found (if loadErr.isNone then result.err else loadErr)

/-- Load a batch of keys, waiting for those that are already being loaded. -/
def batchGetOrLoad (cfg : LoadConfig) (loader : Bool) (keys : List K) :
    Load K V E (List (K × V) × Option (LoadError E)) := do
  if !loader then return ([], some .nilLoader)
  let (found, fl) ← batchGetMemoryFlights keys
  -- Nothing missed.
  if fl.owned.isEmpty ∧ fl.joined.isEmpty then return (found, none)
  let (found, loadErr) ← loadOwned cfg fl found
  awaitJoined fl.joined found loadErr

omit [DecidableEq K] in
/-- The background part of a refresh: load the key, whatever memory holds. -/
def loadInto (cfg : LoadConfig) (key : K) (call : Nat) : Load K V E Unit :=
  let body : Load K V E Unit := do
    match ← .ask (.load key) .orPanic with
    | .error err => settle call ⟨default, some (.failed err), false⟩
    | .ok value =>
      storeLoaded cfg key value
      settle call ⟨value, none, true⟩
  (body.recovering (settle call unresolved)).deferring (release call)

omit [DecidableEq K] in
/-- Return what memory holds, and reload the key in the background unless it is being loaded. -/
def getAndRefresh (cfg : LoadConfig) (loader : Bool) (key : K) :
    Load K V E (Option V × Option (Load K V E Unit)) := do
  let value ← peekMemory key
  if !loader then return (value, none)
  if ← closing then return (value, none)
  let call ← newCall
  settle call unresolved
  match ← claim key call with
  | some _ => return (value, none)
  | none => return (value, some (loadInto cfg key call))

omit [DecidableEq K] in
/-- Claim the flights of a list of keys. -/
def claimAll : List K → BatchFlights K → Load K V E (BatchFlights K)
  | [], fl => return fl
  | key :: keys, fl => do
    let fl ← claimFor fl key
    claimAll keys fl

/-- The background part of a batched refresh. -/
def loadBatchInto (cfg : LoadConfig) (keys : List K) : Load K V E Unit := do
  let fl ← claimAll keys ⟨[], [], []⟩
  if fl.owned.isEmpty then return
  let body : Load K V E Unit := do
    let (loaded, err) ← .ask (.batchLoad fl.owned) .orPanic
    storeLoadedBatch cfg loaded
    settleAll fl.calls (assignLoaded fl.owned loaded (err.map .failed)).1
  let recovery : Load K V E Unit := settleAll fl.calls (fl.owned.map fun _ => unresolved)
  (body.recovering recovery).deferring (releaseAll fl.calls)

omit [Inhabited V] [DecidableEq K] in
/-- What memory holds for a list of keys, expired or not. -/
def peekAll : List K → Load K V E (List (K × V))
  | [] => return []
  | key :: keys => do
    let value ← peekMemory key
    let rest ← peekAll keys
    return (value.map fun value => (key, value)).toList ++ rest

/-- Return what memory holds for some keys, and reload them in the background. -/
def batchGetAndRefresh (cfg : LoadConfig) (loader : Bool) (keys : List K) :
    Load K V E (List (K × V) × Option (Load K V E Unit)) := do
  let found ← peekAll keys
  if !loader || keys.isEmpty then return (found, none)
  if ← closing then return (found, none)
  return (found, some (loadBatchInto cfg keys))

end Batch

end Load

end Memstash
