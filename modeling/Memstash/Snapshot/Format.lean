import Memstash.Lib.ByteNumbers
import Memstash.Cache.Held
import Memstash.WriteBack.System

/-! Snapshots of the first level: the byte format, saving to it and loading from it. -/

namespace Memstash

open Streams ByteNumbers Scan Machine

variable {K V σ ε : Type}

/-- How keys or values are written as bytes and read back. -/
structure Codec (α ε : Type) where
  marshal : α → Except ε (List UInt8)
  unmarshal : List UInt8 → Except ε α

/-- Why a stream is not a snapshot. -/
inductive BadSnapshot where
  | header (e : Streams.ReadError)
  | badMagic
  | version (found : UInt8)
  | keyLength (e : Streams.ReadError)
  | valueLength (e : Streams.ReadError)
  | lifetime (e : Streams.ReadError)
  | chunk (size : Nat)
  | payload (e : Streams.ReadError)
  deriving DecidableEq, Repr

/-- What saving and loading return as errors. -/
inductive SnapshotError (ε : Type) where
  /-- Every error that wraps `ErrBadSnapshot`. -/
  | badSnapshot (why : BadSnapshot)
  | nilCodec
  | conflictingLoadOptions
  | encodingKey (e : ε)
  | encodingValue (e : ε)
  | decodingKey (e : ε)
  | decodingValue (e : ε)
  | l2 (e : ε)
  deriving DecidableEq, Repr

/-- The options of loading. -/
inductive LoadOption where
  | loadWithCurrentTTL
  | loadWithTTL
  | loadToL2
  deriving DecidableEq, Repr

/-- The text `memstash`. -/
def snapshotMagic : List UInt8 := [0x6d, 0x65, 0x6d, 0x73, 0x74, 0x61, 0x73, 0x68]

/-- The version of the format. -/
def snapshotVersion : UInt8 := 1

/-- The bytes of the magic, the version and the save timestamp. -/
def snapshotHeaderSize : Nat := snapshotMagic.length + 1 + 8

/-- The most bytes of one encoded key or value. -/
def maxSnapshotChunk : Nat := 2 ^ 30

/-- The magic, the version and the moment of saving in nanoseconds. -/
def snapshotHeader (savedAt : Int) : List UInt8 :=
  snapshotMagic ++ [snapshotVersion] ++ bigEndian 8 (savedAt % 2 ^ 64).toNat

/-- A number, and bytes after it. -/
def writeChunk (size : Nat) (payload : List UInt8) : List UInt8 := putUvarint size ++ payload

/-- A lifetime in whole seconds, one more so that zero can mean none. -/
def lifeSeconds (life : Int) : Nat :=
  if life > 0 then (((int64 (life + (second - 1))).tdiv second + 1) % 2 ^ 64).toNat else 0

/-- The bytes of one item. -/
def writeRecord (keys : Codec K ε) (values : Codec V ε) :
    K × V × Int → Except (SnapshotError ε) (List UInt8)
  | (key, value, life) => do
    let keyBytes ← (keys.marshal key).mapError .encodingKey
    let valueBytes ← (values.marshal value).mapError .encodingValue
    -- Key lengths are stored one more, which frees zero to mark the end of the stream.
    return writeChunk (keyBytes.length + 1) keyBytes ++ writeChunk valueBytes.length valueBytes
      ++ writeChunk (lifeSeconds life) []

/-- The stream of the items a walk over the first level yields, with the life each has left. -/
def saveTo (keys : Option (Codec K ε)) (values : Option (Codec V ε)) (savedAt : Int)
    (walk : List (K × V × Int)) : Except (SnapshotError ε) (List UInt8) :=
  match keys, values with
  | some keys, some values => do
    let records ← walk.mapM (writeRecord keys values)
    return snapshotHeader savedAt ++ records.flatten ++ writeChunk 0 []
  | _, _ => .error .nilCodec

/-- Read the moment of saving. -/
def readHeader : Reader UInt8 (SnapshotError ε) Int := do
  let header ← (readFull snapshotHeaderSize).wrap fun e => .badSnapshot (.header e)
  if header.take snapshotMagic.length ≠ snapshotMagic then
    throw (.badSnapshot .badMagic)
  else if header.getD snapshotMagic.length 0 ≠ snapshotVersion then
    throw (.badSnapshot (.version (header.getD snapshotMagic.length 0)))
  else return int64 (ofBigEndian (header.drop (snapshotMagic.length + 1)))

/-- Read bytes, unless they are too many. -/
def readChunk (size : Nat) : Reader UInt8 (SnapshotError ε) (List UInt8) :=
  if size > maxSnapshotChunk then throw (.badSnapshot (.chunk size))
  else (readFull size).wrap fun e => .badSnapshot (.payload e)

/-- An item as the stream has it: the encoded key and value, and the lifetime. -/
structure RawRecord where
  keyBytes : List UInt8
  valueBytes : List UInt8
  lifeSeconds : Nat
  deriving DecidableEq, Repr

/-- Read the next item, or the end of the stream. -/
def readRecord : Reader UInt8 (SnapshotError ε) (Option RawRecord) := do
  let keyLen ← readUvarint.wrap fun e => .badSnapshot (.keyLength e)
  if keyLen = 0 then return none
  else
    let keyBytes ← readChunk (keyLen - 1)
    let valueLen ← readUvarint.wrap fun e => .badSnapshot (.valueLength e)
    let valueBytes ← readChunk valueLen
    let lifeSeconds ← readUvarint.wrap fun e => .badSnapshot (.lifetime e)
    return some ⟨keyBytes, valueBytes, lifeSeconds⟩

/-- What a record decodes to. -/
def RawRecord.decode (keys : Codec K ε) (values : Codec V ε) (raw : RawRecord) :
    Except (SnapshotError ε) (K × V) := do
  let key ← (keys.unmarshal raw.keyBytes).mapError .decodingKey
  let value ← (values.unmarshal raw.valueBytes).mapError .decodingValue
  return (key, value)

/-- The time from one moment to another, kept within what a duration can hold. -/
def timeUntil (moment now : Int) : Int := max (-2 ^ 63) (min (2 ^ 63 - 1) (moment - now))

/-- The expiration offset of an item that should outlive the clock by the remaining time. -/
def ShardConfig.expireOffsetIn (cfg : ShardConfig K V) (nowOff : Nat) (remaining : Int) : Nat :=
  if cfg.ttlOff = 0 ∨ remaining ≤ 0 then 0
  else
    let rounded := (int64 (int64 (remaining + cfg.expireUnit) - 1)).tdiv cfg.expireUnit
    let units := min (rounded % 2 ^ 32).toNat cfg.ttlOff
    let expireOff := (nowOff + units + 1) % 2 ^ 18
    if expireOff = 0 then 1 else expireOff

/-- The clocks a record is loaded at: the cache's own, and the wall clock in nanoseconds. -/
structure Moment where
  nowOff : Nat
  wall : Int

/-- The second level as loading uses it. -/
structure SecondLevel (K V σ ε : Type) where
  policy : WritePolicy
  /-- The lifetime of items in nanoseconds, zero for none. -/
  ttl : Int
  set : σ → K → V → Int → σ × Option ε
  enqueueWriteBack : σ → K → V → Int → σ

/-- What a call of `LoadFrom` reads besides its stream. -/
structure LoadPlan (K V σ ε : Type) where
  keys : Codec K ε
  values : Codec V ε
  keepTTL : Bool
  /-- The second level, when items are to be written to it. -/
  toL2 : Option (SecondLevel K V σ ε)
  savedAt : Int
  /-- The clocks at each of the records. -/
  moments : Nat → Moment

/-- How far loading has come, and why it stopped when it did. -/
structure Loaded (K V σ ε : Type) where
  memory : MemoryLevel K V
  l2 : σ
  deletions : List (Deletion K V)
  error : Option (SnapshotError ε)

/-- Mirror a loaded item to the second level. -/
def SecondLevel.writeLoadedToL2 (level : SecondLevel K V σ ε) (l2 : σ) (key : K) (value : V) (ttl : Int) :
    σ × Option ε :=
  match level.policy with
  | .writeThrough => level.set l2 key value ttl
  | .writeBack => (level.enqueueWriteBack l2 key value ttl, none)
  | .writeDisabled => (l2, none)

namespace LoadPlan

/-- The expiration offset of a loaded item and the lifetime it is left with, unless it would have
expired by now; absent when the item keeps no schedule and so gets the cache's own lifetime. -/
def schedule (plan : LoadPlan K V σ ε) (cfg : ShardConfig K V) (i lifeSeconds : Nat) :
    Option (Nat × Option Int) :=
  let moment := plan.moments i
  if plan.keepTTL ∧ lifeSeconds > 0 then
    let remaining :=
      timeUntil (plan.savedAt + int64 (int64 (lifeSeconds - 1) * second)) moment.wall
    if remaining ≤ 0 then none else some (cfg.expireOffsetIn moment.nowOff remaining, some remaining)
  else some (cfg.expireOffset moment.nowOff, none)

/-- Write an item through to the second level, when that was asked for. -/
def forward (plan : LoadPlan K V σ ε) (l2 : σ) (key : K) (value : V) (life : Option Int) :
    σ × Option ε :=
  match plan.toL2 with
  | none => (l2, none)
  | some level => level.writeLoadedToL2 l2 key value (life.getD level.ttl)

variable [Inhabited K] [Inhabited V] [DecidableEq K]

/-- Store one decoded record. -/
def loadItem (plan : LoadPlan K V σ ε) (i : Nat) (key : K) (value : V) (lifeSeconds : Nat)
    (state : Loaded K V σ ε) : Except Fault (Loaded K V σ ε) :=
  match plan.schedule state.memory.cfg i lifeSeconds with
  -- It would already have expired: there is nothing to restore.
  | none => return state
  | some (expireOff, life) => do
    let (memory, deletions) ← state.memory.setMemory (plan.moments i).nowOff key value expireOff
    let (l2, failed) := plan.forward state.l2 key value life
    return ⟨memory, l2, state.deletions ++ deletions, failed.map .l2⟩

/-- Load records up to the end of the stream or the first error. -/
def loadRecords (plan : LoadPlan K V σ ε) : Nat → Nat → List UInt8 → Loaded K V σ ε →
    Except Fault (Loaded K V σ ε)
  | 0, _, _, _ => .error .hang
  | fuel + 1, i, stream, state =>
    match readRecord stream with
    | .error e => .ok { state with error := some e }
    | .ok (none, _) => .ok state
    | .ok (some raw, rest) =>
      match raw.decode plan.keys plan.values with
      | .error e => .ok { state with error := some e }
      | .ok (key, value) => do
        let state ← plan.loadItem i key value raw.lifeSeconds state
        if state.error.isSome then return state else loadRecords plan fuel (i + 1) rest state

end LoadPlan

/-- What a call of `LoadFrom` makes of its arguments and the moment of saving. -/
def loadPlan (second : Option (SecondLevel K V σ ε)) (keys : Codec K ε) (values : Codec V ε)
    (opts : List LoadOption) (moments : Nat → Moment) (savedAt : Int) : LoadPlan K V σ ε :=
  { keys, values, savedAt, moments
    keepTTL := decide (LoadOption.loadWithTTL ∈ opts)
    toL2 := if LoadOption.loadToL2 ∈ opts then second else none }

namespace MemoryLevel

/-- Save the first level as it is. -/
def saveTo (nowOff : Nat) (c : MemoryLevel K V) (keys : Option (Codec K ε))
    (values : Option (Codec V ε)) (savedAt : Int) : Except (SnapshotError ε) (List UInt8) :=
  Memstash.saveTo keys values savedAt (c.iterateWithLife nowOff)

variable [Inhabited K] [Inhabited V] [DecidableEq K]

/-- Load a snapshot into the first level. -/
def loadFrom (c : MemoryLevel K V) (second : Option (SecondLevel K V σ ε)) (l2 : σ)
    (keys : Option (Codec K ε)) (values : Option (Codec V ε)) (opts : List LoadOption)
    (moments : Nat → Moment) (stream : List UInt8) : Except Fault (Loaded K V σ ε) :=
  let failed e : Except Fault (Loaded K V σ ε) := .ok ⟨c, l2, [], some e⟩
  match keys, values with
  | some keys, some values =>
    if LoadOption.loadWithTTL ∈ opts ∧ LoadOption.loadWithCurrentTTL ∈ opts then
      failed .conflictingLoadOptions
    else
      match readHeader stream with
      | .error e => failed e
      | .ok (savedAt, rest) =>
        -- Every record takes at least a byte, so there are no more of them than bytes.
        (loadPlan second keys values opts moments savedAt).loadRecords (stream.length + 1) 0 rest
          ⟨c, l2, [], none⟩
  | _, _ => failed .nilCodec

end MemoryLevel

end Memstash
