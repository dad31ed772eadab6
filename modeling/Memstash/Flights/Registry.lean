import Memstash.Cache.Level
import Memstash.Lib.FiniteMap

/-! The registry of flights: eight inline slots a bucket, and a map for what does not fit. -/

namespace Memstash

open Scan

variable {K V E : Type}

/-- The inline capacity of one bucket. -/
def flightSlots : Nat := 8

/-- The slot number of a call in a bucket's overflow map. -/
def flightSpilled : Nat := 0xFF

/-- One flight: its key, what it leaves for its waiters, and where the registry has it. -/
structure FlightCall (K V E : Type) where
  key : K
  val : V
  err : Option E
  /-- The owner is done and its waiters may go on. -/
  finished : Bool
  /-- The bucket in the high byte, the slot in the low one. -/
  place : BitVec 16
  ok : Bool
  /-- Someone was handed this call instead of a flight of its own. -/
  joined : Bool

/-- One bucket of the registry; calls are pointers, here the addresses of a store of calls. -/
structure FlightBucket (K : Type) where
  /-- Which slots are taken. -/
  live : BitVec 8
  call : Nat → Option Nat
  hash : Nat → BitVec 64
  /-- The overflow map, absent until it is needed. -/
  spill : Option (Finmap fun _ : K => Nat)

/-- The registry, and the calls it points to. -/
structure Flights (K V E : Type) where
  mask : Nat
  buckets : Nat → FlightBucket K
  calls : Nat → FlightCall K V E

/-- The number of zero bits below the lowest one. -/
def trailingZeros8 (m : BitVec 8) : Nat := ((List.range 8).find? fun i => m.getLsbD i).getD 8

/-- The slots the loop over a mask visits, clearing the lowest bit at each turn. -/
def slotsOf : Nat → BitVec 8 → List Nat
  | 0, _ => []
  | fuel + 1, m => if m = 0#8 then [] else trailingZeros8 m :: slotsOf fuel (m &&& (m - 1#8))

namespace FlightBucket

/-- An empty bucket. -/
def empty : FlightBucket K := ⟨0#8, fun _ => none, fun _ => 0#64, none⟩

variable [DecidableEq K]

/-- The call some slots have for a key; a missing call behind a matching hash is a nil dereference. -/
def find (b : FlightBucket K) (calls : Nat → FlightCall K V E) (keyHash : BitVec 64) (key : K) :
    List Nat → Except Fault (Option Nat)
  | [] => .ok none
  | i :: rest =>
    if b.hash i = keyHash then
      match b.call i with
      | none => .error .panic
      | some id => if (calls id).key = key then .ok (some id) else b.find calls keyHash key rest
    else b.find calls keyHash key rest

end FlightBucket

namespace Flights

/-- A registry without flights, over some number of buckets. -/
def empty (mask : Nat) (calls : Nat → FlightCall K V E) : Flights K V E :=
  ⟨mask, fun _ => .empty, calls⟩

/-- The bucket of a key hash. -/
def bucketOf (s : Flights K V E) (keyHash : BitVec 64) : Nat := keyHash.toNat % 2 ^ 32 &&& s.mask

/-- Replace one bucket. -/
def putBucket (s : Flights K V E) (i : Nat) (b : FlightBucket K) : Flights K V E :=
  { s with buckets := Function.update s.buckets i b }

/-- Replace one call. -/
def putCall (s : Flights K V E) (id : Nat) (call : FlightCall K V E) : Flights K V E :=
  { s with calls := Function.update s.calls id call }

/-- Where a call is parked. -/
def placeOf (bucket slot : Nat) : BitVec 16 := BitVec.ofNat 16 bucket <<< 8 ||| BitVec.ofNat 16 slot

variable [DecidableEq K]

/-- Hand an already running flight to one more caller. -/
def join (s : Flights K V E) (winner : Nat) : Flights K V E :=
  s.putCall winner { s.calls winner with joined := true }

/-- Register a call for a key, or hand back the flight already running for it. -/
def claim (s : Flights K V E) (keyHash : BitVec 64) (key : K) (call : Nat) :
    Except Fault (Flights K V E × Nat × Bool) := do
  let bucket := s.bucketOf keyHash
  let b := s.buckets bucket
  match ← b.find s.calls keyHash key (slotsOf flightSlots b.live) with
  | some winner => return (s.join winner, winner, true)
  | none =>
    match b.spill.bind (Finmap.lookup key) with
    | some winner => return (s.join winner, winner, true)
    | none =>
      let free := trailingZeros8 (~~~b.live)
      if free = flightSlots then
        let s := s.putCall call
          { s.calls call with key := key, place := placeOf bucket flightSpilled }
        let spill := (b.spill.getD ∅).insert key call
        return (s.putBucket bucket { b with spill := some spill }, call, false)
      else
        let s := s.putCall call { s.calls call with key := key, place := placeOf bucket free }
        let b := { b with
          hash := Function.update b.hash free keyHash
          call := Function.update b.call free (some call)
          live := b.live ||| 1#8 <<< free }
        return (s.putBucket bucket b, call, false)

/-- Take a call out of its bucket. -/
def unpark (b : FlightBucket K) (call : FlightCall K V E) : Except Fault (FlightBucket K) :=
  let slot := (call.place &&& 0xFF#16).toNat
  if slot ≠ flightSpilled then
    if slot < flightSlots then
      .ok { b with live := b.live &&& ~~~(1#8 <<< slot), call := Function.update b.call slot none }
    -- An index past the slots.
    else .error .panic
  else
    let spill := (b.spill.getD ∅).erase call.key
    .ok { b with spill := if spill.keys.card = 0 then none else some spill }

/-- Drop a flight, and wake its waiters if it has any. -/
def release (s : Flights K V E) (call : Nat) : Except Fault (Flights K V E) := do
  let bucket := (s.calls call).place.toNat / 2 ^ 8
  -- A bucket past the registry's.
  if s.mask < bucket then throw .panic
  let b ← unpark (s.buckets bucket) (s.calls call)
  let s := s.putBucket bucket b
  if (s.calls call).joined then return s.putCall call { s.calls call with finished := true }
  else return s

end Flights

end Memstash
