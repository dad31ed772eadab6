import Memstash.Lib.Machine

/-! How second-level stores are told a lifetime: converted durations and stored deadlines. -/

namespace Memstash

open Machine

/-- The unix second of a moment. -/
def unix (now : Int) : Int := int64 (now / second)

/-- The adapters that store the unix second at which an entry expires. -/
inductive DeadlineStore where
  | sql
  | dynamo
  | tarantool

namespace DeadlineStore

/-- The `expires_at` column of a row written now; zero means no expiration. -/
def sqlExpiresAt (now ttl : Int) : Int := if ttl ≤ 0 then 0 else unix (now + ttl)

/-- The `WHERE` clause of a read. -/
def sqlSelects (now expiresAt : Int) : Bool := expiresAt = 0 || expiresAt > unix now

/-- The TTL attribute of an item written now, if it has one. -/
def dynamoDeadline (now ttl : Int) : Option Int := if ttl > 0 then some (unix (now + ttl)) else none

/-- Whether a read takes the item for expired. -/
def dynamoExpired (now : Int) : Option Int → Bool
  | none => false
  | some deadline => deadline ≠ 0 && deadline ≤ unix now

/-- The deadline of a tuple written now, stored as a `uint64`. -/
def tarantoolExpiresAt (now ttl : Int) : Int := if ttl ≤ 0 then 0 else unix (now + ttl) % 2 ^ 64

/-- Whether a read takes the tuple for expired; it reads the deadline as an `int64`. -/
def tarantoolExpired (now expiresAt : Int) : Bool := int64 expiresAt ≠ 0 && int64 expiresAt ≤ unix now

/-- Whether an entry written at one time with a lifetime is present to a read at another. -/
def present (store : DeadlineStore) (written ttl read : Int) : Bool :=
  match store with
  | .sql => sqlSelects read (sqlExpiresAt written ttl)
  | .dynamo => !dynamoExpired read (dynamoDeadline written ttl)
  | .tarantool => !tarantoolExpired read (tarantoolExpiresAt written ttl)

end DeadlineStore

end Memstash
