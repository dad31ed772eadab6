import Memstash.Snapshot.Schedule

/-! How long items live: the scale of a cache's clock, the offsets items get on it, and what is left of
a lifetime when the scale wraps. -/

namespace Memstash

open Machine MetaWord Scan
open CacheOp (tenSeconds)

variable {K V : Type}

namespace ShardConfig

end ShardConfig

namespace Config

variable {cfg resolved : Config K V} {around : Surroundings K V}

end Config

end Memstash
