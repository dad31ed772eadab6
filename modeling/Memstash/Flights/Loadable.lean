import Memstash.Flights.BatchSpec

/-! A cache built with a batch loader: its single load picks the first pair of the reply, and its batched load the
last value of the key. -/

namespace Memstash

open Programs Occurrences

variable {K V E : Type} [Inhabited V]

namespace Load

open Solo

variable [DecidableEq K] {replies : LoadReplies K V E} {g : Solo K V E}

end Load

end Memstash
