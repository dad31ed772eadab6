import Memstash.Lib.Probing
import Memstash.Itemstore.MetaWord
import Memstash.Itemstore.FlatHashMap
import Memstash.Itemstore.TableLaws
import Memstash.Itemstore.EvictQueue
import Memstash.Lib.Machine
import Memstash.Eviction.Clock
import Memstash.Lib.Turns
import Memstash.Eviction.S3Fifo
import Memstash.Eviction.TwoQueues
import Memstash.Eviction.WTinyLfu
import Memstash.Lib.Links
import Memstash.Eviction.Sieve
import Memstash.Eviction.SieveLaws
import Memstash.Eviction.Policy
import Memstash.Eviction.Contract
import Memstash.Cache.Shard
import Memstash.Cache.Probes
import Memstash.Cache.ShardInv
import Memstash.Cache.ShardLaws
import Memstash.Cache.Evicting
import Memstash.Cache.Rebuilding
import Memstash.Cache.Writing
import Memstash.Cache.Reading
import Memstash.Lib.FiniteMap
import Memstash.Cache.MapModel
import Memstash.Cache.Filling
import Memstash.Cache.Construction
import Memstash.Lib.Runs
import Memstash.Cache.Level
import Memstash.Cache.Accounting
import Memstash.Cache.Batch
import Memstash.Cache.Expiry
import Memstash.Lib.Traces
import Memstash.Cache.Held
import Memstash.Cache.Clocked
import Memstash.Cache.Deletions
import Memstash.WriteBack.Worker
import Memstash.WriteBack.WorkerLaws
import Memstash.WriteBack.Draining
import Memstash.WriteBack.System
import Memstash.WriteBack.SystemLaws
import Memstash.WriteBack.Barriers
import Memstash.WriteBack.Ordering
import Memstash.WriteBack.ReadingBack
import Memstash.WriteBack.Coherence
import Memstash.WriteBack.Memory
import Memstash.Lib.Streams
import Memstash.Lib.ByteNumbers
import Memstash.Snapshot.Format
import Memstash.Snapshot.FormatLaws
import Memstash.Snapshot.RoundTrip
import Memstash.Snapshot.Schedule
import Memstash.Cache.Lifetimes
import Memstash.Cache.Lookups
import Memstash.Lib.Programs
import Memstash.Lib.Threads
import Memstash.Flights.Registry
import Memstash.Flights.RegistryLaws
import Memstash.Flights.Coalescing
import Memstash.Flights.Loads
import Memstash.Flights.Holding
import Memstash.Flights.System
import Memstash.Lib.Occurrences
import Memstash.GetBatched.Batch
import Memstash.GetBatched.BatchLaws
import Memstash.GetBatched.Serving
import Memstash.GetBatched.ExactlyOnce
import Memstash.GetBatched.Agreement
import Memstash.Cache.Unexpired
import Memstash.Flights.Solo
import Memstash.Flights.BatchSpec
import Memstash.Flights.Loadable
import Memstash.Flights.Slab
import Memstash.Cache.Moves
import Memstash.Cache.Reachable
import Memstash.Cache.Footprint
import Memstash.Itemstore.Seqlock
import Memstash.Cache.Occupancy
import Memstash.Cache.EarlyExit
import Memstash.Cache.Wraparound
import Memstash.Cache.Prealloc
import Memstash.Itemstore.Fifo
import Memstash.Itemstore.Membership
import Memstash.L2.Expirations
import Memstash.Eviction.Sketch
import Memstash.Eviction.Ghosts
import Memstash.Eviction.Quarantine
import Memstash.Eviction.SieveRefines
import Memstash.L2.BulkWrites
import Memstash.Flights.Progress
import Memstash.L2.Concurrent
import Memstash.Flights.Wakeups
import Memstash.Cache.Views
import Memstash.Cache.Sharding
