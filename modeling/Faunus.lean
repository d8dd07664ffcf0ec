import Faunus.Interleaving.Program
import Faunus.Interleaving.Pool
import Faunus.Interleaving.Invariant
import Faunus.Interleaving.Ledger
import Faunus.Data.KVBlock
import Faunus.Data.Packing
import Faunus.Data.ArrayVar
import Faunus.Data.OrderedMap
import Faunus.Tiling.Forest
import Faunus.Rdma.Memory
import Faunus.Rdma.Verbs
import Faunus.Rdma.Allocator
import Faunus.Rdma.Regions
import Faunus.Rdma.Limits
import Faunus.Queueing.Link
import Faunus.Rdma.Delays
import Faunus.Rdma.Untimed
import Faunus.Rdma.Pacing
import Faunus.Cache.RangeCache
import Faunus.Cache.Reclamation
import Faunus.Cache.Guards
import Faunus.Cache.Hits
import Faunus.Cache.Registry
import Faunus.Cache.Victims
import Faunus.Index.Node
import Faunus.Index.Probing
import Faunus.Index.Operations
import Faunus.Index.System
import Faunus.Index.Machine
import Faunus.Index.Discipline
import Faunus.Index.ConformInsert
import Faunus.Index.Runs
import Faunus.Index.Locking
import Faunus.Index.Tiles
import Faunus.Index.Splits
import Faunus.Index.Ownership
import Faunus.Index.Dangling
import Faunus.Index.Contents
import Faunus.Index.Misses
import Faunus.Index.Copies
import Faunus.Index.Sites
import Faunus.Index.Updates
import Faunus.Index.Accounts
import Faunus.Index.Survivors
import Faunus.Index.Cleanup
import Faunus.Index.Convergence
import Faunus.Index.Partition
import Faunus.Index.LeafSplit
import Faunus.Index.Duplicates
import Faunus.Index.Sequences
import Faunus.Index.Accesses
import Faunus.Sherman.Page
import Faunus.Sherman.Memory
import Faunus.Sherman.Operations
import Faunus.Sherman.Tree
import Faunus.Sherman.Descent
import Faunus.Sherman.Records
import Faunus.Sherman.Growth
import Faunus.Sherman.Stock
import Faunus.Sherman.Solo
import Faunus.Sherman.Sequential
import Faunus.Sherman.Histories
import Faunus.Sherman.Cached
import Faunus.Sherman.Transparency
import Faunus.Interleaving.Traces
import Faunus.Sherman.System
import Faunus.Sherman.Propagation
import Faunus.Interleaving.Atomic
import Faunus.Sherman.Clients
import Faunus.Sherman.Sharing
import Faunus.Sherman.Granted
import Faunus.Sherman.Following
import Faunus.Sherman.Conduct
import Faunus.Sherman.Linearizable
import Faunus.Sherman.Waiting
import Faunus.Interleaving.Logs
import Faunus.Sherman.Locks
import Faunus.Sherman.Fallback
import Faunus.Sherman.LockMachine
import Faunus.Sherman.LockInvariant
import Faunus.Sherman.Tickets
import Faunus.Sherman.Handover
import Faunus.Sherman.Crossings
import Faunus.Sherman.Exclusion
import Faunus.Sherman.Capacity
import Faunus.Index.Standing
import Faunus.Index.Shelves
import Faunus.Index.Alone
import Faunus.Index.Answers
import Faunus.Index.Histories
import Faunus.Contract
import Faunus.Workload.KeySpace
import Faunus.Stats.Histograms
import Faunus.Rounding.Binary
import Faunus.Stats.Latency
import Faunus.Stats.Percentiles
import Faunus.Stats.Threads
import Faunus.Experiments.Dictionaries
import Faunus.Experiments.Runner
import Faunus.Interleaving.Census
import Faunus.Index.Maintenance
import Faunus.Index.Requests
