import KjRedis.Lib.Incremental
import KjRedis.Lib.Occurrence
import KjRedis.Base.BipBuf
import KjRedis.Base.Strstr
import KjRedis.Lib.Slice
import KjRedis.Lib.PowerOfTwo
import KjRedis.Base.BipMemory
import KjRedis.Reply.Consumption
import KjRedis.Reply.Simulation
import KjRedis.Reply.BuilderSpecs
import KjRedis.Reply.ArraySpec
import KjRedis.Reply.ParserSpec
import KjRedis.Reply.ChunkInvariance
import KjRedis.Reply.CommandBuilder
import KjRedis.Reply.TextCopy
import KjRedis.Reply.Acceptance
import KjRedis.Reply.Storage
import KjRedis.Reply.Nesting
import KjRedis.Reply.Progress
import KjRedis.Reply.Levels
import KjRedis.Reply.CallStack
import KjRedis.Reply.Guards
import KjRedis.Reply.Building
import KjRedis.Reply.Suspended
import KjRedis.Reply.Stability
import KjRedis.Lib.Transition
import KjRedis.Base.ArrayStack
import KjRedis.Base.BipFifo
import KjRedis.Conn.Completion
import KjRedis.Conn.InFlight
import KjRedis.Conn.StringSizes
import KjRedis.Conn.Wire
import KjRedis.Conn.Attribution
import KjRedis.Conn.Client
import KjRedis.Conn.Service
import KjRedis.Conn.Subscriber
import KjRedis.Conn.Subscriptions
import KjRedis.Conn.Counting
import KjRedis.Conn.ReadLoop
import KjRedis.Conn.Malformed
import KjRedis.Conn.Pushes
import KjRedis.Conn.Resends
import KjRedis.Conn.Accounting
import KjRedis.Cache.CacheProxy
import KjRedis.Lib.WriteBehind
import KjRedis.Cache.DirtyEntries
import KjRedis.Cache.Looting
import KjRedis.Cache.ListProxy
import KjRedis.Cache.ListSubject
import KjRedis.Lib.Resumption
import KjRedis.Rdb.Compact
import KjRedis.Rdb.Builders
import KjRedis.Rdb.Suspension
import KjRedis.Rdb.RdbChunks
import KjRedis.Reply.Lengths
import KjRedis.Rdb.Numbers
import KjRedis.Rdb.Layout
import KjRedis.Lib.BackReference
import KjRedis.Rdb.Lzf
import KjRedis.Rdb.Ziplist
import KjRedis.Rdb.Zipmap
import KjRedis.Rdb.Bounds
import KjRedis.Rdb.Values
import KjRedis.Rdb.RecordReader
import KjRedis.Rdb.BodyReader
import KjRedis.Rdb.Records
import KjRedis.Rdb.FileReader
import KjRedis.Rdb.DumpReader
import KjRedis.Rdb.Delivery
import KjRedis.Rdb.Expiry
import KjRedis.Lib.Refill
import KjRedis.Rdb.DumpedData
import KjRedis.Rdb.ParseFile
import KjRedis.Rdb.WholeFile
import KjRedis.Lib.FoldTrace
import KjRedis.Reply.Integers
import KjRedis.Queue.Guarantees
import KjRedis.Work.WorkerProgress
import KjRedis.Work.TrunkQueue
import KjRedis.Cache.ListClients
import KjRedis.Lib.Heap
import KjRedis.Base.NxPools
import KjRedis.Base.FastMemcpy
import KjRedis.Base.Snprintf
import KjRedis.Rdb.PrintedIntegers
