import Cascade.Library.Bytes
import Cascade.Library.Crash
import Cascade.Library.SortedMap
import Cascade.Library.Tiling
import Cascade.Library.Registry
import Cascade.Library.Runs
import Cascade.Library.Potential
import Cascade.Library.Decoder
import Cascade.Library.Concurrent
import Cascade.Library.LinkedList
import Cascade.Library.ShiftRegister
import Cascade.Library.Remainder
import Cascade.Library.ReplicatedLog
import Cascade.Library.Numeral
import Cascade.Library.BinarySearch
import Cascade.Library.Window
import Cascade.Storage.Crc32
import Cascade.Storage.Checksum
import Cascade.Storage.Segment
import Cascade.Storage.Frame
import Cascade.Storage.Reading
import Cascade.Storage.Log
import Cascade.Storage.Transition
import Cascade.Storage.Contents
import Cascade.Storage.Refinement
import Cascade.Storage.History
import Cascade.Storage.Recovery
import Cascade.Storage.Reopening
import Cascade.Storage.Lifetime
import Cascade.Storage.TornWrite
import Cascade.Storage.SparseIndex
import Cascade.Storage.Corruption
import Cascade.Storage.BulkTransfer
import Cascade.Storage.Holes
import Cascade.Storage.KillTest
import Cascade.Storage.Durability
import Cascade.Storage.Availability
import Cascade.Storage.Retention
import Cascade.Storage.SegmentNames
import Cascade.Storage.SyncFailure
import Cascade.Storage.Batches
import Cascade.Storage.FailedAppends
import Cascade.Broker.OffsetStore
import Cascade.Broker.Partition
import Cascade.Broker.Keys
import Cascade.Broker.ConsistentHash
import Cascade.Broker.Publish
import Cascade.Broker.Producer
import Cascade.Broker.SyncFailure
import Cascade.Broker.Consumer
import Cascade.Broker.Cursors
import Cascade.Broker.Delivery
import Cascade.Broker.AtLeastOnce
import Cascade.Broker.Isolation
import Cascade.Broker.Backpressure
import Cascade.Broker.Pipeline
import Cascade.Broker.EndToEnd
import Cascade.Broker.Draining
import Cascade.Net.Framing
import Cascade.Net.TcpClient
import Cascade.Queue.Capacity
import Cascade.Queue.Mpmc
import Cascade.Queue.Ring
import Cascade.Queue.Exchange
import Cascade.Queue.Fifo
import Cascade.Queue.Spsc
import Cascade.Memory.Pool
import Cascade.Memory.FreeList
import Cascade.Memory.Ownership
import Cascade.Memory.Invariant
import Cascade.Memory.Exclusive
import Cascade.Timer.Wheel
import Cascade.Timer.History
import Cascade.Timer.Simulation
import Cascade.Timer.Exact
import Cascade.Net.ConnectionManager
import Cascade.Net.ConnectionTimers
import Cascade.Net.Liveness
import Cascade.Net.Interleaving
import Cascade.Net.IoUringLoop
import Cascade.Net.TcpServer
import Cascade.Net.Messages
import Cascade.ThreadPool.Pool
import Cascade.ThreadPool.Execution
import Cascade.ThreadPool.Pending
import Cascade.ControlPlane.Stores
import Cascade.ControlPlane.Server
import Cascade.RaftNode.Fsm
import Cascade.RaftNode.Convergence
import Cascade.RaftNode.Heartbeats
import Cascade.RaftNode.Atomicity
import Cascade.Replicated.Server
import Cascade.Replicated.Serving
import Cascade.Replicated.Linearizable
import Cascade.Replicated.Redirects
import Cascade.Replicated.Equivalence
import Cascade.Replicated.Client
import Cascade.Replicated.Failover
import Cascade.Replicated.Leader
import Cascade.Replicated.BrokerClient
import Cascade.Broker.Creation
import Cascade.Broker.Heartbeating
import Cascade.Media.AudioPacket
import Cascade.Media.JitterBuffer
import Cascade.Media.AudioSession
import Cascade.Media.Retransmission
import Cascade.Media.Playout
import Cascade.Media.Reordering
import Cascade.Media.WrapAround
import Cascade.Media.NetworkEstimator
import Cascade.Media.BitrateController
import Cascade.Media.AdaptiveSender
import Cascade.Media.RateBound
import Cascade.Media.BandwidthWindow
import Cascade.Media.CounterRange
import Cascade.Metrics.Printing
import Cascade.Metrics.Histogram
import Cascade.Metrics.Scraping
import Cascade.Logger.Logger
