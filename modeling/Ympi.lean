import Ympi.Foundation.Results
import Ympi.Foundation.Execution
import Ympi.Foundation.ConflictFree
import Ympi.Foundation.ChannelPrograms
import Ympi.Foundation.Chain
import Ympi.Foundation.Refinement
import Ympi.LinkedList.Basic
import Ympi.LinkedList.Represents
import Ympi.LinkedList.Operations
import Ympi.LinkedList.BoundedFifo
import Ympi.LinkedList.PooledQueue
import Ympi.LinkedList.Draining
import Ympi.LinkedList.CellPartition
import Ympi.Foundation.ByteStore
import Ympi.Foundation.Rotation
import Ympi.Foundation.Sums
import Ympi.Foundation.MixedRadix
import Ympi.Foundation.Segments
import Ympi.Foundation.Loops
import Ympi.Foundation.PeerRounds
import Ympi.Foundation.Lifetimes
import Ympi.Foundation.Thresholds
import Ympi.Foundation.Ring
import Ympi.Messaging.Verbs
import Ympi.Messaging.Context
import Ympi.Messaging.Calls
import Ympi.Messaging.CallEffects
import Ympi.Messaging.Node
import Ympi.Messaging.Cluster
import Ympi.Messaging.Ledgers
import Ympi.Messaging.Shape
import Ympi.Messaging.Runs
import Ympi.Messaging.CompletionOrder
import Ympi.Messaging.BufferConservation
import Ympi.Messaging.SendAccounting
import Ympi.Messaging.SendQueueBound
import Ympi.Messaging.CompletionQueueBound
import Ympi.Messaging.Starvation
import Ympi.Messaging.BufferContents
import Ympi.Messaging.HeldBuffers
import Ympi.Messaging.Delivery
import Ympi.Messaging.RdmaRequests
import Ympi.Messaging.CallRuns
import Ympi.Messaging.Flush
import Ympi.Messaging.ErrorReports
import Ympi.Messaging.ReceivePath
import Ympi.Messaging.FailedReturn
import Ympi.Messaging.Descriptors
import Ympi.Collective.Alltoall
import Ympi.Collective.Control
import Ympi.Collective.Effects
import Ympi.Collective.DataFlow
import Ympi.Collective.Rounds
import Ympi.Collective.Transpose
import Ympi.Collective.Reentry
import Ympi.Collective.ErrorReports
import Ympi.Collective.PointerRanges
import Ympi.Collective.OversizedCalls
import Ympi.Shuffle.Factors
import Ympi.Shuffle.SmoothNumbers
import Ympi.Shuffle.RouteTable
import Ympi.Shuffle.Routing
import Ympi.Shuffle.Exchange
import Ympi.Shuffle.Groups
import Ympi.Shuffle.Layout
import Ympi.Shuffle.Repetition
import Ympi.Shuffle.Topology
import Ympi.Shuffle.Selection
import Ympi.Shuffle.Boards
import Ympi.Shuffle.Leftovers
import Ympi.Shuffle.BoardSizes
import Ympi.Shuffle.SelectedCount
import Ympi.Shuffle.SelectionScan
import Ympi.Setup.QueuePairs
import Ympi.Setup.Connection
import Ympi.Setup.QpnLookup
import Ympi.Setup.SunwayNumbers
import Ympi.Setup.ContextCreation
import Ympi.AllPutAll.Benchmark
import Ympi.AllPutAll.Threads
import Ympi.AllPutAll.Accounts
import Ympi.AllPutAll.ReceivePool
import Ympi.AllPutAll.TargetLists
import Ympi.IbAllPutAll.ReceiveWindow
import Ympi.IbAllPutAll.WindowRuns
import Ympi.IbAllPutAll.Iterations
import Ympi.IbAllPutAll.Ledger
import Ympi.IbAllPutAll.Progress
import Ympi.IbAllPutAll.Draining
import Ympi.FanOut.Server
import Ympi.FanOut.Coverage
import Ympi.Messaging.Readiness
import Ympi.Messaging.Effort
import Ympi.Clients.Client
import Ympi.Clients.Script
import Ympi.Clients.Soundness
import Ympi.Clients.Refinement
import Ympi.Clients.Settling
import Ympi.Clients.Realization
import Ympi.Clients.Jam
import Ympi.Clients.Rounds
import Ympi.Clients.Phases
import Ympi.Clients.Plays
import Ympi.Clients.FanBenchmark
import Ympi.Clients.Streams
import Ympi.Foundation.LittleEndian
import Ympi.Clients.Deliveries
import Ympi.Clients.PointToPointTest
import Ympi.Clients.Guarantees
import Ympi.Foundation.RoundTable
import Ympi.Foundation.Doubling
import Ympi.Clients.ZalltoallBenchmark
import Ympi.Clients.ZalltoallRuns
import Ympi.Clients.Loops
import Ympi.Clients.AllputallProgram
import Ympi.Setup.ContextDestruction
import Ympi.Clients.CompletionQueue
import Ympi.Clients.Limits
import Ympi.Clients.LatencyBenchmark
import Ympi.Foundation.Copies
import Ympi.OneSided.Program
import Ympi.OneSided.Issuer
import Ympi.OneSided.Sequential
import Ympi.OneSided.Completion
import Ympi.OneSided.RdmaTests
