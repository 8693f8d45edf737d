import Marketlib.Transition
import Marketlib.KeySorted
import Marketlib.MapTotals
import Marketlib.OrderBook
import Marketlib.PriceLevels
import Marketlib.BookLevels
import Marketlib.BookCapacity
import Marketlib.RobinHood
import Marketlib.BookRemoval
import Marketlib.OrderTable
import Marketlib.BookAggregate
import Marketlib.BookReadd
import Marketlib.BookQuantities
import Marketlib.BookReduce
import Marketlib.BookSnapshot
import Marketlib.SeqLock
import Marketlib.SharedBookTable
import Marketlib.RingIndex
import Marketlib.Disruptor
import Marketlib.Subscription
import Marketlib.TicketRing
import Marketlib.TryPush
import Marketlib.SpscQueue
import Marketlib.MpscQueue
import Marketlib.MpmcQueue
import Marketlib.Routing
import Marketlib.RoutingBounds
import Marketlib.ThreadPool
import Marketlib.DispatchOrder
import Marketlib.PoolShutdown
import Marketlib.ConfigField
import Marketlib.ConfigBind
import Marketlib.Outcome
import Marketlib.FieldLookup
import Marketlib.StrictBinding
import Marketlib.KeyOrder
import Marketlib.Taking
import Marketlib.ConfigMove
import Marketlib.MovedLeaves
import Marketlib.FilledInPlace
import Marketlib.TypedIntegers
import Marketlib.LookupStrategies
import Marketlib.TomlTree
import Marketlib.ConfigLoad
import Marketlib.ConfigPasses
import Marketlib.ConfigPriority
import Marketlib.OverrideTypes
import Marketlib.SetByPath
import Marketlib.TomlBridge
import Marketlib.PtreeBridge
import Marketlib.ListFormats
import Marketlib.ConfigPath
import Marketlib.CellWrites
import Marketlib.SelectRows
import Marketlib.BindingColumns
import Marketlib.BatchCells
import Marketlib.ChunkLoop
import Marketlib.InsertRows
import Marketlib.RowsSent
import Marketlib.RowDelivery
import Marketlib.MdDispatch
import Marketlib.ShortMessages
import Marketlib.PublishedBooks
import Marketlib.SearchTree
import Marketlib.KeyedTotals
import Marketlib.Lifecycle
import Marketlib.LinkedChain
import Marketlib.PoolAllocator
import Marketlib.Alignment
import Marketlib.ArenaAllocator
import Marketlib.LoggerRegistry
import Marketlib.Effects
import Marketlib.OciStatement
import Marketlib.StatementLog
import Marketlib.StatementView
import Marketlib.GenericRows
import Marketlib.BatchLoops
import Marketlib.LogDrain
import Marketlib.DebugRecords
import Marketlib.LogOrder
import Marketlib.LogWrap
import Marketlib.ThreadExit
import Marketlib.LogFlush
import Marketlib.Layers
import Marketlib.AcceptedShapes
import Marketlib.HiddenEntries
import Marketlib.XmlComments
import Marketlib.ExpandVars
import Marketlib.Histogram
import Marketlib.Meter
import Marketlib.ObservedSizes
import Marketlib.ConnectionHandles
import Marketlib.ColumnNames
import Marketlib.BatchAgreement
import Marketlib.FetchOutcomes
import Marketlib.DateFormat
import Marketlib.DateRoundTrip
import Marketlib.DateText
import Marketlib.Progress
import Marketlib.SignalHandlers
import Marketlib.SignalStages
import Marketlib.SignalOutcomes
import Marketlib.SignalEnds
import Marketlib.Ledger
import Marketlib.ClientResources
import Marketlib.LittleEndian
import Marketlib.Feed
import Marketlib.QuietStop
import Marketlib.FeedDelivery
import Marketlib.RetryBound
import Marketlib.StopReturns
import Marketlib.QueueDestruction
import Marketlib.RoundRobin
import Marketlib.ReadRetries
import Marketlib.CatchingUp
import Marketlib.StoredRows
