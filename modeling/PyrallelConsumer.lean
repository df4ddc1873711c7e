import PyrallelConsumer.Lib.Dict
import PyrallelConsumer.Lib.Counted
import PyrallelConsumer.Lib.SortedSet
import PyrallelConsumer.Lib.Machine
import PyrallelConsumer.Lib.Text
import PyrallelConsumer.Lib.PyStr
import PyrallelConsumer.Lib.MsgPack
import PyrallelConsumer.Lib.MsgPackFormat
import PyrallelConsumer.Lib.Runs
import PyrallelConsumer.Lib.Grouping
import PyrallelConsumer.Lib.FirstSights
import PyrallelConsumer.Lib.Insertions
import PyrallelConsumer.Lib.Evictions
import PyrallelConsumer.Lib.Family
import PyrallelConsumer.Lib.Refinement
import PyrallelConsumer.Lib.Calls
import PyrallelConsumer.Dto
import PyrallelConsumer.OffsetTracker
import PyrallelConsumer.MetadataEncoder
import PyrallelConsumer.CommitPlanner
import PyrallelConsumer.RebalanceSupport
import PyrallelConsumer.PoisonMessage
import PyrallelConsumer.WorkQueueTopology
import PyrallelConsumer.VirtualQueues
import PyrallelConsumer.QueueIndex
import PyrallelConsumer.WorkManager
import PyrallelConsumer.WorkView
import PyrallelConsumer.WorkLocks
import PyrallelConsumer.WorkSteps
import PyrallelConsumer.WorkAccounts
import PyrallelConsumer.WorkAssign
import PyrallelConsumer.WorkRuns
import PyrallelConsumer.WorkInvariant
import PyrallelConsumer.WorkExclusion
import PyrallelConsumer.WorkLedger
import PyrallelConsumer.IndexRuns
import PyrallelConsumer.SubmitRefusal
import PyrallelConsumer.WorkTrackers
import PyrallelConsumer.Dispatch
import PyrallelConsumer.Handoff
import PyrallelConsumer.TrackerCore
import PyrallelConsumer.CommitCoordinator
import PyrallelConsumer.Completion
import PyrallelConsumer.Poller
import PyrallelConsumer.PollerTrackers
import PyrallelConsumer.CommitSafety
import PyrallelConsumer.CommitProgress
import PyrallelConsumer.Fencing
import PyrallelConsumer.CommitLive
import PyrallelConsumer.CommitPaths
import PyrallelConsumer.CommitOrder
import PyrallelConsumer.ProcessTransport
import PyrallelConsumer.ProcessRegistry
import PyrallelConsumer.CompletionBuffer
import PyrallelConsumer.ProcessCodec
import PyrallelConsumer.WorkerRuntime
import PyrallelConsumer.ProcessEngine
import PyrallelConsumer.WorkerOutbox
import PyrallelConsumer.LossInvariant
import PyrallelConsumer.NoLostItem
import PyrallelConsumer.EngineFailures
import PyrallelConsumer.EngineOrigins
import PyrallelConsumer.TerminalFailures
import PyrallelConsumer.WorkEvents
import PyrallelConsumer.DeadLetterGate
import PyrallelConsumer.CrashIsolation
import PyrallelConsumer.DlqPublisher
import PyrallelConsumer.RetryLoops
import PyrallelConsumer.CompletionDelivery
import PyrallelConsumer.RouteBatchSubmit
import PyrallelConsumer.CompletionLoop
import PyrallelConsumer.CompletionConservation
import PyrallelConsumer.CoordinatorRuns
import PyrallelConsumer.CoordinatorLeases
import PyrallelConsumer.CoordinatorSettlement
import PyrallelConsumer.CoordinatorOrder
import PyrallelConsumer.CoordinatorCapacity
import PyrallelConsumer.CoordinatorAssignments
import PyrallelConsumer.CommitIntent
import PyrallelConsumer.DeadLetterOnce
import PyrallelConsumer.Backpressure
import PyrallelConsumer.DispatchRace
import PyrallelConsumer.RebalanceBridge
import PyrallelConsumer.ExactIndex
import PyrallelConsumer.ScheduleIterations
import PyrallelConsumer.TopologyOps
import PyrallelConsumer.TopologyRuns
import PyrallelConsumer.ScheduleCall
import PyrallelConsumer.ScheduleCancelled
import PyrallelConsumer.TrackerGaps
import PyrallelConsumer.TrackerConfluence
import PyrallelConsumer.BlockingTimeouts
import PyrallelConsumer.BatchSubmit
import PyrallelConsumer.QueueBatches
import PyrallelConsumer.GroupedDispatch
import PyrallelConsumer.CircuitReads
import PyrallelConsumer.CircuitFrames
import PyrallelConsumer.PoisonCooldown
import PyrallelConsumer.CooldownOperations
import PyrallelConsumer.AsyncEngine
import PyrallelConsumer.CompletionPolls
import PyrallelConsumer.CompletionStream
import PyrallelConsumer.UndecodableCompletion
import PyrallelConsumer.RegistryFencing
import PyrallelConsumer.RetryBackoff
import PyrallelConsumer.DlqCache
import PyrallelConsumer.SlotConservation
import PyrallelConsumer.AdaptiveLimits
import PyrallelConsumer.RouteBatchRun
import PyrallelConsumer.WireCodec
import PyrallelConsumer.SnapshotSafety
import PyrallelConsumer.ConsumerGroup
import PyrallelConsumer.PollerWork
import PyrallelConsumer.WorkBooks
import PyrallelConsumer.WorkMemory
import PyrallelConsumer.DispatchMemory
import PyrallelConsumer.InFlightBound
import PyrallelConsumer.GracefulDrain
import PyrallelConsumer.EnginePipeline
import PyrallelConsumer.EngineSystem
import PyrallelConsumer.AsyncSystem
import PyrallelConsumer.ProcessSystem
