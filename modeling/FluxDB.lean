import FluxDB.Lib.Runs
import FluxDB.Lib.Maps
import FluxDB.TransactionManager
import FluxDB.TransactionSystem
import FluxDB.VersionChecks
import FluxDB.VersionStore
import FluxDB.SnapshotLaws
import FluxDB.Sessions
import FluxDB.KeyUniqueness
import FluxDB.LatchedSections
import FluxDB.PageLsns
import FluxDB.BufferPool
import FluxDB.BufferPoolPins
import FluxDB.RecordCover
import FluxDB.CheckpointRedo
import FluxDB.Lib.Alike
import FluxDB.Lib.Bytes
import FluxDB.PageBytes
import FluxDB.SamePages
import FluxDB.WalRecords
import FluxDB.Recovery
import FluxDB.LoggedChanges
import FluxDB.RunningIndex
import FluxDB.CrashRecovery
import FluxDB.PageRecycling
import FluxDB.ClogTruncation
import FluxDB.EngineSteps
import FluxDB.RecoveredStatus
import FluxDB.UndoneDeletes
import FluxDB.LogStatuses
import FluxDB.SegmentFiles
import FluxDB.PoolCoherence
import FluxDB.FrameSteps
import FluxDB.CoherentFetches
import FluxDB.Horizon
import FluxDB.SettledEnds
import FluxDB.Lib.Ring
import FluxDB.WalBuffer
import FluxDB.WalThreads
import FluxDB.WrittenFiles
import FluxDB.ConcurrentFlush
import FluxDB.FlushedRecords
import FluxDB.FollowerWakeups
import FluxDB.ReturningCalls
import FluxDB.ReopenedLog
import FluxDB.DurableCommits
import FluxDB.FailedCommits
import FluxDB.LogSequence
import FluxDB.AcceptedRecords
import FluxDB.DamagedRecords
import FluxDB.FrameContents
import FluxDB.PageWrites
import FluxDB.WalBeforePage
import FluxDB.BadTails
import FluxDB.SegmentReclaim
import FluxDB.LeafPages
import FluxDB.LeafSplit
import FluxDB.InternalPages
import FluxDB.InternalSplit
import FluxDB.Lib.Chain
import FluxDB.Lib.Outcome
import FluxDB.TreePages
import FluxDB.TreeIndex
import FluxDB.TreeVacuum
import FluxDB.TreeRows
import FluxDB.PageViews
import FluxDB.TreeShape
import FluxDB.TreeGrowth
import FluxDB.TreeGood
import FluxDB.TreeDescent
import FluxDB.TreeSplits
import FluxDB.TreeLeaves
import FluxDB.TreeWrites
import FluxDB.TreeCalls
import FluxDB.TreeSweeps
import FluxDB.CheckpointCodec
import FluxDB.LeafSearch
import FluxDB.Lib.Utf8
import FluxDB.Lib.Varint
import FluxDB.ValueRoundTrip
import FluxDB.KeyOrder
import FluxDB.TreeRuns
import FluxDB.TreeLaws
import FluxDB.TreeLinks
import FluxDB.RecLsns
import FluxDB.TreeWaits
import FluxDB.Isolation
