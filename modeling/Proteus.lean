import Proteus.Loading.SameRows
import Proteus.Network.Credits
import Proteus.Network.RemoteReads
import Proteus.Olap.AsyncQueueMpmc
import Proteus.Olap.Caching
import Proteus.Olap.Dictionary
import Proteus.Olap.DivMod
import Proteus.Olap.Extract
import Proteus.Olap.HashJoinProbe
import Proteus.Olap.Operators.BlockScan
import Proteus.Olap.Operators.BloomFilterRepack
import Proteus.Olap.Operators.HashGroupBy
import Proteus.Olap.Operators.HashRearrange
import Proteus.Olap.Parsing
import Proteus.Olap.Router.Polling
import Proteus.Olap.Router.RingWrap
import Proteus.Olap.Router.RouterWrap
import Proteus.Olap.Router.ScaleOutRuns
import Proteus.Olap.SlackLimiter
import Proteus.Oltp.Gc.CrossingLookup
import Proteus.Oltp.Gc.OneShotSafety
import Proteus.Oltp.Gc.Readers
import Proteus.Oltp.Gc.Steam
import Proteus.Oltp.Gc.SteamTruncation
import Proteus.Oltp.Index.ArtLookups
import Proteus.Oltp.Index.ArtOrder
import Proteus.Oltp.Index.ArtRuns
import Proteus.Oltp.Index.HashArray
import Proteus.Oltp.IntervalMapMinimal
import Proteus.Oltp.Layout.BatchInsert
import Proteus.Oltp.Layout.Etl
import Proteus.Oltp.Layout.LazyMarks
import Proteus.Oltp.Layout.LazySlots
import Proteus.Oltp.Layout.TwinMaster
import Proteus.Oltp.Storage.PartialVersions
import Proteus.Oltp.Storage.PointerBits
import Proteus.Oltp.Storage.SlackRuns
import Proteus.Oltp.Storage.Snapshot
import Proteus.Oltp.Storage.StalePointers
import Proteus.Oltp.Storage.Visibility
import Proteus.Planner.LikeToJoin
import Proteus.Planner.ProjectPushBelowUnpack
import Proteus.Planner.PushRouter
import Proteus.Platform.AsyncQueueLockfree
import Proteus.Platform.AsyncQueueRuns
import Proteus.Platform.AtomicBitSet
import Proteus.Platform.AutoresizeableDeque
import Proteus.Platform.BufferManager
import Proteus.Platform.PartitionHT
import Proteus.Platform.PinnedAligned
