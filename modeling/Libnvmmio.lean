import Libnvmmio.Foundation.RangeCopy
import Libnvmmio.Foundation.GuardedRun
import Libnvmmio.Foundation.IndexTrie
import Libnvmmio.Foundation.RwLock
import Libnvmmio.Bravo.MutualExclusion
import Libnvmmio.Allocator.Availability
import Libnvmmio.Concurrent.FileSize
import Libnvmmio.Concurrent.HeldEntries
import Libnvmmio.Concurrent.Deadlock
import Libnvmmio.Concurrent.WriteEpoch
import Libnvmmio.Concurrent.LookupsAgree
import Libnvmmio.Concurrent.CheckpointThread
import Libnvmmio.Radixlog.Lookups
import Libnvmmio.Radixlog.BestFit
import Libnvmmio.Mmio.CheckpointComplete
import Libnvmmio.Mmio.Locking
import Libnvmmio.Mmio.Merge
import Libnvmmio.Mmio.Contents
import Libnvmmio.Mmio.WriteSpec
import Libnvmmio.Mmio.CheckpointSpec
import Libnvmmio.Mmio.WriteExactly
import Libnvmmio.Mmio.BlockSlots
import Libnvmmio.Mmio.EpochTags
import Libnvmmio.Mmio.Destinations
import Libnvmmio.Mmio.FileSemantics
import Libnvmmio.Mmio.UndoImage
import Libnvmmio.Mmio.LastClose
import Libnvmmio.Mmio.HybridPolicy
import Libnvmmio.File.Descriptors
import Libnvmmio.File.Narrowing
import Libnvmmio.File.FreeLists
import Libnvmmio.File.Payments
import Libnvmmio.File.HashRuns
import Libnvmmio.Persistence.CommitDurability
import Libnvmmio.Persistence.CrashImages
import Libnvmmio.Persistence.BufferAliasing
import Libnvmmio.Concurrent.LockLists
import Libnvmmio.Mmio.RedoImage
import Libnvmmio.Concurrent.AtomicRequests
import Libnvmmio.Bravo.Progress
import Libnvmmio.Concurrent.MappingGrowth
import Libnvmmio.File.BucketRings
import Libnvmmio.Concurrent.RequestCounts
import Libnvmmio.Concurrent.LogBuffers
import Libnvmmio.File.PassedCalls
import Libnvmmio.Concurrent.DescriptorCalls
import Libnvmmio.Allocator.Exhaustion
import Libnvmmio.Bravo.Refinement
import Libnvmmio.Bravo.Hash
import Libnvmmio.Concurrent.BiasedRequests
